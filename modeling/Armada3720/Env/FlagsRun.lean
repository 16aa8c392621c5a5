import Armada3720.Lib.Reaches
import Armada3720.Env.Flags

/-!
# The flags stored with the variables

Right after a change of `.flags` the flags are those that the lists give (`Wf.onFlags_spec`). A variable created
later gets them from `env_flags_init`, which knows `.flags` only as it was when the first variable was created,
on a board the one of the default environment. In every run in which that list gives each new variable what
`.flags` gives it, the stored flags are the denoted ones (`flags_follow_current_list`);
`flags_list_of_first_call_is_kept` is a boot in which it does not. `.flags` keeps its callback, and the
attributes of a list have at most two letters.
-/

namespace Armada3720.Env

open Lib Function HsearchData

/-- Those of the last entry for it in `.flags`, or in the static list if there is none. -/
def denotedFlags (staticList : Str) (value : Option Str) (name : Str) : Nat :=
  match (value.bind fun v => lastEntry (attrEntries v) name).or (lastEntry (attrEntries staticList) name) with
  | none => 0
  | some attributes => attrFlags (some attributes)

/-- A list without white-space, with attributes of at most two letters. -/
structure WellFormedList (attrList : Str) : Prop where
  noSpace : NoSpace attrList
  short : ∀ e ∈ attrEntries attrList, (e.2.getD []).length ≤ envFlagsAttrMaxLen

/-! ## Writing flags -/

def HsearchData.withFlags (t : HsearchData) (f : Nat → Nat) : HsearchData :=
  { t with table := fun i => { t.table i with entry := { (t.table i).entry with flags := f i } } }

section WithFlags

variable {t : HsearchData} {f : Nat → Nat}

theorem HsearchData.withFlags_self (t : HsearchData) :
    t.withFlags (fun i => (t.table i).entry.flags) = t := rfl

theorem HsearchData.withFlags_setFlags (i n : Nat) : (t.withFlags f).setFlags i n = t.withFlags (update f i n) := by
  simp only [setFlags, setSlot, withFlags, HsearchData.mk.injEq, true_and]
  funext j
  by_cases hj : j = i
  · subst hj
    simp
  · simp only [update_of_ne hj]

theorem Wf.withFlags (hwf : Wf t) (f : Nat → Nat) : Wf (t.withFlags f) where
  size := hwf.size
  used := hwf.used
  bounds := hwf.bounds
  filed := hwf.filed
  data := hwf.data
  accepts := hwf.accepts
  inj := hwf.inj
  filled := hwf.filled

theorem Wf.setFlags_eq (hwf : Wf t) (name : Str) (value : Option Str) :
    setFlags name value (t.withFlags f) =
      t.withFlags fun i => if t.Holds i name then attrFlags value else f i := by
  have hwf' := hwf.withFlags f
  rcases hwf'.paths.find_cases .unset ⟨name, none⟩ 0 with ⟨i, hi, hs⟩ | ⟨hno, hs⟩
  · have hi' : t.Holds i name := hi
    have hset : setFlags name value (t.withFlags f) = (t.withFlags f).setFlags i (attrFlags value) := by
      rw [setFlags, hs]
      rfl
    rw [hset, HsearchData.withFlags_setFlags]
    refine congrArg _ (funext fun j => ?_)
    by_cases hj : j = i
    · subst hj
      rw [update_self, if_pos hi']
    · rw [update_of_ne hj, if_neg fun h => hj (hwf.inj j i name h hi')]
  · have hset : setFlags name value (t.withFlags f) = t.withFlags f := by
      rw [setFlags, hs]
      rfl
    rw [hset]
    exact congrArg _ (funext fun j => (if_neg (hno j)).symm)

theorem Wf.walk_eq (hwf : Wf t) (entries : List (Str × Option Str)) (f : Nat → Nat) :
    entries.foldl (fun t e => setFlags e.1 e.2 t) (t.withFlags f) = t.withFlags fun i =>
      entries.foldl (fun n e => if t.Holds i e.1 then attrFlags e.2 else n) (f i) := by
  induction entries generalizing f with
  | nil => rfl
  | cons e entries ih =>
    rw [List.foldl_cons, hwf.setFlags_eq, ih]
    rfl

theorem foldl_attrFlags_eq {i : Nat} {k : Str} (hi : t.Holds i k) (entries : List (Str × Option Str)) (n : Nat) :
    entries.foldl (fun n e => if t.Holds i e.1 then attrFlags e.2 else n) n =
      match lastEntry entries k with
      | none => n
      | some attributes => attrFlags (some attributes) := by
  have hiff : ∀ k', t.Holds i k' ↔ k' = k := by
    intro k'
    constructor
    · intro h
      exact Option.some.inj (h.2.symm.trans hi.2)
    · rintro rfl
      exact hi
  induction entries generalizing n with
  | nil => rfl
  | cons e entries ih =>
    rw [List.foldl_cons, ih, lastEntry_cons]
    simp only [hiff]
    cases lastEntry entries k with
    | some a => rfl
    | none =>
      by_cases he : e.1 = k
      · rw [if_pos he, if_pos he]
        cases e.2 <;> rfl
      · rw [if_neg he, if_neg he]
        rfl

theorem clear_eq (slots : List Nat) (f : Nat → Nat) :
    slots.foldl (fun t i => if 0 < (t.table i).used then t.setFlags i 0 else t) (t.withFlags f) =
      t.withFlags fun i => if i ∈ slots ∧ t.Live i then 0 else f i := by
  induction slots generalizing f with
  | nil => simp
  | cons j slots ih =>
    rw [List.foldl_cons]
    by_cases hj : t.Live j
    · have hj' : 0 < ((t.withFlags f).table j).used := hj
      rw [if_pos hj', HsearchData.withFlags_setFlags, ih]
      refine congrArg _ (funext fun i => ?_)
      by_cases hi : i = j
      · subst hi
        simp [hj]
      · simp [hi]
    · have hj' : ¬ 0 < ((t.withFlags f).table j).used := hj
      rw [if_neg hj', ih]
      refine congrArg _ (funext fun i => ?_)
      by_cases hi : i = j
      · subst hi
        simp [hj]
      · simp [hi]

/-- `on_flags` gives every variable the flags that the lists give its name, and changes nothing
else. -/
theorem Wf.onFlags_spec (hwf : Wf t) (staticList : Str) (value : Option Str) :
    ∃ f, onFlags staticList value t = t.withFlags f ∧
      (∀ i k, t.Holds i k → f i = denotedFlags staticList value k) ∧
      ∀ i, ¬ t.Live i → f i = (t.table i).entry.flags := by
  have hclear := clear_eq (t := t) (List.range' 1 t.size) fun i => (t.table i).entry.flags
  rw [HsearchData.withFlags_self] at hclear
  have hdead : ∀ (entries : List (Str × Option Str)) (i n : Nat), ¬ t.Live i →
      entries.foldl (fun n e => if t.Holds i e.1 then attrFlags e.2 else n) n = n := by
    intro entries i n hi
    induction entries with
    | nil => rfl
    | cons e entries ih => rw [List.foldl_cons, if_neg fun h => hi h.1, ih]
  have hlive : ∀ i, t.Live i → i ∈ List.range' 1 t.size := by
    intro i hi
    have := hwf.bounds i (ne_of_gt hi)
    rw [List.mem_range'_1]
    omega
  rw [onFlags, clearAllFlags, hclear]
  simp only [envAttrWalk]
  rw [hwf.walk_eq]
  cases value with
  | none =>
    refine ⟨_, rfl, fun i k hi => ?_, fun i hi => ?_⟩
    · rw [foldl_attrFlags_eq hi, if_pos ⟨hlive i hi.1, hi.1⟩]
      rfl
    · rw [hdead _ i _ hi, if_neg fun h => hi h.2]
  | some v =>
    dsimp only
    rw [hwf.walk_eq]
    refine ⟨_, rfl, fun i k hi => ?_, fun i hi => ?_⟩
    · rw [foldl_attrFlags_eq hi, foldl_attrFlags_eq hi, if_pos ⟨hlive i hi.1, hi.1⟩, denotedFlags]
      simp only [Option.bind_some]
      cases lastEntry (attrEntries v) k <;> rfl
    · rw [hdead _ i _ hi, hdead _ i _ hi, if_neg fun h => hi h.2]

end WithFlags

/-! ## What `env_flags_init` finds -/

theorem lastEntry_short {attrList : Str} (h : WellFormedList attrList) (name : Str) :
    ((lastEntry (attrEntries attrList) name).getD []).length ≤ envFlagsAttrMaxLen := by
  rw [lastEntry]
  cases hlast : ((attrEntries attrList).filter (·.1 = name)).getLast? with
  | none => exact Nat.zero_le _
  | some e => exact h.short e (List.mem_filter.mp (List.mem_of_getLast? hlast)).1

section Lookup

variable {staticList name : Str} {list : Option Str}

section

variable (hstatic : WellFormedList staticList) (hlist : ∀ v, list = some v → WellFormedList v)
  (hname : LiteralName name)
include hstatic hlist hname

theorem envFlagsLookup_eq :
    envFlagsLookup staticList list name = (list.bind fun v => lastEntry (attrEntries v) name).or
        (lastEntry (attrEntries staticList) name) := by
  rw [envFlagsLookup, envAttrLookup_eq hname hstatic.noSpace]
  cases list with
  | none => rfl
  | some v => rw [Option.bind_some, Option.bind_some, envAttrLookup_eq hname (hlist v rfl).noSpace]

theorem envFlagsLookup_short : ((envFlagsLookup staticList list name).getD []).length ≤ envFlagsAttrMaxLen := by
  rw [envFlagsLookup_eq hstatic hlist hname]
  cases list with
  | none => exact lastEntry_short hstatic name
  | some v =>
    have hv := lastEntry_short (hlist v rfl) name
    rw [Option.bind_some]
    cases hlast : lastEntry (attrEntries v) name with
    | none => exact lastEntry_short hstatic name
    | some a =>
      rw [hlast] at hv
      exact hv

theorem flagsFor_getD : (flagsFor staticList list name).getD 0 = denotedFlags staticList list name := by
  rw [flagsFor, envFlagsLookup_eq hstatic hlist hname, denotedFlags]
  cases (list.bind fun v => lastEntry (attrEntries v) name).or (lastEntry (attrEntries staticList) name) with
  | none => rfl
  | some a =>
    cases a with
    | nil => rfl
    | cons c a => rfl

end

end Lookup

/-! ## Reading a variable -/

theorem Wf.envGet_eq {t : HsearchData} (hwf : Wf t) {m : Str → Option Str} (hm : Represents t m) :
    envGet t = m := by
  funext k
  rcases hwf.paths.find_cases .unset ⟨k, none⟩ 0 with ⟨i, hi, hs⟩ | ⟨hno, hs⟩
  · rw [envGet, hs, hwf.represents_some_of_holds hm hi]
    rfl
  · rw [envGet, hs, (hwf.represents_none_iff hm k).mpr hno]
    rfl

theorem Wf.represents_envGet {t : HsearchData} (hwf : Wf t) : Represents t (envGet t) := by
  intro k v
  rcases hwf.paths.find_cases .unset ⟨k, none⟩ 0 with ⟨i, hi, hs⟩ | ⟨hno, hs⟩
  · have hget : envGet t k = (t.table i).entry.data := by
      rw [envGet, hs]
      rfl
    rw [hget]
    constructor
    · intro h
      exact ⟨i, hi, h⟩
    · rintro ⟨i', hi', h⟩
      rwa [hwf.inj i i' k hi hi']
  · have hget : envGet t k = none := by
      rw [envGet, hs]
      rfl
    rw [hget]
    constructor
    · nofun
    · rintro ⟨i, hi, -⟩
      exact absurd hi (hno i)

/-! ## Tables whose flags follow `.flags` -/

/-- A slot without an entry has no flags. -/
def Idle (t : HsearchData) : Prop := ∀ i, ¬ t.Live i → (t.table i).entry.flags = 0

/-- The flags of every variable are those that `.flags` and the static list give it now. -/
structure Follows (staticList : Str) (t : HsearchData) : Prop where
  wf : Wf t
  idle : Idle t
  flags : ∀ i k, t.Holds i k →
    (t.table i).entry.flags = denotedFlags staticList (envGet t envFlagsVar) k
  current : ∀ v, envGet t envFlagsVar = some v → WellFormedList v

section Writes

variable {staticList k v : Str} {t : HsearchData} {i : Nat} {e : Entry}

theorem Idle.setData (h : Idle t) (i : Nat) (v : Str) : Idle (t.setData i v) := by
  intro j hj
  rw [setData_live] at hj
  by_cases hji : j = i
  · rw [hji, HsearchData.setData, setSlot_self]
    exact h i (hji ▸ hj)
  · rw [HsearchData.setData, setSlot_ne t _ hji]
    exact h j hj

theorem Idle.file (h : Idle t) (hwf : Wf t) (k : Str) (i : Nat) (e : Entry) :
    Idle (t.file i (hashVal t.size k) e) := by
  intro j hj
  rw [t.file_live (hashVal_mem hwf.size k).1, not_or] at hj
  rw [t.file_ne _ _ hj.1]
  exact h j hj.2

theorem Idle.hdelete (h : Idle t) (i : Nat) : Idle (hdelete t i) := by
  intro j hj
  rw [hdelete_live, not_and] at hj
  by_cases hji : j = i
  · rw [hji, hdelete_self]
  · rw [hdelete_ne t hji]
    exact h j (hj hji)

theorem follows_onFlags (staticList : Str) (hwf : Wf t) (hidle : Idle t) {value : Option Str}
    (hvalue : envGet t envFlagsVar = value) (hform : ∀ v, value = some v → WellFormedList v) :
    Follows staticList (onFlags staticList value t) := by
  obtain ⟨f, hf, hflags, hdead⟩ := hwf.onFlags_spec staticList value
  have hget : envGet (t.withFlags f) = envGet t := (hwf.withFlags f).envGet_eq hwf.represents_envGet
  rw [hf]
  refine ⟨hwf.withFlags f, fun i hi => (hdead i hi).trans (hidle i hi), fun i k hi => ?_, ?_⟩
  · rw [hget, hvalue]
    exact hflags i k hi
  · rw [hget, hvalue]
    exact hform

theorem Follows.envGet_of_holds (h : Follows staticList t) (hi : t.Holds i k) :
    envGet t k = (t.table i).entry.data :=
  h.wf.represents_some_of_holds h.wf.represents_envGet hi

theorem Follows.envGet_setData (h : Follows staticList t) (hi : t.Holds i k) :
    envGet (t.setData i v) = update (envGet t) k (some v) :=
  (h.wf.setData i v).envGet_eq (h.wf.represents_setData h.wf.represents_envGet hi)

theorem Follows.setData (h : Follows staticList t) (hi : t.Holds i k) (hk : k ≠ envFlagsVar) :
    Follows staticList (t.setData i v) := by
  have hget : envGet (t.setData i v) envFlagsVar = envGet t envFlagsVar := by
    rw [h.envGet_setData hi, update_of_ne hk.symm]
  refine ⟨h.wf.setData i v, h.idle.setData i v, fun j k' hj => ?_, hget ▸ h.current⟩
  rw [hget, ← h.flags j k' ((t.setData_holds i v j k').mp hj)]
  by_cases hji : j = i
  · rw [hji, HsearchData.setData, setSlot_self]
  · rw [HsearchData.setData, setSlot_ne t _ hji]

/-- The slot is the one searched for and free, and the entry is the variable's. -/
structure Placed (t : HsearchData) (k v : Str) (i : Nat) (e : Entry) : Prop where
  missing : ∀ i, ¬ t.Holds i k
  target : Target t k i
  free : ¬ t.Live i
  key : e.key = some k
  data : e.data = some v
  accepts : e.Accepts

theorem Placed.wf (hp : Placed t k v i e) (hwf : Wf t) : Wf (t.file i (hashVal t.size k) e) :=
  hwf.file hp.missing hp.target hp.free hp.key hp.data hp.accepts

theorem Placed.envGet_file (hp : Placed t k v i e) (hwf : Wf t) :
    envGet (t.file i (hashVal t.size k) e) = update (envGet t) k (some v) :=
  (hp.wf hwf).envGet_eq (hwf.represents_file hwf.represents_envGet hp.missing hp.free hp.key hp.data)

theorem Placed.holds_file (hp : Placed t k v i e) (hwf : Wf t) (j : Nat) (k' : Str) :
    (t.file i (hashVal t.size k) e).Holds j k' ↔ (j = i ∧ k' = k) ∨ t.Holds j k' :=
  t.file_holds (hashVal_mem hwf.size k).1 hp.free hp.key j k'

theorem Follows.file (h : Follows staticList t) (hp : Placed t k v i e) (hk : k ≠ envFlagsVar)
    (hflags : e.flags = denotedFlags staticList (envGet t envFlagsVar) k) :
    Follows staticList (t.file i (hashVal t.size k) e) := by
  have hget : envGet (t.file i (hashVal t.size k) e) envFlagsVar = envGet t envFlagsVar := by
    rw [hp.envGet_file h.wf, update_of_ne hk.symm]
  refine ⟨hp.wf h.wf, h.idle.file h.wf k i e, fun j k' hj => ?_, hget ▸ h.current⟩
  rw [hget]
  rcases (hp.holds_file h.wf j k').mp hj with ⟨rfl, rfl⟩ | hj'
  · rw [file_self]
    exact hflags
  · have hji : j ≠ i := by
      rintro rfl
      exact hp.free hj'.1
    rw [t.file_ne _ _ hji]
    exact h.flags j k' hj'

theorem Follows.undo (h : Follows staticList t) (hp : Placed t k v i e) :
    Follows staticList (Env.hdelete (t.file i (hashVal t.size k) e) i) := by
  have hnew : (t.file i (hashVal t.size k) e).Holds i k :=
    (hp.holds_file h.wf i k).mpr (Or.inl ⟨rfl, rfl⟩)
  have hwf := (hp.wf h.wf).hdelete hnew.1
  have hnone := (h.wf.represents_none_iff h.wf.represents_envGet k).mpr hp.missing
  have hget : envGet (Env.hdelete (t.file i (hashVal t.size k) e) i) = envGet t := by
    rw [hwf.envGet_eq ((hp.wf h.wf).represents_hdelete (hp.wf h.wf).represents_envGet hnew),
      hp.envGet_file h.wf, update_idem, ← hnone, update_eq_self]
  refine ⟨hwf, (h.idle.file h.wf k i e).hdelete i, fun j k' hj => ?_, hget ▸ h.current⟩
  rw [hdelete_holds, hp.holds_file h.wf] at hj
  have hj' : t.Holds j k' := hj.2.resolve_left fun hji => hj.1 hji.1
  rw [hget, hdelete_ne _ hj.1, t.file_ne _ _ hj.1]
  exact h.flags j k' hj'

theorem Follows.envGet_hdelete (h : Follows staticList t) (hi : t.Holds i k) :
    envGet (Env.hdelete t i) = update (envGet t) k none :=
  (h.wf.hdelete hi.1).envGet_eq (h.wf.represents_hdelete h.wf.represents_envGet hi)

theorem Follows.hdelete (h : Follows staticList t) (hi : t.Holds i k) (hk : k ≠ envFlagsVar) :
    Follows staticList (Env.hdelete t i) := by
  have hget : envGet (Env.hdelete t i) envFlagsVar = envGet t envFlagsVar := by
    rw [h.envGet_hdelete hi, update_of_ne hk.symm]
  refine ⟨h.wf.hdelete hi.1, h.idle.hdelete i, fun j k' hj => ?_, hget ▸ h.current⟩
  rw [hdelete_holds] at hj
  rw [hget, hdelete_ne t hj.1]
  exact h.flags j k' hj.2

end Writes

/-! ## Calls -/

/-- The entry of a variable with the flags that the lists give it now. -/
def FlagsState.entryOf (cfg : FlagsConfig) (s : FlagsState) (key value : Str) : Entry :=
  ⟨some key, some value, none, denotedFlags cfg.staticList (envGet s.htab envFlagsVar) key⟩

/-- Whether a call succeeds if the flags of the variable are those that the lists give it now. -/
def FlagsState.permits (cfg : FlagsConfig) (s : FlagsState) : FlagsCall → Bool
  | .enter key value flag refuses =>
    match envGet s.htab key with
    | some old => !changeRefused cfg refuses (s.entryOf cfg key old) (some value) .overwrite flag
    | none => s.htab.filled ≠ s.htab.size &&
        !changeRefused cfg refuses (s.entryOf cfg key value) (some value) .create flag
  | .delete key flag refuses =>
    match envGet s.htab key with
    | some old => !changeRefused cfg refuses (s.entryOf cfg key old) none .delete flag
    | none => false
  | _ => true

/-- A new variable has a name that an entry of a list can have, replaces no live entry, and gets from the list
that `flags_list` shows, well formed and not freed, what `.flags` gives it. Values of `.flags` are well formed. -/
def FlagsState.Allowed (cfg : FlagsConfig) (s : FlagsState) : FlagsCall → Prop
  | .enter key value _ _ => (key = envFlagsVar → WellFormedList value) ∧
      (envGet s.htab key = none → s.htab.filled ≠ s.htab.size →
        LiteralName key ∧ ¬ EntersOverLive s.htab key ∧ (s.initList cfg key value).flagsList ≠ .freed ∧
        (∀ list, (s.initList cfg key value).list = some list → WellFormedList list) ∧
        denotedFlags cfg.staticList (s.initList cfg key value).list key =
          denotedFlags cfg.staticList (envGet s.htab envFlagsVar) key)
  | _ => True

theorem FlagsState.initList_htab (cfg : FlagsConfig) (key value : Str) (s : FlagsState) :
    (s.initList cfg key value).htab = s.htab := by
  unfold FlagsState.initList
  split
  · rfl
  · split
    · split <;> rfl
    · rfl

theorem flagsHooks_quiet (cfg : FlagsConfig) (list : Option Str) (refuses : Callback) :
    (flagsHooks cfg list refuses).Quiet :=
  ⟨fun _ => rfl, nofun⟩

theorem changeRefused_congr (cfg : FlagsConfig) (refuses : Callback) {e e' : Entry}
    (hkey : e.key = e'.key) (hdata : e.data = e'.data) (hflags : e.flags = e'.flags)
    (newval : Option Str) (op : EnvOp) (flag : Nat) :
    changeRefused cfg refuses e newval op flag = changeRefused cfg refuses e' newval op flag := by
  simp only [changeRefused, envFlagsValidate, hkey, hdata, hflags]

section Calls

variable {cfg : FlagsConfig} {s : FlagsState} {key value : Str} {flag : Nat} {refuses : Callback}

theorem Follows.refuses_eq (h : Follows cfg.staticList s.htab) {i : Nat} (hi : s.htab.Holds i key)
    {old : Str} (hold : envGet s.htab key = some old) (list newval : Option Str) (op : EnvOp) :
    (flagsHooks cfg list refuses).refuses (s.htab.table i).entry newval op flag =
      changeRefused cfg refuses (s.entryOf cfg key old) newval op flag :=
  changeRefused_congr cfg refuses hi.2 ((h.envGet_of_holds hi).symm.trans hold)
    (h.flags i key hi) newval op flag

theorem Follows.overwrite (h : Follows cfg.staticList s.htab) {old : Str}
    (hold : envGet s.htab key = some old) (hform : key = envFlagsVar → WellFormedList value) :
    ∃ s', s.overwrite cfg key value flag refuses = some (s', !changeRefused cfg refuses
      (s.entryOf cfg key old) (some value) .overwrite flag) ∧ Follows cfg.staticList s'.htab := by
  rcases h.wf.enter_quiet (flagsHooks_quiet cfg s.list refuses) key value flag with
    ⟨i, hi, hs⟩ | ⟨hno, -⟩ | ⟨hno, -⟩
  · rw [h.refuses_eq hi hold] at hs
    rw [FlagsState.overwrite, hs]
    cases changeRefused cfg refuses (s.entryOf cfg key old) (some value) .overwrite flag with
    | true =>
      simp only [if_true, Option.map_some, Option.isSome_none, Bool.false_eq_true, and_false, if_false,
        Bool.not_true]
      exact ⟨_, rfl, h⟩
    | false =>
      simp only [Bool.false_eq_true, if_false, Option.map_some, Option.isSome_some, and_true, Bool.not_false]
      split
      · next hk =>
        subst hk
        have hget : envGet (s.htab.setData i value) envFlagsVar = some value := by
          rw [h.envGet_setData hi, update_self]
        exact ⟨_, rfl, follows_onFlags cfg.staticList (h.wf.setData i value)
          (h.idle.setData i value) hget fun v hv => Option.some.inj hv ▸ hform rfl⟩
      · next hk => exact ⟨_, rfl, h.setData hi hk⟩
  all_goals
    rw [(h.wf.represents_none_iff h.wf.represents_envGet key).mpr hno] at hold
    cases hold

theorem newEntry_flags (cfg : FlagsConfig) (refuses : Callback) (key value : Str)
    (list : Option Str) {t : HsearchData} {i : Nat} (hidle : Idle t) (hi : ¬ t.Live i) :
    ((flagsHooks cfg list refuses).newEntry t i key value).flags =
      (flagsFor cfg.staticList list key).getD 0 := by
  have h0 := hidle i hi
  simp only [Hooks.newEntry, Hooks.envFlagsInit, Hooks.envCallbackInit, flagsHooks, Option.bind_some]
  cases flagsFor cfg.staticList list key with
  | none => exact h0
  | some n => rfl

theorem Follows.create (h : Follows cfg.staticList s.htab) (hstatic : WellFormedList cfg.staticList)
    (hnone : envGet s.htab key = none) (hroom : s.htab.filled ≠ s.htab.size)
    (hform : key = envFlagsVar → WellFormedList value) (hname : LiteralName key)
    (hsafe : ¬ EntersOverLive s.htab key) (hfreed : (s.initList cfg key value).flagsList ≠ .freed)
    (hlist : ∀ list, (s.initList cfg key value).list = some list → WellFormedList list)
    (hflags : denotedFlags cfg.staticList (s.initList cfg key value).list key =
      denotedFlags cfg.staticList (envGet s.htab envFlagsVar) key) :
    ∃ s', s.create cfg key value flag refuses = some (s', !changeRefused cfg refuses
      (s.entryOf cfg key value) (some value) .create flag) ∧ Follows cfg.staticList s'.htab := by
  have hno := (h.wf.represents_none_iff h.wf.represents_envGet key).mp hnone
  have hquiet := flagsHooks_quiet cfg (s.initList cfg key value).list refuses
  rcases h.wf.enter_quiet hquiet key value flag with
    ⟨i, hi, -⟩ | ⟨-, hfull, -⟩ | ⟨-, -, i, htarget, hs⟩
  · exact absurd hi (hno i)
  · exact absurd hfull hroom
  have hfree := not_live_of_target hno hroom hsafe htarget
  have hnew := newEntry_flags cfg refuses key value (s.initList cfg key value).list h.idle hfree
  rw [flagsFor_getD hstatic hlist hname, hflags] at hnew
  have hplaced : Placed s.htab key value i
      ((flagsHooks cfg (s.initList cfg key value).list refuses).newEntry s.htab i key value) :=
    ⟨hno, htarget, hfree, Hooks.newEntry_key _ _ _ _ _, Hooks.newEntry_data _ _ _ _ _,
      h.wf.newEntry_accepts hquiet i key value⟩
  have hrefused : (flagsHooks cfg (s.initList cfg key value).list refuses).refuses
      ((flagsHooks cfg (s.initList cfg key value).list refuses).newEntry s.htab i key value) (some value)
        .create flag =
      changeRefused cfg refuses (s.entryOf cfg key value) (some value) .create flag :=
    changeRefused_congr cfg refuses hplaced.key hplaced.data hnew _ _ _
  rw [hrefused] at hs
  simp only [FlagsState.create, hfreed, if_false, if_neg (not_lt.mpr (envFlagsLookup_short hstatic hlist hname)),
    s.initList_htab, hs]
  cases changeRefused cfg refuses (s.entryOf cfg key value) (some value) .create flag with
  | true =>
    simp only [if_true, Option.map_some, Option.isSome_none, Bool.false_eq_true, if_false, Bool.not_true]
    exact ⟨_, rfl, h.undo hplaced⟩
  | false =>
    simp only [Bool.false_eq_true, if_false, Option.map_some, Option.isSome_some, if_true, Bool.not_false]
    refine ⟨_, rfl, ?_⟩
    by_cases hk : key = envFlagsVar
    · have hget := hplaced.envGet_file h.wf
      simp only [if_pos hk]
      refine follows_onFlags cfg.staticList (hplaced.wf h.wf) (h.idle.file h.wf key i _) ?_
        fun v hv => Option.some.inj hv ▸ hform hk
      rw [hget, ← hk, update_self]
    · simp only [if_neg hk]
      exact h.file hplaced hk hnew

theorem Follows.delete (h : Follows cfg.staticList s.htab) :
    ∃ s', s.delete cfg key flag refuses = some (s', s.permits cfg (.delete key flag refuses)) ∧
      Follows cfg.staticList s'.htab := by
  rcases h.wf.delete_quiet (flagsHooks cfg s.list refuses) key flag with
    ⟨i, hi, hs⟩ | ⟨hno, hs⟩
  · obtain ⟨old, hold⟩ := h.wf.data i hi.1
    rw [← h.envGet_of_holds hi] at hold
    rw [h.refuses_eq hi hold] at hs
    rw [FlagsState.delete, hs, FlagsState.permits, hold]
    dsimp only
    cases changeRefused cfg refuses (s.entryOf cfg key old) none .delete flag with
    | true =>
      refine ⟨s, ?_, h⟩
      simp
    | false =>
      simp only [Bool.false_eq_true, if_false, Option.map_some, ne_eq, one_ne_zero,
        not_false_eq_true, and_true, decide_true, Bool.not_false]
      split
      · next hk =>
        subst hk
        have hget : envGet (Env.hdelete s.htab i) envFlagsVar = none := by
          rw [h.envGet_hdelete hi, update_self]
        exact ⟨_, rfl, follows_onFlags cfg.staticList (h.wf.hdelete hi.1) (h.idle.hdelete i) hget nofun⟩
      · next hk => exact ⟨_, rfl, h.hdelete hi hk⟩
  · have hnone := (h.wf.represents_none_iff h.wf.represents_envGet key).mpr hno
    refine ⟨s, ?_, h⟩
    rw [FlagsState.delete, hs, FlagsState.permits, hnone]
    simp

/-- An allowed call returns, succeeds exactly if the current flags of the variable permit it, and leaves flags
that follow `.flags`. -/
theorem Follows.exec (h : Follows cfg.staticList s.htab) (hstatic : WellFormedList cfg.staticList)
    (c : FlagsCall) (hc : s.Allowed cfg c) :
    ∃ s', c.exec cfg s = some (s', s.permits cfg c) ∧ Follows cfg.staticList s'.htab := by
  cases c with
  | enter key value flag refuses =>
    obtain ⟨hform, hnew⟩ := hc
    simp only [FlagsCall.exec, FlagsState.permits]
    cases hget : envGet s.htab key with
    | some old => exact h.overwrite hget hform
    | none =>
      by_cases hfull : s.htab.filled = s.htab.size
      · refine ⟨s, ?_, h⟩
        simp [hfull]
      · obtain ⟨hname, hsafe, hfreed, hlist, hflags⟩ := hnew hget hfull
        simp only [ne_eq, hfull, not_false_eq_true, decide_true, Bool.true_and]
        exact h.create hstatic hget hfull hform hname hsafe hfreed hlist hflags
  | delete key flag refuses => exact h.delete
  | getDefault name => exact ⟨_, rfl, h⟩
  | ready => exact ⟨_, rfl, h⟩

end Calls

theorem follows_of_hcreateR (cfg : FlagsConfig) {nel : Nat} {t : HsearchData}
    (hcreate : hcreateR nel = some t) : Follows cfg.staticList t := by
  obtain ⟨hwf, hm⟩ := wf_of_hcreateR hcreate
  obtain ⟨-, -, htable⟩ := hcreateR_spec hcreate
  have hget : envGet t = fun _ => none := hwf.envGet_eq hm
  refine ⟨hwf, fun i _ => ?_, fun i k hi => ?_, fun v hv => ?_⟩
  · rw [htable]
    rfl
  · have hlive := hi.1
    rw [HsearchData.Live, htable] at hlive
    exact absurd hlive (lt_irrefl 0)
  · rw [hget] at hv
    cases hv

def FlagsState.Step (cfg : FlagsConfig) (s : FlagsState) (c : FlagsCall) (s' : FlagsState) : Prop :=
  ∃ ok, c.exec cfg s = some (s', ok)

/-- In every run of allowed calls from boot the flags of every variable are those that the last entry for it in
the current `.flags` gives it, or the static list; and every further call returns and succeeds exactly if those
flags permit it. -/
theorem flags_follow_current_list (cfg : FlagsConfig) (hstatic : WellFormedList cfg.staticList)
    (nel : Nat) (t : HsearchData) (hcreate : hcreateR nel = some t) (s : FlagsState)
    (hreach : Reaches (FlagsState.Step cfg) (FlagsState.Allowed cfg) (.boot t) s) :
    (∀ i k, s.htab.Holds i k → (s.htab.table i).entry.flags =
      denotedFlags cfg.staticList (envGet s.htab envFlagsVar) k) ∧
    ∀ c, s.Allowed cfg c → ∃ s', c.exec cfg s = some (s', s.permits cfg c) := by
  have h : Follows cfg.staticList s.htab := by
    refine hreach.invariant (P := fun s => Follows cfg.staticList s.htab) (follows_of_hcreateR cfg hcreate) ?_
    rintro s s' c h hc ⟨ok, hexec⟩
    obtain ⟨s'', hexec', h'⟩ := h.exec hstatic c hc
    cases hexec.symm.trans hexec'
    exact h'
  refine ⟨h.flags, fun c hc => ?_⟩
  obtain ⟨s', hexec, -⟩ := h.exec hstatic c hc
  exact ⟨s', hexec⟩

def FlagsCall.set (key value : Str) : FlagsCall := .enter key value 0 fun _ _ _ _ => false

def readOnlyB : Str := [98, 58, 115, 114]

theorem readOnlyB_wellFormed : WellFormedList readOnlyB := ⟨by decide +kernel, by decide +kernel⟩

def noDefaults : FlagsConfig := ⟨[], [], false⟩

/-- The default environment makes `b` read-only. -/
def defaultFlags : FlagsConfig := ⟨[], [envFlagsVar ++ 61 :: readOnlyB], false⟩

theorem nil_wellFormed : WellFormedList [] := ⟨by decide +kernel, by decide +kernel⟩

def FlagsState.after (cfg : FlagsConfig) (s : FlagsState) (c : FlagsCall) : FlagsState :=
  ((c.exec cfg s).map (·.1)).getD s

theorem FlagsState.step_after {cfg : FlagsConfig} {s : FlagsState} {c : FlagsCall}
    (h : (c.exec cfg s).isSome = true) : FlagsState.Step cfg s c (s.after cfg c) := by
  obtain ⟨⟨s', ok⟩, hs⟩ := Option.isSome_iff_exists.mp h
  exact ⟨ok, by rw [FlagsState.after, hs]; rfl⟩

def oneImported : FlagsState := (FlagsState.boot fiveSlots).after defaultFlags (.set [97] [49])

def flagsImported : FlagsState :=
  (oneImported.after defaultFlags (.set envFlagsVar readOnlyB)).after defaultFlags .ready

theorem allowed_of_buffer {s : FlagsState} {key value : Str} (hkey : key = envFlagsVar → value = readOnlyB)
    (hname : LiteralName key) (hsafe : ¬ EntersOverLive s.htab key)
    (hptr : (s.initList defaultFlags key value).flagsList = .buffer)
    (hbuf : (s.initList defaultFlags key value).envBuf = readOnlyB)
    (hflags : denotedFlags [] (some readOnlyB) key = denotedFlags [] (envGet s.htab envFlagsVar) key) :
    s.Allowed defaultFlags (.set key value) := by
  have hshown : (s.initList defaultFlags key value).list = some readOnlyB := by
    rw [FlagsState.list, hptr, hbuf, FlagsList.list]
  refine ⟨fun hk => hkey hk ▸ readOnlyB_wellFormed, fun _ _ => ⟨hname, hsafe, ?_, ?_, ?_⟩⟩
  · rw [hptr]
    nofun
  · rw [hshown]
    rintro _ ⟨⟩
    exact readOnlyB_wellFormed
  · rwa [hshown]

/-- The first import, of another variable and of the default `.flags`, takes the list from `gd->env_buf`; after
it `b` is not created. -/
theorem flags_follow_current_list_import :
    Reaches (FlagsState.Step defaultFlags) (FlagsState.Allowed defaultFlags) (.boot fiveSlots) flagsImported ∧
      flagsImported.flagsList = .buffer ∧ envGet flagsImported.htab envFlagsVar = some readOnlyB ∧
      ∃ s', (FlagsCall.set [98] [49]).exec defaultFlags flagsImported = some (s', false) := by
  have ha : (FlagsState.boot fiveSlots).Allowed defaultFlags (.set [97] [49]) :=
    allowed_of_buffer (by decide +kernel) ⟨by decide +kernel, by decide +kernel⟩ (by decide +kernel)
      (by decide +kernel) (by decide +kernel) (by decide +kernel)
  have hf : oneImported.Allowed defaultFlags (.set envFlagsVar readOnlyB) :=
    allowed_of_buffer (fun _ => rfl) ⟨by decide +kernel, by decide +kernel⟩ (by decide +kernel)
      (by decide +kernel) (by decide +kernel) (by decide +kernel)
  have hb : flagsImported.Allowed defaultFlags (.set [98] [49]) :=
    allowed_of_buffer (by decide +kernel) ⟨by decide +kernel, by decide +kernel⟩ (by decide +kernel)
      (by decide +kernel) (by decide +kernel) (by decide +kernel)
  have hrun : Reaches (FlagsState.Step defaultFlags) (FlagsState.Allowed defaultFlags) (.boot fiveSlots)
      flagsImported :=
    .step (a := .ready) (.step (.step .start ha (FlagsState.step_after (by decide +kernel))) hf
      (FlagsState.step_after (by decide +kernel))) trivial ⟨true, rfl⟩
  obtain ⟨-, hexec⟩ := flags_follow_current_list defaultFlags nil_wellFormed 5 fiveSlots rfl _ hrun
  obtain ⟨s', hs'⟩ := hexec (.set [98] [49]) hb
  refine ⟨hrun, by decide +kernel, by decide +kernel, s', hs'.trans ?_⟩
  exact congrArg (fun ok => some (s', ok)) (by decide +kernel)

/-- A variable is imported, then `.flags` makes `b` read-only, then `b` is created: it has no flags, and can be
overwritten. -/
theorem flags_list_of_first_call_is_kept :
    hcreateR 5 = some fiveSlots ∧
    ([.set [97] [49], .ready, .set envFlagsVar readOnlyB, .set [98] [49], .set [98] [50]].foldlM
      (fun (s : FlagsState) (c : FlagsCall) => (c.exec noDefaults s).map (·.1))
      (.boot fiveSlots)).map (fun s => (envGet s.htab envFlagsVar, envGet s.htab [98],
        denotedFlags [] (envGet s.htab envFlagsVar) [98],
        (List.range 6).filterMap fun i => if s.htab.Holds i [98] then
          some (s.htab.table i).entry.flags else none)) =
    some (some readOnlyB, some [50], 0x38, [0]) :=
  ⟨rfl, by decide +kernel⟩

end Armada3720.Env
