import Armada3720.Env.HashTableSearch

/-!
# The environment hash table as a map

What `hsearch_r` and `hdelete_r` do to the key-to-value map of a table (`Represents`). `ENTER` does not always
refine the map: when the search comes back to its first slot, the new entry may replace a live one
(`EntersOverLive`).
-/

namespace Armada3720.Env

open Lib Function Finset HsearchData

/-- The key-to-value map that a table holds. -/
def Represents (t : HsearchData) (m : Str → Option Str) : Prop :=
  ∀ k v, m k = some v ↔ ∃ i, t.Holds i k ∧ (t.table i).entry.data = some v

variable {t : HsearchData} {hk : Hooks}

theorem Wf.represents_none_iff (hwf : Wf t) {m : Str → Option Str} (hm : Represents t m) (k : Str) :
    m k = none ↔ ∀ i, ¬ t.Holds i k := by
  constructor
  · intro h i hi
    obtain ⟨v, hv⟩ := hwf.data i hi.1
    have := (hm k v).mpr ⟨i, hi, hv⟩
    rw [h] at this
    cases this
  · intro h
    cases hk : m k with
    | none => rfl
    | some v =>
      obtain ⟨i, hi, -⟩ := (hm k v).mp hk
      exact absurd hi (h i)

theorem Wf.represents_some_of_holds (hwf : Wf t) {m : Str → Option Str} (hm : Represents t m)
    {i : Nat} {k : Str} (hi : t.Holds i k) : m k = (t.table i).entry.data := by
  obtain ⟨v, hv⟩ := hwf.data i hi.1
  rw [hv]
  exact (hm k v).mpr ⟨i, hi, hv⟩

/-! ## What each call does -/

theorem Paths.find_cases (hp : Paths t) (hk : Hooks) (item : Item) (flag : Nat) :
    (∃ i, t.Holds i item.key ∧ hsearchR hk item .find t flag = some (t, ⟨i, some i, none⟩)) ∨
    ((∀ i, ¬ t.Holds i item.key) ∧
      hsearchR hk item .find t flag = some (t, ⟨0, none, some .ESRCH⟩)) := by
  rcases hp.hsearchR_cases hk item .find flag with ⟨i, hi, hs⟩ | ⟨hno, fd, idx, -, hs⟩
  · refine Or.inl ⟨i, hi, ?_⟩
    rw [hs]
    simp only [compareAndOverwriteEntry, (hp.match_iff i item.key).mpr hi, and_self, if_true]
  · exact Or.inr ⟨hno, hs⟩

/-- Memory is available and every callback accepts; `change_ok` may refuse. -/
structure Hooks.Quiet (hk : Hooks) : Prop where
  strdup : ∀ s, hk.strdup s = some s
  callback : ∀ k f, hk.callbackOf k = some f → ∀ name value op flag, f name value op flag = false

theorem Hooks.Accepting.quiet (hacc : hk.Accepting) : hk.Quiet :=
  ⟨hacc.strdup, hacc.callback⟩

theorem Hooks.Quiet.init_accepts (hq : hk.Quiet) {e : Entry} (he : e.Accepts) :
    (hk.envFlagsInit (hk.envCallbackInit e)).Accepts := by
  have h1 : (hk.envCallbackInit e).Accepts := by
    unfold Hooks.envCallbackInit
    split
    · exact he
    · next f hf =>
      obtain ⟨k, -, hf⟩ := Option.bind_eq_some_iff.mp hf
      exact hq.callback k f hf
  unfold Hooks.envFlagsInit
  split
  · exact h1
  · exact h1

theorem Hooks.init_key (hk : Hooks) (e : Entry) : (hk.envFlagsInit (hk.envCallbackInit e)).key = e.key := by
  unfold Hooks.envFlagsInit Hooks.envCallbackInit
  split <;> split <;> rfl

theorem Hooks.init_data (hk : Hooks) (e : Entry) : (hk.envFlagsInit (hk.envCallbackInit e)).data = e.data := by
  unfold Hooks.envFlagsInit Hooks.envCallbackInit
  split <;> split <;> rfl

def HsearchData.file (t : HsearchData) (i hval : Nat) (e : Entry) : HsearchData :=
  { t.setSlot i ⟨hval, e⟩ with filled := t.filled + 1 }

def HsearchData.setData (t : HsearchData) (i : Nat) (v : Str) : HsearchData :=
  t.setSlot i { t.table i with entry := { (t.table i).entry with data := some v } }

theorem Paths.intOfUint_hashVal (hp : Paths t) (k : Str) :
    intOfUint (hashVal t.size k) = hashVal t.size k := by
  have hlt := hp.hashVal_lt k
  unfold intOfUint
  rw [if_pos (by omega)]

def Hooks.newEntry (hk : Hooks) (t : HsearchData) (i : Nat) (k v : Str) : Entry :=
  hk.envFlagsInit (hk.envCallbackInit { (t.table i).entry with key := some k, data := some v })

theorem Hooks.newEntry_key (hk : Hooks) (t : HsearchData) (i : Nat) (k v : Str) :
    (hk.newEntry t i k v).key = some k :=
  hk.init_key _

theorem Hooks.newEntry_data (hk : Hooks) (t : HsearchData) (i : Nat) (k v : Str) :
    (hk.newEntry t i k v).data = some v :=
  hk.init_data _

theorem Wf.newEntry_accepts (hwf : Wf t) (hq : hk.Quiet) (i : Nat) (k v : Str) : (hk.newEntry t i k v).Accepts :=
  hq.init_accepts (hwf.accepts i)

/-- A new entry is made in the slot chosen, and deleted again if `change_ok` or its callback refuses it. -/
theorem Sound.hsearchCreate_eq (hs : Sound t) {k v : Str} (hkey : hk.strdup k = some k)
    (hval : hk.strdup v = some v) (flag i : Nat) :
    hsearchCreate hk ⟨k, some v⟩ t flag (hashVal t.size k) i =
      if hk.refuses (hk.newEntry t i k v) (some v) .create flag then
        (hdelete (t.file i (hashVal t.size k) (hk.newEntry t i k v)) i, ⟨0, none, some .EPERM⟩)
      else if (hk.newEntry t i k v).callbackRefuses k (some v) .create flag then
        (hdelete (t.file i (hashVal t.size k) (hk.newEntry t i k v)) i, ⟨0, none, some .EINVAL⟩)
      else (t.file i (hashVal t.size k) (hk.newEntry t i k v), ⟨1, some i, none⟩) := by
  have hint := hs.intOfUint_hashVal k
  have hmod : (t.filled + 1) % 2 ^ 32 = t.filled + 1 := by
    have hfill := hs.filled_le
    have hsize := hs.size.2
    omega
  have hfile : { (t.setSlot i ⟨hashVal t.size k, { (t.table i).entry with
      key := some k, data := some v }⟩).setSlot i ⟨hashVal t.size k, hk.newEntry t i k v⟩ with
        filled := t.filled + 1 } = t.file i (hashVal t.size k) (hk.newEntry t i k v) := by
    simp only [HsearchData.file, HsearchData.setSlot, update_idem]
  unfold hsearchCreate
  simp only [hkey, hval, Option.bind_some, hint, hmod, reduceCtorEq, or_self, if_false]
  rw [← Hooks.newEntry, hfile]
  rfl

/-- `ENTER` replaces the value of a key that is there, makes a new entry for one that is not, and fails only in
a full table or when `change_ok` refuses. -/
theorem Wf.enter_quiet (hwf : Wf t) (hq : hk.Quiet) (k v : Str) (flag : Nat) :
    (∃ i, t.Holds i k ∧ hsearchR hk ⟨k, some v⟩ .enter t flag =
      some (if hk.refuses (t.table i).entry (some v) .overwrite flag then
        (t, ⟨0, none, some .EPERM⟩) else (t.setData i v, ⟨i, some i, none⟩))) ∨
    ((∀ i, ¬ t.Holds i k) ∧ t.filled = t.size ∧
      hsearchR hk ⟨k, some v⟩ .enter t flag = some (t, ⟨0, none, some .ENOMEM⟩)) ∨
    ((∀ i, ¬ t.Holds i k) ∧ t.filled ≠ t.size ∧ ∃ i, Target t k i ∧
      hsearchR hk ⟨k, some v⟩ .enter t flag =
        some (if hk.refuses (hk.newEntry t i k v) (some v) .create flag then
          (hdelete (t.file i (hashVal t.size k) (hk.newEntry t i k v)) i, ⟨0, none, some .EPERM⟩)
        else (t.file i (hashVal t.size k) (hk.newEntry t i k v), ⟨1, some i, none⟩))) := by
  rcases hwf.sound.hsearchR_cases hk ⟨k, some v⟩ .enter flag with ⟨i, hi, hs⟩ | ⟨hno, fd, idx, ht, hs⟩
  · refine Or.inl ⟨i, hi, ?_⟩
    rw [hs]
    simp only [compareAndOverwriteEntry, (hwf.paths.match_iff i k).mpr hi, and_self, if_true,
      hwf.accepts i _ _ _ _, Bool.false_eq_true, if_false, hq.strdup, reduceCtorEq]
    rw [HsearchData.setData, ← hi.2]
    split <;> rfl
  · refine Or.inr ?_
    rw [hs]
    simp only [hsearchMissing]
    by_cases hfull : t.filled = t.size
    · exact Or.inl ⟨hno, hfull, congrArg some (if_pos hfull)⟩
    · refine Or.inr ⟨hno, hfull, _, ht.resolve_left hfull, ?_⟩
      rw [if_neg hfull, hwf.sound.hsearchCreate_eq (hq.strdup k) (hq.strdup v),
        hwf.newEntry_accepts hq _ k v k (some v) .create flag]
      rfl

theorem Wf.enter_cases (hwf : Wf t) (hacc : hk.Accepting) (k v : Str) (flag : Nat) :
    (∃ i, t.Holds i k ∧ hsearchR hk ⟨k, some v⟩ .enter t flag =
      some (t.setData i v, ⟨i, some i, none⟩)) ∨
    ((∀ i, ¬ t.Holds i k) ∧ t.filled = t.size ∧
      hsearchR hk ⟨k, some v⟩ .enter t flag = some (t, ⟨0, none, some .ENOMEM⟩)) ∨
    ((∀ i, ¬ t.Holds i k) ∧ t.filled ≠ t.size ∧ ∃ i e, Target t k i ∧ e.key = some k ∧
      e.data = some v ∧ e.Accepts ∧ hsearchR hk ⟨k, some v⟩ .enter t flag =
        some (t.file i (hashVal t.size k) e, ⟨1, some i, none⟩)) := by
  rcases hwf.enter_quiet hacc.quiet k v flag with ⟨i, hi, hs⟩ | hfull | ⟨hno, hfull, i, ht, hs⟩
  · rw [hacc.change, if_neg Bool.false_ne_true] at hs
    exact Or.inl ⟨i, hi, hs⟩
  · exact Or.inr (Or.inl hfull)
  · rw [hacc.change, if_neg Bool.false_ne_true] at hs
    exact Or.inr (Or.inr ⟨hno, hfull, i, _, ht, hk.newEntry_key t i k v, hk.newEntry_data t i k v,
      hwf.newEntry_accepts hacc.quiet i k v, hs⟩)

/-- `hdelete_r` deletes the entry of a key that is there unless `change_ok` refuses. -/
theorem Wf.delete_quiet (hwf : Wf t) (hk : Hooks) (k : Str) (flag : Nat) : (∃ i, t.Holds i k ∧ hdeleteR hk k t flag =
      some (if hk.refuses (t.table i).entry none .delete flag then (t, 0, some .EPERM)
        else (hdelete t i, 1, none))) ∨
    ((∀ i, ¬ t.Holds i k) ∧ hdeleteR hk k t flag = some (t, 0, some .ESRCH)) := by
  unfold hdeleteR
  rcases hwf.paths.find_cases hk ⟨k, none⟩ 0 with ⟨i, hi, hs⟩ | ⟨hno, hs⟩
  · refine Or.inl ⟨i, hi, ?_⟩
    have hi0 : i ≠ 0 := by
      have := hwf.bounds i (ne_of_gt hi.1)
      omega
    rw [hs]
    simp only [hi0, if_false, hwf.accepts i _ _ _ _, Bool.false_eq_true]
    split <;> rfl
  · refine Or.inr ⟨hno, ?_⟩
    rw [hs]
    rfl

theorem Wf.delete_cases (hwf : Wf t) (hacc : hk.Accepting) (k : Str) (flag : Nat) :
    (∃ i, t.Holds i k ∧ hdeleteR hk k t flag = some (hdelete t i, 1, none)) ∨
    ((∀ i, ¬ t.Holds i k) ∧ hdeleteR hk k t flag = some (t, 0, some .ESRCH)) := by
  refine (hwf.delete_quiet hk k flag).imp_left fun ⟨i, hi, hs⟩ => ⟨i, hi, ?_⟩
  rw [hs, hacc.change, if_neg Bool.false_ne_true]

/-! ## What the writes do to the map -/

section Writes

variable {t : HsearchData} {m : Str → Option Str} {k v : Str} {i : Nat} {e : Entry}

theorem HsearchData.setSlot_self (t : HsearchData) (i : Nat) (s : Slot) : (t.setSlot i s).table i = s :=
  update_self _ _ _

variable {i i' hval : Nat}

theorem HsearchData.setSlot_ne (t : HsearchData) (s : Slot) (h : i' ≠ i) : (t.setSlot i s).table i' = t.table i' :=
  update_of_ne h _ _

theorem HsearchData.setSlot_keeps {α : Sort*} (t : HsearchData) (f : Slot → α) {s : Slot}
    (hs : f s = f (t.table i)) (i' : Nat) : f ((t.setSlot i s).table i') = f (t.table i') := by
  by_cases h : i' = i
  · rw [h, setSlot_self, hs]
  · rw [t.setSlot_ne _ h]

theorem HsearchData.setData_used (t : HsearchData) (i : Nat) (v : Str) (i' : Nat) :
    ((t.setData i v).table i').used = (t.table i').used :=
  t.setSlot_keeps (·.used) (by rfl) i'

theorem HsearchData.setData_key (t : HsearchData) (i : Nat) (v : Str) (i' : Nat) :
    ((t.setData i v).table i').entry.key = (t.table i').entry.key :=
  t.setSlot_keeps (·.entry.key) (by rfl) i'

theorem HsearchData.setData_live (t : HsearchData) (i : Nat) (v : Str) : (t.setData i v).Live = t.Live := by
  funext i'
  rw [Live, setData_used, Live]

theorem HsearchData.setData_holds (t : HsearchData) (i : Nat) (v : Str) (i' : Nat) (k : Str) :
    (t.setData i v).Holds i' k ↔ t.Holds i' k := by
  rw [Holds, setData_live, setData_key, Holds]

theorem Paths.setSlot_same (hp : Paths t) {s : Slot} (hu : s.used = (t.table i).used)
    (hk : s.entry.key = (t.table i).entry.key) : Paths (t.setSlot i s) := by
  have hused := t.setSlot_keeps (·.used) hu
  have hkey := t.setSlot_keeps (·.entry.key) hk
  refine ⟨hp.size, fun i' => ?_, fun i' => ?_, fun i' => ?_, fun i1 i2 k' => ?_⟩
  · rw [HsearchData.Live, hused]
    exact hp.used i'
  · rw [hused]
    exact hp.bounds i'
  · simp only [HsearchData.Live, hused, hkey]
    exact hp.filed i'
  · simp only [HsearchData.Holds, HsearchData.Live, hused, hkey]
    exact hp.inj i1 i2 k'

theorem Sound.setData (hs : Sound t) (i : Nat) (v : Str) : Sound (t.setData i v) := by
  refine ⟨hs.toPaths.setSlot_same rfl rfl, fun i' hl => ?_, ?_, hs.filled_le⟩
  · rw [HsearchData.setData_live] at hl
    by_cases h : i' = i
    · exact ⟨v, by rw [h, HsearchData.setData, setSlot_self]⟩
    · rw [HsearchData.setData, setSlot_ne t _ h]
      exact hs.data i' hl
  · have := hs.live_le
    simp only [HsearchData.setData_live]
    exact this

theorem Wf.setData (hwf : Wf t) (i : Nat) (v : Str) : Wf (t.setData i v) := by
  refine (hwf.sound.setData i v).wf (fun i' => ?_) ?_
  · have hkeeps : ((t.setData i v).table i').entry.Accepts = (t.table i').entry.Accepts :=
      t.setSlot_keeps (·.entry.Accepts) (by rfl) i'
    exact hkeeps ▸ hwf.accepts i'
  · have := hwf.filled
    simp only [HsearchData.setData_live]
    exact this

theorem Wf.represents_setData (hwf : Wf t) (hm : Represents t m) (hi : t.Holds i k) :
    Represents (t.setData i v) (update m k (some v)) := by
  intro k' v'
  simp only [HsearchData.setData_holds]
  by_cases hk : k' = k
  · subst hk
    rw [update_self]
    constructor
    · intro h
      cases h
      exact ⟨i, hi, by rw [HsearchData.setData, setSlot_self]⟩
    · rintro ⟨i', hi', hd⟩
      rw [hwf.inj i' i k' hi' hi, HsearchData.setData, setSlot_self] at hd
      exact hd
  · rw [update_of_ne hk, hm k' v']
    refine exists_congr fun i' => and_congr_right fun hi' => ?_
    have hne : i' ≠ i := by
      rintro rfl
      have := hi'.2.symm.trans hi.2
      cases this
      exact hk rfl
    rw [HsearchData.setData, setSlot_ne t _ hne]

theorem HsearchData.file_ne (t : HsearchData) (hval : Nat) (e : Entry) (h : i' ≠ i) :
    (t.file i hval e).table i' = t.table i' :=
  t.setSlot_ne _ h

theorem HsearchData.file_self (t : HsearchData) (i hval : Nat) (e : Entry) : (t.file i hval e).table i = ⟨hval, e⟩ :=
  t.setSlot_self i _

theorem HsearchData.file_live (t : HsearchData) (h1 : 1 ≤ hval) (i : Nat) (e : Entry) (i' : Nat) :
    (t.file i hval e).Live i' ↔ i' = i ∨ t.Live i' := by
  unfold HsearchData.Live
  by_cases h : i' = i
  · rw [h, file_self]
    simp only [true_or, iff_true]
    omega
  · rw [t.file_ne _ _ h]
    simp only [h, false_or]

theorem HsearchData.file_used (t : HsearchData) (h1 : 1 ≤ hval) (i : Nat) (e : Entry) (i' : Nat)
    (h : (t.table i').used ≠ 0) : ((t.file i hval e).table i').used ≠ 0 := by
  by_cases hi : i' = i
  · rw [hi, file_self]
    show (hval : Int) ≠ 0
    omega
  · rwa [t.file_ne _ _ hi]

theorem HsearchData.file_holds_iff (t : HsearchData) (h1 : 1 ≤ hval) (hek : e.key = some k) (i' : Nat) (k' : Str) :
    (t.file i hval e).Holds i' k' ↔ (i' = i ∧ k' = k) ∨ (i' ≠ i ∧ t.Holds i' k') := by
  unfold HsearchData.Holds
  rw [t.file_live h1]
  by_cases h : i' = i
  · subst h
    rw [file_self]
    simp only [hek, true_and, Option.some.injEq, true_or, ne_eq, not_true_eq_false, false_and, or_false, eq_comm]
  · rw [t.file_ne _ _ h]
    simp only [h, false_or, false_and, ne_eq, not_false_eq_true, true_and]

theorem HsearchData.file_holds (t : HsearchData) (h1 : 1 ≤ hval) (hi : ¬ t.Live i)
    (hek : e.key = some k) (i' : Nat) (k' : Str) :
    (t.file i hval e).Holds i' k' ↔ (i' = i ∧ k' = k) ∨ t.Holds i' k' := by
  rw [t.file_holds_iff h1 hek]
  refine or_congr_right ⟨And.right, fun h => ⟨?_, h⟩⟩
  rintro rfl
  exact hi h.1

theorem Target.eq_hashVal (ht : Target t k i) (hused : (t.table i).used ≠ 0) :
    i = hashVal t.size k := by
  obtain ⟨-, -, -, -, h0 | ⟨hi, -⟩ | ⟨hi, -⟩⟩ := ht
  · exact absurd h0 hused
  · exact hi
  · exact hi

theorem Target.mem (hn : GoodSize t.size) (ht : Target t k i) : 1 ≤ i ∧ i ≤ t.size := by
  obtain ⟨j, hj, rfl, -⟩ := ht
  exact path_mem hn k hj

theorem Paths.file (hp : Paths t) (hno : ∀ i, ¬ t.Holds i k) (ht : Target t k i)
    (hek : e.key = some k) : Paths (t.file i (hashVal t.size k) e) := by
  have h1 := (hashVal_mem hp.size k).1
  have hmem := ht.mem hp.size
  obtain ⟨j, hj, hji, hbefore, -⟩ := ht
  refine ⟨hp.size, fun i' h => ?_, fun i' h => ?_, fun i' h => ?_, fun i1 i2 k' h₁ h2 => ?_⟩
  · rw [t.file_live h1]
    by_cases hi' : i' = i
    · exact Or.inr (Or.inl hi')
    · rw [t.file_ne _ _ hi'] at h ⊢
      exact (hp.used i' h).imp_right Or.inr
  · by_cases hi' : i' = i
    · exact hi' ▸ hmem
    · rw [t.file_ne _ _ hi'] at h
      exact hp.bounds i' h
  · by_cases hi' : i' = i
    · subst hi'
      rw [file_self]
      exact ⟨k, hek, rfl, j, hj, hji, fun j' hj' => t.file_used h1 _ _ _ (hbefore j' hj')⟩
    · obtain ⟨k', hk', hu, j', hj', hpath, hb⟩ :=
        hp.filed i' (((t.file_live h1 i e i').mp h).resolve_left hi')
      rw [t.file_ne _ _ hi']
      exact ⟨k', hk', hu, j', hj', hpath, fun j'' hj'' => t.file_used h1 _ _ _ (hb j'' hj'')⟩
  · rw [t.file_holds_iff h1 hek] at h₁ h2
    rcases h₁ with ⟨rfl, rfl⟩ | ⟨-, h₁⟩ <;> rcases h2 with ⟨rfl, h2⟩ | ⟨-, h2⟩
    · rfl
    · exact absurd h2 (hno i2)
    · exact absurd (h2 ▸ h₁) (hno i1)
    · exact hp.inj i1 i2 k' h₁ h2

theorem HsearchData.filter_file_live (t : HsearchData) (h1 : 1 ≤ hval) (hmem : 1 ≤ i ∧ i ≤ t.size) (e : Entry) :
    (Finset.Icc 1 t.size).filter (t.file i hval e).Live =
      insert i ((Finset.Icc 1 t.size).filter t.Live) := by
  ext i'
  simp only [mem_filter, mem_insert, t.file_live h1, mem_Icc]
  constructor
  · rintro ⟨hb, rfl | hl⟩
    · exact Or.inl rfl
    · exact Or.inr ⟨hb, hl⟩
  · rintro (rfl | ⟨hb, hl⟩)
    · exact ⟨hmem, Or.inl rfl⟩
    · exact ⟨hb, Or.inr hl⟩

theorem Sound.file_data (hs : Sound t) (h1 : 1 ≤ hval) (hed : e.data = some v) (i' : Nat)
    (h : (t.file i hval e).Live i') : ∃ v, ((t.file i hval e).table i').entry.data = some v := by
  by_cases hi' : i' = i
  · subst hi'
    rw [file_self]
    exact ⟨v, hed⟩
  · rw [t.file_ne _ _ hi']
    exact hs.data i' (((t.file_live h1 i e i').mp h).resolve_left hi')

theorem Sound.file (hs : Sound t) (hno : ∀ i, ¬ t.Holds i k) (hfull : t.filled ≠ t.size)
    (ht : Target t k i) (hek : e.key = some k) (hed : e.data = some v) :
    Sound (t.file i (hashVal t.size k) e) := by
  have h1 := (hashVal_mem hs.size k).1
  refine ⟨hs.toPaths.file hno ht hek, hs.file_data h1 hed, ?_, ?_⟩
  · calc ((Finset.Icc 1 t.size).filter (t.file i (hashVal t.size k) e).Live).card
        = (insert i ((Finset.Icc 1 t.size).filter t.Live)).card := by
          rw [t.filter_file_live h1 (ht.mem hs.size) e]
      _ ≤ ((Finset.Icc 1 t.size).filter t.Live).card + 1 := card_insert_le _ _
      _ ≤ t.filled + 1 := Nat.add_le_add_right hs.live_le 1
  · have hle := hs.filled_le
    show t.filled + 1 ≤ t.size
    omega

theorem Wf.file (hwf : Wf t) (hno : ∀ i, ¬ t.Holds i k) (ht : Target t k i) (hi : ¬ t.Live i)
    (hek : e.key = some k) (hed : e.data = some v) (hea : e.Accepts) :
    Wf (t.file i (hashVal t.size k) e) := by
  have h1 := (hashVal_mem hwf.size k).1
  have hp := hwf.paths.file hno ht hek
  refine ⟨hp.size, hp.used, hp.bounds, hp.filed, hwf.sound.file_data h1 hed, fun i' => ?_, hp.inj, ?_⟩
  · by_cases hi' : i' = i
    · subst hi'
      rw [file_self]
      exact hea
    · rw [t.file_ne _ _ hi']
      exact hwf.accepts i'
  · have hnotin : i ∉ (Finset.Icc 1 t.size).filter t.Live :=
      fun h => hi (mem_filter.mp h).2
    show t.filled + 1 = ((Finset.Icc 1 t.size).filter (t.file i (hashVal t.size k) e).Live).card
    rw [t.filter_file_live h1 (ht.mem hwf.size) e, card_insert_of_notMem hnotin, hwf.filled]

theorem Wf.represents_file (hwf : Wf t) (hm : Represents t m) (hno : ∀ i, ¬ t.Holds i k)
    (hi : ¬ t.Live i) (hek : e.key = some k) (hed : e.data = some v) :
    Represents (t.file i (hashVal t.size k) e) (update m k (some v)) := by
  have h1 := (hashVal_mem hwf.size k).1
  intro k' v'
  simp only [t.file_holds h1 hi hek]
  by_cases hk : k' = k
  · subst hk
    rw [update_self]
    constructor
    · intro h
      cases h
      exact ⟨i, Or.inl ⟨rfl, rfl⟩, by rw [file_self]; exact hed⟩
    · rintro ⟨i', ⟨rfl, -⟩ | hi', hd⟩
      · rw [file_self] at hd
        exact hed.symm.trans hd
      · exact absurd hi' (hno i')
  · rw [update_of_ne hk, hm k' v']
    simp only [hk, and_false, false_or]
    refine exists_congr fun i' => and_congr_right fun hi' => ?_
    have hne : i' ≠ i := fun h => hi (h ▸ hi'.1)
    rw [t.file_ne _ _ hne]

theorem hdelete_ne (t : HsearchData) (h : i' ≠ i) : (hdelete t i).table i' = t.table i' := by
  simp only [hdelete, t.setSlot_ne _ h]

theorem hdelete_self (t : HsearchData) (i : Nat) : (hdelete t i).table i =
    ⟨-1, { (t.table i).entry with callback := none, flags := 0 }⟩ := by
  simp only [hdelete, setSlot_self]

theorem hdelete_size (t : HsearchData) (i : Nat) : (hdelete t i).size = t.size := by
  simp only [hdelete, HsearchData.setSlot]

theorem hdelete_live (t : HsearchData) (i i' : Nat) : (hdelete t i).Live i' ↔ i' ≠ i ∧ t.Live i' := by
  unfold HsearchData.Live
  by_cases h : i' = i
  · rw [h, hdelete_self]
    simp
  · rw [hdelete_ne t h]
    simp only [ne_eq, h, not_false_eq_true, true_and]

theorem hdelete_used (t : HsearchData) (i i' : Nat) (h : (t.table i').used ≠ 0) :
    ((hdelete t i).table i').used ≠ 0 := by
  by_cases hi : i' = i
  · rw [hi, hdelete_self]
    exact Int.neg_ne_zero.mpr one_ne_zero
  · rwa [hdelete_ne t hi]

theorem hdelete_holds (t : HsearchData) (i i' : Nat) (k : Str) :
    (hdelete t i).Holds i' k ↔ i' ≠ i ∧ t.Holds i' k := by
  unfold HsearchData.Holds
  rw [hdelete_live]
  by_cases h : i' = i
  · simp only [h, ne_eq, not_true_eq_false, false_and]
  · rw [hdelete_ne t h, and_assoc]

theorem Paths.hdelete (hp : Paths t) (hmem : 1 ≤ i ∧ i ≤ t.size) : Paths (hdelete t i) := by
  refine ⟨?_, fun i' h => ?_, fun i' h => ?_, fun i' h => ?_, fun i1 i2 k' h1 h2 => ?_⟩
  · exact hp.size
  · by_cases hi' : i' = i
    · rw [hi', hdelete_self]
      exact Or.inl rfl
    · rw [hdelete_live]
      rw [hdelete_ne t hi'] at h ⊢
      exact (hp.used i' h).imp_right fun hl => ⟨hi', hl⟩
  · rw [hdelete_size]
    by_cases hi' : i' = i
    · exact hi' ▸ hmem
    · rw [hdelete_ne t hi'] at h
      exact hp.bounds i' h
  · obtain ⟨hi', hl⟩ := (hdelete_live t i i').mp h
    obtain ⟨k', hk', hu, j, hj, hpath, hb⟩ := hp.filed i' hl
    rw [hdelete_ne t hi', hdelete_size]
    exact ⟨k', hk', hu, j, hj, hpath, fun j' hj' => hdelete_used t i _ (hb j' hj')⟩
  · exact hp.inj i1 i2 k' ((hdelete_holds t i i1 k').mp h1).2 ((hdelete_holds t i i2 k').mp h2).2

theorem card_hdelete_live (hmem : 1 ≤ i ∧ i ≤ t.size) (hi : t.Live i) :
    ((Finset.Icc 1 t.size).filter (Env.hdelete t i).Live).card + 1 = ((Finset.Icc 1 t.size).filter t.Live).card := by
  have herase : (Finset.Icc 1 t.size).filter (Env.hdelete t i).Live =
      ((Finset.Icc 1 t.size).filter t.Live).erase i := by
    ext i'
    simp only [mem_filter, mem_erase, hdelete_live]
    exact and_left_comm
  rw [herase]
  exact card_erase_add_one (mem_filter.mpr ⟨mem_Icc.mpr hmem, hi⟩)

theorem Sound.hdelete_filled (hs : Sound t) (hi : t.Live i) : (Env.hdelete t i).filled + 1 = t.filled := by
  have hcard := card_hdelete_live (hs.bounds i (ne_of_gt hi)) hi
  have hlive := hs.live_le
  have hle := hs.filled_le
  have hsize := hs.size.2
  simp only [Env.hdelete, uintOfInt]
  omega

theorem Sound.hdelete (hs : Sound t) (hi : t.Live i) : Sound (hdelete t i) := by
  have hmem := hs.bounds i (ne_of_gt hi)
  have hcard := card_hdelete_live hmem hi
  have hdec := hs.hdelete_filled hi
  have hlive := hs.live_le
  have hle := hs.filled_le
  refine ⟨hs.toPaths.hdelete hmem, fun i' h => ?_, ?_, ?_⟩
  · obtain ⟨hi', hl⟩ := (hdelete_live t i i').mp h
    rw [hdelete_ne t hi']
    exact hs.data i' hl
  · rw [hdelete_size]
    omega
  · rw [hdelete_size]
    omega

theorem Wf.hdelete (hwf : Wf t) (hi : t.Live i) : Wf (hdelete t i) := by
  have hcard := card_hdelete_live (hwf.bounds i (ne_of_gt hi)) hi
  have hdec := hwf.sound.hdelete_filled hi
  have hfilled := hwf.filled
  refine (hwf.sound.hdelete hi).wf (fun i' => ?_) ?_
  · by_cases hi' : i' = i
    · rw [hi', hdelete_self]
      intro name value op flag
      rfl
    · rw [hdelete_ne t hi']
      exact hwf.accepts i'
  · rw [hdelete_size]
    omega

theorem Wf.represents_hdelete (hwf : Wf t) (hm : Represents t m) (hi : t.Holds i k) :
    Represents (Env.hdelete t i) (update m k none) := by
  intro k' v'
  simp only [hdelete_holds]
  by_cases hk : k' = k
  · subst hk
    rw [update_self]
    constructor
    · intro h
      cases h
    · rintro ⟨i', ⟨hne, hi'⟩, -⟩
      exact absurd (hwf.inj i' i k' hi' hi) hne
  · rw [update_of_ne hk, hm k' v']
    refine exists_congr fun i' => ?_
    by_cases h : i' = i
    · subst h
      simp only [ne_eq, not_true_eq_false, false_and, iff_false]
      rintro ⟨hi', -⟩
      have := hi'.2.symm.trans hi.2
      cases this
      exact hk rfl
    · rw [hdelete_ne t h]
      simp only [ne_eq, h, not_false_eq_true, true_and]

end Writes

end Armada3720.Env
