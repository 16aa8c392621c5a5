import Armada3720.Env.HashTableRun

/-!
# Environment changes that fail

What `hsearch_r(ENTER)` and `hdelete_r` leave behind when they fail. Three failures change variables
(`ChangeCall.Damages`): the value of a variable is freed before its successor is allocated; a new entry whose
strings cannot be allocated stays; and a new entry that took the place of a live one is deleted, and the live
one is not put back.
-/

namespace Armada3720.Env

open Lib HsearchData

/-! ## What `FIND` sees -/

/-- What `FIND` answers: not found, or the value, which may be NULL. The outer `none` would be a search that
never stops. -/
def seen (t : HsearchData) (k : Str) : Option (Option (Option Str)) :=
  (hsearchR .unset ⟨k, none⟩ .find t 0).map fun r =>
    r.2.retval.map fun i => (t.table i).entry.data

/-- The search comes to a slot with the hash value of `k` and no key, and gives the NULL to `strcmp`. -/
def ReadsNull (t : HsearchData) (k : Str) : Prop :=
  ∃ j < t.size, (∀ j' < j, (t.table (path t.size k j')).used ≠ 0 ∧
      ¬ t.Holds (path t.size k j') k) ∧
    uintOfInt (t.table (path t.size k j)).used = hashVal t.size k ∧
    (t.table (path t.size k j)).entry.key = none

/-- `FIND` sees the same variables in both tables, and they count as many. -/
structure SameVariables (t t' : HsearchData) : Prop where
  seen : ∀ k, seen t' k = seen t k
  readable : ∀ k, ¬ ReadsNull t' k
  filled : t'.filled = t.filled

section

variable {t : HsearchData} (hp : Paths t)
include hp

theorem Paths.seen_of_holds {i : Nat} {k : Str} (hi : t.Holds i k) :
    seen t k = some (some (t.table i).entry.data) := by
  rcases hp.find_cases .unset ⟨k, none⟩ 0 with ⟨i', hi', hs⟩ | ⟨hno, -⟩
  · rw [seen, hs, hp.inj i i' k hi hi']
    rfl
  · exact absurd hi (hno i)

theorem Paths.seen_of_missing {k : Str} (hno : ∀ i, ¬ t.Holds i k) : seen t k = some none := by
  rcases hp.find_cases .unset ⟨k, none⟩ 0 with ⟨i, hi, -⟩ | ⟨-, hs⟩
  · exact absurd hi (hno i)
  · rw [seen, hs]
    rfl

theorem Paths.seen_congr {t' : HsearchData} (hp' : Paths t') (hholds : ∀ i k, t'.Holds i k ↔ t.Holds i k)
    (hdata : ∀ i, t.Live i → (t'.table i).entry.data = (t.table i).entry.data) (k : Str) :
    seen t' k = seen t k := by
  by_cases h : ∃ i, t.Holds i k
  · obtain ⟨i, hi⟩ := h
    rw [hp.seen_of_holds hi, hp'.seen_of_holds ((hholds i k).mpr hi), hdata i hi.1]
  · have hno : ∀ i, ¬ t.Holds i k := not_exists.mp h
    rw [hp.seen_of_missing hno, hp'.seen_of_missing fun i hi => hno i ((hholds i k).mp hi)]

theorem Paths.not_readsNull (k : Str) : ¬ ReadsNull t k := by
  rintro ⟨j, -, -, hu, hnull⟩
  obtain ⟨k', hk', -⟩ := hp.filed _ (hp.live_of_mark hu)
  rw [hnull] at hk'
  cases hk'

theorem Paths.sameVariables_self : SameVariables t t :=
  ⟨fun _ => rfl, hp.not_readsNull, rfl⟩

end

/-! ## The writes -/

section Writes

variable {t : HsearchData} {k v : Str} {i : Nat} {e : Entry}

/-- The table after a new entry was made in slot `i` and deleted again. -/
def HsearchData.undo (t : HsearchData) (i hval : Nat) (e : Entry) : HsearchData :=
  Env.hdelete (t.file i hval e) i

theorem HsearchData.undo_ne (t : HsearchData) (hval : Nat) (e : Entry) {i i' : Nat} (h : i' ≠ i) :
    (t.undo i hval e).table i' = t.table i' := by
  rw [undo, hdelete_ne _ h, t.file_ne _ _ h]

theorem HsearchData.undo_holds (t : HsearchData) {hval : Nat} (h1 : 1 ≤ hval)
    (hek : e.key = some k) (i' : Nat) (k' : Str) :
    (t.undo i hval e).Holds i' k' ↔ i' ≠ i ∧ t.Holds i' k' := by
  rw [undo, hdelete_holds, t.file_holds_iff h1 hek]
  constructor
  · rintro ⟨hne, ⟨h, -⟩ | h⟩
    · exact absurd h hne
    · exact h
  · rintro ⟨hne, h⟩
    exact ⟨hne, Or.inr ⟨hne, h⟩⟩

theorem Sound.undo_filled (hs : Sound t) (i hval : Nat) (e : Entry) : (t.undo i hval e).filled = t.filled := by
  have hle := hs.filled_le
  have hsize := hs.size.2
  show uintOfInt (((t.filled + 1 : Nat) : Int) - 1) = t.filled
  simp only [uintOfInt]
  omega

theorem Paths.undo (hp : Paths t) (hno : ∀ i, ¬ t.Holds i k) (ht : Target t k i)
    (hek : e.key = some k) : Paths (t.undo i (hashVal t.size k) e) := by
  have hmem := ht.mem hp.size
  exact (hp.file hno ht hek).hdelete hmem

theorem Sound.undo (hs : Sound t) (hno : ∀ i, ¬ t.Holds i k) (hfull : t.filled ≠ t.size)
    (ht : Target t k i) (hek : e.key = some k) (hed : e.data = some v) :
    Sound (t.undo i (hashVal t.size k) e) := by
  refine (hs.file hno hfull ht hek hed).hdelete ?_
  exact (t.file_live (hashVal_mem hs.size k).1 i e i).mpr (Or.inl rfl)

/-- Undoing a new entry leaves no trace where there was none. -/
theorem Sound.sameVariables_undo (hs : Sound t) (hno : ∀ i, ¬ t.Holds i k) (ht : Target t k i)
    (hi : ¬ t.Live i) (hek : e.key = some k) :
    SameVariables t (t.undo i (hashVal t.size k) e) := by
  have h1 := (hashVal_mem hs.size k).1
  have hp := hs.toPaths.undo hno ht hek
  have hne : ∀ i', t.Live i' → i' ≠ i := by
    rintro i' hl rfl
    exact hi hl
  refine ⟨hs.toPaths.seen_congr hp (fun i' k' => ?_) fun i' hl => ?_, hp.not_readsNull, hs.undo_filled _ _ _⟩
  · rw [t.undo_holds h1 hek]
    exact ⟨And.right, fun h => ⟨hne i' h.1, h⟩⟩
  · rw [t.undo_ne _ _ (hne i' hl)]

/-- Undoing a new entry in the place of a live one loses the live one. -/
theorem Sound.not_sameVariables_undo (hs : Sound t) (hno : ∀ i, ¬ t.Holds i k) (ht : Target t k i)
    (hi : t.Live i) (hek : e.key = some k) :
    ¬ SameVariables t (t.undo i (hashVal t.size k) e) := by
  intro hsame
  have h1 := (hashVal_mem hs.size k).1
  obtain ⟨k', hk', -⟩ := hs.filed i hi
  have hlost : ∀ i', ¬ (t.undo i (hashVal t.size k) e).Holds i' k' := by
    intro i' hi'
    obtain ⟨hne, hh⟩ := (t.undo_holds h1 hek i' k').mp hi'
    exact hne (hs.inj i' i k' hh ⟨hi, hk'⟩)
  have hseen := hsame.seen k'
  rw [(hs.toPaths.undo hno ht hek).seen_of_missing hlost, hs.toPaths.seen_of_holds ⟨hi, hk'⟩] at hseen
  cases hseen

theorem Sound.not_sameVariables_setNull (hs : Sound t) (hi : t.Holds i k) :
    ¬ SameVariables t (t.setSlot i { t.table i with entry := { (t.table i).entry with data := none } }) := by
  intro hsame
  have hp : Paths (t.setSlot i { t.table i with entry := { (t.table i).entry with data := none } }) :=
    hs.toPaths.setSlot_same rfl rfl
  have hi' : (t.setSlot i { t.table i with entry :=
      { (t.table i).entry with data := none } }).Holds i k := by
    rw [HsearchData.Holds, HsearchData.Live, setSlot_self]
    exact hi
  obtain ⟨v, hv⟩ := hs.data i hi.1
  have hseen := hsame.seen k
  rw [hp.seen_of_holds hi', hs.toPaths.seen_of_holds hi, setSlot_self, hv] at hseen
  cases hseen

theorem Sound.not_sameVariables_half (hs : Sound t) (hno : ∀ i, ¬ t.Holds i k) (ht : Target t k i)
    (hnull : e.key = none ∨ (e.key = some k ∧ e.data = none)) :
    ¬ SameVariables t (t.setSlot i ⟨hashVal t.size k, e⟩) := by
  intro hsame
  have hlt := hs.hashVal_lt k
  have h1 := (hashVal_mem hs.size k).1
  rcases hnull with hkey | ⟨hkey, hdata⟩
  · obtain ⟨j, hj, hji, hbefore, -⟩ := ht
    refine hsame.readable k ⟨j, hj, fun j' hj' => ?_, ?_, ?_⟩
    · show ((t.setSlot i _).table (path t.size k j')).used ≠ 0 ∧
        ¬ (t.setSlot i _).Holds (path t.size k j') k
      rw [HsearchData.Holds, HsearchData.Live]
      by_cases h : path t.size k j' = i
      · rw [h, setSlot_self]
        refine ⟨?_, fun hh => ?_⟩
        · show (hashVal t.size k : Int) ≠ 0
          omega
        · rw [hkey] at hh
          cases hh.2
      · rw [t.setSlot_ne _ h]
        exact ⟨hbefore j' hj', hno _⟩
    · show uintOfInt ((t.setSlot i _).table (path t.size k j)).used = hashVal t.size k
      rw [hji, setSlot_self]
      simp only [uintOfInt]
      omega
    · show ((t.setSlot i _).table (path t.size k j)).entry.key = none
      rw [hji, setSlot_self]
      exact hkey
  · -- the entry is on the path of its key, so `FIND` comes to it
    have hp : Paths (t.setSlot i ⟨hashVal t.size k, e⟩) := by
      have hfile := hs.toPaths.file hno ht hkey
      exact ⟨hfile.size, hfile.used, hfile.bounds, hfile.filed, hfile.inj⟩
    have hi : (t.setSlot i ⟨hashVal t.size k, e⟩).Holds i k := by
      rw [HsearchData.Holds, HsearchData.Live, setSlot_self]
      refine ⟨?_, hkey⟩
      show (0 : Int) < hashVal t.size k
      omega
    have hseen := hsame.seen k
    rw [hp.seen_of_holds hi, hs.toPaths.seen_of_missing hno, setSlot_self] at hseen
    cases hseen

end Writes

/-! ## One call -/

inductive Change
  | enter (item : Item)
  | delete (key : Str)

structure ChangeCall where
  change : Change
  hooks : Hooks
  flag : Nat

def ChangeCall.exec (c : ChangeCall) (t : HsearchData) : Option (HsearchData × Bool) :=
  match c.change with
  | .enter item => (hsearchR c.hooks item .enter t c.flag).map fun r => (r.1, r.2.retval.isSome)
  | .delete k => (hdeleteR c.hooks k t c.flag).map fun r => (r.1, r.2.1 != 0)

/-- `strdup` copies its string or fails. -/
def Hooks.Copies (hk : Hooks) : Prop := ∀ s, hk.strdup s = none ∨ hk.strdup s = some s

/-- `change_ok` or the variable's callback refuses the new value. -/
def Hooks.refusesValue (hk : Hooks) (e : Entry) (k v : Str) (op : EnvOp) (flag : Nat) : Bool :=
  hk.refuses e (some v) op flag || e.callbackRefuses k (some v) op flag

/-- `ENTER` of an existing variable: nothing refuses the value, and it cannot be copied. -/
def LosesValue (hk : Hooks) (flag : Nat) (t : HsearchData) (item : Item) : Prop :=
  ∃ i v, t.Holds i item.key ∧ item.data = some v ∧
    hk.refusesValue (t.table i).entry item.key v .overwrite flag = false ∧ hk.strdup v = none

/-- `ENTER` of a new variable in a table with room: its strings cannot be copied. -/
def LeavesHalf (hk : Hooks) (t : HsearchData) (item : Item) : Prop :=
  (∀ i, ¬ t.Holds i item.key) ∧ t.filled ≠ t.size ∧
    (hk.strdup item.key = none ∨ item.data.bind hk.strdup = none)

/-- `ENTER` of a new variable in the place of a live one, refused. -/
def DropsLive (hk : Hooks) (flag : Nat) (t : HsearchData) (item : Item) : Prop :=
  EntersOverLive t item.key ∧ ∃ v, item.data = some v ∧
    hk.refusesValue (hk.newEntry t (hashVal t.size item.key) item.key v) item.key v .create flag = true

/-- The failures that are not undone. -/
def ChangeCall.Damages (c : ChangeCall) (t : HsearchData) : Prop :=
  match c.change with
  | .enter item => LosesValue c.hooks c.flag t item ∨ LeavesHalf c.hooks t item ∨
      DropsLive c.hooks c.flag t item
  | .delete _ => False

variable {t : HsearchData} {c : ChangeCall}

theorem ChangeCall.exec_enter {hk : Hooks} {item : Item} {flag : Nat}
    {r : HsearchData × SearchResult} (h : hsearchR hk item .enter t flag = some r) :
    (ChangeCall.mk (.enter item) hk flag).exec t = some (r.1, r.2.retval.isSome) := by
  simp only [ChangeCall.exec, h, Option.map_some]

theorem ChangeCall.exec_delete {hk : Hooks} {k : Str} {flag : Nat}
    {r : HsearchData × Nat × Option Errno} (h : hdeleteR hk k t flag = some r) :
    (ChangeCall.mk (.delete k) hk flag).exec t = some (r.1, r.2.1 != 0) := by
  simp only [ChangeCall.exec, h, Option.map_some]

/-- The call returns; if it does no damage, the table is sound; and if it fails, it did damage or left the
variables alone. -/
def ChangeCall.Spec (c : ChangeCall) (t : HsearchData) : Prop :=
  ∃ t' ok, c.exec t = some (t', ok) ∧ (¬ c.Damages t → Sound t') ∧
    (ok = false → (SameVariables t t' ↔ ¬ c.Damages t))

theorem ChangeCall.spec_of_unchanged (hs : Sound t) (ok : Bool) (hexec : c.exec t = some (t, ok))
    (hno : ¬ c.Damages t) : c.Spec t :=
  ⟨t, ok, hexec, fun _ => hs, fun _ => iff_of_true hs.toPaths.sameVariables_self hno⟩

theorem ChangeCall.spec_of_ok {t' : HsearchData} (hs : Sound t') (hexec : c.exec t = some (t', true)) : c.Spec t :=
  ⟨t', true, hexec, fun _ => hs, nofun⟩

theorem ChangeCall.spec_of_damage {t' : HsearchData} (hexec : c.exec t = some (t', false))
    (hdam : c.Damages t) (hdiff : ¬ SameVariables t t') : c.Spec t :=
  ⟨t', false, hexec, fun h => absurd hdam h, fun _ => iff_of_false hdiff (not_not.mpr hdam)⟩

open ChangeCall

section

variable {t : HsearchData} (hs : Sound t)
include hs

theorem Sound.delete_spec (hk : Hooks) (k : Str) (flag : Nat) : (ChangeCall.mk (.delete k) hk flag).Spec t := by
  have hclean : ¬ (ChangeCall.mk (.delete k) hk flag).Damages t := not_false
  rcases hs.toPaths.find_cases hk ⟨k, none⟩ 0 with ⟨i, hi, hfind⟩ | ⟨-, hfind⟩
  · have hi0 : i ≠ 0 := by
      have := hs.bounds i (ne_of_gt hi.1)
      omega
    have heq : hdeleteR hk k t flag =
        if hk.refuses (t.table i).entry none .delete flag then some (t, 0, some .EPERM)
        else if (t.table i).entry.callbackRefuses k none .delete flag then
          some (t, 0, some .EINVAL)
        else some (Env.hdelete t i, 1, none) := by
      unfold hdeleteR
      rw [hfind]
      exact if_neg hi0
    split_ifs at heq with hrefuse hcallback
    · exact spec_of_unchanged hs false (exec_delete heq) hclean
    · exact spec_of_unchanged hs false (exec_delete heq) hclean
    · exact spec_of_ok (hs.hdelete hi.1) (exec_delete heq)
  · have heq : hdeleteR hk k t flag = some (t, 0, some .ESRCH) := by
      unfold hdeleteR
      rw [hfind]
      rfl
    exact spec_of_unchanged hs false (exec_delete heq) hclean

theorem Sound.enter_spec_of_holds {hk : Hooks} (hcopy : hk.Copies) {item : Item} {flag i : Nat}
    (hi : t.Holds i item.key) (hsearch : hsearchR hk item .enter t flag =
      compareAndOverwriteEntry hk item .enter t flag (hashVal t.size item.key) i) :
    (ChangeCall.mk (.enter item) hk flag).Spec t := by
  obtain ⟨k, d⟩ := item
  have hmatch := (hs.toPaths.match_iff i k).mpr hi
  have hhalf : ¬ LeavesHalf hk t ⟨k, d⟩ := fun h => h.1 i hi
  have hdrop : ¬ DropsLive hk flag t ⟨k, d⟩ := fun h =>
    (hs.toPaths.live_of_entersOverLive h.1).2 i hi
  cases d with
  | none =>
    have heq : hsearchR hk ⟨k, none⟩ .enter t flag = some (t, ⟨i, some i, none⟩) := by
      rw [hsearch]
      simp only [compareAndOverwriteEntry, hmatch, and_self, if_true]
    refine spec_of_unchanged hs true (exec_enter heq) ?_
    rintro (⟨_, v, -, hv, -⟩ | h | h)
    · cases hv
    · exact hhalf h
    · exact hdrop h
  | some v =>
    have hloses : LosesValue hk flag t ⟨k, some v⟩ ↔
        hk.refusesValue (t.table i).entry k v .overwrite flag = false ∧ hk.strdup v = none := by
      constructor
      · rintro ⟨i', v', hi', hv', hrefuse, hdup⟩
        cases hv'
        rw [← hs.inj i i' k hi hi'] at hrefuse
        exact ⟨hrefuse, hdup⟩
      · rintro ⟨hrefuse, hdup⟩
        exact ⟨i, v, hi, rfl, hrefuse, hdup⟩
    have heq : hsearchR hk ⟨k, some v⟩ .enter t flag =
        some (if hk.refuses (t.table i).entry (some v) .overwrite flag then
            (t, ⟨0, none, some .EPERM⟩)
          else if (t.table i).entry.callbackRefuses k (some v) .overwrite flag then
            (t, ⟨0, none, some .EINVAL⟩)
          else if hk.strdup v = none then
            (t.setSlot i { t.table i with entry :=
              { (t.table i).entry with data := hk.strdup v } }, ⟨0, none, some .ENOMEM⟩)
          else (t.setSlot i { t.table i with entry :=
            { (t.table i).entry with data := hk.strdup v } }, ⟨i, some i, none⟩)) := by
      rw [hsearch]
      simp only [compareAndOverwriteEntry, hmatch, and_self, if_true]
      split_ifs <;> rfl
    have hclean : (hk.refusesValue (t.table i).entry k v .overwrite flag = true) →
        ¬ (ChangeCall.mk (.enter ⟨k, some v⟩) hk flag).Damages t := by
      rintro hrefuse (h | h | h)
      · rw [(hloses.mp h).1] at hrefuse
        cases hrefuse
      · exact hhalf h
      · exact hdrop h
    split_ifs at heq with hrefuse hcallback hdup
    · refine spec_of_unchanged hs false (exec_enter heq) (hclean ?_)
      rw [Hooks.refusesValue, hrefuse, Bool.true_or]
    · refine spec_of_unchanged hs false (exec_enter heq) (hclean ?_)
      rw [Hooks.refusesValue, hcallback, Bool.or_true]
    · refine spec_of_damage (exec_enter heq) (Or.inl (hloses.mpr ⟨?_, hdup⟩)) ?_
      · rw [Hooks.refusesValue, Bool.eq_false_iff.mpr hrefuse, Bool.eq_false_iff.mpr hcallback]
        rfl
      · rw [hdup]
        exact hs.not_sameVariables_setNull hi
    · refine spec_of_ok (hs.setData i v) ?_
      simp only [ChangeCall.exec, heq, (hcopy v).resolve_left hdup]
      rfl

theorem Sound.enter_spec_of_target {hk : Hooks} (hcopy : hk.Copies) {item : Item} {flag i : Nat}
    (hno : ∀ i, ¬ t.Holds i item.key) (hfull : t.filled ≠ t.size) (ht : Target t item.key i)
    (hsearch : hsearchR hk item .enter t flag =
      some (hsearchCreate hk item t flag (hashVal t.size item.key) i)) :
    (ChangeCall.mk (.enter item) hk flag).Spec t := by
  obtain ⟨k, d⟩ := item
  by_cases hhalf : hk.strdup k = none ∨ d.bind hk.strdup = none
  · -- the entry stays as it is
    have heq : hsearchR hk ⟨k, d⟩ .enter t flag = some (t.setSlot i ⟨hashVal t.size k,
        { (t.table i).entry with key := hk.strdup k, data := d.bind hk.strdup }⟩, ⟨0, none, some .ENOMEM⟩) := by
      rw [hsearch, hsearchCreate]
      simp only [hs.intOfUint_hashVal k, if_pos hhalf]
      rfl
    refine spec_of_damage (exec_enter heq) (Or.inr (Or.inl ⟨hno, hfull, hhalf⟩)) (hs.not_sameVariables_half hno ht ?_)
    rcases hcopy k with hkey | hkey
    · exact Or.inl hkey
    · rw [hkey] at hhalf
      exact Or.inr ⟨hkey, hhalf.resolve_left nofun⟩
  · obtain ⟨hkey, hdata⟩ := not_or.mp hhalf
    cases d with
    | none => exact absurd rfl hdata
    | some v =>
      replace hkey := (hcopy k).resolve_left hkey
      replace hdata : hk.strdup v = some v := (hcopy v).resolve_left hdata
      have hek := hk.newEntry_key t i k v
      have hed := hk.newEntry_data t i k v
      rw [hs.hsearchCreate_eq hkey hdata] at hsearch
      have hundo : hk.refusesValue (hk.newEntry t i k v) k v .create flag = true →
          hsearchR hk ⟨k, some v⟩ .enter t flag = some (t.undo i (hashVal t.size k)
            (hk.newEntry t i k v), ⟨0, none, some .EPERM⟩) ∨
          hsearchR hk ⟨k, some v⟩ .enter t flag = some (t.undo i (hashVal t.size k)
            (hk.newEntry t i k v), ⟨0, none, some .EINVAL⟩) := by
        intro hrefuse
        rw [hsearch]
        rcases Bool.or_eq_true_iff.mp hrefuse with h | h
        · exact Or.inl (congrArg some (if_pos h))
        · by_cases hr : hk.refuses (hk.newEntry t i k v) (some v) .create flag
          · exact Or.inl (congrArg some (if_pos hr))
          · exact Or.inr (congrArg some ((if_neg hr).trans (if_pos h)))
      have hdam : (ChangeCall.mk (.enter ⟨k, some v⟩) hk flag).Damages t ↔
          DropsLive hk flag t ⟨k, some v⟩ := by
        constructor
        · rintro (⟨i', _, hi', -⟩ | ⟨-, -, h⟩ | h)
          · exact absurd hi' (hno i')
          · exact absurd h hhalf
          · exact h
        · exact fun h => Or.inr (Or.inr h)
      by_cases hrefuse : hk.refusesValue (hk.newEntry t i k v) k v .create flag = true
      · have hexec : (ChangeCall.mk (.enter ⟨k, some v⟩) hk flag).exec t =
            some (t.undo i (hashVal t.size k) (hk.newEntry t i k v), false) := by
          rcases hundo hrefuse with h | h <;> exact exec_enter h
        by_cases hlive : t.Live i
        · -- a live slot is entered only when the search has gone all the way round
          have hover : EntersOverLive t k := by
            by_contra hsafe
            exact not_live_of_target hno hfull hsafe ht hlive
          have hslot := ht.eq_hashVal (ne_of_gt hlive)
          refine spec_of_damage hexec (hdam.mpr ⟨hover, v, rfl, ?_⟩) (hs.not_sameVariables_undo hno ht hlive hek)
          rw [← hslot]
          exact hrefuse
        · have hclean : ¬ (ChangeCall.mk (.enter ⟨k, some v⟩) hk flag).Damages t := by
            intro h
            have hover := (hdam.mp h).1
            have hused := (hover.1 i (Finset.mem_Icc.mpr (ht.mem hs.size))).1
            exact hlive (ht.eq_hashVal hused ▸ (hs.toPaths.live_of_entersOverLive hover).1)
          exact ⟨_, false, hexec, fun _ => hs.undo hno hfull ht hek hed,
            fun _ => iff_of_true (hs.sameVariables_undo hno ht hlive hek) hclean⟩
      · refine spec_of_ok (hs.file hno hfull ht hek hed) ?_
        obtain ⟨hr, hc⟩ := not_or.mp (mt Bool.or_eq_true_iff.mpr hrefuse)
        simp only [ChangeCall.exec, hsearch, if_neg hr, if_neg hc]
        rfl

/-- A call that fails leaves the variables alone unless it is one of the three that cannot be undone. -/
theorem Sound.exec_spec (c : ChangeCall) (hcopy : c.hooks.Copies) : c.Spec t := by
  obtain ⟨change, hk, flag⟩ := c
  cases change with
  | delete k => exact hs.delete_spec hk k flag
  | enter item =>
    rcases hs.hsearchR_cases hk item .enter flag with ⟨i, hi, hsearch⟩ | ⟨hno, fd, idx, ht, hsearch⟩
    · exact hs.enter_spec_of_holds hcopy hi hsearch
    · by_cases hfull : t.filled = t.size
      · have heq : hsearchR hk item .enter t flag = some (t, ⟨0, none, some .ENOMEM⟩) := by
          rw [hsearch]
          exact congrArg some (if_pos hfull)
        refine spec_of_unchanged hs false (exec_enter heq) ?_
        rintro (⟨i, _, hi, -⟩ | ⟨-, h, -⟩ | ⟨⟨-, h, -⟩, -⟩)
        · exact hno i hi
        · exact h hfull
        · exact h hfull
      · refine hs.enter_spec_of_target hcopy hno hfull (ht.resolve_left hfull) ?_
        rw [hsearch]
        exact congrArg some (if_neg hfull)

end

/-! ## Runs -/

def runChanges : List ChangeCall → HsearchData → Option HsearchData
  | [], t => some t
  | c :: cs, t => (c.exec t).bind fun r => runChanges cs r.1

/-- No call of the sequence damages the table it is made on. -/
def CleanCalls : List ChangeCall → HsearchData → Prop
  | [], _ => True
  | c :: cs, t => ¬ c.Damages t ∧ ∀ r ∈ c.exec t, CleanCalls cs r.1

/-- Calls that do no damage lead to a sound table again. -/
theorem Sound.runChanges_spec {t : HsearchData} (hs : Sound t) (calls : List ChangeCall)
    (hcopy : ∀ c ∈ calls, c.hooks.Copies) (hclean : CleanCalls calls t) :
    ∃ t', runChanges calls t = some t' ∧ Sound t' := by
  induction calls generalizing t with
  | nil => exact ⟨t, rfl, hs⟩
  | cons c cs ih =>
    obtain ⟨t', ok, hexec, hs', -⟩ := hs.exec_spec c (hcopy c List.mem_cons_self)
    obtain ⟨t'', hrun, hs''⟩ := ih (hs' hclean.1)
      (fun c' hc' => hcopy c' (List.mem_cons_of_mem c hc')) (hclean.2 _ hexec)
    refine ⟨t'', ?_, hs''⟩
    rw [runChanges, hexec]
    exact hrun

/-- In every table that calls without damage have made, a call that fails leaves what `FIND` sees and the count
as they were exactly if it does no damage either. -/
theorem failed_change_keeps_variables_iff (nel : Nat) (t₀ : HsearchData)
    (hcreate : hcreateR nel = some t₀) (calls : List ChangeCall)
    (hcopy : ∀ c ∈ calls, c.hooks.Copies) (hclean : CleanCalls calls t₀) :
    ∃ t, runChanges calls t₀ = some t ∧ ∀ c : ChangeCall, c.hooks.Copies →
      ∃ t' ok, c.exec t = some (t', ok) ∧
        (ok = false → (SameVariables t t' ↔ ¬ c.Damages t)) := by
  obtain ⟨t, hrun, hs⟩ := (wf_of_hcreateR hcreate).1.sound.runChanges_spec calls hcopy hclean
  refine ⟨t, hrun, fun c hc => ?_⟩
  obtain ⟨t', ok, hexec, -, hiff⟩ := hs.exec_spec c hc
  exact ⟨t', ok, hexec, hiff⟩

theorem Hooks.unset_copies : Hooks.unset.Copies := fun _ => Or.inr rfl

def enterCall (k v : Str) : ChangeCall := ⟨.enter ⟨k, some v⟩, .unset, 0⟩

theorem enterCall_clean (k v : Str) : ¬ (enterCall k v).Damages fiveSlots := by
  rintro (⟨_, _, -, -, -, h⟩ | ⟨-, -, h | h⟩ | ⟨⟨h, -⟩, -⟩)
  · cases h
  · cases h
  · cases h
  · exact (h 1 (by decide)).1 rfl

def refusedCall : ChangeCall := ⟨.enter ⟨[97], some [2]⟩, { Hooks.unset with changeOk := some fun _ _ _ _ => true }, 0⟩

/-- `a` is `1`, and a new value is refused. -/
theorem failed_change_keeps_variables_refused :
    ∃ t t', runChanges [enterCall [97] [1]] fiveSlots = some t ∧ refusedCall.exec t = some (t', false) ∧
      SameVariables t t' := by
  obtain ⟨t, hrun, hnext⟩ := failed_change_keeps_variables_iff 5 fiveSlots rfl [enterCall [97] [1]]
    (by
      intro c hc
      rw [List.mem_singleton.mp hc]
      exact Hooks.unset_copies)
    ⟨enterCall_clean _ _, fun _ _ => trivial⟩
  obtain ⟨t', ok, hexec, hiff⟩ := hnext refusedCall fun _ => Or.inr rfl
  have hfails : ((runChanges [enterCall [97] [1]] fiveSlots).bind fun t => (refusedCall.exec t).map fun r =>
      (r.2, t.size, (t.table 1).used)) = some (false, 5, 0) := by decide +kernel
  rw [hrun, Option.bind_some, hexec] at hfails
  obtain ⟨rfl, hsize, hused⟩ : ok = false ∧ t.size = 5 ∧ (t.table 1).used = 0 := by simpa using hfails
  refine ⟨t, t', hrun, hexec, (hiff rfl).mpr ?_⟩
  rintro (⟨_, _, -, -, h, -⟩ | ⟨-, -, h | h⟩ | ⟨⟨h, -⟩, -⟩)
  · cases h
  · cases h
  · cases h
  · exact (h 1 (by simp [hsize])).1 hused

def Hooks.noMemory : Hooks := ⟨none, fun _ => none, fun _ => none, fun _ => none⟩

/-- `a` is `1`; a new value fails for want of memory, and then `a` has none at all. -/
theorem failed_overwrite_loses_value :
    hcreateR 5 = some fiveSlots ∧
    (runChanges [enterCall [97] [1]] fiveSlots).bind (fun t => seen t [97]) =
      some (some (some [1])) ∧
    ((runChanges [enterCall [97] [1]] fiveSlots).bind fun t =>
      ((ChangeCall.mk (.enter ⟨[97], some [2]⟩) .noMemory 0).exec t).map fun r =>
        (r.2, seen r.1 [97])) = some (false, some (some none)) := by
  refine ⟨rfl, ?_, ?_⟩
  · decide +kernel
  · decide +kernel

end Armada3720.Env
