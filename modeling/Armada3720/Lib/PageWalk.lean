import Mathlib

/-!
# Page tables as radix trees

Tables of `fan` words each. A word is invalid, a leaf, or points to a table one level down. Window `e` at height
`h` is the range of `page * fan ^ h` bytes that one word at that height speaks about, and the table at height
`h` numbered `k` holds the words of the windows `k * fan .. k * fan + fan - 1`. `walk` translates an address,
`tab` finds a table from the root.
-/

namespace Armada3720.Lib

/-- What a word says to the walker. -/
inductive Kind (T : Type*)
  | invalid
  | leaf
  | table (t : T)
  deriving DecidableEq

def Kind.next {T : Type*} : Kind T → Option T
  | .table t => some t
  | _ => none

@[simp] theorem Kind.next_eq_some {T : Type*} {c : Kind T} {t : T} :
    c.next = some t ↔ c = .table t := by
  cases c <;> simp [Kind.next]

/-- A page-table format: the sizes, and how a word at a height is read. -/
structure PageFormat (T W : Type*) where
  page : Nat
  fan : Nat
  page_pos : 0 < page
  fan_pos : 0 < fan
  /-- How a word is read, by height. -/
  kind : Nat → W → Kind T
  /-- Nothing lies below a page. -/
  kind_zero : ∀ w t, kind 0 w ≠ .table t

namespace PageFormat

variable {T W : Type*} (F : PageFormat T W)

/-! ## Windows -/

/-- The bytes that one word at height `h` speaks about. -/
def size (h : Nat) : Nat := F.page * F.fan ^ h

/-- The window of height `h` that `va` lies in. -/
def entry (h va : Nat) : Nat := va / F.size h

/-- The place of that window's word in its table. -/
def index (h va : Nat) : Nat := F.entry h va % F.fan

theorem size_succ (h : Nat) : F.size (h + 1) = F.size h * F.fan := by
  rw [size, size, pow_succ, mul_assoc]

theorem size_pos (h : Nat) : 0 < F.size h :=
  Nat.mul_pos F.page_pos (Nat.pow_pos F.fan_pos)

theorem index_lt (h va : Nat) : F.index h va < F.fan := Nat.mod_lt _ F.fan_pos

theorem entry_succ (h va : Nat) : F.entry (h + 1) va = F.entry h va / F.fan := by
  rw [entry, entry, size_succ, Nat.div_div_eq_div_mul]

theorem entry_eq (h va : Nat) : F.entry h va = F.entry (h + 1) va * F.fan + F.index h va := by
  rw [entry_succ, index, Nat.div_add_mod']

theorem entry_eq_iff {h va e : Nat} :
    F.entry h va = e ↔ e * F.size h ≤ va ∧ va < e * F.size h + F.size h := by
  have h1 := Nat.div_add_mod' va (F.size h)
  have h2 := Nat.mod_lt va (F.size_pos h)
  constructor
  · rintro rfl
    rw [entry]
    omega
  · rintro ⟨hle, hlt⟩
    exact Nat.div_eq_of_lt_le hle (by rw [Nat.succ_mul]; exact hlt)

theorem window_mem (h va : Nat) :
    F.entry h va * F.size h ≤ va ∧ va < F.entry h va * F.size h + F.size h :=
  F.entry_eq_iff.mp rfl

theorem number_div {k i : Nat} (hi : i < F.fan) : (k * F.fan + i) / F.fan = k := by
  rw [Nat.mul_comm, Nat.mul_add_div F.fan_pos, Nat.div_eq_of_lt hi, Nat.add_zero]

theorem number_mod {k i : Nat} (hi : i < F.fan) : (k * F.fan + i) % F.fan = i := by
  rw [Nat.mul_comm, Nat.mul_add_mod, Nat.mod_eq_of_lt hi]

/-! ## Walking -/

/-- The word that the walk of `va` ends at, with its height, from table `t` at height `h`. -/
def stop (mem : T → Nat → W) : Nat → T → Nat → Nat × W
  | 0, t, va => (0, mem t (F.index 0 va))
  | h + 1, t, va =>
    match F.kind (h + 1) (mem t (F.index (h + 1) va)) with
    | .table s => stop mem h s va
    | _ => (h + 1, mem t (F.index (h + 1) va))

/-- The leaf that translates `va`, with its height. -/
def walk (mem : T → Nat → W) (h : Nat) (t : T) (va : Nat) : Option (Nat × W) :=
  match F.kind (F.stop mem h t va).1 (F.stop mem h t va).2 with
  | .leaf => some (F.stop mem h t va)
  | _ => none

/-- The tables that the walk reads. -/
def path (mem : T → Nat → W) : Nat → T → Nat → List T
  | 0, t, _ => [t]
  | h + 1, t, va =>
    t :: match F.kind (h + 1) (mem t (F.index (h + 1) va)) with
      | .table s => path mem h s va
      | _ => []

section Walk

variable {F} {mem mem' : T → Nat → W} {h : Nat} {t : T} {va : Nat}

theorem stop_of_table {s : T} (hk : F.kind (h + 1) (mem t (F.index (h + 1) va)) = .table s) :
    F.stop mem (h + 1) t va = F.stop mem h s va := by
  simp only [stop, hk]

theorem stop_of_not_table (hk : ∀ s, F.kind h (mem t (F.index h va)) ≠ .table s) :
    F.stop mem h t va = (h, mem t (F.index h va)) := by
  cases h with
  | zero => rfl
  | succ h =>
    cases hc : F.kind (h + 1) (mem t (F.index (h + 1) va)) with
    | invalid => simp only [stop, hc]
    | leaf => simp only [stop, hc]
    | table s => exact absurd hc (hk s)

theorem walk_of_invalid (hk : F.kind h (mem t (F.index h va)) = .invalid) :
    F.walk mem h t va = none := by
  have hs : F.stop mem h t va = (h, mem t (F.index h va)) := stop_of_not_table (by simp [hk])
  simp only [walk, hs, hk]

theorem walk_of_leaf (hk : F.kind h (mem t (F.index h va)) = .leaf) :
    F.walk mem h t va = some (h, mem t (F.index h va)) := by
  have hs : F.stop mem h t va = (h, mem t (F.index h va)) := stop_of_not_table (by simp [hk])
  simp only [walk, hs, hk]

theorem walk_of_table {s : T} (hk : F.kind (h + 1) (mem t (F.index (h + 1) va)) = .table s) :
    F.walk mem (h + 1) t va = F.walk mem h s va := by
  simp only [walk, stop_of_table hk]

theorem walk_of_stop {h' : Nat} {t' : T} (hs : F.stop mem' h' t' va = F.stop mem h t va) :
    F.walk mem' h' t' va = F.walk mem h t va := by
  simp only [walk, hs]

theorem path_of_table {s : T} (hk : F.kind (h + 1) (mem t (F.index (h + 1) va)) = .table s) :
    F.path mem (h + 1) t va = t :: F.path mem h s va := by
  simp only [path, hk]

theorem path_of_not_table (hk : ∀ s, F.kind h (mem t (F.index h va)) ≠ .table s) :
    F.path mem h t va = [t] := by
  cases h with
  | zero => rfl
  | succ h =>
    cases hc : F.kind (h + 1) (mem t (F.index (h + 1) va)) with
    | invalid => simp only [path, hc]
    | leaf => simp only [path, hc]
    | table s => exact absurd hc (hk s)

theorem mem_path_self : t ∈ F.path mem h t va := by
  cases h <;> simp [path]

/-- A walk reads nothing but the tables on its path. -/
theorem stop_congr (hp : ∀ s ∈ F.path mem h t va, mem' s = mem s) :
    F.stop mem' h t va = F.stop mem h t va ∧ F.path mem' h t va = F.path mem h t va := by
  induction h generalizing t with
  | zero =>
    have ht : mem' t = mem t := hp t mem_path_self
    simp only [stop, path, ht, and_self]
  | succ h ih =>
    have ht : mem' t = mem t := hp t mem_path_self
    cases hc : F.kind (h + 1) (mem t (F.index (h + 1) va)) with
    | invalid => simp only [stop, path, ht, hc, and_self]
    | leaf => simp only [stop, path, ht, hc, and_self]
    | table s =>
      have hs := ih fun u hu =>
        hp u (by rw [path_of_table hc]; exact List.mem_cons_of_mem _ hu)
      simp only [stop, path, ht, hc, hs.1, hs.2, and_self]

end Walk

/-! ## The tables of a tree -/

section Tab

variable (H : Nat) (root : T) (mem : T → Nat → W)

/-- The table numbered `k`, `d` levels below the root. -/
def descend : Nat → Nat → Option T
  | 0, k => if k = 0 then some root else none
  | d + 1, k =>
    (descend d (k / F.fan)).bind fun t => (F.kind (H - d) (mem t (k % F.fan))).next

/-- The table at height `h` numbered `k`, in the tree whose root stands at height `H`. -/
def tab (h k : Nat) : Option T :=
  if h ≤ H then F.descend H root mem (H - h) k else none

variable {H root mem} {F}

variable {k h va : Nat} {t s : T}

theorem tab_top : F.tab H root mem H k = if k = 0 then some root else none := by
  rw [tab, if_pos le_rfl, Nat.sub_self]
  rfl

theorem tab_above (hh : H < h) : F.tab H root mem h k = none :=
  if_neg (by omega)

theorem tab_step (hh : h < H) :
    F.tab H root mem h k = (F.tab H root mem (h + 1) (k / F.fan)).bind fun t =>
      (F.kind (h + 1) (mem t (k % F.fan))).next := by
  have hd : H - h = (H - (h + 1)) + 1 := by omega
  have hb : H - (H - (h + 1)) = h + 1 := by omega
  rw [tab, tab, if_pos (by omega), if_pos (by omega), hd, descend, hb]

theorem tab_le (ht : F.tab H root mem h k = some t) : h ≤ H := by
  by_contra hh
  rw [tab_above (by omega)] at ht
  cases ht

theorem tab_root : F.tab H root mem H 0 = some root := by
  rw [tab_top, if_pos rfl]

/-- A table below the root hangs off a word of the table above it. -/
theorem tab_parent (hh : h < H) :
    F.tab H root mem h k = some s ↔ ∃ t, F.tab H root mem (h + 1) (k / F.fan) = some t ∧
      F.kind (h + 1) (mem t (k % F.fan)) = .table s := by
  rw [tab_step hh, Option.bind_eq_some_iff]
  simp

theorem tab_child {i : Nat} (ht : F.tab H root mem (h + 1) k = some t) (hi : i < F.fan)
    (hs : F.kind (h + 1) (mem t i) = .table s) : F.tab H root mem h (k * F.fan + i) = some s := by
  refine (tab_parent (tab_le ht)).mpr ⟨t, ?_, ?_⟩
  · rw [F.number_div hi]; exact ht
  · rw [F.number_mod hi]; exact hs

theorem tab_congr {mem' : T → Nat → W} (hm : ∀ h k t, F.tab H root mem h k = some t → mem' t = mem t) (h k : Nat) :
    F.tab H root mem' h k = F.tab H root mem h k := by
  rcases Nat.lt_or_ge H h with hH | hH
  · rw [tab_above hH, tab_above hH]
  induction hH using Nat.decreasingInduction generalizing k with
  | self => rw [tab_top, tab_top]
  | of_succ h hh ih =>
    rw [tab_step hh, tab_step hh, ih]
    refine Option.bind_congr fun t ht => ?_
    rw [hm _ _ t ht]

theorem tab_of_mem_path (ht : F.tab H root mem h (F.entry (h + 1) va) = some t)
    (hs : s ∈ F.path mem h t va) : ∃ h' k', F.tab H root mem h' k' = some s := by
  induction h generalizing t with
  | zero =>
    obtain rfl : s = t := List.mem_singleton.mp hs
    exact ⟨_, _, ht⟩
  | succ h ih =>
    cases hc : F.kind (h + 1) (mem t (F.index (h + 1) va)) with
    | table u =>
      rw [path_of_table hc, List.mem_cons] at hs
      rcases hs with rfl | hs
      · exact ⟨_, _, ht⟩
      · have hu := tab_child ht (F.index_lt _ _) hc
        rw [← F.entry_eq] at hu
        exact ih hu hs
    | invalid =>
      rw [path_of_not_table (by simp [hc]), List.mem_singleton] at hs
      exact ⟨_, _, hs ▸ ht⟩
    | leaf =>
      rw [path_of_not_table (by simp [hc]), List.mem_singleton] at hs
      exact ⟨_, _, hs ▸ ht⟩

theorem walk_congr_tab {mem' : T → Nat → W}
    (hm : ∀ h k t, F.tab H root mem h k = some t → mem' t = mem t) (h0 : F.entry (H + 1) va = 0) :
    F.walk mem' H root va = F.walk mem H root va := by
  refine walk_of_stop (stop_congr fun s hs => ?_).1
  obtain ⟨h, k, hk⟩ := tab_of_mem_path (by rw [h0]; exact tab_root) hs
  exact hm h k s hk

/-- The walk from the root passes through the table of its address's number. -/
theorem walk_tab (ht : F.tab H root mem h (F.entry (h + 1) va) = some t) :
    F.walk mem H root va = F.walk mem h t va := by
  have hh : h ≤ H := tab_le ht
  induction hh using Nat.decreasingInduction generalizing t with
  | self =>
    rw [tab_top] at ht
    split at ht
    · cases ht; rfl
    · cases ht
  | of_succ h hh ih =>
    obtain ⟨u, hu, hk⟩ := (tab_parent hh).mp ht
    rw [← entry_succ] at hu
    exact (ih hu).trans (walk_of_table hk)

end Tab

/-! ## Windows inside windows -/

/-- The table numbered `k'` at height `h'` speaks about a part of window `e` of height `h`. -/
def Below (h e h' k' : Nat) : Prop := h' < h ∧ k' / F.fan ^ (h - h' - 1) = e

section Below

variable {F}

theorem index_of_entry {h k i va : Nat} (hi : i < F.fan) (hva : F.entry h va = k * F.fan + i) :
    F.index h va = i := by
  rw [index, hva, F.number_mod hi]

theorem below_direct {h e k' : Nat} : F.Below (h + 1) e h k' ↔ k' = e := by
  rw [Below, Nat.add_sub_cancel_left, Nat.sub_self, pow_zero, Nat.div_one]
  exact and_iff_right (Nat.lt_succ_self h)

theorem below_step {h e h' k' : Nat} (hh : h' + 1 < h) :
    F.Below h e h' k' ↔ F.Below h e (h' + 1) (k' / F.fan) := by
  have hp : h - h' - 1 = (h - (h' + 1) - 1) + 1 := by omega
  rw [Below, Below, hp, pow_succ', Nat.div_div_eq_div_mul]
  exact and_congr_left' ⟨fun _ => hh, fun _ => by omega⟩

instance (h e h' k' : Nat) : Decidable (F.Below h e h' k') :=
  inferInstanceAs (Decidable (_ ∧ _))

theorem size_eq_mul_pow {h h' : Nat} (hle : h' ≤ h) : F.size h = F.size h' * F.fan ^ (h - h') := by
  rw [size, size, mul_assoc, ← pow_add, Nat.add_sub_cancel' hle]

theorem below_window {h e h' k' : Nat} (hb : F.Below h e h' k') :
    e * F.size h ≤ k' * F.size (h' + 1) ∧ (k' + 1) * F.size (h' + 1) ≤ (e + 1) * F.size h := by
  obtain ⟨hlt, he⟩ := hb
  have hpow : 0 < F.fan ^ (h - h' - 1) := Nat.pow_pos F.fan_pos
  have hsize : F.size h = F.fan ^ (h - h' - 1) * F.size (h' + 1) := by
    rw [size_eq_mul_pow (Nat.succ_le_of_lt hlt), Nat.mul_comm, Nat.sub_sub]
  obtain ⟨h1, h2⟩ := (Nat.div_eq_iff hpow).mp he
  rw [hsize, ← Nat.mul_assoc, ← Nat.mul_assoc]
  refine ⟨Nat.mul_le_mul_right _ (by omega), Nat.mul_le_mul_right _ ?_⟩
  rw [Nat.add_mul, Nat.one_mul]
  omega

end Below

/-! ## Writing a word -/

section Write

variable [DecidableEq T]

/-- The memory after word `i` of table `t` is written. -/
def setEntry (mem : T → Nat → W) (t : T) (i : Nat) (w : W) : T → Nat → W :=
  fun s j => if s = t ∧ j = i then w else mem s j

/-- Each table is reached under one number only. -/
def TabInj (H : Nat) (root : T) (mem : T → Nat → W) : Prop :=
  ∀ h k h' k' t, F.tab H root mem h k = some t → F.tab H root mem h' k' = some t →
    h = h' ∧ k = k'

/-- The table a word points to, if any, is not in the tree yet and points to no further one. -/
def Fresh (H : Nat) (root : T) (mem : T → Nat → W) (h : Nat) (w : W) : Prop :=
  ∀ s, F.kind h w = .table s → (∀ h' k', F.tab H root mem h' k' ≠ some s) ∧
    ∀ j < F.fan, ∀ u, F.kind (h - 1) (mem s j) ≠ .table u

@[simp] theorem setEntry_self (mem : T → Nat → W) (t : T) (i : Nat) (w : W) :
    setEntry mem t i w t i = w := if_pos ⟨rfl, rfl⟩

theorem setEntry_other {mem : T → Nat → W} {t s : T} {i j : Nat} {w : W}
    (h : s ≠ t ∨ j ≠ i) : setEntry mem t i w s j = mem s j := by
  refine if_neg ?_
  rintro ⟨h1, h2⟩
  exact h.elim (· h1) (· h2)

variable {F} {H : Nat} {root : T} {mem : T → Nat → W}

variable {h k i : Nat} {t : T} {w : W}

section

variable (hinj : F.TabInj H root mem) (ht : F.tab H root mem h k = some t)
include hinj ht

/-- Below the window the tree is what the new word says, and elsewhere it stays. -/
theorem tab_setEntry (hi : i < F.fan) (hw : F.Fresh H root mem h w) (h' k' : Nat) :
    F.tab H root (setEntry mem t i w) h' k' =
      if F.Below h (k * F.fan + i) h' k' then
        if h' + 1 = h then (F.kind h w).next else none
      else F.tab H root mem h' k' := by
  rcases Nat.lt_or_ge H h' with hH | hH
  · have hle := tab_le ht
    rw [tab_above hH, tab_above hH, if_neg]
    exact fun hb => absurd hb.1 (by omega)
  induction hH using Nat.decreasingInduction generalizing k' with
  | self =>
    have hb : ¬ F.Below h (k * F.fan + i) H k' := fun hb => absurd hb.1 (not_lt.mpr (tab_le ht))
    rw [tab_top, tab_top, if_neg hb]
  | of_succ h' hh ih =>
    rw [tab_step hh, tab_step hh, ih]
    rcases Nat.lt_trichotomy (h' + 1) h with hlt | heq | hgt
    · -- strictly inside: the parent is below the window too
      rw [if_neg (show h' + 1 ≠ h by omega)]
      by_cases hb : F.Below h (k * F.fan + i) h' k'
      · rw [if_pos ((below_step hlt).mp hb), if_pos hb]
        split
        · next h2 =>
          subst h2
          cases hc : F.kind (h' + 1 + 1) w with
          | invalid => rfl
          | leaf => rfl
          | table s =>
            obtain ⟨hnew, hempty⟩ := hw s hc
            have hst : s ≠ t := fun h => hnew _ _ (h ▸ ht)
            simp only [Kind.next, Option.bind_some, setEntry_other (Or.inl hst)]
            cases hu : F.kind (h' + 1) (mem s (k' % F.fan)) with
            | invalid => rfl
            | leaf => rfl
            | table u => exact absurd hu (hempty _ (Nat.mod_lt _ F.fan_pos) u)
        · rfl
      · rw [if_neg (fun h => hb ((below_step hlt).mpr h)), if_neg hb]
        refine Option.bind_congr fun s hs => ?_
        rw [setEntry_other]
        refine Or.inl fun hst => ?_
        have := hinj _ _ _ _ _ hs (hst ▸ ht)
        omega
    · -- the written table is the parent
      subst heq
      rw [if_neg (fun hb => absurd hb.1 (lt_irrefl _))]
      simp only [below_direct, if_true]
      split
      · next hk =>
        subst hk
        rw [F.number_div hi, F.number_mod hi, ht, Option.bind_some, setEntry_self]
      · next hk =>
        refine Option.bind_congr fun s hs => ?_
        rw [setEntry_other]
        by_contra hc
        push Not at hc
        obtain ⟨rfl, hmod⟩ := hc
        obtain ⟨_, hdiv⟩ := hinj _ _ _ _ _ hs ht
        exact hk (by rw [← hdiv, ← hmod, Nat.div_add_mod'])
    · -- at or above the written table
      rw [if_neg (fun hb => absurd hb.1 (by omega)), if_neg (fun hb => absurd hb.1 (by omega))]
      refine Option.bind_congr fun s hs => ?_
      rw [setEntry_other]
      refine Or.inl fun hst => ?_
      have := hinj _ _ _ _ _ hs (hst ▸ ht)
      omega

/-- The tree stays one in which each table is reached under one number. -/
theorem tabInj_setEntry (hi : i < F.fan) (hw : F.Fresh H root mem h w) :
    F.TabInj H root (setEntry mem t i w) := by
  have hread : ∀ h' k' s, F.tab H root (setEntry mem t i w) h' k' = some s →
      (h' + 1 = h ∧ k' = k * F.fan + i ∧ F.kind h w = .table s) ∨
        F.tab H root mem h' k' = some s := by
    intro h' k' s hs
    rw [tab_setEntry hinj ht hi hw] at hs
    split at hs
    · next hb =>
      split at hs
      · next h2 =>
        subst h2
        exact Or.inl ⟨rfl, below_direct.mp hb, Kind.next_eq_some.mp hs⟩
      · cases hs
    · exact Or.inr hs
  intro h1 k1 h2 k2 s hs1 hs2
  rcases hread _ _ _ hs1 with ⟨ha1, hb1, hc1⟩ | ho1
  · rcases hread _ _ _ hs2 with ⟨ha2, hb2, _⟩ | ho2
    · exact ⟨by omega, by omega⟩
    · exact absurd ho2 ((hw s hc1).1 _ _)
  · rcases hread _ _ _ hs2 with ⟨_, _, hc2⟩ | ho2
    · exact absurd ho1 ((hw s hc2).1 _ _)
    · exact hinj _ _ _ _ _ ho1 ho2

/-- Addresses outside the window of the written word are translated as before. -/
theorem walk_setEntry_other {va : Nat} (hva : F.entry h va ≠ k * F.fan + i) (h0 : F.entry (H + 1) va = 0) :
    F.walk (setEntry mem t i w) H root va = F.walk mem H root va := by
  -- the induction follows the walk: every table on the way is the one of the address's number
  suffices hgen : ∀ h' s, F.tab H root mem h' (F.entry (h' + 1) va) = some s →
      F.stop (setEntry mem t i w) h' s va = F.stop mem h' s va from
    walk_of_stop (hgen H root (by rw [h0]; exact tab_root))
  intro h' s hs
  have hread : ∀ h' s, F.tab H root mem h' (F.entry (h' + 1) va) = some s →
      setEntry mem t i w s (F.index h' va) = mem s (F.index h' va) := by
    intro h' s hs
    refine setEntry_other ?_
    by_contra hc
    push Not at hc
    obtain ⟨rfl, hidx⟩ := hc
    obtain ⟨rfl, hk⟩ := hinj _ _ _ _ _ hs ht
    exact hva (by rw [F.entry_eq, hk, hidx])
  induction h' generalizing s with
  | zero => simp only [stop, hread 0 s hs]
  | succ h' ih =>
    simp only [stop, hread _ s hs]
    cases hc : F.kind (h' + 1) (mem s (F.index (h' + 1) va)) with
    | invalid => rfl
    | leaf => rfl
    | table u =>
      refine ih u ?_
      have hu := tab_child hs (F.index_lt _ _) hc
      rwa [← F.entry_eq] at hu

/-- Addresses of the window of the written word are translated by it. -/
theorem walk_setEntry_self (hi : i < F.fan) (hw : F.Fresh H root mem h w) {va : Nat}
    (hva : F.entry h va = k * F.fan + i) :
    F.walk (setEntry mem t i w) H root va = F.walk (setEntry mem t i w) h t va := by
  have hk : F.entry (h + 1) va = k := by rw [F.entry_succ, hva, F.number_div hi]
  refine walk_tab ?_
  rw [tab_setEntry hinj ht hi hw, hk, if_neg, ht]
  exact fun hb => absurd hb.1 (by omega)

end

end Write

/-! ## Hanging a new table into the tree -/

section Graft

variable [DecidableEq T]

/-- The memory after table `s` is filled with `f`. -/
def fillTable (mem : T → Nat → W) (s : T) (f : Nat → W) : T → Nat → W :=
  fun t i => if t = s then f i else mem t i

theorem fillTable_self (mem : T → Nat → W) (s : T) (f : Nat → W) : fillTable mem s f s = f := by
  funext i
  exact if_pos rfl

theorem fillTable_fillTable (mem : T → Nat → W) (s : T) (f g : Nat → W) :
    fillTable (fillTable mem s f) s g = fillTable mem s g := by
  funext t i
  unfold fillTable
  split <;> rfl

theorem fillTable_other {mem : T → Nat → W} {s t : T} {f : Nat → W} (h : t ≠ s) :
    fillTable mem s f t = mem t := by
  funext i
  exact if_neg h

variable {F} {H : Nat} {root : T} {mem : T → Nat → W} {h k i : Nat} {t s : T} {w : W} {f : Nat → W}

theorem tab_fillTable (hs : ∀ h k, F.tab H root mem h k ≠ some s) (h k : Nat) :
    F.tab H root (fillTable mem s f) h k = F.tab H root mem h k := by
  refine tab_congr (fun h k t ht => fillTable_other ?_) h k
  rintro rfl
  exact hs h k ht

omit [DecidableEq T] in
theorem tab_below_eq_none (ht : F.tab H root mem h k = some t) (hi : i < F.fan)
    (hold : ∀ u, F.kind h (mem t i) ≠ .table u) {h' k' : Nat}
    (hb : F.Below h (k * F.fan + i) h' k') : F.tab H root mem h' k' = none := by
  have hH : h ≤ H := tab_le ht
  obtain ⟨d, rfl⟩ : ∃ d, h = h' + 1 + d := ⟨h - (h' + 1), by have := hb.1; omega⟩
  induction d generalizing h' k' with
  | zero =>
    obtain rfl : k' = k * F.fan + i := below_direct.mp hb
    rw [tab_step (by omega), F.number_div hi, F.number_mod hi, ht, Option.bind_some]
    cases hc : F.kind (h' + 1) (mem t i) with
    | invalid => rfl
    | leaf => rfl
    | table u => exact absurd hc (hold u)
  | succ d ih =>
    have hshift : h' + 1 + (d + 1) = h' + 1 + 1 + d := by omega
    rw [tab_step (by omega)]
    rw [hshift] at ht hold hH hb
    rw [ih ht hold ((below_step (by omega)).mp hb) hH, Option.bind_none]

/-- The memory after a new table `s`, filled with `f`, is hung in at word `i` of `t`. -/
def graft (mem : T → Nat → W) (t : T) (i : Nat) (s : T) (f : Nat → W) (w : W) : T → Nat → W :=
  setEntry (fillTable mem s f) t i w

/-- The word pointed to nothing, and the new one points to a table that is not in the tree and points to no
further one. -/
structure Grafts (F : PageFormat T W) (H : Nat) (root : T) (mem : T → Nat → W) (h k : Nat) (t : T)
    (i : Nat) (s : T) (f : Nat → W) (w : W) : Prop where
  inj : F.TabInj H root mem
  parent : F.tab H root mem (h + 1) k = some t
  index : i < F.fan
  old : ∀ u, F.kind (h + 1) (mem t i) ≠ .table u
  unused : ∀ h k, F.tab H root mem h k ≠ some s
  word : F.kind (h + 1) w = .table s
  flat : ∀ j < F.fan, ∀ u, F.kind h (f j) ≠ .table u

namespace Grafts

variable (hg : F.Grafts H root mem h k t i s f w)

include hg

theorem inj_fill : F.TabInj H root (fillTable mem s f) := by
  intro h1 k1 h2 k2 u hu1 hu2
  rw [tab_fillTable hg.unused] at hu1 hu2
  exact hg.inj _ _ _ _ _ hu1 hu2

theorem fresh : F.Fresh H root (fillTable mem s f) (h + 1) w := by
  intro u hu
  obtain rfl : u = s := by
    rw [hg.word] at hu
    cases hu
    rfl
  refine ⟨fun h' k' => ?_, fun j hj v => ?_⟩
  · rw [tab_fillTable hg.unused]
    exact hg.unused h' k'
  · rw [fillTable_self]
    exact hg.flat j hj v

theorem parent_fill : F.tab H root (fillTable mem s f) (h + 1) k = some t := by
  rw [tab_fillTable hg.unused]
  exact hg.parent

/-- The tree gains the new table and no other. -/
theorem tab_graft (h' k' : Nat) :
    F.tab H root (graft mem t i s f w) h' k' =
      if h' = h ∧ k' = k * F.fan + i then some s else F.tab H root mem h' k' := by
  rw [graft, tab_setEntry hg.inj_fill hg.parent_fill hg.index hg.fresh, tab_fillTable hg.unused, hg.word]
  by_cases hb : F.Below (h + 1) (k * F.fan + i) h' k'
  · rw [if_pos hb]
    by_cases hh : h' = h
    · subst hh
      rw [if_pos rfl, if_pos ⟨rfl, below_direct.mp hb⟩]
      rfl
    · rw [if_neg (by omega), if_neg (fun hc => hh hc.1), tab_below_eq_none hg.parent hg.index hg.old hb]
  · rw [if_neg hb, if_neg]
    rintro ⟨rfl, hk⟩
    exact hb (below_direct.mpr hk)

theorem tabInj_graft : F.TabInj H root (graft mem t i s f w) :=
  tabInj_setEntry hg.inj_fill hg.parent_fill hg.index hg.fresh

theorem walk_other {va : Nat} (hva : F.entry (h + 1) va ≠ k * F.fan + i) (h0 : F.entry (H + 1) va = 0) :
    F.walk (graft mem t i s f w) H root va = F.walk mem H root va := by
  rw [graft, walk_setEntry_other hg.inj_fill hg.parent_fill hva h0]
  refine walk_congr_tab (fun h' k' u hu => fillTable_other ?_) h0
  rintro rfl
  exact hg.unused h' k' hu

theorem walk_self {va : Nat} (hva : F.entry (h + 1) va = k * F.fan + i) :
    F.walk (graft mem t i s f w) H root va =
      if F.kind h (f (F.index h va)) = .leaf then some (h, f (F.index h va)) else none := by
  have hst : s ≠ t := fun hst => hg.unused _ _ (hst ▸ hg.parent)
  have hread : graft mem t i s f w s = f := by
    funext j
    rw [graft, setEntry_other (Or.inl hst), fillTable_self]
  rw [graft, walk_setEntry_self hg.inj_fill hg.parent_fill hg.index hg.fresh hva, ← graft, walk_of_table]
  · cases hc : F.kind h (f (F.index h va)) with
    | leaf => rw [if_pos rfl, walk_of_leaf (by rw [hread]; exact hc), hread]
    | invalid => rw [if_neg (by simp), walk_of_invalid (by rw [hread]; exact hc)]
    | table u => exact absurd hc (hg.flat _ (F.index_lt _ _) u)
  · rw [index_of_entry hg.index hva, graft, setEntry_self]
    exact hg.word

end Grafts

end Graft

end PageFormat

end Armada3720.Lib
