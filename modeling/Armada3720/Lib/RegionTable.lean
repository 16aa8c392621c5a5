import Armada3720.Lib.Regions

/-!
# Tables of regions

A region table is the first `n` slots of an array. `Covers` is the set of addresses that its regions hold, and a
table is `Gapped` when its regions stand in order with a gap between any two. Replacing, removing and inserting
a region keep the gaps under conditions on the neighbours.
-/

namespace Armada3720.Lib

open Function

def removeAt {α : Type*} (r : Nat → α) (k : Nat) : Nat → α := fun j => if j < k then r j else r (j + 1)

def insertAt {α : Type*} (r : Nat → α) (k : Nat) (e : α) : Nat → α := fun j =>
  if j < k then r j else if j = k then e else r (j - 1)

section Tables

variable {α : Type*} (base size : α → Nat)

/-- The regions stand in order, with gaps between them. -/
def Gapped (n : Nat) (r : Nat → α) : Prop :=
  ∀ i j, i < j → j < n → base (r i) + size (r i) < base (r j)

def Covers (n : Nat) (r : Nat → α) (x : Nat) : Prop := ∃ i < n, Holds base size (r i) x

/-- A region of the table in another slot than `k` holds the address. -/
def CoversBut (n : Nat) (r : Nat → α) (k x : Nat) : Prop := ∃ i < n, i ≠ k ∧ Holds base size (r i) x

variable {base size} {n k x : Nat} {r r' : Nat → α} {e : α}

theorem Gapped.congr (h : Gapped base size n r) (heq : ∀ j < n, r' j = r j) :
    Gapped base size n r' := by
  intro i j hij hj
  rw [heq i (hij.trans hj), heq j hj]
  exact h i j hij hj

theorem covers_congr (heq : ∀ j < n, r' j = r j) : Covers base size n r' x ↔ Covers base size n r x := by
  constructor
  · rintro ⟨i, hi, h⟩
    exact ⟨i, hi, heq i hi ▸ h⟩
  · rintro ⟨i, hi, h⟩
    exact ⟨i, hi, (heq i hi).symm ▸ h⟩

theorem covers_iff_coversBut (hk : k < n) :
    Covers base size n r x ↔ Holds base size (r k) x ∨ CoversBut base size n r k x := by
  constructor
  · rintro ⟨i, hi, h⟩
    by_cases hik : i = k
    · exact Or.inl (hik ▸ h)
    · exact Or.inr ⟨i, hi, hik, h⟩
  · rintro (h | ⟨i, hi, -, h⟩)
    · exact ⟨k, hk, h⟩
    · exact ⟨i, hi, h⟩

theorem covers_update (hk : k < n) : Covers base size n (update r k e) x ↔
    Holds base size e x ∨ CoversBut base size n r k x := by
  rw [covers_iff_coversBut hk, update_self]
  refine or_congr_right (exists_congr fun i => and_congr_right fun _ => and_congr_right fun hik => ?_)
  rw [update_of_ne hik]

theorem covers_removeAt (hk : k < n + 1) : Covers base size n (removeAt r k) x ↔
    CoversBut base size (n + 1) r k x := by
  constructor
  · rintro ⟨i, hi, h⟩
    unfold removeAt at h
    split at h
    · exact ⟨i, by omega, by omega, h⟩
    · exact ⟨i + 1, by omega, by omega, h⟩
  · rintro ⟨i, hi, hik, h⟩
    rcases Nat.lt_or_gt_of_ne hik with hlt | hgt
    · exact ⟨i, by omega, by rwa [removeAt, if_pos hlt]⟩
    · refine ⟨i - 1, by omega, ?_⟩
      rwa [removeAt, if_neg (by omega), Nat.sub_add_cancel (by omega)]

theorem Gapped.update (h : Gapped base size n r) (hk : k < n) (hbefore : ∀ i < k, base (r i) + size (r i) < base e)
    (hafter : ∀ j, k < j → j < n → base e + size e < base (r j)) :
    Gapped base size n (update r k e) := by
  intro i j hij hj
  rcases eq_or_ne i k with rfl | hik
  · rw [update_self, update_of_ne hij.ne']
    exact hafter j hij hj
  · rw [update_of_ne hik]
    rcases eq_or_ne j k with rfl | hjk
    · rw [update_self]
      exact hbefore i hij
    · rw [update_of_ne hjk]
      exact h i j hij hj

theorem Gapped.removeAt (h : Gapped base size (n + 1) r) : Gapped base size n (removeAt r k) := by
  intro i j hij hj
  unfold Lib.removeAt
  split
  · split
    · exact h i j hij (by omega)
    · exact h i (j + 1) (by omega) (by omega)
  · rw [if_neg (by omega)]
    exact h (i + 1) (j + 1) (by omega) (by omega)

theorem Gapped.insertAt (h : Gapped base size n r) (hk : k ≤ n) (hbefore : ∀ i < k, base (r i) + size (r i) < base e)
    (hafter : ∀ j, k ≤ j → j < n → base e + size e < base (r j)) :
    Gapped base size (n + 1) (insertAt r k e) := by
  intro i j hij hj
  unfold Lib.insertAt
  rcases Nat.lt_trichotomy i k with hik | rfl | hik
  · rw [if_pos hik]
    split
    · next hjk => exact h i j hij (by omega)
    · split
      · exact hbefore i hik
      · exact h i (j - 1) (by omega) (by omega)
  · rw [if_neg (lt_irrefl i), if_pos rfl, if_neg (by omega), if_neg (by omega)]
    exact hafter (j - 1) (by omega) (by omega)
  · rw [if_neg (by omega), if_neg (by omega), if_neg (by omega), if_neg (by omega)]
    exact h (i - 1) (j - 1) (by omega) (by omega)

end Tables

end Armada3720.Lib
