import Mathlib.Data.List.Basic
import Mathlib.Data.List.Nodup

/-!
# Doubly linked lists threaded through an array of cells

Every cell holds a value and the indices of its neighbours. `Seg` is a stretch of the list between a predecessor
and a successor that lie outside of it.
-/

namespace Armada3720.Lib

structure Cell (α : Type*) where
  val : α
  next : Nat
  prev : Nat

namespace Cell

variable {α : Type*} {cells cells' : Nat → Cell α} {prev prev' next next' : Nat} {xs ys : List (Nat × α)}

/-- The first index of a stretch, and the successor's if it is empty. -/
def headIdx (next : Nat) : List (Nat × α) → Nat
  | [] => next
  | x :: _ => x.1

/-- The last index of a stretch, and the predecessor's if it is empty. -/
def lastIdx (prev : Nat) : List (Nat × α) → Nat
  | [] => prev
  | x :: xs => lastIdx x.1 xs

/-- The cells hold the stretch `xs` of a list, between the neighbours `prev` and `next`. -/
def Seg (cells : Nat → Cell α) (prev next : Nat) : List (Nat × α) → Prop
  | [] => True
  | x :: xs => cells x.1 = ⟨x.2, headIdx next xs, prev⟩ ∧ Seg cells x.1 next xs

@[simp]
theorem headIdx_append (xs ys : List (Nat × α)) :
    headIdx next (xs ++ ys) = headIdx (headIdx next ys) xs := by
  cases xs <;> rfl

theorem headIdx_append_of_ne_nil (hne : xs ≠ []) (ys zs : List (Nat × α)) :
    headIdx next (xs ++ ys) = headIdx next (xs ++ zs) := by
  cases xs with
  | nil => exact absurd rfl hne
  | cons x xs => rfl

@[simp]
theorem lastIdx_append (xs ys : List (Nat × α)) :
    lastIdx prev (xs ++ ys) = lastIdx (lastIdx prev xs) ys := by
  induction xs generalizing prev with
  | nil => rfl
  | cons x xs ih => exact ih

theorem seg_append : Seg cells prev next (xs ++ ys) ↔
    Seg cells prev (headIdx next ys) xs ∧ Seg cells (lastIdx prev xs) next ys := by
  induction xs generalizing prev with
  | nil => simp [Seg, lastIdx]
  | cons x xs ih => simp [Seg, lastIdx, ih, and_assoc]

theorem lastIdx_mem (prev : Nat) (hne : xs ≠ []) : lastIdx prev xs ∈ xs.map Prod.fst := by
  induction xs generalizing prev with
  | nil => exact absurd rfl hne
  | cons x xs ih =>
    rcases xs with _ | ⟨y, xs⟩
    · simp [lastIdx]
    · exact List.mem_cons_of_mem _ (ih x.1 (by simp))

theorem headIdx_mem (next : Nat) (hne : xs ≠ []) : headIdx next xs ∈ xs.map Prod.fst := by
  cases xs with
  | nil => exact absurd rfl hne
  | cons x xs => simp [headIdx]

section

variable (h : Seg cells prev next xs)
include h

theorem Seg.congr (heq : ∀ x ∈ xs, cells' x.1 = cells x.1) : Seg cells' prev next xs := by
  induction xs generalizing prev with
  | nil => trivial
  | cons x xs ih =>
    exact ⟨(heq x (by simp)).trans h.1, ih h.2 fun y hy => heq y (List.mem_cons_of_mem _ hy)⟩

theorem Seg.next_lastIdx (hne : xs ≠ []) : (cells (lastIdx prev xs)).next = next := by
  induction xs generalizing prev with
  | nil => exact absurd rfl hne
  | cons x xs ih =>
    rcases xs with _ | ⟨y, xs⟩
    · exact congrArg Cell.next h.1
    · exact ih h.2 (by simp)

theorem Seg.prev_headIdx (hne : xs ≠ []) : (cells (headIdx next xs)).prev = prev := by
  cases xs with
  | nil => exact absurd rfl hne
  | cons x xs => exact congrArg Cell.prev h.1

/-- The first cell has been linked to another predecessor. -/
theorem Seg.relinkHead (hnd : (xs.map Prod.fst).Nodup) (hcells : ∀ x ∈ xs, cells' x.1 =
      if x.1 = headIdx next xs then ⟨(cells x.1).val, (cells x.1).next, prev'⟩ else cells x.1) :
    Seg cells' prev' next xs := by
  cases xs with
  | nil => trivial
  | cons x xs =>
    rw [List.map_cons, List.nodup_cons] at hnd
    refine ⟨?_, h.2.congr fun y hy => ?_⟩
    · rw [hcells x (by simp), if_pos (show x.1 = headIdx next (x :: xs) from rfl), h.1]
    · have hne : y.1 ≠ x.1 := fun heq => hnd.1 (heq ▸ List.mem_map_of_mem hy)
      rw [hcells y (List.mem_cons_of_mem _ hy), if_neg (show ¬y.1 = headIdx next (x :: xs) from hne)]

/-- The last cell has been linked to another successor. -/
theorem Seg.relinkLast (hnd : (xs.map Prod.fst).Nodup) (hcells : ∀ x ∈ xs, cells' x.1 =
      if x.1 = lastIdx prev xs then ⟨(cells x.1).val, next', (cells x.1).prev⟩ else cells x.1) :
    Seg cells' prev next' xs := by
  induction xs generalizing prev with
  | nil => trivial
  | cons x xs ih =>
    rw [List.map_cons, List.nodup_cons] at hnd
    refine ⟨?_, ih h.2 hnd.2 fun y hy => hcells y (List.mem_cons_of_mem _ hy)⟩
    rcases xs with _ | ⟨y, xs⟩
    · rw [hcells x (by simp), if_pos (show x.1 = lastIdx prev [x] from rfl), h.1]
      rfl
    · have hne : x.1 ≠ lastIdx x.1 (y :: xs) := fun heq =>
        hnd.1 (heq ▸ lastIdx_mem x.1 (by simp))
      rw [hcells x (by simp), if_neg (show ¬x.1 = lastIdx prev (x :: y :: xs) from hne), h.1]
      rfl

end

end Cell

end Armada3720.Lib
