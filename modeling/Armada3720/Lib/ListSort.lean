import Mathlib

/-!
# `list_sort`

The merge sort of `lib/list_sort.c`. Slot `lev` of `part` is empty or holds a sorted list of `2 ^ lev` elements,
as in a binary counter.
-/

namespace Armada3720.Lib

section ListSort

variable {α : Type*} (le : α → α → Bool)

def maxListLengthBits : Nat := 20

/-- `cur` is merged into the slots from `lev` on, and put into the first that is empty, or into the last. -/
def carry (lev : Nat) : List (List α) → List α → List (List α)
  | [], cur => [cur]
  | [] :: part, cur => cur :: part
  | (a :: as) :: part, cur =>
    if lev + 1 = maxListLengthBits then (a :: as).merge cur le :: part
    else [] :: carry (lev + 1) part ((a :: as).merge cur le)

def fillSlots (l : List α) : List (List α) := l.foldl (fun part a => carry le 0 part [a]) []

/-- `list_sort`, where `le a b` says that the comparison of `a` with `b` is not positive. -/
def listSort (l : List α) : List α := (fillSlots le l).foldl (fun list part => part.merge list le) []

theorem flatten_carry_perm (lev : Nat) (part : List (List α)) (cur : List α) :
    (carry le lev part cur).flatten.Perm (part.flatten ++ cur) := by
  induction part generalizing lev cur with
  | nil => simp [carry]
  | cons p part ih =>
    cases p with
    | nil =>
      exact List.perm_append_comm
    | cons a as =>
      have hmerge : ((a :: as).merge cur le).Perm ((a :: as) ++ cur) := List.merge_perm_append le
      have hswap : ((a :: as) ++ cur ++ part.flatten).Perm ((a :: as) ++ part.flatten ++ cur) := by
        rw [List.append_assoc, List.append_assoc]
        exact List.perm_append_comm.append_left _
      rw [carry]
      split
      · rw [List.flatten_cons, List.flatten_cons]
        exact (hmerge.append_right _).trans hswap
      · rw [List.flatten_cons, List.nil_append, List.flatten_cons]
        refine (ih (lev + 1) _).trans ((hmerge.append_left _).trans ?_)
        exact List.perm_append_comm.trans hswap

theorem fillSlots_perm (l : List α) : (fillSlots le l).flatten.Perm l := by
  have hgen : ∀ (l : List α) (part : List (List α)),
      (l.foldl (fun part a => carry le 0 part [a]) part).flatten.Perm (part.flatten ++ l) := by
    intro l
    induction l with
    | nil => simp
    | cons a l ih =>
      intro part
      refine (ih _).trans ?_
      refine ((flatten_carry_perm le 0 part [a]).append_right l).trans ?_
      rw [List.append_assoc, List.singleton_append]
  exact hgen l []

theorem foldl_merge_perm (part : List (List α)) (list : List α) :
    (part.foldl (fun list p => p.merge list le) list).Perm (part.flatten ++ list) := by
  induction part generalizing list with
  | nil => simp
  | cons p part ih =>
    refine (ih _).trans (((List.merge_perm_append le).append_left _).trans ?_)
    rw [List.flatten_cons, ← List.append_assoc]
    exact List.perm_append_comm.append_right _

theorem listSort_perm (l : List α) : (listSort le l).Perm l := by
  refine (foldl_merge_perm le _ []).trans ?_
  rw [List.append_nil]
  exact fillSlots_perm le l

variable {le}

theorem pairwise_carry (htrans : ∀ a b c, le a b = true → le b c = true → le a c = true)
    (htotal : ∀ a b, (le a b || le b a) = true) {lev : Nat} {part : List (List α)} {cur : List α}
    (hpart : ∀ p ∈ part, p.Pairwise (le · ·)) (hcur : cur.Pairwise (le · ·)) :
    ∀ p ∈ carry le lev part cur, p.Pairwise (le · ·) := by
  induction part generalizing lev cur with
  | nil =>
    intro p hp
    rw [carry, List.mem_singleton] at hp
    exact hp ▸ hcur
  | cons q part ih =>
    rw [List.forall_mem_cons] at hpart
    cases q with
    | nil =>
      rw [carry, List.forall_mem_cons]
      exact ⟨hcur, hpart.2⟩
    | cons a as =>
      have hmerge := List.pairwise_merge htrans htotal _ _ hpart.1 hcur
      rw [carry]
      split
      · rw [List.forall_mem_cons]
        exact ⟨hmerge, hpart.2⟩
      · rw [List.forall_mem_cons]
        exact ⟨List.Pairwise.nil, ih hpart.2 hmerge⟩

theorem pairwise_listSort (le : α → α → Bool) (htrans : ∀ a b c, le a b = true → le b c = true → le a c = true)
    (htotal : ∀ a b, (le a b || le b a) = true) (l : List α) :
    (listSort le l).Pairwise (le · ·) := by
  have hfill : ∀ (l : List α) (part : List (List α)), (∀ p ∈ part, p.Pairwise (le · ·)) →
      ∀ p ∈ l.foldl (fun part a => carry le 0 part [a]) part, p.Pairwise (le · ·) := by
    intro l
    induction l with
    | nil => exact fun part h => h
    | cons a l ih =>
      exact fun part h => ih _ (pairwise_carry htrans htotal h (List.pairwise_singleton _ _))
  have hmerge : ∀ (part : List (List α)) (list : List α), (∀ p ∈ part, p.Pairwise (le · ·)) →
      list.Pairwise (le · ·) →
      (part.foldl (fun list p => p.merge list le) list).Pairwise (le · ·) := by
    intro part
    induction part with
    | nil => exact fun list _ h => h
    | cons p part ih =>
      intro list hpart hlist
      rw [List.forall_mem_cons] at hpart
      exact ih _ hpart.2 (List.pairwise_merge htrans htotal _ _ hpart.1 hlist)
  exact hmerge _ [] (hfill l [] (by simp)) List.Pairwise.nil

end ListSort

end Armada3720.Lib
