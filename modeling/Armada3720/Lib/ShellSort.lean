import Mathlib

/-!
# Shell sort

Passes with decreasing gaps, each moving every element down in steps of the gap until it meets one that is not
above it. The comparison is any function to `Int`; the result is a rearrangement of the input.
-/

namespace Armada3720.Lib

section ShellSort

variable {α : Type*} (comp : α → α → Int)

/-- Move the element at `j` down by steps of `gap` while it is below the one it meets. -/
def siftDown (gap : Nat) : Nat → Nat → Array α → Array α
  | 0, _, a => a
  | fuel + 1, j, a =>
    match a[j - gap]?, a[j]? with
    | some x, some y =>
      if comp x y ≤ 0 then
        a
      else if gap ≤ j - gap then
        siftDown gap fuel (j - gap) (a.swapIfInBounds (j - gap) j)
      else
        a.swapIfInBounds (j - gap) j
    | _, _ => a

/-- One pass: sift every element from `i` on. -/
def gapPass (gap : Nat) : Nat → Nat → Array α → Array α
  | 0, _, a => a
  | fuel + 1, i, a =>
    if i + 1 < a.size then
      gapPass gap fuel (i + 1) (siftDown comp gap a.size i a)
    else
      siftDown comp gap a.size i a

/-- Passes with the gaps `gap`, `(gap - 1) / 3`, and so on down to `1`. -/
def gapLoop : Nat → Nat → Array α → Array α
  | 0, _, a => a
  | fuel + 1, gap, a =>
    if (gap - 1) / 3 ≠ 0 then
      gapLoop fuel ((gap - 1) / 3) (gapPass comp gap a.size gap a)
    else
      gapPass comp gap a.size gap a

/-- The first gap for `nel` elements, of the sequence `1, 4, 13, ...`. -/
def gapStart (nel : Nat) : Nat → Nat → Nat
  | 0, gap => gap
  | fuel + 1, gap =>
    if 3 * gap + 1 < (nel - 1) / 3 then gapStart nel fuel (3 * gap + 1) else 3 * gap + 1

def shellSort (a : Array α) : Array α :=
  if 1 < a.size then gapLoop comp a.size (gapStart a.size a.size 0) a else a

theorem swapIfInBounds_perm (a : Array α) (i j : Nat) : (a.swapIfInBounds i j).Perm a := by
  unfold Array.swapIfInBounds
  split
  · split
    · exact Array.swap_perm _ _
    · exact Array.Perm.rfl
  · exact Array.Perm.rfl

theorem siftDown_perm (gap fuel j : Nat) (a : Array α) : (siftDown comp gap fuel j a).Perm a := by
  induction fuel generalizing j a with
  | zero => exact Array.Perm.rfl
  | succ fuel ih =>
    rw [siftDown]
    split
    · split
      · exact Array.Perm.rfl
      · split
        · exact (ih _ _).trans (swapIfInBounds_perm a _ _)
        · exact swapIfInBounds_perm a _ _
    · exact Array.Perm.rfl

theorem gapPass_perm (gap fuel i : Nat) (a : Array α) : (gapPass comp gap fuel i a).Perm a := by
  induction fuel generalizing i a with
  | zero => exact Array.Perm.rfl
  | succ fuel ih =>
    rw [gapPass]
    split
    · exact (ih _ _).trans (siftDown_perm comp gap _ _ a)
    · exact siftDown_perm comp gap _ _ a

theorem gapLoop_perm (fuel gap : Nat) (a : Array α) : (gapLoop comp fuel gap a).Perm a := by
  induction fuel generalizing gap a with
  | zero => exact Array.Perm.rfl
  | succ fuel ih =>
    rw [gapLoop]
    split
    · exact (ih _ _).trans (gapPass_perm comp gap _ _ a)
    · exact gapPass_perm comp gap _ _ a

theorem shellSort_perm (a : Array α) : (shellSort comp a).Perm a := by
  unfold shellSort
  split
  · exact gapLoop_perm comp _ _ a
  · exact Array.Perm.rfl

end ShellSort

end Armada3720.Lib
