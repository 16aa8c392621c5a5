import Armada3720.MemBuff.Model

/-!
# Growing a memory buffer

`membuff_extend_by` doubles the size until there is room for the bytes that are needed. A size of 0 stays 0, and a
doubled size may leave the range of an `int` before it is large enough.

`membuff_extend_by_ends_iff` is exact, for every answer of `realloc`.
-/

namespace Armada3720.MemBuff

variable {target fuel size size' : Nat}

theorem le_of_doubleLoop (h : doubleLoop target fuel size = some size') : target ≤ size' := by
  induction fuel generalizing size with
  | zero => cases h
  | succ fuel ih =>
    unfold doubleLoop at h
    split at h
    · split at h
      · exact ih h
      · cases h
    next hle =>
      cases h
      exact Nat.le_of_not_lt hle

/-- With enough rounds, the loop ends if and only if a doubled size that is large enough is an `int`. -/
theorem doubleLoop_isSome_iff (htarget : target < 2 ^ 31) (hfuel : 2 ^ 31 ≤ size * 2 ^ fuel) :
    (doubleLoop target (fuel + 1) size).isSome ↔ target ≤ size ∨ ∃ k, target ≤ size * 2 ^ k ∧ size * 2 ^ k < 2 ^ 31 := by
  induction fuel generalizing size with
  | zero =>
    have hle : target ≤ size := by omega
    rw [doubleLoop, if_neg hle.not_gt]
    exact iff_of_true rfl (.inl hle)
  | succ fuel ih =>
    rw [doubleLoop]
    by_cases hle : target ≤ size
    · rw [if_neg hle.not_gt]
      exact iff_of_true rfl (.inl hle)
    · have hshift : ∀ k, size * 2 ^ (k + 1) = 2 * size * 2 ^ k := fun k => by ring
      rw [if_pos (Nat.lt_of_not_le hle), or_iff_right hle]
      split
      next hint =>
        rw [ih (by rwa [← hshift])]
        constructor
        · rintro (h | ⟨k, hk⟩)
          · exact ⟨1, by omega⟩
          · exact ⟨k + 1, by rwa [hshift]⟩
        · rintro ⟨_ | k, hk⟩
          · omega
          · exact .inr ⟨k, by rwa [← hshift]⟩
      next hint =>
        refine iff_of_false nofun ?_
        rintro ⟨_ | k, hk, hlt⟩
        · omega
        · rw [hshift] at hlt
          exact hint ((Nat.le_mul_of_pos_right _ (Nat.two_pow_pos k)).trans_lt hlt)

theorem doubleLoop_zero (htarget : 0 < target) : doubleLoop target fuel 0 = none := by
  induction fuel with
  | zero => rfl
  | succ fuel ih => rwa [doubleLoop, if_pos htarget, if_pos (by decide)]

variable (realloc : Nat → Nat → Option (Nat × Mem)) (mem : Mem) (mb : Membuff) (by' : Nat) (max : Int)

/-- The call ends, and a buffer that has grown is large enough or has the largest size, if and only if no byte is needed or
a doubled size that is large enough is an `int`. -/
theorem membuff_extend_by_ends_iff (hfit : membuffSize mb + by' < 2 ^ 31) :
    (∃ mem' mb' ret, membuffExtendBy realloc mem mb by' max = some (mem', mb', ret) ∧
      (ret = 0 → membuffSize mb + by' ≤ membuffSize mb' ∨ (membuffSize mb' : Int) = max)) ↔
    by' = 0 ∨ ∃ k, membuffSize mb + by' ≤ membuffSize mb * 2 ^ k ∧ membuffSize mb * 2 ^ k < 2 ^ 31 := by
  have hends : (doubleLoop (membuffSize mb + by') 32 (membuffSize mb)).isSome ↔
      by' = 0 ∨ ∃ k, membuffSize mb + by' ≤ membuffSize mb * 2 ^ k ∧ membuffSize mb * 2 ^ k < 2 ^ 31 := by
    rcases Nat.eq_zero_or_pos (membuffSize mb) with hsize | hsize
    · rw [hsize]
      rcases Nat.eq_zero_or_pos by' with rfl | hby
      · exact iff_of_true rfl (.inl rfl)
      · rw [doubleLoop_zero (by omega)]
        exact iff_of_false nofun (by rintro (h | ⟨k, h, -⟩) <;> omega)
    · rw [doubleLoop_isSome_iff hfit (Nat.le_mul_of_pos_left _ hsize)]
      exact or_congr_left (by omega)
  rw [← hends]
  unfold membuffExtendBy membuffSize
  dsimp only
  cases hloop : doubleLoop (mb.stop - mb.start + by') 32 (mb.stop - mb.start) with
  | none => exact iff_of_false (by rintro ⟨mem', mb', ret, heq, -⟩; cases heq) nofun
  | some size =>
    have hle := le_of_doubleLoop hloop
    refine iff_of_true ?_ rfl
    simp only [Option.pure_def, Option.bind_eq_bind, Option.bind_some, Option.map_some]
    generalize hclipped : (if max ≠ -1 then min (size : Int) max else (size : Int)) = clipped
    have hcases : clipped = size ∨ clipped = max := by
      rw [← hclipped]
      split
      · exact min_choice _ _
      · exact .inl rfl
    split
    · exact ⟨_, _, _, rfl, nofun⟩
    next hpos =>
      split
      · exact ⟨_, _, _, rfl, nofun⟩
      · refine ⟨_, _, _, rfl, fun _ => ?_⟩
        unfold extended
        dsimp only
        split <;> dsimp only <;> omega

theorem membuff_extend_by_ends_doubled :
    ∃ mem' mb', membuffExtendBy (fun _ _ => some (64, fun _ => 0)) (fun _ => 0) (membuffInit 8 4) 5 (-1) =
        some (mem', mb', 0) ∧ membuffSize (membuffInit 8 4) + 5 ≤ membuffSize mb' := by
  obtain ⟨mem', mb', ret, hrun, hsize⟩ := (membuff_extend_by_ends_iff (fun _ _ => some (64, fun _ => 0))
    (fun _ => 0) (membuffInit 8 4) 5 (-1) (by decide)).2 (.inr ⟨2, by decide⟩)
  obtain rfl : ret = 0 := congrArg (fun r => r.2.2) (Option.some.inj hrun.symm)
  exact ⟨mem', mb', hrun, (hsize rfl).resolve_right (by omega)⟩

/-- The size of an empty buffer stays 0, however often it is doubled. -/
theorem membuff_extend_by_empty_runs_on :
    membuffExtendBy (fun _ _ => none) (fun _ => 0) (membuffInit 8 0) 1 (-1) = none ∧
      ∀ fuel, doubleLoop (membuffSize (membuffInit 8 0) + 1) fuel (membuffSize (membuffInit 8 0)) = none :=
  ⟨rfl, fun _ => doubleLoop_zero (by decide)⟩

end Armada3720.MemBuff
