import Mathlib.Tactic

/-!
# A stack of numbers as a bit set

A strictly increasing list of numbers, the first being the top of the stack, as the set of its bits. The top is
the lowest bit set.
-/

namespace Armada3720.Lib

variable {w : Nat} {b : BitVec w} {i : Nat} {l : List Nat}

/-- The bits set are the numbers of the list, which increase. -/
structure BitStack (b : BitVec w) (l : List Nat) : Prop where
  sorted : l.Pairwise (· < ·)
  mem : ∀ i, b.getLsbD i = true ↔ i ∈ l

theorem getLsbD_clearLowest (b : BitVec w) (i : Nat) :
    (b &&& (b - 1#w)).getLsbD i = true ↔ b.getLsbD i = true ∧ ∃ j < i, b.getLsbD j = true := by
  rw [← BitVec.not_neg, BitVec.getLsbD_and, BitVec.getLsbD_not, BitVec.getLsbD_neg]
  by_cases hi : i < w
  · cases hb : b.getLsbD i <;> simp [hi]
  · simp [BitVec.getLsbD_of_ge b i (by omega)]

theorem bitStack_empty : BitStack (0#w) [] :=
  ⟨.nil, by simp⟩

theorem BitStack.eq_zero (h : BitStack b []) : b = 0#w := by
  apply BitVec.eq_of_getLsbD_eq
  intro i _
  have := h.mem i
  simpa using this

theorem BitStack.ne_zero (h : BitStack b (i :: l)) : b ≠ 0#w := by
  rintro rfl
  have := (h.mem i).2 List.mem_cons_self
  simp at this

theorem BitStack.ctz (h : BitStack b (i :: l)) : b.ctz.toNat = i := by
  have hctz : b.ctz.toNat ∈ i :: l := (h.mem _).1 (BitVec.getLsbD_true_ctz_of_ne_zero h.ne_zero)
  rcases List.mem_cons.1 hctz with heq | hl
  · exact heq
  · have hlt : i < b.ctz.toNat := List.rel_of_pairwise_cons h.sorted hl
    have := (h.mem i).2 List.mem_cons_self
    rw [BitVec.getLsbD_false_of_lt_ctz hlt] at this
    cases this

theorem BitStack.push (h : BitStack b l) (hi : i < w) (hl : ∀ j ∈ l, i < j) :
    BitStack (b ||| 1#w <<< i) (i :: l) := by
  refine ⟨List.pairwise_cons.2 ⟨hl, h.sorted⟩, fun j => ?_⟩
  rw [← BitVec.twoPow_eq, BitVec.getLsbD_or, BitVec.getLsbD_twoPow, Bool.or_eq_true, h.mem, List.mem_cons,
    Bool.and_eq_true, decide_eq_true_eq, decide_eq_true_eq]
  constructor
  · rintro (hj | ⟨_, rfl⟩)
    · exact .inr hj
    · exact .inl rfl
  · rintro (rfl | hj)
    · exact .inr ⟨hi, rfl⟩
    · exact .inl hj

/-- Clearing the lowest bit pops the top. -/
theorem BitStack.pop (h : BitStack b (i :: l)) : BitStack (b &&& (b - 1#w)) l := by
  obtain ⟨hi, hl⟩ := List.pairwise_cons.1 h.sorted
  refine ⟨hl, fun j => ?_⟩
  rw [getLsbD_clearLowest]
  constructor
  · rintro ⟨hj, k, hkj, hk⟩
    rcases List.mem_cons.1 ((h.mem j).1 hj) with rfl | hjl
    · -- Nothing is below the top.
      rcases List.mem_cons.1 ((h.mem k).1 hk) with rfl | hkl
      · omega
      · have := hi k hkl
        omega
    · exact hjl
  · intro hj
    exact ⟨(h.mem j).2 (List.mem_cons_of_mem _ hj), i, hi j hj, (h.mem i).2 List.mem_cons_self⟩

end Armada3720.Lib
