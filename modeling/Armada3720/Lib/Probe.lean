import Mathlib

/-!
# Probing by a constant step

A table with slots `1 .. n` is searched by going back `d` slots at a time, wrapping at the low end. When `n` is
prime and `0 < d < n` the search visits every slot once before it is back at its start.
-/

namespace Armada3720.Lib

open Finset

/-- One step of the search: `d` slots back, wrapping at the low end. -/
def stepBack (n d i : Nat) : Nat :=
  if i ≤ d then n + i - d else i - d

/-- The slot reached after `j` steps from `s`. -/
def probe (n d s j : Nat) : Nat := (stepBack n d)^[j] s

theorem probe_zero (n d s : Nat) : probe n d s 0 = s := rfl

theorem probe_succ (n d s j : Nat) :
    probe n d s (j + 1) = stepBack n d (probe n d s j) :=
  Function.iterate_succ_apply' _ _ _

theorem stepBack_mem {n d i : Nat} (hd : 0 < d ∧ d < n) (hi : 1 ≤ i ∧ i ≤ n) :
    1 ≤ stepBack n d i ∧ stepBack n d i ≤ n := by
  unfold stepBack
  split <;> omega

theorem probe_mem {n d s : Nat} (hd : 0 < d ∧ d < n) (hs : 1 ≤ s ∧ s ≤ n) (j : Nat) :
    1 ≤ probe n d s j ∧ probe n d s j ≤ n := by
  induction j with
  | zero => exact hs
  | succ j ih =>
    rw [probe_succ]
    exact stepBack_mem hd ih

theorem stepBack_cast {n d i : Nat} (hd : d < n) : ((stepBack n d i : Nat) : ZMod n) = (i : ZMod n) - d := by
  unfold stepBack
  split
  · next h =>
    rw [Nat.cast_sub (by omega), Nat.cast_add, ZMod.natCast_self, zero_add]
  · next h => rw [Nat.cast_sub (by omega)]

/-- The `j`-th slot is `s - j * d` modulo `n`. -/
theorem probe_cast {n d : Nat} (s : Nat) (hd : d < n) (j : Nat) :
    ((probe n d s j : Nat) : ZMod n) = (s : ZMod n) - j * d := by
  induction j with
  | zero => rw [probe_zero, Nat.cast_zero, zero_mul, sub_zero]
  | succ j ih =>
    rw [probe_succ, stepBack_cast hd, ih]
    push_cast
    ring

theorem eq_of_cast_eq {n a b : Nat} (ha : 1 ≤ a ∧ a ≤ n) (hb : 1 ≤ b ∧ b ≤ n) (h : (a : ZMod n) = b) : a = b := by
  have hmod : a % n = b % n := (ZMod.natCast_eq_natCast_iff' a b n).mp h
  rcases Nat.lt_or_ge a n with han | han
  · rcases Nat.lt_or_ge b n with hbn | hbn
    · rwa [Nat.mod_eq_of_lt han, Nat.mod_eq_of_lt hbn] at hmod
    · have hbn' : b = n := by omega
      rw [Nat.mod_eq_of_lt han, hbn', Nat.mod_self] at hmod
      omega
  · have han' : a = n := by omega
    rcases Nat.lt_or_ge b n with hbn | hbn
    · rw [Nat.mod_eq_of_lt hbn, han', Nat.mod_self] at hmod
      omega
    · omega

section Prime

variable {n d s : Nat}

/-- The first `n` slots of a search over a prime number of slots differ. -/
theorem probe_injOn (hn : n.Prime) (hd : 0 < d ∧ d < n) {j k : Nat}
    (hj : j < n) (hk : k < n) (h : probe n d s j = probe n d s k) : j = k := by
  have : Fact n.Prime := ⟨hn⟩
  have hz : ((j : ZMod n) - k) * d = 0 := by
    have hc := congrArg (Nat.cast : Nat → ZMod n) h
    rw [probe_cast s hd.2, probe_cast s hd.2] at hc
    have hjk : (j : ZMod n) * d = k * d := sub_right_injective hc
    rw [sub_mul, hjk, sub_self]
  have hd0 : (d : ZMod n) ≠ 0 := by
    intro h0
    exact Nat.not_dvd_of_pos_of_lt hd.1 hd.2 ((ZMod.natCast_eq_zero_iff d n).mp h0)
  have hjk : (j : ZMod n) = k :=
    sub_eq_zero.mp ((mul_eq_zero.mp hz).resolve_right hd0)
  have hmod : j % n = k % n := (ZMod.natCast_eq_natCast_iff' j k n).mp hjk
  rwa [Nat.mod_eq_of_lt hj, Nat.mod_eq_of_lt hk] at hmod

theorem probe_period (hd : 0 < d ∧ d < n) (hs : 1 ≤ s ∧ s ≤ n) : probe n d s n = s := by
  refine eq_of_cast_eq (probe_mem hd hs n) hs ?_
  rw [probe_cast s hd.2, ZMod.natCast_self, zero_mul, sub_zero]

/-- No slot but the start is met twice: inside one round the start is not met again. -/
theorem probe_ne_start (hn : n.Prime) (hd : 0 < d ∧ d < n) {j : Nat} (hj : 0 < j) (hjn : j < n) :
    probe n d s j ≠ s := by
  intro h
  have := probe_injOn hn hd hjn hn.pos (h.trans (probe_zero n d s).symm)
  omega

/-- Every slot is met within one round. -/
theorem probe_surj (hn : n.Prime) (hd : 0 < d ∧ d < n) (hs : 1 ≤ s ∧ s ≤ n) {i : Nat}
    (hi : 1 ≤ i ∧ i ≤ n) : ∃ j < n, probe n d s j = i := by
  have hmaps : Set.MapsTo (probe n d s) (range n : Set Nat) (Finset.Icc 1 n : Set Nat) := by
    intro j _
    exact mem_coe.mpr (mem_Icc.mpr (probe_mem hd hs j))
  have hinj : Set.InjOn (probe n d s) (range n : Set Nat) := by
    intro j hj k hk h
    exact probe_injOn hn hd (mem_range.mp hj) (mem_range.mp hk) h
  have hcard : (Finset.Icc 1 n).card ≤ (range n).card := by
    rw [Nat.card_Icc, card_range]
    omega
  obtain ⟨j, hj, hji⟩ :=
    surjOn_of_injOn_of_card_le (probe n d s) hmaps hinj hcard (mem_coe.mpr (mem_Icc.mpr hi))
  exact ⟨j, mem_range.mp (mem_coe.mp hj), hji⟩

end Prime

end Armada3720.Lib
