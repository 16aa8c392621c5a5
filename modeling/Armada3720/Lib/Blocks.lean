import Mathlib.Data.List.Basic
import Mathlib.Tactic.ByContra

/-!
# A file in blocks

Blocks of one size, counted from 1; the first block that is not full, which may be empty, is the last one.
-/

namespace Armada3720.Lib.Blocks

variable {α : Type*} {file : List α} {bs i : Nat}

def block (file : List α) (bs i : Nat) : List α := (file.drop ((i - 1) * bs)).take bs

def count (file : List α) (bs : Nat) : Nat := file.length / bs + 1

theorem length_block : (block file bs i).length = min bs (file.length - (i - 1) * bs) := by
  simp [block]

theorem mul_le_length (hi : i ≤ count file bs) : (i - 1) * bs ≤ file.length := by
  have hle : i - 1 ≤ file.length / bs := Nat.sub_le_of_le_add hi
  exact Nat.le_trans (Nat.mul_le_mul_right _ hle) (Nat.div_mul_le_self _ _)

theorem length_lt_mul (file : List α) (hbs : 0 < bs) : file.length < count file bs * bs := by
  rw [count, Nat.add_mul, Nat.one_mul, Nat.mul_comm]
  exact Nat.lt_mul_div_succ _ hbs

theorem mul_eq (bs : Nat) (hi : 1 ≤ i) : i * bs = (i - 1) * bs + bs := by
  rw [← Nat.succ_mul, Nat.succ_eq_add_one, Nat.sub_add_cancel hi]

theorem length_block_lt_iff (hbs : 0 < bs) (hi1 : 1 ≤ i) (hi : i ≤ count file bs) :
    (block file bs i).length < bs ↔ i = count file bs := by
  have hlt := length_lt_mul file hbs
  have hmul := mul_eq bs hi1
  rw [length_block]
  constructor
  · intro hshort
    by_contra hne
    have h := mul_le_length (show i + 1 ≤ count file bs by omega)
    rw [Nat.add_sub_cancel] at h
    omega
  · rintro rfl
    omega

theorem flatten_take (file : List α) (bs n : Nat) :
    ((List.range n).map fun j => block file bs (j + 1)).flatten = file.take (n * bs) := by
  induction n with
  | zero => simp
  | succ n ih =>
    rw [List.range_succ, List.map_append, List.flatten_append, ih, List.map_singleton,
      List.flatten_singleton, block, Nat.add_sub_cancel, Nat.succ_mul, List.take_add]

theorem flatten_blocks (hbs : 0 < bs) :
    ((List.range (count file bs)).map fun j => block file bs (j + 1)).flatten = file := by
  rw [flatten_take]
  exact List.take_of_length_le (Nat.le_of_lt (length_lt_mul file hbs))

end Armada3720.Lib.Blocks
