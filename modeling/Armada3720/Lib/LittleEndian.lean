import Mathlib

/-!
# Little-endian fields

A number in a given number of bytes, low byte first, and a record as such fields one behind the other.
-/

namespace Armada3720.Lib

/-- The low `w` bytes of `n`, low byte first. -/
def toLe : Nat → Nat → List UInt8
  | 0, _ => []
  | w + 1, n => UInt8.ofNat n :: toLe w (n / 256)

/-- The number with these bytes. -/
def ofLe : List UInt8 → Nat
  | [] => 0
  | b :: bytes => b.toNat + 256 * ofLe bytes

/-- The field of `w` bytes at `off`. -/
def leField (bytes : List UInt8) (off w : Nat) : Nat := ofLe ((bytes.drop off).take w)

@[simp]
theorem length_toLe (w n : Nat) : (toLe w n).length = w := by
  induction w generalizing n with
  | zero => rfl
  | succ w ih => rw [toLe, List.length_cons, ih]

theorem ofLe_toLe (w n : Nat) : ofLe (toLe w n) = n % 256 ^ w := by
  induction w generalizing n with
  | zero => rw [Nat.pow_zero, Nat.mod_one]; rfl
  | succ w ih =>
    have hpow : 256 ^ (w + 1) = 256 * 256 ^ w := Nat.pow_succ'
    rw [toLe, ofLe, ih, UInt8.toNat_ofNat', hpow, Nat.mod_mul]

theorem leField_toLe (w n : Nat) (rest : List UInt8) : leField (toLe w n ++ rest) 0 w = n % 256 ^ w := by
  rw [leField, List.drop_zero, List.take_left' (length_toLe w n), ofLe_toLe]

theorem leField_append (bytes rest : List UInt8) {off w : Nat} (h : bytes.length ≤ off) :
    leField (bytes ++ rest) off w = leField rest (off - bytes.length) w := by
  rw [leField, List.drop_append, List.drop_eq_nil_of_le h, List.nil_append, leField]

theorem leField_toLe_append (w n : Nat) (rest : List UInt8) {off w' : Nat} (h : w ≤ off) :
    leField (toLe w n ++ rest) off w' = leField rest (off - w) w' := by
  rw [leField_append _ _ (by simpa using h), length_toLe]

end Armada3720.Lib
