import Armada3720.Lib.PageWalk

/-!
# 64-bit descriptors with a 4 KiB granule

The words of a page table with 4 KiB pages and 512 words to a table. Bits 1:0 give the type, bits 47:12 an
address, the rest attributes. A descriptor is built by or-ing an aligned address with a word that has no address
bits.
-/

namespace Armada3720.Lib

/-- The address bits, 47:12. -/
def addrMask : BitVec 64 := 0x0000FFFFFFFFF000#64

/-- The type bits, 1:0. -/
def typeMask : BitVec 64 := 3#64

def attrMask : BitVec 64 := 0xFFFF000000000FFC#64

def descAddr (w : BitVec 64) : Nat := (w &&& addrMask).toNat

def descAttrs (w : BitVec 64) : BitVec 64 := w &&& attrMask

/-- Type 3 is a page at the bottom and a table above, type 1 a block of 2 MiB or 1 GiB. -/
def descKind (h : Nat) (w : BitVec 64) : Kind Nat :=
  if w &&& typeMask = 3#64 then
    if h = 0 then .leaf else .table (descAddr w)
  else if w &&& typeMask = 1#64 ∧ (h = 1 ∨ h = 2) then .leaf
  else .invalid

/-- Tables of 64-bit descriptors, named by their addresses. -/
def longFormat : PageFormat Nat (BitVec 64) where
  page := 4096
  fan := 512
  page_pos := by decide
  fan_pos := by decide
  kind := descKind
  kind_zero := by
    intro w t
    unfold descKind
    split <;> simp

/-- The address that a leaf found at height `h` gives to `va`. -/
def outAddr (h : Nat) (w : BitVec 64) (va : Nat) : Nat :=
  descAddr w / longFormat.size h * longFormat.size h + va % longFormat.size h

theorem size_eq (h : Nat) : longFormat.size h = 2 ^ (12 + 9 * h) := by
  rw [pow_add, pow_mul]
  rfl

theorem size_4k : longFormat.size 0 = 4096 := by rw [size_eq]; norm_num

theorem mul_size_mod (e h : Nat) : e * longFormat.size h % 4096 = 0 := by
  rw [show longFormat.size h = 4096 * 512 ^ h from rfl, Nat.mul_left_comm, Nat.mul_mod_right]

theorem outAddr_of_dvd {h va e : Nat} {w : BitVec 64} (hw : descAddr w = e * longFormat.size h) :
    outAddr h w va = e * longFormat.size h + va % longFormat.size h := by
  rw [outAddr, hw, Nat.mul_div_cancel _ (longFormat.size_pos h)]

/-! ## Reading the type -/

section Kind

variable {h : Nat} {w : BitVec 64}

theorem kind_of_fault (hw : w &&& typeMask = 0#64) : longFormat.kind h w = .invalid := by
  show descKind h w = _
  rw [descKind, if_neg (by rw [hw]; decide), if_neg (fun hc => absurd (hw.symm.trans hc.1) (by decide))]

theorem kind_of_page (hw : w &&& typeMask = 3#64) : longFormat.kind 0 w = .leaf := by
  show descKind 0 w = _
  rw [descKind, if_pos hw, if_pos rfl]

theorem kind_of_block (hw : w &&& typeMask = 1#64) (hh : h = 1 ∨ h = 2) :
    longFormat.kind h w = .leaf := by
  show descKind h w = _
  rw [descKind, if_neg (by rw [hw]; decide), if_pos ⟨hw, hh⟩]

theorem kind_eq_table {t : Nat} : longFormat.kind (h + 1) w = .table t ↔
    w &&& typeMask = 3#64 ∧ descAddr w = t := by
  show descKind (h + 1) w = _ ↔ _
  unfold descKind
  split
  · next hw => simp [hw]
  · next hw =>
    split <;> simp [hw]

end Kind

/-! ## Building descriptors -/

/-- An address that fits the address bits. -/
def Fits (a : Nat) : Prop := a % 4096 = 0 ∧ a < 2 ^ 48

instance (a : Nat) : Decidable (Fits a) := inferInstanceAs (Decidable (_ ∧ _))

theorem addrMask_getLsbD (i : Fin 64) : addrMask.getLsbD i = decide (12 ≤ i.val ∧ i.val < 48) := by
  revert i
  decide

theorem ofNat_and_addrMask {a : Nat} (ha : Fits a) :
    BitVec.ofNat 64 a &&& addrMask = BitVec.ofNat 64 a := by
  obtain ⟨hmod, hlt⟩ := ha
  refine BitVec.eq_of_getLsbD_eq fun i hi => ?_
  rw [BitVec.getLsbD_and, BitVec.getLsbD_ofNat, decide_eq_true hi, Bool.true_and, addrMask_getLsbD ⟨i, hi⟩]
  rcases Nat.lt_or_ge i 12 with h12 | h12
  · have hb := Nat.testBit_mod_two_pow a 12 i
    rw [show (2 : Nat) ^ 12 = 4096 from rfl, hmod, Nat.zero_testBit, decide_eq_true h12, Bool.true_and] at hb
    rw [← hb, Bool.false_and]
  · rcases Nat.lt_or_ge i 48 with h48 | h48
    · rw [decide_eq_true ⟨h12, h48⟩, Bool.and_true]
    · have hb : a.testBit i = false :=
        Nat.testBit_lt_two_pow (hlt.trans_le (Nat.pow_le_pow_right (by decide) h48))
      rw [hb, Bool.false_and]

theorem ofNat_and_of_disjoint {a : Nat} (ha : Fits a) {m : BitVec 64} (hm : addrMask &&& m = 0#64) :
    BitVec.ofNat 64 a &&& m = 0#64 := by
  rw [← ofNat_and_addrMask ha, BitVec.and_assoc, hm, BitVec.and_zero]

section Or

variable {a : Nat} {low : BitVec 64}

theorem descAddr_or (ha : Fits a) (hlow : low &&& addrMask = 0#64) :
    descAddr (BitVec.ofNat 64 a ||| low) = a := by
  rw [descAddr, BitVec.and_or_distrib_right, hlow, BitVec.or_zero, ofNat_and_addrMask ha,
    BitVec.toNat_ofNat, Nat.mod_eq_of_lt (ha.2.trans (by decide))]

theorem type_or (ha : Fits a) : (BitVec.ofNat 64 a ||| low) &&& typeMask = low &&& typeMask := by
  rw [BitVec.and_or_distrib_right, ofNat_and_of_disjoint ha (by decide), BitVec.zero_or]

theorem descAttrs_or (ha : Fits a) : descAttrs (BitVec.ofNat 64 a ||| low) = low &&& attrMask := by
  rw [descAttrs, BitVec.and_or_distrib_right, ofNat_and_of_disjoint ha (by decide), BitVec.zero_or]

end Or

theorem ofNat_shiftLeft (i s : Nat) : BitVec.ofNat 64 i <<< s = BitVec.ofNat 64 (i * 2 ^ s) := by
  apply BitVec.eq_of_toNat_eq
  rw [BitVec.toNat_shiftLeft, BitVec.toNat_ofNat, BitVec.toNat_ofNat, Nat.shiftLeft_eq, Nat.mod_mul_mod]

theorem ofNat_or_offset {p x s : Nat} (hx : x < 2 ^ s) :
    BitVec.ofNat 64 (p * 2 ^ s) ||| BitVec.ofNat 64 x = BitVec.ofNat 64 (p * 2 ^ s + x) := by
  rw [← BitVec.ofNat_or, Nat.mul_comm, Nat.two_pow_add_eq_or_of_lt hx]

end Armada3720.Lib
