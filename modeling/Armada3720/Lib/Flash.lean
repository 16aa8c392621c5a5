import Mathlib

/-!
# NOR flash

Erasing sets bytes to `0xFF`; programming can only clear bits. An operation that is cut by a power failure
leaves the bytes outside its range alone; inside, an erase leaves anything, a program has cleared some of its
bits.
-/

namespace Armada3720.Lib

abbrev Flash := Nat → UInt8

def Flash.read (f : Flash) (off len : Nat) : List UInt8 :=
  (List.range len).map fun i => f (off + i)

inductive FlashOp
  | erase (off len : Nat)
  | program (off : Nat) (bytes : List UInt8)

/-- The addresses that the operation may change. -/
def FlashOp.Covers (a : Nat) : FlashOp → Prop
  | .erase off len => off ≤ a ∧ a < off + len
  | .program off bytes => off ≤ a ∧ a < off + bytes.length

/-- The flash after the whole operation. -/
def FlashOp.apply (f : Flash) : FlashOp → Flash
  | .erase off len => fun a => if off ≤ a ∧ a < off + len then 0xFF else f a
  | .program off bytes => fun a =>
    if off ≤ a ∧ a < off + bytes.length then f a &&& bytes.getD (a - off) 0xFF else f a

def FlashOp.Cut (f f' : Flash) (op : FlashOp) : Prop :=
  (∀ a, ¬ op.Covers a → f' a = f a) ∧
    match op with
    | .erase _ _ => True
    | .program off bytes => ∀ a, op.Covers a →
        f' a &&& f a = f' a ∧ (f a &&& bytes.getD (a - off) 0xFF) &&& f' a =
          f a &&& bytes.getD (a - off) 0xFF

def applyOps (ops : List FlashOp) (f : Flash) : Flash := ops.foldl FlashOp.apply f

/-- Power is cut during one of the operations, those before it being done. -/
inductive CutDuring : List FlashOp → Flash → Flash → Prop
  | now {op : FlashOp} {ops : List FlashOp} {f f' : Flash} : op.Cut f f' → CutDuring (op :: ops) f f'
  | later {op : FlashOp} {ops : List FlashOp} {f f' : Flash} :
      CutDuring ops (op.apply f) f' → CutDuring (op :: ops) f f'

variable {a : Nat} {ops : List FlashOp} {f f' : Flash}

theorem FlashOp.apply_of_not_covers {op : FlashOp} (h : ¬ op.Covers a) (f : Flash) :
    op.apply f a = f a := by
  cases op with
  | erase off len => exact if_neg h
  | program off bytes => exact if_neg h

theorem applyOps_of_not_covers (h : ∀ op ∈ ops, ¬ op.Covers a) (f : Flash) :
    applyOps ops f a = f a := by
  induction ops generalizing f with
  | nil => rfl
  | cons op ops ih =>
    have hstep := ih (fun o ho => h o (List.mem_cons_of_mem op ho)) (op.apply f)
    rw [FlashOp.apply_of_not_covers (h op List.mem_cons_self)] at hstep
    exact hstep

/-- What no operation covers is unchanged wherever power was cut. -/
theorem CutDuring.of_not_covers (hcut : CutDuring ops f f') (h : ∀ op ∈ ops, ¬ op.Covers a) :
    f' a = f a := by
  induction hcut with
  | now hop => exact hop.1 a (h _ List.mem_cons_self)
  | later _ ih =>
    rw [ih fun o ho => h o (List.mem_cons_of_mem _ ho), FlashOp.apply_of_not_covers (h _ List.mem_cons_self)]

theorem CutDuring.of_append {op : FlashOp} (hcut : CutDuring (ops ++ [op]) f f') :
    CutDuring ops f f' ∨ op.Cut (applyOps ops f) f' := by
  induction ops generalizing f with
  | nil =>
    cases hcut with
    | now h => exact Or.inr h
    | later h => cases h
  | cons o ops ih =>
    cases hcut with
    | now h => exact Or.inl (.now h)
    | later h => exact (ih h).imp_left .later

theorem Flash.read_congr {off len : Nat} (h : ∀ a, off ≤ a → a < off + len → f a = f' a) :
    f.read off len = f'.read off len := by
  refine List.map_congr_left fun i hi => h _ (Nat.le_add_right _ _) ?_
  have := List.mem_range.mp hi
  omega

theorem Flash.read_succ (f : Flash) (off len : Nat) :
    f.read off (len + 1) = f off :: f.read (off + 1) len := by
  simp only [Flash.read, List.range_succ_eq_map, List.map_cons, List.map_map, Nat.add_zero]
  refine congrArg _ (List.map_congr_left fun i _ => ?_)
  rw [Function.comp_apply, Nat.succ_eq_add_one, Nat.add_assoc, Nat.add_comm 1 i]

theorem Flash.length_read (f : Flash) (off len : Nat) : (f.read off len).length = len := by
  rw [Flash.read, List.length_map, List.length_range]

theorem read_program_erase (f : Flash) {off len : Nat} {bytes : List UInt8} (h : bytes.length ≤ len) :
    Flash.read (FlashOp.apply (FlashOp.apply f (.erase off len)) (.program off bytes)) off
      bytes.length = bytes := by
  refine List.ext_getElem (Flash.length_read _ _ _) fun i h1 h2 => ?_
  simp only [Flash.read, List.getElem_map, List.getElem_range, FlashOp.apply]
  rw [if_pos (by omega), if_pos (by omega), Nat.add_sub_cancel_left, List.getD_eq_getElem _ _ h2]
  exact UInt8.neg_one_and

/-- Power may be cut before anything has changed. -/
theorem FlashOp.cut_self (op : FlashOp) (f : Flash) : op.Cut f f := by
  refine ⟨fun _ _ => rfl, ?_⟩
  cases op with
  | erase off len => trivial
  | program off bytes =>
    intro a _
    refine ⟨UInt8.and_self, ?_⟩
    rw [UInt8.and_comm, ← UInt8.and_assoc, UInt8.and_self]

theorem Flash.read_erase {off len n : Nat} (hn : n ≤ len) (f : Flash) :
    ((FlashOp.erase off len).apply f).read off n = List.replicate n 0xFF := by
  rw [Flash.read, List.eq_replicate_iff]
  refine ⟨by simp, fun b hb => ?_⟩
  obtain ⟨i, hi, rfl⟩ := List.mem_map.mp hb
  exact if_pos ⟨Nat.le_add_right _ _, Nat.add_lt_add_left (by have := List.mem_range.mp hi; omega) _⟩

end Armada3720.Lib
