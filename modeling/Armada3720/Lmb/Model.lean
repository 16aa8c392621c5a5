import Armada3720.Lib.RegionTable

/-!
# Logical memory blocks

`lib/lmb.c`. A function that would run past the end of `region[]` gives nothing. The field `size` of `struct
lmb_region` is never read.
-/

namespace Armada3720.Lmb

open Lib

def maxLmbRegions : Nat := 8

structure LmbProperty where
  base : Nat
  size : Nat
  deriving DecidableEq, Repr

/-- `struct lmb_region`: the first `cnt` of the slots are in use. -/
structure LmbRegion where
  cnt : Nat
  region : Nat → LmbProperty

/-- `struct lmb`. -/
structure LmbState where
  memory : LmbRegion
  reserved : LmbRegion

/-- The sum of two values of type `phys_addr_t`. -/
def addrAdd (a b : Nat) : Nat := (a + b) % 2 ^ 64

def addrSub (a b : Nat) : Nat := (a + (2 ^ 64 - b)) % 2 ^ 64

def lmbAddrsOverlap (base1 size1 base2 size2 : Nat) : Bool :=
  base1 < addrAdd base2 size2 ∧ base2 < addrAdd base1 size1

def lmbAddrsAdjacent (base1 size1 base2 size2 : Nat) : Int :=
  if base2 = addrAdd base1 size1 then 1 else if base1 = addrAdd base2 size2 then -1 else 0

def lmbRegionsAdjacent (rgn : LmbRegion) (r1 r2 : Nat) : Int :=
  lmbAddrsAdjacent (rgn.region r1).base (rgn.region r1).size (rgn.region r2).base (rgn.region r2).size

def LmbRegion.set (rgn : LmbRegion) (i : Nat) (p : LmbProperty) : LmbRegion :=
  { rgn with region := Function.update rgn.region i p }

/-- `rgn->cnt - 1`, of an unsigned type. -/
def LmbRegion.last (rgn : LmbRegion) : Nat := (rgn.cnt + (2 ^ 64 - 1)) % 2 ^ 64

/-- The loop of `lmb_remove_region`, for `n` more rounds. -/
def removeLoop : Nat → Nat → (Nat → LmbProperty) → Nat → LmbProperty
  | 0, _, region => region
  | n + 1, i, region => removeLoop n (i + 1) (Function.update region i (region (i + 1)))

/-- `lmb_remove_region`. In an empty table the bound of the loop is the largest `unsigned long`. -/
def lmbRemoveRegion (rgn : LmbRegion) (r : Nat) : Option LmbRegion :=
  if rgn.cnt = 0 then none
  else some { cnt := rgn.cnt - 1, region := removeLoop (rgn.cnt - 1 - r) r rgn.region }

def lmbCoalesceRegions (rgn : LmbRegion) (r1 r2 : Nat) : Option LmbRegion :=
  lmbRemoveRegion (rgn.set r1 { rgn.region r1 with size := addrAdd (rgn.region r1).size (rgn.region r2).size }) r2

def initRegion (rgn : LmbRegion) : LmbRegion := { rgn.set 0 ⟨0, 0⟩ with cnt := 1 }

def lmbInit (lmb : LmbState) : LmbState :=
  { memory := initRegion lmb.memory, reserved := initRegion lmb.reserved }

/-! ## `lmb_add_region` -/

/-- The loop that looks for a region to coalesce with stops at this one. -/
def meets (base size : Nat) (p : LmbProperty) : Bool :=
  p = ⟨base, size⟩ ∨ lmbAddrsAdjacent base size p.base p.size ≠ 0

/-- Region `i` and the next are made one if they touch. -/
def joinNext (rgn : LmbRegion) (i coalesced : Nat) : Option (LmbRegion × Nat) :=
  if i < rgn.last ∧ lmbRegionsAdjacent rgn i (i + 1) ≠ 0 then
    (lmbCoalesceRegions rgn i (i + 1)).map fun rgn => (rgn, coalesced + 1)
  else some (rgn, coalesced)

/-- The loop that moves the regions behind the new one, from slot `n - 1` down. -/
def insertLoop (base size : Nat) : Nat → (Nat → LmbProperty) → Nat → LmbProperty
  | 0, region => region
  | n + 1, region =>
    if base < (region n).base then
      insertLoop base size n (Function.update region (n + 1) (region n))
    else Function.update region (n + 1) ⟨base, size⟩

/-- The new region goes into the sorted table. -/
def insertRegion (rgn : LmbRegion) (base size : Nat) : LmbRegion :=
  let region := insertLoop base size rgn.cnt rgn.region
  { cnt := rgn.cnt + 1
    region := if base < (region 0).base then Function.update region 0 ⟨base, size⟩ else region }

/-- `lmb_add_region`: the table, and the return value. -/
def lmbAddRegion (rgn : LmbRegion) (base size : Nat) : Option (LmbRegion × Int) :=
  if rgn.cnt = 1 ∧ (rgn.region 0).size = 0 then some (rgn.set 0 ⟨base, size⟩, 0)
  else
    match (List.range rgn.cnt).find? fun i => meets base size (rgn.region i) with
    | some i =>
      let p := rgn.region i
      if p = ⟨base, size⟩ then some (rgn, 0)
      else if lmbAddrsAdjacent base size p.base p.size > 0 then
        (joinNext (rgn.set i ⟨addrSub p.base size, addrAdd p.size size⟩) i 1).map fun q => (q.1, q.2)
      else (joinNext (rgn.set i ⟨p.base, addrAdd p.size size⟩) i 1).map fun q => (q.1, q.2)
    | none =>
      (joinNext rgn rgn.cnt 0).map fun q =>
        if q.2 ≠ 0 then (q.1, q.2)
        else if q.1.cnt ≥ maxLmbRegions then (q.1, -1)
        else (insertRegion q.1 base size, 0)

def lmbAdd (lmb : LmbState) (base size : Nat) : Option (LmbState × Int) :=
  (lmbAddRegion lmb.memory base size).map fun q => ({ lmb with memory := q.1 }, q.2)

def lmbReserve (lmb : LmbState) (base size : Nat) : Option (LmbState × Int) :=
  (lmbAddRegion lmb.reserved base size).map fun q => ({ lmb with reserved := q.1 }, q.2)

/-! ## `lmb_free` and `lmb_is_reserved` -/

/-- `lmb_free` on the table of reserved regions. -/
def freeRegion (rgn : LmbRegion) (base size : Nat) : Option (LmbRegion × Int) :=
  let stop := addrAdd base size
  match (List.range rgn.cnt).find? fun i =>
    (rgn.region i).base ≤ base ∧ stop ≤ addrAdd (rgn.region i).base (rgn.region i).size with
  | none => some (rgn, -1)
  | some i =>
    let rgnbegin := (rgn.region i).base
    let rgnend := addrAdd rgnbegin (rgn.region i).size
    if rgnbegin = base ∧ rgnend = stop then (lmbRemoveRegion rgn i).map fun rgn => (rgn, 0)
    else if rgnbegin = base then some (rgn.set i ⟨stop, addrSub (rgn.region i).size size⟩, 0)
    else if rgnend = stop then
      some (rgn.set i ⟨rgnbegin, addrSub (rgn.region i).size size⟩, 0)
    else lmbAddRegion (rgn.set i ⟨rgnbegin, addrSub base rgnbegin⟩) stop (addrSub rgnend stop)

def lmbFree (lmb : LmbState) (base size : Nat) : Option (LmbState × Int) :=
  (freeRegion lmb.reserved base size).map fun q => ({ lmb with reserved := q.1 }, q.2)

def lmbIsReserved (lmb : LmbState) (addr : Nat) : Bool :=
  (List.range lmb.reserved.cnt).any fun i =>
    let p := lmb.reserved.region i
    addr ≥ p.base ∧ addr ≤ addrSub (addrAdd p.base p.size) 1

/-! ## `lmb_alloc` -/

/-- `lmb_overlaps_region`; nothing stands for -1. -/
def lmbOverlapsRegion (rgn : LmbRegion) (base size : Nat) : Option Nat :=
  (List.range rgn.cnt).find? fun i =>
    lmbAddrsOverlap base size (rgn.region i).base (rgn.region i).size

/-- The complement of a 64-bit value. -/
def addrNot (a : Nat) : Nat := 2 ^ 64 - 1 - a

def lmbAlignDown (addr size : Nat) : Nat := addr &&& addrNot (addrSub size 1)

def lmbAlignUp (addr size : Nat) : Nat := addrAdd addr (addrSub size 1) &&& addrNot (addrSub size 1)

/-- Where the search in the memory region `p` begins, if the region is looked at. -/
def firstBase (p : LmbProperty) (size align maxAddr : Nat) : Option Nat :=
  if p.size < size then none
  else if maxAddr = 0 then some (lmbAlignDown (addrSub (addrAdd p.base p.size) size) align)
  else if p.base < maxAddr then
    let base := addrAdd p.base p.size
    let base := if base < p.base then 2 ^ 64 - 1 else base
    some (lmbAlignDown (addrSub (min base maxAddr) size) align)
  else none

/-- The `while` loop of `__lmb_alloc_base`: the place it takes, if it takes one. -/
def placeLoop (rgn : LmbRegion) (lmbbase size align : Nat) : Nat → Nat → Option (Option Nat)
  | 0, _ => none
  | fuel + 1, base =>
    if base ≠ 0 ∧ lmbbase ≤ base then
      match lmbOverlapsRegion rgn base size with
      | none => some (some base)
      | some j =>
        if (rgn.region j).base < size then some none
        else placeLoop rgn lmbbase size align fuel (lmbAlignDown (addrSub (rgn.region j).base size) align)
    else some none

/-- The loop over the memory regions below slot `n`. Each round of the inner loop passes a reserved region. -/
def memoryLoop (lmb : LmbState) (size align maxAddr : Nat) : Nat → Option (Option Nat)
  | 0 => some none
  | i + 1 =>
    match firstBase (lmb.memory.region i) size align maxAddr with
    | none => memoryLoop lmb size align maxAddr i
    | some base =>
      match placeLoop lmb.reserved (lmb.memory.region i).base size align (lmb.reserved.cnt + 1) base with
      | none => none
      | some (some base) => some (some base)
      | some none => memoryLoop lmb size align maxAddr i

/-- `lmb_alloc_base`, which is `__lmb_alloc_base` with a message: the address, 0 on failure. -/
def lmbAllocBase (lmb : LmbState) (size align maxAddr : Nat) : Option (LmbState × Nat) :=
  match memoryLoop lmb size align maxAddr lmb.memory.cnt with
  | none => none
  | some none => some (lmb, 0)
  | some (some base) =>
    (lmbAddRegion lmb.reserved base (lmbAlignUp size align)).map fun q =>
      ({ lmb with reserved := q.1 }, if q.2 < 0 then 0 else base)

end Armada3720.Lmb
