import Armada3720.Lib.LongDescriptor

/-!
# The page tables of U-Boot

`arch/arm/cpu/armv8/cache_v8.c`: the tables that `setup_pgtables` builds from `mem_map`. A pointer to an entry
is the address of its table and its index. A loop that is not through within its fuel ends with `outOfFuel`.
-/

namespace Armada3720.UBootMmu

open Lib

/-! ## `asm/armv8/mmu.h` -/

def pteTypeMask : BitVec 64 := 3#64
def pteTypeFault : BitVec 64 := 0#64
def pteTypeTable : BitVec 64 := 3#64
def pteTypePage : BitVec 64 := 3#64
def pteTypeBlock : BitVec 64 := 1#64
def pteBlockAf : BitVec 64 := 1#64 <<< 10

def pteBlockMemtype (x : Nat) : BitVec 64 := BitVec.ofNat 64 x <<< 2
def pteBlockInnerShare : BitVec 64 := 3#64 <<< 8
def mtNormal : Nat := 4
def mtDeviceNgnrne : Nat := 0

/-- `1 << 31` is a negative `int`: or-ed into a `u64` its sign fills the upper half. -/
def tcrEl1Rsvd : BitVec 64 := (1#32 <<< 31).signExtend 64
def tcrEl2Rsvd : BitVec 64 := (1#32 <<< 31 ||| 1#32 <<< 23).signExtend 64
def tcrEl3Rsvd : BitVec 64 := (1#32 <<< 31 ||| 1#32 <<< 23).signExtend 64
def tcrEpd1Disable : BitVec 64 := 1#64 <<< 23
def tcrT0sz (x : Nat) : BitVec 64 := BitVec.ofNat 64 (64 - x)
def tcrTg04k : BitVec 64 := 0#64
def tcrSharedInner : BitVec 64 := 3#64 <<< 12
def tcrOrgnWbwa : BitVec 64 := 1#64 <<< 10
def tcrIrgnWbwa : BitVec 64 := 1#64 <<< 8

structure MmRegion where
  virt : Nat
  phys : Nat
  size : Nat
  attrs : BitVec 64
  deriving DecidableEq, Repr

/-- Those before the first one whose size and attributes are zero. -/
def regions (memMap : List MmRegion) : List MmRegion :=
  memMap.takeWhile fun r => r.size ≠ 0 ∨ r.attrs ≠ 0#64

/-- The page-table part of `gd->arch`, and the memory of the tables. -/
structure Arch where
  tlbAddr : Nat
  tlbSize : Nat
  tlbFillptr : Nat
  mem : Nat → Nat → BitVec 64

/-- Why a computation stops. -/
inductive Stop
  /-- "Insufficient RAM for page table: used > size." -/
  | insufficientRam (used size : Nat)
  /-- "pte not found" -/
  | pteNotFound
  /-- "PTE is not a block." -/
  | notABlock (oldPte : BitVec 64)
  /-- "Page table pointer not setup." -/
  | pointerNotSetup
  /-- The model's loop bound is used up. -/
  | outOfFuel
  deriving DecidableEq, Repr

/-! ## `get_tcr` -/

structure Tcr where
  tcr : BitVec 64
  ips : Nat
  vaBits : Nat

/-- The largest address to be supported. -/
def maxAddr (memMap : List MmRegion) : Nat :=
  (regions memMap).foldl (fun a r => max a (r.virt + r.size)) 0

/-- `ips` and `va_bits` for the largest address. -/
def addrBits (maxAddr : Nat) : Nat × Nat :=
  if maxAddr > 2 ^ 44 then (5, 48)
  else if maxAddr > 2 ^ 42 then (4, 44)
  else if maxAddr > 2 ^ 40 then (3, 42)
  else if maxAddr > 2 ^ 36 then (2, 40)
  else if maxAddr > 2 ^ 32 then (1, 36)
  else (0, 32)

def getTcr (memMap : List MmRegion) (el : Nat) : Tcr :=
  let (ips, vaBits) := addrBits (maxAddr memMap)
  let base :=
    if el = 1 then tcrEl1Rsvd ||| (BitVec.ofNat 64 ips <<< 32) ||| tcrEpd1Disable
    else if el = 2 then tcrEl2Rsvd ||| (BitVec.ofNat 64 ips <<< 16)
    else tcrEl3Rsvd ||| (BitVec.ofNat 64 ips <<< 16)
  { tcr := base ||| tcrTg04k ||| tcrSharedInner ||| tcrOrgnWbwa ||| tcrIrgnWbwa ||| tcrT0sz vaBits
    ips := ips
    vaBits := vaBits }

/-! ## Entries -/

def pteType (w : BitVec 64) : BitVec 64 := w &&& pteTypeMask

def level2shift (level : Nat) : Nat := 12 + 9 * (3 - level)

/-- The level of the table at `tlb_addr`. -/
def startLevel (memMap : List MmRegion) : Nat :=
  if (getTcr memMap 0).vaBits < 39 then 1 else 0

/-- The loop of `find_pte`, at level `i` with `n` levels to go. -/
def findPteLoop (mem : Nat → Nat → BitVec 64) (addr level : Nat) :
    Nat → Nat → Nat → Option (Nat × Nat)
  | 0, _, _ => none
  | n + 1, i, table =>
    let idx := addr / 2 ^ level2shift i % 512
    if i = level then some (table, idx)
    else if pteType (mem table idx) ≠ pteTypeTable then none
    else findPteLoop mem addr level n (i + 1) (mem table idx &&& 0x0000fffffffff000#64).toNat

def findPte (memMap : List MmRegion) (a : Arch) (addr level : Nat) : Option (Nat × Nat) :=
  if level < startLevel memMap then none
  else findPteLoop a.mem addr level (4 - startLevel memMap) (startLevel memMap) a.tlbAddr

def createTable (a : Arch) : Except Stop (Nat × Arch) :=
  let newTable := a.tlbFillptr
  let fillptr := a.tlbFillptr + 512 * 8
  if fillptr - a.tlbAddr > a.tlbSize then
    .error (.insufficientRam (fillptr - a.tlbAddr) a.tlbSize)
  else
    .ok (newTable, { a with tlbFillptr := fillptr, mem := PageFormat.fillTable a.mem newTable fun _ => 0#64 })

def Arch.setPte (a : Arch) (pte : Nat × Nat) (w : BitVec 64) : Arch :=
  { a with mem := PageFormat.setEntry a.mem pte.1 pte.2 w }

def setPteTable (a : Arch) (pte : Nat × Nat) (table : Nat) : Arch :=
  a.setPte pte (pteTypeTable ||| BitVec.ofNat 64 table)

/-- The entries that `split_block` puts in place of a block of `level`. -/
def splitEntry (oldPte : BitVec 64) (level i : Nat) : BitVec 64 :=
  let w := oldPte ||| (BitVec.ofNat 64 i <<< level2shift (level + 1))
  if level + 1 = 3 then w ||| pteTypeTable else w

def splitBlock (a : Arch) (pte : Nat × Nat) (level : Nat) : Except Stop Arch := do
  let oldPte := a.mem pte.1 pte.2
  if pteType oldPte ≠ pteTypeBlock then .error (.notABlock oldPte)
  else
    let (newTable, a) ← createTable a
    let a := { a with mem := PageFormat.fillTable a.mem newTable (splitEntry oldPte level) }
    .ok (setPteTable a pte newTable)

/-! ## `add_map` -/

/-- What is left of the region: the locals `virt`, `phys` and `size`. -/
structure Left where
  virt : Nat
  phys : Nat
  size : Nat
  deriving DecidableEq, Repr

/-- The `for` loop over the levels, at `level` with `n` levels to go. -/
def addMapLevels (memMap : List MmRegion) (attrs : BitVec 64) :
    Nat → Nat → Left → Arch → Except Stop (Left × Arch)
  | 0, _, c, a => .ok (c, a)
  | n + 1, level, c, a =>
    match findPte memMap a c.virt level with
    | none => .error .pteNotFound
    | some pte =>
      let blocksize := 2 ^ level2shift level
      if blocksize ≤ c.size ∧ c.virt % blocksize = 0 then
        let w := BitVec.ofNat 64 c.phys ||| attrs
        .ok ({ virt := c.virt + blocksize, phys := c.phys + blocksize, size := c.size - blocksize },
          a.setPte pte (if level = 3 then w ||| pteTypePage else w))
      else if pteType (a.mem pte.1 pte.2) = pteTypeFault then do
        let (newTable, a) ← createTable a
        addMapLevels memMap attrs n (level + 1) c (setPteTable a pte newTable)
      else if pteType (a.mem pte.1 pte.2) = pteTypeBlock then do
        let a ← splitBlock a pte level
        addMapLevels memMap attrs n (level + 1) c a
      else addMapLevels memMap attrs n (level + 1) c a

/-- The first statement of the `while` loop: the table below a level 0 entry. -/
def addMapLevel0 (memMap : List MmRegion) (c : Left) (a : Arch) : Except Stop Arch :=
  match findPte memMap a c.virt 0 with
  | none => .ok a
  | some pte =>
    if pteType (a.mem pte.1 pte.2) = pteTypeFault then do
      let (newTable, a) ← createTable a
      .ok (setPteTable a pte newTable)
    else .ok a

def addMapLoop (memMap : List MmRegion) (attrs : BitVec 64) :
    Nat → Left → Arch → Except Stop Arch
  | 0, c, a => if c.size = 0 then .ok a else .error .outOfFuel
  | fuel + 1, c, a =>
    if c.size = 0 then .ok a
    else do
      let a ← addMapLevel0 memMap c a
      let (c, a) ← addMapLevels memMap attrs 3 1 c a
      addMapLoop memMap attrs fuel c a

def addMap (memMap : List MmRegion) (fuel : Nat) (map : MmRegion) (a : Arch) : Except Stop Arch :=
  addMapLoop memMap (map.attrs ||| pteTypeBlock ||| pteBlockAf) fuel
    { virt := map.virt, phys := map.phys, size := map.size } a

/-! ## `setup_pgtables` -/

/-- The loop that adds every entry. -/
def addMaps (memMap : List MmRegion) (fuel : Nat) : List MmRegion → Arch → Except Stop Arch
  | [], a => .ok a
  | r :: rs, a => do
    let a ← addMap memMap fuel r a
    addMaps memMap fuel rs a

def setupPgtables (memMap : List MmRegion) (fuel : Nat) (a : Arch) : Except Stop Arch :=
  if a.tlbFillptr = 0 ∨ a.tlbAddr = 0 then .error .pointerNotSetup
  else do
    let (_, a) ← createTable a
    addMaps memMap fuel (regions memMap) a

end Armada3720.UBootMmu
