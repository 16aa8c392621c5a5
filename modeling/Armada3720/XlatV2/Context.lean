import Armada3720.Xlat.Defs

/-!
# Translation tables, version 2: contexts and their region arrays

`lib/xlat_tables_v2/xlat_tables_internal.c` with `PLAT_XLAT_TABLES_DYNAMIC` and with assertions enabled, for
AArch64 and AArch32. `mmap` is the whole array of `mmap_num + 1` entries, so that a cursor that leaves it is
seen.
-/

namespace Armada3720.XlatV2

open Lib Xlat

/-- What the library is built for. -/
inductive Arch
  | aarch64
  | aarch32
  deriving DecidableEq, Repr

def Arch.bits : Arch → Nat
  | .aarch64 => 64
  | .aarch32 => 32

inductive XlatRegime
  | el1El0
  | el3
  deriving DecidableEq, Repr

/-- `mmap_attr_t`, with the private `MT_DYNAMIC`. -/
structure MmapAttr where
  memType : MemType
  rw : Bool
  ns : Bool
  executeNever : Bool
  user : Bool
  dynamic : Bool
  deriving DecidableEq, Repr

structure MmapRegion where
  basePa : Nat
  baseVa : Nat
  size : Nat
  attr : MmapAttr
  granularity : Nat
  deriving DecidableEq, Repr

/-- An entry of the array that holds no region. -/
def MmapRegion.empty : MmapRegion where
  basePa := 0
  baseVa := 0
  size := 0
  attr := ⟨.device, false, false, false, false, false⟩
  granularity := 0

/-- With the largest physical address that the processor supports. -/
structure Platform where
  arch : Arch
  xlatRegime : XlatRegime
  virtAddrSpaceSize : Nat
  physAddrSpaceSize : Nat
  mmapNum : Nat
  tablesNum : Nat
  baseTable : Nat
  tables : Nat
  /-- `xlat_arch_get_max_supported_pa() + 1`, as a power of two. -/
  paRangeBits : Nat
  virt_valid : CheckVirtAddrSpaceSize virtAddrSpaceSize
  virt_fits : virtAddrSpaceSize ≤ 2 ^ arch.bits
  phys_valid : ∃ n < 64, physAddrSpaceSize = 2 ^ n
  mmap_num : 0 < mmapNum ∧ mmapNum < 2 ^ 31
  tables_aligned : tables % 4096 = 0
  tables_below : tables + 4096 * tablesNum ≤ 2 ^ 48
  base_apart : baseTable < tables ∨ tables + 4096 * tablesNum ≤ baseTable
  pa_range : paRangeBits ≤ 48

namespace Platform

variable (p : Platform)

def table (i : Nat) : Nat := p.tables + 4096 * i

def baseLevel : Nat := getXlatTableLevelBase p.virtAddrSpaceSize

def baseTableEntries : Nat := getNumBaseLevelEntries p.virtAddrSpaceSize

def vaMaxAddress : Nat := p.virtAddrSpaceSize - 1

def paMaxAddress : Nat := p.physAddrSpaceSize - 1

def addVa (a b : Nat) : Nat := (a + b) % 2 ^ p.arch.bits

/-- A sum of two values of type `uintptr_t`, less one: the last byte of a region. -/
def lastVa (base size : Nat) : Nat := (base + size + (2 ^ p.arch.bits - 1)) % 2 ^ p.arch.bits

end Platform

/-- Where a call goes wrong. -/
inductive Fault
  /-- An assertion fails. -/
  | assertion
  /-- `panic`: not enough memory to map the regions. -/
  | panic
  /-- A cursor leaves the region array. -/
  | outOfArray
  /-- A counter of type `int` overflows. -/
  | overflow
  deriving DecidableEq, Repr

inductive Status
  | ok
  | einval
  | erange
  | enomem
  | eperm
  deriving DecidableEq, Repr

/-- The translation tables: their words by table and index, and `tables_mapped_regions`. -/
structure Tables where
  mem : Nat → Nat → BitVec 64
  mappedRegions : Nat → Int

/-- The part of `xlat_ctx_t` that changes. -/
structure Ctx where
  mmap : List MmapRegion
  tables : Tables
  maxPa : Nat
  maxVa : Nat
  initialized : Bool

/-- The entries that a loop over the array visits: those before the first empty one. -/
def activeRegions (mmap : List MmapRegion) : List MmapRegion := mmap.takeWhile fun mm => mm.size ≠ 0

/-! ## `xlat_desc` -/

def xlatArchRegimeGetXnDesc (p : Platform) : BitVec 64 :=
  match p.arch, p.xlatRegime with
  | .aarch64, .el1El0 => upperAttrs uxn ||| upperAttrs pxn
  | .aarch64, .el3 => upperAttrs xn
  | .aarch32, _ => upperAttrs xn

/-- The bits that `xlat_desc` derives from the attributes. -/
def attrBits (p : Platform) (attr : MmapAttr) : BitVec 64 :=
  lowerAttrs accessFlag ||| (if attr.ns then lowerAttrs ns else 0#64) |||
    (if attr.rw then lowerAttrs apRw else lowerAttrs apRo) |||
    (match p.xlatRegime with
      | .el1El0 =>
        if attr.user then lowerAttrs apAccessUnprivileged else lowerAttrs apNoAccessUnprivileged
      | .el3 => lowerAttrs apNoAccessUnprivileged) |||
    match attr.memType with
    | .device => lowerAttrs (attrDeviceIndex ||| osh) ||| xlatArchRegimeGetXnDesc p
    | .memory =>
      (if attr.rw ∨ attr.executeNever then xlatArchRegimeGetXnDesc p else 0#64) |||
        lowerAttrs (attrIwbwaOwbwaNtrIndex ||| ish)
    | .nonCacheable =>
      (if attr.rw ∨ attr.executeNever then xlatArchRegimeGetXnDesc p else 0#64) |||
        lowerAttrs (attrNonCacheableIndex ||| osh)

def xlatDesc (p : Platform) (attr : MmapAttr) (addrPa level : Nat) : Except Fault (BitVec 64) :=
  if addrPa % xlatBlockSize level ≠ 0 then .error .assertion
  else
    .ok (BitVec.ofNat 64 addrPa ||| ((if level = xlatTableLevelMax then pageDesc else blockDesc) ||| attrBits p attr))

/-! ## The region array -/

/-- The overlap check of a new region with one of the array. -/
def overlapOk (p : Platform) (mm mmCursor : MmapRegion) : Bool :=
  let endVa := p.lastVa mm.baseVa mm.size
  let endPa := lastByte mm.basePa mm.size
  let mmCursorEndVa := p.lastVa mmCursor.baseVa mmCursor.size
  let mmCursorEndPa := lastByte mmCursor.basePa mmCursor.size
  let fullyOverlappedVa := (mm.baseVa ≥ mmCursor.baseVa ∧ endVa ≤ mmCursorEndVa) ∨
    (mmCursor.baseVa ≥ mm.baseVa ∧ mmCursorEndVa ≤ endVa)
  if fullyOverlappedVa then
    ¬ (mm.attr.dynamic ∨ mmCursor.attr.dynamic) ∧
      sub64 mmCursor.baseVa mmCursor.basePa = sub64 mm.baseVa mm.basePa ∧
      (mm.baseVa ≠ mmCursor.baseVa ∨ mm.size ≠ mmCursor.size)
  else
    (endVa < mmCursor.baseVa ∨ mm.baseVa > mmCursorEndVa) ∧
      (endPa < mmCursor.basePa ∨ mm.basePa > mmCursorEndPa)

def mmapAddRegionCheck (p : Platform) (mmap : List MmapRegion) (mm : MmapRegion) : Status :=
  let endPa := lastByte mm.basePa mm.size
  let endVa := p.lastVa mm.baseVa mm.size
  if ¬ (isPageAligned mm.basePa ∧ isPageAligned mm.baseVa ∧ isPageAligned mm.size) then .einval
  else if mm.granularity ≠ xlatBlockSize 1 ∧ mm.granularity ≠ xlatBlockSize 2 ∧
      mm.granularity ≠ xlatBlockSize 3 then .einval
  else if mm.basePa > endPa ∨ mm.baseVa > endVa then .erange
  else if endVa > p.vaMaxAddress then .erange
  else if endPa > p.paMaxAddress then .erange
  else if (mmap.getD (p.mmapNum - 1) .empty).size ≠ 0 then .enomem
  else if ¬ (activeRegions mmap).all (overlapOk p mm) then .eperm
  else .ok

/-- Past the regions that end before it, then past the smaller ones that end with it. Nothing if the cursor
leaves the array. -/
def findCursor (p : Platform) (mmap : List MmapRegion) (mm : MmapRegion) : Option Nat :=
  let endVa := p.lastVa mm.baseVa mm.size
  let lower := (mmap.takeWhile fun r => p.lastVa r.baseVa r.size < endVa ∧ r.size ≠ 0).length
  let smaller := ((mmap.drop lower).takeWhile fun r =>
    p.lastVa r.baseVa r.size = endVa ∧ r.size < mm.size).length
  if lower + smaller < mmap.length then some (lower + smaller) else none

/-- `memmove` of `n` entries of the array from index `src` to index `dst`. -/
def memmove (mmap : List MmapRegion) (dst src n : Nat) : List MmapRegion :=
  mmap.take dst ++ (mmap.drop src).take n ++ mmap.drop (dst + n)

def mmapAddRegionCtx (p : Platform) (ctx : Ctx) (mm : MmapRegion) : Except Fault Ctx :=
  if mm.size = 0 then .ok ctx
  else if ctx.initialized then .error .assertion
  else if mmapAddRegionCheck p ctx.mmap mm ≠ .ok then .error .assertion
  else
    match findCursor p ctx.mmap mm with
    | none => .error .outOfArray
    | some mmCursor =>
      let mmLast := min (activeRegions ctx.mmap).length p.mmapNum
      if (ctx.mmap.getD mmLast .empty).size ≠ 0 then .error .assertion
      else
        let mmap := memmove ctx.mmap (mmCursor + 1) mmCursor (mmLast - mmCursor)
        if (mmap.getD p.mmapNum .empty).size ≠ 0 then .error .assertion
        else
          .ok { ctx with
            mmap := mmap.set mmCursor mm
            maxPa := max ctx.maxPa (lastByte mm.basePa mm.size)
            maxVa := max ctx.maxVa (p.lastVa mm.baseVa mm.size) }

end Armada3720.XlatV2
