import Armada3720.Xlat.Defs

/-!
# Translation tables, version 1

`lib/xlat_tables/xlat_tables_common.c` for AArch64 with assertions enabled. The array `mmap` is the list of its
entries before the first empty one; a cursor into it is the rest of the list.
-/

namespace Armada3720.XlatV1

open Lib Xlat

structure MmapAttr where
  memType : MemType
  rw : Bool
  ns : Bool
  executeNever : Bool
  deriving DecidableEq, Repr

structure MmapRegion where
  basePa : Nat
  baseVa : Nat
  size : Nat
  attr : MmapAttr
  deriving DecidableEq, Repr

/-- What the platform defines: the sizes, and where the linker puts the tables. -/
structure Platform where
  virtAddrSpaceSize : Nat
  physAddrSpaceSize : Nat
  maxMmapRegions : Nat
  maxXlatTables : Nat
  baseXlationTable : Nat
  xlatTables : Nat
  virt_valid : CheckVirtAddrSpaceSize virtAddrSpaceSize
  tables_aligned : xlatTables % 4096 = 0
  tables_below : xlatTables + 4096 * maxXlatTables ≤ 2 ^ 48
  base_apart : baseXlationTable < xlatTables ∨ xlatTables + 4096 * maxXlatTables ≤ baseXlationTable

def Platform.xlatTable (p : Platform) (i : Nat) : Nat := p.xlatTables + 4096 * i

/-! ## `mmap_add_region` -/

/-- `mmap`, `xlat_max_pa` and `xlat_max_va`. -/
structure Mmap where
  regions : List MmapRegion
  xlatMaxPa : Nat
  xlatMaxVa : Nat

/-- The overlap check of a new region with one of the array. -/
def overlapOk (new mm : MmapRegion) : Bool :=
  let endVa := lastByte new.baseVa new.size
  let endPa := lastByte new.basePa new.size
  let mmEndVa := lastByte mm.baseVa mm.size
  let mmEndPa := lastByte mm.basePa mm.size
  let fullyOverlappedVa := (new.baseVa ≥ mm.baseVa ∧ endVa ≤ mmEndVa) ∨
    (mm.baseVa ≥ new.baseVa ∧ mmEndVa ≤ endVa)
  if fullyOverlappedVa then
    sub64 mm.baseVa mm.basePa = sub64 new.baseVa new.basePa ∧
      (new.baseVa ≠ mm.baseVa ∨ new.size ≠ mm.size)
  else
    (endVa < mm.baseVa ∨ new.baseVa > mmEndVa) ∧ (endPa < mm.basePa ∨ new.basePa > mmEndPa)

/-- The array before and after the place of the new region. -/
def findPlace (new : MmapRegion) (regions : List MmapRegion) : List MmapRegion × List MmapRegion :=
  let before := regions.takeWhile fun mm => mm.baseVa < new.baseVa
  let rest := regions.dropWhile fun mm => mm.baseVa < new.baseVa
  let outer := rest.takeWhile fun mm => mm.baseVa = new.baseVa ∧ mm.size > new.size
  (before ++ outer, rest.dropWhile fun mm => mm.baseVa = new.baseVa ∧ mm.size > new.size)

/-- The assertions of `mmap_add_region` on the region itself. -/
def regionOk (p : Platform) (new : MmapRegion) : Bool :=
  new.basePa < lastByte new.basePa new.size ∧ new.baseVa < lastByte new.baseVa new.size ∧
    lastByte new.baseVa new.size ≤ p.virtAddrSpaceSize - 1 ∧
    lastByte new.basePa new.size ≤ p.physAddrSpaceSize - 1

/-- The array has one entry more than `MAX_MMAP_REGIONS`; its last one is after the move the one that stood
before it, unless the new region goes there itself. -/
def mmLastEmpty (p : Platform) (place length : Nat) : Bool :=
  if place < p.maxMmapRegions then length < p.maxMmapRegions else length ≤ p.maxMmapRegions

/-- `mmap_add_region`; a failed assertion gives nothing. -/
def mmapAddRegion (p : Platform) (m : Mmap) (new : MmapRegion) : Option Mmap :=
  if ¬ (isPageAligned new.basePa ∧ isPageAligned new.baseVa ∧ isPageAligned new.size) then none
  else if new.size = 0 then some m
  else if ¬ regionOk p new then none
  else if ¬ m.regions.all (overlapOk new) then none
  else
    let (before, after) := findPlace new m.regions
    if ¬ mmLastEmpty p before.length m.regions.length then none
    else
      some
        { regions := before ++ new :: after
          xlatMaxPa := max m.xlatMaxPa (lastByte new.basePa new.size)
          xlatMaxVa := max m.xlatMaxVa (lastByte new.baseVa new.size) }

/-- `mmap_add`: the regions one after the other. -/
def mmapAdd (p : Platform) : List MmapRegion → Mmap → Option Mmap
  | [], m => some m
  | r :: rs, m => (mmapAddRegion p m r).bind (mmapAdd p rs)

def emptyMmap : Mmap := { regions := [], xlatMaxPa := 0, xlatMaxVa := 0 }

/-! ## `init_xlation_table` -/

/-- Why the tables are not built. -/
inductive Fault
  /-- `next_xlat <= MAX_XLAT_TABLES` fails. -/
  | outOfTables
  /-- Another assertion fails. -/
  | assertion
  /-- The model's loop bound is used up. -/
  | outOfFuel
  deriving DecidableEq, Repr

def xlatArchGetXnDesc (el : Nat) : Except Fault (BitVec 64) :=
  if el = 3 then .ok (upperAttrs xn)
  else if el = 1 then .ok (upperAttrs pxn)
  else .error .assertion

/-- The bits that `mmap_desc` derives from the attributes. -/
def attrBits (executeNeverMask : BitVec 64) (attr : MmapAttr) : BitVec 64 :=
  (if attr.ns then lowerAttrs ns else 0#64) ||| (if attr.rw then lowerAttrs apRw else lowerAttrs apRo) |||
    lowerAttrs accessFlag |||
    match attr.memType with
    | .device => lowerAttrs (attrDeviceIndex ||| osh) ||| executeNeverMask
    | .memory =>
      (if attr.rw ∨ attr.executeNever then executeNeverMask else 0#64) |||
        lowerAttrs (attrIwbwaOwbwaNtrIndex ||| ish)
    | .nonCacheable =>
      (if attr.rw ∨ attr.executeNever then executeNeverMask else 0#64) |||
        lowerAttrs (attrNonCacheableIndex ||| osh)

def mmapDesc (executeNeverMask : BitVec 64) (attr : MmapAttr) (addrPa level : Nat) :
    Except Fault (BitVec 64) :=
  if addrPa % xlatBlockSize level ≠ 0 then .error .assertion
  else
    .ok (BitVec.ofNat 64 addrPa |||
      ((if level = xlatTableLevelMax then pageDesc else blockDesc) ||| attrBits executeNeverMask attr))

/-- The loop of `mmap_region_attr`; `ret` holds `*attr` once the return value is 0. -/
def mmapRegionAttrLoop (baseVa size : Nat) : List MmapRegion → Option MmapAttr → Option MmapAttr
  | [], ret => ret
  | mm :: rest, ret =>
    if mm.baseVa > baseVa + size - 1 then ret
    else if mm.baseVa + mm.size - 1 < baseVa then mmapRegionAttrLoop baseVa size rest ret
    else if ret = some mm.attr then mmapRegionAttrLoop baseVa size rest ret
    else if mm.baseVa > baseVa ∨ mm.baseVa + mm.size - 1 < baseVa + size - 1 then none
    else mmapRegionAttrLoop baseVa size rest (some mm.attr)

def mmapRegionAttr (mm : List MmapRegion) (baseVa size : Nat) : Option MmapAttr :=
  mmapRegionAttrLoop baseVa size mm none

/-- The memory of the tables, and `next_xlat`. -/
structure Tables where
  mem : Nat → Nat → BitVec 64
  nextXlat : Nat

/-- None while it is `UNSET_DESC`. The region under the cursor is not over before the area. -/
def areaDesc (executeNeverMask : BitVec 64) (level : Nat) (mm : List MmapRegion) (baseVa : Nat) :
    Except Fault (Option (BitVec 64)) :=
  match mm with
  | [] => .ok (some invalidDesc)
  | r :: _ =>
    if r.baseVa > baseVa + xlatBlockSize level - 1 then .ok (some invalidDesc)
    else if level ≥ minLvlBlockDesc then
      match mmapRegionAttr mm baseVa (xlatBlockSize level) with
      | some attr =>
        (mmapDesc executeNeverMask attr ((sub64 baseVa r.baseVa + r.basePa) % 2 ^ 64) level).map some
      | none => .ok none
    else .ok none

/-- The region under the cursor lies before `baseVa`. -/
def overtaken (mm : List MmapRegion) (baseVa : Nat) : Bool :=
  match mm with
  | [] => false
  | r :: _ => r.baseVa + r.size - 1 < baseVa

/-- The condition of the `do` loop. -/
def goesOn (p : Platform) (level baseVa : Nat) : Bool :=
  baseVa / xlatBlockSize level % xlatTableEntries ≠ 0 ∧
    baseVa ≠ 0 ∧ baseVa - 1 < p.virtAddrSpaceSize - 1

/-- A table that is filled below another: the cursor, the first address, the table. -/
abbrev Fill := List MmapRegion → Nat → Nat → Tables → Except Fault (List MmapRegion × Tables)

/-- The descriptor of the area, with a new table below it where one is needed. -/
def fillArea (p : Platform) (executeNeverMask : BitVec 64) (inner : Fill) (level : Nat)
    (mm : List MmapRegion) (baseVa : Nat) (st : Tables) :
    Except Fault (BitVec 64 × List MmapRegion × Tables) := do
  match ← areaDesc executeNeverMask level mm baseVa with
  | some desc => .ok (desc, mm, st)
  | none =>
    let newTable := p.xlatTable st.nextXlat
    if st.nextXlat + 1 > p.maxXlatTables then .error .outOfTables
    else
      let (mm, st) ← inner mm baseVa newTable { st with nextXlat := st.nextXlat + 1 }
      .ok (tableDesc ||| BitVec.ofNat 64 newTable, mm, st)

/-- At entry `idx` of `table`. A `continue` goes to the loop's condition. -/
def initLoop (p : Platform) (executeNeverMask : BitVec 64) (inner : Fill) (level table : Nat) :
    Nat → List MmapRegion → Nat → Nat → Tables → Except Fault (List MmapRegion × Tables)
  | 0, _, _, _, _ => .error .outOfFuel
  | fuel + 1, mm, baseVa, idx, st =>
    if overtaken mm baseVa then
      if goesOn p level baseVa then
        initLoop p executeNeverMask inner level table fuel mm.tail baseVa idx st
      else .ok (mm.tail, st)
    else do
      let (desc, mm, st) ← fillArea p executeNeverMask inner level mm baseVa st
      let st := { st with mem := PageFormat.setEntry st.mem table idx desc }
      let baseVa := baseVa + xlatBlockSize level
      if goesOn p level baseVa then
        initLoop p executeNeverMask inner level table fuel mm baseVa (idx + 1) st
      else .ok (mm, st)

/-- Every round of the loop passes an entry of the table or of `mmap`. -/
def initXlationTableInner (p : Platform) (executeNeverMask : BitVec 64) : Nat → Fill
  | 0 => fun mm baseVa table st =>
    initLoop p executeNeverMask (fun _ _ _ _ => .error .assertion) xlatTableLevelMax table
      (mm.length + xlatTableEntries) mm baseVa 0 st
  | h + 1 => fun mm baseVa table st =>
    initLoop p executeNeverMask (initXlationTableInner p executeNeverMask h)
      (xlatTableLevelMax - (h + 1)) table (mm.length + xlatTableEntries) mm baseVa 0 st

def Platform.xlatTableLevelBase (p : Platform) : Nat := getXlatTableLevelBase p.virtAddrSpaceSize

/-- The tables, `*max_va` and `*max_pa`. -/
def initXlationTable (p : Platform) (el : Nat) (m : Mmap) (st : Tables) :
    Except Fault (Tables × Nat × Nat) := do
  let executeNeverMask ← xlatArchGetXnDesc el
  let (_, st) ← initXlationTableInner p executeNeverMask (xlatTableLevelMax - p.xlatTableLevelBase)
    m.regions 0 p.baseXlationTable st
  .ok (st, m.xlatMaxVa, m.xlatMaxPa)

end Armada3720.XlatV1
