import Armada3720.XlatV2.Context

/-!
# Translation tables, version 2: mapping and unmapping

The model counts the levels below a table, so that the assertion on the level holds by construction. A word of a
table is written with its index; what stands behind the last entry of a table is never looked at.
-/

namespace Armada3720.XlatV2

open Lib Xlat

/-! ## Counters -/

def xlatTableGetIndex (p : Platform) (table : Nat) : Except Fault Nat :=
  match (List.range p.tablesNum).find? fun i => p.table i = table with
  | some i => .ok i
  | none => .error .assertion

def xlatTableGetEmpty (p : Platform) (st : Tables) : Option Nat :=
  ((List.range p.tablesNum).find? fun i => st.mappedRegions i = 0).map p.table

/-- The counter of a table takes another value, if an `int` can hold it. -/
def addRegionsCount (p : Platform) (st : Tables) (table : Nat) (d : Int) : Except Fault Tables := do
  let i ← xlatTableGetIndex p table
  let n := st.mappedRegions i + d
  if -2 ^ 31 ≤ n ∧ n < 2 ^ 31 then
    .ok { st with mappedRegions := Function.update st.mappedRegions i n }
  else .error .overflow

def xlatTableIncRegionsCount (p : Platform) (st : Tables) (table : Nat) : Except Fault Tables :=
  addRegionsCount p st table 1

def xlatTableDecRegionsCount (p : Platform) (st : Tables) (table : Nat) : Except Fault Tables :=
  addRegionsCount p st table (-1)

def xlatTableIsEmpty (p : Platform) (st : Tables) (table : Nat) : Except Fault Bool := do
  let i ← xlatTableGetIndex p table
  .ok (st.mappedRegions i = 0)

/-! ## Where a region meets a table -/

inductive Action
  | none
  | writeBlockEntry
  | createNewTable
  | recurseIntoTable
  deriving DecidableEq, Repr

/-- The first index of a table that a region affects, and its address. -/
def firstIdx (mm : MmapRegion) (tableBaseVa tableEntries level : Nat) : Except Fault (Nat × Nat) :=
  if mm.baseVa > tableBaseVa then
    let tableIdxVa := mm.baseVa / xlatBlockSize level * xlatBlockSize level
    let tableIdx := (tableIdxVa - tableBaseVa) / xlatBlockSize level
    if tableIdx < tableEntries then .ok (tableIdx, tableIdxVa) else .error .assertion
  else .ok (0, tableBaseVa)

/-! ## `xlat_tables_map_region` -/

def xlatTablesMapRegionAction (p : Platform) (mm : MmapRegion) (descType : BitVec 64)
    (destPa tableEntryBaseVa level : Nat) : Except Fault Action :=
  let mmEndVa := p.lastVa mm.baseVa mm.size
  let tableEntryEndVa := p.lastVa tableEntryBaseVa (xlatBlockSize level)
  if mm.baseVa ≤ tableEntryBaseVa ∧ mmEndVa ≥ tableEntryEndVa then
    if level = 3 then
      if descType = pageDesc then .ok .none
      else if descType = invalidDesc then .ok .writeBlockEntry
      else .error .assertion
    else if descType = tableDesc then .ok .recurseIntoTable
    else if descType = invalidDesc then
      if destPa % xlatBlockSize level ≠ 0 ∨ level < minLvlBlockDesc ∨
          mm.granularity < xlatBlockSize level then .ok .createNewTable
      else .ok .writeBlockEntry
    else if descType = blockDesc then .ok .none
    else .error .assertion
  else if mm.baseVa ≤ tableEntryEndVa ∨ mmEndVa ≥ tableEntryBaseVa then
    if ¬ level < 3 then .error .assertion
    else if descType = invalidDesc then .ok .createNewTable
    else if descType = tableDesc then .ok .recurseIntoTable
    else .error .assertion
  else .ok .none

/-- The same function one level down: the address that a table starts at, the table. -/
abbrev MapSub := Nat → Nat → Tables → Except Fault (Nat × Tables)

/-- The call for a subtable, and the test of the address that it returns. -/
def mapSubtable (p : Platform) (sub : MapSub) (level tableIdxVa subtable : Nat) (st : Tables) :
    Except Fault (Option Nat × Tables) := do
  let (endVa, st) ← sub tableIdxVa subtable st
  if endVa ≠ p.lastVa tableIdxVa (xlatBlockSize level) then .ok (some endVa, st)
  else .ok (none, st)

/-- The loop's body for one entry. It gives the address to return, if it returns. -/
def mapEntry (p : Platform) (mm : MmapRegion) (sub : MapSub)
    (level tableBase tableIdx tableIdxVa : Nat) (st : Tables) :
    Except Fault (Option Nat × Tables) := do
  let desc := st.mem tableBase tableIdx
  let tableIdxPa := (mm.basePa + tableIdxVa + (2 ^ 64 - mm.baseVa)) % 2 ^ 64
  match ← xlatTablesMapRegionAction p mm (desc &&& descMask) tableIdxPa tableIdxVa level with
  | .writeBlockEntry =>
    let w ← xlatDesc p mm.attr tableIdxPa level
    .ok (none, { st with mem := PageFormat.setEntry st.mem tableBase tableIdx w })
  | .createNewTable =>
    match xlatTableGetEmpty p st with
    | none => .ok (some tableIdxVa, st)
    | some subtable =>
      let desc := tableDesc ||| BitVec.ofNat 64 subtable
      mapSubtable p sub level tableIdxVa subtable
        { st with mem := PageFormat.setEntry st.mem tableBase tableIdx desc }
  | .recurseIntoTable =>
    mapSubtable p sub level tableIdxVa (desc &&& tableAddrMask).toNat st
  | .none => .ok (none, st)

/-- The `while` loop, with as many entries left as the first argument says. -/
def mapLoop (p : Platform) (mm : MmapRegion) (sub : MapSub) (level tableBase : Nat) :
    Nat → Nat → Nat → Tables → Except Fault (Nat × Tables)
  | 0, _, tableIdxVa, st => .ok (p.lastVa tableIdxVa 0, st)
  | left + 1, tableIdx, tableIdxVa, st => do
    match ← mapEntry p mm sub level tableBase tableIdx tableIdxVa st with
    | (some endVa, st) => .ok (endVa, st)
    | (none, st) =>
      let tableIdxVa := p.addVa tableIdxVa (xlatBlockSize level)
      if p.lastVa mm.baseVa mm.size ≤ tableIdxVa then .ok (p.lastVa tableIdxVa 0, st)
      else mapLoop p mm sub level tableBase left (tableIdx + 1) tableIdxVa st

/-- A subtable is counted when it is entered; the base table has no counter. -/
def enterTable (p : Platform) (level tableBase : Nat) (st : Tables) : Except Fault Tables :=
  if level > p.baseLevel then xlatTableIncRegionsCount p st tableBase else .ok st

/-- `xlat_tables_map_region` for a table, given the function for the tables below it. -/
def mapTable (p : Platform) (mm : MmapRegion) (sub : MapSub)
    (level tableBaseVa tableBase tableEntries : Nat) (st : Tables) : Except Fault (Nat × Tables) := do
  let (tableIdx, tableIdxVa) ← firstIdx mm tableBaseVa tableEntries level
  let st ← enterTable p level tableBase st
  mapLoop p mm sub level tableBase (tableEntries - tableIdx) tableIdx tableIdxVa st

/-- `xlat_tables_map_region` for a table with `h` levels below it. -/
def xlatTablesMapRegion (p : Platform) (mm : MmapRegion) :
    Nat → Nat → Nat → Nat → Tables → Except Fault (Nat × Tables)
  | 0 => mapTable p mm (fun _ _ _ => .error .assertion) xlatTableLevelMax
  | h + 1 =>
    mapTable p mm (fun tableBaseVa tableBase => xlatTablesMapRegion p mm h tableBaseVa tableBase xlatTableEntries)
      (xlatTableLevelMax - (h + 1))

/-! ## `xlat_tables_unmap_region` -/

/-- What the loop of `xlat_tables_unmap_region` does with an entry. -/
def unmapAction (p : Platform) (mm : MmapRegion) (descType : BitVec 64)
    (tableIdxVa level : Nat) : Except Fault Action :=
  let regionEndVa := p.lastVa mm.baseVa mm.size
  let tableIdxEndVa := p.lastVa tableIdxVa (xlatBlockSize level)
  if mm.baseVa ≤ tableIdxVa ∧ regionEndVa ≥ tableIdxEndVa then
    if level = 3 then
      if descType = pageDesc then .ok .writeBlockEntry else .error .assertion
    else if descType = tableDesc then .ok .recurseIntoTable
    else if descType = blockDesc then .ok .writeBlockEntry
    else .error .assertion
  else if mm.baseVa ≤ tableIdxEndVa ∨ regionEndVa ≥ tableIdxVa then
    if level < 3 ∧ descType = tableDesc then .ok .recurseIntoTable else .error .assertion
  else .ok .none

/-- The same function one level down: the address that a table starts at, the table. -/
abbrev UnmapSub := Nat → Nat → Tables → Except Fault Tables

/-- The loop's body for one entry. -/
def unmapEntry (p : Platform) (mm : MmapRegion) (sub : UnmapSub)
    (level tableBase tableIdx tableIdxVa : Nat) (st : Tables) : Except Fault Tables := do
  let desc := st.mem tableBase tableIdx
  match ← unmapAction p mm (desc &&& descMask) tableIdxVa level with
  | .writeBlockEntry =>
    .ok { st with mem := PageFormat.setEntry st.mem tableBase tableIdx invalidDesc }
  | .recurseIntoTable =>
    let subtable := (desc &&& tableAddrMask).toNat
    let st ← sub tableIdxVa subtable st
    if ← xlatTableIsEmpty p st subtable then
      .ok { st with mem := PageFormat.setEntry st.mem tableBase tableIdx invalidDesc }
    else .ok st
  | _ => .ok st

/-- The `while` loop, with as many entries left as the first argument says. -/
def unmapLoop (p : Platform) (mm : MmapRegion) (sub : UnmapSub) (level tableBase : Nat) :
    Nat → Nat → Nat → Tables → Except Fault Tables
  | 0, _, _, st => .ok st
  | left + 1, tableIdx, tableIdxVa, st => do
    let st ← unmapEntry p mm sub level tableBase tableIdx tableIdxVa st
    let tableIdxVa := p.addVa tableIdxVa (xlatBlockSize level)
    if p.lastVa mm.baseVa mm.size ≤ tableIdxVa then .ok st
    else unmapLoop p mm sub level tableBase left (tableIdx + 1) tableIdxVa st

/-- A subtable is counted off when it is left. -/
def leaveTable (p : Platform) (level tableBase : Nat) (st : Tables) : Except Fault Tables :=
  if level > p.baseLevel then xlatTableDecRegionsCount p st tableBase else .ok st

/-- `xlat_tables_unmap_region` for a table, given the function for the tables below it. -/
def unmapTable (p : Platform) (mm : MmapRegion) (sub : UnmapSub)
    (level tableBaseVa tableBase tableEntries : Nat) (st : Tables) : Except Fault Tables := do
  let (tableIdx, tableIdxVa) ← firstIdx mm tableBaseVa tableEntries level
  let st ← unmapLoop p mm sub level tableBase (tableEntries - tableIdx) tableIdx tableIdxVa st
  leaveTable p level tableBase st

/-- `xlat_tables_unmap_region` for a table with `h` levels below it. -/
def xlatTablesUnmapRegion (p : Platform) (mm : MmapRegion) :
    Nat → Nat → Nat → Nat → Tables → Except Fault Tables
  | 0 => unmapTable p mm (fun _ _ _ => .error .assertion) xlatTableLevelMax
  | h + 1 =>
    unmapTable p mm (fun tableBaseVa tableBase => xlatTablesUnmapRegion p mm h tableBaseVa tableBase xlatTableEntries)
      (xlatTableLevelMax - (h + 1))

/-! ## `init_xlat_tables_ctx` -/

/-- The levels below the base table. -/
def Platform.height (p : Platform) : Nat := xlatTableLevelMax - p.baseLevel

def mapFromBase (p : Platform) (mm : MmapRegion) (st : Tables) : Except Fault (Nat × Tables) :=
  xlatTablesMapRegion p mm p.height 0 p.baseTable p.baseTableEntries st

def unmapFromBase (p : Platform) (mm : MmapRegion) (st : Tables) : Except Fault Tables :=
  xlatTablesUnmapRegion p mm p.height 0 p.baseTable p.baseTableEntries st

/-- All entries of all tables are made invalid, and no table is in use. -/
def zeroTables (p : Platform) (st : Tables) : Tables where
  mem := fun t i =>
    if t = p.baseTable ∨ (List.range p.tablesNum).any (fun j => p.table j = t) then invalidDesc
    else st.mem t i
  mappedRegions := fun i => if i < p.tablesNum then 0 else st.mappedRegions i

def mapRegions (p : Platform) : List MmapRegion → Tables → Except Fault Tables
  | [], st => .ok st
  | mm :: rest, st => do
    let (endVa, st) ← mapFromBase p mm st
    if endVa ≠ p.lastVa mm.baseVa mm.size then .error .panic
    else mapRegions p rest st

def initXlatTablesCtx (p : Platform) (ctx : Ctx) : Except Fault Ctx :=
  if ctx.initialized then .error .assertion
  else do
    let st ← mapRegions p (activeRegions ctx.mmap) (zeroTables p ctx.tables)
    if p.paMaxAddress ≤ 2 ^ p.paRangeBits - 1 ∧ ctx.maxVa ≤ p.vaMaxAddress ∧
        ctx.maxPa ≤ p.paMaxAddress then
      .ok { ctx with tables := st, initialized := true }
    else .error .assertion

/-! ## Dynamic regions -/

/-- After the region is in the array at `mmCursor`, in an initialised context. -/
def mapDynamicRegion (p : Platform) (ctx : Ctx) (mmCursor : Nat) (mm : MmapRegion) :
    Except Fault (Status × Ctx) := do
  let (endVa, st) ← mapFromBase p mm ctx.tables
  if endVa ≠ p.lastVa mm.baseVa mm.size then
    let mmap := memmove ctx.mmap mmCursor (mmCursor + 1) (p.mmapNum - mmCursor)
    let ctx := { ctx with mmap := mmap, tables := st }
    if mm.baseVa ≥ endVa then .ok (.enomem, ctx)
    else
      let unmapMm := { MmapRegion.empty with baseVa := mm.baseVa, size := endVa - mm.baseVa }
      let st ← unmapFromBase p unmapMm st
      .ok (.enomem, { ctx with tables := st })
  else
    .ok (.ok,
      { ctx with
        tables := st
        maxPa := max ctx.maxPa (lastByte mm.basePa mm.size)
        maxVa := max ctx.maxVa (p.lastVa mm.baseVa mm.size) })

def mmapAddDynamicRegionCtx (p : Platform) (ctx : Ctx) (mm : MmapRegion) :
    Except Fault (Status × Ctx) :=
  if mm.size = 0 then .ok (.ok, ctx)
  else
    let mm := { mm with attr := { mm.attr with dynamic := true } }
    let ret := mmapAddRegionCheck p ctx.mmap mm
    if ret ≠ .ok then .ok (ret, ctx)
    else
      match findCursor p ctx.mmap mm with
      | none => .error .outOfArray
      | some mmCursor =>
        let mmap := memmove ctx.mmap (mmCursor + 1) mmCursor (p.mmapNum - mmCursor)
        if (mmap.getD p.mmapNum .empty).size ≠ 0 then .error .assertion
        else
          let ctx := { ctx with mmap := mmap.set mmCursor mm }
          if ctx.initialized then mapDynamicRegion p ctx mmCursor mm
          else
            .ok (.ok,
              { ctx with
                maxPa := max ctx.maxPa (lastByte mm.basePa mm.size)
                maxVa := max ctx.maxVa (p.lastVa mm.baseVa mm.size) })

/-- The largest end address of the regions, or 0. -/
def maxEnd (endAddr : MmapRegion → Nat) (regions : List MmapRegion) : Nat :=
  regions.foldl (fun m mm => if endAddr mm > m then endAddr mm else m) 0

def mmapRemoveDynamicRegionCtx (p : Platform) (ctx : Ctx) (baseVa size : Nat) :
    Except Fault (Status × Ctx) :=
  if (ctx.mmap.getD p.mmapNum .empty).size ≠ 0 then .error .assertion
  else
    let regions := activeRegions ctx.mmap
    match regions.findIdx? fun mm => mm.baseVa = baseVa ∧ mm.size = size with
    | none => .ok (.einval, ctx)
    | some i =>
      let mm := ctx.mmap.getD i .empty
      if ¬ mm.attr.dynamic then .ok (.eperm, ctx)
      else do
        let st ← if ctx.initialized then unmapFromBase p mm ctx.tables else .ok ctx.tables
        let mmap := memmove ctx.mmap i (i + 1) (p.mmapNum - i)
        let endVa := fun mm : MmapRegion => p.lastVa mm.baseVa mm.size
        let endPa := fun mm : MmapRegion => lastByte mm.basePa mm.size
        .ok (.ok,
          { ctx with
            mmap := mmap
            tables := st
            maxVa := if endVa mm = ctx.maxVa then maxEnd endVa (activeRegions mmap) else ctx.maxVa
            maxPa := if endPa mm = ctx.maxPa then maxEnd endPa (activeRegions mmap) else ctx.maxPa })

end Armada3720.XlatV2
