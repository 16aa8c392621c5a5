import Armada3720.Lib.ListSort

/-!
# The memory map of the EFI loader

`efi_add_memory_map` of `lib/efi_loader/efi_memory.c`. The allocation of list nodes succeeds; a walk that goes
on from a freed descriptor gives nothing.
-/

namespace Armada3720.Efi

open Lib

/-- `struct efi_mem_desc`, without the field `reserved`. -/
structure EfiMemDesc where
  type : Nat
  physicalStart : Nat
  virtualStart : Nat
  numPages : Nat
  attr : Nat
  deriving DecidableEq, Repr

def efiRuntimeServicesCode : Nat := 5
def efiRuntimeServicesData : Nat := 6
def efiConventionalMemory : Nat := 7
def efiMmapIo : Nat := 11
def efiMemoryWbShift : Nat := 3
def efiMemoryRuntimeShift : Nat := 63

def efiCarveNoOverlap : Int := -1
def efiCarveLoopAgain : Int := -2
def efiCarveOverlapsNonram : Int := -3

/-- `physical_start + (num_pages << EFI_PAGE_SHIFT)`. -/
def EfiMemDesc.stop (d : EfiMemDesc) : Nat := (d.physicalStart + d.numPages * 4096 % 2 ^ 64) % 2 ^ 64

def asInt (x : Nat) : Int :=
  if x % 2 ^ 32 < 2 ^ 31 then ((x % 2 ^ 32 : Nat) : Int) else ((x % 2 ^ 32 : Nat) : Int) - 2 ^ 32

def efiMemCmp (a b : EfiMemDesc) : Int :=
  if a.physicalStart = b.physicalStart then 0
  else if a.physicalStart < b.physicalStart then 1 else -1

def efiMemSort (l : List EfiMemDesc) : List EfiMemDesc := listSort (fun a b => efiMemCmp a b ≤ 0) l

/-- `efi_mem_carve_out`: what stands in the place of `map` afterwards, and the return value. -/
def efiMemCarveOut (map carve : EfiMemDesc) (overlapOnlyRam : Bool) : List EfiMemDesc × Int :=
  let mapStart := map.physicalStart
  let mapEnd := map.stop
  let carveStart := carve.physicalStart
  let carveEnd := carve.stop
  if carveEnd ≤ mapStart ∨ carveStart ≥ mapEnd then ([map], efiCarveNoOverlap)
  else if overlapOnlyRam ∧ map.type ≠ efiConventionalMemory then ([map], efiCarveOverlapsNonram)
  else
    let carveStart := max carveStart mapStart
    let carveEnd := min carveEnd mapEnd
    if carveStart = mapStart then
      (if mapEnd = carveEnd then []
        else [{ map with physicalStart := carveEnd, numPages := (mapEnd - carveEnd) / 4096 }],
        asInt ((carveEnd - carveStart) / 4096))
    else
      ([{ map with physicalStart := carveStart, numPages := (mapEnd - carveStart) / 4096 },
        { map with numPages := (carveStart - mapStart) / 4096 }], efiCarveLoopAgain)

/-- How `list_for_each` comes to its end. -/
inductive Walk
  /-- The entry that the walk goes on from is freed. -/
  | freed
  /-- The function returns 0. -/
  | nonram (l : List EfiMemDesc)
  /-- The list changed; this many pages were carved. -/
  | again (l : List EfiMemDesc) (pages : Int)
  | done (l : List EfiMemDesc)

/-- The walk has an entry before the ones it has seen. -/
def Walk.behind (entry : List EfiMemDesc) : Walk → Walk
  | .freed => .freed
  | .nonram l => .nonram (entry ++ l)
  | .again l pages => .again (entry ++ l) pages
  | .done l => .done (entry ++ l)

def walk (carve : EfiMemDesc) (overlapOnlyRam : Bool) : List EfiMemDesc → Walk
  | [] => .done []
  | map :: rest =>
    let entry := (efiMemCarveOut map carve overlapOnlyRam).1
    let r := (efiMemCarveOut map carve overlapOnlyRam).2
    if r = efiCarveOverlapsNonram then .nonram (entry ++ rest)
    else if r = efiCarveNoOverlap then
      if entry = [] then .freed else (walk carve overlapOnlyRam rest).behind entry
    else if r = efiCarveLoopAgain then .again (entry ++ rest) 0
    else .again (entry ++ rest) r

/-- The `do` loop: the list, and `carved_pages` unless the function returns 0. -/
def carveLoop (carve : EfiMemDesc) (overlapOnlyRam : Bool) :
    Nat → List EfiMemDesc → Nat → Option (List EfiMemDesc × Option Nat)
  | 0, _, _ => none
  | fuel + 1, l, carvedPages =>
    match walk carve overlapOnlyRam l with
    | .freed => none
    | .nonram l => some (l, none)
    | .again l r => carveLoop carve overlapOnlyRam fuel l ((carvedPages + r) % 2 ^ 64).toNat
    | .done l => some (l, some carvedPages)

def attributeOf (memoryType : Nat) : Nat :=
  if memoryType = efiRuntimeServicesCode ∨ memoryType = efiRuntimeServicesData then
    2 ^ efiMemoryWbShift + 2 ^ efiMemoryRuntimeShift
  else if memoryType = efiMmapIo then 2 ^ efiMemoryRuntimeShift
  else 2 ^ efiMemoryWbShift

def newDesc (start pages memoryType : Nat) : EfiMemDesc :=
  { type := memoryType, physicalStart := start, virtualStart := start, numPages := pages
    attr := attributeOf memoryType }

/-- Every round but the last carves a descriptor or splits one. -/
def efiAddMemoryMap (l : List EfiMemDesc) (start pages memoryType : Nat) (overlapOnlyRam : Bool) :
    Option (List EfiMemDesc × Nat) :=
  if pages = 0 then some (l, start)
  else
    let newlist := newDesc start pages memoryType
    match carveLoop newlist overlapOnlyRam (2 * l.length + 1) l 0 with
    | none => none
    | some (l, none) => some (l, 0)
    | some (l, some carvedPages) =>
      if overlapOnlyRam ∧ carvedPages ≠ pages then some (l, 0)
      else some (efiMemSort (l ++ [newlist]), start)

end Armada3720.Efi
