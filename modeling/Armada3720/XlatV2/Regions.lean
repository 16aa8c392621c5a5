import Armada3720.XlatV2.Tables

/-!
# Regions of a context

What `mmap_add_region_check` lets into a region array, and the last address of such a region,
which no sum of a base and a size overflows.
-/

namespace Armada3720.XlatV2

/-- A region that `mmap_add_region_check` lets into an array. -/
structure RegionIn (p : Platform) (r : MmapRegion) : Prop where
  nonempty : 0 < r.size
  baseVa : r.baseVa % 4096 = 0
  basePa : r.basePa % 4096 = 0
  size : r.size % 4096 = 0
  below : r.baseVa + r.size ≤ p.virtAddrSpaceSize
  pa_below : r.basePa + r.size ≤ p.physAddrSpaceSize
  granularity : 4096 ≤ r.granularity

section Addresses

variable {p : Platform} {r : MmapRegion} {base size : Nat}

theorem Platform.space_le_bits (p : Platform) {a : Nat} (h : a ≤ p.virtAddrSpaceSize) :
    a ≤ 2 ^ p.arch.bits := h.trans p.virt_fits

theorem lastVa_of_le (hpos : 0 < base + size) (hle : base + size ≤ 2 ^ p.arch.bits) :
    p.lastVa base size = base + size - 1 := by
  have hsum : base + size + (2 ^ p.arch.bits - 1) = base + size - 1 + 2 ^ p.arch.bits := by omega
  rw [Platform.lastVa, hsum, Nat.add_mod_right, Nat.mod_eq_of_lt (by omega)]

theorem lastVa_eq (hpos : 0 < base + size) (hle : base + size ≤ p.virtAddrSpaceSize) :
    p.lastVa base size = base + size - 1 := lastVa_of_le hpos (p.space_le_bits hle)

theorem RegionIn.lastVa_eq (hr : RegionIn p r) : p.lastVa r.baseVa r.size = r.baseVa + r.size - 1 := by
  have := hr.nonempty
  exact XlatV2.lastVa_eq (by omega) hr.below

end Addresses

end Armada3720.XlatV2
