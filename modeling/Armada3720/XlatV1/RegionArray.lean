import Armada3720.Lib.Regions
import Armada3720.XlatV1.Tables

/-!
# The region array of version 1

What the assertions of `mmap_add_region` make of the array: its regions are aligned, lie in the address space,
are nested or apart, and outer ones stand before inner ones (`Accepted`).
-/

namespace Armada3720.XlatV1

open Lib Xlat MmapRegion

/-- A region of a flat map, as a caller may pass it: its fields are 64-bit values. -/
structure FlatRegion (r : MmapRegion) : Prop where
  flat : r.basePa = r.baseVa
  nonempty : r.size ≠ 0
  base : r.baseVa < 2 ^ 64
  size : r.size < 2 ^ 64

/-- A region that passed the assertions. -/
structure RegionIn (p : Platform) (r : MmapRegion) : Prop where
  flat : r.basePa = r.baseVa
  nonempty : 0 < r.size
  base : r.baseVa % 4096 = 0
  size : r.size % 4096 = 0
  below : r.baseVa + r.size ≤ p.virtAddrSpaceSize

/-- The array after any number of additions. -/
structure Accepted (p : Platform) (rs : List MmapRegion) : Prop where
  regions : ∀ r ∈ rs, RegionIn p r
  laminar : rs.Pairwise (Laminar MmapRegion.baseVa MmapRegion.size)
  order : rs.Pairwise (OuterFirst MmapRegion.baseVa MmapRegion.size)

theorem Platform.space_le (p : Platform) : 0 < p.virtAddrSpaceSize ∧ p.virtAddrSpaceSize ≤ 2 ^ 48 := by
  obtain ⟨n, _, hn, h⟩ := p.virt_valid
  rw [h]
  exact ⟨by positivity, Nat.pow_le_pow_right (by decide) hn⟩

section Add

variable {p : Platform} {new : MmapRegion} {rs : List MmapRegion}

theorem regionIn_of_regionOk (hf : FlatRegion new) (hb : isPageAligned new.baseVa)
    (hs : isPageAligned new.size) (hok : regionOk p new) : RegionIn p new := by
  obtain ⟨hflat, hne, hbase, hsize⟩ := hf
  unfold isPageAligned pageSize at hb hs
  unfold regionOk at hok
  have hspace := p.space_le
  simp only [decide_eq_true_eq] at hb hs hok
  have hwrap : new.baseVa + new.size ≤ 2 ^ 64 := by
    have h2 := hok.2.1
    unfold lastByte at h2
    omega
  have hend := hok.2.2.1
  rw [lastByte_eq (by omega) hwrap] at hend
  exact ⟨hflat, by omega, hb, hs, by omega⟩

theorem laminar_of_overlapOk {mm : MmapRegion} (hn : RegionIn p new) (hm : RegionIn p mm)
    (h : overlapOk new mm) : Laminar baseVa size new mm ∧
      (new.baseVa ≠ mm.baseVa ∨ new.size ≠ mm.size) := by
  have hspace := p.space_le
  have hn1 := hn.nonempty
  have hm1 := hm.nonempty
  have hn2 := hn.below
  have hm2 := hm.below
  unfold overlapOk at h
  rw [lastByte_eq hn1 (by omega), lastByte_eq hm1 (by omega)] at h
  unfold Laminar Inside Apart
  simp only at h
  split at h
  · next hfull =>
    have hne := (of_decide_eq_true h).2
    exact ⟨by omega, hne⟩
  · next hfull =>
    have hsep := (of_decide_eq_true h).1
    omega

theorem findPlace_append (new : MmapRegion) (rs : List MmapRegion) :
    (findPlace new rs).1 ++ (findPlace new rs).2 = rs := by
  unfold findPlace
  simp only
  rw [List.append_assoc, List.takeWhile_append_dropWhile, List.takeWhile_append_dropWhile]

theorem outerFirst_of_mem_before {x : MmapRegion} (hx : x ∈ (findPlace new rs).1) :
    OuterFirst baseVa size x new := by
  unfold findPlace at hx
  rcases List.mem_append.mp hx with hx | hx
  · have h := List.mem_takeWhile_imp hx
    exact Or.inl (of_decide_eq_true h)
  · have h := List.mem_takeWhile_imp hx
    exact Or.inr (of_decide_eq_true h)

theorem not_outerFirst_of_mem_after (hord : rs.Pairwise (OuterFirst baseVa size)) {x : MmapRegion}
    (hx : x ∈ (findPlace new rs).2) : ¬ OuterFirst baseVa size x new := by
  have hge : ∀ z ∈ rs.dropWhile fun mm => decide (mm.baseVa < new.baseVa), ¬ z.baseVa < new.baseVa := by
    intro z hz
    have := not_of_mem_dropWhile hord (fun y _ x hyx hx => ?_) z hz
    · simpa using this
    · simp only [decide_eq_true_eq] at hx ⊢
      unfold OuterFirst at hyx
      omega
  have hrest := hord.sublist (List.dropWhile_sublist fun mm => decide (mm.baseVa < new.baseVa))
  have hout := not_of_mem_dropWhile hrest (fun y hy x hyx hx => ?_) x hx
  · have hxr := hge x ((List.dropWhile_sublist _).subset hx)
    simp only [decide_eq_true_eq] at hout
    unfold OuterFirst
    omega
  · have hy := hge y hy
    simp only [decide_eq_true_eq] at hx ⊢
    unfold OuterFirst at hyx
    omega

theorem Accepted.add {m m' : Mmap} (h : Accepted p m.regions) (hf : FlatRegion new)
    (hadd : mmapAddRegion p m new = some m') :
    Accepted p m'.regions ∧ ∀ r, r ∈ m'.regions ↔ r = new ∨ r ∈ m.regions := by
  unfold mmapAddRegion at hadd
  split at hadd
  · cases hadd
  next halign =>
  rw [not_not] at halign
  rw [if_neg hf.nonempty] at hadd
  split at hadd
  · cases hadd
  next hok =>
  split at hadd
  · cases hadd
  next hover =>
  simp only at hadd
  split at hadd
  · cases hadd
  cases hadd
  have hin := regionIn_of_regionOk hf halign.2.1 halign.2.2 (not_not.mp hok)
  have hsplit := findPlace_append new m.regions
  have hmem : ∀ r, r ∈ m.regions ↔
      r ∈ (findPlace new m.regions).1 ∨ r ∈ (findPlace new m.regions).2 := by
    intro r
    rw [← List.mem_append, hsplit]
  have hlam : ∀ r ∈ m.regions, Laminar baseVa size new r ∧
      (new.baseVa ≠ r.baseVa ∨ new.size ≠ r.size) := by
    intro r hr
    rw [not_not, List.all_eq_true] at hover
    exact laminar_of_overlapOk hin (h.regions r hr) (hover r hr)
  have hall : ∀ r, r ∈ (findPlace new m.regions).1 ++ new :: (findPlace new m.regions).2 ↔
      r = new ∨ r ∈ m.regions := by
    intro r
    rw [List.mem_append, List.mem_cons, hmem]
    exact or_left_comm
  have hl := h.laminar
  have ho := h.order
  rw [← hsplit, List.pairwise_append] at hl ho
  refine ⟨⟨?_, ?_, ?_⟩, hall⟩
  · intro r hr
    rcases (hall r).mp hr with rfl | hr
    · exact hin
    · exact h.regions r hr
  · refine List.pairwise_append.mpr ⟨hl.1, List.pairwise_cons.mpr ⟨?_, hl.2.1⟩, ?_⟩
    · intro r hr
      exact (hlam r ((hmem r).mpr (Or.inr hr))).1
    · intro r hr s hs
      rcases List.mem_cons.mp hs with rfl | hs
      · exact (hlam r ((hmem r).mpr (Or.inl hr))).1.symm
      · exact hl.2.2 r hr s hs
  · refine List.pairwise_append.mpr ⟨ho.1, List.pairwise_cons.mpr ⟨?_, ho.2.1⟩, ?_⟩
    · intro r hr
      have hnot := not_outerFirst_of_mem_after h.order hr
      have hne := (hlam r ((hmem r).mpr (Or.inr hr))).2
      unfold OuterFirst at hnot ⊢
      omega
    · intro r hr s hs
      rcases List.mem_cons.mp hs with rfl | hs
      · exact outerFirst_of_mem_before hr
      · exact ho.2.2 r hr s hs

/-- Additions that pass their assertions build an array that holds exactly their regions. -/
theorem accepted_mmapAdd {regs : List MmapRegion} {m m' : Mmap} (h : Accepted p m.regions)
    (hf : ∀ r ∈ regs, FlatRegion r) (hadd : mmapAdd p regs m = some m') :
    Accepted p m'.regions ∧ ∀ r, r ∈ m'.regions ↔ r ∈ regs ∨ r ∈ m.regions := by
  induction regs generalizing m with
  | nil =>
    cases hadd
    exact ⟨h, fun r => by simp⟩
  | cons r regs ih =>
    rw [List.forall_mem_cons] at hf
    obtain ⟨m1, h1, hrest⟩ := Option.bind_eq_some_iff.mp hadd
    obtain ⟨hacc, hmem⟩ := h.add hf.1 h1
    obtain ⟨hacc', hmem'⟩ := ih hacc hf.2 hrest
    refine ⟨hacc', fun s => ?_⟩
    rw [hmem', hmem, List.mem_cons, or_left_comm, or_assoc]

end Add

end Armada3720.XlatV1
