import Armada3720.Lib.Reaches
import Armada3720.Lib.Regions
import Armada3720.XlatV2.Regions

/-!
# The region array

`mmap` is a list of regions with empty entries behind it, sorted by end address and size. An empty entry ends at
the last byte of the address space, like a region that reaches up to there. On AArch32 the cursor then runs out
of the array, unless a larger region stops it (`Stopped`).
-/

namespace Armada3720.XlatV2

open Lib Xlat MmapRegion

def MmapRegion.endVa (r : MmapRegion) : Nat := r.baseVa + r.size - 1

def MmapRegion.endPa (r : MmapRegion) : Nat := r.basePa + r.size - 1

/-- The order of the array: by the end address, then by the size. -/
def MmapRegion.Before (a b : MmapRegion) : Prop :=
  a.endVa < b.endVa ∨ a.endVa = b.endVa ∧ a.size ≤ b.size

instance : DecidableRel MmapRegion.Before := fun a b =>
  inferInstanceAs (Decidable (a.endVa < b.endVa ∨ a.endVa = b.endVa ∧ a.size ≤ b.size))

instance : Std.Total MmapRegion.Before := ⟨fun a b => by unfold MmapRegion.Before; omega⟩

instance : IsTrans MmapRegion MmapRegion.Before :=
  ⟨fun a b c hab hbc => by unfold MmapRegion.Before at *; omega⟩

/-- The empty entries behind the regions `rs`. -/
def emptyEntries (p : Platform) (rs : List MmapRegion) : List MmapRegion :=
  List.replicate (p.mmapNum + 1 - rs.length) .empty

/-- The array with the regions `rs` in it. -/
def arrayOf (p : Platform) (rs : List MmapRegion) : List MmapRegion := rs ++ emptyEntries p rs

/-- The regions are what the checks let in: sorted, and no two for one range. -/
structure SortedIn (p : Platform) (rs : List MmapRegion) : Prop where
  regions : ∀ r ∈ rs, RegionIn p r
  sorted : rs.Pairwise MmapRegion.Before
  distinct : rs.Pairwise fun a b => a.baseVa ≠ b.baseVa ∨ a.size ≠ b.size
  room : rs.length ≤ p.mmapNum

/-- The region ends below the last byte of a 32-bit address space, or a region of the array that ends there is
at least as large. -/
def Stopped (p : Platform) (rs : List MmapRegion) (mm : MmapRegion) : Prop :=
  p.arch = .aarch32 → mm.baseVa + mm.size = 2 ^ 32 →
    ∃ r ∈ rs, r.baseVa + r.size = 2 ^ 32 ∧ mm.size ≤ r.size

instance (p : Platform) (rs : List MmapRegion) (mm : MmapRegion) : Decidable (Stopped p rs mm) :=
  inferInstanceAs (Decidable (_ → _ → _))

section Array

variable {p : Platform} {rs : List MmapRegion} {mm : MmapRegion}

theorem activeRegions_arrayOf (h : ∀ r ∈ rs, r.size ≠ 0) : activeRegions (arrayOf p rs) = rs := by
  unfold activeRegions arrayOf emptyEntries
  rw [List.takeWhile_append_of_pos fun r hr => decide_eq_true (h r hr)]
  cases p.mmapNum + 1 - rs.length with
  | zero => exact List.append_nil _
  | succ k => simp [List.replicate_succ, empty]

theorem SortedIn.size_ne_zero (h : SortedIn p rs) : ∀ r ∈ rs, r.size ≠ 0 :=
  fun r hr => (h.regions r hr).nonempty.ne'

theorem length_arrayOf (h : rs.length ≤ p.mmapNum) : (arrayOf p rs).length = p.mmapNum + 1 := by
  rw [arrayOf, emptyEntries, List.length_append, List.length_replicate]
  omega

theorem room_of_check (h : SortedIn p rs) (hlast : ((arrayOf p rs).getD (p.mmapNum - 1) .empty).size = 0) :
    rs.length < p.mmapNum := by
  have hpos := p.mmap_num.1
  by_contra hge
  have hlen : rs.length = p.mmapNum := by
    have := h.room
    omega
  rw [arrayOf, List.getD_append _ _ _ _ (by omega), List.getD_eq_getElem _ _ (by omega)] at hlast
  exact h.size_ne_zero _ (List.getElem_mem _) hlast

theorem RegionIn.endPa_eq (h : RegionIn p mm) : lastByte mm.basePa mm.size = mm.endPa := by
  obtain ⟨n, hn, hphys⟩ := p.phys_valid
  have hpow : 2 ^ n ≤ 2 ^ 64 := Nat.pow_le_pow_right (by decide) hn.le
  have hbelow := h.pa_below
  exact lastByte_eq h.nonempty (by omega)

/-- What is known of a region that passes the check: the fields are values of their C types. -/
structure MmapRegion.Typed (p : Platform) (mm : MmapRegion) : Prop where
  baseVa : mm.baseVa < 2 ^ p.arch.bits
  basePa : mm.basePa < 2 ^ 64
  size : mm.size < 2 ^ p.arch.bits

/-- What the check has checked. -/
structure Checked (p : Platform) (mmap : List MmapRegion) (mm : MmapRegion) : Prop where
  aligned : isPageAligned mm.basePa ∧ isPageAligned mm.baseVa ∧ isPageAligned mm.size
  granularity : 4096 ≤ mm.granularity
  no_wrap : mm.basePa ≤ lastByte mm.basePa mm.size ∧ mm.baseVa ≤ p.lastVa mm.baseVa mm.size
  va_below : p.lastVa mm.baseVa mm.size ≤ p.vaMaxAddress
  pa_below : lastByte mm.basePa mm.size ≤ p.paMaxAddress
  last_empty : (mmap.getD (p.mmapNum - 1) .empty).size = 0
  overlaps : ∀ r ∈ activeRegions mmap, overlapOk p mm r = true

theorem checked_of_check {mmap : List MmapRegion} (h : mmapAddRegionCheck p mmap mm = .ok) :
    Checked p mmap mm := by
  unfold mmapAddRegionCheck at h
  simp only at h
  split at h
  · cases h
  next haligned =>
  split at h
  · cases h
  next hgran =>
  split at h
  · cases h
  next hwrap =>
  split at h
  · cases h
  next hva =>
  split at h
  · cases h
  next hpa =>
  split at h
  · cases h
  next hlast =>
  split at h
  · cases h
  next hover =>
  have hblocks : 4096 ≤ xlatBlockSize 1 ∧ 4096 ≤ xlatBlockSize 2 ∧ 4096 ≤ xlatBlockSize 3 := by decide
  exact ⟨not_not.mp haligned, by omega, by omega, not_lt.mp hva, not_lt.mp hpa, not_not.mp hlast,
    List.all_eq_true.mp (not_not.mp hover)⟩

theorem end_le_of_le_lastVa {base size : Nat} (hbase : base < 2 ^ p.arch.bits)
    (hsize : size < 2 ^ p.arch.bits) (hle : base ≤ p.lastVa base size) :
    base + size ≤ 2 ^ p.arch.bits := by
  by_contra hgt
  have hsum : base + size + (2 ^ p.arch.bits - 1) =
      base + size - 1 - 2 ^ p.arch.bits + 2 ^ p.arch.bits + 2 ^ p.arch.bits := by omega
  rw [Platform.lastVa, hsum, Nat.add_mod_right, Nat.add_mod_right, Nat.mod_eq_of_lt (by omega)] at hle
  omega

theorem Checked.regionIn {mmap : List MmapRegion} (h : Checked p mmap mm) (ht : mm.Typed p)
    (hne : mm.size ≠ 0) : RegionIn p mm := by
  have hbits : 2 ^ p.arch.bits ≤ 2 ^ 64 :=
    Nat.pow_le_pow_right (by decide) (by cases p.arch <;> decide)
  obtain ⟨hva, hpa, hsize⟩ := ht
  obtain ⟨⟨hpa0, hva0, hsize0⟩, hgran, ⟨hwrapPa, hwrapVa⟩, hbelowVa, hbelowPa, -, -⟩ := h
  unfold isPageAligned pageSize at hpa0 hva0 hsize0
  simp only [decide_eq_true_eq] at hpa0 hva0 hsize0
  obtain ⟨n, hn, hphys⟩ := p.phys_valid
  unfold Platform.vaMaxAddress at hbelowVa
  unfold Platform.paMaxAddress at hbelowPa
  -- the sums do not wrap
  have hendVa := end_le_of_le_lastVa hva hsize hwrapVa
  have hendPa : mm.basePa + mm.size ≤ 2 ^ 64 := by
    unfold lastByte at hwrapPa
    omega
  rw [lastVa_of_le (by omega) hendVa] at hbelowVa
  rw [lastByte_eq (by omega) hendPa] at hbelowPa
  exact ⟨by omega, hva0, hpa0, hsize0, by omega, by omega, hgran⟩

/-! ## The place of a region -/

variable {α : Type*} {l : List α} {q : α → Bool} {r x : MmapRegion} {a b : List MmapRegion}
  {f : MmapRegion → Nat} {ctx ctx' : Ctx} {i : Nat} {ret : Status}

theorem takeWhile_congr_of_mem {r : α → Bool} (h : ∀ x ∈ l, q x = r x) :
    l.takeWhile q = l.takeWhile r := by
  induction l with
  | nil => rfl
  | cons x l ih =>
    rw [List.forall_mem_cons] at h
    rw [List.takeWhile_cons, List.takeWhile_cons, h.1, ih h.2]

theorem takeWhile_append_of_stop {x : α} (hx : x ∈ l) (hq : q x = false) (l' : List α) :
    (l ++ l').takeWhile q = l.takeWhile q := by
  rw [List.takeWhile_append, if_neg]
  intro hlen
  have hall := (List.takeWhile_prefix q).eq_of_length hlen
  rw [← hall] at hx
  rw [List.mem_takeWhile_imp hx] at hq
  cases hq

theorem length_takeWhile_or {r : α → Bool} (h : ∀ x ∈ l.dropWhile q, q x = false) :
    (l.takeWhile q).length + ((l.dropWhile q).takeWhile r).length = (l.takeWhile fun x => q x || r x).length := by
  induction l with
  | nil => rfl
  | cons x l ih =>
    rw [List.dropWhile_cons] at h ⊢
    cases hx : q x with
    | true =>
      rw [if_pos hx] at h
      have := ih h
      simp only [List.takeWhile_cons, hx, if_true, Bool.true_or, List.length_cons]
      omega
    | false =>
      rw [if_neg (Bool.not_eq_true _ ▸ hx)] at h
      have hsame : (x :: l).takeWhile r = (x :: l).takeWhile fun y => q y || r y :=
        takeWhile_congr_of_mem fun y hy => by rw [h y hy, Bool.false_or]
      simp only [if_false, Bool.false_eq_true]
      rw [hsame, List.takeWhile_cons_of_neg (by simp [hx]), List.length_nil, Nat.zero_add]

theorem takeWhile_append_of_nil (l : List α) {l' : List α} (h : l'.takeWhile q = []) :
    (l ++ l').takeWhile q = l.takeWhile q := by
  rw [List.takeWhile_append, h, List.append_nil]
  split
  · next hlen => exact ((List.takeWhile_prefix q).eq_of_length hlen).symm
  · rfl

/-- Where a region stands among the others. -/
def place (rs : List MmapRegion) (mm : MmapRegion) : Nat :=
  (rs.takeWhile fun r => ¬ mm.Before r).length

theorem place_le (rs : List MmapRegion) (mm : MmapRegion) : place rs mm ≤ rs.length :=
  (List.takeWhile_prefix _).length_le

theorem lastVa_empty (p : Platform) : p.lastVa empty.baseVa empty.size =
    2 ^ p.arch.bits - 1 := by
  have hpos := Nat.two_pow_pos p.arch.bits
  unfold Platform.lastVa empty
  rw [Nat.zero_add, Nat.zero_add, Nat.mod_eq_of_lt (by omega)]

theorem endVa_eq_last (hmm : RegionIn p mm) : mm.endVa = 2 ^ p.arch.bits - 1 ↔
    p.arch = .aarch32 ∧ mm.baseVa + mm.size = 2 ^ 32 := by
  have hbelow := hmm.below
  have hspace : p.virtAddrSpaceSize ≤ 2 ^ 48 := by
    obtain ⟨n, _, hn, h⟩ := p.virt_valid
    rw [h]
    exact Nat.pow_le_pow_right (by decide) hn
  unfold endVa
  cases harch : p.arch with
  | aarch64 =>
    simp only [Arch.bits, reduceCtorEq, false_and, iff_false]
    omega
  | aarch32 =>
    simp only [Arch.bits, true_and]
    omega

def endsBefore (p : Platform) (mm r : MmapRegion) : Bool :=
  p.lastVa r.baseVa r.size < p.lastVa mm.baseVa mm.size ∧ r.size ≠ 0

def endsWith (p : Platform) (mm r : MmapRegion) : Bool :=
  p.lastVa r.baseVa r.size = p.lastVa mm.baseVa mm.size ∧ r.size < mm.size

theorem endsBefore_iff (hmm : RegionIn p mm) (hr : RegionIn p r) :
    endsBefore p mm r = true ↔ r.endVa < mm.endVa := by
  have hne := hr.nonempty
  rw [endsBefore, hmm.lastVa_eq, hr.lastVa_eq, decide_eq_true_iff]
  exact and_iff_left hne.ne'

theorem endsWith_iff (hmm : RegionIn p mm) (hr : RegionIn p r) :
    endsWith p mm r = true ↔ r.endVa = mm.endVa ∧ r.size < mm.size := by
  rw [endsWith, hmm.lastVa_eq, hr.lastVa_eq, decide_eq_true_iff]
  rfl

theorem SortedIn.not_endsBefore (h : SortedIn p rs) (hmm : RegionIn p mm) :
    ∀ r ∈ rs.dropWhile (endsBefore p mm), endsBefore p mm r = false := by
  intro r hr
  rw [← Bool.not_eq_true]
  refine not_of_mem_dropWhile (List.Pairwise.and_mem.mp h.sorted) (fun a ha b hab hb => ?_) r hr
  obtain ⟨-, hmem, hbefore⟩ := hab
  rw [endsBefore_iff hmm (h.regions b hmem)] at hb
  rw [endsBefore_iff hmm (h.regions a ha)]
  unfold MmapRegion.Before at hbefore
  omega

theorem mem_dropWhile_of_not (hr : r ∈ rs) (hq : endsBefore p mm r = false) :
    r ∈ rs.dropWhile (endsBefore p mm) := by
  rw [← List.takeWhile_append_dropWhile (p := endsBefore p mm) (l := rs)] at hr
  rcases List.mem_append.mp hr with hr | hr
  · rw [List.mem_takeWhile_imp hr] at hq
    cases hq
  · exact hr

theorem SortedIn.place_eq (h : SortedIn p rs) (hmm : RegionIn p mm) : (rs.takeWhile (endsBefore p mm)).length +
      ((rs.dropWhile (endsBefore p mm)).takeWhile (endsWith p mm)).length = place rs mm := by
  rw [length_takeWhile_or (h.not_endsBefore hmm), place]
  refine congrArg List.length (takeWhile_congr_of_mem fun r hr => Bool.eq_iff_iff.mpr ?_)
  rw [Bool.or_eq_true, endsBefore_iff hmm (h.regions r hr), endsWith_iff hmm (h.regions r hr), decide_eq_true_iff]
  unfold MmapRegion.Before
  omega

/-- The cursor stops at the place of the region, or it runs over the empty entries. -/
theorem findCursor_eq (h : SortedIn p rs) (hmm : RegionIn p mm) :
    findCursor p (arrayOf p rs) mm = if Stopped p rs mm then some (place rs mm) else none := by
  have hroom := h.room
  have hplace := place_le rs mm
  have hlower : (arrayOf p rs).takeWhile (endsBefore p mm) = rs.takeWhile (endsBefore p mm) := by
    refine takeWhile_append_of_nil rs ?_
    rw [emptyEntries, List.takeWhile_replicate, if_neg]
    simp [endsBefore, empty]
  have hsplit : arrayOf p rs = rs.takeWhile (endsBefore p mm) ++ (rs.dropWhile (endsBefore p mm) ++
      emptyEntries p rs) := by
    rw [← List.append_assoc, List.takeWhile_append_dropWhile, arrayOf]
  have hlen := length_arrayOf h.room
  have hcursor : ∀ l, (arrayOf p rs).takeWhile (endsBefore p mm) = l → findCursor p (arrayOf p rs) mm =
      let cursor := l.length + (((arrayOf p rs).drop l.length).takeWhile (endsWith p mm)).length
      if cursor < (arrayOf p rs).length then some cursor else none := by
    rintro _ rfl
    rfl
  have hdrop : (arrayOf p rs).drop (rs.takeWhile (endsBefore p mm)).length =
      rs.dropWhile (endsBefore p mm) ++ emptyEntries p rs := by
    rw [hsplit]
    exact List.drop_left
  rw [hcursor _ hlower, hdrop, hlen]
  by_cases hstop : Stopped p rs mm
  · have hrun : (rs.dropWhile (endsBefore p mm) ++ emptyEntries p rs).takeWhile (endsWith p mm) =
          (rs.dropWhile (endsBefore p mm)).takeWhile (endsWith p mm) := by
      by_cases hlast : mm.endVa = 2 ^ p.arch.bits - 1
      · obtain ⟨harch, hend⟩ := (endVa_eq_last hmm).mp hlast
        obtain ⟨r, hr, hrend, hsize⟩ := hstop harch hend
        have hnot : endsBefore p mm r = false := by
          rw [← Bool.not_eq_true, endsBefore_iff hmm (h.regions r hr)]
          unfold endVa
          omega
        refine takeWhile_append_of_stop (mem_dropWhile_of_not hr hnot) ?_ _
        rw [← Bool.not_eq_true, endsWith_iff hmm (h.regions r hr)]
        omega
      · refine takeWhile_append_of_nil _ ?_
        rw [emptyEntries, List.takeWhile_replicate, if_neg]
        rw [endsWith, lastVa_empty, hmm.lastVa_eq, decide_eq_true_iff]
        exact fun hc => hlast hc.1.symm
    rw [hrun, h.place_eq hmm, if_pos (by omega), if_pos hstop]
  · obtain ⟨harch, hnot⟩ := Classical.not_imp.mp hstop
    obtain ⟨hend, hnone⟩ := Classical.not_imp.mp hnot
    have hlast := (endVa_eq_last hmm).mpr ⟨harch, hend⟩
    have hall : (rs.dropWhile (endsBefore p mm) ++ emptyEntries p rs).takeWhile (endsWith p mm) =
        rs.dropWhile (endsBefore p mm) ++ emptyEntries p rs := by
      refine List.takeWhile_eq_self_iff.mpr fun r hr => ?_
      rcases List.mem_append.mp hr with hr | hr
      · -- it ends there too, and it is not large enough
        have hmem := (List.dropWhile_sublist _).subset hr
        have hin := h.regions r hmem
        have hlate := h.not_endsBefore hmm r hr
        rw [← Bool.not_eq_true, endsBefore_iff hmm hin] at hlate
        have hbelow := p.space_le_bits hin.below
        rw [endsWith_iff hmm hin]
        unfold endVa at hlate hlast ⊢
        exact ⟨by omega, not_le.mp fun hle => hnone ⟨r, hmem, by omega, hle⟩⟩
      · rw [List.eq_of_mem_replicate hr, endsWith, lastVa_empty, hmm.lastVa_eq, decide_eq_true_iff]
        exact ⟨hlast.symm, hmm.nonempty⟩
    have hlength := congrArg List.length hsplit
    rw [hlen, List.length_append] at hlength
    rw [hall, ← hlength, if_neg (lt_irrefl _), if_neg hstop]

theorem SortedIn.cursor_eq (h : SortedIn p rs) (hmm : RegionIn p mm)
    (hcursor : findCursor p (arrayOf p rs) mm = some i) : place rs mm = i := by
  rw [findCursor_eq h hmm] at hcursor
  split at hcursor
  · exact Option.some.inj hcursor
  · cases hcursor

/-! ## Opening and closing a place -/

theorem memmove_insert (a : List MmapRegion) {rest : List MmapRegion} {n : Nat} (hn : n < rest.length)
    (mm : MmapRegion) : (memmove (a ++ rest) (a.length + 1) a.length n).set a.length mm =
      a ++ mm :: (rest.take n ++ rest.drop (n + 1)) := by
  cases rest with
  | nil => exact absurd hn (Nat.not_lt_zero n)
  | cons x rest =>
    have htake : (a ++ x :: rest).take (a.length + 1) = a ++ [x] := by
      rw [List.take_length_add_append]
      rfl
    have hdrop : (a ++ x :: rest).drop (a.length + 1 + n) = rest.drop n := by
      rw [Nat.add_assoc, List.drop_length_add_append, Nat.add_comm 1 n]
      rfl
    rw [memmove, htake, hdrop, List.drop_left, List.append_assoc, List.append_assoc,
      List.set_append_right _ _ (le_refl a.length), Nat.sub_self]
    rfl

theorem memmove_remove (a : List MmapRegion) (x : MmapRegion) (rest : List MmapRegion) :
    memmove (a ++ x :: rest) a.length (a.length + 1) rest.length = a ++ rest ++ (x :: rest).drop rest.length := by
  have hdrop : (a ++ x :: rest).drop (a.length + 1) = rest := by
    rw [List.drop_length_add_append]
    rfl
  rw [memmove, hdrop, List.take_left, List.take_length, List.drop_length_add_append]

/-- Whichever of the empty entries is overwritten, the array then has the region in its place. -/
theorem array_insert (hroom : rs.length < p.mmapNum) (mm : MmapRegion) {n : Nat}
    (hlow : rs.length - place rs mm ≤ n) (hhigh : n ≤ p.mmapNum - place rs mm) :
    (memmove (arrayOf p rs) (place rs mm + 1) (place rs mm) n).set (place rs mm) mm =
      arrayOf p (rs.orderedInsert MmapRegion.Before mm) := by
  have hparts : (rs.takeWhile fun r => ¬ mm.Before r) ++ (rs.dropWhile fun r => ¬ mm.Before r) = rs :=
    List.takeWhile_append_dropWhile
  rw [List.orderedInsert_eq_take_drop]
  unfold place at hlow hhigh ⊢
  generalize (rs.takeWhile fun r => ¬ mm.Before r) = a at hparts hlow hhigh ⊢
  generalize (rs.dropWhile fun r => ¬ mm.Before r) = b at hparts ⊢
  subst hparts
  rw [List.length_append] at hroom hlow
  have htake : (b ++ emptyEntries p (a ++ b)).take n =
      b ++ List.replicate (n - b.length) empty := by
    rw [emptyEntries, List.take_append, List.take_of_length_le (by omega), List.take_replicate,
      List.length_append, Nat.min_eq_left (by omega)]
  have hdrop : (b ++ emptyEntries p (a ++ b)).drop (n + 1) =
      List.replicate (p.mmapNum - (a.length + n)) empty := by
    rw [emptyEntries, List.drop_append, List.drop_of_length_le (by omega), List.drop_replicate,
      List.length_append, List.nil_append]
    congr 1
    omega
  rw [arrayOf, List.append_assoc, memmove_insert a (by
    rw [emptyEntries, List.length_append, List.length_replicate, List.length_append]; omega), htake,
    hdrop, List.append_assoc, List.replicate_append_replicate, arrayOf, emptyEntries,
    List.length_append, List.length_cons, List.append_assoc, List.cons_append]
  congr 4
  omega

/-- Without the region at a place, the entries behind it move up and an empty one follows. -/
theorem array_remove (hroom : (a ++ x :: b).length ≤ p.mmapNum) :
    memmove (arrayOf p (a ++ x :: b)) a.length (a.length + 1) (p.mmapNum - a.length) =
      arrayOf p (a ++ b) := by
  rw [List.length_append, List.length_cons] at hroom
  have hlen : (b ++ emptyEntries p (a ++ x :: b)).length = p.mmapNum - a.length := by
    rw [emptyEntries, List.length_append, List.length_replicate, List.length_append, List.length_cons]
    omega
  have hlast : (x :: (b ++ emptyEntries p (a ++ x :: b))).drop (p.mmapNum - a.length) = [empty] := by
    obtain ⟨k, hk⟩ : ∃ k, p.mmapNum - a.length = k + 1 := ⟨p.mmapNum - a.length - 1, by omega⟩
    rw [hk, List.drop_succ_cons, emptyEntries, List.drop_append, List.drop_of_length_le (by omega),
      List.drop_replicate, List.nil_append, List.length_append, List.length_cons]
    rw [show p.mmapNum + 1 - (a.length + (b.length + 1)) - (k - b.length) = 1 by omega]
    rfl
  rw [arrayOf, List.append_assoc, List.cons_append, ← hlen, memmove_remove, hlen, hlast]
  have hmore : emptyEntries p (a ++ b) = emptyEntries p (a ++ x :: b) ++ [empty] := by
    rw [emptyEntries, emptyEntries, ← List.replicate_succ', List.length_append, List.length_append, List.length_cons]
    congr 1
    omega
  rw [arrayOf, hmore]
  simp only [List.append_assoc]

theorem array_undo (hroom : rs.length < p.mmapNum) (mm : MmapRegion) :
    memmove (arrayOf p (rs.orderedInsert MmapRegion.Before mm)) (place rs mm) (place rs mm + 1)
      (p.mmapNum - place rs mm) = arrayOf p rs := by
  have hparts : (rs.takeWhile fun r => ¬ mm.Before r) ++ (rs.dropWhile fun r => ¬ mm.Before r) = rs :=
    List.takeWhile_append_dropWhile
  have hlen := List.orderedInsert_length MmapRegion.Before rs mm
  rw [List.orderedInsert_eq_take_drop] at hlen ⊢
  rw [place, array_remove (by omega), hparts]

/-! ## The largest end address -/

/-- `m` is the largest of the values, or 0 if there are none. -/
structure Largest (f : MmapRegion → Nat) (rs : List MmapRegion) (m : Nat) : Prop where
  none : rs = [] → m = 0
  some : rs ≠ [] → ∃ r ∈ rs, f r = m
  le : ∀ r ∈ rs, f r ≤ m

theorem Largest.add {m : Nat} {rs' : List MmapRegion} (h : Largest f rs m)
    (hmem : ∀ r, r ∈ rs' ↔ r = mm ∨ r ∈ rs) : Largest f rs' (max m (f mm)) := by
  refine ⟨fun hnil => ?_, fun _ => ?_, fun r hr => ?_⟩
  · have := (hmem mm).mpr (.inl rfl)
    rw [hnil] at this
    cases this
  · rcases le_total m (f mm) with hle | hle
    · exact ⟨mm, (hmem mm).mpr (.inl rfl), (max_eq_right hle).symm⟩
    · by_cases hrs : rs = []
      · exact ⟨mm, (hmem mm).mpr (.inl rfl), by have := h.none hrs; omega⟩
      · obtain ⟨r, hr, heq⟩ := h.some hrs
        exact ⟨r, (hmem r).mpr (.inr hr), by omega⟩
  · rcases (hmem r).mp hr with rfl | hr
    · exact le_max_right _ _
    · exact (h.le r hr).trans (le_max_left _ _)

theorem mem_middle : r ∈ a ++ x :: b ↔ r = x ∨ r ∈ a ++ b :=
  List.perm_middle.mem_iff.trans List.mem_cons

theorem Largest.remove {m : Nat} (h : Largest f (a ++ x :: b) m) (hx : f x ≠ m) :
    Largest f (a ++ b) m := by
  obtain ⟨r, hr, heq⟩ := h.some (by simp)
  have hr' : r ∈ a ++ b := (mem_middle.mp hr).resolve_left fun hrx => hx (hrx ▸ heq)
  refine ⟨fun hnil => ?_, fun _ => ⟨r, hr', heq⟩, fun s hs => h.le s (mem_middle.mpr (.inr hs))⟩
  rw [hnil] at hr'
  cases hr'

theorem largest_maxEnd {g : MmapRegion → Nat} (h : ∀ r ∈ rs, f r = g r) :
    Largest g rs (maxEnd f rs) := by
  induction rs using List.reverseRecOn with
  | nil => exact ⟨fun _ => rfl, fun hne => absurd rfl hne, fun _ hr => nomatch hr⟩
  | append_singleton rs x ih =>
    have hx := h x (by simp)
    have hend : maxEnd f (rs ++ [x]) = max (maxEnd f rs) (g x) := by
      rw [maxEnd, List.foldl_append, List.foldl_cons, List.foldl_nil, ← maxEnd, ← hx]
      split <;> omega
    rw [hend]
    exact (ih fun r hr => h r (List.mem_append_left _ hr)).add fun r => by
      rw [List.mem_append, List.mem_singleton, or_comm]

/-! ## What the calls do with the array -/

theorem distinct_of_overlapOk (h : overlapOk p mm r = true) :
    mm.baseVa ≠ r.baseVa ∨ mm.size ≠ r.size := by
  by_contra hsame
  rw [not_or, not_not, not_not] at hsame
  unfold overlapOk at h
  simp only [hsame.1, hsame.2] at h
  rw [if_pos (by omega), decide_eq_true_iff] at h
  simp at h

theorem SortedIn.insert (h : SortedIn p rs) (hmm : RegionIn p mm) (hcheck : Checked p (arrayOf p rs) mm) :
    SortedIn p (rs.orderedInsert MmapRegion.Before mm) := by
  have hover := hcheck.overlaps
  rw [activeRegions_arrayOf h.size_ne_zero] at hover
  refine ⟨fun r hr => ?_, h.sorted.orderedInsert mm rs, ?_, ?_⟩
  · rcases (List.mem_orderedInsert _).mp hr with rfl | hr
    · exact hmm
    · exact h.regions r hr
  · refine ((List.perm_orderedInsert _ mm rs).pairwise_iff fun hab => ?_).mpr
      (List.pairwise_cons.mpr ⟨fun r hr => distinct_of_overlapOk (hover r hr), h.distinct⟩)
    exact hab.imp Ne.symm Ne.symm
  · rw [List.orderedInsert_length]
    exact room_of_check h hcheck.last_empty

theorem SortedIn.remove (h : SortedIn p (a ++ x :: b)) : SortedIn p (a ++ b) := by
  have hsub : (a ++ b).Sublist (a ++ x :: b) := (List.sublist_cons_self x b).append_left a
  refine ⟨fun r hr => h.regions r (hsub.subset hr), h.sorted.sublist hsub, h.distinct.sublist hsub, ?_⟩
  exact hsub.length_le.trans h.room

/-- The array of a context has the regions `rs` in it. -/
structure Keeps (p : Platform) (ctx : Ctx) (rs : List MmapRegion) : Prop where
  array : ctx.mmap = arrayOf p rs
  sorted : SortedIn p rs
  maxVa : Largest MmapRegion.endVa rs ctx.maxVa
  maxPa : Largest MmapRegion.endPa rs ctx.maxPa

theorem Keeps.congr (h : Keeps p ctx rs) (hmmap : ctx'.mmap = ctx.mmap)
    (hva : ctx'.maxVa = ctx.maxVa) (hpa : ctx'.maxPa = ctx.maxPa) : Keeps p ctx' rs :=
  ⟨hmmap.trans h.array, h.sorted, hva ▸ h.maxVa, hpa ▸ h.maxPa⟩

theorem Keeps.insert (h : Keeps p ctx rs) (hmm : RegionIn p mm) (hcheck : Checked p ctx.mmap mm)
    (hmmap : ctx'.mmap = arrayOf p (rs.orderedInsert MmapRegion.Before mm))
    (hva : ctx'.maxVa = max ctx.maxVa (p.lastVa mm.baseVa mm.size))
    (hpa : ctx'.maxPa = max ctx.maxPa (lastByte mm.basePa mm.size)) :
    Keeps p ctx' (rs.orderedInsert MmapRegion.Before mm) := by
  rw [h.array] at hcheck
  rw [hmm.lastVa_eq] at hva
  rw [hmm.endPa_eq] at hpa
  exact ⟨hmmap, h.sorted.insert hmm hcheck, hva ▸ h.maxVa.add fun r => List.mem_orderedInsert _,
    hpa ▸ h.maxPa.add fun r => List.mem_orderedInsert _⟩

theorem mmapAddRegionCtx_keeps (h : Keeps p ctx rs) (ht : mm.Typed p) (hadd : mmapAddRegionCtx p ctx mm = .ok ctx') :
    if mm.size = 0 then ctx' = ctx else Keeps p ctx' (rs.orderedInsert MmapRegion.Before mm) := by
  unfold mmapAddRegionCtx at hadd
  split
  · next hzero =>
    rw [if_pos hzero] at hadd
    cases hadd
    rfl
  next hne =>
  rw [if_neg hne] at hadd
  split at hadd
  · cases hadd
  split at hadd
  · cases hadd
  next hok =>
  have hcheck := checked_of_check (not_not.mp hok)
  have hmm := hcheck.regionIn ht hne
  have hroom := room_of_check h.sorted (h.array ▸ hcheck.last_empty)
  rw [h.array, activeRegions_arrayOf h.sorted.size_ne_zero] at hadd
  split at hadd
  · cases hadd
  next mmCursor hcursor =>
  obtain rfl := h.sorted.cursor_eq hmm hcursor
  simp only at hadd
  split at hadd
  · cases hadd
  split at hadd
  · cases hadd
  cases hadd
  refine h.insert hmm hcheck ?_ rfl rfl
  exact array_insert hroom mm (by omega) (by omega)

theorem ok_of_bind {α β : Type} {x : Except Fault α} {f : α → Except Fault β} {b : β}
    (h : (x >>= f) = .ok b) : ∃ a, x = .ok a ∧ f a = .ok b := by
  cases x with
  | error e => cases h
  | ok a => exact ⟨a, rfl, h⟩

theorem ok_of_map {α β : Type} {x : Except Fault α} {f : α → β} {b : β} (h : x.map f = .ok b) :
    ∃ a, x = .ok a ∧ f a = b := by
  cases x with
  | error e => cases h
  | ok a => exact ⟨a, rfl, Except.ok.inj h⟩

theorem mapDynamicRegion_cases (h : mapDynamicRegion p ctx i mm = .ok (ret, ctx')) :
    (ret = .enomem ∧ ∃ st, ctx' = { ctx with
      mmap := memmove ctx.mmap i (i + 1) (p.mmapNum - i), tables := st }) ∨
    ret = .ok ∧ ∃ st, ctx' = { ctx with
      tables := st
      maxPa := max ctx.maxPa (lastByte mm.basePa mm.size)
      maxVa := max ctx.maxVa (p.lastVa mm.baseVa mm.size) } := by
  obtain ⟨⟨endVa, st⟩, -, h⟩ := ok_of_bind h
  simp only at h
  split at h
  · refine .inl ?_
    split at h
    · cases h
      exact ⟨rfl, st, rfl⟩
    · obtain ⟨st', -, h⟩ := ok_of_bind h
      cases h
      exact ⟨rfl, st', rfl⟩
  · cases h
    exact .inr ⟨rfl, st, rfl⟩

/-- The region as `mmap_add_dynamic_region_ctx` records it. -/
def MmapRegion.asDynamic (mm : MmapRegion) : MmapRegion :=
  { mm with attr := { mm.attr with dynamic := true } }

theorem mmapAddDynamicRegionCtx_keeps (h : Keeps p ctx rs) (ht : mm.Typed p)
    (hadd : mmapAddDynamicRegionCtx p ctx mm = .ok (ret, ctx')) :
    if mm.size = 0 ∨ ret ≠ .ok then Keeps p ctx' rs
    else Keeps p ctx' (rs.orderedInsert MmapRegion.Before mm.asDynamic) := by
  unfold mmapAddDynamicRegionCtx at hadd
  split at hadd
  · next hzero =>
    cases hadd
    rw [if_pos (.inl hzero)]
    exact h
  next hne =>
  rw [← asDynamic] at hadd
  simp only at hadd
  split at hadd
  · next hret =>
    cases hadd
    rw [if_pos (.inr hret)]
    exact h
  next hok =>
  have hcheck := checked_of_check (not_not.mp hok)
  have hmm : RegionIn p mm.asDynamic := hcheck.regionIn ⟨ht.baseVa, ht.basePa, ht.size⟩ hne
  have hroom := room_of_check h.sorted (h.array ▸ hcheck.last_empty)
  rw [h.array] at hadd
  split at hadd
  · cases hadd
  next mmCursor hcursor =>
  obtain rfl := h.sorted.cursor_eq hmm hcursor
  rw [array_insert hroom mm.asDynamic (by omega) le_rfl] at hadd
  split at hadd
  · cases hadd
  split at hadd
  · rcases mapDynamicRegion_cases hadd with ⟨rfl, st, rfl⟩ | ⟨rfl, st, rfl⟩
    · rw [if_pos (.inr (by decide))]
      exact h.congr ((array_undo hroom mm.asDynamic).trans h.array.symm) rfl rfl
    · rw [if_neg (by simp [hne])]
      exact h.insert hmm hcheck rfl rfl rfl
  · cases hadd
    rw [if_neg (by simp [hne])]
    exact h.insert hmm hcheck rfl rfl rfl

theorem split_at (hi : i < l.length) : l = l.take i ++ l[i] :: l.drop (i + 1) := by
  rw [List.getElem_cons_drop, List.take_append_drop]

theorem Keeps.remove (h : Keeps p ctx rs) (hi : i < rs.length)
    (hmmap : ctx'.mmap = memmove (arrayOf p rs) i (i + 1) (p.mmapNum - i))
    (hva : ctx'.maxVa = if p.lastVa rs[i].baseVa rs[i].size = ctx.maxVa then
      maxEnd (fun mm => p.lastVa mm.baseVa mm.size) (activeRegions ctx'.mmap) else ctx.maxVa)
    (hpa : ctx'.maxPa = if lastByte rs[i].basePa rs[i].size = ctx.maxPa then
      maxEnd (fun mm => lastByte mm.basePa mm.size) (activeRegions ctx'.mmap) else ctx.maxPa) :
    Keeps p ctx' (rs.take i ++ rs.drop (i + 1)) := by
  have hsplit := split_at hi
  have hin := h.sorted.regions _ (List.getElem_mem hi)
  have hlen : (rs.take i).length = i := List.length_take_of_le hi.le
  have harray : memmove (arrayOf p rs) i (i + 1) (p.mmapNum - i) =
      arrayOf p (rs.take i ++ rs.drop (i + 1)) := by
    have hmove := array_remove (hsplit ▸ h.sorted.room)
    rw [← hsplit] at hmove
    rwa [hlen] at hmove
  have hsorted : SortedIn p (rs.take i ++ rs.drop (i + 1)) := (hsplit ▸ h.sorted).remove
  rw [harray] at hmmap
  rw [hmmap, activeRegions_arrayOf hsorted.size_ne_zero, hin.lastVa_eq] at hva
  rw [hmmap, activeRegions_arrayOf hsorted.size_ne_zero, hin.endPa_eq] at hpa
  refine ⟨hmmap, hsorted, ?_, ?_⟩
  · rw [hva]
    split
    · exact largest_maxEnd fun r hr => (hsorted.regions r hr).lastVa_eq
    · next hne => exact (hsplit ▸ h.maxVa).remove hne
  · rw [hpa]
    split
    · exact largest_maxEnd fun r hr => (hsorted.regions r hr).endPa_eq
    · next hne => exact (hsplit ▸ h.maxPa).remove hne

theorem mmapRemoveDynamicRegionCtx_keeps {baseVa size : Nat} (h : Keeps p ctx rs)
    (hremove : mmapRemoveDynamicRegionCtx p ctx baseVa size = .ok (ret, ctx')) :
    if ret = .ok then ∃ a x b, rs = a ++ x :: b ∧ x.baseVa = baseVa ∧ x.size = size ∧
      Keeps p ctx' (a ++ b)
    else Keeps p ctx' rs := by
  unfold mmapRemoveDynamicRegionCtx at hremove
  split at hremove
  · cases hremove
  rw [h.array, activeRegions_arrayOf h.sorted.size_ne_zero] at hremove
  simp only at hremove
  split at hremove
  · cases hremove
    exact h
  next i hfind =>
  obtain ⟨hi, hx, -⟩ := List.findIdx?_eq_some_iff_getElem.mp hfind
  rw [decide_eq_true_iff] at hx
  have hget : (arrayOf p rs).getD i .empty = rs[i] := by
    rw [arrayOf, List.getD_append _ _ _ _ hi, List.getD_eq_getElem _ _ hi]
  rw [hget] at hremove
  split at hremove
  · cases hremove
    exact h
  split at hremove
  · obtain ⟨st, -, hremove⟩ := ok_of_bind hremove
    cases hremove
    rw [if_pos rfl]
    exact ⟨_, _, _, split_at hi, hx.1, hx.2, h.remove hi rfl rfl (by simp only)⟩
  · cases hremove
    rw [if_pos rfl]
    exact ⟨_, _, _, split_at hi, hx.1, hx.2, h.remove hi rfl rfl (by simp only)⟩

theorem initXlatTablesCtx_keeps (h : Keeps p ctx rs) (hinit : initXlatTablesCtx p ctx = .ok ctx') :
    Keeps p ctx' rs := by
  unfold initXlatTablesCtx at hinit
  split at hinit
  · cases hinit
  obtain ⟨st, -, hinit⟩ := ok_of_bind hinit
  split at hinit
  · cases hinit
    exact h.congr rfl rfl rfl
  · cases hinit

end Array

/-! ## Runs -/

inductive RegionCall
  | addRegion (mm : MmapRegion)
  | addDynamicRegion (mm : MmapRegion)
  | removeDynamicRegion (baseVa size : Nat)
  | initXlatTables

def RegionCall.run (p : Platform) (ctx : Ctx) : RegionCall → Except Fault (Status × Ctx)
  | .addRegion mm => (mmapAddRegionCtx p ctx mm).map fun ctx => (.ok, ctx)
  | .addDynamicRegion mm => mmapAddDynamicRegionCtx p ctx mm
  | .removeDynamicRegion baseVa size => mmapRemoveDynamicRegionCtx p ctx baseVa size
  | .initXlatTables => (initXlatTablesCtx p ctx).map fun ctx => (.ok, ctx)

/-- The regions accepted and not removed, after a call that has returned `ret`. -/
def RegionCall.record (accepted : Set MmapRegion) (ret : Status) : RegionCall → Set MmapRegion
  | .addRegion mm => if mm.size = 0 then accepted else insert mm accepted
  | .addDynamicRegion mm =>
    if mm.size = 0 ∨ ret ≠ .ok then accepted else insert mm.asDynamic accepted
  | .removeDynamicRegion baseVa size =>
    if ret = .ok then accepted \ {r | r.baseVa = baseVa ∧ r.size = size} else accepted
  | .initXlatTables => accepted

/-- A context, and the regions accepted and not removed. -/
structure Recording where
  ctx : Ctx
  accepted : Set MmapRegion

def Recording.Step (p : Platform) (s : Recording) (c : RegionCall) (s' : Recording) : Prop :=
  ∃ ret, c.run p s.ctx = .ok (ret, s'.ctx) ∧ s'.accepted = c.record s.accepted ret

/-- If the region passes the check, the cursor does not run over the empty entries. -/
def Recording.Allowed (p : Platform) (s : Recording) : RegionCall → Prop
  | .addRegion mm => mm.Typed p ∧ (mm.size ≠ 0 → mmapAddRegionCheck p s.ctx.mmap mm = .ok →
      Stopped p (activeRegions s.ctx.mmap) mm)
  | .addDynamicRegion mm => mm.Typed p ∧ (mm.size ≠ 0 →
      mmapAddRegionCheck p s.ctx.mmap mm.asDynamic = .ok → Stopped p (activeRegions s.ctx.mmap) mm)
  | _ => True

/-- A context as `REGISTER_XLAT_CONTEXT` makes it. -/
def freshCtx (p : Platform) (tables : Tables) : Ctx :=
  { mmap := arrayOf p [], tables, maxPa := 0, maxVa := 0, initialized := false }

section Runs

variable {p : Platform} {s s' : Recording}

/-- The array holds what has been recorded. -/
def Recording.Exact (p : Platform) (s : Recording) : Prop :=
  ∃ rs, Keeps p s.ctx rs ∧ ∀ r, r ∈ rs ↔ r ∈ s.accepted

theorem exact_fresh (p : Platform) (tables : Tables) : Recording.Exact p ⟨freshCtx p tables, ∅⟩ := by
  have hnone : ∀ f, Largest f [] 0 := fun f =>
    ⟨fun _ => rfl, fun hne => absurd rfl hne, fun r hr => nomatch hr⟩
  exact ⟨[], ⟨rfl, ⟨by simp, .nil, .nil, Nat.zero_le _⟩, hnone _, hnone _⟩, by simp⟩

theorem Recording.Exact.insert {mm : MmapRegion} {ctx : Ctx} {rs : List MmapRegion}
    (hexact : ∀ r, r ∈ rs ↔ r ∈ s.accepted)
    (h : Keeps p ctx (rs.orderedInsert MmapRegion.Before mm)) :
    Recording.Exact p ⟨ctx, Insert.insert mm s.accepted⟩ := by
  refine ⟨_, h, fun r => ?_⟩
  rw [List.mem_orderedInsert, hexact, Set.mem_insert_iff]

theorem Recording.Exact.remove {ctx : Ctx} {a b : List MmapRegion} {x : MmapRegion}
    (hsorted : SortedIn p (a ++ x :: b)) (hexact : ∀ r, r ∈ a ++ x :: b ↔ r ∈ s.accepted)
    (h : Keeps p ctx (a ++ b)) :
    Recording.Exact p ⟨ctx, s.accepted \ {r | r.baseVa = x.baseVa ∧ r.size = x.size}⟩ := by
  have hdistinct := (List.perm_middle.pairwise_iff fun hab => hab.imp Ne.symm Ne.symm).mp hsorted.distinct
  refine ⟨_, h, fun r => ?_⟩
  rw [Set.mem_sdiff, Set.mem_ofPred_eq, ← hexact, mem_middle]
  constructor
  · intro hr
    have := (List.pairwise_cons.mp hdistinct).1 r hr
    exact ⟨.inr hr, by omega⟩
  · rintro ⟨rfl | hr, hne⟩
    · exact absurd ⟨rfl, rfl⟩ hne
    · exact hr

/-- Every call keeps the array equal to the record. -/
theorem Recording.Exact.step {c : RegionCall} (h : s.Exact p) (hallow : s.Allowed p c)
    (hstep : Recording.Step p s c s') : s'.Exact p := by
  obtain ⟨rs, hkeeps, hexact⟩ := h
  obtain ⟨ctx', accepted'⟩ := s'
  obtain ⟨ret, hrun, rfl⟩ := hstep
  cases c with
  | addRegion mm =>
    obtain ⟨ctx, hadd, hrun⟩ := ok_of_map hrun
    cases hrun
    have hkeeps' := mmapAddRegionCtx_keeps hkeeps hallow.1 hadd
    unfold RegionCall.record
    split at hkeeps'
    · next hzero =>
      simp only [hzero, if_true]
      exact ⟨rs, hkeeps' ▸ hkeeps, hexact⟩
    · next hne =>
      simp only [hne, if_false]
      exact .insert hexact hkeeps'
  | addDynamicRegion mm =>
    have hkeeps' := mmapAddDynamicRegionCtx_keeps hkeeps hallow.1 hrun
    unfold RegionCall.record
    split at hkeeps'
    · next hsame =>
      simp only [hsame, if_true]
      exact ⟨rs, hkeeps', hexact⟩
    · next hnew =>
      simp only [hnew, if_false]
      exact .insert hexact hkeeps'
  | removeDynamicRegion baseVa size =>
    have hkeeps' := mmapRemoveDynamicRegionCtx_keeps hkeeps hrun
    unfold RegionCall.record
    split at hkeeps'
    · next hret =>
      obtain ⟨a, x, b, rfl, rfl, rfl, hkeeps'⟩ := hkeeps'
      simp only [hret, if_true]
      exact .remove hkeeps.sorted hexact hkeeps'
    · next hret =>
      simp only [hret, if_false]
      exact ⟨rs, hkeeps', hexact⟩
  | initXlatTables =>
    obtain ⟨ctx, hinit, hrun⟩ := ok_of_map hrun
    cases hrun
    exact ⟨rs, initXlatTablesCtx_keeps hkeeps hinit, hexact⟩

/-- In every state that allowed calls lead to, the array is a sorted list of regions with empty entries behind
it up to the sentinel, the regions are those accepted and not removed, and the largest end addresses are theirs.
The cursor of a further region that passes the check leaves the array exactly if it is not stopped. -/
theorem region_array_is_exact_record (p : Platform) (tables : Tables) (s : Recording)
    (hreach : Reaches (Recording.Step p) (Recording.Allowed p) ⟨freshCtx p tables, ∅⟩ s) :
    ∃ rs, s.ctx.mmap = rs ++ List.replicate (p.mmapNum + 1 - rs.length) .empty ∧
      rs.length ≤ p.mmapNum ∧ (∀ r ∈ rs, r.size ≠ 0) ∧ rs.Pairwise MmapRegion.Before ∧ rs.Nodup ∧
      (∀ r, r ∈ rs ↔ r ∈ s.accepted) ∧
      Largest MmapRegion.endVa rs s.ctx.maxVa ∧ Largest MmapRegion.endPa rs s.ctx.maxPa ∧
      ∀ mm : MmapRegion, mm.Typed p → mm.size ≠ 0 → mmapAddRegionCheck p s.ctx.mmap mm = .ok →
        (findCursor p s.ctx.mmap mm = none ↔ ¬ Stopped p rs mm) := by
  obtain ⟨rs, hkeeps, hexact⟩ : s.Exact p :=
    hreach.invariant (exact_fresh p tables) fun h hallow hstep => h.step hallow hstep
  refine ⟨rs, hkeeps.array, hkeeps.sorted.room, hkeeps.sorted.size_ne_zero, hkeeps.sorted.sorted, ?_,
    hexact, hkeeps.maxVa, hkeeps.maxPa, fun mm ht hne hok => ?_⟩
  · refine hkeeps.sorted.distinct.imp fun hab hc => ?_
    rw [hc] at hab
    exact hab.elim (fun h => h rfl) fun h => h rfl
  · have hmm := (checked_of_check hok).regionIn ht hne
    rw [hkeeps.array, findCursor_eq hkeeps.sorted hmm]
    split
    · next hstop => simp [hstop]
    · next hstop => simp [hstop]

/-- A 32-bit context with room for four regions. -/
def smallPlatform : Platform where
  arch := .aarch32
  xlatRegime := .el1El0
  virtAddrSpaceSize := 2 ^ 32
  physAddrSpaceSize := 2 ^ 32
  mmapNum := 4
  tablesNum := 1
  baseTable := 0x1000
  tables := 0x10000
  paRangeBits := 32
  virt_valid := show CheckVirtAddrSpaceSize (2 ^ 32) from ⟨32, by decide⟩
  virt_fits := le_rfl
  phys_valid := ⟨32, by decide⟩
  mmap_num := by decide
  tables_aligned := by decide
  tables_below := by decide
  base_apart := by decide
  pa_range := by decide

def noTables : Tables := ⟨fun _ _ => 0#64, fun _ => 0⟩

def onePage (base : Nat) : MmapRegion where
  basePa := base
  baseVa := base
  size := 0x1000
  attr := ⟨.memory, true, false, false, false, false⟩
  granularity := 0x1000

/-- Three pages are added, the highest first, and the lowest is removed. -/
theorem region_array_is_exact_record_three_pages :
    ∃ s, Reaches (Recording.Step smallPlatform) (Recording.Allowed smallPlatform)
        ⟨freshCtx smallPlatform noTables, ∅⟩ s ∧ s.ctx.maxVa = 0xa000fff ∧
      ∃ rs, (∀ r, r ∈ rs ↔ r = onePage 0x9000000 ∨ r = onePage 0xa000000) ∧ rs.Pairwise MmapRegion.Before ∧
        s.ctx.mmap = rs ++ List.replicate (5 - rs.length) .empty := by
  have next : ∀ {s ctx} (c : RegionCall), Reaches (Recording.Step smallPlatform)
      (Recording.Allowed smallPlatform) ⟨freshCtx smallPlatform noTables, ∅⟩ s → s.Allowed smallPlatform c →
      c.run smallPlatform s.ctx = .ok (.ok, ctx) →
      Reaches (Recording.Step smallPlatform) (Recording.Allowed smallPlatform) _ ⟨ctx, c.record s.accepted .ok⟩ :=
    fun c h hok hrun => h.step hok ⟨.ok, hrun, rfl⟩
  have h1 := next (.addRegion (onePage 0xa000000)) .start
    ⟨⟨by decide, by decide, by decide⟩, fun _ _ _ hc => absurd hc (by decide)⟩ rfl
  have h2 := next (.addDynamicRegion (onePage 0x8000000)) h1
    ⟨⟨by decide, by decide, by decide⟩, fun _ _ _ hc => absurd hc (by decide)⟩ rfl
  have h3 := next (.addRegion (onePage 0x9000000)) h2
    ⟨⟨by decide, by decide, by decide⟩, fun _ _ _ hc => absurd hc (by decide)⟩ rfl
  have h4 := next (.removeDynamicRegion 0x8000000 0x1000) h3 trivial rfl
  obtain ⟨rs, harray, -, -, hsorted, -, hexact, -⟩ :=
    region_array_is_exact_record smallPlatform noTables _ h4
  refine ⟨_, h4, by decide, rs, fun r => (hexact r).trans ?_, hsorted, harray⟩
  simp only [RegionCall.record, onePage]
  constructor
  · rintro ⟨rfl | rfl | rfl | hr, hne⟩
    · exact Or.inl rfl
    · exact absurd ⟨rfl, rfl⟩ hne
    · exact Or.inr rfl
    · exact hr.elim
  · rintro (rfl | rfl)
    · exact ⟨Or.inl rfl, by decide⟩
    · exact ⟨Or.inr (Or.inr (Or.inl rfl)), by decide⟩

/-- The last page of a 32-bit address space: the cursor leaves the array. -/
theorem cursor_leaves_region_array :
    mmapAddRegionCtx smallPlatform (freshCtx smallPlatform noTables) (onePage 0xfffff000) =
        .error .outOfArray ∧
      mmapAddDynamicRegionCtx smallPlatform (freshCtx smallPlatform noTables) (onePage 0xfffff000) =
        .error .outOfArray :=
  ⟨rfl, rfl⟩

end Runs

end Armada3720.XlatV2
