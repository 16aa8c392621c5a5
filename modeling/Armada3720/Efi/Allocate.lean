import Armada3720.Efi.Carving

/-!
# Page allocation of the EFI loader

`efi_allocate_pages` and `efi_free_pages` of `lib/efi_loader/efi_memory.c`. An allocation is
`efi_add_memory_map` at the address asked for or found, and is taken to have succeeded when that address is
returned.
-/

namespace Armada3720.Efi

open Lib EfiMemDesc

inductive EfiStatus
  | success
  | notFound
  | outOfResources
  | invalidParameter
  deriving DecidableEq, Repr

def efiFindFreeMemory (len maxAddr : Nat) : List EfiMemDesc → Nat
  | [] => 0
  | desc :: rest =>
    let descEnd := desc.stop
    let curmax := min maxAddr descEnd
    let ret := (curmax + (2 ^ 64 - len)) % 2 ^ 64
    if desc.type ≠ efiConventionalMemory then efiFindFreeMemory len maxAddr rest
    else if (ret + len) % 2 ^ 64 > maxAddr then efiFindFreeMemory len maxAddr rest
    else if (ret + len) % 2 ^ 64 > descEnd then efiFindFreeMemory len maxAddr rest
    else if ret < desc.physicalStart then efiFindFreeMemory len maxAddr rest
    else ret

/-- The `switch` of `efi_allocate_pages`; `startAddrSp` is `gd->start_addr_sp`. -/
def allocAddr (startAddrSp : Nat) (l : List EfiMemDesc) (type : Int) (pages memory : Nat) :
    Except EfiStatus Nat :=
  let len := pages * 4096 % 2 ^ 64
  let found := fun addr => if addr = 0 then .error .notFound else .ok addr
  if type = 0 then found (efiFindFreeMemory len startAddrSp l)
  else if type = 1 then found (efiFindFreeMemory len memory l)
  else if type = 2 then .ok memory
  else .error .invalidParameter

/-- `efi_allocate_pages`: the status, the list and `*memory`. -/
def efiAllocatePages (startAddrSp : Nat) (l : List EfiMemDesc) (type : Int)
    (memoryType pages memory : Nat) : Option (EfiStatus × List EfiMemDesc × Nat) :=
  match allocAddr startAddrSp l type pages memory with
  | .error r => some (r, l, memory)
  | .ok addr =>
    match efiAddMemoryMap l addr pages memoryType true with
    | none => none
    | some (l, ret) =>
      if ret = addr then some (.success, l, addr) else some (.outOfResources, l, memory)

/-- `efi_free_pages`: the status and the list. -/
def efiFreePages (l : List EfiMemDesc) (memory pages : Nat) : Option (EfiStatus × List EfiMemDesc) :=
  match efiAddMemoryMap l memory pages efiConventionalMemory false with
  | none => none
  | some (l, r) => if r = memory then some (.success, l) else some (.notFound, l)

/-! ## The pages that are counted -/

section Counted

variable {carve map d : EfiMemDesc} {l l' entry : List EfiMemDesc} {overlapOnlyRam : Bool} {n s : Int}

/-- The pages that the list and the range have in common. -/
def commonTotal (carve : EfiMemDesc) (l : List EfiMemDesc) : Nat := (l.map (commonPages carve)).sum

theorem commonTotal_append : commonTotal carve (l ++ l') = commonTotal carve l + commonTotal carve l' := by
  unfold commonTotal
  rw [List.map_append, List.sum_append]

theorem commonTotal_cons : commonTotal carve (d :: l) = commonPages carve d + commonTotal carve l := rfl

theorem commonPages_eq_zero (h : ¬ Overlaps carve d) : commonPages carve d = 0 := by
  unfold Overlaps at h
  unfold commonPages
  omega

theorem counted_asInt (x : Nat) :
    -(x : Int) ≤ counted (asInt x) ∧ counted (asInt x) ≤ x ∧
      (counted (asInt x) = x ↔ x < 2 ^ 31) := by
  unfold counted asInt efiCarveNoOverlap efiCarveLoopAgain efiCarveOverlapsNonram
  split <;> split <;> omega

/-- No descriptor has so many pages in common with the range that their number is misread. -/
def Small (carve : EfiMemDesc) (l : List EfiMemDesc) : Prop := ∀ d ∈ l, commonPages carve d < 2 ^ 31

theorem small_append : Small carve (l ++ l') ↔ Small carve l ∧ Small carve l' := by
  unfold Small
  simp only [List.mem_append, or_imp, forall_and]

theorem small_cons : Small carve (d :: l) ↔ commonPages carve d < 2 ^ 31 ∧ Small carve l := by
  unfold Small
  simp

theorem small_of_apart (h : ∀ d ∈ l, ¬ Overlaps carve d) : Small carve l := fun d hd => by
  rw [commonPages_eq_zero (h d hd)]
  decide

theorem commonTotal_of_apart (h : ∀ d ∈ l, ¬ Overlaps carve d) : commonTotal carve l = 0 := by
  refine List.sum_eq_zero fun w hw => ?_
  obtain ⟨d, hd, rfl⟩ := List.mem_map.mp hw
  exact commonPages_eq_zero (h d hd)

theorem Cut.total (hm : map.Bounded) (h : Overlaps carve map) (hcut : Cut carve map entry n) :
    ∃ c, commonPages carve map = commonTotal carve entry + c ∧ n = counted (asInt c) ∧
      (commonPages carve map < 2 ^ 31 ↔ Small carve entry ∧ c < 2 ^ 31) := by
  cases hcut with
  | deleted =>
    refine ⟨commonPages carve map, (Nat.zero_add _).symm, rfl, ?_⟩
    exact (and_iff_right (fun d hd => nomatch hd)).symm
  | moved =>
    have hapart : ∀ d ∈ [{ map with physicalStart := carve.stop
                                    numPages := (map.stop - carve.stop) / 4096 }],
        ¬ Overlaps carve d := by simp [Overlaps]
    refine ⟨commonPages carve map, ?_, rfl, (and_iff_right (small_of_apart hapart)).symm⟩
    rw [commonTotal_of_apart hapart, Nat.zero_add]
  | split hlt =>
    have hzero := commonPages_eq_zero (not_overlaps_lower hlt)
    have hup := commonPages_upper hm h hlt
    refine ⟨0, ?_, by decide, ?_⟩
    · rw [commonTotal_cons, hup, commonTotal_cons, hzero]
      rfl
    · rw [small_cons, hup, small_cons, hzero]
      exact ⟨fun hs => ⟨⟨hs, by decide, fun d hd => nomatch hd⟩, by decide⟩, fun hs => hs.1.1⟩

theorem Step.total (hl : ∀ d ∈ l, d.Bounded) (h : Step carve overlapOnlyRam l n l') :
    ∃ c, commonTotal carve l = commonTotal carve l' + c ∧ n = counted (asInt c) ∧
      (Small carve l ↔ Small carve l' ∧ c < 2 ^ 31) := by
  cases h with
  | @mk pre post entry map n hpre hover hr hcut =>
    obtain ⟨c, htotal, hn, hsmall⟩ := hcut.total (hl map (by simp)) hover
    refine ⟨c, ?_, hn, ?_⟩
    · simp only [commonTotal_append, commonTotal_cons, htotal]
      omega
    · simp only [small_append, small_cons, hsmall]
      tauto

/-- The pages counted along a chain are those taken away, if none of the numbers is misread. -/
theorem Chain.total (hl : ∀ d ∈ l, d.Bounded) (h : Chain carve overlapOnlyRam l s l') :
    commonTotal carve l' ≤ commonTotal carve l ∧
      -(commonTotal carve l - commonTotal carve l' : Int) ≤ s ∧
      s ≤ commonTotal carve l - commonTotal carve l' ∧
      (Small carve l ↔ Small carve l' ∧ s = commonTotal carve l - commonTotal carve l') := by
  induction h with
  | refl l => simp
  | @head l l₁ l' n s hstep _ ih =>
    obtain ⟨c, htotal, rfl, hsmall⟩ := hstep.total hl
    obtain ⟨h1, h2, h3, h4⟩ := ih (hstep.bounded hl)
    obtain ⟨hlow, hhigh, hexact⟩ := counted_asInt c
    refine ⟨by omega, by omega, by omega, ?_⟩
    rw [hsmall, h4, ← hexact]
    constructor
    · rintro ⟨⟨hs, heq⟩, hn⟩
      exact ⟨hs, by omega⟩
    · rintro ⟨hs, heq⟩
      exact ⟨⟨hs, by omega⟩, by omega⟩

/-! ## Which calls succeed -/

/-- Whatever overlaps the range is RAM. -/
def AllRam (carve : EfiMemDesc) (overlapOnlyRam : Bool) (l : List EfiMemDesc) : Prop :=
  ∀ d ∈ l, Overlaps carve d → ¬ Refused overlapOnlyRam d

theorem Step.allRam (h : Step carve overlapOnlyRam l n l') :
    AllRam carve overlapOnlyRam l ↔ AllRam carve overlapOnlyRam l' := by
  cases h with
  | @mk pre post entry map n hpre hover hr hcut =>
    have hentry : ∀ d ∈ entry, ¬ Refused overlapOnlyRam d := by
      rintro d hd ⟨hram, htype⟩
      exact hr ⟨hram, (hcut.same_memory d hd).1 ▸ htype⟩
    unfold AllRam
    simp only [List.mem_append, List.mem_cons, or_imp, forall_and, forall_eq]
    constructor
    · rintro ⟨h1, -, h3⟩
      exact ⟨h1, fun d hd _ => hentry d hd, h3⟩
    · rintro ⟨h1, -, h3⟩
      exact ⟨h1, fun _ => hr, h3⟩

theorem Chain.allRam (h : Chain carve overlapOnlyRam l s l') :
    AllRam carve overlapOnlyRam l ↔ AllRam carve overlapOnlyRam l' := by
  induction h with
  | refl l => rfl
  | head hstep _ ih => exact hstep.allRam.trans ih

theorem WellFormed.apart (h : WellFormed l) (hd : d ∈ l) (hmap : map ∈ l) (hne : d ≠ map) :
    Apart physicalStart length d map := by
  have hpair : l.Pairwise (Apart physicalStart length) :=
    h.descending.imp fun {a b} hab => Or.inr hab
  have : Std.Symm (Apart physicalStart length) := ⟨fun _ _ hab => Or.symm hab⟩
  exact hpair.forall hd hmap hne

theorem exists_common (hc : carve.Valid) (hd : d.Valid) (h : Overlaps carve d) :
    ∃ x, Holds physicalStart length carve x ∧
      Holds physicalStart length d x := by
  have hover := (hc.overlaps_iff hd).mp h
  have h1 := hc.nonempty
  have h2 := hd.nonempty
  refine ⟨max carve.physicalStart d.physicalStart, ?_⟩
  unfold Holds length at *
  omega

theorem commonPages_eq (hd : d.Bounded) :
    commonPages carve d = common physicalStart length carve.physicalStart carve.stop d / 4096 := by
  unfold commonPages common
  rw [stop_of_bounded hd]

theorem commonTotal_le_sum (hl : ∀ d ∈ l, d.Bounded) :
    commonTotal carve l * 4096 ≤ commonSum physicalStart length carve.physicalStart carve.stop l := by
  unfold commonTotal commonSum
  rw [← List.sum_map_mul_right]
  refine List.sum_le_sum fun d hd => ?_
  rw [commonPages_eq (hl d hd)]
  exact Nat.div_mul_le_self ..

/-- No more pages are counted than the range has, whether it is aligned and wraps or not. -/
theorem commonTotal_le (hl : WellFormed l) :
    commonTotal carve l ≤ carve.numPages ∧ commonTotal carve l * 4096 ≤ carve.stop - carve.physicalStart := by
  have hsum : commonTotal carve l * 4096 ≤ _ := commonTotal_le_sum hl.bounded
  have hle : commonSum physicalStart length carve.physicalStart carve.stop l ≤
      carve.stop - carve.physicalStart := (commonSum_le hl.descending).1
  have hstop : carve.stop = (carve.physicalStart + carve.numPages * 4096) % 2 ^ 64 := stop_eq_mod
  omega

theorem commonTotal_eq_iff (hc : carve.Valid) (hl : WellFormed l) :
    commonTotal carve l = carve.numPages ↔ ∀ x, Holds physicalStart length carve x →
      ∃ d ∈ l, Holds physicalStart length d x := by
  have hsum : commonSum physicalStart length carve.physicalStart carve.stop l =
      commonTotal carve l * 4096 := by
    unfold commonSum commonTotal
    rw [← List.sum_map_mul_right]
    congr 1
    refine List.map_congr_left fun d hd => ?_
    have h1 := (hl.valid d hd).stop_mod
    have h2 := (hl.valid d hd).aligned
    have h3 := hc.stop_mod
    have h4 := hc.aligned
    rw [commonPages_eq (hl.bounded d hd)]
    unfold common
    rw [(hl.valid d hd).stop_eq] at h1
    omega
  have heq : commonSum physicalStart length carve.physicalStart carve.stop l =
      carve.stop - carve.physicalStart ↔ _ := (commonSum_le hl.descending).2
  have hlen : carve.stop - carve.physicalStart = carve.numPages * 4096 := by
    rw [hc.stop_eq, length]
    omega
  rw [hsum, hlen] at heq
  have hcancel : commonTotal carve l * 4096 = carve.numPages * 4096 ↔
      commonTotal carve l = carve.numPages := by omega
  rw [← hcancel, heq, hc.stop_eq]
  exact forall_congr' fun x => and_imp.symm

/-- All pages of the range are found in RAM and counted right: the allocation succeeds. -/
def AllCounted (carve : EfiMemDesc) (l : List EfiMemDesc) : Prop :=
  AllRam carve true l ∧ Small carve l ∧ commonTotal carve l = carve.numPages

/-- A range that wraps is not counted as a whole. -/
theorem AllCounted.bounded (h : AllCounted carve l) (hl : WellFormed l) (hpages : carve.numPages ≠ 0) :
    carve.Bounded := by
  have hle : commonTotal carve l * 4096 ≤ carve.stop - carve.physicalStart := (commonTotal_le hl).2
  have hstop : carve.stop = (carve.physicalStart + carve.numPages * 4096) % 2 ^ 64 := stop_eq_mod
  rw [h.2.2] at hle
  unfold Bounded length
  omega

/-- The range is free RAM, in pieces that are counted right. -/
def FreeRam (carve : EfiMemDesc) (l : List EfiMemDesc) : Prop :=
  (∀ x, Holds EfiMemDesc.physicalStart EfiMemDesc.length carve x →
    ∃ attr, Lists l x (efiConventionalMemory, attr)) ∧ Small carve l

theorem allRam_of_listed (hc : carve.Valid) (hl : WellFormed l) (hfree : ∀ x, Holds physicalStart length carve x →
      ∃ attr, Lists l x (efiConventionalMemory, attr)) : AllRam carve true l := by
  intro d hd hover hr
  obtain ⟨x, hx, hxd⟩ := exists_common hc (hl.valid d hd) hover
  obtain ⟨attr, c, hcl, hcx, hv⟩ := hfree x hx
  obtain rfl : d = c := by
    by_contra hdc
    have := hl.apart hd hcl hdc
    unfold Apart at this
    unfold Holds at *
    omega
  exact hr.2 (congrArg Prod.fst hv).symm

theorem freeRam_iff (hc : carve.Valid) (hl : WellFormed l) :
    FreeRam carve l ↔ AllCounted carve l := by
  unfold AllCounted
  rw [commonTotal_eq_iff hc hl]
  constructor
  · rintro ⟨hfree, hsmall⟩
    refine ⟨allRam_of_listed hc hl hfree, hsmall, fun x hx => ?_⟩
    obtain ⟨attr, d, hd, hxd, -⟩ := hfree x hx
    exact ⟨d, hd, hxd⟩
  · rintro ⟨hram, hsmall, hcover⟩
    refine ⟨fun x hx => ?_, hsmall⟩
    obtain ⟨d, hd, hxd⟩ := hcover x hx
    have hover : Overlaps carve d := by
      rw [hc.overlaps_iff (hl.valid d hd)]
      unfold Holds at hx hxd
      omega
    have htype : d.type = efiConventionalMemory := by
      by_contra hne
      exact hram d hd hover ⟨rfl, hne⟩
    exact ⟨d.attr, d, hd, hxd, by rw [htype]⟩

/-- The range lies in one descriptor of free RAM, with so few pages that their number is not misread. -/
def InOne (carve : EfiMemDesc) (l : List EfiMemDesc) : Prop :=
  carve.numPages < 2 ^ 31 ∧ ∃ d ∈ l, d.type = efiConventionalMemory ∧
    Inside EfiMemDesc.physicalStart EfiMemDesc.length carve d

theorem InOne.allCounted (h : InOne carve l) (hl : WellFormed l) : AllCounted carve l := by
  obtain ⟨hsmall, d, hd, htype, hin⟩ := h
  obtain ⟨pre, post, rfl⟩ := List.append_of_mem hd
  have hbound := hl.bounded d hd
  have hs := stop_of_bounded hbound
  have hcs := stop_of_bounded (hin.2.trans_lt hbound)
  obtain ⟨-, hpair, hpre⟩ := List.pairwise_append.mp hl.descending
  -- the other descriptors lie above or below that one
  have hapart : ∀ c ∈ pre ++ post, ¬ Overlaps carve c := by
    intro c hc
    unfold Inside at hin
    unfold Overlaps
    rcases List.mem_append.mp hc with hc | hc
    · have := hpre c hc d (List.mem_cons_self ..)
      omega
    · have := (List.pairwise_cons.mp hpair).1 c hc
      have := stop_of_bounded (hl.bounded c (by simp [hc]))
      omega
  have hcommon : commonPages carve d = carve.numPages := by
    unfold commonPages Inside length at *
    omega
  rw [List.forall_mem_append] at hapart
  refine ⟨fun c hc hover hr => hr.2 ?_, ?_, ?_⟩
  · rcases List.mem_append.mp hc with hc | hc
    · exact absurd hover (hapart.1 c hc)
    · rcases List.mem_cons.mp hc with rfl | hc
      · exact htype
      · exact absurd hover (hapart.2 c hc)
  · rw [small_append, small_cons, hcommon]
    exact ⟨small_of_apart hapart.1, hsmall, small_of_apart hapart.2⟩
  · rw [commonTotal_append, commonTotal_cons, hcommon, commonTotal_of_apart hapart.1,
      commonTotal_of_apart hapart.2]
    omega

/-- Where the range starts inside a page, the pages of several descriptors never add up to its own. -/
theorem allCounted_iff_inOne (hl : WellFormed l) (hstart : carve.physicalStart % 4096 ≠ 0)
    (hpages : carve.numPages ≠ 0) : AllCounted carve l ↔ InOne carve l := by
  refine ⟨fun h => ?_, fun h => h.allCounted hl⟩
  have hcs := stop_of_bounded (h.bounded hl hpages)
  obtain ⟨hram, hsmall, htotal⟩ := h
  have hsum : commonTotal carve l * 4096 ≤ _ := commonTotal_le_sum hl.bounded
  have hlen : carve.stop - carve.physicalStart = carve.numPages * 4096 := by
    rw [hcs, length]
    omega
  obtain ⟨hle, hcover⟩ : commonSum physicalStart length carve.physicalStart carve.stop l ≤
      carve.stop - carve.physicalStart ∧ _ := commonSum_le hl.descending
  obtain ⟨d, hd, hx⟩ := hcover.mp (by omega) carve.physicalStart le_rfl (by omega)
  have hs := stop_of_bounded (hl.bounded d hd)
  have hmod := (hl.valid d hd).stop_mod
  -- no part of a page is lost in this descriptor
  have hwhole : common physicalStart length carve.physicalStart carve.stop d % 4096 = 0 := by
    by_contra hne
    have hlt : commonTotal carve l * 4096 < commonSum physicalStart length carve.physicalStart carve.stop l := by
      unfold commonTotal commonSum
      rw [← List.sum_map_mul_right]
      refine List.sum_lt_sum _ _ (fun c hc => ?_) ⟨d, hd, ?_⟩
      · rw [commonPages_eq (hl.bounded c hc)]
        exact Nat.div_mul_le_self ..
      · rw [commonPages_eq (hl.bounded d hd)]
        omega
    omega
  unfold common at hwhole
  unfold Holds at hx
  have hstop : carve.stop ≤ d.physicalStart + d.length := by omega
  have hover : Overlaps carve d := by
    unfold Overlaps
    omega
  refine ⟨?_, d, hd, ?_, by unfold Inside; omega⟩
  · have hlt := hsmall d hd
    rw [commonPages_eq (hl.bounded d hd)] at hlt
    unfold common at hlt
    omega
  · by_contra hne
    exact hram d hd hover ⟨rfl, hne⟩

end Counted

/-! ## How an allocation ends -/

section Outcome

variable {carve map d : EfiMemDesc} {l l' l₁ pre post entry : List EfiMemDesc} {n s : Int} {ret x : Nat}

/-- The list when 0 is returned: some descriptor stops the call, or it is short of pages. -/
def Ended (carve : EfiMemDesc) (l l' : List EfiMemDesc) : Prop :=
  Returned carve true l l' ∨ ∃ s, Chain carve true l s l' ∧ ∀ d ∈ l', ¬ Overlaps carve d

theorem Ended.chain (h : Ended carve l l') : ∃ s, Chain carve true l s l' := by
  rcases h with h | ⟨s, h, -⟩
  · exact h.chain
  · exact ⟨s, h⟩

theorem not_returned (hl : WellFormed l) (h : AllCounted carve l) : ¬ Returned carve true l l' := by
  rintro ⟨l₁, s, hchain, ⟨rfl, hblocked⟩ | hmisread⟩
  · obtain ⟨pre, d, post, rfl, -, hover, hr⟩ := hblocked
    exact hchain.allRam.mp h.1 d (by simp) hover hr
  · obtain ⟨pre, map, post, entry, n, rfl, -, -, -, -, -, -, hcode⟩ := hmisread
    have hlt := ((hchain.total hl.bounded).2.2.2.mp h.2.1).1 map (by simp)
    omega

/-- The range is added if all of its pages are counted, and 0 is returned otherwise. -/
theorem Added.outcome (hpages : carve.numPages < 2 ^ 52) (hl : WellFormed l)
    (h : Added carve true l l' ret) :
    (AllCounted carve l ∧ ret = carve.physicalStart ∧ ∃ s l₁, Chain carve true l s l₁ ∧
      (∀ d ∈ l₁, ¬ Overlaps carve d) ∧ l' = efiMemSort (l₁ ++ [carve])) ∨
    (¬ AllCounted carve l ∧ ret = 0 ∧ Ended carve l l') := by
  have hle : commonTotal carve l ≤ carve.numPages := (commonTotal_le hl).1
  cases h with
  | returned h => exact Or.inr ⟨fun hall => not_returned hl hall h, rfl, Or.inl h⟩
  | @short l' s h hapart hram hne =>
    obtain ⟨-, hlow, hhigh, hexact⟩ := h.total hl.bounded
    rw [commonTotal_of_apart hapart] at hlow hhigh hexact
    refine Or.inr ⟨fun ⟨_, hsmall, htotal⟩ => ?_, rfl, Or.inr ⟨s, h, hapart⟩⟩
    have hs := (hexact.mp hsmall).2
    omega
  | @added l' s h hapart heq =>
    have hs := heq rfl
    obtain ⟨-, hlow, hhigh, hexact⟩ := h.total hl.bounded
    have hram : AllRam carve true l := h.allRam.mpr fun d hd hover => absurd hover (hapart d hd)
    have hsmall : Small carve l := hexact.mpr ⟨small_of_apart hapart, by omega⟩
    exact Or.inl ⟨⟨hram, hsmall, by omega⟩, rfl, s, _, h, hapart, rfl⟩

/-! ## Ranges that wrap -/

theorem stop_le_of_wrap (hpages : carve.numPages < 2 ^ 52) (h : ¬ carve.Bounded) :
    carve.stop ≤ carve.physicalStart := by
  rw [stop_eq_mod]
  unfold Bounded length at h
  omega

section

variable (hstart : carve.physicalStart % 4096 = 0) (hwrap : carve.stop ≤ carve.physicalStart) (hl : WellFormed l)
include hstart hwrap hl

/-- Of a range that wraps nothing is carved: the descriptor that it starts in is split. -/
theorem Step.of_wrap (h : Step carve true l n l') :
    WellFormed l' ∧ ∀ x v, Lists l' x v ↔ Lists l x v := by
  cases h with
  | @mk pre post entry map n hpre hover hr hcut =>
    unfold Overlaps at hover
    cases hcut with
    | deleted hle => omega
    | moved hle => omega
    | split hlt =>
      have hm : map.Valid := hl.valid map (by simp)
      have hcarved : Carved { carve with numPages := 0 } (pre ++ map :: post) _ :=
        .middle hl (replaces_split hm hstart hlt (by omega))
      refine ⟨hcarved.wellFormed, fun x v => hcarved.outside x v ?_⟩
      unfold Holds length
      dsimp only
      omega

theorem Chain.of_wrap (h : Chain carve true l s l') :
    WellFormed l' ∧ ∀ x v, Lists l' x v ↔ Lists l x v := by
  refine h.invariant (fun l₁ => WellFormed l₁ ∧ ∀ x v, Lists l₁ x v ↔ Lists l x v) (fun hl1 hstep => ?_)
    ⟨hl, fun _ _ => Iff.rfl⟩
  obtain ⟨hwf, hsame⟩ := hstep.of_wrap hstart hwrap hl1.1
  exact ⟨hwf, fun x v => (hsame x v).trans (hl1.2 x v)⟩

end

/-! ## What a call that returns 0 has carved out -/

/-- The address is in the descriptor that is carved next, or it is listed no more. -/
def Going (carve : EfiMemDesc) (x : Nat) (l : List EfiMemDesc) : Prop :=
  (∃ pre d post, First carve l pre d post ∧ ¬ Refused true d ∧
    Holds EfiMemDesc.physicalStart EfiMemDesc.length d x) ∨ ∀ v, ¬ Lists l x v

theorem WellFormed.not_lists (hl : WellFormed (pre ++ map :: post)) (hx : Holds physicalStart length map x)
    (hentry : ∀ d ∈ entry, ¬ Holds physicalStart length d x) :
    ∀ v, ¬ Lists (pre ++ (entry ++ post)) x v := by
  rintro v ⟨d, hd, hdx, -⟩
  obtain ⟨-, hpair, hpre⟩ := List.pairwise_append.mp hl.descending
  simp only [List.mem_append] at hd
  rcases hd with hd | hd | hd
  · have := hpre d hd map (List.mem_cons_self ..)
    unfold Holds Below at *
    omega
  · exact hentry d hd hdx
  · have := (List.pairwise_cons.mp hpair).1 d hd
    unfold Holds Below at *
    omega

section

variable (hc : carve.Valid) (hl : WellFormed l) (h : Going carve x l)
  (hin : Holds EfiMemDesc.physicalStart EfiMemDesc.length carve x)
include hc hl h hin

theorem Going.cut (hfirst : First carve l pre map post)
    (hstep : Step carve true l n (pre ++ (entry ++ post))) (hcut : Cut carve map entry n)
    (hstart : carve.physicalStart ≤ map.physicalStart) :
    ∀ v, ¬ Lists (pre ++ (entry ++ post)) x v := by
  rcases h with ⟨pre', d, post', hfirst', -, hx⟩ | hnone
  · obtain ⟨rfl, rfl, rfl⟩ := hfirst.unique hfirst'
    obtain ⟨rfl, -, -⟩ := hfirst
    refine hl.not_lists hx fun d hd hdx => ?_
    cases hcut with
    | deleted => cases hd
    | moved =>
      rw [List.mem_singleton] at hd
      subst hd
      have h1 : carve.stop ≤ x := hdx.1
      rw [hc.stop_eq] at h1
      have h2 := hin.2
      omega
    | split hlt => omega
  · exact fun v hv => hnone v (hstep.lists hl.bounded hv)

theorem Going.step (hstep : Step carve true l n l') : Going carve x l' := by
  have hstep' := hstep
  cases hstep with
  | @mk pre post entry map n hpre hover hr hcut =>
    have hfirst : First carve (pre ++ map :: post) pre map post := ⟨rfl, hpre, hover⟩
    rcases Nat.lt_or_ge map.physicalStart carve.physicalStart with hlt | hge
    · rcases h with ⟨pre', d, post', hfirst', -, hx⟩ | hnone
      · obtain ⟨rfl, rfl, rfl⟩ := hfirst.unique hfirst'
        have hm : map.Valid := hl.valid map (by simp)
        cases hcut with
        | deleted hstart => omega
        | moved hstart => omega
        | split =>
          obtain ⟨hupper, hstop⟩ := overlaps_upper hc hm hover
          refine Or.inl ⟨pre, _, _, ⟨rfl, hpre, hupper⟩, hr, hin.1, ?_⟩
          have hs := hm.stop_eq
          have hmod := hm.stop_mod
          have hcmod := hc.aligned
          have h2 := hx.2
          unfold length at *
          dsimp only
          omega
      · exact Or.inr fun v hv => hnone v (hstep'.lists hl.bounded hv)
    · exact Or.inr (h.cut hc hl hin hfirst hstep' hcut hge)

theorem Going.chain (hchain : Chain carve true l s l') : WellFormed l' ∧ Going carve x l' :=
  hchain.invariant (fun l => WellFormed l ∧ Going carve x l)
    (fun h hstep => ⟨(hstep.carved hc h.1).wellFormed, h.2.step hc h.1 hin hstep⟩) ⟨hl, h⟩

theorem Going.returned (hret : Returned carve true l l') : ∀ v, ¬ Lists l' x v := by
  obtain ⟨l₁, s, hchain, ⟨rfl, hblocked⟩ | hmisread⟩ := hret
  · obtain ⟨pre, d, post, hfirst, hr⟩ := hblocked.first
    rcases (h.chain hc hl hin hchain).2 with ⟨pre', d', post', hfirst', hr', -⟩ | hnone
    · obtain ⟨-, rfl, -⟩ := hfirst.unique hfirst'
      exact absurd hr hr'
    · exact hnone
  · obtain ⟨hwf, hgoing⟩ := h.chain hc hl hin hchain
    obtain ⟨pre, map, post, entry, n, hfirst, rfl, hr, hcut, hstart⟩ := hmisread.first
    refine hgoing.cut hc hwf hin hfirst ?_ hcut hstart
    obtain ⟨rfl, hpre, hover⟩ := hfirst
    exact .mk hpre hover hr hcut

end

theorem Going.done (h : Going carve x l) (hapart : ∀ d ∈ l, ¬ Overlaps carve d) :
    ∀ v, ¬ Lists l x v := by
  rcases h with ⟨pre, d, post, hfirst, -⟩ | hnone
  · exact absurd hfirst.2.2 (hapart d (by simp [hfirst.1]))
  · exact hnone

/-- No descriptor overlaps the range, or the highest one that does is not RAM. -/
def Untouched (carve : EfiMemDesc) (l : List EfiMemDesc) : Prop :=
  (∀ d ∈ l, ¬ Overlaps carve d) ∨ Blocked carve true l

theorem Untouched.not_step (h : Untouched carve l) : ¬ Step carve true l n l' := by
  intro hstep
  cases hstep with
  | @mk pre post entry map n hpre hover hr hcut =>
    rcases h with hapart | hblocked
    · exact hapart map (by simp) hover
    · obtain ⟨pre', d, post', hfirst, hrd⟩ := hblocked.first
      obtain ⟨-, rfl, -⟩ := hfirst.unique ⟨rfl, hpre, hover⟩
      exact hr hrd

theorem Untouched.chain (h : Untouched carve l) (hchain : Chain carve true l s l') : l' = l := by
  cases hchain with
  | refl => rfl
  | head hstep => exact absurd hstep h.not_step

theorem exists_first (hd : d ∈ l) (hover : Overlaps carve d) :
    ∃ pre d post, First carve l pre d post := by
  induction l with
  | nil => cases hd
  | cons c l ih =>
    by_cases hc : Overlaps carve c
    · exact ⟨[], c, l, rfl, by simp, hc⟩
    · have hne : d ≠ c := fun h => hc (h ▸ hover)
      obtain ⟨pre, d', post, rfl, hpre, hd'⟩ := ih ((List.mem_cons.mp hd).resolve_left hne)
      refine ⟨c :: pre, d', post, rfl, fun a ha => ?_, hd'⟩
      rcases List.mem_cons.mp ha with rfl | ha
      · exact hc
      · exact hpre a ha

/-- A call that returns 0 and carves something loses an address of the range. -/
theorem exists_gone (hc : carve.Valid) (hl : WellFormed l)
    (hend : Ended carve l l') (htouched : ¬ Untouched carve l) :
    ∃ x, Holds physicalStart length carve x ∧ (∃ v, Lists l x v) ∧
      ∀ v, ¬ Lists l' x v := by
  unfold Untouched at htouched
  push Not at htouched
  obtain ⟨⟨d, hd, hover⟩, hblocked⟩ := htouched
  obtain ⟨pre, d, post, hfirst⟩ := exists_first hd hover
  have hr : ¬ Refused true d := fun hr =>
    hblocked ⟨pre, d, post, hfirst.1, hfirst.2.1, hfirst.2.2, hr⟩
  have hd : d ∈ l := by simp [hfirst.1]
  obtain ⟨x, hin, hx⟩ := exists_common hc (hl.valid d hd) hfirst.2.2
  have hgoing : Going carve x l := Or.inl ⟨pre, d, post, hfirst, hr, hx⟩
  refine ⟨x, hin, ⟨_, d, hd, hx, rfl⟩, ?_⟩
  rcases hend with hret | ⟨s, hchain, hapart⟩
  · exact hgoing.returned hc hl hin hret
  · exact (hgoing.chain hc hl hin hchain).2.done hapart

theorem Untouched.ended (h : Untouched carve l) (hend : Ended carve l l') : l' = l := by
  rcases hend with ⟨l₁, s, hchain, ⟨rfl, -⟩ | hmisread⟩ | ⟨s, hchain, -⟩
  · exact h.chain hchain
  · obtain rfl := h.chain hchain
    obtain ⟨n, hstep⟩ := hmisread.step
    exact absurd hstep h.not_step
  · exact h.chain hchain

theorem Ended.first_step (hend : Ended carve l l') (htouched : ¬ Untouched carve l) :
    ∃ n l₁ s, Step carve true l n l₁ ∧ Chain carve true l₁ s l' := by
  rcases hend with ⟨l₁, s, hchain, hwhy⟩ | ⟨s, hchain, hapart⟩
  · cases hchain with
    | refl =>
      rcases hwhy with ⟨rfl, hblocked⟩ | hmisread
      · exact absurd (Or.inr hblocked) htouched
      · obtain ⟨n, hstep⟩ := hmisread.step
        exact ⟨n, l', 0, hstep, .refl _⟩
    | head hstep hrest =>
      obtain ⟨s', hchain'⟩ := Returned.chain ⟨_, _, hrest, hwhy⟩
      exact ⟨_, _, s', hstep, hchain'⟩
  · cases hchain with
    | refl => exact absurd (Or.inl hapart) htouched
    | head hstep hrest => exact ⟨_, _, _, hstep, hrest⟩

/-- Where the range starts inside a page, the first cut loses an address. -/
theorem exists_gone_of_unaligned (hstart : carve.physicalStart % 4096 ≠ 0) (hl : WellFormed l)
    (hend : Ended carve l l') (htouched : ¬ Untouched carve l) :
    ∃ x, (∃ v, Lists l x v) ∧ ∀ v, ¬ Lists l' x v := by
  obtain ⟨n, l₁, s, hstep, hchain⟩ := hend.first_step htouched
  have hlater : ∀ {x v}, Lists l' x v → Lists l₁ x v := hchain.lists (hstep.bounded hl.bounded)
  cases hstep with
  | @mk pre post entry map n hpre hover hr hcut =>
    have hm : map.Valid := hl.valid map (by simp)
    have hs := hm.stop_eq
    have hmod := hm.aligned
    have hpos : 0 < map.length := Nat.mul_pos (Nat.pos_of_ne_zero hm.nonempty) (by decide)
    unfold Overlaps at hover
    obtain ⟨x, hx, hentry⟩ : ∃ x, Holds physicalStart length map x ∧
        ∀ d ∈ entry, ¬ Holds physicalStart length d x := by
      cases hcut with
      | deleted => exact ⟨map.physicalStart, ⟨le_rfl, by omega⟩, fun d hd => nomatch hd⟩
      | moved =>
        refine ⟨map.physicalStart, ⟨le_rfl, by omega⟩, fun d hd => ?_⟩
        rw [List.mem_singleton] at hd
        subst hd
        unfold Holds
        dsimp only
        omega
      | split =>
        -- the byte below the range is neither in the upper part nor in a whole page of the lower one
        refine ⟨carve.physicalStart - 1, ⟨by omega, by omega⟩, fun d hd => ?_⟩
        rcases List.mem_pair.mp hd with rfl | rfl
        · unfold Holds
          dsimp only
          omega
        · unfold Holds length
          dsimp only
          omega
    exact ⟨x, ⟨_, map, by simp, hx, rfl⟩, fun v hv => hl.not_lists hx hentry v (hlater hv)⟩

/-- A call that returns 0 leaves the map exactly if it carves nothing, unless it only splits descriptors. -/
theorem lists_unchanged_iff (hpages : carve.numPages ≠ 0) (hlt : carve.numPages < 2 ^ 52) (hl : WellFormed l)
    (hend : Ended carve l l') :
    (∀ x v, Lists l' x v ↔ Lists l x v) ↔
      Untouched carve l ∨ carve.physicalStart % 4096 = 0 ∧ ¬ carve.Bounded := by
  by_cases huntouched : Untouched carve l
  · rw [huntouched.ended hend]
    exact iff_of_true (fun _ _ => Iff.rfl) (Or.inl huntouched)
  by_cases hwrap : carve.physicalStart % 4096 = 0 ∧ ¬ carve.Bounded
  · obtain ⟨s, hchain⟩ := hend.chain
    exact iff_of_true (hchain.of_wrap hwrap.1 (stop_le_of_wrap hlt hwrap.2) hl).2 (Or.inr hwrap)
  refine iff_of_false (fun hsame => ?_) (not_or.mpr ⟨huntouched, hwrap⟩)
  obtain ⟨x, ⟨v, hv⟩, hgone⟩ : ∃ x, (∃ v, Lists l x v) ∧ ∀ v, ¬ Lists l' x v := by
    by_cases hstart : carve.physicalStart % 4096 = 0
    · have hbound : carve.Bounded := by tauto
      obtain ⟨x, -, hgone⟩ := exists_gone ⟨hstart, hpages, hbound⟩ hl hend huntouched
      exact ⟨x, hgone⟩
    · exact exists_gone_of_unaligned hstart hl hend huntouched
  exact hgone v ((hsame x v).mpr hv)

end Outcome

end Armada3720.Efi
