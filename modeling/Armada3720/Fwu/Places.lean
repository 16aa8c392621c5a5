import Armada3720.Fwu.Tracking

/-!
# Copies stay in their own places

An image that is being copied, or has been, owns the range it recorded with the first block. The overlap check
keeps these ranges apart, and the later blocks stay in them.

`fwu_copies_apart` needs no condition on the SMCs, with `LOAD_IMAGE_V2`. Images that are authenticated where they
lie own no range here.
-/

namespace Armada3720.Fwu

open Lib

def Loading (st : Bl1) (id : ImageId) : Prop :=
  (st.images id).state = .copying ∨ (st.images id).state = .copied

/-- What is recorded of an image that is being copied, or has been. -/
structure Recorded (pf : Platform) (d : ImageDesc) (status : ImageStatus) : Prop where
  fits : pf.fits d status.imageSize = true
  size : status.imageSize < 2 ^ 32
  pos : 0 < status.copiedSize
  le : status.copiedSize ≤ status.imageSize
  copying : status.state = .copying → status.copiedSize < status.imageSize
  copied : status.state = .copied → status.copiedSize = status.imageSize

/-- Such an image is in the list, its sizes are in order, and its range is apart from the others. -/
structure Placed (pf : Platform) (st : Bl1) : Prop where
  slots : OneSlot st.loadedIds
  loaded : ∀ {id}, Loading st id → id ∈ st.loadedIds
  recorded : ∀ {id}, Loading st id → ∃ d, pf.desc id = some d ∧ Recorded pf d (st.images id)
  apart : ∀ {i j di dj}, i ≠ j → pf.desc i = some di → pf.desc j = some dj → Loading st i → Loading st j →
    Apart di.imageBase (st.images i).imageSize dj.imageBase (st.images j).imageSize

section Placed

variable {pf : Platform} {st st' : Bl1} {id : ImageId} {smc : Smc}

section

variable (h : Placed pf st)
include h

theorem Placed.change (heffect : Effect pf st smc st')
    (hself : Loading st' (smc.image st) → smc.image st ∈ st'.loadedIds ∧
      ∃ d, pf.desc (smc.image st) = some d ∧ Recorded pf d (st'.images (smc.image st)) ∧
        ∀ j dj, j ≠ smc.image st → pf.desc j = some dj → Loading st j →
          Apart d.imageBase (st'.images (smc.image st)).imageSize dj.imageBase (st.images j).imageSize) :
    Placed pf st' := by
  obtain ⟨hslots, hmem⟩ := heffect.slots h.slots
  have hold : ∀ {j}, j ≠ smc.image st → Loading st' j → Loading st j := fun {j} hne hj => by
    rwa [Loading, heffect.others hne] at hj
  refine ⟨hslots, fun {j} hj => ?_, fun {j} hj => ?_, fun {i j di dj} hij hdi hdj hi hj => ?_⟩
  · by_cases hne : j = smc.image st
    · subst hne
      exact (hself hj).1
    · obtain ⟨dj, hdj, -⟩ := h.recorded (hold hne hj)
      exact (hmem j hne (pf.ne_invalid hdj)).mpr (h.loaded (hold hne hj))
  · by_cases hne : j = smc.image st
    · subst hne
      obtain ⟨-, d, hd, hrecorded, -⟩ := hself hj
      exact ⟨d, hd, hrecorded⟩
    · rw [heffect.others hne]
      exact h.recorded (hold hne hj)
  · by_cases hnei : i = smc.image st
    · subst hnei
      obtain ⟨-, d, hd, -, hapart⟩ := hself hi
      obtain rfl := Option.some.inj (hd.symm.trans hdi)
      rw [heffect.others hij.symm]
      exact hapart j dj hij.symm hdj (hold hij.symm hj)
    · by_cases hnej : j = smc.image st
      · subst hnej
        obtain ⟨-, d, hd, -, hapart⟩ := hself hj
        obtain rfl := Option.some.inj (hd.symm.trans hdj)
        rw [heffect.others hnei]
        exact (hapart i di hnei hdi (hold hnei hi)).symm
      · rw [heffect.others hnei, heffect.others hnej]
        exact h.apart hij hdi hdj (hold hnei hi) (hold hnej hj)

/-- The overlap check keeps a new image apart from those that are being copied. -/
theorem Placed.apart_of_check {d : ImageDesc} {size : Nat} (hend : d.imageBase + size ≤ uintptrMax + 1)
    (hcheck : bl1FwuImageCheckOverlaps pf (st.sized id size) id d = some false) {j : ImageId}
    {dj : ImageDesc} (hne : j ≠ id) (hdj : pf.desc j = some dj) (hj : Loading st j) :
    Apart d.imageBase size dj.imageBase (st.images j).imageSize := by
  obtain ⟨dj', hdj', hrec⟩ := h.recorded hj
  obtain rfl := Option.some.inj (hdj.symm.trans hdj')
  have hsame : (st.sized id size).images j = st.images j := Function.update_of_ne hne _ _
  have hsize : ((st.sized id size).images j).imageSize ≠ 0 := by
    rw [hsame]
    exact (Nat.lt_of_lt_of_le hrec.pos hrec.le).ne'
  have hself : ((st.sized id size).images id).imageSize = size := by
    simp only [Bl1.sized, Bl1.setImage, Function.update_self]
  have hspec := overlapsLoaded_spec _ hcheck j (h.loaded hj) hne dj hdj hsize
  rw [hsame, hself, endAddr_eq hend, endAddr_eq (Platform.fits_end hrec.fits hrec.size)] at hspec
  intro a hlo hhi hin
  omega

theorem Placed.block {d : ImageDesc} {imageSrc : Nat} {blockSize imageSize : UInt32}
    {memCheckFails : Bool} {size done : Nat} (hd : pf.desc id = some d) (hblock : blockSize ≠ 0)
    (hcases : PassesChecks pf st id d imageSrc blockSize imageSize memCheckFails ∧ size = imageSize.toNat ∧
        done = 0 ∨
      (st.images id).state = .copying ∧ size = (st.images id).imageSize ∧ done = (st.images id).copiedSize) :
    Recorded pf d
        { state := if min blockSize.toNat (size - done) = size - done then .copied else .copying
          copiedSize := done + min blockSize.toNat (size - done)
          imageSize := size } ∧
      ∀ j dj, j ≠ id → pf.desc j = some dj → Loading st j →
        Apart d.imageBase size dj.imageBase (st.images j).imageSize := by
  have hpos : 0 < blockSize.toNat := Nat.pos_of_ne_zero fun hzero => hblock (UInt32.toNat.inj hzero)
  obtain ⟨hfits, hlt, hdone, hapart⟩ : pf.fits d size = true ∧ size < 2 ^ 32 ∧ done < size ∧
      ∀ j dj, j ≠ id → pf.desc j = some dj → Loading st j →
        Apart d.imageBase size dj.imageBase (st.images j).imageSize := by
    rcases hcases with ⟨hpasses, rfl, rfl⟩ | ⟨hcopying, rfl, rfl⟩
    · have hsize : 0 < imageSize.toNat :=
        Nat.pos_of_ne_zero fun hzero => hpasses.size (UInt32.toNat.inj hzero)
      have hlt : imageSize.toNat < 2 ^ 32 := imageSize.toNat_lt
      exact ⟨hpasses.fits, hlt, hsize, fun j dj hne hdj hj =>
        h.apart_of_check (Platform.fits_end hpasses.fits hlt) hpasses.noOverlap hne hdj hj⟩
    · have hid : Loading st id := .inl hcopying
      obtain ⟨d', hd', hrec⟩ := h.recorded hid
      obtain rfl := Option.some.inj (hd.symm.trans hd')
      exact ⟨hrec.fits, hrec.size, hrec.copying hcopying, fun j dj hne hdj hj =>
        h.apart hne.symm hd hdj hid hj⟩
  refine ⟨⟨hfits, hlt, by dsimp only; omega, by dsimp only; omega, fun hstate => ?_, fun hstate => ?_⟩, hapart⟩
  · have hmin : ¬ min blockSize.toNat (size - done) = size - done := fun heq => by
      rw [if_pos heq] at hstate
      exact nomatch hstate
    dsimp only
    omega
  · have hmin : min blockSize.toNat (size - done) = size - done := by
      by_contra hne
      rw [if_neg hne] at hstate
      exact nomatch hstate
    dsimp only
    omega

theorem Placed.effect (heffect : Effect pf st smc st') : Placed pf st' := by
  have hchange := h.change heffect
  unfold Smc.image at hchange
  cases heffect with
  | same => exact h
  | @copied id imageSrc blockSize imageSize data _ _ d size done ids hd hsecure hblock hcases hadd =>
    refine hchange fun _ => ⟨(h.slots.add hadd (pf.ne_invalid hd)).2.1, d, hd, ?_⟩
    simp only [Function.update_self]
    exact h.block hd hblock hcases
  | _ =>
    -- the image is in one of the other states
    refine hchange fun hloading => absurd hloading ?_
    simp_all [Loading, Bl1.setImage]

end

theorem Placed.of_boot (pf : Platform) (slots : Nat) (launched : ImageId) (mem : Memory) :
    Placed pf (boot slots launched mem).bl1 := by
  have hnone : ∀ {id}, ¬ Loading (boot slots launched mem).bl1 id := fun {id} => by
    unfold Loading
    simp only [boot, Function.update_apply]
    split <;> decide
  exact ⟨.of_boot slots launched mem, fun h => absurd h hnone, fun h => absurd h hnone, fun _ _ _ h => absurd h hnone⟩

/-- What a copy writes: a part of its own range. -/
theorem Placed.copy_writes (h : Placed pf st) (hv2 : pf.loadImageV2 = true) {imageSrc : Nat}
    {blockSize imageSize : UInt32} {data : Nat → UInt8} {memCheckFails preLoadFails : Bool} {rc : Rc}
    (hcall : bl1FwuImageCopy pf id imageSrc blockSize imageSize data memCheckFails preLoadFails st =
      some (rc, st')) :
    st'.mem = st.mem ∨ ∃ d dest len, pf.desc id = some d ∧ st'.mem = memcpy st.mem dest len data ∧
      d.imageBase ≤ dest ∧ dest + len ≤ d.imageBase + d.imageMaxSize ∧
      ∀ j dj, j ≠ id → pf.desc j = some dj → Loading st j →
        Apart dest len dj.imageBase (st.images j).imageSize := by
  cases Effect.of_imageCopy hcall with
  | same => exact .inl rfl
  | copyRefused => exact .inl rfl
  | hookFailed => exact .inl rfl
  | @copied _ _ _ _ _ _ _ d size done ids hd hsecure hblock hcases hadd =>
    obtain ⟨hrecorded, hapart⟩ := h.block hd hblock hcases
    have hfits : size ≤ d.imageMaxSize := by
      have hfits := hrecorded.fits
      rw [Platform.fits, if_pos hv2] at hfits
      exact of_decide_eq_true hfits
    have hle : done + min blockSize.toNat (size - done) ≤ size := hrecorded.le
    refine .inr ⟨d, _, _, hd, rfl, Nat.le_add_right _ _, by omega, fun j dj hne hdj hj a hlo hhi => ?_⟩
    exact hapart j dj hne hdj hj a (by omega) (by omega)

end Placed

/-- In every state that FWU SMCs lead to, with `LOAD_IMAGE_V2`, the ranges of the images that are being copied
or have been are disjoint and their sizes are in order, and a further copy writes only to the place of its
image. -/
theorem fwu_copies_apart (pf : Platform) (hv2 : pf.loadImageV2 = true) (slots : Nat) (launched : ImageId)
    (mem : Memory) (st : Bl1)
    (hrun : Reaches (SmcStep pf) (fun _ _ => True) (boot slots launched mem).bl1 st) :
    (∀ i j di dj, i ≠ j → pf.desc i = some di → pf.desc j = some dj → Loading st i → Loading st j →
      Apart di.imageBase (st.images i).imageSize dj.imageBase (st.images j).imageSize) ∧
    (∀ i, Loading st i → 0 < (st.images i).copiedSize ∧ (st.images i).copiedSize ≤ (st.images i).imageSize ∧
      ((st.images i).state = .copied → (st.images i).copiedSize = (st.images i).imageSize)) ∧
    ∀ id imageSrc blockSize imageSize data memCheckFails preLoadFails rc st',
      bl1FwuImageCopy pf id imageSrc blockSize imageSize data memCheckFails preLoadFails st = some (rc, st') →
      st'.mem = st.mem ∨ ∃ d dest len, pf.desc id = some d ∧ st'.mem = memcpy st.mem dest len data ∧
        d.imageBase ≤ dest ∧ dest + len ≤ d.imageBase + d.imageMaxSize ∧
        ∀ j dj, j ≠ id → pf.desc j = some dj → Loading st j →
          Apart dest len dj.imageBase (st.images j).imageSize := by
  have h : Placed pf st := hrun.invariant (Placed.of_boot pf slots launched mem)
    fun h _ ⟨_, hcall⟩ => h.effect (.of_handler hcall)
  refine ⟨fun i j di dj => h.apart, fun i hi => ?_, fun _ _ _ _ _ _ _ _ _ => h.copy_writes hv2⟩
  obtain ⟨d, -, hrec⟩ := h.recorded hi
  exact ⟨hrec.pos, hrec.le, hrec.copied⟩

/-- Images 6 and 4 have been copied, to 4096 and 8192. -/
theorem fwu_copies_apart_two : ∃ st, Loading st 6 ∧ Loading st 4 ∧
    Apart 4096 (st.images 6).imageSize 8192 (st.images 4).imageSize ∧ (st.images 6).imageSize = 4 := by
  have hrun : Reaches (SmcStep sharedPlace) (fun _ _ => True) (boot 10 0 fun _ => 0).bl1 _ :=
    .step (a := copyFour 4) (.step (a := copyFour 6) .start trivial ⟨_, rfl⟩) trivial ⟨_, rfl⟩
  have hapart := (fwu_copies_apart sharedPlace rfl 10 0 (fun _ => 0) _ hrun).1 6 4 (secureImage 4096 (by decide))
    (secureImage 8192 (by decide)) (by decide) rfl rfl (.inr rfl) (.inr rfl)
  exact ⟨_, .inr rfl, .inr rfl, hapart, rfl⟩

end Armada3720.Fwu
