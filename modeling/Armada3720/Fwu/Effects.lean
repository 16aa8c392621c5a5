import Armada3720.Fwu.Model

/-!
# What an FWU SMC can do

`Effect` lists every way a handler can change the state of BL1, with the checks it has passed. Most properties
of runs are proved from this list.
-/

namespace Armada3720.Fwu

/-- An FWU SMC with the answers BL1 gets while it handles it. -/
inductive Smc where
  | imageCopy (id : ImageId) (imageSrc : Nat) (blockSize imageSize : UInt32)
      (data : Nat → UInt8) (memCheckFails preLoadFails : Bool)
  | imageAuth (id : ImageId) (imageSrc : Nat) (imageSize : UInt32) (memCheckFails verifies : Bool)
  | imageExecute (id : ImageId)
  | imageResume
  | secImageDone
  | imageReset (id : ImageId)

/-- `bl1_fwu_smc_handler`. The caller is the world that runs. -/
def bl1FwuSmcHandler (pf : Platform) (smc : Smc) (st : Bl1) : Option (Rc × Bl1) :=
  match smc with
  | .imageCopy id imageSrc blockSize imageSize data memCheckFails preLoadFails =>
    bl1FwuImageCopy pf id imageSrc blockSize imageSize data memCheckFails preLoadFails st
  | .imageAuth id imageSrc imageSize memCheckFails verifies =>
    bl1FwuImageAuth pf id imageSrc imageSize memCheckFails verifies st
  | .imageExecute id => some (bl1FwuImageExecute pf id st)
  | .imageResume => bl1FwuImageResume pf st
  | .secImageDone => bl1FwuSecImageDone pf st
  | .imageReset id => bl1FwuImageReset pf id st

section Effects

variable (pf : Platform) (st : Bl1)

def Bl1.sized (id : ImageId) (size : Nat) : Bl1 :=
  st.setImage id { st.images id with imageSize := size }

/-- The first call of `bl1_fwu_image_copy` for an image gets to the overlap check. -/
structure FirstCopy (id : ImageId) (d : ImageDesc) (imageSrc : Nat) (blockSize imageSize : UInt32) :
    Prop where
  desc : pf.desc id = some d
  world : st.world = .normal
  secure : d.secure = true
  state : (st.images id).state = .reset
  src : imageSrc ≠ 0
  block : blockSize ≠ 0
  noOverflow : checkUptrOverflow imageSrc (blockSize.toNat - 1) = false
  size : imageSize ≠ 0
  fits : pf.fits d imageSize.toNat = true

/-- The call gets to the platform hook. -/
structure PassesChecks (id : ImageId) (d : ImageDesc) (imageSrc : Nat) (blockSize imageSize : UInt32)
    (memCheckFails : Bool) : Prop extends FirstCopy pf st id d imageSrc blockSize imageSize where
  noOverlap : bl1FwuImageCheckOverlaps pf (st.sized id imageSize.toNat) id d = some false
  memCheck : memCheckFails = false
  slot : bl1FwuAddLoadedId st.loadedIds id ≠ none

/-- The call fails in `bl1_plat_handle_pre_image_load`. -/
def FailsInHook : Smc → Prop
  | .imageCopy id imageSrc blockSize imageSize _ memCheckFails preLoadFails =>
    preLoadFails = true ∧ ∃ d, PassesChecks pf st id d imageSrc blockSize imageSize memCheckFails
  | _ => False

/-- What a call can do to the state. -/
inductive Effect : Smc → Bl1 → Prop
  | same (smc : Smc) : Effect smc st
  /-- The first copy is refused after the size is recorded. -/
  | copyRefused {id imageSrc blockSize imageSize data memCheckFails preLoadFails d} {status : ImageStatus} :
      pf.desc id = some d → (st.images id).state = .reset → status.state = .reset →
      (status.copiedSize = 0 ∨ status.copiedSize = (st.images id).copiedSize) →
      Effect (.imageCopy id imageSrc blockSize imageSize data memCheckFails preLoadFails) (st.setImage id status)
  | hookFailed {id imageSrc blockSize imageSize data memCheckFails preLoadFails d ids} {status : ImageStatus} :
      preLoadFails = true → PassesChecks pf st id d imageSrc blockSize imageSize memCheckFails →
      status.state = .reset → status.copiedSize = 0 → bl1FwuAddLoadedId st.loadedIds id = some ids →
      Effect (.imageCopy id imageSrc blockSize imageSize data memCheckFails preLoadFails)
        { st.setImage id status with loadedIds := ids }
  /-- A block is copied, the first one or a further one. -/
  | copied {id imageSrc blockSize imageSize data memCheckFails preLoadFails d size done ids} :
      pf.desc id = some d → d.secure = true → blockSize ≠ 0 →
      (PassesChecks pf st id d imageSrc blockSize imageSize memCheckFails ∧ size = imageSize.toNat ∧ done = 0 ∨
        (st.images id).state = .copying ∧ size = (st.images id).imageSize ∧
          done = (st.images id).copiedSize) →
      bl1FwuAddLoadedId st.loadedIds id = some ids →
      Effect (.imageCopy id imageSrc blockSize imageSize data memCheckFails preLoadFails)
        { st with
          loadedIds := ids
          mem := memcpy st.mem (d.imageBase + done) (min blockSize.toNat (size - done)) data
          images := Function.update st.images id
            { state := if min blockSize.toNat (size - done) = size - done then .copied else .copying
              copiedSize := done + min blockSize.toNat (size - done)
              imageSize := size } }
  | authenticated {id imageSrc imageSize memCheckFails verifies d size ids} :
      pf.desc id = some d →
      ((st.images id).state = .copied ∧ ids = st.loadedIds ∧ size = (st.images id).imageSize ∨
        (st.images id).state = .reset ∧ bl1FwuAddLoadedId st.loadedIds id = some ids) →
      verifies = true ∧ ((st.images id).state = .reset → size = imageSize.toNat) →
      Effect (.imageAuth id imageSrc imageSize memCheckFails verifies)
        { st.setImage id ⟨.authenticated, (st.images id).copiedSize, size⟩ with
          loadedIds := ids
          mem := pf.postImageLoad id st.mem }
  | rejected {id imageSrc imageSize memCheckFails verifies d mem ids} {status : ImageStatus} :
      pf.desc id = some d →
      ((st.images id).state = .copied ∧ st.world = .normal ∧ ids = st.loadedIds ∨
        (st.images id).state = .reset ∧ bl1FwuAddLoadedId st.loadedIds id = some ids) →
      status.state = .reset → status.copiedSize = (st.images id).copiedSize →
      Effect (.imageAuth id imageSrc imageSize memCheckFails verifies)
        { st.setImage id status with
          loadedIds := (bl1FwuRemoveLoadedId id ids).getD ids
          mem := mem }
  | executed {id d} : pf.desc id = some d → st.world = .normal → d.secure = true → d.executable = true →
      (st.images id).state = .authenticated →
      Effect (.imageExecute id)
        { st.setImage id { st.images id with state := .executed } with
          secExecImageId := id
          world := .secure }
  | interrupted {d} : pf.desc st.secExecImageId = some d → st.world = .secure →
      Effect .imageResume
        { st.setImage st.secExecImageId { st.images st.secExecImageId with state := .interrupted } with
          world := .normal }
  | resumed {d} : pf.desc st.secExecImageId = some d → st.world = .normal →
      (pf.enableAssertions = true → (st.images st.secExecImageId).state = .interrupted) →
      Effect .imageResume
        { st.setImage st.secExecImageId { st.images st.secExecImageId with state := .executed } with
          world := .secure }
  | done {d} : pf.desc st.secExecImageId = some d → st.world = .secure →
      Effect .secImageDone
        { st.setImage st.secExecImageId { st.images st.secExecImageId with state := .reset } with
          loadedIds := (bl1FwuRemoveLoadedId st.secExecImageId st.loadedIds).getD st.loadedIds
          secExecImageId := invalidImageId
          world := .normal }
  | reset {id d ids mem} : pf.desc id = some d → st.world = .normal → (st.images id).state ≠ .reset →
      (st.images id).state ≠ .executed → bl1FwuRemoveLoadedId id st.loadedIds = some ids →
      Effect (.imageReset id)
        { st.setImage id ⟨.reset, 0, 0⟩ with
          loadedIds := ids
          mem := mem }

variable {pf st} {st' : Bl1} {rc : Rc}

theorem World.eq_normal {w : World} (h : ¬ w = .secure) : w = .normal := by
  cases w with
  | normal => rfl
  | secure => exact absurd rfl h

theorem assert_eq_some {α : Type} {p : Prop} [Decidable p] {k : Option α} {x : α}
    (h : pf.assert p k = some x) : k = some x := by
  unfold Platform.assert at h
  split at h
  · cases h
  · exact h

theorem assert_true {p : Prop} [Decidable p] {α : Type} {k : Option α} {x : α}
    (h : pf.assert p k = some x) (hon : pf.enableAssertions = true) : p := by
  unfold Platform.assert at h
  by_contra hp
  rw [if_pos ⟨hon, hp⟩] at h
  exact nomatch h

theorem clip_eq_min (a b : Nat) : (if b < a then b else a) = min a b := by
  rw [Nat.min_def]
  split <;> split <;> omega

variable {memCheckFails : Bool} {id : ImageId} {imageSrc : Nat} {imageSize : UInt32}

variable {preLoadFails : Bool} {data : Nat → UInt8} {blockSize : UInt32}

theorem copyBlock_cases {d : ImageDesc} {blockSize : Nat}
    (h : copyBlock id d blockSize data memCheckFails preLoadFails st = some (rc, st')) :
    st' = st ∨ memCheckFails = false ∧ ∃ ids, bl1FwuAddLoadedId st.loadedIds id = some ids ∧
      ((st.images id).state = .reset ∧ preLoadFails = true ∧ st' = { st with loadedIds := ids } ∨
        st' = { st with
          loadedIds := ids
          mem := memcpy st.mem (d.imageBase + (st.images id).copiedSize)
            (min blockSize ((st.images id).imageSize - (st.images id).copiedSize)) data
          images := Function.update st.images id
            { state :=
                if min blockSize ((st.images id).imageSize - (st.images id).copiedSize) =
                  (st.images id).imageSize - (st.images id).copiedSize then .copied else .copying
              copiedSize := (st.images id).copiedSize +
                min blockSize ((st.images id).imageSize - (st.images id).copiedSize)
              imageSize := (st.images id).imageSize } }) := by
  unfold copyBlock at h
  simp only [clip_eq_min] at h
  split at h
  · cases h
    exact .inl rfl
  · next hcheck =>
    split at h
    · cases h
      exact .inl rfl
    · next ids hadd =>
      refine .inr ⟨Bool.not_eq_true _ ▸ hcheck, ids, hadd, ?_⟩
      split at h
      · next hhook =>
        cases h
        exact .inl ⟨hhook.1, hhook.2, rfl⟩
      · cases h
        exact .inr rfl

theorem FirstCopy.of_guards {d : ImageDesc} (hd : pf.desc id = some d)
    (hworld : ¬ st.world = .secure) (hsecure : ¬ d.secure = false)
    (hstate : ¬ ((st.images id).state ≠ .reset ∧ (st.images id).state ≠ .copying))
    (hsrc : ¬ (imageSrc = 0 ∨ blockSize = 0 ∨ checkUptrOverflow imageSrc (blockSize.toNat - 1) = true))
    (hcopying : ¬ (st.images id).state = .copying) (hsize : ¬ imageSize.toNat = 0)
    (hfits : ¬ pf.fits d imageSize.toNat = false) :
    FirstCopy pf st id d imageSrc blockSize imageSize := by
  simp only [not_or, Bool.not_eq_true, Bool.not_eq_false] at hsrc hsecure hfits
  refine ⟨hd, World.eq_normal hworld, hsecure, ?_, hsrc.1, hsrc.2.1, hsrc.2.2,
    fun hzero => hsize (by rw [hzero]; rfl), hfits⟩
  by_contra hne
  exact hstate ⟨hne, hcopying⟩

theorem imageCopy_cases (h : bl1FwuImageCopy pf id imageSrc blockSize imageSize data memCheckFails preLoadFails st =
      some (rc, st')) :
    st' = st ∨ ∃ d, pf.desc id = some d ∧ d.secure = true ∧ blockSize ≠ 0 ∧
      ((st.images id).state = .copying ∧
          copyBlock id d blockSize.toNat data memCheckFails preLoadFails st = some (rc, st') ∨
        FirstCopy pf st id d imageSrc blockSize imageSize ∧
          (st' = st.sized id 0 ∨
            bl1FwuImageCheckOverlaps pf (st.sized id imageSize.toNat) id d = some false ∧
              copyBlock id d blockSize.toNat data memCheckFails preLoadFails (st.setImage id
                { st.images id with imageSize := imageSize.toNat, copiedSize := 0 }) =
                  some (rc, st'))) := by
  unfold bl1FwuImageCopy at h
  split at h
  · cases h
    exact .inl rfl
  next d hd =>
  split at h
  · cases h
    exact .inl rfl
  next hworld =>
  split at h
  · cases h
    exact .inl rfl
  next hsecure =>
  split at h
  · cases h
    exact .inl rfl
  next hstate =>
  split at h
  · cases h
    exact .inl rfl
  next hsrc =>
  split at h
  · next hcopying =>
    simp only [not_or] at hsrc
    exact .inr ⟨d, hd, by simpa using hsecure, hsrc.2.1, .inl ⟨hcopying, assert_eq_some h⟩⟩
  · next hcopying =>
    unfold copyFirst at h
    split at h
    · cases h
      exact .inl rfl
    next hsize =>
    split at h
    · cases h
      exact .inl rfl
    next hfits =>
    have hfirst := FirstCopy.of_guards hd hworld hsecure hstate hsrc hcopying hsize hfits
    refine .inr ⟨d, hd, hfirst.secure, hfirst.block, .inr ⟨hfirst, ?_⟩⟩
    obtain ⟨overlaps, hcheck, h⟩ := Option.bind_eq_some_iff.mp h
    cases overlaps with
    | true =>
      cases h
      exact .inl rfl
    | false => exact .inr ⟨hcheck, h⟩

theorem Effect.of_imageCopy
    (h : bl1FwuImageCopy pf id imageSrc blockSize imageSize data memCheckFails preLoadFails st =
      some (rc, st')) :
    Effect pf st (.imageCopy id imageSrc blockSize imageSize data memCheckFails preLoadFails) st' := by
  rcases imageCopy_cases h with rfl | ⟨d, hd, hsecure, hblock, ⟨hcopying, h⟩ | ⟨hfirst, h⟩⟩
  · exact .same _
  · rcases copyBlock_cases h with rfl | ⟨-, ids, hadd, ⟨hreset, -, -⟩ | rfl⟩
    · exact .same _
    · exact nomatch hcopying.symm.trans hreset
    · exact .copied hd hsecure hblock (.inr ⟨hcopying, rfl, rfl⟩) hadd
  · have hreset := hfirst.state
    rcases h with rfl | ⟨hcheck, h⟩
    · exact .copyRefused hd hreset hreset (.inr rfl)
    have hpasses : ∀ ids, bl1FwuAddLoadedId st.loadedIds id = some ids → memCheckFails = false →
        PassesChecks pf st id d imageSrc blockSize imageSize memCheckFails := fun ids hadd hmem =>
      ⟨hfirst, hcheck, hmem, by rw [hadd]; exact Option.some_ne_none _⟩
    have hself : (st.setImage id { st.images id with imageSize := imageSize.toNat, copiedSize := 0 }).images id =
        { st.images id with imageSize := imageSize.toNat, copiedSize := 0 } := Function.update_self ..
    rcases copyBlock_cases h with rfl | ⟨hmem, ids, hadd, ⟨-, hhook, rfl⟩ | rfl⟩
    · exact .copyRefused hd hreset hreset (.inl rfl)
    · exact .hookFailed hhook (hpasses ids hadd hmem) hreset rfl hadd
    · rw [hself]
      simp only [Bl1.setImage, Function.update_idem]
      exact .copied hd hsecure hblock (.inl ⟨hpasses ids hadd hmem, rfl, rfl⟩) hadd

theorem imageAuth_cases {verifies : Bool}
    (h : bl1FwuImageAuth pf id imageSrc imageSize memCheckFails verifies st = some (rc, st')) :
    st' = st ∧ rc ≠ .success ∨ ∃ d, pf.desc id = some d ∧
      ((st.images id).state = .copied ∧ st.world = .normal ∧
          authVerify pf id d verifies st = (rc, st') ∨
        (st.images id).state = .reset ∧ ∃ ids, bl1FwuAddLoadedId st.loadedIds id = some ids ∧
          authVerify pf id d verifies
            { st.setImage id { st.images id with imageSize := imageSize.toNat } with
              loadedIds := ids } = (rc, st')) := by
  unfold bl1FwuImageAuth at h
  split at h
  · cases h
    exact .inl ⟨rfl, by decide⟩
  next d hd =>
  split at h
  · cases h
    exact .inl ⟨rfl, by decide⟩
  next hstate =>
  rw [not_not] at hstate
  split at h
  · next hcopied =>
    refine .inr ⟨d, hd, .inl ⟨hcopied, World.eq_normal fun hw => ?_, Option.some.inj h⟩⟩
    rw [hw, hcopied] at hstate
    exact nomatch hstate
  next hcopied =>
  have hreset : (st.images id).state = .reset := by
    rw [hstate] at hcopied ⊢
    unfold authState at hcopied ⊢
    split
    · rfl
    · split
      · next hworld hsecure =>
        rw [if_neg hworld, if_pos hsecure] at hcopied
        exact absurd rfl hcopied
      · rfl
  split at h
  · cases h
    exact .inl ⟨rfl, by decide⟩
  split at h
  · cases h
    exact .inl ⟨rfl, by decide⟩
  split at h
  · cases h
    exact .inl ⟨rfl, by decide⟩
  next ids hadd => exact .inr ⟨d, hd, .inr ⟨hreset, ids, hadd, Option.some.inj h⟩⟩

theorem Effect.of_imageAuth {verifies : Bool}
    (h : bl1FwuImageAuth pf id imageSrc imageSize memCheckFails verifies st = some (rc, st')) :
    Effect pf st (.imageAuth id imageSrc imageSize memCheckFails verifies) st' := by
  rcases imageAuth_cases h with ⟨rfl, -⟩ | ⟨d, hd, ⟨hcopied, hnormal, h⟩ | ⟨hreset, ids, hadd, h⟩⟩
  · exact .same _
  · unfold authVerify at h
    split at h
    · next hverifies =>
      cases h
      exact .authenticated hd (.inl ⟨hcopied, rfl, rfl⟩) ⟨hverifies, fun hreset => nomatch hcopied.symm.trans hreset⟩
    · rw [if_pos hcopied] at h
      cases h
      exact .rejected hd (.inl ⟨hcopied, hnormal, rfl⟩) rfl rfl
  · unfold authVerify at h
    simp only [Bl1.setImage, Function.update_self, Function.update_idem, hreset] at h
    split at h
    · next hverifies =>
      cases h
      exact .authenticated hd (.inr ⟨hreset, hadd⟩) ⟨hverifies, fun _ => rfl⟩
    · cases h
      exact .rejected hd (.inr ⟨hreset, hadd⟩) rfl rfl

theorem Effect.of_imageExecute (id : ImageId) :
    Effect pf st (.imageExecute id) (bl1FwuImageExecute pf id st).2 := by
  unfold bl1FwuImageExecute
  split
  · exact .same _
  next d hd =>
  split
  · exact .same _
  next hok =>
  simp only [not_or, Bool.not_eq_false, not_not] at hok
  obtain ⟨hworld, hsecure, hexecutable, hstate⟩ := hok
  exact .executed hd (World.eq_normal hworld) hsecure hexecutable hstate

theorem Effect.of_imageResume (h : bl1FwuImageResume pf st = some (rc, st')) :
    Effect pf st .imageResume st' := by
  unfold bl1FwuImageResume at h
  dsimp only at h
  split at h
  · split at h
    · cases h
      exact .same _
    · exact nomatch h
  next d hd =>
  have h := assert_eq_some h
  split at h
  · next hworld =>
    cases assert_eq_some h
    exact .interrupted hd hworld
  · next hworld =>
    have hinterrupted := assert_true h
    cases assert_eq_some h
    exact .resumed hd hworld hinterrupted

theorem Effect.of_secImageDone (h : bl1FwuSecImageDone pf st = some (rc, st')) :
    Effect pf st .secImageDone st' := by
  unfold bl1FwuSecImageDone at h
  split at h
  · cases h
    exact .same _
  next hworld =>
  dsimp only at h
  split at h
  · exact nomatch h
  next d hd =>
  cases assert_eq_some (assert_eq_some h)
  exact .done hd (by by_contra hw; exact hworld (World.eq_normal hw))

theorem imageReset_cases (h : bl1FwuImageReset pf id st = some (rc, st')) :
    st' = st ∨ ∃ d ids, pf.desc id = some d ∧ st.world = .normal ∧ (st.images id).state ≠ .reset ∧
      (st.images id).state ≠ .executed ∧ bl1FwuRemoveLoadedId id st.loadedIds = some ids ∧
      st' = { st.setImage id ⟨.reset, 0, 0⟩ with
        loadedIds := ids
        mem := zeroNormalmem st.mem d.imageBase (st.images id).copiedSize } := by
  unfold bl1FwuImageReset at h
  split at h
  · cases h
    exact .inl rfl
  next d hd =>
  split at h
  · cases h
    exact .inl rfl
  next hworld =>
  split at h
  · cases h
    exact .inl rfl
  · cases assert_eq_some h
    exact .inl rfl
  all_goals
    next hstate =>
    split at h
    · cases h
      exact .inl rfl
    · next ids hremove =>
      cases assert_eq_some h
      exact .inr ⟨d, ids, hd, World.eq_normal hworld, by rw [hstate]; decide, by rw [hstate]; decide, hremove, rfl⟩

theorem Effect.of_imageReset (h : bl1FwuImageReset pf id st = some (rc, st')) :
    Effect pf st (.imageReset id) st' := by
  rcases imageReset_cases h with rfl | ⟨d, ids, hd, hnormal, hnot, hexec, hremove, rfl⟩
  · exact .same _
  · exact .reset hd hnormal hnot hexec hremove

/-- Every call has one of the effects. -/
theorem Effect.of_handler {smc : Smc} (h : bl1FwuSmcHandler pf smc st = some (rc, st')) :
    Effect pf st smc st' := by
  cases smc with
  | imageCopy => exact .of_imageCopy h
  | imageAuth => exact .of_imageAuth h
  | imageExecute id =>
    have heffect : Effect pf st (.imageExecute id) (bl1FwuImageExecute pf id st).2 := .of_imageExecute id
    rwa [Option.some.inj h] at heffect
  | imageResume => exact .of_imageResume h
  | secImageDone => exact .of_secImageDone h
  | imageReset => exact .of_imageReset h

end Effects

end Armada3720.Fwu
