import Armada3720.Fwu.Places

/-!
# No assertion fails, and no stale image is resumed

A run is watched: whose secure context BL1 keeps, which images have been reset since they were interrupted, and
which ones a failed hook has left in the list. The normal world can trip BL1 when it resets the image it runs
itself or resumes an image that it has reset (`Orderly`), or when it begins to copy an image while another one is
left in the list, or once an image of a single byte has been recorded, or one whose end wraps (`Allowed`).

In every run of allowed SMCs no assertion fails (`fwu_no_assertion_fails`), because an image in the list is RESET
only after its hook has failed, and the others end above their bases (`Checked`). That at most one image executes
needs the orderly SMCs only (`fwu_single_image_executes`). `fwu_resume_trips` is a run that is not orderly.
-/

namespace Armada3720.Fwu

open Lib Function

/-- With the image whose secure context is kept, the images reset since they were interrupted, and those that a
failed `bl1_plat_handle_pre_image_load` has left in the list. -/
structure Watched where
  bl1 : Bl1
  owner : ImageId
  resetSince : ImageId → Bool
  hookFailed : ImageId → Bool

/-- Whether an image is left in the list without having been copied. -/
def leftReset (st : Bl1) (id : ImageId) : Bool := (st.images id).state = .reset ∧ id ∈ st.loadedIds

def Watched.after (w : Watched) (st' : Bl1) : Smc → Watched
  | .imageExecute id =>
    { w with bl1 := st', owner := if w.bl1.world = .normal ∧ st'.world = .secure then id else w.owner }
  | .imageReset id =>
    { w with
      bl1 := st'
      resetSince :=
        if (st'.images id).state = .reset then Function.update w.resetSince id true else w.resetSince }
  | .imageResume =>
    { w with
      bl1 := st'
      resetSince :=
        if w.bl1.world = .secure then Function.update w.resetSince w.bl1.secExecImageId false
        else w.resetSince }
  | .imageCopy id _ _ _ _ _ preLoadFails =>
    { w with
      bl1 := st'
      hookFailed := Function.update w.hookFailed id (leftReset st' id && (preLoadFails || w.hookFailed id)) }
  | .imageAuth id _ _ _ _ =>
    { w with
      bl1 := st'
      hookFailed := Function.update w.hookFailed id (leftReset st' id && w.hookFailed id) }
  | .secImageDone => { w with bl1 := st' }

def WatchedStep (pf : Platform) (w : Watched) (smc : Smc) (w' : Watched) : Prop :=
  ∃ st', SmcStep pf w.bl1 smc st' ∧ w' = w.after st' smc

def watchBoot (slots : Nat) (launched : ImageId) (mem : Memory) : Watched :=
  ⟨(boot slots launched mem).bl1, invalidImageId, fun _ => false, fun _ => false⟩

/-- The normal world resets neither the image it runs itself, nor then resumes an image that it has reset. -/
def Orderly (pf : Platform) (launched : ImageId) (w : Watched) : Smc → Prop
  | .imageReset id => w.bl1.world = .normal → id ≠ launched
  | .imageResume =>
    w.bl1.world = .normal → pf.desc w.bl1.secExecImageId ≠ none → w.resetSince w.bl1.secExecImageId = false
  | _ => True

/-- No image is recorded with one byte, or with an end that wraps; and no image is begun after the hook of another
one has failed, until that one has been copied. -/
def Recordable (pf : Platform) (w : Watched) : Smc → Prop
  | .imageCopy id imageSrc blockSize imageSize _ _ _ =>
    ∀ d, FirstCopy pf w.bl1 id d imageSrc blockSize imageSize →
      imageSize ≠ 1 ∧ ∀ x, x ≠ id → w.hookFailed x = false
  | .imageAuth id _ imageSize _ verifies => verifies = true → (w.bl1.images id).state = .reset →
      ∀ d, pf.desc id = some d → d.imageBase < endAddr d.imageBase imageSize.toNat
  | _ => True

/-- The calls that cannot trip BL1. -/
def Allowed (pf : Platform) (launched : ImageId) (w : Watched) (smc : Smc) : Prop :=
  Orderly pf launched w smc ∧ Recordable pf w smc

/-- An image in the list whose hook has not failed is not RESET, and is empty or ends above its base. -/
def Checked (pf : Platform) (w : Watched) : Prop :=
  ∀ x ∈ w.bl1.loadedIds, x ≠ invalidImageId →
    if (w.bl1.images x).state = .reset then w.hookFailed x = true
    else ∀ d, pf.desc x = some d → (w.bl1.images x).imageSize ≠ 0 →
      d.imageBase < endAddr d.imageBase (w.bl1.images x).imageSize

/-- Who runs, whose secure context is kept, and whom a resume finds. -/
structure Turns (pf : Platform) (launched : ImageId) (w : Watched) : Prop where
  executed : ∀ id, (w.bl1.images id).state = .executed →
    id = launched ∨ w.bl1.world = .secure ∧ id = w.bl1.secExecImageId
  context : ∀ d, pf.desc w.bl1.secExecImageId = some d →
    d.secure = true ∧ d.executable = true ∧ w.owner = w.bl1.secExecImageId
  resumable : w.bl1.world = .normal → pf.desc w.bl1.secExecImageId ≠ none →
    w.resetSince w.bl1.secExecImageId = false →
    (w.bl1.images w.bl1.secExecImageId).state = .interrupted

structure Sane (pf : Platform) (launched : ImageId) (w : Watched) : Prop extends Turns pf launched w where
  placed : Placed pf w.bl1
  running : Running pf w.bl1
  described : ∀ id ∈ w.bl1.loadedIds, id ≠ invalidImageId → pf.desc id ≠ none
  loaded : ∀ id, pf.desc id ≠ none → (w.bl1.images id).state ≠ .reset → id ≠ launched →
    id ∈ w.bl1.loadedIds
  copied : ∀ id d, pf.desc id = some d → (w.bl1.images id).copiedSize ≠ 0 → d.secure = true

section Sane

variable {pf : Platform} {launched : ImageId} {w : Watched} {st' : Bl1} {id : ImageId} {smc : Smc}

theorem overlapsLoaded_isSome {st : Bl1} {checkedBase checkedEnd : Nat} (ids : List ImageId)
    (hdesc : ∀ x ∈ ids, x ≠ invalidImageId → pf.desc x ≠ none)
    (hok : ∀ x ∈ ids, x ≠ invalidImageId → x ≠ id → (st.images x).state ≠ .reset ∧
      ∀ d, pf.desc x = some d → (st.images x).imageSize ≠ 0 →
        d.imageBase < endAddr d.imageBase (st.images x).imageSize) :
    ∃ overlaps, overlapsLoaded pf st id checkedBase checkedEnd ids = some overlaps := by
  induction ids with
  | nil => exact ⟨false, rfl⟩
  | cons x xs ih =>
    have ih := ih (fun y hy => hdesc y (List.mem_cons_of_mem _ hy)) fun y hy => hok y (List.mem_cons_of_mem _ hy)
    unfold overlapsLoaded
    split
    · exact ih
    · next hskip =>
      rw [not_or] at hskip
      obtain ⟨d, hd⟩ := Option.ne_none_iff_exists'.mp (hdesc x List.mem_cons_self hskip.1)
      obtain ⟨hstate, hend⟩ := hok x List.mem_cons_self hskip.1 hskip.2
      simp only [hd, Platform.assert, hstate, not_true_eq_false, and_false, if_false, ne_eq, not_false_eq_true]
      split
      · exact ih
      · next hzero =>
        rw [if_neg (fun h => h.2 (hend d hd hzero))]
        split
        · exact ih
        · exact ⟨true, rfl⟩

theorem assert_of {p : Prop} [Decidable p] {α : Type} (hp : p) (k : Option α) : pf.assert p k = k :=
  if_neg fun h => h.2 hp

theorem copyBlock_isSome {st : Bl1} {d : ImageDesc} {blockSize : Nat} {data : Nat → UInt8}
    {memCheckFails preLoadFails : Bool} :
    ∃ r, copyBlock id d blockSize data memCheckFails preLoadFails st = some r := by
  unfold copyBlock
  dsimp only
  split
  · exact ⟨_, rfl⟩
  · split
    · exact ⟨_, rfl⟩
    · split <;> exact ⟨_, rfl⟩

section

variable (h : Sane pf launched w)
include h

theorem Sane.imageCopy_isSome {imageSrc : Nat} {blockSize imageSize : UInt32} {data : Nat → UInt8}
    {memCheckFails preLoadFails : Bool}
    (hchecked : Checked pf w)
    (hok : Recordable pf w (.imageCopy id imageSrc blockSize imageSize data memCheckFails preLoadFails)) :
    ∃ r, bl1FwuImageCopy pf id imageSrc blockSize imageSize data memCheckFails preLoadFails w.bl1 = some r := by
  unfold bl1FwuImageCopy
  split
  · exact ⟨_, rfl⟩
  next d hd =>
  split
  · exact ⟨_, rfl⟩
  next hworld =>
  split
  · exact ⟨_, rfl⟩
  next hsecure =>
  split
  · exact ⟨_, rfl⟩
  next hstate =>
  split
  · exact ⟨_, rfl⟩
  next hsrc =>
  split
  · next hcopying =>
    obtain ⟨d', -, hrec⟩ := h.placed.recorded (.inl hcopying)
    have hlt := hrec.copying hcopying
    rw [assert_of ⟨hrec.pos.ne', by omega, hlt⟩]
    exact copyBlock_isSome
  · next hcopying =>
    unfold copyFirst
    split
    · exact ⟨_, rfl⟩
    next hsize =>
    split
    · exact ⟨_, rfl⟩
    next hfits =>
    have hfirst := FirstCopy.of_guards hd hworld hsecure hstate hsrc hcopying hsize hfits
    have hself : ((w.bl1.sized id imageSize.toNat).images id).imageSize = imageSize.toNat := by
      simp only [Bl1.sized, Bl1.setImage, update_self]
    have hentries : ∀ x ∈ w.bl1.loadedIds, x ≠ invalidImageId → x ≠ id →
        ((w.bl1.sized id imageSize.toNat).images x).state ≠ .reset ∧ ∀ d, pf.desc x = some d →
          ((w.bl1.sized id imageSize.toNat).images x).imageSize ≠ 0 →
          d.imageBase < endAddr d.imageBase ((w.bl1.sized id imageSize.toNat).images x).imageSize := by
      intro x hx hinv hne
      have hentry := hchecked x hx hinv
      simp only [Bl1.sized, Bl1.setImage, update_of_ne hne]
      split at hentry
      · cases hentry.symm.trans ((hok d hfirst).2 x hne)
      · next hstate => exact ⟨hstate, hentry⟩
    obtain ⟨overlaps, hcheck⟩ := overlapsLoaded_isSome w.bl1.loadedIds h.described hentries
    have hcheck : bl1FwuImageCheckOverlaps pf (w.bl1.sized id imageSize.toNat) id d = some overlaps := by
      rw [bl1FwuImageCheckOverlaps, hself]
      exact hcheck
    rw [Bl1.sized] at hcheck
    simp only [hcheck, Option.bind_some]
    split
    · exact ⟨_, rfl⟩
    · exact copyBlock_isSome

theorem Sane.imageResume_isSome (hok : Orderly pf launched w .imageResume) :
    ∃ r, bl1FwuImageResume pf w.bl1 = some r := by
  unfold bl1FwuImageResume
  dsimp only
  cases hd : pf.desc w.bl1.secExecImageId with
  | none =>
    cases hworld : w.bl1.world with
    | normal => exact ⟨_, rfl⟩
    | secure => exact absurd hd (h.running hworld).1
  | some d =>
    obtain ⟨hsecure, hexecutable, -⟩ := h.context d hd
    have hsome := pf.desc_ne_none hd
    dsimp only
    rw [assert_of ⟨hsecure, hexecutable⟩]
    cases hworld : w.bl1.world with
    | secure =>
      rw [assert_of (h.running hworld).2]
      exact ⟨_, rfl⟩
    | normal =>
      rw [assert_of (h.resumable hworld hsome (hok hworld hsome))]
      exact ⟨_, rfl⟩

theorem Sane.secImageDone_isSome (hlaunched : ∀ d, pf.desc launched = some d → d.secure = false) :
    ∃ r, bl1FwuSecImageDone pf w.bl1 = some r := by
  unfold bl1FwuSecImageDone
  split
  · exact ⟨_, rfl⟩
  next hworld =>
  have hsecure : w.bl1.world = .secure := by
    by_contra hw
    exact hworld (World.eq_normal hw)
  obtain ⟨hsome, hexecuted⟩ := h.running hsecure
  obtain ⟨d, hd⟩ := Option.ne_none_iff_exists'.mp hsome
  obtain ⟨hdsecure, hexecutable, -⟩ := h.context d hd
  have hne : w.bl1.secExecImageId ≠ launched := fun heq => by
    have hfalse := hlaunched d (heq ▸ hd)
    cases hdsecure.symm.trans hfalse
  have hin := h.loaded _ hsome (by rw [hexecuted]; decide) hne
  obtain ⟨ids, hremove⟩ : ∃ ids, bl1FwuRemoveLoadedId w.bl1.secExecImageId w.bl1.loadedIds = some ids := by
    cases hremove : bl1FwuRemoveLoadedId w.bl1.secExecImageId w.bl1.loadedIds with
    | none => exact absurd hin (removeLoadedId_eq_none hremove)
    | some ids => exact ⟨ids, rfl⟩
  simp only [hd]
  rw [assert_of ⟨hdsecure, hexecutable, hexecuted⟩, assert_of (by rw [hremove]; rfl)]
  exact ⟨_, rfl⟩

theorem Sane.imageReset_isSome (hok : Orderly pf launched w (.imageReset id)) :
    ∃ r, bl1FwuImageReset pf id w.bl1 = some r := by
  unfold bl1FwuImageReset
  split
  · exact ⟨_, rfl⟩
  next d hd =>
  split
  · exact ⟨_, rfl⟩
  next hworld =>
  split
  · exact ⟨_, rfl⟩
  · next hexecuted =>
    rcases h.executed id hexecuted with hid | ⟨hsecure, -⟩
    · exact absurd hid (hok (World.eq_normal hworld))
    · exact absurd hsecure hworld
  all_goals
    split
    · exact ⟨_, rfl⟩
    · rw [assert_of (h.copied id d hd)]
      exact ⟨_, rfl⟩

theorem Sane.handler_isSome (hlaunched : ∀ d, pf.desc launched = some d → d.secure = false)
    (hchecked : Checked pf w) (hok : Allowed pf launched w smc) : ∃ r, bl1FwuSmcHandler pf smc w.bl1 = some r := by
  cases smc with
  | imageCopy => exact h.imageCopy_isSome hchecked hok.2
  | imageAuth id imageSrc imageSize memCheckFails verifies =>
    unfold bl1FwuSmcHandler bl1FwuImageAuth
    dsimp only
    repeat' split
    all_goals exact ⟨_, rfl⟩
  | imageExecute => exact ⟨_, rfl⟩
  | imageResume => exact h.imageResume_isSome hok.1
  | secImageDone => exact h.secImageDone_isSome hlaunched
  | imageReset => exact h.imageReset_isSome hok.1

theorem Sane.not_resumesReset (hok : Orderly pf launched w smc) : ¬ ResumesReset pf w.bl1 smc := by
  cases smc with
  | imageResume =>
    rintro ⟨-, hworld, hd, hreset⟩
    cases hreset.symm.trans (h.resumable hworld hd (hok hworld hd))
  | _ => exact fun hresumes => hresumes

omit h in
theorem Effect.copiedSize {st : Bl1} (heffect : Effect pf st smc st') {d : ImageDesc}
    (hd : pf.desc (smc.image st) = some d) (hsize : (st'.images (smc.image st)).copiedSize ≠ 0) :
    d.secure = true ∨ (st.images (smc.image st)).copiedSize ≠ 0 := by
  cases heffect with
  | copied hd' hsecure => exact .inl (Option.some.inj (hd'.symm.trans hd) ▸ hsecure)
  | _ => simp_all [Smc.image, Bl1.setImage]

theorem Sane.next {w' : Watched} (heffect : Effect pf w.bl1 smc w'.bl1) (hok : Orderly pf launched w smc)
    (hturns : Turns pf launched w') : Sane pf launched w' := by
  obtain ⟨-, hmem⟩ := heffect.slots h.placed.slots
  refine ⟨hturns, h.placed.effect heffect, heffect.running h.running, fun j hj hinv => ?_,
    fun j hj hstate hl => ?_, fun j d hd hsize => ?_⟩
  · rcases heffect.same_or_desc with hsame | hdesc
    · exact h.described j (hsame ▸ hj) hinv
    · by_cases hne : j = smc.image w.bl1
      · exact hne ▸ hdesc
      · exact h.described j ((hmem j hne hinv).mp hj) hinv
  · by_cases hne : j = smc.image w.bl1
    · subst hne
      cases heffect.listing h.placed.slots h.running with
      | kept hreset hids =>
        rw [hids]
        exact h.loaded _ hj (mt hreset.mpr hstate) hl
      | listed _ hin => exact hin
      | removed hreset => exact absurd hreset hstate
      | hookFailed _ hreset => exact absurd hreset hstate
      | resumed hresumes => exact absurd hresumes (h.not_resumesReset hok)
    · rw [heffect.others hne] at hstate
      exact (hmem j hne fun heq => hj (heq ▸ pf.desc_invalid)).mpr (h.loaded j hj hstate hl)
  · by_cases hne : j = smc.image w.bl1
    · subst hne
      exact (heffect.copiedSize hd hsize).elim (·) (h.copied _ d hd)
    · rw [heffect.others hne] at hsize
      exact h.copied j d hd hsize

/-- A call about an image that neither runs nor comes to run. -/
theorem Sane.idle {w' : Watched} (heffect : Effect pf w.bl1 smc w'.bl1) (hworld : w'.bl1.world = w.bl1.world)
    (hexec : w'.bl1.secExecImageId = w.bl1.secExecImageId) (howner : w'.owner = w.owner)
    (hnew : (w'.bl1.images (smc.image w.bl1)).state ≠ .executed)
    (hflag : ∀ j, w'.resetSince j = false → w.resetSince j = false)
    (hreset : (w.bl1.images (smc.image w.bl1)).state = .interrupted →
      w'.resetSince (smc.image w.bl1) = true) : Turns pf launched w' := by
  refine ⟨fun j hstate => ?_, fun d hd => ?_, fun hnormal hd hsince => ?_⟩
  · have hne : j ≠ smc.image w.bl1 := fun heq => hnew (heq ▸ hstate)
    rw [heffect.others hne] at hstate
    rw [hworld, hexec]
    exact h.executed j hstate
  · rw [hexec] at hd ⊢
    rw [howner]
    exact h.context d hd
  · rw [hworld] at hnormal
    rw [hexec] at hd hsince ⊢
    have hinterrupted := h.resumable hnormal hd (hflag _ hsince)
    have hne : w.bl1.secExecImageId ≠ smc.image w.bl1 := fun heq => by
      rw [heq] at hinterrupted hsince
      exact nomatch (hreset hinterrupted).symm.trans hsince
    rw [heffect.others hne]
    exact hinterrupted

/-- A call about the image that runs, or comes to run. -/
theorem Sane.switch (heffect : Effect pf w.bl1 smc st')
    (hexec : w.bl1.world = .secure → w.bl1.secExecImageId = smc.image w.bl1)
    (hexecuted : (st'.images (smc.image w.bl1)).state = .executed →
      st'.world = .secure ∧ smc.image w.bl1 = st'.secExecImageId) (j : ImageId)
    (hstate : (st'.images j).state = .executed) : j = launched ∨ st'.world = .secure ∧ j = st'.secExecImageId := by
  by_cases hne : j = smc.image w.bl1
  · subst hne
    exact .inr (hexecuted hstate)
  · rw [heffect.others hne] at hstate
    exact (h.executed j hstate).imp_right fun hrun => absurd (hrun.2.trans (hexec hrun.1)) hne

omit h in
theorem Watched.resetSince_of_reset {j : ImageId} (hj : (w.after st' (.imageReset id)).resetSince j = false) :
    w.resetSince j = false := by
  simp only [Watched.after] at hj
  split at hj
  · by_cases hne : j = id
    · rw [hne, update_self] at hj
      exact nomatch hj
    · rwa [update_of_ne hne] at hj
  · exact hj

theorem Sane.same (smc : Smc) : Turns pf launched (w.after w.bl1 smc) := by
  cases smc with
  | imageExecute id =>
    have howner : (w.after w.bl1 (.imageExecute id)).owner = w.owner :=
      if_neg fun hworld => nomatch hworld.1.symm.trans hworld.2
    exact ⟨h.executed, fun d hd => howner ▸ h.context d hd, h.resumable⟩
  | imageReset id =>
    exact ⟨h.executed, h.context, fun hnormal hd hsince => h.resumable hnormal hd (w.resetSince_of_reset hsince)⟩
  | imageResume =>
    refine ⟨h.executed, h.context, fun hnormal hd hsince => h.resumable hnormal hd ?_⟩
    rwa [Watched.after, if_neg (by rw [show w.bl1.world = .normal from hnormal]; decide)] at hsince
  | _ => exact ⟨h.executed, h.context, h.resumable⟩

theorem Sane.effect (heffect : Effect pf w.bl1 smc st') (hok : Orderly pf launched w smc) :
    Sane pf launched (w.after st' smc) := by
  have hafter : Effect pf w.bl1 smc (w.after st' smc).bl1 := by cases smc <;> exact heffect
  refine h.next hafter hok ?_
  have hidle := h.idle hafter
  have hswitch := h.switch heffect
  cases heffect with
  | same => exact h.same smc
  | copyRefused hd hreset hstatus =>
    exact hidle rfl rfl rfl (by simp [Smc.image, Watched.after, Bl1.setImage, hstatus]) (fun _ hj => hj)
      (absurd · (idle_of (.inl rfl) (.inr hreset)).2)
  | hookFailed hfails hpasses hstatus =>
    exact hidle rfl rfl rfl (by simp [Smc.image, Watched.after, Bl1.setImage, hstatus]) (fun _ hj => hj)
      (absurd · (idle_of (.inl rfl) (.inr hpasses.state)).2)
  | copied hd hsecure hblock hcases =>
    refine hidle rfl rfl rfl ?_ (fun _ hj => hj)
      (absurd · (idle_of (.inl rfl) (hcases.symm.imp (·.1) (·.1.state))).2)
    simp only [Smc.image, Watched.after, update_self]
    split <;> decide
  | authenticated hd hcases =>
    exact hidle rfl rfl rfl (by simp [Smc.image, Watched.after, Bl1.setImage]) (fun _ hj => hj)
      (absurd · (idle_of (.inr rfl) (hcases.imp (·.1) (·.1))).2)
  | rejected hd hcases hstatus =>
    exact hidle rfl rfl rfl (by simp [Smc.image, Watched.after, Bl1.setImage, hstatus]) (fun _ hj => hj)
      (absurd · (idle_of (.inr rfl) (hcases.imp (·.1) (·.1))).2)
  | executed hd hworld hsecure hexecutable hstate =>
    refine ⟨hswitch (fun hw => by cases hworld.symm.trans hw) fun _ => ⟨rfl, rfl⟩, fun d' hd' => ?_, fun hw => (by cases hw)⟩
    obtain rfl := Option.some.inj (hd.symm.trans hd')
    exact ⟨hsecure, hexecutable, if_pos ⟨hworld, rfl⟩⟩
  | interrupted hd hworld =>
    exact ⟨hswitch (fun _ => rfl) (by simp [Smc.image, Bl1.setImage]), h.context,
      fun _ _ _ => by simp [Watched.after, Bl1.setImage]⟩
  | resumed hd hworld hinterrupted =>
    exact ⟨hswitch (fun _ => rfl) fun _ => ⟨rfl, rfl⟩, h.context, fun hw => (by cases hw)⟩
  | done hd hworld =>
    exact ⟨hswitch (fun _ => rfl) (by simp [Smc.image, Bl1.setImage]),
      fun d' hd' => (by cases pf.desc_invalid.symm.trans hd'), fun _ hinv => absurd pf.desc_invalid hinv⟩
  | reset hd hworld hnot hexec hremove =>
    exact hidle rfl rfl rfl (by simp [Smc.image, Watched.after, Bl1.setImage]) (fun _ => w.resetSince_of_reset)
      fun _ => by simp [Smc.image, Watched.after, Bl1.setImage]

omit h in
theorem Watched.hookFailed_of_ne {j : ImageId} (hne : j ≠ smc.image w.bl1) :
    (w.after st' smc).hookFailed j = w.hookFailed j := by
  cases smc with
  | imageCopy => exact update_of_ne hne ..
  | imageAuth => exact update_of_ne hne ..
  | _ => rfl

omit h in
theorem Watched.hookFailed_of_left (hleft : leftReset st' (smc.image w.bl1) = true)
    (hfails : FailsInHook pf w.bl1 smc ∨ w.hookFailed (smc.image w.bl1) = true) :
    (w.after st' smc).hookFailed (smc.image w.bl1) = true := by
  cases smc with
  | imageCopy id _ _ _ _ _ preLoadFails =>
    have hleft : leftReset st' id = true := hleft
    have hfails : preLoadFails = true ∨ w.hookFailed id = true := hfails.imp_left (·.1)
    simp [Smc.image, Watched.after, hleft, hfails]
  | imageAuth id =>
    have hleft : leftReset st' id = true := hleft
    have hold : w.hookFailed id = true := hfails.resolve_left (·)
    simp [Smc.image, Watched.after, hleft, hold]
  | _ => exact hfails.resolve_left (·)

theorem Sane.ends_above (hchecked : Checked pf w) (heffect : Effect pf w.bl1 smc st')
    (hok : Allowed pf launched w smc) (hx : smc.image w.bl1 ∈ st'.loadedIds)
    (hstate : (st'.images (smc.image w.bl1)).state ≠ .reset) {d : ImageDesc}
    (hd : pf.desc (smc.image w.bl1) = some d) (hne : (st'.images (smc.image w.bl1)).imageSize ≠ 0) :
    d.imageBase < endAddr d.imageBase (st'.images (smc.image w.bl1)).imageSize := by
  have hold : smc.image w.bl1 ∈ w.bl1.loadedIds → (w.bl1.images (smc.image w.bl1)).state ≠ .reset →
      (st'.images (smc.image w.bl1)).imageSize = (w.bl1.images (smc.image w.bl1)).imageSize →
      d.imageBase < endAddr d.imageBase (st'.images (smc.image w.bl1)).imageSize := by
    intro hx hstate hsize
    have hentry := hchecked _ hx (pf.ne_invalid hd)
    rw [if_neg hstate] at hentry
    rw [hsize] at hne ⊢
    exact hentry d hd hne
  have hreset : ∀ {status : ImageStatus}, st'.images (smc.image w.bl1) = status → status.state ≠ .reset :=
    fun himage => himage ▸ hstate
  cases heffect with
  | same => exact hold hx hstate rfl
  | copyRefused _ _ hstatus => exact absurd hstatus (hreset (update_self ..))
  | hookFailed _ _ hstatus => exact absurd hstatus (hreset (update_self ..))
  | @copied _ _ _ imageSize _ _ _ d' size _ _ hd' _ _ hcases =>
    obtain rfl := Option.some.inj (hd'.symm.trans hd)
    rcases hcases with ⟨hpasses, hsize, -⟩ | ⟨hcopying, hsize, -⟩
    · have hone := (hok.2 _ hpasses.toFirstCopy).1
      have hone : imageSize.toNat ≠ 1 := fun heq => hone (UInt32.toNat_inj.mp heq)
      have hend := Platform.fits_end hpasses.fits imageSize.toNat_lt
      simp only [Smc.image, update_self] at hne ⊢
      rw [hsize, endAddr_eq hend]
      omega
    · exact hold (h.placed.loaded (.inl hcopying)) (by rw [Smc.image, hcopying]; decide)
        ((congrArg ImageStatus.imageSize (update_self ..)).trans hsize)
  | @authenticated _ _ _ _ _ d' size _ hd' hcases hsize =>
    obtain rfl := Option.some.inj (hd'.symm.trans hd)
    rcases hcases with ⟨hcopied, -, hsame⟩ | ⟨hreset, -⟩
    · exact hold (h.placed.loaded (.inr hcopied)) (by rw [Smc.image, hcopied]; decide)
        ((congrArg ImageStatus.imageSize (update_self ..)).trans hsame)
    · simp only [Smc.image, Bl1.setImage, update_self]
      rw [hsize.2 hreset]
      exact hok.2 hsize.1 hreset _ hd
  | rejected _ _ hstatus => exact absurd hstatus (hreset (update_self ..))
  | executed _ _ _ _ hauth => exact hold hx (by rw [Smc.image, hauth]; decide) (by simp [Smc.image, Bl1.setImage])
  | interrupted _ hworld =>
    exact hold hx (by rw [Smc.image, (h.running hworld).2]; decide) (by simp [Smc.image, Bl1.setImage])
  | resumed hd hworld =>
    have hinterrupted := h.resumable hworld (pf.desc_ne_none hd) (hok.1 hworld (pf.desc_ne_none hd))
    exact hold hx (by rw [Smc.image, hinterrupted]; decide) (by simp [Smc.image, Bl1.setImage])
  | done => exact absurd rfl (hreset (update_self ..))
  | reset => exact absurd rfl (hreset (update_self ..))

theorem Sane.checked_effect (hchecked : Checked pf w) (heffect : Effect pf w.bl1 smc st')
    (hok : Allowed pf launched w smc) : Checked pf (w.after st' smc) := by
  have hafter : (w.after st' smc).bl1 = st' := by cases smc <;> rfl
  intro x hx hinv
  rw [hafter] at hx ⊢
  by_cases hne : x = smc.image w.bl1
  · subst hne
    split
    · next hreset =>
      refine Watched.hookFailed_of_left (decide_eq_true ⟨hreset, hx⟩) (?_ : FailsInHook pf w.bl1 smc ∨ _)
      cases heffect.listing h.placed.slots h.running with
      | kept hiff hids =>
        have hentry := hchecked _ (hids ▸ hx) hinv
        rw [if_pos (hiff.mp hreset)] at hentry
        exact .inr hentry
      | listed hstate => exact absurd hreset hstate
      | removed _ hout => exact absurd hx hout
      | hookFailed hfails => exact .inl hfails
      | resumed hresumes => exact absurd hresumes (h.not_resumesReset hok.1)
    · next hstate => exact fun d => h.ends_above hchecked heffect hok hx hstate
  · rw [heffect.others hne, Watched.hookFailed_of_ne hne]
    exact hchecked x (((heffect.slots h.placed.slots).2 x hne hinv).mp hx) hinv

end

theorem Sane.of_boot (pf : Platform) (slots : Nat) (launched : ImageId) (mem : Memory) :
    Sane pf launched (watchBoot slots launched mem) := by
  have himages : ∀ id, (boot slots launched mem).bl1.images id =
      if id = launched then ⟨.executed, 0, 0⟩ else ⟨.reset, 0, 0⟩ := fun id => by
    simp only [boot, update_apply]
  refine ⟨⟨fun id hstate => ?_, fun d hd => (by cases pf.desc_invalid.symm.trans hd),
      fun _ hd => absurd pf.desc_invalid hd⟩, Placed.of_boot pf slots launched mem, fun hw => (by cases hw),
    fun id hin hinv => absurd hin (not_mem_boot hinv), fun id _ hstate hl => ?_, fun id d _ hsize => ?_⟩
  · by_cases hl : id = launched
    · exact .inl hl
    · rw [watchBoot, himages, if_neg hl] at hstate
      cases hstate
  · rw [watchBoot, himages, if_neg hl] at hstate
    exact absurd rfl hstate
  · rw [watchBoot, himages] at hsize
    split at hsize <;> exact absurd rfl hsize

end Sane

/-- In every run of allowed SMCs, with assertions compiled in or not, the next allowed SMC fails no assertion;
and if it is a resume that switches to the secure context, the image this belongs to is INTERRUPTED and has not
been reset since. -/
theorem fwu_no_assertion_fails (pf : Platform) (slots : Nat) (launched : ImageId) (mem : Memory)
    (hlaunched : ∀ d, pf.desc launched = some d → d.secure = false) (w : Watched)
    (hrun : Reaches (WatchedStep pf) (Allowed pf launched) (watchBoot slots launched mem) w) (smc : Smc)
    (hok : Allowed pf launched w smc) :
    ∃ rc st', bl1FwuSmcHandler pf smc w.bl1 = some (rc, st') ∧
      (smc = .imageResume → w.bl1.world = .normal → st'.world = .secure →
        (w.bl1.images w.owner).state = .interrupted ∧ w.resetSince w.owner = false) := by
  have hinv : Sane pf launched w ∧ Checked pf w := by
    refine hrun.invariant (P := fun w => Sane pf launched w ∧ Checked pf w)
      ⟨Sane.of_boot pf slots launched mem, fun x hx hinv => absurd hx (not_mem_boot hinv)⟩ ?_
    rintro w w' smc ⟨h, hchecked⟩ hok ⟨st', ⟨rc, hcall⟩, rfl⟩
    exact ⟨h.effect (.of_handler hcall) hok.1, h.checked_effect hchecked (.of_handler hcall) hok⟩
  obtain ⟨h, hchecked⟩ := hinv
  obtain ⟨⟨rc, st'⟩, hcall⟩ := h.handler_isSome hlaunched hchecked hok
  refine ⟨rc, st', hcall, ?_⟩
  rintro rfl hnormal hswitch
  cases Effect.of_handler hcall with
  | same => exact nomatch hnormal.symm.trans hswitch
  | interrupted => exact nomatch hswitch
  | @resumed d hd =>
    have hsome := pf.desc_ne_none hd
    have hsince := hok.1 hnormal hsome
    rw [(h.context d hd).2.2]
    exact ⟨h.resumable hnormal hsome hsince, hsince⟩

def withNormalImage : Platform :=
  { sharedPlace with
    desc := fun id => if id = 0 then some ⟨0, 0, false, true, by decide⟩ else sharedPlace.desc id
    desc_invalid := by decide }

def Watched.next (pf : Platform) (w : Watched) (smc : Smc) : Watched :=
  ((bl1FwuSmcHandler pf smc w.bl1).map fun r => w.after r.2 smc).getD w

theorem reaches_next {pf : Platform} {launched : ImageId} {w0 w : Watched} {s : Smc}
    (hrun : Reaches (WatchedStep pf) (Allowed pf launched) w0 w) (hok : Allowed pf launched w s)
    (h : (bl1FwuSmcHandler pf s w.bl1).isSome = true) :
    Reaches (WatchedStep pf) (Allowed pf launched) w0 (w.next pf s) := by
  obtain ⟨⟨rc, st'⟩, hcall⟩ := Option.isSome_iff_exists.mp h
  exact hrun.step hok ⟨st', ⟨rc, hcall⟩, by rw [Watched.next, hcall]; rfl⟩

theorem Watched.next_hookFailed_of_ne (pf : Platform) {w : Watched} {smc : Smc} {x : ImageId}
    (hne : x ≠ smc.image w.bl1) : (w.next pf smc).hookFailed x = w.hookFailed x := by
  unfold Watched.next
  cases bl1FwuSmcHandler pf smc w.bl1 with
  | none => rfl
  | some r => exact Watched.hookFailed_of_ne hne

/-- The hook refuses image 6. -/
def refusedSix : Watched :=
  (watchBoot 10 0 fun _ => 0).next withNormalImage (.imageCopy 6 1 4 4 (fun _ => 0xAA) false true)

def copiedSix : Watched := refusedSix.next withNormalImage (copyFour 6)

def copiedBoth : Watched := copiedSix.next withNormalImage (copyFour 4)

/-- Image 6 has been authenticated and executed, and gives the normal world its turn. -/
def interruptedSix : Watched :=
  ((copiedBoth.next withNormalImage (.imageAuth 6 0 0 false true)).next withNormalImage (.imageExecute 6)).next
    withNormalImage .imageResume

/-- The hook refuses image 6 once; it is copied, then image 4 beside it; image 6 runs and is interrupted. The
resume then switches to it. -/
theorem fwu_no_assertion_fails_resume :
    Reaches (WatchedStep withNormalImage) (Allowed withNormalImage 0) (watchBoot 10 0 fun _ => 0) interruptedSix ∧
      refusedSix.hookFailed 6 = true ∧ copiedBoth.bl1.loadedIds.take 2 = [6, 4] ∧
      ∃ rc st', bl1FwuSmcHandler withNormalImage .imageResume interruptedSix.bl1 = some (rc, st') ∧
        (interruptedSix.bl1.world = .normal → st'.world = .secure →
          (interruptedSix.bl1.images interruptedSix.owner).state = .interrupted ∧
            interruptedSix.resetSince interruptedSix.owner = false) := by
  have hlaunched : ∀ d, withNormalImage.desc 0 = some d → d.secure = false := by
    rintro d ⟨⟩
    rfl
  have hcopy6 : ∀ x, x ≠ 6 → refusedSix.hookFailed x = false := fun x hx =>
    (Watched.next_hookFailed_of_ne _ hx).trans rfl
  have hcopy4 : ∀ x, x ≠ 4 → copiedSix.hookFailed x = false := fun x _ => by
    by_cases hx : x = 6
    · subst hx
      decide +kernel
    · exact (Watched.next_hookFailed_of_ne _ hx).trans (hcopy6 x hx)
  have hrefused : Reaches (WatchedStep withNormalImage) (Allowed withNormalImage 0) (watchBoot 10 0 fun _ => 0)
      refusedSix := reaches_next .start ⟨trivial, fun _ _ => ⟨by decide, fun _ _ => rfl⟩⟩ (by decide +kernel)
  have hsix := reaches_next (s := copyFour 6) hrefused ⟨trivial, fun _ _ => ⟨by decide, hcopy6⟩⟩
    (by decide +kernel)
  have hboth := reaches_next (s := copyFour 4) hsix ⟨trivial, fun _ _ => ⟨by decide, hcopy4⟩⟩ (by decide +kernel)
  have hauth := reaches_next (s := .imageAuth 6 0 0 false true) hboth
    ⟨trivial, fun _ hreset => absurd hreset (by decide +kernel)⟩ (by decide +kernel)
  have hexec := reaches_next (s := .imageExecute 6) hauth ⟨trivial, trivial⟩ (by decide +kernel)
  have hrun : Reaches (WatchedStep withNormalImage) (Allowed withNormalImage 0) (watchBoot 10 0 fun _ => 0)
      interruptedSix :=
    reaches_next hexec ⟨fun hworld => absurd hworld (by decide +kernel), trivial⟩ (by decide +kernel)
  have hok : Allowed withNormalImage 0 interruptedSix .imageResume := ⟨fun _ _ => by decide +kernel, trivial⟩
  obtain ⟨rc, st', hcall, hresume⟩ := fwu_no_assertion_fails withNormalImage 10 0 (fun _ => 0) hlaunched
    interruptedSix hrun .imageResume hok
  exact ⟨hrun, by decide +kernel, by decide +kernel, rc, st', hcall, hresume rfl⟩

/-- In every run of orderly SMCs, apart from the image that BL1 launched, exactly one image is EXECUTED while the
secure world runs, a secure and executable one, and none is while the normal world does. -/
theorem fwu_single_image_executes (pf : Platform) (slots : Nat) (launched : ImageId) (mem : Memory) (w : Watched)
    (hrun : Reaches (WatchedStep pf) (Orderly pf launched) (watchBoot slots launched mem) w) :
    (∀ id, id ≠ launched →
      ((w.bl1.images id).state = .executed ↔ w.bl1.world = .secure ∧ id = w.bl1.secExecImageId)) ∧
    (w.bl1.world = .secure →
      ∃ d, pf.desc w.bl1.secExecImageId = some d ∧ d.secure = true ∧ d.executable = true) := by
  have h : Sane pf launched w := hrun.invariant (Sane.of_boot pf slots launched mem) fun h hok hstep => by
    obtain ⟨st', ⟨rc, hcall⟩, rfl⟩ := hstep
    exact h.effect (.of_handler hcall) hok
  refine ⟨fun id hid => ⟨fun hstate => (h.executed id hstate).resolve_left hid, ?_⟩, fun hsecure => ?_⟩
  · rintro ⟨hsecure, rfl⟩
    exact (h.running hsecure).2
  · obtain ⟨d, hd⟩ := Option.ne_none_iff_exists'.mp (h.running hsecure).1
    exact ⟨d, hd, (h.context d hd).1, (h.context d hd).2.1⟩

/-- Image 6 is copied, authenticated and executed. -/
theorem fwu_single_image_executes_six : ∃ w : Watched, w.bl1.world = .secure ∧ w.bl1.secExecImageId = 6 ∧
    ∀ id, id ≠ 0 → ((w.bl1.images id).state = .executed ↔ w.bl1.world = .secure ∧ id = w.bl1.secExecImageId) := by
  have hrun : Reaches (WatchedStep withNormalImage) (Orderly withNormalImage 0) (watchBoot 10 0 fun _ => 0) _ :=
    .step (a := .imageExecute 6) (.step (a := .imageAuth 6 0 0 false true) (.step (a := copyFour 6) .start trivial
      ⟨_, ⟨_, rfl⟩, rfl⟩) trivial ⟨_, ⟨_, rfl⟩, rfl⟩) trivial ⟨_, ⟨_, rfl⟩, rfl⟩
  exact ⟨_, rfl, rfl, (fwu_single_image_executes withNormalImage 10 0 (fun _ => 0) _ hrun).1⟩

/-- Image 6 runs, is interrupted, and is reset by the normal world. -/
def interruptedAndReset : List Smc :=
  [copyFour 6, .imageAuth 6 0 0 false true, .imageExecute 6, .imageResume, .imageReset 6]

/-- Resuming the image that was reset fails an assertion. -/
theorem fwu_resume_trips :
    withNormalImage.enableAssertions = true ∧
      ((boot 10 0 fun _ => 0).steps withNormalImage interruptedAndReset).isSome = true ∧
      ((boot 10 0 fun _ => 0).steps withNormalImage (interruptedAndReset ++ [.imageResume])).isSome = false := by
  decide +kernel

end Armada3720.Fwu
