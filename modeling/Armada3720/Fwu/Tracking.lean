import Armada3720.Fwu.Update
import Armada3720.Lib.Reaches

/-!
# The list of loaded images

The list holds exactly the images that are not RESET. Two calls escape this: a copy whose
`bl1_plat_handle_pre_image_load` fails leaves the image in the list; without assertions, resuming an image that
was reset makes it EXECUTED again.

`loaded_ids_track_states` is for runs with neither.
-/

namespace Armada3720.Fwu

open Lib Function

/-- The image that a call works on. -/
def Smc.image (st : Bl1) : Smc → ImageId
  | .imageCopy id .. | .imageAuth id .. | .imageExecute id | .imageReset id => id
  | .imageResume | .secImageDone => st.secExecImageId

/-- Without assertions, an image that was reset is resumed. -/
def ResumesReset (pf : Platform) (st : Bl1) : Smc → Prop
  | .imageResume => pf.enableAssertions = false ∧ st.world = .normal ∧ pf.desc st.secExecImageId ≠ none ∧
      (st.images st.secExecImageId).state = .reset
  | _ => False

/-- In the secure world the image that runs is EXECUTED. -/
def Running (pf : Platform) (st : Bl1) : Prop :=
  st.world = .secure → pf.desc st.secExecImageId ≠ none ∧ (st.images st.secExecImageId).state = .executed

/-- What a call makes of the slot of its image. -/
inductive Listing (pf : Platform) (st : Bl1) (smc : Smc) (st' : Bl1) : Prop
  | kept : ((st'.images (smc.image st)).state = .reset ↔ (st.images (smc.image st)).state = .reset) →
      st'.loadedIds = st.loadedIds → Listing pf st smc st'
  | listed : (st'.images (smc.image st)).state ≠ .reset → smc.image st ∈ st'.loadedIds → Listing pf st smc st'
  | removed : (st'.images (smc.image st)).state = .reset → smc.image st ∉ st'.loadedIds → Listing pf st smc st'
  | hookFailed : FailsInHook pf st smc → (st'.images (smc.image st)).state = .reset → Listing pf st smc st'
  | resumed : ResumesReset pf st smc → Listing pf st smc st'

section Effects

variable {pf : Platform} {st st' : Bl1} {launched : ImageId} {smc : Smc}

theorem Platform.desc_ne_none {id : ImageId} {d : ImageDesc} (h : pf.desc id = some d) : pf.desc id ≠ none := by
  rw [h]
  exact Option.some_ne_none d

theorem copyState_ne_reset (p : Prop) [Decidable p] : (if p then ImageState.copied else .copying) ≠ .reset := by
  split <;> decide

theorem idle_of {state working : ImageState} (hw : working = .copying ∨ working = .copied)
    (h : state = working ∨ state = .reset) :
    state ≠ .executed ∧ state ≠ .interrupted := by
  rcases h with rfl | rfl
  · rcases hw with rfl | rfl <;> decide
  · decide

variable (heffect : Effect pf st smc st')
include heffect

theorem Effect.same_or_desc : st' = st ∨ pf.desc (smc.image st) ≠ none := by
  cases heffect with
  | same => exact .inl rfl
  | hookFailed _ hpasses => exact .inr (pf.desc_ne_none hpasses.desc)
  | copyRefused hd => exact .inr (pf.desc_ne_none hd)
  | copied hd => exact .inr (pf.desc_ne_none hd)
  | authenticated hd => exact .inr (pf.desc_ne_none hd)
  | rejected hd => exact .inr (pf.desc_ne_none hd)
  | executed hd => exact .inr (pf.desc_ne_none hd)
  | interrupted hd => exact .inr (pf.desc_ne_none hd)
  | resumed hd => exact .inr (pf.desc_ne_none hd)
  | done hd => exact .inr (pf.desc_ne_none hd)
  | reset hd => exact .inr (pf.desc_ne_none hd)

/-- A call leaves the other images as they are. -/
theorem Effect.others {j : ImageId} (hne : j ≠ smc.image st) : st'.images j = st.images j := by
  have hother : ∀ status, update st.images (smc.image st) status j = st.images j := fun _ =>
    update_of_ne hne _ _
  cases heffect with
  | same => rfl
  | _ => exact hother _

/-- No image gets a second slot, and the others keep theirs. -/
theorem Effect.slots (h : OneSlot st.loadedIds) : OneSlot st'.loadedIds ∧
    ∀ j, j ≠ smc.image st → j ≠ invalidImageId → (j ∈ st'.loadedIds ↔ j ∈ st.loadedIds) := by
  cases heffect with
  | hookFailed _ hpasses _ _ hadd => exact (h.add hadd (pf.ne_invalid hpasses.desc)).imp_right (·.2)
  | copied hd _ _ _ hadd => exact (h.add hadd (pf.ne_invalid hd)).imp_right (·.2)
  | authenticated hd hcases =>
    rcases hcases with ⟨-, rfl, -⟩ | ⟨-, hadd⟩
    · exact ⟨h, fun _ _ _ => Iff.rfl⟩
    · exact (h.add hadd (pf.ne_invalid hd)).imp_right (·.2)
  | rejected hd hcases =>
    rcases hcases with ⟨-, -, rfl⟩ | ⟨-, hadd⟩
    · exact (h.remove (pf.ne_invalid hd)).imp_right (·.2)
    · obtain ⟨hone, -, hother⟩ := h.add hadd (pf.ne_invalid hd)
      obtain ⟨hone, -, hother'⟩ := hone.remove (pf.ne_invalid hd)
      exact ⟨hone, fun j hne hj => (hother' j hne hj).trans (hother j hne hj)⟩
  | done hd => exact (h.remove (pf.ne_invalid hd)).imp_right (·.2)
  | reset hd _ _ _ hremove =>
    have hslots := h.remove (pf.ne_invalid hd)
    rw [hremove] at hslots
    exact hslots.imp_right (·.2)
  | _ => exact ⟨h, fun _ _ _ => Iff.rfl⟩

theorem Effect.running (h : Running pf st) : Running pf st' := by
  intro hsecure
  -- the image that runs is EXECUTED, so a call about an image in another state leaves it
  have hkept : st.world = .secure → (st.images (smc.image st)).state ≠ .executed →
      st'.secExecImageId = st.secExecImageId →
      pf.desc st'.secExecImageId ≠ none ∧ (st'.images st'.secExecImageId).state = .executed := by
    intro hworld hstate hexec
    obtain ⟨hd, hexecuted⟩ := h hworld
    have hne : st.secExecImageId ≠ smc.image st := fun heq => hstate (heq ▸ hexecuted)
    rw [hexec, heffect.others hne]
    exact ⟨hd, hexecuted⟩
  cases heffect with
  | same => exact h hsecure
  | copyRefused _ hreset => exact hkept hsecure (idle_of (.inl rfl) (.inr hreset)).1 rfl
  | hookFailed _ hpasses => exact hkept hsecure (idle_of (.inl rfl) (.inr hpasses.state)).1 rfl
  | copied _ _ _ hcases => exact hkept hsecure (idle_of (.inl rfl) (hcases.symm.imp (·.1) (·.1.state))).1 rfl
  | authenticated _ hcases => exact hkept hsecure (idle_of (.inr rfl) (hcases.imp (·.1) (·.1))).1 rfl
  | rejected _ hcases => exact hkept hsecure (idle_of (.inr rfl) (hcases.imp (·.1) (·.1))).1 rfl
  | executed hd => exact ⟨pf.desc_ne_none hd, by simp [Bl1.setImage]⟩
  | interrupted => cases hsecure
  | resumed hd => exact ⟨pf.desc_ne_none hd, by simp [Bl1.setImage]⟩
  | done => cases hsecure
  | reset _ _ _ hexec => exact hkept hsecure hexec rfl

theorem Effect.listing (h : OneSlot st.loadedIds) (hrunning : Running pf st) : Listing pf st smc st' := by
  cases heffect with
  | same => exact .kept Iff.rfl rfl
  | copyRefused _ hreset hstatus => exact .kept (by simp [Smc.image, Bl1.setImage, hreset, hstatus]) rfl
  | hookFailed hfails hpasses hstatus =>
    exact .hookFailed ⟨hfails, _, hpasses⟩ ((congrArg ImageStatus.state (update_self ..)).trans hstatus)
  | copied hd _ _ _ hadd =>
    refine .listed ?_ (h.add hadd (pf.ne_invalid hd)).2.1
    simp only [Smc.image, update_self]
    exact copyState_ne_reset _
  | authenticated hd hcases =>
    rcases hcases with ⟨hcopied, rfl, -⟩ | ⟨-, hadd⟩
    · exact .kept (by simp [Smc.image, Bl1.setImage, hcopied]) rfl
    · exact .listed (by simp [Smc.image, Bl1.setImage]) (h.add hadd (pf.ne_invalid hd)).2.1
  | rejected hd hcases hstatus =>
    refine .removed ((congrArg ImageStatus.state (update_self ..)).trans hstatus) ?_
    rcases hcases with ⟨-, -, rfl⟩ | ⟨-, hadd⟩
    · exact (h.remove (pf.ne_invalid hd)).2.1
    · exact ((h.add hadd (pf.ne_invalid hd)).1.remove (pf.ne_invalid hd)).2.1
  | executed _ _ _ _ hstate => exact .kept (by simp [Smc.image, Bl1.setImage, hstate]) rfl
  | interrupted _ hworld => exact .kept (by simp [Smc.image, Bl1.setImage, (hrunning hworld).2]) rfl
  | resumed hd hworld hinterrupted =>
    by_cases hreset : (st.images st.secExecImageId).state = .reset
    · refine .resumed ⟨?_, hworld, pf.desc_ne_none hd, hreset⟩
      by_contra hon
      cases hreset.symm.trans (hinterrupted (Bool.not_eq_false _ ▸ hon))
    · exact .kept (by simp [Smc.image, Bl1.setImage, hreset]) rfl
  | done hd => exact .removed (by simp [Smc.image, Bl1.setImage]) (h.remove (pf.ne_invalid hd)).2.1
  | reset hd _ _ _ hremove =>
    have hout := (h.remove (pf.ne_invalid hd)).2.1
    rw [hremove] at hout
    exact .removed (by simp [Smc.image, Bl1.setImage]) hout

end Effects

structure Tracks (pf : Platform) (launched : ImageId) (st : Bl1) : Prop where
  slots : OneSlot st.loadedIds
  running : Running pf st
  listed : ∀ id, id ≠ invalidImageId → id ≠ launched →
    (id ∈ st.loadedIds ↔ ¬ (st.images id).state = .reset)

theorem Tracks.effect {pf : Platform} {launched : ImageId} {st st' : Bl1} {smc : Smc} (h : Tracks pf launched st)
    (heffect : Effect pf st smc st') (hhook : ¬ FailsInHook pf st smc) (hresume : ¬ ResumesReset pf st smc) :
    Tracks pf launched st' := by
  obtain ⟨hslots, hother⟩ := heffect.slots h.slots
  refine ⟨hslots, heffect.running h.running, fun j hj hl => ?_⟩
  by_cases hne : j = smc.image st
  · subst hne
    cases heffect.listing h.slots h.running with
    | kept hstate hids => rw [hids, hstate, h.listed _ hj hl]
    | listed hstate hin => exact iff_of_true hin hstate
    | removed hstate hout => exact iff_of_false hout (not_not_intro hstate)
    | hookFailed hfails => exact absurd hfails hhook
    | resumed hresumes => exact absurd hresumes hresume
  · rw [hother j hne hj, heffect.others hne, h.listed j hj hl]

theorem not_mem_boot {slots : Nat} {launched id : ImageId} {mem : Memory} (hid : id ≠ invalidImageId) :
    id ∉ (boot slots launched mem).bl1.loadedIds := fun hin => hid (List.eq_of_mem_replicate hin)

theorem OneSlot.of_boot (slots : Nat) (launched : ImageId) (mem : Memory) :
    OneSlot (boot slots launched mem).bl1.loadedIds := fun id hid => by
  rw [List.count_eq_zero.mpr (not_mem_boot hid)]
  omega

theorem Tracks.of_boot (pf : Platform) (slots : Nat) (launched : ImageId) (mem : Memory) :
    Tracks pf launched (boot slots launched mem).bl1 := by
  refine ⟨.of_boot slots launched mem, fun hw => (by cases hw), fun id hid hl => ?_⟩
  have himage : (boot slots launched mem).bl1.images id = ⟨.reset, 0, 0⟩ := by
    simp only [boot]
    exact update_of_ne hl _ _
  exact iff_of_false (not_mem_boot hid) (by rw [himage]; decide)

def SmcStep (pf : Platform) (st : Bl1) (smc : Smc) (st' : Bl1) : Prop :=
  ∃ rc, bl1FwuSmcHandler pf smc st = some (rc, st')

/-- In every run of SMCs none of which fails in the platform hook or resumes an image that was
reset, an image is in the list exactly if it is not RESET, and then once. -/
theorem loaded_ids_track_states (pf : Platform) (slots : Nat) (launched : ImageId) (mem : Memory) (st : Bl1)
    (hrun : Reaches (SmcStep pf) (fun st smc => ¬ FailsInHook pf st smc ∧ ¬ ResumesReset pf st smc)
      (boot slots launched mem).bl1 st)
    (id : ImageId) (hid : id ≠ invalidImageId) (hlaunched : id ≠ launched) :
    st.loadedIds.count id = if (st.images id).state = .reset then 0 else 1 := by
  have htracks : Tracks pf launched st := hrun.invariant (Tracks.of_boot pf slots launched mem)
    fun h hok ⟨_, hcall⟩ => h.effect (.of_handler hcall) hok.1 hok.2
  have hlisted := htracks.listed id hid hlaunched
  split
  · next hreset => exact List.count_eq_zero.mpr fun hin => hlisted.mp hin hreset
  · next hreset =>
    have hle := htracks.slots id hid
    have hpos := List.count_pos_iff.mpr (hlisted.mpr hreset)
    omega

/-- What a call leaves of an image: how often it is in the list, and its state. -/
def slotAndState (id : ImageId) (r : Rc × Bl1) : Nat × ImageState :=
  (r.2.loadedIds.count id, (r.2.images id).state)

theorem loaded_ids_track_states_copied :
    ∃ st, SmcStep sharedPlace (boot 10 0 fun _ => 0).bl1 (copyFour 6) st ∧ (st.images 6).state = .copied ∧
      st.loadedIds.count 6 = if (st.images 6).state = .reset then 0 else 1 := by
  have hout : (bl1FwuSmcHandler sharedPlace (copyFour 6) (boot 10 0 fun _ => 0).bl1).map (slotAndState 6) =
      some (1, .copied) := by decide +kernel
  obtain ⟨⟨rc, st⟩, hcall, hout⟩ := Option.map_eq_some_iff.mp hout
  have hstep : SmcStep sharedPlace (boot 10 0 fun _ => 0).bl1 (copyFour 6) st := ⟨rc, hcall⟩
  have hhook : ¬ FailsInHook sharedPlace (boot 10 0 fun _ => 0).bl1 (copyFour 6) := fun h => nomatch h.1
  have hresume : ¬ ResumesReset sharedPlace (boot 10 0 fun _ => 0).bl1 (copyFour 6) := fun h => h
  exact ⟨st, hstep, congrArg Prod.snd hout, loaded_ids_track_states sharedPlace 10 0 (fun _ => 0) st
    (.step .start ⟨hhook, hresume⟩ hstep) 6 (by decide) (by decide)⟩

/-- The platform hook fails, and the image stays in the list in the state RESET. -/
theorem loaded_ids_failed_hook :
    ∃ st, SmcStep sharedPlace (boot 10 0 fun _ => 0).bl1 (.imageCopy 6 1 4 4 (fun _ => 0xAA) false true) st ∧
      st.loadedIds.count 6 = 1 ∧ (st.images 6).state = .reset := by
  have hout : (bl1FwuSmcHandler sharedPlace (.imageCopy 6 1 4 4 (fun _ => 0xAA) false true)
      (boot 10 0 fun _ => 0).bl1).map (slotAndState 6) = some (1, .reset) := by decide +kernel
  obtain ⟨⟨rc, st⟩, hcall, hout⟩ := Option.map_eq_some_iff.mp hout
  exact ⟨st, ⟨rc, hcall⟩, congrArg Prod.fst hout, congrArg Prod.snd hout⟩

end Armada3720.Fwu
