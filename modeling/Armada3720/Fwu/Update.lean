import Armada3720.Fwu.Effects

/-!
# BL1 executes what it authenticated

Beside the state of BL1 a run keeps what has been authenticated. Only a copied image changes the bytes of its
place, except that `copied_size` survives a failed authentication and an execution: resetting an image that is
then authenticated in place clears the old place, whoever owns that now (`ClearsOther`).

`fwu_executes_what_it_authenticated` is for runs without such a reset, and platforms whose
`bl1_plat_handle_post_image_load` leaves the authenticated ranges alone.
-/

namespace Armada3720.Fwu

open Function

/-! ## Runs -/

def bytes (mem : Memory) (base len : Nat) : List UInt8 :=
  (List.range len).map fun i => mem (base + i)

/-- For each image the bytes accepted last, and whether it was COPIED then. -/
structure History where
  verified : ImageId → Option (List UInt8)
  viaCopied : ImageId → Bool

/-- The history after a call that returned `rc` from state `st`. -/
def History.after (hist : History) (pf : Platform) (st : Bl1) : Smc → Rc → History
  | .imageAuth id imageSrc imageSize _ _, .success =>
    match pf.desc id with
    | none => hist
    | some d =>
      let range := authRange d (st.images id) imageSrc imageSize.toNat
      { verified := Function.update hist.verified id (some (bytes st.mem range.1 range.2))
        viaCopied := Function.update hist.viaCopied id (decide ((st.images id).state = .copied)) }
  | _, _ => hist

structure Run where
  bl1 : Bl1
  hist : History

def Run.step (pf : Platform) (smc : Smc) (r : Run) : Option Run :=
  (bl1FwuSmcHandler pf smc r.bl1).map fun res =>
    { bl1 := res.2, hist := r.hist.after pf r.bl1 smc res.1 }

def Run.steps (pf : Platform) : List Smc → Run → Option Run
  | [], r => some r
  | smc :: rest, r => (r.step pf smc).bind (Run.steps pf rest)

/-- BL1 when it has started `nextImage`, which issues the first SMCs from the normal world. -/
def boot (slots : Nat) (nextImage : ImageId) (mem : Memory) : Run where
  bl1 :=
    { images := Function.update (fun _ => ⟨.reset, 0, 0⟩) nextImage ⟨.executed, 0, 0⟩
      loadedIds := List.replicate slots invalidImageId
      secExecImageId := invalidImageId
      world := .normal
      mem := mem }
  hist := { verified := fun _ => none, viaCopied := fun _ => false }

def Apart (base size base' size' : Nat) : Prop :=
  ∀ a, base ≤ a → a < base + size → ¬ (base' ≤ a ∧ a < base' + size')

/-- The call resets an image authenticated in place and clears memory of another one that was copied. -/
def ClearsOther (pf : Platform) (r : Run) : Smc → Prop
  | .imageReset id =>
    r.bl1.world = .normal ∧ id ∈ r.bl1.loadedIds ∧ r.hist.viaCopied id = false ∧
      ((r.bl1.images id).state = .authenticated ∨ (r.bl1.images id).state = .interrupted) ∧
      ∃ j d dj, j ≠ id ∧ pf.desc id = some d ∧ pf.desc j = some dj ∧
        (r.bl1.images j).state = .authenticated ∧ r.hist.viaCopied j = true ∧
        ¬ Apart d.imageBase (r.bl1.images id).copiedSize dj.imageBase (r.bl1.images j).imageSize
  | _ => False

/-- No call of the sequence clears memory of another image. -/
def NoneClearsOther (pf : Platform) : List Smc → Run → Prop
  | [], _ => True
  | smc :: rest, r =>
    ¬ ClearsOther pf r smc ∧ ∀ r', r.step pf smc = some r' → NoneClearsOther pf rest r'

/-- The hook after a load leaves the places of images alone. -/
def Platform.PostKeepsImages (pf : Platform) : Prop :=
  ∀ id mem j d size a, pf.desc j = some d → pf.fits d size = true → d.imageBase ≤ a →
    a < d.imageBase + size → pf.postImageLoad id mem a = mem a

/-! ## The list of loaded images -/

/-- Every image has at most one slot. -/
def OneSlot (ids : List ImageId) : Prop := ∀ id, id ≠ invalidImageId → ids.count id ≤ 1

section Slots

variable {id j : ImageId} {ids ids' : List ImageId}

theorem count_fillSlot (h : fillSlot id ids = some ids') (hj : j ≠ invalidImageId) :
    ids'.count j = ids.count j + if id = j then 1 else 0 := by
  induction ids generalizing ids' with
  | nil => cases h
  | cons x xs ih =>
    unfold fillSlot at h
    split at h
    · next hx =>
      cases h
      rw [List.count_cons, List.count_cons_of_ne (by rw [hx]; exact hj.symm)]
      simp
    · obtain ⟨ys, hys, rfl⟩ := Option.map_eq_some_iff.mp h
      rw [List.count_cons, List.count_cons, ih hys]
      omega

theorem count_removeLoadedId (h : bl1FwuRemoveLoadedId id ids = some ids')
    (hj : j ≠ invalidImageId) : ids'.count j + (if id = j then 1 else 0) = ids.count j := by
  induction ids generalizing ids' with
  | nil => cases h
  | cons x xs ih =>
    unfold bl1FwuRemoveLoadedId at h
    split at h
    · next hx =>
      cases h
      subst hx
      rw [List.count_cons_of_ne hj.symm, List.count_cons]
      simp
    · obtain ⟨ys, hys, rfl⟩ := Option.map_eq_some_iff.mp h
      rw [List.count_cons, List.count_cons, ← ih hys]
      omega

theorem removeLoadedId_eq_none (h : bl1FwuRemoveLoadedId id ids = none) : id ∉ ids := by
  induction ids with
  | nil => exact List.not_mem_nil
  | cons x xs ih =>
    unfold bl1FwuRemoveLoadedId at h
    split at h
    · cases h
    · next hx =>
      have hxs := ih (Option.map_eq_none_iff.mp h)
      exact List.not_mem_cons_of_ne_of_not_mem (Ne.symm hx) hxs

theorem OneSlot.add (h : OneSlot ids) (hadd : bl1FwuAddLoadedId ids id = some ids') (hid : id ≠ invalidImageId) :
    OneSlot ids' ∧ id ∈ ids' ∧ ∀ j, j ≠ id → j ≠ invalidImageId → (j ∈ ids' ↔ j ∈ ids) := by
  unfold bl1FwuAddLoadedId at hadd
  split at hadd
  · next hmem =>
    cases hadd
    exact ⟨h, hmem, fun _ _ _ => Iff.rfl⟩
  · next hmem =>
    have hcount := fun j (hj : j ≠ invalidImageId) => count_fillSlot hadd hj
    have hzero : ids.count id = 0 := List.count_eq_zero.mpr hmem
    refine ⟨?_, ?_, ?_⟩
    · intro j hj
      rw [hcount j hj]
      split
      · next hij =>
        subst hij
        omega
      · exact h j hj
    · refine List.count_pos_iff.mp ?_
      rw [hcount id hid, if_pos rfl]
      omega
    · intro j hji hj
      rw [← List.count_pos_iff, ← List.count_pos_iff, hcount j hj, if_neg (Ne.symm hji), Nat.add_zero]

theorem OneSlot.remove (h : OneSlot ids) (hid : id ≠ invalidImageId) :
    OneSlot ((bl1FwuRemoveLoadedId id ids).getD ids) ∧
      id ∉ (bl1FwuRemoveLoadedId id ids).getD ids ∧
      ∀ j, j ≠ id → j ≠ invalidImageId →
        (j ∈ (bl1FwuRemoveLoadedId id ids).getD ids ↔ j ∈ ids) := by
  cases hrem : bl1FwuRemoveLoadedId id ids with
  | none => exact ⟨h, removeLoadedId_eq_none hrem, fun _ _ _ => Iff.rfl⟩
  | some ids' =>
    have hcount := fun j (hj : j ≠ invalidImageId) => count_removeLoadedId hrem hj
    simp only [Option.getD_some]
    refine ⟨?_, ?_, ?_⟩
    · intro j hj
      have := hcount j hj
      have := h j hj
      omega
    · refine List.count_eq_zero.mp ?_
      have h1 := hcount id hid
      rw [if_pos rfl] at h1
      have := h id hid
      omega
    · intro j hji hj
      have h1 := hcount j hj
      rw [if_neg (Ne.symm hji), Nat.add_zero] at h1
      rw [← List.count_pos_iff, ← List.count_pos_iff, h1]

end Slots

/-! ## Memory ranges -/

theorem Apart.symm {base size base' size' : Nat} (h : Apart base size base' size') :
    Apart base' size' base size :=
  fun a hlo hhi hin => h a hin.1 hin.2 ⟨hlo, hhi⟩

theorem Apart.mono {base size size1 base' size' : Nat} (h : Apart base size base' size')
    (hle : size1 ≤ size) : Apart base size1 base' size' :=
  fun a hlo hhi => h a hlo (by omega)

theorem apart_of_size_zero (base base' size' : Nat) : Apart base 0 base' size' :=
  fun a hlo hhi => by omega

theorem bytes_congr {mem mem' : Memory} {base len : Nat} (h : ∀ a, base ≤ a → a < base + len → mem' a = mem a) :
    bytes mem' base len = bytes mem base len := by
  refine List.map_congr_left fun i hi => h _ (Nat.le_add_right _ _) ?_
  have := List.mem_range.mp hi
  omega

theorem memcpy_of_not_mem {mem : Memory} {dest len a : Nat} {src : Nat → UInt8}
    (h : ¬ (dest ≤ a ∧ a < dest + len)) : memcpy mem dest len src a = mem a :=
  if_neg h

theorem zeroNormalmem_of_not_mem {mem : Memory} {base len a : Nat}
    (h : ¬ (base ≤ a ∧ a < base + len)) : zeroNormalmem mem base len a = mem a :=
  memcpy_of_not_mem h

section Overlaps

variable {pf : Platform} {st : Bl1} {id : ImageId}

theorem endAddr_eq {base size : Nat} (hend : base + size ≤ uintptrMax + 1) :
    endAddr base size = base + size - 1 :=
  Nat.mod_eq_of_lt (by omega)

theorem Platform.fits_zero (pf : Platform) (d : ImageDesc) : pf.fits d 0 = true := by
  unfold Platform.fits
  split
  · exact decide_eq_true (Nat.zero_le _)
  · rfl

theorem Platform.fits_end {d : ImageDesc} {size : Nat} (h : pf.fits d size = true)
    (hsize : size < 2 ^ 32) : d.imageBase + size ≤ uintptrMax + 1 := by
  have hend := d.end_le
  unfold Platform.fits at h
  split at h
  · have := of_decide_eq_true h
    omega
  · unfold isMemFree checkUptrOverflow at h
    split at h
    · omega
    · split at h
      · cases h
      · split at h
        · cases h
        · split at h
          · cases h
          · next hover =>
            rw [decide_eq_true_eq] at hover
            unfold uintptrMax at hover ⊢
            omega

/-- A range that passes the check meets no image of the list. -/
theorem overlapsLoaded_spec {checkedBase checkedEnd : Nat} (ids : List ImageId)
    (h : overlapsLoaded pf st id checkedBase checkedEnd ids = some false) :
    ∀ x ∈ ids, x ≠ id → ∀ d, pf.desc x = some d → (st.images x).imageSize ≠ 0 →
      endAddr d.imageBase (st.images x).imageSize < checkedBase ∨ checkedEnd < d.imageBase := by
  induction ids with
  | nil => exact fun x hx => absurd hx List.not_mem_nil
  | cons y ys ih =>
    intro x hx hxid d hd hsize
    unfold overlapsLoaded at h
    split at h
    · next hskip =>
      rcases List.mem_cons.mp hx with rfl | hx
      · rcases hskip with hinv | hself
        · rw [hinv, pf.desc_invalid] at hd
          cases hd
        · exact absurd hself hxid
      · exact ih h x hx hxid d hd hsize
    · split at h
      · cases h
      · next dy hdy =>
        have h := assert_eq_some h
        split at h
        · next hzero =>
          rcases List.mem_cons.mp hx with rfl | hx
          · exact absurd hzero hsize
          · exact ih h x hx hxid d hd hsize
        · have h := assert_eq_some h
          split at h
          · next hno =>
            rcases List.mem_cons.mp hx with rfl | hx
            · cases hdy.symm.trans hd
              exact hno
            · exact ih h x hx hxid d hd hsize
          · cases h

end Overlaps

/-! ## The invariant -/

/-- The image is loaded, and by copying: its place is its own. -/
def Owns (st : Bl1) (byCopy : ImageId → Bool) (id : ImageId) : Prop :=
  id ∈ st.loadedIds ∧ byCopy id = true

structure ImageInv (pf : Platform) (st : Bl1) (hist : History) (byCopy : ImageId → Bool)
    (id : ImageId) (d : ImageDesc) : Prop where
  size : Owns st byCopy id → pf.fits d (st.images id).imageSize = true ∧
    (st.images id).imageSize < 2 ^ 32 ∧ (st.images id).copiedSize ≤ (st.images id).imageSize
  copied : (st.images id).state = .copying ∨ (st.images id).state = .copied → Owns st byCopy id
  reset : (st.images id).state = .reset → id ∈ st.loadedIds → (st.images id).copiedSize = 0
  via : hist.viaCopied id = true → byCopy id = true
  verified : (st.images id).state = .authenticated → hist.viaCopied id = true →
    Owns st byCopy id ∧
      hist.verified id = some (bytes st.mem d.imageBase (st.images id).imageSize)

/-- The invariant of a run: `byCopy` says how an image was last loaded. -/
structure Inv (pf : Platform) (st : Bl1) (hist : History) (byCopy : ImageId → Bool) : Prop where
  slots : OneSlot st.loadedIds
  apart : ∀ {i j di dj}, i ≠ j → pf.desc i = some di → pf.desc j = some dj →
    Owns st byCopy i → Owns st byCopy j →
      Apart di.imageBase (st.images i).imageSize dj.imageBase (st.images j).imageSize
  image : ∀ {id d}, pf.desc id = some d → ImageInv pf st hist byCopy id d

/-- What a call that works on image `i` leaves of the others. -/
structure OthersSame (i : ImageId) (st st' : Bl1) (hist hist' : History)
    (byCopy byCopy' : ImageId → Bool) : Prop where
  images : ∀ j, j ≠ i → st'.images j = st.images j
  loaded : ∀ j, j ≠ i → j ≠ invalidImageId → (j ∈ st'.loadedIds ↔ j ∈ st.loadedIds)
  verified : ∀ j, j ≠ i → hist'.verified j = hist.verified j
  viaCopied : ∀ j, j ≠ i → hist'.viaCopied j = hist.viaCopied j
  byCopy : ∀ j, j ≠ i → byCopy' j = byCopy j

section Invariant

variable {pf : Platform} {st st' : Bl1} {hist hist' : History} {byCopy byCopy' : ImageId → Bool} {i : ImageId}

theorem Platform.ne_invalid {d : ImageDesc} (h : pf.desc i = some d) : i ≠ invalidImageId := by
  rintro rfl
  rw [pf.desc_invalid] at h
  cases h

theorem Inv.update {d : ImageDesc} (h : Inv pf st hist byCopy) (hd : pf.desc i = some d)
    (hsame : OthersSame i st st' hist hist' byCopy byCopy') (hslots : OneSlot st'.loadedIds)
    (hmem : ∀ j dj, j ≠ i → pf.desc j = some dj → (st.images j).state = .authenticated →
      hist.viaCopied j = true → Owns st byCopy j →
        ∀ a, dj.imageBase ≤ a → a < dj.imageBase + (st.images j).imageSize →
          st'.mem a = st.mem a)
    (hapart : Owns st' byCopy' i → ∀ j dj, j ≠ i → pf.desc j = some dj → Owns st byCopy j →
      Apart d.imageBase (st'.images i).imageSize dj.imageBase (st.images j).imageSize)
    (himage : ImageInv pf st' hist' byCopy' i d) :
    Inv pf st' hist' byCopy' := by
  have howns : ∀ {j d}, j ≠ i → pf.desc j = some d → (Owns st' byCopy' j ↔ Owns st byCopy j) := by
    intro j d hj hd
    rw [Owns, Owns, hsame.loaded j hj (pf.ne_invalid hd), hsame.byCopy j hj]
  refine ⟨hslots, ?_, ?_⟩
  · intro k j dk dj hkj hdk hdj hk hj
    by_cases hki : k = i
    · subst hki
      cases hd.symm.trans hdk
      rw [hsame.images j (Ne.symm hkj)]
      exact hapart hk j dj (Ne.symm hkj) hdj ((howns (Ne.symm hkj) hdj).mp hj)
    · by_cases hji : j = i
      · subst hji
        cases hd.symm.trans hdj
        rw [hsame.images k hki]
        exact (hapart hj k dk hki hdk ((howns hki hdk).mp hk)).symm
      · rw [hsame.images k hki, hsame.images j hji]
        exact h.apart hkj hdk hdj ((howns hki hdk).mp hk) ((howns hji hdj).mp hj)
  · intro j dj hdj
    by_cases hji : j = i
    · subst hji
      cases hd.symm.trans hdj
      exact himage
    · have hj := h.image hdj
      refine ⟨?_, ?_, ?_, ?_, ?_⟩
      · rw [howns hji hdj, hsame.images j hji]
        exact hj.size
      · rw [howns hji hdj, hsame.images j hji]
        exact hj.copied
      · rw [hsame.images j hji, hsame.loaded j hji (pf.ne_invalid hdj)]
        exact hj.reset
      · rw [hsame.viaCopied j hji, hsame.byCopy j hji]
        exact hj.via
      · rw [howns hji hdj, hsame.images j hji, hsame.viaCopied j hji, hsame.verified j hji]
        intro hauth hvia
        obtain ⟨hown, hver⟩ := hj.verified hauth hvia
        refine ⟨hown, ?_⟩
        rw [hver, bytes_congr (hmem j dj hji hdj hauth hvia hown)]

/-! ## Calls keep the invariant -/

section

variable (h : Inv pf st hist byCopy)
include h

variable {memCheckFails preLoadFails verifies : Bool} {d : ImageDesc} {data : Nat → UInt8} {rc : Rc}

theorem Inv.copyBlock {blockSize : Nat} (hd : pf.desc i = some d)
    (hreset : (st.images i).state = .reset → (st.images i).copiedSize = 0)
    (hsize : pf.fits d (st.images i).imageSize = true ∧ (st.images i).imageSize < 2 ^ 32 ∧
      (st.images i).copiedSize ≤ (st.images i).imageSize)
    (hapart : ∀ j dj, j ≠ i → pf.desc j = some dj → Owns st byCopy j →
      Apart d.imageBase (st.images i).imageSize dj.imageBase (st.images j).imageSize)
    (hs : copyBlock i d blockSize data memCheckFails preLoadFails st = some (rc, st')) :
    ∃ byCopy', Inv pf st' hist byCopy' := by
  rcases copyBlock_cases hs with rfl | ⟨-, ids, hadd, hcases⟩
  · exact ⟨byCopy, h⟩
  obtain ⟨hslots, hmem, hother⟩ := h.slots.add hadd (pf.ne_invalid hd)
  rcases hcases with ⟨hpre, -, rfl⟩ | rfl
  · refine ⟨byCopy, h.update hd ⟨fun _ _ => rfl, hother, fun _ _ => rfl, fun _ _ => rfl, fun _ _ => rfl⟩ hslots
      (fun _ _ _ _ _ _ _ _ _ _ => rfl) (fun _ => hapart)
      ⟨fun _ => hsize, ?_, fun _ _ => hreset hpre, (h.image hd).via, ?_⟩⟩
    · intro hcopy
      rw [hpre] at hcopy
      rcases hcopy with hcopy | hcopy <;> cases hcopy
    · intro hauth
      rw [hpre] at hauth
      cases hauth
  · generalize hblock : min blockSize ((st.images i).imageSize - (st.images i).copiedSize) = block
    have hle : block ≤ (st.images i).imageSize - (st.images i).copiedSize :=
      hblock ▸ Nat.min_le_right ..
    refine ⟨Function.update byCopy i true, h.update hd
      ⟨fun j hj => update_of_ne hj _ _, hother, fun _ _ => rfl, fun _ _ => rfl,
        fun j hj => update_of_ne hj _ _⟩ hslots ?_ ?_ ?_⟩
    · intro j dj hj hdj _ _ hown a hlo hhi
      refine memcpy_of_not_mem fun hin => ?_
      exact hapart j dj hj hdj hown a (by omega) (by omega) ⟨hlo, hhi⟩
    · simp only [update_self]
      exact fun _ => hapart
    · have howns : ∀ images mem, Owns { st with loadedIds := ids, images := images, mem := mem }
          (Function.update byCopy i true) i :=
        fun _ _ => ⟨hmem, update_self _ _ _⟩
      refine ⟨?_, fun _ => howns _ _, ?_, fun _ => update_self _ _ _, ?_⟩
      · intro _
        simp only [update_self]
        exact ⟨hsize.1, hsize.2.1, by omega⟩
      · simp only [update_self]
        split <;> intro hh <;> cases hh
      · simp only [update_self]
        split <;> intro hh <;> cases hh

theorem Inv.setImage {status : ImageStatus} (hd : pf.desc i = some d)
    (hstate : status.state = (st.images i).state) (hauth : status.state ≠ .authenticated)
    (hreset : status.state = .reset → i ∈ st.loadedIds → status.copiedSize = 0)
    (hsize : Owns st byCopy i → pf.fits d status.imageSize = true ∧
      status.imageSize < 2 ^ 32 ∧ status.copiedSize ≤ status.imageSize)
    (hapart : Owns st byCopy i → ∀ j dj, j ≠ i → pf.desc j = some dj → Owns st byCopy j →
      Apart d.imageBase status.imageSize dj.imageBase (st.images j).imageSize) :
    Inv pf (st.setImage i status) hist byCopy := by
  refine h.update hd ⟨fun j hj => update_of_ne hj _ _, fun _ _ _ => Iff.rfl, fun _ _ => rfl,
      fun _ _ => rfl, fun _ _ => rfl⟩ h.slots (fun _ _ _ _ _ _ _ _ _ _ => rfl) ?_ ?_
  · simp only [Bl1.setImage, update_self]
    exact hapart
  · have hi := h.image hd
    refine ⟨?_, ?_, ?_, hi.via, ?_⟩
    · simp only [Bl1.setImage, update_self]
      exact hsize
    · simp only [Bl1.setImage, update_self, hstate]
      exact hi.copied
    · simp only [Bl1.setImage, update_self]
      exact hreset
    · simp only [Bl1.setImage, update_self]
      exact fun hh => absurd hh hauth

theorem Inv.imageCopy {imageSrc : Nat} {blockSize imageSize : UInt32}
    (hs : bl1FwuImageCopy pf i imageSrc blockSize imageSize data memCheckFails preLoadFails st =
      some (rc, st')) : ∃ byCopy', Inv pf st' hist byCopy' := by
  rcases imageCopy_cases hs with rfl | ⟨d, hd, -, -, ⟨hcopying, hs⟩ | ⟨hfirst, hs⟩⟩
  · exact ⟨byCopy, h⟩
  · have hown := (h.image hd).copied (Or.inl hcopying)
    refine h.copyBlock hd ?_ ((h.image hd).size hown) ?_ hs
    · rw [hcopying]
      intro hh
      cases hh
    · intro j dj hj hdj hj'
      exact h.apart (Ne.symm hj) hd hdj hown hj'
  have hnot : (st.images i).state ≠ .authenticated := by
    rw [hfirst.state]
    decide
  rcases hs with rfl | ⟨hcheck, hs⟩
  · refine ⟨byCopy, h.setImage hd rfl hnot (h.image hd).reset ?_ ?_⟩
    · intro hown
      exact ⟨pf.fits_zero d, Nat.two_pow_pos 32, ((h.image hd).reset hfirst.state hown.1).le⟩
    · intro _ j dj _ _ _
      exact apart_of_size_zero _ _ _
  · have h32 := UInt32.toNat_lt imageSize
    -- no loaded image overlaps, so the new place is apart from every owned one
    have hapart : ∀ j dj, j ≠ i → pf.desc j = some dj → Owns st byCopy j →
        Apart d.imageBase imageSize.toNat dj.imageBase (st.images j).imageSize := by
      intro j dj hj hdj hown a hlo hhi hin
      obtain ⟨hfj, hj32, -⟩ := (h.image hdj).size hown
      have hcheck := overlapsLoaded_spec _ hcheck j hown.1 hj dj hdj
      simp only [Bl1.sized, Bl1.setImage, update_of_ne hj, update_self,
        endAddr_eq (pf.fits_end hfirst.fits h32), endAddr_eq (pf.fits_end hfj hj32)] at hcheck
      omega
    have hinv : Inv pf (st.setImage i
        { st.images i with imageSize := imageSize.toNat, copiedSize := 0 }) hist byCopy :=
      h.setImage hd rfl hnot (fun _ _ => rfl) (fun _ => ⟨hfirst.fits, h32, Nat.zero_le _⟩) (fun _ => hapart)
    refine hinv.copyBlock hd ?_ ?_ ?_ hs
    · simp only [Bl1.setImage, update_self, implies_true]
    · simp only [Bl1.setImage, update_self]
      exact ⟨hfirst.fits, h32, Nat.zero_le _⟩
    · intro j dj hj hdj hown
      simp only [Bl1.setImage, update_self, update_of_ne hj]
      exact hapart j dj hj hdj hown

theorem Inv.unload (hd : pf.desc i = some d) (himages : ∀ j, j ≠ i → st'.images j = st.images j)
    (hreset : (st'.images i).state = .reset) (hslots : OneSlot st'.loadedIds)
    (hnot : i ∉ st'.loadedIds)
    (hother : ∀ j, j ≠ i → j ≠ invalidImageId → (j ∈ st'.loadedIds ↔ j ∈ st.loadedIds))
    (hmem : ∀ j dj, j ≠ i → pf.desc j = some dj → (st.images j).state = .authenticated →
      hist.viaCopied j = true → Owns st byCopy j →
        ∀ a, dj.imageBase ≤ a → a < dj.imageBase + (st.images j).imageSize →
          st'.mem a = st.mem a) : Inv pf st' hist byCopy := by
  refine h.update hd ⟨himages, hother, fun _ _ => rfl, fun _ _ => rfl, fun _ _ => rfl⟩ hslots hmem
    (fun hown => absurd hown.1 hnot)
    ⟨fun hown => absurd hown.1 hnot, ?_, fun _ hin => absurd hin hnot, (h.image hd).via, ?_⟩
  · intro hcopy
    rw [hreset] at hcopy
    rcases hcopy with hcopy | hcopy <;> cases hcopy
  · intro hauth
    rw [hreset] at hauth
    cases hauth

theorem Inv.started {state : ImageState} (hd : pf.desc i = some d)
    (himages : st'.images = Function.update st.images i { st.images i with state := state })
    (hids : st'.loadedIds = st.loadedIds) (hmem : st'.mem = st.mem)
    (hstate : state = .executed ∨ state = .interrupted) : Inv pf st' hist byCopy := by
  have howns : Owns st' byCopy i ↔ Owns st byCopy i := by rw [Owns, Owns, hids]
  refine h.update hd ⟨?_, ?_, fun _ _ => rfl, fun _ _ => rfl, fun _ _ => rfl⟩ (hids ▸ h.slots) ?_ ?_
    ⟨?_, ?_, ?_, (h.image hd).via, ?_⟩
  · intro j hj
    rw [himages, update_of_ne hj]
  · intro j _ _
    rw [hids]
  · intro j dj _ _ _ _ _ a _ _
    rw [hmem]
  · intro hown j dj hj hdj hj'
    rw [himages, update_self]
    exact h.apart (Ne.symm hj) hd hdj (howns.mp hown) hj'
  · rw [howns, himages, update_self]
    exact (h.image hd).size
  all_goals
    rw [himages, update_self]
    rcases hstate with rfl | rfl <;> simp

theorem Inv.postImageLoad (hpost : pf.PostKeepsImages) {j : ImageId} (hd : pf.desc j = some d)
    (hown : Owns st byCopy j) (id : ImageId) {a : Nat} (hlo : d.imageBase ≤ a)
    (hhi : a < d.imageBase + (st.images j).imageSize) : pf.postImageLoad id st.mem a = st.mem a :=
  hpost id st.mem j d _ a hd ((h.image hd).size hown).1 hlo hhi

section Auth

variable (hpost : pf.PostKeepsImages) {imageSrc : Nat} {imageSize : UInt32}
include hpost

theorem Inv.authCopied (hd : pf.desc i = some d) (hstate : (st.images i).state = .copied)
    (hs : authVerify pf i d verifies st = (rc, st')) :
    Inv pf st' (hist.after pf st (.imageAuth i imageSrc imageSize memCheckFails verifies) rc)
      byCopy := by
  have hown := (h.image hd).copied (Or.inr hstate)
  unfold authVerify at hs
  simp only [hstate, if_true] at hs
  split at hs
  · cases hs
    simp only [History.after, hd, authRange, hstate, if_true]
    refine h.update hd ⟨fun j hj => update_of_ne hj _ _, fun _ _ _ => Iff.rfl,
        fun j hj => update_of_ne hj _ _, fun j hj => update_of_ne hj _ _,
        fun _ _ => rfl⟩ h.slots ?_ ?_ ⟨fun _ => ?_, fun _ => hown, ?_, fun _ => hown.2, ?_⟩
    · intro j dj _ hdj _ _ hj a hlo hhi
      exact h.postImageLoad hpost hdj hj i hlo hhi
    · intro _ j dj hj hdj hj'
      simp only [Bl1.setImage, update_self]
      exact h.apart (Ne.symm hj) hd hdj hown hj'
    · simp only [Bl1.setImage, update_self]
      exact (h.image hd).size hown
    · simp only [Bl1.setImage, update_self]
      intro hh
      cases hh
    · intro _ _
      simp only [Bl1.setImage, update_self]
      refine ⟨hown, ?_⟩
      rw [bytes_congr fun a hlo hhi => h.postImageLoad hpost hd hown i hlo hhi]
  · cases hs
    obtain ⟨hslots, hnot, hother⟩ := h.slots.remove (pf.ne_invalid hd)
    refine h.unload hd (fun j hj => update_of_ne hj _ _) ?_ hslots hnot hother ?_
    · simp only [Bl1.setImage, update_self]
    · intro j dj hj hdj _ _ hj' a hlo hhi
      exact zeroNormalmem_of_not_mem fun hin =>
        h.apart (Ne.symm hj) hd hdj hown hj' a hin.1 hin.2 ⟨hlo, hhi⟩

theorem Inv.authInPlace {ids : List ImageId} (hd : pf.desc i = some d) (hstate : (st.images i).state = .reset)
    (hadd : bl1FwuAddLoadedId st.loadedIds i = some ids)
    (hs : authVerify pf i d verifies
      { st.setImage i { st.images i with imageSize := imageSize.toNat } with loadedIds := ids } = (rc, st')) :
    ∃ byCopy', Inv pf st' (hist.after pf st (.imageAuth i imageSrc imageSize memCheckFails verifies) rc) byCopy' := by
  obtain ⟨hslots, hin, hother⟩ := h.slots.add hadd (pf.ne_invalid hd)
  unfold authVerify at hs
  simp only [Bl1.setImage, update_self, update_idem, hstate] at hs
  split at hs
  · cases hs
    simp only [History.after, hd]
    have hnot : ¬ Function.update byCopy i false i = true := by
      rw [update_self]
      exact Bool.false_ne_true
    refine ⟨Function.update byCopy i false, h.update hd ⟨fun j hj => update_of_ne hj _ _, hother,
        fun j hj => update_of_ne hj _ _, fun j hj => update_of_ne hj _ _,
        fun j hj => update_of_ne hj _ _⟩ hslots ?_ (fun hown => absurd hown.2 hnot)
      ⟨fun hown => absurd hown.2 hnot, ?_, ?_, ?_, ?_⟩⟩
    · intro j dj _ hdj _ _ hj a hlo hhi
      exact h.postImageLoad hpost hdj hj i hlo hhi
    · simp only [update_self]
      rintro (hh | hh) <;> cases hh
    · simp only [update_self]
      intro hh
      cases hh
    all_goals simp [hstate]
  · cases hs
    obtain ⟨hslots', hnot, hother'⟩ := hslots.remove (pf.ne_invalid hd)
    refine ⟨byCopy, h.unload hd (fun j hj => update_of_ne hj _ _) ?_ hslots' hnot
      (fun j hj hj' => (hother' j hj hj').trans (hother j hj hj'))
      (fun _ _ _ _ _ _ _ _ _ _ => rfl)⟩
    simp only [update_self]

theorem Inv.imageAuth (hs : bl1FwuImageAuth pf i imageSrc imageSize memCheckFails verifies st = some (rc, st')) :
    ∃ byCopy', Inv pf st' (hist.after pf st (.imageAuth i imageSrc imageSize memCheckFails verifies) rc) byCopy' := by
  rcases imageAuth_cases hs with ⟨rfl, hrc⟩ | ⟨d, hd, ⟨hcopied, -, hs⟩ | ⟨hreset, ids, hadd, hs⟩⟩
  · cases rc with
    | success => exact absurd rfl hrc
    | eperm => exact ⟨byCopy, h⟩
    | enomem => exact ⟨byCopy, h⟩
    | eauth => exact ⟨byCopy, h⟩
  · exact ⟨byCopy, h.authCopied hpost hd hcopied hs⟩
  · exact h.authInPlace hpost hd hreset hadd hs

end Auth

theorem Inv.imageExecute (hs : bl1FwuSmcHandler pf (.imageExecute i) st = some (rc, st')) :
    Inv pf st' hist byCopy := by
  cases Effect.of_handler hs with
  | same => exact h
  | executed hd => exact h.started hd rfl rfl rfl (Or.inl rfl)

theorem Inv.imageResume (hs : bl1FwuImageResume pf st = some (rc, st')) :
    Inv pf st' hist byCopy := by
  cases Effect.of_imageResume hs with
  | same => exact h
  | interrupted hd => exact h.started hd rfl rfl rfl (Or.inr rfl)
  | resumed hd => exact h.started hd rfl rfl rfl (Or.inl rfl)

theorem Inv.secImageDone (hs : bl1FwuSecImageDone pf st = some (rc, st')) :
    Inv pf st' hist byCopy := by
  cases Effect.of_secImageDone hs with
  | same => exact h
  | done hd =>
    obtain ⟨hslots, hnot, hother⟩ := h.slots.remove (pf.ne_invalid hd)
    refine h.unload hd (fun j hj => update_of_ne hj _ _) ?_ hslots hnot hother (fun _ _ _ _ _ _ _ _ _ _ => rfl)
    simp only [Bl1.setImage, update_self]

/-- What a reset clears is the place of the image, or it clears another image. -/
theorem Inv.reset_apart (hd : pf.desc i = some d) (hworld : st.world = .normal)
    (hin : i ∈ st.loadedIds) (hnot : (st.images i).state ≠ .reset)
    (hexec : (st.images i).state ≠ .executed)
    (hclear : ¬ ClearsOther pf ⟨st, hist⟩ (.imageReset i)) {j : ImageId} {dj : ImageDesc}
    (hj : j ≠ i) (hdj : pf.desc j = some dj) (hauth : (st.images j).state = .authenticated)
    (hvia : hist.viaCopied j = true) (hown : Owns st byCopy j) :
    Apart d.imageBase (st.images i).copiedSize dj.imageBase (st.images j).imageSize := by
  have hi := h.image hd
  by_cases hi' : Owns st byCopy i
  · exact (h.apart (Ne.symm hj) hd hdj hi' hown).mono (hi.size hi').2.2
  · -- not copied, so it was authenticated in place
    have hplace : hist.viaCopied i = false := by
      rw [← Bool.not_eq_true]
      exact fun hv => hi' ⟨hin, hi.via hv⟩
    by_contra hover
    refine hclear ⟨hworld, hin, hplace, ?_, j, d, dj, hj, hd, hdj, hauth, hvia, hover⟩
    cases hs : (st.images i).state with
    | reset => exact absurd hs hnot
    | executed => exact absurd hs hexec
    | copied => exact absurd (hi.copied (Or.inr hs)) hi'
    | copying => exact absurd (hi.copied (Or.inl hs)) hi'
    | authenticated => exact Or.inl rfl
    | interrupted => exact Or.inr rfl

end

theorem removeLoadedId_mem {id : ImageId} {ids ids' : List ImageId}
    (h : bl1FwuRemoveLoadedId id ids = some ids') (hid : id ≠ invalidImageId) : id ∈ ids := by
  have := count_removeLoadedId h hid
  rw [if_pos rfl] at this
  exact List.count_pos_iff.mp (by omega)

theorem Inv.imageReset {rc : Rc} (h : Inv pf st hist byCopy) (hclear : ¬ ClearsOther pf ⟨st, hist⟩ (.imageReset i))
    (hs : bl1FwuImageReset pf i st = some (rc, st')) : Inv pf st' hist byCopy := by
  rcases imageReset_cases hs with rfl | ⟨d, ids, hd, hworld, hreset, hexec, hrem, rfl⟩
  · exact h
  obtain ⟨hslots, hnot, hother⟩ := h.slots.remove (pf.ne_invalid hd)
  rw [hrem] at hslots hnot hother
  have hin := removeLoadedId_mem hrem (pf.ne_invalid hd)
  refine h.unload hd (fun j hj => update_of_ne hj _ _) ?_ hslots hnot hother ?_
  · simp only [Bl1.setImage, update_self]
  · intro j dj hj hdj hauth hvia hown a hlo hhi
    exact zeroNormalmem_of_not_mem fun hin' =>
      h.reset_apart hd hworld hin hreset hexec hclear hj hdj hauth hvia hown a hin'.1 hin'.2 ⟨hlo, hhi⟩

/-- Every SMC that clears no place of another image keeps the authenticated bytes. -/
theorem Inv.step {r r' : Run} {smc : Smc} (h : Inv pf r.bl1 r.hist byCopy)
    (hpost : pf.PostKeepsImages) (hclear : ¬ ClearsOther pf r smc)
    (hs : r.step pf smc = some r') : ∃ byCopy', Inv pf r'.bl1 r'.hist byCopy' := by
  obtain ⟨⟨rc, st'⟩, hcall, rfl⟩ := Option.map_eq_some_iff.mp hs
  cases smc with
  | imageCopy id imageSrc blockSize imageSize data memCheckFails preLoadFails =>
    exact h.imageCopy hcall
  | imageAuth id imageSrc imageSize memCheckFails verifies => exact h.imageAuth hpost hcall
  | imageExecute id => exact ⟨byCopy, h.imageExecute hcall⟩
  | imageResume => exact ⟨byCopy, h.imageResume hcall⟩
  | secImageDone => exact ⟨byCopy, h.secImageDone hcall⟩
  | imageReset id => exact ⟨byCopy, h.imageReset hclear hcall⟩

theorem Inv.steps (hpost : pf.PostKeepsImages) (smcs : List Smc) :
    ∀ {r r' : Run} {byCopy : ImageId → Bool}, Inv pf r.bl1 r.hist byCopy →
      NoneClearsOther pf smcs r → r.steps pf smcs = some r' →
        ∃ byCopy', Inv pf r'.bl1 r'.hist byCopy' := by
  induction smcs with
  | nil =>
    intro r r' byCopy h _ hs
    cases hs
    exact ⟨byCopy, h⟩
  | cons smc rest ih =>
    intro r r' byCopy h hclear hs
    obtain ⟨r1, h1, hs⟩ := Option.bind_eq_some_iff.mp hs
    obtain ⟨byCopy1, hinv⟩ := h.step hpost hclear.1 h1
    exact ih hinv (hclear.2 r1 h1) hs

theorem Inv.of_boot (pf : Platform) (slots : Nat) (nextImage : ImageId) (mem : Memory) :
    Inv pf (boot slots nextImage mem).bl1 (boot slots nextImage mem).hist (fun _ => false) := by
  have hempty : ∀ id, id ≠ invalidImageId → (List.replicate slots invalidImageId).count id = 0 := by
    intro id hid
    rw [List.count_eq_zero]
    exact fun hin => hid (List.eq_of_mem_replicate hin)
  refine ⟨fun id hid => (hempty id hid).le.trans (Nat.zero_le 1), ?_, ?_⟩
  · intro i j di dj _ _ _ hi
    exact absurd hi.2 Bool.false_ne_true
  · intro id d hd
    refine ⟨fun hown => absurd hown.2 Bool.false_ne_true, ?_, ?_, fun hv => hv, ?_⟩
    · simp only [boot, update_apply]
      split <;> rintro (hh | hh) <;> cases hh
    · intro _ hin
      exact absurd hin (List.count_eq_zero.mp (hempty id (pf.ne_invalid hd)))
    · intro _ hv
      cases hv

end Invariant

/-- In every run of FWU SMCs none of which resets an image authenticated in place over another authenticated
image, an image that is executed and was authenticated from the COPIED state consists of the bytes that were
authenticated last. -/
theorem fwu_executes_what_it_authenticated (pf : Platform) (hpost : pf.PostKeepsImages)
    (slots : Nat) (nextImage : ImageId) (mem : Memory) (smcs : List Smc) (r : Run)
    (hrun : (boot slots nextImage mem).steps pf smcs = some r)
    (hclear : NoneClearsOther pf smcs (boot slots nextImage mem)) (id : ImageId) (d : ImageDesc)
    (hd : pf.desc id = some d) (hexec : (bl1FwuImageExecute pf id r.bl1).1 = .success)
    (hvia : r.hist.viaCopied id = true) :
    r.hist.verified id =
      some (bytes (bl1FwuImageExecute pf id r.bl1).2.mem d.imageBase
        ((bl1FwuImageExecute pf id r.bl1).2.images id).imageSize) := by
  obtain ⟨byCopy, hinv⟩ := Inv.steps hpost smcs (Inv.of_boot pf slots nextImage mem) hclear hrun
  unfold bl1FwuImageExecute at hexec ⊢
  rw [hd] at hexec ⊢
  simp only at hexec ⊢
  split at hexec
  · cases hexec
  · next hok =>
    rw [if_neg hok]
    simp only [Bl1.setImage, update_self]
    simp only [not_or, not_not] at hok
    exact ((hinv.image hd).verified hok.2.2.2 hvia).2

/-! ## Two runs -/

def secureImage (base : Nat) (h : base + 16 ≤ uintptrMax + 1) : ImageDesc :=
  ⟨base, 16, true, true, h⟩

/-- Images 5 and 6 share the place at 4096, image 4 has its own; assertions are compiled in. -/
def sharedPlace : Platform where
  enableAssertions := true
  loadImageV2 := true
  freeBase := 0
  freeSize := 0
  desc := fun id =>
    if id = 4 then some (secureImage 8192 (by decide))
    else if id = 5 ∨ id = 6 then some (secureImage 4096 (by decide))
    else none
  postImageLoad := fun _ mem => mem
  desc_invalid := by decide

def copyFour (id : ImageId) : Smc := .imageCopy id 1 4 4 (fun _ => 0xAA) false false

/-- The result, how image 6 was authenticated, the bytes that were accepted and those that are there. -/
def outcome (r : Run) : Rc × Bool × Option (List UInt8) × List UInt8 :=
  ((bl1FwuImageExecute sharedPlace 6 r.bl1).1, r.hist.viaCopied 6, r.hist.verified 6,
    bytes (bl1FwuImageExecute sharedPlace 6 r.bl1).2.mem 4096
      ((bl1FwuImageExecute sharedPlace 6 r.bl1).2.images 6).imageSize)

def plainUpdate : List Smc := [copyFour 6, .imageAuth 6 0 0 false true]

theorem plainUpdate_outcome : ((boot 10 0 fun _ => 0).steps sharedPlace plainUpdate).map outcome =
      some (.success, true, some [0xAA, 0xAA, 0xAA, 0xAA], [0xAA, 0xAA, 0xAA, 0xAA]) := by
  decide +kernel

theorem fwu_executes_what_it_authenticated_plain :
    ∃ r, (boot 10 0 fun _ => 0).steps sharedPlace plainUpdate = some r ∧
      (bl1FwuImageExecute sharedPlace 6 r.bl1).1 = .success ∧
      r.hist.verified 6 = some (bytes (bl1FwuImageExecute sharedPlace 6 r.bl1).2.mem 4096
        ((bl1FwuImageExecute sharedPlace 6 r.bl1).2.images 6).imageSize) := by
  obtain ⟨r, hrun, hout⟩ := Option.map_eq_some_iff.mp plainUpdate_outcome
  have hexec : (bl1FwuImageExecute sharedPlace 6 r.bl1).1 = .success := congrArg Prod.fst hout
  have hvia : r.hist.viaCopied 6 = true := congrArg (fun o => o.2.1) hout
  refine ⟨r, hrun, hexec, ?_⟩
  exact fwu_executes_what_it_authenticated sharedPlace (fun _ _ _ _ _ _ _ _ _ _ => rfl) 10 0
    (fun _ => 0) plainUpdate r hrun ⟨id, fun _ _ => ⟨id, fun _ _ => trivial⟩⟩ 6
    (secureImage 4096 (by decide)) rfl hexec hvia

/-- Image 5 is copied and rejected, which leaves its `copied_size`; image 6 takes its place; image 4 runs and
has image 5 authenticated in place; image 5 is reset. -/
def staleReset : List Smc :=
  [copyFour 5, .imageAuth 5 0 0 false false, copyFour 6, .imageAuth 6 0 0 false true,
    copyFour 4, .imageAuth 4 0 0 false true, .imageExecute 4, .imageAuth 5 12288 2 false true,
    .imageResume, .imageReset 5]

theorem staleReset_outcome : ((boot 10 0 fun _ => 0).steps sharedPlace staleReset).map outcome =
      some (.success, true, some [0xAA, 0xAA, 0xAA, 0xAA], [0, 0, 0, 0]) := by
  decide +kernel

/-- BL1 executes an image whose bytes were cleared after they were authenticated. -/
theorem fwu_executes_cleared_image :
    ∃ r, (boot 10 0 fun _ => 0).steps sharedPlace staleReset = some r ∧
      (bl1FwuImageExecute sharedPlace 6 r.bl1).1 = .success ∧ r.hist.viaCopied 6 = true ∧
      r.hist.verified 6 ≠ some (bytes (bl1FwuImageExecute sharedPlace 6 r.bl1).2.mem 4096
        ((bl1FwuImageExecute sharedPlace 6 r.bl1).2.images 6).imageSize) := by
  obtain ⟨r, hrun, hout⟩ := Option.map_eq_some_iff.mp staleReset_outcome
  have hver : r.hist.verified 6 = some [0xAA, 0xAA, 0xAA, 0xAA] := congrArg (fun o => o.2.2.1) hout
  have hbytes := congrArg (fun o => o.2.2.2) hout
  simp only [outcome] at hbytes
  refine ⟨r, hrun, congrArg Prod.fst hout, congrArg (fun o => o.2.1) hout, ?_⟩
  rw [hver, hbytes]
  decide

end Armada3720.Fwu
