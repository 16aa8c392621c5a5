import Armada3720.Loader.MemLayout

/-!
# Authenticated images in the free memory

`load_auth_image` without `LOAD_IMAGE_V2`: an image is loaded behind its parents and authenticated, and the next
boot source is tried if that fails. The memory of an image that was read stays reserved when the authentication
fails.

`failed_load_keeps_memory_iff` says that this is the only failure that does. Attempts after such a rejection are not
described.
-/

namespace Armada3720.Loader

open Lib

/-- The bytes that the image descriptor describes. -/
def V1Result.image {σ : Type*} (r : V1Result σ) : List UInt8 :=
  window r.layout.mem r.imageData.base r.imageData.size

/-- `zero_normalmem` on the image. -/
def V1Result.zero {σ : Type*} (r : V1Result σ) : Layout σ :=
  { r.layout with mem := overwrite r.layout.mem r.imageData.base (List.replicate r.imageData.size 0) }

namespace Platform

variable {σ : Type*} (p : Platform σ)

/-- A loaded image is authenticated. -/
def verifyV1 (id : Nat) (r : V1Result σ) : V1Result σ :=
  let v := p.authModVerifyImg id r.image r.layout.io
  if v.1 ≠ 0 then { r with rc := -eAUTH, layout := { r.zero with io := v.2 } }
  else { r with rc := 0, layout := { r.layout with io := v.2 } }

/-- `load_auth_image_internal` behind the parents. -/
def loadAndVerifyV1 (id imageBase : Nat) (imageData : Range) (pc : Option Nat) (s : Layout σ) :
    V1Result σ :=
  let r := p.loadImageV1 id imageBase imageData pc s
  if r.rc ≠ 0 then r else p.verifyV1 id r

/-- For chains of fewer than `depth` images. -/
def loadAuthImageInternalV1 (imageBase : Nat) :
    Nat → Nat → Range → Option Nat → Layout σ → Option (V1Result σ)
  | 0, _, _, _, _ => none
  | depth + 1, id, imageData, pc, s =>
    match p.authModGetParentId id s.io with
    | none => some (p.loadAndVerifyV1 id imageBase imageData pc s)
    | some parent =>
      match loadAuthImageInternalV1 imageBase depth parent imageData none s with
      | none => none
      | some r =>
        if r.rc ≠ 0 then some { r with pc := pc }
        else some (p.loadAndVerifyV1 id imageBase r.imageData pc r.layout)

/-- `load_auth_image`, for fewer than `tries` boot sources. -/
def loadAuthImageV1 (depth id imageBase : Nat) :
    Nat → Range → Option Nat → Layout σ → Option (V1Result σ)
  | 0, _, _, _ => none
  | tries + 1, imageData, pc, s =>
    match p.loadAuthImageInternalV1 imageBase depth id imageData pc s with
    | none => none
    | some r =>
      if r.rc = 0 then some r
      else
        let next := p.tryNextBootSource r.layout.io
        if next.1 then
          loadAuthImageV1 depth id imageBase tries r.imageData r.pc { r.layout with io := next.2 }
        else some { r with layout := { r.layout with io := next.2 } }

end Platform

/-! ## One attempt -/

section Attempt

variable {σ : Type*} (p : Platform σ) (imageBase : Nat)

/-- Image descriptor and layout before and after. -/
inductive AncestorsAccepted : Nat → Range → Layout σ → Range → Layout σ → Prop
  | root {id : Nat} {d : Range} {s : Layout σ} : p.authModGetParentId id s.io = none →
      AncestorsAccepted id d s d s
  | parent {id parent : Nat} {d d₁ : Range} {s s₁ : Layout σ} :
      p.authModGetParentId id s.io = some parent → AncestorsAccepted parent d s d₁ s₁ →
      (p.loadAndVerifyV1 parent imageBase d₁ none s₁).rc = 0 →
      AncestorsAccepted id d s (p.loadAndVerifyV1 parent imageBase d₁ none s₁).imageData
        (p.loadAndVerifyV1 parent imageBase d₁ none s₁).layout

/-- The image is read completely, and rejected then. -/
def ReadAndRejected (id : Nat) (s : Layout σ) : Prop :=
  ∃ dev handle size data io2 io3 io4, p.Opened id s.io dev handle io2 ∧
    p.ioSize handle io2 = ⟨0, size, io3⟩ ∧ 0 < size ∧ isMemFree s.free imageBase size = true ∧
    p.ioRead handle size io3 = ⟨0, data, io4⟩ ∧ data.length = size ∧
    (p.authModVerifyImg id (window (overwrite s.mem imageBase data) imageBase (size % 2 ^ 32))
      (p.close dev handle io4)).1 ≠ 0

/-- All ancestors are accepted, and the image itself is read and rejected. -/
def RejectedAtLast (id : Nat) (d : Range) (s : Layout σ) : Prop :=
  ∃ d₁ s₁, AncestorsAccepted p imageBase id d s d₁ s₁ ∧ ReadAndRejected p imageBase id s₁

variable {p imageBase} {id depth : Nat} {d d₁ : Range} {s s₁ : Layout σ} {pc : Option Nat}

theorem Platform.verifyV1_free (r : V1Result σ) : (p.verifyV1 id r).layout.free = r.layout.free := by
  unfold verifyV1
  dsimp only
  split <;> rfl

theorem Platform.loadAndVerifyV1_free : (p.loadAndVerifyV1 id imageBase d pc s).layout.free =
      (p.loadImageV1 id imageBase d pc s).layout.free := by
  unfold loadAndVerifyV1
  dsimp only
  split
  · rfl
  · exact verifyV1_free _

theorem Platform.loadImageV1_none_free : (p.loadImageV1 id imageBase d none s).layout.free = s.free := by
  unfold loadImageV1
  split
  · rfl
  · rfl
  · rfl
  · split <;> rfl

theorem Platform.loadAuthImageInternalV1_none_free {r : V1Result σ}
    (h : p.loadAuthImageInternalV1 imageBase depth id d none s = some r) : r.layout.free = s.free := by
  induction depth generalizing id r with
  | zero => cases h
  | succ depth ih =>
    rw [loadAuthImageInternalV1] at h
    split at h
    · cases h
      rw [loadAndVerifyV1_free, loadImageV1_none_free]
    · split at h
      · cases h
      · next r' hr' =>
        have hfree := ih hr'
        split at h
        · cases h
          exact hfree
        · cases h
          rw [loadAndVerifyV1_free, loadImageV1_none_free, hfree]

section

variable (h : AncestorsAccepted p imageBase id d s d₁ s₁)
include h

theorem AncestorsAccepted.free : s₁.free = s.free := by
  induction h with
  | root _ => rfl
  | parent _ _ _ ih => rw [Platform.loadAndVerifyV1_free, Platform.loadImageV1_none_free, ih]

theorem AncestorsAccepted.unique {d2 : Range} {s2 : Layout σ}
    (h' : AncestorsAccepted p imageBase id d s d2 s2) : d₁ = d2 ∧ s₁ = s2 := by
  induction h generalizing d2 s2 with
  | root hparent =>
    cases h' with
    | root => exact ⟨rfl, rfl⟩
    | parent hparent' => exact nomatch hparent.symm.trans hparent'
  | parent hparent _ _ ih =>
    cases h' with
    | root hparent' => exact nomatch hparent.symm.trans hparent'
    | parent hparent' hacc' _ =>
      obtain rfl := Option.some.inj (hparent.symm.trans hparent')
      obtain ⟨rfl, rfl⟩ := ih hacc'
      exact ⟨rfl, rfl⟩

/-- When the ancestors are accepted, an attempt comes down to the image itself. -/
theorem AncestorsAccepted.attempt {r : V1Result σ}
    (hr : p.loadAuthImageInternalV1 imageBase depth id d pc s = some r) :
    r = p.loadAndVerifyV1 id imageBase d₁ pc s₁ := by
  induction h generalizing depth pc r with
  | root hparent =>
    cases depth with
    | zero => cases hr
    | succ depth =>
      rw [Platform.loadAuthImageInternalV1, hparent] at hr
      cases hr
      rfl
  | parent hparent _ hrc ih =>
    cases depth with
    | zero => cases hr
    | succ depth =>
      rw [Platform.loadAuthImageInternalV1, hparent] at hr
      dsimp only at hr
      split at hr
      · cases hr
      · next r' hr' =>
        rw [ih hr', if_neg (not_not.mpr hrc)] at hr
        cases hr
        rfl

end

theorem Platform.loadAuthImageInternalV1_cases {r : V1Result σ}
    (hr : p.loadAuthImageInternalV1 imageBase depth id d pc s = some r) :
    (∃ d₁ s₁, AncestorsAccepted p imageBase id d s d₁ s₁) ∨ r.rc ≠ 0 ∧ r.layout.free = s.free := by
  induction depth generalizing id pc r with
  | zero => cases hr
  | succ depth ih =>
    rw [loadAuthImageInternalV1] at hr
    split at hr
    · next hparent => exact .inl ⟨d, s, .root hparent⟩
    · next parent hparent =>
      split at hr
      · cases hr
      · next r' hr' =>
        split at hr
        · next hrc =>
          have hfree := loadAuthImageInternalV1_none_free hr'
          cases hr
          exact .inr ⟨hrc, hfree⟩
        · next hrc =>
          rcases ih hr' with ⟨d₁, s₁, hacc⟩ | ⟨hrc', -⟩
          · have hlast := hacc.attempt hr'
            rw [hlast] at hrc
            exact .inl ⟨_, _, .parent hparent hacc (not_not.mp hrc)⟩
          · exact absurd hrc' hrc

theorem reserveMem_ne {free : Range} {addr size : Nat} (hroom : HasRoom free addr size)
    (hfree : free.size < 2 ^ 64) (hsize : size < 2 ^ 64) : reserveMem free addr size ≠ free := by
  intro heq
  have hsame := congrArg Range.size heq
  have hdiscard := hroom.discard_eq hfree hsize
  obtain ⟨hpos, htop, habove, hbelow⟩ := hroom
  have hle : size + (discard free addr size).2 ≤ free.size := by
    rw [hdiscard]
    split
    · omega
    · omega
  rw [reserveMem, if_neg hpos.ne'] at hsame
  dsimp only at hsame
  rw [addPtr_of_lt (by omega), subPtr_of_le hfree hle] at hsame
  omega

theorem Platform.readImage_read {fits : Nat → Bool} {dev handle size : Nat} {rc : Int}
    {data : List UInt8} {io io2 io3 io4 : σ} (hopened : p.Opened id io dev handle io2)
    (hsize : p.ioSize handle io2 = ⟨0, size, io3⟩) (hpos : 0 < size) (hfits : fits size = true)
    (hread : p.ioRead handle size io3 = ⟨rc, data, io4⟩) :
    p.readImage fits id io = .read size rc data (p.close dev handle io4) := by
  obtain ⟨spec, io1, hsource, hopen⟩ := hopened
  unfold readImage
  rw [hsource]
  rw [if_neg (not_not.mpr rfl), hopen]
  rw [if_neg (not_not.mpr rfl), hsize]
  dsimp only
  rw [if_neg (by omega), hfits, if_neg (by decide), hread]

theorem Load.free_of_not_fullRead {l : Load} (hnot : ¬ l.FullRead p s) : (l.call p s).layout.free = s.free := by
  have hspec := p.readImage_spec (isMemFree s.free l.imageBase) l.id s.io
  show (p.loadImageV1 l.id l.imageBase l.imageData (some l.pc) s).layout.free = s.free
  unfold Platform.loadImageV1
  generalize p.readImage (isMemFree s.free l.imageBase) l.id s.io = outcome at hspec
  cases hspec with
  | noImage _ => rfl
  | noSize _ _ _ => rfl
  | noRoom _ _ _ => rfl
  | @read dev handle size rc data io2 io3 io4 hopened hsize hpos hfits hread hle =>
    dsimp only
    split
    · rfl
    · next hok =>
      obtain ⟨hrc, hlen⟩ := not_or.mp hok
      obtain rfl := not_not.mp hrc
      exact absurd ⟨_, _, _, _, _, _, _, hopened, hsize, hpos, hfits, hread, by omega⟩ hnot

/-- A failure keeps the free memory exactly if it was not a rejection after the image was read. -/
theorem Platform.loadAndVerifyV1_free_iff {pc : Nat} (hfree : s.free.size < 2 ^ 64)
    (hrc : (p.loadAndVerifyV1 id imageBase d (some pc) s).rc ≠ 0) :
    (p.loadAndVerifyV1 id imageBase d (some pc) s).layout.free = s.free ↔
      ¬ ReadAndRejected p imageBase id s := by
  rw [loadAndVerifyV1_free]
  by_cases hfull : (⟨id, imageBase, d, pc⟩ : Load).FullRead p s
  · obtain ⟨dev, handle, size, data, io2, io3, io4, hopened, hsize, hpos, hfits, hread, hlen⟩ := hfull
    have hlt := p.ioSize_lt handle io2
    rw [hsize] at hlt
    have hroom := (isMemFree_iff hfree hlt hpos).mp hfits
    have hload : p.loadImageV1 id imageBase d (some pc) s = ⟨0, ⟨imageBase, size % 2 ^ 32⟩, some imageBase,
          ⟨reserveMem s.free imageBase size, overwrite s.mem imageBase data, p.close dev handle io4⟩⟩ := by
      unfold loadImageV1
      rw [readImage_read hopened hsize hpos hfits hread]
      dsimp only
      rw [if_neg (by omega), if_pos Option.isSome_some]
      rfl
    have hrejected : (p.authModVerifyImg id (window (overwrite s.mem imageBase data) imageBase (size % 2 ^ 32))
        (p.close dev handle io4)).1 ≠ 0 := by
      intro hzero
      apply hrc
      unfold loadAndVerifyV1
      rw [hload]
      rw [if_neg (not_not.mpr rfl)]
      unfold verifyV1 V1Result.image
      rw [if_neg (not_not.mpr hzero)]
    rw [hload]
    refine ⟨fun hsame => absurd hsame (reserveMem_ne hroom hfree hlt), fun hnot => ?_⟩
    exact absurd ⟨dev, handle, size, data, io2, io3, io4, hopened, hsize, hpos, hfits, hread, hlen, hrejected⟩ hnot
  · refine ⟨fun _ hrejected => hfull ?_, fun _ => Load.free_of_not_fullRead hfull⟩
    obtain ⟨dev, handle, size, data, io2, io3, io4, hopened, hsize, hpos, hfits, hread, hlen, -⟩ :=
      hrejected
    exact ⟨dev, handle, size, data, io2, io3, io4, hopened, hsize, hpos, hfits, hread, hlen⟩

theorem Platform.loadAuthImageInternalV1_free_iff {pc : Nat} {r : V1Result σ} (hfree : s.free.size < 2 ^ 64)
    (hr : p.loadAuthImageInternalV1 imageBase depth id d (some pc) s = some r) (hrc : r.rc ≠ 0) :
    r.layout.free = s.free ↔ ¬ RejectedAtLast p imageBase id d s := by
  by_cases hacc : ∃ d₁ s₁, AncestorsAccepted p imageBase id d s d₁ s₁
  · obtain ⟨d₁, s₁, hacc⟩ := hacc
    have hlast := hacc.attempt hr
    have hsame := hacc.free
    subst hlast
    have hone := loadAndVerifyV1_free_iff (hsame ▸ hfree) hrc
    rw [hsame] at hone
    rw [hone]
    constructor
    · rintro hnot ⟨d2, s2, hacc', hrejected⟩
      obtain ⟨rfl, rfl⟩ := hacc.unique hacc'
      exact hnot hrejected
    · exact fun hnot hrejected => hnot ⟨d₁, s₁, hacc, hrejected⟩
  · have hkept := (loadAuthImageInternalV1_cases hr).resolve_left hacc
    exact ⟨fun _ ⟨d₁, s₁, hacc', _⟩ => hacc ⟨d₁, s₁, hacc'⟩, fun _ => hkept.2⟩

end Attempt

/-! ## The attempts of one load -/

section Retry

variable {σ : Type*} (p : Platform σ) (depth id imageBase : Nat)

/-- The states in which attempts begin, as long as none before was rejected after its image was read. -/
inductive Begins (d : Range) (pc : Nat) (s : Layout σ) : Range → Nat → Layout σ → Prop
  | first : Begins d pc s d pc s
  | retry {d₁ : Range} {pc₁ pc₂ : Nat} {s₁ : Layout σ} {r : V1Result σ} : Begins d pc s d₁ pc₁ s₁ →
      p.loadAuthImageInternalV1 imageBase depth id d₁ (some pc₁) s₁ = some r → r.rc ≠ 0 →
      ¬ RejectedAtLast p imageBase id d₁ s₁ → r.pc = some pc₂ →
      (p.tryNextBootSource r.layout.io).1 = true →
      Begins d pc s r.imageData pc₂ { r.layout with io := (p.tryNextBootSource r.layout.io).2 }

end Retry

/-- A failed attempt of `load_auth_image` leaves the free memory as it was exactly if it was not the image
itself that was rejected, after it was read; until then every attempt begins with the free memory that the first
one saw. -/
theorem failed_load_keeps_memory_iff {σ : Type*} (p : Platform σ) (depth id imageBase pc : Nat)
    (d : Range) (s : Layout σ) (hfree : s.free.size < 2 ^ 64) :
    ∀ d₁ pc₁ s₁, Begins p depth id imageBase d pc s d₁ pc₁ s₁ → s₁.free = s.free ∧
      ∀ r, p.loadAuthImageInternalV1 imageBase depth id d₁ (some pc₁) s₁ = some r → r.rc ≠ 0 →
        (r.layout.free = s₁.free ↔ ¬ RejectedAtLast p imageBase id d₁ s₁) := by
  have hkept : ∀ d₁ pc₁ s₁, Begins p depth id imageBase d pc s d₁ pc₁ s₁ → s₁.free = s.free := by
    intro d₁ pc₁ s₁ hbegins
    induction hbegins with
    | first => rfl
    | retry _ hr hrc hnot _ _ ih =>
      have hsame := (Platform.loadAuthImageInternalV1_free_iff (ih ▸ hfree) hr hrc).mpr hnot
      exact hsame.trans ih
  intro d₁ pc₁ s₁ hbegins
  have hsame := hkept d₁ pc₁ s₁ hbegins
  exact ⟨hsame, fun r hr hrc =>
    Platform.loadAuthImageInternalV1_free_iff (hsame ▸ hfree) hr hrc⟩

/-- Images of four bytes on two boot sources, the first of which has one that is rejected. -/
def secondSource : Platform Bool where
  getImageSource _ io := ⟨0, (1, 2), io⟩
  ioOpen _ _ io := ⟨0, 3, io⟩
  ioSize _ io := ⟨0, 4, io⟩
  ioRead _ len io := ⟨0, [1, 2, 3, 4].take len, io⟩
  ioClose _ io := io
  ioDevClose _ io := io
  tryNextBootSource io := (!io, true)
  authModGetParentId _ _ := none
  authModVerifyImg _ _ io := (if io then 0 else 1, io)
  ioSize_lt _ _ := show 4 < 2 ^ 64 by decide
  ioRead_le _ _ _ := List.length_take_le _ _

def firstTry : Layout Bool := ⟨⟨0x1000, 0x100⟩, fun _ => 0, false⟩

/-- Two attempts that fail: there is no room at `0x2000`, and the memory is kept; the image at `0x1000` is rejected
after it was read, and the memory is lost. -/
theorem failed_load_keeps_memory_two_failures :
    (∃ r, secondSource.loadAuthImageInternalV1 0x2000 1 0 ⟨0, 0⟩ (some 0) firstTry = some r ∧ r.rc ≠ 0 ∧
      r.layout.free = firstTry.free ∧ ¬ RejectedAtLast secondSource 0x2000 0 ⟨0, 0⟩ firstTry) ∧
    ∃ r, secondSource.loadAuthImageInternalV1 0x1000 1 0 ⟨0, 0⟩ (some 0) firstTry = some r ∧ r.rc ≠ 0 ∧
      r.layout.free ≠ firstTry.free ∧ RejectedAtLast secondSource 0x1000 0 ⟨0, 0⟩ firstTry := by
  have hiff := fun base => (failed_load_keeps_memory_iff secondSource 1 0 base 0 ⟨0, 0⟩ firstTry
    (by decide) _ _ _ .first).2
  refine ⟨⟨_, rfl, by decide +kernel, by decide +kernel, ?_⟩, ⟨_, rfl, by decide +kernel, by decide +kernel, ?_⟩⟩
  · exact (hiff 0x2000 _ rfl (by decide +kernel)).mp (by decide +kernel)
  · exact not_not.mp fun hnot => absurd ((hiff 0x1000 _ rfl (by decide +kernel)).mpr hnot) (by decide +kernel)

/-- The image of the second source would be accepted, but that of the first still has the memory. -/
theorem rejected_load_keeps_its_memory : (secondSource.loadAuthImageInternalV1 0x1000 1 0 ⟨0, 0⟩ (some 0)
        ⟨⟨0x1000, 0x100⟩, fun _ => 0, false⟩).map (fun r => (r.rc, r.layout.free)) =
      some (-eAUTH, ⟨0x1004, 0xfc⟩) ∧
    (secondSource.loadAuthImageV1 1 0 0x1000 3 ⟨0, 0⟩ (some 0)
        ⟨⟨0x1000, 0x100⟩, fun _ => 0, false⟩).map (fun r => r.rc) = some (-eNOMEM) ∧
    (secondSource.loadAuthImageV1 1 0 0x1000 3 ⟨0, 0⟩ (some 0)
        ⟨⟨0x1000, 0x100⟩, fun _ => 0, true⟩).map (fun r => r.rc) = some 0 := by
  decide +kernel

end Armada3720.Loader
