import Mathlib
import Armada3720.Lib.Window

/-!
# Loading images

The functions of `bl_common.c` that load an image with `LOAD_IMAGE_V2`. What they call is a platform, that may
fail in any way. The cache is left out.

`load_auth_image_complete_iff` is about runs that return 0: the image and its parents were read as a whole and
accepted, exactly if the last attempt met no empty image and no short read that the I/O layer calls a success.
-/

namespace Armada3720.Loader

open Lib

/-- An error code, 0 for success, with what the call gives and the state it leaves. -/
structure Reply (σ α : Type*) where
  rc : Int
  val : α
  io : σ

/-- What `bl_common.c` calls. -/
structure Platform (σ : Type*) where
  /-- `plat_get_image_source`: a handle of a device and a specification. -/
  getImageSource : Nat → σ → Reply σ (Nat × Nat)
  ioOpen : Nat → Nat → σ → Reply σ Nat
  ioSize : Nat → σ → Reply σ Nat
  /-- The bytes that are read, at most as many as asked for. -/
  ioRead : Nat → Nat → σ → Reply σ (List UInt8)
  ioClose : Nat → σ → σ
  ioDevClose : Nat → σ → σ
  tryNextBootSource : σ → Bool × σ
  /-- The parent that is still to be authenticated. -/
  authModGetParentId : Nat → σ → Option Nat
  authModVerifyImg : Nat → List UInt8 → σ → Int × σ
  ioSize_lt : ∀ handle io, (ioSize handle io).val < 2 ^ 64
  ioRead_le : ∀ handle n io, (ioRead handle n io).val.length ≤ n

/-- How far reading an image gets. -/
inductive IoOutcome (σ : Type*)
  /-- It has no source, or it cannot be opened. -/
  | noImage (rc : Int) (io : σ)
  | noSize (rc : Int) (io : σ)
  | noRoom (io : σ)
  | read (size : Nat) (rc : Int) (data : List UInt8) (io : σ)

namespace Platform

variable {σ : Type*} (p : Platform σ)

/-- The label `exit`. -/
def close (dev handle : Nat) (io : σ) : σ := p.ioDevClose dev (p.ioClose handle io)

def imageSize (id : Nat) (io : σ) : Nat :=
  let source := p.getImageSource id io
  if source.rc ≠ 0 then 0
  else
    let image := p.ioOpen source.val.1 source.val.2 source.io
    if image.rc ≠ 0 then 0 else (p.ioSize image.val image.io).val

/-- What both versions of `load_image` do with the I/O layer; `fits` is their check of the size. -/
def readImage (fits : Nat → Bool) (id : Nat) (io : σ) : IoOutcome σ :=
  let source := p.getImageSource id io
  if source.rc ≠ 0 then .noImage source.rc source.io
  else
    let image := p.ioOpen source.val.1 source.val.2 source.io
    if image.rc ≠ 0 then .noImage image.rc image.io
    else
      let size := p.ioSize image.val image.io
      if size.rc ≠ 0 ∨ size.val = 0 then .noSize size.rc (p.close source.val.1 image.val size.io)
      else if fits size.val = false then .noRoom (p.close source.val.1 image.val size.io)
      else
        let r := p.ioRead image.val size.val size.io
        .read size.val r.rc r.val (p.close source.val.1 image.val r.io)

/-- The image is opened. -/
def Opened (id : Nat) (io : σ) (dev handle : Nat) (io2 : σ) : Prop :=
  ∃ spec io1, p.getImageSource id io = ⟨0, (dev, spec), io1⟩ ∧ p.ioOpen dev spec io1 = ⟨0, handle, io2⟩

/-- What each outcome means. -/
inductive ReadImage (fits : Nat → Bool) (id : Nat) (io : σ) : IoOutcome σ → Prop
  | noImage {rc : Int} {io' : σ} : rc ≠ 0 → ReadImage fits id io (.noImage rc io')
  | noSize {dev handle size : Nat} {rc : Int} {io₂ io₃ : σ} : p.Opened id io dev handle io₂ →
      p.ioSize handle io₂ = ⟨rc, size, io₃⟩ → rc ≠ 0 ∨ size = 0 →
      ReadImage fits id io (.noSize rc (p.close dev handle io₃))
  | noRoom {dev handle size : Nat} {io₂ io₃ : σ} : p.Opened id io dev handle io₂ →
      p.ioSize handle io₂ = ⟨0, size, io₃⟩ → fits size = false →
      ReadImage fits id io (.noRoom (p.close dev handle io₃))
  | read {dev handle size : Nat} {rc : Int} {data : List UInt8} {io₂ io₃ io₄ : σ} :
      p.Opened id io dev handle io₂ → p.ioSize handle io₂ = ⟨0, size, io₃⟩ → 0 < size → fits size = true →
      p.ioRead handle size io₃ = ⟨rc, data, io₄⟩ → data.length ≤ size →
      ReadImage fits id io (.read size rc data (p.close dev handle io₄))

theorem readImage_spec (fits : Nat → Bool) (id : Nat) (io : σ) :
    p.ReadImage fits id io (p.readImage fits id io) := by
  unfold readImage
  rcases hsource : p.getImageSource id io with ⟨rc, ⟨dev, spec⟩, io1⟩
  by_cases hrc : rc = 0
  · subst hrc
    rw [if_neg (not_not.mpr rfl)]
    rcases hopen : p.ioOpen dev spec io1 with ⟨rc, handle, io2⟩
    by_cases hrc : rc = 0
    · subst hrc
      have hopened : p.Opened id io dev handle io2 := ⟨spec, io1, hsource, hopen⟩
      rw [if_neg (not_not.mpr rfl)]
      rcases hsize : p.ioSize handle io2 with ⟨rc, size, io3⟩
      by_cases hbad : rc ≠ 0 ∨ size = 0
      · rw [if_pos hbad]
        exact .noSize hopened hsize hbad
      · obtain ⟨hrc, hzero⟩ := not_or.mp hbad
        obtain rfl := not_not.mp hrc
        rw [if_neg hbad]
        cases hfits : fits size with
        | false => exact .noRoom hopened hsize hfits
        | true =>
          exact .read hopened hsize (Nat.pos_of_ne_zero hzero) hfits rfl (p.ioRead_le handle size io3)
    · rw [if_pos hrc]
      exact .noImage hrc
  · rw [if_pos hrc]
    exact .noImage hrc

theorem Opened.unique {p : Platform σ} {id dev handle dev' handle' : Nat} {io io2 io2' : σ}
    (h : p.Opened id io dev handle io2) (h' : p.Opened id io dev' handle' io2') :
    dev = dev' ∧ handle = handle' ∧ io2 = io2' := by
  obtain ⟨spec, io1, hsource, hopen⟩ := h
  obtain ⟨spec', io1', hsource', hopen'⟩ := h'
  obtain ⟨-, ⟨rfl, rfl⟩, rfl⟩ := by simpa only [Reply.mk.injEq, Prod.mk.injEq] using hsource.symm.trans hsource'
  obtain ⟨-, rfl, rfl⟩ := by simpa only [Reply.mk.injEq] using hopen.symm.trans hopen'
  exact ⟨rfl, rfl, rfl⟩

/-- The I/O layer reports success for an image without bytes. -/
def EmptyImage (id : Nat) (io : σ) : Prop :=
  ∃ dev handle io2 io3, p.Opened id io dev handle io2 ∧ p.ioSize handle io2 = ⟨0, 0, io3⟩

/-- The I/O layer reports success for a read of fewer bytes than asked for. -/
def ShortRead (fits : Nat → Bool) (id : Nat) (io : σ) : Prop :=
  ∃ dev handle size data io2 io3 io4, p.Opened id io dev handle io2 ∧ p.ioSize handle io2 = ⟨0, size, io3⟩ ∧
    fits size = true ∧ p.ioRead handle size io3 = ⟨0, data, io4⟩ ∧ data.length < size

end Platform

structure ImageInfo where
  imageBase : Nat
  imageSize : Nat
  imageMaxSize : Nat
  maxSize_lt : imageMaxSize < 2 ^ 32

/-- The image descriptor, the memory and the state of the platform. -/
structure State (σ : Type*) where
  imageData : ImageInfo
  mem : Nat → UInt8
  io : σ

def eFBIG : Int := 27

def eAUTH : Int := 80

namespace State

variable {σ : Type*}

def image (s : State σ) : List UInt8 := window s.mem s.imageData.imageBase s.imageData.imageSize

def fits (s : State σ) (size : Nat) : Bool := size ≤ s.imageData.imageMaxSize

def store (s : State σ) (size : Nat) (data : List UInt8) (io : σ) : State σ where
  imageData := { s.imageData with imageSize := size % 2 ^ 32 }
  mem := overwrite s.mem s.imageData.imageBase data
  io := io

def zero (s : State σ) : State σ :=
  { s with mem := overwrite s.mem s.imageData.imageBase (List.replicate s.imageData.imageSize 0) }

end State

namespace Platform

variable {σ : Type*} (p : Platform σ)

/-- A size of 0 and a short read are logged, and the result of the call is returned. -/
def loadImage (id : Nat) (s : State σ) : Int × State σ :=
  match p.readImage s.fits id s.io with
  | .noImage rc io => (rc, { s with io := io })
  | .noSize rc io => (rc, { s with io := io })
  | .noRoom io => (-eFBIG, { s with io := io })
  | .read size rc data io => (rc, s.store size data io)

/-- The image is authenticated, with `TRUSTED_BOARD_BOOT`. -/
def verify (id : Nat) (s : State σ) : Int × State σ :=
  let r := p.authModVerifyImg id s.image s.io
  if r.1 ≠ 0 then (-eAUTH, { s.zero with io := r.2 }) else (0, { s with io := r.2 })

/-- An image is loaded and authenticated: `load_auth_image_internal` behind the parents. -/
def loadAndVerify (tbb : Bool) (id : Nat) (s : State σ) : Int × State σ :=
  let r := p.loadImage id s
  if r.1 ≠ 0 then r else if tbb then p.verify id r.2 else (0, r.2)

/-- The parent that is loaded before the image. -/
def parentId (tbb : Bool) (id : Nat) (io : σ) : Option Nat :=
  if tbb then p.authModGetParentId id io else none

/-- `load_auth_image_internal`, for chains of fewer than `depth` images. -/
def loadAuthImageInternal (tbb : Bool) : Nat → Nat → State σ → Option (Int × State σ)
  | 0, _, _ => none
  | depth + 1, id, s =>
    match p.parentId tbb id s.io with
    | none => some (p.loadAndVerify tbb id s)
    | some parent =>
      match loadAuthImageInternal tbb depth parent s with
      | none => none
      | some (rc, s) => if rc ≠ 0 then some (rc, s) else some (p.loadAndVerify tbb id s)

/-- `load_auth_image`, for fewer than `tries` boot sources. -/
def loadAuthImage (tbb : Bool) (depth id : Nat) : Nat → State σ → Option (Int × State σ)
  | 0, _ => none
  | tries + 1, s =>
    match p.loadAuthImageInternal tbb depth id s with
    | none => none
    | some (rc, s) =>
      if rc = 0 then some (rc, s)
      else
        let next := p.tryNextBootSource s.io
        if next.1 then loadAuthImage tbb depth id tries { s with io := next.2 }
        else some (rc, { s with io := next.2 })

end Platform

/-! ## What a load should have done -/

section Complete

variable {σ : Type*} (p : Platform σ) (tbb : Bool)

/-- The attempt that ends in success begins in the second state. -/
inductive LastAttempt (depth id : Nat) : State σ → State σ → Prop
  | last {s s' : State σ} : p.loadAuthImageInternal tbb depth id s = some (0, s') → LastAttempt depth id s s
  | retry {s s' s₁ : State σ} {rc : Int} : p.loadAuthImageInternal tbb depth id s = some (rc, s') → rc ≠ 0 →
      (p.tryNextBootSource s'.io).1 = true →
      LastAttempt depth id { s' with io := (p.tryNextBootSource s'.io).2 } s₁ → LastAttempt depth id s s₁

/-- Every ancestor is loaded and then accepted, the oldest first. -/
inductive AncestorsVerified : Nat → State σ → State σ → Prop
  | root {id : Nat} {s : State σ} : p.parentId tbb id s.io = none → AncestorsVerified id s s
  | parent {id parent : Nat} {s s₁ s₂ : State σ} {io : σ} : p.parentId tbb id s.io = some parent →
      AncestorsVerified parent s s₁ → p.loadImage parent s₁ = (0, s₂) →
      p.authModVerifyImg parent s₂.image s₂.io = (0, io) → AncestorsVerified id s { s₂ with io := io }

/-- The image is opened, its size is neither 0 nor above the limit, all its bytes are read to the base, and just
these are authenticated. -/
def Loaded (id : Nat) (s s' : State σ) : Prop :=
  ∃ (dev handle size : Nat) (data : List UInt8) (io2 io3 io4 : σ),
    p.Opened id s.io dev handle io2 ∧ p.ioSize handle io2 = ⟨0, size, io3⟩ ∧ 0 < size ∧
    size ≤ s.imageData.imageMaxSize ∧ p.ioRead handle size io3 = ⟨0, data, io4⟩ ∧ data.length = size ∧
    s'.imageData.imageBase = s.imageData.imageBase ∧ s'.imageData.imageSize = size ∧ s'.image = data ∧
    (tbb = true → p.authModVerifyImg id data (p.close dev handle io4) = (0, s'.io))

/-- The I/O layer reports success, but for an image without bytes or for too few bytes. -/
def Quiet (id : Nat) (s : State σ) : Prop :=
  p.EmptyImage id s.io ∨ p.ShortRead s.fits id s.io

variable {p tbb}

variable {id : Nat} {s s' : State σ}

theorem Loaded.not_quiet (h : Loaded p tbb id s s') : ¬ Quiet p id s := by
  obtain ⟨dev, handle, size, data, io2, io3, io4, hopened, hsize, hpos, -, hread, hlen, -⟩ := h
  rintro (⟨dev', handle', io2', io3', hopened', hsize'⟩ |
    ⟨dev', handle', size', data', io2', io3', io4', hopened', hsize', -, hread', hshort⟩)
  · obtain ⟨rfl, rfl, rfl⟩ := hopened.unique hopened'
    obtain ⟨-, hzero, -⟩ := by simpa only [Reply.mk.injEq] using hsize.symm.trans hsize'
    omega
  · obtain ⟨rfl, rfl, rfl⟩ := hopened.unique hopened'
    obtain ⟨-, rfl, rfl⟩ := by simpa only [Reply.mk.injEq] using hsize.symm.trans hsize'
    obtain ⟨-, rfl, -⟩ := by simpa only [Reply.mk.injEq] using hread.symm.trans hread'
    omega

/-- `load_image` returns 0 for a complete image only, unless it is quiet. -/
theorem Platform.loadImage_zero {s1 : State σ} (h : p.loadImage id s = (0, s1)) (hquiet : ¬ Quiet p id s) :
    ∃ (dev handle size : Nat) (data : List UInt8) (io2 io3 io4 : σ),
      p.Opened id s.io dev handle io2 ∧ p.ioSize handle io2 = ⟨0, size, io3⟩ ∧ 0 < size ∧
      size ≤ s.imageData.imageMaxSize ∧ p.ioRead handle size io3 = ⟨0, data, io4⟩ ∧ data.length = size ∧
      s1 = s.store size data (p.close dev handle io4) := by
  have hspec := p.readImage_spec s.fits id s.io
  unfold loadImage at h
  generalize p.readImage s.fits id s.io = outcome at h hspec
  cases hspec with
  | noImage hrc => exact absurd (congrArg Prod.fst h) hrc
  | noSize hopened hsize hbad =>
    obtain rfl := congrArg Prod.fst h
    obtain rfl := hbad.resolve_left (not_not.mpr rfl)
    exact absurd (.inl ⟨_, _, _, _, hopened, hsize⟩) hquiet
  | noRoom => exact absurd (congrArg Prod.fst h) (show -eFBIG ≠ 0 by decide)
  | read hopened hsize hpos hfits hread hle =>
    obtain rfl := congrArg Prod.fst h
    have hlen := (Nat.eq_or_lt_of_le hle).resolve_right fun hlt =>
      hquiet (.inr ⟨_, _, _, _, _, _, _, hopened, hsize, hfits, hread, hlt⟩)
    exact ⟨_, _, _, _, _, _, _, hopened, hsize, hpos, of_decide_eq_true hfits, hread, hlen,
      (congrArg Prod.snd h).symm⟩

theorem Platform.loadAndVerify_zero (h : p.loadAndVerify tbb id s = (0, s')) :
    ∃ s1, p.loadImage id s = (0, s1) ∧
      if tbb then ∃ io, p.authModVerifyImg id s1.image s1.io = (0, io) ∧ s' = { s1 with io := io }
      else s' = s1 := by
  unfold loadAndVerify at h
  rcases hload : p.loadImage id s with ⟨rc, s1⟩
  rw [hload] at h
  by_cases hrc : rc = 0
  · subst hrc
    rw [if_neg (not_not.mpr rfl)] at h
    refine ⟨s1, rfl, ?_⟩
    cases tbb with
    | false => exact (congrArg Prod.snd h).symm
    | true =>
      rw [if_pos rfl, verify] at h
      rcases hverify : p.authModVerifyImg id s1.image s1.io with ⟨rc, io⟩
      rw [hverify] at h
      by_cases hrc : rc = 0
      · subst hrc
        exact ⟨io, rfl, (congrArg Prod.snd h).symm⟩
      · rw [if_pos hrc] at h
        exact absurd (congrArg Prod.fst h) (show -eAUTH ≠ 0 by decide)
  · rw [if_pos hrc] at h
    exact absurd (congrArg Prod.fst h) hrc

theorem State.image_store {size : Nat} {data : List UInt8} (io : σ) (hlen : data.length = size)
    (hle : size ≤ s.imageData.imageMaxSize) :
    (s.store size data io).imageData.imageSize = size ∧ (s.store size data io).image = data := by
  have hsize : size % 2 ^ 32 = size := Nat.mod_eq_of_lt (Nat.lt_of_le_of_lt hle s.imageData.maxSize_lt)
  refine ⟨hsize, ?_⟩
  change window (overwrite s.mem _ data) s.imageData.imageBase (size % 2 ^ 32) = data
  rw [hsize, ← hlen, window_overwrite]

theorem Platform.loadAndVerify_complete_iff (h : p.loadAndVerify tbb id s = (0, s')) :
    Loaded p tbb id s s' ↔ ¬ Quiet p id s := by
  refine ⟨Loaded.not_quiet, fun hquiet => ?_⟩
  obtain ⟨s1, hload, hverify⟩ := loadAndVerify_zero h
  obtain ⟨dev, handle, size, data, io2, io3, io4, hopened, hsize, hpos, hle, hread, hlen, rfl⟩ :=
    loadImage_zero hload hquiet
  obtain ⟨himageSize, himage⟩ := State.image_store (p.close dev handle io4) hlen hle
  refine ⟨dev, handle, size, data, io2, io3, io4, hopened, hsize, hpos, hle, hread, hlen, ?_⟩
  cases tbb with
  | false =>
    obtain rfl := hverify
    exact ⟨rfl, himageSize, himage, fun hfalse => (nomatch hfalse)⟩
  | true =>
    obtain ⟨io, haccepted, rfl⟩ := hverify
    rw [himage] at haccepted
    exact ⟨rfl, himageSize, himage, fun _ => haccepted⟩

theorem Platform.loadAuthImageInternal_zero : ∀ (depth id : Nat) (s s' : State σ),
    p.loadAuthImageInternal tbb depth id s = some (0, s') →
      ∃ s1, AncestorsVerified p tbb id s s1 ∧ p.loadAndVerify tbb id s1 = (0, s')
  | 0, _, _, _, h => nomatch h
  | depth + 1, id, s, s', h => by
    rw [loadAuthImageInternal] at h
    cases hparent : p.parentId tbb id s.io with
    | none =>
      rw [hparent] at h
      exact ⟨s, .root hparent, Option.some.inj h⟩
    | some parent =>
      rw [hparent] at h
      dsimp only at h
      have htbb : tbb = true := Bool.of_not_eq_false fun hfalse => by
        rw [parentId, hfalse] at hparent
        exact nomatch hparent
      rcases hinternal : p.loadAuthImageInternal tbb depth parent s with _ | ⟨rc, s3⟩
      · rw [hinternal] at h
        exact nomatch h
      rw [hinternal] at h
      dsimp only at h
      by_cases hrc : rc = 0
      · subst hrc
        obtain ⟨s1, hverified, haccepted⟩ := loadAuthImageInternal_zero depth parent s s3 hinternal
        obtain ⟨s2, hload, hverify⟩ := loadAndVerify_zero haccepted
        rw [if_pos htbb] at hverify
        obtain ⟨io, hverify, rfl⟩ := hverify
        exact ⟨_, .parent hparent hverified hload hverify, Option.some.inj h⟩
      · rw [if_pos hrc] at h
        exact absurd (congrArg Prod.fst (Option.some.inj h)) hrc

theorem AncestorsVerified.unique {s1 s1' : State σ} (h : AncestorsVerified p tbb id s s1)
    (h' : AncestorsVerified p tbb id s s1') : s1 = s1' := by
  induction h generalizing s1' with
  | root hparent =>
    cases h' with
    | root => rfl
    | parent hparent' => exact nomatch hparent.symm.trans hparent'
  | parent hparent _ hload hverify ih =>
    cases h' with
    | root hparent' => exact nomatch hparent.symm.trans hparent'
    | parent hparent' hverified' hload' hverify' =>
      obtain rfl := Option.some.inj (hparent.symm.trans hparent')
      obtain rfl := ih hverified'
      obtain ⟨-, rfl⟩ := Prod.mk.inj (hload.symm.trans hload')
      obtain ⟨-, rfl⟩ := Prod.mk.inj (hverify.symm.trans hverify')
      rfl

theorem Platform.loadAuthImage_zero {depth : Nat} : ∀ (tries : Nat) (s s' : State σ),
    p.loadAuthImage tbb depth id tries s = some (0, s') →
      ∃ s0, LastAttempt p tbb depth id s s0 ∧ p.loadAuthImageInternal tbb depth id s0 = some (0, s')
  | 0, _, _, h => nomatch h
  | tries + 1, s, s', h => by
    rw [loadAuthImage] at h
    rcases hinternal : p.loadAuthImageInternal tbb depth id s with _ | ⟨rc, s1⟩
    · rw [hinternal] at h
      exact nomatch h
    rw [hinternal] at h
    dsimp only at h
    by_cases hrc : rc = 0
    · subst hrc
      obtain ⟨-, rfl⟩ := Prod.mk.inj (Option.some.inj h)
      exact ⟨s, .last hinternal, hinternal⟩
    · rw [if_neg hrc] at h
      by_cases hnext : (p.tryNextBootSource s1.io).1 = true
      · rw [if_pos hnext] at h
        obtain ⟨s0, hlast, hzero⟩ := loadAuthImage_zero tries _ s' h
        exact ⟨s0, .retry hinternal hrc hnext hlast, hzero⟩
      · rw [if_neg hnext] at h
        exact absurd (congrArg Prod.fst (Option.some.inj h)) hrc

theorem LastAttempt.unique {depth : Nat} {s0 s0' : State σ} (h : LastAttempt p tbb depth id s s0)
    (h' : LastAttempt p tbb depth id s s0') : s0 = s0' := by
  induction h with
  | last hzero =>
    cases h' with
    | last => rfl
    | retry hfailed hrc =>
      obtain ⟨hcode, -⟩ := Prod.mk.inj (Option.some.inj (hzero.symm.trans hfailed))
      exact absurd hcode.symm hrc
  | retry hfailed hrc _ _ ih =>
    cases h' with
    | last hzero =>
      obtain ⟨hcode, -⟩ := Prod.mk.inj (Option.some.inj (hzero.symm.trans hfailed))
      exact absurd hcode.symm hrc
    | retry hfailed' _ _ hlast' =>
      obtain ⟨-, rfl⟩ := Prod.mk.inj (Option.some.inj (hfailed.symm.trans hfailed'))
      exact ih hlast'

end Complete

/-- An image that is reported loaded is loaded in the last attempt, after every ancestor has been accepted, and
is completely in memory exactly if the I/O layer was not quiet about it then. -/
theorem load_auth_image_complete_iff {σ : Type*} (p : Platform σ) (tbb : Bool) (depth id tries : Nat)
    (s s' : State σ) (h : p.loadAuthImage tbb depth id tries s = some (0, s')) :
    (∃ s₀ s₁, LastAttempt p tbb depth id s s₀ ∧ AncestorsVerified p tbb id s₀ s₁) ∧
      ∀ s₀ s₁, LastAttempt p tbb depth id s s₀ → AncestorsVerified p tbb id s₀ s₁ →
        (Loaded p tbb id s₁ s' ↔ ¬ Quiet p id s₁) := by
  obtain ⟨s₀, hlast, hzero⟩ := Platform.loadAuthImage_zero tries s s' h
  obtain ⟨s₁, hverified, haccepted⟩ := Platform.loadAuthImageInternal_zero depth id s₀ s' hzero
  refine ⟨⟨s₀, s₁, hlast, hverified⟩, fun s₀' s₁' hlast' hverified' => ?_⟩
  obtain rfl := hlast.unique hlast'
  obtain rfl := hverified.unique hverified'
  exact Platform.loadAndVerify_complete_iff haccepted

/-- Images of four bytes, the first `n` of which are read; image 1 has the parent 0. -/
def fourBytes (n : Nat) : Platform Unit where
  getImageSource _ _ := ⟨0, (1, 2), ()⟩
  ioOpen _ _ _ := ⟨0, 3, ()⟩
  ioSize _ _ := ⟨0, 4, ()⟩
  ioRead _ len _ := ⟨0, ([1, 2, 3, 4].take n).take len, ()⟩
  ioClose _ _ := ()
  ioDevClose _ _ := ()
  tryNextBootSource _ := (false, ())
  authModGetParentId id _ := if id = 1 then some 0 else none
  authModVerifyImg _ _ _ := (0, ())
  ioSize_lt _ _ := by decide
  ioRead_le _ _ _ := List.length_take_le _ _

def freshState : State Unit := ⟨⟨0x1000, 0, 0x1000, by decide⟩, fun _ => 0, ()⟩

theorem load_auth_image_four_bytes :
    ∃ s', (fourBytes 4).loadAuthImage true 2 1 1 freshState = some (0, s') ∧
      (∃ s₀ s₁, LastAttempt (fourBytes 4) true 2 1 freshState s₀ ∧ AncestorsVerified (fourBytes 4) true 1 s₀ s₁) ∧
      ∀ s₀ s₁, LastAttempt (fourBytes 4) true 2 1 freshState s₀ → AncestorsVerified (fourBytes 4) true 1 s₀ s₁ →
        (Loaded (fourBytes 4) true 1 s₁ s' ↔ ¬ Quiet (fourBytes 4) 1 s₁) :=
  ⟨_, rfl, load_auth_image_complete_iff (fourBytes 4) true 2 1 1 freshState _ rfl⟩

/-- Two of four bytes are read, and the image is reported loaded. -/
theorem load_auth_image_short_read :
    ∃ s', (fourBytes 2).loadAuthImage false 1 0 1 freshState = some (0, s') ∧
      LastAttempt (fourBytes 2) false 1 0 freshState freshState ∧
      AncestorsVerified (fourBytes 2) false 0 freshState freshState ∧
      ¬ Loaded (fourBytes 2) false 0 freshState s' := by
  refine ⟨_, rfl, .last rfl, .root rfl, fun h => h.not_quiet (.inr ?_)⟩
  exact ⟨1, 3, 4, [1, 2], (), (), (), ⟨2, (), rfl, rfl⟩, rfl, by decide, rfl, by decide⟩

end Armada3720.Loader
