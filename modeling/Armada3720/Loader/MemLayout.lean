import Armada3720.Loader.LoadImage

/-!
# Images in the free memory

Without `LOAD_IMAGE_V2` the free memory is one region. An image is loaded into it, and the smaller of the two
parts around the image is given up.

`loaded_images_disjoint` is for runs without a short read that is called a success, and without an image that takes
all of a region up to the end of the address space (`Load.Safe`).
-/

namespace Armada3720.Loader

open Lib

def addPtr (a b : Nat) : Nat := (a + b) % 2 ^ 64

def subPtr (a b : Nat) : Nat := (a + (2 ^ 64 - b)) % 2 ^ 64

def checkUptrOverflow (ptr inc : Nat) : Bool := 2 ^ 64 - 1 - inc < ptr

structure Range where
  base : Nat
  size : Nat
  deriving DecidableEq, Repr

def isMemFree (free : Range) (addr size : Nat) : Bool :=
  if size = 0 then true
  else if free.size = 0 then false
  else if checkUptrOverflow free.base (subPtr free.size 1) then false
  else if checkUptrOverflow addr (subPtr size 1) then false
  else free.base ≤ addr && addPtr addr (subPtr size 1) ≤ addPtr free.base (subPtr free.size 1)

inductive MemPos
  | top | bottom
  deriving DecidableEq, Repr

/-- `choose_mem_pos`, with the size of the smaller part. -/
def chooseMemPos (memStart memEnd submemStart submemEnd : Nat) : MemPos × Nat :=
  let topChunkSize := subPtr memEnd submemEnd
  let bottomChunkSize := subPtr submemStart memStart
  if topChunkSize < bottomChunkSize then (.top, topChunkSize) else (.bottom, bottomChunkSize)

/-- The part of the region that is given up with an image. -/
def discard (free : Range) (addr size : Nat) : MemPos × Nat :=
  chooseMemPos free.base (addPtr free.base (subPtr free.size 1)) addr (addPtr addr (subPtr size 1))

def reserveMem (free : Range) (addr size : Nat) : Range :=
  if size = 0 then free
  else
    let part := discard free addr size
    { base := if part.1 = .bottom then addPtr addr size else free.base
      size := subPtr free.size (addPtr size part.2) }

/-- The free region, the memory and the state of the platform. -/
structure Layout (σ : Type*) where
  free : Range
  mem : Nat → UInt8
  io : σ

/-- What `load_image` leaves: its result, the image descriptor and the entry point. -/
structure V1Result (σ : Type*) where
  rc : Int
  imageData : Range
  pc : Option Nat
  layout : Layout σ

def eNOMEM : Int := 12

/-- `load_image`; `pc` is the entry point, if it is asked for. -/
def Platform.loadImageV1 {σ : Type*} (p : Platform σ) (id imageBase : Nat) (imageData : Range)
    (pc : Option Nat) (s : Layout σ) : V1Result σ :=
  match p.readImage (isMemFree s.free imageBase) id s.io with
  | .noImage rc io => ⟨rc, imageData, pc, { s with io := io }⟩
  | .noSize rc io => ⟨rc, imageData, pc, { s with io := io }⟩
  | .noRoom io => ⟨-eNOMEM, imageData, pc, { s with io := io }⟩
  | .read size rc data io =>
    let mem := overwrite s.mem imageBase data
    if rc ≠ 0 ∨ data.length < size then ⟨rc, imageData, pc, { s with mem := mem, io := io }⟩
    else
      let free := if pc.isSome then reserveMem s.free imageBase size else s.free
      ⟨rc, ⟨imageBase, size % 2 ^ 32⟩, pc.map fun _ => imageBase, ⟨free, mem, io⟩⟩

/-! ## Arithmetic -/

theorem subPtr_of_le {a b : Nat} (ha : a < 2 ^ 64) (hle : b ≤ a) : subPtr a b = a - b := by
  unfold subPtr
  omega

theorem addPtr_of_lt {a b : Nat} (h : a + b < 2 ^ 64) : addPtr a b = a + b := Nat.mod_eq_of_lt h

theorem checkUptrOverflow_eq_false {ptr inc : Nat} (hinc : inc < 2 ^ 64) :
    checkUptrOverflow ptr inc = false ↔ ptr + inc < 2 ^ 64 := by
  simp only [checkUptrOverflow, decide_eq_false_iff_not]
  omega

/-- The image has room in the region, which ends in the address space. -/
structure HasRoom (free : Range) (addr size : Nat) : Prop where
  pos : 0 < size
  top : free.base + free.size ≤ 2 ^ 64
  above : free.base ≤ addr
  below : addr + size ≤ free.base + free.size

theorem isMemFree_iff {free : Range} {addr size : Nat} (hfree : free.size < 2 ^ 64) (hsize : size < 2 ^ 64)
    (hpos : 0 < size) : isMemFree free addr size = true ↔ HasRoom free addr size := by
  unfold isMemFree
  rw [if_neg hpos.ne']
  rcases Nat.eq_zero_or_pos free.size with hzero | hfpos
  · rw [if_pos hzero]
    refine ⟨fun h => (nomatch h), fun ⟨_, _, habove, hbelow⟩ => ?_⟩
    omega
  rw [if_neg hfpos.ne', subPtr_of_le hfree hfpos, subPtr_of_le hsize hpos]
  cases hover : checkUptrOverflow free.base (free.size - 1) with
  | true =>
    refine ⟨fun h => (nomatch h), fun ⟨_, htop, _, _⟩ => ?_⟩
    rw [(checkUptrOverflow_eq_false (by omega)).mpr (by omega)] at hover
    exact nomatch hover
  | false =>
    rw [checkUptrOverflow_eq_false (by omega)] at hover
    rw [if_neg Bool.false_ne_true, addPtr_of_lt hover]
    cases hover' : checkUptrOverflow addr (size - 1) with
    | true =>
      refine ⟨fun h => (nomatch h), fun ⟨_, htop, _, hbelow⟩ => ?_⟩
      rw [(checkUptrOverflow_eq_false (by omega)).mpr (by omega)] at hover'
      exact nomatch hover'
    | false =>
      rw [checkUptrOverflow_eq_false (by omega)] at hover'
      rw [if_neg Bool.false_ne_true, addPtr_of_lt hover', Bool.and_eq_true, decide_eq_true_eq, decide_eq_true_eq]
      exact ⟨fun ⟨habove, hbelow⟩ => ⟨hpos, by omega, habove, by omega⟩,
        fun ⟨_, _, habove, hbelow⟩ => ⟨habove, by omega⟩⟩

/-- No sum or difference in `reserve_mem` and `choose_mem_pos` leaves 64 bits. -/
structure ReserveExact (free : Range) (addr size : Nat) : Prop where
  freeEnd : 1 ≤ free.size ∧ free.base + (free.size - 1) < 2 ^ 64
  requestedEnd : 1 ≤ size ∧ addr + (size - 1) < 2 ^ 64
  topChunk : addr + (size - 1) ≤ free.base + (free.size - 1)
  bottomChunk : free.base ≤ addr
  reservedSize : size + (discard free addr size).2 < 2 ^ 64
  freeSize : size + (discard free addr size).2 ≤ free.size
  freeBase : (discard free addr size).1 = .bottom → addr + size < 2 ^ 64

section Reserve

variable {free : Range} {addr size : Nat}

section

variable (h : HasRoom free addr size) (hfree : free.size < 2 ^ 64) (hsize : size < 2 ^ 64)
include h hfree hsize

theorem HasRoom.discard_eq :
    discard free addr size =
      if free.base + free.size - (addr + size) < addr - free.base then
        (.top, free.base + free.size - (addr + size))
      else (.bottom, addr - free.base) := by
  obtain ⟨hpos, htop, habove, hbelow⟩ := h
  have hend : free.base + (free.size - 1) - (addr + (size - 1)) = free.base + free.size - (addr + size) := by
    omega
  rw [discard, subPtr_of_le hfree (by omega), subPtr_of_le hsize hpos, addPtr_of_lt (by omega),
    addPtr_of_lt (by omega), chooseMemPos, subPtr_of_le (by omega) (by omega),
    subPtr_of_le (by omega) habove, hend]

/-- Only an image that fills the region up to the end of the address space makes the base wrap. -/
theorem HasRoom.reserveExact (hend : ¬ (addr = free.base ∧ size = free.size ∧ free.base + free.size = 2 ^ 64)) :
    ReserveExact free addr size := by
  have hdiscard := h.discard_eq hfree hsize
  obtain ⟨hpos, htop, habove, hbelow⟩ := h
  have hpart : (discard free addr size).2 + size ≤ free.size ∧
      ((discard free addr size).1 = .bottom → addr + size < 2 ^ 64) := by
    rw [hdiscard]
    split
    · exact ⟨by omega, fun h => (nomatch h)⟩
    · exact ⟨by omega, fun _ => by omega⟩
  exact ⟨by omega, by omega, by omega, habove, by omega, by omega, hpart.2⟩

theorem HasRoom.reserveMem_eq (hexact : ReserveExact free addr size) :
    reserveMem free addr size = ⟨free.base, addr - free.base⟩ ∨
      reserveMem free addr size = ⟨addr + size, free.base + free.size - (addr + size)⟩ := by
  have hdiscard := h.discard_eq hfree hsize
  obtain ⟨hpos, htop, habove, hbelow⟩ := h
  rw [reserveMem, if_neg hpos.ne']
  dsimp only
  rw [addPtr_of_lt hexact.reservedSize, subPtr_of_le hfree hexact.freeSize]
  have hbase := hexact.freeBase
  rw [hdiscard] at hbase ⊢
  split
  · left
    rw [if_neg (show MemPos.top ≠ .bottom by decide)]
    simp only [Range.mk.injEq, true_and]
    omega
  · right
    rename_i hlt
    rw [if_neg hlt] at hbase
    rw [if_pos rfl, addPtr_of_lt (hbase rfl)]
    simp only [Range.mk.injEq, true_and]
    omega

end

end Reserve

/-! ## Runs -/

def Range.addresses (r : Range) : Set Nat := Set.Ico r.base (r.base + r.size)

/-- A call of `load_image` with an entry point. -/
structure Load where
  id : Nat
  imageBase : Nat
  imageData : Range
  pc : Nat

section Runs

variable {σ : Type*} (p : Platform σ)

namespace Load

variable (l : Load) (s : Layout σ)

def call : V1Result σ := p.loadImageV1 l.id l.imageBase l.imageData (some l.pc) s

def loaded : List Range := if (l.call p s).rc = 0 then [⟨l.imageBase, p.imageSize l.id s.io⟩] else []

def FullRead : Prop :=
  ∃ dev handle size data io2 io3 io4, p.Opened l.id s.io dev handle io2 ∧ p.ioSize handle io2 = ⟨0, size, io3⟩ ∧
    0 < size ∧ isMemFree s.free l.imageBase size = true ∧ p.ioRead handle size io3 = ⟨0, data, io4⟩ ∧
    data.length = size

/-- The image fills the free memory, which reaches the end of the address space. -/
def FillsToEnd : Prop :=
  l.imageBase = s.free.base ∧ p.imageSize l.id s.io = s.free.size ∧ s.free.base + s.free.size = 2 ^ 64

/-- No short read is reported as a success, and the image does not fill the free memory up to the end of the
address space. -/
def Safe : Prop :=
  ¬ p.ShortRead (isMemFree s.free l.imageBase) l.id s.io ∧ ¬ (l.FullRead p s ∧ l.FillsToEnd p s)

end Load

/-- The states that safe calls lead to, with the images that were reported loaded. -/
inductive Run (s₀ : Layout σ) : Layout σ → List Range → Prop
  | start : Run s₀ s₀ []
  | load {s : Layout σ} {images : List Range} (l : Load) : Run s₀ s images → l.Safe p s →
      Run s₀ (l.call p s).layout (l.loaded p s ++ images)

variable {p}

theorem Platform.imageSize_eq {id dev handle size : Nat} {rc : Int} {io io2 io3 : σ}
    (hopened : p.Opened id io dev handle io2) (hsize : p.ioSize handle io2 = ⟨rc, size, io3⟩) :
    p.imageSize id io = size := by
  obtain ⟨spec, io1, hsource, hopen⟩ := hopened
  rw [imageSize, hsource]
  rw [if_neg (not_not.mpr rfl), hopen]
  rw [if_neg (not_not.mpr rfl), hsize]

variable {s : Layout σ} {images : List Range}

theorem Load.Safe.reserveExact {l : Load} (hsafe : l.Safe p s) (hfree : s.free.size < 2 ^ 64)
    (hread : l.FullRead p s) : HasRoom s.free l.imageBase (p.imageSize l.id s.io) ∧
      p.imageSize l.id s.io < 2 ^ 64 ∧ ReserveExact s.free l.imageBase (p.imageSize l.id s.io) := by
  have hend : ¬ l.FillsToEnd p s := fun h => hsafe.2 ⟨hread, h⟩
  obtain ⟨dev, handle, size, data, io2, io3, io4, hopened, hsize, hpos, hfits, -, -⟩ := hread
  have hlt := p.ioSize_lt handle io2
  rw [Load.FillsToEnd] at hend
  rw [hsize] at hlt
  rw [Platform.imageSize_eq hopened hsize] at hend ⊢
  have hroom := (isMemFree_iff hfree hlt hpos).mp hfits
  exact ⟨hroom, hlt, hroom.reserveExact hfree hlt hend⟩

/-- It fails, it finds an empty image, or it loads the image and reserves its memory. -/
theorem Load.Safe.cases {l : Load} (hsafe : l.Safe p s) : (l.call p s).rc ≠ 0 ∧ (l.call p s).layout.free = s.free ∨
      (l.call p s).rc = 0 ∧ p.imageSize l.id s.io = 0 ∧ (l.call p s).layout.free = s.free ∨
      (l.call p s).rc = 0 ∧ l.FullRead p s ∧
        (l.call p s).layout.free = reserveMem s.free l.imageBase (p.imageSize l.id s.io) := by
  have hspec := p.readImage_spec (isMemFree s.free l.imageBase) l.id s.io
  have hcall : l.call p s = p.loadImageV1 l.id l.imageBase l.imageData (some l.pc) s := rfl
  rw [Platform.loadImageV1] at hcall
  generalize p.readImage (isMemFree s.free l.imageBase) l.id s.io = outcome at hspec hcall
  cases hspec with
  | noImage hrc =>
    rw [hcall]
    exact .inl ⟨hrc, rfl⟩
  | @noSize dev handle size rc io2 io3 hopened hsize hbad =>
    rw [hcall, Platform.imageSize_eq hopened hsize]
    by_cases hrc : rc = 0
    · exact .inr (.inl ⟨hrc, hbad.resolve_left (not_not.mpr hrc), rfl⟩)
    · exact .inl ⟨hrc, rfl⟩
  | noRoom =>
    rw [hcall]
    exact .inl ⟨show -eNOMEM ≠ 0 by decide, rfl⟩
  | @read dev handle size rc data io2 io3 io4 hopened hsize hpos hfits hread hle =>
    dsimp only at hcall
    by_cases hbad : rc ≠ 0 ∨ data.length < size
    · rw [if_pos hbad] at hcall
      rw [hcall]
      refine .inl ⟨fun hrc : rc = 0 => hsafe.1 ?_, rfl⟩
      subst hrc
      exact ⟨_, _, _, _, _, _, _, hopened, hsize, hfits, hread, hbad.resolve_left (not_not.mpr rfl)⟩
    · obtain ⟨hrc, hlen⟩ := not_or.mp hbad
      obtain rfl := not_not.mp hrc
      rw [if_neg hbad, if_pos Option.isSome_some] at hcall
      rw [hcall, Platform.imageSize_eq hopened hsize]
      exact .inr (.inr ⟨rfl, ⟨_, _, _, _, _, _, _, hopened, hsize, hpos, hfits, hread, by omega⟩, rfl⟩)

/-- The free memory is a part of the initial one, and the images lie in the rest of it. -/
structure Apart (free₀ free : Range) (images : List Range) : Prop where
  size : free.size < 2 ^ 64
  above : free₀.base ≤ free.base
  below : free.base + free.size ≤ free₀.base + free₀.size
  inside : ∀ r ∈ images, r.addresses ⊆ free₀.addresses
  free : ∀ r ∈ images, Disjoint r.addresses free.addresses
  pairwise : images.Pairwise fun r r' => Disjoint r.addresses r'.addresses

theorem Range.addresses_of_size_zero {r : Range} (h : r.size = 0) : r.addresses = ∅ := by
  rw [Range.addresses, h, Nat.add_zero, Set.Ico_self]

theorem Apart.empty {free0 free : Range} (h : Apart free0 free images) (base : Nat) :
    Apart free0 free (⟨base, 0⟩ :: images) := by
  have hempty : (⟨base, 0⟩ : Range).addresses = ∅ := Range.addresses_of_size_zero rfl
  refine ⟨h.size, h.above, h.below, List.forall_mem_cons.mpr ⟨?_, h.inside⟩,
    List.forall_mem_cons.mpr ⟨?_, h.free⟩, List.pairwise_cons.mpr ⟨fun r _ => ?_, h.pairwise⟩⟩
  · rw [hempty]
    exact Set.empty_subset _
  · rw [hempty]
    exact Set.empty_disjoint _
  · rw [hempty]
    exact Set.empty_disjoint _

theorem Apart.image {free0 free free' r : Range} (h : Apart free0 free images)
    (hroom : HasRoom free r.base r.size) (hfree' : free' = ⟨free.base, r.base - free.base⟩ ∨
      free' = ⟨r.base + r.size, free.base + free.size - (r.base + r.size)⟩) :
    Apart free0 free' (r :: images) := by
  obtain ⟨hpos, htop, habove, hbelow⟩ := hroom
  have hsize := h.size
  have habove0 := h.above
  have hbelow0 := h.below
  have hr : r.addresses ⊆ free.addresses := Set.Ico_subset_Ico habove hbelow
  have hle : free.base ≤ free'.base ∧ free'.base + free'.size ≤ free.base + free.size := by
    rcases hfree' with rfl | rfl
    · dsimp only
      omega
    · dsimp only
      omega
  have hfree : free'.addresses ⊆ free.addresses := Set.Ico_subset_Ico hle.1 hle.2
  have hrest : Disjoint r.addresses free'.addresses := by
    rw [Range.addresses, Range.addresses, Set.Ico_disjoint_Ico]
    rcases hfree' with rfl | rfl
    · dsimp only
      omega
    · dsimp only
      omega
  refine ⟨by omega, by omega, by omega, List.forall_mem_cons.mpr ⟨?_, h.inside⟩,
    List.forall_mem_cons.mpr ⟨hrest, fun r' hr' => (h.free r' hr').mono_right hfree⟩,
    List.pairwise_cons.mpr ⟨fun r' hr' => ?_, h.pairwise⟩⟩
  · exact hr.trans (Set.Ico_subset_Ico habove0 hbelow0)
  · exact ((h.free r' hr').mono_right hr).symm

theorem Run.apart {s0 : Layout σ} (hfree : s0.free.size < 2 ^ 64) (h : Run p s0 s images) :
    Apart s0.free s.free images := by
  induction h with
  | start =>
    exact ⟨hfree, Nat.le_refl _, Nat.le_refl _, fun _ hr => (nomatch hr), fun _ hr => (nomatch hr), List.Pairwise.nil⟩
  | load l _ hsafe ih =>
    rcases hsafe.cases with ⟨hrc, hsame⟩ | ⟨hrc, hzero, hsame⟩ | ⟨hrc, hread, hreserve⟩
    · rw [hsame, Load.loaded, if_neg hrc]
      exact ih
    · rw [hsame, Load.loaded, if_pos hrc, hzero]
      exact ih.empty _
    · obtain ⟨hroom, hlt, hexact⟩ := hsafe.reserveExact ih.size hread
      rw [hreserve, Load.loaded, if_pos hrc]
      exact ih.image hroom (hroom.reserveMem_eq ih.size hlt hexact)

end Runs

/-- In every run of safe calls the images reported loaded are pairwise disjoint and in the initial free memory;
what remains of it is apart from them, and no call wraps when it computes it. -/
theorem loaded_images_disjoint {σ : Type*} (p : Platform σ) {s₀ s : Layout σ} {images : List Range}
    (hfree : s₀.free.size < 2 ^ 64) (hrun : Run p s₀ s images) :
    images.Pairwise (fun r r' => Disjoint r.addresses r'.addresses) ∧
      (∀ r ∈ images, r.addresses ⊆ s₀.free.addresses) ∧
      s₀.free.base ≤ s.free.base ∧ s.free.base + s.free.size ≤ s₀.free.base + s₀.free.size ∧
      (∀ r ∈ images, Disjoint r.addresses s.free.addresses) ∧
      ∀ l : Load, l.Safe p s → l.FullRead p s → ReserveExact s.free l.imageBase (p.imageSize l.id s.io) := by
  have h := hrun.apart hfree
  exact ⟨h.pairwise, h.inside, h.above, h.below, h.free, fun l hsafe hread => (hsafe.reserveExact h.size hread).2.2⟩

def freshLayout : Layout Unit := ⟨⟨0x1000, 0x100⟩, fun _ => 0, ()⟩

def loadAt (imageBase : Nat) : Load := ⟨0, imageBase, ⟨0, 0⟩, 0⟩

theorem loadAt_safe (imageBase : Nat) {s : Layout Unit} (hend : s.free.base + s.free.size ≠ 2 ^ 64) :
    (loadAt imageBase).Safe (fourBytes 4) s := by
  refine ⟨?_, fun h => hend h.2.2.2⟩
  rintro ⟨dev, handle, size, data, io2, io3, io4, -, hsize, -, hread, hshort⟩
  cases hsize
  cases hread
  exact absurd hshort (by decide)

theorem loaded_images_two :
    ∃ s, Run (fourBytes 4) freshLayout s [⟨0x1020, 4⟩, ⟨0x1010, 4⟩] ∧ s.free = ⟨0x1024, 0xdc⟩ ∧
      [(⟨0x1020, 4⟩ : Range), ⟨0x1010, 4⟩].Pairwise (fun r r' => Disjoint r.addresses r'.addresses) := by
  have hrun := Run.load (loadAt 0x1010) (.start : Run (fourBytes 4) freshLayout freshLayout [])
    (loadAt_safe _ (by decide))
  rw [show (loadAt 0x1010).loaded (fourBytes 4) freshLayout ++ [] = [⟨0x1010, 4⟩] by decide] at hrun
  have hrun := Run.load (loadAt 0x1020) hrun (loadAt_safe _ (by decide))
  rw [show (loadAt 0x1020).loaded (fourBytes 4) ((loadAt 0x1010).call (fourBytes 4) freshLayout).layout ++
    [⟨0x1010, 4⟩] = [⟨0x1020, 4⟩, ⟨0x1010, 4⟩] by decide] at hrun
  exact ⟨_, hrun, by decide +kernel, (loaded_images_disjoint (fourBytes 4) (by decide) hrun).1⟩

/-- Two of four bytes are read, and the next image is loaded to the same place. -/
theorem loaded_images_short_read : (loadAt 0x1000).loaded (fourBytes 2) freshLayout = [⟨0x1000, 4⟩] ∧
      (loadAt 0x1000).loaded (fourBytes 2) ((loadAt 0x1000).call (fourBytes 2) freshLayout).layout = [⟨0x1000, 4⟩] ∧
      ¬ Disjoint (⟨0x1000, 4⟩ : Range).addresses (⟨0x1000, 4⟩ : Range).addresses := by
  refine ⟨by decide, by decide, fun h => ?_⟩
  rw [Range.addresses, Set.Ico_disjoint_Ico] at h
  exact absurd h (by decide)

end Armada3720.Loader
