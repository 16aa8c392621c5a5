import Mathlib

/-!
# Firmware update in BL1

The SMC handlers of `bl1_fwu.c`. The normal world copies images block by block into secure memory, has them
authenticated, and executes them; a secure image can have further images authenticated in place. What BL1 asks
its platform and its authentication module is part of a call. `none`: BL1 has stopped, or a null pointer is
dereferenced.
-/

namespace Armada3720.Fwu

/-! ## Images, platform and state -/

abbrev ImageId := Nat

def invalidImageId : ImageId := 0xFFFFFFFF

abbrev Memory := Nat → UInt8

def uintptrMax : Nat := 0xFFFFFFFFFFFFFFFF

inductive ImageState where
  | reset
  | copied
  | copying
  | authenticated
  | executed
  | interrupted
deriving DecidableEq, Repr

/-- The fields of `image_desc_t` that no handler changes. -/
structure ImageDesc where
  imageBase : Nat
  imageMaxSize : Nat
  secure : Bool
  executable : Bool
  end_le : imageBase + imageMaxSize ≤ uintptrMax + 1

/-- The fields of `image_desc_t` that the handlers change. -/
structure ImageStatus where
  state : ImageState
  copiedSize : Nat
  imageSize : Nat
deriving DecidableEq, Repr

/-- A platform and a build of BL1. -/
structure Platform where
  enableAssertions : Bool
  loadImageV2 : Bool
  /-- The free trusted RAM of `bl1_plat_sec_mem_layout`. -/
  freeBase : Nat
  freeSize : Nat
  desc : ImageId → Option ImageDesc
  /-- What a `bl1_plat_handle_post_image_load` that succeeds does to memory. -/
  postImageLoad : ImageId → Memory → Memory
  desc_invalid : desc invalidImageId = none

inductive World where
  | normal
  | secure
deriving DecidableEq, Repr

/-- The descriptors, `bl1_fwu_loaded_ids`, `sec_exec_image_id`, the world that runs, and memory. -/
structure Bl1 where
  images : ImageId → ImageStatus
  loadedIds : List ImageId
  secExecImageId : ImageId
  world : World
  mem : Memory

inductive Rc where
  | success
  | eperm
  | enomem
  | eauth
deriving DecidableEq, Repr

def Bl1.setImage (st : Bl1) (id : ImageId) (status : ImageStatus) : Bl1 :=
  { st with images := Function.update st.images id status }

def Platform.assert {α : Type} (pf : Platform) (p : Prop) [Decidable p] (k : Option α) :
    Option α :=
  if pf.enableAssertions = true ∧ ¬ p then none else k

/-! ## The list of loaded images -/

/-- The second loop of `bl1_fwu_add_loaded_id`: the first empty slot. -/
def fillSlot (id : ImageId) : List ImageId → Option (List ImageId)
  | [] => none
  | x :: xs => if x = invalidImageId then some (id :: xs) else (fillSlot id xs).map (x :: ·)

def bl1FwuAddLoadedId (ids : List ImageId) (id : ImageId) : Option (List ImageId) :=
  if id ∈ ids then some ids else fillSlot id ids

def bl1FwuRemoveLoadedId (id : ImageId) : List ImageId → Option (List ImageId)
  | [] => none
  | x :: xs =>
    if x = id then some (invalidImageId :: xs) else (bl1FwuRemoveLoadedId id xs).map (x :: ·)

def endAddr (base size : Nat) : Nat := (base + size - 1) % (uintptrMax + 1)

/-- The loop of `bl1_fwu_image_check_overlaps`; `true` when there is an overlap. -/
def overlapsLoaded (pf : Platform) (st : Bl1) (id : ImageId) (checkedBase checkedEnd : Nat) :
    List ImageId → Option Bool
  | [] => some false
  | x :: xs =>
    if x = invalidImageId ∨ x = id then overlapsLoaded pf st id checkedBase checkedEnd xs
    else
      match pf.desc x with
      | none => none
      | some d =>
        pf.assert ((st.images x).state ≠ .reset) <|
          if (st.images x).imageSize = 0 then overlapsLoaded pf st id checkedBase checkedEnd xs
          else
            pf.assert (d.imageBase < endAddr d.imageBase (st.images x).imageSize) <|
              if endAddr d.imageBase (st.images x).imageSize < checkedBase ∨
                  checkedEnd < d.imageBase then
                overlapsLoaded pf st id checkedBase checkedEnd xs
              else some true

def bl1FwuImageCheckOverlaps (pf : Platform) (st : Bl1) (id : ImageId) (d : ImageDesc) :
    Option Bool :=
  overlapsLoaded pf st id d.imageBase (endAddr d.imageBase (st.images id).imageSize) st.loadedIds

/-! ## `FWU_SMC_IMAGE_COPY` -/

def checkUptrOverflow (ptr inc : Nat) : Bool := uintptrMax - inc < ptr

def isMemFree (freeBase freeSize addr size : Nat) : Bool :=
  if size = 0 then true
  else if freeSize = 0 then false
  else if checkUptrOverflow freeBase (freeSize - 1) then false
  else if checkUptrOverflow addr (size - 1) then false
  else freeBase ≤ addr && addr + (size - 1) ≤ freeBase + (freeSize - 1)

/-- The check of the size of an image, for either value of `LOAD_IMAGE_V2`. -/
def Platform.fits (pf : Platform) (d : ImageDesc) (size : Nat) : Bool :=
  if pf.loadImageV2 then size ≤ d.imageMaxSize
  else isMemFree pf.freeBase pf.freeSize d.imageBase size

def memcpy (mem : Memory) (dest len : Nat) (src : Nat → UInt8) : Memory :=
  fun a => if dest ≤ a ∧ a < dest + len then src (a - dest) else mem a

def zeroNormalmem (mem : Memory) (base len : Nat) : Memory := memcpy mem base len fun _ => 0

/-- The end of `bl1_fwu_image_copy`, from the clipping of the block on. -/
def copyBlock (id : ImageId) (d : ImageDesc) (blockSize : Nat)
    (data : Nat → UInt8) (memCheckFails preLoadFails : Bool) (st : Bl1) : Option (Rc × Bl1) :=
  let status := st.images id
  let remaining := status.imageSize - status.copiedSize
  let block := if remaining < blockSize then remaining else blockSize
  if memCheckFails then some (.enomem, st)
  else
    match bl1FwuAddLoadedId st.loadedIds id with
    | none => some (.enomem, st)
    | some ids =>
      if status.state = .reset ∧ preLoadFails = true then
        some (.eperm, { st with loadedIds := ids })
      else
        some (.success, { st with
          loadedIds := ids
          mem := memcpy st.mem (d.imageBase + status.copiedSize) block data
          images := Function.update st.images id
            { state := if block = remaining then .copied else .copying
              copiedSize := status.copiedSize + block
              imageSize := status.imageSize } })

/-- The first call of `bl1_fwu_image_copy` for an image: its size is recorded and checked. -/
def copyFirst (pf : Platform) (id : ImageId) (d : ImageDesc) (blockSize imageSize : Nat)
    (data : Nat → UInt8) (memCheckFails preLoadFails : Bool) (st : Bl1) : Option (Rc × Bl1) :=
  if imageSize = 0 then some (.enomem, st)
  else if pf.fits d imageSize = false then some (.enomem, st)
  else
    let sized := st.setImage id { st.images id with imageSize := imageSize }
    (bl1FwuImageCheckOverlaps pf sized id d).bind fun overlaps =>
      if overlaps then some (.eperm, st.setImage id { st.images id with imageSize := 0 })
      else
        copyBlock id d blockSize data memCheckFails preLoadFails
          (st.setImage id { st.images id with imageSize := imageSize, copiedSize := 0 })

def bl1FwuImageCopy (pf : Platform) (id : ImageId) (imageSrc : Nat) (blockSize imageSize : UInt32)
    (data : Nat → UInt8) (memCheckFails preLoadFails : Bool) (st : Bl1) : Option (Rc × Bl1) :=
  match pf.desc id with
  | none => some (.eperm, st)
  | some d =>
    if st.world = .secure then some (.eperm, st)
    else if d.secure = false then some (.eperm, st)
    else if (st.images id).state ≠ .reset ∧ (st.images id).state ≠ .copying then
      some (.eperm, st)
    else if imageSrc = 0 ∨ blockSize = 0 ∨
        checkUptrOverflow imageSrc (blockSize.toNat - 1) = true then
      some (.enomem, st)
    else if (st.images id).state = .copying then
      pf.assert ((st.images id).copiedSize ≠ 0 ∧ (st.images id).imageSize ≠ 0 ∧
          (st.images id).copiedSize < (st.images id).imageSize) <|
        copyBlock id d blockSize.toNat data memCheckFails preLoadFails st
    else
      copyFirst pf id d blockSize.toNat imageSize.toNat data memCheckFails preLoadFails st

/-! ## `FWU_SMC_IMAGE_AUTH` -/

/-- What is handed to `auth_mod_verify_img`: the copied image, or the source in place. -/
def authRange (d : ImageDesc) (status : ImageStatus) (imageSrc imageSize : Nat) : Nat × Nat :=
  if status.state = .copied then (d.imageBase, status.imageSize) else (imageSrc, imageSize)

/-- The state an image must be in for `bl1_fwu_image_auth`. -/
def authState (world : World) (d : ImageDesc) : ImageState :=
  if world = .secure then .reset else if d.secure then .copied else .reset

/-- The end of `bl1_fwu_image_auth`, from the call of `auth_mod_verify_img` on. -/
def authVerify (pf : Platform) (id : ImageId) (d : ImageDesc) (verifies : Bool) (st : Bl1) :
    Rc × Bl1 :=
  let status := st.images id
  if verifies then
    (.success,
      { st.setImage id { status with state := .authenticated } with
        mem := pf.postImageLoad id st.mem })
  else
    let ids := (bl1FwuRemoveLoadedId id st.loadedIds).getD st.loadedIds
    if status.state = .copied then
      (.eauth,
        { st.setImage id { status with state := .reset } with
          loadedIds := ids
          mem := zeroNormalmem st.mem d.imageBase status.imageSize })
    else (.eauth, { st with loadedIds := ids })

def bl1FwuImageAuth (pf : Platform) (id : ImageId) (imageSrc : Nat) (imageSize : UInt32)
    (memCheckFails verifies : Bool) (st : Bl1) : Option (Rc × Bl1) :=
  match pf.desc id with
  | none => some (.eperm, st)
  | some d =>
    if (st.images id).state ≠ authState st.world d then some (.eperm, st)
    else if (st.images id).state = .copied then some (authVerify pf id d verifies st)
    else if imageSrc = 0 ∨ imageSize = 0 ∨
        checkUptrOverflow imageSrc (imageSize.toNat - 1) = true then
      some (.enomem, st)
    else if memCheckFails then some (.enomem, st)
    else
      match bl1FwuAddLoadedId st.loadedIds id with
      | none => some (.enomem, st)
      | some ids =>
        some (authVerify pf id d verifies
          { st.setImage id { st.images id with imageSize := imageSize.toNat } with
            loadedIds := ids })

/-! ## Execution -/

/-- `bl1_fwu_image_execute`, with the state `bl1_prepare_next_image` sets. -/
def bl1FwuImageExecute (pf : Platform) (id : ImageId) (st : Bl1) : Rc × Bl1 :=
  match pf.desc id with
  | none => (.eperm, st)
  | some d =>
    if st.world = .secure ∨ d.secure = false ∨ d.executable = false ∨
        (st.images id).state ≠ .authenticated then
      (.eperm, st)
    else
      (.success,
        { st.setImage id { st.images id with state := .executed } with
          secExecImageId := id
          world := .secure })

def bl1FwuImageResume (pf : Platform) (st : Bl1) : Option (Rc × Bl1) :=
  let id := st.secExecImageId
  match pf.desc id with
  | none => if st.world = .normal then some (.eperm, st) else none
  | some d =>
    pf.assert (d.secure = true ∧ d.executable = true) <|
      match st.world with
      | .secure =>
        pf.assert ((st.images id).state = .executed) <|
          some (.success, { st.setImage id { st.images id with state := .interrupted } with world := .normal })
      | .normal =>
        pf.assert ((st.images id).state = .interrupted) <|
          some (.success, { st.setImage id { st.images id with state := .executed } with world := .secure })

def bl1FwuSecImageDone (pf : Platform) (st : Bl1) : Option (Rc × Bl1) :=
  if st.world = .normal then some (.eperm, st)
  else
    let id := st.secExecImageId
    match pf.desc id with
    | none => none
    | some d =>
      pf.assert (d.secure = true ∧ d.executable = true ∧ (st.images id).state = .executed) <|
        pf.assert ((bl1FwuRemoveLoadedId id st.loadedIds).isSome = true) <|
          some (.success,
            { st.setImage id { st.images id with state := .reset } with
              loadedIds := (bl1FwuRemoveLoadedId id st.loadedIds).getD st.loadedIds
              secExecImageId := invalidImageId
              world := .normal })

def bl1FwuImageReset (pf : Platform) (id : ImageId) (st : Bl1) : Option (Rc × Bl1) :=
  match pf.desc id with
  | none => some (.eperm, st)
  | some d =>
    if st.world = .secure then some (.eperm, st)
    else
      match (st.images id).state with
      | .reset => some (.success, st)
      | .executed => pf.assert False (some (.success, st))
      | .interrupted | .authenticated | .copied | .copying =>
        match bl1FwuRemoveLoadedId id st.loadedIds with
        | none => some (.eperm, st)
        | some ids =>
          pf.assert ((st.images id).copiedSize ≠ 0 → d.secure = true) <|
            some (.success,
              { st.setImage id { state := .reset, copiedSize := 0, imageSize := 0 } with
                loadedIds := ids
                -- nothing is written when `copied_size` is 0
                mem := zeroNormalmem st.mem d.imageBase (st.images id).copiedSize })

end Armada3720.Fwu
