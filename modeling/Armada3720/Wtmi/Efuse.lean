import Mathlib.Logic.Function.Basic

/-!
# Reading and burning fuses

`efuse_read` and `efuse_write` of the WTMI fuse application. A pointer into the sixteen words of the mailbox is
a position. Each poll of the hardware succeeds or times out, as an input says. A shift by 32 or more gives 0.
-/

namespace Armada3720.Wtmi

/-- `NO_ERROR` and `ERR_*`. -/
inductive Status where
  | noError
  | invalidArgument
  | invalidCommand
  | badConfiguration
  | timeout
deriving DecidableEq, Repr

def mbStatSuccess : BitVec 32 := 0

def mbStatHwError : BitVec 32 := 1

def mbStatTimeout : BitVec 32 := 2

def mbStatBadArgument : BitVec 32 := 3

def mbStatBadCommand : BitVec 32 := 4

def efuseMaxRow : Nat := 43

def efuseBitsInRow : Nat := 64

def efuseAccessLoops (size : Nat) : Nat :=
  if size ≤ efuseBitsInRow then 1 else size / efuseBitsInRow

abbrev Args : Type := Nat → BitVec 32

/-- With the master enable of OTP programming, and the rows that have been addressed, the newest first. -/
structure Otp where
  fuse : BitVec 6 → BitVec 64
  masterEnabled : Bool
  rows : List (BitVec 32)

def efuseRwRow (row : BitVec 32) : BitVec 6 :=
  row.setWidth 6

/-- `efuse_write_enable` with 1: programming is enabled, and the code match is polled. -/
def efuseWriteEnable (poll : Bool) (otp : Otp) : Status × Otp :=
  (if poll then .noError else .timeout, { otp with masterEnabled := true })

def efuseWriteDisable (otp : Otp) : Otp :=
  { otp with masterEnabled := false }

/-- `efuse_read_row_no_ecc`: the two halves of a row, the lower first, or a timeout. -/
def efuseReadRowNoEcc (row : BitVec 32) (poll : Bool) (otp : Otp) : Option (BitVec 32 × BitVec 32) × Otp :=
  let value := otp.fuse (efuseRwRow row)
  (if poll then some (value.setWidth 32, (value >>> 32).setWidth 32) else none, { otp with rows := row :: otp.rows })

/-- What the end of `efuse_read` and `efuse_write` puts in the first word. -/
def reportStatus (status : Status) (pos : Nat) (args : Args) : Args :=
  match status with
  | .noError => args
  | .invalidArgument => Function.update args pos mbStatBadArgument
  | .timeout => Function.update args pos mbStatTimeout
  | _ => Function.update args pos mbStatHwError

/-! ## Reading -/

/-- The row loop of `efuse_read`, with the number of turns left. -/
def readRows (row : BitVec 32) (polls : Nat → Bool) : Nat → Nat → Args → Otp → Status × Args × Otp
  | 0, _, args, otp => (.noError, args, otp)
  | n + 1, count, args, otp =>
    match efuseReadRowNoEcc (row + BitVec.ofNat 32 count) (polls count) otp with
    | (none, otp) => (.timeout, args, otp)
    | (some (lsb, msb), otp) =>
      readRows row polls n (count + 1)
        (Function.update (Function.update args (count * 2) lsb) (count * 2 + 1) msb) otp

/-- The 64-bit right shift of `efuse_read`. -/
def shiftRight (offset : Nat) (args : Args) : Args :=
  if offset < 32 then
    let args := Function.update args 0 (args 0 >>> offset)
    let args := Function.update args 0 (args 0 ||| args 1 <<< (32 - offset))
    Function.update args 1 (args 1 >>> offset)
  else
    let args := Function.update args 0 (args 1 >>> (offset - 32))
    Function.update args 1 0

/-- The majority of three bits in `efuse_read`. -/
def majority (args : Args) : Args :=
  let bits := args 0 &&& 7#32
  Function.update (Function.update args 0 (if bits = 3#32 ∨ bits > 4#32 then 1#32 else 0#32)) 1 0

/-- A field shorter than a row is cut out of the row in `efuse_read`. -/
def extractField (size offset : Nat) (args : Args) : Args :=
  if size < efuseBitsInRow then
    let args := shiftRight offset args
    if size = 1 then majority args
    else if size ≤ 32 then
      Function.update (Function.update args 0 (args 0 &&& (0xffffffff#32 >>> (32 - size)))) 1 0
    else args
  else args

/-- `efuse_read`, into the first words. -/
def efuseRead (size : Nat) (row offset : BitVec 32) (polls : Nat → Bool) (args : Args) (otp : Otp) :
    Status × Args × Otp :=
  if row.toNat ≥ efuseMaxRow ∨ offset.toNat > efuseBitsInRow then
    (.invalidArgument, reportStatus .invalidArgument 0 args, otp)
  else
    match readRows row polls (efuseAccessLoops size) 0 args otp with
    | (.noError, args, otp) => (.noError, extractField size offset.toNat args, otp)
    | (status, args, otp) => (status, reportStatus status 0 args, otp)

/-! ## Burning -/

/-- The value to burn is cleaned up, and a single bit is tripled. -/
def expandField (size pos : Nat) (args : Args) : Args :=
  if size = 1 then
    let bit := args pos &&& 1#32
    Function.update (Function.update args pos (bit ||| (bit <<< 1 ||| bit <<< 2))) (pos + 1) 0
  else if size ≤ 32 then
    Function.update (Function.update args pos (args pos &&& (0xffffffff#32 >>> (32 - size)))) (pos + 1) 0
  else args

/-- The 64-bit left shift of `efuse_write`, for a field shorter than a row. -/
def placeField (size offset pos : Nat) (args : Args) : Args :=
  if size < efuseBitsInRow then
    if offset < 32 then
      let args := Function.update args (pos + 1) (args (pos + 1) <<< offset)
      let args := Function.update args (pos + 1) (args (pos + 1) ||| args pos >>> (32 - offset))
      Function.update args pos (args pos <<< offset)
    else
      let args := Function.update args (pos + 1) (args pos <<< (offset - 32))
      Function.update args pos 0
  else args

/-- The old contents of a row are added to the words to burn. -/
def addOld (pos : Nat) (lsb msb : BitVec 32) (args : Args) : Args :=
  Function.update (Function.update args pos (args pos ||| lsb)) (pos + 1) (args (pos + 1) ||| msb)

def Otp.burn (otp : Otp) (row : BitVec 32) (col : Nat) : Otp :=
  { otp with
    fuse := Function.update otp.fuse (efuseRwRow row) (otp.fuse (efuseRwRow row) ||| 1#64 <<< col)
    rows := row :: otp.rows }

/-- The column loop of `efuse_write`, with the number of turns left. -/
def burnColumns (row : BitVec 32) (pos : Nat) : Nat → Nat → Args → Otp → Args × Otp
  | 0, _, args, otp => (args, otp)
  | n + 1, col, args, otp =>
    let otp := if args (pos + col / 32) &&& 1#32 ≠ 0#32 then otp.burn row col else otp
    burnColumns row pos n (col + 1) (Function.update args (pos + col / 32) (args (pos + col / 32) >>> 1)) otp

/-- With the number of turns left. The first poll was for the code match. -/
def writeRows (size : Nat) (row : BitVec 32) (offset pos : Nat) (polls : Nat → Bool) :
    Nat → Nat → Args → Otp → Status × Args × Otp
  | 0, _, args, otp => (.noError, args, otp)
  | n + 1, count, args, otp =>
    match efuseReadRowNoEcc (row + BitVec.ofNat 32 count) (polls (count + 1)) otp with
    | (none, otp) => (.timeout, args, otp)
    | (some (lsb, msb), otp) =>
      let args := placeField size offset pos args
      let args := addOld (pos + count * 2) lsb msb args
      let (args, otp) :=
        burnColumns (row + BitVec.ofNat 32 count) (pos + count * 2) efuseBitsInRow 0 args otp
      writeRows size row offset pos polls n (count + 1) args otp

/-- `efuse_write` of the words at a position. -/
def efuseWrite (size : Nat) (row offset : BitVec 32) (pos : Nat) (polls : Nat → Bool) (args : Args) (otp : Otp) :
    Status × Args × Otp :=
  if row.toNat ≥ efuseMaxRow ∨ offset.toNat > efuseBitsInRow then
    (.invalidArgument, reportStatus .invalidArgument pos args, otp)
  else
    let args := expandField size pos args
    match efuseWriteEnable (polls 0) otp with
    | (.noError, otp) =>
      match writeRows size row offset.toNat pos polls (efuseAccessLoops size) 0 args otp with
      | (.noError, args, otp) => (.noError, args, efuseWriteDisable otp)
      | (status, args, otp) => (status, reportStatus status pos args, otp)
    | (status, otp) => (status, reportStatus status pos args, otp)

end Armada3720.Wtmi
