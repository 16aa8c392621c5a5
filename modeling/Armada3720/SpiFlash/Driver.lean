import Armada3720.Lib.Flash

/-!
# The SPI flash driver

The read, write and erase operations of `drivers/mtd/spi/spi_flash.c` with `CONFIG_SPI_FLASH_BAR`, for a single
flash, and the chip behind them: commands carry addresses of 24 bits, and a bank register holds the bits above.
No transfer fails.
-/

namespace Armada3720.SpiFlash

open Lib

def bankSize : Nat := 0x1000000

def cmdLen : Nat := 4

/-- What the driver knows about the chip and its controller. A size limit of 0 is none. -/
structure Chip where
  size : Nat
  pageSize : Nat
  eraseSize : Nat
  maxReadSize : Nat
  maxWriteSize : Nat
  memoryMap : Bool
  /-- `flash_is_locked(flash, offset, len) > 0`. -/
  flashIsLocked : Nat → Nat → Bool
  size_lt : size < 2 ^ 32
  write_lt : maxWriteSize < 2 ^ 32
  page_pos : 0 < pageSize
  page_dvd : pageSize ∣ bankSize
  erase_pos : 0 < eraseSize
  erase_dvd : eraseSize ∣ bankSize

/-! ## The chip -/

inductive Command
  | writeBank (bank : Nat)
  | read (addr : Nat × Nat × Nat) (len : Nat)
  | program (addr : Nat × Nat × Nat) (bytes : List UInt8)
  | erase (addr : Nat × Nat × Nat)

/-- The chip, the driver's copy of the bank register, and the commands sent so far. -/
structure State where
  flash : Flash
  bank : Nat
  bankCurr : Nat
  log : List Command

def addr24 (addr : Nat × Nat × Nat) : Nat := addr.1 * 65536 + addr.2.1 * 256 + addr.2.2

/-- The byte of the chip that a command speaks of. -/
def State.place (st : State) (addr : Nat × Nat × Nat) : Nat := st.bank * bankSize + addr24 addr

/-- At the end of the page the chip goes on at its beginning. Programming clears bits. -/
def programPage (page pageSize : Nat) : Nat → List UInt8 → Flash → Flash
  | _, [], f => f
  | col, b :: bytes, f =>
    programPage page pageSize (col + 1) bytes
      (Function.update f (page + col % pageSize) (f (page + col % pageSize) &&& b))

/-- The bank register after a command. -/
def Command.bank (bank : Nat) : Command → Nat
  | .writeBank bank => bank
  | _ => bank

/-- The contents of the flash after a command. -/
def State.contents (chip : Chip) (st : State) : Command → Flash
  | .program addr bytes =>
    programPage (st.place addr / chip.pageSize * chip.pageSize) chip.pageSize
      (st.place addr % chip.pageSize) bytes st.flash
  | .erase addr =>
    FlashOp.apply st.flash (.erase (st.place addr / chip.eraseSize * chip.eraseSize) chip.eraseSize)
  | _ => st.flash

def State.exec (chip : Chip) (st : State) (cmd : Command) : State :=
  { flash := st.contents chip cmd
    bank := cmd.bank st.bank
    bankCurr := st.bankCurr
    log := st.log ++ [cmd] }

section Exec

variable {chip : Chip} {st : State} {cmd : Command}

theorem exec_flash : (st.exec chip cmd).flash = st.contents chip cmd := rfl

theorem exec_bank : (st.exec chip cmd).bank = cmd.bank st.bank := rfl

theorem exec_bankCurr : (st.exec chip cmd).bankCurr = st.bankCurr := by rw [State.exec]

theorem exec_log : (st.exec chip cmd).log = st.log ++ [cmd] := rfl

theorem contents_read {addr : Nat × Nat × Nat} {len : Nat} :
    st.contents chip (.read addr len) = st.flash := rfl

end Exec

/-- What the chip answers to a read command. It does not go on into the next bank. -/
def State.answer (st : State) (addr : Nat × Nat × Nat) (len : Nat) : List UInt8 :=
  (List.range len).map fun i => st.flash (st.bank * bankSize + (addr24 addr + i) % bankSize)

/-! ## The driver -/

def spiFlashAddr (addr : Nat) : Nat × Nat × Nat := (addr / 65536 % 256, addr / 256 % 256, addr % 256)

def cleanBar (chip : Chip) (st : State) : State :=
  if st.bankCurr = 0 then st else st.exec chip (.writeBank 0)

def writeBar (chip : Chip) (st : State) (offset : Nat) : State :=
  let bankSel := offset / bankSize % 256
  if bankSel = st.bankCurr then st
  else { st.exec chip (.writeBank bankSel) with bankCurr := bankSel }

def eraseLoop (chip : Chip) : Nat → State → Nat → Nat → Option State
  | 0, st, _, len => if len = 0 then some st else none
  | fuel + 1, st, offset, len =>
    if len = 0 then some st
    else
      let st := (writeBar chip st offset).exec chip (.erase (spiFlashAddr offset))
      eraseLoop chip fuel st (offset + chip.eraseSize) (len - chip.eraseSize)

def spiFlashCmdEraseOps (chip : Chip) (st : State) (offset len : Nat) : Option (State × Int) :=
  if offset % chip.eraseSize ≠ 0 ∨ len % chip.eraseSize ≠ 0 then some (st, -1)
  else if chip.flashIsLocked offset len then some (st, -22)
  else (eraseLoop chip len st offset len).map fun st => (cleanBar chip st, 0)

/-- `max_write_size - sizeof(cmd)` is of an unsigned type of 64 bits. -/
def chunkLen (chip : Chip) (offset left : Nat) : Nat :=
  let chunk := min left (chip.pageSize - offset % chip.pageSize)
  if chip.maxWriteSize ≠ 0 then min chunk ((chip.maxWriteSize + (2 ^ 64 - cmdLen)) % 2 ^ 64)
  else chunk

def writeLoop (chip : Chip) : Nat → State → Nat → List UInt8 → Option State
  | 0, st, _, left => if left = [] then some st else none
  | fuel + 1, st, offset, left =>
    if left = [] then some st
    else
      let st := writeBar chip st offset
      let chunk := chunkLen chip offset left.length
      let st := st.exec chip (.program (spiFlashAddr offset) (left.take chunk))
      writeLoop chip fuel st (offset + chunk) (left.drop chunk)

def spiFlashCmdWriteOps (chip : Chip) (st : State) (offset : Nat) (buf : List UInt8) :
    Option (State × Int) :=
  if chip.flashIsLocked offset buf.length then some (st, -22)
  else (writeLoop chip buf.length st offset buf).map fun st => (cleanBar chip st, 0)

/-- The length of a read command, `len` bytes being left. -/
def readLen (chip : Chip) (bankSel offset len : Nat) : Nat :=
  let remain := (bankSize * (bankSel + 1) + (2 ^ 32 - offset)) % 2 ^ 32
  let read := if len < remain then len else remain
  if chip.maxReadSize ≠ 0 then min read chip.maxReadSize else read

def readLoop (chip : Chip) : Nat → State → Nat → Nat → Option (State × List UInt8)
  | 0, st, _, len => if len = 0 then some (st, []) else none
  | fuel + 1, st, offset, len =>
    if len = 0 then some (st, [])
    else
      let st := writeBar chip st offset
      let n := readLen chip st.bankCurr offset len
      let data := st.answer (spiFlashAddr offset) n
      (readLoop chip fuel (st.exec chip (.read (spiFlashAddr offset) n)) (offset + n) (len - n)).map
        fun q => (q.1, data ++ q.2)

/-- `spi_flash_cmd_read_ops`. A memory-mapped flash is copied from its window. -/
def spiFlashCmdReadOps (chip : Chip) (st : State) (offset len : Nat) :
    Option (State × Int × List UInt8) :=
  if chip.memoryMap then some (st, 0, st.flash.read offset len)
  else (readLoop chip len st offset len).map fun q => (cleanBar chip q.1, 0, q.2)

end Armada3720.SpiFlash
