import Armada3720.Lib.LittleEndian
import Armada3720.Lib.Window

/-!
# The GUID partition table

`part_efi.c`: how a table is read and checked, and how it is written. The primary header is in block 1 with the
entries behind it, the backup header in the last block with the entries before it. `crc32` is left open.
-/

namespace Armada3720.Part

open Lib

abbrev Guid := Vector UInt8 16

structure GptHeader where
  signature : UInt64
  revision : UInt32
  headerSize : UInt32
  headerCrc32 : UInt32
  reserved1 : UInt32
  myLba : UInt64
  alternateLba : UInt64
  firstUsableLba : UInt64
  lastUsableLba : UInt64
  diskGuid : Guid
  partitionEntryLba : UInt64
  numPartitionEntries : UInt32
  sizeofPartitionEntry : UInt32
  partitionEntryArrayCrc32 : UInt32
  deriving DecidableEq, Repr

def sizeofGptHeader : Nat := 92

def sizeofGptEntry : Nat := 128

def gptHeaderSignature : UInt64 := 0x5452415020494645

def gptHeaderRevisionV1 : UInt32 := 0x00010000

def gptPrimaryPartitionTableLba : UInt64 := 1

namespace GptHeader

/-- The fields up to the CRC of the header. -/
def bytesBefore (h : GptHeader) : List UInt8 :=
  toLe 8 h.signature.toNat ++ (toLe 4 h.revision.toNat ++ toLe 4 h.headerSize.toNat)

/-- The fields behind the CRC of the header. -/
def bytesBehind (h : GptHeader) : List UInt8 :=
  toLe 4 h.reserved1.toNat ++ (toLe 8 h.myLba.toNat ++ (toLe 8 h.alternateLba.toNat ++
    (toLe 8 h.firstUsableLba.toNat ++ (toLe 8 h.lastUsableLba.toNat ++ (h.diskGuid.toList ++
      (toLe 8 h.partitionEntryLba.toNat ++ (toLe 4 h.numPartitionEntries.toNat ++
        (toLe 4 h.sizeofPartitionEntry.toNat ++ toLe 4 h.partitionEntryArrayCrc32.toNat))))))))

def bytes (h : GptHeader) : List UInt8 :=
  h.bytesBefore ++ (toLe 4 h.headerCrc32.toNat ++ h.bytesBehind)

/-- The header that a buffer is read as. -/
def ofBytes (b : List UInt8) : GptHeader where
  signature := .ofNat (leField b 0 8)
  revision := .ofNat (leField b 8 4)
  headerSize := .ofNat (leField b 12 4)
  headerCrc32 := .ofNat (leField b 16 4)
  reserved1 := .ofNat (leField b 20 4)
  myLba := .ofNat (leField b 24 8)
  alternateLba := .ofNat (leField b 32 8)
  firstUsableLba := .ofNat (leField b 40 8)
  lastUsableLba := .ofNat (leField b 48 8)
  diskGuid := .ofFn fun i => b.getD (56 + i) 0
  partitionEntryLba := .ofNat (leField b 72 8)
  numPartitionEntries := .ofNat (leField b 80 4)
  sizeofPartitionEntry := .ofNat (leField b 84 4)
  partitionEntryArrayCrc32 := .ofNat (leField b 88 4)

/-- The size of the array of entries, a product of 32 bits. -/
def entriesSize (h : GptHeader) : Nat := (h.numPartitionEntries * h.sizeofPartitionEntry).toNat

variable (h : GptHeader) (rest : List UInt8)

@[simp]
theorem length_bytesBefore : h.bytesBefore.length = 16 := by simp [bytesBefore]

@[simp]
theorem length_bytesBehind : h.bytesBehind.length = 72 := by simp [bytesBehind]

@[simp]
theorem length_bytes : h.bytes.length = sizeofGptHeader := by simp [bytes, sizeofGptHeader]

theorem getD_guid (i : Fin 16) : (h.bytes ++ rest).getD (56 + i) 0 = h.diskGuid[i] := by
  obtain ⟨front, tail, hlen, heq⟩ : ∃ front tail, front.length = 56 ∧
      h.bytes ++ rest = front ++ (h.diskGuid.toList ++ tail) := by
    refine ⟨h.bytesBefore ++ (toLe 4 h.headerCrc32.toNat ++ (toLe 4 h.reserved1.toNat ++
      (toLe 8 h.myLba.toNat ++ (toLe 8 h.alternateLba.toNat ++ (toLe 8 h.firstUsableLba.toNat ++
        toLe 8 h.lastUsableLba.toNat))))), toLe 8 h.partitionEntryLba.toNat ++
      (toLe 4 h.numPartitionEntries.toNat ++ (toLe 4 h.sizeofPartitionEntry.toNat ++
        (toLe 4 h.partitionEntryArrayCrc32.toNat ++ rest))), by simp [bytesBefore], ?_⟩
    simp only [bytes, bytesBehind, List.append_assoc]
  rw [heq, List.getD_append_right _ _ _ _ (by omega), hlen, Nat.add_sub_cancel_left,
    List.getD_append _ _ _ _ (by simp), List.getD_eq_getElem _ _ (by simp)]
  simp

theorem ofBytes_bytes : ofBytes (h.bytes ++ rest) = h := by
  have hguid : ∀ (bs : List UInt8) {off w : Nat}, 16 ≤ off →
      leField (h.diskGuid.toList ++ bs) off w = leField bs (off - 16) w := by
    intro bs off w hoff
    rw [leField_append _ _ (by simpa using hoff), Vector.length_toList]
  have hdisk : (Vector.ofFn fun i : Fin 16 => (h.bytes ++ rest).getD (56 + i) 0) = h.diskGuid := by
    refine Vector.ext fun i hi => ?_
    rw [Vector.getElem_ofFn]
    exact h.getD_guid rest ⟨i, hi⟩
  unfold ofBytes
  rw [hdisk]
  simp [bytes, bytesBefore, bytesBehind, List.append_assoc, leField_toLe, leField_toLe_append, hguid]
end GptHeader

/-- With `GPT_ENTRY_NUMBERS`, which is at most what the standard has. -/
structure GptDevice where
  blksz : Nat
  lba : UInt64
  gptEntryNumbers : Nat
  blksz_ge : 512 ≤ blksz
  entries_pos : 0 < gptEntryNumbers
  entries_le : gptEntryNumbers ≤ 128

abbrev Disk := Nat → UInt8

/-- What stands in the way of a table being valid. -/
inductive GptError
  | readMbr | readHeader | signature | headerCrc | myLba | firstUsableLba | lastUsableLba
  | noEntries | readEntries | entriesCrc
  deriving DecidableEq, Repr

namespace GptDevice

variable (crc32 : List UInt8 → UInt32) (dev : GptDevice)

def padCount (dev : GptDevice) (size : Nat) : Nat := (size - 1) / dev.blksz + 1

/-- `BLOCK_CNT` of the entries. -/
def pteBlkCnt (dev : GptDevice) : Nat := dev.padCount (dev.gptEntryNumbers * sizeofGptEntry)

/-- A read from the device, if the blocks are there. -/
def blkDread (dev : GptDevice) (disk : Disk) (start blkcnt : Nat) : Option (List UInt8) :=
  if start + blkcnt ≤ dev.lba.toNat then some (window disk (start * dev.blksz) (blkcnt * dev.blksz))
  else none

/-! ## Reading a table -/

/-- The CRC field of a header in a buffer set to zero. -/
def zeroCrc (b : List UInt8) : List UInt8 := b.take 16 ++ (toLe 4 0 ++ b.drop 20)

/-- The CRC is taken over as many bytes as the header says it has. -/
def validateGptHeader (b : List UInt8) (lba lastlba : UInt64) : Except GptError Unit :=
  let h := GptHeader.ofBytes b
  if h.signature ≠ gptHeaderSignature then .error .signature
  else if crc32 ((zeroCrc b).take h.headerSize.toNat) ≠ h.headerCrc32 then .error .headerCrc
  else if h.myLba ≠ lba then .error .myLba
  else if lastlba < h.firstUsableLba then .error .firstUsableLba
  else if lastlba < h.lastUsableLba then .error .lastUsableLba
  else .ok ()

def validateGptEntries (h : GptHeader) (pte : List UInt8) : Except GptError Unit :=
  if crc32 (pte.take h.entriesSize) ≠ h.partitionEntryArrayCrc32 then .error .entriesCrc else .ok ()

/-- The entries in whole blocks. Memory for them is always found. -/
def allocReadGptEntries (disk : Disk) (h : GptHeader) : Except GptError (List UInt8) :=
  if h.entriesSize = 0 then .error .noEntries
  else
    match dev.blkDread disk h.partitionEntryLba.toNat (dev.padCount h.entriesSize) with
    | some pte => .ok pte
    | none => .error .readEntries

/-- The header and the entries of the table whose header is in block `lba`, if it is valid. -/
def isGptValid (disk : Disk) (lba : UInt64) : Except GptError (GptHeader × List UInt8) :=
  match dev.blkDread disk 0 1 with
  | none => .error .readMbr
  | some _ =>
    match dev.blkDread disk lba.toNat 1 with
    | none => .error .readHeader
    | some b => do
      validateGptHeader crc32 b lba dev.lba
      let pte ← dev.allocReadGptEntries disk (.ofBytes b)
      validateGptEntries crc32 (.ofBytes b) pte
      return (.ofBytes b, pte)

/-- The table that `part_get_info_efi` looks into: the primary one, or else the backup. -/
def findGpt (disk : Disk) : Except GptError (GptHeader × List UInt8) :=
  match dev.isGptValid crc32 disk gptPrimaryPartitionTableLba with
  | .ok table => .ok table
  | .error _ => dev.isGptValid crc32 disk (dev.lba - 1)

/-! ## Making and writing a table -/

/-- `config` is the property `u-boot,efi-partition-entries-offset` of the device tree. -/
def partitionEntriesOffset (config : Option Int) : UInt32 :=
  let blks := match config with
    | none => 2
    | some c =>
      let bytes := (((c - 1) % 2 ^ 64).toNat / dev.blksz + 1) * dev.blksz % 2 ^ 64 % 2 ^ 32
      bytes / dev.blksz
  UInt32.ofNat (if blks < 2 then 2 else blks)

/-- All fields but `reserved1` are set; `guid` is what `uuid_str_to_bin` makes of the string. -/
def gptFillHeader (h : GptHeader) (config : Option Int) (guid : Option Guid) : Option GptHeader :=
  let entryLba := (dev.partitionEntriesOffset config).toUInt64
  guid.map fun guid =>
    { h with
      signature := gptHeaderSignature
      revision := gptHeaderRevisionV1
      headerSize := .ofNat sizeofGptHeader
      myLba := 1
      alternateLba := dev.lba - 1
      lastUsableLba := dev.lba - 34
      partitionEntryLba := entryLba
      firstUsableLba := entryLba + 32
      numPartitionEntries := .ofNat dev.gptEntryNumbers
      sizeofPartitionEntry := .ofNat sizeofGptEntry
      headerCrc32 := 0
      partitionEntryArrayCrc32 := 0
      diskGuid := guid }

/-- The block with the protective MBR: the boot code stays, the first partition record is set. -/
def protectiveMbr (b : List UInt8) : List UInt8 :=
  b.take 450 ++ ([0xEE] ++ ((b.drop 451).take 3 ++ (toLe 4 1 ++
    (toLe 4 (dev.lba.toUInt32 - 1).toNat ++ ((b.drop 462).take 48 ++ (toLe 2 0xAA55 ++ b.drop 512))))))

/-- The CRC of the entries is set. -/
def setEntriesCrc (h : GptHeader) (entries : List UInt8) : GptHeader :=
  { h with partitionEntryArrayCrc32 := crc32 (entries.take h.entriesSize) }

/-- `pad` is what lies behind the header in the buffer. -/
def setHeaderCrc (h : GptHeader) (pad : List UInt8) : GptHeader :=
  { h with headerCrc32 := crc32 ((h.bytes ++ pad).take h.headerSize.toNat) }

/-- The places of the backup for those of the primary copy. -/
def swapLbas (h : GptHeader) : GptHeader :=
  { h with
    myLba := h.alternateLba
    alternateLba := h.myLba
    partitionEntryLba := h.lastUsableLba + 1
    headerCrc32 := 0 }

def prepareBackupGptHeader (h : GptHeader) (pad : List UInt8) : GptHeader :=
  setHeaderCrc crc32 (swapLbas h) pad

/-- The calls of `blk_dwrite`, in order. -/
def writeGptTable (disk : Disk) (h : GptHeader) (pad entries : List UInt8) :
    List (Nat × List UInt8) :=
  let h := setHeaderCrc crc32 (setEntriesCrc crc32 h entries) pad
  let backup := prepareBackupGptHeader crc32 h pad
  [(0, dev.protectiveMbr (window disk 0 dev.blksz)), (1, h.bytes ++ pad), (h.partitionEntryLba.toNat, entries),
    ((backup.lastUsableLba + 1).toNat, entries),
    (backup.myLba.toNat, backup.bytes ++ pad)]

/-- The disk when `write_gpt_table` is interrupted after `n` blocks. -/
def interrupted (disk : Disk) (h : GptHeader) (pad entries : List UInt8) (n : Nat) : Disk :=
  applyWrites dev.blksz disk
    (((dev.writeGptTable crc32 disk h pad entries).flatMap fun w =>
      blockWrites dev.blksz w.1 w.2).take n)

end GptDevice

end Armada3720.Part
