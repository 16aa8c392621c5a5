import Armada3720.Part.Gpt

/-!
# Rewriting a table

Wherever `write_gpt_table` is interrupted, the primary copy is consistent, or the backup is: a primary copy that
is neither the old nor the new table has other entries than its CRC tells; the backup is then still the old one.

`write_gpt_table_crash_safe` is for every number of blocks written. A block is written as a whole or not at all, and
of CRC-32 it is assumed only that it tells a mixture of old and new entries from the new ones.
-/

namespace Armada3720.Part

open Lib

/-! ## The header in its bytes -/

namespace GptHeader

variable (h : GptHeader) (rest : List UInt8)

theorem zeroCrc_bytes :
    GptDevice.zeroCrc (h.bytes ++ rest) = { h with headerCrc32 := 0 }.bytes ++ rest := by
  have htake : (h.bytes ++ rest).take 16 = h.bytesBefore := by
    exact List.take_left' h.length_bytesBefore
  have hdrop : (h.bytes ++ rest).drop 20 = h.bytesBehind ++ rest := by
    rw [bytes, ← List.append_assoc h.bytesBefore, List.append_assoc]
    exact List.drop_left' (by simp)
  rfl

end GptHeader

/-! ## A valid copy -/

variable {crc32 : List UInt8 → UInt32} {dev : GptDevice} {disk : Disk}

/-- A header that is right for block `lba`. -/
structure Sealed (crc32 : List UInt8 → UInt32) (dev : GptDevice) (lba : UInt64) (h : GptHeader) :
    Prop where
  signature : h.signature = gptHeaderSignature
  headerSize : h.headerSize = .ofNat sizeofGptHeader
  headerCrc32 : h.headerCrc32 = crc32 { h with headerCrc32 := 0 }.bytes
  myLba : h.myLba = lba
  firstUsableLba : h.firstUsableLba ≤ dev.lba
  lastUsableLba : h.lastUsableLba ≤ dev.lba
  entriesSize : h.entriesSize = dev.gptEntryNumbers * sizeofGptEntry
  lba_lt : lba < dev.lba
  room : h.partitionEntryLba.toNat + dev.pteBlkCnt ≤ dev.lba.toNat

theorem GptDevice.size_le (dev : GptDevice) :
    dev.gptEntryNumbers * sizeofGptEntry ≤ dev.pteBlkCnt * dev.blksz := by
  have hblksz := dev.blksz_ge
  have hmod := Nat.div_add_mod (dev.gptEntryNumbers * sizeofGptEntry - 1) dev.blksz
  have hlt := Nat.mod_lt (dev.gptEntryNumbers * sizeofGptEntry - 1) (show 0 < dev.blksz by omega)
  rw [pteBlkCnt, padCount, Nat.add_mul, Nat.mul_comm _ dev.blksz]
  omega

theorem GptDevice.pteBlkCnt_le (dev : GptDevice) : dev.pteBlkCnt ≤ 32 := by
  have hle := dev.entries_le
  have hblksz := dev.blksz_ge
  have hdiv : (dev.gptEntryNumbers * sizeofGptEntry - 1) / dev.blksz ≤ 16383 / 512 :=
    Nat.div_le_div (by rw [sizeofGptEntry]; omega) hblksz (by decide)
  rw [pteBlkCnt, padCount]
  omega

/-- With a right header in its block, a table is valid if the CRC of its entries is right. -/
theorem Sealed.isGptValid {lba : UInt64} {h : GptHeader} {pad : List UInt8} (hs : Sealed crc32 dev lba h)
    (hblock : window disk (lba.toNat * dev.blksz) dev.blksz = h.bytes ++ pad) :
    dev.isGptValid crc32 disk lba =
      if crc32 (window disk (h.partitionEntryLba.toNat * dev.blksz)
          (dev.gptEntryNumbers * sizeofGptEntry)) = h.partitionEntryArrayCrc32 then
        .ok (h, window disk (h.partitionEntryLba.toNat * dev.blksz) (dev.pteBlkCnt * dev.blksz))
      else .error .entriesCrc := by
  have hlba := UInt64.lt_iff_toNat_lt.mp hs.lba_lt
  have hmbr : dev.blkDread disk 0 1 = some (window disk (0 * dev.blksz) (1 * dev.blksz)) :=
    if_pos (by omega)
  have hread : dev.blkDread disk lba.toNat 1 = some (h.bytes ++ pad) := by
    rw [GptDevice.blkDread, if_pos (by omega), Nat.one_mul, hblock]
  have hheader : GptDevice.validateGptHeader crc32 (h.bytes ++ pad) lba dev.lba = .ok () := by
    have hcrc : crc32 ((GptDevice.zeroCrc (h.bytes ++ pad)).take h.headerSize.toNat) = h.headerCrc32 := by
      rw [h.zeroCrc_bytes, hs.headerCrc32, hs.headerSize]
      exact congrArg crc32 (List.take_left' (GptHeader.length_bytes _))
    simp only [GptDevice.validateGptHeader, GptHeader.ofBytes_bytes, hs.signature, hcrc, hs.myLba, ne_eq,
      not_true_eq_false, if_false, UInt64.not_lt.mpr hs.firstUsableLba,
      UInt64.not_lt.mpr hs.lastUsableLba]
  have hentries : dev.allocReadGptEntries disk h =
      .ok (window disk (h.partitionEntryLba.toNat * dev.blksz) (dev.pteBlkCnt * dev.blksz)) := by
    have hpos := dev.entries_pos
    have hcnt : dev.padCount h.entriesSize = dev.pteBlkCnt := by rw [hs.entriesSize]; rfl
    have hne : h.entriesSize ≠ 0 := by rw [hs.entriesSize, sizeofGptEntry]; omega
    rw [GptDevice.allocReadGptEntries, if_neg hne, hcnt, GptDevice.blkDread, if_pos hs.room]
  have htake : (window disk (h.partitionEntryLba.toNat * dev.blksz) (dev.pteBlkCnt * dev.blksz)).take h.entriesSize =
      window disk (h.partitionEntryLba.toNat * dev.blksz) (dev.gptEntryNumbers * sizeofGptEntry) := by
    rw [hs.entriesSize]
    exact take_window _ _ dev.size_le
  have hvalid : dev.isGptValid crc32 disk lba = do
      GptDevice.validateGptEntries crc32 h
        (window disk (h.partitionEntryLba.toNat * dev.blksz) (dev.pteBlkCnt * dev.blksz))
      return (h, window disk (h.partitionEntryLba.toNat * dev.blksz) (dev.pteBlkCnt * dev.blksz)) := by
    simp only [GptDevice.isGptValid, hmbr, hread, hheader, GptHeader.ofBytes_bytes, hentries]
    rfl
  rw [hvalid, GptDevice.validateGptEntries, htake]
  by_cases hcrc : crc32 (window disk (h.partitionEntryLba.toNat * dev.blksz)
      (dev.gptEntryNumbers * sizeofGptEntry)) = h.partitionEntryArrayCrc32
  · rw [if_neg (not_not.mpr hcrc), if_pos hcrc]
    rfl
  · rw [if_pos hcrc, if_neg hcrc]
    rfl

/-! ## The two copies of a table -/

/-- A header from `gpt_fill_header`, in a buffer of one block, and entries in whole blocks. The device is large
enough for both copies. -/
structure GptTable (dev : GptDevice) where
  header : GptHeader
  config : Option Int
  pad : List UInt8
  entries : List UInt8
  filled : ∃ buffer guid, dev.gptFillHeader buffer config guid = some header
  length_pad : sizeofGptHeader + pad.length = dev.blksz
  length_entries : entries.length = dev.pteBlkCnt * dev.blksz
  room : (dev.partitionEntriesOffset config).toNat + dev.pteBlkCnt + 33 ≤ dev.lba.toNat

namespace GptTable

variable (t : GptTable dev)

def offset : Nat := (dev.partitionEntriesOffset t.config).toNat

def table : List UInt8 := t.entries.take (dev.gptEntryNumbers * sizeofGptEntry)

def primary (crc32 : List UInt8 → UInt32) : GptHeader :=
  GptDevice.setHeaderCrc crc32 (GptDevice.setEntriesCrc crc32 t.header t.entries) t.pad

def backup (crc32 : List UInt8 → UInt32) : GptHeader :=
  GptDevice.prepareBackupGptHeader crc32 (t.primary crc32) t.pad

theorem two_le_offset : 2 ≤ t.offset := by
  unfold offset GptDevice.partitionEntriesOffset
  dsimp only
  split
  · decide
  · rename_i c _
    generalize hbytes : (((c - 1) % 2 ^ 64).toNat / dev.blksz + 1) * dev.blksz % 2 ^ 64 % 2 ^ 32 = bytes
    have hlt : bytes / dev.blksz < 2 ^ 32 := by
      have := Nat.div_le_self bytes dev.blksz
      omega
    rw [UInt32.toNat_ofNat']
    split <;> omega

/-- The fields that `gpt_fill_header` sets. -/
structure Filled (dev : GptDevice) (offset : Nat) (h : GptHeader) : Prop where
  signature : h.signature = gptHeaderSignature
  headerSize : h.headerSize = .ofNat sizeofGptHeader
  headerCrc32 : h.headerCrc32 = 0
  myLba : h.myLba = 1
  alternateLba : h.alternateLba = dev.lba - 1
  firstUsableLba : h.firstUsableLba.toNat = offset + 32
  lastUsableLba : h.lastUsableLba = dev.lba - 34
  partitionEntryLba : h.partitionEntryLba.toNat = offset
  entriesSize : h.entriesSize = dev.gptEntryNumbers * sizeofGptEntry

theorem header_filled : Filled dev t.offset t.header := by
  obtain ⟨buffer, guid, hfill⟩ := t.filled
  obtain ⟨guid, -, hheader⟩ := Option.map_eq_some_iff.mp hfill
  have hroom := t.room
  have hlba := dev.lba.toNat_lt
  have hle := dev.entries_le
  have hentry : (dev.partitionEntriesOffset t.config).toUInt64.toNat = t.offset := UInt32.toNat_toUInt64 _
  rw [← hheader]
  refine ⟨rfl, rfl, rfl, rfl, rfl, ?_, rfl, hentry, ?_⟩
  · rw [UInt64.toNat_add, hentry, offset]
    exact Nat.mod_eq_of_lt (by change _ + 32 < 2 ^ 64; omega)
  · rw [GptHeader.entriesSize, UInt32.toNat_mul, UInt32.toNat_ofNat', UInt32.toNat_ofNat', sizeofGptEntry]
    omega

theorem lba_sub (dev : GptDevice) (n : UInt64) (h : n.toNat ≤ dev.lba.toNat) : (dev.lba - n).toNat = dev.lba.toNat - n.toNat :=
  UInt64.toNat_sub_of_le _ _ (UInt64.le_iff_toNat_le.mpr h)

variable (crc32)

theorem setHeaderCrc_right {h : GptHeader}
    (hsize : h.headerSize = .ofNat sizeofGptHeader) (hcrc : h.headerCrc32 = 0) (pad : List UInt8) :
    (GptDevice.setHeaderCrc crc32 h pad).headerCrc32 =
      crc32 { GptDevice.setHeaderCrc crc32 h pad with headerCrc32 := 0 }.bytes := by
  have hzero : { GptDevice.setHeaderCrc crc32 h pad with headerCrc32 := 0 } = h := by
    rw [← hcrc]
    rfl
  rw [hzero, GptDevice.setHeaderCrc, hsize]
  exact congrArg crc32 (List.take_left' h.length_bytes)

theorem primary_sealed : Sealed crc32 dev 1 (t.primary crc32) := by
  have h := t.header_filled
  have hroom : t.offset + dev.pteBlkCnt + 33 ≤ dev.lba.toNat := t.room
  have hpte : 1 ≤ dev.pteBlkCnt := Nat.le_add_left 1 _
  have hcrc := setHeaderCrc_right crc32 (h := GptDevice.setEntriesCrc crc32 t.header t.entries)
    h.headerSize h.headerCrc32 t.pad
  refine ⟨h.signature, h.headerSize, hcrc, h.myLba, ?_, ?_, h.entriesSize, ?_, ?_⟩
  · refine UInt64.le_iff_toNat_le.mpr ?_
    have hfirst : (t.primary crc32).firstUsableLba.toNat = t.offset + 32 := h.firstUsableLba
    omega
  · have hlast : (t.primary crc32).lastUsableLba = dev.lba - 34 := h.lastUsableLba
    have hsub := lba_sub dev 34 (show 34 ≤ dev.lba.toNat by omega)
    rw [hlast]
    exact UInt64.le_iff_toNat_le.mpr (by omega)
  · exact UInt64.lt_iff_toNat_lt.mpr (show 1 < dev.lba.toNat by omega)
  · have hentry : (t.primary crc32).partitionEntryLba.toNat = t.offset := h.partitionEntryLba
    omega

theorem backup_entry : (t.backup crc32).partitionEntryLba.toNat = dev.lba.toNat - 33 := by
  have hroom : t.offset + dev.pteBlkCnt + 33 ≤ dev.lba.toNat := t.room
  have hpte : 1 ≤ dev.pteBlkCnt := Nat.le_add_left 1 _
  have hlba := dev.lba.toNat_lt
  have hentry : (t.backup crc32).partitionEntryLba = dev.lba - 34 + 1 :=
    congrArg (· + 1) t.header_filled.lastUsableLba
  have hsub : (dev.lba - 34).toNat = dev.lba.toNat - 34 := lba_sub dev 34 (show 34 ≤ dev.lba.toNat by omega)
  rw [hentry, UInt64.toNat_add, hsub]
  exact (Nat.mod_eq_of_lt (by change _ + 1 < 2 ^ 64; omega)).trans (by change _ + 1 = _; omega)

theorem backup_lba (t : GptTable dev) : (dev.lba - 1).toNat = dev.lba.toNat - 1 :=
  lba_sub dev 1 (by have := t.room; change 1 ≤ dev.lba.toNat; omega)

theorem backup_sealed : Sealed crc32 dev (dev.lba - 1) (t.backup crc32) := by
  have h := t.header_filled
  have hp := t.primary_sealed crc32
  have hroom : t.offset + dev.pteBlkCnt + 33 ≤ dev.lba.toNat := t.room
  have hpte := dev.pteBlkCnt_le
  have hcrc := setHeaderCrc_right crc32 (h := GptDevice.swapLbas (t.primary crc32)) h.headerSize rfl t.pad
  refine ⟨h.signature, h.headerSize, hcrc, h.alternateLba, hp.firstUsableLba, hp.lastUsableLba, h.entriesSize, ?_, ?_⟩
  · refine UInt64.lt_iff_toNat_lt.mpr ?_
    rw [t.backup_lba]
    omega
  · rw [t.backup_entry]
    omega

/-! ## What is on the disk -/

/-- Both copies of the table are on the disk. -/
structure OnDisk (crc32 : List UInt8 → UInt32) (disk : Disk) (t : GptTable dev) : Prop where
  primary : window disk dev.blksz dev.blksz = (t.primary crc32).bytes ++ t.pad
  entries : window disk (t.offset * dev.blksz) (dev.pteBlkCnt * dev.blksz) = t.entries
  backup : window disk ((dev.lba.toNat - 1) * dev.blksz) dev.blksz = (t.backup crc32).bytes ++ t.pad
  backupEntries :
    window disk ((dev.lba.toNat - 33) * dev.blksz) (dev.pteBlkCnt * dev.blksz) = t.entries

/-- What lies where the primary entries of the table go, after `k` blocks of them. -/
def torn (disk : Disk) (k : Nat) : List UInt8 :=
  window (overwrite disk (t.offset * dev.blksz) (t.entries.take (k * dev.blksz)))
    (t.offset * dev.blksz) (dev.gptEntryNumbers * sizeofGptEntry)

theorem layout :
    2 * dev.blksz ≤ t.offset * dev.blksz ∧
      t.offset * dev.blksz + dev.pteBlkCnt * dev.blksz ≤ (dev.lba.toNat - 33) * dev.blksz ∧
      (dev.lba.toNat - 33) * dev.blksz + dev.pteBlkCnt * dev.blksz ≤ (dev.lba.toNat - 1) * dev.blksz := by
  have hroom : t.offset + dev.pteBlkCnt + 33 ≤ dev.lba.toNat := t.room
  have hpte := dev.pteBlkCnt_le
  rw [← Nat.add_mul, ← Nat.add_mul]
  exact ⟨Nat.mul_le_mul_right _ t.two_le_offset, Nat.mul_le_mul_right _ (by omega), Nat.mul_le_mul_right _ (by omega)⟩

theorem length_mbr (dev : GptDevice) (disk : Disk) :
    (dev.protectiveMbr (window disk 0 dev.blksz)).length = 1 * dev.blksz := by
  have hblksz := dev.blksz_ge
  simp only [GptDevice.protectiveMbr, List.length_append, List.length_take, List.length_drop,
    length_window, length_toLe, List.length_singleton]
  omega

theorem length_block (h : GptHeader) : (h.bytes ++ t.pad).length = 1 * dev.blksz := by
  rw [List.length_append, GptHeader.length_bytes, t.length_pad, Nat.one_mul]

/-- The disk after `n` blocks: each write is there as far as it has come. -/
theorem interrupted_eq (disk : Disk) (n : Nat) :
    dev.interrupted crc32 disk t.header t.pad t.entries n =
      overwrite (overwrite (overwrite (overwrite (overwrite disk
        (0 * dev.blksz) ((dev.protectiveMbr (window disk 0 dev.blksz)).take (n * dev.blksz)))
        (1 * dev.blksz) (((t.primary crc32).bytes ++ t.pad).take ((n - 1) * dev.blksz)))
        (t.offset * dev.blksz) (t.entries.take ((n - 1 - 1) * dev.blksz)))
        ((dev.lba.toNat - 33) * dev.blksz) (t.entries.take ((n - 1 - 1 - dev.pteBlkCnt) * dev.blksz)))
        ((dev.lba.toNat - 1) * dev.blksz) (((t.backup crc32).bytes ++ t.pad).take
          ((n - 1 - 1 - dev.pteBlkCnt - dev.pteBlkCnt) * dev.blksz)) := by
  have hpos : 0 < dev.blksz := by have := dev.blksz_ge; omega
  have hentry : (t.primary crc32).partitionEntryLba.toNat = t.offset := t.header_filled.partitionEntryLba
  have hbackup : ((t.backup crc32).lastUsableLba + 1).toNat = dev.lba.toNat - 33 := t.backup_entry crc32
  have hlba : (t.backup crc32).myLba.toNat = dev.lba.toNat - 1 :=
    (congrArg UInt64.toNat t.header_filled.alternateLba).trans t.backup_lba
  have hwrites : dev.writeGptTable crc32 disk t.header t.pad t.entries =
      [(0, dev.protectiveMbr (window disk 0 dev.blksz)), (1, (t.primary crc32).bytes ++ t.pad),
        (t.offset, t.entries), (dev.lba.toNat - 33, t.entries),
        (dev.lba.toNat - 1, (t.backup crc32).bytes ++ t.pad)] := by
    rw [← hentry, ← hbackup, ← hlba]
    rfl
  simp only [GptDevice.interrupted, hwrites, List.flatMap_cons, List.flatMap_nil, List.append_nil,
    applyWrites_take_append, length_blockWrites, length_mbr, t.length_block, t.length_entries,
    Nat.mul_div_cancel _ hpos, applyWrites_take _ _ hpos (length_mbr dev disk),
    applyWrites_take _ _ hpos (t.length_block _), applyWrites_take _ _ hpos t.length_entries]

/-! ## The table that is found -/

section

variable {crc32} {d : Disk} (hheader : window d dev.blksz dev.blksz = (t.primary crc32).bytes ++ t.pad)
include hheader

theorem isGptValid_primary :
    dev.isGptValid crc32 d 1 =
      if crc32 (window d (t.offset * dev.blksz) (dev.gptEntryNumbers * sizeofGptEntry)) = crc32 t.table
      then .ok (t.primary crc32, window d (t.offset * dev.blksz) (dev.pteBlkCnt * dev.blksz))
      else .error .entriesCrc := by
  have hentry : (t.primary crc32).partitionEntryLba.toNat = t.offset := t.header_filled.partitionEntryLba
  have hcrc : (t.primary crc32).partitionEntryArrayCrc32 = crc32 t.table :=
    congrArg (fun n => crc32 (t.entries.take n)) t.header_filled.entriesSize
  have hblock : window d ((1 : UInt64).toNat * dev.blksz) dev.blksz = (t.primary crc32).bytes ++ t.pad :=
    (congrArg (window d · dev.blksz) (Nat.one_mul _)).trans hheader
  have hvalid := (t.primary_sealed crc32).isGptValid hblock
  rwa [hentry, hcrc] at hvalid

theorem finds_primary (hentries : window d (t.offset * dev.blksz) (dev.gptEntryNumbers * sizeofGptEntry) = t.table) :
    ∃ h pte, dev.findGpt crc32 d = .ok (h, pte) ∧
      pte.take (dev.gptEntryNumbers * sizeofGptEntry) = t.table := by
  have hvalid := t.isGptValid_primary hheader
  rw [hentries, if_pos rfl] at hvalid
  refine ⟨t.primary crc32, window d (t.offset * dev.blksz) (dev.pteBlkCnt * dev.blksz), ?_, ?_⟩
  · rw [GptDevice.findGpt, gptPrimaryPartitionTableLba, hvalid]
  · rw [take_window _ _ dev.size_le, hentries]

theorem primary_invalid {found : List UInt8}
    (hentries : window d (t.offset * dev.blksz) (dev.gptEntryNumbers * sizeofGptEntry) = found)
    (hcrc : crc32 found ≠ crc32 t.table) : dev.isGptValid crc32 d 1 = .error .entriesCrc := by
  rw [t.isGptValid_primary hheader, hentries, if_neg hcrc]

end

variable {crc32} in
theorem finds_backup {d : Disk} {e : GptError} (hprimary : dev.isGptValid crc32 d 1 = .error e)
    (hheader : window d ((dev.lba.toNat - 1) * dev.blksz) dev.blksz = (t.backup crc32).bytes ++ t.pad)
    (hentries : window d ((dev.lba.toNat - 33) * dev.blksz) (dev.gptEntryNumbers * sizeofGptEntry) =
      t.table) :
    ∃ h pte, dev.findGpt crc32 d = .ok (h, pte) ∧
      pte.take (dev.gptEntryNumbers * sizeofGptEntry) = t.table := by
  have hcrc : (t.backup crc32).partitionEntryArrayCrc32 = crc32 t.table :=
    congrArg (fun n => crc32 (t.entries.take n)) t.header_filled.entriesSize
  have hblock : window d ((dev.lba - 1).toNat * dev.blksz) dev.blksz = (t.backup crc32).bytes ++ t.pad := by
    rw [t.backup_lba, hheader]
  have hvalid := (t.backup_sealed crc32).isGptValid hblock
  rw [t.backup_entry, hentries, hcrc, if_pos rfl] at hvalid
  refine ⟨t.backup crc32, window d ((dev.lba.toNat - 33) * dev.blksz) (dev.pteBlkCnt * dev.blksz), ?_, ?_⟩
  · rw [GptDevice.findGpt, gptPrimaryPartitionTableLba, hprimary]
    exact hvalid
  · rw [take_window _ _ dev.size_le, hentries]

theorem OnDisk.table_eq {t : GptTable dev} {start : Nat}
    (h : window disk start (dev.pteBlkCnt * dev.blksz) = t.entries) :
    window disk start (dev.gptEntryNumbers * sizeofGptEntry) = t.table := by
  rw [table, ← h, take_window _ _ dev.size_le]

theorem take_entries {k : Nat} (hk : dev.pteBlkCnt ≤ k) :
    t.entries.take (k * dev.blksz) = t.entries := by
  have hle := Nat.mul_le_mul_right dev.blksz hk
  exact List.take_of_length_le (by rw [t.length_entries]; exact hle)

theorem take_block (h : GptHeader) {k : Nat} (hk : 1 ≤ k) :
    (h.bytes ++ t.pad).take (k * dev.blksz) = h.bytes ++ t.pad :=
  List.take_of_length_le (by rw [t.length_block]; exact Nat.mul_le_mul_right _ hk)

theorem window_entries (f : Disk) (start : Nat) :
    window (overwrite f start t.entries) start (dev.pteBlkCnt * dev.blksz) = t.entries := by
  rw [← t.length_entries]
  exact window_overwrite _ _ _

theorem window_block (f : Disk) (start : Nat) (h : GptHeader) :
    window (overwrite f start (h.bytes ++ t.pad)) start dev.blksz = h.bytes ++ t.pad := by
  have hself := window_overwrite f start (h.bytes ++ t.pad)
  rwa [t.length_block, Nat.one_mul] at hself

theorem torn_of_le {k : Nat} (hk : dev.pteBlkCnt ≤ k) : t.torn disk k = t.table := by
  refine OnDisk.table_eq ?_
  rw [t.take_entries hk]
  exact t.window_entries _ _

variable (disk)

theorem header_interrupted {n : Nat} (hn : 2 ≤ n) :
    window (dev.interrupted crc32 disk t.header t.pad t.entries n) dev.blksz dev.blksz =
      (t.primary crc32).bytes ++ t.pad := by
  obtain ⟨h1, h2, h3⟩ := t.layout
  rw [t.interrupted_eq, window_overwrite_of_disjoint _ (.inl (by omega)),
    window_overwrite_of_disjoint _ (.inl (by omega)), window_overwrite_of_disjoint _ (.inl (by omega)),
    t.take_block _ (by omega), Nat.one_mul]
  exact t.window_block _ _ _

/-- From the third block on, the new entries are written over what was in their place. -/
theorem entries_interrupted (n : Nat) {len : Nat} (hlen : len ≤ dev.pteBlkCnt * dev.blksz) :
    window (dev.interrupted crc32 disk t.header t.pad t.entries n) (t.offset * dev.blksz) len =
      window (overwrite disk (t.offset * dev.blksz) (t.entries.take ((n - 1 - 1) * dev.blksz)))
        (t.offset * dev.blksz) len := by
  obtain ⟨h1, h2, h3⟩ := t.layout
  have hmbr := length_mbr dev disk
  have hprimary := t.length_block (t.primary crc32)
  rw [t.interrupted_eq, window_overwrite_of_disjoint _ (.inl (by omega)),
    window_overwrite_of_disjoint _ (.inl (by omega))]
  refine window_overwrite_congr _ _ fun a ha _ => ?_
  rw [overwrite_outside (.inr ?_), overwrite_outside (.inr ?_)]
  · have := List.length_take_le' (n * dev.blksz) (dev.protectiveMbr (window disk 0 dev.blksz))
    omega
  · have := List.length_take_le' ((n - 1) * dev.blksz) ((t.primary crc32).bytes ++ t.pad)
    omega

theorem behind_interrupted {n start : Nat} (len : Nat) (hn : n ≤ 2 + dev.pteBlkCnt)
    (hstart : (dev.lba.toNat - 33) * dev.blksz ≤ start) :
    window (dev.interrupted crc32 disk t.header t.pad t.entries n) start len = window disk start len := by
  obtain ⟨h1, h2, h3⟩ := t.layout
  have hmbr := length_mbr dev disk
  have hprimary := t.length_block (t.primary crc32)
  have hentries := t.length_entries
  have h4 := List.length_take_le' (n * dev.blksz) (dev.protectiveMbr (window disk 0 dev.blksz))
  have h5 := List.length_take_le' ((n - 1) * dev.blksz) ((t.primary crc32).bytes ++ t.pad)
  have h6 := List.length_take_le' ((n - 1 - 1) * dev.blksz) t.entries
  have hzero : n - 1 - 1 - dev.pteBlkCnt = 0 := by omega
  rw [t.interrupted_eq, hzero, Nat.zero_sub, Nat.zero_mul, List.take_zero, List.take_zero, overwrite_nil,
    overwrite_nil, window_overwrite_of_disjoint _ (.inr (by omega)),
    window_overwrite_of_disjoint _ (.inr (by omega)), window_overwrite_of_disjoint _ (.inr (by omega))]

theorem before_interrupted {n start : Nat} (len : Nat) (hn : n ≤ 1) (hstart : dev.blksz ≤ start) :
    window (dev.interrupted crc32 disk t.header t.pad t.entries n) start len = window disk start len := by
  have hmbr := length_mbr dev disk
  have hle := List.length_take_le' (n * dev.blksz) (dev.protectiveMbr (window disk 0 dev.blksz))
  have hzero : n - 1 = 0 := by omega
  simp only [t.interrupted_eq, hzero, Nat.zero_sub, Nat.zero_mul, List.take_zero, overwrite_nil]
  exact window_overwrite_of_disjoint _ (.inr (by omega))

theorem onDisk_interrupted {n : Nat} (hn : 3 + dev.pteBlkCnt + dev.pteBlkCnt ≤ n) :
    t.OnDisk crc32 (dev.interrupted crc32 disk t.header t.pad t.entries n) := by
  obtain ⟨h1, h2, h3⟩ := t.layout
  refine ⟨t.header_interrupted crc32 disk (by omega), ?_, ?_, ?_⟩
  · rw [t.entries_interrupted crc32 disk n (Nat.le_refl _), t.take_entries (by omega)]
    exact t.window_entries _ _
  · rw [t.interrupted_eq, t.take_block (t.backup crc32) (by omega)]
    exact t.window_block _ _ _
  · rw [t.interrupted_eq, window_overwrite_of_disjoint _ (.inl (by omega)),
      t.take_entries (k := n - 1 - 1 - dev.pteBlkCnt) (by omega)]
    exact t.window_entries _ _

end GptTable

/-- Wherever the rewriting is interrupted, a table is found, and its entries are those of the old one or of the
new one. -/
theorem write_gpt_table_crash_safe (crc32 : List UInt8 → UInt32) (dev : GptDevice) (disk : Disk)
    (old new : GptTable dev) (hold : old.OnDisk crc32 disk)
    (hcrc : ∀ k ≤ dev.pteBlkCnt, crc32 (new.torn disk k) = crc32 new.table → new.torn disk k = new.table)
    (n : Nat) :
    ∃ h pte, dev.findGpt crc32 (dev.interrupted crc32 disk new.header new.pad new.entries n) =
        .ok (h, pte) ∧
      (pte.take (dev.gptEntryNumbers * sizeofGptEntry) = old.table ∨
        pte.take (dev.gptEntryNumbers * sizeofGptEntry) = new.table) := by
  obtain ⟨h₁, h₂, h₃⟩ := old.layout
  rcases Nat.lt_or_ge n 2 with hn | hn
  · -- the old primary copy
    have hbefore := fun start (hstart : dev.blksz ≤ start) len =>
      new.before_interrupted crc32 disk len (show n ≤ 1 by omega) hstart
    obtain ⟨h, pte, hfind, hpte⟩ := old.finds_primary ((hbefore _ (Nat.le_refl _) _).trans hold.primary)
      ((hbefore _ (by omega) _).trans (GptTable.OnDisk.table_eq hold.entries))
    exact ⟨h, pte, hfind, .inl hpte⟩
  have hheader := new.header_interrupted crc32 disk hn
  have hentries : _ = new.torn disk (n - 1 - 1) := new.entries_interrupted crc32 disk n dev.size_le
  by_cases heq : crc32 (new.torn disk (n - 1 - 1)) = crc32 new.table
  · -- the new primary copy
    have htorn : new.torn disk (n - 1 - 1) = new.table := by
      rcases Nat.le_total (n - 1 - 1) dev.pteBlkCnt with hk | hk
      · exact hcrc _ hk heq
      · exact new.torn_of_le hk
    obtain ⟨h, pte, hfind, hpte⟩ := new.finds_primary hheader (hentries.trans htorn)
    exact ⟨h, pte, hfind, .inr hpte⟩
  · -- the new header over entries that are not its own, and the old backup
    have hk : n - 1 - 1 < dev.pteBlkCnt := Nat.lt_of_not_le fun hk =>
      heq (congrArg crc32 (new.torn_of_le hk))
    have hbehind := fun start (hstart : (dev.lba.toNat - 33) * dev.blksz ≤ start) len =>
      new.behind_interrupted crc32 disk len (show n ≤ 2 + dev.pteBlkCnt by omega) hstart
    obtain ⟨h, pte, hfind, hpte⟩ := old.finds_backup (new.primary_invalid hheader hentries heq)
      ((hbehind _ (by omega) _).trans hold.backup)
      ((hbehind _ (Nat.le_refl _) _).trans (GptTable.OnDisk.table_eq hold.backupEntries))
    exact ⟨h, pte, hfind, .inl hpte⟩

def smallDevice : GptDevice where
  blksz := 512
  lba := 100
  gptEntryNumbers := 1
  blksz_ge := by decide
  entries_pos := by decide
  entries_le := by decide

def smallTable (b : UInt8) : GptTable smallDevice where
  header := (smallDevice.gptFillHeader (.ofBytes []) none (some (Vector.replicate 16 0))).get rfl
  config := none
  pad := List.replicate 420 0
  entries := List.replicate 512 b
  filled := ⟨_, _, (Option.some_get _).symm⟩
  length_pad := by rw [List.length_replicate]; rfl
  length_entries := by rw [List.length_replicate]; rfl
  room := by decide

/-- The loop of `lib/crc32.c`, bit by bit. -/
def crc32Bits : List Bool → UInt32 → UInt32
  | [], crc => crc
  | bit :: bits, crc =>
    if (crc &&& 1 = 1) ≠ bit then crc32Bits bits ((crc >>> 1) ^^^ 0xedb88320) else crc32Bits bits (crc >>> 1)

def bitCrc32 (bytes : List UInt8) : UInt32 :=
  ~~~ crc32Bits (bytes.flatMap fun b => (List.range 8).map b.toNat.testBit) 0xffffffff

def smallDisk : Disk :=
  smallDevice.interrupted bitCrc32 (fun _ => 0) (smallTable 0).header (smallTable 0).pad (smallTable 0).entries 5

/-- The rewriting is interrupted behind the primary header. -/
theorem write_gpt_table_crash_safe_small :
    ∃ h pte, smallDevice.findGpt bitCrc32 (smallDevice.interrupted bitCrc32 smallDisk
        (smallTable 1).header (smallTable 1).pad (smallTable 1).entries 2) = .ok (h, pte) ∧
      (pte.take 128 = (smallTable 0).table ∨ pte.take 128 = (smallTable 1).table) := by
  have hold : (smallTable 0).OnDisk bitCrc32 smallDisk :=
    (smallTable 0).onDisk_interrupted bitCrc32 (fun _ => 0) (show 3 + 1 + 1 ≤ 5 by decide)
  refine write_gpt_table_crash_safe bitCrc32 smallDevice smallDisk (smallTable 0) (smallTable 1) hold
    (fun k hk hcrc => ?_) 2
  rcases Nat.eq_zero_or_pos k with rfl | hpos
  · have htorn : (smallTable 1).torn smallDisk 0 = (smallTable 0).table := by
      rw [GptTable.torn, Nat.zero_mul, List.take_zero, overwrite_nil]
      exact GptTable.OnDisk.table_eq hold.entries
    rw [htorn] at hcrc
    exact absurd hcrc (by decide +kernel)
  · exact (smallTable 1).torn_of_le hpos

end Armada3720.Part
