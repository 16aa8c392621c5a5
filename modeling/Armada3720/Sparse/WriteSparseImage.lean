import Armada3720.Lib.LittleEndian
import Armada3720.Lib.Window

/-!
# Writing a sparse image

`image-sparse.c`: an Android sparse image is written to a storage, chunk by chunk. It is read as it lies in
memory, with nothing assumed about it.
-/

namespace Armada3720.Sparse

open Lib

/-- The number of `w` bytes at an address of memory. -/
def leAt (mem : Nat → UInt8) (off w : Nat) : Nat := ofLe (window mem off w)

/-- The fields of `sparse_header_t` that are used. -/
structure SparseHeader where
  fileHdrSz : Nat
  chunkHdrSz : Nat
  blkSz : Nat
  totalBlks : Nat
  totalChunks : Nat

def sizeofSparseHeader : Nat := 28

def sizeofChunkHeader : Nat := 12

def SparseHeader.read (mem : Nat → UInt8) (off : Nat) : SparseHeader where
  fileHdrSz := leAt mem (off + 8) 2
  chunkHdrSz := leAt mem (off + 10) 2
  blkSz := leAt mem (off + 12) 4
  totalBlks := leAt mem (off + 16) 4
  totalChunks := leAt mem (off + 20) 4

/-- The fields of `chunk_header_t` that are used. -/
structure ChunkHeader where
  chunkType : Nat
  chunkSz : Nat
  totalSz : Nat

def ChunkHeader.read (mem : Nat → UInt8) (off : Nat) : ChunkHeader where
  chunkType := leAt mem off 2
  chunkSz := leAt mem (off + 4) 4
  totalSz := leAt mem (off + 8) 4

inductive ChunkType
  | raw | fill | dontCare | crc32
  deriving DecidableEq, Repr

def ChunkType.code : ChunkType → Nat
  | .raw => 0xCAC1
  | .fill => 0xCAC2
  | .dontCare => 0xCAC3
  | .crc32 => 0xCAC4

def ChunkType.ofCode? (n : Nat) : Option ChunkType :=
  if n = 0xCAC1 then some .raw
  else if n = 0xCAC2 then some .fill
  else if n = 0xCAC3 then some .dontCare
  else if n = 0xCAC4 then some .crc32
  else none

/-- `struct sparse_storage`; a buffer is the memory from its address on. -/
structure SparseStorage (σ : Type*) where
  blksz : Nat
  start : Nat
  size : Nat
  write : σ → Nat → Nat → (Nat → UInt8) → Nat × σ
  reserve : σ → Nat → Nat → Nat × σ

/-- How the function ends. -/
inductive SparseResult
  | okay
  | fail (reason : String)
  /-- The loop that fills makes no progress. -/
  | hangs
  deriving DecidableEq, Repr

def fillbufSize : Nat := 1024 * 512

/-- Where the function is: in the image, on the storage, and the blocks it has counted. -/
structure Cursor (σ : Type*) where
  off : Nat
  blk : Nat
  totalBlocks : Nat
  store : σ

namespace SparseStorage

variable {σ : Type*} (info : SparseStorage σ)

def fillBufNumBlks : Nat := fillbufSize / info.blksz

/-- The buffer with the fill value in every word; `uninit` is what the memory held before. -/
def fillBuf (value : List UInt8) (uninit : Nat → UInt8) : Nat → UInt8 := fun k =>
  if k < info.blksz * info.fillBufNumBlks / 4 * 4 then value.getD (k % 4) 0 else uninit k

/-- A signed number of 32 bits as a block count. -/
def toLba (n : Int) : Nat := (n % 2 ^ 64).toNat

/-- The number of blocks of the next piece: `j`, an `int`. -/
def fillPiece (blkcnt : Nat) (i : Int) : Int :=
  let j := Int.bmod (blkcnt - i) (2 ^ 32)
  if (info.fillBufNumBlks : Int) < j then info.fillBufNumBlks else j

/-- `i` is an `int`. There are no more rounds than blocks, unless there is no progress at all. -/
def fillLoop (blkcnt : Nat) (buf : Nat → UInt8) :
    Nat → Int → Nat → σ → Except (SparseResult × σ) (Nat × σ)
  | 0, _, _, store => .error (.hangs, store)
  | fuel + 1, i, blk, store =>
    if toLba i < blkcnt then
      let j := info.fillPiece blkcnt i
      let r := info.write store blk (toLba j) buf
      if r.1 < toLba j then .error (.fail "flash write failure", r.2)
      else fillLoop blkcnt buf fuel (Int.bmod (i + j) (2 ^ 32)) ((blk + r.1) % 2 ^ 64) r.2
    else .ok (blk, store)

/-- The blocks would lie behind the end of the partition. -/
def exceeds (blk blkcnt : Nat) : Bool :=
  (info.start + info.size) % 2 ^ 64 < (blk + blkcnt) % 2 ^ 64

/-- A `CHUNK_TYPE_RAW` chunk, the cursor being at its data. -/
def rawChunk (mem : Nat → UInt8) (h : SparseHeader) (ch : ChunkHeader) (dataSz : Nat) (c : Cursor σ) :
    Except (SparseResult × σ) (Cursor σ) :=
  let blkcnt := dataSz / info.blksz
  if ch.totalSz ≠ (h.chunkHdrSz + dataSz) % 2 ^ 32 then
    .error (.fail "Bogus chunk size for chunk type Raw", c.store)
  else if info.exceeds c.blk blkcnt then
    .error (.fail "Request would exceed partition size!", c.store)
  else
    let r := info.write c.store c.blk blkcnt fun k => mem (c.off + k)
    if r.1 < blkcnt then .error (.fail "flash write failure", r.2)
    else
      .ok ⟨c.off + dataSz, (c.blk + r.1) % 2 ^ 64, (c.totalBlocks + ch.chunkSz) % 2 ^ 32, r.2⟩

/-- A `CHUNK_TYPE_FILL` chunk. `alloc` is the memory that `memalign` gives, if it does. -/
def fillChunk (mem : Nat → UInt8) (alloc : Option (Nat → UInt8)) (h : SparseHeader) (ch : ChunkHeader)
    (dataSz : Nat) (c : Cursor σ) : Except (SparseResult × σ) (Cursor σ) :=
  let blkcnt := dataSz / info.blksz
  if ch.totalSz ≠ h.chunkHdrSz + 4 then
    .error (.fail "Bogus chunk size for chunk type FILL", c.store)
  else
    match alloc with
    | none => .error (.fail "Malloc failed for: CHUNK_TYPE_FILL", c.store)
    | some uninit =>
      if info.exceeds c.blk blkcnt then
        .error (.fail "Request would exceed partition size!", c.store)
      else
        match info.fillLoop blkcnt (info.fillBuf (window mem c.off 4) uninit) (blkcnt + 1) 0 c.blk
            c.store with
        | .error e => .error e
        | .ok (blk, store) =>
          .ok ⟨c.off + 4, blk, (c.totalBlocks + dataSz / h.blkSz) % 2 ^ 32, store⟩

/-- A `CHUNK_TYPE_DONT_CARE` chunk. -/
def dontCareChunk (ch : ChunkHeader) (dataSz : Nat) (c : Cursor σ) : Cursor σ :=
  let r := info.reserve c.store c.blk (dataSz / info.blksz)
  ⟨c.off, (c.blk + r.1) % 2 ^ 64, (c.totalBlocks + ch.chunkSz) % 2 ^ 32, r.2⟩

/-- A `CHUNK_TYPE_CRC32` chunk. -/
def crc32Chunk (h : SparseHeader) (ch : ChunkHeader) (dataSz : Nat) (c : Cursor σ) :
    Except (SparseResult × σ) (Cursor σ) :=
  if ch.totalSz ≠ h.chunkHdrSz then
    .error (.fail "Bogus chunk size for chunk type Dont Care", c.store)
  else .ok ⟨c.off + dataSz, c.blk, (c.totalBlocks + ch.chunkSz) % 2 ^ 32, c.store⟩

/-- The place behind the header of the chunk at the cursor. -/
def skipHeader (h : SparseHeader) (c : Cursor σ) : Cursor σ :=
  { c with off := c.off + sizeofChunkHeader + (h.chunkHdrSz - sizeofChunkHeader) }

/-- One round of the loop over the chunks. -/
def chunk (mem : Nat → UInt8) (alloc : Option (Nat → UInt8)) (h : SparseHeader) (c : Cursor σ) :
    Except (SparseResult × σ) (Cursor σ) :=
  let ch := ChunkHeader.read mem c.off
  let dataSz := h.blkSz * ch.chunkSz % 2 ^ 32
  match ChunkType.ofCode? ch.chunkType with
  | some .raw => info.rawChunk mem h ch dataSz (skipHeader h c)
  | some .fill => info.fillChunk mem alloc h ch dataSz (skipHeader h c)
  | some .dontCare => .ok (info.dontCareChunk ch dataSz (skipHeader h c))
  | some .crc32 => crc32Chunk h ch dataSz (skipHeader h c)
  | none => .error (.fail "Unknown chunk type", c.store)

/-- The loop over the chunks, `n` of which are left. -/
def chunks (mem : Nat → UInt8) (alloc : Nat → Option (Nat → UInt8)) (h : SparseHeader) :
    Nat → Cursor σ → Except (SparseResult × σ) (Cursor σ)
  | 0, c => .ok c
  | n + 1, c =>
    match info.chunk mem (alloc n) h c with
    | .ok c => chunks mem alloc h n c
    | .error e => .error e

/-- Behind the header, and behind as many bytes again as it is longer than expected. -/
def skipFileHeader (h : SparseHeader) : Nat :=
  h.fileHdrSz + (if sizeofSparseHeader < h.fileHdrSz then h.fileHdrSz - sizeofSparseHeader else 0)

/-- How the function ends, and the storage after it. -/
def writeSparseImage (mem : Nat → UInt8) (alloc : Nat → Option (Nat → UInt8)) (store : σ) :
    SparseResult × σ :=
  let h := SparseHeader.read mem 0
  if h.blkSz % (info.blksz % 2 ^ 32) ≠ 0 then (.fail "sparse image block size issue", store)
  else
    match info.chunks mem alloc h h.totalChunks ⟨skipFileHeader h, info.start, 0, store⟩ with
    | .error e => e
    | .ok c =>
      if c.totalBlocks ≠ h.totalBlks then (.fail "sparse image write failure", c.store)
      else (.okay, c.store)

end SparseStorage

end Armada3720.Sparse
