import Armada3720.Sparse.WriteSparseImage

/-!
# A sparse image that is reported flashed

The expansion of an image is the data of the raw chunks, the repeated values of the fill chunks, and what was
there before for the others. `write_sparse_image` stores it, if the file header has the usual length, the chunks
have fewer than 2^32 bytes, and the buffer for fill chunks holds whole words.

`write_sparse_image_exact` says that this is enough for an image in the format. Another image may still be stored
right, where the misplaced data happen to be the same.
-/

namespace Armada3720.Sparse

open Lib

/-! ## Images -/

inductive ChunkBody
  | raw (data : List UInt8)
  | fill (value : List UInt8)
  | dontCare

/-- `reserved` and `extra` are the bytes of the header that mean nothing. -/
structure SparseChunk where
  body : ChunkBody
  chunkSz : Nat
  reserved : List UInt8
  extra : List UInt8

namespace SparseChunk

def chunkType (c : SparseChunk) : ChunkType :=
  match c.body with
  | .raw _ => .raw
  | .fill _ => .fill
  | .dontCare => .dontCare

/-- What follows the header. -/
def payload (c : SparseChunk) : List UInt8 :=
  match c.body with
  | .raw data => data
  | .fill value => value
  | .dontCare => []

def bytes (chunkHdrSz : Nat) (c : SparseChunk) : List UInt8 :=
  toLe 2 c.chunkType.code ++ (c.reserved ++ (toLe 4 c.chunkSz ++
    (toLe 4 (chunkHdrSz + c.payload.length) ++ (c.extra ++ c.payload))))

/-- What the partition should hold in the place of the chunk. -/
def expansion (blkSz : Nat) (c : SparseChunk) : List (Option UInt8) :=
  match c.body with
  | .raw data => data.map some
  | .fill value => (List.range (c.chunkSz * blkSz)).map fun k => some (value.getD (k % 4) 0)
  | .dontCare => List.replicate (c.chunkSz * blkSz) none

/-- The chunk is in the format. -/
structure WellFormed (chunkHdrSz blkSz : Nat) (c : SparseChunk) : Prop where
  reserved : c.reserved.length = 2
  extra : sizeofChunkHeader + c.extra.length = chunkHdrSz
  chunkSz : c.chunkSz < 2 ^ 32
  body : match c.body with
    | .raw data => data.length = c.chunkSz * blkSz ∧ chunkHdrSz + data.length < 2 ^ 32
    | .fill value => value.length = 4
    | .dontCare => True

end SparseChunk

/-- A sparse image in the format. -/
structure SparseImage where
  minorVersion : Nat
  fileHdrSz : Nat
  chunkHdrSz : Nat
  blkSz : Nat
  checksum : List UInt8
  extra : List UInt8
  chunks : List SparseChunk
  length_checksum : checksum.length = 4
  length_extra : sizeofSparseHeader + extra.length = fileHdrSz
  fileHdrSz_lt : fileHdrSz < 2 ^ 16
  chunkHdrSz_lt : chunkHdrSz < 2 ^ 16
  blkSz_pos : 0 < blkSz
  blkSz_lt : blkSz < 2 ^ 32
  blkSz_word : blkSz % 4 = 0
  chunks_ok : ∀ c ∈ chunks, c.WellFormed chunkHdrSz blkSz
  chunks_lt : chunks.length < 2 ^ 32
  blocks_lt : (chunks.map SparseChunk.chunkSz).sum < 2 ^ 32

namespace SparseImage

def totalBlks (img : SparseImage) : Nat := (img.chunks.map SparseChunk.chunkSz).sum

def bytes (img : SparseImage) : List UInt8 :=
  toLe 4 0xed26ff3a ++ (toLe 2 1 ++ (toLe 2 img.minorVersion ++ (toLe 2 img.fileHdrSz ++
    (toLe 2 img.chunkHdrSz ++ (toLe 4 img.blkSz ++ (toLe 4 img.totalBlks ++
      (toLe 4 img.chunks.length ++ (img.checksum ++ (img.extra ++
        (img.chunks.map (SparseChunk.bytes img.chunkHdrSz)).flatten)))))))))

def expansion (img : SparseImage) : List (Option UInt8) :=
  (img.chunks.map (SparseChunk.expansion img.blkSz)).flatten

end SparseImage

/-- A storage that stores exactly the blocks it is asked to. -/
structure ExactStorage (σ : Type*) extends SparseStorage σ where
  contents : σ → Nat → UInt8
  write_exact : ∀ s blk cnt buf, (write s blk cnt buf).1 = cnt ∧
    contents (write s blk cnt buf).2 = overwrite (contents s) (blk * blksz) (window buf 0 (cnt * blksz))
  reserve_exact : ∀ s blk cnt, (reserve s blk cnt).1 = cnt ∧ contents (reserve s blk cnt).2 = contents s

/-! ## Reading the image -/

open SparseChunk

section Reading

variable {mem : Nat → UInt8} {off : Nat}

theorem leAt_toLe {w n : Nat} (h : window mem off w = toLe w n) (hn : n < 256 ^ w) :
    leAt mem off w = n := by
  rw [leAt, h, ofLe_toLe, Nat.mod_eq_of_lt hn]

theorem SparseChunk.WellFormed.payload_lt {chunkHdrSz blkSz : Nat} {c : SparseChunk}
    (hc : c.WellFormed chunkHdrSz blkSz) (hhdr : chunkHdrSz < 2 ^ 16) :
    chunkHdrSz + c.payload.length < 2 ^ 32 := by
  have hbody := hc.body
  unfold payload
  cases hb : c.body with
  | raw data =>
    rw [hb] at hbody
    exact hbody.2
  | fill value =>
    rw [hb] at hbody
    rw [hbody]
    omega
  | dontCare =>
    dsimp only [List.length_nil]
    omega

theorem ChunkHeader.read_bytes {chunkHdrSz blkSz : Nat} {c : SparseChunk}
    (hc : c.WellFormed chunkHdrSz blkSz) (hhdr : chunkHdrSz < 2 ^ 16)
    (h : window mem off (c.bytes chunkHdrSz).length = c.bytes chunkHdrSz) :
    ChunkHeader.read mem off = ⟨c.chunkType.code, c.chunkSz, chunkHdrSz + c.payload.length⟩ ∧
      window mem (off + chunkHdrSz) c.payload.length = c.payload := by
  obtain ⟨htype, h⟩ := window_append_iff.mp h
  obtain ⟨-, h⟩ := window_append_iff.mp h
  obtain ⟨hchunkSz, h⟩ := window_append_iff.mp h
  obtain ⟨htotalSz, h⟩ := window_append_iff.mp h
  obtain ⟨-, hpayload⟩ := window_append_iff.mp h
  have hextra := hc.extra
  rw [sizeofChunkHeader] at hextra
  simp only [length_toLe, hc.reserved, Nat.add_assoc] at htype hchunkSz htotalSz hpayload
  have hoff : off + (2 + (2 + (4 + (4 + c.extra.length)))) = off + chunkHdrSz := by omega
  rw [hoff] at hpayload
  refine ⟨?_, hpayload⟩
  have hcode : c.chunkType.code < 256 ^ 2 := by cases c.chunkType <;> decide
  rw [ChunkHeader.read, leAt_toLe htype hcode, leAt_toLe hchunkSz hc.chunkSz,
    leAt_toLe htotalSz (hc.payload_lt hhdr)]

theorem SparseHeader.read_bytes {img : SparseImage} (h : window mem 0 img.bytes.length = img.bytes) :
    SparseHeader.read mem 0 = ⟨img.fileHdrSz, img.chunkHdrSz, img.blkSz, img.totalBlks, img.chunks.length⟩ ∧
      window mem img.fileHdrSz (img.chunks.map (bytes img.chunkHdrSz)).flatten.length =
        (img.chunks.map (bytes img.chunkHdrSz)).flatten := by
  obtain ⟨-, h⟩ := window_append_iff.mp h
  obtain ⟨-, h⟩ := window_append_iff.mp h
  obtain ⟨-, h⟩ := window_append_iff.mp h
  obtain ⟨hfile, h⟩ := window_append_iff.mp h
  obtain ⟨hchunk, h⟩ := window_append_iff.mp h
  obtain ⟨hblk, h⟩ := window_append_iff.mp h
  obtain ⟨htotal, h⟩ := window_append_iff.mp h
  obtain ⟨hcount, h⟩ := window_append_iff.mp h
  obtain ⟨-, h⟩ := window_append_iff.mp h
  obtain ⟨-, hchunks⟩ := window_append_iff.mp h
  have hextra := img.length_extra
  rw [sizeofSparseHeader] at hextra
  simp only [length_toLe, img.length_checksum, Nat.zero_add, Nat.reduceAdd] at hfile hchunk hblk htotal hcount hchunks
  rw [hextra] at hchunks
  refine ⟨?_, hchunks⟩
  simp only [SparseHeader.read, Nat.zero_add]
  rw [leAt_toLe hfile img.fileHdrSz_lt, leAt_toLe hchunk img.chunkHdrSz_lt, leAt_toLe hblk img.blkSz_lt,
    leAt_toLe htotal img.blocks_lt, leAt_toLe hcount img.chunks_lt]

end Reading

/-! ## Filling -/

section Filling

variable {σ : Type*} (st : ExactStorage σ)

/-- The bytes of a fill chunk, in a row. -/
def fillByte (value : List UInt8) (k : Nat) : UInt8 := value.getD (k % 4) 0

theorem fillByte_add (value : List UInt8) {n : Nat} (hn : n % 4 = 0) (k : Nat) :
    fillByte value (n + k) = fillByte value k := by
  rw [fillByte, Nat.add_mod, hn, Nat.zero_add, Nat.mod_mod, fillByte]

theorem window_fillByte (value : List UInt8) {n m : Nat} (hn : n % 4 = 0) :
    window (fillByte value) 0 (n + m) = window (fillByte value) 0 n ++ window (fillByte value) 0 m := by
  rw [window, List.range_add, List.map_append, List.map_map]
  refine congrArg₂ _ rfl (List.map_congr_left fun k _ => ?_)
  rw [Function.comp_apply, Nat.zero_add, Nat.zero_add, fillByte_add value hn]

/-- The rest of a fill chunk fits the buffer and is whole words, or the buffer is whole words. -/
def FillsWords (st : ExactStorage σ) (rest : Nat) : Prop :=
  st.blksz * st.fillBufNumBlks % 4 = 0 ∨ rest ≤ st.fillBufNumBlks ∧ rest * st.blksz % 4 = 0

theorem window_fillBuf (value : List UInt8) (uninit : Nat → UInt8) {rest j : Nat}
    (hwords : FillsWords st rest) (hj : j ≤ st.fillBufNumBlks) (hrest : j ≤ rest) :
    window (st.fillBuf value uninit) 0 (j * st.blksz) = window (fillByte value) 0 (j * st.blksz) := by
  refine window_congr fun k _ hk => if_pos ?_
  have hle : j * st.blksz ≤ st.blksz * st.fillBufNumBlks := by
    rw [Nat.mul_comm]
    exact Nat.mul_le_mul_left _ hj
  rcases hwords with hw | ⟨hle', hw⟩
  · omega
  · have h1 : j * st.blksz ≤ rest * st.blksz := Nat.mul_le_mul_right _ hrest
    have h2 : rest * st.blksz ≤ st.blksz * st.fillBufNumBlks := by
      rw [Nat.mul_comm]
      exact Nat.mul_le_mul_left _ hle'
    omega

/-- One round: `j` blocks, as many as are left or as the buffer has. -/
theorem fillLoop_succ (info : SparseStorage σ) {buf : Nat → UInt8} {blkcnt i j fuel blk : Nat}
    {store : σ} (hlt : blkcnt < 2 ^ 31) (hi : i < blkcnt)
    (hj : j = min (blkcnt - i) info.fillBufNumBlks) :
    info.fillLoop blkcnt buf (fuel + 1) i blk store =
      let r := info.write store blk j buf
      if r.1 < j then .error (.fail "flash write failure", r.2)
      else info.fillLoop blkcnt buf fuel (i + j : Nat) ((blk + r.1) % 2 ^ 64) r.2 := by
  have hlba : ∀ n : Nat, n ≤ blkcnt → SparseStorage.toLba n = n := fun n hn => by
    rw [SparseStorage.toLba]
    omega
  have hpiece : info.fillPiece blkcnt i = j := by
    have hrest : Int.bmod (blkcnt - i : Int) (2 ^ 32) = (blkcnt - i : Nat) := by
      rw [Int.bmod_def]
      omega
    simp only [SparseStorage.fillPiece, hrest]
    split <;> omega
  have hnext : Int.bmod ((i : Int) + (j : Nat)) (2 ^ 32) = (i + j : Nat) := by
    rw [Int.bmod_def]
    omega
  rw [SparseStorage.fillLoop, hlba i (by omega), if_pos hi]
  simp only [hpiece, hlba j (by omega), hnext]

theorem fillLoop_end (info : SparseStorage σ) {buf : Nat → UInt8} {blkcnt fuel blk : Nat}
    {store : σ} (hlt : blkcnt < 2 ^ 31) :
    info.fillLoop blkcnt buf (fuel + 1) blkcnt blk store = .ok (blk, store) := by
  rw [SparseStorage.fillLoop, SparseStorage.toLba, if_neg (by omega)]

/-- The loop writes the value in every word of the rest of the chunk. -/
theorem fillLoop_exact (value : List UInt8) (uninit : Nat → UInt8) {blkcnt : Nat} (hlt : blkcnt < 2 ^ 31)
    (hnum : 0 < st.fillBufNumBlks) :
    ∀ (fuel i blk : Nat) (store : σ), i ≤ blkcnt → blkcnt - i < fuel → blk + (blkcnt - i) < 2 ^ 64 →
      FillsWords st (blkcnt - i) →
      ∃ store', st.fillLoop blkcnt (st.fillBuf value uninit) fuel i blk store =
          .ok (blk + (blkcnt - i), store') ∧
        st.contents store' = overwrite (st.contents store) (blk * st.blksz)
          (window (fillByte value) 0 ((blkcnt - i) * st.blksz))
  | 0, _, _, _, _, hfuel, _, _ => absurd hfuel (Nat.not_lt_zero _)
  | fuel + 1, i, blk, store, hi, hfuel, hblk, hwords => by
    rcases Nat.eq_or_lt_of_le hi with rfl | hi
    · refine ⟨store, ?_, ?_⟩
      · rw [fillLoop_end _ hlt, Nat.sub_self, Nat.add_zero]
      · rw [Nat.sub_self, Nat.zero_mul]
        exact (overwrite_nil _ _).symm
    obtain ⟨j, hjdef⟩ : ∃ j, j = min (blkcnt - i) st.fillBufNumBlks := ⟨_, rfl⟩
    obtain ⟨hcount, hcontents⟩ := st.write_exact store blk j (st.fillBuf value uninit)
    have hrest : FillsWords st (blkcnt - (i + j)) := by
      rcases hwords with hw | ⟨hle, hw⟩
      · exact .inl hw
      · have hzero : blkcnt - (i + j) = 0 := by omega
        rw [hzero]
        exact .inr ⟨Nat.zero_le _, by rw [Nat.zero_mul]⟩
    obtain ⟨store', hloop, hstore'⟩ := fillLoop_exact value uninit hlt hnum fuel (i + j) (blk + j)
      (st.write store blk j (st.fillBuf value uninit)).2 (by omega) (by omega) (by omega) hrest
    refine ⟨store', ?_, ?_⟩
    · rw [fillLoop_succ _ hlt hi hjdef]
      dsimp only
      rw [hcount, if_neg (Nat.lt_irrefl j), Nat.mod_eq_of_lt (show blk + j < 2 ^ 64 by omega), hloop,
        show blk + j + (blkcnt - (i + j)) = blk + (blkcnt - i) by omega]
    · have hdata := window_fillBuf st value uninit hwords (j := j) (by omega) (by omega)
      have hoff : (blk + j) * st.blksz =
          blk * st.blksz + (window (fillByte value) 0 (j * st.blksz)).length := by
        rw [length_window, Nat.add_mul]
      rw [hstore', hcontents, hdata, hoff, overwrite_overwrite]
      refine congrArg _ ?_
      -- a piece that is not the last one is whole words
      rcases Nat.lt_or_ge j (blkcnt - i) with hj | hj
      · have hw : j * st.blksz % 4 = 0 := by
          rcases hwords with hw | ⟨hle, -⟩
          · rwa [show j = st.fillBufNumBlks by omega, Nat.mul_comm]
          · omega
        rw [← window_fillByte value hw, ← Nat.add_mul, show j + (blkcnt - (i + j)) = blkcnt - i by omega]
      · have h1 : blkcnt - (i + j) = 0 := by omega
        have h2 : blkcnt - i = j := by omega
        rw [h1, h2, Nat.zero_mul]
        exact List.append_nil _

end Filling

/-! ## One chunk -/

section Chunks

variable {σ : Type*} {st : ExactStorage σ} {h : SparseHeader} {mem : Nat → UInt8} {q : Nat}

/-- Unless the chunk is empty, the buffer holds a block, the count is an `int`, and no piece ends inside a word.
-/
def FillOk (st : ExactStorage σ) (blkSz : Nat) (c : SparseChunk) : Prop :=
  match c.body with
  | .fill _ => blkSz * c.chunkSz < 2 ^ 32 ∧ (c.chunkSz = 0 ∨
      0 < st.fillBufNumBlks ∧ blkSz * c.chunkSz / st.blksz < 2 ^ 31 ∧
        (st.blksz * st.fillBufNumBlks % 4 = 0 ∨ blkSz * c.chunkSz / st.blksz ≤ st.fillBufNumBlks))
  | _ => True

/-- What is known before a chunk: it is at the cursor, and it fits. -/
structure AtChunk (st : ExactStorage σ) (h : SparseHeader) (mem : Nat → UInt8) (q : Nat)
    (c : SparseChunk) (cur : Cursor σ) : Prop where
  chunk : c.WellFormed h.chunkHdrSz h.blkSz
  hdr : h.chunkHdrSz < 2 ^ 16
  bytes : window mem cur.off (c.bytes h.chunkHdrSz).length = c.bytes h.chunkHdrSz
  pos : 0 < st.blksz
  blkSz : h.blkSz = st.blksz * q
  word : h.blkSz % 4 = 0
  fits : cur.blk + q * c.chunkSz ≤ st.start + st.size
  size : st.start + st.size < 2 ^ 64
  blocks : cur.totalBlocks + c.chunkSz < 2 ^ 32

/-- The cursor is on the next chunk, `n` blocks further, and the expansion on the storage. -/
structure Done (st : ExactStorage σ) (h : SparseHeader) (c : SparseChunk) (cur cur' : Cursor σ) :
    Prop where
  off : cur'.off = cur.off + (c.bytes h.chunkHdrSz).length
  blk : cur'.blk = cur.blk + h.blkSz * c.chunkSz % 2 ^ 32 / st.blksz
  blocks : cur'.totalBlocks = cur.totalBlocks + c.chunkSz
  contents : st.contents cur'.store =
    patch (st.contents cur.store) (cur.blk * st.blksz) (c.expansion h.blkSz)

theorem AtChunk.blocks_eq {c : SparseChunk} {cur : Cursor σ} (hat : AtChunk st h mem q c cur) :
    h.blkSz * c.chunkSz / st.blksz = q * c.chunkSz := by
  rw [hat.blkSz, Nat.mul_assoc, Nat.mul_div_cancel_left _ hat.pos]

theorem AtChunk.blocks_le {c : SparseChunk} {cur : Cursor σ} (hat : AtChunk st h mem q c cur) :
    h.blkSz * c.chunkSz % 2 ^ 32 / st.blksz ≤ q * c.chunkSz := by
  rw [← hat.blocks_eq]
  exact Nat.div_le_div_right (Nat.mod_le _ _)

theorem AtChunk.not_exceeds {c : SparseChunk} {cur : Cursor σ} (hat : AtChunk st h mem q c cur) {n : Nat}
    (hn : n ≤ q * c.chunkSz) : st.exceeds cur.blk n = false := by
  have hfits := hat.fits
  have hsize := hat.size
  simp only [SparseStorage.exceeds, decide_eq_false_iff_not]
  omega

theorem length_chunk_bytes {c : SparseChunk} {chunkHdrSz blkSz : Nat} (hc : c.WellFormed chunkHdrSz blkSz) :
    (c.bytes chunkHdrSz).length = chunkHdrSz + c.payload.length := by
  have hextra := hc.extra
  rw [sizeofChunkHeader] at hextra
  simp only [bytes, List.length_append, length_toLe, hc.reserved]
  omega

section

variable {c : SparseChunk} {cur : Cursor σ} (hat : AtChunk st h mem q c cur)
include hat

theorem AtChunk.skipHeader :
    SparseStorage.skipHeader h cur = { cur with off := cur.off + h.chunkHdrSz } := by
  have hextra := hat.chunk.extra
  rw [SparseStorage.skipHeader, Nat.add_assoc, Nat.add_sub_cancel' (by omega)]

theorem AtChunk.mul_blksz : h.blkSz * c.chunkSz / st.blksz * st.blksz = c.chunkSz * h.blkSz := by
  rw [hat.blocks_eq, hat.blkSz]
  ring

theorem AtChunk.blk_lt {n : Nat} (hn : n ≤ q * c.chunkSz) : (cur.blk + n) % 2 ^ 64 = cur.blk + n := by
  have hfits := hat.fits
  have hsize := hat.size
  exact Nat.mod_eq_of_lt (by omega)

theorem AtChunk.raw {data : List UInt8} (hb : c.body = .raw data) (alloc : Option (Nat → UInt8)) :
    ∃ cur', st.chunk mem alloc h cur = .ok cur' ∧ Done st h c cur cur' := by
  obtain ⟨hread, hpayload⟩ := ChunkHeader.read_bytes hat.chunk hat.hdr hat.bytes
  have hbody := hat.chunk.body
  rw [hb] at hbody
  obtain ⟨hlen, hlt⟩ := hbody
  have hpay : c.payload = data := by rw [payload, hb]
  have htype : ChunkType.ofCode? c.chunkType.code = some .raw := by rw [chunkType, hb]; rfl
  have hdataSz : h.blkSz * c.chunkSz % 2 ^ 32 = h.blkSz * c.chunkSz := by
    rw [Nat.mul_comm]
    exact Nat.mod_eq_of_lt (by omega)
  have htotal : h.chunkHdrSz + data.length = (h.chunkHdrSz + h.blkSz * c.chunkSz) % 2 ^ 32 := by
    rw [Nat.mul_comm, ← hlen, Nat.mod_eq_of_lt hlt]
  have hle : h.blkSz * c.chunkSz / st.blksz ≤ q * c.chunkSz := Nat.le_of_eq hat.blocks_eq
  obtain ⟨hcount, hcontents⟩ := st.write_exact cur.store cur.blk (h.blkSz * c.chunkSz / st.blksz)
    fun k => mem (cur.off + h.chunkHdrSz + k)
  refine ⟨⟨cur.off + h.chunkHdrSz + h.blkSz * c.chunkSz, cur.blk + h.blkSz * c.chunkSz / st.blksz,
    cur.totalBlocks + c.chunkSz, _⟩, ?_, ?_, ?_, rfl, hcontents.trans ?_⟩
  · simp only [SparseStorage.chunk, hread, htype, hdataSz, SparseStorage.rawChunk, hat.skipHeader, hpay]
    rw [if_neg (not_not.mpr htotal), if_neg (by rw [hat.not_exceeds hle]; exact Bool.false_ne_true),
      if_neg (by rw [hcount]; exact Nat.lt_irrefl _), hcount, hat.blk_lt hle, Nat.mod_eq_of_lt hat.blocks]
  · rw [length_chunk_bytes hat.chunk, hpay, hlen, Nat.mul_comm h.blkSz, Nat.add_assoc]
  · rw [hdataSz]
  · rw [hat.mul_blksz, ← hlen, window_shift, ← hpay, hpayload, expansion, hb, hpay, patch_some]

theorem AtChunk.fill {value : List UInt8} (hb : c.body = .fill value) (hok : FillOk st h.blkSz c)
    (uninit : Nat → UInt8) (hpos : 0 < h.blkSz) :
    ∃ cur', st.chunk mem (some uninit) h cur = .ok cur' ∧ Done st h c cur cur' := by
  obtain ⟨hread, hpayload⟩ := ChunkHeader.read_bytes hat.chunk hat.hdr hat.bytes
  have hlen : value.length = 4 := by
    have hbody := hat.chunk.body
    rwa [hb] at hbody
  rw [FillOk, hb] at hok
  obtain ⟨hlt, hfill⟩ := hok
  have hpay : c.payload = value := by rw [payload, hb]
  have htype : ChunkType.ofCode? c.chunkType.code = some .fill := by rw [chunkType, hb]; rfl
  have hdataSz : h.blkSz * c.chunkSz % 2 ^ 32 = h.blkSz * c.chunkSz := Nat.mod_eq_of_lt hlt
  have hle : h.blkSz * c.chunkSz / st.blksz ≤ q * c.chunkSz := Nat.le_of_eq hat.blocks_eq
  have hvalue : window mem (cur.off + h.chunkHdrSz) 4 = value := by rw [← hlen, ← hpay, hpayload]
  obtain ⟨store', hloop, hcontents⟩ : ∃ store', st.fillLoop (h.blkSz * c.chunkSz / st.blksz)
      (st.fillBuf value uninit) (h.blkSz * c.chunkSz / st.blksz + 1) 0 cur.blk cur.store =
        .ok (cur.blk + h.blkSz * c.chunkSz / st.blksz, store') ∧
      st.contents store' = overwrite (st.contents cur.store) (cur.blk * st.blksz)
        (window (fillByte value) 0 (h.blkSz * c.chunkSz / st.blksz * st.blksz)) := by
    rcases hfill with hzero | ⟨hnum, hint, hwords⟩
    · refine ⟨cur.store, ?_, ?_⟩
      · rw [hzero, Nat.mul_zero, Nat.zero_div]
        rfl
      · rw [hzero, Nat.mul_zero, Nat.zero_div, Nat.zero_mul]
        exact (overwrite_nil _ _).symm
    · have hrest : FillsWords st (h.blkSz * c.chunkSz / st.blksz - 0) := by
        refine hwords.imp_right fun hle => ⟨hle, ?_⟩
        rw [Nat.sub_zero, hat.mul_blksz, Nat.mul_mod, hat.word, Nat.mul_zero, Nat.zero_mod]
      have hblk := Nat.lt_of_le_of_lt (Nat.le_trans (Nat.add_le_add_left hle _) hat.fits) hat.size
      exact fillLoop_exact st value uninit hint hnum _ 0 cur.blk cur.store (Nat.zero_le _)
        (Nat.lt_succ_self _) hblk hrest
  refine ⟨⟨cur.off + h.chunkHdrSz + 4, cur.blk + h.blkSz * c.chunkSz / st.blksz,
    cur.totalBlocks + c.chunkSz, store'⟩, ?_, ?_, ?_, rfl, hcontents.trans ?_⟩
  · simp only [SparseStorage.chunk, hread, htype, hdataSz, SparseStorage.fillChunk, hat.skipHeader, hpay,
      hlen, hvalue, ne_eq, not_true_eq_false, if_false, hat.not_exceeds hle, Bool.false_eq_true, hloop,
      Nat.mul_div_cancel_left _ hpos, Nat.mod_eq_of_lt hat.blocks]
  · rw [length_chunk_bytes hat.chunk, hpay, hlen, Nat.add_assoc]
  · rw [hdataSz]
  · rw [hat.mul_blksz, expansion, hb, ← patch_some, window, List.map_map]
    simp only [Function.comp_def, fillByte, Nat.zero_add]

theorem AtChunk.dontCare (hb : c.body = .dontCare) (alloc : Option (Nat → UInt8)) :
    ∃ cur', st.chunk mem alloc h cur = .ok cur' ∧ Done st h c cur cur' := by
  obtain ⟨hread, -⟩ := ChunkHeader.read_bytes hat.chunk hat.hdr hat.bytes
  have hpay : c.payload = [] := by rw [payload, hb]
  have htype : ChunkType.ofCode? c.chunkType.code = some .dontCare := by
    rw [chunkType, hb]; rfl
  obtain ⟨hcount, hcontents⟩ := st.reserve_exact cur.store cur.blk (h.blkSz * c.chunkSz % 2 ^ 32 / st.blksz)
  refine ⟨⟨cur.off + h.chunkHdrSz, cur.blk + h.blkSz * c.chunkSz % 2 ^ 32 / st.blksz,
    cur.totalBlocks + c.chunkSz, _⟩, ?_, ?_, rfl, rfl, hcontents.trans ?_⟩
  · simp only [SparseStorage.chunk, hread, htype, SparseStorage.dontCareChunk, hat.skipHeader]
    rw [hcount, hat.blk_lt hat.blocks_le, Nat.mod_eq_of_lt hat.blocks]
  · rw [length_chunk_bytes hat.chunk, hpay, List.length_nil, Nat.add_zero]
  · rw [expansion, hb, patch_none]

theorem AtChunk.done (hok : FillOk st h.blkSz c) (hpos : 0 < h.blkSz) {alloc : Option (Nat → UInt8)}
    (hmem : alloc ≠ none) : ∃ cur', st.chunk mem alloc h cur = .ok cur' ∧ Done st h c cur cur' := by
  obtain ⟨uninit, rfl⟩ := Option.ne_none_iff_exists'.mp hmem
  cases hb : c.body with
  | raw data => exact hat.raw hb _
  | fill value => exact hat.fill hb hok uninit hpos
  | dontCare => exact hat.dontCare hb _

end

/-! ## All chunks -/

/-- Nothing is written for the chunk. -/
def SparseChunk.Idle (c : SparseChunk) : Prop := c.body = .dontCare ∨ c.chunkSz = 0

/-- A chunk that is not cared for has fewer than 2^32 bytes, or nothing is written behind it. -/
def SkipOk (blkSz : Nat) (c : SparseChunk) (later : List SparseChunk) : Prop :=
  c.body = .dontCare → blkSz * c.chunkSz < 2 ^ 32 ∨ ∀ d ∈ later, d.Idle

/-- The chunks that the function gets right. -/
def ChunksOk (st : ExactStorage σ) (blkSz : Nat) : List SparseChunk → Prop
  | [] => True
  | c :: later => FillOk st blkSz c ∧ SkipOk blkSz c later ∧ ChunksOk st blkSz later

/-- What is known before some chunks: they are at the cursor, and they fit. -/
structure AtChunks (st : ExactStorage σ) (h : SparseHeader) (mem : Nat → UInt8) (q : Nat)
    (cs : List SparseChunk) (cur : Cursor σ) : Prop where
  chunks : ∀ c ∈ cs, c.WellFormed h.chunkHdrSz h.blkSz
  hdr : h.chunkHdrSz < 2 ^ 16
  bytes : window mem cur.off (cs.map (SparseChunk.bytes h.chunkHdrSz)).flatten.length =
    (cs.map (SparseChunk.bytes h.chunkHdrSz)).flatten
  pos : 0 < st.blksz
  blkSz_pos : 0 < h.blkSz
  blkSz : h.blkSz = st.blksz * q
  word : h.blkSz % 4 = 0
  fits : cur.blk + q * (cs.map SparseChunk.chunkSz).sum ≤ st.start + st.size
  size : st.start + st.size < 2 ^ 64
  blocks : cur.totalBlocks + (cs.map SparseChunk.chunkSz).sum < 2 ^ 32

variable {c : SparseChunk} {blkSz chunkHdrSz : Nat}

theorem AtChunks.head {cs : List SparseChunk} {cur : Cursor σ}
    (hat : AtChunks st h mem q (c :: cs) cur) : AtChunk st h mem q c cur := by
  have hfits := hat.fits
  have hblocks := hat.blocks
  have hbytes := hat.bytes
  rw [List.map_cons, List.flatten_cons] at hbytes
  rw [List.map_cons, List.sum_cons] at hfits hblocks
  rw [Nat.mul_add] at hfits
  exact ⟨hat.chunks c List.mem_cons_self, hat.hdr, (window_append_iff.mp hbytes).1, hat.pos, hat.blkSz,
    hat.word, by omega, hat.size, by omega⟩

theorem AtChunks.tail {cs : List SparseChunk} {cur cur' : Cursor σ}
    (hat : AtChunks st h mem q (c :: cs) cur) (hdone : Done st h c cur cur') :
    AtChunks st h mem q cs cur' := by
  have hfits := hat.fits
  have hblocks := hat.blocks
  have hbytes := hat.bytes
  have hle := hat.head.blocks_le
  rw [List.map_cons, List.flatten_cons] at hbytes
  rw [List.map_cons, List.sum_cons] at hfits hblocks
  rw [Nat.mul_add] at hfits
  refine ⟨fun d hd => hat.chunks d (List.mem_cons_of_mem _ hd), hat.hdr, ?_, hat.pos, hat.blkSz_pos,
    hat.blkSz, hat.word, ?_, hat.size, ?_⟩
  · rw [hdone.off]
    exact (window_append_iff.mp hbytes).2
  · rw [hdone.blk]
    omega
  · rw [hdone.blocks]
    omega

theorem length_expansion (hwf : c.WellFormed chunkHdrSz blkSz) : (c.expansion blkSz).length = c.chunkSz * blkSz := by
  have hbody := hwf.body
  unfold expansion
  cases hb : c.body with
  | raw data =>
    rw [hb] at hbody
    exact List.length_map _ |>.trans hbody.1
  | fill value => simp only [List.length_map, List.length_range]
  | dontCare => exact List.length_replicate

theorem SparseChunk.Idle.patch_eq (hc : c.Idle) (hwf : c.WellFormed chunkHdrSz blkSz)
    (f : Nat → UInt8) (start : Nat) : patch f start (c.expansion blkSz) = f := by
  rcases hc with hb | hz
  · rw [expansion, hb, patch_none]
  · have hlen := length_expansion hwf
    rw [hz, Nat.zero_mul] at hlen
    rw [List.eq_nil_of_length_eq_zero hlen, patch_nil]

theorem patch_idle (f : Nat → UInt8) :
    ∀ (cs : List SparseChunk) (start : Nat), (∀ c ∈ cs, c.WellFormed chunkHdrSz blkSz) →
      (∀ c ∈ cs, c.Idle) → patch f start (cs.map (expansion blkSz)).flatten = f
  | [], start, _, _ => patch_nil f start
  | c :: cs, start, hwf, hidle => by
    rw [List.map_cons, List.flatten_cons, patch_append,
      (hidle c List.mem_cons_self).patch_eq (hwf c List.mem_cons_self)]
    exact patch_idle f cs _ (fun d hd => hwf d (List.mem_cons_of_mem _ hd))
      fun d hd => hidle d (List.mem_cons_of_mem _ hd)

theorem ChunksOk.small_or_idle {later : List SparseChunk} (hok : ChunksOk st blkSz (c :: later))
    (hwf : c.WellFormed chunkHdrSz blkSz) :
    blkSz * c.chunkSz < 2 ^ 32 ∨ ∀ d ∈ later, d.Idle := by
  obtain ⟨hfill, hskip, -⟩ := hok
  have hbody := hwf.body
  unfold FillOk at hfill
  cases hb : c.body with
  | raw data =>
    rw [hb] at hbody
    rw [Nat.mul_comm]
    exact .inl (by omega)
  | fill value =>
    rw [hb] at hfill
    exact .inl hfill.1
  | dontCare => exact hskip hb

/-- The chunks leave the expansion of all of them behind. -/
theorem AtChunks.exact {alloc : Nat → Option (Nat → UInt8)} (hmem : ∀ n, alloc n ≠ none) :
    ∀ (cs : List SparseChunk) (cur : Cursor σ), AtChunks st h mem q cs cur → ChunksOk st h.blkSz cs →
      ∃ cur', st.chunks mem alloc h cs.length cur = .ok cur' ∧
        cur'.totalBlocks = cur.totalBlocks + (cs.map chunkSz).sum ∧
        st.contents cur'.store = patch (st.contents cur.store) (cur.blk * st.blksz)
          (cs.map (expansion h.blkSz)).flatten
  | [], cur, _, _ => ⟨cur, rfl, rfl, (patch_nil _ _).symm⟩
  | c :: cs, cur, hat, hok => by
    have hwf := hat.chunks c List.mem_cons_self
    obtain ⟨cur1, hchunk, hdone⟩ := hat.head.done hok.1 hat.blkSz_pos (hmem cs.length)
    have hat' := hat.tail hdone
    obtain ⟨cur', hchunks, hblocks, hcontents⟩ := AtChunks.exact hmem cs cur1 hat' hok.2.2
    refine ⟨cur', ?_, ?_, ?_⟩
    · rw [List.length_cons, SparseStorage.chunks, hchunk]
      exact hchunks
    · rw [hblocks, hdone.blocks, List.map_cons, List.sum_cons, Nat.add_assoc]
    · rw [hcontents, hdone.contents, List.map_cons, List.flatten_cons, patch_append]
      rcases hok.small_or_idle hwf with hsmall | hlater
      · -- the next chunk is written just behind this one
        rw [hdone.blk, Nat.mod_eq_of_lt hsmall, Nat.add_mul, hat.head.mul_blksz, length_expansion hwf]
      · rw [patch_idle _ _ _ hat'.chunks hlater, patch_idle _ _ _ hat'.chunks hlater]

end Chunks

/-! ## The image -/

section Images

variable {σ : Type*}

/-- An image in the format, with a block size that the storage divides and a header of the usual length, is
reported flashed, and the partition then holds its expansion and what it held before. -/
theorem write_sparse_image_exact (st : ExactStorage σ) (img : SparseImage) (mem : Nat → UInt8)
    (alloc : Nat → Option (Nat → UInt8)) (store : σ)
    (hmem : window mem 0 img.bytes.length = img.bytes) (halloc : ∀ n, alloc n ≠ none)
    (hfits : st.start * st.blksz + img.totalBlks * img.blkSz ≤ (st.start + st.size) * st.blksz)
    (hsize : st.start + st.size < 2 ^ 64) (hblksz : img.blkSz % st.blksz = 0)
    (hhdr : img.fileHdrSz = sizeofSparseHeader ∨ img.chunks = []) (hok : ChunksOk st img.blkSz img.chunks) :
    ∃ store', st.writeSparseImage mem alloc store = (.okay, store') ∧
      st.contents store' = patch (st.contents store) (st.start * st.blksz) img.expansion := by
  obtain ⟨hread, hbytes⟩ := SparseHeader.read_bytes hmem
  have hpos : 0 < st.blksz := by
    refine Nat.pos_of_ne_zero fun hzero => ?_
    rw [hzero, Nat.mod_zero] at hblksz
    exact img.blkSz_pos.ne' hblksz
  obtain ⟨q, hq⟩ := Nat.dvd_of_mod_eq_zero hblksz
  have hle : st.blksz ≤ img.blkSz := Nat.le_of_dvd img.blkSz_pos ⟨q, hq⟩
  have hlt : st.blksz % 2 ^ 32 = st.blksz := Nat.mod_eq_of_lt (Nat.lt_of_le_of_lt hle img.blkSz_lt)
  have hblocks : st.start + q * img.totalBlks ≤ st.start + st.size := by
    refine Nat.le_of_mul_le_mul_right (Nat.le_trans (Nat.le_of_eq ?_) hfits) hpos
    rw [hq]
    ring
  -- the chunks are where the function looks for them, if there are any
  obtain ⟨cur', hchunks, htotal, hcontents⟩ : ∃ cur', st.chunks mem alloc
      ⟨img.fileHdrSz, img.chunkHdrSz, img.blkSz, img.totalBlks, img.chunks.length⟩ img.chunks.length
      ⟨SparseStorage.skipFileHeader ⟨img.fileHdrSz, img.chunkHdrSz, img.blkSz, img.totalBlks,
        img.chunks.length⟩, st.start, 0, store⟩ = .ok cur' ∧
      cur'.totalBlocks = 0 + (img.chunks.map chunkSz).sum ∧
      st.contents cur'.store = patch (st.contents store) (st.start * st.blksz) img.expansion := by
    rcases hhdr with hhdr | hnone
    · refine AtChunks.exact halloc img.chunks _ ⟨img.chunks_ok, img.chunkHdrSz_lt, ?_, hpos,
        img.blkSz_pos, hq, img.blkSz_word, hblocks, hsize, ?_⟩ hok
      · rw [SparseStorage.skipFileHeader, if_neg (Nat.not_lt.mpr (Nat.le_of_eq hhdr)), Nat.add_zero]
        exact hbytes
      · exact Nat.lt_of_le_of_lt (Nat.le_of_eq (Nat.zero_add _)) img.blocks_lt
    · rw [SparseImage.expansion, hnone]
      exact ⟨_, rfl, rfl, (patch_nil _ _).symm⟩
  refine ⟨cur'.store, ?_, hcontents⟩
  rw [SparseStorage.writeSparseImage, hread]
  rw [hlt, if_neg (not_not.mpr hblksz), hchunks]
  exact if_neg (not_not.mpr (htotal.trans (Nat.zero_add _)))

/-- A partition of blocks of four bytes, from block 1 on, in memory. -/
def ramDisk (size : Nat) : ExactStorage (Nat → UInt8) where
  blksz := 4
  start := 1
  size := size
  write s blk cnt buf := (cnt, overwrite s (blk * 4) (window buf 0 (cnt * 4)))
  reserve s _ cnt := (cnt, s)
  contents s := s
  write_exact _ _ _ _ := ⟨rfl, rfl⟩
  reserve_exact _ _ _ := ⟨rfl, rfl⟩

/-- Two blocks with `gap` blocks between them. -/
def gapImage (gap : Nat) (hgap : gap < 2 ^ 31) : SparseImage where
  minorVersion := 0
  fileHdrSz := 28
  chunkHdrSz := 12
  blkSz := 4
  checksum := [0, 0, 0, 0]
  extra := []
  chunks := [⟨.raw [1, 2, 3, 4], 1, [0, 0], []⟩, ⟨.dontCare, gap, [0, 0], []⟩, ⟨.fill [5, 6, 7, 8], 1, [0, 0], []⟩]
  length_checksum := rfl
  length_extra := rfl
  fileHdrSz_lt := by decide
  chunkHdrSz_lt := by decide
  blkSz_pos := by decide
  blkSz_lt := by decide
  blkSz_word := rfl
  chunks_ok := by
    simp only [List.forall_mem_cons]
    exact ⟨⟨rfl, rfl, by decide, by decide⟩, ⟨rfl, rfl, Nat.lt_trans hgap (by decide), trivial⟩, ⟨rfl, rfl, by decide, rfl⟩,
      List.forall_mem_nil _⟩
  chunks_lt := (by decide : 3 < 2 ^ 32)
  blocks_lt := by
    simp only [List.map_cons, List.map_nil, List.sum_cons, List.sum_nil]
    omega

theorem write_sparse_image_gap_of_one :
    ∃ store', (ramDisk 3).writeSparseImage (fun a => (gapImage 1 (by decide)).bytes.getD a 0)
        (fun _ => some fun _ => 0) (fun _ => 0) = (.okay, store') ∧
      store' = patch (fun _ => 0) 4 (gapImage 1 (by decide)).expansion :=
  write_sparse_image_exact (ramDisk 3) (gapImage 1 (by decide)) _ _ _ (by decide +kernel)
    (fun _ => Option.some_ne_none _) (by decide) (by decide) rfl (.inl rfl)
    ⟨trivial, fun h => (nomatch h), trivial, fun _ => .inl (by decide),
      ⟨by decide, .inr ⟨by decide, by decide, .inl (by decide)⟩⟩, fun h => (nomatch h), trivial⟩

/-- With a gap of 2^30 blocks of four bytes the last block is written just behind the first one. -/
theorem write_sparse_image_long_gap :
    ∃ store', (ramDisk (2 ^ 31)).writeSparseImage
        (fun a => (gapImage (2 ^ 30) (by decide)).bytes.getD a 0) (fun _ => some fun _ => 0) (fun _ => 0) =
          (.okay, store') ∧
      window (fun a => (gapImage (2 ^ 30) (by decide)).bytes.getD a 0) 0
        (gapImage (2 ^ 30) (by decide)).bytes.length = (gapImage (2 ^ 30) (by decide)).bytes ∧
      (gapImage (2 ^ 30) (by decide)).totalBlks ≤ 2 ^ 31 ∧
      store' ≠ patch (fun _ => 0) 4 (gapImage (2 ^ 30) (by decide)).expansion := by
  refine ⟨_, Prod.ext (by decide +kernel) rfl, by decide +kernel, by decide, fun h => ?_⟩
  have hgap : patch (fun _ => 0) 4 (gapImage (2 ^ 30) (by decide)).expansion 8 = 0 := by
    simp only [SparseImage.expansion, gapImage, List.map_cons, List.flatten_cons, expansion]
    rw [patch_append, patch_append, patch_none, patch_outside (.inl ?_), patch_outside (.inr ?_)]
    · decide
    · rw [List.length_replicate]
      decide
  rw [← h] at hgap
  revert hgap
  decide +kernel

end Images

end Armada3720.Sparse
