import Armada3720.Sparse.Expansion

/-!
# Where a sparse image is written

The image may be anything, and so may the start and the size of the partition; the storage writes at most what
it is asked to. The calls of `write` lie in the partition as long as no chunk that gets to its write wraps the
block number around, no gap does, and a fill chunk that gets there has fewer than `2 ^ 31` blocks. A chunk that
is refused before, by its size or by the test against the end of the partition, may be anything.

What happens after a number has wrapped is not described: the image may end there, or the next chunk be refused.
-/

namespace Armada3720.Sparse

namespace SparseStorage

variable {σ : Type*} (info : SparseStorage σ)

/-- The storage with a record of the block ranges that it was asked to write. -/
def logged : SparseStorage (σ × List (Nat × Nat)) where
  blksz := info.blksz
  start := info.start
  size := info.size
  write s blk cnt buf :=
    let r := info.write s.1 blk cnt buf
    (r.1, r.2, s.2 ++ [(blk, cnt)])
  reserve s blk cnt :=
    let r := info.reserve s.1 blk cnt
    (r.1, r.2, s.2)

/-- A block range is empty or lies in the partition. -/
def Inside (r : Nat × Nat) : Prop :=
  r.2 = 0 ∨ info.start ≤ r.1 ∧ r.1 + r.2 ≤ info.start + info.size

/-- All writes so far were inside. -/
def LogInside (s : σ × List (Nat × Nat)) : Prop := ∀ r ∈ s.2, info.Inside r

/-- A chunk that passes the checks before its write does not wrap the block number around, nor does a gap. The
count of a fill chunk is an `int`. -/
def noWrap (mem : Nat → UInt8) (alloc : Option (Nat → UInt8)) (h : SparseHeader) (c : Cursor σ) : Bool :=
  let ch := ChunkHeader.read mem c.off
  let dataSz := h.blkSz * ch.chunkSz % 2 ^ 32
  let blkcnt := dataSz / info.blksz
  match ChunkType.ofCode? ch.chunkType with
  | some .raw => ch.totalSz ≠ (h.chunkHdrSz + dataSz) % 2 ^ 32 || info.exceeds c.blk blkcnt ||
      c.blk + blkcnt < 2 ^ 64
  | some .fill => ch.totalSz ≠ h.chunkHdrSz + 4 || alloc.isNone || info.exceeds c.blk blkcnt ||
      c.blk + blkcnt < 2 ^ 64 && blkcnt < 2 ^ 31
  | some .dontCare => c.blk + (info.reserve c.store c.blk blkcnt).1 < 2 ^ 64
  | _ => true

/-- That is so for each of the `n` chunks, when it comes. -/
def noWraps (mem : Nat → UInt8) (alloc : Nat → Option (Nat → UInt8)) (h : SparseHeader) :
    Nat → Cursor σ → Bool
  | 0, _ => true
  | n + 1, c => info.noWrap mem (alloc n) h c &&
      match info.chunk mem (alloc n) h c with
      | .ok c' => noWraps mem alloc h n c'
      | .error _ => true

end SparseStorage

section Confined

variable {σ : Type*} {info : SparseStorage σ} {s : σ × List (Nat × Nat)} {blk cnt : Nat} (buf : Nat → UInt8)

open SparseStorage

theorem logInside_write (hlog : info.LogInside s) (hin : info.Inside (blk, cnt)) :
    info.LogInside (info.logged.write s blk cnt buf).2 := by
  intro r hr
  rcases List.mem_append.mp hr with hr | hr
  · exact hlog r hr
  · rwa [List.mem_singleton.mp hr]

theorem le_of_not_exceeds (hlt : blk + cnt < 2 ^ 64) (h : ¬info.exceeds blk cnt = true) :
    blk + cnt ≤ info.start + info.size := by
  rw [exceeds, decide_eq_true_eq, Nat.mod_eq_of_lt hlt] at h
  exact (Nat.not_lt.mp h).trans (Nat.mod_le _ _)

/-- All writes were inside if the storage is left in an error, and `Q` holds otherwise. -/
def Confined (info : SparseStorage σ) {α : Type*} (Q : α → Prop) :
    Except (SparseResult × σ × List (Nat × Nat)) α → Prop
  | .error e => info.LogInside e.2
  | .ok a => Q a

/-- The cursor is in the partition or behind it, and all writes so far were inside. -/
structure CursorInside (info : SparseStorage σ) (c : Cursor (σ × List (Nat × Nat))) : Prop where
  start_le : info.start ≤ c.blk
  log : info.LogInside c.store

variable (hwrite : ∀ s blk cnt buf, (info.write s blk cnt buf).1 ≤ cnt)
include hwrite

theorem fillLoop_confined {first blkcnt : Nat} (hlt : blkcnt < 2 ^ 31) (hstart : info.start ≤ first)
    (hend : first + blkcnt ≤ info.start + info.size) (hwrap : first + blkcnt < 2 ^ 64) (fuel : Nat)
    {i : Nat} (hi : i ≤ blkcnt) (hlog : info.LogInside s) :
    Confined info (fun r => info.start ≤ r.1 ∧ info.LogInside r.2)
      (info.logged.fillLoop blkcnt buf fuel i (first + i) s) := by
  induction fuel generalizing i s with
  | zero => exact hlog
  | succ fuel ih =>
    rcases Nat.eq_or_lt_of_le hi with rfl | hi
    · rw [fillLoop_end _ hlt]
      exact ⟨by omega, hlog⟩
    obtain ⟨j, hj⟩ : ∃ j, j = min (blkcnt - i) info.logged.fillBufNumBlks := ⟨_, rfl⟩
    have hlog' := logInside_write buf hlog (.inr ⟨by omega, by omega⟩ : info.Inside (first + i, j))
    rw [fillLoop_succ _ hlt hi hj]
    dsimp only
    split
    · exact hlog'
    · next hnot =>
      -- no more is reported than was asked for
      have hcount : (info.logged.write s (first + i) j buf).1 = j :=
        Nat.le_antisymm (hwrite _ _ _ _) (Nat.not_lt.mp hnot)
      rw [hcount, Nat.mod_eq_of_lt (by omega), Nat.add_assoc]
      exact ih (by omega) hlog'

variable {mem : Nat → UInt8} {alloc : Option (Nat → UInt8)} {h : SparseHeader} {ch : ChunkHeader}
  {dataSz : Nat} {c : Cursor (σ × List (Nat × Nat))}

theorem rawChunk_confined (hc : CursorInside info c)
    (hwrap : ch.totalSz = (h.chunkHdrSz + dataSz) % 2 ^ 32 →
      ¬info.exceeds c.blk (dataSz / info.logged.blksz) = true → c.blk + dataSz / info.logged.blksz < 2 ^ 64) :
    Confined info (CursorInside info) (info.logged.rawChunk mem h ch dataSz c) := by
  rw [rawChunk]
  dsimp only
  split
  · exact hc.log
  next htotal =>
  split
  · exact hc.log
  next hexc =>
  have hlt := hwrap (not_not.mp htotal) hexc
  have hlog := logInside_write (fun k => mem (c.off + k)) hc.log (.inr ⟨hc.start_le, le_of_not_exceeds hlt hexc⟩)
  have hcount := hwrite c.store.1 c.blk (dataSz / info.logged.blksz) fun k => mem (c.off + k)
  split
  · exact hlog
  · refine ⟨?_, hlog⟩
    change info.start ≤ (c.blk + (info.write _ _ _ _).1) % 2 ^ 64
    rw [Nat.mod_eq_of_lt (by omega)]
    exact hc.start_le.trans (Nat.le_add_right _ _)

theorem fillChunk_confined (hc : CursorInside info c)
    (hwrap : ch.totalSz = h.chunkHdrSz + 4 → alloc ≠ none → ¬info.exceeds c.blk (dataSz / info.logged.blksz) = true →
      c.blk + dataSz / info.logged.blksz < 2 ^ 64 ∧ dataSz / info.logged.blksz < 2 ^ 31) :
    Confined info (CursorInside info) (info.logged.fillChunk mem alloc h ch dataSz c) := by
  unfold fillChunk
  split
  · exact hc.log
  next htotal =>
  cases alloc with
  | none => exact hc.log
  | some uninit =>
    dsimp only
    split
    · exact hc.log
    next hexc =>
    obtain ⟨hblk, hlt⟩ := hwrap (not_not.mp htotal) (Option.some_ne_none _) hexc
    have hloop := fillLoop_confined (info.logged.fillBuf (Lib.window mem c.off 4) uninit) hwrite hlt
      hc.start_le (le_of_not_exceeds hblk hexc) hblk (dataSz / info.logged.blksz + 1) (Nat.zero_le _) hc.log
    rw [Nat.cast_zero, Nat.add_zero] at hloop
    generalize info.logged.fillLoop _ _ _ _ _ _ = r at hloop ⊢
    cases r with
    | error e => exact hloop
    | ok r => exact ⟨hloop.1, hloop.2⟩

theorem chunk_confined (hc : CursorInside info c) (hwrap : info.logged.noWrap mem alloc h c = true) :
    Confined info (CursorInside info) (info.logged.chunk mem alloc h c) := by
  unfold noWrap at hwrap
  unfold chunk
  dsimp only at hwrap ⊢
  have hc' : CursorInside info (skipHeader h c) := ⟨hc.start_le, hc.log⟩
  cases htype : ChunkType.ofCode? (ChunkHeader.read mem c.off).chunkType with
  | none => exact hc.log
  | some type =>
    rw [htype] at hwrap
    cases type with
    | raw =>
      simp only [Bool.or_eq_true, decide_eq_true_eq] at hwrap
      refine rawChunk_confined hwrite hc' fun htotal hexc => ?_
      exact hwrap.resolve_left (not_or.mpr ⟨not_not.mpr htotal, hexc⟩)
    | fill =>
      simp only [Bool.or_eq_true, Bool.and_eq_true, decide_eq_true_eq, Option.isNone_iff_eq_none] at hwrap
      refine fillChunk_confined hwrite hc' fun htotal halloc hexc => ?_
      exact hwrap.resolve_left (not_or.mpr ⟨not_or.mpr ⟨not_not.mpr htotal, halloc⟩, hexc⟩)
    | dontCare =>
      refine ⟨?_, hc'.log⟩
      rw [dontCareChunk]
      exact (Nat.mod_eq_of_lt (of_decide_eq_true hwrap)).symm ▸ hc'.start_le.trans (Nat.le_add_right _ _)
    | crc32 =>
      dsimp only
      rw [crc32Chunk]
      split
      · exact hc'.log
      · exact ⟨hc'.start_le, hc'.log⟩

theorem chunks_confined {alloc : Nat → Option (Nat → UInt8)} {n : Nat} (hc : CursorInside info c)
    (hwrap : info.logged.noWraps mem alloc h n c = true) :
    Confined info (CursorInside info) (info.logged.chunks mem alloc h n c) := by
  induction n generalizing c with
  | zero => exact hc
  | succ n ih =>
    obtain ⟨hhead, htail⟩ := Bool.and_eq_true_iff.mp hwrap
    have hchunk := @chunk_confined _ _ hwrite _ (alloc n) _ _ hc hhead
    rw [chunks]
    generalize info.logged.chunk mem (alloc n) h c = r at hchunk htail ⊢
    cases r with
    | error e => exact hchunk
    | ok c' => exact ih hchunk htail

end Confined

/-- For every image, as long as the block number does not wrap around, every block range handed to `write` is
empty or lies in the partition. -/
theorem write_sparse_image_confined {σ : Type*} (info : SparseStorage σ)
    (hwrite : ∀ s blk cnt buf, (info.write s blk cnt buf).1 ≤ cnt) (mem : Nat → UInt8)
    (alloc : Nat → Option (Nat → UInt8)) (store : σ)
    (hwrap : info.logged.noWraps mem alloc (SparseHeader.read mem 0) (SparseHeader.read mem 0).totalChunks
      ⟨SparseStorage.skipFileHeader (SparseHeader.read mem 0), info.start, 0, (store, [])⟩ = true) :
    ∀ r ∈ (info.logged.writeSparseImage mem alloc (store, [])).2.2, info.Inside r := by
  have hrun : Confined info (CursorInside info) (info.logged.chunks mem alloc _ _
      ⟨_, info.logged.start, 0, (store, [])⟩) :=
    chunks_confined hwrite ⟨le_rfl, fun _ hr => absurd hr List.not_mem_nil⟩ hwrap
  unfold SparseStorage.writeSparseImage
  dsimp only
  split
  · exact fun _ hr => absurd hr List.not_mem_nil
  generalize info.logged.chunks _ _ _ _ _ = r at hrun ⊢
  cases r with
  | error e => exact hrun
  | ok c =>
    dsimp only
    split
    · exact hrun.log
    · exact hrun.log

def lastBlocks : SparseStorage Unit where
  blksz := 4
  start := 2 ^ 64 - 16
  size := 8
  write s _ cnt _ := (cnt, s)
  reserve s _ cnt := (cnt, s)

theorem write_sparse_image_confined_gap :
    ∃ log, (lastBlocks.logged.writeSparseImage (fun a => (gapImage 1 (by decide)).bytes.getD a 0)
        (fun _ => some fun _ => 0) ((), [])).2.2 = log ∧ ∀ r ∈ log, lastBlocks.Inside r :=
  ⟨_, rfl, write_sparse_image_confined lastBlocks (fun _ _ _ _ => le_rfl) _ _ () (by decide +kernel)⟩

/-- A gap of 32 blocks leads around the end of the numbers, and block 17 is written. -/
theorem write_sparse_image_wraps :
    (lastBlocks.logged.writeSparseImage (fun a => (gapImage 32 (by decide)).bytes.getD a 0)
        (fun _ => some fun _ => 0) ((), [])).2.2 = [(2 ^ 64 - 16, 1), (17, 1)] ∧
      ¬lastBlocks.Inside (17, 1) := by
  refine ⟨by decide +kernel, ?_⟩
  rw [SparseStorage.Inside]
  decide

end Armada3720.Sparse
