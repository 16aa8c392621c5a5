import Armada3720.Lib.Reaches
import Armada3720.Lib.Ring
import Armada3720.MemBuff.Model

/-!
# A memory buffer is a bounded queue

The bytes from `tail` to `head` are the contents. `membuff_getraw` and `membuff_putraw` move one run of bytes,
and their callers come round twice, which is enough for all of the contents and for all of the room.

`membuff_is_bounded_fifo` is for every sequence of calls on a buffer of at least one byte, growing included; the only
thing asked is that `realloc` keeps what it moves.
-/

namespace Armada3720.MemBuff

open Lib Membuff

/-- The stored bytes, in the order in which they are read. -/
def Membuff.contents (mem : Mem) (mb : Membuff) : List UInt8 :=
  ring mem mb.start mb.stop mb.head mb.tail

/-- There is a buffer, and both ends lie in it. -/
structure Membuff.Ok (mb : Membuff) : Prop where
  start_ne_zero : mb.start ≠ 0
  ring : InRing mb.start mb.stop mb.head mb.tail

section Raw

variable {mem : Mem} {mb mb' : Membuff}

theorem clip_le (maxlen : Int) (len : Nat) (h : 0 ≤ maxlen) : (clip maxlen len : Int) ≤ maxlen := by
  unfold clip
  split <;> omega

theorem clip_le_self (maxlen : Int) (len : Nat) : clip maxlen len ≤ len := by
  unfold clip
  split <;> omega

theorem clip_of_ne (maxlen : Int) (len : Nat) (h : (clip maxlen len : Int) ≠ maxlen) :
    clip maxlen len = len := by
  unfold clip at h ⊢
  split
  · next hlt =>
    rw [if_pos hlt] at h
    omega
  · rfl

theorem contents_length_lt (mem : Mem) (h : mb.Ok) : (mb.contents mem).length + 1 ≤ membuffSize mb :=
  length_ring_lt h.ring

theorem contents_eq_nil (h : mb.head = mb.tail) : mb.contents mem = [] := by
  unfold contents
  rw [ring_of_le h.ge, h, Nat.sub_self]
  rfl

/-- What is left of `mb` when one run of bytes, as many as `maxlen` allows, has been read. -/
structure Reads (mem : Mem) (maxlen : Int) (mb : Membuff) (len data : Nat) (mb' : Membuff) : Prop where
  ok : mb'.Ok
  contents_eq : mb.contents mem = window mem data len ++ mb'.contents mem
  le : 0 ≤ maxlen → (len : Int) ≤ maxlen
  /-- Nothing is read only if there is nothing. -/
  some : (len : Int) ≠ maxlen → len = 0 → mb.contents mem = []
  /-- What is left is one run. -/
  straight : (len : Int) ≠ maxlen → mb'.tail ≤ mb'.head
  /-- One run is read as a whole. -/
  all : (len : Int) ≠ maxlen → mb.tail ≤ mb.head → mb'.contents mem = []

/-- One run of the contents, up to `head` or to the end of the buffer. -/
theorem membuffGetraw_spec (mem : Mem) (h : mb.Ok) (maxlen : Int) (data : Nat) :
    ∃ mb' len data', membuffGetraw mb maxlen true data = (mb', len, data') ∧
      Reads mem maxlen mb len data' mb' := by
  obtain ⟨hne, h1, h2, h3, h4⟩ := id h
  unfold membuffGetraw
  split
  · next hgt =>
    have hle := clip_le_self maxlen (mb.head - mb.tail)
    refine ⟨_, _, _, rfl, ⟨hne, h1, h2, ?_, ?_⟩, ?_, fun h0 => clip_le _ _ h0, ?_, ?_, ?_⟩
    · simp only [if_true]
      omega
    · simp only [if_true]
      omega
    · have hskip := ring_skip (n := clip maxlen (mb.head - mb.tail)) mem h.ring
        (fun _ => by omega) (fun _ => by omega)
      rwa [if_neg (by omega)] at hskip
    · intro hclip h0
      rw [clip_of_ne _ _ hclip] at h0
      omega
    · intro hclip
      simp only [if_true]
      omega
    · intro hclip _
      rw [clip_of_ne _ _ hclip]
      exact contents_eq_nil (by simp only [if_true]; omega)
  split
  · next hlt =>
    have hle := clip_le_self maxlen (mb.stop - mb.tail)
    refine ⟨_, _, _, rfl, ⟨hne, h1, h2, ?_, ?_⟩, ?_, fun h0 => clip_le _ _ h0, ?_, ?_, ?_⟩
    · simp only [if_true]
      split <;> omega
    · simp only [if_true]
      split <;> omega
    · exact ring_skip mem h.ring (fun _ => by omega) (fun _ => by omega)
    · intro hclip h0
      rw [clip_of_ne _ _ hclip] at h0
      omega
    · intro hclip
      rw [clip_of_ne _ _ hclip]
      simp only [if_true]
      rw [if_pos (by omega)]
      exact h1
    · intro _ hge
      omega
  · have heq : mb.head = mb.tail := by omega
    refine ⟨_, _, _, rfl, h, rfl, fun h0 => h0, fun _ _ => contents_eq_nil heq,
      fun _ => heq.ge, fun _ _ => contents_eq_nil heq⟩

theorem membuffGetraw_peek (mb : Membuff) (maxlen : Int) (data : Nat) :
    membuffGetraw mb maxlen false data = (mb, (membuffGetraw mb maxlen true data).2) := by
  unfold membuffGetraw
  split
  · rfl
  split <;> rfl

/-- No more bytes fit in. -/
def Membuff.Full (mb : Membuff) : Prop :=
  ∀ mem, (mb.contents mem).length + 1 = membuffSize mb

theorem full_of_le (hle : mb.tail ≤ mb.head) (h : mb.head - mb.tail + 1 = mb.stop - mb.start) :
    mb.Full := by
  intro mem
  rw [contents, length_ring, if_pos hle]
  exact h

theorem full_of_lt (hlt : mb.head < mb.tail)
    (h : mb.stop - mb.tail + (mb.head - mb.start) + 1 = mb.stop - mb.start) : mb.Full := by
  intro mem
  rw [contents, length_ring, if_neg (by omega)]
  exact h

/-- The buffer `mb` with one run of at most `n` bytes that is still to be stored at `data`. -/
structure Makes (n : Nat) (mb : Membuff) (len data : Nat) (mb' : Membuff) : Prop where
  ok : mb'.Ok
  size_eq : membuffSize mb' = membuffSize mb
  le : len ≤ n
  contents_eq : ∀ mem (bytes : List UInt8), bytes.length = len →
    mb'.contents (overwrite mem data bytes) = mb.contents mem ++ bytes
  /-- What is left is one run of free bytes, or none. -/
  straight : len < n → mb'.Full ∨ 0 < len ∧ mb'.head < mb'.tail
  /-- One run of free bytes is taken as a whole. -/
  all : len < n → mb.head < mb.tail → mb'.Full

/-- One run of the room, up to the byte before `tail` or to the end of the buffer. -/
theorem membuffPutraw_spec (h : mb.Ok) (n : Nat) :
    ∃ mb' len data, membuffPutraw mb n true = (mb', len, data) ∧ Makes n mb len data mb' := by
  obtain ⟨hne, h1, h2, h3, h4⟩ := id h
  have hdata : mb.start + (mb.head - mb.start) = mb.head := Nat.add_sub_cancel' h1
  unfold membuffPutraw membuffPutrawflex
  simp only [if_neg hne, if_true]
  split
  · next hge =>
    have hle := clip_le_self n (mb.stop - mb.head - 1)
    split
    · next hmore =>
      -- the run ends at the end of the buffer, and the tail isn't at its start
      have hrun := clip_of_ne n (mb.stop - mb.head - 1) (by omega)
      refine ⟨_, _, _, rfl, ⟨hne, le_rfl, by simp only; omega, h3, h4⟩, rfl, by omega, ?_, ?_, ?_⟩
      · intro mem bytes hlen
        have hstore := ring_store mem bytes h.ring (fun _ => by omega) (fun _ => by omega)
        rw [if_pos (by omega)] at hstore
        simp only [hdata]
        exact hstore
      · intro _
        exact .inr ⟨Nat.succ_pos _, by simp only; omega⟩
      · intro _ hlt
        omega
    · next hmore =>
      have hn := clip_le n (mb.stop - mb.head - 1) (by omega)
      refine ⟨_, _, _, rfl, ⟨hne, by simp only; omega, by simp only; omega, h3, h4⟩, rfl, by omega, ?_, ?_, ?_⟩
      · intro mem bytes hlen
        have hstore := ring_store mem bytes h.ring (fun _ => by omega) (fun _ => by omega)
        rw [if_neg (by omega), hlen] at hstore
        simp only [hdata]
        exact hstore
      · intro hlt
        have hrun := clip_of_ne n (mb.stop - mb.head - 1) (by omega)
        exact .inl (full_of_le (by simp only; omega) (by simp only; omega))
      · intro _ hlt
        omega
  · next hlt =>
    have hle := clip_le_self n (mb.tail - mb.head - 1)
    have hn := clip_le n (mb.tail - mb.head - 1) (by omega)
    have hfull : clip n (mb.tail - mb.head - 1) < n →
        { mb with head := mb.head + clip n (mb.tail - mb.head - 1) }.Full := by
      intro hless
      have hrun := clip_of_ne n (mb.tail - mb.head - 1) (by omega)
      exact full_of_lt (by simp only; omega) (by simp only; omega)
    refine ⟨_, _, _, rfl, ⟨hne, by simp only; omega, by simp only; omega, h3, h4⟩, rfl,
      by omega, ?_, fun hless => .inl (hfull hless), fun hless _ => hfull hless⟩
    intro mem bytes hlen
    have hstore := ring_store mem bytes h.ring (fun _ => by omega) (fun _ => by omega)
    rw [if_neg (by omega), hlen] at hstore
    simp only [hdata]
    exact hstore

end Raw

section Calls

variable {mem : Mem} {mb : Membuff}

theorem take_drop_of_append {β : Type*} {items first rest : List β} {n : Nat}
    (h : items = first ++ rest) (hn : first.length = n ∨ first.length ≤ n ∧ rest = []) :
    items.take n = first ∧ items.drop n = rest := by
  subst h
  rcases hn with rfl | ⟨hle, rfl⟩
  · exact ⟨List.take_left, List.drop_left⟩
  · rw [List.append_nil]
    exact ⟨List.take_of_length_le hle, List.drop_of_length_le hle⟩

theorem membuffGet_spec (mem : Mem) (h : mb.Ok) (n : Nat) :
    ∃ mb', membuffGet mem mb n = (mb', (mb.contents mem).take n) ∧ mb'.Ok ∧
      mb'.contents mem = (mb.contents mem).drop n := by
  obtain ⟨mb1, len1, data1, hraw1, hread1⟩ := membuffGetraw_spec mem h n 0
  have hle1 := hread1.le (Int.natCast_nonneg n)
  rw [membuffGet, getLoop, if_neg Nat.one_ne_zero, hraw1]
  simp only [List.nil_append]
  rw [getLoop]
  split
  · next hzero =>
    have hsplit := take_drop_of_append (n := n) hread1.contents_eq (by
      rw [length_window]
      by_cases hn : n = 0
      · exact .inl (by omega)
      · refine .inr ⟨by omega, ?_⟩
        have hnil := hread1.some (by omega) hzero
        rw [hread1.contents_eq] at hnil
        exact (List.append_eq_nil_iff.mp hnil).2)
    exact ⟨mb1, by rw [hsplit.1], hread1.ok, hsplit.2.symm⟩
  · obtain ⟨mb2, len2, data2, hraw2, hread2⟩ := membuffGetraw_spec mem hread1.ok (n - len1) data1
    have hle2 := hread2.le (by omega)
    rw [hraw2]
    simp only [getLoop]
    have hall : mb.contents mem =
        window mem data1 len1 ++ window mem data2 len2 ++ mb2.contents mem := by
      rw [hread1.contents_eq, hread2.contents_eq, List.append_assoc]
    have hsplit := take_drop_of_append (n := n) hall (by
      rw [List.length_append, length_window, length_window]
      by_cases hlen : (len2 : Int) = n - len1
      · exact .inl (by omega)
      · exact .inr ⟨by omega, hread2.all hlen (hread1.straight (by omega))⟩)
    exact ⟨mb2, by rw [hsplit.1], hread2.ok, hsplit.2.symm⟩

def firstByte (bytes : List UInt8) : Int := bytes.head?.elim (-1) fun b => b.toNat

theorem membuffGetbyte_spec (mem : Mem) (h : mb.Ok) :
    ∃ mb', membuffGetbyte mem mb = (mb', firstByte (mb.contents mem)) ∧ mb'.Ok ∧
      mb'.contents mem = (mb.contents mem).drop 1 := by
  obtain ⟨mb', len, data, hraw, hread⟩ := membuffGetraw_spec mem h 1 0
  have hle := hread.le (by decide)
  unfold membuffGetbyte
  rw [hraw]
  simp only
  by_cases hlen : len = 1
  · have hcontents : mb.contents mem = mem data :: mb'.contents mem := by
      rw [hread.contents_eq, hlen]
      rfl
    exact ⟨mb', by rw [if_neg (not_not.mpr hlen), hcontents]; rfl, hread.ok, by rw [hcontents]; rfl⟩
  · have hnil := hread.some (by omega) (by omega)
    have hnil' := hnil
    rw [hread.contents_eq] at hnil'
    refine ⟨mb', by rw [if_pos hlen, hnil]; rfl, hread.ok, ?_⟩
    rw [hnil, (List.append_eq_nil_iff.mp hnil').2]
    rfl

theorem membuffPeekbyte_spec (mem : Mem) (h : mb.Ok) :
    membuffPeekbyte mem mb = (mb, firstByte (mb.contents mem)) := by
  obtain ⟨mb', hget, -⟩ := membuffGetbyte_spec mem h
  unfold membuffGetbyte at hget
  unfold membuffPeekbyte
  rw [membuffGetraw_peek]
  simp only at hget ⊢
  rw [(Prod.mk.inj hget).2]

theorem membuffAvail_spec (mem : Mem) (h : mb.Ok) :
    membuffAvail mb = (mb.contents mem).length := by
  obtain ⟨mb1, len1, data1, hraw1, hread1⟩ := membuffGetraw_spec mem h (-1) 0
  obtain ⟨mb2, len2, data2, hraw2, hread2⟩ := membuffGetraw_spec mem hread1.ok (-1) data1
  have hall := hread2.all (by omega) (hread1.straight (by omega))
  rw [hread1.contents_eq, hread2.contents_eq, hall, membuffAvail, availLoop, hraw1]
  simp only
  rw [availLoop, hraw2]
  simp [availLoop]

theorem membuffFree_spec (mem : Mem) (h : mb.Ok) :
    membuffFree mb = (membuffSize mb - 1 - (mb.contents mem).length : Nat) := by
  have hlen := contents_length_lt mem h
  unfold membuffSize at hlen ⊢
  rw [membuffFree, if_neg (by omega), membuffAvail_spec mem h]
  omega

theorem membuffIsempty_iff (mem : Mem) (h : mb.Ok) :
    membuffIsempty mb = true ↔ mb.contents mem = [] := by
  obtain ⟨h1, h2, h3, h4⟩ := h.ring
  rw [membuffIsempty, decide_eq_true_iff, ← List.length_eq_zero_iff, contents, length_ring]
  split <;> omega

theorem membuffPut_spec (mem : Mem) (h : mb.Ok) (buff : List UInt8) :
    ∃ mem' mb', membuffPut mem mb buff =
        (mem', mb', min buff.length (membuffSize mb - 1 - (mb.contents mem).length)) ∧
      mb'.Ok ∧ membuffSize mb' = membuffSize mb ∧ mb'.contents mem' = mb.contents mem ++
        buff.take (min buff.length (membuffSize mb - 1 - (mb.contents mem).length)) := by
  obtain ⟨mb1, len1, data1, hraw1, hmake1⟩ := membuffPutraw_spec h buff.length
  obtain ⟨mb2, len2, data2, hraw2, hmake2⟩ :=
    membuffPutraw_spec hmake1.ok (buff.drop len1).length
  have hle1 := hmake1.le
  have hle2 := hmake2.le
  have hput : membuffPut mem mb buff = (overwrite (overwrite mem data1 (buff.take len1)) data2
      ((buff.drop len1).take len2), mb2, len1 + len2) := by
    rw [membuffPut, putLoop, hraw1]
    simp only
    rw [putLoop, hraw2]
    simp only [putLoop, Nat.zero_add]
  have hcontents1 := hmake1.contents_eq mem (buff.take len1) (List.length_take_of_le hle1)
  have hcontents2 := hmake2.contents_eq (overwrite mem data1 (buff.take len1))
    ((buff.drop len1).take len2) (List.length_take_of_le hle2)
  rw [hcontents1, List.append_assoc, ← List.take_add] at hcontents2
  rw [List.length_drop] at hmake2 hle2
  have hsize : membuffSize mb2 = membuffSize mb := hmake2.size_eq.trans hmake1.size_eq
  have hroom := contents_length_lt (overwrite (overwrite mem data1 (buff.take len1)) data2
    ((buff.drop len1).take len2)) hmake2.ok
  rw [hcontents2, List.length_append, List.length_take_of_le (by omega), hsize] at hroom
  -- bytes are left over only if the buffer is full
  have hfull : len1 + len2 < buff.length →
      (mb.contents mem).length + (len1 + len2) + 1 = membuffSize mb := by
    intro hless
    rcases hmake1.straight (by omega) with hfull1 | ⟨-, hlt⟩
    · have hlen := hfull1 (overwrite mem data1 (buff.take len1))
      rw [hcontents1, List.length_append, List.length_take_of_le hle1, hmake1.size_eq] at hlen
      omega
    · have hlen := hmake2.all (by omega) hlt (overwrite (overwrite mem data1 (buff.take len1)) data2
        ((buff.drop len1).take len2))
      rwa [hcontents2, List.length_append, List.length_take_of_le (by omega), hsize] at hlen
  have hmin : len1 + len2 = min buff.length (membuffSize mb - 1 - (mb.contents mem).length) := by
    omega
  exact ⟨_, _, by rw [hput, hmin], hmake2.ok, hsize, by rw [hcontents2, hmin]⟩

theorem membuffPutbyte_spec (mem : Mem) (h : mb.Ok) (ch : Int) :
    ∃ mem' mb', membuffPutbyte mem mb ch = (mem', mb', decide ((mb.contents mem).length + 1 < membuffSize mb)) ∧
      mb'.Ok ∧ membuffSize mb' = membuffSize mb ∧ mb'.contents mem' = mb.contents mem ++
        if (mb.contents mem).length + 1 < membuffSize mb then [UInt8.ofInt ch] else [] := by
  obtain ⟨mb', len, data, hraw, hmake⟩ := membuffPutraw_spec h 1
  have hle := hmake.le
  unfold membuffPutbyte
  rw [show (1 : Int) = (1 : Nat) from rfl, hraw]
  simp only
  by_cases hlen : len = 1
  · have hcontents := hmake.contents_eq mem [UInt8.ofInt ch] hlen.symm
    have hroom := contents_length_lt (overwrite mem data [UInt8.ofInt ch]) hmake.ok
    rw [hcontents, hmake.size_eq, List.length_append, List.length_singleton] at hroom
    rw [if_neg (not_not.mpr hlen)]
    refine ⟨_, _, by rw [decide_eq_true (by omega)], hmake.ok, hmake.size_eq, ?_⟩
    rw [hcontents, if_pos (by omega)]
  · have hcontents := hmake.contents_eq mem [] (by rw [List.length_nil]; omega)
    rw [overwrite_nil, List.append_nil] at hcontents
    have hfull := (hmake.straight (by omega)).resolve_right (fun hpos => by omega) mem
    rw [hcontents, hmake.size_eq] at hfull
    rw [if_pos hlen]
    refine ⟨_, _, by rw [decide_eq_false (by omega)], hmake.ok, hmake.size_eq, ?_⟩
    rw [hcontents, if_neg (by omega), List.append_nil]

theorem moveDown_spec (mem : Mem) (h : mb.Ok) (topsize botsize : Nat)
    (hroom : mb.start + topsize + botsize < mb.stop) :
    (moveDown mem mb topsize botsize).2.1.Ok ∧
      (moveDown mem mb topsize botsize).2.1.contents (moveDown mem mb topsize botsize).1 =
        window mem mb.tail topsize ++ window mem (mb.start + topsize) botsize := by
  have htop := window_overwrite mem mb.start (window mem mb.tail topsize)
  rw [length_window] at htop
  have hring : InRing mb.start mb.stop (mb.start + topsize + botsize) mb.start := by
    constructor <;> omega
  refine ⟨⟨h.start_ne_zero, hring⟩, ?_⟩
  unfold moveDown contents
  rw [ring_of_le hring.lo_le_head, Nat.add_assoc, Nat.add_sub_cancel_left, window_add, htop,
    window_overwrite_of_disjoint mem (.inr (by rw [length_window]))]

/-- The contents stay, whichever of the moves is made. -/
theorem membuffMakecontig_spec (mem : Mem) (h : mb.Ok) :
    ∃ mem' mb' done, membuffMakecontig mem mb = (mem', mb', done) ∧ mb'.Ok ∧
      mb'.contents mem' = mb.contents mem := by
  obtain ⟨h1, h2, h3, h4⟩ := h.ring
  unfold membuffMakecontig
  split
  · next hgt =>
    simp only
    split
    · exact ⟨_, _, _, rfl, h, rfl⟩
    · next hroom =>
      -- the bottom is moved up to make space, and is not in the way of the top
      have hbot := window_overwrite mem (mb.start + (mb.stop - mb.tail)) (window mem mb.start (mb.head - mb.start))
      rw [length_window] at hbot
      obtain ⟨hok, hcontents⟩ := moveDown_spec (overwrite mem (mb.start + (mb.stop - mb.tail))
        (window mem mb.start (mb.head - mb.start))) h (mb.stop - mb.tail) (mb.head - mb.start)
        (by omega)
      refine ⟨_, _, _, rfl, hok, hcontents.trans ?_⟩
      rw [hbot, window_overwrite_of_disjoint mem (by rw [length_window]; omega), contents, ring_of_lt hgt]
  · next hle =>
    obtain ⟨hok, hcontents⟩ := moveDown_spec mem h (mb.head - mb.tail) 0 (by omega)
    refine ⟨_, _, _, rfl, hok, hcontents.trans ?_⟩
    rw [contents, ring_of_le (not_lt.mp hle)]
    exact List.append_nil _

theorem window_part {f g : Mem} {a b len : Nat} (h : window f a len = window g b len) (skip n : Nat)
    (hn : skip + n ≤ len) : window f (a + skip) n = window g (b + skip) n := by
  rw [← take_drop_window f a hn, h, take_drop_window g b hn]

theorem extended_spec {mem mem' : Mem} (h : mb.Ok) {ptr : Nat} (hptr : ptr ≠ 0) (by' : Nat)
    (hcopy : window mem' ptr (membuffSize mb) = window mem mb.start (membuffSize mb)) :
    (extended mem' mb ptr by').2.Ok ∧
      (extended mem' mb ptr by').2.contents (extended mem' mb ptr by').1 = mb.contents mem := by
  obtain ⟨hne, h1, h2, h3, h4⟩ := id h
  unfold membuffSize at hcopy
  unfold extended
  simp only
  split
  · next hlt =>
    have hring : InRing ptr (ptr + (mb.stop - mb.start + by')) (ptr + (mb.head - mb.start))
        (ptr + (mb.tail - mb.start) + by') := by
      constructor <;> omega
    refine ⟨⟨hptr, hring⟩, ?_⟩
    have htop := window_part hcopy (mb.tail - mb.start) (mb.stop - mb.tail) (by omega)
    have hbot := window_part hcopy 0 (mb.head - mb.start) (by omega)
    rw [Nat.add_sub_cancel' h3] at htop
    have hlen : mb.stop - mb.start - (mb.tail - mb.start) = mb.stop - mb.tail := by omega
    have hmoved := window_overwrite mem' (ptr + (mb.tail - mb.start) + by')
      (window mem' (ptr + (mb.tail - mb.start)) (mb.stop - mb.tail))
    rw [length_window] at hmoved
    simp only [contents, hlen]
    rw [ring_of_lt (by omega), ring_of_lt (by omega)]
    refine congrArg₂ (· ++ ·) (Eq.trans ?_ (hmoved.trans htop)) ?_
    · congr 1
      omega
    · rw [window_overwrite_of_disjoint mem' (by omega), Nat.add_sub_cancel_left]
      exact hbot
  · next hge =>
    have hring : InRing ptr (ptr + (mb.stop - mb.start + by')) (ptr + (mb.head - mb.start))
        (ptr + (mb.tail - mb.start)) := by
      constructor <;> omega
    refine ⟨⟨hptr, hring⟩, ?_⟩
    have hall := window_part hcopy (mb.tail - mb.start) (mb.head - mb.tail) (by omega)
    rw [Nat.add_sub_cancel' h3] at hall
    simp only [contents]
    rw [ring_of_le (by omega), ring_of_le (by omega), ← hall]
    congr 1
    omega

end Calls

/-! ## Lines -/

section Lines

variable {mem : Mem} {mb : Membuff} {minch : Int} {a k n s stop : Nat}

/-- The first byte, and the buffer behind it. -/
theorem contents_cons (mem : Mem) (h : mb.Ok) (hne : mb.head ≠ mb.tail) :
    { mb with tail := if mb.tail + 1 = mb.stop then mb.start else mb.tail + 1 }.Ok ∧
      mb.contents mem = mem mb.tail ::
        { mb with tail := if mb.tail + 1 = mb.stop then mb.start else mb.tail + 1 }.contents mem := by
  obtain ⟨hstart, h1, h2, h3, h4⟩ := id h
  refine ⟨⟨hstart, h1, h2, ?_, ?_⟩, ring_skip (n := 1) mem h.ring (fun _ => by omega) (fun _ => by omega)⟩ <;>
    simp only <;> split <;> omega

/-- Where the run of bytes that begins at `s` ends. -/
def Membuff.runEnd (mb : Membuff) (s : Nat) : Nat := if mb.head ≥ s then mb.head else mb.stop

/-- The first byte that ends a line is found, if `n` rounds lead so far, and the bytes behind it are left. -/
theorem readlineLoop_found {bytes : List UInt8} (h : { mb with tail := s }.Ok)
    (hbytes : { mb with tail := s }.contents mem = bytes) (htop : mb.head < s → mb.head < mb.tail)
    (hk : k < bytes.length) (hend : endsLine minch bytes[k] = true)
    (hnone : ∀ i (hi : i < k), endsLine minch bytes[i] = false) (hn : k < n) (str : List UInt8) :
    ∃ p, readlineLoop mem mb minch n s (mb.runEnd s) str = some (str ++ bytes.take (k + 1), p) ∧
      { mb with tail := if p = mb.stop then mb.start else p }.Ok ∧
      { mb with tail := if p = mb.stop then mb.start else p }.contents mem = bytes.drop (k + 1) := by
  induction n generalizing k s bytes str with
  | zero => omega
  | succ n ih =>
    obtain ⟨h1, h2, h3, h4⟩ : InRing mb.start mb.stop mb.head s := h.ring
    have hne : mb.head ≠ s := by
      rintro rfl
      rw [contents_eq_nil rfl] at hbytes
      subst hbytes
      exact Nat.not_lt_zero k hk
    obtain ⟨hok, hcons⟩ := contents_cons mem h hne
    obtain rfl := hbytes.symm.trans hcons
    have hrun : s < mb.runEnd s := by
      unfold runEnd
      split <;> omega
    rw [readlineLoop, if_pos hrun]
    cases k with
    | zero =>
      rw [if_pos (show endsLine minch (mem s) = true from hend)]
      exact ⟨s + 1, rfl, hok, rfl⟩
    | succ k =>
      rw [show endsLine minch (mem s) = false from hnone 0 (Nat.succ_pos k), if_neg Bool.false_ne_true]
      obtain ⟨p, hloop, hrest⟩ := ih (s := if s + 1 = mb.stop then mb.start else s + 1) hok rfl
        (fun hlt => by split at hlt <;> omega) (Nat.lt_of_succ_lt_succ hk) hend
        (fun i hi => hnone (i + 1) (Nat.succ_lt_succ hi)) (by omega) (str ++ [mem s])
      refine ⟨p, ?_, hrest⟩
      rw [List.append_assoc] at hloop
      refine Eq.trans ?_ hloop
      -- another byte follows, so the run goes on, or the bottom comes behind the top
      have hmore : mb.head ≠ if s + 1 = mb.stop then mb.start else s + 1 := fun heq => by
        have hk := Nat.lt_of_succ_lt_succ hk
        rw [contents_eq_nil heq] at hk
        exact Nat.not_lt_zero k hk
      by_cases hstop : s + 1 = mb.stop
      · have hend : mb.runEnd s = mb.stop := if_neg (by omega)
        have hbot : mb.runEnd mb.start = mb.head := if_pos h1
        rw [if_pos hstop, if_pos ⟨hstop.trans hend.symm, htop (by omega)⟩, hbot]
      · rw [if_neg hstop] at hmore ⊢
        have hsame : mb.runEnd (s + 1) = mb.runEnd s ∧ s + 1 ≠ mb.runEnd s := by
          unfold runEnd
          split <;> split <;> omega
        rw [if_neg fun hc => hsame.2 hc.1, hsame.1]

/-- The loop may come to the bottom more than once. -/
theorem readlineLoop_none (hrun : ∀ a, s ≤ a → a < stop → a < s + n → endsLine minch (mem a) = false)
    (hbot : mb.head < mb.tail → ∀ a, mb.start ≤ a → a < mb.head → a + (stop - s) < mb.start + n →
      endsLine minch (mem a) = false) (str : List UInt8) :
    readlineLoop mem mb minch n s stop str = none := by
  induction n generalizing s stop str with
  | zero => rfl
  | succ n ih =>
    rw [readlineLoop]
    split
    · next hlt =>
      rw [hrun s le_rfl hlt (by omega), if_neg Bool.false_ne_true]
      split
      · next hwrap =>
        exact ih (fun a h1 h2 h3 => hbot hwrap.2 a h1 h2 (by omega))
          (fun hw a h1 h2 h3 => hbot hw a h1 h2 (by omega)) _
      · exact ih (fun a h1 h2 h3 => hrun a (by omega) h2 (by omega))
          (fun hw a h1 h2 h3 => hbot hw a h1 h2 (by omega)) _
    · rfl

theorem getElem_first (ha : mb.tail ≤ a) (ha' : a < mb.runEnd mb.tail) :
    (mb.contents mem)[a - mb.tail]? = some (mem a) := by
  unfold runEnd at ha'
  have haddr : mb.tail + (a - mb.tail) = a := Nat.add_sub_cancel' ha
  rcases Nat.lt_or_ge mb.head mb.tail with hlt | hge
  · rw [if_neg (by omega)] at ha'
    rw [contents, ring_of_lt hlt, List.getElem?_append_left (by rw [length_window]; omega),
      List.getElem?_eq_getElem (by rw [length_window]; omega), getElem_window, haddr]
  · rw [if_pos hge] at ha'
    rw [contents, ring_of_le hge, List.getElem?_eq_getElem (by rw [length_window]; omega), getElem_window, haddr]

theorem getElem_bottom (hlt : mb.head < mb.tail) (ha : mb.start ≤ a) (ha' : a < mb.head) :
    (mb.contents mem)[mb.stop - mb.tail + (a - mb.start)]? = some (mem a) := by
  rw [contents, ring_of_lt hlt, List.getElem?_append_right (by rw [length_window]; omega), length_window,
    Nat.add_sub_cancel_left, List.getElem?_eq_getElem (by rw [length_window]; omega), getElem_window,
    Nat.add_sub_cancel' ha]

/-- What `membuff_readline` has copied before it sets the terminator over the last byte. -/
def lineRead (mem : Mem) (mb : Membuff) (maxlen : Nat) (minch : Int) : List UInt8 :=
  ((readlineLoop mem mb minch (maxlen - 1) mb.tail
    (if mb.head ≥ mb.tail then mb.head else mb.stop) []).map Prod.fst).getD []

/-- The bytes up to the first one that ends a line, if the string with its terminator fits `maxlen`. -/
theorem membuffReadline_spec (mem : Mem) (h : mb.Ok) (maxlen : Nat) (minch : Int)
    (hk : k = (mb.contents mem).findIdx (endsLine minch)) :
    if k < (mb.contents mem).length ∧ k + 1 < maxlen then
      ∃ mb', membuffReadline mem mb maxlen minch = (mb', k + 1, some ((mb.contents mem).take k ++ [0])) ∧
        lineRead mem mb maxlen minch = (mb.contents mem).take (k + 1) ∧ mb'.Ok ∧
        mb'.contents mem = (mb.contents mem).drop (k + 1)
    else membuffReadline mem mb maxlen minch = (mb, 0, if maxlen ≠ 0 then some [0] else none) ∧
      lineRead mem mb maxlen minch = [] := by
  subst hk
  have hstop : (if mb.head ≥ mb.tail then mb.head else mb.stop) = mb.runEnd mb.tail := rfl
  unfold membuffReadline lineRead
  simp only [hstop]
  split
  · next hfound =>
    obtain ⟨p, hloop, hok, hrest⟩ := readlineLoop_found (n := maxlen - 1) h rfl id hfound.1
      List.findIdx_getElem (fun i hi => List.not_of_lt_findIdx hi) (by omega) []
    rw [hloop]
    refine ⟨_, ?_, rfl, hok, hrest⟩
    simp only [List.nil_append]
    rw [List.dropLast_eq_take, List.length_take_of_le hfound.1, List.take_take,
      Nat.succ_sub_one, Nat.min_eq_left (Nat.le_succ _)]
  · next hmissing =>
    have hbefore : ∀ i b, (mb.contents mem)[i]? = some b → i < maxlen - 1 → endsLine minch b = false := by
      intro i b hb hi
      obtain ⟨hlt, rfl⟩ := List.getElem?_eq_some_iff.mp hb
      exact List.not_of_lt_findIdx (by omega)
    have hloop : readlineLoop mem mb minch (maxlen - 1) mb.tail (mb.runEnd mb.tail) [] = none := by
      refine readlineLoop_none (fun a h1 h2 h3 => ?_) (fun hlt a h1 h2 h3 => ?_) []
      · exact hbefore _ _ (getElem_first h1 h2) (by omega)
      · refine hbefore _ _ (getElem_bottom hlt h1 h2) ?_
        rw [runEnd, if_neg (by omega)] at h3
        omega
    rw [hloop]
    exact ⟨rfl, rfl⟩

end Lines

/-! ## Runs -/

/-- A buffer in memory, with the bytes that it has accepted and those taken out of it so far. -/
structure Buffered where
  mem : Mem
  mb : Membuff
  accepted : List UInt8
  removed : List UInt8

/-- The calls, with the `realloc` that `membuff_extend_by` meets. -/
inductive Call
  | put (buff : List UInt8)
  | putbyte (ch : Int)
  | get (maxlen : Nat)
  | getbyte
  | peekbyte
  | readline (maxlen : Nat) (minch : Int)
  | makecontig
  | purge
  | extendBy (by' : Nat) (max : Int) (realloc : Nat → Nat → Option (Nat × Mem))

/-- The effect of a call. What is purged counts as taken out. -/
def Call.run (s : Buffered) : Call → Option Buffered
  | .put buff =>
    let (mem, mb, written) := membuffPut s.mem s.mb buff
    some { s with mem, mb, accepted := s.accepted ++ buff.take written }
  | .putbyte ch =>
    let (mem, mb, done) := membuffPutbyte s.mem s.mb ch
    some { s with mem, mb, accepted := s.accepted ++ if done then [UInt8.ofInt ch] else [] }
  | .get maxlen =>
    let (mb, bytes) := membuffGet s.mem s.mb maxlen
    some { s with mb, removed := s.removed ++ bytes }
  | .getbyte =>
    let (mb, byte) := membuffGetbyte s.mem s.mb
    some { s with mb, removed := s.removed ++ if byte = -1 then [] else [UInt8.ofInt byte] }
  | .peekbyte => some { s with mb := (membuffPeekbyte s.mem s.mb).1 }
  | .readline maxlen minch =>
    some { s with
      mb := (membuffReadline s.mem s.mb maxlen minch).1
      removed := s.removed ++ lineRead s.mem s.mb maxlen minch }
  | .makecontig =>
    let (mem, mb, _) := membuffMakecontig s.mem s.mb
    some { s with mem, mb }
  | .purge => some { s with
      mb := membuffPurge s.mb, removed := s.removed ++ s.mb.contents s.mem }
  | .extendBy by' max realloc =>
    (membuffExtendBy realloc s.mem s.mb by' max).map fun (mem, mb, _) => { s with mem, mb }

/-- What `realloc` gives is a buffer with a copy of the old contents. -/
def Call.Copies (s : Buffered) : Call → Prop
  | .extendBy _ _ realloc => ∀ size ptr mem', realloc s.mb.start size = some (ptr, mem') →
      ptr ≠ 0 ∧ window mem' ptr (membuffSize s.mb) = window s.mem s.mb.start (membuffSize s.mb)
  | _ => True

def Buffered.init (mem : Mem) (buff size : Nat) : Buffered :=
  { mem, mb := membuffInit buff size, accepted := [], removed := [] }

/-- What has been accepted is what has been taken out, and behind it the contents. -/
structure Buffered.Inv (s : Buffered) : Prop where
  ok : s.mb.Ok
  moved : s.accepted = s.removed ++ s.mb.contents s.mem

section Runs

variable {s s' : Buffered}

theorem membuffPurge_spec {mb : Membuff} (mem : Mem) (h : mb.Ok) :
    (membuffPurge mb).Ok ∧ (membuffPurge mb).contents mem = [] := by
  obtain ⟨hne, h1, h2, h3, h4⟩ := h
  exact ⟨⟨hne, le_rfl, by exact h1.trans_lt h2, le_rfl, by exact h1.trans_lt h2⟩, contents_eq_nil rfl⟩

theorem buffered_init (mem : Mem) {buff size : Nat} (hbuff : buff ≠ 0) (hsize : 0 < size) :
    (Buffered.init mem buff size).Inv := by
  have hok : (membuffInit buff size).Ok :=
    ⟨hbuff, le_rfl, by simp [membuffInit, membuffPurge]; omega, le_rfl, by simp [membuffInit, membuffPurge]; omega⟩
  exact ⟨hok, by rw [Buffered.init, contents_eq_nil rfl]; rfl⟩

theorem Buffered.Inv.accept (h : s.Inv) {mem : Mem} {mb : Membuff} {bytes : List UInt8} (hok : mb.Ok)
    (hbytes : mb.contents mem = s.mb.contents s.mem ++ bytes) :
    Buffered.Inv { s with mem, mb, accepted := s.accepted ++ bytes } := by
  refine ⟨hok, ?_⟩
  rw [h.moved, hbytes, List.append_assoc]

theorem Buffered.Inv.remove (h : s.Inv) {mb : Membuff} {bytes : List UInt8} (hok : mb.Ok)
    (hbytes : s.mb.contents s.mem = bytes ++ mb.contents s.mem) :
    Buffered.Inv { s with mb, removed := s.removed ++ bytes } := by
  refine ⟨hok, ?_⟩
  rw [h.moved, hbytes, List.append_assoc]

theorem Buffered.Inv.same (h : s.Inv) {mem : Mem} {mb : Membuff} (hok : mb.Ok)
    (hbytes : mb.contents mem = s.mb.contents s.mem) : Buffered.Inv { s with mem, mb } :=
  ⟨hok, by rw [h.moved, hbytes]⟩

theorem ofInt_toNat (b : UInt8) : UInt8.ofInt b.toNat = b := by
  have hlt := b.toNat_lt
  rw [UInt8.ofInt, Int.emod_eq_of_lt (Int.natCast_nonneg _) (by omega), Int.toNat_natCast, UInt8.ofNat_toNat]

theorem Buffered.Inv.getbyte (h : s.Inv) (hrun : Call.getbyte.run s = some s') : s'.Inv := by
  obtain ⟨mb, hget, hok, hrest⟩ := membuffGetbyte_spec s.mem h.ok
  rw [Call.run, hget] at hrun
  cases hrun
  refine h.remove hok ?_
  rw [hrest]
  cases s.mb.contents s.mem with
  | nil => rfl
  | cons b rest => simp [firstByte, ofInt_toNat]

theorem Buffered.Inv.readline (h : s.Inv) {maxlen : Nat} {minch : Int}
    (hrun : (Call.readline maxlen minch).run s = some s') : s'.Inv := by
  cases hrun
  have hspec := membuffReadline_spec s.mem h.ok maxlen minch rfl
  split at hspec
  · obtain ⟨mb', hread, hline, hok, hrest⟩ := hspec
    rw [hread, hline]
    refine h.remove hok ?_
    rw [hrest, List.take_append_drop]
  · rw [hspec.1, hspec.2]
    exact h.remove h.ok rfl

theorem Buffered.Inv.extendBy (h : s.Inv) {by' : Nat} {max : Int}
    {realloc : Nat → Nat → Option (Nat × Mem)} (hcopies : (Call.extendBy by' max realloc).Copies s)
    (hrun : (Call.extendBy by' max realloc).run s = some s') : s'.Inv := by
  obtain ⟨⟨mem, mb, ret⟩, hext, rfl⟩ := Option.map_eq_some_iff.mp hrun
  obtain ⟨size, -, hsize⟩ := Option.map_eq_some_iff.mp hext
  revert hsize
  simp only
  generalize (if max ≠ -1 then min (size : Int) max else size) = size'
  split
  · intro hsize
    cases hsize
    exact h.same h.ok rfl
  split
  · intro hsize
    cases hsize
    exact h.same h.ok rfl
  · next ptr mem' hptr =>
    intro hsize
    cases hsize
    obtain ⟨hne, hcopy⟩ := hcopies _ _ _ hptr
    obtain ⟨hok, hcontents⟩ := extended_spec h.ok hne _ hcopy
    exact h.same hok hcontents

/-- Every call keeps what was accepted: removed bytes first, then the contents. -/
theorem Buffered.Inv.step (h : s.Inv) {c : Call} (hcopies : c.Copies s) (hrun : c.run s = some s') :
    s'.Inv := by
  cases c with
  | put buff =>
    obtain ⟨mem, mb, hput, hok, -, hcontents⟩ := membuffPut_spec s.mem h.ok buff
    rw [Call.run, hput] at hrun
    cases hrun
    exact h.accept hok hcontents
  | putbyte ch =>
    obtain ⟨mem, mb, hput, hok, -, hcontents⟩ := membuffPutbyte_spec s.mem h.ok ch
    rw [Call.run, hput] at hrun
    cases hrun
    refine h.accept hok ?_
    rw [hcontents]
    simp only [decide_eq_true_eq]
  | get maxlen =>
    obtain ⟨mb, hget, hok, hrest⟩ := membuffGet_spec s.mem h.ok maxlen
    rw [Call.run, hget] at hrun
    cases hrun
    refine h.remove hok ?_
    rw [hrest, List.take_append_drop]
  | getbyte => exact h.getbyte hrun
  | peekbyte =>
    cases hrun
    rw [membuffPeekbyte_spec s.mem h.ok]
    exact h.same h.ok rfl
  | readline maxlen minch => exact h.readline hrun
  | makecontig =>
    obtain ⟨mem, mb, done, hmake, hok, hcontents⟩ := membuffMakecontig_spec s.mem h.ok
    rw [Call.run, hmake] at hrun
    cases hrun
    exact h.same hok hcontents
  | purge =>
    cases hrun
    obtain ⟨hok, hempty⟩ := membuffPurge_spec s.mem h.ok
    exact h.remove hok (by rw [hempty, List.append_nil])
  | extendBy by' max realloc => exact h.extendBy hcopies hrun

/-- After every sequence of calls on a buffer of at least one byte, with `realloc` keeping what it
moves: the bytes taken out and behind them the contents are the bytes accepted, in order. A call
accepts what fits in and gives what is stored, and the amounts are reported. -/
theorem membuff_is_bounded_fifo (mem : Mem) (buff size : Nat) (hbuff : buff ≠ 0) (hsize : 0 < size) (s : Buffered)
    (hreach : Reaches (fun s c s' => Call.run s c = some s') Call.Copies (Buffered.init mem buff size) s) :
    let stored := s.mb.contents s.mem
    let room := membuffSize s.mb - 1 - stored.length
    s.accepted = s.removed ++ stored ∧ stored.length + 1 ≤ membuffSize s.mb ∧
    (∀ bytes, (membuffPut s.mem s.mb bytes).2.2 = min bytes.length room) ∧
    (∀ ch, (membuffPutbyte s.mem s.mb ch).2.2 = decide (0 < room)) ∧
    (∀ n : Nat, (membuffGet s.mem s.mb n).2 = stored.take n ∧
      (membuffGet s.mem s.mb n).2.length = min n stored.length) ∧
    (membuffGetbyte s.mem s.mb).2 = firstByte stored ∧
    membuffPeekbyte s.mem s.mb = (s.mb, firstByte stored) ∧
    (∀ maxlen minch, (membuffReadline s.mem s.mb maxlen minch).2.1 = (lineRead s.mem s.mb maxlen minch).length) ∧
    membuffAvail s.mb = stored.length ∧ membuffFree s.mb = room ∧
    (membuffIsempty s.mb = true ↔ stored = []) := by
  have hinv : s.Inv := hreach.invariant (buffered_init mem hbuff hsize) fun h hok hs => h.step hok hs
  have hlen := contents_length_lt s.mem hinv.ok
  refine ⟨hinv.moved, hlen, fun bytes => ?_, fun ch => ?_, fun n => ?_, ?_,
    membuffPeekbyte_spec s.mem hinv.ok, fun maxlen minch => ?_, membuffAvail_spec s.mem hinv.ok,
    membuffFree_spec s.mem hinv.ok, membuffIsempty_iff s.mem hinv.ok⟩
  · obtain ⟨mem', mb', hput, -⟩ := membuffPut_spec s.mem hinv.ok bytes
    rw [hput]
  · obtain ⟨mem', mb', hput, -⟩ := membuffPutbyte_spec s.mem hinv.ok ch
    rw [hput]
    exact decide_eq_decide.mpr (by omega)
  · obtain ⟨mb', hget, -⟩ := membuffGet_spec s.mem hinv.ok n
    rw [hget]
    exact ⟨rfl, List.length_take⟩
  · obtain ⟨mb', hget, -⟩ := membuffGetbyte_spec s.mem hinv.ok
    rw [hget]
  · have hspec := membuffReadline_spec s.mem hinv.ok maxlen minch rfl
    split at hspec
    · next hfound =>
      obtain ⟨mb', hread, hline, -⟩ := hspec
      rw [hread, hline, List.length_take_of_le hfound.1]
    · rw [hspec.1, hspec.2]
      rfl

/-- Five bytes are put into a buffer of four, two are taken out, and one more is put in. -/
theorem membuff_is_bounded_fifo_four :
    ∃ s, Reaches (fun s c s' => Call.run s c = some s') Call.Copies (Buffered.init (fun _ => 0) 0x1000 4) s ∧
      s.removed = [1, 2] ∧ s.accepted = [1, 2, 3, 6] ∧
      s.accepted = s.removed ++ s.mb.contents s.mem ∧ membuffFree s.mb = 1 := by
  have h1 : Reaches (fun s c s' => Call.run s c = some s') Call.Copies
      (Buffered.init (fun _ => 0) 0x1000 4) _ := .step .start (a := .put [1, 2, 3, 4, 5]) trivial rfl
  have h2 : Reaches (fun s c s' => Call.run s c = some s') Call.Copies
      (Buffered.init (fun _ => 0) 0x1000 4) _ := .step h1 (a := .get 2) trivial rfl
  have h3 : Reaches (fun s c s' => Call.run s c = some s') Call.Copies
      (Buffered.init (fun _ => 0) 0x1000 4) _ := .step h2 (a := .put [6]) trivial rfl
  obtain ⟨hmoved, -, -, -, -, -, -, -, -, hfree, -⟩ :=
    membuff_is_bounded_fifo (fun _ => 0) 0x1000 4 (by decide) (by decide) _ h3
  exact ⟨_, h3, rfl, rfl, hmoved, hfree⟩

end Runs

end Armada3720.MemBuff
