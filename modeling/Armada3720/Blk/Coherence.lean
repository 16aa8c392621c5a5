import Armada3720.Blk.Cache

/-!
# The block cache cannot be seen

Every node is what the selected partition of its device holds. A selection of another partition while the device
has nodes breaks this, as nothing drops them; so does a range whose end does not fit 64 bits.

`blkDread_full` is for runs without either (`BlkState.Safe`), whatever the driver answers. What a read that returns
less than the full count has left in the buffer is not described.
-/

namespace Armada3720.Blk

open Lib

/-- The bytes that a node is a copy of. -/
def BlockCacheNode.entry (node : BlockCacheNode) : RangeCache.Entry DevKey UInt8 :=
  ⟨node.key, node.start * node.blksz, node.cache.take (node.blkcnt * node.blksz)⟩

namespace BlkState

variable {δ : Type*} {drv : DevKey → BlkDriver δ} {s : BlkState δ} {key : DevKey} {start blkcnt : Nat} {mem : Malloc}

/-- A selection changes the partition only of a device without nodes, a node that seems to hold the blocks of a
read holds them, and a device that cannot read is not asked for as many blocks as `-ENOSYS` is. -/
def Safe (drv : DevKey → BlkDriver δ) (s : BlkState δ) : Call → Prop
  | .read key start blkcnt _ =>
    (∀ node ∈ s.cache.nodes, node.holds key start blkcnt (drv key).blksz →
      start + blkcnt ≤ node.start + node.blkcnt) ∧
    ((drv key).ops.read = none → blkcnt ≠ enosys)
  | .selectHwpart key hwpart =>
    ∀ select, (drv key).ops.selectHwpart = some select →
      (drv key).hwpart (select (s.dev key) hwpart).2 ≠ (drv key).hwpart (s.dev key) →
        ∀ node ∈ s.cache.nodes, node.key ≠ key
  | _ => True

/-- The states after any number of safe calls from an empty cache. -/
inductive Run (drv : DevKey → BlkDriver δ) : BlkState δ → Prop
  | start (dev : DevKey → δ) : Run drv ⟨.initial, dev⟩
  | call {s : BlkState δ} {c : Call} (h : Run drv s) (hc : Safe drv s c) : Run drv (s.call drv c)

/-- The blocks of a node fit its buffer and the address space. -/
structure Sized (drv : DevKey → BlkDriver δ) (node : BlockCacheNode) : Prop where
  blksz : node.blksz = (drv node.key).blksz
  bytes : node.blkcnt * node.blksz < 2 ^ 64
  room : node.blkcnt * node.blksz ≤ node.cache.length

/-- The nodes are counted, and each is a copy of the selected partition. -/
structure Inv (drv : DevKey → BlkDriver δ) (s : BlkState δ) : Prop where
  entries : s.cache.entries = s.cache.nodes.length
  sized : ∀ node ∈ s.cache.nodes, Sized drv node
  coherent : RangeCache.Coherent (fun key => (drv key).current (s.dev key)) (s.cache.nodes.map BlockCacheNode.entry)

theorem inv_start (dev : DevKey → δ) : Inv drv ⟨.initial, dev⟩ := ⟨rfl, nofun, .nil⟩

theorem Inv.subset (h : Inv drv s) {c : BlockCache} (hnodes : c.nodes ⊆ s.cache.nodes)
    (hentries : c.entries = c.nodes.length) : Inv drv { s with cache := c } where
  entries := hentries
  sized node hnode := h.sized node (hnodes hnode)
  coherent := h.coherent.subset (List.map_subset _ hnodes)

/-- A device changes that has no nodes, or its selected partition stays as it is. -/
theorem Inv.device (h : Inv drv s) (d : δ)
    (hd : (drv key).current d = (drv key).current (s.dev key) ∨ ∀ node ∈ s.cache.nodes, node.key ≠ key) :
    Inv drv { s with dev := Function.update s.dev key d } where
  entries := h.entries
  sized := h.sized
  coherent := by
    refine h.coherent.change fun e he => ?_
    obtain ⟨node, hnode, rfl⟩ := List.mem_map.mp he
    rcases eq_or_ne node.key key with heq | hne
    · have hd := hd.resolve_right fun hn => hn node hnode heq
      subst heq
      simpa only [BlockCacheNode.entry, Function.update_self] using hd
    · simp only [BlockCacheNode.entry, Function.update_of_ne hne]

/-! ## Finding a node -/

theorem cacheFind_spec (c : BlockCache) (key : DevKey) (start blkcnt blksz : Nat) :
    (c.cacheFind key start blkcnt blksz).2.nodes ⊆ c.nodes ∧
      (c.cacheFind key start blkcnt blksz).2.nodes.length = c.nodes.length ∧
      (c.cacheFind key start blkcnt blksz).2.entries = c.entries ∧
      ∀ node, (c.cacheFind key start blkcnt blksz).1 = some node →
        node ∈ c.nodes ∧ node.holds key start blkcnt blksz := by
  unfold BlockCache.cacheFind
  split
  · rename_i found hfound
    have hmem := List.mem_of_find?_eq_some hfound
    have hholds := List.find?_some hfound
    refine ⟨List.cons_subset.mpr ⟨hmem, List.eraseP_subset⟩, ?_, rfl, ?_⟩
    · rw [List.length_cons, List.length_eraseP_of_mem hmem hholds]
      exact Nat.succ_pred_eq_of_pos (List.length_pos_of_mem hmem)
    · rintro node ⟨⟩
      exact ⟨hmem, hholds⟩
  · exact ⟨List.Subset.refl _, rfl, rfl, nofun⟩

theorem Inv.blkcacheRead (h : Inv drv s) (key : DevKey) (start blkcnt blksz : Nat) :
    Inv drv { s with cache := (s.cache.blkcacheRead key start blkcnt blksz).2 } := by
  obtain ⟨hsubset, hlength, hentries, -⟩ := cacheFind_spec s.cache key start blkcnt blksz
  unfold BlockCache.blkcacheRead
  split
  all_goals
    rename_i hfind
    rw [hfind] at hsubset hlength hentries
    exact h.subset hsubset (hentries.trans (h.entries.trans hlength.symm))

theorem Inv.copied (h : Inv drv s) {node : BlockCacheNode} (hnode : node ∈ s.cache.nodes)
    (hholds : node.holds key start blkcnt (drv key).blksz)
    (hend : start + blkcnt ≤ node.start + node.blkcnt) :
    (node.cache.drop ((start - node.start) * (drv key).blksz % 2 ^ 64)).take ((drv key).blksz * blkcnt % 2 ^ 64) =
      window ((drv key).current (s.dev key)) (start * (drv key).blksz) (blkcnt * (drv key).blksz) := by
  obtain ⟨rfl, hblksz, hstart, -⟩ := of_decide_eq_true hholds
  obtain ⟨-, hbytes, hroom⟩ := h.sized node hnode
  rw [hblksz] at hbytes hroom
  generalize hbs : (drv node.key).blksz = bs at *
  -- the part lies inside the copy, so that the products are below 2^64
  have hsum : (start - node.start) * bs + blkcnt * bs ≤ node.blkcnt * bs := by
    rw [← Nat.add_mul]
    exact Nat.mul_le_mul_right _ (by omega)
  have hskip : (start - node.start) * bs % 2 ^ 64 = (start - node.start) * bs :=
    Nat.mod_eq_of_lt (by omega)
  have hlen : bs * blkcnt % 2 ^ 64 = blkcnt * bs := by
    rw [Nat.mul_comm]
    exact Nat.mod_eq_of_lt (by omega)
  have hfrom : node.start * bs + (start - node.start) * bs = start * bs := by
    rw [← Nat.add_mul, Nat.add_sub_cancel' hstart]
  have hdata : node.entry.data = node.cache.take (node.blkcnt * bs) := by
    rw [BlockCacheNode.entry, hblksz]
  have hlookup := h.coherent.lookup (List.mem_map_of_mem hnode)
    ((start - node.start) * bs) (blkcnt * bs) (by rw [hdata, List.length_take]; omega)
  rw [hdata, List.drop_take, List.take_take, Nat.min_eq_left (by omega)] at hlookup
  rw [hskip, hlen, hlookup, ← hfrom]
  simp only [BlockCacheNode.entry, hblksz]

theorem Inv.hit (h : Inv drv s) (hsafe : Safe drv s (.read key start blkcnt mem)) {buffer : List UInt8}
    (hhit : (s.cache.blkcacheRead key start blkcnt (drv key).blksz).1 = some buffer) :
    buffer = window ((drv key).current (s.dev key)) (start * (drv key).blksz) (blkcnt * (drv key).blksz) := by
  obtain ⟨-, -, -, hfound⟩ := cacheFind_spec s.cache key start blkcnt (drv key).blksz
  unfold BlockCache.blkcacheRead at hhit
  split at hhit
  · rename_i node c hfind
    cases hhit
    obtain ⟨hnode, hholds⟩ := hfound node (by rw [hfind])
    exact h.copied hnode hholds (hsafe.1 node hnode hholds)
  · cases hhit

/-! ## Keeping the blocks of a read -/

theorem Inv.addNode (h : Inv drv s) {cache buffer : List UInt8} (hroom : blkcnt * (drv key).blksz ≤ cache.length)
    (hbuffer : buffer = window ((drv key).current (s.dev key)) (start * (drv key).blksz) (blkcnt * (drv key).blksz))
    (hbytes : blkcnt * (drv key).blksz < 2 ^ 64) :
    Inv drv { s with cache := s.cache.addNode key start blkcnt (drv key).blksz cache buffer } := by
  have hlen : (drv key).blksz * blkcnt % 2 ^ 64 = blkcnt * (drv key).blksz := by
    rw [Nat.mul_comm]
    exact Nat.mod_eq_of_lt hbytes
  have hbuflen : buffer.length = blkcnt * (drv key).blksz := by rw [hbuffer, length_window]
  have hcopy : memcpy cache buffer (blkcnt * (drv key).blksz) =
      buffer ++ cache.drop (blkcnt * (drv key).blksz) := by
    rw [memcpy, Nat.min_eq_left hroom, List.take_of_length_le (Nat.le_of_eq hbuflen)]
  have hdata : (memcpy cache buffer (blkcnt * (drv key).blksz)).take (blkcnt * (drv key).blksz) =
      buffer := by
    rw [hcopy, ← hbuflen, List.take_left]
  refine ⟨congrArg (· + 1) h.entries, List.forall_mem_cons.mpr ⟨⟨rfl, hbytes, ?_⟩, h.sized⟩, h.coherent.cons ?_⟩
  · dsimp only
    rw [hlen, hcopy, List.length_append, List.length_drop]
    omega
  · simp only [BlockCacheNode.entry, hlen, hdata, hbuflen]
    exact hbuffer

theorem Inv.allocNode (h : Inv drv s) {buffer : List UInt8}
    (hbuffer : buffer = window ((drv key).current (s.dev key)) (start * (drv key).blksz) (blkcnt * (drv key).blksz))
    (hbytes : blkcnt * (drv key).blksz < 2 ^ 64) :
    Inv drv { s with cache := s.cache.allocNode key start blkcnt (drv key).blksz buffer mem } := by
  unfold BlockCache.allocNode
  split
  · refine h.addNode (Nat.le_of_eq ?_) hbuffer hbytes
    rw [List.length_replicate, Nat.mul_comm (drv key).blksz, Nat.mod_eq_of_lt hbytes]
  · exact h

theorem Inv.popLru (h : Inv drv s) : Inv drv { s with cache := s.cache.popLru } := by
  refine h.subset (List.dropLast_subset _) ?_
  rw [BlockCache.popLru, h.entries, List.length_dropLast]

/-- A full read is kept, in a buffer of its own or in that of the node it displaces. -/
theorem Inv.blkcacheFill (h : Inv drv s) {buffer : List UInt8}
    (hbuffer : buffer = window ((drv key).current (s.dev key)) (start * (drv key).blksz) (blkcnt * (drv key).blksz))
    (hbytes : blkcnt * (drv key).blksz < 2 ^ 64) :
    Inv drv { s with cache := s.cache.blkcacheFill key start blkcnt (drv key).blksz buffer mem } := by
  unfold BlockCache.blkcacheFill
  split
  · exact h
  split
  · exact h
  split
  · split
    · rename_i node hlast
      split
      · exact h.popLru.allocNode hbuffer hbytes
      · rename_i hlarge
        have hsized := h.sized node (List.mem_of_getLast? hlast)
        refine h.popLru.addNode ?_ hbuffer hbytes
        rw [Nat.mod_eq_of_lt hsized.bytes, Nat.mul_comm (drv key).blksz, Nat.mod_eq_of_lt hbytes] at hlarge
        exact Nat.le_trans (Nat.le_of_not_lt hlarge) hsized.room
    · exact h
  split
  · exact h.allocNode hbuffer hbytes
  · exact h

/-! ## Every call -/

section

variable (h : Inv drv s)
include h

theorem Inv.blkcacheInvalidate (key : DevKey) :
    Inv drv { s with cache := s.cache.blkcacheInvalidate key } := by
  refine h.subset List.filter_sublist.subset ?_
  have hcount := List.length_eq_countP_add_countP (fun node : BlockCacheNode => decide (node.key = key))
    (l := s.cache.nodes)
  have hfilter : (s.cache.nodes.filter fun node => decide (node.key ≠ key)).length =
      s.cache.nodes.countP fun node => decide ¬(decide (node.key = key) = true) := by
    rw [← List.countP_eq_length_filter]
    simp
  simp only [BlockCache.blkcacheInvalidate, h.entries, hfilter]
  omega

theorem Inv.replace (key : DevKey) (d : δ) : Inv drv (s.replace key d) := by
  refine (h.blkcacheInvalidate key).device d (.inr fun node hnode => ?_)
  exact of_decide_eq_true (List.mem_filter.mp hnode).2

theorem Inv.driverRead {read : δ → Nat → Nat → Nat × List UInt8 × δ} (hread : (drv key).ops.read = some read) :
    Inv drv (s.driverRead drv key start blkcnt mem (read (s.dev key) start blkcnt)).2.2 := by
  obtain ⟨hhwpart, hcontents⟩ := (drv key).read_keeps read hread (s.dev key) start blkcnt
  have hsame : (drv key).current (read (s.dev key) start blkcnt).2.2 = (drv key).current (s.dev key) := by
    rw [BlkDriver.current, hhwpart, hcontents]
    rfl
  unfold BlkState.driverRead
  by_cases hfull : (read (s.dev key) start blkcnt).1 = blkcnt
  · obtain ⟨hbuffer, hbytes⟩ := (drv key).read_full read hread _ _ _ hfull
    rw [if_pos hfull]
    exact (h.blkcacheFill hbuffer hbytes).device _ (.inl hsame)
  · rw [if_neg hfull]
    exact h.device _ (.inl hsame)

theorem Inv.blkDread (key : DevKey) (start blkcnt : Nat) (mem : Malloc) :
    Inv drv (s.blkDread drv key start blkcnt mem).2.2 := by
  have hcache := h.blkcacheRead key start blkcnt (drv key).blksz
  unfold BlkState.blkDread
  split
  · exact h
  rename_i read hread
  split
  · rename_i heq
    rwa [heq] at hcache
  · rename_i heq
    rw [heq] at hcache
    exact hcache.driverRead hread

theorem Inv.blkDwrite (key : DevKey) (start blkcnt : Nat) (buffer : List UInt8) :
    Inv drv (s.blkDwrite drv key start blkcnt buffer).2 := by
  unfold BlkState.blkDwrite
  split
  · exact h
  · exact h.replace key _

theorem Inv.blkDerase (key : DevKey) (start blkcnt : Nat) :
    Inv drv (s.blkDerase drv key start blkcnt).2 := by
  unfold BlkState.blkDerase
  split
  · exact h
  · exact h.replace key _

theorem Inv.blkSelectHwpart (key : DevKey) (hwpart : Int) (hsafe : Safe drv s (.selectHwpart key hwpart)) :
    Inv drv (s.blkSelectHwpart drv key hwpart).2 := by
  unfold BlkState.blkSelectHwpart
  split
  · exact h
  rename_i select hselect
  refine h.device _ ?_
  by_cases hpart : (drv key).hwpart (select (s.dev key) hwpart).2 = (drv key).hwpart (s.dev key)
  · left
    rw [BlkDriver.current, hpart, (drv key).select_keeps select hselect]
    rfl
  · exact .inr (hsafe select hselect hpart)

theorem Inv.configure (blocks entries : UInt32) :
    Inv drv { s with cache := s.cache.blkcacheConfigure blocks entries } := by
  unfold BlockCache.blkcacheConfigure
  split
  · exact ⟨rfl, nofun, .nil⟩
  · exact ⟨h.entries, h.sized, h.coherent⟩

theorem Inv.call (c : Call) (hsafe : Safe drv s c) : Inv drv (s.call drv c) := by
  cases c with
  | read key start blkcnt mem => exact h.blkDread key start blkcnt mem
  | write key start blkcnt buffer => exact h.blkDwrite key start blkcnt buffer
  | erase key start blkcnt => exact h.blkDerase key start blkcnt
  | selectHwpart key hwpart => exact h.blkSelectHwpart key hwpart hsafe
  | configure blocks entries => exact h.configure blocks entries

end

theorem Run.inv (h : Run drv s) : Inv drv s := by
  induction h with
  | start dev => exact inv_start dev
  | call _ hc ih => exact ih.call _ hc

end BlkState

/-- After any safe calls, a read that returns the full count has put the blocks of the selected partition into
the buffer. -/
theorem blkDread_full {δ : Type*} (drv : DevKey → BlkDriver δ) (s : BlkState δ)
    (hrun : BlkState.Run drv s) (key : DevKey) (start blkcnt : Nat) (mem : Malloc)
    (hsafe : s.Safe drv (.read key start blkcnt mem))
    (hfull : (s.blkDread drv key start blkcnt mem).1 = blkcnt) :
    (s.blkDread drv key start blkcnt mem).2.1 =
      window ((drv key).contents (s.dev key) ((drv key).hwpart (s.dev key)))
        (start * (drv key).blksz) (blkcnt * (drv key).blksz) := by
  unfold BlkState.blkDread at hfull ⊢
  split
  · rename_i hread
    rw [hread] at hfull
    exact absurd hfull.symm (hsafe.2 hread)
  rename_i read hread
  rw [hread] at hfull
  split
  · rename_i heq
    exact hrun.inv.hit hsafe (by rw [heq])
  · rename_i heq
    rw [heq] at hfull
    exact ((drv key).read_full read hread _ _ _ hfull).1

def numberedParts : BlkDriver Int where
  ops :=
    { read := some fun part start blkcnt =>
        if blkcnt * 512 < 2 ^ 64 then
          (blkcnt, window (fun _ => UInt8.ofNat part.toNat) (start * 512) (blkcnt * 512), part)
        else (0, [], part)
      write := none
      erase := none
      selectHwpart := some fun _ part => (0, part) }
  blksz := 512
  hwpart part := part
  contents _ part _ := UInt8.ofNat part.toNat
  read_full := by
    rintro _ ⟨⟩ part start blkcnt hfull
    by_cases hlt : blkcnt * 512 < 2 ^ 64
    · simp only [if_pos hlt, true_and]
      exact hlt
    · simp only [if_neg hlt] at hfull
      omega
  read_keeps := by
    rintro _ ⟨⟩ part start blkcnt
    dsimp only
    split <;> exact ⟨rfl, rfl⟩
  select_keeps _ _ _ _ := rfl

def mmc0 : DevKey := ⟨.mmc, 0⟩

def numberedStart : BlkState Int := ⟨.initial, fun _ => 0⟩

/-- Block 0 is read for a second time, now from the cache. -/
theorem blkDread_full_cached : ((numberedStart.call (fun _ => numberedParts) (.read mmc0 0 1 ⟨true, true⟩)).blkDread
        (fun _ => numberedParts) mmc0 0 1 ⟨true, true⟩).2.1 = window (fun _ => 0) 0 512 := by
  have hsafe : numberedStart.Safe (fun _ => numberedParts) (.read mmc0 0 1 ⟨true, true⟩) :=
    ⟨nofun, nofun⟩
  refine blkDread_full (fun _ => numberedParts) _ (.call (.start _) hsafe) mmc0 0 1 ⟨true, true⟩
    ⟨fun node hnode _ => ?_, nofun⟩ rfl
  exact Nat.le_of_eq (congrArg (fun node => node.start + node.blkcnt) (List.mem_singleton.mp hnode)).symm

/-- Block 0 is read, another partition is selected, and block 0 is read again: it is that of the first
partition. -/
theorem blkDread_stale_hwpart :
    let s := (numberedStart.call (fun _ => numberedParts) (.read mmc0 0 1 ⟨true, true⟩)).call
      (fun _ => numberedParts) (.selectHwpart mmc0 1)
    let r := s.blkDread (fun _ => numberedParts) mmc0 0 1 ⟨true, true⟩
    r.1 = 1 ∧ r.2.1 ≠ window (numberedParts.contents (s.dev mmc0) (numberedParts.hwpart (s.dev mmc0))) 0 512 :=
  ⟨rfl, fun h => absurd (congrArg List.head? h) (by decide +kernel)⟩

end Armada3720.Blk
