import Armada3720.Lib.RangeCache
import Mathlib

/-!
# The block cache

`blkcache.c` and its callers in `blk-uclass.c`. The cache is a list with the most recently used node first. A
read inside a node's range is served from it; a write or erase drops the nodes of the device. A device is known
by its interface type and number, which `blk_create_device` gives only once.
-/

namespace Armada3720.Blk

open Lib

inductive IfType
  | unknown | ide | scsi | atapi | usb | doc | mmc | sd | sata | host | nvme | efi
  deriving DecidableEq, Repr

/-- A block device, by the fields of its descriptor that tell it from the others. -/
structure DevKey where
  ifType : IfType
  devnum : Int
  deriving DecidableEq, Repr

/-- `struct block_cache_node`, with the allocated buffer for the pointer. -/
structure BlockCacheNode where
  key : DevKey
  start : Nat
  blkcnt : Nat
  blksz : Nat
  cache : List UInt8
  deriving DecidableEq, Repr

/-- The list of nodes and the `struct block_cache_stats`. -/
structure BlockCache where
  nodes : List BlockCacheNode
  hits : Nat
  misses : Nat
  entries : Nat
  maxBlocksPerEntry : Nat
  maxEntries : Nat
  deriving DecidableEq, Repr

/-- Which of its two allocations a fill gets. -/
structure Malloc where
  node : Bool
  cache : Bool
  deriving DecidableEq, Repr

/-- `memcpy` of `n` bytes; what the destination has no room for is lost. -/
def memcpy (dst src : List UInt8) (n : Nat) : List UInt8 :=
  src.take (min n dst.length) ++ dst.drop n

/-- The test of `cache_find`; the ends of the ranges are sums of 64 bits. -/
def BlockCacheNode.holds (node : BlockCacheNode) (key : DevKey) (start blkcnt blksz : Nat) : Bool :=
  node.key = key ∧ node.blksz = blksz ∧ node.start ≤ start ∧
    (start + blkcnt) % 2 ^ 64 ≤ (node.start + node.blkcnt) % 2 ^ 64

namespace BlockCache

def initial : BlockCache where
  nodes := []
  hits := 0
  misses := 0
  entries := 0
  maxBlocksPerEntry := 2
  maxEntries := 32

/-- The first node that holds the blocks is moved to the front. -/
def cacheFind (c : BlockCache) (key : DevKey) (start blkcnt blksz : Nat) :
    Option BlockCacheNode × BlockCache :=
  match c.nodes.find? (·.holds key start blkcnt blksz) with
  | some node =>
    (some node, { c with nodes := node :: c.nodes.eraseP (·.holds key start blkcnt blksz) })
  | none => (none, c)

/-- The bytes that are copied to the buffer on a hit. -/
def blkcacheRead (c : BlockCache) (key : DevKey) (start blkcnt blksz : Nat) :
    Option (List UInt8) × BlockCache :=
  match c.cacheFind key start blkcnt blksz with
  | (some node, c) =>
    (some ((node.cache.drop ((start - node.start) * blksz % 2 ^ 64)).take (blksz * blkcnt % 2 ^ 64)),
      { c with hits := (c.hits + 1) % 2 ^ 32 })
  | (none, c) => (none, { c with misses := (c.misses + 1) % 2 ^ 32 })

/-- A node with this buffer is put in front. -/
def addNode (c : BlockCache) (key : DevKey) (start blkcnt blksz : Nat) (cache buffer : List UInt8) :
    BlockCache :=
  { c with
    nodes := ⟨key, start, blkcnt, blksz, memcpy cache buffer (blksz * blkcnt % 2 ^ 64)⟩ :: c.nodes
    entries := c.entries + 1 }

/-- The buffer is allocated for a node that has none. -/
def allocNode (c : BlockCache) (key : DevKey) (start blkcnt blksz : Nat) (buffer : List UInt8)
    (mem : Malloc) : BlockCache :=
  if mem.cache then
    c.addNode key start blkcnt blksz (List.replicate (blksz * blkcnt % 2 ^ 64) 0) buffer
  else c

/-- The least recently used node is taken out. -/
def popLru (c : BlockCache) : BlockCache :=
  { c with nodes := c.nodes.dropLast, entries := c.entries - 1 }

/-- A full cache gives up its last node, whose buffer is used again if it is large enough. -/
def blkcacheFill (c : BlockCache) (key : DevKey) (start blkcnt blksz : Nat) (buffer : List UInt8)
    (mem : Malloc) : BlockCache :=
  if c.maxBlocksPerEntry < blkcnt then c
  else if c.maxEntries = 0 then c
  else if c.maxEntries ≤ c.entries then
    match c.nodes.getLast? with
    | some node =>
      if node.blkcnt * node.blksz % 2 ^ 64 < blksz * blkcnt % 2 ^ 64 then
        c.popLru.allocNode key start blkcnt blksz buffer mem
      else c.popLru.addNode key start blkcnt blksz node.cache buffer
    -- there is a node, as `entries` counts them
    | none => c
  else if mem.node then c.allocNode key start blkcnt blksz buffer mem
  else c

def blkcacheInvalidate (c : BlockCache) (key : DevKey) : BlockCache :=
  { c with
    nodes := c.nodes.filter (·.key ≠ key)
    entries := c.entries - c.nodes.countP (·.key = key) }

/-- New limits; all nodes are dropped if one has changed. -/
def blkcacheConfigure (c : BlockCache) (blocks entries : UInt32) : BlockCache :=
  if blocks.toNat ≠ c.maxBlocksPerEntry ∨ entries.toNat ≠ c.maxEntries then
    ⟨[], 0, 0, 0, blocks.toNat, entries.toNat⟩
  else { c with hits := 0, misses := 0 }

end BlockCache

/-! ## The block devices -/

/-- `struct blk_ops`, on the state `δ` of a device. Reads, writes and erases return a count. -/
structure BlkOps (δ : Type*) where
  read : Option (δ → Nat → Nat → Nat × List UInt8 × δ)
  write : Option (δ → Nat → Nat → List UInt8 → Nat × δ)
  erase : Option (δ → Nat → Nat → Nat × δ)
  selectHwpart : Option (δ → Int → Int × δ)

/-- A driver with the bytes of every hardware partition, one of which is selected. A read that returns the full
count has read the selected one; neither it nor a selection changes what is stored. -/
structure BlkDriver (δ : Type*) where
  ops : BlkOps δ
  blksz : Nat
  hwpart : δ → Int
  contents : δ → Int → Nat → UInt8
  read_full : ∀ read, ops.read = some read → ∀ d start blkcnt, (read d start blkcnt).1 = blkcnt →
    (read d start blkcnt).2.1 = window (contents d (hwpart d)) (start * blksz) (blkcnt * blksz) ∧
      blkcnt * blksz < 2 ^ 64
  read_keeps : ∀ read, ops.read = some read → ∀ d start blkcnt,
    hwpart (read d start blkcnt).2.2 = hwpart d ∧ contents (read d start blkcnt).2.2 = contents d
  select_keeps : ∀ select, ops.selectHwpart = some select → ∀ d part, contents (select d part).2 = contents d

def BlkDriver.current {δ : Type*} (drv : BlkDriver δ) (d : δ) : Nat → UInt8 :=
  drv.contents d (drv.hwpart d)

structure BlkState (δ : Type*) where
  cache : BlockCache
  dev : DevKey → δ

def enosys : Nat := 2 ^ 64 - 38

namespace BlkState

variable {δ : Type*} (drv : DevKey → BlkDriver δ)

/-- The driver reads, and a full read is kept. -/
def driverRead (s : BlkState δ) (key : DevKey) (start blkcnt : Nat) (mem : Malloc)
    (r : Nat × List UInt8 × δ) : Nat × List UInt8 × BlkState δ :=
  (r.1, r.2.1,
    { cache :=
        if r.1 = blkcnt then s.cache.blkcacheFill key start blkcnt (drv key).blksz r.2.1 mem
        else s.cache
      dev := Function.update s.dev key r.2.2 })

/-- The count, what is put into the buffer, and the state after. -/
def blkDread (s : BlkState δ) (key : DevKey) (start blkcnt : Nat) (mem : Malloc) :
    Nat × List UInt8 × BlkState δ :=
  match (drv key).ops.read with
  | none => (enosys, [], s)
  | some read =>
    match s.cache.blkcacheRead key start blkcnt (drv key).blksz with
    | (some buffer, cache) => (blkcnt, buffer, { s with cache := cache })
    | (none, cache) =>
      driverRead drv { s with cache := cache } key start blkcnt mem (read (s.dev key) start blkcnt)

/-- The nodes of a device are dropped and its state becomes `d`. -/
def replace (s : BlkState δ) (key : DevKey) (d : δ) : BlkState δ where
  cache := s.cache.blkcacheInvalidate key
  dev := Function.update s.dev key d

def blkDwrite (s : BlkState δ) (key : DevKey) (start blkcnt : Nat) (buffer : List UInt8) : Nat × BlkState δ :=
  match (drv key).ops.write with
  | none => (enosys, s)
  | some write =>
    let r := write (s.dev key) start blkcnt buffer
    (r.1, s.replace key r.2)

def blkDerase (s : BlkState δ) (key : DevKey) (start blkcnt : Nat) : Nat × BlkState δ :=
  match (drv key).ops.erase with
  | none => (enosys, s)
  | some erase =>
    let r := erase (s.dev key) start blkcnt
    (r.1, s.replace key r.2)

/-- The driver is asked to select a partition; the cache is not told. -/
def blkSelectHwpart (s : BlkState δ) (key : DevKey) (hwpart : Int) : Int × BlkState δ :=
  match (drv key).ops.selectHwpart with
  | none => (0, s)
  | some select =>
    let r := select (s.dev key) hwpart
    (r.1, { s with dev := Function.update s.dev key r.2 })

inductive Call
  | read (key : DevKey) (start blkcnt : Nat) (mem : Malloc)
  | write (key : DevKey) (start blkcnt : Nat) (buffer : List UInt8)
  | erase (key : DevKey) (start blkcnt : Nat)
  | selectHwpart (key : DevKey) (hwpart : Int)
  | configure (blocks entries : UInt32)

def call (s : BlkState δ) : Call → BlkState δ
  | .read key start blkcnt mem => (s.blkDread drv key start blkcnt mem).2.2
  | .write key start blkcnt buffer => (s.blkDwrite drv key start blkcnt buffer).2
  | .erase key start blkcnt => (s.blkDerase drv key start blkcnt).2
  | .selectHwpart key hwpart => (s.blkSelectHwpart drv key hwpart).2
  | .configure blocks entries => { s with cache := s.cache.blkcacheConfigure blocks entries }

end BlkState

end Armada3720.Blk
