import Armada3720.Lib.LongDescriptor

/-!
# Constants of the translation table libraries

`xlat_tables_defs.h` and the AArch64 part of `xlat_tables_arch.h`, which both versions of the library use.
-/

namespace Armada3720.Xlat

open Lib

def pageSize : Nat := 4096

def isPageAligned (addr : Nat) : Bool := addr % pageSize = 0

def invalidDesc : BitVec 64 := 0#64
def blockDesc : BitVec 64 := 1#64
def tableDesc : BitVec 64 := 3#64
def pageDesc : BitVec 64 := 3#64
def descMask : BitVec 64 := 3#64
def tableAddrMask : BitVec 64 := 0x0000FFFFFFFFF000#64

def upperAttrs (x : BitVec 64) : BitVec 64 := (x &&& 0x7#64) <<< 52
def lowerAttrs (x : BitVec 64) : BitVec 64 := (x &&& 0xfff#64) <<< 2

def xn : BitVec 64 := 1#64 <<< 2
def uxn : BitVec 64 := 1#64 <<< 2
def pxn : BitVec 64 := 1#64 <<< 1
def accessFlag : BitVec 64 := 1#64 <<< 8
def osh : BitVec 64 := 0x2#64 <<< 6
def ish : BitVec 64 := 0x3#64 <<< 6
def apRo : BitVec 64 := 1#64 <<< 5
def apRw : BitVec 64 := 0#64 <<< 5
def apAccessUnprivileged : BitVec 64 := 1#64 <<< 4
def apNoAccessUnprivileged : BitVec 64 := 0#64 <<< 4
def ns : BitVec 64 := 1#64 <<< 3
def attrNonCacheableIndex : BitVec 64 := 2#64
def attrDeviceIndex : BitVec 64 := 1#64
def attrIwbwaOwbwaNtrIndex : BitVec 64 := 0#64

def xlatTableLevelMax : Nat := 3
def xlatTableEntries : Nat := 512
def minLvlBlockDesc : Nat := 1

def xlatAddrShift (level : Nat) : Nat := 12 + (xlatTableLevelMax - level) * 9

def xlatBlockSize (level : Nat) : Nat := 2 ^ xlatAddrShift level

def getXlatTableLevelBase (virtAddrSpaceSize : Nat) : Nat :=
  if virtAddrSpaceSize > 2 ^ 39 then 0 else if virtAddrSpaceSize > 2 ^ 30 then 1 else 2

def getNumBaseLevelEntries (addrSpaceSize : Nat) : Nat :=
  addrSpaceSize / xlatBlockSize (getXlatTableLevelBase addrSpaceSize)

/-- `CHECK_VIRT_ADDR_SPACE_SIZE`: a power of two of 25 to 48 bits. -/
def CheckVirtAddrSpaceSize (size : Nat) : Prop := ∃ n, 25 ≤ n ∧ n ≤ 48 ∧ size = 2 ^ n

/-- The memory types of `mmap_attr_t`. -/
inductive MemType
  | device
  | nonCacheable
  | memory
  deriving DecidableEq, Repr

def lastByte (base size : Nat) : Nat := (base + size + (2 ^ 64 - 1)) % 2 ^ 64

def sub64 (a b : Nat) : Nat := (a + (2 ^ 64 - b)) % 2 ^ 64

theorem xlatBlockSize_eq {h : Nat} (hh : h ≤ 3) : xlatBlockSize (3 - h) = longFormat.size h := by
  rw [size_eq, xlatBlockSize, xlatAddrShift, xlatTableLevelMax]
  congr 1
  omega

theorem kind_invalidDesc {h : Nat} : longFormat.kind h invalidDesc = .invalid := kind_of_fault (by decide)

theorem kind_tableDesc {h t : Nat} (ht : Fits t) :
    longFormat.kind (h + 1) (tableDesc ||| BitVec.ofNat 64 t) = .table t := by
  rw [BitVec.or_comm]
  refine kind_eq_table.mpr ⟨?_, descAddr_or ht (by decide)⟩
  rw [type_or ht]
  decide

theorem lastByte_eq {base size : Nat} (hsize : 0 < size) (h : base + size ≤ 2 ^ 64) :
    lastByte base size = base + size - 1 := by
  unfold lastByte
  omega

end Armada3720.Xlat
