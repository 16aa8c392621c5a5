import Mathlib
import Armada3720.Lib.Window

/-!
# Memory buffers

`lib/membuff.c`. A buffer is four pointers, with the memory passed beside them. Differences of pointers are
natural numbers: `head` and `tail` never leave the buffer. A `char` is unsigned, as on ARM.
-/

namespace Armada3720.MemBuff

open Lib

abbrev Mem : Type := Nat → UInt8

/-- `struct membuff`; `stop` is the field `end`. -/
structure Membuff where
  start : Nat
  stop : Nat
  head : Nat
  tail : Nat
  deriving DecidableEq, Repr

def membuffPurge (mb : Membuff) : Membuff := { mb with head := mb.start, tail := mb.start }

def membuffInit (buff size : Nat) : Membuff :=
  membuffPurge { start := buff, stop := buff + size, head := 0, tail := 0 }

/-- A length that is no more than `maxlen`, unless that is negative. -/
def clip (maxlen : Int) (len : Nat) : Nat := if maxlen ≥ 0 ∧ len > maxlen then maxlen.toNat else len

/-- The buffer, the number of bytes that can be written, and where. -/
def membuffPutrawflex (mb : Membuff) (maxlen : Int) (update : Bool) : Membuff × Nat × Nat :=
  let offset := mb.head - mb.start
  if mb.start = 0 then (mb, 0, offset)
  else if mb.head ≥ mb.tail then
    let len := clip maxlen (mb.stop - mb.head - 1)
    let mb' := if update then { mb with head := mb.head + len } else mb
    -- one more byte right at the end, if the tail isn't at the start of the buffer
    if (maxlen < 0 ∨ len < maxlen) ∧ mb.tail ≠ mb.start then
      (if update then { mb' with head := mb.start } else mb', len + 1, offset)
    else (mb', len, offset)
  else
    let len := clip maxlen (mb.tail - mb.head - 1)
    (if update then { mb with head := mb.head + len } else mb, len, offset)

/-- The buffer, the number of bytes, and the address to write them to. -/
def membuffPutraw (mb : Membuff) (maxlen : Int) (update : Bool) : Membuff × Nat × Nat :=
  let (mb', size, offset) := membuffPutrawflex mb maxlen update
  (mb', size, mb'.start + offset)

def membuffPutbyte (mem : Mem) (mb : Membuff) (ch : Int) : Mem × Membuff × Bool :=
  let (mb', size, data) := membuffPutraw mb 1 true
  if size ≠ 1 then (mem, mb', false) else (overwrite mem data [UInt8.ofInt ch], mb', true)

/-- The number of bytes that can be read, and the address to read them from, `data` if there are none. -/
def membuffGetraw (mb : Membuff) (maxlen : Int) (update : Bool) (data : Nat) : Membuff × Nat × Nat :=
  if mb.head > mb.tail then
    let len := clip maxlen (mb.head - mb.tail)
    (if update then { mb with tail := mb.tail + len } else mb, len, mb.tail)
  else if mb.head < mb.tail then
    let len := clip maxlen (mb.stop - mb.tail)
    (if update then
      { mb with tail := if mb.tail + len = mb.stop then mb.start else mb.tail + len }
    else mb, len, mb.tail)
  else (mb, 0, data)

def membuffGetbyte (mem : Mem) (mb : Membuff) : Membuff × Int :=
  let (mb', len, data) := membuffGetraw mb 1 true 0
  (mb', if len ≠ 1 then -1 else (mem data).toNat)

def membuffPeekbyte (mem : Mem) (mb : Membuff) : Membuff × Int :=
  let (mb', len, data) := membuffGetraw mb 1 false 0
  (mb', if len ≠ 1 then -1 else (mem data).toNat)

/-- `len` is the length of the last round, and `out` what has been copied to the caller. -/
def getLoop (mem : Mem) : Nat → Nat → Membuff → Int → Nat → List UInt8 → Membuff × List UInt8
  | 0, _, mb, _, _, out => (mb, out)
  | i + 1, len, mb, maxlen, data, out =>
    if len = 0 then (mb, out)
    else
      let (mb', len', data') := membuffGetraw mb maxlen true data
      getLoop mem i len' mb' (maxlen - len') data' (out ++ window mem data' len')

/-- The buffer, and the bytes that are copied to the caller; their number is returned. -/
def membuffGet (mem : Mem) (mb : Membuff) (maxlen : Int) : Membuff × List UInt8 :=
  getLoop mem 2 1 mb maxlen 0 []

/-- The loop of `membuff_put`, for `i` more rounds. -/
def putLoop : Nat → Mem → Membuff → List UInt8 → Nat → Mem × Membuff × Nat
  | 0, mem, mb, _, written => (mem, mb, written)
  | i + 1, mem, mb, buff, written =>
    let (mb', towrite, data) := membuffPutraw mb buff.length true
    putLoop i (overwrite mem data (buff.take towrite)) mb' (buff.drop towrite) (written + towrite)

def membuffPut (mem : Mem) (mb : Membuff) (buff : List UInt8) : Mem × Membuff × Nat :=
  putLoop 2 mem mb buff 0

def membuffIsempty (mb : Membuff) : Bool := mb.head = mb.tail

/-- The loop of `membuff_avail` on the copy of the buffer, for `i` more rounds. -/
def availLoop : Nat → Membuff → Nat → Nat → Nat
  | 0, _, _, avail => avail
  | i + 1, copy, data, avail =>
    let (copy', len, data') := membuffGetraw copy (-1) true data
    availLoop i copy' data' (avail + len)

def membuffAvail (mb : Membuff) : Nat := availLoop 2 mb 0 0

def membuffSize (mb : Membuff) : Nat := mb.stop - mb.start

/-- The end of `membuff_makecontig`: the data at the top go down to the bottom. -/
def moveDown (mem : Mem) (mb : Membuff) (topsize botsize : Nat) : Mem × Membuff × Bool :=
  (overwrite mem mb.start (window mem mb.tail topsize),
    { mb with tail := mb.start, head := mb.start + topsize + botsize }, true)

def membuffMakecontig (mem : Mem) (mb : Membuff) : Mem × Membuff × Bool :=
  if mb.tail > mb.head then
    let topsize := mb.stop - mb.tail
    let botsize := mb.head - mb.start
    if mb.head + topsize ≥ mb.tail then (mem, mb, false)
    else
      let mem := overwrite mem (mb.start + topsize) (window mem mb.start botsize)
      moveDown mem mb topsize botsize
  else moveDown mem mb (mb.head - mb.tail) 0

def membuffFree (mb : Membuff) : Int :=
  if mb.stop = mb.start then 0 else ((mb.stop - mb.start : Nat) : Int) - 1 - membuffAvail mb

def endsLine (minch : Int) (ch : UInt8) : Bool := ch = 10 ∨ (ch.toNat : Int) < minch

/-- What has been copied to `str`, and where the loop has found the end of a line. -/
def readlineLoop (mem : Mem) (mb : Membuff) (minch : Int) :
    Nat → Nat → Nat → List UInt8 → Option (List UInt8 × Nat)
  | 0, _, _, _ => none
  | n + 1, s, stop, str =>
    if s < stop then
      if endsLine minch (mem s) then some (str ++ [mem s], s + 1)
      else if s + 1 = stop ∧ mb.tail > mb.head then
        readlineLoop mem mb minch n mb.start mb.head (str ++ [mem s])
      else readlineLoop mem mb minch n (s + 1) stop (str ++ [mem s])
    else none

/-- With the number of bytes read, and the string at `str` with its terminator, if one is written. -/
def membuffReadline (mem : Mem) (mb : Membuff) (maxlen : Nat) (minch : Int) :
    Membuff × Nat × Option (List UInt8) :=
  let stop := if mb.head ≥ mb.tail then mb.head else mb.stop
  match readlineLoop mem mb minch (maxlen - 1) mb.tail stop [] with
  | none => (mb, 0, if maxlen ≠ 0 then some [0] else none)
  | some (str, s) =>
    ({ mb with tail := if s = mb.stop then mb.start else s }, str.length, some (str.dropLast ++ [0]))

/-- The loop of `membuff_extend_by`. Nothing if it does not end, or leaves the range of `int`. -/
def doubleLoop (target : Nat) : Nat → Nat → Option Nat
  | 0, _ => none
  | fuel + 1, size =>
    if size < target then if 2 * size < 2 ^ 31 then doubleLoop target fuel (2 * size) else none
    else some size

def e2big : Int := 7

def enomem : Int := 12

/-- The buffer has been moved to `ptr`, in the memory `mem`, and has become `by'` bytes longer. -/
def extended (mem : Mem) (mb : Membuff) (ptr by' : Nat) : Mem × Membuff :=
  let orig := mb.stop - mb.start
  let oldhead := mb.head - mb.start
  let oldtail := mb.tail - mb.start
  let mb : Membuff :=
    { start := ptr, stop := ptr + (orig + by'), head := ptr + oldhead, tail := ptr + oldtail }
  if mb.head < mb.tail then
    (overwrite mem (mb.tail + by') (window mem mb.tail (orig - oldtail)), { mb with tail := mb.tail + by' })
  else (mem, mb)

/-- `realloc` gives the new address, if there is one, and the memory after it. -/
def membuffExtendBy (realloc : Nat → Nat → Option (Nat × Mem)) (mem : Mem) (mb : Membuff)
    (by' : Nat) (max : Int) : Option (Mem × Membuff × Int) :=
  let orig := mb.stop - mb.start
  (doubleLoop (orig + by') 32 orig).map fun size =>
    let size : Int := if max ≠ -1 then min (size : Int) max else size
    if size - orig ≤ 0 then (mem, mb, -e2big)
    else
      match realloc mb.start size.toNat with
      | none => (mem, mb, -enomem)
      | some (ptr, mem') =>
        let r := extended mem' mb ptr (size - orig).toNat
        (r.1, r.2, 0)

end Armada3720.MemBuff
