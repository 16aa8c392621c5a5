import Mathlib

/-!
# IP reassembly

`__net_defragment` of `net/net.c` with the default `CONFIG_NET_MAXDEFRAG`. The list of the holes between
fragments is kept in the holes themselves: the first eight bytes of a hole say where it ends and which holes are
next to it. An access outside of `pkt_buff`, a copy of a negative length and a walk that does not end are
`none`.
-/

namespace Armada3720.Net

def ipHdrSize : Nat := 20

def ipPktsize : Nat := 16384

/-- `IP_MAXUDP`: the bytes of `pkt_buff` after the IP header. -/
def ipMaxudp : Nat := ipPktsize - ipHdrSize

def ipOffs : UInt16 := 0x1fff

def ipFlagsMfrag : UInt16 := 0x2000

/-- The IP part of `struct ip_udp_hdr`, its numbers in host order. -/
structure IpHdr where
  ipHlV : UInt8
  ipTos : UInt8
  ipLen : UInt16
  ipId : UInt16
  ipOff : UInt16
  ipTtl : UInt8
  ipP : UInt8
  ipSum : UInt16
  ipSrc : UInt32
  ipDst : UInt32
  deriving DecidableEq

/-- A packet: its header and the bytes received after it. -/
structure Packet where
  hdr : IpHdr
  data : List UInt8
  deriving DecidableEq

/-- `pkt_buff`, as the header and the bytes after it, and the two numbers. -/
structure Statics where
  localip : IpHdr
  payload : Nat → UInt8
  firstHole : Nat
  totalLen : Nat

namespace Statics

/-! ## The holes -/

def word (s : Statics) (at_ : Nat) : Nat := (s.payload at_).toNat + 256 * (s.payload (at_ + 1)).toNat

def load16 (s : Statics) (at_ : Nat) : Option Nat :=
  if at_ + 2 ≤ ipMaxudp then some (s.word at_) else none

def store16 (s : Statics) (at_ v : Nat) : Option Statics :=
  if at_ + 2 ≤ ipMaxudp then
    some { s with payload := fun k =>
      if k = at_ then UInt8.ofNat (v % 256)
      else if k = at_ + 1 then UInt8.ofNat (v / 256 % 256)
      else s.payload k }
  else none

/-- `payload[i].last_byte`. -/
def lastByte (s : Statics) (i : Nat) : Option Nat := s.load16 (8 * i)

/-- `payload[i].next_hole`. -/
def nextHole (s : Statics) (i : Nat) : Option Nat := s.load16 (8 * i + 2)

/-- `payload[i].prev_hole`. -/
def prevHole (s : Statics) (i : Nat) : Option Nat := s.load16 (8 * i + 4)

def setLastByte (s : Statics) (i v : Nat) : Option Statics := s.store16 (8 * i) v

def setNextHole (s : Statics) (i v : Nat) : Option Statics := s.store16 (8 * i + 2) v

def setPrevHole (s : Statics) (i v : Nat) : Option Statics := s.store16 (8 * i + 4) v

/-- `payload[dst] = payload[src]`. -/
def copyHole (s : Statics) (dst src : Nat) : Option Statics :=
  if 8 * dst + 8 ≤ ipMaxudp ∧ 8 * src + 8 ≤ ipMaxudp then
    some { s with payload := fun k =>
      if 8 * dst ≤ k ∧ k < 8 * dst + 8 then s.payload (8 * src + (k - 8 * dst)) else s.payload k }
  else none

/-- `memcpy` of the first `len` bytes of `data` to the byte `start`. -/
def copyIn (s : Statics) (start : Nat) (data : List UInt8) (len : Nat) : Option Statics :=
  if len ≤ data.length ∧ start + len ≤ ipMaxudp then
    some { s with payload := fun k =>
      if start ≤ k ∧ k < start + len then data.getD (k - start) 0 else s.payload k }
  else none

/-! ## The reassembly -/

/-- A new or different packet resets the variables. -/
def reset (s : Statics) (ip : IpHdr) : Option Statics :=
  if s.totalLen = 0 ∨ s.localip.ipId ≠ ip.ipId then do
    let s ← s.setLastByte 0 0xffff
    let s ← s.setNextHole 0 0
    let s ← s.setPrevHole 0 0
    some { s with totalLen := 0xffff, firstHole := 0, localip := ip }
  else some s

/-- The walk to the first hole that does not end before `start`; the inner `none` is "no hole
that far away". -/
def findHole (s : Statics) (start : Nat) : Nat → Nat → Option (Option Nat)
  | 0, _ => none
  | fuel + 1, h => do
    let last ← s.lastByte h
    if last < start then
      let next ← s.nextHole h
      if next = 0 then some none else findHole s start fuel next
    else some (some h)

/-- Complete overlap with the hole `h`: remove it. The flag says that it was the last one. -/
def removeHole (s : Statics) (h : Nat) : Option (Statics × Bool) := do
  let prev ← s.prevHole h
  let next ← s.nextHole h
  if prev = 0 ∧ next = 0 then some (s, true)
  else if prev = 0 then
    let s ← ({ s with firstHole := next } : Statics).setPrevHole next 0
    some (s, false)
  else if next = 0 then
    let s ← s.setNextHole prev 0
    some (s, false)
  else
    let s ← s.setPrevHole next prev
    let s ← s.setNextHole prev next
    some (s, false)

/-- `if (h->next_hole) payload[h->next_hole].prev_hole = h - payload`. -/
def linkNextBack (s : Statics) (h : Nat) : Option Statics := do
  let next ← s.nextHole h
  if next ≠ 0 then s.setPrevHole next h else some s

/-- Overlap with the initial part of the hole `h`: move it to `newh`. -/
def moveHole (s : Statics) (h newh : Nat) : Option Statics := do
  let s ← s.copyHole newh h
  let s ← s.linkNextBack newh
  let prev ← s.prevHole newh
  if prev ≠ 0 then s.setNextHole prev newh else some { s with firstHole := newh }

/-- The fragment sits in the middle of the hole `h`: split it. -/
def splitHole (s : Statics) (h newh start : Nat) : Option Statics := do
  let s ← s.copyHole newh h
  let s ← s.setLastByte h start
  let s ← s.setNextHole h newh
  let s ← s.setPrevHole newh h
  s.linkNextBack newh

/-- Fix the list of holes for a fragment that overlaps with the hole `h`. -/
def fixHoles (s : Statics) (h offset8 start len : Nat) : Option (Statics × Bool) := do
  let last ← s.lastByte h
  if offset8 ≤ h ∧ last ≤ start + len then s.removeHole h
  else if last ≤ start + len then
    let s ← s.setLastByte h start
    some (s, false)
  else if offset8 ≤ h then
    let s ← s.moveHole h (offset8 + len / 8)
    some (s, false)
  else
    let s ← s.splitHole h (offset8 + len / 8) start
    some (s, false)

/-- No more fragments: truncate this (last) hole. -/
def truncateHole (s : Statics) (ip : IpHdr) (h stop : Nat) : Option Statics :=
  if ip.ipOff &&& ipFlagsMfrag = 0 then
    ({ s with totalLen := stop % 65536 } : Statics).setLastByte h stop
  else some s

/-- The whole packet, with its length for `*lenp`. -/
def wholePacket (s : Statics) : Statics × Option (Packet × Nat) :=
  let localip := { s.localip with ipLen := UInt16.ofNat s.totalLen }
  ({ s with localip := localip }, some (⟨localip, (List.range s.totalLen).map s.payload⟩, s.totalLen + ipHdrSize))

/-- The hole is truncated if the fragment is the last one; the packet is returned if there is no hole left. -/
def enterFragment (s : Statics) (ip : Packet) (h offset8 start len : Nat) :
    Option (Statics × Option (Packet × Nat)) := do
  let s ← s.truncateHole ip.hdr h (start + len)
  let (s, done) ← s.fixHoles h offset8 start len
  let s ← s.copyIn start ip.data len
  if done then some s.wholePacket else some (s, none)

/-- The fragment is sought among the holes, and entered if it overlaps with one. -/
def placeFragment (s : Statics) (ip : Packet) (offset8 start : Nat) (len : Int) :
    Option (Statics × Option (Packet × Nat)) := do
  match ← s.findHole start (ipMaxudp / 8 + 1) s.firstHole with
  | none => some (s, none)
  | some h =>
    if offset8 + (len + 7).tdiv 8 ≤ h then some (s, none)
    -- the `memcpy` at the end would be handed a negative length
    else if len < 0 then none
    else s.enterFragment ip h offset8 start len.toNat

end Statics

/-- The variables after the call, and the packet it returns with `*lenp` (`none` is `NULL`). -/
def netDefragment (s : Statics) (ip : Packet) : Option (Statics × Option (Packet × Nat)) :=
  let offset8 := (ip.hdr.ipOff &&& ipOffs).toNat
  let start := offset8 * 8
  let len : Int := ip.hdr.ipLen.toNat - ipHdrSize
  -- `IP_MAXUDP` is a `size_t`, so the sum is compared as one: a negative one is too far
  if (start + len) % 2 ^ 64 > ipMaxudp then some (s, none)
  else do
    let s ← s.reset ip.hdr
    s.placeFragment ip offset8 start len

end Armada3720.Net
