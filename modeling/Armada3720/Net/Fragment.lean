import Armada3720.Net.Holes

/-!
# One fragment

The hole of the fragment is replaced by what the fragment leaves of it (`enterFragment_remnants`).
While a packet is being assembled every byte below a bound is in a hole or has been received (`Assembling`).
`Assembling.enterAt` says so of the holes that the fragment leaves, for a fragment that keeps away from the other
holes (`Entered`); the datagrams of `Reassembly` and the arbitrary fragments of `Received` both rest on it.
-/

namespace Armada3720.Net

open Lib Lib.Cell

/-! ## Fragments -/

namespace Packet

/-- `offset8`: where the fragment begins, in blocks. -/
def offset8 (p : Packet) : Nat := (p.hdr.ipOff &&& ipOffs).toNat

def start (p : Packet) : Nat := p.offset8 * 8

def len (p : Packet) : Int := p.hdr.ipLen.toNat - ipHdrSize

/-- The byte behind the fragment. -/
def stop (p : Packet) : Nat := p.start + p.len.toNat

def IsLast (p : Packet) : Prop := p.hdr.ipOff &&& ipFlagsMfrag = 0

/-- The fragment extends too far, or is so short that it ends before the payload. -/
def TooFar (p : Packet) : Prop := (p.start + p.len) % 2 ^ 64 > ipMaxudp

/-- The caller of `net_defragment` drops packets that are shorter than the header announces. -/
def Whole (p : Packet) : Prop := p.hdr.ipLen.toNat ≤ ipHdrSize + p.data.length

/-- The fragment has `b` for byte `k` of the payload. -/
def Carries (p : Packet) (k : Nat) (b : UInt8) : Prop :=
  p.start ≤ k ∧ k < p.stop ∧ p.data[k - p.start]? = some b

instance (p : Packet) : Decidable p.IsLast := inferInstanceAs (Decidable (_ = _))

instance (p : Packet) : Decidable p.TooFar := inferInstanceAs (Decidable (_ > _))

instance (p : Packet) : Decidable p.Whole := inferInstanceAs (Decidable (_ ≤ _))

theorem tooFar_iff (p : Packet) : p.TooFar ↔ p.start + p.len < 0 ∨ ipMaxudp < p.start + p.len := by
  have hoff : p.offset8 < 2 ^ 16 := UInt16.toNat_lt _
  have hlen := p.hdr.ipLen.toNat_lt
  have hmax : ipMaxudp = 16364 := rfl
  unfold TooFar start len ipHdrSize
  omega

end Packet

/-- The part of the hole before the fragment and the part behind it. -/
def remnants (offset8 len h v : Nat) : List (Nat × Nat) :=
  (if h < offset8 then [(h, offset8 * 8)] else []) ++
    if offset8 * 8 + len < v then [(offset8 + len / 8, v)] else []

/-- Where the hole ends once a last fragment has truncated it. -/
def truncated (last : Prop) [Decidable last] (stop v : Nat) : Nat := if last then stop else v

namespace Statics

section

variable {s : Statics} {pre post : List (Nat × Nat)} {h v offset8 len : Nat}

/-- Fixing the list leaves the remnants of the hole in its place. -/
theorem fixHoles_remnants (hl : Linked s (pre ++ (h, v) :: post))
    (hz : offset8 ≤ h → pre.map Prod.fst ≠ [0]) (hover : h < offset8 + (len + 7) / 8)
    (hrest : offset8 * 8 + len < v → 8 ∣ len ∧ offset8 * 8 + len + 8 ≤ ipMaxudp ∧
      ∀ x ∈ post, offset8 * 8 + len < 8 * x.1) (hstart : offset8 * 8 < 65536) :
    ∃ s', s.fixHoles h offset8 (offset8 * 8) len =
        some (s', decide (pre ++ (remnants offset8 len h v ++ post) = [])) ∧
      (pre ++ (remnants offset8 len h v ++ post) ≠ [] →
        Linked s' (pre ++ (remnants offset8 len h v ++ post))) ∧
      Keeps (fun i => i = h ∨ i ∈ (pre ++ (remnants offset8 len h v ++ post)).map Prod.fst) s s' := by
  have hr := hl.room (h, v) (by simp)
  simp only [fixHoles, lastByte_eq hr, hl.hole_eq, Option.bind_eq_bind, Option.bind_some]
  by_cases hin : offset8 ≤ h
  · have hin' : ¬h < offset8 := Nat.not_lt.mpr hin
    by_cases hend : v ≤ offset8 * 8 + len
    · -- the hole is gone
      have hrem : remnants offset8 len h v = [] := by
        simp [remnants, hin', Nat.not_lt.mpr hend]
      rw [hrem, List.nil_append, if_pos ⟨hin, hend⟩]
      by_cases hne : pre ++ post = []
      · obtain ⟨rfl, rfl⟩ := List.append_eq_nil_iff.mp hne
        exact ⟨s, removeHole_last hl, fun h => absurd rfl h, Keeps.refl _ _⟩
      · obtain ⟨s', hs', hl', hk⟩ := removeHole_spec hl (hz hin) hne
        refine ⟨s', ?_, fun _ => hl', hk.mono fun i hi => Or.inr hi⟩
        rw [hs', decide_eq_false hne]
    · -- the hole is moved behind the fragment
      have hlt : offset8 * 8 + len < v := Nat.not_le.mp hend
      obtain ⟨⟨c, rfl⟩, hroom, hpost⟩ := hrest hlt
      have hrem : remnants offset8 (8 * c) h v = [(offset8 + 8 * c / 8, v)] := by
        simp [remnants, hin', hlt]
      rw [hrem, if_neg fun hh => hend hh.2, if_neg hend, if_pos hin]
      have hlt' : h < offset8 + 8 * c / 8 := by omega
      have hpost' : ∀ x ∈ post, offset8 + 8 * c / 8 < x.1 := by
        intro x hx
        have := hpost x hx
        omega
      obtain ⟨s', hs', hl', hk⟩ := moveHole_spec hl (hz hin) hlt' hpost' (by omega)
      refine ⟨s', ?_, fun _ => hl', hk.mono fun i hi => Or.inr hi⟩
      rw [hs', Option.bind_some, decide_eq_false (by simp)]
  · have hin' : h < offset8 := Nat.not_le.mp hin
    by_cases hend : v ≤ offset8 * 8 + len
    · -- the hole is shortened
      have hrem : remnants offset8 len h v = [(h, offset8 * 8)] := by
        simp [remnants, hin', Nat.not_lt.mpr hend]
      rw [hrem, if_neg fun hh => hin hh.1, if_pos hend]
      obtain ⟨s', hs', hl', hk⟩ := shortenHole_spec hl hstart
      refine ⟨s', ?_, fun _ => hl', hk.mono fun i hi => Or.inl hi⟩
      rw [hs', Option.bind_some, decide_eq_false (by simp)]
    · -- the hole is split
      have hlt : offset8 * 8 + len < v := Nat.not_le.mp hend
      obtain ⟨⟨c, rfl⟩, hroom, hpost⟩ := hrest hlt
      have hrem : remnants offset8 (8 * c) h v = [(h, offset8 * 8), (offset8 + 8 * c / 8, v)] := by
        simp [remnants, hin', hlt]
      rw [hrem, if_neg fun hh => hin hh.1, if_neg hend, if_neg hin]
      have hlt' : h < offset8 + 8 * c / 8 := by omega
      have hpost' : ∀ x ∈ post, offset8 + 8 * c / 8 < x.1 := by
        intro x hx
        have := hpost x hx
        omega
      obtain ⟨s', hs', hl', hk⟩ := splitHole_spec hl hlt' hpost' (by omega) hstart
      refine ⟨s', ?_, fun _ => hl', hk.mono fun i hi => Or.inr hi⟩
      rw [hs', Option.bind_some, decide_eq_false (by simp)]

theorem truncateHole_truncated (hl : Linked s (pre ++ (h, v) :: post)) (p : Packet) {stop : Nat}
    (hstop : stop < 65536) :
    ∃ s', s.truncateHole p.hdr h stop = some s' ∧
      Linked s' (pre ++ (h, truncated p.IsLast stop v) :: post) ∧
      (∀ k, ¬InSlot h k → s'.payload k = s.payload k) ∧ s'.localip = s.localip ∧
      s'.totalLen = truncated p.IsLast stop s.totalLen := by
  by_cases hlast : p.IsLast
  · have hl1 : Linked { s with totalLen := stop % 65536 } (pre ++ (h, v) :: post) :=
      ⟨hl.seg, hl.first, hl.sorted, hl.room⟩
    obtain ⟨s', hs', hl', hk⟩ := shortenHole_spec hl1 hstop
    simp only [truncated, if_pos hlast]
    refine ⟨s', ?_, hl', fun k hk' => hk.payload k fun i hi => hi ▸ hk', hk.localip, ?_⟩
    · exact (if_pos hlast).trans hs'
    · rw [hk.totalLen]
      exact Nat.mod_eq_of_lt hstop
  · simp only [truncated, if_neg hlast]
    exact ⟨s, if_neg hlast, hl, fun _ _ => rfl, rfl, rfl⟩

/-- The holes after the fragment `p` has been entered in the hole `h`. -/
def holesAfter (p : Packet) (pre post : List (Nat × Nat)) (h v : Nat) : List (Nat × Nat) :=
  pre ++ (remnants p.offset8 p.len.toNat h (truncated p.IsLast p.stop v) ++ post)

/-- The packet is returned if no hole is left. What lies outside of the fragment and of the descriptors stays.
-/
theorem enterFragment_remnants (hl : Linked s (pre ++ (h, v) :: post)) {p : Packet}
    (hz : p.offset8 ≤ h → pre.map Prod.fst ≠ [0])
    (hover : h < p.offset8 + (p.len.toNat + 7) / 8)
    (hrest : ¬p.IsLast → p.stop < v → 8 ∣ p.len.toNat ∧ p.stop + 8 ≤ ipMaxudp ∧
      ∀ x ∈ post, p.stop < 8 * x.1)
    (hstop : p.stop ≤ ipMaxudp) (hdata : p.len.toNat ≤ p.data.length)
    (hside : ∀ x ∈ holesAfter p pre post h v, 8 * x.1 + 8 ≤ p.start ∨ p.stop ≤ 8 * x.1) :
    ∃ s', s.enterFragment p h p.offset8 p.start p.len.toNat =
        (if holesAfter p pre post h v = [] then some s'.wholePacket else some (s', none)) ∧
      (holesAfter p pre post h v ≠ [] → Linked s' (holesAfter p pre post h v)) ∧
      (∀ k, p.start ≤ k → k < p.stop → s'.payload k = p.data.getD (k - p.start) 0) ∧
      (∀ k, ¬(p.start ≤ k ∧ k < p.stop) →
        (∀ i, i = h ∨ i ∈ (holesAfter p pre post h v).map Prod.fst → ¬InSlot i k) →
        s'.payload k = s.payload k) ∧
      s'.localip = s.localip ∧ s'.totalLen = truncated p.IsLast p.stop s.totalLen := by
  have hmax : ipMaxudp = 16364 := rfl
  obtain ⟨s1, hs1, hl1, hpay1, hip1, htotal1⟩ := truncateHole_truncated hl p (show p.stop < 65536 by omega)
  have hrest' : p.offset8 * 8 + p.len.toNat < truncated p.IsLast p.stop v →
      8 ∣ p.len.toNat ∧ p.offset8 * 8 + p.len.toNat + 8 ≤ ipMaxudp ∧
        ∀ x ∈ post, p.offset8 * 8 + p.len.toNat < 8 * x.1 := by
    intro hlt
    by_cases hlast : p.IsLast
    · rw [truncated, if_pos hlast] at hlt
      exact absurd hlt (Nat.lt_irrefl _)
    · rw [truncated, if_neg hlast] at hlt
      exact hrest hlast hlt
  have hstart : p.offset8 * 8 < 65536 := by
    unfold Packet.stop Packet.start at hstop
    omega
  obtain ⟨s2, hs2, hl2, hk2⟩ := fixHoles_remnants hl1 hz hover hrest' hstart
  obtain ⟨s3, hs3, hin3, hout3, hip3, hfirst3, htotal3⟩ := copyIn_spec (s := s2) hdata
    (show p.start + p.len.toNat ≤ ipMaxudp from hstop)
  refine ⟨s3, ?_, fun hne => ?_, hin3, fun k hk hslots => ?_, ?_, ?_⟩
  · have hs1' : s.truncateHole p.hdr h (p.start + p.len.toNat) = some s1 := hs1
    have hs2' : s1.fixHoles h p.offset8 p.start p.len.toNat =
      some (s2, decide (holesAfter p pre post h v = [])) := hs2
    simp only [enterFragment, hs1', hs2', hs3, Option.bind_eq_bind, Option.bind_some, decide_eq_true_eq]
  · refine (hl2 hne).of_payload hfirst3 fun x hx k hk => hout3 k fun hin => ?_
    obtain ⟨hk1, hk2⟩ := hk
    have hx := hside x hx
    unfold Packet.stop at hx
    omega
  · rw [hout3 k hk, hk2.payload k hslots, hpay1 k (hslots h (Or.inl rfl))]
  · rw [hip3, hk2.localip, hip1]
  · rw [htotal3, hk2.totalLen, htotal1]

end

end Statics

open Statics

/-! ## The holes and the bytes received -/

/-- One of the accepted fragments has `b` for byte `k`. -/
def Received (accepted : List Packet) (k : Nat) (b : UInt8) : Prop :=
  ∃ f ∈ accepted, f.Carries k b

theorem Received.append {accepted : List Packet} {k : Nat} {b : UInt8}
    (h : Received accepted k b) (p : Packet) : Received (accepted ++ [p]) k b :=
  let ⟨f, hf, hc⟩ := h
  ⟨f, List.mem_append_left _ hf, hc⟩

/-- The holes lie apart, begin and end on block boundaries and end at `bound` at the latest. -/
structure Layout (hs : List (Nat × Nat)) (bound : Nat) : Prop where
  slot : ∀ x ∈ hs, 8 * x.1 + 8 ≤ x.2
  aligned : ∀ x ∈ hs, x.2 = 0xffff ∨ 8 ∣ x.2
  le_bound : ∀ x ∈ hs, x.2 ≤ bound
  apart : hs.Pairwise fun x y => x.2 ≤ 8 * y.1

/-- Byte `k` is in one of the holes. -/
def InHoles (hs : List (Nat × Nat)) (k : Nat) : Prop := ∃ x ∈ hs, 8 * x.1 ≤ k ∧ k < x.2

/-- A fragment is entered in the hole `h`, with the holes `pre` before it and `post` behind. -/
structure Entered (pre post : List (Nat × Nat)) (h v offset8 len : Nat) (last : Prop) : Prop where
  pre_lt : ∀ x ∈ pre, x.2 < offset8 * 8
  start_le : offset8 * 8 ≤ v
  overlaps : h < offset8 + (len + 7) / 8
  rest : ¬last → offset8 * 8 + len < v → 8 ∣ len ∧ offset8 * 8 + len + 8 ≤ ipMaxudp
  cut : last → offset8 * 8 + len < v → post = []
  next : ∀ x ∈ post, offset8 * 8 + len ≤ 8 * x.1

section Layout

variable {pre post : List (Nat × Nat)} {h v offset8 len bound : Nat} {last : Prop} [Decidable last]

/-- Up to where bytes are accounted for after a fragment. -/
def newBound (last : Prop) [Decidable last] (stop v bound : Nat) : Nat :=
  if last then if stop < v then stop else max bound stop else bound

theorem mem_remnants {x : Nat × Nat} :
    x ∈ remnants offset8 len h (truncated last (offset8 * 8 + len) v) ↔
      (h < offset8 ∧ x = (h, offset8 * 8)) ∨
      (¬last ∧ offset8 * 8 + len < v ∧ x = (offset8 + len / 8, v)) := by
  rw [remnants, truncated, List.mem_append]
  refine or_congr ?_ ?_
  · split <;> simp [*]
  · by_cases hl : last
    · simp [hl]
    · simp only [hl, if_false, not_false_eq_true, true_and]
      split <;> simp [*]

theorem mem_left {x : Nat × Nat}
    (hx : x ∈ pre ++ (remnants offset8 len h (truncated last (offset8 * 8 + len) v) ++ post)) :
    x ∈ pre ∨ (h < offset8 ∧ x = (h, offset8 * 8)) ∨
      (¬last ∧ offset8 * 8 + len < v ∧ x = (offset8 + len / 8, v)) ∨ x ∈ post := by
  rcases List.mem_append.mp hx with hx | hx
  · exact Or.inl hx
  · rcases List.mem_append.mp hx with hx | hx
    · rcases mem_remnants.mp hx with hx | hx
      · exact Or.inr (Or.inl hx)
      · exact Or.inr (Or.inr (Or.inl hx))
    · exact Or.inr (Or.inr (Or.inr hx))

variable (hlay : Layout (pre ++ (h, v) :: post) bound) (hent : Entered pre post h v offset8 len last)
include hlay hent

omit [Decidable last] in
theorem Layout.room_rest (hl : ¬last) (hlt : offset8 * 8 + len < v) :
    8 * (offset8 + len / 8) = offset8 * 8 + len ∧ offset8 * 8 + len + 8 ≤ v := by
  obtain ⟨⟨c, rfl⟩, hroom⟩ := hent.rest hl hlt
  have hmul : 8 * c / 8 = c := Nat.mul_div_cancel_left c (by omega)
  refine ⟨by omega, ?_⟩
  rcases hlay.aligned (h, v) (by simp) with hv | ⟨e, hv⟩
  · have hmax : ipMaxudp = 16364 := rfl
    omega
  · omega

theorem Layout.enter :
    Layout (pre ++ (remnants offset8 len h (truncated last (offset8 * 8 + len) v) ++ post))
      (newBound last (offset8 * 8 + len) v bound) := by
  have hpw := List.pairwise_append.mp hlay.apart
  have hpost := List.pairwise_cons.mp hpw.2.1
  have hv := hlay.le_bound (h, v) (by simp)
  have hstart := hent.start_le
  refine ⟨fun x hx => ?_, fun x hx => ?_, fun x hx => ?_, ?_⟩
  · rcases mem_left hx with hx | ⟨hlt, rfl⟩ | ⟨hl, hlt, rfl⟩ | hx
    · exact hlay.slot x (by simp [hx])
    · omega
    · obtain ⟨h1, h2⟩ := hlay.room_rest hent hl hlt
      omega
    · exact hlay.slot x (by simp [hx])
  · rcases mem_left hx with hx | ⟨hlt, rfl⟩ | ⟨hl, hlt, rfl⟩ | hx
    · exact hlay.aligned x (by simp [hx])
    · exact Or.inr ⟨offset8, Nat.mul_comm _ _⟩
    · exact hlay.aligned (h, v) (by simp)
    · exact hlay.aligned x (by simp [hx])
  · unfold newBound
    rcases mem_left hx with hx | ⟨-, rfl⟩ | ⟨hl, -, rfl⟩ | hx
    · have hlt := hent.pre_lt x hx
      split_ifs <;> omega
    · split_ifs <;> omega
    · rw [if_neg hl]
      exact hv
    · have hle := hlay.le_bound x (by simp [hx])
      split_ifs with hl hlt
      · rw [hent.cut hl hlt] at hx
        cases hx
      · exact hle.trans (Nat.le_max_left _ _)
      · exact hle
  · refine List.pairwise_append.mpr ⟨hpw.1, List.pairwise_append.mpr ⟨?_, hpost.2, ?_⟩, ?_⟩
    · refine List.pairwise_append.mpr ⟨by split <;> simp, by split <;> simp, fun x hx y hy => ?_⟩
      split at hx
      · split at hy
        · next hlt =>
          rw [List.mem_singleton] at hx hy
          subst hx hy
          by_cases hl : last
          · simp [truncated, hl] at hlt
          · have hlt' : offset8 * 8 + len < v := by simpa [truncated, hl] using hlt
            omega
        · cases hy
      · cases hx
    · intro x hx y hy
      have hvy : v ≤ 8 * y.1 := hpost.1 y hy
      rcases mem_remnants.mp hx with ⟨-, rfl⟩ | ⟨-, -, rfl⟩
      · omega
      · exact hvy
    · intro x hx y hy
      have hxh : x.2 ≤ 8 * h := hpw.2.2 x hx (h, v) (by simp)
      have hxs := hent.pre_lt x hx
      rcases List.mem_append.mp hy with hy | hy
      · rcases mem_remnants.mp hy with ⟨-, rfl⟩ | ⟨hl, hlt, rfl⟩
        · exact hxh
        · omega
      · exact hpw.2.2 x hx y (by simp [hy])

theorem Layout.slot_outside {x : Nat × Nat}
    (hx : x ∈ pre ++ (remnants offset8 len h (truncated last (offset8 * 8 + len) v) ++ post)) :
    8 * x.1 + 8 ≤ offset8 * 8 ∨ offset8 * 8 + len ≤ 8 * x.1 := by
  rcases mem_left hx with hx | ⟨hlt, rfl⟩ | ⟨hl, hlt, rfl⟩ | hx
  · have h1 := hlay.slot x (by simp [hx])
    have h2 := hent.pre_lt x hx
    omega
  · left
    omega
  · right
    exact (hlay.room_rest hent hl hlt).1.ge
  · exact Or.inr (hent.next x hx)

theorem Layout.slot_inHoles {i k : Nat}
    (hi : i = h ∨ i ∈ (pre ++ (remnants offset8 len h (truncated last (offset8 * 8 + len) v) ++
      post)).map Prod.fst) (hk : Statics.InSlot i k) : InHoles (pre ++ (h, v) :: post) k := by
  obtain ⟨hk1, hk2⟩ := hk
  have hself := hlay.slot (h, v) (by simp)
  have hover := hent.overlaps
  rcases hi with rfl | hi
  · exact ⟨(i, v), by simp, hk1, by omega⟩
  · obtain ⟨x, hx, rfl⟩ := List.mem_map.mp hi
    rcases mem_left hx with hx | ⟨hlt, rfl⟩ | ⟨hl, hlt, rfl⟩ | hx
    · have := hlay.slot x (by simp [hx])
      exact ⟨x, by simp [hx], hk1, by omega⟩
    · exact ⟨(h, v), by simp, hk1, by omega⟩
    · obtain ⟨h1, h2⟩ := hlay.room_rest hent hl hlt
      refine ⟨(h, v), by simp, ?_, ?_⟩
      · omega
      · omega
    · have := hlay.slot x (by simp [hx])
      exact ⟨x, by simp [hx], hk1, by omega⟩

theorem Layout.accounted {k : Nat} (hk : k < newBound last (offset8 * 8 + len) v bound) :
    (offset8 * 8 ≤ k ∧ k < offset8 * 8 + len) ∨
      InHoles (pre ++ (remnants offset8 len h (truncated last (offset8 * 8 + len) v) ++ post)) k ∨
      (k < bound ∧ ¬InHoles (pre ++ (h, v) :: post) k) := by
  by_cases hin : offset8 * 8 ≤ k ∧ k < offset8 * 8 + len
  · exact Or.inl hin
  right
  have hv := hlay.le_bound (h, v) (by simp)
  have hstart := hent.start_le
  by_cases hold : InHoles (pre ++ (h, v) :: post) k
  · left
    obtain ⟨x, hx, hk1, hk2⟩ := hold
    have hother : x ∈ pre ∨ x ∈ post →
        x ∈ pre ++ (remnants offset8 len h (truncated last (offset8 * 8 + len) v) ++ post) := by
      rintro (hx | hx)
      · exact List.mem_append_left _ hx
      · exact List.mem_append_right _ (List.mem_append_right _ hx)
    rcases List.mem_append.mp hx with hx | hx
    · exact ⟨x, hother (Or.inl hx), hk1, hk2⟩
    · rcases List.mem_cons.mp hx with rfl | hx
      · have hmid : ∀ y ∈ remnants offset8 len h (truncated last (offset8 * 8 + len) v),
            y ∈ pre ++ (remnants offset8 len h (truncated last (offset8 * 8 + len) v) ++ post) :=
          fun y hy => List.mem_append_right _ (List.mem_append_left _ hy)
        rcases Nat.lt_or_ge k (offset8 * 8) with hlt | hge
        · exact ⟨(h, offset8 * 8), hmid _ (mem_remnants.mpr (Or.inl ⟨by omega, rfl⟩)), hk1, hlt⟩
        · have hbehind : offset8 * 8 + len ≤ k := by
            by_contra hlt
            exact hin ⟨hge, by omega⟩
          have hl : ¬last := by
            intro hl
            rw [newBound, if_pos hl, if_pos (by omega)] at hk
            omega
          have hlt : offset8 * 8 + len < v := by omega
          exact ⟨(offset8 + len / 8, v), hmid _ (mem_remnants.mpr (Or.inr ⟨hl, hlt, rfl⟩)), by omega, hk2⟩
      · exact ⟨x, hother (Or.inr hx), hk1, hk2⟩
  · refine Or.inr ⟨?_, hold⟩
    by_contra hge
    unfold newBound at hk
    split_ifs at hk <;> omega

end Layout


/-- A packet is being assembled from the fragments `accepted`, with the holes `hs`. -/
structure Assembling (s : Statics) (accepted : List Packet) (hs : List (Nat × Nat)) (bound : Nat) :
    Prop where
  linked : Linked s hs
  ne_nil : hs ≠ []
  layout : Layout hs bound
  covered : ∀ k < bound, InHoles hs k ∨ Received accepted k (s.payload k)
  totalLen_pos : 0 < s.totalLen
  totalLen_le : s.totalLen ≤ bound
  ipId : ∀ f ∈ accepted, f.hdr.ipId = s.localip.ipId

section Step

variable {s : Statics} {accepted : List Packet} {pre post : List (Nat × Nat)} {bound h v : Nat} {p : Packet}

theorem reset_assembling (ip : IpHdr) (hfresh : s.totalLen = 0 ∨ s.localip.ipId ≠ ip.ipId) :
    ∃ s', s.reset ip = some s' ∧ Assembling s' [] [(0, 0xffff)] 0xffff ∧ s'.totalLen = 0xffff ∧ s'.localip = ip := by
  obtain ⟨s', hs', hl, htotal, hip⟩ := reset_fresh ip hfresh
  refine ⟨s', hs', ⟨hl, by simp, ⟨by simp, by simp, by simp, by simp⟩, fun k hk => ?_, ?_, htotal.le, by simp⟩,
    htotal, hip⟩
  · exact Or.inl ⟨(0, 0xffff), by simp, Nat.zero_le k, hk⟩
  · rw [htotal]
    decide

/-- What the fragment `p` leaves when it is entered in the hole `h`: if holes are left the assembly goes on, and
otherwise all bytes of the packet have been received. -/
structure Assembles (p : Packet) (accepted : List Packet) (hs : List (Nat × Nat)) (bound : Nat) (s s' : Statics)
    (result : Option (Statics × Option (Packet × Nat))) : Prop where
  more : hs ≠ [] → result = some (s', none) ∧ Assembling s' (accepted ++ [p]) hs bound
  done : hs = [] → result = some s'.wholePacket ∧ ∀ k < s'.totalLen, Received (accepted ++ [p]) k (s'.payload k)
  localip : s'.localip = s.localip
  ipId : ∀ f ∈ accepted ++ [p], f.hdr.ipId = s'.localip.ipId
  totalLen : s'.totalLen = truncated p.IsLast p.stop s.totalLen

/-- A fragment is entered in the hole `h`. -/
theorem Assembling.enterAt (inv : Assembling s accepted (pre ++ (h, v) :: post) bound)
    (hent : Entered pre post h v p.offset8 p.len.toNat p.IsLast) (hz : p.offset8 ≤ h → pre.map Prod.fst ≠ [0])
    (hid : p.hdr.ipId = s.localip.ipId) (hstop : p.stop ≤ ipMaxudp) (hdata : p.len.toNat ≤ p.data.length) :
    ∃ s', Assembles p accepted (holesAfter p pre post h v) (newBound p.IsLast p.stop v bound) s s'
      (s.enterFragment p h p.offset8 p.start p.len.toNat) := by
  have hlay := inv.layout
  have hpos : 0 < p.stop := by
    have hover := hent.overlaps
    unfold Packet.stop Packet.start
    omega
  have hrest : ¬p.IsLast → p.stop < v → 8 ∣ p.len.toNat ∧ p.stop + 8 ≤ ipMaxudp ∧
      ∀ x ∈ post, p.stop < 8 * x.1 := by
    intro hlast hlt
    obtain ⟨hdvd, hroom⟩ := hent.rest hlast hlt
    refine ⟨hdvd, hroom, fun x hx => ?_⟩
    have hapart := (List.pairwise_cons.mp (List.pairwise_append.mp hlay.apart).2.1).1 x hx
    omega
  obtain ⟨s', hrun, hl', hin, hkept, hip, htotal⟩ := enterFragment_remnants inv.linked hz hent.overlaps
    hrest hstop hdata fun x hx => hlay.slot_outside hent hx
  have hcopied : ∀ k, p.start ≤ k → k < p.stop →
      Received (accepted ++ [p]) k (s'.payload k) := by
    intro k hk1 hk2
    have hlt : k - p.start < p.data.length := by
      unfold Packet.stop at hk2
      omega
    refine ⟨p, by simp, hk1, hk2, ?_⟩
    rw [hin k hk1 hk2, List.getD_eq_getElem?_getD, List.getElem?_eq_getElem hlt]
    rfl
  have hcovered : ∀ k < newBound p.IsLast p.stop v bound,
      InHoles (holesAfter p pre post h v) k ∨ Received (accepted ++ [p]) k (s'.payload k) := by
    intro k hk
    rcases hlay.accounted hent hk with ⟨hk1, hk2⟩ | hhole | ⟨hk, hno⟩
    · exact Or.inr (hcopied k hk1 hk2)
    · exact Or.inl hhole
    · by_cases hfrag : p.start ≤ k ∧ k < p.stop
      · exact Or.inr (hcopied k hfrag.1 hfrag.2)
      · -- a byte that was received and is not in the fragment stays as it is
        rw [hkept k hfrag fun i hi hslot => hno (hlay.slot_inHoles hent hi hslot)]
        exact Or.inr (((inv.covered k hk).resolve_left hno).append p)
  have hbound : s'.totalLen ≤ newBound p.IsLast p.stop v bound := by
    have hle := inv.totalLen_le
    rw [htotal, truncated, newBound]
    split_ifs <;> omega
  have hids : ∀ f ∈ accepted ++ [p], f.hdr.ipId = s'.localip.ipId := by
    intro f hf
    rw [hip]
    rcases List.mem_append.mp hf with hf | hf
    · exact inv.ipId f hf
    · rw [List.mem_singleton.mp hf, hid]
  refine ⟨s', fun hne => ?_, fun hdone => ?_, hip, hids, htotal⟩
  · rw [if_neg hne] at hrun
    refine ⟨hrun, hl' hne, hne, hlay.enter hent, hcovered, ?_, hbound, hids⟩
    have hpos' := inv.totalLen_pos
    rw [htotal, truncated]
    split_ifs <;> omega
  · rw [if_pos hdone] at hrun
    refine ⟨hrun, fun k hk => (hcovered k (by omega)).resolve_left ?_⟩
    rintro ⟨x, hx, -⟩
    rw [hdone] at hx
    cases hx

end Step

namespace Statics

/-- The walk leaves the buffer (`none`), the fragment is dropped (`some none`), or it is entered in a hole. -/
def sought (s : Statics) (p : Packet) : Option (Option Nat) :=
  (s.findHole p.start (ipMaxudp / 8 + 1) s.firstHole).map fun found =>
    found.filter fun h => ¬(p.offset8 + (p.len + 7).tdiv 8 ≤ h)

theorem placeFragment_sought (s : Statics) (p : Packet) :
    s.placeFragment p p.offset8 p.start p.len = (s.sought p).bind fun found =>
      match found with
      | none => some (s, none)
      | some h => if p.len < 0 then none else s.enterFragment p h p.offset8 p.start p.len.toNat := by
  rw [placeFragment, sought]
  cases s.findHole p.start (ipMaxudp / 8 + 1) s.firstHole with
  | none => rfl
  | some found =>
    cases found with
    | none => rfl
    | some h =>
      simp only [Option.bind_eq_bind, Option.bind_some, Option.map_some, Option.filter_some]
      by_cases hle : p.offset8 + (p.len + 7).tdiv 8 ≤ h <;> simp [hle]

end Statics

theorem netDefragment_eq_place (s : Statics) (p : Packet) :
    netDefragment s p = if p.TooFar then some (s, none)
      else (s.reset p.hdr).bind fun s => s.placeFragment p p.offset8 p.start p.len := rfl

end Armada3720.Net
