import Mathlib.Data.List.Perm.Subperm
import Armada3720.Lib.LinkedCells
import Armada3720.Net.Defrag

/-!
# The list of holes

A hole is named by the index of its first eight bytes, and its value is the byte it ends at. The list is one of
`Armada3720.Lib.Cell`; index 0 ends it on both sides, so a link back must not lead to a hole at index 0.
-/

namespace Armada3720.Net.Statics

open Lib Lib.Cell

variable {s s' s'' : Statics}

/-- The descriptor of the hole at index `i`. -/
def hole (s : Statics) (i : Nat) : Cell Nat := ⟨s.word (8 * i), s.word (8 * i + 2), s.word (8 * i + 4)⟩

/-- `k` is one of the bytes of the descriptor at index `i`. -/
def InSlot (i k : Nat) : Prop := 8 * i ≤ k ∧ k < 8 * i + 8

/-- The calls between `s` and `s'` have written descriptors of `slots` only. -/
structure Keeps (slots : Nat → Prop) (s s' : Statics) : Prop where
  payload : ∀ k, (∀ i, slots i → ¬InSlot i k) → s'.payload k = s.payload k
  totalLen : s'.totalLen = s.totalLen
  localip : s'.localip = s.localip

theorem Keeps.refl (slots : Nat → Prop) (s : Statics) : Keeps slots s s :=
  ⟨fun _ _ => rfl, rfl, rfl⟩

theorem Keeps.trans {slots : Nat → Prop} (h : Keeps slots s s') (h' : Keeps slots s' s'') :
    Keeps slots s s'' :=
  ⟨fun k hk => (h'.payload k hk).trans (h.payload k hk), h'.totalLen.trans h.totalLen, h'.localip.trans h.localip⟩

theorem Keeps.mono {slots slots' : Nat → Prop} (h : Keeps slots s s')
    (hsub : ∀ i, slots i → slots' i) : Keeps slots' s s' :=
  ⟨fun k hk => h.payload k fun i hi => hk i (hsub i hi), h.totalLen, h.localip⟩

/-- `s'` is `s` with another descriptor at index `i`. -/
structure Writes (s : Statics) (i : Nat) (c : Cell Nat) (s' : Statics) : Prop where
  keeps : Keeps (· = i) s s'
  hole_self : s'.hole i = c
  firstHole : s'.firstHole = s.firstHole

theorem hole_congr {i : Nat} (hb : ∀ k, InSlot i k → s'.payload k = s.payload k) : s'.hole i = s.hole i := by
  simp only [InSlot] at hb
  simp only [hole, word, hb (8 * i) (by omega), hb (8 * i + 1) (by omega), hb (8 * i + 2) (by omega),
    hb (8 * i + 2 + 1) (by omega), hb (8 * i + 4) (by omega), hb (8 * i + 4 + 1) (by omega)]

theorem Keeps.hole {slots : Nat → Prop} (h : Keeps slots s s') {i : Nat} (hi : ¬slots i) :
    s'.hole i = s.hole i := by
  refine hole_congr fun k hk => h.payload k fun j hj hjk => hi ?_
  have : i = j := by unfold InSlot at hk hjk; omega
  exact this ▸ hj

theorem Writes.hole {i : Nat} {c : Cell Nat} (h : Writes s i c s') (k : Nat) :
    s'.hole k = if k = i then c else s.hole k := by
  by_cases hk : k = i
  · rw [if_pos hk, hk, h.hole_self]
  · rw [if_neg hk, h.keeps.hole hk]

theorem Writes.relinksNext {i n : Nat} (h : Writes s i ⟨(s.hole i).val, n, (s.hole i).prev⟩ s') (k : Nat) :
    s'.hole k = if k = i then ⟨(s.hole k).val, n, (s.hole k).prev⟩ else s.hole k := by
  rw [h.hole]
  by_cases hk : k = i
  · rw [if_pos hk, if_pos hk, hk]
  · rw [if_neg hk, if_neg hk]

theorem Writes.relinksPrev {i n : Nat} (h : Writes s i ⟨(s.hole i).val, (s.hole i).next, n⟩ s') (k : Nat) :
    s'.hole k = if k = i then ⟨(s.hole k).val, (s.hole k).next, n⟩ else s.hole k := by
  rw [h.hole]
  by_cases hk : k = i
  · rw [if_pos hk, if_pos hk, hk]
  · rw [if_neg hk, if_neg hk]

/-! ## The accesses -/

section
variable {i v : Nat}

theorem lastByte_eq (hi : 8 * i + 8 ≤ ipMaxudp) : s.lastByte i = some (s.hole i).val :=
  if_pos (by omega)

theorem nextHole_eq (hi : 8 * i + 8 ≤ ipMaxudp) : s.nextHole i = some (s.hole i).next :=
  if_pos (by omega)

theorem prevHole_eq (hi : 8 * i + 8 ≤ ipMaxudp) : s.prevHole i = some (s.hole i).prev :=
  if_pos (by omega)

theorem lt_of_room (hi : 8 * i + 8 ≤ ipMaxudp) : i < 65536 := by
  unfold ipMaxudp ipPktsize at hi
  omega

/-- A field of a descriptor is written, and no other byte. -/
theorem store16_spec (off : Nat) (hi : 8 * i + 8 ≤ ipMaxudp) (hoff : off + 2 ≤ 8) (hv : v < 65536) :
    ∃ s', s.store16 (8 * i + off) v = some s' ∧ s'.word (8 * i + off) = v ∧
      (∀ k, k + 2 ≤ 8 * i + off ∨ 8 * i + off + 2 ≤ k → s'.word k = s.word k) ∧
      Keeps (· = i) s s' ∧ s'.firstHole = s.firstHole := by
  refine ⟨_, if_pos (by omega), ?_, fun k hk => ?_, ⟨fun k hk => ?_, rfl, rfl⟩, rfl⟩
  · simp only [word, if_true, Nat.succ_ne_self, if_false, UInt8.toNat_ofNat']
    omega
  · have h1 : k ≠ 8 * i + off := by omega
    have h2 : k ≠ 8 * i + off + 1 := by omega
    have h3 : k + 1 ≠ 8 * i + off := by omega
    have h4 : k + 1 ≠ 8 * i + off + 1 := by omega
    simp only [word, if_neg h1, if_neg h2, if_neg h3, if_neg h4]
  · have hk := hk i rfl
    unfold InSlot at hk
    have h1 : k ≠ 8 * i + off := by omega
    have h2 : k ≠ 8 * i + off + 1 := by omega
    simp only [if_neg h1, if_neg h2]

theorem setLastByte_writes (hi : 8 * i + 8 ≤ ipMaxudp) (hv : v < 65536) :
    ∃ s', s.setLastByte i v = some s' ∧ Writes s i ⟨v, (s.hole i).next, (s.hole i).prev⟩ s' := by
  obtain ⟨s', hs', hself, hother, hkeeps, hfirst⟩ :=
    store16_spec 0 hi (by omega) hv
  refine ⟨s', hs', hkeeps, ?_, hfirst⟩
  rw [hole, show 8 * i = 8 * i + 0 from rfl, hself, hother _ (by omega), hother _ (by omega)]
  rfl

theorem setNextHole_writes (hi : 8 * i + 8 ≤ ipMaxudp) (hv : v < 65536) :
    ∃ s', s.setNextHole i v = some s' ∧ Writes s i ⟨(s.hole i).val, v, (s.hole i).prev⟩ s' := by
  obtain ⟨s', hs', hself, hother, hkeeps, hfirst⟩ :=
    store16_spec 2 hi (by omega) hv
  refine ⟨s', hs', hkeeps, ?_, hfirst⟩
  rw [hole, hself, hother _ (by omega), hother _ (by omega)]
  rfl

theorem setPrevHole_writes (hi : 8 * i + 8 ≤ ipMaxudp) (hv : v < 65536) :
    ∃ s', s.setPrevHole i v = some s' ∧ Writes s i ⟨(s.hole i).val, (s.hole i).next, v⟩ s' := by
  obtain ⟨s', hs', hself, hother, hkeeps, hfirst⟩ :=
    store16_spec 4 hi (by omega) hv
  refine ⟨s', hs', hkeeps, ?_, hfirst⟩
  rw [hole, hself, hother _ (by omega), hother _ (by omega)]
  rfl

/-- The link back is written into the first of the holes `post`, if there is one. -/
theorem linkNextBack_spec {post : List (Nat × Nat)} (hi : 8 * i + 8 ≤ ipMaxudp)
    (hnext : (s.hole i).next = headIdx 0 post) (hroom : ∀ x ∈ post, 8 * x.1 + 8 ≤ ipMaxudp)
    (hpost : ∀ x ∈ post, i < x.1) :
    ∃ s', s.linkNextBack i = some s' ∧
      (∀ x ∈ post, s'.hole x.1 = if x.1 = headIdx 0 post then
        ⟨(s.hole x.1).val, (s.hole x.1).next, i⟩ else s.hole x.1) ∧
      (∀ k ≤ i, s'.hole k = s.hole k) ∧ Keeps (· ∈ post.map Prod.fst) s s' ∧
      s'.firstHole = s.firstHole := by
  simp only [linkNextBack, nextHole_eq hi, hnext, Option.bind_eq_bind, Option.bind_some]
  cases post with
  | nil => exact ⟨s, rfl, by simp, fun _ _ => rfl, Keeps.refl _ s, rfl⟩
  | cons y post =>
    have hlt := hpost y (by simp)
    have hz : y.1 ≠ 0 := by omega
    obtain ⟨s', hs', hw⟩ := setPrevHole_writes (hroom y (by simp)) (lt_of_room hi)
    refine ⟨s', (if_pos hz).trans hs', fun x _ => hw.relinksPrev x.1, fun k hk => hw.keeps.hole (by omega),
      hw.keeps.mono fun k hk => ?_, hw.firstHole⟩
    simp [hk]

theorem copyHole_writes {dst src : Nat} (hd : 8 * dst + 8 ≤ ipMaxudp) (hs : 8 * src + 8 ≤ ipMaxudp) :
    ∃ s', s.copyHole dst src = some s' ∧ Writes s dst (s.hole src) s' := by
  refine ⟨_, if_pos ⟨hd, hs⟩, ⟨fun k hk => ?_, rfl, rfl⟩, ?_, rfl⟩
  · exact if_neg (hk dst rfl)
  · have hat : ∀ o < 8, (if 8 * dst ≤ 8 * dst + o ∧ 8 * dst + o < 8 * dst + 8 then
        s.payload (8 * src + (8 * dst + o - 8 * dst)) else s.payload (8 * dst + o)) =
        s.payload (8 * src + o) := by
      intro o ho
      rw [if_pos (by omega), Nat.add_sub_cancel_left]
    have h0 := hat 0 (by omega)
    have h1 := hat 1 (by omega)
    have h2 := hat 2 (by omega)
    have h3 := hat 3 (by omega)
    have h4 := hat 4 (by omega)
    have h5 := hat 5 (by omega)
    simp only [Nat.add_zero] at h0
    simp only [hole, word, Nat.add_assoc, h0, h1, h2, h3, h4, h5, Nat.reduceAdd]

end

/-! ## The list -/

/-- The buffer holds the list of holes `hs`, in ascending order. -/
structure Linked (s : Statics) (hs : List (Nat × Nat)) : Prop where
  seg : Seg s.hole 0 0 hs
  first : s.firstHole = headIdx 0 hs
  sorted : (hs.map Prod.fst).Pairwise (· < ·)
  room : ∀ x ∈ hs, 8 * x.1 + 8 ≤ ipMaxudp

variable {hs : List (Nat × Nat)}

theorem findHole_eq (start : Nat) {prev i v fuel : Nat} (hseg : Seg s.hole prev 0 ((i, v) :: hs))
    (hsorted : (((i, v) :: hs).map Prod.fst).Pairwise (· < ·))
    (hroom : ∀ x ∈ (i, v) :: hs, 8 * x.1 + 8 ≤ ipMaxudp) (hfuel : hs.length < fuel) :
    s.findHole start fuel i =
      some ((((i, v) :: hs).find? fun x => decide (start ≤ x.2)).map Prod.fst) := by
  induction hs generalizing prev i v fuel with
  | nil =>
    obtain ⟨fuel, rfl⟩ : ∃ f, fuel = f + 1 := ⟨fuel - 1, by simp at hfuel; omega⟩
    have hi := hroom (i, v) (by simp)
    rw [findHole, lastByte_eq hi, nextHole_eq hi, hseg.1]
    by_cases hv : v < start
    · simp [hv, headIdx, Nat.not_le.mpr hv]
    · simp [hv, Nat.not_lt.mp hv]
  | cons y hs ih =>
    obtain ⟨fuel, rfl⟩ : ∃ f, fuel = f + 1 := ⟨fuel - 1, by simp at hfuel; omega⟩
    have hi := hroom (i, v) (by simp)
    have hlt : i < y.1 := List.rel_of_pairwise_cons hsorted (show y.1 ∈ _ by simp)
    rw [findHole, lastByte_eq hi, nextHole_eq hi, hseg.1]
    by_cases hv : v < start
    · have hrest := ih hseg.2 (List.Pairwise.of_cons hsorted)
        (fun x hx => hroom x (List.mem_cons_of_mem _ hx)) (show hs.length < fuel by simpa using hfuel)
      have hy : y.1 ≠ 0 := by omega
      simp only [Option.bind_eq_bind, Option.bind_some, hv, if_true, headIdx, hy, if_false]
      rw [hrest, List.find?_cons_of_neg (a := (i, v)) (by simpa using hv)]
    · simp [hv, Nat.not_lt.mp hv]

theorem Linked.length_le (hl : Linked s hs) : hs.length ≤ ipMaxudp / 8 := by
  have hsub : hs.map Prod.fst ⊆ List.range (ipMaxudp / 8) := by
    intro i hi
    obtain ⟨x, hx, rfl⟩ := List.mem_map.mp hi
    have := hl.room x hx
    exact List.mem_range.mpr (by omega)
  have hnd : (hs.map Prod.fst).Nodup := hl.sorted.imp Nat.ne_of_lt
  simpa using (List.subperm_of_subset hnd hsub).length_le

theorem Linked.findHole_eq (hl : Linked s hs) (hne : hs ≠ []) (start : Nat) :
    s.findHole start (ipMaxudp / 8 + 1) s.firstHole =
      some ((hs.find? fun x => decide (start ≤ x.2)).map Prod.fst) := by
  obtain ⟨⟨i, v⟩, hs, rfl⟩ := List.exists_cons_of_ne_nil hne
  have hlen := hl.length_le
  rw [List.length_cons] at hlen
  rw [hl.first]
  exact Statics.findHole_eq start hl.seg hl.sorted hl.room (by omega)

theorem Linked.of_payload (hl : Linked s hs) (hfirst : s'.firstHole = s.firstHole)
    (hpayload : ∀ x ∈ hs, ∀ k, InSlot x.1 k → s'.payload k = s.payload k) : Linked s' hs := by
  exact ⟨hl.seg.congr fun x hx => hole_congr (hpayload x hx), hfirst.trans hl.first, hl.sorted, hl.room⟩

theorem copyIn_spec {start len : Nat} {data : List UInt8} (hlen : len ≤ data.length)
    (hroom : start + len ≤ ipMaxudp) :
    ∃ s', s.copyIn start data len = some s' ∧
      (∀ k, start ≤ k → k < start + len → s'.payload k = data.getD (k - start) 0) ∧
      (∀ k, ¬(start ≤ k ∧ k < start + len) → s'.payload k = s.payload k) ∧
      s'.localip = s.localip ∧ s'.firstHole = s.firstHole ∧ s'.totalLen = s.totalLen :=
  ⟨_, if_pos ⟨hlen, hroom⟩, fun _ h1 h2 => if_pos ⟨h1, h2⟩, fun _ h => if_neg h, rfl, rfl, rfl⟩

theorem reset_fresh (ip : IpHdr) (h : s.totalLen = 0 ∨ s.localip.ipId ≠ ip.ipId) :
    ∃ s', s.reset ip = some s' ∧ Linked s' [(0, 0xffff)] ∧ s'.totalLen = 0xffff ∧
      s'.localip = ip := by
  have hroom : 8 * 0 + 8 ≤ ipMaxudp := by decide
  obtain ⟨s1, hs1, hw1⟩ := setLastByte_writes (s := s) (v := 0xffff) hroom (by omega)
  obtain ⟨s2, hs2, hw2⟩ := setNextHole_writes (v := 0) hroom (by omega)
  obtain ⟨s3, hs3, hw3⟩ := setPrevHole_writes (v := 0) hroom (by omega)
  rw [hw2.hole_self, hw1.hole_self] at hw3
  refine ⟨{ s3 with totalLen := 0xffff, firstHole := 0, localip := ip }, ?_,
    ⟨⟨hw3.hole_self, trivial⟩, rfl, by simp, by simpa using hroom⟩, rfl, rfl⟩
  simp only [reset, if_pos h, hs1, hs2, hs3, Option.bind_eq_bind, Option.bind_some]

section
variable {pre post : List (Nat × Nat)} {h v : Nat}

theorem Linked.hole_eq (hl : Linked s (pre ++ (h, v) :: post)) :
    s.hole h = ⟨v, headIdx 0 post, lastIdx 0 pre⟩ :=
  (seg_append.mp hl.seg).2.1

theorem Linked.pre_lt (hl : Linked s (pre ++ (h, v) :: post)) : ∀ x ∈ pre, x.1 < h := by
  have := hl.sorted
  simp only [List.map_append, List.pairwise_append, List.map_cons] at this
  exact fun x hx => this.2.2 x.1 (List.mem_map_of_mem hx) h (by simp)

theorem Linked.lt_post (hl : Linked s (pre ++ (h, v) :: post)) : ∀ x ∈ post, h < x.1 := by
  have := hl.sorted
  simp only [List.map_append, List.pairwise_append, List.map_cons, List.pairwise_cons] at this
  exact fun x hx => this.2.1.1 x.1 (List.mem_map_of_mem hx)

theorem Linked.nodup_pre (hl : Linked s (pre ++ post)) : (pre.map Prod.fst).Nodup := by
  have := hl.sorted
  rw [List.map_append, List.pairwise_append] at this
  exact this.1.imp Nat.ne_of_lt

theorem Linked.nodup_post (hl : Linked s (pre ++ post)) : (post.map Prod.fst).Nodup := by
  have := hl.sorted
  rw [List.map_append, List.pairwise_append] at this
  exact this.2.1.imp Nat.ne_of_lt

section

variable (hl : Linked s (pre ++ (h, v) :: post))
include hl

theorem Linked.next_eq_zero : headIdx 0 post = 0 ↔ post = [] := by
  refine ⟨fun hz => ?_, fun hp => by rw [hp]; rfl⟩
  by_contra hp
  obtain ⟨x, hx, hxe⟩ := List.mem_map.mp (headIdx_mem 0 hp)
  have := hl.lt_post x hx
  omega

/-- The link back is 0 only at the head of the list, unless the hole before lies at index 0. -/
theorem Linked.prev_eq_zero (hz : pre.map Prod.fst ≠ [0]) : lastIdx 0 pre = 0 ↔ pre = [] := by
  refine ⟨fun hzero => ?_, fun hp => by rw [hp]; rfl⟩
  rcases List.eq_nil_or_concat pre with hp | ⟨init, x, rfl⟩
  · exact hp
  · rw [List.concat_eq_append] at *
    rw [lastIdx_append] at hzero
    change x.1 = 0 at hzero
    rcases init with _ | ⟨y, init⟩
    · exact absurd (by simp [hzero]) hz
    · have := hl.sorted
      simp only [List.map_append, List.pairwise_append, List.map_cons, List.cons_append, List.pairwise_cons] at this
      have hlt := this.1 x.1 (by simp)
      omega

/-- The hole `h` has been replaced by the holes `mid`, and its neighbours are linked to them. -/
theorem Linked.replace (mid : List (Nat × Nat))
    (hpre : ∀ x ∈ pre, s'.hole x.1 = if x.1 = lastIdx 0 pre then
      ⟨(s.hole x.1).val, headIdx 0 (mid ++ post), (s.hole x.1).prev⟩ else s.hole x.1)
    (hmid : Seg s'.hole (lastIdx 0 pre) (headIdx 0 post) mid)
    (hpost : ∀ x ∈ post, s'.hole x.1 = if x.1 = headIdx 0 post then
      ⟨(s.hole x.1).val, (s.hole x.1).next, lastIdx 0 (pre ++ mid)⟩ else s.hole x.1)
    (hfirst : s'.firstHole = headIdx 0 (pre ++ (mid ++ post)))
    (hsorted : ((pre ++ (mid ++ post)).map Prod.fst).Pairwise (· < ·))
    (hroom : ∀ x ∈ mid, 8 * x.1 + 8 ≤ ipMaxudp) : Linked s' (pre ++ (mid ++ post)) := by
  have hseg := seg_append.mp hl.seg
  refine ⟨seg_append.mpr ⟨hseg.1.relinkLast hl.nodup_pre hpre, seg_append.mpr ⟨hmid, ?_⟩⟩, hfirst,
    hsorted, fun x hx => ?_⟩
  · rw [← lastIdx_append]
    refine Seg.relinkHead hseg.2.2 ?_ hpost
    exact (List.nodup_cons.mp hl.nodup_post).2
  · rcases List.mem_append.mp hx with hx | hx
    · exact hl.room x (by simp [hx])
    · rcases List.mem_append.mp hx with hx | hx
      · exact hroom x hx
      · exact hl.room x (by simp [hx])

theorem Linked.pre_kept {n : Nat} (hn : n = h) (heq : ∀ x ∈ pre, s'.hole x.1 = s.hole x.1) :
    ∀ x ∈ pre, s'.hole x.1 =
      if x.1 = lastIdx 0 pre then ⟨(s.hole x.1).val, n, (s.hole x.1).prev⟩ else s.hole x.1 := by
  intro x hx
  rw [heq x hx]
  split
  · rename_i hlast
    have := (seg_append.mp hl.seg).1.next_lastIdx (List.ne_nil_of_mem hx)
    rw [← hlast] at this
    rw [hn, show h = (s.hole x.1).next from this.symm]
  · rfl

theorem Linked.post_kept {n : Nat} (hn : n = h) (heq : ∀ x ∈ post, s'.hole x.1 = s.hole x.1) :
    ∀ x ∈ post, s'.hole x.1 =
      if x.1 = headIdx 0 post then ⟨(s.hole x.1).val, (s.hole x.1).next, n⟩ else s.hole x.1 := by
  intro x hx
  rw [heq x hx]
  split
  · rename_i hhead
    have := (seg_append.mp hl.seg).2.2.prev_headIdx (List.ne_nil_of_mem hx)
    rw [← hhead] at this
    rw [hn, show h = (s.hole x.1).prev from this.symm]
  · rfl

theorem Linked.room_post : ∀ x ∈ post, 8 * x.1 + 8 ≤ ipMaxudp :=
  fun x hx => hl.room x (by simp [hx])

theorem Linked.room_headIdx (hne : post ≠ []) : 8 * headIdx 0 post + 8 ≤ ipMaxudp := by
  obtain ⟨x, hx, hxe⟩ := List.mem_map.mp (headIdx_mem 0 hne)
  exact hxe ▸ hl.room x (by simp [hx])

theorem Linked.room_lastIdx (hne : pre ≠ []) : 8 * lastIdx 0 pre + 8 ≤ ipMaxudp := by
  obtain ⟨x, hx, hxe⟩ := List.mem_map.mp (lastIdx_mem 0 hne)
  exact hxe ▸ hl.room x (by simp [hx])

theorem Linked.lt_headIdx (hne : post ≠ []) : h < headIdx 0 post := by
  obtain ⟨x, hx, hxe⟩ := List.mem_map.mp (headIdx_mem 0 hne)
  exact hxe ▸ hl.lt_post x hx

theorem Linked.lastIdx_lt (hne : pre ≠ []) : lastIdx 0 pre < h := by
  obtain ⟨x, hx, hxe⟩ := List.mem_map.mp (lastIdx_mem 0 hne)
  exact hxe ▸ hl.pre_lt x hx

theorem Linked.sorted_remove : ((pre ++ post).map Prod.fst).Pairwise (· < ·) := by
  refine hl.sorted.sublist (List.Sublist.map _ ?_)
  exact (List.append_sublist_append_left pre).mpr (List.sublist_cons_self _ post)

end

/-! ## The steps -/

theorem removeHole_last (hl : Linked s [(h, v)]) : s.removeHole h = some (s, true) := by
  have hr := hl.room (h, v) (by simp)
  have hh : s.hole h = ⟨v, 0, 0⟩ := hl.seg.1
  simp [removeHole, prevHole_eq hr, nextHole_eq hr, hh]

section

variable (hl : Linked s (pre ++ (h, v) :: post))
include hl

/-- The hole is unlinked, unless it is linked back to the hole at index 0. -/
theorem removeHole_spec (hz : pre.map Prod.fst ≠ [0]) (hne : pre ++ post ≠ []) :
    ∃ s', s.removeHole h = some (s', false) ∧ Linked s' (pre ++ post) ∧
      Keeps (· ∈ (pre ++ post).map Prod.fst) s s' := by
  have hr := hl.room (h, v) (by simp)
  have hsorted := hl.sorted_remove
  have hprev := hl.prev_eq_zero hz
  have hnext := hl.next_eq_zero
  simp only [removeHole, prevHole_eq hr, nextHole_eq hr, hl.hole_eq, Option.bind_eq_bind,
    Option.bind_some, hprev, hnext]
  by_cases hp : pre = []
  · -- the first hole
    subst hp
    have hpost : post ≠ [] := hne
    obtain ⟨s', hs', hw⟩ := setPrevHole_writes (s := { s with firstHole := headIdx 0 post })
      (v := 0) (hl.room_headIdx hpost) (by omega)
    refine ⟨s', by simp [hpost, hs'], ?_, ?_⟩
    · exact hl.replace [] (by simp) trivial (fun x _ => hw.relinksPrev x.1) hw.firstHole hsorted (by simp)
    · have hk : Keeps (· = headIdx 0 post) s s' := ⟨hw.keeps.payload, hw.keeps.totalLen, hw.keeps.localip⟩
      exact hk.mono fun i hi => hi ▸ headIdx_mem 0 hpost
  · by_cases hpost : post = []
    · -- the last hole
      subst hpost
      obtain ⟨s', hs', hw⟩ := setNextHole_writes (s := s) (v := 0) (hl.room_lastIdx hp) (by omega)
      refine ⟨s', by simp [hp, hs'], ?_, ?_⟩
      · refine hl.replace [] (fun x _ => hw.relinksNext x.1) trivial (by simp) ?_ hsorted (by simp)
        rw [hw.firstHole, hl.first, headIdx_append_of_ne_nil hp]
      · exact hw.keeps.mono fun i hi => hi ▸ by simpa using lastIdx_mem 0 hp
    · -- in the middle of the list
      have hroom := hl.room_headIdx hpost
      obtain ⟨s1, hs1, hw1⟩ := setPrevHole_writes (s := s) hroom (lt_of_room (hl.room_lastIdx hp))
      obtain ⟨s', hs', hw⟩ := setNextHole_writes (s := s1) (hl.room_lastIdx hp) (lt_of_room hroom)
      refine ⟨s', by simp [hp, hpost, hs1, hs'], ?_, ?_⟩
      · refine hl.replace [] (fun x hx => ?_) trivial (fun x hx => ?_) ?_ hsorted (by simp)
        · have hne1 : x.1 ≠ headIdx 0 post := by
            have := hl.pre_lt x hx; have := hl.lt_headIdx hpost; omega
          have hx1 : s1.hole x.1 = s.hole x.1 := hw1.keeps.hole hne1
          rw [hw.relinksNext, hx1]
          rfl
        · have hne1 : x.1 ≠ lastIdx 0 pre := by
            have := hl.lt_post x hx; have := hl.lastIdx_lt hp; omega
          rw [hw.keeps.hole hne1, hw1.relinksPrev, List.append_nil]
        · rw [hw.firstHole, hw1.firstHole, hl.first, headIdx_append_of_ne_nil hp]
      · refine (hw1.keeps.mono fun i hi => ?_).trans (hw.keeps.mono fun i hi => ?_)
        · rw [hi, List.map_append]
          exact List.mem_append_right _ (headIdx_mem 0 hpost)
        · rw [hi, List.map_append]
          exact List.mem_append_left _ (lastIdx_mem 0 hp)

theorem shortenHole_spec {start : Nat} (hstart : start < 65536) :
    ∃ s', s.setLastByte h start = some s' ∧ Linked s' (pre ++ (h, start) :: post) ∧
      Keeps (· = h) s s' := by
  obtain ⟨s', hs', hw⟩ := setLastByte_writes (hl.room (h, v) (by simp)) hstart
  have hother : ∀ k, k ≠ h → s'.hole k = s.hole k := fun k hk => hw.keeps.hole hk
  refine ⟨s', hs', ?_, hw.keeps⟩
  refine hl.replace [(h, start)] (hl.pre_kept rfl fun x hx => ?_) ⟨?_, trivial⟩
    (hl.post_kept (by simp [lastIdx]) fun x hx => ?_) ?_ ?_ ?_
  · exact hother _ (Nat.ne_of_lt (hl.pre_lt x hx))
  · rw [hw.hole_self, hl.hole_eq]
    rfl
  · exact hother _ (Nat.ne_of_gt (hl.lt_post x hx))
  · rw [hw.firstHole, hl.first, headIdx_append, headIdx_append]
    rfl
  · simpa using hl.sorted
  · intro x hx
    rw [List.mem_singleton.mp hx]
    exact hl.room (h, v) (by simp)

theorem Linked.sorted_move {newh w : Nat} (hlt : h < newh) (hpost : ∀ x ∈ post, newh < x.1) :
    ((pre ++ (newh, w) :: post).map Prod.fst).Pairwise (· < ·) := by
  have hs := hl.sorted
  have hpre := hl.pre_lt
  simp only [List.map_append, List.map_cons, List.pairwise_append, List.pairwise_cons,
    List.mem_cons, List.mem_map] at hs ⊢
  refine ⟨hs.1, ⟨?_, hs.2.1.2⟩, ?_⟩
  · rintro _ ⟨x, hx, rfl⟩
    exact hpost x hx
  · rintro _ ⟨x, hx, rfl⟩ b (rfl | hb)
    · exact Nat.lt_trans (hpre x hx) hlt
    · exact hs.2.2 x.1 ⟨x, hx, rfl⟩ b (.inr hb)

/-- The descriptor moves to the new start of its hole. -/
theorem moveHole_spec (hz : pre.map Prod.fst ≠ [0]) {newh : Nat} (hlt : h < newh)
    (hpost : ∀ x ∈ post, newh < x.1) (hroom : 8 * newh + 8 ≤ ipMaxudp) :
    ∃ s', s.moveHole h newh = some s' ∧ Linked s' (pre ++ (newh, v) :: post) ∧
      Keeps (· ∈ (pre ++ (newh, v) :: post).map Prod.fst) s s' := by
  have hnew := lt_of_room hroom
  obtain ⟨s1, hs1, hw1⟩ := copyHole_writes hroom (hl.room (h, v) (by simp))
  have hnewh1 : s1.hole newh = ⟨v, headIdx 0 post, lastIdx 0 pre⟩ := hw1.hole_self.trans hl.hole_eq
  obtain ⟨s2, hs2, hh2, hle2, hk2, hf2⟩ :=
    linkNextBack_spec hroom (congrArg Cell.next hnewh1) hl.room_post hpost
  have hnewh2 := (hle2 newh (Nat.le_refl _)).trans hnewh1
  have hafter : ∀ x ∈ post, s2.hole x.1 = if x.1 = headIdx 0 post then
      ⟨(s.hole x.1).val, (s.hole x.1).next, newh⟩ else s.hole x.1 := by
    intro x hx
    rw [hh2 x hx, hw1.hole, if_neg (Nat.ne_of_gt (hpost x hx))]
  have hbefore : ∀ x ∈ pre, s2.hole x.1 = s.hole x.1 := by
    intro x hx
    have hxn := Nat.lt_trans (hl.pre_lt x hx) hlt
    rw [hle2 x.1 (Nat.le_of_lt hxn), hw1.keeps.hole (Nat.ne_of_lt hxn)]
  have hk12 : Keeps (· ∈ (pre ++ (newh, v) :: post).map Prod.fst) s s2 := by
    refine (hw1.keeps.mono fun i hi => ?_).trans (hk2.mono fun i hi => ?_)
    · simp [hi]
    · rw [List.map_append, List.map_cons]
      exact List.mem_append_right _ (List.mem_cons_of_mem _ hi)
  by_cases hp : pre = []
  · subst hp
    refine ⟨{ s2 with firstHole := newh }, ?_, ?_, ⟨hk12.payload, hk12.totalLen, hk12.localip⟩⟩
    · simp only [moveHole, hs1, Option.bind_eq_bind, Option.bind_some, hs2, prevHole_eq hroom,
        hnewh2, lastIdx, ne_eq, not_true_eq_false, if_false]
    · refine hl.replace [(newh, v)] (by simp) ⟨?_, trivial⟩ ?_ rfl (hl.sorted_move hlt hpost) ?_
      · exact hnewh2
      · exact hafter
      · simpa using hroom
  · have hlast := hl.lastIdx_lt hp
    have hz' : lastIdx 0 pre ≠ 0 := fun h0 => hp ((hl.prev_eq_zero hz).mp h0)
    obtain ⟨s3, hs3, hw3⟩ := setNextHole_writes (hl.room_lastIdx hp) hnew
    refine ⟨s3, ?_, ?_, hk12.trans (hw3.keeps.mono fun i hi => ?_)⟩
    · simp only [moveHole, hs1, Option.bind_eq_bind, Option.bind_some, hs2, prevHole_eq hroom,
        hnewh2, ne_eq, hz', not_false_eq_true, if_true, hs3]
    · refine hl.replace [(newh, v)] (fun x hx => ?_) ⟨?_, trivial⟩ (fun x hx => ?_) ?_
        (hl.sorted_move hlt hpost) (by simpa using hroom)
      · rw [hw3.relinksNext, hbefore x hx]
        rfl
      · rw [hw3.hole, if_neg (by omega), hnewh2]
        rfl
      · have := hl.lt_post x hx
        rw [hw3.hole, if_neg (by omega), hafter x hx, lastIdx_append]
        rfl
      · rw [hw3.firstHole, hf2, hw1.firstHole, hl.first, headIdx_append_of_ne_nil hp]
    · rw [hi, List.map_append]
      exact List.mem_append_left _ (lastIdx_mem 0 hp)

/-- The hole is cut in two, with a descriptor behind the fragment. -/
theorem splitHole_spec {newh start : Nat} (hlt : h < newh) (hpost : ∀ x ∈ post, newh < x.1)
    (hroom : 8 * newh + 8 ≤ ipMaxudp) (hstart : start < 65536) :
    ∃ s', s.splitHole h newh start = some s' ∧
      Linked s' (pre ++ (h, start) :: (newh, v) :: post) ∧
      Keeps (· ∈ (pre ++ (h, start) :: (newh, v) :: post).map Prod.fst) s s' := by
  have hnew := lt_of_room hroom
  have hr := hl.room (h, v) (by simp)
  have hne : h ≠ newh := Nat.ne_of_lt hlt
  obtain ⟨s1, hs1, hw1⟩ := copyHole_writes hroom hr
  have hold1 : s1.hole h = ⟨v, headIdx 0 post, lastIdx 0 pre⟩ :=
    (hw1.keeps.hole hne).trans hl.hole_eq
  obtain ⟨s2, hs2, hw2⟩ := setLastByte_writes hr hstart
  rw [hold1] at hw2
  obtain ⟨s3, hs3, hw3⟩ := setNextHole_writes hr hnew
  rw [hw2.hole_self] at hw3
  have hnew3 : s3.hole newh = ⟨v, headIdx 0 post, lastIdx 0 pre⟩ := by
    rw [hw3.keeps.hole hne.symm, hw2.keeps.hole hne.symm, hw1.hole_self, hl.hole_eq]
  obtain ⟨s4, hs4, hw4⟩ := setPrevHole_writes hroom (lt_of_room hr)
  rw [hnew3] at hw4
  have hnext4 : (s4.hole newh).next = headIdx 0 post := congrArg Cell.next hw4.hole_self
  obtain ⟨s5, hs5, hh5, hle, hk5, hf5⟩ := linkNextBack_spec hroom hnext4 hl.room_post hpost
  have hother : ∀ k, k ≠ h → k ≠ newh → s4.hole k = s.hole k := by
    intro k hk hk'
    rw [hw4.keeps.hole hk', hw3.keeps.hole hk, hw2.keeps.hole hk, hw1.keeps.hole hk']
  refine ⟨s5, ?_, ?_, ?_⟩
  · simp only [splitHole, hs1, hs2, hs3, hs4, Option.bind_eq_bind, Option.bind_some, hs5]
  · refine hl.replace [(h, start), (newh, v)] (hl.pre_kept rfl fun x hx => ?_) ⟨?_, ?_, trivial⟩
      (fun x hx => ?_) ?_ ?_ ?_
    · have hx := hl.pre_lt x hx
      rw [hle _ (by omega), hother _ (by omega) (by omega)]
    · rw [hle h (by omega), hw4.keeps.hole hne, hw3.hole_self]
      rfl
    · rw [hle newh (by omega), hw4.hole_self]
      rfl
    · have hlt2 := hpost x hx
      rw [hh5 x hx, hother x.1 (by omega) (by omega), lastIdx_append]
      rfl
    · rw [hf5, hw4.firstHole, hw3.firstHole, hw2.firstHole, hw1.firstHole, hl.first]
      rw [headIdx_append, headIdx_append]
      rfl
    · have hs := hl.sorted
      simp only [List.map_append, List.map_cons, List.pairwise_append, List.pairwise_cons,
        List.mem_cons, List.mem_map, List.cons_append, List.nil_append] at hs ⊢
      refine ⟨hs.1, ⟨?_, ?_, hs.2.1.2⟩, ?_⟩
      · rintro _ (rfl | hx)
        · exact hlt
        · exact hs.2.1.1 _ hx
      · rintro _ ⟨x, hx, rfl⟩
        exact hpost x hx
      · rintro _ ⟨x, hx, rfl⟩ b (rfl | rfl | hb)
        · exact hl.pre_lt x hx
        · exact Nat.lt_trans (hl.pre_lt x hx) hlt
        · exact hs.2.2 x.1 ⟨x, hx, rfl⟩ b (.inr hb)
    · simp only [List.mem_cons, List.not_mem_nil, or_false, forall_eq_or_imp, forall_eq]
      exact ⟨hr, hroom⟩
  · have hsub : ∀ i, i = h ∨ i = newh ∨ i ∈ post.map Prod.fst →
        i ∈ (pre ++ (h, start) :: (newh, v) :: post).map Prod.fst := by
      intro i hi
      simp only [List.map_append, List.map_cons, List.mem_append, List.mem_cons]
      exact .inr hi
    refine (((hw1.keeps.mono fun i hi => ?_).trans (hw2.keeps.mono fun i hi => ?_)).trans
      ((hw3.keeps.mono fun i hi => ?_).trans (hw4.keeps.mono fun i hi => ?_))).trans
      (hk5.mono fun i hi => ?_)
    · exact hsub i (.inr (.inl hi))
    · exact hsub i (.inl hi)
    · exact hsub i (.inl hi)
    · exact hsub i (.inr (.inl hi))
    · exact hsub i (.inr (.inr hi))

end

end

end Armada3720.Net.Statics
