import Mathlib.Data.List.Find
import Mathlib.Data.List.GetD
import Armada3720.Net.Fragment

/-!
# What the reassembly returns

A datagram is cut into fragments that arrive in any order and any number of times. The holes are the maximal
runs of fragments that have not arrived, but for two things. A link back to the hole at index 0 reads as no link
at all, so that hole is dropped when the fragment at the start of the next one arrives. And a hole that is left
with the last four bytes of the buffer has no room for its descriptor.
-/

namespace Armada3720.Net

open Lib Lib.Cell Statics

/-- A datagram, as the fragments it is sent in. -/
structure Datagram where
  ipId : UInt16
  frags : List (List UInt8)
  two_le : 2 ≤ frags.length
  nonempty : ∀ f ∈ frags, f ≠ []
  aligned : ∀ f ∈ frags.dropLast, 8 ∣ f.length
  fits : frags.flatten.length ≤ ipMaxudp

namespace Datagram

variable {d : Datagram} {i j k : Nat}

def count (d : Datagram) : Nat := d.frags.length

def payload (d : Datagram) : List UInt8 := d.frags.flatten

def frag (d : Datagram) (j : Nat) : List UInt8 := d.frags.getD j []

def cut (d : Datagram) (j : Nat) : Nat := (d.frags.take j).flatten.length

/-- A packet that carries fragment `j`; bytes of padding may follow it. -/
structure IsFragment (d : Datagram) (j : Nat) (p : Packet) : Prop where
  lt : j < d.count
  ipId : p.hdr.ipId = d.ipId
  offset : (p.hdr.ipOff &&& ipOffs).toNat * 8 = d.cut j
  last : p.hdr.ipOff &&& ipFlagsMfrag = 0 ↔ j + 1 = d.count
  len : p.hdr.ipLen.toNat = ipHdrSize + (d.frag j).length
  data : d.frag j <+: p.data

/-! ## Where the fragments lie -/

theorem cut_zero : d.cut 0 = 0 := by simp [cut]

theorem cut_succ (hj : j < d.count) : d.cut (j + 1) = d.cut j + (d.frag j).length := by
  unfold count at hj
  have htake : d.frags.take (j + 1) = d.frags.take j ++ [d.frag j] := by
    simp [frag, hj]
  rw [cut, htake, List.flatten_append, List.length_append, List.flatten_singleton]
  rfl

theorem cut_count : d.cut d.count = d.payload.length := by simp [cut, count, payload]

theorem frag_mem (hj : j < d.count) : d.frag j ∈ d.frags := by
  unfold count at hj
  simp [frag, hj]

theorem frag_length_pos (hj : j < d.count) : 0 < (d.frag j).length :=
  List.length_pos_iff.mpr (d.nonempty _ (frag_mem hj))

theorem dvd_frag (hj : j + 1 < d.count) : 8 ∣ (d.frag j).length := by
  unfold count at hj
  refine d.aligned _ ?_
  have hlt : j < d.frags.dropLast.length := by rw [List.length_dropLast]; omega
  have : d.frags.dropLast.get ⟨j, hlt⟩ = d.frag j := by
    simp [frag, show j < d.frags.length by omega]
  exact this ▸ List.get_mem _ _

theorem cut_lt_succ (hj : j < d.count) : d.cut j < d.cut (j + 1) := by
  rw [cut_succ hj]
  have := frag_length_pos hj
  omega

theorem cut_lt (hij : i < j) (hj : j ≤ d.count) : d.cut i < d.cut j := by
  induction j with
  | zero => omega
  | succ j ih =>
    have hstep := cut_lt_succ (d := d) (j := j) (by omega)
    rcases Nat.lt_succ_iff_lt_or_eq.mp hij with h | rfl
    · exact Nat.lt_trans (ih h (by omega)) hstep
    · exact hstep

theorem cut_le (hij : i ≤ j) (hj : j ≤ d.count) : d.cut i ≤ d.cut j := by
  rcases Nat.eq_or_lt_of_le hij with rfl | h
  · exact Nat.le_refl _
  · exact Nat.le_of_lt (cut_lt h hj)

theorem cut_le_iff (hi : i ≤ d.count) (hj : j ≤ d.count) : d.cut i ≤ d.cut j ↔ i ≤ j := by
  refine ⟨fun h => ?_, fun h => cut_le h hj⟩
  by_contra hlt
  have := cut_lt (Nat.not_le.mp hlt) hi
  omega

theorem cut_le_ipMaxudp (hj : j ≤ d.count) : d.cut j ≤ ipMaxudp := by
  have h := cut_le hj (Nat.le_refl _)
  rw [cut_count] at h
  exact Nat.le_trans h d.fits

theorem dvd_cut (hj : j < d.count) : 8 ∣ d.cut j := by
  induction j with
  | zero => simp [cut_zero]
  | succ j ih =>
    rw [cut_succ (by omega)]
    exact Nat.dvd_add (ih (by omega)) (dvd_frag hj)

theorem cut_add_eight_le (hij : i < j) (hj : j < d.count) : d.cut i + 8 ≤ d.cut j := by
  have hlt := cut_lt hij (Nat.le_of_lt hj)
  have h1 := dvd_cut (d := d) (j := i) (by omega)
  have h2 := dvd_cut hj
  omega

theorem payload_getD (hj : j < d.count) (hk : k < (d.frag j).length) :
    d.payload.getD (d.cut j + k) 0 = (d.frag j).getD k 0 := by
  have hlt := hj
  unfold count at hlt
  have hsplit : d.payload = (d.frags.take j).flatten ++ (d.frag j ++ (d.frags.drop (j + 1)).flatten) := by
    have hfrag : d.frag j = d.frags.get ⟨j, hlt⟩ := by simp [frag, hlt]
    rw [hfrag, payload, ← List.flatten_cons, List.get_eq_getElem, List.getElem_cons_drop,
      ← List.flatten_append, List.take_append_drop]
  rw [hsplit, cut, List.getD_append_right _ _ _ _ (by omega), Nat.add_sub_cancel_left, List.getD_append _ _ _ _ hk]

/-! ## Where their descriptors lie -/

/-- The index of the descriptor of a hole that starts with fragment `j`. -/
def idx (d : Datagram) (j : Nat) : Nat := d.cut j / 8

/-- The end of a hole that ends before fragment `j`. -/
def stop (d : Datagram) (j : Nat) : Nat := if j = d.count then 0xffff else d.cut j

/-- The hole for a run of fragments. -/
def holeOf (d : Datagram) (run : Nat × Nat) : Nat × Nat := (d.idx run.1, d.stop run.2)

theorem eight_idx (hj : j < d.count) : 8 * d.idx j = d.cut j :=
  Nat.mul_div_cancel' (dvd_cut hj)

theorem idx_lt (hij : i < j) (hj : j < d.count) : d.idx i < d.idx j := by
  have h1 := eight_idx (d := d) (j := i) (by omega)
  have h2 := eight_idx hj
  have h3 := cut_lt hij (Nat.le_of_lt hj)
  omega

theorem idx_le_iff (hi : i < d.count) (hj : j < d.count) : d.idx i ≤ d.idx j ↔ i ≤ j := by
  have h1 := eight_idx hi
  have h2 := eight_idx hj
  have h3 := cut_le_iff (Nat.le_of_lt hi) (Nat.le_of_lt hj)
  omega

theorem cut_le_stop_iff (hj : j < d.count) (hi : i ≤ d.count) : d.cut j ≤ d.stop i ↔ j ≤ i := by
  unfold stop
  split
  · rename_i heq
    have := cut_le_ipMaxudp (Nat.le_of_lt hj)
    unfold ipMaxudp ipPktsize at this
    omega
  · exact cut_le_iff (Nat.le_of_lt hj) hi

theorem stop_le_cut_iff (hj : j < d.count) (hi : i ≤ d.count) : d.stop i ≤ d.cut j ↔ i ≤ j := by
  unfold stop
  split
  · rename_i heq
    have := cut_le_ipMaxudp (Nat.le_of_lt hj)
    unfold ipMaxudp ipPktsize at this
    omega
  · exact cut_le_iff hi (Nat.le_of_lt hj)

section
variable {p : Packet} (hp : d.IsFragment j p)
include hp

theorem IsFragment.start_eq : p.start = d.cut j := hp.offset

theorem IsFragment.offset8_eq : p.offset8 = d.idx j := by
  rw [idx, ← hp.start_eq, Packet.start, Nat.mul_div_cancel _ (by omega)]

theorem IsFragment.len_eq : p.len = (d.frag j).length := by
  rw [Packet.len, hp.len]
  omega

theorem IsFragment.stop_eq : p.stop = d.cut (j + 1) := by
  rw [Packet.stop, hp.start_eq, hp.len_eq, Int.toNat_natCast, cut_succ hp.lt]

theorem IsFragment.payload_eq {b : UInt8} (hb : p.Carries k b) : d.payload.getD k 0 = b := by
  obtain ⟨hlo, hhi, hb⟩ := hb
  rw [hp.start_eq] at hlo hb
  rw [hp.stop_eq, cut_succ hp.lt] at hhi
  have hk : k - d.cut j < (d.frag j).length := by omega
  have hbyte := payload_getD hp.lt hk
  obtain ⟨pad, hpad⟩ := hp.data
  rw [← hpad, List.getElem?_append_left hk] at hb
  rw [Nat.add_sub_cancel' hlo] at hbyte
  rw [hbyte, List.getD_eq_getElem?_getD, hb]
  rfl

end

end Datagram

/-! ## The runs of missing fragments -/

/-- `runs` are the maximal runs of the fragments below `n` that are not in `got`. -/
structure Runs (n : Nat) (got : List Nat) (runs : List (Nat × Nat)) : Prop where
  gapped : runs.Pairwise fun p q => p.2 < q.1
  bounds : ∀ p ∈ runs, p.1 < p.2 ∧ p.2 ≤ n
  missing : ∀ i < n, i ∉ got ↔ ∃ p ∈ runs, p.1 ≤ i ∧ i < p.2

/-- What is left of the run `(a, c)` when fragment `j` arrives. -/
def restOf (j a c : Nat) : List (Nat × Nat) :=
  (if a < j then [(a, j)] else []) ++ (if j + 1 < c then [(j + 1, c)] else [])

section
variable {n j a c : Nat} {got : List Nat} {runs pre post : List (Nat × Nat)}

theorem mem_restOf {p : Nat × Nat} :
    p ∈ restOf j a c ↔ a < j ∧ p = (a, j) ∨ j + 1 < c ∧ p = (j + 1, c) := by
  unfold restOf
  by_cases h1 : a < j <;> by_cases h2 : j + 1 < c <;> simp [h1, h2]

theorem Runs.pre_lt (h : Runs n got (pre ++ (a, c) :: post)) : ∀ p ∈ pre, p.2 < a := by
  intro p hp
  exact (List.pairwise_append.mp h.gapped).2.2 p hp (a, c) (by simp)

theorem Runs.lt_post (h : Runs n got (pre ++ (a, c) :: post)) : ∀ p ∈ post, c < p.1 := by
  intro p hp
  exact (List.pairwise_cons.mp (List.pairwise_append.mp h.gapped).2.1).1 p hp

/-- The arrival of a fragment cuts it out of the run it lies in, or right behind. -/
theorem Runs.enter (h : Runs n got (pre ++ (a, c) :: post)) (haj : a ≤ j) (hjc : j ≤ c) (hj : j < n) :
    Runs n (got ++ [j]) (pre ++ (restOf j a c ++ post)) := by
  have hac := h.bounds (a, c) (by simp)
  have hpre := h.pre_lt
  have hpost := h.lt_post
  refine ⟨?_, fun p hp => ?_, fun i hi => ?_⟩
  · have hg := List.pairwise_append.mp h.gapped
    refine List.pairwise_append.mpr ⟨hg.1, List.pairwise_append.mpr ⟨?_, (List.pairwise_cons.mp hg.2.1).2, ?_⟩, ?_⟩
    · unfold restOf
      by_cases h1 : a < j <;> by_cases h2 : j + 1 < c <;> simp [h1, h2]
    · intro p hp q hq
      have := hpost q hq
      rcases mem_restOf.mp hp with ⟨_, rfl⟩ | ⟨_, rfl⟩ <;> omega
    · intro p hp q hq
      have := hpre p hp
      rcases List.mem_append.mp hq with hq | hq
      · rcases mem_restOf.mp hq with ⟨_, rfl⟩ | ⟨_, rfl⟩ <;> omega
      · have := hpost q hq
        omega
  · rcases List.mem_append.mp hp with hp | hp
    · exact h.bounds p (by simp [hp])
    · rcases List.mem_append.mp hp with hp | hp
      · rcases mem_restOf.mp hp with ⟨_, rfl⟩ | ⟨_, rfl⟩
        · exact ⟨by assumption, by omega⟩
        · exact ⟨by assumption, hac.2⟩
      · exact h.bounds p (by simp [hp])
  · have hmiss := h.missing i hi
    simp only [List.mem_append, List.mem_singleton, not_or]
    rw [hmiss]
    constructor
    · rintro ⟨⟨p, hp, hpi⟩, hij⟩
      rcases List.mem_append.mp hp with hp | hp
      · exact ⟨p, .inl hp, hpi⟩
      · rcases List.mem_cons.mp hp with rfl | hp
        · by_cases hlt : i < j
          · exact ⟨(a, j), .inr (.inl (mem_restOf.mpr (.inl ⟨by omega, rfl⟩))), hpi.1, hlt⟩
          · exact ⟨(j + 1, c), .inr (.inl (mem_restOf.mpr (.inr ⟨by omega, rfl⟩))), (by omega : j + 1 ≤ i), hpi.2⟩
        · exact ⟨p, .inr (.inr hp), hpi⟩
    · rintro ⟨p, hp | hp | hp, hpi⟩
      · have := hpre p hp
        exact ⟨⟨p, by simp [hp], hpi⟩, by omega⟩
      · rcases mem_restOf.mp hp with ⟨_, rfl⟩ | ⟨_, rfl⟩
        · exact ⟨⟨(a, c), by simp, hpi.1, by omega⟩, by omega⟩
        · exact ⟨⟨(a, c), by simp, by omega, hpi.2⟩, by omega⟩
      · have := hpost p hp
        exact ⟨⟨p, by simp [hp], hpi⟩, by omega⟩

theorem Runs.again (h : Runs n got runs) (hj : j ∈ got) : Runs n (got ++ [j]) runs := by
  refine ⟨h.gapped, h.bounds, fun i hi => ?_⟩
  rw [← h.missing i hi, List.mem_append, List.mem_singleton]
  exact ⟨fun hn hi => hn (.inl hi), fun hn hi => hi.elim hn fun heq => hn (heq ▸ hj)⟩

theorem Runs.eq_nil_iff (h : Runs n got runs) : runs = [] ↔ ∀ i < n, i ∈ got := by
  constructor
  · rintro rfl i hi
    by_contra hn
    obtain ⟨p, hp, _⟩ := (h.missing i hi).mp hn
    cases hp
  · intro hall
    by_contra hne
    obtain ⟨p, hp⟩ := List.exists_mem_of_ne_nil _ hne
    have hb := h.bounds p hp
    exact (h.missing p.1 (by omega)).mpr ⟨p, hp, Nat.le_refl _, hb.1⟩ (hall _ (by omega))

theorem Runs.start_missing (h : Runs n got runs) {p : Nat × Nat} (hp : p ∈ runs) : p.1 ∉ got := by
  have hb := h.bounds p hp
  exact (h.missing p.1 (by omega)).mpr ⟨p, hp, Nat.le_refl _, hb.1⟩

end

/-! ## When the list of holes is right -/

/-- Fragments `a` to `j - 1` have arrived, and of those before `j` no other. -/
def DropsFirstHole (got : List Nat) (j : Nat) : Prop :=
  j ∉ got ∧ ∃ a < j, 0 < a ∧ ∀ i < j, i ∈ got ↔ a ≤ i

/-- The fragment leaves a hole at its end that has no room for its descriptor. -/
def Overruns (d : Datagram) (got : List Nat) (j : Nat) : Prop :=
  j ∉ got ∧ j + 2 = d.count ∧ j + 1 ∉ got ∧ ipMaxudp < d.cut (j + 1) + 8

instance (got : List Nat) (j : Nat) : Decidable (DropsFirstHole got j) :=
  inferInstanceAs (Decidable (_ ∧ _))

instance (d : Datagram) (got : List Nat) (j : Nat) : Decidable (Overruns d got j) :=
  inferInstanceAs (Decidable (_ ∧ _))

/-- Neither happens when fragment `j` arrives after those of `got`. -/
def Safe (d : Datagram) (got : List Nat) (j : Nat) : Prop :=
  ¬DropsFirstHole got j ∧ ¬Overruns d got j

instance (d : Datagram) (got : List Nat) (j : Nat) : Decidable (Safe d got j) :=
  inferInstanceAs (Decidable (_ ∧ _))

open Datagram

section
variable {d : Datagram} {got : List Nat} {runs pre post : List (Nat × Nat)} {s s' : Statics} {a c j : Nat}

theorem Runs.pre_ne (h : Runs d.count got (pre ++ (j, c) :: post)) (hs : ¬DropsFirstHole got j) :
    (pre.map d.holeOf).map Prod.fst ≠ [0] := by
  intro heq
  obtain ⟨p, rfl, hp⟩ : ∃ p, pre = [p] ∧ d.idx p.1 = 0 := by
    rcases pre with _ | ⟨p, _ | ⟨q, pre⟩⟩
    · simp at heq
    · exact ⟨p, rfl, by simpa [holeOf] using heq⟩
    · simp at heq
  have hj := h.bounds (j, c) (by simp)
  have hpb := h.bounds p (by simp)
  have hpj : p.2 < j := h.pre_lt p (by simp)
  have hp0 : p.1 = 0 := by
    by_contra hne
    have := idx_lt (d := d) (Nat.pos_of_ne_zero hne) (by omega)
    omega
  refine hs ⟨h.start_missing (show (j, c) ∈ _ by simp), p.2, hpj, by omega, fun i hi => ?_⟩
  rw [← not_iff_not, h.missing i (by omega)]
  constructor
  · rintro ⟨q, hq, hqi⟩
    simp only [List.cons_append, List.nil_append, List.mem_cons] at hq
    rcases hq with rfl | rfl | hq
    · omega
    · omega
    · have := h.lt_post q hq
      omega
  · intro hi
    exact ⟨p, by simp, by omega, by omega⟩

theorem Runs.room_succ (h : Runs d.count got (pre ++ (a, c) :: post)) (haj : a ≤ j) (hjc : j + 1 < c)
    (hs : ¬Overruns d got j) : 8 * d.idx (j + 1) + 8 ≤ ipMaxudp := by
  have hac := h.bounds (a, c) (by simp)
  have hmiss : ∀ i, a ≤ i → i < c → i ∉ got := fun i h1 h2 =>
    (h.missing i (by omega)).mpr ⟨(a, c), by simp, h1, h2⟩
  rw [eight_idx (by omega)]
  by_cases hlast : j + 2 = d.count
  · by_contra hover
    exact hs ⟨hmiss j haj (by omega), hlast, hmiss (j + 1) (by omega) hjc, by omega⟩
  · have h1 := cut_add_eight_le (d := d) (show j + 1 < j + 2 by omega) (by omega)
    have h2 := cut_le_ipMaxudp (show j + 2 ≤ d.count by omega)
    omega

variable {p : Packet}

theorem Runs.holesAfter_eq (hp : d.IsFragment j p) (h : Runs d.count got (pre ++ (a, c) :: post)) (hjc : j ≤ c) :
    holesAfter p (pre.map d.holeOf) (post.map d.holeOf) (d.idx a) (d.stop c) =
      (pre ++ (restOf j a c ++ post)).map d.holeOf := by
  have hj := hp.lt
  have hac := h.bounds (a, c) (by simp)
  have hlen := cut_succ hj
  have hbefore : d.idx a < d.idx j ↔ a < j := by
    rw [← Nat.not_le, ← Nat.not_le, idx_le_iff hj (by omega)]
  have hbehind : d.cut (j + 1) < truncated p.IsLast (d.cut (j + 1)) (d.stop c) ↔ j + 1 < c := by
    unfold truncated
    split
    · next hlast =>
      have := hp.last.mp hlast
      omega
    · next hlast =>
      have : j + 1 ≠ d.count := mt hp.last.mpr hlast
      rw [← Nat.not_le, ← Nat.not_le, stop_le_cut_iff (by omega) hac.2]
  have hstop : d.stop j = d.cut j := if_neg (by omega)
  rw [holesAfter, remnants, ← Packet.start, hp.offset8_eq, hp.start_eq, hp.stop_eq, hp.len_eq,
    Int.toNat_natCast, ← hlen, restOf, List.map_append, List.map_append, List.map_append]
  simp only [hbefore, hbehind]
  have hnewh : j + 1 < c → d.idx j + (d.frag j).length / 8 = d.idx (j + 1) := by
    intro hlt
    have h1 := eight_idx hj
    have h2 := eight_idx (d := d) (j := j + 1) (by omega)
    omega
  have hend : j + 1 < c → truncated p.IsLast (d.cut (j + 1)) (d.stop c) = d.stop c := by
    intro hlt
    exact if_neg fun hlast => by
      have := hp.last.mp hlast
      omega
  by_cases h1 : a < j <;> by_cases h2 : j + 1 < c <;>
    simp [h1, h2, holeOf, hstop, hnewh, hend]

/-! ## One fragment -/

/-- The variables after the fragments of `got` have arrived, with the missing ones in `rs`. -/
structure Inv (d : Datagram) (got : List Nat) (rs : List (Nat × Nat)) (s : Statics) : Prop where
  runs : Runs d.count got rs
  assembling : ∃ accepted bound, Assembling s accepted (rs.map d.holeOf) bound ∧ ∀ f ∈ accepted, ∃ i, d.IsFragment i f
  totalLen : s.totalLen = if d.count - 1 ∈ got then d.payload.length else 0xffff
  ipId : s.localip.ipId = d.ipId

theorem Inv.ne_nil (inv : Inv d got runs s) : runs ≠ [] := by
  obtain ⟨_, _, asm, -⟩ := inv.assembling
  exact fun h => asm.ne_nil (by rw [h, List.map_nil])

theorem Inv.linked (inv : Inv d got runs s) : Linked s (runs.map d.holeOf) := by
  obtain ⟨_, _, asm, -⟩ := inv.assembling
  exact asm.linked

theorem Runs.entered (hp : d.IsFragment j p) (h : Runs d.count got (pre ++ (a, c) :: post)) (haj : a ≤ j)
    (hjc : j ≤ c) (hsafe : Safe d got j) :
    Entered (pre.map d.holeOf) (post.map d.holeOf) (d.idx a) (d.stop c) p.offset8 p.len.toNat p.IsLast := by
  have hj := hp.lt
  have hac := h.bounds (a, c) (by simp)
  have hlen : p.len.toNat = (d.frag j).length := by rw [hp.len_eq, Int.toNat_natCast]
  have hbehind : ∀ q ∈ post, j < q.1 ∧ q.1 < d.count := by
    intro q hq
    have hb := h.bounds q (by simp [hq])
    have hlt := h.lt_post q hq
    omega
  refine ⟨fun x hx => ?_, ?_, ?_, fun hlast hlt => ?_, fun hlast _ => ?_, fun x hx => ?_⟩
  · obtain ⟨q, hq, rfl⟩ := List.mem_map.mp hx
    have hlt := h.pre_lt q hq
    change d.stop q.2 < p.start
    rw [hp.start_eq, ← Nat.not_le, cut_le_stop_iff hj (h.bounds q (by simp [hq])).2]
    omega
  · exact hp.start_eq.trans_le ((cut_le_stop_iff hj hac.2).mpr hjc)
  · have h1 := (idx_le_iff (by omega) hj).mpr haj
    have h2 := frag_length_pos hj
    rw [hp.offset8_eq, hlen]
    omega
  · have hnot : j + 1 ≠ d.count := mt hp.last.mpr hlast
    change p.stop < d.stop c at hlt
    change _ ∧ p.stop + 8 ≤ ipMaxudp
    rw [hp.stop_eq, ← Nat.not_le, stop_le_cut_iff (by omega) hac.2, Nat.not_le] at hlt
    rw [hlen, hp.stop_eq, ← eight_idx (by omega)]
    exact ⟨dvd_frag (by omega), h.room_succ haj hlt hsafe.2⟩
  · have hcount := hp.last.mp hlast
    refine List.map_eq_nil_iff.mpr (List.eq_nil_iff_forall_not_mem.mpr fun q hq => ?_)
    have hb := hbehind q hq
    omega
  · obtain ⟨q, hq, rfl⟩ := List.mem_map.mp hx
    have hb := hbehind q hq
    change p.stop ≤ 8 * d.idx q.1
    rw [hp.stop_eq, eight_idx hb.2]
    exact cut_le hb.1 hb.2.le

/-- What the arrival of fragment `j` gives: the datagram if it was the last one missing. -/
def Gives (d : Datagram) (got : List Nat) (j : Nat) (Next : Statics → Prop)
    (result : Option (Statics × Option (Packet × Nat))) : Prop :=
  ((∀ i < d.count, i ∈ got ++ [j]) → ∃ s' q, result = some (s', some (q, d.payload.length + ipHdrSize)) ∧
    q.data = d.payload ∧ q.hdr.ipLen.toNat = d.payload.length) ∧
  (¬(∀ i < d.count, i ∈ got ++ [j]) → ∃ s', result = some (s', none) ∧ Next s')

/-- A fragment that lies in a run of missing ones is cut out of it. -/
theorem enterFragment_spec (hp : d.IsFragment j p) (inv : Inv d got (pre ++ (a, c) :: post) s)
    (haj : a ≤ j) (hjc : j ≤ c) (hsafe : Safe d got j) :
    Gives d got j (fun s' => ∃ rs, Inv d (got ++ [j]) rs s')
      (s.enterFragment p (d.idx a) p.offset8 p.start p.len.toNat) := by
  have hj := hp.lt
  have hac := inv.runs.bounds (a, c) (by simp)
  have hnew := inv.runs.enter haj hjc hj
  have hstop : p.stop ≤ ipMaxudp := by
    rw [hp.stop_eq]
    exact cut_le_ipMaxudp hj
  have hdata : p.len.toNat ≤ p.data.length := by
    rw [hp.len_eq, Int.toNat_natCast]
    exact hp.data.length_le
  have hz : p.offset8 ≤ d.idx a → (pre.map d.holeOf).map Prod.fst ≠ [0] := by
    rw [hp.offset8_eq, idx_le_iff hj (by omega)]
    intro hja
    obtain rfl : a = j := by omega
    exact inv.runs.pre_ne hsafe.1
  obtain ⟨accepted, bound, asm, hfrags⟩ := inv.assembling
  rw [List.map_append, List.map_cons] at asm
  obtain ⟨s', hent⟩ := asm.enterAt (inv.runs.entered hp haj hjc hsafe) hz (by rw [hp.ipId, inv.ipId]) hstop hdata
  rw [inv.runs.holesAfter_eq hp hjc] at hent
  have hfrags' : ∀ f ∈ accepted ++ [p], ∃ i, d.IsFragment i f :=
    List.forall_mem_append.mpr ⟨hfrags, List.forall_mem_singleton.mpr ⟨j, hp⟩⟩
  have htl : s'.totalLen = if d.count - 1 ∈ got ++ [j] then d.payload.length else 0xffff := by
    rw [hent.totalLen, truncated]
    split
    · next hlast =>
      have hcount := hp.last.mp hlast
      rw [if_pos (by simp; omega), hp.stop_eq, hcount, cut_count]
    · next hlast =>
      have hcount : j + 1 ≠ d.count := mt hp.last.mpr hlast
      have hmem : d.count - 1 ∈ got ++ [j] ↔ d.count - 1 ∈ got := by
        rw [List.mem_append, List.mem_singleton]
        exact ⟨fun h => h.elim id fun h => by omega, .inl⟩
      simp only [hmem]
      exact inv.totalLen
  refine ⟨fun hall => ?_, fun hnot => ?_⟩
  · obtain ⟨hrun, hrec⟩ := hent.done (by rw [hnew.eq_nil_iff.mpr hall, List.map_nil])
    rw [if_pos (hall _ (by omega))] at htl
    refine ⟨_, _, by rw [hrun, ← htl]; rfl, List.ext_getElem (by simp [htl]) fun k h1 h2 => ?_, ?_⟩
    · obtain ⟨f, hf, hb⟩ := hrec k (by omega)
      obtain ⟨i, hi⟩ := hfrags' f hf
      simp [← hi.payload_eq hb, h2]
    · rw [← htl]
      refine UInt16.toNat_ofNat_of_lt' ?_
      rw [htl]
      exact Nat.lt_of_le_of_lt d.fits (by decide)
  · obtain ⟨hrun, asm'⟩ := hent.more (mt List.map_eq_nil_iff.mp (mt hnew.eq_nil_iff.mp hnot))
    exact ⟨s', hrun, _, hnew, ⟨_, _, asm', hfrags'⟩, htl, by rw [hent.localip, inv.ipId]⟩

theorem Inv.sought_eq (hp : d.IsFragment j p) (inv : Inv d got runs s) :
    s.sought p = some (((runs.find? fun r => decide (j ≤ r.2)).filter fun r => r.1 ≤ j).map
      fun r => d.idx r.1) := by
  have hj := hp.lt
  have hends : ∀ q ∈ runs, decide (d.cut j ≤ (d.holeOf q).2) = decide (j ≤ q.2) := by
    intro q hq
    exact decide_eq_decide.mpr (cut_le_stop_iff hj (inv.runs.bounds q hq).2)
  have hcongr : runs.find? ((fun x => decide (d.cut j ≤ x.2)) ∘ d.holeOf) =
      runs.find? fun q => decide (j ≤ q.2) := List.find?_congr hends
  rw [sought, hp.start_eq, inv.linked.findHole_eq (mt List.map_eq_nil_iff.mp inv.ne_nil), List.find?_map,
    Option.map_map, hcongr, Option.map_some]
  cases hfound : runs.find? fun r => decide (j ≤ r.2) with
  | none => rfl
  | some r =>
    have hr := inv.runs.bounds r (List.mem_of_find?_eq_some hfound)
    have hbegins : (p.offset8 : Int) + (p.len + 7).tdiv 8 ≤ (d.idx r.1 : Nat) ↔ ¬r.1 ≤ j := by
      have h1 := eight_idx hj
      have h2 := eight_idx (d := d) (j := r.1) (by omega)
      have h3 := cut_succ hj
      have h4 := cut_le_iff (d := d) (i := r.1) (j := j) (by omega) (by omega)
      have h5 := cut_le_iff (d := d) (i := j + 1) (j := r.1) (by omega) (by omega)
      have h6 := frag_length_pos hj
      have h7 : j < r.1 → 8 ∣ (d.frag j).length := fun hlt => dvd_frag (by omega)
      rw [hp.offset8_eq, hp.len_eq, Int.tdiv_eq_ediv_of_nonneg (by omega)]
      omega
    simp only [Option.map_some, Option.filter_some, Function.comp_def, holeOf, hbegins, not_not]
    by_cases hle : r.1 ≤ j <;> simp [hle]

theorem Runs.mem_of_not (h : Runs d.count got runs) (hj : j < d.count)
    (hnot : ∀ r ∈ runs, ¬(r.1 ≤ j ∧ j < r.2)) : j ∈ got := by
  by_contra hn
  obtain ⟨r, hr, hrj⟩ := (h.missing j hj).mp hn
  exact hnot r hr hrj

theorem Inv.again (inv : Inv d got runs s) (hj : j ∈ got) : Inv d (got ++ [j]) runs s := by
  have hmem : ∀ i, i ∈ got ++ [j] ↔ i ∈ got := by
    intro i
    rw [List.mem_append, List.mem_singleton]
    exact ⟨fun h => h.elim id fun h => h ▸ hj, .inl⟩
  refine ⟨inv.runs.again hj, inv.assembling, ?_, inv.ipId⟩
  simp only [hmem]
  exact inv.totalLen

theorem Gives.again {result : Option (Statics × Option (Packet × Nat))} (inv : Inv d got runs s)
    (hj : j ∈ got) (hr : result = some (s, none)) :
    Gives d got j (fun s' => ∃ rs, Inv d (got ++ [j]) rs s') result := by
  refine ⟨fun hall => ?_, fun _ => ⟨s, hr, runs, inv.again hj⟩⟩
  exact absurd ((inv.runs.again hj).eq_nil_iff.mpr hall) inv.ne_nil

theorem placeFragment_spec (hp : d.IsFragment j p) (inv : Inv d got runs s) (hsafe : Safe d got j) :
    Gives d got j (fun s' => ∃ rs, Inv d (got ++ [j]) rs s')
      (s.placeFragment p p.offset8 p.start p.len) := by
  have hj := hp.lt
  rw [placeFragment_sought, inv.sought_eq hp]
  cases hfound : (runs.find? fun r => decide (j ≤ r.2)).filter fun r => r.1 ≤ j with
  | none =>
    -- the fragment lies in no run
    refine Gives.again inv (inv.runs.mem_of_not hj fun r hr hrj => ?_) rfl
    rw [Option.filter_eq_none_iff] at hfound
    cases hfind : runs.find? fun r => decide (j ≤ r.2) with
    | none =>
      have := List.find?_eq_none.mp hfind r hr
      simp only [decide_eq_true_eq] at this
      omega
    | some q =>
      have hqj := hfound q hfind
      obtain ⟨-, pre, post, rfl, hpre⟩ := List.find?_eq_some_iff_append.mp hfind
      simp only [decide_eq_true_eq, Bool.not_eq_true', decide_eq_false_iff_not] at hqj hpre
      rcases List.mem_append.mp hr with hr | hr
      · have := hpre r hr
        omega
      · rcases List.mem_cons.mp hr with rfl | hr
        · omega
        · have hq := inv.runs.bounds q (by simp)
          have := inv.runs.lt_post r hr
          omega
  | some r =>
    obtain ⟨a, c⟩ := r
    obtain ⟨hfind, haj⟩ := Option.filter_eq_some_iff.mp hfound
    obtain ⟨hjc, pre, post, rfl, -⟩ := List.find?_eq_some_iff_append.mp hfind
    simp only [decide_eq_true_eq] at hjc haj
    have hlen : ¬p.len < 0 := by
      rw [hp.len_eq]
      omega
    simp only [Option.map_some, Option.bind_some, if_neg hlen]
    exact enterFragment_spec hp inv haj hjc hsafe

/-! ## A whole arrival sequence -/

/-- Before the first fragment, the variables are those of another packet. -/
def Ready (d : Datagram) (got : List Nat) (s : Statics) : Prop :=
  got = [] ∧ (s.totalLen = 0 ∨ s.localip.ipId ≠ d.ipId) ∨ ∃ rs, Inv d got rs s

theorem reset_spec (h : Ready d got s) {ip : IpHdr} (hid : ip.ipId = d.ipId) :
    ∃ s' rs, s.reset ip = some s' ∧ Inv d got rs s' := by
  have htwo : 2 ≤ d.count := d.two_le
  rcases h with ⟨rfl, hfresh⟩ | ⟨rs, inv⟩
  · have hidx : d.idx 0 = 0 := by simp [idx, cut_zero]
    have hhole : [(0, d.count)].map d.holeOf = [(0, 0xffff)] := by
      simp [holeOf, hidx, stop]
    rw [← hid] at hfresh
    obtain ⟨s', hs', asm, htotal, hip⟩ := reset_assembling ip hfresh
    exact ⟨s', [(0, d.count)], hs', ⟨by simp, by simp; omega, fun i hi => by simp [hi]⟩,
      ⟨[], _, hhole ▸ asm, nofun⟩, by simp [htotal], by rw [hip, hid]⟩
  · obtain ⟨_, _, asm, -⟩ := inv.assembling
    refine ⟨s, rs, if_neg ?_, inv⟩
    rw [not_or, hid, inv.ipId]
    exact ⟨asm.totalLen_pos.ne', fun hn => hn rfl⟩

theorem netDefragment_eq (hp : d.IsFragment j p) (hs : s.reset p.hdr = some s') :
    netDefragment s p = s'.placeFragment p p.offset8 p.start p.len := by
  have hfits : ¬p.TooFar := by
    have hle := cut_le_ipMaxudp (show j + 1 ≤ d.count from hp.lt)
    rw [cut_succ hp.lt] at hle
    rw [Packet.TooFar, hp.start_eq, hp.len_eq]
    omega
  rw [netDefragment_eq_place, if_neg hfits, hs, Option.bind_some]

/-- One arrival. -/
theorem netDefragment_spec (hp : d.IsFragment j p) (h : Ready d got s) (hsafe : Safe d got j) :
    Gives d got j (Ready d (got ++ [j])) (netDefragment s p) := by
  obtain ⟨s1, rs, hs1, inv⟩ := reset_spec h hp.ipId
  rw [netDefragment_eq hp hs1]
  obtain ⟨hdone, hmore⟩ := placeFragment_spec hp inv hsafe
  refine ⟨hdone, fun hnot => ?_⟩
  obtain ⟨s', hs', inv'⟩ := hmore hnot
  exact ⟨s', hs', .inr inv'⟩

/-- The fragment is entered at a hole in the buffer, and the descriptor of what is left behind it is copied to a
place that is not in the buffer as a whole. -/
def CopiesBehind (s : Statics) (p : Packet) : Prop :=
  ∃ s1 h, s.reset p.hdr = some s1 ∧ s1.sought p = some (some h) ∧ 8 * h + 8 ≤ ipMaxudp ∧
    ipMaxudp < 8 * (p.offset8 + p.len.toNat / 8) + 8

/-- An arrival that `Overruns` describes does write behind `pkt_buff`. -/
theorem netDefragment_overruns (hp : d.IsFragment j p) (h : Ready d got s)
    (hover : Overruns d got j) : netDefragment s p = none ∧ CopiesBehind s p := by
  have hj := hp.lt
  obtain ⟨hmiss, hcount, hmiss', hroom⟩ := hover
  obtain ⟨s1, rs, hs1, inv⟩ := reset_spec h hp.ipId
  obtain ⟨⟨a, c⟩, hrun, haj, hjc⟩ := (inv.runs.missing j hj).mp hmiss
  obtain ⟨pre, post, rfl⟩ := List.append_of_mem hrun
  have hac := inv.runs.bounds (a, c) hrun
  -- the last fragment is missing as well, so that the run goes to the end
  have hc : j + 1 < c := by
    obtain ⟨q, hq, hqj⟩ := (inv.runs.missing (j + 1) (by omega)).mp hmiss'
    rcases List.mem_append.mp hq with hq | hq
    · have := inv.runs.pre_lt q hq
      omega
    · rcases List.mem_cons.mp hq with rfl | hq
      · exact hqj.2
      · have := inv.runs.lt_post q hq
        omega
  have hfound : (pre ++ (a, c) :: post).find? (fun r => decide (j ≤ r.2)) = some (a, c) := by
    refine List.find?_eq_some_iff_append.mpr ⟨by simpa using Nat.le_of_lt hjc, pre, post, rfl, ?_⟩
    intro q hq
    have := inv.runs.pre_lt q hq
    simp only [Bool.not_eq_true', decide_eq_false_iff_not]
    omega
  have hl := inv.linked
  rw [List.map_append, List.map_cons] at hl
  have hr : 8 * d.idx a + 8 ≤ ipMaxudp := hl.room (d.holeOf (a, c)) (by simp)
  have hlast : ¬p.hdr.ipOff &&& ipFlagsMfrag = 0 := mt hp.last.mp (by omega)
  have hstop : ¬(s1.hole (d.idx a)).val ≤ p.start + p.len.toNat := by
    rw [show (s1.hole (d.idx a)).val = d.stop c from congrArg Cell.val hl.hole_eq, ← Packet.stop,
      hp.stop_eq, stop_le_cut_iff (by omega) hac.2]
    omega
  have hbehind : ipMaxudp < 8 * (p.offset8 + p.len.toNat / 8) + 8 := by
    have h1 := eight_idx hj
    have h2 := dvd_frag (d := d) (j := j) (by omega)
    have h3 := cut_succ hj
    rw [hp.offset8_eq, hp.len_eq, Int.toNat_natCast]
    omega
  have hcopy : s1.copyHole (p.offset8 + p.len.toNat / 8) (d.idx a) = none := if_neg (by omega)
  have hlen : ¬p.len < 0 := by
    rw [hp.len_eq]
    omega
  have hsought := inv.sought_eq hp
  rw [hfound] at hsought
  simp only [Option.filter_some, decide_eq_true haj, if_true, Option.map_some] at hsought
  refine ⟨?_, s1, d.idx a, hs1, hsought, hr, hbehind⟩
  rw [netDefragment_eq hp hs1, placeFragment_sought, hsought]
  simp only [Option.bind_some, if_neg hlen, enterFragment, truncateHole, if_neg hlast, fixHoles, lastByte_eq hr, hstop,
    and_false, if_false, moveHole, splitHole, hcopy, Option.bind_eq_bind, Option.bind_none,
    ite_self]

end

/-- The calls for a sequence of packets: the variables at the end and what each call returned. -/
def netDefragmentAll (s : Statics) : List Packet → Option (Statics × List (Option (Packet × Nat)))
  | [] => some (s, [])
  | p :: ps => do
    let (s, r) ← netDefragment s p
    let (s, rs) ← netDefragmentAll s ps
    some (s, r :: rs)

/-- The arrival of a fragment of `d`. -/
structure Arrival (d : Datagram) where
  frag : Nat
  packet : Packet
  isFragment : d.IsFragment frag packet

/-- Every fragment has arrived, and with them every byte. -/
def Complete (d : Datagram) (as : List (Arrival d)) : Prop :=
  ∀ i < d.count, i ∈ as.map Arrival.frag

/-- Every arrival is safe after those before it, and after those of `got`. -/
def SafeOrder (d : Datagram) : List Nat → List (Arrival d) → Prop
  | _, [] => True
  | got, a :: as => Safe d got a.frag ∧ SafeOrder d (got ++ [a.frag]) as

theorem netDefragmentAll_null {d : Datagram} {as : List (Arrival d)} {got : List Nat} {s : Statics}
    (h : Ready d got s) (hsafe : SafeOrder d got as)
    (hmiss : ¬∀ i < d.count, i ∈ got ++ as.map Arrival.frag) :
    ∃ s', netDefragmentAll s (as.map Arrival.packet) = some (s', List.replicate as.length none) ∧
      Ready d (got ++ as.map Arrival.frag) s' := by
  induction as generalizing got s with
  | nil => exact ⟨s, rfl, by simpa using h⟩
  | cons a as ih =>
    have hmiss' : ¬∀ i < d.count, i ∈ (got ++ [a.frag]) ++ as.map Arrival.frag := by
      simpa [List.append_assoc] using hmiss
    have hnot : ¬∀ i < d.count, i ∈ got ++ [a.frag] := fun hall =>
      hmiss' fun i hi => List.mem_append_left _ (hall i hi)
    obtain ⟨s1, hs1, h1⟩ := (netDefragment_spec a.isFragment h hsafe.1).2 hnot
    obtain ⟨s', hs', h'⟩ := ih h1 hsafe.2 hmiss'
    refine ⟨s', ?_, by simpa [List.append_assoc] using h'⟩
    simp only [List.map_cons, netDefragmentAll, hs1, hs', Option.bind_eq_bind, Option.bind_some,
      List.length_cons, List.replicate_succ]

theorem netDefragmentAll_append (s : Statics) (ps qs : List Packet) :
    netDefragmentAll s (ps ++ qs) = (netDefragmentAll s ps).bind fun x =>
      (netDefragmentAll x.1 qs).bind fun y => some (y.1, x.2 ++ y.2) := by
  induction ps generalizing s with
  | nil =>
    simp only [List.nil_append, netDefragmentAll, Option.bind_some]
    cases netDefragmentAll s qs <;> rfl
  | cons p ps ih =>
    simp only [List.cons_append, netDefragmentAll, ih, Option.bind_eq_bind, Option.bind_assoc, Option.bind_some]

/-- In every safe arrival order, `__net_defragment` returns `NULL` for every arrival before the one that
completes the datagram, and the datagram for that one. Its header has the length of the payload alone in
`ip_len`. -/
theorem netDefragment_returns_datagram (d : Datagram) (s : Statics)
    (hs : s.totalLen = 0 ∨ s.localip.ipId ≠ d.ipId) (as : List (Arrival d)) (a : Arrival d)
    (hsafe : SafeOrder d [] (as ++ [a])) (hmiss : ¬Complete d as) :
    ∃ s' r, netDefragmentAll s ((as ++ [a]).map Arrival.packet) =
        some (s', List.replicate as.length none ++ [r]) ∧
      (¬Complete d (as ++ [a]) → r = none) ∧
      (Complete d (as ++ [a]) → ∃ p, r = some (p, d.payload.length + ipHdrSize) ∧
        p.data = d.payload ∧ p.hdr.ipLen.toNat = d.payload.length) := by
  have hsplit : ∀ (as : List (Arrival d)) got, SafeOrder d got (as ++ [a]) →
      SafeOrder d got as ∧ Safe d (got ++ as.map Arrival.frag) a.frag := by
    intro as
    induction as with
    | nil => intro got h; exact ⟨trivial, by simpa using h.1⟩
    | cons b as ih =>
      intro got h
      have := ih (got ++ [b.frag]) h.2
      exact ⟨⟨h.1, this.1⟩, by simpa [List.append_assoc] using this.2⟩
  obtain ⟨hsafe₁, hsafe₂⟩ := hsplit as [] hsafe
  obtain ⟨s₁, hs₁, h₁⟩ := netDefragmentAll_null (.inl ⟨rfl, hs⟩) hsafe₁ hmiss
  obtain ⟨hdone, hmore⟩ := netDefragment_spec a.isFragment h₁ hsafe₂
  have hcomplete : Complete d (as ++ [a]) ↔
      ∀ i < d.count, i ∈ ([] ++ as.map Arrival.frag) ++ [a.frag] := by
    simp [Complete]
  have hlast : ∀ s' r, netDefragment s₁ a.packet = some (s', r) →
      netDefragmentAll s ((as ++ [a]).map Arrival.packet) =
        some (s', List.replicate as.length none ++ [r]) := by
    intro s' r h
    simp only [List.map_append, List.map_cons, List.map_nil, netDefragmentAll_append, hs₁,
      netDefragmentAll, h, Option.bind_eq_bind, Option.bind_some]
  by_cases hc : Complete d (as ++ [a])
  · obtain ⟨s', q, hq, hdata⟩ := hdone (hcomplete.mp hc)
    exact ⟨s', _, hlast s' _ hq, fun h => absurd hc h, fun _ => ⟨q, rfl, hdata⟩⟩
  · obtain ⟨s', hs', -⟩ := hmore (mt hcomplete.mpr hc)
    exact ⟨s', none, hlast s' _ hs', fun _ => rfl, fun h => absurd h hc⟩

def Datagram.packet (d : Datagram) (j : Nat) : Packet where
  hdr :=
    { ipHlV := 0x45, ipTos := 0, ipLen := UInt16.ofNat (ipHdrSize + (d.frag j).length)
      ipId := d.ipId
      ipOff := UInt16.ofNat (d.idx j) ||| (if j + 1 = d.count then 0 else ipFlagsMfrag)
      ipTtl := 64, ipP := 17, ipSum := 0, ipSrc := 0x0a000001, ipDst := 0x0a000002 }
  data := d.frag j

def threeBlocks : Datagram where
  ipId := 7
  frags := [List.replicate 8 1, List.replicate 8 2, List.replicate 8 3]
  two_le := by decide
  nonempty := by decide
  aligned := by decide
  fits := by decide

def initStatics : Statics where
  localip := ⟨0, 0, 0, 0, 0, 0, 0, 0, 0, 0⟩
  payload := fun _ => 0
  firstHole := 0
  totalLen := 0

def threeBlocksArrival (j : Fin 3) : Arrival threeBlocks where
  frag := j
  packet := threeBlocks.packet j
  isFragment := ⟨j.2, rfl, by revert j; decide, by revert j; decide, by revert j; decide, List.prefix_rfl⟩

/-- The first fragment arrives again between the other two. -/
theorem netDefragment_returns_threeBlocks :
    ∃ s' p, netDefragmentAll initStatics (([2, 0, 0, 1].map threeBlocksArrival).map Arrival.packet) =
        some (s', [none, none, none, some (p, 44)]) ∧ p.data = threeBlocks.payload := by
  have hsafe : SafeOrder threeBlocks [] ([2, 0, 0].map threeBlocksArrival ++ [threeBlocksArrival 1]) :=
    ⟨by decide, by decide, by decide, by decide, trivial⟩
  obtain ⟨s', r, hrun, -, hr⟩ := netDefragment_returns_datagram threeBlocks initStatics (.inl rfl)
    ([2, 0, 0].map threeBlocksArrival) (threeBlocksArrival 1) hsafe
    (fun h => absurd (h 1 (by decide)) (by decide))
  obtain ⟨p, rfl, hdata, -⟩ := hr (by unfold Complete; decide)
  exact ⟨s', p, hrun, hdata⟩

/-- The last two fragments are returned as the whole datagram before the first has arrived. -/
theorem netDefragment_returns_early :
    ((netDefragmentAll initStatics (([1, 2].map threeBlocksArrival).map Arrival.packet)).map
      fun x => x.2.map Option.isSome) = some [false, true] ∧
    ¬Complete threeBlocks ([1, 2].map threeBlocksArrival) := by
  refine ⟨by decide +kernel, fun h => absurd (h 0 (by decide)) (by decide)⟩

/-- In every arrival order that is safe up to it, an arrival that `Overruns` describes writes behind `pkt_buff`: the
calls before it return, and it copies a descriptor there. -/
theorem netDefragmentAll_overruns (d : Datagram) (s : Statics) (hs : s.totalLen = 0 ∨ s.localip.ipId ≠ d.ipId)
    (as : List (Arrival d)) (a : Arrival d) (hsafe : SafeOrder d [] as)
    (hover : Overruns d (as.map Arrival.frag) a.frag) :
    netDefragmentAll s ((as ++ [a]).map Arrival.packet) = none ∧
      ∃ s₁ rs, netDefragmentAll s (as.map Arrival.packet) = some (s₁, rs) ∧ CopiesBehind s₁ a.packet := by
  have hmiss : ¬∀ i < d.count, i ∈ [] ++ as.map Arrival.frag := fun hall => hover.1 (hall _ a.isFragment.lt)
  obtain ⟨s₁, hs₁, h₁⟩ := netDefragmentAll_null (.inl ⟨rfl, hs⟩) hsafe hmiss
  obtain ⟨hnone, hbehind⟩ := netDefragment_overruns a.isFragment h₁ hover
  refine ⟨?_, s₁, _, hs₁, hbehind⟩
  simp only [List.map_append, List.map_cons, List.map_nil, netDefragmentAll_append, hs₁, netDefragmentAll, hnone,
    Option.bind_eq_bind, Option.bind_some, Option.bind_none]

/-- The last fragment has the last 4 bytes of the buffer. -/
def tightFit : Datagram where
  ipId := 7
  frags := [List.replicate 16360 1, List.replicate 4 2]
  two_le := by decide
  nonempty := by simp [-List.reduceReplicate]
  aligned := by simp [-List.reduceReplicate]
  fits := by simp [-List.reduceReplicate, ipMaxudp, ipPktsize, ipHdrSize]

theorem netDefragmentAll_overruns_tightFit :
    netDefragmentAll initStatics [tightFit.packet 0] = none ∧ CopiesBehind initStatics (tightFit.packet 0) := by
  have hp : tightFit.IsFragment 0 (tightFit.packet 0) := ⟨by decide, rfl, rfl, by decide, by
    simp [-List.reduceReplicate, Datagram.packet, Datagram.frag, tightFit, ipHdrSize], List.prefix_rfl⟩
  have hover : Overruns tightFit [] 0 := ⟨by simp, rfl, by simp, by
    simp [-List.reduceReplicate, Datagram.cut, tightFit, ipMaxudp, ipPktsize, ipHdrSize]⟩
  obtain ⟨hnone, s₁, rs, hs₁, hbehind⟩ :=
    netDefragmentAll_overruns tightFit initStatics (.inl rfl) [] ⟨0, _, hp⟩ trivial hover
  cases hs₁
  exact ⟨hnone, hbehind⟩

end Armada3720.Net
