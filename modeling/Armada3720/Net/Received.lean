import Armada3720.Net.Reassembly

/-!
# What reassembly delivers for arbitrary fragments

Nothing is assumed of the fragments here. A byte of a returned packet is `Received` if a fragment accepted since
the last reset carries it at its place. The list of holes lies in the buffer, apart from the data only for
fragments that respect it (`Statics.Fits`). Once a packet has been returned the list is not set up again until a
fragment with another id comes.
-/

namespace Armada3720.Net

open Lib Lib.Cell

/-! ## One fragment -/

namespace Statics

/-- The fragment respects the list of holes, `h` being the hole it is entered in. -/
structure Fits (s : Statics) (p : Packet) (h : Nat) : Prop where
  /-- it has a length -/
  len_nonneg : 0 ≤ p.len
  /-- a rest of the hole begins on a block boundary and has room for its descriptor -/
  rest : ¬p.IsLast → p.stop < (s.hole h).val → 8 ∣ p.len.toNat ∧ p.stop + 8 ≤ ipMaxudp
  /-- no hole is behind one that a last fragment cuts off -/
  cut : p.IsLast → p.stop < (s.hole h).val → (s.hole h).next = 0
  /-- the next hole is not touched -/
  next : (s.hole h).next ≠ 0 → p.stop ≤ 8 * (s.hole h).next
  /-- a hole whose beginning is covered is the first one, or is linked back to a hole -/
  head : p.offset8 ≤ h → h = s.firstHole ∨ (s.hole h).prev ≠ 0

instance (s : Statics) (p : Packet) (h : Nat) : Decidable (s.Fits p h) :=
  decidable_of_iff (0 ≤ p.len ∧
      (¬p.IsLast → p.stop < (s.hole h).val → 8 ∣ p.len.toNat ∧ p.stop + 8 ≤ ipMaxudp) ∧
      (p.IsLast → p.stop < (s.hole h).val → (s.hole h).next = 0) ∧
      ((s.hole h).next ≠ 0 → p.stop ≤ 8 * (s.hole h).next) ∧
      (p.offset8 ≤ h → h = s.firstHole ∨ (s.hole h).prev ≠ 0))
    ⟨fun h => ⟨h.1, h.2.1, h.2.2.1, h.2.2.2.1, h.2.2.2.2⟩, fun h => ⟨h.len_nonneg, h.rest, h.cut, h.next, h.head⟩⟩

end Statics

open Statics

/-- The packet was put together from bytes of the accepted fragments, all with its id. -/
def Delivers (accepted : List Packet) (q : Packet) : Prop :=
  (∀ f ∈ accepted, f.hdr.ipId = q.hdr.ipId) ∧
    ∀ k b, q.data[k]? = some b → Received accepted k b

section Step

variable {s : Statics} {accepted : List Packet} {hs pre post : List (Nat × Nat)} {bound h v : Nat} {p : Packet}

theorem Assembling.sought_eq (inv : Assembling s accepted hs bound)
    (hh : s.sought p = some (some h)) (hlen : 0 ≤ p.len) :
    ∃ pre v post, hs = pre ++ (h, v) :: post ∧ (∀ x ∈ pre, x.2 < p.start) ∧ p.start ≤ v ∧
      h < p.offset8 + (p.len.toNat + 7) / 8 := by
  rw [sought, inv.linked.findHole_eq inv.ne_nil, Option.map_some, Option.some.injEq, Option.filter_eq_some_iff] at hh
  obtain ⟨hfound, hover⟩ := hh
  obtain ⟨⟨i, v⟩, hfind, rfl⟩ := Option.map_eq_some_iff.mp hfound
  obtain ⟨hv, pre, post, rfl, hpre⟩ := List.find?_eq_some_iff_append.mp hfind
  refine ⟨pre, v, post, rfl, fun x hx => ?_, by simpa using hv, ?_⟩
  · simpa using hpre x hx
  · obtain ⟨n, hn⟩ := Int.eq_ofNat_of_zero_le hlen
    have hover' : ¬((p.offset8 : Int) + (p.len + 7).tdiv 8 ≤ i) := by simpa using hover
    rw [hn] at hover' ⊢
    have hdiv : ((n : Int) + 7).tdiv 8 = ((n + 7) / 8 : Nat) := by
      rw [Int.tdiv_eq_ediv_of_nonneg (by omega)]
      omega
    omega

theorem Statics.Fits.entered (hl : Linked s (pre ++ (h, v) :: post)) (hfits : s.Fits p h)
    (hpre : ∀ x ∈ pre, x.2 < p.start) (hv : p.start ≤ v)
    (hover : h < p.offset8 + (p.len.toNat + 7) / 8) :
    Entered pre post h v p.offset8 p.len.toNat p.IsLast ∧
      (p.offset8 ≤ h → pre.map Prod.fst ≠ [0]) := by
  have hhole := hl.hole_eq
  have hcut := hfits.cut
  have hnext := hfits.next
  have hhead := hfits.head
  have hrest := hfits.rest
  rw [hhole] at hcut hnext hhead hrest
  refine ⟨⟨hpre, hv, hover, hrest, fun hlast hlt => hl.next_eq_zero.mp (hcut hlast hlt),
    fun x hx => ?_⟩, fun hin hz => ?_⟩
  · have hne : post ≠ [] := List.ne_nil_of_mem hx
    have hle := hnext (mt hl.next_eq_zero.mp hne)
    cases post with
    | nil => exact absurd rfl hne
    | cons y post =>
      have hsorted := hl.sorted
      simp only [List.map_append, List.map_cons, List.pairwise_append, List.pairwise_cons] at hsorted
      have hyx : y.1 ≤ x.1 := by
        rcases List.mem_cons.mp hx with rfl | hx
        · exact le_rfl
        · exact Nat.le_of_lt (hsorted.2.1.2.1 x.1 (List.mem_map_of_mem hx))
      exact hle.trans (Nat.mul_le_mul_left 8 hyx)
  · obtain ⟨x, rfl, hx0⟩ := List.map_eq_singleton_iff.mp hz
    rcases hhead hin with hfirst | hprev
    · have hlt := hl.pre_lt x (by simp)
      have : s.firstHole = x.1 := hl.first
      omega
    · exact hprev hx0

/-- Either holes are left, or the packet is returned and all its bytes have been received. -/
theorem Assembling.enter (inv : Assembling s accepted hs bound) (hid : p.hdr.ipId = s.localip.ipId)
    (hnear : ¬p.TooFar) (hwhole : p.Whole) (hh : s.sought p = some (some h)) (hfits : s.Fits p h) :
    (∃ s' hs' bound', s.enterFragment p h p.offset8 p.start p.len.toNat = some (s', none) ∧
      Assembling s' (accepted ++ [p]) hs' bound') ∨
    ∃ s' q n, s.enterFragment p h p.offset8 p.start p.len.toNat = some (s', some (q, n)) ∧
      Delivers (accepted ++ [p]) q := by
  obtain ⟨pre, v, post, rfl, hpre, hv, hover⟩ := inv.sought_eq hh hfits.len_nonneg
  obtain ⟨hent, hz⟩ := hfits.entered inv.linked hpre hv hover
  have hstop : p.stop ≤ ipMaxudp := by
    have hlen := hfits.len_nonneg
    rw [p.tooFar_iff] at hnear
    unfold Packet.stop
    omega
  have hdata : p.len.toNat ≤ p.data.length := by
    unfold Packet.Whole at hwhole
    unfold Packet.len
    omega
  obtain ⟨s', hentered⟩ := inv.enterAt hent hz hid hstop hdata
  by_cases hdone : holesAfter p pre post h v = []
  · right
    obtain ⟨hrun, hrec⟩ := hentered.done hdone
    refine ⟨_, _, _, hrun, hentered.ipId, fun k b hb => ?_⟩
    rcases Nat.lt_or_ge k s'.totalLen with hk | hk
    · rw [List.getElem?_map, List.getElem?_range hk] at hb
      exact Option.some.inj hb ▸ hrec k hk
    · rw [List.getElem?_eq_none (by simpa using hk)] at hb
      cases hb
  · exact .inl ⟨s', _, _, hentered.more hdone⟩

end Step

/-! ## Sequences of fragments -/

/-- A fragment of a new or different packet. -/
def Statics.Fresh (s : Statics) (ip : IpHdr) : Prop := s.totalLen = 0 ∨ s.localip.ipId ≠ ip.ipId

instance (s : Statics) (ip : IpHdr) : Decidable (s.Fresh ip) := inferInstanceAs (Decidable (_ ∨ _))

/-- With the fragments that were accepted since the last reset, and whether a packet was returned. -/
structure Trace where
  statics : Statics
  accepted : List Packet
  returned : Bool

namespace Trace

/-- The fragment resets the variables. -/
def Resets (t : Trace) (p : Packet) : Prop := ¬p.TooFar ∧ t.statics.Fresh p.hdr

instance (t : Trace) (p : Packet) : Decidable (t.Resets p) := inferInstanceAs (Decidable (_ ∧ _))

/-- What the walk over the holes comes to, after a reset if there is one. -/
def sought (t : Trace) (p : Packet) : Option (Option Nat) :=
  if p.TooFar then some none else (t.statics.reset p.hdr).bind fun s => s.sought p

/-- The record after a fragment that resets the variables, or does not. -/
def since (t : Trace) (p : Packet) : List Packet := if t.Resets p then [] else t.accepted

/-- A call of `__net_defragment` and what it does to the record. -/
def step (t : Trace) (p : Packet) : Option (Trace × Option (Packet × Nat)) :=
  (netDefragment t.statics p).map fun r =>
    (⟨r.1, match t.sought p with
      | some (some _) => t.since p ++ [p]
      | _ => t.since p, (!decide (t.Resets p) && t.returned) || r.2.isSome⟩, r.2)

def run : Trace → List Packet → Option (List (Trace × Option (Packet × Nat)))
  | _, [] => some []
  | t, p :: ps => (t.step p).bind fun r => (run r.1 ps).map fun rs => r :: rs

/-- The fragment is dropped or respects the holes; once the packet has been returned, only one that resets the
variables is not dropped. -/
structure Safe (t : Trace) (p : Packet) : Prop where
  once : ¬t.Resets p → t.returned = true → t.sought p = some none
  fits : ∀ s h, t.statics.reset p.hdr = some s → t.sought p = some (some h) → s.Fits p h

instance (t : Trace) (p : Packet) : Decidable (t.Safe p) :=
  decidable_of_iff ((¬t.Resets p → t.returned = true → t.sought p = some none) ∧
      ∀ s ∈ t.statics.reset p.hdr, ∀ found ∈ t.sought p, ∀ h ∈ found, s.Fits p h)
    ⟨fun hs => ⟨hs.1, fun s h hreset hsought => hs.2 s hreset (some h) hsought h rfl⟩,
      fun hs => ⟨hs.once, fun s hreset _ hsought h hh =>
        hs.fits s h hreset (hh ▸ hsought)⟩⟩

/-- Every fragment of the sequence is safe when it comes. -/
def SafeRun : Trace → List Packet → Prop
  | _, [] => True
  | t, p :: ps => t.Safe p ∧ ∀ r ∈ t.step p, SafeRun r.1 ps

instance decidableSafeRun : (t : Trace) → (ps : List Packet) → Decidable (t.SafeRun ps)
  | _, [] => isTrue trivial
  | t, p :: ps =>
    have : ∀ t' : Trace, Decidable (t'.SafeRun ps) := fun t' => decidableSafeRun t' ps
    inferInstanceAs (Decidable (t.Safe p ∧ ∀ r ∈ t.step p, SafeRun r.1 ps))

/-- A packet is being assembled, or one has been returned, or none has come. -/
def Ok (t : Trace) : Prop :=
  t.returned = true ∨ t.statics.totalLen = 0 ∨
    ∃ hs bound, Assembling t.statics t.accepted hs bound

end Trace

section Run

variable {t : Trace} {p : Packet}

/-- While a packet is being assembled, a safe fragment is dropped, entered, or completes it. -/
theorem Assembling.place {s : Statics} {accepted : List Packet} {hs : List (Nat × Nat)}
    {bound : Nat} (inv : Assembling s accepted hs bound) (hid : p.hdr.ipId = s.localip.ipId)
    (hnear : ¬p.TooFar) (hwhole : p.Whole)
    (hfits : ∀ h, s.sought p = some (some h) → s.Fits p h) :
    ∃ s' r, s.placeFragment p p.offset8 p.start p.len = some (s', r) ∧
      (∀ q n, r = some (q, n) → Delivers (match s.sought p with
        | some (some _) => accepted ++ [p]
        | _ => accepted) q) ∧
      (r = none → ∃ hs' bound', Assembling s' (match s.sought p with
        | some (some _) => accepted ++ [p]
        | _ => accepted) hs' bound') := by
  rw [placeFragment_sought]
  cases hsought : s.sought p with
  | none =>
    rw [sought, inv.linked.findHole_eq inv.ne_nil] at hsought
    cases hsought
  | some found =>
    cases found with
    | none => exact ⟨s, none, rfl, by simp, fun _ => ⟨hs, bound, inv⟩⟩
    | some h =>
      have hfit := hfits h hsought
      have hlen : ¬p.len < 0 := Int.not_lt.mpr hfit.len_nonneg
      simp only [Option.bind_some, if_neg hlen]
      rcases inv.enter hid hnear hwhole hsought hfit with
        ⟨s', hs', bound', hrun, inv'⟩ | ⟨s', q, n, hrun, hdel⟩
      · exact ⟨s', none, hrun, by simp, fun _ => ⟨hs', bound', inv'⟩⟩
      · refine ⟨s', some (q, n), hrun, fun q' n' h' => ?_, by simp⟩
        cases h'
        exact hdel

/-- A safe fragment: the call returns, and a packet that it returns is made of bytes received. -/
theorem Trace.Ok.step (hok : t.Ok) (hwhole : p.Whole) (hsafe : t.Safe p) :
    ∃ t' r, t.step p = some (t', r) ∧ t'.Ok ∧ ∀ q n, r = some (q, n) → Delivers t'.accepted q := by
  by_cases hfar : p.TooFar
  · -- the fragment is dropped before anything is looked at
    have hcall : netDefragment t.statics p = some (t.statics, none) := by
      rw [netDefragment_eq_place, if_pos hfar]
    have hres : ¬t.Resets p := fun h => h.1 hfar
    have hsought : t.sought p = some none := if_pos hfar
    have hstep : t.step p = some (t, none) := by
      simp [Trace.step, hcall, hsought, Trace.since, hres]
    exact ⟨t, none, hstep, hok, nofun⟩
  · have hsought : ∀ s, t.statics.reset p.hdr = some s → t.sought p = s.sought p := by
      intro s hs
      rw [Trace.sought, if_neg hfar, hs]
      rfl
    -- both kinds of fragments that are looked at lead to an assembly
    have hplaced : ∀ s hs bound, t.statics.reset p.hdr = some s →
        Assembling s (t.since p) hs bound → p.hdr.ipId = s.localip.ipId →
        (!decide (t.Resets p) && t.returned) = false →
        ∃ t' r, t.step p = some (t', r) ∧ t'.Ok ∧
          ∀ q n, r = some (q, n) → Delivers t'.accepted q := by
      intro s hs bound hreset inv hid hret
      have hso := hsought s hreset
      obtain ⟨s', r, hcall, hdel, hnext⟩ := inv.place hid hfar hwhole fun h hh =>
        hsafe.fits s h hreset (hso.trans hh)
      have hrun : netDefragment t.statics p = some (s', r) := by
        rw [netDefragment_eq_place, if_neg hfar, hreset]
        exact hcall
      rw [← hso] at hdel hnext
      refine ⟨_, r, by rw [Trace.step, hrun]; rfl, ?_, hdel⟩
      cases r with
      | some x => exact Or.inl (Bool.or_true _)
      | none => exact Or.inr (Or.inr (hnext rfl))
    by_cases hfresh : t.statics.Fresh p.hdr
    · have hres : t.Resets p := ⟨hfar, hfresh⟩
      obtain ⟨s, hs, inv, -, hip⟩ := reset_assembling p.hdr hfresh
      refine hplaced s [(0, 0xffff)] 0xffff hs ?_ (by rw [hip]) (by simp [hres])
      rw [Trace.since, if_pos hres]
      exact inv
    · have hres : ¬t.Resets p := fun h => hfresh h.2
      have hreset : t.statics.reset p.hdr = some t.statics := if_neg hfresh
      obtain ⟨htotal, hid⟩ := not_or.mp hfresh
      rcases Bool.eq_false_or_eq_true t.returned with hret | hret
      · -- data is read as holes, and the fragment dropped
        have hdrop := hsafe.once hres hret
        have hcall : netDefragment t.statics p = some (t.statics, none) := by
          rw [netDefragment_eq_place, if_neg hfar, hreset, Option.bind_some, placeFragment_sought,
            ← hsought _ hreset, hdrop]
          rfl
        have hstep : t.step p = some (t, none) := by
          simp [Trace.step, hcall, hdrop, Trace.since, hres]
        exact ⟨t, none, hstep, hok, nofun⟩
      · rcases hok with h | h | ⟨hs, bound, inv⟩
        · rw [hret] at h
          cases h
        · exact absurd h htotal
        · refine hplaced t.statics hs bound hreset ?_ (not_not.mp hid).symm (by simp [hret])
          rw [Trace.since, if_neg hres]
          exact inv

theorem Trace.netDefragment_of_step {t' : Trace} {r : Option (Packet × Nat)}
    (h : t.step p = some (t', r)) : netDefragment t.statics p = some (t'.statics, r) := by
  obtain ⟨x, hcall, hx⟩ := Option.map_eq_some_iff.mp h
  cases hx
  exact hcall

theorem Trace.Ok.run (hok : t.Ok) (ps : List Packet) (hwhole : ∀ p ∈ ps, p.Whole) (hsafe : t.SafeRun ps) :
    ∃ outcomes, t.run ps = some outcomes ∧
      (netDefragmentAll t.statics ps).map Prod.snd = some (outcomes.map Prod.snd) ∧
      ∀ x ∈ outcomes, ∀ q n, x.2 = some (q, n) → Delivers x.1.accepted q := by
  induction ps generalizing t with
  | nil => exact ⟨[], rfl, rfl, nofun⟩
  | cons p ps ih =>
    obtain ⟨t', r, hstep, hok', hdel⟩ := hok.step (hwhole p List.mem_cons_self) hsafe.1
    obtain ⟨outcomes, hrun, hall, hdels⟩ := ih hok'
      (fun p' hp' => hwhole p' (List.mem_cons_of_mem p hp')) (hsafe.2 _ hstep)
    have hcall := Trace.netDefragment_of_step hstep
    obtain ⟨⟨s'', rs⟩, hrest, hrs⟩ := Option.map_eq_some_iff.mp hall
    refine ⟨(t', r) :: outcomes, ?_, ?_, fun x hx => ?_⟩
    · rw [Trace.run, hstep, Option.bind_some, hrun]
      rfl
    · simp only [netDefragmentAll, hcall, Option.bind_eq_bind, Option.bind_some, hrest,
        Option.map_some, List.map_cons]
      rw [show rs = outcomes.map Prod.snd from hrs]
    · rcases List.mem_cons.mp hx with rfl | hx
      · exact hdel
      · exact hdels x hx

end Run

/-- In every sequence of fragments that are safe when they come, each call returns, and every byte of a packet
that is returned was carried by a fragment with the id of the packet that was accepted since the last reset. -/
theorem reassembly_delivers_received (s₀ : Statics) (hs₀ : s₀.totalLen = 0) (ps : List Packet)
    (hwhole : ∀ p ∈ ps, p.Whole) (hsafe : Trace.SafeRun ⟨s₀, [], false⟩ ps) :
    ∃ outcomes, Trace.run ⟨s₀, [], false⟩ ps = some outcomes ∧
      (netDefragmentAll s₀ ps).map Prod.snd = some (outcomes.map Prod.snd) ∧
      ∀ x ∈ outcomes, ∀ q n, x.2 = some (q, n) → Delivers x.1.accepted q := by
  have hok : Trace.Ok ⟨s₀, [], false⟩ := Or.inr (Or.inl hs₀)
  exact hok.run ps hwhole hsafe

def Trace.init : Trace := ⟨initStatics, [], false⟩

theorem reassembly_delivers_threeBlocks :
    ∃ outcomes, Trace.init.run ([2, 0, 1].map threeBlocks.packet) = some outcomes ∧
      ∀ x ∈ outcomes, ∀ q n, x.2 = some (q, n) → Delivers x.1.accepted q := by
  obtain ⟨outcomes, hrun, -, hdel⟩ := reassembly_delivers_received initStatics rfl
    ([2, 0, 1].map threeBlocks.packet) (by decide +kernel) (by decide +kernel)
  exact ⟨outcomes, hrun, hdel⟩

/-- The last two of three blocks come, and 24 bytes are returned. The first eight are the descriptor of a hole.
-/
theorem reassembly_delivers_descriptor :
    ∃ outcomes, Trace.init.run ([1, 2].map threeBlocks.packet) = some outcomes ∧
      ∃ x ∈ outcomes, ∃ q n, x.2 = some (q, n) ∧ q.data[0]? = some 8 ∧
        ∀ b, ¬Received x.1.accepted 0 b := by
  have hrun : (Trace.init.run ([1, 2].map threeBlocks.packet)).map (List.map fun x =>
      (x.2.map fun r => r.1.data.take 8, x.1.accepted.map Packet.start)) =
      some [(none, [8]), (some [8, 0, 2, 0, 0, 0, 0, 0], [8, 16])] := by decide +kernel
  obtain ⟨outcomes, houtcomes, hmap⟩ := Option.map_eq_some_iff.mp hrun
  obtain ⟨x₁, rest, rfl, -, hrest⟩ := List.map_eq_cons_iff.mp hmap
  obtain ⟨x, rest', rfl, hx, -⟩ := List.map_eq_cons_iff.mp hrest
  obtain ⟨hdata, hstarts⟩ := Prod.mk.inj hx
  obtain ⟨⟨q, n⟩, hq, htake⟩ := Option.map_eq_some_iff.mp hdata
  refine ⟨_, houtcomes, x, by simp, q, n, hq, ?_, ?_⟩
  · have hfirst : (q.data.take 8)[0]? = some 8 := by
      rw [htake]
      rfl
    simpa using hfirst
  · rintro b ⟨f, hf, hstart, -⟩
    have hmem : f.start ∈ [8, 16] := hstarts ▸ List.mem_map_of_mem hf
    simp only [List.mem_cons, List.not_mem_nil, or_false] at hmem
    omega

end Armada3720.Net
