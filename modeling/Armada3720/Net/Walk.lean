import Armada3720.Net.Received

/-!
# The walk over the holes ends

The walk is described without a bound on its steps. It ends as long as the links are the code's own; once a
packet has been returned, they are bytes of that packet.

`reassembly_walk_ends` is for sequences of fragments that are safe when they come.
-/

namespace Armada3720.Net

open Statics

/-- The walk comes to the end of the list, or to a hole that does not end before `start`. -/
inductive Statics.WalkEnds (s : Statics) (start : Nat) : Nat → Prop
  | found {h : Nat} : start ≤ s.word (8 * h) → WalkEnds s start h
  | last {h : Nat} : s.word (8 * h + 2) = 0 → WalkEnds s start h
  | next {h : Nat} : WalkEnds s start (s.word (8 * h + 2)) → WalkEnds s start h

/-- The walk that the fragment leads to, if it is not too far, ends. -/
def Statics.CallEnds (s : Statics) (p : Packet) : Prop :=
  ¬p.TooFar → ∃ s', s.reset p.hdr = some s' ∧ s'.WalkEnds p.start s'.firstHole

theorem load16_eq {s : Statics} {i v : Nat} (h : s.load16 i = some v) : s.word i = v := by
  rw [load16] at h
  split at h
  · exact Option.some.inj h
  · cases h

theorem walkEnds_of_findHole {s : Statics} {start fuel h : Nat} {r : Option Nat}
    (hfind : s.findHole start fuel h = some r) : s.WalkEnds start h := by
  induction fuel generalizing h with
  | zero => cases hfind
  | succ fuel ih =>
    obtain ⟨last, hlast, hfind⟩ := Option.bind_eq_some_iff.mp hfind
    have hword := load16_eq hlast
    split at hfind
    · obtain ⟨next, hnext, hfind⟩ := Option.bind_eq_some_iff.mp hfind
      have hlink := load16_eq hnext
      split at hfind
      · next hz => exact .last (hlink.trans hz)
      · exact .next (hlink ▸ ih hfind)
    · exact .found (by omega)

theorem callEnds_of_netDefragment {s : Statics} {p : Packet}
    {r : Statics × Option (Packet × Nat)} (h : netDefragment s p = some r) : s.CallEnds p := by
  intro hnear
  rw [netDefragment_eq_place, if_neg hnear] at h
  obtain ⟨s', hreset, h⟩ := Option.bind_eq_some_iff.mp h
  obtain ⟨found, hfind, -⟩ := Option.bind_eq_some_iff.mp h
  exact ⟨s', hreset, walkEnds_of_findHole hfind⟩

theorem not_walkEnds {s : Statics} {start h : Nat} (hlast : s.word (8 * h) < start)
    (hlink : s.word (8 * h + 2) = h) (hne : h ≠ 0) : ¬s.WalkEnds start h := by
  intro hends
  generalize hi : h = i at hends
  induction hends with
  | found hle => exact absurd hle (by rw [← hi]; omega)
  | last hz => exact hne (by rw [← hlink, hi, hz])
  | next _ ih => exact ih (by rw [← hi, hlink])

namespace Trace

/-- The fragment respects the list of holes, and none comes for a packet that has been returned. -/
structure Respects (t : Trace) (p : Packet) : Prop where
  once : t.returned = true → p.TooFar ∨ t.Resets p
  fits : ∀ s h, t.statics.reset p.hdr = some s → t.sought p = some (some h) → s.Fits p h

theorem Respects.safe {t : Trace} {p : Packet} (h : t.Respects p) : t.Safe p where
  once hres hret := if_pos ((h.once hret).resolve_right hres)
  fits := h.fits

instance (t : Trace) (p : Packet) : Decidable (t.Respects p) :=
  decidable_of_iff ((t.returned = true → p.TooFar ∨ t.Resets p) ∧ t.Safe p)
    ⟨fun h => ⟨h.1, h.2.fits⟩, fun h => ⟨h.once, h.safe⟩⟩

def RespectsRun : Trace → List Packet → Prop
  | _, [] => True
  | t, p :: ps => t.Respects p ∧ ∀ r ∈ t.step p, RespectsRun r.1 ps

instance decidableRespectsRun : (t : Trace) → (ps : List Packet) → Decidable (t.RespectsRun ps)
  | _, [] => isTrue trivial
  | t, p :: ps =>
    have : ∀ t' : Trace, Decidable (t'.RespectsRun ps) := fun t' => decidableRespectsRun t' ps
    inferInstanceAs (Decidable (t.Respects p ∧ ∀ r ∈ t.step p, RespectsRun r.1 ps))

theorem Ok.callEnds {t : Trace} (hok : t.Ok) {pre post : List Packet} {p : Packet}
    (hwhole : ∀ q ∈ pre ++ p :: post, q.Whole) (hrun : t.RespectsRun (pre ++ p :: post)) :
    ∃ s rs, netDefragmentAll t.statics pre = some (s, rs) ∧ s.CallEnds p := by
  induction pre generalizing t with
  | nil =>
    obtain ⟨_, _, hstep, -⟩ := hok.step (hwhole p (by simp)) hrun.1.safe
    exact ⟨_, _, rfl, callEnds_of_netDefragment (netDefragment_of_step hstep)⟩
  | cons q pre ih =>
    obtain ⟨t', r, hstep, hok', -⟩ := hok.step (hwhole q (by simp)) hrun.1.safe
    obtain ⟨s, rs, hall, hends⟩ := ih hok' (fun x hx => hwhole x (List.mem_cons_of_mem q hx)) (hrun.2 _ hstep)
    refine ⟨s, r :: rs, ?_, hends⟩
    simp only [netDefragmentAll, netDefragment_of_step hstep, Option.bind_eq_bind, Option.bind_some, hall]

end Trace

/-- In every sequence of fragments that respect the holes, of which none comes for a packet already returned,
the walk of every call ends. -/
theorem reassembly_walk_ends (s₀ : Statics) (hs₀ : s₀.totalLen = 0) (pre post : List Packet)
    (p : Packet) (hwhole : ∀ q ∈ pre ++ p :: post, q.Whole)
    (hrun : Trace.RespectsRun ⟨s₀, [], false⟩ (pre ++ p :: post)) :
    ∃ s rs, netDefragmentAll s₀ pre = some (s, rs) ∧ s.CallEnds p :=
  Trace.Ok.callEnds (Or.inr (Or.inl hs₀)) hwhole hrun

/-- Two fragments of eight bytes, the second of which reads as a hole linked to itself. -/
def selfLinked : Datagram where
  ipId := 7
  frags := [List.replicate 8 0, [0, 0, 1, 0, 0, 0, 0, 0]]
  two_le := by decide
  nonempty := by decide
  aligned := by decide
  fits := by decide

theorem reassembly_walk_ends_selfLinked :
    ∃ s rs, netDefragmentAll initStatics [selfLinked.packet 0] = some (s, rs) ∧
      s.CallEnds (selfLinked.packet 1) :=
  reassembly_walk_ends initStatics rfl [selfLinked.packet 0] [] (selfLinked.packet 1)
    (by decide +kernel) (by decide +kernel)

/-- The packet has been returned, and its second fragment comes again: the walk goes round. -/
theorem reassembly_walk_goes_round :
    ∃ s rs, netDefragmentAll initStatics ([0, 1].map selfLinked.packet) = some (s, rs) ∧
      ¬s.CallEnds (selfLinked.packet 1) := by
  have hrun : (netDefragmentAll initStatics ([0, 1].map selfLinked.packet)).map (fun r =>
      (r.1.totalLen, r.1.localip.ipId, r.1.firstHole, r.1.word 8, r.1.word 10)) =
      some (16, 7, 1, 0, 1) := by decide +kernel
  obtain ⟨⟨s, rs⟩, hall, hs⟩ := Option.map_eq_some_iff.mp hrun
  simp only [Prod.mk.injEq] at hs
  obtain ⟨htotal, hid, hfirst, hlast, hlink⟩ := hs
  refine ⟨s, rs, hall, fun hends => ?_⟩
  obtain ⟨s', hreset, hwalk⟩ := hends (by decide +kernel)
  rw [reset, if_neg (by rw [htotal, hid]; decide +kernel)] at hreset
  cases hreset
  rw [hfirst] at hwalk
  exact not_walkEnds (by rw [hlast]; decide +kernel) hlink (by omega) hwalk

end Armada3720.Net
