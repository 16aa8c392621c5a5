import Armada3720.Lib.BitStack

/-!
# Exception priorities at EL3

`ehf_activate_priority` and `ehf_deactivate_priority` while no interrupt is handled. The activations of a CPU
are a stack, kept as the set of their indices, and the priority mask should be the priority of the top. `none`
is a panic or a failed assertion. A deactivation that leaves an activation behind programs the priority that is
deactivated.
-/

namespace Armada3720.Ehf

open Lib

/-! ## The code -/

/-- `ehf_priorities_t`; `ehf_init` asserts that the indices fit the bit set. -/
structure Priorities where
  ehfHandler : Nat → BitVec 64
  numPriorities : Nat
  priBits : Nat
  numPriorities_le : numPriorities ≤ 32
  priBits_le : priBits ≤ 7

/-- `pe_exc_data_t`, and the priority mask of the interrupt controller. -/
structure State where
  activePriBits : BitVec 32
  initPriMask : BitVec 8
  nsPriMask : BitVec 8
  pmr : BitVec 8
deriving DecidableEq

def idlePriority : BitVec 8 := 0xff#8

def Priorities.isIdxValid (tbl : Priorities) (idx : Nat) : Bool :=
  tbl.ehfHandler idx &&& 1#64 != 0#64

def Priorities.ehfPriToIdx (tbl : Priorities) (priority : BitVec 32) : Nat :=
  ((priority &&& 0x7f#32) >>> (7 - tbl.priBits)).toNat

def Priorities.priToIdx (tbl : Priorities) (priority : BitVec 32) : Option Nat :=
  let idx := tbl.ehfPriToIdx priority
  if idx < tbl.numPriorities ∧ tbl.isIdxValid idx then some idx else none

/-- `get_pe_highest_active_idx`, with `none` for `EHF_INVALID_IDX`. -/
def State.getPeHighestActiveIdx (s : State) : Option Nat :=
  if s.activePriBits = 0#32 then none else some s.activePriBits.ctz.toNat

def State.platIcSetPriorityMask (s : State) (mask : BitVec 32) : BitVec 32 × State :=
  (s.pmr.setWidth 32, { s with pmr := mask.setWidth 8 })

/-- `ehf_activate_priority`, at a running priority. -/
def ehfActivatePriority (tbl : Priorities) (runPri : BitVec 8) (priority : BitVec 32) (s : State) : Option State :=
  if priority ≥ runPri.setWidth 32 then none
  else
    let curPriIdx := s.getPeHighestActiveIdx
    match tbl.priToIdx priority with
    | none => none
    | some idx =>
      if curPriIdx.any (idx ≥ ·) then none
      else
        let s := { s with activePriBits := s.activePriBits ||| 1#32 <<< idx }
        let (oldMask, s) := s.platIcSetPriorityMask priority
        if priority ≥ oldMask then none
        else if curPriIdx = none then some { s with initPriMask := oldMask.setWidth 8 }
        else some s

/-- The mask that `ehf_deactivate_priority` programs after it has cleared the bit. -/
def State.nextMask (s : State) (priority : BitVec 32) : BitVec 32 :=
  match s.getPeHighestActiveIdx with
  | none => s.initPriMask.setWidth 32
  | some _ => priority

/-- `ehf_deactivate_priority`, at a running priority. -/
def ehfDeactivatePriority (tbl : Priorities) (runPri : BitVec 8) (priority : BitVec 32) (s : State) : Option State :=
  if priority ≥ runPri.setWidth 32 then none
  else
    let curPriIdx := s.getPeHighestActiveIdx
    match tbl.priToIdx priority with
    | none => none
    | some idx =>
      if curPriIdx ≠ some idx then none
      else
        let s := { s with activePriBits := s.activePriBits &&& (s.activePriBits - 1#32) }
        let (oldMask, s) := s.platIcSetPriorityMask (s.nextMask priority)
        if oldMask > priority then none else some s

/-! ## Sequences of calls -/

inductive Call where
  | activate (priority : BitVec 32)
  | deactivate (priority : BitVec 32)
deriving DecidableEq

def Call.run (tbl : Priorities) (s : State) : Call → Option State
  | .activate priority => ehfActivatePriority tbl idlePriority priority s
  | .deactivate priority => ehfDeactivatePriority tbl idlePriority priority s

def runCalls (tbl : Priorities) (s : State) (calls : List Call) : Option State :=
  calls.foldlM (Call.run tbl) s

/-- What a call does to the stack of the priorities that are active. -/
def Call.onStack (stack : List (BitVec 32)) : Call → List (BitVec 32)
  | .activate priority => priority :: stack
  | .deactivate _ => stack.tail

/-- The activations not yet deactivated, the most recent one first. -/
def outstanding (calls : List Call) : List (BitVec 32) :=
  calls.foldl Call.onStack []

/-- The priority of the most recent activation, or the mask before the first. -/
def expectedMask (initial : BitVec 8) : List (BitVec 32) → BitVec 32
  | [] => initial.setWidth 32
  | priority :: _ => priority

/-- A deactivation with an activation below the one it is for. -/
def Call.Nested (stack : List (BitVec 32)) : Call → Prop
  | .activate _ => False
  | .deactivate _ => 2 ≤ stack.length

/-! ## What one call does -/

section Step

variable {tbl : Priorities} {s s' : State} {stack : List (BitVec 32)} {initial runPri : BitVec 8}
  {priority : BitVec 32}

/-- The bit set holds the indices of the stack, and the first mask is kept while it is not empty. -/
structure Tracks (tbl : Priorities) (initial : BitVec 8) (stack : List (BitVec 32)) (s : State) : Prop where
  bits : BitStack s.activePriBits (stack.map tbl.ehfPriToIdx)
  init : stack ≠ [] → s.initPriMask = initial
  idle : stack = [] → s.pmr = initial

theorem highest_eq_none (h : BitStack s.activePriBits []) : s.getPeHighestActiveIdx = none := by
  simp [State.getPeHighestActiveIdx, h.eq_zero]

theorem highest_eq_some {idx : Nat} {l : List Nat} (h : BitStack s.activePriBits (idx :: l)) :
    s.getPeHighestActiveIdx = some idx := by
  rw [State.getPeHighestActiveIdx, if_neg h.ne_zero, h.ctz]

theorem nextMask_of_last (h : s.activePriBits = 0#32) : s.nextMask priority = s.initPriMask.setWidth 32 := by
  rw [State.nextMask, State.getPeHighestActiveIdx, if_pos h]

theorem nextMask_of_more (h : s.activePriBits ≠ 0#32) : s.nextMask priority = priority := by
  rw [State.nextMask, State.getPeHighestActiveIdx, if_neg h]

theorem setWidth_setWidth_of_lt (h : priority < runPri.setWidth 32) : (priority.setWidth 8).setWidth 32 = priority := by
  apply BitVec.eq_of_toNat_eq
  rw [BitVec.lt_def] at h
  simp only [BitVec.toNat_setWidth] at h ⊢
  omega

theorem setWidth_setWidth_mask (mask : BitVec 8) : (mask.setWidth 32).setWidth 8 = mask := by
  simp

theorem priToIdx_eq_some {idx : Nat} (h : tbl.priToIdx priority = some idx) :
    idx = tbl.ehfPriToIdx priority ∧ idx < 32 := by
  unfold Priorities.priToIdx at h
  dsimp only at h
  split at h
  next hvalid =>
    cases h
    exact ⟨rfl, hvalid.1.trans_le tbl.numPriorities_le⟩
  next => cases h

theorem activate_cases (hs : ehfActivatePriority tbl runPri priority s = some s') :
    ∃ idx, tbl.priToIdx priority = some idx ∧ priority < runPri.setWidth 32 ∧
      s.getPeHighestActiveIdx.any (idx ≥ ·) = false ∧ priority < s.pmr.setWidth 32 ∧
      s' = { s with
        activePriBits := s.activePriBits ||| 1#32 <<< idx
        initPriMask := if s.getPeHighestActiveIdx = none then s.pmr else s.initPriMask
        pmr := priority.setWidth 8 } := by
  unfold ehfActivatePriority at hs
  split at hs
  · cases hs
  next hrun =>
    dsimp only [State.platIcSetPriorityMask] at hs
    split at hs
    · cases hs
    next idx hidx =>
      split at hs
      · cases hs
      next hcur =>
        split at hs
        · cases hs
        next hmask =>
          refine ⟨idx, hidx, BitVec.not_le.1 hrun, Bool.eq_false_iff.2 hcur, BitVec.not_le.1 hmask, ?_⟩
          split at hs <;> cases hs <;> simp [*]

theorem deactivate_cases (hs : ehfDeactivatePriority tbl runPri priority s = some s') :
    ∃ idx, tbl.priToIdx priority = some idx ∧ priority < runPri.setWidth 32 ∧ s.getPeHighestActiveIdx = some idx ∧
      s' = { s with
        activePriBits := s.activePriBits &&& (s.activePriBits - 1#32)
        pmr := (State.nextMask { s with activePriBits := s.activePriBits &&& (s.activePriBits - 1#32) }
          priority).setWidth 8 } := by
  unfold ehfDeactivatePriority at hs
  split at hs
  · cases hs
  next hrun =>
    dsimp only [State.platIcSetPriorityMask] at hs
    split at hs
    · cases hs
    next idx hidx =>
      split at hs
      · cases hs
      next hcur =>
        split at hs
        · cases hs
        · cases hs
          exact ⟨idx, hidx, BitVec.not_le.1 hrun, not_not.1 hcur, rfl⟩

theorem Tracks.activate (h : Tracks tbl initial stack s) (hs : ehfActivatePriority tbl runPri priority s = some s') :
    Tracks tbl initial (priority :: stack) s' ∧ s'.pmr.setWidth 32 = priority := by
  obtain ⟨idx, hidx, hrun, hcur, -, rfl⟩ := activate_cases hs
  obtain ⟨rfl, hlt⟩ := priToIdx_eq_some hidx
  cases stack with
  | nil =>
    have hnone := highest_eq_none h.bits
    exact ⟨⟨h.bits.push hlt (by simp), fun _ => (if_pos hnone).trans (h.idle rfl), nofun⟩, setWidth_setWidth_of_lt hrun⟩
  | cons top rest =>
    have htop := highest_eq_some h.bits
    rw [htop] at hcur
    -- The index is below those of the stack, as it is below the top.
    have hbelow : ∀ j ∈ (top :: rest).map tbl.ehfPriToIdx, tbl.ehfPriToIdx priority < j := by
      have hlt : tbl.ehfPriToIdx priority < tbl.ehfPriToIdx top := by simpa using hcur
      intro j hj
      rcases List.mem_cons.1 hj with rfl | hj
      · exact hlt
      · exact hlt.trans (List.rel_of_pairwise_cons h.bits.sorted hj)
    refine ⟨⟨h.bits.push hlt hbelow, fun _ => ?_, nofun⟩, setWidth_setWidth_of_lt hrun⟩
    exact (if_neg (by simp [htop])).trans (h.init (by simp))

/-- A deactivation that does not panic is for the index of the top. The mask is the first one if that was the
last activation, and the priority of the call otherwise. -/
theorem Tracks.deactivate (h : Tracks tbl initial stack s)
    (hs : ehfDeactivatePriority tbl runPri priority s = some s') :
    ∃ top rest, stack = top :: rest ∧ tbl.ehfPriToIdx priority = tbl.ehfPriToIdx top ∧
      Tracks tbl initial rest s' ∧
      s'.pmr.setWidth 32 = if rest = [] then initial.setWidth 32 else priority := by
  obtain ⟨idx, hidx, hrun, hcur, rfl⟩ := deactivate_cases hs
  obtain ⟨rfl, hlt⟩ := priToIdx_eq_some hidx
  cases stack with
  | nil =>
    rw [highest_eq_none h.bits] at hcur
    cases hcur
  | cons top rest =>
    rw [highest_eq_some h.bits, Option.some_inj] at hcur
    have hinit : s.initPriMask = initial := h.init (by simp)
    have hbits := h.bits.pop
    refine ⟨top, rest, rfl, hcur.symm, ?_⟩
    cases rest with
    | nil =>
      rw [nextMask_of_last hbits.eq_zero]
      exact ⟨⟨hbits, by simp, fun _ => (setWidth_setWidth_mask _).trans hinit⟩, by simp [hinit]⟩
    | cons next rest =>
      rw [nextMask_of_more hbits.ne_zero]
      exact ⟨⟨hbits, fun _ => hinit, nofun⟩, by simpa using setWidth_setWidth_of_lt hrun⟩

/-- A call that does not panic leaves the mask that should be in force if and only if it is not a deactivation
with an activation below. -/
theorem Tracks.call (h : Tracks tbl initial stack s) {call : Call} (hs : call.run tbl s = some s') :
    Tracks tbl initial (call.onStack stack) s' ∧
      (s'.pmr.setWidth 32 = expectedMask initial (call.onStack stack) ↔ ¬ call.Nested stack) := by
  cases call with
  | activate priority =>
    obtain ⟨htracks, hmask⟩ := h.activate hs
    exact ⟨htracks, by simpa [Call.Nested, Call.onStack, expectedMask] using hmask⟩
  | deactivate priority =>
    obtain ⟨top, rest, rfl, htop, htracks, hmask⟩ := h.deactivate hs
    refine ⟨htracks, ?_⟩
    cases rest with
    | nil => simpa [Call.Nested, Call.onStack, expectedMask] using hmask
    | cons next rest =>
      -- The index of the next activation is another one, so its priority is too.
      have hlt : tbl.ehfPriToIdx top < tbl.ehfPriToIdx next :=
        List.rel_of_pairwise_cons h.bits.sorted (by simp)
      have hne : priority ≠ next := by
        rintro rfl
        omega
      simp [Call.Nested, Call.onStack, expectedMask, hmask, hne]

end Step

/-! ## What a sequence of calls does -/

section Runs

variable {tbl : Priorities} {s s' : State} {calls : List Call}

theorem runCalls_concat (call : Call) (hs : runCalls tbl s (calls ++ [call]) = some s') :
    ∃ s1, runCalls tbl s calls = some s1 ∧ call.run tbl s1 = some s' := by
  simp only [runCalls, List.foldlM_append, List.foldlM_cons, List.foldlM_nil, bind_pure, Option.bind_eq_bind,
    Option.bind_eq_some_iff] at hs
  exact hs

theorem runCalls_prefix {pre : List Call} (hpre : pre <+: calls) (hs : (runCalls tbl s calls).isSome) :
    ∃ s', runCalls tbl s pre = some s' := by
  obtain ⟨rest, rfl⟩ := hpre
  rw [runCalls, List.foldlM_append] at hs
  cases hrun : List.foldlM (Call.run tbl) s pre with
  | none => simp [hrun] at hs
  | some s' => exact ⟨s', hrun⟩

theorem outstanding_concat (calls : List Call) (call : Call) :
    outstanding (calls ++ [call]) = call.onStack (outstanding calls) := by
  simp [outstanding]

theorem runCalls_tracks (h0 : s.activePriBits = 0#32) (hs : runCalls tbl s calls = some s') :
    Tracks tbl s.pmr (outstanding calls) s' := by
  induction calls using List.reverseRecOn generalizing s' with
  | nil =>
    cases hs
    exact ⟨h0 ▸ bitStack_empty, by simp [outstanding], fun _ => rfl⟩
  | append_singleton calls call ih =>
    obtain ⟨s1, hs1, hcall⟩ := runCalls_concat call hs
    rw [outstanding_concat]
    exact ((ih hs1).call hcall).1

/-- In a sequence of calls that does not panic, the mask is after each call the priority of the most recent
activation not yet deactivated, or the mask before the first, if and only if no call deactivates a
priority while another activation is below it. -/
theorem ehf_mask_exact_iff (tbl : Priorities) (s : State) (h0 : s.activePriBits = 0#32) (calls : List Call)
    (hrun : (runCalls tbl s calls).isSome) :
    (∀ pre s', pre <+: calls → runCalls tbl s pre = some s' →
      s'.pmr.setWidth 32 = expectedMask s.pmr (outstanding pre)) ↔
    ∀ pre priority, pre ++ [.deactivate priority] <+: calls → (outstanding pre).length ≤ 1 := by
  constructor
  · intro h pre priority hpre
    obtain ⟨s', hs'⟩ := runCalls_prefix hpre hrun
    have hmask := h _ s' hpre hs'
    obtain ⟨s₁, hs₁, hcall⟩ := runCalls_concat _ hs'
    rw [outstanding_concat, ((runCalls_tracks h0 hs₁).call hcall).2] at hmask
    exact Nat.le_of_not_lt hmask
  · intro h pre s' hpre hs'
    induction pre using List.reverseRecOn with
    | nil =>
      cases hs'
      rfl
    | append_singleton pre call _ =>
      obtain ⟨s₁, hs₁, hcall⟩ := runCalls_concat call hs'
      rw [outstanding_concat, ((runCalls_tracks h0 hs₁).call hcall).2]
      cases call with
      | activate priority => exact id
      | deactivate priority => exact Nat.not_lt.2 (h pre priority hpre)

def eightPriorities : Priorities :=
  ⟨fun _ => 1#64, 8, 3, by decide, by decide⟩

def idleState : State := ⟨0#32, 0#8, 0#8, 0xff#8⟩

/-- One activation and its deactivation. -/
theorem ehf_mask_exact_once : ∃ s', runCalls eightPriorities idleState [.activate 0x20#32, .deactivate 0x20#32] = some s' ∧
    s'.pmr.setWidth 32 = expectedMask idleState.pmr (outstanding [.activate 0x20#32, .deactivate 0x20#32]) := by
  have hrun : runCalls eightPriorities idleState [.activate 0x20#32, .deactivate 0x20#32] =
      some ⟨0#32, 0xff#8, 0#8, 0xff#8⟩ := by
    decide +kernel
  refine ⟨_, hrun, (ehf_mask_exact_iff _ _ rfl _ (by rw [hrun]; rfl)).2 ?_ _ _ List.prefix_rfl hrun⟩
  rintro (_ | ⟨call, _ | ⟨_, pre⟩⟩) priority hpre
  · decide
  · cases call <;> simp [outstanding, Call.onStack]
  · have := hpre.length_le
    simp at this

/-- With 0x60 and 0x20 active, the deactivation of 0x20 leaves the mask at 0x20. -/
theorem ehf_mask_nested :
    runCalls eightPriorities idleState [.activate 0x60#32, .activate 0x20#32, .deactivate 0x20#32] =
        some ⟨0x40#32, 0xff#8, 0#8, 0x20#8⟩ ∧
      expectedMask idleState.pmr
        (outstanding [.activate 0x60#32, .activate 0x20#32, .deactivate 0x20#32]) = 0x60#32 := by
  decide +kernel

end Runs

end Armada3720.Ehf
