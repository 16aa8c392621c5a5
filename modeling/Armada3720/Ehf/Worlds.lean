import Armada3720.Ehf
import Armada3720.Lib.Reaches

/-!
# The normal world's priority mask

The handlers of `ehf.c` for the switches between the worlds, with the activations in between. The running priority is
an input of each call. While it runs, the normal world may write the mask; the interrupt controller ignores that if
the mask is in the secure range.

`ns_mask_is_preserved` begins with an exit that has no activation, and is for runs in which no deactivation that
leaves an activation behind has a non-secure priority.
-/

namespace Armada3720.Ehf

open Lib

def isPriSecure (pri : BitVec 8) : Bool := pri &&& 0x80 = 0

def gicHighestNsPriority : BitVec 8 := 0x80

def ehfExitedNormalWorld (runPri : BitVec 8) (s : State) : Option State :=
  if isPriSecure runPri then some s
  else if s.activePriBits ≠ 0 then some s
  else if s.nsPriMask ≠ 0 then none
  else
    let (mask, s) := s.platIcSetPriorityMask (gicHighestNsPriority.setWidth 32)
    let s := { s with nsPriMask := mask.setWidth 8 }
    if isPriSecure s.nsPriMask then none else some s

def ehfEnteringNormalWorld (runPri : BitVec 8) (s : State) : Option State :=
  if isPriSecure runPri then some s
  else if s.activePriBits ≠ 0 then some s
  else if s.nsPriMask = 0 then some s
  else
    let (oldPmr, s) := s.platIcSetPriorityMask (s.nsPriMask.setWidth 32)
    if oldPmr ≠ gicHighestNsPriority.setWidth 32 ∧ oldPmr ≠ s.nsPriMask.setWidth 32 then none
    else some { s with nsPriMask := 0 }

/-- What may happen until the normal world is entered without an activation. -/
inductive Event where
  | activate (runPri : BitVec 8) (priority : BitVec 32)
  | deactivate (runPri : BitVec 8) (priority : BitVec 32)
  | enter (runPri : BitVec 8)
  | exit (runPri : BitVec 8)
  | nsWrite (mask : BitVec 8)

def Event.run (tbl : Priorities) (s : State) : Event → Option State
  | .activate runPri priority => ehfActivatePriority tbl runPri priority s
  | .deactivate runPri priority => ehfDeactivatePriority tbl runPri priority s
  | .enter runPri => ehfEnteringNormalWorld runPri s
  | .exit runPri => ehfExitedNormalWorld runPri s
  | .nsWrite mask => some (if isPriSecure s.pmr then s else { s with pmr := mask ||| 0x80 })

/-- The normal world is entered, runs and is left while an activation is outstanding, and a deactivation that is not
of the last activation is of a secure priority. -/
def Event.Ok (s : State) : Event → Prop
  | .activate _ _ => True
  | .deactivate _ priority => s.activePriBits &&& (s.activePriBits - 1) ≠ 0 → priority < 0x80
  | .enter _ => s.activePriBits ≠ 0
  | .exit _ => s.activePriBits ≠ 0
  | .nsWrite _ => s.activePriBits ≠ 0

/-- The mask is stashed. The one in force is secure while an activation is outstanding, and the highest non-secure one
otherwise. -/
structure Stashed (mask : BitVec 8) (s : State) : Prop where
  stash : s.nsPriMask = mask
  idle : s.activePriBits = 0 → s.pmr = gicHighestNsPriority
  active : s.activePriBits ≠ 0 → s.initPriMask = gicHighestNsPriority ∧ s.pmr < gicHighestNsPriority

variable {tbl : Priorities} {s s' : State} {mask runPri : BitVec 8} {priority : BitVec 32}

theorem Stashed.pmr_le (h : Stashed mask s) : s.pmr ≤ gicHighestNsPriority := by
  by_cases hbits : s.activePriBits = 0
  · exact h.idle hbits ▸ BitVec.le_refl _
  · exact BitVec.le_of_lt (h.active hbits).2

theorem isPriSecure_of_lt {pri : BitVec 8} (h : pri < gicHighestNsPriority) : isPriSecure pri = true := by
  revert h
  revert pri
  decide

theorem setWidth_lt_highest {priority : BitVec 32} (h : priority < 0x80) : priority.setWidth 8 < gicHighestNsPriority := by
  rw [BitVec.lt_def] at h ⊢
  rw [BitVec.toNat_setWidth]
  change _ < 128
  change _ < 128 at h
  omega

theorem Stashed.activate (h : Stashed mask s) (hs : ehfActivatePriority tbl runPri priority s = some s') :
    Stashed mask s' := by
  obtain ⟨idx, hidx, -, -, hlt, rfl⟩ := activate_cases hs
  have hbits : s.activePriBits ||| 1#32 <<< idx ≠ 0 := by
    intro hzero
    have hbit := congrArg (BitVec.getLsbD · idx) hzero
    simp [(priToIdx_eq_some hidx).2] at hbit
  refine ⟨h.stash, fun hzero => absurd hzero hbits, fun _ => ⟨?_, setWidth_lt_highest ?_⟩⟩
  · by_cases hidle : s.activePriBits = 0
    · simpa [State.getPeHighestActiveIdx, hidle] using h.idle hidle
    · simpa [State.getPeHighestActiveIdx, show ¬ s.activePriBits = 0#32 from hidle] using (h.active hidle).1
  · have hle := h.pmr_le
    rw [BitVec.lt_def, BitVec.toNat_setWidth] at hlt
    rw [BitVec.le_def] at hle
    change _ ≤ 128 at hle
    rw [BitVec.lt_def]
    change _ < 128
    omega

theorem Stashed.deactivate (h : Stashed mask s) (hok : s.activePriBits &&& (s.activePriBits - 1) ≠ 0 → priority < 0x80)
    (hs : ehfDeactivatePriority tbl runPri priority s = some s') : Stashed mask s' := by
  obtain ⟨idx, -, -, hcur, rfl⟩ := deactivate_cases hs
  have hactive : s.activePriBits ≠ 0 := by
    intro hidle
    simp [State.getPeHighestActiveIdx, hidle] at hcur
  refine ⟨h.stash, fun hlast => ?_, fun hmore => ⟨(h.active hactive).1, ?_⟩⟩
  · dsimp only
    rw [nextMask_of_last (by exact hlast)]
    exact (setWidth_setWidth_mask _).trans (h.active hactive).1
  · dsimp only
    rw [nextMask_of_more (by exact hmore)]
    exact setWidth_lt_highest (hok hmore)

theorem Stashed.step (h : Stashed mask s) {event : Event} (hok : event.Ok s) (hs : event.run tbl s = some s') :
    Stashed mask s' := by
  cases event with
  | activate runPri priority => exact h.activate hs
  | deactivate runPri priority => exact h.deactivate hok hs
  | enter runPri =>
    have hsame : s' = s := by
      simp only [Event.run, ehfEnteringNormalWorld, if_pos (show s.activePriBits ≠ 0 from hok), ite_self] at hs
      exact (Option.some_inj.1 hs).symm
    exact hsame ▸ h
  | exit runPri =>
    have hsame : s' = s := by
      simp only [Event.run, ehfExitedNormalWorld, if_pos (show s.activePriBits ≠ 0 from hok), ite_self] at hs
      exact (Option.some_inj.1 hs).symm
    exact hsame ▸ h
  | nsWrite mask =>
    rw [Event.run, if_pos (isPriSecure_of_lt (h.active hok).2)] at hs
    exact Option.some_inj.1 hs ▸ h

/-- From an exit of the normal world without an activation, through any calls that meet the condition, the mask is never
above the highest non-secure priority; and the first entry without an activation brings the mask back and clears the
stash. -/
theorem ns_mask_is_preserved (tbl : Priorities) (runPri : BitVec 8) (hrun : isPriSecure runPri = false) (s₀ s₁ s : State)
    (hidle : s₀.activePriBits = 0) (hexit : ehfExitedNormalWorld runPri s₀ = some s₁)
    (hreach : Reaches (fun s event s' => Event.run tbl s event = some s') Event.Ok s₁ s) :
    s.pmr ≤ gicHighestNsPriority ∧
      ∀ runPri s', s.activePriBits = 0 → isPriSecure runPri = false → ehfEnteringNormalWorld runPri s = some s' →
        s'.pmr = s₀.pmr ∧ s'.nsPriMask = 0 := by
  obtain ⟨hsecure, rfl⟩ : isPriSecure s₀.pmr = false ∧
      s₁ = { s₀ with pmr := gicHighestNsPriority, nsPriMask := s₀.pmr } := by
    unfold ehfExitedNormalWorld at hexit
    rw [if_neg (by simp [hrun]), if_neg (by simp [hidle])] at hexit
    split at hexit
    · cases hexit
    · dsimp only [State.platIcSetPriorityMask] at hexit
      split at hexit
      · cases hexit
      next hmask =>
        cases hexit
        simpa using hmask
  have hinv : Stashed s₀.pmr s :=
    hreach.invariant ⟨rfl, fun _ => rfl, fun h => absurd hidle h⟩ fun h hok hs => h.step hok hs
  refine ⟨hinv.pmr_le, fun runPri s' hbits hrun hs => ?_⟩
  have hstash : s.nsPriMask ≠ 0 := by
    rw [hinv.stash]
    rintro hzero
    rw [hzero] at hsecure
    cases hsecure
  unfold ehfEnteringNormalWorld at hs
  rw [if_neg (by simp [hrun]), if_neg (by simp [hbits]), if_neg hstash] at hs
  dsimp only [State.platIcSetPriorityMask] at hs
  split at hs
  · cases hs
  · cases hs
    exact ⟨(setWidth_setWidth_mask _).trans hinv.stash, rfl⟩

/-- An activation and its deactivation between the exit and the entry. -/
theorem ns_mask_is_preserved_once : ∃ s s', ehfEnteringNormalWorld idlePriority s = some s' ∧
    s.pmr ≤ gicHighestNsPriority ∧ s'.pmr = 0xf0 ∧ s'.nsPriMask = 0 := by
  have h1 : Reaches (fun s event s' => Event.run eightPriorities s event = some s') Event.Ok ⟨0, 0, 0xf0, 0x80⟩
      ⟨4, 0x80, 0xf0, 0x20⟩ :=
    .step .start (a := .activate idlePriority 0x20) trivial (by decide +kernel)
  have h2 : Reaches (fun s event s' => Event.run eightPriorities s event = some s') Event.Ok ⟨0, 0, 0xf0, 0x80⟩
      ⟨0, 0x80, 0xf0, 0x80⟩ :=
    .step h1 (a := .deactivate idlePriority 0x20) (fun h => absurd (by decide) h) (by decide +kernel)
  obtain ⟨hle, hentry⟩ := ns_mask_is_preserved eightPriorities idlePriority rfl ⟨0, 0, 0, 0xf0⟩ _ _ rfl rfl h2
  exact ⟨_, _, rfl, hle, hentry idlePriority _ rfl rfl rfl⟩

/-- With 0x60 and 0x20 active, a deactivation of 0xa0 passes for one of 0x20 and leaves the mask at 0xa0. -/
theorem ns_mask_raised_by_deactivation :
    (([.exit idlePriority, .activate idlePriority 0x60, .activate idlePriority 0x20,
        .deactivate idlePriority 0xa0] : List Event).foldlM (Event.run eightPriorities) idleState).map State.pmr =
      some 0xa0 ∧ 0xa0 > gicHighestNsPriority := by
  decide +kernel

end Armada3720.Ehf
