import Mathlib
import Armada3720.Sdei.Dispatcher

/-!
# What the calls do

Most calls take an entry to another state, clear an entry that is unregistered, change lines of the interrupt
controller or write the data of a CPU. A property that these keep is kept by those calls.
-/

namespace Armada3720.Sdei

variable {P : Platform} {I : State P → Prop} {s : State P}

/-! ## The state machine -/

section StateMachine

variable {state next : HandlerState} {act : Action}

theorem registered_of_trans (h : canSdeiStateTrans state act = some next) (hreg : act ≠ .register)
    (hunreg : act ≠ .unregister) : next.registered = state.registered := by
  revert h hreg hunreg
  rcases state with ⟨_ | _, _ | _, _ | _⟩ <;> cases act <;> simp [canSdeiStateTrans, sdeiStateTable] <;>
    rintro rfl <;> rfl

theorem registered_of_register (h : canSdeiStateTrans state .register = some next) :
    state.registered = false ∧ next.registered = true := by
  revert h
  rcases state with ⟨_ | _, _ | _, _ | _⟩ <;> simp [canSdeiStateTrans, sdeiStateTable]
  rintro rfl
  rfl

theorem registered_of_unregister (h : canSdeiStateTrans state .unregister = some next) :
    state.registered = true ∧ next.registered = false := by
  revert h
  rcases state with ⟨_ | _, _ | _, _ | _⟩ <;> simp [canSdeiStateTrans, sdeiStateTable] <;> rintro rfl <;> rfl

theorem enabled_of_trans (h : canSdeiStateTrans state act = some next) (he : state.enabled → state.registered) :
    next.enabled → next.registered := by
  revert h he
  rcases state with ⟨_ | _, _ | _, _ | _⟩ <;> cases act <;> simp [canSdeiStateTrans, sdeiStateTable] <;>
    rintro rfl <;> simp

theorem release_of_idle (he : state.enabled → state.registered) (hreg : state.registered = false)
    (hrun : state.running = false) : canSdeiStateTrans state .release = some state := by
  rcases state with ⟨r, e, g⟩
  obtain rfl : g = false := hreg
  obtain rfl : r = false := hrun
  obtain rfl : e = false := by simpa using he
  rfl

end StateMachine

/-! ## Changes and calls -/

theorem map_setEntry (s : State P) (cpu : P.Cpu) (m : P.Map) (e : Entry) : (s.setEntry cpu m e).map = s.map := by
  cases m <;> rfl

theorem ic_setEntry (s : State P) (cpu : P.Cpu) (m : P.Map) (e : Entry) : (s.setEntry cpu m e).ic = s.ic := by
  cases m <;> rfl

theorem getEventEntry_onIc (s : State P) (cpu : P.Cpu) (m : P.Map) (f : Ic P.Cpu → Ic P.Cpu) :
    (s.onIc f).getEventEntry cpu m = s.getEventEntry cpu m := by
  cases m <;> rfl

/-- A call whose state after it has a property, if there is one. -/
def Keeps (I : State P → Prop) (r : Result P) : Prop :=
  ∀ ret s', r = some (ret, s') → I s'

theorem keeps_some (h : I s) (ret : Int) : Keeps I (some (ret, s)) := by
  rintro _ _ ⟨⟩
  exact h

theorem keeps_none : Keeps I none :=
  nofun

theorem Keeps.map {r : Result P} (h : Keeps I r) (f : Int → Int) :
    Keeps I (r.bind fun p => some (f p.1, p.2)) := by
  intro ret s' hs
  obtain ⟨⟨ret1, s1⟩, hr, hs⟩ := Option.bind_eq_some_iff.1 hs
  cases hs
  exact h _ _ hr

theorem keeps_foldlM {f : Int × State P → P.Map → Result P} (maps : List P.Map)
    (hf : ∀ {s}, I s → ∀ finalRet m, Keeps I (f (finalRet, s) m)) (finalRet : Int) (h : I s) :
    Keeps I (maps.foldlM f (finalRet, s)) := by
  induction maps generalizing finalRet s with
  | nil => exact keeps_some h _
  | cons m maps ih =>
    intro ret s' hs
    rw [List.foldlM_cons, Option.bind_eq_bind, Option.bind_eq_some_iff] at hs
    obtain ⟨⟨ret1, s1⟩, hm, hs⟩ := hs
    exact ih ret1 (hf h _ _ _ _ hm) _ _ hs

/-- A property that the common changes keep. -/
structure Closed (I : State P → Prop) : Prop where
  trans : ∀ {s cpu m act next}, I s → canSdeiStateTrans (s.getEventEntry cpu m).state act = some next →
    act ≠ .register → act ≠ .unregister → I (s.setEntryState cpu m next)
  clear : ∀ {s cpu m next}, I s → canSdeiStateTrans (s.getEventEntry cpu m).state .unregister = some next →
    I (s.clear cpu m next)
  lines : ∀ {s} {ic : Ic P.Cpu}, I s → ic.routing = s.ic.routing → I { s with ic := ic }
  cpu : ∀ {s cpu} {c : CpuState P}, I s → I (s.setCpu cpu c)

section Calls

theorem Closed.onIc (hI : Closed I) (h : I s) {f : Ic P.Cpu → Ic P.Cpu} (hf : (f s.ic).routing = s.ic.routing) :
    I (s.onIc f) :=
  hI.lines h hf

theorem Closed.changeEnabled (hI : Closed I) (h : I s) {act : Action} {changes : Bool → Bool → Bool}
    {program : Ic P.Cpu → P.Cpu → Nat → Ic P.Cpu} (hprogram : ∀ ic cpu intr, (program ic cpu intr).routing = ic.routing)
    (cpu : P.Cpu) (evNum : Int) (hreg : act ≠ .register) (hunreg : act ≠ .unregister) :
    Keeps I (changeEnabled act changes program s cpu evNum) := by
  unfold Sdei.changeEnabled
  split
  · exact keeps_some h _
  dsimp only
  split
  · exact keeps_some h _
  next ht =>
    have h' := hI.trans h ht hreg hunreg
    split
    · exact keeps_some (hI.onIc h' (hprogram _ _ _)) _
    · exact keeps_some h' _

theorem Closed.enable (hI : Closed I) (h : I s) (cpu : P.Cpu) (evNum : Int) :
    Keeps I (sdeiEventEnable s cpu evNum) := by
  refine hI.changeEnabled h ?_ cpu evNum ?_ ?_
  · exact fun _ _ _ => rfl
  · decide
  · decide

theorem Closed.disable (hI : Closed I) (h : I s) (cpu : P.Cpu) (evNum : Int) :
    Keeps I (sdeiEventDisable s cpu evNum) := by
  refine hI.changeEnabled h ?_ cpu evNum ?_ ?_
  · exact fun _ _ _ => rfl
  · decide
  · decide

theorem programUnregister_routing (cpu : P.Cpu) (m : P.Map) (intr : Nat) (ic : Ic P.Cpu) :
    (programUnregister P cpu m intr ic).routing = ic.routing := by
  unfold programUnregister
  split <;> rfl

section

variable (hI : Closed I) (h : I s) (cpu : P.Cpu)
include hI h cpu

theorem Closed.unregisterMap (m : P.Map) : Keeps I (s.unregisterMap cpu m) := by
  unfold State.unregisterMap
  dsimp only
  split
  · exact keeps_some h _
  next state ht =>
    split
    · exact keeps_none
    split
    · split
      · exact keeps_none
      · refine keeps_some (hI.clear (hI.onIc h (programUnregister_routing _ _ _ _)) ?_) _
        rw [getEventEntry_onIc]
        exact ht
    · exact keeps_some (hI.clear h ht) _

theorem Closed.unregister (evNum : Int) : Keeps I (sdeiEventUnregister s cpu evNum) := by
  unfold sdeiEventUnregister
  split
  · exact keeps_some h _
  · exact hI.unregisterMap h _ _

theorem Closed.unregisterAll (maps : List P.Map) : Keeps I (unregisterAll cpu maps s) :=
  keeps_foldlM maps (fun h finalRet m => (hI.unregister h cpu (P.evNum m)).map
    fun ret => if ret = sdeiEpend ∧ finalRet = 0 then sdeiEdeny else finalRet) 0 h

theorem Closed.peMask : I (sdeiPeMask s cpu).2 :=
  hI.cpu h

end

theorem foldl_routing {f : Ic P.Cpu → P.Map → Ic P.Cpu} (hf : ∀ ic m, (f ic m).routing = ic.routing)
    (maps : List P.Map) (ic : Ic P.Cpu) : (maps.foldl f ic).routing = ic.routing := by
  induction maps generalizing ic with
  | nil => rfl
  | cons m maps ih => exact (ih _).trans (hf ic m)

section

variable (hI : Closed I) (h : I s) (cpu : P.Cpu)
include hI h cpu

theorem Closed.peUnmask : I (sdeiPeUnmask s cpu) := by
  refine hI.lines (hI.cpu h) ?_
  split
  · refine foldl_routing (fun ic m => ?_) _ _
    split <;> rfl
  · rfl

theorem Closed.maskedTrigger (m : P.Map) (intrRaw : Nat) :
    Keeps I (handleMaskedTrigger s cpu m intrRaw) := by
  unfold handleMaskedTrigger
  split
  · exact keeps_some h _
  split
  · exact keeps_none
  split
  · exact keeps_some (hI.cpu (hI.onIc h rfl)) _
  · exact keeps_some (hI.onIc h rfl) _

theorem Closed.pushDispatch (d : Dispatch P) :
    Keeps I ((s.pushDispatch cpu d).map fun s => (0, s)) := by
  unfold State.pushDispatch
  dsimp only
  split
  · exact keeps_some (hI.cpu h) _
  · exact keeps_none

theorem Closed.intrHandler (intrRaw : Nat) : Keeps I (sdeiIntrHandler s cpu intrRaw) := by
  unfold sdeiIntrHandler
  split
  · exact keeps_none
  split
  · exact keeps_none
  split
  · exact hI.maskedTrigger h _ _ _
  split
  · exact keeps_none
  dsimp only
  split
  · refine keeps_some (hI.onIc h ?_) _
    split <;> rfl
  next ht =>
    split
    · exact keeps_none
    · exact hI.pushDispatch (hI.trans h ht (by decide) (by decide)) _ _

theorem Closed.dispatchEvent (evNum : Int) : Keeps I (sdeiDispatchEvent s cpu evNum) := by
  unfold sdeiDispatchEvent
  split
  · exact keeps_some h _
  split
  · exact keeps_some h _
  split
  · exact keeps_some h _
  split
  · exact keeps_some h _
  split
  · exact keeps_some h _
  split
  · exact keeps_some h _
  split
  · exact keeps_some h _
  next ht => exact hI.pushDispatch (hI.trans h ht (by decide) (by decide)) _ _

theorem Closed.complete (resume : Bool) (pc : BitVec 64) :
    Keeps I (sdeiEventComplete s cpu resume pc) := by
  unfold sdeiEventComplete
  split
  · exact keeps_some h _
  split
  · exact keeps_some h _
  split
  · exact keeps_some h _
  next ht =>
    have h' := hI.trans h ht (by cases resume <;> decide) (by cases resume <;> decide)
    dsimp only
    split
    · exact keeps_some (hI.onIc (hI.cpu h') rfl) _
    · exact keeps_some (hI.cpu h') _

end

end Calls

end Armada3720.Sdei
