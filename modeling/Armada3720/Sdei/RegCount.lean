import Mathlib.Algebra.BigOperators.Group.Finset.Basic
import Armada3720.Lib.Reaches
import Armada3720.Sdei.Effects

/-!
# Registration counts

Register and unregister change `reg_count` and the entries together. `sdei_cpu_on_init` clears the private
entries of its CPU and leaves the counts, so they stay exact only if none of those entries was registered.

`sdei_reg_count_exact` is for such runs, with all other calls and interrupts on all CPUs. Each call is one step; the
locks that make it one are left out.
-/

namespace Armada3720.Sdei

open Lib Finset

variable {P : Platform} {s s' : State P} {cpu : P.Cpu} {m : P.Map} {ret : Int}

/-- The number of entries of a map that are registered. -/
def State.registeredEntries (s : State P) : P.Map → Nat
  | .inl i => (Finset.univ.filter fun cpu => (s.priv cpu i).state.registered).card
  | .inr j => if (s.shrd j).state.registered then 1 else 0

/-- The counts are exact, and only registered events are enabled. -/
structure Exact (s : State P) : Prop where
  count : ∀ m, (s.map m).regCount = s.registeredEntries m
  enabled : ∀ cpu m, (s.getEventEntry cpu m).state.enabled → (s.getEventEntry cpu m).state.registered

/-! ## Writing an entry -/

section Write

variable {e : Entry} {m' : P.Map}

theorem getEventEntry_setEntry_cases (s : State P) (cpu cpu' : P.Cpu) (m m' : P.Map) (e : Entry) :
    (s.setEntry cpu m e).getEventEntry cpu' m' = e ∨
      (s.setEntry cpu m e).getEventEntry cpu' m' = s.getEventEntry cpu' m' := by
  rcases m with i | j <;> rcases m' with i' | j'
  · by_cases hc : cpu' = cpu
    · subst hc
      by_cases hi : i' = i
      · subst hi
        simp [State.setEntry, State.getEventEntry]
      · simp [State.setEntry, State.getEventEntry, hi]
    · simp [State.setEntry, State.getEventEntry, hc]
  · simp [State.setEntry, State.getEventEntry]
  · simp [State.setEntry, State.getEventEntry]
  · by_cases hj : j' = j
    · subst hj
      simp [State.setEntry, State.getEventEntry]
    · simp [State.setEntry, State.getEventEntry, hj]

theorem registeredEntries_setEntry_of_ne (h : m' ≠ m) :
    (s.setEntry cpu m e).registeredEntries m' = s.registeredEntries m' := by
  rcases m with i | j <;> rcases m' with i' | j'
  · have hi : i' ≠ i := fun hi => h (hi ▸ rfl)
    have : ∀ c, (s.setEntry cpu (.inl i) e).priv c i' = s.priv c i' := by
      intro c
      by_cases hc : c = cpu
      · subst hc
        simp [State.setEntry, hi]
      · simp [State.setEntry, hc]
    simp only [State.registeredEntries, this]
  · rfl
  · rfl
  · have hj : j' ≠ j := fun hj => h (hj ▸ rfl)
    simp [State.registeredEntries, State.setEntry, hj]

theorem registeredEntries_setEntry_self : ((s.setEntry cpu m e).registeredEntries m : Int) =
      s.registeredEntries m + e.state.registered.toInt - (s.getEventEntry cpu m).state.registered.toInt := by
  rcases m with i | j
  · simp only [State.registeredEntries, card_filter, State.getEventEntry]
    rw [← add_sum_erase _ _ (mem_univ cpu),
      ← add_sum_erase _ (fun c => if (s.priv c i).state.registered = true then 1 else 0) (mem_univ cpu)]
    have hrest : ∑ c ∈ univ.erase cpu,
          (if ((s.setEntry cpu (.inl i) e).priv c i).state.registered = true then 1 else 0) =
        ∑ c ∈ univ.erase cpu, if (s.priv c i).state.registered = true then 1 else 0 := by
      refine sum_congr rfl fun c hc => ?_
      simp [State.setEntry, ne_of_mem_erase hc]
    rw [hrest]
    have hself : (s.setEntry cpu (.inl i) e).priv cpu i = e := by simp [State.setEntry]
    rw [hself]
    cases e.state.registered <;> cases (s.priv cpu i).state.registered <;> simp
    ring
  · have hself : (s.setEntry cpu (.inr j) e).shrd j = e := by simp [State.setEntry]
    simp only [State.registeredEntries, hself, State.getEventEntry]
    cases e.state.registered <;> cases (s.shrd j).state.registered <;> simp

theorem Exact.frame (h : Exact s) (hpriv : s'.priv = s.priv) (hshrd : s'.shrd = s.shrd)
    (hcount : ∀ m, (s'.map m).regCount = (s.map m).regCount) : Exact s' := by
  have hentry : ∀ cpu m, s'.getEventEntry cpu m = s.getEventEntry cpu m := by
    rintro cpu (i | j)
    · exact congrFun (congrFun hpriv cpu) i
    · exact congrFun hshrd j
  have hentries : ∀ m, s'.registeredEntries m = s.registeredEntries m := by
    rintro (i | j)
    · simp only [State.registeredEntries, hpriv]
    · simp only [State.registeredEntries, hshrd]
  exact ⟨fun m => by rw [hcount, hentries]; exact h.count m, fun cpu m => by rw [hentry]; exact h.enabled cpu m⟩

theorem Exact.setEntry (h : Exact s) (cpu : P.Cpu) (m : P.Map) (e : Entry) (he : e.state.enabled → e.state.registered)
    (hmap : ∀ m', m' ≠ m → (s'.map m').regCount = (s.map m').regCount)
    (hcount : (s'.map m).regCount =
      (s.map m).regCount + e.state.registered.toInt - (s.getEventEntry cpu m).state.registered.toInt)
    (hpriv : s'.priv = (s.setEntry cpu m e).priv) (hshrd : s'.shrd = (s.setEntry cpu m e).shrd) : Exact s' := by
  have hentry : ∀ cpu' m', s'.getEventEntry cpu' m' = (s.setEntry cpu m e).getEventEntry cpu' m' := by
    rintro cpu' (i | j)
    · exact congrFun (congrFun hpriv cpu') i
    · exact congrFun hshrd j
  have hentries : ∀ m', s'.registeredEntries m' = (s.setEntry cpu m e).registeredEntries m' := by
    rintro (i | j)
    · simp only [State.registeredEntries, hpriv]
    · simp only [State.registeredEntries, hshrd]
  refine ⟨fun m' => ?_, fun cpu' m' => ?_⟩
  · rw [hentries]
    by_cases hm : m' = m
    · subst hm
      rw [registeredEntries_setEntry_self, hcount, h.count]
    · rw [registeredEntries_setEntry_of_ne hm, hmap m' hm, h.count]
  · rw [hentry]
    rcases getEventEntry_setEntry_cases s cpu cpu' m m' e with h' | h'
    · rw [h']
      exact he
    · rw [h']
      exact h.enabled cpu' m'

theorem Exact.setEntryState (h : Exact s) {next : HandlerState} {act : Action}
    (ht : canSdeiStateTrans (s.getEventEntry cpu m).state act = some next) (hreg : act ≠ .register)
    (hunreg : act ≠ .unregister) : Exact (s.setEntryState cpu m next) := by
  have hkeep : ∀ m', ((s.setEntryState cpu m next).map m').regCount = (s.map m').regCount := by
    intro m'
    rw [State.setEntryState, map_setEntry]
  refine h.setEntry cpu m { s.getEventEntry cpu m with state := next }
    (enabled_of_trans ht (h.enabled cpu m)) (fun m' _ => hkeep m') ?_ rfl rfl
  rw [hkeep]
  simp [registered_of_trans ht hreg hunreg]

end Write

/-! ## The calls keep the counts exact -/

section Calls

theorem Exact.onIc (h : Exact s) (f : Ic P.Cpu → Ic P.Cpu) : Exact (s.onIc f) :=
  h.frame rfl rfl fun _ => rfl

theorem Exact.setMap (h : Exact s) {em : EvMap} (hcount : em.regCount = (s.map m).regCount) :
    Exact (s.setMap m em) := by
  refine h.frame rfl rfl fun m' => ?_
  by_cases hm : m' = m
  · subst hm
    simpa [State.setMap] using hcount
  · simp [State.setMap, hm]

theorem Exact.setEntry_addRegCount (h : Exact s) {e : Entry} {d : Int} (he : e.state.enabled → e.state.registered)
    (hd : d = e.state.registered.toInt - (s.getEventEntry cpu m).state.registered.toInt) :
    Exact ((s.setEntry cpu m e).addRegCount m d) := by
  refine h.setEntry cpu m e he (fun m' hm => ?_) ?_ rfl rfl
  · simp [State.addRegCount, State.setMap, map_setEntry, hm]
  · simp [State.addRegCount, State.setMap, map_setEntry, hd]
    ring

theorem closed_exact : Closed (Exact (P := P)) where
  trans h ht hreg hunreg := h.setEntryState ht hreg hunreg
  clear {s cpu m _} h ht := by
    obtain ⟨hold, hnew⟩ := registered_of_unregister ht
    refine h.setEntry_addRegCount (enabled_of_trans ht (h.enabled cpu m)) ?_
    rw [hold, hnew]
    rfl
  lines h _ := h.frame rfl rfl fun _ => rfl
  cpu h := h.frame rfl rfl fun _ => rfl

theorem Exact.registerMap (h : Exact s) (cpu : P.Cpu) (m : P.Map) (ep arg flags mpidr : BitVec 64) :
    Keeps Exact (s.registerMap cpu m ep arg flags mpidr) := by
  unfold State.registerMap
  split
  · exact keeps_some h _
  next state ht =>
    obtain ⟨hold, hnew⟩ := registered_of_register ht
    -- The interrupt controller apart, the two successful branches are one.
    have hpop : ∀ f : Ic P.Cpu → Ic P.Cpu, Exact ((s.onIc f).populate cpu m state ep arg flags mpidr) := by
      intro f
      refine (h.onIc f).setEntry_addRegCount (fun _ => hnew) ?_
      rw [getEventEntry_onIc, hold, hnew]
      rfl
    split
    · exact keeps_some h _
    split
    · exact keeps_none
    split
    · split
      · exact keeps_some h _
      split
      · exact keeps_some h _
      · exact keeps_some (hpop _) _
    · exact keeps_some (hpop id) _

theorem Exact.register (h : Exact s) (cpu : P.Cpu) (evNum : Int) (ep arg flags mpidr : BitVec 64) :
    Keeps Exact (sdeiEventRegister s cpu evNum ep arg flags mpidr) := by
  unfold sdeiEventRegister
  split
  · exact keeps_some h _
  split
  · exact keeps_some h _
  split
  · exact keeps_some h _
  · exact h.registerMap _ _ _ _ _ _

theorem Exact.routingSet (h : Exact s) (cpu : P.Cpu) (evNum : Int) (flags mpidr : BitVec 64) :
    Keeps Exact (sdeiEventRoutingSet s cpu evNum flags mpidr) := by
  unfold sdeiEventRoutingSet
  split
  · exact keeps_some h _
  split
  · exact keeps_some h _
  next m _ =>
    split
    · exact keeps_some h _
    split
    · exact keeps_some h _
    split
    · exact keeps_some h _
    next state ht =>
      have hreg := registered_of_trans ht (by decide) (by decide)
      refine keeps_some (Exact.onIc (h.setEntry cpu m
        { s.getEventEntry cpu m with regFlags := flags.setWidth 32, state := state }
        (enabled_of_trans ht (h.enabled cpu m)) (fun m' _ => ?_) ?_ rfl rfl) _) _
      · rw [map_setEntry]
      · rw [map_setEntry]
        simp [hreg]

theorem Exact.bindSlot (h : Exact s) (cpu : P.Cpu) (intr : Nat) : Keeps Exact (s.bindSlot cpu intr) := by
  unfold State.bindSlot
  split
  · exact keeps_some h _
  split
  · exact keeps_none
  split
  · exact keeps_some h _
  split
  · exact keeps_none
  · exact keeps_some (by exact h.setMap rfl) _

theorem Exact.bind (h : Exact s) (cpu : P.Cpu) (intr : Nat) : Keeps Exact (sdeiInterruptBind s cpu intr) := by
  unfold sdeiInterruptBind
  split
  · exact keeps_some h _
  split
  · split
    · exact keeps_some h _
    split
    · exact keeps_some h _
    · exact h.bindSlot _ _
  · exact h.bindSlot _ _

theorem Exact.release (h : Exact s) (cpu : P.Cpu) (evNum : Int) :
    Keeps Exact (sdeiInterruptRelease s cpu evNum) := by
  unfold sdeiInterruptRelease
  split
  · exact keeps_some h _
  split
  · exact keeps_some h _
  split
  · exact keeps_some h _
  split
  · exact keeps_some h _
  next ht =>
    have h' := h.setEntryState ht (by decide) (by decide)
    dsimp only
    split
    · split
      · exact keeps_some h' _
      · exact keeps_some (by exact h'.setMap rfl) _
    · exact keeps_some h' _

theorem Exact.releaseAll (h : Exact s) (cpu : P.Cpu) (maps : List P.Map) : Keeps Exact (releaseAll cpu maps s) := by
  refine keeps_foldlM maps (fun h finalRet m => ?_) 0 h
  dsimp only
  split
  · exact (h.release cpu (P.evNum m)).map fun ret => if ret ≠ 0 ∧ finalRet = 0 then ret else finalRet
  · exact keeps_some h _

theorem Exact.sharedReset (h : Exact s) (cpu : P.Cpu) : Keeps Exact (sdeiSharedReset s cpu) := by
  intro ret s' hs
  obtain ⟨⟨ret1, s1⟩, hun, hs⟩ := Option.bind_eq_some_iff.1 hs
  have h1 := closed_exact.unregisterAll h cpu _ _ _ hun
  dsimp only at hs
  split at hs
  · exact keeps_some h1 _ _ _ hs
  · exact h1.releaseAll _ _ _ _ hs

theorem Exact.cpuOnInit (h : Exact s) (hcpu : ∀ i, (s.priv cpu i).state.registered = false) :
    Exact (sdeiCpuOnInit s cpu) := by
  have hpriv : ∀ c i, ((sdeiCpuOnInit s cpu).priv c i).state.registered = (s.priv c i).state.registered := by
    intro c i
    by_cases hc : c = cpu
    · subst hc
      simp [sdeiCpuOnInit, sdeiPeMask, State.setCpu, HandlerState.none, hcpu]
    · simp [sdeiCpuOnInit, sdeiPeMask, State.setCpu, hc]
  refine ⟨?_, ?_⟩
  · rintro (i | j)
    · refine (h.count (.inl i)).trans ?_
      simp only [State.registeredEntries, hpriv]
    · exact h.count (.inr j)
  · rintro c (i | j)
    · by_cases hc : c = cpu
      · subst hc
        simp [State.getEventEntry, sdeiCpuOnInit, sdeiPeMask, State.setCpu, HandlerState.none]
      · have := h.enabled c (.inl i)
        simpa [State.getEventEntry, sdeiCpuOnInit, sdeiPeMask, State.setCpu, hc] using this
    · exact h.enabled c (.inr j)

end Calls

/-! ## Every run -/

/-- A CPU comes up only with nothing private registered on it. -/
def CpuOnOk (s : State P) : Event P → Prop
  | .cpuOn cpu => ∀ i, (s.priv cpu i).state.registered = false
  | _ => True

/-- Every step keeps the counts exact, if a CPU that comes up has nothing registered. -/
theorem Exact.step (h : Exact s) {e : Event P} (hok : CpuOnOk s e) (hs : Step s e s') : Exact s' := by
  obtain ⟨ret, hs⟩ := hs
  cases e with
  | register => exact h.register _ _ _ _ _ _ _ _ hs
  | enable => exact closed_exact.enable h _ _ _ _ hs
  | disable => exact closed_exact.disable h _ _ _ _ hs
  | unregister => exact closed_exact.unregister h _ _ _ _ hs
  | routingSet => exact h.routingSet _ _ _ _ _ _ hs
  | bind => exact h.bind _ _ _ _ hs
  | release => exact h.release _ _ _ _ hs
  | privateReset => exact closed_exact.unregisterAll h _ _ _ _ hs
  | sharedReset => exact h.sharedReset _ _ _ hs
  | peMask => exact keeps_some (closed_exact.peMask h _) _ _ _ hs
  | peUnmask => exact keeps_some (closed_exact.peUnmask h _) _ _ _ hs
  | interrupt => exact closed_exact.intrHandler h _ _ _ _ hs
  | dispatch => exact closed_exact.dispatchEvent h _ _ _ _ hs
  | complete => exact closed_exact.complete h _ _ _ _ _ hs
  | cpuOn => exact keeps_some (h.cpuOnInit hok) _ _ _ hs
  | hardware ic => exact keeps_some (h.onIc fun _ => ic) _ _ _ hs

theorem exact_sdeiInit (bootCpu : P.Cpu) (ic : Ic P.Cpu) : Exact (sdeiInit P bootCpu ic) := by
  refine Exact.cpuOnInit ⟨?_, ?_⟩ fun _ => rfl
  · rintro (i | j) <;> simp [State.registeredEntries, HandlerState.none]
  · rintro cpu (i | j) <;> simp [State.getEventEntry, HandlerState.none]

theorem Exact.releases (h : Exact s) {evNum : Int} (hm : findEventMap P evNum = some m)
    (hdyn : P.dynamic m = true) (hbound : (s.map m).bound = true) (hreg : s.registeredEntries m = 0)
    (hrun : (s.getEventEntry cpu m).state.running = false)
    (hactive : (s.ic.line cpu (s.map m).intr).active = false) :
    ∃ s', sdeiInterruptRelease s cpu evNum = some (0, s') := by
  have hcount : (s.map m).regCount = 0 := by simp [h.count, hreg]
  have hentry : (s.getEventEntry cpu m).state.registered = false := by
    rcases m with i | j
    · have := filter_eq_empty_iff.1 (card_eq_zero.1 hreg) (mem_univ cpu)
      simpa [State.getEventEntry] using this
    · simpa [State.registeredEntries, State.getEventEntry] using hreg
  have ht := release_of_idle (h.enabled cpu m) hentry hrun
  have hic : (s.setEntryState cpu m (s.getEventEntry cpu m).state).ic = s.ic := ic_setEntry ..
  rw [sdeiInterruptRelease, hm]
  dsimp only
  rw [if_neg (by simp [hdyn]), if_neg (by simp [hcount]), ht]
  dsimp only
  rw [State.setEntryState, map_setEntry, ← State.setEntryState, hic, if_pos hbound, if_neg (by simp [hactive])]
  exact ⟨_, rfl⟩

/-- In every run in which a CPU comes up only with nothing private registered on it, the counts are exact in
every state, and a dynamic event that is bound, that no CPU has registered and that is neither running nor
active is released. -/
theorem sdei_reg_count_exact (P : Platform) (bootCpu : P.Cpu) (ic : Ic P.Cpu) (s : State P)
    (h : Reaches Step CpuOnOk (sdeiInit P bootCpu ic) s) :
    (∀ m, (s.map m).regCount = s.registeredEntries m) ∧
    ∀ cpu evNum m, findEventMap P evNum = some m → P.dynamic m = true → (s.map m).bound = true →
      s.registeredEntries m = 0 → (s.getEventEntry cpu m).state.running = false →
      (s.ic.line cpu (s.map m).intr).active = false → ∃ s', sdeiInterruptRelease s cpu evNum = some (0, s') := by
  have hexact : Exact s := h.invariant (exact_sdeiInit bootCpu ic) fun hinv hok hs => hinv.step hok hs
  exact ⟨hexact.count, fun _ _ _ => hexact.releases⟩

def twoCpus : Platform where
  numCpus := 2
  numPriv := 2
  numShrd := 0
  evNum := Sum.elim (fun i => if i = 0 then 0 else 5) fun _ => 0
  intr := Sum.elim (fun i => if i = 0 then 8 else 0) fun _ => 0
  dynamic := Sum.elim (fun i => i = 1) fun _ => false
  critical := fun _ => false
  signalable := Sum.elim (fun i => i = 0) fun _ => false
  criticalPri := 0x60
  normalPri := 0x70
  mpidr := fun cpu => cpu.val
  corePosByMpidr := fun mpidr => if h : mpidr.toNat < 2 then some ⟨mpidr.toNat, h⟩ else none
  validEntryPoint := fun _ => true

def firstCpu : twoCpus.Cpu := (0 : Fin 2)

def secondCpu : twoCpus.Cpu := (1 : Fin 2)

def dynamicMap : twoCpus.Map := .inl (1 : Fin 2)

/-- A bound event is registered and unregistered, and then released. -/
theorem sdei_reg_count_released : ∃ s : State twoCpus,
    Reaches Step CpuOnOk (sdeiInit twoCpus firstCpu .reset) s ∧ (s.map dynamicMap).bound = true ∧
      (s.map dynamicMap).regCount = 0 ∧ ∃ s', sdeiInterruptRelease s secondCpu 5 = some (0, s') := by
  have step : ∀ {s s' : State twoCpus} (e : Event twoCpus), CpuOnOk s e → ∀ ret,
      Reaches Step CpuOnOk (sdeiInit twoCpus firstCpu .reset) s → e.run s = some (ret, s') →
      Reaches Step CpuOnOk (sdeiInit twoCpus firstCpu .reset) s' := fun _ hok ret h hs => h.step hok ⟨ret, hs⟩
  have h := step (.unregister secondCpu 5) trivial 0 (step (.register secondCpu 5 4 0 0 0) trivial 0
    (step (.bind secondCpu 20) trivial 5 .start rfl) rfl) rfl
  have hreg := (sdei_reg_count_exact twoCpus firstCpu _ _ h).2 secondCpu 5 dynamicMap rfl rfl rfl (by decide) rfl rfl
  exact ⟨_, h, rfl, (sdei_reg_count_exact twoCpus firstCpu _ _ h).1 _, hreg⟩

/-- A CPU registers a private event, is turned off and comes up again: the count stays at one, and the event
cannot be released. -/
theorem sdei_reg_count_cpu_on : ∃ s : State twoCpus,
    Reaches Step (fun _ _ => True) (sdeiInit twoCpus firstCpu .reset) s ∧
      (s.map dynamicMap).bound = true ∧ (s.map dynamicMap).regCount = 1 ∧ s.registeredEntries dynamicMap = 0 ∧
      (sdeiInterruptRelease s secondCpu 5).map Prod.fst = some sdeiEdeny := by
  have step : ∀ {s s' : State twoCpus} (e : Event twoCpus) (ret : Int),
      Reaches Step (fun _ _ => True) (sdeiInit twoCpus firstCpu .reset) s → e.run s = some (ret, s') →
      Reaches Step (fun _ _ => True) (sdeiInit twoCpus firstCpu .reset) s' :=
    fun _ ret h hs => h.step trivial ⟨ret, hs⟩
  have h := step (.cpuOn secondCpu) 0 (step (.register secondCpu 5 4 0 0 0) 0
    (step (.bind secondCpu 20) 5 .start rfl) rfl) rfl
  exact ⟨_, h, rfl, rfl, by decide, rfl⟩

end Armada3720.Sdei
