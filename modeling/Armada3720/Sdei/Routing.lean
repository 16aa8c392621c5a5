import Armada3720.Lib.Reaches
import Armada3720.Sdei.Effects

/-!
# The routing of a shared event

The routing of a shared event is kept by the interrupt controller, and by the entry as `reg_flags` and
`affinity`. `sdei_event_routing_set` programs a new target and writes `reg_flags`, but leaves `affinity`, so the
two agree afterwards only if the new target is the one of the registration.
-/

namespace Armada3720.Sdei

open Lib

variable {P : Platform} {s s' : State P} {cpu : P.Cpu} {evNum : Int} {j : Fin P.numShrd}

/-- The controller's routing of the interrupt of a shared event. -/
def State.routing (s : State P) (j : Fin P.numShrd) : RoutingMode × BitVec 64 :=
  s.ic.routing (s.map (.inr j)).intr

/-- The entry agrees with the controller: in the mode and, in PE mode, in the target. -/
structure Routed (s : State P) (j : Fin P.numShrd) : Prop where
  pe : (s.routing j).1 = .pe ↔ (s.shrd j).regFlags = sdeiRegfRmPe.setWidth 32
  any : (s.routing j).1 = .any ↔ (s.shrd j).regFlags = sdeiRegfRmAny.setWidth 32
  target : (s.routing j).1 = .pe → (s.shrd j).affinity = (s.routing j).2 &&& mpidrAffinityMask

/-- The event is bound, and its entry agrees with the controller while it is registered. -/
structure RoutedWhileRegistered (j : Fin P.numShrd) (s : State P) : Prop where
  bound : (s.map (.inr j)).bound = true
  routed : (s.shrd j).state.registered = true → Routed s j

/-! ## What keeps the agreement -/

theorem RoutedWhileRegistered.frame (h : RoutedWhileRegistered j s) (hic : s'.ic.routing = s.ic.routing)
    (hintr : (s'.map (.inr j)).intr = (s.map (.inr j)).intr)
    (hbound : (s'.map (.inr j)).bound = (s.map (.inr j)).bound)
    (hentry : (s'.shrd j).state.registered = true → (s.shrd j).state.registered = true ∧
      (s'.shrd j).regFlags = (s.shrd j).regFlags ∧ (s'.shrd j).affinity = (s.shrd j).affinity) :
    RoutedWhileRegistered j s' := by
  refine ⟨hbound.trans h.bound, fun hreg => ?_⟩
  obtain ⟨hreg', hflags, haffinity⟩ := hentry hreg
  have hrouting : s'.routing j = s.routing j := by rw [State.routing, State.routing, hic, hintr]
  have hr := h.routed hreg'
  exact ⟨by rw [hrouting, hflags]; exact hr.pe, by rw [hrouting, hflags]; exact hr.any,
    by rw [hrouting, haffinity]; exact hr.target⟩

theorem shrd_setEntry (s : State P) (cpu : P.Cpu) (m : P.Map) (e : Entry) (j : Fin P.numShrd) :
    (s.setEntry cpu m e).shrd j = if m = .inr j then e else s.shrd j := by
  rcases m with i | k
  · simp [State.setEntry]
  · by_cases hk : k = j
    · subst hk
      simp [State.setEntry]
    · have : j ≠ k := fun h => hk h.symm
      simp [State.setEntry, this, hk]

theorem closed_routedWhileRegistered (j : Fin P.numShrd) : Closed (RoutedWhileRegistered j) where
  trans {s cpu m _ next} h ht hreg hunreg := by
    have hsame := registered_of_trans ht hreg hunreg
    have hic : (s.setEntryState cpu m next).ic = s.ic := ic_setEntry ..
    have hmap : (s.setEntryState cpu m next).map = s.map := map_setEntry ..
    refine h.frame (by rw [hic]) (by rw [hmap]) (by rw [hmap]) ?_
    rw [State.setEntryState, shrd_setEntry]
    split
    next hm =>
      subst hm
      exact fun hnext => ⟨hsame.symm.trans hnext, rfl, rfl⟩
    next => exact fun hnext => ⟨hnext, rfl, rfl⟩
  clear {s cpu m next} h ht := by
    have hic : (s.clear cpu m next).ic = s.ic := ic_setEntry ..
    have hmap : ∀ m', ((s.clear cpu m next).map m').intr = (s.map m').intr ∧
        ((s.clear cpu m next).map m').bound = (s.map m').bound := by
      intro m'
      rw [State.clear, State.addRegCount, State.setMap, map_setEntry]
      by_cases hm : m' = m
      · subst hm
        simp
      · simp [hm]
    refine h.frame (by rw [hic]) (hmap _).1 (hmap _).2 ?_
    show ((s.setEntry cpu m ⟨0, 0, 0, 0, next⟩).shrd j).state.registered = true → _
    rw [shrd_setEntry]
    split
    next =>
      intro hnext
      rw [(registered_of_unregister ht).2] at hnext
      cases hnext
    next hm =>
      intro hreg
      have : (s.clear cpu m next).shrd j = s.shrd j := by
        rw [State.clear, State.addRegCount, State.setMap, shrd_setEntry, if_neg hm]
      exact ⟨hreg, by rw [this], by rw [this]⟩
  lines h hic := h.frame hic rfl rfl fun hreg => ⟨hreg, rfl, rfl⟩
  cpu h := h.frame rfl rfl rfl fun hreg => ⟨hreg, rfl, rfl⟩

variable {flags mpidr : BitVec 64}

theorem flags_of_validateFlags (h : validateFlags P flags mpidr = 0) :
    flags = sdeiRegfRmPe ∨ flags = sdeiRegfRmAny := by
  unfold validateFlags at h
  split at h
  next hpe => exact .inl hpe
  next =>
    split at h
    next hany => exact .inr hany
    next => simp [sdeiEinval] at h

theorem routed_of_written (mpidr : BitVec 64) (hflags : flags = sdeiRegfRmPe ∨ flags = sdeiRegfRmAny)
    (hrouting : s.routing j = (routingOf flags, mpidr))
    (hreg : (s.shrd j).regFlags = flags.setWidth 32)
    (haffinity : flags = sdeiRegfRmPe → (s.shrd j).affinity = mpidr &&& mpidrAffinityMask) :
    Routed s j := by
  rcases hflags with rfl | rfl
  · refine ⟨?_, ?_, fun _ => ?_⟩
    · rw [hrouting, hreg]
      dsimp only
      decide
    · rw [hrouting, hreg]
      dsimp only
      decide
    · rw [hrouting]
      exact haffinity rfl
  · refine ⟨?_, ?_, ?_⟩
    · rw [hrouting, hreg]
      dsimp only
      decide
    · rw [hrouting, hreg]
      dsimp only
      decide
    · rw [hrouting]
      dsimp only
      exact fun h => absurd h (by decide)

theorem programRegister_routing (cpu : P.Cpu) (j : Fin P.numShrd) (intr : Nat) (flags mpidr : BitVec 64)
    (ic : Ic P.Cpu) : (programRegister P cpu (.inr j) intr flags mpidr ic).routing intr = (routingOf flags, mpidr) := by
  simp [programRegister, isEventPrivate, Ic.setSpiRouting]

theorem RoutedWhileRegistered.registerMap (h : RoutedWhileRegistered j s) (cpu : P.Cpu)
    (ep arg : BitVec 64) (hflags : flags = sdeiRegfRmPe ∨ flags = sdeiRegfRmAny) :
    Keeps (RoutedWhileRegistered j) (s.registerMap cpu (.inr j) ep arg flags mpidr) := by
  unfold State.registerMap
  split
  · exact keeps_some h _
  next state _ =>
    split
    · exact keeps_some h _
    split
    · exact keeps_none
    split
    · split
      · exact keeps_some h _
      split
      · exact keeps_some h _
      · refine keeps_some ⟨?_, fun _ => ?_⟩ _
        · simpa [State.populate, State.addRegCount, State.setMap, State.setEntry, State.onIc] using h.bound
        · refine routed_of_written mpidr hflags ?_ ?_ fun _ => ?_
          · simpa [State.routing, State.populate, State.addRegCount, State.setMap, State.setEntry, State.onIc]
              using programRegister_routing cpu j _ flags mpidr s.ic
          · simp [State.populate, State.addRegCount, State.setMap, State.setEntry]
          · simp [State.populate, State.addRegCount, State.setMap, State.setEntry]
    next hbound => exact absurd h.bound hbound

theorem RoutedWhileRegistered.register (h : RoutedWhileRegistered j s) (hev : findEventMap P evNum = some (.inr j))
    (cpu : P.Cpu) (ep arg flags mpidr : BitVec 64) :
    Keeps (RoutedWhileRegistered j) (sdeiEventRegister s cpu evNum ep arg flags mpidr) := by
  unfold sdeiEventRegister
  split
  · exact keeps_some h _
  split
  · exact keeps_some h _
  next hvalid =>
    rw [hev]
    exact h.registerMap cpu ep arg (flags_of_validateFlags (not_not.1 hvalid))

/-- A new routing is taken over if its target is the one of the registration. -/
theorem RoutedWhileRegistered.routingSet (h : RoutedWhileRegistered j s)
    (hev : findEventMap P evNum = some (.inr j)) (cpu : P.Cpu)
    (htarget : flags = sdeiRegfRmPe → (P.corePosByMpidr mpidr).isSome →
      (canSdeiStateTrans (s.shrd j).state .routing).isSome → mpidr &&& mpidrAffinityMask = (s.shrd j).affinity) :
    Keeps (RoutedWhileRegistered j) (sdeiEventRoutingSet s cpu evNum flags mpidr) := by
  unfold sdeiEventRoutingSet
  split
  · exact keeps_some h _
  next hvalid =>
    have hvalid : validateFlags P flags mpidr = 0 := not_not.1 hvalid
    rw [hev]
    dsimp only
    rw [if_neg (by simp [isEventPrivate]), if_neg (by simp [h.bound])]
    split
    · exact keeps_some h _
    next state ht =>
      refine keeps_some ⟨?_, fun _ => ?_⟩ _
      · simpa [State.onIc, State.setEntry] using h.bound
      · refine routed_of_written mpidr (flags_of_validateFlags hvalid) ?_ ?_ fun hpe => ?_
        · simp [State.routing, State.onIc, State.setEntry, Ic.setSpiRouting]
        · simp [State.onIc, State.setEntry]
        · have hcore : (P.corePosByMpidr mpidr).isSome := by
            by_contra hnone
            simp [validateFlags, hpe, hnone, sdeiEinval] at hvalid
          have := htarget hpe hcore (Option.isSome_of_eq_some ht)
          simpa [State.onIc, State.setEntry, State.getEventEntry] using this.symm

/-! ## Every run -/

/-- A step that registers an event or sets its routing is for this one, no interrupt is bound or released, and
the controller is not reprogrammed from elsewhere. -/
def OnEventOnly (evNum : Int) (s : State P) : Event P → Prop
  | .register _ n _ _ _ _ => n = evNum
  | .routingSet _ n _ _ => n = evNum
  | .bind .. => False
  | .release .. => False
  | .sharedReset _ => False
  | .hardware ic => ic.routing = s.ic.routing
  | _ => True

/-- A routing that is set in PE mode names the target of the registration. -/
def RoutingOk (j : Fin P.numShrd) (s : State P) : Event P → Prop
  | .routingSet _ _ flags mpidr => flags = sdeiRegfRmPe → (P.corePosByMpidr mpidr).isSome →
      (canSdeiStateTrans (s.shrd j).state .routing).isSome → mpidr &&& mpidrAffinityMask = (s.shrd j).affinity
  | _ => True

/-- Every step keeps the two records of the routing equal while the event is registered. -/
theorem RoutedWhileRegistered.step (h : RoutedWhileRegistered j s) (hev : findEventMap P evNum = some (.inr j))
    {e : Event P} (honly : OnEventOnly evNum s e) (hok : RoutingOk j s e) (hs : Step s e s') :
    RoutedWhileRegistered j s' := by
  obtain ⟨ret, hs⟩ := hs
  have hclosed := closed_routedWhileRegistered j
  cases e with
  | register cpu n =>
    obtain rfl : n = evNum := honly
    exact h.register hev _ _ _ _ _ _ _ hs
  | enable => exact hclosed.enable h _ _ _ _ hs
  | disable => exact hclosed.disable h _ _ _ _ hs
  | unregister => exact hclosed.unregister h _ _ _ _ hs
  | routingSet cpu n =>
    obtain rfl : n = evNum := honly
    exact h.routingSet hev _ hok _ _ hs
  | bind => exact honly.elim
  | release => exact honly.elim
  | privateReset => exact hclosed.unregisterAll h _ _ _ _ hs
  | sharedReset => exact honly.elim
  | peMask => exact keeps_some (hclosed.peMask h _) _ _ _ hs
  | peUnmask => exact keeps_some (hclosed.peUnmask h _) _ _ _ hs
  | interrupt => exact hclosed.intrHandler h _ _ _ _ hs
  | dispatch => exact hclosed.dispatchEvent h _ _ _ _ hs
  | complete => exact hclosed.complete h _ _ _ _ _ hs
  | cpuOn =>
    cases hs
    exact h.frame rfl rfl rfl fun hreg => ⟨hreg, rfl, rfl⟩
  | hardware ic => exact keeps_some (hclosed.lines h honly) _ _ _ hs

/-! ## What the agreement is for -/

/-- The CPU that the controller sends the interrupt to, in PE mode. -/
def State.Targets (s : State P) (j : Fin P.numShrd) (cpu : P.Cpu) : Prop :=
  (s.routing j).2 &&& mpidrAffinityMask = P.myMpidr cpu

theorem Routed.affinityOk (h : Routed s j) (hcpu : (s.routing j).1 = .pe → s.Targets j cpu) :
    s.affinityOk cpu (.inr j) = true := by
  by_cases hpe : (s.routing j).1 = .pe
  · have := (h.target hpe).trans (hcpu hpe)
    simp [State.affinityOk, State.getEventEntry, this]
  · have : (s.shrd j).regFlags ≠ sdeiRegfRmPe.setWidth 32 := fun hflags => hpe (h.pe.2 hflags)
    simp [State.affinityOk, State.getEventEntry, this]

theorem foldl_enables (s : State P) (cpu : P.Cpu) {m : P.Map} (hm : s.unmaskEnables cpu m = true)
    (maps : List P.Map) (ic : Ic P.Cpu)
    (h : m ∈ maps ∨ (ic.line cpu (s.map m).intr).enabled = true) :
    ((maps.foldl (fun ic m => if s.unmaskEnables cpu m then ic.enableInterrupt cpu (s.map m).intr else ic) ic).line
      cpu (s.map m).intr).enabled = true := by
  induction maps generalizing ic with
  | nil => exact h.resolve_left List.not_mem_nil
  | cons m' maps ih =>
    refine ih _ ?_
    rcases h with hmem | hline
    · rcases List.mem_cons.1 hmem with rfl | hmem
      · right
        simp [hm, Ic.enableInterrupt, Ic.update]
      · exact .inl hmem
    · right
      dsimp only
      split
      · simp only [Ic.enableInterrupt, Ic.update]
        split
        · rfl
        · exact hline
      · exact hline

theorem Routed.unmask (h : Routed s j) (hbound : (s.map (.inr j)).bound = true) (hpe : (s.routing j).1 = .pe)
    (hcpu : s.Targets j cpu) (hpending : (s.cpu cpu).pendingEnables = true)
    (henabled : (s.shrd j).state.enabled = true) :
    ((sdeiPeUnmask s cpu).ic.line cpu (s.map (.inr j)).intr).enabled = true := by
  have hmem : (.inr j : P.Map) ∈ P.maps := by simp [Platform.maps, Platform.mapping]
  have hm : s.unmaskEnables cpu (.inr j) = true := by
    simp [State.unmaskEnables, State.getEventEntry, hbound, henabled, h.pe.1 hpe, h.target hpe, hcpu.symm]
  have := foldl_enables s cpu hm P.maps s.ic (.inl hmem)
  simpa [sdeiPeUnmask, hpending] using this

theorem Routed.routingAff (h : Routed s j) (hev : findEventMap P evNum = some (.inr j))
    (hreg : (s.shrd j).state.registered = true) (hpe : (s.routing j).1 = .pe) (hcpu : s.Targets j cpu)
    (caller : P.Cpu) : sdeiEventGetInfo s caller evNum .routingAff = (P.myMpidr cpu).toNat := by
  have htarget : (s.shrd j).affinity = P.myMpidr cpu := (h.target hpe).trans hcpu
  simp [sdeiEventGetInfo, hev, isEventPrivate, State.getEventEntry, hreg, h.pe.1 hpe, htarget]

/-- In every run of calls on a bound shared event, in which a routing set in PE mode names the target of the
registration: while the event is registered, the entry agrees with the interrupt controller. The assertions on
the affinity then hold where the interrupt arrives, and on the CPU it is routed to `sdei_pe_unmask` enables it
again and `SDEI_INFO_EV_ROUTING_AFF` reports that CPU. -/
theorem sdei_routing_agrees (s₀ s : State P) (evNum : Int) (j : Fin P.numShrd)
    (hev : findEventMap P evNum = some (.inr j)) (hbound : (s₀.map (.inr j)).bound = true)
    (hstart : (s₀.shrd j).state.registered = false)
    (h : Reaches Step (fun s e => OnEventOnly evNum s e ∧ RoutingOk j s e) s₀ s)
    (hreg : (s.shrd j).state.registered = true) :
    Routed s j ∧
    ∀ cpu, ((s.routing j).1 = .pe → s.Targets j cpu) →
      s.affinityOk cpu (.inr j) = true ∧
      ((s.routing j).1 = .pe → (s.cpu cpu).pendingEnables = true → (s.shrd j).state.enabled = true →
        ((sdeiPeUnmask s cpu).ic.line cpu (s.map (.inr j)).intr).enabled = true) ∧
      ((s.routing j).1 = .pe → ∀ caller, sdeiEventGetInfo s caller evNum .routingAff = (P.myMpidr cpu).toNat) := by
  have hinv : RoutedWhileRegistered j s := by
    refine h.invariant ⟨hbound, fun hreg => ?_⟩ fun hinv hok hs => hinv.step hev hok.1 hok.2 hs
    rw [hstart] at hreg
    cases hreg
  have hrouted := hinv.routed hreg
  refine ⟨hrouted, fun cpu hcpu => ⟨hrouted.affinityOk hcpu, fun hpe hpending henabled => ?_, fun hpe => ?_⟩⟩
  · exact hrouted.unmask hinv.bound hpe (hcpu hpe) hpending henabled
  · exact hrouted.routingAff hev hreg hpe (hcpu hpe)

def oneShared : Platform where
  numCpus := 2
  numPriv := 1
  numShrd := 1
  evNum := Sum.elim (fun _ => 0) fun _ => 7
  intr := Sum.elim (fun _ => 8) fun _ => 40
  dynamic := fun _ => false
  critical := fun _ => false
  signalable := Sum.elim (fun _ => true) fun _ => false
  criticalPri := 0x60
  normalPri := 0x70
  mpidr := fun cpu => cpu.val
  corePosByMpidr := fun mpidr => if h : mpidr.toNat < 2 then some ⟨mpidr.toNat, h⟩ else none
  validEntryPoint := fun _ => true

def sharedCpu (i : Fin 2) : oneShared.Cpu := i

def sharedMap : Fin oneShared.numShrd := (0 : Fin 1)

def sharedBoot : State oneShared := sdeiInit oneShared (sharedCpu ⟨0, Nat.two_pos⟩) .reset

/-- The event is registered with CPU 1 as its target, which is then reported. -/
theorem sdei_routing_agrees_registered : ∃ s : State oneShared,
    Reaches Step (fun s e => OnEventOnly 7 s e ∧ RoutingOk sharedMap s e) sharedBoot s ∧
      s.routing sharedMap = (.pe, 1) ∧ sdeiEventGetInfo s (sharedCpu 0) 7 .routingAff = 1 := by
  have h : Reaches Step (fun s e => OnEventOnly 7 s e ∧ RoutingOk sharedMap s e) sharedBoot _ :=
    Reaches.start.step (a := .register (sharedCpu 0) 7 4 0 1 1) ⟨rfl, trivial⟩ ⟨0, rfl⟩
  have hagrees := sdei_routing_agrees sharedBoot _ 7 sharedMap rfl rfl rfl h rfl
  exact ⟨_, h, rfl, (hagrees.2 (sharedCpu 1) fun _ => rfl).2.2 rfl (sharedCpu 0)⟩

/-- The event is registered for CPU 0 and then routed to CPU 1: CPU 0 is reported, and the interrupt fails the
assertion when it arrives on CPU 1. -/
theorem sdei_routing_stale : ∃ s : State oneShared,
    Reaches Step (OnEventOnly 7) sharedBoot s ∧ (s.shrd sharedMap).state.registered = true ∧
      s.routing sharedMap = (.pe, 1) ∧ s.Targets sharedMap (sharedCpu 1) ∧ ¬ Routed s sharedMap ∧
      sdeiEventGetInfo s (sharedCpu 0) 7 .routingAff = 0 ∧ sdeiIntrHandler s (sharedCpu 1) 40 = none := by
  have step : ∀ {s s' : State oneShared} (e : Event oneShared), OnEventOnly 7 s e →
      Reaches Step (OnEventOnly 7) sharedBoot s → e.run s = some (0, s') →
      Reaches Step (OnEventOnly 7) sharedBoot s' := fun _ hok h hs => h.step hok ⟨0, hs⟩
  have h := step (.enable (sharedCpu 0) 7) trivial (step (.routingSet (sharedCpu 0) 7 1 1) rfl
    (step (.register (sharedCpu 0) 7 4 0 1 0) rfl .start rfl) rfl) rfl
  refine ⟨_, h, rfl, rfl, rfl, fun hrouted => ?_, rfl, rfl⟩
  exact absurd (hrouted.target rfl) (by decide)

end Armada3720.Sdei
