import Armada3720.Psci.Coordination

/-!
# Power domains stay up for running CPUs

The entry points of the PSCI library as steps. Two sections that overlap in time hold the locks of different
nodes, so that any execution is an interleaving of whole sections. Each CPU has a depth: it asks to leave RUN at
exactly the levels up to its depth, and a domain is out of RUN when every CPU below it is at least as deep as
the domain's level.

`domains_of_running_cpus_run` needs no condition on the calls. A domain is taken to be as its recorded state says: the
power controller of the platform is left out.
-/

namespace Armada3720.Psci

open Function

/-! ## The system -/

/-- Where a CPU is between its sections. -/
inductive CpuPhase where
  /-- Outside the library. -/
  | running
  /-- In the `cpu_standby` hook. -/
  | cpuStandby
  /-- Past the locked part of `psci_do_cpu_off`. -/
  | turningOff
  /-- Powered off, or not yet turned on. -/
  | off
  /-- In the `wfi` of `psci_cpu_suspend_start`, with its `end_pwrlvl`. -/
  | standby (endPwrlvl : Nat)
  /-- Suspended to a power down state. -/
  | pwrDown
deriving DecidableEq, Repr

/-- The library's data and the place of every CPU. -/
structure System where
  psci : PsciState
  phase : Nat → CpuPhase

/-- `psci_setup` on the boot CPU; the other CPUs are off. -/
def psciSetup (cfg : PlatConfig) (topology : List UInt8) (bootCpu : Nat) : Option System :=
  (psciSetupTree cfg topology).map fun s =>
    { psci := psciSetPwrDomainsToRun bootCpu cfg.platMaxPwrLvl (psciInitReqLocalPwrStates cfg s)
      phase := Function.update (fun _ => .off) bootCpu .running }

def getPowerOnTargetPwrlvl (cfg : PlatConfig) (s : PsciState) (c : Nat) : Nat :=
  if (s.cpuData c).targetPwrlvl = cfg.psciInvalidPwrLvl then cfg.platMaxPwrLvl
  else (s.cpuData c).targetPwrlvl

/-- The locked part of `psci_do_cpu_off`; the secure payload may refuse. -/
def psciDoCpuOff (cfg : PlatConfig) (c : Nat) (svcOffDenied : Bool) (sys : System) :
    Option System :=
  if sys.phase c = .running then
    if svcOffDenied then some sys
    else
      some { psci := psciDoStateCoordination cfg c cfg.platMaxPwrLvl
               (fun _ => cfg.platMaxOffState) sys.psci
             phase := Function.update sys.phase c .turningOff }
  else none

/-- The end of `psci_do_cpu_off`, after the locks are released. -/
def psciCpuOffDone (c : Nat) (sys : System) : Option System :=
  if sys.phase c = .turningOff then
    some { psci := psciSetAffInfoState c .off sys.psci
           phase := Function.update sys.phase c .off }
  else none

/-- `psci_cpu_suspend_start` up to its `wfi`. -/
def psciCpuSuspendStart (cfg : PlatConfig) (c endPwrlvl : Nat) (stateInfo : PsciPowerState)
    (isPowerDownState pendingInterrupt : Bool) (sys : System) : System :=
  if pendingInterrupt then sys
  else
    let s := psciDoStateCoordination cfg c endPwrlvl stateInfo sys.psci
    if isPowerDownState then
      { psci := psciSetSuspendPwrlvl c endPwrlvl s
        phase := Function.update sys.phase c .pwrDown }
    else
      { psci := s
        phase := Function.update sys.phase c (.standby endPwrlvl) }

/-- The assertion on `psci_validate_suspend_req` is the guard. -/
def psciCpuSuspend (cfg : PlatConfig) (c : Nat) (stateInfo : PsciPowerState)
    (isPowerDownState pendingInterrupt : Bool) (sys : System) : Option System :=
  if sys.phase c = .running then
    if psciValidateSuspendReq cfg stateInfo isPowerDownState then
      let targetPwrlvl := psciFindTargetSuspendLvl cfg stateInfo
      if !isPowerDownState && targetPwrlvl == 0 then
        some { psci := psciSetCpuLocalState c (stateInfo 0) sys.psci
               phase := Function.update sys.phase c .cpuStandby }
      else
        some (psciCpuSuspendStart cfg c targetPwrlvl stateInfo isPowerDownState
          pendingInterrupt sys)
    else none
  else none

/-- The return from the `cpu_standby` hook in `psci_cpu_suspend`. -/
def psciCpuStandbyExit (c : Nat) (sys : System) : Option System :=
  if sys.phase c = .cpuStandby then
    some { psci := psciSetCpuLocalState c psciLocalStateRun sys.psci
           phase := Function.update sys.phase c .running }
  else none

def psciSuspendToStandbyFinisher (c : Nat) (sys : System) : Option System :=
  match sys.phase c with
  | .standby endPwrlvl =>
    some { psci := psciSetPwrDomainsToRun c endPwrlvl sys.psci
           phase := Function.update sys.phase c .running }
  | _ => none

/-- Called on `c`. When the platform fails the affinity state is put back under the same lock. -/
def psciCpuOnStart (c target : Nat) (pwrDomainOnFails : Bool) (sys : System) : Option System :=
  if sys.phase c = .running then
    if (sys.psci.cpuData target).affInfoState = .off ∧ pwrDomainOnFails = false then
      some { sys with psci := psciSetAffInfoState target .onPending sys.psci }
    else some sys
  else none

/-- `psci_warmboot_entrypoint`: it panics on a CPU nobody turned on. -/
def psciWarmbootEntrypoint (cfg : PlatConfig) (c : Nat) (sys : System) : Option System :=
  if sys.phase c = .off ∨ sys.phase c = .pwrDown then
    if (sys.psci.cpuData c).affInfoState = .off then none
    else
      let endPwrlvl := getPowerOnTargetPwrlvl cfg sys.psci c
      let s :=
        -- `psci_cpu_on_finish` or `psci_cpu_suspend_finish`
        if (sys.psci.cpuData c).affInfoState = .onPending then sys.psci
        else psciSetSuspendPwrlvl c cfg.psciInvalidPwrLvl sys.psci
      some { psci := psciSetPwrDomainsToRun c endPwrlvl s
             phase := Function.update sys.phase c .running }
  else none

inductive Section where
  | cpuOff (svcOffDenied : Bool)
  | cpuOffDone
  | cpuSuspend (stateInfo : PsciPowerState) (isPowerDownState pendingInterrupt : Bool)
  | standbyExit
  | standbyFinisher
  | cpuOn (target : Nat) (pwrDomainOnFails : Bool)
  | warmboot

/-- One section on CPU `c`; `none` when the CPU is not at its start, or it stops the CPU. -/
def step (cfg : PlatConfig) (c : Nat) (sec : Section) (sys : System) : Option System :=
  if c < cfg.platformCoreCount then
    match sec with
    | .cpuOff denied => psciDoCpuOff cfg c denied sys
    | .cpuOffDone => psciCpuOffDone c sys
    | .cpuSuspend stateInfo isPowerDownState pendingInterrupt =>
      psciCpuSuspend cfg c stateInfo isPowerDownState pendingInterrupt sys
    | .standbyExit => psciCpuStandbyExit c sys
    | .standbyFinisher => psciSuspendToStandbyFinisher c sys
    | .cpuOn target fails =>
      if target < cfg.platformCoreCount then psciCpuOnStart c target fails sys else none
    | .warmboot => psciWarmbootEntrypoint cfg c sys
  else none

def run (cfg : PlatConfig) : List (Nat × Section) → System → Option System
  | [], sys => some sys
  | (c, sec) :: rest, sys => (step cfg c sec sys).bind (run cfg rest)

/-! ## Depths -/

/-- Domains without CPUs never run. -/
structure Depths (cfg : PlatConfig) (s : PsciState) (d : Nat → Nat) : Prop where
  topo : Topology cfg s
  req : ∀ {c l}, c < cfg.platformCoreCount → 1 ≤ l → l ≤ cfg.platMaxPwrLvl →
    (s.reqLocalPwrStates (l - 1) c ≠ psciLocalStateRun ↔ l ≤ d c)
  node : ∀ {c l}, c < cfg.platformCoreCount → 1 ≤ l → l ≤ cfg.platMaxPwrLvl →
    ((s.nonCpuPdNodes (s.anc l c)).localState ≠ psciLocalStateRun ↔
      ∀ c', c' < cfg.platformCoreCount → s.anc l c' = s.anc l c → l ≤ d c')
  idle : ∀ {x}, (s.nonCpuPdNodes x).level ≠ 0 →
    (s.nonCpuPdNodes x).localState = psciLocalStateRun →
      ∃ l c, 1 ≤ l ∧ l ≤ cfg.platMaxPwrLvl ∧ c < cfg.platformCoreCount ∧ s.anc l c = x

section Depths

variable {cfg : PlatConfig} {s s' : PsciState} {d : Nat → Nat} {c e : Nat}

theorem anc_eq_of_le {c c' l l' : Nat} (hll : l ≤ l') (h : s.anc l c' = s.anc l c) :
    s.anc l' c' = s.anc l' c := by
  induction l', hll using Nat.le_induction with
  | base => exact h
  | succ l' _ ih => rw [PsciState.anc, PsciState.anc, ih]

/-- The nodes above `c` up to level `e` are the only ones of their levels. -/
theorem Topology.anc_cases (ht : Topology cfg s) (hc : c < cfg.platformCoreCount)
    (he : e ≤ cfg.platMaxPwrLvl) {c' l : Nat} (hc' : c' < cfg.platformCoreCount) (h1 : 1 ≤ l)
    (hl : l ≤ cfg.platMaxPwrLvl) (hne : s.anc l c' = s.anc l c → e < l) :
    ∀ l', 1 ≤ l' → l' ≤ e → s.anc l' c ≠ s.anc l c' := by
  intro l' h1' hl' h
  have hlev := ht.level h1' (hl'.trans he) hc
  rw [h, ht.level h1 hl hc'] at hlev
  subst hlev
  omega

section

variable (h : Depths cfg s d) (hc : c < cfg.platformCoreCount) (he : e ≤ cfg.platMaxPwrLvl)
include h hc he

/-- Up to level `e` the requests of `c` are those of `f` and its depth has become `k`; above it needs its domains before
and after. -/
theorem Depths.moved {f : PsciPowerState} {k : Nat} (htree : SameTree s s')
    (hrecord : s'.reqLocalPwrStates = recordReqs c f 1 e s.reqLocalPwrStates)
    (hother : ∀ x, (∀ l, 1 ≤ l → l ≤ e → s.anc l c ≠ x) →
      (s'.nonCpuPdNodes x).localState = (s.nonCpuPdNodes x).localState)
    (hf : ∀ l, 1 ≤ l → l ≤ e → (f l ≠ psciLocalStateRun ↔ l ≤ k)) (hd : d c ≤ e) (hk : k ≤ e)
    (hnode : (∀ {c' l}, c' < cfg.platformCoreCount → 1 ≤ l → l ≤ cfg.platMaxPwrLvl →
        (s'.reqLocalPwrStates (l - 1) c' ≠ psciLocalStateRun ↔ l ≤ update d c k c')) →
      ∀ l, 1 ≤ l → l ≤ e → ((s'.nonCpuPdNodes (s.anc l c)).localState ≠ psciLocalStateRun ↔
        ∀ c', c' < cfg.platformCoreCount → s.anc l c' = s.anc l c → l ≤ update d c k c')) :
    Depths cfg s' (update d c k) := by
  have hreq : ∀ {c' l}, c' < cfg.platformCoreCount → 1 ≤ l → l ≤ cfg.platMaxPwrLvl →
      (s'.reqLocalPwrStates (l - 1) c' ≠ psciLocalStateRun ↔ l ≤ update d c k c') := by
    intro c' l hc' h1 hl
    rw [hrecord, recordReqs, Nat.sub_add_cancel h1]
    by_cases hcc : c' = c
    · subst hcc
      rw [update_self]
      by_cases hle : l ≤ e
      · rw [if_pos ⟨rfl, h1, by omega⟩]
        exact hf l h1 hle
      · rw [if_neg (by omega), h.req hc' h1 hl]
        omega
    · rw [if_neg (fun hh => hcc hh.1), update_of_ne hcc]
      exact h.req hc' h1 hl
  refine ⟨htree.topology h.topo, hreq, ?_, ?_⟩
  · intro c' l hc' h1 hl
    simp only [htree.anc]
    by_cases hcc : s.anc l c' = s.anc l c
    · rw [hcc]
      by_cases hle : l ≤ e
      · exact hnode hreq l h1 hle
      · rw [hother _ (h.topo.anc_cases hc he hc h1 hl (fun _ => by omega)), h.node hc h1 hl]
        refine iff_of_false (fun hall => ?_) (fun hall => ?_)
        · have := hall c hc rfl
          omega
        · have := hall c hc rfl
          rw [update_self] at this
          omega
    · rw [hother _ (h.topo.anc_cases hc he hc' h1 hl (fun hh => absurd hh hcc)), h.node hc' h1 hl]
      refine forall_congr' fun c'' => forall_congr' fun _ => forall_congr' fun hanc => ?_
      rw [update_of_ne fun hh => hcc (by rw [← hanc, hh])]
  · intro x hx hrun
    simp only [htree.anc]
    by_cases hanc : ∃ l, 1 ≤ l ∧ l ≤ e ∧ s.anc l c = x
    · obtain ⟨l, h1, hl, hlx⟩ := hanc
      exact ⟨l, c, h1, hl.trans he, hc, hlx⟩
    · rw [htree.level] at hx
      rw [hother x fun l h1 hl hlx => hanc ⟨l, h1, hl, hlx⟩] at hrun
      exact h.idle hx hrun

theorem Depths.wentDown {f : PsciPowerState} (hd : d c = 0)
    (hf : ∀ l, 1 ≤ l → l ≤ e → f l ≠ psciLocalStateRun) (hw : WentDown cfg c e f s s') :
    Depths cfg s' (update d c e) := by
  refine h.moved hc he hw.tree hw.req hw.other (fun l h1 hl => iff_of_true (hf l h1 hl) hl) (by omega) le_rfl
    fun hreq l h1 hle => ?_
  rw [hw.node l h1 hle]
  constructor
  · intro hall c' hc' hanc
    exact (hreq hc' h1 (hle.trans he)).mp (hall l h1 (le_refl l) c' hc' hanc)
  · -- CPUs below a lower ancestor are below this one too, and so as deep
    intro hall l' h1' hl' c' hc' hanc
    refine (hreq hc' h1' (by omega)).mpr ?_
    exact hl'.trans (hall c' hc' (anc_eq_of_le hl' hanc))

theorem Depths.cameUp (hd : d c ≤ e) (hw : CameUp c e s s') : Depths cfg s' (update d c 0) := by
  refine h.moved hc he hw.tree hw.req hw.other (fun l h1 _ => iff_of_false (fun hh => hh rfl) (by omega)) hd
    (Nat.zero_le e) fun _ l h1 hle => iff_of_false (fun hne => hne (hw.node l h1 hle)) fun hall => ?_
  have := hall c hc rfl
  rw [update_self] at this
  omega

end

theorem Depths.of_cpuData (h : Depths cfg s d) (data : Nat → PsciCpuData) :
    Depths cfg { s with cpuData := data } d := by
  have htree : SameTree s { s with cpuData := data } := SameTree.of_eq rfl rfl
  refine ⟨htree.topology h.topo, h.req, ?_, ?_⟩
  · simp only [htree.anc]
    exact h.node
  · simp only [htree.anc]
    exact h.idle

theorem Depths.of_setup (ht : Topology cfg s) (hoff : s.NodesOff cfg) :
    Depths cfg (psciInitReqLocalPwrStates cfg s) (fun _ => cfg.platMaxPwrLvl) := by
  have htree : SameTree s (psciInitReqLocalPwrStates cfg s) := SameTree.of_eq rfl rfl
  refine ⟨htree.topology ht, ?_, ?_, ?_⟩
  · intro c l _ _ hl
    exact iff_of_true cfg.off_ne_run hl
  · intro c l hc h1 hl
    refine iff_of_true ?_ (fun _ _ _ => hl)
    rw [htree.anc]
    have hlev := ht.level h1 hl hc
    exact fun hrun => cfg.off_ne_run ((hoff _ (by omega)).symm.trans hrun)
  · intro x hx hrun
    exact absurd ((hoff x hx).symm.trans hrun) cfg.off_ne_run

end Depths

/-! ## The invariant -/

/-- The depth and the per-CPU data of a CPU, by the place it is at. -/
def PhaseOk (cfg : PlatConfig) (data : PsciCpuData) (depth : Nat) : CpuPhase → Prop
  | .running | .cpuStandby =>
    depth = 0 ∧ data.targetPwrlvl = cfg.psciInvalidPwrLvl ∧ data.affInfoState = .on
  | .turningOff =>
    depth = cfg.platMaxPwrLvl ∧ data.targetPwrlvl = cfg.psciInvalidPwrLvl ∧
      data.affInfoState = .on ∧ data.localState ≠ psciLocalStateRun
  | .off =>
    depth = cfg.platMaxPwrLvl ∧ data.targetPwrlvl = cfg.psciInvalidPwrLvl ∧
      data.localState ≠ psciLocalStateRun
  | .standby endPwrlvl =>
    depth = endPwrlvl ∧ endPwrlvl ≤ cfg.platMaxPwrLvl ∧
      data.targetPwrlvl = cfg.psciInvalidPwrLvl ∧ data.affInfoState = .on ∧
      data.localState ≠ psciLocalStateRun
  | .pwrDown =>
    depth = data.targetPwrlvl ∧ depth ≤ cfg.platMaxPwrLvl ∧ data.affInfoState = .on ∧
      data.localState ≠ psciLocalStateRun

structure Inv (cfg : PlatConfig) (sys : System) (d : Nat → Nat) : Prop where
  depths : Depths cfg sys.psci d
  phase : ∀ {c}, c < cfg.platformCoreCount →
    PhaseOk cfg (sys.psci.cpuData c) (d c) (sys.phase c)

section Steps

variable {cfg : PlatConfig} {sys sys' : System} {d : Nat → Nat} {c : Nat}

theorem PhaseOk.depth_eq_zero {data : PsciCpuData} {n : Nat} {phase : CpuPhase}
    (h : PhaseOk cfg data n phase) (hrun : data.localState = psciLocalStateRun) : n = 0 := by
  cases phase with
  | running => exact h.1
  | cpuStandby => exact h.1
  | turningOff => exact absurd hrun h.2.2.2
  | off => exact absurd hrun h.2.2
  | standby e => exact absurd hrun h.2.2.2.2
  | pwrDown => exact absurd hrun h.2.2.2

section

variable (h : Inv cfg sys d)
include h

theorem Inv.of_own {s' : PsciState} {data : PsciCpuData} {n : Nat} {phase : CpuPhase}
    (hdepths : Depths cfg s' (update d c n))
    (hdata : s'.cpuData = update sys.psci.cpuData c data)
    (hphase : PhaseOk cfg data n phase) :
    Inv cfg { psci := s', phase := update sys.phase c phase } (update d c n) := by
  refine ⟨hdepths, ?_⟩
  intro c' hc'
  rw [hdata]
  by_cases hcc : c' = c
  · subst hcc
    simpa using hphase
  · simp only [update_of_ne hcc]
    exact h.phase hc'

section

variable (hc : c < cfg.platformCoreCount)
include hc

theorem Inv.psciDoCpuOff {denied : Bool} (hs : psciDoCpuOff cfg c denied sys = some sys') :
    ∃ d', Inv cfg sys' d' := by
  unfold Psci.psciDoCpuOff at hs
  split at hs
  · next hphase =>
    obtain ⟨hd, htarget, haff⟩ := hphase ▸ h.phase hc
    split at hs
    · cases hs
      exact ⟨d, h⟩
    · cases hs
      have hw := psciDoStateCoordination_spec h.depths.topo hc (le_refl cfg.platMaxPwrLvl)
        (fun _ => cfg.platMaxOffState)
      exact ⟨_, h.of_own (h.depths.wentDown hc (le_refl _) hd (fun _ _ _ => cfg.off_ne_run) hw)
        hw.cpuData ⟨rfl, htarget, haff, cfg.off_ne_run⟩⟩
  · cases hs

theorem Inv.psciCpuOffDone (hs : psciCpuOffDone c sys = some sys') : ∃ d', Inv cfg sys' d' := by
  unfold Psci.psciCpuOffDone at hs
  split at hs
  · next hphase =>
    obtain ⟨hd, htarget, -, hlocal⟩ := hphase ▸ h.phase hc
    cases hs
    refine ⟨update d c (d c), h.of_own ?_ rfl ⟨hd, htarget, hlocal⟩⟩
    rw [update_eq_self]
    exact h.depths.of_cpuData _
  · cases hs

theorem Inv.psciCpuSuspendStart {e : Nat} {f : PsciPowerState} {pd irq : Bool}
    (hphase : sys.phase c = .running) (he : e ≤ cfg.platMaxPwrLvl)
    (hf : ∀ l, l ≤ e → f l ≠ psciLocalStateRun) :
    ∃ d', Inv cfg (psciCpuSuspendStart cfg c e f pd irq sys) d' := by
  obtain ⟨hd, htarget, haff⟩ := hphase ▸ h.phase hc
  have hw := psciDoStateCoordination_spec h.depths.topo hc he f
  have hdepths := h.depths.wentDown hc he hd (fun l _ hl => hf l hl) hw
  unfold Psci.psciCpuSuspendStart
  split
  · exact ⟨d, h⟩
  · split
    · have hok : PhaseOk cfg ⟨.on, e, f 0⟩ e .pwrDown := ⟨rfl, he, rfl, hf 0 (Nat.zero_le e)⟩
      refine ⟨_, h.of_own (hdepths.of_cpuData _) ?_ hok⟩
      simp only [psciSetSuspendPwrlvl, hw.cpuData, update_self, update_idem, haff]
    · exact ⟨_, h.of_own hdepths hw.cpuData ⟨rfl, he, htarget, haff, hf 0 (Nat.zero_le e)⟩⟩

theorem Inv.psciCpuSuspend {f : PsciPowerState} {pd irq : Bool}
    (hs : psciCpuSuspend cfg c f pd irq sys = some sys') : ∃ d', Inv cfg sys' d' := by
  unfold Psci.psciCpuSuspend at hs
  split at hs
  · next hphase =>
    split at hs
    · next hvalid =>
      obtain ⟨hle, hne⟩ := psciValidateSuspendReq_spec hvalid
      simp only at hs
      split at hs
      · obtain ⟨hd, htarget, haff⟩ := hphase ▸ h.phase hc
        cases hs
        refine ⟨update d c (d c), h.of_own ?_ rfl ⟨hd, htarget, haff⟩⟩
        rw [update_eq_self]
        exact h.depths.of_cpuData _
      · cases hs
        exact h.psciCpuSuspendStart hc hphase hle hne
    · cases hs
  · cases hs

theorem Inv.psciCpuStandbyExit (hs : psciCpuStandbyExit c sys = some sys') :
    ∃ d', Inv cfg sys' d' := by
  unfold Psci.psciCpuStandbyExit at hs
  split at hs
  · next hphase =>
    obtain ⟨hd, htarget, haff⟩ := hphase ▸ h.phase hc
    cases hs
    refine ⟨update d c (d c), h.of_own ?_ rfl ⟨hd, htarget, haff⟩⟩
    rw [update_eq_self]
    exact h.depths.of_cpuData _
  · cases hs

theorem Inv.psciSuspendToStandbyFinisher (hs : psciSuspendToStandbyFinisher c sys = some sys') :
    ∃ d', Inv cfg sys' d' := by
  unfold Psci.psciSuspendToStandbyFinisher at hs
  split at hs
  · next e hphase =>
    obtain ⟨hd, he, htarget, -, -⟩ := hphase ▸ h.phase hc
    cases hs
    have hw := psciSetPwrDomainsToRun_spec h.depths.topo hc he
    exact ⟨_, h.of_own (h.depths.cameUp hc he hd.le hw) hw.cpuData ⟨rfl, htarget, rfl⟩⟩
  · cases hs

end

theorem Inv.psciCpuOnStart {target : Nat} {fails : Bool} (htarget : target < cfg.platformCoreCount)
    (hs : psciCpuOnStart c target fails sys = some sys') : ∃ d', Inv cfg sys' d' := by
  unfold Psci.psciCpuOnStart at hs
  split at hs
  · split at hs
    · next haff =>
      cases hs
      refine ⟨d, h.depths.of_cpuData _, ?_⟩
      intro c' hc'
      have hok := h.phase hc'
      by_cases hcc : c' = target
      · subst hcc
        -- only a CPU that is off has the affinity state OFF
        simp only [psciSetAffInfoState, update_self]
        cases hp : sys.phase c' with
        | off => rw [hp] at hok; exact hok
        | running => rw [hp] at hok; exact absurd (hok.2.2.symm.trans haff.1) (by decide)
        | cpuStandby => rw [hp] at hok; exact absurd (hok.2.2.symm.trans haff.1) (by decide)
        | turningOff => rw [hp] at hok; exact absurd (hok.2.2.1.symm.trans haff.1) (by decide)
        | standby e => rw [hp] at hok; exact absurd (hok.2.2.2.1.symm.trans haff.1) (by decide)
        | pwrDown => rw [hp] at hok; exact absurd (hok.2.2.1.symm.trans haff.1) (by decide)
      · simp only [psciSetAffInfoState, update_of_ne hcc]
        exact hok
    · cases hs
      exact ⟨d, h⟩
  · cases hs

theorem Inv.getPowerOnTargetPwrlvl (hc : c < cfg.platformCoreCount)
    (hphase : sys.phase c = .off ∨ sys.phase c = .pwrDown) :
    d c ≤ getPowerOnTargetPwrlvl cfg sys.psci c ∧
      getPowerOnTargetPwrlvl cfg sys.psci c ≤ cfg.platMaxPwrLvl := by
  have hok := h.phase hc
  unfold Psci.getPowerOnTargetPwrlvl
  rcases hphase with hp | hp
  · obtain ⟨hd, htarget, -⟩ := hp ▸ hok
    rw [if_pos htarget]
    exact ⟨hd.le, le_refl _⟩
  · obtain ⟨hd, hle, -, -⟩ := hp ▸ hok
    rw [if_neg (by rw [← hd, PlatConfig.psciInvalidPwrLvl]; omega), ← hd]
    exact ⟨le_refl _, hle⟩

theorem Inv.psciWarmbootEntrypoint (hc : c < cfg.platformCoreCount)
    (hs : psciWarmbootEntrypoint cfg c sys = some sys') : ∃ d', Inv cfg sys' d' := by
  unfold Psci.psciWarmbootEntrypoint at hs
  split at hs
  · next hphase =>
    obtain ⟨hd, he⟩ := h.getPowerOnTargetPwrlvl hc hphase
    split at hs
    · cases hs
    · simp only [Option.some.injEq] at hs
      split at hs
      · next haff =>
        -- turned on by another CPU: only a CPU that is off can be, and its level is invalid
        have htarget : (sys.psci.cpuData c).targetPwrlvl = cfg.psciInvalidPwrLvl := by
          have hok := h.phase hc
          rcases hphase with hp | hp
          · exact (hp ▸ hok).2.1
          · exact absurd ((hp ▸ hok).2.2.1.symm.trans haff) (by decide)
        have hw := psciSetPwrDomainsToRun_spec h.depths.topo hc he
        subst hs
        exact ⟨_, h.of_own (h.depths.cameUp hc he hd hw) hw.cpuData ⟨rfl, htarget, rfl⟩⟩
      · have hdepths := h.depths.of_cpuData (psciSetSuspendPwrlvl c cfg.psciInvalidPwrLvl sys.psci).cpuData
        have hw := psciSetPwrDomainsToRun_spec hdepths.topo hc he
        have hok : PhaseOk cfg ⟨.on, cfg.psciInvalidPwrLvl, psciLocalStateRun⟩ 0 .running :=
          ⟨rfl, rfl, rfl⟩
        subst hs
        refine ⟨_, h.of_own (hdepths.cameUp hc he hd hw) ?_ hok⟩
        refine hw.cpuData.trans ?_
        simp only [psciSetSuspendPwrlvl, update_self, update_idem]
  · cases hs

/-- Every section keeps the depths of the CPUs in step with the states of the domains. -/
theorem Inv.step {sec : Section} (hs : step cfg c sec sys = some sys') : ∃ d', Inv cfg sys' d' := by
  unfold Psci.step at hs
  split at hs
  · next hc =>
    cases sec with
    | cpuOff denied => exact h.psciDoCpuOff hc hs
    | cpuOffDone => exact h.psciCpuOffDone hc hs
    | cpuSuspend f pd irq => exact h.psciCpuSuspend hc hs
    | standbyExit => exact h.psciCpuStandbyExit hc hs
    | standbyFinisher => exact h.psciSuspendToStandbyFinisher hc hs
    | cpuOn target fails =>
      simp only at hs
      split at hs
      · next htarget => exact h.psciCpuOnStart htarget hs
      · cases hs
    | warmboot => exact h.psciWarmbootEntrypoint hc hs
  · cases hs

end

theorem Inv.run (sections : List (Nat × Section)) :
    ∀ {sys : System} {d : Nat → Nat}, Inv cfg sys d →
      run cfg sections sys = some sys' → ∃ d', Inv cfg sys' d' := by
  induction sections with
  | nil =>
    intro sys d h hs
    cases hs
    exact ⟨d, h⟩
  | cons sec rest ih =>
    intro sys d h hs
    obtain ⟨sys1, h1, hs⟩ := Option.bind_eq_some_iff.mp hs
    obtain ⟨d1, hinv⟩ := h.step h1
    exact ih hinv hs

theorem Inv.of_psciSetup {topology : List UInt8} {bootCpu : Nat} (hboot : bootCpu < cfg.platformCoreCount)
    (hs : psciSetup cfg topology bootCpu = some sys) : ∃ d, Inv cfg sys d := by
  obtain ⟨s, htree, rfl⟩ := Option.map_eq_some_iff.mp hs
  obtain ⟨ht, hoff, hdata⟩ := psciSetupTree_topology (Nat.zero_lt_of_lt hboot) htree
  have hdepths := Depths.of_setup ht hoff
  have hw := psciSetPwrDomainsToRun_spec hdepths.topo hboot (le_refl cfg.platMaxPwrLvl)
  refine ⟨update (fun _ => cfg.platMaxPwrLvl) bootCpu 0, hdepths.cameUp hboot (le_refl _) (le_refl _) hw, ?_⟩
  intro c hc
  rw [hw.cpuData]
  by_cases hcb : c = bootCpu
  · subst hcb
    simp only [update_self]
    exact ⟨rfl, congrArg PsciCpuData.targetPwrlvl (hdata c hc), rfl⟩
  · simp only [update_of_ne hcb]
    rw [show (psciInitReqLocalPwrStates cfg s).cpuData c = cfg.offCpuData from hdata c hc]
    exact ⟨rfl, rfl, cfg.off_ne_run⟩

end Steps

/-! ## Safety -/

/-- No domain is powered down that a running CPU needs. -/
structure NeededDomainsRun (cfg : PlatConfig) (s : PsciState) : Prop where
  /-- Every ancestor of a CPU in RUN is in RUN. -/
  ancestors : ∀ c l, c < cfg.platformCoreCount → 1 ≤ l → l ≤ cfg.platMaxPwrLvl →
    (s.cpuData c).localState = psciLocalStateRun →
      (s.nonCpuPdNodes (s.anc l c)).localState = psciLocalStateRun
  /-- Every CPU below a domain out of RUN asks for it at the domain's level. -/
  requests : ∀ c l, c < cfg.platformCoreCount → 1 ≤ l → l ≤ cfg.platMaxPwrLvl →
    (s.nonCpuPdNodes (s.anc l c)).localState ≠ psciLocalStateRun →
      s.reqLocalPwrStates (l - 1) c ≠ psciLocalStateRun
  /-- The parent of a CPU in RUN is in RUN. -/
  parentOfCpu : ∀ c, c < cfg.platformCoreCount → 1 ≤ cfg.platMaxPwrLvl →
    (s.cpuData c).localState = psciLocalStateRun →
      (s.nonCpuPdNodes (s.cpuParentNode c)).localState = psciLocalStateRun
  /-- The parent of a domain in RUN is in RUN. -/
  parentOfNode : ∀ x, 1 ≤ (s.nonCpuPdNodes x).level →
    (s.nonCpuPdNodes x).level < cfg.platMaxPwrLvl →
    (s.nonCpuPdNodes x).localState = psciLocalStateRun →
      (s.nonCpuPdNodes (s.nonCpuPdNodes x).parentNode).localState = psciLocalStateRun

section Safety

variable {cfg : PlatConfig} {sys : System} {d : Nat → Nat}

theorem Depths.node_run {s : PsciState} (h : Depths cfg s d) {c l : Nat}
    (hc : c < cfg.platformCoreCount) (h1 : 1 ≤ l) (hl : l ≤ cfg.platMaxPwrLvl) (hd : d c < l) :
    (s.nonCpuPdNodes (s.anc l c)).localState = psciLocalStateRun := by
  by_contra hne
  have := (h.node hc h1 hl).mp hne c hc rfl
  omega

theorem Inv.neededDomainsRun (h : Inv cfg sys d) : NeededDomainsRun cfg sys.psci where
  ancestors := by
    intro c l hc h1 hl hrun
    have hd := (h.phase hc).depth_eq_zero hrun
    exact h.depths.node_run hc h1 hl (by omega)
  requests := by
    intro c l hc h1 hl hne
    exact (h.depths.req hc h1 hl).mpr ((h.depths.node hc h1 hl).mp hne c hc rfl)
  parentOfCpu := by
    intro c hc hL hrun
    have hd := (h.phase hc).depth_eq_zero hrun
    exact h.depths.node_run hc (le_refl 1) hL (by omega)
  parentOfNode := by
    intro x h1 hlt hrun
    obtain ⟨l, c, hl1, hl, hc, rfl⟩ := h.depths.idle (by omega) hrun
    rw [h.depths.topo.level hl1 hl hc] at hlt
    -- some CPU below the child keeps it in RUN, and that CPU is below the parent too
    have hex : ∃ c', c' < cfg.platformCoreCount ∧ sys.psci.anc l c' = sys.psci.anc l c ∧
        d c' < l := by
      by_contra hall
      refine (h.depths.node hc hl1 hl).mpr (fun c' hc' hanc => ?_) hrun
      by_contra hlt
      exact hall ⟨c', hc', hanc, by omega⟩
    obtain ⟨c', hc', hanc, hd⟩ := hex
    obtain ⟨k, rfl⟩ : ∃ k, l = k + 1 := ⟨l - 1, by omega⟩
    have hparent := h.depths.node_run hc' (by omega) hlt (by omega)
    rw [anc_eq_of_le (Nat.le_succ (k + 1)) hanc] at hparent
    exact hparent

end Safety

/-- PSCI never powers down a domain that a running CPU needs: for every topology map
`populate_power_domain_tree` accepts and every interleaving of sections from `psci_setup` on. -/
theorem domains_of_running_cpus_run (cfg : PlatConfig) (topology : List UInt8) (bootCpu : Nat)
    (hboot : bootCpu < cfg.platformCoreCount) (sections : List (Nat × Section))
    (sys₀ sys : System) (hsetup : psciSetup cfg topology bootCpu = some sys₀)
    (hrun : run cfg sections sys₀ = some sys) : NeededDomainsRun cfg sys.psci := by
  obtain ⟨d₀, h₀⟩ := Inv.of_psciSetup hboot hsetup
  obtain ⟨d, h⟩ := Inv.run sections h₀ hrun
  exact h.neededDomainsRun

def twoClusters : PlatConfig where
  platMaxPwrLvl := 2
  platformCoreCount := 4
  psciNumNonCpuPwrDomains := 3
  platMaxRetState := 1
  platMaxOffState := 2
  numNonCpu_lt := by decide
  ret_lt_off := by decide

/-- CPU 1 is turned on and powers its cluster down, CPU 0 asks for retention of the whole system, then CPU 1
wakes. -/
def clusterNaps : List (Nat × Section) :=
  [(0, .cpuOn 1 false), (1, .warmboot), (1, .cpuSuspend (fun l => if l ≤ 1 then 2 else 0) true false),
    (0, .cpuSuspend (fun _ => 1) false false), (1, .warmboot)]

theorem clusterNaps_runs :
    ((psciSetup twoClusters [1, 2, 2, 2] 0).bind (run twoClusters clusterNaps)).isSome = true := by
  decide +kernel

theorem domains_of_running_cpus_run_naps :
    ∃ sys₀ sys, psciSetup twoClusters [1, 2, 2, 2] 0 = some sys₀ ∧
      run twoClusters clusterNaps sys₀ = some sys ∧ NeededDomainsRun twoClusters sys.psci := by
  obtain ⟨sys, hsys⟩ := Option.isSome_iff_exists.mp clusterNaps_runs
  obtain ⟨sys₀, hsetup, hrun⟩ := Option.bind_eq_some_iff.mp hsys
  exact ⟨sys₀, sys, hsetup, hrun,
    domains_of_running_cpus_run twoClusters [1, 2, 2, 2] 0 (by decide) clusterNaps sys₀ sys
      hsetup hrun⟩

/-! ## Exactness -/

/-- The highest level at which the CPU has left RUN, by the place it is at. -/
def System.depth (cfg : PlatConfig) (sys : System) (c : Nat) : Nat :=
  match sys.phase c with
  | .running | .cpuStandby => 0
  | .turningOff | .off => cfg.platMaxPwrLvl
  | .standby endPwrlvl => endPwrlvl
  | .pwrDown => (sys.psci.cpuData c).targetPwrlvl

theorem Inv.depth_eq {cfg : PlatConfig} {sys : System} {d : Nat → Nat} (h : Inv cfg sys d) {c : Nat}
    (hc : c < cfg.platformCoreCount) : sys.depth cfg c = d c := by
  have hphase := h.phase hc
  unfold System.depth
  split
  all_goals
    rename_i heq
    rw [heq] at hphase
    exact hphase.1.symm

/-- A domain is never kept in RUN for nothing either: after every interleaving of sections a domain that has
CPUs below it is out of RUN if and only if none of them is shallower than its level. Nothing is said of domains
without CPUs. -/
theorem domain_leaves_run_iff (cfg : PlatConfig) (topology : List UInt8) (bootCpu : Nat)
    (hboot : bootCpu < cfg.platformCoreCount) (sections : List (Nat × Section))
    (sys₀ sys : System) (hsetup : psciSetup cfg topology bootCpu = some sys₀)
    (hrun : run cfg sections sys₀ = some sys) (c l : Nat) (hc : c < cfg.platformCoreCount) (h1 : 1 ≤ l)
    (hl : l ≤ cfg.platMaxPwrLvl) :
    (sys.psci.nonCpuPdNodes (sys.psci.anc l c)).localState ≠ psciLocalStateRun ↔
      ∀ c' < cfg.platformCoreCount, sys.psci.anc l c' = sys.psci.anc l c → l ≤ sys.depth cfg c' := by
  obtain ⟨d₀, h₀⟩ := Inv.of_psciSetup hboot hsetup
  obtain ⟨d, h⟩ := Inv.run sections h₀ hrun
  rw [h.depths.node hc h1 hl]
  refine forall₂_congr fun c' hc' => ?_
  rw [h.depth_eq hc']

/-- The cluster of CPUs 2 and 3, which are off. -/
theorem domain_leaves_run_iff_naps :
    ∃ sys₀ sys, psciSetup twoClusters [1, 2, 2, 2] 0 = some sys₀ ∧ run twoClusters clusterNaps sys₀ = some sys ∧
      (sys.psci.nonCpuPdNodes (sys.psci.anc 1 2)).localState = 2 ∧
      ∀ c' < 4, sys.psci.anc 1 c' = sys.psci.anc 1 2 → 1 ≤ sys.depth twoClusters c' := by
  have hstate : ((psciSetup twoClusters [1, 2, 2, 2] 0).bind (run twoClusters clusterNaps)).map
      (fun sys => (sys.psci.nonCpuPdNodes (sys.psci.anc 1 2)).localState) = some 2 := by decide +kernel
  obtain ⟨sys, hsys, hstate⟩ := Option.map_eq_some_iff.mp hstate
  obtain ⟨sys₀, hsetup, hrun⟩ := Option.bind_eq_some_iff.mp hsys
  exact ⟨sys₀, sys, hsetup, hrun, hstate, (domain_leaves_run_iff twoClusters [1, 2, 2, 2] 0 (by decide)
    clusterNaps sys₀ sys hsetup hrun 2 1 (by decide) (by decide) (by decide)).mp (by rw [hstate]; decide)⟩

end Armada3720.Psci
