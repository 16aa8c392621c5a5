import Armada3720.Psci.Sections

/-!
# PSCI statistics

The part of `psci_stat.c` that counts power downs. `last_cpu_in_non_cpu_pd` is set level by level on the way
down, and read and reset on the way up, which asks whether the direct parent was ever down and nothing about the
domains above it. The system keeps which CPU's section last took a domain out of RUN; the two agree (`StatInv`).

`stats_charge_last_cpu` needs no condition on the calls. How long a domain was down is an input of each section.
-/

namespace Armada3720.Psci

open Function

/-! ## The arrays -/

structure PsciStat where
  residency : UInt64
  count : UInt64

/-- The arrays of `psci_stat.c`; `none` is the reset value -1 of `last_cpu_in_non_cpu_pd`. -/
structure Stats where
  lastCpuInNonCpuPd : Nat → Option Nat
  psciCpuStat : Nat → Nat → PsciStat
  psciNonCpuStat : Nat → Nat → PsciStat

def Stats.zero : Stats where
  lastCpuInNonCpuPd := fun _ => none
  psciCpuStat := fun _ _ => ⟨0, 0⟩
  psciNonCpuStat := fun _ _ => ⟨0, 0⟩

/-- The residency is a matter of time, so that every section has its own. -/
structure StatPlat where
  platMaxPwrLvlStates : Int
  getPwrLvlStateIdx : Option (PlatLocalState → Nat → Int)
  platPsciStatGetResidency : Nat → PsciPowerState → Nat → UInt64

/-- The assertions a wake-up can fail. -/
inductive StatAssert where
  /-- In `get_stat_idx`. -/
  | statIdx
  /-- `last_cpu_in_non_cpu_pd[parent_idx] != -1`. -/
  | lastCpu
deriving DecidableEq, Repr

/-- The arrays, the domains charged with the CPU each was charged to, and the assertion that stopped it. -/
structure StatOutcome where
  stats : Stats
  charged : List (Nat × Nat)
  failed : Option StatAssert

def isLocalStateRetn (cfg : PlatConfig) (state : PlatLocalState) : Bool :=
  psciLocalStateRun < state && state ≤ cfg.platMaxRetState

def getStatIdx (cfg : PlatConfig) (plat : StatPlat) (localState : PlatLocalState) (pwrLvl : Nat) : Option Nat :=
  match plat.getPwrLvlStateIdx with
  | none =>
    if plat.platMaxPwrLvlStates = 2 then
      if isLocalStateRetn cfg localState then some 0
      else if isLocalStateOff cfg localState then some 1
      else none
    else none
  | some hook =>
    let idx := hook localState pwrLvl
    if 0 ≤ idx ∧ idx < plat.platMaxPwrLvlStates then some idx.toNat else none

/-- One more stay of the given length. -/
def PsciStat.charge (stat : PsciStat) (residency : UInt64) : PsciStat :=
  ⟨stat.residency + residency, stat.count + 1⟩

/-! ## The updates -/

/-- The loop of `psci_get_target_local_pwr_states` over `n` levels from `lvl` on. -/
def getTargetLoop (s : PsciState) : (n lvl parentIdx : Nat) → PsciPowerState → PsciPowerState
  | 0, _, _, pdState => pdState
  | n + 1, lvl, parentIdx, pdState =>
    getTargetLoop s n (lvl + 1) (s.nonCpuPdNodes parentIdx).parentNode
      (Function.update pdState lvl (s.nonCpuPdNodes parentIdx).localState)

/-- `psci_get_target_local_pwr_states`; the levels above `endPwrlvl` are RUN. -/
def psciGetTargetLocalPwrStates (cpuIdx endPwrlvl : Nat) (s : PsciState) : PsciPowerState :=
  getTargetLoop s endPwrlvl 1 (s.cpuParentNode cpuIdx)
    (Function.update (fun _ => psciLocalStateRun) 0 (s.cpuData cpuIdx).localState)

/-- The states `psci_do_state_coordination` leaves in its argument. -/
def coordinatedStates (cfg : PlatConfig) (cpuIdx endPwrlvl : Nat) (stateInfo : PsciPowerState)
    (s : PsciState) : PsciPowerState :=
  (coordinateLoop cfg cpuIdx endPwrlvl 1 (s.cpuParentNode cpuIdx) (stateInfo, s)).1

/-- The loop of `psci_stats_update_pwr_down`. -/
def statsDownLoop (cpuIdx : Nat) (stateInfo : PsciPowerState) (s : PsciState) :
    (n lvl parentIdx : Nat) → Stats → Stats
  | 0, _, _, stats => stats
  | n + 1, lvl, parentIdx, stats =>
    if stateInfo lvl = psciLocalStateRun then stats
    else
      statsDownLoop cpuIdx stateInfo s n (lvl + 1) (s.nonCpuPdNodes parentIdx).parentNode
        { stats with
          lastCpuInNonCpuPd := Function.update stats.lastCpuInNonCpuPd parentIdx (some cpuIdx) }

def psciStatsUpdatePwrDown (cpuIdx endPwrlvl : Nat) (stateInfo : PsciPowerState) (s : PsciState)
    (stats : Stats) : Stats :=
  statsDownLoop cpuIdx stateInfo s endPwrlvl 1 (s.cpuParentNode cpuIdx) stats

/-- The loop of `psci_stats_update_pwr_up`. -/
def statsUpLoop (cfg : PlatConfig) (plat : StatPlat) (stateInfo : PsciPowerState)
    (s : PsciState) : (n lvl parentIdx : Nat) → Stats → StatOutcome
  | 0, _, _, stats => ⟨stats, [], none⟩
  | n + 1, lvl, parentIdx, stats =>
    if stateInfo lvl = psciLocalStateRun then ⟨stats, [], none⟩
    else
      match stats.lastCpuInNonCpuPd parentIdx with
      | none => ⟨stats, [], some .lastCpu⟩
      | some lastCpu =>
        let stats' := { stats with
          lastCpuInNonCpuPd := Function.update stats.lastCpuInNonCpuPd parentIdx none }
        match getStatIdx cfg plat (stateInfo lvl) lvl with
        | none => ⟨stats', [(parentIdx, lastCpu)], some .statIdx⟩
        | some statIdx =>
          let rest := statsUpLoop cfg plat stateInfo s n (lvl + 1) (s.nonCpuPdNodes parentIdx).parentNode
            { stats' with
              psciNonCpuStat := Function.update stats.psciNonCpuStat parentIdx
                (Function.update (stats.psciNonCpuStat parentIdx) statIdx
                  ((stats.psciNonCpuStat parentIdx statIdx).charge
                    (plat.platPsciStatGetResidency lvl stateInfo lastCpu))) }
          { rest with charged := (parentIdx, lastCpu) :: rest.charged }

def psciStatsUpdatePwrUp (cfg : PlatConfig) (plat : StatPlat) (cpuIdx endPwrlvl : Nat)
    (stateInfo : PsciPowerState) (s : PsciState) (stats : Stats) : StatOutcome :=
  match getStatIdx cfg plat (stateInfo 0) 0 with
  | none => ⟨stats, [], some .statIdx⟩
  | some statIdx =>
    let stats' := { stats with
      psciCpuStat := Function.update stats.psciCpuStat cpuIdx (Function.update (stats.psciCpuStat cpuIdx) statIdx
          ((stats.psciCpuStat cpuIdx statIdx).charge
            (plat.platPsciStatGetResidency 0 stateInfo cpuIdx))) }
    -- the first power up of the cluster
    if stats.lastCpuInNonCpuPd (s.cpuParentNode cpuIdx) = none then ⟨stats', [], none⟩
    else statsUpLoop cfg plat stateInfo s endPwrlvl 1 (s.cpuParentNode cpuIdx) stats'

/-! ## The system with statistics -/

/-- What a section of CPU `c` that takes `sys` to `sys'` does to the statistics. -/
def sectionStats (cfg : PlatConfig) (plat : StatPlat) (c : Nat) (sec : Section)
    (sys sys' : System) (stats : Stats) : StatOutcome :=
  match sec with
  | .cpuOff denied =>
    if denied then ⟨stats, [], none⟩
    else
      ⟨psciStatsUpdatePwrDown c cfg.platMaxPwrLvl
        (coordinatedStates cfg c cfg.platMaxPwrLvl (fun _ => cfg.platMaxOffState) sys.psci)
        sys'.psci stats, [], none⟩
  | .cpuSuspend stateInfo isPowerDownState pendingInterrupt =>
    let targetPwrlvl := psciFindTargetSuspendLvl cfg stateInfo
    if (!isPowerDownState && targetPwrlvl == 0) || pendingInterrupt then ⟨stats, [], none⟩
    else
      ⟨psciStatsUpdatePwrDown c targetPwrlvl
        (coordinatedStates cfg c targetPwrlvl stateInfo sys.psci) sys'.psci stats, [], none⟩
  | .standbyExit =>
    psciStatsUpdatePwrUp cfg plat c 0 (psciGetTargetLocalPwrStates c 0 sys.psci) sys'.psci stats
  | .standbyFinisher =>
    match sys.phase c with
    | .standby endPwrlvl =>
      psciStatsUpdatePwrUp cfg plat c endPwrlvl (psciGetTargetLocalPwrStates c endPwrlvl sys.psci) sys.psci stats
    | _ => ⟨stats, [], none⟩
  | .warmboot =>
    let endPwrlvl := getPowerOnTargetPwrlvl cfg sys.psci c
    psciStatsUpdatePwrUp cfg plat c endPwrlvl (psciGetTargetLocalPwrStates c endPwrlvl sys.psci) sys'.psci stats
  | .cpuOffDone | .cpuOn _ _ => ⟨stats, [], none⟩

/-- The system, its statistics, and the CPU whose section last took a domain out of RUN. -/
structure StatSystem where
  sys : System
  stats : Stats
  takenOutBy : Nat → Option Nat

/-- The record after a section of CPU `c`. -/
def recordTakenOut (c : Nat) (s s' : PsciState) (takenOutBy : Nat → Option Nat) :
    Nat → Option Nat :=
  fun x =>
    if (s.nonCpuPdNodes x).localState = psciLocalStateRun ∧
        (s'.nonCpuPdNodes x).localState ≠ psciLocalStateRun then some c
    else takenOutBy x

/-- One section with its statistics; a failed assertion stops the system. -/
def statStep (cfg : PlatConfig) (plat : StatPlat) (c : Nat) (sec : Section) (st : StatSystem) :
    Option StatSystem :=
  (step cfg c sec st.sys).bind fun sys' =>
    let out := sectionStats cfg plat c sec st.sys sys' st.stats
    if out.failed = none then
      some ⟨sys', out.stats, recordTakenOut c st.sys.psci sys'.psci st.takenOutBy⟩
    else none

def statRun (cfg : PlatConfig) : List (Nat × Section × StatPlat) → StatSystem → Option StatSystem
  | [], st => some st
  | (c, sec, plat) :: rest, st => (statStep cfg plat c sec st).bind (statRun cfg rest)

/-! ## What the loops do -/

section Loops

variable {cfg : PlatConfig} {plat : StatPlat} {g : PsciPowerState} {s : PsciState} {c : Nat}

theorem getTargetLoop_spec (n : Nat) :
    ∀ {k : Nat} (f : PsciPowerState), (∀ l, l < k + 1 → getTargetLoop s n (k + 1) (s.anc (k + 1) c) f l = f l) ∧
      ∀ l, k + 1 ≤ l → l < k + 1 + n →
        getTargetLoop s n (k + 1) (s.anc (k + 1) c) f l = (s.nonCpuPdNodes (s.anc l c)).localState := by
  induction n with
  | zero => exact fun f => ⟨fun _ _ => rfl, fun l h h' => by omega⟩
  | succ n ih =>
    intro k f
    obtain ⟨hlow, hset⟩ := ih (update f (k + 1) (s.nonCpuPdNodes (s.anc (k + 1) c)).localState)
    refine ⟨fun l hl => ?_, fun l hl hln => ?_⟩
    · exact (hlow l (by omega)).trans (update_of_ne (by omega) _ _)
    · rcases Nat.eq_or_lt_of_le hl with rfl | hlt
      · exact (hlow (k + 1) (by omega)).trans (update_self _ _ _)
      · exact hset l hlt (by omega)

theorem psciGetTargetLocalPwrStates_eq {e l : Nat} (h1 : 1 ≤ l) (hl : l ≤ e) :
    psciGetTargetLocalPwrStates c e s l = (s.nonCpuPdNodes (s.anc l c)).localState :=
  (getTargetLoop_spec e _).2 l h1 (by omega)

/-- The way down writes the CPU at the levels it takes out of RUN. -/
theorem statsDownLoop_spec (n : Nat) :
    ∀ {k : Nat} (stats : Stats), (∀ l, k + 1 ≤ l → l < k + 1 + n →
        (∀ l', k + 1 ≤ l' → l' ≤ l → g l' ≠ psciLocalStateRun) →
        (statsDownLoop c g s n (k + 1) (s.anc (k + 1) c) stats).lastCpuInNonCpuPd (s.anc l c) =
          some c) ∧
      ∀ x, (∀ l, k + 1 ≤ l → l < k + 1 + n →
          (∀ l', k + 1 ≤ l' → l' ≤ l → g l' ≠ psciLocalStateRun) → s.anc l c ≠ x) →
        (statsDownLoop c g s n (k + 1) (s.anc (k + 1) c) stats).lastCpuInNonCpuPd x =
          stats.lastCpuInNonCpuPd x := by
  induction n with
  | zero => exact fun stats => ⟨fun l h h' => by omega, fun _ _ => rfl⟩
  | succ n ih =>
    intro k stats
    unfold statsDownLoop
    split
    · next hrun =>
      exact ⟨fun l h1 _ hall => absurd hrun (hall (k + 1) (le_refl _) h1), fun _ _ => rfl⟩
    · next hrun =>
      obtain ⟨hset, hother⟩ := ih { stats with
        lastCpuInNonCpuPd := update stats.lastCpuInNonCpuPd (s.anc (k + 1) c) (some c) }
      have hfirst : ∀ l', k + 1 ≤ l' → l' ≤ k + 1 → g l' ≠ psciLocalStateRun := by
        intro l' h1 h2
        rwa [show l' = k + 1 by omega]
      have hextend : ∀ {l}, (∀ l', k + 1 + 1 ≤ l' → l' ≤ l → g l' ≠ psciLocalStateRun) →
          ∀ l', k + 1 ≤ l' → l' ≤ l → g l' ≠ psciLocalStateRun := by
        intro l hall l' h1 h2
        rcases Nat.eq_or_lt_of_le h1 with rfl | hlt
        · exact hrun
        · exact hall l' hlt h2
      refine ⟨fun l h1 hl hall => ?_, fun x hx => ?_⟩
      · -- a later level may be another node or, in a malformed tree, the same one
        by_cases hlater : ∃ l', k + 1 + 1 ≤ l' ∧ l' < k + 1 + 1 + n ∧
            (∀ l'', k + 1 + 1 ≤ l'' → l'' ≤ l' → g l'' ≠ psciLocalStateRun) ∧
            s.anc l' c = s.anc l c
        · obtain ⟨l', h1', hl', hall', heq⟩ := hlater
          rw [← heq]
          exact hset l' h1' hl' hall'
        · rcases Nat.eq_or_lt_of_le h1 with rfl | hlt
          · refine (hother _ fun l' h1' hl' hall' heq => hlater ⟨l', h1', hl', hall', heq⟩).trans ?_
            exact update_self _ _ _
          · exact absurd ⟨l, hlt, by omega, fun l' h1' => hall l' (by omega), rfl⟩ hlater
      · have hne := hx (k + 1) (le_refl _) (by omega) hfirst
        refine (hother x fun l h1 hl hall => hx l (by omega) (by omega) (hextend hall)).trans ?_
        exact update_of_ne hne.symm _ _

/-- The assertion holds, the domains are charged to the CPUs they are known for, and others are left alone. -/
theorem statsUpLoop_spec {P : Nat → Nat → Prop} (n : Nat) :
    ∀ {k : Nat} (stats : Stats), (∀ l l', k + 1 ≤ l → l < l' → l' < k + 1 + n → s.anc l' c ≠ s.anc l c) →
      (∀ l, k + 1 ≤ l → l < k + 1 + n →
        (∀ l', k + 1 ≤ l' → l' ≤ l → g l' ≠ psciLocalStateRun) →
        ∃ cpu, stats.lastCpuInNonCpuPd (s.anc l c) = some cpu ∧ P (s.anc l c) cpu) →
      (statsUpLoop cfg plat g s n (k + 1) (s.anc (k + 1) c) stats).failed ≠ some .lastCpu ∧
      (∀ x cpu, (x, cpu) ∈ (statsUpLoop cfg plat g s n (k + 1) (s.anc (k + 1) c) stats).charged → P x cpu) ∧
      ∀ x, (∀ l, k + 1 ≤ l → l < k + 1 + n → s.anc l c ≠ x) →
        (statsUpLoop cfg plat g s n (k + 1) (s.anc (k + 1) c) stats).stats.lastCpuInNonCpuPd x =
          stats.lastCpuInNonCpuPd x := by
  induction n with
  | zero =>
    intro k stats _ _
    exact ⟨nofun, nofun, fun _ _ => rfl⟩
  | succ n ih =>
    intro k stats hne hknown
    unfold statsUpLoop
    split
    · exact ⟨nofun, nofun, fun _ _ => rfl⟩
    · next hrun =>
      obtain ⟨cpu, hcpu, hP⟩ := hknown (k + 1) (le_refl _) (by omega) (by
        intro l' h1 h2
        rwa [show l' = k + 1 by omega])
      simp only [hcpu]
      have hother : ∀ x, (∀ l, k + 1 ≤ l → l < k + 1 + (n + 1) → s.anc l c ≠ x) →
          update stats.lastCpuInNonCpuPd (s.anc (k + 1) c) none x =
            stats.lastCpuInNonCpuPd x :=
        fun x hx => update_of_ne (hx (k + 1) (le_refl _) (by omega)).symm _ _
      split
      · refine ⟨nofun, ?_, hother⟩
        intro x cpu' hmem
        cases List.mem_singleton.mp hmem
        exact hP
      · next statIdx _ =>
        obtain ⟨hfail, hcharged, hrest⟩ := ih (k := k + 1)
          { lastCpuInNonCpuPd := update stats.lastCpuInNonCpuPd (s.anc (k + 1) c) none
            psciCpuStat := stats.psciCpuStat
            psciNonCpuStat := update stats.psciNonCpuStat (s.anc (k + 1) c)
              (update (stats.psciNonCpuStat (s.anc (k + 1) c)) statIdx
                ((stats.psciNonCpuStat (s.anc (k + 1) c) statIdx).charge
                  (plat.platPsciStatGetResidency (k + 1) g cpu))) }
          (fun l l' h1 h2 h3 => hne l l' (by omega) h2 (by omega)) (by
            intro l h1 hl hall
            obtain ⟨cpu', hcpu', hP'⟩ := hknown l (by omega) (by omega) (by
              intro l' h1' hl'
              rcases Nat.eq_or_lt_of_le h1' with rfl | hlt
              · exact hrun
              · exact hall l' hlt hl')
            refine ⟨cpu', ?_, hP'⟩
            rw [← hcpu']
            exact update_of_ne (hne (k + 1) l (le_refl _) (by omega) (by omega)) _ _)
        refine ⟨hfail, ?_, fun x hx => ?_⟩
        · intro x cpu' hmem
          rcases List.mem_cons.mp hmem with heq | hmem
          · cases heq
            exact hP
          · exact hcharged x cpu' hmem
        · exact (hrest x fun l h1 hl => hx l (by omega) (by omega)).trans (hother x hx)

end Loops

/-! ## What a section does -/

section Sections

variable {cfg : PlatConfig} {plat : StatPlat} {stats : Stats} {sys sys' : System} {d : Nat → Nat} {c : Nat}

theorem coordinatedStates_eq {s : PsciState} (ht : Topology cfg s)
    (hc : c < cfg.platformCoreCount) {e : Nat} (he : e ≤ cfg.platMaxPwrLvl) (f : PsciPowerState)
    {l : Nat} (h1 : 1 ≤ l) (hl : l ≤ e) :
    ((psciDoStateCoordination cfg c e f s).nonCpuPdNodes (s.anc l c)).localState =
      coordinatedStates cfg c e f s l := by
  obtain ⟨-, htree, hset, -⟩ := psciDoStateCoordination_nodesSet ht hc he f
  rw [← htree.anc]
  exact hset.set l h1 (by omega)

theorem coordinatedStates_mono {s : PsciState} (ht : Topology cfg s)
    (hc : c < cfg.platformCoreCount) {e : Nat} (he : e ≤ cfg.platMaxPwrLvl) (f : PsciPowerState)
    (l l' : Nat) (h1 : 1 ≤ l') (hll : l' ≤ l) (hl : l ≤ e)
    (hne : coordinatedStates cfg c e f s l ≠ psciLocalStateRun) :
    coordinatedStates cfg c e f s l' ≠ psciLocalStateRun := by
  have hw := psciDoStateCoordination_spec ht hc he f
  rw [← coordinatedStates_eq ht hc he f (by omega) hl, hw.node l (by omega) hl] at hne
  rw [← coordinatedStates_eq ht hc he f h1 (by omega), hw.node l' h1 (by omega)]
  exact fun l'' h1'' hl'' => hne l'' h1'' (hl''.trans hll)

/-- What a section of CPU `c` does to the domains, and to the statistics of the domains. -/
inductive Moves (cfg : PlatConfig) (d : Nat → Nat) (c : Nat) (s s' : PsciState) (stats : Stats)
    (out : StatOutcome) : Prop where
  /-- No domain changes. -/
  | still (tree : SameTree s s') (node : ∀ x, (s'.nonCpuPdNodes x).localState = (s.nonCpuPdNodes x).localState)
      (last : out.stats.lastCpuInNonCpuPd = stats.lastCpuInNonCpuPd)
      (charged : out.charged = []) (failed : out.failed ≠ some .lastCpu)
  /-- A running CPU goes down and leaves its index at the domains it takes out of RUN. -/
  | down (e : Nat) (g : PsciPowerState) (depth : d c = 0) (he : e ≤ cfg.platMaxPwrLvl) (tree : SameTree s s')
      (node : ∀ l, 1 ≤ l → l ≤ e → (s'.nonCpuPdNodes (s.anc l c)).localState = g l)
      (mono : ∀ l l', 1 ≤ l' → l' ≤ l → l ≤ e → g l ≠ psciLocalStateRun →
        g l' ≠ psciLocalStateRun)
      (other : ∀ x, (∀ l, 1 ≤ l → l ≤ e → s.anc l c ≠ x) →
        (s'.nonCpuPdNodes x).localState = (s.nonCpuPdNodes x).localState)
      (out_eq : out = ⟨psciStatsUpdatePwrDown c e g s' stats, [], none⟩)
  /-- A CPU comes up and asks about the states the domains had. -/
  | up (plat : StatPlat) (e : Nat) (t : PsciState) (depth : d c ≤ e)
      (he : e ≤ cfg.platMaxPwrLvl) (tree : SameTree s s')
      (node : ∀ l, 1 ≤ l → l ≤ e →
        (s'.nonCpuPdNodes (s.anc l c)).localState = psciLocalStateRun)
      (other : ∀ x, (∀ l, 1 ≤ l → l ≤ e → s.anc l c ≠ x) →
        (s'.nonCpuPdNodes x).localState = (s.nonCpuPdNodes x).localState)
      (read : SameTree s t)
      (out_eq : out =
        psciStatsUpdatePwrUp cfg plat c e (psciGetTargetLocalPwrStates c e s) t stats)

theorem Moves.of_quiet {s s' : PsciState} (tree : SameTree s s')
    (node : ∀ x, (s'.nonCpuPdNodes x).localState = (s.nonCpuPdNodes x).localState) :
    Moves cfg d c s s' stats ⟨stats, [], none⟩ :=
  .still tree node rfl rfl nofun

theorem moves_cpuOff (h : Inv cfg sys d) (hc : c < cfg.platformCoreCount) {denied : Bool}
    (hs : psciDoCpuOff cfg c denied sys = some sys') :
    Moves cfg d c sys.psci sys'.psci stats (sectionStats cfg plat c (.cpuOff denied) sys sys' stats) := by
  unfold Psci.psciDoCpuOff at hs
  split at hs
  · next hphase =>
    obtain ⟨hd, -, -⟩ := hphase ▸ h.phase hc
    unfold sectionStats
    split at hs <;> cases hs
    · next hdenied =>
      simp only [hdenied, if_true]
      exact .of_quiet (.of_eq rfl rfl) fun _ => rfl
    · next hdenied =>
      simp only [hdenied]
      have hw := psciDoStateCoordination_spec h.depths.topo hc (le_refl cfg.platMaxPwrLvl)
        (fun _ => cfg.platMaxOffState)
      exact .down _ _ hd (le_refl _) hw.tree (fun l => coordinatedStates_eq h.depths.topo hc (le_refl _) _)
        (coordinatedStates_mono h.depths.topo hc (le_refl _) _) hw.other rfl
  · cases hs

theorem moves_cpuSuspend (h : Inv cfg sys d) (hc : c < cfg.platformCoreCount) {f : PsciPowerState} {pd irq : Bool}
    (hs : psciCpuSuspend cfg c f pd irq sys = some sys') :
    Moves cfg d c sys.psci sys'.psci stats (sectionStats cfg plat c (.cpuSuspend f pd irq) sys sys' stats) := by
  unfold Psci.psciCpuSuspend at hs
  split at hs
  · next hphase =>
    obtain ⟨hd, -, -⟩ := hphase ▸ h.phase hc
    split at hs
    · next hvalid =>
      obtain ⟨hle, -⟩ := psciValidateSuspendReq_spec hvalid
      simp only at hs
      unfold sectionStats
      split at hs
      · next hcpu =>
        cases hs
        simp only [hcpu, Bool.true_or, if_true]
        exact .of_quiet (.of_eq rfl rfl) fun _ => rfl
      · next hcpu =>
        cases hs
        simp only [hcpu, Bool.false_or]
        unfold Psci.psciCpuSuspendStart
        split
        · exact .of_quiet (.of_eq rfl rfl) fun _ => rfl
        · have hw := psciDoStateCoordination_spec h.depths.topo hc hle f
          have hnode := fun l => coordinatedStates_eq h.depths.topo hc hle f (l := l)
          have hmono := coordinatedStates_mono h.depths.topo hc hle f
          split
          · exact .down _ _ hd hle (hw.tree.trans (.of_eq rfl rfl)) hnode hmono hw.other rfl
          · exact .down _ _ hd hle hw.tree hnode hmono hw.other rfl
    · cases hs
  · cases hs

theorem moves_standbyExit (hs : psciCpuStandbyExit c sys = some sys') :
    Moves cfg d c sys.psci sys'.psci stats (sectionStats cfg plat c .standbyExit sys sys' stats) := by
  unfold psciCpuStandbyExit at hs
  split at hs
  · cases hs
    -- at the CPU level no domain is asked about
    unfold sectionStats psciStatsUpdatePwrUp
    refine .still (.of_eq rfl rfl) (fun _ => rfl) ?_ ?_ ?_ <;> dsimp only <;> split
    · rfl
    · split <;> rfl
    · rfl
    · split <;> rfl
    · nofun
    · split <;> nofun
  · cases hs

theorem moves_standbyFinisher (h : Inv cfg sys d) (hc : c < cfg.platformCoreCount)
    (hs : psciSuspendToStandbyFinisher c sys = some sys') :
    Moves cfg d c sys.psci sys'.psci stats (sectionStats cfg plat c .standbyFinisher sys sys' stats) := by
  unfold psciSuspendToStandbyFinisher at hs
  split at hs
  · next e hphase =>
    obtain ⟨hd, he, -⟩ := hphase ▸ h.phase hc
    cases hs
    have hw := psciSetPwrDomainsToRun_spec h.depths.topo hc he
    unfold sectionStats
    simp only [hphase]
    exact .up plat e _ hd.le he hw.tree hw.node hw.other (.of_eq rfl rfl) rfl
  · cases hs

theorem moves_warmboot (h : Inv cfg sys d) (hc : c < cfg.platformCoreCount)
    (hs : psciWarmbootEntrypoint cfg c sys = some sys') :
    Moves cfg d c sys.psci sys'.psci stats (sectionStats cfg plat c .warmboot sys sys' stats) := by
  unfold psciWarmbootEntrypoint at hs
  split at hs
  · next hphase =>
    obtain ⟨hd, he⟩ := h.getPowerOnTargetPwrlvl hc hphase
    split at hs
    · cases hs
    · simp only [Option.some.injEq] at hs
      split at hs <;> subst hs
      · have hw := psciSetPwrDomainsToRun_spec h.depths.topo hc he
        exact .up plat _ _ hd he hw.tree hw.node hw.other hw.tree rfl
      · have hset : SameTree sys.psci (psciSetSuspendPwrlvl c cfg.psciInvalidPwrLvl sys.psci) :=
          .of_eq rfl rfl
        have hw := psciSetPwrDomainsToRun_spec (hset.topology h.depths.topo) hc he
        have htree := hset.trans hw.tree
        have hnode := hw.node
        have hother := hw.other
        simp only [hset.anc] at hnode hother
        exact .up plat _ _ hd he htree hnode hother htree rfl
  · cases hs

theorem Inv.moves {sec : Section} (h : Inv cfg sys d) (hs : Psci.step cfg c sec sys = some sys') :
    c < cfg.platformCoreCount ∧
      Moves cfg d c sys.psci sys'.psci stats (sectionStats cfg plat c sec sys sys' stats) := by
  unfold Psci.step at hs
  split at hs
  · next hc =>
    refine ⟨hc, ?_⟩
    cases sec with
    | cpuOff denied => exact moves_cpuOff h hc hs
    | cpuOffDone =>
      simp only [Psci.psciCpuOffDone] at hs
      split at hs <;> cases hs
      exact .of_quiet (.of_eq rfl rfl) fun _ => rfl
    | cpuSuspend f pd irq => exact moves_cpuSuspend h hc hs
    | standbyExit => exact moves_standbyExit hs
    | standbyFinisher => exact moves_standbyFinisher h hc hs
    | cpuOn target fails =>
      simp only [Psci.psciCpuOnStart] at hs
      split at hs
      · split at hs
        · split at hs <;> cases hs <;> exact .of_quiet (.of_eq rfl rfl) fun _ => rfl
        · cases hs
      · cases hs
    | warmboot => exact moves_warmboot h hc hs
  · cases hs

end Sections

/-! ## The invariant -/

/-- A domain has been in RUN at some time. -/
def StatSystem.HasBeenUp (st : StatSystem) (x : Nat) : Prop :=
  (st.sys.psci.nonCpuPdNodes x).localState = psciLocalStateRun ∨ st.takenOutBy x ≠ none

/-- Array and record agree where the array matters, and no domain has been up without the one above it. -/
structure StatInv (cfg : PlatConfig) (st : StatSystem) (d : Nat → Nat) : Prop where
  inv : Inv cfg st.sys d
  known : ∀ {c l}, c < cfg.platformCoreCount → 1 ≤ l → l ≤ cfg.platMaxPwrLvl →
    (st.sys.psci.nonCpuPdNodes (st.sys.psci.anc l c)).localState ≠ psciLocalStateRun →
      st.stats.lastCpuInNonCpuPd (st.sys.psci.anc l c) = st.takenOutBy (st.sys.psci.anc l c)
  bound : ∀ {x k}, st.takenOutBy x = some k → k < cfg.platformCoreCount
  upper : ∀ {c l}, c < cfg.platformCoreCount → 1 ≤ l → l < cfg.platMaxPwrLvl →
    st.HasBeenUp (st.sys.psci.anc l c) → st.HasBeenUp (st.sys.psci.anc (l + 1) c)

section Invariant

variable {cfg : PlatConfig} {plat : StatPlat} {st : StatSystem} {sys' : System}
  {d : Nat → Nat} {c : Nat} {sec : Section}

section

variable (h : StatInv cfg st d) (hc : c < cfg.platformCoreCount)
include h hc

theorem StatInv.hasBeenUp (h1 : st.HasBeenUp (st.sys.psci.anc 1 c)) {l : Nat} (hl1 : 1 ≤ l)
    (hl : l ≤ cfg.platMaxPwrLvl) : st.HasBeenUp (st.sys.psci.anc l c) := by
  induction l, hl1 using Nat.le_induction with
  | base => exact h1
  | succ l hl1 ih => exact h.upper hc hl1 hl (ih (by omega))

/-- Behind the guard every domain out of RUN was taken out of RUN before, and the array names the CPU. -/
theorem StatInv.last_of_guard {e l : Nat} (he : e ≤ cfg.platMaxPwrLvl)
    (hguard : st.stats.lastCpuInNonCpuPd (st.sys.psci.anc 1 c) ≠ none) (h1 : 1 ≤ l) (hl : l ≤ e)
    (hstates : ∀ l', 1 ≤ l' → l' ≤ l →
      psciGetTargetLocalPwrStates c e st.sys.psci l' ≠ psciLocalStateRun) :
    ∃ cpu, st.stats.lastCpuInNonCpuPd (st.sys.psci.anc l c) = some cpu ∧
      cpu < cfg.platformCoreCount ∧ st.takenOutBy (st.sys.psci.anc l c) = some cpu := by
  have hout : ∀ l', 1 ≤ l' → l' ≤ l →
      (st.sys.psci.nonCpuPdNodes (st.sys.psci.anc l' c)).localState ≠ psciLocalStateRun := by
    intro l' h1' hl'
    rw [← psciGetTargetLocalPwrStates_eq h1' (hl'.trans hl)]
    exact hstates l' h1' hl'
  rw [h.known hc (le_refl 1) (by omega) (hout 1 (le_refl 1) h1)] at hguard
  have hup := h.hasBeenUp hc (Or.inr hguard) h1 (hl.trans he)
  obtain ⟨cpu, hcpu⟩ := Option.ne_none_iff_exists'.mp (hup.resolve_left (hout l h1 (le_refl l)))
  refine ⟨cpu, ?_, h.bound hcpu, hcpu⟩
  rw [h.known hc h1 (hl.trans he) (hout l h1 (le_refl l)), hcpu]

/-- The way up charges only domains whose last CPU was recorded. -/
theorem StatInv.up_spec {e : Nat} (he : e ≤ cfg.platMaxPwrLvl) {t : PsciState}
    (htree : SameTree st.sys.psci t) {out : StatOutcome}
    (hout : out = psciStatsUpdatePwrUp cfg plat c e (psciGetTargetLocalPwrStates c e st.sys.psci) t st.stats) :
    out.failed ≠ some .lastCpu ∧
    (∀ x cpu, (x, cpu) ∈ out.charged →
      cpu < cfg.platformCoreCount ∧ st.takenOutBy x = some cpu) ∧
    ∀ x, (∀ l, 1 ≤ l → l ≤ e → st.sys.psci.anc l c ≠ x) →
      out.stats.lastCpuInNonCpuPd x = st.stats.lastCpuInNonCpuPd x := by
  subst hout
  have ht := htree.topology h.inv.depths.topo
  unfold psciStatsUpdatePwrUp
  split
  · exact ⟨nofun, nofun, fun _ _ => rfl⟩
  · split
    · exact ⟨nofun, nofun, fun _ _ => rfl⟩
    · next hguard =>
      rw [show t.cpuParentNode c = st.sys.psci.anc 1 c from htree.anc 1 c] at hguard
      refine And.imp id (And.imp id fun hother x hx => hother x fun l h1 hl => ?_) (statsUpLoop_spec e _ ?_ ?_)
      · exact fun l l' h1 h2 h3 => ht.anc_ne hc h1 h2 (by omega)
      · intro l h1 hl hstates
        rw [htree.anc]
        exact h.last_of_guard hc he hguard h1 (by omega) hstates
      · rw [htree.anc]
        exact hx l h1 (by omega)

/-- No section fails the assertion, and each domain is charged to the CPU whose section took it out of RUN. -/
theorem StatInv.outcome {out : StatOutcome} (hm : Moves cfg d c st.sys.psci sys'.psci st.stats out) :
    out.failed ≠ some .lastCpu ∧ ∀ x cpu, (x, cpu) ∈ out.charged →
      cpu < cfg.platformCoreCount ∧ st.takenOutBy x = some cpu := by
  cases hm with
  | still tree node last charged failed =>
    refine ⟨failed, fun x cpu hmem => ?_⟩
    rw [charged] at hmem
    exact absurd hmem List.not_mem_nil
  | down e g depth he tree node mono other out_eq =>
    subst out_eq
    exact ⟨nofun, nofun⟩
  | up plat e t depth he tree node other read out_eq =>
    obtain ⟨hfail, hcharged, -⟩ := h.up_spec hc he read out_eq
    exact ⟨hfail, hcharged⟩

end

theorem StatInv.upper_of_same (h : StatInv cfg st d) {st' : StatSystem} (htree : SameTree st.sys.psci st'.sys.psci)
    (hsame : ∀ {c l}, c < cfg.platformCoreCount → 1 ≤ l → l ≤ cfg.platMaxPwrLvl →
      (st'.HasBeenUp (st.sys.psci.anc l c) ↔ st.HasBeenUp (st.sys.psci.anc l c)))
    {c' l : Nat} (hc' : c' < cfg.platformCoreCount) (h1 : 1 ≤ l) (hl : l < cfg.platMaxPwrLvl)
    (hup : st'.HasBeenUp (st'.sys.psci.anc l c')) :
    st'.HasBeenUp (st'.sys.psci.anc (l + 1) c') := by
  rw [htree.anc, hsame hc' h1 hl.le] at hup
  rw [htree.anc, hsame hc' (by omega) hl]
  exact h.upper hc' h1 hl hup

theorem recordTakenOut_of_run {s s' : PsciState} {t : Nat → Option Nat} {x : Nat}
    (h : (s.nonCpuPdNodes x).localState = psciLocalStateRun →
      (s'.nonCpuPdNodes x).localState = psciLocalStateRun) : recordTakenOut c s s' t x = t x :=
  if_neg fun hh => hh.2 (h hh.1)

theorem StatInv.moves (h : StatInv cfg st d) {out : StatOutcome} (hc : c < cfg.platformCoreCount)
    (hm : Moves cfg d c st.sys.psci sys'.psci st.stats out) {d' : Nat → Nat}
    (hinv : Inv cfg sys' d') :
    StatInv cfg ⟨sys', out.stats, recordTakenOut c st.sys.psci sys'.psci st.takenOutBy⟩ d' := by
  have hbound : ∀ {x k}, recordTakenOut c st.sys.psci sys'.psci st.takenOutBy x = some k →
      k < cfg.platformCoreCount := by
    intro x k hx
    unfold recordTakenOut at hx
    split at hx
    · cases hx
      exact hc
    · exact h.bound hx
  cases hm with
  | still tree node last charged failed =>
    have hrec : ∀ x, recordTakenOut c st.sys.psci sys'.psci st.takenOutBy x = st.takenOutBy x :=
      fun x => recordTakenOut_of_run fun hx => (node x).trans hx
    refine ⟨hinv, ?_, hbound, h.upper_of_same tree ?_⟩
    · intro c' l hc' h1 hl hne
      simp only [tree.anc, node] at hne
      simp only [tree.anc, last, hrec]
      exact h.known hc' h1 hl hne
    · intro c' l _ _ _
      simp only [StatSystem.HasBeenUp, node, hrec]
  | down e g depth he tree node mono other out_eq =>
    subst out_eq
    have hrun : ∀ l, 1 ≤ l → l ≤ e →
        (st.sys.psci.nonCpuPdNodes (st.sys.psci.anc l c)).localState = psciLocalStateRun :=
      fun l h1 hl => h.inv.depths.node_run hc h1 (hl.trans he) (by omega)
    have hout : ∀ {x}, (st.sys.psci.nonCpuPdNodes x).localState ≠ psciLocalStateRun →
        (∀ l, 1 ≤ l → l ≤ e → st.sys.psci.anc l c ≠ x) ∧
        recordTakenOut c st.sys.psci sys'.psci st.takenOutBy x = st.takenOutBy x := by
      intro x hx
      exact ⟨fun l h1 hl heq => hx (heq ▸ hrun l h1 hl), recordTakenOut_of_run fun hh => absurd hh hx⟩
    obtain ⟨hset, hother⟩ := statsDownLoop_spec e
      st.stats
    refine ⟨hinv, ?_, hbound, h.upper_of_same tree ?_⟩
    · intro c' l hc' h1 hl hne
      simp only [tree.anc] at hne ⊢
      by_cases hx : ∃ l0, 1 ≤ l0 ∧ l0 ≤ e ∧ st.sys.psci.anc l0 c = st.sys.psci.anc l c'
      · obtain ⟨l0, h10, hl0, heq⟩ := hx
        rw [← heq] at hne ⊢
        have hrec : recordTakenOut c st.sys.psci sys'.psci st.takenOutBy
            (st.sys.psci.anc l0 c) = some c := if_pos ⟨hrun l0 h10 hl0, hne⟩
        rw [node l0 h10 hl0] at hne
        rw [hrec, ← tree.anc]
        exact hset l0 h10 (by omega) fun l' h1' hl' => mono l0 l' h1' hl' hl0 hne
      · have hx' : ∀ l0, 1 ≤ l0 → l0 ≤ e → st.sys.psci.anc l0 c ≠ st.sys.psci.anc l c' :=
          fun l0 h10 hl0 heq => hx ⟨l0, h10, hl0, heq⟩
        rw [other _ hx'] at hne
        rw [(hout hne).2, ← h.known hc' h1 hl hne]
        refine hother _ fun l0 h10 hl0 _ => ?_
        rw [tree.anc]
        exact hx' l0 h10 (by omega)
    · intro c' l _ _ _
      by_cases hx : (st.sys.psci.nonCpuPdNodes (st.sys.psci.anc l c')).localState =
          psciLocalStateRun
      · refine iff_of_true ?_ (Or.inl hx)
        by_cases hx' : (sys'.psci.nonCpuPdNodes (st.sys.psci.anc l c')).localState =
            psciLocalStateRun
        · exact Or.inl hx'
        · have hrec : recordTakenOut c st.sys.psci sys'.psci st.takenOutBy
              (st.sys.psci.anc l c') = some c := if_pos ⟨hx, hx'⟩
          exact Or.inr fun hnone => Option.some_ne_none c (hrec.symm.trans hnone)
      · obtain ⟨hnot, hrec⟩ := hout hx
        simp only [StatSystem.HasBeenUp, hrec, other _ hnot]
  | up plat e t depth he tree node other read out_eq =>
    have hlast := (h.up_spec hc he read out_eq).2.2
    have hrun : ∀ {x}, (st.sys.psci.nonCpuPdNodes x).localState = psciLocalStateRun →
        (sys'.psci.nonCpuPdNodes x).localState = psciLocalStateRun := by
      intro x hx
      by_cases htouched : ∃ l, 1 ≤ l ∧ l ≤ e ∧ st.sys.psci.anc l c = x
      · obtain ⟨l, h1, hl, rfl⟩ := htouched
        exact node l h1 hl
      · rw [other x fun l h1 hl heq => htouched ⟨l, h1, hl, heq⟩]
        exact hx
    have hrec : ∀ x, recordTakenOut c st.sys.psci sys'.psci st.takenOutBy x = st.takenOutBy x :=
      fun x => recordTakenOut_of_run hrun
    refine ⟨hinv, ?_, hbound, ?_⟩
    · intro c' l hc' h1 hl hne
      simp only [tree.anc] at hne ⊢
      have hx : ∀ l0, 1 ≤ l0 → l0 ≤ e → st.sys.psci.anc l0 c ≠ st.sys.psci.anc l c' :=
        fun l0 h10 hl0 heq => hne (heq ▸ node l0 h10 hl0)
      rw [other _ hx] at hne
      rw [hlast _ hx, hrec]
      exact h.known hc' h1 hl hne
    · intro c' l hc' h1 hl hup
      simp only [StatSystem.HasBeenUp, tree.anc, hrec] at hup ⊢
      by_cases hbefore : st.HasBeenUp (st.sys.psci.anc l c')
      · exact (h.upper hc' h1 hl hbefore).imp hrun id
      · -- the domain comes up with the CPU, and so do or did the ones above it
        have hchanged := hup.resolve_right fun hh => hbefore (Or.inr hh)
        have htouched : ∃ l0, 1 ≤ l0 ∧ l0 ≤ e ∧ st.sys.psci.anc l0 c = st.sys.psci.anc l c' := by
          by_contra hnot
          refine hbefore (Or.inl ?_)
          rw [← other _ fun l0 h10 hl0 heq => hnot ⟨l0, h10, hl0, heq⟩]
          exact hchanged
        obtain ⟨l0, h10, hl0, heq⟩ := htouched
        have ht := h.inv.depths.topo
        have hlevel := ht.level h10 (hl0.trans he) hc
        rw [heq, ht.level h1 hl.le hc'] at hlevel
        subst hlevel
        rw [anc_eq_of_le (Nat.le_succ l) heq.symm]
        refine Or.inl ?_
        by_cases hle : l + 1 ≤ e
        · exact node _ (by omega) hle
        · exact hrun (h.inv.depths.node_run hc (by omega) hl (by omega))

theorem StatInv.statStep {st' : StatSystem} (h : StatInv cfg st d)
    (hs : statStep cfg plat c sec st = some st') : ∃ d', StatInv cfg st' d' := by
  obtain ⟨sys', hsys, hs⟩ := Option.bind_eq_some_iff.mp hs
  dsimp only at hs
  split at hs
  · cases hs
    obtain ⟨d', hinv⟩ := h.inv.step hsys
    obtain ⟨hc, hm⟩ := h.inv.moves hsys
    exact ⟨d', h.moves hc hm hinv⟩
  · cases hs

theorem StatInv.statRun (sections : List (Nat × Section × StatPlat)) :
    ∀ {st st' : StatSystem} {d : Nat → Nat}, StatInv cfg st d →
      statRun cfg sections st = some st' → ∃ d', StatInv cfg st' d' := by
  induction sections with
  | nil =>
    intro st st' d h hs
    cases hs
    exact ⟨d, h⟩
  | cons sec rest ih =>
    intro st st' d h hs
    obtain ⟨st1, hst1, hs⟩ := Option.bind_eq_some_iff.mp hs
    obtain ⟨d1, h1⟩ := h.statStep hst1
    exact ih h1 hs

theorem StatInv.of_psciSetup {topology : List UInt8} {bootCpu : Nat} {sys : System}
    (hboot : bootCpu < cfg.platformCoreCount)
    (hs : psciSetup cfg topology bootCpu = some sys) :
    ∃ d, StatInv cfg ⟨sys, .zero, fun _ => none⟩ d := by
  obtain ⟨d, hinv⟩ := Inv.of_psciSetup hboot hs
  refine ⟨d, hinv, fun _ _ _ _ => rfl, nofun, fun {c l} hc h1 hl hup => ?_⟩
  have hrun := hup.resolve_right fun hne => hne rfl
  have hlevel := hinv.depths.topo.level h1 hl.le hc
  obtain ⟨k, rfl⟩ : ∃ k, l = k + 1 := ⟨l - 1, by omega⟩
  exact Or.inl (hinv.neededDomainsRun.parentOfNode _ (by rw [hlevel]; omega) (by rw [hlevel]; exact hl) hrun)

end Invariant

/-- Statistics never fail the assertion on the last CPU: for every topology map that
`populate_power_domain_tree` accepts, every interleaving of sections from `psci_setup` on, and every section
that can follow, each domain that the way up finds out of RUN behind its guard is charged to the CPU whose
section last took it out of RUN. -/
theorem stats_charge_last_cpu (cfg : PlatConfig) (topology : List UInt8) (bootCpu : Nat)
    (hboot : bootCpu < cfg.platformCoreCount) (sections : List (Nat × Section × StatPlat))
    (sys₀ : System) (hsetup : psciSetup cfg topology bootCpu = some sys₀) (st : StatSystem)
    (hrun : statRun cfg sections ⟨sys₀, .zero, fun _ => none⟩ = some st)
    (plat : StatPlat) (c : Nat) (sec : Section) (sys' : System)
    (hstep : step cfg c sec st.sys = some sys') :
    (sectionStats cfg plat c sec st.sys sys' st.stats).failed ≠ some .lastCpu ∧
      ∀ x cpu, (x, cpu) ∈ (sectionStats cfg plat c sec st.sys sys' st.stats).charged →
        cpu < cfg.platformCoreCount ∧ st.takenOutBy x = some cpu := by
  obtain ⟨d₀, h₀⟩ := StatInv.of_psciSetup hboot hsetup
  obtain ⟨d, h⟩ := StatInv.statRun sections h₀ hrun
  obtain ⟨hc, hm⟩ := h.inv.moves hstep
  exact h.outcome hc hm

def stoppedClocks : StatPlat where
  platMaxPwrLvlStates := 2
  getPwrLvlStateIdx := none
  platPsciStatGetResidency := fun _ _ _ => 0

/-- CPU 1 goes down first, then CPU 0; CPU 1 wakes first. -/
def napsBeforeWake : List (Nat × Section × StatPlat) :=
  (clusterNaps.take 4).map fun p => (p.1, p.2, stoppedClocks)

theorem napsBeforeWake_runs :
    ((psciSetup twoClusters [1, 2, 2, 2] 0).bind fun sys0 =>
      (statRun twoClusters napsBeforeWake ⟨sys0, .zero, fun _ => none⟩).bind fun st =>
        (step twoClusters 1 .warmboot st.sys).map fun sys' =>
          (sectionStats twoClusters stoppedClocks 1 .warmboot st.sys sys' st.stats).charged) =
      some [(1, 0)] := by
  decide +kernel

/-- The wake-up of CPU 1 charges the cluster to CPU 0, which took it out of RUN. -/
theorem stats_charge_last_cpu_naps :
    ∃ sys₀ st sys', psciSetup twoClusters [1, 2, 2, 2] 0 = some sys₀ ∧
      statRun twoClusters napsBeforeWake ⟨sys₀, .zero, fun _ => none⟩ = some st ∧
      step twoClusters 1 .warmboot st.sys = some sys' ∧
      (sectionStats twoClusters stoppedClocks 1 .warmboot st.sys sys' st.stats).failed ≠
        some .lastCpu ∧ st.takenOutBy 1 = some 0 := by
  obtain ⟨sys₀, hsetup, hrest⟩ := Option.bind_eq_some_iff.mp napsBeforeWake_runs
  obtain ⟨st, hrun, hrest⟩ := Option.bind_eq_some_iff.mp hrest
  obtain ⟨sys', hstep, hcharged⟩ := Option.map_eq_some_iff.mp hrest
  obtain ⟨hfail, htaken⟩ := stats_charge_last_cpu twoClusters [1, 2, 2, 2] 0 (by decide)
    napsBeforeWake sys₀ hsetup st hrun stoppedClocks 1 .warmboot sys' hstep
  exact ⟨sys₀, st, sys', hsetup, hrun, hstep, hfail,
    (htaken 1 0 (by rw [hcharged]; exact List.mem_singleton_self _)).2⟩

end Armada3720.Psci
