import Armada3720.Psci.Ranges

/-!
# State coordination

A CPU that goes down records its requests level by level, the platform takes the shallowest request of all CPUs
below each node, and the first level that must keep running stops the search. A CPU that comes up sets its
ancestors to run.
-/

namespace Armada3720.Psci

open Function

/-! ## Reads and writes of the arrays -/

def psciSetReqLocalPwrState (pwrlvl cpuIdx : Nat) (reqPwrState : PlatLocalState) (s : PsciState) : PsciState :=
  { s with
    reqLocalPwrStates := Function.update s.reqLocalPwrStates (pwrlvl - 1)
      (Function.update (s.reqLocalPwrStates (pwrlvl - 1)) cpuIdx reqPwrState) }

def psciInitReqLocalPwrStates (cfg : PlatConfig) (s : PsciState) : PsciState :=
  { s with reqLocalPwrStates := fun _ _ => cfg.platMaxOffState }

def setNonCpuPdNodeLocalState (parentIdx : Nat) (state : PlatLocalState) (s : PsciState) :
    PsciState :=
  { s with
    nonCpuPdNodes := Function.update s.nonCpuPdNodes parentIdx
      { s.nonCpuPdNodes parentIdx with localState := state } }

def psciSetCpuLocalState (cpuIdx : Nat) (state : PlatLocalState) (s : PsciState) : PsciState :=
  { s with
    cpuData := Function.update s.cpuData cpuIdx { s.cpuData cpuIdx with localState := state } }

def psciSetAffInfoState (cpuIdx : Nat) (aff : AffInfoState) (s : PsciState) : PsciState :=
  { s with
    cpuData := Function.update s.cpuData cpuIdx { s.cpuData cpuIdx with affInfoState := aff } }

def psciSetSuspendPwrlvl (cpuIdx targetLvl : Nat) (s : PsciState) : PsciState :=
  { s with
    cpuData := Function.update s.cpuData cpuIdx
      { s.cpuData cpuIdx with targetPwrlvl := targetLvl } }

/-- The requests of the CPUs below a node, as `psci_get_req_local_pwr_states` points at them. -/
def reqStates (s : PsciState) (lvl : Nat) (node : NonCpuPdNode) : List PlatLocalState :=
  (List.range node.ncpus).map fun i => s.reqLocalPwrStates (lvl - 1) (node.cpuStartIdx + i)

/-- The default `plat_get_target_pwr_state`. -/
def platGetTargetPwrState (cfg : PlatConfig) (states : List PlatLocalState) : PlatLocalState :=
  states.foldl (fun target temp => if temp < target then temp else target) cfg.platMaxOffState

/-- `psci_power_state_t`: a local state for each level. -/
abbrev PsciPowerState := Nat → PlatLocalState

/-! ## `psci_do_state_coordination` -/

/-- The loop of `psci_set_target_local_pwr_states` over `n` levels from `lvl` on. -/
def setTargetLoop (pdState : PsciPowerState) : (n lvl parentIdx : Nat) → PsciState → PsciState
  | 0, _, _, s => s
  | n + 1, lvl, parentIdx, s =>
    let s' := setNonCpuPdNodeLocalState parentIdx (pdState lvl) s
    setTargetLoop pdState n (lvl + 1) (s'.nonCpuPdNodes parentIdx).parentNode s'

def psciSetTargetLocalPwrStates (cpuIdx endPwrlvl : Nat) (targetState : PsciPowerState) (s : PsciState) : PsciState :=
  setTargetLoop targetState endPwrlvl 1 (s.cpuParentNode cpuIdx) (psciSetCpuLocalState cpuIdx (targetState 0) s)

/-- Above a level that stays in RUN the requests are only recorded. -/
def recordRest (cpuIdx : Nat) : (n lvl : Nat) → PsciPowerState × PsciState →
    PsciPowerState × PsciState
  | 0, _, r => r
  | n + 1, lvl, (stateInfo, s) =>
    recordRest cpuIdx n (lvl + 1) (Function.update stateInfo lvl psciLocalStateRun,
        psciSetReqLocalPwrState lvl cpuIdx (stateInfo lvl) s)

/-- The first loop of `psci_do_state_coordination`, with the second one where it breaks. -/
def coordinateLoop (cfg : PlatConfig) (cpuIdx : Nat) : (n lvl parentIdx : Nat) →
    PsciPowerState × PsciState → PsciPowerState × PsciState
  | 0, _, _, r => r
  | n + 1, lvl, parentIdx, (stateInfo, s) =>
    let s' := psciSetReqLocalPwrState lvl cpuIdx (stateInfo lvl) s
    let targetState := platGetTargetPwrState cfg (reqStates s' lvl (s'.nonCpuPdNodes parentIdx))
    let stateInfo' := Function.update stateInfo lvl targetState
    if targetState = psciLocalStateRun then
      recordRest cpuIdx n (lvl + 1) (stateInfo', s')
    else
      coordinateLoop cfg cpuIdx n (lvl + 1) (s'.nonCpuPdNodes parentIdx).parentNode (stateInfo', s')

def psciDoStateCoordination (cfg : PlatConfig) (cpuIdx endPwrlvl : Nat)
    (stateInfo : PsciPowerState) (s : PsciState) : PsciState :=
  let r := coordinateLoop cfg cpuIdx endPwrlvl 1 (s.cpuParentNode cpuIdx) (stateInfo, s)
  psciSetTargetLocalPwrStates cpuIdx endPwrlvl r.1 r.2

/-! ## `psci_set_pwr_domains_to_run` -/

/-- The loop of `psci_set_pwr_domains_to_run` over `n` levels from `lvl` on. -/
def setToRunLoop (cpuIdx : Nat) : (n lvl parentIdx : Nat) → PsciState → PsciState
  | 0, _, _, s => s
  | n + 1, lvl, parentIdx, s =>
    let s' := psciSetReqLocalPwrState lvl cpuIdx psciLocalStateRun
      (setNonCpuPdNodeLocalState parentIdx psciLocalStateRun s)
    setToRunLoop cpuIdx n (lvl + 1) (s'.nonCpuPdNodes parentIdx).parentNode s'

def psciSetPwrDomainsToRun (cpuIdx endPwrlvl : Nat) (s : PsciState) : PsciState :=
  psciSetCpuLocalState cpuIdx psciLocalStateRun (psciSetAffInfoState cpuIdx .on
      (setToRunLoop cpuIdx endPwrlvl 1 (s.cpuParentNode cpuIdx) s))

/-! ## Suspend requests -/

inductive StateType where
  | run
  | retn
  | off
deriving DecidableEq, Repr

/-- `plat_local_state_type_t` as a number: a deeper type is larger. -/
def StateType.toNat : StateType → Nat
  | .run => 0
  | .retn => 1
  | .off => 2

def findLocalStateType (cfg : PlatConfig) (state : PlatLocalState) : StateType :=
  if state ≠ 0 then (if cfg.platMaxRetState < state then .off else .retn) else .run

def isLocalStateOff (cfg : PlatConfig) (state : PlatLocalState) : Bool :=
  cfg.platMaxRetState < state && state ≤ cfg.platMaxOffState

/-- The search of a level from `i` down, `PSCI_INVALID_PWR_LVL` when there is none. -/
def findLvlFrom (cfg : PlatConfig) (ok : PlatLocalState → Bool) (stateInfo : PsciPowerState) :
    Nat → Nat
  | 0 => if ok (stateInfo 0) then 0 else cfg.psciInvalidPwrLvl
  | i + 1 => if ok (stateInfo (i + 1)) then i + 1 else findLvlFrom cfg ok stateInfo i

def psciFindMaxOffLvl (cfg : PlatConfig) (stateInfo : PsciPowerState) : Nat :=
  findLvlFrom cfg (isLocalStateOff cfg) stateInfo cfg.platMaxPwrLvl

def psciFindTargetSuspendLvl (cfg : PlatConfig) (stateInfo : PsciPowerState) : Nat :=
  findLvlFrom cfg (fun state => state != psciLocalStateRun) stateInfo cfg.platMaxPwrLvl

/-- From level `i` down, no level is shallower than the one above it. -/
def depthsOk (cfg : PlatConfig) (stateInfo : PsciPowerState) (deepest : StateType) : Nat → Bool
  | 0 => deepest.toNat ≤ (findLocalStateType cfg (stateInfo 0)).toNat
  | i + 1 =>
    deepest.toNat ≤ (findLocalStateType cfg (stateInfo (i + 1))).toNat &&
      depthsOk cfg stateInfo (findLocalStateType cfg (stateInfo (i + 1))) i

/-- `psci_validate_suspend_req`, `true` for `PSCI_E_SUCCESS`. -/
def psciValidateSuspendReq (cfg : PlatConfig) (stateInfo : PsciPowerState) (isPowerDownState : Bool) : Bool :=
  let targetLvl := psciFindTargetSuspendLvl cfg stateInfo
  if targetLvl = cfg.psciInvalidPwrLvl then false
  else if !depthsOk cfg stateInfo .run targetLvl then false
  else
    let maxOffLvl := psciFindMaxOffLvl cfg stateInfo
    let maxRetnLvl := if targetLvl ≠ maxOffLvl then targetLvl else cfg.psciInvalidPwrLvl
    !(!isPowerDownState && (maxOffLvl != cfg.psciInvalidPwrLvl || maxRetnLvl == cfg.psciInvalidPwrLvl))

/-! ## The tree is not touched -/

/-- Two states with the same tree, CPU ranges included. -/
structure SameTree (s s' : PsciState) : Prop where
  parent : ∀ i, (s'.nonCpuPdNodes i).parentNode = (s.nonCpuPdNodes i).parentNode
  level : ∀ i, (s'.nonCpuPdNodes i).level = (s.nonCpuPdNodes i).level
  start : ∀ i, (s'.nonCpuPdNodes i).cpuStartIdx = (s.nonCpuPdNodes i).cpuStartIdx
  ncpus : ∀ i, (s'.nonCpuPdNodes i).ncpus = (s.nonCpuPdNodes i).ncpus
  cpuParent : s'.cpuParentNode = s.cpuParentNode

theorem anc_withReqs (s : PsciState) (r : Nat → Nat → PlatLocalState) (l c : Nat) :
    ({ s with reqLocalPwrStates := r } : PsciState).anc l c = s.anc l c := by
  apply anc_eq <;> intro i <;> rfl

theorem SameTree.of_eq {s s' : PsciState} (hnode : s'.nonCpuPdNodes = s.nonCpuPdNodes)
    (hcpu : s'.cpuParentNode = s.cpuParentNode) : SameTree s s' := by
  refine ⟨?_, ?_, ?_, ?_, hcpu⟩ <;> intro i <;> rw [hnode]

section

variable {s s' : PsciState} (h : SameTree s s')
include h

theorem SameTree.trans {s'' : PsciState} (h' : SameTree s' s'') : SameTree s s'' :=
  ⟨fun i => (h'.parent i).trans (h.parent i), fun i => (h'.level i).trans (h.level i),
    fun i => (h'.start i).trans (h.start i), fun i => (h'.ncpus i).trans (h.ncpus i),
    h'.cpuParent.trans h.cpuParent⟩

theorem SameTree.anc (l c : Nat) : s'.anc l c = s.anc l c :=
  anc_eq h.parent (fun i => congrFun h.cpuParent i) l c

theorem SameTree.anc_succ (k c : Nat) :
    s'.anc (k + 1 + 1) c = (s'.nonCpuPdNodes (s.anc (k + 1) c)).parentNode := by
  rw [← h.anc]
  rfl

theorem SameTree.inRange (x c : Nat) : (s'.nonCpuPdNodes x).InRange c ↔ (s.nonCpuPdNodes x).InRange c := by
  rw [NonCpuPdNode.InRange, NonCpuPdNode.InRange, h.start, h.ncpus]

theorem SameTree.topology {cfg : PlatConfig} (ht : Topology cfg s) : Topology cfg s' where
  level := by
    intro l c h1 hl hc
    rw [h.anc, h.level]
    exact ht.level h1 hl hc
  range := by
    intro l c h1 hl hc c'
    rw [h.inRange, h.anc, h.anc]
    exact ht.range h1 hl hc c'

end

theorem SameTree.setLocalState (x : Nat) (state : PlatLocalState) (s : PsciState) :
    SameTree s (setNonCpuPdNodeLocalState x state s) := by
  refine ⟨?_, ?_, ?_, ?_, rfl⟩ <;> intro i <;> by_cases hi : i = x <;>
    simp [setNonCpuPdNodeLocalState, hi]

/-! ## The platform's choice -/

section Target

variable {cfg : PlatConfig}

theorem foldl_min_ne_run (states : List PlatLocalState) :
    ∀ target : PlatLocalState,
      states.foldl (fun target temp => if temp < target then temp else target) target
          ≠ psciLocalStateRun ↔
        target ≠ psciLocalStateRun ∧ ∀ x ∈ states, x ≠ psciLocalStateRun := by
  induction states with
  | nil =>
    intro target
    simp
  | cons x xs ih =>
    intro target
    have hmin : (if x < target then x else target) ≠ psciLocalStateRun ↔
        target ≠ psciLocalStateRun ∧ x ≠ psciLocalStateRun := by
      unfold psciLocalStateRun
      split <;> grind
    rw [List.foldl_cons, ih, hmin, List.forall_mem_cons, and_assoc]

theorem platGetTargetPwrState_ne_run (states : List PlatLocalState) :
    platGetTargetPwrState cfg states ≠ psciLocalStateRun ↔
      ∀ x ∈ states, x ≠ psciLocalStateRun := by
  rw [platGetTargetPwrState, foldl_min_ne_run, and_iff_right cfg.off_ne_run]

theorem mem_reqStates {s : PsciState} {lvl : Nat} {node : NonCpuPdNode} {x : PlatLocalState} :
    x ∈ reqStates s lvl node ↔ ∃ c, node.InRange c ∧ s.reqLocalPwrStates (lvl - 1) c = x := by
  simp only [reqStates, List.mem_map, List.mem_range]
  constructor
  · rintro ⟨i, hi, rfl⟩
    exact ⟨node.cpuStartIdx + i, ⟨by omega, by omega⟩, rfl⟩
  · rintro ⟨c, ⟨hlo, hhi⟩, rfl⟩
    exact ⟨c - node.cpuStartIdx, by omega, by rw [Nat.add_sub_cancel' hlo]⟩

/-- The target state of the ancestor of `c` at level `l`. -/
def targetAt (cfg : PlatConfig) (s : PsciState) (c l : Nat) : PlatLocalState :=
  platGetTargetPwrState cfg (reqStates s l (s.nonCpuPdNodes (s.anc l c)))

theorem targetAt_ne_run {s : PsciState} (ht : Topology cfg s) {c l : Nat} (h1 : 1 ≤ l)
    (hl : l ≤ cfg.platMaxPwrLvl) (hc : c < cfg.platformCoreCount) :
    targetAt cfg s c l ≠ psciLocalStateRun ↔
      ∀ c', c' < cfg.platformCoreCount → s.anc l c' = s.anc l c →
        s.reqLocalPwrStates (l - 1) c' ≠ psciLocalStateRun := by
  rw [targetAt, platGetTargetPwrState_ne_run]
  constructor
  · intro h c' hc' hanc
    exact h _ (mem_reqStates.mpr ⟨c', (ht.range h1 hl hc c').mpr ⟨hc', hanc⟩, rfl⟩)
  · rintro h x hx
    obtain ⟨c', hin, rfl⟩ := mem_reqStates.mp hx
    obtain ⟨hc', hanc⟩ := (ht.range h1 hl hc c').mp hin
    exact h c' hc' hanc

end Target

/-! ## What the loops leave -/

/-- The requests after CPU `c` recorded `f` at the `n` levels from `lvl` on. -/
def recordReqs (c : Nat) (f : PsciPowerState) (lvl n : Nat)
    (req : Nat → Nat → PlatLocalState) : Nat → Nat → PlatLocalState :=
  fun l c' => if c' = c ∧ lvl ≤ l + 1 ∧ l + 1 < lvl + n then f (l + 1) else req l c'

theorem recordReqs_zero (c : Nat) (f : PsciPowerState) (lvl : Nat)
    (req : Nat → Nat → PlatLocalState) : recordReqs c f lvl 0 req = req := by
  funext l c'
  rw [recordReqs, if_neg (by omega)]

theorem recordReqs_succ (c : Nat) {f g : PsciPowerState} {lvl : Nat} (n : Nat)
    (h1 : 1 ≤ lvl) (hfg : ∀ l, lvl < l → g l = f l) (s : PsciState) :
    recordReqs c g (lvl + 1) n (psciSetReqLocalPwrState lvl c (f lvl) s).reqLocalPwrStates =
      recordReqs c f lvl (n + 1) s.reqLocalPwrStates := by
  funext l c'
  simp only [recordReqs, psciSetReqLocalPwrState, update_apply]
  by_cases hc : c' = c
  · subst hc
    rcases Nat.lt_trichotomy (l + 1) lvl with hlt | heq | hgt
    · rw [if_neg (by omega), if_neg (by omega), if_neg (by omega)]
    · subst heq
      rw [if_neg (by omega), if_pos (by omega), if_pos (by omega)]
      exact if_pos rfl
    · by_cases hn : l + 1 < lvl + (n + 1)
      · rw [if_pos (by omega), if_pos (by omega), hfg _ hgt]
      · rw [if_neg (by omega), if_neg (by omega), if_neg (by omega)]
  · simp only [hc, false_and, if_false]
    split
    · next hl =>
      rw [update_apply, if_neg hc, hl]
    · rfl

section Loops

variable {cfg : PlatConfig} {c : Nat}

theorem recordRest_spec (n : Nat) :
    ∀ (lvl : Nat) (f : PsciPowerState) (s : PsciState), 1 ≤ lvl →
      (recordRest c n lvl (f, s)).2 = { s with reqLocalPwrStates := recordReqs c f lvl n s.reqLocalPwrStates } ∧
      (∀ l, l < lvl → (recordRest c n lvl (f, s)).1 l = f l) ∧
      (∀ l, lvl ≤ l → l < lvl + n → (recordRest c n lvl (f, s)).1 l = psciLocalStateRun) := by
  induction n with
  | zero =>
    intro lvl f s _
    refine ⟨?_, fun l _ => rfl, fun l h h' => by omega⟩
    rw [recordReqs_zero]
    rfl
  | succ n ih =>
    intro lvl f s h1
    obtain ⟨hs, hlow, hrun⟩ := ih (lvl + 1) (update f lvl psciLocalStateRun)
      (psciSetReqLocalPwrState lvl c (f lvl) s) (by omega)
    refine ⟨?_, ?_, ?_⟩
    · rw [recordRest, hs, recordReqs_succ c n h1 (fun l hl => update_of_ne (by omega) _ _)]
      rfl
    · intro l hl
      rw [recordRest, hlow l (by omega)]
      exact update_of_ne (by omega) _ _
    · intro l hl hln
      rcases Nat.eq_or_lt_of_le hl with rfl | hlt
      · rw [recordRest, hlow lvl (by omega)]
        exact update_self _ _ _
      · exact hrun l hlt (by omega)

/-- A level leaves RUN when it and every level below it can. -/
structure Negotiated (cfg : PlatConfig) (c : Nat) (f : PsciPowerState) (k n : Nat)
    (s : PsciState) (r : PsciPowerState × PsciState) : Prop where
  state : r.2 = { s with reqLocalPwrStates := recordReqs c f (k + 1) n s.reqLocalPwrStates }
  below : ∀ l, l < k + 1 → r.1 l = f l
  target : ∀ l, k + 1 ≤ l → l < k + 1 + n → (r.1 l ≠ psciLocalStateRun ↔
    ∀ l', k + 1 ≤ l' → l' ≤ l →
      targetAt cfg { s with
        reqLocalPwrStates := recordReqs c f (k + 1) n s.reqLocalPwrStates } c l'
        ≠ psciLocalStateRun)

/-- The negotiation goes up as long as the target of a level is not RUN. -/
theorem coordinateLoop_spec (n : Nat) :
    ∀ {k : Nat} (f : PsciPowerState) (s : PsciState),
      Negotiated cfg c f k n s (coordinateLoop cfg c n (k + 1) (s.anc (k + 1) c) (f, s)) := by
  induction n with
  | zero =>
    intro k f s
    refine ⟨?_, fun l _ => rfl, fun l h h' => by omega⟩
    rw [recordReqs_zero]
    rfl
  | succ n ih =>
    intro k f s
    -- the target computed in this turn is the one of the final requests
    have hrow : recordReqs c f (k + 1) (n + 1) s.reqLocalPwrStates k =
        (psciSetReqLocalPwrState (k + 1) c (f (k + 1)) s).reqLocalPwrStates k := by
      rw [← recordReqs_succ c n (Nat.succ_pos k) (fun l _ => rfl)]
      funext c'
      rw [recordReqs, if_neg (by omega)]
    have htarget : targetAt cfg { s with
          reqLocalPwrStates := recordReqs c f (k + 1) (n + 1) s.reqLocalPwrStates } c (k + 1) =
        platGetTargetPwrState cfg (reqStates (psciSetReqLocalPwrState (k + 1) c (f (k + 1)) s)
          (k + 1) (s.nonCpuPdNodes (s.anc (k + 1) c))) := by
      rw [targetAt, anc_withReqs, reqStates, reqStates, Nat.add_sub_cancel]
      simp only [hrow]
    have hanc : (psciSetReqLocalPwrState (k + 1) c (f (k + 1)) s).anc (k + 1 + 1) c =
        (s.nonCpuPdNodes (s.anc (k + 1) c)).parentNode :=
      anc_withReqs s _ (k + 1 + 1) c
    have hnext : ∀ g : PsciPowerState, (∀ l, k + 1 < l → g l = f l) →
        recordReqs c g (k + 1 + 1) n (psciSetReqLocalPwrState (k + 1) c (f (k + 1)) s).reqLocalPwrStates =
          recordReqs c f (k + 1) (n + 1) s.reqLocalPwrStates :=
      fun g hg => recordReqs_succ c n (Nat.succ_pos k) hg s
    have hupd : ∀ x, ∀ l, k + 1 < l → update f (k + 1) x l = f l :=
      fun x l hl => update_of_ne (by omega) _ _
    unfold coordinateLoop
    simp only
    rw [show (psciSetReqLocalPwrState (k + 1) c (f (k + 1)) s).nonCpuPdNodes = s.nonCpuPdNodes
      from rfl, ← htarget]
    split
    · next hrun =>
      obtain ⟨hs, hlow, hrest⟩ := recordRest_spec n (k + 1 + 1)
        (update f (k + 1) _) (psciSetReqLocalPwrState (k + 1) c (f (k + 1)) s)
        (by omega)
      rw [hnext _ (hupd _)] at hs
      refine ⟨hs, ?_, ?_⟩
      · intro l hl
        rw [hlow l (by omega)]
        exact update_of_ne (by omega) _ _
      · intro l hl hln
        -- this level stays in RUN, so neither side holds
        refine iff_of_false (fun hne => hne ?_) (fun hall => hall (k + 1) (le_refl _) hl hrun)
        rcases Nat.eq_or_lt_of_le hl with rfl | hlt
        · rw [hlow (k + 1) (by omega), update_self, hrun]
        · exact hrest l hlt (by omega)
    · next hrun =>
      obtain ⟨hs, hlow, hrest⟩ := ih (update f (k + 1)
          (targetAt cfg { s with
            reqLocalPwrStates := recordReqs c f (k + 1) (n + 1) s.reqLocalPwrStates } c (k + 1)))
        (psciSetReqLocalPwrState (k + 1) c (f (k + 1)) s)
      rw [hnext _ (hupd _), hanc] at hs hrest
      rw [hanc] at hlow
      refine ⟨hs, ?_, ?_⟩
      · intro l hl
        exact (hlow l (by omega)).trans (update_of_ne (by omega) _ _)
      · intro l hl hln
        rcases Nat.eq_or_lt_of_le hl with rfl | hlt
        · have hval := (hlow (k + 1) (by omega)).trans (update_self _ _ _)
          refine iff_of_true (fun heq => hrun (hval.symm.trans heq)) ?_
          intro l' h1 h2
          obtain rfl : l' = k + 1 := by omega
          exact hrun
        · refine (hrest l hlt (by omega)).trans ⟨fun h l' h1 h2 => ?_, fun h l' h1 h2 => ?_⟩
          · rcases Nat.eq_or_lt_of_le h1 with rfl | hlt'
            · exact hrun
            · exact h l' hlt' h2
          · exact h l' (by omega) h2

/-- What writing the local states of `n` ancestors of `c` from level `k + 1` on leaves. -/
structure NodesSet (c : Nat) (f : PsciPowerState) (k n : Nat) (s s' : PsciState) : Prop where
  tree : SameTree s s'
  cpuData : s'.cpuData = s.cpuData
  set : ∀ l, k + 1 ≤ l → l < k + 1 + n → (s'.nonCpuPdNodes (s.anc l c)).localState = f l
  other : ∀ x, (∀ l, k + 1 ≤ l → l < k + 1 + n → s.anc l c ≠ x) →
    (s'.nonCpuPdNodes x).localState = (s.nonCpuPdNodes x).localState

theorem NodesSet.cons {f : PsciPowerState} {k n : Nat} {s s1 s' : PsciState}
    (hne : ∀ l, k + 1 < l → l < k + 1 + (n + 1) → s.anc l c ≠ s.anc (k + 1) c)
    (htree : SameTree s s1) (hcpu : s1.cpuData = s.cpuData)
    (hnode : s1.nonCpuPdNodes = (setNonCpuPdNodeLocalState (s.anc (k + 1) c) (f (k + 1)) s).nonCpuPdNodes)
    (h : NodesSet c f (k + 1) n s1 s') : NodesSet c f k (n + 1) s s' := by
  have hset := h.set
  have hother := h.other
  simp only [htree.anc, hnode, setNonCpuPdNodeLocalState, update_apply] at hset hother
  refine ⟨htree.trans h.tree, h.cpuData.trans hcpu, ?_, ?_⟩
  · intro l hl hln
    rcases Nat.eq_or_lt_of_le hl with rfl | hlt
    · rw [hother _ fun l' h1 h2 => hne l' (by omega) (by omega), if_pos rfl]
    · exact hset l hlt (by omega)
  · intro x hx
    rw [hother x fun l' h1 h2 => hx l' (by omega) (by omega), if_neg (hx (k + 1) (le_refl _) (by omega)).symm]

/-- Every ancestor up to the end level gets its target state. -/
theorem setTargetLoop_spec {f : PsciPowerState} (n : Nat) :
    ∀ {k : Nat} (s : PsciState), (∀ l l', k + 1 ≤ l → l < l' → l' < k + 1 + n → s.anc l' c ≠ s.anc l c) →
      NodesSet c f k n s (setTargetLoop f n (k + 1) (s.anc (k + 1) c) s) ∧
      (setTargetLoop f n (k + 1) (s.anc (k + 1) c) s).reqLocalPwrStates =
        s.reqLocalPwrStates := by
  induction n with
  | zero =>
    intro k s _
    exact ⟨⟨SameTree.of_eq rfl rfl, rfl, fun l h h' => by omega, fun _ _ => rfl⟩, rfl⟩
  | succ n ih =>
    intro k s hne
    have htree := SameTree.setLocalState (s.anc (k + 1) c) (f (k + 1)) s
    obtain ⟨hset, hreq⟩ := ih (k := k + 1)
      (setNonCpuPdNodeLocalState (s.anc (k + 1) c) (f (k + 1)) s) (by
        intro l l' h1 h2 h3
        rw [htree.anc, htree.anc]
        exact hne l l' (by omega) h2 (by omega))
    rw [htree.anc_succ] at hset hreq
    refine ⟨NodesSet.cons (fun l h1 h2 => hne _ _ (le_refl _) h1 h2) htree rfl rfl hset, ?_⟩
    exact hreq

theorem setToRunLoop_spec (n : Nat) :
    ∀ {k : Nat} (s : PsciState), (∀ l l', k + 1 ≤ l → l < l' → l' < k + 1 + n → s.anc l' c ≠ s.anc l c) →
      NodesSet c (fun _ => psciLocalStateRun) k n s (setToRunLoop c n (k + 1) (s.anc (k + 1) c) s) ∧
      (setToRunLoop c n (k + 1) (s.anc (k + 1) c) s).reqLocalPwrStates =
        recordReqs c (fun _ => psciLocalStateRun) (k + 1) n s.reqLocalPwrStates := by
  induction n with
  | zero =>
    intro k s _
    exact ⟨⟨SameTree.of_eq rfl rfl, rfl, fun l h h' => by omega, fun _ _ => rfl⟩, (recordReqs_zero _ _ _ _).symm⟩
  | succ n ih =>
    intro k s hne
    have htree : SameTree s (psciSetReqLocalPwrState (k + 1) c psciLocalStateRun
        (setNonCpuPdNodeLocalState (s.anc (k + 1) c) psciLocalStateRun s)) :=
      (SameTree.setLocalState (s.anc (k + 1) c) psciLocalStateRun s).trans (SameTree.of_eq rfl rfl)
    obtain ⟨hset, hreq⟩ := ih (k := k + 1) _ (by
      intro l l' h1 h2 h3
      rw [htree.anc, htree.anc]
      exact hne l l' (by omega) h2 (by omega))
    rw [htree.anc_succ] at hset hreq
    rw [recordReqs_succ c n (Nat.succ_pos k) (fun l _ => rfl)] at hreq
    refine ⟨NodesSet.cons (fun l h1 h2 => hne _ _ (le_refl _) h1 h2) htree rfl rfl hset, ?_⟩
    exact hreq

end Loops

/-! ## What the two operations do -/

section Operations

variable {cfg : PlatConfig} {s : PsciState} {c e : Nat}

theorem Topology.anc_ne (ht : Topology cfg s) (hc : c < cfg.platformCoreCount) {l l' : Nat}
    (h1 : 1 ≤ l) (hlt : l < l') (hl' : l' ≤ cfg.platMaxPwrLvl) : s.anc l' c ≠ s.anc l c := by
  intro h
  have hlev := ht.level (show 1 ≤ l' by omega) hl' hc
  rw [h, ht.level h1 (by omega) hc] at hlev
  omega

/-- A node above the CPU leaves RUN when, at its level and at every level below, every CPU below the ancestor
asks for it. -/
structure WentDown (cfg : PlatConfig) (c e : Nat) (f : PsciPowerState) (s s' : PsciState) :
    Prop where
  tree : SameTree s s'
  req : s'.reqLocalPwrStates = recordReqs c f 1 e s.reqLocalPwrStates
  cpuData : s'.cpuData = Function.update s.cpuData c { s.cpuData c with localState := f 0 }
  node : ∀ l, 1 ≤ l → l ≤ e →
    ((s'.nonCpuPdNodes (s.anc l c)).localState ≠ psciLocalStateRun ↔
      ∀ l', 1 ≤ l' → l' ≤ l → ∀ c', c' < cfg.platformCoreCount → s.anc l' c' = s.anc l' c →
        s'.reqLocalPwrStates (l' - 1) c' ≠ psciLocalStateRun)
  other : ∀ x, (∀ l, 1 ≤ l → l ≤ e → s.anc l c ≠ x) →
    (s'.nonCpuPdNodes x).localState = (s.nonCpuPdNodes x).localState

section

variable (ht : Topology cfg s) (hc : c < cfg.platformCoreCount) (he : e ≤ cfg.platMaxPwrLvl)
include ht hc he

theorem WentDown.of_negotiated {f : PsciPowerState} {r : PsciPowerState × PsciState}
    {s' : PsciState} (hneg : Negotiated cfg c f 0 e s r)
    (hset : NodesSet c r.1 0 e (psciSetCpuLocalState c (r.1 0) r.2) s')
    (hreq : s'.reqLocalPwrStates = r.2.reqLocalPwrStates) : WentDown cfg c e f s s' := by
  obtain ⟨target, s1⟩ := r
  obtain ⟨hs, hlow, hneg⟩ := hneg
  subst hs
  have htree : SameTree s (psciSetCpuLocalState c (target 0)
      { s with reqLocalPwrStates := recordReqs c f 1 e s.reqLocalPwrStates }) :=
    SameTree.of_eq rfl rfl
  have htopo : Topology cfg { s with
      reqLocalPwrStates := recordReqs c f 1 e s.reqLocalPwrStates } := by
    refine SameTree.topology ?_ ht
    exact SameTree.of_eq rfl rfl
  have htarget := hset.set
  have hother := hset.other
  simp only [htree.anc] at htarget hother
  refine ⟨htree.trans hset.tree, hreq, ?_, ?_, ?_⟩
  · refine hset.cpuData.trans ?_
    rw [psciSetCpuLocalState, hlow 0 (by omega)]
  · intro l h1 hl
    rw [htarget l (by omega) (by omega), hneg l (by omega) (by omega), hreq]
    refine forall_congr' fun l' => forall_congr' fun h1' => forall_congr' fun hl' => ?_
    rw [targetAt_ne_run htopo h1' (by omega) hc]
    simp only [anc_withReqs]
  · intro x hx
    exact hother x fun l h1 hl => hx l h1 (by omega)

theorem psciDoStateCoordination_nodesSet (f : PsciPowerState) :
    let r := coordinateLoop cfg c e 1 (s.cpuParentNode c) (f, s)
    let s0 := psciSetCpuLocalState c (r.1 0) r.2
    Negotiated cfg c f 0 e s r ∧ SameTree s s0 ∧
      NodesSet c r.1 0 e s0 (psciDoStateCoordination cfg c e f s) ∧
      (psciDoStateCoordination cfg c e f s).reqLocalPwrStates = s0.reqLocalPwrStates := by
  intro r s0
  have hneg : Negotiated cfg c f 0 e s r := coordinateLoop_spec e f s
  have htree : SameTree s s0 := by
    apply SameTree.of_eq <;> rw [show s0 = psciSetCpuLocalState c (r.1 0) r.2 from rfl,
      psciSetCpuLocalState, hneg.state]
  refine ⟨hneg, htree, setTargetLoop_spec e s0 fun l l' h1 h2 h3 => ?_⟩
  rw [htree.anc, htree.anc]
  exact ht.anc_ne hc h1 h2 (by omega)

/-- What a CPU that goes down leaves in its requests and its ancestors. -/
theorem psciDoStateCoordination_spec (f : PsciPowerState) :
    WentDown cfg c e f s (psciDoStateCoordination cfg c e f s) := by
  obtain ⟨hneg, -, hset, hreq⟩ := psciDoStateCoordination_nodesSet ht hc he f
  exact WentDown.of_negotiated ht hc he hneg hset hreq

end

/-- A CPU comes up and sets its ancestors up to level `e` to run. -/
structure CameUp (c e : Nat) (s s' : PsciState) : Prop where
  tree : SameTree s s'
  req : s'.reqLocalPwrStates =
    recordReqs c (fun _ => psciLocalStateRun) 1 e s.reqLocalPwrStates
  cpuData : s'.cpuData = Function.update s.cpuData c
    { affInfoState := .on, targetPwrlvl := (s.cpuData c).targetPwrlvl,
      localState := psciLocalStateRun }
  node : ∀ l, 1 ≤ l → l ≤ e →
    (s'.nonCpuPdNodes (s.anc l c)).localState = psciLocalStateRun
  other : ∀ x, (∀ l, 1 ≤ l → l ≤ e → s.anc l c ≠ x) →
    (s'.nonCpuPdNodes x).localState = (s.nonCpuPdNodes x).localState

/-- What a CPU that comes up leaves there. -/
theorem psciSetPwrDomainsToRun_spec (ht : Topology cfg s) (hc : c < cfg.platformCoreCount)
    (he : e ≤ cfg.platMaxPwrLvl) : CameUp c e s (psciSetPwrDomainsToRun c e s) := by
  obtain ⟨hset, hreq⟩ := setToRunLoop_spec e s (fun l l' h1 h2 h3 => ht.anc_ne hc h1 h2 (by omega))
  refine ⟨hset.tree.trans (SameTree.of_eq rfl rfl), hreq, ?_, ?_, ?_⟩
  · have hcpu := hset.cpuData
    change (setToRunLoop c e 1 (s.cpuParentNode c) s).cpuData = s.cpuData at hcpu
    simp only [psciSetPwrDomainsToRun, psciSetCpuLocalState, psciSetAffInfoState, hcpu, update_self, update_idem]
  · intro l h1 hl
    exact hset.set l h1 (by omega)
  · intro x hx
    exact hset.other x fun l h1 hl => hx l h1 (by omega)

end Operations

/-! ## Accepted suspend requests -/

section Requests

variable {cfg : PlatConfig} {f : PsciPowerState}

/-- A level with the property, or the invalid one. -/
theorem findLvlFrom_spec {ok : PlatLocalState → Bool} (i : Nat) :
    findLvlFrom cfg ok f i = cfg.psciInvalidPwrLvl ∨
      findLvlFrom cfg ok f i ≤ i ∧ ok (f (findLvlFrom cfg ok f i)) = true := by
  induction i with
  | zero =>
    unfold findLvlFrom
    split
    · next h => exact Or.inr ⟨le_refl _, h⟩
    · exact Or.inl rfl
  | succ i ih =>
    unfold findLvlFrom
    split
    · next h => exact Or.inr ⟨le_refl _, h⟩
    · exact ih.imp id fun h => ⟨by omega, h.2⟩

theorem depthsOk_spec (i : Nat) :
    ∀ {deepest : StateType}, depthsOk cfg f deepest i = true →
      ∀ l, l ≤ i → deepest.toNat ≤ (findLocalStateType cfg (f l)).toNat ∧
        (findLocalStateType cfg (f i)).toNat ≤ (findLocalStateType cfg (f l)).toNat := by
  induction i with
  | zero =>
    intro deepest h l hl
    obtain rfl : l = 0 := by omega
    exact ⟨by simpa [depthsOk] using h, le_refl _⟩
  | succ i ih =>
    intro deepest h l hl
    simp only [depthsOk, Bool.and_eq_true, decide_eq_true_eq] at h
    rcases Nat.eq_or_lt_of_le hl with rfl | hlt
    · exact ⟨h.1, le_refl _⟩
    · have hl' := (ih h.2 l (by omega)).1
      exact ⟨by omega, hl'⟩

theorem findLocalStateType_run_iff (state : PlatLocalState) :
    (findLocalStateType cfg state).toNat = 0 ↔ state = psciLocalStateRun := by
  unfold findLocalStateType psciLocalStateRun
  split
  · next h =>
    refine iff_of_false ?_ h
    split <;> decide
  · next h => exact iff_of_true rfl (not_not.mp h)

/-- An accepted request asks for a state deeper than RUN at every level up to its target. -/
theorem psciValidateSuspendReq_spec {isPowerDownState : Bool}
    (h : psciValidateSuspendReq cfg f isPowerDownState = true) :
    psciFindTargetSuspendLvl cfg f ≤ cfg.platMaxPwrLvl ∧
      ∀ l, l ≤ psciFindTargetSuspendLvl cfg f → f l ≠ psciLocalStateRun := by
  unfold psciValidateSuspendReq at h
  simp only at h
  split at h
  · cases h
  · next hvalid =>
    split at h
    · cases h
    · next hdepth =>
      obtain ⟨hle, hne⟩ := (findLvlFrom_spec cfg.platMaxPwrLvl).resolve_left hvalid
      refine ⟨hle, fun l hl hrun => ?_⟩
      rw [Bool.not_eq_true', Bool.not_eq_false] at hdepth
      have hdeep := (depthsOk_spec _ hdepth l hl).2
      rw [(findLocalStateType_run_iff _).mpr hrun, Nat.le_zero, findLocalStateType_run_iff] at hdeep
      exact absurd hdeep (bne_iff_ne.mp hne)

end Requests

end Armada3720.Psci
