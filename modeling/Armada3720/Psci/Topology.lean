import Mathlib

/-!
# The power domain tree

The arrays of `psci_private.h` and the part of `psci_setup` that fills them. A failed assertion and an access
outside an array are `none`. `LevelsDone` says what an accepted map leaves: each level is one run of nodes, and
their parents are the nodes of the level above, in order.
-/

namespace Armada3720.Psci

open Function

/-! ## The arrays -/

/-- `plat_local_state_t`: a larger number is a deeper state. -/
abbrev PlatLocalState := UInt8

def psciLocalStateRun : PlatLocalState := 0

/-- With the assertion that orders the states. The largest node index marks the missing parent. -/
structure PlatConfig where
  platMaxPwrLvl : Nat
  platformCoreCount : Nat
  psciNumNonCpuPwrDomains : Nat
  platMaxRetState : PlatLocalState
  platMaxOffState : PlatLocalState
  numNonCpu_lt : psciNumNonCpuPwrDomains < 0xFFFFFFFF
  ret_lt_off : platMaxRetState < platMaxOffState

def PlatConfig.psciInvalidPwrLvl (cfg : PlatConfig) : Nat := cfg.platMaxPwrLvl + 1

theorem PlatConfig.off_ne_run (cfg : PlatConfig) : cfg.platMaxOffState ≠ psciLocalStateRun := by
  intro h
  have hlt := cfg.ret_lt_off
  rw [h] at hlt
  exact UInt8.not_lt_zero hlt

inductive AffInfoState where
  | on
  | off
  | onPending
deriving DecidableEq, Repr

structure NonCpuPdNode where
  cpuStartIdx : Nat
  ncpus : Nat
  parentNode : Nat
  localState : PlatLocalState
  level : Nat
deriving DecidableEq, Repr

structure PsciCpuData where
  affInfoState : AffInfoState
  targetPwrlvl : Nat
  localState : PlatLocalState
deriving DecidableEq, Repr

/-- Row `l` of `psci_req_local_pwr_states` holds the requests for level `l + 1`. -/
structure PsciState where
  nonCpuPdNodes : Nat → NonCpuPdNode
  cpuParentNode : Nat → Nat
  cpuData : Nat → PsciCpuData
  reqLocalPwrStates : Nat → Nat → PlatLocalState

/-- The arrays before `psci_setup`: zero-initialised memory. -/
def PsciState.zero : PsciState where
  nonCpuPdNodes := fun _ => ⟨0, 0, 0, 0, 0⟩
  cpuParentNode := fun _ => 0
  cpuData := fun _ => ⟨.on, 0, 0⟩
  reqLocalPwrStates := fun _ _ => 0

/-! ## `populate_power_domain_tree` -/

/-- `x - 1` on `unsigned int`. -/
def uintPred (x : Nat) : Nat := if x = 0 then 0xFFFFFFFF else x - 1

/-- What `psci_init_pwr_domain_node` stores for a CPU. -/
def PlatConfig.offCpuData (cfg : PlatConfig) : PsciCpuData :=
  ⟨.off, cfg.psciInvalidPwrLvl, cfg.platMaxOffState⟩

def psciInitPwrDomainNode (cfg : PlatConfig) (nodeIdx parentIdx level : Nat) (s : PsciState) :
    Option PsciState :=
  if 0 < level then
    if nodeIdx < cfg.psciNumNonCpuPwrDomains then
      some { s with
        nonCpuPdNodes := Function.update s.nonCpuPdNodes nodeIdx
          { s.nonCpuPdNodes nodeIdx with
            level := level
            parentNode := parentIdx
            localState := cfg.platMaxOffState } }
    else none
  else if nodeIdx < cfg.platformCoreCount then
    some { s with
      cpuParentNode := Function.update s.cpuParentNode nodeIdx parentIdx
      cpuData := Function.update s.cpuData nodeIdx cfg.offCpuData }
  else none

/-- The loop over the `n` children of one entry, the first at index `j`. -/
def initChildren (cfg : PlatConfig) (level parentIdx : Nat) : (n j : Nat) → PsciState → Option PsciState
  | 0, _, s => some s
  | n + 1, j, s =>
    (psciInitPwrDomainNode cfg j parentIdx level s).bind fun s' =>
      initChildren cfg level parentIdx n (j + 1) s'

/-- The locals of `populate_power_domain_tree`, with the arrays it fills. -/
structure Populate where
  j : Nat
  nodeIndex : Nat
  parentNodeIndex : Nat
  numNodesAtNextLvl : Nat
  arrays : PsciState

/-- The loop over the `n` entries of one level of the topology map. -/
def populateEntries (cfg : PlatConfig) (topology : List UInt8) (level : Nat) : (n : Nat) → Populate → Option Populate
  | 0, p => some p
  | n + 1, p =>
    if p.parentNodeIndex ≤ cfg.psciNumNonCpuPwrDomains then
      topology[p.parentNodeIndex]?.bind fun numChildren =>
        (initChildren cfg level (uintPred p.parentNodeIndex) numChildren.toNat p.nodeIndex
            p.arrays).bind fun arrays =>
          populateEntries cfg topology level n
            { j := p.nodeIndex + numChildren.toNat
              nodeIndex := p.nodeIndex + numChildren.toNat
              parentNodeIndex := p.parentNodeIndex + 1
              numNodesAtNextLvl := p.numNodesAtNextLvl + numChildren.toNat
              arrays := arrays }
    else none

/-- The loop over the levels, downwards from `level`. -/
def populateLevels (cfg : PlatConfig) (topology : List UInt8) :
    (level numNodesAtLvl : Nat) → Populate → Option Populate
  | 0, n, p => populateEntries cfg topology 0 n { p with numNodesAtNextLvl := 0 }
  | level + 1, n, p =>
    (populateEntries cfg topology (level + 1) n { p with numNodesAtNextLvl := 0 }).bind fun p' =>
      populateLevels cfg topology level p'.numNodesAtNextLvl
        -- the CPUs have an array of their own, so their indices start again at 0
        (if level = 0 then { p' with nodeIndex := 0 } else p')

def populatePowerDomainTree (cfg : PlatConfig) (topology : List UInt8) (s : PsciState) :
    Option PsciState :=
  (populateLevels cfg topology cfg.platMaxPwrLvl 1 ⟨0, 0, 0, 0, s⟩).bind fun p =>
    if p.j = cfg.platformCoreCount then some p.arrays else none

/-! ## `psci_update_pwrlvl_limits` -/

/-- The loop of `psci_get_parent_pwr_domain_nodes`: `n` ancestors from `parentNode` on. -/
def parentNodesFrom (cfg : PlatConfig) (s : PsciState) : (n parentNode : Nat) → Option (List Nat)
  | 0, _ => some []
  | n + 1, parentNode =>
    if parentNode < cfg.psciNumNonCpuPwrDomains then
      (parentNodesFrom cfg s n (s.nonCpuPdNodes parentNode).parentNode).map (parentNode :: ·)
    else none

def psciGetParentPwrDomainNodes (cfg : PlatConfig) (s : PsciState) (cpuIdx endLvl : Nat) :
    Option (List Nat) :=
  parentNodesFrom cfg s endLvl (s.cpuParentNode cpuIdx)

/-- `changed` says that the CPU before was counted at another node. -/
def NonCpuPdNode.countCpu (node : NonCpuPdNode) (changed : Bool) (cpuIdx : Nat) : NonCpuPdNode :=
  { node with
    cpuStartIdx := if changed then cpuIdx else node.cpuStartIdx
    ncpus := node.ncpus + 1 }

/-- The inner loop of `psci_update_pwrlvl_limits`, from row `j - 1` down to row 0. -/
def updateLimitsAt (cpuIdx : Nat) (tempIndex : Nat → Nat) :
    (j : Nat) → (Nat → Nat) × PsciState → (Nat → Nat) × PsciState
  | 0, r => r
  | j + 1, (nodesIdx, s) =>
    updateLimitsAt cpuIdx tempIndex j (Function.update nodesIdx j (tempIndex j),
        { s with
          nonCpuPdNodes := Function.update s.nonCpuPdNodes (tempIndex j)
            ((s.nonCpuPdNodes (tempIndex j)).countCpu (tempIndex j != nodesIdx j) cpuIdx) })

/-- The outer loop of `psci_update_pwrlvl_limits`: the next `n` CPUs from `cpuIdx` on. -/
def updateLimitsFrom (cfg : PlatConfig) :
    (n cpuIdx : Nat) → (Nat → Nat) × PsciState → Option ((Nat → Nat) × PsciState)
  | 0, _, r => some r
  | n + 1, cpuIdx, r =>
    (psciGetParentPwrDomainNodes cfg r.2 cpuIdx cfg.platMaxPwrLvl).bind fun tempIndex =>
      updateLimitsFrom cfg n (cpuIdx + 1) (updateLimitsAt cpuIdx (fun j => tempIndex.getD j 0) cfg.platMaxPwrLvl r)

def psciUpdatePwrlvlLimits (cfg : PlatConfig) (s : PsciState) : Option PsciState :=
  (updateLimitsFrom cfg cfg.platformCoreCount 0 (fun _ => 0, s)).map Prod.snd

/-- The part of `psci_setup` that builds the tree. -/
def psciSetupTree (cfg : PlatConfig) (topology : List UInt8) : Option PsciState :=
  (populatePowerDomainTree cfg topology .zero).bind (psciUpdatePwrlvlLimits cfg)

/-! ## What one level looks like after it is populated -/

/-- The parent of a node: level 0 is the array of the CPUs. -/
def PsciState.parentOf (s : PsciState) : (level i : Nat) → Nat
  | 0, i => s.cpuParentNode i
  | _ + 1, i => (s.nonCpuPdNodes i).parentNode

/-- Node `i` of a level is as `psci_init_pwr_domain_node` leaves it. -/
def PsciState.Initialised (cfg : PlatConfig) (s : PsciState) : (level i : Nat) → Prop
  | 0, i => i < cfg.platformCoreCount ∧ s.cpuData i = cfg.offCpuData
  | l + 1, i => i < cfg.psciNumNonCpuPwrDomains ∧ (s.nonCpuPdNodes i).level = l + 1

/-- Only the nodes `a .. b - 1` of a level differ. -/
structure Frame (level a b : Nat) (s s' : PsciState) : Prop where
  nonCpu : ∀ i, level = 0 ∨ i < a ∨ b ≤ i → s'.nonCpuPdNodes i = s.nonCpuPdNodes i
  cpu : ∀ i, 0 < level ∨ i < a ∨ b ≤ i →
    s'.cpuParentNode i = s.cpuParentNode i ∧ s'.cpuData i = s.cpuData i
  limits : ∀ i, (s'.nonCpuPdNodes i).cpuStartIdx = (s.nonCpuPdNodes i).cpuStartIdx ∧
    (s'.nonCpuPdNodes i).ncpus = (s.nonCpuPdNodes i).ncpus

/-- Every node that has a level is off. -/
def PsciState.NodesOff (cfg : PlatConfig) (s : PsciState) : Prop :=
  ∀ i, (s.nonCpuPdNodes i).level ≠ 0 → (s.nonCpuPdNodes i).localState = cfg.platMaxOffState

section Populate

variable {cfg : PlatConfig} {topology : List UInt8} {level : Nat}

theorem Frame.refl (a : Nat) (s : PsciState) : Frame level a a s s where
  nonCpu := fun _ _ => rfl
  cpu := fun _ _ => ⟨rfl, rfl⟩
  limits := fun _ => ⟨rfl, rfl⟩

variable {a b : Nat} {s s' : PsciState}

theorem Frame.trans {c : Nat} {s'' : PsciState} (hab : a ≤ b) (hbc : b ≤ c)
    (h : Frame level a b s s') (h' : Frame level b c s' s'') : Frame level a c s s'' where
  nonCpu := fun i hi => (h'.nonCpu i (by omega)).trans (h.nonCpu i (by omega))
  cpu := fun i hi =>
    ⟨(h'.cpu i (by omega)).1.trans (h.cpu i (by omega)).1, (h'.cpu i (by omega)).2.trans (h.cpu i (by omega)).2⟩
  limits := fun i =>
    ⟨(h'.limits i).1.trans (h.limits i).1, (h'.limits i).2.trans (h.limits i).2⟩

theorem Frame.parentOf {i : Nat} (h : Frame level a b s s') (hi : i < a ∨ b ≤ i) :
    s'.parentOf level i = s.parentOf level i := by
  cases level with
  | zero => exact (h.cpu i (Or.inr hi)).1
  | succ l => exact congrArg NonCpuPdNode.parentNode (h.nonCpu i (Or.inr hi))

theorem Frame.initialised {i : Nat} (h : Frame level a b s s') (hi : i < a ∨ b ≤ i)
    (hs : s.Initialised cfg level i) : s'.Initialised cfg level i := by
  cases level with
  | zero => exact ⟨hs.1, (h.cpu i (Or.inr hi)).2.trans hs.2⟩
  | succ l => exact ⟨hs.1, (congrArg NonCpuPdNode.level (h.nonCpu i (Or.inr hi))).trans hs.2⟩

/-- One node gets its parent and its level; the others stay. -/
theorem psciInitPwrDomainNode_spec {j parentIdx : Nat} (h : psciInitPwrDomainNode cfg j parentIdx level s = some s') :
    Frame level j (j + 1) s s' ∧ s'.Initialised cfg level j ∧
      s'.parentOf level j = parentIdx ∧ (s.NodesOff cfg → s'.NodesOff cfg) := by
  unfold psciInitPwrDomainNode at h
  split at h
  · next hl =>
    obtain ⟨l, rfl⟩ := Nat.exists_eq_succ_of_ne_zero (Nat.pos_iff_ne_zero.mp hl)
    split at h
    · next hj =>
      cases h
      refine ⟨⟨?_, ?_, ?_⟩, ⟨hj, ?_⟩, ?_, ?_⟩
      · intro i hi
        exact update_of_ne (by omega) _ _
      · intro i _
        exact ⟨rfl, rfl⟩
      · intro i
        by_cases hij : i = j
        · subst hij
          simp
        · simp only [update_of_ne hij, and_self]
      · simp
      · simp only [PsciState.parentOf, update_self]
      · intro hoff i
        by_cases hij : i = j
        · subst hij
          simp
        · simp only [update_of_ne hij]
          exact hoff i
    · cases h
  · next hl =>
    obtain rfl : level = 0 := by omega
    split at h
    · next hj =>
      cases h
      refine ⟨⟨fun _ _ => rfl, ?_, fun _ => ⟨rfl, rfl⟩⟩, ⟨hj, ?_⟩, ?_, fun hoff => hoff⟩
      · intro i hi
        have hij : i ≠ j := by omega
        exact ⟨update_of_ne hij _ _, update_of_ne hij _ _⟩
      · exact update_self _ _ _
      · exact update_self _ _ _
    · cases h

/-- The children of a node are numbered one after the other. -/
theorem initChildren_spec {parentIdx : Nat} (n : Nat) :
    ∀ {j : Nat} {s s' : PsciState}, initChildren cfg level parentIdx n j s = some s' →
      Frame level j (j + n) s s' ∧
      (∀ i, j ≤ i → i < j + n →
        s'.Initialised cfg level i ∧ s'.parentOf level i = parentIdx) ∧
      (s.NodesOff cfg → s'.NodesOff cfg) := by
  induction n with
  | zero =>
    intro j s s' h
    cases h
    exact ⟨Frame.refl j s, fun i hi hi' => by omega, fun hoff => hoff⟩
  | succ n ih =>
    intro j s s' h
    obtain ⟨s1, h1, h⟩ := Option.bind_eq_some_iff.mp h
    obtain ⟨hframe, hinit, hparent, hoff⟩ := psciInitPwrDomainNode_spec h1
    obtain ⟨hframe', hall, hoff'⟩ := ih h
    rw [show j + 1 + n = j + (n + 1) by omega] at hframe' hall
    refine ⟨hframe.trans (by omega) (by omega) hframe', ?_, fun h => hoff' (hoff h)⟩
    intro i hi hi'
    rcases Nat.eq_or_lt_of_le hi with rfl | hlt
    · exact ⟨hframe'.initialised (Or.inl (by omega)) hinit, (hframe'.parentOf (Or.inl (by omega))).trans hparent⟩
    · exact hall i (by omega) hi'

/-- The parents of the `m` nodes from index `a` on are the `n` entries from `q` on of the map, in order. -/
structure LevelOk (cfg : PlatConfig) (s : PsciState) (level a m q n : Nat) : Prop where
  node : ∀ i, a ≤ i → i < a + m → s.Initialised cfg level i ∧
    ∃ e, q ≤ e ∧ e < q + n ∧ s.parentOf level i = uintPred e
  sorted : ∀ i i', a ≤ i → i ≤ i' → i' < a + m → s.parentOf level i ≤ s.parentOf level i'

theorem LevelOk.of_same {m q n : Nat} (hlevel : 0 < level) (h : LevelOk cfg s level a m q n)
    (hsame : ∀ i, i < a + m → s'.nonCpuPdNodes i = s.nonCpuPdNodes i) :
    LevelOk cfg s' level a m q n := by
  obtain ⟨l, rfl⟩ : ∃ l, level = l + 1 := ⟨level - 1, by omega⟩
  refine ⟨?_, ?_⟩
  · intro i hi hi'
    simp only [PsciState.Initialised, PsciState.parentOf, hsame i hi']
    exact h.node i hi hi'
  · intro i i' hi hii hi'
    simp only [PsciState.parentOf, hsame i (by omega), hsame i' hi']
    exact h.sorted i i' hi hii hi'

theorem uintPred_le {x y : Nat} (hx : 0 < x) (hxy : x ≤ y) : uintPred x ≤ uintPred y := by
  unfold uintPred
  rw [if_neg (by omega), if_neg (by omega)]
  omega

/-- What the loop over the entries of a level does: `m` nodes are appended. -/
structure EntriesDone (cfg : PlatConfig) (level n m : Nat) (p p' : Populate) : Prop where
  nodeIndex : p'.nodeIndex = p.nodeIndex + m
  numNext : p'.numNodesAtNextLvl = p.numNodesAtNextLvl + m
  parentNodeIndex : p'.parentNodeIndex = p.parentNodeIndex + n
  j_none : n = 0 → m = 0 ∧ p'.j = p.j
  j_some : 0 < n → p'.j = p'.nodeIndex
  frame : Frame level p.nodeIndex (p.nodeIndex + m) p.arrays p'.arrays
  level : LevelOk cfg p'.arrays level p.nodeIndex m p.parentNodeIndex n
  off : p.arrays.NodesOff cfg → p'.arrays.NodesOff cfg

/-- The entries of one level make the nodes of the next. -/
theorem populateEntries_spec (n : Nat) :
    ∀ {p p' : Populate}, populateEntries cfg topology level n p = some p' →
      0 < p.parentNodeIndex ∨ n ≤ 1 → ∃ m, EntriesDone cfg level n m p p' := by
  induction n with
  | zero =>
    intro p p' h _
    cases h
    refine ⟨0, rfl, rfl, rfl, fun _ => ⟨rfl, rfl⟩, fun h => by omega, Frame.refl _ _, ⟨?_, ?_⟩, id⟩
    · intro i hi hi'
      omega
    · intro i i' hi hii hi'
      omega
  | succ n ih =>
    intro p p' h hq
    unfold populateEntries at h
    split at h
    · obtain ⟨k, -, h⟩ := Option.bind_eq_some_iff.mp h
      obtain ⟨s1, h1, h⟩ := Option.bind_eq_some_iff.mp h
      obtain ⟨hframe, hall, hoff⟩ := initChildren_spec k.toNat h1
      obtain ⟨m, hd⟩ := ih h (Or.inl (Nat.succ_pos _))
      have hnode := hd.nodeIndex
      have hnext := hd.numNext
      have hpar := hd.parentNodeIndex
      have hframe' := hd.frame
      have hlevel := hd.level
      simp only at hnode hnext hpar hframe' hlevel
      have hfirst : ∀ i, p.nodeIndex ≤ i → i < p.nodeIndex + k.toNat →
          p'.arrays.Initialised cfg level i ∧
            p'.arrays.parentOf level i = uintPred p.parentNodeIndex := by
        intro i hi hi'
        obtain ⟨hinit, hparent⟩ := hall i hi hi'
        exact ⟨hframe'.initialised (Or.inl hi') hinit, (hframe'.parentOf (Or.inl hi')).trans hparent⟩
      refine ⟨k.toNat + m, by omega, by omega, by omega, fun h => by omega, ?_, ?_, ⟨?_, ?_⟩,
        fun h => hd.off (hoff h)⟩
      · intro _
        rcases Nat.eq_zero_or_pos n with hn | hn
        · have := (hd.j_none hn).1
          rw [(hd.j_none hn).2, hnode, this]
          rfl
        · exact hd.j_some hn
      · rw [← Nat.add_assoc]
        exact hframe.trans (by omega) (by omega) hframe'
      · intro i hi hi'
        rcases Nat.lt_or_ge i (p.nodeIndex + k.toNat) with hlt | hge
        · exact ⟨(hfirst i hi hlt).1, _, le_refl _, by omega, (hfirst i hi hlt).2⟩
        · obtain ⟨hinit, e, he, he', hparent⟩ := hlevel.node i hge (by omega)
          exact ⟨hinit, e, by omega, by omega, hparent⟩
      · intro i i' hi hii hi'
        rcases Nat.lt_or_ge i' (p.nodeIndex + k.toNat) with hlt' | hge'
        · rw [(hfirst i hi (by omega)).2, (hfirst i' (by omega) hlt').2]
        · rcases Nat.lt_or_ge i (p.nodeIndex + k.toNat) with hlt | hge
          · obtain ⟨-, e, he, he', hparent⟩ := hlevel.node i' hge' (by omega)
            rw [(hfirst i hi hlt).2, hparent]
            exact uintPred_le (by omega) (by omega)
          · exact hlevel.sorted i i' hge hii (by omega)
    · cases h

/-- Entry `e` describes the children of node `e - 1`, and the CPUs are numbered from 0. -/
def firstNode (ent : Nat → Nat) (level : Nat) : Nat := if level = 0 then 0 else ent level - 1

/-- The nodes of level `l` are `cnt l` many, and `ent l` is the entry of the first of them. -/
structure LevelsDone (cfg : PlatConfig) (level : Nat) (ent cnt : Nat → Nat) (p p' : Populate) :
    Prop where
  ent_top : ent (level + 1) = p.parentNodeIndex
  ent_pos : ∀ l, 1 ≤ l → l ≤ level → 0 < ent l
  levels : ∀ l, l ≤ level →
    LevelOk cfg p'.arrays l (firstNode ent l) (cnt l) (ent (l + 1)) (cnt (l + 1))
  j_some : 0 < cnt 1 → p'.j = cnt 0
  j_none : cnt (level + 1) = 0 → p'.j = p.j
  j_empty : 0 < level → 0 < cnt (level + 1) → cnt level = 0 → p'.j = p.nodeIndex
  first : 0 < level → firstNode ent level = p.nodeIndex
  nonCpu : ∀ i, level = 0 ∨ i < p.nodeIndex →
    p'.arrays.nonCpuPdNodes i = p.arrays.nonCpuPdNodes i
  cpu : ∀ i, cnt 0 ≤ i → p'.arrays.cpuParentNode i = p.arrays.cpuParentNode i
  cpus : cnt 1 = 0 → cnt 0 = 0
  limits : ∀ i, (p'.arrays.nonCpuPdNodes i).cpuStartIdx = (p.arrays.nonCpuPdNodes i).cpuStartIdx ∧
    (p'.arrays.nonCpuPdNodes i).ncpus = (p.arrays.nonCpuPdNodes i).ncpus
  off : p.arrays.NodesOff cfg → p'.arrays.NodesOff cfg

/-- Level by level, down to the CPUs. -/
theorem populateLevels_spec (level : Nat) :
    ∀ {n : Nat} {p p' : Populate}, populateLevels cfg topology level n p = some p' →
      0 < p.parentNodeIndex ∨ n ≤ 1 → (level = 0 → p.nodeIndex = 0) →
      (0 < level → p.nodeIndex + 1 = p.parentNodeIndex + n) →
      ∃ ent cnt : Nat → Nat, cnt (level + 1) = n ∧ LevelsDone cfg level ent cnt p p' := by
  induction level with
  | zero =>
    intro n p p' h hq hidx _
    obtain ⟨m, hd⟩ := populateEntries_spec n h hq
    have hnode := hd.nodeIndex
    have hframe := hd.frame
    have hlevel := hd.level
    simp only [hidx, Nat.zero_add] at hnode hframe hlevel
    refine ⟨fun _ => p.parentNodeIndex, fun l => if l = 0 then m else n, rfl, rfl,
      fun l h h' => by omega, ?_, ?_, fun h => (hd.j_none h).2, fun h => by omega,
      fun h => by omega, ?_, ?_, ?_, hd.frame.limits, hd.off⟩
    · intro l hl
      obtain rfl : l = 0 := by omega
      exact hlevel
    · intro hn
      exact (hd.j_some hn).trans hnode
    · intro i _
      exact hframe.nonCpu i (Or.inl rfl)
    · intro i hi
      exact (hframe.cpu i (Or.inr (Or.inr hi))).1
    · intro hn
      exact (hd.j_none hn).1
  | succ level ih =>
    intro n p p' h hq _ hidx
    obtain ⟨p1, h₁, h⟩ := Option.bind_eq_some_iff.mp h
    obtain ⟨m, hd⟩ := populateEntries_spec n h₁ hq
    have hnode := hd.nodeIndex
    have hnext := hd.numNext
    have hpar := hd.parentNodeIndex
    have hframe := hd.frame
    have hlevel := hd.level
    simp only [Nat.zero_add] at hnode hnext hpar hframe hlevel
    -- resetting the index changes neither the arrays nor the other locals
    have hreset : ∃ p2 : Populate, p2.arrays = p1.arrays ∧ p2.j = p1.j ∧
        p2.parentNodeIndex = p1.parentNodeIndex ∧
        p2.nodeIndex = (if level = 0 then 0 else p1.nodeIndex) ∧
        populateLevels cfg topology level p1.numNodesAtNextLvl p2 = some p' := by
      refine ⟨_, ?_, ?_, ?_, ?_, h⟩ <;> split <;> rfl
    obtain ⟨p2, harr, hj, hpar2, hnode2, h₂⟩ := hreset
    obtain ⟨ent, cnt, hcnt, hl⟩ := ih h₂ (Or.inl (by omega)) (fun hl => by rw [hnode2, if_pos hl])
      (fun hl => by rw [hnode2, if_neg (by omega)]; omega)
    have htop := hl.ent_top
    have hsame : ∀ i, i < p.nodeIndex + m →
        p'.arrays.nonCpuPdNodes i = p1.arrays.nonCpuPdNodes i := by
      intro i hi
      rw [← harr]
      refine hl.nonCpu i ?_
      rw [hnode2]
      split <;> omega
    have hent : ∀ l, l ≤ level + 1 → update ent (level + 2) p.parentNodeIndex l = ent l :=
      fun l hl => update_of_ne (by omega) _ _
    have hcnts : ∀ l, l ≤ level + 1 → update cnt (level + 2) n l = cnt l :=
      fun l hl => update_of_ne (by omega) _ _
    refine ⟨update ent (level + 2) p.parentNodeIndex, update cnt (level + 2) n,
      update_self _ _ _, update_self _ _ _, ?_, ?_, ?_, ?_, ?_, ?_, ?_, ?_, ?_,
      ?_, ?_⟩
    · intro l h1 hle
      rw [hent l hle]
      rcases Nat.eq_or_lt_of_le hle with rfl | hlt
      · omega
      · exact hl.ent_pos l h1 (by omega)
    · intro l hle
      rw [firstNode, hent l hle, hcnts l hle]
      rcases Nat.eq_or_lt_of_le hle with rfl | hlt
      · rw [update_self, update_self, if_neg (by omega), htop, hcnt,
          show p2.parentNodeIndex - 1 = p.nodeIndex by omega, hnext]
        exact hlevel.of_same (Nat.succ_pos level) hsame
      · rw [hent (l + 1) (by omega), hcnts (l + 1) (by omega)]
        exact hl.levels l (by omega)
    · exact hl.j_some
    · intro hn
      rw [update_self] at hn
      rw [hl.j_none (by rw [hcnt, hnext, (hd.j_none hn).1]), hj, (hd.j_none hn).2]
    · intro _ hn hempty
      rw [update_self] at hn
      rw [hcnts _ (le_refl _)] at hempty
      rw [hl.j_none hempty, hj, hd.j_some hn]
      omega
    · intro _
      rw [firstNode, if_neg (by omega), hent _ (le_refl _)]
      omega
    · intro i hi
      rw [hsame i (by omega)]
      exact hframe.nonCpu i (by omega)
    · intro i hi
      rw [hl.cpu i hi, harr]
      exact (hframe.cpu i (Or.inl (Nat.succ_pos level))).1
    · exact hl.cpus
    · intro i
      have h1 := hl.limits i
      have h2 := hframe.limits i
      rw [harr] at h1
      exact ⟨h1.1.trans h2.1, h1.2.trans h2.2⟩
    · intro hoff
      exact hl.off (harr ▸ hd.off hoff)

end Populate

end Armada3720.Psci
