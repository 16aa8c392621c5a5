import Armada3720.Psci.Topology

/-!
# Which CPUs are below a node

A non-CPU node carries the range of CPUs below it. It is filled CPU by CPU, and is right because a breadth-first
numbering keeps the ancestors at each level in the order of the CPUs.

The ancestors are first read off the arrays (`Ordered`); then each CPU that is counted widens the ranges of its own
ancestors and of no other node (`Counted.step`). Every map that `psci_setup` accepts leads to such arrays, a node
without CPUs included, whose range stays empty (`psciSetupTree_topology`). What the map means as a tree is not
said here.
-/

namespace Armada3720.Psci

open Function

/-! ## Ancestors -/

/-- The ancestor of a CPU at a level; the CPU itself at level 0. -/
def PsciState.anc (s : PsciState) : (level cpu : Nat) → Nat
  | 0, c => c
  | l + 1, c => s.parentOf l (s.anc l c)

/-- The CPU ranges of the nodes may differ. -/
structure SameShape (s s' : PsciState) : Prop where
  parent : ∀ i, (s'.nonCpuPdNodes i).parentNode = (s.nonCpuPdNodes i).parentNode
  level : ∀ i, (s'.nonCpuPdNodes i).level = (s.nonCpuPdNodes i).level
  localState : ∀ i, (s'.nonCpuPdNodes i).localState = (s.nonCpuPdNodes i).localState
  cpuParent : s'.cpuParentNode = s.cpuParentNode
  cpuData : s'.cpuData = s.cpuData

theorem anc_eq {s s' : PsciState} (hnode : ∀ i, (s'.nonCpuPdNodes i).parentNode = (s.nonCpuPdNodes i).parentNode)
    (hcpu : ∀ i, s'.cpuParentNode i = s.cpuParentNode i) (l c : Nat) :
    s'.anc l c = s.anc l c := by
  induction l with
  | zero => rfl
  | succ l ih =>
    simp only [PsciState.anc, ih]
    cases l with
    | zero => exact hcpu _
    | succ l => exact hnode _

theorem SameShape.anc {s s' : PsciState} (h : SameShape s s') (l c : Nat) :
    s'.anc l c = s.anc l c :=
  anc_eq h.parent (fun i => congrFun h.cpuParent i) l c

theorem SameShape.refl (s : PsciState) : SameShape s s :=
  ⟨fun _ => rfl, fun _ => rfl, fun _ => rfl, rfl, rfl⟩

theorem SameShape.trans {s s' s'' : PsciState} (h : SameShape s s') (h' : SameShape s' s'') :
    SameShape s s'' :=
  ⟨fun i => (h'.parent i).trans (h.parent i), fun i => (h'.level i).trans (h.level i),
    fun i => (h'.localState i).trans (h.localState i), h'.cpuParent.trans h.cpuParent,
    h'.cpuData.trans h.cpuData⟩

/-- At every level the ancestors of the CPUs are nodes of that level, in the order of the
CPUs. -/
structure Ordered (cfg : PlatConfig) (s : PsciState) : Prop where
  level : ∀ {l c}, 1 ≤ l → l ≤ cfg.platMaxPwrLvl → c < cfg.platformCoreCount →
    (s.nonCpuPdNodes (s.anc l c)).level = l
  mono : ∀ {l c c'}, l ≤ cfg.platMaxPwrLvl → c ≤ c' → c' < cfg.platformCoreCount →
    s.anc l c ≤ s.anc l c'

section Ancestors

variable {cfg : PlatConfig} {topology : List UInt8} {s : PsciState}

variable {c : Nat} {cnt ent : Nat → Nat} {p p' : Populate}

theorem LevelsDone.anc_mem {level : Nat} (h : LevelsDone cfg level ent cnt p p') (hc : c < cnt 0)
    (l : Nat) (hl : l ≤ level) :
    firstNode ent l ≤ p'.arrays.anc l c ∧ p'.arrays.anc l c < firstNode ent l + cnt l := by
  induction l with
  | zero =>
    simp only [firstNode, if_true, PsciState.anc]
    omega
  | succ l ih =>
    obtain ⟨hlo, hhi⟩ := ih (by omega)
    obtain ⟨-, e, he, he', hparent⟩ := (h.levels l (by omega)).node _ hlo hhi
    have hpos := h.ent_pos (l + 1) (by omega) hl
    simp only [PsciState.anc, hparent, firstNode, uintPred]
    rw [if_neg (by omega), if_neg (by omega)]
    omega

theorem LevelsDone.anc_mono {level : Nat} (h : LevelsDone cfg level ent cnt p p') {c' : Nat}
    (hcc : c ≤ c') (hc : c' < cnt 0) (l : Nat) (hl : l ≤ level) :
    p'.arrays.anc l c ≤ p'.arrays.anc l c' := by
  induction l with
  | zero => exact hcc
  | succ l ih =>
    exact (h.levels l (by omega)).sorted _ _ (h.anc_mem (by omega) l (by omega)).1
      (ih (by omega)) (h.anc_mem hc l (by omega)).2

/-- The numbering keeps the order of the CPUs at every level. -/
theorem LevelsDone.ordered (h : LevelsDone cfg cfg.platMaxPwrLvl ent cnt p p')
    (hcnt : cnt 0 = cfg.platformCoreCount) : Ordered cfg p'.arrays where
  level := by
    intro l c h1 hl hc
    obtain ⟨k, rfl⟩ : ∃ k, l = k + 1 := ⟨l - 1, by omega⟩
    obtain ⟨hlo, hhi⟩ := h.anc_mem (hcnt ▸ hc) (k + 1) hl
    exact ((h.levels (k + 1) hl).node _ hlo hhi).1.2
  mono := by
    intro l c c' hl hcc hc
    exact h.anc_mono hcc (hcnt ▸ hc) l hl

/-- The walk up from a CPU passes its ancestors. -/
theorem parentNodesFrom_anc (n : Nat) :
    ∀ {l : Nat} {xs : List Nat}, parentNodesFrom cfg s n (s.anc (l + 1) c) = some xs →
      ∀ j, j < n → xs.getD j 0 = s.anc (l + 1 + j) c := by
  induction n with
  | zero =>
    intro l xs _ j hj
    omega
  | succ n ih =>
    intro l xs h j hj
    unfold parentNodesFrom at h
    split at h
    · obtain ⟨ys, hys, rfl⟩ := Option.map_eq_some_iff.mp h
      cases j with
      | zero => rfl
      | succ j =>
        have hanc := ih (l := l + 1) hys j (by omega)
        rw [List.getD_cons_succ, hanc]
        congr 1
        omega
    · cases h

/-- An accepted map has a node at level 1: otherwise CPU 0 would have kept the parent 0, and the walk up from it
leaves the array. -/
theorem populate_counts_cpus {xs : List Nat}
    (hp : populateLevels cfg topology cfg.platMaxPwrLvl 1 ⟨0, 0, 0, 0, .zero⟩ = some p')
    (hj : p'.j = cfg.platformCoreCount) (hpos : 0 < cfg.platformCoreCount)
    (hwalk : psciGetParentPwrDomainNodes cfg p'.arrays 0 cfg.platMaxPwrLvl = some xs) :
    ∃ ent cnt, LevelsDone cfg cfg.platMaxPwrLvl ent cnt ⟨0, 0, 0, 0, .zero⟩ p' ∧
      cnt 0 = cfg.platformCoreCount := by
  obtain ⟨ent, cnt, htop, hd⟩ := populateLevels_spec _ hp (Or.inr (le_refl 1)) (fun _ => rfl) (fun _ => rfl)
  refine ⟨ent, cnt, hd, ?_⟩
  rcases Nat.eq_zero_or_pos (cnt 1) with h1 | h1
  · exfalso
    have hparent : p'.arrays.cpuParentNode 0 = 0 := hd.cpu 0 (by rw [hd.cpus h1])
    have hL : 0 < cfg.platMaxPwrLvl := by
      refine Nat.pos_of_ne_zero fun h0 => ?_
      rw [h0] at htop
      exact absurd (h1.symm.trans htop) (by decide)
    rcases Nat.eq_zero_or_pos (cnt cfg.platMaxPwrLvl) with hz | hnz
    · have hj0 := hd.j_empty hL (by omega) hz
      simp only at hj0
      omega
    · obtain ⟨L, hL⟩ : ∃ L, cfg.platMaxPwrLvl = L + 2 := by
        refine ⟨cfg.platMaxPwrLvl - 2, ?_⟩
        have : cfg.platMaxPwrLvl ≠ 1 := fun h1' => by rw [h1'] at hnz; omega
        omega
      -- node 0 is at the top, so its parent is the missing one
      have hroot : (p'.arrays.nonCpuPdNodes 0).parentNode = 0xFFFFFFFF := by
        have hlev := hd.levels cfg.platMaxPwrLvl (le_refl _)
        rw [hd.first (by omega), hd.ent_top, htop, hL] at hlev
        obtain ⟨-, e, -, he, hpar⟩ := hlev.node 0 (le_refl _) (by rw [← hL]; simpa using hnz)
        obtain rfl : e = 0 := by simpa using he
        exact hpar
      rw [psciGetParentPwrDomainNodes, hparent, hL] at hwalk
      simp only [parentNodesFrom, hroot, if_neg (Nat.not_lt.mpr cfg.numNonCpu_lt.le)] at hwalk
      split at hwalk <;> simp at hwalk
  · rw [← hd.j_some h1, hj]

end Ancestors

/-! ## CPU ranges -/

/-- CPU `c` is in the range a node carries. -/
def NonCpuPdNode.InRange (node : NonCpuPdNode) (c : Nat) : Prop :=
  node.cpuStartIdx ≤ c ∧ c < node.cpuStartIdx + node.ncpus

/-- The range a node carries is the set of CPUs below it. -/
structure Topology (cfg : PlatConfig) (s : PsciState) : Prop where
  level : ∀ {l c}, 1 ≤ l → l ≤ cfg.platMaxPwrLvl → c < cfg.platformCoreCount →
    (s.nonCpuPdNodes (s.anc l c)).level = l
  range : ∀ {l c}, 1 ≤ l → l ≤ cfg.platMaxPwrLvl → c < cfg.platformCoreCount →
    ∀ c', (s.nonCpuPdNodes (s.anc l c)).InRange c' ↔
      c' < cfg.platformCoreCount ∧ s.anc l c' = s.anc l c

/-- What the inner loop does when the nodes it visits differ: each is counted once. -/
structure LimitsDone (c : Nat) (temp : Nat → Nat) (k : Nat) (r r' : (Nat → Nat) × PsciState) :
    Prop where
  idx : ∀ j, r'.1 j = if j < k then temp j else r.1 j
  counted : ∀ j, j < k → r'.2.nonCpuPdNodes (temp j) = (r.2.nonCpuPdNodes (temp j)).countCpu (temp j != r.1 j) c
  other : ∀ x, (∀ j, j < k → temp j ≠ x) → r'.2.nonCpuPdNodes x = r.2.nonCpuPdNodes x
  shape : SameShape r.2 r'.2

section Limits

variable {cfg : PlatConfig} {topology : List UInt8} {s₀ s : PsciState}

theorem SameShape.countCpu (s : PsciState) (x c : Nat) (changed : Bool) :
    SameShape s { s with
      nonCpuPdNodes := update s.nonCpuPdNodes x
        ((s.nonCpuPdNodes x).countCpu changed c) } := by
  refine ⟨?_, ?_, ?_, rfl, rfl⟩ <;> intro i <;> by_cases hi : i = x <;>
    simp [update_apply, hi, NonCpuPdNode.countCpu]

/-- Each ancestor is counted once, and no other node is touched. -/
theorem updateLimitsAt_spec {c : Nat} {temp : Nat → Nat} (k : Nat)
    (hinj : ∀ i j, i < k → j < k → temp i = temp j → i = j) :
    ∀ r : (Nat → Nat) × PsciState, LimitsDone c temp k r (updateLimitsAt c temp k r) := by
  induction k with
  | zero =>
    intro r
    exact ⟨fun j => by simp [updateLimitsAt], fun j hj => by omega, fun x _ => rfl, SameShape.refl _⟩
  | succ k ih =>
    rintro ⟨nodesIdx, s⟩
    have hd := ih (fun i j hi hj => hinj i j (by omega) (by omega))
      (update nodesIdx k (temp k), { s with
        nonCpuPdNodes := update s.nonCpuPdNodes (temp k)
          ((s.nonCpuPdNodes (temp k)).countCpu (temp k != nodesIdx k) c) })
    have hne : ∀ j, j < k → temp j ≠ temp k := by
      intro j hj h
      have := hinj j k (by omega) (by omega) h
      omega
    refine ⟨?_, ?_, ?_, ?_⟩
    · intro j
      rw [updateLimitsAt, hd.idx j]
      rcases Nat.lt_trichotomy j k with hj | rfl | hj
      · rw [if_pos hj, if_pos (by omega)]
      · simp
      · rw [if_neg (by omega), if_neg (by omega)]
        exact update_of_ne (by omega) _ _
    · intro j hj
      rcases Nat.lt_or_ge j k with hlt | hge
      · rw [updateLimitsAt, hd.counted j hlt]
        simp only [update_of_ne (hne j hlt), update_of_ne (Nat.ne_of_lt hlt)]
      · obtain rfl : j = k := by omega
        rw [updateLimitsAt, hd.other _ (fun i hi => hne i hi)]
        exact update_self _ _ _
    · intro x hx
      rw [updateLimitsAt, hd.other x (fun j hj => hx j (by omega))]
      exact update_of_ne (hx k (by omega)).symm _ _
    · exact (SameShape.countCpu s (temp k) c _).trans hd.shape

/-- The range of a counted node holds the counted CPUs below it, and other nodes are as they were. -/
structure Counted (cfg : PlatConfig) (s₀ : PsciState) (n : Nat) (r : (Nat → Nat) × PsciState) :
    Prop where
  shape : SameShape s₀ r.2
  range : ∀ {l c}, 1 ≤ l → l ≤ cfg.platMaxPwrLvl → c < n →
    ∀ c', (r.2.nonCpuPdNodes (s₀.anc l c)).InRange c' ↔ c' < n ∧ s₀.anc l c' = s₀.anc l c
  fresh : ∀ {l c}, 1 ≤ l → l ≤ cfg.platMaxPwrLvl → c < cfg.platformCoreCount →
    (∀ c', c' < n → s₀.anc l c' ≠ s₀.anc l c) →
      (r.2.nonCpuPdNodes (s₀.anc l c)).cpuStartIdx = 0 ∧
      (r.2.nonCpuPdNodes (s₀.anc l c)).ncpus = 0
  last : ∀ j, j < cfg.platMaxPwrLvl → r.1 j = if n = 0 then 0 else s₀.anc (j + 1) (n - 1)

theorem Counted.inRange_countCpu {n l : Nat} {r : (Nat → Nat) × PsciState}
    (hord : Ordered cfg s₀) (h : Counted cfg s₀ n r) (hn : n < cfg.platformCoreCount)
    (h1 : 1 ≤ l) (hl : l ≤ cfg.platMaxPwrLvl) (c' : Nat) :
    ((r.2.nonCpuPdNodes (s₀.anc l n)).countCpu (s₀.anc l n != r.1 (l - 1)) n).InRange c' ↔
      c' < n + 1 ∧ s₀.anc l c' = s₀.anc l n := by
  have hlast := h.last (l - 1) (by omega)
  rw [show l - 1 + 1 = l by omega] at hlast
  by_cases hseen : ∃ c, c < n ∧ s₀.anc l c = s₀.anc l n
  · obtain ⟨c, hc, hcn⟩ := hseen
    -- the order of the nodes puts the CPU before at the same node
    have hprev : s₀.anc l (n - 1) = s₀.anc l n := by
      have := hord.mono hl (show c ≤ n - 1 by omega) (by omega)
      have := hord.mono hl (show n - 1 ≤ n by omega) hn
      omega
    rw [if_neg (by omega), hprev] at hlast
    have hrange := h.range h1 hl hc
    rw [hcn] at hrange
    have hin := (hrange (n - 1)).mpr ⟨by omega, hprev⟩
    have hout : ¬ (r.2.nonCpuPdNodes (s₀.anc l n)).InRange n := fun hh =>
      Nat.lt_irrefl n ((hrange n).mp hh).1
    have hc' := hrange c'
    simp only [NonCpuPdNode.InRange, NonCpuPdNode.countCpu, hlast, bne_self_eq_false,
      Bool.false_eq_true, if_false] at hin hout hc' ⊢
    constructor
    · intro hh
      rcases Nat.lt_or_ge c' n with hlt | hge
      · exact ⟨by omega, (hc'.mp (by omega)).2⟩
      · obtain rfl : c' = n := by omega
        exact ⟨by omega, rfl⟩
    · rintro ⟨hlt, hanc⟩
      rcases Nat.lt_or_ge c' n with hlt' | hge
      · omega
      · omega
  · have hfresh : ∀ c, c < n → s₀.anc l c ≠ s₀.anc l n := fun c hc hcn => hseen ⟨c, hc, hcn⟩
    obtain ⟨hstart, hcount⟩ := h.fresh h1 hl hn hfresh
    have hopen : ((r.2.nonCpuPdNodes (s₀.anc l n)).countCpu (s₀.anc l n != r.1 (l - 1)) n).cpuStartIdx
        = n := by
      simp only [NonCpuPdNode.countCpu, hstart]
      rcases Nat.eq_zero_or_pos n with h0 | hpos
      · rw [h0]
        split <;> rfl
      · rw [if_neg (by omega)] at hlast
        rw [hlast, if_pos]
        simpa using (hfresh (n - 1) (by omega)).symm
    have hone : ((r.2.nonCpuPdNodes (s₀.anc l n)).countCpu (s₀.anc l n != r.1 (l - 1)) n).ncpus = 1 := by
      simp only [NonCpuPdNode.countCpu, hcount]
    rw [NonCpuPdNode.InRange, hopen, hone]
    constructor
    · intro hh
      obtain rfl : c' = n := by omega
      exact ⟨by omega, rfl⟩
    · rintro ⟨hlt, hanc⟩
      have : c' = n := by
        by_contra hne
        exact hfresh c' (by omega) hanc
      omega

/-- Counting the next CPU. -/
theorem Counted.step {n : Nat} {r : (Nat → Nat) × PsciState} (hord : Ordered cfg s₀)
    (h : Counted cfg s₀ n r) (hn : n < cfg.platformCoreCount) {temp : Nat → Nat}
    (htemp : ∀ j, j < cfg.platMaxPwrLvl → temp j = s₀.anc (j + 1) n) :
    Counted cfg s₀ (n + 1) (updateLimitsAt n temp cfg.platMaxPwrLvl r) := by
  -- nodes of different levels differ, so every level is counted at its own node
  have hlevel : ∀ {i j c}, i < cfg.platMaxPwrLvl → j < cfg.platMaxPwrLvl →
      c < cfg.platformCoreCount → temp i = s₀.anc (j + 1) c → i = j := by
    intro i j c hi hj hc hij
    have h1 := hord.level (show 1 ≤ i + 1 by omega) hi hn
    have h2 := hord.level (show 1 ≤ j + 1 by omega) hj hc
    rw [← htemp i hi, hij, h2] at h1
    omega
  have hd := updateLimitsAt_spec (c := n) cfg.platMaxPwrLvl
    (fun i j hi hj hij => hlevel hi hj hn (hij.trans (htemp j hj))) r
  have hother : ∀ {l c}, 1 ≤ l → l ≤ cfg.platMaxPwrLvl → c < cfg.platformCoreCount →
      s₀.anc l c ≠ s₀.anc l n →
      (updateLimitsAt n temp cfg.platMaxPwrLvl r).2.nonCpuPdNodes (s₀.anc l c) =
        r.2.nonCpuPdNodes (s₀.anc l c) := by
    intro l c h1 hl hc hne
    obtain ⟨k, rfl⟩ : ∃ k, l = k + 1 := ⟨l - 1, by omega⟩
    refine hd.other _ fun j hj hjx => hne ?_
    obtain rfl := hlevel hj hl hc hjx
    rw [← hjx, htemp j hj]
  refine ⟨h.shape.trans hd.shape, ?_, ?_, ?_⟩
  · intro l c h1 hl hc c'
    by_cases hcn : s₀.anc l c = s₀.anc l n
    · obtain ⟨k, rfl⟩ : ∃ k, l = k + 1 := ⟨l - 1, by omega⟩
      have hnode := hd.counted k hl
      rw [htemp k hl] at hnode
      rw [hcn, hnode]
      exact h.inRange_countCpu hord hn h1 hl c'
    · rw [hother h1 hl (by omega) hcn]
      have hc' : c ≠ n := fun hh => hcn (by rw [hh])
      rw [h.range h1 hl (by omega)]
      constructor
      · rintro ⟨hlt, hanc⟩
        exact ⟨by omega, hanc⟩
      · rintro ⟨hlt, hanc⟩
        have : c' ≠ n := fun hh => hcn (by rw [← hanc, hh])
        exact ⟨by omega, hanc⟩
  · intro l c h1 hl hc hfresh
    rw [hother h1 hl hc (hfresh n (Nat.lt_succ_self n)).symm]
    exact h.fresh h1 hl hc (fun c' hc' => hfresh c' (by omega))
  · intro j hj
    rw [hd.idx j, if_pos hj, if_neg (by omega), Nat.add_sub_cancel, htemp j hj]

theorem updateLimitsFrom_spec (hord : Ordered cfg s₀) (k : Nat) :
    ∀ {n : Nat} {r r' : (Nat → Nat) × PsciState}, updateLimitsFrom cfg k n r = some r' →
      n + k = cfg.platformCoreCount → Counted cfg s₀ n r →
      Counted cfg s₀ cfg.platformCoreCount r' := by
  induction k with
  | zero =>
    intro n r r' h hnk hc
    cases h
    exact (show n = cfg.platformCoreCount from hnk) ▸ hc
  | succ k ih =>
    intro n r r' h hnk hc
    obtain ⟨xs, hxs, h⟩ := Option.bind_eq_some_iff.mp h
    refine ih h (by omega) (hc.step hord (by omega) ?_)
    intro j hj
    have hanc := parentNodesFrom_anc (l := 0) _ hxs j hj
    rw [hanc, hc.shape.anc, Nat.add_comm (0 + 1) j, Nat.zero_add]

/-- Every map that is accepted gives the ancestors their ranges, with all CPUs off. -/
theorem psciSetupTree_topology (hpos : 0 < cfg.platformCoreCount) (h : psciSetupTree cfg topology = some s) :
    Topology cfg s ∧ s.NodesOff cfg ∧
      ∀ c, c < cfg.platformCoreCount → s.cpuData c = cfg.offCpuData := by
  obtain ⟨s₀, h0, h⟩ := Option.bind_eq_some_iff.mp h
  obtain ⟨p, hp, h0⟩ := Option.bind_eq_some_iff.mp h0
  split at h0
  · next hj =>
    cases h0
    obtain ⟨⟨nodesIdx, s'⟩, hr, rfl⟩ := Option.map_eq_some_iff.mp h
    -- the first CPU is walked up, so the map is not degenerate
    have hwalk : ∃ xs, psciGetParentPwrDomainNodes cfg p.arrays 0 cfg.platMaxPwrLvl = some xs := by
      obtain ⟨N, hN⟩ := Nat.exists_eq_succ_of_ne_zero hpos.ne'
      rw [hN] at hr
      obtain ⟨xs, hxs, -⟩ := Option.bind_eq_some_iff.mp hr
      exact ⟨xs, hxs⟩
    obtain ⟨xs, hxs⟩ := hwalk
    obtain ⟨ent, cnt, hd, hcnt⟩ := populate_counts_cpus hp hj hpos hxs
    have hord := hd.ordered hcnt
    have hstart : Counted cfg p.arrays 0 (fun _ => 0, p.arrays) := by
      refine ⟨SameShape.refl _, fun _ _ h => by omega, ?_, fun _ _ => rfl⟩
      intro l c _ _ _ _
      exact hd.limits _
    have hfin := updateLimitsFrom_spec hord _ hr (by omega) hstart
    refine ⟨⟨?_, ?_⟩, ?_, ?_⟩
    · intro l c h1 hl hc
      rw [hfin.shape.anc, hfin.shape.level]
      exact hord.level h1 hl hc
    · intro l c h1 hl hc c'
      simp only [hfin.shape.anc]
      exact hfin.range h1 hl hc c'
    · intro i hi
      rw [hfin.shape.level] at hi
      rw [hfin.shape.localState]
      exact hd.off (fun i hi => absurd rfl hi) i hi
    · intro c hc
      rw [hfin.shape.cpuData]
      exact ((hd.levels 0 (Nat.zero_le _)).node c (Nat.zero_le c) (by rw [hcnt]; simpa [firstNode] using hc)).1.2
  · cases h0

end Limits

end Armada3720.Psci
