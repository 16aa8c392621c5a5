import Armada3720.Psci.Ranges

/-!
# The tree a topology map describes

`Domain l` is a power domain at level `l` as a tree. A platform describes it by the child counts of its domains
in breadth-first order; the arrays that `psci_setup` leaves are the tree again.

`psci_setup_builds_tree` is for every tree with as many CPUs and domains as the platform has, domains without
children included. Of a map that describes no such tree nothing is said.
-/

namespace Armada3720.Psci

/-! ## Trees of power domains -/

/-- A power domain: at level 0 the index of a CPU, above it the list of its children. -/
def Domain : Nat → Type
  | 0 => Nat
  | l + 1 => List (Domain l)

def Domain.children {l : Nat} (d : Domain (l + 1)) : List (Domain l) := d

def Domain.cpus : {l : Nat} → Domain l → List Nat
  | 0, c => [c]
  | l + 1, d => d.children.flatMap fun e => Domain.cpus (l := l) e

/-- The child counts of the domains above the CPUs, breadth first. -/
def childCounts : (l : Nat) → List (Domain l) → List Nat
  | 0, _ => []
  | l + 1, f => f.map (fun d => d.children.length) ++ childCounts l (f.flatMap Domain.children)

/-- The domains above the CPUs, breadth first, each with its level and its CPUs. -/
def domains : (l : Nat) → List (Domain l) → List (Nat × List Nat)
  | 0, _ => []
  | l + 1, f => f.map (fun d => (l + 1, d.cpus)) ++ domains l (f.flatMap Domain.children)

/-- The CPUs are numbered from left to right, and one of them runs `psci_setup`. -/
structure PowerDomainTree (cfg : PlatConfig) where
  roots : List (Domain cfg.platMaxPwrLvl)
  cpus_eq : roots.flatMap Domain.cpus = List.range cfg.platformCoreCount
  cpus_pos : 0 < cfg.platformCoreCount
  domains_length : (domains _ roots).length = cfg.psciNumNonCpuPwrDomains
  counts_lt : ∀ n ∈ roots.length :: childCounts _ roots, n < 256

/-- The number of roots, then the child counts. -/
def PowerDomainTree.topology {cfg : PlatConfig} (tree : PowerDomainTree cfg) : List UInt8 :=
  (tree.roots.length :: childCounts _ tree.roots).map UInt8.ofNat

open Domain

theorem flatMap_cpus_succ {l : Nat} (f : List (Domain (l + 1))) :
    f.flatMap cpus = (f.flatMap children).flatMap cpus :=
  List.flatMap_assoc.symm

theorem flatMap_cpus_zero (f : List (Domain 0)) : f.flatMap cpus = f :=
  List.flatMap_singleton' f

theorem length_flatMap_cpus_zero (f : List (Domain 0)) : (f.flatMap cpus).length = f.length :=
  congrArg List.length (flatMap_cpus_zero f)

theorem domains_mem {l m i : Nat} {cs : List Nat} {f : List (Domain l)} (h : (domains l f)[i]? = some (m, cs)) :
    1 ≤ m ∧ m ≤ l ∧ ∀ c ∈ cs, c ∈ f.flatMap cpus := by
  induction l generalizing i with
  | zero => simp [domains] at h
  | succ l ih =>
    rw [domains, List.getElem?_append] at h
    split at h
    · obtain ⟨d, hd, heq⟩ := Option.map_eq_some_iff.mp (List.getElem?_map ▸ h)
      cases heq
      exact ⟨by omega, le_refl _, fun c hc =>
        List.mem_flatMap.mpr ⟨d, List.mem_of_getElem? hd, hc⟩⟩
    · obtain ⟨h1, hl, hsub⟩ := ih h
      exact ⟨h1, by omega, fun c hc => flatMap_cpus_succ f ▸ hsub c hc⟩

theorem domains_unique {l m c i i' : Nat} {cs cs' : List Nat} {f : List (Domain l)}
    (hnodup : (f.flatMap cpus).Nodup) (h : (domains l f)[i]? = some (m, cs))
    (h' : (domains l f)[i']? = some (m, cs')) (hc : c ∈ cs) (hc' : c ∈ cs') : i = i' := by
  induction l generalizing i i' with
  | zero => simp [domains] at h
  | succ l ih =>
    rw [domains, List.getElem?_append] at h h'
    have hdeep : ∀ {i cs}, (domains l (f.flatMap children))[i]? = some (m, cs) → m ≤ l :=
      fun h => (domains_mem h).2.1
    split at h <;> split at h'
    · obtain ⟨d, hd, heq⟩ := Option.map_eq_some_iff.mp (List.getElem?_map ▸ h)
      obtain ⟨d', hd', heq'⟩ := Option.map_eq_some_iff.mp (List.getElem?_map ▸ h')
      cases heq
      cases heq'
      -- the lists of two domains of one level have no CPU in common
      have hdisj := List.pairwise_iff_getElem.mp (List.nodup_flatMap.mp hnodup).2
      obtain ⟨hi, rfl⟩ := List.getElem?_eq_some_iff.mp hd
      obtain ⟨hi', rfl⟩ := List.getElem?_eq_some_iff.mp hd'
      rcases Nat.lt_trichotomy i i' with hlt | heq | hlt
      · exact absurd hc' (hdisj i i' hi hi' hlt hc)
      · exact heq
      · exact absurd hc (hdisj i' i hi' hi hlt hc')
    · obtain ⟨d, -, heq⟩ := Option.map_eq_some_iff.mp (List.getElem?_map ▸ h)
      cases heq
      have := hdeep h'
      omega
    · obtain ⟨d, -, heq⟩ := Option.map_eq_some_iff.mp (List.getElem?_map ▸ h')
      cases heq
      have := hdeep h
      omega
    · have := ih (flatMap_cpus_succ f ▸ hnodup) h h'
      omega

/-! ## Populating the arrays -/

/-- The length of the array that holds the nodes of a level. -/
def PlatConfig.room (cfg : PlatConfig) (level : Nat) : Nat :=
  if level = 0 then cfg.platformCoreCount else cfg.psciNumNonCpuPwrDomains

/-- The nodes from index `a` on are the children of the domains `f`; entry `q` describes the first domain. -/
def PsciState.Parents (s : PsciState) {level : Nat} (f : List (Domain (level + 1))) (q a : Nat) :
    Prop :=
  ∀ i d, (f.flatMap Domain.children)[i]? = some d →
    ∃ k e, f[k]? = some e ∧ d ∈ e.children ∧ s.parentOf level (a + i) = uintPred (q + k)

/-- `Parents` at every level below the domains `f`. -/
def PsciState.Linked (s : PsciState) : (level : Nat) → List (Domain (level + 1)) → (q a : Nat) → Prop
  | 0, f, q, _ => s.Parents f q 0
  | level + 1, f, q, a => s.Parents f q a ∧
      s.Linked level (f.flatMap Domain.children) (q + f.length) (a + (f.flatMap Domain.children).length)

section Populate

variable {cfg : PlatConfig} {topology : List UInt8} {level : Nat}

theorem initChildren_some {parentIdx : Nat} (n : Nat) :
    ∀ {j : Nat} {s : PsciState}, j + n ≤ cfg.room level →
      ∃ s', initChildren cfg level parentIdx n j s = some s' := by
  induction n with
  | zero => exact fun _ => ⟨_, rfl⟩
  | succ n ih =>
    intro j s hroom
    have hnode : ∃ s', psciInitPwrDomainNode cfg j parentIdx level s = some s' := by
      unfold psciInitPwrDomainNode
      unfold PlatConfig.room at hroom
      split_ifs at hroom ⊢ <;> first | omega | exact ⟨_, rfl⟩
    obtain ⟨s1, hs1⟩ := hnode
    obtain ⟨s2, hs2⟩ := ih (j := j + 1) (by omega)
    exact ⟨s2, Option.bind_eq_some_iff.mpr ⟨s1, hs1, hs2⟩⟩

theorem populateEntries_tree (cfg : PlatConfig) (f : List (Domain (level + 1))) :
    ∀ {p : Populate} {rest : List Nat}, (topology.drop p.parentNodeIndex).map UInt8.toNat =
        f.map (fun d => d.children.length) ++ rest →
      p.parentNodeIndex + f.length ≤ cfg.psciNumNonCpuPwrDomains + 1 →
      p.nodeIndex + (f.flatMap children).length ≤ cfg.room level →
      ∃ p', populateEntries cfg topology level f.length p = some p' ∧
        p'.nodeIndex = p.nodeIndex + (f.flatMap children).length ∧
        p'.arrays.Parents f p.parentNodeIndex p.nodeIndex := by
  induction f with
  | nil =>
    intro p rest _ _ _
    exact ⟨p, rfl, rfl, fun i d h => by simp at h⟩
  | cons e f ih =>
    intro p rest hread hpar hroom
    have hdrop := congrArg List.length hread
    simp only [List.flatMap_cons, List.length_append, List.length_map, List.length_drop,
      List.length_cons] at hroom hpar hdrop
    have hlt : p.parentNodeIndex < topology.length := by omega
    rw [List.drop_eq_getElem_cons hlt] at hread
    simp only [List.map_cons, List.cons_append, List.cons.injEq] at hread
    obtain ⟨hcount, hread⟩ := hread
    obtain ⟨s1, hs1⟩ : ∃ s1, initChildren cfg level (uintPred p.parentNodeIndex)
        e.children.length p.nodeIndex p.arrays = some s1 :=
      initChildren_some _ (by omega)
    obtain ⟨p', hp', hnode, hparents⟩ := ih (p := ⟨p.nodeIndex + e.children.length,
      p.nodeIndex + e.children.length, p.parentNodeIndex + 1,
      p.numNodesAtNextLvl + e.children.length, s1⟩) hread (by dsimp only; omega)
      (by dsimp only; omega)
    refine ⟨p', ?_, ?_, ?_⟩
    · rw [List.length_cons, populateEntries, if_pos (by omega),
        List.getElem?_eq_getElem hlt, Option.bind_some, hcount, hs1]
      exact hp'
    · rw [hnode, List.flatMap_cons, List.length_append]
      dsimp only
      omega
    · intro i d hd
      rw [List.flatMap_cons, List.getElem?_append] at hd
      split at hd
      · next hi =>
        -- the later entries leave the children of this one alone
        obtain ⟨m, hdone⟩ := populateEntries_spec _ hp' (Or.inl (Nat.succ_pos _))
        refine ⟨0, e, rfl, List.mem_of_getElem? hd, ?_⟩
        rw [hdone.frame.parentOf (Or.inl (by dsimp only; omega))]
        exact ((initChildren_spec _ hs1).2.1 _ (by omega) (by omega)).2
      · next hi =>
        obtain ⟨k, e', he', hmem, hparent⟩ := hparents _ d hd
        refine ⟨k + 1, e', he', hmem, ?_⟩
        rw [show p.nodeIndex + i = p.nodeIndex + e.children.length + (i - e.children.length) by
          omega, hparent, Nat.add_assoc, Nat.add_comm 1 k]

theorem populateLevels_tree (topology : List UInt8) (hpos : 0 < cfg.platformCoreCount) (level : Nat) :
    ∀ {f : List (Domain (level + 1))} {p : Populate},
      0 < p.parentNodeIndex ∨ f.length ≤ 1 →
      (topology.drop p.parentNodeIndex).map UInt8.toNat = childCounts (level + 1) f →
      p.parentNodeIndex + f.length + (domains level (f.flatMap children)).length =
        cfg.psciNumNonCpuPwrDomains + 1 →
      (f.flatMap cpus).length = cfg.platformCoreCount →
      (level = 0 → p.nodeIndex = 0) →
      (0 < level → p.nodeIndex + 1 = p.parentNodeIndex + f.length) →
      ∃ p', populateLevels cfg topology level f.length p = some p' ∧
        p'.j = cfg.platformCoreCount ∧ p'.arrays.Linked level f p.parentNodeIndex p.nodeIndex := by
  induction level with
  | zero =>
    intro f p hq hread hnum hcpus hidx _
    have hidx := hidx rfl
    rw [flatMap_cpus_succ, length_flatMap_cpus_zero] at hcpus
    obtain ⟨p', hp', hnode, hparents⟩ := populateEntries_tree cfg f (p := { p with numNodesAtNextLvl := 0 }) hread
      (by dsimp only; omega) (by simp only [PlatConfig.room, if_true]; omega)
    obtain ⟨m, hdone⟩ := populateEntries_spec _ hp' hq
    refine ⟨p', hp', ?_, ?_⟩
    · rw [hdone.j_some ?_, hnode, hcpus, hidx, Nat.zero_add]
      refine Nat.pos_of_ne_zero fun h0 => ?_
      rw [List.length_eq_zero_iff.mp h0] at hcpus
      simp only [List.flatMap_nil, List.length_nil] at hcpus
      omega
    · simp only [hidx] at hparents
      exact hparents
  | succ level ih =>
    intro f p hq hread hnum hcpus _ hidx
    simp only [domains, List.length_append, List.length_map] at hnum
    obtain ⟨p1, hp1, hnode, hparents⟩ := populateEntries_tree cfg f
      (p := { p with numNodesAtNextLvl := 0 }) hread (by dsimp only; omega)
      (by simp only [PlatConfig.room, Nat.succ_ne_zero, if_false]; omega)
    obtain ⟨m, hdone⟩ := populateEntries_spec _ hp1 hq
    have hnext := hdone.numNext
    have hpar := hdone.parentNodeIndex
    have hm := hdone.nodeIndex
    simp only [Nat.zero_add] at hnext hpar hm hnode hparents
    obtain ⟨p2, harr, hpar2, hnode2, hrun⟩ : ∃ p2 : Populate, p2.arrays = p1.arrays ∧
        p2.parentNodeIndex = p1.parentNodeIndex ∧
        p2.nodeIndex = (if level = 0 then 0 else p1.nodeIndex) ∧
        populateLevels cfg topology (level + 1) f.length p =
          populateLevels cfg topology level p1.numNodesAtNextLvl p2 := by
      refine ⟨if level = 0 then { p1 with nodeIndex := 0 } else p1, ?_, ?_, ?_, ?_⟩
      · split <;> rfl
      · split <;> rfl
      · split <;> rfl
      · rw [populateLevels, hp1]
        rfl
    have hlower : (topology.drop p2.parentNodeIndex).map UInt8.toNat =
        childCounts (level + 1) (f.flatMap children) := by
      rw [hpar2, hpar, ← List.drop_drop, List.map_drop, hread, childCounts, List.drop_left' (List.length_map _)]
    obtain ⟨p', hp', hj, hlinked⟩ := ih
      (Or.inl (by omega)) hlower (by omega) (by rw [← flatMap_cpus_succ]; exact hcpus)
      (fun h0 => by rw [hnode2, if_pos h0]) (fun h0 => by rw [hnode2, if_neg (by omega)]; omega)
    rw [show (f.flatMap children).length = p1.numNodesAtNextLvl by omega] at hp'
    obtain ⟨ent, cnt, -, hd⟩ := populateLevels_spec level hp' (Or.inl (by omega))
      (fun h0 => by rw [hnode2, if_pos h0]) (fun h0 => by rw [hnode2, if_neg (by omega)]; omega)
    refine ⟨p', hrun.trans hp', hj, ?_, ?_⟩
    · intro i d hi
      obtain ⟨k, e, he, hmem, hparent⟩ := hparents i d hi
      refine ⟨k, e, he, hmem, ?_⟩
      have hlt := (List.getElem?_eq_some_iff.mp hi).1
      rw [← hparent]
      simp only [PsciState.parentOf, ← harr]
      rw [hd.nonCpu _ ?_]
      rw [hnode2]
      split <;> omega
    · rw [hpar2, hpar] at hlinked
      cases level with
      | zero => exact hlinked
      | succ level =>
        rw [hnode2, if_neg (Nat.succ_ne_zero level), hnode] at hlinked
        exact hlinked

end Populate

/-! ## The ancestors of a CPU -/

/-- The ancestor of CPU `c` at a level is the node of the domain that holds `c`. -/
theorem PsciState.Linked.anc {s : PsciState} {c : Nat} (level : Nat) :
    ∀ {f : List (Domain (level + 1))} {q a : Nat}, s.Linked level f q a →
      (0 < level → a + 1 = q + f.length) → (f.flatMap cpus)[c]? = some c →
      (∃ k e, f[k]? = some e ∧ c ∈ e.cpus ∧ s.anc (level + 1) c = uintPred (q + k)) ∧
      ∀ l, 1 ≤ l → l ≤ level → ∃ i cs, s.anc l c = a + i ∧
        (domains level (f.flatMap children))[i]? = some (l, cs) ∧ c ∈ cs := by
  induction level with
  | zero =>
    intro f q a h _ hc
    rw [flatMap_cpus_succ, flatMap_cpus_zero] at hc
    obtain ⟨k, e, he, hmem, hparent⟩ := h c c hc
    rw [Nat.zero_add] at hparent
    refine ⟨⟨k, e, he, ?_, hparent⟩, fun l h1 hl => by omega⟩
    exact List.mem_flatMap.mpr ⟨c, hmem, List.mem_singleton_self c⟩
  | succ level ih =>
    intro f q a h hidx hc
    obtain ⟨⟨k, e, he, hmem, hanc⟩, hlower⟩ := ih h.2 (fun _ => by omega) (by rw [← flatMap_cpus_succ]; exact hc)
    have hanc' : s.anc (level + 1) c = a + k := by
      rw [hanc, uintPred, if_neg (by omega)]
      omega
    refine ⟨?_, fun l h1 hl => ?_⟩
    · obtain ⟨k', e', he', hchild, hparent⟩ := h.1 k e he
      refine ⟨k', e', he', List.mem_flatMap.mpr ⟨e, hchild, hmem⟩, ?_⟩
      rw [PsciState.anc, hanc', hparent]
    · have hlen := (List.getElem?_eq_some_iff.mp he).1
      rcases Nat.eq_or_lt_of_le hl with rfl | hlt
      · refine ⟨k, e.cpus, hanc', ?_, hmem⟩
        rw [domains, List.getElem?_append_left (by rw [List.length_map]; exact hlen),
          List.getElem?_map, he, Option.map_some]
      · obtain ⟨i, cs, hi, hdom, hcs⟩ := hlower l h1 (by omega)
        refine ⟨(f.flatMap children).length + i, cs, by omega, ?_, hcs⟩
        rw [domains, List.getElem?_append_right (by rw [List.length_map]; omega),
          List.length_map, Nat.add_sub_cancel_left]
        exact hdom

section Limits

variable {cfg : PlatConfig} {s₀ : PsciState}

theorem parentNodesFrom_eq {s : PsciState} {c : Nat} (n : Nat) :
    ∀ {l : Nat}, (∀ j, j < n → s.anc (l + 1 + j) c < cfg.psciNumNonCpuPwrDomains) →
      parentNodesFrom cfg s n (s.anc (l + 1) c) =
        some ((List.range n).map fun j => s.anc (l + 1 + j) c) := by
  induction n with
  | zero => exact fun _ => rfl
  | succ n ih =>
    intro l h
    have hrest := ih fun j hj => by
      rw [Nat.add_assoc (l + 1), Nat.add_comm 1 j]
      exact h (j + 1) (by omega)
    rw [parentNodesFrom, if_pos (h 0 (by omega)),
      show (s.nonCpuPdNodes (s.anc (l + 1) c)).parentNode = s.anc (l + 1 + 1) c from rfl, hrest,
      List.range_succ_eq_map]
    simp only [Option.map_some, List.map_cons, List.map_map, Function.comp_def,
      Nat.succ_eq_add_one, Nat.add_assoc, Nat.add_comm 1]

theorem updateLimitsAt_shape {c : Nat} {temp : Nat → Nat} (k : Nat) :
    ∀ r : (Nat → Nat) × PsciState, SameShape r.2 (updateLimitsAt c temp k r).2 := by
  induction k with
  | zero => exact fun r => SameShape.refl _
  | succ k ih =>
    rintro ⟨idx, s⟩
    exact (SameShape.countCpu s (temp k) c (temp k != idx k)).trans (ih (_, _))

theorem updateLimitsAt_other {c x : Nat} {temp : Nat → Nat} (k : Nat) :
    ∀ r : (Nat → Nat) × PsciState, (∀ j, j < k → temp j ≠ x) →
      (updateLimitsAt c temp k r).2.nonCpuPdNodes x = r.2.nonCpuPdNodes x := by
  induction k with
  | zero => exact fun r _ => rfl
  | succ k ih =>
    intro r h
    rw [updateLimitsAt, ih _ (fun j hj => h j (by omega))]
    exact Function.update_of_ne (h k (by omega)).symm _ _

/-- The walks stay inside the array, and a node above no CPU is left as it was. -/
theorem updateLimitsFrom_some (hanc : ∀ l c, 1 ≤ l → l ≤ cfg.platMaxPwrLvl → c < cfg.platformCoreCount →
      s₀.anc l c < cfg.psciNumNonCpuPwrDomains) (k : Nat) :
    ∀ {n : Nat} {r : (Nat → Nat) × PsciState}, n + k = cfg.platformCoreCount →
      SameShape s₀ r.2 → ∃ r', updateLimitsFrom cfg k n r = some r' ∧ SameShape s₀ r'.2 ∧
        ∀ x, (∀ l c, 1 ≤ l → l ≤ cfg.platMaxPwrLvl → c < cfg.platformCoreCount →
          s₀.anc l c ≠ x) → r'.2.nonCpuPdNodes x = r.2.nonCpuPdNodes x := by
  induction k with
  | zero => exact fun _ hs => ⟨_, rfl, hs, fun _ _ => rfl⟩
  | succ k ih =>
    intro n r hn hs
    have hwalk : parentNodesFrom cfg r.2 cfg.platMaxPwrLvl (r.2.anc (0 + 1) n) =
        some ((List.range cfg.platMaxPwrLvl).map fun j => r.2.anc (0 + 1 + j) n) := by
      refine parentNodesFrom_eq _ fun j hj => ?_
      rw [hs.anc]
      exact hanc _ n (by omega) (by omega) (by omega)
    obtain ⟨r', hr', hs', hother⟩ := ih (n := n + 1) (by omega) (hs.trans (updateLimitsAt_shape _ r))
    refine ⟨r', Option.bind_eq_some_iff.mpr ⟨_, hwalk, hr'⟩, hs', fun x hx => ?_⟩
    rw [hother x hx, updateLimitsAt_other]
    intro j hj
    rw [List.getD_eq_getElem?_getD, List.getElem?_map, List.getElem?_range hj, Option.map_some,
      Option.getD_some, hs.anc]
    exact hx _ n (by omega) (by omega) (by omega)

end Limits

/-! ## The arrays are the tree -/

section Setup

variable {cfg : PlatConfig} (tree : PowerDomainTree cfg)

theorem PowerDomainTree.map_toNat_topology :
    tree.topology.map UInt8.toNat = tree.roots.length :: childCounts _ tree.roots := by
  rw [PowerDomainTree.topology, List.map_map]
  conv_rhs => rw [← List.map_id (tree.roots.length :: childCounts _ tree.roots)]
  refine List.map_congr_left fun n hn => ?_
  exact Nat.mod_eq_of_lt (tree.counts_lt n hn)

theorem PowerDomainTree.getElem?_cpus {c : Nat} (hc : c < cfg.platformCoreCount) :
    (tree.roots.flatMap cpus)[c]? = some c := by
  rw [tree.cpus_eq, List.getElem?_range hc]

theorem PowerDomainTree.populate :
    ∃ s, populatePowerDomainTree cfg tree.topology .zero = some s ∧
      (∀ l c, 1 ≤ l → l ≤ cfg.platMaxPwrLvl → c < cfg.platformCoreCount →
        ∃ cs, (domains _ tree.roots)[s.anc l c]? = some (l, cs) ∧ c ∈ cs) ∧
      ∀ i, (s.nonCpuPdNodes i).cpuStartIdx = 0 ∧ (s.nonCpuPdNodes i).ncpus = 0 := by
  -- the roots are the children of one domain above all levels, whose entry is the first
  obtain ⟨top, htop⟩ : ∃ top : Domain (cfg.platMaxPwrLvl + 1), top.children = tree.roots :=
    ⟨tree.roots, rfl⟩
  have hroots : [top].flatMap children = tree.roots := by
    rw [List.flatMap_singleton, htop]
  have hcpus : [top].flatMap cpus = tree.roots.flatMap cpus := by
    rw [flatMap_cpus_succ, hroots]
  obtain ⟨p', hp', hj, hlinked⟩ := populateLevels_tree tree.topology tree.cpus_pos
    cfg.platMaxPwrLvl (p := ⟨0, 0, 0, 0, .zero⟩) (Or.inr (le_refl 1))
    (by rw [List.drop_zero, tree.map_toNat_topology, childCounts, hroots, List.map_singleton, htop]; rfl)
    (by rw [hroots, tree.domains_length]; exact Nat.add_comm _ _)
    (by rw [hcpus, tree.cpus_eq, List.length_range]) (fun _ => rfl) (fun _ => rfl)
  obtain ⟨ent, cnt, -, hd⟩ := populateLevels_spec _ hp' (Or.inr (le_refl 1)) (fun _ => rfl) (fun _ => rfl)
  refine ⟨p'.arrays, ?_, ?_, hd.limits⟩
  · exact Option.bind_eq_some_iff.mpr ⟨p', hp', if_pos hj⟩
  · intro l c h1 hl hc
    obtain ⟨i, cs, hi, hdom, hcs⟩ := (hlinked.anc _ (fun _ => rfl)
      (by rw [hcpus]; exact tree.getElem?_cpus hc)).2 l h1 hl
    rw [hroots] at hdom
    rw [hi, Nat.zero_add]
    exact ⟨cs, hdom, hcs⟩

/-- After `populate_power_domain_tree` and `psci_update_pwrlvl_limits` the walk from a CPU passes the domains
that hold the CPU and no others, and the range of every node is the set of CPUs of its domain. -/
theorem psci_setup_builds_tree :
    ∃ s, psciSetupTree cfg tree.topology = some s ∧
      (∀ c, c < cfg.platformCoreCount →
        ∃ nodes, psciGetParentPwrDomainNodes cfg s c cfg.platMaxPwrLvl = some nodes ∧
          ∀ l i, nodes[l]? = some i ↔
            ∃ cpus, (domains _ tree.roots)[i]? = some (l + 1, cpus) ∧ c ∈ cpus) ∧
      ∀ i l cpus, (domains _ tree.roots)[i]? = some (l, cpus) →
        ∀ c, (s.nonCpuPdNodes i).InRange c ↔ c ∈ cpus := by
  obtain ⟨s₀, hs₀, hanc, hlimits⟩ := tree.populate
  have hbound : ∀ l c, 1 ≤ l → l ≤ cfg.platMaxPwrLvl → c < cfg.platformCoreCount →
      s₀.anc l c < cfg.psciNumNonCpuPwrDomains := by
    intro l c h1 hl hc
    obtain ⟨cs, hdom, -⟩ := hanc l c h1 hl hc
    rw [← tree.domains_length]
    exact (List.getElem?_eq_some_iff.mp hdom).1
  obtain ⟨⟨idx, s⟩, hr, hshape, hother⟩ := updateLimitsFrom_some hbound cfg.platformCoreCount
    (r := (fun _ => 0, s₀)) (Nat.zero_add _) (SameShape.refl s₀)
  have hsetup : psciSetupTree cfg tree.topology = some s :=
    Option.bind_eq_some_iff.mpr ⟨s₀, hs₀, Option.map_eq_some_iff.mpr ⟨_, hr, rfl⟩⟩
  have htop := (psciSetupTree_topology tree.cpus_pos hsetup).1
  have hnodup : (tree.roots.flatMap cpus).Nodup := tree.cpus_eq ▸ List.nodup_range
  have hlt : ∀ {i l c : Nat} {cpus : List Nat}, (domains _ tree.roots)[i]? = some (l, cpus) → c ∈ cpus →
      c < cfg.platformCoreCount := by
    intro i l c cpus hdom hc
    have := (domains_mem hdom).2.2 c hc
    rwa [tree.cpus_eq, List.mem_range] at this
  -- a domain is the ancestor, at its level, of the CPUs it holds and of no others
  have hiff : ∀ {i l c : Nat} {cpus : List Nat}, (domains _ tree.roots)[i]? = some (l, cpus) →
      c < cfg.platformCoreCount → (c ∈ cpus ↔ s.anc l c = i) := by
    intro i l c cpus hdom hc
    obtain ⟨h1, hl, -⟩ := domains_mem hdom
    obtain ⟨cs, hdom', hcs⟩ := hanc l c h1 hl hc
    rw [hshape.anc]
    refine ⟨fun hmem => domains_unique hnodup hdom' hdom hcs hmem, fun heq => ?_⟩
    rw [heq, hdom] at hdom'
    cases hdom'
    exact hcs
  refine ⟨s, hsetup, fun c hc => ⟨_, parentNodesFrom_eq (l := 0) cfg.platMaxPwrLvl ?_, ?_⟩, ?_⟩
  · intro j hj
    rw [hshape.anc]
    exact hbound _ c (by omega) (by omega) hc
  · intro l i
    rw [List.getElem?_map, Option.map_eq_some_iff]
    constructor
    · rintro ⟨j, hj, rfl⟩
      obtain ⟨hl, rfl⟩ := List.getElem?_eq_some_iff.mp hj
      rw [List.length_range] at hl
      rw [List.getElem_range]
      obtain ⟨cs, hdom, hcs⟩ := hanc (l + 1) c (by omega) hl hc
      rw [hshape.anc, Nat.zero_add, Nat.add_comm 1 l]
      exact ⟨cs, hdom, hcs⟩
    · rintro ⟨cpus, hdom, hcs⟩
      refine ⟨l, List.getElem?_range (domains_mem hdom).2.1, ?_⟩
      rw [Nat.zero_add, Nat.add_comm 1 l]
      exact (hiff hdom hc).mp hcs
  · intro i l cpus hdom c
    obtain ⟨h1, hl, -⟩ := domains_mem hdom
    cases hcpus : cpus with
    | nil =>
      -- a domain without CPUs keeps the empty range
      have hnode : s.nonCpuPdNodes i = s₀.nonCpuPdNodes i := by
        refine hother i fun l' c' h1' hl' hc' heq => ?_
        obtain ⟨cs, hdom', hcs⟩ := hanc l' c' h1' hl' hc'
        rw [heq, hdom, hcpus] at hdom'
        cases hdom'
        exact List.not_mem_nil hcs
      obtain ⟨hstart, hcount⟩ := hlimits i
      simp only [NonCpuPdNode.InRange, hnode, hstart, hcount, List.not_mem_nil, iff_false]
      omega
    | cons c₀ rest =>
      rw [← hcpus]
      have hc₀ : c₀ ∈ cpus := hcpus ▸ List.mem_cons_self
      have hanc₀ := (hiff hdom (hlt hdom hc₀)).mp hc₀
      have hrange := htop.range h1 hl (hlt hdom hc₀) c
      rw [hanc₀] at hrange
      rw [hrange]
      constructor
      · rintro ⟨hc, heq⟩
        exact (hiff hdom hc).mpr heq
      · intro hc
        exact ⟨hlt hdom hc, (hiff hdom (hlt hdom hc)).mp hc⟩

end Setup

/-- Two levels above four CPUs, with four nodes. -/
def unevenClusters : PlatConfig where
  platMaxPwrLvl := 2
  platformCoreCount := 4
  psciNumNonCpuPwrDomains := 4
  platMaxRetState := 1
  platMaxOffState := 2
  numNonCpu_lt := by decide
  ret_lt_off := Nat.one_lt_two

/-- One system with a cluster of three CPUs, a cluster without CPUs and a cluster of one. -/
def unevenTree : PowerDomainTree unevenClusters where
  roots := [([[(0 : Nat), (1 : Nat), (2 : Nat)], [], [(3 : Nat)]] : List (List Nat))]
  cpus_eq := by decide
  cpus_pos := by decide
  domains_length := by decide
  counts_lt := by decide

/-- The middle cluster is node 2, with an empty range; the CPU alone is below nodes 3 and 0. -/
theorem psci_setup_builds_unevenTree :
    unevenTree.topology = [1, 3, 3, 0, 1] ∧
    ∃ s, psciSetupTree unevenClusters [1, 3, 3, 0, 1] = some s ∧
      (∃ nodes, psciGetParentPwrDomainNodes unevenClusters s 3 2 = some nodes ∧
        nodes[0]? = some 3 ∧ nodes[1]? = some 0) ∧
      ∀ c, ¬ (s.nonCpuPdNodes 2).InRange c := by
  refine ⟨by decide, ?_⟩
  obtain ⟨s, hs, hwalk, hrange⟩ := psci_setup_builds_tree unevenTree
  obtain ⟨nodes, hnodes, hiff⟩ := hwalk 3 (by decide)
  refine ⟨s, hs, ⟨nodes, hnodes, ?_, ?_⟩, fun c hc => ?_⟩
  · exact (hiff 0 3).mpr ⟨[3], by decide, by decide⟩
  · exact (hiff 1 0).mpr ⟨[0, 1, 2, 3], by decide, by decide⟩
  · exact List.not_mem_nil ((hrange 2 1 [] (by decide) c).mp hc)

end Armada3720.Psci
