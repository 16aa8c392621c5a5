import Armada3720.XlatV1.RegionArray

/-!
# What the tables of version 1 mean

The tables that `init_xlation_table` builds from a flat region list translate an address by the innermost region
that holds it. A table is filled from its first entry to its last while one cursor goes through the array, and
the regions that it has passed lie before the entry. `AreaDone` and `FillDone` speak of every memory that agrees
with the result on the tables used, so that later entries need no further argument.
-/

namespace Armada3720.XlatV1

open Lib Lib.PageFormat Xlat

/-- The last region of the array that holds the address. -/
abbrev lastRegion (rs : List MmapRegion) (va : Nat) : Option MmapRegion :=
  lastHolding MmapRegion.baseVa MmapRegion.size rs va

/-! ## `mmap_region_attr` -/

section RegionAttr

variable {baseVa size va : Nat} {mm : List MmapRegion} {ret : Option MmapAttr} {a : MmapAttr}

/-- The area `baseVa .. baseVa + size - 1`. -/
def InArea (baseVa size va : Nat) : Prop := baseVa ≤ va ∧ va < baseVa + size

theorem lastRegion_snoc (done : List MmapRegion) (r : MmapRegion) (va : Nat) :
    lastRegion (done ++ [r]) va =
      if Holds MmapRegion.baseVa MmapRegion.size r va then some r else lastRegion done va := by
  rw [lastRegion, lastHolding_append, lastHolding_cons]
  split <;> rfl

theorem lastRegion_append (done mm : List MmapRegion) (va : Nat) :
    lastRegion (done ++ mm) va = (lastRegion mm va).or (lastRegion done va) :=
  lastHolding_append ..

/-- No region behind one that starts after the address holds it. -/
theorem lastRegion_of_behind {r : MmapRegion} {rest : List MmapRegion}
    (hord : (r :: rest).Pairwise (OuterFirst MmapRegion.baseVa MmapRegion.size)) (hr : va < r.baseVa) :
    lastRegion (r :: rest) va = none := by
  refine lastHolding_eq_none.mpr fun s hs hh => ?_
  have hbase : r.baseVa ≤ s.baseVa := by
    rcases List.mem_cons.mp hs with rfl | hs
    · exact le_rfl
    · have := (List.pairwise_cons.mp hord).1 s hs
      unfold OuterFirst at this
      omega
  unfold Holds at hh
  omega

theorem mmapRegionAttrLoop_eq_some (done : List MmapRegion)
    (hord : mm.Pairwise (OuterFirst MmapRegion.baseVa MmapRegion.size))
    (hpos : ∀ r ∈ mm, 0 < r.size)
    (hret : ∀ va, InArea baseVa size va → (lastRegion done va).map MmapRegion.attr = ret)
    (h : mmapRegionAttrLoop baseVa size mm ret = some a) (hva : InArea baseVa size va) :
    (lastRegion (done ++ mm) va).map MmapRegion.attr = some a := by
  induction mm generalizing done ret with
  | nil =>
    rw [List.append_nil, hret va hva]
    exact h
  | cons r rest ih =>
    have hcat : done ++ r :: rest = (done ++ [r]) ++ rest := by simp
    rw [List.forall_mem_cons] at hpos
    rw [mmapRegionAttrLoop] at h
    unfold InArea at hva hret
    split at h
    · next hbehind =>
      rw [lastRegion_append, lastRegion_of_behind hord (by omega), Option.none_or, hret va hva]
      exact h
    rw [List.pairwise_cons] at hord
    rw [hcat]
    split at h
    · next hbefore =>
      refine ih (done ++ [r]) hord.2 hpos.2 (fun v hv => ?_) h
      rw [lastRegion_snoc, if_neg (by unfold Holds; unfold InArea at hv; omega), hret v hv]
    split at h
    · next hsame =>
      refine ih (done ++ [r]) hord.2 hpos.2 (fun v hv => ?_) h
      rw [lastRegion_snoc]
      split
      · rw [hsame]
        rfl
      · exact hret v hv
    split at h
    · cases h
    · next hcovers =>
      refine ih (done ++ [r]) hord.2 hpos.2 (fun v hv => ?_) h
      rw [lastRegion_snoc, if_pos]
      · rfl
      · unfold Holds
        unfold InArea at hv
        omega

/-- Whole pages are covered or left out, so the search for a page's attributes succeeds. -/
theorem mmapRegionAttrLoop_page (hbase : baseVa % 4096 = 0)
    (hmm : ∀ r ∈ mm, 0 < r.size ∧ r.baseVa % 4096 = 0 ∧ r.size % 4096 = 0) (a : MmapAttr) :
    ∃ a', mmapRegionAttrLoop baseVa 4096 mm (some a) = some a' := by
  induction mm generalizing a with
  | nil => exact ⟨a, rfl⟩
  | cons r rest ih =>
    rw [List.forall_mem_cons] at hmm
    rw [mmapRegionAttrLoop]
    split
    · exact ⟨a, rfl⟩
    split
    · exact ih hmm.2 a
    split
    · exact ih hmm.2 a
    split
    · omega
    · exact ih hmm.2 r.attr

end RegionAttr

/-! ## Descriptors -/

/-- The masks that `xlat_arch_get_xn_desc` returns. -/
def IsXnDesc (xnDesc : BitVec 64) : Prop :=
  xnDesc = upperAttrs Xlat.xn ∨ xnDesc = upperAttrs Xlat.pxn

/-- The block or page that maps window `e` of height `h` to itself. -/
def leafDesc (xnDesc : BitVec 64) (attr : MmapAttr) (h e : Nat) : BitVec 64 :=
  BitVec.ofNat 64 (e * longFormat.size h) |||
    ((if 3 - h = xlatTableLevelMax then pageDesc else blockDesc) ||| attrBits xnDesc attr)

section Desc

variable {xnDesc : BitVec 64} {attr : MmapAttr} {h e : Nat}

theorem mmapDesc_eq (hh : h ≤ 3) :
    mmapDesc xnDesc attr (e * longFormat.size h) (3 - h) = .ok (leafDesc xnDesc attr h e) := by
  unfold mmapDesc
  rw [xlatBlockSize_eq hh, Nat.mul_mod_left]
  rfl

section

variable (hx : IsXnDesc xnDesc)
include hx

theorem attrBits_and_attrMask (attr : MmapAttr) :
    attrBits xnDesc attr &&& attrMask = attrBits xnDesc attr := by
  obtain ⟨t, rw, ns, x⟩ := attr
  rcases hx with rfl | rfl <;> cases t <;> cases rw <;> cases ns <;> cases x <;> decide

theorem attrBits_and {mask : BitVec 64} (hm : attrMask &&& mask = 0#64) :
    attrBits xnDesc attr &&& mask = 0#64 := by
  rw [← attrBits_and_attrMask hx, BitVec.and_assoc, hm, BitVec.and_zero]

theorem type_leafDesc (hh : h ≤ 2) (he : e * longFormat.size h < 2 ^ 48) :
    leafDesc xnDesc attr h e &&& typeMask = if h = 0 then 3#64 else 1#64 := by
  rw [leafDesc, type_or ⟨mul_size_mod e h, he⟩, BitVec.and_or_distrib_right,
    attrBits_and hx (by decide), BitVec.or_zero]
  rcases Nat.eq_zero_or_pos h with rfl | hpos
  · decide
  · rw [if_neg (by unfold xlatTableLevelMax; omega), if_neg (by omega)]
    decide

theorem kind_leafDesc (hh : h ≤ 2) (he : e * longFormat.size h < 2 ^ 48) :
    longFormat.kind h (leafDesc xnDesc attr h e) = .leaf := by
  have ht : leafDesc xnDesc attr h e &&& typeMask = _ := type_leafDesc hx hh he
  rcases Nat.eq_zero_or_pos h with rfl | hpos
  · exact kind_of_page ht
  · rw [if_neg (by omega)] at ht
    exact kind_of_block ht (by omega)

theorem descAddr_leafDesc (he : e * longFormat.size h < 2 ^ 48) :
    descAddr (leafDesc xnDesc attr h e) = e * longFormat.size h := by
  refine descAddr_or ⟨mul_size_mod e h, he⟩ ?_
  rw [BitVec.and_or_distrib_right, attrBits_and hx (by decide), BitVec.or_zero]
  split <;> decide

end

end Desc

/-! ## Filling one entry -/

/-- The word at which the walk of `va` should end. -/
def Right (xnDesc : BitVec 64) (rs : List MmapRegion) (va : Nat) (q : Nat × BitVec 64) : Prop :=
  match lastRegion rs va with
  | none => q.2 = invalidDesc
  | some r => q.1 ≤ 2 ∧ q.2 = leafDesc xnDesc r.attr q.1 (longFormat.entry q.1 va)

/-- The computation ends with `P`, or for want of tables. -/
def Builds {α : Type} (r : Except Fault α) (P : α → Prop) : Prop :=
  match r with
  | .ok x => P x
  | .error e => e = .outOfTables

theorem Builds.bind {α β : Type} {r : Except Fault α} {f : α → Except Fault β} {P : α → Prop}
    {Q : β → Prop} (hr : Builds r P) (hf : ∀ x, P x → Builds (f x) Q) : Builds (r >>= f) Q := by
  cases r with
  | ok x => exact hf x hr
  | error e => exact hr

theorem Builds.mono {α : Type} {r : Except Fault α} {P Q : α → Prop} (hr : Builds r P)
    (h : ∀ x, P x → Q x) : Builds r Q := by
  cases r with
  | ok x => exact h x hr
  | error e => exact hr

/-- The cursor `mm` stands in the array `rs` behind regions that lie before `limit`. -/
def CursorAt (rs mm : List MmapRegion) (limit : Nat) : Prop :=
  ∃ done, rs = done ++ mm ∧ ∀ r ∈ done, r.baseVa + r.size ≤ limit

/-- The memories have the same tables `xlat_tables[n .. n' - 1]`. -/
def Agree (p : Platform) (n n' : Nat) (mem mem' : Nat → Nat → BitVec 64) : Prop :=
  ∀ j, n ≤ j → j < n' → mem (p.xlatTable j) = mem' (p.xlatTable j)

/-- Entry `idx` of table `t` at height `h`, which is window `e`, is settled. -/
structure AreaDone (p : Platform) (xnDesc : BitVec 64) (rs : List MmapRegion) (h e t idx : Nat)
    (mm : List MmapRegion) (st : Tables) (desc : BitVec 64) (mm' : List MmapRegion) (st' : Tables) :
    Prop where
  next : st.nextXlat ≤ st'.nextXlat
  cursor : CursorAt rs mm' (e * longFormat.size h + longFormat.size h)
  shorter : mm'.length ≤ mm.length
  /-- Nothing but new tables is written. -/
  frame : ∀ s, (∀ j, st.nextXlat ≤ j → j < st'.nextXlat → s ≠ p.xlatTable j) → st'.mem s = st.mem s
  /-- The word translates the addresses of its window. -/
  right : ∀ mem : Nat → Nat → BitVec 64, mem t idx = desc →
    Agree p st.nextXlat st'.nextXlat mem st'.mem → ∀ va < p.virtAddrSpaceSize,
      longFormat.entry h va = e → Right xnDesc rs va (longFormat.stop mem h t va)

/-- The entries of table `t` at height `h`, numbered `k`, are settled from `i` on. -/
structure FillDone (p : Platform) (xnDesc : BitVec 64) (rs : List MmapRegion) (h k t i : Nat)
    (mm : List MmapRegion) (st : Tables) (mm' : List MmapRegion) (st' : Tables) : Prop where
  next : st.nextXlat ≤ st'.nextXlat
  cursor : CursorAt rs mm' (k * longFormat.size (h + 1) + longFormat.size (h + 1))
  shorter : mm'.length ≤ mm.length
  frame : ∀ s ≠ t, (∀ j, st.nextXlat ≤ j → j < st'.nextXlat → s ≠ p.xlatTable j) →
    st'.mem s = st.mem s
  earlier : ∀ j < i, st'.mem t j = st.mem t j
  right : ∀ mem : Nat → Nat → BitVec 64, (∀ j, i ≤ j → mem t j = st'.mem t j) →
    Agree p st.nextXlat st'.nextXlat mem st'.mem → ∀ va < p.virtAddrSpaceSize,
      longFormat.entry (h + 1) va = k → k * longFormat.fan + i ≤ longFormat.entry h va →
        Right xnDesc rs va (longFormat.stop mem h t va)

section Area

variable {p : Platform} {xnDesc : BitVec 64} {rs mm : List MmapRegion} {h e va : Nat}

variable {limit i t k : Nat} {st : Tables}

theorem lastRegion_of_cursorAt (hc : CursorAt rs mm limit) (hva : limit ≤ va) :
    lastRegion rs va = lastRegion mm va := by
  obtain ⟨done, rfl, hdone⟩ := hc
  have hnone : lastRegion done va = none := by
    refine lastHolding_eq_none.mpr fun r hr hh => ?_
    have := hdone r hr
    unfold Holds at hh
    omega
  rw [lastRegion_append, hnone, Option.or_none]

theorem Accepted.of_cursorAt (hacc : Accepted p rs) (hc : CursorAt rs mm limit) :
    Accepted p mm := by
  obtain ⟨done, rfl, _⟩ := hc
  have hsub : mm.Sublist (done ++ mm) := List.sublist_append_right done mm
  exact ⟨fun r hr => hacc.regions r (hsub.subset hr), hacc.laminar.sublist hsub, hacc.order.sublist hsub⟩

theorem sub64_add {a b : Nat} (ha : a < 2 ^ 64) (hb : b ≤ 2 ^ 64) : (sub64 a b + b) % 2 ^ 64 = a := by
  rw [sub64, Nat.mod_add_mod, Nat.add_assoc, Nat.sub_add_cancel hb, Nat.add_mod_right, Nat.mod_eq_of_lt ha]

theorem mmapRegionAttr_page {r : MmapRegion} {rest : List MmapRegion} {baseVa : Nat}
    (hacc : Accepted p (r :: rest)) (hbase : baseVa % 4096 = 0)
    (hnot : ¬ r.baseVa + r.size - 1 < baseVa) (hmeets : ¬ r.baseVa > baseVa + 4096 - 1) :
    ∃ a, mmapRegionAttr (r :: rest) baseVa 4096 = some a := by
  have hr := hacc.regions r (List.mem_cons_self ..)
  have hpos := hr.nonempty
  have hb := hr.base
  have hs := hr.size
  have hall : ∀ s ∈ rest, 0 < s.size ∧ s.baseVa % 4096 = 0 ∧ s.size % 4096 = 0 := fun s hs => by
    have := hacc.regions s (List.mem_cons_of_mem _ hs)
    exact ⟨this.nonempty, this.base, this.size⟩
  rw [mmapRegionAttr, mmapRegionAttrLoop, if_neg hmeets, if_neg hnot, if_neg (by simp), if_neg (by omega)]
  exact mmapRegionAttrLoop_page hbase hall r.attr

/-- An invalid descriptor if no region meets the window, a block or page if the innermost region is the same all
over, and otherwise a table. -/
theorem areaDesc_cases (xnDesc : BitVec 64) (hacc : Accepted p rs) (hh : h ≤ 3)
    (hc : CursorAt rs mm (e * longFormat.size h)) (hnot : overtaken mm (e * longFormat.size h) = false)
    (hbelow : e * longFormat.size h < p.virtAddrSpaceSize) :
    (areaDesc xnDesc (3 - h) mm (e * longFormat.size h) = .ok (some invalidDesc) ∧
      ∀ va, longFormat.entry h va = e → lastRegion rs va = none) ∨
    (∃ attr, areaDesc xnDesc (3 - h) mm (e * longFormat.size h) =
        .ok (some (leafDesc xnDesc attr h e)) ∧ h ≤ 2 ∧
      ∀ va, longFormat.entry h va = e → (lastRegion rs va).map MmapRegion.attr = some attr) ∨
    (areaDesc xnDesc (3 - h) mm (e * longFormat.size h) = .ok none ∧ 0 < h) := by
  have haccm := hacc.of_cursorAt hc
  have hmm : ∀ va, longFormat.entry h va = e → lastRegion rs va = lastRegion mm va := fun va hva =>
    lastRegion_of_cursorAt hc (longFormat.entry_eq_iff.mp hva).1
  cases mm with
  | nil => exact Or.inl ⟨rfl, fun va hva => hmm va hva⟩
  | cons r rest =>
    have hr := haccm.regions r (List.mem_cons_self ..)
    have hspace := p.space_le
    have hrbelow := hr.below
    simp only [areaDesc, xlatBlockSize_eq hh]
    split
    · next hbehind =>
      refine Or.inl ⟨rfl, fun va hva => ?_⟩
      have hwin := longFormat.entry_eq_iff.mp hva
      rw [hmm va hva]
      exact lastRegion_of_behind haccm.order (by omega)
    next hmeets =>
    split
    · next hlevel =>
      have hh2 : h ≤ 2 := by
        unfold minLvlBlockDesc at hlevel
        omega
      cases hattr : mmapRegionAttr (r :: rest) (e * longFormat.size h) (longFormat.size h) with
      | some attr =>
        refine Or.inr (Or.inl ⟨attr, ?_, hh2, fun va hva => ?_⟩)
        · simp only [hr.flat]
          rw [sub64_add (by omega) (by omega), mmapDesc_eq hh]
          rfl
        · rw [hmm va hva]
          exact mmapRegionAttrLoop_eq_some [] haccm.order
            (fun r hr => (haccm.regions r hr).nonempty) (fun _ _ => rfl) hattr
            (longFormat.entry_eq_iff.mp hva)
      | none =>
        refine Or.inr (Or.inr ⟨rfl, Nat.pos_of_ne_zero ?_⟩)
        rintro rfl
        rw [size_4k] at hattr hmeets hnot
        obtain ⟨a, ha⟩ := mmapRegionAttr_page haccm (Nat.mul_mod_left e 4096) (of_decide_eq_false hnot) hmeets
        rw [hattr] at ha
        cases ha
    · next hlevel =>
      refine Or.inr (Or.inr ⟨rfl, ?_⟩)
      unfold minLvlBlockDesc at hlevel
      omega

theorem CursorAt.mono {limit' : Nat} (hc : CursorAt rs mm limit) (hle : limit ≤ limit') :
    CursorAt rs mm limit' := by
  obtain ⟨done, hrs, hdone⟩ := hc
  exact ⟨done, hrs, fun r hr => (hdone r hr).trans hle⟩

/-- The table is none of those that are still to be handed out. -/
def NotFree (p : Platform) (t n : Nat) : Prop := ∀ j, n ≤ j → j < p.maxXlatTables → t ≠ p.xlatTable j

/-- The function fills the tables at height `h` as they should be. -/
def InnerOk (p : Platform) (xnDesc : BitVec 64) (rs : List MmapRegion) (h : Nat) (inner : Fill) :
    Prop :=
  ∀ k t st mm, CursorAt rs mm (k * longFormat.size (h + 1)) →
    overtaken mm (k * longFormat.size (h + 1)) = false →
    k * longFormat.size (h + 1) < p.virtAddrSpaceSize → NotFree p t st.nextXlat →
    st.nextXlat ≤ p.maxXlatTables →
    Builds (inner mm (k * longFormat.size (h + 1)) t st)
      fun q => FillDone p xnDesc rs h k t 0 mm st q.1 q.2 ∧ q.2.nextXlat ≤ p.maxXlatTables

theorem fits_xlatTable {j : Nat} (hj : j < p.maxXlatTables) : Fits (p.xlatTable j) := by
  have h1 := p.tables_aligned
  have h2 := p.tables_below
  unfold Fits Platform.xlatTable
  omega

theorem xlatTable_inj {j : Nat} : p.xlatTable i = p.xlatTable j ↔ i = j := by
  unfold Platform.xlatTable
  omega

/-- The window of an entry is settled by the descriptor that it gets. -/
theorem fillArea_builds {inner : Fill} (hx : IsXnDesc xnDesc) (hacc : Accepted p rs) (hh : h ≤ 3)
    (hin : ∀ g, h = g + 1 → InnerOk p xnDesc rs g inner)
    (hc : CursorAt rs mm (e * longFormat.size h))
    (hnot : overtaken mm (e * longFormat.size h) = false)
    (hbelow : e * longFormat.size h < p.virtAddrSpaceSize) (hnext : st.nextXlat ≤ p.maxXlatTables) :
    Builds (fillArea p xnDesc inner (3 - h) mm (e * longFormat.size h) st) fun q =>
      AreaDone p xnDesc rs h e t (e % longFormat.fan) mm st q.1 q.2.1 q.2.2 ∧
        q.2.2.nextXlat ≤ p.maxXlatTables := by
  have hspace := p.space_le
  have hlt : e * longFormat.size h < 2 ^ 48 := by omega
  have hidx : ∀ va, longFormat.entry h va = e → longFormat.index h va = e % longFormat.fan := by
    rintro va rfl
    rfl
  have hstop : ∀ {desc} {mem : Nat → Nat → BitVec 64} {va}, longFormat.entry h va = e →
      mem t (e % longFormat.fan) = desc → (∀ s, longFormat.kind h desc ≠ .table s) →
      longFormat.stop mem h t va = (h, desc) := by
    intro desc mem va hva hmem hk
    rw [← hidx va hva] at hmem
    rw [stop_of_not_table (hmem ▸ hk), hmem]
  unfold fillArea
  rcases areaDesc_cases xnDesc hacc hh hc hnot hbelow with
    ⟨hdesc, hnone⟩ | ⟨attr, hdesc, hh2, hattr⟩ | ⟨hdesc, hpos⟩
  · rw [hdesc]
    refine ⟨⟨le_rfl, hc.mono (by omega), le_rfl, fun _ _ => rfl, ?_⟩, hnext⟩
    intro mem hmem _ va _ hva
    rw [hstop hva hmem (by simp [kind_invalidDesc])]
    simp only [Right, hnone va hva]
  · rw [hdesc]
    refine ⟨⟨le_rfl, hc.mono (by omega), le_rfl, fun _ _ => rfl, ?_⟩, hnext⟩
    intro mem hmem _ va _ hva
    obtain ⟨r, hr, rfl⟩ := Option.map_eq_some_iff.mp (hattr va hva)
    rw [hstop hva hmem (by simp [kind_leafDesc hx hh2 hlt]), Right, hr]
    exact ⟨hh2, by rw [hva]⟩
  · obtain ⟨g, rfl⟩ : ∃ g, h = g + 1 := ⟨h - 1, by omega⟩
    rw [hdesc]
    split
    · rfl
    next hroom =>
    have hfree : NotFree p (p.xlatTable st.nextXlat) (st.nextXlat + 1) := by
      intro j hj _ heq
      rw [xlatTable_inj] at heq
      omega
    refine (hin g rfl e _ { st with nextXlat := st.nextXlat + 1 } mm hc hnot hbelow hfree (not_lt.mp hroom)).bind ?_
    rintro ⟨mm', st'⟩ ⟨hfill, hmax⟩
    have hmore : st.nextXlat + 1 ≤ st'.nextXlat := hfill.next
    refine ⟨⟨(Nat.le_succ _).trans hmore, hfill.cursor, hfill.shorter, fun s hs => ?_, ?_⟩, hmax⟩
    · exact hfill.frame s (hs _ le_rfl hmore) fun j hj hj' => hs j ((Nat.le_succ _).trans hj) hj'
    · intro mem hmem hagree va hva hwin
      have hk : longFormat.kind (g + 1) (mem t (longFormat.index (g + 1) va)) =
          .table (p.xlatTable st.nextXlat) := by
        rw [hidx va hwin, hmem]
        exact kind_tableDesc (fits_xlatTable (by omega))
      rw [stop_of_table hk]
      refine hfill.right mem (fun j _ => ?_) (fun j hj hj' => ?_) va hva hwin ?_
      · rw [hagree _ le_rfl hmore]
      · exact hagree j ((Nat.le_succ _).trans hj) hj'
      · rw [longFormat.entry_eq g, hwin]
        omega

/-! ## Filling a table -/

theorem goesOn_iff (hh : h ≤ 3) : goesOn p (3 - h) (e * longFormat.size h) = true ↔
    e % longFormat.fan ≠ 0 ∧ e * longFormat.size h < p.virtAddrSpaceSize := by
  have hpos := longFormat.size_pos h
  have hspace := p.space_le
  have hentries : xlatTableEntries = longFormat.fan := rfl
  unfold goesOn
  rw [xlatBlockSize_eq hh, Nat.mul_div_cancel _ hpos, hentries, decide_eq_true_iff]
  constructor
  · rintro ⟨h1, h2, h3⟩
    exact ⟨h1, by omega⟩
  · rintro ⟨h1, h2⟩
    have he : e ≠ 0 := by
      rintro rfl
      exact h1 (Nat.zero_mod _)
    have hne : e * longFormat.size h ≠ 0 := Nat.mul_ne_zero he hpos.ne'
    exact ⟨h1, hne, by omega⟩

theorem FillDone.of_area {mm1 mm' : List MmapRegion} {st1 st' : Tables} {desc : BitVec 64}
    (hi : i < longFormat.fan) (hfree : NotFree p t st.nextXlat)
    (ha : AreaDone p xnDesc rs h (k * longFormat.fan + i) t ((k * longFormat.fan + i) % longFormat.fan)
      mm st desc mm1 st1) (hmax : st'.nextXlat ≤ p.maxXlatTables)
    (hf : FillDone p xnDesc rs h k t (i + 1) mm1 { st1 with mem := setEntry st1.mem t i desc } mm' st') :
    FillDone p xnDesc rs h k t i mm st mm' st' := by
  have hnext : st1.nextXlat ≤ st'.nextXlat := hf.next
  have hkeep : ∀ s ≠ t, (∀ j, st1.nextXlat ≤ j → j < st'.nextXlat → s ≠ p.xlatTable j) →
      st'.mem s = st1.mem s := by
    intro s hs hpool
    rw [hf.frame s hs hpool]
    funext j
    exact setEntry_other (Or.inl hs)
  have hpool : ∀ j, st.nextXlat ≤ j → j < st1.nextXlat →
      st'.mem (p.xlatTable j) = st1.mem (p.xlatTable j) := by
    intro j hj hj'
    refine hkeep _ (hfree j hj (by omega)).symm fun j' h1 _ heq => ?_
    rw [xlatTable_inj] at heq
    omega
  refine ⟨ha.next.trans hnext, hf.cursor, hf.shorter.trans ha.shorter, fun s hs hp => ?_, fun j hj => ?_, ?_⟩
  · rw [hkeep s hs fun j h1 h2 => hp j (ha.next.trans h1) h2, ha.frame s fun j h1 h2 => hp j h1 (h2.trans_le hnext)]
  · rw [hf.earlier j (by omega)]
    show setEntry st1.mem t i desc t j = _
    rw [setEntry_other (Or.inr (by omega)),
      ha.frame t fun j' h1 h2 => hfree j' h1 ((h2.trans_le hnext).trans_le hmax)]
  · intro mem hmem hagree va hva hk hle
    rcases Nat.lt_or_ge (k * longFormat.fan + i) (longFormat.entry h va) with hlt | hge
    · exact hf.right mem (fun j hj => hmem j (by omega)) (fun j h1 h2 => hagree j (ha.next.trans h1) h2) va hva hk hlt
    · have hentry : mem t i = desc := by
        rw [hmem i le_rfl, hf.earlier i (Nat.lt_succ_self i)]
        exact setEntry_self ..
      refine ha.right mem ?_ (fun j h1 h2 => ?_) va hva (le_antisymm hge hle)
      · rw [longFormat.number_mod hi]
        exact hentry
      · rw [hagree j h1 (h2.trans_le hnext), hpool j h1 h2]

/-- Where the loop ends, no entry of the table is left. -/
theorem FillDone.at_end (hi : i < longFormat.fan) (hh : h ≤ 3)
    (hc : CursorAt rs mm ((k * longFormat.fan + i) * longFormat.size h + longFormat.size h))
    (hend : ¬ goesOn p (3 - h) ((k * longFormat.fan + (i + 1)) * longFormat.size h)) :
    FillDone p xnDesc rs h k t (i + 1) mm st mm st := by
  rw [goesOn_iff hh, not_and_or, not_not, not_lt] at hend
  have hwindow : (k * longFormat.fan + i) * longFormat.size h + longFormat.size h ≤
      k * longFormat.size (h + 1) + longFormat.size (h + 1) := by
    rw [longFormat.size_succ]
    calc (k * longFormat.fan + i) * longFormat.size h + longFormat.size h
        = (k * longFormat.fan + (i + 1)) * longFormat.size h := by ring
      _ ≤ (k * longFormat.fan + longFormat.fan) * longFormat.size h :=
          Nat.mul_le_mul_right _ (by omega)
      _ = k * (longFormat.size h * longFormat.fan) + longFormat.size h * longFormat.fan := by ring
  refine ⟨le_rfl, hc.mono hwindow, le_rfl, fun _ _ _ => rfl, fun _ _ => rfl, fun mem _ _ va hva hk hle => ?_⟩
  rcases hend with hmod | hspace
  · -- entry 511: the next number belongs to the next table
    have hlast : i + 1 = longFormat.fan := by
      rw [Nat.mul_comm, Nat.mul_add_mod] at hmod
      rcases Nat.lt_or_ge (i + 1) longFormat.fan with hlt | hge
      · rw [Nat.mod_eq_of_lt hlt] at hmod
        omega
      · omega
    have hidx := longFormat.index_lt h va
    have := longFormat.entry_eq h va
    rw [hk] at this
    omega
  · have : longFormat.entry h va < k * longFormat.fan + (i + 1) :=
      (Nat.div_lt_iff_lt_mul (longFormat.size_pos h)).mpr (hva.trans_le hspace)
    omega

/-- The loop settles the entries from `i` on. -/
theorem initLoop_builds {inner : Fill} {fuel : Nat} (hx : IsXnDesc xnDesc) (hacc : Accepted p rs)
    (hh : h ≤ 3) (hin : ∀ g, h = g + 1 → InnerOk p xnDesc rs g inner) (hi : i < longFormat.fan)
    (hc : CursorAt rs mm ((k * longFormat.fan + i) * longFormat.size h))
    (hfirst : i = 0 → overtaken mm ((k * longFormat.fan + i) * longFormat.size h) = false)
    (hbelow : (k * longFormat.fan + i) * longFormat.size h < p.virtAddrSpaceSize)
    (hfree : NotFree p t st.nextXlat) (hnext : st.nextXlat ≤ p.maxXlatTables)
    (hfuel : mm.length + (longFormat.fan - i) ≤ fuel) :
    Builds (initLoop p xnDesc inner (3 - h) t fuel mm ((k * longFormat.fan + i) * longFormat.size h) i st)
      fun q => FillDone p xnDesc rs h k t i mm st q.1 q.2 ∧ q.2.nextXlat ≤ p.maxXlatTables := by
  induction fuel generalizing mm i st with
  | zero => omega
  | succ fuel ih =>
    rw [initLoop]
    split
    · next hover =>
      -- the cursor moves on; at the first entry that cannot happen, so the `continue` is harmless
      have hi0 : i ≠ 0 := fun h0 => by
        rw [hfirst h0] at hover
        cases hover
      have hgoes : goesOn p (3 - h) ((k * longFormat.fan + i) * longFormat.size h) = true :=
        (goesOn_iff hh).mpr ⟨by rw [longFormat.number_mod hi]; exact hi0, hbelow⟩
      rw [if_pos hgoes]
      cases mm with
      | nil => cases hover
      | cons r rest =>
        obtain ⟨done, hrs, hdone⟩ := hc
        have hr := hacc.regions r (by rw [hrs]; simp)
        have hpos := hr.nonempty
        have hbefore := of_decide_eq_true hover
        have hc' : CursorAt rs rest ((k * longFormat.fan + i) * longFormat.size h) := by
          refine ⟨done ++ [r], by rw [hrs]; simp, fun s hs => ?_⟩
          rcases List.mem_append.mp hs with hs | hs
          · exact hdone s hs
          · obtain rfl : s = r := by simpa using hs
            omega
        have hrest := ih hi hc' (fun h0 => absurd h0 hi0) hbelow hfree hnext
          (by simp only [List.length_cons] at hfuel; omega)
        refine hrest.mono fun q hq => ⟨⟨hq.1.next, hq.1.cursor, ?_, hq.1.frame, hq.1.earlier, hq.1.right⟩, hq.2⟩
        exact hq.1.shorter.trans (Nat.le_succ _)
    · next hover =>
      have hnot : overtaken mm ((k * longFormat.fan + i) * longFormat.size h) = false := by
        simpa using hover
      refine (fillArea_builds (t := t) hx hacc hh hin hc hnot hbelow hnext).bind ?_
      rintro ⟨desc, mm1, st1⟩ ⟨harea, hmax⟩
      have hva : (k * longFormat.fan + i) * longFormat.size h + xlatBlockSize (3 - h) =
          (k * longFormat.fan + (i + 1)) * longFormat.size h := by
        rw [xlatBlockSize_eq hh]
        ring
      simp only [hva]
      split
      · next hgoes =>
        obtain ⟨hmod, hspace⟩ := (goesOn_iff hh).mp hgoes
        have hi' : i + 1 < longFormat.fan := by
          rcases Nat.lt_or_ge (i + 1) longFormat.fan with hlt | hge
          · exact hlt
          · have : i + 1 = longFormat.fan := by omega
            rw [this, Nat.add_mod_right, Nat.mul_mod_left] at hmod
            exact absurd rfl hmod
        have hcur : CursorAt rs mm1 ((k * longFormat.fan + (i + 1)) * longFormat.size h) := by
          have := harea.cursor
          rwa [← Nat.succ_mul] at this
        have hshort : mm1.length ≤ mm.length := harea.shorter
        refine Builds.mono (ih hi' hcur (fun h0 => absurd h0 (Nat.succ_ne_zero i)) hspace
          (fun j hj hj' => hfree j (harea.next.trans hj) hj') hmax (by omega)) fun q hq => ?_
        exact ⟨FillDone.of_area hi hfree harea hq.2 hq.1, hq.2⟩
      · next hend => exact ⟨FillDone.of_area hi hfree harea hmax (.at_end hi hh harea.cursor hend), hmax⟩

theorem mul_size_succ (k h : Nat) :
    k * longFormat.size (h + 1) = (k * longFormat.fan + 0) * longFormat.size h := by
  rw [longFormat.size_succ]
  ring

theorem initXlationTableInner_innerOk (hx : IsXnDesc xnDesc) (hacc : Accepted p rs) (hh : h ≤ 3) :
    InnerOk p xnDesc rs h (initXlationTableInner p xnDesc h) := by
  induction h with
  | zero =>
    intro k t st mm hc hnot hbelow hfree hnext
    rw [mul_size_succ] at hc hnot hbelow ⊢
    exact initLoop_builds hx hacc hh (fun g hg => nomatch hg) (by decide) hc (fun _ => hnot)
      hbelow hfree hnext le_rfl
  | succ g ih =>
    intro k t st mm hc hnot hbelow hfree hnext
    rw [mul_size_succ] at hc hnot hbelow ⊢
    refine initLoop_builds hx hacc hh (fun g' hg => ?_) (by decide) hc (fun _ => hnot)
      hbelow hfree hnext le_rfl
    obtain rfl : g = g' := Nat.succ.inj hg
    exact ih (by omega)

end Area

/-! ## The whole table -/

/-- The word at which the walk of `va` ends means what the region list says. -/
structure Translates (xnDesc : BitVec 64) (regs : List MmapRegion) (va : Nat) (q : Nat × BitVec 64) :
    Prop where
  unmapped : longFormat.kind q.1 q.2 = .invalid ↔
    ∀ r ∈ regs, ¬ Holds MmapRegion.baseVa MmapRegion.size r va
  leaf : ∀ r, Innermost MmapRegion.baseVa MmapRegion.size regs va r →
    longFormat.kind q.1 q.2 = .leaf
  output : ∀ r, Innermost MmapRegion.baseVa MmapRegion.size regs va r → outAddr q.1 q.2 va = va
  /-- The word is the one that `mmap_desc` makes of the region's attributes. -/
  desc : ∀ r, Innermost MmapRegion.baseVa MmapRegion.size regs va r →
    mmapDesc xnDesc r.attr (va / longFormat.size q.1 * longFormat.size q.1) (3 - q.1) = .ok q.2 ∧
      descAttrs q.2 = attrBits xnDesc r.attr

section Whole

variable {p : Platform} {xnDesc : BitVec 64} {rs : List MmapRegion}

theorem descAttrs_leafDesc {attr : MmapAttr} {h e : Nat} (hx : IsXnDesc xnDesc)
    (he : e * longFormat.size h < 2 ^ 48) :
    descAttrs (leafDesc xnDesc attr h e) = attrBits xnDesc attr := by
  have htype : (if 3 - h = xlatTableLevelMax then pageDesc else blockDesc) &&& attrMask = 0#64 := by
    split <;> decide
  rw [leafDesc, descAttrs_or ⟨mul_size_mod e h, he⟩, BitVec.and_or_distrib_right, htype,
    BitVec.zero_or, attrBits_and_attrMask hx]

/-- In an accepted array the last region is the innermost. -/
theorem Right.translates {va : Nat} {q : Nat × BitVec 64} (hx : IsXnDesc xnDesc)
    (hacc : Accepted p rs) (hva : va < p.virtAddrSpaceSize) (h : Right xnDesc rs va q) :
    Translates xnDesc rs va q := by
  unfold Right at h
  cases hlast : lastRegion rs va with
  | none =>
    rw [hlast] at h
    have hout := lastHolding_eq_none.mp hlast
    have hnone : ∀ r, ¬ Innermost MmapRegion.baseVa MmapRegion.size rs va r :=
      fun r hr => hout r hr.mem hr.holds
    have hinv : longFormat.kind q.1 q.2 = .invalid := by
      rw [show q.2 = invalidDesc from h]
      exact kind_invalidDesc
    exact ⟨⟨fun _ => hout, fun _ => hinv⟩, fun r hr => absurd hr (hnone r),
      fun r hr => absurd hr (hnone r), fun r hr => absurd hr (hnone r)⟩
  | some r =>
    rw [hlast] at h
    obtain ⟨hh, hw⟩ := h
    have hinner := innermost_of_lastHolding hacc.laminar hacc.order hlast
    have hr := (hinner r).mpr rfl
    have hbase : longFormat.entry q.1 va * longFormat.size q.1 < 2 ^ 48 :=
      (Nat.div_mul_le_self va _).trans_lt (hva.trans_le p.space_le.2)
    have hleaf : longFormat.kind q.1 q.2 = .leaf := by
      rw [hw]
      exact kind_leafDesc hx hh hbase
    refine ⟨⟨fun hk => ?_, fun hout => absurd hr.holds (hout r hr.mem)⟩, fun s hs => hleaf,
      fun s hs => ?_, fun s hs => ?_⟩
    · rw [hleaf] at hk
      cases hk
    · rw [hw, outAddr_of_dvd (descAddr_leafDesc hx hbase)]
      exact Nat.div_add_mod' va _
    · obtain rfl := (hinner s).mp hs
      refine ⟨?_, ?_⟩
      · rw [hw]
        exact mmapDesc_eq (by omega)
      · rw [hw, descAttrs_leafDesc hx hbase]

theorem Translates.congr {regs : List MmapRegion} (hmem : ∀ r, r ∈ rs ↔ r ∈ regs) {va : Nat}
    {q : Nat × BitVec 64} (h : Translates xnDesc rs va q) : Translates xnDesc regs va q := by
  have hinner : ∀ r, Innermost MmapRegion.baseVa MmapRegion.size regs va r →
      Innermost MmapRegion.baseVa MmapRegion.size rs va r := fun r hr =>
    ⟨(hmem r).mpr hr.mem, hr.holds, fun s hs => hr.least s ((hmem s).mp hs)⟩
  refine ⟨?_, fun r hr => h.leaf r (hinner r hr), fun r hr => h.output r (hinner r hr),
    fun r hr => h.desc r (hinner r hr)⟩
  rw [h.unmapped]
  exact forall_congr' fun r => imp_congr_left (hmem r)

theorem Platform.space_le_size (p : Platform) :
    p.virtAddrSpaceSize ≤ longFormat.size (xlatTableLevelMax - p.xlatTableLevelBase + 1) := by
  have hspace := p.space_le.2
  unfold Platform.xlatTableLevelBase getXlatTableLevelBase xlatTableLevelMax
  rw [size_eq]
  split
  · exact hspace
  · split
    · next h39 _ => exact not_lt.mp h39
    · next h30 => exact not_lt.mp h30

/-- The walk of an address ends at an invalid descriptor if no region holds the address, and otherwise at the
block or page that maps the address to itself with the attributes of the innermost region. The array keeps an
empty entry at its end as long as there are no more than `MAX_MMAP_REGIONS` regions. -/
theorem init_xlation_table_means_regions (p : Platform) (el : Nat) (regs : List MmapRegion)
    (m : Mmap) (st : Tables) (hel : el = 1 ∨ el = 3) (hflat : ∀ r ∈ regs, FlatRegion r)
    (_hfit : regs.length ≤ p.maxMmapRegions) (hadd : mmapAdd p regs emptyMmap = some m)
    (hnext : st.nextXlat = 0) (hroom : initXlationTable p el m st ≠ .error .outOfTables) :
    ∃ st' xnDesc, xlatArchGetXnDesc el = .ok xnDesc ∧
      initXlationTable p el m st = .ok (st', m.xlatMaxVa, m.xlatMaxPa) ∧
      ∀ va < p.virtAddrSpaceSize, Translates xnDesc regs va
        (longFormat.stop st'.mem (xlatTableLevelMax - p.xlatTableLevelBase) p.baseXlationTable va) := by
  have hempty : Accepted p emptyMmap.regions := ⟨by simp [emptyMmap], .nil, .nil⟩
  obtain ⟨hacc, hmem⟩ := accepted_mmapAdd hempty hflat hadd
  obtain ⟨xnDesc, hxn, hx⟩ : ∃ xnDesc, xlatArchGetXnDesc el = .ok xnDesc ∧ IsXnDesc xnDesc := by
    rcases hel with rfl | rfl
    · exact ⟨_, rfl, Or.inr rfl⟩
    · exact ⟨_, rfl, Or.inl rfl⟩
  have hspace := p.space_le
  have hfree : NotFree p p.baseXlationTable st.nextXlat := by
    intro j _ hj
    have := p.base_apart
    unfold Platform.xlatTable
    omega
  have hzero : 0 * longFormat.size (xlatTableLevelMax - p.xlatTableLevelBase + 1) = 0 := Nat.zero_mul _
  have hnot : overtaken m.regions 0 = false := by
    unfold overtaken
    split <;> simp
  have hfill := initXlationTableInner_innerOk (h := xlatTableLevelMax - p.xlatTableLevelBase) hx hacc
    (Nat.sub_le ..) 0 p.baseXlationTable st m.regions ⟨[], rfl, by simp⟩ (by rw [hzero]; exact hnot)
    (by rw [hzero]; exact hspace.1) hfree (by omega)
  rw [hzero] at hfill
  have hrun : initXlationTable p el m st =
      (initXlationTableInner p xnDesc (xlatTableLevelMax - p.xlatTableLevelBase) m.regions 0
        p.baseXlationTable st).map fun q => (q.2, m.xlatMaxVa, m.xlatMaxPa) := by
    unfold initXlationTable
    rw [hxn]
    rfl
  cases hres : initXlationTableInner p xnDesc (xlatTableLevelMax - p.xlatTableLevelBase) m.regions 0
      p.baseXlationTable st with
  | error e =>
    rw [hres] at hfill hrun
    obtain rfl : e = .outOfTables := hfill
    exact absurd hrun hroom
  | ok q =>
    rw [hres] at hfill hrun
    refine ⟨q.2, xnDesc, hxn, hrun, fun va hva => ?_⟩
    have hentry : longFormat.entry (xlatTableLevelMax - p.xlatTableLevelBase + 1) va = 0 :=
      Nat.div_eq_of_lt (hva.trans_le p.space_le_size)
    have hright := hfill.1.right q.2.mem (fun _ _ => rfl) (fun _ _ _ => rfl) va hva hentry
      (by rw [Nat.zero_mul]; exact Nat.zero_le _)
    refine (hright.translates hx hacc hva).congr fun r => ?_
    rw [hmem]
    simp [emptyMmap]

end Whole

def smallPlatform : Platform where
  virtAddrSpaceSize := 2 ^ 32
  physAddrSpaceSize := 2 ^ 32
  maxMmapRegions := 8
  maxXlatTables := 4
  baseXlationTable := 0x40000
  xlatTables := 0x50000
  virt_valid := ⟨32, by decide, by decide, rfl⟩
  tables_aligned := by decide
  tables_below := by decide
  base_apart := by decide

def nestedRegions : List MmapRegion :=
  [{ basePa := 0x200000, baseVa := 0x200000, size := 0x400000
     attr := { memType := .memory, rw := true, ns := false, executeNever := false } },
   { basePa := 0x301000, baseVa := 0x301000, size := 0x1000
     attr := { memType := .memory, rw := false, ns := false, executeNever := true } }]

theorem init_xlation_table_means_nested_regions :
    ∃ m, mmapAdd smallPlatform nestedRegions emptyMmap = some m ∧
      ∃ st' xnDesc, xlatArchGetXnDesc 3 = .ok xnDesc ∧
        initXlationTable smallPlatform 3 m ⟨fun _ _ => 0#64, 0⟩ =
          .ok (st', m.xlatMaxVa, m.xlatMaxPa) ∧
        ∀ va < smallPlatform.virtAddrSpaceSize, Translates xnDesc nestedRegions va
          (longFormat.stop st'.mem (xlatTableLevelMax - smallPlatform.xlatTableLevelBase)
            smallPlatform.baseXlationTable va) := by
  have hok : ((mmapAdd smallPlatform nestedRegions emptyMmap).bind fun m =>
      (initXlationTable smallPlatform 3 m ⟨fun _ _ => 0#64, 0⟩).toOption).isSome = true := by
    decide +kernel
  have hflat : ∀ r ∈ nestedRegions, FlatRegion r := by
    have hall : ∀ r ∈ nestedRegions, r.basePa = r.baseVa ∧ r.size ≠ 0 ∧ r.baseVa < 2 ^ 64 ∧
        r.size < 2 ^ 64 := by decide
    intro r hr
    obtain ⟨h1, h2, h3, h4⟩ := hall r hr
    exact ⟨h1, h2, h3, h4⟩
  cases hadd : mmapAdd smallPlatform nestedRegions emptyMmap with
  | none =>
    rw [hadd] at hok
    cases hok
  | some m =>
    refine ⟨m, rfl, init_xlation_table_means_regions smallPlatform 3 nestedRegions m _ (Or.inr rfl)
      hflat (by decide) hadd rfl fun herr => ?_⟩
    rw [hadd, Option.bind_some, herr] at hok
    cases hok

end Armada3720.XlatV1
