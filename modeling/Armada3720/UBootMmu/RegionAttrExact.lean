import Armada3720.UBootMmu.RegionAttr

/-!
# Which translations a change of attributes reaches

A pass of `set_one_region` edits every granule of the range. Where the entry of a granule points to a table, the
pages below are *stale* and keep what they had. The memory types are shifted twice on their way to the entry, so
that only "off" arrives as it was meant.
-/

namespace Armada3720.UBootMmu

open Lib Lib.PageFormat

/-- The computation ends with `P`, or for want of room for a table. -/
def Completes {α : Type} (r : Except RegionStop α) (P : α → Prop) : Prop :=
  match r with
  | .ok x => P x
  | .error e => ∃ used size, e = .stop (.insufficientRam used size)

theorem Completes.bind {α β : Type} {r : Except RegionStop α} {f : α → Except RegionStop β}
    {P : α → Prop} {Q : β → Prop} (hr : Completes r P) (hf : ∀ x, P x → Completes (f x) Q) :
    Completes (r >>= f) Q := by
  cases r with
  | ok x => exact hf x hr
  | error e => exact hr

theorem Completes.mono {α : Type} {r : Except RegionStop α} {P Q : α → Prop} (hr : Completes r P)
    (h : ∀ x, P x → Q x) : Completes r Q := by
  cases r with
  | ok x => exact h x hr
  | error e => exact hr

theorem Succeeds.completes {α : Type} {r : Except Stop α} {P : α → Prop} (hr : Succeeds r P) :
    Completes (r.mapError .stop) P := by
  cases r with
  | ok x => exact hr
  | error e =>
    obtain ⟨used, size, rfl⟩ := hr
    exact ⟨used, size, rfl⟩

/-! ## One entry -/

/-- `start` and `size` are what a pass over `lo .. lo + len - 1` has left. -/
structure LeftOf (lo len start size : Nat) : Prop where
  bounds : OnPageBounds start size
  sub : ∀ {h e}, Granule start size h e → Granule lo len h e
  rest : ∀ {h e}, Granule lo len h e → Granule start size h e ∨ (e + 1) * longFormat.size h ≤ start

section Entry

variable {m : List MmRegion} {g : Edits} {a b : Arch} {h t va lo len start size : Nat} {f : BitVec 64 → BitVec 64}

theorem leftOf_self (hr : OnPageBounds lo len) : LeftOf lo len lo len :=
  ⟨hr, fun hg => hg, fun hg => .inl hg⟩

theorem LeftOf.next (hl : LeftOf lo len start size) (hpos : 0 < size) :
    LeftOf lo len (start + longFormat.size (fitHeight start size))
      (size - longFormat.size (fitHeight start size)) where
  bounds := hl.bounds.next hpos
  sub hg := hl.sub (.next hpos hg)
  rest := by
    intro h e hg
    rcases hl.rest hg with hg | hle
    · cases hg with
      | here _ =>
        refine .inr ?_
        rw [Nat.add_one_mul, hl.bounds.fit_start]
      | next _ hg => exact .inl hg
    · exact .inr (hle.trans (Nat.le_add_right _ _))

theorem LeftOf.not_granule_above (hl : LeftOf lo len start size) (hlt : fitHeight start size < h) :
    ¬ Granule lo len h (longFormat.entry h start) := by
  intro hg
  rcases hl.rest hg with hg | hle
  · exact UBootMmu.not_granule_above hl.bounds hlt hg
  · have hwin := longFormat.window_mem h start
    rw [Nat.add_one_mul] at hle
    omega

/-- One more word edited. -/
def Edits.at (g : Edits) (h e : Nat) (f : BitVec 64 → BitVec 64) : Edits :=
  fun h' e' => if h' = h ∧ e' = e then f ∘ g h' e' else g h' e'

theorem Overlaid.setPte (ho : Overlaid m g b a) (hg : Good m b)
    (ht : b.tab m h (longFormat.entry (h + 1) va) = some t) :
    Overlaid m (g.at h (longFormat.entry h va) f) b
      (a.setPte (t, longFormat.index h va) (f (a.mem t (longFormat.index h va)))) where
  addr := ho.addr
  size := ho.size
  fillptr := ho.fillptr
  mem := by
    intro h' k' s j hs hj
    show setEntry a.mem t (longFormat.index h va) _ s j = _
    unfold Edits.at
    by_cases hc : s = t ∧ j = longFormat.index h va
    · obtain ⟨rfl, rfl⟩ := hc
      obtain ⟨rfl, rfl⟩ := hg.inj _ _ _ _ _ hs ht
      rw [setEntry_self, ho.mem hs hj, ← longFormat.entry_eq, if_pos ⟨rfl, rfl⟩]
      rfl
    · rw [setEntry_other (by tauto), ho.mem hs hj, if_neg]
      rintro ⟨rfl, he⟩
      have hk : k' = longFormat.entry (h' + 1) va := by
        rw [longFormat.entry_succ, ← he, longFormat.number_div hj]
      have hj' : j = longFormat.index h' va := by
        rw [PageFormat.index, ← he, longFormat.number_mod hj]
      rw [hk, ht] at hs
      cases hs
      exact hc ⟨rfl, hj'⟩
  edited := by
    intro h' e' hne
    unfold Edits.at at hne
    split at hne
    · next hc =>
      obtain ⟨rfl, rfl⟩ := hc
      rw [← longFormat.entry_succ]
      exact ⟨t, ht⟩
    · exact ho.edited hne

variable {i k : Nat} {F : Nat → BitVec 64}

theorem hangs_tab (hh : Hangs m b h k t i F) : b.tab m h (k * longFormat.fan + i) = none :=
  tab_below_eq_none hh.parent hh.index hh.old (below_direct.mpr rfl)

theorem Overlaid.hang (ho : Overlaid m g b a) (hh : Hangs m b h k t i F) (hg : Good m b)
    (hid : g (h + 1) (k * longFormat.fan + i) = id) :
    Overlaid m g (b.hang (t, i) F) (a.hang (t, i) F) where
  addr := ho.addr
  size := ho.size
  fillptr := by
    show a.tlbFillptr + _ = b.tlbFillptr + _
    rw [ho.fillptr]
  mem := by
    intro h' k' s j hs hj
    show graft a.mem t i a.tlbFillptr F _ s j = g h' _ (graft b.mem t i b.tlbFillptr F _ s j)
    have hnew : t ≠ b.tlbFillptr := (hg.placed hh.parent).ne
    unfold graft
    rw [ho.fillptr]
    rw [tab_hang hh] at hs
    split at hs
    · next hc =>
      obtain ⟨rfl, rfl⟩ := hc
      cases hs
      rw [setEntry_other (.inl hnew.symm), setEntry_other (.inl hnew.symm), fillTable_self, fillTable_self]
      -- the table is new, so none of its words is edited
      have hsame : g h' ((k * longFormat.fan + i) * longFormat.fan + j) = id := by
        by_contra hne
        obtain ⟨u, hu⟩ := ho.edited hne
        rw [longFormat.number_div hj] at hu
        rw [hangs_tab hh] at hu
        cases hu
      rw [hsame]
      rfl
    · have hs' : s ≠ b.tlbFillptr := (hg.placed hs).ne
      by_cases hc : s = t ∧ j = i
      · obtain ⟨rfl, rfl⟩ := hc
        obtain ⟨rfl, rfl⟩ := hg.inj _ _ _ _ _ hs hh.parent
        rw [setEntry_self, setEntry_self, hid]
        rfl
      · rw [setEntry_other (by tauto), setEntry_other (by tauto), fillTable_other hs', fillTable_other hs']
        exact ho.mem hs hj
  edited := by
    intro h' e' hne
    obtain ⟨u, hu⟩ := ho.edited hne
    rw [tab_hang hh]
    split
    · exact ⟨_, rfl⟩
    · exact ⟨u, hu⟩

theorem refines_hang (hh : Hangs m b h k t i F) (hgood : Good m (b.hang (t, i) F))
    (hsame : ∀ va, InReach m va → (b.hang (t, i) F).attrsAt m va = b.attrsAt m va)
    (hnot : ¬ Granule lo len (h + 1) (k * longFormat.fan + i)) :
    Refines m lo len b (b.hang (t, i) F) where
  good := hgood
  same := hsame
  keeps := by
    intro h' k' s hs
    rw [tab_hang hh, if_neg, hs]
    rintro ⟨rfl, rfl⟩
    rw [hangs_tab hh] at hs
    cases hs
  new := by
    intro h' k' s hs hgr
    rw [tab_hang hh] at hs
    split at hs
    · next hc =>
      obtain ⟨rfl, rfl⟩ := hc
      exact absurd hgr hnot
    · exact hs

/-! ## One granule -/

theorem Good.word_cases (hg : Good m b) (ht : b.tab m h (longFormat.entry (h + 1) va) = some t)
    (hmap : b.attrsAt m va ≠ none) :
    (∃ attrs, IsAttrs attrs ∧ h ≤ 2 ∧ longFormat.entry h va * longFormat.size h < 2 ^ 48 ∧
      b.mem t (longFormat.index h va) = leafWord h (longFormat.entry h va) attrs) ∨
    ∃ s, 0 < h ∧ Fits s ∧ b.mem t (longFormat.index h va) = pteTypeTable ||| BitVec.ofNat 64 s := by
  have hword := hg.words ht (longFormat.index_lt h va)
  rcases hword with hw | ⟨attrs, ha, hh, he, hw⟩ | ⟨s, hs, hpos, hw⟩
  · exact absurd (attrsAt_of_fault ht (longFormat.index_lt h va) hw (longFormat.entry_eq h va)) hmap
  · rw [← longFormat.entry_eq] at he hw
    exact .inl ⟨attrs, ha, hh, he, hw⟩
  · exact .inr ⟨s, hpos, hs, hw⟩

theorem tab_of_tableWord {s : Nat} (ht : b.tab m (h + 1) (longFormat.entry (h + 2) va) = some t) (hs : Fits s)
    (hw : b.mem t (longFormat.index (h + 1) va) = pteTypeTable ||| BitVec.ofNat 64 s) :
    b.tab m h (longFormat.entry (h + 1) va) = some s := by
  have := tab_child ht (longFormat.index_lt (h + 1) va) (by rw [hw]; exact kind_tableWord hs)
  rwa [← longFormat.entry_eq] at this

theorem Good.tab_two (hg : Good m b) (hva : InReach m va) (hmap : b.attrsAt m va ≠ none) :
    ∃ t, b.tab m 2 (longFormat.entry 3 va) = some t := by
  have htop := tab_first b hva
  rcases startLevel_cases m with ⟨_, hh⟩ | ⟨_, hh⟩
  · rw [hh] at htop
    exact ⟨_, htop⟩
  · rw [hh] at htop
    rcases hg.word_cases htop hmap with ⟨_, _, habs, _⟩ | ⟨s, _, hs, hw⟩
    · omega
    · exact ⟨s, tab_of_tableWord htop hs hw⟩

variable {attrs : BitVec 64} {flag : Bool}

section

variable (hh : h ≤ 3) (ht : a.tab m h (longFormat.entry (h + 1) start) = some t)
include hh ht

theorem setOneRegion_of_fits (hfit : isAligned start size (longFormat.size h) = true) :
    setOneRegion m start size attrs flag (3 - h) a =
      .ok (longFormat.size h, a.setPte (t, longFormat.index h start)
        (setBits (regionMask flag) attrs (a.mem t (longFormat.index h start)))) := by
  unfold setOneRegion
  rw [findPte_eq hh ht, block_size hh]
  simp only [hfit, if_true]

theorem setOneRegion_of_table (hfit : ¬ isAligned start size (longFormat.size h) = true)
    (htype : pteType (a.mem t (longFormat.index h start)) = pteTypeTable) :
    setOneRegion m start size attrs flag (3 - h) a = .ok (0, a) := by
  unfold setOneRegion
  rw [findPte_eq hh ht, block_size hh]
  simp only
  rw [if_neg hfit, htype, if_neg (by decide)]
  show (if pteType (a.mem t (longFormat.index h start)) ≠ pteTypeTable then _ else _) = _
  rw [if_neg (not_not.mpr htype)]

theorem setOneRegion_of_block (hfit : ¬ isAligned start size (longFormat.size h) = true)
    (htype : pteType (a.mem t (longFormat.index h start)) = pteTypeBlock)
    (hfits : a.HasRoom → Fits a.tlbFillptr) :
    Completes (setOneRegion m start size attrs flag (3 - h) a) fun p => a.HasRoom ∧
      p = (0, a.hang (t, longFormat.index h start) (splitEntry (a.mem t (longFormat.index h start)) (3 - h))) := by
  unfold setOneRegion
  rw [findPte_eq hh ht, block_size hh]
  simp only
  rw [if_neg hfit, if_pos htype]
  refine (splitBlock_succeeds htype).completes.bind ?_
  rintro _ ⟨hr, rfl⟩
  have hword : pteType ((a.hang (t, longFormat.index h start)
      (splitEntry (a.mem t (longFormat.index h start)) (3 - h))).mem t (longFormat.index h start)) =
        pteTypeTable := by
    show pteType (graft _ _ _ _ _ _ _ _) = _
    rw [graft, setEntry_self]
    exact type_tableWord (hfits hr)
  rw [if_neg (not_not.mpr hword)]
  exact ⟨hr, rfl⟩

end

theorem isAligned_iff {n : Nat} : isAligned start size n = true ↔ start % n = 0 ∧ size % n = 0 := by
  simp [isAligned]

variable (m) in
/-- The first granule of what is left is edited, after splits above it. -/
structure Changed (lo len start size : Nat) (f : BitVec 64 → BitVec 64) (g : Edits) (b : Arch)
    (p : Nat × Arch) (b' : Arch) : Prop where
  bytes : p.1 = longFormat.size (fitHeight start size)
  refines : Refines m lo len b b'
  overlaid : Overlaid m (g.at (fitHeight start size) (longFormat.entry (fitHeight start size) start) f) b' p.2
  table : ∃ t, b'.tab m (fitHeight start size)
    (longFormat.entry (fitHeight start size) start / longFormat.fan) = some t

/-- The loop over the levels, from a level that is not below the granule. -/
theorem regionLevels_completes (hl : LeftOf lo len start size) (hg : Good m b)
    (ho : Overlaid m g b a) (hgr : ∀ {h e}, g h e ≠ id → Granule lo len h e)
    (hva : InReach m start) (hmap : b.attrsAt m start ≠ none) (hle : fitHeight start size ≤ h)
    (hh : h ≤ 2) (ht : b.tab m h (longFormat.entry (h + 1) start) = some t) :
    Completes (regionLevels m start size attrs flag (h + 1) (3 - h) a) fun p =>
      ∃ b', Changed m lo len start size (setBits (regionMask flag) attrs) g b p b' := by
  have hid : ∀ {h'}, fitHeight start size < h' → g h' (longFormat.entry h' start) = id := by
    intro h' hlt
    by_contra hne
    exact hl.not_granule_above hlt (hgr hne)
  obtain ⟨d, hd⟩ : ∃ d, h = fitHeight start size + d := ⟨h - fitHeight start size, by omega⟩
  induction d generalizing h t a b with
  | zero =>
    obtain rfl : h = fitHeight start size := hd
    have hta := ho.tab_eq (fun h' hlt _ => hid hlt) ht
    rw [regionLevels, setOneRegion_of_fits (by omega) hta (isAligned_iff.mpr hl.bounds.fits)]
    show Completes (if longFormat.size (fitHeight start size) ≠ 0 then _ else _) _
    rw [if_pos (longFormat.size_pos _).ne']
    refine ⟨b, rfl, .refl hg, ho.setPte hg ht, t, ?_⟩
    rw [← longFormat.entry_succ]
    exact ht
  | succ d ih =>
    obtain ⟨h, rfl⟩ : ∃ h', h = h' + 1 := ⟨h - 1, by omega⟩
    have hta := ho.tab_eq (fun h' hlt _ => hid (by omega)) ht
    have hfit : ¬ isAligned start size (longFormat.size (h + 1)) = true := by
      rw [isAligned_iff]
      exact not_fits_of_gt (by omega) hh
    have hread := ho.read ht
    rw [hid (by omega), id] at hread
    have hlevel : 3 - (h + 1) + 1 = 3 - h := by omega
    have hnot : ¬ Granule lo len (h + 1) (longFormat.entry (h + 1) start) :=
      hl.not_granule_above (by omega)
    rw [regionLevels]
    rcases hg.word_cases ht hmap with ⟨attrs', ha', _, he, hw⟩ | ⟨s, _, hs, hw⟩
    · -- a block: the tables and the tables that were only split are split alike
      have htype : pteType (a.mem t (longFormat.index (h + 1) start)) = pteTypeBlock := by
        have := type_leafWord ha' he
        rw [hread, hw]
        exact this
      have hfits : a.HasRoom → Fits a.tlbFillptr := by
        unfold Arch.HasRoom
        rw [ho.fillptr, ho.addr, ho.size]
        exact hg.fits
      refine (setOneRegion_of_block (by omega) hta hfit htype hfits).bind ?_
      rintro _ ⟨hr, rfl⟩
      have hrb : b.HasRoom := by
        unfold Arch.HasRoom at hr ⊢
        rwa [ho.fillptr, ho.addr, ho.size] at hr
      rw [longFormat.entry_eq (h + 1)] at he hw hnot
      have hhangs := hg.hangs_split ht (longFormat.index_lt _ _) ha' hh he hw hrb
      obtain ⟨hgood, htab, hsame⟩ := hg.hang_split ht (longFormat.index_lt _ _) ha' hh he hw hrb
      have hid' : g (h + 1) (longFormat.entry (h + 2) start * longFormat.fan +
          longFormat.index (h + 1) start) = id := by
        rw [← longFormat.entry_eq]
        exact hid (by omega)
      have hover := ho.hang hhangs hg hid'
      have href : Refines m lo len b _ := refines_hang hhangs hgood hsame hnot
      rw [← longFormat.entry_eq (h + 1)] at htab
      rw [hlevel, hread]
      have hmap' := hmap
      rw [← hsame start hva] at hmap'
      have hrec := ih hgood hover hmap' (by omega) (by omega) htab (by omega)
      refine hrec.mono ?_
      rintro p ⟨b', hc⟩
      exact ⟨b', hc.bytes, href.trans hc.refines, hc.overlaid, hc.table⟩
    · have htype : pteType (a.mem t (longFormat.index (h + 1) start)) = pteTypeTable := by
        rw [hread, hw]
        exact type_tableWord hs
      rw [setOneRegion_of_table (by omega) hta hfit htype]
      rw [hlevel]
      exact ih hg ho hmap (by omega) (by omega) (tab_of_tableWord ht hs hw) (by omega)

/-! ## A pass over the range -/

open Classical in
/-- The granules of a range edited. -/
noncomputable def Edits.on (g : Edits) (start size : Nat) (f : BitVec 64 → BitVec 64) : Edits :=
  fun h e => if Granule start size h e then f ∘ g h e else g h e

theorem Edits.on_granule {e : Nat} (hgr : Granule start size h e) :
    g.on start size f h e = f ∘ g h e := if_pos hgr

theorem Edits.on_other {e : Nat} (hgr : ¬ Granule start size h e) :
    g.on start size f h e = g h e := if_neg hgr

theorem Edits.on_next (hr : OnPageBounds start size) (hpos : 0 < size) :
    (g.at (fitHeight start size) (longFormat.entry (fitHeight start size) start) f).on
      (start + longFormat.size (fitHeight start size))
      (size - longFormat.size (fitHeight start size)) f = g.on start size f := by
  funext h e
  by_cases hfirst : h = fitHeight start size ∧ e = longFormat.entry (fitHeight start size) start
  · obtain ⟨rfl, rfl⟩ := hfirst
    rw [Edits.on_granule (.here hpos), Edits.on_other, Edits.at, if_pos ⟨rfl, rfl⟩]
    intro hgr
    have hlo := (hgr.within (hr.next hpos)).2.1
    rw [hr.fit_start] at hlo
    have := longFormat.size_pos (fitHeight start size)
    omega
  · have hat : g.at (fitHeight start size) (longFormat.entry (fitHeight start size) start) f h e =
        g h e := if_neg hfirst
    by_cases hgr : Granule (start + longFormat.size (fitHeight start size))
        (size - longFormat.size (fitHeight start size)) h e
    · rw [Edits.on_granule hgr, Edits.on_granule (.next hpos hgr), hat]
    · rw [Edits.on_other hgr, Edits.on_other, hat]
      intro hgr'
      cases hgr' with
      | here _ => exact hfirst ⟨rfl, rfl⟩
      | next _ hgr' => exact hgr hgr'

variable (m) in
/-- The addresses of the range are mapped. -/
def Mapped (b : Arch) (start size : Nat) : Prop :=
  ∀ va, start ≤ va → va < start + size → InReach m va ∧ b.attrsAt m va ≠ none

variable (m) in
/-- What a pass over the range does: every granule is edited, after splits above granules. -/
structure Passed (lo len start size : Nat) (f : BitVec 64 → BitVec 64) (g : Edits) (b a' : Arch)
    (b' : Arch) : Prop where
  refines : Refines m lo len b b'
  overlaid : Overlaid m (g.on start size f) b' a'
  tables : ∀ {h e}, Granule start size h e → ∃ t, b'.tab m h (e / longFormat.fan) = some t

theorem passed_zero (hg : Good m b) (ho : Overlaid m g b a) :
    Passed m lo len start 0 f g b a b := by
  have hnone : ∀ h e, ¬ Granule start 0 h e := fun h e hgr => absurd hgr.pos (lt_irrefl 0)
  have hon : g.on start 0 f = g := by
    funext h e
    exact Edits.on_other (hnone h e)
  refine ⟨.refl hg, ?_, fun hgr => absurd hgr (hnone _ _)⟩
  rw [hon]
  exact ho

/-- The `while` loop edits the granules of what is left of the range. -/
theorem regionLoop_completes {fuel : Nat} (hl : LeftOf lo len start size) (hg : Good m b)
    (ho : Overlaid m g b a) (hgr : ∀ {h e}, g h e ≠ id → Granule lo len h e)
    (hmap : Mapped m b start size) (hfuel : size ≤ 4096 * fuel) :
    Completes (regionLoop m attrs flag fuel start size a) fun a' =>
      ∃ b', Passed m lo len start size (setBits (regionMask flag) attrs) g b a' b' := by
  induction fuel generalizing start size a b g with
  | zero =>
    obtain rfl : size = 0 := by omega
    exact ⟨b, passed_zero hg ho⟩
  | succ fuel ih =>
    rw [regionLoop]
    split
    · next h0 =>
      subst h0
      exact ⟨b, passed_zero hg ho⟩
    · next h0 =>
      have hpos : 0 < size := Nat.pos_of_ne_zero h0
      obtain ⟨hva, hne⟩ := hmap start le_rfl (by omega)
      obtain ⟨t, ht⟩ := hg.tab_two hva hne
      refine (regionLevels_completes hl hg ho hgr hva hne (fitHeight_le start size) le_rfl
        ht).bind ?_
      rintro ⟨r, a1⟩ ⟨b1, hc⟩
      obtain rfl : r = longFormat.size (fitHeight start size) := hc.bytes
      have hfit := hl.bounds.fit_le hpos
      have hsz := size_page (fitHeight start size)
      have hszpos := longFormat.size_pos (fitHeight start size)
      refine (ih (hl.next hpos) hc.refines.good hc.overlaid ?_ ?_ (by omega)).mono ?_
      · intro h e hne'
        unfold Edits.at at hne'
        split at hne'
        · next hfirst =>
          obtain ⟨rfl, rfl⟩ := hfirst
          exact hl.sub (.here hpos)
        · exact hgr hne'
      · intro va hlo hhi
        obtain ⟨hin, hne'⟩ := hmap va (by omega) (by omega)
        rw [hc.refines.same va hin]
        exact ⟨hin, hne'⟩
      · rintro a' ⟨b', hp⟩
        refine ⟨b', hc.refines.trans hp.refines, ?_, ?_⟩
        · have := hp.overlaid
          rwa [Edits.on_next hl.bounds hpos] at this
        · intro h e hgr'
          cases hgr' with
          | here _ =>
            obtain ⟨u, hu⟩ := hc.table
            exact ⟨u, hp.refines.keeps hu⟩
          | next _ hgr' => exact hp.tables hgr'

end Entry

/-! ## Edited words -/

section Words

variable {mask v w n : BitVec 64} {f : BitVec 64 → BitVec 64} {h va : Nat}

theorem getLsbD_setBits (i : Nat) : (setBits mask v w).getLsbD i =
    if mask.getLsbD i then v.getLsbD i else w.getLsbD i := by
  unfold setBits
  rcases Nat.lt_or_ge i 64 with hi | hi
  · rw [BitVec.getLsbD_or, BitVec.getLsbD_and, BitVec.getLsbD_and, BitVec.getLsbD_not,
      decide_eq_true hi, Bool.true_and]
    cases mask.getLsbD i <;> simp
  · simp [BitVec.getLsbD_of_ge _ _ hi]

theorem setBits_and (hm : mask &&& n = 0#64) : setBits mask v w &&& n = w &&& n := by
  refine BitVec.eq_of_getLsbD_eq fun i _ => ?_
  have hbit := congrArg (fun x => x.getLsbD i) hm
  rw [BitVec.getLsbD_and, BitVec.getLsbD_zero] at hbit
  rw [BitVec.getLsbD_and, BitVec.getLsbD_and, getLsbD_setBits]
  split
  · next hi =>
    rw [hi, Bool.true_and] at hbit
    rw [hbit, Bool.and_false, Bool.and_false]
  · rfl

theorem setBits_and_of_mask (hm : mask &&& n = n) : setBits mask v w &&& n = v &&& n := by
  refine BitVec.eq_of_getLsbD_eq fun i _ => ?_
  have hbit := congrArg (fun x => x.getLsbD i) hm
  rw [BitVec.getLsbD_and] at hbit
  rw [BitVec.getLsbD_and, BitVec.getLsbD_and, getLsbD_setBits]
  split
  · rfl
  · next hi =>
    rw [Bool.not_eq_true] at hi
    rw [hi, Bool.false_and] at hbit
    rw [← hbit, Bool.and_false, Bool.and_false]

theorem setBits_setBits (v' : BitVec 64) : setBits mask v (setBits mask v' w) = setBits mask v w := by
  refine BitVec.eq_of_getLsbD_eq fun i _ => ?_
  rw [getLsbD_setBits, getLsbD_setBits, getLsbD_setBits]
  split <;> rfl

theorem descAttrs_setBits : descAttrs (setBits mask v w) = descAttrs (setBits mask v (descAttrs w)) := by
  refine BitVec.eq_of_getLsbD_eq fun i _ => ?_
  unfold descAttrs
  rw [BitVec.getLsbD_and, BitVec.getLsbD_and, getLsbD_setBits, getLsbD_setBits, BitVec.getLsbD_and]
  split
  · rfl
  · rw [Bool.and_assoc, Bool.and_self]

theorem descAttrs_of_isAttrs (hm : mask &&& attrMask = mask) (hw : IsAttrs w) :
    descAttrs (setBits mask v w) = setBits mask v w := by
  refine BitVec.eq_of_getLsbD_eq fun i _ => ?_
  have hbit := congrArg (fun x => x.getLsbD i) hm
  have hbit' := congrArg (fun x => x.getLsbD i) hw
  rw [BitVec.getLsbD_and] at hbit hbit'
  rw [descAttrs, BitVec.getLsbD_and, getLsbD_setBits]
  split
  · next hi =>
    rw [hi, Bool.true_and] at hbit
    rw [hbit, Bool.and_true]
  · exact hbit'

/-- The edit leaves address and type of a valid word alone. -/
structure KeepsTarget (f : BitVec 64 → BitVec 64) : Prop where
  addr : ∀ {w}, w &&& pteTypeValid = pteTypeValid → f w &&& addrMask = w &&& addrMask
  type : ∀ {w}, w &&& pteTypeValid = pteTypeValid → f w &&& typeMask = w &&& typeMask
  attrs : ∀ {w}, descAttrs (f w) = descAttrs (f (descAttrs w))

theorem KeepsTarget.kind (hf : KeepsTarget f) (hw : w &&& pteTypeValid = pteTypeValid) :
    longFormat.kind h (f w) = longFormat.kind h w := by
  show descKind h (f w) = descKind h w
  unfold descKind descAddr
  rw [hf.type hw, hf.addr hw]

theorem KeepsTarget.outAddr (hf : KeepsTarget f) (hw : w &&& pteTypeValid = pteTypeValid) :
    outAddr h (f w) va = outAddr h w va := by
  unfold Lib.outAddr descAddr
  rw [hf.addr hw]

theorem valid_of_type (hw : w &&& typeMask = 1#64 ∨ w &&& typeMask = 3#64) :
    w &&& pteTypeValid = pteTypeValid := by
  have hmask : pteTypeValid = typeMask &&& pteTypeValid := by decide
  have hsplit : w &&& pteTypeValid = w &&& typeMask &&& pteTypeValid := by
    rw [BitVec.and_assoc, ← hmask]
  rw [hsplit]
  rcases hw with hw | hw
  · rw [hw]
    decide
  · rw [hw]
    decide

theorem kind_of_not_valid (hw : w &&& pteTypeValid = 0#64) : longFormat.kind h w = .invalid := by
  have hne : ∀ x : BitVec 64, x = 1#64 ∨ x = 3#64 → w &&& typeMask ≠ x := by
    rintro x hx rfl
    have hv := valid_of_type hx
    rw [hw] at hv
    exact absurd hv (by decide)
  show descKind h w = _
  rw [descKind, if_neg (hne _ (.inr rfl)), if_neg (fun hc => hne _ (.inl rfl) hc.1)]

theorem keepsTarget_attrindx (v : BitVec 64) : KeepsTarget (setBits pmdAttrindxMask v) where
  addr _ := setBits_and (by decide)
  type _ := setBits_and (by decide)
  attrs := descAttrs_setBits

theorem keepsTarget_attrmask (hv : v &&& pteTypeValid ≠ 0#64) :
    KeepsTarget (setBits pmdAttrmask v) where
  addr _ := setBits_and (by decide)
  type := by
    intro w hw
    -- bit 0 is set on both sides, bit 1 is not edited
    have hbits : typeMask = pteTypeValid ||| 2#64 := by decide
    have hone : v &&& pteTypeValid = pteTypeValid := by
      have hbit : v &&& pteTypeValid = _ := BitVec.and_one_eq_setWidth_ofBool_getLsbD
      cases h0 : v.getLsbD 0 with
      | false =>
        rw [h0] at hbit
        exact absurd hbit hv
      | true =>
        rw [h0] at hbit
        exact hbit
    rw [hbits, BitVec.and_or_distrib_left, BitVec.and_or_distrib_left,
      setBits_and_of_mask (by decide), setBits_and (by decide), hone, hw]
  attrs := descAttrs_setBits

end Words

/-! ## Translations -/

section Translation

variable (m : List MmRegion)

/-- The address that `va` is translated to, and the attributes. -/
def Arch.translation (a : Arch) (va : Nat) : Option (Nat × BitVec 64) :=
  (a.walk m va).map fun p => (outAddr p.1 p.2 va, descAttrs p.2)

/-- The entry of the granule points to a table: it is edited, and not the ones below it. -/
def Stale (a : Arch) (start size va : Nat) : Prop :=
  ∃ h, Granule start size (h + 1) (longFormat.entry (h + 1) va) ∧
    a.tab m h (longFormat.entry (h + 1) va) ≠ none

/-- `a'` comes from `b` by splits, and by one edit of every granule. -/
structure Edited (lo len : Nat) (f : BitVec 64 → BitVec 64) (b a' b' : Arch) : Prop where
  refines : Refines m lo len b b'
  overlaid : Overlaid m (Edits.on (fun _ _ => id) lo len f) b' a'
  tables : ∀ {h e}, Granule lo len h e → ∃ t, b'.tab m h (e / longFormat.fan) = some t

variable {m} {a b a' b' : Arch} {va lo len : Nat} {f : BitVec 64 → BitVec 64}

theorem Good.translation (hg : Good m b) (hva : InReach m va) :
    b.translation m va = (b.attrsAt m va).map fun attrs => (va, attrs) := by
  have hstop := hg.stop_cases (tab_first b hva)
  change (b.stop m va).2 = 0#64 ∧ b.walk m va = none ∨
    longFormat.kind (b.stop m va).1 (b.stop m va).2 = .leaf ∧ b.walk m va = some (b.stop m va) ∧
      outAddr (b.stop m va).1 (b.stop m va).2 va = va at hstop
  unfold Arch.translation Arch.attrsAt
  rcases hstop with ⟨_, hw⟩ | ⟨_, hw, hout⟩
  · rw [hw]
    rfl
  · rw [hw, Option.map_some, Option.map_some, Option.map_some, hout]

theorem Refines.translation (hr : Refines m lo len b b') (hg : Good m b) (hva : InReach m va) :
    b'.translation m va = b.translation m va := by
  rw [hr.good.translation hva, hg.translation hva, hr.same va hva]

theorem Edited.outside (he : Edited m lo len f b a' b') (hg : Good m b)
    (hr : OnPageBounds lo len) (hva : InReach m va) (hout : ¬ (lo ≤ va ∧ va < lo + len)) :
    a'.translation m va = b.translation m va := by
  have hid : ∀ h, Edits.on (fun _ _ => id) lo len f h (longFormat.entry h va) = id := by
    intro h
    refine Edits.on_other fun hgr => ?_
    obtain ⟨_, hlo, hhi⟩ := hgr.within hr
    have hwin := longFormat.window_mem h va
    rw [Nat.add_one_mul] at hhi
    omega
  rw [← he.refines.translation hg hva]
  unfold Arch.translation
  rw [he.overlaid.walk_eq hid hva]

/-- The edit that reaches an address of the range. -/
theorem Edited.granule (he : Edited m lo len f b a' b') (hr : OnPageBounds lo len)
    (hlo : lo ≤ va) (hhi : va < lo + len) :
    ∃ h t, Granule lo len h (longFormat.entry h va) ∧
      b'.tab m h (longFormat.entry (h + 1) va) = some t ∧
      a'.walk m va = longFormat.walk a'.mem h t va ∧
      a'.mem t (longFormat.index h va) = f (b'.mem t (longFormat.index h va)) ∧
      ∀ h', h' ≠ h → Edits.on (fun _ _ => id) lo len f h' (longFormat.entry h' va) = id := by
  obtain ⟨h, hgr⟩ := exists_granule hr hlo hhi
  obtain ⟨t, ht⟩ := he.tables hgr
  rw [← longFormat.entry_succ] at ht
  have hother : ∀ h', h' ≠ h → Edits.on (fun _ _ => id) lo len f h' (longFormat.entry h' va) = id :=
    fun h' hne => Edits.on_other fun hgr' => hne (hgr'.unique hgr hr)
  have hta := he.overlaid.tab_eq (fun h' hlt _ => hother h' (by omega)) ht
  refine ⟨h, t, hgr, ht, walk_tab hta, ?_, hother⟩
  rw [he.overlaid.read ht, Edits.on_granule hgr]
  rfl

theorem Edited.stale_iff {h : Nat} (he : Edited m lo len f b a' b') (hr : OnPageBounds lo len)
    (hgr : Granule lo len (h + 1) (longFormat.entry (h + 1) va)) :
    Stale m b lo len va ↔ b'.tab m h (longFormat.entry (h + 1) va) ≠ none := by
  constructor
  · rintro ⟨h', hgr', hne⟩
    have heq := hgr'.unique hgr hr
    obtain rfl : h' = h := by omega
    obtain ⟨s, hs⟩ := Option.ne_none_iff_exists'.mp hne
    rw [he.refines.keeps hs]
    simp
  · intro hne
    obtain ⟨s, hs⟩ := Option.ne_none_iff_exists'.mp hne
    refine ⟨h, hgr, ?_⟩
    rw [he.refines.new hs hgr]
    simp

open Classical in
/-- In the range the edit reaches an address, unless the address is stale. -/
theorem Edited.inside (he : Edited m lo len f b a' b') (hg : Good m b) (hr : OnPageBounds lo len)
    (hmap : Mapped m b lo len) (hf : KeepsTarget f) (hlo : lo ≤ va) (hhi : va < lo + len) :
    a'.translation m va = (b.translation m va).map fun p =>
      (p.1, if Stale m b lo len va then p.2 else descAttrs (f p.2)) := by
  obtain ⟨hva, hne⟩ := hmap va hlo hhi
  obtain ⟨h, t, hgr, ht, hwalk, hread, hother⟩ := he.granule hr hlo hhi
  rw [← he.refines.same va hva] at hne
  rw [← he.refines.translation hg hva]
  unfold Arch.translation
  have hbwalk : b'.walk m va = longFormat.walk b'.mem h t va := walk_tab ht
  rcases he.refines.good.word_cases ht hne with ⟨attrs, ha, hh, hlt, hw⟩ | ⟨s, hpos, hs, hw⟩
  · have hvalid : b'.mem t (longFormat.index h va) &&& pteTypeValid = pteTypeValid := by
      have := type_leafWord ha hlt
      rw [hw]
      apply valid_of_type
      split at this
      · exact .inr this
      · exact .inl this
    have hleaf : longFormat.kind h (b'.mem t (longFormat.index h va)) = .leaf := by
      rw [hw, kind_leafWord ha hh hlt]
    have hleaf' : longFormat.kind h (a'.mem t (longFormat.index h va)) = .leaf := by
      rw [hread, hf.kind hvalid, hleaf]
    have hfresh : ¬ Stale m b lo len va := by
      rintro ⟨h', hgr', hne'⟩
      obtain rfl : h' + 1 = h := hgr'.unique hgr hr
      refine (he.stale_iff hr hgr').mp ⟨h', hgr', hne'⟩ ?_
      rw [longFormat.entry_eq]
      exact tab_below_eq_none ht (longFormat.index_lt _ _) (by simp [hleaf]) (below_direct.mpr rfl)
    rw [hwalk, hbwalk, walk_of_leaf hleaf, walk_of_leaf hleaf', Option.map_some, Option.map_some,
      Option.map_some, hread, hf.outAddr hvalid, if_neg hfresh, hf.attrs]
  · obtain ⟨h, rfl⟩ : ∃ h', h = h' + 1 := ⟨h - 1, by omega⟩
    have hsub := tab_of_tableWord ht hs hw
    have hstale : Stale m b lo len va := (he.stale_iff hr hgr).mpr (by rw [hsub]; simp)
    have hvalid : b'.mem t (longFormat.index (h + 1) va) &&& pteTypeValid = pteTypeValid := by
      rw [hw]
      exact valid_of_type (.inr (type_tableWord hs))
    have htable : longFormat.kind (h + 1) (b'.mem t (longFormat.index (h + 1) va)) = .table s := by
      rw [hw, kind_tableWord hs]
    have htable' : longFormat.kind (h + 1) (a'.mem t (longFormat.index (h + 1) va)) = .table s := by
      rw [hread, hf.kind hvalid, htable]
    have hbelow : longFormat.walk a'.mem h s va = longFormat.walk b'.mem h s va :=
      walk_of_stop (he.overlaid.stop_eq (fun h' hle => hother h' (by omega)) hsub)
    rw [hwalk, hbwalk, walk_of_table htable, walk_of_table htable', hbelow, Option.map_map]
    simp only [hstale, if_true]
    rfl

theorem Edited.inside_of_invalid (he : Edited m lo len f b a' b') (hr : OnPageBounds lo len)
    (hf : ∀ w, f w &&& pteTypeValid = 0#64) (hlo : lo ≤ va) (hhi : va < lo + len) :
    a'.translation m va = none := by
  obtain ⟨h, t, _, _, hwalk, hread, _⟩ := he.granule hr hlo hhi
  have hinvalid : longFormat.kind h (a'.mem t (longFormat.index h va)) = .invalid := by
    rw [hread]
    exact kind_of_not_valid (hf _)
  unfold Arch.translation
  rw [hwalk, walk_of_invalid hinvalid, Option.map_none]

end Translation

/-! ## The two functions -/

section Exact

variable (m : List MmRegion)

/-- The pages of the range have the memory type of `option`, and every other page is translated as before. -/
def DcacheExact (a a' : Arch) (start size : Nat) (option : DcacheOption) : Prop :=
  ∀ va, InReach m va → a'.translation m va =
    if start ≤ va ∧ va < start + size then
      (a.translation m va).map fun p =>
        (p.1, setBits pmdAttrindxMask (BitVec.ofNat 64 option.value) p.2)
    else a.translation m va

/-- The pages of the range have the bits of `attrs`, and are unmapped if the valid bit is not among them. Every
other page is translated as before. -/
def ChangeExact (a a' : Arch) (start size : Nat) (attrs : BitVec 64) : Prop :=
  ∀ va, InReach m va → a'.translation m va =
    if start ≤ va ∧ va < start + size then
      if attrs &&& pteTypeValid = 0#64 then none
      else (a.translation m va).map fun p => (p.1, descAttrs (setBits pmdAttrmask attrs p.2))
    else a.translation m va

/-- The stale pages have the memory type already, and other pages are only asked to be
uncached. -/
def DcacheReached (a : Arch) (start size : Nat) (option : DcacheOption) : Prop :=
  ∀ va, start ≤ va → va < start + size →
    (Stale m a start size va → ∀ p ∈ a.translation m va,
      setBits pmdAttrindxMask (BitVec.ofNat 64 option.value) p.2 = p.2) ∧
    (¬ Stale m a start size va → option = .off)

/-- The stale pages have the bits already, or the range is to be unmapped. -/
def ChangeReached (a : Arch) (start size : Nat) (attrs : BitVec 64) : Prop :=
  ∀ va, start ≤ va → va < start + size → Stale m a start size va →
    attrs &&& pteTypeValid ≠ 0#64 → ∀ p ∈ a.translation m va, descAttrs (setBits pmdAttrmask attrs p.2) = p.2

variable {m} {a : Arch} {start size fuel : Nat}

variable {attrs : BitVec 64}

theorem edited_once {flag : Bool} (hg : Good m a) (hr : OnPageBounds start size)
    (hmap : Mapped m a start size) (hfuel : size ≤ 4096 * fuel) :
    Completes (regionLoop m attrs flag fuel start size a) fun a' =>
      ∃ b', Edited m start size (setBits (regionMask flag) attrs) a a' b' := by
  refine (regionLoop_completes (leftOf_self hr) hg (overlaid_self a) (fun hne => absurd rfl hne)
    hmap hfuel).mono ?_
  rintro a' ⟨b', hp⟩
  exact ⟨b', hp.refines, hp.overlaid, hp.tables⟩

theorem edited_twice (hg : Good m a) (hr : OnPageBounds start size) (hmap : Mapped m a start size)
    (hfuel : size ≤ 4096 * fuel) :
    Completes (mmuChangeRegionAttr m fuel start size attrs a) fun a' =>
      ∃ b', Edited m start size (setBits pmdAttrmask attrs) a a' b' := by
  refine (edited_once hg hr hmap hfuel).bind ?_
  rintro a1 ⟨b1, h1⟩
  have hmap1 : Mapped m b1 start size := by
    intro va hlo hhi
    obtain ⟨hva, hne⟩ := hmap va hlo hhi
    rw [h1.refines.same va hva]
    exact ⟨hva, hne⟩
  have hgr : ∀ {h e}, Edits.on (fun _ _ => id) start size
      (setBits (regionMask true) pteTypeFault) h e ≠ id → Granule start size h e := by
    intro h e hne
    by_contra hgr
    exact hne (Edits.on_other hgr)
  refine (regionLoop_completes (leftOf_self hr) h1.refines.good h1.overlaid hgr hmap1 hfuel).mono ?_
  rintro a' ⟨b', hp⟩
  refine ⟨b', h1.refines.trans hp.refines, ?_, hp.tables⟩
  have hon : Edits.on (Edits.on (fun _ _ => id) start size (setBits (regionMask true) pteTypeFault))
      start size (setBits (regionMask true) attrs) =
        Edits.on (fun _ _ => id) start size (setBits pmdAttrmask attrs) := by
    funext h e
    by_cases hgr : Granule start size h e
    · rw [Edits.on_granule hgr, Edits.on_granule hgr, Edits.on_granule hgr]
      funext w
      exact setBits_setBits _
    · rw [Edits.on_other hgr, Edits.on_other hgr, Edits.on_other hgr]
  have hover := hp.overlaid
  rw [hon] at hover
  exact hover

theorem Mapped.translation {va : Nat} (hmap : Mapped m a start size) (hg : Good m a)
    (hlo : start ≤ va) (hhi : va < start + size) : ∃ p, a.translation m va = some p := by
  obtain ⟨hva, hne⟩ := hmap va hlo hhi
  obtain ⟨attrs, hattrs⟩ := Option.ne_none_iff_exists'.mp hne
  rw [hg.translation hva, hattrs]
  exact ⟨_, rfl⟩

theorem isAttrs_of_translation {va : Nat} {p : Nat × BitVec 64} (hp : a.translation m va = some p) : IsAttrs p.2 := by
  obtain ⟨q, _, rfl⟩ := Option.map_eq_some_iff.mp hp
  show q.2 &&& attrMask &&& attrMask = q.2 &&& attrMask
  rw [BitVec.and_assoc, BitVec.and_self]

/-- The values of the options are in place already, and are shifted again. -/
theorem attrindx_eq_iff {option : DcacheOption} (ha : IsAttrs attrs) :
    descAttrs (setBits pmdAttrindxMask (pmdAttrindx option.value) attrs) =
      setBits pmdAttrindxMask (BitVec.ofNat 64 option.value) attrs ↔ option = .off := by
  rw [descAttrs_of_isAttrs (by decide) ha]
  constructor
  · intro heq
    have hbits := congrArg (· &&& pmdAttrindxMask) heq
    simp only [setBits_and_of_mask (BitVec.and_self)] at hbits
    cases option with
    | off => rfl
    | writethrough => exact absurd hbits (by decide)
    | writeback => exact absurd hbits (by decide)
    | writealloc => exact absurd hbits (by decide)
  · rintro rfl
    rfl

theorem dcacheExact_iff {option : DcacheOption} {a' b' : Arch} (hg : Good m a)
    (hr : OnPageBounds start size) (hmap : Mapped m a start size)
    (he : Edited m start size (setBits pmdAttrindxMask (pmdAttrindx option.value)) a a' b') :
    DcacheExact m a a' start size option ↔ DcacheReached m a start size option := by
  have hf := keepsTarget_attrindx (pmdAttrindx option.value)
  constructor
  · intro hexact va hlo hhi
    obtain ⟨p, hp⟩ := hmap.translation hg hlo hhi
    have hnew := hexact va (hmap va hlo hhi).1
    rw [if_pos ⟨hlo, hhi⟩, he.inside hg hr hmap hf hlo hhi, hp, Option.map_some, Option.map_some,
      Option.some.injEq, Prod.mk.injEq] at hnew
    refine ⟨fun hstale q hq => ?_, fun hstale => ?_⟩
    · obtain rfl : p = q := Option.some_injective _ (hp.symm.trans hq)
      rw [if_pos hstale] at hnew
      exact hnew.2.symm
    · rw [if_neg hstale] at hnew
      exact (attrindx_eq_iff (isAttrs_of_translation hp)).mp hnew.2
  · intro hreached va hva
    split
    · next hin =>
      obtain ⟨p, hp⟩ := hmap.translation hg hin.1 hin.2
      obtain ⟨hstale, hfresh⟩ := hreached va hin.1 hin.2
      rw [he.inside hg hr hmap hf hin.1 hin.2, hp, Option.map_some, Option.map_some]
      split
      · next hs => rw [hstale hs p hp]
      · next hs => rw [(attrindx_eq_iff (isAttrs_of_translation hp)).mpr (hfresh hs)]
    · next hout => exact he.outside hg hr hva hout

theorem changeExact_iff {a' b' : Arch} (hg : Good m a) (hr : OnPageBounds start size)
    (hmap : Mapped m a start size) (he : Edited m start size (setBits pmdAttrmask attrs) a a' b') :
    ChangeExact m a a' start size attrs ↔ ChangeReached m a start size attrs := by
  by_cases hvalid : attrs &&& pteTypeValid = 0#64
  · have hfault : ∀ w, setBits pmdAttrmask attrs w &&& pteTypeValid = 0#64 := by
      intro w
      rw [setBits_and_of_mask (by decide), hvalid]
    refine ⟨fun _ va _ _ _ hne => absurd hvalid hne, fun _ va hva => ?_⟩
    split
    · next hin => exact he.inside_of_invalid hr hfault hin.1 hin.2
    · next hout => exact he.outside hg hr hva hout
  · have hf := keepsTarget_attrmask hvalid
    constructor
    · intro hexact va hlo hhi hstale _ p hp
      have hnew := hexact va (hmap va hlo hhi).1
      rw [if_pos ⟨hlo, hhi⟩, if_neg hvalid, he.inside hg hr hmap hf hlo hhi, hp, Option.map_some,
        Option.map_some, Option.some.injEq, Prod.mk.injEq, if_pos hstale] at hnew
      exact hnew.2.symm
    · intro hreached va hva
      split
      · next hin =>
        obtain ⟨p, hp⟩ := hmap.translation hg hin.1 hin.2
        rw [he.inside hg hr hmap hf hin.1 hin.2, hp, Option.map_some, Option.map_some]
        split
        · next hs => rw [hreached va hin.1 hin.2 hs hvalid p hp]
        · rfl
      · next hout => exact he.outside hg hr hva hout

theorem mapped_of_regions (hflat : ∀ r ∈ regions m, Flat r) (hattrs : ∀ va, InReach m va →
      a.attrsAt m va = (lastRegion (regions m) va).map fun r => r.attrs ||| pteBlockAf)
    (hheld : ∀ va, start ≤ va → va < start + size → lastRegion (regions m) va ≠ none) :
    Mapped m a start size := by
  intro va hlo hhi
  obtain ⟨r, hr⟩ := Option.ne_none_iff_exists'.mp (hheld va hlo hhi)
  obtain ⟨l1, l2, hsplit, hholds, _⟩ := lastHolding_eq_some.mp hr
  have hmem : r ∈ regions m := by
    rw [hsplit]
    simp
  have hva : InReach m va := by
    have := regions_reach hflat hmem
    unfold Holds at hholds
    unfold InReach
    omega
  refine ⟨hva, ?_⟩
  rw [hattrs va hva, hr]
  simp

/-- In tables that `setup_pgtables` built from an identity map, over a range of mapped pages: both functions
end, unless there is no room for another table, and change the attributes of exactly the range when no page of
it is left behind a table that the range covers, and no cache type other than off is asked for. -/
theorem region_attr_change_exact_iff (m : List MmRegion) (a₀ a : Arch)
    (fuel fuel' tlbEmerg start size : Nat) (option : DcacheOption) (attrs : BitVec 64)
    (hflat : ∀ r ∈ regions m, Flat r) (hfuel : ∀ r ∈ regions m, r.size ≤ 4096 * fuel)
    (harea : TableArea a₀) (hsetup : setupPgtables m fuel a₀ = .ok a)
    (hr : OnPageBounds start size)
    (hheld : ∀ va, start ≤ va → va < start + size → lastRegion (regions m) va ≠ none)
    (hfuel' : size ≤ 4096 * fuel') (hemerg : tlbEmerg ≠ 0) :
    Completes (mmuSetRegionDcacheBehaviour m fuel' tlbEmerg start size option a) (fun a' =>
      DcacheExact m a a' start size option ↔ DcacheReached m a start size option) ∧
    Completes (mmuChangeRegionAttr m fuel' start size attrs a) fun a' =>
      ChangeExact m a a' start size attrs ↔ ChangeReached m a start size attrs := by
  have hrun := setupPgtables_succeeds hflat hfuel harea
  rw [hsetup] at hrun
  obtain ⟨hg, hattrs⟩ := hrun
  have hmap := mapped_of_regions hflat hattrs hheld
  constructor
  · unfold mmuSetRegionDcacheBehaviour
    rw [if_neg hemerg]
    refine (edited_once hg hr hmap hfuel').mono ?_
    rintro a' ⟨b', he⟩
    exact dcacheExact_iff hg hr hmap he
  · refine (edited_twice hg hr hmap hfuel').mono ?_
    rintro a' ⟨b', he⟩
    exact changeExact_iff hg hr hmap he

end Exact

theorem ok_of_toOption {ε α : Type} {r : Except ε α} {x : α} (h : r.toOption = some x) :
    r = .ok x := by
  cases r with
  | error e => cases h
  | ok y =>
    cases h
    rfl

/-- Of one page nothing is left behind a table. -/
theorem not_stale_page {m : List MmRegion} {a : Arch} {start va : Nat} (hstart : start % 4096 = 0) :
    ¬ Stale m a start 4096 va := by
  rintro ⟨h, hgranule, -⟩
  obtain ⟨hle, hlo, hhi⟩ := hgranule.within ⟨hstart, by decide⟩
  have hsize : 4096 < longFormat.size (h + 1) := by
    obtain rfl | rfl : h = 0 ∨ h = 1 := by omega
    · decide
    · decide
  rw [Nat.add_one_mul] at hhi
  omega

/-- The cache of one page of RAM is switched off, and the page is made invalid. -/
theorem region_attr_change_exact_page :
    ∃ a, setupPgtables overlapMap 1024 freshArea = .ok a ∧
      (∃ a', mmuSetRegionDcacheBehaviour overlapMap 1024 0x14000 0x200000 0x1000 .off a = .ok a' ∧
        DcacheExact overlapMap a a' 0x200000 0x1000 .off) ∧
      ∃ a', mmuChangeRegionAttr overlapMap 1024 0x200000 0x1000 pteTypeValid a = .ok a' ∧
        ChangeExact overlapMap a a' 0x200000 0x1000 pteTypeValid := by
  have hok : ((setupPgtables overlapMap 1024 freshArea).toOption.bind fun a =>
      (mmuSetRegionDcacheBehaviour overlapMap 1024 0x14000 0x200000 0x1000 .off a).toOption.bind fun _ =>
        (mmuChangeRegionAttr overlapMap 1024 0x200000 0x1000 pteTypeValid a).toOption.map fun _ => ()) =
      some () := by decide +kernel
  obtain ⟨a, ha, hok⟩ := Option.bind_eq_some_iff.mp hok
  obtain ⟨a', ha', hok⟩ := Option.bind_eq_some_iff.mp hok
  obtain ⟨b', hb', -⟩ := Option.map_eq_some_iff.mp hok
  have hsetup := ok_of_toOption ha
  have hdcache := ok_of_toOption ha'
  have hchange := ok_of_toOption hb'
  obtain ⟨h1, h2⟩ := region_attr_change_exact_iff overlapMap freshArea a 1024 1024 0x14000 0x200000
    0x1000 .off pteTypeValid overlapMap_flat (by decide +kernel) ⟨by decide, by decide, rfl, by decide⟩ hsetup
    ⟨by decide, by decide⟩ (fun va hlo hhi hnone => lastHolding_eq_none.mp hnone _ (List.mem_cons_self ..)
      ⟨hlo, hhi.trans (show 0x200000 + 0x1000 < 0x200000 + 0x400000 by decide)⟩) (by decide) (by decide)
  rw [hdcache] at h1
  rw [hchange] at h2
  have hstale : ∀ va, ¬ Stale overlapMap a 0x200000 0x1000 va := fun va => not_stale_page (by decide)
  exact ⟨a, hsetup, ⟨a', hdcache, h1.mpr fun va _ _ => ⟨fun h => absurd h (hstale va), fun _ => rfl⟩⟩,
    b', hchange, h2.mpr fun va _ _ h => absurd h (hstale va)⟩

/-- What a page is translated to before and after its cache is changed. -/
def beforeAndAfter (start size : Nat) (option : DcacheOption) (va : Nat) :
    Option (Option (Nat × BitVec 64) × Option (Nat × BitVec 64)) :=
  (setupPgtables overlapMap 1024 freshArea).toOption.bind fun a =>
    (mmuSetRegionDcacheBehaviour overlapMap 1024 0x14000 start size option a).toOption.map fun a' =>
      (a.translation overlapMap va, a'.translation overlapMap va)

theorem exists_of_beforeAndAfter {start size va : Nat} {option : DcacheOption}
    {p p' : Option (Nat × BitVec 64)} (h : beforeAndAfter start size option va = some (p, p')) :
    ∃ a a', setupPgtables overlapMap 1024 freshArea = .ok a ∧
      mmuSetRegionDcacheBehaviour overlapMap 1024 0x14000 start size option a = .ok a' ∧
      a.translation overlapMap va = p ∧ a'.translation overlapMap va = p' := by
  obtain ⟨a, ha, h⟩ := Option.bind_eq_some_iff.mp h
  obtain ⟨a', ha', h⟩ := Option.map_eq_some_iff.mp h
  rw [Prod.mk.injEq] at h
  exact ⟨a, a', ok_of_toOption ha, ok_of_toOption ha', h.1, h.2⟩

/-- RAM with a device page: switching the cache off for the 2 MiB around it leaves them cached, and switching
write-back caching on for the next 2 MiB makes them device memory. -/
theorem dcache_change_misses_range : (∃ a a', setupPgtables overlapMap 1024 freshArea = .ok a ∧
      mmuSetRegionDcacheBehaviour overlapMap 1024 0x14000 0x200000 0x200000 .off a = .ok a' ∧
      ¬ DcacheExact overlapMap a a' 0x200000 0x200000 .off) ∧
    ∃ a a', setupPgtables overlapMap 1024 freshArea = .ok a ∧
      mmuSetRegionDcacheBehaviour overlapMap 1024 0x14000 0x400000 0x200000 .writeback a = .ok a' ∧
      ¬ DcacheExact overlapMap a a' 0x400000 0x200000 .writeback := by
  have hreach : ∀ va < 2 ^ 32, InReach overlapMap va := by
    intro va hva
    exact hva.trans_le (two_pow_vaBits_le overlapMap 0)
  have hoff : beforeAndAfter 0x200000 0x200000 .off 0x200000 =
      some (some (0x200000, 0x710#64), some (0x200000, 0x710#64)) := by decide +kernel
  have hback : beforeAndAfter 0x400000 0x200000 .writeback 0x400000 =
      some (some (0x400000, 0x710#64), some (0x400000, 0x700#64)) := by decide +kernel
  obtain ⟨a, a', h1, h2, h3, h4⟩ := exists_of_beforeAndAfter hoff
  obtain ⟨b, b', k1, k2, k3, k4⟩ := exists_of_beforeAndAfter hback
  refine ⟨⟨a, a', h1, h2, fun hexact => ?_⟩, b, b', k1, k2, fun hexact => ?_⟩
  · have hnew := hexact 0x200000 (hreach _ (by decide))
    rw [h3, h4] at hnew
    exact absurd hnew (by decide)
  · have hnew := hexact 0x400000 (hreach _ (by decide))
    rw [k3, k4] at hnew
    exact absurd hnew (by decide)

end Armada3720.UBootMmu
