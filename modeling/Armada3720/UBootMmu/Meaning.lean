import Armada3720.Lib.Regions
import Armada3720.UBootMmu.Tables

/-!
# What the page tables of U-Boot mean

The tables that `setup_pgtables` builds from an identity map translate an address by the last entry of `mem_map`
that holds it. `Good` is what every step of `add_map` keeps: the tables form a tree, and every word is zero, a
table or a leaf that maps its own window to itself. Only attributes are then followed (`attrsAt`).
-/

namespace Armada3720.UBootMmu

open Lib Lib.PageFormat

/-! ## Words -/

/-- The attribute bits of an entry: neither address nor type. -/
def IsAttrs (attrs : BitVec 64) : Prop := attrs &&& attrMask = attrs

instance (attrs : BitVec 64) : Decidable (IsAttrs attrs) := inferInstanceAs (Decidable (_ = _))

/-- The leaf that maps window `e` of height `h` to itself. -/
def leafWord (h e : Nat) (attrs : BitVec 64) : BitVec 64 :=
  BitVec.ofNat 64 (e * longFormat.size h) ||| (attrs ||| if h = 0 then pteTypePage else pteTypeBlock)

/-- The words that `add_map` keeps for window `e` of height `h`: none, a leaf or a table. -/
def Word (h e : Nat) (w : BitVec 64) : Prop :=
  w = 0#64 ∨
  (∃ attrs, IsAttrs attrs ∧ h ≤ 2 ∧ e * longFormat.size h < 2 ^ 48 ∧ w = leafWord h e attrs) ∨
  (∃ t, Fits t ∧ 0 < h ∧ w = pteTypeTable ||| BitVec.ofNat 64 t)

section Word

variable {h e : Nat} {attrs : BitVec 64}

theorem size_page (h : Nat) : longFormat.size h % 4096 = 0 := by
  have := mul_size_mod 1 h
  rwa [Nat.one_mul] at this

theorem isAttrs_and (ha : IsAttrs attrs) {m : BitVec 64} (hm : attrMask &&& m = 0#64) :
    attrs &&& m = 0#64 := by
  rw [← ha, BitVec.and_assoc, hm, BitVec.and_zero]

section

variable (ha : IsAttrs attrs) (he : e * longFormat.size h < 2 ^ 48)
include ha he

theorem type_leafWord : leafWord h e attrs &&& typeMask = if h = 0 then 3#64 else 1#64 := by
  rw [leafWord, type_or ⟨mul_size_mod e h, he⟩, BitVec.and_or_distrib_right,
    isAttrs_and ha (by decide), BitVec.zero_or]
  split <;> decide

theorem descAttrs_leafWord : descAttrs (leafWord h e attrs) = attrs := by
  rw [leafWord, descAttrs_or ⟨mul_size_mod e h, he⟩, BitVec.and_or_distrib_right, ha]
  have hz : (if h = 0 then pteTypePage else pteTypeBlock) &&& attrMask = 0#64 := by
    split <;> decide
  rw [hz, BitVec.or_zero]

theorem descAddr_leafWord : descAddr (leafWord h e attrs) = e * longFormat.size h := by
  refine descAddr_or ⟨mul_size_mod e h, he⟩ ?_
  rw [BitVec.and_or_distrib_right, isAttrs_and ha (by decide), BitVec.zero_or]
  split <;> decide

end

theorem kind_leafWord (ha : IsAttrs attrs) (hh : h ≤ 2) (he : e * longFormat.size h < 2 ^ 48) :
    longFormat.kind h (leafWord h e attrs) = .leaf := by
  have ht := type_leafWord ha he
  rcases Nat.eq_zero_or_pos h with rfl | hpos
  · exact kind_of_page ht
  · rw [if_neg (by omega)] at ht
    exact kind_of_block ht (by omega)

theorem type_tableWord {t : Nat} (ht : Fits t) : (pteTypeTable ||| BitVec.ofNat 64 t) &&& typeMask = 3#64 := by
  rw [BitVec.or_comm, type_or ht]
  decide

theorem kind_tableWord {t : Nat} (ht : Fits t) :
    longFormat.kind (h + 1) (pteTypeTable ||| BitVec.ofNat 64 t) = .table t := by
  refine kind_eq_table.mpr ⟨type_tableWord ht, ?_⟩
  rw [BitVec.or_comm]
  exact descAddr_or ht (by decide)

theorem splitEntry_leafWord {i : Nat} (hh : h ≤ 1) (hi : i < 512) :
    splitEntry (leafWord (h + 1) e attrs) (3 - (h + 1)) i = leafWord h (e * 512 + i) attrs := by
  have hlevel : 3 - (h + 1) + 1 = 3 - h := by omega
  have hshift : level2shift (3 - h) = 12 + 9 * h := by
    unfold level2shift
    omega
  have haddr : BitVec.ofNat 64 (e * longFormat.size (h + 1)) |||
      BitVec.ofNat 64 i <<< level2shift (3 - h) =
        BitVec.ofNat 64 ((e * 512 + i) * longFormat.size h) := by
    have hlt : i * 2 ^ (12 + 9 * h) < 2 ^ (12 + 9 * (h + 1)) := by
      rw [Nat.mul_succ, ← Nat.add_assoc, pow_add _ _ 9, Nat.mul_comm]
      exact Nat.mul_lt_mul_of_pos_left hi (by positivity)
    rw [hshift, ofNat_shiftLeft, size_eq, ofNat_or_offset hlt, size_eq]
    congr 1
    ring
  rw [splitEntry, hlevel, leafWord, leafWord, ← haddr, if_neg (Nat.succ_ne_zero h)]
  rcases Nat.eq_zero_or_pos h with rfl | hpos
  · have htype : pteTypePage = pteTypeBlock ||| pteTypeTable := by decide
    rw [if_pos rfl, if_pos rfl, htype]
    ac_rfl
  · rw [if_neg (by omega), if_neg (by omega)]
    ac_rfl

theorem piece_lt {j : Nat} (hh : h ≤ 1) (hj : j < longFormat.fan) (he : e * longFormat.size (h + 1) < 2 ^ 48) :
    (e * longFormat.fan + j) * longFormat.size h < 2 ^ 48 := by
  obtain ⟨q, hq⟩ : ∃ q, 2 ^ 48 = q * longFormat.size (h + 1) := by
    refine ⟨2 ^ (27 - 9 * h), ?_⟩
    rw [size_eq, ← pow_add]
    congr 1
    omega
  rw [hq] at he ⊢
  have heq : e < q := Nat.lt_of_mul_lt_mul_right he
  calc (e * longFormat.fan + j) * longFormat.size h
      < (e * longFormat.fan + longFormat.fan) * longFormat.size h :=
        Nat.mul_lt_mul_of_pos_right (by omega) (longFormat.size_pos h)
    _ = (e + 1) * longFormat.size (h + 1) := by rw [longFormat.size_succ]; ring
    _ ≤ q * longFormat.size (h + 1) := Nat.mul_le_mul_right _ heq

theorem kind_zero : longFormat.kind h 0#64 = .invalid := kind_of_fault (by decide)

theorem Word.outAddr_eq {w : BitVec 64} {va : Nat} (hw : Word h (longFormat.entry h va) w)
    (hk : longFormat.kind h w = .leaf) : outAddr h w va = va := by
  rcases hw with rfl | ⟨attrs, ha, _, he, rfl⟩ | ⟨t, ht, hpos, rfl⟩
  · cases hk
  · rw [outAddr_of_dvd (descAddr_leafWord ha he)]
    exact Nat.div_add_mod' va _
  · obtain ⟨g, rfl⟩ : ∃ g, h = g + 1 := ⟨h - 1, by omega⟩
    rw [kind_tableWord ht] at hk
    cases hk

end Word

/-! ## The invariant -/

section Good

variable (m : List MmRegion)

/-- The height of the table at `tlb_addr`. -/
def topHeight : Nat := 3 - startLevel m

/-- The table at height `h` numbered `k`. -/
def Arch.tab (a : Arch) (h k : Nat) : Option Nat := longFormat.tab (topHeight m) a.tlbAddr a.mem h k

def Arch.walk (a : Arch) (va : Nat) : Option (Nat × BitVec 64) :=
  longFormat.walk a.mem (topHeight m) a.tlbAddr va

/-- The attributes that `va` is mapped with. -/
def Arch.attrsAt (a : Arch) (va : Nat) : Option (BitVec 64) :=
  (a.walk m va).map fun p => descAttrs p.2

/-- The addresses that the table at `tlb_addr` covers. -/
def InReach (va : Nat) : Prop := va < longFormat.size (topHeight m + 1)

/-- What holds between the steps of `add_map`. -/
structure Good (a : Arch) : Prop where
  inj : longFormat.TabInj (topHeight m) a.tlbAddr a.mem
  placed : ∀ {h k t}, a.tab m h k = some t → t < a.tlbFillptr
  aligned : a.tlbFillptr % 4096 = 0
  area : a.tlbAddr + a.tlbSize ≤ 2 ^ 48
  words : ∀ {h k t i}, a.tab m h k = some t → i < longFormat.fan →
    Word h (k * longFormat.fan + i) (a.mem t i)

variable {m} {a : Arch} {h k t i va : Nat}

theorem topHeight_le : topHeight m ≤ 3 := Nat.sub_le _ _

theorem entry_top (hva : InReach m va) : longFormat.entry (topHeight m + 1) va = 0 :=
  Nat.div_eq_of_lt hva

section

variable (ht : a.tab m h k = some t) (hi : i < longFormat.fan)
include ht hi

theorem walk_from (hva : longFormat.entry h va = k * longFormat.fan + i) :
    a.walk m va = longFormat.walk a.mem h t va ∧ longFormat.index h va = i := by
  refine ⟨walk_tab ?_, index_of_entry hi hva⟩
  rw [longFormat.entry_succ, hva, longFormat.number_div hi]
  exact ht

theorem attrsAt_of_fault (hw : a.mem t i = 0#64)
    (hva : longFormat.entry h va = k * longFormat.fan + i) : a.attrsAt m va = none := by
  obtain ⟨hwalk, hidx⟩ := walk_from ht hi hva
  rw [Arch.attrsAt, hwalk, walk_of_invalid, Option.map_none]
  rw [hidx, hw, kind_zero]

theorem attrsAt_of_leaf {attrs : BitVec 64} (ha : IsAttrs attrs) (hh : h ≤ 2)
    (he : (k * longFormat.fan + i) * longFormat.size h < 2 ^ 48)
    (hw : a.mem t i = leafWord h (k * longFormat.fan + i) attrs)
    (hva : longFormat.entry h va = k * longFormat.fan + i) : a.attrsAt m va = some attrs := by
  obtain ⟨hwalk, hidx⟩ := walk_from ht hi hva
  rw [Arch.attrsAt, hwalk, walk_of_leaf, Option.map_some, hidx, hw, descAttrs_leafWord ha he]
  rw [hidx, hw, kind_leafWord ha hh he]

end

theorem Good.stop_cases (hg : Good m a) {h t : Nat} (ht : a.tab m h (longFormat.entry (h + 1) va) = some t) :
    let p := longFormat.stop a.mem h t va
    p.2 = 0#64 ∧ longFormat.walk a.mem h t va = none ∨
      longFormat.kind p.1 p.2 = .leaf ∧ longFormat.walk a.mem h t va = some p ∧
        outAddr p.1 p.2 va = va := by
  have hword := hg.words ht (longFormat.index_lt h va)
  rw [← longFormat.entry_eq] at hword
  rcases hword with hw | ⟨attrs, ha, hh, he, hw⟩ | ⟨s, hs, hpos, hw⟩
  · have hk : longFormat.kind h (a.mem t (longFormat.index h va)) = .invalid := by
      rw [hw, kind_zero]
    rw [stop_of_not_table (by simp [hk]), walk_of_invalid hk]
    exact Or.inl ⟨hw, rfl⟩
  · have hk : longFormat.kind h (a.mem t (longFormat.index h va)) = .leaf := by
      rw [hw, kind_leafWord ha hh he]
    rw [stop_of_not_table (by simp [hk]), walk_of_leaf hk]
    exact Or.inr ⟨hk, rfl, Word.outAddr_eq (Or.inr (Or.inl ⟨attrs, ha, hh, he, hw⟩)) hk⟩
  · cases h with
    | zero => exact absurd hpos (lt_irrefl 0)
    | succ h =>
      have hk : longFormat.kind (h + 1) (a.mem t (longFormat.index (h + 1) va)) = .table s := by
        rw [hw, kind_tableWord hs]
      have htab := tab_child ht (longFormat.index_lt _ _) hk
      rw [← longFormat.entry_eq] at htab
      rw [stop_of_table hk, walk_of_table hk]
      exact Good.stop_cases hg htab

/-! ## Hanging in a table -/

/-- The memory after a new table, filled with `f`, is hung in at an entry. -/
def Arch.hang (a : Arch) (pte : Nat × Nat) (f : Nat → BitVec 64) : Arch :=
  { a with
    tlbFillptr := a.tlbFillptr + 512 * 8
    mem := graft a.mem pte.1 pte.2 a.tlbFillptr f (pteTypeTable ||| BitVec.ofNat 64 a.tlbFillptr) }

/-- There is room for one more table. -/
def Arch.HasRoom (a : Arch) : Prop := a.tlbFillptr + 512 * 8 - a.tlbAddr ≤ a.tlbSize

variable (m) in
/-- What hanging in needs of the entry and of the new table's words. -/
abbrev Hangs (a : Arch) (h k t i : Nat) (f : Nat → BitVec 64) : Prop :=
  longFormat.Grafts (topHeight m) a.tlbAddr a.mem h k t i a.tlbFillptr f
    (pteTypeTable ||| BitVec.ofNat 64 a.tlbFillptr)

section Hang

variable {f : Nat → BitVec 64}

theorem Good.fits (hg : Good m a) (hr : a.HasRoom) : Fits a.tlbFillptr := by
  have harea := hg.area
  unfold Arch.HasRoom at hr
  exact ⟨hg.aligned, by omega⟩

theorem Good.hangs (hg : Good m a) (ht : a.tab m (h + 1) k = some t) (hi : i < longFormat.fan)
    (hr : a.HasRoom) (hold : ∀ u, longFormat.kind (h + 1) (a.mem t i) ≠ .table u)
    (hflat : ∀ j < longFormat.fan, ∀ u, longFormat.kind h (f j) ≠ .table u) :
    Hangs m a h k t i f where
  inj := hg.inj
  parent := ht
  index := hi
  old := hold
  unused := fun _ _ hs => lt_irrefl _ (hg.placed hs)
  word := kind_tableWord (hg.fits hr)
  flat := hflat

theorem tab_hang (hh : Hangs m a h k t i f) (h' k' : Nat) : (a.hang (t, i) f).tab m h' k' =
      if h' = h ∧ k' = k * longFormat.fan + i then some a.tlbFillptr else a.tab m h' k' :=
  hh.tab_graft h' k'

theorem Good.hang (hg : Good m a) (hh : Hangs m a h k t i f) (hr : a.HasRoom)
    (hf : ∀ j < longFormat.fan, Word h ((k * longFormat.fan + i) * longFormat.fan + j) (f j)) :
    Good m (a.hang (t, i) f) where
  inj := hh.tabInj_graft
  placed := by
    intro h' k' s hs
    show s < a.tlbFillptr + 512 * 8
    rw [tab_hang hh] at hs
    split at hs
    · cases hs
      omega
    · have := hg.placed hs
      omega
  aligned := by
    show (a.tlbFillptr + 512 * 8) % 4096 = 0
    have := hg.aligned
    omega
  area := hg.area
  words := by
    intro h' k' s j hs hj
    have hnew : t ≠ a.tlbFillptr := (hg.placed hh.parent).ne
    rw [tab_hang hh] at hs
    show Word h' _ (graft a.mem t i a.tlbFillptr f _ s j)
    unfold graft
    split at hs
    · next hc =>
      obtain ⟨rfl, rfl⟩ := hc
      cases hs
      rw [setEntry_other (Or.inl hnew.symm), fillTable_self]
      exact hf j hj
    · have hs' : s ≠ a.tlbFillptr := (hg.placed hs).ne
      by_cases hc : s = t ∧ j = i
      · obtain ⟨rfl, rfl⟩ := hc
        obtain ⟨rfl, rfl⟩ := hg.inj _ _ _ _ _ hs hh.parent
        rw [setEntry_self]
        exact Or.inr (Or.inr ⟨_, hg.fits hr, Nat.succ_pos h, rfl⟩)
      · rw [setEntry_other (by tauto), fillTable_other hs']
        exact hg.words hs hj

/-- A new table that says about its addresses what the entry said leaves every translation. -/
theorem attrsAt_hang (hh : Hangs m a h k t i f) (hsame : ∀ va, longFormat.entry (h + 1) va = k * longFormat.fan + i →
      a.attrsAt m va = if longFormat.kind h (f (longFormat.index h va)) = .leaf then
        some (descAttrs (f (longFormat.index h va))) else none)
    (hva : InReach m va) : (a.hang (t, i) f).attrsAt m va = a.attrsAt m va := by
  by_cases he : longFormat.entry (h + 1) va = k * longFormat.fan + i
  · have hw : (a.hang (t, i) f).walk m va = _ := hh.walk_self he
    rw [hsame va he, Arch.attrsAt, hw]
    split <;> rfl
  · have hw : (a.hang (t, i) f).walk m va = a.walk m va := hh.walk_other he (entry_top hva)
    rw [Arch.attrsAt, hw, Arch.attrsAt]

theorem Good.hang_empty (hg : Good m a) (ht : a.tab m (h + 1) k = some t)
    (hi : i < longFormat.fan) (hr : a.HasRoom) (hw : a.mem t i = 0#64) :
    Good m (a.hang (t, i) fun _ => 0#64) ∧
      (a.hang (t, i) fun _ => 0#64).tab m h (k * longFormat.fan + i) = some a.tlbFillptr ∧
      ∀ va, InReach m va → (a.hang (t, i) fun _ => 0#64).attrsAt m va = a.attrsAt m va := by
  have hh : Hangs m a h k t i fun _ => 0#64 :=
    hg.hangs ht hi hr (by simp [hw, kind_zero]) (by simp [kind_zero])
  refine ⟨hg.hang hh hr fun _ _ => Or.inl rfl, ?_, fun va hva => attrsAt_hang hh ?_ hva⟩
  · rw [tab_hang hh, if_pos ⟨rfl, rfl⟩]
  · intro va he
    rw [attrsAt_of_fault ht hi hw he, kind_zero, if_neg (by simp)]

section Split

variable (hg : Good m a) (ht : a.tab m (h + 1) k = some t) (hi : i < longFormat.fan)
  {attrs : BitVec 64} (ha : IsAttrs attrs) (hh2 : h + 1 ≤ 2)
  (he : (k * longFormat.fan + i) * longFormat.size (h + 1) < 2 ^ 48)
  (hw : a.mem t i = leafWord (h + 1) (k * longFormat.fan + i) attrs)

include hh2 hw in
theorem piece_eq {j : Nat} (hj : j < longFormat.fan) :
    splitEntry (a.mem t i) (3 - (h + 1)) j =
      leafWord h ((k * longFormat.fan + i) * longFormat.fan + j) attrs := by
  rw [hw]
  exact splitEntry_leafWord (by omega) hj

include ha hh2 he hw in
theorem kind_piece {j : Nat} (hj : j < longFormat.fan) :
    longFormat.kind h (splitEntry (a.mem t i) (3 - (h + 1)) j) = .leaf := by
  rw [piece_eq hh2 hw hj]
  exact kind_leafWord ha (by omega) (piece_lt (by omega) hj he)

include hg ht hi ha hh2 he hw

theorem Good.hangs_split (hr : a.HasRoom) :
    Hangs m a h k t i (splitEntry (a.mem t i) (3 - (h + 1))) := by
  refine hg.hangs ht hi hr ?_ fun j hj u hu => ?_
  · rw [hw, kind_leafWord ha hh2 he]
    simp
  · rw [kind_piece ha hh2 he hw hj] at hu
    cases hu

theorem Good.hang_split (hr : a.HasRoom) :
    let f := splitEntry (a.mem t i) (3 - (h + 1))
    Good m (a.hang (t, i) f) ∧
      (a.hang (t, i) f).tab m h (k * longFormat.fan + i) = some a.tlbFillptr ∧
      ∀ va, InReach m va → (a.hang (t, i) f).attrsAt m va = a.attrsAt m va := by
  intro f
  have hh : Hangs m a h k t i f := hg.hangs_split ht hi ha hh2 he hw hr
  have hbound : ∀ j < longFormat.fan, ((k * longFormat.fan + i) * longFormat.fan + j) * longFormat.size h < 2 ^ 48 :=
    fun j hj => piece_lt (by omega) hj he
  have hpiece : ∀ j < longFormat.fan, f j = leafWord h ((k * longFormat.fan + i) * longFormat.fan + j) attrs :=
    fun j hj => piece_eq hh2 hw hj
  refine ⟨hg.hang hh hr fun j hj => Or.inr (Or.inl ⟨attrs, ha, by omega, hbound j hj, hpiece j hj⟩),
    ?_, fun va hva => attrsAt_hang hh ?_ hva⟩
  · rw [tab_hang hh, if_pos ⟨rfl, rfl⟩]
  · intro va hva
    have hidx := longFormat.index_lt h va
    rw [attrsAt_of_leaf ht hi ha hh2 he hw hva, if_pos (kind_piece ha hh2 he hw hidx), hpiece _ hidx,
      descAttrs_leafWord ha (hbound _ hidx)]

end Split

end Hang

/-! ## Writing a leaf -/

/-- The leaf replaces what the entry said about its window, and nothing else. -/
theorem Good.setLeaf (hg : Good m a) (ht : a.tab m h k = some t) (hi : i < longFormat.fan)
    {attrs : BitVec 64} (ha : IsAttrs attrs) (hh : h ≤ 2)
    (he : (k * longFormat.fan + i) * longFormat.size h < 2 ^ 48) :
    let a' := a.setPte (t, i) (leafWord h (k * longFormat.fan + i) attrs)
    Good m a' ∧ ∀ va, InReach m va → a'.attrsAt m va =
      if longFormat.entry h va = k * longFormat.fan + i then some attrs else a.attrsAt m va := by
  intro a'
  have hfresh : longFormat.Fresh (topHeight m) a.tlbAddr a.mem h (leafWord h (k * longFormat.fan + i) attrs) := by
    intro s hs
    rw [kind_leafWord ha hh he] at hs
    cases hs
  have htab : ∀ h' k' s, a'.tab m h' k' = some s → a.tab m h' k' = some s := by
    intro h' k' s hs
    have hset : a'.tab m h' k' = _ := tab_setEntry hg.inj ht hi hfresh h' k'
    rw [hset, kind_leafWord ha hh he] at hs
    split at hs
    · split at hs <;> cases hs
    · exact hs
  have hgood : Good m a' := by
    refine ⟨tabInj_setEntry hg.inj ht hi hfresh, fun hs => hg.placed (htab _ _ _ hs), hg.aligned,
      hg.area, fun {h' k' s j} hs hj => ?_⟩
    have hs' := htab _ _ _ hs
    show Word h' _ (setEntry a.mem t i _ s j)
    by_cases hc : s = t ∧ j = i
    · obtain ⟨rfl, rfl⟩ := hc
      obtain ⟨rfl, rfl⟩ := hg.inj _ _ _ _ _ hs' ht
      rw [setEntry_self]
      exact Or.inr (Or.inl ⟨attrs, ha, hh, he, rfl⟩)
    · rw [setEntry_other (by tauto)]
      exact hg.words hs' hj
  refine ⟨hgood, fun va hva => ?_⟩
  split
  · next hwin =>
    have htab' : a'.tab m h k = some t := by
      have hset : a'.tab m h k = _ := tab_setEntry hg.inj ht hi hfresh h k
      rw [hset, if_neg (fun hb => absurd hb.1 (lt_irrefl h))]
      exact ht
    exact attrsAt_of_leaf htab' hi ha hh he (setEntry_self ..) hwin
  · next hwin =>
    have hw : a'.walk m va = a.walk m va := walk_setEntry_other hg.inj ht hwin (entry_top hva)
    rw [Arch.attrsAt, hw, Arch.attrsAt]

/-! ## Finding an entry -/

theorem block_size (hh : h ≤ 3) : 2 ^ level2shift (3 - h) = longFormat.size h := by
  rw [size_eq, level2shift, show 3 - (3 - h) = h by omega]

theorem entry_mul_size (hva : va % longFormat.size h = 0) : longFormat.entry h va * longFormat.size h = va :=
  Nat.div_mul_cancel (Nat.dvd_of_mod_eq_zero hva)

theorem findPte_eq (hh : h ≤ 3) (ht : a.tab m h (longFormat.entry (h + 1) va) = some t) :
    findPte m a va (3 - h) = some (t, longFormat.index h va) := by
  have htop : h ≤ topHeight m := tab_le ht
  have hstart : topHeight m = 3 - startLevel m := rfl
  have hs1 : startLevel m ≤ 1 := by
    unfold startLevel
    split <;> omega
  -- upwards from the table that is sought: the loop started at any table above it finds it
  have hup : ∀ g, h ≤ g → g ≤ topHeight m → ∃ u, a.tab m g (longFormat.entry (g + 1) va) = some u ∧
      findPteLoop a.mem va (3 - h) (g + 1) (3 - g) u = some (t, longFormat.index h va) := by
    intro g hg
    induction g, hg using Nat.le_induction with
    | base =>
      intro _
      refine ⟨t, ht, ?_⟩
      rw [findPteLoop, if_pos rfl, block_size hh]
      rfl
    | succ g hge ih =>
      intro hle
      obtain ⟨u, hu, hfind⟩ := ih (by omega)
      obtain ⟨v, hv, hk⟩ := (tab_parent hle).mp hu
      rw [← longFormat.entry_succ] at hv
      refine ⟨v, hv, ?_⟩
      obtain ⟨htype, haddr⟩ := kind_eq_table.mp hk
      have hidx : va / 2 ^ level2shift (3 - (g + 1)) % 512 =
          longFormat.entry (g + 1) va % longFormat.fan := by
        rw [block_size (by omega)]
        rfl
      have hpte : pteType (a.mem v (longFormat.entry (g + 1) va % longFormat.fan)) = pteTypeTable :=
        htype
      rw [findPteLoop, if_neg (by omega), hidx, if_neg (not_not.mpr hpte), show 3 - (g + 1) + 1 = 3 - g by omega]
      show findPteLoop _ _ _ _ _ (descAddr _) = _
      rw [haddr]
      exact hfind
  obtain ⟨u, hu, hfind⟩ := hup (topHeight m) htop le_rfl
  have hroot : u = a.tlbAddr := by
    have hu' : longFormat.tab (topHeight m) a.tlbAddr a.mem (topHeight m) _ = some u := hu
    rw [tab_top] at hu'
    split at hu'
    · cases hu'; rfl
    · cases hu'
  rw [findPte, if_neg (by omega), ← hroot, show 4 - startLevel m = topHeight m + 1 by omega]
  rw [show 3 - topHeight m = startLevel m by omega] at hfind
  exact hfind

end Good

/-! ## `add_map` -/

/-- The computation ends with `P`, or for want of room for a table. -/
def Succeeds {α : Type} (r : Except Stop α) (P : α → Prop) : Prop :=
  match r with
  | .ok x => P x
  | .error e => ∃ used size, e = .insufficientRam used size

theorem Succeeds.bind {α β : Type} {r : Except Stop α} {f : α → Except Stop β} {P : α → Prop}
    {Q : β → Prop} (hr : Succeeds r P) (hf : ∀ x, P x → Succeeds (f x) Q) :
    Succeeds (r >>= f) Q := by
  cases r with
  | ok x => exact hf x hr
  | error e => exact hr

theorem Succeeds.mono {α : Type} {r : Except Stop α} {P Q : α → Prop} (hr : Succeeds r P)
    (h : ∀ x, P x → Q x) : Succeeds r Q := by
  cases r with
  | ok x => exact h x hr
  | error e => exact hr

/-- What `create_table` gives back when there is room. -/
def Arch.newTable (a : Arch) : Nat × Arch :=
  (a.tlbFillptr, { a with
    tlbFillptr := a.tlbFillptr + 512 * 8
    mem := fillTable a.mem a.tlbFillptr fun _ => 0#64 })

theorem createTable_succeeds (a : Arch) :
    Succeeds (createTable a) fun p => a.HasRoom ∧ p = a.newTable := by
  unfold createTable
  simp only
  split
  · exact ⟨_, _, rfl⟩
  · next hr => exact ⟨not_lt.mp hr, rfl⟩

section AddMap

variable {m : List MmRegion} {a : Arch} {h t va : Nat}

variable (m) in
/-- The state `a'` differs from `a` in that the table at height `h` for `va` is there. -/
structure Opened (h va : Nat) (a a' : Arch) : Prop where
  good : Good m a'
  table : ∃ s, a'.tab m h (longFormat.entry (h + 1) va) = some s
  same : ∀ va, InReach m va → a'.attrsAt m va = a.attrsAt m va

theorem opened_fault (hg : Good m a) (ht : a.tab m (h + 1) (longFormat.entry (h + 2) va) = some t)
    (hw : a.mem t (longFormat.index (h + 1) va) = 0#64) (hr : a.HasRoom) :
    Opened m h va a (setPteTable a.newTable.2 (t, longFormat.index (h + 1) va) a.newTable.1) := by
  obtain ⟨hgood, htab, hsame⟩ := hg.hang_empty ht (longFormat.index_lt _ _) hr hw
  refine ⟨hgood, ⟨a.tlbFillptr, ?_⟩, hsame⟩
  rw [longFormat.entry_eq (h + 1)]
  exact htab

theorem splitBlock_succeeds {pte : Nat × Nat} {level : Nat} (htype : pteType (a.mem pte.1 pte.2) = pteTypeBlock) :
    Succeeds (splitBlock a pte level) fun a' =>
      a.HasRoom ∧ a' = a.hang pte (splitEntry (a.mem pte.1 pte.2) level) := by
  unfold splitBlock
  rw [if_neg (not_not.mpr htype)]
  refine (createTable_succeeds a).bind ?_
  rintro _ ⟨hr, rfl⟩
  refine ⟨hr, ?_⟩
  simp only [setPteTable, Arch.setPte, Arch.hang, graft, fillTable_fillTable]

variable {attrs : BitVec 64} {c : Left}

theorem opened_block (hg : Good m a) (ht : a.tab m (h + 1) (longFormat.entry (h + 2) va) = some t)
    (ha : IsAttrs attrs) (hh : h + 1 ≤ 2)
    (he : longFormat.entry (h + 1) va * longFormat.size (h + 1) < 2 ^ 48)
    (hw : a.mem t (longFormat.index (h + 1) va) =
      leafWord (h + 1) (longFormat.entry (h + 1) va) attrs) (hr : a.HasRoom) :
    Opened m h va a (a.hang (t, longFormat.index (h + 1) va)
      (splitEntry (a.mem t (longFormat.index (h + 1) va)) (3 - (h + 1)))) := by
  rw [longFormat.entry_eq (h + 1)] at he hw
  obtain ⟨hgood, htab, hsame⟩ := hg.hang_split ht (longFormat.index_lt _ _) ha hh he hw hr
  rw [← longFormat.entry_eq (h + 1)] at htab
  exact ⟨hgood, ⟨_, htab⟩, hsame⟩

theorem opened_table (hg : Good m a) (ht : a.tab m (h + 1) (longFormat.entry (h + 2) va) = some t)
    {s : Nat} (hs : Fits s)
    (hw : a.mem t (longFormat.index (h + 1) va) = pteTypeTable ||| BitVec.ofNat 64 s) :
    Opened m h va a a := by
  refine ⟨hg, ⟨s, ?_⟩, fun _ _ => rfl⟩
  have := tab_child ht (longFormat.index_lt (h + 1) va) (by rw [hw]; exact kind_tableWord hs)
  rwa [← longFormat.entry_eq] at this

/-- What is left of a region of an identity map. -/
structure LeftOk (m : List MmRegion) (c : Left) : Prop where
  flat : c.phys = c.virt
  virt : c.virt % 4096 = 0
  size : c.size % 4096 = 0
  reach : c.virt + c.size ≤ longFormat.size (topHeight m + 1)

variable (m) in
/-- Some of the region is mapped with `attrs`, and `c'` is left of it. -/
structure Advanced (attrs : BitVec 64) (c : Left) (a : Arch) (c' : Left) (a' : Arch) : Prop where
  good : Good m a'
  left : LeftOk m c'
  ends : c'.virt + c'.size = c.virt + c.size
  less : c.virt < c'.virt
  attrs : ∀ va, InReach m va → a'.attrsAt m va =
    if c.virt ≤ va ∧ va < c'.virt then some attrs else a.attrsAt m va

theorem Advanced.of_opened {c' : Left} {a1 a' : Arch} (ho : Opened m h va a a1)
    (hadv : Advanced m attrs c a1 c' a') : Advanced m attrs c a c' a' := by
  refine ⟨hadv.good, hadv.left, hadv.ends, hadv.less, fun va hva => ?_⟩
  rw [hadv.attrs va hva, ho.same va hva]

theorem reach_lt (hc : LeftOk m c) (hpos : 0 < c.size) : c.virt < 2 ^ 48 := by
  have hle : longFormat.size (topHeight m + 1) ≤ 2 ^ 48 := by
    rw [size_eq]
    refine Nat.pow_le_pow_right (by decide) ?_
    have := topHeight_le (m := m)
    omega
  have := hc.reach
  omega

theorem leaf_eq (hflat : c.phys = c.virt) (hh : h ≤ 2) (hfit : c.virt % longFormat.size h = 0) :
    (if 3 - h = 3 then BitVec.ofNat 64 c.phys ||| (attrs ||| pteTypeBlock ||| pteBlockAf) |||
        pteTypePage
      else BitVec.ofNat 64 c.phys ||| (attrs ||| pteTypeBlock ||| pteBlockAf)) =
    leafWord h (longFormat.entry h c.virt) (attrs ||| pteBlockAf) := by
  rw [leafWord, entry_mul_size hfit, hflat]
  rcases Nat.eq_zero_or_pos h with rfl | hpos
  · have htype : pteTypePage = pteTypeBlock ||| pteTypePage := by decide
    rw [if_pos rfl, if_pos rfl]
    conv_rhs => rw [htype]
    ac_rfl
  · rw [if_neg (by omega), if_neg (by omega)]
    ac_rfl

theorem advanced_leaf (hg : Good m a) (ht : a.tab m h (longFormat.entry (h + 1) c.virt) = some t)
    (hh : h ≤ 2) (ha : IsAttrs (attrs ||| pteBlockAf)) (hc : LeftOk m c) (hpos : 0 < c.size)
    (hfit : longFormat.size h ≤ c.size ∧ c.virt % longFormat.size h = 0) :
    Advanced m (attrs ||| pteBlockAf) c a
      ⟨c.virt + longFormat.size h, c.phys + longFormat.size h, c.size - longFormat.size h⟩
      (a.setPte (t, longFormat.index h c.virt) (leafWord h (longFormat.entry h c.virt) (attrs ||| pteBlockAf))) := by
  have haddr := entry_mul_size hfit.2
  have hsize := size_page h
  have hvirt := hc.virt
  have hsz := hc.size
  have hreach := hc.reach
  have hlt : (longFormat.entry (h + 1) c.virt * longFormat.fan + longFormat.index h c.virt) *
      longFormat.size h < 2 ^ 48 := by
    rw [← longFormat.entry_eq, haddr]
    exact reach_lt hc hpos
  obtain ⟨hgood, hattrs⟩ := hg.setLeaf ht (longFormat.index_lt _ _) ha hh hlt
  rw [← longFormat.entry_eq] at hgood hattrs
  refine ⟨hgood, ⟨by rw [hc.flat], ?_, ?_, ?_⟩, ?_, Nat.lt_add_of_pos_right (longFormat.size_pos h), fun va hva => ?_⟩ <;>
    dsimp only
  · omega
  · omega
  · omega
  · omega
  · rw [hattrs va hva]
    simp only [longFormat.entry_eq_iff, haddr]

theorem addMapLevels_of_fits (hflat : c.phys = c.virt) (hh : h ≤ 2)
    (ht : a.tab m h (longFormat.entry (h + 1) c.virt) = some t)
    (hfit : longFormat.size h ≤ c.size ∧ c.virt % longFormat.size h = 0) :
    addMapLevels m (attrs ||| pteTypeBlock ||| pteBlockAf) (h + 1) (3 - h) c a =
      .ok (⟨c.virt + longFormat.size h, c.phys + longFormat.size h, c.size - longFormat.size h⟩,
        a.setPte (t, longFormat.index h c.virt) (leafWord h (longFormat.entry h c.virt) (attrs ||| pteBlockAf))) := by
  rw [addMapLevels, findPte_eq (by omega) ht]
  simp only [block_size (show h ≤ 3 by omega)]
  rw [if_pos hfit, leaf_eq hflat hh hfit.2]

theorem addMapLevels_of_not_fits (hh : h + 1 ≤ 2) (ht : a.tab m (h + 1) (longFormat.entry (h + 2) c.virt) = some t)
    (hfit : ¬ (longFormat.size (h + 1) ≤ c.size ∧ c.virt % longFormat.size (h + 1) = 0)) :
    addMapLevels m attrs (h + 2) (3 - (h + 1)) c a =
      if pteType (a.mem t (longFormat.index (h + 1) c.virt)) = pteTypeFault then do
        let (newTable, a) ← createTable a
        addMapLevels m attrs (h + 1) (3 - h) c (setPteTable a (t, longFormat.index (h + 1) c.virt) newTable)
      else if pteType (a.mem t (longFormat.index (h + 1) c.virt)) = pteTypeBlock then do
        let a ← splitBlock a (t, longFormat.index (h + 1) c.virt) (3 - (h + 1))
        addMapLevels m attrs (h + 1) (3 - h) c a
      else addMapLevels m attrs (h + 1) (3 - h) c a := by
  have hlevel : 3 - (h + 1) + 1 = 3 - h := by omega
  rw [addMapLevels, findPte_eq (by omega) ht]
  simp only [block_size (show h + 1 ≤ 3 by omega), hlevel]
  rw [if_neg hfit]

/-- The loop over the levels maps one block or page. -/
theorem addMapLevels_succeeds (ha : IsAttrs (attrs ||| pteBlockAf)) (hc : LeftOk m c)
    (hpos : 0 < c.size) (hg : Good m a) (hh : h ≤ 2)
    (ht : a.tab m h (longFormat.entry (h + 1) c.virt) = some t) :
    Succeeds (addMapLevels m (attrs ||| pteTypeBlock ||| pteBlockAf) (h + 1) (3 - h) c a)
      fun p => Advanced m (attrs ||| pteBlockAf) c a p.1 p.2 := by
  induction h generalizing a t with
  | zero =>
    have hfit : longFormat.size 0 ≤ c.size ∧ c.virt % longFormat.size 0 = 0 := by
      have := hc.size
      have := hc.virt
      rw [size_4k]
      omega
    rw [addMapLevels_of_fits hc.flat hh ht hfit]
    exact advanced_leaf hg ht hh ha hc hpos hfit
  | succ h ih =>
    by_cases hfit : longFormat.size (h + 1) ≤ c.size ∧ c.virt % longFormat.size (h + 1) = 0
    · rw [addMapLevels_of_fits hc.flat hh ht hfit]
      exact advanced_leaf hg ht hh ha hc hpos hfit
    have hrest : ∀ a', Opened m h c.virt a a' →
        Succeeds (addMapLevels m (attrs ||| pteTypeBlock ||| pteBlockAf) (h + 1) (3 - h) c a')
          fun p => Advanced m (attrs ||| pteBlockAf) c a p.1 p.2 := by
      intro a' ho
      obtain ⟨s, hs⟩ := ho.table
      exact (ih ho.good (by omega) hs).mono fun p => Advanced.of_opened ho
    rw [addMapLevels_of_not_fits hh ht hfit]
    have hword := hg.words ht (longFormat.index_lt (h + 1) c.virt)
    rw [← longFormat.entry_eq] at hword
    rcases hword with hw | ⟨attrs', ha', _, he, hw⟩ | ⟨s, hs, _, hw⟩
    · rw [hw, if_pos (by decide)]
      refine (createTable_succeeds a).bind ?_
      rintro _ ⟨hr, rfl⟩
      exact hrest _ (opened_fault hg ht hw hr)
    · have htype : pteType (a.mem t (longFormat.index (h + 1) c.virt)) = pteTypeBlock := by
        have := type_leafWord ha' he
        rw [← hw, if_neg (Nat.succ_ne_zero h)] at this
        exact this
      rw [htype, if_neg (by decide), if_pos rfl]
      refine (splitBlock_succeeds htype).bind ?_
      rintro _ ⟨hr, rfl⟩
      exact hrest _ (opened_block hg ht ha' hh he hw hr)
    · have htype : pteType (a.mem t (longFormat.index (h + 1) c.virt)) = pteTypeTable := by
        rw [hw]
        exact type_tableWord hs
      rw [htype, if_neg (by decide), if_neg (by decide)]
      exact hrest _ (opened_table hg ht hs hw)

theorem startLevel_cases (m : List MmRegion) :
    startLevel m = 1 ∧ topHeight m = 2 ∨ startLevel m = 0 ∧ topHeight m = 3 := by
  have : startLevel m = 1 ∨ startLevel m = 0 := by
    unfold startLevel
    split <;> simp
  unfold topHeight
  omega

theorem tab_first (a : Arch) (hva : InReach m va) :
    a.tab m (topHeight m) (longFormat.entry (topHeight m + 1) va) = some a.tlbAddr := by
  rw [entry_top hva]
  exact tab_root

theorem addMapLevel0_succeeds (hg : Good m a) (hva : InReach m c.virt) :
    Succeeds (addMapLevel0 m c a) (Opened m 2 c.virt a) := by
  have htop := tab_first a hva
  unfold addMapLevel0
  rcases startLevel_cases m with ⟨hs, hh⟩ | ⟨hs, hh⟩
  · have hnone : findPte m a c.virt 0 = none := by
      rw [findPte, if_pos (by omega)]
    rw [hnone]
    rw [hh] at htop
    exact ⟨hg, ⟨_, htop⟩, fun _ _ => rfl⟩
  · rw [hh] at htop
    have hfind : findPte m a c.virt 0 = _ := findPte_eq (by omega) htop
    have hword := hg.words htop (longFormat.index_lt 3 c.virt)
    rw [hfind]
    rcases hword with hw | ⟨_, _, habs, _⟩ | ⟨s, hs, _, hw⟩
    · simp only
      rw [hw, if_pos (by decide)]
      refine (createTable_succeeds a).bind ?_
      rintro _ ⟨hr, rfl⟩
      exact opened_fault hg htop hw hr
    · omega
    · have htype : pteType (a.mem a.tlbAddr (longFormat.index 3 c.virt)) = pteTypeTable := by
        rw [hw]
        exact type_tableWord hs
      simp only
      rw [htype, if_neg (by decide)]
      exact opened_table hg htop hs hw

variable (m) in
/-- The addresses `lo .. hi - 1` are mapped with `attrs`, and the others as before. -/
structure MapsRange (attrs : BitVec 64) (lo hi : Nat) (a a' : Arch) : Prop where
  good : Good m a'
  attrs : ∀ va, InReach m va → a'.attrsAt m va =
    if lo ≤ va ∧ va < hi then some attrs else a.attrsAt m va

theorem mapsRange_empty (hg : Good m a) {lo hi : Nat} (hle : hi ≤ lo) : MapsRange m attrs lo hi a a :=
  ⟨hg, fun va _ => by rw [if_neg (by omega)]⟩

/-- The `while` loop maps what is left of the region. -/
theorem addMapLoop_succeeds (ha : IsAttrs (attrs ||| pteBlockAf)) {fuel : Nat} (hc : LeftOk m c)
    (hg : Good m a) (hfuel : c.size ≤ 4096 * fuel) :
    Succeeds (addMapLoop m (attrs ||| pteTypeBlock ||| pteBlockAf) fuel c a)
      (MapsRange m (attrs ||| pteBlockAf) c.virt (c.virt + c.size) a) := by
  induction fuel generalizing c a with
  | zero =>
    have h0 : c.size = 0 := by omega
    rw [addMapLoop, if_pos h0]
    exact mapsRange_empty hg (by omega)
  | succ fuel ih =>
    rw [addMapLoop]
    split
    · exact mapsRange_empty hg (by omega)
    · next h0 =>
      have hreach := hc.reach
      have hva : InReach m c.virt := by
        unfold InReach
        omega
      refine (addMapLevel0_succeeds hg hva).bind fun a1 ho => ?_
      obtain ⟨s, hs⟩ := ho.table
      refine (addMapLevels_succeeds ha hc (by omega) ho.good le_rfl hs).bind ?_
      rintro ⟨c', a2⟩ hadv
      have hadv := hadv.of_opened ho
      have hless := hadv.less
      have hends := hadv.ends
      have hv := hc.virt
      have hv' := hadv.left.virt
      refine (ih hadv.left hadv.good (by omega)).mono fun a' hm => ⟨hm.good, fun va hva => ?_⟩
      rw [hm.attrs va hva, hadv.attrs va hva, hends]
      split
      · rw [if_pos (by omega)]
      · split
        · rw [if_pos (by omega)]
        · rw [if_neg (by omega)]

end AddMap

/-! ## `setup_pgtables` -/

/-- A region of an identity map. -/
structure Flat (r : MmRegion) : Prop where
  flat : r.phys = r.virt
  virt : r.virt % 4096 = 0
  size : r.size % 4096 = 0
  ends : r.virt + r.size < 2 ^ 48
  attrs : IsAttrs r.attrs

/-- The last of the regions that the address lies in. -/
def lastRegion (rs : List MmRegion) (va : Nat) : Option MmRegion :=
  lastHolding MmRegion.virt MmRegion.size rs va

/-- The memory for the tables: not at address zero, aligned, unused and below `2 ^ 48`. -/
structure TableArea (a : Arch) : Prop where
  addr : a.tlbAddr ≠ 0
  aligned : a.tlbAddr % 4096 = 0
  unused : a.tlbFillptr = a.tlbAddr
  area : a.tlbAddr + a.tlbSize ≤ 2 ^ 48

section Setup

variable {m : List MmRegion} {a : Arch}

theorem foldl_max_le {rs : List MmRegion} {b bound : Nat} :
    rs.foldl (fun a r => max a (r.virt + r.size)) b ≤ bound ↔
      b ≤ bound ∧ ∀ r ∈ rs, r.virt + r.size ≤ bound := by
  induction rs generalizing b with
  | nil => simp
  | cons r rs ih =>
    rw [List.foldl_cons, ih, max_le_iff, List.forall_mem_cons, and_assoc]

theorem maxAddr_le {bound : Nat} :
    maxAddr m ≤ bound ↔ ∀ r ∈ regions m, r.virt + r.size ≤ bound := by
  rw [maxAddr, foldl_max_le]
  simp

theorem vaBits_eq (m : List MmRegion) (el : Nat) : (getTcr m el).vaBits = (addrBits (maxAddr m)).2 := rfl

theorem le_two_pow_addrBits {n : Nat} (hn : n ≤ 2 ^ 48) : n ≤ 2 ^ (addrBits n).2 := by
  unfold addrBits
  split_ifs <;> simp only <;> omega

theorem addrBits_le (n : Nat) : (addrBits n).2 ≤ 48 := by
  unfold addrBits
  split_ifs <;> decide

theorem two_pow_vaBits_le (m : List MmRegion) (el : Nat) :
    2 ^ (getTcr m el).vaBits ≤ longFormat.size (topHeight m + 1) := by
  rw [size_eq, vaBits_eq]
  refine Nat.pow_le_pow_right (by decide) ?_
  have hle := addrBits_le (maxAddr m)
  unfold topHeight startLevel
  rw [vaBits_eq]
  split <;> omega

theorem mem_newTable (ha : TableArea a) : a.newTable.2.mem a.tlbAddr = fun _ => 0#64 := by
  show fillTable a.mem a.tlbFillptr _ a.tlbAddr = _
  rw [ha.unused, fillTable_self]

theorem tab_newTable (ha : TableArea a) {h k t : Nat} (ht : a.newTable.2.tab m h k = some t) :
    h = topHeight m ∧ k = 0 ∧ t = a.tlbAddr := by
  have hh : h ≤ topHeight m := tab_le ht
  induction hh using Nat.decreasingInduction generalizing k t with
  | self =>
    have ht' : longFormat.tab (topHeight m) a.tlbAddr a.newTable.2.mem (topHeight m) k = some t := ht
    rw [tab_top] at ht'
    split at ht'
    · next hk => cases ht'; exact ⟨rfl, hk, rfl⟩
    · cases ht'
  | of_succ h hh ih =>
    obtain ⟨u, hu, hk⟩ := (tab_parent hh).mp ht
    obtain ⟨_, _, rfl⟩ := ih hu
    rw [mem_newTable ha, kind_zero] at hk
    cases hk

theorem good_newTable (ha : TableArea a) :
    Good m a.newTable.2 ∧ ∀ va, InReach m va → a.newTable.2.attrsAt m va = none := by
  have hzero := mem_newTable ha
  have haligned := ha.aligned
  have hunused := ha.unused
  refine ⟨⟨?_, ?_, ?_, ha.area, ?_⟩, fun va hva => ?_⟩
  · intro h k h' k' t ht ht'
    obtain ⟨h1, h2, _⟩ := tab_newTable ha ht
    obtain ⟨h1', h2', _⟩ := tab_newTable ha ht'
    omega
  · intro h k t ht
    obtain ⟨_, _, rfl⟩ := tab_newTable ha ht
    show a.tlbAddr < a.tlbFillptr + 512 * 8
    omega
  · show (a.tlbFillptr + 512 * 8) % 4096 = 0
    omega
  · intro h k t i ht _
    obtain ⟨_, _, rfl⟩ := tab_newTable ha ht
    rw [hzero]
    exact Or.inl rfl
  · have hidx := longFormat.index_lt (topHeight m) va
    exact attrsAt_of_fault (tab_first a.newTable.2 hva) hidx (congrFun hzero _) (longFormat.entry_eq _ _)

theorem isAttrs_or_af {attrs : BitVec 64} (ha : IsAttrs attrs) : IsAttrs (attrs ||| pteBlockAf) := by
  have haf : pteBlockAf &&& attrMask = pteBlockAf := by decide
  unfold IsAttrs
  rw [BitVec.and_or_distrib_right, ha, haf]

/-- The loop of `setup_pgtables` maps its regions one over the other. -/
theorem addMaps_succeeds {fuel : Nat} {rs : List MmRegion} (hg : Good m a)
    (hflat : ∀ r ∈ rs, Flat r) (hfuel : ∀ r ∈ rs, r.size ≤ 4096 * fuel)
    (hreach : ∀ r ∈ rs, r.virt + r.size ≤ longFormat.size (topHeight m + 1)) :
    Succeeds (addMaps m fuel rs a) fun a' => Good m a' ∧ ∀ va, InReach m va →
      a'.attrsAt m va = ((lastRegion rs va).map fun r => r.attrs ||| pteBlockAf).or (a.attrsAt m va) := by
  induction rs generalizing a with
  | nil => exact ⟨hg, fun va _ => rfl⟩
  | cons r rs ih =>
    rw [List.forall_mem_cons] at hflat hfuel hreach
    have hr := hflat.1
    have hc : LeftOk m ⟨r.virt, r.phys, r.size⟩ := ⟨hr.flat, hr.virt, hr.size, hreach.1⟩
    refine (addMapLoop_succeeds (isAttrs_or_af hr.attrs) hc hg hfuel.1).bind fun a1 h1 => ?_
    refine (ih h1.good hflat.2 hfuel.2 hreach.2).mono fun a' h' => ⟨h'.1, fun va hva => ?_⟩
    rw [h'.2 va hva, h1.attrs va hva, lastRegion, lastRegion, lastHolding_cons]
    cases lastHolding MmRegion.virt MmRegion.size rs va with
    | some x => rfl
    | none =>
      show (if Holds MmRegion.virt MmRegion.size r va then _ else _) = _
      by_cases hv : Holds MmRegion.virt MmRegion.size r va
      · rw [if_pos hv, if_pos hv]
        rfl
      · rw [if_neg hv, if_neg hv]
        rfl

theorem regions_reach (hflat : ∀ r ∈ regions m, Flat r) {r : MmRegion} (hr : r ∈ regions m) :
    r.virt + r.size ≤ longFormat.size (topHeight m + 1) := by
  have hmax : maxAddr m ≤ 2 ^ 48 := maxAddr_le.mpr fun r hr => (hflat r hr).ends.le
  calc r.virt + r.size ≤ maxAddr m := maxAddr_le.mp le_rfl r hr
    _ ≤ 2 ^ (addrBits (maxAddr m)).2 := le_two_pow_addrBits hmax
    _ ≤ longFormat.size (topHeight m + 1) := two_pow_vaBits_le m 0

theorem setupPgtables_succeeds {fuel : Nat} (hflat : ∀ r ∈ regions m, Flat r)
    (hfuel : ∀ r ∈ regions m, r.size ≤ 4096 * fuel) (ha : TableArea a) :
    Succeeds (setupPgtables m fuel a) fun a' => Good m a' ∧ ∀ va, InReach m va →
      a'.attrsAt m va = (lastRegion (regions m) va).map fun r => r.attrs ||| pteBlockAf := by
  obtain ⟨hgood, hnone⟩ := good_newTable ha
  unfold setupPgtables
  rw [if_neg (by rw [ha.unused]; simp [ha.addr])]
  refine (createTable_succeeds a).bind ?_
  rintro _ ⟨_, rfl⟩
  refine (addMaps_succeeds hgood hflat hfuel fun r hr => regions_reach hflat hr).mono
    fun a' h' => ⟨h'.1, fun va hva => ?_⟩
  rw [h'.2 va hva, hnone va hva, Option.or_none]

variable (m) in
/-- The entry that the walk of `va` ends at, with its height. -/
def Arch.stop (a : Arch) (va : Nat) : Nat × BitVec 64 :=
  longFormat.stop a.mem (topHeight m) a.tlbAddr va

theorem Good.stop_means (hg : Good m a) {va : Nat} (hva : InReach m va) {o : Option MmRegion}
    (ho : a.attrsAt m va = o.map fun r => r.attrs ||| pteBlockAf) :
    (pteType (a.stop m va).2 = pteTypeFault ↔ o = none) ∧
      ∀ r, o = some r → longFormat.kind (a.stop m va).1 (a.stop m va).2 = .leaf ∧
        outAddr (a.stop m va).1 (a.stop m va).2 va = va ∧
        descAttrs (a.stop m va).2 = r.attrs ||| pteBlockAf := by
  have hstop := hg.stop_cases (tab_first a hva)
  change (a.stop m va).2 = 0#64 ∧ a.walk m va = none ∨
    longFormat.kind (a.stop m va).1 (a.stop m va).2 = .leaf ∧ a.walk m va = some (a.stop m va) ∧
      outAddr (a.stop m va).1 (a.stop m va).2 va = va at hstop
  unfold Arch.attrsAt at ho
  rcases hstop with ⟨hz, hw⟩ | ⟨hk, hw, hout⟩
  · rw [hw, Option.map_none, eq_comm, Option.map_eq_none_iff] at ho
    subst ho
    rw [hz]
    exact ⟨⟨fun _ => rfl, fun _ => by decide⟩, fun r hr => absurd hr (by simp)⟩
  · rw [hw, Option.map_some, eq_comm, Option.map_eq_some_iff] at ho
    obtain ⟨r, rfl, hr⟩ := ho
    refine ⟨⟨fun hf => ?_, fun hc => absurd hc (by simp)⟩, ?_⟩
    · rw [kind_of_fault hf] at hk
      cases hk
    · rintro _ ⟨rfl⟩
      exact ⟨hk, hout, hr.symm⟩

/-- The walk of an address ends at a fault entry if no region holds the address, and otherwise at a block or
page that maps the address to itself with the attributes of the last region that holds it. -/
theorem setup_pgtables_means_mem_map (m : List MmRegion) (a : Arch) (fuel el : Nat)
    (hflat : ∀ r ∈ regions m, Flat r) (hfuel : ∀ r ∈ regions m, r.size ≤ 4096 * fuel)
    (ha : TableArea a)
    (hroom : ∀ used size, setupPgtables m fuel a ≠ .error (.insufficientRam used size)) :
    ∃ a', setupPgtables m fuel a = .ok a' ∧ ∀ va < 2 ^ (getTcr m el).vaBits,
      (pteType (a'.stop m va).2 = pteTypeFault ↔ lastRegion (regions m) va = none) ∧
      ∀ r, lastRegion (regions m) va = some r →
        longFormat.kind (a'.stop m va).1 (a'.stop m va).2 = .leaf ∧
        outAddr (a'.stop m va).1 (a'.stop m va).2 va = va ∧
        descAttrs (a'.stop m va).2 = r.attrs ||| pteBlockAf := by
  have hrun := setupPgtables_succeeds hflat hfuel ha
  cases hres : setupPgtables m fuel a with
  | error e =>
    rw [hres] at hrun
    obtain ⟨used, size, rfl⟩ := hrun
    exact absurd hres (hroom used size)
  | ok a' =>
    rw [hres] at hrun
    obtain ⟨hgood', hattrs⟩ := hrun
    refine ⟨a', rfl, fun va hva => ?_⟩
    have hin : InReach m va := hva.trans_le (two_pow_vaBits_le m el)
    exact hgood'.stop_means hin (hattrs va hin)

end Setup

def overlapMap : List MmRegion :=
  [{ virt := 0x200000, phys := 0x200000, size := 0x400000
     attrs := pteBlockMemtype mtNormal ||| pteBlockInnerShare },
   { virt := 0x301000, phys := 0x301000, size := 0x1000, attrs := pteBlockMemtype mtDeviceNgnrne },
   { virt := 0, phys := 0, size := 0, attrs := 0#64 }]

def freshArea : Arch :=
  { tlbAddr := 0x10000, tlbSize := 0x4000, tlbFillptr := 0x10000, mem := fun _ _ => 0#64 }

theorem overlapMap_flat : ∀ r ∈ regions overlapMap, Flat r := by
  have hall : ∀ r ∈ regions overlapMap, r.phys = r.virt ∧ r.virt % 4096 = 0 ∧ r.size % 4096 = 0 ∧
      r.virt + r.size < 2 ^ 48 ∧ IsAttrs r.attrs := by decide +kernel
  intro r hr
  obtain ⟨h1, h2, h3, h4, h5⟩ := hall r hr
  exact ⟨h1, h2, h3, h4, h5⟩

theorem setup_pgtables_means_overlap_map :
    ∃ a', setupPgtables overlapMap 1024 freshArea = .ok a' ∧ ∀ va < 2 ^ 32,
      (pteType (a'.stop overlapMap va).2 = pteTypeFault ↔
        lastRegion (regions overlapMap) va = none) ∧
      ∀ r, lastRegion (regions overlapMap) va = some r →
        longFormat.kind (a'.stop overlapMap va).1 (a'.stop overlapMap va).2 = .leaf ∧
        outAddr (a'.stop overlapMap va).1 (a'.stop overlapMap va).2 va = va ∧
        descAttrs (a'.stop overlapMap va).2 = r.attrs ||| pteBlockAf := by
  have hok : (setupPgtables overlapMap 1024 freshArea).toOption.isSome = true := by decide +kernel
  refine setup_pgtables_means_mem_map overlapMap freshArea 1024 1 overlapMap_flat (by decide +kernel)
    ⟨by decide, by decide, rfl, by decide⟩ ?_
  intro used size herr
  rw [herr] at hok
  cases hok

end Armada3720.UBootMmu
