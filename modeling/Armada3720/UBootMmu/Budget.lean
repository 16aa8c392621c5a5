import Armada3720.UBootMmu.Meaning

/-!
# The room for the page tables of U-Boot

`count_required_pts` counts a table for every range that some region reaches into without filling it; `add_map`
makes its tables region by region. For regions that are pairwise apart the count is at least that of the
`Needed` tables (`Bounds`), and `add_map` makes needed tables only and no table twice (`Built`).

`page_table_size_suffices` is for regions on page bounds within 48 bits, in any order. Regions that overlap may need
more tables than are counted, and are left out.
-/

namespace Armada3720.UBootMmu

open Lib Lib.PageFormat Finset

/-! ## `count_required_pts` -/

inductive PteType
  | inval
  | block
  | level
  deriving DecidableEq, Repr

/-- The range begins at `addr`, and one entry of `level` covers it; `n` is `3 - level`. -/
def rangeType (n addr : Nat) : List MmRegion → PteType → PteType
  | [], pteType => pteType
  | map :: rs, pteType =>
    let levelsize := longFormat.size n
    let levelend := addr + levelsize
    let start := max addr map.virt
    let «end» := min levelend (map.virt + map.size)
    if start ≤ «end» then
      if start % levelsize ≠ 0 ∨ «end» % levelsize ≠ 0 then .level
      else if 3 ≤ n then .level
      else rangeType n addr rs .block
    else
      rangeType n addr rs pteType

/-- The loop over the entries of a table: `count` for each, up to `maxaddr`. -/
def sumEntries (count : Nat → Option Nat) (sublevelsize maxaddr : Nat) : Nat → Nat → Option Nat
  | 0, _ => some 0
  | i + 1, addr => do
    let r ← count addr
    if addr + sublevelsize ≥ maxaddr then some r
    else do
      let rest ← sumEntries count sublevelsize maxaddr i (addr + sublevelsize)
      some (r + rest)

/-- At level `3 - n`. `none` is a call for a level below 3. The sums are far below `2 ^ 31`. -/
def countRequiredPts (memMap : List MmRegion) (maxaddr : Nat) : Nat → Nat → Option Nat
  | 0, addr => if rangeType 0 addr (regions memMap) .inval = .level then none else some 0
  | n + 1, addr =>
    if rangeType (n + 1) addr (regions memMap) .inval = .level then do
      let r ← sumEntries (countRequiredPts memMap maxaddr n) (longFormat.size n) maxaddr 512 addr
      some (1 + r)
    else
      some 0

/-- `count_required_pts` from the level above the start level. -/
def requiredPts (memMap : List MmRegion) : Option Nat :=
  countRequiredPts memMap (2 ^ (getTcr memMap 0).vaBits) (4 - startLevel memMap) 0

def getPageTableSize (memMap : List MmRegion) : Option Nat := do
  let onePt := 512 * 8
  let r ← requiredPts memMap
  some (onePt * r * 2 + onePt * 4)

/-! ## `setup_all_pgtables` -/

/-- `setup_all_pgtables`: the state, and the value of `tlb_emerg`. -/
def setupAllPgtables (memMap : List MmRegion) (fuel : Nat) (a : Arch) : Except Stop (Arch × Nat) := do
  let tlbAddr := a.tlbAddr
  let tlbSize := a.tlbSize
  let a ← setupPgtables memMap fuel { a with tlbFillptr := tlbAddr }
  let a := { a with tlbSize := a.tlbSize - (a.tlbFillptr - a.tlbAddr) }
  let a ← setupPgtables memMap fuel { a with tlbAddr := a.tlbFillptr }
  .ok ({ a with tlbAddr := tlbAddr, tlbSize := tlbSize }, a.tlbAddr)

/-! ## The tables that a map needs -/

/-- The region reaches into the window of the table and, unless that is too large for a block, does not fill it.
-/
structure Needs (r : MmRegion) (h k : Nat) : Prop where
  size : 0 < r.size
  starts : r.virt < (k + 1) * longFormat.size (h + 1)
  ends : k * longFormat.size (h + 1) < r.virt + r.size
  part : h ≤ 1 → ¬ (r.virt ≤ k * longFormat.size (h + 1) ∧
    (k + 1) * longFormat.size (h + 1) ≤ r.virt + r.size)

/-- Some region needs the table. -/
def Needed (m : List MmRegion) (h k : Nat) : Prop := ∃ r ∈ regions m, Needs r h k

/-- A region on page boundaries that ends within 48 bits. -/
structure OnPages (r : MmRegion) : Prop where
  virt : r.virt % 4096 = 0
  size : r.size % 4096 = 0
  ends : r.virt + r.size ≤ 2 ^ 48

section Count

variable {m : List MmRegion} {n w h k maxaddr : Nat}

theorem mod_ne_zero_of_inside {s x w : Nat} (h1 : w * s < x) (h2 : x < (w + 1) * s) : x % s ≠ 0 := by
  intro h0
  obtain ⟨q, rfl⟩ := Nat.dvd_of_mod_eq_zero h0
  rw [Nat.mul_comm s q] at h1 h2
  have := Nat.lt_of_mul_lt_mul_right h1
  have := Nat.lt_of_mul_lt_mul_right h2
  omega

/-- A window that holds a needed table is one for which `count_required_pts` counts a table. -/
theorem rangeType_of_needs {r : MmRegion} (hr : Needs r h k)
    (hb : longFormat.Below (n + 1) w h k) {rs : List MmRegion} (hmem : r ∈ rs) (acc : PteType) :
    rangeType (n + 1) (w * longFormat.size (n + 1)) rs acc = .level := by
  obtain ⟨hlo, hhi⟩ := below_window hb
  have hstarts := hr.starts
  have hends := hr.ends
  have hlevelend : w * longFormat.size (n + 1) + longFormat.size (n + 1) =
      (w + 1) * longFormat.size (n + 1) := (Nat.succ_mul _ _).symm
  induction rs generalizing acc with
  | nil => cases hmem
  | cons map rs ih =>
    rw [rangeType]
    rcases List.mem_cons.mp hmem with rfl | hmem'
    · -- the region itself
      rw [if_pos (by omega)]
      by_cases hn : 3 ≤ n + 1
      · split <;> rfl
      · refine if_pos ?_
        have hcut := hr.part (by have := hb.1; omega)
        rcases Nat.lt_or_ge (k * longFormat.size (h + 1)) r.virt with hc | hc
        · left
          exact mod_ne_zero_of_inside (w := w) (by omega) (by omega)
        · right
          have hend : r.virt + r.size < (k + 1) * longFormat.size (h + 1) :=
            not_le.mp fun hle => hcut ⟨hc, hle⟩
          exact mod_ne_zero_of_inside (w := w) (by omega) (by omega)
    · -- a region before it
      split
      · split
        · rfl
        · split
          · rfl
          · exact ih hmem' _
      · exact ih hmem' _

theorem rangeType_page {rs : List MmRegion} (hpages : ∀ r ∈ rs, OnPages r) {acc : PteType}
    (hacc : acc ≠ .level) : rangeType 0 (w * longFormat.size 0) rs acc ≠ .level := by
  induction rs generalizing acc with
  | nil => exact hacc
  | cons map rs ih =>
    rw [List.forall_mem_cons] at hpages
    have h1 := hpages.1.virt
    have h2 := hpages.1.size
    rw [rangeType]
    simp only [size_4k]
    split
    · rw [if_neg (by omega), if_neg (by omega)]
      have := ih hpages.2 (show PteType.block ≠ .level by decide)
      rwa [size_4k] at this
    · have := ih hpages.2 hacc
      rwa [size_4k] at this

variable (m) in
/-- `c` is at least the number of tables needed below the windows that `P` holds of. -/
def Bounds (n : Nat) (P : Nat → Prop) (c : Nat) : Prop :=
  ∀ S : Finset (Nat × Nat), (∀ x ∈ S, Needed m x.1 x.2 ∧ ∃ w, P w ∧ longFormat.Below n w x.1 x.2) →
    S.card ≤ c

theorem Needed.window_lt (hmax : ∀ r ∈ regions m, r.virt + r.size ≤ maxaddr) (hneed : Needed m h k)
    (hb : longFormat.Below n w h k) : w * longFormat.size n < maxaddr := by
  obtain ⟨r, hr, hneeds⟩ := hneed
  have := hmax r hr
  have := hneeds.ends
  have := (below_window hb).1
  omega

theorem sumEntries_bounds {count : Nat → Option Nat} (hmax : ∀ r ∈ regions m, r.virt + r.size ≤ maxaddr)
    (hcount : ∀ w, ∃ c, count (w * longFormat.size n) = some c ∧ Bounds m n (· = w) c) (i w : Nat) :
    ∃ c, sumEntries count (longFormat.size n) maxaddr i (w * longFormat.size n) = some c ∧
      Bounds m n (fun w' => w ≤ w' ∧ w' < w + i) c := by
  induction i generalizing w with
  | zero =>
    refine ⟨0, rfl, fun S hS => ?_⟩
    have hempty : S = ∅ := by
      refine eq_empty_of_forall_notMem fun x hx => ?_
      obtain ⟨-, w', hw', -⟩ := hS x hx
      omega
    rw [hempty, card_empty]
  | succ i ih =>
    obtain ⟨c, hc, hbound⟩ := hcount w
    have hnext : w * longFormat.size n + longFormat.size n = (w + 1) * longFormat.size n :=
      (Nat.succ_mul _ _).symm
    rw [sumEntries, hc, hnext]
    simp only [Option.bind_eq_bind, Option.bind_some]
    split
    · next hend =>
      -- the loop stops: nothing is needed from here on
      refine ⟨c, rfl, fun S hS => hbound S fun x hx => ?_⟩
      obtain ⟨hneed, w', hw', hb⟩ := hS x hx
      refine ⟨hneed, w', ?_, hb⟩
      have hlt := hneed.window_lt hmax hb
      by_contra hne
      have hle : (w + 1) * longFormat.size n ≤ w' * longFormat.size n :=
        Nat.mul_le_mul_right _ (by omega)
      omega
    · obtain ⟨c', hc', hbound'⟩ := ih (w + 1)
      rw [hc', Option.bind_some]
      refine ⟨c + c', rfl, fun S hS => ?_⟩
      classical
      have hsplit := card_filter_add_card_filter_not (s := S) (fun x : Nat × Nat => longFormat.Below n w x.1 x.2)
      have h1 := hbound (S.filter fun x => longFormat.Below n w x.1 x.2) fun x hx =>
        ⟨(hS x (mem_filter.mp hx).1).1, w, rfl, (mem_filter.mp hx).2⟩
      have h2 := hbound' (S.filter fun x => ¬ longFormat.Below n w x.1 x.2) fun x hx => by
        obtain ⟨hxS, hx⟩ := mem_filter.mp hx
        obtain ⟨hneed, w', hw', hb⟩ := hS x hxS
        refine ⟨hneed, w', ⟨?_, by omega⟩, hb⟩
        have hne : w' ≠ w := fun h => hx (h ▸ hb)
        omega
      omega

/-- `count_required_pts` returns at least the number of tables needed in its range. -/
theorem countRequiredPts_bounds (hpages : ∀ r ∈ regions m, OnPages r)
    (hmax : ∀ r ∈ regions m, r.virt + r.size ≤ maxaddr) (n w : Nat) :
    ∃ c, countRequiredPts m maxaddr n (w * longFormat.size n) = some c ∧ Bounds m n (· = w) c := by
  induction n generalizing w with
  | zero =>
    refine ⟨0, if_neg (rangeType_page hpages (by decide)), fun S hS => ?_⟩
    have hempty : S = ∅ := by
      refine eq_empty_of_forall_notMem fun x hx => ?_
      obtain ⟨-, w', -, hb⟩ := hS x hx
      exact absurd hb.1 (Nat.not_lt_zero _)
    rw [hempty, card_empty]
  | succ n ih =>
    rw [countRequiredPts]
    split
    · have hsub : w * longFormat.size (n + 1) = w * 512 * longFormat.size n := by
        rw [longFormat.size_succ, Nat.mul_assoc, Nat.mul_comm (longFormat.size n)]
        rfl
      obtain ⟨c, hc, hbound⟩ := sumEntries_bounds hmax ih 512 (w * 512)
      rw [hsub, hc]
      refine ⟨1 + c, rfl, fun S hS => ?_⟩
      have herase := hbound (S.erase (n, w)) fun x hx => by
        obtain ⟨hne, hxS⟩ := mem_erase.mp hx
        obtain ⟨hneed, w', hw', hb⟩ := hS x hxS
        rw [show w' = w from hw'] at hb
        -- not the table of the window itself, so it is below one of its entries
        have hlt : x.1 < n := by
          rcases Nat.lt_or_eq_of_le (Nat.le_of_lt_succ hb.1) with hlt | rfl
          · exact hlt
          · have hx2 : x.2 = w := below_direct.mp hb
            exact absurd (by rw [← hx2]) hne
        refine ⟨hneed, x.2 / 512 ^ (n - x.1 - 1), ?_, hlt, rfl⟩
        have hdiv : x.2 / 512 ^ (n - x.1 - 1) / 512 = w := by
          have hb' : x.2 / 512 ^ (n + 1 - x.1 - 1) = w := hb.2
          have hexp : n + 1 - x.1 - 1 = n - x.1 - 1 + 1 := by omega
          rwa [hexp, pow_succ, ← Nat.div_div_eq_div_mul] at hb'
        omega
      have hcard := S.pred_card_le_card_erase (a := (n, w))
      omega
    · next hlevel =>
      refine ⟨0, rfl, fun S hS => ?_⟩
      have hempty : S = ∅ := by
        refine eq_empty_of_forall_notMem fun x hx => hlevel ?_
        obtain ⟨⟨r, hr, hneeds⟩, _, rfl, hb⟩ := hS x hx
        exact rangeType_of_needs hneeds hb hr _
      rw [hempty, card_empty]

end Count

/-! ## The tables that are built -/

theorem two_le_topHeight (m : List MmRegion) : 2 ≤ topHeight m := by
  rcases startLevel_cases m with ⟨-, h⟩ | ⟨-, h⟩ <;> omega

theorem root_needed {m : List MmRegion}
    (hreach : ∀ r ∈ regions m, r.virt + r.size ≤ longFormat.size (topHeight m + 1)) {h k : Nat}
    (hneed : Needed m h k) : Needed m (topHeight m) 0 := by
  obtain ⟨r, hr, hneeds⟩ := hneed
  have hle := hreach r hr
  have hsize := hneeds.size
  have htop := two_le_topHeight m
  refine ⟨r, hr, hsize, ?_, ?_, fun h1 => by omega⟩
  · omega
  · omega

section Build

variable {m : List MmRegion} {c : Nat} {b : Nat × Nat} {cov : Nat → Prop} {S : Finset (Nat × Nat)}
  {a : Arch} {h k t i : Nat}

variable (m c) in
/-- The tables made so far have the numbers `S`, all needed but the first, and every word is zero, leads to one
of them, or covers addresses that are mapped already. The area is the one of address and size `b`. -/
structure Built (b : Nat × Nat) (cov : Nat → Prop) (S : Finset (Nat × Nat)) (a : Arch) : Prop where
  root : (topHeight m, 0) ∈ S
  tables : ∀ {h k}, (h, k) ∈ S → ∃ t, a.tab m h k = some t ∧ t < a.tlbFillptr
  parent : ∀ {h k}, (h, k) ∈ S → h < topHeight m → (h + 1, k / longFormat.fan) ∈ S
  below : ∀ {h k}, (h, k) ∈ S → longFormat.Below (topHeight m + 1) 0 h k
  inj : ∀ {h k h' k' t}, (h, k) ∈ S → (h', k') ∈ S → a.tab m h k = some t →
    a.tab m h' k' = some t → h = h' ∧ k = k'
  words : ∀ {h k t i}, (h, k) ∈ S → a.tab m h k = some t → i < longFormat.fan →
    a.mem t i = 0#64 ∨ (∃ g, h = g + 1 ∧ (g, k * longFormat.fan + i) ∈ S) ∨
      (h ≤ 2 ∧ ∀ va, longFormat.entry h va = k * longFormat.fan + i → cov va)
  needed : ∀ {h k}, (h, k) ∈ S → (h, k) = (topHeight m, 0) ∨ Needed m h k
  fill : a.tlbFillptr = a.tlbAddr + 4096 * S.card
  aligned : a.tlbAddr % 4096 = 0
  area : a.tlbAddr + a.tlbSize ≤ 2 ^ 48
  room : 4096 * max c 1 ≤ a.tlbSize
  place : (a.tlbAddr, a.tlbSize) = b

section

variable (hb : Built m c b cov S a)
include hb

theorem Built.link {g e : Nat} (hg : (g, e) ∈ S) (hlt : g < topHeight m)
    (ht : a.tab m (g + 1) (e / longFormat.fan) = some t) :
    ∃ s, longFormat.kind (g + 1) (a.mem t (e % longFormat.fan)) = .table s := by
  obtain ⟨s, hs, -⟩ := hb.tables hg
  obtain ⟨t', ht', hk⟩ := (tab_parent hlt).mp hs
  have htt : some t' = some t := ht'.symm.trans ht
  cases htt
  exact ⟨s, hk⟩

theorem Built.link_of_entry (ht : a.tab m (h + 1) k = some t) (hi : i < longFormat.fan)
    (hg : (h, k * longFormat.fan + i) ∈ S) :
    ∃ s, longFormat.kind (h + 1) (a.mem t i) = .table s := by
  have hlt : h < topHeight m := tab_le ht
  have ht' : a.tab m (h + 1) ((k * longFormat.fan + i) / longFormat.fan) = some t := by
    rwa [longFormat.number_div hi]
  have := hb.link hg hlt ht'
  rwa [longFormat.number_mod hi] at this

/-- The tables stay where they are when none of the words that lead to them is written. -/
theorem Built.tab_eq {a' : Arch} (haddr : a'.tlbAddr = a.tlbAddr) (hkeep : ∀ g e t, (g, e) ∈ S → g < topHeight m →
      a.tab m (g + 1) (e / longFormat.fan) = some t →
      a'.mem t (e % longFormat.fan) = a.mem t (e % longFormat.fan)) (hk : (h, k) ∈ S) :
    a'.tab m h k = a.tab m h k := by
  obtain ⟨t, ht, -⟩ := hb.tables hk
  have hle : h ≤ topHeight m := tab_le ht
  clear ht
  induction hle using Nat.decreasingInduction generalizing k with
  | self =>
    show longFormat.tab _ a'.tlbAddr _ _ _ = longFormat.tab _ a.tlbAddr _ _ _
    rw [tab_top, tab_top, haddr]
  | of_succ h hlt ih =>
    have hup := hb.parent hk hlt
    obtain ⟨u, hu, -⟩ := hb.tables hup
    have hu' : a'.tab m (h + 1) (k / longFormat.fan) = some u := (ih hup).trans hu
    unfold Arch.tab at hu hu' ⊢
    rw [tab_step hlt, tab_step hlt, hu, hu', Option.bind_some, Option.bind_some, hkeep h k u hk hlt hu]

/-- A needed table is another one than those made so far, so there is room for it. -/
theorem Built.hasRoom (hbound : Bounds m (topHeight m + 1) (· = 0) c)
    (hreach : ∀ r ∈ regions m, r.virt + r.size ≤ longFormat.size (topHeight m + 1)) {g e : Nat}
    (hneed : Needed m g e) (hbelow : longFormat.Below (topHeight m + 1) 0 g e) (hnew : (g, e) ∉ S) :
    a.HasRoom := by
  have hall : ∀ x ∈ insert (g, e) S, Needed m x.1 x.2 ∧
      ∃ w, w = 0 ∧ longFormat.Below (topHeight m + 1) w x.1 x.2 := by
    rintro ⟨h, k⟩ hx
    rcases mem_insert.mp hx with hx | hx
    · cases hx
      exact ⟨hneed, 0, rfl, hbelow⟩
    · refine ⟨?_, 0, rfl, hb.below hx⟩
      rcases hb.needed hx with hroot | hneed'
      · cases hroot
        exact root_needed hreach hneed
      · exact hneed'
  have hcard := hbound _ hall
  rw [card_insert_of_notMem hnew] at hcard
  have hfill := hb.fill
  have hroom := hb.room
  unfold Arch.HasRoom
  omega

theorem Built.not_link (hzero : a.mem t i = 0#64) {g e u : Nat} (hg : (g, e) ∈ S)
    (hlt : g < topHeight m) (hu : a.tab m (g + 1) (e / longFormat.fan) = some u) :
    u ≠ t ∨ e % longFormat.fan ≠ i := by
  by_contra hc
  push Not at hc
  obtain ⟨rfl, hidx⟩ := hc
  obtain ⟨s, hs⟩ := hb.link hg hlt hu
  rw [hidx, hzero, kind_zero] at hs
  cases hs

/-- A needed table is hung in at an empty entry. -/
theorem Built.hang (hbound : Bounds m (topHeight m + 1) (· = 0) c)
    (hreach : ∀ r ∈ regions m, r.virt + r.size ≤ longFormat.size (topHeight m + 1))
    (hk : (h + 1, k) ∈ S) (ht : a.tab m (h + 1) k = some t) (hi : i < longFormat.fan)
    (hzero : a.mem t i = 0#64) (hneed : Needed m h (k * longFormat.fan + i)) :
    a.HasRoom ∧ Built m c b cov (insert (h, k * longFormat.fan + i) S) (a.hang (t, i) fun _ => 0#64) := by
  have hlt : h < topHeight m := tab_le ht
  have hnew : (h, k * longFormat.fan + i) ∉ S := by
    intro hmem
    obtain ⟨s, hs⟩ := hb.link_of_entry ht hi hmem
    rw [hzero, kind_zero] at hs
    cases hs
  have hbelow : longFormat.Below (topHeight m + 1) 0 h (k * longFormat.fan + i) := by
    rw [below_step (Nat.succ_lt_succ hlt), longFormat.number_div hi]
    exact hb.below hk
  have hroom := hb.hasRoom hbound hreach hneed hbelow hnew
  have hfits : Fits a.tlbFillptr := by
    have hfill := hb.fill
    have haligned := hb.aligned
    have harea := hb.area
    unfold Arch.HasRoom at hroom
    exact ⟨by omega, by omega⟩
  obtain ⟨t', ht', htlt⟩ := hb.tables hk
  have hteq : some t' = some t := ht'.symm.trans ht
  cases hteq
  -- what the new memory says at the old tables
  have hread : ∀ {g e u j}, (g, e) ∈ S → a.tab m g e = some u → u ≠ t ∨ j ≠ i →
      (a.hang (t, i) fun _ => 0#64).mem u j = a.mem u j := by
    intro g e u j hg hu hne
    obtain ⟨u', hu', hult⟩ := hb.tables hg
    have hueq : some u' = some u := hu'.symm.trans hu
    cases hueq
    show graft a.mem t i a.tlbFillptr _ _ u j = _
    rw [graft, setEntry_other hne, fillTable_other hult.ne]
  have htab : ∀ {g e}, (g, e) ∈ S → (a.hang (t, i) fun _ => 0#64).tab m g e = a.tab m g e := by
    intro g e hg
    refine hb.tab_eq rfl (fun g e u hg hlt hu => ?_) hg
    exact hread (hb.parent hg hlt) hu (hb.not_link hzero hg hlt hu)
  have hself : (a.hang (t, i) fun _ => 0#64).mem t i =
      (pteTypeTable ||| BitVec.ofNat 64 a.tlbFillptr) := setEntry_self ..
  have htabNew : (a.hang (t, i) fun _ => 0#64).tab m h (k * longFormat.fan + i) =
      some a.tlbFillptr :=
    tab_child ((htab hk).trans ht) hi (by rw [hself]; exact kind_tableWord hfits)
  have hempty : (a.hang (t, i) fun _ => 0#64).mem a.tlbFillptr = fun _ => 0#64 := by
    funext j
    show graft a.mem t i a.tlbFillptr _ _ a.tlbFillptr j = _
    rw [graft, setEntry_other (Or.inl htlt.ne'), fillTable_self]
  refine ⟨hroom, ?_⟩
  refine ⟨mem_insert_of_mem hb.root, fun {g e} hg => ?_, fun {g e} hg hglt => ?_,
    fun {g e} hg => ?_, fun {g e g' e' u} hg hg' hu hu' => ?_, fun {g e u j} hg hu hj => ?_,
    fun {g e} hg => ?_, ?_, hb.aligned, hb.area, hb.room, hb.place⟩
  · rcases mem_insert.mp hg with hg | hg
    · cases hg
      exact ⟨_, htabNew, Nat.lt_add_of_pos_right (by decide)⟩
    · obtain ⟨u, hu, hult⟩ := hb.tables hg
      exact ⟨u, (htab hg).trans hu, hult.trans (Nat.lt_add_of_pos_right (by decide))⟩
  · rcases mem_insert.mp hg with hg | hg
    · cases hg
      rw [longFormat.number_div hi]
      exact mem_insert_of_mem hk
    · exact mem_insert_of_mem (hb.parent hg hglt)
  · rcases mem_insert.mp hg with hg | hg
    · cases hg
      exact hbelow
    · exact hb.below hg
  · -- the new table is not where an old one is
    have hold : ∀ {g e}, (g, e) ∈ S → a.tab m g e ≠ some a.tlbFillptr := by
      intro g e hg hfill
      obtain ⟨u, hu, hult⟩ := hb.tables hg
      rw [hu] at hfill
      cases hfill
      exact lt_irrefl _ hult
    rcases mem_insert.mp hg with hg | hg <;> rcases mem_insert.mp hg' with hg' | hg'
    · cases hg
      cases hg'
      exact ⟨rfl, rfl⟩
    · cases hg
      rw [htabNew] at hu
      cases hu
      exact absurd ((htab hg').symm.trans hu') (hold hg')
    · cases hg'
      rw [htabNew] at hu'
      cases hu'
      exact absurd ((htab hg).symm.trans hu) (hold hg)
    · exact hb.inj hg hg' ((htab hg).symm.trans hu) ((htab hg').symm.trans hu')
  · rcases mem_insert.mp hg with hg | hg
    · cases hg
      rw [htabNew] at hu
      cases hu
      exact Or.inl (congrFun hempty j)
    · have hu' := (htab hg).symm.trans hu
      by_cases hc : u = t ∧ j = i
      · rw [hc.1] at hu'
        obtain ⟨rfl, rfl⟩ := hb.inj hg hk hu' ht
        rw [hc.2]
        exact Or.inr (Or.inl ⟨h, rfl, mem_insert_self _ _⟩)
      · rw [hread hg hu' (by tauto)]
        refine (hb.words hg hu' hj).imp_right (Or.imp_left ?_)
        rintro ⟨g', rfl, hg'⟩
        exact ⟨g', rfl, mem_insert_of_mem hg'⟩
  · rcases mem_insert.mp hg with hg | hg
    · cases hg
      exact Or.inr hneed
    · exact hb.needed hg
  · show a.tlbFillptr + 512 * 8 = a.tlbAddr + 4096 * (insert (h, k * longFormat.fan + i) S).card
    rw [card_insert_of_notMem hnew, hb.fill]
    omega

theorem Built.setPte (hk : (h, k) ∈ S) (ht : a.tab m h k = some t) (hi : i < longFormat.fan)
    (hzero : a.mem t i = 0#64) (hh : h ≤ 2) (w : BitVec 64) {cov' : Nat → Prop}
    (hcov : ∀ va, cov va → cov' va)
    (hwin : ∀ va, longFormat.entry h va = k * longFormat.fan + i → cov' va) :
    Built m c b cov' S (a.setPte (t, i) w) := by
  have hread : ∀ {u j}, u ≠ t ∨ j ≠ i → (a.setPte (t, i) w).mem u j = a.mem u j :=
    fun hne => setEntry_other hne
  have htab : ∀ {g e}, (g, e) ∈ S → (a.setPte (t, i) w).tab m g e = a.tab m g e := by
    intro g e hg
    refine hb.tab_eq rfl (fun g e u hg hlt hu => ?_) hg
    exact hread (hb.not_link hzero hg hlt hu)
  refine ⟨hb.root, fun {g e} hg => ?_, hb.parent, hb.below, fun {g e g' e' u} hg hg' hu hu' => ?_,
    fun {g e u j} hg hu hj => ?_, hb.needed, hb.fill, hb.aligned, hb.area, hb.room, hb.place⟩
  · rw [htab hg]
    exact hb.tables hg
  · exact hb.inj hg hg' ((htab hg).symm.trans hu) ((htab hg').symm.trans hu')
  · have hu' := (htab hg).symm.trans hu
    by_cases hc : u = t ∧ j = i
    · obtain ⟨rfl, rfl⟩ := hc
      obtain ⟨rfl, rfl⟩ := hb.inj hg hk hu' ht
      exact Or.inr (Or.inr ⟨hh, hwin⟩)
    · rw [hread (by tauto)]
      exact (hb.words hg hu' hj).imp_right (Or.imp_right fun hcv =>
        ⟨hcv.1, fun va hva => hcov va (hcv.2 va hva)⟩)

end

end Build

/-! ## `add_map` -/

/-- The regions have no address in common. -/
def Apart (r r' : MmRegion) : Prop := r.virt + r.size ≤ r'.virt ∨ r'.virt + r'.size ≤ r.virt

/-- Regions on page boundaries, pairwise apart. `c` is at least the number of tables that they need. -/
structure Budgeted (m : List MmRegion) (c : Nat) : Prop where
  pages : ∀ r ∈ regions m, OnPages r
  reach : ∀ r ∈ regions m, r.virt + r.size ≤ longFormat.size (topHeight m + 1)
  apart : (regions m).Pairwise Apart
  bound : Bounds m (topHeight m + 1) (· = 0) c

theorem Budgeted.apart_of_ne {m : List MmRegion} {c : Nat} (hm : Budgeted m c) {r r' : MmRegion}
    (hr : r ∈ regions m) (hr' : r' ∈ regions m) (hne : r ≠ r') : Apart r r' := by
  have : Std.Symm Apart := ⟨fun _ _ h => Or.symm h⟩
  exact hm.apart.forall hr hr' hne

section AddMap

variable {m : List MmRegion} {c : Nat} {b : Nat × Nat} {cov : Nat → Prop} {S : Finset (Nat × Nat)}
  {a : Arch} {h t : Nat} {r : MmRegion} {l : Left}

variable (m) in
/-- It is not mapped yet, and does not begin inside a window that the region fills. -/
structure Todo (cov : Nat → Prop) (r : MmRegion) (l : Left) : Prop where
  mem : r ∈ regions m
  virt : l.virt % 4096 = 0
  size : l.size % 4096 = 0
  begins : r.virt ≤ l.virt
  ends : l.virt + l.size = r.virt + r.size
  free : ∀ va, l.virt ≤ va → va < l.virt + l.size → ¬ cov va
  whole : ∀ h ≤ 2, r.virt ≤ longFormat.entry h l.virt * longFormat.size h →
    (longFormat.entry h l.virt + 1) * longFormat.size h ≤ r.virt + r.size →
    l.virt % longFormat.size h = 0

theorem window_bounds (h va : Nat) : longFormat.entry h va * longFormat.size h ≤ va ∧
    va < (longFormat.entry h va + 1) * longFormat.size h := by
  rw [Nat.succ_mul]
  exact longFormat.entry_eq_iff.mp rfl

theorem Todo.needs (htodo : Todo m cov r l) (hpos : 0 < l.size)
    (hfit : h ≤ 1 → ¬ (longFormat.size (h + 1) ≤ l.size ∧ l.virt % longFormat.size (h + 1) = 0)) :
    Needs r h (longFormat.entry (h + 1) l.virt) := by
  obtain ⟨hlo, hhi⟩ := window_bounds (h + 1) l.virt
  have hbegins := htodo.begins
  have hends := htodo.ends
  refine ⟨by omega, by omega, by omega, fun h1 hfill => hfit h1 ?_⟩
  have hmod := htodo.whole (h + 1) (by omega) hfill.1 hfill.2
  have haddr := entry_mul_size hmod
  have hsucc := Nat.add_one_mul (longFormat.entry (h + 1) l.virt) (longFormat.size (h + 1))
  exact ⟨by omega, hmod⟩

/-- The entry of a block or page that fits is empty: no other region reaches into its window. -/
theorem Todo.entry_zero (htodo : Todo m cov r l) (hm : Budgeted m c) (hb : Built m c b cov S a)
    (hpos : 0 < l.size) (hh : h ≤ 2) (hk : (h, longFormat.entry (h + 1) l.virt) ∈ S)
    (ht : a.tab m h (longFormat.entry (h + 1) l.virt) = some t)
    (hfit : longFormat.size h ≤ l.size ∧ l.virt % longFormat.size h = 0) :
    a.mem t (longFormat.index h l.virt) = 0#64 := by
  have haddr := entry_mul_size hfit.2
  have hwords := hb.words hk ht (longFormat.index_lt h l.virt)
  rw [← longFormat.entry_eq] at hwords
  rcases hwords with hzero | ⟨g, rfl, hg⟩ | ⟨-, hcov⟩
  · exact hzero
  · exfalso
    have hneed := (hb.needed hg).resolve_left fun hroot => by
      have hlt : g + 1 ≤ topHeight m := tab_le ht
      have hg' : g = topHeight m := congrArg Prod.fst hroot
      omega
    obtain ⟨r', hr', hneeds⟩ := hneed
    have hsucc := Nat.add_one_mul (longFormat.entry (g + 1) l.virt) (longFormat.size (g + 1))
    have hstarts := hneeds.starts
    have hends' := hneeds.ends
    have hpos' := hneeds.size
    have hbegins := htodo.begins
    have hends := htodo.ends
    by_cases hrr : r' = r
    · subst hrr
      exact hneeds.part (by omega) ⟨by omega, by omega⟩
    · rcases hm.apart_of_ne hr' htodo.mem hrr with hap | hap <;> omega
  · exact absurd (hcov l.virt rfl) (htodo.free l.virt le_rfl (by omega))

def extend (cov : Nat → Prop) (lo hi : Nat) : Nat → Prop := fun va => cov va ∨ (lo ≤ va ∧ va < hi)

theorem extend_empty {lo hi : Nat} (hle : hi ≤ lo) : extend cov lo hi = cov := by
  funext va
  refine propext (or_iff_left ?_)
  omega

/-- What is left after the block or page that fits, none of a larger size having fitted. -/
theorem Todo.step (htodo : Todo m cov r l) (hfit : longFormat.size h ≤ l.size ∧ l.virt % longFormat.size h = 0)
    (hlarger : ∀ g, h < g → g ≤ 2 → ¬ (longFormat.size g ≤ l.size ∧ l.virt % longFormat.size g = 0)) :
    Todo m (extend cov l.virt (l.virt + longFormat.size h)) r
      ⟨l.virt + longFormat.size h, l.phys + longFormat.size h, l.size - longFormat.size h⟩ := by
  have hvirt := htodo.virt
  have hsize := htodo.size
  have hbegins := htodo.begins
  have hends := htodo.ends
  have hpage := size_page h
  refine ⟨htodo.mem, ?_, ?_, ?_, ?_, fun va hlo hhi => ?_, fun g hg hlo hhi => ?_⟩ <;>
    dsimp only at *
  · omega
  · omega
  · omega
  · omega
  · rintro (hcov | hnew)
    · exact htodo.free va (by omega) (by omega) hcov
    · omega
  · have hdvd : longFormat.size h ∣ l.virt + longFormat.size h :=
      Nat.dvd_add (Nat.dvd_of_mod_eq_zero hfit.2) dvd_rfl
    rcases Nat.lt_or_ge h g with hlt | hge
    · -- a larger window: had this part of it been mapped, the whole would have fitted
      by_contra hne
      obtain ⟨hwlo, hwhi⟩ := window_bounds g (l.virt + longFormat.size h)
      generalize longFormat.entry g (l.virt + longFormat.size h) = e at *
      have hdvd' : longFormat.size h ∣ e * longFormat.size g := by
        rw [size_eq_mul_pow hlt.le]
        exact Dvd.intro_left (e * longFormat.fan ^ (g - h)) (by ring)
      have hlt' : e * longFormat.size g < l.virt + longFormat.size h := by
        refine lt_of_le_of_ne hwlo fun heq => hne ?_
        rw [← heq]
        exact Nat.mul_mod_left _ _
      have hle := Nat.le_of_dvd (Nat.sub_pos_of_lt hlt') (Nat.dvd_sub hdvd hdvd')
      have hpos := longFormat.size_pos h
      have hsucc := Nat.add_one_mul e (longFormat.size g)
      have hentry : longFormat.entry g l.virt = e := longFormat.entry_eq_iff.mpr (by omega)
      have hmod := htodo.whole g hg (by rw [hentry]; exact hlo) (by rw [hentry]; exact hhi)
      have haddr := entry_mul_size hmod
      rw [hentry] at haddr
      exact hlarger g hlt hg ⟨by omega, hmod⟩
    · refine Nat.mod_eq_zero_of_dvd (dvd_trans ?_ hdvd)
      rw [size_eq_mul_pow hge]
      exact Nat.dvd_mul_right _ _

/-- A step of `add_map` went well: some of what was left is mapped. -/
structure Stepped (m : List MmRegion) (c : Nat) (b : Nat × Nat) (cov : Nat → Prop) (r : MmRegion) (l l' : Left)
    (a' : Arch) : Prop where
  built : ∃ S, Built m c b (extend cov l.virt l'.virt) S a'
  todo : Todo m (extend cov l.virt l'.virt) r l'
  less : l.virt < l'.virt

theorem createTable_eq (hr : a.HasRoom) : createTable a = .ok a.newTable := by
  unfold createTable
  rw [if_neg (not_lt.mpr hr)]
  rfl

section

variable (hm : Budgeted m c) (htodo : Todo m cov r l) (hpos : 0 < l.size) (hb : Built m c b cov S a)
include hm htodo hpos hb

theorem stepped_of_fits (hh : h ≤ 2) (hk : (h, longFormat.entry (h + 1) l.virt) ∈ S)
    (hfit : longFormat.size h ≤ l.size ∧ l.virt % longFormat.size h = 0)
    (hlarger : ∀ g, h < g → g ≤ 2 → ¬ (longFormat.size g ≤ l.size ∧ l.virt % longFormat.size g = 0))
    (attrs : BitVec 64) :
    ∃ l' a', addMapLevels m attrs (h + 1) (3 - h) l a = .ok (l', a') ∧ Stepped m c b cov r l l' a' := by
  obtain ⟨t, ht, -⟩ := hb.tables hk
  have hzero := htodo.entry_zero hm hb hpos hh hk ht hfit
  have hpage := longFormat.size_pos h
  rw [addMapLevels, findPte_eq (by omega) ht]
  simp only [block_size (show h ≤ 3 by omega)]
  rw [if_pos hfit]
  refine ⟨_, _, rfl, ⟨S, ?_⟩, htodo.step hfit hlarger, Nat.lt_add_of_pos_right hpage⟩
  refine hb.setPte hk ht (longFormat.index_lt _ _) hzero hh _ (fun va hva => Or.inl hva)
    fun va hva => Or.inr ?_
  rw [← longFormat.entry_eq, longFormat.entry_eq_iff, entry_mul_size hfit.2] at hva
  exact hva

/-- The loop over the levels maps one block or page, with room for every table on the way. -/
theorem addMapLevels_stepped (hh : h ≤ 2) (hk : (h, longFormat.entry (h + 1) l.virt) ∈ S)
    (hlarger : ∀ g, h < g → g ≤ 2 → ¬ (longFormat.size g ≤ l.size ∧ l.virt % longFormat.size g = 0))
    (attrs : BitVec 64) :
    ∃ l' a', addMapLevels m attrs (h + 1) (3 - h) l a = .ok (l', a') ∧ Stepped m c b cov r l l' a' := by
  induction h generalizing S a with
  | zero =>
    have hfit : longFormat.size 0 ≤ l.size ∧ l.virt % longFormat.size 0 = 0 := by
      have := htodo.size
      have := htodo.virt
      rw [size_4k]
      omega
    exact stepped_of_fits hm htodo hpos hb hh hk hfit hlarger attrs
  | succ h ih =>
    by_cases hfit : longFormat.size (h + 1) ≤ l.size ∧ l.virt % longFormat.size (h + 1) = 0
    · exact stepped_of_fits hm htodo hpos hb hh hk hfit hlarger attrs
    have hlarger' : ∀ g, h < g → g ≤ 2 →
        ¬ (longFormat.size g ≤ l.size ∧ l.virt % longFormat.size g = 0) := by
      intro g hg hg2
      rcases Nat.lt_or_eq_of_le (Nat.succ_le_of_lt hg) with hlt | rfl
      · exact hlarger g hlt hg2
      · exact hfit
    obtain ⟨t, ht, -⟩ := hb.tables hk
    rw [addMapLevels_of_not_fits hh ht hfit]
    have hwords := hb.words hk ht (longFormat.index_lt (h + 1) l.virt)
    rw [← longFormat.entry_eq] at hwords
    rcases hwords with hzero | ⟨g, hg, hmem⟩ | ⟨-, hcov⟩
    · have hneed : Needed m h (longFormat.entry (h + 1) l.virt) :=
        ⟨r, htodo.mem, htodo.needs hpos fun _ => hfit⟩
      rw [longFormat.entry_eq (h + 1)] at hneed
      obtain ⟨hroom, hb'⟩ :=
        hb.hang hm.bound hm.reach hk ht (longFormat.index_lt _ _) hzero hneed
      rw [← longFormat.entry_eq] at hb'
      rw [hzero, if_pos (by decide), createTable_eq hroom]
      exact ih hb' (by omega) (mem_insert_self _ _) hlarger'
    · obtain rfl : h = g := Nat.succ.inj hg
      rw [longFormat.entry_eq (h + 1)] at hmem
      obtain ⟨s, hs⟩ := hb.link_of_entry ht (longFormat.index_lt _ _) hmem
      rw [← longFormat.entry_eq] at hmem
      have htype : pteType (a.mem t (longFormat.index (h + 1) l.virt)) = pteTypeTable :=
        (kind_eq_table.mp hs).1
      rw [htype, if_neg (by decide), if_neg (by decide)]
      exact ih hb (by omega) hmem hlarger'
    · exact absurd (hcov l.virt rfl) (htodo.free l.virt le_rfl (by omega))

theorem addMapLevel0_built :
    ∃ S' a', addMapLevel0 m l a = .ok a' ∧ Built m c b cov S' a' ∧
      (2, longFormat.entry 3 l.virt) ∈ S' := by
  have hva : InReach m l.virt := by
    have := hm.reach r htodo.mem
    have := htodo.ends
    unfold InReach
    omega
  have htop := entry_top hva
  unfold addMapLevel0
  rcases startLevel_cases m with ⟨hs, hh⟩ | ⟨hs, hh⟩
  · have hnone : findPte m a l.virt 0 = none := by
      rw [findPte, if_pos (by omega)]
    rw [hnone]
    rw [hh] at htop
    refine ⟨S, a, rfl, hb, ?_⟩
    rw [htop, ← hh]
    exact hb.root
  · rw [hh] at htop
    have hk : (3, longFormat.entry 4 l.virt) ∈ S := by
      rw [htop, ← hh]
      exact hb.root
    obtain ⟨t, ht, -⟩ := hb.tables hk
    have hfind : findPte m a l.virt 0 = some (t, longFormat.index 3 l.virt) :=
      findPte_eq le_rfl ht
    rw [hfind]
    have hwords := hb.words hk ht (longFormat.index_lt 3 l.virt)
    rcases hwords with hzero | ⟨g, hg, hmem⟩ | ⟨hle, -⟩
    · have hneed : Needed m 2 (longFormat.entry 3 l.virt) :=
        ⟨r, htodo.mem, htodo.needs hpos fun h => absurd h (by decide)⟩
      rw [longFormat.entry_eq 3] at hneed
      obtain ⟨hroom, hb'⟩ :=
        hb.hang hm.bound hm.reach hk ht (longFormat.index_lt _ _) hzero hneed
      simp only
      rw [hzero, if_pos (by decide), createTable_eq hroom]
      refine ⟨_, _, rfl, hb', ?_⟩
      rw [← longFormat.entry_eq]
      exact mem_insert_self _ _
    · obtain rfl : 2 = g := Nat.succ.inj hg
      obtain ⟨s, hs⟩ := hb.link_of_entry ht (longFormat.index_lt _ _) hmem
      have htype : pteType (a.mem t (longFormat.index 3 l.virt)) = pteTypeTable :=
        (kind_eq_table.mp hs).1
      simp only
      rw [htype, if_neg (by decide)]
      refine ⟨S, a, rfl, hb, ?_⟩
      rw [longFormat.entry_eq 3]
      exact hmem
    · omega

end

/-- The `while` loop maps what is left of the region. -/
theorem addMapLoop_built (hm : Budgeted m c) (htodo : Todo m cov r l) (hb : Built m c b cov S a)
    (attrs : BitVec 64) {fuel : Nat} (hfuel : l.size ≤ 4096 * fuel) :
    ∃ S' a', addMapLoop m attrs fuel l a = .ok a' ∧
      Built m c b (extend cov l.virt (l.virt + l.size)) S' a' := by
  induction fuel generalizing cov S l a with
  | zero =>
    rw [addMapLoop, if_pos (by omega), extend_empty (by omega)]
    exact ⟨S, a, rfl, hb⟩
  | succ fuel ih =>
    rw [addMapLoop]
    split
    · rw [extend_empty (by omega)]
      exact ⟨S, a, rfl, hb⟩
    · next h0 =>
      obtain ⟨S1, a1, hrun1, hb1, hk⟩ := addMapLevel0_built hm htodo (by omega) hb
      obtain ⟨l', a2, hrun2, ⟨S2, hb2⟩, htodo', hless⟩ :=
        addMapLevels_stepped hm htodo (by omega) hb1 le_rfl hk (by omega) attrs
      have hends := htodo.ends
      have hends' := htodo'.ends
      have hv := htodo.virt
      have hv' := htodo'.virt
      have hcov : extend (extend cov l.virt l'.virt) l'.virt (l'.virt + l'.size) =
          extend cov l.virt (l.virt + l.size) := by
        funext va
        unfold extend
        rw [or_assoc]
        exact propext (or_congr_right (by omega))
      obtain ⟨S', a', hrun', hb'⟩ := ih htodo' hb2 (by omega)
      rw [hcov] at hb'
      refine ⟨S', a', ?_, hb'⟩
      rw [hrun1]
      show (addMapLevels m attrs 3 1 l a1 >>= _) = _
      rw [hrun2]
      exact hrun'

end AddMap

/-! ## `setup_pgtables` and `setup_all_pgtables` -/

section Setup

variable {m : List MmRegion} {c : Nat} {b : Nat × Nat} {a : Arch}

theorem addMaps_built (hm : Budgeted m c) {fuel : Nat} {rs : List MmRegion}
    (hrs : ∀ r ∈ rs, r ∈ regions m) (hap : rs.Pairwise Apart)
    (hfuel : ∀ r ∈ rs, r.size ≤ 4096 * fuel) {cov : Nat → Prop} {S : Finset (Nat × Nat)}
    (hfree : ∀ r ∈ rs, ∀ va, r.virt ≤ va → va < r.virt + r.size → ¬ cov va)
    (hb : Built m c b cov S a) :
    ∃ cov' S' a', addMaps m fuel rs a = .ok a' ∧ Built m c b cov' S' a' := by
  induction rs generalizing cov S a with
  | nil => exact ⟨cov, S, a, rfl, hb⟩
  | cons r rs ih =>
    rw [List.forall_mem_cons] at hrs hfuel hfree
    obtain ⟨hr, hap⟩ := List.pairwise_cons.mp hap
    have hpages := hm.pages r hrs.1
    have htodo : Todo m cov r ⟨r.virt, r.phys, r.size⟩ := by
      refine ⟨hrs.1, hpages.virt, hpages.size, le_rfl, rfl, hfree.1, fun h _ hlo _ => ?_⟩
      have heq : longFormat.entry h r.virt * longFormat.size h = r.virt :=
        le_antisymm (window_bounds h r.virt).1 hlo
      rw [← heq]
      exact Nat.mul_mod_left _ _
    obtain ⟨S1, a1, hrun1, hb1⟩ := addMapLoop_built hm htodo hb (r.attrs ||| pteTypeBlock ||| pteBlockAf) hfuel.1
    obtain ⟨cov', S', a', hrun', hb'⟩ := ih hrs.2 hap hfuel.2 (fun r' hr' va hlo hhi => by
      rintro (hcov | hnew)
      · exact hfree.2 r' hr' va hlo hhi hcov
      · dsimp only at hnew
        rcases hr r' hr' with h | h <;> omega) hb1
    refine ⟨cov', S', a', ?_, hb'⟩
    rw [addMaps, addMap, hrun1]
    exact hrun'

theorem built_newTable (ha : TableArea a) (hroom : 4096 * max c 1 ≤ a.tlbSize) :
    Built m c (a.tlbAddr, a.tlbSize) (fun _ => False) {(topHeight m, 0)} a.newTable.2 := by
  have haligned := ha.aligned
  have hunused := ha.unused
  have hzero := mem_newTable ha
  have hroot : ∀ {h k}, (h, k) ∈ ({(topHeight m, 0)} : Finset (Nat × Nat)) →
      h = topHeight m ∧ k = 0 := by
    intro h k hk
    have := mem_singleton.mp hk
    exact ⟨congrArg Prod.fst this, congrArg Prod.snd this⟩
  refine ⟨mem_singleton_self _, fun hk => ?_, fun hk hlt => ?_, fun hk => ?_,
    fun hk hk' _ _ => ?_, fun hk ht _ => ?_, fun hk => ?_, ?_, haligned, ha.area, hroom, rfl⟩
  · obtain ⟨rfl, rfl⟩ := hroot hk
    refine ⟨a.tlbAddr, tab_root, ?_⟩
    show a.tlbAddr < a.tlbFillptr + 512 * 8
    omega
  · obtain ⟨rfl, -⟩ := hroot hk
    exact absurd hlt (lt_irrefl _)
  · obtain ⟨rfl, rfl⟩ := hroot hk
    exact below_direct.mpr rfl
  · obtain ⟨rfl, rfl⟩ := hroot hk
    obtain ⟨rfl, rfl⟩ := hroot hk'
    exact ⟨rfl, rfl⟩
  · obtain ⟨-, -, rfl⟩ := tab_newTable ha ht
    exact Or.inl (congrFun hzero _)
  · exact Or.inl (mem_singleton.mp hk)
  · show a.tlbFillptr + 512 * 8 = a.tlbAddr + 4096 * _
    rw [card_singleton]
    omega

theorem Built.card_le {cov : Nat → Prop} {S : Finset (Nat × Nat)} (hb : Built m c b cov S a)
    (hm : Budgeted m c) : S.card ≤ max c 1 := by
  by_cases hex : ∃ h k, (h, k) ∈ S ∧ Needed m h k
  · obtain ⟨h, k, -, hneed⟩ := hex
    refine (hm.bound S fun x hx => ⟨?_, 0, rfl, hb.below hx⟩).trans (le_max_left _ _)
    rcases hb.needed hx with hroot | hneed'
    · rw [show x.1 = topHeight m from congrArg Prod.fst hroot, show x.2 = 0 from congrArg Prod.snd hroot]
      exact root_needed hm.reach hneed
    · exact hneed'
  · have hsub : S ⊆ {(topHeight m, 0)} := fun x hx =>
      mem_singleton.mpr ((hb.needed hx).resolve_right fun hneed => hex ⟨x.1, x.2, hx, hneed⟩)
    exact (card_le_card hsub).trans (le_max_right _ _)

theorem setupPgtables_built (hm : Budgeted m c) (ha : TableArea a) (hroom : 4096 * max c 1 ≤ a.tlbSize) {fuel : Nat}
    (hfuel : ∀ r ∈ regions m, r.size ≤ 4096 * fuel) :
    ∃ a' n, setupPgtables m fuel a = .ok a' ∧ (a'.tlbAddr, a'.tlbSize) = (a.tlbAddr, a.tlbSize) ∧
      a'.tlbFillptr = a.tlbAddr + 4096 * n ∧ n ≤ max c 1 := by
  have hfirst : a.HasRoom := by
    have := ha.unused
    unfold Arch.HasRoom
    omega
  obtain ⟨cov, S, a', hrun, hb⟩ := addMaps_built hm (fun r hr => hr) hm.apart hfuel
    (fun r _ va _ _ => not_false) (built_newTable ha hroom)
  have hplace := hb.place
  have haddr : a'.tlbAddr = a.tlbAddr := congrArg Prod.fst hplace
  refine ⟨a', S.card, ?_, hplace, haddr ▸ hb.fill, hb.card_le hm⟩
  rw [setupPgtables, if_neg (by rw [ha.unused]; simp [ha.addr]), createTable_eq hfirst]
  exact hrun

theorem budgeted (m : List MmRegion) (hpages : ∀ r ∈ regions m, OnPages r)
    (hap : (regions m).Pairwise Apart) : ∃ c, requiredPts m = some c ∧ Budgeted m c := by
  have hmax : maxAddr m ≤ 2 ^ 48 := maxAddr_le.mpr fun r hr => (hpages r hr).ends
  have hva : ∀ r ∈ regions m, r.virt + r.size ≤ 2 ^ (getTcr m 0).vaBits := fun r hr =>
    (maxAddr_le.mp le_rfl r hr).trans (le_two_pow_addrBits hmax)
  obtain ⟨c, hc, hbound⟩ := countRequiredPts_bounds hpages hva (topHeight m + 1) 0
  have hlevel : 4 - startLevel m = topHeight m + 1 := by
    rcases startLevel_cases m with ⟨h1, h2⟩ | ⟨h1, h2⟩ <;> omega
  refine ⟨c, ?_, hpages, fun r hr => (hva r hr).trans (two_pow_vaBits_le m 0), hap, hbound⟩
  rw [requiredPts, hlevel, ← hc, Nat.zero_mul]

/-- For every map of page-aligned regions that are pairwise apart and end within 48 bits, in any order,
`setup_pgtables` makes no more tables than `count_required_pts` counts (one, if there is nothing to map), so
that `setup_all_pgtables` in an area of `get_page_table_size` bytes makes both sets of tables. -/
theorem page_table_size_suffices (m : List MmRegion) (fuel : Nat)
    (hpages : ∀ r ∈ regions m, OnPages r) (hap : (regions m).Pairwise Apart)
    (hfuel : ∀ r ∈ regions m, r.size ≤ 4096 * fuel) :
    ∃ c, requiredPts m = some c ∧
      (∀ a, TableArea a → 4096 * max c 1 ≤ a.tlbSize →
        ∃ a' n, setupPgtables m fuel a = .ok a' ∧ a'.tlbFillptr = a.tlbAddr + 4096 * n ∧
          n ≤ max c 1) ∧
      ∀ a size, getPageTableSize m = some size → a.tlbSize = size → a.tlbAddr ≠ 0 →
        a.tlbAddr % 4096 = 0 → a.tlbAddr + a.tlbSize ≤ 2 ^ 48 →
        ∃ r, setupAllPgtables m fuel a = .ok r := by
  obtain ⟨c, hc, hm⟩ := budgeted m hpages hap
  refine ⟨c, hc, fun a ha hroom => ?_, fun a size hsize hlen hne haligned harea => ?_⟩
  · obtain ⟨a', n, hrun, -, hfill, hn⟩ := setupPgtables_built hm ha hroom hfuel
    exact ⟨a', n, hrun, hfill, hn⟩
  · have hlen' : a.tlbSize = 4096 * c * 2 + 4096 * 4 := by
      rw [getPageTableSize, hc] at hsize
      exact hlen.trans (Option.some.inj hsize).symm
    obtain ⟨a₁, n₁, hrun₁, hplace₁, hfill₁, hn₁⟩ := setupPgtables_built
      (a := { a with tlbFillptr := a.tlbAddr }) hm ⟨hne, haligned, rfl, harea⟩
      (show 4096 * max c 1 ≤ a.tlbSize by omega) hfuel
    have haddr₁ : a₁.tlbAddr = a.tlbAddr := congrArg Prod.fst hplace₁
    have hsize₁ : a₁.tlbSize = a.tlbSize := congrArg Prod.snd hplace₁
    dsimp only at hfill₁
    obtain ⟨a₂, n₂, hrun₂, -⟩ := setupPgtables_built
      (a := { a₁ with tlbSize := a₁.tlbSize - (a₁.tlbFillptr - a₁.tlbAddr),
                      tlbAddr := a₁.tlbFillptr }) hm
      ⟨by dsimp only; omega, by dsimp only; omega, rfl, by dsimp only; omega⟩
      (by dsimp only; omega) hfuel
    refine ⟨({ a₂ with tlbAddr := a.tlbAddr, tlbSize := a.tlbSize }, a₂.tlbAddr), ?_⟩
    rw [setupAllPgtables, hrun₁]
    show (setupPgtables m fuel _ >>= _) = _
    rw [hrun₂]
    rfl

end Setup

/-- A page of device memory and two blocks of RAM, the higher region first. -/
def apartMap : List MmRegion :=
  [{ virt := 0xd0012000, phys := 0xd0012000, size := 0x1000
     attrs := pteBlockMemtype mtDeviceNgnrne },
   { virt := 0x200000, phys := 0x200000, size := 0x400000
     attrs := pteBlockMemtype mtNormal ||| pteBlockInnerShare },
   { virt := 0, phys := 0, size := 0, attrs := 0#64 }]

/-- Four tables are counted, and both sets are built in twelve pages. -/
theorem page_table_size_suffices_apart_map :
    requiredPts apartMap = some 4 ∧ ∃ r, setupAllPgtables apartMap 1024
      { tlbAddr := 0x10000, tlbSize := 0xc000, tlbFillptr := 0, mem := fun _ _ => 0#64 } = .ok r := by
  have hpages : ∀ r ∈ regions apartMap, OnPages r := by
    have hall : ∀ r ∈ regions apartMap, r.virt % 4096 = 0 ∧ r.size % 4096 = 0 ∧
        r.virt + r.size ≤ 2 ^ 48 := by decide +kernel
    intro r hr
    obtain ⟨h1, h2, h3⟩ := hall r hr
    exact ⟨h1, h2, h3⟩
  have hap : (regions apartMap).Pairwise Apart := by
    unfold Apart
    decide +kernel
  have hcount : requiredPts apartMap = some 4 := by decide +kernel
  obtain ⟨c, hc, -, hall⟩ :=
    page_table_size_suffices apartMap 1024 hpages hap (by decide +kernel)
  refine ⟨hcount, hall _ 0xc000 ?_ rfl (by decide) (by decide) (by decide)⟩
  rw [getPageTableSize, hcount]
  rfl

end Armada3720.UBootMmu
