import Armada3720.UBootMmu.Meaning

/-!
# Changing the attributes of a region

`mmu_set_region_dcache_behaviour` and `mmu_change_region_attr` go over a range from its start. Each round goes
down to the first entry whose size divides what is left, splits the blocks above it and sets attribute bits in
it, whatever it is: these are the *granules* of the range. `Refines` says that tables were only split,
`Overlaid` that words were edited.
-/

namespace Armada3720.UBootMmu

open Lib Lib.PageFormat

/-! ## `asm/armv8/mmu.h` and `asm/system.h` -/

def pteTypeValid : BitVec 64 := 1#64
def pteBlockPxn : BitVec 64 := 1#64 <<< 53
def pteBlockUxn : BitVec 64 := 1#64 <<< 54
def pmdAttrindx (t : Nat) : BitVec 64 := BitVec.ofNat 64 t <<< 2
def pmdAttrindxMask : BitVec 64 := 7#64 <<< 2
def pmdAttrmask : BitVec 64 := pteBlockPxn ||| pteBlockUxn ||| pmdAttrindxMask ||| pteTypeValid

inductive DcacheOption
  | off
  | writethrough
  | writeback
  | writealloc
  deriving DecidableEq, Repr

/-- The values of `enum dcache_option`: a memory type, in its place in a descriptor. -/
def DcacheOption.value : DcacheOption → Nat
  | off => 0 <<< 2
  | writethrough => 3 <<< 2
  | writeback => 4 <<< 2
  | writealloc => 4 <<< 2

/-! ## `set_one_region` -/

/-- Why a change of attributes stops. -/
inductive RegionStop
  /-- A panic of `split_block` or `create_table`, or a loop that does not end. -/
  | stop (s : Stop)
  /-- `find_pte` returned NULL, and the entry is read through it. -/
  | nullPte
  /-- "PTE for addr should be a table" -/
  | shouldBeTable (pte : BitVec 64)
  /-- "Emergency page table not setup." -/
  | noEmergencyTable
  deriving DecidableEq, Repr

def isAligned (addr size align : Nat) : Bool := addr % align = 0 && size % align = 0

/-- `w` with the bits of `mask` taken from `v`. -/
def setBits (mask v w : BitVec 64) : BitVec 64 := (w &&& ~~~mask) ||| (v &&& mask)

/-- The bits that `set_one_region` sets. -/
def regionMask (flag : Bool) : BitVec 64 := if flag then pmdAttrmask else pmdAttrindxMask

def setOneRegion (memMap : List MmRegion) (start size : Nat) (attrs : BitVec 64) (flag : Bool)
    (level : Nat) (a : Arch) : Except RegionStop (Nat × Arch) :=
  let levelsize := 2 ^ level2shift level
  match findPte memMap a start level with
  | none => .error .nullPte
  | some pte =>
    if isAligned start size levelsize then
      .ok (levelsize, a.setPte pte (setBits (regionMask flag) attrs (a.mem pte.1 pte.2)))
    else do
      let a ← if pteType (a.mem pte.1 pte.2) = pteTypeBlock then
          (splitBlock a pte level).mapError .stop
        else .ok a
      if pteType (a.mem pte.1 pte.2) ≠ pteTypeTable then
        .error (.shouldBeTable (a.mem pte.1 pte.2))
      else
        .ok (0, a)

/-- At `level` with `n` levels to go: the bytes that were done, and the state. -/
def regionLevels (memMap : List MmRegion) (start size : Nat) (attrs : BitVec 64) (flag : Bool) :
    Nat → Nat → Arch → Except RegionStop (Nat × Arch)
  | 0, _, a => .ok (0, a)
  | n + 1, level, a => do
    let (r, a) ← setOneRegion memMap start size attrs flag level a
    if r ≠ 0 then .ok (r, a) else regionLevels memMap start size attrs flag n (level + 1) a

/-- The `while (size > 0)` loop. -/
def regionLoop (memMap : List MmRegion) (attrs : BitVec 64) (flag : Bool) :
    Nat → Nat → Nat → Arch → Except RegionStop Arch
  | 0, _, size, a => if size = 0 then .ok a else .error (.stop .outOfFuel)
  | fuel + 1, start, size, a =>
    if size = 0 then .ok a
    else do
      let (r, a) ← regionLevels memMap start size attrs flag 3 1 a
      regionLoop memMap attrs flag fuel (start + r) (size - r) a

/-- Switching to the emergency tables and flushing the caches leave the tables alone. -/
def mmuSetRegionDcacheBehaviour (memMap : List MmRegion) (fuel tlbEmerg start size : Nat)
    (option : DcacheOption) (a : Arch) : Except RegionStop Arch :=
  if tlbEmerg = 0 then .error .noEmergencyTable
  else regionLoop memMap (pmdAttrindx option.value) false fuel start size a

def mmuChangeRegionAttr (memMap : List MmRegion) (fuel addr siz : Nat) (attrs : BitVec 64)
    (a : Arch) : Except RegionStop Arch := do
  let a ← regionLoop memMap pteTypeFault true fuel addr siz a
  regionLoop memMap attrs true fuel addr siz a

/-! ## Granules -/

/-- The height of the entry that `set_one_region` changes for what is left of the range. -/
def fitHeight (start size : Nat) : Nat :=
  if isAligned start size (longFormat.size 2) then 2
  else if isAligned start size (longFormat.size 1) then 1
  else 0

/-- The windows whose entries are changed, as height and number. -/
inductive Granule : Nat → Nat → Nat → Nat → Prop
  | here {start size : Nat} : 0 < size →
      Granule start size (fitHeight start size) (longFormat.entry (fitHeight start size) start)
  | next {start size h e : Nat} : 0 < size →
      Granule (start + longFormat.size (fitHeight start size))
        (size - longFormat.size (fitHeight start size)) h e → Granule start size h e

/-- A range on page boundaries. -/
structure OnPageBounds (start size : Nat) : Prop where
  start : start % 4096 = 0
  size : size % 4096 = 0

section Granule

variable {start size h e va : Nat}

theorem fitHeight_le (start size : Nat) : fitHeight start size ≤ 2 := by
  unfold fitHeight
  split
  · exact le_rfl
  · split <;> decide

theorem OnPageBounds.fits (hr : OnPageBounds start size) :
    start % longFormat.size (fitHeight start size) = 0 ∧
      size % longFormat.size (fitHeight start size) = 0 := by
  unfold fitHeight
  split
  · next h2 => simpa [isAligned] using h2
  · split
    · next h1 => simpa [isAligned] using h1
    · exact ⟨hr.start, hr.size⟩

theorem not_fits_of_gt (hlt : fitHeight start size < h) (hh : h ≤ 2) :
    ¬ (start % longFormat.size h = 0 ∧ size % longFormat.size h = 0) := by
  have hiff : ∀ g, isAligned start size (longFormat.size g) = true ↔
      start % longFormat.size g = 0 ∧ size % longFormat.size g = 0 := by
    intro g
    simp [isAligned]
  unfold fitHeight at hlt
  split at hlt
  · omega
  · next h2 =>
    split at hlt
    · obtain rfl : h = 2 := by omega
      rwa [hiff] at h2
    · next h1 =>
      rcases Nat.lt_or_ge h 2 with hlt2 | hge
      · obtain rfl : h = 1 := by omega
        rwa [hiff] at h1
      · obtain rfl : h = 2 := by omega
        rwa [hiff] at h2

theorem OnPageBounds.fit_le (hr : OnPageBounds start size) (hpos : 0 < size) :
    longFormat.size (fitHeight start size) ≤ size :=
  Nat.le_of_dvd hpos (Nat.dvd_of_mod_eq_zero hr.fits.2)

theorem OnPageBounds.next (hr : OnPageBounds start size) (hpos : 0 < size) :
    OnPageBounds (start + longFormat.size (fitHeight start size))
      (size - longFormat.size (fitHeight start size)) := by
  have h1 := hr.start
  have h2 := hr.size
  have h3 := hr.fit_le hpos
  have h4 := size_page (fitHeight start size)
  exact ⟨by omega, by omega⟩

theorem OnPageBounds.fit_start (hr : OnPageBounds start size) :
    longFormat.entry (fitHeight start size) start * longFormat.size (fitHeight start size) = start :=
  Nat.div_mul_cancel (Nat.dvd_of_mod_eq_zero hr.fits.1)

theorem Granule.within (hg : Granule start size h e) (hr : OnPageBounds start size) :
    h ≤ 2 ∧ start ≤ e * longFormat.size h ∧ (e + 1) * longFormat.size h ≤ start + size := by
  induction hg with
  | here hpos =>
    have h1 := hr.fit_start
    have h2 := hr.fit_le hpos
    refine ⟨fitHeight_le _ _, h1.ge, ?_⟩
    rw [Nat.add_one_mul, h1]
    omega
  | next hpos _ ih =>
    have h2 := hr.fit_le hpos
    obtain ⟨h3, h4, h5⟩ := ih (hr.next hpos)
    exact ⟨h3, by omega, by omega⟩

theorem Granule.pos (hg : Granule start size h e) : 0 < size := by
  cases hg with
  | here hpos => exact hpos
  | next hpos _ => exact hpos

theorem exists_granule (hr : OnPageBounds start size) (hlo : start ≤ va) (hhi : va < start + size) :
    ∃ h, Granule start size h (longFormat.entry h va) := by
  induction size using Nat.strong_induction_on generalizing start with
  | _ size ih =>
  have hpos : 0 < size := by omega
  have hpos' := longFormat.size_pos (fitHeight start size)
  by_cases hva : va < start + longFormat.size (fitHeight start size)
  · refine ⟨fitHeight start size, ?_⟩
    have hentry : longFormat.entry (fitHeight start size) va =
        longFormat.entry (fitHeight start size) start := by
      rw [longFormat.entry_eq_iff, hr.fit_start]
      exact ⟨hlo, hva⟩
    rw [hentry]
    exact .here hpos
  · obtain ⟨h, hg⟩ := ih (size - longFormat.size (fitHeight start size)) (by omega) (hr.next hpos)
      (by omega) (by omega)
    exact ⟨h, .next hpos hg⟩

theorem Granule.unique {h' : Nat} (hg : Granule start size h (longFormat.entry h va))
    (hg' : Granule start size h' (longFormat.entry h' va)) (hr : OnPageBounds start size) :
    h = h' := by
  have hmem : ∀ g, longFormat.entry g va * longFormat.size g ≤ va ∧
      va < longFormat.entry g va * longFormat.size g + longFormat.size g :=
    fun g => longFormat.entry_eq_iff.mp rfl
  generalize he : longFormat.entry h va = e at hg
  generalize he' : longFormat.entry h' va = e' at hg'
  induction hg with
  | @here start size hpos =>
    cases hg' with
    | here _ => rfl
    | next _ hg' =>
      have h1 := (hg'.within (hr.next hpos)).2.1
      have h2 := (hmem h').1
      have h3 := (hmem (fitHeight start size)).2
      rw [he] at h3
      rw [he'] at h2
      have h4 := hr.fit_start
      omega
  | @next start size h e hpos hg ih =>
    cases hg' with
    | here _ =>
      have h1 := (hg.within (hr.next hpos)).2.1
      have h2 := (hmem h).1
      have h3 := (hmem (fitHeight start size)).2
      rw [he] at h2
      rw [he'] at h3
      have h4 := hr.fit_start
      omega
    | next _ hg' => exact ih (hr.next hpos) he hg'

theorem not_granule_above (hr : OnPageBounds start size) (hlt : fitHeight start size < h) :
    ¬ Granule start size h (longFormat.entry h start) := by
  intro hg
  have hfirst : Granule start size (fitHeight start size)
      (longFormat.entry (fitHeight start size) start) := .here hg.pos
  exact absurd (hfirst.unique hg hr) (by omega)

end Granule

/-! ## Tables that were only split -/

/-- What is done to the words of the windows. -/
abbrev Edits := Nat → Nat → BitVec 64 → BitVec 64

variable (m : List MmRegion)

/-- The tables of `a` are those of `b`, with the words of some windows edited. -/
structure Overlaid (g : Edits) (b a : Arch) : Prop where
  addr : a.tlbAddr = b.tlbAddr
  size : a.tlbSize = b.tlbSize
  fillptr : a.tlbFillptr = b.tlbFillptr
  mem : ∀ {h k t i}, b.tab m h k = some t → i < longFormat.fan →
    a.mem t i = g h (k * longFormat.fan + i) (b.mem t i)
  edited : ∀ {h e}, g h e ≠ id → ∃ t, b.tab m h (e / longFormat.fan) = some t

/-- Blocks of `b` are split, none of them a granule of the range. -/
structure Refines (lo len : Nat) (b b' : Arch) : Prop where
  good : Good m b'
  same : ∀ va, InReach m va → b'.attrsAt m va = b.attrsAt m va
  keeps : ∀ {h k t}, b.tab m h k = some t → b'.tab m h k = some t
  new : ∀ {h k t}, b'.tab m h k = some t → Granule lo len (h + 1) k → b.tab m h k = some t

variable {m}

section Overlay

variable {g : Edits} {a b b' : Arch} {h k t i va lo len : Nat}

theorem Refines.refl (hg : Good m b) : Refines m lo len b b :=
  ⟨hg, fun _ _ => rfl, fun ht => ht, fun ht _ => ht⟩

theorem Refines.trans {b'' : Arch} (h1 : Refines m lo len b b') (h2 : Refines m lo len b' b'') :
    Refines m lo len b b'' where
  good := h2.good
  same va hva := (h2.same va hva).trans (h1.same va hva)
  keeps ht := h2.keeps (h1.keeps ht)
  new ht hgr := h1.new (h2.new ht hgr) hgr

theorem overlaid_self (b : Arch) : Overlaid m (fun _ _ => id) b b :=
  ⟨rfl, rfl, rfl, fun _ _ => rfl, fun h => absurd rfl h⟩

/-- The word of an address, read in the edited tables. -/
theorem Overlaid.read (ho : Overlaid m g b a) (ht : b.tab m h (longFormat.entry (h + 1) va) = some t) :
    a.mem t (longFormat.index h va) =
      g h (longFormat.entry h va) (b.mem t (longFormat.index h va)) := by
  rw [ho.mem ht (longFormat.index_lt h va), ← longFormat.entry_eq]

theorem Overlaid.tab_eq (ho : Overlaid m g b a)
    (hup : ∀ h', h < h' → h' ≤ topHeight m → g h' (longFormat.entry h' va) = id)
    (ht : b.tab m h (longFormat.entry (h + 1) va) = some t) :
    a.tab m h (longFormat.entry (h + 1) va) = some t := by
  have hle : h ≤ topHeight m := tab_le ht
  induction hle using Nat.decreasingInduction generalizing t with
  | self =>
    unfold Arch.tab at ht ⊢
    rw [tab_top] at ht ⊢
    rwa [ho.addr]
  | of_succ h hlt ih =>
    obtain ⟨u, hu, hk⟩ := (tab_parent hlt).mp ht
    rw [← longFormat.entry_succ] at hu
    have hu' := ih (fun h' hh hle => hup h' (by omega) hle) hu
    refine (tab_parent hlt).mpr ⟨u, ?_, ?_⟩
    · rw [← longFormat.entry_succ]
      exact hu'
    · show longFormat.kind (h + 1) (a.mem u (longFormat.index (h + 1) va)) = _
      rw [ho.read hu, hup (h + 1) (Nat.lt_succ_self h) hlt]
      exact hk

/-- Where none of its words is edited an address is walked alike. -/
theorem Overlaid.stop_eq (ho : Overlaid m g b a) (hid : ∀ h' ≤ h, g h' (longFormat.entry h' va) = id)
    (ht : b.tab m h (longFormat.entry (h + 1) va) = some t) :
    longFormat.stop a.mem h t va = longFormat.stop b.mem h t va := by
  have hread := ho.read ht
  rw [hid h le_rfl] at hread
  induction h generalizing t with
  | zero => simp only [stop, hread, id]
  | succ h ih =>
    cases hk : longFormat.kind (h + 1) (b.mem t (longFormat.index (h + 1) va)) with
    | invalid => simp only [stop, hread, id, hk]
    | leaf => simp only [stop, hread, id, hk]
    | table s =>
      have hs := tab_child ht (longFormat.index_lt _ _) hk
      rw [← longFormat.entry_eq] at hs
      have hread' := ho.read hs
      rw [hid h (Nat.le_succ h)] at hread'
      rw [stop_of_table hk, stop_of_table (by rw [hread]; exact hk)]
      exact ih (fun h' hle => hid h' (by omega)) hs hread'

theorem Overlaid.walk_eq (ho : Overlaid m g b a)
    (hid : ∀ h', g h' (longFormat.entry h' va) = id) (hva : InReach m va) :
    a.walk m va = b.walk m va := by
  have hstop := ho.stop_eq (fun h' _ => hid h') (tab_first b hva)
  unfold Arch.walk
  rw [ho.addr]
  exact walk_of_stop hstop

end Overlay

end Armada3720.UBootMmu
