import Armada3720.Efi.PageMap

/-!
# Virtual addresses in the memory map

A new descriptor has `virtual_start` equal to `physical_start`. `efi_mem_carve_out` gives a descriptor that is
moved, and the upper part of one that is split, another physical start and leaves the virtual one.

A list in which no descriptor that is carved reaches past the range is followed to the end of the loop (`Pending`),
and so is one in which some descriptor does (`Losing`). `efi_memory_map_is_identity` has the two cases as an
equivalence for a further call. Calls that free a descriptor under the walk are left out.
-/

namespace Armada3720.Efi

open Lib

def Identity (l : List EfiMemDesc) : Prop := ∀ d ∈ l, d.virtualStart = d.physicalStart

/-- No descriptor that is carved reaches past the end of the range. -/
def Capped (carve : EfiMemDesc) (overlapOnlyRam : Bool) (l : List EfiMemDesc) : Prop :=
  ∀ d ∈ l, Overlaps carve d → carve.stop < d.stop → Refused overlapOnlyRam d

instance (carve : EfiMemDesc) (overlapOnlyRam : Bool) (l : List EfiMemDesc) :
    Decidable (Capped carve overlapOnlyRam l) := inferInstanceAs (Decidable (∀ _ ∈ _, _))

section First

variable {carve d : EfiMemDesc} {l : List EfiMemDesc}

theorem first_of_reaches (hc : carve.Valid) (hl : WellFormed l) (hd : d ∈ l)
    (h : Overlaps carve d) (hstop : carve.stop < d.stop) : ∃ pre post, First carve l pre d post := by
  obtain ⟨pre, post, rfl⟩ := List.append_of_mem hd
  refine ⟨pre, post, rfl, fun c hcm hover => ?_, h⟩
  have hcv : c.Valid := hl.valid c (by simp [hcm])
  have hbelow : d.physicalStart + d.length ≤ c.physicalStart :=
    (List.pairwise_append.mp hl.descending).2.2 c hcm d (List.mem_cons_self ..)
  rw [hc.overlaps_iff hcv] at hover
  rw [hc.stop_eq, (hl.valid d hd).stop_eq] at hstop
  omega

end First

/-! ## Calls that keep the identity -/

section Keeps

variable {carve d map : EfiMemDesc} {l l' pre post entry : List EfiMemDesc} {overlapOnlyRam : Bool} {n s : Int}

/-- While a capped list is carved, only the descriptor carved next may have another virtual address. -/
structure Pending (carve : EfiMemDesc) (overlapOnlyRam : Bool) (l : List EfiMemDesc) : Prop where
  wellFormed : WellFormed l
  capped : Capped carve overlapOnlyRam l
  identity : Identity l ∨ ∃ pre d post, First carve l pre d post ∧ ¬ Refused overlapOnlyRam d ∧
    carve.physicalStart ≤ d.physicalStart ∧ Identity pre ∧ Identity post

theorem identity_append : Identity (l ++ l') ↔ Identity l ∧ Identity l' := by
  unfold Identity
  simp only [List.mem_append, or_imp, forall_and]

theorem identity_cons : Identity (d :: l) ↔ d.virtualStart = d.physicalStart ∧ Identity l := by
  unfold Identity
  simp

theorem Pending.around (h : Pending carve overlapOnlyRam l) (hfirst : First carve l pre map post) :
    Identity pre ∧ Identity post ∧
      (map.physicalStart < carve.physicalStart → map.virtualStart = map.physicalStart) := by
  rcases h.identity with hid | ⟨pre', d, post', hfirst', -, hstart, hpre, hpost⟩
  · rw [hfirst.1, identity_append, identity_cons] at hid
    exact ⟨hid.1, hid.2.2, fun _ => hid.2.1⟩
  · obtain ⟨rfl, rfl, rfl⟩ := hfirst.unique hfirst'
    exact ⟨hpre, hpost, fun hlt => absurd hstart (by omega)⟩

theorem Pending.cut (h : Pending carve overlapOnlyRam l) (hfirst : First carve l pre map post)
    (hr : ¬ Refused overlapOnlyRam map) (hcut : Cut carve map entry n)
    (hstart : carve.physicalStart ≤ map.physicalStart) : Identity (pre ++ (entry ++ post)) := by
  obtain ⟨hpre, hpost, -⟩ := h.around hfirst
  have hmem : map ∈ l := by simp [hfirst.1]
  cases hcut with
  | deleted =>
    rw [List.nil_append, identity_append]
    exact ⟨hpre, hpost⟩
  | moved _ hstop => exact absurd (h.capped map hmem hfirst.2.2 hstop) hr
  | split hlt => omega

/-- Only the upper part of a split has another virtual address, and it is carved next. -/
theorem Pending.step (hc : carve.Valid) (h : Pending carve overlapOnlyRam l)
    (hstep : Step carve overlapOnlyRam l n l') : Pending carve overlapOnlyRam l' := by
  have hwf := (hstep.carved hc h.wellFormed).wellFormed
  cases hstep with
  | @mk pre post entry map n hpre hover hr hcut =>
    have hfirst : First carve (pre ++ map :: post) pre map post := ⟨rfl, hpre, hover⟩
    have hm : map.Valid := h.wellFormed.valid map (by simp)
    have hstop : map.stop ≤ carve.stop := not_lt.mp fun hlt => hr (h.capped map (by simp) hover hlt)
    have hcapped : ∀ d ∈ pre ++ (entry ++ post), (d ∈ entry → d.stop ≤ carve.stop) →
        Overlaps carve d → carve.stop < d.stop → Refused overlapOnlyRam d := by
      intro d hd hentry hd' hlt
      simp only [List.mem_append] at hd
      rcases hd with hd | hd | hd
      · exact h.capped d (by simp [hd]) hd' hlt
      · exact absurd (hentry hd) (by omega)
      · exact h.capped d (by simp [hd]) hd' hlt
    have hentry : ∀ d ∈ entry, d.stop ≤ carve.stop := by
      intro d hd
      have hin := (hcut.replaces hc hm hover).inside d hd
      rw [(hwf.valid d (by simp [hd])).stop_eq]
      rw [hm.stop_eq] at hstop
      exact hin.2.trans hstop
    refine ⟨hwf, fun d hd => hcapped d hd (hentry d), ?_⟩
    rcases Nat.lt_or_ge map.physicalStart carve.physicalStart with hlt | hge
    · -- the upper part is carved next
      obtain ⟨hipre, hipost, hid⟩ := h.around hfirst
      cases hcut with
      | deleted hstart => omega
      | moved hstart => omega
      | split =>
        refine Or.inr ⟨pre, _, _, ⟨rfl, hpre, (overlaps_upper hc hm hover).1⟩, hr, le_rfl, hipre, ?_⟩
        exact identity_cons.mpr ⟨hid hlt, hipost⟩
    · exact Or.inl (h.cut hfirst hr hcut hge)

theorem Pending.chain (hc : carve.Valid) (h : Pending carve overlapOnlyRam l)
    (hchain : Chain carve overlapOnlyRam l s l') : Pending carve overlapOnlyRam l' :=
  hchain.invariant _ (fun hl hstep => hl.step hc hstep) h

theorem Pending.done (h : Pending carve overlapOnlyRam l) (hapart : ∀ d ∈ l, ¬ Overlaps carve d) :
    Identity l := by
  rcases h.identity with hid | ⟨pre, d, post, hfirst, -⟩
  · exact hid
  · exact absurd hfirst.2.2 (hapart d (by simp [hfirst.1]))

theorem Pending.returned (hc : carve.Valid) (h : Pending carve overlapOnlyRam l)
    (hret : Returned carve overlapOnlyRam l l') : Identity l' := by
  obtain ⟨l1, s, hchain, ⟨rfl, hblocked⟩ | hmisread⟩ := hret
  · obtain ⟨pre, d, post, hfirst, hr⟩ := hblocked.first
    rcases (h.chain hc hchain).identity with hid | ⟨pre', d', post', hfirst', hr', -⟩
    · exact hid
    · obtain ⟨-, rfl, -⟩ := hfirst.unique hfirst'
      exact absurd hr hr'
  · obtain ⟨pre, map, post, entry, n, hfirst, rfl, hr, hcut, hstart⟩ := hmisread.first
    exact (h.chain hc hchain).cut hfirst hr hcut hstart

end Keeps

/-! ## Calls that lose it -/

section Loses

variable {carve d map : EfiMemDesc} {l l' pre post entry : List EfiMemDesc} {overlapOnlyRam : Bool} {n s : Int}

/-- The first descriptor to be carved reaches past the range. -/
def Losing (carve : EfiMemDesc) (overlapOnlyRam : Bool) (l : List EfiMemDesc) : Prop :=
  ∃ pre d post, First carve l pre d post ∧ ¬ Refused overlapOnlyRam d ∧ carve.stop < d.stop ∧
    d.virtualStart < carve.stop

/-- What is left of it starts at the end of the range. -/
def Lost (carve : EfiMemDesc) (l : List EfiMemDesc) : Prop :=
  ∃ d ∈ l, d.physicalStart = carve.stop ∧ d.virtualStart < carve.stop

theorem Lost.not_identity (h : Lost carve l) : ¬ Identity l := by
  obtain ⟨d, hd, hphys, hvirt⟩ := h
  intro hid
  have := hid d hd
  omega

theorem Lost.step (h : Lost carve l) (hstep : Step carve overlapOnlyRam l n l') : Lost carve l' := by
  cases hstep with
  | @mk pre post entry map n hpre hover hr hcut =>
    obtain ⟨d, hd, hphys, hvirt⟩ := h
    have hne : d ≠ map := by
      rintro rfl
      exact hover (Or.inl hphys.ge)
    refine ⟨d, ?_, hphys, hvirt⟩
    simp only [List.mem_append, List.mem_cons, hne, false_or] at hd
    simp only [List.mem_append]
    exact hd.imp_right Or.inr

theorem Losing.cut (h : Losing carve overlapOnlyRam l) (hfirst : First carve l pre map post)
    (hcut : Cut carve map entry n) (hstart : carve.physicalStart ≤ map.physicalStart) :
    Lost carve (pre ++ (entry ++ post)) := by
  obtain ⟨pre', d, post', hfirst', -, hstop, hvirt⟩ := h
  obtain ⟨rfl, rfl, rfl⟩ := hfirst.unique hfirst'
  cases hcut with
  | deleted _ hle => omega
  | moved =>
    refine ⟨{ map with physicalStart := carve.stop, numPages := (map.stop - carve.stop) / 4096 }, ?_, rfl, hvirt⟩
    simp
  | split hlt => omega

/-- The descriptor is split, and the upper part still reaches past the range, or it is moved. -/
theorem Losing.step (hc : carve.Valid) (hl : WellFormed l) (h : Losing carve overlapOnlyRam l)
    (hstep : Step carve overlapOnlyRam l n l') : Losing carve overlapOnlyRam l' ∨ Lost carve l' := by
  cases hstep with
  | @mk pre post entry map n hpre hover hr hcut =>
    have hfirst : First carve (pre ++ map :: post) pre map post := ⟨rfl, hpre, hover⟩
    rcases Nat.lt_or_ge map.physicalStart carve.physicalStart with hlt | hge
    · obtain ⟨pre', d, post', hfirst', hr', hstop, hvirt⟩ := h
      obtain ⟨rfl, rfl, rfl⟩ := hfirst.unique hfirst'
      cases hcut with
      | deleted hstart => omega
      | moved hstart => omega
      | split =>
        obtain ⟨hupper, hstop'⟩ := overlaps_upper hc (hl.valid map (by simp)) hover
        exact Or.inl ⟨pre, _, _, ⟨rfl, hpre, hupper⟩, hr', by omega, hvirt⟩
    · exact Or.inr (h.cut hfirst hcut hge)

theorem lost_or_losing_chain (hc : carve.Valid) (hl : WellFormed l) (h : Losing carve overlapOnlyRam l ∨ Lost carve l)
    (hchain : Chain carve overlapOnlyRam l s l') : Losing carve overlapOnlyRam l' ∨ Lost carve l' := by
  have hboth : WellFormed l' ∧ (Losing carve overlapOnlyRam l' ∨ Lost carve l') := by
    refine hchain.invariant (fun l => WellFormed l ∧ (Losing carve overlapOnlyRam l ∨ Lost carve l))
      (fun {l n l'} h hstep => ⟨(hstep.carved hc h.1).wellFormed, ?_⟩) ⟨hl, h⟩
    rcases h.2 with hlosing | hlost
    · exact hlosing.step hc h.1 hstep
    · exact Or.inr (hlost.step hstep)
  exact hboth.2

theorem lost_of_apart (h : Losing carve overlapOnlyRam l ∨ Lost carve l)
    (hapart : ∀ d ∈ l, ¬ Overlaps carve d) : Lost carve l := by
  rcases h with ⟨pre, d, post, hfirst, -⟩ | hlost
  · exact absurd hfirst.2.2 (hapart d (by simp [hfirst.1]))
  · exact hlost

theorem lost_of_returned (hc : carve.Valid) (hl : WellFormed l)
    (h : Losing carve overlapOnlyRam l) (hret : Returned carve overlapOnlyRam l l') :
    Lost carve l' := by
  obtain ⟨l1, s, hchain, ⟨rfl, hblocked⟩ | hmisread⟩ := hret
  · obtain ⟨pre, d, post, hfirst, hr⟩ := hblocked.first
    rcases lost_or_losing_chain hc hl (Or.inl h) hchain with ⟨pre', d', post', hfirst', hr', -⟩ | hlost
    · obtain ⟨-, rfl, -⟩ := hfirst.unique hfirst'
      exact absurd hr hr'
    · exact hlost
  · obtain ⟨n, hstep⟩ := hmisread.step
    obtain ⟨pre, map, post, entry, n, hfirst, rfl, hr, hcut, hstart⟩ := hmisread.first
    rcases lost_or_losing_chain hc hl (Or.inl h) hchain with hlosing | hlost
    · exact hlosing.cut hfirst hcut hstart
    · exact hlost.step hstep

end Loses

/-! ## Runs -/

section Runs

variable {l l' : List EfiMemDesc} {start pages memoryType ret : Nat} {overlapOnlyRam : Bool}

theorem identity_sort {d : EfiMemDesc} :
    Identity (efiMemSort (l ++ [d])) ↔ Identity l ∧ d.virtualStart = d.physicalStart := by
  have hmem : ∀ c, c ∈ efiMemSort (l ++ [d]) ↔ c ∈ l ++ [d] := fun c => (listSort_perm _ _).mem_iff
  unfold Identity
  simp only [hmem, List.mem_append, or_imp, forall_and, List.mem_singleton, forall_eq]

theorem identity_iff_capped (hl : WellFormed l) (hid : Identity l) (hc : (newDesc start pages memoryType).Valid)
    (hadd : Added (newDesc start pages memoryType) overlapOnlyRam l l' ret) :
    Identity l' ↔ Capped (newDesc start pages memoryType) overlapOnlyRam l := by
  constructor
  · intro hid'
    by_contra hcap
    unfold Capped at hcap
    push Not at hcap
    obtain ⟨d, hd, hover, hstop, hr⟩ := hcap
    obtain ⟨pre, post, hfirst⟩ := first_of_reaches hc hl hd hover hstop
    have hstart := ((hc.overlaps_iff (hl.valid d hd)).mp hover).1
    have hlosing : Losing (newDesc start pages memoryType) overlapOnlyRam l := by
      refine ⟨pre, d, post, hfirst, hr, hstop, ?_⟩
      rw [hid d hd, hc.stop_eq]
      exact hstart
    have hchain := fun {l s l'} => @lost_or_losing_chain _ l l' overlapOnlyRam s hc
    cases hadd with
    | returned h => exact (lost_of_returned hc hl hlosing h).not_identity hid'
    | short h hapart =>
      exact (lost_of_apart (hchain hl (Or.inl hlosing) h) hapart).not_identity hid'
    | added h hapart =>
      exact (lost_of_apart (hchain hl (Or.inl hlosing) h) hapart).not_identity (identity_sort.mp hid').1
  · intro hcap
    have hpending : Pending (newDesc start pages memoryType) overlapOnlyRam l := ⟨hl, hcap, Or.inl hid⟩
    cases hadd with
    | returned h => exact hpending.returned hc h
    | short h hapart => exact (hpending.chain hc h).done hapart
    | added h hapart => exact identity_sort.mpr ⟨(hpending.chain hc h).done hapart, rfl⟩

theorem Reach.mono {cond cond' : EfiMemDesc → Bool → List EfiMemDesc → Prop}
    (hcond : ∀ {carve overlapOnlyRam l}, cond carve overlapOnlyRam l → cond' carve overlapOnlyRam l)
    (h : Reach cond l) : Reach cond' l := by
  induction h with
  | empty => exact .empty
  | call _ hok hc hrun ih => exact .call ih hok (hcond hc) hrun

/-- No descriptor is freed under the walk, and none that is carved reaches past the range. -/
def KeepsIdentity (carve : EfiMemDesc) (overlapOnlyRam : Bool) (l : List EfiMemDesc) : Prop :=
  Safe carve overlapOnlyRam l ∧ Capped carve overlapOnlyRam l

theorem Reach.identity (h : Reach KeepsIdentity l) : Identity l := by
  induction h with
  | empty => exact fun d hd => nomatch hd
  | call hreach hok hcond hrun ih =>
    have hwf := (hreach.mono And.left).wellFormed
    have hadd := efiAddMemoryMap_added hok.nonempty hrun
    exact (identity_iff_capped hwf ih (newDesc_valid hok.aligned hok.nonempty hok.bound) hadd).mpr hcond.2

end Runs

/-- In every list that such calls make, each descriptor has its physical address as its virtual one. A further
call under which no descriptor is freed keeps this exactly when none that is carved reaches past the range. -/
theorem efi_memory_map_is_identity (l : List EfiMemDesc) (h : Reach KeepsIdentity l) :
    Identity l ∧ ∀ start pages memoryType overlapOnlyRam, CallOk start pages →
      Safe (newDesc start pages memoryType) overlapOnlyRam l →
      ∃ l' ret, efiAddMemoryMap l start pages memoryType overlapOnlyRam = some (l', ret) ∧
        (Identity l' ↔ Capped (newDesc start pages memoryType) overlapOnlyRam l) := by
  have hwf := (h.mono And.left).wellFormed
  refine ⟨h.identity, fun start pages memoryType overlapOnlyRam hok hsafe => ?_⟩
  obtain ⟨l', ret, hrun, -⟩ :=
    efiAddMemoryMap_spec hwf overlapOnlyRam hok.aligned hok.nonempty hok.bound hsafe
  refine ⟨l', ret, hrun, identity_iff_capped hwf h.identity ?_ (efiAddMemoryMap_added hok.nonempty hrun)⟩
  exact newDesc_valid hok.aligned hok.nonempty hok.bound

/-- Two pages are taken from the top of sixteen. -/
theorem efi_memory_map_is_identity_top :
    Reach KeepsIdentity [newDesc 0x100000 16 efiConventionalMemory] ∧
      ∃ l' ret, efiAddMemoryMap [newDesc 0x100000 16 efiConventionalMemory] 0x10e000 2 1 true =
        some (l', ret) ∧ Identity l' := by
  have hreach : Reach KeepsIdentity [newDesc 0x100000 16 efiConventionalMemory] :=
    .call .empty ⟨by decide, by decide, by decide⟩ ⟨trivial, fun _ hd => by cases hd⟩
      (efiAddMemoryMap_nil (by decide))
  have hfreed : ¬ FreedUnder (newDesc 0x10e000 2 1) (newDesc 0x100000 16 efiConventionalMemory) := by
    unfold FreedUnder
    decide
  obtain ⟨l', ret, hrun, hiff⟩ := (efi_memory_map_is_identity _ hreach).2 0x10e000 2 1 true
    ⟨by decide, by decide, by decide⟩ (Or.inr ⟨hfreed, trivial⟩)
  exact ⟨hreach, l', ret, hrun, hiff.mpr (by decide)⟩

/-- Four pages are taken from the bottom of sixteen: the rest keeps the virtual address `0x100000`. -/
theorem moved_descriptor_keeps_virtual_start :
    Reach (fun _ _ _ => True) [{ newDesc 0x104000 12 efiConventionalMemory with virtualStart := 0x100000 },
          newDesc 0x100000 4 1] ∧
      ¬ Identity [{ newDesc 0x104000 12 efiConventionalMemory with virtualStart := 0x100000 },
          newDesc 0x100000 4 1] := by
  have hreach : Reach (fun _ _ _ => True) [newDesc 0x100000 16 efiConventionalMemory] :=
    .call .empty ⟨by decide, by decide, by decide⟩ trivial (efiAddMemoryMap_nil (by decide))
  have hloop : carveLoop (newDesc 0x100000 4 1) true 3 [newDesc 0x100000 16 efiConventionalMemory] 0 =
      some ([{ newDesc 0x104000 12 efiConventionalMemory with virtualStart := 0x100000 }], some 4) := by
    decide +kernel
  have hrun : efiAddMemoryMap [newDesc 0x100000 16 efiConventionalMemory] 0x100000 4 1 true = _ :=
    efiAddMemoryMap_of_loop (by decide) hloop rfl
  rw [List.singleton_append, efiMemSort_pair (by decide)] at hrun
  refine ⟨.call hreach ⟨by decide, by decide, by decide⟩ trivial hrun, ?_⟩
  unfold Identity
  decide

end Armada3720.Efi
