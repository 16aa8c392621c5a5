import Armada3720.Efi.Memory
import Armada3720.Lib.Regions

/-!
# The memory list as a map from pages to types

In a well-formed list the descriptors are not empty and stand in descending order without overlaps. Carving
keeps it so and changes nothing outside of the range. `efi_mem_carve_out` returns the number of carved pages as
an `int`, and some numbers are read as return codes: the walk may then go on from a freed node (`FreedUnder`).
-/

namespace Armada3720.Efi

open Lib

def EfiMemDesc.length (d : EfiMemDesc) : Nat := d.numPages * 4096

/-- The descriptor does not wrap. -/
abbrev EfiMemDesc.Bounded (d : EfiMemDesc) : Prop := d.physicalStart + d.length < 2 ^ 64

/-- The descriptor covers whole pages, at least one, and does not wrap. -/
structure EfiMemDesc.Valid (d : EfiMemDesc) : Prop where
  aligned : d.physicalStart % 4096 = 0
  nonempty : d.numPages ≠ 0
  bound : d.Bounded

/-- The address is listed with this type and attribute. -/
def Lists (l : List EfiMemDesc) (x : Nat) (v : Nat × Nat) : Prop :=
  ∃ d ∈ l, Holds EfiMemDesc.physicalStart EfiMemDesc.length d x ∧ v = (d.type, d.attr)

/-- Descending and without overlaps. -/
abbrev Below (a b : EfiMemDesc) : Prop := b.physicalStart + b.length ≤ a.physicalStart

/-- The state of the list between two calls. -/
structure WellFormed (l : List EfiMemDesc) : Prop where
  valid : ∀ d ∈ l, d.Valid
  descending : l.Pairwise Below

theorem WellFormed.bounded {l : List EfiMemDesc} (h : WellFormed l) : ∀ d ∈ l, d.Bounded :=
  fun d hd => (h.valid d hd).bound

theorem EfiMemDesc.stop_of_bounded {d : EfiMemDesc} (h : d.Bounded) :
    d.stop = d.physicalStart + d.length := by
  unfold Bounded EfiMemDesc.length at *
  unfold EfiMemDesc.stop
  omega

theorem EfiMemDesc.Valid.stop_eq {d : EfiMemDesc} (h : d.Valid) :
    d.stop = d.physicalStart + d.length := stop_of_bounded h.bound

/-! ## Which descriptors stop the walk -/

section Stops

variable (carve : EfiMemDesc) (overlapOnlyRam : Bool)

def Overlaps (d : EfiMemDesc) : Prop :=
  ¬ (carve.stop ≤ d.physicalStart ∨ carve.physicalStart ≥ d.stop)

instance (d : EfiMemDesc) : Decidable (Overlaps carve d) := inferInstanceAs (Decidable (¬ _))

/-- The pages that the descriptor and the range have in common. -/
def commonPages (d : EfiMemDesc) : Nat :=
  (min carve.stop d.stop - max carve.physicalStart d.physicalStart) / 4096

/-- The descriptor is not RAM although it should be. -/
def Refused (d : EfiMemDesc) : Prop :=
  overlapOnlyRam = true ∧ d.type ≠ efiConventionalMemory

instance (d : EfiMemDesc) : Decidable (Refused overlapOnlyRam d) := inferInstanceAs (Decidable (_ ∧ _))

/-- The function returns 0 here, rightly or because it takes the number of pages for that code. -/
def ReturnsAt (d : EfiMemDesc) : Prop :=
  Overlaps carve d ∧ (Refused overlapOnlyRam d ∨ commonPages carve d % 2 ^ 32 = 2 ^ 32 - 3)

instance (d : EfiMemDesc) : Decidable (ReturnsAt carve overlapOnlyRam d) :=
  inferInstanceAs (Decidable (_ ∧ _))

/-- The descriptor is deleted, and the number of its pages is taken for the code that says that there was no
overlap. -/
def FreedUnder (d : EfiMemDesc) : Prop :=
  Overlaps carve d ∧ d.stop ≤ carve.stop ∧ commonPages carve d % 2 ^ 32 = 2 ^ 32 - 1

/-- No descriptor is freed under the walk before the function returns. -/
def Safe : List EfiMemDesc → Prop
  | [] => True
  | d :: rest => ReturnsAt carve overlapOnlyRam d ∨ ¬ FreedUnder carve d ∧ Safe rest

end Stops

theorem asInt_eq_noOverlap {x : Nat} : asInt x = efiCarveNoOverlap ↔ x % 2 ^ 32 = 2 ^ 32 - 1 := by
  unfold asInt efiCarveNoOverlap
  split <;> omega

theorem asInt_eq_nonram {x : Nat} : asInt x = efiCarveOverlapsNonram ↔ x % 2 ^ 32 = 2 ^ 32 - 3 := by
  unfold asInt efiCarveOverlapsNonram
  split <;> omega

/-! ## One descriptor -/

section Carve

variable {carve map : EfiMemDesc} {overlapOnlyRam : Bool} {x : Nat} {v : Nat × Nat}

/-- What `entry` may be in the place of `map`. -/
structure Replaces (carve map : EfiMemDesc) (entry : List EfiMemDesc) : Prop where
  valid : ∀ d ∈ entry, d.Valid
  descending : entry.Pairwise Below
  inside : ∀ d ∈ entry, Inside EfiMemDesc.physicalStart EfiMemDesc.length d map
  /-- Outside of the range nothing changes. -/
  outside : ∀ x v, ¬ Holds EfiMemDesc.physicalStart EfiMemDesc.length carve x →
    (Lists entry x v ↔ Lists [map] x v)

variable {d : EfiMemDesc}

theorem lists_singleton : Lists [d] x v ↔
    Holds EfiMemDesc.physicalStart EfiMemDesc.length d x ∧ v = (d.type, d.attr) := by
  unfold Lists
  simp

theorem lists_append {l l' : List EfiMemDesc} : Lists (l ++ l') x v ↔ Lists l x v ∨ Lists l' x v := by
  unfold Lists
  simp only [List.mem_append, or_and_right, exists_or]

/-- The cases of `efi_mem_carve_out`. -/
inductive CarveCase (carve map : EfiMemDesc) (overlapOnlyRam : Bool) : List EfiMemDesc × Int → Prop
  | apart (h : ¬ Overlaps carve map) : CarveCase carve map overlapOnlyRam ([map], efiCarveNoOverlap)
  | refused (h : Overlaps carve map) (hr : Refused overlapOnlyRam map) :
      CarveCase carve map overlapOnlyRam ([map], efiCarveOverlapsNonram)
  | deleted (h : Overlaps carve map) (hr : ¬ Refused overlapOnlyRam map)
      (hstart : carve.physicalStart ≤ map.physicalStart) (hstop : map.stop ≤ carve.stop) :
      CarveCase carve map overlapOnlyRam ([], asInt (commonPages carve map))
  | moved (h : Overlaps carve map) (hr : ¬ Refused overlapOnlyRam map)
      (hstart : carve.physicalStart ≤ map.physicalStart) (hstop : carve.stop < map.stop) :
      CarveCase carve map overlapOnlyRam
        ([{ map with physicalStart := carve.stop, numPages := (map.stop - carve.stop) / 4096 }],
          asInt (commonPages carve map))
  | split (h : Overlaps carve map) (hr : ¬ Refused overlapOnlyRam map)
      (hstart : map.physicalStart < carve.physicalStart) :
      CarveCase carve map overlapOnlyRam
        ([{ map with physicalStart := carve.physicalStart
                     numPages := (map.stop - carve.physicalStart) / 4096 },
          { map with numPages := (carve.physicalStart - map.physicalStart) / 4096 }],
          efiCarveLoopAgain)

theorem carveCase (carve map : EfiMemDesc) (overlapOnlyRam : Bool) :
    CarveCase carve map overlapOnlyRam (efiMemCarveOut map carve overlapOnlyRam) := by
  unfold efiMemCarveOut
  simp only
  split
  · next h => exact .apart (not_not.mpr h)
  next h =>
  split
  · next hr => exact .refused h hr
  next hr =>
  split
  · next hstart =>
    have hle : carve.physicalStart ≤ map.physicalStart := by omega
    have hcommon : (min carve.stop map.stop - max carve.physicalStart map.physicalStart) / 4096 =
        commonPages carve map := rfl
    rw [hcommon]
    split
    · next hend => exact .deleted h hr hle (by omega)
    · next hend =>
      have hmin : min carve.stop map.stop = carve.stop := by omega
      rw [hmin]
      exact .moved h hr hle (by omega)
  · next hstart =>
    have hmax : max carve.physicalStart map.physicalStart = carve.physicalStart := by omega
    rw [hmax]
    exact .split h hr (by omega)

theorem EfiMemDesc.Valid.stop_mod (h : d.Valid) : d.stop % 4096 = 0 := by
  have := h.aligned
  rw [h.stop_eq]
  unfold EfiMemDesc.length
  omega

theorem valid_part (map : EfiMemDesc) {lo hi : Nat} (hlo : lo % 4096 = 0)
    (hhi : hi % 4096 = 0) (hlt : lo < hi) (hbound : hi < 2 ^ 64) :
    EfiMemDesc.Valid { map with physicalStart := lo, numPages := (hi - lo) / 4096 } ∧
      lo + EfiMemDesc.length { map with physicalStart := lo, numPages := (hi - lo) / 4096 } = hi := by
  have hlen : EfiMemDesc.length { map with physicalStart := lo, numPages := (hi - lo) / 4096 } =
      hi - lo := by
    unfold EfiMemDesc.length
    simp only
    omega
  refine ⟨⟨hlo, ?_, ?_⟩, ?_⟩
  · simp only
    omega
  · unfold EfiMemDesc.Bounded
    simp only
    omega
  · omega

theorem EfiMemDesc.Valid.overlaps_iff (hc : carve.Valid) (hd : d.Valid) :
    Overlaps carve d ↔ d.physicalStart < carve.physicalStart + carve.length ∧
      carve.physicalStart < d.physicalStart + d.length := by
  unfold Overlaps
  rw [hc.stop_eq, hd.stop_eq]
  omega

theorem replaces_self (h : map.Valid) : Replaces carve map [map] := by
  refine ⟨?_, List.pairwise_singleton _ _, ?_, fun _ _ _ => Iff.rfl⟩
  · intro d hd
    rw [List.mem_singleton] at hd
    exact hd ▸ h
  · intro d hd
    rw [List.mem_singleton] at hd
    subst hd
    exact ⟨le_rfl, le_rfl⟩

/-- A descriptor that is split at a page has the same addresses as its two parts. -/
theorem replaces_split {cut : Nat} (hm : map.Valid) (hcut : cut % 4096 = 0) (hlo : map.physicalStart < cut)
    (hhi : cut < map.stop) :
    Replaces carve map
      [{ map with physicalStart := cut, numPages := (map.stop - cut) / 4096 },
        { map with numPages := (cut - map.physicalStart) / 4096 }] := by
  have hbound := hm.bound
  have hs := hm.stop_eq
  obtain ⟨hv, hlen⟩ := valid_part map hcut hm.stop_mod hhi (by omega)
  obtain ⟨hv', hlen'⟩ := valid_part map hm.aligned hcut hlo (by omega)
  refine ⟨fun d hd => ?_, List.pairwise_pair.mpr hlen'.le, fun d hd => ?_, fun x v hx => ?_⟩
  · rcases List.mem_pair.mp hd with rfl | rfl
    · exact hv
    · exact hv'
  · rcases List.mem_pair.mp hd with rfl | rfl
    · unfold Inside
      simp only
      omega
    · unfold Inside
      simp only
      omega
  · rw [← List.singleton_append, lists_append, lists_singleton, lists_singleton, lists_singleton, ← or_and_right]
    refine and_congr_left fun _ => ?_
    unfold Holds
    simp only
    omega

theorem replaces_nil (hc : carve.Valid) (hm : map.Valid) (hstart : carve.physicalStart ≤ map.physicalStart)
    (hstop : map.stop ≤ carve.stop) : Replaces carve map [] := by
  refine ⟨by simp, .nil, by simp, fun x v hx => ?_⟩
  rw [lists_singleton]
  refine iff_of_false (by rintro ⟨d, hd, -⟩; cases hd) fun hl => hx ?_
  rw [hm.stop_eq, hc.stop_eq] at hstop
  have := hl.1
  unfold Holds at this ⊢
  omega

theorem replaces_moved (hc : carve.Valid) (hm : map.Valid) (h : Overlaps carve map)
    (hstart : carve.physicalStart ≤ map.physicalStart) (hstop : carve.stop < map.stop) :
    Replaces carve map
      [{ map with physicalStart := carve.stop, numPages := (map.stop - carve.stop) / 4096 }] := by
  have hbound := hm.bound
  have hs := hm.stop_eq
  have hcs := hc.stop_eq
  obtain ⟨hv, hlen⟩ := valid_part map hc.stop_mod hm.stop_mod hstop (by omega)
  have hover := (hc.overlaps_iff hm).mp h
  refine ⟨by simpa using hv, List.pairwise_singleton _ _, fun d hd => ?_, fun x v hx => ?_⟩
  · rw [List.mem_singleton] at hd
    subst hd
    unfold Inside
    simp only
    omega
  · rw [lists_singleton, lists_singleton]
    refine and_congr_left fun _ => ?_
    unfold Holds at hx ⊢
    simp only
    omega

end Carve

/-! ## The whole list -/

section List

variable {carve map : EfiMemDesc} {overlapOnlyRam : Bool} {l l' rest rest' entry : List EfiMemDesc}

/-- What the list may become while the range is carved out of it. -/
structure Carved (carve : EfiMemDesc) (l l' : List EfiMemDesc) : Prop where
  wellFormed : WellFormed l'
  inside : ∀ d' ∈ l', ∃ d ∈ l, Inside EfiMemDesc.physicalStart EfiMemDesc.length d' d
  outside : ∀ x v, ¬ Holds EfiMemDesc.physicalStart EfiMemDesc.length carve x →
    (Lists l' x v ↔ Lists l x v)

theorem Carved.refl (h : WellFormed l) : Carved carve l l :=
  ⟨h, fun d hd => ⟨d, hd, le_rfl, le_rfl⟩, fun _ _ _ => Iff.rfl⟩

theorem Carved.trans {l'' : List EfiMemDesc} (h : Carved carve l l') (h' : Carved carve l' l'') :
    Carved carve l l'' := by
  refine ⟨h'.wellFormed, fun d hd => ?_, fun x v hx => (h'.outside x v hx).trans (h.outside x v hx)⟩
  obtain ⟨d', hd', hin'⟩ := h'.inside d hd
  obtain ⟨d'', hd'', hin⟩ := h.inside d' hd'
  exact ⟨d'', hd'', hin.1.trans hin'.1, hin'.2.trans hin.2⟩

theorem WellFormed.tail (h : WellFormed (map :: rest)) : map.Valid ∧ WellFormed rest :=
  ⟨h.valid map (List.mem_cons_self ..), fun d hd => h.valid d (List.mem_cons_of_mem _ hd),
    (List.pairwise_cons.mp h.descending).2⟩

theorem Carved.cons (h : WellFormed (map :: rest)) (hentry : Replaces carve map entry)
    (hrest : Carved carve rest rest') : Carved carve (map :: rest) (entry ++ rest') := by
  have hbelow := (List.pairwise_cons.mp h.descending).1
  refine ⟨⟨fun d hd => ?_, List.pairwise_append.mpr ⟨hentry.descending,
    hrest.wellFormed.descending, fun a ha b hb => ?_⟩⟩, fun d hd => ?_, fun x v hx => ?_⟩
  · rcases List.mem_append.mp hd with hd | hd
    · exact hentry.valid d hd
    · exact hrest.wellFormed.valid d hd
  · obtain ⟨c, hc, hin⟩ := hrest.inside b hb
    have h1 := hbelow c hc
    have h2 := hentry.inside a ha
    unfold Inside at hin h2
    omega
  · rcases List.mem_append.mp hd with hd | hd
    · exact ⟨map, List.mem_cons_self .., hentry.inside d hd⟩
    · obtain ⟨c, hc, hin⟩ := hrest.inside d hd
      exact ⟨c, List.mem_cons_of_mem _ hc, hin⟩
  · rw [lists_append, hentry.outside x v hx, hrest.outside x v hx, ← lists_append]
    rfl

end List

/-! ## The whole call -/

section Add

variable {l : List EfiMemDesc} {start pages memoryType : Nat}

theorem efiMemCmp_le {a b : EfiMemDesc} : efiMemCmp a b ≤ 0 ↔ b.physicalStart ≤ a.physicalStart := by
  unfold efiMemCmp
  split <;> [skip; split] <;> omega

theorem wellFormed_sort (hvalid : ∀ d ∈ l, d.Valid)
    (hapart : l.Pairwise (Apart EfiMemDesc.physicalStart EfiMemDesc.length)) :
    WellFormed (efiMemSort l) := by
  have hperm : (efiMemSort l).Perm l := listSort_perm _ l
  have hmem : ∀ d ∈ efiMemSort l, d.Valid := fun d hd => hvalid d (hperm.mem_iff.mp hd)
  refine ⟨hmem, ?_⟩
  have hsorted := pairwise_listSort (fun a b => decide (efiMemCmp a b ≤ 0))
    (fun a b c hab hbc => by simp only [decide_eq_true_eq, efiMemCmp_le] at *; omega)
    (fun a b => by simp only [Bool.or_eq_true, decide_eq_true_eq, efiMemCmp_le]; omega) l
  have hdisj : (efiMemSort l).Pairwise (Apart EfiMemDesc.physicalStart EfiMemDesc.length) :=
    (hperm.pairwise_iff fun {_ _} h => h.symm).mpr hapart
  refine (hsorted.and hdisj).imp_of_mem fun {a b} ha hb hab => ?_
  obtain ⟨hle, hab⟩ := hab
  simp only [decide_eq_true_eq, efiMemCmp_le] at hle
  have h1 := (hmem a ha).nonempty
  unfold Apart at hab
  unfold Below
  unfold EfiMemDesc.length at *
  omega

theorem Carved.added {carve : EfiMemDesc} {l' : List EfiMemDesc} (hc : carve.Valid)
    (h : Carved carve l l') (hapart : ∀ d ∈ l', ¬ Overlaps carve d) :
    WellFormed (efiMemSort (l' ++ [carve])) ∧ ∀ x v, Lists (efiMemSort (l' ++ [carve])) x v ↔
      if Holds EfiMemDesc.physicalStart EfiMemDesc.length carve x then v = (carve.type, carve.attr)
      else Lists l x v := by
  have hend : ∀ d ∈ l', ¬ (d.physicalStart < carve.physicalStart + carve.length ∧
      carve.physicalStart < d.physicalStart + d.length) := fun d hd =>
    (hc.overlaps_iff (h.wellFormed.valid d hd)).not.mp (hapart d hd)
  refine ⟨wellFormed_sort (fun d hd => ?_) ?_, fun x v => ?_⟩
  · rcases List.mem_append.mp hd with hd | hd
    · exact h.wellFormed.valid d hd
    · rw [List.mem_singleton] at hd
      exact hd ▸ hc
  · refine List.pairwise_append.mpr ⟨h.wellFormed.descending.imp fun {a b} hab => Or.inr hab,
      List.pairwise_singleton _ _, fun a ha b hb => ?_⟩
    rw [List.mem_singleton] at hb
    subst hb
    have := hend a ha
    unfold Apart
    omega
  · have hsort : Lists (efiMemSort (l' ++ [carve])) x v ↔ Lists (l' ++ [carve]) x v :=
      exists_congr fun d => and_congr_left fun _ => (listSort_perm _ _).mem_iff
    rw [hsort, lists_append, lists_singleton]
    split
    · next hin =>
      have hnot : ¬ Lists l' x v := by
        rintro ⟨d, hd, hx, -⟩
        have := hend d hd
        unfold Holds at hx hin
        omega
      rw [or_iff_right hnot]
      exact and_iff_right hin
    · next hout =>
      rw [or_iff_left fun hnew => hout hnew.1]
      exact h.outside x v hout

theorem newDesc_valid (haligned : start % 4096 = 0) (hpages : pages ≠ 0)
    (hbound : start + pages * 4096 < 2 ^ 64) : (newDesc start pages memoryType).Valid :=
  ⟨haligned, hpages, hbound⟩

end Add

end Armada3720.Efi
