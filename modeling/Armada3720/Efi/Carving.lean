import Armada3720.Efi.MemoryMap

/-!
# The cuts that the carving loop makes

`efi_add_memory_map` goes over the list until a pass finds nothing to carve. On the way it makes a chain of
cuts: the first descriptor that overlaps the range is deleted, moved or split (`carveLoop_chain`). What a cut
keeps, the loop keeps.
-/

namespace Armada3720.Efi

open Lib

/-- What the loop adds to `carved_pages` for a return value of `efi_mem_carve_out`. -/
def counted (r : Int) : Int :=
  if r = efiCarveNoOverlap ∨ r = efiCarveLoopAgain ∨ r = efiCarveOverlapsNonram then 0 else r

/-- What takes the place of `map`, and how many pages are counted for it. -/
inductive Cut (carve map : EfiMemDesc) : List EfiMemDesc → Int → Prop
  | deleted (hstart : carve.physicalStart ≤ map.physicalStart) (hstop : map.stop ≤ carve.stop) :
      Cut carve map [] (counted (asInt (commonPages carve map)))
  | moved (hstart : carve.physicalStart ≤ map.physicalStart) (hstop : carve.stop < map.stop) :
      Cut carve map [{ map with physicalStart := carve.stop, numPages := (map.stop - carve.stop) / 4096 }]
        (counted (asInt (commonPages carve map)))
  | split (hstart : map.physicalStart < carve.physicalStart) :
      Cut carve map
        [{ map with physicalStart := carve.physicalStart
                    numPages := (map.stop - carve.physicalStart) / 4096 },
          { map with numPages := (carve.physicalStart - map.physicalStart) / 4096 }] 0

/-- The first descriptor that overlaps the range is cut. -/
inductive Step (carve : EfiMemDesc) (overlapOnlyRam : Bool) :
    List EfiMemDesc → Int → List EfiMemDesc → Prop
  | mk {pre post entry : List EfiMemDesc} {map : EfiMemDesc} {n : Int}
      (hpre : ∀ d ∈ pre, ¬ Overlaps carve d) (h : Overlaps carve map)
      (hr : ¬ Refused overlapOnlyRam map) (hcut : Cut carve map entry n) :
      Step carve overlapOnlyRam (pre ++ map :: post) n (pre ++ (entry ++ post))

/-- Cuts one after the other, and the pages counted for all of them. -/
inductive Chain (carve : EfiMemDesc) (overlapOnlyRam : Bool) :
    List EfiMemDesc → Int → List EfiMemDesc → Prop
  | refl (l : List EfiMemDesc) : Chain carve overlapOnlyRam l 0 l
  | head {l l' l'' : List EfiMemDesc} {n s : Int} (h : Step carve overlapOnlyRam l n l')
      (hrest : Chain carve overlapOnlyRam l' s l'') : Chain carve overlapOnlyRam l (n + s) l''

/-- The first descriptor that overlaps the range is not RAM although it should be. -/
def Blocked (carve : EfiMemDesc) (overlapOnlyRam : Bool) (l : List EfiMemDesc) : Prop :=
  ∃ pre d post, l = pre ++ d :: post ∧ (∀ d ∈ pre, ¬ Overlaps carve d) ∧ Overlaps carve d ∧
    Refused overlapOnlyRam d

/-- The number of pages of the last cut was taken for the code that says that it is not RAM. -/
def Misread (carve : EfiMemDesc) (overlapOnlyRam : Bool) (l l' : List EfiMemDesc) : Prop :=
  ∃ pre map post entry n, l = pre ++ map :: post ∧ l' = pre ++ (entry ++ post) ∧
    (∀ d ∈ pre, ¬ Overlaps carve d) ∧ Overlaps carve map ∧ ¬ Refused overlapOnlyRam map ∧
    Cut carve map entry n ∧ carve.physicalStart ≤ map.physicalStart ∧
    commonPages carve map % 2 ^ 32 = 2 ^ 32 - 3

section Chain

variable {carve map d : EfiMemDesc} {overlapOnlyRam : Bool}
  {l l' l'' pre post entry rest : List EfiMemDesc} {n s s' : Int}

theorem Chain.single (h : Step carve overlapOnlyRam l n l') : Chain carve overlapOnlyRam l n l' := by
  have := Chain.head h (.refl l')
  rwa [Int.add_zero] at this

theorem Chain.trans (h : Chain carve overlapOnlyRam l s l')
    (h' : Chain carve overlapOnlyRam l' s' l'') : Chain carve overlapOnlyRam l (s + s') l'' := by
  induction h with
  | refl l => rwa [Int.zero_add]
  | head hstep _ ih =>
    rw [Int.add_assoc]
    exact .head hstep (ih h')

theorem Chain.invariant (Inv : List EfiMemDesc → Prop)
    (hstep : ∀ {l n l'}, Inv l → Step carve overlapOnlyRam l n l' → Inv l')
    (h : Chain carve overlapOnlyRam l s l') (hl : Inv l) : Inv l' := by
  induction h with
  | refl l => exact hl
  | head h _ ih => exact ih (hstep hl h)

section

variable (hpre : ∀ d ∈ entry, ¬ Overlaps carve d)
include hpre

theorem Step.behind (h : Step carve overlapOnlyRam l n l') :
    Step carve overlapOnlyRam (entry ++ l) n (entry ++ l') := by
  cases h with
  | mk hpre' h hr hcut =>
    rw [← List.append_assoc, ← List.append_assoc]
    refine .mk (fun d hd => ?_) h hr hcut
    rcases List.mem_append.mp hd with hd | hd
    · exact hpre d hd
    · exact hpre' d hd

theorem Chain.behind (h : Chain carve overlapOnlyRam l s l') :
    Chain carve overlapOnlyRam (entry ++ l) s (entry ++ l') := by
  induction h with
  | refl l => exact .refl _
  | head hstep _ ih => exact .head (hstep.behind hpre) ih

theorem Blocked.behind (h : Blocked carve overlapOnlyRam l) :
    Blocked carve overlapOnlyRam (entry ++ l) := by
  obtain ⟨pre, d, post, rfl, hpre', hd, hr⟩ := h
  refine ⟨entry ++ pre, d, post, (List.append_assoc ..).symm, fun c hc => ?_, hd, hr⟩
  rcases List.mem_append.mp hc with hc | hc
  · exact hpre c hc
  · exact hpre' c hc

theorem Misread.behind (h : Misread carve overlapOnlyRam l l') :
    Misread carve overlapOnlyRam (entry ++ l) (entry ++ l') := by
  obtain ⟨pre, map, post, entry', n, rfl, rfl, hpre', h⟩ := h
  refine ⟨entry ++ pre, map, post, entry', n, (List.append_assoc ..).symm,
    (List.append_assoc ..).symm, fun c hc => ?_, h⟩
  rcases List.mem_append.mp hc with hc | hc
  · exact hpre c hc
  · exact hpre' c hc

end

theorem Misread.step (h : Misread carve overlapOnlyRam l l') :
    ∃ n, Step carve overlapOnlyRam l n l' := by
  obtain ⟨pre, map, post, entry, n, rfl, rfl, hpre, hmap, hr, hcut, -⟩ := h
  exact ⟨n, .mk hpre hmap hr hcut⟩

/-- The chain before the function returns 0, and why it does. -/
def Returned (carve : EfiMemDesc) (overlapOnlyRam : Bool) (l l' : List EfiMemDesc) : Prop :=
  ∃ l1 s, Chain carve overlapOnlyRam l s l1 ∧
    (l' = l1 ∧ Blocked carve overlapOnlyRam l1 ∨ Misread carve overlapOnlyRam l1 l')

theorem Returned.behind (hpre : ∀ d ∈ entry, ¬ Overlaps carve d) (h : Returned carve overlapOnlyRam l l') :
    Returned carve overlapOnlyRam (entry ++ l) (entry ++ l') := by
  obtain ⟨l1, s, hchain, ⟨rfl, hb⟩ | hm⟩ := h
  · exact ⟨_, s, hchain.behind hpre, Or.inl ⟨rfl, hb.behind hpre⟩⟩
  · exact ⟨_, s, hchain.behind hpre, Or.inr (hm.behind hpre)⟩

theorem Returned.after (h : Chain carve overlapOnlyRam l s l')
    (h' : Returned carve overlapOnlyRam l' l'') : Returned carve overlapOnlyRam l l'' := by
  obtain ⟨l1, s', hchain, hwhy⟩ := h'
  exact ⟨l1, s + s', h.trans hchain, hwhy⟩

/-- What is left of a descriptor lies in it, wherever the range starts and ends. -/
theorem Cut.inside (hm : map.Bounded) (h : Overlaps carve map) (hcut : Cut carve map entry n) :
    ∀ d ∈ entry, Inside EfiMemDesc.physicalStart EfiMemDesc.length d map := by
  have hs := EfiMemDesc.stop_of_bounded hm
  unfold Overlaps at h
  unfold Inside EfiMemDesc.length at *
  intro d hd
  cases hcut with
  | deleted => cases hd
  | moved =>
    rw [List.mem_singleton] at hd
    subst hd
    dsimp only
    omega
  | split =>
    rcases List.mem_pair.mp hd with rfl | rfl
    · dsimp only
      omega
    · dsimp only
      omega

theorem overlaps_upper (hc : carve.Valid) (hm : map.Valid) (h : Overlaps carve map) :
    Overlaps carve { map with physicalStart := carve.physicalStart
                              numPages := (map.stop - carve.physicalStart) / 4096 } ∧
      EfiMemDesc.stop { map with physicalStart := carve.physicalStart
                                 numPages := (map.stop - carve.physicalStart) / 4096 } = map.stop := by
  have hover := (hc.overlaps_iff hm).mp h
  have hbound := hm.bound
  have hs := hm.stop_eq
  obtain ⟨hv, hlen⟩ := valid_part map hc.aligned hm.stop_mod (by omega) (by omega)
  rw [hc.overlaps_iff hv, hv.stop_eq]
  refine ⟨⟨?_, ?_⟩, hlen⟩
  · have := hc.nonempty
    unfold EfiMemDesc.length
    simp only
    omega
  · rw [hlen]
    omega

theorem stop_eq_mod : d.stop = (d.physicalStart + d.numPages * 4096) % 2 ^ 64 := Nat.add_mod_mod ..

theorem commonPages_upper (hm : map.Bounded) (h : Overlaps carve map)
    (hlt : map.physicalStart < carve.physicalStart) :
    commonPages carve { map with physicalStart := carve.physicalStart
                                 numPages := (map.stop - carve.physicalStart) / 4096 } =
      commonPages carve map := by
  have hup := ((Cut.split hlt).inside hm h _ (List.mem_cons_self ..)).2.trans_lt hm
  -- the range ends whole pages behind its start, also where it wraps
  have hstop : carve.stop = (carve.physicalStart + carve.numPages * 4096) % 2 ^ 64 := stop_eq_mod
  unfold commonPages
  rw [EfiMemDesc.stop_of_bounded hup]
  unfold Overlaps at h
  unfold EfiMemDesc.length
  dsimp only
  omega

/-! ## How often the loop starts over -/

/-- The weight of a descriptor: the number of times that it makes the loop start over. -/
def weight (carve d : EfiMemDesc) : Nat :=
  if Overlaps carve d then if d.physicalStart < carve.physicalStart then 2 else 1 else 0

theorem weight_eq_zero (h : ¬ Overlaps carve d) : weight carve d = 0 := if_neg h

/-- The number of times that the loop can start over. -/
def totalWeight (carve : EfiMemDesc) (l : List EfiMemDesc) : Nat := (l.map (weight carve)).sum

theorem totalWeight_append : totalWeight carve (l ++ l') = totalWeight carve l + totalWeight carve l' := by
  unfold totalWeight
  rw [List.map_append, List.sum_append]

theorem totalWeight_le : totalWeight carve l ≤ 2 * l.length := by
  unfold totalWeight
  induction l with
  | nil => exact le_rfl
  | cons d l ih =>
    have hd : weight carve d ≤ 2 := by
      unfold weight
      split
      · split <;> decide
      · decide
    simp only [List.map_cons, List.sum_cons, List.length_cons]
    omega

theorem totalWeight_of_apart (h : ∀ d ∈ l, ¬ Overlaps carve d) : totalWeight carve l = 0 := by
  refine List.sum_eq_zero fun w hw => ?_
  obtain ⟨d, hd, rfl⟩ := List.mem_map.mp hw
  exact weight_eq_zero (h d hd)

theorem not_overlaps_lower (hlt : map.physicalStart < carve.physicalStart) : ¬ Overlaps carve
    { map with numPages := (carve.physicalStart - map.physicalStart) / 4096 } := by
  unfold Overlaps EfiMemDesc.stop
  dsimp only
  omega

theorem Cut.less (h : Overlaps carve map) (hcut : Cut carve map entry n) :
    totalWeight carve entry < weight carve map := by
  have hpos : 0 < weight carve map := by
    unfold weight
    rw [if_pos h]
    split <;> decide
  cases hcut with
  | deleted => exact hpos
  | moved => rwa [totalWeight_of_apart (by simp [Overlaps])]
  | split hlt =>
    simp only [totalWeight, List.map_cons, List.map_nil, List.sum_cons, List.sum_nil,
      weight_eq_zero (not_overlaps_lower hlt)]
    unfold weight
    rw [if_pos h, if_pos hlt, if_neg (lt_irrefl _)]
    split <;> decide

theorem Cut.less_append (h : Overlaps carve map) (hcut : Cut carve map entry n) :
    totalWeight carve (entry ++ rest) < totalWeight carve (map :: rest) := by
  rw [totalWeight_append]
  exact Nat.add_lt_add_right (hcut.less h) _

theorem safe_append (h : ∀ d ∈ entry, ¬ Overlaps carve d) (hrest : Safe carve overlapOnlyRam rest) :
    Safe carve overlapOnlyRam (entry ++ rest) := by
  induction entry with
  | nil => exact hrest
  | cons d entry ih =>
    rw [List.forall_mem_cons] at h
    exact Or.inr ⟨fun hf => h.1 hf.1, ih h.2⟩

theorem not_returnsAt (hr : ¬ Refused overlapOnlyRam map)
    (h : asInt (commonPages carve map) ≠ efiCarveOverlapsNonram) :
    ¬ ReturnsAt carve overlapOnlyRam map := by
  rintro ⟨-, hc | hc⟩
  · exact hr hc
  · exact h (asInt_eq_nonram.mpr hc)

theorem safe_split (hc : carve.Valid) (hm : map.Valid) (h : Overlaps carve map) (hr : ¬ Refused overlapOnlyRam map)
    (hlt : map.physicalStart < carve.physicalStart) (hsafe : Safe carve overlapOnlyRam (map :: rest)) :
    Safe carve overlapOnlyRam ({ map with physicalStart := carve.physicalStart
                                          numPages := (map.stop - carve.physicalStart) / 4096 } ::
      { map with numPages := (carve.physicalStart - map.physicalStart) / 4096 } :: rest) := by
  obtain ⟨hhigh, hstop⟩ := overlaps_upper hc hm h
  have hcommon := commonPages_upper hm.bound h hlt
  rcases hsafe with hret | ⟨hfreed, hrest⟩
  · refine Or.inl ⟨hhigh, Or.inr ?_⟩
    rw [hcommon]
    exact hret.2.resolve_left hr
  · refine Or.inr ⟨fun hf => hfreed ⟨h, ?_, ?_⟩, Or.inr ⟨fun hf => not_overlaps_lower hlt hf.1, hrest⟩⟩
    · rw [← hstop]
      exact hf.2.1
    · rw [← hcommon]
      exact hf.2.2

/-! ## One pass over the list -/

/-- How a pass ends. A safe list frees nothing under the walk, and stays safe when the loop starts over. -/
def WalkChain (carve : EfiMemDesc) (overlapOnlyRam : Bool) (l : List EfiMemDesc) : Walk → Prop
  | .freed => ¬ Safe carve overlapOnlyRam l
  | .nonram l' => Returned carve overlapOnlyRam l l'
  | .again l' r => Chain carve overlapOnlyRam l r l' ∧ totalWeight carve l' < totalWeight carve l ∧
      (carve.Valid → (∀ d ∈ l, d.Valid) → Safe carve overlapOnlyRam l → Safe carve overlapOnlyRam l')
  | .done l' => Chain carve overlapOnlyRam l 0 l' ∧ ∀ d ∈ l', ¬ Overlaps carve d

/-- The walk goes on behind a descriptor. -/
theorem WalkChain.over {w : Walk} (hchain : Chain carve overlapOnlyRam (map :: rest) 0 (entry ++ rest))
    (hapart : ∀ d ∈ entry, ¬ Overlaps carve d) (hret : ¬ ReturnsAt carve overlapOnlyRam map)
    (h : WalkChain carve overlapOnlyRam rest w) :
    WalkChain carve overlapOnlyRam (map :: rest) (w.behind entry) := by
  have hsafe : Safe carve overlapOnlyRam (map :: rest) → Safe carve overlapOnlyRam rest :=
    fun hs => (hs.resolve_left hret).2
  cases w with
  | freed => exact fun hs => h (hsafe hs)
  | nonram l' => exact (h.behind hapart).after hchain
  | again l' r =>
    obtain ⟨hrest, hless, hkeeps⟩ := h
    refine ⟨?_, ?_, fun hc hl hs => ?_⟩
    · have := hchain.trans (hrest.behind hapart)
      rwa [Int.zero_add] at this
    · rw [totalWeight_append, totalWeight_of_apart hapart, Nat.zero_add]
      exact hless.trans_le (Nat.le_add_left ..)
    · exact safe_append hapart (hkeeps hc (fun d hd => hl d (List.mem_cons_of_mem _ hd)) (hsafe hs))
  | done l' =>
    refine ⟨hchain.trans (h.1.behind hapart), fun d hd => ?_⟩
    rcases List.mem_append.mp hd with hd | hd
    · exact hapart d hd
    · exact h.2 d hd

theorem Step.first (h : Overlaps carve map) (hr : ¬ Refused overlapOnlyRam map)
    (hcut : Cut carve map entry n) : Step carve overlapOnlyRam (map :: rest) n (entry ++ rest) := by
  have hpre : ∀ d ∈ ([] : List EfiMemDesc), ¬ Overlaps carve d := by simp
  exact .mk hpre h hr hcut

theorem walkChain_cut (h : Overlaps carve map) (hr : ¬ Refused overlapOnlyRam map)
    (hstart : carve.physicalStart ≤ map.physicalStart)
    (hcut : Cut carve map entry (counted (asInt (commonPages carve map))))
    (hapart : ∀ d ∈ entry, ¬ Overlaps carve d) (hfreed : entry = [] → map.stop ≤ carve.stop) {w : Walk}
    (hrest : WalkChain carve overlapOnlyRam rest w) :
    WalkChain carve overlapOnlyRam (map :: rest)
      (if asInt (commonPages carve map) = efiCarveOverlapsNonram then .nonram (entry ++ rest)
        else if asInt (commonPages carve map) = efiCarveNoOverlap then
          if entry = [] then .freed else w.behind entry
        else if asInt (commonPages carve map) = efiCarveLoopAgain then .again (entry ++ rest) 0
        else .again (entry ++ rest) (asInt (commonPages carve map))) := by
  have hstep : Step carve overlapOnlyRam (map :: rest) _ (entry ++ rest) := .first h hr hcut
  have hless : totalWeight carve (entry ++ rest) < totalWeight carve (map :: rest) := hcut.less_append h
  split
  · next hcode =>
    exact ⟨_, 0, .refl _, Or.inr ⟨[], map, rest, entry, _, rfl, rfl, by simp, h, hr, hcut, hstart,
      asInt_eq_nonram.mp hcode⟩⟩
  next hnonram =>
  have hret := not_returnsAt hr hnonram
  have hsafe : carve.Valid → (∀ d ∈ map :: rest, d.Valid) → Safe carve overlapOnlyRam (map :: rest) →
      Safe carve overlapOnlyRam (entry ++ rest) := fun _ _ hs => safe_append hapart (hs.resolve_left hret).2
  split
  · next hcode =>
    rw [counted, if_pos (Or.inl hcode)] at hstep
    split
    · next hnil =>
      refine fun hs => (hs.resolve_left hret).1 ⟨h, hfreed hnil, asInt_eq_noOverlap.mp hcode⟩
    · exact hrest.over (.single hstep) hapart hret
  next hno =>
  split
  · next hcode =>
    rw [counted, if_pos (Or.inr (Or.inl hcode))] at hstep
    exact ⟨.single hstep, hless, hsafe⟩
  next hagain =>
  rw [counted, if_neg (by tauto)] at hstep
  exact ⟨.single hstep, hless, hsafe⟩

/-- One pass over the list makes a chain of cuts. -/
theorem walk_chain (carve : EfiMemDesc) (overlapOnlyRam : Bool) (l : List EfiMemDesc) :
    WalkChain carve overlapOnlyRam l (walk carve overlapOnlyRam l) := by
  induction l with
  | nil => exact ⟨.refl _, by simp⟩
  | cons map rest ih =>
    have hcase := carveCase carve map overlapOnlyRam
    rw [walk]
    cases hres : efiMemCarveOut map carve overlapOnlyRam with
    | mk entry r =>
      rw [hres] at hcase
      cases hcase with
      | apart h => exact ih.over (.refl _) (by simpa using h) fun hret => h hret.1
      | refused h hr =>
        exact ⟨_, 0, .refl _, Or.inl ⟨rfl, [], map, rest, rfl, by simp, h, hr⟩⟩
      | deleted h hr hstart hstop =>
        exact walkChain_cut h hr hstart (.deleted hstart hstop) (by simp) (fun _ => hstop) ih
      | moved h hr hstart hstop =>
        exact walkChain_cut h hr hstart (.moved hstart hstop) (by simp [Overlaps]) nofun ih
      | split h hr hstart =>
        refine ⟨.single (.first h hr (.split hstart)), (Cut.split hstart).less_append h,
          fun hc hl hs => safe_split hc (hl map (List.mem_cons_self ..)) h hr hstart hs⟩

/-- The loop returns 0, or nothing overlaps the range any more and the pages are counted. -/
theorem carveLoop_chain {fuel c : Nat} {r : Option Nat}
    (hrun : carveLoop carve overlapOnlyRam fuel l c = some (l', r)) (hc : c < 2 ^ 64) :
    (r = none ∧ Returned carve overlapOnlyRam l l') ∨
      ∃ s, r = some ((c + s) % 2 ^ 64).toNat ∧ Chain carve overlapOnlyRam l s l' ∧
        ∀ d ∈ l', ¬ Overlaps carve d := by
  induction fuel generalizing l c with
  | zero => cases hrun
  | succ fuel ih =>
    have hwalk := walk_chain carve overlapOnlyRam l
    rw [carveLoop] at hrun
    cases hw : walk carve overlapOnlyRam l with
    | freed =>
      rw [hw] at hrun
      cases hrun
    | nonram l1 =>
      rw [hw] at hrun hwalk
      cases hrun
      exact Or.inl ⟨rfl, hwalk⟩
    | again l1 n =>
      rw [hw] at hrun hwalk
      have hchain : Chain carve overlapOnlyRam l n l1 := hwalk.1
      rcases ih hrun (by omega) with ⟨hr, hret⟩ | ⟨s, hr, hchain', hapart⟩
      · exact Or.inl ⟨hr, hret.after hchain⟩
      · refine Or.inr ⟨n + s, ?_, hchain.trans hchain', hapart⟩
        rw [hr]
        congr 2
        omega
    | done l1 =>
      rw [hw] at hrun hwalk
      cases hrun
      refine Or.inr ⟨0, ?_, hwalk.1, hwalk.2⟩
      congr 1
      omega

/-! ## What a cut keeps -/

theorem Cut.same_memory (h : Cut carve map entry n) : ∀ d ∈ entry, d.type = map.type ∧ d.attr = map.attr := by
  cases h with
  | deleted => simp
  | moved => simp
  | split => simp

theorem Cut.replaces (hc : carve.Valid) (hm : map.Valid) (h : Overlaps carve map) (hcut : Cut carve map entry n) : Replaces carve map entry := by
  cases hcut with
  | deleted hstart hstop => exact replaces_nil hc hm hstart hstop
  | moved hstart hstop => exact replaces_moved hc hm h hstart hstop
  | split hstart => exact replaces_split hm hc.aligned hstart (by
    unfold Overlaps at h
    omega)

theorem Carved.middle (hl : WellFormed (pre ++ map :: post)) (hentry : Replaces carve map entry) :
    Carved carve (pre ++ map :: post) (pre ++ (entry ++ post)) := by
  induction pre with
  | nil =>
    have hrest : Carved carve post post := .refl hl.tail.2
    have hcons := hrest.cons hl hentry
    exact hcons
  | cons d pre ih =>
    have hcons := (ih hl.tail.2).cons hl (replaces_self hl.tail.1)
    exact hcons

section

variable (hc : carve.Valid) (hl : WellFormed l)
include hc hl

theorem Step.carved (h : Step carve overlapOnlyRam l n l') : Carved carve l l' := by
  cases h with
  | @mk pre post entry map n hpre h hr hcut =>
    have hm : map.Valid := hl.valid map (by simp)
    exact .middle hl (hcut.replaces hc hm h)

theorem Chain.carved (h : Chain carve overlapOnlyRam l s l') : Carved carve l l' := by
  induction h with
  | refl l => exact .refl hl
  | head hstep _ ih =>
    have hcarved := hstep.carved hc hl
    exact hcarved.trans (ih hcarved.wellFormed)

end

section

variable (hl : ∀ d ∈ l, d.Bounded)
include hl

theorem Step.bounded (h : Step carve overlapOnlyRam l n l') : ∀ d ∈ l', d.Bounded := by
  cases h with
  | @mk pre post entry map n hpre h hr hcut =>
    have hm : map.Bounded := hl map (by simp)
    intro d hd
    simp only [List.mem_append] at hd
    rcases hd with hd | hd | hd
    · exact hl d (by simp [hd])
    · exact (hcut.inside hm h d hd).2.trans_lt hm
    · exact hl d (by simp [hd])

/-- A cut adds no address. -/
theorem Step.lists (h : Step carve overlapOnlyRam l n l') {x : Nat} {v : Nat × Nat}
    (hx : Lists l' x v) : Lists l x v := by
  cases h with
  | @mk pre post entry map n hpre h hr hcut =>
    obtain ⟨d, hd, hxd, rfl⟩ := hx
    simp only [List.mem_append] at hd
    rcases hd with hd | hd | hd
    · exact ⟨d, by simp [hd], hxd, rfl⟩
    · obtain ⟨htype, hattr⟩ := hcut.same_memory d hd
      have hin := hcut.inside (hl map (by simp)) h d hd
      refine ⟨map, by simp, ?_, by rw [htype, hattr]⟩
      unfold Inside at hin
      unfold Holds at hxd ⊢
      omega
    · exact ⟨d, by simp [hd], hxd, rfl⟩

theorem Chain.lists (h : Chain carve overlapOnlyRam l s l') {x : Nat} {v : Nat × Nat}
    (hx : Lists l' x v) : Lists l x v := by
  induction h with
  | refl l => exact hx
  | head hstep _ ih => exact hstep.lists hl (ih (hstep.bounded hl) hx)

end

theorem Returned.chain (h : Returned carve overlapOnlyRam l l') :
    ∃ s, Chain carve overlapOnlyRam l s l' := by
  obtain ⟨l1, s, hchain, ⟨rfl, -⟩ | hmisread⟩ := h
  · exact ⟨s, hchain⟩
  · obtain ⟨n, hstep⟩ := hmisread.step
    exact ⟨s + n, hchain.trans (.single hstep)⟩

end Chain

def First (carve : EfiMemDesc) (l : List EfiMemDesc) (pre : List EfiMemDesc) (d : EfiMemDesc)
    (post : List EfiMemDesc) : Prop :=
  l = pre ++ d :: post ∧ (∀ c ∈ pre, ¬ Overlaps carve c) ∧ Overlaps carve d

section First

variable {carve d d' map : EfiMemDesc} {l l' pre pre' post post' entry : List EfiMemDesc}
  {overlapOnlyRam : Bool} {n : Int}

theorem First.unique (h : First carve l pre d post) (h' : First carve l pre' d' post') :
    pre = pre' ∧ d = d' ∧ post = post' := by
  obtain ⟨rfl, hpre, hd⟩ := h
  obtain ⟨heq, hpre', hd'⟩ := h'
  induction pre generalizing pre' with
  | nil =>
    cases pre' with
    | nil =>
      cases heq
      exact ⟨rfl, rfl, rfl⟩
    | cons c pre' =>
      cases heq
      exact absurd hd (hpre' d (List.mem_cons_self ..))
  | cons c pre ih =>
    cases pre' with
    | nil =>
      cases heq
      exact absurd hd' (hpre d' (List.mem_cons_self ..))
    | cons c' pre' =>
      obtain ⟨rfl, htail⟩ := List.cons.inj heq
      obtain ⟨rfl, rfl, rfl⟩ := ih (fun a ha => hpre a (List.mem_cons_of_mem _ ha)) htail
        (fun a ha => hpre' a (List.mem_cons_of_mem _ ha))
      exact ⟨rfl, rfl, rfl⟩

theorem Blocked.first (h : Blocked carve overlapOnlyRam l) :
    ∃ pre d post, First carve l pre d post ∧ Refused overlapOnlyRam d := by
  obtain ⟨pre, d, post, heq, hpre, hd, hr⟩ := h
  exact ⟨pre, d, post, ⟨heq, hpre, hd⟩, hr⟩

theorem Misread.first (h : Misread carve overlapOnlyRam l l') :
    ∃ pre map post entry n, First carve l pre map post ∧ l' = pre ++ (entry ++ post) ∧
      ¬ Refused overlapOnlyRam map ∧ Cut carve map entry n ∧
      carve.physicalStart ≤ map.physicalStart := by
  obtain ⟨pre, map, post, entry, n, heq, heq', hpre, hmap, hr, hcut, hstart, -⟩ := h
  exact ⟨pre, map, post, entry, n, ⟨heq, hpre, hmap⟩, heq', hr, hcut, hstart⟩

end First

/-! ## How a call ends -/

/-- The ways in which `efi_add_memory_map` returns for a range that is not empty. -/
inductive Added (carve : EfiMemDesc) (overlapOnlyRam : Bool) (l : List EfiMemDesc) :
    List EfiMemDesc → Nat → Prop
  | returned {l' : List EfiMemDesc} (h : Returned carve overlapOnlyRam l l') :
      Added carve overlapOnlyRam l l' 0
  | short {l' : List EfiMemDesc} {s : Int} (h : Chain carve overlapOnlyRam l s l')
      (hapart : ∀ d ∈ l', ¬ Overlaps carve d) (hram : overlapOnlyRam = true)
      (hpages : (s % 2 ^ 64).toNat ≠ carve.numPages) : Added carve overlapOnlyRam l l' 0
  | added {l' : List EfiMemDesc} {s : Int} (h : Chain carve overlapOnlyRam l s l')
      (hapart : ∀ d ∈ l', ¬ Overlaps carve d)
      (hpages : overlapOnlyRam = true → (s % 2 ^ 64).toNat = carve.numPages) :
      Added carve overlapOnlyRam l (efiMemSort (l' ++ [carve])) carve.physicalStart

theorem efiAddMemoryMap_added {l l' : List EfiMemDesc} {start pages memoryType ret : Nat}
    {overlapOnlyRam : Bool} (hpages : pages ≠ 0)
    (hrun : efiAddMemoryMap l start pages memoryType overlapOnlyRam = some (l', ret)) :
    Added (newDesc start pages memoryType) overlapOnlyRam l l' ret := by
  unfold efiAddMemoryMap at hrun
  rw [if_neg hpages] at hrun
  simp only at hrun
  split at hrun
  · cases hrun
  · next l1 hloop =>
    cases hrun
    rcases carveLoop_chain hloop (by decide) with ⟨-, hret⟩ | ⟨s, hr, -⟩
    · exact .returned hret
    · cases hr
  · next l1 carvedPages hloop =>
    rcases carveLoop_chain hloop (by decide) with ⟨hr, -⟩ | ⟨s, hr, hchain, hapart⟩
    · cases hr
    · obtain rfl : carvedPages = (s % 2 ^ 64).toNat := by simpa using hr
      split at hrun
      · next hshort =>
        cases hrun
        exact .short hchain hapart hshort.1 hshort.2
      · next hfull =>
        cases hrun
        exact .added hchain hapart fun hram => not_not.mp fun hne => hfull ⟨hram, hne⟩

section Returns

variable {carve : EfiMemDesc} {l l' : List EfiMemDesc} {overlapOnlyRam : Bool}
  {start pages memoryType ret : Nat}

theorem Added.wellFormed (hc : carve.Valid) (hl : WellFormed l)
    (h : Added carve overlapOnlyRam l l' ret) : WellFormed l' := by
  cases h with
  | returned h =>
    obtain ⟨s, hchain⟩ := h.chain
    exact (hchain.carved hc hl).wellFormed
  | short h => exact (h.carved hc hl).wellFormed
  | added h hapart => exact ((h.carved hc hl).added hc hapart).1

/-- The loop ends on a safe list. -/
theorem carveLoop_returns (carvedPages : Nat) (hc : carve.Valid) {fuel : Nat} (h : WellFormed l)
    (hsafe : Safe carve overlapOnlyRam l) (hfuel : totalWeight carve l < fuel) :
    ∃ res, carveLoop carve overlapOnlyRam fuel l carvedPages = some res := by
  induction fuel generalizing l carvedPages with
  | zero => omega
  | succ fuel ih =>
    have hwalk := walk_chain carve overlapOnlyRam l
    rw [carveLoop]
    cases hw : walk carve overlapOnlyRam l with
    | freed =>
      rw [hw] at hwalk
      exact absurd hsafe hwalk
    | nonram l' => exact ⟨_, rfl⟩
    | again l' r =>
      rw [hw] at hwalk
      obtain ⟨hchain, hless, hkeeps⟩ := hwalk
      exact ih _ (hchain.carved hc h).wellFormed (hkeeps hc h.valid hsafe) (by omega)
    | done l' => exact ⟨_, rfl⟩

/-- What `efi_add_memory_map` does to a well-formed list. -/
theorem efiAddMemoryMap_spec (h : WellFormed l) (overlapOnlyRam : Bool) (haligned : start % 4096 = 0)
    (hpages : pages ≠ 0) (hbound : start + pages * 4096 < 2 ^ 64)
    (hsafe : Safe (newDesc start pages memoryType) overlapOnlyRam l) :
    ∃ l' ret, efiAddMemoryMap l start pages memoryType overlapOnlyRam = some (l', ret) ∧
      WellFormed l' ∧ (ret = start → start ≠ 0 → ∀ x v, Lists l' x v ↔
        if start ≤ x ∧ x < start + pages * 4096 then v = (memoryType, attributeOf memoryType)
        else Lists l x v) := by
  have hc : (newDesc start pages memoryType).Valid := newDesc_valid haligned hpages hbound
  obtain ⟨⟨l', ret⟩, hrun⟩ : ∃ res, efiAddMemoryMap l start pages memoryType overlapOnlyRam = some res := by
    obtain ⟨⟨l1, r⟩, hloop⟩ := carveLoop_returns 0 hc h hsafe (Nat.lt_succ_of_le totalWeight_le)
    unfold efiAddMemoryMap
    rw [if_neg hpages]
    simp only [hloop]
    cases r with
    | none => exact ⟨_, rfl⟩
    | some carvedPages =>
      dsimp only
      split
      · exact ⟨_, rfl⟩
      · exact ⟨_, rfl⟩
  have hadd := efiAddMemoryMap_added hpages hrun
  refine ⟨l', ret, hrun, hadd.wellFormed hc h, fun hret hne => ?_⟩
  cases hadd with
  | returned => exact absurd hret.symm hne
  | short => exact absurd hret.symm hne
  | added hchain hapart => exact ((hchain.carved hc h).added hc hapart).2

end Returns

/-! ## Evaluating a call -/

theorem efiMemSort_pair {a b : EfiMemDesc} (h : b.physicalStart < a.physicalStart) :
    efiMemSort [a, b] = [a, b] := by
  have hle : efiMemCmp a b ≤ 0 := efiMemCmp_le.mpr h.le
  simp [efiMemSort, listSort, fillSlots, carry, maxListLengthBits, hle]

theorem efiAddMemoryMap_of_loop {l l' : List EfiMemDesc} {start pages memoryType c : Nat}
    {overlapOnlyRam : Bool} (hpages : pages ≠ 0)
    (hloop : carveLoop (newDesc start pages memoryType) overlapOnlyRam (2 * l.length + 1) l 0 =
      some (l', some c)) (hc : c = pages) :
    efiAddMemoryMap l start pages memoryType overlapOnlyRam =
      some (efiMemSort (l' ++ [newDesc start pages memoryType]), start) := by
  unfold efiAddMemoryMap
  rw [if_neg hpages]
  dsimp only
  rw [hloop]
  exact if_neg fun h => h.2 hc

end Armada3720.Efi
