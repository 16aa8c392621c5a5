import Armada3720.Env.ImportOps
import Armada3720.Env.Refused

/-!
# Imports of selected variables

A name asked for is struck off the list when the text first mentions it: a selected import follows the first
mention of a variable, a full import the last one. An empty list stands for all variables, and an empty text is
not processed at all.

`selected_import_agrees_iff` is for texts that are parsed to the end, hooks that accept every change and tables with
a slot for each of them. Imports that fail are not compared.
-/

namespace Armada3720.Env

/-! ## Changes of a map -/

/-- What a list of changes makes of a map. -/
def effects (ms : List Mention) (m : Str → Option Str) : Str → Option Str :=
  ms.foldl (fun m x => Function.update m x.1 x.2) m

theorem effects_apply (ms : List Mention) (m : Str → Option Str) (k : Str) :
    effects ms m k = (ms.reverse.lookup k).getD (m k) := by
  induction ms generalizing m with
  | nil => rfl
  | cons x ms ih =>
    rw [effects, List.foldl_cons, ← effects, ih, List.reverse_cons, List.lookup_append]
    cases ms.reverse.lookup k with
    | some e => rfl
    | none =>
      by_cases hk : k = x.1
      · rw [hk, Function.update_self]
        simp [List.lookup]
      · rw [Function.update_of_ne hk]
        simp [List.lookup, beq_false_of_ne hk]

variable {vars : List (Option Str)} {k : Str}

theorem dropVarFromSet_fst (hne : vars ≠ []) : (dropVarFromSet k vars).1 = true ↔ some k ∈ vars := by
  rw [dropVarFromSet, if_neg (by rwa [List.isEmpty_iff])]
  exact List.contains_iff_mem

theorem mem_dropVarFromSet {k' : Str} (hne : vars ≠ []) :
    some k' ∈ (dropVarFromSet k vars).2 ↔ some k' ∈ vars ∧ k' ≠ k := by
  rw [dropVarFromSet, if_neg (by rwa [List.isEmpty_iff])]
  simp only [List.mem_map]
  constructor
  · rintro ⟨v, hv, heq⟩
    split at heq
    · cases heq
    · next hvk =>
      subst heq
      exact ⟨hv, fun h => hvk (by rw [h])⟩
  · rintro ⟨hmem, hkk⟩
    exact ⟨some k', hmem, if_neg fun h => hkk (Option.some.inj h)⟩

theorem dropVarFromSet_ne_nil (hne : vars ≠ []) : (dropVarFromSet k vars).2 ≠ [] := by
  rw [dropVarFromSet, if_neg (by rwa [List.isEmpty_iff])]
  simpa using hne

theorem effects_missing (vars : List (Option Str)) (m : Str → Option Str) (k : Str) :
    effects (missing vars) m k = if some k ∈ vars then none else m k := by
  induction vars generalizing m with
  | nil => rfl
  | cons v vars ih =>
    cases v with
    | none => simpa [missing] using ih m
    | some v =>
      refine (ih (Function.update m v none)).trans ?_
      by_cases hk : k = v
      · subst hk
        simp
      · simp [hk]

/-- The first mention of each name counts, and a name that is not mentioned is deleted. -/
theorem effects_taken (ms : List Mention) (hne : vars ≠ []) (m : Str → Option Str) (k : Str) :
    effects ((taken ms vars).1 ++ missing (taken ms vars).2) m k =
      if some k ∈ vars then (ms.lookup k).join else m k := by
  induction ms generalizing vars m with
  | nil => exact effects_missing vars m k
  | cons x ms ih =>
    have hih := fun m => ih (dropVarFromSet_ne_nil (k := x.1) hne) m
    simp only [mem_dropVarFromSet hne] at hih
    rw [taken]
    split
    · next hfound =>
      rw [dropVarFromSet_fst hne] at hfound
      refine (hih (Function.update m x.1 x.2)).trans ?_
      by_cases hk : k = x.1
      · subst hk
        simp [hfound, List.lookup]
      · simp [List.lookup, beq_false_of_ne hk, hk]
    · next hfound =>
      rw [dropVarFromSet_fst hne] at hfound
      refine (hih m).trans ?_
      by_cases hk : k = x.1
      · subst hk
        simp [hfound]
      · simp [List.lookup, beq_false_of_ne hk, hk]

theorem taken_nil (ms : List Mention) : taken ms [] = (ms, []) := by
  induction ms with
  | nil => rfl
  | cons x ms ih => rw [taken, show dropVarFromSet x.1 [] = (true, []) from rfl, ih]; rfl

/-! ## Changes of a table -/

/-- At every `ENTER` the table is not full, unless the variable is there, and no live entry is overwritten. -/
def GivenSlots (hk : HsearchData → Hooks) (flag : Nat) : List Mention → HsearchData → Prop
  | [], _ => True
  | m :: ms, t =>
    (m.2 ≠ none → ¬ EntersOverLive t m.1 ∧ (t.filled = t.size → ∃ i, t.Holds i m.1)) ∧
      ∀ t' ∈ applyMention hk flag m t, GivenSlots hk flag ms t'

section Changes

variable {hk : HsearchData → Hooks} {flag : Nat}

variable {t : HsearchData} {m : Str → Option Str}

theorem Wf.applyMention (hacc : ∀ t, (hk t).Accepting) (hwf : Wf t) (hm : Represents t m) (x : Mention)
    (hslot : x.2 ≠ none → ¬ EntersOverLive t x.1 ∧ (t.filled = t.size → ∃ i, t.Holds i x.1)) :
    ∃ t', applyMention hk flag x t = some t' ∧ Wf t' ∧
      Represents t' (Function.update m x.1 x.2) := by
  obtain ⟨k, e⟩ := x
  cases e with
  | none =>
    simp only [Env.applyMention]
    rcases hwf.delete_cases (hacc t) k flag with ⟨i, hi, hs⟩ | ⟨hno, hs⟩
    · exact ⟨_, by rw [hs]; rfl, hwf.hdelete hi.1, hwf.represents_hdelete hm hi⟩
    · refine ⟨t, by rw [hs]; rfl, hwf, ?_⟩
      rwa [← (hwf.represents_none_iff hm k).mpr hno, Function.update_eq_self]
  | some v =>
    obtain ⟨hsafe, hroom⟩ := hslot (Option.some_ne_none v)
    simp only [Env.applyMention]
    rcases hwf.enter_cases (hacc t) k v flag with
      ⟨i, hi, hs⟩ | ⟨hno, hfull, hs⟩ | ⟨hno, hfull, i, e, ht, hek, hed, hea, hs⟩
    · exact ⟨_, by rw [hs]; rfl, hwf.setData i v, hwf.represents_setData hm hi⟩
    · obtain ⟨i, hi⟩ := hroom hfull
      exact absurd hi (hno i)
    · have hi := not_live_of_target hno hfull hsafe ht
      exact ⟨_, by rw [hs]; rfl, hwf.file hno ht hi hek hed hea, hwf.represents_file hm hno hi hek hed⟩

/-- Changes that are all given slots do to the map of the table what they say. -/
theorem Wf.applyMentions (hacc : ∀ t, (hk t).Accepting) (ms : List Mention) (hwf : Wf t)
    (hm : Represents t m) (hslots : GivenSlots hk flag ms t) :
    ∃ t', applyMentions hk flag ms t = some t' ∧ Wf t' ∧ Represents t' (effects ms m) := by
  induction ms generalizing t m with
  | nil => exact ⟨t, rfl, hwf, hm⟩
  | cons x ms ih =>
    obtain ⟨t1, ht1, hwf1, hm1⟩ := hwf.applyMention hacc hm x hslots.1
    obtain ⟨t', ht', hwf', hm'⟩ := ih hwf1 hm1 (hslots.2 t1 ht1)
    exact ⟨t', by rw [Env.applyMentions, ht1]; exact ht', hwf', hm'⟩

theorem Wf.seen_eq (hwf : Wf t) (hm : Represents t m) (k : Str) :
    seen t k = some ((m k).map some) := by
  cases hk : m k with
  | none => exact hwf.paths.seen_of_missing ((hwf.represents_none_iff hm k).mp hk)
  | some v =>
    obtain ⟨i, hi, hv⟩ := (hm k v).mp hk
    rw [hwf.paths.seen_of_holds hi, hv]
    rfl

theorem Wf.represents_seen (hwf : Wf t) : Represents t fun k => ((seen t k).getD none).join := by
  intro k v
  dsimp only
  by_cases hk : ∃ i, t.Holds i k
  · obtain ⟨i, hi⟩ := hk
    rw [hwf.paths.seen_of_holds hi]
    refine ⟨fun hv => ⟨i, hi, hv⟩, ?_⟩
    rintro ⟨i', hi', hv⟩
    rw [hwf.inj i i' k hi hi']
    exact hv
  · rw [hwf.paths.seen_of_missing fun i hi => hk ⟨i, hi⟩]
    refine iff_of_false (fun h => nomatch h) ?_
    rintro ⟨i, hi, -⟩
    exact hk ⟨i, hi⟩

end Changes

/-! ## Selected imports -/

/-- The first and the last mention of every name asked for say the same; for an empty list, the
table has the variables as the text leaves them; for an empty text, none of the names. -/
def MentionsAgree (T : HsearchData) (env : List UInt8) (ms : List Mention) (vars : List Str) :
    Prop :=
  if env = [] then ∀ k ∈ vars, seen T k = some none
  else if vars = [] then ∀ k e, ms.reverse.lookup k = some e → seen T k = some (e.map some)
  else ∀ k ∈ vars, ms.lookup k = ms.reverse.lookup k

theorem lookup_isSome_reverse (ms : List Mention) (k : Str) :
    (ms.reverse.lookup k).isSome = (ms.lookup k).isSome := by
  induction ms with
  | nil => rfl
  | cons x ms ih =>
    rw [List.reverse_cons, List.lookup_append, Option.isSome_or, ih]
    by_cases hk : k = x.1
    · subst hk
      simp [List.lookup]
    · simp [List.lookup, beq_false_of_ne hk]

theorem join_lookup_eq_iff (ms : List Mention) (k : Str) :
    (ms.lookup k).join = (ms.reverse.lookup k).join ↔ ms.lookup k = ms.reverse.lookup k := by
  have h := lookup_isSome_reverse ms k
  cases hfirst : ms.lookup k <;> cases hlast : ms.reverse.lookup k <;>
    simp_all

theorem importOps_of_all {sep : UInt8} {b : Bool} {env : List UInt8} {ms : List Mention}
    (h : importOps sep b env [] = some (ms, true)) (vars : List Str) :
    importOps sep b env vars = some (if env = [] then [] else
      (taken ms (vars.map some)).1 ++ missing (taken ms (vars.map some)).2, true) := by
  unfold importOps at h ⊢
  split at h
  · next henv => rw [if_pos henv, if_pos henv]
  · next henv =>
    rw [if_neg henv, if_neg henv]
    obtain ⟨r, hr, heq⟩ := Option.map_eq_some_iff.mp h
    simp only [List.map_nil, taken_nil, Prod.mk.injEq] at heq
    obtain ⟨hms, hok⟩ := heq
    rw [hok, if_pos rfl, show missing [] = [] from rfl, List.append_nil] at hms
    refine Option.map_eq_some_iff.mpr ⟨r, hr, ?_⟩
    simp only [hms, hok, if_true]

/-- A selected import leaves the other variables, and gives each variable of the list what a
full import into an empty table gives it, exactly when the mentions agree. -/
theorem selected_import_agrees_iff (hk : HsearchData → Hooks) (hacc : ∀ t, (hk t).Accepting)
    (malloc : Nat → Bool) (sep : UInt8) (b : Bool) (env : List UInt8) (vars : List Str)
    (flag flag' : Nat) (hflag : flag &&& hNoclear ≠ 0) (hflag' : flag' &&& hNoclear = 0)
    (T : HsearchData) (hT : Wf T) (old : Option HsearchData) (t₀ : HsearchData)
    (hnew : hcreateR (importEntries env.length) = some t₀)
    (hmalloc : malloc (env.length + 1) = true) (ms : List Mention)
    (hparse : importOps sep b env [] = some (ms, true))
    (hslots : ∀ r ∈ importOps sep b env vars, GivenSlots hk flag r.1 T)
    (hslots' : GivenSlots hk flag' ms t₀) :
    ∃ T' F, himportR hk malloc (some T) env sep flag b vars = some (some T', true, none) ∧
      himportR hk malloc old env sep flag' b [] = some (some F, true, none) ∧
      (((∀ k, k ∉ vars → seen T' k = seen T k) ∧ ∀ k ∈ vars, seen T' k = seen F k) ↔
        MentionsAgree T env ms vars) := by
  have hops := importOps_of_all hparse vars
  obtain ⟨m, hm⟩ : ∃ m, Represents T m := ⟨_, hT.represents_seen⟩
  obtain ⟨hwf₀, hm₀⟩ := wf_of_hcreateR hnew
  obtain ⟨T', hT', hwf', hm'⟩ := hT.applyMentions hacc _ hm (hslots _ hops)
  obtain ⟨F, hF, hwfF, hmF⟩ := hwf₀.applyMentions hacc ms hm₀ hslots'
  refine ⟨T', F, ?_, ?_, ?_⟩
  · rw [himportR_eq hmalloc (by rw [if_neg hflag]; rfl), hops, Option.bind_some, hT']
    rfl
  · rw [himportR_eq hmalloc (by rw [if_pos hflag']; exact hnew), hparse, Option.bind_some, hF]
    rfl
  · -- what the three tables answer, in terms of the mentions
    have hseenT := fun k => hT.seen_eq hm k
    have hseenF : ∀ k, seen F k = some (((ms.reverse.lookup k).join).map some) := by
      intro k
      rw [hwfF.seen_eq hmF, effects_apply]
      cases ms.reverse.lookup k <;> rfl
    have hseen := fun k => hwf'.seen_eq hm' k
    unfold MentionsAgree
    split
    · next henv =>
      subst henv
      have hms : ms = [] := by
        cases hparse
        rfl
      have hsame : ∀ k, seen T' k = seen T k := fun k => (hseen k).trans (hseenT k).symm
      rw [hms] at hseenF
      simp only [hsame, hseenF]
      exact and_iff_right fun _ _ => trivial
    · next henv =>
      rw [if_neg henv] at hm' hseen
      split
      · next hvars =>
        subst hvars
        have hall : ∀ k, seen T' k = some (((ms.reverse.lookup k).getD (m k)).map some) := by
          intro k
          rw [hseen, List.map_nil, taken_nil, show missing [] = [] from rfl, List.append_nil, effects_apply]
        constructor
        · rintro ⟨hsame, -⟩ k e he
          rw [← hsame k List.not_mem_nil, hall, he, Option.getD_some]
        · intro hagree
          refine ⟨fun k _ => ?_, nofun⟩
          rw [hall]
          cases he : ms.reverse.lookup k with
          | none => exact (hseenT k).symm
          | some e => exact (hagree k e he).symm
      · next hvars =>
        have hne : vars.map some ≠ [] := fun h => hvars (List.map_eq_nil_iff.mp h)
        simp only [effects_taken ms hne, List.mem_map, Option.some.injEq, exists_eq_right] at hseen
        have hother : ∀ k, k ∉ vars → seen T' k = seen T k := by
          intro k hk
          rw [hseen, if_neg hk, hseenT]
        refine (and_iff_right hother).trans (forall₂_congr fun k hk => ?_)
        rw [hseen, hseenF, if_pos hk, Option.some.injEq, ← join_lookup_eq_iff]
        exact (Option.map_injective (Option.some_injective _)).eq_iff

def smallTable : HsearchData := ⟨67, 0, fun _ => Slot.zero⟩

/-- `d=7` in five slots. -/
def oneVariable : HsearchData :=
  (applyMentions (fun _ => .unset) 0 [([100], some [55])] fiveSlots).getD fiveSlots

theorem oneVariable_wf : Wf oneVariable := by
  obtain ⟨hwf, hm⟩ := wf_of_hcreateR (show hcreateR 5 = some fiveSlots from rfl)
  obtain ⟨t, ht, hwf, -⟩ := hwf.applyMentions (fun _ => Hooks.unset_accepting) [([100], some [55])] hm
    ⟨fun _ => ⟨by decide +kernel, fun h => absurd h (by decide)⟩, fun _ _ => trivial⟩
  rw [oneVariable, ht]
  exact hwf

/-- `a=1`, `d=2` and `b=3`, read for the variables `a` and `d`. -/
theorem selected_import_agrees_two :
    ∃ T' F, himportR (fun _ => .unset) (fun _ => true) (some oneVariable)
        [97, 61, 49, 10, 100, 61, 50, 10, 98, 61, 51, 10] '\n'.toUInt8 hNoclear false [[97], [100]] =
          some (some T', true, none) ∧
      himportR (fun _ => .unset) (fun _ => true) none [97, 61, 49, 10, 100, 61, 50, 10, 98, 61, 51, 10]
        '\n'.toUInt8 0 false [] = some (some F, true, none) ∧
      (∀ k, k ∉ [[97], [100]] → seen T' k = seen oneVariable k) ∧
      ∀ k ∈ [[(97 : UInt8)], [100]], seen T' k = seen F k := by
  have hops : importOps '\n'.toUInt8 false [97, 61, 49, 10, 100, 61, 50, 10, 98, 61, 51, 10] [[97], [100]] =
      some ([([97], some [49]), ([100], some [50])], true) := by decide +kernel
  obtain ⟨T', F, hT, hF, hiff⟩ := selected_import_agrees_iff _ (fun _ => Hooks.unset_accepting)
    (fun _ => true) '\n'.toUInt8 false [97, 61, 49, 10, 100, 61, 50, 10, 98, 61, 51, 10] [[97], [100]]
    hNoclear 0 (by decide) (by decide) oneVariable oneVariable_wf none smallTable rfl rfl
    [([97], some [49]), ([100], some [50]), ([98], some [51])] (by decide +kernel) (fun r hr => by
      cases hops.symm.trans hr
      refine ⟨fun _ => ⟨by decide +kernel, fun h => absurd h (by decide +kernel)⟩, fun t ht => ?_⟩
      cases ht
      exact ⟨fun _ => ⟨by decide +kernel, fun h => absurd h (by decide +kernel)⟩, fun _ _ => trivial⟩)
    ⟨fun _ => ⟨by decide +kernel, fun h => absurd h (by decide +kernel)⟩, fun t ht => by
      cases ht
      refine ⟨fun _ => ⟨by decide +kernel, fun h => absurd h (by decide +kernel)⟩, fun t ht => ?_⟩
      cases ht
      exact ⟨fun _ => ⟨by decide +kernel, fun h => absurd h (by decide +kernel)⟩, fun _ _ => trivial⟩⟩
  refine ⟨T', F, hT, hF, hiff.mpr ?_⟩
  rw [MentionsAgree, if_neg (by decide), if_neg (by decide)]
  decide

/-- `a=1`, then `a=2`: asked for `a`, the import gives it the value 1, and a full import 2. -/
theorem selected_import_takes_first : ((himportR (fun _ => .unset) (fun _ => true) (some fiveSlots)
        [97, 61, 49, 10, 97, 61, 50, 10] '\n'.toUInt8 hNoclear false [[97]]).bind fun r =>
      r.1.bind fun t => seen t [97]) = some (some (some [49])) ∧
    ((himportR (fun _ => .unset) (fun _ => true) none
        [97, 61, 49, 10, 97, 61, 50, 10] '\n'.toUInt8 0 false []).bind fun r =>
      r.1.bind fun t => seen t [97]) = some (some (some [50])) := by
  constructor <;> decide +kernel

end Armada3720.Env
