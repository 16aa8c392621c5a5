import Armada3720.Env.HashTableRun
import Armada3720.Env.ImportExport

/-!
# What a text says

What `himport_r` parses does not depend on the table. `importOps` is the parse alone: the changes that an import
asks for, in their order, deletions of names that are left over included. `himportR_eq` says that the import is
these changes.
-/

namespace Armada3720.Env

/-- What a text says about a variable: its value, or that it is to be deleted. -/
abbrev Mention := Str × Option Str

/-- What follows the name of an entry: nothing, which deletes the variable, or a value. -/
def parseRest (sep : UInt8) (name : Str) (dp : List UInt8) :
    Option (List Mention) × List UInt8 :=
  let c := dp.headD 0
  let c' := (dp.drop 1).headD 0
  if c = 0 ∨ c' = 0 ∨ c = sep ∨ c' = sep then
    (some [(name, none)], if c = '='.toUInt8 then dp.drop 2 else dp.drop 1)
  else
    let r := parseValue sep (dp.drop 1)
    (if name = [] then none else some [(name, some r.1)], r.2.drop 1)

/-- No mention for a comment, `none` for a value without a name, and the characters left. -/
def parseWord (sep : UInt8) (dp : List UInt8) : Option (List Mention) × List UInt8 :=
  if dp.head? = some '#'.toUInt8 then
    (some [], (dp.dropWhile fun c => c ≠ 0 ∧ c ≠ sep).drop 1)
  else
    let name := dp.takeWhile fun c => c ≠ '='.toUInt8 ∧ c ≠ 0 ∧ c ≠ sep
    parseRest sep name (dp.drop name.length)

/-- One round of the parser without the table. -/
def parseEntry (sep : UInt8) (dp : List UInt8) : Option (List Mention) × List UInt8 :=
  parseWord sep (dp.dropWhile isblank)

/-- The parser's loop without the table: the mentions, and whether it comes to the end. -/
def parseText (sep : UInt8) (slack : Nat) : Nat → List UInt8 → Option (List Mention × Bool)
  | 0, _ => none
  | fuel + 1, dp =>
    match parseEntry sep dp with
    | (none, _) => some ([], false)
    | (some ms, dp') =>
      (if slack < dp'.length ∧ dp'.headD 0 ≠ 0 then parseText sep slack fuel dp'
        else some ([], true)).map fun r => (ms ++ r.1, r.2)

/-- The mentions of the names that are asked for, and the names left. -/
def taken : List Mention → List (Option Str) → List Mention × List (Option Str)
  | [], vars => ([], vars)
  | m :: ms, vars =>
    let r := taken ms (dropVarFromSet m.1 vars).2
    (if (dropVarFromSet m.1 vars).1 then m :: r.1 else r.1, r.2)

def missing (vars : List (Option Str)) : List Mention :=
  vars.filterMap fun v => v.map fun name => (name, none)

/-- The changes an import asks for, and whether it comes to its end. -/
def importOps (sep : UInt8) (crlfIsLf : Bool) (env : List UInt8) (vars : List Str) :
    Option (List Mention × Bool) :=
  if env = [] then some ([], true)
  else
    let (data, ignored) := if crlfIsLf then crlfPass env else (env, 0)
    (parseText sep (ignored + 1) (env.length + 1) (data ++ [0])).map fun r =>
      let k := taken r.1 (vars.map some)
      (k.1 ++ if r.2 then missing k.2 else [], r.2)

def applyMention (hk : HsearchData → Hooks) (flag : Nat) (m : Mention) (t : HsearchData) :
    Option HsearchData :=
  match m.2 with
  | none => (hdeleteR (hk t) m.1 t flag).map Prod.fst
  | some v => (hsearchR (hk t) ⟨m.1, some v⟩ .enter t flag).map Prod.fst

def applyMentions (hk : HsearchData → Hooks) (flag : Nat) :
    List Mention → HsearchData → Option HsearchData
  | [], t => some t
  | m :: ms, t => (applyMention hk flag m t).bind (applyMentions hk flag ms)

section Import

variable {hk : HsearchData → Hooks} {sep : UInt8} {flag : Nat}

theorem applyMentions_append (ms ms' : List Mention) (t : HsearchData) :
    applyMentions hk flag (ms ++ ms') t = (applyMentions hk flag ms t).bind (applyMentions hk flag ms') := by
  induction ms generalizing t with
  | nil => rfl
  | cons m ms ih => simp only [List.cons_append, applyMentions, ih, Option.bind_assoc]

theorem deleteMissing_eq (vars : List (Option Str)) (t : HsearchData) :
    deleteMissing hk flag vars t = applyMentions hk flag (missing vars) t := by
  induction vars generalizing t with
  | nil => rfl
  | cons v vars ih =>
    cases v with
    | none => exact ih t
    | some v =>
      rw [deleteMissing, show missing (some v :: vars) = (v, none) :: missing vars from rfl,
        applyMentions, applyMention]
      cases hdeleteR (hk t) v t flag with
      | none => rfl
      | some r => exact ih r.1

/-- One round is the parse of an entry and the change it asks for. -/
theorem himportStep_eq (s : ImportState) :
    himportStep hk sep flag s =
      match parseEntry sep s.dp with
      | (none, dp) => some ({ s with dp := dp }, false)
      | (some ms, dp) =>
        (applyMentions hk flag (taken ms s.vars).1 s.htab).map fun t =>
          (⟨dp, t, (taken ms s.vars).2⟩, true) := by
  unfold himportStep parseEntry parseWord parseRest
  dsimp only
  split
  · rfl
  · split
    · simp only [taken]
      split <;> simp [*, applyMentions, applyMention, Option.map_map, Function.comp_def]
    · split
      · simp [*]
      · simp only [*, taken]
        split <;> simp [*, applyMentions, applyMention, Option.map_map, Function.comp_def]

theorem taken_append (ms ms' : List Mention) (vars : List (Option Str)) :
    taken (ms ++ ms') vars =
      ((taken ms vars).1 ++ (taken ms' (taken ms vars).2).1, (taken ms' (taken ms vars).2).2) := by
  induction ms generalizing vars with
  | nil => rfl
  | cons m ms ih =>
    simp only [List.cons_append, taken, ih]
    split <;> rfl

theorem himportLoop_eq (hk : HsearchData → Hooks) (sep : UInt8) (flag slack fuel : Nat) (s : ImportState) :
    (himportLoop hk sep flag slack fuel s).map (fun r => (r.1.htab, r.1.vars, r.2)) =
      (parseText sep slack fuel s.dp).bind fun r =>
        (applyMentions hk flag (taken r.1 s.vars).1 s.htab).map fun t =>
          (t, (taken r.1 s.vars).2, r.2) := by
  induction fuel generalizing s with
  | zero => rfl
  | succ fuel ih =>
    rw [himportLoop, parseText, himportStep_eq]
    rcases parseEntry sep s.dp with ⟨_ | ms, dp⟩
    · rfl
    · dsimp only
      cases ht : applyMentions hk flag (taken ms s.vars).1 s.htab with
      | none =>
        simp only [Option.map_none, Option.bind_map, Function.comp_def, taken_append,
          applyMentions_append, ht, Option.bind_none]
        cases (if slack < dp.length ∧ dp.headD 0 ≠ 0 then parseText sep slack fuel dp
          else some ([], true)) <;> rfl
      | some t =>
        simp only [Option.map_some]
        split
        · rw [ih]
          simp only [Option.bind_map, Function.comp_def, taken_append, applyMentions_append, ht, Option.bind_some]
        · simp only [Option.map_some, Option.bind_some, List.append_nil, ht]

theorem himportR_eq {malloc : Nat → Bool} {htab : Option HsearchData} {env : List UInt8}
    {crlfIsLf : Bool} {vars : List Str} {t : HsearchData}
    (hmalloc : malloc (env.length + 1) = true)
    (ht : (if flag &&& hNoclear = 0 then none else htab).or (hcreateR (importEntries env.length)) = some t) :
    himportR hk malloc htab env sep flag crlfIsLf vars =
      (importOps sep crlfIsLf env vars).bind fun r =>
        (applyMentions hk flag r.1 t).map fun t' =>
          (some t', r.2, if r.2 then none else some .EINVAL) := by
  unfold himportR importOps
  dsimp only
  rw [hmalloc, ht]
  simp only [Bool.true_eq_false, if_false]
  split
  · rfl
  · generalize (if crlfIsLf = true then crlfPass env else (env, 0)) = d
    have hloop := himportLoop_eq hk sep flag (d.2 + 1) (env.length + 1) ⟨d.1 ++ [0], t, vars.map some⟩
    cases hparse : parseText sep (d.2 + 1) (env.length + 1) (d.1 ++ [0]) with
    | none =>
      rw [hparse, Option.bind_none, Option.map_eq_none_iff] at hloop
      rw [hloop]
      rfl
    | some r =>
      rw [hparse, Option.bind_some] at hloop
      simp only [Option.map_some, Option.bind_some, applyMentions_append]
      cases happ : applyMentions hk flag (taken r.1 (vars.map some)).1 t with
      | none =>
        rw [happ, Option.map_none, Option.map_eq_none_iff] at hloop
        rw [hloop]
        rfl
      | some t' =>
        rw [happ, Option.map_some, Option.map_eq_some_iff] at hloop
        obtain ⟨⟨s, ok⟩, hs, heq⟩ := hloop
        simp only [Prod.mk.injEq] at heq
        obtain ⟨rfl, hvars, rfl⟩ := heq
        rw [hs]
        cases r.2 with
        | false => rfl
        | true =>
          simp only [deleteMissing_eq, hvars, Option.bind_some, if_true]

end Import

/-! ## The parse comes to an end -/

theorem parseValue_suffix (sep : UInt8) (dp : List UInt8) : (parseValue sep dp).2 <:+ dp := by
  fun_induction parseValue sep dp with
  | case1 => exact List.suffix_rfl
  | case2 c => exact List.suffix_rfl
  | case3 c => exact List.nil_suffix
  | case4 c c' rest => exact List.suffix_rfl
  | case5 c c' rest h h' r ih =>
    exact ih.trans ((List.suffix_cons c' rest).trans (List.suffix_cons c _))
  | case6 c c' rest h h' r ih => exact ih.trans (List.suffix_cons c _)

theorem parseRest_spec (sep : UInt8) (name : Str) (dp : List UInt8) :
    ∃ l n, l <:+ dp ∧ 1 ≤ n ∧ (parseRest sep name dp).2 = l.drop n := by
  unfold parseRest
  dsimp only
  split
  · split
    · exact ⟨_, 2, List.suffix_rfl, by decide, rfl⟩
    · exact ⟨_, 1, List.suffix_rfl, le_refl 1, rfl⟩
  · exact ⟨_, 1, (parseValue_suffix sep _).trans (List.drop_suffix _ _), le_refl 1, rfl⟩

theorem parseWord_spec (sep : UInt8) (dp : List UInt8) :
    ∃ l n, l <:+ dp ∧ 1 ≤ n ∧ (parseWord sep dp).2 = l.drop n := by
  unfold parseWord
  split
  · exact ⟨_, 1, List.dropWhile_suffix _, le_refl 1, rfl⟩
  · obtain ⟨l, n, hl, hn, heq⟩ := parseRest_spec sep _ (dp.drop _)
    exact ⟨l, n, hl.trans (List.drop_suffix _ _), hn, heq⟩

theorem parseEntry_spec (sep : UInt8) {dp : List UInt8} (hne : dp ≠ []) :
    (parseEntry sep dp).2 <:+ dp ∧ (parseEntry sep dp).2.length < dp.length := by
  obtain ⟨l, n, hl, hn, heq⟩ := parseWord_spec sep (dp.dropWhile isblank)
  have hblank := hl.trans (List.dropWhile_suffix isblank)
  have hle := hblank.length_le
  have hpos := List.length_pos_iff.mpr hne
  rw [parseEntry, heq, List.length_drop]
  exact ⟨(List.drop_suffix n l).trans hblank, by omega⟩

theorem parseText_isSome (sep : UInt8) (slack fuel : Nat) {dp : List UInt8}
    (hlen : dp.length < fuel + 1) (hlast : dp.getLast? = some 0) :
    (parseText sep slack fuel dp).isSome = true := by
  induction fuel generalizing dp with
  | zero =>
    obtain rfl : dp = [] := List.eq_nil_of_length_eq_zero (by omega)
    cases hlast
  | succ fuel ih =>
    have hdp : dp ≠ [] := by
      rintro rfl
      cases hlast
    obtain ⟨hsuffix, hlt⟩ := parseEntry_spec sep hdp
    rw [parseText]
    split
    · rfl
    · next ms dp' heq =>
      rw [heq] at hsuffix hlt
      rw [Option.isSome_map]
      split
      · next hmore =>
        refine ih (by dsimp only at hlt; omega) ?_
        obtain ⟨pre, rfl⟩ := hsuffix
        have hne : dp' ≠ [] := List.length_pos_iff.mp (by omega)
        rwa [List.getLast?_append_of_ne_nil _ hne] at hlast
      · rfl

theorem length_dropCrs_le (text : List UInt8) : (dropCrs text).length ≤ text.length := by
  fun_induction dropCrs text with
  | case1 => exact le_refl _
  | case2 c => exact le_refl _
  | case3 c c' rest h ih => exact ih.trans (Nat.le_succ _)
  | case4 c c' rest h ih => exact Nat.succ_le_succ ih

theorem length_crlfPass (env : List UInt8) : (crlfPass env).1.length = env.length := by
  have h := (length_dropCrs_le (env.takeWhile fun c => c ≠ 0)).trans (List.takeWhile_prefix _).length_le
  simp only [crlfPass, List.length_append, List.length_drop]
  omega

/-- Every text is parsed to its end, or to a value without a name. -/
theorem importOps_isSome (sep : UInt8) (crlfIsLf : Bool) (env : List UInt8) (vars : List Str) :
    (importOps sep crlfIsLf env vars).isSome = true := by
  unfold importOps
  split
  · rfl
  · have hlen : (if crlfIsLf = true then crlfPass env else (env, 0)).1.length = env.length := by
      split
      · exact length_crlfPass env
      · rfl
    generalize (if crlfIsLf = true then crlfPass env else (env, 0)) = d at hlen ⊢
    rw [Option.isSome_map]
    refine parseText_isSome _ _ _ ?_ (List.getLast?_concat ..)
    rw [List.length_append, List.length_singleton, hlen]
    omega

end Armada3720.Env
