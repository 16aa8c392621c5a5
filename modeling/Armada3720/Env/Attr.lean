import Armada3720.Env.HashTable

/-!
# Attribute lists

`env/attr.c` of U-Boot without `CONFIG_REGEX`. A list such as `a:sr,b:d` gives names their attributes.
`env_attr_walk` calls back for every entry; `env_attr_lookup` searches the text for one name. They differ in the
white-space they take off: `attr_parsers_agree_iff`.
-/

namespace Armada3720.Env

def envAttrListDelim : UInt8 := 44

def envAttrSep : UInt8 := 58

def blank : UInt8 := 32

def isspace (c : UInt8) : Bool := c = 32 ∨ (9 ≤ c ∧ c ≤ 13) ∨ c = 160

/-- `strim`: white-space is removed at both ends. -/
def strim (s : Str) : Str := (s.reverse.dropWhile isspace).reverse.dropWhile isspace

/-! ## env_attr_walk -/

/-- The name and the attributes of one entry: what is before and behind its first colon. -/
def attrEntry (entry : Str) : Str × Option Str :=
  match entry.dropWhile (· ≠ envAttrSep) with
  | [] => (strim entry, none)
  | _ :: attributes => (strim (entry.takeWhile (· ≠ envAttrSep)), some (strim attributes))

/-- What `env_attr_walk` calls back with, in order; entries without a name are left out. -/
def attrEntries (attrList : Str) : List (Str × Option Str) :=
  ((attrList.splitOn envAttrListDelim).map attrEntry).filter (·.1 ≠ [])

/-- `env_attr_walk` with a callback that always returns 0. A NULL list is left at once. -/
def envAttrWalk {σ : Type} (attrList : Option Str) (callback : Str → Option Str → σ → σ) (s : σ) :
    σ :=
  match attrList with
  | none => s
  | some attrList => (attrEntries attrList).foldl (fun s e => callback e.1 e.2 s) s

/-! ## env_attr_lookup -/

/-- A match may begin here. The argument is the list before the match, backwards. -/
def beginsEntry (before : Str) : Bool :=
  match before.dropWhile (· = blank) with
  | [] => true
  | prevch :: _ => prevch = envAttrListDelim

/-- A match may end here: behind it, blanks apart, is a colon, a comma or the end of the list. -/
def endsName (rest : Str) : Bool :=
  match rest.dropWhile (· = blank) with
  | [] => true
  | nextch :: _ => nextch = envAttrSep || nextch = envAttrListDelim

/-- The loop of `reverse_name_search`, one round for every place of the list. The result is the list from the
last match on. -/
def nameSearchLoop (searchFor : Str) : (before rest : Str) → (result : Option Str) → Option Str
  | _, [], result => result
  | before, c :: rest, result =>
    nameSearchLoop searchFor (c :: before) rest (if searchFor.isPrefixOf (c :: rest) && beginsEntry before &&
          endsName ((c :: rest).drop searchFor.length) then some (c :: rest) else result)

/-- `reverse_name_search`: the list from the match on, and the length of what was matched. -/
def reverseNameSearch (searched searchFor : Str) : Option Str × Nat :=
  if searchFor = [] then (some searched, searched.length)
  else (nameSearchLoop searchFor [] searched none, searchFor.length)

/-- The attributes that `env_attr_lookup` copies, `rest` being the list behind the name. -/
def attributesAt (rest : Str) : Str :=
  match rest.dropWhile (· = blank) with
  | [] => []
  | c :: rest =>
    if c ≠ envAttrSep then []
    else (rest.dropWhile (· = blank)).takeWhile fun c => c ≠ envAttrListDelim ∧ c ≠ blank

/-- `env_attr_lookup` of a list that is not NULL; `none` is `-ENOENT`. -/
def envAttrLookup (attrList name : Str) : Option Str :=
  let found := reverseNameSearch attrList name
  found.1.map fun entry => attributesAt (entry.drop found.2)

/-! ## The last entry for a name -/

/-- The attributes of the last entry for a name; an entry without a colon has none. -/
def lastEntry (entries : List (Str × Option Str)) (name : Str) : Option Str :=
  ((entries.filter (·.1 = name)).getLast?).map fun e => e.2.getD []

/-- A name that an entry can have. -/
structure LiteralName (name : Str) : Prop where
  ne_nil : name ≠ []
  plain : ∀ c ∈ name, c ≠ envAttrListDelim ∧ c ≠ envAttrSep

def NoSpace (s : Str) : Prop := ∀ c ∈ s, isspace c = false

instance (s : Str) : Decidable (NoSpace s) :=
  inferInstanceAs (Decidable (∀ c ∈ s, isspace c = false))

/-! ## Where the search finds a name -/

/-- The name of an entry: what is before its first colon, without the blanks around it. -/
def bareName (entry : Str) : Str :=
  ((entry.takeWhile (· ≠ envAttrSep)).dropWhile (· = blank)).rdropWhile (· = blank)

def attributePart (entry : Str) : Str := (entry.dropWhile (· ≠ envAttrSep)).drop 1

/-- The attributes of an entry as `env_attr_lookup` copies them: up to the next blank. -/
def firstWord (entry : Str) : Str :=
  ((attributePart entry).dropWhile (· = blank)).takeWhile (· ≠ blank)

/-- A name that can be looked up. -/
structure PlainName (name : Str) : Prop extends LiteralName name where
  no_blank : blank ∉ name

/-- The rest of the list behind an entry. -/
def EntryTail (tail : Str) : Prop := tail = [] ∨ ∃ rest, tail = envAttrListDelim :: rest

theorem splitOn_entry {a : Str} (ha : envAttrListDelim ∉ a) (rest : Str) :
    (a ++ envAttrListDelim :: rest).splitOn envAttrListDelim =
      a :: rest.splitOn envAttrListDelim := by
  have hne : ∀ c ∈ a, (c == envAttrListDelim) = false :=
    fun c hc => beq_false_of_ne fun h => ha (h ▸ hc)
  exact List.splitOnP_append_cons_of_forall_mem hne _ BEq.rfl _

/-- A list is one entry, or an entry, a comma and a list. -/
@[elab_as_elim]
theorem entry_induction {motive : Str → Prop} (s : Str) (last : ∀ s, envAttrListDelim ∉ s → motive s)
    (entry : ∀ a rest, envAttrListDelim ∉ a → motive rest →
      motive (a ++ envAttrListDelim :: rest)) : motive s := by
  induction hn : s.length using Nat.strong_induction_on generalizing s with
  | _ n ih =>
  by_cases hmem : envAttrListDelim ∈ s
  · obtain ⟨a, rest, rfl, ha⟩ := List.eq_append_cons_of_mem hmem
    refine entry a rest ha (ih rest.length ?_ rest rfl)
    rw [← hn, List.length_append, List.length_cons]
    omega
  · exact last s hmem

theorem subset_of_mem_splitOn {s e : Str} (he : e ∈ s.splitOn envAttrListDelim) : e ⊆ s := by
  induction s using entry_induction with
  | last s hmem =>
    rw [List.splitOn_eq_singleton hmem, List.mem_singleton] at he
    rw [he]
    exact List.Subset.refl s
  | entry a rest ha ih =>
    rw [splitOn_entry ha, List.mem_cons] at he
    rcases he with rfl | he
    · exact List.subset_append_left _ _
    · exact fun c hc => List.mem_append_right _ (List.mem_cons_of_mem _ (ih he hc))

section Search

variable {s a tail before name : Str} {c : UInt8} {result : Option Str}

theorem EntryTail.dropWhile_blank (htail : EntryTail tail) (a : Str) :
    (a ++ tail).dropWhile (· = blank) = a.dropWhile (· = blank) ++ tail := by
  induction a with
  | nil => rcases htail with rfl | ⟨rest, rfl⟩ <;> rfl
  | cons c a ih =>
    rw [List.cons_append, List.dropWhile_cons, List.dropWhile_cons, ih]
    split <;> rfl

theorem EntryTail.takeWhile_word (htail : EntryTail tail) (ha : envAttrListDelim ∉ a) :
    (a ++ tail).takeWhile (fun c => c ≠ envAttrListDelim ∧ c ≠ blank) =
      a.takeWhile (· ≠ blank) := by
  induction a with
  | nil => rcases htail with rfl | ⟨rest, rfl⟩ <;> rfl
  | cons c a ih =>
    have hc : c ≠ envAttrListDelim := fun h => ha (h ▸ List.mem_cons_self)
    rw [List.cons_append, List.takeWhile_cons, List.takeWhile_cons, ih fun h => ha (List.mem_cons_of_mem c h)]
    simp only [ne_eq, hc, not_false_eq_true, true_and]

theorem beginsEntry_cons (before : Str) (c : UInt8) :
    beginsEntry (c :: before) = if c = blank then beginsEntry before
      else decide (c = envAttrListDelim) := by
  by_cases hc : c = blank <;> simp [beginsEntry, hc]

theorem endsName_cons (s : Str) (c : UInt8) :
    endsName (c :: s) = if c = blank then endsName s
      else (c = envAttrSep || c = envAttrListDelim) := by
  by_cases hc : c = blank <;> simp [endsName, hc]

theorem rdropWhile_cons {p : UInt8 → Bool} (c : UInt8) (s : Str) : (c :: s).rdropWhile p =
      if s.rdropWhile p = [] ∧ p c = true then [] else c :: s.rdropWhile p := by
  rw [List.rdropWhile, List.reverse_cons, List.dropWhile_append]
  by_cases hs : s.reverse.dropWhile p = []
  · by_cases hc : p c = true <;> simp [List.rdropWhile, hs, hc]
  · simp [List.rdropWhile, hs]

theorem endsName_append (htail : EntryTail tail) (ha : envAttrListDelim ∉ a) :
    endsName (a ++ tail) =
      decide ((a.takeWhile (· ≠ envAttrSep)).rdropWhile (· = blank) = []) := by
  induction a with
  | nil => rcases htail with rfl | ⟨rest, rfl⟩ <;> rfl
  | cons c a ih =>
    have hc : c ≠ envAttrListDelim := fun h => ha (h ▸ List.mem_cons_self)
    have hsep : blank ≠ envAttrSep := by decide
    rw [List.cons_append, endsName_cons, ih fun h => ha (List.mem_cons_of_mem c h), List.takeWhile_cons]
    by_cases hblank : c = blank
    · simp [hblank, hsep, rdropWhile_cons]
    · by_cases hcolon : c = envAttrSep
      · simp [hcolon, Ne.symm hsep]
      · simp [hblank, hcolon, hc, rdropWhile_cons]

/-- Blanks apart, the name is all there is before the next colon or comma. -/
theorem isPrefixOf_and_endsName (htail : EntryTail tail) (ha : envAttrListDelim ∉ a)
    (hplain : ∀ c ∈ name, c ≠ envAttrListDelim ∧ c ≠ envAttrSep) (hblank : blank ∉ name) :
    (name.isPrefixOf (a ++ tail) && endsName ((a ++ tail).drop name.length)) =
      decide ((a.takeWhile (· ≠ envAttrSep)).rdropWhile (· = blank) = name) := by
  induction name generalizing a with
  | nil =>
    rw [List.length_nil, List.drop_zero, endsName_append htail ha, List.isPrefixOf_nil_left, Bool.true_and]
  | cons d name ih =>
    obtain ⟨hd1, hd2⟩ := hplain d List.mem_cons_self
    have hd3 : d ≠ blank := fun h => hblank (h ▸ List.mem_cons_self)
    cases a with
    | nil =>
      rcases htail with rfl | ⟨rest, rfl⟩
      · rfl
      · rw [List.nil_append, List.isPrefixOf_cons_cons, beq_false_of_ne hd1]
        rfl
    | cons c a =>
      have ih' := ih (fun h => ha (List.mem_cons_of_mem c h)) (fun e he => hplain e (List.mem_cons_of_mem d he))
        fun h => hblank (List.mem_cons_of_mem d h)
      rw [List.length_cons, List.cons_append, List.drop_succ_cons, List.isPrefixOf_cons_cons,
        Bool.and_assoc, ih', List.takeWhile_cons]
      by_cases hdc : d = c
      · subst hdc
        simp [hd2, hd3, rdropWhile_cons]
      · rw [beq_false_of_ne hdc, Bool.false_and, eq_comm, decide_eq_false_iff_not]
        split
        · rw [rdropWhile_cons]
          split <;> simp [Ne.symm hdc]
        · simp

theorem nameSearchLoop_skip (hne : name ≠ []) (hc : c ∉ name) :
    nameSearchLoop name before (c :: s) result = nameSearchLoop name (c :: before) s result := by
  have hno : name.isPrefixOf (c :: s) = false := by
    cases name with
    | nil => exact absurd rfl hne
    | cons d name =>
      have hd : d ≠ c := fun h => hc (h ▸ List.mem_cons_self)
      rw [List.isPrefixOf_cons_cons, beq_false_of_ne hd, Bool.false_and]
  rw [nameSearchLoop, hno, Bool.false_and, Bool.false_and, if_neg Bool.false_ne_true]

theorem nameSearchLoop_inside (hb : beginsEntry before = false) (ha : envAttrListDelim ∉ a) :
    nameSearchLoop name before (a ++ tail) result =
      nameSearchLoop name (a.reverse ++ before) tail result := by
  induction a generalizing before with
  | nil => rfl
  | cons c a ih =>
    have hc : c ≠ envAttrListDelim := fun h => ha (h ▸ List.mem_cons_self)
    have hb' : beginsEntry (c :: before) = false := by
      rw [beginsEntry_cons, hb]
      split
      · rfl
      · exact decide_eq_false hc
    rw [List.cons_append, nameSearchLoop, hb, Bool.and_false, Bool.false_and,
      if_neg Bool.false_ne_true, ih hb' fun h => ha (List.mem_cons_of_mem c h), List.reverse_cons,
      List.append_assoc, List.singleton_append]

/-- In one entry, the name is found behind the blanks it begins with, or not at all. -/
theorem nameSearchLoop_entry (hname : PlainName name) (hb : beginsEntry before = true)
    (ha : envAttrListDelim ∉ a) (htail : EntryTail tail) :
    nameSearchLoop name before (a ++ tail) result =
      nameSearchLoop name (a.reverse ++ before) tail
        (if bareName a = name then some (a.dropWhile (· = blank) ++ tail) else result) := by
  have hsep : blank ≠ envAttrSep := by decide
  induction a generalizing before with
  | nil =>
    have hno : bareName [] ≠ name := hname.ne_nil.symm
    rw [if_neg hno]
    rfl
  | cons c a ih =>
    have ha' : envAttrListDelim ∉ a := fun h => ha (List.mem_cons_of_mem c h)
    by_cases hc : c = blank
    · subst hc
      have hbare : bareName (blank :: a) = bareName a := by
        simp [bareName, hsep]
      have hb' : beginsEntry (blank :: before) = true := by
        exact hb
      rw [List.cons_append, nameSearchLoop_skip hname.ne_nil hname.no_blank, ih hb' ha', hbare,
        List.reverse_cons, List.append_assoc, List.singleton_append]
      simp
    · have hc' : c ≠ envAttrListDelim := fun h => ha (h ▸ List.mem_cons_self)
      have hmatch := isPrefixOf_and_endsName htail ha hname.plain hname.no_blank
      have hfront : (c :: a).dropWhile (· = blank) = c :: a := by simp [hc]
      have hbare : bareName (c :: a) = ((c :: a).takeWhile (· ≠ envAttrSep)).rdropWhile (· = blank) := by
        rw [bareName, List.takeWhile_cons]
        split
        · simp [hc]
        · rfl
      have hin : beginsEntry (c :: before) = false := by
        rw [beginsEntry_cons, if_neg hc]
        exact decide_eq_false hc'
      rw [List.cons_append] at hmatch ⊢
      rw [nameSearchLoop, hb, Bool.and_true, hmatch, nameSearchLoop_inside hin ha', ← hbare, hfront,
        List.reverse_cons, List.append_assoc, List.singleton_append]
      simp

theorem dropWhile_eq_of_bareName (h : bareName a = name) :
    ∃ blanks, (∀ c ∈ blanks, c = blank) ∧
      a.dropWhile (· = blank) = name ++ blanks ++ a.dropWhile (· ≠ envAttrSep) := by
  have hsep : blank ≠ envAttrSep := by decide
  have hsplit : a.dropWhile (· = blank) =
      (a.takeWhile (· ≠ envAttrSep)).dropWhile (· = blank) ++ a.dropWhile (· ≠ envAttrSep) := by
    clear h
    induction a with
    | nil => rfl
    | cons c a ih =>
      by_cases hc : c = blank
      · simp only [hc, List.dropWhile_cons, List.takeWhile_cons, ne_eq, hsep, not_false_eq_true, decide_true, if_true]
        exact ih
      · by_cases hcolon : c = envAttrSep
        · simp [hcolon, Ne.symm hsep]
        · simp [hc, hcolon]
  refine ⟨((a.takeWhile (· ≠ envAttrSep)).dropWhile (· = blank)).rtakeWhile (· = blank), fun c hc => ?_, ?_⟩
  · simpa using List.mem_rtakeWhile_imp hc
  · rw [hsplit, ← h, bareName, List.rdropWhile_append_rtakeWhile]

theorem attributesAt_entry (ha : envAttrListDelim ∉ a) (htail : EntryTail tail) (h : bareName a = name) :
    attributesAt ((a.dropWhile (· = blank) ++ tail).drop name.length) = firstWord a := by
  obtain ⟨blanks, hblanks, hfront⟩ := dropWhile_eq_of_bareName h
  have hskip : ∀ rest : Str, (blanks ++ rest).dropWhile (· = blank) = rest.dropWhile (· = blank) :=
    fun rest => List.dropWhile_append_of_pos fun c hc => decide_eq_true (hblanks c hc)
  have hsub : attributePart a ⊆ a :=
    fun c hc => (List.dropWhile_suffix _).subset (List.drop_subset _ _ hc)
  have hno : envAttrListDelim ∉ (attributePart a).dropWhile (· = blank) :=
    fun hmem => ha (hsub ((List.dropWhile_suffix _).subset hmem))
  rw [hfront, List.append_assoc, List.append_assoc, List.drop_left, attributesAt, hskip,
    htail.dropWhile_blank, firstWord]
  have hhead := List.head?_dropWhile_not (fun c => decide (c ≠ envAttrSep)) a
  cases hd : a.dropWhile (· ≠ envAttrSep) with
  | nil =>
    have hpart : attributePart a = [] := by rw [attributePart, hd]; rfl
    rw [hpart]
    rcases htail with rfl | ⟨rest, rfl⟩ <;> rfl
  | cons c attributes =>
    rw [hd] at hhead
    have hc : c = envAttrSep := by simpa using hhead
    have hpart : attributePart a = attributes := by rw [attributePart, hd]; rfl
    rw [hpart] at hno ⊢
    subst hc
    have hkeep : (envAttrSep :: attributes).dropWhile (· = blank) = envAttrSep :: attributes := rfl
    rw [hkeep, List.cons_append]
    simp only [ne_eq, not_true_eq_false, if_false]
    rw [htail.dropWhile_blank]
    exact htail.takeWhile_word hno

end Search

/-! ## From comma to comma -/

section Last

variable {name : Str}

theorem lastEntry_cons (e : Str × Option Str) (entries : List (Str × Option Str)) :
    lastEntry (e :: entries) name =
      (lastEntry entries name).or (if e.1 = name then some (e.2.getD []) else none) := by
  rw [lastEntry, lastEntry, List.filter_cons]
  by_cases he : e.1 = name
  · rw [if_pos (decide_eq_true he), if_pos he, List.getLast?_cons]
    cases (entries.filter (·.1 = name)).getLast? <;> rfl
  · rw [if_neg (by simpa using he), if_neg he, Option.or_none]

theorem lastEntry_filter (hname : name ≠ []) (entries : List (Str × Option Str)) :
    lastEntry (entries.filter (·.1 ≠ [])) name = lastEntry entries name := by
  unfold lastEntry
  rw [List.filter_filter]
  have hfilter : ∀ e ∈ entries, (decide (e.1 = name) && decide (e.1 ≠ [])) = decide (e.1 = name) := by
    intro e _
    by_cases he : e.1 = name
    · simp [he, hname]
    · simp [he]
  rw [List.filter_congr hfilter]

/-- An entry as `env_attr_lookup` reads it. -/
def blankEntry (entry : Str) : Str × Option Str := (bareName entry, some (firstWord entry))

/-- The last entry of the name, or what was found before. -/
theorem nameSearchLoop_eq (hname : PlainName name) (s before : Str) (result : Option Str)
    (hb : beginsEntry before = true) :
    (nameSearchLoop name before s result).map (fun e => attributesAt (e.drop name.length)) =
      (lastEntry ((s.splitOn envAttrListDelim).map blankEntry) name).or
        (result.map fun e => attributesAt (e.drop name.length)) := by
  have hfound : ∀ {a tail : Str} (result : Option Str), envAttrListDelim ∉ a → EntryTail tail →
      (if bareName a = name then some (a.dropWhile (· = blank) ++ tail) else result).map
        (fun e => attributesAt (e.drop name.length)) =
      (if (blankEntry a).1 = name then some ((blankEntry a).2.getD []) else none).or
        (result.map fun e => attributesAt (e.drop name.length)) := by
    intro a tail result ha htail
    by_cases h : bareName a = name
    · have h' : (blankEntry a).1 = name := h
      rw [if_pos h, if_pos h', Option.map_some, attributesAt_entry ha htail h]
      rfl
    · have h' : (blankEntry a).1 ≠ name := h
      rw [if_neg h, if_neg h']
      rfl
  induction s using entry_induction generalizing before result with
  | last s hmem =>
    have hlast : EntryTail [] := Or.inl rfl
    have hentry : nameSearchLoop name before (s ++ []) result = _ :=
      nameSearchLoop_entry hname hb hmem hlast
    rw [List.append_nil] at hentry
    rw [hentry, List.splitOn_eq_singleton hmem, List.map_singleton, lastEntry_cons, nameSearchLoop]
    exact hfound result hmem hlast
  | entry a rest ha ih =>
    have htail : EntryTail (envAttrListDelim :: rest) := Or.inr ⟨rest, rfl⟩
    have hdelim : envAttrListDelim ∉ name := fun h => (hname.plain _ h).1 rfl
    rw [nameSearchLoop_entry hname hb ha htail, nameSearchLoop_skip hname.ne_nil hdelim,
      ih _ _ rfl, splitOn_entry ha, List.map_cons, lastEntry_cons, Option.or_assoc,
      hfound result ha htail]

/-- `env_attr_lookup` finds the last entry of the name in every list whatever. -/
theorem envAttrLookup_eq_blankEntry (hname : PlainName name) (attrList : Str) :
    envAttrLookup attrList name =
      lastEntry ((attrList.splitOn envAttrListDelim).map blankEntry) name := by
  have h := nameSearchLoop_eq hname attrList [] none rfl
  rw [Option.map_none, Option.or_none] at h
  rw [envAttrLookup, reverseNameSearch, if_neg hname.ne_nil]
  exact h

theorem lastEntry_map_congr {f g : Str → Str × Option Str} {entries : List Str}
    (h : ∀ e ∈ entries, (f e).1 = (g e).1 ∧ (f e).2.getD [] = (g e).2.getD []) :
    lastEntry (entries.map f) name = lastEntry (entries.map g) name := by
  induction entries with
  | nil => rfl
  | cons e entries ih =>
    obtain ⟨h1, h2⟩ := h e List.mem_cons_self
    rw [List.map_cons, List.map_cons, lastEntry_cons, lastEntry_cons,
      ih fun e' he' => h e' (List.mem_cons_of_mem e he'), h1, h2]

theorem attrEntry_eq (entry : Str) : (attrEntry entry).1 = strim (entry.takeWhile (· ≠ envAttrSep)) ∧
      (attrEntry entry).2.getD [] = strim (attributePart entry) := by
  rw [attrEntry, attributePart]
  have hsplit :=
    List.takeWhile_append_dropWhile (p := fun c => decide (c ≠ envAttrSep)) (l := entry)
  cases hd : entry.dropWhile (· ≠ envAttrSep) with
  | nil =>
    rw [hd, List.append_nil] at hsplit
    rw [hsplit]
    exact ⟨rfl, rfl⟩
  | cons c attributes => exact ⟨rfl, rfl⟩

end Last

/-! ## Entries with blanks only -/

section Blanked

variable {name : Str}

/-- The entry has no white-space but blanks, and its attributes are one word. -/
structure Blanked (entry : Str) : Prop where
  blanks : ∀ c ∈ entry, isspace c = true → c = blank
  word : blank ∉ ((attributePart entry).dropWhile (· = blank)).rdropWhile (· = blank)

instance (entry : Str) : Decidable (Blanked entry) :=
  decidable_of_iff ((∀ c ∈ entry, isspace c = true → c = blank) ∧
      blank ∉ ((attributePart entry).dropWhile (· = blank)).rdropWhile (· = blank))
    ⟨fun h => ⟨h.1, h.2⟩, fun h => ⟨h.1, h.2⟩⟩

theorem dropWhile_congr_mem {p q : UInt8 → Bool} {s : Str} (h : ∀ c ∈ s, p c = q c) :
    s.dropWhile p = s.dropWhile q := by
  induction s with
  | nil => rfl
  | cons c s ih =>
    rw [List.dropWhile_cons, List.dropWhile_cons, h c List.mem_cons_self,
      ih fun d hd => h d (List.mem_cons_of_mem c hd)]

theorem dropWhile_rdropWhile (p : UInt8 → Bool) (s : Str) :
    (s.rdropWhile p).dropWhile p = (s.dropWhile p).rdropWhile p := by
  induction s with
  | nil => rfl
  | cons c s ih =>
    by_cases hc : p c = true
    · rw [rdropWhile_cons, List.dropWhile_cons_of_pos hc, ← ih]
      by_cases hs : s.rdropWhile p = []
      · rw [if_pos ⟨hs, hc⟩, hs]
      · rw [if_neg fun h => hs h.1, List.dropWhile_cons_of_pos hc]
    · rw [List.dropWhile_cons_of_neg hc, rdropWhile_cons, if_neg fun h => hc h.2, List.dropWhile_cons_of_neg hc]

theorem strim_eq_of_blanks {s : Str} (h : ∀ c ∈ s, isspace c = true → c = blank) :
    strim s = (s.dropWhile (· = blank)).rdropWhile (· = blank) := by
  have hiff : ∀ c ∈ s, isspace c = decide (c = blank) := by
    intro c hc
    by_cases hblank : c = blank
    · rw [hblank]
      decide
    · rw [decide_eq_false hblank]
      exact Bool.eq_false_iff.mpr fun hsp => hblank (h c hc hsp)
  have hback : (s.reverse.dropWhile isspace).reverse = s.rdropWhile (· = blank) := by
    rw [List.rdropWhile, dropWhile_congr_mem fun c hc => hiff c (List.mem_reverse.mp hc)]
  rw [strim, hback, ← dropWhile_rdropWhile]
  exact dropWhile_congr_mem fun c hc => hiff c ((List.rdropWhile_prefix _ _).subset hc)

theorem Blanked.attrEntry_eq {entry : Str} (h : Blanked entry) : (blankEntry entry).1 = (attrEntry entry).1 ∧
      (blankEntry entry).2.getD [] = (attrEntry entry).2.getD [] := by
  obtain ⟨hfst, hsnd⟩ := Env.attrEntry_eq entry
  have hpart : attributePart entry ⊆ entry :=
    fun c hc => (List.dropWhile_suffix _).subset (List.drop_subset _ _ hc)
  rw [hfst, hsnd, strim_eq_of_blanks fun c hc => h.blanks c ((List.takeWhile_prefix _).subset hc),
    strim_eq_of_blanks fun c hc => h.blanks c (hpart hc)]
  refine ⟨rfl, ?_⟩
  show firstWord entry = _
  have hword := h.word
  rw [firstWord]
  generalize (attributePart entry).dropWhile (· = blank) = s at hword ⊢
  have hsplit := List.rdropWhile_append_rtakeWhile (p := fun c => decide (c = blank)) (l := s)
  have htail : ∀ c ∈ s.rtakeWhile (· = blank), c = blank :=
    fun c hc => by simpa using List.mem_rtakeWhile_imp hc
  have hpass : ∀ c ∈ s.rdropWhile (· = blank), decide (c ≠ blank) = true :=
    fun c hc => decide_eq_true fun hb => hword (hb ▸ hc)
  conv_lhs => rw [← hsplit]
  rw [List.takeWhile_append_of_pos hpass]
  have hnil : (s.rtakeWhile (· = blank)).takeWhile (· ≠ blank) = [] := by
    cases ht : s.rtakeWhile (· = blank) with
    | nil => rfl
    | cons c tail =>
      rw [ht] at htail
      rw [htail c List.mem_cons_self]
      rfl
  rw [hnil, List.append_nil]

theorem nameSearchLoop_of_notMem {s before : Str} {result : Option Str} {c : UInt8}
    (hc : c ∈ name) (hs : c ∉ s) : nameSearchLoop name before s result = result := by
  induction s generalizing before with
  | nil => rfl
  | cons d s ih =>
    have hno : name.isPrefixOf (d :: s) = false := by
      refine Bool.eq_false_iff.mpr fun h => hs ?_
      exact (List.isPrefixOf_iff_prefix.mp h).subset hc
    rw [nameSearchLoop, hno, Bool.false_and, Bool.false_and, if_neg Bool.false_ne_true]
    exact ih fun h => hs (List.mem_cons_of_mem d h)

/-- In a list without white-space `env_attr_lookup` finds what `env_attr_walk` calls back with
last. -/
theorem envAttrLookup_eq (hname : LiteralName name) {attrList : Str} (hs : NoSpace attrList) :
    envAttrLookup attrList name = lastEntry (attrEntries attrList) name := by
  have hnoblank : ∀ c ∈ attrList, c ≠ blank := by
    rintro c hc rfl
    exact absurd (hs _ hc) (by decide)
  rw [attrEntries, lastEntry_filter hname.ne_nil]
  by_cases hblank : blank ∈ name
  · have hno : ∀ e ∈ attrList.splitOn envAttrListDelim, (attrEntry e).1 ≠ name := by
      intro e he h
      rw [(attrEntry_eq e).1] at h
      have hsub : strim (e.takeWhile (· ≠ envAttrSep)) ⊆ e := by
        intro c hc
        have hc' := List.mem_reverse.mp ((List.dropWhile_suffix _).subset hc)
        have hc'' := List.mem_reverse.mp ((List.dropWhile_suffix _).subset hc')
        exact (List.takeWhile_prefix _).subset hc''
      exact hnoblank _ (subset_of_mem_splitOn he (hsub (h ▸ hblank))) rfl
    have hnone : lastEntry ((attrList.splitOn envAttrListDelim).map attrEntry) name = none := by
      rw [lastEntry, List.filter_eq_nil_iff.mpr]
      · rfl
      · intro e he
        obtain ⟨e', he', rfl⟩ := List.mem_map.mp he
        simpa using hno e' he'
    have hmiss : blank ∉ attrList := fun h => hnoblank _ h rfl
    rw [hnone, envAttrLookup, reverseNameSearch, if_neg hname.ne_nil, nameSearchLoop_of_notMem hblank hmiss]
    rfl
  · rw [envAttrLookup_eq_blankEntry ⟨hname, hblank⟩]
    refine lastEntry_map_congr fun e he => Blanked.attrEntry_eq ⟨fun c hc hsp => ?_, fun hmem => ?_⟩
    · rw [hs c (subset_of_mem_splitOn he hc)] at hsp
      cases hsp
    · have hmem' := (List.dropWhile_suffix _).subset ((List.rdropWhile_prefix _ _).subset hmem)
      have hin : blank ∈ e := (List.dropWhile_suffix _).subset (List.drop_subset _ _ hmem')
      exact hnoblank _ (subset_of_mem_splitOn he hin) rfl

end Blanked

/-! ## The two parsers on every list -/

section Agree

variable {name : Str}

def walkCalls (attrList : Str) : List (Str × Option Str) :=
  envAttrWalk (some attrList) (fun name attributes calls => calls ++ [(name, attributes)]) []

theorem walkCalls_eq (attrList : Str) : walkCalls attrList = attrEntries attrList := by
  have hfold : ∀ (entries calls : List (Str × Option Str)),
      entries.foldl (fun calls e => calls ++ [(e.1, e.2)]) calls = calls ++ entries := by
    intro entries
    induction entries with
    | nil => exact fun calls => (List.append_nil calls).symm
    | cons e entries ih =>
      intro calls
      rw [List.foldl_cons, ih, List.append_assoc]
      rfl
  exact hfold (attrEntries attrList) []

/-- `env_attr_lookup` finds the attributes of the last call of `env_attr_walk` with the name, no attributes
being the same as empty ones. -/
def ParsersAgree (attrList name : Str) : Prop :=
  envAttrLookup attrList name = lastEntry (walkCalls attrList) name

/-- The last entry with only blanks around the name and the last one with any white-space around it have the
same attributes, up to the next blank and without the white-space around them; or neither is there. -/
def AlikeByBlanks (attrList name : Str) : Prop :=
  ((attrList.splitOn envAttrListDelim).filter (bareName · = name)).getLast?.map firstWord =
    ((attrList.splitOn envAttrListDelim).filter
      fun e => strim (e.takeWhile (· ≠ envAttrSep)) = name).getLast?.map
        fun e => strim (attributePart e)

instance (attrList name : Str) : Decidable (AlikeByBlanks attrList name) :=
  inferInstanceAs (Decidable (_ = _))

theorem lastEntry_map (f : Str → Str × Option Str) (entries : List Str) (name : Str) :
    lastEntry (entries.map f) name =
      (entries.filter fun e => (f e).1 = name).getLast?.map fun e => (f e).2.getD [] := by
  rw [lastEntry, List.filter_map, List.getLast?_map, Option.map_map]
  rfl

theorem alikeByBlanks_iff (attrList name : Str) : AlikeByBlanks attrList name ↔
    lastEntry ((attrList.splitOn envAttrListDelim).map blankEntry) name =
      lastEntry ((attrList.splitOn envAttrListDelim).map attrEntry) name := by
  rw [lastEntry_map, lastEntry_map, AlikeByBlanks]
  simp only [(attrEntry_eq _).1, (attrEntry_eq _).2]
  rfl

theorem alikeByBlanks_of_blanked {attrList : Str}
    (h : ∀ e ∈ attrList.splitOn envAttrListDelim, Blanked e) (name : Str) :
    AlikeByBlanks attrList name :=
  (alikeByBlanks_iff attrList name).mpr (lastEntry_map_congr fun e he => (h e he).attrEntry_eq)

/-- The two parsers agree on a name exactly if the entries that bear it with blanks around it and
those that bear it with white-space around it lead to the same attributes. -/
theorem attr_parsers_agree_iff (attrList : Str) (hname : PlainName name) :
    ParsersAgree attrList name ↔ AlikeByBlanks attrList name := by
  rw [alikeByBlanks_iff, ParsersAgree, walkCalls_eq, attrEntries, lastEntry_filter hname.ne_nil,
    envAttrLookup_eq_blankEntry hname]

/-- ` foo : bar , foo : bat , foot : baz `, of the unit tests. -/
def fooBarBat : Str :=
  [32, 102, 111, 111, 32, 58, 32, 98, 97, 114, 32, 44, 32, 102, 111, 111, 32, 58, 32, 98, 97, 116,
    32, 44, 32, 102, 111, 111, 116, 32, 58, 32, 98, 97, 122, 32]

theorem attr_parsers_agree_foo : PlainName [102, 111, 111] ∧ ParsersAgree fooBarBat [102, 111, 111] := by
  have hname : PlainName [102, 111, 111] := ⟨⟨by decide, by decide +kernel⟩, by decide +kernel⟩
  refine ⟨hname, (attr_parsers_agree_iff fooBarBat hname).mpr (alikeByBlanks_of_blanked ?_ _)⟩
  decide +kernel

/-- `à:x` in UTF-8: `strim` takes the second byte off the name, `env_attr_lookup` does not. -/
theorem attr_parsers_differ :
    PlainName [0xc3, 0xa0] ∧ envAttrLookup [0xc3, 0xa0, 58, 120] [0xc3, 0xa0] = some [120] ∧
      walkCalls [0xc3, 0xa0, 58, 120] = [([0xc3], some [120])] ∧
      ¬ ParsersAgree [0xc3, 0xa0, 58, 120] [0xc3, 0xa0] := by
  refine ⟨⟨⟨by decide, by decide +kernel⟩, by decide +kernel⟩, by decide +kernel, by decide +kernel, ?_⟩
  rw [ParsersAgree]
  decide +kernel

end Agree

end Armada3720.Env
