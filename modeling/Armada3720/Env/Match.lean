import Armada3720.Env.HashTableRun

/-!
# Enumerating the variables with a prefix

`hmatch_r` returns the next slot whose key starts with a prefix, and `0` when there is none. The slots are `1 ..
size`, but its loop stops before `size`: an entry in the last slot is never returned.

`hmatch_enumerates_iff` is for every table: the keys with the prefix are enumerated exactly if the last slot has none
of them and no live slot before it has a NULL key.
-/

namespace Armada3720.Env

/-- `strncmp(match, key, strlen(match)) == 0`. `none`: `key` is NULL and is read. -/
def keyStartsWith (m : Str) : Option Str → Option Bool
  | some key => some (m.isPrefixOf key)
  | none => if m = [] then some true else none

/-- The loop of `hmatch_r` from slot `idx`, with `n` slots to look at. -/
def hmatchLoop (m : Str) (htab : HsearchData) : Nat → Nat → Option Nat
  | 0, _ => some 0
  | n + 1, idx =>
    if (htab.table idx).used ≤ 0 then hmatchLoop m htab n (idx + 1)
    else
      match keyStartsWith m (htab.table idx).entry.key with
      | none => none
      | some true => some idx
      | some false => hmatchLoop m htab n (idx + 1)

/-- `hmatch_r`: the slot it returns. `none`: it reads through a null pointer. -/
def hmatchR (m : Str) (lastIdx : Nat) (htab : HsearchData) : Option Nat :=
  hmatchLoop m htab (htab.size - (lastIdx + 1)) (lastIdx + 1)

/-- The slots that the loop of `env_complete` gets from `hmatch_r`. -/
def hmatchAll (m : Str) (htab : HsearchData) : Nat → Nat → Option (List Nat)
  | 0, _ => none
  | fuel + 1, idx =>
    match hmatchR m idx htab with
    | none => none
    | some idx => if idx = 0 then some [] else (hmatchAll m htab fuel idx).map (idx :: ·)

/-- The slot holds an entry whose key starts with the prefix. -/
def HsearchData.Matches (t : HsearchData) (m : Str) (i : Nat) : Prop :=
  1 ≤ i ∧ i ≤ t.size ∧ ∃ k, t.Holds i k ∧ m <+: k

/-- The loop does not go past the slot: its key starts with the prefix, or is NULL. -/
def HsearchData.Ends (t : HsearchData) (m : Str) (i : Nat) : Prop :=
  t.Live i ∧ keyStartsWith m (t.table i).entry.key ≠ some false

section Loop

variable {t : HsearchData} {m : Str}

theorem hmatchLoop_cases (n idx : Nat) :
    (∃ i, idx ≤ i ∧ i < idx + n ∧ t.Ends m i ∧ (∀ j, idx ≤ j → j < i → ¬ t.Ends m j) ∧
      hmatchLoop m t n idx = (keyStartsWith m (t.table i).entry.key).map fun _ => i) ∨
    ((∀ j, idx ≤ j → j < idx + n → ¬ t.Ends m j) ∧ hmatchLoop m t n idx = some 0) := by
  induction n generalizing idx with
  | zero =>
    right
    exact ⟨fun j h1 h2 => absurd h2 (by omega), rfl⟩
  | succ n ih =>
    by_cases hend : t.Ends m idx
    · left
      refine ⟨idx, le_rfl, by omega, hend, fun j h1 h2 => absurd h2 (by omega), ?_⟩
      rw [hmatchLoop, if_neg (not_le.mpr hend.1)]
      cases hkey : keyStartsWith m (t.table idx).entry.key with
      | none => rfl
      | some b =>
        cases b with
        | true => rfl
        | false => exact absurd hkey hend.2
    · have hstep : hmatchLoop m t (n + 1) idx = hmatchLoop m t n (idx + 1) := by
        rw [hmatchLoop]
        split
        · rfl
        · next hlive =>
          have hmiss : keyStartsWith m (t.table idx).entry.key = some false := by
            by_contra hne
            exact hend ⟨not_le.mp hlive, hne⟩
          rw [hmiss]
      have hfirst : ∀ j, idx ≤ j → (idx + 1 ≤ j → ¬ t.Ends m j) → ¬ t.Ends m j := by
        intro j hle hlater
        rcases hle.eq_or_lt with rfl | hlt
        · exact hend
        · exact hlater hlt
      rw [hstep]
      rcases ih (idx + 1) with ⟨i, h1, h2, hi, hbefore, hloop⟩ | ⟨hnone, hloop⟩
      · left
        exact ⟨i, by omega, by omega, hi, fun j hj hlt => hfirst j hj fun h => hbefore j h hlt, hloop⟩
      · right
        exact ⟨fun j hj hlt => hfirst j hj fun h => hnone j h (by omega), hloop⟩

theorem hmatchR_cases (idx : Nat) : (∃ i, idx < i ∧ i < t.size ∧ t.Ends m i ∧ (∀ j, idx < j → j < i → ¬ t.Ends m j) ∧
      hmatchR m idx t = (keyStartsWith m (t.table i).entry.key).map fun _ => i) ∨
    ((∀ j, idx < j → j < t.size → ¬ t.Ends m j) ∧ hmatchR m idx t = some 0) := by
  rcases hmatchLoop_cases (t.size - (idx + 1)) (idx + 1) with
    ⟨i, h1, h2, hi, hbefore, hloop⟩ | ⟨hnone, hloop⟩
  · left
    exact ⟨i, h1, by omega, hi, hbefore, hloop⟩
  · right
    exact ⟨fun j h1 h2 => hnone j h1 (by omega), hloop⟩

/-- The slots returned are those before the last whose key starts with the prefix, in order. -/
theorem hmatchAll_spec (m : Str) (fuel : Nat) {idx : Nat}
    (hkeys : ∀ i, idx < i → i < t.size → t.Live i → (t.table i).entry.key ≠ none)
    (hfuel : t.size ≤ idx + fuel) (hpos : 0 < fuel) :
    ∃ l, hmatchAll m t fuel idx = some l ∧ l.Pairwise (· < ·) ∧
      ∀ i, i ∈ l ↔ idx < i ∧ i < t.size ∧ ∃ k, t.Holds i k ∧ m <+: k := by
  have hends : ∀ i, idx < i → i < t.size → (t.Ends m i ↔ ∃ k, t.Holds i k ∧ m <+: k) := by
    intro i h1 h2
    constructor
    · rintro ⟨hlive, hmatch⟩
      obtain ⟨k, hk⟩ := Option.ne_none_iff_exists'.mp (hkeys i h1 h2 hlive)
      refine ⟨k, ⟨hlive, hk⟩, ?_⟩
      rw [hk] at hmatch
      simpa [keyStartsWith] using hmatch
    · rintro ⟨k, ⟨hlive, hk⟩, hprefix⟩
      refine ⟨hlive, ?_⟩
      rw [hk]
      simpa [keyStartsWith] using hprefix
  induction fuel generalizing idx with
  | zero => omega
  | succ fuel ih =>
    rw [hmatchAll]
    rcases hmatchR_cases idx with
      ⟨i, h1, h2, hi, hbefore, hret⟩ | ⟨hnone, hret⟩
    · obtain ⟨k, ⟨hlive, hk⟩, hprefix⟩ := (hends i h1 h2).mp hi
      have hkey : keyStartsWith m (t.table i).entry.key = some true := by
        rw [hk]
        simpa [keyStartsWith] using hprefix
      obtain ⟨l, hl, hsorted, hmem⟩ := @ih i (fun j hj => hkeys j (by omega)) (by omega) (by omega)
        fun j hj => hends j (by omega)
      rw [hret, hkey]
      refine ⟨i :: l, ?_, ?_, fun j => ?_⟩
      · simp only [Option.map_some]
        rw [if_neg (by omega), hl]
        rfl
      · exact List.pairwise_cons.mpr ⟨fun j hj => ((hmem j).mp hj).1, hsorted⟩
      · rw [List.mem_cons, hmem]
        constructor
        · rintro (rfl | ⟨hj1, hj2, hj⟩)
          · exact ⟨h1, h2, (hends j h1 h2).mp hi⟩
          · exact ⟨by omega, hj2, hj⟩
        · rintro ⟨hj1, hj2, hj⟩
          rcases Nat.lt_trichotomy j i with hlt | rfl | hgt
          · exact absurd ((hends j hj1 hj2).mpr hj) (hbefore j hj1 hlt)
          · exact .inl rfl
          · exact .inr ⟨hgt, hj2, hj⟩
    · rw [hret]
      refine ⟨[], if_pos rfl, List.Pairwise.nil, fun j => ?_⟩
      refine ⟨fun hj => absurd hj List.not_mem_nil, fun ⟨h1, h2, hj⟩ => ?_⟩
      exact absurd ((hends j h1 h2).mpr hj) (hnone j h1 h2)

theorem hmatchAll_of_null {fuel idx i : Nat} (h1 : idx < i) (h2 : i < t.size) (hlive : t.Live i)
    (hnull : (t.table i).entry.key = none) {l : List Nat} (hl : hmatchAll m t fuel idx = some l) :
    i ∈ l := by
  induction fuel generalizing idx l with
  | zero => cases hl
  | succ fuel ih =>
    have hends : t.Ends m i := by
      refine ⟨hlive, ?_⟩
      rw [hnull]
      show (if m = [] then some true else none) ≠ some false
      split <;> simp
    rw [hmatchAll] at hl
    rcases hmatchR_cases idx with
      ⟨j, hj1, hj2, hj, hbefore, hret⟩ | ⟨hnone, hret⟩
    · have hle : j ≤ i := not_lt.mp fun hlt => hbefore i h1 hlt hends
      rw [hret] at hl
      cases hkey : keyStartsWith m (t.table j).entry.key with
      | none =>
        rw [hkey] at hl
        cases hl
      | some b =>
        rw [hkey] at hl
        simp only [Option.map_some] at hl
        rw [if_neg (by omega)] at hl
        obtain ⟨l', hl', rfl⟩ := Option.map_eq_some_iff.mp hl
        rcases hle.eq_or_lt with rfl | hlt
        · exact List.mem_cons_self
        · exact List.mem_cons_of_mem j (ih hlt hl')
    · exact absurd hends (hnone i h1 h2)

end Loop

/-- Calling `hmatch_r` until it returns 0 gives every entry whose key starts with the prefix, once, exactly if
the last slot holds no such entry and no live slot before it has lost its key. -/
theorem hmatch_enumerates_iff (t : HsearchData) (m : Str) :
    (∃ l, hmatchAll m t (t.size + 1) 0 = some l ∧ l.Nodup ∧ ∀ i, i ∈ l ↔ t.Matches m i) ↔
      (∀ i, 0 < i → i < t.size → t.Live i → (t.table i).entry.key ≠ none) ∧
        ¬ t.Matches m t.size := by
  constructor
  · rintro ⟨l, hl, -, hmem⟩
    have hkeys : ∀ i, 0 < i → i < t.size → t.Live i → (t.table i).entry.key ≠ none := by
      intro i h1 h2 hlive hnull
      obtain ⟨-, -, k, hk, -⟩ := (hmem i).mp (hmatchAll_of_null h1 h2 hlive hnull hl)
      rw [hk.2] at hnull
      cases hnull
    refine ⟨hkeys, fun hlast => ?_⟩
    obtain ⟨l', hl', -, hmem'⟩ := hmatchAll_spec m (t.size + 1) hkeys (by omega) (by omega)
    obtain rfl : l = l' := Option.some_injective _ (hl.symm.trans hl')
    have := (hmem' t.size).mp ((hmem t.size).mpr hlast)
    omega
  · rintro ⟨hkeys, hlast⟩
    obtain ⟨l, hl, hsorted, hmem⟩ := hmatchAll_spec m (t.size + 1) hkeys (by omega) (by omega)
    refine ⟨l, hl, hsorted.imp fun h => h.ne, fun i => ?_⟩
    rw [hmem]
    constructor
    · rintro ⟨h1, h2, hi⟩
      exact ⟨h1, h2.le, hi⟩
    · rintro ⟨h1, h2, hi⟩
      rcases h2.eq_or_lt with rfl | hlt
      · exact absurd ⟨h1, h2, hi⟩ hlast
      · exact ⟨h1, hlt, hi⟩

/-- Three variables in five slots; the one in the last slot is found, but not enumerated. -/
theorem hmatch_misses_last_slot :
    hcreateR 5 = some fiveSlots ∧
    (runCalls [(Op.enter [98] [1]).call, (Op.enter [103] [2]).call, (Op.enter [108] [3]).call]
        fiveSlots fun _ => none).map
      (fun r => ((hsearchR .unset ⟨[108], none⟩ .find r.1 0).map (·.2), hmatchAll [108] r.1 6 0,
        hmatchAll [] r.1 6 0)) =
    some (some ⟨5, some 5, none⟩, some [], some [2, 4]) :=
  ⟨rfl, by decide +kernel⟩

end Armada3720.Env
