import Armada3720.Lib.Probe
import Armada3720.Env.HashTable

/-!
# Searching the environment hash table

`Wf` is the invariant of tables, `Paths` what a search relies on and `Sound` what is left when callbacks may
refuse. A search always ends, at the entry of its key if there is one, and otherwise with the slot a new entry
goes to (`Target`), which may be a live first slot when no never-used one is left.
-/

namespace Armada3720.Env

open Lib

/-! ## The size of a table -/

variable {n : Nat} {t : HsearchData}

theorem isprimeLoop_spec (fuel div : Nat) (hodd : div % 2 = 1) (hno : ∀ e, e % 2 = 1 → 3 ≤ e → e < div → ¬ e ∣ n) :
    (∀ e, e % 2 = 1 → 3 ≤ e → e < isprimeLoop n fuel div → ¬ e ∣ n) ∧
      (n ≤ isprimeLoop n fuel div * isprimeLoop n fuel div ∨ n % isprimeLoop n fuel div = 0 ∨
        isprimeLoop n fuel div = div + 2 * fuel) := by
  induction fuel generalizing div with
  | zero => exact ⟨hno, Or.inr (Or.inr rfl)⟩
  | succ fuel ih =>
    rw [isprimeLoop]
    split
    · next h =>
      have hno' : ∀ e, e % 2 = 1 → 3 ≤ e → e < div + 2 → ¬ e ∣ n := by
        intro e he he3 hlt hdvd
        rcases Nat.lt_trichotomy e div with hlt' | rfl | hgt
        · exact hno e he he3 hlt' hdvd
        · exact h.2 (Nat.mod_eq_zero_of_dvd hdvd)
        · omega
      obtain ⟨h1, h2⟩ := ih (div + 2) (by omega) hno'
      refine ⟨h1, h2.imp_right (Or.imp_right fun h3 => ?_)⟩
      omega
    · next h =>
      refine ⟨hno, ?_⟩
      by_cases hmod : n % div = 0
      · exact Or.inr (Or.inl hmod)
      · have hge : n ≤ div * div % 2 ^ 32 := by
          by_contra hlt
          exact h ⟨by omega, hmod⟩
        exact Or.inl (hge.trans (Nat.mod_le _ _))

theorem isprime_sound (hodd : n % 2 = 1) (h : isprime n = true) : n = 1 ∨ (n.Prime ∧ 5 ≤ n) := by
  have hmod : n % isprimeLoop n n 3 ≠ 0 := by simpa [isprime] using h
  obtain ⟨hno, hend⟩ := isprimeLoop_spec n 3 rfl (by omega)
  have hsq : n ≤ isprimeLoop n n 3 * isprimeLoop n n 3 := by
    rcases hend with h1 | h1 | h1
    · exact h1
    · exact absurd h1 hmod
    · nlinarith
  by_cases h1 : n = 1
  · exact Or.inl h1
  refine Or.inr ⟨?_, ?_⟩
  · by_contra hnp
    have hpos : 0 < n := by omega
    have hle := Nat.minFac_sq_le_self hpos hnp
    have hdvd := Nat.minFac_dvd n
    have hp := (Nat.minFac_prime h1).two_le
    have hodd' : n.minFac % 2 = 1 := by
      have := (Nat.minFac_prime h1).eq_two_or_odd
      rcases this with h2 | h2
      · rw [h2] at hdvd
        omega
      · exact h2
    have hled : n.minFac ≤ isprimeLoop n n 3 := by
      by_contra hgt
      nlinarith
    rcases Nat.lt_or_ge n.minFac (isprimeLoop n n 3) with hlt | hge
    · exact hno _ hodd' (by omega) hlt hdvd
    · have heq : n.minFac = isprimeLoop n n 3 := by omega
      rw [heq] at hdvd
      exact hmod (Nat.mod_eq_zero_of_dvd hdvd)
  · by_contra hlt
    have h3 : n = 3 := by omega
    subst h3
    exact absurd h (by decide)

theorem nextPrime_spec {fuel nel m : Nat} (hodd : nel % 2 = 1) (h : nextPrime fuel nel = some m) :
    m % 2 = 1 ∧ isprime (m % 2 ^ 32) = true := by
  induction fuel generalizing nel with
  | zero => cases h
  | succ fuel ih =>
    rw [nextPrime] at h
    split at h
    · next hp =>
      cases h
      exact ⟨hodd, hp⟩
    · exact ih (by omega) h

/-- A size on which the search path of every key covers the table. -/
def GoodSize (n : Nat) : Prop := (n = 1 ∨ (n.Prime ∧ 5 ≤ n)) ∧ n < 2 ^ 26

theorem hcreateR_spec {nel : Nat} (h : hcreateR nel = some t) :
    GoodSize t.size ∧ t.filled = 0 ∧ t.table = fun _ => Slot.zero := by
  unfold hcreateR at h
  split at h
  · cases h
  · next m hm =>
    dsimp only at h
    split at h
    · next hfit =>
      cases h
      have hodd : (nel ||| 1) % 2 = 1 := by simp
      obtain ⟨h1, h2⟩ := nextPrime_spec hodd hm
      simp only [sizeofEntry, ramSize] at hfit
      have hodd' : m % 2 ^ 32 % 2 = 1 := by omega
      have hlt : m % 2 ^ 32 < 2 ^ 26 := by omega
      exact ⟨⟨isprime_sound hodd' h2, hlt⟩, rfl, rfl⟩
    · cases h

/-! ## The search path of a key -/

theorem hashVal_mem (hn : GoodSize n) (k : Str) : 1 ≤ hashVal n k ∧ hashVal n k ≤ n := by
  have hpos : 0 < n := by
    rcases hn.1 with h | h <;> omega
  unfold hashVal
  dsimp only
  have hlt := Nat.mod_lt ((k.take (k.length % 2 ^ 32)).reverse.foldl
    (fun h c => (h * 16 + c.toNat) % 2 ^ 32) (k.length % 2 ^ 32)) hpos
  split <;> omega

theorem hashVal2_mem {h : Nat} (hn : n < 2 ^ 26) (h5 : 5 ≤ n) :
    0 < hashVal2 n h ∧ hashVal2 n h < n := by
  have hmod : (n + 2 ^ 32 - 2) % 2 ^ 32 = n - 2 := by omega
  have hlt : h % (n - 2) < n - 2 := Nat.mod_lt _ (by omega)
  unfold hashVal2
  rw [hmod]
  omega

/-- The slots that a search for `k` looks at, in order. -/
def path (n : Nat) (k : Str) (j : Nat) : Nat :=
  probe n (hashVal2 n (hashVal n k)) (hashVal n k) j

theorem path_zero (n : Nat) (k : Str) : path n k 0 = hashVal n k := rfl

theorem path_succ (n : Nat) (k : Str) (j : Nat) :
    path n k (j + 1) = stepBack n (hashVal2 n (hashVal n k)) (path n k j) :=
  probe_succ _ _ _ _

theorem path_one_one (k : Str) : path 1 k 1 = 0 := by
  have h1 : hashVal 1 k = 1 := by
    unfold hashVal
    dsimp only
    rw [Nat.mod_one]
    rfl
  rw [path_succ, path_zero, h1]
  rfl

theorem path_mem (hn : GoodSize n) (k : Str) {j : Nat} (hj : j < n) :
    1 ≤ path n k j ∧ path n k j ≤ n := by
  rcases hn.1 with rfl | ⟨-, h5⟩
  · have h0 : j = 0 := by omega
    rw [h0, path_zero]
    exact hashVal_mem hn k
  · exact probe_mem (hashVal2_mem hn.2 h5) (hashVal_mem hn k) j

/-! ## Live entries -/

def HsearchData.Live (t : HsearchData) (i : Nat) : Prop := 0 < (t.table i).used

instance (t : HsearchData) (i : Nat) : Decidable (t.Live i) :=
  inferInstanceAs (Decidable (0 < (t.table i).used))

def HsearchData.Holds (t : HsearchData) (i : Nat) (k : Str) : Prop :=
  t.Live i ∧ (t.table i).entry.key = some k

def Entry.Accepts (e : Entry) : Prop :=
  ∀ name value op flag, e.callbackRefuses name value op flag = false

/-- Memory is available and every hook and callback accepts. -/
structure Hooks.Accepting (hk : Hooks) : Prop where
  strdup : ∀ s, hk.strdup s = some s
  change : ∀ e value op flag, hk.refuses e value op flag = false
  callback : ∀ k f, hk.callbackOf k = some f → ∀ name value op flag, f name value op flag = false

/-- Every live entry is on the path of its key, and no key is live twice. -/
structure Paths (t : HsearchData) : Prop where
  size : GoodSize t.size
  used : ∀ i, (t.table i).used ≠ 0 → (t.table i).used = -1 ∨ t.Live i
  bounds : ∀ i, (t.table i).used ≠ 0 → 1 ≤ i ∧ i ≤ t.size
  filed : ∀ i, t.Live i → ∃ k, (t.table i).entry.key = some k ∧
    (t.table i).used = hashVal t.size k ∧
    ∃ j < t.size, path t.size k j = i ∧ ∀ j' < j, (t.table (path t.size k j')).used ≠ 0
  inj : ∀ i i' k, t.Holds i k → t.Holds i' k → i = i'

/-- Live entries have values, and `filled` counts each of them. Entering over a live entry leaves `filled` too
high. -/
structure Sound (t : HsearchData) : Prop extends Paths t where
  data : ∀ i, t.Live i → ∃ v, (t.table i).entry.data = some v
  live_le : ((Finset.Icc 1 t.size).filter t.Live).card ≤ t.filled
  filled_le : t.filled ≤ t.size

/-- What every table that calls of `hsearch_r` and `hdelete_r` make has. -/
structure Wf (t : HsearchData) : Prop where
  size : GoodSize t.size
  used : ∀ i, (t.table i).used ≠ 0 → (t.table i).used = -1 ∨ t.Live i
  bounds : ∀ i, (t.table i).used ≠ 0 → 1 ≤ i ∧ i ≤ t.size
  /-- a live entry is on the path of its key, no never-used slot before it -/
  filed : ∀ i, t.Live i → ∃ k, (t.table i).entry.key = some k ∧
    (t.table i).used = hashVal t.size k ∧
    ∃ j < t.size, path t.size k j = i ∧ ∀ j' < j, (t.table (path t.size k j')).used ≠ 0
  data : ∀ i, t.Live i → ∃ v, (t.table i).entry.data = some v
  accepts : ∀ i, (t.table i).entry.Accepts
  inj : ∀ i i' k, t.Holds i k → t.Holds i' k → i = i'
  filled : t.filled = ((Finset.Icc 1 t.size).filter t.Live).card

theorem Wf.paths (hwf : Wf t) : Paths t :=
  ⟨hwf.size, hwf.used, hwf.bounds, hwf.filed, hwf.inj⟩

theorem Wf.filled_le (hwf : Wf t) : t.filled ≤ t.size := by
  rw [hwf.filled]
  calc ((Finset.Icc 1 t.size).filter t.Live).card ≤ (Finset.Icc 1 t.size).card :=
        Finset.card_filter_le _ _
    _ = t.size := by rw [Nat.card_Icc, Nat.add_sub_cancel]

theorem Wf.sound (hwf : Wf t) : Sound t :=
  ⟨hwf.paths, hwf.data, hwf.filled.ge, hwf.filled_le⟩

theorem Sound.wf (hs : Sound t) (haccepts : ∀ i, (t.table i).entry.Accepts)
    (hfilled : t.filled = ((Finset.Icc 1 t.size).filter t.Live).card) : Wf t :=
  ⟨hs.size, hs.used, hs.bounds, hs.filed, hs.data, haccepts, hs.inj, hfilled⟩

theorem Paths.hashVal_lt (hp : Paths t) (k : Str) : hashVal t.size k < 2 ^ 26 :=
  (hashVal_mem hp.size k).2.trans_lt hp.size.2

theorem Paths.live_of_mark (hp : Paths t) {i : Nat} {k : Str}
    (hu : uintOfInt (t.table i).used = hashVal t.size k) : t.Live i := by
  have hlt := hp.hashVal_lt k
  have hpos := (hashVal_mem hp.size k).1
  have h0 : (t.table i).used ≠ 0 := by
    intro h0
    simp only [uintOfInt] at hu
    omega
  refine (hp.used i h0).resolve_left fun h1 => ?_
  simp only [uintOfInt] at hu
  omega

theorem Paths.match_iff (hp : Paths t) (i : Nat) (k : Str) :
    (uintOfInt (t.table i).used = hashVal t.size k ∧ (t.table i).entry.key = some k) ↔
      t.Holds i k := by
  have hlt := hp.hashVal_lt k
  constructor
  · rintro ⟨hu, hkey⟩
    exact ⟨hp.live_of_mark hu, hkey⟩
  · rintro ⟨hlive, hkey⟩
    obtain ⟨k', hk', hused, -⟩ := hp.filed i hlive
    rw [hkey] at hk'
    cases hk'
    refine ⟨?_, hkey⟩
    simp only [uintOfInt]
    omega

/-! ## Where a search ends -/

/-- The search for `k` does not go past step `j` of its path. -/
def Stops (t : HsearchData) (k : Str) (j : Nat) : Prop :=
  path t.size k j = hashVal t.size k ∨ (t.table (path t.size k j)).used = 0 ∨
    t.Holds (path t.size k j) k

section

variable {t : HsearchData} (hp : Paths t)
include hp

theorem Paths.compare_eq_none_iff (hk : Hooks) (item : Item) (action : Action) (flag i : Nat) :
    compareAndOverwriteEntry hk item action t flag (hashVal t.size item.key) i = none ↔
      ¬ t.Holds i item.key := by
  rw [← hp.match_iff i item.key]
  unfold compareAndOverwriteEntry
  dsimp only
  constructor
  · intro h hm
    rw [if_pos hm] at h
    split at h
    · split_ifs at h
    · cases h
  · intro hm
    exact if_neg hm

theorem Paths.exists_stops (k : Str) : ∃ j, 0 < j ∧ j ≤ t.size ∧ Stops t k j := by
  rcases hp.size.1 with h1 | ⟨hprime, h5⟩
  · refine ⟨1, one_pos, h1.ge, Or.inr (Or.inl ?_)⟩
    rw [h1, path_one_one]
    by_contra h0
    have := hp.bounds 0 h0
    omega
  · exact ⟨t.size, hprime.pos, le_rfl, Or.inl (probe_period (hashVal2_mem hp.size.2 h5) (hashVal_mem hp.size k))⟩

/-- The first step at which the search stops: every slot before it is used and not the key's. -/
theorem Paths.exists_first_stop {k : Str} (hused : (t.table (hashVal t.size k)).used ≠ 0)
    (hfirst : ¬ t.Holds (hashVal t.size k) k) :
    ∃ m, 0 < m ∧ m ≤ t.size ∧ Stops t k m ∧ (∀ j, 0 < j → j < m → ¬ Stops t k j) ∧
      ∀ j < m, (t.table (path t.size k j)).used ≠ 0 ∧ ¬ t.Holds (path t.size k j) k := by
  classical
  obtain ⟨n, hn0, hn, hs⟩ := hp.exists_stops k
  have hex : ∃ j, 0 < j ∧ Stops t k j := ⟨n, hn0, hs⟩
  have hmin : ∀ j, 0 < j → j < Nat.find hex → ¬ Stops t k j :=
    fun j hj hlt hs => Nat.find_min hex hlt ⟨hj, hs⟩
  refine ⟨Nat.find hex, (Nat.find_spec hex).1, (Nat.find_le ⟨hn0, hs⟩).trans hn,
    (Nat.find_spec hex).2, hmin, fun j hj => ?_⟩
  rcases Nat.eq_zero_or_pos j with rfl | hj0
  · exact ⟨hused, hfirst⟩
  · have hns := hmin j hj0 hj
    simp only [Stops, not_or] at hns
    exact hns.2

/-- The loop of `hsearch_r` ends at the first step `m` at which the search stops. -/
theorem Paths.probeLoop_eq (hk : Hooks) (item : Item) (action : Action) (flag : Nat) {m : Nat}
    (hm : Stops t item.key m) (hmin : ∀ j, 0 < j → j < m → ¬ Stops t item.key j) (fuel j : Nat)
    (hj : j < m) (hfuel : m ≤ j + fuel) :
    (∃ r, path t.size item.key m ≠ hashVal t.size item.key ∧
      compareAndOverwriteEntry hk item action t flag (hashVal t.size item.key) (path t.size item.key m) = some r ∧
      probeLoop hk item action t flag (hashVal t.size item.key)
        (hashVal2 t.size (hashVal t.size item.key)) fuel (path t.size item.key j) =
          some (.done r.1 r.2)) ∨
    ((path t.size item.key m = hashVal t.size item.key ∨
        (t.table (path t.size item.key m)).used = 0) ∧
      probeLoop hk item action t flag (hashVal t.size item.key)
        (hashVal2 t.size (hashVal t.size item.key)) fuel (path t.size item.key j) =
          some (.empty (path t.size item.key m))) := by
  induction fuel generalizing j with
  | zero => omega
  | succ fuel ih =>
    have hstep : (if path t.size item.key j ≤ hashVal2 t.size (hashVal t.size item.key) then
        t.size + path t.size item.key j - hashVal2 t.size (hashVal t.size item.key)
        else path t.size item.key j - hashVal2 t.size (hashVal t.size item.key)) =
        path t.size item.key (j + 1) := (path_succ _ _ _).symm
    rw [probeLoop]
    simp only [hstep]
    rcases Nat.lt_or_ge (j + 1) m with hlt | hge
    · -- not yet there: no slot before `m` ends the loop
      have hns := hmin (j + 1) (Nat.succ_pos j) hlt
      simp only [Stops, not_or] at hns
      rw [if_neg hns.1, (hp.compare_eq_none_iff hk item action flag _).mpr hns.2.2]
      simp only [ne_eq, hns.2.1, not_false_eq_true, if_true]
      exact ih (j + 1) hlt (by omega)
    · have hjm : j + 1 = m := by omega
      rw [hjm]
      by_cases hstart : path t.size item.key m = hashVal t.size item.key
      · exact Or.inr ⟨Or.inl hstart, if_pos hstart⟩
      · rw [if_neg hstart]
        cases hc : compareAndOverwriteEntry hk item action t flag (hashVal t.size item.key)
            (path t.size item.key m) with
        | some r => exact Or.inl ⟨r, hstart, rfl, rfl⟩
        | none =>
          have hnot := (hp.compare_eq_none_iff hk item action flag _).mp hc
          have h0 : (t.table (path t.size item.key m)).used = 0 :=
            (hm.resolve_left hstart).resolve_right hnot
          refine Or.inr ⟨Or.inr h0, ?_⟩
          simp only [ne_eq, h0, not_true_eq_false, if_false]

end

/-- On the path of `k` with no never-used slot before it, and not live unless the search went all the way round.
-/
def Target (t : HsearchData) (k : Str) (i : Nat) : Prop :=
  ∃ j < t.size, path t.size k j = i ∧ (∀ j' < j, (t.table (path t.size k j')).used ≠ 0) ∧
    ((t.table i).used = 0 ∨ (i = hashVal t.size k ∧ (t.table i).used = -1) ∨
      (i = hashVal t.size k ∧ ∀ i', 1 ≤ i' → i' ≤ t.size → (t.table i').used ≠ 0))

section

variable {t : HsearchData} (hp : Paths t)
include hp

theorem Paths.not_holds_of_unused {k : Str} {m : Nat} (hm : (t.table (path t.size k m)).used = 0)
    (hno : ∀ j < m, ¬ t.Holds (path t.size k j) k) (i : Nat) : ¬ t.Holds i k := by
  rintro ⟨hlive, hkey⟩
  obtain ⟨k', hk', -, j, -, rfl, hbefore⟩ := hp.filed i hlive
  rw [hkey] at hk'
  cases hk'
  rcases Nat.lt_trichotomy j m with hlt | rfl | hgt
  · exact hno j hlt ⟨hlive, hkey⟩
  · rw [HsearchData.Live, hm] at hlive
    omega
  · exact hbefore m hgt hm

theorem Paths.exists_path_eq (k : Str) {i : Nat} (hi : 1 ≤ i ∧ i ≤ t.size) :
    ∃ j < t.size, path t.size k j = i := by
  rcases hp.size.1 with h1 | ⟨hprime, h5⟩
  · have hmem := hashVal_mem hp.size k
    exact ⟨0, by omega, by rw [path_zero]; omega⟩
  · exact probe_surj hprime (hashVal2_mem hp.size.2 h5) (hashVal_mem hp.size k) hi

theorem Paths.path_ne_start (k : Str) {j : Nat} (hj : 0 < j) (hjn : j < t.size) :
    path t.size k j ≠ hashVal t.size k := by
  rcases hp.size.1 with h1 | ⟨hprime, h5⟩
  · omega
  · exact probe_ne_start hprime (hashVal2_mem hp.size.2 h5) hj hjn

theorem Paths.all_used {k : Str} (h : ∀ j < t.size, (t.table (path t.size k j)).used ≠ 0) (i : Nat)
    (h1 : 1 ≤ i) (hn : i ≤ t.size) : (t.table i).used ≠ 0 := by
  obtain ⟨j, hj, rfl⟩ := hp.exists_path_eq k ⟨h1, hn⟩
  exact h j hj

end

section End

/-! A search that stops after `m` steps without the entry of its key. -/

variable {t : HsearchData} {k : Str} {m : Nat}

theorem Paths.eq_size_of_start (hp : Paths t) (hm0 : 0 < m) (hmn : m ≤ t.size)
    (hstart : path t.size k m = hashVal t.size k) : m = t.size := by
  by_contra hne
  exact hp.path_ne_start k hm0 (by omega) hstart

theorem Paths.not_holds_of_end (hp : Paths t) (hm0 : 0 < m) (hmn : m ≤ t.size)
    (hpass : ∀ j < m, ¬ t.Holds (path t.size k j) k)
    (hend : path t.size k m = hashVal t.size k ∨ (t.table (path t.size k m)).used = 0) (i : Nat) :
    ¬ t.Holds i k := by
  rcases hend with hstart | h0
  · intro hi
    have hm := hp.eq_size_of_start hm0 hmn hstart
    obtain ⟨j, hj, rfl⟩ := hp.exists_path_eq k (hp.bounds i (ne_of_gt hi.1))
    exact hpass j (by omega) hi
  · exact hp.not_holds_of_unused h0 hpass i

/-- A deleted first slot, else the slot the search ended at. The search of one live slot leaves the table. -/
theorem Paths.target_of_end (hp : Paths t) (hm0 : 0 < m) (hmn : m ≤ t.size)
    (hpass : ∀ j < m, (t.table (path t.size k j)).used ≠ 0)
    (hend : path t.size k m = hashVal t.size k ∨ (t.table (path t.size k m)).used = 0) :
    (t.size = 1 ∧ ∃ i, t.Live i) ∨
      Target t k (if (if (t.table (hashVal t.size k)).used = -1 then hashVal t.size k else 0) ≠ 0
        then (if (t.table (hashVal t.size k)).used = -1 then hashVal t.size k else 0)
        else path t.size k m) := by
  have hh0 : hashVal t.size k ≠ 0 := by
    have := hashVal_mem hp.size k
    omega
  have hused : (t.table (hashVal t.size k)).used ≠ 0 := hpass 0 hm0
  by_cases hdel : (t.table (hashVal t.size k)).used = -1
  · rw [if_pos hdel, if_pos hh0]
    exact Or.inr ⟨0, by omega, rfl, by omega, Or.inr (Or.inl ⟨rfl, hdel⟩)⟩
  rw [if_neg hdel, if_neg (not_not.mpr rfl)]
  by_cases hstart : path t.size k m = hashVal t.size k
  · have hm := hp.eq_size_of_start hm0 hmn hstart
    rw [hstart]
    exact Or.inr ⟨0, by omega, rfl, by omega, Or.inr (Or.inr ⟨rfl, hp.all_used fun j hj => hpass j (by omega)⟩)⟩
  · rcases Nat.lt_or_ge m t.size with hlt | hge
    · exact Or.inr ⟨m, hlt, rfl, hpass, Or.inl (hend.resolve_left hstart)⟩
    · -- a full round that does not end at the first slot: the table has one slot
      rcases hp.size.1 with h1 | ⟨hprime, h5⟩
      · exact Or.inl ⟨h1, _, (hp.used _ hused).resolve_left hdel⟩
      · have hm : m = t.size := by omega
        refine absurd ?_ hstart
        rw [hm]
        exact probe_period (hashVal2_mem hp.size.2 h5) (hashVal_mem hp.size k)

end End

/-- Every call of `hsearch_r` ends, at the entry of the key or with the slot that a new entry goes to. -/
theorem Paths.hsearchR_cases {t : HsearchData} (hp : Paths t) (hk : Hooks) (item : Item)
    (action : Action) (flag : Nat) :
    (∃ i, t.Holds i item.key ∧ hsearchR hk item action t flag =
      compareAndOverwriteEntry hk item action t flag (hashVal t.size item.key) i) ∨
    ((∀ i, ¬ t.Holds i item.key) ∧ ∃ fd idx,
      ((t.size = 1 ∧ ∃ i, t.Live i) ∨ Target t item.key (if fd ≠ 0 then fd else idx)) ∧
      hsearchR hk item action t flag =
        some (hsearchMissing hk item action t flag (hashVal t.size item.key) fd idx)) := by
  have hpos : 0 < t.size := by
    have := hashVal_mem hp.size item.key
    omega
  by_cases hused : (t.table (hashVal t.size item.key)).used = 0
  · -- the first slot was never used
    refine Or.inr ⟨hp.not_holds_of_unused (m := 0) hused (by omega), 0, hashVal t.size item.key,
      Or.inr ⟨0, hpos, rfl, by omega, Or.inl hused⟩, ?_⟩
    simp only [hsearchR, hused, ne_eq, not_true_eq_false, if_false]
  by_cases hfirst : t.Holds (hashVal t.size item.key) item.key
  · refine Or.inl ⟨_, hfirst, ?_⟩
    simp only [hsearchR, ne_eq, hused, not_false_eq_true, if_true]
    cases hc : compareAndOverwriteEntry hk item action t flag (hashVal t.size item.key) (hashVal t.size item.key) with
    | some r => rfl
    | none => exact absurd hfirst ((hp.compare_eq_none_iff hk item action flag _).mp hc)
  obtain ⟨m, hm0, hmn, hm, hmin, hpass⟩ := hp.exists_first_stop hused hfirst
  have hsearch : hsearchR hk item action t flag = (probeLoop hk item action t flag
      (hashVal t.size item.key) (hashVal2 t.size (hashVal t.size item.key)) t.size
      (hashVal t.size item.key)).map (Probed.finish hk item action t flag (hashVal t.size item.key)
        (if (t.table (hashVal t.size item.key)).used = -1 then hashVal t.size item.key else 0)) := by
    simp only [hsearchR, ne_eq, hused, not_false_eq_true, if_true,
      (hp.compare_eq_none_iff hk item action flag _).mpr hfirst]
  rw [hsearch]
  rcases hp.probeLoop_eq hk item action flag hm hmin t.size 0 hm0 (by omega) with
    ⟨r, -, hc, hloop⟩ | ⟨hend, hloop⟩
  · refine Or.inl ⟨path t.size item.key m, ?_, ?_⟩
    · by_contra hh
      rw [(hp.compare_eq_none_iff hk item action flag _).mpr hh] at hc
      cases hc
    · rw [path_zero] at hloop
      rw [hloop, hc]
      rfl
  · rw [path_zero] at hloop
    rw [hloop]
    refine Or.inr ⟨?_, _, _, ?_, rfl⟩
    · exact hp.not_holds_of_end hm0 hmn (fun j hj => (hpass j hj).2) hend
    · exact hp.target_of_end hm0 hmn (fun j hj => (hpass j hj).1) hend

theorem Sound.filled_of_size_one {t : HsearchData} (hs : Sound t) (h1 : t.size = 1) {i : Nat}
    (hi : t.Live i) : t.filled = t.size := by
  have hi1 : i = 1 := by
    have := hs.bounds i (ne_of_gt hi)
    omega
  have hcard : ((Finset.Icc 1 t.size).filter t.Live).card = 1 := by
    rw [h1, Finset.Icc_self, Finset.filter_singleton, if_pos (hi1 ▸ hi)]
    rfl
  have hle := hs.live_le
  have hle' := hs.filled_le
  omega

theorem Sound.hsearchR_cases {t : HsearchData} (hs : Sound t) (hk : Hooks) (item : Item)
    (action : Action) (flag : Nat) :
    (∃ i, t.Holds i item.key ∧ hsearchR hk item action t flag =
      compareAndOverwriteEntry hk item action t flag (hashVal t.size item.key) i) ∨
    ((∀ i, ¬ t.Holds i item.key) ∧ ∃ fd idx, (t.filled = t.size ∨ Target t item.key (if fd ≠ 0 then fd else idx)) ∧
      hsearchR hk item action t flag =
        some (hsearchMissing hk item action t flag (hashVal t.size item.key) fd idx)) := by
  rcases hs.toPaths.hsearchR_cases hk item action flag with hfound | ⟨hno, fd, idx, hroom, hsearch⟩
  · exact Or.inl hfound
  · refine Or.inr ⟨hno, fd, idx, hroom.imp_left ?_, hsearch⟩
    rintro ⟨h1, i, hi⟩
    exact hs.filled_of_size_one h1 hi

end Armada3720.Env
