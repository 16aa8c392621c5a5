import Armada3720.Env.HashTableMap

/-!
# Runs of hash table calls

Beside the table a run keeps the map that the successful calls describe. `hsearch_refines_map` is for runs that
never enter over a live entry, `enter_loses_other_key` is a run that does, and `enter_over_live_loses` says that
this happens in every such state.
-/

namespace Armada3720.Env

open Lib Finset

inductive Op
  | enter (key value : Str)
  | find (key : Str)
  | delete (key : Str)
  deriving DecidableEq, Repr

structure Call where
  op : Op
  hooks : Hooks
  flag : Nat

def Call.exec (c : Call) (t : HsearchData) : Option (HsearchData × Bool) :=
  match c.op with
  | .enter k v =>
    (hsearchR c.hooks ⟨k, some v⟩ .enter t c.flag).map fun r => (r.1, r.2.retval.isSome)
  | .find k => (hsearchR c.hooks ⟨k, none⟩ .find t c.flag).map fun r => (r.1, r.2.retval.isSome)
  | .delete k => (hdeleteR c.hooks k t c.flag).map fun r => (r.1, r.2.1 != 0)

/-- What a call that succeeded says about the map. -/
def Op.record (op : Op) (ok : Bool) (m : Str → Option Str) : Str → Option Str :=
  match op, ok with
  | .enter k v, true => Function.update m k (some v)
  | .delete k, true => Function.update m k none
  | _, _ => m

def runCalls : List Call → HsearchData → (Str → Option Str) →
    Option (HsearchData × (Str → Option Str))
  | [], t, m => some (t, m)
  | c :: cs, t, m =>
    match c.exec t with
    | none => none
    | some (t', ok) => runCalls cs t' (c.op.record ok m)

instance (t : HsearchData) (i : Nat) (k : Str) : Decidable (t.Holds i k) :=
  inferInstanceAs (Decidable (t.Live i ∧ (t.table i).entry.key = some k))

/-- No never-used slot is left, the key is not there, the table is not full, and the first slot of the key is
not deleted. -/
def EntersOverLive (t : HsearchData) (k : Str) : Prop :=
  (∀ i ∈ Finset.Icc 1 t.size, (t.table i).used ≠ 0 ∧ ¬ t.Holds i k) ∧ t.filled ≠ t.size ∧
    (t.table (hashVal t.size k)).used ≠ -1

instance (t : HsearchData) (k : Str) : Decidable (EntersOverLive t k) :=
  inferInstanceAs (Decidable (_ ∧ _))

/-- The call does not enter over a live entry. -/
def Op.Safe (t : HsearchData) : Op → Prop
  | .enter k _ => ¬ EntersOverLive t k
  | _ => True

instance (t : HsearchData) : (op : Op) → Decidable (op.Safe t)
  | .enter k _ => inferInstanceAs (Decidable (¬ EntersOverLive t k))
  | .find _ => isTrue trivial
  | .delete _ => isTrue trivial

/-- Every call of the sequence is safe in the table it is made on. -/
def SafeCalls : List Call → HsearchData → Prop
  | [], _ => True
  | c :: cs, t => c.op.Safe t ∧ ∀ r ∈ c.exec t, SafeCalls cs r.1

instance decidableSafeCalls : (calls : List Call) → (t : HsearchData) → Decidable (SafeCalls calls t)
  | [], _ => isTrue trivial
  | c :: cs, t =>
    have : ∀ t', Decidable (SafeCalls cs t') := decidableSafeCalls cs
    inferInstanceAs (Decidable (c.op.Safe t ∧ ∀ r ∈ c.exec t, SafeCalls cs r.1))

/-- `FIND` of `item.key` answers `ans`: the slot of an entry with that value, or not found. -/
def Finds (t : HsearchData) (hk : Hooks) (item : Item) (flag : Nat) : Option Str → Prop
  | some v => ∃ i, i ≠ 0 ∧ (t.table i).entry.data = some v ∧
      hsearchR hk item .find t flag = some (t, ⟨i, some i, none⟩)
  | none => hsearchR hk item .find t flag = some (t, ⟨0, none, some .ESRCH⟩)

/-! ## One call -/

theorem Wf.finds {t : HsearchData} (hwf : Wf t) {m : Str → Option Str} (hm : Represents t m)
    (hk : Hooks) (item : Item) (flag : Nat) : Finds t hk item flag (m item.key) := by
  rcases hwf.paths.find_cases hk item flag with ⟨i, hi, hs⟩ | ⟨hno, hs⟩
  · obtain ⟨v, hv⟩ := hwf.data i hi.1
    rw [hwf.represents_some_of_holds hm hi, hv]
    refine ⟨i, ?_, hv, hs⟩
    have := hwf.bounds i (ne_of_gt hi.1)
    omega
  · rw [(hwf.represents_none_iff hm item.key).mpr hno]
    exact hs

theorem not_live_of_target {t : HsearchData} {k : Str} {i : Nat} (hno : ∀ i, ¬ t.Holds i k)
    (hfull : t.filled ≠ t.size) (hsafe : ¬ EntersOverLive t k) (ht : Target t k i) :
    ¬ t.Live i := by
  obtain ⟨-, -, -, -, h0 | ⟨-, h1⟩ | ⟨rfl, hall⟩⟩ := ht
  · rw [HsearchData.Live, h0]
    exact lt_irrefl 0
  · rw [HsearchData.Live, h1]
    decide
  · intro hlive
    refine hsafe ⟨fun i' hi' => ?_, hfull, ?_⟩
    · obtain ⟨h1, hn⟩ := mem_Icc.mp hi'
      exact ⟨hall i' h1 hn, hno i'⟩
    · intro h1
      rw [HsearchData.Live, h1] at hlive
      exact absurd hlive (by decide)

theorem Paths.live_of_entersOverLive {t : HsearchData} (hp : Paths t) {k : Str}
    (hover : EntersOverLive t k) : t.Live (hashVal t.size k) ∧ ∀ i, ¬ t.Holds i k := by
  obtain ⟨hall, -, hdel⟩ := hover
  refine ⟨(hp.used _ (hall _ (mem_Icc.mpr (hashVal_mem hp.size k))).1).resolve_left hdel, fun i hi => ?_⟩
  exact (hall i (mem_Icc.mpr (hp.bounds i (ne_of_gt hi.1)))).2 hi

section

variable {t : HsearchData} {m : Str → Option Str} (hwf : Wf t) (hm : Represents t m)
include hwf hm

/-- A safe call returns, keeps the invariant and does to the map what it reports. -/
theorem Wf.exec_spec (c : Call) (hacc : c.hooks.Accepting) (hsafe : c.op.Safe t) :
    ∃ t' ok, c.exec t = some (t', ok) ∧ Wf t' ∧ Represents t' (c.op.record ok m) := by
  obtain ⟨op, hk, flag⟩ := c
  cases op with
  | enter k v =>
    simp only [Call.exec]
    rcases hwf.enter_cases hacc k v flag with
      ⟨i, hi, hs⟩ | ⟨hno, hfull, hs⟩ | ⟨hno, hfull, i, e, ht, hek, hed, hea, hs⟩
    · exact ⟨_, true, by rw [hs]; rfl, hwf.setData i v, hwf.represents_setData hm hi⟩
    · exact ⟨t, false, by rw [hs]; rfl, hwf, hm⟩
    · have hi := not_live_of_target hno hfull hsafe ht
      exact ⟨_, true, by rw [hs]; rfl, hwf.file hno ht hi hek hed hea, hwf.represents_file hm hno hi hek hed⟩
  | find k =>
    simp only [Call.exec]
    rcases hwf.paths.find_cases hk ⟨k, none⟩ flag with ⟨i, hi, hs⟩ | ⟨hno, hs⟩
    · exact ⟨t, true, by rw [hs]; rfl, hwf, hm⟩
    · exact ⟨t, false, by rw [hs]; rfl, hwf, hm⟩
  | delete k =>
    simp only [Call.exec]
    rcases hwf.delete_cases hacc k flag with ⟨i, hi, hs⟩ | ⟨hno, hs⟩
    · exact ⟨_, true, by rw [hs]; rfl, hwf.hdelete hi.1, hwf.represents_hdelete hm hi⟩
    · exact ⟨t, false, by rw [hs]; rfl, hwf, hm⟩

theorem Wf.filled_eq_ncard : t.filled = {k | m k ≠ none}.ncard := by
  have himage : {k | m k ≠ none} = (fun i => ((t.table i).entry.key).getD []) ''
      (((Finset.Icc 1 t.size).filter t.Live : Finset Nat) : Set Nat) := by
    ext k
    simp only [Set.mem_ofPred_eq, Set.mem_image, mem_coe, mem_filter]
    rw [ne_eq, hwf.represents_none_iff hm, not_forall_not]
    constructor
    · rintro ⟨i, hi⟩
      have hb := hwf.bounds i (ne_of_gt hi.1)
      exact ⟨i, ⟨mem_Icc.mpr hb, hi.1⟩, by rw [hi.2]; rfl⟩
    · rintro ⟨i, ⟨-, hl⟩, rfl⟩
      obtain ⟨k, hk, -⟩ := hwf.filed i hl
      exact ⟨i, hl, by rw [hk]; rfl⟩
  have hinj : Set.InjOn (fun i => ((t.table i).entry.key).getD [])
      (((Finset.Icc 1 t.size).filter t.Live : Finset Nat) : Set Nat) := by
    intro i hi i' hi' h
    have hl := (mem_filter.mp (mem_coe.mp hi)).2
    have hl' := (mem_filter.mp (mem_coe.mp hi')).2
    obtain ⟨k, hk, -⟩ := hwf.filed i hl
    obtain ⟨k', hk', -⟩ := hwf.filed i' hl'
    simp only [hk, hk', Option.getD_some] at h
    exact hwf.inj i i' k ⟨hl, hk⟩ ⟨hl', h ▸ hk'⟩
  rw [himage, hinj.ncard_image, Set.ncard_coe_finset, hwf.filled]

theorem Wf.enter_fails_only_full {hk : Hooks} (hacc : hk.Accepting) (k v : Str) (flag : Nat) :
    ∃ r, hsearchR hk ⟨k, some v⟩ .enter t flag = some r ∧
      (r.2.retval = none → {k | m k ≠ none}.ncard = t.size) := by
  rcases hwf.enter_cases hacc k v flag with
    ⟨i, -, hs⟩ | ⟨-, hfull, hs⟩ | ⟨-, -, i, e, -, -, -, -, hs⟩
  · exact ⟨_, hs, fun h => by cases h⟩
  · exact ⟨_, hs, fun _ => (hwf.filled_eq_ncard hm).symm.trans hfull⟩
  · exact ⟨_, hs, fun h => by cases h⟩

end

/-- A call that is not safe drops the live entry of another key. -/
theorem Wf.enter_over_live_loses {t : HsearchData} (hwf : Wf t) {hk : Hooks} (hacc : hk.Accepting)
    {k : Str} (hover : EntersOverLive t k) (v : Str) (flag : Nat) :
    ∃ i k' t', k' ≠ k ∧ t.Holds i k' ∧ (∀ i', ¬ t'.Holds i' k') ∧
      hsearchR hk ⟨k, some v⟩ .enter t flag = some (t', ⟨1, some i, none⟩) := by
  obtain ⟨hlive, hno⟩ := hwf.paths.live_of_entersOverLive hover
  obtain ⟨hall, hfull, -⟩ := hover
  obtain ⟨k', hk', -⟩ := hwf.filed _ hlive
  have hne : k' ≠ k := fun h => hno _ ⟨hlive, h ▸ hk'⟩
  rcases hwf.enter_cases hacc k v flag with ⟨i, hi, -⟩ | ⟨-, hf, -⟩ | ⟨-, -, i, e, ht, hek, -, -, hs⟩
  · exact absurd hi (hno i)
  · exact absurd hf hfull
  · have hi := ht.eq_hashVal (hall i (mem_Icc.mpr (ht.mem hwf.size))).1
    subst hi
    refine ⟨_, k', _, hne, ⟨hlive, hk'⟩, fun i' hi' => ?_, hs⟩
    by_cases h : i' = hashVal t.size k
    · subst h
      have hkey := hi'.2
      rw [HsearchData.file_self] at hkey
      exact hne (Option.some.inj (hkey.symm.trans hek))
    · have hold : t.Holds i' k' := by
        have hboth := hi'
        rwa [HsearchData.Holds, HsearchData.Live, t.file_ne _ _ h] at hboth
      exact h (hwf.inj i' _ k' hold ⟨hlive, hk'⟩)

/-! ## Runs -/

theorem wf_of_hcreateR {nel : Nat} {t : HsearchData} (h : hcreateR nel = some t) :
    Wf t ∧ Represents t fun _ => none := by
  obtain ⟨hsize, hfilled, htable⟩ := hcreateR_spec h
  have hused : ∀ i, (t.table i).used = 0 := fun i => by rw [htable]; rfl
  have hdead : ∀ i, ¬ t.Live i := fun i => by rw [HsearchData.Live, hused]; exact lt_irrefl 0
  refine ⟨⟨hsize, fun i hi => absurd (hused i) hi, fun i hi => absurd (hused i) hi,
    fun i hi => absurd hi (hdead i), fun i hi => absurd hi (hdead i), fun i => ?_,
    fun i _ _ hi => absurd hi.1 (hdead i), ?_⟩, fun k v => ⟨by simp, ?_⟩⟩
  · rw [htable]
    intro name value op flag
    rfl
  · rw [hfilled, filter_false_of_mem fun i _ => hdead i, card_empty]
  · rintro ⟨i, hi, -⟩
    exact absurd hi.1 (hdead i)

/-- The map and the table go together through every run. -/
theorem Wf.runCalls_spec {t : HsearchData} (hwf : Wf t) {m : Str → Option Str}
    (hm : Represents t m) (calls : List Call) (hacc : ∀ c ∈ calls, c.hooks.Accepting)
    (hsafe : SafeCalls calls t) :
    ∃ t' m', runCalls calls t m = some (t', m') ∧ Wf t' ∧ Represents t' m' := by
  induction calls generalizing t m with
  | nil => exact ⟨t, m, rfl, hwf, hm⟩
  | cons c cs ih =>
    obtain ⟨t', ok, hexec, hwf', hm'⟩ :=
      hwf.exec_spec hm c (hacc c List.mem_cons_self) hsafe.1
    obtain ⟨t'', m'', hrun, hspec⟩ :=
      ih hwf' hm' (fun c' hc' => hacc c' (List.mem_cons_of_mem c hc')) (hsafe.2 _ hexec)
    refine ⟨t'', m'', ?_, hspec⟩
    rw [runCalls, hexec]
    exact hrun

/-- The table is a map in every run that does not enter over a live entry: `FIND` answers with the last value
entered and not deleted, whatever was done to other keys, and `ENTER` fails only when the table holds `size`
keys. -/
theorem hsearch_refines_map (nel : Nat) (_h5 : 5 ≤ nel) (t₀ : HsearchData)
    (hcreate : hcreateR nel = some t₀) (calls : List Call)
    (hacc : ∀ c ∈ calls, c.hooks.Accepting) (hsafe : SafeCalls calls t₀) :
    ∃ t m, runCalls calls t₀ (fun _ => none) = some (t, m) ∧
      (∀ hk item flag, Finds t hk item flag (m item.key)) ∧
      ∀ hk k v flag, Hooks.Accepting hk → ∃ r, hsearchR hk ⟨k, some v⟩ .enter t flag = some r ∧
        (r.2.retval = none → {k | m k ≠ none}.ncard = t.size) := by
  obtain ⟨hwf₀, hm₀⟩ := wf_of_hcreateR hcreate
  obtain ⟨t, m, hrun, hwf, hm⟩ := hwf₀.runCalls_spec hm₀ calls hacc hsafe
  exact ⟨t, m, hrun, hwf.finds hm, fun hk k v flag hacc' =>
    hwf.enter_fails_only_full hm hacc' k v flag⟩

def Hooks.unset : Hooks := ⟨none, fun _ => none, fun _ => none, some⟩

theorem Hooks.unset_accepting : Hooks.unset.Accepting :=
  ⟨fun _ => rfl, fun _ _ _ _ => rfl, fun _ _ h => by cases h⟩

def Op.call (op : Op) : Call := ⟨op, .unset, 0⟩

def fiveSlots : HsearchData := ⟨5, 0, fun _ => Slot.zero⟩

theorem hsearch_refines_map_two_keys :
    ∃ t m, runCalls [(Op.enter [97] [1]).call, (Op.enter [102] [2]).call, (Op.delete [97]).call]
        fiveSlots (fun _ => none) = some (t, m) ∧
      ∀ hk item flag, Finds t hk item flag (m item.key) := by
  obtain ⟨t, m, hrun, hfind, -⟩ := hsearch_refines_map 5 le_rfl fiveSlots rfl
    [(Op.enter [97] [1]).call, (Op.enter [102] [2]).call, (Op.delete [97]).call]
    (by
      intro c hc
      simp only [List.mem_cons, List.not_mem_nil, or_false] at hc
      rcases hc with rfl | rfl | rfl <;> exact Hooks.unset_accepting)
    (by decide +kernel)
  exact ⟨t, m, hrun, hfind⟩

/-- Five keys fill the table and one is deleted; entering a sixth, whose first slot is that of the first key,
loses the first key. -/
theorem enter_loses_other_key :
    hcreateR 5 = some fiveSlots ∧
    (runCalls [(Op.enter [97] [1]).call, (Op.enter [98] [2]).call, (Op.enter [99] [3]).call,
        (Op.enter [100] [4]).call, (Op.enter [101] [5]).call, (Op.delete [98]).call,
        (Op.enter [102] [6]).call] fiveSlots fun _ => none).map
      (fun r => (r.2 [102], r.2 [97], (hsearchR .unset ⟨[97], none⟩ .find r.1 0).map (·.2))) =
    some (some [6], some [1], some ⟨0, none, some .ESRCH⟩) :=
  ⟨rfl, by decide +kernel⟩

def fiveThenDelete : List Call :=
  ([97, 98, 99, 100, 101].map fun k => (Op.enter [k] [1]).call) ++ [(Op.delete [98]).call]

theorem enter_over_live_loses_first : ∃ t i k' t', k' ≠ [102] ∧ t.Holds i k' ∧ (∀ i', ¬ t'.Holds i' k') ∧
    hsearchR .unset ⟨[102], some [6]⟩ .enter t 0 = some (t', ⟨1, some i, none⟩) := by
  obtain ⟨hwf₀, hm₀⟩ := wf_of_hcreateR (rfl : hcreateR 5 = some fiveSlots)
  obtain ⟨t, m, hrun, hwf, -⟩ := hwf₀.runCalls_spec hm₀ fiveThenDelete
    (by simp [fiveThenDelete, Op.call, Hooks.unset_accepting]) (by decide +kernel)
  have hover : ∀ r ∈ runCalls fiveThenDelete fiveSlots fun _ => none, EntersOverLive r.1 [102] := by decide +kernel
  exact ⟨t, hwf.enter_over_live_loses Hooks.unset_accepting (hover _ hrun) [6] 0⟩

end Armada3720.Env
