import Armada3720.Env.HashTableRun
import Armada3720.Env.ImportExport

/-!
# An exported environment comes back

`himport_r` of what `hexport_r` wrote makes a table with the same map, for both separators in use: the value
parser undoes the escaper, each round enters one entry, and the new table has no deleted slots.

The exported variables are all of them, the memory for the import is there and the hooks accept every change. Keys
and values are those that the text can hold (`Exportable`). Exports of selected variables are left out.
-/

namespace Armada3720.Env

open Lib

structure GoodKey (sep : UInt8) (k : Str) : Prop where
  nonempty : k ≠ []
  chars : ∀ c ∈ k, c ≠ '='.toUInt8 ∧ c ≠ 0 ∧ c ≠ sep
  first : ∀ c, k.head? = some c → isblank c = false ∧ c ≠ '#'.toUInt8

structure GoodValue (v : Str) : Prop where
  nonempty : v ≠ []
  chars : ∀ c ∈ v, c ≠ 0

def IsSep (sep : UInt8) : Prop := sep = 0 ∨ sep = '\n'.toUInt8

variable {sep : UInt8} {v : Str} {t : HsearchData}

theorem IsSep.ne_backslash (h : IsSep sep) : '\\'.toUInt8 ≠ sep := by
  rcases h with rfl | rfl <;> decide

theorem IsSep.ne_equals (h : IsSep sep) : '='.toUInt8 ≠ sep := by
  rcases h with rfl | rfl <;> decide

/-! ## The parser on one entry -/

theorem parseValue_plain {c : UInt8} (h0 : c ≠ 0) (hs : c ≠ sep) (hb : c ≠ '\\'.toUInt8) (l : List UInt8) :
    parseValue sep (c :: l) = (c :: (parseValue sep l).1, (parseValue sep l).2) := by
  cases l with
  | nil => simp only [parseValue, h0, hs, or_self, if_false]
  | cons c' rest => simp only [parseValue, h0, hs, hb, or_self, false_and, if_false]

theorem parseValue_end (sep : UInt8) (rest : List UInt8) :
    parseValue sep (sep :: rest) = ([], sep :: rest) := by
  cases rest with
  | nil => simp only [parseValue, or_true, if_true]
  | cons c rest => simp only [parseValue, or_true, if_true]

theorem parseValue_escape (hsep : IsSep sep) (hv : ∀ c ∈ v, c ≠ 0) (rest : List UInt8) :
    parseValue sep (escape sep v ++ sep :: rest) = (v, sep :: rest) := by
  induction v with
  | nil => exact parseValue_end sep rest
  | cons c v ih =>
    have hc0 : c ≠ 0 := hv c List.mem_cons_self
    have ih := ih fun d hd => hv d (List.mem_cons_of_mem c hd)
    by_cases hesc : c = sep ∨ c = '\\'.toUInt8
    · have htext : escape sep (c :: v) ++ sep :: rest =
          '\\'.toUInt8 :: c :: (escape sep v ++ sep :: rest) := by
        simp only [escape, List.flatMap_cons, hesc, if_true, List.cons_append, List.nil_append]
      have hb0 : '\\'.toUInt8 ≠ 0 := by decide
      rw [htext, parseValue, if_neg (not_or.mpr ⟨hb0, hsep.ne_backslash⟩), if_pos ⟨rfl, hc0⟩, ih]
    · have htext : escape sep (c :: v) ++ sep :: rest = c :: (escape sep v ++ sep :: rest) := by
        simp only [escape, List.flatMap_cons, hesc, if_false, List.cons_append, List.nil_append]
      obtain ⟨hs, hb⟩ := not_or.mp hesc
      rw [htext, parseValue_plain hc0 hs hb, ih]

theorem escape_head (hsep : IsSep sep) (hv : GoodValue v) (rest : List UInt8) :
    ∃ c l, escape sep v ++ rest = c :: l ∧ c ≠ 0 ∧ c ≠ sep := by
  obtain ⟨c, v, rfl⟩ := List.exists_cons_of_ne_nil hv.nonempty
  by_cases hesc : c = sep ∨ c = '\\'.toUInt8
  · refine ⟨'\\'.toUInt8, c :: (escape sep v ++ rest), ?_, by decide, hsep.ne_backslash⟩
    simp only [escape, List.flatMap_cons, hesc, if_true, List.cons_append, List.nil_append]
  · refine ⟨c, escape sep v ++ rest, ?_, hv.chars c List.mem_cons_self, fun h => hesc (.inl h)⟩
    simp only [escape, List.flatMap_cons, hesc, if_false, List.cons_append, List.nil_append]

theorem himportStep_exportText {hk : HsearchData → Hooks} (hsep : IsSep sep) {k : Str}
    (hgk : GoodKey sep k) (hgv : GoodValue v) (flag : Nat) (rest : List UInt8) (t : HsearchData) :
    himportStep hk sep flag ⟨exportText sep (k, v) ++ rest, t, []⟩ =
      (hsearchR (hk t) ⟨k, some v⟩ .enter t flag).map fun r => (⟨rest, r.1, []⟩, true) := by
  obtain ⟨c0, k', rfl⟩ := List.exists_cons_of_ne_nil hgk.nonempty
  obtain ⟨hblank, hhash⟩ := hgk.first c0 rfl
  obtain ⟨c1, l, hval, hc10, hc1s⟩ := escape_head hsep hgv (sep :: rest)
  have htext : exportText sep (c0 :: k', v) ++ rest = (c0 :: k') ++ '='.toUInt8 :: (escape sep v ++ sep :: rest) := by
    simp only [exportText, List.append_assoc, List.cons_append, List.nil_append]
  have hdrop : (exportText sep (c0 :: k', v) ++ rest).dropWhile isblank =
      (c0 :: k') ++ '='.toUInt8 :: (escape sep v ++ sep :: rest) := by
    rw [htext, List.cons_append, List.dropWhile_cons_of_neg (by rw [hblank]; exact Bool.false_ne_true)]
  have hname : ((c0 :: k') ++ '='.toUInt8 :: (escape sep v ++ sep :: rest)).takeWhile
      (fun c => c ≠ '='.toUInt8 ∧ c ≠ 0 ∧ c ≠ sep) = c0 :: k' := by
    rw [List.takeWhile_append_of_pos (fun c hc => decide_eq_true (hgk.chars c hc)),
      List.takeWhile_cons_of_neg (by simp), List.append_nil]
  have he0 : '='.toUInt8 ≠ 0 := by decide
  have hcond : ¬ ('='.toUInt8 = 0 ∨ c1 = 0 ∨ '='.toUInt8 = sep ∨ c1 = sep) := by
    simp only [not_or]
    exact ⟨he0, hc10, hsep.ne_equals, hc1s⟩
  unfold himportStep
  simp only [hdrop, hname]
  rw [if_neg (by simpa using hhash)]
  simp only [List.drop_left, List.headD_cons, List.drop_succ_cons, List.drop_zero, hval]
  rw [if_neg hcond, ← hval, parseValue_escape hsep hgv.chars rest, if_neg (List.cons_ne_nil _ _)]
  rfl

/-! ## The parser on all entries -/

/-- A table into which the entries `done` were entered, and nothing else was done to it. -/
structure Loaded (t : HsearchData) (done : List (Str × Str)) : Prop where
  wf : Wf t
  undeleted : ∀ i, (t.table i).used ≠ -1
  filled : t.filled = done.length
  represents : ∃ m, Represents t m ∧ ∀ k v, m k = some v ↔ (k, v) ∈ done

/-- In a table without deleted slots `ENTER` never hits a live entry. -/
theorem Wf.not_entersOverLive (hwf : Wf t) (hdel : ∀ i, (t.table i).used ≠ -1) (k : Str) :
    ¬ EntersOverLive t k := by
  rintro ⟨hall, hfull, -⟩
  refine hfull ?_
  have hlive : (Finset.Icc 1 t.size).filter t.Live = Finset.Icc 1 t.size :=
    Finset.filter_true_of_mem fun i hi => (hwf.used i (hall i hi).1).resolve_left (hdel i)
  rw [hwf.filled, hlive, Nat.card_Icc, Nat.add_sub_cancel]

theorem Loaded.enter {done : List (Str × Str)} (h : Loaded t done) {hk : Hooks}
    (hacc : hk.Accepting) {k : Str} (hnew : k ∉ done.map Prod.fst) (hroom : done.length < t.size)
    (v : Str) (flag : Nat) :
    ∃ t' res, hsearchR hk ⟨k, some v⟩ .enter t flag = some (t', res) ∧ t'.size = t.size ∧
      Loaded t' (done ++ [(k, v)]) := by
  obtain ⟨m, hm, hdone⟩ := h.represents
  have hnone : m k = none := by
    cases hmk : m k with
    | none => rfl
    | some v' => exact absurd (List.mem_map_of_mem ((hdone k v').mp hmk)) hnew
  have hno := (h.wf.represents_none_iff hm k).mp hnone
  have hfilled := h.filled
  rcases h.wf.enter_cases hacc k v flag with
    ⟨i, hi, -⟩ | ⟨-, hfull, -⟩ | ⟨-, hfull, i, e, ht, hek, hed, hea, hs⟩
  · exact absurd hi (hno i)
  · omega
  · have hi := not_live_of_target hno hfull (h.wf.not_entersOverLive h.undeleted k) ht
    refine ⟨_, _, hs, rfl, h.wf.file hno ht hi hek hed hea, fun i' => ?_, ?_,
      _, h.wf.represents_file hm hno hi hek hed, fun k' v' => ?_⟩
    · by_cases hi' : i' = i
      · rw [hi', HsearchData.file_self]
        show (hashVal t.size k : Int) ≠ -1
        omega
      · rw [t.file_ne _ _ hi']
        exact h.undeleted i'
    · rw [List.length_append, List.length_singleton, ← hfilled]
      rfl
    · rw [List.mem_append, List.mem_singleton, Prod.mk.injEq]
      by_cases hk' : k' = k
      · subst hk'
        rw [Function.update_self, Option.some.injEq]
        have hnot : (k', v') ∉ done := fun hin =>
          hnew (List.mem_map_of_mem hin)
        simp only [hnot, false_or, true_and, eq_comm]
      · rw [Function.update_of_ne hk', hdone k' v']
        simp only [hk', false_and, or_false]

/-- The parser's loop on the text of entries with different keys enters all of them. -/
theorem himportLoop_entries {hk : HsearchData → Hooks} (hacc : ∀ t, (hk t).Accepting)
    (hsep : IsSep sep) (flag : Nat) (pad : List UInt8) (l : List (Str × Str))
    (hgood : ∀ e ∈ l, GoodKey sep e.1 ∧ GoodValue e.2) (hl : l ≠ []) {done : List (Str × Str)}
    (ht : Loaded t done) (hnodup : ((done ++ l).map Prod.fst).Nodup)
    (hroom : (done ++ l).length ≤ t.size) (fuel : Nat) (hfuel : l.length ≤ fuel) :
    ∃ t', himportLoop hk sep flag 1 fuel ⟨l.flatMap (exportText sep) ++ 0 :: pad, t, []⟩ =
      some (⟨0 :: pad, t', []⟩, true) ∧ Loaded t' (done ++ l) := by
  induction l generalizing t done fuel with
  | nil => exact absurd rfl hl
  | cons e l ih =>
    obtain ⟨k, v⟩ := e
    obtain ⟨hgk, hgv⟩ := hgood (k, v) List.mem_cons_self
    obtain ⟨fuel, rfl⟩ : ∃ n, fuel = n + 1 := ⟨fuel - 1, by simp only [List.length_cons] at hfuel; omega⟩
    have hnew : k ∉ done.map Prod.fst := by
      rw [List.map_append, List.map_cons] at hnodup
      intro hin
      exact (List.nodup_append.mp hnodup).2.2 k hin k List.mem_cons_self rfl
    have hroom' : done.length < t.size := by
      rw [List.length_append, List.length_cons] at hroom
      omega
    obtain ⟨t', res, hs, hsize, ht'⟩ := ht.enter (hacc t) hnew hroom' v flag
    have hstep : himportStep hk sep flag ⟨((k, v) :: l).flatMap (exportText sep) ++ 0 :: pad, t, []⟩ =
        some (⟨l.flatMap (exportText sep) ++ 0 :: pad, t', []⟩, true) := by
      rw [List.flatMap_cons, List.append_assoc, himportStep_exportText hsep hgk hgv, hs]
      rfl
    have hassoc : done ++ (k, v) :: l = done ++ [(k, v)] ++ l := by simp
    rw [himportLoop, hstep, hassoc]
    simp only
    cases l with
    | nil =>
      refine ⟨t', ?_, by rwa [List.append_nil]⟩
      rw [if_neg (by simp)]
      rfl
    | cons e' l =>
      obtain ⟨c, k', hk'⟩ := List.exists_cons_of_ne_nil (hgood e' (by simp)).1.nonempty
      have hc0 : c ≠ 0 := ((hgood e' (by simp)).1.chars c (by rw [hk']; exact List.mem_cons_self)).2.1
      rw [if_pos]
      · exact ih (fun e he => hgood e (List.mem_cons_of_mem _ he)) (List.cons_ne_nil _ _) ht'
          (hassoc ▸ hnodup) (by rw [hsize, ← hassoc]; exact hroom) fuel
          (by simp only [List.length_cons] at hfuel ⊢; omega)
      · rw [List.flatMap_cons, exportText, hk']
        refine ⟨?_, hc0⟩
        simp only [List.cons_append, List.length_cons, List.length_append]
        omega

/-! ## The entries exported -/

/-- The table has key `k` with value `v`. -/
def HsearchData.Maps (t : HsearchData) (k v : Str) : Prop :=
  ∃ i, 1 ≤ i ∧ i ≤ t.size ∧ t.Holds i k ∧ (t.table i).entry.data = some v

/-- All entries have a key and a value that the text format can carry, no key twice. -/
structure Exportable (sep : UInt8) (t : HsearchData) : Prop where
  strings : ∀ i, 1 ≤ i → i ≤ t.size → t.Live i → ∃ k v, (t.table i).entry.key = some k ∧
    (t.table i).entry.data = some v ∧ GoodKey sep k ∧ GoodValue v
  inj : ∀ i i' k, 1 ≤ i → i ≤ t.size → 1 ≤ i' → i' ≤ t.size → t.Holds i k → t.Holds i' k → i = i'

theorem map_of_mapM_eq_some {α β : Type} {f : α → Option β} {l : List α} {es : List β}
    (h : l.mapM f = some es) : l.map f = es.map some := by
  induction l generalizing es with
  | nil =>
    cases h
    rfl
  | cons a l ih =>
    rw [List.mapM_cons] at h
    obtain ⟨b, hb, h⟩ := Option.bind_eq_some_iff.mp h
    obtain ⟨bs, hbs, h⟩ := Option.bind_eq_some_iff.mp h
    cases h
    rw [List.map_cons, List.map_cons, hb, ih hbs]

theorem HsearchData.strings_eq_some_iff (t : HsearchData) (i : Nat) (k v : Str) :
    t.strings i = some (k, v) ↔
      (t.table i).entry.key = some k ∧ (t.table i).entry.data = some v := by
  unfold HsearchData.strings
  cases (t.table i).entry.key with
  | none => simp
  | some k' =>
    cases (t.table i).entry.data with
    | none => simp
    | some v' => simp

theorem HsearchData.mem_liveSlots (t : HsearchData) (i : Nat) :
    i ∈ t.liveSlots ↔ 1 ≤ i ∧ i ≤ t.size ∧ t.Live i := by
  rw [liveSlots, List.mem_filter, List.mem_range'_1, decide_eq_true_iff, Live]
  omega

theorem HsearchData.liveSlots_length (t : HsearchData) :
    t.liveSlots.length = ((Finset.Icc 1 t.size).filter t.Live).card := by
  have hnodup : t.liveSlots.Nodup := List.Nodup.filter _ (List.nodup_range' 1)
  rw [← List.toFinset_card_of_nodup hnodup]
  congr 1
  ext i
  rw [List.mem_toFinset, mem_liveSlots, Finset.mem_filter, Finset.mem_Icc, and_assoc]

section Entries

variable {t : HsearchData} {es : List (Str × Str)}

theorem map_strings_liveSlots (h : t.entries = some es) : t.liveSlots.map t.strings = es.map some :=
  map_of_mapM_eq_some h

theorem mem_entries (h : t.entries = some es) (k v : Str) : (k, v) ∈ es ↔ t.Maps k v := by
  have hmem : (k, v) ∈ es ↔ some (k, v) ∈ t.liveSlots.map t.strings := by
    rw [map_strings_liveSlots h, List.mem_map]
    simp
  rw [hmem, List.mem_map]
  refine exists_congr fun i => ?_
  rw [HsearchData.mem_liveSlots, HsearchData.strings_eq_some_iff, HsearchData.Holds]
  tauto

theorem Exportable.exists_entries {sep : UInt8} (hexp : Exportable sep t) :
    ∃ es, t.entries = some es := by
  have hall : ∀ l : List Nat, (∀ i ∈ l, ∃ e, t.strings i = some e) → ∃ es, l.mapM t.strings = some es := by
    intro l hl
    induction l with
    | nil => exact ⟨[], List.mapM_nil⟩
    | cons i l ih =>
      obtain ⟨e, he⟩ := hl i List.mem_cons_self
      obtain ⟨es, hes⟩ := ih fun j hj => hl j (List.mem_cons_of_mem i hj)
      exact ⟨e :: es, by rw [List.mapM_cons, he, hes]; rfl⟩
  refine hall t.liveSlots fun i hi => ?_
  obtain ⟨h1, hn, hl⟩ := (t.mem_liveSlots i).mp hi
  obtain ⟨k, v, hk, hv, -⟩ := hexp.strings i h1 hn hl
  exact ⟨(k, v), (t.strings_eq_some_iff i k v).mpr ⟨hk, hv⟩⟩

theorem length_entries (h : t.entries = some es) :
    es.length = ((Finset.Icc 1 t.size).filter t.Live).card := by
  rw [← t.liveSlots_length, ← List.length_map some, ← map_strings_liveSlots h, List.length_map]

theorem Exportable.good {sep : UInt8} (hexp : Exportable sep t) (h : t.entries = some es) :
    ∀ e ∈ es, GoodKey sep e.1 ∧ GoodValue e.2 := by
  rintro ⟨k, v⟩ he
  obtain ⟨i, h1, hn, hi, hv⟩ := (mem_entries h k v).mp he
  obtain ⟨k', v', hk', hv', hgood⟩ := hexp.strings i h1 hn hi.1
  rw [hi.2] at hk'
  rw [hv] at hv'
  cases hk'
  cases hv'
  exact hgood

theorem Exportable.nodup_keys {sep : UInt8} (hexp : Exportable sep t) (h : t.entries = some es) :
    (es.map Prod.fst).Nodup := by
  have hkeys : (es.map Prod.fst).map some = t.liveSlots.map fun i => (t.table i).entry.key := by
    have hmap := congrArg (List.map (Option.map Prod.fst)) (map_strings_liveSlots h)
    rw [List.map_map, List.map_map] at hmap
    rw [List.map_map]
    refine hmap.symm.trans (List.map_congr_left fun i hi => ?_)
    obtain ⟨h1, hn, hl⟩ := (t.mem_liveSlots i).mp hi
    obtain ⟨k, v, hk, hv, -⟩ := hexp.strings i h1 hn hl
    rw [Function.comp_apply, (t.strings_eq_some_iff i k v).mpr ⟨hk, hv⟩, hk]
    rfl
  have hnodup : ((es.map Prod.fst).map some).Nodup := by
    rw [hkeys]
    refine List.Nodup.map_on (fun i hi i' hi' heq => ?_) (List.Nodup.filter _ (List.nodup_range' 1))
    obtain ⟨h1, hn, hl⟩ := (t.mem_liveSlots i).mp hi
    obtain ⟨h1', hn', hl'⟩ := (t.mem_liveSlots i').mp hi'
    obtain ⟨k, v, hk, -⟩ := hexp.strings i h1 hn hl
    exact hexp.inj i i' k h1 hn h1' hn' ⟨hl, hk⟩ ⟨hl', heq.symm.trans hk⟩
  exact List.Nodup.of_map some hnodup

end Entries

/-! ## Round trip -/

variable {t : HsearchData} {flag : Nat} {sep : UInt8} {hk : HsearchData → Hooks}

theorem hexportR_ok {rx : Regex} {given : Bool} {calloc : Nat → Bool} {size : Nat} {x : Exported}
    (hflag : flag &&& hHideDot = 0) (h : hexportR rx t sep flag given calloc size [] = some (.ok x)) :
    
    ∃ es sorted : List (Str × Str), t.entries = some es ∧ sorted.Perm es ∧
      x.text = sorted.flatMap (exportText sep) ++ [0] := by
  unfold hexportR at h
  split at h
  · cases h
  · next es hes =>
    have hall : es.filter (exportSelects rx flag []) = es := by
      refine List.filter_eq_self.mpr fun e _ => ?_
      simp [exportSelects, hflag]
    simp only [hall] at h
    refine ⟨es, (shellSort cmpkey es.toArray).toList, hes, ?_, ?_⟩
    · exact (shellSort_perm cmpkey es.toArray).toList
    · split_ifs at h <;> cases h <;> rfl

theorem hcreateR_importEntries {n : Nat} (hn : n ≤ ramSize) :
    ∃ t, hcreateR (importEntries n) = some t := by
  have hrange : ∀ e < 513, 64 ≤ e → (hcreateR e).isSome := by decide +kernel
  have hent : importEntries n < 513 ∧ 64 ≤ importEntries n := by
    simp only [ramSize] at hn
    have hint : intOfUint ((64 + n / 8) % 2 ^ 32) = ((64 + n / 8 : Nat) : Int) := by
      rw [Nat.mod_eq_of_lt (by omega), intOfUint, if_pos (by omega)]
    simp only [importEntries, hint]
    split <;> omega
  exact Option.isSome_iff_exists.mp (hrange _ hent.1 hent.2)

theorem Loaded.of_hcreateR {nel : Nat} (h : hcreateR nel = some t) : Loaded t [] := by
  obtain ⟨hwf, hm⟩ := wf_of_hcreateR h
  obtain ⟨-, hfilled, htable⟩ := hcreateR_spec h
  refine ⟨hwf, fun i => ?_, hfilled, _, hm, fun k v => ?_⟩
  · rw [htable]
    show (0 : Int) ≠ -1
    decide
  · simp

theorem himportLoop_empty (hacc : ∀ t, (hk t).Accepting) (flag : Nat) (n fuel : Nat) (ht : Loaded t []) :
    himportLoop hk sep flag 1 (fuel + 1) ⟨0 :: List.replicate n 0, t, []⟩ =
      some (⟨List.replicate n 0, t, []⟩, true) := by
  have hdel : hdeleteR (hk t) [] t flag = some (t, 0, some .ESRCH) := by
    obtain ⟨m, hm, hnone⟩ := ht.represents
    have hmnone : m [] = none := by
      cases hmk : m [] with
      | none => rfl
      | some v => exact absurd ((hnone [] v).mp hmk) List.not_mem_nil
    rcases ht.wf.delete_cases (hacc t) [] flag with ⟨i, hi, -⟩ | ⟨-, hs⟩
    · exact absurd hi ((ht.wf.represents_none_iff hm []).mp hmnone i)
    · exact hs
  have hstep : himportStep hk sep flag ⟨0 :: List.replicate n 0, t, []⟩ =
      some (⟨List.replicate n 0, t, []⟩, true) := by
    have hblank : ((0 : UInt8) :: List.replicate n 0).dropWhile isblank = 0 :: List.replicate n 0 :=
      List.dropWhile_cons_of_neg (by decide)
    have hname : ((0 : UInt8) :: List.replicate n 0).takeWhile (fun c => c ≠ '='.toUInt8 ∧ c ≠ 0 ∧ c ≠ sep) = [] :=
      List.takeWhile_cons_of_neg (by simp)
    have hhash : ¬ ((0 : UInt8) :: List.replicate n 0).head? = some '#'.toUInt8 := by
      rw [List.head?_cons]
      decide
    unfold himportStep
    simp only [hblank, hname, if_neg hhash, List.length_nil, List.drop_zero, List.headD_cons, true_or, if_true]
    simp only [dropVarFromSet, List.isEmpty_nil, if_true, hdel, Option.map_some]
    rw [if_neg (by decide)]
    rfl
  rw [himportLoop, hstep]
  cases n with
  | zero => rfl
  | succ n => simp [List.replicate_succ]

/-- Importing the text of entries with different keys into a new table loads these entries. -/
theorem himportR_entries (hacc : ∀ t, (hk t).Accepting) (hsep : IsSep sep) {l : List (Str × Str)}
    (hgood : ∀ e ∈ l, GoodKey sep e.1 ∧ GoodValue e.2) (hnodup : (l.map Prod.fst).Nodup) {n : Nat}
    {env : List UInt8} (henv : env = l.flatMap (exportText sep) ++ 0 :: List.replicate n 0)
    {malloc : Nat → Bool} (hmalloc : malloc (env.length + 1) = true) (old : Option HsearchData)
    (hclear : flag &&& hNoclear = 0) {t0 : HsearchData}
    (hcreate : hcreateR (importEntries env.length) = some t0) (hroom : l.length ≤ t0.size) :
    ∃ t, himportR hk malloc old env sep flag false [] = some (some t, true, none) ∧
      Loaded t l := by
  have hnil : env ≠ [] := by
    rw [henv]
    simp
  have hpad : env ++ [0] = l.flatMap (exportText sep) ++ 0 :: List.replicate (n + 1) 0 := by
    rw [henv, List.append_assoc, List.replicate_succ']
    rfl
  have hloop : ∃ dp t, himportLoop hk sep flag 1 (env.length + 1) ⟨env ++ [0], t0, []⟩ =
      some (⟨dp, t, []⟩, true) ∧ Loaded t l := by
    rw [hpad]
    by_cases hl : l = []
    · subst hl
      exact ⟨_, t0, himportLoop_empty hacc flag (n + 1) env.length (.of_hcreateR hcreate), .of_hcreateR hcreate⟩
    · have hfuel : l.length ≤ env.length + 1 := by
        have hle : l.length ≤ (l.flatMap (exportText sep)).length := by
          rw [List.length_flatMap]
          calc l.length = (l.map fun _ => 1).sum := by simp
            _ ≤ (l.map fun e => (exportText sep e).length).sum :=
              List.sum_le_sum fun e _ => by simp [exportText]; omega
        rw [henv, List.length_append]
        omega
      obtain ⟨t, ht, hload⟩ := himportLoop_entries hacc hsep flag (List.replicate (n + 1) 0) l hgood
        hl (.of_hcreateR hcreate) (by simpa using hnodup) (by simpa using hroom) _ hfuel
      exact ⟨_, t, ht, hload⟩
  obtain ⟨dp, t, hrun, hload⟩ := hloop
  refine ⟨t, ?_, hload⟩
  simp only [himportR, hmalloc, Bool.true_eq_false, if_false, hclear, if_true, Option.none_or,
    hcreate, hnil, Bool.false_eq_true, List.map_nil, Nat.zero_add, hrun, deleteMissing,
    Option.map_some]

/-- Importing the buffer that an export of all entries filled loads the entries of the table. -/
theorem himportR_of_hexportR {rx : Regex} {T : HsearchData} (hsep : IsSep sep)
    (hT : Exportable sep T) (hall : flag &&& hHideDot = 0) {given : Bool} {calloc : Nat → Bool}
    {size : Nat} {x : Exported}
    (hexport : hexportR rx T sep flag given calloc size [] = some (.ok x))
    (hfits : x.text.length ≤ x.size) (hram : x.size ≤ ramSize) (hacc : ∀ t, (hk t).Accepting)
    {malloc : Nat → Bool} (hmalloc : malloc (x.size + 1) = true) (old : Option HsearchData)
    {iflag : Nat} (hclear : iflag &&& hNoclear = 0)
    (hslots : ∀ t0, hcreateR (importEntries x.size) = some t0 →
      ((Finset.Icc 1 T.size).filter T.Live).card ≤ t0.size) :
    ∃ t l, himportR hk malloc old x.buffer sep iflag false [] = some (some t, true, none) ∧
      Loaded t l ∧ ∀ k v, (k, v) ∈ l ↔ T.Maps k v := by
  obtain ⟨es, sorted, hes, hperm, htext⟩ := hexportR_ok hall hexport
  obtain ⟨t0, ht0⟩ := hcreateR_importEntries hram
  have hlen : x.buffer.length = x.size := by
    rw [Exported.buffer, List.length_append, List.length_replicate]
    omega
  have hbuffer : x.buffer = sorted.flatMap (exportText sep) ++
      0 :: List.replicate (x.size - x.text.length) 0 := by
    rw [Exported.buffer, htext, List.append_assoc]
    rfl
  have hroom : sorted.length ≤ t0.size := by
    rw [hperm.length_eq, length_entries hes]
    exact hslots t0 ht0
  obtain ⟨t, himport, hload⟩ := himportR_entries hacc hsep (fun e he => hT.good hes e (hperm.mem_iff.mp he))
    ((hperm.map Prod.fst).nodup_iff.mpr (hT.nodup_keys hes)) hbuffer (hlen ▸ hmalloc) old hclear
    (hlen ▸ ht0) hroom
  exact ⟨t, sorted, himport, hload, fun k v => by rw [hperm.mem_iff, mem_entries hes]⟩

theorem Loaded.maps_iff {l : List (Str × Str)} (h : Loaded t l) (k v : Str) :
    t.Maps k v ↔ (k, v) ∈ l := by
  obtain ⟨m, hm, hmem⟩ := h.represents
  rw [← hmem, hm k v]
  refine exists_congr fun i => ⟨fun hi => hi.2.2, fun hi => ?_⟩
  have hb := h.wf.bounds i (ne_of_gt hi.1.1)
  exact ⟨hb.1, hb.2, hi⟩

/-- Importing the buffer that an export of all entries filled gives a table with the same key-to-value map. -/
theorem himport_hexport_round_trip (rx : Regex) (T : HsearchData) (sep : UInt8) (hsep : IsSep sep)
    (hT : Exportable sep T) (flag : Nat) (hall : flag &&& hHideDot = 0) (given : Bool)
    (calloc : Nat → Bool) (size : Nat) (x : Exported)
    (hexport : hexportR rx T sep flag given calloc size [] = some (.ok x))
    (hfits : x.text.length ≤ x.size) (hram : x.size ≤ ramSize)
    (hk : HsearchData → Hooks) (hacc : ∀ t, (hk t).Accepting)
    (malloc : Nat → Bool) (hmalloc : malloc (x.size + 1) = true) (old : Option HsearchData)
    (iflag : Nat) (hclear : iflag &&& hNoclear = 0)
    (hslots : ∀ t₀, hcreateR (importEntries x.size) = some t₀ →
      ((Finset.Icc 1 T.size).filter T.Live).card ≤ t₀.size) :
    ∃ (t : HsearchData) (m : Str → Option Str),
      himportR hk malloc old x.buffer sep iflag false [] = some (some t, true, none) ∧
      (∀ k v, m k = some v ↔ T.Maps k v) ∧ (∀ k v, m k = some v ↔ t.Maps k v) ∧
      ∀ hk' item flag', Finds t hk' item flag' (m item.key) := by
  obtain ⟨t, l, himport, hload, hl⟩ :=
    himportR_of_hexportR hsep hT hall hexport hfits hram hacc hmalloc old hclear hslots
  obtain ⟨m, hm, hmem⟩ := hload.represents
  exact ⟨t, m, himport, fun k v => (hmem k v).trans (hl k v),
    fun k v => (hmem k v).trans (hload.maps_iff k v).symm, hload.wf.finds hm⟩

/-- Two entries in five slots, the later name first; the value of the other is a backslash and a newline. -/
def twoEntries : HsearchData :=
  ⟨5, 2, fun i => if i = 1 then ⟨1, ⟨some [100], some [49], none, 0⟩⟩
    else if i = 3 then ⟨3, ⟨some [97], some [92, 10], none, 0⟩⟩ else Slot.zero⟩

def twoEntriesText : Exported := ⟨16, [97, 61, 92, 92, 92, 10, 10, 100, 61, 49, 10, 0]⟩

theorem twoEntries_live {i : Nat} (h : twoEntries.Live i) : i = 1 ∨ i = 3 := by
  by_contra hi
  rw [not_or] at hi
  have hzero : twoEntries.table i = Slot.zero := (if_neg hi.1).trans (if_neg hi.2)
  rw [HsearchData.Live, hzero] at h
  exact absurd h (by decide)

theorem twoEntries_exportable : Exportable '\n'.toUInt8 twoEntries where
  strings i _ _ hi := by
    rcases twoEntries_live hi with rfl | rfl
    · exact ⟨[100], [49], rfl, rfl, ⟨by decide, by decide +kernel, by simp; decide⟩, ⟨by decide, by decide +kernel⟩⟩
    · exact ⟨[97], [92, 10], rfl, rfl, ⟨by decide, by decide +kernel, by simp; decide⟩,
        ⟨by decide, by decide +kernel⟩⟩
  inj i i' k _ _ _ _ hi hi' := by
    have hkeys : (twoEntries.table i).entry.key = (twoEntries.table i').entry.key := hi.2.trans hi'.2.symm
    rcases twoEntries_live hi.1 with rfl | rfl <;> rcases twoEntries_live hi'.1 with rfl | rfl <;>
      first | rfl | exact absurd hkeys (by decide)

theorem himport_hexport_round_trip_two :
    ∃ (t : HsearchData) (m : Str → Option Str),
      himportR (fun _ => .unset) (fun _ => true) none twoEntriesText.buffer '\n'.toUInt8 0 false [] =
        some (some t, true, none) ∧
      (∀ k v, m k = some v ↔ twoEntries.Maps k v) ∧ (∀ k v, m k = some v ↔ t.Maps k v) ∧
      ∀ hk' item flag', Finds t hk' item flag' (m item.key) :=
  himport_hexport_round_trip ⟨fun _ => true, fun _ _ => false⟩ twoEntries _ (.inr rfl)
    twoEntries_exportable 0 rfl true (fun _ => true) 0 twoEntriesText rfl (by decide)
    (Nat.le_of_ble_eq_true rfl) _
    (fun _ => Hooks.unset_accepting) _ rfl none 0 rfl fun t₀ ht₀ => by
      obtain rfl : (⟨67, 0, fun _ => Slot.zero⟩ : HsearchData) = t₀ := Option.some.inj ht₀
      decide

end Armada3720.Env
