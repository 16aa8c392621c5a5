import Armada3720.Env.RoundTrip

/-!
# What an export needs and what it writes

The first pass of `hexport_r` computes the size of the buffer, the second writes it. Both count the characters
that are escaped, but the first only if the separator is not NUL. It counts two characters too many for every
entry, so that an overrun takes more than two escapes for each entry.

`hexport_fits_iff` is exact, for every table, selection and buffer.
-/

namespace Armada3720.Env

open Lib

/-- How many backslashes the second pass puts into a value. -/
def escapes (sep : UInt8) (data : Str) : Nat :=
  (data.filter fun c => c = sep ∨ c = '\\'.toUInt8).length

/-- The size that the first pass computes for the entries that are exported. -/
def firstPassSize (sep : UInt8) (list : List (Str × Str)) : Nat :=
  (list.map (exportLen sep)).sum + 1

theorem length_escape (sep : UInt8) (data : Str) : (escape sep data).length = data.length + escapes sep data := by
  unfold escape escapes
  induction data with
  | nil => rfl
  | cons c data ih =>
    rw [List.flatMap_cons, List.length_append, ih]
    by_cases hc : c = sep ∨ c = '\\'.toUInt8
    · rw [if_pos hc, List.filter_cons_of_pos (by simpa using hc)]
      simp only [List.length_cons, List.length_nil]
      omega
    · rw [if_neg hc, List.filter_cons_of_neg (by simpa using hc)]
      simp only [List.length_cons, List.length_nil]
      omega

/-- The first pass counts two characters that are not written, and no escapes if the separator is NUL. -/
theorem exportLen_eq (sep : UInt8) (e : Str × Str) :
    exportLen sep e + (if sep = 0 then escapes sep e.2 else 0) = (exportText sep e).length + 2 := by
  have htext : (exportText sep e).length = e.1.length + (e.2.length + escapes sep e.2) + 2 := by
    unfold exportText
    simp only [List.length_append, List.length_cons, List.length_nil, length_escape]
    omega
  rw [htext]
  unfold exportLen
  split
  · omega
  · show _ + (_ + escapes sep e.2) + 2 + 0 = _
    omega

theorem firstPassSize_eq (sep : UInt8) (list : List (Str × Str)) :
    firstPassSize sep list + (if sep = 0 then (list.map fun e => escapes sep e.2).sum else 0) =
      (list.flatMap (exportText sep)).length + 2 * list.length + 1 := by
  unfold firstPassSize
  induction list with
  | nil => split <;> rfl
  | cons e list ih =>
    have hone := exportLen_eq sep e
    simp only [List.map_cons, List.sum_cons, List.flatMap_cons, List.length_append, List.length_cons]
    split at ih
    · next h =>
      rw [if_pos h] at hone
      rw [if_pos h]
      omega
    · next h =>
      rw [if_neg h] at hone
      rw [if_neg h]
      omega

theorem length_flatMap_perm {l l' : List (Str × Str)} (h : l.Perm l') (sep : UInt8) :
    (l.flatMap (exportText sep)).length = (l'.flatMap (exportText sep)).length :=
  (h.flatMap_right _).length_eq

section Export

variable {rx : Regex} {T : HsearchData} {sep : UInt8} {flag : Nat} {given : Bool}
  {calloc : Nat → Bool} {size : Nat} {argv : List Str} {es : List (Str × Str)} {x : Exported}

theorem hexportR_eq (hes : T.entries = some es) :
    hexportR rx T sep flag given calloc size argv =
      let list := es.filter (exportSelects rx flag argv)
      let bytes := if size ≠ 0 then size else firstPassSize sep list
      if size ≠ 0 ∧ size < firstPassSize sep list then some (.error .ENOMEM)
      else if given = false ∧ calloc bytes = false then some (.error .ENOMEM)
      else some (.ok ⟨bytes, (shellSort cmpkey list.toArray).toList.flatMap (exportText sep) ++ [0]⟩) := by
  unfold hexportR
  rw [hes]
  rfl

theorem hexportR_size (hes : T.entries = some es)
    (hx : hexportR rx T sep flag given calloc size argv = some (.ok x)) :
    x.text.length = ((es.filter (exportSelects rx flag argv)).flatMap (exportText sep)).length + 1 ∧
      firstPassSize sep (es.filter (exportSelects rx flag argv)) ≤ x.size ∧
      (size = 0 → x.size = firstPassSize sep (es.filter (exportSelects rx flag argv))) := by
  rw [hexportR_eq hes] at hx
  have hroom : ¬ (size ≠ 0 ∧
      size < firstPassSize sep (es.filter (exportSelects rx flag argv))) := by
    intro hsmall
    rw [if_pos hsmall] at hx
    cases hx
  have hok : x = ⟨if size ≠ 0 then size else
        firstPassSize sep (es.filter (exportSelects rx flag argv)),
      (shellSort cmpkey (es.filter (exportSelects rx flag argv)).toArray).toList.flatMap
        (exportText sep) ++ [0]⟩ := by
    simp only [if_neg hroom] at hx
    generalize (if size ≠ 0 then size else _) = bytes at hx ⊢
    split at hx
    · cases hx
    · cases hx
      rfl
  rw [hok]
  refine ⟨?_, ?_, fun h0 => if_neg (not_not.mpr h0)⟩
  · simp only [List.length_append, List.length_singleton]
    rw [length_flatMap_perm (shellSort_perm cmpkey _).toList]
  · simp only
    split
    · next hs => exact not_lt.mp fun hlt => hroom ⟨hs, hlt⟩
    · exact le_rfl

end Export

/-- The second pass of `hexport_r` stays within the size that the first one computed exactly if the separator is
not NUL or the values need at most two escapes for each entry. -/
theorem hexport_fits_iff (rx : Regex) (T : HsearchData) (sep : UInt8) (flag : Nat) (given : Bool)
    (calloc : Nat → Bool) (size : Nat) (argv : List Str) (es : List (Str × Str)) (x : Exported)
    (hes : T.entries = some es)
    (hx : hexportR rx T sep flag given calloc size argv = some (.ok x)) :
    (x.text.length ≤ firstPassSize sep (es.filter (exportSelects rx flag argv)) ∧
      x.text.length ≤ x.size) ↔
    sep ≠ 0 ∨ ((es.filter (exportSelects rx flag argv)).map fun e => escapes sep e.2).sum ≤
      2 * (es.filter (exportSelects rx flag argv)).length := by
  obtain ⟨htext, hsize, -⟩ := hexportR_size hes hx
  have hpasses := firstPassSize_eq sep (es.filter (exportSelects rx flag argv))
  by_cases h0 : sep = 0
  · rw [if_pos h0] at hpasses
    constructor
    · intro hfits
      right
      omega
    · intro hcount
      have := hcount.resolve_left (not_not.mpr h0)
      omega
  · rw [if_neg h0] at hpasses
    refine ⟨fun _ => .inl h0, fun _ => ?_⟩
    omega

theorem hexport_fits_iff_two :
    twoEntriesText.text.length ≤ firstPassSize '\n'.toUInt8 [([100], [49]), ([97], [92, 10])] ∧
      twoEntriesText.text.length ≤ twoEntriesText.size :=
  (hexport_fits_iff ⟨fun _ => true, fun _ _ => false⟩ twoEntries '\n'.toUInt8 0 true (fun _ => true) 0
    [] [([100], [49]), ([97], [92, 10])] twoEntriesText rfl rfl).mpr (.inl (by decide))

def threeBackslashes : HsearchData :=
  ⟨5, 1, fun i => if i = 3 then ⟨3, ⟨some [97], some [92, 92, 92], none, 0⟩⟩ else Slot.zero⟩

/-- The export with NUL as the separator writes ten bytes to a buffer of nine that it allocated. -/
theorem hexport_overruns_own_size :
    ∃ x, hexportR ⟨fun _ => true, fun _ _ => false⟩ threeBackslashes 0 0 false (fun _ => true) 0 [] =
        some (.ok x) ∧
      x.size = firstPassSize 0 [([97], [92, 92, 92])] ∧ x.size = 9 ∧
      x.text = [97, 61, 92, 92, 92, 92, 92, 92, 0, 0] := by
  have hentries : threeBackslashes.entries = some [([97], [92, 92, 92])] := by rfl
  unfold hexportR
  rw [hentries]
  exact ⟨_, rfl, rfl, rfl, rfl⟩

end Armada3720.Env
