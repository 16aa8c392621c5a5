import Mathlib.Data.List.GetD

/-!
# Values in ranges of addresses

A memory or a disk is a function from addresses to values. `window` reads a range, `overwrite` stores a list. A
list of blocks in order is one range.
-/

namespace Armada3720.Lib

variable {β : Type*}

/-- The `len` values of `f` from `start` on. -/
def window (f : Nat → β) (start len : Nat) : List β :=
  (List.range len).map fun k => f (start + k)

/-- `f` with `data` from `start` on. -/
def overwrite (f : Nat → β) (start : Nat) (data : List β) : Nat → β := fun a =>
  if start ≤ a then data.getD (a - start) (f a) else f a

@[simp]
theorem length_window (f : Nat → β) (start len : Nat) : (window f start len).length = len := by
  simp [window]

variable {k len start : Nat} {f : Nat → β} {data : List β}

theorem getElem_window (f : Nat → β) (start len : Nat) (hk : k < (window f start len).length) :
    (window f start len)[k] = f (start + k) := by
  simp [window]

theorem window_congr {g : Nat → β} (h : ∀ a, start ≤ a → a < start + len → f a = g a) :
    window f start len = window g start len :=
  List.map_congr_left fun k hk => h _ (Nat.le_add_right _ _) (by have := List.mem_range.mp hk; omega)

theorem window_shift (f : Nat → β) (start len : Nat) :
    window (fun k => f (start + k)) 0 len = window f start len := by
  simp only [window, Nat.zero_add]

theorem take_drop_window (f : Nat → β) (start : Nat) {skip n : Nat} (h : skip + n ≤ len) :
    ((window f start len).drop skip).take n = window f (start + skip) n := by
  refine List.ext_getElem (by simp; omega) fun k h1 h2 => ?_
  rw [List.getElem_take, List.getElem_drop, getElem_window, getElem_window, Nat.add_assoc]

theorem take_window (f : Nat → β) (start : Nat) {n : Nat} (h : n ≤ len) :
    (window f start len).take n = window f start n := by
  have := take_drop_window f start (show 0 + n ≤ len by omega)
  rwa [List.drop_zero] at this

theorem window_add (f : Nat → β) (start m n : Nat) :
    window f start (m + n) = window f start m ++ window f (start + m) n := by
  rw [window, List.range_add, List.map_append, List.map_map]
  simp only [window, Function.comp_def, Nat.add_assoc]

/-! ## Storing -/

@[simp]
theorem overwrite_nil (f : Nat → β) (start : Nat) : overwrite f start [] = f := by
  funext a
  simp [overwrite]

theorem overwrite_outside {a : Nat} (h : a < start ∨ start + data.length ≤ a) :
    overwrite f start data a = f a := by
  unfold overwrite
  split
  · exact List.getD_eq_default _ _ (by omega)
  · rfl

theorem overwrite_inside (h : k < data.length) : overwrite f start data (start + k) = data[k] := by
  rw [overwrite, if_pos (Nat.le_add_right _ _), Nat.add_sub_cancel_left, List.getD_eq_getElem _ _ h]

theorem window_overwrite_of_disjoint (f : Nat → β) {s : Nat} (h : start + len ≤ s ∨ s + data.length ≤ start) :
    window (overwrite f s data) start len = window f start len :=
  window_congr fun a h1 h2 => overwrite_outside (by omega)

theorem window_overwrite (f : Nat → β) (start : Nat) (data : List β) :
    window (overwrite f start data) start data.length = data :=
  List.ext_getElem (length_window _ _ _) fun k _ hk => by
    rw [getElem_window, overwrite_inside hk]

theorem window_overwrite_congr {g : Nat → β} (s : Nat) (data : List β)
    (h : ∀ a, start ≤ a → a < start + len → f a = g a) :
    window (overwrite f s data) start len = window (overwrite g s data) start len :=
  window_congr fun a h1 h2 => by simp only [overwrite, h a h1 h2]

theorem overwrite_overwrite (f : Nat → β) (start : Nat) (data rest : List β) :
    overwrite (overwrite f start data) (start + data.length) rest = overwrite f start (data ++ rest) := by
  funext a
  rcases Nat.lt_or_ge a start with hlt | hge
  · rw [overwrite_outside (.inl (by omega)), overwrite_outside (.inl hlt), overwrite_outside (.inl hlt)]
  obtain ⟨k, rfl⟩ := Nat.exists_eq_add_of_le hge
  rcases Nat.lt_or_ge k data.length with hk | hk
  · rw [overwrite_outside (.inl (by omega)), overwrite_inside hk,
      overwrite_inside (by rw [List.length_append]; omega), List.getElem_append_left hk]
  obtain ⟨j, rfl⟩ := Nat.exists_eq_add_of_le hk
  rcases Nat.lt_or_ge j rest.length with hj | hj
  · rw [← Nat.add_assoc, overwrite_inside hj, Nat.add_assoc,
      overwrite_inside (by rw [List.length_append]; omega), List.getElem_append_right hk]
    simp
  · rw [overwrite_outside (.inr (by omega)), overwrite_outside (.inr (by omega)),
      overwrite_outside (.inr (by rw [List.length_append]; omega))]

theorem window_append_iff {xs ys : List β} :
    window f start (xs ++ ys).length = xs ++ ys ↔
      window f start xs.length = xs ∧ window f (start + xs.length) ys.length = ys := by
  have hsplit : window f start (xs ++ ys).length =
      window f start xs.length ++ window f (start + xs.length) ys.length := by
    rw [List.length_append, window_add]
  rw [hsplit]
  constructor
  · intro h
    exact List.append_inj h (length_window _ _ _)
  · rintro ⟨hxs, hys⟩
    rw [hxs, hys]

/-! ## Patches -/

/-- `f` with the given values from `start` on, and as it is where none is given. -/
def patch (f : Nat → β) (start : Nat) (values : List (Option β)) : Nat → β := fun a =>
  if start ≤ a then (values.getD (a - start) none).getD (f a) else f a

theorem patch_outside {a : Nat} {values : List (Option β)}
    (h : a < start ∨ start + values.length ≤ a) : patch f start values a = f a := by
  unfold patch
  split
  · rw [List.getD_eq_default _ _ (by omega), Option.getD_none]
  · rfl

theorem patch_inside {values : List (Option β)} (h : k < values.length) :
    patch f start values (start + k) = values[k].getD (f (start + k)) := by
  rw [patch, if_pos (Nat.le_add_right _ _), Nat.add_sub_cancel_left, List.getD_eq_getElem _ _ h]

theorem patch_nil (f : Nat → β) (start : Nat) : patch f start [] = f :=
  funext fun _ => patch_outside (by simp; omega)

theorem patch_none (f : Nat → β) (start n : Nat) : patch f start (List.replicate n none) = f := by
  funext a
  rcases Nat.lt_or_ge a start with hlt | hge
  · exact patch_outside (.inl hlt)
  obtain ⟨k, rfl⟩ := Nat.exists_eq_add_of_le hge
  rcases Nat.lt_or_ge k n with hk | hk
  · rw [patch_inside (by simpa using hk), List.getElem_replicate, Option.getD_none]
  · exact patch_outside (.inr (by simpa using hk))

theorem patch_some (f : Nat → β) (start : Nat) (data : List β) :
    patch f start (data.map some) = overwrite f start data := by
  funext a
  rcases Nat.lt_or_ge a start with hlt | hge
  · rw [patch_outside (.inl hlt), overwrite_outside (.inl hlt)]
  obtain ⟨k, rfl⟩ := Nat.exists_eq_add_of_le hge
  rcases Nat.lt_or_ge k data.length with hk | hk
  · rw [patch_inside (by simpa using hk), overwrite_inside hk, List.getElem_map, Option.getD_some]
  · rw [patch_outside (.inr (by simpa using hk)), overwrite_outside (.inr (by omega))]

theorem patch_append (f : Nat → β) (start : Nat) (xs ys : List (Option β)) :
    patch f start (xs ++ ys) = patch (patch f start xs) (start + xs.length) ys := by
  funext a
  rcases Nat.lt_or_ge a start with hlt | hge
  · rw [patch_outside (.inl hlt), patch_outside (.inl (by omega)), patch_outside (.inl hlt)]
  obtain ⟨k, rfl⟩ := Nat.exists_eq_add_of_le hge
  rcases Nat.lt_or_ge k xs.length with hk | hk
  · rw [patch_inside (by rw [List.length_append]; omega), patch_outside (.inl (by omega)),
      patch_inside hk, List.getElem_append_left hk]
  obtain ⟨j, rfl⟩ := Nat.exists_eq_add_of_le hk
  rcases Nat.lt_or_ge j ys.length with hj | hj
  · rw [patch_inside (by rw [List.length_append]; omega), ← Nat.add_assoc, patch_inside hj,
      patch_outside (.inr (by omega)), List.getElem_append_right hk]
    simp
  · rw [patch_outside (.inr (by rw [List.length_append]; omega)), patch_outside (.inr (by omega)),
      patch_outside (.inr (by omega))]

/-! ## Blocks -/

/-- The writes of the single blocks of `data`. -/
def blockWrites (blksz start : Nat) (data : List β) : List (Nat × List β) :=
  (List.range (data.length / blksz)).map fun k => (start + k, (data.drop (k * blksz)).take blksz)

/-- A disk after some writes of blocks. -/
def applyWrites (blksz : Nat) (f : Nat → β) (writes : List (Nat × List β)) : Nat → β :=
  writes.foldl (fun f w => overwrite f (w.1 * blksz) w.2) f

theorem applyWrites_append (blksz : Nat) (f : Nat → β) (ws ws' : List (Nat × List β)) :
    applyWrites blksz f (ws ++ ws') = applyWrites blksz (applyWrites blksz f ws) ws' :=
  List.foldl_append

theorem length_blockWrites (blksz start : Nat) (data : List β) :
    (blockWrites blksz start data).length = data.length / blksz := by
  simp [blockWrites]

theorem applyWrites_take_of_le (blksz start : Nat) (f : Nat → β) (data : List β) (hk : k ≤ data.length / blksz) :
    applyWrites blksz f ((blockWrites blksz start data).take k) =
      overwrite f (start * blksz) (data.take (k * blksz)) := by
  induction k with
  | zero => simp [applyWrites]
  | succ k ih =>
    have hle : (k + 1) * blksz ≤ data.length :=
      Nat.le_trans (Nat.mul_le_mul_right _ hk) (Nat.div_mul_le_self _ _)
    have hmul : (k + 1) * blksz = k * blksz + blksz := Nat.succ_mul k blksz
    have htake : (data.take (k * blksz)).length = k * blksz := List.length_take_of_le (by omega)
    have hwrite : (blockWrites blksz start data)[k]? =
        some (start + k, (data.drop (k * blksz)).take blksz) := by
      simp only [blockWrites, List.getElem?_map, List.getElem?_range hk, Option.map_some]
    have hoff : (start + k) * blksz = start * blksz + (data.take (k * blksz)).length := by
      rw [htake, Nat.add_mul]
    rw [List.take_add_one, applyWrites_append, ih (Nat.le_of_lt hk), hwrite]
    simp only [applyWrites, Option.toList_some, List.foldl_cons, List.foldl_nil]
    rw [hoff, overwrite_overwrite, hmul, List.take_add]

/-- After the first `k` blocks, the first part of the data is on the disk. -/
theorem applyWrites_take (start : Nat) (f : Nat → β) {blksz c : Nat} (hpos : 0 < blksz)
    (hlen : data.length = c * blksz) (k : Nat) :
    applyWrites blksz f ((blockWrites blksz start data).take k) =
      overwrite f (start * blksz) (data.take (k * blksz)) := by
  have hdiv : data.length / blksz = c := by rw [hlen, Nat.mul_div_cancel _ hpos]
  rcases Nat.le_total k c with hk | hk
  · exact applyWrites_take_of_le blksz start f data (by omega)
  · have hall : (blockWrites blksz start data).take k = (blockWrites blksz start data).take c := by
      rw [List.take_of_length_le (by rw [length_blockWrites]; omega),
        List.take_of_length_le (by rw [length_blockWrites]; omega)]
    have hdata : data.take (k * blksz) = data.take (c * blksz) := by
      have := Nat.mul_le_mul_right blksz hk
      rw [List.take_of_length_le (by omega), List.take_of_length_le (by omega)]
    rw [hall, hdata]
    exact applyWrites_take_of_le blksz start f data (by omega)

theorem applyWrites_take_append (blksz : Nat) (f : Nat → β) (ws ws' : List (Nat × List β)) (n : Nat) :
    applyWrites blksz f ((ws ++ ws').take n) =
      applyWrites blksz (applyWrites blksz f (ws.take n)) (ws'.take (n - ws.length)) := by
  rw [List.take_append, applyWrites_append]

end Armada3720.Lib
