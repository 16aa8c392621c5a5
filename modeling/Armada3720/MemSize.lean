import Mathlib.Tactic

/-!
# The size of RAM

`get_ram_size` of `common/memsize.c`. RAM is words of type `long`: word `i` of the probed range is word `i % n`
of RAM. Words are saved from the highest probed address down and put back in the other direction, except word 0,
which is put back through an alias.
-/

namespace Armada3720.MemSize

open Function

abbrev Ram : Type := Nat → BitVec 64

section Code

-- the words of RAM, and those of the probed range
variable (n words : Nat)

def load (ram : Ram) (i : Nat) : BitVec 64 :=
  ram (i % n)

def store (ram : Ram) (i : Nat) (v : BitVec 64) : Ram :=
  update ram (i % n) v

/-- The number of words in `save`. -/
def saveSize : Nat := 32

/-- `save` is what has been saved, the last word first; `none` is a write behind its end. -/
def saveLoop : Nat → Nat → List (BitVec 64) → Ram → Option (List (BitVec 64) × Ram)
  | 0, _, _, _ => none
  | fuel + 1, cnt, save, ram =>
    if cnt > 0 then
      if save.length < saveSize then
        saveLoop fuel (cnt / 2) (load n ram cnt :: save) (store n ram cnt (~~~BitVec.ofNat 64 cnt))
      else none
    else some (save, ram)

/-- The loops that only restore, from `cnt` on; `none` is a read before `save`. -/
def restoreLoop : Nat → Nat → List (BitVec 64) → Ram → Option Ram
  | 0, _, _, _ => none
  | fuel + 1, cnt, save, ram =>
    if cnt < words then
      match save with
      | [] => none
      | v :: save => restoreLoop fuel (cnt * 2) save (store n ram cnt v)
    else some ram

/-- The loop that finds the first address that is an alias. -/
def checkLoop (maxsize : Nat) : Nat → Nat → List (BitVec 64) → Ram → Option (Nat × Ram)
  | 0, _, _, _ => none
  | fuel + 1, cnt, save, ram =>
    if cnt < words then
      match save with
      | [] => none
      | v :: save =>
        let val := load n ram cnt
        let ram := store n ram cnt v
        if val ≠ ~~~BitVec.ofNat 64 cnt then
          (restoreLoop n words fuel (cnt * 2) save ram).map fun ram => (cnt * 8, ram)
        else checkLoop maxsize fuel (cnt * 2) save ram
    else some (maxsize, ram)

/-- `get_ram_size`: the size and RAM. No loop has more than 64 rounds. -/
def getRamSize (maxsize : Nat) (ram : Ram) : Option (Nat × Ram) :=
  match saveLoop n 64 (maxsize / 8 / 2) [] ram with
  | none => none
  | some (save, ram) =>
    if save.length < saveSize then
      let base := load n ram 0
      let ram := store n ram 0 0
      if load n ram 0 ≠ 0 then
        (restoreLoop n (maxsize / 8) 64 1 save (store n ram 0 base)).map fun ram => (0, ram)
      else checkLoop n (maxsize / 8) maxsize 64 1 save ram
    else none

end Code

variable {k m : Nat}

theorem two_pow_mod (j : Nat) : 2 ^ j % 2 ^ k = if j < k then 2 ^ j else 0 := by
  split
  next h => exact Nat.mod_eq_of_lt (Nat.pow_lt_pow_right (by decide) h)
  next h => exact Nat.mod_eq_zero_of_dvd (Nat.pow_dvd_pow 2 (Nat.le_of_not_lt h))

theorem two_pow_succ_div_two (j : Nat) : 2 ^ (j + 1) / 2 = 2 ^ j := by
  rw [pow_succ, Nat.mul_div_cancel _ (by decide)]

theorem store_load (n : Nat) (ram : Ram) (i : Nat) (v : BitVec 64) : store n (store n ram i v) i (load n ram i) = ram := by
  simp [store, load]

theorem length_saveLoop {n j fuel : Nat} {save save' : List (BitVec 64)} {ram ram' : Ram}
    (h : saveLoop n fuel (2 ^ j / 2) save ram = some (save', ram')) : save'.length = save.length + j := by
  induction j generalizing fuel save ram with
  | zero =>
    cases fuel with
    | zero => cases h
    | succ fuel =>
      cases h
      rfl
  | succ j ih =>
    rw [two_pow_succ_div_two] at h
    cases fuel with
    | zero => cases h
    | succ fuel =>
      rw [saveLoop, if_pos (Nat.two_pow_pos j)] at h
      split at h
      · rw [ih h, List.length_cons]
        omega
      · cases h

/-- Below the size of RAM every word is back, word 0 apart; above it the size has been found, and all words are
back. -/
theorem save_check {j : Nat} (hj : j ≤ m) (save : List (BitVec 64)) (hroom : save.length + j ≤ 32) (ram : Ram)
    {fuel : Nat} (hfuel : j < fuel) :
    ∃ save' ram', saveLoop (2 ^ k) fuel (2 ^ j / 2) save ram = some (save', ram') ∧ ∀ maxsize fuel',
      checkLoop (2 ^ k) (2 ^ m) maxsize (fuel' + j) 1 save' (store (2 ^ k) ram' 0 0) =
        if k < j then (restoreLoop (2 ^ k) (2 ^ m) fuel' (2 ^ j) save ram).map fun ram => (2 ^ k * 8, ram)
        else checkLoop (2 ^ k) (2 ^ m) maxsize fuel' (2 ^ j) save (store (2 ^ k) ram 0 0) := by
  induction j generalizing save ram fuel with
  | zero =>
    obtain ⟨fuel, rfl⟩ := Nat.exists_eq_succ_of_ne_zero (Nat.ne_of_gt hfuel)
    exact ⟨save, ram, rfl, fun maxsize fuel' => rfl⟩
  | succ j ih =>
    obtain ⟨fuel, rfl⟩ := Nat.exists_eq_succ_of_ne_zero (Nat.ne_of_gt (Nat.zero_lt_of_lt hfuel))
    obtain ⟨save', ram', heq, hcheck⟩ := ih (by omega) (load (2 ^ k) ram (2 ^ j) :: save)
      (by rw [List.length_cons]; omega) (store (2 ^ k) ram (2 ^ j) (~~~BitVec.ofNat 64 (2 ^ j))) (Nat.lt_of_succ_lt_succ hfuel)
    refine ⟨save', ram', ?_, fun maxsize fuel' => ?_⟩
    · rw [two_pow_succ_div_two, saveLoop, if_pos (Nat.two_pow_pos j), if_pos (by unfold saveSize; omega), heq]
    · rw [← Nat.add_assoc, Nat.add_right_comm, hcheck, pow_succ]
      have hlt : 2 ^ j < 2 ^ m := Nat.pow_lt_pow_right (by decide) hj
      rcases Nat.lt_trichotomy k j with hkj | rfl | hkj
      · rw [if_pos hkj, if_pos (by omega), restoreLoop, if_pos hlt]
        simp only [store_load]
      · -- the first alias: word 0 has been cleared, and gets back what it was
        have hne : (0 : BitVec 64) ≠ ~~~BitVec.ofNat 64 (2 ^ k) := by
          have hle : 2 ^ k ≤ 2 ^ 32 := Nat.pow_le_pow_right (by decide) (by omega)
          intro h
          have := congrArg BitVec.toNat h
          rw [BitVec.toNat_not, BitVec.toNat_ofNat (2 ^ k) 64, Nat.mod_eq_of_lt (by omega)] at this
          change 0 = _ at this
          omega
        rw [if_neg (lt_irrefl k), if_pos (Nat.lt_succ_self k), checkLoop, if_pos hlt]
        simp only [store, load, Nat.mod_self, Nat.zero_mod, update_self, update_idem, update_eq_self]
        rw [if_pos hne]
      · have hpos : (2 : Nat) ^ j ≠ 0 := (Nat.two_pow_pos j).ne'
        rw [if_neg (by omega), if_neg (by omega), checkLoop, if_pos hlt]
        simp only [store, load, two_pow_mod, if_pos hkj, Nat.zero_mod]
        rw [update_of_ne hpos, update_self, if_neg (not_not.mpr rfl), update_comm hpos, update_idem,
          update_eq_self_iff.mpr (update_of_ne hpos ..).symm]

/-- The size is right and every word is back, if and only if the saved words fit `save` and RAM is smaller than the probed
range or begins with a word 0. -/
theorem get_ram_size_harmless_iff (hkm : k ≤ m) (ram : Ram) :
    getRamSize (2 ^ k) (2 ^ m * 8) ram = some (2 ^ k * 8, ram) ↔ m < 32 ∧ (k < m ∨ ram 0 = 0) := by
  unfold getRamSize
  rw [Nat.mul_div_cancel _ (by decide)]
  by_cases hm : m < 32
  · obtain ⟨save, ram', heq, hcheck⟩ := save_check (k := k) (Nat.le_refl m) [] (by simpa using hm.le) ram (show m < 64 by omega)
    have hlen := length_saveLoop heq
    have hrun := hcheck (2 ^ m * 8) (64 - m)
    rw [Nat.sub_add_cancel (by omega)] at hrun
    rw [heq]
    simp only
    rw [if_pos (by rw [hlen]; simpa [saveSize] using hm), if_neg (by simp [load, store]), hrun]
    obtain ⟨fuel, hfuel⟩ : ∃ fuel, 64 - m = fuel + 1 := ⟨63 - m, by omega⟩
    rw [hfuel]
    by_cases hlt : k < m
    · simp [hlt, hm, restoreLoop]
    · obtain rfl : k = m := by omega
      rw [if_neg hlt, checkLoop, if_neg (lt_irrefl _), Option.some_inj, Prod.mk_inj, store, Nat.zero_mod,
        update_eq_self_iff]
      exact ⟨fun h => ⟨hm, .inr h.2.symm⟩, fun h => ⟨rfl, (h.2.resolve_left hlt).symm⟩⟩
  · refine iff_of_false (fun h => ?_) fun h => hm h.1
    split at h
    · cases h
    next heq =>
      rw [if_neg (by rw [length_saveLoop heq]; simpa [saveSize] using hm)] at h
      cases h

theorem get_ram_size_harmless_one_word :
    getRamSize (2 ^ 0) (2 ^ 2 * 8) (fun _ => 5) = some (2 ^ 0 * 8, fun _ => 5) :=
  (get_ram_size_harmless_iff (by decide) (fun _ => 5)).mpr ⟨by decide, .inl (by decide)⟩

/-- With as much RAM as is probed, the first word is left cleared. -/
theorem get_ram_size_clears_first_word :
    (getRamSize (2 ^ 1) (2 ^ 1 * 8) (fun _ => 5)).map (fun r => (r.1, r.2 0)) = some (16, 0) := by
  decide +kernel

end Armada3720.MemSize
