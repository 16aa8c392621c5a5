import Mathlib

/-!
# Lists of regions

In a list whose regions are pairwise nested or apart (`Laminar`) the regions that hold an address are nested in
each other; the innermost is the last one when outer regions come before inner ones.
-/

namespace Armada3720.Lib

section Regions

variable {α : Type*} (base size : α → Nat)

def Holds (r : α) (x : Nat) : Prop := base r ≤ x ∧ x < base r + size r

instance (r : α) (x : Nat) : Decidable (Holds base size r x) := inferInstanceAs (Decidable (_ ∧ _))

def Inside (a b : α) : Prop := base b ≤ base a ∧ base a + size a ≤ base b + size b

def Apart (a b : α) : Prop := base a + size a ≤ base b ∨ base b + size b ≤ base a

/-- Two regions are nested or apart. -/
def Laminar (a b : α) : Prop := Inside base size a b ∨ Inside base size b a ∨ Apart base size a b

/-- The smallest region of the list that holds the address. -/
structure Innermost (l : List α) (x : Nat) (r : α) : Prop where
  mem : r ∈ l
  holds : Holds base size r x
  least : ∀ s ∈ l, Holds base size s x → size r ≤ size s

/-- The last region of the list that holds the address. -/
def lastHolding (l : List α) (x : Nat) : Option α := (l.filter (Holds base size · x)).getLast?

variable {base size}

theorem Laminar.symm {a b : α} (h : Laminar base size a b) : Laminar base size b a := by
  unfold Laminar Apart at *
  tauto

theorem lastHolding_cons (r : α) (l : List α) (x : Nat) :
    lastHolding base size (r :: l) x =
      (lastHolding base size l x).or (if Holds base size r x then some r else none) := by
  unfold lastHolding
  rw [List.filter_cons]
  by_cases hr : Holds base size r x
  · rw [if_pos (by simpa using hr), if_pos hr, List.getLast?_cons]
    cases (l.filter (Holds base size · x)).getLast? <;> rfl
  · rw [if_neg (by simpa using hr), if_neg hr, Option.or_none]

theorem lastHolding_append (l l' : List α) (x : Nat) :
    lastHolding base size (l ++ l') x = (lastHolding base size l' x).or (lastHolding base size l x) := by
  induction l with
  | nil => rw [List.nil_append, show lastHolding base size [] x = none from rfl, Option.or_none]
  | cons r l ih => rw [List.cons_append, lastHolding_cons, lastHolding_cons, ih, Option.or_assoc]

variable {l : List α} {x : Nat}

theorem lastHolding_eq_none :
    lastHolding base size l x = none ↔ ∀ r ∈ l, ¬ Holds base size r x := by
  unfold lastHolding
  rw [List.getLast?_eq_none_iff, List.filter_eq_nil_iff]
  simp

theorem lastHolding_eq_some {r : α} :
    lastHolding base size l x = some r ↔ ∃ l1 l2, l = l1 ++ r :: l2 ∧ Holds base size r x ∧
      ∀ s ∈ l2, ¬ Holds base size s x := by
  induction l with
  | nil => simp [lastHolding]
  | cons a l ih =>
    rw [lastHolding_cons]
    constructor
    · intro h
      cases hl : lastHolding base size l x with
      | some s =>
        rw [hl] at h
        obtain rfl : s = r := by simpa using h
        obtain ⟨l1, l2, rfl, hr, hlate⟩ := ih.mp hl
        exact ⟨a :: l1, l2, rfl, hr, hlate⟩
      | none =>
        rw [hl, Option.none_or] at h
        split at h
        · next ha =>
          cases h
          exact ⟨[], l, rfl, ha, lastHolding_eq_none.mp hl⟩
        · cases h
    · rintro ⟨l1, l2, heq, hr, hlate⟩
      cases l1 with
      | nil =>
        cases heq
        rw [lastHolding_eq_none.mpr hlate, Option.none_or, if_pos hr]
      | cons b l1 =>
        cases heq
        rw [ih.mpr ⟨l1, l2, rfl, hr, hlate⟩, Option.some_or]

/-- Outer regions stand before inner ones. -/
def OuterFirst (base size : α → Nat) (a b : α) : Prop :=
  base a < base b ∨ base a = base b ∧ size b < size a

/-- Where outer regions come first, the last region that holds an address is the innermost. -/
theorem innermost_of_lastHolding (hlam : l.Pairwise (Laminar base size))
    (hord : l.Pairwise (OuterFirst base size)) {r : α} (hr : lastHolding base size l x = some r) :
    ∀ s, Innermost base size l x s ↔ s = r := by
  obtain ⟨l1, l2, rfl, hx, hlate⟩ := lastHolding_eq_some.mp hr
  have hless : ∀ s ∈ l1, Holds base size s x → size r < size s := by
    intro s hs hsx
    have h1 := (List.pairwise_append.mp hlam).2.2 s hs r (List.mem_cons_self ..)
    have h2 := (List.pairwise_append.mp hord).2.2 s hs r (List.mem_cons_self ..)
    unfold Laminar Inside Apart at h1
    unfold OuterFirst at h2
    unfold Holds at hsx hx
    omega
  have hin : Innermost base size (l1 ++ r :: l2) x r := by
    refine ⟨by simp, hx, fun s hs hsx => ?_⟩
    rcases List.mem_append.mp hs with hs | hs
    · exact (hless s hs hsx).le
    · rcases List.mem_cons.mp hs with rfl | hs
      · exact le_rfl
      · exact absurd hsx (hlate s hs)
  intro s
  constructor
  · intro hs
    rcases List.mem_append.mp hs.mem with hm | hm
    · have h1 := hless s hm hs.holds
      have h2 := hs.least r (by simp) hx
      omega
    · rcases List.mem_cons.mp hm with rfl | hm
      · rfl
      · exact absurd hs.holds (hlate s hm)
  · rintro rfl
    exact hin

/-! ## How much of a range is covered -/

/-- The length that the region has in common with `[lo, hi)`. -/
def common (base size : α → Nat) (lo hi : Nat) (r : α) : Nat :=
  min hi (base r + size r) - max lo (base r)

/-- The length that the regions of the list have in common with `[lo, hi)`. -/
def commonSum (base size : α → Nat) (lo hi : Nat) (l : List α) : Nat :=
  (l.map (common base size lo hi)).sum

theorem commonSum_of_le {lo hi hi' : Nat} (hle : hi' ≤ hi) (hl : ∀ r ∈ l, base r + size r ≤ hi') :
    commonSum base size lo hi l = commonSum base size lo hi' l := by
  unfold commonSum
  congr 1
  refine List.map_congr_left fun r hr => ?_
  have := hl r hr
  unfold common
  omega

/-- The regions have the whole range in common exactly if they cover it. -/
theorem commonSum_le {lo hi : Nat} (hl : l.Pairwise fun a b => base b + size b ≤ base a) :
    commonSum base size lo hi l ≤ hi - lo ∧
      (commonSum base size lo hi l = hi - lo ↔
        ∀ x, lo ≤ x → x < hi → ∃ r ∈ l, Holds base size r x) := by
  induction l generalizing hi with
  | nil =>
    refine ⟨Nat.zero_le _, fun h x hlo hhi => ?_, fun h => ?_⟩
    · have : hi - lo = 0 := h.symm
      omega
    · by_contra hne
      have hpos : hi - lo ≠ 0 := fun h0 => hne h0.symm
      obtain ⟨r, hr, -⟩ := h lo le_rfl (by omega)
      cases hr
  | cons a l ih =>
    obtain ⟨hbelow, hl⟩ := List.pairwise_cons.mp hl
    have hsum : commonSum base size lo hi (a :: l) =
        common base size lo hi a + commonSum base size lo (min hi (base a)) l := by
      rcases Nat.le_total (base a) hi with hle | hle
      · rw [Nat.min_eq_right hle, ← commonSum_of_le hle hbelow]
        rfl
      · rw [Nat.min_eq_left hle]
        rfl
    obtain ⟨hle, heq⟩ : commonSum base size lo (min hi (base a)) l ≤ min hi (base a) - lo ∧ _ := ih hl
    have hcommon : common base size lo hi a = min hi (base a + size a) - max lo (base a) := rfl
    rw [hsum]
    refine ⟨by omega, fun h x hlo hhi => ?_, fun h => ?_⟩
    · -- the first region reaches up to `hi`, the others cover what is below it
      by_cases hx : base a ≤ x
      · exact ⟨a, List.mem_cons_self .., hx, by omega⟩
      · obtain ⟨r, hr, hrx⟩ := heq.mp (by omega) x hlo (by omega)
        exact ⟨r, List.mem_cons_of_mem _ hr, hrx⟩
    · have hrest : commonSum base size lo (min hi (base a)) l = min hi (base a) - lo := by
        refine heq.mpr fun x hlo hhi => ?_
        obtain ⟨r, hr, hrx⟩ := h x hlo (by omega)
        rcases List.mem_cons.mp hr with rfl | hr
        · have := hrx.1
          omega
        · exact ⟨r, hr, hrx⟩
      -- the last address of the range lies in the first region, unless that begins above
      by_cases hlt : max lo (base a) < hi
      · obtain ⟨r, hr, hr1, hr2⟩ := h (hi - 1) (by omega) (by omega)
        rcases List.mem_cons.mp hr with rfl | hr
        · omega
        · have := hbelow r hr
          omega
      · omega

end Regions

theorem not_of_mem_dropWhile {α : Type*} {R : α → α → Prop} {q : α → Bool} {l : List α}
    (hR : l.Pairwise R) (hq : ∀ y ∈ l, ∀ x, R y x → q x = true → q y = true) :
    ∀ x ∈ l.dropWhile q, ¬ q x = true := by
  induction l with
  | nil => simp
  | cons a l ih =>
    intro x hx
    rw [List.pairwise_cons] at hR
    rw [List.dropWhile_cons] at hx
    split at hx
    · exact ih hR.2 (fun y hy => hq y (List.mem_cons_of_mem _ hy)) x hx
    · next ha =>
      rcases List.mem_cons.mp hx with rfl | hx
      · exact ha
      · exact fun hqx => ha (hq a (List.mem_cons_self ..) x (hR.1 x hx) hqx)

end Armada3720.Lib
