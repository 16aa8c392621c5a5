import Armada3720.Lib.Window

/-!
# Ring buffers

The cells `[lo, hi)` hold a queue, which begins at `tail` and ends before `head`, and goes on with the first
cell behind the last. It is empty if the two are equal, so that one cell always stays free.
-/

namespace Armada3720.Lib

variable {β : Type*}

/-- The values from `tail` to `head`. -/
def ring (f : Nat → β) (lo hi head tail : Nat) : List β :=
  if tail ≤ head then window f tail (head - tail)
  else window f tail (hi - tail) ++ window f lo (head - lo)

/-- Both ends are cells of the ring. -/
structure InRing (lo hi head tail : Nat) : Prop where
  lo_le_head : lo ≤ head
  head_lt : head < hi
  lo_le_tail : lo ≤ tail
  tail_lt : tail < hi

section Ring

variable {f g : Nat → β} {lo hi head tail n : Nat}

theorem ring_of_le (h : tail ≤ head) : ring f lo hi head tail = window f tail (head - tail) :=
  if_pos h

theorem ring_of_lt (h : head < tail) :
    ring f lo hi head tail = window f tail (hi - tail) ++ window f lo (head - lo) :=
  if_neg (Nat.not_le.mpr h)

theorem length_ring : (ring f lo hi head tail).length =
    if tail ≤ head then head - tail else hi - tail + (head - lo) := by
  unfold ring
  split <;> simp

theorem length_ring_lt (h : InRing lo hi head tail) : (ring f lo hi head tail).length + 1 ≤ hi - lo := by
  obtain ⟨h1, h2, h3, h4⟩ := h
  rw [length_ring]
  split <;> omega

/-- The queue without the first `n` of its values, if these stand in one run. -/
theorem ring_skip (f : Nat → β) (hring : InRing lo hi head tail) (hle : tail ≤ head → tail + n ≤ head)
    (hgt : head < tail → tail + n ≤ hi) :
    ring f lo hi head tail =
      window f tail n ++ ring f lo hi head (if tail + n = hi then lo else tail + n) := by
  obtain ⟨h1, h2, h3, h4⟩ := hring
  rcases Nat.lt_or_ge head tail with hlt | hge
  · have hrun : hi - tail = n + (hi - (tail + n)) := by
      have := hgt hlt
      omega
    rw [ring_of_lt hlt, hrun, window_add, List.append_assoc]
    by_cases hend : tail + n = hi
    · rw [if_pos hend, ring_of_le h1, hend, Nat.sub_self]
      rfl
    · rw [if_neg hend, ring_of_lt (by omega)]
  · have hle' := hle hge
    have hrun : head - tail = n + (head - (tail + n)) := by omega
    rw [if_neg (by omega), ring_of_le hge, ring_of_le hle', hrun, window_add]

/-- The queue with more values behind the last one, if there is one run of free cells for them. -/
theorem ring_store (f : Nat → β) (data : List β) (hring : InRing lo hi head tail)
    (hle : tail ≤ head → head + data.length ≤ hi ∧ (head + data.length = hi → lo < tail))
    (hgt : head < tail → head + data.length < tail) :
    ring (overwrite f head data) lo hi (if head + data.length = hi then lo else head + data.length) tail =
      ring f lo hi head tail ++ data := by
  obtain ⟨h1, h2, h3, h4⟩ := hring
  rcases Nat.lt_or_ge head tail with hlt | hge
  · have hroom := hgt hlt
    have hrun : head + data.length - lo = head - lo + data.length := by omega
    rw [if_neg (by omega), ring_of_lt hroom, ring_of_lt hlt, hrun, window_add,
      window_overwrite_of_disjoint f (by omega), window_overwrite_of_disjoint f (by omega),
      Nat.add_sub_cancel' h1, window_overwrite, List.append_assoc]
  · obtain ⟨hroom, hwrap⟩ := hle hge
    have hrun : window (overwrite f head data) tail (head + data.length - tail) =
        window f tail (head - tail) ++ data := by
      rw [Nat.sub_add_comm hge, window_add, window_overwrite_of_disjoint f (by omega),
        Nat.add_sub_cancel' hge, window_overwrite]
    rw [ring_of_le hge, ← hrun]
    by_cases hend : head + data.length = hi
    · rw [if_pos hend, ring_of_lt (hwrap hend), hend, Nat.sub_self]
      exact List.append_nil _
    · rw [if_neg hend, ring_of_le (by omega)]

end Ring

end Armada3720.Lib
