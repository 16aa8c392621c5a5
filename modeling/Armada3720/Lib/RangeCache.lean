import Armada3720.Lib.Window

/-!
# A cache of ranges

A cache is coherent if every copy of a range is what the store holds there now. Coherence survives the loss of
copies, a new copy of the store, and a change of the store under keys that have no copies.
-/

namespace Armada3720.Lib

variable {κ β : Type*}

namespace RangeCache

/-- A copy of a range of the values under a key. -/
structure Entry (κ β : Type*) where
  key : κ
  start : Nat
  data : List β

/-- Every copy is what the store holds. -/
def Coherent (store : κ → Nat → β) (entries : List (Entry κ β)) : Prop :=
  ∀ e ∈ entries, e.data = window (store e.key) e.start e.data.length

variable {store store' : κ → Nat → β} {entries entries' : List (Entry κ β)} {e : Entry κ β}

theorem Coherent.nil : Coherent store [] := nofun

theorem Coherent.subset (h : Coherent store entries) (hs : entries' ⊆ entries) :
    Coherent store entries' :=
  fun e he => h e (hs he)

theorem Coherent.cons (h : Coherent store entries)
    (he : e.data = window (store e.key) e.start e.data.length) : Coherent store (e :: entries) :=
  List.forall_mem_cons.mpr ⟨he, h⟩

theorem Coherent.change (h : Coherent store entries)
    (hkeys : ∀ e ∈ entries, store' e.key = store e.key) : Coherent store' entries := by
  intro e he
  rw [hkeys e he]
  exact h e he

theorem Coherent.lookup (h : Coherent store entries) (he : e ∈ entries) (skip n : Nat)
    (hn : skip + n ≤ e.data.length) :
    (e.data.drop skip).take n = window (store e.key) (e.start + skip) n := by
  rw [h e he]
  exact take_drop_window _ _ hn

end RangeCache

end Armada3720.Lib
