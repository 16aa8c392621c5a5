import Armada3720.Efi.Carving

/-!
# The memory list as a map from pages to types, over runs

After any safe calls the list is well formed, and a call that returns its start maps its range and nothing else.
A call may walk on from a freed node where a number of carved pages is read as a return code.

`efi_memory_list_is_page_map` is for runs of calls that do not (`Safe`). Of a call that returns 0 it says only that
the list stays well formed: some of its pages may have been carved out.
-/

namespace Armada3720.Efi

open Lib

/-- The range of a call: whole pages, at least one, and no wrap. -/
structure CallOk (start pages : Nat) : Prop where
  aligned : start % 4096 = 0
  nonempty : pages ≠ 0
  bound : start + pages * 4096 < 2 ^ 64

/-- The lists that calls make of the empty list, when each meets the condition. -/
inductive Reach (cond : EfiMemDesc → Bool → List EfiMemDesc → Prop) : List EfiMemDesc → Prop
  | empty : Reach cond []
  | call {l l' : List EfiMemDesc} {start pages memoryType ret : Nat} {overlapOnlyRam : Bool} :
      Reach cond l → CallOk start pages → cond (newDesc start pages memoryType) overlapOnlyRam l →
      efiAddMemoryMap l start pages memoryType overlapOnlyRam = some (l', ret) → Reach cond l'

theorem Reach.wellFormed {l : List EfiMemDesc} (h : Reach Safe l) : WellFormed l := by
  induction h with
  | empty => exact ⟨by simp, .nil⟩
  | call _ hok hsafe hrun ih =>
    obtain ⟨l', ret, hrun', hwf, -⟩ :=
      efiAddMemoryMap_spec ih _ hok.aligned hok.nonempty hok.bound hsafe
    rw [hrun] at hrun'
    cases hrun'
    exact hwf

/-- After any safe calls the descriptors are strictly descending, pairwise disjoint and not empty. A further
safe call returns, and if it returns a non-zero `start`, the pages of its range have the new type and attribute,
and all others are listed as before. -/
theorem efi_memory_list_is_page_map (l : List EfiMemDesc) (h : Reach Safe l) :
    l.Pairwise (fun a b => b.physicalStart < a.physicalStart) ∧
    l.Pairwise (Apart EfiMemDesc.physicalStart EfiMemDesc.length) ∧ (∀ d ∈ l, d.numPages ≠ 0) ∧
    ∀ start pages memoryType overlapOnlyRam, CallOk start pages →
      Safe (newDesc start pages memoryType) overlapOnlyRam l →
      ∃ l' ret, efiAddMemoryMap l start pages memoryType overlapOnlyRam = some (l', ret) ∧
        (ret = start → start ≠ 0 → ∀ x v, Lists l' x v ↔
          if start ≤ x ∧ x < start + pages * 4096 then v = (memoryType, attributeOf memoryType)
          else Lists l x v) := by
  have hwf := h.wellFormed
  refine ⟨hwf.descending.imp_of_mem fun {a b} _ hb hab => ?_,
    hwf.descending.imp fun {a b} hab => Or.inr hab, fun d hd => (hwf.valid d hd).nonempty,
    fun start pages memoryType overlapOnlyRam hok hsafe => ?_⟩
  · have := (hwf.valid b hb).nonempty
    unfold Below EfiMemDesc.length at hab
    omega
  · obtain ⟨l', ret, hrun, -, hmap⟩ :=
      efiAddMemoryMap_spec hwf overlapOnlyRam hok.aligned hok.nonempty hok.bound hsafe
    exact ⟨l', ret, hrun, hmap⟩

theorem efiAddMemoryMap_nil {start pages memoryType : Nat} (hpages : pages ≠ 0) :
    efiAddMemoryMap [] start pages memoryType false =
      some ([newDesc start pages memoryType], start) := by
  simp [efiAddMemoryMap, hpages, carveLoop, walk, efiMemSort, listSort, fillSlots, carry]

/-- Two pages are allocated in the middle of sixteen. -/
theorem efi_memory_list_is_page_map_two_pages :
    Reach Safe [newDesc 0x100000 16 efiConventionalMemory] ∧
      ∃ l' ret, efiAddMemoryMap [newDesc 0x100000 16 efiConventionalMemory] 0x104000 2 1 true =
          some (l', ret) ∧
        (ret = 0x104000 → 0x104000 ≠ 0 → ∀ x v, Lists l' x v ↔
          if 0x104000 ≤ x ∧ x < 0x104000 + 2 * 4096 then v = (1, attributeOf 1)
          else Lists [newDesc 0x100000 16 efiConventionalMemory] x v) := by
  have hreach : Reach Safe [newDesc 0x100000 16 efiConventionalMemory] :=
    .call .empty ⟨by decide, by decide, by decide⟩ trivial (efiAddMemoryMap_nil (by decide))
  refine ⟨hreach, (efi_memory_list_is_page_map _ hreach).2.2.2 0x104000 2 1 true
    ⟨by decide, by decide, by decide⟩ (Or.inr ⟨?_, trivial⟩)⟩
  unfold FreedUnder
  decide

/-- A descriptor of `2 ^ 32 - 1` pages is replaced: its number of pages is read as -1, and the walk goes on from
the freed node. -/
theorem carve_walks_on_from_freed_node :
    Reach (fun _ _ _ => True) [newDesc 0x1000 (2 ^ 32 - 1) efiConventionalMemory] ∧
      CallOk 0x1000 (2 ^ 32 - 1) ∧
      walk (newDesc 0x1000 (2 ^ 32 - 1) 1) false [newDesc 0x1000 (2 ^ 32 - 1) efiConventionalMemory] = .freed ∧
      efiAddMemoryMap [newDesc 0x1000 (2 ^ 32 - 1) efiConventionalMemory] 0x1000 (2 ^ 32 - 1) 1
        false = none :=
  ⟨.call .empty ⟨by decide, by decide, by decide⟩ trivial (efiAddMemoryMap_nil (by decide)),
    ⟨by decide, by decide, by decide⟩, rfl, rfl⟩

end Armada3720.Efi
