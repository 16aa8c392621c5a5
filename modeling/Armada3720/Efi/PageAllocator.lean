import Armada3720.Efi.Allocate
import Armada3720.Efi.PageMap
import Armada3720.Lib.Reaches

/-!
# Runs of the page allocator

Beside the memory list a run keeps the addresses of the allocations that were not freed. `efi_allocate_pages`
neither checks the alignment of an address, nor tells a failure at address 0 from a success.

What a run is asked for (`CallAligned`) is about the arguments of its calls alone: blocks that are added or freed
are whole pages and do not wrap, the limit or the address of an allocation is a multiple of a page, and an
allocation has fewer than `2 ^ 52` pages. The address that `efi_find_free_memory` finds is then aligned
(`allocAddr_aligned`), and a request that wraps fails and changes nothing.

The two results are about any allocation of fewer than `2 ^ 52` pages after such a run, aligned or not and
wrapping or not. More pages are left out: their number of bytes does not fit 64 bits. Of the calls that are placed
right the results say that they return; of the others they say what holds if they do, since a number of carved
pages that is misread may free a descriptor under the walk.
-/

namespace Armada3720.Efi

open Lib

/-- The list, and the addresses that allocations hold. -/
structure EfiState where
  list : List EfiMemDesc
  held : Nat → Prop

inductive EfiCall
  | addMemoryMap (start pages memoryType : Nat) (overlapOnlyRam : Bool)
  | allocatePages (type : Int) (memoryType pages memory : Nat)
  | freePages (memory pages : Nat)

def InBlock (start pages x : Nat) : Prop := start ≤ x ∧ x < start + pages * 4096

instance (start pages x : Nat) : Decidable (InBlock start pages x) :=
  inferInstanceAs (Decidable (_ ∧ _))

inductive EfiStep (startAddrSp : Nat) : EfiState → EfiCall → EfiState → Prop
  | addMemoryMap {s : EfiState} {start pages memoryType ret : Nat} {overlapOnlyRam : Bool} {l' : List EfiMemDesc}
      (h : efiAddMemoryMap s.list start pages memoryType overlapOnlyRam = some (l', ret)) :
      EfiStep startAddrSp s (.addMemoryMap start pages memoryType overlapOnlyRam) { s with list := l' }
  | allocatePages {s : EfiState} {type : Int} {memoryType pages memory memory' : Nat}
      {r : EfiStatus} {l' : List EfiMemDesc}
      (h : efiAllocatePages startAddrSp s.list type memoryType pages memory = some (r, l', memory')) :
      EfiStep startAddrSp s (.allocatePages type memoryType pages memory)
        { list := l', held := fun x => s.held x ∨ r = .success ∧ InBlock memory' pages x }
  | freePages {s : EfiState} {memory pages : Nat} {r : EfiStatus} {l' : List EfiMemDesc}
      (h : efiFreePages s.list memory pages = some (r, l')) :
      EfiStep startAddrSp s (.freePages memory pages)
        { list := l', held := fun x => s.held x ∧ ¬ (r = .success ∧ InBlock memory pages x) }

/-- The arguments of a call: whole pages that do not wrap, or a limit or an address at a page. -/
def CallAligned (startAddrSp : Nat) : EfiCall → Prop
  | .addMemoryMap start pages _ _ => pages ≠ 0 → CallOk start pages
  | .allocatePages type _ pages memory => pages < 2 ^ 52 ∧ (type = 0 → startAddrSp % 4096 = 0) ∧
    (type = 1 ∨ type = 2 → memory % 4096 = 0)
  | .freePages memory pages => pages ≠ 0 → CallOk memory pages

/-- The block of the allocation starts at a page and does not wrap, and no descriptor is freed under the walk. -/
def Placed (startAddrSp : Nat) (l : List EfiMemDesc) (type : Int) (memoryType pages memory : Nat) : Prop :=
  ∀ addr, allocAddr startAddrSp l type pages memory = .ok addr → pages ≠ 0 →
    CallOk addr pages ∧ Safe (newDesc addr pages memoryType) true l

/-- An allocation at address 0 is one of free RAM. -/
def ZeroFree (startAddrSp : Nat) (l : List EfiMemDesc) (type : Int) (memoryType pages memory : Nat) :
    Prop :=
  ∀ addr, allocAddr startAddrSp l type pages memory = .ok addr → pages ≠ 0 → addr = 0 →
    FreeRam (newDesc addr pages memoryType) l

/-- A call adds no free RAM over allocations, and allocates as something else than free RAM. -/
def Respects (startAddrSp : Nat) (s : EfiState) : EfiCall → Prop
  | .addMemoryMap start pages memoryType _ =>
    memoryType = efiConventionalMemory → ∀ x, InBlock start pages x → ¬ s.held x
  | .allocatePages type memoryType pages memory =>
    memoryType ≠ efiConventionalMemory ∧ ZeroFree startAddrSp s.list type memoryType pages memory
  | .freePages _ _ => True

/-! ## Lists -/

section Lists

variable {s s' : EfiState} {c : EfiCall} {l l' : List EfiMemDesc} {carve : EfiMemDesc}
  {start pages memoryType memory memory' ret startAddrSp addr : Nat} {overlapOnlyRam : Bool} {type : Int}
  {r : EfiStatus}

/-- Whatever is listed after a call was so before, or is in the block that was added. -/
theorem Added.lists (hc : carve.Valid) (hl : WellFormed l)
    (h : Added carve overlapOnlyRam l l' ret) {x : Nat} {v : Nat × Nat} (hx : Lists l' x v) :
    Lists l x v ∨ ret = carve.physicalStart ∧
      Holds EfiMemDesc.physicalStart EfiMemDesc.length carve x ∧ v = (carve.type, carve.attr) := by
  cases h with
  | returned h =>
    obtain ⟨s, hchain⟩ := h.chain
    exact Or.inl (hchain.lists hl.bounded hx)
  | short h => exact Or.inl (h.lists hl.bounded hx)
  | added h hapart =>
    rw [((h.carved hc hl).added hc hapart).2] at hx
    split at hx
    · next hin => exact Or.inr ⟨rfl, hin, hx⟩
    · exact Or.inl hx

theorem Ended.wellFormed (hstart : carve.physicalStart % 4096 = 0) (hpages : carve.numPages ≠ 0)
    (hlt : carve.numPages < 2 ^ 52) (hl : WellFormed l) (h : Ended carve l l') : WellFormed l' := by
  obtain ⟨s, hchain⟩ := h.chain
  by_cases hbound : carve.Bounded
  · exact (hchain.carved ⟨hstart, hpages, hbound⟩ hl).wellFormed
  · exact (hchain.of_wrap hstart (stop_le_of_wrap hlt hbound) hl).1

/-- No pages are nothing to do. -/
theorem efiAddMemoryMap_cases (h : pages ≠ 0 → CallOk start pages)
    (hrun : efiAddMemoryMap l start pages memoryType overlapOnlyRam = some (l', ret)) :
    (pages = 0 ∧ l' = l ∧ ret = start) ∨ (pages ≠ 0 ∧ (newDesc start pages memoryType).Valid ∧
      Added (newDesc start pages memoryType) overlapOnlyRam l l' ret) := by
  by_cases hpages : pages = 0
  · unfold efiAddMemoryMap at hrun
    rw [if_pos hpages] at hrun
    cases hrun
    exact Or.inl ⟨hpages, rfl, rfl⟩
  · have hok := h hpages
    exact Or.inr ⟨hpages, newDesc_valid hok.aligned hok.nonempty hok.bound, efiAddMemoryMap_added hpages hrun⟩

theorem wellFormed_of_add (hl : WellFormed l) (h : pages ≠ 0 → CallOk start pages)
    (hrun : efiAddMemoryMap l start pages memoryType overlapOnlyRam = some (l', ret)) :
    WellFormed l' := by
  rcases efiAddMemoryMap_cases h hrun with ⟨-, rfl, -⟩ | ⟨-, hc, hadd⟩
  · exact hl
  · exact hadd.wellFormed hc hl

theorem efiAllocatePages_cases
    (h : efiAllocatePages startAddrSp l type memoryType pages memory = some (r, l', memory')) :
    (r ≠ .success ∧ l' = l ∧ allocAddr startAddrSp l type pages memory = .error r) ∨
      ∃ addr ret, allocAddr startAddrSp l type pages memory = .ok addr ∧
        efiAddMemoryMap l addr pages memoryType true = some (l', ret) ∧
        (ret = addr ∧ r = .success ∧ memory' = addr ∨ ret ≠ addr ∧ r = .outOfResources) := by
  unfold efiAllocatePages at h
  cases haddr : allocAddr startAddrSp l type pages memory with
  | error e =>
    rw [haddr] at h
    cases h
    refine Or.inl ⟨?_, rfl, rfl⟩
    rintro rfl
    unfold allocAddr at haddr
    dsimp only at haddr
    split at haddr
    · split at haddr <;> cases haddr
    · split at haddr
      · split at haddr <;> cases haddr
      · split at haddr <;> cases haddr
  | ok addr =>
    rw [haddr] at h
    dsimp only at h
    refine Or.inr ⟨addr, ?_⟩
    split at h
    · cases h
    · next l1 ret hrun =>
      split at h
      · next heq =>
        cases h
        exact ⟨ret, rfl, hrun, Or.inl ⟨heq, rfl, rfl⟩⟩
      · next hne =>
        cases h
        exact ⟨ret, rfl, hrun, Or.inr ⟨hne, rfl⟩⟩

theorem efiFreePages_cases (h : efiFreePages l memory pages = some (r, l')) :
    ∃ ret, efiAddMemoryMap l memory pages efiConventionalMemory false = some (l', ret) ∧
      (ret = memory ↔ r = .success) := by
  unfold efiFreePages at h
  split at h
  · cases h
  · next l1 ret hrun =>
    refine ⟨ret, ?_⟩
    split at h
    · next heq =>
      cases h
      exact ⟨hrun, iff_of_true heq rfl⟩
    · next hne =>
      cases h
      exact ⟨hrun, iff_of_false hne nofun⟩

/-- An allocation succeeds if all of its pages are counted. Otherwise it fails, which is seen unless it is at
address 0. -/
theorem efiAllocatePages_outcome (hl : WellFormed l) (hpages : pages ≠ 0) (hlt : pages < 2 ^ 52)
    (haddr : allocAddr startAddrSp l type pages memory = .ok addr)
    (h : efiAllocatePages startAddrSp l type memoryType pages memory = some (r, l', memory')) :
    (AllCounted (newDesc addr pages memoryType) l ∧ r = .success ∧ memory' = addr ∧
        ((newDesc addr pages memoryType).Valid → WellFormed l' ∧ ∀ x v, Lists l' x v ↔
          if InBlock addr pages x then v = (memoryType, attributeOf memoryType) else Lists l x v)) ∨
      (¬ AllCounted (newDesc addr pages memoryType) l ∧ (r = .success ↔ addr = 0) ∧
        (r = .success → memory' = addr) ∧ Ended (newDesc addr pages memoryType) l l') := by
  rcases efiAllocatePages_cases h with ⟨-, -, herr⟩ | ⟨addr', ret, haddr', hrun, hcase⟩
  · cases haddr.symm.trans herr
  cases haddr.symm.trans haddr'
  rcases (efiAddMemoryMap_added hpages hrun).outcome hlt hl with
    ⟨hall, hret, n, l1, hchain, hapart, rfl⟩ | ⟨hall, rfl, hend⟩
  · obtain ⟨-, rfl, rfl⟩ | ⟨hne, -⟩ := hcase
    · exact Or.inl ⟨hall, rfl, rfl, fun hc => (hchain.carved hc hl).added hc hapart⟩
    · exact absurd hret hne
  · refine Or.inr ⟨hall, ?_⟩
    obtain ⟨h0, rfl, rfl⟩ | ⟨hne, rfl⟩ := hcase
    · exact ⟨iff_of_true rfl h0.symm, fun _ => rfl, hend⟩
    · exact ⟨iff_of_false nofun (Ne.symm hne), nofun, hend⟩

theorem efiAllocatePages_returns (hl : WellFormed l)
    (h : Placed startAddrSp l type memoryType pages memory) :
    ∃ res, efiAllocatePages startAddrSp l type memoryType pages memory = some res := by
  unfold efiAllocatePages
  split
  · exact ⟨_, rfl⟩
  next addr haddr =>
  by_cases hpages : pages = 0
  · have hadd : efiAddMemoryMap l addr pages memoryType true = some (l, addr) := if_pos hpages
    rw [hadd]
    exact ⟨_, if_pos rfl⟩
  · obtain ⟨hok, hsafe⟩ := h addr haddr hpages
    obtain ⟨l', ret, hrun, -⟩ := efiAddMemoryMap_spec hl true hok.aligned hok.nonempty hok.bound hsafe
    rw [hrun]
    dsimp only
    split
    · exact ⟨_, rfl⟩
    · exact ⟨_, rfl⟩

theorem efiAllocatePages_of_zero (hpages : pages = 0)
    (h : efiAllocatePages startAddrSp l type memoryType pages memory = some (r, l', memory')) :
    l' = l ∧ (r = .success ∨ ∃ e, allocAddr startAddrSp l type pages memory = .error e) := by
  rcases efiAllocatePages_cases h with ⟨-, rfl, herr⟩ | ⟨addr, ret, -, hrun, hcase⟩
  · exact ⟨rfl, Or.inr ⟨r, herr⟩⟩
  · rcases efiAddMemoryMap_cases (fun hne => absurd hpages hne) hrun with ⟨-, rfl, rfl⟩ | ⟨hne, -⟩
    · exact ⟨rfl, hcase.elim (fun hc => Or.inl hc.2.1) fun hc => absurd rfl hc.1⟩
    · exact absurd hpages hne

/-! ## The address of an allocation -/

/-- What `efi_find_free_memory` returns if it finds something. -/
def Found (len maxAddr : Nat) (l : List EfiMemDesc) (addr : Nat) : Prop :=
  ∃ d ∈ l, addr = (min maxAddr d.stop + (2 ^ 64 - len)) % 2 ^ 64 ∧ (addr + len) % 2 ^ 64 ≤ maxAddr

theorem efiFindFreeMemory_found {len maxAddr : Nat} (h : efiFindFreeMemory len maxAddr l ≠ 0) :
    Found len maxAddr l (efiFindFreeMemory len maxAddr l) := by
  induction l with
  | nil => exact absurd rfl h
  | cons desc rest ih =>
    have hrest : efiFindFreeMemory len maxAddr rest ≠ 0 →
        Found len maxAddr (desc :: rest) (efiFindFreeMemory len maxAddr rest) := fun hne => by
      obtain ⟨d, hd, hfound⟩ := ih hne
      exact ⟨d, List.mem_cons_of_mem _ hd, hfound⟩
    revert h
    rw [efiFindFreeMemory]
    split
    · exact hrest
    split
    · exact hrest
    next hmax =>
    split
    · exact hrest
    split
    · exact hrest
    · exact fun _ => ⟨desc, List.mem_cons_self .., rfl, not_lt.mp hmax⟩

theorem allocAddr_cases (h : allocAddr startAddrSp l type pages memory = .ok addr) :
    type = 0 ∧ Found (pages * 4096 % 2 ^ 64) startAddrSp l addr ∨
      type = 1 ∧ Found (pages * 4096 % 2 ^ 64) memory l addr ∨ type = 2 ∧ addr = memory := by
  have hfound : ∀ {len maxAddr}, (if efiFindFreeMemory len maxAddr l = 0 then
      (.error .notFound : Except EfiStatus Nat) else .ok (efiFindFreeMemory len maxAddr l)) = .ok addr →
      Found len maxAddr l addr := by
    intro len maxAddr hok
    split at hok
    · cases hok
    · next hne =>
      cases hok
      exact efiFindFreeMemory_found hne
  unfold allocAddr at h
  dsimp only at h
  split at h
  · next h0 => exact Or.inl ⟨h0, hfound h⟩
  split at h
  · next h1 => exact Or.inr (Or.inl ⟨h1, hfound h⟩)
  split at h
  · next h2 =>
    cases h
    exact Or.inr (Or.inr ⟨h2, rfl⟩)
  · cases h

theorem allocAddr_le (h : allocAddr startAddrSp l type pages memory = .ok addr)
    (hbound : addr + pages * 4096 < 2 ^ 64) :
    (type = 0 → addr + pages * 4096 ≤ startAddrSp) ∧ (type = 1 → addr + pages * 4096 ≤ memory) := by
  rcases allocAddr_cases h with ⟨rfl, d, -, -, hle⟩ | ⟨rfl, d, -, -, hle⟩ | ⟨rfl, -⟩
  · exact ⟨fun _ => by omega, nofun⟩
  · exact ⟨nofun, fun _ => by omega⟩
  · exact ⟨nofun, nofun⟩

theorem Found.aligned {len maxAddr : Nat} (h : Found len maxAddr l addr) (hl : WellFormed l)
    (hlen : len % 4096 = 0) (hle : len < 2 ^ 64) (hmax : maxAddr % 4096 = 0) : addr % 4096 = 0 := by
  obtain ⟨d, hd, rfl, -⟩ := h
  have := (hl.valid d hd).stop_mod
  omega

/-- From a limit or an address at a page comes an address at a page. -/
theorem allocAddr_aligned (hl : WellFormed l) (h : allocAddr startAddrSp l type pages memory = .ok addr)
    (hc : CallAligned startAddrSp (.allocatePages type memoryType pages memory)) : addr % 4096 = 0 := by
  obtain ⟨-, h0, h12⟩ := hc
  rcases allocAddr_cases h with ⟨htype, hfound⟩ | ⟨htype, hfound⟩ | ⟨htype, rfl⟩
  · exact hfound.aligned hl (by omega) (Nat.mod_lt _ (by decide)) (h0 htype)
  · exact hfound.aligned hl (by omega) (Nat.mod_lt _ (by decide)) (h12 (Or.inl htype))
  · exact h12 (Or.inr htype)

/-! ## One call -/

theorem EfiStep.wellFormed (hl : WellFormed s.list) (hc : CallAligned startAddrSp c)
    (h : EfiStep startAddrSp s c s') : WellFormed s'.list := by
  cases h with
  | addMemoryMap h => exact wellFormed_of_add hl hc h
  | @allocatePages type memoryType pages memory memory' r l' h =>
    by_cases hpages : pages = 0
    · obtain ⟨rfl, -⟩ := efiAllocatePages_of_zero hpages h
      exact hl
    rcases efiAllocatePages_cases h with ⟨-, rfl, -⟩ | ⟨addr, ret, haddr, -, -⟩
    · exact hl
    have haligned := allocAddr_aligned hl haddr hc
    rcases efiAllocatePages_outcome hl hpages hc.1 haddr h with ⟨hall, -, -, hadded⟩ | ⟨-, -, -, hend⟩
    · exact (hadded ⟨haligned, hpages, hall.bounded hl hpages⟩).1
    · exact hend.wellFormed haligned hpages hc.1 hl
  | freePages h =>
    obtain ⟨ret, hrun, -⟩ := efiFreePages_cases h
    exact wellFormed_of_add hl hc hrun

end Lists

/-! ## Allocations are exclusive -/

section Exclusive

variable {s s' : EfiState} {c : EfiCall} {startAddrSp : Nat}

/-- No address of an allocation is listed as free RAM. -/
structure Exclusive (s : EfiState) : Prop where
  wellFormed : WellFormed s.list
  apart : ∀ x attr, s.held x → ¬ Lists s.list x (efiConventionalMemory, attr)

theorem Exclusive.add {l' : List EfiMemDesc} {start pages memoryType ret : Nat} {overlapOnlyRam : Bool}
    (hs : Exclusive s) (h : pages ≠ 0 → CallOk start pages)
    (hrun : efiAddMemoryMap s.list start pages memoryType overlapOnlyRam = some (l', ret))
    {held : Nat → Prop} (hheld : ∀ x, held x → s.held x)
    (hadd : ret = start → memoryType = efiConventionalMemory → ∀ x, InBlock start pages x → ¬ held x) :
    ∀ x attr, held x → ¬ Lists l' x (efiConventionalMemory, attr) := by
  intro x attr hx hlists
  rcases efiAddMemoryMap_cases h hrun with ⟨-, rfl, -⟩ | ⟨-, hc, hadded⟩
  · exact hs.apart x attr (hheld x hx) hlists
  · rcases hadded.lists hc hs.wellFormed hlists with hold | ⟨hret, hin, hv⟩
    · exact hs.apart x attr (hheld x hx) hold
    · exact hadd hret (congrArg Prod.fst hv).symm x hin hx

/-- Blocks that were not freed are never free RAM, call after call. -/
theorem Exclusive.step (hs : Exclusive s) (hc : CallAligned startAddrSp c)
    (hrespects : Respects startAddrSp s c) (h : EfiStep startAddrSp s c s') : Exclusive s' := by
  refine ⟨h.wellFormed hs.wellFormed hc, ?_⟩
  cases h with
  | addMemoryMap h =>
    exact hs.add hc h (fun _ hx => hx) fun _ htype x hin => hrespects htype x hin
  | freePages h =>
    obtain ⟨ret, hrun, hret⟩ := efiFreePages_cases h
    exact hs.add hc hrun (fun _ hx => hx.1) fun heq _ x hin hx => hx.2 ⟨hret.mp heq, hin⟩
  | @allocatePages type memoryType pages memory memory' r l' h =>
    obtain ⟨htype, hzero⟩ := hrespects
    by_cases hpages : pages = 0
    · obtain ⟨rfl, -⟩ := efiAllocatePages_of_zero hpages h
      rintro x attr (hx | ⟨-, hin⟩)
      · exact hs.apart x attr hx
      · unfold InBlock at hin
        omega
    rcases efiAllocatePages_cases h with ⟨hr, rfl, -⟩ | ⟨addr, ret, haddr, -, -⟩
    · rintro x attr (hx | ⟨hsucc, -⟩)
      · exact hs.apart x attr hx
      · exact absurd hsucc hr
    have haligned := allocAddr_aligned hs.wellFormed haddr hc
    rcases efiAllocatePages_outcome hs.wellFormed hpages hc.1 haddr h with
      ⟨hall, -, rfl, hadded⟩ | ⟨hall, hiff, -, hend⟩
    · have hlists := (hadded ⟨haligned, hpages, hall.bounded hs.wellFormed hpages⟩).2
      intro x attr hx
      rw [hlists]
      split
      · exact fun hv => htype (congrArg Prod.fst hv).symm
      · next hout => exact hs.apart x attr (hx.resolve_right fun hin => hout hin.2)
    · obtain ⟨n, hchain⟩ := hend.chain
      rintro x attr (hx | ⟨hsucc, -⟩) hlists
      · exact hs.apart x attr hx (hchain.lists hs.wellFormed.bounded hlists)
      · -- a failure at address 0
        have h0 := hiff.mp hsucc
        have hlt := hc.1
        have hvalid : (newDesc addr pages memoryType).Valid :=
          newDesc_valid haligned hpages (by omega)
        exact hall ((freeRam_iff hvalid hs.wellFormed).mp (hzero addr haddr hpages h0))

end Exclusive

def EfiState.init : EfiState := { list := [], held := fun _ => False }

theorem wellFormed_init : WellFormed EfiState.init.list := ⟨by simp [EfiState.init], .nil⟩

/-- What an allocation that succeeds should have done. -/
structure Granted (startAddrSp : Nat) (s : EfiState) (type : Int) (memoryType pages memory : Nat)
    (l' : List EfiMemDesc) (memory' : Nat) : Prop where
  aligned : memory' % 4096 = 0
  free : ∀ x, InBlock memory' pages x → ∃ attr, Lists s.list x (efiConventionalMemory, attr)
  typed : ∀ x, InBlock memory' pages x →
    ∀ v, Lists l' x v ↔ v = (memoryType, attributeOf memoryType)
  anyPages : type = 0 → memory' + pages * 4096 ≤ startAddrSp
  maxAddress : type = 1 → memory' + pages * 4096 ≤ memory
  exclusive : ∀ x, InBlock memory' pages x → ¬ s.held x

/-- An allocation that starts inside a page does not find its block in one descriptor of free RAM. -/
def NotInside (startAddrSp : Nat) (l : List EfiMemDesc) (type : Int) (memoryType pages memory : Nat) : Prop :=
  ∀ addr, allocAddr startAddrSp l type pages memory = .ok addr → addr % 4096 ≠ 0 →
    ¬ InOne (newDesc addr pages memoryType) l

/-- After calls with aligned arguments that respect allocations, an allocation that is placed right returns. Of
any allocation that returns: if it says that it succeeded, its block is aligned, was free RAM of no other
allocation and has the new type, exactly if it is neither a failure at address 0 nor found inside a page. -/
theorem efi_allocation_is_exclusive_iff (startAddrSp : Nat) (s : EfiState) (h : Reaches (EfiStep startAddrSp)
      (fun s c => CallAligned startAddrSp c ∧ Respects startAddrSp s c) EfiState.init s)
    (type : Int) (memoryType pages memory : Nat) (hpages : pages ≠ 0) (hlt : pages < 2 ^ 52) :
    (Placed startAddrSp s.list type memoryType pages memory →
        ∃ res, efiAllocatePages startAddrSp s.list type memoryType pages memory = some res) ∧
      ∀ r l' memory', efiAllocatePages startAddrSp s.list type memoryType pages memory =
          some (r, l', memory') →
        ((r = .success → Granted startAddrSp s type memoryType pages memory l' memory') ↔
          ZeroFree startAddrSp s.list type memoryType pages memory ∧
            NotInside startAddrSp s.list type memoryType pages memory) := by
  have hs : Exclusive s := by
    refine h.invariant ⟨wellFormed_init, fun _ _ hx => hx.elim⟩ fun {s s' c} hs hok hstep => ?_
    exact hs.step hok.1 hok.2 hstep
  refine ⟨efiAllocatePages_returns hs.wellFormed, fun r l' memory' hrun => ?_⟩
  rcases efiAllocatePages_cases hrun with ⟨hr, -, herr⟩ | ⟨addr, ret, haddr, -, -⟩
  · refine iff_of_true (fun hsucc => absurd hsucc hr) ⟨fun addr haddr => ?_, fun addr haddr => ?_⟩
    · cases herr.symm.trans haddr
    · cases herr.symm.trans haddr
  have hone : ∀ {addr'}, allocAddr startAddrSp s.list type pages memory = .ok addr' → addr' = addr :=
    fun haddr' => Except.ok.inj (haddr'.symm.trans haddr)
  rcases efiAllocatePages_outcome hs.wellFormed hpages hlt haddr hrun with
    ⟨hall, rfl, rfl, hadded⟩ | ⟨hall, hzero, hmemory, hend⟩
  · by_cases haligned : memory' % 4096 = 0
    · have hbound := hall.bounded hs.wellFormed hpages
      have hc : (newDesc memory' pages memoryType).Valid := ⟨haligned, hpages, hbound⟩
      have hfree := (freeRam_iff hc hs.wellFormed).mpr hall
      obtain ⟨h0, h1⟩ := allocAddr_le haddr hbound
      refine iff_of_true (fun _ => ⟨haligned, fun x hin => hfree.1 x hin, fun x hin v => ?_, h0, h1,
        fun x hin hx => ?_⟩) ⟨fun addr' haddr' _ _ => ?_, fun addr' haddr' hne => ?_⟩
      · rw [(hadded hc).2, if_pos hin]
      · obtain ⟨attr, hlist⟩ := hfree.1 x hin
        exact hs.apart x attr hx hlist
      · rw [hone haddr']
        exact hfree
      · rw [hone haddr'] at hne
        exact absurd haligned hne
    · refine iff_of_false (fun hgranted => haligned (hgranted rfl).aligned) fun hfair => ?_
      exact hfair.2 memory' haddr haligned ((allCounted_iff_inOne hs.wellFormed haligned hpages).mp hall)
  · constructor
    · intro hgranted
      refine ⟨fun addr' haddr' _ h0 => ?_, fun addr' haddr' _ hin => ?_⟩
      · obtain rfl := hone haddr'
        have hsucc := hzero.mpr h0
        obtain rfl := hmemory hsucc
        obtain ⟨haligned, hlisted, htyped, -⟩ := hgranted hsucc
        have hc : (newDesc memory' pages memoryType).Valid := newDesc_valid haligned hpages (by omega)
        -- all of the block is free RAM, so some of it is carved out and not listed any more
        obtain ⟨x, hin, -, hgone⟩ := exists_gone hc hs.wellFormed hend fun huntouched => by
          rcases huntouched with hapart | ⟨pre, d, post, heq, -, hover, hr⟩
          · have h1 : 0 < pages := Nat.pos_of_ne_zero hpages
            obtain ⟨attr, d, hd, hx, -⟩ := hlisted memory' ⟨le_rfl, by omega⟩
            refine hapart d hd ?_
            rw [hc.overlaps_iff (hs.wellFormed.valid d hd)]
            unfold Holds at hx
            unfold newDesc EfiMemDesc.length at *
            dsimp only at *
            omega
          · exact allRam_of_listed hc hs.wellFormed hlisted d (by simp [heq]) hover hr
        exact absurd ((htyped x hin _).mpr rfl) (hgone _)
      · rw [hone haddr'] at hin
        exact hall (hin.allCounted hs.wellFormed)
    · intro hfair hsucc
      have h0 := hzero.mp hsucc
      have hc : (newDesc addr pages memoryType).Valid := newDesc_valid (by omega) hpages (by omega)
      exact absurd ((freeRam_iff hc hs.wellFormed).mp (hfair.1 addr haddr hpages h0)) hall

theorem reaches_sixteen_pages {ok : EfiState → EfiCall → Prop}
    (hok : ok EfiState.init (.addMemoryMap 0x100000 16 efiConventionalMemory false)) :
    Reaches (EfiStep 0) ok EfiState.init
      { list := [newDesc 0x100000 16 efiConventionalMemory], held := fun _ => False } :=
  .step .start hok (.addMemoryMap (efiAddMemoryMap_nil (by decide)))

/-- After an allocation of the lowest two pages, two pages below `0x108000`. -/
theorem efi_allocation_is_exclusive_two_pages :
    ∃ s, Reaches (EfiStep 0) (fun s c => CallAligned 0 c ∧ Respects 0 s c) EfiState.init s ∧
      s.held 0x101fff ∧ ∃ l', efiAllocatePages 0 s.list 1 2 2 0x108000 = some (.success, l', 0x106000) ∧
        Granted 0 s 1 2 2 0x108000 l' 0x106000 := by
  have hloop : carveLoop (newDesc 0x100000 2 2) true 3 [newDesc 0x100000 16 efiConventionalMemory] 0 =
      some ([{ newDesc 0x102000 14 efiConventionalMemory with virtualStart := 0x100000 }], some 2) := by
    decide +kernel
  have hadd : efiAddMemoryMap [newDesc 0x100000 16 efiConventionalMemory] 0x100000 2 2 true = _ :=
    efiAddMemoryMap_of_loop (by decide) hloop rfl
  rw [List.singleton_append, efiMemSort_pair (by decide)] at hadd
  have hfirst : efiAllocatePages 0 [newDesc 0x100000 16 efiConventionalMemory] 2 2 2 0x100000 =
      some (.success, [{ newDesc 0x102000 14 efiConventionalMemory with virtualStart := 0x100000 },
        newDesc 0x100000 2 2], 0x100000) := by
    unfold efiAllocatePages
    rw [show allocAddr 0 [newDesc 0x100000 16 efiConventionalMemory] 2 2 0x100000 = .ok 0x100000 from rfl]
    dsimp only
    rw [hadd]
    exact if_pos rfl
  have hpages : Reaches (EfiStep 0) (fun s c => CallAligned 0 c ∧ Respects 0 s c) EfiState.init _ :=
    reaches_sixteen_pages ⟨fun _ => ⟨by decide, by decide, by decide⟩, fun _ _ _ hx => hx⟩
  have hreach := hpages.step (⟨⟨by decide, by decide, by decide⟩, by decide,
    fun addr haddr _ h0 => by cases haddr; cases h0⟩ : CallAligned 0 (.allocatePages 2 2 2 0x100000) ∧ _)
    (.allocatePages hfirst)
  have haddr : allocAddr 0 [{ newDesc 0x102000 14 efiConventionalMemory with virtualStart := 0x100000 },
      newDesc 0x100000 2 2] 1 2 0x108000 = .ok 0x106000 := by decide +kernel
  have hrun : (efiAllocatePages 0 [{ newDesc 0x102000 14 efiConventionalMemory with virtualStart := 0x100000 },
      newDesc 0x100000 2 2] 1 2 2 0x108000).map (fun res => (res.1, res.2.2)) = some (.success, 0x106000) := by
    decide +kernel
  obtain ⟨⟨r, l', memory'⟩, hres, hmap⟩ := Option.map_eq_some_iff.mp hrun
  cases hmap
  refine ⟨_, hreach, Or.inr ⟨rfl, by decide⟩, l', hres,
    ((efi_allocation_is_exclusive_iff 0 _ hreach 1 2 2 0x108000 (by decide) (by decide)).2 _ _ _ hres).mpr
      ⟨fun addr hok _ h0 => ?_, fun addr hok hne => ?_⟩ rfl⟩
  · cases haddr.symm.trans hok
    cases h0
  · cases haddr.symm.trans hok
    exact absurd (by decide) hne

/-- Three allocations that succeed: one starts inside a page, one at address 0 is not in the list, and of two of
type `EFI_CONVENTIONAL_MEMORY` the second is where the first is. -/
theorem efi_allocation_not_exclusive :
    Reaches (EfiStep 0) (fun _ _ => True) EfiState.init
        { list := [newDesc 0x100000 16 efiConventionalMemory], held := fun _ => False } ∧
      (efiAllocatePages 0 [newDesc 0x100000 16 efiConventionalMemory] 1 2 1 0x108800).map
        (fun res => (res.1, res.2.2)) = some (.success, 0x107800) ∧
      efiAllocatePages 0 [newDesc 0x100000 16 efiConventionalMemory] 2 2 1 0 =
        some (.success, [newDesc 0x100000 16 efiConventionalMemory], 0) ∧
      ∃ l', efiAllocatePages 0 [newDesc 0x100000 16 efiConventionalMemory] 2 efiConventionalMemory
          1 0x100000 = some (.success, l', 0x100000) ∧
        (efiAllocatePages 0 l' 2 efiConventionalMemory 1 0x100000).map (fun res => (res.1, res.2.2)) =
          some (.success, 0x100000) := by
  refine ⟨reaches_sixteen_pages trivial, by decide +kernel, by decide +kernel,
    [{ newDesc 0x101000 15 efiConventionalMemory with virtualStart := 0x100000 },
      newDesc 0x100000 1 efiConventionalMemory], ?_, by decide +kernel⟩
  have hloop : carveLoop (newDesc 0x100000 1 efiConventionalMemory) true 3
      [newDesc 0x100000 16 efiConventionalMemory] 0 =
      some ([{ newDesc 0x101000 15 efiConventionalMemory with virtualStart := 0x100000 }], some 1) := by
    decide +kernel
  have hrun : efiAddMemoryMap [newDesc 0x100000 16 efiConventionalMemory] 0x100000 1
      efiConventionalMemory true = _ := efiAddMemoryMap_of_loop (by decide) hloop rfl
  rw [List.singleton_append, efiMemSort_pair (by decide)] at hrun
  have haddr : allocAddr 0 [newDesc 0x100000 16 efiConventionalMemory] 2 1 0x100000 = .ok 0x100000 := rfl
  unfold efiAllocatePages
  rw [haddr]
  dsimp only
  rw [hrun]
  exact if_pos rfl

/-- The allocation succeeds, or nothing is carved before it fails, or it wraps. -/
def NothingCarved (startAddrSp : Nat) (l : List EfiMemDesc) (type : Int) (memoryType pages memory : Nat) : Prop :=
  ∀ addr, allocAddr startAddrSp l type pages memory = .ok addr → pages = 0 ∨ addr = 0 ∨
    addr % 4096 = 0 ∧ FreeRam (newDesc addr pages memoryType) l ∨ InOne (newDesc addr pages memoryType) l ∨
    Untouched (newDesc addr pages memoryType) l ∨ addr % 4096 = 0 ∧ 2 ^ 64 ≤ addr + pages * 4096

/-- After calls with aligned arguments, an allocation that is placed right returns. Of any allocation that
returns: if it says that it failed, the list maps every address as before, exactly if nothing was carved out
before it failed. -/
theorem efi_failed_allocation_changes_nothing_iff (startAddrSp : Nat) (s : EfiState)
    (h : Reaches (EfiStep startAddrSp) (fun _ c => CallAligned startAddrSp c) EfiState.init s)
    (type : Int) (memoryType pages memory : Nat) (hlt : pages < 2 ^ 52) :
    (Placed startAddrSp s.list type memoryType pages memory →
        ∃ res, efiAllocatePages startAddrSp s.list type memoryType pages memory = some res) ∧
      ∀ r l' memory', efiAllocatePages startAddrSp s.list type memoryType pages memory =
          some (r, l', memory') →
        ((r ≠ .success → ∀ x v, Lists l' x v ↔ Lists s.list x v) ↔
          NothingCarved startAddrSp s.list type memoryType pages memory) := by
  have hl : WellFormed s.list :=
    h.invariant wellFormed_init fun {s s' c} hl hok hstep => hstep.wellFormed hl hok
  refine ⟨efiAllocatePages_returns hl, fun r l' memory' hrun => ?_⟩
  by_cases hpages : pages = 0
  · obtain ⟨rfl, -⟩ := efiAllocatePages_of_zero hpages hrun
    exact iff_of_true (fun _ _ _ => Iff.rfl) fun _ _ => Or.inl hpages
  rcases efiAllocatePages_cases hrun with ⟨-, rfl, herr⟩ | ⟨addr, ret, haddr, -, -⟩
  · refine iff_of_true (fun _ _ _ => Iff.rfl) fun addr haddr => ?_
    cases herr.symm.trans haddr
  have hone : ∀ {addr'}, allocAddr startAddrSp s.list type pages memory = .ok addr' → addr' = addr :=
    fun haddr' => Except.ok.inj (haddr'.symm.trans haddr)
  have hfree : addr % 4096 = 0 → (newDesc addr pages memoryType).Bounded →
      (FreeRam (newDesc addr pages memoryType) s.list ↔ AllCounted (newDesc addr pages memoryType) s.list) :=
    fun haligned hbound => freeRam_iff ⟨haligned, hpages, hbound⟩ hl
  rcases efiAllocatePages_outcome hl hpages hlt haddr hrun with ⟨hall, rfl, -, -⟩ | ⟨hall, hzero, -, hend⟩
  · refine iff_of_true (fun hne => absurd rfl hne) fun addr' haddr' => ?_
    rw [hone haddr']
    by_cases haligned : addr % 4096 = 0
    · exact Or.inr (Or.inr (Or.inl ⟨haligned, (hfree haligned (hall.bounded hl hpages)).mpr hall⟩))
    · exact Or.inr (Or.inr (Or.inr (Or.inl ((allCounted_iff_inOne hl haligned hpages).mp hall))))
  rw [lists_unchanged_iff hpages hlt hl hend]
  have hwrap : ¬ (newDesc addr pages memoryType).Bounded ↔ 2 ^ 64 ≤ addr + pages * 4096 := not_lt
  constructor
  · intro hsame addr' haddr'
    rw [hone haddr']
    by_cases h0 : addr = 0
    · exact Or.inr (Or.inl h0)
    · rcases hsame fun hr => h0 (hzero.mp hr) with hu | ⟨haligned, hbound⟩
      · exact Or.inr (Or.inr (Or.inr (Or.inr (Or.inl hu))))
      · exact Or.inr (Or.inr (Or.inr (Or.inr (Or.inr ⟨haligned, hwrap.mp hbound⟩))))
  · intro hn hr
    rcases hn addr haddr with hc | hc | ⟨haligned, hc⟩ | hc | hc | ⟨haligned, hc⟩
    · exact absurd hc hpages
    · exact absurd (hzero.mpr hc) hr
    · by_cases hbound : (newDesc addr pages memoryType).Bounded
      · exact absurd ((hfree haligned hbound).mp hc) hall
      · exact Or.inr ⟨haligned, hbound⟩
    · exact absurd (hc.allCounted hl) hall
    · exact Or.inl hc
    · exact Or.inr ⟨haligned, hwrap.mpr hc⟩

/-- A page that starts inside one and is not listed is asked for, and pages that wrap. -/
theorem efi_failed_allocation_changes_nothing_apart :
    (∃ l', efiAllocatePages 0 [newDesc 0x100000 16 efiConventionalMemory] 2 2 1 0x200800 =
        some (.outOfResources, l', 0x200800) ∧
      ∀ x v, Lists l' x v ↔ Lists [newDesc 0x100000 16 efiConventionalMemory] x v) ∧
    ∃ l', efiAllocatePages 0 [newDesc 0x100000 16 efiConventionalMemory] 1 2 0x200 0x110000 =
        some (.outOfResources, l', 0x110000) ∧
      ∀ x v, Lists l' x v ↔ Lists [newDesc 0x100000 16 efiConventionalMemory] x v := by
  have hreach : Reaches (EfiStep 0) (fun _ c => CallAligned 0 c) EfiState.init _ :=
    reaches_sixteen_pages fun _ => ⟨by decide, by decide, by decide⟩
  refine ⟨⟨_, by decide +kernel, ((efi_failed_allocation_changes_nothing_iff 0 _ hreach 2 2 1 0x200800
    (by decide)).2 .outOfResources [newDesc 0x100000 16 efiConventionalMemory] 0x200800
    (by decide +kernel)).mpr (fun addr haddr => ?_) nofun⟩,
    ⟨_, by decide +kernel, ((efi_failed_allocation_changes_nothing_iff 0 _ hreach 1 2 0x200 0x110000
    (by decide)).2 .outOfResources [newDesc 0x100000 16 efiConventionalMemory] 0x110000
    (by decide +kernel)).mpr (fun addr haddr => ?_) nofun⟩⟩
  · cases haddr
    refine Or.inr (Or.inr (Or.inr (Or.inr (Or.inl (Or.inl ?_)))))
    simp only [List.forall_mem_singleton]
    decide
  · have hfound : allocAddr 0 [newDesc 0x100000 16 efiConventionalMemory] 1 0x200 0x110000 =
        .ok (2 ^ 64 - 0xf0000) := by decide +kernel
    cases hfound.symm.trans haddr
    exact Or.inr (Or.inr (Or.inr (Or.inr (Or.inr ⟨by decide, by decide⟩))))

/-- Of two pages the upper one is not listed: afterwards the lower one is not listed either. -/
theorem efi_failed_allocation_loses_page :
    Reaches (EfiStep 0) (fun _ _ => True) EfiState.init
        { list := [newDesc 0x100000 16 efiConventionalMemory], held := fun _ => False } ∧
      efiAllocatePages 0 [newDesc 0x100000 16 efiConventionalMemory] 2 2 2 0x10f000 =
        some (.outOfResources, [newDesc 0x100000 15 efiConventionalMemory], 0x10f000) ∧
      Lists [newDesc 0x100000 16 efiConventionalMemory] 0x10f000 (efiConventionalMemory, 8) ∧
      ¬ Lists [newDesc 0x100000 15 efiConventionalMemory] 0x10f000 (efiConventionalMemory, 8) := by
  refine ⟨reaches_sixteen_pages trivial, by decide +kernel, ?_, ?_⟩
  · rw [lists_singleton]
    decide
  · rw [lists_singleton]
    decide

end Armada3720.Efi
