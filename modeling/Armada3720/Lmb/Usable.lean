import Armada3720.Lib.Reaches
import Armada3720.Lmb.Alloc

/-!
# What an allocation returns

A caller of `lmb_alloc_base` takes the `size` bytes at the address it gets, whatever has been recorded for them.
The addresses taken so far are ghost state (`Usage`).

`lmb_allocation_is_usable` is for runs that record no range over another. A further allocation, with any size,
alignment and limit, gives usable memory if the subtraction from `max_addr` does not wrap, and never does if it
wraps.
-/

namespace Armada3720.Lmb

open Lib AllocCall

/-- The blocks, and the addresses that reservations and allocations have taken. -/
structure Usage where
  lmb : LmbState
  taken : Set Nat

/-- What a call takes: the range it reserves, or the bytes at the address it returns. -/
def AllocCall.takes (lmb : LmbState) : AllocCall → Set Nat
  | .add _ _ => ∅
  | .reserve base size =>
    {x | (∃ lmb' ret, lmbReserve lmb base size = some (lmb', ret) ∧ 0 ≤ ret) ∧ InRange base size x}
  | .allocBase size align maxAddr =>
    {x | ∃ lmb' b, lmbAllocBase lmb size align maxAddr = some (lmb', b) ∧ b ≠ 0 ∧ InRange b size x}

def Usage.Step (s : Usage) (c : AllocCall) (s' : Usage) : Prop :=
  (∃ new, c.run s.lmb = some (s'.lmb, new)) ∧ s'.taken = s.taken ∪ c.takes s.lmb

/-- What is recorded for an allocation, the size rounded up to the alignment, is free. -/
def AllocCall.RecordsFree (lmb : LmbState) : AllocCall → Prop
  | .allocBase size align maxAddr => ∀ b, Place lmb size align maxAddr b →
      b + lmbAlignUp size align < 2 ^ 64 ∧ lmb.reserved.Free b (lmbAlignUp size align)
  | _ => True

/-- The call is one that the tables can follow. -/
def Usage.Clean (s : Usage) (c : AllocCall) : Prop := c.Allowed s.lmb ∧ c.RecordsFree s.lmb

/-- Aligned memory of one region, that ends at `maxAddr` or before it if it is given, and nobody has taken. -/
structure Usable (s : Usage) (size align maxAddr b : Nat) : Prop where
  aligned : b % align = 0
  no_wrap : b + size ≤ 2 ^ 64
  in_memory : ∃ i < s.lmb.memory.cnt, Inside LmbProperty.base LmbProperty.size ⟨b, size⟩ (s.lmb.memory.region i)
  below : maxAddr ≠ 0 → b + size ≤ maxAddr
  untaken : ∀ x, InRange b size x → x ∉ s.taken

/-- The tables are in order, and the reserved regions cover what is taken. -/
structure Usage.Inv (s : Usage) : Prop where
  tables : AllocInv s.lmb []
  covered : ∀ x ∈ s.taken, s.lmb.reserved.Covers x

section Total

variable {rgn : LmbRegion}

theorem joinNext_isSome (hpos : 0 < rgn.cnt) (i c : Nat) : (joinNext rgn i c).isSome := by
  unfold joinNext lmbCoalesceRegions lmbRemoveRegion
  split
  · rw [if_neg (by exact hpos.ne')]
    rfl
  · rfl

theorem lmbAddRegion_isSome (hpos : 0 < rgn.cnt) (base size : Nat) : (lmbAddRegion rgn base size).isSome := by
  unfold lmbAddRegion
  split
  · rfl
  split
  · next i _ =>
    have hset : ∀ p, 0 < (rgn.set i p).cnt := fun _ => hpos
    simp only
    split
    · rfl
    split
    · rw [Option.isSome_map]
      exact joinNext_isSome (hset _) _ _
    · rw [Option.isSome_map]
      exact joinNext_isSome (hset _) _ _
  · rw [Option.isSome_map]
    exact joinNext_isSome hpos _ _

end Total

section Usage

variable {s s' : Usage} {base size align maxAddr k : Nat}

theorem lmbAdd_reserved {lmb lmb' : LmbState} {ret : Int} (h : lmbAdd lmb base size = some (lmb', ret)) :
    lmb'.reserved = lmb.reserved := by
  obtain ⟨q, -, hq⟩ := Option.map_eq_some_iff.mp h
  cases hq
  rfl

theorem Usage.Inv.record (h : s.Inv) (hb : base + size < 2 ^ 64) (hfree : s.lmb.reserved.Free base size) :
    ∃ rgn' ret, lmbAddRegion s.lmb.reserved base size = some (rgn', ret) ∧
      ∀ new : Set Nat, (∀ x ∈ new, 0 ≤ ret ∧ InRange base size x) →
        Usage.Inv ⟨{ s.lmb with reserved := rgn' }, s.taken ∪ new⟩ := by
  obtain ⟨rgn', ret, hadd, hres⟩ :=
    lmbAddRegion_spec h.tables.reserved h.tables.reserved_pos hb hfree
  refine ⟨rgn', ret, hadd, fun new hnew => ?_⟩
  rcases hres with ⟨hneg, rfl⟩ | ⟨-, hadded⟩
  · refine ⟨h.tables, fun x hx => ?_⟩
    rcases hx with hx | hx
    · exact h.covered x hx
    · have := (hnew x hx).1
      omega
  · refine ⟨⟨h.tables.memory, h.tables.memory_pos, hadded.ok, hadded.pos, by simp, by simp⟩,
      fun x hx => (hadded.covers x).mpr ?_⟩
    rcases hx with hx | hx
    · exact .inr (h.covered x hx)
    · exact .inl (hnew x hx).2

theorem Usage.Inv.alloc (h : s.Inv) (hclean : s.Clean (.allocBase size align maxAddr)) :
    ∃ lmb' b, lmbAllocBase s.lmb size align maxAddr = some (lmb', b) ∧
      Usage.Inv ⟨lmb', s.taken ∪ {x | b ≠ 0 ∧ InRange b size x}⟩ := by
  obtain ⟨⟨hsize, ⟨k, hk, rfl⟩, hup, hwrap⟩, hrecord⟩ := hclean
  obtain ⟨r, hr, hplace⟩ := memoryLoop_spec h.tables.reserved h.tables.memory hk hsize hwrap le_rfl
    fun j h1 h2 => by omega
  unfold lmbAllocBase
  rw [hr]
  cases r with
  | none => exact ⟨s.lmb, 0, rfl, h.tables, by simpa using h.covered⟩
  | some b =>
    obtain ⟨hb, hfree⟩ := hrecord b (hplace b rfl)
    obtain ⟨rgn', ret, hadd, hinv⟩ := h.record hb hfree
    simp only [hadd, Option.map_some]
    refine ⟨_, _, rfl, hinv _ fun x hx => ?_⟩
    -- the recorded range is the longer one
    have hle := le_lmbAlignUp hk hup
    obtain ⟨hne, h1, h2⟩ := hx
    split at hne
    · exact absurd rfl hne
    · next hret =>
      rw [if_neg hret] at h1 h2
      exact ⟨not_lt.mp hret, h1, by omega⟩

/-- Every clean call records at least what it gives away. -/
theorem Usage.Inv.step (h : s.Inv) {c : AllocCall} (hclean : s.Clean c) (hstep : s.Step c s') :
    s'.Inv := by
  obtain ⟨lmb', taken'⟩ := s'
  obtain ⟨⟨new, hrun⟩, rfl⟩ := hstep
  cases c with
  | add base size =>
    obtain ⟨lmb'', ret, hadd, hinv⟩ := h.tables.add hclean.1
    rw [run, hadd] at hrun
    cases hrun
    refine ⟨hinv, fun x hx => ?_⟩
    rw [lmbAdd_reserved hadd]
    exact h.covered x (by simpa [takes] using hx)
  | reserve base size =>
    obtain ⟨rgn', ret, hadd, hinv⟩ := h.record hclean.1.1 hclean.1.2
    have hreserve : lmbReserve s.lmb base size = some ({ s.lmb with reserved := rgn' }, ret) := by
      rw [lmbReserve, hadd]
      rfl
    rw [run, hreserve] at hrun
    cases hrun
    refine hinv _ ?_
    rintro x ⟨⟨_, _, hret, hpos⟩, hx⟩
    refine ⟨?_, hx⟩
    rw [hreserve] at hret
    cases hret
    exact hpos
  | allocBase size align maxAddr =>
    obtain ⟨lmb'', b, halloc, hinv⟩ := h.alloc hclean
    rw [run, halloc] at hrun
    cases hrun
    have htakes : (allocBase size align maxAddr).takes s.lmb = {x | b ≠ 0 ∧ InRange b size x} := by
      ext x
      simp [takes, halloc]
    rw [htakes]
    exact hinv

theorem usage_init (lmb0 : LmbState) : Usage.Inv ⟨lmbInit lmb0, ∅⟩ := by
  have hinit : AllocRun AllocCall.Safe lmb0 (lmbInit lmb0) [] := .init
  exact ⟨hinit.inv, fun _ hx => hx.elim⟩

/-- An allocation returns, and what it returns is usable. -/
theorem Usage.Inv.usable (h : s.Inv) (hsize : 0 < size) (hk : k < 64) (hwrap : NoWrap s.lmb size maxAddr) :
    ∃ lmb' b, lmbAllocBase s.lmb size (2 ^ k) maxAddr = some (lmb', b) ∧
      (b ≠ 0 → Usable s size (2 ^ k) maxAddr b) := by
  obtain ⟨r, hr, hplace⟩ := memoryLoop_spec h.tables.reserved h.tables.memory hk hsize hwrap le_rfl
    fun j h1 h2 => by omega
  unfold lmbAllocBase
  rw [hr]
  cases r with
  | none => exact ⟨s.lmb, 0, rfl, fun hne => absurd rfl hne⟩
  | some b =>
    obtain ⟨q, hadd⟩ := Option.isSome_iff_exists.mp
      (lmbAddRegion_isSome h.tables.reserved_pos b (lmbAlignUp size (2 ^ k)))
    simp only [hadd, Option.map_some]
    refine ⟨_, _, rfl, fun hne => ?_⟩
    have hb : (if q.2 < 0 then 0 else b) = b := by
      split at hne
      · exact absurd rfl hne
      · next hret => rw [if_neg hret]
    rw [hb]
    obtain ⟨i, hi, hcand, -⟩ := (hplace b rfl).found
    have hlimit : limit (s.lmb.memory.region i) maxAddr < 2 ^ 64 := limit_lt h.tables.memory hi
    have hhigh := hcand.high
    refine ⟨hcand.aligned, by omega, ⟨i, hi, hcand.low, ?_⟩, fun hmax => ?_, fun x hx htaken => ?_⟩
    · unfold limit at hhigh
      simp only
      split at hhigh <;> omega
    · rw [limit, if_neg hmax] at hhigh
      omega
    · obtain ⟨j, hj, hcov⟩ := h.covered x htaken
      have := (h.tables.reserved.free_iff (by omega)).mp hcand.free j hj
      unfold InRange at hx
      simp only [Holds] at hcov
      omega

/-- In every state that clean calls lead to, an allocation whose subtraction from `max_addr` does
not wrap returns, with nothing or with usable memory. If it wraps, no address that is returned is
usable. -/
theorem lmb_allocation_is_usable (lmb₀ : LmbState) (s : Usage)
    (hreach : Reaches Usage.Step Usage.Clean ⟨lmbInit lmb₀, ∅⟩ s) (size k maxAddr : Nat)
    (hsize : 0 < size) (hk : k < 64) :
    (NoWrap s.lmb size maxAddr →
      ∃ lmb' b, lmbAllocBase s.lmb size (2 ^ k) maxAddr = some (lmb', b) ∧
        (b ≠ 0 → Usable s size (2 ^ k) maxAddr b)) ∧
    (¬ NoWrap s.lmb size maxAddr →
      ∀ lmb' b, lmbAllocBase s.lmb size (2 ^ k) maxAddr = some (lmb', b) → b ≠ 0 →
        ¬ Usable s size (2 ^ k) maxAddr b) := by
  have hinv : s.Inv := hreach.invariant (usage_init lmb₀) fun h hclean hstep => h.step hclean hstep
  refine ⟨fun hwrap => hinv.usable hsize hk hwrap, fun hwrap lmb' b _ _ husable => hwrap ?_⟩
  intro hmax i _ _ _
  have := husable.below hmax
  omega

/-- 256 bytes below 256 reserved bytes at the end of one page of memory. -/
theorem lmb_allocation_is_usable_one_page :
    ∃ s lmb', Reaches Usage.Step Usage.Clean ⟨lmbInit zeroLmb, ∅⟩ s ∧ 0x1f00 ∈ s.taken ∧
      lmbAllocBase s.lmb 0x100 0x100 0x3000 = some (lmb', 0x1e00) ∧
      Usable s 0x100 0x100 0x3000 0x1e00 := by
  have h1 : Reaches Usage.Step Usage.Clean ⟨lmbInit zeroLmb, ∅⟩ ⟨_, _⟩ := .step .start
    ⟨show (add 0x1000 0x1000).Allowed _ from
      ⟨by decide, free_of_cnt_one rfl (by decide)⟩, trivial⟩ ⟨⟨_, rfl⟩, rfl⟩
  have h2 : Reaches Usage.Step Usage.Clean ⟨lmbInit zeroLmb, ∅⟩ ⟨_, _⟩ := .step h1
    ⟨show (reserve 0x1f00 0x100).Allowed _ from
      ⟨by decide, free_of_cnt_one rfl (by decide)⟩, trivial⟩ ⟨⟨_, rfl⟩, rfl⟩
  obtain ⟨lmb', b, halloc, husable⟩ := (lmb_allocation_is_usable zeroLmb _ h2 0x100 8 0x3000
    (by decide) (by decide)).1 fun _ _ _ _ _ => by decide
  obtain rfl : 0x1e00 = b := congrArg (fun r => (r.map Prod.snd).getD 0) halloc
  exact ⟨_, lmb', h2, .inr ⟨⟨_, _, rfl, by decide⟩, by decide, by decide⟩, halloc, husable (by decide)⟩

/-- A request for 32 KiB below `0x2000` returns an address near the top of the address space. And a range
reserved across two others makes the table forget the first, whose end an allocation then returns. -/
theorem lmb_allocation_not_usable : (∃ s lmb', Reaches Usage.Step Usage.Clean ⟨lmbInit zeroLmb, ∅⟩ s ∧
      lmbAllocBase s.lmb 0x8000 0x1000 0x2000 = some (lmb', 0xffffffffffffa000) ∧
      ¬ Usable s 0x8000 0x1000 0x2000 0xffffffffffffa000) ∧
    ∃ s lmb', Reaches Usage.Step (fun _ _ => True) ⟨lmbInit zeroLmb, ∅⟩ s ∧
      lmbAllocBase s.lmb 0x800 0x800 0 = some (lmb', 0x3800) ∧ 0x3800 ∈ s.taken := by
  constructor
  · have h1 : Reaches Usage.Step Usage.Clean ⟨lmbInit zeroLmb, ∅⟩ ⟨_, _⟩ := .step .start
      ⟨show (add 0x1000 0xf000).Allowed _ from
        ⟨by decide, free_of_cnt_one rfl (by decide)⟩, trivial⟩ ⟨⟨_, rfl⟩, rfl⟩
    refine ⟨_, _, h1, rfl, fun husable => ?_⟩
    have := husable.below (by decide)
    omega
  · have h1 : Reaches Usage.Step (fun _ _ => True) ⟨lmbInit zeroLmb, ∅⟩ ⟨_, _⟩ :=
      .step .start (a := .add 0x1000 0xf000) trivial ⟨⟨_, rfl⟩, rfl⟩
    have h2 : Reaches Usage.Step (fun _ _ => True) ⟨lmbInit zeroLmb, ∅⟩ ⟨_, _⟩ :=
      .step h1 (a := .reserve 0x2000 0x2000) trivial ⟨⟨_, rfl⟩, rfl⟩
    have h3 : Reaches Usage.Step (fun _ _ => True) ⟨lmbInit zeroLmb, ∅⟩ ⟨_, _⟩ :=
      .step h2 (a := .reserve 0x3000 0x800) trivial ⟨⟨_, rfl⟩, rfl⟩
    have h4 : Reaches Usage.Step (fun _ _ => True) ⟨lmbInit zeroLmb, ∅⟩ ⟨_, _⟩ :=
      .step h3 (a := .reserve 0x1000 0x2000) trivial ⟨⟨_, rfl⟩, rfl⟩
    have h5 : Reaches Usage.Step (fun _ _ => True) ⟨lmbInit zeroLmb, ∅⟩ ⟨_, _⟩ :=
      .step h4 (a := .reserve 0x1800 0x10) trivial ⟨⟨_, rfl⟩, rfl⟩
    have h6 : Reaches Usage.Step (fun _ _ => True) ⟨lmbInit zeroLmb, ∅⟩ ⟨_, _⟩ :=
      .step h5 (a := .allocBase 0xc000 0x1000 0) trivial ⟨⟨_, rfl⟩, rfl⟩
    refine ⟨_, _, h6, rfl, ?_⟩
    exact .inl (.inl (.inl (.inl (.inr ⟨⟨_, _, rfl, by decide⟩, by decide, by decide⟩))))

end Usage

end Armada3720.Lmb
