import Armada3720.Lmb.AddRegion

/-!
# Reservations as a set of addresses

Calls that are not safe: `lmb_reserve` after the last region was freed, which reads the unused slot 0;
`lmb_reserve` of an empty range that the test for overlaps objects to; `lmb_is_reserved` while the empty region
that `lmb_init` puts at address 0 is there.

`lmb_reservations_are_a_set` is for runs of other calls, each of which succeeds. What a call that fails leaves in the
table is not described.
-/

namespace Armada3720.Lmb

open Lib

inductive Call
  | reserve (base size : Nat)
  | free (base size : Nat)
  | isReserved (addr : Nat)

def Call.run (lmb : LmbState) : Call → Option (LmbState × Int)
  | .reserve base size => lmbReserve lmb base size
  | .free base size => lmbFree lmb base size
  | .isReserved addr => some (lmb, if lmbIsReserved lmb addr then 1 else 0)

/-- What a call means for the set of reserved addresses. -/
def Call.effect (reserved : Set Nat) : Call → Set Nat
  | .reserve base size => reserved ∪ {x | InRange base size x}
  | .free base size => reserved \ {x | InRange base size x}
  | .isReserved _ => reserved

def Call.Allowed (lmb : LmbState) (reserved : Set Nat) : Call → Prop
  | .reserve base size => base + size < 2 ^ 64 ∧ ∀ x ∈ reserved, ¬ InRange base size x
  | .free base size => base + size < 2 ^ 64 ∧ ∃ i < lmb.reserved.cnt,
      Inside LmbProperty.base LmbProperty.size ⟨base, size⟩ (lmb.reserved.region i)
  | .isReserved addr => addr < 2 ^ 64

/-- In an empty table slot 0 happens to come out right. -/
def StaleOk (rgn : LmbRegion) (base size : Nat) : Prop :=
  lmbRegionsAdjacent rgn 0 1 = 0 ∧
    (base < (rgn.region 0).base ∨ rgn.region 0 = ⟨base, size⟩ ∨ size = 0 ∧ (rgn.region 0).size = 0)

/-- The call does not meet one of the defects. -/
def Call.Safe (lmb : LmbState) : Call → Prop
  | .reserve base size => lmb.reserved.Free base size ∧
      (lmb.reserved.cnt = 0 → StaleOk lmb.reserved base size)
  | .free _ _ => True
  | .isReserved addr => (∀ i < lmb.reserved.cnt, lmb.reserved.region i ≠ ⟨0, 0⟩) ∨
      lmb.reserved.Covers addr

/-- The states of runs in which every call is allowed, meets the condition and succeeds. -/
inductive Run (cond : LmbState → Call → Prop) (lmb₀ : LmbState) : LmbState → Set Nat → Prop
  | init : Run cond lmb₀ (lmbInit lmb₀) ∅
  | call {lmb lmb' : LmbState} {reserved : Set Nat} {ret : Int} (c : Call) : Run cond lmb₀ lmb reserved →
      c.Allowed lmb reserved → cond lmb c → c.run lmb = some (lmb', ret) → 0 ≤ ret →
      Run cond lmb₀ lmb' (c.effect reserved)

/-! ## An empty table -/

section Empty

variable {rgn : LmbRegion} {base size : Nat}

theorem lmbAddRegion_of_cnt_zero (hcnt : rgn.cnt = 0) : lmbAddRegion rgn base size =
    if lmbRegionsAdjacent rgn 0 1 ≠ 0 then none
    else some (insertRegion rgn base size, 0) := by
  have hlast : 0 < rgn.last := by
    unfold LmbRegion.last
    omega
  have hrun : lmbCoalesceRegions rgn 0 1 = none := if_pos hcnt
  unfold lmbAddRegion joinNext
  rw [hcnt]
  simp only [zero_ne_one, false_and, ↓reduceIte, List.range_zero, List.find?_nil, hlast, true_and, zero_add]
  split
  · rw [hrun]
    rfl
  · simp [hcnt, maxLmbRegions]

theorem insertRegion_of_cnt_zero (base size : Nat) (hcnt : rgn.cnt = 0) : (insertRegion rgn base size).cnt = 1 ∧
      (insertRegion rgn base size).region 0 =
      if base < (rgn.region 0).base then ⟨base, size⟩ else rgn.region 0 := by
  unfold insertRegion
  rw [hcnt]
  refine ⟨rfl, ?_⟩
  show (if base < (rgn.region 0).base then Function.update rgn.region 0 ⟨base, size⟩
    else rgn.region) 0 = _
  by_cases hlt : base < (rgn.region 0).base
  · rw [if_pos hlt, if_pos hlt, Function.update_self]
  · rw [if_neg hlt, if_neg hlt]

theorem covers_of_cnt_one {x : Nat} (hcnt : rgn.cnt = 1) :
    rgn.Covers x ↔ InRange (rgn.region 0).base (rgn.region 0).size x := by
  constructor
  · rintro ⟨i, hi, hx⟩
    obtain rfl : i = 0 := by omega
    exact hx
  · intro hx
    exact ⟨0, by omega, hx⟩

theorem inRange_congr {p : LmbProperty} (h : ∀ x, InRange p.base p.size x ↔ InRange base size x) :
    p = ⟨base, size⟩ ∨ size = 0 ∧ p.size = 0 := by
  have h1 := h base
  have h2 := h p.base
  have h3 := h (base + size - 1)
  have h4 := h (p.base + p.size - 1)
  unfold InRange at h1 h2 h3 h4
  rcases p with ⟨b, s⟩
  simp only [LmbProperty.mk.injEq] at *
  omega

theorem lmbAddRegion_of_cnt_zero_iff (hcnt : rgn.cnt = 0) :
    (∃ rgn' ret, lmbAddRegion rgn base size = some (rgn', ret) ∧
      ∀ x, rgn'.Covers x ↔ InRange base size x) ↔ StaleOk rgn base size := by
  obtain ⟨hone, hzero⟩ := insertRegion_of_cnt_zero base size hcnt
  rw [lmbAddRegion_of_cnt_zero hcnt]
  constructor
  · rintro ⟨rgn', ret, hadd, hcov⟩
    split at hadd
    · cases hadd
    · next hadj =>
      cases hadd
      refine ⟨not_not.mp hadj, ?_⟩
      by_cases hlt : base < (rgn.region 0).base
      · exact Or.inl hlt
      · refine Or.inr (inRange_congr fun x => ?_)
        rw [← hcov, covers_of_cnt_one hone, hzero, if_neg hlt]
  · rintro ⟨hadj, hcase⟩
    rw [if_neg (not_not.mpr hadj)]
    refine ⟨_, _, rfl, fun x => ?_⟩
    rw [covers_of_cnt_one hone, hzero]
    split
    · rfl
    · next hlt =>
      rcases hcase with h | h | ⟨h1, h2⟩
      · exact absurd h hlt
      · rw [h]
      · unfold InRange
        omega

end Empty

/-! ## Freeing -/

section Free

variable {rgn rgn' : LmbRegion} {base size i x : Nat}

theorem LmbRegion.Ok.not_holds_of_coversBut (h : rgn.Ok) (hi : i < rgn.cnt)
    (hx : CoversBut LmbProperty.base LmbProperty.size rgn.cnt rgn.region i x) :
    ¬ (rgn.region i).Holds x := by
  obtain ⟨j, hj, hji, hx⟩ := hx
  simp only [Holds] at hx ⊢
  rcases Nat.lt_or_gt_of_ne hji with hlt | hgt
  · have := h.gapped j i hlt hi
    omega
  · have := h.gapped i j hgt hj
    omega

theorem LmbRegion.Ok.covers_diff (h : rgn.Ok) (hi : i < rgn.cnt)
    (hin : LmbProperty.Inside ⟨base, size⟩ (rgn.region i)) :
    rgn.Covers x ∧ ¬ InRange base size x ↔
      ((rgn.region i).Holds x ∧ ¬ InRange base size x) ∨
      CoversBut LmbProperty.base LmbProperty.size rgn.cnt rgn.region i x := by
  have hpart : InRange base size x → (rgn.region i).Holds x := by
    simp only [Inside] at hin
    simp only [InRange, Holds]
    omega
  rw [LmbRegion.Covers, covers_iff_coversBut hi, or_and_right]
  refine or_congr_right (and_iff_left_of_imp fun hx hr => ?_)
  exact h.not_holds_of_coversBut hi hx (hpart hr)

theorem LmbRegion.Ok.shrink (h : rgn.Ok) (hi : i < rgn.cnt) {e : LmbProperty}
    (he : e.Inside (rgn.region i)) : (rgn.set i e).Ok := by
  simp only [Inside] at he
  refine ⟨h.gapped.update hi (fun j hj => ?_) (fun j hij hj => ?_), fun j hj => ?_, h.count⟩
  · have := h.gapped j i hj hi
    omega
  · have := h.gapped i j hij hj
    omega
  · rcases eq_or_ne j i with rfl | hji
    · rw [LmbRegion.set_self]
      have := h.bound j hi
      omega
    · rw [LmbRegion.set_other e hji]
      exact h.bound j hj

/-- The state in which a table can be left behind: slot 0 holds 64-bit values even when it is
not in use. -/
structure LmbRegion.Inv (rgn : LmbRegion) : Prop where
  ok : rgn.Ok
  stale : rgn.cnt = 0 → (rgn.region 0).base + (rgn.region 0).size < 2 ^ 64

theorem LmbRegion.Ok.inv (h : rgn.Ok) (hpos : 0 < rgn.cnt) : rgn.Inv := ⟨h, fun h0 => by omega⟩

theorem removed_spec (h : rgn.Ok) (hi : i < rgn.cnt) : ∃ rgn', lmbRemoveRegion rgn i = some rgn' ∧
    rgn'.Inv ∧ ∀ x, rgn'.Covers x ↔
      CoversBut LmbProperty.base LmbProperty.size rgn.cnt rgn.region i x := by
  obtain ⟨rgn', hrem, hcnt, heq⟩ := lmbRemoveRegion_eq rgn hi
  obtain ⟨n, hn⟩ : ∃ n, rgn.cnt = n + 1 := ⟨rgn.cnt - 1, by omega⟩
  rw [hn, Nat.add_sub_cancel] at hcnt heq
  have hgap := h.gapped
  rw [hn] at hgap
  refine ⟨rgn', hrem, ⟨⟨?_, fun j hj => ?_, ?_⟩, fun h0 => ?_⟩, fun x => ?_⟩
  · rw [hcnt]
    exact hgap.removeAt.congr heq
  · rw [hcnt] at hj
    rw [heq j hj, removeAt]
    split
    · exact h.bound j (by omega)
    · exact h.bound (j + 1) (by omega)
  · have := h.count
    omega
  · -- the only region was removed, and its slot still holds it
    have hzero : rgn'.region 0 = rgn.region 0 := by
      unfold lmbRemoveRegion at hrem
      rw [if_neg (by omega)] at hrem
      cases hrem
      show removeLoop _ _ _ 0 = _
      rw [removeLoop_apply, if_neg (by omega)]
    rw [hzero]
    exact h.bound 0 (by omega)
  · rw [LmbRegion.Covers, hcnt, covers_congr heq, hn]
    exact covers_removeAt (by omega)

/-- Unless `lmb_free` has to split the region and finds no slot for the second half. -/
theorem freeRegion_spec (h : rgn.Ok) (hb : base + size < 2 ^ 64)
    (hin : ∃ i < rgn.cnt, LmbProperty.Inside ⟨base, size⟩ (rgn.region i)) :
    ∃ rgn' ret, freeRegion rgn base size = some (rgn', ret) ∧
      (0 ≤ ret → rgn'.Inv ∧ ∀ x, rgn'.Covers x ↔ rgn.Covers x ∧ ¬ InRange base size x) := by
  have hfind : ∀ i < rgn.cnt, ((rgn.region i).base ≤ base ∧
      addrAdd base size ≤ addrAdd (rgn.region i).base (rgn.region i).size ↔
      LmbProperty.Inside ⟨base, size⟩ (rgn.region i)) := by
    intro i hi
    rw [addrAdd_eq hb, addrAdd_eq (h.bound i hi)]
    rfl
  unfold freeRegion
  simp only
  split
  · next hnone =>
    obtain ⟨i, hi, hin⟩ := hin
    have := List.find?_range_eq_none.mp hnone i hi
    simp only [Bool.not_eq_true', decide_eq_false_iff_not] at this
    exact absurd ((hfind i hi).mpr hin) this
  next i hsome =>
  obtain ⟨hmatch, hmem, -⟩ := List.find?_range_eq_some.mp hsome
  have hi := List.mem_range.mp hmem
  have hin := (hfind i hi).mp (of_decide_eq_true hmatch)
  have hbound := h.bound i hi
  have hin' := hin
  simp only [Inside] at hin'
  rw [addrAdd_eq hb, addrAdd_eq hbound]
  -- a region `e` for region `i` with the addresses that stay
  have hset : ∀ e : LmbProperty, e.Inside (rgn.region i) →
      (∀ x, e.Holds x ↔
        (rgn.region i).Holds x ∧ ¬ InRange base size x) →
      (rgn.set i e).Inv ∧ ∀ x, (rgn.set i e).Covers x ↔ rgn.Covers x ∧ ¬ InRange base size x := by
    intro e he hstay
    refine ⟨(h.shrink hi he).inv ((Nat.zero_le i).trans_lt hi), fun x => ?_⟩
    rw [h.covers_diff hi hin, ← hstay]
    exact covers_update hi
  split
  · next hwhole =>
    obtain ⟨rgn', hrem, hinv, hcov⟩ := removed_spec h hi
    refine ⟨rgn', 0, by rw [hrem]; rfl, fun _ => ⟨hinv, fun x => ?_⟩⟩
    rw [hcov, h.covers_diff hi hin]
    refine (or_iff_right fun hx => ?_).symm
    simp only [Holds, InRange] at hx
    omega
  next hwhole =>
  split
  · next hfront =>
    rw [addrSub_eq (by omega) (by omega)]
    refine ⟨_, 0, rfl, fun _ => hset _ ?_ fun x => ?_⟩
    · simp only [Inside]
      omega
    · simp only [Holds, InRange]
      omega
  next hfront =>
  split
  · next hback =>
    rw [addrSub_eq (by omega) (by omega)]
    refine ⟨_, 0, rfl, fun _ => hset _ ?_ fun x => ?_⟩
    · simp only [Inside]
      omega
    · simp only [Holds, InRange]
      omega
  next hback =>
  -- the region is cut at the front of the hole, and what is behind the hole is added
  rw [addrSub_eq (by omega) (by omega), addrSub_eq (by omega) (by omega)]
  have hcut : LmbProperty.Inside ⟨(rgn.region i).base, base - (rgn.region i).base⟩ (rgn.region i) := by
    simp only [Inside]
    omega
  have hok := h.shrink hi hcut
  have hrest : (base + size) + ((rgn.region i).base + (rgn.region i).size - (base + size)) < 2 ^ 64 := by
    omega
  have hfree : (rgn.set i ⟨(rgn.region i).base, base - (rgn.region i).base⟩).Free (base + size)
      ((rgn.region i).base + (rgn.region i).size - (base + size)) := by
    rw [hok.free_iff hrest]
    intro j hj
    rcases eq_or_ne j i with rfl | hji
    · rw [LmbRegion.set_self]
      simp only
      omega
    · rw [LmbRegion.set_other _ hji]
      rcases Nat.lt_or_gt_of_ne hji with hlt | hgt
      · have := h.gapped j i hlt hi
        omega
      · have := h.gapped i j hgt hj
        omega
  obtain ⟨rgn', ret, hadd, hres⟩ := lmbAddRegion_spec hok ((Nat.zero_le i).trans_lt hi) hrest hfree
  refine ⟨rgn', ret, hadd, fun hret => ?_⟩
  rcases hres with ⟨hneg, -⟩ | ⟨-, hadded⟩
  · omega
  · refine ⟨hadded.ok.inv hadded.pos, fun x => ?_⟩
    rw [hadded.covers, h.covers_diff hi hin]
    have hcov : (rgn.set i ⟨(rgn.region i).base, base - (rgn.region i).base⟩).Covers x ↔ _ :=
      covers_update hi
    rw [hcov, ← or_assoc]
    refine or_congr_left ?_
    simp only [Holds, InRange]
    omega

end Free

/-! ## Runs -/

section Runs

variable {lmb₀ lmb : LmbState} {reserved : Set Nat}

theorem lmbIsReserved_iff (h : lmb.reserved.Ok) {addr : Nat} (hsafe : (Call.isReserved addr).Safe lmb) :
    lmbIsReserved lmb addr = true ↔ lmb.reserved.Covers addr := by
  have hslot : ∀ i < lmb.reserved.cnt, lmb.reserved.region i ≠ ⟨0, 0⟩ →
      ((lmb.reserved.region i).base ≤ addr ∧ addr ≤ addrSub (addrAdd (lmb.reserved.region i).base
        (lmb.reserved.region i).size) 1 ↔
        (lmb.reserved.region i).Holds addr) := by
    intro i hi hne
    have hbound := h.bound i hi
    have hpos : 0 < (lmb.reserved.region i).base + (lmb.reserved.region i).size := by
      rcases hp : lmb.reserved.region i with ⟨b, s⟩
      rw [hp] at hne
      simp only [ne_eq, LmbProperty.mk.injEq] at hne ⊢
      omega
    rw [addrAdd_eq hbound, addrSub_eq (by omega) hbound]
    simp only [Holds]
    omega
  have hany : lmbIsReserved lmb addr = true ↔ ∃ i < lmb.reserved.cnt,
      (lmb.reserved.region i).base ≤ addr ∧ addr ≤ addrSub (addrAdd (lmb.reserved.region i).base
        (lmb.reserved.region i).size) 1 := by
    unfold lmbIsReserved
    simp only [List.any_eq_true, List.mem_range, decide_eq_true_eq, ge_iff_le]
  rw [hany]
  rcases hsafe with hne | hcov
  · exact exists_congr fun i => and_congr_right fun hi => hslot i hi (hne i hi)
  · refine ⟨fun _ => hcov, fun _ => ?_⟩
    obtain ⟨i, hi, hx⟩ := hcov
    refine ⟨i, hi, (hslot i hi fun hz => ?_).mpr hx⟩
    rw [hz] at hx
    exact Nat.not_lt_zero addr hx.2

/-- What holds between two calls. -/
structure Agrees (lmb : LmbState) (reserved : Set Nat) : Prop where
  inv : lmb.reserved.Inv
  covers : ∀ x, lmb.reserved.Covers x ↔ x ∈ reserved

theorem agrees_init (lmb₀ : LmbState) : Agrees (lmbInit lmb₀) ∅ := by
  have hzero : (lmbInit lmb₀).reserved.region 0 = ⟨0, 0⟩ :=
    show (lmb₀.reserved.set 0 ⟨0, 0⟩).region 0 = _ from LmbRegion.set_self _
  have hcnt : (lmbInit lmb₀).reserved.cnt = 1 := rfl
  refine ⟨(LmbRegion.ok_of_cnt_one hcnt (by rw [hzero]; decide)).inv (by omega), fun x => ?_⟩
  rw [covers_of_cnt_one hcnt, hzero]
  simp [InRange]

theorem Agrees.reserve (h : Agrees lmb reserved) {base size : Nat}
    (hallow : (Call.reserve base size).Allowed lmb reserved)
    (hsafe : (Call.reserve base size).Safe lmb) :
    ∃ lmb' ret, lmbReserve lmb base size = some (lmb', ret) ∧
      (0 ≤ ret → Agrees lmb' ((Call.reserve base size).effect reserved)) := by
  have hunion : ∀ rgn' : LmbRegion, (∀ x, rgn'.Covers x ↔ InRange base size x ∨ lmb.reserved.Covers x) →
      ∀ x, rgn'.Covers x ↔ x ∈ (Call.reserve base size).effect reserved := by
    intro rgn' hcov x
    rw [hcov, h.covers, or_comm]
    rfl
  unfold lmbReserve
  rcases Nat.eq_zero_or_pos lmb.reserved.cnt with hcnt | hpos
  · have hstale := hsafe.2 hcnt
    obtain ⟨hone, hzero⟩ := insertRegion_of_cnt_zero base size hcnt
    obtain ⟨rgn', ret, hadd, hcov⟩ := (lmbAddRegion_of_cnt_zero_iff hcnt).mpr hstale
    have hins := hadd
    rw [lmbAddRegion_of_cnt_zero hcnt, if_neg (not_not.mpr hstale.1)] at hins
    cases hins
    have hok : (insertRegion lmb.reserved base size).Ok := by
      refine LmbRegion.ok_of_cnt_one hone ?_
      rw [hzero]
      split
      · exact hallow.1
      · exact h.inv.stale hcnt
    refine ⟨_, _, by rw [hadd]; rfl, fun _ => ⟨hok.inv (by omega), hunion _ fun x => ?_⟩⟩
    rw [hcov]
    refine (or_iff_left ?_).symm
    rintro ⟨i, hi, -⟩
    omega
  · obtain ⟨rgn', ret, hadd, hres⟩ := lmbAddRegion_spec h.inv.ok hpos hallow.1 hsafe.1
    refine ⟨_, _, by rw [hadd]; rfl, fun hret => ?_⟩
    rcases hres with ⟨hneg, -⟩ | ⟨-, hadded⟩
    · have : 0 ≤ ret := hret
      omega
    · exact ⟨hadded.ok.inv hadded.pos, hunion _ hadded.covers⟩

theorem Agrees.free (h : Agrees lmb reserved) {base size : Nat}
    (hallow : (Call.free base size).Allowed lmb reserved) :
    ∃ lmb' ret, lmbFree lmb base size = some (lmb', ret) ∧
      (0 ≤ ret → Agrees lmb' ((Call.free base size).effect reserved)) := by
  obtain ⟨rgn', ret, hfree, hres⟩ := freeRegion_spec h.inv.ok hallow.1 hallow.2
  refine ⟨_, _, by unfold lmbFree; rw [hfree]; rfl, fun hret => ?_⟩
  obtain ⟨hinv, hcov⟩ := hres hret
  refine ⟨hinv, fun x => ?_⟩
  rw [hcov, h.covers]
  rfl

/-- Every allowed and safe call returns, and one that succeeds keeps the agreement. -/
theorem Agrees.call (h : Agrees lmb reserved) (c : Call) (hallow : c.Allowed lmb reserved)
    (hsafe : c.Safe lmb) : ∃ lmb' ret, c.run lmb = some (lmb', ret) ∧
      (0 ≤ ret → Agrees lmb' (c.effect reserved)) := by
  cases c with
  | reserve base size => exact h.reserve hallow hsafe
  | free base size => exact h.free hallow
  | isReserved addr => exact ⟨_, _, rfl, fun _ => h⟩

theorem Run.agrees (h : Run Call.Safe lmb₀ lmb reserved) : Agrees lmb reserved := by
  induction h with
  | init => exact agrees_init lmb₀
  | call c _ hallow hsafe hrun hret ih =>
    obtain ⟨lmb', ret, hrun', hagrees⟩ := ih.call c hallow hsafe
    rw [hrun] at hrun'
    cases hrun'
    exact hagrees hret

/-- In every state of a run of safe calls the regions of the table cover exactly the reserved addresses, every
further call of that kind returns, and `lmb_is_reserved` tells them. -/
theorem lmb_reservations_are_a_set (lmb₀ lmb : LmbState) (reserved : Set Nat) (h : Run Call.Safe lmb₀ lmb reserved) :
    (∀ x, lmb.reserved.Covers x ↔ x ∈ reserved) ∧
      ∀ c : Call, c.Allowed lmb reserved → c.Safe lmb → ∃ lmb' ret, c.run lmb = some (lmb', ret) ∧
        ∀ addr, c = .isReserved addr → (ret = 1 ↔ addr ∈ reserved) := by
  refine ⟨h.agrees.covers, fun c hallow hsafe => ?_⟩
  obtain ⟨lmb', ret, hrun, -⟩ := h.agrees.call c hallow hsafe
  refine ⟨lmb', ret, hrun, fun addr hc => ?_⟩
  subst hc
  have hret : ret = if lmbIsReserved lmb addr then 1 else 0 := by
    cases hrun
    rfl
  rw [hret, ← h.agrees.covers, ← lmbIsReserved_iff h.agrees.inv.ok hsafe]
  split
  · next ht => simp [ht]
  · next hf => simp [hf]

def zeroLmb : LmbState := { memory := ⟨0, fun _ => ⟨0, 0⟩⟩, reserved := ⟨0, fun _ => ⟨0, 0⟩⟩ }

/-- Two pages are reserved, and the second is given back. -/
theorem lmb_reservations_are_a_set_one_page :
    ∃ lmb, Run Call.Safe zeroLmb lmb (Call.effect (Call.effect ∅ (.reserve 0x1000 0x2000)) (.free 0x2000 0x1000)) ∧
      ∃ lmb' ret, (Call.isReserved 0x1800).run lmb = some (lmb', ret) ∧ (ret = 1 ↔ 0x1800 ∈
        Call.effect (Call.effect ∅ (.reserve 0x1000 0x2000)) (.free 0x2000 0x1000)) := by
  have hsafe : (Call.reserve 0x1000 0x2000).Safe (lmbInit zeroLmb) := by
    refine ⟨fun i hi => ?_, fun h0 => by cases h0⟩
    obtain rfl : i = 0 := by
      have : i < 1 := hi
      omega
    decide
  have h1 : Run Call.Safe zeroLmb _ _ := .call (.reserve 0x1000 0x2000) .init ⟨by decide, by simp⟩
    hsafe rfl le_rfl
  have h2 : Run Call.Safe zeroLmb _ _ := .call (.free 0x2000 0x1000) h1
    ⟨by decide, 0, by decide, by decide, by decide⟩ trivial rfl le_rfl
  obtain ⟨lmb', ret, hrun, hret⟩ := (lmb_reservations_are_a_set zeroLmb _ _ h2).2 (.isReserved 0x1800)
    (show 0x1800 < 2 ^ 64 by decide) (Or.inr ⟨0, by decide, by decide, by decide⟩)
  exact ⟨_, h2, lmb', ret, hrun, hret 0x1800 rfl⟩

/-- A page is reserved and freed, and another one is reserved: the table has the first page. An empty range is
reserved inside a page, and the lower half is freed: the next reservation takes the place of the upper half.
Right after `lmb_init` every address is said to be reserved. -/
theorem reserve_after_free_is_lost :
    (∃ lmb, Run (fun _ _ => True) zeroLmb lmb (Call.effect (Call.effect (Call.effect ∅
        (.reserve 0x1000 0x1000)) (.free 0x1000 0x1000)) (.reserve 0x3000 0x1000)) ∧
      lmbIsReserved lmb 0x1000 = true ∧ lmbIsReserved lmb 0x3000 = false) ∧
    (∃ lmb, Run (fun _ _ => True) zeroLmb lmb (Call.effect (Call.effect (Call.effect (Call.effect ∅
        (.reserve 0x1000 0x1000)) (.reserve 0x1800 0)) (.free 0x1000 0x900)) (.reserve 0x1820 0x10)) ∧
      lmbIsReserved lmb 0x1900 = false) ∧
    Run (fun _ _ => True) zeroLmb (lmbInit zeroLmb) ∅ ∧
      lmbIsReserved (lmbInit zeroLmb) 0x1000 = true := by
  have h0 : Run (fun _ _ => True) zeroLmb (lmbInit zeroLmb) ∅ := .init
  have h1 : Run (fun _ _ => True) zeroLmb _ _ := .call (.reserve 0x1000 0x1000) h0
    ⟨by decide, by simp⟩ trivial rfl le_rfl
  refine ⟨?_, ?_, h0, by decide⟩
  · have h2 : Run (fun _ _ => True) zeroLmb _ _ := .call (.free 0x1000 0x1000) h1
      ⟨by decide, 0, by decide, by decide, by decide⟩ trivial rfl le_rfl
    have hempty : ∀ x ∈ Call.effect (Call.effect ∅ (.reserve 0x1000 0x1000)) (.free 0x1000 0x1000),
        ¬ InRange 0x3000 0x1000 x := by
      rintro x ⟨hx | hx, hnot⟩
      · exact absurd hx (Set.notMem_empty x)
      · exact absurd hx hnot
    have h3 : Run (fun _ _ => True) zeroLmb _ _ := .call (.reserve 0x3000 0x1000) h2
      ⟨by decide, hempty⟩ trivial rfl le_rfl
    exact ⟨_, h3, by decide, by decide⟩
  · have h2 : Run (fun _ _ => True) zeroLmb _ _ := .call (.reserve 0x1800 0) h1
      ⟨by decide, fun x _ hx => absurd (hx.1.trans_lt hx.2) (lt_irrefl _)⟩ trivial rfl le_rfl
    have h3 : Run (fun _ _ => True) zeroLmb _ _ := .call (.free 0x1000 0x900) h2
      ⟨by decide, 0, by decide, by decide, by decide⟩ trivial rfl le_rfl
    have hleft : ∀ x ∈ Call.effect (Call.effect (Call.effect ∅ (.reserve 0x1000 0x1000))
        (.reserve 0x1800 0)) (.free 0x1000 0x900), ¬ InRange 0x1820 0x10 x := by
      intro x hx hr
      refine hx.2 ⟨?_, ?_⟩
      · exact le_trans (by decide) hr.1
      · exact hr.2.trans_le (by decide)
    have h4 : Run (fun _ _ => True) zeroLmb _ _ := .call (.reserve 0x1820 0x10) h3
      ⟨by decide, hleft⟩ trivial rfl le_rfl
    exact ⟨_, h4, by decide⟩

end Runs

end Armada3720.Lmb
