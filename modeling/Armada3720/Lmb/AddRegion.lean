import Armada3720.Lmb.Model

/-!
# Adding a region

A table is `Ok` when its regions stand in order with gaps between them and none reaches the end of the address
space. `lmb_add_region` keeps such a table: a region that the new range touches grows over it, a second one is
joined, and otherwise there is a place for it between two regions.
-/

namespace Armada3720.Lmb

open Lib Function

/-- The table is sorted, with gaps, and nothing wraps. -/
structure LmbRegion.Ok (rgn : LmbRegion) : Prop where
  gapped : Gapped LmbProperty.base LmbProperty.size rgn.cnt rgn.region
  bound : ∀ i < rgn.cnt, (rgn.region i).base + (rgn.region i).size < 2 ^ 64
  count : rgn.cnt ≤ maxLmbRegions

abbrev LmbRegion.Covers (rgn : LmbRegion) (x : Nat) : Prop :=
  Lib.Covers LmbProperty.base LmbProperty.size rgn.cnt rgn.region x

abbrev LmbProperty.Inside (p q : LmbProperty) : Prop :=
  Lib.Inside LmbProperty.base LmbProperty.size p q

abbrev LmbProperty.Holds (p : LmbProperty) (x : Nat) : Prop :=
  Lib.Holds LmbProperty.base LmbProperty.size p x

def InRange (base size x : Nat) : Prop := base ≤ x ∧ x < base + size

/-- No region of the table overlaps the range, in the sense of `lmb_addrs_overlap`. -/
def LmbRegion.Free (rgn : LmbRegion) (base size : Nat) : Prop :=
  ∀ i < rgn.cnt, lmbAddrsOverlap base size (rgn.region i).base (rgn.region i).size = false

/-- What `rgn'` is after the range was added to `rgn`. -/
structure Added (rgn : LmbRegion) (base size : Nat) (rgn' : LmbRegion) : Prop where
  ok : rgn'.Ok
  pos : 0 < rgn'.cnt
  covers : ∀ x, rgn'.Covers x ↔ InRange base size x ∨ rgn.Covers x
  /-- The regions only grow. -/
  grows : ∀ i < rgn.cnt, (rgn.region i).size ≠ 0 →
    ∃ j < rgn'.cnt, Inside LmbProperty.base LmbProperty.size (rgn.region i) (rgn'.region j)
  /-- The range lies in one region. -/
  inside : ∃ j < rgn'.cnt, Inside LmbProperty.base LmbProperty.size ⟨base, size⟩ (rgn'.region j)

section Arith

variable {a b : Nat}

theorem addrAdd_eq (h : a + b < 2 ^ 64) : addrAdd a b = a + b := Nat.mod_eq_of_lt h

theorem addrSub_eq (hb : b ≤ a) (ha : a < 2 ^ 64) : addrSub a b = a - b := by
  unfold addrSub
  omega

variable {base1 size1 base2 size2 : Nat}

theorem lmbAddrsOverlap_eq_false (h1 : base1 + size1 < 2 ^ 64) (h2 : base2 + size2 < 2 ^ 64) :
    lmbAddrsOverlap base1 size1 base2 size2 = false ↔
      base2 + size2 ≤ base1 ∨ base1 + size1 ≤ base2 := by
  unfold lmbAddrsOverlap
  rw [addrAdd_eq h1, addrAdd_eq h2, decide_eq_false_iff_not]
  omega

theorem lmbAddrsAdjacent_eq_zero (h1 : base1 + size1 < 2 ^ 64) (h2 : base2 + size2 < 2 ^ 64) :
    lmbAddrsAdjacent base1 size1 base2 size2 = 0 ↔
      base2 ≠ base1 + size1 ∧ base1 ≠ base2 + size2 := by
  unfold lmbAddrsAdjacent
  rw [addrAdd_eq h1, addrAdd_eq h2]
  split <;> [skip; split] <;> simp [*]

theorem lmbAddrsAdjacent_pos (h1 : base1 + size1 < 2 ^ 64) :
    lmbAddrsAdjacent base1 size1 base2 size2 > 0 ↔ base2 = base1 + size1 := by
  unfold lmbAddrsAdjacent
  rw [addrAdd_eq h1]
  split
  · next heq => simp [heq]
  · next hne =>
    split <;> simp [hne]

end Arith

section Tables

variable {rgn rgn' : LmbRegion} {base size i : Nat}

theorem LmbRegion.Ok.last_eq (h : rgn.Ok) (hpos : 0 < rgn.cnt) : rgn.last = rgn.cnt - 1 := by
  have := h.count
  unfold maxLmbRegions at this
  unfold LmbRegion.last
  omega

theorem LmbRegion.ok_of_cnt_one (hcnt : rgn.cnt = 1)
    (hb : (rgn.region 0).base + (rgn.region 0).size < 2 ^ 64) : rgn.Ok := by
  refine ⟨fun i j hij hj => by omega, fun i hi => ?_, by rw [hcnt]; decide⟩
  obtain rfl : i = 0 := by omega
  exact hb

theorem LmbRegion.Ok.free_iff (h : rgn.Ok) (hb : base + size < 2 ^ 64) :
    rgn.Free base size ↔ ∀ i < rgn.cnt, (rgn.region i).base + (rgn.region i).size ≤ base ∨
      base + size ≤ (rgn.region i).base :=
  forall₂_congr fun i hi => lmbAddrsOverlap_eq_false hb (h.bound i hi)

theorem LmbRegion.Ok.not_meets (h : rgn.Ok) (hb : base + size < 2 ^ 64) (hi : i < rgn.cnt)
    (hm : meets base size (rgn.region i) = false) :
    (rgn.region i).base ≠ base + size ∧ base ≠ (rgn.region i).base + (rgn.region i).size := by
  unfold meets at hm
  rw [decide_eq_false_iff_not, not_or, not_not] at hm
  exact (lmbAddrsAdjacent_eq_zero hb (h.bound i hi)).mp hm.2

theorem LmbRegion.set_self (p : LmbProperty) : (rgn.set i p).region i = p := update_self ..

theorem LmbRegion.set_other {j : Nat} (p : LmbProperty) (hj : j ≠ i) :
    (rgn.set i p).region j = rgn.region j := update_of_ne hj ..

theorem removeLoop_apply (n i : Nat) (region : Nat → LmbProperty) (j : Nat) :
    removeLoop n i region j = if i ≤ j ∧ j < i + n then region (j + 1) else region j := by
  induction n generalizing i region with
  | zero => rw [removeLoop, if_neg (by omega)]
  | succ n ih =>
    rw [removeLoop, ih]
    rcases Nat.lt_trichotomy j i with hlt | rfl | hgt
    · rw [if_neg (by omega), if_neg (by omega), update_of_ne hlt.ne]
    · rw [if_neg (by omega), if_pos (by omega), update_self]
    · rw [update_of_ne (by omega), update_of_ne hgt.ne']
      by_cases hin : j < i + (n + 1)
      · rw [if_pos (by omega), if_pos (by omega)]
      · rw [if_neg (by omega), if_neg (by omega)]

theorem lmbRemoveRegion_eq (rgn : LmbRegion) {r : Nat} (hr : r < rgn.cnt) :
    ∃ rgn', lmbRemoveRegion rgn r = some rgn' ∧ rgn'.cnt = rgn.cnt - 1 ∧
      ∀ j < rgn.cnt - 1, rgn'.region j = removeAt rgn.region r j := by
  refine ⟨_, if_neg (by omega), rfl, fun j hj => ?_⟩
  show removeLoop _ _ _ j = _
  rw [removeLoop_apply, removeAt]
  by_cases hjr : j < r
  · rw [if_neg (by omega), if_pos hjr]
  · rw [if_pos (by omega), if_neg hjr]

/-! ## Coalescing -/

theorem joinNext_of_ok (h : rgn.Ok) (hpos : 0 < rgn.cnt) (i c : Nat) :
    joinNext rgn i c = some (rgn, c) := by
  refine if_neg fun hjoin => ?_
  rw [h.last_eq hpos] at hjoin
  have hnext : i + 1 < rgn.cnt := by omega
  have hgap := h.gapped i (i + 1) (Nat.lt_succ_self i) hnext
  refine hjoin.2 ((lmbAddrsAdjacent_eq_zero (h.bound i (by omega)) (h.bound (i + 1) hnext)).mpr ?_)
  omega

/-- Slot `k` of the new table has the range in it, and the other slots have old regions. -/
theorem Added.of_slots {k : Nat} (h : rgn.Ok) (hk : k < rgn'.cnt) (hcount : rgn'.cnt ≤ maxLmbRegions)
    (hgap : Gapped LmbProperty.base LmbProperty.size rgn'.cnt rgn'.region)
    (hbound : (rgn'.region k).base + (rgn'.region k).size < 2 ^ 64)
    (hother : ∀ j < rgn'.cnt, j ≠ k → ∃ i < rgn.cnt, rgn'.region j = rgn.region i)
    (hold : ∀ i < rgn.cnt, (rgn.region i).size ≠ 0 →
      ∃ j < rgn'.cnt, (rgn.region i).Inside (rgn'.region j))
    (hnew : LmbProperty.Inside ⟨base, size⟩ (rgn'.region k))
    (hcov : ∀ x, (rgn'.region k).Holds x → InRange base size x ∨ rgn.Covers x) :
    Added rgn base size rgn' := by
  refine ⟨⟨hgap, fun j hj => ?_, hcount⟩, (Nat.zero_le k).trans_lt hk, fun x => ⟨?_, ?_⟩, hold, k, hk, hnew⟩
  · rcases eq_or_ne j k with rfl | hjk
    · exact hbound
    · obtain ⟨i, hi, heq⟩ := hother j hj hjk
      rw [heq]
      exact h.bound i hi
  · rintro ⟨j, hj, hx⟩
    rcases eq_or_ne j k with rfl | hjk
    · exact hcov x hx
    · obtain ⟨i, hi, heq⟩ := hother j hj hjk
      exact Or.inr ⟨i, hi, heq ▸ hx⟩
  · rintro (hx | ⟨i, hi, hx⟩)
    · exact ⟨k, hk, hnew.1.trans hx.1, hx.2.trans_le hnew.2⟩
    · obtain ⟨j, hj, hin⟩ := hold i hi fun h0 => by
        have := hx.1.trans_lt hx.2
        omega
      exact ⟨j, hj, hin.1.trans hx.1, hx.2.trans_le hin.2⟩

/-- Region `i` makes room for the range next to it. -/
theorem Added.of_grown (h : rgn.Ok) (hi : i < rgn.cnt) {e : LmbProperty} (hbound : e.base + e.size < 2 ^ 64)
    (hbefore : ∀ j < i, (rgn.region j).base + (rgn.region j).size < e.base)
    (hafter : ∀ j, i < j → j < rgn.cnt → e.base + e.size < (rgn.region j).base)
    (hcov : ∀ x, e.Holds x → InRange base size x ∨ (rgn.region i).Holds x)
    (hold : (rgn.region i).Inside e) (hnew : LmbProperty.Inside ⟨base, size⟩ e) :
    Added rgn base size (rgn.set i e) := by
  have hself : (rgn.set i e).region i = e := LmbRegion.set_self e
  refine Added.of_slots h hi h.count (h.gapped.update hi hbefore hafter) (by rwa [hself])
    (fun j hj hji => ⟨j, hj, LmbRegion.set_other e hji⟩) (fun j hj _ => ⟨j, hj, ?_⟩)
    (by rwa [hself]) fun x hx => ?_
  · rcases eq_or_ne j i with rfl | hji
    · rwa [hself]
    · rw [LmbRegion.set_other e hji]
      exact ⟨le_rfl, le_rfl⟩
  · rw [hself] at hx
    exact (hcov x hx).imp_right fun hx => ⟨i, hi, hx⟩

theorem added_before (h : rgn.Ok) (hb : base + size < 2 ^ 64) (hfree : rgn.Free base size)
    (hi : i < rgn.cnt) (htouch : (rgn.region i).base = base + size)
    (hfirst : ∀ j < i, meets base size (rgn.region j) = false) :
    Added rgn base size (rgn.set i ⟨base, (rgn.region i).size + size⟩) := by
  rw [h.free_iff hb] at hfree
  have hbound := h.bound i hi
  refine Added.of_grown h hi (by simp only; omega) (fun j hj => ?_) (fun j hij hj => ?_) (fun x => ?_) ?_ ?_
  · have h1 := h.gapped j i hj hi
    have h2 := hfree j (hj.trans hi)
    have h3 := h.not_meets hb (hj.trans hi) (hfirst j hj)
    simp only
    omega
  · have := h.gapped i j hij hj
    simp only
    omega
  · simp only [Holds, InRange]
    omega
  · simp only [Inside]
    omega
  · simp only [Inside]
    omega

theorem added_after (h : rgn.Ok) (hb : base + size < 2 ^ 64) (hfree : rgn.Free base size)
    (hi : i < rgn.cnt) (htouch : base = (rgn.region i).base + (rgn.region i).size)
    (hnext : i + 1 < rgn.cnt → (rgn.region (i + 1)).base ≠ base + size) :
    Added rgn base size (rgn.set i ⟨(rgn.region i).base, (rgn.region i).size + size⟩) := by
  rw [h.free_iff hb] at hfree
  refine Added.of_grown h hi (by simp only; omega) (fun j hj => ?_) (fun j hij hj => ?_) (fun x => ?_) ?_ ?_
  · exact h.gapped j i hj hi
  · have h1 := h.gapped i j hij hj
    have h2 := hfree j hj
    simp only
    rcases eq_or_ne j (i + 1) with rfl | hne
    · omega
    · have h4 := h.gapped (i + 1) j (by omega) hj
      have h5 := h.gapped i (i + 1) (by omega) (by omega)
      have h6 := hfree (i + 1) (by omega)
      omega
  · simp only [Holds, InRange]
    omega
  · simp only [Inside]
    omega
  · simp only [Inside]
    omega

theorem added_between (h : rgn.Ok) (hi : i + 1 < rgn.cnt) (htouch : base = (rgn.region i).base + (rgn.region i).size)
    (hnext : (rgn.region (i + 1)).base = base + size) (hcnt : rgn'.cnt = rgn.cnt - 1)
    (heq : ∀ j < rgn.cnt - 1, rgn'.region j = removeAt (update rgn.region i
      ⟨(rgn.region i).base, (rgn.region i).size + size + (rgn.region (i + 1)).size⟩) (i + 1) j) :
    Added rgn base size rgn' := by
  have hbound := h.bound (i + 1) hi
  have hself : rgn'.region i = ⟨(rgn.region i).base, (rgn.region i).size + size + (rgn.region (i + 1)).size⟩ := by
    rw [heq i (by omega), removeAt, if_pos (by omega), update_self]
  have hlow : ∀ j < i, rgn'.region j = rgn.region j := by
    intro j hj
    rw [heq j (by omega), removeAt, if_pos (by omega), update_of_ne (by omega)]
  have hhigh : ∀ j, i < j → j < rgn'.cnt → rgn'.region j = rgn.region (j + 1) := by
    intro j hij hj
    rw [heq j (by omega), removeAt, if_neg (by omega), update_of_ne (by omega)]
  refine Added.of_slots h (k := i) (by omega) ?_ (fun a b hab hbn => ?_) ?_ (fun j hj hji => ?_)
    (fun j hj _ => ?_) ?_ fun x hx => ?_
  · have := h.count
    omega
  · rcases Nat.lt_trichotomy b i with hbi | rfl | hbi
    · rw [hlow a (by omega), hlow b hbi]
      exact h.gapped a b hab (by omega)
    · rw [hlow a hab, hself]
      exact h.gapped a b hab (by omega)
    · rw [hhigh b hbi hbn]
      rcases Nat.lt_trichotomy a i with hai | rfl | hai
      · rw [hlow a hai]
        exact h.gapped a (b + 1) (by omega) (by omega)
      · rw [hself]
        have := h.gapped (a + 1) (b + 1) (by omega) (by omega)
        simp only
        omega
      · rw [hhigh a hai (by omega)]
        exact h.gapped (a + 1) (b + 1) (by omega) (by omega)
  · rw [hself]
    simp only
    omega
  · rcases Nat.lt_or_gt_of_ne hji with hlt | hgt
    · exact ⟨j, by omega, hlow j hlt⟩
    · exact ⟨j + 1, by omega, hhigh j hgt hj⟩
  · rcases Nat.lt_or_ge j i with hji | hji
    · exact ⟨j, by omega, by rw [hlow j hji]; exact ⟨le_rfl, le_rfl⟩⟩
    · rcases Nat.lt_or_ge (i + 1) j with hij | hij
      · refine ⟨j - 1, by omega, ?_⟩
        rw [hhigh (j - 1) (by omega) (by omega), Nat.sub_add_cancel (by omega)]
        exact ⟨le_rfl, le_rfl⟩
      · refine ⟨i, by omega, ?_⟩
        rw [hself]
        simp only [Inside]
        obtain rfl | rfl : j = i ∨ j = i + 1 := by omega
        · omega
        · omega
  · rw [hself]
    simp only [Inside]
    omega
  · have hcase : InRange base size x ∨ (rgn.region i).Holds x ∨ (rgn.region (i + 1)).Holds x := by
      rw [hself] at hx
      simp only [Holds, InRange] at hx ⊢
      omega
    rcases hcase with hx | hx | hx
    · exact Or.inl hx
    · exact Or.inr ⟨i, by omega, hx⟩
    · exact Or.inr ⟨i + 1, hi, hx⟩

/-! ## Insertion -/

/-- Where the loop puts the new region: behind slot `k - 1`, or nowhere if `k` is 0. -/
theorem insertLoop_apply (base size n : Nat) (region : Nat → LmbProperty) :
    ∃ k ≤ n, (k ≠ 0 → (region (k - 1)).base ≤ base) ∧ (∀ j, k ≤ j → j < n → base < (region j).base) ∧
      ∀ j, insertLoop base size n region j =
        if j = k ∧ k ≠ 0 then ⟨base, size⟩ else if k < j ∧ j ≤ n then region (j - 1) else region j := by
  induction n generalizing region with
  | zero =>
    refine ⟨0, le_rfl, fun h0 => absurd rfl h0, fun j _ hj => absurd hj (Nat.not_lt_zero j), fun j => ?_⟩
    rw [insertLoop, if_neg (by omega), if_neg (by omega)]
  | succ n ih =>
    rw [insertLoop]
    split
    · next hlt =>
      obtain ⟨k, hk, hprev, hnext, happly⟩ := ih (update region (n + 1) (region n))
      have hold : ∀ j, j ≤ n → update region (n + 1) (region n) j = region j := fun j hj =>
        update_of_ne (by omega) ..
      refine ⟨k, hk.trans (Nat.le_succ n), fun h0 => ?_, fun j hkj hj => ?_, fun j => ?_⟩
      · have := hprev h0
        rwa [hold (k - 1) (by omega)] at this
      · rcases eq_or_ne j n with rfl | hne
        · exact hlt
        · have := hnext j hkj (by omega)
          rwa [hold j (by omega)] at this
      · rw [happly]
        split
        · rfl
        · next hself =>
          by_cases hin : k < j ∧ j ≤ n
          · rw [if_pos hin, if_pos (by omega), hold (j - 1) (by omega)]
          · rw [if_neg hin]
            rcases eq_or_ne j (n + 1) with rfl | hne
            · rw [if_pos (by omega), update_self]
              rfl
            · rw [if_neg (by omega), update_of_ne hne]
    · next hge =>
      refine ⟨n + 1, le_rfl, fun _ => not_lt.mp hge, fun j h1 h2 => by omega, fun j => ?_⟩
      rcases eq_or_ne j (n + 1) with rfl | hne
      · rw [update_self, if_pos ⟨rfl, by omega⟩]
      · rw [update_of_ne hne, if_neg (by omega), if_neg (by omega)]

theorem insertRegion_apply (base size : Nat) (h : rgn.Ok) (hpos : 0 < rgn.cnt) :
    ∃ k ≤ rgn.cnt, (∀ j < k, (rgn.region j).base ≤ base) ∧
      (∀ j, k ≤ j → j < rgn.cnt → base < (rgn.region j).base) ∧
      ∀ j < rgn.cnt + 1, (insertRegion rgn base size).region j = insertAt rgn.region k ⟨base, size⟩ j := by
  obtain ⟨k, hk, hprev, hnext, happly⟩ := insertLoop_apply base size rgn.cnt rgn.region
  have hlower : ∀ j < k, (rgn.region j).base ≤ base := by
    intro j hj
    have h1 := hprev (by omega)
    rcases eq_or_ne j (k - 1) with rfl | hne
    · exact h1
    · have := h.gapped j (k - 1) (by omega) (by omega)
      omega
  refine ⟨k, hk, hlower, hnext, fun j hj => ?_⟩
  unfold insertRegion
  simp only
  have hzero := happly 0
  rw [if_neg (by omega), if_neg (by omega)] at hzero
  rw [hzero]
  rcases Nat.eq_zero_or_pos k with rfl | hkpos
  · -- every region has moved, and slot 0 is free
    rw [if_pos (hnext 0 le_rfl hpos), insertAt, if_neg (Nat.not_lt_zero j)]
    rcases eq_or_ne j 0 with rfl | hj0
    · rw [update_self, if_pos rfl]
    · rw [update_of_ne hj0, if_neg hj0, happly, if_neg (by omega), if_pos (by omega)]
  · rw [if_neg (not_lt.mpr (hlower 0 hkpos)), happly, insertAt]
    rcases Nat.lt_trichotomy j k with hjk | rfl | hjk
    · rw [if_neg (by omega), if_neg (by omega), if_pos hjk]
    · rw [if_pos (by omega), if_neg (lt_irrefl j), if_pos rfl]
    · rw [if_neg (by omega), if_pos (by omega), if_neg (by omega), if_neg (by omega)]

theorem added_insert (h : rgn.Ok) (hb : base + size < 2 ^ 64) (hfree : rgn.Free base size)
    (hpos : 0 < rgn.cnt) (hroom : rgn.cnt < maxLmbRegions)
    (hnone : ∀ j < rgn.cnt, meets base size (rgn.region j) = false) :
    Added rgn base size (insertRegion rgn base size) := by
  rw [h.free_iff hb] at hfree
  obtain ⟨k, hk, hlower, hupper, happly⟩ := insertRegion_apply base size h hpos
  have hcnt : (insertRegion rgn base size).cnt = rgn.cnt + 1 := rfl
  have hbefore : ∀ j < k, (rgn.region j).base + (rgn.region j).size < base := by
    intro j hj
    have h1 := hlower j hj
    have h2 := hfree j (by omega)
    have h3 := h.not_meets hb (by omega : j < rgn.cnt) (hnone j (by omega))
    omega
  have hafter : ∀ j, k ≤ j → j < rgn.cnt → base + size < (rgn.region j).base := by
    intro j hkj hj
    have h1 := hupper j hkj hj
    have h2 := hfree j hj
    have h3 := h.not_meets hb hj (hnone j hj)
    omega
  have hself : (insertRegion rgn base size).region k = ⟨base, size⟩ := by
    rw [happly k (by omega), insertAt, if_neg (lt_irrefl k), if_pos rfl]
  have hlow : ∀ j < k, (insertRegion rgn base size).region j = rgn.region j := by
    intro j hj
    rw [happly j (by omega), insertAt, if_pos hj]
  have hhigh : ∀ j, k ≤ j → j < rgn.cnt → (insertRegion rgn base size).region (j + 1) = rgn.region j := by
    intro j hkj hj
    rw [happly (j + 1) (by omega), insertAt, if_neg (by omega), if_neg (by omega), Nat.add_sub_cancel]
  refine Added.of_slots h (k := k) (by omega) (by rw [hcnt]; exact hroom)
    ((h.gapped.insertAt hk hbefore hafter).congr happly) (by rwa [hself]) (fun j hj hjk => ?_)
    (fun j hj _ => ?_) (by rw [hself]; exact ⟨le_rfl, le_rfl⟩) fun x hx => Or.inl (by rwa [hself] at hx)
  · rcases Nat.lt_or_gt_of_ne hjk with hlt | hgt
    · exact ⟨j, by omega, hlow j hlt⟩
    · refine ⟨j - 1, by omega, ?_⟩
      rw [← hhigh (j - 1) (by omega) (by omega), Nat.sub_add_cancel (by omega)]
  · rcases Nat.lt_or_ge j k with hjk | hjk
    · exact ⟨j, by omega, by rw [hlow j hjk]; exact ⟨le_rfl, le_rfl⟩⟩
    · exact ⟨j + 1, by omega, by rw [hhigh j hjk hj]; exact ⟨le_rfl, le_rfl⟩⟩

/-! ## The whole function -/

theorem added_first (h : rgn.Ok) (hb : base + size < 2 ^ 64) (hcnt : rgn.cnt = 1)
    (hempty : (rgn.region 0).size = 0) : Added rgn base size (rgn.set 0 ⟨base, size⟩) := by
  have hself : (rgn.set 0 ⟨base, size⟩).region 0 = ⟨base, size⟩ := LmbRegion.set_self _
  have hone : (rgn.set 0 ⟨base, size⟩).cnt = 1 := hcnt
  refine Added.of_slots h (k := 0) (by omega) h.count (fun i j hij hj => by omega) (by rwa [hself])
    (fun j hj hj0 => absurd hj0 (by omega)) (fun j hj hne => ?_)
    (by rw [hself]; exact ⟨le_rfl, le_rfl⟩) fun x hx => Or.inl (by rwa [hself] at hx)
  obtain rfl : j = 0 := by omega
  exact absurd hempty hne

theorem added_same (h : rgn.Ok) (hb : base + size < 2 ^ 64) (hfree : rgn.Free base size)
    (hi : i < rgn.cnt) (hsame : rgn.region i = ⟨base, size⟩) : Added rgn base size rgn := by
  have hempty := (h.free_iff hb).mp hfree i hi
  rw [hsame] at hempty
  simp only at hempty
  refine ⟨h, by omega, fun x => ?_, fun j hj _ => ⟨j, hj, le_rfl, le_rfl⟩, i, hi, ?_⟩
  · refine (or_iff_right fun hx => ?_).symm
    unfold InRange at hx
    omega
  · rw [hsame]
    exact ⟨le_rfl, le_rfl⟩

theorem joinNext_between (h : rgn.Ok) (hi : i + 1 < rgn.cnt)
    (htouch : base = (rgn.region i).base + (rgn.region i).size)
    (hnext : (rgn.region (i + 1)).base = base + size) (c : Nat) :
    ∃ rgn', joinNext (rgn.set i ⟨(rgn.region i).base, (rgn.region i).size + size⟩) i c =
      some (rgn', c + 1) ∧ Added rgn base size rgn' := by
  have hbound := h.bound (i + 1) hi
  have hlast := h.last_eq (by omega)
  have hself : (rgn.set i ⟨(rgn.region i).base, (rgn.region i).size + size⟩).region i =
      ⟨(rgn.region i).base, (rgn.region i).size + size⟩ := LmbRegion.set_self _
  have hother : (rgn.set i ⟨(rgn.region i).base, (rgn.region i).size + size⟩).region (i + 1) =
      rgn.region (i + 1) := LmbRegion.set_other _ (by omega)
  have hadj : lmbRegionsAdjacent (rgn.set i ⟨(rgn.region i).base, (rgn.region i).size + size⟩) i (i + 1) = 1 := by
    unfold lmbRegionsAdjacent lmbAddrsAdjacent
    rw [hself, hother, if_pos]
    rw [addrAdd_eq (by simp only; omega)]
    simp only
    omega
  obtain ⟨rgn', hrem, hcnt, heq⟩ := lmbRemoveRegion_eq
    ((rgn.set i ⟨(rgn.region i).base, (rgn.region i).size + size⟩).set i
      ⟨(rgn.region i).base, (rgn.region i).size + size + (rgn.region (i + 1)).size⟩)
    (show i + 1 < rgn.cnt from hi)
  refine ⟨rgn', ?_, added_between h hi htouch hnext hcnt fun j hj => ?_⟩
  · unfold joinNext
    rw [if_pos ⟨show i < rgn.last by omega, by rw [hadj]; decide⟩]
    unfold lmbCoalesceRegions
    rw [hself, hother, addrAdd_eq (by simp only; omega)]
    rw [hrem]
    rfl
  · rw [heq j hj]
    unfold LmbRegion.set
    simp only [update_idem]

/-- `lmb_add_region` adds the range, or says that there is no slot for it. -/
theorem lmbAddRegion_spec (h : rgn.Ok) (hpos : 0 < rgn.cnt) (hb : base + size < 2 ^ 64)
    (hfree : rgn.Free base size) : ∃ rgn' ret, lmbAddRegion rgn base size = some (rgn', ret) ∧
      (ret < 0 ∧ rgn' = rgn ∨ 0 ≤ ret ∧ Added rgn base size rgn') := by
  unfold lmbAddRegion
  split
  · next hdummy => exact ⟨_, _, rfl, Or.inr ⟨le_rfl, added_first h hb hdummy.1 hdummy.2⟩⟩
  split
  · next i hfind =>
    obtain ⟨hmeets, hmem, hfirst⟩ := List.find?_range_eq_some.mp hfind
    have hi := List.mem_range.mp hmem
    have hbound := h.bound i hi
    simp only
    split
    · next hsame => exact ⟨_, _, rfl, Or.inr ⟨le_rfl, added_same h hb hfree hi hsame⟩⟩
    next hsame =>
    split
    · next hup =>
      -- the range ends where region `i` begins
      have htouch := (lmbAddrsAdjacent_pos hb).mp hup
      have hadded := added_before h hb hfree hi htouch fun j hj => by simpa using hfirst j hj
      rw [addrSub_eq (by omega) (by omega), htouch, Nat.add_sub_cancel, addrAdd_eq (by omega),
        joinNext_of_ok hadded.ok hadded.pos]
      exact ⟨_, _, rfl, Or.inr ⟨by simp, hadded⟩⟩
    · next hup =>
      -- region `i` ends where the range begins
      have htouch : base = (rgn.region i).base + (rgn.region i).size := by
        have hadj := (of_decide_eq_true hmeets).resolve_left hsame
        rw [Ne, lmbAddrsAdjacent_eq_zero hb hbound, not_and_or, not_not, not_not] at hadj
        exact hadj.resolve_left fun hc => hup ((lmbAddrsAdjacent_pos hb).mpr hc)
      rw [addrAdd_eq (by omega)]
      by_cases hnext : i + 1 < rgn.cnt ∧ (rgn.region (i + 1)).base = base + size
      · obtain ⟨rgn', hjoin, hadded⟩ := joinNext_between h hnext.1 htouch hnext.2 1
        rw [hjoin]
        exact ⟨_, _, rfl, Or.inr ⟨by simp, hadded⟩⟩
      · have hadded := added_after h hb hfree hi htouch fun hlt hc => hnext ⟨hlt, hc⟩
        rw [joinNext_of_ok hadded.ok hadded.pos]
        exact ⟨_, _, rfl, Or.inr ⟨by simp, hadded⟩⟩
  · next hfind =>
    have hnone : ∀ j < rgn.cnt, meets base size (rgn.region j) = false := by
      intro j hj
      simpa using List.find?_range_eq_none.mp hfind j hj
    rw [joinNext_of_ok h hpos]
    simp only [Option.map_some, ne_eq, not_true_eq_false, ↓reduceIte]
    split
    · exact ⟨_, _, rfl, Or.inl ⟨by decide, rfl⟩⟩
    · next hroom =>
      exact ⟨_, _, rfl, Or.inr ⟨le_rfl, added_insert h hb hfree hpos (not_le.mp hroom) hnone⟩⟩

end Tables

end Armada3720.Lmb
