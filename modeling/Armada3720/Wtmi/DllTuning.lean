import Mathlib

/-!
# DLL tuning

`short_dll_tune` and `dll_tuning` of the DDR training. A sweep goes through all phases and keeps the first and
the last that passes, whatever lies between; a sweep without any returns before it ends the
multi-purpose-register mode. How the memory answers at a phase is an input.
-/

namespace Armada3720.Wtmi

open Function

/-! ## The code -/

inductive DllType where
  | master
  | neg
deriving DecidableEq

/-- `DLL_MASTER` and `DLL_NEG`: where the phase is in the control register. -/
def DllType.shift : DllType → Nat
  | .master => 16
  | .neg => 24

/-- A byte lane, and one of its DLLs. -/
abbrev Lane : Type := Fin 2 × DllType

/-- The registers: `BYTE_CONTROL` of each byte, and those that are the same for both. -/
structure Phy where
  byteControl : Fin 2 → BitVec 32
  dramConfig3 : BitVec 32
  userCommand2 : BitVec 32
  phyControl8 : BitVec 32
  phyControl9 : BitVec 32

def replaceVal (reg data : BitVec 32) (offset : Nat) (mask : BitVec 32) : BitVec 32 :=
  (reg &&& ~~~mask) ||| (data <<< offset &&& mask)

def dllTypeMask (t : DllType) : BitVec 32 :=
  0x3f#32 <<< t.shift

namespace Phy

def setPhase (phy : Phy) (k : Lane) (i : Nat) : Phy :=
  { phy with
    byteControl := update phy.byteControl k.1
      (replaceVal (phy.byteControl k.1) (BitVec.ofNat 32 i) k.2.shift (dllTypeMask k.2)) }

/-- The phase that is programmed. -/
def phase (phy : Phy) (k : Lane) : Nat :=
  (phy.byteControl k.1 >>> k.2.shift &&& 0x3f#32).toNat

/-- `reset_dll_phy`, after the delays. -/
def resetDllPhy (phy : Phy) : Phy :=
  { phy with phyControl9 := 0 }

/-- The multi-purpose-register mode is on. -/
def mprOn (phy : Phy) : Bool :=
  phy.dramConfig3.getLsbD 6

def setMpr (phy : Phy) (enable : Bool) : Phy :=
  { phy with
    dramConfig3 := if enable then phy.dramConfig3 ||| 0x40#32 else phy.dramConfig3 &&& ~~~0x40#32
    userCommand2 := 0x13000800#32 }

end Phy

/-- The test of a lane passes at a phase, by chip select. -/
abbrev Response : Type := Lane → Nat → Nat → Bool

/-- The test passes on all chip selects. -/
def passes (mem : Response) (numOfCs : Nat) (k : Lane) (i : Nat) : Bool :=
  (List.range numOfCs).all fun cs => mem k cs i

structure DllTuningInfo where
  left : Nat
  right : Nat
  medium : Nat

section Code

variable (ratio : Nat) (mprEn : Bool) (pass : Lane → Nat → Bool)

/-- One turn of the sweep: `left`, `right` and the registers. -/
def tryPhase (k : Lane) (st : Nat × Nat × Phy) (i : Nat) : Nat × Nat × Phy :=
  let phy := (st.2.2.setPhase k i).resetDllPhy
  if pass k (phy.phase k) then
    (if i < st.1 then i else st.1, if i > st.2.1 then i else st.2.1, phy)
  else (st.1, st.2.1, phy)

/-- `short_dll_tune`; `none` is a window that is not found. -/
def shortDllTune (k : Lane) (phy : Phy) : Option DllTuningInfo × Phy :=
  let backup := phy.byteControl k.1
  let phy := { phy with
    phyControl9 := 0
    phyControl8 := phy.phyControl8 &&& ~~~0xc#32 ||| 0x80000000#32 }
  let phy := if mprEn then phy.setMpr true else phy
  let (left, right, phy) := (List.range 64).foldl (tryPhase pass k) (0x3f, 0, phy)
  let phy := { phy with byteControl := update phy.byteControl k.1 backup }.resetDllPhy
  if left > right then (none, phy)
  else (some ⟨left, right, left + (right - left) / ratio⟩, if mprEn then phy.setMpr false else phy)

/-- `byte` and `dll_type` of `dll_tuning`. -/
def lanes : List Lane := (List.finRange 2).flatMap fun byte => [(byte, .master), (byte, .neg)]

/-- The loop of `dll_tuning`: `size`, `med` and the registers. -/
def tuneLanes : List Lane → Nat → (Lane → Nat) → Phy → Option (Nat × (Lane → Nat)) × Phy
  | [], size, med, phy => (some (size, med), phy)
  | k :: ks, size, med, phy =>
    match shortDllTune ratio mprEn pass k phy with
    | (none, phy) => (none, phy)
    | (some info, phy) =>
      let currentSize := info.right - info.left
      tuneLanes ks (if currentSize < size then currentSize else size) (update med k info.medium) phy

/-- `dll_tuning`: the size and the registers. -/
def dllTuning (mem : Response) (numOfCs : Nat) (saveRes : Bool) (phy : Phy) : Nat × Phy :=
  match tuneLanes ratio mprEn (passes mem numOfCs) lanes 0x3f (fun _ => 0) phy with
  | (none, phy) => (0, phy)
  | (some (size, med), phy) =>
    (size, if saveRes then (lanes.foldl (fun phy k => phy.setPhase k (med k)) phy).resetDllPhy else phy)

end Code

/-! ## Phases in the registers -/

theorem replaceVal_self (reg data : BitVec 32) (t : DllType) :
    replaceVal reg data t.shift (dllTypeMask t) >>> t.shift &&& 0x3f#32 = data &&& 0x3f#32 := by
  cases t
  all_goals
    ext j hj
    simp only [replaceVal, dllTypeMask, DllType.shift]
    interval_cases j <;> simp

theorem replaceVal_ne (reg data : BitVec 32) {t t' : DllType} (h : t' ≠ t) :
    replaceVal reg data t.shift (dllTypeMask t) >>> t'.shift &&& 0x3f#32 = reg >>> t'.shift &&& 0x3f#32 := by
  cases t <;> cases t' <;> try exact absurd rfl h
  all_goals
    ext j hj
    simp only [replaceVal, dllTypeMask, DllType.shift]
    interval_cases j <;> simp

theorem Phy.phase_setPhase_self (phy : Phy) (k : Lane) {i : Nat} (hi : i < 64) : (phy.setPhase k i).phase k = i := by
  simp only [phase, setPhase, update_self]
  rw [replaceVal_self, BitVec.toNat_and, BitVec.toNat_ofNat, Nat.mod_eq_of_lt (by omega)]
  exact (Nat.and_two_pow_sub_one_eq_mod i 6).trans (Nat.mod_eq_of_lt hi)

theorem Phy.phase_setPhase_ne (phy : Phy) {k k' : Lane} (h : k' ≠ k) (i : Nat) :
    (phy.setPhase k i).phase k' = phy.phase k' := by
  simp only [phase, setPhase]
  by_cases hbyte : k'.1 = k.1
  · rw [hbyte, update_self, replaceVal_ne _ _ fun ht => h (Prod.ext hbyte ht)]
  · rw [update_of_ne hbyte]

/-- Lanes that are programmed one after the other keep their phases. -/
theorem Phy.phase_setPhases {med : Lane → Nat} (hmed : ∀ k, med k < 64) {ks : List Lane} (hnodup : ks.Nodup)
    (phy : Phy) {k : Lane} (hk : k ∈ ks ∨ phy.phase k = med k) :
    (ks.foldl (fun phy k => phy.setPhase k (med k)) phy).phase k = med k := by
  induction ks generalizing phy with
  | nil => simpa using hk
  | cons k' ks ih =>
    rw [List.nodup_cons] at hnodup
    refine ih hnodup.2 _ ?_
    rcases eq_or_ne k k' with rfl | hne
    · exact .inr (phase_setPhase_self _ _ (hmed k))
    · rw [phase_setPhase_ne _ hne]
      exact hk.imp_left fun h => (List.mem_cons.mp h).resolve_left hne

/-! ## A sweep -/

/-- The first and the last phase that passes. -/
structure Window (p : Nat → Bool) (left right : Nat) : Prop where
  lt : right < 64
  first : p left = true
  last : p right = true
  bounds : ∀ i < 64, p i = true → left ≤ i ∧ i ≤ right

variable (ratio : Nat) (mprEn : Bool) (pass : Lane → Nat → Bool)

theorem Window.le {p : Nat → Bool} {left right : Nat} (h : Window p left right) : left ≤ right :=
  (h.bounds right h.lt h.last).1

theorem Window.unique {p : Nat → Bool} {left right left' right' : Nat} (h : Window p left right)
    (h' : Window p left' right') : left = left' ∧ right = right' := by
  have hle := h.le
  have hlt := h.lt
  have hle' := h'.le
  have hlt' := h'.lt
  have := h.bounds left' (by omega) h'.first
  have := h.bounds right' hlt' h'.last
  have := h'.bounds left (by omega) h.first
  have := h'.bounds right hlt h.last
  omega

/-- After `n` turns: the edges so far, and what has been written. -/
theorem sweep_spec (k : Lane) (phy : Phy) {n : Nat} (hn : n ≤ 64) :
    ∃ left right phy', (List.range n).foldl (tryPhase pass k) (0x3f, 0, phy) = (left, right, phy') ∧
      (∀ j ≠ k.1, phy'.byteControl j = phy.byteControl j) ∧ phy'.dramConfig3 = phy.dramConfig3 ∧
      (∀ i < n, pass k i = true → left ≤ i ∧ i ≤ right) ∧
      (left = 0x3f ∨ left < n ∧ pass k left = true) ∧
      (right = 0 ∨ right < n ∧ pass k right = true) := by
  induction n with
  | zero => exact ⟨_, _, _, rfl, fun _ _ => rfl, rfl, nofun, .inl rfl, .inl rfl⟩
  | succ n ih =>
    obtain ⟨left, right, phy', heq, hcontrol, hconfig, hbounds, hleft, hright⟩ := ih (by omega)
    rw [List.range_succ, List.foldl_append, heq, List.foldl_cons, List.foldl_nil]
    dsimp only [tryPhase]
    have hphase : ((phy'.setPhase k n).resetDllPhy).phase k = n := phy'.phase_setPhase_self k (by omega)
    have hcontrol' : ∀ j ≠ k.1, (phy'.setPhase k n).byteControl j = phy.byteControl j := fun j hj =>
      (update_of_ne hj _ _).trans (hcontrol j hj)
    rw [hphase]
    by_cases hp : pass k n = true
    · refine ⟨_, _, _, if_pos hp, hcontrol', hconfig, fun i hi hpi => ?_, ?_, ?_⟩
      · rcases Nat.lt_succ_iff_lt_or_eq.mp hi with hi | rfl
        · have := hbounds i hi hpi
          constructor <;> split <;> omega
        · constructor <;> split <;> omega
      · split
        · exact .inr ⟨n.lt_succ_self, hp⟩
        · exact hleft.imp_right fun h => ⟨by omega, h.2⟩
      · split
        · exact .inr ⟨n.lt_succ_self, hp⟩
        · exact hright.imp_right fun h => ⟨by omega, h.2⟩
    · refine ⟨_, _, _, if_neg hp, hcontrol', hconfig, fun i hi hpi => ?_, ?_, ?_⟩
      · rcases Nat.lt_succ_iff_lt_or_eq.mp hi with hi | rfl
        · exact hbounds i hi hpi
        · exact absurd hpi hp
      · exact hleft.imp_right fun h => ⟨by omega, h.2⟩
      · exact hright.imp_right fun h => ⟨by omega, h.2⟩

/-- Where a sweep leaves its registers. -/
theorem shortDllTune_spec (k : Lane) (phy : Phy) :
    ∃ phy', phy'.byteControl = phy.byteControl ∧
      ((shortDllTune ratio mprEn pass k phy = (none, phy') ∧ (∀ i < 64, pass k i = false) ∧
          phy'.mprOn = (mprEn || phy.mprOn)) ∨
        ∃ left right, shortDllTune ratio mprEn pass k phy =
            (some ⟨left, right, left + (right - left) / ratio⟩, phy') ∧
          Window (pass k) left right ∧ phy'.mprOn = (!mprEn && phy.mprOn)) := by
  unfold shortDllTune
  extract_lets backup phy0 phy1
  have hstart : phy1.byteControl = phy.byteControl := by cases mprEn <;> rfl
  obtain ⟨left, right, phy', heq, hcontrol, hconfig, hbounds, hleft, hright⟩ :=
    sweep_spec pass k phy1 (Nat.le_refl 64)
  have hrestored : update phy'.byteControl k.1 backup = phy.byteControl := by
    funext j
    rcases eq_or_ne j k.1 with rfl | hj
    · exact update_self ..
    · rw [update_of_ne hj, hcontrol j hj, hstart]
  rw [heq]
  dsimp only
  split
  next h =>
    refine ⟨_, hrestored, .inl ⟨rfl, fun i hi => ?_, ?_⟩⟩
    · rw [← Bool.not_eq_true]
      intro hp
      have := hbounds i hi hp
      omega
    · cases mprEn <;> simp [Phy.mprOn, Phy.resetDllPhy, hconfig, phy1, phy0, Phy.setMpr]
  next h =>
    have hwindow : Window (pass k) left right := by
      refine ⟨by omega, ?_, ?_, hbounds⟩
      · rcases hleft with rfl | hleft
        · obtain rfl : right = 0x3f := by omega
          exact (hright.resolve_left (by omega)).2
        · exact hleft.2
      · rcases hright with rfl | hright
        · obtain rfl : left = 0 := by omega
          exact (hleft.resolve_left (by omega)).2
        · exact hright.2
    refine ⟨_, ?_, .inr ⟨left, right, rfl, hwindow, ?_⟩⟩
    · cases mprEn <;> exact hrestored
    · cases mprEn <;> simp [Phy.mprOn, Phy.resetDllPhy, hconfig, phy1, phy0, Phy.setMpr]

/-! ## The four sweeps -/

/-- The phase is in the middle of the window of its lane. -/
def Middle (p : Nat → Bool) (ratio m : Nat) : Prop :=
  ∃ left right, Window p left right ∧ m = left + (right - left) / ratio

/-- With a window in every lane the loop keeps the middles and the least width. -/
theorem tuneLanes_spec (ks : List Lane) (size : Nat) (med : Lane → Nat) (phy : Phy) :
    ∃ phy', phy'.byteControl = phy.byteControl ∧
      ((tuneLanes ratio mprEn pass ks size med phy = (none, phy') ∧
          (∃ k ∈ ks, ∀ i < 64, pass k i = false) ∧ (phy.mprOn = false → phy'.mprOn = mprEn)) ∨
        ∃ size' med', tuneLanes ratio mprEn pass ks size med phy = (some (size', med'), phy') ∧
          (phy.mprOn = false → phy'.mprOn = false) ∧
          (∀ k, Middle (pass k) ratio (med' k) ∨ k ∉ ks ∧ med' k = med k) ∧
          ∀ n, n ≤ size' ↔ n ≤ size ∧ ∀ k ∈ ks, ∀ left right, Window (pass k) left right →
            n ≤ right - left) := by
  induction ks generalizing size med phy with
  | nil => exact ⟨phy, rfl, .inr ⟨size, med, rfl, id, fun k => .inr ⟨List.not_mem_nil, rfl⟩, by simp⟩⟩
  | cons k ks ih =>
    obtain ⟨phy1, hcontrol, ⟨heq, hnone, hmpr⟩ | ⟨left, right, heq, hwindow, hmpr⟩⟩ :=
      shortDllTune_spec ratio mprEn pass k phy
    · refine ⟨phy1, hcontrol, .inl ⟨by rw [tuneLanes, heq], ⟨k, List.mem_cons_self, hnone⟩, fun hoff => ?_⟩⟩
      rw [hmpr, hoff, Bool.or_false]
    · obtain ⟨phy', hcontrol', h⟩ := ih (if right - left < size then right - left else size)
        (update med k (left + (right - left) / ratio)) phy1
      have hoff1 : phy.mprOn = false → phy1.mprOn = false := fun hoff => by rw [hmpr, hoff, Bool.and_false]
      refine ⟨phy', hcontrol'.trans hcontrol, ?_⟩
      rw [tuneLanes, heq]
      rcases h with ⟨heq', ⟨j, hj, hnone⟩, hmpr'⟩ | ⟨size', med', heq', hmpr', hmed, hsize⟩
      · exact .inl ⟨heq', ⟨j, List.mem_cons_of_mem _ hj, hnone⟩, hmpr' ∘ hoff1⟩
      · refine .inr ⟨size', med', heq', hmpr' ∘ hoff1, fun j => ?_, fun n => ?_⟩
        · rcases hmed j with hj | ⟨hj, hmed⟩
          · exact .inl hj
          · rcases eq_or_ne j k with rfl | hne
            · exact .inl ⟨left, right, hwindow, hmed.trans (update_self ..)⟩
            · exact .inr ⟨by simp [hj, hne], hmed.trans (update_of_ne hne ..)⟩
        · have hmin : n ≤ (if right - left < size then right - left else size) ↔ n ≤ size ∧ n ≤ right - left := by
            split <;> omega
          have hself : (∀ l r, Window (pass k) l r → n ≤ r - l) ↔ n ≤ right - left := by
            refine ⟨fun h => h left right hwindow, fun h l r hw => ?_⟩
            obtain ⟨rfl, rfl⟩ := hw.unique hwindow
            exact h
          rw [hsize, hmin, List.forall_mem_cons, hself, and_assoc]

theorem mem_lanes (k : Lane) : k ∈ lanes := by
  rcases k with ⟨byte, t⟩
  cases t <;> simp [lanes]

/-! ## The controller after the call -/

/-- The multi-purpose-register mode is off again, and the control registers are restored when nothing is saved, if and
only if that mode was not asked for or every lane has a phase that passes. -/
theorem dll_tuning_restores_iff (ratio : Nat) (mprMode : Bool) (mem : Response) (numOfCs : Nat) (saveRes : Bool)
    {phy : Phy} (hoff : phy.mprOn = false) :
    ((dllTuning ratio mprMode mem numOfCs saveRes phy).2.mprOn = false ∧
      ((∃ k, ∀ i < 64, passes mem numOfCs k i = false) ∨ saveRes = false →
        (dllTuning ratio mprMode mem numOfCs saveRes phy).2.byteControl = phy.byteControl)) ↔
      mprMode = false ∨ ∀ k, ∃ i < 64, passes mem numOfCs k i = true := by
  obtain ⟨phy', hcontrol, ⟨heq, ⟨k, -, hnone⟩, hmpr⟩ | ⟨size, med, heq, hmpr, hmed, -⟩⟩ :=
    tuneLanes_spec ratio mprMode (passes mem numOfCs) lanes 0x3f (fun _ => 0) phy
  · have hnot : ¬ ∀ k, ∃ i < 64, passes mem numOfCs k i = true := by
      intro h
      obtain ⟨i, hi, hp⟩ := h k
      exact Bool.false_ne_true ((hnone i hi).symm.trans hp)
    rw [or_iff_left hnot, dllTuning, heq]
    simp [hmpr hoff, hcontrol]
  · have hall : ∀ k, ∃ i < 64, passes mem numOfCs k i = true := by
      intro k
      obtain ⟨left, right, hw, -⟩ := (hmed k).resolve_right fun h => h.1 (mem_lanes k)
      exact ⟨right, hw.lt, hw.last⟩
    refine ⟨fun _ => .inr hall, fun _ => ⟨?_, ?_⟩⟩
    · rw [dllTuning, heq]
      cases saveRes <;> exact hmpr hoff
    · rintro (⟨k, hnone⟩ | rfl)
      · obtain ⟨i, hi, hp⟩ := hall k
        exact absurd ((hnone i hi).symm.trans hp) Bool.false_ne_true
      · rw [dllTuning, heq]
        exact hcontrol

/-- Registers that are all zero. -/
def zeroPhy : Phy := ⟨fun _ => 0, 0, 0, 0, 0⟩

theorem dll_tuning_restores_all_pass : (dllTuning 2 true (fun _ _ _ => true) 1 false zeroPhy).2.mprOn = false := by
  have hoff : zeroPhy.mprOn = false := rfl
  exact ((dll_tuning_restores_iff 2 true (fun _ _ _ => true) 1 false hoff).mpr (.inr fun _ => ⟨0, by decide, rfl⟩)).1

/-- A sweep in the multi-purpose-register mode that finds no phase returns in that mode. -/
theorem failed_tuning_stays_in_mpr_mode : (dllTuning 2 true (fun _ _ _ => false) 1 false zeroPhy).2.mprOn = true := by
  decide +kernel

/-! ## The phases that are saved -/

/-- The phase is in a run of phases that pass, of width `w` or more. -/
def InRun (p : Nat → Bool) (m w : Nat) : Prop :=
  ∃ a b, a ≤ m ∧ m ≤ b ∧ b < 64 ∧ (∀ i, a ≤ i → i ≤ b → p i = true) ∧ w ≤ b - a

theorem InRun.mono {p : Nat → Bool} {m w w' : Nat} (h : InRun p m w) (hw : w' ≤ w) : InRun p m w' := by
  obtain ⟨a, b, ham, hmb, hb, hall, hab⟩ := h
  exact ⟨a, b, ham, hmb, hb, hall, hw.trans hab⟩

theorem Middle.lt {p : Nat → Bool} {ratio m : Nat} (h : Middle p ratio m) : m < 64 := by
  obtain ⟨left, right, hw, rfl⟩ := h
  have := Nat.div_le_self (right - left) ratio
  have := hw.le
  have := hw.lt
  omega

/-- What is saved is in a run of phases that pass, of at least the width returned, if and only if with a window in every
lane the middle of each is in a run as wide as one of the windows. -/
theorem dll_tuning_saves_run_iff (ratio : Nat) (mprMode : Bool) (mem : Response) (numOfCs : Nat) (phy : Phy) :
    (0 < (dllTuning ratio mprMode mem numOfCs true phy).1 → ∀ k, InRun (passes mem numOfCs k)
        ((dllTuning ratio mprMode mem numOfCs true phy).2.phase k)
        (dllTuning ratio mprMode mem numOfCs true phy).1) ↔
      ((∀ k, ∃ left right, Window (passes mem numOfCs k) left right ∧ left < right) →
        ∀ k left right, Window (passes mem numOfCs k) left right →
          ∃ k' left' right', Window (passes mem numOfCs k') left' right' ∧
            InRun (passes mem numOfCs k) (left + (right - left) / ratio) (right' - left')) := by
  obtain ⟨phy', -, ⟨heq, ⟨k, -, hnone⟩, -⟩ | ⟨size, med, heq, -, hmed, hsize⟩⟩ :=
    tuneLanes_spec ratio mprMode (passes mem numOfCs) lanes 0x3f (fun _ => 0) phy
  · rw [dllTuning, heq]
    refine ⟨fun _ h => ?_, fun _ h => absurd h (lt_irrefl 0)⟩
    obtain ⟨left, right, hw, -⟩ := h k
    exact absurd ((hnone right hw.lt).symm.trans hw.last) Bool.false_ne_true
  · have hmiddle := fun k => (hmed k).resolve_right fun h => h.1 (mem_lanes k)
    have hphase : ∀ k, ((lanes.foldl (fun phy k => phy.setPhase k (med k)) phy').resetDllPhy).phase k = med k :=
      fun k => Phy.phase_setPhases (fun k => (hmiddle k).lt) (by decide) phy' (.inl (mem_lanes k))
    rw [dllTuning, heq]
    simp only [if_true, hphase]
    constructor
    · intro h hwide k left right hw
      have hpos : 0 < size := by
        refine (hsize 1).mpr ⟨by decide, fun k _ left right hw => ?_⟩
        obtain ⟨left', right', hw', hlt⟩ := hwide k
        obtain ⟨rfl, rfl⟩ := hw.unique hw'
        omega
      have hleast : ∃ k' left' right', Window (passes mem numOfCs k') left' right' ∧ right' - left' ≤ size := by
        by_contra! hno
        have hlt := hw.lt
        have hmore := hno k left right hw
        have := (hsize (size + 1)).mpr ⟨by omega, fun k _ left right hw => hno k left right hw⟩
        omega
      obtain ⟨k', left', right', hw', hle⟩ := hleast
      refine ⟨k', left', right', hw', InRun.mono ?_ hle⟩
      obtain ⟨l, r, hlr, hm⟩ := hmiddle k
      obtain ⟨rfl, rfl⟩ := hlr.unique hw
      exact hm ▸ h hpos k
    · intro h hpos k
      have hwide : ∀ k, ∃ left right, Window (passes mem numOfCs k) left right ∧ left < right := by
        intro k
        obtain ⟨left, right, hw, -⟩ := hmiddle k
        have := ((hsize 1).mp hpos).2 k (mem_lanes k) left right hw
        exact ⟨left, right, hw, by omega⟩
      obtain ⟨left, right, hw, hm⟩ := hmiddle k
      obtain ⟨k', left', right', hw', hrun⟩ := h hwide k left right hw
      exact hm ▸ hrun.mono (((hsize size).mp le_rfl).2 k' (mem_lanes k') left' right' hw')

/-- With every phase but one passing, the one that fails is saved. -/
theorem dll_tuning_saves_failing_phase : (dllTuning 2 false (fun _ _ i => i != 31) 1 true zeroPhy).1 = 63 ∧
      (dllTuning 2 false (fun _ _ i => i != 31) 1 true zeroPhy).2.phase (0, .master) = 31 ∧
      passes (fun _ _ i => i != 31) 1 (0, .master) 31 = false := by
  decide +kernel

end Armada3720.Wtmi
