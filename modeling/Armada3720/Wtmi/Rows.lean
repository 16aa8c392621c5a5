import Armada3720.Wtmi.Mailbox

/-!
# What a fuse command leaves enabled, and which rows it addresses

A timeout of `efuse_write` goes past the end, where programming is disabled. The row of a command is checked,
but not the three rows that a 256-bit access goes on to.

`efuse_write_disables_iff` and `mailbox_rows_exist_iff` are exact, for every outcome of the polls.
-/

namespace Armada3720.Wtmi

variable {row r : BitVec 32} {otp : Otp}

/-! ## The effects of the loops -/

/-- The row is one of the next `n`, and no poll for a row before it times out. -/
def Reached (row : BitVec 32) (polls : Nat → Bool) (n count : Nat) (r : BitVec 32) : Prop :=
  ∃ i < n, r = row + BitVec.ofNat 32 (count + i) ∧ ∀ k < i, polls (count + k) = true

theorem reached_succ (polls : Nat → Bool) (n count : Nat) :
    Reached row polls (n + 1) count r ↔
      r = row + BitVec.ofNat 32 count ∨ polls count = true ∧ Reached row polls n (count + 1) r := by
  constructor
  · rintro ⟨_ | i, hi, hr, hpolls⟩
    · exact .inl hr
    · obtain ⟨hpoll, hrest⟩ := (polls_succ polls i count).mp hpolls
      exact .inr ⟨hpoll, i, by omega, by rwa [Nat.add_right_comm, Nat.add_assoc], hrest⟩
  · rintro (hr | ⟨hpoll, i, hi, hr, hrest⟩)
    · exact ⟨0, by omega, hr, nofun⟩
    · refine ⟨i + 1, by omega, by rwa [Nat.add_right_comm, Nat.add_assoc] at hr, ?_⟩
      exact (polls_succ polls i count).mpr ⟨hpoll, hrest⟩

theorem mem_rows_readRows (row r : BitVec 32) (polls : Nat → Bool) (n count : Nat) (args : Args) (otp : Otp) :
    r ∈ (readRows row polls n count args otp).2.2.rows ↔ r ∈ otp.rows ∨ Reached row polls n count r := by
  induction n generalizing count args otp with
  | zero => simp [readRows, Reached]
  | succ n ih =>
    rw [reached_succ]
    unfold readRows efuseReadRowNoEcc
    cases hp : polls count with
    | false => simp [or_comm]
    | true =>
      simp only [if_true, true_and]
      rw [ih, List.mem_cons]
      tauto

theorem burnColumns_masterEnabled (pos n col : Nat) (args : Args) (otp : Otp) :
    (burnColumns row pos n col args otp).2.masterEnabled = otp.masterEnabled := by
  induction n generalizing col args otp with
  | zero => rfl
  | succ n ih =>
    rw [burnColumns, ih]
    split <;> rfl

/-- Burning addresses no row but its own. -/
theorem mem_rows_burnColumns (pos n col : Nat) (args : Args) (h : row ∈ otp.rows) :
    r ∈ (burnColumns row pos n col args otp).2.rows ↔ r ∈ otp.rows := by
  induction n generalizing col args otp with
  | zero => rfl
  | succ n ih =>
    rw [burnColumns]
    split
    · rw [ih _ _ (List.mem_cons_of_mem _ h)]
      exact ⟨fun hr => (List.mem_cons.mp hr).elim (· ▸ h) id, List.mem_cons_of_mem _⟩
    · exact ih _ _ h

theorem writeRows_otp (row r : BitVec 32) (size offset pos : Nat) (polls : Nat → Bool) (n count : Nat) (args : Args) (otp : Otp) :
    (writeRows size row offset pos polls n count args otp).2.2.masterEnabled = otp.masterEnabled ∧
      (r ∈ (writeRows size row offset pos polls n count args otp).2.2.rows ↔
        r ∈ otp.rows ∨ Reached row (fun k => polls (k + 1)) n count r) := by
  induction n generalizing count args otp with
  | zero => simp [writeRows, Reached]
  | succ n ih =>
    rw [reached_succ]
    unfold writeRows efuseReadRowNoEcc
    cases hp : polls (count + 1) with
    | false => simp [or_comm]
    | true =>
      simp only [if_true, true_and]
      obtain ⟨hmaster, hrows⟩ := ih (count + 1) _ _
      rw [hmaster, hrows, burnColumns_masterEnabled, mem_rows_burnColumns _ _ _ _ List.mem_cons_self, List.mem_cons]
      exact ⟨rfl, by tauto⟩

/-! ## Programming is disabled again -/

/-- After a write programming is disabled, unless the write was refused and has touched nothing. -/
def DisabledAgain (row offset : BitVec 32) (otp otp' : Otp) : Prop :=
  if row.toNat ≥ efuseMaxRow ∨ offset.toNat > efuseBitsInRow then otp' = otp else otp'.masterEnabled = false

/-- A write leaves programming disabled if and only if no poll times out. -/
theorem efuse_write_disables_iff (size : Nat) (row offset : BitVec 32) (pos : Nat) (polls : Nat → Bool)
    (args : Args) (otp : Otp) :
    DisabledAgain row offset otp (efuseWrite size row offset pos polls args otp).2.2 ↔
      accessError row offset (efuseAccessLoops size + 1) polls ≠ .timeout := by
  rw [← (efuseWrite_spec size row offset pos polls args otp).1]
  unfold DisabledAgain efuseWrite
  split
  next => simp
  next =>
    dsimp only [efuseWriteEnable]
    cases polls 0 with
    | false => simp
    | true =>
      simp only [if_true]
      have hstatus := (writeRows_spec size row offset.toNat pos polls (efuseAccessLoops size) 0
        (expandField size pos args) { otp with masterEnabled := true }).1
      have hmaster := (writeRows_otp row row size offset.toNat pos polls (efuseAccessLoops size) 0
        (expandField size pos args) { otp with masterEnabled := true }).1
      split
      next => simp [efuseWriteDisable]
      next hne heq =>
        rw [heq] at hstatus hmaster
        dsimp only at hstatus hmaster ⊢
        split at hstatus
        · exact absurd hstatus hne
        · simp [hstatus, hmaster]

/-- A write whose code match times out returns with programming enabled. -/
theorem timed_out_write_stays_enabled : (efuseWrite 64 5 0 1 (fun _ => false) (words [5, 1]) blankOtp).1 = .timeout ∧
      (efuseWrite 64 5 0 1 (fun _ => false) (words [5, 1]) blankOtp).2.2.masterEnabled = true := by
  decide

/-! ## The rows of the commands -/

/-- The command addresses the row. -/
def Command.Addresses (c : Command) (r : BitVec 32) : Prop :=
  (c.args 0).toNat < efuseMaxRow ∧
    ∃ field, fieldOf (mboxOpSize (c.cmd &&& 0xffff#32)) c.args = some field ∧
      field.offset.toNat ≤ efuseBitsInRow ∧
      (mboxOperation (c.cmd &&& 0xffff#32) = mbOpWrite ∧ c.polls 0 = true ∧
          Reached (c.args 0) (fun k => c.polls (k + 1)) (efuseAccessLoops field.size) 0 r ∨
        mboxOperation (c.cmd &&& 0xffff#32) = mbOpRead ∧
          Reached (c.args 0) c.polls (efuseAccessLoops field.size) 0 r)

theorem mem_rows_efuseRead (size : Nat) (row offset : BitVec 32) (polls : Nat → Bool) (args : Args) (otp : Otp) :
    r ∈ (efuseRead size row offset polls args otp).2.2.rows ↔ r ∈ otp.rows ∨
      row.toNat < efuseMaxRow ∧ offset.toNat ≤ efuseBitsInRow ∧ Reached row polls (efuseAccessLoops size) 0 r := by
  have hrows := mem_rows_readRows row r polls (efuseAccessLoops size) 0 args otp
  unfold efuseRead
  split
  next h => simp only [← Nat.not_le, ge_iff_le, gt_iff_lt] at h ⊢; tauto
  next h =>
    simp only [ge_iff_le, gt_iff_lt, not_or, Nat.not_le, Nat.not_lt] at h
    simp only [h, true_and]
    split
    all_goals
      rename_i heq
      rwa [heq] at hrows

theorem mem_rows_efuseWrite (size : Nat) (row offset : BitVec 32) (pos : Nat) (polls : Nat → Bool) (args : Args)
    (otp : Otp) :
    r ∈ (efuseWrite size row offset pos polls args otp).2.2.rows ↔ r ∈ otp.rows ∨
      row.toNat < efuseMaxRow ∧ offset.toNat ≤ efuseBitsInRow ∧ polls 0 = true ∧
        Reached row (fun k => polls (k + 1)) (efuseAccessLoops size) 0 r := by
  have hrows := (writeRows_otp row r size offset.toNat pos polls (efuseAccessLoops size) 0
    (expandField size pos args) { otp with masterEnabled := true }).2
  unfold efuseWrite
  split
  next h => simp only [← Nat.not_le, ge_iff_le, gt_iff_lt] at h ⊢; tauto
  next h =>
    simp only [ge_iff_le, gt_iff_lt, not_or, Nat.not_le, Nat.not_lt] at h
    simp only [h, true_and]
    dsimp only [efuseWriteEnable]
    cases polls 0 with
    | false => simp
    | true =>
      simp only [if_true, true_and]
      split
      all_goals
        rename_i heq
        rwa [heq] at hrows

theorem mem_rows_handle (st : Loop) (c : Command) :
    r ∈ (handle st c).2.otp.rows ↔ r ∈ st.otp.rows ∨ c.Addresses r := by
  unfold handle cmdExecute Command.Addresses
  dsimp only
  split
  next hrow => simp [Nat.not_lt.mpr (Nat.le_of_lt hrow)]
  next =>
    split
    next hfield => simp [hfield]
    next field hfield =>
      simp only [hfield, Option.some.injEq, exists_eq_left']
      split
      next hop => simp [mem_rows_efuseWrite, hop, mbOpWrite, mbOpRead]
      next hop =>
        split
        next hread => simp [mem_rows_efuseRead, hread, mbOpWrite, mbOpRead]
        next hread => simp [hop, hread]

/-- The loop of `main` after a sequence of commands. -/
def serve (st : Loop) (cs : List Command) : Loop :=
  cs.foldl (fun st c => (handle st c).2) st

theorem mem_rows_serve (st : Loop) (cs : List Command) :
    r ∈ (serve st cs).otp.rows ↔ r ∈ st.otp.rows ∨ ∃ c ∈ cs, c.Addresses r := by
  induction cs generalizing st with
  | nil => simp [serve]
  | cons c cs ih =>
    rw [serve, List.foldl_cons]
    refine (ih _).trans ?_
    rw [mem_rows_handle, List.exists_mem_cons_iff, or_assoc]

theorem exists_reached_iff {n : Nat} (hrow : row.toNat < efuseMaxRow) (hn : n ≤ 4) (polls : Nat → Bool) :
    (∃ r, Reached row polls n 0 r ∧ efuseMaxRow ≤ r.toNat) ↔
      efuseMaxRow < row.toNat + n ∧ ∀ k < efuseMaxRow - row.toNat, polls k = true := by
  have hadd : ∀ i < 4, (row + BitVec.ofNat 32 (0 + i)).toNat = row.toNat + i := by
    intro i hi
    rw [BitVec.toNat_add, BitVec.toNat_ofNat]
    simp only [efuseMaxRow] at hrow
    omega
  constructor
  · rintro ⟨_, ⟨i, hi, rfl, hpolls⟩, hr⟩
    rw [hadd i (by omega)] at hr
    refine ⟨by omega, fun k hk => ?_⟩
    have := hpolls k (by omega)
    rwa [Nat.zero_add] at this
  · rintro ⟨hfar, hpolls⟩
    refine ⟨_, ⟨efuseMaxRow - row.toNat, by omega, rfl, fun k hk => ?_⟩, ?_⟩
    · rw [Nat.zero_add]
      exact hpolls k hk
    · rw [hadd _ (by omega)]
      omega

/-- A 256-bit access that comes to a row after the last. -/
def Command.Overruns (c : Command) : Prop :=
  let cmd := c.cmd &&& 0xffff#32
  let row := (c.args 0).toNat
  mboxOpSize cmd = 5#32 ∧ row < efuseMaxRow ∧ efuseMaxRow < row + 4 ∧
    (mboxOperation cmd = mbOpWrite ∧ (∀ k < efuseMaxRow - row + 1, c.polls k = true) ∨
      mboxOperation cmd = mbOpRead ∧ ∀ k < efuseMaxRow - row, c.polls k = true)

/-- Only the 256-bit field takes more than one row. -/
theorem fieldOf_rows {opsz : BitVec 32} {args : Args} {field : Field} (h : fieldOf opsz args = some field) :
    if opsz = 5#32 then efuseAccessLoops field.size = 4 ∧ field.offset = 0 else efuseAccessLoops field.size = 1 := by
  unfold fieldOf at h
  split at h <;> cases h <;> simp [efuseAccessLoops, efuseBitsInRow]

theorem Command.overruns_iff (c : Command) :
    c.Overruns ↔ ∃ r, c.Addresses r ∧ efuseMaxRow ≤ r.toNat := by
  constructor
  · rintro ⟨hsize, hrow, hfar, h⟩
    have hfield : fieldOf (mboxOpSize (c.cmd &&& 0xffff#32)) c.args = some ⟨256, 0, 1, 8⟩ := by rw [hsize]; rfl
    have hreach := fun polls hpolls => (exists_reached_iff hrow (Nat.le_refl 4) polls).mpr ⟨hfar, hpolls⟩
    rcases h with ⟨hop, hpolls⟩ | ⟨hop, hpolls⟩
    · obtain ⟨r, hr, hlast⟩ := hreach (fun k => c.polls (k + 1)) fun k hk => hpolls _ (by omega)
      exact ⟨r, ⟨hrow, _, hfield, by decide, .inl ⟨hop, hpolls 0 (by omega), hr⟩⟩, hlast⟩
    · obtain ⟨r, hr, hlast⟩ := hreach c.polls hpolls
      exact ⟨r, ⟨hrow, _, hfield, by decide, .inr ⟨hop, hr⟩⟩, hlast⟩
  · rintro ⟨r, ⟨hrow, field, hfield, -, h⟩, hlast⟩
    have hloops := fieldOf_rows hfield
    have hle : efuseAccessLoops field.size ≤ 4 := by split at hloops <;> omega
    have hreach := fun polls hr => (exists_reached_iff hrow hle polls).mp ⟨r, hr, hlast⟩
    -- the rows of a shorter field end with the first, which exists
    have hwide : efuseMaxRow < (c.args 0).toNat + efuseAccessLoops field.size →
        mboxOpSize (c.cmd &&& 0xffff#32) = 5#32 ∧ efuseMaxRow < (c.args 0).toNat + 4 := by
      intro hfar
      split at hloops
      next hsize => exact ⟨hsize, by omega⟩
      next => omega
    rcases h with ⟨hop, hpoll, hr⟩ | ⟨hop, hr⟩
    · obtain ⟨hfar, hpolls⟩ := hreach _ hr
      obtain ⟨hsize, hfar⟩ := hwide hfar
      refine ⟨hsize, hrow, hfar, .inl ⟨hop, ?_⟩⟩
      rintro (_ | k) hk
      · exact hpoll
      · exact hpolls k (by omega)
    · obtain ⟨hfar, hpolls⟩ := hreach _ hr
      obtain ⟨hsize, hfar⟩ := hwide hfar
      exact ⟨hsize, hrow, hfar, .inr ⟨hop, hpolls⟩⟩

/-- Every sequence of commands addresses rows that exist, if and only if no 256-bit access comes to a row after
the last. -/
theorem mailbox_rows_exist_iff (otp : Otp) (cs : List Command) :
    (∀ r ∈ (serve (.start { otp with rows := [] }) cs).otp.rows, r.toNat < efuseMaxRow) ↔
      ∀ c ∈ cs, ¬ c.Overruns := by
  simp only [mem_rows_serve, Command.overruns_iff, Loop.start, List.not_mem_nil, false_or]
  constructor
  · rintro h c hc ⟨r, hr, hlast⟩
    exact Nat.not_lt.mpr hlast (h r ⟨c, hc, hr⟩)
  · rintro h r ⟨c, hc, hr⟩
    exact Nat.not_le.mp fun hlast => h c hc ⟨r, hr, hlast⟩

/-- A 256-bit read of row 42 goes on to three rows that do not exist. -/
theorem wide_read_leaves_rows :
    (serve (.start blankOtp) [⟨0x105, words [42], fun _ => true⟩]).otp.rows = [45, 44, 43, 42] := by
  decide

end Armada3720.Wtmi
