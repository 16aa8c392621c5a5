import Mathlib.Tactic
import Armada3720.Wtmi.Efuse

/-!
# The fuse mailbox

The command loop keeps `mb_stat` from one command to the next, and after an error takes it from the first word
of the arguments. A write that fails leaves its code behind that word, where the row number still is; and a
command that succeeds is answered with what an earlier error left.
-/

namespace Armada3720.Wtmi

/-! ## The code -/

def mboxOperation (cmd : BitVec 32) : BitVec 32 :=
  (cmd >>> 8) &&& 0xf#32

def mboxOpSize (cmd : BitVec 32) : BitVec 32 :=
  cmd &&& 0xf#32

def mbOpRead : BitVec 32 := 1

def mbOpWrite : BitVec 32 := 2

/-- Its size, its offset, where the words to write are, and how many words a read returns. -/
structure Field where
  size : Nat
  offset : BitVec 32
  wrArgs : Nat
  readArgs : Nat

def fieldOf (opsz : BitVec 32) (args : Args) : Option Field :=
  match opsz with
  | 1#32 => some ⟨1, args 1, 2, 1⟩
  | 2#32 => some ⟨8, args 1, 2, 1⟩
  | 3#32 => some ⟨32, args 1, 2, 1⟩
  | 4#32 => some ⟨64, 0, 1, 2⟩
  | 5#32 => some ⟨256, 0, 1, 8⟩
  | _ => none

/-- `cmd_execute`, with `nargs` before and after. -/
def cmdExecute (cmd : BitVec 32) (polls : Nat → Bool) (args : Args) (nargs : Nat) (otp : Otp) :
    Status × Args × Nat × Otp :=
  let row := args 0
  if row.toNat > efuseMaxRow then
    (.invalidArgument, Function.update args 0 mbStatBadArgument, nargs, otp)
  else
    match fieldOf (mboxOpSize cmd) args with
    | none => (.invalidArgument, Function.update args 0 mbStatBadArgument, nargs, otp)
    | some field =>
      if mboxOperation cmd = mbOpWrite then
        let (status, args, otp) := efuseWrite field.size row field.offset field.wrArgs polls args otp
        (status, args, 0, otp)
      else if mboxOperation cmd = mbOpRead then
        let (status, args, otp) := efuseRead field.size row field.offset polls args otp
        (status, args, field.readArgs, otp)
      else (.invalidCommand, Function.update args 0 mbStatBadCommand, nargs, otp)

/-- What the mailbox holds for a command, and how the polls of the hardware come out for it. -/
structure Command where
  cmd : BitVec 32
  args : Args
  polls : Nat → Bool

/-- The variables of `main` that stay from one command to the next, and the fuses. -/
structure Loop where
  mbStat : BitVec 32
  nargs : Nat
  otp : Otp

/-- What `mbox_send` sends, and what `cmd_execute` had returned. -/
structure Reply where
  status : BitVec 32
  args : List (BitVec 32)
  returned : Status

/-- One turn of the loop of `main`: `mbox_receive`, `cmd_execute`, `mbox_send`. -/
def handle (st : Loop) (c : Command) : Reply × Loop :=
  let (status, args, nargs, otp) := cmdExecute (c.cmd &&& 0xffff#32) c.polls c.args st.nargs st.otp
  let (mbStat, nargs) := if status ≠ .noError then (args 0, 0) else (st.mbStat, nargs)
  (⟨mbStat, (List.range nargs).map args, status⟩, ⟨mbStat, nargs, otp⟩)

def replies : Loop → List Command → List Reply
  | _, [] => []
  | st, c :: cs =>
    let (reply, st) := handle st c
    reply :: replies st cs

def Loop.start (otp : Otp) : Loop := ⟨mbStatSuccess, 0, otp⟩

/-! ## What the replies should be -/

def mbCode : Status → BitVec 32
  | .noError => mbStatSuccess
  | .invalidArgument => mbStatBadArgument
  | .invalidCommand => mbStatBadCommand
  | .timeout => mbStatTimeout
  | .badConfiguration => mbStatHwError

/-- Success is sent if and only if there was no error, and otherwise the code of the error. -/
def Reply.Truthful (r : Reply) : Prop :=
  (r.status = mbStatSuccess ↔ r.returned = .noError) ∧ (r.returned ≠ .noError → r.status = mbCode r.returned)

theorem mbCode_eq_success {status : Status} : mbCode status = mbStatSuccess ↔ status = .noError := by
  cases status <;> decide

theorem truthful_iff (r : Reply) : r.Truthful ↔ r.status = mbCode r.returned := by
  unfold Reply.Truthful
  constructor
  · rintro ⟨hsuccess, herror⟩
    by_cases h : r.returned = .noError
    · rw [h]
      exact hsuccess.2 h
    · exact herror h
  · intro h
    rw [h]
    exact ⟨mbCode_eq_success, fun _ => rfl⟩

/-- The row or the offset is too large, or one of the polls times out. -/
def accessError (row offset : BitVec 32) (numPolls : Nat) (polls : Nat → Bool) : Status :=
  if row.toNat ≥ efuseMaxRow ∨ offset.toNat > efuseBitsInRow then .invalidArgument
  else if ∀ i < numPolls, polls i = true then .noError
  else .timeout

/-- The error of a command, by what it asks for and how the polls come out. -/
def Command.error (c : Command) : Status :=
  let cmd := c.cmd &&& 0xffff#32
  if (c.args 0).toNat > efuseMaxRow then .invalidArgument
  else
    match fieldOf (mboxOpSize cmd) c.args with
    | none => .invalidArgument
    | some field =>
      if mboxOperation cmd = mbOpWrite then
        accessError (c.args 0) field.offset (efuseAccessLoops field.size + 1) c.polls
      else if mboxOperation cmd = mbOpRead then
        accessError (c.args 0) field.offset (efuseAccessLoops field.size) c.polls
      else .invalidCommand

/-- The command burns fuses: the row and the size are accepted, and the operation is a write. -/
def Command.Burns (c : Command) : Prop :=
  (c.args 0).toNat ≤ efuseMaxRow ∧ (fieldOf (mboxOpSize (c.cmd &&& 0xffff#32)) c.args).isSome ∧
    mboxOperation (c.cmd &&& 0xffff#32) = mbOpWrite

/-! ## Reads -/

theorem polls_succ (polls : Nat → Bool) (n count : Nat) :
    (∀ i < n + 1, polls (count + i) = true) ↔ polls count = true ∧ ∀ i < n, polls (count + 1 + i) = true := by
  constructor
  · intro h
    refine ⟨h 0 (by omega), fun i hi => ?_⟩
    have := h (i + 1) (by omega)
    rwa [show count + (i + 1) = count + 1 + i by omega] at this
  · rintro ⟨h0, h⟩ (_ | i) hi
    · exact h0
    · have := h i (by omega)
      rwa [show count + 1 + i = count + (i + 1) by omega] at this

theorem readRows_status (row : BitVec 32) (polls : Nat → Bool) (n count : Nat) (args : Args) (otp : Otp) :
    (readRows row polls n count args otp).1 =
      if ∀ i < n, polls (count + i) = true then .noError else .timeout := by
  induction n generalizing count args otp with
  | zero => simp [readRows]
  | succ n ih =>
    unfold readRows efuseReadRowNoEcc
    rw [if_congr (polls_succ polls n count) rfl rfl]
    cases hp : polls count with
    | false => simp
    | true =>
      simp only [if_true, true_and]
      exact ih _ _ _

/-- The status of a read is its error. -/
theorem efuseRead_spec (size : Nat) (row offset : BitVec 32) (polls : Nat → Bool) (args : Args) (otp : Otp) :
    (efuseRead size row offset polls args otp).1 = accessError row offset (efuseAccessLoops size) polls ∧
      ((efuseRead size row offset polls args otp).1 ≠ .noError →
        (efuseRead size row offset polls args otp).2.1 0 = mbCode (efuseRead size row offset polls args otp).1) := by
  unfold efuseRead accessError
  split
  next => simp [reportStatus, mbCode]
  next =>
    have hstatus := readRows_status row polls (efuseAccessLoops size) 0 args otp
    simp only [Nat.zero_add] at hstatus
    split
    next heq =>
      rw [heq] at hstatus
      exact ⟨hstatus, fun h => absurd rfl h⟩
    next status args' otp' hne heq =>
      rw [heq] at hstatus
      refine ⟨hstatus, fun _ => ?_⟩
      dsimp only at hstatus ⊢
      split at hstatus
      · exact absurd hstatus hne
      · rw [hstatus]
        simp [reportStatus, mbCode]

/-! ## Writes -/

def SameBefore (pos : Nat) (args args' : Args) : Prop :=
  ∀ i < pos, args' i = args i

variable {args : Args} {pos : Nat}

theorem SameBefore.rfl : SameBefore pos args args :=
  fun _ _ => Eq.refl _

theorem SameBefore.trans {args' args'' : Args} (h : SameBefore pos args args')
    (h' : SameBefore pos args' args'') : SameBefore pos args args'' :=
  fun i hi => (h' i hi).trans (h i hi)

theorem SameBefore.update {args' : Args} (h : SameBefore pos args args') {i : Nat} (hi : pos ≤ i)
    (w : BitVec 32) : SameBefore pos args (Function.update args' i w) := by
  intro k hk
  rw [Function.update_of_ne (by omega)]
  exact h k hk

theorem sameBefore_reportStatus (status : Status) (pos : Nat) (args : Args) :
    SameBefore pos args (reportStatus status pos args) := by
  cases status
  case noError => exact .rfl
  all_goals exact SameBefore.rfl.update (Nat.le_refl pos) _

theorem sameBefore_expandField (size pos : Nat) (args : Args) : SameBefore pos args (expandField size pos args) := by
  unfold expandField
  split
  · exact (SameBefore.rfl.update (Nat.le_refl pos) _).update (Nat.le_succ pos) _
  split
  · exact (SameBefore.rfl.update (Nat.le_refl pos) _).update (Nat.le_succ pos) _
  · exact .rfl

theorem sameBefore_placeField (size offset pos : Nat) (args : Args) :
    SameBefore pos args (placeField size offset pos args) := by
  unfold placeField
  split
  · split
    · exact ((SameBefore.rfl.update (Nat.le_succ pos) _).update (Nat.le_succ pos) _).update (Nat.le_refl pos) _
    · exact (SameBefore.rfl.update (Nat.le_succ pos) _).update (Nat.le_refl pos) _
  · exact .rfl

theorem sameBefore_addOld {p : Nat} (hp : pos ≤ p) (lsb msb : BitVec 32) (args : Args) :
    SameBefore pos args (addOld p lsb msb args) :=
  (SameBefore.rfl.update hp _).update (Nat.le_succ_of_le hp) _

theorem sameBefore_burnColumns {p : Nat} (hp : pos ≤ p) (row : BitVec 32) (n col : Nat)
    (args : Args) (otp : Otp) : SameBefore pos args (burnColumns row p n col args otp).1 := by
  induction n generalizing col args otp with
  | zero => exact .rfl
  | succ n ih => exact (SameBefore.rfl.update (Nat.le_add_right_of_le hp) _).trans (ih _ _ _)

theorem writeRows_spec (size : Nat) (row : BitVec 32) (offset pos : Nat) (polls : Nat → Bool) (n count : Nat)
    (args : Args) (otp : Otp) :
    (writeRows size row offset pos polls n count args otp).1 =
        (if ∀ i < n, polls (count + 1 + i) = true then .noError else .timeout) ∧
      SameBefore pos args (writeRows size row offset pos polls n count args otp).2.1 := by
  induction n generalizing count args otp with
  | zero => exact ⟨by simp [writeRows], .rfl⟩
  | succ n ih =>
    unfold writeRows efuseReadRowNoEcc
    rw [if_congr (polls_succ polls n (count + 1)) rfl rfl]
    cases hp : polls (count + 1) with
    | false => exact ⟨by simp, .rfl⟩
    | true =>
      simp only [if_true, true_and]
      generalize BitVec.setWidth 32 (otp.fuse _) = lsb
      generalize BitVec.setWidth 32 (otp.fuse _ >>> 32) = msb
      have hplace := (sameBefore_placeField size offset pos args).trans
        (sameBefore_addOld (Nat.le_add_right pos (count * 2)) lsb msb _)
      have hburn := hplace.trans (sameBefore_burnColumns (Nat.le_add_right pos (count * 2))
        (row + BitVec.ofNat 32 count) efuseBitsInRow 0 _ { otp with rows := (row + BitVec.ofNat 32 count) :: otp.rows })
      obtain ⟨hstatus, hargs⟩ := ih (count + 1) _ _
      exact ⟨hstatus, hburn.trans hargs⟩

/-- A write has the error of its access, and leaves the words before its own. -/
theorem efuseWrite_spec (size : Nat) (row offset : BitVec 32) (pos : Nat) (polls : Nat → Bool) (args : Args)
    (otp : Otp) :
    (efuseWrite size row offset pos polls args otp).1 =
        accessError row offset (efuseAccessLoops size + 1) polls ∧
      SameBefore pos args (efuseWrite size row offset pos polls args otp).2.1 := by
  unfold efuseWrite accessError
  split
  next => exact ⟨rfl, sameBefore_reportStatus .invalidArgument pos args⟩
  next =>
    have hpolls := polls_succ polls (efuseAccessLoops size) 0
    simp only [Nat.zero_add] at hpolls
    rw [if_congr hpolls rfl rfl]
    dsimp only [efuseWriteEnable]
    cases hp : polls 0 with
    | false =>
      simp only [Bool.false_eq_true, if_false, false_and]
      exact ⟨trivial, (sameBefore_expandField size pos args).trans (sameBefore_reportStatus _ _ _)⟩
    | true =>
      simp only [if_true, true_and]
      obtain ⟨hstatus, hargs⟩ := writeRows_spec size row offset.toNat pos polls (efuseAccessLoops size) 0
        (expandField size pos args) { otp with masterEnabled := true }
      have hargs := (sameBefore_expandField size pos args).trans hargs
      split
      next heq =>
        rw [heq] at hstatus hargs
        exact ⟨hstatus, hargs⟩
      next heq =>
        rw [heq] at hstatus hargs
        exact ⟨hstatus, hargs.trans (sameBefore_reportStatus _ _ _)⟩

/-! ## Commands -/

theorem fieldOf_wrArgs {opsz : BitVec 32} {field : Field} (h : fieldOf opsz args = some field) :
    0 < field.wrArgs := by
  unfold fieldOf at h
  split at h <;> cases h <;> exact Nat.succ_pos _

/-- After an error the first word is the row number, for a command that burns fuses, and the code of the error
for any other. -/
theorem cmdExecute_spec (c : Command) (nargs : Nat) (otp : Otp) :
    (cmdExecute (c.cmd &&& 0xffff#32) c.polls c.args nargs otp).1 = c.error ∧
      (c.error ≠ .noError →
        (c.Burns → (cmdExecute (c.cmd &&& 0xffff#32) c.polls c.args nargs otp).2.1 0 = c.args 0) ∧
        (¬ c.Burns → (cmdExecute (c.cmd &&& 0xffff#32) c.polls c.args nargs otp).2.1 0 = mbCode c.error)) := by
  unfold cmdExecute Command.error Command.Burns
  dsimp only
  split
  next hrow => exact ⟨rfl, fun _ => ⟨fun h => absurd h.1 (Nat.not_le.2 hrow), fun _ => by simp [mbCode]⟩⟩
  next hrow =>
    split
    next hfield => simp [hfield, mbCode]
    next field hfield =>
      split
      next hop =>
        obtain ⟨hstatus, hargs⟩ :=
          efuseWrite_spec field.size (c.args 0) field.offset field.wrArgs c.polls c.args otp
        refine ⟨hstatus, fun _ => ⟨fun _ => hargs 0 (fieldOf_wrArgs hfield), fun h => ?_⟩⟩
        exact absurd ⟨Nat.le_of_not_lt hrow, by simp [hfield], hop⟩ h
      next hop =>
        split
        next =>
          obtain ⟨hstatus, hargs⟩ := efuseRead_spec field.size (c.args 0) field.offset c.polls c.args otp
          rw [hstatus] at hargs
          exact ⟨hstatus, fun herror => ⟨fun h => absurd h.2.2 hop, fun _ => hargs herror⟩⟩
        next => exact ⟨rfl, fun _ => ⟨fun h => absurd h.2.2 hop, fun _ => by simp [mbCode]⟩⟩

/-- What it would have sent before, or else the row number or the code of the error. That stays for the next
command. -/
theorem handle_spec (st : Loop) (c : Command) :
    (handle st c).1.returned = c.error ∧ (handle st c).2.mbStat = (handle st c).1.status ∧
      (c.error = .noError → (handle st c).1.status = st.mbStat) ∧
      (c.error ≠ .noError → (c.Burns → (handle st c).1.status = c.args 0) ∧
        (¬ c.Burns → (handle st c).1.status = mbCode c.error)) := by
  obtain ⟨hstatus, hargs⟩ := cmdExecute_spec c st.nargs st.otp
  unfold handle
  dsimp only
  rw [hstatus]
  by_cases herror : c.error = .noError
  · simp [herror]
  · simp only [herror, ne_eq, not_false_eq_true, if_true, true_and, false_implies, forall_const]
    exact hargs herror

/-! ## Every sequence of commands -/

/-- For any status kept from before, the replies are truthful if and only if a burning command that fails is for
the row whose number is its error code, a command after one that fails fails too, and so do all if an error was
kept. -/
theorem replies_truthful_iff (st : Loop) (cs : List Command) : (∀ r ∈ replies st cs, r.Truthful) ↔
      (∀ c ∈ cs, c.Burns → c.error ≠ .noError → c.args 0 = mbCode c.error) ∧
      cs.Pairwise (fun c d => c.error ≠ .noError → d.error ≠ .noError) ∧
      (st.mbStat ≠ mbStatSuccess → ∀ c ∈ cs, c.error ≠ .noError) := by
  induction cs generalizing st with
  | nil => simp [replies]
  | cons c cs ih =>
    obtain ⟨hreturned, hkept, hsuccess, herror⟩ := handle_spec st c
    rw [replies]
    rw [List.forall_mem_cons, ih, truthful_iff, hreturned, hkept]
    simp only [List.forall_mem_cons, List.pairwise_cons]
    by_cases hc : c.error = .noError
    · -- The command succeeds: what was kept is sent, and kept.
      rw [hsuccess hc, hc]
      simp only [mbCode]
      by_cases hst : st.mbStat = mbStatSuccess
      · simp [hst]
      · simp [hst]
    · have hne : mbCode c.error ≠ mbStatSuccess := fun h => hc (mbCode_eq_success.1 h)
      -- The command fails: what is sent is kept, and is the code of the error if the reply is truthful.
      have hsent : (handle st c).1.status = mbCode c.error ↔ (c.Burns → c.args 0 = mbCode c.error) := by
        by_cases hb : c.Burns
        · rw [(herror hc).1 hb]
          simp [hb]
        · rw [(herror hc).2 hb]
          simp [hb]
      rw [hsent]
      constructor
      · rintro ⟨hrow, hrows, hpairs, hall⟩
        rw [hsent.2 hrow] at hall
        exact ⟨⟨fun hb _ => hrow hb, hrows⟩, ⟨fun d hd _ => hall hne d hd, hpairs⟩, fun _ => ⟨hc, hall hne⟩⟩
      · rintro ⟨⟨hrow, hrows⟩, ⟨hfirst, hpairs⟩, _⟩
        exact ⟨fun hb => hrow hb hc, hrows, hpairs, fun _ d hd => hfirst d hd hc⟩

/-- From the start of `main`, every reply is truthful if and only if a command that burns fuses and fails is for
the row whose number is the code of its error, and no command that succeeds comes after one that fails. -/
theorem fuse_mailbox_truthful_iff (otp : Otp) (cs : List Command) : (∀ r ∈ replies (.start otp) cs, r.Truthful) ↔
      (∀ c ∈ cs, c.Burns → c.error ≠ .noError → c.args 0 = mbCode c.error) ∧
      cs.Pairwise fun c d => c.error ≠ .noError → d.error ≠ .noError := by
  rw [replies_truthful_iff]
  simp [Loop.start]

def blankOtp : Otp := ⟨fun _ => 0, false, []⟩

def words (l : List (BitVec 32)) : Args := fun i => l.getD i 0

/-- Two reads of a row, of which the first times out: the second is answered with a timeout. A write of row 0
that times out is answered with success. -/
theorem fuse_mailbox_stale : (replies (.start blankOtp)
        [⟨0x104, words [5], fun _ => false⟩, ⟨0x104, words [5], fun _ => true⟩]).map
          (fun r => (r.status, r.returned)) =
      [(mbStatTimeout, .timeout), (mbStatTimeout, .noError)] ∧
    (replies (.start blankOtp) [⟨0x204, words [0, 1], fun _ => false⟩]).map (fun r => (r.status, r.returned)) =
      [(mbStatSuccess, .timeout)] := by
  decide

end Armada3720.Wtmi
