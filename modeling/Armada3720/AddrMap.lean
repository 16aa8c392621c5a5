import Mathlib.Tactic

/-!
# Decode windows of the AP units

The CCU and IO window drivers of the Armada 8K (`ccu.c`, `io_win.c`): temporary windows, and the IO windows of the
platform map. A window has the registers ALR, AHR and CR; the model records which windows have been written to.

Removal advances in the list of the temporary windows only when it disables one, while the window numbers go on.
The check of the number of an IO window admits the number after the last.
-/

namespace Armada3720.AddrMap

open Function

/-! ## The code -/

/-- `struct addr_map_win`. -/
structure AddrMapWin where
  baseAddr : BitVec 64
  winSize : BitVec 64
  targetId : BitVec 32
deriving DecidableEq

structure WinRegs where
  alr : BitVec 32
  ahr : BitVec 32
  cr : BitVec 32
deriving DecidableEq

/-- The windows of a unit, its GCR, and the windows of which a register has been written. The GCR of the IO windows is
at 0x70 on the Armada 8K, also the place of the ALR of window 7, the number after the last. The model keeps the
two apart; that such a window is written shows in `written`. -/
structure Bank where
  regs : BitVec 32 → WinRegs
  gcr : BitVec 32
  written : List (BitVec 32)

def Bank.write (bank : Bank) (winId : BitVec 32) (regs : WinRegs) : Bank :=
  { bank with regs := update bank.regs winId regs, written := winId :: bank.written }

inductive Soc where
  | a8k
  | a8kp

def mvebuCcuMaxWins : Soc → BitVec 32
  | .a8k => 8
  | .a8kp => 5

def mvebuIoWinMaxWins : Soc → BitVec 32
  | .a8k => 7
  | .a8kp => 11

def alignUp (number align : BitVec 64) : BitVec 64 :=
  if number &&& (align - 1) ≠ 0 then (number + align) &&& ~~~(align - 1) else number

/-- The rounding of `ccu_win_check` and `io_win_check`. -/
def winCheck (win : AddrMapWin) : AddrMapWin :=
  { win with baseAddr := alignUp win.baseAddr 0x100000, winSize := alignUp win.winSize 0x100000 }

/-- An address as the drivers write it to ALR and AHR. -/
def addrReg (addr : BitVec 64) : BitVec 32 :=
  ((addr >>> 16) &&& 0xfffffff0#64).setWidth 32

/-- The two drivers refuse the same window numbers. -/
def badWin (maxWins winId : BitVec 32) : Bool :=
  winId = 0 ∨ winId > maxWins

/-- What the two drivers do not share: `enable` is `ccu_enable_win` or `io_win_enable_window`, `off` clears the enable bit,
and `holds` compares the target and the base of a window with an entry. -/
structure Driver where
  maxWins : BitVec 32
  enable : AddrMapWin → BitVec 32 → Bank → Bank
  enabled : WinRegs → Bool
  off : WinRegs → WinRegs
  holds : AddrMapWin → WinRegs → Bool
  maxWins_lt : maxWins.toNat < 2 ^ 31
  enabled_off : ∀ regs, enabled (off regs) = false

def ccuEnableWin (maxWins : BitVec 32) (win : AddrMapWin) (winId : BitVec 32) (bank : Bank) : Bank :=
  if badWin maxWins winId then bank
  else bank.write winId ⟨addrReg win.baseAddr, addrReg (win.baseAddr + win.winSize - 1),
    1 ||| (win.targetId &&& 0x7f) <<< 8⟩

/-- The registers of an enabled IO window for an entry. -/
def ioWinRegs (win : AddrMapWin) : WinRegs :=
  ⟨addrReg win.baseAddr ||| 1, addrReg (win.baseAddr + win.winSize - 1), win.targetId⟩

def ioWinEnableWindow (maxWins : BitVec 32) (win : AddrMapWin) (winNum : BitVec 32) (bank : Bank) : Bank :=
  if win.targetId ≥ maxWins then bank
  else if badWin maxWins winNum then bank
  else bank.write winNum (ioWinRegs win)

def ccu (soc : Soc) : Driver where
  maxWins := mvebuCcuMaxWins soc
  enable := ccuEnableWin (mvebuCcuMaxWins soc)
  enabled := fun regs => regs.cr.getLsbD 0
  off := fun regs => { regs with cr := regs.cr &&& ~~~1 }
  holds := fun win regs =>
    win.targetId = (regs.cr >>> 8) &&& 0x7f ∧ win.baseAddr = regs.alr.setWidth 64 <<< 16
  maxWins_lt := by cases soc <;> decide
  enabled_off := by simp

def ioWin (soc : Soc) : Driver where
  maxWins := mvebuIoWinMaxWins soc
  enable := ioWinEnableWindow (mvebuIoWinMaxWins soc)
  enabled := fun regs => regs.alr.getLsbD 0
  off := fun regs => { regs with alr := regs.alr &&& ~~~1 }
  holds := fun win regs => win.targetId = regs.cr ∧ win.baseAddr = (regs.alr.setWidth 64 &&& ~~~1) <<< 16
  maxWins_lt := by cases soc <;> decide
  enabled_off := by simp

namespace Driver

variable (driver : Driver) (wins : List AddrMapWin)

def disable (winId : BitVec 32) (bank : Bank) : Bank :=
  if badWin driver.maxWins winId then bank else bank.write winId (driver.off (bank.regs winId))

/-- The window of the temporary entry with an index. -/
def tempWinId (i : Nat) : BitVec 32 :=
  driver.maxWins - 1 - BitVec.ofNat 32 i

/-- The bank after the first turns of an insertion of windows that have been rounded. -/
def insertLoop (bank : Bank) : Nat → Bank
  | 0 => bank
  | i + 1 => wins[i]?.elim (insertLoop bank i) fun win => driver.enable win (driver.tempWinId i) (insertLoop bank i)

/-- The place in the list and the bank after the first turns of a removal. -/
def removeLoop (bank : Bank) : Nat → Nat × Bank
  | 0 => (0, bank)
  | i + 1 =>
    let (at', bank) := removeLoop bank i
    if wins[at']?.any (driver.holds · (bank.regs (driver.tempWinId i))) then
      (at' + 1, driver.disable (driver.tempWinId i) bank)
    else (at', bank)

/-- `ccu_temp_win_insert` and `iow_temp_win_insert`: the bank, and the list with its entries rounded. -/
def tempWinInsert (bank : Bank) : Bank × List AddrMapWin :=
  let wins := wins.map winCheck
  (driver.insertLoop wins bank wins.length, wins)

/-- `ccu_temp_win_remove` and `iow_temp_win_remove`. -/
def tempWinRemove (bank : Bank) : Bank :=
  (driver.removeLoop wins bank wins.length).2

end Driver

/-- `init_io_win`, with the platform map and the default target. -/
def initIoWin (soc : Soc) (map : List AddrMapWin) (gcrTarget : BitVec 32) (bank : Bank) : Bank :=
  if map.length > (mvebuIoWinMaxWins soc).toNat then bank
  else
    let bank := { bank with gcr := gcrTarget }
    let bank := (List.range' 1 ((mvebuIoWinMaxWins soc).toNat - 1)).foldl
      (fun bank winId => (ioWin soc).disable (BitVec.ofNat 32 winId) bank) bank
    (List.range' 1 map.length).foldl
      (fun bank winId => map[winId - 1]?.elim bank fun win =>
        (ioWin soc).enable (winCheck win) (BitVec.ofNat 32 winId) bank) bank

/-! ## Removal of temporary windows -/

theorem badWin_eq_false {maxWins winId : BitVec 32} (hpos : 0 < winId.toNat) (hle : winId.toNat ≤ maxWins.toNat) :
    badWin maxWins winId = false := by
  simp only [badWin, BitVec.lt_def, ← BitVec.toNat_inj, decide_eq_false_iff_not]
  change ¬ (_ = 0 ∨ _)
  omega

/-- A place goes on by one in the turns that hold at it. The turns agree with the diagonal if and only if those at the number
of earlier turns on the diagonal do. -/
theorem agree_iff_count {holds : Nat → Nat → Bool} {n : Nat} (place : Nat → Nat) (hstart : place 0 = 0)
    (hstep : ∀ i < n, place (i + 1) = place i + if holds (place i) i then 1 else 0) :
    ((∀ i < n, holds (place i) i = holds i i) ↔
      ∀ i < n, holds ((List.range i).countP fun k => holds k k) i = holds i i) ∧
    ((∀ i < n, holds (place i) i = holds i i) → place n = (List.range n).countP fun k => holds k k) := by
  induction n with
  | zero => simpa using hstart
  | succ n ih =>
    obtain ⟨hiff, hplace⟩ := ih fun i hi => hstep i (by omega)
    simp only [Nat.forall_lt_succ_right]
    rw [← hiff]
    refine ⟨and_congr_right fun h => by rw [hplace h], fun ⟨h, hheld⟩ => ?_⟩
    rw [hstep n (by omega), hheld, hplace h, List.range_succ, List.countP_append, List.countP_singleton]

namespace Driver

variable (driver : Driver) (wins : List AddrMapWin) (bank : Bank) {k n : Nat}

/-- The window of the entry with the index `i` holds the target and the base of the entry at `at'`. -/
def heldBy (at' i : Nat) : Bool :=
  wins[at']?.any (driver.holds · (bank.regs (driver.tempWinId i)))

theorem tempWinId_ne (hn : n < 2 ^ 31) (hk : k < 2 ^ 31) (hne : n ≠ k) : driver.tempWinId k ≠ driver.tempWinId n := by
  intro h
  have hnat := congrArg BitVec.toNat h
  simp only [tempWinId, BitVec.toNat_sub, BitVec.toNat_ofNat] at hnat
  omega

theorem badWin_tempWinId (hk : k + 1 < driver.maxWins.toNat) : badWin driver.maxWins (driver.tempWinId k) = false := by
  have hlt := driver.maxWins_lt
  have hnat : (driver.tempWinId k).toNat = driver.maxWins.toNat - 1 - k := by
    rw [tempWinId, BitVec.toNat_sub, BitVec.toNat_sub, BitVec.toNat_ofNat]
    change (2 ^ 32 - k % 2 ^ 32 + (2 ^ 32 - 1 + driver.maxWins.toNat) % 2 ^ 32) % 2 ^ 32 = _
    omega
  exact badWin_eq_false (by omega) (by omega)

/-- The window of an entry is written in its own turn, or not at all. -/
theorem removeLoop_window (hk : k + 1 < driver.maxWins.toNat) (hn : n ≤ 2 ^ 31) :
    let after := (driver.removeLoop wins bank n).2
    let winId := driver.tempWinId k
    let touched := k < n ∧ driver.heldBy wins bank (driver.removeLoop wins bank k).1 k = true
    (winId ∈ after.written ↔ winId ∈ bank.written ∨ touched) ∧
      after.regs winId = if touched then driver.off (bank.regs winId) else bank.regs winId := by
  induction n with
  | zero => simp [removeLoop]
  | succ n ih =>
    obtain ⟨hwritten, hregs⟩ := ih (by omega)
    by_cases hnk : n = k
    · subst hnk
      simp only [lt_irrefl, false_and, or_false, if_false] at hwritten hregs
      rw [removeLoop]
      simp only [heldBy, Nat.lt_succ_self, true_and]
      rw [hregs]
      split
      next hheld =>
        rw [disable, driver.badWin_tempWinId hk]
        simp [Bank.write, hheld, hregs]
      next hheld => simp [hheld, hwritten, hregs]
    · have hlt := driver.maxWins_lt
      have hne := driver.tempWinId_ne (show n < 2 ^ 31 by omega) (show k < 2 ^ 31 by omega) hnk
      simp only [show k < n + 1 ↔ k < n by omega]
      rw [removeLoop]
      dsimp only
      split
      · rw [disable]
        split
        · exact ⟨hwritten, hregs⟩
        · simp only [Bank.write, List.mem_cons, hne, false_or, update_of_ne hne]
          exact ⟨hwritten, hregs⟩
      · exact ⟨hwritten, hregs⟩

theorem removeLoop_place (hn : n + 1 < driver.maxWins.toNat) :
    (driver.removeLoop wins bank (n + 1)).1 = (driver.removeLoop wins bank n).1 +
      if driver.heldBy wins bank (driver.removeLoop wins bank n).1 n then 1 else 0 := by
  have hlt := driver.maxWins_lt
  have hregs := (driver.removeLoop_window wins bank hn (show n ≤ 2 ^ 31 by omega)).2
  simp only [lt_irrefl, false_and, if_false] at hregs
  rw [removeLoop]
  simp only [hregs]
  change (if driver.heldBy wins bank _ n = true then _ else _ : Nat × Bank).1 = _
  split <;> rfl

end Driver

/-- Someone else has written some of the windows; the log starts anew. -/
def Bank.reprogram (other : BitVec 32 → Option WinRegs) (bank : Bank) : Bank :=
  { bank with regs := fun winId => (other winId).getD (bank.regs winId), written := [] }

/-- After an insertion and changes by others, a removal disables the windows that hold the target and the base of their
entries and leaves the rest alone, if and only if each window holds its own entry exactly if it holds the one
whose index is the number of earlier windows that hold theirs. -/
theorem temp_win_remove_exact_iff (driver : Driver) (list : List AddrMapWin) (hsize : list.length < 2 ^ 31) (bank : Bank)
    (other : BitVec 32 → Option WinRegs) :
    let wins := (driver.tempWinInsert list bank).2
    let before := (driver.tempWinInsert list bank).1.reprogram other
    let after := driver.tempWinRemove wins before
    let held := driver.heldBy wins before
    (∀ i < wins.length, i + 1 < driver.maxWins.toNat →
      let winId := driver.tempWinId i
      if held i i then winId ∈ after.written ∧ driver.enabled (after.regs winId) = false
      else winId ∉ after.written ∧ after.regs winId = before.regs winId) ↔
    ∀ i < wins.length, i + 1 < driver.maxWins.toNat → held ((List.range i).countP fun k => held k k) i = held i i := by
  intro wins before after held
  have hsize : wins.length < 2 ^ 31 := by simpa [wins, Driver.tempWinInsert] using hsize
  have hlt : ∀ i, i < min wins.length (driver.maxWins.toNat - 1) ↔ i < wins.length ∧ i + 1 < driver.maxWins.toNat := by
    omega
  have hagree := (agree_iff_count (fun i => (driver.removeLoop wins before i).1) rfl
    fun i hi => driver.removeLoop_place wins before ((hlt i).1 hi).2).1
  simp only [hlt, and_imp] at hagree
  rw [← hagree]
  refine forall_congr' fun i => imp_congr_right fun hi => imp_congr_right fun himax => ?_
  obtain ⟨hwritten, hregs⟩ := driver.removeLoop_window wins before himax hsize.le
  have hlog : before.written = [] := rfl
  simp only [hlog, List.not_mem_nil, false_or, hi, true_and] at hwritten hregs
  dsimp only [after, Driver.tempWinRemove]
  rw [hwritten, hregs]
  by_cases hown : held i i = true <;>
    by_cases hturn : driver.heldBy wins before (driver.removeLoop wins before i).1 i = true <;>
      simp [show driver.heldBy wins before i i = held i i from rfl, hown, hturn, driver.enabled_off]

def blankBank : Bank := ⟨fun _ => ⟨0, 0, 0⟩, 0, []⟩

def oneMegabyte (targetId : BitVec 32) : AddrMapWin := ⟨0x100000, 0x100000, targetId⟩

/-- The window of the second entry has been cleared by someone else. -/
theorem temp_win_remove_exact_two :
    let wins := [oneMegabyte 3, oneMegabyte 4]
    let before := ((ccu .a8k).tempWinInsert wins blankBank).1.reprogram fun winId =>
      if winId = 6 then some ⟨0, 0, 0⟩ else none
    let after := (ccu .a8k).tempWinRemove wins before
    (7 ∈ after.written ∧ (ccu .a8k).enabled (after.regs 7) = false) ∧ 6 ∉ after.written := by
  have h := (temp_win_remove_exact_iff (ccu .a8k) [oneMegabyte 3, oneMegabyte 4] (by decide) blankBank
    fun winId => if winId = 6 then some ⟨0, 0, 0⟩ else none).2 (by decide +kernel)
  have h0 := h 0 (by decide) (by decide)
  have h1 := h 1 (by decide) (by decide)
  dsimp only at h0 h1
  rw [if_pos (by decide +kernel)] at h0
  rw [if_neg (by decide +kernel)] at h1
  exact ⟨h0, h1.1⟩

/-- The window of the first entry has been cleared, so that of the second is compared with the first entry and stays
enabled. -/
theorem temp_win_remove_skips_later :
    let wins := [oneMegabyte 3, oneMegabyte 4]
    let before := ((ccu .a8k).tempWinInsert wins blankBank).1.reprogram fun winId =>
      if winId = 7 then some ⟨0, 0, 0⟩ else none
    (ccu .a8k).holds (oneMegabyte 4) (before.regs 6) = true ∧
      (ccu .a8k).enabled (((ccu .a8k).tempWinRemove wins before).regs 6) = true := by
  decide +kernel

/-! ## The IO windows of the platform map -/

section IoWin

variable {addr : BitVec 64} {soc : Soc} {map : List AddrMapWin} {bank : Bank}

/-- The first address of an IO window. -/
def ioWinBase (regs : WinRegs) : BitVec 64 := (regs.alr &&& ~~~1).setWidth 64 <<< 16

/-- The last address of an IO window, whose last megabyte is in AHR. -/
def ioWinEnd (regs : WinRegs) : BitVec 64 := regs.ahr.setWidth 64 <<< 16 ||| 0xfffff

theorem addrReg_shiftLeft (h : addr < 0x1000000000000) :
    (addrReg addr).setWidth 64 <<< 16 = addr &&& ~~~0xfffff := by
  have hhigh : ∀ i, 48 ≤ i → addr.getLsbD i = false := fun i hi =>
    Nat.testBit_lt_two_pow (Nat.lt_of_lt_of_le h (Nat.pow_le_pow_right (by decide : 2 > 0) hi))
  have hlow : ∀ i, (0xfffff#64).getLsbD i = decide (i < 20) := fun i => by
    rw [show 0xfffff#64 = BitVec.ofNat 64 (2 ^ 20 - 1) from rfl, BitVec.getLsbD_ofNat, Nat.testBit_two_pow_sub_one]
    grind
  have hmask : ∀ i, (0xfffffff0#64).getLsbD i = decide (4 ≤ i ∧ i < 32) := fun i => by
    rw [show 0xfffffff0#64 = BitVec.ofNat 64 ((2 ^ 28 - 1) <<< 4) from rfl, BitVec.getLsbD_ofNat, Nat.testBit_shiftLeft,
      Nat.testBit_two_pow_sub_one]
    grind
  apply BitVec.eq_of_getLsbD_eq
  intro i hi
  simp only [addrReg, BitVec.getLsbD_shiftLeft, BitVec.getLsbD_setWidth, BitVec.getLsbD_and, BitVec.getLsbD_ushiftRight,
    BitVec.getLsbD_not, hmask, hi]
  change _ = (addr.getLsbD i && (true && !(0xfffff#64).getLsbD i))
  rw [hlow]
  grind

theorem and_not_or_and {w : Nat} (x mask : BitVec w) : (x &&& ~~~mask) ||| (x &&& mask) = x := by
  ext i hi
  cases hx : x[i] <;> cases hm : mask[i] <;> simp [hx, hm]

theorem toNat_and_mask (addr : BitVec 64) : (addr &&& 0xfffff).toNat = addr.toNat % 2 ^ 20 := by
  rw [BitVec.toNat_and]
  exact Nat.and_two_pow_sub_one_eq_mod _ 20

theorem alignUp_and (addr : BitVec 64) : alignUp addr 0x100000 &&& 0xfffff = 0 := by
  unfold alignUp
  split
  · rw [BitVec.and_assoc, BitVec.and_comm _ 0xfffff]
    change _ &&& (0xfffff &&& ~~~0xfffff) = 0
    simp
  next h => exact not_not.1 h

theorem addrReg_or_and (addr : BitVec 64) : (addrReg addr ||| 1) &&& ~~~1 = addrReg addr := by
  have hzero : addrReg addr &&& 1 = 0#32 := by
    rw [addrReg, BitVec.setWidth_and, BitVec.and_assoc]
    change _ &&& 0#32 = 0
    simp
  have hsplit := and_not_or_and (addrReg addr) 1
  rw [hzero, BitVec.or_zero] at hsplit
  rw [BitVec.and_comm, BitVec.and_or_distrib_left, BitVec.and_comm, hsplit]
  change _ ||| 0#32 = _
  simp

variable {win : AddrMapWin}

theorem ioWinBase_regs (hbase : win.baseAddr &&& 0xfffff = 0#64) (h : win.baseAddr < 0x1000000000000) :
    ioWinBase (ioWinRegs win) = win.baseAddr := by
  have hsplit := and_not_or_and win.baseAddr 0xfffff
  rw [ioWinBase, ioWinRegs, addrReg_or_and, addrReg_shiftLeft h]
  rwa [hbase, BitVec.or_zero] at hsplit

theorem ioWinEnd_regs (hbase : win.baseAddr &&& 0xfffff = 0#64) (hsize : win.winSize &&& 0xfffff = 0#64)
    (h : win.baseAddr + win.winSize - 1 < 0x1000000000000) :
    ioWinEnd (ioWinRegs win) = win.baseAddr + win.winSize - 1 := by
  have hlast : win.baseAddr + win.winSize - 1 &&& 0xfffff = 0xfffff := by
    apply BitVec.eq_of_toNat_eq
    have hbase := congrArg BitVec.toNat hbase
    have hsize := congrArg BitVec.toNat hsize
    rw [toNat_and_mask] at hbase hsize ⊢
    change _ = 2 ^ 20 - 1
    change _ = 0 at hbase hsize
    rw [BitVec.toNat_sub, BitVec.toNat_add]
    change (2 ^ 64 - 1 + _) % 2 ^ 64 % _ = _
    omega
  have hsplit := and_not_or_and (win.baseAddr + win.winSize - 1) 0xfffff
  rw [hlast] at hsplit
  rwa [ioWinEnd, ioWinRegs, addrReg_shiftLeft h]

/-- Windows with consecutive numbers are written. -/
def writeAll (first n : Nat) (f : Nat → WinRegs → WinRegs) (bank : Bank) : Bank :=
  (List.range' first n).foldl
    (fun bank k => bank.write (BitVec.ofNat 32 k) (f k (bank.regs (BitVec.ofNat 32 k)))) bank

theorem writeAll_spec (first n : Nat) (f : Nat → WinRegs → WinRegs) (bank : Bank) (hlt : first + n < 2 ^ 32)
    (winId : BitVec 32) :
    (writeAll first n f bank).regs winId =
        (if first ≤ winId.toNat ∧ winId.toNat < first + n then f winId.toNat (bank.regs winId) else bank.regs winId) ∧
      (winId ∈ (writeAll first n f bank).written →
        winId ∈ bank.written ∨ first ≤ winId.toNat ∧ winId.toNat < first + n) := by
  induction n generalizing first bank with
  | zero => exact ⟨(if_neg (by omega)).symm, .inl⟩
  | succ n ih =>
    obtain ⟨hregs, hwritten⟩ := ih (first + 1)
      (bank.write (BitVec.ofNat 32 first) (f first (bank.regs (BitVec.ofNat 32 first)))) (by omega)
    have hfirst : winId = BitVec.ofNat 32 first ↔ winId.toNat = first := by
      rw [← BitVec.toNat_inj, BitVec.toNat_ofNat, Nat.mod_eq_of_lt (by omega)]
    unfold writeAll at hregs hwritten ⊢
    rw [List.range'_succ, List.foldl_cons]
    constructor
    · rw [hregs]
      simp only [Bank.write, update_apply, hfirst]
      grind
    · intro h
      rcases hwritten h with h | h
      · rcases List.mem_cons.1 h with h | h
        · have := hfirst.1 h
          omega
        · exact .inl h
      · omega

/-- An IO window is enabled and shows an entry. -/
def IoWinShows (regs : WinRegs) (win : AddrMapWin) : Prop :=
  regs.alr.getLsbD 0 = true ∧ ioWinBase regs = win.baseAddr ∧
    ioWinEnd regs = win.baseAddr + win.winSize - 1 ∧ regs.cr = win.targetId

/-- The windows that are enabled are those of the map, window 0 apart, and no other register has been written. -/
structure IoWinsProgrammed (maxWins : BitVec 32) (map : List AddrMapWin) (before after : Bank) : Prop where
  shows : ∀ k win, map[k]? = some win →
    k + 1 < maxWins.toNat ∧ IoWinShows (after.regs (BitVec.ofNat 32 (k + 1))) (winCheck win)
  others : ∀ winId : BitVec 32, map.length < winId.toNat → winId < maxWins → (after.regs winId).alr.getLsbD 0 = false
  window0 : after.regs 0 = before.regs 0
  inside : ∀ winId ∈ after.written, winId < maxWins

/-- The target of an entry is valid, and its rounded addresses fit the registers. -/
def Fits (maxWins : BitVec 32) (win : AddrMapWin) : Prop :=
  win.targetId < maxWins ∧ (winCheck win).baseAddr < 0x1000000000000 ∧
    (winCheck win).baseAddr + (winCheck win).winSize - 1 < 0x1000000000000

theorem initIoWin_eq (gcrTarget : BitVec 32) (hcount : map.length < (mvebuIoWinMaxWins soc).toNat)
    (hvalid : ∀ win ∈ map, Fits (mvebuIoWinMaxWins soc) win) :
    initIoWin soc map gcrTarget bank =
      writeAll 1 map.length (fun k regs => map[k - 1]?.elim regs fun win => ioWinRegs (winCheck win))
        (writeAll 1 ((mvebuIoWinMaxWins soc).toNat - 1) (fun _ => (ioWin soc).off) { bank with gcr := gcrTarget }) := by
  have hgood : ∀ k, 0 < k → k < (mvebuIoWinMaxWins soc).toNat →
      badWin (mvebuIoWinMaxWins soc) (BitVec.ofNat 32 k) = false := by
    intro k hpos hk
    have hnat : (BitVec.ofNat 32 k).toNat = k := Nat.mod_eq_of_lt (hk.trans (mvebuIoWinMaxWins soc).isLt)
    exact badWin_eq_false (by omega) (by omega)
  rw [initIoWin, if_neg (by omega)]
  have hdisable : ∀ bank, (List.range' 1 ((mvebuIoWinMaxWins soc).toNat - 1)).foldl
      (fun bank winId => (ioWin soc).disable (BitVec.ofNat 32 winId) bank) bank =
        writeAll 1 ((mvebuIoWinMaxWins soc).toNat - 1) (fun _ => (ioWin soc).off) bank := by
    refine fun bank => List.foldl_ext _ _ _ fun bank k hk => ?_
    rw [List.mem_range'_1] at hk
    exact if_neg (Bool.eq_false_iff.1 (hgood k (by omega) (by omega)))
  dsimp only
  rw [hdisable]
  refine List.foldl_ext _ _ _ fun bank k hk => ?_
  rw [List.mem_range'_1] at hk
  have hget := List.getElem?_eq_getElem (show k - 1 < map.length by omega)
  have htarget : ¬ (winCheck map[k - 1]).targetId ≥ mvebuIoWinMaxWins soc :=
    BitVec.not_le.2 (hvalid _ (List.mem_of_getElem? hget)).1
  dsimp only
  rw [hget]
  exact (if_neg htarget).trans (if_neg (Bool.eq_false_iff.1 (hgood k (by omega) (by omega))))

/-- The windows are programmed as the map says, and no register outside is written, if and only if the map has fewer entries
than there are windows. -/
theorem init_io_win_exact_iff (soc : Soc) (map : List AddrMapWin) (gcrTarget : BitVec 32) (bank : Bank)
    (hlog : bank.written = []) (hcount : map.length ≤ (mvebuIoWinMaxWins soc).toNat)
    (hvalid : ∀ win ∈ map, Fits (mvebuIoWinMaxWins soc) win) :
    IoWinsProgrammed (mvebuIoWinMaxWins soc) map bank (initIoWin soc map gcrTarget bank) ↔
      map.length < (mvebuIoWinMaxWins soc).toNat := by
  have hpos : 0 < (mvebuIoWinMaxWins soc).toNat := by
    cases soc <;> decide
  constructor
  · intro h
    by_contra hge
    have := (h.shows (map.length - 1) _ (List.getElem?_eq_getElem (by omega))).1
    omega
  · intro hlt
    have hmax := (mvebuIoWinMaxWins soc).isLt
    rw [initIoWin_eq gcrTarget hlt hvalid]
    have houter := writeAll_spec 1 map.length (fun k regs => map[k - 1]?.elim regs fun win => ioWinRegs (winCheck win))
      (writeAll 1 ((mvebuIoWinMaxWins soc).toNat - 1) (fun _ => (ioWin soc).off) { bank with gcr := gcrTarget }) (by omega)
    have hinner := writeAll_spec 1 ((mvebuIoWinMaxWins soc).toNat - 1) (fun _ => (ioWin soc).off)
      { bank with gcr := gcrTarget } (by omega)
    refine ⟨fun k win hget => ?_, fun winId hlength hid => ?_, ?_, fun winId hmem => ?_⟩
    · have hk := (List.getElem?_eq_some_iff.1 hget).1
      have hnat : (BitVec.ofNat 32 (k + 1)).toNat = k + 1 := Nat.mod_eq_of_lt (by omega)
      obtain ⟨-, hbase, hend⟩ := hvalid win (List.mem_of_getElem? hget)
      refine ⟨by omega, ?_⟩
      rw [(houter _).1, hnat, if_pos (by omega), Nat.add_sub_cancel, hget]
      exact ⟨by simp [ioWinRegs], ioWinBase_regs (alignUp_and _) hbase,
        ioWinEnd_regs (alignUp_and _) (alignUp_and _) hend, rfl⟩
    · rw [(houter _).1, if_neg (by omega), (hinner _).1, if_pos (by rw [BitVec.lt_def] at hid; omega)]
      exact (ioWin soc).enabled_off _
    · have hzero : (0 : BitVec 32).toNat = 0 := rfl
      rw [(houter _).1, if_neg (by omega), (hinner _).1, if_neg (by omega)]
    · rw [BitVec.lt_def]
      rcases (houter _).2 hmem with hmem | hrange
      · rcases (hinner _).2 hmem with hmem | hrange
        · rw [hlog] at hmem
          cases hmem
        · omega
      · omega

theorem init_io_win_exact_two :
    IoWinsProgrammed 7 [oneMegabyte 3, ⟨0x200000, 0x80000, 2⟩] blankBank
      (initIoWin .a8k [oneMegabyte 3, ⟨0x200000, 0x80000, 2⟩] 0 blankBank) :=
  (init_io_win_exact_iff .a8k [oneMegabyte 3, ⟨0x200000, 0x80000, 2⟩] 0 blankBank rfl (by decide) (by
    intro win hwin
    rw [Fits]
    rcases List.mem_pair.1 hwin with rfl | rfl <;> decide +kernel)).2 (by decide)

/-- Seven entries pass the check, and the last is written behind the seven windows. -/
theorem init_io_win_leaves_windows :
    (List.replicate 7 (oneMegabyte 3)).length ≤ (mvebuIoWinMaxWins .a8k).toNat ∧
      7 ∈ (initIoWin .a8k (List.replicate 7 (oneMegabyte 3)) 0 blankBank).written := by
  decide +kernel

end IoWin

end Armada3720.AddrMap
