import Armada3720.SpiFlash.Driver

/-!
# The flash as a linear byte array

`clean_bar` sets the bank register to 0 but leaves `bank_curr`. If the next operation begins in that bank, it
works on bank 0 instead. In runs without such an operation the driver is a linear array of bytes, and no program
command crosses a page boundary.
-/

namespace Armada3720.SpiFlash

open Lib FlashOp

/-- The first `write_bar` of an operation at `offset` sets the bank register right. -/
def Ready (st : State) (offset : Nat) : Prop :=
  offset / bankSize ≠ st.bankCurr ∨ st.bank = st.bankCurr

/-- No program command crosses a page boundary. -/
def InPages (chip : Chip) (log : List Command) : Prop :=
  ∀ addr bytes, Command.program addr bytes ∈ log →
    addr24 addr % chip.pageSize + bytes.length ≤ chip.pageSize

section Loops

variable {chip : Chip} {st : State} {offset : Nat}

theorem addr24_spiFlashAddr (offset : Nat) : addr24 (spiFlashAddr offset) = offset % bankSize := by
  unfold addr24 spiFlashAddr bankSize
  simp only
  omega

/-- After `write_bar` the command addresses mean what they should. -/
structure Selected (chip : Chip) (st st' : State) (offset : Nat) : Prop where
  flash : st'.flash = st.flash
  bank : st'.bank = offset / bankSize
  bankCurr : st'.bankCurr = offset / bankSize
  place : st'.place (spiFlashAddr offset) = offset
  inPages : InPages chip st.log → InPages chip st'.log

theorem writeBar_selected (hready : Ready st offset) (hoff : offset < 2 ^ 32) :
    Selected chip st (writeBar chip st offset) offset := by
  have hbank : offset / bankSize % 256 = offset / bankSize := by
    unfold bankSize
    omega
  have hplace : offset / bankSize * bankSize + addr24 (spiFlashAddr offset) = offset := by
    rw [addr24_spiFlashAddr]
    exact Nat.div_add_mod' offset bankSize
  unfold writeBar
  rw [hbank]
  simp only
  split
  · next heq =>
    have hsame : st.bank = offset / bankSize := by
      rw [heq]
      exact hready.resolve_left (not_not.mpr heq)
    exact ⟨rfl, hsame, heq.symm, by rw [State.place, hsame]; exact hplace, id⟩
  · refine ⟨rfl, rfl, rfl, hplace, fun h addr bytes hmem => h addr bytes ?_⟩
    simpa [exec_log] using hmem

theorem Selected.ready {st' : State} {cmd : Command} (h : Selected chip st st' offset)
    (hcmd : cmd.bank st'.bank = st'.bank) (next : Nat) : Ready (st'.exec chip cmd) next := by
  refine Or.inr ?_
  rw [exec_bank, exec_bankCurr, hcmd, h.bank, h.bankCurr]

theorem Selected.inPages_exec {st' : State} {cmd : Command} (h : Selected chip st st' offset)
    (hlog : InPages chip st.log)
    (hcmd : ∀ addr bytes, cmd = .program addr bytes →
      addr24 addr % chip.pageSize + bytes.length ≤ chip.pageSize) :
    InPages chip (st'.exec chip cmd).log := by
  intro addr bytes hmem
  rcases List.mem_append.mp hmem with hmem | hmem
  · exact h.inPages hlog addr bytes hmem
  · exact hcmd addr bytes (List.mem_singleton.mp hmem).symm

theorem cleanBar_flash : (cleanBar chip st).flash = st.flash := by
  unfold cleanBar
  split <;> rfl

theorem cleanBar_inPages (h : InPages chip st.log) : InPages chip (cleanBar chip st).log := by
  unfold cleanBar
  split
  · exact h
  · intro addr bytes hmem
    refine h addr bytes ?_
    simpa [exec_log] using hmem

/-! ## Erasing -/

theorem erase_append (f : Flash) (off m n : Nat) :
    apply (apply f (.erase off m)) (.erase (off + m) n) =
      apply f (.erase off (m + n)) := by
  funext a
  simp only [apply]
  by_cases h1 : off ≤ a ∧ a < off + m
  · rw [if_neg (by omega), if_pos h1, if_pos (by omega)]
  · by_cases h2 : off + m ≤ a ∧ a < off + m + n
    · rw [if_pos h2, if_pos (by omega)]
    · rw [if_neg h2, if_neg h1, if_neg (by omega)]

/-- Sector by sector, the range is erased and nothing else. -/
theorem eraseLoop_spec {fuel len : Nat} (hready : len ≠ 0 → Ready st offset)
    (hoff : offset % chip.eraseSize = 0) (hlen : len % chip.eraseSize = 0) (hfuel : len ≤ fuel)
    (hend : offset + len ≤ chip.size) (hlog : InPages chip st.log) :
    ∃ st', eraseLoop chip fuel st offset len = some st' ∧
      st'.flash = apply st.flash (.erase offset len) ∧ InPages chip st'.log := by
  have hpos := chip.erase_pos
  have hsize := chip.size_lt
  induction fuel generalizing st offset len with
  | zero =>
    obtain rfl : len = 0 := by omega
    refine ⟨st, rfl, ?_, hlog⟩
    funext a
    exact (if_neg (by omega)).symm
  | succ fuel ih =>
    rw [eraseLoop]
    split
    · next hzero =>
      refine ⟨st, rfl, ?_, hlog⟩
      funext a
      exact (if_neg (by omega)).symm
    · next hne =>
      have hle : chip.eraseSize ≤ len := Nat.le_of_dvd (by omega) (Nat.dvd_of_mod_eq_zero hlen)
      have hsel : Selected chip st (writeBar chip st offset) offset :=
        writeBar_selected (hready hne) (by omega)
      generalize writeBar chip st offset = st1 at hsel ⊢
      have hblock : offset / chip.eraseSize * chip.eraseSize = offset :=
        Nat.div_mul_cancel (Nat.dvd_of_mod_eq_zero hoff)
      obtain ⟨st', hrun, hflash, hlog'⟩ := @ih (st1.exec chip (.erase (spiFlashAddr offset)))
        (offset + chip.eraseSize) (len - chip.eraseSize)
        (fun _ => hsel.ready rfl _) (by rw [Nat.add_mod_right]; exact hoff)
        (by rw [← Nat.mod_eq_sub_mod hle]; exact hlen) (by omega) (by omega)
        (hsel.inPages_exec hlog fun addr bytes hcmd => nomatch hcmd)
      refine ⟨st', hrun, ?_, hlog'⟩
      rw [hflash, exec_flash, State.contents, hsel.place, hblock, hsel.flash, erase_append, Nat.add_sub_cancel' hle]

/-! ## Writing -/

theorem program_nil (f : Flash) (off : Nat) : apply f (.program off []) = f := by
  funext a
  exact if_neg (by simp only [List.length_nil]; omega)

theorem program_cons (f : Flash) (off : Nat) (b : UInt8) (bytes : List UInt8) :
    apply (Function.update f off (f off &&& b)) (.program (off + 1) bytes) =
      apply f (.program off (b :: bytes)) := by
  funext a
  simp only [apply, List.length_cons]
  rcases Nat.lt_trichotomy a off with hlt | rfl | hgt
  · rw [if_neg (by omega), if_neg (by omega), Function.update_of_ne hlt.ne]
  · rw [if_neg (by omega), if_pos (by omega), Function.update_self, Nat.sub_self, List.getD_cons_zero]
  · obtain ⟨i, rfl⟩ : ∃ i, a = off + 1 + i := ⟨a - (off + 1), by omega⟩
    rw [Function.update_of_ne hgt.ne', show off + 1 + i - off = i + 1 by omega, List.getD_cons_succ,
      Nat.add_sub_cancel_left]
    by_cases hin : i < bytes.length
    · rw [if_pos (by omega), if_pos (by omega)]
    · rw [if_neg (by omega), if_neg (by omega)]

theorem program_append (f : Flash) (off : Nat) (bytes bytes' : List UInt8) :
    apply (apply f (.program off bytes)) (.program (off + bytes.length) bytes') =
      apply f (.program off (bytes ++ bytes')) := by
  induction bytes generalizing f off with
  | nil => rw [program_nil, List.length_nil, Nat.add_zero, List.nil_append]
  | cons b bytes ih =>
    rw [← program_cons, List.length_cons, Nat.add_comm bytes.length, ← Nat.add_assoc, ih,
      List.cons_append, program_cons]

theorem programPage_eq (page pageSize col : Nat) (bytes : List UInt8) (f : Flash)
    (h : col + bytes.length ≤ pageSize) :
    programPage page pageSize col bytes f = apply f (.program (page + col) bytes) := by
  induction bytes generalizing col f with
  | nil => rw [programPage, program_nil]
  | cons b bytes ih =>
    rw [List.length_cons] at h
    rw [programPage, Nat.mod_eq_of_lt (by omega), ih _ _ (by omega), ← Nat.add_assoc, program_cons]

theorem chunkLen_spec (offset : Nat) {left : Nat} (hleft : 0 < left) (hmax : chip.maxWriteSize ≠ cmdLen) :
    0 < chunkLen chip offset left ∧ chunkLen chip offset left ≤ left ∧
      offset % chip.pageSize + chunkLen chip offset left ≤ chip.pageSize := by
  have hpage := Nat.mod_lt offset chip.page_pos
  have hlt := chip.write_lt
  unfold cmdLen at hmax
  unfold chunkLen cmdLen
  simp only
  split <;> omega

/-- Chunk by chunk, each within one page. -/
theorem writeLoop_spec {fuel : Nat} {left : List UInt8} (hready : left ≠ [] → Ready st offset)
    (hmax : left ≠ [] → chip.maxWriteSize ≠ cmdLen) (hfuel : left.length ≤ fuel)
    (hend : offset + left.length ≤ chip.size) (hlog : InPages chip st.log) :
    ∃ st', writeLoop chip fuel st offset left = some st' ∧
      st'.flash = apply st.flash (.program offset left) ∧ InPages chip st'.log := by
  have hsize := chip.size_lt
  induction fuel generalizing st offset left with
  | zero =>
    obtain rfl : left = [] := List.length_eq_zero_iff.mp (by omega)
    exact ⟨st, rfl, (program_nil _ _).symm, hlog⟩
  | succ fuel ih =>
    rw [writeLoop]
    split
    · next hnil =>
      subst hnil
      exact ⟨st, rfl, (program_nil _ _).symm, hlog⟩
    · next hne =>
      have hpos : 0 < left.length := List.length_pos_iff.mpr hne
      obtain ⟨hc, hcle, hcpage⟩ := chunkLen_spec offset hpos (hmax hne)
      have hsel : Selected chip st (writeBar chip st offset) offset :=
        writeBar_selected (hready hne) (by omega)
      have htake : (left.take (chunkLen chip offset left.length)).length =
          chunkLen chip offset left.length := by
        rw [List.length_take, Nat.min_eq_left hcle]
      generalize writeBar chip st offset = st1 at hsel ⊢
      obtain ⟨st', hrun, hflash, hlog'⟩ := @ih
        (st1.exec chip (.program (spiFlashAddr offset) (left.take (chunkLen chip offset left.length))))
        (offset + chunkLen chip offset left.length) (left.drop (chunkLen chip offset left.length))
        (fun _ => hsel.ready rfl _) (fun _ => hmax hne)
        (by rw [List.length_drop]; omega) (by rw [List.length_drop]; omega)
        (hsel.inPages_exec hlog fun addr bytes hcmd => by
          cases hcmd
          rw [addr24_spiFlashAddr, Nat.mod_mod_of_dvd _ chip.page_dvd, htake]
          exact hcpage)
      refine ⟨st', hrun, ?_, hlog'⟩
      have happ := program_append st.flash offset (left.take (chunkLen chip offset left.length))
        (left.drop (chunkLen chip offset left.length))
      rw [htake, List.take_append_drop] at happ
      rw [hflash, exec_flash, State.contents, hsel.place, hsel.flash,
        programPage_eq _ _ _ _ _ (by rw [htake]; exact hcpage), Nat.div_add_mod', happ]

/-! ## Reading -/

theorem read_append (f : Flash) (off m n : Nat) :
    f.read off m ++ f.read (off + m) n = f.read off (m + n) := by
  unfold Flash.read
  rw [List.range_add, List.map_append, List.map_map]
  congr 2
  funext i
  rw [Function.comp_apply, Nat.add_assoc]

theorem readLen_spec (chip : Chip) {len : Nat} (hlen : 0 < len) (hoff : offset < 2 ^ 32) :
    0 < readLen chip (offset / bankSize) offset len ∧
      readLen chip (offset / bankSize) offset len ≤ len ∧
      offset % bankSize + readLen chip (offset / bankSize) offset len ≤ bankSize := by
  have hremain : (bankSize * (offset / bankSize + 1) + (2 ^ 32 - offset)) % 2 ^ 32 =
      bankSize - offset % bankSize := by
    unfold bankSize
    omega
  have hmod : offset % bankSize < bankSize := Nat.mod_lt _ (by decide)
  unfold readLen
  simp only [hremain]
  split <;> split <;> omega

theorem answer_eq {n : Nat} (hbank : st.bank = offset / bankSize)
    (hn : offset % bankSize + n ≤ bankSize) : st.answer (spiFlashAddr offset) n = st.flash.read offset n := by
  refine List.map_congr_left fun i hi => ?_
  have hi := List.mem_range.mp hi
  have hdiv := Nat.div_add_mod' offset bankSize
  rw [addr24_spiFlashAddr, Nat.mod_eq_of_lt (by omega), hbank, ← Nat.add_assoc, hdiv]

/-- Bank by bank. -/
theorem readLoop_spec {fuel len : Nat} (hready : len ≠ 0 → Ready st offset) (hfuel : len ≤ fuel)
    (hend : offset + len ≤ chip.size) (hlog : InPages chip st.log) :
    ∃ st', readLoop chip fuel st offset len = some (st', st.flash.read offset len) ∧
      st'.flash = st.flash ∧ InPages chip st'.log := by
  have hsize := chip.size_lt
  induction fuel generalizing st offset len with
  | zero =>
    obtain rfl : len = 0 := by omega
    exact ⟨st, rfl, rfl, hlog⟩
  | succ fuel ih =>
    rw [readLoop]
    split
    · next hzero =>
      subst hzero
      exact ⟨st, rfl, rfl, hlog⟩
    · next hne =>
      have hsel : Selected chip st (writeBar chip st offset) offset :=
        writeBar_selected (hready hne) (by omega)
      obtain ⟨hn, hnle, hnbank⟩ := readLen_spec chip (Nat.pos_of_ne_zero hne) (by omega : offset < 2 ^ 32)
      generalize writeBar chip st offset = st1 at hsel ⊢
      rw [← hsel.bankCurr] at hn hnle hnbank
      obtain ⟨st', hrun, hflash, hlog'⟩ := @ih
        (st1.exec chip (.read (spiFlashAddr offset) (readLen chip st1.bankCurr offset len)))
        (offset + readLen chip st1.bankCurr offset len) (len - readLen chip st1.bankCurr offset len)
        (fun _ => hsel.ready rfl _) (by omega) (by omega)
        (hsel.inPages_exec hlog fun addr bytes hcmd => nomatch hcmd)
      rw [exec_flash, contents_read, hsel.flash] at hrun hflash
      refine ⟨st', ?_, hflash, hlog'⟩
      simp only [hrun, Option.map_some, answer_eq hsel.bank hnbank]
      rw [hsel.flash, read_append, Nat.add_sub_cancel' hnle]

end Loops

/-! ## Runs -/

inductive Op
  | read (offset len : Nat)
  | write (offset : Nat) (buf : List UInt8)
  | erase (offset len : Nat)

def Op.run (chip : Chip) (st : State) : Op → Option (State × Int × List UInt8)
  | .read offset len => spiFlashCmdReadOps chip st offset len
  | .write offset buf => (spiFlashCmdWriteOps chip st offset buf).map fun q => (q.1, q.2, [])
  | .erase offset len => (spiFlashCmdEraseOps chip st offset len).map fun q => (q.1, q.2, [])

/-- What the operation means for a linear array of bytes. -/
def Op.effect (f : Flash) : Op → Flash
  | .read _ _ => f
  | .write offset buf => FlashOp.apply f (.program offset buf)
  | .erase offset len => FlashOp.apply f (.erase offset len)

/-- The bytes that the operation returns from a linear array. -/
def Op.data (f : Flash) : Op → List UInt8
  | .read offset len => f.read offset len
  | _ => []

/-- The range lies in the flash and is not protected, and erases are aligned. -/
def Op.Allowed (chip : Chip) : Op → Prop
  | .read offset len => offset + len ≤ chip.size
  | .write offset buf => offset + buf.length ≤ chip.size ∧
      chip.flashIsLocked offset buf.length = false
  | .erase offset len => offset + len ≤ chip.size ∧ offset % chip.eraseSize = 0 ∧
      len % chip.eraseSize = 0 ∧ chip.flashIsLocked offset len = false

/-- The operation does not begin in the bank that `bank_curr` names while the register holds another one; a
write has room for data behind its command. -/
def Op.Safe (chip : Chip) (st : State) : Op → Prop
  | .read offset len => chip.memoryMap = true ∨ len = 0 ∨ Ready st offset
  | .write offset buf => buf = [] ∨ Ready st offset ∧ chip.maxWriteSize ≠ cmdLen
  | .erase offset len => len = 0 ∨ Ready st offset

section Runs

variable {chip : Chip} {st st₀ : State} {f : Flash}

/-- A safe operation does to the flash what it means. -/
theorem Op.run_spec (op : Op) (hallow : op.Allowed chip) (hsafe : op.Safe chip st)
    (hlog : InPages chip st.log) : ∃ st', op.run chip st = some (st', 0, op.data st.flash) ∧
      st'.flash = op.effect st.flash ∧ InPages chip st'.log := by
  cases op with
  | read offset len =>
    rw [Op.run, spiFlashCmdReadOps]
    split
    · exact ⟨st, rfl, rfl, hlog⟩
    · next hmap =>
      obtain ⟨st', hrun, hflash, hlog'⟩ := readLoop_spec
        (fun hne => (hsafe.resolve_left hmap).resolve_left hne) le_rfl hallow hlog
      exact ⟨cleanBar chip st', by rw [hrun]; rfl, cleanBar_flash.trans hflash, cleanBar_inPages hlog'⟩
  | write offset buf =>
    rw [Op.run, spiFlashCmdWriteOps, if_neg (by rw [hallow.2]; decide)]
    obtain ⟨st', hrun, hflash, hlog'⟩ := writeLoop_spec (fun hne => (hsafe.resolve_left hne).1)
      (fun hne => (hsafe.resolve_left hne).2) le_rfl hallow.1 hlog
    exact ⟨cleanBar chip st', by rw [hrun]; rfl, cleanBar_flash.trans hflash, cleanBar_inPages hlog'⟩
  | erase offset len =>
    obtain ⟨hend, hoff, hlen, hlocked⟩ := hallow
    rw [Op.run, spiFlashCmdEraseOps, if_neg (by simp [hoff, hlen]), if_neg (by rw [hlocked]; decide)]
    obtain ⟨st', hrun, hflash, hlog'⟩ := eraseLoop_spec (fun hne => hsafe.resolve_left hne) hoff hlen
      le_rfl hend hlog
    exact ⟨cleanBar chip st', by rw [hrun]; rfl, cleanBar_flash.trans hflash, cleanBar_inPages hlog'⟩

/-- With the linear array that the operations before have made. -/
inductive Run (cond : State → Op → Prop) (chip : Chip) (st₀ : State) : State → Flash → Prop
  | start : Run cond chip st₀ st₀ st₀.flash
  | op {st st' : State} {f : Flash} {ret : Int} {data : List UInt8} (op : Op) :
      Run cond chip st₀ st f → op.Allowed chip → cond st op →
      op.run chip st = some (st', ret, data) → Run cond chip st₀ st' (op.effect f)

theorem Run.linear (h : Run (fun st op => op.Safe chip st) chip st₀ st f)
    (hlog : InPages chip st₀.log) : st.flash = f ∧ InPages chip st.log := by
  induction h with
  | start => exact ⟨rfl, hlog⟩
  | op op _ hallow hsafe hrun ih =>
    obtain ⟨st', hrun', hflash, hlog'⟩ := op.run_spec hallow hsafe ih.2
    rw [hrun] at hrun'
    cases hrun'
    exact ⟨by rw [hflash, ih.1], hlog'⟩

/-- In every run of safe operations the flash is the linear array that they make, and no program command has
crossed a page boundary, whichever bank is selected first. A further safe operation succeeds, returns the bytes
of its range and changes the flash in its range only. -/
theorem spi_flash_is_linear (chip : Chip) (st₀ st : State) (f : Flash)
    (hlog : st₀.log = []) (h : Run (fun st op => op.Safe chip st) chip st₀ st f) :
    st.flash = f ∧ InPages chip st.log ∧ ∀ op : Op, op.Allowed chip → op.Safe chip st →
      ∃ st', op.run chip st = some (st', 0, op.data f) ∧ st'.flash = op.effect f := by
  obtain ⟨hflash, hpages⟩ := h.linear (by rw [hlog]; exact fun _ _ hmem => nomatch hmem)
  refine ⟨hflash, hpages, fun op hallow hsafe => ?_⟩
  obtain ⟨st', hrun, heffect, -⟩ := op.run_spec hallow hsafe hpages
  rw [hflash] at hrun heffect
  exact ⟨st', hrun, heffect⟩

end Runs

def twoBanks : Chip where
  size := 0x2000000
  pageSize := 256
  eraseSize := 4096
  maxReadSize := 0
  maxWriteSize := 0
  memoryMap := false
  flashIsLocked := fun _ _ => false
  size_lt := by decide
  write_lt := by decide
  page_pos := by decide
  page_dvd := by decide
  erase_pos := Nat.two_pow_pos 12
  erase_dvd := by decide

def freshState : State :=
  { flash := fun a => if a < bankSize then 0x00 else 0xFF, bank := 0, bankCurr := 0, log := [] }

/-- Two bytes are written and read over the boundary of the banks. -/
theorem spi_flash_is_linear_over_boundary :
    ∃ st, Run (fun st op => op.Safe twoBanks st) twoBanks freshState st
        (Op.effect freshState.flash (.write (bankSize - 1) [0xF0, 0x0F])) ∧
      ∃ st', (Op.read (bankSize - 1) 2).run twoBanks st = some (st', 0, [0x00, 0x0F]) := by
  have h : Run (fun st op => op.Safe twoBanks st) twoBanks freshState _ _ :=
    .op (.write (bankSize - 1) [0xF0, 0x0F]) .start ⟨by decide, rfl⟩ (Or.inr ⟨Or.inr rfl, by decide⟩) rfl
  obtain ⟨st', hrun, -⟩ := (spi_flash_is_linear twoBanks freshState _ _ rfl h).2.2
    (.read (bankSize - 1) 2) (show bankSize - 1 + 2 ≤ 0x2000000 by decide)
    (Or.inr (Or.inr (Or.inl (by decide +kernel))))
  have hdata : (Op.read (bankSize - 1) 2).data
      (Op.effect freshState.flash (.write (bankSize - 1) [0xF0, 0x0F])) = [0x00, 0x0F] := by decide +kernel
  rw [hdata] at hrun
  exact ⟨_, h, st', hrun⟩

/-- The first byte of bank 1 is read twice: the second read returns the first byte of bank 0. -/
theorem second_read_hits_bank_zero :
    ∃ st, Run (fun _ _ => True) twoBanks freshState st freshState.flash ∧
      freshState.flash bankSize = 0xFF ∧
      ((Op.read bankSize 1).run twoBanks st).map Prod.snd = some (0, [0x00]) := by
  have h : Run (fun _ _ => True) twoBanks freshState _ _ :=
    .op (.read bankSize 1) .start (show bankSize + 1 ≤ 0x2000000 by decide) trivial rfl
  exact ⟨_, h, by decide +kernel, by decide +kernel⟩

end Armada3720.SpiFlash
