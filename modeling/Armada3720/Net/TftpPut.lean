import Armada3720.Lib.Blocks
import Armada3720.Lib.Exchange
import Armada3720.Net.Tftp

/-!
# An upload

The server accepts only the next block it expects. It has the file when the client has completed, in every run
in which the client gets no acknowledgement of an earlier block while the last block is out, and in which its
block counter does not leave the 16 bits: nothing ever counts a wrap in an upload.
-/

namespace Armada3720.Net

open Lib

structure Upload extends Session where
  saveSize : Nat
  room : client.saveAddr + saveSize % 2 ^ 32 ≤ 2 ^ 64

/-! ## The server -/

inductive PutReply
  | oack
  | ack (i : Nat)

/-- The server waits for a request, or has accepted some blocks. -/
inductive PutServer
  | idle
  | accepted (blocks : List (List UInt8))

def Udp.dataBlock (p : Udp) : Option (Nat × List UInt8) :=
  if p.data.take 2 = be16 3 then some (ntohs (p.data.drop 2), p.data.drop 4) else none

def Udp.isWrq (p : Udp) : Bool := p.data.take 2 == be16 2

namespace Upload

/-- `net_boot_file_size` during the upload. -/
def size (u : Upload) : Nat := u.saveSize % 2 ^ 32

def file (u : Upload) : List UInt8 :=
  (List.range u.size).map fun k => u.client.mem (u.client.saveAddr + k)

def block (u : Upload) (i : Nat) : List UInt8 := Blocks.block u.file u.bs i

/-- The block that ends the transfer. -/
def lastBlock (u : Upload) : Nat := Blocks.count u.file u.bs

def wire (u : Upload) : PutReply → List UInt8
  | .oack => be16 6 ++ u.oack.getD []
  | .ack i => be16 4 ++ be16 i

/-- What the server has sent last. -/
def lastReply (u : Upload) (blocks : List (List UInt8)) : PutReply :=
  if u.oack.isSome ∧ blocks = [] then .oack else .ack blocks.length

/-- A block that is not full has ended the transfer. -/
def finished (u : Upload) (blocks : List (List UInt8)) : Bool :=
  blocks.any fun b => decide (b.length < u.bs)

/-- The server handles a packet: a request is answered, the next block is accepted. -/
def serve (u : Upload) (server : PutServer) (p : Udp) : PutServer × List PutReply :=
  match server with
  | .idle => if p.isWrq then (.accepted [], [u.lastReply []]) else (.idle, [])
  | .accepted blocks =>
    match p.dataBlock with
    | some (n, data) =>
      if u.finished blocks = false ∧ n = (blocks.length + 1) % 65536 then
        (.accepted (blocks ++ [data]), [.ack (blocks.length + 1)])
      else (.accepted blocks, [])
    | none => (.accepted blocks, [])

def retransmit (u : Upload) : PutServer → PutServer × List PutReply
  | .idle => (.idle, [])
  | .accepted blocks => (.accepted blocks, [u.lastReply blocks])

def exchange (u : Upload) : Exchange Tftp PutServer PutReply Udp where
  recvLeft t m := t.tftpHandler u.ourPort u.tid (u.wire m)
  tickLeft t := t.tftpTimeoutHandler
  listens t := t.netState = .cont
  recvRight := u.serve
  tickRight := u.retransmit

abbrev State := Exchange.Net Tftp PutServer PutReply Udp

def start (u : Upload) : State where
  left := (u.client.tftpStart u.ourPort u.requestPort (some u.saveSize)).1
  right := .idle
  toLeft := []
  toRight := [(u.client.tftpStart u.ourPort u.requestPort (some u.saveSize)).2]

/-- While the last block is out, an acknowledgement is its own; before, the block counter stays in 16 bits. -/
def Safe (n : State) : Exchange.Event PutReply Udp → Prop
  | .deliverLeft (.ack i) =>
    if n.left.putFinalBlockSent then i % 65536 = n.left.curBlock else i % 65536 ≠ 65535
  | .deliverLeft .oack => n.left.curBlock < 65535
  | _ => True

theorem safe_ack {n : State} {i : Nat} (hf : n.left.putFinalBlockSent = false) :
    Safe n (.deliverLeft (.ack i)) ↔ i % 65536 ≠ 65535 := by
  simp only [Safe, hf, Bool.false_eq_true, if_false]

theorem safe_lastAck {n : State} {i : Nat} (hf : n.left.putFinalBlockSent = true) :
    Safe n (.deliverLeft (.ack i)) ↔ i % 65536 = n.left.curBlock := by
  simp only [Safe, hf, if_true]

/-! ## The blocks that are sent -/

variable {u : Upload} {t : Tftp} {i m : Nat}

theorem length_file : u.file.length = u.size := by simp [file]

/-- The variables that a block is loaded from. -/
structure Sends (u : Upload) (t : Tftp) : Prop where
  putActive : t.putActive = true
  ourPort : t.ourPort = u.ourPort
  mem : t.mem = u.client.mem
  saveAddr : t.saveAddr = u.client.saveAddr
  size : t.netBootFileSize = u.size
  prevBlock : t.prevBlock = 0
  wrapOffset : t.blockWrapOffset = 0

theorem Sends.loadBlock (h : Sends u t) (hm : 1 ≤ m) (hlt : m < 65536) :
    (m ≤ u.lastBlock → t.loadBlock (m % 2 ^ 32) u.bs = u.block m) ∧
      ((t.loadBlock (m % 2 ^ 32) u.bs).length < u.bs ↔ m = u.lastBlock) := by
  have hbs := u.bs_lt
  have hpos := u.bs_pos
  have hlen := length_file (u := u)
  have hroom : u.client.saveAddr + u.size ≤ 2 ^ 64 := u.room
  have hsize : u.size < 2 ^ 32 := Nat.mod_lt _ (by decide)
  have hmod : m % 2 ^ 32 = m := Nat.mod_eq_of_lt (by omega)
  have hprod : (m - 1) * u.bs < 2 ^ 32 := by
    have h1 : (m - 1) * u.bs ≤ 65534 * 65535 := Nat.mul_le_mul (by omega) (by omega)
    omega
  have hoff : ((((m : Int) - 1) * u.bs % 2 ^ 32).toNat + t.blockWrapOffset) % 2 ^ 64 = (m - 1) * u.bs := by
    have hcast : ((m : Int) - 1) * u.bs = ((m - 1) * u.bs : Nat) := by push_cast [hm]; ring
    rw [hcast, h.wrapOffset]
    omega
  have hload : t.loadBlock (m % 2 ^ 32) u.bs =
      (List.range (min (((u.size : Int) - ((m - 1) * u.bs : Nat)) % 2 ^ 64).toNat u.bs)).map
        fun k => u.client.mem ((u.client.saveAddr + (m - 1) * u.bs) % 2 ^ 64 + k) := by
    simp only [Tftp.loadBlock, hmod, hoff, h.size, h.mem, h.saveAddr]
  by_cases hle : m ≤ u.lastBlock
  · have hoffle : (m - 1) * u.bs ≤ u.size := hlen ▸ Blocks.mul_le_length hle
    have hsend : (((u.size : Int) - ((m - 1) * u.bs : Nat)) % 2 ^ 64).toNat =
        u.size - (m - 1) * u.bs := by omega
    have heq : t.loadBlock (m % 2 ^ 32) u.bs = u.block m := by
      rw [hload, hsend]
      refine List.ext_getElem ?_ fun k h1 h2 => ?_
      · rw [List.length_map, List.length_range, block, Blocks.length_block, hlen, Nat.min_comm]
      · have hk : (m - 1) * u.bs + k < u.size := by
          rw [List.length_map, List.length_range] at h1
          omega
        have hbase : (u.client.saveAddr + (m - 1) * u.bs) % 2 ^ 64 =
            u.client.saveAddr + (m - 1) * u.bs := Nat.mod_eq_of_lt (by omega)
        simp only [List.getElem_map, List.getElem_range, block, Blocks.block, file, List.getElem_take,
          List.getElem_drop, hbase, Nat.add_assoc]
    refine ⟨fun _ => heq, ?_⟩
    rw [heq]
    exact Blocks.length_block_lt_iff hpos hm hle
  · have hgt : u.size < (m - 1) * u.bs := by
      have h1 := Blocks.length_lt_mul u.file hpos
      have h2 : Blocks.count u.file u.bs * u.bs ≤ (m - 1) * u.bs := by
        refine Nat.mul_le_mul_right _ ?_
        unfold lastBlock at hle
        omega
      omega
    have hsend : u.bs ≤ (((u.size : Int) - ((m - 1) * u.bs : Nat)) % 2 ^ 64).toNat := by omega
    refine ⟨fun hn => absurd hn hle, ?_⟩
    rw [hload, List.length_map, List.length_range, Nat.min_eq_right hsend]
    exact ⟨fun hn => absurd hn (Nat.lt_irrefl _), fun hn => absurd (Nat.le_of_eq hn) hle⟩

/-! ## What the client does -/

/-- Blocks are only sent once the server has acknowledged options. -/
structure Client (u : Upload) (t : Tftp) : Prop extends Sends u t where
  cur : t.curBlock < 65536
  phase : t.state = .sendWrq ∧ t.blockSize = tftpBlockSize ∧ t.putFinalBlockSent = false ∨
    t.state = .data ∧ t.blockSize = u.bs ∧ t.remotePort = u.tid ∧ 1 ≤ t.curBlock
  final : t.putFinalBlockSent = true → t.curBlock = u.lastBlock

theorem Client.hears (h : Client u t) : t.Hears u.ourPort u.tid := by
  refine ⟨h.ourPort.symm, ?_⟩
  rcases h.phase with h | h
  · exact .inr (.inl h.1)
  · exact .inr (.inr h.2.2.1.symm)

/-- A packet carries no block, or one of the file under its number. -/
def GoodPacket (u : Upload) (p : Udp) : Prop :=
  ∀ n data, p.dataBlock = some (n, data) → 1 ≤ n ∧ (n ≤ u.lastBlock → data = u.block n)

theorem goodPacket_request (h : t.state = .sendWrq) : GoodPacket u (t.udp t.request) := by
  intro n data hp
  have hne : (t.udp t.request).data.take 2 ≠ be16 3 := by
    simp only [Tftp.udp, Tftp.request, List.append_assoc, take_two_be16, h]
    decide
  rw [Udp.dataBlock, if_neg hne] at hp
  cases hp

/-- What one call of the client's does, short of completing. -/
structure Moves (u : Upload) (t : Tftp) (r : Tftp × List Udp) : Prop where
  client : Client u r.1
  good : ∀ p ∈ r.2, GoodPacket u p
  goes : r.1.netState = t.netState ∨ r.1.netState = .again

theorem Sends.sendBlock (h : Sends u t) (hs : t.state = .data) (hbs : t.blockSize = u.bs)
    (hport : t.remotePort = u.tid) (hpos : 1 ≤ t.curBlock) (hcur : t.curBlock < 65536) :
    Moves u t (t.tftpSend.1, [t.tftpSend.2]) := by
  obtain ⟨hblock, hfinal⟩ := h.loadBlock hpos hcur
  have hsend : t.tftpSend =
      ({ t with putFinalBlockSent :=
          decide ((t.loadBlock (t.curBlock % 2 ^ 32) u.bs).length < u.bs) },
        t.udp (be16 3 ++ be16 t.curBlock ++ t.loadBlock (t.curBlock % 2 ^ 32) u.bs)) := by
    simp only [Tftp.tftpSend, hs, Tftp.sendBlock, h.putActive, if_true, hbs]
  rw [hsend]
  refine ⟨⟨⟨h.putActive, h.ourPort, h.mem, h.saveAddr, h.size, h.prevBlock, h.wrapOffset⟩, hcur,
    .inr ⟨hs, hbs, hport, hpos⟩, fun hf => hfinal.mp (of_decide_eq_true hf)⟩, fun p hp => ?_, .inl rfl⟩
  rw [List.mem_singleton.mp hp]
  intro n data hp
  simp only [Udp.dataBlock, Tftp.udp, List.append_assoc, take_two_be16, drop_two_be16, if_true,
    ntohs_be16, Option.some.injEq, Prod.mk.injEq, Nat.mod_eq_of_lt hcur] at hp
  obtain ⟨rfl, hdata⟩ := hp
  exact ⟨hpos, fun hle => hdata ▸ hblock hle⟩

theorem Client.send (h : Client u t) : Moves u t (t.tftpSend.1, [t.tftpSend.2]) := by
  rcases h.phase with hw | ⟨hs, hbs, hport, hpos⟩
  · have hsend : t.tftpSend = (t, t.udp t.request) := by simp only [Tftp.tftpSend, hw.1]
    rw [hsend]
    refine ⟨h, fun p hp => ?_, .inl rfl⟩
    rw [List.mem_singleton.mp hp]
    exact goodPacket_request hw.1
  · exact h.toSends.sendBlock hs hbs hport hpos h.cur

theorem Client.oack (h : Client u t) (ho : u.oack ≠ none) (hcur : t.curBlock < 65535) :
    Moves u t (t.tftpHandler u.ourPort u.tid (u.wire .oack)) := by
  obtain ⟨options, hhandler, hsize⟩ := u.handler_oack ho h.hears (h.phase.imp (·.2.1) (·.2.1))
  have hput : (t.readOack u.tid options).putActive = true := h.putActive
  have hsends : Sends u (t.readOack u.tid options).firstPut :=
    ⟨h.putActive, h.ourPort, h.mem, h.saveAddr, h.size, h.prevBlock, h.wrapOffset⟩
  rw [wire, hhandler]
  simp only [Tftp.handleOack, hput, if_true]
  have hmoves := hsends.sendBlock rfl hsize rfl (Nat.le_add_left 1 _) (Nat.succ_lt_succ hcur)
  exact ⟨hmoves.client, hmoves.good, hmoves.goes⟩

theorem Client.tick (h : Client u t) : Moves u t t.tftpTimeoutHandler := by
  have hsends : Sends u t.countTimeout :=
    ⟨h.putActive, h.ourPort, h.mem, h.saveAddr, h.size, h.prevBlock, h.wrapOffset⟩
  have hc : Client u t.countTimeout := ⟨hsends, h.cur, h.phase, h.final⟩
  simp only [Tftp.tftpTimeoutHandler]
  split
  · refine ⟨⟨⟨h.putActive, h.ourPort, h.mem, h.saveAddr, h.size, h.prevBlock, h.wrapOffset⟩, h.cur,
      h.phase, h.final⟩, nofun, .inr rfl⟩
  · split
    · have hmoves := hc.send
      exact ⟨hmoves.client, hmoves.good, hmoves.goes⟩
    · exact ⟨hc, nofun, .inl rfl⟩

theorem Client.ack (h : Client u t) (hf : t.putFinalBlockSent = false) (hi : i % 65536 ≠ 65535) :
    Moves u t (t.tftpHandler u.ourPort u.tid (u.wire (.ack i))) := by
  have hblock : t.toBlock ((i % 65536 + 1) % 65536) = { t with curBlock := i % 65536 + 1 } := by
    rw [Tftp.toBlock_eq, h.prevBlock, Nat.mod_eq_of_lt (show i % 65536 + 1 < 65536 by omega)]
    simp
  have hsends : Sends u { t with curBlock := i % 65536 + 1 } :=
    ⟨h.putActive, h.ourPort, h.mem, h.saveAddr, h.size, h.prevBlock, h.wrapOffset⟩
  have hc : Client u { t with curBlock := i % 65536 + 1 } := by
    refine ⟨hsends, by dsimp only; omega, ?_, fun hn => ?_⟩
    · rcases h.phase with hp | hp
      · exact .inl hp
      · exact .inr ⟨hp.1, hp.2.1, hp.2.2.1, Nat.le_add_left 1 _⟩
    · exact absurd (hf.symm.trans hn) (by decide)
  rw [wire, Tftp.tftpHandler_ack h.hears, Tftp.handleAck, if_pos h.putActive, hblock,
    if_neg (by rw [hf]; exact Bool.false_ne_true)]
  dsimp only
  split
  · have hmoves := hc.send
    exact ⟨hmoves.client, hmoves.good, hmoves.goes⟩
  · exact ⟨hc, nofun, .inl rfl⟩

theorem Client.lastAck (h : Client u t) (hf : t.putFinalBlockSent = true) :
    t.tftpHandler u.ourPort u.tid (u.wire (.ack i)) = (t.tftpComplete, []) := by
  rw [wire, Tftp.tftpHandler_ack h.hears, Tftp.handleAck, if_pos h.putActive, if_pos hf]

/-! ## Every run -/

/-- The blocks that the server has accepted. -/
def blocksOf : PutServer → List (List UInt8)
  | .idle => []
  | .accepted blocks => blocks

theorem blocksOf_accepted (blocks : List (List UInt8)) : blocksOf (.accepted blocks) = blocks := rfl

/-- The server has accepted the first blocks of the file, and has acknowledged no other ones. -/
structure Inv (u : Upload) (n : State) : Prop where
  client : Client u n.left
  good : ∀ p ∈ n.toRight, GoodPacket u p
  blocks : blocksOf n.right = (List.range (blocksOf n.right).length).map fun j => u.block (j + 1)
  bound : (blocksOf n.right).length ≤ u.lastBlock ∧ (blocksOf n.right).length < 65536
  replies : ∀ m ∈ n.toLeft, match m with
    | .oack => u.oack ≠ none
    | .ack i => i ≤ (blocksOf n.right).length
  complete : n.left.netState = .success → (blocksOf n.right).length = u.lastBlock

theorem inv_start (u : Upload) : Inv u u.start := by
  have hstart : u.client.tftpStart u.ourPort u.requestPort (some u.saveSize) =
      (u.start.left, u.start.left.udp u.start.left.request) := rfl
  refine ⟨⟨⟨rfl, rfl, rfl, rfl, rfl, rfl, rfl⟩, Nat.zero_lt_succ _, .inl ⟨rfl, rfl, rfl⟩, nofun⟩, ?_,
    rfl, ⟨Nat.zero_le _, Nat.zero_lt_succ _⟩, nofun, nofun⟩
  intro p hp
  rw [start, hstart, List.mem_singleton] at hp
  rw [hp]
  exact goodPacket_request rfl

/-- A call of the client's keeps the invariant, if it completes only with every block accepted. -/
theorem Inv.moves {n : State} (inv : Inv u n) {r : Tftp × List Udp} (hc : Client u r.1)
    (hgood : ∀ p ∈ r.2, GoodPacket u p)
    (hdone : r.1.netState = .success → (blocksOf n.right).length = u.lastBlock) :
    Inv u ⟨r.1, n.right, n.toLeft, n.toRight ++ r.2⟩ :=
  ⟨hc, fun p hp => (List.mem_append.mp hp).elim (inv.good p) (hgood p), inv.blocks, inv.bound, inv.replies, hdone⟩

theorem Inv.goes {n : State} (inv : Inv u n) (hl : n.left.netState = .cont) {r : Tftp × List Udp}
    (h : Moves u n.left r) : Inv u ⟨r.1, n.right, n.toLeft, n.toRight ++ r.2⟩ := by
  refine inv.moves h.client h.good fun hdone => ?_
  rcases h.goes with hs | hs
  · exact nomatch hl.symm.trans (hs.symm.trans hdone)
  · exact nomatch hs.symm.trans hdone

theorem lastReply_good (blocks : List (List UInt8)) : match u.lastReply blocks with
    | .oack => u.oack ≠ none
    | .ack i => i ≤ blocks.length := by
  unfold lastReply
  by_cases h : u.oack.isSome ∧ blocks = []
  · rw [if_pos h]
    exact Option.isSome_iff_ne_none.mp h.1
  · rw [if_neg h]

section

variable {n : State} (inv : Inv u n)
include inv

theorem Inv.answers {r : PutServer × List PutReply} (hsame : blocksOf r.1 = blocksOf n.right)
    (hreplies : ∀ m ∈ r.2, m = u.lastReply (blocksOf n.right)) :
    Inv u ⟨n.left, r.1, n.toLeft ++ r.2, n.toRight⟩ := by
  refine ⟨inv.client, inv.good, ?_, ?_, fun m hm => ?_, fun hdone => ?_⟩
  · rw [hsame]
    exact inv.blocks
  · rw [hsame]
    exact inv.bound
  · rw [hsame]
    rcases List.mem_append.mp hm with hm | hm
    · exact inv.replies m hm
    · rw [hreplies m hm]
      exact lastReply_good _
  · rw [hsame]
    exact inv.complete hdone

theorem finished_eq (h : u.finished (blocksOf n.right) = false) : (blocksOf n.right).length ≠ u.lastBlock := by
  intro hlast
  have hone : 1 ≤ u.lastBlock := Nat.le_add_left 1 _
  have hmem : u.block u.lastBlock ∈ blocksOf n.right := by
    rw [inv.blocks, hlast]
    exact List.mem_map.mpr ⟨u.lastBlock - 1, List.mem_range.mpr (by omega), by
      rw [Nat.sub_add_cancel hone]⟩
  have hshort : (u.block u.lastBlock).length < u.bs :=
    (Blocks.length_block_lt_iff u.bs_pos hone (Nat.le_refl _)).mpr rfl
  have hany : u.finished (blocksOf n.right) = true :=
    List.any_eq_true.mpr ⟨_, hmem, decide_eq_true hshort⟩
  exact nomatch h.symm.trans hany

theorem Inv.accept {p : Udp} (hp : p ∈ n.toRight) (data : List UInt8) (hopen : u.finished (blocksOf n.right) = false)
    (hdata : p.dataBlock = some (((blocksOf n.right).length + 1) % 65536, data)) :
    Inv u ⟨n.left, .accepted (blocksOf n.right ++ [data]),
      n.toLeft ++ [.ack ((blocksOf n.right).length + 1)], n.toRight⟩ := by
  obtain ⟨hpos, hblock⟩ := inv.good p hp _ _ hdata
  obtain ⟨hle, hlt⟩ := inv.bound
  have hne := finished_eq inv hopen
  generalize hk : (blocksOf n.right).length = k at *
  have hmod : (k + 1) % 65536 = k + 1 := by omega
  have hlen : (blocksOf n.right ++ [data]).length = k + 1 := by simp [hk]
  have hdata' : data = u.block (k + 1) := by
    rw [hmod] at hblock
    exact hblock (by omega)
  refine ⟨inv.client, inv.good, ?_, ?_, fun m hm => ?_, fun hdone => ?_⟩
  · have hblocks := inv.blocks
    rw [hk] at hblocks
    rw [blocksOf_accepted, hlen, List.range_succ, List.map_append, ← hblocks, hdata']
    rfl
  · rw [blocksOf_accepted, hlen]
    omega
  · rw [blocksOf_accepted, hlen]
    rcases List.mem_append.mp hm with hm | hm
    · have := inv.replies m hm
      cases m with
      | oack => exact this
      | ack i => exact Nat.le_succ_of_le (hk ▸ this)
    · rw [List.mem_singleton.mp hm]
  · exact absurd (hk.symm.trans (inv.complete hdone)) hne

theorem Inv.serve {p : Udp} (hp : p ∈ n.toRight) :
    Inv u ⟨n.left, (u.serve n.right p).1, n.toLeft ++ (u.serve n.right p).2, n.toRight⟩ := by
  cases hr : n.right with
  | idle =>
    simp only [Upload.serve]
    split
    · refine inv.answers ?_ fun m hm => ?_
      · rw [hr]
        rfl
      · rw [hr]
        exact List.mem_singleton.mp hm
    · exact inv.answers (by rw [hr]) nofun
  | accepted blocks =>
    have hstays : Inv u ⟨n.left, .accepted blocks, n.toLeft ++ [], n.toRight⟩ :=
      inv.answers (r := (.accepted blocks, [])) (by rw [hr]) nofun
    simp only [Upload.serve]
    split
    · rename_i num data hdata
      split
      · rename_i hcond
        have haccept := inv.accept hp data
        rw [hr] at haccept
        exact haccept hcond.1 (hcond.2 ▸ hdata)
      · exact hstays
    · exact hstays

theorem Inv.retransmit :
    Inv u ⟨n.left, (u.retransmit n.right).1, n.toLeft ++ (u.retransmit n.right).2, n.toRight⟩ := by
  cases hr : n.right with
  | idle => exact inv.answers (r := (.idle, [])) (by rw [hr]) nofun
  | accepted blocks =>
    refine inv.answers (r := (.accepted blocks, [u.lastReply blocks])) (by rw [hr]) fun m hm => ?_
    rw [hr]
    exact List.mem_singleton.mp hm

/-- Every event, on either side, keeps the invariant. -/
theorem Inv.step {n' : State} {e : Exchange.Event PutReply Udp} (hsafe : Safe n e)
    (h : Exchange.Step u.exchange n e n') : Inv u n' := by
  cases h with
  | @deliverLeft m hm hl =>
    have hreply := inv.replies m hm
    cases m with
    | oack => exact inv.goes hl (inv.client.oack hreply hsafe)
    | ack i =>
      by_cases hf : n.left.putFinalBlockSent = true
      · -- the acknowledgement is the last block's, so the server has accepted that one
        have hi := (safe_lastAck hf).mp hsafe
        have hlast := inv.client.final hf
        have hreply : i ≤ (blocksOf n.right).length := hreply
        obtain ⟨hle, hlt⟩ := inv.bound
        have hrecv : u.exchange.recvLeft n.left (.ack i) = (n.left.tftpComplete, []) :=
          inv.client.lastAck (i := i) hf
        rw [hrecv]
        have hs := inv.client.toSends
        refine inv.moves ⟨⟨hs.putActive, hs.ourPort, hs.mem, hs.saveAddr, hs.size, hs.prevBlock, hs.wrapOffset⟩,
            inv.client.cur, inv.client.phase, inv.client.final⟩ nofun fun _ => ?_
        omega
      · have hf : n.left.putFinalBlockSent = false := Bool.eq_false_iff.mpr hf
        exact inv.goes hl (inv.client.ack (i := i) hf ((safe_ack hf).mp hsafe))
  | deliverRight hm => exact inv.serve hm
  | tickLeft hl => exact inv.goes hl inv.client.tick
  | tickRight => exact inv.retransmit

end

end Upload

/-- In every run in which no acknowledgement is taken for the last block's and the block counter stays in its 16
bits, a completed upload has delivered every block, together the `net_boot_file_size` bytes at `save_addr`. -/
theorem tftp_put_complete (u : Upload) (n : Upload.State)
    (hrun : Exchange.Run u.exchange Upload.Safe u.start n) (hdone : n.left.netState = .success) :
    ∃ blocks, n.right = .accepted blocks ∧ blocks.length = u.lastBlock ∧
      blocks.flatten = (List.range n.left.netBootFileSize).map
        fun k => n.left.mem (n.left.saveAddr + k) := by
  have inv : u.Inv n := hrun.invariant u.inv_start fun _ _ _ inv hsafe hs => inv.step hsafe hs
  have hlen := inv.complete hdone
  have hone : 1 ≤ u.lastBlock := Nat.le_add_left 1 _
  have hfile : (List.range n.left.netBootFileSize).map (fun k => n.left.mem (n.left.saveAddr + k)) = u.file := by
    rw [inv.client.size, inv.client.mem, inv.client.saveAddr]
    rfl
  have hblocks := inv.blocks
  rw [hlen] at hblocks
  cases hr : n.right with
  | idle =>
    rw [hr] at hlen
    exact absurd hlen.symm (Nat.ne_of_gt hone)
  | accepted blocks =>
    rw [hr] at hlen hblocks
    refine ⟨blocks, rfl, hlen, ?_⟩
    have hblocks : blocks = _ := hblocks
    rw [hblocks, hfile]
    exact Blocks.flatten_blocks u.bs_pos

def smallUpload (saveSize : Nat) : Upload where
  saveSize := saveSize
  oack := some (text "blksize" ++ [0] ++ text "8" ++ [0])
  bs := 8
  client := Tftp.initial
  ourPort := 1024
  requestPort := 69
  tid := 3000
  bs_pos := by decide
  bs_eq := by decide
  room := by
    have := Nat.mod_lt saveSize (show 0 < 2 ^ 32 by decide)
    have hsave : Tftp.initial.saveAddr = 0x5000000 := rfl
    rw [hsave]
    omega

/-- Nine bytes arrive in two blocks. -/
theorem tftp_put_nine_bytes :
    ∃ n, Exchange.Run (smallUpload 9).exchange Upload.Safe (smallUpload 9).start n ∧
      n.left.netState = .success ∧
      ∃ blocks, n.right = .accepted blocks ∧ blocks.length = 2 ∧ blocks.flatten.length = 9 := by
  have h₀ : Exchange.Run (smallUpload 9).exchange Upload.Safe (smallUpload 9).start _ := .refl
  have h₁ := h₀.deliverRight _ (.head _) trivial rfl
  have h₂ := h₁.deliverLeft _ (.head _) rfl (show 0 < 65535 by decide) rfl
  have h₃ := h₂.deliverRight _ (.tail _ (.head _)) trivial rfl
  have h₄ := h₃.deliverLeft (.ack 1) (.tail _ (.head _)) rfl ((Upload.safe_ack rfl).mpr (by decide)) rfl
  have h₅ := h₄.deliverRight _ (.tail _ (.tail _ (.head _))) trivial rfl
  have h₆ := h₅.deliverLeft (.ack 2) (.tail _ (.tail _ (.head _))) rfl ((Upload.safe_lastAck (by decide)).mpr rfl) rfl
  obtain ⟨blocks, hblocks, hlen, hfile⟩ := tftp_put_complete (smallUpload 9) _ h₆ rfl
  refine ⟨_, h₆, rfl, blocks, hblocks, hlen, ?_⟩
  rw [hfile, List.length_map, List.length_range]
  rfl

/-- Nine bytes in two blocks: a duplicate of the first acknowledgement completes the upload with one block
delivered. -/
theorem tftp_put_duplicate_ack :
    ∃ n, Exchange.Run (smallUpload 9).exchange (fun _ _ => True) (smallUpload 9).start n ∧
      n.left.netState = .success ∧ n.right = .accepted [List.replicate 8 0] ∧
      (smallUpload 9).lastBlock = 2 := by
  have h₀ : Exchange.Run (smallUpload 9).exchange (fun _ _ => True) (smallUpload 9).start _ := .refl
  have h₁ := h₀.deliverRight _ (.head _) trivial rfl
  have h₂ := h₁.deliverLeft _ (.head _) rfl trivial rfl
  have h₃ := h₂.deliverRight _ (.tail _ (.head _)) trivial rfl
  have h₄ := h₃.deliverLeft _ (.tail _ (.head _)) rfl trivial rfl
  have h₅ := h₄.deliverLeft _ (.tail _ (.head _)) rfl trivial rfl
  exact ⟨_, h₅, rfl, rfl, rfl⟩

end Armada3720.Net
