import Mathlib

/-!
# The TFTP client

`net/tftp.c` with `CONFIG_CMD_TFTPPUT` and without multicast, the TFTP server, the size option and a flash as
the destination. A function that sends returns the UDP packet. Numbers that are sent have the high byte first.
`tftp_timeout_handler` may be called at any time.
-/

namespace Armada3720.Net

inductive TftpState
  | sendRrq | data | tooLarge | badMagic | oack | recvWrq | sendWrq
  deriving DecidableEq

/-- `net_state`; `again` stands for a call of `net_start_again`. -/
inductive NetState
  | cont | success | fail | again
  deriving DecidableEq

structure Udp where
  src : Nat
  dest : Nat
  data : List UInt8
  deriving DecidableEq

structure Tftp where
  ourPort : Nat
  remotePort : Nat
  timeoutMs : Nat
  timeoutCount : Nat
  timeoutCountMax : Nat
  tftpTimeoutCountMax : Nat
  filename : List UInt8
  curBlock : Nat
  prevBlock : Nat
  blockWrap : Nat
  blockWrapOffset : Nat
  state : TftpState
  putActive : Bool
  putFinalBlockSent : Bool
  blockSize : Nat
  blockSizeOption : Nat
  netBootFileSize : Nat
  loadAddr : Nat
  saveAddr : Nat
  mem : Nat → UInt8
  netState : NetState

def tftpBlockSize : Nat := 512

def tftpSequenceSize : Nat := 65536

/-! ## Bytes -/

def be16 (n : Nat) : List UInt8 := [UInt8.ofNat (n / 256 % 256), UInt8.ofNat (n % 256)]

/-- `ntohs` of the first two bytes; bytes behind the end of the packet read as 0. -/
def ntohs (bytes : List UInt8) : Nat := (bytes.getD 0 0).toNat * 256 + (bytes.getD 1 0).toNat

/-- The bytes of a text without its final zero. -/
def text (s : String) : List UInt8 := s.toList.map fun c => UInt8.ofNat c.toNat

/-- `%u`. -/
def decimal (n : Nat) : List UInt8 := (Nat.toDigits 10 n).map fun c => UInt8.ofNat c.toNat

/-- `simple_strtoul` to base 10. -/
def strtoul (bytes : List UInt8) : Nat :=
  (bytes.takeWhile fun b => decide (48 ≤ b.toNat ∧ b.toNat ≤ 57)).foldl
    (fun r b => (r * 10 + (b.toNat - 48)) % 2 ^ 64) 0

/-- The block size in the options of an OACK: every position is tried, the last one counts. -/
def scanBlksize (pkt : List UInt8) (blockSize : Nat) : Nat :=
  (List.range (pkt.length - 8)).foldl
    (fun size i =>
      if (pkt.drop i).take 8 = text "blksize" ++ [0] then strtoul (pkt.drop (i + 8)) % 65536
      else size)
    blockSize

@[simp]
theorem length_be16 (n : Nat) : (be16 n).length = 2 := rfl

theorem take_two_be16 (n : Nat) (rest : List UInt8) : (be16 n ++ rest).take 2 = be16 n := rfl

theorem drop_two_be16 (n : Nat) (rest : List UInt8) : (be16 n ++ rest).drop 2 = rest := rfl

theorem ntohs_be16 (n : Nat) (rest : List UInt8) : ntohs (be16 n ++ rest) = n % 65536 := by
  change (UInt8.ofNat (n / 256 % 256)).toNat * 256 + (UInt8.ofNat (n % 256)).toNat = n % 65536
  rw [UInt8.toNat_ofNat', UInt8.toNat_ofNat']
  omega

theorem scan_cases (p : Nat → Prop) [DecidablePred p] (v : Nat → Nat) (l : List Nat) :
    (∀ x, l.foldl (fun x i => if p i then v i else x) x = x) ∨
      ∃ i, ∀ x, l.foldl (fun x i => if p i then v i else x) x = v i := by
  induction l with
  | nil => exact .inl fun _ => rfl
  | cons a l ih =>
    rcases ih with hid | ⟨i, hconst⟩
    · by_cases ha : p a
      · exact .inr ⟨a, fun x => by rw [List.foldl_cons, hid, if_pos ha]⟩
      · exact .inl fun x => by rw [List.foldl_cons, hid, if_neg ha]
    · exact .inr ⟨i, fun x => by rw [List.foldl_cons, hconst]⟩

theorem scanBlksize_again (pkt : List UInt8) (size : Nat) :
    scanBlksize pkt (scanBlksize pkt size) = scanBlksize pkt size := by
  unfold scanBlksize
  rcases scan_cases (fun i => (pkt.drop i).take 8 = text "blksize" ++ [0])
    (fun i => strtoul (pkt.drop (i + 8)) % 65536) (List.range (pkt.length - 8)) with hid | ⟨i, hconst⟩
  · rw [hid, hid]
  · rw [hconst, hconst]

theorem scanBlksize_lt (pkt : List UInt8) {size : Nat} (h : size < 65536) :
    scanBlksize pkt size < 65536 := by
  unfold scanBlksize
  rcases scan_cases (fun i => (pkt.drop i).take 8 = text "blksize" ++ [0])
    (fun i => strtoul (pkt.drop (i + 8)) % 65536) (List.range (pkt.length - 8)) with hid | ⟨i, hconst⟩
  · rwa [hid]
  · rw [hconst]
    exact Nat.mod_lt _ (by omega)

namespace Tftp

/-! ## The blocks -/

/-- The product of `block` and the block size is an `int`, the offset has 64 bits, `net_boot_file_size` has 32.
-/
def storeBlock (t : Tftp) (block : Int) (src : List UInt8) : Tftp :=
  let offset := (((block * t.blockSize).bmod (2 ^ 32) + t.blockWrapOffset) % 2 ^ 64).toNat
  let newsize := (offset + src.length) % 2 ^ 64
  let base := (t.loadAddr + offset) % 2 ^ 64
  { t with
    mem := fun a => if base ≤ a ∧ a < base + src.length then src.getD (a - base) 0 else t.mem a
    netBootFileSize :=
      if t.netBootFileSize < newsize then newsize % 2 ^ 32 else t.netBootFileSize }

def newTransfer (t : Tftp) : Tftp :=
  { t with prevBlock := 0, blockWrap := 0, blockWrapOffset := 0, putFinalBlockSent := false }

/-- The product of `block - 1` and `len` is an unsigned number of 32 bits. -/
def loadBlock (t : Tftp) (block len : Nat) : List UInt8 :=
  let offset := ((((block : Int) - 1) * len % 2 ^ 32).toNat + t.blockWrapOffset) % 2 ^ 64
  let tosend := min (((t.netBootFileSize : Int) - offset) % 2 ^ 64).toNat len
  (List.range tosend).map fun k => t.mem ((t.saveAddr + offset) % 2 ^ 64 + k)

def updateBlockNumber (t : Tftp) : Tftp :=
  if t.curBlock = 0 ∧ t.prevBlock ≠ 0 then
    { t with
      blockWrap := t.blockWrap + 1
      blockWrapOffset := (t.blockWrapOffset + t.blockSize * tftpSequenceSize) % 2 ^ 64
      timeoutCount := 0 }
  else t

def tftpComplete (t : Tftp) : Tftp := { t with netState := .success }

def netStartAgain (t : Tftp) : Tftp := { t with netState := .again }

/-! ## Sending -/

def request (t : Tftp) : List UInt8 :=
  be16 (if t.state = .sendRrq then 1 else 2) ++ t.filename ++ [0] ++ text "octet" ++ [0] ++
    text "timeout" ++ [0] ++ decimal (t.timeoutMs / 1000) ++ [0] ++
    text "blksize" ++ [0] ++ decimal t.blockSizeOption ++ [0]

def udp (t : Tftp) (data : List UInt8) : Udp := ⟨t.ourPort, t.remotePort, data⟩

/-- An acknowledgement, or a block of the file that is written. -/
def sendBlock (t : Tftp) : Tftp × Udp :=
  if t.putActive then
    let loaded := t.loadBlock (t.curBlock % 2 ^ 32) t.blockSize
    ({ t with putFinalBlockSent := decide (loaded.length < t.blockSize) },
      t.udp (be16 3 ++ be16 t.curBlock ++ loaded))
  else (t, t.udp (be16 4 ++ be16 t.curBlock))

def tftpSend (t : Tftp) : Tftp × Udp :=
  match t.state with
  | .sendRrq | .sendWrq => (t, t.udp t.request)
  | .oack | .recvWrq | .data => t.sendBlock
  | .tooLarge => (t, t.udp (be16 5 ++ be16 3 ++ text "File too large" ++ [0]))
  | .badMagic => (t, t.udp (be16 5 ++ be16 2 ++ text "File has bad magic" ++ [0]))

/-! ## Receiving -/

/-- The number of the current block has been read from a packet, or counted up. -/
def toBlock (t : Tftp) (block : Nat) : Tftp := { t with curBlock := block }.updateBlockNumber

def handleAck (t : Tftp) (block : Nat) : Tftp × List Udp :=
  if t.putActive then
    if t.putFinalBlockSent then (t.tftpComplete, [])
    else
      let ackOk := t.curBlock = block
      let t := t.toBlock ((block + 1) % 65536)
      if ackOk then (t.tftpSend.1, [t.tftpSend.2]) else (t, [])
  else (t, [])

/-- What an OACK tells: the port of the server and the block size. -/
def readOack (t : Tftp) (src : Nat) (pkt : List UInt8) : Tftp :=
  { t with state := .oack, remotePort := src, blockSize := scanBlksize pkt t.blockSize }

/-- Get ready to send the first block. -/
def firstPut (t : Tftp) : Tftp := { t with state := .data, curBlock := t.curBlock + 1 }

def handleOack (t : Tftp) (src : Nat) (pkt : List UInt8) : Tftp × List Udp :=
  let t := t.readOack src pkt
  let t := if t.putActive then t.firstPut else t
  (t.tftpSend.1, [t.tftpSend.2])

/-- A block that is not the same again is stored. -/
def takeBlock (t : Tftp) (data : List UInt8) : Tftp :=
  { t with prevBlock := t.curBlock, timeoutCountMax := t.tftpTimeoutCountMax }.storeBlock
    (((t.curBlock : Int) - 1).bmod (2 ^ 32)) data

/-- It is acknowledged; a short one is the last. -/
def acceptBlock (t : Tftp) (data : List UInt8) : Tftp × List Udp :=
  if t.curBlock = t.prevBlock then (t, [])
  else
    let t := t.takeBlock data
    (if data.length < t.blockSize then t.tftpSend.1.tftpComplete else t.tftpSend.1, [t.tftpSend.2])

/-- First block received. -/
def firstGet (t : Tftp) (src : Nat) : Tftp := { t with state := .data, remotePort := src }.newTransfer

def handleData (t : Tftp) (src block : Nat) (data : List UInt8) : Tftp × List Udp :=
  let t := t.toBlock block
  if t.state = .sendRrq ∨ t.state = .oack ∨ t.state = .recvWrq then
    let t := t.firstGet src
    if t.curBlock ≠ 1 then (t.netStartAgain, []) else t.acceptBlock data
  else t.acceptBlock data

def handleError (t : Tftp) (code : Nat) : Tftp × List Udp :=
  if code = 1 ∨ code = 2 then ({ t with netState := .fail }, []) else (t.netStartAgain, [])

def tftpHandler (t : Tftp) (dest src : Nat) (pkt : List UInt8) : Tftp × List Udp :=
  if dest ≠ t.ourPort then (t, [])
  else if t.state ≠ .sendRrq ∧ src ≠ t.remotePort ∧ t.state ≠ .recvWrq ∧ t.state ≠ .sendWrq then
    (t, [])
  else if pkt.length < 2 then (t, [])
  else
    let body := pkt.drop 2
    match ntohs pkt with
    | 3 => if body.length < 2 then (t, []) else t.handleData src (ntohs body) (body.drop 2)
    | 4 => t.handleAck (ntohs body)
    | 5 => t.handleError (ntohs body)
    | 6 => t.handleOack src body
    | _ => (t, [])

def countTimeout (t : Tftp) : Tftp := { t with timeoutCount := t.timeoutCount + 1 }

def tftpTimeoutHandler (t : Tftp) : Tftp × List Udp :=
  let t := t.countTimeout
  if t.timeoutCount > t.timeoutCountMax then (t.netStartAgain, [])
  else if t.state ≠ .recvWrq then (t.tftpSend.1, [t.tftpSend.2])
  else (t, [])

/-- The ports come from the timer and the environment. A size to save makes it a put. -/
def tftpStart (t : Tftp) (ourPort remotePort : Nat) (saveSize : Option Nat) : Tftp × Udp :=
  let t := { t with netState := .cont, netBootFileSize := 0 }
  let t :=
    match saveSize with
    | some size =>
      { t with putActive := true, netBootFileSize := size % 2 ^ 32, state := .sendWrq }.newTransfer
    | none => { t with putActive := false, state := .sendRrq }
  { t with
    timeoutCountMax := t.tftpTimeoutCountMax, timeoutCount := 0, remotePort := remotePort
    ourPort := ourPort, curBlock := 0, blockSize := tftpBlockSize }.tftpSend

/-- The variables before the first transfer; memory is clear. -/
def initial : Tftp where
  ourPort := 0
  remotePort := 0
  timeoutMs := 5000
  timeoutCount := 0
  timeoutCountMax := 0
  tftpTimeoutCountMax := 10
  filename := text "image"
  curBlock := 0
  prevBlock := 0
  blockWrap := 0
  blockWrapOffset := 0
  state := .sendRrq
  putActive := false
  putFinalBlockSent := false
  blockSize := 512
  blockSizeOption := 1468
  netBootFileSize := 0
  loadAddr := 0x5000000
  saveAddr := 0x5000000
  mem := fun _ => 0
  netState := .cont

/-! ## What a packet leads to -/

section
variable {t : Tftp} {dest src : Nat}

theorem toBlock_eq (t : Tftp) (n : Nat) : t.toBlock n =
    { t with
      curBlock := n
      blockWrap := if n = 0 ∧ t.prevBlock ≠ 0 then t.blockWrap + 1 else t.blockWrap
      blockWrapOffset := if n = 0 ∧ t.prevBlock ≠ 0 then
        (t.blockWrapOffset + t.blockSize * tftpSequenceSize) % 2 ^ 64 else t.blockWrapOffset
      timeoutCount := if n = 0 ∧ t.prevBlock ≠ 0 then 0 else t.timeoutCount } := by
  unfold toBlock updateBlockNumber
  split <;> rfl

/-- The packet comes from the server of this transfer. -/
def Hears (t : Tftp) (dest src : Nat) : Prop :=
  dest = t.ourPort ∧ (t.state = .sendRrq ∨ t.state = .sendWrq ∨ src = t.remotePort)

theorem Hears.not_filtered (h : t.Hears dest src) :
    ¬dest ≠ t.ourPort ∧ ¬(t.state ≠ .sendRrq ∧ src ≠ t.remotePort ∧ t.state ≠ .recvWrq ∧
      t.state ≠ .sendWrq) := by
  refine ⟨fun hn => hn h.1, fun hn => ?_⟩
  rcases h.2 with h | h | h
  · exact hn.1 h
  · exact hn.2.2.2 h
  · exact hn.2.1 h

theorem tftpHandler_oack (h : t.Hears dest src) (options : List UInt8) :
    t.tftpHandler dest src (be16 6 ++ options) = t.handleOack src options := by
  have hop : ntohs (be16 6 ++ options) = 6 := ntohs_be16 6 options
  have hbody : (be16 6 ++ options).drop 2 = options := rfl
  have hlen : ¬(be16 6 ++ options).length < 2 := by
    rw [List.length_append, length_be16]
    omega
  simp only [tftpHandler, if_neg h.not_filtered.1, if_neg h.not_filtered.2, if_neg hlen, hop, hbody]

theorem tftpHandler_ack (h : t.Hears dest src) (n : Nat) :
    t.tftpHandler dest src (be16 4 ++ be16 n) = t.handleAck (n % 65536) := by
  have hop : ntohs (be16 4 ++ be16 n) = 4 := ntohs_be16 4 (be16 n)
  have hbody : (be16 4 ++ be16 n).drop 2 = be16 n ++ [] := rfl
  have hlen : ¬(be16 4 ++ be16 n).length < 2 := by simp
  simp only [tftpHandler, if_neg h.not_filtered.1, if_neg h.not_filtered.2, if_neg hlen, hop, hbody, ntohs_be16]

end

end Tftp

/-! ## What client and server agree on -/

/-- What has been negotiated, and the client's variables before the command. -/
structure Session where
  /-- The options the server acknowledges, if it does. -/
  oack : Option (List UInt8)
  bs : Nat
  client : Tftp
  ourPort : Nat
  requestPort : Nat
  /-- The port the server sends from. -/
  tid : Nat
  bs_pos : 0 < bs
  bs_eq : bs = match oack with
    | none => tftpBlockSize
    | some options => scanBlksize options tftpBlockSize

theorem Session.bs_lt (s : Session) : s.bs < 65536 := by
  rw [s.bs_eq]
  cases s.oack with
  | none => decide
  | some options => exact scanBlksize_lt options (by decide)

/-- The first OACK tells the block size, and a later one tells the same. -/
theorem Session.handler_oack {s : Session} {t : Tftp} (ho : s.oack ≠ none) (hears : t.Hears s.ourPort s.tid)
    (hsize : t.blockSize = tftpBlockSize ∨ t.blockSize = s.bs) :
    ∃ options, t.tftpHandler s.ourPort s.tid (be16 6 ++ s.oack.getD []) = t.handleOack s.tid options ∧
      (t.readOack s.tid options).blockSize = s.bs := by
  obtain ⟨options, ho⟩ := Option.ne_none_iff_exists'.mp ho
  have hbs : s.bs = scanBlksize options tftpBlockSize := by
    have := s.bs_eq
    rwa [ho] at this
  refine ⟨options, ?_, ?_⟩
  · rw [ho]
    exact Tftp.tftpHandler_oack hears options
  · change scanBlksize options t.blockSize = s.bs
    rcases hsize with hsize | hsize
    · rw [hsize, hbs]
    · rw [hsize, hbs, scanBlksize_again]

end Armada3720.Net
