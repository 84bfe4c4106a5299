import SeccampRiscvCpu.GpioPorts
import SeccampRiscvCpu.UartReception

/-!
# The registers of the UART

`IORegister` has a word for each handshake: a store offers the word to the module behind it and
a load takes what that module offers. The UART of a top level has two such words, data and
status, with a queue of sixteen bytes in each direction between the data word and the line.

What a program stores while the status says that there is room goes out on the line, and what it
loads while the status says that there is a byte has come in on it.
-/
namespace SeccampRiscvCpu.UartRegisters
open ByteMemory CoreRegisters DmemPort DmemDecoder FifoQueue GpioPorts HandshakeStreams
open UartLink UartReceiver UartReception UartTransmitter

/-! ## Words with a handshake -/

structure RegisterInput where
  valid : Bool
  bits : Word

namespace IORegister

/-- `masks.length * ADDRESS_RANGE_PER_GPIO` -/
def addressRange (n : ℕ) : ℕ := n * 4
def addressBits (n : ℕ) : ℕ := Nat.clog 2 (addressRange n)

/-- `addr(ADDRESS_BITS - 1, 2)` -/
def readKey (n : ℕ) (addr : Word) : ℕ := (addr.extractLsb' 2 (addressBits n - 2)).toNat

/-- `addr(ADDRESS_BITS, 2)` -/
def writeKey (n : ℕ) (addr : Word) : ℕ := (addr.extractLsb' 2 (addressBits n - 1)).toNat

variable {n : ℕ} (masks : Fin n → Word × Word)

def respond (input : Fin n → RegisterInput) (q : DmemRequest) : DmemResponse :=
  match (List.finRange n).find? fun i => i.val == readKey n q.addr with
  | some i => ⟨(input i).valid, (input i).bits &&& (masks i).1⟩
  | none => ⟨false, 0xdeadbeef⟩

/-- The word a store offers. -/
def out (q : DmemRequest) (i : Fin n) : Option Word :=
  if q.wen && writeKey n q.addr == i.val then
    some ((q.wdata &&& strobeMask q.wstrb) &&& (masks i).2)
  else none

def inReady (q : DmemRequest) (i : Fin n) : Bool := q.ren && writeKey n q.addr == i.val

end IORegister

theorem register_bits {n : ℕ} {addr : Word} (h : addr.toNat < IORegister.addressRange n) :
    addr.toNat < 2 ^ IORegister.addressBits n ∧ 2 ≤ IORegister.addressBits n := by
  have hlt : addr.toNat < 2 ^ IORegister.addressBits n := WordCounters.lt_two_pow_clog h
  have hle : IORegister.addressRange n ≤ 2 ^ IORegister.addressBits n :=
    Nat.le_pow_clog Nat.one_lt_two _
  refine ⟨hlt, ?_⟩
  by_contra hfew
  have hpow := Nat.pow_le_pow_right (show 0 < 2 by decide)
    (show IORegister.addressBits n ≤ 1 by omega)
  have hsize : IORegister.addressRange n = n * 4 := rfl
  omega

/-- Inside the range both keys are the number of the word. -/
theorem register_keys {n : ℕ} {addr : Word} (h : addr.toNat < IORegister.addressRange n) :
    IORegister.readKey n addr = addr.toNat / 4 ∧ IORegister.writeKey n addr = addr.toNat / 4 := by
  obtain ⟨hlt, hbits⟩ := register_bits h
  obtain ⟨w, hw⟩ := Nat.exists_eq_add_of_le' hbits
  rw [hw, Nat.pow_add, Nat.mul_comm] at hlt
  constructor
  · rw [IORegister.readKey, hw, Nat.add_sub_cancel]
    exact key_eq hlt
  · rw [IORegister.writeKey, hw, show w + 2 - 1 = w + 1 from rfl]
    refine key_eq ?_
    rw [Nat.pow_succ]
    omega

section
variable {n : ℕ} {masks : Fin n → Word × Word} {q : DmemRequest}

/-- A load is answered by the word its address is in. -/
theorem respond_word (input : Fin n → RegisterInput) (i : Fin n)
    (h : q.addr.toNat / 4 = i.val) :
    IORegister.respond masks input q = ⟨(input i).valid, (input i).bits &&& (masks i).1⟩ := by
  have hrange : q.addr.toNat < IORegister.addressRange n := by
    have hi := i.isLt
    unfold IORegister.addressRange
    omega
  have hfind :
      (List.finRange n).find? (fun j => j.val == IORegister.readKey n q.addr) = some i := by
    rw [(register_keys hrange).1, h, List.find?_eq_some_iff_getElem]
    refine ⟨beq_self_eq_true _, i.val, by simp, by simp, ?_⟩
    intro j hj
    simpa using Nat.ne_of_lt hj
  rw [IORegister.respond, hfind]

/-- A register is accessed exactly by the requests to its word. -/
theorem out_word (i : Fin n) (hrange : q.addr.toNat < IORegister.addressRange n) :
    IORegister.out masks q i =
      if q.wen = true ∧ q.addr.toNat / 4 = i.val then
        some ((q.wdata &&& strobeMask q.wstrb) &&& (masks i).2)
      else none := by
  rw [IORegister.out, (register_keys hrange).2]
  simp only [Bool.and_eq_true, beq_iff_eq]

theorem inReady_word (i : Fin n) (hrange : q.addr.toNat < IORegister.addressRange n) :
    IORegister.inReady q i = true ↔ q.ren = true ∧ q.addr.toNat / 4 = i.val := by
  rw [IORegister.inReady, (register_keys hrange).2, Bool.and_eq_true, beq_iff_eq]

theorem idle_word (hren : q.ren = false) (hwen : q.wen = false) (i : Fin n) :
    IORegister.out masks q i = none ∧ IORegister.inReady q i = false := by
  rw [IORegister.out, IORegister.inReady, hren, hwen]
  exact ⟨rfl, rfl⟩

end

/-! ## The UART of a top level -/

structure UartPort (baudDivider rxSyncStages : ℕ) where
  uartTx : UartTx 8 baudDivider
  uartRx : UartRx 8 baudDivider rxSyncStages
  uartTxQueue : Fifo Byte 16
  uartRxQueue : Fifo Byte 16

/-- The inputs of one clock: the request on the data bus, the line, and what an empty queue
shows at its output. -/
structure Inputs where
  request : DmemRequest
  rx : Bool
  rxBits : Byte

def uartRange : AddressRange := ⟨0xa0001000, IORegister.addressRange 2⟩

/-- What can be read of and written to the two words. -/
def masks : Fin 2 → Word × Word
  | 0 => (0x100ff, 0xff)
  | 1 => (0x03, 0x00)

namespace UartPort
variable {B S : ℕ}

/-- After reset; the data registers have no reset value. -/
def init (txBits : BitVec 10) (bits outBits : Byte) : UartPort B S :=
  ⟨.init txBits, .init bits outBits, .empty Byte 16, .empty Byte 16⟩

variable (s : UartPort B S)

def rxData (rxBits : Byte) : Byte := s.uartRxQueue.entries.head?.getD rxBits

/-- `uartRegs.io.in` -/
def registers (rxBits : Byte) : Fin 2 → RegisterInput
  | 0 => ⟨true, (0 : BitVec 15) ++ BitVec.ofBool s.uartRxQueue.deqValid ++ (0 : BitVec 8) ++
      s.rxData rxBits⟩
  | 1 => ⟨true, (0 : BitVec 30) ++ BitVec.ofBool s.uartRxQueue.deqValid ++
      BitVec.ofBool s.uartTxQueue.enqReady⟩

/-- What the registers see of the request. -/
def request (i : Inputs) : DmemRequest := targetRequest uartRange i.request

def respond (i : Inputs) : DmemResponse :=
  IORegister.respond masks (s.registers i.rxBits) (request i)

/-- The byte a store offers to the queue. -/
def stored (i : Inputs) : Option Byte := (IORegister.out masks (request i) 0).map (·.setWidth 8)

def loads (i : Inputs) : Bool := IORegister.inReady (n := 2) (request i) 0

/-- `core.io.interrupt_in` -/
def interruptIn : Bool := s.uartRxQueue.deqValid

def step (i : Inputs) : UartPort B S where
  uartTx := s.uartTx.step s.uartTxQueue.entries.head?
  uartRx := s.uartRx.step i.rx s.uartRxQueue.enqReady
  uartTxQueue := s.uartTxQueue.step (stored i) s.uartTx.inReady false
  uartRxQueue := s.uartRxQueue.step
    (if s.uartRx.outValid then some s.uartRx.outBits else none) (loads i) false

end UartPort

/-- The UART in each clock of a run from reset. -/
structure Runs {B S : ℕ} (port : ℕ → UartPort B S) (txBits : BitVec 10) (bits outBits : Byte)
    (input : ℕ → Inputs) : Prop where
  init : port 0 = .init txBits bits outBits
  step : ∀ t, port (t + 1) = (port t).step (input t)

def uartAt {B S : ℕ} (txBits : BitVec 10) (bits outBits : Byte) (input : ℕ → Inputs) :
    ℕ → UartPort B S
  | 0 => .init txBits bits outBits
  | t + 1 => (uartAt txBits bits outBits input t).step (input t)

theorem runs_uartAt {B S : ℕ} (txBits : BitVec 10) (bits outBits : Byte) (input : ℕ → Inputs) :
    Runs (uartAt txBits bits outBits input : ℕ → UartPort B S) txBits bits outBits input :=
  ⟨rfl, fun _ => rfl⟩

/-! ## The words on the bus -/

/-- The address is in the data word. -/
def inData (addr : Word) : Prop := 0xa0001000 ≤ addr.toNat ∧ addr.toNat < 0xa0001004

/-- The address is in the status word. -/
def inStatus (addr : Word) : Prop := 0xa0001004 ≤ addr.toNat ∧ addr.toNat < 0xa0001008

instance (addr : Word) : Decidable (inData addr) := by unfold inData; infer_instance
instance (addr : Word) : Decidable (inStatus addr) := by unfold inStatus; infer_instance

section
variable {B S : ℕ} {s : UartPort B S} {i : Inputs}

theorem request_addr (h : uartRange.contains i.request.addr = true) :
    UartPort.request i = { i.request with addr := i.request.addr - .ofNat 32 0xa0001000 } ∧
      (UartPort.request i).addr.toNat = i.request.addr.toNat - 0xa0001000 ∧
      (UartPort.request i).addr.toNat < IORegister.addressRange 2 := by
  have hrelative : (UartPort.request i).addr.toNat = _ := relative_toNat h
  have hbounds : 0xa0001000 ≤ i.request.addr.toNat ∧
    i.request.addr.toNat < 0xa0001000 + IORegister.addressRange 2 := contains_iff.mp h
  refine ⟨targetRequest_contains h, hrelative, ?_⟩
  rw [hrelative]
  show i.request.addr.toNat - 0xa0001000 < _
  omega

theorem request_other (h : uartRange.contains i.request.addr = false) :
    (UartPort.request i).ren = false ∧ (UartPort.request i).wen = false := targetRequest_other h

theorem inData_iff : inData i.request.addr ↔ uartRange.contains i.request.addr = true ∧
    (i.request.addr.toNat - 0xa0001000) / 4 = 0 := by
  have hcontains : uartRange.contains i.request.addr = true ↔
    0xa0001000 ≤ i.request.addr.toNat ∧ i.request.addr.toNat < 0xa0001000 + 8 := contains_iff
  rw [hcontains, inData]
  omega

theorem inStatus_iff : inStatus i.request.addr ↔ uartRange.contains i.request.addr = true ∧
    (i.request.addr.toNat - 0xa0001000) / 4 = 1 := by
  have hcontains : uartRange.contains i.request.addr = true ↔
    0xa0001000 ≤ i.request.addr.toNat ∧ i.request.addr.toNat < 0xa0001000 + 8 := contains_iff
  rw [hcontains, inStatus]
  omega

theorem strobed_byte (wdata : Word) (wstrb : BitVec 4) :
    ((wdata &&& strobeMask wstrb) &&& 0xff).setWidth 8 =
      if wstrb.getLsbD 0 then byteAt wdata 0 else 0 := by
  have hlow : ∀ x : Word, (x &&& 0xff).setWidth 8 = byteAt x 0 := by
    intro x
    have hones : BitVec.setWidth 8 (0xff : Word) = BitVec.allOnes 8 := by decide
    rw [BitVec.setWidth_and, hones, BitVec.and_allOnes]
    exact BitVec.setWidth_eq_extractLsb' (by decide)
  have hmask : byteAt (strobeMask wstrb) 0 = BitVec.fill 8 (wstrb.getLsbD 0) :=
    byteAt_strobeMask wstrb 0
  have hand : byteAt (wdata &&& strobeMask wstrb) 0 =
      byteAt wdata 0 &&& byteAt (strobeMask wstrb) 0 :=
    byteAt_and wdata (strobeMask wstrb) 0
  rw [hlow, hand, hmask]
  cases wstrb.getLsbD 0 with
  | true =>
    have hfill : BitVec.fill 8 true = BitVec.allOnes 8 := by decide
    rw [hfill, BitVec.and_allOnes, if_pos rfl]
  | false =>
    have hfill : BitVec.fill 8 false = 0#8 := by decide
    rw [hfill, BitVec.and_zero, if_neg Bool.false_ne_true]
    rfl

/-- A store offers its lowest byte, or zero if it does not strobe it, exactly if it is one to the
data word. -/
theorem stored_eq : UartPort.stored i =
    if i.request.wen = true ∧ inData i.request.addr then
      some (if i.request.wstrb.getLsbD 0 then byteAt i.request.wdata 0 else 0)
    else none := by
  simp only [UartPort.stored, inData_iff]
  cases hin : uartRange.contains i.request.addr with
  | false =>
    obtain ⟨hren, hwen⟩ := request_other hin
    rw [(idle_word hren hwen 0).1]
    simp
  | true =>
    obtain ⟨hrequest, haddr, hrange⟩ := request_addr hin
    rw [out_word 0 hrange, haddr, ← strobed_byte]
    simp only [hrequest, true_and, Fin.val_zero]
    split_ifs <;> rfl

theorem loads_iff : UartPort.loads i = true ↔ i.request.ren = true ∧ inData i.request.addr := by
  rw [UartPort.loads, inData_iff]
  cases hin : uartRange.contains i.request.addr with
  | false =>
    obtain ⟨hren, hwen⟩ := request_other hin
    have hidle : IORegister.out masks _ 0 = none ∧ _ := idle_word hren hwen 0
    rw [hidle.2]
    simp
  | true =>
    obtain ⟨hrequest, haddr, hrange⟩ := request_addr hin
    rw [inReady_word 0 hrange, haddr]
    simp only [hrequest, true_and, Fin.val_zero]

theorem respond_data (h : inData i.request.addr) :
    s.respond i = ⟨true, (0 : BitVec 15) ++ BitVec.ofBool s.uartRxQueue.deqValid ++
      (0 : BitVec 8) ++ s.rxData i.rxBits⟩ := by
  obtain ⟨hin, hword⟩ := inData_iff.mp h
  obtain ⟨-, haddr, -⟩ := request_addr hin
  rw [UartPort.respond, respond_word _ 0 (haddr ▸ hword)]
  refine congrArg (DmemResponse.mk true) ?_
  show ((0 : BitVec 15) ++ BitVec.ofBool s.uartRxQueue.deqValid ++ (0 : BitVec 8) ++
    s.rxData i.rxBits) &&& 0x100ff = _
  generalize s.rxData i.rxBits = data
  cases s.uartRxQueue.deqValid <;> revert data <;> decide

theorem respond_status (h : inStatus i.request.addr) :
    s.respond i = ⟨true, (0 : BitVec 30) ++ BitVec.ofBool s.uartRxQueue.deqValid ++
      BitVec.ofBool s.uartTxQueue.enqReady⟩ := by
  obtain ⟨hin, hword⟩ := inStatus_iff.mp h
  obtain ⟨-, haddr, -⟩ := request_addr hin
  rw [UartPort.respond, respond_word _ 1 (haddr ▸ hword)]
  refine congrArg (DmemResponse.mk true) ?_
  show ((0 : BitVec 30) ++ BitVec.ofBool s.uartRxQueue.deqValid ++
    BitVec.ofBool s.uartTxQueue.enqReady) &&& 0x03 = _
  cases s.uartRxQueue.deqValid <;> cases s.uartTxQueue.enqReady <;> decide

end

/-! ## Between the bus and the line -/

section
variable {B S : ℕ} (port : ℕ → UartPort B S) (input : ℕ → Inputs)

/-- The bytes a program stores; there is room for one as the status says. -/
def stores : Handshake Byte where
  offer t := if (input t).request.wen = true ∧ inData (input t).request.addr then
      some (if (input t).request.wstrb.getLsbD 0 then byteAt (input t).request.wdata 0 else 0)
    else none
  ready t := (port t).uartTxQueue.enqReady

/-- The bytes the transmitter takes. -/
def sends : Handshake Byte where
  offer t := (port t).uartTxQueue.entries.head?
  ready t := (port t).uartTx.inReady

/-- The bytes the receiver gives away. -/
def arrivals : Handshake Byte :=
  outputs (fun t => (port t).uartRx) fun t => (port t).uartRxQueue.enqReady

/-- The bytes a program loads. -/
def loads : Handshake Byte where
  offer t := (port t).uartRxQueue.entries.head?
  ready t := decide ((input t).request.ren = true ∧ inData (input t).request.addr)

end

section
variable {B S : ℕ} {port : ℕ → UartPort B S} {txBits : BitVec 10} {bits outBits : Byte}
  {input : ℕ → Inputs}

theorem loads_ready (t : ℕ) : UartPort.loads (input t) = (loads port input).ready t := by
  rw [Bool.eq_iff_iff, loads_iff]
  exact (decide_eq_true_iff).symm

theorem deqValid_eq {capacity : ℕ} (q : Fifo Byte capacity) :
    q.deqValid = q.entries.head?.isSome := by
  rw [Fifo.deqValid]
  cases q.entries <;> rfl

theorem Runs.stores_queued (h : Runs port txBits bits outBits input) :
    Handshake.Queued (fun t => (port t).uartTxQueue) (stores port input) (sends port) where
  init := by
    rw [h.init]
    rfl
  step t := by
    rw [h.step, UartPort.step, stored_eq]
    rfl
  ready _ := rfl
  offer _ := rfl

theorem Runs.arrivals_queued (h : Runs port txBits bits outBits input) :
    Handshake.Queued (fun t => (port t).uartRxQueue) (arrivals port) (loads port input) where
  init := by
    rw [h.init]
    rfl
  step t := by
    have hready : _ = (loads port input).ready t := loads_ready t
    rw [h.step, UartPort.step, hready]
    rfl
  ready _ := rfl
  offer _ := rfl

theorem Runs.drives (h : Runs port txBits bits outBits input) :
    Drives (fun t => (port t).uartTx) txBits (sends port) := by
  refine ⟨fun t => ?_, fun _ => rfl⟩
  induction t with
  | zero =>
    rw [h.init]
    rfl
  | succ t ih =>
    rw [txRun, ← ih, h.step]
    rfl

theorem Runs.uartRx (h : Runs port txBits bits outBits input) :
    (fun t => (port t).uartRx) = rxRun bits outBits (fun t => (input t).rx)
      fun t => (port t).uartRxQueue.enqReady := by
  funext t
  induction t with
  | zero =>
    rw [h.init]
    rfl
  | succ t ih =>
    rw [rxRun, ← ih, h.step]
    rfl

end

/-! ## The two directions -/

section
variable {B S S' : ℕ} {port : ℕ → UartPort B S} {txBits : BitVec 10} {bits outBits : Byte}
  {input : ℕ → Inputs}

theorem Runs.heard (h : Runs port txBits bits outBits input) (hB : 2 ≤ B) (hS : 1 ≤ S')
    (farBits farOutBits : Byte) (t : ℕ) :
    (stores port input).transferred t =
      heard (farEnd (fun t => (port t).uartTx) farBits farOutBits : ℕ → UartRx 8 B S')
        (t + latency 8 B S') ++ (port t).uartTxQueue.entries := by
  rw [h.drives.heard hB hS (by decide) (by decide), Nat.add_sub_cancel]
  exact h.stores_queued.transferred t

/-- The queue is empty again after as many frames as it holds bytes. -/
theorem Runs.heard_later (h : Runs port txBits bits outBits input) (hB : 2 ≤ B) (hS : 1 ≤ S')
    (farBits farOutBits : Byte) (t : ℕ) :
    (stores port input).transferred t <+:
      UartLink.heard (farEnd (fun t => (port t).uartTx) farBits farOutBits : ℕ → UartRx 8 B S')
        (t + (10 * B + 1) * 16 + latency 8 B S') := by
  rw [h.drives.heard hB hS (by decide) (by decide), Nat.add_sub_cancel]
  refine h.stores_queued.passes ?_ t
  intro u
  obtain ⟨d, hd, hready⟩ := h.drives.ready_again (by omega) (by decide) u
  exact ⟨u + d, by omega, by omega, hready⟩

end

/-- **What is stored goes out.** In every run of the UART behind the data bus, the bytes stored
while there was room are what a receiver at the other end of the line has given away after the
latency, in order, and what is still queued. Each of them is given away in bounded time. A load of
the status word says at once whether there is room and whether a byte has come in. -/
theorem stores_heard {B S S' : ℕ} (hB : 2 ≤ B) (hS : 1 ≤ S') {port : ℕ → UartPort B S}
    {txBits : BitVec 10} {bits outBits : Byte} {input : ℕ → Inputs}
    (h : Runs port txBits bits outBits input) (farBits farOutBits : Byte) (t : ℕ) :
    let far : ℕ → UartRx 8 B S' := farEnd (fun t => (port t).uartTx) farBits farOutBits
    (stores port input).transferred t =
      heard far (t + latency 8 B S') ++ (port t).uartTxQueue.entries ∧
    (stores port input).transferred t <+:
      heard far (t + (10 * B + 1) * 16 + latency 8 B S') ∧
    (inStatus (input t).request.addr → (port t).respond (input t) =
      ⟨true, (0 : BitVec 30) ++ BitVec.ofBool ((loads port input).offer t).isSome ++
        BitVec.ofBool ((stores port input).ready t)⟩) := by
  intro far
  refine ⟨h.heard hB hS farBits farOutBits t, h.heard_later hB hS farBits farOutBits t, ?_⟩
  intro hstatus
  rw [respond_status hstatus, deqValid_eq]
  rfl

/-- A store to the data word in every fourth clock, and loads of the status word between them. -/
def storing (t : ℕ) : Inputs :=
  ⟨if t % 4 = 0 then ⟨0xa0001000, false, true, 0b1111, .ofNat 32 t⟩
    else ⟨0xa0001004, true, false, 0, 0⟩, true, 0⟩

theorem stores_heard_storing :
    (stores (uartAt 0 0 0 storing : ℕ → UartPort 2 1) storing).transferred 100 <+:
      heard (farEnd (fun t => (uartAt 0 0 0 storing t : UartPort 2 1).uartTx) 0 0 :
        ℕ → UartRx 8 2 1) (100 + (10 * 2 + 1) * 16 + latency 8 2 1) :=
  (stores_heard (Nat.le_refl 2) (Nat.le_refl 1) (runs_uartAt 0 0 0 storing) 0 0 100).2.1

section
variable {B S : ℕ} {port : ℕ → UartPort B S} {txBits : BitVec 10} {bits outBits : Byte}
  {input : ℕ → Inputs}

/-- The bytes that have come in: loaded, queued, or on offer at the receiver. -/
def came (port : ℕ → UartPort B S) (input : ℕ → Inputs) (t : ℕ) : List Byte :=
  (loads port input).transferred t ++ (port t).uartRxQueue.entries ++
    ((arrivals port).offer t).toList

theorem Runs.came_shown (h : Runs port txBits bits outBits input) (t : ℕ) :
    came port input t = (arrivals port).shown t := by
  rw [came, Handshake.shown, h.arrivals_queued.transferred]

/-- No byte has been overwritten at the receiver before clock `t`. -/
def NoneOverwritten (port : ℕ → UartPort B S) (t : ℕ) : Prop :=
  ∀ u < t, (port u).uartRx.completes = true →
    ¬ Overwrites (fun t => (port t).uartRx) (fun t => (port t).uartRxQueue.enqReady) u

variable {tx : ℕ → UartTx 8 B} {hostBits : BitVec 10} {sent : Handshake Byte}

theorem Runs.uartRx_line (h : Runs port txBits bits outBits input)
    (hline : ∀ t, (input t).rx = (tx t).tx) :
    (fun t => (port t).uartRx) = rxRun bits outBits (fun t => (tx t).tx)
      fun t => (port t).uartRxQueue.enqReady := by
  rw [h.uartRx, funext hline]

theorem Runs.came_spec (h : Runs port txBits bits outBits input) (hB : 2 ≤ B) (hS : 1 ≤ S)
    (htx : Drives tx hostBits sent) (hline : ∀ t, (input t).rx = (tx t).tx) (t : ℕ) :
    (came port input t).Sublist (sent.transferred (t + 1 - latency 8 B S)) ∧
    (came port input t = sent.transferred (t + 1 - latency 8 B S) ↔
      overwritten (fun t => (port t).uartRx) (fun t => (port t).uartRxQueue.enqReady) t = 0) := by
  have hall : completed (fun t => (port t).uartRx) t =
      sent.transferred (t + 1 - latency 8 B S) := by
    rw [h.uartRx_line hline]
    exact completed_eq hB hS (by decide) (by decide) htx bits outBits _ t
  have hstep : ∀ t, (port (t + 1)).uartRx =
      (port t).uartRx.step (input t).rx (port t).uartRxQueue.enqReady := by
    intro t
    rw [h.step]
    rfl
  have h0 : (port 0).uartRx.outValid = false := by
    rw [h.init]
    rfl
  rw [h.came_shown, ← hall]
  exact ⟨shown_sublist hstep h0 t, shown_completed_iff hstep h0 t⟩

theorem Runs.noneOverwritten_iff (h : Runs port txBits bits outBits input)
    (hline : ∀ t, (input t).rx = (tx t).tx) (t : ℕ) :
    NoneOverwritten port t ↔
      overwritten (fun t => (port t).uartRx) (fun t => (port t).uartRxQueue.enqReady) t = 0 := by
  have hrx := h.uartRx_line hline
  have hcompletes : ∀ u, (port u).uartRx.completes = _ :=
    fun u => congrArg UartRx.completes (congrFun hrx u)
  rw [NoneOverwritten, hrx]
  simp only [hcompletes]
  exact not_overwritten_iff.symm

/-- With a load in every frame time a full queue always has room again before the next byte. -/
theorem Runs.not_overwritten (h : Runs port txBits bits outBits input) (hB : 2 ≤ B) (hS : 1 ≤ S)
    (htx : Drives tx hostBits sent) (hline : ∀ t, (input t).rx = (tx t).tx)
    (hpolled : ∀ u, ∃ w, u ≤ w ∧ w < u + 10 * B ∧ (loads port input).ready w = true) (t : ℕ) :
    overwritten (fun t => (port t).uartRx) (fun t => (port t).uartRxQueue.enqReady) t = 0 := by
  have hrx := h.uartRx_line hline
  rw [overwritten_eq_zero_iff]
  intro u _
  by_contra hlost
  simp only [Bool.not_eq_false, overwrites, Bool.and_eq_true, Bool.not_eq_true'] at hlost
  obtain ⟨hcompletes, hvalid, hfull⟩ := hlost
  have houtput : ∀ v, (port v).uartRx = _ := fun v => congrFun hrx v
  rw [houtput] at hcompletes hvalid
  obtain ⟨s, hs, hbefore, hquiet⟩ := (outValid_iff u).mp hvalid
  have hapart := completes_apart hB hS (by decide) (by decide) htx hbefore hcompletes hs
  -- from the byte before on the queue has been full
  have hfull : ∀ w, s < w → w ≤ u → (port w).uartRxQueue.enqReady = false := by
    intro w hw hwu
    rcases Nat.lt_or_eq_of_le hwu with hlt | rfl
    · have hvalid := (outValid_iff w).mpr
        ⟨s, hw, hbefore, fun v hv hv' => hquiet v hv (Nat.lt_trans hv' hlt)⟩
      exact Bool.eq_false_iff.mpr fun hready => (hquiet w hw hlt).2 ⟨hvalid, hready⟩
    · exact hfull
  obtain ⟨w, hw, hw', hload⟩ := hpolled (s + 1)
  have hnow := hfull w hw (by omega)
  have hnext := hfull (w + 1) (by omega) (by omega)
  have hroom := (port w).uartRxQueue.length_le
  have hnone : (arrivals port).transfer w = none := Handshake.transfer_blocked hnow
  simp only [Fifo.enqReady, decide_eq_false_iff_not, Nat.not_lt] at hnow hnext
  rw [h.arrivals_queued.entries_succ, hnone, hload, Fifo.kept, if_pos rfl, Option.toList_none,
    List.append_nil, List.length_tail] at hnext
  omega

/-- A load says whether it gets a byte, and which. -/
theorem answered (port : ℕ → UartPort B S) {t : ℕ} (hren : (input t).request.ren = true)
    (hdata : inData (input t).request.addr) :
    ∃ data, (port t).respond (input t) = ⟨true, (0 : BitVec 15) ++
      BitVec.ofBool ((loads port input).transfer t).isSome ++ (0 : BitVec 8) ++ data⟩ ∧
      ∀ byte, (loads port input).transfer t = some byte → data = byte := by
  have hoffer : (loads port input).transfer t = (port t).uartRxQueue.entries.head? :=
    Handshake.transfer_ready (decide_eq_true ⟨hren, hdata⟩)
  rw [hoffer, ← deqValid_eq]
  refine ⟨_, respond_data hdata, ?_⟩
  intro byte hbyte
  rw [UartPort.rxData, hbyte, Option.getD_some]

end

/-- **What comes in is loaded.** With a transmitter at the other end, the bytes a program has
loaded while there was one, those queued and the one the receiver still offers are bytes that have
been sent, in order; they are all of those sent up to the latency before exactly if none has been
overwritten at the receiver, and so in particular if the program makes a load in every frame time. A
load says whether it has got a byte, and which. -/
theorem loads_received {B S : ℕ} (hB : 2 ≤ B) (hS : 1 ≤ S) {port : ℕ → UartPort B S}
    {txBits : BitVec 10} {bits outBits : Byte} {input : ℕ → Inputs}
    (h : Runs port txBits bits outBits input) {tx : ℕ → UartTx 8 B} {hostBits : BitVec 10}
    {sent : Handshake Byte} (htx : Drives tx hostBits sent)
    (hline : ∀ t, (input t).rx = (tx t).tx) (t : ℕ) :
    (came port input t).Sublist (sent.transferred (t + 1 - latency 8 B S)) ∧
    (came port input t = sent.transferred (t + 1 - latency 8 B S) ↔ NoneOverwritten port t) ∧
    ((∀ u, ∃ w, u ≤ w ∧ w < u + 10 * B ∧ (input w).request.ren = true ∧
      inData (input w).request.addr) →
        came port input t = sent.transferred (t + 1 - latency 8 B S)) ∧
    ((input t).request.ren = true → inData (input t).request.addr →
      ∃ data, (port t).respond (input t) = ⟨true, (0 : BitVec 15) ++
        BitVec.ofBool ((loads port input).transfer t).isSome ++ (0 : BitVec 8) ++ data⟩ ∧
        ∀ byte, (loads port input).transfer t = some byte → data = byte) := by
  obtain ⟨hsublist, hiff⟩ := h.came_spec hB hS htx hline t
  refine ⟨hsublist, hiff.trans (h.noneOverwritten_iff hline t).symm, ?_, answered port⟩
  intro hpolled
  refine hiff.mpr (h.not_overwritten hB hS htx hline ?_ t)
  intro u
  obtain ⟨w, hw, hw', hload⟩ := hpolled u
  exact ⟨w, hw, hw', decide_eq_true hload⟩

/-- A load of the data word in every seventh clock, and bytes without a gap on the line. -/
def loading (t : ℕ) : Inputs :=
  ⟨if t % 7 = 0 then ⟨0xa0001000, true, false, 0, 0⟩ else ⟨0, false, false, 0, 0⟩,
    (txRun 0 adjacent.offer t : UartTx 8 2).tx, 0⟩

theorem loads_received_loading :
    came (uartAt 0 0 0 loading : ℕ → UartPort 2 1) loading 100 =
      adjacent.transferred (100 + 1 - latency 8 2 1) := by
  have hdrives : Drives (txRun 0 adjacent.offer : ℕ → UartTx 8 2) 0 adjacent :=
    ⟨fun _ => rfl, fun _ => rfl⟩
  refine (loads_received (Nat.le_refl 2) (Nat.le_refl 1) (runs_uartAt 0 0 0 loading) hdrives
    (fun _ => rfl) 100).2.2.1 fun u => ?_
  have hmod : (u + (7 - u % 7)) % 7 = 0 := by omega
  refine ⟨u + (7 - u % 7), by omega, by omega, ?_⟩
  have hdata : inData 0xa0001000 := by decide
  rw [loading, if_pos hmod]
  exact ⟨rfl, hdata⟩

end SeccampRiscvCpu.UartRegisters
