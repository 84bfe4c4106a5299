import SeccampRiscvCpu.DmemDecoder
import SeccampRiscvCpu.WordCounters

/-!
# The array of GPIO ports

Each port has sixteen bytes of addresses, with OUT in the first word and IN in the second.
A store to OUT keeps the bytes that are not strobed and masks all of them; since a port
never holds a bit outside its mask, it is a store to the strobed bytes alone. The read and
the write path compare different bits of the address, which agree inside the range.
-/
namespace SeccampRiscvCpu.GpioPorts
open ByteMemory CoreRegisters ClockedMachine DmemPort DmemDecoder

/-! ## The module -/

structure GpioArray (n : ℕ) where
  outReg : Fin n → Word
  inReg : Fin n → Word

def registersPerGpio : ℕ := 4
def addressRangePerGpio : ℕ := registersPerGpio * 4
def addressRange (n : ℕ) : ℕ := n * addressRangePerGpio
def addressBits (n : ℕ) : ℕ := Nat.clog 2 (addressRange n)

/-- The strobes, eight times each. -/
def strobeMask (wstrb : BitVec 4) : Word :=
  BitVec.fill 8 (wstrb.getLsbD 3) ++ BitVec.fill 8 (wstrb.getLsbD 2) ++
    BitVec.fill 8 (wstrb.getLsbD 1) ++ BitVec.fill 8 (wstrb.getLsbD 0)

namespace GpioArray
variable {n : ℕ} (masks : Fin n → Word) (s : GpioArray n)

def reset (n : ℕ) : GpioArray n := ⟨fun _ => 0, fun _ => 0⟩

/-- `addr(ADDRESS_BITS - 1, 2)` -/
def readKey (n : ℕ) (addr : Word) : ℕ := (addr.extractLsb' 2 (addressBits n - 2)).toNat

/-- `addr(ADDRESS_BITS, 2)` -/
def writeKey (n : ℕ) (addr : Word) : ℕ := (addr.extractLsb' 2 (addressBits n - 1)).toNat

/-- The registers that can be read, by key. -/
def registers : List (ℕ × Word) :=
  (List.finRange n).flatMap fun i : Fin n =>
    [(i.val * registersPerGpio + 0, s.outReg i &&& masks i),
      (i.val * registersPerGpio + 1, s.inReg i &&& masks i)]

def respond (q : DmemRequest) : DmemResponse where
  rvalid := true
  rdata := lastConnect (fun x => x.1 == readKey n q.addr) Prod.snd 0xdeadbeef (s.registers masks)

/-- A clock with the inputs `io.in`. -/
def step (input : Fin n → Word) (q : DmemRequest) : GpioArray n where
  outReg i :=
    if q.wen && writeKey n q.addr == i.val * registersPerGpio then
      ((s.outReg i &&& ~~~strobeMask q.wstrb) ||| (q.wdata &&& strobeMask q.wstrb)) &&& masks i
    else s.outReg i
  inReg := input

end GpioArray

/-! ## Strobed stores -/

theorem byteAt_strobeMask (wstrb : BitVec 4) (lane : BitVec 2) :
    byteAt (strobeMask wstrb) lane.toNat = BitVec.fill 8 (wstrb.getLsbD lane.toNat) := by
  revert wstrb lane
  decide

/-- A strobed store, byte by byte. -/
theorem byteAt_store (old wdata mask : Word) (wstrb : BitVec 4) (lane : BitVec 2) :
    byteAt (((old &&& ~~~strobeMask wstrb) ||| (wdata &&& strobeMask wstrb)) &&& mask) lane.toNat =
      (if wstrb.getLsbD lane.toNat then byteAt wdata lane.toNat else byteAt old lane.toNat) &&&
        byteAt mask lane.toNat := by
  rw [byteAt_and, byteAt_or, byteAt_and, byteAt_and, byteAt_not, byteAt_strobeMask]
  cases wstrb.getLsbD lane.toNat with
  | true =>
    have hfill : BitVec.fill 8 true = BitVec.allOnes 8 := by decide
    rw [hfill, BitVec.not_allOnes, BitVec.and_zero, BitVec.zero_or, BitVec.and_allOnes, if_pos rfl]
  | false =>
    have hfill : BitVec.fill 8 false = 0#8 := by decide
    rw [hfill, BitVec.not_zero, BitVec.and_zero, BitVec.or_zero, BitVec.and_allOnes,
      if_neg Bool.false_ne_true]

/-! ## The keys -/

section
variable {n : ℕ} {masks : Fin n → Word} {s : GpioArray n} {addr : Word}

theorem key_eq {w : ℕ} (h : addr.toNat < 4 * 2 ^ w) :
    (addr.extractLsb' 2 w).toNat = addr.toNat / 4 := by
  rw [BitVec.extractLsb'_toNat, Nat.shiftRight_eq_div_pow]
  exact Nat.mod_eq_of_lt (Nat.div_lt_of_lt_mul h)

theorem range_bits (h : addr.toNat < addressRange n) :
    addr.toNat < 2 ^ addressBits n ∧ 2 ≤ addressBits n := by
  have hlt : addr.toNat < 2 ^ addressBits n := WordCounters.lt_two_pow_clog h
  have hle : addressRange n ≤ 2 ^ addressBits n := Nat.le_pow_clog Nat.one_lt_two _
  refine ⟨hlt, ?_⟩
  by_contra hfew
  have hpow := Nat.pow_le_pow_right (show 0 < 2 by decide) (show addressBits n ≤ 1 by omega)
  have hsize : addressRange n = n * 16 := rfl
  omega

/-- Inside the range both keys are the number of the word. -/
theorem readKey_eq (h : addr.toNat < addressRange n) :
    GpioArray.readKey n addr = addr.toNat / 4 := by
  obtain ⟨hlt, hbits⟩ := range_bits h
  refine key_eq ?_
  obtain ⟨w, hw⟩ := Nat.exists_eq_add_of_le' hbits
  rw [hw, Nat.pow_add, Nat.mul_comm] at hlt
  rwa [hw, Nat.add_sub_cancel]

theorem writeKey_eq (h : addr.toNat < addressRange n) :
    GpioArray.writeKey n addr = addr.toNat / 4 := by
  obtain ⟨hlt, hbits⟩ := range_bits h
  refine key_eq ?_
  obtain ⟨w, hw⟩ := Nat.exists_eq_add_of_le' hbits
  rw [hw, Nat.pow_add, Nat.mul_comm] at hlt
  rw [hw, show w + 2 - 1 = w + 1 from rfl, Nat.pow_succ]
  omega

theorem mem_registers {x : ℕ × Word} (h : x ∈ s.registers masks) :
    ∃ i : Fin n, x = (i.val * registersPerGpio, s.outReg i &&& masks i) ∨
      x = (i.val * registersPerGpio + 1, s.inReg i &&& masks i) := by
  obtain ⟨i, -, hx⟩ := List.mem_flatMap.mp h
  rw [List.mem_cons, List.mem_singleton] at hx
  exact ⟨i, hx⟩

/-- A load of OUT gives the port, masked. -/
theorem respond_out (k : Fin n) {q : DmemRequest}
    (hkey : GpioArray.readKey n q.addr = k.val * registersPerGpio) :
    s.respond masks q = ⟨true, s.outReg k &&& masks k⟩ := by
  rw [GpioArray.respond, hkey]
  refine congrArg (DmemResponse.mk true) (lastConnect_eq ?_ ?_)
  · intro x hx hsel
    rw [beq_iff_eq] at hsel
    obtain ⟨i, rfl | rfl⟩ := mem_registers hx <;> simp only [registersPerGpio] at hsel
    · have hi : i = k := Fin.ext (by omega)
      rw [hi]
    · omega
  · refine ⟨(k.val * registersPerGpio, s.outReg k &&& masks k), ?_, beq_self_eq_true _⟩
    exact List.mem_flatMap.mpr ⟨k, List.mem_finRange k, List.mem_cons_self⟩

end

/-! ## Ports of four bytes -/

section
variable {n : ℕ} (masks : Fin n → Word) (start : ℕ)

/-- The bytes at the outputs of the ports. -/
abbrev Pins (n : ℕ) := Fin n → BitVec 2 → Byte

/-- The address is in the word of OUT of port `k`. -/
def inOut (k : ℕ) (addr : Word) : Prop :=
  start + 16 * k ≤ addr.toNat ∧ addr.toNat < start + 16 * k + 4

instance (k : ℕ) (addr : Word) : Decidable (inOut start k addr) := by
  unfold inOut
  infer_instance

/-- A store to OUT of a port changes its strobed bytes, to the masked data. -/
def Pins.access (p : Pins n) (q : DmemRequest) : Pins n := fun k lane =>
  if q.wen = true ∧ inOut start k q.addr ∧ q.wstrb.getLsbD lane.toNat = true then
    byteAt q.wdata lane.toNat &&& byteAt (masks k) lane.toNat
  else p k lane

/-- The bytes after the first requests. -/
def pinsAfter (requests : ℕ → DmemRequest) : ℕ → Pins n
  | 0 => fun _ _ => 0
  | t + 1 => (pinsAfter requests t).access masks start (requests t)

end

/-! ## The ports on the bus -/

/-- Disjoint ranges with the array behind one of them. -/
structure BusMap (n : ℕ) where
  ranges : List AddressRange
  disjoint : Disjoint ranges
  index : ℕ
  start : ℕ
  located : ranges[index]? = some ⟨start, addressRange n⟩
  masks : Fin n → Word

/-- One clock of the bus, of the inputs of the ports and of the answers of the other
targets. -/
structure BusClock (n : ℕ) where
  request : DmemRequest
  input : Fin n → Word
  others : ℕ → DmemResponse

namespace BusMap
variable {n : ℕ} (b : BusMap n)

def gpioRange : AddressRange := ⟨b.start, addressRange n⟩

/-- What the array sees of a request. -/
def gpioRequest (q : DmemRequest) : DmemRequest := targetRequest b.gpioRange q

/-- What the initiator sees. -/
def respond (s : GpioArray n) (i : BusClock n) : DmemResponse :=
  DmemDecoder.respond b.ranges i.request fun k =>
    if k = b.index then s.respond b.masks (b.gpioRequest i.request) else i.others k

def machine : Machine (GpioArray n) (BusClock n) DmemResponse where
  step s i := s.step b.masks i.input (b.gpioRequest i.request)
  emit s i := [b.respond s i]

end BusMap

section
variable {n : ℕ} {b : BusMap n} {s : GpioArray n} {pins : Pins n} {q : DmemRequest}

theorem gpioRange_contains {addr : Word} : b.gpioRange.contains addr = true ↔
    b.start ≤ addr.toNat ∧ addr.toNat < b.start + addressRange n := contains_iff

theorem inOut_contains {k : Fin n} (h : inOut b.start k q.addr) :
    b.gpioRange.contains q.addr = true := by
  have hk := k.isLt
  have hsize : addressRange n = n * 16 := rfl
  unfold inOut at h
  rw [gpioRange_contains, hsize]
  omega

theorem gpioRequest_addr (h : b.gpioRange.contains q.addr = true) :
    (b.gpioRequest q).addr.toNat = q.addr.toNat - b.start := relative_toNat h

theorem relative_lt (h : b.gpioRange.contains q.addr = true) :
    (b.gpioRequest q).addr.toNat < addressRange n := by
  rw [gpioRequest_addr h]
  rw [gpioRange_contains] at h
  omega

/-- In the range the key of a port's OUT stands for the word of OUT. -/
theorem key_iff (h : b.gpioRange.contains q.addr = true) (k : ℕ) :
    (b.gpioRequest q).addr.toNat / 4 = k * registersPerGpio ↔ inOut b.start k q.addr := by
  rw [gpioRequest_addr h]
  rw [gpioRange_contains] at h
  unfold inOut registersPerGpio
  omega

/-- The array writes to a port exactly on a store to its OUT. -/
theorem written_iff (k : Fin n) :
    ((b.gpioRequest q).wen &&
        GpioArray.writeKey n (b.gpioRequest q).addr == k.val * registersPerGpio) = true ↔
      q.wen = true ∧ inOut b.start k q.addr := by
  cases hin : b.gpioRange.contains q.addr with
  | true =>
    rw [writeKey_eq (relative_lt hin), Bool.and_eq_true, beq_iff_eq, key_iff hin,
      BusMap.gpioRequest, targetRequest_contains hin]
  | false =>
    rw [BusMap.gpioRequest, (targetRequest_other hin).2, Bool.false_and]
    refine iff_of_false Bool.false_ne_true fun h => ?_
    rw [inOut_contains h.2] at hin
    cases hin

/-- The registers are the pins, which have no bit outside the masks. -/
structure Shows (b : BusMap n) (pins : Pins n) (s : GpioArray n) : Prop where
  outReg_eq : ∀ k, s.outReg k = line (pins k)
  masked : ∀ k lane, pins k lane &&& byteAt (b.masks k) lane.toNat = pins k lane

theorem Pins.access_masked
    (h : ∀ k lane, pins k lane &&& byteAt (b.masks k) lane.toNat = pins k lane)
    (q : DmemRequest) (k : Fin n) (lane : BitVec 2) :
    pins.access b.masks b.start q k lane &&& byteAt (b.masks k) lane.toNat =
      pins.access b.masks b.start q k lane := by
  rw [Pins.access]
  split_ifs
  · rw [BitVec.and_assoc, BitVec.and_self]
  · exact h k lane

theorem Shows.next (h : Shows b pins s) (i : BusClock n) :
    Shows b (pins.access b.masks b.start i.request) (b.machine.step s i) := by
  refine ⟨fun k => eq_of_bytes fun lane => ?_, Pins.access_masked h.masked i.request⟩
  have hold : byteAt (s.outReg k) lane.toNat = pins k lane := by
    rw [h.outReg_eq, byteAt_line]
  have hkey := written_iff (b := b) (q := i.request) k
  rw [byteAt_line, Pins.access]
  simp only [BusMap.machine, GpioArray.step]
  by_cases hwritten : i.request.wen = true ∧ inOut b.start k i.request.addr
  · have hrequest := targetRequest_contains (inOut_contains (b := b) (k := k) hwritten.2)
    rw [if_pos (hkey.mpr hwritten), byteAt_store, hold, BusMap.gpioRequest, hrequest]
    simp only [hwritten, true_and]
    split_ifs
    · rfl
    · exact h.masked k lane
  · rw [if_neg fun hw => hwritten (hkey.mp hw), hold, if_neg fun hw => hwritten ⟨hw.1, hw.2.1⟩]

theorem shows_reset : Shows b (fun _ _ => 0) (.reset n) := by
  constructor
  · intro k
    exact (by decide : (0 : Word) = line fun _ => 0)
  · intro k lane
    exact BitVec.zero_and

theorem Shows.run (b : BusMap n) (input : ℕ → BusClock n) (t : ℕ) :
    Shows b (pinsAfter b.masks b.start (fun t => (input t).request) t)
      (b.machine.run (.reset n) input t) := by
  induction t with
  | zero => exact shows_reset
  | succ t ih => exact ih.next (input t)

/-- A load of OUT returns the pins of the port. -/
theorem Shows.load (h : Shows b pins s) {i : BusClock n} {k : Fin n}
    (hk : inOut b.start k i.request.addr) : b.respond s i = ⟨true, line (pins k)⟩ := by
  have hin := inOut_contains (b := b) hk
  have hmasked : s.outReg k &&& b.masks k = line (pins k) := by
    refine eq_of_bytes fun lane => ?_
    rw [byteAt_and, h.outReg_eq, byteAt_line, h.masked]
  rw [BusMap.respond, respond_contains b.disjoint b.located hin, if_pos rfl, respond_out k, hmasked]
  rw [readKey_eq (relative_lt hin)]
  exact (key_iff hin k).mpr hk

/-- On every clock of every run: a request goes to the target whose range has its address
and to no other, relative to the range and otherwise as it is; the ports hold the strobed
bytes of the stores to their OUT, masked; a load of OUT returns them, and a load outside of
all ranges is answered at once. -/
theorem gpio_bus (b : BusMap n) (input : ℕ → BusClock n) :
    let run := b.machine.run (.reset n) input
    let request := fun t => (input t).request
    let pins := pinsAfter b.masks b.start request
    (∀ t (k : ℕ) (r : AddressRange), b.ranges[k]? = some r →
      (r.contains (request t).addr = true →
        targetRequest r (request t) =
          { request t with addr := (request t).addr - .ofNat 32 r.start } ∧
        ∀ (j : ℕ) (r' : AddressRange), b.ranges[j]? = some r' → r'.contains (request t).addr = true → j = k) ∧
      (r.contains (request t).addr = false →
        (targetRequest r (request t)).ren = false ∧ (targetRequest r (request t)).wen = false)) ∧
    (∀ t k, (run t).outReg k = line (pins t k)) ∧
    (∀ t, ∀ k : Fin n, inOut b.start k (request t).addr →
      b.respond (run t) (input t) = ⟨true, line (pins t k)⟩) ∧
    ∀ t, (∀ r ∈ b.ranges, r.contains (request t).addr = false) →
      b.respond (run t) (input t) = ⟨true, 0xdeadbeef⟩ := by
  intro run request pins
  have hshows := Shows.run b input
  refine ⟨?_, fun t => (hshows t).outReg_eq, fun t k hk => (hshows t).load hk, ?_⟩
  · intro t k r hr
    refine ⟨fun hin => ⟨targetRequest_contains hin, ?_⟩, targetRequest_other⟩
    intro j r' hr' hin'
    exact b.disjoint.index_eq hr' hr hin' hin
  · intro t hnone
    exact respond_none hnone

end

/-- The map in `TopWithSegmentLed`: the memory, six ports and the registers of the UART. -/
def topWithSegmentLed : BusMap 6 where
  ranges := [⟨0x00000000, 8192⟩, ⟨0xa0000000, addressRange 6⟩, ⟨0xa0001000, 8⟩]
  disjoint := disjoint_of_sorted (by decide)
  index := 1
  start := 0xa0000000
  located := rfl
  masks := fun _ => 0xffffffff

/-- A byte stored to port 1 and the load behind it. -/
theorem gpio_bus_topWithSegmentLed :
    topWithSegmentLed.respond
      (topWithSegmentLed.machine.run (.reset 6)
        (fun
          | 0 => ⟨⟨0xa0000011, false, true, 0b0010, 0x5a00⟩, fun _ => 0, fun _ => ⟨false, 0⟩⟩
          | _ => ⟨⟨0xa0000010, true, false, 0, 0⟩, fun _ => 0, fun _ => ⟨false, 0⟩⟩) 1)
      ⟨⟨0xa0000010, true, false, 0, 0⟩, fun _ => 0, fun _ => ⟨false, 0⟩⟩ = ⟨true, 0x5a00⟩ := by
  have h := (gpio_bus topWithSegmentLed fun
    | 0 => ⟨⟨0xa0000011, false, true, 0b0010, 0x5a00⟩, fun _ => 0, fun _ => ⟨false, 0⟩⟩
    | _ => ⟨⟨0xa0000010, true, false, 0, 0⟩, fun _ => 0, fun _ => ⟨false, 0⟩⟩).2.2.1 1 1 (by decide)
  exact h.trans (by decide)

end SeccampRiscvCpu.GpioPorts
