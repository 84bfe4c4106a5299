import SeccampRiscvCpu.BusPrograms
import SeccampRiscvCpu.UartRegisters

/-!
# The driver of the UART

`uart.rs`: each call looks at the status word and then makes at most one access to the data word,
any number of clocks later. The status can have changed by then, but only to the better: while
the program does nothing else, room stays and a byte stays. So a call that succeeds has moved
exactly its byte, and one that would block has moved none.
-/
namespace SeccampRiscvCpu.UartDriver
open BusPrograms ByteMemory HandshakeStreams UartRegisters
open UartLink UartReceiver UartTransmitter

/-! ## The calls -/

/-- `nb::Error` -/
inductive NbError where
  | other
  | wouldBlock
deriving DecidableEq, Repr

abbrev NbResult (α : Type) := Except NbError α

/-- `ErrorKind::Other` of `no_std_io` -/
inductive IoError where
  | other
deriving DecidableEq, Repr

abbrev Firmware (α : Type) := Program Word Word α

def txd : Word := 0xa0001000
def rxd : Word := 0xa0001000
def status : Word := 0xa0001004

namespace Uart

def write (word : Byte) : Firmware (NbResult Unit) := do
  let r ← .read status
  if r.getLsbD 0 = false then
    return .error .wouldBlock -- THR is not empty
  else do
    .write txd (word.setWidth 32)
    return .ok ()

def flush : Firmware (NbResult Unit) := do
  let r ← .read status
  if r.getLsbD 0 then return .ok () else return .error .wouldBlock

def read : Firmware (NbResult Byte) := do
  let r ← .read status
  if r.getLsbD 1 then do
    let data ← .read rxd
    return .ok (data.setWidth 8)
  else return .error .wouldBlock

end Uart

/-- The loop over the buffer; `got` is what has been put into it. -/
def UartReader.fill (got : List Byte) : ℕ → Firmware (Except IoError (List Byte))
  | 0 => return .ok got
  | n + 1 => do
    match ← Uart.read with
    | .ok v => fill (got ++ [v]) n
    | .error .wouldBlock => return .ok got
    | .error .other => return .error .other

/-- `read` with a buffer of `n` bytes; the result is the part of it that has been filled. -/
def UartReader.read (n : ℕ) : Firmware (Except IoError (List Byte)) := fill [] n

/-- The loop over the buffer, after `count` bytes. -/
def UartWriter.drain (count : ℕ) : List Byte → Firmware (Except IoError ℕ)
  | [] => return .ok count
  | b :: buf => do
    match ← Uart.write b with
    | .ok () => drain (count + 1) buf
    | .error .wouldBlock => return .ok count
    | .error .other => return .error .other

def UartWriter.write (buf : List Byte) : Firmware (Except IoError ℕ) := drain 0 buf

/-! ## The accesses -/

/-- What the data bus of a run carries; in a quiet clock there is no request to the UART. -/
def traffic {B S : ℕ} (port : ℕ → UartPort B S) (input : ℕ → Inputs) : Traffic Word Word where
  loads t addr w := (input t).request.addr = addr ∧ (input t).request.ren = true ∧
    (input t).request.wen = false ∧ ((port t).respond (input t)).rdata = w
  stores t addr w := (input t).request = ⟨addr, false, true, 0b1111, w⟩
  quiet t := uartRange.contains (input t).request.addr = false ∨
    ((input t).request.ren = false ∧ (input t).request.wen = false)

/-! ## Every program can be performed -/

section
variable {α : Type} {B S : ℕ}

/-- The first access of a program. -/
def firstRequest : Firmware α → CoreRegisters.DmemRequest
  | .done _ => ⟨0, false, false, 0, 0⟩
  | .load address _ => ⟨address, true, false, 0, 0⟩
  | .store address value _ => ⟨address, false, true, 0b1111, value⟩

def finished : Firmware α → Bool
  | .done _ => true
  | _ => false

theorem finished_done {p : Firmware α} (h : finished p = true) : ∃ a, p = .done a := by
  cases p with
  | done a => exact ⟨a, rfl⟩
  | load => cases h
  | store => cases h

/-- What is left of it after the answer. -/
def afterFirst (answer : Word) : Firmware α → Firmware α
  | .done a => .done a
  | .load _ next => next answer
  | .store _ _ next => next

/-- The UART with a program that makes an access in every clock. -/
structure Board (α : Type) (B S : ℕ) where
  port : UartPort B S
  left : Firmware α

variable (start : ℕ) (line : ℕ → Bool)

def Board.inputs (x : Board α B S) (t : ℕ) : Inputs :=
  ⟨if start ≤ t then firstRequest x.left else ⟨0, false, false, 0, 0⟩, line t, 0⟩

def Board.step (x : Board α B S) (t : ℕ) : Board α B S :=
  let i := x.inputs start line t
  ⟨x.port.step i, if start ≤ t then afterFirst (x.port.respond i).rdata x.left else x.left⟩

/-- The program begins in clock `start`. -/
def boardAt (p : Firmware α) : ℕ → Board α B S
  | 0 => ⟨.init 0 0 0, p⟩
  | t + 1 => (boardAt p t).step start line t

variable (B S) in
def boardPort (p : Firmware α) (t : ℕ) : UartPort B S := (boardAt start line p t).port

variable (B S) in
def boardInput (p : Firmware α) (t : ℕ) : Inputs :=
  (boardAt start line p t : Board α B S).inputs start line t

theorem runs_board (p : Firmware α) :
    Runs (boardPort B S start line p) 0 0 0 (boardInput B S start line p) :=
  ⟨rfl, fun _ => rfl⟩

/-- What is left in clock `t` is performed up to the clock in which nothing is left. -/
theorem board_performs (p : Firmware α) {a : α} {t u : ℕ} (hle : t ≤ u)
    (h : (boardAt start line p u : Board α B S).left = .done a) :
    Performs (traffic (boardPort B S start line p) (boardInput B S start line p))
      (boardAt start line p t : Board α B S).left t u a := by
  induction hle using Nat.decreasingInduction with
  | self =>
    rw [h]
    exact .done a u
  | of_succ t ht ih =>
    have hnext : (boardAt start line p (t + 1) : Board α B S).left =
      if start ≤ t then afterFirst ((boardPort B S start line p t).respond
        (boardInput B S start line p t)).rdata (boardAt start line p t : Board α B S).left
      else (boardAt start line p t : Board α B S).left := rfl
    have hrequest : (boardInput B S start line p t).request =
      if start ≤ t then firstRequest (boardAt start line p t : Board α B S).left
      else ⟨0, false, false, 0, 0⟩ := rfl
    by_cases hstart : start ≤ t
    · rw [if_pos hstart] at hnext hrequest
      generalize (boardAt start line p t : Board α B S).left = left at hnext hrequest ⊢
      rw [hnext] at ih
      cases left with
      | done a' => exact .waits (Or.inr (by rw [hrequest]; exact ⟨rfl, rfl⟩)) ih
      | load address next =>
        refine .loads ⟨by rw [hrequest]; rfl, by rw [hrequest]; rfl, by rw [hrequest]; rfl, rfl⟩ ?_
        exact ih
      | store address value next => exact .stores hrequest ih
    · rw [if_neg hstart] at hnext hrequest
      rw [hnext] at ih
      exact .waits (Or.inr (by rw [hrequest]; exact ⟨rfl, rfl⟩)) ih

end

/-- What has been stored and loaded before clock `t`. -/
def Moved {B S : ℕ} (port : ℕ → UartPort B S) (input : ℕ → Inputs) (stored loaded : List Byte)
    (t : ℕ) : Prop :=
  (stores port input).transferred t = stored ∧ (loads port input).transferred t = loaded

section
variable {B S : ℕ} {port : ℕ → UartPort B S} {txBits : BitVec 10} {bits outBits : Byte}
  {input : ℕ → Inputs} {stored loaded : List Byte} {t : ℕ}

theorem not_inData (h : (input t).request.addr = status) : ¬ inData (input t).request.addr := by
  rw [h]
  decide

theorem stores_none (h : (input t).request.wen = false ∨ ¬ inData (input t).request.addr) :
    (stores port input).transfer t = none := by
  have hoffer : (stores port input).offer t = none := by
    refine if_neg ?_
    rintro ⟨hwen, hdata⟩
    rcases h with hread | hother
    · exact Bool.false_ne_true (hread.symm.trans hwen)
    · exact hother hdata
  rw [Handshake.transfer, hoffer, ite_self]

theorem loads_none (h : (input t).request.ren = false ∨ ¬ inData (input t).request.addr) :
    (loads port input).transfer t = none := by
  refine Handshake.transfer_blocked (decide_eq_false ?_)
  rintro ⟨hren, hdata⟩
  rcases h with hwrite | hother
  · exact Bool.false_ne_true (hwrite.symm.trans hren)
  · exact hother hdata

/-- A quiet clock may have an address of the UART on the bus, as long as it is not enabled. -/
theorem quiet_still (h : (traffic port input).quiet t) :
    (stores port input).transfer t = none ∧ (loads port input).transfer t = none ∧
      (loads port input).ready t = false := by
  rcases h with hother | ⟨hren, hwen⟩
  · have helse : ¬ inData (input t).request.addr := fun hdata =>
      Bool.false_ne_true (hother.symm.trans (inData_iff.mp hdata).1)
    refine ⟨stores_none (Or.inr helse), loads_none (Or.inr helse), decide_eq_false ?_⟩
    exact fun hload => helse hload.2
  · refine ⟨stores_none (Or.inl hwen), loads_none (Or.inl hren), decide_eq_false ?_⟩
    exact fun hload => Bool.false_ne_true (hren.symm.trans hload.1)

theorem Moved.next (h : Moved port input stored loaded t) :
    Moved port input (stored ++ ((stores port input).transfer t).toList)
      (loaded ++ ((loads port input).transfer t).toList) (t + 1) := by
  obtain ⟨rfl, rfl⟩ := h
  exact ⟨rfl, rfl⟩

theorem Moved.still (h : Moved port input stored loaded t)
    (hstores : (stores port input).transfer t = none)
    (hloads : (loads port input).transfer t = none) : Moved port input stored loaded (t + 1) := by
  have hnext := h.next
  rwa [hstores, hloads, Option.toList_none, List.append_nil, List.append_nil] at hnext

theorem stable_moved (stored loaded : List Byte) :
    Stable (traffic port input) (Moved port input stored loaded) := by
  intro t hquiet h
  obtain ⟨hstores, hloads, -⟩ := quiet_still hquiet
  exact h.still hstores hloads

variable (h : Runs port txBits bits outBits input)
include h

/-- Room for a byte stays as long as nothing is stored. -/
theorem room_stays (hready : (stores port input).ready t = true)
    (hnone : (stores port input).transfer t = none) :
    (stores port input).ready (t + 1) = true := by
  have hkept := (port t).uartTxQueue.kept_length_le ((sends port).ready t)
  simp only [h.stores_queued.ready, FifoQueue.Fifo.enqReady, decide_eq_true_eq] at hready ⊢
  rw [h.stores_queued.entries_succ, hnone, Option.toList_none, List.append_nil]
  omega

/-- A byte that has come in stays as long as nothing is loaded. -/
theorem byte_stays {byte : Byte} (hoffer : (loads port input).offer t = some byte)
    (hready : (loads port input).ready t = false) :
    (loads port input).offer (t + 1) = some byte :=
  h.arrivals_queued.stable t byte hoffer hready

omit h in
/-- What a load of the status word says. -/
theorem status_bits {w : Word} (hload : (traffic port input).loads t status w) :
    w.getLsbD 0 = (stores port input).ready t ∧
      w.getLsbD 1 = ((loads port input).offer t).isSome := by
  obtain ⟨haddr, -, -, rfl⟩ := hload
  have hstatus : inStatus (input t).request.addr := by
    rw [haddr]
    decide
  rw [respond_status hstatus, deqValid_eq]
  show BitVec.getLsbD ((0 : BitVec 30) ++ BitVec.ofBool ((loads port input).offer t).isSome ++
    BitVec.ofBool ((stores port input).ready t)) 0 = _ ∧ BitVec.getLsbD ((0 : BitVec 30) ++
      BitVec.ofBool ((loads port input).offer t).isSome ++
        BitVec.ofBool ((stores port input).ready t)) 1 = _
  cases ((loads port input).offer t).isSome <;> cases (stores port input).ready t <;> decide

omit h in
theorem status_still {w : Word} (hload : (traffic port input).loads t status w) :
    (stores port input).transfer t = none ∧ (loads port input).transfer t = none :=
  ⟨stores_none (Or.inr (not_inData hload.1)), loads_none (Or.inr (not_inData hload.1))⟩

omit h in
/-- A store to the data word offers its byte and loads nothing. -/
theorem txd_offers {word : Byte} (hstore : (traffic port input).stores t txd (word.setWidth 32)) :
    (stores port input).offer t = some word ∧ (loads port input).transfer t = none := by
  have hrequest : (input t).request = ⟨txd, false, true, 0b1111, word.setWidth 32⟩ := hstore
  refine ⟨?_, loads_none (Or.inl (by rw [hrequest]))⟩
  have hdata : inData txd := by decide
  have hstrobe : (0b1111 : BitVec 4).getLsbD 0 = true := by decide
  have hbyte : ∀ word : Byte, byteAt (word.setWidth 32) 0 = word := by decide
  show (if (input t).request.wen = true ∧ inData (input t).request.addr then _ else _) = _
  rw [hrequest, if_pos ⟨rfl, hdata⟩]
  simp only [hstrobe, if_true, hbyte]

omit h in
/-- A load of the data word takes the byte that is there and stores nothing. -/
theorem rxd_takes {w : Word} {byte : Byte} (hload : (traffic port input).loads t rxd w)
    (hoffer : (loads port input).offer t = some byte) :
    w.setWidth 8 = byte ∧ (loads port input).transfer t = some byte ∧
      (stores port input).transfer t = none := by
  obtain ⟨haddr, hren, hwen, rfl⟩ := hload
  have hdata : inData (input t).request.addr := by
    rw [haddr]
    decide
  have htransfer : (loads port input).transfer t = some byte :=
    (Handshake.transfer_ready (decide_eq_true ⟨hren, hdata⟩)).trans hoffer
  refine ⟨?_, htransfer, stores_none (Or.inl hwen)⟩
  obtain ⟨data, hrespond, hbyte⟩ := answered port hren hdata
  rw [hrespond, ← hbyte byte htransfer]
  have hlow : ∀ (valid : Bool) (data : Byte), BitVec.setWidth 8
      ((0 : BitVec 15) ++ BitVec.ofBool valid ++ (0 : BitVec 8) ++ data) = data := by decide
  exact hlow _ data

/-! ## What a call does -/

/-- A call of the writer has moved its byte, or would have blocked. -/
def Wrote (port : ℕ → UartPort B S) (input : ℕ → Inputs) (stored loaded : List Byte) (word : Byte)
    (r : NbResult Unit) (t : ℕ) : Prop :=
  r = .ok () ∧ Moved port input (stored ++ [word]) loaded t ∨
    r = .error .wouldBlock ∧ Moved port input stored loaded t

omit h in
theorem stable_wrote (word : Byte) (r : NbResult Unit) :
    Stable (traffic port input) (Wrote port input stored loaded word r) := by
  rintro t hquiet (⟨hr, hmoved⟩ | ⟨hr, hmoved⟩)
  · exact Or.inl ⟨hr, stable_moved _ _ t hquiet hmoved⟩
  · exact Or.inr ⟨hr, stable_moved _ _ t hquiet hmoved⟩

theorem write_spec (word : Byte) :
    Triple (traffic port input) (Moved port input stored loaded) (Uart.write word)
      (Wrote port input stored loaded word) := by
  refine Triple.read (R := fun w t => Moved port input stored loaded t ∧
    (w.getLsbD 0 = true → (stores port input).ready t = true)) (stable_moved _ _) ?_ ?_
  · intro t w hmoved hload
    obtain ⟨hstores, hloads⟩ := status_still hload
    refine ⟨hmoved.still hstores hloads, ?_⟩
    rw [(status_bits hload).1]
    intro hready
    exact room_stays h hready hstores
  · intro w
    by_cases hroom : w.getLsbD 0 = false
    · rw [if_pos hroom]
      exact .done (stable_wrote word _) fun t hmoved => Or.inr ⟨rfl, hmoved.1⟩
    · rw [if_neg hroom]
      rw [Bool.not_eq_false] at hroom
      refine Triple.write (R := Moved port input (stored ++ [word]) loaded) ?_ ?_ ?_
      · -- until the store there is room
        rintro t hquiet ⟨hmoved, hready⟩
        refine ⟨stable_moved _ _ t hquiet hmoved, fun hbit => ?_⟩
        exact room_stays h (hready hbit) (quiet_still hquiet).1
      · rintro t ⟨hmoved, hready⟩ hstore
        obtain ⟨hoffer, hloads⟩ := txd_offers hstore
        have hstores : (stores port input).transfer t = some word :=
          (Handshake.transfer_ready (hready hroom)).trans hoffer
        have hnext := hmoved.next
        rwa [hstores, hloads, Option.toList_some, Option.toList_none, List.append_nil] at hnext
      · exact .done (stable_wrote word _) fun t hmoved => Or.inl ⟨rfl, hmoved⟩

omit h in
theorem flush_spec :
    Triple (traffic port input) (Moved port input stored loaded) Uart.flush
      (fun r t => r ≠ .error .other ∧ Moved port input stored loaded t) := by
  refine Triple.read (R := fun _ => Moved port input stored loaded) (stable_moved _ _) ?_ ?_
  · intro t w hmoved hload
    obtain ⟨hstores, hloads⟩ := status_still hload
    exact hmoved.still hstores hloads
  · intro w
    have hstable : ∀ r : NbResult Unit, Stable (traffic port input)
        (fun t => r ≠ .error .other ∧ Moved port input stored loaded t) :=
      fun r t hquiet hr => ⟨hr.1, stable_moved _ _ t hquiet hr.2⟩
    split_ifs
    · exact .done (hstable _) fun t hmoved => ⟨by simp, hmoved⟩
    · exact .done (hstable _) fun t hmoved => ⟨by simp, hmoved⟩

/-- A call of the reader has moved the byte it returns, or would have blocked. -/
def Got (port : ℕ → UartPort B S) (input : ℕ → Inputs) (stored loaded : List Byte)
    (r : NbResult Byte) (t : ℕ) : Prop :=
  (∃ byte, r = .ok byte ∧ Moved port input stored (loaded ++ [byte]) t) ∨
    r = .error .wouldBlock ∧ Moved port input stored loaded t

omit h in
theorem stable_got (r : NbResult Byte) :
    Stable (traffic port input) (Got port input stored loaded r) := by
  rintro t hquiet (⟨byte, hr, hmoved⟩ | ⟨hr, hmoved⟩)
  · exact Or.inl ⟨byte, hr, stable_moved _ _ t hquiet hmoved⟩
  · exact Or.inr ⟨hr, stable_moved _ _ t hquiet hmoved⟩

theorem read_spec :
    Triple (traffic port input) (Moved port input stored loaded) Uart.read
      (Got port input stored loaded) := by
  refine Triple.read (R := fun w t => Moved port input stored loaded t ∧
    (w.getLsbD 1 = true → ∃ byte, (loads port input).offer t = some byte)) (stable_moved _ _) ?_ ?_
  · intro t w hmoved hload
    obtain ⟨hstores, hloads⟩ := status_still hload
    refine ⟨hmoved.still hstores hloads, ?_⟩
    rw [(status_bits hload).2, Option.isSome_iff_exists]
    rintro ⟨byte, hbyte⟩
    refine ⟨byte, byte_stays h hbyte (decide_eq_false ?_)⟩
    exact fun hdata => not_inData hload.1 hdata.2
  · intro w
    split_ifs with hbyte
    · refine Triple.read (R := fun w t => ∃ byte, w.setWidth 8 = byte ∧
        Moved port input stored (loaded ++ [byte]) t) ?_ ?_ ?_
      · -- until the load the byte is there
        rintro t hquiet ⟨hmoved, hcame⟩
        refine ⟨stable_moved _ _ t hquiet hmoved, fun hbit => ?_⟩
        obtain ⟨byte, hbyte⟩ := hcame hbit
        exact ⟨byte, byte_stays h hbyte (quiet_still hquiet).2.2⟩
      · rintro t w ⟨hmoved, hcame⟩ hload
        obtain ⟨byte, hoffer⟩ := hcame hbyte
        obtain ⟨hvalue, hloads, hstores⟩ := rxd_takes hload hoffer
        have hnext := hmoved.next
        rw [hstores, hloads, Option.toList_some, Option.toList_none, List.append_nil] at hnext
        exact ⟨byte, hvalue, hnext⟩
      · intro w
        refine .done (stable_got _) ?_
        rintro t ⟨byte, rfl, hmoved⟩
        exact Or.inl ⟨_, rfl, hmoved⟩
    · exact .done (stable_got _) fun t hmoved => Or.inr ⟨rfl, hmoved.1⟩

/-! ## The loops over a buffer -/

/-- The bytes in front of a buffer that a loop has filled so far. -/
def Filled (port : ℕ → UartPort B S) (input : ℕ → Inputs) (stored loaded : List Byte) (n : ℕ)
    (r : Except IoError (List Byte)) (t : ℕ) : Prop :=
  ∃ got, r = .ok got ∧ got.length ≤ n ∧ Moved port input stored (loaded ++ got) t

omit h in
theorem stable_filled (n : ℕ) (r : Except IoError (List Byte)) :
    Stable (traffic port input) (Filled port input stored loaded n r) := by
  rintro t hquiet ⟨got, hr, hle, hmoved⟩
  exact ⟨got, hr, hle, stable_moved _ _ t hquiet hmoved⟩

theorem fill_spec (got : List Byte) (n : ℕ) :
    Triple (traffic port input) (Moved port input stored (loaded ++ got)) (UartReader.fill got n)
      (Filled port input stored loaded (got.length + n)) := by
  induction n generalizing got with
  | zero =>
    exact .done (stable_filled _ _) fun t hmoved => ⟨got, rfl, Nat.le_refl _, hmoved⟩
  | succ n ih =>
    refine (read_spec h).bind fun r => ?_
    match r with
    | .ok v =>
      refine (ih (got ++ [v])).imp ?_ ?_
      · rintro t (⟨byte, hr, hmoved⟩ | ⟨hr, -⟩)
        · cases hr
          rwa [← List.append_assoc]
        · cases hr
      · intro r t hfilled
        rwa [List.length_append, List.length_singleton, Nat.add_assoc, Nat.add_comm 1] at hfilled
    | .error .wouldBlock =>
      refine .done (stable_filled _ _) ?_
      rintro t (⟨byte, hr, -⟩ | ⟨-, hmoved⟩)
      · cases hr
      · exact ⟨got, rfl, Nat.le_add_right _ _, hmoved⟩
    | .error .other =>
      refine .done (stable_filled _ _) ?_
      rintro t (⟨byte, hr, -⟩ | ⟨hr, -⟩)
      · cases hr
      · cases hr

theorem reader_spec (n : ℕ) :
    Triple (traffic port input) (Moved port input stored loaded) (UartReader.read n)
      (Filled port input stored loaded n) := by
  have hfill : Triple (traffic port input) (Moved port input stored (loaded ++ []))
      (UartReader.fill [] n) (Filled port input stored loaded (0 + n)) := fill_spec h [] n
  rwa [List.append_nil, Nat.zero_add] at hfill

/-- The part of a buffer that a loop has written, `count` bytes before it. -/
def Drained (port : ℕ → UartPort B S) (input : ℕ → Inputs) (stored loaded : List Byte) (count : ℕ)
    (buf : List Byte) (r : Except IoError ℕ) (t : ℕ) : Prop :=
  ∃ n, r = .ok (count + n) ∧ n ≤ buf.length ∧ Moved port input (stored ++ buf.take n) loaded t

omit h in
theorem stable_drained (count : ℕ) (buf : List Byte) (r : Except IoError ℕ) :
    Stable (traffic port input) (Drained port input stored loaded count buf r) := by
  rintro t hquiet ⟨n, hr, hle, hmoved⟩
  exact ⟨n, hr, hle, stable_moved _ _ t hquiet hmoved⟩

theorem drain_spec (count : ℕ) (buf : List Byte) :
    Triple (traffic port input) (Moved port input stored loaded) (UartWriter.drain count buf)
      (Drained port input stored loaded count buf) := by
  induction buf generalizing count stored with
  | nil =>
    refine .done (stable_drained _ _ _) fun t hmoved => ⟨0, rfl, Nat.le_refl _, ?_⟩
    rwa [List.take_zero, List.append_nil]
  | cons b buf ih =>
    refine (write_spec h b).bind fun r => ?_
    match r with
    | .ok () =>
      have hrest : Triple (traffic port input) (Moved port input (stored ++ [b]) loaded) _
          (Drained port input (stored ++ [b]) loaded (count + 1) buf) := ih (count + 1)
      refine hrest.imp ?_ ?_
      · rintro t (⟨-, hmoved⟩ | ⟨hr, -⟩)
        · exact hmoved
        · cases hr
      · rintro r t ⟨n, rfl, hle, hmoved⟩
        refine ⟨n + 1, by rw [Nat.add_assoc, Nat.add_comm 1], Nat.succ_le_succ hle, ?_⟩
        rwa [List.append_assoc] at hmoved
    | .error .wouldBlock =>
      refine .done (stable_drained _ _ _) ?_
      rintro t (⟨hr, -⟩ | ⟨-, hmoved⟩)
      · cases hr
      · refine ⟨0, rfl, Nat.zero_le _, ?_⟩
        rwa [List.take_zero, List.append_nil]
    | .error .other =>
      refine .done (stable_drained _ _ _) ?_
      rintro t (⟨hr, -⟩ | ⟨hr, -⟩)
      · cases hr
      · cases hr

theorem writer_spec (buf : List Byte) :
    Triple (traffic port input) (Moved port input stored loaded) (UartWriter.write buf)
      (Drained port input stored loaded 0 buf) := drain_spec h 0 buf

end

/-! ## Programs that use the driver -/

inductive Call where
  | write (word : Byte)
  | flush
  | read
  | fill (n : ℕ)
  | drain (buf : List Byte)

inductive Outcome where
  | wrote (word : Byte) (r : NbResult Unit)
  | flushed (r : NbResult Unit)
  | got (r : NbResult Byte)
  | filled (r : Except IoError (List Byte))
  | drained (buf : List Byte) (r : Except IoError ℕ)

namespace Outcome

/-- The bytes the call says it has written. -/
def written : Outcome → List Byte
  | wrote word (.ok ()) => [word]
  | drained buf (.ok n) => buf.take n
  | _ => []

/-- The bytes the call says it has read. -/
def bytes : Outcome → List Byte
  | got (.ok v) => [v]
  | filled (.ok bytes) => bytes
  | _ => []

/-- The only error is that the call would block. -/
def Sound : Outcome → Prop
  | wrote _ r | flushed r => r ≠ .error .other
  | got r => r ≠ .error .other
  | filled r => ∃ bytes, r = .ok bytes
  | drained _ r => ∃ n, r = .ok n

end Outcome

def Call.perform : Call → Firmware Outcome
  | write word => do return .wrote word (← Uart.write word)
  | flush => do return .flushed (← Uart.flush)
  | read => do return .got (← Uart.read)
  | fill n => do return .filled (← UartReader.read n)
  | drain buf => do return .drained buf (← UartWriter.write buf)

/-- A program that chooses each call by the outcomes of those before. -/
def client (next : List Outcome → Call) : ℕ → Firmware (List Outcome) := fun n =>
  Program.iterate (fun outcomes => do return outcomes ++ [← (next outcomes).perform]) n []

section
variable {B S : ℕ} {port : ℕ → UartPort B S} {txBits : BitVec 10} {bits outBits : Byte}
  {input : ℕ → Inputs} {stored loaded : List Byte}

/-- An outcome is what has happened. -/
def Happened (port : ℕ → UartPort B S) (input : ℕ → Inputs) (stored loaded : List Byte)
    (o : Outcome) (t : ℕ) : Prop :=
  o.Sound ∧ Moved port input (stored ++ o.written) (loaded ++ o.bytes) t

theorem stable_happened (o : Outcome) :
    Stable (traffic port input) (Happened port input stored loaded o) :=
  fun t hquiet ho => ⟨ho.1, stable_moved _ _ t hquiet ho.2⟩

/-- What a call leaves is what its outcome says. -/
theorem Call.perform_spec (h : Runs port txBits bits outBits input) (c : Call) :
    Triple (traffic port input) (Moved port input stored loaded) c.perform
      (Happened port input stored loaded) := by
  cases c with
  | write word =>
    refine (write_spec h word).bind fun r => .done (stable_happened _) ?_
    rintro t (⟨rfl, hmoved⟩ | ⟨rfl, hmoved⟩)
    · exact ⟨by simp [Outcome.Sound], by simpa [Outcome.written, Outcome.bytes] using hmoved⟩
    · exact ⟨by simp [Outcome.Sound], by simpa [Outcome.written, Outcome.bytes] using hmoved⟩
  | flush =>
    refine flush_spec.bind fun r => .done (stable_happened _) ?_
    rintro t ⟨hr, hmoved⟩
    exact ⟨hr, by simpa [Outcome.written, Outcome.bytes] using hmoved⟩
  | read =>
    refine (read_spec h).bind fun r => .done (stable_happened _) ?_
    rintro t (⟨byte, rfl, hmoved⟩ | ⟨rfl, hmoved⟩)
    · exact ⟨by simp [Outcome.Sound], by simpa [Outcome.written, Outcome.bytes] using hmoved⟩
    · exact ⟨by simp [Outcome.Sound], by simpa [Outcome.written, Outcome.bytes] using hmoved⟩
  | fill n =>
    refine (reader_spec h n).bind fun r => .done (stable_happened _) ?_
    rintro t ⟨got, rfl, -, hmoved⟩
    exact ⟨⟨got, rfl⟩, by simpa [Outcome.written, Outcome.bytes] using hmoved⟩
  | drain buf =>
    refine (writer_spec h buf).bind fun r => .done (stable_happened _) ?_
    rintro t ⟨n, rfl, -, hmoved⟩
    rw [Nat.zero_add]
    exact ⟨⟨n, rfl⟩, by simpa [Outcome.written, Outcome.bytes] using hmoved⟩

/-- What the outcomes of a program say together. -/
def Account (port : ℕ → UartPort B S) (input : ℕ → Inputs) (outcomes : List Outcome) (t : ℕ) :
    Prop :=
  (∀ o ∈ outcomes, o.Sound) ∧
    Moved port input (outcomes.flatMap Outcome.written) (outcomes.flatMap Outcome.bytes) t

theorem client_spec (h : Runs port txBits bits outBits input) (next : List Outcome → Call)
    (n : ℕ) :
    Triple (traffic port input) (fun t => t = 0) (client next n) (Account port input) := by
  have hstable : ∀ outcomes, Stable (traffic port input) (Account port input outcomes) :=
    fun outcomes t hquiet hall => ⟨hall.1, stable_moved _ _ t hquiet hall.2⟩
  refine Triple.imp (Triple.iterate hstable (fun outcomes => ?_) n []) ?_ fun _ _ hall => hall
  · intro t u after hall hperforms
    obtain ⟨v, o, hcall, hrest⟩ := hperforms.split
    have hdone : Triple (traffic port input)
        (Happened port input (outcomes.flatMap Outcome.written) (outcomes.flatMap Outcome.bytes) o)
        (.done (outcomes ++ [o])) (Account port input) := by
      refine .done (hstable _) ?_
      rintro t ⟨hsound, hmoved⟩
      refine ⟨?_, by simpa using hmoved⟩
      intro p hp
      rcases List.mem_append.mp hp with hbefore | hlast
      · exact hall.1 p hbefore
      · rw [List.mem_singleton.mp hlast]
        exact hsound
    exact hdone v u after (Call.perform_spec h (next outcomes) t v o hall.2 hcall) hrest
  · rintro t rfl
    exact ⟨fun o ho => absurd ho List.not_mem_nil, rfl, rfl⟩

end

/-- **The driver moves what it says.** A program makes any calls, each chosen by the outcomes of those
before and any number of clocks apart. No call fails otherwise than that it would block. What the
calls say they have written is heard at the other end of the line, in order, up to what is still
queued, and all of it in bounded time. What they say they have read is, in order, what the other end
has sent, without bytes that have been overwritten at the receiver; if there are none, only those
still queued and the one on offer are missing. -/
theorem calls_deliver {B S S' : ℕ} (hB : 2 ≤ B) (hS : 1 ≤ S) (hS' : 1 ≤ S')
    {port : ℕ → UartPort B S} {txBits : BitVec 10} {bits outBits : Byte} {input : ℕ → Inputs}
    (h : Runs port txBits bits outBits input) {tx : ℕ → UartTx 8 B} {hostBits : BitVec 10}
    {sent : Handshake Byte} (htx : Drives tx hostBits sent)
    (hline : ∀ t, (input t).rx = (tx t).tx) (farBits farOutBits : Byte)
    {next : List Outcome → Call} {n t : ℕ} {outcomes : List Outcome}
    (hperforms : Performs (traffic port input) (client next n) 0 t outcomes) :
    let far : ℕ → UartRx 8 B S' := farEnd (fun t => (port t).uartTx) farBits farOutBits
    let written := outcomes.flatMap Outcome.written
    let bytes := outcomes.flatMap Outcome.bytes
    (∀ o ∈ outcomes, o.Sound) ∧
    written = heard far (t + latency 8 B S') ++ (port t).uartTxQueue.entries ∧
    written <+: heard far (t + (10 * B + 1) * 16 + latency 8 B S') ∧
    bytes.Sublist (sent.transferred (t + 1 - latency 8 B S)) ∧
    (NoneOverwritten port t → bytes ++ (port t).uartRxQueue.entries ++
      ((arrivals port).offer t).toList = sent.transferred (t + 1 - latency 8 B S)) := by
  intro far written bytes
  obtain ⟨hsound, hstored, hloaded⟩ := client_spec h next n 0 t outcomes rfl hperforms
  obtain ⟨hsublist, hiff⟩ := h.came_spec hB hS htx hline t
  have hcame : came port input t =
      bytes ++ (port t).uartRxQueue.entries ++ ((arrivals port).offer t).toList := by
    rw [came, hloaded]
  refine ⟨hsound, ?_, ?_, ?_, ?_⟩
  · rw [← h.heard hB hS' farBits farOutBits t, hstored]
  · have hwritten : written = (stores port input).transferred t := hstored.symm
    rw [hwritten]
    exact h.heard_later hB hS' farBits farOutBits t
  · rw [hcame, List.append_assoc] at hsublist
    exact (List.sublist_append_left _ _).trans hsublist
  · intro hnone
    rw [← hcame]
    exact hiff.mpr ((h.noneOverwritten_iff hline t).mp hnone)

/-- The accesses of one call of the writer, and bytes without a gap on the line. -/
def greeting (t : ℕ) : Inputs :=
  ⟨match t with
    | 0 => ⟨status, true, false, 0, 0⟩
    | 1 => ⟨txd, false, true, 0b1111, 0x41⟩
    | _ => ⟨0, false, false, 0, 0⟩, (txRun 0 UartReception.adjacent.offer t : UartTx 8 2).tx, 0⟩

theorem greeting_performs : Performs (traffic (uartAt 0 0 0 greeting : ℕ → UartPort 2 1) greeting)
    (client (fun _ => .write 0x41) 1) 0 2 [.wrote 0x41 (.ok ())] := by
  have hroom : ((uartAt 0 0 0 greeting 0 : UartPort 2 1).respond (greeting 0)).rdata = 1 := by
    decide
  exact .loads ⟨rfl, rfl, rfl, hroom⟩ (.stores rfl (.done _ _))

theorem calls_deliver_greeting :
    [0x41] <+: heard (farEnd (fun t => (uartAt 0 0 0 greeting t : UartPort 2 1).uartTx) 0 0 :
      ℕ → UartRx 8 2 1) (2 + (10 * 2 + 1) * 16 + latency 8 2 1) := by
  have hdrives : Drives (txRun 0 UartReception.adjacent.offer : ℕ → UartTx 8 2) 0
    UartReception.adjacent := ⟨fun _ => rfl, fun _ => rfl⟩
  exact (calls_deliver (Nat.le_refl 2) (Nat.le_refl 1) (Nat.le_refl 1) (runs_uartAt 0 0 0 greeting)
    hdrives (fun _ => rfl) 0 0 greeting_performs).2.2.1

end SeccampRiscvCpu.UartDriver
