import SeccampRiscvCpu.BusPrograms
import SeccampRiscvCpu.ClockedMachine
import SeccampRiscvCpu.CoreRegisters

/-!
# The C program of the stepper board

`bootrom.c` reads the switches round after round, stores the interval of the motor and shows
it, and sends back what the interrupt handler has left in `uart_rx_data`. The handler may
come between any two accesses of `main`. The variable is not volatile, and the program is built
with -Os: it is loaded once in a round, and the byte that is sent is the one that was tested.
-/
namespace SeccampRiscvCpu.StepperBootrom
open BusPrograms ByteMemory CoreRegisters ClockedMachine

/-! ## The program -/

abbrev Firmware (α : Type) := Program Word Word α

def regGpioLedL : Word := 0xa0000000
def regGpioLedH : Word := 0xa0000010
def regGpioStepperCounter : Word := 0xa0000020
def regGpioStepperCwccw : Word := 0xa0000030
def regGpioLed : Word := 0xa0000040
def regGpioSwIn : Word := 0xa0000054
def regUartData : Word := 0xa0001000
def regUartStatus : Word := 0xa0001004

def hexDigitPattern (digit : BitVec 4) : Word :=
  [0b00111111, 0b00000110, 0b01011011, 0b01001111, 0b01100110, 0b01101101, 0b01111101, 0b00000111,
    0b01111111, 0b01101111, 0b01110111, 0b01111100, 0b00111001, 0b01011110, 0b01111001,
    0b01110001].getD digit.toNat 0

/-- `hex_digit_pattern[(value >> n) & 0xf]` -/
def hexDigit (value : Word) (n : ℕ) : Word := hexDigitPattern ((value >>> n).setWidth 4)

def ledLow (value : Word) : Word :=
  hexDigit value 20 ||| hexDigit value 16 <<< 8 ||| hexDigit value 12 <<< 16 |||
    hexDigit value 8 <<< 24

def ledHigh (value : Word) : Word := hexDigit value 4 ||| hexDigit value 0 <<< 8

def putLedHex (value : Word) : Firmware Unit := do
  .write regGpioLedL (ledLow value)
  .write regGpioLedH (ledHigh value)

def uartTxReady : Firmware Bool := do
  let status ← .read regUartStatus
  return status.getLsbD 0

/-- The loop gives up after so many loads of the status. -/
def uartTxByte (byte : Byte) : ℕ → Firmware Bool
  | 0 => return false
  | polls + 1 => do
    if ← uartTxReady then do
      .write regUartData (byte.setWidth 32)
      return true
    else uartTxByte byte polls

def uartTxString (polls : ℕ) : List Byte → Firmware Bool
  | [] => return true
  | byte :: str => do
    if ← uartTxByte byte polls then uartTxString polls str else return false

/-- "Hello, world!\\n" -/
def greeting : List Byte :=
  [0x48, 0x65, 0x6c, 0x6c, 0x6f, 0x2c, 0x20, 0x77, 0x6f, 0x72, 0x6c, 0x64, 0x21, 0x0a]

def stepperCounterMax : ℕ := 27000000 / 100
def stepperCounterMin : ℕ := 27000000 / 1000

/-- The variables of `main`. -/
structure Main where
  counter : Word
  ledOut : Word
  stepperCounter : Word
  stepperCwccw : Bool

def Main.init : Main := ⟨0, 1, .ofNat 32 stepperCounterMax, false⟩

/-- What the LEDs show. -/
def ledPattern (s : Main) (switchInput : Word) : Word :=
  if switchInput = 0 then s.ledOut
  else if switchInput.getLsbD 6 then 0x55555555
  else if switchInput.getLsbD 7 then 0xaaaaaaaa
  else switchInput

/-- The interval follows the first two switches. -/
def adjustCounter (stepperCounter switchInput : Word) : Word :=
  let stepperCounter := if switchInput.getLsbD 0 then stepperCounter + 1 else stepperCounter
  if switchInput.getLsbD 1 then stepperCounter - 1 else stepperCounter

/-- And the direction the next two. -/
def adjustCwccw (stepperCwccw : Bool) (switchInput : Word) : Bool :=
  let stepperCwccw := if switchInput.getLsbD 2 then true else stepperCwccw
  if switchInput.getLsbD 3 then false else stepperCwccw

def limit (stepperCounter : Word) : Word :=
  let stepperCounter := if stepperCounter < .ofNat 32 stepperCounterMin
    then .ofNat 32 stepperCounterMin else stepperCounter
  if .ofNat 32 stepperCounterMax < stepperCounter then .ofNat 32 stepperCounterMax
  else stepperCounter

/-- The variables with the switches of a round. -/
def Main.next (s : Main) (switchInput : Word) : Main :=
  let counter := s.counter + 1
  if counter &&& 0xf = 0 then
    { s with
      counter := counter
      stepperCounter := limit (adjustCounter s.stepperCounter switchInput)
      stepperCwccw := adjustCwccw s.stepperCwccw switchInput }
  else { s with counter := counter, stepperCounter := limit s.stepperCounter }

/-- What is shown of them. -/
def Main.shown (s : Main) : Word := s.stepperCounter ||| if s.stepperCwccw then 0x800000 else 0

section
variable (uartRxData : Word)

/-- The byte is sent, and the variable is cleared. -/
def sendReceived (byte : Byte) (polls : ℕ) : Firmware Bool := do
  if ← uartTxByte byte polls then do
    .write uartRxData 0
    return true
  else return false

/-- The transmission of what has been received; `uart_rx_data` is at an address of its own. -/
def echo (polls : ℕ) : Firmware Bool := do
  let received ← .read uartRxData
  if received.getLsbD 16 then do
    if ← uartTxReady then sendReceived uartRxData (received.setWidth 8) polls else return true
  else return true

def round (polls : ℕ) (s : Main) : Firmware (Option Main) := do
  let input ← .read regGpioSwIn
  let switchInput := ~~~input &&& 0xff
  .write regGpioLed (ledPattern s switchInput)
  let s := s.next switchInput
  .write regGpioStepperCounter s.stepperCounter
  .write regGpioStepperCwccw (if s.stepperCwccw then 1 else 0)
  putLedHex s.shown
  if ← echo uartRxData polls then return some s else return none

/-- `n` rounds of the loop; nothing comes behind a wait that has been given up. -/
def rounds (polls : ℕ) : ℕ → Main → Firmware (Option Main)
  | 0, s => return some s
  | n + 1, s => do
    let s ← round uartRxData polls s
    s.elim (return none) (rounds polls n)

def main (polls n : ℕ) : Firmware (Option Main) := do
  if ← uartTxString polls greeting then rounds uartRxData polls n .init else return none

end

/-! ## The bus and the handler -/

/-- What happens in a clock. The interrupt is the valid bit of the receiver, which only the
handler loads from: it finds a byte there and leaves it in the variable. `main` stands still
in between. -/
inductive Event where
  | idle
  | handler (byte : Byte)
  | load (addr w : Word)
  | store (addr w : Word)
deriving DecidableEq

/-- A word of the data register with a byte that has come in. -/
def receivedWord (byte : Byte) : Word := 0#15 ++ 1#1 ++ 0#8 ++ byte

/-- The variable, the bytes the handler has loaded and whether it has ever found one that was
still in the variable. -/
structure Mailbox where
  uartRxData : Word
  received : List Byte
  overwritten : Bool

namespace Mailbox
variable (m : Mailbox)

def init : Mailbox := ⟨0, [], false⟩

def full : Bool := m.uartRxData.getLsbD 16

def byte : Byte := m.uartRxData.setWidth 8

def put (byte : Byte) : Mailbox :=
  ⟨receivedWord byte, m.received ++ [byte], m.overwritten || m.full⟩

def set (w : Word) : Mailbox := { m with uartRxData := w }

end Mailbox

/-- And the stores of `main` to the registers. -/
structure Bus where
  mailbox : Mailbox
  stores : List (Word × Word)

namespace Bus

def init : Bus := ⟨.init, []⟩

def step (uartRxData : Word) (s : Bus) : Event → Bus
  | .idle => s
  | .handler byte => { s with mailbox := s.mailbox.put byte }
  | .load _ _ => s
  | .store addr w =>
    if addr = uartRxData then { s with mailbox := s.mailbox.set w }
    else { s with stores := s.stores ++ [(addr, w)] }

def machine (uartRxData : Word) : Machine Bus Event Unit := ⟨step uartRxData, fun _ _ => []⟩

end Bus

def busAt (uartRxData : Word) (event : ℕ → Event) : ℕ → Bus :=
  (Bus.machine uartRxData).run .init event

def traffic (uartRxData : Word) (event : ℕ → Event) : Traffic Word Word where
  loads t addr w := event t = .load addr w ∧
    (addr = uartRxData → w = (busAt uartRxData event t).mailbox.uartRxData)
  stores t addr w := event t = .store addr w
  quiet t := event t = .idle ∨ ∃ byte, event t = .handler byte

/-- What has been stored to one address. -/
def storedTo (addr : Word) (stores : List (Word × Word)) : List Word :=
  (stores.filter fun x => x.1 = addr).map Prod.snd

/-- The bytes that have been sent. -/
def sent (stores : List (Word × Word)) : List Byte :=
  (storedTo regUartData stores).map fun w => w.setWidth 8

/-! ## What the rounds store -/

/-- What a round has loaded from the switches and sent. -/
structure Round where
  switchInput : Word
  echo : Option Byte

def toUart (byte : Byte) : Word × Word := (regUartData, byte.setWidth 32)

namespace Main
variable (s : Main)

/-- The stores up to the echo. -/
def stores (switchInput : Word) : List (Word × Word) :=
  let s' := s.next switchInput
  [(regGpioLed, ledPattern s switchInput), (regGpioStepperCounter, s'.stepperCounter),
    (regGpioStepperCwccw, if s'.stepperCwccw then 1 else 0),
    (regGpioLedL, ledLow s'.shown), (regGpioLedH, ledHigh s'.shown)]

/-- The variables after some rounds. -/
def after (l : List Round) : Main := l.foldl (fun s r => s.next r.switchInput) s

/-- The stores of some rounds. -/
def log (s : Main) : List Round → List (Word × Word)
  | [] => []
  | r :: l => s.stores r.switchInput ++ r.echo.toList.map toUart ++ (s.next r.switchInput).log l

end Main

/-- And those of the program. -/
def log (l : List Round) : List (Word × Word) := greeting.map toUart ++ Main.init.log l

def echoed (l : List Round) : List Byte := l.flatMap fun r => r.echo.toList

theorem after_append (s : Main) (l : List Round) (r : Round) :
    s.after (l ++ [r]) = (s.after l).next r.switchInput := by
  rw [Main.after, List.foldl_append]
  rfl

theorem log_append (l : List Round) (r : Round) : log (l ++ [r]) =
    log l ++ (Main.init.after l).stores r.switchInput ++ r.echo.toList.map toUart := by
  have hrounds : ∀ s : Main, s.log (l ++ [r]) =
      s.log l ++ (s.after l).stores r.switchInput ++ r.echo.toList.map toUart := by
    intro s
    induction l generalizing s with
    | nil => exact List.append_nil _
    | cons r' l ih =>
      rw [List.cons_append, Main.log, ih, Main.log, List.append_assoc, List.append_assoc,
        List.append_assoc, List.append_assoc]
      rfl
  rw [log, hrounds, log, List.append_assoc, List.append_assoc, List.append_assoc]

section
variable {stores stores' : List (Word × Word)}

theorem storedTo_append (addr : Word) (stores stores' : List (Word × Word)) :
    storedTo addr (stores ++ stores') = storedTo addr stores ++ storedTo addr stores' := by
  rw [storedTo, List.filter_append, List.map_append]
  rfl

theorem storedTo_prefix (addr : Word) (h : stores <+: stores') :
    storedTo addr stores <+: storedTo addr stores' := by
  obtain ⟨rest, rfl⟩ := h
  exact ⟨_, (storedTo_append addr stores rest).symm⟩

theorem sent_append (stores stores' : List (Word × Word)) :
    sent (stores ++ stores') = sent stores ++ sent stores' := by
  rw [sent, storedTo_append, List.map_append]
  rfl

theorem sent_toUart (bytes : List Byte) : sent (bytes.map toUart) = bytes := by
  induction bytes with
  | nil => rfl
  | cons byte bytes ih =>
    have hbyte : sent [toUart byte] = [byte] := by
      have hwidth : (byte.setWidth 32).setWidth 8 = byte := by
        rw [BitVec.setWidth_setWidth_of_le _ (by decide), BitVec.setWidth_eq]
      exact congrArg (fun b => [b]) hwidth
    rw [List.map_cons, ← List.singleton_append, sent_append, hbyte, ih]
    rfl

/-- What has been sent is the greeting and the echo. -/
theorem sent_log (l : List Round) : sent (log l) = greeting ++ echoed l := by
  have hrounds : ∀ s : Main, sent (s.log l) = echoed l := by
    induction l with
    | nil => exact fun s => rfl
    | cons r l ih =>
      intro s
      rw [Main.log, sent_append, sent_append, sent_toUart, ih]
      rfl
  rw [log, sent_append, sent_toUart, hrounds]

end

/-- The greeting is complete and these bytes have been sent behind it, or it is not. -/
def Shows (echo : List Byte) (stores : List (Word × Word)) : Prop :=
  sent stores = greeting ++ echo ∨ echo = [] ∧ sent stores <+: greeting

/-- With the stores `rest` still to come these are the bytes the rounds have echoed. -/
def EchoedBefore (l : List Round) (rest : List (Word × Word)) (echo : List Byte) : Prop :=
  echo ++ sent rest = echoed l ∨ echo = [] ∧ echoed l = []

theorem EchoedBefore.shows {l : List Round} {stores rest : List (Word × Word)} {echo : List Byte}
    (h : EchoedBefore l rest echo) (hlog : stores ++ rest = log l) : Shows echo stores := by
  have hsent : sent stores ++ sent rest = greeting ++ echoed l := by
    rw [← sent_append, hlog, sent_log]
  rcases h with hecho | ⟨hnil, hnone⟩
  · rw [← hecho, ← List.append_assoc] at hsent
    exact Or.inl (List.append_cancel_right hsent)
  · rw [hnone, List.append_nil] at hsent
    exact Or.inr ⟨hnil, sent rest, hsent⟩

theorem echoed_append (l : List Round) (r : Round) :
    echoed (l ++ [r]) = echoed l ++ r.echo.toList := by
  rw [echoed, List.flatMap_append, List.flatMap_singleton]
  rfl

/-! ## What an access changes -/

abbrev Claim := Mailbox → Prop

/-- The handler keeps it. -/
def Claim.Kept (claim : Claim) : Prop := ∀ m byte, claim m → claim (m.put byte)

/-- These bytes are among those that have come in, and they are all if none has been
overwritten. -/
def Mailbox.Had (m : Mailbox) (bytes : List Byte) : Prop :=
  bytes.Sublist m.received ∧ (m.overwritten = false → bytes = m.received)

/-- These bytes have come in, and at most the one in the variable behind them if none has been
overwritten. -/
def Follows (bytes : List Byte) : Claim := fun m =>
  bytes.Sublist m.received ∧ (m.overwritten = false →
    bytes = m.received ∨ m.full = true ∧ ∃ byte, bytes ++ [byte] = m.received)

/-- These bytes have been sent, or are about to be; the last of them is still in the
variable. -/
def Taken (bytes : List Byte) : Claim := fun m => m.full = true ∧ m.Had bytes

/-- And these, with another one in the variable. -/
def Ready (bytes : List Byte) : Claim := fun m => m.full = true ∧ m.Had (bytes ++ [m.byte])

/-- Behind these a byte has been loaded, which the handler may have replaced since. -/
def Tested (bytes : List Byte) (byte : Byte) : Claim := fun m =>
  Taken (bytes ++ [byte]) m ∧ Ready bytes m

/-- And these, with what may be in the variable. -/
def Owed (bytes : List Byte) : Claim := fun m =>
  m.Had (bytes ++ if m.full then [m.byte] else [])

theorem receivedWord_byte (byte : Byte) :
    (receivedWord byte).getLsbD 16 = true ∧ (receivedWord byte).setWidth 8 = byte := by
  constructor
  · rw [receivedWord, BitVec.getLsbD_append, if_neg (by decide)]
    rfl
  · rw [receivedWord, BitVec.setWidth_append, dif_pos (Nat.le_refl 8)]
    exact BitVec.setWidth_eq byte

section
variable {bytes : List Byte} {m : Mailbox}

theorem full_put (m : Mailbox) (byte : Byte) : (m.put byte).full = true :=
  (receivedWord_byte byte).1

theorem byte_put (m : Mailbox) (byte : Byte) : (m.put byte).byte = byte :=
  (receivedWord_byte byte).2

theorem follows_kept : (Follows bytes).Kept := by
  intro m byte h
  refine ⟨h.1.trans (List.sublist_append_left ..), fun hnone => Or.inr ⟨full_put m byte, byte, ?_⟩⟩
  obtain ⟨hbefore, hempty⟩ := Bool.or_eq_false_iff.mp hnone
  rcases h.2 hbefore with hall | ⟨hfull, -⟩
  · exact congrArg (· ++ [byte]) hall
  · exact absurd (hfull.symm.trans hempty) Bool.noConfusion

theorem owed_init : Owed [] .init := by
  have hempty : Mailbox.init.full = false := by decide
  rw [Owed, if_neg (by rw [hempty]; exact Bool.false_ne_true)]
  exact ⟨List.Sublist.refl _, fun _ => rfl⟩

theorem Ready.owed (h : Ready bytes m) : Owed bytes m := by
  rw [Owed, if_pos h.1]
  exact h.2

theorem Owed.ready (h : Owed bytes m) (hfull : m.full = true) : Ready bytes m := by
  rw [Owed, if_pos hfull] at h
  exact ⟨hfull, h⟩

theorem Taken.owed (h : Taken bytes m) : Owed bytes (m.set 0) := by
  have hempty : (m.set 0).full = false := (by decide : (0 : Word).getLsbD 16 = false)
  rw [Owed, if_neg (by rw [hempty]; exact Bool.false_ne_true), List.append_nil]
  exact h.2

/-- A byte that comes in is the next one to be owed, or the last one gets lost. -/
theorem owed_kept : (Owed bytes).Kept := by
  intro m byte h
  refine Ready.owed ⟨full_put m byte, ?_⟩
  rw [byte_put]
  refine ⟨((List.sublist_append_left ..).trans h.1).append (List.Sublist.refl _), fun hnone => ?_⟩
  obtain ⟨hbefore, hempty⟩ := Bool.or_eq_false_iff.mp hnone
  have hall := h.2 hbefore
  rw [if_neg (by rw [hempty]; exact Bool.false_ne_true), List.append_nil] at hall
  exact congrArg (· ++ [byte]) hall

theorem ready_kept : (Ready bytes).Kept :=
  fun m byte h => Owed.ready (owed_kept m byte h.owed) (full_put m byte)

theorem taken_kept : (Taken bytes).Kept := by
  intro m byte h
  refine ⟨full_put m byte, h.2.1.trans (List.sublist_append_left ..), fun hnone => ?_⟩
  have hempty := (Bool.or_eq_false_iff.mp hnone).2
  exact absurd (h.1.symm.trans hempty) Bool.noConfusion

end

/-- What has been stored, and what is said of the rest. -/
structure Stands (uartRxData : Word) (event : ℕ → Event) (stores : List (Word × Word))
    (claim : Claim) (t : ℕ) : Prop where
  stores_eq : (busAt uartRxData event t).stores = stores
  claim : claim (busAt uartRxData event t).mailbox

section
variable {uartRxData : Word} {event : ℕ → Event} {stores : List (Word × Word)}
  {claim claim' : Claim} {addr w : Word} {byte : Byte} {t : ℕ}

theorem busAt_succ (uartRxData : Word) {e : Event} (h : event t = e) :
    busAt uartRxData event (t + 1) = (busAt uartRxData event t).step uartRxData e := by
  rw [← h]
  rfl

theorem Stands.imp (h : Stands uartRxData event stores claim t)
    (hclaim : ∀ m, claim m → claim' m) : Stands uartRxData event stores claim' t :=
  ⟨h.stores_eq, hclaim _ h.claim⟩

theorem stable_stands (hkept : claim.Kept) :
    Stable (traffic uartRxData event) (Stands uartRxData event stores claim) := by
  intro t hquiet h
  rcases hquiet with hidle | ⟨byte, hhandler⟩
  · have hbus := busAt_succ uartRxData hidle
    constructor
    · rw [hbus]
      exact h.stores_eq
    · rw [hbus]
      exact h.claim
  · have hbus := busAt_succ uartRxData hhandler
    constructor
    · rw [hbus]
      exact h.stores_eq
    · rw [hbus]
      exact hkept _ _ h.claim

theorem Stands.load (h : Stands uartRxData event stores claim t)
    (hload : (traffic uartRxData event).loads t addr w) :
    Stands uartRxData event stores claim (t + 1) := by
  have hbus := busAt_succ uartRxData hload.1
  constructor
  · rw [hbus]
    exact h.stores_eq
  · rw [hbus]
    exact h.claim

/-- A store to a register. -/
theorem Stands.store (h : Stands uartRxData event stores claim t) (haddr : addr ≠ uartRxData)
    (hstore : (traffic uartRxData event).stores t addr w) :
    Stands uartRxData event (stores ++ [(addr, w)]) claim (t + 1) := by
  have hbus := busAt_succ uartRxData hstore
  rw [Bus.step, if_neg haddr] at hbus
  constructor
  · rw [hbus, ← h.stores_eq]
  · rw [hbus]
    exact h.claim

/-- A store to the variable. -/
theorem Stands.store_variable (h : Stands uartRxData event stores claim t)
    (hstore : (traffic uartRxData event).stores t uartRxData w)
    (hclaim : ∀ m, claim m → claim' (m.set w)) :
    Stands uartRxData event stores claim' (t + 1) := by
  have hbus := busAt_succ uartRxData hstore
  rw [Bus.step, if_pos rfl] at hbus
  constructor
  · rw [hbus]
    exact h.stores_eq
  · rw [hbus]
    exact hclaim _ h.claim

end

/-! ## The accesses of the program -/

section
variable (uartRxData : Word) (event : ℕ → Event)

/-- Only the stores `rest` are missing from those of the rounds `l`. -/
def Towards (l : List Round) (rest : List (Word × Word)) (claim : Claim) (t : ℕ) : Prop :=
  ∃ stores, stores ++ rest = log l ∧ Stands uartRxData event stores claim t

/-- There have been the first stores of some rounds, and what has been sent has come in. -/
def Explained (t : ℕ) : Prop :=
  ∃ l, (busAt uartRxData event t).stores <+: log l ∧
    ∃ echo, Shows echo (busAt uartRxData event t).stores ∧
      Follows echo (busAt uartRxData event t).mailbox

/-- After `n` rounds. -/
def Between (n : ℕ) (r : Option Main) (t : ℕ) : Prop :=
  r.elim (Explained uartRxData event t) fun s => ∃ l, (l.length = n ∧ Main.init.after l = s) ∧
    Towards uartRxData event l [] (Owed (echoed l)) t

/-- The handler keeps the claim, from which it follows that the bytes sent so far have come in. -/
structure Claim.Covers (claim : Claim) (l : List Round) (rest : List (Word × Word)) : Prop where
  kept : claim.Kept
  follows : ∃ echo, EchoedBefore l rest echo ∧ ∀ m, claim m → Follows echo m

end

section
variable {bytes : List Byte} {byte : Byte} {m : Mailbox} {l : List Round}
  {rest : List (Word × Word)}

theorem Taken.follows (h : Taken bytes m) : Follows bytes m :=
  ⟨h.2.1, fun hnone => Or.inl (h.2.2 hnone)⟩

/-- The last byte may be one that has not been sent yet. -/
theorem Taken.follows_more (h : Taken (bytes ++ [byte]) m) : Follows bytes m :=
  ⟨(List.sublist_append_left ..).trans h.2.1, fun hnone => Or.inr ⟨h.1, byte, h.2.2 hnone⟩⟩

theorem Owed.follows (h : Owed bytes m) : Follows bytes m := by
  refine ⟨(List.sublist_append_left ..).trans h.1, fun hnone => ?_⟩
  have hall := h.2 hnone
  split_ifs at hall with hfull
  · exact Or.inr ⟨hfull, m.byte, hall⟩
  · exact Or.inl ((List.append_nil _).symm.trans hall)

theorem tested_kept : (Tested bytes byte).Kept :=
  fun m byte h => ⟨taken_kept m byte h.1, ready_kept m byte h.2⟩

theorem covers_owed (h : EchoedBefore l rest bytes) : (Owed bytes).Covers l rest :=
  ⟨owed_kept, bytes, h, fun _ => Owed.follows⟩

theorem covers_tested (h : EchoedBefore l rest bytes) : (Tested bytes byte).Covers l rest :=
  ⟨tested_kept, bytes, h, fun _ h => h.2.owed.follows⟩

theorem covers_taken (h : EchoedBefore l rest bytes) : (Taken bytes).Covers l rest :=
  ⟨taken_kept, bytes, h, fun _ => Taken.follows⟩

theorem covers_more (h : EchoedBefore l rest bytes) : (Taken (bytes ++ [byte])).Covers l rest :=
  ⟨taken_kept, bytes, h, fun _ => Taken.follows_more⟩

end

section
variable {uartRxData : Word} {event : ℕ → Event} {l : List Round} {rest : List (Word × Word)}
  {claim : Claim} {addr w : Word} {t : ℕ}

theorem stable_towards (h : claim.Kept) :
    Stable (traffic uartRxData event) (Towards uartRxData event l rest claim) :=
  fun t hquiet ⟨stores, hlog, hstands⟩ => ⟨stores, hlog, stable_stands h t hquiet hstands⟩

theorem Towards.explained (h : Towards uartRxData event l rest claim t)
    (hclaim : claim.Covers l rest) : Explained uartRxData event t := by
  obtain ⟨stores, hlog, hstands⟩ := h
  obtain ⟨echo, hecho, hfollows⟩ := hclaim.follows
  rw [Explained, hstands.stores_eq]
  exact ⟨l, ⟨rest, hlog⟩, echo, hecho.shows hlog, hfollows _ hstands.claim⟩

theorem stable_explained : Stable (traffic uartRxData event) (Explained uartRxData event) := by
  rintro t hquiet ⟨l, hprefix, echo, hshows, hfollows⟩
  have h : Stands uartRxData event _ (Follows echo) t := ⟨rfl, hfollows⟩
  obtain ⟨hstores, hnext⟩ := stable_stands follows_kept t hquiet h
  rw [Explained, hstores]
  exact ⟨l, hprefix, echo, hshows, hnext⟩

theorem Towards.imp {claim' : Claim} (h : Towards uartRxData event l rest claim t)
    (hclaim : ∀ m, claim m → claim' m) : Towards uartRxData event l rest claim' t := by
  obtain ⟨stores, hlog, hstands⟩ := h
  exact ⟨stores, hlog, hstands.imp hclaim⟩

theorem write_spec (hclaim : claim.Covers l ((addr, w) :: rest)) (hclaim' : claim.Covers l rest)
    (haddr : addr ≠ uartRxData) : Always (traffic uartRxData event) (Explained uartRxData event)
      (Towards uartRxData event l ((addr, w) :: rest) claim) (.write addr w)
      (fun _ => Towards uartRxData event l rest claim) := by
  refine .store (stable_towards hclaim.kept) (fun t h => h.explained hclaim) ?_
    (.done (stable_towards hclaim.kept) (fun _ h => h) fun t h => h.explained hclaim')
  rintro t ⟨stores, hlog, hstands⟩ hstore
  refine ⟨stores ++ [(addr, w)], ?_, hstands.store haddr hstore⟩
  rw [List.append_assoc]
  exact hlog

theorem read_spec (hclaim : claim.Covers l rest) :
    Always (traffic uartRxData event) (Explained uartRxData event)
      (Towards uartRxData event l rest claim) (.read addr)
      (fun _ => Towards uartRxData event l rest claim) := by
  refine .load (R := fun _ => Towards uartRxData event l rest claim)
    (stable_towards hclaim.kept) (fun t h => h.explained hclaim) ?_ fun w =>
    .done (stable_towards hclaim.kept) (fun _ h => h) fun t h => h.explained hclaim
  rintro t w ⟨stores, hlog, hstands⟩ hload
  exact ⟨stores, hlog, hstands.load hload⟩

/-- The word the variable is loaded with. -/
theorem read_variable_spec (claim' : Word → Claim) (hclaim : claim.Covers l rest)
    (hclaim' : ∀ w, (claim' w).Covers l rest)
    (h : ∀ m, claim m → claim' m.uartRxData m) :
    Always (traffic uartRxData event) (Explained uartRxData event)
      (Towards uartRxData event l rest claim) (.read uartRxData)
      (fun w => Towards uartRxData event l rest (claim' w)) := by
  refine .load (R := fun w => Towards uartRxData event l rest (claim' w))
    (stable_towards hclaim.kept) (fun t h => h.explained hclaim) ?_ fun w =>
    .done (stable_towards (hclaim' w).kept) (fun _ h => h) fun t h => h.explained (hclaim' w)
  rintro t w ⟨stores, hlog, hstands⟩ hload
  have hvariable : Stands uartRxData event stores (fun m => m.uartRxData = w ∧ claim m) t :=
    ⟨hstands.stores_eq, (hload.2 rfl).symm, hstands.claim⟩
  refine ⟨stores, hlog, Stands.imp (hvariable.load hload) ?_⟩
  rintro m ⟨rfl, hm⟩
  exact h m hm

theorem write_variable_spec {claim' : Claim} (hclaim : claim.Covers l rest)
    (hclaim' : claim'.Covers l rest) (h : ∀ m, claim m → claim' (m.set w)) :
    Always (traffic uartRxData event) (Explained uartRxData event)
      (Towards uartRxData event l rest claim) (.write uartRxData w)
      (fun _ => Towards uartRxData event l rest claim') := by
  refine .store (stable_towards hclaim.kept) (fun t h => h.explained hclaim) ?_
    (.done (stable_towards hclaim'.kept) (fun _ h => h) fun t h => h.explained hclaim')
  rintro t ⟨stores, hlog, hstands⟩ hstore
  exact ⟨stores, hlog, hstands.store_variable hstore h⟩

theorem uartTxReady_spec (hclaim : claim.Covers l rest) :
    Always (traffic uartRxData event) (Explained uartRxData event)
      (Towards uartRxData event l rest claim) uartTxReady
      (fun _ => Towards uartRxData event l rest claim) :=
  (read_spec hclaim).bind fun _ =>
    .done (stable_towards hclaim.kept) (fun _ h => h) fun _ h => h.explained hclaim

/-- What holds behind a wait that may have been given up. -/
def Unless (uartRxData : Word) (event : ℕ → Event) (P : ℕ → Prop) (ok : Bool) (t : ℕ) : Prop :=
  if ok then P t else Explained uartRxData event t

theorem given_up_spec (P : ℕ → Prop) :
    Always (traffic uartRxData event) (Explained uartRxData event) (Explained uartRxData event)
      (.done false) (Unless uartRxData event P) :=
  .done stable_explained (fun _ h => h) fun _ h => h

theorem success_spec {P : ℕ → Prop} (hstable : Stable (traffic uartRxData event) P)
    (hP : ∀ t, P t → Explained uartRxData event t) :
    Always (traffic uartRxData event) (Explained uartRxData event) P (.done true)
      (Unless uartRxData event P) :=
  .done hstable (fun _ h => h) hP

theorem uartTxByte_spec {byte : Byte} (hclaim : claim.Covers l (toUart byte :: rest))
    (hclaim' : claim.Covers l rest) (hdata : regUartData ≠ uartRxData) (polls : ℕ) :
    Always (traffic uartRxData event) (Explained uartRxData event)
      (Towards uartRxData event l (toUart byte :: rest) claim) (uartTxByte byte polls)
      (Unless uartRxData event (Towards uartRxData event l rest claim)) := by
  induction polls with
  | zero =>
    exact (given_up_spec _).of_imp fun _ h => h.explained hclaim
  | succ polls ih =>
    refine (uartTxReady_spec hclaim).bind fun ready => ?_
    cases ready with
    | true =>
      exact (write_spec hclaim hclaim' hdata).bind fun _ =>
        success_spec (stable_towards hclaim.kept) fun _ h => h.explained hclaim'
    | false => exact ih

theorem uartTxString_spec (rest : List (Word × Word)) (hclaim : ∀ rest, claim.Covers l rest)
    (hdata : regUartData ≠ uartRxData) (polls : ℕ) (str : List Byte) :
    Always (traffic uartRxData event) (Explained uartRxData event)
      (Towards uartRxData event l (str.map toUart ++ rest) claim) (uartTxString polls str)
      (Unless uartRxData event (Towards uartRxData event l rest claim)) := by
  induction str with
  | nil => exact success_spec (stable_towards (hclaim []).kept) fun _ h => h.explained (hclaim _)
  | cons byte str ih =>
    refine (uartTxByte_spec (hclaim _) (hclaim _) hdata polls).bind fun ok => ?_
    cases ok with
    | true => exact ih
    | false => exact given_up_spec _

/-! ## A round -/

theorem Towards.echo_none (h : Towards uartRxData event (l ++ [⟨i, none⟩]) [] claim t)
    (byte : Byte) : Towards uartRxData event (l ++ [⟨i, some byte⟩]) [toUart byte] claim t := by
  obtain ⟨stores, hlog, hstands⟩ := h
  refine ⟨stores, ?_, hstands⟩
  rw [List.append_nil] at hlog
  rw [hlog, log_append, log_append]
  exact congrArg (· ++ [toUart byte]) (List.append_nil _)

/-- A round that has echoed at most a byte is over. -/
def Over (uartRxData : Word) (event : ℕ → Event) (l : List Round) (i : Word) (t : ℕ) : Prop :=
  ∃ echo, Towards uartRxData event (l ++ [⟨i, echo⟩]) [] (Owed (echoed (l ++ [⟨i, echo⟩]))) t

theorem stable_over : Stable (traffic uartRxData event) (Over uartRxData event l i) :=
  fun t hquiet ⟨echo, h⟩ => ⟨echo, stable_towards owed_kept t hquiet h⟩

theorem Over.explained (h : Over uartRxData event l i t) : Explained uartRxData event t := by
  obtain ⟨echo, h⟩ := h
  exact h.explained (covers_owed (Or.inl (List.append_nil _)))

theorem over_spec : Always (traffic uartRxData event) (Explained uartRxData event)
    (Over uartRxData event l i) (.done true)
    (Unless uartRxData event (Over uartRxData event l i)) :=
  success_spec stable_over fun _ h => h.explained

theorem echoed_none (l : List Round) (i : Word) : echoed (l ++ [⟨i, none⟩]) = echoed l :=
  (echoed_append l ⟨i, none⟩).trans (List.append_nil _)

theorem echoed_some (l : List Round) (i : Word) (byte : Byte) :
    echoed (l ++ [⟨i, some byte⟩]) = echoed l ++ [byte] :=
  echoed_append l ⟨i, some byte⟩

/-- Nothing is echoed in this round. -/
theorem silent_spec : Always (traffic uartRxData event) (Explained uartRxData event)
    (Towards uartRxData event (l ++ [⟨i, none⟩]) [] (Owed (echoed l))) (.done true)
    (Unless uartRxData event (Over uartRxData event l i)) := by
  refine over_spec.of_imp fun t h => ?_
  rw [← echoed_none l i] at h
  exact ⟨none, h⟩

theorem sendReceived_spec (hdata : regUartData ≠ uartRxData) (byte : Byte) (polls : ℕ) :
    Always (traffic uartRxData event) (Explained uartRxData event)
      (Towards uartRxData event (l ++ [⟨i, none⟩]) [] (Tested (echoed l) byte))
      (sendReceived uartRxData byte polls)
      (Unless uartRxData event (Over uartRxData event l i)) := by
  have hbefore : EchoedBefore (l ++ [⟨i, some byte⟩]) [toUart byte] (echoed l) :=
    Or.inl (by rw [echoed_some]; exact congrArg (echoed l ++ ·) (sent_toUart [byte]))
  have hafter : EchoedBefore (l ++ [⟨i, some byte⟩]) [] (echoed l ++ [byte]) :=
    Or.inl (by rw [echoed_some]; exact List.append_nil _)
  refine Always.bind ((uartTxByte_spec (covers_more hbefore) (covers_taken hafter) hdata
    polls).of_imp fun _ h => (h.imp fun _ h => h.1).echo_none byte) fun ok => ?_
  cases ok with
  | false => exact given_up_spec _
  | true =>
    refine (write_variable_spec (covers_taken hafter) (covers_owed hafter) ?_).bind fun _ => ?_
    · exact fun _ h => Taken.owed h
    · rw [← echoed_some l i]
      exact over_spec.of_imp fun t h => ⟨_, h⟩

theorem echo_spec (hdata : regUartData ≠ uartRxData) (polls : ℕ) :
    Always (traffic uartRxData event) (Explained uartRxData event)
      (Towards uartRxData event (l ++ [⟨i, none⟩]) [] (Owed (echoed l))) (echo uartRxData polls)
      (Unless uartRxData event (Over uartRxData event l i)) := by
  have hsame : EchoedBefore (l ++ [⟨i, none⟩]) [] (echoed l) :=
    Or.inl (by rw [echoed_none]; exact List.append_nil _)
  refine (read_variable_spec (fun w => if w.getLsbD 16 then Tested (echoed l) (w.setWidth 8)
    else Owed (echoed l)) (covers_owed hsame) ?_ ?_).bind fun w => ?_
  · intro w
    split_ifs
    · exact covers_tested hsame
    · exact covers_owed hsame
  · intro m h
    split_ifs with hfull
    · have hready : Ready (echoed l) m := Owed.ready h hfull
      exact ⟨hready, hready⟩
    · exact h
  · cases hvalid : w.getLsbD 16 with
    | false => exact silent_spec
    | true =>
      refine (uartTxReady_spec (covers_tested hsame)).bind fun ready => ?_
      cases ready with
      | true => exact sendReceived_spec hdata (w.setWidth 8) polls
      | false =>
        exact silent_spec.of_imp fun _ h => h.imp fun _ h => Ready.owed h.2

theorem Towards.begins (h : Towards uartRxData event l [] claim t) (i : Word) :
    Towards uartRxData event (l ++ [⟨i, none⟩]) ((Main.init.after l).stores i) claim t := by
  obtain ⟨stores, hlog, hstands⟩ := h
  refine ⟨stores, ?_, hstands⟩
  rw [List.append_nil] at hlog
  rw [hlog, log_append]
  exact (List.append_nil _).symm

theorem stable_between (n : ℕ) (r : Option Main) :
    Stable (traffic uartRxData event) (Between uartRxData event n r) := by
  cases r with
  | none => exact stable_explained
  | some s =>
    rintro t hquiet ⟨l, hl, h⟩
    exact ⟨l, hl, stable_towards owed_kept t hquiet h⟩

theorem Between.explained {n : ℕ} {r : Option Main} (h : Between uartRxData event n r t) :
    Explained uartRxData event t := by
  cases r with
  | none => exact h
  | some s =>
    obtain ⟨l, -, h⟩ := h
    exact h.explained (covers_owed (Or.inl (List.append_nil _)))

/-- Where the registers are. -/
theorem ne_of_ram (hram : uartRxData < regGpioLedL) (haddr : regGpioLedL ≤ addr) :
    addr ≠ uartRxData := by
  rintro rfl
  exact absurd hram (BitVec.not_lt.mpr haddr)

theorem round_spec (hram : uartRxData < regGpioLedL) (polls : ℕ) :
    Always (traffic uartRxData event) (Explained uartRxData event)
      (Towards uartRxData event l [] (Owed (echoed l)))
      (round uartRxData polls (Main.init.after l)) (Between uartRxData event (l.length + 1)) := by
  refine (read_spec (covers_owed (Or.inl (List.append_nil _)))).bind fun input => ?_
  -- none of the stores up to the echo is to the UART
  have hclaim : ∀ rest, sent rest = [] →
      (Owed (echoed l)).Covers (l ++ [⟨~~~input &&& 0xff, none⟩]) rest := by
    intro rest hrest
    refine covers_owed (Or.inl ?_)
    rw [hrest, echoed_none]
    exact List.append_nil _
  refine Always.of_imp ?_ fun t h => h.begins (~~~input &&& 0xff)
  refine (write_spec (hclaim _ rfl) (hclaim _ rfl) (ne_of_ram hram (by decide))).bind fun _ => ?_
  refine (write_spec (hclaim _ rfl) (hclaim _ rfl) (ne_of_ram hram (by decide))).bind fun _ => ?_
  refine (write_spec (hclaim _ rfl) (hclaim _ rfl) (ne_of_ram hram (by decide))).bind fun _ => ?_
  refine Always.bind (Q := fun _ => Towards uartRxData event (l ++ [⟨~~~input &&& 0xff, none⟩]) []
    (Owed (echoed l))) ?_ fun _ => ?_
  · exact (write_spec (hclaim _ rfl) (hclaim _ rfl) (ne_of_ram hram (by decide))).bind fun _ =>
      write_spec (hclaim _ rfl) (hclaim _ rfl) (ne_of_ram hram (by decide))
  · refine (echo_spec (ne_of_ram hram (by decide)) polls).bind fun ok => ?_
    cases ok with
    | false => exact .done (stable_between _ none) (fun _ h => h) fun _ h => h
    | true =>
      refine .done (stable_between _ _) ?_ fun _ h => Between.explained h
      rintro t ⟨echo, h⟩
      have hafter := after_append .init l ⟨~~~input &&& 0xff, echo⟩
      exact ⟨l ++ [⟨~~~input &&& 0xff, echo⟩], ⟨List.length_append, hafter⟩, h⟩

theorem rounds_spec (hram : uartRxData < regGpioLedL) (polls n : ℕ) :
    Always (traffic uartRxData event) (Explained uartRxData event)
      (Towards uartRxData event l [] (Owed (echoed l)))
      (rounds uartRxData polls n (Main.init.after l))
      (Between uartRxData event (l.length + n)) := by
  induction n generalizing l with
  | zero =>
    exact .done (stable_between _ _) (fun t h => ⟨l, ⟨rfl, rfl⟩, h⟩) fun _ h => Between.explained h
  | succ n ih =>
    refine (round_spec hram polls).bind fun r => ?_
    cases r with
    | none => exact .done (stable_between _ none) (fun _ h => h) fun _ h => h
    | some s =>
      refine .of_exists fun l' => .of_and fun hl' => ?_
      obtain ⟨hlength, rfl⟩ := hl'
      have hall := ih (l := l')
      rw [hlength, Nat.add_assoc, Nat.add_comm 1] at hall
      exact hall

theorem main_spec (hram : uartRxData < regGpioLedL) (polls n : ℕ) :
    Always (traffic uartRxData event) (Explained uartRxData event)
      (Towards uartRxData event [] (greeting.map toUart) (Owed [])) (main uartRxData polls n)
      (Between uartRxData event n) := by
  refine Always.bind
    (Q := Unless uartRxData event (Towards uartRxData event [] [] (Owed []))) ?_ fun ok => ?_
  · rw [← List.append_nil (greeting.map toUart)]
    exact uartTxString_spec [] (fun rest => covers_owed (Or.inr ⟨rfl, rfl⟩))
      (ne_of_ram hram (by decide)) polls greeting
  · cases ok with
    | false => exact .done (stable_between _ none) (fun _ h => h) fun _ h => h
    | true =>
      have hrounds : Always (traffic uartRxData event) _ _ _ _ := rounds_spec (l := []) hram polls n
      rw [List.length_nil, Nat.zero_add] at hrounds
      exact hrounds

theorem main_comes (hram : uartRxData < regGpioLedL) {u polls n : ℕ} {q : Firmware (Option Main)}
    (hcomes : Comes (traffic uartRxData event) (main uartRxData polls n) 0 q u) :
    Explained uartRxData event u ∧ ∀ r, q = .done r → Between uartRxData event n r u := by
  exact main_spec hram polls n 0 u q ⟨[], (List.append_nil _).symm, rfl, owed_init⟩ hcomes

/-- Whenever the handler comes in between: `main` sends the greeting, and then bytes that have
come in, in this order and none of them twice. If each byte has come in when the last one was
cleared, what has been sent behind the greeting is at every moment all of them but at most the
last one. -/
theorem echoes_received (hram : uartRxData < regGpioLedL) {u polls n : ℕ}
    {q : Firmware (Option Main)}
    (hcomes : Comes (traffic uartRxData event) (main uartRxData polls n) 0 q u) :
    let bus := busAt uartRxData event u
    let received := bus.mailbox.received
    ∃ echo, (sent bus.stores = greeting ++ echo ∨
        echo = [] ∧ sent bus.stores <+: greeting) ∧ echo.Sublist received ∧
      (bus.mailbox.overwritten = false → ∃ rest, echo ++ rest = received ∧ rest.length ≤ 1) ∧
      ∀ s, q = .done (some s) → sent bus.stores = greeting ++ echo := by
  intro bus received
  have hfollows : ∀ bytes, Follows bytes bus.mailbox → bytes.Sublist received ∧
      (bus.mailbox.overwritten = false → ∃ rest, bytes ++ rest = received ∧ rest.length ≤ 1) := by
    intro bytes h
    refine ⟨h.1, fun hnone => ?_⟩
    rcases h.2 hnone with hall | ⟨-, byte, hbyte⟩
    · exact ⟨[], (List.append_nil _).trans hall, Nat.zero_le _⟩
    · exact ⟨[byte], hbyte, Nat.le_refl _⟩
  obtain ⟨⟨-, -, echo, hshows, hecho⟩, hdone⟩ := main_comes hram hcomes
  by_cases hover : ∃ s, q = .done (some s)
  · obtain ⟨s, rfl⟩ := hover
    obtain ⟨l, -, stores, hlog, hstands⟩ := hdone _ rfl
    obtain ⟨hsublist, hrest⟩ := hfollows _ (Owed.follows hstands.claim)
    have hsent : sent bus.stores = greeting ++ echoed l := by
      rw [hstands.stores_eq, ← sent_log, ← hlog, List.append_nil]
    exact ⟨echoed l, Or.inl hsent, hsublist, hrest, fun _ _ => hsent⟩
  · obtain ⟨hsublist, hrest⟩ := hfollows _ hecho
    exact ⟨echo, hshows, hsublist, hrest, fun s hs => absurd ⟨s, hs⟩ hover⟩

end

/-! ## Every program can be performed -/

/-- The accesses without a clock between them, with a UART that is ready at once, and the
result. -/
def script {α : Type} (uartRxData : Word) : Firmware α → Mailbox → List Event × α
  | .done a, _ => ([], a)
  | .load addr next, m =>
    let w := if addr = uartRxData then m.uartRxData else 1
    let rest := script uartRxData (next w) m
    (.load addr w :: rest.1, rest.2)
  | .store addr w next, m =>
    let rest := script uartRxData next (if addr = uartRxData then m.set w else m)
    (.store addr w :: rest.1, rest.2)

theorem script_performs {α : Type} {uartRxData : Word} {event : ℕ → Event} (p : Firmware α)
    {m : Mailbox} {t : ℕ} (hm : (busAt uartRxData event t).mailbox = m)
    (hevent : ∀ i < (script uartRxData p m).1.length,
      event (t + i) = (script uartRxData p m).1.getD i .idle) :
    Performs (traffic uartRxData event) p t (t + (script uartRxData p m).1.length)
      (script uartRxData p m).2 := by
  induction p generalizing m t with
  | done a => exact .done a t
  | load addr next ih =>
    let w := if addr = uartRxData then m.uartRxData else 1
    have hfirst : event t = .load addr w := hevent 0 (Nat.succ_pos _)
    have hmailbox : (busAt uartRxData event (t + 1)).mailbox = m := by
      rw [busAt_succ uartRxData hfirst]
      exact hm
    have hrest := ih w hmailbox fun i hi => by
      rw [Nat.add_assoc, Nat.add_comm 1 i]
      exact hevent (i + 1) (Nat.succ_lt_succ hi)
    rw [Nat.add_assoc, Nat.add_comm 1] at hrest
    refine .loads ⟨hfirst, fun haddr => ?_⟩ hrest
    rw [hm]
    exact if_pos haddr
  | store addr w next ih =>
    have hfirst : event t = .store addr w := hevent 0 (Nat.succ_pos _)
    have hmailbox : (busAt uartRxData event (t + 1)).mailbox =
        if addr = uartRxData then m.set w else m := by
      rw [busAt_succ uartRxData hfirst, Bus.step, ← hm]
      split_ifs <;> rfl
    have hrest := ih hmailbox fun i hi => by
      rw [Nat.add_assoc, Nat.add_comm 1 i]
      exact hevent (i + 1) (Nat.succ_lt_succ hi)
    rw [Nat.add_assoc, Nat.add_comm 1] at hrest
    exact .stores hfirst hrest

/-- A byte that has come in ahead of the program, which makes one round. -/
def early (i : ℕ) : Event :=
  if i = 0 then .handler 0x41
  else (script 0x100 (main 0x100 1 1) (Mailbox.init.put 0x41)).1.getD (i - 1) .idle

/-- The clock in which the round is over. -/
def earlyEnd : ℕ := 1 + (script 0x100 (main 0x100 1 1) (Mailbox.init.put 0x41)).1.length

theorem early_comes : ∃ s,
    Comes (traffic 0x100 early) (main 0x100 1 1) 0 (.done (some s)) earlyEnd := by
  have hmailbox : (busAt 0x100 early 1).mailbox = Mailbox.init.put 0x41 := rfl
  have hperforms := script_performs (main 0x100 1 1) hmailbox fun i _ => by
    rw [early, if_neg (by omega), Nat.add_sub_cancel_left]
  have hdone : (script 0x100 (main 0x100 1 1) (Mailbox.init.put 0x41)).2.isSome = true := by
    decide +kernel
  obtain ⟨s, hs⟩ := Option.isSome_iff_exists.mp hdone
  rw [hs] at hperforms
  exact ⟨s, Performs.comes (.waits (Or.inr ⟨0x41, rfl⟩) hperforms)⟩

/-- The byte is sent behind the greeting. -/
theorem echoes_received_early : ∃ s,
    Comes (traffic 0x100 early) (main 0x100 1 1) 0 (.done (some s)) earlyEnd ∧
    ∃ echo, echo = [0x41] ∧ sent (busAt 0x100 early earlyEnd).stores = greeting ++ echo ∧
      echo.Sublist (busAt 0x100 early earlyEnd).mailbox.received := by
  obtain ⟨s, hcomes⟩ := early_comes
  obtain ⟨echo, -, hreceived, -, hsent⟩ := echoes_received (by decide) hcomes
  have hbyte : sent (busAt 0x100 early earlyEnd).stores = greeting ++ [0x41] := by decide +kernel
  exact ⟨s, hcomes, echo, List.append_cancel_left ((hsent s rfl).symm.trans hbyte), hsent s rfl,
    hreceived⟩

end SeccampRiscvCpu.StepperBootrom
