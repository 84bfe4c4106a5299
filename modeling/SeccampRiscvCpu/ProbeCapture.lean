import SeccampRiscvCpu.FifoQueue
import SeccampRiscvCpu.ProbeStream

/-!
# The capture of the logic probe

`Probe` keeps the latest samples in a queue, waits for a trigger, fills the queue
up and sends what it holds as one frame. Between two captures the queue is empty;
in one it always holds the samples of consecutive clocks, the last of them the
clock before. Once the queue is full it is only drained.
-/
namespace SeccampRiscvCpu.ProbeCapture
open ClockedMachine FifoQueue
open ProbeStream (ProbeOutput)

/-- The module asserts that the depth is a power of two. -/
structure ProbeConfig where
  bufferDepth : ℕ
  triggerPosition : ℕ
  isPow2 : ∃ n, bufferDepth = 2 ^ n

inductive State where
  | reset
  | fillPreTrigger
  | awaitingTrigger
  | fillPostTrigger
  | output
deriving DecidableEq, Repr

/-- The inputs of one clock; `bufferBits` is what an empty queue shows. -/
structure Inputs (width : ℕ) where
  in_ : BitVec width
  trigger : Bool
  outReady : Bool
  bufferBits : BitVec width
deriving DecidableEq

structure Probe (config : ProbeConfig) (width : ℕ) where
  state : State
  buffer : Fifo (BitVec width) config.bufferDepth
  triggerCount : BitVec (Nat.clog 2 config.bufferDepth)
  outValid : Bool
  outData : BitVec width
  hasTriggered : Bool
deriving DecidableEq

namespace Probe
variable {config : ProbeConfig} {width : ℕ}

def init (config : ProbeConfig) (width : ℕ) : Probe config width :=
  ⟨.reset, .empty _ _, 0, false, 0, false⟩

def triggerPosition (config : ProbeConfig) : BitVec config.bufferDepth :=
  .ofNat _ config.triggerPosition

/-- `io.triggered` -/
def triggered (p : Probe config width) (i : Inputs width) : Bool :=
  p.state == .awaitingTrigger && (i.trigger || p.hasTriggered)

/-- What is offered to the queue. -/
def inOffer (p : Probe config width) (i : Inputs width) : Option (BitVec width) :=
  match p.state with
  | .fillPreTrigger | .awaitingTrigger | .fillPostTrigger => some i.in_
  | .reset | .output => none

def bufferReady (p : Probe config width) (i : Inputs width) : Bool :=
  match p.state with
  | .awaitingTrigger => !(i.trigger || p.hasTriggered)
  | .output => !p.outValid || i.outReady
  | .reset | .fillPreTrigger | .fillPostTrigger => false

def outLast (p : Probe config width) : Bool := p.state == .output && !p.buffer.deqValid

def nextState (p : Probe config width) (i : Inputs width) : State :=
  match p.state with
  | .reset => if triggerPosition config = 0 then .awaitingTrigger else .fillPreTrigger
  | .fillPreTrigger =>
    if p.triggerCount.toNat = (triggerPosition config - 1).toNat then .awaitingTrigger
    else .fillPreTrigger
  | .awaitingTrigger => if i.trigger || p.hasTriggered then .fillPostTrigger else .awaitingTrigger
  | .fillPostTrigger => if p.buffer.enqReady then .fillPostTrigger else .output
  | .output => if p.outValid && i.outReady && p.outLast then .reset else .output

def step (p : Probe config width) (i : Inputs width) : Probe config width :=
  let loads := p.state == .output && (!p.outValid || i.outReady)
  { state := p.nextState i
    buffer := p.buffer.step (p.inOffer i) (p.bufferReady i) (p.state == .reset)
    triggerCount :=
      match p.state with
      | .reset => 0
      | .fillPreTrigger => p.triggerCount + 1
      | _ => p.triggerCount
    outValid :=
      if p.state == .reset then false else if loads then p.buffer.deqValid else p.outValid
    outData := if loads then p.buffer.entries.head?.getD i.bufferBits else p.outData
    hasTriggered := if p.state == .output then false else i.trigger || p.hasTriggered }

/-- The word that is transferred in this clock. -/
def emit (p : Probe config width) (i : Inputs width) : List (ProbeOutput width) :=
  if p.outValid && i.outReady then [⟨p.outData, p.outLast⟩] else []

def machine (config : ProbeConfig) (width : ℕ) :
    Machine (Probe config width) (Inputs width) (ProbeOutput width) := ⟨step, emit⟩

end Probe

/-! ## Windows of the input -/

section
variable {config : ProbeConfig} {width : ℕ} (input : ℕ → Inputs width)

/-- The samples of `n` clocks from `start` on. -/
def samples (start n : ℕ) : List (BitVec width) :=
  (List.range n).map fun i => (input (start + i)).in_

/-- The frame of a capture that starts at clock `start`. -/
def window (depth start : ℕ) : List (ProbeOutput width) :=
  (List.range depth).map fun i => ⟨(input (start + i)).in_, decide (i + 1 = depth)⟩

/-- The queue holds the samples from `start` up to the clock before `t`. -/
structure Filling (start t : ℕ) (p : Probe config width) : Prop where
  idle : p.outValid = false
  start_le : start ≤ t
  entries : p.buffer.entries = samples input start (t - start)

/-- What is left of a full queue, of which `sent` words have been transferred. -/
structure Draining (start sent t : ℕ) (p : Probe config width) : Prop where
  complete : start + config.bufferDepth ≤ t
  sent_lt : sent < config.bufferDepth
  first : p.outValid = false → sent = 0
  entries : (if p.outValid then [p.outData] else []) ++ p.buffer.entries =
    samples input (start + sent) (config.bufferDepth - sent)

/-- A capture that starts at clock `start`, before clock `t`. -/
def Phase (start sent t : ℕ) (p : Probe config width) : Prop :=
  match p.state with
  | .reset => sent = 0 ∧ start = t ∧ p.outValid = false
  | .fillPreTrigger => sent = 0 ∧ Filling input start t p ∧ p.triggerCount.toNat = t - start ∧
      t - start < config.triggerPosition
  | .awaitingTrigger => sent = 0 ∧ Filling input start t p ∧ t - start < config.bufferDepth
  | .fillPostTrigger => sent = 0 ∧ Filling input start t p
  | .output => Draining input start sent t p

/-- What one clock does to a capture: it goes on, possibly with a later start, it sends
a word of its frame or none, or it sends the last one and the next capture starts. -/
inductive Moves (start sent t : ℕ) (p p' : Probe config width) (sends : List (ProbeOutput width)) :
    Prop where
  | fills {start' : ℕ} (later : start ≤ start') (silent : sends = [] ∧ sent = 0)
      (next : Phase input start' 0 (t + 1) p')
  | drains (sent' : ℕ) (next : Phase input start sent' (t + 1) p')
      (front : (window input config.bufferDepth start).take sent ++ sends =
        (window input config.bufferDepth start).take sent')
  | ends (complete : start + config.bufferDepth ≤ t) (next : Phase input (t + 1) 0 (t + 1) p')
      (front : (window input config.bufferDepth start).take sent ++ sends =
        window input config.bufferDepth start)

/-- What one clock does to a frame that is being sent: a word goes on being offered, or is
the first to be or the next one, or the last one has been taken. -/
inductive Drains (start sent t : ℕ) (p p' : Probe config width) (sends : List (ProbeOutput width)) :
    Prop where
  | goes (sent' : ℕ) (state : p'.state = .output) (valid : p'.outValid = true)
      (progress : sent < sent' ∨ sent' = sent ∧ (p.outValid = false ∨ (input t).outReady = false))
      (next : Draining input start sent' (t + 1) p')
      (front : (window input config.bufferDepth start).take sent ++ sends =
        (window input config.bufferDepth start).take sent')
  | ends (complete : start + config.bufferDepth ≤ t) (next : Phase input (t + 1) 0 (t + 1) p')
      (front : (window input config.bufferDepth start).take sent ++ sends =
        window input config.bufferDepth start)

variable {input}

theorem Drains.moves {start sent t : ℕ} {p p' : Probe config width}
    {sends : List (ProbeOutput width)} (h : Drains input start sent t p p' sends) :
    Moves input start sent t p p' sends := by
  cases h with
  | goes sent' state valid progress next front =>
    refine .drains sent' ?_ front
    simp only [Phase, state]
    exact next
  | ends complete next front => exact .ends complete next front

@[simp] theorem samples_length (start n : ℕ) : (samples input start n).length = n := by
  simp [samples]

theorem samples_succ (start n : ℕ) :
    samples input start (n + 1) = samples input start n ++ [(input (start + n)).in_] := by
  simp [samples, List.range_succ]

theorem samples_cons (start n : ℕ) :
    samples input start (n + 1) = (input start).in_ :: samples input (start + 1) n := by
  simp [samples, List.range_succ_eq_map, Function.comp_def, Nat.add_assoc, Nat.add_comm 1]

/-- The sample of this clock goes behind the ones before. -/
theorem Filling.enqueued {start t : ℕ} {p : Probe config width} (h : Filling input start t p) :
    p.buffer.entries ++ [(input t).in_] = samples input start (t + 1 - start) := by
  have hsum : start + (t - start) = t := by have hle := h.start_le; omega
  rw [h.entries, Nat.sub_add_comm h.start_le, samples_succ, hsum]

theorem Filling.room {start t : ℕ} {p : Probe config width} (h : Filling input start t p) :
    t - start ≤ config.bufferDepth := by
  have hle := p.buffer.length_le
  rwa [h.entries, samples_length] at hle

/-! ### One clock in each state -/

/-- The sample offered to the queue is taken while there is room. -/
theorem enqueues {p : Probe config width} {i : Inputs width} (hoffer : p.inOffer i = some i.in_)
    (hroom : p.buffer.entries.length < config.bufferDepth) :
    (p.step i).buffer.entries = p.buffer.kept (p.bufferReady i) ++ [i.in_] := by
  have hflush : (p.state == .reset) = false := by
    cases hstate : p.state <;> simp [Probe.inOffer, hstate] at hoffer ⊢
  simp only [Probe.step, hoffer, hflush]
  exact p.buffer.step_some _ hroom

theorem Filling.silent {start t : ℕ} {p : Probe config width} (h : Filling input start t p)
    (i : Inputs width) : p.emit i = [] := by
  simp [Probe.emit, h.idle]

/-- While nothing is sent, only the output state loads a word. -/
theorem idle_kept {p : Probe config width} (hidle : p.outValid = false) (hstate : p.state ≠ .output)
    (i : Inputs width) : (p.step i).outValid = false := by
  simp [Probe.step, hstate, hidle]

/-- A clock in which the queue only takes the next sample. -/
theorem Filling.enqueue {start t : ℕ} {p : Probe config width} (h : Filling input start t p)
    (hoffer : p.inOffer (input t) = some (input t).in_) (hready : p.bufferReady (input t) = false)
    (hroom : p.buffer.entries.length < config.bufferDepth) :
    Filling input start (t + 1) (p.step (input t)) := by
  have hstate : p.state ≠ .output := by
    intro hout
    simp [Probe.inOffer, hout] at hoffer
  constructor
  · exact idle_kept h.idle hstate _
  · exact Nat.le_succ_of_le h.start_le
  · rw [enqueues hoffer hroom, hready, ← h.enqueued]
    rfl

theorem reset_moves (hpos : config.triggerPosition < config.bufferDepth) {start sent t : ℕ}
    {p : Probe config width} (hstate : p.state = .reset) (h : Phase input start sent t p) :
    Moves input start sent t p (p.step (input t)) (p.emit (input t)) := by
  simp only [Phase, hstate] at h
  obtain ⟨rfl, rfl, hidle⟩ := h
  have hfilling : Filling input (start + 1) (start + 1) (p.step (input start)) := by
    constructor
    · simp [Probe.step, hstate]
    · exact Nat.le_refl _
    · simp [Probe.step, hstate, samples]
  have hsilent : p.emit (input start) = [] := by simp [Probe.emit, hidle]
  refine .fills (Nat.le_succ start) ⟨hsilent, rfl⟩ ?_
  by_cases hzero : Probe.triggerPosition config = 0
  · have hnext : (p.step (input start)).state = .awaitingTrigger := by
      simp only [Probe.step, Probe.nextState, hstate, hzero, if_true]
    simp only [Phase, hnext]
    exact ⟨trivial, hfilling, by omega⟩
  · have hnext : (p.step (input start)).state = .fillPreTrigger := by
      simp only [Probe.step, Probe.nextState, hstate, hzero, if_false]
    have hcount : (p.step (input start)).triggerCount = 0 := by simp [Probe.step, hstate]
    have hpre : 0 < config.triggerPosition := by
      refine Nat.pos_of_ne_zero fun hnone => hzero ?_
      rw [Probe.triggerPosition, hnone]
      rfl
    simp only [Phase, hnext, hcount]
    exact ⟨trivial, hfilling, by simp, by omega⟩

/-- The position fits its wire, and its predecessor does too. -/
theorem triggerPosition_pred (hpos : config.triggerPosition < config.bufferDepth)
    (hpre : 0 < config.triggerPosition) :
    (Probe.triggerPosition config - 1).toNat = config.triggerPosition - 1 := by
  have hlt : config.triggerPosition < 2 ^ config.bufferDepth :=
    Nat.lt_trans hpos Nat.lt_two_pow_self
  have hone : 1 < 2 ^ config.bufferDepth := by omega
  have hle : (1 : BitVec config.bufferDepth) ≤ Probe.triggerPosition config := by
    rw [BitVec.le_def]
    simp [Probe.triggerPosition, Nat.mod_eq_of_lt hlt, Nat.mod_eq_of_lt hone]
    omega
  rw [BitVec.toNat_sub_of_le hle]
  simp [Probe.triggerPosition, Nat.mod_eq_of_lt hlt, Nat.mod_eq_of_lt hone]

theorem fillPreTrigger_moves (hpos : config.triggerPosition < config.bufferDepth)
    {start sent t : ℕ} {p : Probe config width} (hstate : p.state = .fillPreTrigger)
    (h : Phase input start sent t p) :
    Moves input start sent t p (p.step (input t)) (p.emit (input t)) := by
  simp only [Phase, hstate] at h
  obtain ⟨rfl, hfilling, hcount, hlt⟩ := h
  have hroom : p.buffer.entries.length < config.bufferDepth := by
    rw [hfilling.entries, samples_length]
    omega
  have hfilling' := hfilling.enqueue (by simp only [Probe.inOffer, hstate])
    (by simp only [Probe.bufferReady, hstate]) hroom
  refine .fills (Nat.le_refl start) ⟨hfilling.silent _, rfl⟩ ?_
  have hpred := triggerPosition_pred hpos (by omega)
  have hle := hfilling.start_le
  by_cases hlast : t - start = config.triggerPosition - 1
  · have hnext : (p.step (input t)).state = .awaitingTrigger := by
      simp only [Probe.step, Probe.nextState, hstate, hcount, hpred, hlast, if_true]
    simp only [Phase, hnext]
    exact ⟨trivial, hfilling', by omega⟩
  · have hnext : (p.step (input t)).state = .fillPreTrigger := by
      simp only [Probe.step, Probe.nextState, hstate, hcount, hpred, hlast, if_false]
    have hwide : t + 1 - start < 2 ^ Nat.clog 2 config.bufferDepth := by
      have hclog := Nat.le_pow_clog (by decide : 1 < 2) config.bufferDepth
      omega
    have hcount' : (p.step (input t)).triggerCount.toNat = t + 1 - start := by
      have hsucc : t - start + 1 = t + 1 - start := by omega
      simp [Probe.step, hstate, BitVec.toNat_add, hcount, hsucc, Nat.mod_eq_of_lt hwide]
    simp only [Phase, hnext, hcount']
    exact ⟨trivial, hfilling', trivial, by omega⟩

/-- The trigger has come: the sample of its clock is the last one so far. -/
theorem awaitingTrigger_triggered {start sent t : ℕ} {p : Probe config width}
    (hstate : p.state = .awaitingTrigger) (h : Phase input start sent t p)
    (htrigger : ((input t).trigger || p.hasTriggered) = true) :
    (p.step (input t)).state = .fillPostTrigger ∧
      Phase input start 0 (t + 1) (p.step (input t)) := by
  simp only [Phase, hstate] at h
  obtain ⟨rfl, hfilling, hlt⟩ := h
  have hroom : p.buffer.entries.length < config.bufferDepth := by
    rwa [hfilling.entries, samples_length]
  have hoffer : p.inOffer (input t) = some (input t).in_ := by simp only [Probe.inOffer, hstate]
  have hnext : (p.step (input t)).state = .fillPostTrigger := by
    simp [Probe.step, Probe.nextState, hstate, htrigger]
  have hready : p.bufferReady (input t) = false := by
    simp [Probe.bufferReady, hstate, htrigger]
  simp only [Phase, hnext]
  exact ⟨trivial, trivial, hfilling.enqueue hoffer hready hroom⟩

/-- No trigger yet: the oldest sample, if there is one, makes room for the newest. -/
theorem awaitingTrigger_slides {start sent t : ℕ} {p : Probe config width}
    (hstate : p.state = .awaitingTrigger) (h : Phase input start sent t p)
    (htrigger : ((input t).trigger || p.hasTriggered) = false) :
    (p.step (input t)).state = .awaitingTrigger ∧
      (p.step (input t)).buffer.entries = p.buffer.entries.tail ++ [(input t).in_] := by
  simp only [Phase, hstate] at h
  obtain ⟨rfl, hfilling, hlt⟩ := h
  have hroom : p.buffer.entries.length < config.bufferDepth := by
    rwa [hfilling.entries, samples_length]
  have hoffer : p.inOffer (input t) = some (input t).in_ := by simp only [Probe.inOffer, hstate]
  have hready : p.bufferReady (input t) = true := by
    simp [Probe.bufferReady, hstate, htrigger]
  constructor
  · simp [Probe.step, Probe.nextState, hstate, htrigger]
  · rw [enqueues hoffer hroom, hready]
    rfl

theorem awaitingTrigger_moves (hdepth : 2 ≤ config.bufferDepth) {start sent t : ℕ}
    {p : Probe config width} (hstate : p.state = .awaitingTrigger)
    (h : Phase input start sent t p) :
    Moves input start sent t p (p.step (input t)) (p.emit (input t)) := by
  have hphase := h
  simp only [Phase, hstate] at h
  obtain ⟨rfl, hfilling, hlt⟩ := h
  have hsilent := hfilling.silent (input t)
  have hle := hfilling.start_le
  cases htrigger : (input t).trigger || p.hasTriggered with
  | true =>
    exact .fills (Nat.le_refl start) ⟨hsilent, rfl⟩
      (awaitingTrigger_triggered hstate hphase htrigger).2
  | false =>
    obtain ⟨hnext, hentries⟩ := awaitingTrigger_slides hstate hphase htrigger
    have hidle := idle_kept hfilling.idle (by simp [hstate]) (input t)
    rcases Nat.eq_or_lt_of_le hle with rfl | hlater
    · -- nothing to discard yet
      refine .fills (Nat.le_refl start) ⟨hsilent, rfl⟩ ?_
      simp only [Phase, hnext]
      refine ⟨trivial, ⟨hidle, Nat.le_succ start, ?_⟩, by omega⟩
      rw [hentries, hfilling.entries]
      simp [samples]
    · refine .fills (Nat.le_succ start) ⟨hsilent, rfl⟩ ?_
      simp only [Phase, hnext]
      refine ⟨trivial, ⟨hidle, by omega, ?_⟩, by omega⟩
      have hcount : t - start = t - (start + 1) + 1 := by omega
      have hcount' : t + 1 - (start + 1) = t - (start + 1) + 1 := by omega
      have hsum : start + 1 + (t - (start + 1)) = t := by omega
      rw [hentries, hfilling.entries, hcount, samples_cons, List.tail_cons, hcount', samples_succ,
        hsum]

/-- The queue takes one more sample, or it is full and is sent. -/
theorem fillPostTrigger_next (hdepth : 2 ≤ config.bufferDepth) {start sent t : ℕ}
    {p : Probe config width} (hstate : p.state = .fillPostTrigger)
    (h : Phase input start sent t p) :
    Phase input start 0 (t + 1) (p.step (input t)) ∧
      ((p.step (input t)).state = .fillPostTrigger ∧ t - start < config.bufferDepth ∨
        (p.step (input t)).state = .output ∧ t - start = config.bufferDepth) := by
  simp only [Phase, hstate] at h
  obtain ⟨rfl, hfilling⟩ := h
  have hle := hfilling.start_le
  have hlength : p.buffer.entries.length = t - start := by rw [hfilling.entries, samples_length]
  rcases Nat.lt_or_eq_of_le hfilling.room with hroom | hfull
  · have hnext : (p.step (input t)).state = .fillPostTrigger := by
      simp [Probe.step, Probe.nextState, hstate, Fifo.enqReady, hlength, hroom]
    simp only [Phase, hnext]
    exact ⟨⟨trivial, hfilling.enqueue (by simp only [Probe.inOffer, hstate])
      (by simp only [Probe.bufferReady, hstate]) (by omega)⟩, Or.inl ⟨trivial, hroom⟩⟩
  · have hnext : (p.step (input t)).state = .output := by
      simp [Probe.step, Probe.nextState, hstate, Fifo.enqReady, hlength, hfull]
    have hbuffer : (p.step (input t)).buffer = p.buffer := by
      simp only [Probe.step, Probe.bufferReady, hstate]
      exact p.buffer.step_full (hlength.trans hfull)
    have hidle := idle_kept hfilling.idle (by simp [hstate]) (input t)
    simp only [Phase, hnext]
    refine ⟨⟨by omega, by omega, fun _ => rfl, ?_⟩, Or.inr ⟨trivial, hfull⟩⟩
    rw [hidle, hbuffer, hfilling.entries, hfull]
    rfl

theorem fillPostTrigger_moves (hdepth : 2 ≤ config.bufferDepth) {start sent t : ℕ}
    {p : Probe config width} (hstate : p.state = .fillPostTrigger)
    (h : Phase input start sent t p) :
    Moves input start sent t p (p.step (input t)) (p.emit (input t)) := by
  have hnext := (fillPostTrigger_next hdepth hstate h).1
  simp only [Phase, hstate] at h
  obtain ⟨rfl, hfilling⟩ := h
  exact .fills (Nat.le_refl start) ⟨hfilling.silent _, rfl⟩ hnext

/-- The offered word is the next one of the frame. -/
theorem Draining.offered {start sent t : ℕ} {p : Probe config width} (hstate : p.state = .output)
    (h : Draining input start sent t p) (hvalid : p.outValid = true) :
    (window input config.bufferDepth start)[sent]? = some ⟨p.outData, p.outLast⟩ ∧
      p.buffer.entries = samples input (start + sent + 1) (config.bufferDepth - (sent + 1)) := by
  have hcount : config.bufferDepth - sent = config.bufferDepth - (sent + 1) + 1 := by
    have hlt := h.sent_lt
    omega
  have hentries := h.entries
  rw [hvalid, if_pos rfl, hcount, samples_cons, List.singleton_append, List.cons.injEq] at hentries
  obtain ⟨hdata, hentries⟩ := hentries
  refine ⟨?_, hentries⟩
  have hlast : p.outLast = decide (sent + 1 = config.bufferDepth) := by
    have hlt := h.sent_lt
    have hempty : p.buffer.entries.isEmpty = decide (sent + 1 = config.bufferDepth) := by
      rw [Bool.eq_iff_iff, List.isEmpty_iff_length_eq_zero, hentries, samples_length,
        decide_eq_true_iff]
      omega
    simp [Probe.outLast, Fifo.deqValid, hstate, hempty]
  simp [window, h.sent_lt, hdata, hlast]

/-- An offered word that is not taken stays, with everything behind it. -/
theorem offered_stable {p : Probe config width} {i : Inputs width} (hstate : p.state = .output)
    (hvalid : p.outValid = true) (hready : i.outReady = false) :
    (p.step i).state = .output ∧ (p.step i).outValid = true ∧ (p.step i).outData = p.outData ∧
      (p.step i).buffer = p.buffer := by
  simp only [Probe.step, Probe.nextState, Probe.inOffer, Probe.bufferReady, hstate, hvalid, hready]
  exact ⟨rfl, rfl, rfl, rfl⟩

/-- A free output register takes the oldest word of the queue. -/
theorem word_loaded {p : Probe config width} {i : Inputs width} {x : BitVec width}
    {rest : List (BitVec width)} (hstate : p.state = .output)
    (hfree : (!p.outValid || i.outReady) = true) (hentries : p.buffer.entries = x :: rest) :
    (p.step i).state = .output ∧ (p.step i).outValid = true ∧ (p.step i).outData = x ∧
      (p.step i).buffer.entries = rest := by
  have hflush : (State.output == State.reset) = false := rfl
  refine ⟨?_, ?_, ?_, ?_⟩
  · simp [Probe.step, Probe.nextState, Probe.outLast, Fifo.deqValid, hstate, hentries]
  · simp [Probe.step, Fifo.deqValid, hstate, hfree, hentries]
  · simp [Probe.step, hstate, hfree, hentries]
  · simp only [Probe.step, Probe.inOffer, Probe.bufferReady, hstate, hfree, hflush,
      Fifo.step_none, Fifo.kept, hentries]
    rfl

theorem first_loads {start sent t : ℕ} {p : Probe config width} (hstate : p.state = .output)
    (hvalid : p.outValid = false) (h : Draining input start sent t p) :
    Drains input start sent t p (p.step (input t)) (p.emit (input t)) := by
  have hsent := h.sent_lt
  obtain rfl := h.first hvalid
  have hentries := h.entries
  have hcount : config.bufferDepth - 0 = config.bufferDepth - 1 + 1 := by omega
  rw [hvalid, hcount, samples_cons] at hentries
  have hbuffer : p.buffer.entries =
      (input start).in_ :: samples input (start + 1) (config.bufferDepth - 1) := hentries
  obtain ⟨hnext, hvalid', hdata, hrest⟩ :=
    word_loaded hstate (i := input t) (by simp [hvalid]) hbuffer
  refine .goes 0 hnext hvalid' (Or.inr ⟨rfl, Or.inl hvalid⟩) ?_ (by simp [Probe.emit, hvalid])
  refine ⟨Nat.le_succ_of_le h.complete, hsent, fun _ => rfl, ?_⟩
  rw [hvalid', hdata, hrest, hcount, samples_cons]
  rfl

theorem word_waits {start sent t : ℕ} {p : Probe config width} (hstate : p.state = .output)
    (hvalid : p.outValid = true) (hready : (input t).outReady = false)
    (h : Draining input start sent t p) :
    Drains input start sent t p (p.step (input t)) (p.emit (input t)) := by
  obtain ⟨hnext, hvalid', hdata, hkept⟩ := offered_stable hstate hvalid hready
  refine .goes sent hnext hvalid' (Or.inr ⟨rfl, Or.inr hready⟩) ?_ (by simp [Probe.emit, hready])
  refine ⟨Nat.le_succ_of_le h.complete, h.sent_lt, ?_, ?_⟩
  · simp [hvalid']
  · rw [hvalid', hdata, hkept, ← h.entries, hvalid]

theorem word_sent {start sent t : ℕ} {p : Probe config width} (hstate : p.state = .output)
    (hvalid : p.outValid = true) (hready : (input t).outReady = true)
    (h : Draining input start sent t p) :
    Drains input start sent t p (p.step (input t)) (p.emit (input t)) := by
  have hsent := h.sent_lt
  obtain ⟨hword, hbuffer⟩ := h.offered hstate hvalid
  have hfront : (window input config.bufferDepth start).take sent ++ p.emit (input t) =
      (window input config.bufferDepth start).take (sent + 1) := by
    rw [List.take_add_one, hword]
    simp [Probe.emit, hvalid, hready]
  rcases Nat.eq_or_lt_of_le (Nat.succ_le_of_lt hsent) with hlast | hmore
  · -- the queue has run empty
    have hempty : p.buffer.entries = [] := by
      have hnone : config.bufferDepth - (sent + 1) = 0 := by omega
      rw [hbuffer, hnone]
      rfl
    have hnext : (p.step (input t)).state = .reset := by
      simp [Probe.step, Probe.nextState, Probe.outLast, Fifo.deqValid, hstate, hvalid, hready,
        hempty]
    refine .ends h.complete ?_ ?_
    · simp only [Phase, hnext]
      refine ⟨trivial, trivial, ?_⟩
      simp [Probe.step, Fifo.deqValid, hstate, hready, hempty]
    · rw [hfront, List.take_of_length_le]
      simp [window]
      omega
  · have hcount : config.bufferDepth - (sent + 1) =
        config.bufferDepth - (sent + 1 + 1) + 1 := by omega
    rw [hcount, samples_cons] at hbuffer
    obtain ⟨hnext, hvalid', hdata, hrest⟩ :=
      word_loaded hstate (i := input t) (by simp [hready]) hbuffer
    refine .goes (sent + 1) hnext hvalid' (Or.inl (Nat.lt_succ_self sent)) ?_ hfront
    refine ⟨Nat.le_succ_of_le h.complete, hmore, ?_, ?_⟩
    · simp [hvalid']
    · rw [hvalid', hdata, hrest, hcount, ← Nat.add_assoc, samples_cons]
      rfl

/-- One clock of a frame that is being sent. -/
theorem output_drains {start sent t : ℕ} {p : Probe config width} (hstate : p.state = .output)
    (h : Draining input start sent t p) :
    Drains input start sent t p (p.step (input t)) (p.emit (input t)) := by
  cases hvalid : p.outValid with
  | false => exact first_loads hstate hvalid h
  | true =>
    cases hready : (input t).outReady with
    | false => exact word_waits hstate hvalid hready h
    | true => exact word_sent hstate hvalid hready h

theorem output_moves {start sent t : ℕ} {p : Probe config width} (hstate : p.state = .output)
    (h : Phase input start sent t p) :
    Moves input start sent t p (p.step (input t)) (p.emit (input t)) := by
  simp only [Phase, hstate] at h
  exact (output_drains hstate h).moves

/-- One clock of a capture. -/
theorem phase_moves (hdepth : 2 ≤ config.bufferDepth)
    (hpos : config.triggerPosition < config.bufferDepth) {start sent t : ℕ}
    {p : Probe config width} (h : Phase input start sent t p) :
    Moves input start sent t p (p.step (input t)) (p.emit (input t)) := by
  cases hstate : p.state with
  | reset => exact reset_moves hpos hstate h
  | fillPreTrigger => exact fillPreTrigger_moves hpos hstate h
  | awaitingTrigger => exact awaitingTrigger_moves hdepth hstate h
  | fillPostTrigger => exact fillPostTrigger_moves hdepth hstate h
  | output => exact output_moves hstate h

/-- Outside the output state no word is offered and none of the frame has been sent. -/
theorem Phase.idle_or_draining {start sent t : ℕ} {p : Probe config width}
    (h : Phase input start sent t p) :
    (sent = 0 ∧ p.outValid = false ∧ start ≤ t) ∨
      (p.state = .output ∧ Draining input start sent t p) := by
  unfold Phase at h
  cases hstate : p.state <;> rw [hstate] at h
  case reset => exact Or.inl ⟨h.1, h.2.2, Nat.le_of_eq h.2.1⟩
  case fillPreTrigger => exact Or.inl ⟨h.1, h.2.1.idle, h.2.1.start_le⟩
  case awaitingTrigger => exact Or.inl ⟨h.1, h.2.1.idle, h.2.1.start_le⟩
  case fillPostTrigger => exact Or.inl ⟨h.1, h.2.idle, h.2.start_le⟩
  case output => exact Or.inr ⟨rfl, h⟩

/-- Windows that do not overlap, in the order of time. -/
def Apart (depth : ℕ) (starts : List ℕ) : Prop := starts.Pairwise fun a b => a + depth ≤ b

theorem apart_later {depth start start' : ℕ} {starts : List ℕ} (hle : start ≤ start')
    (h : Apart depth (starts ++ [start])) : Apart depth (starts ++ [start']) := by
  unfold Apart at h ⊢
  rw [List.pairwise_append] at h ⊢
  refine ⟨h.1, List.pairwise_singleton _ _, ?_⟩
  intro a ha b hb
  rw [List.mem_singleton.mp hb]
  exact Nat.le_trans (h.2.2 a ha start List.mem_cons_self) hle

theorem apart_next {depth start next : ℕ} {starts : List ℕ} (hle : start + depth ≤ next)
    (h : Apart depth (starts ++ [start])) : Apart depth (starts ++ [start] ++ [next]) := by
  unfold Apart at h ⊢
  rw [List.pairwise_append]
  refine ⟨h, List.pairwise_singleton _ _, ?_⟩
  intro a ha b hb
  rw [List.mem_singleton.mp hb]
  rcases List.mem_append.mp ha with hbefore | hlast
  · have hab := (List.pairwise_append.mp h).2.2 a hbefore start List.mem_cons_self
    omega
  · rw [List.mem_singleton.mp hlast]
    exact hle

/-- The words of a run are whole windows and the front of one more. -/
theorem run_captures (hdepth : 2 ≤ config.bufferDepth)
    (hpos : config.triggerPosition < config.bufferDepth) (input : ℕ → Inputs width) (t : ℕ) :
    ∃ starts start sent,
      Phase input start sent t ((Probe.machine config width).run (.init config width) input t) ∧
      (Probe.machine config width).trace (.init config width) input t =
        starts.flatMap (window input config.bufferDepth) ++
          (window input config.bufferDepth start).take sent ∧
      Apart config.bufferDepth (starts ++ [start]) := by
  induction t with
  | zero => exact ⟨[], 0, 0, ⟨rfl, rfl, rfl⟩, rfl, List.pairwise_singleton _ _⟩
  | succ t ih =>
    obtain ⟨starts, start, sent, hphase, htrace, hapart⟩ := ih
    rw [Machine.trace_succ, Machine.run_succ, htrace, List.append_assoc]
    cases phase_moves hdepth hpos hphase with
    | fills hlater hsilent hnext =>
      obtain ⟨hsilent, rfl⟩ := hsilent
      refine ⟨starts, _, 0, hnext, ?_, apart_later hlater hapart⟩
      have hemit : (Probe.machine config width).emit
        ((Probe.machine config width).run (.init config width) input t) (input t) = [] := hsilent
      rw [hemit, List.take_zero, List.take_zero]
      rfl
    | drains sent' hnext hfront =>
      exact ⟨starts, start, sent', hnext, congrArg _ hfront, hapart⟩
    | ends hcomplete hnext hfront =>
      refine ⟨starts ++ [start], t + 1, 0, hnext, ?_, apart_next (by omega) hapart⟩
      rw [List.flatMap_append, List.take_zero, List.append_nil, List.flatMap_singleton]
      exact congrArg _ hfront

end

/-- **Contiguous captures.** For every input, every trigger and every pattern of `ready`, the
words transferred are whole windows of consecutive samples, with `last` on the final word of
each, and the front of one more; an offered word is the next one of its window and stays until
it is taken. -/
theorem captures_contiguous {config : ProbeConfig} {width : ℕ} (hdepth : 2 ≤ config.bufferDepth)
    (hpos : config.triggerPosition < config.bufferDepth) (input : ℕ → Inputs width) (t : ℕ) :
    let probe := (Probe.machine config width).run (.init config width) input
    ∃ starts start sent,
      (Probe.machine config width).trace (.init config width) input t =
        starts.flatMap (window input config.bufferDepth) ++
          (window input config.bufferDepth start).take sent ∧
      Apart config.bufferDepth (starts ++ [start]) ∧ start ≤ t ∧
      ((probe t).outValid = false → sent = 0) ∧
      ((probe t).outValid = true → start + config.bufferDepth ≤ t ∧
        (window input config.bufferDepth start)[sent]? =
          some ⟨(probe t).outData, (probe t).outLast⟩ ∧
        ((input t).outReady = false → (probe (t + 1)).outValid = true ∧
          (probe (t + 1)).outData = (probe t).outData ∧
          (probe (t + 1)).outLast = (probe t).outLast)) := by
  intro probe
  obtain ⟨starts, start, sent, hphase, htrace, hapart⟩ := run_captures hdepth hpos input t
  rcases hphase.idle_or_draining with ⟨hsent, hidle, hle⟩ | ⟨hstate, hdraining⟩
  · refine ⟨starts, start, sent, htrace, hapart, hle, fun _ => hsent, ?_⟩
    intro hvalid
    exact absurd (hidle.symm.trans hvalid) Bool.false_ne_true
  · have hcomplete := hdraining.complete
    refine ⟨starts, start, sent, htrace, hapart, by omega, hdraining.first, ?_⟩
    intro hvalid
    refine ⟨hcomplete, (hdraining.offered hstate hvalid).1, ?_⟩
    intro hready
    obtain ⟨hstate', hvalid', hdata, hbuffer⟩ := offered_stable hstate hvalid hready
    refine ⟨hvalid', hdata, ?_⟩
    have hlast : ((probe t).step (input t)).outLast = (probe t).outLast := by
      have hnow : (probe t).state = .output := hstate
      have hkept : ((probe t).step (input t)).buffer = (probe t).buffer := hbuffer
      have hnext : ((probe t).step (input t)).state = .output := hstate'
      rw [Probe.outLast, Probe.outLast, hnext, hnow, hkept]
    exact hlast

/-- Four samples, of which two stand before the trigger. -/
def fourDeep : ProbeConfig := ⟨4, 2, 2, rfl⟩

/-- Samples that count the clocks, a trigger in every eighth, and a slow receiver. -/
def counting (t : ℕ) : Inputs 8 := ⟨.ofNat 8 t, t % 8 == 6, t % 2 == 0, 0⟩

example : ((Probe.machine fourDeep 8).trace (.init fourDeep 8) counting 36).map
      (fun o => (o.data.toNat, o.last)) =
    [(4, false), (5, false), (6, false), (7, true),
      (20, false), (21, false), (22, false), (23, true)] := by decide

theorem captures_contiguous_counting :
    ∃ (starts : List ℕ) (start sent : ℕ),
      (Probe.machine fourDeep 8).trace (.init fourDeep 8) counting 36 =
        starts.flatMap (window counting 4) ++ (window counting 4 start).take sent ∧
      Apart 4 (starts ++ [start]) ∧ start ≤ 36 := by
  have hdepth : 2 ≤ fourDeep.bufferDepth := by decide
  have hpos : fourDeep.triggerPosition < fourDeep.bufferDepth := by decide
  obtain ⟨starts, start, sent, htrace, hapart, hle, -⟩ :=
    captures_contiguous hdepth hpos counting 36
  exact ⟨starts, start, sent, htrace, hapart, hle⟩

end SeccampRiscvCpu.ProbeCapture
