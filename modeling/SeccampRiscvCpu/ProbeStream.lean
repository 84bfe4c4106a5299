import SeccampRiscvCpu.ByteSlices
import SeccampRiscvCpu.ClockedMachine
import SeccampRiscvCpu.FairSchedules

/-!
# The frame adapter of the logic probe

`ProbeFrameAdapter` and the `ProbeOutWidthConverter` in front of it: a sample of
any width leaves as septets, the lowest first, and each frame of samples between
two marker bytes. Both are one clocked machine; the converter is only wiring
where a sample has no more than seven bits.

The adapter is fed from a list of samples. In each clock the schedule says
whether the next sample is offered and whether the receiver is ready. What is
still to be sent is a function of the registers and of the samples left, and
every clock sends its front and keeps the rest.
-/
namespace SeccampRiscvCpu.ProbeStream
open ByteSlices ClockedMachine FairSchedules

structure ProbeOutput (width : ℕ) where
  data : BitVec width
  last : Bool
deriving DecidableEq

/-- What the producer of a `Decoupled` drives. -/
structure Offer (width : ℕ) where
  valid : Bool
  bits : ProbeOutput width
deriving DecidableEq

def numberOfPhases (width : ℕ) : ℕ := (width + 6) / 7

def inputWidthWithPadding (width : ℕ) : ℕ := numberOfPhases width * 7

structure ProbeOutWidthConverter (width : ℕ) where
  phaseCounter : ℕ
  inData : BitVec (inputWidthWithPadding width)
  inLast : Bool
  outValid : Bool
  outData : BitVec 7
  outLast : Bool
deriving DecidableEq

namespace ProbeOutWidthConverter
variable {width : ℕ}

def init (width : ℕ) : ProbeOutWidthConverter width := ⟨0, 0, false, false, 0, false⟩

def out (c : ProbeOutWidthConverter width) (i : Offer width) : Offer 8 :=
  if numberOfPhases width = 1 then ⟨i.valid, ⟨i.bits.data.setWidth 8, i.bits.last⟩⟩
  else ⟨c.outValid, ⟨0#1 ++ c.outData, c.outLast⟩⟩

def inReady (c : ProbeOutWidthConverter width) (outReady : Bool) : Bool :=
  if numberOfPhases width = 1 then outReady else c.phaseCounter == 0

/-- The septet of the phase the counter is in. -/
def septet (c : ProbeOutWidthConverter width) : BitVec 7 :=
  c.inData.extractLsb' ((numberOfPhases width - c.phaseCounter) * 7) 7

def step (c : ProbeOutWidthConverter width) (i : Offer width) (outReady : Bool) :
    ProbeOutWidthConverter width :=
  if numberOfPhases width = 1 then c
  else
    let accepts := i.valid && c.phaseCounter == 0
    let advances := decide (0 < c.phaseCounter) && (!c.outValid || outReady)
    { phaseCounter :=
        if advances then c.phaseCounter - 1
        else if accepts then numberOfPhases width else c.phaseCounter
      inData := if accepts then i.bits.data.setWidth _ else c.inData
      inLast := if accepts then i.bits.last else c.inLast
      outValid := advances || (c.outValid && !outReady)
      outData :=
        if advances && decide (c.phaseCounter ≤ numberOfPhases width) then c.septet else c.outData
      outLast := if advances then c.phaseCounter == 1 && c.inLast else c.outLast }

end ProbeOutWidthConverter

def startOfFrame : U8 := 0x80
def endOfFrame : U8 := 0x81

inductive State where
  | idle
  | inFrame
  | endOfFrame
deriving DecidableEq, Repr

structure ProbeFrameAdapter (width : ℕ) where
  widthConverter : ProbeOutWidthConverter width
  state : State
  outValid : Bool
  outData : U8
deriving DecidableEq

namespace ProbeFrameAdapter
variable {width : ℕ}

def init (width : ℕ) : ProbeFrameAdapter width := ⟨.init width, .idle, false, 0⟩

/-- The output register may be loaded. -/
def free (a : ProbeFrameAdapter width) (ready : Bool) : Bool := !a.outValid || ready

/-- `widthConverter.io.out.ready` -/
def converterReady (a : ProbeFrameAdapter width) (ready : Bool) : Bool :=
  a.state == .inFrame && a.free ready

/-- `io.in.ready` -/
def inReady (a : ProbeFrameAdapter width) (ready : Bool) : Bool :=
  a.widthConverter.inReady (a.converterReady ready)

def step (a : ProbeFrameAdapter width) (i : Offer width) (ready : Bool) : ProbeFrameAdapter width :=
  let out := a.widthConverter.out i
  let widthConverter := a.widthConverter.step i (a.converterReady ready)
  match a.state with
  | .idle =>
    if out.valid && a.free ready then ⟨widthConverter, .inFrame, true, startOfFrame⟩
    else ⟨widthConverter, .idle, a.outValid && !ready, a.outData⟩
  | .inFrame =>
    if out.valid && a.free ready then
      ⟨widthConverter, if out.bits.last then .endOfFrame else .inFrame, true, out.bits.data⟩
    else ⟨widthConverter, .inFrame, a.outValid && !ready, a.outData⟩
  | .endOfFrame =>
    if a.free ready then ⟨widthConverter, .idle, true, endOfFrame⟩
    else ⟨widthConverter, .endOfFrame, a.outValid && !ready, a.outData⟩

end ProbeFrameAdapter

/-! ## Feeding the adapter -/

structure Clock where
  valid : Bool
  ready : Bool
deriving DecidableEq, Repr

/-- The adapter and the samples it has not accepted yet. -/
structure Feed (width : ℕ) where
  adapter : ProbeFrameAdapter width
  remaining : List (ProbeOutput width)
deriving DecidableEq

/-- The next sample, if there is one and the schedule offers it. -/
def offer {width : ℕ} (remaining : List (ProbeOutput width)) (valid : Bool) : Offer width :=
  match remaining with
  | [] => ⟨false, ⟨0, false⟩⟩
  | x :: _ => ⟨valid, x⟩

namespace Feed
variable {width : ℕ}

def step (f : Feed width) (c : Clock) : Feed width :=
  let i := offer f.remaining c.valid
  ⟨f.adapter.step i c.ready,
    if i.valid && f.adapter.inReady c.ready then f.remaining.tail else f.remaining⟩

/-- The byte that is transferred in this clock. -/
def emit (f : Feed width) (c : Clock) : List U8 :=
  if f.adapter.outValid && c.ready then [f.adapter.outData] else []

def machine (width : ℕ) : Machine (Feed width) Clock U8 := ⟨step, emit⟩

end Feed

/-! ## The bytes of a frame -/

/-- The septets of a sample, the lowest first, with bit 7 clear. -/
def septets {width : ℕ} (x : BitVec width) : List U8 :=
  (List.range (numberOfPhases width)).map fun i => (x.extractLsb' (7 * i) 7).setWidth 8

def encodeFrame {width : ℕ} (frame : List (BitVec width)) : List U8 :=
  startOfFrame :: frame.flatMap septets ++ [endOfFrame]

/-- The samples of a frame as the probe offers them. -/
def outputs {width : ℕ} : List (BitVec width) → List (ProbeOutput width)
  | [] => []
  | [x] => [⟨x, true⟩]
  | x :: xs => ⟨x, false⟩ :: outputs xs

def Feed.new {width : ℕ} (frames : List (List (BitVec width))) : Feed width :=
  ⟨.init width, frames.flatMap outputs⟩

/-! ## What is still to be sent -/

/-- The items a loaded converter still has to put out, by the phase it is in. -/
def phases {m : ℕ} (n : ℕ) (inData : BitVec m) (inLast : Bool) : ℕ → List (ProbeOutput 8)
  | 0 => []
  | p + 1 => ⟨0#1 ++ inData.extractLsb' ((n - (p + 1)) * 7) 7, p == 0 && inLast⟩ ::
      phases n inData inLast p

/-- The items of one sample. -/
def items {width : ℕ} (x : ProbeOutput width) : List (ProbeOutput 8) :=
  phases (numberOfPhases width) (x.data.setWidth (inputWidthWithPadding width)) x.last
    (numberOfPhases width)

namespace ProbeOutWidthConverter
variable {width : ℕ}

/-- The items inside the converter. -/
def held (c : ProbeOutWidthConverter width) : List (ProbeOutput 8) :=
  if numberOfPhases width = 1 then []
  else (if c.outValid then [⟨0#1 ++ c.outData, c.outLast⟩] else []) ++
    phases (numberOfPhases width) c.inData c.inLast c.phaseCounter

end ProbeOutWidthConverter

/-- The bytes for items inside a frame, with the markers of the frames after it. -/
def body : List (ProbeOutput 8) → List U8
  | [] => []
  | x :: xs => x.data :: if x.last then
      endOfFrame :: (if xs.isEmpty then [] else startOfFrame :: body xs) else body xs

/-- The bytes for items between frames. -/
def opening (xs : List (ProbeOutput 8)) : List U8 :=
  if xs.isEmpty then [] else startOfFrame :: body xs

def bytesFrom : State → List (ProbeOutput 8) → List U8
  | .idle, xs => opening xs
  | .inFrame, xs => body xs
  | .endOfFrame, xs => endOfFrame :: opening xs

def ProbeFrameAdapter.pending {width : ℕ} (a : ProbeFrameAdapter width) : List U8 :=
  if a.outValid then [a.outData] else []

def Feed.queued {width : ℕ} (f : Feed width) : List (ProbeOutput 8) :=
  f.adapter.widthConverter.held ++ f.remaining.flatMap items

/-- The phase counter never exceeds the number of phases. -/
def Feed.Bounded {width : ℕ} (f : Feed width) : Prop :=
  f.adapter.widthConverter.phaseCounter ≤ numberOfPhases width

/-- All bytes the feed has still to send. -/
def Feed.todo {width : ℕ} (f : Feed width) : List U8 :=
  f.adapter.pending ++ bytesFrom f.adapter.state f.queued

section
variable {width : ℕ}

theorem body_cons (x : ProbeOutput 8) (xs : List (ProbeOutput 8)) :
    body (x :: xs) = x.data :: bytesFrom (if x.last then .endOfFrame else .inFrame) xs := by
  cases hlast : x.last <;> simp [body, hlast, bytesFrom, opening]

/-- With at most seven bits a sample is its own and only septet. -/
theorem items_wire (hn : numberOfPhases width = 1) (x : ProbeOutput width) :
    items x = [⟨x.data.setWidth 8, x.last⟩] := by
  have hw : width ≤ 7 := by
    unfold numberOfPhases at hn
    omega
  have hdata : (0#1 ++ (x.data.setWidth (inputWidthWithPadding width)).extractLsb' 0 7 : BitVec 8) =
      x.data.setWidth 8 := by
    ext k hk
    simp [inputWidthWithPadding]
    grind
  unfold items
  rw [hn]
  simp [phases, hdata]

/-- One clock of a queue: only its front is offered, and dropped when it is taken. -/
structure Moves (before after : List (ProbeOutput 8)) (o : Offer 8) (ready : Bool) : Prop where
  front : o.valid = true → before = o.bits :: before.tail
  after : after = if o.valid && ready then before.tail else before

theorem wire_moves (hn : numberOfPhases width = 1) (c : ProbeOutWidthConverter width)
    (remaining : List (ProbeOutput width)) (valid outReady : Bool) :
    Moves (c.held ++ remaining.flatMap items)
      ((c.step (offer remaining valid) outReady).held ++
        (if (offer remaining valid).valid && c.inReady outReady then remaining.tail
          else remaining).flatMap items)
      (c.out (offer remaining valid)) outReady := by
  have hheld : ∀ c : ProbeOutWidthConverter width, c.held = [] := fun c => if_pos hn
  cases remaining with
  | nil => constructor <;> simp [hheld, ProbeOutWidthConverter.out, hn, offer]
  | cons x remaining =>
    constructor
    · simp [hheld, ProbeOutWidthConverter.out, hn, offer, items_wire hn]
    · cases valid <;> cases outReady <;>
        simp [hheld, ProbeOutWidthConverter.out, ProbeOutWidthConverter.inReady, hn, offer,
          items_wire hn]

theorem register_moves (hn : numberOfPhases width ≠ 1) (c : ProbeOutWidthConverter width)
    (hc : c.phaseCounter ≤ numberOfPhases width)
    (remaining : List (ProbeOutput width)) (valid outReady : Bool) :
    Moves (c.held ++ remaining.flatMap items)
      ((c.step (offer remaining valid) outReady).held ++
        (if (offer remaining valid).valid && c.inReady outReady then remaining.tail
          else remaining).flatMap items)
      (c.out (offer remaining valid)) outReady := by
  obtain ⟨p, inData, inLast, outValid, outData, outLast⟩ := c
  cases p with
  | zero =>
    -- the converter may accept the next sample
    cases remaining with
    | nil =>
      cases outValid <;> cases outReady <;> constructor <;>
        simp [ProbeOutWidthConverter.held, ProbeOutWidthConverter.step, ProbeOutWidthConverter.out,
          hn, phases, offer]
    | cons x remaining =>
      cases valid <;> cases outValid <;> cases outReady <;> constructor <;>
        simp [ProbeOutWidthConverter.held, ProbeOutWidthConverter.step, ProbeOutWidthConverter.out,
          ProbeOutWidthConverter.inReady, hn, phases, offer, items]
  | succ p =>
    simp only at hc
    cases outValid <;> cases outReady <;> constructor <;>
      simp [ProbeOutWidthConverter.held, ProbeOutWidthConverter.step, ProbeOutWidthConverter.out,
        ProbeOutWidthConverter.inReady, ProbeOutWidthConverter.septet, hn, phases, hc]

theorem phaseCounter_step {c : ProbeOutWidthConverter width}
    (hc : c.phaseCounter ≤ numberOfPhases width) (i : Offer width) (outReady : Bool) :
    (c.step i outReady).phaseCounter ≤ numberOfPhases width := by
  unfold ProbeOutWidthConverter.step
  split_ifs
  · exact hc
  · simp only
    split_ifs <;> omega

/-- The byte the adapter would load, and the state after it. -/
def nextByte (state : State) (o : Offer 8) : Option (U8 × State) :=
  match state with
  | .idle => if o.valid then some (startOfFrame, .inFrame) else none
  | .inFrame =>
    if o.valid then some (o.bits.data, if o.bits.last then .endOfFrame else .inFrame) else none
  | .endOfFrame => some (endOfFrame, .idle)

/-- The adapter loads its output register or lets go of what is taken from it. -/
theorem adapter_step (a : ProbeFrameAdapter width) (i : Offer width) (ready : Bool) :
    a.step i ready =
      match nextByte a.state (a.widthConverter.out i), a.free ready with
      | some (byte, state), true =>
        ⟨a.widthConverter.step i (a.converterReady ready), state, true, byte⟩
      | _, _ => ⟨a.widthConverter.step i (a.converterReady ready), a.state,
          a.outValid && !ready, a.outData⟩ := by
  unfold ProbeFrameAdapter.step nextByte
  dsimp only
  cases a.state <;> cases (a.widthConverter.out i).valid <;> cases a.free ready <;> rfl

/-- A loaded byte is the first one to be sent. -/
theorem bytesFrom_load {state state' : State} {byte : U8} {o : Offer 8}
    {before after : List (ProbeOutput 8)} (h : Moves before after o (state == .inFrame))
    (hload : nextByte state o = some (byte, state')) :
    bytesFrom state before = byte :: bytesFrom state' after := by
  obtain ⟨hfront, hafter⟩ := h
  cases state with
  | endOfFrame =>
    cases hload
    rw [hafter]
    cases o.valid <;> rfl
  | idle =>
    cases hvalid : o.valid with
    | false => simp [nextByte, hvalid] at hload
    | true =>
      simp only [nextByte, hvalid, if_true, Option.some.injEq, Prod.mk.injEq] at hload
      obtain ⟨rfl, rfl⟩ := hload
      have hsame : after = before := by simpa [hvalid] using hafter
      rw [hsame, hfront hvalid]
      rfl
  | inFrame =>
    cases hvalid : o.valid with
    | false => simp [nextByte, hvalid] at hload
    | true =>
      simp only [nextByte, hvalid, if_true, Option.some.injEq, Prod.mk.injEq] at hload
      obtain ⟨rfl, rfl⟩ := hload
      have htail : after = before.tail := by simpa [hvalid] using hafter
      rw [htail, bytesFrom, hfront hvalid, body_cons]
      rfl

/-- Without a load the queue does not move. -/
theorem moves_blocked {state : State} {o : Offer 8} {free : Bool}
    {before after : List (ProbeOutput 8)} (h : Moves before after o (state == .inFrame && free))
    (hblocked : nextByte state o = none ∨ free = false) : after = before := by
  rw [h.after]
  rcases hblocked with hnone | rfl
  · cases state <;> cases hvalid : o.valid <;> simp [nextByte, hvalid] at hnone ⊢
  · simp

/-- The adapter sends the front of its bytes, whatever the converter offers. -/
theorem adapter_sends (a : ProbeFrameAdapter width) (i : Offer width) (ready : Bool)
    {before after : List (ProbeOutput 8)}
    (h : Moves before after (a.widthConverter.out i) (a.converterReady ready)) :
    a.pending ++ bytesFrom a.state before =
      (if a.outValid && ready then [a.outData] else []) ++
        ((a.step i ready).pending ++ bytesFrom (a.step i ready).state after) := by
  rw [adapter_step]
  unfold ProbeFrameAdapter.converterReady at h
  cases hfree : a.free ready with
  | false =>
    -- the register is full and stays as it is
    rw [hfree] at h
    obtain ⟨hout, rfl⟩ : a.outValid = true ∧ ready = false := by
      simpa [ProbeFrameAdapter.free] using hfree
    rw [moves_blocked h (Or.inr rfl)]
    cases nextByte a.state (a.widthConverter.out i) <;> simp [ProbeFrameAdapter.pending, hout]
  | true =>
    rw [hfree] at h
    have hsent : a.pending = if a.outValid && ready then [a.outData] else [] := by
      unfold ProbeFrameAdapter.pending
      unfold ProbeFrameAdapter.free at hfree
      cases hout : a.outValid <;> simp_all
    cases hload : nextByte a.state (a.widthConverter.out i) with
    | none =>
      rw [moves_blocked h (Or.inl hload), hsent]
      have hkept : (a.outValid && !ready) = false := by
        unfold ProbeFrameAdapter.free at hfree
        cases hout : a.outValid <;> simp_all
      simp [ProbeFrameAdapter.pending, hkept]
    | some load =>
      rw [Bool.and_true] at h
      rw [bytesFrom_load h hload, hsent]
      rfl

theorem step_widthConverter (a : ProbeFrameAdapter width) (i : Offer width) (ready : Bool) :
    (a.step i ready).widthConverter = a.widthConverter.step i (a.converterReady ready) := by
  rw [adapter_step]
  split <;> rfl

theorem feed_moves (f : Feed width) (hc : f.Bounded) (c : Clock) :
    Moves f.queued (f.step c).queued
      (f.adapter.widthConverter.out (offer f.remaining c.valid))
      (f.adapter.converterReady c.ready) := by
  unfold Feed.queued Feed.step
  rw [step_widthConverter]
  by_cases hn : numberOfPhases width = 1
  · exact wire_moves hn _ _ _ _
  · exact register_moves hn _ hc _ _ _

/-- One clock of the whole adapter. -/
theorem feed_sends (f : Feed width) (hc : f.Bounded) (c : Clock) :
    (f.step c).Bounded ∧ f.todo = f.emit c ++ (f.step c).todo := by
  constructor
  · unfold Feed.Bounded Feed.step
    rw [step_widthConverter]
    exact phaseCounter_step hc _ _
  · exact adapter_sends f.adapter _ c.ready (feed_moves f hc c)

/-! ## What a fresh adapter has to send -/

theorem phases_data {m n : ℕ} (d : BitVec m) (last : Bool) {p : ℕ} (hp : p ≤ n) :
    (phases n d last p).map (·.data) =
      (List.range p).map fun i => 0#1 ++ d.extractLsb' ((n - p + i) * 7) 7 := by
  induction p with
  | zero => rfl
  | succ p ih =>
    have hshift : ∀ i, n - (p + 1) + (i + 1) = n - p + i := by omega
    rw [phases, List.map_cons, ih (by omega), List.range_succ_eq_map, List.map_cons, List.map_map]
    simp [hshift, Function.comp_def]

theorem items_data (x : ProbeOutput width) : (items x).map (·.data) = septets x.data := by
  unfold items septets
  rw [phases_data _ _ (Nat.le_refl _)]
  apply List.map_congr_left
  intro i hi
  have hi := List.mem_range.mp hi
  apply BitVec.eq_of_getLsbD_eq
  intro k hk
  have hin : i * 7 + k < numberOfPhases width * 7 ∨ 7 ≤ k := by omega
  simp [inputWidthWithPadding, Nat.mul_comm 7 i]
  grind

theorem body_phases {m n : ℕ} (d : BitVec m) (last : Bool) (p : ℕ) (xs : List (ProbeOutput 8)) :
    body (phases n d last (p + 1) ++ xs) = (phases n d last (p + 1)).map (·.data) ++
      bytesFrom (if last then .endOfFrame else .inFrame) xs := by
  induction p with
  | zero =>
    rw [phases, phases, List.cons_append, body_cons]
    simp
  | succ p ih =>
    have hfirst : (p + 1 == 0 && last) = false := rfl
    rw [phases, List.cons_append, body_cons, hfirst, if_neg Bool.false_ne_true, bytesFrom, ih]
    rfl

theorem body_items (hw : 1 ≤ width) (x : ProbeOutput width) (xs : List (ProbeOutput 8)) :
    body (items x ++ xs) =
      septets x.data ++ bytesFrom (if x.last then .endOfFrame else .inFrame) xs := by
  obtain ⟨p, hp⟩ : ∃ p, numberOfPhases width = p + 1 := by
    refine ⟨numberOfPhases width - 1, ?_⟩
    unfold numberOfPhases
    omega
  have hdata := items_data x
  unfold items at hdata ⊢
  rw [hp] at hdata ⊢
  rw [body_phases, hdata]

theorem items_ne_nil (hw : 1 ≤ width) (x : ProbeOutput width) : items x ≠ [] := by
  intro hnil
  have hl := congrArg (List.length ∘ List.map (·.data)) hnil
  simp only [Function.comp_apply, items_data, septets, List.length_map, List.length_range,
    List.map_nil, List.length_nil, numberOfPhases] at hl
  omega

/-- The rest of a frame, one sample after the other. -/
theorem body_frame (hw : 1 ≤ width) {frame : List (BitVec width)} (hf : frame ≠ [])
    (xs : List (ProbeOutput 8)) :
    body ((outputs frame).flatMap items ++ xs) =
      frame.flatMap septets ++ endOfFrame :: opening xs := by
  induction frame with
  | nil => exact absurd rfl hf
  | cons x frame ih =>
    cases frame with
    | nil => simp [outputs, body_items hw, bytesFrom]
    | cons y frame =>
      have hrest := ih (List.cons_ne_nil y frame)
      rw [outputs, List.flatMap_cons, List.append_assoc, body_items hw]
      · simp only [Bool.false_eq_true, if_false, bytesFrom, hrest, List.flatMap_cons,
          List.append_assoc]
      · exact List.cons_ne_nil y frame

theorem opening_frames (hw : 1 ≤ width) {frames : List (List (BitVec width))}
    (hframes : ∀ f ∈ frames, f ≠ []) :
    opening ((frames.flatMap outputs).flatMap items) = frames.flatMap encodeFrame := by
  induction frames with
  | nil => rfl
  | cons frame frames ih =>
    have hf := hframes frame List.mem_cons_self
    have hopen : ((outputs frame).flatMap items ++
        (frames.flatMap outputs).flatMap items).isEmpty = false := by
      cases frame with
      | nil => exact absurd rfl hf
      | cons x frame =>
        have hx : ∀ last, items (⟨x, last⟩ : ProbeOutput width) ≠ [] := fun _ => items_ne_nil hw _
        cases frame <;> simp [outputs, hx]
    rw [List.flatMap_cons, List.flatMap_append, opening, hopen, if_neg Bool.false_ne_true,
      body_frame hw hf, ih fun f hmem => hframes f (List.mem_cons_of_mem _ hmem),
      List.flatMap_cons, encodeFrame]
    simp

theorem todo_new (hw : 1 ≤ width) {frames : List (List (BitVec width))}
    (hframes : ∀ f ∈ frames, f ≠ []) : (Feed.new frames).todo = frames.flatMap encodeFrame := by
  have hheld : (ProbeOutWidthConverter.init width).held = [] := by
    simp [ProbeOutWidthConverter.held, ProbeOutWidthConverter.init, phases]
  rw [← opening_frames hw hframes]
  simp [Feed.todo, Feed.queued, Feed.new, ProbeFrameAdapter.init, ProbeFrameAdapter.pending, hheld,
    bytesFrom]

/-- At any time the bytes sent and the bytes still to be sent are those of the frames. -/
theorem trace_todo (hw : 1 ≤ width) {frames : List (List (BitVec width))}
    (hframes : ∀ f ∈ frames, f ≠ []) (schedule : ℕ → Clock) (t : ℕ) :
    (Feed.machine width).trace (.new frames) schedule t ++
      ((Feed.machine width).run (.new frames) schedule t).todo = frames.flatMap encodeFrame := by
  rw [← todo_new hw hframes]
  exact (Feed.machine width).trace_append_todo Feed.todo Feed.Bounded (Nat.zero_le _)
    (fun f c hc => feed_sends f hc c) t

/-- An offered byte stays until it is taken. -/
theorem offered_stable (f : Feed width) {c : Clock} (hvalid : f.adapter.outValid = true)
    (hready : c.ready = false) : (f.step c).adapter.outValid = true ∧
      (f.step c).adapter.outData = f.adapter.outData := by
  have hfree : f.adapter.free c.ready = false := by
    simp [ProbeFrameAdapter.free, hvalid, hready]
  simp only [Feed.step, adapter_step, hfree]
  cases nextByte f.adapter.state (f.adapter.widthConverter.out (offer f.remaining c.valid)) <;>
    simp [hvalid, hready]

/-! ## Everything is sent in the end -/

/-- The samples and septets that still have to move, and twice the bytes that still
have to be loaded. -/
def work (f : Feed width) : ℕ :=
  2 * (bytesFrom f.adapter.state f.queued).length + f.adapter.pending.length +
    ((numberOfPhases width + 1) * f.remaining.length + f.adapter.widthConverter.phaseCounter)

inductive Kind where
  | clock
  | valid
  | ready
deriving DecidableEq, Repr

def Is : Kind → Clock → Prop
  | .clock, _ => True
  | .valid, c => c.valid = true
  | .ready, c => c.ready = true

/-- No item is in the converter. -/
def Empty (c : ProbeOutWidthConverter width) : Prop :=
  numberOfPhases width = 1 ∨ c.outValid = false ∧ c.phaseCounter = 0

def Enabled : Kind → Feed width → Prop
  | .ready, f => f.adapter.outValid = true
  | .clock, f => f.adapter.outValid = false ∧
      (f.adapter.state = .endOfFrame ∨ ¬ Empty f.adapter.widthConverter)
  | .valid, f => f.adapter.outValid = false ∧ f.adapter.state ≠ .endOfFrame ∧
      Empty f.adapter.widthConverter ∧ f.remaining ≠ []

theorem enabled_of_todo {f : Feed width} (h : f.todo ≠ []) : ∃ k, Enabled k f := by
  cases hout : f.adapter.outValid with
  | true => exact ⟨.ready, hout⟩
  | false =>
    by_cases hstate : f.adapter.state = .endOfFrame
    · exact ⟨.clock, hout, Or.inl hstate⟩
    by_cases hempty : Empty f.adapter.widthConverter
    · refine ⟨.valid, hout, hstate, hempty, ?_⟩
      intro hnil
      have hheld : f.adapter.widthConverter.held = [] := by
        unfold ProbeOutWidthConverter.held
        rcases hempty with hn | ⟨hvalid, hphase⟩
        · exact if_pos hn
        · simp [hvalid, hphase, phases]
      apply h
      unfold Feed.todo ProbeFrameAdapter.pending Feed.queued
      rw [hheld, hnil, hout]
      cases hs : f.adapter.state with
      | idle => rfl
      | inFrame => rfl
      | endOfFrame => exact absurd hs hstate
    · exact ⟨.clock, hout, Or.inr hempty⟩

/-- A clock moves a sample or a septet on, or the converter only gives up its item. -/
theorem converter_works (c : ProbeOutWidthConverter width) (remaining : List (ProbeOutput width))
    (valid outReady : Bool) :
    let i := offer remaining valid
    let remaining' := if i.valid && c.inReady outReady then remaining.tail else remaining
    (numberOfPhases width + 1) * remaining'.length + (c.step i outReady).phaseCounter <
        (numberOfPhases width + 1) * remaining.length + c.phaseCounter ∨
      remaining' = remaining ∧ (c.step i outReady = c ∨
        numberOfPhases width ≠ 1 ∧ c.outValid = true ∧ outReady = true ∧
          (c.step i outReady).phaseCounter = c.phaseCounter) := by
  have hless : ∀ r, (numberOfPhases width + 1) * r + numberOfPhases width <
      (numberOfPhases width + 1) * (r + 1) := by
    intro r
    rw [Nat.mul_succ]
    omega
  by_cases hn : numberOfPhases width = 1
  · cases remaining with
    | nil => simp [offer, ProbeOutWidthConverter.step, hn]
    | cons x remaining =>
      cases valid <;> cases outReady <;>
        simp [offer, ProbeOutWidthConverter.step, ProbeOutWidthConverter.inReady, hn]
  · obtain ⟨p, inData, inLast, outValid, outData, outLast⟩ := c
    cases p with
    | succ p =>
      cases outValid <;> cases outReady <;>
        simp [ProbeOutWidthConverter.step, ProbeOutWidthConverter.inReady, hn]
    | zero =>
      cases remaining with
      | nil =>
        cases outValid <;> cases outReady <;>
          simp [offer, ProbeOutWidthConverter.step, hn]
      | cons x remaining =>
        cases valid <;> cases outValid <;> cases outReady <;>
          simp [offer, ProbeOutWidthConverter.step, ProbeOutWidthConverter.inReady, hn, hless]

/-- A clock in which the adapter loads a byte. -/
theorem load_works (f : Feed width) (hc : f.Bounded) (c : Clock)
    {byte : U8} {state : State} (hfree : f.adapter.free c.ready = true)
    (hload : nextByte f.adapter.state (f.adapter.widthConverter.out (offer f.remaining c.valid)) =
      some (byte, state)) :
    work (f.step c) < work f ∧ (f.step c).adapter.outValid = true := by
  have hmoves := feed_moves f hc c
  rw [ProbeFrameAdapter.converterReady, hfree, Bool.and_true] at hmoves
  have hbytes := congrArg List.length (bytesFrom_load hmoves hload)
  have hadapter : (f.step c).adapter = ⟨f.adapter.widthConverter.step (offer f.remaining c.valid)
      (f.adapter.converterReady c.ready), state, true, byte⟩ := by
    simp only [Feed.step, adapter_step, hload, hfree]
  have hconverter := converter_works f.adapter.widthConverter f.remaining c.valid
    (f.adapter.converterReady c.ready)
  have hqueue : (numberOfPhases width + 1) * (f.step c).remaining.length +
      (f.step c).adapter.widthConverter.phaseCounter ≤
      (numberOfPhases width + 1) * f.remaining.length + f.adapter.widthConverter.phaseCounter := by
    rw [hadapter]
    rcases hconverter with hless | ⟨hsame, hconverter⟩
    · exact Nat.le_of_lt hless
    · refine Nat.le_of_eq (congrArg₂ _ (congrArg _ (congrArg _ hsame)) ?_)
      rcases hconverter with heq | ⟨-, -, -, hphase⟩
      · exact congrArg _ heq
      · exact hphase
  refine ⟨?_, by rw [hadapter]⟩
  rw [List.length_cons] at hbytes
  unfold work
  rw [hbytes]
  have hstate : (f.step c).adapter.state = state := by rw [hadapter]
  have hpending : (f.step c).adapter.pending.length = 1 := by
    rw [hadapter]
    rfl
  rw [hstate, hpending]
  omega

/-- A clock gets work done or leaves everything as it is. -/
theorem feed_works (f : Feed width) (hc : f.Bounded) (c : Clock) :
    work (f.step c) < work f ∨ f.step c = f ∧ f.emit c = [] := by
  by_cases hload : f.adapter.free c.ready = true ∧
      (nextByte f.adapter.state (f.adapter.widthConverter.out (offer f.remaining c.valid))).isSome
  · obtain ⟨hfree, hsome⟩ := hload
    obtain ⟨⟨byte, state⟩, hload⟩ := Option.isSome_iff_exists.mp hsome
    exact Or.inl (load_works f hc c hfree hload).1
  have hblocked : nextByte f.adapter.state
      (f.adapter.widthConverter.out (offer f.remaining c.valid)) = none ∨
      f.adapter.free c.ready = false := by
    cases hfree : f.adapter.free c.ready with
    | false => exact Or.inr rfl
    | true => exact Or.inl (by simpa [hfree] using hload)
  have hadapter : (f.step c).adapter = ⟨f.adapter.widthConverter.step (offer f.remaining c.valid)
      (f.adapter.converterReady c.ready), f.adapter.state, f.adapter.outValid && !c.ready,
      f.adapter.outData⟩ := by
    simp only [Feed.step, adapter_step]
    rcases hblocked with hnone | hfull
    · rw [hnone]
    · rw [hfull]
      split <;> simp_all
  have hbytes : bytesFrom (f.step c).adapter.state (f.step c).queued =
      bytesFrom f.adapter.state f.queued := by
    rw [moves_blocked (feed_moves f hc c) hblocked, hadapter]
  have hpending : (f.step c).adapter.pending.length + (f.emit c).length =
      f.adapter.pending.length := by
    rw [hadapter]
    unfold ProbeFrameAdapter.pending Feed.emit
    cases f.adapter.outValid <;> cases c.ready <;> rfl
  rcases converter_works f.adapter.widthConverter f.remaining c.valid
    (f.adapter.converterReady c.ready) with hless | ⟨hsame, hkept | ⟨hn, hvalid, hready, -⟩⟩
  · have hqueue : (numberOfPhases width + 1) * (f.step c).remaining.length +
        (f.step c).adapter.widthConverter.phaseCounter <
        (numberOfPhases width + 1) * f.remaining.length +
          f.adapter.widthConverter.phaseCounter := by
      rw [hadapter]
      exact hless
    unfold work
    rw [hbytes]
    omega
  · have hremaining : (f.step c).remaining = f.remaining := hsame
    cases hemit : f.emit c with
    | nil =>
      have hout : (f.adapter.outValid && !c.ready) = f.adapter.outValid := by
        unfold Feed.emit at hemit
        cases hv : f.adapter.outValid <;> cases hr : c.ready <;> simp [hv, hr] at hemit ⊢
      rw [hkept, hout] at hadapter
      refine Or.inr ⟨?_, rfl⟩
      calc f.step c = ⟨(f.step c).adapter, (f.step c).remaining⟩ := rfl
        _ = f := by rw [hadapter, hremaining]
    | cons byte rest =>
      rw [hemit, List.length_cons] at hpending
      have hphase : (f.step c).adapter.widthConverter = f.adapter.widthConverter := by
        rw [hadapter]
        exact hkept
      unfold work
      rw [hbytes, hremaining, hphase]
      omega
  · -- an item that is taken from the converter is loaded
    obtain ⟨hstate, hfree⟩ : f.adapter.state = .inFrame ∧ f.adapter.free c.ready = true := by
      simpa [ProbeFrameAdapter.converterReady] using hready
    have hoffered : (f.adapter.widthConverter.out (offer f.remaining c.valid)).valid = true := by
      simp [ProbeOutWidthConverter.out, hn, hvalid]
    rcases hblocked with hnone | hfull
    · simp [nextByte, hstate, hoffered] at hnone
    · rw [hfree] at hfull
      exact nomatch hfull

/-- A helpful clock does not leave everything as it is. -/
theorem feed_helped (f : Feed width) (hc : f.Bounded) {c : Clock} {k : Kind}
    (hk : Enabled k f) (his : Is k c) : work (f.step c) < work f := by
  rcases feed_works f hc c with hless | ⟨hsame, hemit⟩
  · exact hless
  exfalso
  -- a load would fill the empty output register
  have hnoload : f.adapter.outValid = false → nextByte f.adapter.state
      (f.adapter.widthConverter.out (offer f.remaining c.valid)) = none := by
    intro hout
    cases hload : nextByte f.adapter.state
        (f.adapter.widthConverter.out (offer f.remaining c.valid)) with
    | none => rfl
    | some load =>
      have hfree : f.adapter.free c.ready = true := by simp [ProbeFrameAdapter.free, hout]
      have hfull := (load_works f hc c hfree hload).2
      rw [hsame, hout] at hfull
      exact nomatch hfull
  have hnovalid : f.adapter.outValid = false → f.adapter.state ≠ .endOfFrame →
      (f.adapter.widthConverter.out (offer f.remaining c.valid)).valid = false := by
    intro hout hstate
    have hnone := hnoload hout
    cases hvalid : (f.adapter.widthConverter.out (offer f.remaining c.valid)).valid with
    | false => rfl
    | true => cases hs : f.adapter.state <;> simp_all [nextByte]
  cases k with
  | ready =>
    have hout : f.adapter.outValid = true := hk
    have hready : c.ready = true := his
    simp [Feed.emit, hout, hready] at hemit
  | clock =>
    obtain ⟨hout, hbusy⟩ := hk
    by_cases hstate : f.adapter.state = .endOfFrame
    · have hnone := hnoload hout
      rw [hstate] at hnone
      exact nomatch hnone
    · have hnone := hnovalid hout hstate
      obtain ⟨hn, hfull⟩ := not_or.mp (hbusy.resolve_left hstate)
      have hvalid : f.adapter.widthConverter.outValid = false := by
        simpa [ProbeOutWidthConverter.out, hn] using hnone
      -- the converter would advance into its empty register
      have hphase : 0 < f.adapter.widthConverter.phaseCounter :=
        Nat.pos_of_ne_zero fun hzero => hfull ⟨hvalid, hzero⟩
      have hkept := congrArg (·.adapter.widthConverter.outValid) hsame
      simp [Feed.step, step_widthConverter, ProbeOutWidthConverter.step, hn, hvalid, hphase]
        at hkept
  | valid =>
    obtain ⟨hout, hstate, hempty, hne⟩ := hk
    have hoffer : c.valid = true := his
    have hnone := hnovalid hout hstate
    have hremaining := congrArg (·.remaining) hsame
    cases hr : f.remaining with
    | nil => exact hne hr
    | cons x remaining =>
      rcases hempty with hn | ⟨hvalid, hzero⟩
      · simp [ProbeOutWidthConverter.out, hn, offer, hr, hoffer] at hnone
      · by_cases hn : numberOfPhases width = 1
        · simp [ProbeOutWidthConverter.out, hn, offer, hr, hoffer] at hnone
        · have hready : f.adapter.inReady c.ready = true := by
            simp [ProbeFrameAdapter.inReady, ProbeOutWidthConverter.inReady, hn, hzero]
          simp [Feed.step, offer, hr, hoffer, hready] at hremaining

theorem todo_nil_step {f : Feed width} (hc : f.Bounded) (c : Clock)
    (h : f.todo = []) : (f.step c).todo = [] := by
  have hsends := (feed_sends f hc c).2
  rw [h] at hsends
  exact (List.append_eq_nil_iff.mp hsends.symm).2

end

/-- Samples offered and a receiver ready again and again get everything sent. -/
theorem all_transferred {width : ℕ} (hw : 1 ≤ width) {frames : List (List (BitVec width))}
    (hframes : ∀ f ∈ frames, f ≠ []) {schedule : ℕ → Clock}
    (hvalid : ∀ t, ∃ u, t ≤ u ∧ (schedule u).valid = true)
    (hready : ∀ t, ∃ u, t ≤ u ∧ (schedule u).ready = true) :
    ∃ u, ∀ t, u ≤ t → (Feed.machine width).trace (.new frames) schedule t =
      frames.flatMap encodeFrame := by
  have hfair : Fair Is schedule := by
    intro k
    cases k with
    | clock => exact fun t => ⟨t, Nat.le_refl t, trivial⟩
    | valid => exact hvalid
    | ready => exact hready
  have hbound : ∀ t, ((Feed.machine width).run (.new frames) schedule t).Bounded :=
    (Feed.machine width).run_invariant Feed.Bounded (Nat.zero_le _)
      fun t f hc => (feed_sends f hc (schedule t)).1
  have hstep : ∀ t, ((Feed.machine width).run (.new frames) schedule t).todo ≠ [] →
      ((Feed.machine width).run (.new frames) schedule (t + 1)).todo = [] ∨
      ((Feed.machine width).run (.new frames) schedule (t + 1)).todo ≠ [] ∧
        Harmless Is Enabled work ((Feed.machine width).run (.new frames) schedule t)
          ((Feed.machine width).run (.new frames) schedule (t + 1)) (schedule t) := by
    intro t _
    by_cases hnext : ((Feed.machine width).run (.new frames) schedule (t + 1)).todo = []
    · exact Or.inl hnext
    · refine Or.inr ⟨hnext, .of_helped ?_ fun k hk his => feed_helped _ (hbound t) hk his⟩
      exact (feed_works _ (hbound t) (schedule t)).imp id And.left
  have hempty : ∃ u, ((Feed.machine width).run (.new frames) schedule u).todo = [] := by
    by_cases hnow : ((Feed.machine width).run (.new frames) schedule 0).todo = []
    · exact ⟨0, hnow⟩
    · have hreach : ∃ u, 0 < u ∧
          ((Feed.machine width).run (.new frames) schedule u).todo = [] :=
        hfair.reaches (fun t ht => enabled_of_todo ht) hstep hnow
      obtain ⟨u, -, hu⟩ := hreach
      exact ⟨u, hu⟩
  obtain ⟨u, hu⟩ := hempty
  refine ⟨u, ?_⟩
  intro t ht
  have hdone : ((Feed.machine width).run (.new frames) schedule t).todo = [] := by
    induction ht with
    | refl => exact hu
    | step _ ih => exact todo_nil_step (hbound _) _ ih
  rw [← trace_todo hw hframes schedule t, hdone, List.append_nil]

/-- **Every frame, byte by byte.** Under any schedule the bytes transferred and those
still to come are the frames' bytes in order, and an offered byte stays until it is taken.
If samples are offered and the receiver is ready again and again, all bytes are transferred. -/
theorem frames_transferred {width : ℕ} (hw : 1 ≤ width) {frames : List (List (BitVec width))}
    (hframes : ∀ f ∈ frames, f ≠ []) (schedule : ℕ → Clock) :
    (∀ t, (Feed.machine width).trace (.new frames) schedule t ++
      ((Feed.machine width).run (.new frames) schedule t).todo = frames.flatMap encodeFrame) ∧
    (∀ t, ((Feed.machine width).run (.new frames) schedule t).adapter.outValid = true →
      (schedule t).ready = false →
      ((Feed.machine width).run (.new frames) schedule (t + 1)).adapter.outValid = true ∧
      ((Feed.machine width).run (.new frames) schedule (t + 1)).adapter.outData =
        ((Feed.machine width).run (.new frames) schedule t).adapter.outData) ∧
    ((∀ t, ∃ u, t ≤ u ∧ (schedule u).valid = true) →
      (∀ t, ∃ u, t ≤ u ∧ (schedule u).ready = true) →
      ∃ u, ∀ t, u ≤ t → (Feed.machine width).trace (.new frames) schedule t =
        frames.flatMap encodeFrame) := by
  refine ⟨trace_todo hw hframes schedule, ?_, all_transferred hw hframes⟩
  intro t hvalid hready
  exact offered_stable _ hvalid hready

/-- Samples pause in one clock of three, the receiver in one of two. -/
def pauses (t : ℕ) : Clock := ⟨t % 3 != 1, t % 2 == 0⟩

example : (Feed.machine 9).trace (.new [[0x1ff, 0x081], [0x003]]) pauses 40 =
    [0x80, 0x7f, 0x03, 0x01, 0x01, 0x81, 0x80, 0x03, 0x00, 0x81] := by decide

theorem pauses_valid : ∀ t, ∃ u, t ≤ u ∧ (pauses u).valid = true := by
  intro t
  have hoffered : 3 * t % 3 = 0 := by omega
  exact ⟨3 * t, by omega, by simp [pauses, hoffered]⟩

theorem pauses_ready : ∀ t, ∃ u, t ≤ u ∧ (pauses u).ready = true := by
  intro t
  have hready : 2 * t % 2 = 0 := by omega
  exact ⟨2 * t, by omega, by simp [pauses, hready]⟩

theorem frames_transferred_pauses :
    ∃ u, ∀ t, u ≤ t → (Feed.machine 9).trace (.new [[0x1ff, 0x081], [0x003]]) pauses t =
      ([[0x1ff, 0x081], [0x003]] : List (List (BitVec 9))).flatMap encodeFrame :=
  (frames_transferred (by decide) (by decide) pauses).2.2 pauses_valid pauses_ready

end SeccampRiscvCpu.ProbeStream
