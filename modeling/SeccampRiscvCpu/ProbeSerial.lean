import SeccampRiscvCpu.HandshakeStreams
import SeccampRiscvCpu.ProbeFrameCodec
import SeccampRiscvCpu.ProbeTrigger
import SeccampRiscvCpu.UartLink

/-!
# The probe of a top level, down to the rows on the host

With `enableProbe` a top level watches the instruction bus: `Probe`, the
`ProbeFrameAdapter` and a transmitter of their own stand one behind the other. The
trigger is a counter of the clocks without a write to the GPIO ports, or a switch.

Between the three modules there are two handshakes, both with a stable producer. So the
adapter sees the list of the captured words, the transmitter the list of their bytes, and
the results about each module are results about the chain.
-/
namespace SeccampRiscvCpu.ProbeSerial
open ByteSlices ClockedMachine HandshakeStreams ProbeCapture ProbeDecoder ProbeFrameCodec
open ProbeStream ProbeTrigger StreamTransducer UartLink
open UartTransmitter (UartTx)

structure ProbePath (config : ProbeConfig) (width baudDivider : ℕ) where
  noActivityCounter : BitVec (Nat.clog 2 256)
  probe : Probe config width
  probeFrameAdapter : ProbeFrameAdapter width
  probeUartTx : UartTx 8 baudDivider

/-- The inputs of one clock; an empty queue shows `bufferBits`. -/
structure Inputs (width : ℕ) where
  in_ : BitVec width
  gpioWen : Bool
  switchIn : BitVec 32
  bufferBits : BitVec width

namespace ProbePath
variable {config : ProbeConfig} {width B : ℕ}

/-- After reset; the shift register of the transmitter has no reset value. -/
def init (config : ProbeConfig) (width : ℕ) (txBits : BitVec 10) : ProbePath config width B :=
  ⟨0, .init config width, .init width, .init txBits⟩

variable (s : ProbePath config width B) (i : Inputs width)

def trigger : Bool := s.noActivityCounter == 255 || !i.switchIn.getLsbD 0

/-- What the probe offers to the adapter. -/
def word : Offer width := ⟨s.probe.outValid, ⟨s.probe.outData, s.probe.outLast⟩⟩

/-- What the adapter offers to the transmitter. -/
def byte : Option U8 :=
  if s.probeFrameAdapter.outValid then some s.probeFrameAdapter.outData else none

def wordReady : Bool := s.probeFrameAdapter.inReady s.probeUartTx.inReady

def probeInputs : ProbeCapture.Inputs width := ⟨i.in_, s.trigger i, s.wordReady, i.bufferBits⟩

def step : ProbePath config width B where
  noActivityCounter := if i.gpioWen then 0 else s.noActivityCounter + 1
  probe := s.probe.step (s.probeInputs i)
  probeFrameAdapter := s.probeFrameAdapter.step s.word s.probeUartTx.inReady
  probeUartTx := s.probeUartTx.step s.byte

/-- The bytes the transmitter takes. -/
def machine (config : ProbeConfig) (width B : ℕ) :
    Machine (ProbePath config width B) (Inputs width) U8 :=
  ⟨step, fun s _ => (s.probeUartTx.accepted s.byte).toList⟩

end ProbePath

section
variable {config : ProbeConfig} {width B : ℕ} (path : ℕ → ProbePath config width B)

/-- The words between the probe and the adapter. -/
def words : Handshake (ProbeOutput width) where
  offer t := if (path t).word.valid then some (path t).word.bits else none
  ready t := (path t).wordReady

@[simp] theorem words_offer (t : ℕ) :
    (words path).offer t = if (path t).word.valid then some (path t).word.bits else none := rfl
@[simp] theorem words_ready (t : ℕ) : (words path).ready t = (path t).wordReady := rfl

/-- The bytes between the adapter and the transmitter. -/
def bytes : Handshake U8 where
  offer t := (path t).byte
  ready t := (path t).probeUartTx.inReady

/-- What the probe sees. -/
def stimulus (input : ℕ → Inputs width) (t : ℕ) : ProbeCapture.Inputs width :=
  (path t).probeInputs (input t)

/-- The adapter and what is left of a list of words. -/
def feed (l : List (ProbeOutput width)) (t : ℕ) : Feed width :=
  ⟨(path t).probeFrameAdapter, (words path).rest l t⟩

/-- What the adapter sees. -/
def clock (t : ℕ) : Clock := ⟨(path t).word.valid, (path t).probeUartTx.inReady⟩

/-- The chain in each clock of a run from reset. -/
structure Runs (txBits : BitVec 10) (input : ℕ → Inputs width) : Prop where
  init : path 0 = .init config width txBits
  step : ∀ t, path (t + 1) = (path t).step (input t)

end

theorem runs_run (config : ProbeConfig) {width : ℕ} (B : ℕ) (txBits : BitVec 10)
    (input : ℕ → Inputs width) :
    Runs ((ProbePath.machine config width B).run (.init config width txBits) input) txBits input :=
  ⟨rfl, fun _ => rfl⟩

section
variable {config : ProbeConfig} {width B : ℕ} {path : ℕ → ProbePath config width B}
  {txBits : BitVec 10} {input : ℕ → Inputs width}

/-! ## The words of the probe -/

theorem Runs.probe (h : Runs path txBits input) (t : ℕ) :
    (path t).probe = probeAt config (stimulus path input) t := by
  induction t with
  | zero => rw [h.init]; rfl
  | succ t ih => rw [probeAt_succ, ← ih, h.step]; rfl

theorem Runs.drives (h : Runs path txBits input) :
    Drives (fun t => (path t).probeUartTx) txBits (bytes path) := by
  refine ⟨fun t => ?_, fun _ => rfl⟩
  induction t with
  | zero => rw [h.init]; rfl
  | succ t ih => rw [UartTransmitter.txRun, ← ih, h.step]; rfl

theorem Runs.transferred (h : Runs path txBits input) (t : ℕ) :
    (words path).transferred t = wordsAt config (stimulus path input) t := by
  symm
  refine Handshake.trace_eq ?_ t
  intro t
  show (probeAt config (stimulus path input) t).emit (stimulus path input t) = _
  rw [← h.probe]
  show (if (path t).word.valid && (path t).wordReady then [(path t).word.bits] else []) = _
  rw [Handshake.transfer, words_offer, words_ready]
  cases (path t).word.valid <;> cases (path t).wordReady <;> rfl

variable (hdepth : 2 ≤ config.bufferDepth) (hpos : config.triggerPosition < config.bufferDepth)
include hdepth hpos

theorem Runs.captures (h : Runs path txBits input) (t : ℕ) :
    ∃ starts start sent, Phase (stimulus path input) start sent t (path t).probe ∧
      (words path).transferred t =
        starts.flatMap (window (stimulus path input) config.bufferDepth) ++
          (window (stimulus path input) config.bufferDepth start).take sent ∧
      Apart config.bufferDepth (starts ++ [start]) := by
  rw [h.transferred, h.probe]
  exact run_captures hdepth hpos (stimulus path input) t

/-- The words that have been offered are those of whole captures, up to their end. -/
theorem Runs.shown (h : Runs path txBits input) (t : ℕ) :
    ∃ k, (∀ start ∈ (captureStarts config (stimulus path input) t).take k,
        start + config.bufferDepth ≤ t) ∧
      (words path).shown t <+: ((captureStarts config (stimulus path input) t).take k).flatMap
        (window (stimulus path input) config.bufferDepth) := by
  obtain ⟨starts, start, sent, hphase, hwords, hapart, hall⟩ :=
    run_captureStarts hdepth hpos (stimulus path input) t
  have hbefore : (captureStarts config (stimulus path input) t).take starts.length = starts := by
    rw [hall]
    split_ifs
    · exact List.take_left
    · exact List.take_length
  have hends : start ≤ t → ∀ first ∈ starts, first + config.bufferDepth ≤ t := by
    intro hle first hfirst
    have hlt := (List.pairwise_append.mp hapart).2.2 first hfirst start List.mem_cons_self
    omega
  have hword : (words path).offer t =
      if (path t).probe.outValid then some ⟨(path t).probe.outData, (path t).probe.outLast⟩
        else none := rfl
  rw [← h.probe] at hphase hall
  rw [Handshake.shown, h.transferred, hwords, hword]
  rcases hphase.idle_or_draining with ⟨hsent, hidle, hle⟩ | ⟨hstate, hdraining⟩
  · refine ⟨starts.length, ?_, ?_⟩
    · rw [hbefore]
      exact hends hle
    · rw [hbefore]
      simp [hidle, hsent]
  have hcomplete := hdraining.complete
  cases hvalid : (path t).probe.outValid with
  | false =>
    refine ⟨starts.length, ?_, ?_⟩
    · rw [hbefore]
      exact hends (by omega)
    · rw [hbefore]
      simp [hdraining.first hvalid]
  | true =>
    have hplace := (hdraining.offered hstate hvalid).1
    have hlast : (captureStarts config (stimulus path input) t).take (starts.length + 1) =
        starts ++ [start] := by
      have hgoes : collecting (path t).probe = true := by
        rw [collecting, hstate]
        rfl
      rw [hall, if_pos hgoes]
      exact List.take_of_length_le (Nat.le_of_eq (List.length_append))
    refine ⟨starts.length + 1, ?_, ?_⟩
    · rw [hlast]
      intro first hfirst
      rcases List.mem_append.mp hfirst with hmem | hmem
      · exact hends (by omega) first hmem
      · rw [List.mem_singleton.mp hmem]
        exact hcomplete
    · have hnext : (window (stimulus path input) config.bufferDepth start).take sent ++
          [⟨(path t).probe.outData, (path t).probe.outLast⟩] =
          (window (stimulus path input) config.bufferDepth start).take (sent + 1) := by
        rw [List.take_add_one, hplace]
        rfl
      rw [hlast, List.flatMap_append, List.flatMap_singleton, if_pos rfl, Option.toList_some,
        List.append_assoc, hnext, List.prefix_append_right_inj]
      exact List.take_prefix _ _

theorem Runs.words_stable (h : Runs path txBits input) : (words path).Stable := by
  intro t x hoffer hready
  obtain ⟨starts, start, sent, hphase, -, -⟩ := h.captures hdepth hpos t
  have hword : ∀ t, (words path).offer t =
    if (path t).probe.outValid then some ⟨(path t).probe.outData, (path t).probe.outLast⟩
      else none := fun _ => rfl
  cases hvalid : (path t).probe.outValid with
  | false =>
    rw [hword, hvalid] at hoffer
    exact absurd hoffer (Option.some_ne_none x).symm
  | true =>
    rcases hphase.idle_or_draining with ⟨-, hidle, -⟩ | ⟨hstate, -⟩
    · exact absurd (hidle.symm.trans hvalid) Bool.false_ne_true
    obtain ⟨hstate', hvalid', hdata, hbuffer⟩ :=
      offered_stable (i := stimulus path input t) hstate hvalid hready
    have hprobe : (path (t + 1)).probe = (path t).probe.step (stimulus path input t) := by
      rw [h.step]
      rfl
    have hlast : (path (t + 1)).probe.outLast = (path t).probe.outLast := by
      rw [hprobe, Probe.outLast, Probe.outLast, hstate', hstate, hbuffer]
    rw [hword, if_pos hvalid] at hoffer
    rw [hword, hlast, hprobe, if_pos hvalid', hdata, ← hoffer]

end

/-! ## The bytes of the adapter -/

section
variable {config : ProbeConfig} {width B : ℕ} {path : ℕ → ProbePath config width B}
  {txBits : BitVec 10} {input : ℕ → Inputs width}

/-- What is not valid is not looked at. -/
theorem adapter_invalid (a : ProbeFrameAdapter width) (x y : ProbeOutput width) (ready : Bool) :
    a.step ⟨false, x⟩ ready = a.step ⟨false, y⟩ ready := by
  have hnext : nextByte a.state (a.widthConverter.out ⟨false, x⟩) =
      nextByte a.state (a.widthConverter.out ⟨false, y⟩) := by
    by_cases hn : numberOfPhases width = 1
    · cases a.state <;> simp [nextByte, ProbeOutWidthConverter.out, hn]
    · simp only [ProbeOutWidthConverter.out, if_neg hn]
  rw [adapter_step, adapter_step, hnext]
  rfl

/-- In each clock the adapter is fed from the list. -/
theorem Runs.feed_succ (h : Runs path txBits input) {l : List (ProbeOutput width)} {t : ℕ}
    (hl : (words path).shown t <+: l) :
    feed path l (t + 1) = (feed path l t).step (clock path t) := by
  have hoffer : (words path).offer t = _ := words_offer path t
  have hadapter : (path (t + 1)).probeFrameAdapter =
      (path t).probeFrameAdapter.step (path t).word (path t).probeUartTx.inReady := by
    rw [h.step]
    rfl
  unfold Feed.step feed clock
  rw [Handshake.rest_succ, hadapter, Handshake.transfer, words_ready, ProbePath.wordReady]
  cases hvalid : (path t).word.valid with
  | true =>
    rw [hvalid, if_pos rfl] at hoffer
    have hword : offer ((words path).rest l t) true = (path t).word := by
      rw [Handshake.rest_offered hl hoffer, offer, ← hvalid]
    simp only [hword, hvalid, hoffer, Bool.true_and]
    cases (path t).probeFrameAdapter.inReady (path t).probeUartTx.inReady <;> rfl
  | false =>
    rw [hvalid, if_neg Bool.false_ne_true] at hoffer
    have hword : (path t).word = ⟨false, (path t).word.bits⟩ := by rw [← hvalid]
    have hnone : ∃ x, offer ((words path).rest l t) false = ⟨false, x⟩ := by
      cases (words path).rest l t with
      | nil => exact ⟨_, rfl⟩
      | cons x rest => exact ⟨x, rfl⟩
    obtain ⟨x, hx⟩ := hnone
    simp only [hx, hoffer, ite_self, Option.isSome_none, Bool.false_and]
    rw [hword]
    exact congrArg (Feed.mk · _) (adapter_invalid _ _ _ _)

theorem Runs.feed_bounded (h : Runs path txBits input) (l : List (ProbeOutput width)) (t : ℕ) :
    (feed path l t).Bounded := by
  unfold Feed.Bounded feed
  induction t with
  | zero =>
    rw [h.init]
    exact Nat.zero_le _
  | succ t ih =>
    have hadapter : (path (t + 1)).probeFrameAdapter =
        (path t).probeFrameAdapter.step (path t).word (path t).probeUartTx.inReady := by
      rw [h.step]
      rfl
    simp only [hadapter, step_widthConverter]
    exact phaseCounter_step ih _ _

/-- The bytes of a list of words. -/
def encodeWords (l : List (ProbeOutput width)) : List U8 := opening (l.flatMap items)

/-- The bytes transferred and the bytes still to be sent are those of the list. -/
theorem Runs.transferred_todo (h : Runs path txBits input) (hstable : (words path).Stable)
    {l : List (ProbeOutput width)} {t : ℕ} (hl : (words path).shown t <+: l) :
    (bytes path).transferred t ++ (feed path l t).todo = encodeWords l := by
  induction t with
  | zero =>
    have hheld : (ProbeOutWidthConverter.init width).held = [] := by
      simp [ProbeOutWidthConverter.held, ProbeOutWidthConverter.init, phases]
    have hfeed : feed path l 0 = ⟨.init width, l⟩ := by
      rw [feed, h.init]
      rfl
    rw [hfeed, Feed.todo, Feed.queued, encodeWords]
    simp [ProbeFrameAdapter.init, ProbeFrameAdapter.pending, hheld, bytesFrom]
  | succ t ih =>
    have hl' : (words path).shown t <+: l := (hstable.shown_succ t).trans hl
    have hsends := (feed_sends (feed path l t) (h.feed_bounded l t) (clock path t)).2
    have hemit : (feed path l t).emit (clock path t) = ((bytes path).transfer t).toList := by
      show (if (path t).probeFrameAdapter.outValid && (path t).probeUartTx.inReady then
        [(path t).probeFrameAdapter.outData] else []) = (if (path t).probeUartTx.inReady then
          (path t).byte else none).toList
      unfold ProbePath.byte
      cases (path t).probeFrameAdapter.outValid <;> cases (path t).probeUartTx.inReady <;> rfl
    rw [Handshake.transferred_succ, ← hemit, h.feed_succ hl', List.append_assoc, ← hsends, ih hl']

/-- More words bring more bytes. -/
theorem bytesFrom_mono {xs ys : List (ProbeOutput 8)} (hxs : xs <+: ys)
    (state : ProbeStream.State) :
    bytesFrom state xs <+: bytesFrom state ys := by
  induction xs generalizing ys state with
  | nil =>
    cases state with
    | idle => exact List.nil_prefix
    | inFrame => exact List.nil_prefix
    | endOfFrame => exact List.cons_prefix_cons.mpr ⟨rfl, List.nil_prefix⟩
  | cons x xs ih =>
    obtain ⟨more, rfl⟩ := hxs
    have hbody : body (x :: xs) <+: body (x :: (xs ++ more)) := by
      rw [body_cons, body_cons]
      exact List.cons_prefix_cons.mpr ⟨rfl, ih (List.prefix_append _ _) _⟩
    have hopening : opening (x :: xs) <+: opening (x :: (xs ++ more)) :=
      List.cons_prefix_cons.mpr ⟨rfl, hbody⟩
    cases state with
    | idle => exact hopening
    | inFrame => exact hbody
    | endOfFrame => exact List.cons_prefix_cons.mpr ⟨rfl, hopening⟩

theorem encodeWords_mono {l l' : List (ProbeOutput width)} (hl : l <+: l') :
    encodeWords l <+: encodeWords l' := by
  obtain ⟨more, rfl⟩ := hl
  rw [encodeWords, encodeWords, List.flatMap_append]
  exact bytesFrom_mono (List.prefix_append _ _) .idle

/-! ## No byte waits for long -/

/-- Nothing is in the adapter. -/
def Idle (a : ProbeFrameAdapter width) : Prop :=
  a.outValid = false ∧ a.state ≠ .endOfFrame ∧ Empty a.widthConverter

theorem Runs.adapter_succ (h : Runs path txBits input) (t : ℕ) :
    (path (t + 1)).probeFrameAdapter =
      (path t).probeFrameAdapter.step (path t).word (path t).probeUartTx.inReady := by
  rw [h.step]
  rfl

theorem Runs.bytes_stable (h : Runs path txBits input) : (bytes path).Stable := by
  intro t x hoffer hready
  have hbyte : ∀ t, (bytes path).offer t = if (path t).probeFrameAdapter.outValid then
    some (path t).probeFrameAdapter.outData else none := fun _ => rfl
  rw [hbyte] at hoffer ⊢
  cases hvalid : (path t).probeFrameAdapter.outValid with
  | false =>
    rw [hvalid] at hoffer
    exact absurd hoffer (Option.some_ne_none x).symm
  | true =>
    obtain ⟨hvalid', hdata⟩ := ProbeStream.offered_stable
      (⟨(path t).probeFrameAdapter, [(path t).word.bits]⟩ : Feed width)
      (c := clock path t) hvalid hready
    have hadapter : (Feed.step ⟨(path t).probeFrameAdapter, [(path t).word.bits]⟩
        (clock path t)).adapter = (path (t + 1)).probeFrameAdapter := (h.adapter_succ t).symm
    rw [hadapter] at hvalid' hdata
    rw [← hoffer, hvalid', hdata, hvalid]

theorem nextByte_eq_none {state : ProbeStream.State} {o : Offer 8} :
    nextByte state o = none ↔ state ≠ .endOfFrame ∧ o.valid = false := by
  cases state <;> cases hvalid : o.valid <;> simp [nextByte, hvalid]

theorem byte_eq_none {p : ProbePath config width B} :
    p.byte = none ↔ p.probeFrameAdapter.outValid = false := by
  cases hvalid : p.probeFrameAdapter.outValid <;> simp [ProbePath.byte, hvalid]

/-- What the adapter would load into its free register is on offer in the next clock. -/
theorem Runs.loads (h : Runs path txBits input) {t : ℕ} (hfree : (path t).byte = none)
    (hload : nextByte (path t).probeFrameAdapter.state
      ((path t).probeFrameAdapter.widthConverter.out (path t).word) ≠ none) :
    (path (t + 1)).byte ≠ none := by
  obtain ⟨⟨byte, state⟩, hnext⟩ := Option.ne_none_iff_exists'.mp hload
  have hempty : (path t).probeFrameAdapter.free (path t).probeUartTx.inReady = true := by
    rw [ProbeFrameAdapter.free, byte_eq_none.mp hfree]
    rfl
  rw [ne_eq, byte_eq_none, h.adapter_succ, adapter_step, hnext, hempty]
  exact Bool.noConfusion

/-- Otherwise only the converter goes on. -/
theorem Runs.waits (h : Runs path txBits input) {t : ℕ} (hfree : (path t).byte = none)
    (hwait : nextByte (path t).probeFrameAdapter.state
      ((path t).probeFrameAdapter.widthConverter.out (path t).word) = none) :
    (path (t + 1)).byte = none ∧ (path (t + 1)).probeFrameAdapter.widthConverter =
      (path t).probeFrameAdapter.widthConverter.step (path t).word
        ((path t).probeFrameAdapter.converterReady (path t).probeUartTx.inReady) := by
  rw [byte_eq_none, h.adapter_succ, adapter_step, hwait, byte_eq_none.mp hfree]
  exact ⟨rfl, rfl⟩

/-- A loaded converter brings a byte. -/
theorem Runs.advances (h : Runs path txBits input) {t : ℕ} (hn : numberOfPhases width ≠ 1)
    (hphase : 0 < (path t).probeFrameAdapter.widthConverter.phaseCounter)
    (hfree : (path t).byte = none)
    (hwait : nextByte (path t).probeFrameAdapter.state
      ((path t).probeFrameAdapter.widthConverter.out (path t).word) = none) :
    (path (t + 2)).byte ≠ none := by
  have hout : (path t).probeFrameAdapter.widthConverter.outValid = false := by
    have hvalid := (nextByte_eq_none.mp hwait).2
    rwa [ProbeOutWidthConverter.out, if_neg hn] at hvalid
  obtain ⟨hfree', hconverter⟩ := h.waits hfree hwait
  refine h.loads hfree' fun hnone => ?_
  have hvalid := (nextByte_eq_none.mp hnone).2
  rw [ProbeOutWidthConverter.out, if_neg hn, hconverter] at hvalid
  simp [ProbeOutWidthConverter.step, hn, hphase, hout] at hvalid

theorem Runs.offers_soon (h : Runs path txBits input) (hw : 1 ≤ width) {t : ℕ}
    (hbusy : ¬ Idle (path t).probeFrameAdapter ∨ (path t).word.valid = true) :
    ∃ d ≤ 3, (path (t + d)).byte ≠ none := by
  by_cases hfree : (path t).byte = none
  · by_cases hwait : nextByte (path t).probeFrameAdapter.state
        ((path t).probeFrameAdapter.widthConverter.out (path t).word) = none
    · obtain ⟨hstate, hvalid⟩ := nextByte_eq_none.mp hwait
      have hidle : Empty (path t).probeFrameAdapter.widthConverter →
          (path t).word.valid = true := by
        intro hempty
        exact hbusy.resolve_left (not_not.mpr ⟨byte_eq_none.mp hfree, hstate, hempty⟩)
      by_cases hn : numberOfPhases width = 1
      · rw [ProbeOutWidthConverter.out, if_pos hn] at hvalid
        exact absurd (hvalid.symm.trans (hidle (Or.inl hn))) Bool.false_ne_true
      · rcases Nat.eq_zero_or_pos (path t).probeFrameAdapter.widthConverter.phaseCounter with
          hzero | hphase
        · -- the word on offer is accepted now
          rw [ProbeOutWidthConverter.out, if_neg hn] at hvalid
          have hword := hidle (Or.inr ⟨hvalid, hzero⟩)
          obtain ⟨hfree', hconverter⟩ := h.waits hfree hwait
          by_cases hwait' : nextByte (path (t + 1)).probeFrameAdapter.state
              ((path (t + 1)).probeFrameAdapter.widthConverter.out (path (t + 1)).word) = none
          · refine ⟨3, Nat.le_refl 3, h.advances hn ?_ hfree' hwait'⟩
            rw [hconverter]
            simp only [ProbeOutWidthConverter.step, if_neg hn, hzero, hword]
            simp [numberOfPhases]
            omega
          · exact ⟨2, by decide, h.loads hfree' hwait'⟩
        · exact ⟨2, by decide, h.advances hn hphase hfree hwait⟩
    · exact ⟨1, by decide, h.loads hfree hwait⟩
  · exact ⟨0, Nat.zero_le _, hfree⟩

/-- While the adapter is busy a byte is taken in every `10 * B + 4` clocks. -/
theorem Runs.takes (h : Runs path txBits input) (hw : 1 ≤ width) (hB : 0 < B) {t : ℕ}
    (hbusy : ¬ Idle (path t).probeFrameAdapter ∨ (path t).word.valid = true) :
    ∃ u, t ≤ u ∧ u < t + (10 * B + 4) ∧ ((bytes path).transfer u).isSome := by
  obtain ⟨d, hd, hoffer⟩ := h.offers_soon hw hbusy
  obtain ⟨x, hx⟩ := Option.ne_none_iff_exists'.mp hoffer
  obtain ⟨d', hd', hready⟩ := h.drives.ready_again hB (by decide) (t + d)
  obtain ⟨u, hu, hu', htransfer⟩ :=
    h.bytes_stable.taken (t := t + d) (d := d') hx hready
  exact ⟨u, by omega, by omega, Option.isSome_iff_exists.mpr ⟨x, htransfer⟩⟩

/-! ## The frame behind a trigger -/

theorem take_offered {α : Type*} {l : List α} {n : ℕ} {x : α} (hx : l[n]? = some x) :
    l.take n ++ [x] <+: l := by
  have hnext : l.take n ++ [x] = l.take (n + 1) := by
    rw [List.take_add_one, hx]
    rfl
  exact hnext ▸ List.take_prefix _ _

/-- The trigger has come: from here on the capture keeps its start. -/
theorem capture_holding (hdepth : 2 ≤ config.bufferDepth)
    (hpos : config.triggerPosition < config.bufferDepth) {stim : ℕ → ProbeCapture.Inputs width}
    {t : ℕ} (htriggered : (probeAt config stim t).triggered (stim t) = true) :
    ∃ start, start + (probeAt config stim t).buffer.entries.length = t ∧
      t < start + config.bufferDepth ∧
      wordsAt config stim t =
        (captureStarts config stim t).flatMap (window stim config.bufferDepth) ∧
      Holding config stim start t (t + 1) := by
  obtain ⟨starts, start, sent, hphase, hwords, -, hall⟩ := run_captureStarts hdepth hpos stim t
  obtain ⟨hstate, htrigger⟩ : (probeAt config stim t).state = .awaitingTrigger ∧ _ := by
    simpa [Probe.triggered] using htriggered
  obtain ⟨hfill, hnext⟩ := awaitingTrigger_triggered hstate hphase (by simpa using htrigger)
  rw [collecting, hstate] at hall
  simp only [Phase, hstate] at hphase
  obtain ⟨rfl, hfilling, hroom⟩ := hphase
  have hle := hfilling.start_le
  have hstarts : captureStarts config stim t = starts := hall
  rw [List.take_zero, List.append_nil] at hwords
  refine ⟨start, ?_, by omega, ?_, 0, hnext, Or.inl hfill, ?_⟩
  · rw [hfilling.entries, samples_length]
    omega
  · rw [hstarts, hwords]
  · rw [wordsAt_succ, hfilling.silent, List.take_zero]

section
variable (hdepth : 2 ≤ config.bufferDepth) {start t u : ℕ}
include hdepth

/-- Up to its end a frame is the list of what has been shown. -/
theorem Runs.shown_or_sent (h : Runs path txBits input) (hu : t + 1 ≤ u)
    (hholding : Holding config (stimulus path input) start t (t + 1)) :
    (words path).shown u <+: wordsAt config (stimulus path input) t ++
        window (stimulus path input) config.bufferDepth start ∨
      Sent config (stimulus path input) start t u := by
  rcases holding_words hdepth hu hholding with ⟨sent, hphase, hstate, hwords⟩ | hsent
  · refine Or.inl ?_
    rw [← h.probe] at hphase hstate
    have hword : (words path).offer u = if (path u).probe.outValid then
      some ⟨(path u).probe.outData, (path u).probe.outLast⟩ else none := rfl
    rw [Handshake.shown, h.transferred, hwords, hword, List.append_assoc,
      List.prefix_append_right_inj]
    cases hvalid : (path u).probe.outValid with
    | false => simpa using List.take_prefix _ _
    | true =>
      rcases hstate with hstate | hstate
      · simp only [Phase, hstate] at hphase
        exact absurd (hphase.2.idle.symm.trans hvalid) Bool.false_ne_true
      · simp only [Phase, hstate] at hphase
        exact take_offered (hphase.offered hstate hvalid).1
  · exact Or.inr hsent

omit hdepth in
/-- An idle adapter has had everything transferred that it was given. -/
theorem Runs.idle_transferred (h : Runs path txBits input) (hstable : (words path).Stable)
    (hidle : Idle (path u).probeFrameAdapter) (hvalid : (path u).word.valid = false) :
    (bytes path).transferred u = encodeWords ((words path).transferred u) := by
  obtain ⟨hfree, hstate, hempty⟩ := hidle
  have hshown : (words path).shown u = (words path).transferred u := by
    rw [Handshake.shown, words_offer, hvalid]
    simp
  have hheld : (path u).probeFrameAdapter.widthConverter.held = [] := by
    unfold ProbeOutWidthConverter.held
    rcases hempty with hn | ⟨hout, hphase⟩
    · exact if_pos hn
    · simp [hout, hphase, phases]
  have htodo : (feed path ((words path).transferred u) u).todo = [] := by
    have hrest : (words path).rest ((words path).transferred u) u = [] := by
      simp [Handshake.rest]
    unfold Feed.todo Feed.queued feed
    rw [hrest, hheld, ProbeFrameAdapter.pending, hfree]
    cases hs : (path u).probeFrameAdapter.state with
    | idle => rfl
    | inFrame => rfl
    | endOfFrame => exact absurd hs hstate
  have hall := h.transferred_todo hstable (List.prefix_refl ((words path).shown u))
  rwa [hshown, htodo, List.append_nil] at hall

/-- From the end of its capture on a frame keeps the adapter busy. -/
theorem Runs.frame_takes (h : Runs path txBits input) (hstable : (words path).Stable)
    (hw : 1 ≤ width) (hB : 0 < B) (hu : start + config.bufferDepth + 1 ≤ u) (htu : t + 1 ≤ u)
    (hholding : Holding config (stimulus path input) start t (t + 1))
    (hshort : ((bytes path).transferred u).length <
      (encodeWords (wordsAt config (stimulus path input) t ++
        window (stimulus path input) config.bufferDepth start)).length) :
    ∃ w, u ≤ w ∧ w < u + (10 * B + 5) ∧ ((bytes path).transfer w).isSome := by
  by_cases hbusy : ¬ Idle (path u).probeFrameAdapter ∨ (path u).word.valid = true
  · obtain ⟨w, hw, hw', htaken⟩ := h.takes hw hB hbusy
    exact ⟨w, hw, by omega, htaken⟩
  · simp only [not_or, not_not, Bool.not_eq_true] at hbusy
    obtain ⟨hidle, hvalid⟩ := hbusy
    rcases holding_words hdepth htu hholding with ⟨sent, hphase, hstate, -⟩ | hsent
    · rw [← h.probe] at hphase hstate
      rcases hstate with hstate | hstate
      · simp only [Phase, hstate] at hphase
        have hroom := hphase.2.room
        omega
      · -- the first word is loaded now
        simp only [Phase, hstate] at hphase
        have hnext : (path (u + 1)).word.valid = true := by
          show (path (u + 1)).probe.outValid = true
          rw [h.step]
          have hidle : (path u).probe.outValid = false := hvalid
          cases first_loads hstate hidle hphase with
          | goes sent' hstate' hvalid' => exact hvalid'
          | ends hcomplete hnext hfront =>
            rw [hphase.first hidle, Probe.emit, hidle] at hfront
            have hempty := congrArg List.length hfront
            simp [window] at hempty
            omega
        obtain ⟨w, hw, hw', htaken⟩ := h.takes hw hB (Or.inr hnext)
        exact ⟨w, by omega, by omega, htaken⟩
    · have hall := encodeWords_mono hsent
      rw [← h.transferred u, ← h.idle_transferred hstable hidle hvalid] at hall
      have hlength := hall.length_le
      omega

/-- In the end all bytes of the frame have been transferred. -/
theorem Runs.frame_transferred (h : Runs path txBits input) (hstable : (words path).Stable)
    (hw : 1 ≤ width) (hB : 0 < B) (hu : start + config.bufferDepth + 1 ≤ u) (htu : t + 1 ≤ u)
    (hholding : Holding config (stimulus path input) start t (t + 1)) {left : ℕ}
    (hleft : (encodeWords (wordsAt config (stimulus path input) t ++
        window (stimulus path input) config.bufferDepth start)).length ≤
      ((bytes path).transferred u).length + left) :
    encodeWords (wordsAt config (stimulus path input) t ++
        window (stimulus path input) config.bufferDepth start) <+:
      (bytes path).transferred (u + (10 * B + 5) * left) := by
  have hlength := Handshake.length_reaches (h := bytes path)
    (fun v hv hshort => h.frame_takes hdepth hstable hw hB (by omega) (by omega) hholding hshort)
    hleft
  generalize hv : u + (10 * B + 5) * left = v at hlength ⊢
  have htv : t + 1 ≤ v := by omega
  rcases h.shown_or_sent hdepth htv hholding with hshown | hsent
  · have hall := h.transferred_todo hstable hshown
    have hfront : (bytes path).transferred v <+: _ := ⟨_, hall⟩
    rw [hfront.eq_of_length_le hlength]
  · have hall := h.transferred_todo hstable (List.prefix_refl ((words path).shown v))
    rw [Sent, ← h.transferred v] at hsent
    exact List.prefix_of_prefix_length_le
      (encodeWords_mono (hsent.trans (Handshake.transferred_shown v))) ⟨_, hall⟩ hlength

end

/-! ## The line and the host -/

/-- The samples of a window. -/
def capture (input : ℕ → Inputs width) (depth start : ℕ) : List (BitVec width) :=
  (List.range depth).map fun i => (input (start + i)).in_

/-- What a receiver at the other end of the line has given away before clock `t`. -/
def received (path : ℕ → ProbePath config width B) (S : ℕ) (rxBits outBits : U8) : ℕ → List U8 :=
  heard (farEnd (fun t => (path t).probeUartTx) rxBits outBits : ℕ → UartReceiver.UartRx 8 B S)

/-- Every byte the transmitter takes is given away later, and nothing else. -/
theorem Runs.received (h : Runs path txBits input) (hB : 2 ≤ B) {S : ℕ} (hS : 1 ≤ S)
    (rxBits outBits : U8) (t : ℕ) :
    received path S rxBits outBits t = (bytes path).transferred (t - latency 8 B S) :=
  h.drives.heard hB hS (by decide) (by decide) rxBits outBits t

theorem outputs_range (n : ℕ) (f : ℕ → BitVec width) :
    outputs ((List.range n).map f) =
      (List.range n).map fun i => ⟨f i, decide (i + 1 = n)⟩ := by
  induction n generalizing f with
  | zero => rfl
  | succ n ih =>
    rw [List.range_succ_eq_map, List.map_cons, List.map_map]
    cases n with
    | zero => rfl
    | succ n =>
      have hrest := ih (f ∘ Nat.succ)
      rw [List.range_succ_eq_map, List.map_cons] at hrest ⊢
      rw [outputs, hrest]
      · simp [eq_comm]
      · exact List.cons_ne_nil _ _

theorem window_outputs (depth start : ℕ) :
    window (stimulus path input) depth start = outputs (capture input depth start) :=
  (outputs_range depth fun i => (input (start + i)).in_).symm

theorem capture_ne_nil {depth : ℕ} (hdepth : 0 < depth) (start : ℕ) :
    capture input depth start ≠ [] := by
  apply List.ne_nil_of_length_pos
  simpa [capture] using hdepth

theorem encodeWords_windows (hw : 1 ≤ width) {depth : ℕ} (hdepth : 0 < depth) (starts : List ℕ) :
    encodeWords (starts.flatMap (window (stimulus path input) depth)) =
      (starts.map (capture input depth)).flatMap encodeFrame := by
  have hframes : ∀ frame ∈ starts.map (capture input depth), frame ≠ [] := by
    intro frame hframe
    obtain ⟨start, -, rfl⟩ := List.mem_map.mp hframe
    exact capture_ne_nil hdepth start
  have hwindows : window (stimulus path input) depth =
      fun start => outputs (capture input depth start) := funext (window_outputs depth)
  rw [← opening_frames hw hframes, encodeWords, List.flatMap_map, hwindows]

/-- The samples behind the words of a window. -/
theorem samples_window (depth : ℕ) :
    List.map ProbeOutput.data ∘ window (stimulus path input) depth = capture input depth := by
  funext start
  simp [window, capture, stimulus, ProbePath.probeInputs]

theorem encoded_length (depth : ℕ) (starts : List ℕ) :
    ((starts.map (capture input depth)).flatMap encodeFrame).length =
      starts.length * (depth * numberOfPhases width + 2) := by
  have hseptets : ∀ x : BitVec width, (septets x).length = numberOfPhases width := by
    intro x
    simp [septets]
  have hframe : ∀ start, (encodeFrame (capture input depth start)).length =
      depth * numberOfPhases width + 2 := by
    intro start
    simp [encodeFrame, List.length_flatMap, hseptets, capture, Function.comp_def]
  simp [List.length_flatMap, Function.comp_def, hframe]

/-- Lists of windows are compared window by window. -/
theorem map_prefix_of_flatMap {α β : Type*} {f : α → List β} {n : ℕ} (hn : 0 < n)
    (hf : ∀ x, (f x).length = n) {xs ys : List α} (h : xs.flatMap f <+: ys.flatMap f) :
    xs.map f <+: ys.map f := by
  induction xs generalizing ys with
  | nil => exact List.nil_prefix
  | cons x xs ih =>
    cases ys with
    | nil =>
      have hlength := h.length_le
      simp [hf] at hlength
      omega
    | cons y ys =>
      rw [List.flatMap_cons, List.flatMap_cons] at h
      have hfirst : f x = f y := by
        obtain ⟨more, hmore⟩ := h
        rw [List.append_assoc] at hmore
        exact (List.append_inj hmore (by rw [hf, hf])).1
      rw [hfirst, List.prefix_append_right_inj] at h
      exact List.cons_prefix_cons.mpr ⟨hfirst, ih h⟩

/-- Of frames of which some have arrived the host writes these, and maybe some more. -/
theorem host_rows {signals : List Signal} (hs : signals ≠ []) (withIndex : Bool)
    {complete later : List (List (BitVec (totalBits signals)))}
    (hfit : ∀ frame ∈ complete ++ later, SumsFit signals frame.length)
    {chunks : List (List U8)} {rest : List U8}
    (h : chunks.flatten = complete.flatMap encodeFrame ++ rest)
    (hrest : rest <+: later.flatMap encodeFrame) :
    ∃ k, hostRecords signals withIndex chunks =
      some ((complete ++ later.take k).map (records signals withIndex)) := by
  have hscan : ∀ frames : List (List (BitVec (totalBits signals))),
      scanner.run .outside (frames.flatMap encodeFrame) = .outside ∧
      scanner.output .outside (frames.flatMap encodeFrame) =
        frames.map fun frame => frame.flatMap septets := by
    intro frames
    induction frames with
    | nil => exact ⟨rfl, rfl⟩
    | cons frame frames ih =>
      have hframe : encodeFrame frame = framing (frame.flatMap septets) := rfl
      obtain ⟨hrun, hout⟩ := scan_framing (endOfFrame_notMem_septets frame)
      rw [List.flatMap_cons, hframe, Transducer.run_append, Transducer.output_append, hrun, hout,
        ih.1, ih.2]
      exact ⟨rfl, rfl⟩
  obtain ⟨src, hframed, -⟩ := framed_scan (.outside List.not_mem_nil) chunks
  have hmore := scanner.output_mono .outside hrest
  rw [(hscan later).2, List.prefix_iff_eq_take] at hmore
  rw [h, Transducer.output_append, (hscan complete).1, (hscan complete).2, hmore, ← List.map_take,
    ← List.map_append] at hframed
  refine ⟨(scanner.output .outside rest).length, ?_⟩
  have hpart : ∀ frame ∈ complete ++ later.take (scanner.output .outside rest).length,
      SumsFit signals frame.length := by
    intro frame hframe
    apply hfit
    rcases List.mem_append.mp hframe with hmem | hmem
    · exact List.mem_append_left _ hmem
    · exact List.mem_append_right _ (List.mem_of_mem_take hmem)
  simp only [hostRecords, hframed, Option.bind_eq_bind, Option.bind_some, List.mapM_map]
  exact mapM_records hs withIndex hpart

/-! ## The trigger -/

/-- Without a write the counter goes on counting. -/
theorem Runs.counter (h : Runs path txBits input) {a d : ℕ}
    (hquiet : ∀ t, a ≤ t → t < a + d → (input t).gpioWen = false) :
    (path (a + d)).noActivityCounter = (path a).noActivityCounter + BitVec.ofNat _ d := by
  induction d with
  | zero => simp
  | succ d ih =>
    have hlast := hquiet (a + d) (Nat.le_add_right a d) (by omega)
    have hstep : (path (a + d + 1)).noActivityCounter = (path (a + d)).noActivityCounter + 1 := by
      rw [h.step, ProbePath.step, hlast]
      rfl
    rw [← Nat.add_assoc, hstep, ih fun t ht ht' => hquiet t ht (by omega), BitVec.ofNat_add,
      BitVec.add_assoc]
    rfl

/-- The switch, or no write for a full turn of the counter. -/
def Cause (input : ℕ → Inputs width) (a : ℕ) : Prop :=
  (∃ t, a ≤ t ∧ t < a + 256 ∧ (input t).switchIn.getLsbD 0 = false) ∨
    ∀ t, a ≤ t → t < a + 255 → (input t).gpioWen = false

theorem Runs.trigger (h : Runs path txBits input) {a : ℕ} (hcause : Cause input a) :
    ∃ d < 256, (path (a + d)).trigger (input (a + d)) = true := by
  rcases hcause with ⟨t, ht, ht', hswitch⟩ | hquiet
  · obtain ⟨d, rfl⟩ := Nat.exists_eq_add_of_le ht
    refine ⟨d, by omega, ?_⟩
    rw [ProbePath.trigger, hswitch, Bool.not_false, Bool.or_true]
  · have hlt : (path a).noActivityCounter.toNat < 256 := (path a).noActivityCounter.isLt
    refine ⟨255 - (path a).noActivityCounter.toNat, by omega, ?_⟩
    have hcount := h.counter (d := 255 - (path a).noActivityCounter.toNat)
      fun t ht ht' => hquiet t ht (by omega)
    have hfull : (path (a + (255 - (path a).noActivityCounter.toNat))).noActivityCounter = 255 := by
      apply BitVec.eq_of_toNat_eq
      rw [hcount, BitVec.toNat_add, BitVec.toNat_ofNat]
      have hwidth : 2 ^ Nat.clog 2 256 = 256 := by decide
      simp only [hwidth]
      show _ = 255
      omega
    rw [ProbePath.trigger, hfull]
    rfl

/-- A probe that waits stays so until the trigger comes. -/
theorem Runs.triggered (h : Runs path txBits input) {a d : ℕ}
    (hstate : (path a).probe.state = .awaitingTrigger)
    (htrigger : (path (a + d)).trigger (input (a + d)) = true) :
    ∃ t, a ≤ t ∧ t ≤ a + d ∧ (path t).probe.triggered (stimulus path input t) = true := by
  induction d generalizing a with
  | zero =>
    refine ⟨a, Nat.le_refl a, Nat.le_refl a, ?_⟩
    have hnow : (stimulus path input a).trigger = true := htrigger
    rw [Probe.triggered, hstate, hnow]
    rfl
  | succ d ih =>
    cases hnow : (stimulus path input a).trigger || (path a).probe.hasTriggered with
    | true =>
      refine ⟨a, Nat.le_refl a, by omega, ?_⟩
      rw [Probe.triggered, hstate, hnow]
      rfl
    | false =>
      have hnext : (path (a + 1)).probe.state = .awaitingTrigger := by
        rw [h.step]
        show (path a).probe.nextState (stimulus path input a) = _
        rw [Probe.nextState, hstate]
        simp only [hnow]
        rfl
      have hclock : a + 1 + d = a + (d + 1) := by omega
      obtain ⟨t, ht, ht', htriggered⟩ := ih hnext (hclock ▸ htrigger)
      exact ⟨t, by omega, by omega, htriggered⟩

end

section
variable {signals : List Signal} {config : ProbeConfig} {B : ℕ}
  {path : ℕ → ProbePath config (totalBits signals) B} {txBits : BitVec 10}
  {input : ℕ → Inputs (totalBits signals)}

theorem capture_length (depth start : ℕ) : (capture input depth start).length = depth := by
  simp [capture]

theorem capture_lengths (depth : ℕ) (starts : List ℕ) :
    ∀ frame ∈ starts.map (capture input depth), frame.length = depth := by
  intro frame hframe
  obtain ⟨start, -, rfl⟩ := List.mem_map.mp hframe
  exact capture_length depth start

/-- Behind the frame of a window that has been sent come the frames of other windows. -/
theorem Runs.frames_follow (h : Runs path txBits input) (hw : 1 ≤ totalBits signals)
    (hdepth : 2 ≤ config.bufferDepth) (hpos : config.triggerPosition < config.bufferDepth)
    {starts : List ℕ} {start t u : ℕ} (hu : t + 1 ≤ u)
    (hall : wordsAt config (stimulus path input) t ++
      window (stimulus path input) config.bufferDepth start =
      (starts ++ [start]).flatMap (window (stimulus path input) config.bufferDepth))
    (hholding : Holding config (stimulus path input) start t (t + 1)) {rest : List U8}
    (hrest : ((starts ++ [start]).map (capture input config.bufferDepth)).flatMap encodeFrame ++
      rest = (bytes path).transferred u) :
    ∃ later : List (List (BitVec (totalBits signals))),
      (∀ frame ∈ later, frame.length = config.bufferDepth) ∧
        rest <+: later.flatMap encodeFrame := by
  have hstable := h.words_stable hdepth hpos
  rcases h.shown_or_sent hdepth hu hholding with hshown | hsent
  · -- only this window has been offered
    refine ⟨[], fun frame hframe => absurd hframe List.not_mem_nil, ?_⟩
    have hbytes := h.transferred_todo hstable hshown
    rw [hall, encodeWords_windows hw (by omega), ← hrest, List.append_assoc] at hbytes
    have hnone := List.append_right_eq_self.mp hbytes
    rw [(List.append_eq_nil_iff.mp hnone).1]
    exact List.nil_prefix
  · obtain ⟨k, -, hshown⟩ := h.shown hdepth hpos u
    rw [Sent, hall, ← h.transferred u] at hsent
    have hwindows := map_prefix_of_flatMap (by omega : 0 < config.bufferDepth)
      (fun start => by simp [window]) (hsent.trans ((Handshake.transferred_shown u).trans hshown))
    have hcaptures := hwindows.map (List.map ProbeOutput.data)
    rw [List.map_map, List.map_map, samples_window] at hcaptures
    obtain ⟨later, hmore⟩ := hcaptures
    have hbytes := h.transferred_todo hstable hshown
    rw [encodeWords_windows hw (by omega), ← hmore, List.flatMap_append, ← hrest,
      List.append_assoc, List.append_cancel_left_eq] at hbytes
    refine ⟨later, fun frame hframe => ?_, _, hbytes⟩
    exact capture_lengths _ _ frame (hmore ▸ List.mem_append_right _ hframe)

/-- Once the bytes of a frame have been transferred, its rows are the next ones. -/
theorem Runs.rows_follow (h : Runs path txBits input) (hs : signals ≠ []) (withIndex : Bool)
    (hfit : SumsFit signals config.bufferDepth)
    (hdepth : 2 ≤ config.bufferDepth) (hpos : config.triggerPosition < config.bufferDepth)
    {starts : List ℕ} {start t u : ℕ} (hu : t + 1 ≤ u)
    (hwords : wordsAt config (stimulus path input) t =
      starts.flatMap (window (stimulus path input) config.bufferDepth))
    (hholding : Holding config (stimulus path input) start t (t + 1))
    (hsent : encodeWords (wordsAt config (stimulus path input) t ++
        window (stimulus path input) config.bufferDepth start) <+: (bytes path).transferred u)
    {chunks : List (List U8)} (hchunks : chunks.flatten = (bytes path).transferred u) :
    ∃ rows, hostRecords signals withIndex chunks = some rows ∧
      rows[starts.length]? =
        some (records signals withIndex (capture input config.bufferDepth start)) := by
  have hw : 1 ≤ totalBits signals := totalBits_pos hs
  have hall : wordsAt config (stimulus path input) t ++
      window (stimulus path input) config.bufferDepth start =
      (starts ++ [start]).flatMap (window (stimulus path input) config.bufferDepth) := by
    rw [hwords, List.flatMap_append, List.flatMap_singleton]
  obtain ⟨rest, hrest⟩ := hsent
  rw [hall, encodeWords_windows hw (by omega)] at hrest
  obtain ⟨later, hlength, hlater⟩ := h.frames_follow hw hdepth hpos hu hall hholding hrest
  have hfits : ∀ frame ∈ (starts ++ [start]).map (capture input config.bufferDepth) ++ later,
      SumsFit signals frame.length := by
    intro frame hframe
    rcases List.mem_append.mp hframe with hmem | hmem
    · rw [capture_lengths _ _ frame hmem]
      exact hfit
    · rw [hlength frame hmem]
      exact hfit
  obtain ⟨k, hrows⟩ := host_rows hs withIndex hfits (hchunks.trans hrest.symm) hlater
  refine ⟨_, hrows, ?_⟩
  simp

/-- The rows of a capture come behind those of the captures before it, as soon as the bytes still
due at its end have been sent. -/
theorem rows_of_triggered (h : Runs path txBits input) (hs : signals ≠ []) (withIndex : Bool)
    (hfit : SumsFit signals config.bufferDepth)
    (hdepth : 2 ≤ config.bufferDepth) (hpos : config.triggerPosition < config.bufferDepth)
    {S : ℕ} (hB : 2 ≤ B) (hS : 1 ≤ S) (rxBits outBits : U8) {starts : List ℕ} {start t : ℕ}
    (hroom : t < start + config.bufferDepth)
    (hwords : wordsAt config (stimulus path input) t =
      starts.flatMap (window (stimulus path input) config.bufferDepth))
    (hholding : Holding config (stimulus path input) start t (t + 1)) {v : ℕ}
    (hv : start + config.bufferDepth + 1 + (10 * B + 5) *
        ((starts.length + 1) * (config.bufferDepth * numberOfPhases (totalBits signals) + 2) -
          ((bytes path).transferred (start + config.bufferDepth + 1)).length) +
        latency 8 B S ≤ v)
    {chunks : List (List U8)} (hchunks : chunks.flatten = received path S rxBits outBits v) :
    ∃ rows, hostRecords signals withIndex chunks = some rows ∧
      rows[starts.length]? =
        some (records signals withIndex (capture input config.bufferDepth start)) := by
  have hw : 1 ≤ totalBits signals := totalBits_pos hs
  have hframes : (encodeWords (wordsAt config (stimulus path input) t ++
      window (stimulus path input) config.bufferDepth start)).length = (starts.length + 1) *
        (config.bufferDepth * numberOfPhases (totalBits signals) + 2) := by
    rw [hwords, ← List.flatMap_singleton (window _ _), ← List.flatMap_append,
      encodeWords_windows hw (by omega), encoded_length, List.length_append]
    rfl
  rw [h.received hB hS] at hchunks
  generalize hu : v - latency 8 B S = u at hchunks
  have hsent := h.frame_transferred hdepth (h.words_stable hdepth hpos) hw (by omega)
    (Nat.le_refl _) (by omega) hholding (Nat.sub_le_iff_le_add'.mp (Nat.le_refl _))
  rw [hframes] at hsent
  exact h.rows_follow hs withIndex hfit hdepth hpos (by omega) hwords hholding
    (hsent.trans (Handshake.transferred_mono (by omega))) hchunks

end

/-- **The host's rows are the captures.** In every run of the chain, for every input and in
whatever chunks the received bytes are read, the host writes the rows of the first captures of
the probe, in order and each with all its samples, which are those of consecutive clocks; and
no capture stays away for longer than its bytes and those before them take. -/
theorem rows_captured {signals : List Signal} (hs : signals ≠ []) (withIndex : Bool)
    {config : ProbeConfig} (hfit : SumsFit signals config.bufferDepth)
    (hdepth : 2 ≤ config.bufferDepth) (hpos : config.triggerPosition < config.bufferDepth)
    {B S : ℕ} (hB : 2 ≤ B) (hS : 1 ≤ S)
    {path : ℕ → ProbePath config (totalBits signals) B} {txBits : BitVec 10}
    {input : ℕ → Inputs (totalBits signals)} (h : Runs path txBits input) (rxBits outBits : U8)
    (t : ℕ) {chunks : List (List U8)}
    (hchunks : chunks.flatten = received path S rxBits outBits t) :
    let starts := captureStarts config (stimulus path input) t
    ∃ k ≤ starts.length,
      hostRecords signals withIndex chunks = some ((starts.take k).map fun start =>
        records signals withIndex (capture input config.bufferDepth start)) ∧
      Apart config.bufferDepth starts ∧
      (∀ start ∈ starts.take k, start + config.bufferDepth ≤ t) ∧
      ∀ n start, starts[n]? = some start →
        start + config.bufferDepth + 1 + (10 * B + 5) *
            ((n + 1) * (config.bufferDepth * numberOfPhases (totalBits signals) + 2)) +
          latency 8 B S ≤ t → n < k := by
  intro starts
  have hw : 1 ≤ totalBits signals := totalBits_pos hs
  have hbytes := hchunks
  rw [h.received hB hS] at hbytes
  generalize hu : t - latency 8 B S = u at hbytes
  obtain ⟨shown, hends, hshown⟩ := h.shown hdepth hpos u
  have htodo := h.transferred_todo (h.words_stable hdepth hpos) hshown
  rw [encodeWords_windows hw (by omega)] at htodo
  have hnone : chunks.flatten = ([] : List (List (BitVec (totalBits signals)))).flatMap
    encodeFrame ++ (bytes path).transferred u := hbytes
  have hfits : ∀ frame ∈ [] ++ ((captureStarts config (stimulus path input) u).take shown).map
      (capture input config.bufferDepth), SumsFit signals frame.length := by
    intro frame hframe
    rw [capture_lengths _ _ frame hframe]
    exact hfit
  obtain ⟨k, hrows⟩ := host_rows hs withIndex hfits hnone ⟨_, htodo⟩
  -- the captures known at the far end are the first ones of those known here
  obtain ⟨more, hmore⟩ : captureStarts config (stimulus path input) u <+: starts :=
    captureStarts_mono (by omega)
  obtain ⟨count, hcount, hle⟩ : ∃ count, ((captureStarts config (stimulus path input) u).take
      shown).take k = starts.take count ∧ count ≤ starts.length := by
    refine ⟨min (min k shown) (captureStarts config (stimulus path input) u).length, ?_, ?_⟩
    · rw [← hmore, List.take_take, List.take_append_of_le_length (Nat.min_le_right _ _),
        List.take_eq_take_iff]
      omega
    · rw [← hmore, List.length_append]
      omega
  rw [List.nil_append, ← List.map_take, hcount, List.map_map] at hrows
  refine ⟨count, hle, hrows, captureStarts_apart hdepth hpos t, ?_, ?_⟩
  · intro start hstart
    rw [← hcount] at hstart
    have hend := hends start (List.mem_of_mem_take hstart)
    omega
  · intro n start hstart hlate
    obtain ⟨s, -, htriggered, hlength, hplace⟩ := captureStarts_getElem? hstart
    obtain ⟨start', hstart', hroom, hwords, hholding⟩ := capture_holding hdepth hpos htriggered
    obtain rfl : start = start' := by omega
    have hsub := Nat.mul_le_mul_left (10 * B + 5) (Nat.sub_le ((n + 1) *
      (config.bufferDepth * numberOfPhases (totalBits signals) + 2))
      ((bytes path).transferred (start + config.bufferDepth + 1)).length)
    obtain ⟨rows, hall, hrow⟩ := rows_of_triggered h hs withIndex hfit hdepth hpos hB hS rxBits
      outBits hroom hwords hholding (by rw [hlength]; omega) hchunks
    rw [hrows, Option.some.injEq] at hall
    rw [hlength, ← hall] at hrow
    have hlt := (List.getElem?_eq_some_iff.mp hrow).1
    rw [List.length_map, List.length_take] at hlt
    omega

/-- One signal of eight bits. -/
def data : List Signal := [⟨"data", 8, by decide, by decide⟩]

/-- The samples count the clocks, nothing is written and the switch is off. -/
def quiet (t : ℕ) : Inputs (totalBits data) := ⟨.ofNat _ t, false, 1, 0⟩

def quietPath : ℕ → ProbePath fourDeep (totalBits data) 2 :=
  (ProbePath.machine fourDeep _ 2).run (.init fourDeep _ 0) quiet

/-- The first capture of the quiet run is triggered by the counter. -/
theorem quiet_captured : ∃ start < 259,
    (captureStarts fourDeep (stimulus quietPath quiet) 600)[0]? = some start := by
  have h : Runs quietPath 0 quiet := runs_run fourDeep 2 0 quiet
  obtain ⟨d, hd, htrigger⟩ := h.trigger (a := 3) (Or.inr fun _ _ _ => rfl)
  obtain ⟨t, -, ht, htriggered⟩ := h.triggered (by decide) htrigger
  rw [h.probe] at htriggered
  have hsome : 0 < (captureStarts fourDeep (stimulus quietPath quiet) (t + 1)).length := by
    rw [captureStarts, htriggered, List.length_append]
    exact Nat.succ_pos _
  have hfirst := List.getElem?_eq_getElem hsome
  obtain ⟨s, hs, -, -, hplace⟩ := captureStarts_getElem? hfirst
  obtain ⟨more, hmore⟩ : captureStarts fourDeep (stimulus quietPath quiet) (t + 1) <+:
    captureStarts fourDeep (stimulus quietPath quiet) 600 := captureStarts_mono (by omega)
  refine ⟨(captureStarts fourDeep (stimulus quietPath quiet) (t + 1))[0], by omega, ?_⟩
  rw [← hmore, List.getElem?_append_left hsome]
  exact hfirst

theorem rows_captured_quiet : ∃ k, 0 < k ∧
    hostRecords data true [received quietPath 1 0 0 600] =
      some (((captureStarts fourDeep (stimulus quietPath quiet) 600).take k).map fun start =>
        records data true (capture quiet 4 start)) ∧
      k ≤ (captureStarts fourDeep (stimulus quietPath quiet) 600).length := by
  have hall : [received quietPath 1 0 0 600].flatten = received quietPath 1 0 0 600 :=
    List.flatten_singleton
  obtain ⟨start, hlt, hstart⟩ := quiet_captured
  obtain ⟨k, hk, hrows, -, -, hlate⟩ := rows_captured (by decide : data ≠ []) true
    (by decide : SumsFit data fourDeep.bufferDepth) (by decide) (by decide) (Nat.le_refl 2)
    (Nat.le_refl 1) (runs_run fourDeep 2 0 quiet) 0 0 600 hall
  refine ⟨k, hlate 0 start hstart ?_, hrows, hk⟩
  have hbound : start + 4 + 1 + (10 * 2 + 5) * ((0 + 1) * (4 * 2 + 2)) + latency 8 2 1 ≤ 600 := by
    have hlatency : latency 8 2 1 ≤ 80 := by decide
    omega
  exact hbound

/-- **A trigger gets through.** If a waiting probe sees the switch or 256 clocks without a write to
the ports, the samples around that time are rows on the host, behind those of the frames before
and with the trigger's clock at its position, as soon as the bytes still due have been sent. -/
theorem trigger_rows {signals : List Signal} (hs : signals ≠ []) (withIndex : Bool)
    {config : ProbeConfig} (hfit : SumsFit signals config.bufferDepth)
    (hdepth : 2 ≤ config.bufferDepth) (hpos : config.triggerPosition < config.bufferDepth)
    {B S : ℕ} (hB : 2 ≤ B) (hS : 1 ≤ S)
    {path : ℕ → ProbePath config (totalBits signals) B} {txBits : BitVec 10}
    {input : ℕ → Inputs (totalBits signals)} (h : Runs path txBits input) (rxBits outBits : U8)
    {a : ℕ} (hstate : (path a).probe.state = .awaitingTrigger) (hcause : Cause input a) :
    ∃ t start n, a ≤ t ∧ t < a + 256 ∧ start ≤ t ∧ t < start + config.bufferDepth ∧
      (0 < config.triggerPosition → start + config.triggerPosition = t) ∧
      ((words path).transferred t).length = n * config.bufferDepth ∧
      ∀ v, start + config.bufferDepth + 1 + (10 * B + 5) *
          ((n + 1) * (config.bufferDepth * numberOfPhases (totalBits signals) + 2) -
            ((bytes path).transferred (start + config.bufferDepth + 1)).length) +
          latency 8 B S ≤ v →
        ∀ chunks, chunks.flatten = received path S rxBits outBits v →
        ∃ rows, hostRecords signals withIndex chunks = some rows ∧
          rows[n]? = some (records signals withIndex (capture input config.bufferDepth start)) := by
  obtain ⟨d, hd, htrigger⟩ := h.trigger hcause
  obtain ⟨t, hat, htd, htriggered⟩ := h.triggered hstate htrigger
  rw [h.probe] at htriggered
  obtain ⟨start, hstart, hroom, hwords, hholding⟩ := capture_holding hdepth hpos htriggered
  generalize captureStarts config (stimulus path input) t = starts at hwords
  have hwait : (probeAt config (stimulus path input) t).state = .awaitingTrigger := by
    simp only [Probe.triggered, Bool.and_eq_true, beq_iff_eq] at htriggered
    exact htriggered.1
  rw [awaiting_length hdepth hpos t hwait] at hstart
  have hlength : ∀ starts : List ℕ,
      (starts.flatMap (window (stimulus path input) config.bufferDepth)).length =
        starts.length * config.bufferDepth := by
    intro starts
    simp [List.length_flatMap, window]
  refine ⟨t, start, starts.length, hat, by omega, by omega, hroom, ?_, ?_, ?_⟩
  · intro hsome
    have hmax : max 1 config.triggerPosition = config.triggerPosition := by omega
    rwa [hmax, ite_self] at hstart
  · rw [h.transferred, hwords, hlength]
  · intro v hv chunks hchunks
    exact rows_of_triggered h hs withIndex hfit hdepth hpos hB hS rxBits outBits hroom hwords
      hholding hv hchunks

theorem trigger_rows_quiet : ∃ t start n v : ℕ, 3 ≤ t ∧ t < 3 + 256 ∧ start + 2 = t ∧
    ∃ rows, hostRecords data true [received quietPath 1 0 0 v] = some rows ∧
      rows[n]? = some (records data true (capture quiet 4 start)) := by
  obtain ⟨t, start, n, hle, hlt, -, -, hplace, -, hrows⟩ :=
    trigger_rows (by decide : data ≠ []) true (by decide : SumsFit data fourDeep.bufferDepth)
      (by decide) (by decide) (Nat.le_refl 2) (Nat.le_refl 1) (runs_run fourDeep 2 0 quiet) 0 0 (a := 3) (by decide)
      (Or.inr fun _ _ _ => rfl)
  have hlater := hrows _ (Nat.le_refl _) [_] (List.append_nil _)
  exact ⟨t, start, n, _, hle, hlt, hplace (by decide), hlater⟩

end SeccampRiscvCpu.ProbeSerial
