import SeccampRiscvCpu.FairSchedules
import SeccampRiscvCpu.ProbeCapture

/-!
# Where the trigger stands in a frame

While the probe waits for its trigger the queue holds `triggerPosition` samples: in
each clock a new one comes in and the oldest goes out. At position 0 the queue is
empty at first, an empty queue gives nothing away, and from the second clock on one
sample stands before the trigger.
-/
namespace SeccampRiscvCpu.ProbeTrigger
open ClockedMachine FairSchedules FifoQueue ProbeCapture
open ProbeStream (ProbeOutput)

section
variable {config : ProbeConfig} {width : ℕ}

/-- The probe before clock `t` of a run from reset. -/
def probeAt (config : ProbeConfig) (input : ℕ → Inputs width) (t : ℕ) : Probe config width :=
  (Probe.machine config width).run (.init config width) input t

/-- The words transferred before clock `t`. -/
def wordsAt (config : ProbeConfig) (input : ℕ → Inputs width) (t : ℕ) :
    List (ProbeOutput width) :=
  (Probe.machine config width).trace (.init config width) input t

variable {input : ℕ → Inputs width}

theorem probeAt_succ (t : ℕ) :
    probeAt config input (t + 1) = (probeAt config input t).step (input t) := rfl

theorem wordsAt_succ (t : ℕ) : wordsAt config input (t + 1) =
    wordsAt config input t ++ (probeAt config input t).emit (input t) := rfl

/-! ## The queue while the probe waits -/

theorem triggerPosition_zero (hpos : config.triggerPosition < config.bufferDepth)
    (h : Probe.triggerPosition config = 0) : config.triggerPosition = 0 := by
  have hlt : config.triggerPosition < 2 ^ config.bufferDepth :=
    Nat.lt_trans hpos Nat.lt_two_pow_self
  have hvalue := congrArg BitVec.toNat h
  rwa [Probe.triggerPosition, BitVec.toNat_ofNat, Nat.mod_eq_of_lt hlt] at hvalue

/-- In its first clock in the state the queue holds the samples before the position, and
after that never none. -/
theorem awaiting_length (hdepth : 2 ≤ config.bufferDepth)
    (hpos : config.triggerPosition < config.bufferDepth) (t : ℕ)
    (h : (probeAt config input t).state = .awaitingTrigger) :
    (probeAt config input t).buffer.entries.length =
      if (probeAt config input (t - 1)).state = .awaitingTrigger then max 1 config.triggerPosition
      else config.triggerPosition := by
  induction t with
  | zero => simp [probeAt, Probe.init, Machine.run] at h
  | succ t ih =>
    obtain ⟨starts, start, sent, hphase, -, -⟩ := run_captures hdepth hpos input t
    have hphase : Phase input start sent t (probeAt config input t) := hphase
    rw [probeAt_succ] at h ⊢
    rw [Nat.add_sub_cancel]
    generalize probeAt config input t = p at h hphase ih ⊢
    cases hstate : p.state with
    | reset =>
      have hzero : Probe.triggerPosition config = 0 := by
        by_contra hne
        simp only [Probe.step, Probe.nextState, hstate, if_neg hne] at h
        exact State.noConfusion h
      rw [if_neg (by simp), triggerPosition_zero hpos hzero]
      simp [Probe.step, hstate]
    | fillPreTrigger =>
      simp only [Phase, hstate] at hphase
      obtain ⟨-, hfilling, hcount, hlt⟩ := hphase
      have hroom : p.buffer.entries.length < config.bufferDepth := by
        rw [hfilling.entries, samples_length]
        omega
      have hlast : t - start = config.triggerPosition - 1 := by
        by_contra hne
        have hpred := triggerPosition_pred hpos (by omega)
        simp only [Probe.step, Probe.nextState, hstate, hcount, hpred, if_neg hne] at h
        exact State.noConfusion h
      rw [if_neg (by simp), enqueues (by simp only [Probe.inOffer, hstate]) hroom]
      simp [Probe.bufferReady, hstate, Fifo.kept, hfilling.entries]
      omega
    | awaitingTrigger =>
      have hlength := ih hstate
      cases htrigger : (input t).trigger || p.hasTriggered with
      | true =>
        rw [(awaitingTrigger_triggered hstate hphase htrigger).1] at h
        exact State.noConfusion h
      | false =>
        rw [if_pos rfl, (awaitingTrigger_slides hstate hphase htrigger).2]
        simp only [List.length_append, List.length_tail, List.length_singleton, hlength]
        split_ifs <;> omega
    | fillPostTrigger =>
      rcases (fillPostTrigger_next hdepth hstate hphase).2 with ⟨hnext, -⟩ | ⟨hnext, -⟩
      · exact State.noConfusion (hnext.symm.trans h)
      · exact State.noConfusion (hnext.symm.trans h)
    | output =>
      simp only [Probe.step, Probe.nextState, hstate] at h
      split_ifs at h

/-! ## The frame behind a trigger -/

/-- The queue is being filled up or sent since the trigger in clock `t`. -/
def Holding (config : ProbeConfig) (input : ℕ → Inputs width) (start t u : ℕ) : Prop :=
  ∃ sent, Phase input start sent u (probeAt config input u) ∧
    ((probeAt config input u).state = .fillPostTrigger ∨
      (probeAt config input u).state = .output) ∧
    wordsAt config input u =
      wordsAt config input t ++ (window input config.bufferDepth start).take sent

/-- The frame has been sent. -/
def Sent (config : ProbeConfig) (input : ℕ → Inputs width) (start t u : ℕ) : Prop :=
  wordsAt config input t ++ window input config.bufferDepth start <+: wordsAt config input u

/-- The clocks a receiver that is always ready still has to wait, or a few more. -/
def workLeft (p : Probe config width) : ℕ :=
  if p.state = .output then
    2 * (p.buffer.entries.length + p.outValid.toNat) + (!p.outValid).toNat
  else 2 * config.bufferDepth + 2 + (config.bufferDepth - p.buffer.entries.length)

theorem workLeft_output {start sent t : ℕ} {p : Probe config width} (hstate : p.state = .output)
    (h : Draining input start sent t p) :
    workLeft p = 2 * (config.bufferDepth - sent) + (!p.outValid).toNat := by
  have hlength := congrArg List.length h.entries
  rw [List.length_append, samples_length] at hlength
  rw [workLeft, if_pos hstate, ← hlength]
  cases p.outValid <;> simp [Nat.add_comm]

theorem workLeft_filling {start t : ℕ} {p : Probe config width} (hstate : p.state ≠ .output)
    (h : Filling input start t p) :
    workLeft p = 2 * config.bufferDepth + 2 + (config.bufferDepth - (t - start)) := by
  rw [workLeft, if_neg hstate, h.entries, samples_length]

/-- A receiver takes the word it is offered. -/
def takes (_ : Unit) (i : Inputs width) : Prop := i.outReady = true

theorem holding_step (hdepth : 2 ≤ config.bufferDepth) {start t u : ℕ}
    (h : Holding config input start t u) :
    Sent config input start t (u + 1) ∨ Holding config input start t (u + 1) ∧
      Harmless takes (fun _ _ => True) workLeft (probeAt config input u)
        (probeAt config input (u + 1)) (input u) := by
  obtain ⟨sent, hphase, hstate, hwords⟩ := h
  simp only [Sent, Holding, probeAt_succ, wordsAt_succ, hwords, List.append_assoc]
  generalize probeAt config input u = p at hphase hstate ⊢
  rcases hstate with hstate | hstate
  · obtain ⟨hnext, hstate'⟩ := fillPostTrigger_next hdepth hstate hphase
    simp only [Phase, hstate] at hphase
    obtain ⟨rfl, hfilling⟩ := hphase
    refine Or.inr ⟨⟨0, hnext, hstate'.imp And.left And.left, ?_⟩, .less ?_⟩
    · rw [hfilling.silent, List.take_zero]
      rfl
    · have hle := hfilling.start_le
      rw [workLeft_filling (by simp [hstate]) hfilling]
      rcases hstate' with ⟨hfill, hroom⟩ | ⟨hout, -⟩
      · simp only [Phase, hfill] at hnext
        rw [workLeft_filling (by simp [hfill]) hnext.2]
        omega
      · simp only [Phase, hout] at hnext
        rw [workLeft_output hout hnext]
        have hbit := Bool.toNat_le (!(p.step (input u)).outValid)
        omega
  · simp only [Phase, hstate] at hphase
    have hwork := workLeft_output hstate hphase
    cases output_drains hstate hphase with
    | goes sent' hstate' hvalid hprogress hnext hfront =>
      have hwork' := workLeft_output hstate' hnext
      rw [hvalid, Bool.not_true, Bool.toNat_false] at hwork'
      rw [hfront]
      refine Or.inr ⟨⟨sent', ?_, Or.inr hstate', rfl⟩, ?_⟩
      · simp only [Phase, hstate']
        exact hnext
      · have hlt := hnext.sent_lt
        rcases hprogress with hmore | ⟨rfl, hloads | hwaits⟩
        · exact .less (by omega)
        · rw [hloads, Bool.not_false, Bool.toNat_true] at hwork
          exact .less (by omega)
        · refine ⟨by omega, fun _ _ _ => ⟨trivial, ?_⟩⟩
          simp [takes, hwaits]
    | ends hcomplete hnext hfront =>
      rw [hfront]
      exact Or.inl (List.prefix_refl _)

/-- A trigger while the probe waits: the capture keeps its start from here on. -/
theorem triggered_holding (hdepth : 2 ≤ config.bufferDepth)
    (hpos : config.triggerPosition < config.bufferDepth) {t : ℕ}
    (hstate : (probeAt config input t).state = .awaitingTrigger)
    (htrigger : (input t).trigger = true) :
    ∃ start frames, start + (probeAt config input t).buffer.entries.length = t ∧
      (wordsAt config input t).length = frames * config.bufferDepth ∧
      Holding config input start t (t + 1) := by
  obtain ⟨starts, start, sent, hphase, hwords, -⟩ := run_captures hdepth hpos input t
  have hphase : Phase input start sent t (probeAt config input t) := hphase
  have hwords : wordsAt config input t = starts.flatMap (window input config.bufferDepth) ++
      (window input config.bufferDepth start).take sent := hwords
  obtain ⟨hfill, hnext⟩ := awaitingTrigger_triggered hstate hphase (by rw [htrigger]; rfl)
  simp only [Phase, hstate] at hphase
  obtain ⟨rfl, hfilling, -⟩ := hphase
  have hle := hfilling.start_le
  refine ⟨start, starts.length, ?_, ?_, 0, hnext, Or.inl hfill, ?_⟩
  · rw [hfilling.entries, samples_length]
    omega
  · rw [hwords, List.take_zero, List.append_nil]
    induction starts with
    | nil => simp
    | cons first starts ih => simp [window, Nat.succ_mul, Nat.add_comm]
  · rw [wordsAt_succ, hfilling.silent, List.take_zero]

/-- What has been sent since the trigger is the front of the frame, or all of it and more. -/
theorem holding_words (hdepth : 2 ≤ config.bufferDepth) {start t u : ℕ} (hu : t + 1 ≤ u)
    (h : Holding config input start t (t + 1)) :
    Holding config input start t u ∨ Sent config input start t u := by
  induction u, hu using Nat.le_induction with
  | base => exact Or.inl h
  | succ u hu ih =>
    rcases ih with hholding | hsent
    · rcases holding_step hdepth hholding with hsent | ⟨hholding', -⟩
      · exact Or.inr hsent
      · exact Or.inl hholding'
    · exact Or.inr (hsent.trans (List.prefix_append _ _))

/-- Every word of the frame is the sample of its place. -/
theorem frame_word (hdepth : 2 ≤ config.bufferDepth) {start t u j : ℕ}
    {word : ProbeOutput width} (hj : j < config.bufferDepth)
    (h : Holding config input start t (t + 1))
    (hword : (wordsAt config input u)[(wordsAt config input t).length + j]? = some word) :
    word.data = (input (start + j)).in_ := by
  have hplace : (window input config.bufferDepth start)[j]? = some word := by
    rcases Nat.lt_or_ge t u with hu | hu
    · rcases holding_words hdepth hu h with ⟨sent, -, -, hwords⟩ | ⟨later, hwords⟩
      · rw [hwords, List.getElem?_append_right (Nat.le_add_right _ _), Nat.add_sub_cancel_left]
          at hword
        rw [List.getElem?_take] at hword
        split_ifs at hword
        exact hword
      · rw [← hwords, List.append_assoc, List.getElem?_append_right (Nat.le_add_right _ _),
          Nat.add_sub_cancel_left, List.getElem?_append_left (by simp [window, hj])] at hword
        exact hword
    · have hprefix : wordsAt config input u <+: wordsAt config input t :=
        Machine.trace_prefix (Probe.machine config width) hu
      have hlength := hprefix.length_le
      rw [List.getElem?_eq_none (by omega)] at hword
      exact absurd hword (Option.some_ne_none word).symm
  simp only [window, List.getElem?_map, List.getElem?_range hj, Option.map_some,
    Option.some.injEq] at hplace
  rw [← hplace]

/-- A receiver that is ready again and again gets the whole frame. -/
theorem frame_arrives (hdepth : 2 ≤ config.bufferDepth) {start t : ℕ}
    (hfair : Fair takes input) (h : Holding config input start t (t + 1)) :
    ∃ u, Sent config input start t u := by
  have hreach : ∃ u, t + 1 < u ∧ Sent config input start t u :=
    hfair.reaches (fun _ _ => ⟨(), trivial⟩) (fun _ hbusy => holding_step hdepth hbusy) h
  obtain ⟨u, -, hsent⟩ := hreach
  exact ⟨u, hsent⟩

/-! ## All captures of a run -/

/-- The starts of the captures whose trigger has come before clock `t`, in order. The queue
then holds the samples from the start on. -/
def captureStarts (config : ProbeConfig) (input : ℕ → Inputs width) : ℕ → List ℕ
  | 0 => []
  | t + 1 => captureStarts config input t ++
      if (probeAt config input t).triggered (input t) then
        [t - (probeAt config input t).buffer.entries.length]
      else []

theorem captureStarts_mono {t u : ℕ} (h : t ≤ u) :
    captureStarts config input t <+: captureStarts config input u := by
  induction u, h using Nat.le_induction with
  | base => exact List.prefix_refl _
  | succ u _ ih => exact ih.trans (List.prefix_append _ _)

/-- Each of them has its trigger. -/
theorem captureStarts_getElem? {t n start : ℕ}
    (h : (captureStarts config input t)[n]? = some start) :
    ∃ s < t, (probeAt config input s).triggered (input s) = true ∧
      (captureStarts config input s).length = n ∧
      start = s - (probeAt config input s).buffer.entries.length := by
  induction t with
  | zero => simp [captureStarts] at h
  | succ t ih =>
    rw [captureStarts, List.getElem?_append] at h
    split_ifs at h with hbefore htriggered
    · obtain ⟨s, hs, hcapture⟩ := ih h
      exact ⟨s, by omega, hcapture⟩
    · have hlast : n - (captureStarts config input t).length = 0 := by
        by_contra hne
        obtain ⟨k, hk⟩ := Nat.exists_eq_succ_of_ne_zero hne
        simp [hk] at h
      rw [hlast] at h
      exact ⟨t, Nat.lt_succ_self t, htriggered, by omega, (Option.some.inj h).symm⟩
    · simp at h

/-- The trigger has come, and the frame has not been sent. -/
def collecting (p : Probe config width) : Bool := p.state == .fillPostTrigger || p.state == .output

theorem collecting_of_waits {p : Probe config width} {i : Inputs width}
    (h : collecting p = false) (hwaits : p.triggered i = false) :
    collecting (p.step i) = false := by
  cases hstate : p.state with
  | reset =>
    simp only [collecting, Probe.step, Probe.nextState, hstate]
    split_ifs <;> rfl
  | fillPreTrigger =>
    simp only [collecting, Probe.step, Probe.nextState, hstate]
    split_ifs <;> rfl
  | awaitingTrigger =>
    simp only [Probe.triggered, hstate, beq_self_eq_true, Bool.true_and] at hwaits
    simp only [collecting, Probe.step, Probe.nextState, hstate, hwaits]
    rfl
  | fillPostTrigger => simp [collecting, hstate] at h
  | output => simp [collecting, hstate] at h

/-- A capture that has not been triggered goes on, possibly with a later start. -/
theorem waits_moves (hdepth : 2 ≤ config.bufferDepth)
    (hpos : config.triggerPosition < config.bufferDepth) {start sent t : ℕ}
    {p : Probe config width} (h : Phase input start sent t p) (hwaits : collecting p = false) :
    sent = 0 ∧ p.emit (input t) = [] ∧
      ∃ start', start ≤ start' ∧ Phase input start' 0 (t + 1) (p.step (input t)) := by
  rcases h.idle_or_draining with ⟨rfl, hidle, -⟩ | ⟨hstate, -⟩
  · have hsilent : p.emit (input t) = [] := by simp [Probe.emit, hidle]
    refine ⟨rfl, hsilent, ?_⟩
    cases phase_moves hdepth hpos h with
    | fills later silent next => exact ⟨_, later, next⟩
    | drains sent' next front =>
      have hnone := congrArg List.length front
      simp only [hsilent, window, List.take_zero, List.append_nil, List.length_nil,
        List.length_take, List.length_map, List.length_range] at hnone
      obtain rfl : sent' = 0 := by omega
      exact ⟨start, Nat.le_refl start, next⟩
    | ends complete next front =>
      have hnone := congrArg List.length front
      simp only [hsilent, window, List.take_zero, List.append_nil, List.length_nil,
        List.length_map, List.length_range] at hnone
      omega
  · simp [collecting, hstate] at hwaits

/-- The words of a run are the windows of all captures but the one that goes on, and the front
of that one's. -/
structure Captures (config : ProbeConfig) (input : ℕ → Inputs width) (t : ℕ) (starts : List ℕ)
    (start sent : ℕ) : Prop where
  phase : Phase input start sent t (probeAt config input t)
  words : wordsAt config input t = starts.flatMap (window input config.bufferDepth) ++
    (window input config.bufferDepth start).take sent
  apart : Apart config.bufferDepth (starts ++ [start])
  all : captureStarts config input t =
    if collecting (probeAt config input t) then starts ++ [start] else starts

/-- A probe that waits takes no place in the list before it has triggered. -/
theorem captures_waiting (hdepth : 2 ≤ config.bufferDepth)
    (hpos : config.triggerPosition < config.bufferDepth) {t start sent : ℕ} {starts : List ℕ}
    (h : Captures config input t starts start sent)
    (hcollecting : collecting (probeAt config input t) = false) :
    ∃ start', Captures config input (t + 1) starts start' 0 := by
  obtain ⟨hphase, hwords, hapart, hall⟩ := h
  rw [hcollecting, if_neg Bool.false_ne_true] at hall
  obtain ⟨rfl, hsilent, start', hlater, hnext⟩ := waits_moves hdepth hpos hphase hcollecting
  rw [List.take_zero, List.append_nil] at hwords
  have hwords' : ∀ start', wordsAt config input (t + 1) =
      starts.flatMap (window input config.bufferDepth) ++
        (window input config.bufferDepth start').take 0 := by
    intro start'
    rw [wordsAt_succ, hsilent, hwords, List.take_zero]
  cases htriggered : (probeAt config input t).triggered (input t) with
  | false =>
    have hwaits := collecting_of_waits hcollecting htriggered
    refine ⟨start', hnext, hwords' start', apart_later hlater hapart, ?_⟩
    rw [captureStarts, htriggered, probeAt_succ, hwaits, hall]
    simp
  | true =>
    obtain ⟨hstate, htrigger⟩ : (probeAt config input t).state = .awaitingTrigger ∧ _ := by
      simpa [Probe.triggered] using htriggered
    obtain ⟨hfill, hnext⟩ := awaitingTrigger_triggered hstate hphase (by simpa using htrigger)
    simp only [Phase, hstate] at hphase
    have hle := hphase.2.1.start_le
    have hlength : t - (probeAt config input t).buffer.entries.length = start := by
      rw [hphase.2.1.entries, samples_length]
      omega
    refine ⟨start, hnext, hwords' start, hapart, ?_⟩
    rw [captureStarts, htriggered, hlength, probeAt_succ, collecting, hfill, hall]
    rfl

/-- Behind the last word of a window the probe starts anew. -/
theorem reset_of_ended {config : ProbeConfig} {p : Probe config width} {i : Inputs width}
    (hstate : p.state = .output) (hnot : (p.step i).state ≠ .output) :
    (p.step i).state = .reset := by
  simp only [Probe.step, Probe.nextState, hstate] at hnot ⊢
  split_ifs at hnot ⊢ <;> simp_all

/-- A probe that has triggered stays with its window, and drops it when it has sent all of it. -/
theorem captures_collecting (hdepth : 2 ≤ config.bufferDepth) {t start sent : ℕ}
    {starts : List ℕ} (h : Captures config input t starts start sent)
    (hcollecting : collecting (probeAt config input t) = true) :
    ∃ starts' start' sent', Captures config input (t + 1) starts' start' sent' := by
  obtain ⟨hphase, hwords, hapart, hall⟩ := h
  rw [hcollecting, if_pos rfl] at hall
  simp only [collecting, Bool.or_eq_true, beq_iff_eq] at hcollecting
  have htriggered : (probeAt config input t).triggered (input t) = false := by
    rcases hcollecting with hstate | hstate <;> simp [Probe.triggered, hstate]
  have hsame : captureStarts config input (t + 1) = starts ++ [start] := by
    rw [captureStarts, htriggered, hall]
    simp
  rcases hcollecting with hstate | hstate
  · obtain ⟨hnext, hstate'⟩ := fillPostTrigger_next hdepth hstate hphase
    simp only [Phase, hstate] at hphase
    obtain ⟨rfl, hfilling⟩ := hphase
    refine ⟨starts, start, 0, hnext, ?_, hapart, ?_⟩
    · rw [wordsAt_succ, hfilling.silent, hwords, List.append_nil]
    · rw [hsame, probeAt_succ, collecting]
      rcases hstate' with ⟨hstate', -⟩ | ⟨hstate', -⟩ <;> rw [hstate'] <;> rfl
  · simp only [Phase, hstate] at hphase
    cases output_drains hstate hphase with
    | goes sent' hstate' _ _ hnext hfront =>
      refine ⟨starts, start, sent', ?_, ?_, hapart, ?_⟩
      · simp only [probeAt_succ, Phase, hstate']
        exact hnext
      · rw [wordsAt_succ, hwords, List.append_assoc, hfront]
      · rw [hsame, probeAt_succ, collecting, hstate']
        rfl
    | ends hcomplete hnext hfront =>
      have hreset : ((probeAt config input t).step (input t)).state = .reset := by
        apply reset_of_ended hstate
        intro hout
        simp only [Phase, hout] at hnext
        have hlong := hnext.complete
        omega
      refine ⟨starts ++ [start], t + 1, 0, hnext, ?_, apart_next (by omega) hapart, ?_⟩
      · rw [wordsAt_succ, hwords, List.append_assoc, hfront, List.flatMap_append,
          List.flatMap_singleton, List.take_zero, List.append_nil]
      · rw [hsame, probeAt_succ, collecting, hreset]
        rfl

theorem captures_step (hdepth : 2 ≤ config.bufferDepth)
    (hpos : config.triggerPosition < config.bufferDepth) {t start sent : ℕ} {starts : List ℕ}
    (h : Captures config input t starts start sent) :
    ∃ starts' start' sent', Captures config input (t + 1) starts' start' sent' := by
  cases hcollecting : collecting (probeAt config input t) with
  | false =>
    obtain ⟨start', hwaits⟩ := captures_waiting hdepth hpos h hcollecting
    exact ⟨starts, start', 0, hwaits⟩
  | true => exact captures_collecting hdepth h hcollecting

theorem run_captureStarts (hdepth : 2 ≤ config.bufferDepth)
    (hpos : config.triggerPosition < config.bufferDepth) (input : ℕ → Inputs width) (t : ℕ) :
    ∃ starts start sent, Captures config input t starts start sent := by
  induction t with
  | zero => exact ⟨[], 0, 0, ⟨rfl, rfl, rfl⟩, rfl, List.pairwise_singleton _ _, rfl⟩
  | succ t ih =>
    obtain ⟨starts, start, sent, hcaptures⟩ := ih
    exact captures_step hdepth hpos hcaptures

/-- No two captures share a clock. -/
theorem captureStarts_apart (hdepth : 2 ≤ config.bufferDepth)
    (hpos : config.triggerPosition < config.bufferDepth) (t : ℕ) :
    Apart config.bufferDepth (captureStarts config input t) := by
  obtain ⟨starts, start, sent, -, -, hapart, hall⟩ := run_captureStarts hdepth hpos input t
  rw [hall]
  split_ifs
  · exact hapart
  · exact (List.pairwise_append.mp hapart).1

end

/-- The trigger comes while the probe waits, for the first time since the last capture. -/
def FirstTrigger {width : ℕ} (config : ProbeConfig) (input : ℕ → Inputs width) (t : ℕ) : Prop :=
  (probeAt config input t).state = .awaitingTrigger ∧ (input t).trigger = true ∧
    ∀ s < t, (∀ r < t, s ≤ r → (probeAt config input r).state ≠ .output) →
      (input s).trigger = false

/-- **Where the trigger stands.** Only whole frames have been sent before. In the next one the
word at `triggerPosition` is the sample of the trigger's clock, except that at position 0 it is
the sample before once the probe has waited; and the word comes if the receiver takes words. -/
theorem trigger_position_iff {config : ProbeConfig} {width : ℕ} {input : ℕ → Inputs width} {t : ℕ}
    (hdepth : 2 ≤ config.bufferDepth) (hpos : config.triggerPosition < config.bufferDepth)
    (h : FirstTrigger config input t) :
    (∃ frames, (wordsAt config input t).length = frames * config.bufferDepth) ∧
    (∀ u word,
      (wordsAt config input u)[(wordsAt config input t).length + config.triggerPosition]? =
        some word →
      (word.data = (input t).in_ ↔ 0 < config.triggerPosition ∨
        (probeAt config input (t - 1)).state ≠ .awaitingTrigger ∨
        (input (t - 1)).in_ = (input t).in_)) ∧
    ((∀ v, ∃ u, v ≤ u ∧ (input u).outReady = true) → ∃ u word,
      (wordsAt config input u)[(wordsAt config input t).length + config.triggerPosition]? =
        some word) := by
  obtain ⟨hstate, htrigger, -⟩ := h
  obtain ⟨start, frames, hstart, hframes, hholding⟩ :=
    triggered_holding hdepth hpos hstate htrigger
  rw [awaiting_length hdepth hpos t hstate] at hstart
  refine ⟨⟨frames, hframes⟩, ?_, ?_⟩
  · intro u word hword
    rw [frame_word hdepth hpos hholding hword]
    rcases Nat.eq_zero_or_pos config.triggerPosition with hzero | hsome
    · rw [hzero, Nat.max_zero] at hstart
      rw [hzero, Nat.add_zero]
      by_cases hwaited : (probeAt config input (t - 1)).state = .awaitingTrigger
      · rw [if_pos hwaited] at hstart
        have hbefore : start = t - 1 := by omega
        simp [hbefore, hwaited]
      · rw [if_neg hwaited, Nat.add_zero] at hstart
        simp [hstart, hwaited]
    · have hlength : max 1 config.triggerPosition = config.triggerPosition := by omega
      rw [hlength, ite_self] at hstart
      simp [hstart, hsome]
  · intro hready
    have hfair : Fair takes input := fun _ v => hready v
    obtain ⟨u, later, hwords⟩ := frame_arrives hdepth hfair hholding
    have hwindow : config.triggerPosition < (window input config.bufferDepth start).length := by
      simp [window, hpos]
    refine ⟨u, (window input config.bufferDepth start)[config.triggerPosition], ?_⟩
    rw [← hwords, List.append_assoc, List.getElem?_append_right (Nat.le_add_right _ _),
      Nat.add_sub_cancel_left, List.getElem?_append_left hwindow, List.getElem?_eq_getElem]

theorem trigger_position_counting : FirstTrigger fourDeep counting 6 ∧
    ∃ u word, (wordsAt fourDeep counting u)[(wordsAt fourDeep counting 6).length + 2]? =
      some word ∧ word.data = 6 := by
  have hfirst : FirstTrigger fourDeep counting 6 := by
    refine ⟨by decide, by decide, ?_⟩
    intro s hs _
    revert s
    decide
  obtain ⟨-, hplace, harrives⟩ := trigger_position_iff (by decide) (by decide) hfirst
  obtain ⟨u, word, hword⟩ := harrives fun v => ⟨2 * v, by omega, by simp [counting]⟩
  exact ⟨hfirst, u, word, hword, (hplace u word hword).mpr (Or.inl (by decide))⟩

/-- Four samples, of which none stands before the trigger. -/
def fromTrigger : ProbeConfig := ⟨4, 0, fourDeep.isPow2⟩

/-- The frame behind the trigger in clock 6 starts with the sample of clock 5. -/
theorem trigger_late : ¬ ∀ (config : ProbeConfig) (width : ℕ) (input : ℕ → Inputs width)
    (t u : ℕ) (word : ProbeOutput width), 2 ≤ config.bufferDepth →
    config.triggerPosition < config.bufferDepth → FirstTrigger config input t →
    (wordsAt config input u)[(wordsAt config input t).length + config.triggerPosition]? =
      some word → word.data = (input t).in_ := by
  intro hall
  have hfirst : FirstTrigger fromTrigger counting 6 := by
    refine ⟨by decide, by decide, ?_⟩
    intro s hs _
    revert s
    decide
  have hearly := hall fromTrigger 8 counting 6 13 ⟨5, false⟩ (by decide) (by decide) hfirst
    (by decide)
  exact absurd hearly (by decide)

end SeccampRiscvCpu.ProbeTrigger
