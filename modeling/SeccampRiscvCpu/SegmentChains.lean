import SeccampRiscvCpu.SegmentLed

/-!
# The shift registers behind the driver of the segment display

Each port drives a chain of shift registers that takes the data on a rising shift clock and
shows its stages on a rising latch. While a digit is shifted, the lowest stages of the
segment chain are the highest bits of the digit's sample, one more after each edge, and the
selector chain shows one active bit in every round of digits.
-/
namespace SeccampRiscvCpu.SegmentChains
open ClockedMachine ClockEdges WordCounters SegmentLed

/-! ## The chains -/

/-- The stages of a chain when its port goes from `before` to `after`. -/
def shifted {n : ℕ} (before after : ShiftRegisterPort) (stages : BitVec n) : BitVec n :=
  if !before.shiftClock && after.shiftClock then stages.shiftConcat before.data else stages

structure Chain (n : ℕ) where
  stages : BitVec n
  outputs : BitVec n

def Chain.step {n : ℕ} (before after : ShiftRegisterPort) (c : Chain n) : Chain n where
  stages := shifted before after c.stages
  outputs := if !before.latch && after.latch then c.stages else c.outputs

structure Board (p : Params) where
  driver : SegmentLedWithShiftRegs p
  segments : Chain p.numberOfSegments
  selectors : Chain p.numberOfDigits

/-- The driver with its chains; each clock shows the outputs of the chains. -/
def boardMachine (p : Params) : Machine (Board p) (Digits p)
    (BitVec p.numberOfSegments × BitVec p.numberOfDigits) where
  step b digits :=
    { driver := b.driver.step digits
      segments := b.segments.step b.driver.segmentOut (b.driver.step digits).segmentOut
      selectors := b.selectors.step b.driver.digitSelector (b.driver.step digits).digitSelector }
  emit b _ := [(b.segments.outputs, b.selectors.outputs)]

section
variable {p : Params}

/-- The levels of the segment lines that show the bits `x`. -/
def pattern (p : Params) (x : BitVec p.numberOfSegments) : BitVec p.numberOfSegments :=
  if p.cathodeCommon then x else ~~~x

theorem pattern_getLsbD (x : BitVec p.numberOfSegments) {i : ℕ} (hi : i < p.numberOfSegments) :
    (pattern p x).getLsbD i = if x.getLsbD i then p.segmentLogic1 else !p.segmentLogic1 := by
  unfold pattern Params.segmentLogic1
  cases p.cathodeCommon with
  | true =>
    rw [if_pos rfl]
    cases x.getLsbD i <;> rfl
  | false =>
    rw [if_neg Bool.false_ne_true, BitVec.getLsbD_not, decide_eq_true hi]
    cases x.getLsbD i <;> rfl

/-! ## The selector chain -/

/-- Of the stages filled by `k` shifts those are active that a first digit was shifted into. -/
def Selected (p : Params) (k : ℕ) (stages : BitVec p.numberOfDigits) : Prop :=
  ∀ j < p.numberOfDigits, j < k →
    (stages.getLsbD j = p.digitLogic1 ↔ (k - 1 - j) % p.numberOfDigits = 0)

/-- The data shifted in for digit `k`, counted from the first one of the run. -/
def selector (p : Params) (k : ℕ) : Bool :=
  if k % p.numberOfDigits = 0 then p.digitLogic1 else !p.digitLogic1

theorem Selected.next {k : ℕ} {stages : BitVec p.numberOfDigits} (h : Selected p k stages) :
    Selected p (k + 1) (stages.shiftConcat (selector p k)) := by
  intro j hj hk
  rw [BitVec.getLsbD_shiftConcat]
  cases j with
  | zero => simp [hj, selector]
  | succ j =>
    have hstage := h j (by omega) (by omega)
    have hcount : k + 1 - 1 - (j + 1) = k - 1 - j := by omega
    rw [hcount, ← hstage, decide_eq_true hj, Bool.true_and, if_neg (Nat.succ_ne_zero j),
      Nat.add_sub_cancel]

/-- A full round shows its digit and no other. -/
theorem Selected.active_iff {k : ℕ} {stages : BitVec p.numberOfDigits}
    (h : Selected p (k + 1) stages) (hk : p.numberOfDigits ≤ k + 1) {j : ℕ}
    (hj : j < p.numberOfDigits) :
    stages.getLsbD j = p.digitLogic1 ↔ j = k % p.numberOfDigits := by
  rw [h j hj (by omega), Nat.add_sub_cancel]
  have hmod := Nat.mod_eq_of_lt hj
  constructor
  · intro hround
    have hsum : k = j + (k - j) := by omega
    rw [hsum, Nat.add_mod, hround, Nat.add_zero, Nat.mod_mod, hmod]
  · intro hj
    exact Nat.sub_mod_eq_zero_of_mod_eq (hj.symm.trans hmod.symm)

/-- The digit index and the selector chain after `k` latch edges. -/
def DigitsAt (k : ℕ) (s : SegmentLedWithShiftRegs p) (stages : BitVec p.numberOfDigits) : Prop :=
  match s.state with
  | .reset => k = 0
  | .setupDigit | .holdDigit =>
    s.digitIndex.toNat = k % p.numberOfDigits ∧ Selected p k stages
  | .shiftDigit =>
    s.digitIndex.toNat = (k + 1) % p.numberOfDigits ∧ s.digitSelector.data = selector p k ∧
      Selected p (if s.digitSelector.shiftClock then k + 1 else k) stages
  | .setupSegment | .shiftSegment | .outputDigit =>
    s.digitIndex.toNat = (k + 1) % p.numberOfDigits ∧ Selected p (k + 1) stages

theorem DigitsAt.of_output {k : ℕ} {s : SegmentLedWithShiftRegs p}
    {stages : BitVec p.numberOfDigits} (h : DigitsAt k s stages) (hs : s.state = .outputDigit) :
    Selected p (k + 1) stages := by
  unfold DigitsAt at h
  rw [hs] at h
  exact h.2

theorem selector_eq {k : ℕ} {s : SegmentLedWithShiftRegs p}
    (h : s.digitIndex.toNat = k % p.numberOfDigits) :
    (if s.digitIndex = 0 then p.digitLogic1 else !p.digitLogic1) = selector p k := by
  unfold selector
  rw [← h]
  exact if_congr (eq_zero_iff _) rfl rfl

theorem DigitsAt.step {k : ℕ} {s : SegmentLedWithShiftRegs p} {stages : BitVec p.numberOfDigits}
    (h : DigitsAt k s stages) (hb : Bounded s) (digits : Digits p) :
    DigitsAt (if s.state = .outputDigit then k + 1 else k) (s.step digits)
      (shifted s.digitSelector (s.step digits).digitSelector stages) := by
  unfold DigitsAt at h
  fun_cases SegmentLedWithShiftRegs.step s digits
  case case1 hstate =>
    -- nothing is known of the stages before the first shift
    have hk : k = 0 := by simpa [hstate] using h
    simp [DigitsAt, hstate, hk, Selected]
  case case2 hstate =>
    simp only [hstate] at h
    have hnext := toNat_nextDigit hb.digitIndex_lt
    rw [h.1, Nat.mod_add_mod] at hnext
    simp only [DigitsAt, hstate, shifted, Bool.and_false, Bool.false_eq_true, if_false,
      reduceCtorEq]
    exact ⟨hnext, selector_eq h.1, h.2⟩
  case case4 hstate hcount hlow =>
    have hstages : Selected p k stages := by
      have hbefore := h
      simp [hstate, hlow] at hbefore
      exact hbefore.2.2
    have hshift := hstages.next
    simp_all [DigitsAt, shifted]
  all_goals simp_all [DigitsAt, shifted]

/-! ## The segment chain -/

/-- The lowest `n` stages are the highest `n` bits of the pattern of `x`. -/
def Partial (x : BitVec p.numberOfSegments) (n : ℕ) (stages : BitVec p.numberOfSegments) : Prop :=
  ∀ j < n, stages.getLsbD j = (pattern p x).getLsbD (p.numberOfSegments - n + j)

theorem Partial.next {x stages : BitVec p.numberOfSegments} {n : ℕ} (h : Partial x n stages)
    (hn : n < p.numberOfSegments) :
    Partial x (n + 1)
      (stages.shiftConcat ((pattern p x).getLsbD (p.numberOfSegments - 1 - n))) := by
  intro j hj
  rw [BitVec.getLsbD_shiftConcat, decide_eq_true (by omega), Bool.true_and]
  split_ifs with hzero
  · exact congrArg (pattern p x).getLsbD (by omega)
  · rw [h (j - 1) (by omega)]
    exact congrArg (pattern p x).getLsbD (by omega)

theorem Partial.eq {x stages : BitVec p.numberOfSegments}
    (h : Partial x p.numberOfSegments stages) : stages = pattern p x := by
  refine BitVec.eq_of_getLsbD_eq fun j hj => ?_
  rw [h j hj, Nat.sub_self, Nat.zero_add]

theorem msb_shiftLeft {w : ℕ} (x : BitVec w) {n : ℕ} (hn : n < w) :
    (x <<< n).msb = x.getLsbD (w - 1 - n) := by
  rw [BitVec.msb_eq_getLsbD_last, BitVec.getLsbD_shiftLeft, decide_eq_true (by omega),
    decide_eq_false (by omega), Bool.not_false, Bool.true_and, Bool.true_and]

theorem shiftConcat_shiftLeft {w : ℕ} (x : BitVec w) (n : ℕ) :
    (x <<< n).shiftConcat false = x <<< (n + 1) := by
  refine BitVec.eq_of_getLsbD_eq fun j hj => ?_
  rw [BitVec.getLsbD_shiftConcat, BitVec.getLsbD_shiftLeft, BitVec.getLsbD_shiftLeft]
  grind

/-- The shift register of the driver and the segment chain while the sample `x` is shifted. -/
def SegmentsAt (x : BitVec p.numberOfSegments) (s : SegmentLedWithShiftRegs p)
    (stages : BitVec p.numberOfSegments) : Prop :=
  match s.state with
  | .reset | .setupDigit | .holdDigit => True
  | .shiftDigit => s.segmentShiftReg = x
  | .setupSegment => s.segmentShiftReg = x <<< s.segmentsShifted ∧ Partial x s.segmentsShifted stages
  | .shiftSegment =>
    s.segmentShiftReg = x <<< (s.segmentsShifted + 1) ∧
      s.segmentOut.data = (pattern p x).getLsbD (p.numberOfSegments - 1 - s.segmentsShifted) ∧
      Partial x (if s.segmentOut.shiftClock then s.segmentsShifted + 1 else s.segmentsShifted) stages
  | .outputDigit => stages = pattern p x

theorem SegmentsAt.of_output {x : BitVec p.numberOfSegments} {s : SegmentLedWithShiftRegs p}
    {stages : BitVec p.numberOfSegments} (h : SegmentsAt x s stages)
    (hs : s.state = .outputDigit) : stages = pattern p x := by
  unfold SegmentsAt at h
  rw [hs] at h
  exact h

theorem SegmentsAt.step {x : BitVec p.numberOfSegments} {s : SegmentLedWithShiftRegs p}
    {stages : BitVec p.numberOfSegments} (h : SegmentsAt x s stages) (hb : Bounded s)
    (digits : Digits p) (hsetup : s.state ≠ .setupDigit) :
    SegmentsAt x (s.step digits) (shifted s.segmentOut (s.step digits).segmentOut stages) := by
  have hmore := hb.segmentCounter_lt
  have hshifts : s.segmentsShifted < p.numberOfSegments := by
    unfold SegmentLedWithShiftRegs.segmentsShifted
    omega
  unfold SegmentsAt at h
  fun_cases SegmentLedWithShiftRegs.step s digits
  case case3 hstate _ _ =>
    -- the whole sample is ahead
    have hnone : s.segmentsShifted = 0 := by
      have hfull := hb.segmentCounter_eq hstate
      unfold SegmentLedWithShiftRegs.segmentsShifted
      omega
    simp only [hstate] at h
    change s.segmentShiftReg = x <<< s.segmentsShifted ∧ Partial x s.segmentsShifted _
    rw [hnone, h, BitVec.shiftLeft_zero]
    exact ⟨rfl, fun j hj => absurd hj (Nat.not_lt_zero j)⟩
  case case6 hstate =>
    simp only [hstate] at h
    obtain ⟨hreg, hpartial⟩ := h
    change s.segmentShiftReg.shiftConcat false = x <<< (s.segmentsShifted + 1) ∧
      (if s.segmentShiftReg.msb then p.segmentLogic1 else !p.segmentLogic1) =
        (pattern p x).getLsbD (p.numberOfSegments - 1 - s.segmentsShifted) ∧
      Partial x s.segmentsShifted (shifted s.segmentOut _ stages)
    rw [hreg, shiftConcat_shiftLeft, msb_shiftLeft x hshifts, pattern_getLsbD x (by omega)]
    exact ⟨rfl, rfl, by simpa [shifted] using hpartial⟩
  case case7 hstate _ hhigh hlast =>
    -- the last bit is in the chain
    simp only [hstate, hhigh, if_true] at h
    have hall : s.segmentsShifted + 1 = p.numberOfSegments := by
      have hzero := (eq_zero_iff _).mp hlast
      unfold SegmentLedWithShiftRegs.segmentsShifted
      omega
    have hpartial := h.2.2
    rw [hall] at hpartial
    simpa [SegmentsAt, shifted] using hpartial.eq
  case case8 hstate _ hhigh hnext =>
    simp only [hstate, hhigh, if_true] at h
    have hcounter : p.numberOfSegments - 1 - (s.segmentCounter - 1).toNat =
        s.segmentsShifted + 1 := by
      have hpos := toNat_ne_zero hnext
      rw [toNat_pred hnext]
      unfold SegmentLedWithShiftRegs.segmentsShifted
      omega
    change s.segmentShiftReg = x <<< (p.numberOfSegments - 1 - (s.segmentCounter - 1).toNat) ∧
      Partial x (p.numberOfSegments - 1 - (s.segmentCounter - 1).toNat)
        (shifted s.segmentOut _ stages)
    rw [hcounter]
    exact ⟨h.1, by simpa [shifted] using h.2.2⟩
  case case9 hstate _ hlow =>
    simp only [hstate, hlow, Bool.false_eq_true, if_false] at h
    obtain ⟨hreg, hdata, hpartial⟩ := h
    have hnext := hpartial.next hshifts
    rw [← hdata] at hnext
    simp only [SegmentsAt, hstate, shifted, hlow, Bool.not_false, Bool.and_true, if_true]
    exact ⟨hreg, hdata, hnext⟩
  case case10 hstate _ =>
    simp only [hstate] at h
    simp only [SegmentsAt, hstate, shifted, Bool.not_and_self, Bool.false_eq_true, if_false]
    exact h
  all_goals simp_all [SegmentsAt]

/-! ## One clock of the board -/

/-- A digit has been sampled and not yet been latched. -/
def Shifting (s : SegmentLedWithShiftRegs p) : Prop :=
  s.state = .shiftDigit ∨ s.state = .setupSegment ∨ s.state = .shiftSegment ∨
    s.state = .outputDigit

theorem Shifting.not_setup {s : SegmentLedWithShiftRegs p} (h : Shifting s) :
    s.state ≠ .setupDigit := by
  rcases h with h | h | h | h <;> rw [h] <;> nofun

theorem shifting_step {s : SegmentLedWithShiftRegs p} {digits : Digits p}
    (h : Shifting (s.step digits)) :
    s.state = .setupDigit ∨ Shifting s ∧ s.state ≠ .outputDigit := by
  revert h
  unfold Shifting
  fun_cases SegmentLedWithShiftRegs.step s digits <;> simp_all

theorem sample_step {s : SegmentLedWithShiftRegs p} (h : s.state = .setupDigit)
    (digits : Digits p) (stages : BitVec p.numberOfSegments) :
    (s.step digits).state = .shiftDigit ∧
      SegmentsAt (digits.at s.digitIndex.toNat) (s.step digits) stages := by
  simp [SegmentLedWithShiftRegs.step, SegmentsAt, h]

/-- The data do not change in the clock of an edge. -/
theorem data_step (s : SegmentLedWithShiftRegs p) (digits : Digits p) :
    (s.segmentOut.shiftClock = false → (s.step digits).segmentOut.shiftClock = true →
      (s.step digits).segmentOut.data = s.segmentOut.data) ∧
    (s.digitSelector.shiftClock = false → (s.step digits).digitSelector.shiftClock = true →
      (s.step digits).digitSelector.data = s.digitSelector.data) := by
  fun_cases SegmentLedWithShiftRegs.step s digits <;> simp_all

end

/-! ## Every run -/

section
variable (p : Params) (digits : ℕ → Digits p) (segments : Chain p.numberOfSegments)
  (selectors : Chain p.numberOfDigits)

instance : DecidablePred (latchEdge p digits) :=
  fun t => inferInstanceAs (Decidable (Rises _ t))

/-- The board before clock `t`, from any contents of the chains. -/
def board : ℕ → Board p :=
  (boardMachine p).run ⟨.new p, segments, selectors⟩ digits

theorem board_succ (t : ℕ) : board p digits segments selectors (t + 1) =
    (boardMachine p).step (board p digits segments selectors t) (digits t) := rfl

theorem driver_board (t : ℕ) : (board p digits segments selectors t).driver = p.run digits t := by
  induction t with
  | zero => rfl
  | succ t ih => exact congrArg (SegmentLedWithShiftRegs.step · (digits t)) ih

theorem segments_succ (t : ℕ) : (board p digits segments selectors (t + 1)).segments =
    (board p digits segments selectors t).segments.step (p.run digits t).segmentOut
      (p.run digits (t + 1)).segmentOut := by
  rw [board_succ, run_succ, ← driver_board p digits segments selectors]
  rfl

theorem selectors_succ (t : ℕ) : (board p digits segments selectors (t + 1)).selectors =
    (board p digits segments selectors t).selectors.step (p.run digits t).digitSelector
      (p.run digits (t + 1)).digitSelector := by
  rw [board_succ, run_succ, ← driver_board p digits segments selectors]
  rfl

theorem digitsAt_run (t : ℕ) : DigitsAt (Nat.count (latchEdge p digits) t) (p.run digits t)
    (board p digits segments selectors t).selectors.stages := by
  induction t with
  | zero => rfl
  | succ t ih =>
    have hnext := ih.step (bounded_run p digits t) (digits t)
    have hcount : Nat.count (latchEdge p digits) (t + 1) =
        if (p.run digits t).state = .outputDigit then Nat.count (latchEdge p digits) t + 1
        else Nat.count (latchEdge p digits) t := by
      rw [Nat.count_succ, if_congr (latchEdge_iff_state p digits t) rfl rfl]
      split_ifs <;> rfl
    rw [hcount, selectors_succ]
    exact hnext

/-- Clock `s` has taken the sample that is shifted before clock `t`, after `k` edges. -/
structure Sampled (k t s : ℕ) : Prop where
  lt : s < t
  setup : (p.run digits s).state = .setupDigit
  digitIndex : (p.run digits s).digitIndex.toNat = k % p.numberOfDigits
  once : ∀ u, s < u → u ≤ t → (p.run digits u).state ≠ .setupDigit
  quiet : ∀ u, s ≤ u → u < t → ¬ latchEdge p digits u
  segments : SegmentsAt ((digits s).at (k % p.numberOfDigits)) (p.run digits t)
    (board p digits segments selectors t).segments.stages

variable {p digits segments selectors}

/-- The clock in which the digit is set up takes its sample. -/
theorem Sampled.start {t : ℕ} (h : (p.run digits t).state = .setupDigit) :
    Sampled p digits segments selectors (Nat.count (latchEdge p digits) t) (t + 1) t := by
  have hindex : (p.run digits t).digitIndex.toNat =
      Nat.count (latchEdge p digits) t % p.numberOfDigits := by
    have hdigits := digitsAt_run p digits segments selectors t
    unfold DigitsAt at hdigits
    rw [h] at hdigits
    exact hdigits.1
  obtain ⟨hstate, hsegments⟩ :=
    sample_step h (digits t) (board p digits segments selectors (t + 1)).segments.stages
  refine ⟨Nat.lt_succ_self t, h, hindex, ?_, ?_, ?_⟩
  · intro u hlt hle
    have hu : u = t + 1 := by omega
    rw [hu, run_succ, hstate]
    nofun
  · intro u hle hlt
    have hu : u = t := by omega
    rw [hu, latchEdge_iff_state, h]
    nofun
  · rw [← hindex]
    exact hsegments

theorem Sampled.next {k t s : ℕ} (h : Sampled p digits segments selectors k t s)
    (hsetup : (p.run digits t).state ≠ .setupDigit)
    (houtput : (p.run digits t).state ≠ .outputDigit)
    (hshifting : Shifting (p.run digits (t + 1))) :
    Sampled p digits segments selectors k (t + 1) s := by
  refine ⟨Nat.lt_succ_of_lt h.lt, h.setup, h.digitIndex, ?_, ?_, ?_⟩
  · intro u hlt hle
    rcases Nat.lt_or_ge t u with hnew | hold
    · have hu : u = t + 1 := by omega
      rw [hu]
      exact hshifting.not_setup
    · exact h.once u hlt hold
  · intro u hle hlt
    rcases Nat.lt_or_ge u t with hold | hnew
    · exact h.quiet u hle hold
    · have hu : u = t := by omega
      rw [hu, latchEdge_iff_state]
      exact houtput
  · rw [segments_succ]
    exact h.segments.step (bounded_run p digits t) (digits t) hsetup

theorem sampled_run {t : ℕ} (h : Shifting (p.run digits t)) :
    ∃ s, Sampled p digits segments selectors (Nat.count (latchEdge p digits) t) t s := by
  induction t with
  | zero => rcases h with h | h | h | h <;> cases h
  | succ t ih =>
    rw [run_succ] at h
    have hquiet (hstate : (p.run digits t).state ≠ .outputDigit) :
        Nat.count (latchEdge p digits) (t + 1) = Nat.count (latchEdge p digits) t :=
      Nat.count_succ_eq_count fun hedge => hstate ((latchEdge_iff_state p digits t).mp hedge)
    rcases shifting_step h with hsetup | ⟨hbefore, houtput⟩
    · have hother : (p.run digits t).state ≠ .outputDigit :=
        fun hstate => absurd (hsetup.symm.trans hstate) nofun
      rw [hquiet hother]
      exact ⟨t, .start hsetup⟩
    · obtain ⟨s, hs⟩ := ih hbefore
      rw [hquiet houtput]
      exact ⟨s, hs.next hbefore.not_setup houtput h⟩

end

/-- **What the display shows.** Edges of the latches come again and again, those of both chains
together. At the `k`-th one the segment chain has the bits of digit `k mod N`, taken in one
clock since the edge before it, and from the `N`-th one on the selector chain selects that
digit alone. The data of both ports are stable at their shift clocks. -/
theorem digits_shown (p : Params) (digits : ℕ → Digits p) (segments : Chain p.numberOfSegments)
    (selectors : Chain p.numberOfDigits) :
    let board := board p digits segments selectors
    let segmentOut := fun t => (board t).driver.segmentOut
    let digitSelector := fun t => (board t).driver.digitSelector
    let edge := latchEdge p digits
    (edge = Rises (fun t => (segmentOut t).latch) ∧
      edge = Rises fun t => (digitSelector t).latch) ∧
    (∀ t, ∃ u, t ≤ u ∧ edge u) ∧
    (∀ t, Rises (fun t => (segmentOut t).shiftClock) t →
      (segmentOut (t + 1)).data = (segmentOut t).data) ∧
    (∀ t, Rises (fun t => (digitSelector t).shiftClock) t →
      (digitSelector (t + 1)).data = (digitSelector t).data) ∧
    ∀ t, edge t →
      let k := Nat.count (latchEdge p digits) t
      let d : Fin p.numberOfDigits := ⟨k % p.numberOfDigits, Nat.mod_lt k p.digits_pos⟩
      (∃ s < t, (board s).driver.state = .setupDigit ∧ (board s).driver.digitIndex.toNat = d ∧
        (∀ u, s < u → u ≤ t → (board u).driver.state ≠ .setupDigit) ∧
        (∀ u < t, edge u → u < s) ∧
        (board t).segments.stages = pattern p (digits s d)) ∧
      (p.numberOfDigits ≤ k + 1 → ∀ j : Fin p.numberOfDigits,
        (board t).selectors.stages.getLsbD j = p.digitLogic1 ↔ j = d) ∧
      (board (t + 1)).segments.outputs = (board t).segments.stages ∧
      (board (t + 1)).selectors.outputs = (board t).selectors.stages := by
  intro board segmentOut digitSelector edge
  have hdriver : ∀ t, (board t).driver = p.run digits t := driver_board p digits segments selectors
  have hboth : edge = Rises (fun t => (segmentOut t).latch) ∧
      edge = Rises fun t => (digitSelector t).latch := by
    simp only [segmentOut, digitSelector, hdriver]
    exact ⟨rfl, (latchEdge_digitSelector p digits).symm⟩
  have hstable (t : ℕ) := data_step (p.run digits t) (digits t)
  simp only [← hdriver] at hstable
  refine ⟨hboth, ?_, fun t h => (hstable t).1 h.1 h.2, fun t h => (hstable t).2 h.1 h.2, ?_⟩
  · exact recurs_of_mod (by unfold Params.roundClocks; omega) (latchEdge_iff_mod p digits)
  · intro t hedge k d
    have hstate := (latchEdge_iff_state p digits t).mp hedge
    have hselected := (digitsAt_run p digits segments selectors t).of_output hstate
    refine ⟨?_, ?_, ?_, ?_⟩
    · obtain ⟨s, hs⟩ : ∃ s, Sampled p digits segments selectors k t s :=
        sampled_run (.inr (.inr (.inr hstate)))
      have hshown : (board t).segments.stages = pattern p ((digits s).at d) :=
        hs.segments.of_output hstate
      have hdigit : (digits s).at d = digits s d := dif_pos d.isLt
      rw [hdigit] at hshown
      simp only [hdriver]
      refine ⟨s, hs.lt, hs.setup, hs.digitIndex, hs.once, ?_, hshown⟩
      intro u hu hbefore
      by_contra hlate
      exact hs.quiet u (by omega) hu hbefore
    · intro hround j
      rw [hselected.active_iff hround j.isLt, Fin.ext_iff]
    · simp only [board, segments_succ, Chain.step, hedge.1, hedge.2]
      rfl
    · have hselector : Rises (fun t => (p.run digits t).digitSelector.latch) t := by
        rw [latchEdge_digitSelector]
        exact hedge
      simp only [board, selectors_succ, Chain.step, hselector.1, hselector.2]
      rfl

end SeccampRiscvCpu.SegmentChains
