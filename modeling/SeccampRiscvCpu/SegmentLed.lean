import SeccampRiscvCpu.ClockedMachine
import SeccampRiscvCpu.ClockEdges
import SeccampRiscvCpu.WordCounters

/-!
# The driver of the segment display

`SegmentLedWithShiftRegs` shifts the selector of one digit and then its segments into two
chains of shift registers, latches both and holds them until its update counter is zero.
The clocks since the digit was set up are a function of the state that every clock
increases by one, so the length of a round is what it is at the end.
-/
namespace SeccampRiscvCpu.SegmentLed
open ClockedMachine ClockEdges WordCounters

structure ShiftRegisterPort where
  outputEnable : Bool
  shiftClock : Bool
  latch : Bool
  data : Bool
deriving DecidableEq, Repr

structure Params where
  numberOfSegments : ℕ
  numberOfDigits : ℕ
  shiftClockDivider : ℕ
  segmentUpdateDivider : ℕ
  cathodeCommon : Bool
  isOEActiveLow : Bool
  segments_ge : 2 ≤ numberOfSegments
  digits_ge : 2 ≤ numberOfDigits

namespace Params
variable (p : Params)

def segmentUpdateCounterBits : ℕ := Nat.clog 2 p.segmentUpdateDivider
def segmentLogic1 : Bool := p.cathodeCommon
def digitLogic1 : Bool := !p.cathodeCommon
def outputEnableLogic1 : Bool := !p.isOEActiveLow

theorem digits_pos : 0 < p.numberOfDigits := Nat.lt_of_lt_of_le Nat.two_pos p.digits_ge

end Params

inductive State
  | reset
  | setupDigit
  | shiftDigit
  | setupSegment
  | shiftSegment
  | outputDigit
  | holdDigit
deriving DecidableEq, Repr

/-- The registers; those behind the two ports are kept under the names of the ports. -/
structure SegmentLedWithShiftRegs (p : Params) where
  segmentUpdateCounter : BitVec p.segmentUpdateCounterBits
  state : State
  digitIndex : BitVec (Nat.clog 2 p.numberOfDigits)
  segmentCounter : BitVec (Nat.clog 2 p.numberOfSegments)
  shiftClockCounter : BitVec (Nat.clog 2 (p.shiftClockDivider + 1))
  segmentShiftReg : BitVec p.numberOfSegments
  segmentOut : ShiftRegisterPort
  digitSelector : ShiftRegisterPort

/-- `io.digits` -/
abbrev Digits (p : Params) := Fin p.numberOfDigits → BitVec p.numberOfSegments

/-- `io.digits(index)`; the index never leaves the vector. -/
def Digits.at {p : Params} (digits : Digits p) (index : ℕ) : BitVec p.numberOfSegments :=
  if h : index < p.numberOfDigits then digits ⟨index, h⟩ else 0

namespace SegmentLedWithShiftRegs
variable {p : Params}

/-- The registers at reset; the data of the digit selector starts as that of the segments. -/
def new (p : Params) : SegmentLedWithShiftRegs p where
  segmentUpdateCounter := 0
  state := .reset
  digitIndex := 0
  segmentCounter := 0
  shiftClockCounter := 0
  segmentShiftReg := 0
  segmentOut := ⟨!p.outputEnableLogic1, false, false, !p.segmentLogic1⟩
  digitSelector := ⟨!p.outputEnableLogic1, false, false, !p.segmentLogic1⟩

def step (s : SegmentLedWithShiftRegs p) (digits : Digits p) : SegmentLedWithShiftRegs p :=
  match s.state with
  | .reset =>
    { s with
      digitIndex := 0
      segmentCounter := 0
      shiftClockCounter := 0
      segmentOut :=
        { s.segmentOut with latch := false, outputEnable := !p.outputEnableLogic1 }
      digitSelector :=
        { s.digitSelector with latch := false, outputEnable := !p.outputEnableLogic1 }
      state := .setupDigit }
  | .setupDigit =>
    { s with
      segmentOut := { s.segmentOut with latch := false }
      digitSelector :=
        { s.digitSelector with
          latch := false
          data := if s.digitIndex = 0 then p.digitLogic1 else !p.digitLogic1
          shiftClock := false }
      shiftClockCounter := .ofNat _ p.shiftClockDivider
      segmentShiftReg := digits.at s.digitIndex.toNat
      segmentCounter := .ofNat _ (p.numberOfSegments - 1)
      state := .shiftDigit
      digitIndex :=
        if s.digitIndex = .ofNat _ (p.numberOfDigits - 1) then 0 else s.digitIndex + 1 }
  | .shiftDigit =>
    if s.shiftClockCounter = 0 then
      if s.digitSelector.shiftClock then
        { s with
          digitSelector := { s.digitSelector with shiftClock := false }
          shiftClockCounter := .ofNat _ p.shiftClockDivider
          state := .setupSegment }
      else
        { s with
          digitSelector := { s.digitSelector with shiftClock := true }
          shiftClockCounter := .ofNat _ p.shiftClockDivider }
    else { s with shiftClockCounter := s.shiftClockCounter - 1 }
  | .setupSegment =>
    { s with
      segmentOut :=
        { s.segmentOut with
          data := if s.segmentShiftReg.msb then p.segmentLogic1 else !p.segmentLogic1
          shiftClock := false }
      segmentShiftReg := s.segmentShiftReg.shiftConcat false
      shiftClockCounter := .ofNat _ p.shiftClockDivider
      state := .shiftSegment }
  | .shiftSegment =>
    if s.shiftClockCounter = 0 then
      if s.segmentOut.shiftClock then
        if s.segmentCounter = 0 then
          { s with
            segmentOut := { s.segmentOut with shiftClock := false }
            shiftClockCounter := .ofNat _ p.shiftClockDivider
            state := .outputDigit }
        else
          { s with
            segmentOut := { s.segmentOut with shiftClock := false }
            shiftClockCounter := .ofNat _ p.shiftClockDivider
            segmentCounter := s.segmentCounter - 1
            state := .setupSegment }
      else
        { s with
          segmentOut := { s.segmentOut with shiftClock := true }
          shiftClockCounter := .ofNat _ p.shiftClockDivider }
    else { s with shiftClockCounter := s.shiftClockCounter - 1 }
  | .outputDigit =>
    { s with
      segmentOut := { s.segmentOut with latch := true, outputEnable := p.outputEnableLogic1 }
      digitSelector := { s.digitSelector with latch := true, outputEnable := p.outputEnableLogic1 }
      segmentUpdateCounter := .ofNat _ p.segmentUpdateDivider
      state := .holdDigit }
  | .holdDigit =>
    if s.segmentUpdateCounter = 0 then { s with state := .setupDigit }
    else { s with segmentUpdateCounter := s.segmentUpdateCounter - 1 }

end SegmentLedWithShiftRegs

/-! ## What the registers hold -/

section
variable {p : Params}

/-- The driver, showing its ports. -/
def Params.machine (p : Params) :
    Machine (SegmentLedWithShiftRegs p) (Digits p) (ShiftRegisterPort × ShiftRegisterPort) where
  step := SegmentLedWithShiftRegs.step
  emit s _ := [(s.segmentOut, s.digitSelector)]

/-- The state before clock `t` of the run from reset. -/
def Params.run (p : Params) (digits : ℕ → Digits p) : ℕ → SegmentLedWithShiftRegs p :=
  p.machine.run (.new p) digits

/-- What the update counter is after its reload, cut to the width of the register. -/
def Params.updateReload (p : Params) : ℕ :=
  p.segmentUpdateDivider % 2 ^ p.segmentUpdateCounterBits

/-- Every counter is within its reload, and a whole digit is ahead while its selector is
shifted. -/
structure Bounded (s : SegmentLedWithShiftRegs p) : Prop where
  segmentUpdateCounter_le : s.segmentUpdateCounter.toNat ≤ p.updateReload
  digitIndex_lt : s.digitIndex.toNat < p.numberOfDigits
  segmentCounter_lt : s.segmentCounter.toNat < p.numberOfSegments
  shiftClockCounter_le : s.shiftClockCounter.toNat ≤ p.shiftClockDivider
  segmentCounter_eq : s.state = .shiftDigit → s.segmentCounter.toNat + 1 = p.numberOfSegments

/-- The shift clocks and the latches are low but in the states that drive them. -/
structure Levels (s : SegmentLedWithShiftRegs p) : Prop where
  segmentClock : s.segmentOut.shiftClock = true → s.state = .shiftSegment
  digitClock : s.digitSelector.shiftClock = true → s.state = .shiftDigit
  latch : s.segmentOut.latch = true → s.state = .holdDigit ∨ s.state = .setupDigit
  latch_eq : s.digitSelector.latch = s.segmentOut.latch

theorem toNat_ne_zero {w : ℕ} {x : BitVec w} (h : ¬x = 0) : x.toNat ≠ 0 :=
  fun hz => h ((eq_zero_iff x).mpr hz)

theorem toNat_pred {w : ℕ} {x : BitVec w} (h : ¬x = 0) : (x - 1).toNat = x.toNat - 1 :=
  toNat_sub_one (Nat.pos_of_ne_zero (toNat_ne_zero h))

theorem toNat_reloadClock : (BitVec.ofNat (Nat.clog 2 (p.shiftClockDivider + 1))
    p.shiftClockDivider).toNat = p.shiftClockDivider := toNat_literal (Nat.lt_succ_self _)

theorem toNat_lastSegment : (BitVec.ofNat (Nat.clog 2 p.numberOfSegments)
    (p.numberOfSegments - 1)).toNat = p.numberOfSegments - 1 := by
  have hge := p.segments_ge
  exact toNat_literal (by omega)

/-- The next digit, the first one again after the last. -/
theorem toNat_nextDigit {s : SegmentLedWithShiftRegs p}
    (h : s.digitIndex.toNat < p.numberOfDigits) :
    (if s.digitIndex = .ofNat _ (p.numberOfDigits - 1) then 0 else s.digitIndex + 1).toNat =
      (s.digitIndex.toNat + 1) % p.numberOfDigits := by
  have hge := p.digits_ge
  have hlast : (BitVec.ofNat (Nat.clog 2 p.numberOfDigits) (p.numberOfDigits - 1)).toNat =
      p.numberOfDigits - 1 := toNat_literal (by omega)
  split_ifs with heq
  · rw [← BitVec.toNat_inj, hlast] at heq
    have hwrap : s.digitIndex.toNat + 1 = p.numberOfDigits := by omega
    rw [hwrap, Nat.mod_self]
    exact BitVec.toNat_zero
  · rw [← BitVec.toNat_inj, hlast] at heq
    have hnext : s.digitIndex.toNat + 1 < p.numberOfDigits := by omega
    rw [Nat.mod_eq_of_lt hnext, toNat_add_one (lt_two_pow_clog hnext)]

theorem pred_le {w n : ℕ} {x : BitVec w} (h : x.toNat ≤ n) (hx : ¬x = 0) : (x - 1).toNat ≤ n := by
  rw [toNat_pred hx]
  omega

theorem Bounded.new (p : Params) : Bounded (.new p) := by
  have hs := p.segments_ge
  have hd := p.digits_ge
  constructor <;> simp [SegmentLedWithShiftRegs.new] <;> omega

theorem Bounded.step {s : SegmentLedWithShiftRegs p} (h : Bounded s) (digits : Digits p) :
    Bounded (s.step digits) := by
  obtain ⟨hupdate, hdigit, hsegment, hclock, hfull⟩ := h
  have hs := p.segments_ge
  have hd := p.digits_ge
  have hreload := Nat.le_of_eq (toNat_reloadClock (p := p))
  have hlast := toNat_lastSegment (p := p)
  fun_cases SegmentLedWithShiftRegs.step s digits
  · refine ⟨hupdate, ?_, ?_, ?_, nofun⟩ <;> simp <;> omega
  · -- the digit is set up
    refine ⟨hupdate, ?_, ?_, hreload, ?_⟩
    · exact (toNat_nextDigit hdigit).trans_lt (Nat.mod_lt _ (by omega))
    · exact hlast.trans_lt (by omega)
    · intro _
      exact (congrArg (· + 1) hlast).trans (by omega)
  · exact ⟨hupdate, hdigit, hsegment, hreload, nofun⟩
  · exact ⟨hupdate, hdigit, hsegment, hreload, hfull⟩
  · rename_i hwait
    exact ⟨hupdate, hdigit, hsegment, pred_le hclock hwait, hfull⟩
  · exact ⟨hupdate, hdigit, hsegment, hreload, nofun⟩
  · exact ⟨hupdate, hdigit, hsegment, hreload, nofun⟩
  · rename_i hmore
    refine ⟨hupdate, hdigit, ?_, hreload, nofun⟩
    have hpred := pred_le (Nat.le_sub_one_of_lt hsegment) hmore
    exact hpred.trans_lt (by omega)
  · rename_i hstate _ _
    exact ⟨hupdate, hdigit, hsegment, hreload, fun h => absurd (hstate.symm.trans h) nofun⟩
  · rename_i hstate hwait
    exact ⟨hupdate, hdigit, hsegment, pred_le hclock hwait,
      fun h => absurd (hstate.symm.trans h) nofun⟩
  · exact ⟨Nat.le_of_eq (BitVec.toNat_ofNat _ _), hdigit, hsegment, hclock, nofun⟩
  · exact ⟨hupdate, hdigit, hsegment, hclock, nofun⟩
  · rename_i hstate hwait
    exact ⟨pred_le hupdate hwait, hdigit, hsegment, hclock,
      fun h => absurd (hstate.symm.trans h) nofun⟩

theorem Levels.new (p : Params) : Levels (.new p) := by
  constructor <;> simp [SegmentLedWithShiftRegs.new]

theorem Levels.step {s : SegmentLedWithShiftRegs p} (h : Levels s) (digits : Digits p) :
    Levels (s.step digits) := by
  obtain ⟨hsegment, hdigit, hlatch, heq⟩ := h
  fun_cases SegmentLedWithShiftRegs.step s digits <;> constructor <;> simp_all

/-! ## The clocks of a digit -/

/-- The clocks of one bit in a chain: its setup and the two halves of the shift clock. -/
def Params.bitClocks (p : Params) : ℕ := 1 + 2 * (p.shiftClockDivider + 1)

/-- The clocks of a digit up to its latch: its selector and its segments. -/
def Params.shiftClocks (p : Params) : ℕ := p.bitClocks + p.numberOfSegments * p.bitClocks

def Params.roundClocks (p : Params) : ℕ := p.shiftClocks + 1 + (p.updateReload + 1)

/-- The clocks since the setup of a bit, from the shift clock and its counter. -/
def Params.bitElapsed (p : Params) (shiftClock : Bool) (counter : ℕ) : ℕ :=
  1 + (if shiftClock then p.shiftClockDivider + 1 else 0) + (p.shiftClockDivider - counter)

@[simp] theorem bitElapsed_setup : p.bitElapsed false p.shiftClockDivider = 1 := by
  simp [Params.bitElapsed]

@[simp] theorem bitElapsed_rise :
    p.bitElapsed true p.shiftClockDivider = p.bitElapsed false 0 + 1 := by
  simp [Params.bitElapsed]
  omega

theorem bitElapsed_fall : p.bitElapsed true 0 + 1 = p.bitClocks := by
  simp [Params.bitElapsed, Params.bitClocks]
  omega

theorem bitElapsed_wait {shiftClock : Bool} {n : ℕ} (hn : n ≤ p.shiftClockDivider) (h : n ≠ 0) :
    p.bitElapsed shiftClock (n - 1) = p.bitElapsed shiftClock n + 1 := by
  unfold Params.bitElapsed
  omega

theorem bitElapsed_lt {shiftClock : Bool} {n : ℕ} : p.bitElapsed shiftClock n < p.bitClocks := by
  unfold Params.bitElapsed Params.bitClocks
  split_ifs <;> omega

namespace SegmentLedWithShiftRegs
variable (s : SegmentLedWithShiftRegs p)

def segmentsShifted : ℕ := p.numberOfSegments - 1 - s.segmentCounter.toNat

/-- The clocks since the digit was set up; reset counts as the last clock of a round. -/
def elapsed : ℕ :=
  match s.state with
  | .reset => p.roundClocks - 1
  | .setupDigit => 0
  | .shiftDigit => p.bitElapsed s.digitSelector.shiftClock s.shiftClockCounter.toNat
  | .setupSegment => p.bitClocks + s.segmentsShifted * p.bitClocks
  | .shiftSegment =>
    p.bitClocks + s.segmentsShifted * p.bitClocks +
      p.bitElapsed s.segmentOut.shiftClock s.shiftClockCounter.toNat
  | .outputDigit => p.shiftClocks
  | .holdDigit => p.shiftClocks + 1 + (p.updateReload - s.segmentUpdateCounter.toNat)

end SegmentLedWithShiftRegs

section
variable {s : SegmentLedWithShiftRegs p}

theorem shifted_le (h : Bounded s) :
    s.segmentsShifted * p.bitClocks + p.bitClocks ≤ p.numberOfSegments * p.bitClocks := by
  have hlt := h.segmentCounter_lt
  have hle : s.segmentsShifted + 1 ≤ p.numberOfSegments := by
    unfold SegmentLedWithShiftRegs.segmentsShifted
    omega
  have hmul := Nat.mul_le_mul_right p.bitClocks hle
  rwa [Nat.succ_mul] at hmul

/-- The latch is driven in one clock of a round. -/
theorem elapsed_cases (h : Bounded s) : s.elapsed < p.roundClocks ∧
    (s.state = .outputDigit ↔ s.elapsed = p.shiftClocks) := by
  have hbits := shifted_le h
  have hupdate := h.segmentUpdateCounter_le
  have hdigit : p.bitElapsed s.digitSelector.shiftClock s.shiftClockCounter.toNat < p.bitClocks :=
    bitElapsed_lt
  have hsegment : p.bitElapsed s.segmentOut.shiftClock s.shiftClockCounter.toNat < p.bitClocks :=
    bitElapsed_lt
  have hround : p.roundClocks = p.shiftClocks + 1 + (p.updateReload + 1) := rfl
  have hshift : p.shiftClocks = p.bitClocks + p.numberOfSegments * p.bitClocks := rfl
  have hbit : p.bitClocks = 1 + 2 * (p.shiftClockDivider + 1) := rfl
  unfold SegmentLedWithShiftRegs.elapsed
  cases s.state <;> simp <;> omega

open SegmentLedWithShiftRegs in
/-- Every clock is one more since the setup, up to the next one. -/
theorem elapsed_step (h : Bounded s) (digits : Digits p) :
    (s.step digits).elapsed = s.elapsed + 1 ∨
      (s.step digits).elapsed = 0 ∧ s.elapsed + 1 = p.roundClocks := by
  obtain ⟨hupdate, -, hsegment, hclock, hfull⟩ := h
  have hreload := toNat_reloadClock (p := p)
  have hzero {w : ℕ} {x : BitVec w} (hx : x = 0) : x.toNat = 0 := (eq_zero_iff x).mp hx
  fun_cases SegmentLedWithShiftRegs.step s digits with
  | case1 hstate =>
    right
    simp only [elapsed, hstate]
    exact ⟨trivial, Nat.sub_add_cancel (by unfold Params.roundClocks; omega)⟩
  | case2 hstate =>
    left
    simp only [elapsed, hstate, hreload, bitElapsed_setup]
  | case3 hstate hcount hhigh =>
    left
    have hshifted : p.numberOfSegments - 1 - s.segmentCounter.toNat = 0 := by
      have hlast := hfull hstate
      omega
    simp only [elapsed, segmentsShifted, hstate, hzero hcount, hhigh, hshifted, bitElapsed_fall]
    omega
  | case4 hstate hcount hlow =>
    left
    simp only [elapsed, hstate, hreload, hzero hcount, bitElapsed_rise, hlow]
  | case5 hstate hwait =>
    left
    simp only [elapsed, hstate, toNat_pred hwait, bitElapsed_wait hclock (toNat_ne_zero hwait)]
  | case6 hstate =>
    left
    simp only [elapsed, segmentsShifted, hstate, hreload, bitElapsed_setup]
  | case7 hstate hcount hhigh hlast =>
    left
    have hshifted : p.numberOfSegments * p.bitClocks =
        (p.numberOfSegments - 1 - s.segmentCounter.toNat) * p.bitClocks + p.bitClocks := by
      rw [hzero hlast, Nat.sub_zero, ← Nat.succ_mul, Nat.succ_eq_add_one,
        Nat.sub_add_cancel (Nat.zero_lt_of_lt hsegment)]
    simp only [elapsed, segmentsShifted, hstate, hzero hcount, hhigh, Params.shiftClocks, hshifted]
    rw [Nat.add_assoc (_ + _), bitElapsed_fall, Nat.add_assoc]
  | case8 hstate hcount hhigh hmore =>
    left
    have hpos := toNat_ne_zero hmore
    have hshifted : p.numberOfSegments - 1 - (s.segmentCounter.toNat - 1) =
        p.numberOfSegments - 1 - s.segmentCounter.toNat + 1 := by omega
    simp only [elapsed, segmentsShifted, hstate, hzero hcount, hhigh, toNat_pred hmore, hshifted]
    rw [Nat.add_assoc (_ + _), bitElapsed_fall, Nat.succ_mul, Nat.add_assoc]
  | case9 hstate hcount hlow =>
    left
    simp only [elapsed, segmentsShifted, hstate, hreload, hzero hcount, bitElapsed_rise, hlow,
      Nat.add_assoc]
  | case10 hstate hwait =>
    left
    simp only [elapsed, segmentsShifted, hstate, toNat_pred hwait,
      bitElapsed_wait hclock (toNat_ne_zero hwait), Nat.add_assoc]
  | case11 hstate =>
    left
    have hload : (BitVec.ofNat p.segmentUpdateCounterBits p.segmentUpdateDivider).toNat =
      p.updateReload := BitVec.toNat_ofNat _ _
    simp only [elapsed, hstate, hload, Nat.sub_self, Nat.add_zero]
  | case12 hstate hdone =>
    right
    simp only [elapsed, hstate, hzero hdone, Nat.sub_zero, Params.roundClocks, Nat.add_assoc,
      true_and]
  | case13 hstate hwait =>
    left
    have hpos := toNat_ne_zero hwait
    simp only [elapsed, hstate, toNat_pred hwait]
    omega

end

/-! ## The latch edges of a run -/

section
variable (p) (digits : ℕ → Digits p)

theorem bounded_run (t : ℕ) : Bounded (p.run digits t) :=
  p.machine.run_invariant Bounded (.new p) (fun t _ h => h.step (digits t)) t

theorem levels_run (t : ℕ) : Levels (p.run digits t) :=
  p.machine.run_invariant Levels (.new p) (fun t _ h => h.step (digits t)) t

theorem run_succ (t : ℕ) : p.run digits (t + 1) = (p.run digits t).step (digits t) := rfl

theorem elapsed_run (t : ℕ) : ((p.run digits t).elapsed + 1) % p.roundClocks = t % p.roundClocks := by
  induction t with
  | zero =>
    have hlast : (p.run digits 0).elapsed + 1 = p.roundClocks :=
      Nat.sub_add_cancel (by unfold Params.roundClocks; omega)
    rw [hlast, Nat.mod_self, Nat.zero_mod]
  | succ t ih =>
    rw [run_succ]
    rcases elapsed_step (bounded_run p digits t) (digits t) with hnext | ⟨hfirst, hlast⟩
    · rw [hnext]
      exact Nat.add_mod_eq_add_mod_right 1 ih
    · rw [hlast, Nat.mod_self, ← Nat.zero_mod p.roundClocks] at ih
      rw [hfirst]
      exact Nat.add_mod_eq_add_mod_right 1 ih

theorem latch_step {s : SegmentLedWithShiftRegs p} {d : Digits p}
    (h : (s.step d).segmentOut.latch = true) :
    s.segmentOut.latch = true ∨ s.state = .outputDigit := by
  revert h
  fun_cases SegmentLedWithShiftRegs.step s d <;> simp_all

/-- An edge of the latch of the segments. -/
def latchEdge : ℕ → Prop := Rises fun t => (p.run digits t).segmentOut.latch

theorem latchEdge_iff_state (t : ℕ) :
    latchEdge p digits t ↔ (p.run digits t).state = .outputDigit := by
  constructor
  · rintro ⟨hlow, hhigh⟩
    rcases latch_step p hhigh with hbefore | hstate
    · exact absurd (hlow.symm.trans hbefore) Bool.false_ne_true
    · exact hstate
  · intro hstate
    constructor
    · have hlatch := (levels_run p digits t).latch
      rw [hstate] at hlatch
      exact Bool.eq_false_iff.mpr fun hhigh => by simpa using hlatch hhigh
    · change ((p.run digits t).step (digits t)).segmentOut.latch = true
      simp [SegmentLedWithShiftRegs.step, hstate]

/-- Both latches rise in the same clocks. -/
theorem latchEdge_digitSelector :
    Rises (fun t => (p.run digits t).digitSelector.latch) = latchEdge p digits := by
  have hlatch : (fun t => (p.run digits t).digitSelector.latch) =
      fun t => (p.run digits t).segmentOut.latch :=
    funext fun t => (levels_run p digits t).latch_eq
  rw [hlatch]
  rfl

theorem latchEdge_iff_mod (t : ℕ) :
    latchEdge p digits t ↔ t % p.roundClocks = p.shiftClocks + 1 := by
  obtain ⟨hlt, hstate⟩ := elapsed_cases (bounded_run p digits t)
  have hround : p.roundClocks = p.shiftClocks + 1 + (p.updateReload + 1) := rfl
  rw [latchEdge_iff_state, hstate, ← elapsed_run]
  rcases Nat.lt_or_ge ((p.run digits t).elapsed + 1) p.roundClocks with hin | hlast
  · rw [Nat.mod_eq_of_lt hin, Nat.add_left_inj]
  · have heq : (p.run digits t).elapsed + 1 = p.roundClocks := by omega
    rw [heq, Nat.mod_self]
    omega

theorem latchEdge_evenlySpaced_iff (n : ℕ) :
    EvenlySpaced n (latchEdge p digits) ↔ n = p.roundClocks :=
  evenlySpaced_iff (by unfold Params.roundClocks; omega) (latchEdge_iff_mod p digits)

end

/-- A number is kept by a register for the numbers below it unless it is a power of two. -/
theorem mod_two_pow_clog_iff (n : ℕ) : n % 2 ^ Nat.clog 2 n = n ↔ ∀ k, n ≠ 2 ^ k := by
  constructor
  · rintro h k rfl
    rw [Nat.clog_pow 2 k Nat.one_lt_two, Nat.mod_self] at h
    exact (Nat.pow_pos Nat.two_pos).ne h
  · intro h
    exact Nat.mod_eq_of_lt (Nat.lt_of_le_of_ne (Nat.le_pow_clog Nat.one_lt_two n) (h _))

/-- **The time a digit is lit.** The reload of the update counter is one more than what its
register is sized for; it fits unless the divider is a power of two, and then it is zero. -/
theorem latch_evenlySpaced_iff (p : Params) (digits : ℕ → Digits p) :
    let c := p.shiftClockDivider
    let u := p.segmentUpdateDivider
    let period := (1 + 2 * (c + 1)) + p.numberOfSegments * (1 + 2 * (c + 1)) + 1 + (u + 1)
    (EvenlySpaced period (Rises fun t => (p.run digits t).segmentOut.latch) ∧
      EvenlySpaced period (Rises fun t => (p.run digits t).digitSelector.latch)) ↔
    ∀ k, u ≠ 2 ^ k := by
  intro c u period
  have hreload : period = p.roundClocks ↔ p.updateReload = u := by
    have hround : p.roundClocks = p.shiftClocks + 1 + (p.updateReload + 1) := rfl
    have hperiod : period = p.shiftClocks + 1 + (u + 1) := rfl
    omega
  have hedge : (Rises fun t => (p.run digits t).segmentOut.latch) = latchEdge p digits := rfl
  rw [latchEdge_digitSelector, hedge, and_self, latchEdge_evenlySpaced_iff, hreload]
  exact mod_two_pow_clog_iff u

/-- With four for the update divider a round takes seventeen clocks and not twenty-one. -/
theorem latch_divider_four :
    ¬ EvenlySpaced ((1 + 2 * (1 + 1)) + 2 * (1 + 2 * (1 + 1)) + 1 + (4 + 1))
      (Rises fun t =>
        (Params.run ⟨2, 2, 1, 4, true, true, by decide, by decide⟩
          (fun _ _ => 0) t).segmentOut.latch) := by
  have hround : Params.roundClocks ⟨2, 2, 1, 4, true, true, by decide, by decide⟩ = 17 := by
    decide
  intro h
  have hperiod := (latchEdge_evenlySpaced_iff _ _ _).mp h
  rw [hround] at hperiod
  exact absurd hperiod (by decide)

end

end SeccampRiscvCpu.SegmentLed
