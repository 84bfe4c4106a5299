import SeccampRiscvCpu.VideoScanout

/-!
# The timing of the two video sources

`VideoController` and `SimpleTestPatternGenerator` walk over the frame with two nested
counters each. Counters that wrap after `width` clocks and `height` lines stand at the
quotients and remainders of the number of clocks, and enable the data on the active
pixels of the active lines. The generator wraps at the totals, the controller one later.
-/
namespace SeccampRiscvCpu.VideoTiming
open ClockedMachine VideoSignals VideoScanout WordCounters

/-! ## The test pattern generator -/

/-- `n.U - 1.U` -/
def minusOne (n : ℕ) : ℕ := (BitVec.ofNat (max 1 n.size) n - 1).toNat

theorem minusOne_eq {n : ℕ} (h : 0 < n) : minusOne n = n - 1 := by
  have hlt : n < 2 ^ max 1 n.size :=
    Nat.lt_of_lt_of_le (Nat.lt_size_self n) (Nat.pow_le_pow_right (by decide) (Nat.le_max_right _ _))
  have hn : (BitVec.ofNat (max 1 n.size) n).toNat = n := by
    rw [BitVec.toNat_ofNat, Nat.mod_eq_of_lt hlt]
  rw [minusOne, toNat_sub_one (by rwa [hn]), hn]

/-- The counters and the registers of the timing signals; the picture is left out. -/
structure SimpleTestPatternGenerator (p : VideoParams) where
  counterH : BitVec p.countHBits
  counterV : BitVec p.countVBits
  dataEnableReg : Bool
  hSync : Bool
  vSync : Bool
deriving DecidableEq

namespace SimpleTestPatternGenerator
variable {p : VideoParams}

def init (p : VideoParams) : SimpleTestPatternGenerator p := ⟨0, 0, false, true, true⟩

variable (s : SimpleTestPatternGenerator p)

def dataEnable : Bool :=
  (p.activeHLower ≤ s.counterH.toNat && s.counterH.toNat < p.activeHUpper) &&
    (p.activeVLower ≤ s.counterV.toNat && s.counterV.toNat < p.activeVUpper)

def step : SimpleTestPatternGenerator p where
  counterH := if s.counterH.toNat < minusOne p.totalCountsH then s.counterH + 1 else 0
  counterV :=
    if s.counterH.toNat < minusOne p.totalCountsH then s.counterV
    else if s.counterV.toNat < minusOne p.totalCountsV then s.counterV + 1 else 0
  dataEnableReg := s.dataEnable
  hSync := !decide (s.counterH.toNat < p.pulseWidthH)
  vSync := !decide (s.counterV.toNat < p.pulseWidthV)

def machine (p : VideoParams) : Machine (SimpleTestPatternGenerator p) Unit Unit :=
  ⟨fun s _ => s.step, fun _ _ => []⟩

/-- The generator before clock `t`. -/
def run (p : VideoParams) (t : ℕ) : SimpleTestPatternGenerator p :=
  (machine p).run (init p) (fun _ => ()) t

end SimpleTestPatternGenerator

/-! ## What the parameters describe -/

/-- Lines of `width` clocks and frames of `height` lines, with the data enabled on the
parameters' number of clocks of the parameters' number of lines in each frame. -/
structure Timing (p : VideoParams) (width height : ℕ) (counterH counterV : ℕ → ℕ)
    (dataEnable : ℕ → Bool) : Prop where
  line : ∀ t, counterH t = 0 ↔ t % width = 0
  frame : ∀ t, counterH t = 0 ∧ counterV t = 0 ↔ t % (width * height) = 0
  active : ∀ n, ∃ lines ⊆ Finset.range height, lines.card = p.pixelsV ∧ ∀ y < height,
    ((Finset.range width).filter fun x => dataEnable ((n * height + y) * width + x)).card =
      if y ∈ lines then p.pixelsH else 0

/-- Whether a position on the frame is active. -/
def active (p : VideoParams) (x y : ℕ) : Bool :=
  (p.activeHLower ≤ x && x < p.activeHUpper) && (p.activeVLower ≤ y && y < p.activeVUpper)

/-- Counters that wrap there. -/
structure Raster (width height : ℕ) (counterH counterV : ℕ → ℕ) : Prop where
  width_pos : 0 < width
  height_pos : 0 < height
  counterH_eq : ∀ t, counterH t = t % width
  counterV_eq : ∀ t, counterV t = t / width % height

/-- Counters that start at zero and count clocks of a line and lines of a frame. -/
theorem Raster.of_step {width height : ℕ} {counterH counterV : ℕ → ℕ} (hw : 0 < width)
    (hh : 0 < height) (h0 : counterH 0 = 0) (v0 : counterV 0 = 0)
    (hH : ∀ t, counterH t < width →
      counterH (t + 1) = if counterH t + 1 < width then counterH t + 1 else 0)
    (hV : ∀ t, counterH t < width → counterV t < height → counterV (t + 1) =
      if counterH t + 1 < width then counterV t
      else if counterV t + 1 < height then counterV t + 1 else 0) :
    Raster width height counterH counterV := by
  have hrun : ∀ t, counterH t = t % width ∧ counterV t = t / width % height := by
    intro t
    induction t with
    | zero => exact ⟨by rw [h0, Nat.zero_mod], by rw [v0, Nat.zero_div, Nat.zero_mod]⟩
    | succ t ih =>
      obtain ⟨hx, hy⟩ := ih
      have hxlt : counterH t < width := hx ▸ Nat.mod_lt _ hw
      have hylt : counterV t < height := hy ▸ Nat.mod_lt _ hh
      rw [hH t hxlt, hV t hxlt hylt]
      split_ifs with hcol hrow
      · obtain ⟨hdiv, hmod⟩ := rounds_next (k := t) (n := width) (by omega)
        exact ⟨by rw [hmod, hx], by rw [hdiv, hy]⟩
      · obtain ⟨hdiv, hmod⟩ := rounds_wrap (k := t) (n := width) (by omega)
        obtain ⟨-, hmod'⟩ := rounds_next (k := t / width) (n := height) (by omega)
        exact ⟨by rw [hmod], by rw [hdiv, hmod', hy]⟩
      · obtain ⟨hdiv, hmod⟩ := rounds_wrap (k := t) (n := width) (by omega)
        obtain ⟨-, hmod'⟩ := rounds_wrap (k := t / width) (n := height) (by omega)
        exact ⟨by rw [hmod], by rw [hdiv, hmod']⟩
  exact ⟨hw, hh, fun t => (hrun t).1, fun t => (hrun t).2⟩

theorem filter_between {lower upper n : ℕ} (h : upper ≤ n) :
    (Finset.range n).filter (fun x => lower ≤ x ∧ x < upper) = Finset.Ico lower upper := by
  ext x
  rw [Finset.mem_filter, Finset.mem_range, Finset.mem_Ico]
  omega

/-- The active positions of one line. -/
theorem active_line {p : VideoParams} {width : ℕ} (hw : p.activeHUpper ≤ width) (y : ℕ) :
    ((Finset.range width).filter fun x => active p x y = true).card =
      if y ∈ Finset.Ico p.activeVLower p.activeVUpper then p.pixelsH else 0 := by
  by_cases hline : p.activeVLower ≤ y ∧ y < p.activeVUpper
  · have hpixels : ∀ x ∈ Finset.range width, active p x y = true ↔
        p.activeHLower ≤ x ∧ x < p.activeHUpper := by
      intro x _
      simp [active, hline]
    rw [if_pos (Finset.mem_Ico.mpr hline), Finset.filter_congr hpixels, filter_between hw,
      Nat.card_Ico, p.activeHUpper_eq, Nat.add_sub_cancel_left]
  · have hnone : ∀ x ∈ Finset.range width, ¬ active p x y = true := by
      intro x _
      simp [active, hline]
    rw [if_neg (mt Finset.mem_Ico.mp hline), Finset.filter_false_of_mem hnone, Finset.card_empty]

/-- Such counters have the timing, if the active pixels fit. -/
theorem Raster.timing {p : VideoParams} {width height : ℕ} {counterH counterV : ℕ → ℕ}
    {dataEnable : ℕ → Bool} (h : Raster width height counterH counterV)
    (hw : p.activeHUpper ≤ width) (hh : p.activeVUpper ≤ height)
    (henable : ∀ t, dataEnable t = active p (counterH t) (counterV t)) :
    Timing p width height counterH counterV dataEnable := by
  refine ⟨fun t => by rw [h.counterH_eq], ?_, ?_⟩
  · intro t
    rw [h.counterH_eq, h.counterV_eq, Nat.mod_mul, Nat.add_eq_zero_iff, Nat.mul_eq_zero]
    have hw0 := h.width_pos.ne'
    simp only [hw0, false_or]
  · intro n
    refine ⟨Finset.Ico p.activeVLower p.activeVUpper, ?_, ?_, ?_⟩
    · intro y hy
      rw [Finset.mem_Ico] at hy
      exact Finset.mem_range.mpr (by omega)
    · rw [Nat.card_Ico, p.activeVUpper_eq, Nat.add_sub_cancel_left]
    · intro y hy
      have hposition : ∀ x ∈ Finset.range width,
          dataEnable ((n * height + y) * width + x) = true ↔ active p x y = true := by
        intro x hx
        obtain ⟨hdiv, hmod⟩ := rounds_at (n * height + y) (Finset.mem_range.mp hx)
        rw [henable, h.counterH_eq, h.counterV_eq, hmod, hdiv, (rounds_at n hy).2]
      rw [Finset.filter_congr hposition, active_line hw]

/-! ## The two modules -/

section
variable {c : ControllerParams} (vram : ℕ → ℕ → BitVec c.vramPixelBits)
  (disabled : ℕ → BitVec c.vramPixelBits)

/-- The controller before clock `t` after a reset. -/
def controller (t : ℕ) : Scanout c :=
  (Scanout.machine c).run (.init c) (fun t => ⟨false, vram t, disabled t⟩) t

theorem controller_succ (t : ℕ) : controller vram disabled (t + 1) =
    (controller vram disabled t).next ⟨false, vram t, disabled t⟩ := rfl

/-- The controller's frame has one clock in a line and one line more than the totals. -/
theorem controller_raster : Raster (c.videoParams.totalCountsH + 1) (c.videoParams.totalCountsV + 1)
    (fun t => (controller vram disabled t).counterH.toNat)
    (fun t => (controller vram disabled t).counterV.toNat) := by
  refine .of_step (Nat.succ_pos _) (Nat.succ_pos _) BitVec.toNat_zero BitVec.toNat_zero ?_ ?_
  · intro t _
    simp only [controller_succ, next_counterH, Nat.add_lt_add_iff_right]
  · intro t _ _
    simp only [controller_succ, next_counterV, Nat.add_lt_add_iff_right, Scanout.endOfLine]
    split_ifs <;> simp_all

theorem controller_enable (t : ℕ) : (controller vram disabled t).dataEnable =
    active c.videoParams (controller vram disabled t).counterH.toNat
      (controller vram disabled t).counterV.toNat := rfl

theorem controller_output (t : ℕ) : (controller vram disabled (t + 1)).video.dataEnable =
    (controller vram disabled t).dataEnable := rfl

end

section
variable {p : VideoParams}

theorem generator_succ (t : ℕ) : SimpleTestPatternGenerator.run p (t + 1) =
    (SimpleTestPatternGenerator.run p t).step := rfl

/-- The generator's frame has the totals. -/
theorem generator_raster (hw : 0 < p.totalCountsH) (hh : 0 < p.totalCountsV) :
    Raster p.totalCountsH p.totalCountsV
      (fun t => (SimpleTestPatternGenerator.run p t).counterH.toNat)
      (fun t => (SimpleTestPatternGenerator.run p t).counterV.toNat) := by
  refine .of_step hw hh BitVec.toNat_zero BitVec.toNat_zero ?_ ?_
  · intro t hx
    simp only [generator_succ, SimpleTestPatternGenerator.step, minusOne_eq hw,
      Nat.lt_sub_iff_add_lt]
    split_ifs with hcol
    · exact toNat_add_one (lt_two_pow_clog (by omega))
    · exact BitVec.toNat_zero
  · intro t _ hy
    simp only [generator_succ, SimpleTestPatternGenerator.step, minusOne_eq hw, minusOne_eq hh,
      Nat.lt_sub_iff_add_lt]
    split_ifs with hcol hrow
    · rfl
    · exact toNat_add_one (lt_two_pow_clog (by omega))
    · exact BitVec.toNat_zero

theorem generator_enable (t : ℕ) : (SimpleTestPatternGenerator.run p t).dataEnable =
    active p (SimpleTestPatternGenerator.run p t).counterH.toNat
      (SimpleTestPatternGenerator.run p t).counterV.toNat := rfl

theorem generator_output (t : ℕ) : (SimpleTestPatternGenerator.run p (t + 1)).dataEnableReg =
    (SimpleTestPatternGenerator.run p t).dataEnable := rfl

end

/-! ## They disagree -/

section
variable {p : VideoParams} {x y : ℕ}

theorem active_iff : active p x y = true ↔ (p.activeHLower ≤ x ∧ x < p.activeHUpper) ∧
    p.activeVLower ≤ y ∧ y < p.activeVUpper := by
  simp [active]

theorem active_none (h : p.pixelsH = 0 ∨ p.pixelsV = 0) : active p x y = false := by
  rw [← Bool.not_eq_true, active_iff, p.activeHUpper_eq, p.activeVUpper_eq]
  omega

/-- The first active column of line `q` in a raster with the totals. -/
theorem active_first (h : p.activeHLower < p.totalCountsH) (q : ℕ) :
    active p ((q * p.totalCountsH + p.activeHLower) % p.totalCountsH)
      ((q * p.totalCountsH + p.activeHLower) / p.totalCountsH % p.totalCountsV) =
      active p p.activeHLower (q % p.totalCountsV) := by
  obtain ⟨hdiv, hmod⟩ := rounds_at q h
  rw [hdiv, hmod]

/-- An active clock in a raster with one clock and one line more. -/
theorem active_later {t : ℕ} (h : active p (t % (p.totalCountsH + 1))
    (t / (p.totalCountsH + 1) % (p.totalCountsV + 1)) = true) :
    ∃ x y, t = x + (p.totalCountsH * y + y) ∧
      (p.activeHLower ≤ x ∧ x < p.activeHLower + p.pixelsH) ∧
      p.activeVLower ≤ y % (p.totalCountsV + 1) ∧
      y % (p.totalCountsV + 1) < p.activeVLower + p.pixelsV := by
  refine ⟨_, _, ?_, active_iff.mp h⟩
  have hsplit := Nat.mod_add_div t (p.totalCountsH + 1)
  rw [Nat.add_mul, Nat.one_mul] at hsplit
  exact hsplit.symm

/-- A clock that is active in the generator's raster and not in the controller's: the first
active clock of the frame or of its second line, or of the second frame. -/
theorem active_differs (hw : 0 < p.pixelsH) (hh : 0 < p.pixelsV) :
    ∃ t, active p (t % p.totalCountsH) (t / p.totalCountsH % p.totalCountsV) = true ∧
      active p (t % (p.totalCountsH + 1)) (t / (p.totalCountsH + 1) % (p.totalCountsV + 1)) =
        false := by
  have hright := p.activeHUpper_le
  have hbottom := p.activeVUpper_le
  rw [p.activeHUpper_eq] at hright
  rw [p.activeVUpper_eq] at hbottom
  have hstart : p.activeHLower < p.totalCountsH := by omega
  rcases Nat.eq_zero_or_pos p.activeVLower with htop | htop
  · by_cases hone : p.pixelsV = 1
    · -- the only active line is the first one, so the second frame shows the difference
      refine ⟨p.totalCountsV * p.totalCountsH + p.activeHLower, ?_, ?_⟩
      · rw [active_first hstart, active_iff, Nat.mod_self, p.activeHUpper_eq, p.activeVUpper_eq]
        omega
      · rw [← Bool.not_eq_true]
        intro hactive
        obtain ⟨x, y, heq, hx, hy⟩ := active_later hactive
        rw [Nat.mul_comm] at heq
        rcases Nat.eq_zero_or_pos y with rfl | hpos
        · have hmul := Nat.mul_le_mul_left p.totalCountsH (show 1 ≤ p.totalCountsV by omega)
          omega
        · have hround : p.totalCountsV + 1 ≤ y :=
            Nat.le_of_dvd hpos (Nat.dvd_of_mod_eq_zero (by omega))
          have hmul := Nat.mul_le_mul_left p.totalCountsH hround
          rw [Nat.mul_succ] at hmul
          omega
    · -- the second line is active too, and starts a clock late
      refine ⟨1 * p.totalCountsH + p.activeHLower, ?_, ?_⟩
      · rw [active_first hstart, active_iff, Nat.mod_eq_of_lt (by omega), p.activeHUpper_eq,
          p.activeVUpper_eq]
        omega
      · rw [← Bool.not_eq_true]
        intro hactive
        obtain ⟨x, y, heq, hx, -⟩ := active_later hactive
        rcases Nat.eq_zero_or_pos y with rfl | hy
        · omega
        · have hmul := Nat.mul_le_mul_left p.totalCountsH hy
          omega
  · -- the lines before the first active one have taken a clock each
    refine ⟨p.activeVLower * p.totalCountsH + p.activeHLower, ?_, ?_⟩
    · rw [active_first hstart, active_iff, Nat.mod_eq_of_lt (by omega), p.activeHUpper_eq,
        p.activeVUpper_eq]
      omega
    · rw [← Bool.not_eq_true]
      intro hactive
      obtain ⟨x, y, heq, hx, hy⟩ := active_later hactive
      have hle := Nat.mod_le y (p.totalCountsV + 1)
      have hmul := Nat.mul_le_mul_left p.totalCountsH (hy.1.trans hle)
      rw [Nat.mul_comm] at hmul
      omega

end

section
variable {c : ControllerParams} (vram : ℕ → ℕ → BitVec c.vramPixelBits)
  (disabled : ℕ → BitVec c.vramPixelBits)

theorem controller_timing : Timing c.videoParams (c.videoParams.totalCountsH + 1)
    (c.videoParams.totalCountsV + 1) (fun t => (controller vram disabled t).counterH.toNat)
    (fun t => (controller vram disabled t).counterV.toNat)
    (fun t => (controller vram disabled t).dataEnable) :=
  (controller_raster vram disabled).timing (Nat.le_succ_of_le c.videoParams.activeHUpper_le)
    (Nat.le_succ_of_le c.videoParams.activeVUpper_le) (controller_enable vram disabled)

theorem generator_timing {p : VideoParams} (hw : 0 < p.totalCountsH) (hh : 0 < p.totalCountsV) :
    Timing p p.totalCountsH p.totalCountsV
      (fun t => (SimpleTestPatternGenerator.run p t).counterH.toNat)
      (fun t => (SimpleTestPatternGenerator.run p t).counterV.toNat)
      (fun t => (SimpleTestPatternGenerator.run p t).dataEnable) :=
  (generator_raster hw hh).timing p.activeHUpper_le p.activeVUpper_le generator_enable

/-- Both outputs follow the active positions one clock later. -/
theorem outputs_agree_iff :
    (∀ t, (controller vram disabled t).video.dataEnable =
      (SimpleTestPatternGenerator.run c.videoParams t).dataEnableReg) ↔
    ∀ t, (controller vram disabled t).dataEnable =
      (SimpleTestPatternGenerator.run c.videoParams t).dataEnable := by
  constructor
  · intro h t
    rw [← controller_output, ← generator_output]
    exact h (t + 1)
  · intro h t
    cases t with
    | zero => rfl
    | succ t => rw [controller_output, generator_output, h t]

theorem enables_agree_iff :
    (∀ t, (controller vram disabled t).dataEnable =
      (SimpleTestPatternGenerator.run c.videoParams t).dataEnable) ↔
    c.videoParams.pixelsH = 0 ∨ c.videoParams.pixelsV = 0 := by
  constructor
  · intro h
    by_contra hpixels
    have hw : 0 < c.videoParams.pixelsH := by omega
    have hh : 0 < c.videoParams.pixelsV := by omega
    have hright := c.videoParams.activeHUpper_le
    have hbottom := c.videoParams.activeVUpper_le
    rw [c.videoParams.activeHUpper_eq] at hright
    rw [c.videoParams.activeVUpper_eq] at hbottom
    have hg := generator_raster (p := c.videoParams) (by omega) (by omega)
    have hc := controller_raster vram disabled
    obtain ⟨t, hon, hoff⟩ := active_differs hw hh
    rw [← hg.counterH_eq, ← hg.counterV_eq, ← generator_enable] at hon
    rw [← hc.counterH_eq, ← hc.counterV_eq, ← controller_enable, h t, hon] at hoff
    cases hoff
  · intro h t
    rw [controller_enable, generator_enable, active_none h, active_none h]

/-- The controller never has the timing of its parameters: its lines are one clock and its
frames one line longer, and it enables the data with the generator only if there is
nothing to show. -/
theorem timing_missed :
    (Timing c.videoParams (c.videoParams.totalCountsH + 1) (c.videoParams.totalCountsV + 1)
      (fun t => (controller vram disabled t).counterH.toNat)
      (fun t => (controller vram disabled t).counterV.toNat)
      (fun t => (controller vram disabled t).dataEnable)) ∧
    ¬ Timing c.videoParams c.videoParams.totalCountsH c.videoParams.totalCountsV
      (fun t => (controller vram disabled t).counterH.toNat)
      (fun t => (controller vram disabled t).counterV.toNat)
      (fun t => (controller vram disabled t).dataEnable) ∧
    ((∀ t, (controller vram disabled t).video.dataEnable =
      (SimpleTestPatternGenerator.run c.videoParams t).dataEnableReg) ↔
      c.videoParams.pixelsH = 0 ∨ c.videoParams.pixelsV = 0) := by
  have hc := controller_raster vram disabled
  refine ⟨controller_timing vram disabled, ?_,
    (outputs_agree_iff vram disabled).trans (enables_agree_iff vram disabled)⟩
  intro h
  -- the clock behind the last one of the described line is still in the first line
  have hline := hc.counterH_eq c.videoParams.totalCountsH
  rw [Nat.mod_eq_of_lt (Nat.lt_succ_self _)] at hline
  have hzero := (h.line c.videoParams.totalCountsH).mpr (Nat.mod_self _)
  have hone := (h.line 1).mp
  rcases Nat.eq_zero_or_pos c.videoParams.totalCountsH with hw | hw
  · -- a line of no clocks never starts again
    have hcounter := hc.counterH_eq 1
    rw [hw] at hone hcounter
    exact absurd (hone hcounter) (by decide)
  · omega

/-- In the first line of the controller in `TopWithHDMI` the counter reaches 1650, and the
first pixel of the frame is late. -/
theorem timing_missed_topWithHDMI :
    (controller (c := topWithHDMI) (fun _ _ => 0) (fun _ => 0) 1650).counterH.toNat = 1650 ∧
    (controller (c := topWithHDMI) (fun _ _ => 0) (fun _ => 0) 41511).video.dataEnable = false ∧
    (SimpleTestPatternGenerator.run topWithHDMI.videoParams 41511).dataEnableReg = true ∧
    ¬ Timing topWithHDMI.videoParams 1650 750
      (fun t => (controller (c := topWithHDMI) (fun _ _ => 0) (fun _ => 0) t).counterH.toNat)
      (fun t => (controller (c := topWithHDMI) (fun _ _ => 0) (fun _ => 0) t).counterV.toNat)
      (fun t => (controller (c := topWithHDMI) (fun _ _ => 0) (fun _ => 0) t).dataEnable) := by
  have hc := controller_raster (c := topWithHDMI) (fun _ _ => 0) (fun _ => 0)
  have hg := generator_raster (p := topWithHDMI.videoParams) (by decide) (by decide)
  have hlong := hc.counterH_eq 1650
  refine ⟨hlong, ?_, ?_, ?_⟩
  · refine (controller_output _ _ 41510).trans ?_
    rw [controller_enable, hc.counterH_eq, hc.counterV_eq]
    decide
  · refine (generator_output 41510).trans ?_
    rw [generator_enable, hg.counterH_eq, hg.counterV_eq]
    decide
  · intro h
    have hzero := (h.line 1650).mpr (by decide)
    exact absurd (hlong.symm.trans hzero) (by decide)

end

end SeccampRiscvCpu.VideoTiming
