import SeccampRiscvCpu.VideoTiming

/-!
# The address of the pixel that is scanned out

The controller builds the address of a pixel step by step, with a counter for each
magnification, a base for the line and returns at the ends of lines and frames. On every
position of the frame, blanking included, the address is that of the next pixel to show.
-/
namespace SeccampRiscvCpu.VideoAddress
open ClockedMachine VideoSignals VideoScanout VideoTiming WordCounters

/-! ## A magnified picture -/

/-- The cell behind column `x` and row `y` of a picture of `width` cells a row, each shown
on `rateH` columns and `rateV` rows. -/
def cell (rateH rateV width x y : ℕ) : ℕ := y / rateV * width + x / rateH

theorem cell_zero (rateH rateV width y : ℕ) : cell rateH rateV width 0 y = y / rateV * width := by
  rw [cell, Nat.zero_div, Nat.add_zero]

theorem cell_lt {rateH rateV pixelsH pixelsV x y : ℕ} (hH : rateH ∣ pixelsH)
    (hV : rateV ∣ pixelsV) (hx : x < pixelsH) (hy : y < pixelsV) :
    cell rateH rateV (pixelsH / rateH) x y < pixelsH / rateH * (pixelsV / rateV) := by
  have hcol : x / rateH < pixelsH / rateH := Nat.div_lt_div_of_lt_of_dvd hH hx
  have hrow : y / rateV < pixelsV / rateV := Nat.div_lt_div_of_lt_of_dvd hV hy
  calc cell rateH rateV (pixelsH / rateH) x y
      < y / rateV * (pixelsH / rateH) + pixelsH / rateH := Nat.add_lt_add_left hcol _
    _ = (y / rateV + 1) * (pixelsH / rateH) := (Nat.succ_mul _ _).symm
    _ ≤ pixelsV / rateV * (pixelsH / rateH) := Nat.mul_le_mul_right _ hrow
    _ = pixelsH / rateH * (pixelsV / rateV) := Nat.mul_comm _ _

/-- A counter that returns to zero after `rate` counts, and the number of its returns. -/
theorem magnified_next {rate : ℕ} (h : 0 < rate) (k : ℕ) :
    (k + 1) / rate = (if k % rate = rate - 1 then k / rate + 1 else k / rate) ∧
      (k + 1) % rate = if k % rate = rate - 1 then 0 else k % rate + 1 := by
  have hlt := Nat.mod_lt k h
  split_ifs with hlast
  · exact rounds_wrap (by omega)
  · exact rounds_next (by omega)

/-! ## The positions -/

section
variable (p : VideoParams)

/-- The active lines before line `v`. -/
def linesBefore (v : ℕ) : ℕ := min (v - p.activeVLower) p.pixelsV

/-- The active pixels of line `v` before position `h`. -/
def pixelsBefore (h v : ℕ) : ℕ :=
  if p.activeVLower ≤ v ∧ v < p.activeVUpper then min (h - p.activeHLower) p.pixelsH else 0

variable {p} {h v : ℕ}

theorem linesBefore_active {y : ℕ} (hy : y < p.pixelsV) :
    linesBefore p (p.activeVLower + y) = y := by
  rw [linesBefore, Nat.add_sub_cancel_left, Nat.min_eq_left (Nat.le_of_lt hy)]

theorem linesBefore_succ : linesBefore p (v + 1) =
    if p.activeVLower ≤ v ∧ v < p.activeVUpper then linesBefore p v + 1
    else linesBefore p v := by
  rw [linesBefore, linesBefore, p.activeVUpper_eq]
  by_cases hline : p.activeVLower ≤ v ∧ v < p.activeVLower + p.pixelsV
  · rw [if_pos hline]
    omega
  · rw [if_neg hline]
    omega

theorem linesBefore_zero : linesBefore p 0 = 0 := by
  simp [linesBefore]

theorem linesBefore_last : linesBefore p p.totalCountsV = p.pixelsV := by
  have hle := p.activeVUpper_le
  rw [p.activeVUpper_eq] at hle
  rw [linesBefore]
  omega

theorem pixelsBefore_active {x y : ℕ} (hx : x < p.pixelsH) (hy : y < p.pixelsV) :
    pixelsBefore p (p.activeHLower + x) (p.activeVLower + y) = x := by
  have hline : p.activeVLower ≤ p.activeVLower + y ∧ p.activeVLower + y < p.activeVUpper := by
    rw [p.activeVUpper_eq]
    omega
  rw [pixelsBefore, if_pos hline, Nat.add_sub_cancel_left, Nat.min_eq_left (Nat.le_of_lt hx)]

theorem pixelsBefore_succ : pixelsBefore p (h + 1) v =
    if (p.activeHLower ≤ h ∧ h < p.activeHUpper) ∧ p.activeVLower ≤ v ∧ v < p.activeVUpper then
      pixelsBefore p h v + 1
    else pixelsBefore p h v := by
  rw [pixelsBefore, pixelsBefore, p.activeHUpper_eq]
  by_cases hline : p.activeVLower ≤ v ∧ v < p.activeVUpper
  · rw [if_pos hline, if_pos hline]
    by_cases hpixel : p.activeHLower ≤ h ∧ h < p.activeHLower + p.pixelsH
    · rw [if_pos ⟨hpixel, hline⟩]
      omega
    · rw [if_neg fun hon => hpixel hon.1]
      omega
  · rw [if_neg hline, if_neg hline, if_neg fun hon => hline hon.2]

theorem pixelsBefore_zero : pixelsBefore p 0 v = 0 := by
  simp [pixelsBefore]

/-- At the end of a line all its pixels are shown. -/
theorem pixelsBefore_last : pixelsBefore p p.totalCountsH v =
    if p.activeVLower ≤ v ∧ v < p.activeVUpper then p.pixelsH else 0 := by
  have hle := p.activeHUpper_le
  rw [p.activeHUpper_eq] at hle
  by_cases hline : p.activeVLower ≤ v ∧ v < p.activeVUpper
  · rw [pixelsBefore, if_pos hline, if_pos hline]
    omega
  · rw [pixelsBefore, if_neg hline, if_neg hline]

end

/-! ## The address registers -/

section
variable {c : ControllerParams} {s : Scanout c}

/-- The address of the pixel at column `x` and line `y`. -/
def pixelCell (c : ControllerParams) (x y : ℕ) : ℕ :=
  cell c.magnificationRateH c.magnificationRateV c.vramPixelsH x y

/-- The counters are on the frame and the addresses fit to them. The registers are compared
at their own width: behind the last line the address may wrap. -/
structure Addressed (s : Scanout c) : Prop extends OnFrame s where
  lineAddress_eq : s.lineAddress =
    .ofNat _ (pixelCell c 0 (linesBefore c.videoParams s.counterV.toNat))
  pixelAddress_eq : s.pixelAddress =
    .ofNat _ (pixelCell c (pixelsBefore c.videoParams s.counterH.toNat s.counterV.toNat)
      (linesBefore c.videoParams s.counterV.toNat))
  magnificationCounterH_eq : s.magnificationCounterH.toNat =
    pixelsBefore c.videoParams s.counterH.toNat s.counterV.toNat % c.magnificationRateH
  magnificationCounterV_eq : s.magnificationCounterV.toNat =
    linesBefore c.videoParams s.counterV.toNat % c.magnificationRateV

theorem addressed_init : Addressed (Scanout.init c) := by
  constructor
  · exact onFrame_init
  · simp [Scanout.init, linesBefore, pixelCell, cell]
  · simp [Scanout.init, linesBefore, pixelsBefore, pixelCell, cell]
  · simp [Scanout.init, pixelsBefore]
  · simp [Scanout.init, linesBefore]

theorem activeV_iff : s.activeV = true ↔ c.videoParams.activeVLower ≤ s.counterV.toNat ∧
    s.counterV.toNat < c.videoParams.activeVUpper := by
  simp [Scanout.activeV]

theorem dataEnable_iff : s.dataEnable = true ↔
    (c.videoParams.activeHLower ≤ s.counterH.toNat ∧ s.counterH.toNat < c.videoParams.activeHUpper) ∧
      c.videoParams.activeVLower ≤ s.counterV.toNat ∧
      s.counterV.toNat < c.videoParams.activeVUpper := by
  simp [Scanout.dataEnable, Scanout.activeH, Scanout.activeV]

theorem endOfLine_iff (h : OnFrame s) :
    s.endOfLine = true ↔ s.counterH.toNat = c.videoParams.totalCountsH := by
  have hle := h.counterH_le
  simp only [Scanout.endOfLine, Bool.not_eq_true', decide_eq_false_iff_not]
  omega

theorem pixelCell_next (h : 0 < c.magnificationRateH) (x y : ℕ) : pixelCell c (x + 1) y =
    if x % c.magnificationRateH = c.magnificationRateH - 1 then pixelCell c x y + 1
    else pixelCell c x y := by
  simp only [pixelCell, cell, (magnified_next h x).1]
  split_ifs <;> rfl

theorem pixelCell_nextLine (h : 0 < c.magnificationRateV) (y : ℕ) : pixelCell c 0 (y + 1) =
    if y % c.magnificationRateV = c.magnificationRateV - 1 then pixelCell c 0 y + c.vramPixelsH
    else pixelCell c 0 y := by
  simp only [pixelCell, cell_zero, (magnified_next h y).1]
  split_ifs
  · exact Nat.succ_mul _ _
  · rfl

/-- A magnification counter, one count later. -/
theorem counter_next {rate : ℕ} {k k' : BitVec (Nat.clog 2 rate)} (h : 0 < rate)
    (hnext : k' = if k.toNat = rate - 1 then 0 else k + 1) (hlt : k.toNat < rate) :
    k'.toNat = if k.toNat = rate - 1 then 0 else k.toNat + 1 := by
  rw [hnext]
  split_ifs
  · exact BitVec.toNat_zero
  · exact toNat_add_one (lt_two_pow_clog (by omega))

/-- Within a line only the pixel moves, on the active positions. -/
theorem Addressed.next_within (h : Addressed s) (hH : c.magnificationRateH ∣ c.videoParams.pixelsH)
    (i : Inputs c) (hmore : s.counterH.toNat < c.videoParams.totalCountsH) :
    Addressed (s.next i) := by
  have hend : s.endOfLine = false := by
    rw [← Bool.not_eq_true, endOfLine_iff h.toOnFrame]
    omega
  have hframe : s.endOfFrame = false := by simp [Scanout.endOfFrame, hend]
  have hcounterH : (s.next i).counterH.toNat = s.counterH.toNat + 1 := by
    rw [next_counterH, if_pos hmore]
  have hcounterV : (s.next i).counterV.toNat = s.counterV.toNat := by
    rw [next_counterV, hend]
    rfl
  have hline : (s.next i).lineAddress = s.lineAddress := by simp [Scanout.next, hend, hframe]
  have hmagV : (s.next i).magnificationCounterV = s.magnificationCounterV := by
    simp [Scanout.next, hend]
  have hpos : c.videoParams.activeHLower ≤ s.counterH.toNat ∧
      s.counterH.toNat < c.videoParams.activeHUpper → 0 < c.magnificationRateH := by
    intro hactive
    rw [c.videoParams.activeHUpper_eq] at hactive
    exact Nat.pos_of_dvd_of_pos hH (by omega)
  refine ⟨h.toOnFrame.next i, ?_, ?_, ?_, ?_⟩
  · rw [hline, hcounterV, h.lineAddress_eq]
  · rw [hcounterH, hcounterV, pixelsBefore_succ]
    by_cases hon : s.dataEnable
    · have hactive := dataEnable_iff.mp hon
      have haddress : (s.next i).pixelAddress =
          if s.magnificationCounterH.toNat = c.magnificationRateH - 1 then s.pixelAddress + 1
          else s.pixelAddress := by
        simp [Scanout.next, hend, hframe, hon]
      rw [haddress, h.magnificationCounterH_eq, if_pos hactive, pixelCell_next (hpos hactive.1),
        h.pixelAddress_eq]
      split_ifs
      · exact (BitVec.ofNat_add ..).symm
      · rfl
    · have haddress : (s.next i).pixelAddress = s.pixelAddress := by
        simp [Scanout.next, hend, hframe, hon]
      rw [haddress, if_neg fun hactive => hon (dataEnable_iff.mpr hactive), h.pixelAddress_eq]
  · rw [hcounterH, hcounterV, pixelsBefore_succ]
    by_cases hon : s.dataEnable
    · have hactive := dataEnable_iff.mp hon
      rw [if_pos hactive, (magnified_next (hpos hactive.1) _).2, ← h.magnificationCounterH_eq]
      exact counter_next (hpos hactive.1) (by simp [Scanout.next, hon])
        (h.magnificationCounterH_eq ▸ Nat.mod_lt _ (hpos hactive.1))
    · have hmagH : (s.next i).magnificationCounterH = s.magnificationCounterH := by
        simp [Scanout.next, hon]
      rw [hmagH, if_neg fun hactive => hon (dataEnable_iff.mpr hactive), h.magnificationCounterH_eq]
  · rw [hmagV, hcounterV, h.magnificationCounterV_eq]

/-- At the end of an active line the address goes to the next line or back to this one. -/
theorem Addressed.next_line (h : Addressed s) (hH : c.magnificationRateH ∣ c.videoParams.pixelsH)
    (hV : c.magnificationRateV ∣ c.videoParams.pixelsV) (i : Inputs c)
    (hend : s.endOfLine = true) (hactive : s.activeV = true) : Addressed (s.next i) := by
  have hlast := (endOfLine_iff h.toOnFrame).mp hend
  have hline := activeV_iff.mp hactive
  have hmore : s.counterV.toNat < c.videoParams.totalCountsV :=
    Nat.lt_of_lt_of_le hline.2 c.videoParams.activeVUpper_le
  have hframe : s.endOfFrame = false := by simp [Scanout.endOfFrame, hmore]
  have hoff : s.dataEnable = false := by
    rw [← Bool.not_eq_true, dataEnable_iff]
    have hle := c.videoParams.activeHUpper_le
    omega
  have hpos : 0 < c.magnificationRateV := by
    rw [c.videoParams.activeVUpper_eq] at hline
    exact Nat.pos_of_dvd_of_pos hV (by omega)
  have hcounterH : (s.next i).counterH.toNat = 0 := by
    rw [next_counterH, if_neg (by omega)]
  have hcounterV : (s.next i).counterV.toNat = s.counterV.toNat + 1 := by
    rw [next_counterV, if_pos hend, if_pos hmore]
  have haddress : s.nextLineAddress = .ofNat _ (pixelCell c 0
      (linesBefore c.videoParams s.counterV.toNat + 1)) := by
    rw [Scanout.nextLineAddress, h.magnificationCounterV_eq, h.lineAddress_eq,
      pixelCell_nextLine hpos]
    split_ifs
    · exact (BitVec.ofNat_add ..).symm
    · rfl
  refine ⟨h.toOnFrame.next i, ?_, ?_, ?_, ?_⟩
  · have hnext : (s.next i).lineAddress = s.nextLineAddress := by
      simp [Scanout.next, hframe, hactive, hend]
    rw [hnext, haddress, hcounterV, linesBefore_succ, if_pos hline]
  · have hnext : (s.next i).pixelAddress = s.nextLineAddress := by
      simp [Scanout.next, hframe, hactive, hend]
    rw [hnext, haddress, hcounterV, hcounterH, pixelsBefore_zero, linesBefore_succ, if_pos hline]
  · -- the whole line is a multiple of the rate
    have hnext : (s.next i).magnificationCounterH = s.magnificationCounterH := by
      simp [Scanout.next, hoff]
    rw [hnext, h.magnificationCounterH_eq, hcounterH, hlast, pixelsBefore_last, if_pos hline,
      pixelsBefore_zero, Nat.mod_eq_zero_of_dvd hH, Nat.zero_mod]
  · rw [hcounterV, linesBefore_succ, if_pos hline, (magnified_next hpos _).2,
      ← h.magnificationCounterV_eq]
    exact counter_next hpos (by simp [Scanout.next, hactive, hend])
      (h.magnificationCounterV_eq ▸ Nat.mod_lt _ hpos)

/-- At the end of a line of the blanking nothing changes, until the frame ends. -/
theorem Addressed.next_blank (h : Addressed s) (hV : c.magnificationRateV ∣ c.videoParams.pixelsV)
    (i : Inputs c) (hend : s.endOfLine = true) (hblank : s.activeV = false) :
    Addressed (s.next i) := by
  have hlast := (endOfLine_iff h.toOnFrame).mp hend
  have hline : ¬ (c.videoParams.activeVLower ≤ s.counterV.toNat ∧
      s.counterV.toNat < c.videoParams.activeVUpper) := by
    rw [← activeV_iff, hblank]
    decide
  have hoff : s.dataEnable = false := by simp [Scanout.dataEnable, hblank]
  have hcounterH : (s.next i).counterH.toNat = 0 := by
    rw [next_counterH, if_neg (by omega)]
  have hmagH : (s.next i).magnificationCounterH = s.magnificationCounterH := by
    simp [Scanout.next, hoff]
  have hmagV : (s.next i).magnificationCounterV = s.magnificationCounterV := by
    simp [Scanout.next, hblank]
  have hpixels : pixelsBefore c.videoParams s.counterH.toNat s.counterV.toNat = 0 := by
    rw [pixelsBefore, if_neg hline]
  by_cases hmore : s.counterV.toNat < c.videoParams.totalCountsV
  · have hframe : s.endOfFrame = false := by simp [Scanout.endOfFrame, hmore]
    have hcounterV : (s.next i).counterV.toNat = s.counterV.toNat + 1 := by
      rw [next_counterV, if_pos hend, if_pos hmore]
    refine ⟨h.toOnFrame.next i, ?_, ?_, ?_, ?_⟩
    · have hnext : (s.next i).lineAddress = s.lineAddress := by
        simp [Scanout.next, hframe, hblank]
      rw [hnext, h.lineAddress_eq, hcounterV, linesBefore_succ, if_neg hline]
    · have hnext : (s.next i).pixelAddress = s.pixelAddress := by
        simp [Scanout.next, hframe, hblank, hoff]
      rw [hnext, h.pixelAddress_eq, hpixels, hcounterH, hcounterV, pixelsBefore_zero,
        linesBefore_succ, if_neg hline]
    · rw [hmagH, h.magnificationCounterH_eq, hpixels, hcounterH, pixelsBefore_zero]
    · rw [hmagV, h.magnificationCounterV_eq, hcounterV, linesBefore_succ, if_neg hline]
  · have hbottom : s.counterV.toNat = c.videoParams.totalCountsV := by
      have hle := h.counterV_le
      omega
    have hframe : s.endOfFrame = true := by simp [Scanout.endOfFrame, hend, hmore]
    have hcounterV : (s.next i).counterV.toNat = 0 := by
      rw [next_counterV, if_pos hend, if_neg hmore]
    refine ⟨h.toOnFrame.next i, ?_, ?_, ?_, ?_⟩
    · have hnext : (s.next i).lineAddress = 0 := by simp [Scanout.next, hframe]
      rw [hnext, hcounterV, linesBefore_zero]
      simp [pixelCell, cell]
    · have hnext : (s.next i).pixelAddress = 0 := by simp [Scanout.next, hframe]
      rw [hnext, hcounterH, hcounterV, linesBefore_zero, pixelsBefore_zero]
      simp [pixelCell, cell]
    · rw [hmagH, h.magnificationCounterH_eq, hpixels, hcounterH, pixelsBefore_zero]
    · -- all the active lines are a multiple of the rate
      rw [hmagV, h.magnificationCounterV_eq, hbottom, linesBefore_last, hcounterV, linesBefore_zero,
        Nat.mod_eq_zero_of_dvd hV, Nat.zero_mod]

theorem Addressed.next (h : Addressed s) (hH : c.magnificationRateH ∣ c.videoParams.pixelsH)
    (hV : c.magnificationRateV ∣ c.videoParams.pixelsV) (i : Inputs c) : Addressed (s.next i) := by
  by_cases hmore : s.counterH.toNat < c.videoParams.totalCountsH
  · exact h.next_within hH i hmore
  · have hle := h.counterH_le
    have hend : s.endOfLine = true := (endOfLine_iff h.toOnFrame).mpr (by omega)
    cases hactive : s.activeV with
    | true => exact h.next_line hH hV i hend hactive
    | false => exact h.next_blank hV i hend hactive

theorem Addressed.run (h : Addressed s) (hH : c.magnificationRateH ∣ c.videoParams.pixelsH)
    (hV : c.magnificationRateV ∣ c.videoParams.pixelsV) (input : ℕ → Inputs c) (t : ℕ) :
    Addressed ((Scanout.machine c).run s input t) := by
  refine Machine.run_invariant _ Addressed h ?_ t
  intro t s h
  simp only [Scanout.machine, Scanout.step]
  split_ifs
  · exact addressed_init
  · exact h.next hH hV _

/-- On an active position the address is that of the pixel, and in the memory. -/
theorem Addressed.active (h : Addressed s) (hH : c.magnificationRateH ∣ c.videoParams.pixelsH)
    (hV : c.magnificationRateV ∣ c.videoParams.pixelsV) {x y : ℕ} (hx : x < c.videoParams.pixelsH)
    (hy : y < c.videoParams.pixelsV) (hcol : s.counterH.toNat = c.videoParams.activeHLower + x)
    (hrow : s.counterV.toNat = c.videoParams.activeVLower + y) :
    s.pixelAddress.toNat = pixelCell c x y ∧ pixelCell c x y < c.vramAddressMax := by
  have hlt : pixelCell c x y < c.vramAddressMax := cell_lt hH hV hx hy
  refine ⟨?_, hlt⟩
  rw [h.pixelAddress_eq, hcol, hrow, pixelsBefore_active hx hy, linesBefore_active hy]
  exact toNat_literal hlt

theorem Addressed.enabled (h : Addressed s) (hH : c.magnificationRateH ∣ c.videoParams.pixelsH)
    (hV : c.magnificationRateV ∣ c.videoParams.pixelsV) (hon : s.dataEnable = true) :
    s.pixelAddress.toNat < c.vramAddressMax := by
  have hactive := dataEnable_iff.mp hon
  rw [c.videoParams.activeHUpper_eq, c.videoParams.activeVUpper_eq] at hactive
  obtain ⟨haddress, hlt⟩ := h.active (x := s.counterH.toNat - c.videoParams.activeHLower)
    (y := s.counterV.toNat - c.videoParams.activeVLower) hH hV (by omega) (by omega) (by omega)
    (by omega)
  exact haddress ▸ hlt

/-- In every state of every run, resets included. -/
theorem pixelAddress_active (hH : c.magnificationRateH ∣ c.videoParams.pixelsH)
    (hV : c.magnificationRateV ∣ c.videoParams.pixelsV) (input : ℕ → Inputs c) (t : ℕ) :
    (∀ x < c.videoParams.pixelsH, ∀ y < c.videoParams.pixelsV,
      ((Scanout.machine c).run (.init c) input t).counterH.toNat = c.videoParams.activeHLower + x →
      ((Scanout.machine c).run (.init c) input t).counterV.toNat = c.videoParams.activeVLower + y →
      ((Scanout.machine c).run (.init c) input t).pixelAddress.toNat =
        y / c.magnificationRateV * c.vramPixelsH + x / c.magnificationRateH) ∧
    (((Scanout.machine c).run (.init c) input t).dataEnable = true →
      ((Scanout.machine c).run (.init c) input t).pixelAddress.toNat < c.vramAddressMax) := by
  have h := addressed_init.run hH hV input t
  constructor
  · intro x hx y hy hcol hrow
    exact (h.active hH hV hx hy hcol hrow).1
  · exact h.enabled hH hV

/-- Column 17 of line 33 in `TopWithHDMI` is column 1 of line 2 in the memory. -/
theorem pixelAddress_active_topWithHDMI :
    (controller (c := topWithHDMI) (fun _ _ => 0) (fun _ => 0) 96035).pixelAddress.toNat = 161 := by
  have hraster := controller_raster (c := topWithHDMI) (fun _ _ => 0) (fun _ => 0)
  exact (pixelAddress_active (c := topWithHDMI) (by decide) (by decide)
    (fun _ => ⟨false, fun _ => 0, 0⟩) 96035).1 17 (by decide) 33 (by decide)
    (hraster.counterH_eq 96035) (hraster.counterV_eq 96035)

end

end SeccampRiscvCpu.VideoAddress
