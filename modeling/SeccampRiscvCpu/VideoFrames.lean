import SeccampRiscvCpu.ClockEdges
import SeccampRiscvCpu.VideoGenerator
import SeccampRiscvCpu.VideoTiming

/-!
# The frames of the video signal generator

A frame whose configuration has been loaded before goes through lines of one clock more than
the count of the line register and through one line more than the count of the other one.
These are the totals of the configuration exactly if the totals survive the sums.
-/
namespace SeccampRiscvCpu.VideoFrames
open ClockedMachine ClockEdges WordCounters VideoSignals VideoTiming VideoGenerator

/-! ## Counting over a raster -/

theorem count_raster (A B : ℕ → Prop) [DecidablePred A] [DecidablePred B] (width height : ℕ) :
    Nat.count (fun d => A (d % width) ∧ B (d / width)) (height * width) =
      Nat.count A width * Nat.count B height := by
  induction height with
  | zero => rw [Nat.zero_mul, Nat.count_zero, Nat.count_zero, Nat.mul_zero]
  | succ y ih =>
    have hline : Nat.count (fun x => A ((y * width + x) % width) ∧ B ((y * width + x) / width))
        width = if B y then Nat.count A width else 0 := by
      have hposition : ∀ x ∈ Finset.range width,
          (A ((y * width + x) % width) ∧ B ((y * width + x) / width) ↔ A x ∧ B y) := by
        intro x hx
        obtain ⟨hdiv, hmod⟩ := rounds_at y (Finset.mem_range.mp hx)
        rw [hdiv, hmod]
      rw [Nat.count_eq_card_filter_range, Finset.filter_congr hposition]
      split_ifs with hB
      · simp only [hB, and_true, Nat.count_eq_card_filter_range]
      · simp [hB]
    rw [Nat.succ_mul, Nat.count_add, ih, hline, Nat.count_succ]
    split_ifs
    · rw [Nat.mul_succ]
    · rw [Nat.add_zero, Nat.add_zero]

theorem count_between {lower upper n : ℕ} (h : upper ≤ n) :
    Nat.count (fun x => lower ≤ x ∧ x < upper) n = upper - lower := by
  rw [Nat.count_eq_card_filter_range, filter_between h, Nat.card_Ico]

theorem count_congr {A B : ℕ → Prop} [DecidablePred A] [DecidablePred B] {n : ℕ}
    (h : ∀ k < n, A k ↔ B k) : Nat.count A n = Nat.count B n := by
  rw [Nat.count_eq_card_filter_range, Nat.count_eq_card_filter_range,
    Finset.filter_congr fun k hk => h k (Finset.mem_range.mp hk)]

/-- The active positions of a raster that has room for them. -/
theorem count_active {q : VideoParams} {width height : ℕ} (hright : q.activeHUpper ≤ width)
    (hbottom : q.activeVUpper ≤ height) :
    Nat.count (fun k => active q (k % width) (k / width) = true) (height * width) =
      q.pixelsH * q.pixelsV := by
  have harea := count_raster (fun x => q.activeHLower ≤ x ∧ x < q.activeHUpper)
    (fun y => q.activeVLower ≤ y ∧ y < q.activeVUpper) width height
  rw [count_between hright, count_between hbottom, q.activeHUpper_eq, q.activeVUpper_eq,
    Nat.add_sub_cancel_left, Nat.add_sub_cancel_left] at harea
  rw [← harea]
  exact count_congr fun k _ => active_iff

/-! ## The loaded configuration -/

section
variable {p : VideoParams} {c : VideoConfig p} {s : VideoSignalGenerator p} {i : Inputs p}

/-- No field is greater than that of the largest parameters. -/
structure Within (c : VideoConfig p) : Prop where
  backPorchV : c.backPorchV.toNat ≤ p.backPorchV
  pixelsV : c.pixelsV.toNat ≤ p.pixelsV
  frontPorchV : c.frontPorchV.toNat ≤ p.frontPorchV
  pulseWidthV : c.pulseWidthV.toNat ≤ p.pulseWidthV
  backPorchH : c.backPorchH.toNat ≤ p.backPorchH
  pixelsH : c.pixelsH.toNat ≤ p.pixelsH
  frontPorchH : c.frontPorchH.toNat ≤ p.frontPorchH
  pulseWidthH : c.pulseWidthH.toNat ≤ p.pulseWidthH

def FitsH (c : VideoConfig p) : Prop :=
  TotalFits p.countHBits c.pulseWidthH c.backPorchH c.pixelsH c.frontPorchH

/-- Also in the register as wide as the count of a line. -/
def FitsV (c : VideoConfig p) : Prop :=
  TotalFits p.countHBits c.pulseWidthV c.backPorchV c.pixelsV c.frontPorchV

theorem totalCountsH_iff :
    c.totalCountsHMinus1.toNat + 1 = c.params.totalCountsH ↔ FitsH c := by
  have horder : c.params.totalCountsH = c.pulseWidthH.toNat + c.backPorchH.toNat +
      c.pixelsH.toNat + c.frontPorchH.toNat := by
    simp only [VideoParams.totalCountsH, VideoConfig.params]
    omega
  rw [horder]
  exact totalMinus1_iff

theorem totalCountsV_iff :
    c.totalCountsVMinus1.toNat + 1 = c.params.totalCountsV ↔ FitsV c := by
  have horder : c.params.totalCountsV = c.pulseWidthV.toNat + c.backPorchV.toNat +
      c.pixelsV.toNat + c.frontPorchV.toNat := by
    simp only [VideoParams.totalCountsV, VideoConfig.params]
    omega
  rw [horder]
  exact totalMinus1_iff

/-- The registers hold what a load of `c` puts there. -/
structure Loaded (c : VideoConfig p) (s : VideoSignalGenerator p) : Prop where
  videoConfig : s.videoConfig = c
  totalCountsHMinus1 : s.totalCountsHMinus1 = c.totalCountsHMinus1
  totalCountsVMinus1 : s.totalCountsVMinus1 = c.totalCountsVMinus1
  activeHLower : s.activeHLower = c.activeHLower
  activeHUpper : s.activeHUpper = c.activeHUpper
  activeVLower : s.activeVLower = c.activeVLower
  activeVUpper : s.activeVUpper = c.activeVUpper

theorem loaded_update (h : Loaded c s ∨ s.atOrigin = true)
    (hnext : s.atOrigin = true → s.nextVideoConfig = c) : Loaded c (s.update i) := by
  have hload : Loaded c s.updateConfig := by
    unfold VideoSignalGenerator.updateConfig
    split_ifs with horigin
    · rw [hnext horigin]
      constructor <;> dsimp only
    · exact h.resolve_right horigin
  obtain ⟨h1, h2, h3, h4, h5, h6, h7⟩ := hload
  exact ⟨h1, h2, h3, h4, h5, h6, h7⟩

/-- A clock at the origin loads the configuration, and the others keep it. -/
theorem loaded_step (h : Loaded c s ∨ s.atOrigin = true)
    (hnext : s.atOrigin = true → s.nextVideoConfig = c) : Loaded c (s.step i) := by
  obtain ⟨h1, h2, h3, h4, h5, h6, h7⟩ := loaded_update (i := i) h hnext
  unfold VideoSignalGenerator.step
  cases s.dataInSync with
  | true => exact ⟨h1, h2, h3, h4, h5, h6, h7⟩
  | false => exact ⟨h1, h2, h3, h4, h5, h6, h7⟩

/-! ## One clock of a frame -/

theorem atOrigin_iff : s.atOrigin = true ↔ s.counterH.toNat = 0 ∧ s.counterV.toNat = 0 := by
  rw [VideoSignalGenerator.atOrigin, Bool.and_eq_true, beq_iff_eq, beq_iff_eq, eq_zero_iff,
    eq_zero_iff]

/-- The clocks of a line and the lines of a frame that the registers count. -/
def width (c : VideoConfig p) : ℕ := c.totalCountsHMinus1.toNat + 1
def height (c : VideoConfig p) : ℕ := c.totalCountsVMinus1.toNat + 1

theorem counterH_step (h : Loaded c s) (hsync : s.dataInSync = true) :
    (s.step i).counterH.toNat =
      if s.counterH.toNat + 1 < width c then s.counterH.toNat + 1 else 0 := by
  have hfit := c.totalCountsHMinus1.isLt
  unfold VideoSignalGenerator.step width
  rw [if_pos hsync]
  simp only [h.totalCountsHMinus1, BitVec.lt_def, Nat.add_lt_add_iff_right]
  split_ifs with hmore
  · exact toNat_add_one (by omega)
  · exact BitVec.toNat_zero

/-- A count of lines that fits its register goes up at the end of a line. -/
theorem counterV_step (h : Loaded c s) (hsync : s.dataInSync = true)
    (hfit : height c ≤ 2 ^ p.countVBits) :
    (s.step i).counterV.toNat =
      if s.counterH.toNat + 1 < width c then s.counterV.toNat
      else if s.counterV.toNat + 1 < height c then s.counterV.toNat + 1 else 0 := by
  unfold height at hfit ⊢
  unfold VideoSignalGenerator.step width
  rw [if_pos hsync]
  simp only [h.totalCountsHMinus1, h.totalCountsVMinus1, BitVec.lt_def, Nat.add_lt_add_iff_right]
  split_ifs with hcolumn hrow
  · rfl
  · exact toNat_add_one (by omega)
  · exact BitVec.toNat_zero

/-- The registers `d` clocks after the start of a frame. -/
structure At (c : VideoConfig p) (d : ℕ) (s : VideoSignalGenerator p) : Prop where
  loaded : Loaded c s
  counterH : s.counterH.toNat = d % width c
  counterV : s.counterV.toNat = d / width c

theorem At.start (h : Loaded c s) (horigin : s.atOrigin = true) : At c 0 s := by
  obtain ⟨hH, hV⟩ := atOrigin_iff.mp horigin
  exact ⟨h, by rw [hH, Nat.zero_mod], by rw [hV, Nat.zero_div]⟩

theorem At.next {d : ℕ} (h : At c d s) (hnext : s.atOrigin = true → s.nextVideoConfig = c)
    (hsync : s.dataInSync = true) (hfit : height c ≤ 2 ^ p.countVBits)
    (hd : d + 1 < height c * width c) : At c (d + 1) (s.step i) := by
  have hpos : 0 < width c := Nat.succ_pos _
  have hlt := Nat.mod_lt d hpos
  refine ⟨loaded_step (.inl h.loaded) hnext, ?_, ?_⟩
  · rw [counterH_step h.loaded hsync, h.counterH]
    split_ifs with hmore
    · exact (rounds_next hmore).2.symm
    · exact (rounds_wrap (by omega)).2.symm
  · rw [counterV_step h.loaded hsync hfit, h.counterH, h.counterV]
    have hline : (d + 1) / width c < height c := (Nat.div_lt_iff_lt_mul hpos).mpr hd
    split_ifs with hmore hrow
    · exact (rounds_next hmore).1.symm
    · exact (rounds_wrap (by omega)).1.symm
    · rw [(rounds_wrap (show d % width c + 1 = width c by omega)).1] at hline
      omega

/-- The last clock of a frame is followed by the start of the next one. -/
theorem At.wrap {d : ℕ} (h : At c d s) (hsync : s.dataInSync = true)
    (hfit : height c ≤ 2 ^ p.countVBits) (hd : d + 1 = height c * width c) :
    (s.step i).atOrigin = true := by
  have hposition : d = (height c - 1) * width c + (width c - 1) := by
    have hH : height c = height c - 1 + 1 := rfl
    rw [hH, Nat.succ_mul] at hd
    have hpos : 0 < width c := Nat.succ_pos _
    omega
  obtain ⟨hdiv, hmod⟩ := rounds_at (height c - 1) (show width c - 1 < width c by
    exact Nat.sub_lt (Nat.succ_pos _) Nat.one_pos)
  rw [← hposition] at hdiv hmod
  have hpos : 0 < width c := Nat.succ_pos _
  have hpos' : 0 < height c := Nat.succ_pos _
  rw [atOrigin_iff, counterH_step h.loaded hsync, counterV_step h.loaded hsync hfit, h.counterH,
    h.counterV, hdiv, hmod, if_neg (by omega), if_neg (by omega), if_neg (by omega)]
  exact ⟨rfl, rfl⟩

end

/-! ## The frames of a run -/

/-- The generator; each clock shows its video signals. -/
def machine (p : VideoParams) :
    Machine (VideoSignalGenerator p) (Inputs p) (VideoIo p.pixelBits) where
  step := VideoSignalGenerator.step
  emit s _ := [s.video]

/-- The state before clock `t` of the run from reset with the default parameters `d`. -/
def run (p d : VideoParams) (input : ℕ → Inputs p) : ℕ → VideoSignalGenerator p :=
  (machine p).run (.new p d) input

/-- A frame from clock `t` on: `lines` lines of `clocks` clocks, the next frame behind them, and
`pixels` clocks in which the data are taken. -/
structure Frame {p : VideoParams} (g : ℕ → VideoSignalGenerator p) (input : ℕ → Inputs p)
    (t clocks lines pixels : ℕ) : Prop where
  line : ∀ y < lines, Consecutive (fun u => (g u).counterH = 0) (t + y * clocks)
    (t + (y + 1) * clocks)
  frame : Consecutive (fun u => (g u).atOrigin = true) t (t + lines * clocks)
  ready : Nat.count (fun d => (g (t + d)).dataReady (input (t + d)) = true) (lines * clocks) =
    pixels

section
variable {p d : VideoParams} {input : ℕ → Inputs p} {c : VideoConfig p} {t : ℕ}

/-- A frame that starts in clock `t` with the configuration loaded and still the next one. -/
structure Starts (g : ℕ → VideoSignalGenerator p) (c : VideoConfig p) (t : ℕ) : Prop where
  loaded : Loaded c (g t)
  atOrigin : (g t).atOrigin = true
  next : (g t).nextVideoConfig = c

/-- A load in an earlier clock, and none of another configuration since. -/
theorem loaded_run {t₀ : ℕ} (ht : t₀ < t) (hload : (run p d input t₀).atOrigin = true)
    (hnext : ∀ u, t₀ ≤ u → u < t → (run p d input u).atOrigin = true →
      (run p d input u).nextVideoConfig = c) : Loaded c (run p d input t) := by
  induction ht with
  | refl => exact loaded_step (.inr hload) (hnext t₀ (Nat.le_refl _) (Nat.lt_succ_self _))
  | @step u hu ih =>
    have hbefore := ih fun v hv hlt => hnext v hv (Nat.lt_succ_of_lt hlt)
    exact loaded_step (.inl hbefore) (hnext u (Nat.le_of_lt hu) (Nat.lt_succ_self _))

theorem At.origin_iff {s : VideoSignalGenerator p} {k : ℕ} (h : At c k s) :
    s.atOrigin = true ↔ k = 0 := by
  rw [atOrigin_iff, h.counterH, h.counterV]
  have hsplit := Nat.mod_add_div k (width c)
  constructor
  · rintro ⟨hmod, hdiv⟩
    rw [hmod, hdiv] at hsplit
    exact hsplit.symm
  · rintro rfl
    exact ⟨Nat.zero_mod _, Nat.zero_div _⟩

/-- The clocks of the frame while it is in sync. -/
theorem Starts.at (h : Starts (run p d input) c t) (hfit : height c ≤ 2 ^ p.countVBits) {n k : ℕ}
    (hsync : ∀ u, t ≤ u → u < t + n → (run p d input u).dataInSync = true) (hk : k ≤ n)
    (hframe : k < height c * width c) : At c k (run p d input (t + k)) := by
  induction k with
  | zero => exact .start h.loaded h.atOrigin
  | succ k ih =>
    have hbefore := ih (by omega) (by omega)
    refine hbefore.next ?_ (hsync (t + k) (by omega) (by omega)) hfit hframe
    intro horigin
    rw [hbefore.origin_iff.mp horigin]
    exact h.next

theorem Starts.wrap (h : Starts (run p d input) c t) (hfit : height c ≤ 2 ^ p.countVBits) {n : ℕ}
    (hsync : ∀ u, t ≤ u → u < t + n → (run p d input u).dataInSync = true)
    (hn : height c * width c ≤ n) :
    (run p d input (t + height c * width c)).atOrigin = true := by
  have hpos : 0 < height c * width c := Nat.mul_pos (Nat.succ_pos _) (Nat.succ_pos _)
  obtain ⟨k, hk⟩ := Nat.exists_eq_succ_of_ne_zero hpos.ne'
  have hlast := h.at hfit hsync (k := k) (by omega) (by omega)
  rw [hk]
  exact hlast.wrap (hsync (t + k) (by omega) (by omega)) hfit hk.symm

section
variable (h : Starts (run p d input) c t) (hfit : height c ≤ 2 ^ p.countVBits) {n k : ℕ}
  (hsync : ∀ u, t ≤ u → u < t + n → (run p d input u).dataInSync = true) (hk : k ≤ n)
  (hframe : k ≤ height c * width c)
include h hfit hsync hk hframe

/-- Up to the next frame the lines start where they should. -/
theorem Starts.line_iff : (run p d input (t + k)).counterH = 0 ↔ k % width c = 0 := by
  rw [eq_zero_iff]
  rcases Nat.lt_or_ge k (height c * width c) with hin | hlast
  · rw [(h.at hfit hsync hk hin).counterH]
  · have heq : k = height c * width c := by omega
    have horigin := h.wrap hfit hsync (heq ▸ hk)
    rw [← heq, atOrigin_iff] at horigin
    rw [horigin.1, heq, Nat.mul_mod_left]

theorem Starts.origin_iff : (run p d input (t + k)).atOrigin = true ↔
    k = 0 ∨ k = height c * width c := by
  rcases Nat.lt_or_ge k (height c * width c) with hin | hlast
  · rw [(h.at hfit hsync hk hin).origin_iff, or_iff_left (by omega)]
  · have heq : k = height c * width c := by omega
    have horigin := h.wrap hfit hsync (heq ▸ hk)
    rw [← heq] at horigin
    exact iff_of_true horigin (.inr heq)

end

theorem activeLower_toNat {w x n : ℕ} {pulseWidth : BitVec w} {backPorch : BitVec x}
    (h : pulseWidth.toNat + backPorch.toNat < 2 ^ n) :
    (activeLower n pulseWidth backPorch).toNat = pulseWidth.toNat + backPorch.toNat := by
  have hpulse := toNat_lt_of_le pulseWidth (Nat.le_max_left w n)
  have hwide : 2 ^ n ≤ 2 ^ max (max w n) x := Nat.pow_le_pow_right Nat.two_pos (by omega)
  rw [activeLower, BitVec.toNat_setWidth, toNat_plus, toNat_plus, BitVec.toNat_zero, Nat.add_zero,
    Nat.mod_eq_of_lt hpulse, Nat.mod_eq_of_lt (h.trans_le hwide), Nat.mod_eq_of_lt h]

theorem activeUpper_toNat {w x y n : ℕ} {pulseWidth : BitVec w} {backPorch : BitVec x}
    {pixels : BitVec y} (h : pulseWidth.toNat + backPorch.toNat + pixels.toNat < 2 ^ n) :
    (activeUpper n pulseWidth backPorch pixels).toNat =
      pulseWidth.toNat + backPorch.toNat + pixels.toNat := by
  have hpulse := toNat_lt_of_le pulseWidth (Nat.le_max_left w n)
  have hwide : 2 ^ n ≤ 2 ^ max (max w n) x := Nat.pow_le_pow_right Nat.two_pos (by omega)
  have hwider : 2 ^ n ≤ 2 ^ max (max (max w n) x) y := Nat.pow_le_pow_right Nat.two_pos (by omega)
  have hporch : pulseWidth.toNat + backPorch.toNat < 2 ^ max (max w n) x := by omega
  rw [activeUpper, BitVec.toNat_setWidth, toNat_plus, toNat_plus, toNat_plus, BitVec.toNat_zero,
    Nat.add_zero, Nat.mod_eq_of_lt hpulse, Nat.mod_eq_of_lt hporch,
    Nat.mod_eq_of_lt (h.trans_le hwider), Nat.mod_eq_of_lt h]

/-- The bounds of the active area lose nothing. -/
theorem active_eq {s : VideoSignalGenerator p} (h : Loaded c s) (hc : Within c) :
    s.dataEnable = active c.params s.counterH.toNat s.counterV.toNat := by
  have hH : p.totalCountsH < 2 ^ p.countHBits := lt_two_pow_clog (Nat.lt_succ_self _)
  have hV : p.totalCountsV < 2 ^ p.countVBits := lt_two_pow_clog (Nat.lt_succ_self _)
  obtain ⟨hbpV, hpxV, -, hpwV, hbpH, hpxH, -, hpwH⟩ := hc
  unfold VideoParams.totalCountsH at hH
  unfold VideoParams.totalCountsV at hV
  have hHLower : c.activeHLower.toNat = c.params.activeHLower := activeLower_toNat (by omega)
  have hVLower : c.activeVLower.toNat = c.params.activeVLower := activeLower_toNat (by omega)
  have hHUpper : c.activeHUpper.toNat = c.params.activeHUpper := activeUpper_toNat (by omega)
  have hVUpper : c.activeVUpper.toNat = c.params.activeVUpper := activeUpper_toNat (by omega)
  rw [VideoSignalGenerator.dataEnable, h.activeHLower, h.activeHUpper, h.activeVLower,
    h.activeVUpper, hHLower, hHUpper, hVLower, hVUpper]
  rfl

/-- In sync the data are taken in the active area of the configuration. -/
theorem At.dataReady {s : VideoSignalGenerator p} {k : ℕ} (h : At c k s) (hc : Within c)
    (hsync : s.dataInSync = true) (i : Inputs p) :
    s.dataReady i = active c.params (k % width c) (k / width c) := by
  rw [VideoSignalGenerator.dataReady, hsync, active_eq h.loaded hc, h.counterH, h.counterV]
  rfl

section
variable (h : Starts (run p d input) c t) (hfit : height c ≤ 2 ^ p.countVBits)
  (hsync : ∀ u, t ≤ u → u < t + height c * width c → (run p d input u).dataInSync = true)
include h hfit hsync

theorem Starts.line {y : ℕ} (hy : y < height c) :
    Consecutive (fun u => (run p d input u).counterH = 0) (t + y * width c)
      (t + (y + 1) * width c) := by
  have hpos : 0 < width c := Nat.succ_pos _
  have hlast : (y + 1) * width c ≤ height c * width c := Nat.mul_le_mul_right _ hy
  have hline : (y + 1) * width c = y * width c + width c := Nat.succ_mul y _
  refine ⟨?_, ?_, by omega, ?_⟩
  · rw [h.line_iff hfit hsync (by omega) (by omega), Nat.mul_mod_left]
  · rw [h.line_iff hfit hsync hlast hlast, Nat.mul_mod_left]
  · intro u hlow hhigh
    obtain ⟨x, rfl⟩ := Nat.exists_eq_add_of_le (Nat.le_of_lt hlow)
    rw [Nat.add_assoc, h.line_iff hfit hsync (by omega) (by omega),
      (rounds_at y (show x < width c by omega)).2]
    omega

theorem Starts.nextOrigin :
    Consecutive (fun u => (run p d input u).atOrigin = true) t (t + height c * width c) := by
  have hframe : 0 < height c * width c := Nat.mul_pos (Nat.succ_pos _) (Nat.succ_pos _)
  refine ⟨h.atOrigin, ?_, by omega, ?_⟩
  · rw [h.origin_iff hfit hsync (Nat.le_refl _) (Nat.le_refl _)]
    exact .inr rfl
  · intro u hlow hhigh
    obtain ⟨k, rfl⟩ := Nat.exists_eq_add_of_le (Nat.le_of_lt hlow)
    rw [h.origin_iff hfit hsync (by omega) (by omega)]
    omega

/-- With the right counts the frame is as the configuration says. -/
theorem Starts.frame (hc : Within c) (hw : width c = c.params.totalCountsH)
    (hh : height c = c.params.totalCountsV) :
    Frame (run p d input) input t (width c) (height c) (c.params.pixelsH * c.params.pixelsV) := by
  refine ⟨fun y hy => h.line hfit hsync hy, h.nextOrigin hfit hsync, ?_⟩
  have hright : c.params.activeHUpper ≤ width c := hw ▸ c.params.activeHUpper_le
  have hbottom : c.params.activeVUpper ≤ height c := hh ▸ c.params.activeVUpper_le
  rw [← count_active hright hbottom]
  refine count_congr fun k hk => ?_
  rw [(h.at hfit hsync (Nat.le_of_lt hk) hk).dataReady hc (hsync (t + k) (by omega) (by omega))]

end

/-- A frame of other counts shows them. -/
theorem Starts.counts (h : Starts (run p d input) c t) (hfit : height c ≤ 2 ^ p.countVBits)
    {clocks lines pixels : ℕ} (hframe : Frame (run p d input) input t clocks lines pixels)
    (hsync : ∀ u, t ≤ u → u < t + lines * clocks → (run p d input u).dataInSync = true) :
    width c = clocks ∧ height c = lines := by
  have hpos : 0 < width c := Nat.succ_pos _
  have hlt := hframe.frame.lt
  have hlines : 0 < lines := Nat.pos_of_ne_zero fun hz => by rw [hz, Nat.zero_mul] at hlt; omega
  have hle : 1 * width c ≤ height c * width c := Nat.mul_le_mul_right _ (Nat.succ_pos _)
  have hle' : 1 * clocks ≤ lines * clocks := Nat.mul_le_mul_right _ hlines
  rw [Nat.one_mul] at hle hle'
  have hfirst := hframe.line 0 hlines
  rw [Nat.zero_mul, Nat.add_zero, Nat.zero_add, Nat.one_mul] at hfirst
  have hclocks : width c = clocks := by
    rcases Nat.lt_trichotomy clocks (width c) with hshort | heq | hlong
    · have hzero := (h.line_iff hfit hsync hle' (by omega)).mp hfirst.second
      rw [Nat.mod_eq_of_lt hshort] at hzero
      have hmore := hfirst.lt
      omega
    · exact heq.symm
    · refine absurd ?_ (hfirst.between (t + width c) (by omega) (by omega))
      rw [h.line_iff hfit hsync (by omega) hle, Nat.mod_self]
  subst hclocks
  refine ⟨rfl, ?_⟩
  rcases Nat.lt_trichotomy lines (height c) with hshort | heq | hlong
  · have hmul := (Nat.mul_lt_mul_right hpos).mpr hshort
    have horigin := (h.origin_iff hfit hsync (Nat.le_refl _) (Nat.le_of_lt hmul)).mp
      hframe.frame.second
    omega
  · exact heq.symm
  · have hmul := (Nat.mul_lt_mul_right hpos).mpr hlong
    refine absurd ?_ (hframe.frame.between (t + height c * width c) (by omega) (by omega))
    rw [h.origin_iff hfit hsync (Nat.le_of_lt hmul) (Nat.le_refl _)]
    exact .inr rfl

end

/-- The count of lines fits its register where there is a line to count. -/
theorem height_le {p : VideoParams} {c : VideoConfig p} (h : 0 < c.params.totalCountsV) :
    height c ≤ 2 ^ p.countVBits := by
  have hfield {k : ℕ} (hk : k ≤ p.totalCountsV) : Nat.clog 2 (k + 1) ≤ p.countVBits :=
    Nat.clog_mono_right 2 (Nat.succ_le_succ hk)
  have hsum : p.totalCountsV = p.backPorchV + p.pixelsV + p.frontPorchV + p.pulseWidthV := rfl
  have hbp := hfield (k := p.backPorchV) (by omega)
  have hpx := hfield (k := p.pixelsV) (by omega)
  have hfp := hfield (k := p.frontPorchV) (by omega)
  have hpw := hfield (k := p.pulseWidthV) (by omega)
  obtain ⟨w, hw⟩ : ∃ w, w = max (max (max (Nat.clog 2 (p.pulseWidthV + 1))
    (Nat.clog 2 (p.backPorchV + 1))) (Nat.clog 2 (p.pixelsV + 1)))
    (Nat.clog 2 (p.frontPorchV + 1)) := ⟨_, rfl⟩
  have hpos : 0 < w := by
    by_contra hzero
    have hnone : w = 0 := by omega
    -- fields of no bits add up to nothing
    have hpwV := toNat_lt_of_le c.pulseWidthV (show _ ≤ 0 by omega)
    have hbpV := toNat_lt_of_le c.backPorchV (show _ ≤ 0 by omega)
    have hpxV := toNat_lt_of_le c.pixelsV (show _ ≤ 0 by omega)
    have hfpV := toNat_lt_of_le c.frontPorchV (show _ ≤ 0 by omega)
    simp only [VideoParams.totalCountsV, VideoConfig.params] at h
    omega
  have hspec := totalMinus1_spec p.countHBits c.pulseWidthV c.backPorchV c.pixelsV c.frontPorchV
    (hw ▸ hpos)
  have hlt : c.totalCountsVMinus1.toNat < 2 ^ min p.countHBits w := by
    rw [hw]
    exact hspec.1
  have hle : 2 ^ min p.countHBits w ≤ 2 ^ p.countVBits :=
    Nat.pow_le_pow_right Nat.two_pos (by omega)
  exact hlt.trans_le hle

theorem Starts.timed_iff {p d : VideoParams} {input : ℕ → Inputs p} {c : VideoConfig p} {t : ℕ}
    (h : Starts (run p d input) c t) (hc : Within c)
    (hsync : ∀ u, t ≤ u → u < t + c.params.totalCountsV * c.params.totalCountsH →
      (run p d input u).dataInSync = true) :
    Frame (run p d input) input t c.params.totalCountsH c.params.totalCountsV
      (c.params.pixelsH * c.params.pixelsV) ↔ FitsH c ∧ FitsV c := by
  constructor
  · intro hframe
    have hpos : 0 < c.params.totalCountsV := Nat.pos_of_ne_zero fun hz => by
      have hlt := hframe.frame.lt
      rw [hz, Nat.zero_mul] at hlt
      omega
    obtain ⟨hw, hh⟩ := h.counts (height_le hpos) hframe hsync
    exact ⟨totalCountsH_iff.mp hw, totalCountsV_iff.mp hh⟩
  · rintro ⟨hH, hV⟩
    have hw : width c = c.params.totalCountsH := totalCountsH_iff.mpr hH
    have hh : height c = c.params.totalCountsV := totalCountsV_iff.mpr hV
    rw [← hw, ← hh] at hsync ⊢
    exact h.frame (height_le (hh ▸ Nat.succ_pos _)) hsync hc hw hh

/-- **The timing of a configuration.** Once a configuration within the largest parameters has
been loaded in the first clock of a frame, a later frame in sync has its lines, its clocks of a
line and its pixels exactly if both totals come through the sums. -/
theorem frame_iff (p d : VideoParams) (input : ℕ → Inputs p) (c : VideoConfig p) (hc : Within c)
    {t₀ t : ℕ} (ht : t₀ < t) (hload : (run p d input t₀).atOrigin = true)
    (hstart : (run p d input t).atOrigin = true)
    (hnext : ∀ u, t₀ ≤ u → u ≤ t → (run p d input u).atOrigin = true →
      (run p d input u).nextVideoConfig = c)
    (hsync : ∀ u, t ≤ u → u < t + c.params.totalCountsV * c.params.totalCountsH →
      (run p d input u).dataInSync = true) :
    Frame (run p d input) input t c.params.totalCountsH c.params.totalCountsV
      (c.params.pixelsH * c.params.pixelsV) ↔ FitsH c ∧ FitsV c := by
  have hloaded := loaded_run ht hload fun u hu hlt => hnext u hu (Nat.le_of_lt hlt)
  have hstarts : Starts (run p d input) c t :=
    ⟨hloaded, hstart, hnext t (Nat.le_of_lt ht) (Nat.le_refl t) hstart⟩
  exact hstarts.timed_iff hc hsync

/-! ## A mode and two largest parameters -/

/-- A source that always offers the start of a frame. -/
def startsOfFrame (p : VideoParams) (_ : ℕ) : Inputs p := ⟨some ⟨0, true⟩, none⟩

theorem startsOfFrame_run (p d : VideoParams) (t : ℕ) :
    (run p d (startsOfFrame p) t).nextVideoConfig = .ofParams p d ∧
      (run p d (startsOfFrame p) (t + 1)).dataInSync = true := by
  have hstep : ∀ s : VideoSignalGenerator p, ∀ u,
      (s.step (startsOfFrame p u)).nextVideoConfig = s.nextVideoConfig ∧
        (s.step (startsOfFrame p u)).dataInSync = true := by
    intro s u
    unfold VideoSignalGenerator.step
    cases s.dataInSync with
    | true => exact ⟨rfl, by simp [VideoSignalGenerator.startOfFrame, startsOfFrame]⟩
    | false => exact ⟨rfl, rfl⟩
  refine ⟨?_, (hstep _ t).2⟩
  induction t with
  | zero => rfl
  | succ t ih => exact (hstep _ t).1.trans ih

/-- 1280 by 720 pixels, as in `TopWithHDMI`. -/
def params720p : VideoParams := ⟨24, 20, 720, 5, 5, 220, 1280, 110, 40⟩

/-- Fields of twelve bits. -/
def params4k : VideoParams := ⟨24, 4095, 4095, 4095, 4095, 4095, 4095, 4095, 4095⟩

theorem frame_iff_wide : Frame (run params4k params720p (startsOfFrame params4k))
    (startsOfFrame params4k) 1 1650 750 (1280 * 720) := by
  have hrun := startsOfFrame_run params4k params720p
  have hsync : ∀ u, 1 ≤ u → u < 1 + 750 * 1650 →
      (run params4k params720p (startsOfFrame params4k) u).dataInSync = true := by
    intro u hu _
    obtain ⟨k, rfl⟩ := Nat.exists_eq_add_of_le' hu
    exact (hrun k).2
  have h := frame_iff params4k params720p (startsOfFrame params4k) (.ofParams params4k params720p)
    (by constructor <;> decide) Nat.one_pos rfl rfl (fun u _ _ _ => (hrun u).1) hsync
  exact h.mpr ⟨⟨by decide, by decide, .inl (by decide)⟩, ⟨by decide, by decide, .inl (by decide)⟩⟩

/-- With the mode itself as the largest one, the first sum of a line loses its carry. -/
theorem frame_720p : Within (.ofParams params720p params720p : VideoConfig params720p) ∧
    (∀ t, (run params720p params720p (startsOfFrame params720p) t).nextVideoConfig =
      .ofParams params720p params720p) ∧
    (∀ t, (run params720p params720p (startsOfFrame params720p) (t + 1)).dataInSync = true) ∧
    ¬Frame (run params720p params720p (startsOfFrame params720p)) (startsOfFrame params720p) 1
      1650 750 (1280 * 720) := by
  have hrun := startsOfFrame_run params720p params720p
  have hc : Within (.ofParams params720p params720p : VideoConfig params720p) := by
    constructor <;> decide
  have hstarts : Starts (run params720p params720p (startsOfFrame params720p))
      (.ofParams params720p params720p) 1 :=
    ⟨loaded_run Nat.one_pos rfl fun u _ _ _ => (hrun u).1, rfl, (hrun 1).1⟩
  refine ⟨hc, fun t => (hrun t).1, fun t => (hrun t).2, fun hframe => ?_⟩
  have hfits := (hstarts.timed_iff hc fun u hu _ => by
    obtain ⟨k, rfl⟩ := Nat.exists_eq_add_of_le' hu
    exact (hrun k).2).mp hframe
  exact absurd hfits.1.sums (by decide)

end SeccampRiscvCpu.VideoFrames
