import SeccampRiscvCpu.VideoAddress

/-!
# The pixels of a frame

A word read for a pixel goes through two registers, the enable of the data through one,
and the output is gated with the enable that has not gone through it. With the data
enable of a pixel the output shows the pixel before it in the line; with the first one
what the read port left while it was disabled, and with the last one nothing.
-/
namespace SeccampRiscvCpu.VideoPixels
open ClockedMachine VideoSignals VideoScanout VideoTiming VideoAddress WordCounters

/-! ## A line that is one column late -/

def late {α : Type*} (left : α) (line : ℕ → α) : ℕ → α
  | 0 => left
  | x + 1 => line x

/-- Where it is right nevertheless, each column is equal to the one before it. -/
theorem uniform_line {α : Type*} {n : ℕ} (line : ℕ → α) (left black : α) :
    (∀ x < n, (if x + 1 = n then black else late left line x) = line x) ↔
      ∀ x < n, line x = if x + 1 = n then black else left := by
  constructor
  · intro h x
    induction x with
    | zero =>
      intro hx
      exact (h 0 hx).symm
    | succ x ih =>
      intro hx
      rw [← h (x + 1) hx, late, ih (by omega), if_neg (show x + 1 ≠ n by omega)]
  · intro h x hx
    rw [h x hx]
    cases x with
    | zero => rfl
    | succ x => rw [late, h x (by omega), if_neg (show x + 1 ≠ n by omega)]

section
variable {c : ControllerParams}

def frameLength (c : ControllerParams) : ℕ :=
  (c.videoParams.totalCountsH + 1) * (c.videoParams.totalCountsV + 1)

/-- The clock of the frame on which the counters are at column `x` of active line `y`; the
output enables the data for that pixel one clock later. -/
def pixelClock (c : ControllerParams) (x y : ℕ) : ℕ :=
  (c.videoParams.activeVLower + y) * (c.videoParams.totalCountsH + 1) +
    (c.videoParams.activeHLower + x)

/-- A frame without reset that starts in `s`, over which the memory holds `vram`. -/
structure Frame (s : Scanout c) (input : ℕ → Inputs c) (vram : ℕ → BitVec c.vramPixelBits) :
    Prop where
  counterH_eq : s.counterH = 0
  counterV_eq : s.counterV = 0
  videoReset_eq : ∀ k < frameLength c, (input k).videoReset = false
  vram_eq : ∀ k < frameLength c, (input k).vram = vram

/-- The state on clock `k` of the frame. -/
def frameRun (s : Scanout c) (input : ℕ → Inputs c) (k : ℕ) : Scanout c :=
  (Scanout.machine c).run s input k

/-- What is in the register of the read port when active line `y` starts. -/
def idle (s : Scanout c) (input : ℕ → Inputs c) (y : ℕ) : BitVec c.vramPixelBits :=
  match pixelClock c 0 y with
  | 0 => s.vramReg
  | k + 1 => (input k).disabled

/-- The last column is black and the other columns of each line have the colour of what
the disabled read port left. -/
def Uniform (s : Scanout c) (input : ℕ → Inputs c) (vram : ℕ → BitVec c.vramPixelBits) : Prop :=
  ∀ x < c.videoParams.pixelsH, ∀ y < c.videoParams.pixelsV,
    c.pixelTranslation (vram (pixelCell c x y)) =
      if x + 1 = c.videoParams.pixelsH then 0 else c.pixelTranslation (idle s input y)

variable {s : Scanout c} {input : ℕ → Inputs c} {vram : ℕ → BitVec c.vramPixelBits} {k x y : ℕ}

/-! ## Positions on the frame -/

theorem pixelClock_position (hx : x ≤ c.videoParams.pixelsH) :
    pixelClock c x y / (c.videoParams.totalCountsH + 1) = c.videoParams.activeVLower + y ∧
      pixelClock c x y % (c.videoParams.totalCountsH + 1) = c.videoParams.activeHLower + x := by
  have hle := c.videoParams.activeHUpper_le
  rw [c.videoParams.activeHUpper_eq] at hle
  exact rounds_at _ (by omega)

theorem pixelClock_succ : pixelClock c x y + 1 = pixelClock c (x + 1) y := by
  simp only [pixelClock, Nat.add_assoc]

/-- The frame does not end in an active line. -/
theorem pixelClock_lt (hx : x ≤ c.videoParams.pixelsH) (hy : y < c.videoParams.pixelsV) :
    pixelClock c x y < frameLength c := by
  have hright := c.videoParams.activeHUpper_le
  have hbottom := c.videoParams.activeVUpper_le
  rw [c.videoParams.activeHUpper_eq] at hright
  rw [c.videoParams.activeVUpper_eq] at hbottom
  calc pixelClock c x y
      < (c.videoParams.activeVLower + y) * (c.videoParams.totalCountsH + 1) +
        (c.videoParams.totalCountsH + 1) := Nat.add_lt_add_left (by omega) _
    _ = (c.videoParams.activeVLower + y + 1) * (c.videoParams.totalCountsH + 1) :=
        (Nat.succ_mul _ _).symm
    _ ≤ (c.videoParams.totalCountsV + 1) * (c.videoParams.totalCountsH + 1) :=
        Nat.mul_le_mul_right _ (by omega)
    _ = frameLength c := Nat.mul_comm _ _

theorem Frame.succ (h : Frame s input vram) (hk : k < frameLength c) :
    frameRun s input (k + 1) = (frameRun s input k).next (input k) := by
  simp only [frameRun, Machine.run_succ, Scanout.machine, Scanout.step, h.videoReset_eq k hk]
  rfl

theorem Frame.position (h : Frame s input vram) (hk : k < frameLength c) :
    (frameRun s input k).counterH.toNat = k % (c.videoParams.totalCountsH + 1) ∧
      (frameRun s input k).counterV.toNat = k / (c.videoParams.totalCountsH + 1) := by
  induction k with
  | zero =>
    rw [Nat.zero_mod, Nat.zero_div]
    exact ⟨(eq_zero_iff _).mp h.counterH_eq, (eq_zero_iff _).mp h.counterV_eq⟩
  | succ k ih =>
    have hk' : k < frameLength c := Nat.lt_of_succ_lt hk
    obtain ⟨hH, hV⟩ := ih hk'
    rw [h.succ hk', next_counterH, next_counterV]
    by_cases hmore : (frameRun s input k).counterH.toNat < c.videoParams.totalCountsH
    · have hend : (frameRun s input k).endOfLine = false := by simp [Scanout.endOfLine, hmore]
      obtain ⟨hdiv, hmod⟩ := rounds_next (k := k) (n := c.videoParams.totalCountsH + 1) (by omega)
      rw [if_pos hmore, hend, hdiv, hmod, hH, hV]
      exact ⟨rfl, rfl⟩
    · have hend : (frameRun s input k).endOfLine = true := by simp [Scanout.endOfLine, hmore]
      have hlt := Nat.mod_lt k (show 0 < c.videoParams.totalCountsH + 1 by omega)
      obtain ⟨hdiv, hmod⟩ := rounds_wrap (k := k) (n := c.videoParams.totalCountsH + 1) (by omega)
      -- there is a next line, since the frame goes on
      have hrow : (k + 1) / (c.videoParams.totalCountsH + 1) < c.videoParams.totalCountsV + 1 :=
        Nat.div_lt_of_lt_mul hk
      rw [if_neg hmore, if_pos hend, if_pos (by omega), hdiv, hmod, hV]
      exact ⟨rfl, rfl⟩

theorem Frame.dataEnable_iff (h : Frame s input vram) (hk : k < frameLength c) :
    (frameRun s input k).dataEnable = true ↔
      ∃ x < c.videoParams.pixelsH, ∃ y < c.videoParams.pixelsV, k = pixelClock c x y := by
  obtain ⟨hH, hV⟩ := h.position hk
  rw [VideoAddress.dataEnable_iff, hH, hV, c.videoParams.activeHUpper_eq,
    c.videoParams.activeVUpper_eq]
  constructor
  · intro hactive
    refine ⟨k % (c.videoParams.totalCountsH + 1) - c.videoParams.activeHLower, by omega,
      k / (c.videoParams.totalCountsH + 1) - c.videoParams.activeVLower, by omega, ?_⟩
    rw [pixelClock, Nat.add_sub_cancel' hactive.1.1, Nat.add_sub_cancel' hactive.2.1]
    exact (Nat.div_add_mod' _ _).symm
  · rintro ⟨x, hx, y, hy, rfl⟩
    obtain ⟨hdiv, hmod⟩ := pixelClock_position (y := y) (Nat.le_of_lt hx)
    rw [hdiv, hmod]
    omega

theorem Frame.dataEnable_succ (h : Frame s input vram) (hk : k < frameLength c) :
    (frameRun s input (k + 1)).video.dataEnable = (frameRun s input k).dataEnable := by
  rw [h.succ hk]
  rfl

theorem Frame.enabled (h : Frame s input vram) (hx : x < c.videoParams.pixelsH)
    (hy : y < c.videoParams.pixelsV) : (frameRun s input (pixelClock c x y)).dataEnable = true :=
  (h.dataEnable_iff (pixelClock_lt (Nat.le_of_lt hx) hy)).mpr ⟨x, hx, y, hy, rfl⟩

/-! ## What the output shows -/

theorem Frame.pixelData_eq (h : Frame s input vram) (hx : x < c.videoParams.pixelsH)
    (hy : y < c.videoParams.pixelsV) :
    (frameRun s input (pixelClock c x y + 1)).video.pixelData =
      if x + 1 = c.videoParams.pixelsH then 0
      else c.pixelTranslation (frameRun s input (pixelClock c x y)).vramReg := by
  have hnext := h.succ (pixelClock_lt (Nat.le_of_lt hx) hy)
  have hdata : (frameRun s input (pixelClock c x y + 1)).data =
      c.pixelTranslation (frameRun s input (pixelClock c x y)).vramReg := by
    rw [hnext, Scanout.next, h.enabled hx hy]
    rfl
  rw [Scanout.video, hdata]
  by_cases hlast : x + 1 = c.videoParams.pixelsH
  · have hoff : (frameRun s input (pixelClock c x y + 1)).dataEnable = false := by
      have hclock := pixelClock_lt (c := c) (y := y) (Nat.le_of_eq hlast) hy
      rw [← Bool.not_eq_true, VideoAddress.dataEnable_iff, pixelClock_succ,
        (h.position hclock).1, (pixelClock_position (Nat.le_of_eq hlast)).2,
        c.videoParams.activeHUpper_eq]
      omega
    rw [hoff, if_pos hlast]
    rfl
  · have hon : (frameRun s input (pixelClock c x y + 1)).dataEnable = true := by
      rw [pixelClock_succ]
      exact h.enabled (by omega) hy
    rw [hon, if_neg hlast]
    rfl

/-- The word read for a pixel is in the register on the next clock. -/
theorem Frame.vramReg_succ (h : Frame s input vram) (hs : Addressed s)
    (hH : c.magnificationRateH ∣ c.videoParams.pixelsH)
    (hV : c.magnificationRateV ∣ c.videoParams.pixelsV) (hx : x < c.videoParams.pixelsH)
    (hy : y < c.videoParams.pixelsV) :
    (frameRun s input (pixelClock c (x + 1) y)).vramReg = vram (pixelCell c x y) := by
  have hclock := pixelClock_lt (c := c) (Nat.le_of_lt hx) hy
  have haddressed : Addressed (frameRun s input (pixelClock c x y)) := hs.run hH hV input _
  obtain ⟨hcol, hrow⟩ := h.position hclock
  rw [(pixelClock_position (Nat.le_of_lt hx)).2] at hcol
  rw [(pixelClock_position (Nat.le_of_lt hx)).1] at hrow
  rw [← pixelClock_succ, h.succ hclock, Scanout.next, h.enabled hx hy, h.vram_eq _ hclock,
    (haddressed.active hH hV hx hy hcol hrow).1]
  rfl

/-- Before a line the read port is disabled. -/
theorem Frame.vramReg_zero (h : Frame s input vram) (hy : y < c.videoParams.pixelsV) :
    (frameRun s input (pixelClock c 0 y)).vramReg = idle s input y := by
  rw [idle]
  have hlt := pixelClock_lt (c := c) (Nat.zero_le _) hy
  cases hclock : pixelClock c 0 y with
  | zero => rfl
  | succ k =>
    rw [hclock] at hlt
    have hk : k < frameLength c := Nat.lt_of_succ_lt hlt
    have hoff : (frameRun s input k).dataEnable = false := by
      rw [← Bool.not_eq_true, h.dataEnable_iff hk]
      rintro ⟨x, hx, y', -, rfl⟩
      -- no active pixel stands before the first one of a line
      have hcol := congrArg (· % (c.videoParams.totalCountsH + 1)) hclock
      simp only [pixelClock_succ, (pixelClock_position (Nat.zero_le _)).2,
        (pixelClock_position hx).2] at hcol
      omega
    rw [h.succ hk, Scanout.next, hoff]
    rfl

/-- Each column shows the column before it. -/
theorem Frame.scan_out (h : Frame s input vram) (hs : Addressed s)
    (hH : c.magnificationRateH ∣ c.videoParams.pixelsH)
    (hV : c.magnificationRateV ∣ c.videoParams.pixelsV) (hx : x < c.videoParams.pixelsH)
    (hy : y < c.videoParams.pixelsV) :
    (frameRun s input (pixelClock c x y + 1)).video.pixelData =
      if x + 1 = c.videoParams.pixelsH then 0
      else late (c.pixelTranslation (idle s input y))
        (fun x => c.pixelTranslation (vram (pixelCell c x y))) x := by
  rw [h.pixelData_eq hx hy]
  cases x with
  | zero => rw [h.vramReg_zero hy, late]
  | succ x => rw [h.vramReg_succ hs hH hV (Nat.lt_of_succ_lt hx) hy, late]

/-- The output enables the data for the pixels, in their order, and shows every pixel's
own word exactly if all lines are uniform but for a black last column. -/
theorem pixels_shown_iff {before : ℕ → Inputs c} {t : ℕ}
    (hs : s = (Scanout.machine c).run (.init c) before t) (h : Frame s input vram)
    (hH : c.magnificationRateH ∣ c.videoParams.pixelsH)
    (hV : c.magnificationRateV ∣ c.videoParams.pixelsV) :
    (∀ k < frameLength c, (frameRun s input (k + 1)).video.dataEnable = true ↔
      ∃ x < c.videoParams.pixelsH, ∃ y < c.videoParams.pixelsV, k = pixelClock c x y) ∧
    ((∀ x < c.videoParams.pixelsH, ∀ y < c.videoParams.pixelsV,
      (frameRun s input (pixelClock c x y + 1)).video.pixelData = c.pixelTranslation
        (vram (y / c.magnificationRateV * c.vramPixelsH + x / c.magnificationRateH))) ↔
      Uniform s input vram) := by
  have haddressed : Addressed s := hs ▸ addressed_init.run hH hV before t
  refine ⟨?_, ?_⟩
  · intro k hk
    rw [h.dataEnable_succ hk, h.dataEnable_iff hk]
  · have hline := fun y => uniform_line (n := c.videoParams.pixelsH)
      (fun x => c.pixelTranslation (vram (pixelCell c x y))) (c.pixelTranslation (idle s input y)) 0
    constructor
    · intro hshown x hx y hy
      refine (hline y).mp (fun x hx => ?_) x hx
      rw [← h.scan_out haddressed hH hV hx hy]
      exact hshown x hx y hy
    · intro huniform x hx y hy
      rw [h.scan_out haddressed hH hV hx hy]
      exact (hline y).mpr (fun x hx => huniform x hx y hy) x hx

end

/-- Two lines of three pixels, neither magnified nor translated. -/
def smallVideo : ControllerParams := ⟨⟨8, 1, 2, 1, 1, 1, 3, 1, 1⟩, 8, 1, 1, id⟩

theorem pixels_shown_smallVideo :
    (frameRun (.init smallVideo) (fun _ => ⟨false, fun a => if a % 3 = 2 then 0 else 7, 7⟩)
      (pixelClock smallVideo 1 1 + 1)).video.pixelData = 7 := by
  have huniform : Uniform (c := smallVideo) (.init smallVideo)
      (fun _ => ⟨false, fun a => if a % 3 = 2 then 0 else 7, 7⟩)
      (fun a => if a % 3 = 2 then 0 else 7) := by
    unfold Uniform
    decide
  have hreset : Scanout.init smallVideo = (Scanout.machine smallVideo).run (.init smallVideo)
      (fun _ => ⟨true, fun _ => 0, 0⟩) 0 := rfl
  exact (pixels_shown_iff hreset ⟨rfl, rfl, fun _ _ => rfl, fun _ _ => rfl⟩ (by decide)
    (by decide)).2.mpr huniform 1 (by decide) 1 (by decide)

/-- The last column of a white picture in `TopWithHDMI` is black. -/
theorem last_column_black :
    Frame (.init topWithHDMI) (fun _ => ⟨false, fun _ => 0xff, 0⟩) (fun _ => 0xff) ∧
    (frameRun (.init topWithHDMI) (fun _ => ⟨false, fun _ => 0xff, 0⟩)
      (pixelClock topWithHDMI 1279 0 + 1)).video.dataEnable = true ∧
    (frameRun (.init topWithHDMI) (fun _ => ⟨false, fun _ => 0xff, 0⟩)
      (pixelClock topWithHDMI 1279 0 + 1)).video.pixelData = 0 ∧
    bgr233ToBgr888 0xff = 0xffffff := by
  have h : Frame (.init topWithHDMI) (fun _ => ⟨false, fun _ => 0xff, 0⟩) (fun _ => 0xff) :=
    ⟨rfl, rfl, fun _ _ => rfl, fun _ _ => rfl⟩
  have hx : 1279 < topWithHDMI.videoParams.pixelsH := by decide
  have hy : 0 < topWithHDMI.videoParams.pixelsV := by decide
  refine ⟨h, ?_, ?_, by decide⟩
  · have henabled := h.enabled hx hy
    rwa [← h.dataEnable_succ (pixelClock_lt (Nat.le_of_lt hx) hy)] at henabled
  · rw [h.scan_out addressed_init (by decide) (by decide) hx hy]
    exact if_pos (by decide)

end SeccampRiscvCpu.VideoPixels
