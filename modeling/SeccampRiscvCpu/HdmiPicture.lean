import SeccampRiscvCpu.DviEncoder
import SeccampRiscvCpu.RasterScan
import SeccampRiscvCpu.VideoPixels
import SeccampRiscvCpu.VramPort

/-!
# The picture on a monitor

`TopWithHDMI` gives the output of the video controller to the DVI encoder, on the pixel
clock, while the core stores pixels on its own clock. A monitor reads the symbols of each
pixel clock and puts the pixels together again.
-/
namespace SeccampRiscvCpu.HdmiPicture
open ClockedMachine CoreRegisters VideoSignals VideoScanout VideoTiming
  VideoAddress VideoPixels WordCounters RasterScan TmdsCode

/-! ## What the controller gives the encoder -/

section
variable {c : ControllerParams} (vram : ℕ → ℕ → BitVec c.vramPixelBits)
  (disabled : ℕ → BitVec c.vramPixelBits)

/-- The clock of frame `n` on which the counters are at column `x` of active line `y`. -/
def readClock (c : ControllerParams) (n x y : ℕ) : ℕ :=
  (n * (c.videoParams.totalCountsV + 1) + (c.videoParams.activeVLower + y)) *
    (c.videoParams.totalCountsH + 1) + (c.videoParams.activeHLower + x)

/-- Column `x` of line `y` in frame `n` of the output: the word of the column before, as it
was when that one was read, and black in the last column. -/
def outputPixel (n x y : ℕ) : BitVec c.videoParams.pixelBits :=
  if x + 1 = c.videoParams.pixelsH then 0
  else c.pixelTranslation (late (disabled (readClock c n 0 y - 1))
    (fun x => vram (readClock c n x y) (pixelCell c x y)) x)

/-- What a receiver of the signals is given. -/
def signalOf {pixelBits : ℕ} (video : VideoIo pixelBits) : Signal (BitVec pixelBits) :=
  if video.dataEnable then .pixel video.pixelData else .blank video.vSync

theorem controller_addressed (hH : c.magnificationRateH ∣ c.videoParams.pixelsH)
    (hV : c.magnificationRateV ∣ c.videoParams.pixelsV) (t : ℕ) :
    Addressed (controller vram disabled t) := addressed_init.run hH hV _ t

/-- The counters on clock `x` of line `y`. -/
theorem controller_position {x y : ℕ} (n : ℕ) (hx : x < c.videoParams.totalCountsH + 1)
    (hy : y < c.videoParams.totalCountsV + 1) :
    let s := controller vram disabled ((n * (c.videoParams.totalCountsV + 1) + y) *
      (c.videoParams.totalCountsH + 1) + x)
    s.counterH.toNat = x ∧ s.counterV.toNat = y := by
  have hraster := controller_raster vram disabled
  obtain ⟨hdiv, hmod⟩ := rounds_at (n * (c.videoParams.totalCountsV + 1) + y) hx
  refine ⟨?_, ?_⟩
  · rw [hraster.counterH_eq, hmod]
  · rw [hraster.counterV_eq, hdiv, (rounds_at n hy).2]

section
variable {n x y : ℕ}

theorem readClock_succ : readClock c n (x + 1) y = readClock c n x y + 1 := by
  simp only [readClock, Nat.add_assoc]

/-- One column behind an active line still stands in it. -/
theorem read_position (n : ℕ) (hx : x ≤ c.videoParams.pixelsH) (hy : y < c.videoParams.pixelsV) :
    (controller vram disabled (readClock c n x y)).counterH.toNat =
        c.videoParams.activeHLower + x ∧
      (controller vram disabled (readClock c n x y)).counterV.toNat =
        c.videoParams.activeVLower + y := by
  have hright := c.videoParams.activeHUpper_le
  have hbottom := c.videoParams.activeVUpper_le
  rw [c.videoParams.activeHUpper_eq] at hright
  rw [c.videoParams.activeVUpper_eq] at hbottom
  exact controller_position vram disabled n (by omega) (by omega)

theorem read_enabled (n : ℕ) (hx : x ≤ c.videoParams.pixelsH) (hy : y < c.videoParams.pixelsV) :
    (controller vram disabled (readClock c n x y)).dataEnable =
      decide (x < c.videoParams.pixelsH) := by
  obtain ⟨hH, hV⟩ := read_position vram disabled n hx hy
  rw [Bool.eq_iff_iff, VideoAddress.dataEnable_iff, hH, hV, c.videoParams.activeHUpper_eq,
    c.videoParams.activeVUpper_eq, decide_eq_true_iff]
  omega

/-- The clock before an active line. -/
theorem read_disabled (n : ℕ) (hpulse : 0 < c.videoParams.pulseWidthV)
    (hy : y < c.videoParams.pixelsV) :
    ∃ k, readClock c n 0 y = k + 1 ∧ (controller vram disabled k).dataEnable = false := by
  have hpos : 0 < readClock c n 0 y := by
    have hline : 0 < n * (c.videoParams.totalCountsV + 1) + (c.videoParams.activeVLower + y) := by
      unfold VideoParams.activeVLower
      omega
    exact Nat.add_pos_left (Nat.mul_pos hline (Nat.succ_pos _)) _
  obtain ⟨k, hk⟩ := Nat.exists_eq_add_of_lt hpos
  rw [Nat.zero_add] at hk
  refine ⟨k, hk, ?_⟩
  rw [← Bool.not_eq_true, VideoAddress.dataEnable_iff]
  rintro ⟨⟨hleft, hright⟩, htop, hbottom⟩
  -- the counter would stand one column further on the clock behind
  have hle := c.videoParams.activeHUpper_le
  have hnext := (read_position vram disabled n (Nat.zero_le _) hy).1
  rw [hk, controller_succ, next_counterH, if_pos (by omega)] at hnext
  omega

/-- The register of the read port on an active clock. -/
theorem read_vramReg (hH : c.magnificationRateH ∣ c.videoParams.pixelsH)
    (hV : c.magnificationRateV ∣ c.videoParams.pixelsV) (hpulse : 0 < c.videoParams.pulseWidthV)
    (hx : x < c.videoParams.pixelsH) (hy : y < c.videoParams.pixelsV) :
    (controller vram disabled (readClock c n x y)).vramReg =
      late (disabled (readClock c n 0 y - 1))
        (fun x => vram (readClock c n x y) (pixelCell c x y)) x := by
  cases x with
  | zero =>
    obtain ⟨k, hk, hoff⟩ := read_disabled vram disabled n hpulse hy
    rw [late, hk, controller_succ, Scanout.next, hoff, Nat.add_sub_cancel]
    rfl
  | succ x =>
    have hon := read_enabled vram disabled n (Nat.le_of_lt (Nat.lt_of_succ_lt hx)) hy
    obtain ⟨hcol, hrow⟩ := read_position vram disabled n
      (Nat.le_of_lt (Nat.lt_of_succ_lt hx)) hy
    rw [decide_eq_true (Nat.lt_of_succ_lt hx)] at hon
    have haddress := ((controller_addressed vram disabled hH hV (readClock c n x y)).active hH hV
      (Nat.lt_of_succ_lt hx) hy hcol hrow).1
    rw [late, readClock_succ, controller_succ, Scanout.next, hon, haddress]
    rfl

theorem video_active (hH : c.magnificationRateH ∣ c.videoParams.pixelsH)
    (hV : c.magnificationRateV ∣ c.videoParams.pixelsV) (hpulse : 0 < c.videoParams.pulseWidthV)
    (hx : x < c.videoParams.pixelsH) (hy : y < c.videoParams.pixelsV) :
    signalOf (controller vram disabled (readClock c n x y + 1)).video =
      .pixel (outputPixel vram disabled n x y) := by
  have hon := read_enabled vram disabled n (Nat.le_of_lt hx) hy
  rw [decide_eq_true hx] at hon
  have henable : (controller vram disabled (readClock c n x y + 1)).video.dataEnable = true := hon
  have hdata : (controller vram disabled (readClock c n x y + 1)).data = c.pixelTranslation
      (controller vram disabled (readClock c n x y)).vramReg := by
    rw [controller_succ, Scanout.next, hon]
    rfl
  have hnext := read_enabled vram disabled n (x := x + 1) hx hy
  rw [readClock_succ] at hnext
  rw [signalOf, if_pos henable, outputPixel, Scanout.video, hnext, hdata,
    read_vramReg vram disabled hH hV hpulse hx hy]
  -- the output is gated with the enable of the next column
  by_cases hlast : x + 1 = c.videoParams.pixelsH
  · rw [if_pos hlast, decide_eq_false (by omega)]
    rfl
  · rw [if_neg hlast, decide_eq_true (by omega)]
    rfl

theorem video_blank (hx : x < c.videoParams.totalCountsH + 1)
    (hy : y < c.videoParams.totalCountsV + 1) (hblank : ¬ active c.videoParams x y = true) :
    signalOf (controller vram disabled ((n * (c.videoParams.totalCountsV + 1) + y) *
      (c.videoParams.totalCountsH + 1) + x + 1)).video =
        .blank (decide (y < c.videoParams.pulseWidthV)) := by
  obtain ⟨hH, hV⟩ := controller_position vram disabled n hx hy
  rw [signalOf, controller_output, controller_enable, hH, hV, if_neg hblank, controller_succ,
    Scanout.next, Scanout.video, hV]

end

end

/-! ## What the encoder sends -/

/-- What a monitor reads from the three channels. -/
def reading : (Fin 3 → BitVec 10) → Signal (BitVec 24) :=
  DviEncoder.onChannels fun blue green red =>
    (receive blue).elim (fun control => .blank (control.getLsbD 1))
      fun low => .pixel (decode red ++ decode green ++ low)

theorem channels_append (pixelData : BitVec 24) :
    DviEncoder.channel pixelData 2 ++ DviEncoder.channel pixelData 1 ++
      DviEncoder.channel pixelData 0 = pixelData := by
  apply BitVec.eq_of_getLsbD_eq
  intro i hi
  simp only [DviEncoder.channel, BitVec.getLsbD_append, BitVec.getLsbD_extractLsb']
  by_cases hlow : i < 8
  · simp [hlow]
  · by_cases hmiddle : i < 16
    · have hoffset : 8 + (i - 8) = i := by omega
      have hlt : i - 8 < 8 := by omega
      simp [hlow, hlt, hoffset]
    · have hoffset : 16 + (i - 8 - 8) = i := by omega
      have hle : ¬ i - 8 < 8 := by omega
      have hlt : i - 8 - 8 < 8 := by omega
      simp [hlow, hle, hlt, hoffset]

/-- The symbols of a pixel on a channel. -/
theorem dviData_active {s : DviEncoder.DviOut} {input : ℕ → VideoIo 24} {t : ℕ}
    (h : (input t).dataEnable = true) (ch : Fin 3) : ∃ inverted,
      (DviEncoder.DviOut.machine.run s input (t + 4)).dviData ch = DviEncoder.symbol
        (DviEncoder.transitionMinimized (DviEncoder.channel (input t).pixelData ch)) inverted := by
  obtain ⟨henable, -, hword⟩ := DviEncoder.run_videoRegs s input t
  obtain ⟨inverted, hsymbol⟩ := DviEncoder.dcBalancing_symbol
    (DviEncoder.word ((DviEncoder.DviOut.machine.run s input (t + 3)).videoRegs 0).pixelData ch)
    ((DviEncoder.DviOut.machine.run s input (t + 3)).counter ch)
  rw [← DviEncoder.DviOut.step_data (henable.trans h) (input (t + 3)) ch, hword] at hsymbol
  exact ⟨inverted, hsymbol⟩

/-- Four clocks after it has been given a signal the encoder sends it. -/
theorem reading_dviData (s : DviEncoder.DviOut) (input : ℕ → VideoIo 24) (t : ℕ) :
    reading (DviEncoder.DviOut.machine.run s input (t + 4)).dviData = signalOf (input t) := by
  cases hdata : (input t).dataEnable with
  | false =>
    obtain ⟨henable, hcontrol, -⟩ := DviEncoder.run_videoRegs s input t
    have hsymbol : (DviEncoder.DviOut.machine.run s input (t + 4)).dviData 0 =
        controlSymbol (DviEncoder.control (input t) 0) := by
      rw [← DviEncoder.transitionMaximized_eq, ← hcontrol]
      exact (DviEncoder.DviOut.step_blank (henable.trans hdata) (input (t + 3)) 0).1
    rw [reading, DviEncoder.onChannels, hsymbol, receive_control, Sum.elim_inl, signalOf, hdata,
      DviEncoder.control, if_pos rfl]
    cases (input t).vSync <;> cases (input t).hSync <;> rfl
  | true =>
    obtain ⟨low, hlow⟩ := dviData_active (s := s) hdata 0
    obtain ⟨middle, hmiddle⟩ := dviData_active (s := s) hdata 1
    obtain ⟨high, hhigh⟩ := dviData_active (s := s) hdata 2
    rw [reading, DviEncoder.onChannels, hlow, hmiddle, hhigh,
      receive_data (DviEncoder.symbol_ne_control _ _), Sum.elim_inr, DviEncoder.decode_symbol,
      DviEncoder.decode_symbol, DviEncoder.decode_symbol, signalOf, if_pos hdata]
    exact congrArg Signal.pixel (channels_append _)

/-! ## The two clocks -/

/-- A pixel clock, with the clocks of the core since the one before it: their accesses to
the video memory, each with what a read of a cell that does not exist gives. -/
structure PixelClock where
  core : List (BitVec topWithHDMI.vramPixelBits × DmemRequest)
  pixelReset : Bool
  disabled : BitVec topWithHDMI.vramPixelBits

/-- The video controller on both clocks and the encoder behind it. -/
structure TopWithHDMI where
  mem : VramPort.Port topWithHDMI
  video : Scanout topWithHDMI
  dviOut : DviEncoder.DviOut

namespace TopWithHDMI

/-- The signals between the controller and the encoder. -/
def signals (s : TopWithHDMI) : VideoIo 24 := s.video.video

def coreClocks (mem : VramPort.Port topWithHDMI)
    (core : List (BitVec topWithHDMI.vramPixelBits × DmemRequest)) : VramPort.Port topWithHDMI :=
  core.foldl (fun mem i => mem.step i.1 i.2) mem

def step (s : TopWithHDMI) (i : PixelClock) : TopWithHDMI where
  mem := coreClocks s.mem i.core
  video := s.video.step ⟨i.pixelReset, (coreClocks s.mem i.core).vram, i.disabled⟩
  dviOut := if i.pixelReset then .init else s.dviOut.step s.signals

/-- The three channels are the outputs. -/
def machine : Machine TopWithHDMI PixelClock (Fin 3 → BitVec 10) :=
  ⟨step, fun s _ => [s.dviOut.dviData]⟩

end TopWithHDMI

/-- The accesses of the core before pixel clock `t`. -/
def requests (input : ℕ → PixelClock) : ℕ → List DmemRequest
  | 0 => []
  | t + 1 => requests input t ++ (input t).core.map Prod.snd

/-- The pixels that pixel clock `t` finds: those of the start after all stores before it. -/
def stored (vram : ℕ → BitVec topWithHDMI.vramPixelBits) (input : ℕ → PixelClock) (t : ℕ) :
    ℕ → BitVec topWithHDMI.vramPixelBits :=
  (requests input (t + 1)).foldl VramPort.store vram

/-- The reset ends after the first clock. -/
structure Released (input : ℕ → PixelClock) : Prop where
  reset : (input 0).pixelReset = true
  released : ∀ t, (input (t + 1)).pixelReset = false

def frame : Frame where
  width := topWithHDMI.videoParams.totalCountsH + 1
  height := topWithHDMI.videoParams.totalCountsV + 1
  pulse := topWithHDMI.videoParams.pulseWidthV
  left := topWithHDMI.videoParams.activeHLower
  top := topWithHDMI.videoParams.activeVLower
  pixelsH := topWithHDMI.videoParams.pixelsH
  pixelsV := topWithHDMI.videoParams.pixelsV
  pulse_pos := by decide
  pulse_le := by decide
  pixelsH_pos := by decide
  pixelsV_pos := by decide
  right_lt := by decide
  bottom_le := by decide

/-- The pixels of frame `n`, with the contents the memory starts with. -/
def framePixels (vram : ℕ → BitVec topWithHDMI.vramPixelBits) (input : ℕ → PixelClock)
    (n x y : ℕ) : BitVec 24 :=
  outputPixel (c := topWithHDMI) (fun t => stored vram input (t + 1))
    (fun t => (input (t + 1)).disabled) n x y

section
variable (s : TopWithHDMI) {input : ℕ → PixelClock}

theorem coreClocks_vram (mem : VramPort.Port topWithHDMI)
    (core : List (BitVec topWithHDMI.vramPixelBits × DmemRequest)) :
    (TopWithHDMI.coreClocks mem core).vram =
      (core.map Prod.snd).foldl VramPort.store mem.vram := by
  rw [TopWithHDMI.coreClocks]
  induction core generalizing mem with
  | nil => rfl
  | cons i core ih => exact ih _

theorem mem_run (input : ℕ → PixelClock) (t : ℕ) : (TopWithHDMI.machine.run s input t).mem.vram =
    (requests input t).foldl VramPort.store s.mem.vram := by
  induction t with
  | zero => rfl
  | succ t ih =>
    rw [requests, List.foldl_append, ← ih]
    exact coreClocks_vram _ _

/-- What the scan-out finds in the memory. -/
theorem mem_found (input : ℕ → PixelClock) (t : ℕ) :
    (TopWithHDMI.coreClocks (TopWithHDMI.machine.run s input t).mem (input t).core).vram =
      stored s.mem.vram input t := by
  rw [coreClocks_vram, mem_run, stored, requests, List.foldl_append]

theorem video_run (h : Released input) (t : ℕ) :
    (TopWithHDMI.machine.run s input (t + 1)).video =
      controller (fun t => stored s.mem.vram input (t + 1)) (fun t => (input (t + 1)).disabled)
        t := by
  induction t with
  | zero =>
    simp only [Machine.run_succ, TopWithHDMI.machine, TopWithHDMI.step, Scanout.step, h.reset]
    rfl
  | succ t ih =>
    have hstep : (TopWithHDMI.machine.run s input (t + 1 + 1)).video =
        (TopWithHDMI.machine.run s input (t + 1)).video.next ⟨(input (t + 1)).pixelReset,
          (TopWithHDMI.coreClocks (TopWithHDMI.machine.run s input (t + 1)).mem
            (input (t + 1)).core).vram, (input (t + 1)).disabled⟩ := by
      rw [Machine.run_succ]
      simp only [TopWithHDMI.machine, TopWithHDMI.step, Scanout.step, h.released t]
      rfl
    rw [hstep, mem_found, ih, h.released t]
    rfl

theorem signals_run (h : Released input) (t : ℕ) :
    (TopWithHDMI.machine.run s input (t + 1)).signals =
      (controller (c := topWithHDMI) (fun t => stored s.mem.vram input (t + 1))
        (fun t => (input (t + 1)).disabled) t).video :=
  congrArg Scanout.video (video_run s h t)

theorem dviOut_run (h : Released input) (t : ℕ) :
    (TopWithHDMI.machine.run s input (t + 1)).dviOut = DviEncoder.DviOut.machine.run .init
      (fun t => (TopWithHDMI.machine.run s input (t + 1)).signals) t := by
  induction t with
  | zero =>
    simp only [Machine.run_succ, TopWithHDMI.machine, TopWithHDMI.step, h.reset]
    rfl
  | succ t ih =>
    have hstep : (TopWithHDMI.machine.run s input (t + 1 + 1)).dviOut =
        (TopWithHDMI.machine.run s input (t + 1)).dviOut.step
          (TopWithHDMI.machine.run s input (t + 1)).signals := by
      rw [Machine.run_succ]
      simp only [TopWithHDMI.machine, TopWithHDMI.step, h.released t]
      rfl
    rw [hstep, ih]
    rfl

/-- What a monitor reads on a clock of frame `n`. -/
theorem reading_run (h : Released input) {n x y : ℕ} (hx : x < frame.width)
    (hy : y < frame.height) :
    reading (TopWithHDMI.machine.run s input (6 + frame.lineClock n y + x)).dviOut.dviData =
      frame.signal (framePixels s.mem.vram input n) x y := by
  have hclock : 6 + frame.lineClock n y + x = frame.lineClock n y + x + 1 + 4 + 1 := by omega
  rw [hclock, dviOut_run s h, reading_dviData, signals_run s h]
  by_cases hactive : frame.Active x y
  · obtain ⟨i, rfl⟩ := Nat.exists_eq_add_of_le hactive.1.1
    obtain ⟨j, rfl⟩ := Nat.exists_eq_add_of_le hactive.2.1
    have hi : i < frame.pixelsH := Nat.lt_of_add_lt_add_left hactive.1.2
    have hj : j < frame.pixelsV := Nat.lt_of_add_lt_add_left hactive.2.2
    rw [Frame.signal_active hi hj]
    exact video_active (c := topWithHDMI) _ _ (by decide) (by decide) (by decide) hi hj
  · rw [Frame.signal, if_neg hactive]
    exact video_blank (c := topWithHDMI) _ _ hx hy fun hon => hactive (active_iff.mp hon)

/-- From the start of any frame on, a monitor that is switched on before it, in any state,
shows one picture for each frame, in order: each pixel in the colour that the cell of the
column before held when it was read, and the last column black. -/
theorem frames_shown (h : Released input) (d : Display (BitVec 24)) (t₀ n₀ n : ℕ)
    (hon : t₀ ≤ 6 + frame.lineClock n₀ 0) :
    let seen := fun t => reading (TopWithHDMI.machine.run s input (t₀ + t)).dviOut.dviData
    Display.machine.trace d seen (6 + frame.lineClock (n₀ + n) 0 + 1 - t₀) =
      Display.machine.trace d seen (6 + frame.lineClock n₀ 0 + 1 - t₀) ++
        (List.range n).map fun k => frame.picture (framePixels s.mem.vram input (n₀ + k)) := by
  intro seen
  have hframes : ∀ n y,
      frame.lineClock (n₀ + n) y = frame.lineClock n₀ 0 + frame.lineClock n y := by
    intro n y
    simp only [Frame.lineClock]
    ring
  have hscans : frame.Scans seen (6 + frame.lineClock n₀ 0 - t₀)
      fun k => framePixels s.mem.vram input (n₀ + k) := by
    intro n y hy x hx
    have hclock : t₀ + (6 + frame.lineClock n₀ 0 - t₀ + frame.lineClock n y + x) =
        6 + frame.lineClock (n₀ + n) y + x := by
      rw [hframes]
      omega
    simp only [seen]
    rw [hclock]
    exact reading_run s h hx hy
  have hshows := (hscans.shows d n).trace_eq
  have hend : 6 + frame.lineClock (n₀ + n) 0 + 1 - t₀ =
      6 + frame.lineClock n₀ 0 - t₀ + frame.lineClock n 0 + 1 := by
    rw [hframes]
    omega
  have hstart : 6 + frame.lineClock n₀ 0 + 1 - t₀ = 6 + frame.lineClock n₀ 0 - t₀ + 1 := by omega
  rw [hend, hstart]
  exact hshows

end

/-- The core makes the first pixel white while the pixel clock is in reset. -/
def whitePixel (t : ℕ) : PixelClock :=
  ⟨if t = 0 then [(0, ⟨0xb0000000, false, true, 0b1111, 0xff⟩)] else [], decide (t = 0), 0⟩

theorem frames_shown_whitePixel :
    let s : TopWithHDMI := ⟨.init fun _ => 0, .init topWithHDMI, .init⟩
    let seen := fun t => reading (TopWithHDMI.machine.run s whitePixel (0 + t)).dviOut.dviData
    Display.machine.trace .empty seen (6 + frame.lineClock (0 + 1) 0 + 1 - 0) =
      Display.machine.trace .empty seen (6 + frame.lineClock 0 0 + 1 - 0) ++
        (List.range 1).map fun k =>
          frame.picture (framePixels s.mem.vram whitePixel (0 + k)) := by
  have hreleased : Released whitePixel := ⟨rfl, fun _ => rfl⟩
  exact frames_shown _ hreleased .empty 0 0 1 (Nat.zero_le _)

end SeccampRiscvCpu.HdmiPicture
