import SeccampRiscvCpu.ClockedMachine

/-!
# Pictures from a raster

A display is given a pixel or a blank clock at a time. The pixels between two blank clocks
are a line, the lines between two vertical syncs a picture, and a picture is shown when
the next sync starts.

The frames of a source have their pixels in a rectangle. From the next sync on a display
shows one picture for each frame, in order, whatever it held before.
-/
namespace SeccampRiscvCpu.RasterScan
open ClockedMachine

/-! ## The display -/

section
variable {α : Type*}

/-- What a display is given in one clock. -/
inductive Signal (α : Type*) where
  | pixel (a : α)
  | blank (vSync : Bool)
deriving DecidableEq

/-- The lines of a picture, top first, and the pixels of the line below them. -/
structure Display (α : Type*) where
  lines : List (List α)
  line : List α
deriving DecidableEq

namespace Display

def empty : Display α := ⟨[], []⟩

/-- The lines with the last one, if it has been started. -/
def picture (d : Display α) : List (List α) :=
  if d.line.isEmpty then d.lines else d.lines ++ [d.line]

def step (d : Display α) : Signal α → Display α
  | .pixel a => ⟨d.lines, d.line ++ [a]⟩
  | .blank vSync => if vSync then empty else ⟨d.picture, []⟩

def emit (d : Display α) : Signal α → List (List (List α))
  | .pixel _ => []
  | .blank vSync => if vSync && !d.picture.isEmpty then [d.picture] else []

def machine : Machine (Display α) (Signal α) (List (List α)) := ⟨step, emit⟩

theorem picture_between (lines : List (List α)) : picture ⟨lines, []⟩ = lines := rfl

/-- There is no picture without lines. -/
theorem emit_empty : emit (empty : Display α) (.blank true) = [] := rfl

theorem picture_within {lines : List (List α)} {line : List α} (h : line ≠ []) :
    picture ⟨lines, line⟩ = lines ++ [line] := by
  rw [picture, if_neg]
  simpa using h

end Display

/-- What a display holds before a clock, and the pictures it has shown. -/
structure Shows (d : Display α) (input : ℕ → Signal α) (t : ℕ) (d' : Display α)
    (shown : List (List (List α))) : Prop where
  run_eq : Display.machine.run d input t = d'
  trace_eq : Display.machine.trace d input t = shown

variable {d d' : Display α} {input : ℕ → Signal α} {t n : ℕ} {lines : List (List α)}
  {line : List α} {shown : List (List (List α))}

theorem Shows.next {i : Signal α} (h : Shows d input t d' shown) (hi : input t = i) :
    Shows d input (t + 1) (d'.step i) (shown ++ d'.emit i) := by
  constructor
  · rw [Machine.run_succ, h.run_eq, hi]
    rfl
  · rw [Machine.trace_succ, h.run_eq, h.trace_eq, hi]
    rfl

theorem Shows.pixels {p : ℕ → α} (h : Shows d input t ⟨lines, line⟩ shown)
    (hi : ∀ x < n, input (t + x) = .pixel (p x)) :
    Shows d input (t + n) ⟨lines, line ++ (List.range n).map p⟩ shown := by
  induction n with
  | zero => simpa using h
  | succ n ih =>
    have hnext := (ih fun x hx => hi x (Nat.lt_succ_of_lt hx)).next (hi n (Nat.lt_succ_self n))
    rw [List.range_succ, List.map_append, ← List.append_assoc]
    rwa [Display.emit, List.append_nil] at hnext

theorem Shows.blanks (h : Shows d input t ⟨lines, []⟩ shown)
    (hi : ∀ x < n, input (t + x) = .blank false) :
    Shows d input (t + n) ⟨lines, []⟩ shown := by
  induction n with
  | zero => exact h
  | succ n ih =>
    have hnext := (ih fun x hx => hi x (Nat.lt_succ_of_lt hx)).next (hi n (Nat.lt_succ_self n))
    rwa [Display.emit, Bool.false_and, if_neg Bool.false_ne_true, List.append_nil] at hnext

theorem Shows.syncs (h : Shows d input t .empty shown)
    (hi : ∀ x < n, input (t + x) = .blank true) : Shows d input (t + n) .empty shown := by
  induction n with
  | zero => exact h
  | succ n ih =>
    have hnext := (ih fun x hx => hi x (Nat.lt_succ_of_lt hx)).next (hi n (Nat.lt_succ_self n))
    rwa [Display.emit_empty, List.append_nil] at hnext

/-- A blank clock ends the line. -/
theorem Shows.ends (h : Shows d input t ⟨lines, line⟩ shown) (hline : line ≠ [])
    (hi : input t = .blank false) : Shows d input (t + 1) ⟨lines ++ [line], []⟩ shown := by
  have hnext := h.next hi
  rwa [Display.emit, Bool.false_and, if_neg Bool.false_ne_true, List.append_nil, Display.step,
    if_neg Bool.false_ne_true, Display.picture_within hline] at hnext

/-- A sync shows the picture. -/
theorem Shows.sync (h : Shows d input t ⟨lines, []⟩ shown) (hlines : lines ≠ [])
    (hi : input t = .blank true) : Shows d input (t + 1) .empty (shown ++ [lines]) := by
  have hnext := h.next hi
  rwa [Display.emit, Display.picture_between, if_pos (by simpa using hlines), Display.step,
    if_pos rfl] at hnext

/-- A sync starts a picture in every state. -/
theorem shows_sync (d : Display α) (hi : input t = .blank true) :
    Shows d input (t + 1) .empty (Display.machine.trace d input (t + 1)) := by
  refine ⟨?_, rfl⟩
  rw [Machine.run_succ, hi]
  rfl

end

/-! ## The source -/

/-- The lines and clocks of a frame: syncs in the first lines, and the rectangle with the
pixels below them. Each line ends with a blank clock. -/
structure Frame where
  width : ℕ
  height : ℕ
  pulse : ℕ
  left : ℕ
  top : ℕ
  pixelsH : ℕ
  pixelsV : ℕ
  pulse_pos : 0 < pulse
  pulse_le : pulse ≤ top
  pixelsH_pos : 0 < pixelsH
  pixelsV_pos : 0 < pixelsV
  right_lt : left + pixelsH < width
  bottom_le : top + pixelsV ≤ height

namespace Frame
variable {α : Type*} (f : Frame)

def Active (x y : ℕ) : Prop :=
  (f.left ≤ x ∧ x < f.left + f.pixelsH) ∧ f.top ≤ y ∧ y < f.top + f.pixelsV

instance (x y : ℕ) : Decidable (f.Active x y) := inferInstanceAs (Decidable (_ ∧ _))

/-- What a frame with the pixels `p` gives on clock `x` of line `y`. -/
def signal (p : ℕ → ℕ → α) (x y : ℕ) : Signal α :=
  if f.Active x y then .pixel (p (x - f.left) (y - f.top)) else .blank (decide (y < f.pulse))

/-- The clocks before line `y` of frame `n`. -/
def lineClock (n y : ℕ) : ℕ := (n * f.height + y) * f.width

/-- From clock `start` on, `input` gives a frame after the other. -/
def Scans (input : ℕ → Signal α) (start : ℕ) (p : ℕ → ℕ → ℕ → α) : Prop :=
  ∀ n, ∀ y < f.height, ∀ x < f.width, input (start + f.lineClock n y + x) = f.signal (p n) x y

def row (p : ℕ → ℕ → α) (y : ℕ) : List α := (List.range f.pixelsH).map fun x => p x y

def picture (p : ℕ → ℕ → α) : List (List α) := (List.range f.pixelsV).map (f.row p)

/-- The lines of the picture above line `y` of the frame. -/
def above (p : ℕ → ℕ → α) (y : ℕ) : List (List α) :=
  (List.range (min (y - f.top) f.pixelsV)).map (f.row p)

section
variable {f} {p : ℕ → ℕ → α} {x y n : ℕ}

theorem lineClock_succ : f.lineClock n (y + 1) = f.lineClock n y + f.width := Nat.succ_mul _ _

theorem lineClock_height : f.lineClock n f.height = f.lineClock (n + 1) 0 := by
  rw [lineClock, lineClock, Nat.add_zero, Nat.succ_mul]

theorem signal_active (hx : x < f.pixelsH) (hy : y < f.pixelsV) :
    f.signal p (f.left + x) (f.top + y) = .pixel (p x y) := by
  have hactive : f.Active (f.left + x) (f.top + y) := ⟨⟨by omega, by omega⟩, by omega, by omega⟩
  rw [signal, if_pos hactive, Nat.add_sub_cancel_left, Nat.add_sub_cancel_left]

theorem signal_blank (h : ¬ f.Active x y) (hy : f.pulse ≤ y) : f.signal p x y = .blank false := by
  rw [signal, if_neg h, decide_eq_false (by omega)]

theorem signal_sync (hy : y < f.pulse) : f.signal p x y = .blank true := by
  have htop := f.pulse_le
  have hactive : ¬ f.Active x y := fun h => absurd h.2.1 (by omega)
  rw [signal, if_neg hactive, decide_eq_true hy]

theorem above_top (hy : y ≤ f.top) : f.above p y = [] := by
  rw [above, Nat.sub_eq_zero_of_le hy, Nat.zero_min]
  rfl

theorem above_succ (hy : y < f.pixelsV) :
    f.above p (f.top + y + 1) = f.above p (f.top + y) ++ [f.row p y] := by
  rw [above, above, Nat.add_assoc, Nat.add_sub_cancel_left, Nat.add_sub_cancel_left,
    Nat.min_eq_left hy, Nat.min_eq_left (Nat.le_of_lt hy), List.range_succ, List.map_append]
  rfl

theorem above_bottom (hy : f.top + f.pixelsV ≤ y) : f.above p y = f.picture p := by
  rw [above, Nat.min_eq_right (by omega), picture]

theorem row_ne_nil : f.row p y ≠ [] := by
  have hpos := f.pixelsH_pos
  simp only [row, ne_eq, List.map_eq_nil_iff, List.range_eq_nil]
  omega

theorem picture_ne_nil : f.picture p ≠ [] := by
  have hpos := f.pixelsV_pos
  simp only [picture, ne_eq, List.map_eq_nil_iff, List.range_eq_nil]
  omega

end

/-! ## A run over the frames -/

section
variable {f} {d : Display α} {input : ℕ → Signal α} {start : ℕ} {p : ℕ → ℕ → ℕ → α} {y n : ℕ}
  {shown : List (List (List α))} (hscans : f.Scans input start p)
include hscans

/-- A line with pixels adds them to the picture. -/
theorem Scans.activeLine (hy : y < f.pixelsV)
    (h : Shows d input (start + f.lineClock n (f.top + y)) ⟨f.above (p n) (f.top + y), []⟩ shown) :
    Shows d input (start + f.lineClock n (f.top + y + 1)) ⟨f.above (p n) (f.top + y + 1), []⟩
      shown := by
  have hright := f.right_lt
  have hbottom := f.bottom_le
  have hpulse := f.pulse_le
  have hline := hscans n (f.top + y) (by omega)
  have hleft := h.blanks (n := f.left) (fun x hx => by
    rw [hline x (by omega), signal_blank (fun ha => absurd ha.1.1 (by omega)) (by omega)])
  have hpixels := hleft.pixels (n := f.pixelsH) (p := fun x => p n x y) (fun x hx => by
    rw [Nat.add_assoc _ f.left x, hline _ (by omega), signal_active hx hy])
  have hblank : ∀ x, f.left + f.pixelsH ≤ x → x < f.width →
      input (start + f.lineClock n (f.top + y) + x) = .blank false := by
    intro x hx hlt
    rw [hline x hlt, signal_blank (fun ha => absurd ha.1.2 (by omega)) (by omega)]
  have hend := hpixels.ends row_ne_nil (by
    rw [Nat.add_assoc _ f.left, hblank _ (Nat.le_refl _) hright])
  have hrest := hend.blanks (n := f.width - (f.left + f.pixelsH + 1)) (fun x hx => by
    rw [Nat.add_assoc _ f.left, Nat.add_assoc _ (f.left + f.pixelsH), Nat.add_assoc _ _ x,
      hblank _ (by omega) (by omega)])
  have hclock : start + f.lineClock n (f.top + y) + f.left + f.pixelsH + 1 +
      (f.width - (f.left + f.pixelsH + 1)) = start + f.lineClock n (f.top + y + 1) := by
    rw [lineClock_succ]
    omega
  rw [hclock] at hrest
  rw [above_succ hy]
  exact hrest

/-- A line between the syncs and the pixels, or below them. -/
theorem Scans.blankLine (hpulse : f.pulse ≤ y) (hy : y < f.height)
    (hblank : y < f.top ∨ f.top + f.pixelsV ≤ y)
    (h : Shows d input (start + f.lineClock n y) ⟨f.above (p n) y, []⟩ shown) :
    Shows d input (start + f.lineClock n (y + 1)) ⟨f.above (p n) (y + 1), []⟩ shown := by
  have hline := h.blanks (n := f.width) (fun x hx => by
    rw [hscans n y hy x hx, signal_blank (fun ha => absurd ha.2 (by omega)) hpulse])
  have habove : f.above (p n) (y + 1) = f.above (p n) y := by
    rcases hblank with htop | hbottom
    · rw [above_top htop, above_top (Nat.le_of_lt htop)]
    · rw [above_bottom hbottom, above_bottom (Nat.le_succ_of_le hbottom)]
  rw [lineClock_succ, ← Nat.add_assoc, habove]
  exact hline

theorem Scans.syncLine (hy : y < f.pulse)
    (h : Shows d input (start + f.lineClock n y) .empty shown) :
    Shows d input (start + f.lineClock n (y + 1)) .empty shown := by
  have hpulse := f.pulse_le
  have hbottom := f.bottom_le
  have hline := h.syncs (n := f.width) (fun x hx => by
    rw [hscans n y (by omega) x hx, signal_sync hy])
  rw [lineClock_succ, ← Nat.add_assoc]
  exact hline

/-- Behind its first clock a frame starts with an empty picture; on its first lines there
are only syncs. -/
theorem Scans.lines (h : Shows d input (start + f.lineClock n 0 + 1) .empty shown)
    (hy : y < f.height) :
    Shows d input (start + f.lineClock n (y + 1)) ⟨f.above (p n) (y + 1), []⟩ shown := by
  have hpos := f.pulse_pos
  have hpulse := f.pulse_le
  have hright := f.right_lt
  induction y with
  | zero =>
    have hline := h.syncs (n := f.width - 1) (fun x hx => by
      rw [Nat.add_assoc _ 1 x, hscans n 0 hy _ (by omega), signal_sync hpos])
    have hclock : start + f.lineClock n 0 + 1 + (f.width - 1) = start + f.lineClock n (0 + 1) := by
      rw [lineClock_succ]
      omega
    rw [hclock] at hline
    rw [above_top (by omega)]
    exact hline
  | succ y ih =>
    have hbefore := ih (by omega)
    by_cases hsync : y + 1 < f.pulse
    · rw [above_top (by omega)] at hbefore ⊢
      exact hscans.syncLine hsync hbefore
    · by_cases hactive : f.top ≤ y + 1 ∧ y + 1 < f.top + f.pixelsV
      · obtain ⟨k, hk⟩ := Nat.exists_eq_add_of_le hactive.1
        rw [hk] at hbefore ⊢
        exact hscans.activeLine (by omega) hbefore
      · exact hscans.blankLine (by omega) hy (by omega) hbefore

/-- A frame has been shown when the next one has started. -/
theorem Scans.frame (h : Shows d input (start + f.lineClock n 0 + 1) .empty shown) :
    Shows d input (start + f.lineClock (n + 1) 0 + 1) .empty (shown ++ [f.picture (p n)]) := by
  have hbottom := f.bottom_le
  have hpos := f.pixelsV_pos
  have hright := f.right_lt
  have hlast := hscans.lines (y := f.height - 1) h (by omega)
  rw [Nat.sub_add_cancel (by omega), above_bottom hbottom, lineClock_height] at hlast
  refine hlast.sync picture_ne_nil ?_
  exact (hscans (n + 1) 0 (by omega) 0 (by omega)).trans (signal_sync f.pulse_pos)

/-- Whatever a display held before, it shows the frames in their order. -/
theorem Scans.shows (d : Display α) (n : ℕ) :
    Shows d input (start + f.lineClock n 0 + 1) .empty
      (Display.machine.trace d input (start + 1) ++
        (List.range n).map fun k => f.picture (p k)) := by
  have hbottom := f.bottom_le
  have hright := f.right_lt
  have hpos := f.pixelsV_pos
  induction n with
  | zero =>
    have hfirst : input start = .blank true := by
      have hsync := hscans 0 0 (by omega) 0 (by omega)
      rw [signal_sync f.pulse_pos] at hsync
      simpa [lineClock] using hsync
    have hstart := shows_sync d hfirst
    simpa [lineClock] using hstart
  | succ n ih =>
    have hframe := hscans.frame ih
    rw [List.range_succ, List.map_append, ← List.append_assoc]
    exact hframe

end

end Frame

end SeccampRiscvCpu.RasterScan
