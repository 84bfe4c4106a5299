import SeccampRiscvCpu.ClockedMachine
import SeccampRiscvCpu.VideoSignals
import SeccampRiscvCpu.WordCounters

/-!
# The scan-out of the video controller

The part of `VideoController` that runs on the video clock: two counters that walk over
the frame, the address of the pixel in the video memory with two counters for the
magnification, and the registers between the memory and the pixel output.

What the memory holds at an edge of the video clock is an input; the other clock writes it.
-/
namespace SeccampRiscvCpu.VideoScanout
open ClockedMachine VideoSignals WordCounters

structure ControllerParams where
  videoParams : VideoParams
  vramPixelBits : ℕ
  magnificationRateH : ℕ
  magnificationRateV : ℕ
  pixelTranslation : BitVec vramPixelBits → BitVec videoParams.pixelBits

namespace ControllerParams
variable (c : ControllerParams)

def vramPixelsH : ℕ := c.videoParams.pixelsH / c.magnificationRateH
def vramPixelsV : ℕ := c.videoParams.pixelsV / c.magnificationRateV
def vramAddressMax : ℕ := c.vramPixelsH * c.vramPixelsV

end ControllerParams

/-- BGR233 to BGR888 -/
def bgr233ToBgr888 (value : BitVec 8) : BitVec 24 :=
  value.extractLsb 7 6 ++ BitVec.fill 6 (value.getLsbD 6) ++ value.extractLsb 5 3 ++
    BitVec.fill 5 (value.getLsbD 3) ++ value.extractLsb 2 0 ++ BitVec.fill 5 (value.getLsbD 0)

/-- The controller in `TopWithHDMI` -/
def topWithHDMI : ControllerParams where
  videoParams := ⟨24, 20, 720, 5, 5, 220, 1280, 110, 40⟩
  vramPixelBits := 8
  magnificationRateH := 16
  magnificationRateV := 16
  pixelTranslation := bgr233ToBgr888

/-- The inputs at one edge of the video clock. The read port of the memory is only enabled
while pixels are read; `disabled` is whatever its register gets in the other clocks. -/
structure Inputs (c : ControllerParams) where
  videoReset : Bool
  vram : ℕ → BitVec c.vramPixelBits
  disabled : BitVec c.vramPixelBits

structure Scanout (c : ControllerParams) where
  counterH : BitVec c.videoParams.countHBits
  counterV : BitVec c.videoParams.countVBits
  data : BitVec c.videoParams.pixelBits
  dataEnableReg : Bool
  hSync : Bool
  vSync : Bool
  lineAddress : BitVec (Nat.clog 2 c.vramAddressMax)
  pixelAddress : BitVec (Nat.clog 2 c.vramAddressMax)
  magnificationCounterH : BitVec (Nat.clog 2 c.magnificationRateH)
  magnificationCounterV : BitVec (Nat.clog 2 c.magnificationRateV)
  vramReg : BitVec c.vramPixelBits
deriving DecidableEq

namespace Scanout
variable {c : ControllerParams}

def init (c : ControllerParams) : Scanout c := ⟨0, 0, 0, false, true, true, 0, 0, 0, 0, 0⟩

variable (s : Scanout c)

def activeH : Bool :=
  c.videoParams.activeHLower ≤ s.counterH.toNat && s.counterH.toNat < c.videoParams.activeHUpper

def activeV : Bool :=
  c.videoParams.activeVLower ≤ s.counterV.toNat && s.counterV.toNat < c.videoParams.activeVUpper

def dataEnable : Bool := s.activeH && s.activeV

def endOfLine : Bool := !decide (s.counterH.toNat < c.videoParams.totalCountsH)

def endOfFrame : Bool :=
  s.endOfLine && !decide (s.counterV.toNat < c.videoParams.totalCountsV)

/-- The address of the line behind this one. -/
def nextLineAddress : BitVec (Nat.clog 2 c.vramAddressMax) :=
  if s.magnificationCounterV.toNat = c.magnificationRateV - 1 then
    s.lineAddress + .ofNat _ c.vramPixelsH
  else s.lineAddress

/-- A clock without reset. -/
def next (i : Inputs c) : Scanout c where
  counterH := if s.counterH.toNat < c.videoParams.totalCountsH then s.counterH + 1 else 0
  counterV :=
    if s.endOfLine then
      if s.counterV.toNat < c.videoParams.totalCountsV then s.counterV + 1 else 0
    else s.counterV
  data := if s.dataEnable then c.pixelTranslation s.vramReg else 0
  dataEnableReg := s.dataEnable
  hSync := decide (s.counterH.toNat < c.videoParams.pulseWidthH)
  vSync := decide (s.counterV.toNat < c.videoParams.pulseWidthV)
  lineAddress :=
    if s.endOfFrame then 0
    else if s.activeV && s.endOfLine then s.nextLineAddress
    else s.lineAddress
  pixelAddress :=
    if s.endOfFrame then 0
    else if s.activeV && s.endOfLine then s.nextLineAddress
    else if s.dataEnable && s.magnificationCounterH.toNat == c.magnificationRateH - 1 then
      s.pixelAddress + 1
    else s.pixelAddress
  magnificationCounterH :=
    if s.dataEnable then
      if s.magnificationCounterH.toNat = c.magnificationRateH - 1 then 0
      else s.magnificationCounterH + 1
    else s.magnificationCounterH
  magnificationCounterV :=
    if s.activeV && s.endOfLine then
      if s.magnificationCounterV.toNat = c.magnificationRateV - 1 then 0
      else s.magnificationCounterV + 1
    else s.magnificationCounterV
  vramReg := if s.dataEnable then i.vram s.pixelAddress.toNat else i.disabled

def step (i : Inputs c) : Scanout c := if i.videoReset then init c else s.next i

/-- `io.video` -/
def video : VideoIo c.videoParams.pixelBits where
  pixelData := if s.dataEnable then s.data else 0
  hSync := s.hSync
  vSync := s.vSync
  dataEnable := s.dataEnableReg

def machine (c : ControllerParams) :
    Machine (Scanout c) (Inputs c) (VideoIo c.videoParams.pixelBits) :=
  ⟨step, fun s _ => [s.video]⟩

end Scanout

/-! ## The counters -/

section
variable {c : ControllerParams} {s : Scanout c}

/-- The counters are on the frame, which has one clock and one line more than the totals. -/
structure OnFrame (s : Scanout c) : Prop where
  counterH_le : s.counterH.toNat ≤ c.videoParams.totalCountsH
  counterV_le : s.counterV.toNat ≤ c.videoParams.totalCountsV

theorem onFrame_init : OnFrame (Scanout.init c) := by
  constructor <;> simp [Scanout.init]

theorem next_counterH (i : Inputs c) : (s.next i).counterH.toNat =
    if s.counterH.toNat < c.videoParams.totalCountsH then s.counterH.toNat + 1 else 0 := by
  simp only [Scanout.next]
  split_ifs with hmore
  · exact toNat_add_one (lt_two_pow_clog (by omega))
  · exact BitVec.toNat_zero

theorem next_counterV (i : Inputs c) : (s.next i).counterV.toNat =
    if s.endOfLine then
      if s.counterV.toNat < c.videoParams.totalCountsV then s.counterV.toNat + 1 else 0
    else s.counterV.toNat := by
  simp only [Scanout.next]
  split_ifs with hend hmore
  · exact toNat_add_one (lt_two_pow_clog (by omega))
  · exact BitVec.toNat_zero
  · rfl

theorem OnFrame.next (h : OnFrame s) (i : Inputs c) : OnFrame (s.next i) := by
  constructor
  · rw [next_counterH]
    split_ifs <;> omega
  · have hle := h.counterV_le
    rw [next_counterV]
    split_ifs <;> omega

end

end SeccampRiscvCpu.VideoScanout
