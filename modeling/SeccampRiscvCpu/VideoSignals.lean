import Mathlib

/-!
# Video signals and their timing parameters
-/
namespace SeccampRiscvCpu.VideoSignals

structure VideoIo (pixelBits : ℕ) where
  pixelData : BitVec pixelBits
  hSync : Bool
  vSync : Bool
  dataEnable : Bool
deriving DecidableEq

def VideoIo.default (pixelBits : ℕ) : VideoIo pixelBits := ⟨0, true, true, false⟩

structure VideoParams where
  pixelBits : ℕ
  backPorchV : ℕ
  pixelsV : ℕ
  frontPorchV : ℕ
  pulseWidthV : ℕ
  backPorchH : ℕ
  pixelsH : ℕ
  frontPorchH : ℕ
  pulseWidthH : ℕ
deriving DecidableEq, Repr

namespace VideoParams
variable (p : VideoParams)

def totalCountsH : ℕ := p.backPorchH + p.pixelsH + p.frontPorchH + p.pulseWidthH
def totalCountsV : ℕ := p.backPorchV + p.pixelsV + p.frontPorchV + p.pulseWidthV
def countHBits : ℕ := Nat.clog 2 (p.totalCountsH + 1)
def countVBits : ℕ := Nat.clog 2 (p.totalCountsV + 1)

def activeHLower : ℕ := p.pulseWidthH + p.backPorchH
def activeHUpper : ℕ := p.pulseWidthH + p.backPorchH + p.pixelsH
def activeVLower : ℕ := p.pulseWidthV + p.backPorchV
def activeVUpper : ℕ := p.pulseWidthV + p.backPorchV + p.pixelsV

theorem activeHUpper_eq : p.activeHUpper = p.activeHLower + p.pixelsH := rfl

theorem activeVUpper_eq : p.activeVUpper = p.activeVLower + p.pixelsV := rfl

theorem activeHUpper_le : p.activeHUpper ≤ p.totalCountsH := by
  unfold activeHUpper totalCountsH
  omega

theorem activeVUpper_le : p.activeVUpper ≤ p.totalCountsV := by
  unfold activeVUpper totalCountsV
  omega

end VideoParams

end SeccampRiscvCpu.VideoSignals
