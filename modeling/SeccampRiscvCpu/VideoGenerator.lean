import SeccampRiscvCpu.ClockedMachine
import SeccampRiscvCpu.VideoSignals
import SeccampRiscvCpu.WordCounters

/-!
# The video signal generator and the widths of its configuration

`VideoSignalGenerator` takes its timing from a configuration whose fields are as wide as the
fields of the largest parameters. A sum is as wide as its wider operand, so the totals lose
a carry where the fields add up to more than the widest one of them holds; the bounds of the
active area are widened first and lose none.
-/
namespace SeccampRiscvCpu.VideoGenerator
open ClockedMachine VideoSignals WordCounters

/-! ## Sums and differences of two widths -/

section
variable {a b : ℕ}

/-- `x + y` -/
def plus (x : BitVec a) (y : BitVec b) : BitVec (max a b) := x.setWidth _ + y.setWidth _

/-- `x - y` -/
def minus (x : BitVec a) (y : BitVec b) : BitVec (max a b) := x.setWidth _ - y.setWidth _

theorem toNat_wider {w : ℕ} (x : BitVec a) (h : a ≤ w) : (x.setWidth w).toNat = x.toNat := by
  rw [BitVec.toNat_setWidth]
  exact Nat.mod_eq_of_lt (Nat.lt_of_lt_of_le x.isLt (Nat.pow_le_pow_right Nat.two_pos h))

theorem toNat_plus (x : BitVec a) (y : BitVec b) :
    (plus x y).toNat = (x.toNat + y.toNat) % 2 ^ max a b := by
  rw [plus, BitVec.toNat_add, toNat_wider x (Nat.le_max_left a b),
    toNat_wider y (Nat.le_max_right a b)]

end

/-! ## The configuration -/

structure VideoConfig (p : VideoParams) where
  backPorchV : BitVec (Nat.clog 2 (p.backPorchV + 1))
  pixelsV : BitVec (Nat.clog 2 (p.pixelsV + 1))
  frontPorchV : BitVec (Nat.clog 2 (p.frontPorchV + 1))
  pulseWidthV : BitVec (Nat.clog 2 (p.pulseWidthV + 1))
  backPorchH : BitVec (Nat.clog 2 (p.backPorchH + 1))
  pixelsH : BitVec (Nat.clog 2 (p.pixelsH + 1))
  frontPorchH : BitVec (Nat.clog 2 (p.frontPorchH + 1))
  pulseWidthH : BitVec (Nat.clog 2 (p.pulseWidthH + 1))

/-- `pulseWidth + backPorch + pixels + frontPorch` -/
def totalCounts {w x y z : ℕ} (pulseWidth : BitVec w) (backPorch : BitVec x) (pixels : BitVec y)
    (frontPorch : BitVec z) : BitVec (max (max (max w x) y) z) :=
  plus (plus (plus pulseWidth backPorch) pixels) frontPorch

/-- `totalCounts - 1.U` in a register of `n` bits. -/
def totalMinus1 {w x y z : ℕ} (n : ℕ) (pulseWidth : BitVec w) (backPorch : BitVec x)
    (pixels : BitVec y) (frontPorch : BitVec z) : BitVec n :=
  (minus (totalCounts pulseWidth backPorch pixels frontPorch) 1#1).setWidth n

/-- `(pulseWidth + 0.U(n.W)) + backPorch` in a register of `n` bits. -/
def activeLower {w x : ℕ} (n : ℕ) (pulseWidth : BitVec w) (backPorch : BitVec x) : BitVec n :=
  (plus (plus pulseWidth 0#n) backPorch).setWidth n

/-- `(pulseWidth + 0.U(n.W)) + backPorch + pixels` in a register of `n` bits. -/
def activeUpper {w x y : ℕ} (n : ℕ) (pulseWidth : BitVec w) (backPorch : BitVec x)
    (pixels : BitVec y) : BitVec n :=
  (plus (plus (plus pulseWidth 0#n) backPorch) pixels).setWidth n

namespace VideoConfig
variable {p : VideoParams}

/-- The literals of `default`. -/
def ofParams (p d : VideoParams) : VideoConfig p where
  backPorchV := .ofNat _ d.backPorchV
  pixelsV := .ofNat _ d.pixelsV
  frontPorchV := .ofNat _ d.frontPorchV
  pulseWidthV := .ofNat _ d.pulseWidthV
  backPorchH := .ofNat _ d.backPorchH
  pixelsH := .ofNat _ d.pixelsH
  frontPorchH := .ofNat _ d.frontPorchH
  pulseWidthH := .ofNat _ d.pulseWidthH

variable (c : VideoConfig p)

/-- The parameters that the fields stand for. -/
def params : VideoParams where
  pixelBits := p.pixelBits
  backPorchV := c.backPorchV.toNat
  pixelsV := c.pixelsV.toNat
  frontPorchV := c.frontPorchV.toNat
  pulseWidthV := c.pulseWidthV.toNat
  backPorchH := c.backPorchH.toNat
  pixelsH := c.pixelsH.toNat
  frontPorchH := c.frontPorchH.toNat
  pulseWidthH := c.pulseWidthH.toNat

def totalCountsHMinus1 : BitVec p.countHBits :=
  totalMinus1 p.countHBits c.pulseWidthH c.backPorchH c.pixelsH c.frontPorchH

/-- In as many bits as the count of a line. -/
def totalCountsVMinus1 : BitVec p.countHBits :=
  totalMinus1 p.countHBits c.pulseWidthV c.backPorchV c.pixelsV c.frontPorchV

def activeHLower : BitVec p.countHBits := activeLower p.countHBits c.pulseWidthH c.backPorchH
def activeVLower : BitVec p.countVBits := activeLower p.countVBits c.pulseWidthV c.backPorchV
def activeHUpper : BitVec p.countHBits :=
  activeUpper p.countHBits c.pulseWidthH c.backPorchH c.pixelsH
def activeVUpper : BitVec p.countVBits :=
  activeUpper p.countVBits c.pulseWidthV c.backPorchV c.pixelsV

end VideoConfig

/-! ## The module -/

structure VideoSignal (pixelBits : ℕ) where
  pixelData : BitVec pixelBits
  startOfFrame : Bool

/-- The two ports with a valid signal. -/
structure Inputs (p : VideoParams) where
  data : Option (VideoSignal p.pixelBits)
  config : Option (VideoConfig p)

structure VideoSignalGenerator (p : VideoParams) where
  nextVideoConfig : VideoConfig p
  videoConfig : VideoConfig p
  totalCountsHMinus1 : BitVec p.countHBits
  totalCountsVMinus1 : BitVec p.countHBits
  activeHLower : BitVec p.countHBits
  activeHUpper : BitVec p.countHBits
  activeVLower : BitVec p.countVBits
  activeVUpper : BitVec p.countVBits
  counterH : BitVec p.countHBits
  counterV : BitVec p.countVBits
  data : BitVec p.pixelBits
  dataEnableReg : Bool
  hSync : Bool
  vSync : Bool
  dataInSync : Bool

namespace VideoSignalGenerator
variable {p : VideoParams}

/-- After reset with the default parameters `d`. -/
def new (p d : VideoParams) : VideoSignalGenerator p where
  nextVideoConfig := .ofParams p d
  videoConfig := .ofParams p d
  totalCountsHMinus1 := 0
  totalCountsVMinus1 := 0
  activeHLower := 0
  activeHUpper := 0
  activeVLower := 0
  activeVUpper := 0
  counterH := 0
  counterV := 0
  data := 0
  dataEnableReg := false
  hSync := true
  vSync := true
  dataInSync := false

variable (s : VideoSignalGenerator p)

/-- `counterH === 0.U && counterV === 0.U` -/
def atOrigin : Bool := s.counterH == 0 && s.counterV == 0

def dataEnable : Bool :=
  (s.activeHLower.toNat ≤ s.counterH.toNat && s.counterH.toNat < s.activeHUpper.toNat) &&
    (s.activeVLower.toNat ≤ s.counterV.toNat && s.counterV.toNat < s.activeVUpper.toNat)

/-- A start of frame is offered. -/
def startOfFrame (i : Inputs p) : Bool := i.data.any (·.startOfFrame)

/-- `io.data.ready` -/
def dataReady (i : Inputs p) : Bool :=
  (!s.dataInSync && i.data.isSome && !startOfFrame i) || (s.dataInSync && s.dataEnable)

/-- The registers of the timing, loaded in the first clock of a frame. -/
def updateConfig : VideoSignalGenerator p :=
  if s.atOrigin then
    { s with
      videoConfig := s.nextVideoConfig
      totalCountsHMinus1 := s.nextVideoConfig.totalCountsHMinus1
      totalCountsVMinus1 := s.nextVideoConfig.totalCountsVMinus1
      activeHLower := s.nextVideoConfig.activeHLower
      activeVLower := s.nextVideoConfig.activeVLower
      activeHUpper := s.nextVideoConfig.activeHUpper
      activeVUpper := s.nextVideoConfig.activeVUpper }
  else s

/-- What a clock writes in sync or not. -/
def update (i : Inputs p) : VideoSignalGenerator p :=
  { s.updateConfig with
    nextVideoConfig := i.config.getD s.nextVideoConfig
    hSync := !decide (s.counterH.toNat < s.videoConfig.pulseWidthH.toNat)
    vSync := !decide (s.counterV.toNat < s.videoConfig.pulseWidthV.toNat) }

/-- A clock; every read is of the registers before it. -/
def step (i : Inputs p) : VideoSignalGenerator p :=
  if s.dataInSync then
    { s.update i with
      counterH := if s.counterH < s.totalCountsHMinus1 then s.counterH + 1 else 0
      counterV :=
        if s.counterH < s.totalCountsHMinus1 then s.counterV
        else if s.counterV.toNat < s.totalCountsVMinus1.toNat then s.counterV + 1 else 0
      dataInSync :=
        !(s.counterH == s.activeHLower && s.counterV == s.activeVLower && !startOfFrame i)
      data := (i.data.map (·.pixelData)).getD 0
      dataEnableReg := s.dataEnable }
  else
    { s.update i with
      counterH := 0
      counterV := 0
      dataInSync := startOfFrame i }

/-- `io.video` -/
def video : VideoIo p.pixelBits where
  hSync := s.hSync
  vSync := s.vSync
  dataEnable := s.dataEnableReg
  pixelData := if s.dataEnable then s.data else 0

/-- `io.triggerFrame` -/
def triggerFrame : Bool := !s.dataInSync || (!s.hSync && !s.vSync)

end VideoSignalGenerator

/-! ## When a total is right -/

/-- A sum of two numbers below the modulus loses one carry or none. -/
theorem mod_cases {v n : ℕ} (h : v < 2 * n) : v < n ∧ v % n = v ∨ n ≤ v ∧ v % n = v - n := by
  rcases Nat.lt_or_ge v n with hlt | hge
  · exact .inl ⟨hlt, Nat.mod_eq_of_lt hlt⟩
  · refine .inr ⟨hge, ?_⟩
    rw [Nat.mod_eq_sub_mod hge, Nat.mod_eq_of_lt (by omega)]

/-- Below the modulus and not above a number in its class: the number or, at the modulus, zero. -/
theorem mod_eq_mod_iff_of_le {x y n : ℕ} (hxy : x ≤ y) (hy : y ≤ n) :
    x % n = y % n ↔ x = y ∨ x = 0 ∧ y = n := by
  rcases Nat.lt_or_eq_of_le hy with hlt | rfl
  · rw [Nat.mod_eq_of_lt (Nat.lt_of_le_of_lt hxy hlt), Nat.mod_eq_of_lt hlt]
    omega
  · rw [Nat.mod_self]
    rcases Nat.lt_or_eq_of_le hxy with hlt | rfl
    · rw [Nat.mod_eq_of_lt hlt]
      omega
    · rw [Nat.mod_self]
      exact iff_of_true rfl (.inl rfl)

theorem two_pow_mod_cases (m j : ℕ) : 2 ^ m % 2 ^ j = 0 ∨ 2 ^ m % 2 ^ j = 2 ^ m := by
  rcases Nat.lt_or_ge m j with hlt | hge
  · exact .inr (Nat.mod_eq_of_lt (Nat.pow_lt_pow_right Nat.one_lt_two hlt))
  · exact .inl (Nat.mod_eq_zero_of_dvd (Nat.pow_dvd_pow 2 hge))

/-- Only equal powers of two add up to one. -/
theorem eq_of_two_pow_add {i j m : ℕ} (hij : i ≤ j) (h : 2 ^ i + 2 ^ j = 2 ^ m) : i = j := by
  rcases Nat.lt_or_ge i j with hlt | hge
  · have hless := Nat.pow_lt_pow_right Nat.one_lt_two hlt
    have hmod := two_pow_mod_cases m j
    rw [← h, Nat.add_mod_right, Nat.mod_eq_of_lt hless] at hmod
    have hpos := Nat.two_pow_pos i
    omega
  · exact Nat.le_antisymm hij hge

/-- The carries of the three additions of a total make no difference to it exactly if there are
none, or if they are all of the total and this is a power of two. -/
theorem wrapped_iff {i j k m pw bp px fp : ℕ} (hij : i ≤ j) (hjk : j ≤ k) (hmk : m ≤ k)
    (hpw : pw < 2 ^ i) (hbp : bp < 2 ^ i) (hpx : px < 2 ^ j) (hfp : fp < 2 ^ k)
    (hle : pw + bp + px + fp ≤ 2 ^ m) :
    (((pw + bp) % 2 ^ i + px) % 2 ^ j + fp) % 2 ^ k % 2 ^ m = (pw + bp + px + fp) % 2 ^ m ↔
      pw + bp < 2 ^ i ∧ pw + bp + px < 2 ^ j ∨
        fp = 0 ∧ pw + bp + px = 2 ^ m ∧ (px = 0 ∨ pw + bp < 2 ^ i ∨ i = j) := by
  have hA := Nat.pow_le_pow_right Nat.two_pos hij
  have hB := Nat.pow_le_pow_right Nat.two_pos hjk
  have hM := Nat.pow_le_pow_right Nat.two_pos hmk
  have hs2 := mod_cases (show pw + bp < 2 * 2 ^ i by omega)
  have hlt2 := Nat.mod_lt (pw + bp) (Nat.two_pow_pos i)
  have hs3 := mod_cases (show (pw + bp) % 2 ^ i + px < 2 * 2 ^ j by omega)
  have hlt3 := Nat.mod_lt ((pw + bp) % 2 ^ i + px) (Nat.two_pow_pos j)
  have hs4 := mod_cases (show ((pw + bp) % 2 ^ i + px) % 2 ^ j + fp < 2 * 2 ^ k by omega)
  have hlt4 := Nat.mod_lt (((pw + bp) % 2 ^ i + px) % 2 ^ j + fp) (Nat.two_pow_pos k)
  rw [mod_eq_mod_iff_of_le (by omega) hle]
  constructor
  · intro h
    have heq : 2 ^ i + 2 ^ j = 2 ^ m → i = j := eq_of_two_pow_add hij
    by_cases hfit : pw + bp < 2 ^ i ∧ pw + bp + px < 2 ^ j
    · exact .inl hfit
    · by_cases hij' : i = j
      · exact .inr ⟨by omega, by omega, .inr (.inr hij')⟩
      · refine .inr ⟨by omega, by omega, ?_⟩
        omega
  · rintro (hfit | ⟨rfl, hfull, hcase⟩)
    · omega
    · -- up to the second width the sums are those of a power of two
      have hsecond : ((pw + bp) % 2 ^ i + px) % 2 ^ j = 2 ^ m % 2 ^ j ∨
          ((pw + bp) % 2 ^ i + px) % 2 ^ j = 2 ^ m % 2 ^ i := by
        rcases hcase with rfl | hlt | rfl
        · rw [Nat.add_zero] at hfull ⊢
          rw [hfull]
          exact .inr (Nat.mod_eq_of_lt (Nat.lt_of_lt_of_le (Nat.mod_lt _ (Nat.two_pow_pos i)) hA))
        · rw [Nat.mod_eq_of_lt hlt, hfull]
          exact .inl rfl
        · rw [Nat.mod_add_mod, hfull]
          exact .inl rfl
      have hmodi := two_pow_mod_cases m i
      have hmodj := two_pow_mod_cases m j
      omega

/-- A register that counts to one less than what is added up modulo `n`. -/
theorem succ_eq_iff {r x y n : ℕ} (hr : r < n) (hx : (r + 1) % n = x % n) :
    r + 1 = y ↔ 0 < y ∧ y ≤ n ∧ x % n = y % n := by
  constructor
  · rintro rfl
    exact ⟨Nat.succ_pos r, hr, hx.symm⟩
  · rintro ⟨hpos, hle, hy⟩
    have hmod := hx.trans hy
    rcases Nat.le_total (r + 1) y with hbelow | habove
    · rw [mod_eq_mod_iff_of_le hbelow hle] at hmod
      omega
    · have hback := (mod_eq_mod_iff_of_le habove hr).mp hmod.symm
      omega

section
variable {w x y z n : ℕ} {pulseWidth : BitVec w} {backPorch : BitVec x} {pixels : BitVec y}
  {frontPorch : BitVec z}

/-- The total is at least one and fits its register and its own width, and so do the sums before
it; or the last field is zero and the sums wrap to zero at a total that is a power of two. -/
structure TotalFits (n : ℕ) (pulseWidth : BitVec w) (backPorch : BitVec x) (pixels : BitVec y)
    (frontPorch : BitVec z) : Prop where
  pos : 0 < pulseWidth.toNat + backPorch.toNat + pixels.toNat + frontPorch.toNat
  le : pulseWidth.toNat + backPorch.toNat + pixels.toNat + frontPorch.toNat ≤
    2 ^ min n (max (max (max w x) y) z)
  sums : pulseWidth.toNat + backPorch.toNat < 2 ^ max w x ∧
      pulseWidth.toNat + backPorch.toNat + pixels.toNat < 2 ^ max (max w x) y ∨
    frontPorch.toNat = 0 ∧
      pulseWidth.toNat + backPorch.toNat + pixels.toNat = 2 ^ min n (max (max (max w x) y) z) ∧
      (pixels.toNat = 0 ∨ pulseWidth.toNat + backPorch.toNat < 2 ^ max w x ∨ y ≤ max w x)

theorem toNat_lt_of_le (v : BitVec w) (h : w ≤ n) : v.toNat < 2 ^ n :=
  Nat.lt_of_lt_of_le v.isLt (Nat.pow_le_pow_right Nat.two_pos h)

theorem toNat_totalCounts : (totalCounts pulseWidth backPorch pixels frontPorch).toNat =
    (((pulseWidth.toNat + backPorch.toNat) % 2 ^ max w x + pixels.toNat) % 2 ^ max (max w x) y +
      frontPorch.toNat) % 2 ^ max (max (max w x) y) z := by
  rw [totalCounts, toNat_plus, toNat_plus, toNat_plus]

theorem toNat_minus_one {k : ℕ} (v : BitVec k) (hk : 0 < k) :
    (minus v 1#1).toNat < 2 ^ k ∧ ((minus v 1#1).toNat + 1) % 2 ^ k = v.toNat % 2 ^ k := by
  have hmax : max k 1 = k := Nat.max_eq_left hk
  have hpow : 2 ≤ 2 ^ k := Nat.pow_le_pow_right Nat.two_pos hk
  have hone : ((1#1).setWidth (max k 1)).toNat = 1 := toNat_wider 1#1 (Nat.le_max_right k 1)
  have hvalue : (minus v 1#1).toNat = (2 ^ k - 1 + v.toNat) % 2 ^ k := by
    rw [minus, BitVec.toNat_sub, toNat_wider v (Nat.le_max_left k 1), hone, hmax]
  rw [hvalue]
  refine ⟨Nat.mod_lt _ (Nat.two_pow_pos k), ?_⟩
  have hsum : 2 ^ k - 1 + v.toNat + 1 = v.toNat + 2 ^ k := by omega
  rw [Nat.mod_add_mod, hsum, Nat.add_mod_right]

/-- The register is one less than the total, up to the width of both. -/
theorem totalMinus1_spec (n : ℕ) (pulseWidth : BitVec w) (backPorch : BitVec x)
    (pixels : BitVec y) (frontPorch : BitVec z) (hwidth : 0 < max (max (max w x) y) z) :
    (totalMinus1 n pulseWidth backPorch pixels frontPorch).toNat <
        2 ^ min n (max (max (max w x) y) z) ∧
      ((totalMinus1 n pulseWidth backPorch pixels frontPorch).toNat + 1) %
          2 ^ min n (max (max (max w x) y) z) =
        (totalCounts pulseWidth backPorch pixels frontPorch).toNat %
          2 ^ min n (max (max (max w x) y) z) := by
  obtain ⟨hlt, hmod⟩ := toNat_minus_one (totalCounts pulseWidth backPorch pixels frontPorch) hwidth
  rw [totalMinus1, BitVec.toNat_setWidth]
  constructor
  · rcases Nat.le_total n (max (max (max w x) y) z) with hn | hn
    · rw [Nat.min_eq_left hn]
      exact Nat.mod_lt _ (Nat.two_pow_pos n)
    · rw [Nat.min_eq_right hn]
      exact Nat.lt_of_le_of_lt (Nat.mod_le _ _) hlt
  · have hregister := Nat.pow_dvd_pow 2 (Nat.min_le_left n (max (max (max w x) y) z))
    have hwidest := Nat.pow_dvd_pow 2 (Nat.min_le_right n (max (max (max w x) y) z))
    rw [← Nat.mod_mod_of_dvd (totalCounts pulseWidth backPorch pixels frontPorch).toNat hwidest,
      ← hmod, Nat.mod_mod_of_dvd _ hwidest]
    exact Nat.add_mod_eq_add_mod_right 1 (Nat.mod_mod_of_dvd _ hregister)

/-- **When a total is right.** -/
theorem totalMinus1_iff :
    (totalMinus1 n pulseWidth backPorch pixels frontPorch).toNat + 1 =
        pulseWidth.toNat + backPorch.toNat + pixels.toNat + frontPorch.toNat ↔
      TotalFits n pulseWidth backPorch pixels frontPorch := by
  have hpw := toNat_lt_of_le pulseWidth (Nat.le_max_left w x)
  have hbp := toNat_lt_of_le backPorch (Nat.le_max_right w x)
  have hpx := toNat_lt_of_le pixels (Nat.le_max_right (max w x) y)
  have hfp := toNat_lt_of_le frontPorch (Nat.le_max_right (max (max w x) y) z)
  have hij := Nat.le_max_left (max w x) y
  have hjk := Nat.le_max_left (max (max w x) y) z
  rcases Nat.eq_zero_or_pos (max (max (max w x) y) z) with hnone | hwidth
  · -- without a bit the total is zero, and no register makes it one less
    have hi : max w x = 0 := by omega
    have hj : max (max w x) y = 0 := by omega
    rw [hi, Nat.pow_zero] at hpw hbp
    rw [hj, Nat.pow_zero] at hpx
    rw [hnone, Nat.pow_zero] at hfp
    refine iff_of_false (by omega) fun h => ?_
    have hpos := h.pos
    omega
  · obtain ⟨hlt, hmod⟩ := totalMinus1_spec n pulseWidth backPorch pixels frontPorch hwidth
    have hwide : y ≤ max w x ↔ max w x = max (max w x) y := by omega
    rw [succ_eq_iff hlt hmod, toNat_totalCounts]
    constructor
    · rintro ⟨hpos, hle, hsum⟩
      rw [wrapped_iff hij hjk (Nat.min_le_right _ _) hpw hbp hpx hfp hle, ← hwide] at hsum
      exact ⟨hpos, hle, hsum⟩
    · rintro ⟨hpos, hle, hsum⟩
      refine ⟨hpos, hle, ?_⟩
      rw [wrapped_iff hij hjk (Nat.min_le_right _ _) hpw hbp hpx hfp hle, ← hwide]
      exact hsum
end

end SeccampRiscvCpu.VideoGenerator
