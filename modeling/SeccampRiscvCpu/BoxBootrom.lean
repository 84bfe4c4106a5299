import SeccampRiscvCpu.BusPrograms
import SeccampRiscvCpu.HdmiPicture
import SeccampRiscvCpu.TopSystem

/-!
# The program of TopWithHDMI

`bootrom.c` paints seven stripes into the video memory and then moves a black box over
them, by one cell in each direction with each vertical sync; where the box was it puts back
what it has found there before. Once a second it shows the next value on the pins.
-/
namespace SeccampRiscvCpu.BoxBootrom
open BusPrograms ByteMemory CoreRegisters DmemDecoder TopSystem VideoScanout WordCounters

/-! ## The program -/

abbrev Firmware (α : Type) := Program Word Word α

def regGpioOut : Word := 0xa0000000
def regVram : Word := 0xb0000000
def regVideoController : Word := 0xb0020000

def videoWidth : ℕ := 1280 / 16
def videoHeight : ℕ := 720 / 16
def boxWidth : ℕ := 8
def boxHeight : ℕ := 8

/-- The address of cell `a`: `vram + a`. -/
def cellPointer (a : ℕ) : Word := regVram + .ofNat 32 (4 * a)

/-- The two loops over a rectangle, with a pointer that runs along each line. -/
def rectangle {α : Type} (body : Word → α → Firmware α) (xs ys xe ye : ℕ) (a : α) : Firmware α :=
  Program.count (fun y a => do
    let r ← Program.count (fun _ (r : Word × α) => do
      let a ← body r.1 r.2
      return (r.1 + 4, a)) xs (xe - xs) (cellPointer (y * videoWidth + xs), a)
    return r.2) ys (ye - ys) a

/-- The buffer is filled from its start on. -/
def copyFromVram (xs ys xe ye : ℕ) : Firmware (List Byte) :=
  rectangle (fun p buffer => do
    let value ← .read p
    return buffer ++ [value.setWidth 8]) xs ys xe ye []

/-- The rest of the buffer is what is behind the pointer; it is as long as the rectangle. -/
def copyToVram (buffer : List Byte) (xs ys xe ye : ℕ) : Firmware (List Byte) :=
  rectangle (fun p buffer => do
    .write p ((buffer.headD 0).setWidth 32)
    return buffer.tail) xs ys xe ye buffer

def fillVram (value : Byte) (xs ys xe ye : ℕ) : Firmware Unit :=
  rectangle (fun p _ => .write p (value.setWidth 32)) xs ys xe ye ()

/-- The colour of column `x`. -/
def stripe (x : ℕ) : Word :=
  if x < videoWidth * 1 / 7 then 0b11111111
  else if x < videoWidth * 2 / 7 then 0b11000000
  else if x < videoWidth * 3 / 7 then 0b11111000
  else if x < videoWidth * 4 / 7 then 0b00111000
  else if x < videoWidth * 5 / 7 then 0b00111111
  else if x < videoWidth * 6 / 7 then 0b00000111
  else 0b11000111

/-- The loops over the background; the pointer runs on over the ends of the lines. -/
def drawBackground : Firmware Word :=
  Program.count (fun _ p => Program.count (fun x p => do
    .write p (stripe x)
    return p + 4) 0 videoWidth p) 0 videoHeight regVram

/-- The variables of `main`. -/
structure Main where
  boxBuffer : List Byte
  ledOut : Word
  bx : Word
  by_ : Word
  dx : Word
  dy : Word
  oneSecondCounter : Word

/-- Up to the loop. -/
def start : Firmware Main := do
  let _ ← drawBackground
  let boxBuffer ← copyFromVram 0 0 boxWidth boxHeight
  return ⟨boxBuffer, 1, 0, 0, 1, 1, 0⟩

/-- `while(!(*REG_VIDEO_CONTROLLER & 4));` gives up after so many loads. -/
def waitVSync : ℕ → Firmware Bool
  | 0 => return false
  | polls + 1 => do
    let value ← .read regVideoController
    if value.getLsbD 2 then return true else waitVSync polls

/-- The pins get their next value once a second. -/
def nextLed (s : Main) : Firmware Word :=
  if s.oneSecondCounter = 0 then do
    .write regGpioOut s.ledOut
    return (s.ledOut <<< 1) ||| ((s.ledOut >>> 5) &&& 1)
  else return s.ledOut

def everySecond (s : Main) : Firmware Main := do
  let ledOut ← nextLed s
  return { s with
    ledOut := ledOut
    oneSecondCounter := if s.oneSecondCounter = 59 then 0 else s.oneSecondCounter + 1 }

/-- From the sync to the end of the round. -/
def moveBox (s : Main) : Firmware Main := do
  let s ← everySecond s
  let _ ← copyToVram s.boxBuffer s.bx.toNat s.by_.toNat (s.bx + 8).toNat (s.by_ + 8).toNat
  let bx := s.bx + s.dx
  let by_ := s.by_ + s.dy
  let boxBuffer ← copyFromVram bx.toNat by_.toNat (bx + 8).toNat (by_ + 8).toNat
  fillVram 0 bx.toNat by_.toNat (bx + 8).toNat (by_ + 8).toNat
  return {
    boxBuffer := boxBuffer
    ledOut := s.ledOut
    bx := bx
    by_ := by_
    dx := if bx = 0 ∨ bx + 8 = .ofNat 32 videoWidth then -s.dx else s.dx
    dy := if by_ = 0 ∨ by_ + 8 = .ofNat 32 videoHeight then -s.dy else s.dy
    oneSecondCounter := s.oneSecondCounter }

/-- `n` rounds of the loop; nothing comes behind a sync that has been waited for in vain. -/
def rounds (polls : ℕ) : ℕ → Main → Firmware (Option Main)
  | 0, s => return some s
  | n + 1, s => do
    if ← waitVSync polls then
      let s ← moveBox s
      rounds polls n s
    else return none

def main (polls n : ℕ) : Firmware (Option Main) := do
  let s ← start
  rounds polls n s

/-! ## The bus -/

def vramRange : AddressRange := ⟨0xb0000000, 0x20000⟩

/-- The video memory and the port of the pins behind the decoder, along a run. -/
structure Runs (mem : ℕ → VramPort.Port topWithHDMI) (gpio : ℕ → Gpio)
    (undefined : ℕ → BitVec topWithHDMI.vramPixelBits) (request : ℕ → DmemRequest) : Prop where
  mem_succ : ∀ t, mem (t + 1) =
    (mem t).step (undefined t) (targetRequest vramRange (request t))
  gpio_succ : ∀ t, gpio (t + 1) = (gpio t).step (targetRequest gpioRange (request t))

/-- A load of the video memory is held for two clocks and does not come directly behind
another one. What another target answers is left open. -/
def traffic (mem : ℕ → VramPort.Port topWithHDMI) (request : ℕ → DmemRequest) :
    Traffic Word Word where
  loads t addr w := (request t).addr = addr ∧ (request t).ren = true ∧ (request t).wen = false ∧
    (vramRange.contains addr = true → (mem t).rdata = w ∧
      ∃ u, t = u + 1 ∧ request u = request t ∧ (mem u).rvalid = false)
  stores t addr w := request t = ⟨addr, false, true, 0b1111, w⟩
  quiet t := (request t).wen = true → vramRange.contains (request t).addr = false ∧
    gpioRange.contains (request t).addr = false

/-- What the cells of the video memory and the pins hold. -/
def Holds (mem : ℕ → VramPort.Port topWithHDMI) (gpio : ℕ → Gpio) (v : ℕ → Byte) (out : Word)
    (t : ℕ) : Prop :=
  (∀ a < topWithHDMI.vramAddressMax, (mem t).vram a = v a) ∧ (gpio t).out = out

section
variable {mem : ℕ → VramPort.Port topWithHDMI} {gpio : ℕ → Gpio}
  {undefined : ℕ → BitVec topWithHDMI.vramPixelBits} {request : ℕ → DmemRequest}
  {v : ℕ → Byte} {out w : Word} {t a : ℕ}

theorem store_apply (vram : ℕ → BitVec topWithHDMI.vramPixelBits) (q : DmemRequest) (x : ℕ) :
    VramPort.store vram q x = if q.wen && VramPort.cell topWithHDMI q.addr == x then
      q.wdata.setWidth topWithHDMI.vramPixelBits else vram x := rfl

theorem targetRequest_wen {r : AddressRange} {q : DmemRequest}
    (h : q.wen = true → r.contains q.addr = false) : (targetRequest r q).wen = false := by
  by_cases hin : r.contains q.addr = true
  · rw [targetRequest_contains hin]
    by_contra hwen
    exact absurd (h (Bool.not_eq_false _ ▸ hwen)) (by rw [hin]; decide)
  · exact (targetRequest_other (Bool.eq_false_iff.mpr hin)).2

theorem cellPointer_toNat (ha : a < topWithHDMI.vramAddressMax) :
    (cellPointer a).toNat = 0xb0000000 + 4 * a := by
  have hmax : topWithHDMI.vramAddressMax = 3600 := rfl
  have hvram : regVram.toNat = 0xb0000000 := rfl
  rw [cellPointer, BitVec.toNat_add, BitVec.toNat_ofNat, hvram]
  omega

theorem cellPointer_succ : cellPointer (a + 1) = cellPointer a + 4 := by
  rw [cellPointer, cellPointer, Nat.mul_succ, BitVec.ofNat_add, BitVec.add_assoc]
  rfl

theorem cellPointer_contains (ha : a < topWithHDMI.vramAddressMax) :
    vramRange.contains (cellPointer a) = true ∧ gpioRange.contains (cellPointer a) = false := by
  have hmax : topWithHDMI.vramAddressMax = 3600 := rfl
  have hvram : vramRange.start = 0xb0000000 ∧ vramRange.length = 0x20000 := ⟨rfl, rfl⟩
  have hgpio : gpioRange.start = 0xa0000000 ∧ gpioRange.length = 64 := ⟨rfl, rfl⟩
  constructor
  · rw [contains_iff, cellPointer_toNat ha]
    omega
  · rw [← Bool.not_eq_true, contains_iff, cellPointer_toNat ha]
    omega

/-- The port finds the cell of the pointer. -/
theorem cellPointer_cell {q : DmemRequest} (hq : q.addr = cellPointer a)
    (ha : a < topWithHDMI.vramAddressMax) :
    VramPort.cell topWithHDMI (targetRequest vramRange q).addr = a := by
  have hin : vramRange.contains q.addr = true := hq ▸ (cellPointer_contains ha).1
  have haddr : (targetRequest vramRange q).addr.toNat = 4 * a := by
    have hstart : vramRange.start = 0xb0000000 := rfl
    rw [relative_toNat hin, hq, cellPointer_toNat ha, hstart]
    omega
  have hmax : topWithHDMI.vramAddressMax = 3600 := rfl
  have hword : 4 * a / 2 ^ 2 % 2 ^ 30 = a := by omega
  rw [VramPort.cell, VramPort.memWordAddr, BitVec.toNat_setWidth, BitVec.extractLsb'_toNat, haddr,
    Nat.shiftRight_eq_div_pow, hword]
  exact Nat.mod_eq_of_lt (lt_two_pow_clog ha)

variable (h : Runs mem gpio undefined request)
include h

/-- Clocks without a store to the two targets. -/
theorem Holds.still (hholds : Holds mem gpio v out t) (hquiet : (traffic mem request).quiet t) :
    Holds mem gpio v out (t + 1) := by
  have hmem := targetRequest_wen (r := vramRange) fun hwen => (hquiet hwen).1
  have hgpio := targetRequest_wen (r := gpioRange) fun hwen => (hquiet hwen).2
  refine ⟨fun a ha => ?_, ?_⟩
  · rw [h.mem_succ, VramPort.Port.step, VramPort.store_of_not_wen _ hmem]
    exact hholds.1 a ha
  · rw [h.gpio_succ, Gpio.step, hgpio]
    exact hholds.2

theorem stable_holds (v : ℕ → Byte) (out : Word) :
    Stable (traffic mem request) (Holds mem gpio v out) :=
  fun _ hquiet hholds => hholds.still h hquiet

theorem Holds.load {addr : Word} (hholds : Holds mem gpio v out t)
    (hload : (traffic mem request).loads t addr w) : Holds mem gpio v out (t + 1) :=
  hholds.still h fun hwen => absurd (hload.2.2.1.symm.trans hwen) Bool.false_ne_true

/-- A load of a cell gets what the cell holds. -/
theorem Holds.load_cell (hholds : Holds mem gpio v out t) (ha : a < topWithHDMI.vramAddressMax)
    (hload : (traffic mem request).loads t (cellPointer a) w) : w.setWidth 8 = v a := by
  obtain ⟨haddr, -, hwen, hvram⟩ := hload
  obtain ⟨hdata, u, rfl, hsame, -⟩ := hvram (cellPointer_contains ha).1
  rw [← hsame] at haddr hwen
  have hstore : (targetRequest vramRange (request u)).wen = false :=
    targetRequest_wen fun h => absurd (hwen.symm.trans h) Bool.false_ne_true
  have hcell : (mem (u + 1)).vram a = (mem u).vram a := by
    rw [h.mem_succ, VramPort.Port.step, VramPort.store_of_not_wen _ hstore]
  rw [← hholds.1 a ha, hcell, ← hdata, h.mem_succ, VramPort.Port.step, hstore,
    if_neg Bool.false_ne_true, VramPort.fetch, cellPointer_cell haddr ha, if_pos ha]
  exact BitVec.setWidth_setWidth_of_le _ (by decide)

theorem Holds.store_cell (hholds : Holds mem gpio v out t) (ha : a < topWithHDMI.vramAddressMax)
    (hstore : (traffic mem request).stores t (cellPointer a) w) :
    Holds mem gpio (Function.update v a (w.setWidth 8)) out (t + 1) := by
  have hrequest : request t = ⟨cellPointer a, false, true, 0b1111, w⟩ := hstore
  obtain ⟨hin, hout⟩ := cellPointer_contains ha
  have hcell := cellPointer_cell (q := request t) (by rw [hrequest]) ha
  have hgpio : (targetRequest gpioRange (request t)).wen = false :=
    targetRequest_wen fun _ => by rwa [hrequest]
  have hmem : (targetRequest vramRange (request t)).wen = true ∧
      (targetRequest vramRange (request t)).wdata = w := by
    rw [targetRequest_contains (by rwa [hrequest]), hrequest]
    exact ⟨rfl, rfl⟩
  refine ⟨fun x hx => ?_, ?_⟩
  · simp only [h.mem_succ, VramPort.Port.step, store_apply, hmem, hcell, Bool.true_and,
      Function.update_apply]
    by_cases hxa : x = a
    · rw [if_pos hxa, hxa, if_pos (beq_self_eq_true a)]
      rfl
    · rw [if_neg hxa, if_neg (by simpa using fun heq => hxa heq.symm)]
      exact hholds.1 x hx
  · rw [h.gpio_succ, Gpio.step, hgpio]
    exact hholds.2

theorem Holds.store_out (hholds : Holds mem gpio v out t)
    (hstore : (traffic mem request).stores t regGpioOut w) : Holds mem gpio v w (t + 1) := by
  have hrequest : request t = ⟨regGpioOut, false, true, 0b1111, w⟩ := hstore
  have hmem : (targetRequest vramRange (request t)).wen = false := by
    refine targetRequest_wen fun _ => ?_
    rw [hrequest]
    exact (by decide : vramRange.contains regGpioOut = false)
  refine ⟨fun a ha => ?_, ?_⟩
  · rw [h.mem_succ, VramPort.Port.step, VramPort.store_of_not_wen _ hmem]
    exact hholds.1 a ha
  · have hmask : GpioPorts.strobeMask 0b1111 = BitVec.allOnes 32 := by decide
    have hkey : Gpio.key (regGpioOut - .ofNat 32 gpioRange.start) = 0 := by decide
    have hin : gpioRange.contains (request t).addr = true := by
      rw [hrequest]
      exact (by decide : gpioRange.contains regGpioOut = true)
    rw [h.gpio_succ, Gpio.step, targetRequest_contains hin, hrequest]
    simp only [hkey, hmask, beq_self_eq_true, Bool.and_self, if_true, BitVec.not_allOnes,
      BitVec.and_zero, BitVec.zero_or, BitVec.and_allOnes]

end

/-! ## The loops over a rectangle -/

/-- The cell that comes after `k` others in a rectangle. -/
def rectangleCell (xs ys width k : ℕ) : ℕ :=
  (ys + k / width) * videoWidth + (xs + k % width)

section
variable {α : Type} {b : Traffic Word Word} {I : ℕ → Prop} {K : ℕ → α → ℕ → Prop}
  (body : Word → α → Firmware α) (xs ys width height : ℕ)

/-- One line of the rectangle. -/
theorem line_rule {j : ℕ} (hstable : ∀ k a, Stable b (K k a)) (hI : ∀ k a t, K k a t → I t)
    (hbody : ∀ i < width, ∀ a, Always b I (K (j * width + i) a)
      (body (cellPointer ((ys + j) * videoWidth + (xs + i))) a) (K (j * width + i + 1))) (a : α) :
    Always b I (K (j * width) a) (do
      let r ← Program.count (fun _ (r : Word × α) => do
        let a ← body r.1 r.2
        return (r.1 + 4, a)) xs width (cellPointer ((ys + j) * videoWidth + xs), a)
      return r.2) (K ((j + 1) * width)) := by
  have hloop := Always.count (b := b) (I := I) (i := xs) (n := width)
    (J := fun x r t => r.1 = cellPointer ((ys + j) * videoWidth + x) ∧
      K (j * width + (x - xs)) r.2 t)
    (fun _ r => do
      let a ← body r.1 r.2
      return (r.1 + 4, a))
    (fun r t hquiet hr => ⟨hr.1, hstable _ _ t hquiet hr.2⟩) (fun r t hr => hI _ _ t hr.2)
    (fun x hx hlt r => by
      obtain ⟨i, rfl⟩ := Nat.exists_eq_add_of_le hx
      refine .of_and fun hp => ?_
      have hnext : xs + i + 1 - xs = i + 1 := by omega
      rw [Nat.add_sub_cancel_left, hnext, hp]
      refine (hbody i (by omega) r.2).bind fun a => .done ?_ ?_ ?_
      · exact fun t hquiet hr => ⟨hr.1, hstable _ _ t hquiet hr.2⟩
      · exact fun t ha => ⟨cellPointer_succ.symm, ha⟩
      · exact fun t hr => hI _ _ t hr.2)
    (cellPointer ((ys + j) * videoWidth + xs), a)
  rw [Nat.sub_self, Nat.add_sub_cancel_left] at hloop
  refine (hloop.imp (fun t ha => ⟨rfl, ha⟩) (fun _ h => h) fun _ _ h => h).bind fun r => ?_
  rw [Nat.succ_mul]
  exact .done (hstable _ _) (fun t hr => hr.2) (hI _ _)

/-- The cells of a rectangle are visited one after the other, line by line. -/
theorem rectangle_rule (hstable : ∀ k a, Stable b (K k a)) (hI : ∀ k a t, K k a t → I t)
    (hbody : ∀ k < height * width, ∀ a, Always b I (K k a)
      (body (cellPointer (rectangleCell xs ys width k)) a) (K (k + 1))) (a : α) :
    Always b I (K 0 a) (rectangle body xs ys (xs + width) (ys + height) a)
      (K (height * width)) := by
  have hloop := Always.count (b := b) (I := I) (i := ys) (n := height)
    (J := fun y a => K ((y - ys) * width) a)
    (fun y a => do
      let r ← Program.count (fun _ (r : Word × α) => do
        let a ← body r.1 r.2
        return (r.1 + 4, a)) xs width (cellPointer (y * videoWidth + xs), a)
      return r.2)
    (fun a => hstable _ a) (fun a => hI _ a)
    (fun y hy hlt a => by
      obtain ⟨j, rfl⟩ := Nat.exists_eq_add_of_le hy
      have hnext : ys + j + 1 - ys = j + 1 := by omega
      rw [Nat.add_sub_cancel_left, hnext]
      refine line_rule body xs ys width hstable hI (fun i hi a => ?_) a
      obtain ⟨hdiv, hmod⟩ := rounds_at j hi
      have hcell : rectangleCell xs ys width (j * width + i) =
          (ys + j) * videoWidth + (xs + i) := by
        rw [rectangleCell, hdiv, hmod]
      have hlast : j * width + i < height * width :=
        calc j * width + i < j * width + width := Nat.add_lt_add_left hi _
          _ = (j + 1) * width := (Nat.succ_mul _ _).symm
          _ ≤ height * width := Nat.mul_le_mul_right _ (by omega)
      rw [← hcell]
      exact hbody _ hlast a) a
  rw [Nat.sub_self, Nat.zero_mul, Nat.add_sub_cancel_left] at hloop
  rw [rectangle, Nat.add_sub_cancel_left, Nat.add_sub_cancel_left]
  exact hloop

end

/-! ## Rectangles on the screen -/

structure Rectangle where
  xs : ℕ
  ys : ℕ
  width : ℕ
  height : ℕ
  right_le : xs + width ≤ videoWidth
  bottom_le : ys + height ≤ videoHeight

namespace Rectangle
variable (r : Rectangle)

def cell (k : ℕ) : ℕ := rectangleCell r.xs r.ys r.width k

def Inside (a : ℕ) : Prop :=
  (r.xs ≤ a % videoWidth ∧ a % videoWidth < r.xs + r.width) ∧
    r.ys ≤ a / videoWidth ∧ a / videoWidth < r.ys + r.height

instance (a : ℕ) : Decidable (r.Inside a) := inferInstanceAs (Decidable (_ ∧ _))

/-- The cells of the rectangle have the colours `g` and the others `v`. -/
def paint (g v : ℕ → Byte) (a : ℕ) : Byte := if r.Inside a then g a else v a

/-- The same for the first `k` cells only. -/
def paintFirst (g v : ℕ → Byte) (k a : ℕ) : Byte := if ∃ i < k, r.cell i = a then g a else v a

/-- The colours in the order of the loops. -/
def colours (v : ℕ → Byte) : List Byte :=
  (List.range (r.height * r.width)).map fun k => v (r.cell k)

variable {r} {g v : ℕ → Byte} {a k : ℕ}

theorem position_lt (hk : k < r.height * r.width) :
    k % r.width < r.width ∧ k / r.width < r.height := by
  have hpos : 0 < r.width := by
    rcases Nat.eq_zero_or_pos r.width with hzero | hpos
    · rw [hzero, Nat.mul_zero] at hk
      omega
    · exact hpos
  exact ⟨Nat.mod_lt _ hpos, Nat.div_lt_of_lt_mul (by rwa [Nat.mul_comm])⟩

theorem cell_position (hk : k < r.height * r.width) :
    r.cell k / videoWidth = r.ys + k / r.width ∧ r.cell k % videoWidth = r.xs + k % r.width := by
  have hright := r.right_le
  obtain ⟨hlt, -⟩ := position_lt hk
  exact rounds_at _ (by omega)

theorem cell_inside (hk : k < r.height * r.width) : r.Inside (r.cell k) := by
  obtain ⟨hmod, hdiv⟩ := position_lt hk
  obtain ⟨hrow, hcol⟩ := cell_position hk
  rw [Inside, hrow, hcol]
  exact ⟨⟨Nat.le_add_right _ _, Nat.add_lt_add_left hmod _⟩, Nat.le_add_right _ _,
    Nat.add_lt_add_left hdiv _⟩

theorem inside_lt (h : r.Inside a) : a < topWithHDMI.vramAddressMax := by
  have hmax : topWithHDMI.vramAddressMax = videoHeight * videoWidth := rfl
  have hbottom := r.bottom_le
  have hrow : a / videoWidth < videoHeight := by
    have hlt := h.2.2
    omega
  rw [hmax]
  exact (Nat.div_lt_iff_lt_mul (by decide)).mp hrow

/-- Every cell of the rectangle is visited. -/
theorem inside_iff : r.Inside a ↔ ∃ k < r.height * r.width, r.cell k = a := by
  constructor
  · rintro ⟨⟨hleft, hright⟩, htop, hbottom⟩
    obtain ⟨i, hi⟩ := Nat.exists_eq_add_of_le hleft
    obtain ⟨j, hj⟩ := Nat.exists_eq_add_of_le htop
    have hlt : i < r.width := by omega
    obtain ⟨hdiv, hmod⟩ := rounds_at j hlt
    refine ⟨j * r.width + i, ?_, ?_⟩
    · calc j * r.width + i < j * r.width + r.width := Nat.add_lt_add_left hlt _
        _ = (j + 1) * r.width := (Nat.succ_mul _ _).symm
        _ ≤ r.height * r.width := Nat.mul_le_mul_right _ (by omega)
    · rw [cell, rectangleCell, hdiv, hmod, ← hi, ← hj]
      exact Nat.div_add_mod' a videoWidth
  · rintro ⟨k, hk, rfl⟩
    exact cell_inside hk

theorem paintFirst_zero : r.paintFirst g v 0 = v := by
  funext a
  rw [paintFirst, if_neg]
  rintro ⟨i, hi, -⟩
  exact Nat.not_lt_zero i hi

theorem paintFirst_succ :
    r.paintFirst g v (k + 1) = Function.update (r.paintFirst g v k) (r.cell k) (g (r.cell k)) := by
  funext a
  rw [Function.update_apply, paintFirst, paintFirst]
  by_cases hcell : a = r.cell k
  · rw [if_pos hcell, if_pos ⟨k, Nat.lt_succ_self k, hcell.symm⟩, hcell]
  · have hvisited : (∃ i < k + 1, r.cell i = a) ↔ ∃ i < k, r.cell i = a := by
      constructor
      · rintro ⟨i, hi, rfl⟩
        refine ⟨i, Nat.lt_of_le_of_ne (Nat.le_of_lt_succ hi) ?_, rfl⟩
        rintro rfl
        exact hcell rfl
      · rintro ⟨i, hi, rfl⟩
        exact ⟨i, Nat.lt_succ_of_lt hi, rfl⟩
    rw [if_neg hcell, if_congr hvisited rfl rfl]

theorem paintFirst_all : r.paintFirst g v (r.height * r.width) = r.paint g v := by
  funext a
  rw [paintFirst, paint, if_congr inside_iff rfl rfl]

/-- While it is painted each cell has the one colour or the other. -/
theorem paintFirst_or (g v : ℕ → Byte) (k a : ℕ) :
    r.paintFirst g v k a = g a ∨ r.paintFirst g v k a = v a := by
  rw [paintFirst]
  split_ifs
  · exact Or.inl rfl
  · exact Or.inr rfl

end Rectangle

/-! ## What the functions do -/

section
variable {mem : ℕ → VramPort.Port topWithHDMI} {gpio : ℕ → Gpio}
  {undefined : ℕ → BitVec topWithHDMI.vramPixelBits} {request : ℕ → DmemRequest}
  {I : ℕ → Prop} {g v : ℕ → Byte} {out : Word} (h : Runs mem gpio undefined request)
  (r : Rectangle)
include h

theorem copyFromVram_spec (hI : ∀ t, Holds mem gpio v out t → I t) :
    Always (traffic mem request) I (Holds mem gpio v out)
      (copyFromVram r.xs r.ys (r.xs + r.width) (r.ys + r.height))
      (fun buffer t => buffer = r.colours v ∧ Holds mem gpio v out t) := by
  have hrule := rectangle_rule (b := traffic mem request) (I := I)
    (K := fun k buffer t => buffer = (List.range k).map (fun k => v (r.cell k)) ∧
      Holds mem gpio v out t)
    (fun p buffer => do
      let value ← .read p
      return buffer ++ [value.setWidth 8])
    r.xs r.ys r.width r.height
    (fun k a t hquiet hk => ⟨hk.1, stable_holds h _ _ t hquiet hk.2⟩) (fun k a t hk => hI t hk.2)
    (fun k hk buffer => by
      refine .of_and fun hbuffer => .read (R := fun w t => w.setWidth 8 = v (r.cell k) ∧
        Holds mem gpio v out t) (stable_holds h _ _) hI ?_ fun w => .of_and fun hw => ?_
      · intro t w hholds hload
        exact ⟨hholds.load_cell h (Rectangle.inside_lt (Rectangle.cell_inside hk)) hload,
          hholds.load h hload⟩
      · refine .done (fun t hquiet hr => ⟨hr.1, stable_holds h _ _ t hquiet hr.2⟩)
          (fun t hholds => ⟨?_, hholds⟩) fun t hr => hI t hr.2
        rw [hbuffer, hw, List.range_succ, List.map_append]
        rfl) []
  exact hrule.imp (fun t ht => ⟨rfl, ht⟩) (fun _ ht => ht) fun _ _ ht => ht

/-- A store of the colour of the next cell. -/
theorem paint_next {k : ℕ} {t : ℕ} (hk : k < r.height * r.width)
    (hholds : Holds mem gpio (r.paintFirst g v k) out t)
    (hstore : (traffic mem request).stores t (cellPointer (r.cell k))
      ((g (r.cell k)).setWidth 32)) :
    Holds mem gpio (r.paintFirst g v (k + 1)) out (t + 1) := by
  have hnext := hholds.store_cell h (Rectangle.inside_lt (Rectangle.cell_inside hk)) hstore
  rw [Rectangle.paintFirst_succ]
  rwa [BitVec.setWidth_setWidth_of_le _ (by decide), BitVec.setWidth_eq] at hnext

theorem copyToVram_spec (out : Word)
    (hI : ∀ k t, Holds mem gpio (r.paintFirst g v k) out t → I t) :
    Always (traffic mem request) I (Holds mem gpio v out)
      (copyToVram (r.colours g) r.xs r.ys (r.xs + r.width) (r.ys + r.height))
      (fun _ t => Holds mem gpio (r.paint g v) out t) := by
  have hrule := rectangle_rule (b := traffic mem request) (I := I)
    (K := fun k buffer t => buffer = (r.colours g).drop k ∧
      Holds mem gpio (r.paintFirst g v k) out t)
    (fun p buffer => do
      .write p ((buffer.headD 0).setWidth 32)
      return buffer.tail)
    r.xs r.ys r.width r.height
    (fun k a t hquiet hk => ⟨hk.1, stable_holds h _ _ t hquiet hk.2⟩) (fun k a t hk => hI k t hk.2)
    (fun k hk buffer => by
      refine .of_and fun hbuffer => ?_
      have hhead : buffer.headD 0 = g (r.cell k) := by
        rw [hbuffer, Rectangle.colours, List.headD_eq_head?_getD, List.head?_drop]
        simp [hk]
      rw [hhead]
      refine .write (R := fun t => Holds mem gpio (r.paintFirst g v (k + 1)) out t)
        (stable_holds h _ _) (hI k) (fun t hholds hstore => paint_next h r hk hholds hstore) ?_
      refine .done (fun t hquiet hr => ⟨hr.1, stable_holds h _ _ t hquiet hr.2⟩)
        (fun t hholds => ⟨?_, hholds⟩) fun t hr => hI _ t hr.2
      rw [hbuffer, List.tail_drop]) (r.colours g)
  refine hrule.imp (fun t ht => ⟨rfl, ?_⟩) (fun _ ht => ht) fun _ t ht => ?_
  · rwa [Rectangle.paintFirst_zero]
  · rw [← Rectangle.paintFirst_all]
    exact ht.2

theorem fillVram_spec (value : Byte) (out : Word)
    (hI : ∀ k t, Holds mem gpio (r.paintFirst (fun _ => value) v k) out t → I t) :
    Always (traffic mem request) I (Holds mem gpio v out)
      (fillVram value r.xs r.ys (r.xs + r.width) (r.ys + r.height))
      (fun _ t => Holds mem gpio (r.paint (fun _ => value) v) out t) := by
  have hrule := rectangle_rule (b := traffic mem request) (I := I)
    (K := fun k _ t => Holds mem gpio (r.paintFirst (fun _ => value) v k) out t)
    (fun p _ => .write p (value.setWidth 32)) r.xs r.ys r.width r.height
    (fun k a => stable_holds h _ _) (fun k a => hI k)
    (fun k hk _ => .store (stable_holds h _ _) (hI k)
      (fun t hholds hstore => paint_next (g := fun _ => value) h r hk hholds hstore)
      (.done (stable_holds h _ _) (fun t hholds => hholds) (hI _))) ()
  refine hrule.imp (fun t ht => ?_) (fun _ ht => ht) fun _ t ht => ?_
  · rwa [Rectangle.paintFirst_zero]
  · rwa [← Rectangle.paintFirst_all]

end

end SeccampRiscvCpu.BoxBootrom
