import SeccampRiscvCpu.ClockedMachine
import SeccampRiscvCpu.TmdsCode
import SeccampRiscvCpu.VideoSignals

/-!
# The DVI encoder

`DviOut` turns each pixel byte into a nine-bit word with few transitions as it enters a
delay line, and into a ten-bit symbol as it leaves it; a counter for each channel keeps
the disparity of what has been sent. Without data the symbols carry the sync signals and
the counters start again.
-/
namespace SeccampRiscvCpu.DviEncoder
open ClockedMachine TmdsCode
open VideoSignals (VideoIo)

/-! ## Words with few transitions -/

/-- `PopCount` of a byte. -/
def popCount (in_ : BitVec 8) : BitVec 4 := in_.cpop.setWidth 4

def xnorProcess (in_ : BitVec 8) : Bool :=
  popCount in_ > 4 || (popCount in_ == 4 && !in_.getLsbD 0)

/-- `bits(i)` -/
def minimizedBit (in_ : BitVec 8) : ℕ → Bool
  | 0 => in_.getLsbD 0
  | i + 1 => (minimizedBit in_ i ^^ in_.getLsbD (i + 1)) ^^ xnorProcess in_

/-- The first `n` bits as a number, the first one lowest. -/
def asUInt (bits : ℕ → Bool) : (n : ℕ) → BitVec n
  | 0 => 0
  | n + 1 => BitVec.cons (bits n) (asUInt bits n)

/-- XNOR process: MSB is 0, XOR process: MSB is 1. -/
def transitionMinimized (in_ : BitVec 8) : BitVec 9 :=
  BitVec.cons (!xnorProcess in_) (asUInt (minimizedBit in_) 8)

/-! ## Balanced symbols -/

/-- `n0 - n1 = 8 - 2n1`, as a signed number of six bits. -/
def n0n1 (in_ : BitVec 9) : BitVec 6 :=
  8 - ((popCount (in_.extractLsb' 0 8)).setWidth 5 <<< 1).setWidth 6

/-- The symbol of a word, and the new counter. -/
def dcBalancing (in_ : BitVec 9) (counter : BitVec 8) : BitVec 10 × BitVec 8 :=
  let n0n1' : BitVec 8 := (n0n1 in_).signExtend 8
  let low := in_.extractLsb' 0 8
  if counter = 0 ∨ n0n1 in_ = 0 then
    (BitVec.cons (!in_.getLsbD 8) (BitVec.cons (in_.getLsbD 8)
        (if in_.getLsbD 8 then low else ~~~low)),
      if in_.getLsbD 8 then counter - n0n1' else counter + n0n1')
  else if (BitVec.slt 0 counter && (n0n1 in_).slt 0) ||
      (counter.slt 0 && BitVec.slt 0 (n0n1 in_)) then
    (BitVec.cons true (BitVec.cons (in_.getLsbD 8) (~~~low)),
      if in_.getLsbD 8 then counter + n0n1' + 2 else counter + n0n1')
  else
    (BitVec.cons false (BitVec.cons (in_.getLsbD 8) low),
      if in_.getLsbD 8 then counter - n0n1' else counter - n0n1' - 2)

def transitionMaximized (in_ : BitVec 2) : BitVec 10 :=
  match in_.toNat with
  | 0 => 0b1101010100
  | 1 => 0b0010101011
  | 2 => 0b0101010100
  | 3 => 0b1010101011
  | _ => 0

/-! ## The module -/

structure DviOut where
  dviData : Fin 3 → BitVec 10
  videoRegs : Fin 3 → VideoIo 27
  counter : Fin 3 → BitVec 8

/-- The byte of a channel. -/
def channel (pixelData : BitVec 24) (ch : Fin 3) : BitVec 8 := pixelData.extractLsb' (ch * 8) 8

/-- The nine-bit word of a channel. -/
def word (pixelData : BitVec 27) (ch : Fin 3) : BitVec 9 := pixelData.extractLsb' (ch * 9) 9

/-- The control bits of a channel. -/
def control {pixelBits : ℕ} (video : VideoIo pixelBits) (ch : Fin 3) : BitVec 2 :=
  if ch = 0 then BitVec.ofBool video.vSync ++ BitVec.ofBool video.hSync else 0

/-- A function of the symbols on the three channels. -/
def onChannels {α : Type} (f : BitVec 10 → BitVec 10 → BitVec 10 → α) (q : Fin 3 → BitVec 10) : α :=
  f (q 0) (q 1) (q 2)

namespace DviOut

def init : DviOut := ⟨fun _ => 0, fun _ => .default 27, fun _ => 0⟩

def step (s : DviOut) (video : VideoIo 24) : DviOut where
  dviData ch :=
    if !(s.videoRegs 0).dataEnable then transitionMaximized (control (s.videoRegs 0) ch)
    else (dcBalancing (word (s.videoRegs 0).pixelData ch) (s.counter ch)).1
  videoRegs
    | 0 => s.videoRegs 1
    | 1 => s.videoRegs 2
    | 2 =>
      { dataEnable := video.dataEnable
        hSync := video.hSync
        vSync := video.vSync
        pixelData := transitionMinimized (channel video.pixelData 2) ++
          transitionMinimized (channel video.pixelData 1) ++
          transitionMinimized (channel video.pixelData 0) }
  counter ch :=
    if !(s.videoRegs 0).dataEnable then 0
    else (dcBalancing (word (s.videoRegs 0).pixelData ch) (s.counter ch)).2

theorem step_blank {s : DviOut} (h : (s.videoRegs 0).dataEnable = false) (video : VideoIo 24)
    (ch : Fin 3) :
    (s.step video).dviData ch = transitionMaximized (control (s.videoRegs 0) ch) ∧
      (s.step video).counter ch = 0 := by
  simp only [step, h]
  exact ⟨rfl, rfl⟩

theorem step_data {s : DviOut} (h : (s.videoRegs 0).dataEnable = true) (video : VideoIo 24)
    (ch : Fin 3) : ((s.step video).dviData ch, (s.step video).counter ch) =
      dcBalancing (word (s.videoRegs 0).pixelData ch) (s.counter ch) := by
  simp only [step, h]
  rfl

/-- The three channels are the outputs. -/
def machine : Machine DviOut (VideoIo 24) (Fin 3 → BitVec 10) := ⟨step, fun s _ => [s.dviData]⟩

end DviOut

/-! ## Every symbol can be read -/

theorem asUInt_bit (bits : ℕ → Bool) {n i : ℕ} (hi : i < n) : (asUInt bits n).getLsbD i = bits i := by
  induction n with
  | zero => omega
  | succ n ih =>
    rw [asUInt, BitVec.getLsbD_cons]
    split_ifs with hlast
    · rw [hlast]
    · exact ih (by omega)

theorem low_bit (x : BitVec 8) {i : ℕ} (hi : i < 8) :
    ((transitionMinimized x).extractLsb' 0 8).getLsbD i = minimizedBit x i := by
  rw [BitVec.getLsbD_extractLsb', decide_eq_true hi, Bool.true_and, Nat.zero_add,
    transitionMinimized, BitVec.getLsbD_cons, if_neg (by omega), asUInt_bit _ hi]

theorem high_bit (x : BitVec 8) : (transitionMinimized x).getLsbD 8 = !xnorProcess x := by
  rw [transitionMinimized, BitVec.getLsbD_cons, if_pos rfl]

/-- A symbol holds the low bits of its word or their complement, and bit 9 says which. -/
def symbol (in_ : BitVec 9) (inverted : Bool) : BitVec 10 :=
  BitVec.cons inverted (BitVec.cons (in_.getLsbD 8)
    (if inverted then ~~~in_.extractLsb' 0 8 else in_.extractLsb' 0 8))

/-- The three rules of the balancing. -/
inductive Balancing (in_ : BitVec 9) (counter : BitVec 8) (out : BitVec 10 × BitVec 8) : Prop
  | neutral (rule : counter = 0 ∨ n0n1 in_ = 0)
      (out_eq : out = (symbol in_ (!in_.getLsbD 8),
        if in_.getLsbD 8 then counter - (n0n1 in_).signExtend 8
        else counter + (n0n1 in_).signExtend 8))
  | opposite (rule : 0 < counter.toInt ∧ (n0n1 in_).toInt < 0 ∨
        counter.toInt < 0 ∧ 0 < (n0n1 in_).toInt)
      (out_eq : out = (symbol in_ true,
        if in_.getLsbD 8 then counter + (n0n1 in_).signExtend 8 + 2
        else counter + (n0n1 in_).signExtend 8))
  | same (rule : 0 < counter.toInt ∧ 0 < (n0n1 in_).toInt ∨
        counter.toInt < 0 ∧ (n0n1 in_).toInt < 0)
      (out_eq : out = (symbol in_ false,
        if in_.getLsbD 8 then counter - (n0n1 in_).signExtend 8
        else counter - (n0n1 in_).signExtend 8 - 2))

theorem toInt_eq_zero_iff {w : ℕ} (x : BitVec w) : x = 0 ↔ x.toInt = 0 := by
  rw [← BitVec.toInt_inj]
  simp

theorem dcBalancing_cases (in_ : BitVec 9) (counter : BitVec 8) :
    Balancing in_ counter (dcBalancing in_ counter) := by
  by_cases hzero : counter = 0 ∨ n0n1 in_ = 0
  · refine .neutral hzero ?_
    rw [dcBalancing, if_pos hzero, symbol]
    cases in_.getLsbD 8 <;> rfl
  · have hcounter : counter.toInt ≠ 0 := fun h => hzero (Or.inl ((toInt_eq_zero_iff _).mpr h))
    have hword : (n0n1 in_).toInt ≠ 0 := fun h => hzero (Or.inr ((toInt_eq_zero_iff _).mpr h))
    by_cases hrule : (BitVec.slt 0 counter && (n0n1 in_).slt 0) ||
        (counter.slt 0 && BitVec.slt 0 (n0n1 in_))
    · refine .opposite ?_ ?_
      · simpa [BitVec.slt_iff_toInt_lt] using hrule
      · rw [dcBalancing, if_neg hzero, if_pos hrule]
        rfl
    · refine .same ?_ ?_
      · simp [BitVec.slt_iff_toInt_lt] at hrule
        omega
      · rw [dcBalancing, if_neg hzero, if_neg hrule]
        rfl

theorem dcBalancing_symbol (in_ : BitVec 9) (counter : BitVec 8) :
    ∃ inverted, (dcBalancing in_ counter).1 = symbol in_ inverted := by
  cases dcBalancing_cases in_ counter with
  | neutral _ out_eq => exact ⟨_, congrArg Prod.fst out_eq⟩
  | opposite _ out_eq => exact ⟨_, congrArg Prod.fst out_eq⟩
  | same _ out_eq => exact ⟨_, congrArg Prod.fst out_eq⟩

theorem symbol_inverted (in_ : BitVec 9) (inverted : Bool) :
    (symbol in_ inverted).getLsbD 9 = inverted := by
  rw [symbol, BitVec.getLsbD_cons, if_pos rfl]

theorem symbol_form (in_ : BitVec 9) (inverted : Bool) :
    (symbol in_ inverted).getLsbD 8 = in_.getLsbD 8 := by
  rw [symbol, BitVec.getLsbD_cons, if_neg (by decide), BitVec.getLsbD_cons, if_pos rfl]

theorem undoInversion_symbol (in_ : BitVec 9) (inverted : Bool) :
    undoInversion (symbol in_ inverted) = in_.extractLsb' 0 8 := by
  have hlow : (symbol in_ inverted).extractLsb' 0 8 =
      if inverted then ~~~in_.extractLsb' 0 8 else in_.extractLsb' 0 8 := by
    apply BitVec.eq_of_getLsbD_eq
    intro i hi
    rw [BitVec.getLsbD_extractLsb', decide_eq_true hi, Bool.true_and, Nat.zero_add, symbol,
      BitVec.getLsbD_cons, if_neg (by omega), BitVec.getLsbD_cons, if_neg (by omega)]
  rw [undoInversion, symbol_inverted, hlow]
  cases inverted with
  | true => exact BitVec.not_not
  | false => rfl

/-- The decoder undoes both transformations. -/
theorem decode_symbol (x : BitVec 8) (inverted : Bool) :
    decode (symbol (transitionMinimized x) inverted) = x := by
  apply BitVec.eq_of_getLsbD_eq
  intro i hi
  rw [decode_bit _ hi, undoInversion_symbol, symbol_form, high_bit, Bool.not_not, low_bit x hi,
    low_bit x (by decide)]
  cases i with
  | zero => rfl
  | succ i =>
    rw [if_neg (Nat.succ_ne_zero i), Nat.add_sub_cancel, low_bit x (by omega), minimizedBit]
    cases minimizedBit x i <;> cases xnorProcess x <;> cases x.getLsbD (i + 1) <;> rfl

/-- A control symbol read as data is a byte that the other process would have taken. -/
theorem controlSymbol_process (c : BitVec 2) :
    (controlSymbol c).getLsbD 8 = xnorProcess (decode (controlSymbol c)) := by
  revert c
  decide

theorem symbol_ne_control (x : BitVec 8) (inverted : Bool) (c : BitVec 2) :
    symbol (transitionMinimized x) inverted ≠ controlSymbol c := by
  intro heq
  have hprocess := controlSymbol_process c
  rw [← heq, decode_symbol, symbol_form, high_bit] at hprocess
  cases hx : xnorProcess x <;> simp [hx] at hprocess

theorem transitionMaximized_eq (c : BitVec 2) : transitionMaximized c = controlSymbol c := by
  revert c
  decide

/-! ## The stream of symbols -/

/-- The word of a channel comes back out of the delay line. -/
theorem word_append (words : Fin 3 → BitVec 9) (ch : Fin 3) :
    word (words 2 ++ words 1 ++ words 0) ch = words ch := by
  apply BitVec.eq_of_getLsbD_eq
  intro i hi
  rw [word, BitVec.getLsbD_extractLsb', decide_eq_true hi, Bool.true_and, BitVec.getLsbD_append,
    BitVec.getLsbD_append]
  match ch with
  | 0 => simp [hi]
  | 1 =>
    have hbeyond : ¬ 9 + i < 9 := by omega
    simp [hbeyond, hi]
  | 2 =>
    have hbeyond : ¬ 18 + i < 9 := by omega
    have hrest : 18 + i - 9 = 9 + i := by omega
    have hbeyond' : ¬ 9 + i < 9 := by omega
    simp [hbeyond, hrest, hbeyond']

/-- What leaves the delay line is what entered it, a word for each byte. -/
theorem run_videoRegs (s : DviOut) (input : ℕ → VideoIo 24) (t : ℕ) :
    let out := (DviOut.machine.run s input (t + 3)).videoRegs 0
    out.dataEnable = (input t).dataEnable ∧ (∀ ch, control out ch = control (input t) ch) ∧
      ∀ ch, word out.pixelData ch = transitionMinimized (channel (input t).pixelData ch) := by
  refine ⟨rfl, fun ch => rfl, ?_⟩
  exact word_append fun ch => transitionMinimized (channel (input t).pixelData ch)

/-- **Every symbol can be read.** Four clocks after a pixel each channel shows a symbol from
which its byte, or without data its control bits, can be read, whatever the counters were. -/
theorem symbols_decodable (s : DviOut) (input : ℕ → VideoIo 24) (t : ℕ) (ch : Fin 3) :
    let q := (DviOut.machine.run s input (t + 4)).dviData ch
    ((input t).dataEnable = false → q = controlSymbol (control (input t) ch)) ∧
    ((input t).dataEnable = true → (∀ c, q ≠ controlSymbol c) ∧
      decode q = channel (input t).pixelData ch) ∧
    receive q = if (input t).dataEnable then .inr (channel (input t).pixelData ch)
      else .inl (control (input t) ch) := by
  intro q
  obtain ⟨henable, hcontrol, hword⟩ := run_videoRegs s input t
  cases hdata : (input t).dataEnable with
  | false =>
    have hq : q = controlSymbol (control (input t) ch) := by
      rw [← transitionMaximized_eq, ← hcontrol]
      exact (DviOut.step_blank (henable.trans hdata) (input (t + 3)) ch).1
    rw [hq]
    exact ⟨fun _ => rfl, nofun, receive_control _⟩
  | true =>
    obtain ⟨inverted, hsymbol⟩ :=
      dcBalancing_symbol (word ((DviOut.machine.run s input (t + 3)).videoRegs 0).pixelData ch)
        ((DviOut.machine.run s input (t + 3)).counter ch)
    rw [← DviOut.step_data (henable.trans hdata) (input (t + 3)) ch, hword] at hsymbol
    have hq : q = symbol (transitionMinimized (channel (input t).pixelData ch)) inverted := hsymbol
    have hne := symbol_ne_control (channel (input t).pixelData ch) inverted
    have hdecode := decode_symbol (channel (input t).pixelData ch) inverted
    rw [hq]
    refine ⟨nofun, fun _ => ⟨hne, hdecode⟩, ?_⟩
    rw [receive_data hne, hdecode]
    rfl

/-! ## The counters keep the disparity -/

theorem popCount_toNat (x : BitVec 8) : (popCount x).toNat = x.cpop.toNat := by
  have hle := BitVec.toNat_cpop_le x
  rw [popCount, BitVec.toNat_setWidth, Nat.mod_eq_of_lt (by omega)]

/-- `n1 << 1`, as a signed number. -/
def doubled (in_ : BitVec 9) : BitVec 6 :=
  ((popCount (in_.extractLsb' 0 8)).setWidth 5 <<< 1).setWidth 6

theorem n0n1_eq (in_ : BitVec 9) : n0n1 in_ = 8 - doubled in_ := rfl

theorem doubled_toInt (in_ : BitVec 9) :
    (doubled in_).toInt = 8 + disparity (in_.extractLsb' 0 8) ∧
      0 ≤ (doubled in_).toInt ∧ (doubled in_).toInt ≤ 16 := by
  have hle := BitVec.toNat_cpop_le (in_.extractLsb' 0 8)
  have hnat : (doubled in_).toNat = 2 * (in_.extractLsb' 0 8).cpop.toNat := by
    simp only [doubled, BitVec.toNat_setWidth, BitVec.toNat_shiftLeft, popCount_toNat,
      Nat.shiftLeft_eq]
    omega
  have hint : (doubled in_).toInt = (2 * (in_.extractLsb' 0 8).cpop.toNat : ℕ) := by
    rw [BitVec.toInt_eq_toNat_of_lt (by omega), hnat]
  rw [hint, disparity_eq]
  omega

/-- None of the additions and subtractions for this word and counter overflows. -/
structure Exact (in_ : BitVec 9) (counter : BitVec 8) : Prop where
  difference : ¬ BitVec.ssubOverflow 8 (doubled in_)
  subtract : ¬ counter.ssubOverflow ((n0n1 in_).signExtend 8)
  add : ¬ counter.saddOverflow ((n0n1 in_).signExtend 8)
  addTwo : ¬ (counter + (n0n1 in_).signExtend 8).saddOverflow 2
  subtractTwo : ¬ (counter - (n0n1 in_).signExtend 8).ssubOverflow 2

/-- What every counter in a run satisfies. -/
structure Balanced (counter : BitVec 8) : Prop where
  even : 2 ∣ counter.toInt
  lower : -8 ≤ counter.toInt
  upper : counter.toInt ≤ 8

theorem balanced_zero : Balanced 0 := ⟨by decide, by decide, by decide⟩

theorem not_saddOverflow {w : ℕ} {x y : BitVec w} (hlow : -2 ^ (w - 1) ≤ x.toInt + y.toInt)
    (hhigh : x.toInt + y.toInt < 2 ^ (w - 1)) : ¬ x.saddOverflow y := by
  simp only [BitVec.saddOverflow, Bool.or_eq_true, decide_eq_true_eq, not_or]
  omega

theorem not_ssubOverflow {w : ℕ} {x y : BitVec w} (hlow : -2 ^ (w - 1) ≤ x.toInt - y.toInt)
    (hhigh : x.toInt - y.toInt < 2 ^ (w - 1)) : ¬ x.ssubOverflow y := by
  simp only [BitVec.ssubOverflow, Bool.or_eq_true, decide_eq_true_eq, not_or]
  omega

section
variable (in_ : BitVec 9) {counter : BitVec 8}

theorem difference_exact : ¬ BitVec.ssubOverflow 8 (doubled in_) := by
  obtain ⟨-, hlow, hhigh⟩ := doubled_toInt in_
  have height : (8 : BitVec 6).toInt = 8 := by decide
  exact not_ssubOverflow (by rw [height]; omega) (by rw [height]; omega)

theorem n0n1_toInt : (n0n1 in_).toInt = -disparity (in_.extractLsb' 0 8) := by
  have height : (8 : BitVec 6).toInt = 8 := by decide
  rw [n0n1_eq, BitVec.toInt_sub_of_not_ssubOverflow (difference_exact in_), height,
    (doubled_toInt in_).1]
  omega

theorem n0n1_bounds : 2 ∣ (n0n1 in_).toInt ∧ -8 ≤ (n0n1 in_).toInt ∧ (n0n1 in_).toInt ≤ 8 := by
  obtain ⟨heq, hlow, hhigh⟩ := doubled_toInt in_
  rw [n0n1_toInt]
  refine ⟨?_, by omega, by omega⟩
  rw [disparity_eq]
  omega

theorem n0n1_extended : ((n0n1 in_).signExtend 8).toInt = (n0n1 in_).toInt :=
  BitVec.toInt_signExtend_of_le (by decide)

/-- A balanced counter has room for every word. -/
theorem Balanced.exact (h : Balanced counter) : Exact in_ counter := by
  obtain ⟨-, hlow, hhigh⟩ := n0n1_bounds in_
  have hext := n0n1_extended in_
  have htwo : (2 : BitVec 8).toInt = 2 := by decide
  have hlower := h.lower
  have hupper := h.upper
  have hsub : ¬ counter.ssubOverflow ((n0n1 in_).signExtend 8) :=
    not_ssubOverflow (by rw [hext]; omega) (by rw [hext]; omega)
  have hadd : ¬ counter.saddOverflow ((n0n1 in_).signExtend 8) :=
    not_saddOverflow (by rw [hext]; omega) (by rw [hext]; omega)
  have hsum := BitVec.toInt_add_of_not_saddOverflow hadd
  have hdiff := BitVec.toInt_sub_of_not_ssubOverflow hsub
  refine ⟨difference_exact in_, hsub, hadd, ?_, ?_⟩
  · exact not_saddOverflow (by rw [hsum, hext, htwo]; omega) (by rw [hsum, hext, htwo]; omega)
  · exact not_ssubOverflow (by rw [hdiff, hext, htwo]; omega) (by rw [hdiff, hext, htwo]; omega)

theorem disparity_symbol (inverted : Bool) : disparity (symbol in_ inverted) =
    (if inverted then 1 else -1) + ((if in_.getLsbD 8 then 1 else -1) +
      if inverted then (n0n1 in_).toInt else -(n0n1 in_).toInt) := by
  rw [symbol, disparity_cons, disparity_cons, n0n1_toInt]
  cases inverted with
  | true => rw [if_pos rfl, if_pos rfl, if_pos rfl, disparity_not]
  | false =>
    rw [if_neg Bool.false_ne_true, if_neg Bool.false_ne_true, if_neg Bool.false_ne_true, Int.neg_neg]

/-- The new counter has the disparity of the symbol added to it, and is balanced again. -/
theorem dcBalancing_counter (h : Balanced counter) :
    (dcBalancing in_ counter).2.toInt = counter.toInt + disparity (dcBalancing in_ counter).1 ∧
      Balanced (dcBalancing in_ counter).2 := by
  have hexact := h.exact in_
  have hext := n0n1_extended in_
  have htwo : (2 : BitVec 8).toInt = 2 := by decide
  have hsum := BitVec.toInt_add_of_not_saddOverflow hexact.add
  have hdiff := BitVec.toInt_sub_of_not_ssubOverflow hexact.subtract
  have hsum' := BitVec.toInt_add_of_not_saddOverflow hexact.addTwo
  have hdiff' := BitVec.toInt_sub_of_not_ssubOverflow hexact.subtractTwo
  rw [hext] at hsum hdiff
  rw [htwo, hsum] at hsum'
  rw [htwo, hdiff] at hdiff'
  obtain ⟨heven, hlow, hhigh⟩ := n0n1_bounds in_
  obtain ⟨heven', hlower, hupper⟩ := h
  cases dcBalancing_cases in_ counter with
  | neutral rule out_eq =>
    rw [toInt_eq_zero_iff, toInt_eq_zero_iff] at rule
    rw [out_eq, disparity_symbol]
    cases in_.getLsbD 8 with
    | true =>
      simp only [if_true, Bool.not_true, Bool.false_eq_true, if_false]
      exact ⟨by omega, by omega, by omega, by omega⟩
    | false =>
      simp only [if_true, Bool.not_false, Bool.false_eq_true, if_false]
      exact ⟨by omega, by omega, by omega, by omega⟩
  | opposite rule out_eq =>
    rw [out_eq, disparity_symbol]
    cases in_.getLsbD 8 with
    | true =>
      simp only [if_true]
      exact ⟨by omega, by omega, by omega, by omega⟩
    | false =>
      simp only [if_true, Bool.false_eq_true, if_false]
      exact ⟨by omega, by omega, by omega, by omega⟩
  | same rule out_eq =>
    rw [out_eq, disparity_symbol]
    cases in_.getLsbD 8 with
    | true =>
      simp only [if_true, Bool.false_eq_true, if_false]
      exact ⟨by omega, by omega, by omega, by omega⟩
    | false =>
      simp only [Bool.false_eq_true, if_false]
      exact ⟨by omega, by omega, by omega, by omega⟩

end

/-- The symbols of the current data period encoded before clock `t`. -/
def encoded (input : ℕ → VideoIo 24) (ch : Fin 3) : ℕ → List (BitVec 10)
  | 0 => []
  | t + 1 =>
    if ((DviOut.machine.run .init input t).videoRegs 0).dataEnable then
      encoded input ch t ++ [(DviOut.machine.run .init input (t + 1)).dviData ch]
    else []

/-- **The counters keep the disparity.** In every data period a channel's counter is the
number of ones less the number of zeros in all symbols since the period began; it never
leaves -8 to 8, and nothing that is computed for the next symbol overflows. -/
theorem counter_disparity (input : ℕ → VideoIo 24) (t : ℕ) (ch : Fin 3) :
    let s := DviOut.machine.run .init input t
    (s.counter ch).toInt = ((encoded input ch t).map disparity).sum ∧
      |(s.counter ch).toInt| ≤ 8 ∧ Exact (word (s.videoRegs 0).pixelData ch) (s.counter ch) := by
  have hinv : ((DviOut.machine.run .init input t).counter ch).toInt =
        ((encoded input ch t).map disparity).sum ∧
      Balanced ((DviOut.machine.run .init input t).counter ch) := by
    induction t with
    | zero => exact ⟨rfl, balanced_zero⟩
    | succ t ih =>
      obtain ⟨hsum, hbalanced⟩ := ih
      cases hdata : ((DviOut.machine.run .init input t).videoRegs 0).dataEnable with
      | false =>
        have hcounter : (DviOut.machine.run .init input (t + 1)).counter ch = 0 :=
          (DviOut.step_blank hdata (input t) ch).2
        rw [encoded, hdata, hcounter]
        exact ⟨rfl, balanced_zero⟩
      | true =>
        have hout := DviOut.step_data hdata (input t) ch
        obtain ⟨hadd, hbalanced'⟩ := dcBalancing_counter
          (word ((DviOut.machine.run .init input t).videoRegs 0).pixelData ch) hbalanced
        rw [← hout] at hadd hbalanced'
        refine ⟨?_, hbalanced'⟩
        rw [encoded, hdata, if_pos rfl, List.map_append, List.sum_append, ← hsum]
        rw [List.map_singleton, List.sum_singleton]
        exact hadd
  exact ⟨hinv.1, abs_le.mpr ⟨hinv.2.lower, hinv.2.upper⟩, hinv.2.exact _⟩

end SeccampRiscvCpu.DviEncoder
