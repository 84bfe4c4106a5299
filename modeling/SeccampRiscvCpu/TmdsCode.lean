import Mathlib

/-!
# Reading TMDS symbols

A symbol of ten bits is one of four control symbols or carries a byte: bit 9 says
whether the low eight bits are complemented, bit 8 whether each of them is the
exclusive or of its data bit with the bit below, or the complement of that. The
disparity of a word is how many more ones than zeros it has.
-/
namespace SeccampRiscvCpu.TmdsCode

/-- The symbol of two control bits. -/
def controlSymbol (c : BitVec 2) : BitVec 10 :=
  match c.toNat with
  | 0 => 0b1101010100
  | 1 => 0b0010101011
  | 2 => 0b0101010100
  | _ => 0b1010101011

/-- The eight bits before the balancing. -/
def undoInversion (q : BitVec 10) : BitVec 8 :=
  if q.getLsbD 9 then ~~~q.extractLsb' 0 8 else q.extractLsb' 0 8

/-- The byte of a data symbol. -/
def decode (q : BitVec 10) : BitVec 8 :=
  let m := undoInversion q
  let d := m ^^^ m <<< 1
  if q.getLsbD 8 then d else d ^^^ 0b11111110

/-- What a receiver makes of a symbol. -/
def receive (q : BitVec 10) : BitVec 2 ⊕ BitVec 8 :=
  match [0, 1, 2, 3].find? fun c => controlSymbol c == q with
  | some c => .inl c
  | none => .inr (decode q)

theorem receive_control (c : BitVec 2) : receive (controlSymbol c) = .inl c := by
  revert c
  decide

theorem receive_data {q : BitVec 10} (h : ∀ c, q ≠ controlSymbol c) :
    receive q = .inr (decode q) := by
  have hnone : ([0, 1, 2, 3].find? fun c => controlSymbol c == q) = none := by
    rw [List.find?_eq_none]
    intro c _
    exact fun heq => h c (beq_iff_eq.mp heq).symm
  rw [receive, hnone]

/-- Each bit comes back from its chain. -/
theorem decode_bit (q : BitVec 10) {i : ℕ} (hi : i < 8) :
    (decode q).getLsbD i = if i = 0 then (undoInversion q).getLsbD 0
      else ((undoInversion q).getLsbD i ^^ (undoInversion q).getLsbD (i - 1)) ^^ !q.getLsbD 8 := by
  have hmask : ∀ i < 8, (0b11111110 : BitVec 8).getLsbD i = !decide (i = 0) := by decide
  have hxor : (undoInversion q ^^^ undoInversion q <<< 1).getLsbD i =
      ((undoInversion q).getLsbD i ^^ (!decide (i < 1) && (undoInversion q).getLsbD (i - 1))) := by
    rw [BitVec.getLsbD_xor, BitVec.getLsbD_shiftLeft, decide_eq_true hi, Bool.true_and]
  rw [decode]
  cases q.getLsbD 8 with
  | true =>
    rw [if_pos rfl, hxor]
    cases i <;> simp
  | false =>
    rw [if_neg Bool.false_ne_true, BitVec.getLsbD_xor, hxor, hmask i hi]
    cases i <;> simp

/-! ## Disparity -/

section
variable {w : ℕ}

def disparity (q : BitVec w) : ℤ := q.cpop.toNat - (~~~q).cpop.toNat

theorem disparity_eq (q : BitVec w) : disparity q = 2 * q.cpop.toNat - w := by
  have hle := BitVec.toNat_cpop_le q
  rw [disparity, BitVec.toNat_cpop_not]
  omega

theorem disparity_not (q : BitVec w) : disparity (~~~q) = -disparity q := by
  rw [disparity, disparity, BitVec.not_not]
  omega

theorem disparity_cons (b : Bool) (q : BitVec w) :
    disparity (q.cons b) = (if b then 1 else -1) + disparity q := by
  rw [disparity_eq, disparity_eq, BitVec.toNat_cpop_cons]
  cases b <;> simp <;> omega

end

end SeccampRiscvCpu.TmdsCode
