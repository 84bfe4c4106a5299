import SeccampRiscvCpu.ByteSlices

/-!
# Sixteen-bit reflected checksums

The bit-serial form: each byte is added to the low end of the register, which
is then shifted out one bit at a time, the polynomial being added whenever a
one leaves. A parameter set fixes the reflected polynomial, the initial
register and the value added at the end.

The number of ones is additive modulo two. A polynomial with an odd number of
them replaces the one that leaves, so the parity of the checksum is that of the
bytes and of the two constants.
-/
namespace SeccampRiscvCpu.ReflectedCrc
open ByteSlices

structure Params where
  polynomial : U16
  init : U16
  xorOut : U16
deriving DecidableEq, Repr

def shiftBit (polynomial register : U16) : U16 :=
  if register.getLsbD 0 then register >>> 1 ^^^ polynomial else register >>> 1

def addByte (polynomial register : U16) (b : U8) : U16 :=
  (shiftBit polynomial)^[8] (register ^^^ b.setWidth 16)

def checksum (p : Params) (bytes : List U8) : U16 :=
  bytes.foldl (addByte p.polynomial) p.init ^^^ p.xorOut

/-- CRC-16/USB: polynomial 0x8005, reflected. -/
def usb : Params := ⟨0xa001, 0xffff, 0xffff⟩

-- the published check value, over the digits one to nine
example : checksum usb [0x31, 0x32, 0x33, 0x34, 0x35, 0x36, 0x37, 0x38, 0x39] = 0xb4c8 := by
  decide +kernel

/-! ## Parity -/

/-- The number of bits that are one. -/
def ones {w : ℕ} (x : BitVec w) : ℕ := x.cpop.toNat

section Ones
variable {w : ℕ}

theorem ones_xor (x y : BitVec w) : ones (x ^^^ y) % 2 = (ones x + ones y) % 2 := by
  have h : ∀ n, (x ^^^ y).cpopNatRec n 0 % 2 = (x.cpopNatRec n 0 + y.cpopNatRec n 0) % 2 := by
    intro n
    induction n with
    | zero => rfl
    | succ n ih =>
      simp only [BitVec.cpopNatRec_succ, BitVec.cpopNatRec_add, BitVec.getLsbD_xor]
      cases x.getLsbD n <;> cases y.getLsbD n <;>
        simp only [Bool.xor_self, Bool.xor_true, Bool.xor_false, Bool.not_false, Bool.toNat_true,
          Bool.toNat_false] <;> omega
  simp only [ones, BitVec.toNat_cpop]
  exact h w

theorem ones_not (x : BitVec w) : ones (~~~x) + ones x = w := by
  have hle : ones x ≤ w := BitVec.toNat_cpop_le x
  have hnot : ones (~~~x) = w - ones x := BitVec.toNat_cpop_not
  omega

theorem ones_setWidth (x : BitVec w) {v : ℕ} (h : w ≤ v) : ones (x.setWidth v) = ones x :=
  BitVec.toNat_cpop_setWidth_eq_of_le h

theorem ones_append {v : ℕ} (x : BitVec w) (y : BitVec v) : ones (x ++ y) = ones x + ones y :=
  BitVec.toNat_cpop_append

/-- A shift loses the bit that leaves. -/
theorem ones_shift (x : BitVec w) : ones (x >>> 1) + (x.getLsbD 0).toNat = ones x := by
  cases w with
  | zero =>
    obtain rfl := BitVec.of_length_zero (x := x)
    rfl
  | succ w =>
    have hx : x = (x.extractLsb' 1 w).concat (x.getLsbD 0) := by
      ext i hi
      cases i with
      | zero => simp [BitVec.getElem_concat]
      | succ i => simp [Nat.add_comm 1 i, BitVec.getLsbD_eq_getElem hi]
    have hs : x >>> 1 = (x.extractLsb' 1 w).setWidth (w + 1) := by
      ext i hi
      simp only [BitVec.getElem_ushiftRight, BitVec.getElem_setWidth, BitVec.getLsbD_extractLsb']
      rcases Nat.lt_or_ge i w with hlt | hge
      · rw [decide_eq_true hlt, Bool.true_and]
      · rw [BitVec.getLsbD_of_ge _ _ (by omega), Bool.and_false]
    have hones : ones x = (x.getLsbD 0).toNat + ones (x.extractLsb' 1 w) := by
      conv_lhs => rw [hx]
      exact BitVec.toNat_cpop_concat
    rw [hs, ones_setWidth _ (Nat.le_succ w), hones, Nat.add_comm]

end Ones

/-- The bits that are one in a byte string. -/
def onesOf (bytes : List U8) : ℕ := (bytes.map ones).sum

@[simp] theorem onesOf_nil : onesOf [] = 0 := rfl
@[simp] theorem onesOf_cons (b : U8) (bytes : List U8) :
    onesOf (b :: bytes) = ones b + onesOf bytes := rfl

@[simp] theorem onesOf_append (xs ys : List U8) : onesOf (xs ++ ys) = onesOf xs + onesOf ys := by
  simp only [onesOf, List.map_append, List.sum_append]

/-- The bits in which two byte strings of one length differ. -/
def flips (xs ys : List U8) : ℕ := onesOf (List.zipWith (· ^^^ ·) xs ys)

theorem flips_parity {xs ys : List U8} (h : xs.length = ys.length) :
    flips xs ys % 2 = (onesOf xs + onesOf ys) % 2 := by
  induction xs generalizing ys with
  | nil =>
    obtain rfl := List.eq_nil_of_length_eq_zero h.symm
    rfl
  | cons x xs ih =>
    obtain ⟨y, ys, rfl⟩ := List.exists_cons_of_length_eq_add_one h.symm
    have hrest : flips xs ys % 2 = (onesOf xs + onesOf ys) % 2 := ih (Nat.succ.inj h)
    have hfirst := ones_xor x y
    have hcons : flips (x :: xs) (y :: ys) = ones (x ^^^ y) + flips xs ys := rfl
    rw [hcons, onesOf_cons, onesOf_cons]
    omega

section Parity
variable {polynomial : U16} (hp : ones polynomial % 2 = 1)
include hp

theorem shiftBit_parity (register : U16) :
    ones (shiftBit polynomial register) % 2 = ones register % 2 := by
  have hshift := ones_shift register
  unfold shiftBit
  cases hb : register.getLsbD 0 with
  | false =>
    rw [hb, Bool.toNat_false] at hshift
    rw [if_neg Bool.false_ne_true, ← hshift, Nat.add_zero]
  | true =>
    -- the polynomial brings as many ones as have left, modulo two
    rw [hb, Bool.toNat_true] at hshift
    have hxor := ones_xor (register >>> 1) polynomial
    rw [if_pos rfl]
    omega

theorem addByte_parity (register : U16) (b : U8) :
    ones (addByte polynomial register b) % 2 = (ones register + ones b) % 2 := by
  have hshifts : ∀ n x, ones ((shiftBit polynomial)^[n] x) % 2 = ones x % 2 := by
    intro n
    induction n with
    | zero => exact fun x => rfl
    | succ n ih =>
      intro x
      rw [Function.iterate_succ_apply, ih, shiftBit_parity hp]
  rw [addByte, hshifts, ones_xor, ones_setWidth b (by decide)]

theorem foldl_parity (register : U16) (bytes : List U8) :
    ones (bytes.foldl (addByte polynomial) register) % 2 =
      (ones register + onesOf bytes) % 2 := by
  induction bytes generalizing register with
  | nil => rfl
  | cons b bytes ih =>
    have hstep := addByte_parity hp register b
    rw [List.foldl_cons, ih, onesOf_cons]
    omega

end Parity

theorem checksum_parity {p : Params} (hp : ones p.polynomial % 2 = 1) (bytes : List U8) :
    ones (checksum p bytes) % 2 = (ones p.init + onesOf bytes + ones p.xorOut) % 2 := by
  have hfold := foldl_parity hp p.init bytes
  rw [checksum, ones_xor]
  omega

theorem onesOf_be16 (x : U16) : onesOf (be16 x) = ones x := by
  have hx : x = BitVec.ofNat 8 (x.toNat / 256) ++ x.setWidth 8 := by
    apply BitVec.eq_of_toNat_eq
    rw [BitVec.toNat_append, BitVec.toNat_ofNat, BitVec.toNat_setWidth,
      ← Nat.shiftLeft_add_eq_or_of_lt (Nat.mod_lt _ (by decide)), Nat.shiftLeft_eq]
    omega
  conv_rhs => rw [hx]
  rw [ones_append]
  rfl

end SeccampRiscvCpu.ReflectedCrc
