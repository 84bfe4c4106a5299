import Mathlib

/-!
# Counters in registers of a given width

A register of `Nat.clog 2 n` bits holds every number below `n`. Counting up or down
by one in it is counting in the numbers as long as nothing wraps.
-/
namespace SeccampRiscvCpu.WordCounters

variable {w : ℕ}

theorem lt_two_pow_clog {k n : ℕ} (h : k < n) : k < 2 ^ Nat.clog 2 n :=
  Nat.lt_of_lt_of_le h (Nat.le_pow_clog Nat.one_lt_two n)

theorem toNat_literal {k n : ℕ} (h : k < n) : (BitVec.ofNat (Nat.clog 2 n) k).toNat = k := by
  rw [BitVec.toNat_ofNat, Nat.mod_eq_of_lt (lt_two_pow_clog h)]

theorem eq_zero_iff (x : BitVec w) : x = 0 ↔ x.toNat = 0 := by
  constructor
  · intro h
    rw [h]
    exact BitVec.toNat_zero
  · intro h
    exact BitVec.eq_of_toNat_eq (h.trans BitVec.toNat_zero.symm)

theorem toNat_add_one {x : BitVec w} (h : x.toNat + 1 < 2 ^ w) : (x + 1).toNat = x.toNat + 1 := by
  have hone : (1 : BitVec w).toNat = 1 := by
    simp only [BitVec.ofNat_eq_ofNat, BitVec.toNat_ofNat]
    exact Nat.mod_eq_of_lt (by omega)
  rw [BitVec.toNat_add, hone, Nat.mod_eq_of_lt h]

theorem toNat_sub_one {x : BitVec w} (h : 0 < x.toNat) : (x - 1).toNat = x.toNat - 1 := by
  have hlt := x.isLt
  have hone : (1 : BitVec w).toNat = 1 := by
    simp only [BitVec.ofNat_eq_ofNat, BitVec.toNat_ofNat]
    exact Nat.mod_eq_of_lt (by omega)
  have hle : (1 : BitVec w) ≤ x := by
    rw [BitVec.le_def, hone]
    exact h
  rw [BitVec.toNat_sub_of_le hle, hone]

/-! ## A count of clocks as rounds and clocks of a round -/

theorem rounds_at {x n : ℕ} (q : ℕ) (h : x < n) : (q * n + x) / n = q ∧ (q * n + x) % n = x := by
  refine (Nat.div_mod_unique (by omega)).mpr ⟨?_, h⟩
  rw [Nat.mul_comm, Nat.add_comm]

theorem rounds_wrap {k n : ℕ} (h : k % n + 1 = n) : (k + 1) / n = k / n + 1 ∧ (k + 1) % n = 0 := by
  have hpos : 0 < n := by omega
  refine (Nat.div_mod_unique hpos).mpr ⟨?_, hpos⟩
  have hsplit := Nat.mod_add_div k n
  rw [Nat.mul_succ]
  omega

theorem rounds_next {k n : ℕ} (h : k % n + 1 < n) :
    (k + 1) / n = k / n ∧ (k + 1) % n = k % n + 1 := by
  refine (Nat.div_mod_unique (by omega)).mpr ⟨?_, h⟩
  have hsplit := Nat.mod_add_div k n
  omega

end SeccampRiscvCpu.WordCounters
