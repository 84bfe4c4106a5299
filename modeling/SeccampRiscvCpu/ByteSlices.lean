import Mathlib

/-!
# Byte strings, big-endian words and bounds-checked slices

Bytes and machine words are bit vectors of their declared width. A slice
expression whose range leaves the underlying array has no value: the checked
operations return `none` there, so a program built from them has a value
exactly when none of its index expressions is out of range.

Fixed-size buffers are lists whose length is kept by every store.
-/
namespace SeccampRiscvCpu.ByteSlices

abbrev U8 := BitVec 8
abbrev U16 := BitVec 16
abbrev U32 := BitVec 32

/-- Most significant byte first. -/
def be16 (x : U16) : List U8 := [.ofNat 8 (x.toNat / 256), x.setWidth 8]

def be32 (x : U32) : List U8 :=
  [.ofNat 8 (x.toNat / 16777216), .ofNat 8 (x.toNat / 65536),
    .ofNat 8 (x.toNat / 256), x.setWidth 8]

def ofBe16 (a b : U8) : U16 := .ofNat 16 (256 * a.toNat + b.toNat)

def ofBe32 (a b c d : U8) : U32 :=
  .ofNat 32 (16777216 * a.toNat + 65536 * b.toNat + 256 * c.toNat + d.toNat)

@[simp] theorem be16_length (x : U16) : (be16 x).length = 2 := rfl
@[simp] theorem be32_length (x : U32) : (be32 x).length = 4 := rfl

@[simp] theorem ofBe16_be16 (x : U16) :
    ofBe16 (.ofNat 8 (x.toNat / 256)) (x.setWidth 8) = x := by
  apply BitVec.eq_of_toNat_eq
  simp only [ofBe16, BitVec.toNat_ofNat, BitVec.toNat_setWidth]
  omega

@[simp] theorem ofBe32_be32 (x : U32) :
    ofBe32 (.ofNat 8 (x.toNat / 16777216)) (.ofNat 8 (x.toNat / 65536))
      (.ofNat 8 (x.toNat / 256)) (x.setWidth 8) = x := by
  apply BitVec.eq_of_toNat_eq
  simp only [ofBe32, BitVec.toNat_ofNat, BitVec.toNat_setWidth]
  omega

theorem be16_ofBe16 (a b : U8) : be16 (ofBe16 a b) = [a, b] := by
  have hx : (ofBe16 a b).toNat = 256 * a.toNat + b.toNat := by
    rw [ofBe16, BitVec.toNat_ofNat]
    omega
  unfold be16
  rw [hx]
  congr 1
  · apply BitVec.eq_of_toNat_eq
    rw [BitVec.toNat_ofNat]
    omega
  · congr 1
    apply BitVec.eq_of_toNat_eq
    rw [BitVec.toNat_setWidth, hx]
    omega

theorem be16_injective : Function.Injective be16 := by
  intro x y h
  have hx := ofBe16_be16 x
  simp only [be16, List.cons.injEq, and_true] at h
  rw [h.1, h.2, ofBe16_be16] at hx
  exact hx.symm

/-- A two-byte array as a word; any other length is a failed conversion. -/
def wordOf : List U8 → Option U16
  | [a, b] => some (ofBe16 a b)
  | _ => none

def dwordOf : List U8 → Option U32
  | [a, b, c, d] => some (ofBe32 a b c d)
  | _ => none

theorem wordOf_some {xs : List U8} (h : xs.length = 2) : ∃ x, wordOf xs = some x := by
  obtain ⟨a, b, rfl⟩ := List.length_eq_two.mp h
  exact ⟨_, rfl⟩

theorem dwordOf_some {xs : List U8} (h : xs.length = 4) : ∃ x, dwordOf xs = some x := by
  match xs, h with
  | [a, b, c, d], _ => exact ⟨_, rfl⟩

@[simp] theorem wordOf_be16 (x : U16) : wordOf (be16 x) = some x := by
  simp [wordOf, be16]

@[simp] theorem dwordOf_be32 (x : U32) : dwordOf (be32 x) = some x := by
  simp [dwordOf, be32]

section Slices
variable {α : Type*}

/-- `xs[i..j]` -/
def slice (xs : List α) (i j : ℕ) : Option (List α) :=
  if i ≤ j ∧ j ≤ xs.length then some ((xs.take j).drop i) else none

theorem slice_eq (xs : List α) {i j : ℕ} (hij : i ≤ j) (hj : j ≤ xs.length) :
    slice xs i j = some ((xs.take j).drop i) := if_pos ⟨hij, hj⟩

theorem length_of_slice {xs ys : List α} {i j : ℕ} (h : slice xs i j = some ys) :
    ys.length = j - i := by
  unfold slice at h
  split_ifs at h with hij
  rw [← Option.some.inj h, List.length_drop, List.length_take, Nat.min_eq_left hij.2]

@[simp] theorem slice_append_left (xs ys : List α) :
    slice (xs ++ ys) 0 xs.length = some xs := by
  simp [slice]

theorem slice_front {xs ys : List α} {n : ℕ} (h : ys <+: xs) (hn : n = ys.length) :
    slice xs 0 n = some ys := by
  obtain ⟨zs, rfl⟩ := h
  rw [hn, slice_append_left]

/-- The middle of a concatenation, addressed by lengths. -/
theorem slice_middle (xs ys zs : List α) {i j : ℕ} (hi : i = xs.length)
    (hj : j = xs.length + ys.length) : slice (xs ++ ys ++ zs) i j = some ys := by
  subst hi hj
  rw [slice_eq _ (Nat.le_add_right _ _) (by simp)]
  have hl : xs.length + ys.length = (xs ++ ys).length := List.length_append.symm
  rw [hl, List.take_left]
  simp

/-- `xs[i..i + ys.len()].copy_from_slice(ys)` on a range known to fit. -/
def overwrite (xs : List α) (i : ℕ) (ys : List α) : List α :=
  xs.take i ++ ys ++ xs.drop (i + ys.length)

theorem overwrite_length {xs ys : List α} {i : ℕ} (h : i + ys.length ≤ xs.length) :
    (overwrite xs i ys).length = xs.length := by
  simp only [overwrite, List.length_append, List.length_take, List.length_drop]
  omega

/-- After a store the buffer starts with what stood before it and the stored bytes. -/
theorem take_overwrite {xs : List α} {i : ℕ} (ys : List α) (h : i ≤ xs.length) :
    (overwrite xs i ys).take (i + ys.length) = xs.take i ++ ys := by
  have hl : (xs.take i ++ ys).length = i + ys.length := by simp [h]
  rw [overwrite, ← hl, List.take_left]

/-- A store replaces its own range and nothing else. -/
theorem getElem?_overwrite {xs ys : List α} {i : ℕ} (h : i + ys.length ≤ xs.length) (k : ℕ) :
    (overwrite xs i ys)[k]? = if i ≤ k then ys[k - i]?.or xs[k]? else xs[k]? := by
  have htake : (xs.take i).length = i := by
    rw [List.length_take]
    omega
  unfold overwrite
  rcases Nat.lt_or_ge k i with hlt | hge
  · rw [if_neg (Nat.not_le.mpr hlt), List.append_assoc,
      List.getElem?_append_left (by omega), List.getElem?_take_of_lt hlt]
  · rw [if_pos hge, List.append_assoc, List.getElem?_append_right (by omega), htake]
    rcases Nat.lt_or_ge (k - i) ys.length with hin | hout
    · rw [List.getElem?_append_left hin, List.getElem?_eq_getElem hin, Option.some_or]
    · have hsum : i + ys.length + (k - i - ys.length) = k := by omega
      rw [List.getElem?_append_right hout, List.getElem?_drop, hsum,
        List.getElem?_eq_none hout, Option.none_or]

/-- A store behind what has been stored. -/
theorem overwrite_append {xs : List α} (zs ys : List α) {i : ℕ} (h : i = xs.length) :
    overwrite (xs ++ zs) i ys = xs ++ ys ++ zs.drop ys.length := by
  rw [overwrite, h, List.take_left, ← List.drop_drop, List.drop_left]

/-- Two stores side by side are one. -/
theorem overwrite_overwrite {xs : List α} {i : ℕ} (ys zs : List α) (h : i ≤ xs.length) :
    overwrite (overwrite xs i ys) (i + ys.length) zs = overwrite xs i (ys ++ zs) := by
  have hdrop : (overwrite xs i ys).drop (i + ys.length) = xs.drop (i + ys.length) := by
    have hl : (xs.take i ++ ys).length = i + ys.length := by simp [h]
    rw [overwrite, ← hl, List.drop_left]
  have htail : (overwrite xs i ys).drop (i + ys.length + zs.length) =
      xs.drop (i + (ys ++ zs).length) := by
    rw [← List.drop_drop, hdrop, List.drop_drop, List.length_append, Nat.add_assoc]
  rw [overwrite, take_overwrite ys h, htail, List.append_assoc (xs.take i) ys zs]
  rfl

theorem prefix_overwrite (xs ys : List α) (h : ys.length ≤ xs.length) :
    ys <+: overwrite xs 0 ys ∧ (overwrite xs 0 ys).length = xs.length :=
  ⟨⟨xs.drop ys.length, by simp [overwrite]⟩, overwrite_length (by omega)⟩

@[simp] theorem overwrite_nil (xs : List α) (i : ℕ) : overwrite xs i [] = xs := by
  simp [overwrite]

end Slices

/-- `[u8; n]`: stores keep the length. -/
structure Buffer (n : ℕ) where
  bytes : List U8
  length_eq : bytes.length = n

namespace Buffer
variable {n : ℕ}

def zero (n : ℕ) : Buffer n := ⟨List.replicate n 0, List.length_replicate⟩

def store (b : Buffer n) (i : ℕ) (ys : List U8) : Option (Buffer n) :=
  if h : i + ys.length ≤ n then
    some ⟨overwrite b.bytes i ys, (overwrite_length (b.length_eq.symm ▸ h)).trans b.length_eq⟩
  else none

theorem store_eq (b : Buffer n) (i : ℕ) (ys : List U8) (h : i + ys.length ≤ n) :
    ∃ b', b.store i ys = some b' ∧ b'.bytes = overwrite b.bytes i ys :=
  ⟨_, dif_pos h, rfl⟩

theorem store_take (b : Buffer n) (i : ℕ) (ys : List U8) (h : i + ys.length ≤ n) :
    ∃ b', b.store i ys = some b' ∧ b'.bytes.take (i + ys.length) = b.bytes.take i ++ ys := by
  obtain ⟨b', hb, he⟩ := b.store_eq i ys h
  exact ⟨b', hb, he ▸ take_overwrite ys (by rw [b.length_eq]; omega)⟩

theorem store_nil (b : Buffer n) {i : ℕ} (h : i ≤ n) : b.store i [] = some b := by
  obtain ⟨b', hb, he⟩ := b.store_eq i [] h
  rw [overwrite_nil] at he
  cases b; cases b'
  simp only at he
  subst he
  exact hb

theorem slice_eq (b : Buffer n) {i j : ℕ} (hij : i ≤ j) (hj : j ≤ n) :
    slice b.bytes i j = some ((b.bytes.take j).drop i) :=
  ByteSlices.slice_eq _ hij (b.length_eq.symm ▸ hj)

theorem length_take (b : Buffer n) {i : ℕ} (h : i ≤ n) : (b.bytes.take i).length = i := by
  rw [List.length_take, b.length_eq, Nat.min_eq_left h]

end Buffer

/-- Unsigned subtraction, without a value below zero. -/
def checkedSub (a b : ℕ) : Option ℕ := if b ≤ a then some (a - b) else none

theorem checkedSub_eq {a b : ℕ} (h : b ≤ a) : checkedSub a b = some (a - b) := if_pos h

end SeccampRiscvCpu.ByteSlices
