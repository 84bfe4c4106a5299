import Mathlib

/-!
# Byte memory behind a 32-bit bus

Memory is a total map from addresses to bytes. A bus without byte addressing
moves whole aligned lines: four bytes at once, and a strobe that says which of
the four a write replaces. A byte or halfword access is then a shift: a read
shifts the line down by the byte offset, a write shifts value and strobe up.

The lemmas say that, for naturally aligned accesses, the shifted line and the
shifted strobe touch exactly the bytes the access names. An address is split
once into its line and its two offset bits; everything else is a case split on
the offset.
-/
namespace SeccampRiscvCpu.ByteMemory

abbrev Word := BitVec 32
abbrev Byte := BitVec 8
abbrev Memory := Word → Byte

/-- The four bytes from an address on, the lowest one in the low bits. -/
def readWord (m : Memory) (a : Word) : Word := m (a + 3) ++ m (a + 2) ++ m (a + 1) ++ m a

def readHalf (m : Memory) (a : Word) : BitVec 16 := m (a + 1) ++ m a

/-- Writes take effect in list order. -/
def writeBytes (m : Memory) (bs : List (Word × Byte)) : Memory :=
  bs.foldl (fun m b => Function.update m b.1 b.2) m

/-- Byte `i` of a word. -/
def byteAt (w : Word) (i : ℕ) : Byte := w.extractLsb' (8 * i) 8

def offset (a : Word) : BitVec 2 := a.extractLsb' 0 2

/-- The byte of the line of `a` that sits in lane `i`. -/
def lane (a : Word) (i : BitVec 2) : Word := a.extractLsb' 2 30 ++ i

/-- A line as one word, from its four bytes. -/
def line (b : BitVec 2 → Byte) : Word := b 3 ++ b 2 ++ b 1 ++ b 0

/-- What the bus returns for `a`: its whole line. -/
def busWord (m : Memory) (a : Word) : Word := line fun i => m (lane a i)

/-- The bytes a strobed write to the line of `a` replaces, lowest lane first. -/
def strobedBytes (a : Word) (wstrb : BitVec 4) (wdata : Word) : List (Word × Byte) :=
  [0, 1, 2, 3].filterMap fun i =>
    if wstrb.getLsbD i then some (lane a (BitVec.ofNat 2 i), byteAt wdata i) else none

theorem lane_offset (a : Word) : lane a (offset a) = a := by
  apply BitVec.eq_of_toNat_eq
  simp only [lane, offset, BitVec.toNat_append, BitVec.extractLsb'_toNat, Nat.shiftRight_zero]
  rw [← Nat.shiftLeft_add_eq_or_of_lt (Nat.mod_lt _ (by decide)), Nat.shiftLeft_eq,
    Nat.shiftRight_eq_div_pow]
  omega

theorem lane_toNat (a : Word) (i : BitVec 2) : (lane a i).toNat = 4 * (a.toNat / 4) + i.toNat := by
  simp only [lane, BitVec.toNat_append, BitVec.extractLsb'_toNat]
  rw [← Nat.shiftLeft_add_eq_or_of_lt i.isLt, Nat.shiftLeft_eq, Nat.shiftRight_eq_div_pow]
  omega

/-- Inside a line, addresses count lanes. -/
theorem add_eq_lane {a : Word} {i j : BitVec 2} {n : ℕ} (hi : offset a = i)
    (hj : i.toNat + n = j.toNat) : a + BitVec.ofNat 32 n = lane a j := by
  have ha : a.toNat % 4 = i.toNat := by
    rw [← hi]
    simp [offset, BitVec.extractLsb'_toNat]
  apply BitVec.eq_of_toNat_eq
  rw [lane_toNat, BitVec.toNat_add, BitVec.toNat_ofNat]
  omega

theorem offset_cases (i : BitVec 2) : i = 0 ∨ i = 1 ∨ i = 2 ∨ i = 3 := by
  revert i
  decide

theorem line_byte (b : BitVec 2 → Byte) (i : BitVec 2) :
    (line b >>> (8 * i.toNat)).extractLsb' 0 8 = b i := by
  obtain h | h | h | h := offset_cases i <;> subst h <;> unfold line <;>
    generalize b 0 = b0 <;> generalize b 1 = b1 <;> generalize b 2 = b2 <;>
    generalize b 3 = b3 <;> ext k hk <;> simp <;> grind

theorem line_half (b : BitVec 2 → Byte) (i : BitVec 2) (hi : i.getLsbD 0 = false) :
    (line b >>> (8 * i.toNat)).extractLsb' 0 16 = b (i + 1) ++ b i := by
  unfold line
  obtain h | h | h | h := offset_cases i <;> subst h
  · rw [show (0 : BitVec 2) + 1 = 1 from rfl]
    generalize b 0 = b0; generalize b 1 = b1; generalize b 2 = b2; generalize b 3 = b3
    ext k hk
    simp
    grind
  · contradiction
  · rw [show (2 : BitVec 2) + 1 = 3 from rfl]
    generalize b 0 = b0; generalize b 1 = b1; generalize b 2 = b2; generalize b 3 = b3
    ext k hk
    simp
    grind
  · contradiction

section Bytes

/-- A word is the line of its bytes. -/
theorem line_byteAt (w : Word) : line (fun lane => byteAt w lane.toNat) = w := by
  apply BitVec.eq_of_getLsbD_eq
  intro k hk
  change BitVec.getLsbD (_ ++ _ ++ _ ++ _ : BitVec (8 + 8 + 8 + 8)) k = _
  simp only [byteAt, BitVec.getLsbD_append, BitVec.getLsbD_extractLsb']
  have hbit : ∀ i j, j < 8 → 8 * i + j = k →
      (decide (j < 8) && w.getLsbD (8 * i + j)) = w.getLsbD k := by
    intro i j hj heq
    rw [decide_eq_true hj, Bool.true_and, heq]
  split_ifs
  · exact hbit 0 _ (by omega) (by omega)
  · exact hbit 1 _ (by omega) (by omega)
  · exact hbit 2 _ (by omega) (by omega)
  · exact hbit 3 _ (by omega) (by omega)

theorem byteAt_line (b : BitVec 2 → Byte) (lane : BitVec 2) :
    byteAt (line b) lane.toNat = b lane := by
  rw [← line_byte b lane]
  ext k hk
  simp only [byteAt, BitVec.getElem_extractLsb', BitVec.getLsbD_ushiftRight, Nat.zero_add]

theorem eq_of_bytes {v w : Word} (h : ∀ lane : BitVec 2, byteAt v lane.toNat = byteAt w lane.toNat) :
    v = w := by
  rw [← line_byteAt v, ← line_byteAt w]
  exact congrArg line (funext h)

theorem byteAt_and (v w : Word) (lane : BitVec 2) :
    byteAt (v &&& w) lane.toNat = byteAt v lane.toNat &&& byteAt w lane.toNat := by
  ext k hk
  simp only [byteAt, BitVec.getElem_extractLsb', BitVec.getElem_and, BitVec.getLsbD_and]

theorem byteAt_or (v w : Word) (lane : BitVec 2) :
    byteAt (v ||| w) lane.toNat = byteAt v lane.toNat ||| byteAt w lane.toNat := by
  ext k hk
  simp only [byteAt, BitVec.getElem_extractLsb', BitVec.getElem_or, BitVec.getLsbD_or]

theorem byteAt_not (v : Word) (lane : BitVec 2) :
    byteAt (~~~v) lane.toNat = ~~~byteAt v lane.toNat := by
  have hlt := lane.isLt
  ext k hk
  simp only [byteAt, BitVec.getElem_extractLsb', BitVec.getElem_not, BitVec.getLsbD_not,
    show 8 * lane.toNat + k < 32 by omega, decide_true, Bool.true_and]

end Bytes

section Reads
variable (m : Memory) {a : Word}

/-- Shifting the line down by the byte offset leaves the addressed byte lowest. -/
theorem busWord_byte (a : Word) :
    (busWord m a >>> (8 * (offset a).toNat)).extractLsb' 0 8 = m a := by
  rw [busWord, line_byte, lane_offset]

theorem busWord_half (ha : (offset a).getLsbD 0 = false) :
    (busWord m a >>> (8 * (offset a).toNat)).extractLsb' 0 16 = readHalf m a := by
  have h1 : a + 1 = lane a (offset a + 1) := by
    refine add_eq_lane rfl ?_
    obtain h | h | h | h := offset_cases (offset a) <;> rw [h] at ha ⊢ <;>
      first | rfl | contradiction
  rw [busWord, line_half _ _ ha, readHalf, h1, lane_offset]

theorem busWord_word (ha : offset a = 0) : busWord m a = readWord m a := by
  have h0 : a = lane a 0 := by rw [← ha, lane_offset]
  have h1 : a + 1 = lane a 1 := add_eq_lane ha rfl
  have h2 : a + 2 = lane a 2 := add_eq_lane ha rfl
  have h3 : a + 3 = lane a 3 := add_eq_lane ha rfl
  rw [readWord, h1, h2, h3]
  exact congrArg (m (lane a 3) ++ m (lane a 2) ++ m (lane a 1) ++ m ·) h0.symm

end Reads

section Writes
variable (v : Word) {a : Word}

theorem byteAt_shift (i j : ℕ) (h : i + j < 4) : byteAt (v <<< (8 * i)) (i + j) = byteAt v j := by
  ext k hk
  simp only [byteAt, BitVec.getElem_extractLsb', BitVec.getLsbD_shiftLeft]
  have h1 : 8 * (i + j) + k < 32 := by omega
  have h2 : ¬8 * (i + j) + k < 8 * i := by omega
  have h3 : 8 * (i + j) + k - 8 * i = 8 * j + k := by omega
  simp only [h1, h2, h3, decide_true, decide_false, Bool.not_false, Bool.true_and]

/-- A one-lane strobe shifted to the offset writes the addressed byte only. -/
theorem strobed_byte (a : Word) :
    strobedBytes a (1#4 <<< (offset a).toNat) (v <<< (8 * (offset a).toNat)) =
      [(a, byteAt v 0)] := by
  have hl := lane_offset a
  obtain h | h | h | h := offset_cases (offset a) <;> rw [h] at hl ⊢
  · exact congrArg₂ (fun x y => [(x, y)]) hl (byteAt_shift v 0 0 (by decide))
  · exact congrArg₂ (fun x y => [(x, y)]) hl (byteAt_shift v 1 0 (by decide))
  · exact congrArg₂ (fun x y => [(x, y)]) hl (byteAt_shift v 2 0 (by decide))
  · exact congrArg₂ (fun x y => [(x, y)]) hl (byteAt_shift v 3 0 (by decide))

theorem strobed_half (ha : (offset a).getLsbD 0 = false) :
    strobedBytes a (3#4 <<< (offset a).toNat) (v <<< (8 * (offset a).toNat)) =
      [(a, byteAt v 0), (a + 1, byteAt v 1)] := by
  have hl := lane_offset a
  obtain h | h | h | h := offset_cases (offset a)
  · have h1 : a + 1 = lane a 1 := add_eq_lane h rfl
    rw [h] at hl ⊢
    rw [h1, ← byteAt_shift v 0 0 (by decide), ← byteAt_shift v 0 1 (by decide)]
    exact congrArg (fun x => [(x, _), _]) hl
  · rw [h] at ha
    contradiction
  · have h1 : a + 1 = lane a 3 := add_eq_lane h rfl
    rw [h] at hl ⊢
    rw [h1, ← byteAt_shift v 2 0 (by decide), ← byteAt_shift v 2 1 (by decide)]
    exact congrArg (fun x => [(x, _), _]) hl
  · rw [h] at ha
    contradiction

theorem strobed_word (ha : offset a = 0) :
    strobedBytes a (15#4 <<< (offset a).toNat) (v <<< (8 * (offset a).toNat)) =
      [(a, byteAt v 0), (a + 1, byteAt v 1), (a + 2, byteAt v 2), (a + 3, byteAt v 3)] := by
  have hl := lane_offset a
  have h1 : a + 1 = lane a 1 := add_eq_lane ha rfl
  have h2 : a + 2 = lane a 2 := add_eq_lane ha rfl
  have h3 : a + 3 = lane a 3 := add_eq_lane ha rfl
  rw [ha] at hl ⊢
  rw [h1, h2, h3]
  have hv : v <<< (8 * (0#2).toNat) = v := BitVec.shiftLeft_zero v
  refine (congrArg (strobedBytes a _) hv).trans ?_
  exact congrArg (fun x => [(x, _), _, _, _]) hl

end Writes

/-! ## Writes to a line -/

theorem lane_inj {a b : Word} {i j : BitVec 2} (h : lane a i = lane b j) :
    a.toNat / 4 = b.toNat / 4 ∧ i = j := by
  have hn := congrArg BitVec.toNat h
  rw [lane_toNat, lane_toNat] at hn
  have hi := i.isLt
  have hj := j.isLt
  exact ⟨by omega, BitVec.eq_of_toNat_eq (by omega)⟩

theorem lane_congr {a b : Word} (h : a.toNat / 4 = b.toNat / 4) (i : BitVec 2) :
    lane a i = lane b i :=
  BitVec.eq_of_toNat_eq (by rw [lane_toNat, lane_toNat, h])

section WriteLists
variable {m : Memory} {l : List (Word × Byte)}

/-- A write leaves the addresses it does not name. -/
theorem writeBytes_other {a : Word} (h : ∀ b ∈ l, b.1 ≠ a) : writeBytes m l a = m a := by
  induction l generalizing m with
  | nil => rfl
  | cons x l ih =>
    refine (ih (m := Function.update m x.1 x.2) fun b hb => h b (List.mem_cons_of_mem x hb)).trans ?_
    exact Function.update_of_ne (h x List.mem_cons_self).symm _ _

/-- A write that gives an address one byte only puts it there. -/
theorem writeBytes_mem {b : Word × Byte} (hb : b ∈ l) (h : ∀ x ∈ l, x.1 = b.1 → x.2 = b.2) :
    writeBytes m l b.1 = b.2 := by
  induction l generalizing m with
  | nil => cases hb
  | cons x l ih =>
    by_cases hl : b ∈ l
    · exact ih hl fun y hy => h y (List.mem_cons_of_mem x hy)
    · obtain rfl : b = x := (List.mem_cons.mp hb).resolve_right hl
      have hne : ∀ y ∈ l, y.1 ≠ b.1 := by
        intro y hy heq
        have hv := h y (List.mem_cons_of_mem b hy) heq
        exact hl (Prod.ext heq hv ▸ hy)
      exact (writeBytes_other hne).trans (Function.update_self _ _ _)

end WriteLists

theorem mem_strobedBytes {a wdata : Word} {wstrb : BitVec 4} {b : Word × Byte} :
    b ∈ strobedBytes a wstrb wdata ↔ ∃ i : BitVec 2, wstrb.getLsbD i.toNat = true ∧
      b = (lane a i, byteAt wdata i.toNat) := by
  rw [strobedBytes, List.mem_filterMap]
  constructor
  · rintro ⟨i, hi, hb⟩
    split at hb
    · have hlt : i < 4 := by
        simp only [List.mem_cons, List.not_mem_nil, or_false] at hi
        omega
      have hto : (BitVec.ofNat 2 i).toNat = i := Nat.mod_eq_of_lt hlt
      exact ⟨BitVec.ofNat 2 i, by rwa [hto], by rw [hto]; exact (Option.some.inj hb).symm⟩
    · cases hb
  · rintro ⟨i, hi, rfl⟩
    have hlt := i.isLt
    refine ⟨i.toNat, ?_, ?_⟩
    · simp only [List.mem_cons, List.not_mem_nil, or_false]
      omega
    · rw [if_pos hi, BitVec.ofNat_toNat, BitVec.setWidth_eq]

/-- A strobed write replaces the strobed bytes of its line and no others. -/
theorem writeBytes_strobed (m : Memory) (a b : Word) (wstrb : BitVec 4) (wdata : Word)
    (i : BitVec 2) : writeBytes m (strobedBytes a wstrb wdata) (lane b i) =
      if wstrb.getLsbD i.toNat = true ∧ a.toNat / 4 = b.toNat / 4 then byteAt wdata i.toNat
      else m (lane b i) := by
  by_cases h : wstrb.getLsbD i.toNat = true ∧ a.toNat / 4 = b.toNat / 4
  · rw [if_pos h, ← lane_congr h.2]
    refine writeBytes_mem (b := (lane a i, byteAt wdata i.toNat))
      (mem_strobedBytes.mpr ⟨i, h.1, rfl⟩) ?_
    intro x hx heq
    obtain ⟨j, -, rfl⟩ := mem_strobedBytes.mp hx
    rw [(lane_inj heq).2]
  · rw [if_neg h]
    refine writeBytes_other fun x hx heq => h ?_
    obtain ⟨j, hj, rfl⟩ := mem_strobedBytes.mp hx
    obtain ⟨hline, rfl⟩ := lane_inj heq
    exact ⟨hj, hline⟩

end SeccampRiscvCpu.ByteMemory
