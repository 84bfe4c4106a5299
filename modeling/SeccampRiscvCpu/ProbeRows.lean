import SeccampRiscvCpu.ProbeDecoder

/-!
# The rows of any frame body

`write_signals_as_csv` is given what arrived between two markers, which need not
be whole samples of a probe. Seven bits of each byte count, so the bytes of one
record are the septets of one number, and its fields are the digits of slices of
that number. `get` reads the same slices bit by bit.
-/
namespace SeccampRiscvCpu.ProbeRows
open ByteSlices ProbeStream ProbeDecoder

/-! ## The payload of a record -/

/-- The low seven bits of each byte, the first byte lowest. -/
def payload : (bytes : List U8) → BitVec (7 * bytes.length)
  | [] => 0
  | b :: bytes => (payload bytes ++ b.setWidth 7).cast (by rw [List.length_cons]; omega)

theorem payload_bit {bytes : List U8} {i : ℕ} (hi : i / 7 < bytes.length) :
    (payload bytes).getLsbD i = (bytes.get ⟨i / 7, hi⟩).getLsbD (i % 7) := by
  induction bytes generalizing i with
  | nil => exact absurd hi (Nat.not_lt_zero _)
  | cons b bytes ih =>
    rw [payload, BitVec.getLsbD_cast, BitVec.getLsbD_append]
    rcases Nat.lt_or_ge i 7 with hlow | hhigh
    · have hdiv : i / 7 = 0 := by omega
      have hmod : i % 7 = i := by omega
      simp [hlow, hdiv, hmod]
    · have hdiv : i / 7 = (i - 7) / 7 + 1 := by omega
      have hmod : i % 7 = (i - 7) % 7 := by omega
      have hrest : (i - 7) / 7 < bytes.length := by
        rw [List.length_cons] at hi
        omega
      rw [if_neg (by omega), ih hrest]
      simp [hdiv, hmod]

/-- Bytes without bit 7 are no more than their payload. -/
theorem septets_payload {bytes : List U8} (hb : ∀ b ∈ bytes, b < 0x80) :
    septets (payload bytes) = bytes := by
  have hlength : (septets (payload bytes)).length = bytes.length := by
    rw [septets_length]
    omega
  apply List.ext_getElem hlength
  intro i hi hi'
  have hsmall : (bytes.get ⟨i, hi'⟩).toNat < 2 ^ 7 := hb _ (List.get_mem _ _)
  simp only [septets, List.getElem_map, List.getElem_range]
  apply BitVec.eq_of_getLsbD_eq
  intro k hk
  rw [septet_bit]
  rcases Nat.lt_or_ge k 7 with hlow | hhigh
  · have hdiv : (7 * i + k) / 7 = i := by omega
    have hmod : (7 * i + k) % 7 = k := by omega
    rw [payload_bit (by omega)]
    simp [hdiv, hmod, hlow]
  · have hclear : (bytes.get ⟨i, hi'⟩).getLsbD k = false :=
      Nat.testBit_lt_two_pow (Nat.lt_of_lt_of_le hsmall (Nat.pow_le_pow_right (by decide) hhigh))
    simpa [Nat.not_lt.mpr hhigh] using hclear.symm

theorem and_one_shiftLeft (b : U8) {k : ℕ} (hk : k < 8) :
    (b &&& ((1 : U8) <<< k) != 0) = b.getLsbD k := by
  have hpow : (1 : U8) <<< k = BitVec.twoPow 8 k := (BitVec.twoPow_eq 8 k).symm
  have hne : BitVec.twoPow 8 k ≠ 0 := by
    intro hzero
    have hbit := congrArg (·.getLsbD k) hzero
    simp [hk] at hbit
  rw [hpow, BitVec.and_twoPow]
  cases b.getLsbD k with
  | false => rfl
  | true => exact bne_iff_ne.mpr hne

/-- A bit of a signal, wherever its record has bytes. -/
theorem get_payload {bytes : List U8} {offset width i : ℕ}
    (hi : offset + i < 7 * bytes.length) :
    (⟨bytes, offset, width⟩ : SignalBuffer).get i = some ((payload bytes).getLsbD (offset + i)) := by
  have hbyte : (i + offset) / 7 < bytes.length := by omega
  have hmod : (i + offset) % 7 < 8 := by omega
  rw [payload_bit (by omega)]
  simp only [SignalBuffer.get, List.getElem?_eq_getElem hbyte, Option.bind_eq_bind,
    Option.bind_some, and_one_shiftLeft _ hmod]
  simp [Nat.add_comm i]

/-! ## The number that digits denote -/

/-- The place of a digit among `0` to `9` and `a` to `f`. -/
def hexDigit (c : Char) : Option ℕ := "0123456789abcdef".toList.idxOf? c

/-- Digits denote a number, the first one the highest. -/
def hexNumber (digits : List Char) : Option ℕ :=
  digits.foldlM (fun n c => (hexDigit c).map (16 * n + ·)) 0

theorem hexDigit_digitChar {d : ℕ} (hd : d < 16) : hexDigit d.digitChar = some d := by
  have hall : ∀ d < 16, hexDigit d.digitChar = some d := by decide
  exact hall d hd

/-- The low `k` digits of `n` after a prefix that denotes `m`. -/
theorem foldlM_digits (n k m : ℕ) :
    ((List.range k).reverse.map fun i => (n / 16 ^ i % 16).digitChar).foldlM
      (fun n c => (hexDigit c).map (16 * n + ·)) m = some (16 ^ k * m + n % 16 ^ k) := by
  induction k generalizing m with
  | zero => simp [Nat.mod_one]
  | succ k ih =>
    have hdigit : hexDigit (n / 16 ^ k % 16).digitChar = some (n / 16 ^ k % 16) :=
      hexDigit_digitChar (Nat.mod_lt _ (by decide))
    rw [List.range_succ, List.reverse_append, List.reverse_singleton, List.singleton_append,
      List.map_cons, List.foldlM_cons, hdigit]
    simp only [Option.map_some, Option.bind_eq_bind, Option.bind_some, ih]
    rw [Nat.mod_pow_succ, Nat.mul_add, Nat.pow_succ, Nat.mul_assoc]
    simp only [Option.some.injEq]
    omega

theorem hexNumber_hexText {width : ℕ} (hwidth : 0 < width) (x : BitVec width) :
    hexNumber (hexText x).toList = some x.toNat := by
  rw [hexText, String.toList_ofList, leftpad_toDigits (by omega) (toNat_lt_digits x), hexNumber,
    foldlM_digits, Nat.mod_eq_of_lt (toNat_lt_digits x)]
  simp

/-! ## The rows of a body -/

/-- The bytes of record `r`. -/
def chunk (signals : List Signal) (body : List U8) (r : ℕ) : List U8 :=
  (body.drop (r * totalBytes signals)).take (totalBytes signals)

theorem totalBits_le (signals : List Signal) : totalBits signals ≤ 7 * totalBytes signals := by
  unfold totalBytes
  omega

theorem chunk_length {signals : List Signal} {body : List U8} {r : ℕ}
    (hr : r < body.length / totalBytes signals) :
    (chunk signals body r).length = totalBytes signals := by
  have hend : (r + 1) * totalBytes signals ≤ body.length :=
    Nat.le_trans (Nat.mul_le_mul_right _ hr) (Nat.div_mul_le_self _ _)
  rw [Nat.succ_mul] at hend
  rw [chunk, List.length_take, List.length_drop]
  omega

theorem chunk_mem {signals : List Signal} {body : List U8} {r : ℕ} {b : U8}
    (hb : b ∈ chunk signals body r) : b ∈ body :=
  List.mem_of_mem_drop (List.mem_of_mem_take hb)

/-- Record `r + 1` is record `r` of what is left behind the first one. -/
theorem chunk_succ (signals : List Signal) (body : List U8) (r : ℕ) :
    chunk signals body (r + 1) = chunk signals (body.drop (totalBytes signals)) r := by
  rw [chunk, chunk, List.drop_drop, Nat.succ_mul, Nat.add_comm]

theorem writeFields_payload {signals : List Signal} {bytes : List U8}
    (hb : ∀ b ∈ bytes, b < 0x80) (hbytes : 7 * bytes.length < 2 ^ 64)
    (hfit : totalBits signals ≤ 7 * bytes.length) :
    writeFields bytes signals 0 = some (fields signals (payload bytes)) := by
  have hstart : 0 + totalBits signals ≤ 7 * bytes.length := by rwa [Nat.zero_add]
  have hwrite := writeFields_septets (payload bytes) hbytes hstart
  rw [septets_payload hb] at hwrite
  simp only [Nat.zero_add] at hwrite
  exact hwrite

/-- A row for each record that is there in full. -/
def rows (signals : List Signal) (withIndex : Bool) (body : List U8) (index : ℕ) : List Record :=
  (List.range (body.length / totalBytes signals)).map fun r =>
    (if withIndex then [toString (index + r)] else []) ++
      fields signals (payload (chunk signals body r))

theorem writeRecords_payload {signals : List Signal} (hs : signals ≠ [])
    (htotal : totalBits signals + 6 < 2 ^ 64) (withIndex : Bool) {body : List U8}
    (hb : ∀ b ∈ body, b < 0x80) {index : ℕ} (hindex : index < 2 ^ 31) :
    writeRecords signals withIndex (totalBytes signals) body index =
      if index + body.length / totalBytes signals < 2 ^ 31 then
        some (rows signals withIndex body index)
      else none := by
  have hpos := totalBytes_pos hs
  have hseptets : 7 * totalBytes signals < 2 ^ 64 := by
    unfold totalBytes
    omega
  obtain ⟨count, hcount⟩ : ∃ count, count = body.length / totalBytes signals := ⟨_, rfl⟩
  induction count generalizing body index with
  | zero =>
    have hshort : body.length < totalBytes signals :=
      (Nat.div_eq_zero_iff_lt hpos).mp hcount.symm
    rw [writeRecords_short hshort, rows, ← hcount, Nat.add_zero, if_pos hindex]
    rfl
  | succ count ih =>
    have hle : totalBytes signals ≤ body.length := by
      by_contra hlt
      rw [Nat.div_eq_of_lt (Nat.lt_of_not_le hlt)] at hcount
      exact absurd hcount (Nat.succ_ne_zero count)
    have hfirst : (chunk signals body 0).length = totalBytes signals :=
      chunk_length (hcount ▸ Nat.succ_pos count)
    have hrest : count = (body.drop (totalBytes signals)).length / totalBytes signals := by
      rw [Nat.div_eq_sub_div hpos hle] at hcount
      rw [List.length_drop]
      exact Nat.succ_injective hcount
    have hsplit : body = chunk signals body 0 ++ body.drop (totalBytes signals) := by
      rw [chunk, Nat.zero_mul, List.drop_zero, List.take_append_drop]
    have hfields : writeFields (chunk signals body 0) signals 0 =
        some (fields signals (payload (chunk signals body 0))) :=
      writeFields_payload (fun b hmem => hb b (chunk_mem hmem)) (hfirst ▸ hseptets)
        (hfirst ▸ totalBits_le signals)
    have hnext : ∀ r, fields signals (payload (chunk signals body (r + 1))) =
        fields signals (payload (chunk signals (body.drop (totalBytes signals)) r)) := by
      intro r
      rw [chunk_succ]
    have hsum : index + (count + 1) = index + 1 + count := by omega
    conv_lhs => rw [hsplit]
    rw [writeRecords_append hpos hfirst hfields, ← hcount, hsum]
    by_cases hindex' : index + 1 < 2 ^ 31
    · rw [if_pos hindex', ih (fun b hmem => hb b (List.mem_of_mem_drop hmem)) hindex' hrest,
        ← hrest]
      by_cases hall : index + 1 + count < 2 ^ 31
      · rw [if_pos hall, if_pos hall, rows, rows, ← hrest, ← hcount, List.range_succ_eq_map]
        simp only [Option.map_some, List.map_cons, List.map_map, Function.comp_def, Nat.add_zero,
          Nat.succ_eq_add_one, hnext, Nat.add_assoc, Nat.add_comm 1]
      · rw [if_neg hall, if_neg hall]
        rfl
    · have hall : ¬ index + 1 + count < 2 ^ 31 := by omega
      rw [if_neg hindex', if_neg hall]

/-- All rows are written, or none of the file is complete. -/
theorem writeSignalsAsCsv_payload {signals : List Signal} (hs : signals ≠ []) (withIndex : Bool)
    {body : List U8} (hb : ∀ b ∈ body, b < 0x80) :
    writeSignalsAsCsv signals body withIndex =
      if SumsFit signals (body.length / totalBytes signals) then
        some (((if withIndex then ["index"] else []) ++ signals.map (·.name)) ::
          rows signals withIndex body 0)
      else none := by
  unfold SumsFit
  rw [writeSignalsAsCsv_eq]
  by_cases htotal : totalBits signals + 6 < 2 ^ 64
  · have hrows := writeRecords_payload hs htotal withIndex hb (by decide : 0 < 2 ^ 31)
    rw [Nat.zero_add] at hrows
    rw [hrows]
    simp only [htotal, true_and]
    by_cases hcount : body.length / totalBytes signals < 2 ^ 31
    · rw [if_pos hcount, if_pos hcount]
      rfl
    · rw [if_neg hcount, if_neg hcount]
      rfl
  · simp only [htotal, if_false, false_and]

/-- A field has one hexadecimal digit for four bits of the signal, and denotes the number of
the bits that `get` reads. -/
structure Denotes (buffer : SignalBuffer) (field : String) : Prop where
  length : field.length = (buffer.numberOfBits + 3) / 4
  number : ∃ n < 2 ^ buffer.numberOfBits, hexNumber field.toList = some n ∧
    ∀ i < buffer.numberOfBits, buffer.get i = some (n.testBit i)

theorem hexText_denotes {bytes : List U8} {offset width : ℕ} (hwidth : 0 < width)
    (hfit : offset + width ≤ 7 * bytes.length) :
    Denotes ⟨bytes, offset, width⟩ (hexText ((payload bytes).extractLsb' offset width)) where
  length := hexText_length hwidth _
  number := by
    refine ⟨_, BitVec.isLt _, hexNumber_hexText hwidth _, ?_⟩
    intro i hi
    have hi : i < width := hi
    have hin : offset + i < 7 * bytes.length := by omega
    rw [get_payload hin, BitVec.testBit_toNat, BitVec.getLsbD_extractLsb']
    simp [hi]

theorem totalBits_take {signals : List Signal} {j : ℕ} {signal : Signal}
    (hj : signals[j]? = some signal) :
    totalBits (signals.take j) + signal.width ≤ totalBits signals := by
  induction signals generalizing j with
  | nil => simp at hj
  | cons first signals ih =>
    cases j with
    | zero =>
      have heq : first = signal := by simpa using hj
      rw [totalBits_cons, heq]
      exact Nat.le_add_right_of_le (Nat.le_of_eq (Nat.zero_add _))
    | succ j =>
      have hle := ih (by simpa using hj)
      rw [List.take_succ_cons, totalBits_cons, totalBits_cons]
      omega

theorem fields_denote {signals : List Signal} {bytes : List U8}
    (hfit : totalBits signals ≤ 7 * bytes.length) {j : ℕ} {signal : Signal} {field : String}
    (hsignal : signals[j]? = some signal)
    (hfield : (fields signals (payload bytes))[j]? = some field) :
    Denotes ⟨bytes, totalBits (signals.take j), signal.width⟩ field := by
  have hlast := totalBits_take hsignal
  rw [fields, List.getElem?_mapIdx, hsignal, Option.map_some, Option.some.injEq] at hfield
  rw [← hfield]
  exact hexText_denotes signal.width_pos (by omega)

/-- One row for each whole record, and the digits of each signal in it; what is left over at
the end of the body is not read. -/
def Denoted (signals : List Signal) (body : List U8) (withIndex : Bool) : Prop :=
  ∃ rows, writeSignalsAsCsv signals body withIndex =
      some (((if withIndex then ["index"] else []) ++ signals.map (·.name)) :: rows) ∧
    rows.length = body.length / totalBytes signals ∧
    ∀ r row, rows[r]? = some row →
      ∃ index fields, row = index ++ fields ∧ index.length = withIndex.toNat ∧
        fields.length = signals.length ∧
        ∀ j signal field, signals[j]? = some signal → fields[j]? = some field →
          Denotes ⟨chunk signals body r, totalBits (signals.take j), signal.width⟩ field

/-- **The rows of a body, exactly.** The writer ends, without reading past the body, with a row
for each whole record if and only if the widths with six bits more are within `usize` and the
rows within an `i32`. -/
theorem rows_denote {signals : List Signal} (hs : signals ≠ []) {body : List U8}
    (hb : ∀ b ∈ body, b < 0x80) (withIndex : Bool) :
    Denoted signals body withIndex ↔ SumsFit signals (body.length / totalBytes signals) := by
  constructor
  · intro h
    obtain ⟨rows, hwrite, -⟩ := h
    rw [writeSignalsAsCsv_payload hs withIndex hb] at hwrite
    by_contra hcount
    rw [if_neg hcount] at hwrite
    cases hwrite
  · intro hcount
    refine ⟨rows signals withIndex body 0, ?_, by simp [rows], ?_⟩
    · rw [writeSignalsAsCsv_payload hs withIndex hb, if_pos hcount]
    · intro r row hrow
      rw [rows, List.getElem?_map] at hrow
      obtain ⟨r', hrange, rfl⟩ := Option.map_eq_some_iff.mp hrow
      obtain ⟨hr, rfl⟩ := List.getElem?_eq_some_iff.mp hrange
      rw [List.length_range] at hr
      rw [List.getElem_range]
      refine ⟨_, fields signals (payload (chunk signals body r)), rfl, ?_, ?_, ?_⟩
      · cases withIndex <;> rfl
      · simp [fields]
      · intro j signal field hsignal hfield
        have hfit : totalBits signals ≤ 7 * (chunk signals body r).length :=
          chunk_length hr ▸ totalBits_le signals
        exact fields_denote hfit hsignal hfield

/-- Two records of two bytes and a byte left over. -/
theorem rows_denote_rest :
    Denoted pcFlagData [0x7b, 0x14, 0x13, 0x00, 0x7f] true :=
  (rows_denote (by decide) (by decide) true).mpr (by decide)

/-- The widest signal the command line takes -/
def widest : List Signal := [⟨"data", 2 ^ 64 - 1, by decide, by decide⟩]

/-- Rounded up to bytes its width is out of range. -/
theorem widest_stops :
    writeSignalsAsCsv widest [] false = none ∧ ¬ Denoted widest [] false := by
  have hstops : writeSignalsAsCsv widest [] false = none := by
    rw [writeSignalsAsCsv_eq, if_neg (by decide)]
  refine ⟨hstops, ?_⟩
  rintro ⟨rows, hwrite, -⟩
  rw [hstops] at hwrite
  cases hwrite

end SeccampRiscvCpu.ProbeRows
