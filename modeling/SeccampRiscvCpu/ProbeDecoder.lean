import SeccampRiscvCpu.ProbeStream

/-!
# The host's decoder of probe frames

`probedec`: `FrameCodec` cuts the bytes of the serial port into the bodies of
frames, and `write_signals_as_csv` prints each sample of a body as one record,
with a field of hexadecimal digits for each signal. The framed reader asks the
codec again as long as it finds a frame, and then appends what arrives next.

A record is the list of its fields; quoting and separators are the CSV library's.
A sum that leaves its integer type has no value: `cargo run` checks them.
-/
namespace SeccampRiscvCpu.ProbeDecoder
open ByteSlices ProbeStream

structure Signal where
  name : String
  width : ℕ
  width_pos : 0 < width
  width_lt : width < 2 ^ 64

/-- The sum of two `usize`s -/
def usizeAdd (a b : ℕ) : Option ℕ := if a + b < 2 ^ 64 then some (a + b) else none

/-- The index of the next row, an `i32` -/
def nextIndex (index : ℕ) : Option ℕ := if index + 1 < 2 ^ 31 then some (index + 1) else none

/-- The body of the first frame in `src`, and what is left of `src`. -/
def decode (src : List U8) : Option (Option (List U8) × List U8) :=
  match src.findIdx? (· == 0x80) with
  | none => some (none, src)
  | some sofIndex => match (src.drop sofIndex).findIdx? (· == 0x81) with
    | none => some (none, src)
    | some eofIndexFromSof =>
      let frame := (src.take (sofIndex + eofIndexFromSof + 1)).drop sofIndex
      if frame.head? ≠ some 0x80 ∨ frame.getLast? ≠ some 0x81 then none
      else do
        let body ← slice frame 1 (frame.length - 1)
        return (some body, src.drop (sofIndex + eofIndexFromSof + 1))

theorem decode_shrinks {src rest body : List U8} (h : decode src = some (some body, rest)) :
    rest.length < src.length := by
  unfold decode at h
  split at h
  · simp at h
  · rename_i sofIndex hsof
    split at h
    · simp at h
    · simp only at h
      split_ifs at h
      obtain ⟨_, -, h⟩ := Option.bind_eq_some_iff.mp h
      simp only [Option.pure_def, Option.some.injEq, Prod.mk.injEq] at h
      have hlt := (List.findIdx?_eq_some_iff_getElem.mp hsof).1
      rw [← h.2, List.length_drop]
      omega

/-- All frames in `src`, and the rest that has none. -/
def decodeAll (src : List U8) : Option (List (List U8) × List U8) :=
  match _h : decode src with
  | none => none
  | some (none, rest) => some ([], rest)
  | some (some body, rest) => (decodeAll rest).map fun r => (body :: r.1, r.2)
termination_by src.length
decreasing_by exact decode_shrinks ‹_›

/-- The framed reader over the chunks that arrive. -/
def framed (src : List U8) : List (List U8) → Option (List (List U8) × List U8)
  | [] => some ([], src)
  | chunk :: chunks => do
    let (bodies, src) ← decodeAll (src ++ chunk)
    let (later, src) ← framed src chunks
    return (bodies ++ later, src)

structure SignalBuffer where
  bits : List U8
  offset : ℕ
  numberOfBits : ℕ
deriving DecidableEq, Repr

namespace SignalBuffer

def get (s : SignalBuffer) (index : ℕ) : Option Bool := do
  let byteIndex := (index + s.offset) / 7
  let bitIndex := (index + s.offset) % 7
  return (← s.bits[byteIndex]?) &&& ((1 : U8) <<< bitIndex) != 0

def getNibble (s : SignalBuffer) (lowerBit : ℕ) : Option U8 := do
  let lowerBit := lowerBit + s.offset
  let upperBit := min (← checkedSub (s.numberOfBits + s.offset) 1) (lowerBit + 3)
  let bitCount := (← checkedSub upperBit lowerBit) + 1
  let bitMask : U8 := (1 <<< bitCount) - 1
  let firstByteIndex := lowerBit / 7
  let secondByteIndex := upperBit / 7
  if firstByteIndex = secondByteIndex then
    let bitOffset := lowerBit % 7
    return ((← s.bits[firstByteIndex]?) >>> bitOffset) &&& bitMask
  else
    let firstByte ← s.bits[firstByteIndex]?
    let secondByte ← s.bits[secondByteIndex]?
    let firstBitOffset := lowerBit % 7
    let secondBitOffset := 7 - firstBitOffset
    return (firstByte >>> firstBitOffset ||| secondByte <<< secondBitOffset) &&& bitMask

/-- The digits of the nibbles from the highest down. -/
def lowerHex (s : SignalBuffer) : Option String := do
  let numberOfNibbles := (s.numberOfBits + 3) / 4
  let digits ← (List.range numberOfNibbles).reverse.mapM fun nibbleIndex => do
    return Nat.toDigits 16 (← s.getNibble (nibbleIndex * 4)).toNat
  return String.ofList digits.flatten

end SignalBuffer

abbrev Record := List String

/-- The sum of the widths, however large -/
def totalBits (signals : List Signal) : ℕ := (signals.map (·.width)).sum

/-- The fields of one sample, from a bit offset on. -/
def writeFields (bytes : List U8) : List Signal → ℕ → Option Record
  | [], _ => some []
  | signal :: signals, bitOffset => do
    let field ← (⟨bytes, bitOffset, signal.width⟩ : SignalBuffer).lowerHex
    let fields ← writeFields bytes signals (← usizeAdd bitOffset signal.width)
    return field :: fields

/-- The loop over the samples; without a byte to a sample it does not end. -/
def writeRecords (signals : List Signal) (withIndex : Bool) (totalBytes : ℕ) (head : List U8)
    (index : ℕ) : Option (List Record) :=
  if totalBytes = 0 then none
  else if totalBytes ≤ head.length then do
    let bytes ← slice head 0 totalBytes
    let fields ← writeFields bytes signals 0
    let index' ← nextIndex index
    let records ← writeRecords signals withIndex totalBytes (head.drop totalBytes) index'
    return ((if withIndex then [toString index] else []) ++ fields) :: records
  else some []
termination_by head.length
decreasing_by
  rw [List.length_drop]
  omega

def writeSignalsAsCsv (signals : List Signal) (body : List U8) (withIndex : Bool) :
    Option (List Record) := do
  let totalBits ← (signals.map (·.width)).foldlM usizeAdd 0
  let totalBytes := (← usizeAdd totalBits 6) / 7
  let header := (if withIndex then ["index"] else []) ++ signals.map (·.name)
  let records ← writeRecords signals withIndex totalBytes body 0
  return header :: records

/-! ## Frames on the wire -/

/-- A body between its markers. -/
def framing (body : List U8) : List U8 := startOfFrame :: body ++ [endOfFrame]

theorem findIdx?_absent {marker : U8} {bytes : List U8} (h : marker ∉ bytes) :
    bytes.findIdx? (· == marker) = none := by
  rw [List.findIdx?_eq_none_iff]
  intro b hb
  have hne : b ≠ marker := fun he => h (he ▸ hb)
  exact beq_false_of_ne hne

theorem findIdx?_first {marker : U8} {front : List U8} (h : marker ∉ front) (rest : List U8) :
    (front ++ marker :: rest).findIdx? (· == marker) = some front.length := by
  have hhead : (marker :: rest).findIdx? (· == marker) = some 0 := by
    simp [List.findIdx?_cons]
  rw [List.findIdx?_append, findIdx?_absent h, Option.none_or, hhead]
  simp

/-- The bytes before the first start marker are dropped with the frame. -/
theorem decode_noise {noise body : List U8} (hn : startOfFrame ∉ noise) (hb : endOfFrame ∉ body)
    (rest : List U8) : decode (noise ++ (framing body ++ rest)) = some (some body, rest) := by
  have hsplit : framing body ++ rest = (startOfFrame :: body) ++ endOfFrame :: rest := by
    simp [framing]
  have hsof : (noise ++ (framing body ++ rest)).findIdx? (· == 0x80) = some noise.length :=
    findIdx?_first hn _
  have hfront : endOfFrame ∉ startOfFrame :: body := by
    simpa [startOfFrame, endOfFrame] using hb
  have heof : (framing body ++ rest).findIdx? (· == 0x81) = some (body.length + 1) := by
    rw [hsplit]
    exact findIdx?_first hfront rest
  have hlength : noise.length + (body.length + 1) + 1 = (noise ++ framing body).length := by
    simp [framing]
    omega
  have hframe : ((noise ++ (framing body ++ rest)).take
      (noise.length + (body.length + 1) + 1)).drop noise.length = framing body := by
    rw [hlength, ← List.append_assoc, List.take_left' rfl, List.drop_left' rfl]
  have hrest : (noise ++ (framing body ++ rest)).drop (noise.length + (body.length + 1) + 1) =
      rest := by
    rw [hlength, ← List.append_assoc, List.drop_left' rfl]
  have hbody : slice (framing body) 1 ((framing body).length - 1) = some body :=
    slice_middle [startOfFrame] body [endOfFrame] rfl (by simp [framing]; omega)
  have hmarkers : ¬ ((framing body).head? ≠ some 0x80 ∨ (framing body).getLast? ≠ some 0x81) := by
    have hlast : (framing body).getLast? = some 0x81 := by
      rw [framing, List.getLast?_concat]
      rfl
    rw [hlast]
    simp [framing, startOfFrame]
  unfold decode
  rw [hsof]
  simp only [List.drop_left, heof, hframe, hrest, if_neg hmarkers, hbody, Option.bind_eq_bind,
    Option.bind_some]
  rfl

theorem decode_framing {body : List U8} (hb : endOfFrame ∉ body) (rest : List U8) :
    decode (framing body ++ rest) = some (some body, rest) :=
  decode_noise List.not_mem_nil hb rest

/-- Without a start marker there is no frame. -/
theorem decode_outside {src : List U8} (hs : startOfFrame ∉ src) :
    decode src = some (none, src) := by
  have hsof : src.findIdx? (· == 0x80) = none := findIdx?_absent hs
  unfold decode
  rw [hsof]

/-- Without an end marker behind the first start marker there is none either. -/
theorem decode_inside {noise body : List U8} (hn : startOfFrame ∉ noise)
    (hb : endOfFrame ∉ body) :
    decode (noise ++ startOfFrame :: body) = some (none, noise ++ startOfFrame :: body) := by
  have hsof : (noise ++ startOfFrame :: body).findIdx? (· == 0x80) = some noise.length :=
    findIdx?_first hn body
  have hfront : endOfFrame ∉ startOfFrame :: body := by
    simpa [startOfFrame, endOfFrame] using hb
  have heof : (startOfFrame :: body).findIdx? (· == 0x81) = none := findIdx?_absent hfront
  unfold decode
  rw [hsof]
  simp only [List.drop_left, heof]

theorem decode_part {src : List U8} (hs : endOfFrame ∉ src) : decode src = some (none, src) := by
  by_cases hsof : startOfFrame ∈ src
  · obtain ⟨noise, body, rfl, hn⟩ := List.eq_append_cons_of_mem hsof
    exact decode_inside hn fun hmem => hs (by simp [hmem])
  · exact decode_outside hsof

theorem decodeAll_some {src body rest : List U8} (h : decode src = some (some body, rest)) :
    decodeAll src = (decodeAll rest).map fun r => (body :: r.1, r.2) := by
  conv_lhs => unfold decodeAll
  split <;> simp_all

theorem decodeAll_none {src : List U8} (h : decode src = some (none, src)) :
    decodeAll src = some ([], src) := by
  unfold decodeAll
  split <;> simp_all

theorem decodeAll_framing {body : List U8} (hb : endOfFrame ∉ body) (rest : List U8) :
    decodeAll (framing body ++ rest) = (decodeAll rest).map fun r => (body :: r.1, r.2) :=
  decodeAll_some (decode_framing hb rest)

theorem decodeAll_part {src : List U8} (hs : endOfFrame ∉ src) :
    decodeAll src = some ([], src) :=
  decodeAll_none (decode_part hs)

/-- Of framed bodies that have arrived in part, the complete ones are found. -/
theorem decodeAll_stream {bodies : List (List U8)} (hb : ∀ b ∈ bodies, endOfFrame ∉ b)
    {src rest : List U8} (h : src ++ rest = bodies.flatMap framing) :
    ∃ k src', decodeAll src = some (bodies.take k, src') ∧ endOfFrame ∉ src' ∧
      src' ++ rest = (bodies.drop k).flatMap framing := by
  induction bodies generalizing src with
  | nil =>
    obtain ⟨rfl, rfl⟩ := List.append_eq_nil_iff.mp h
    exact ⟨0, [], decodeAll_part List.not_mem_nil, List.not_mem_nil, rfl⟩
  | cons body bodies ih =>
    have hbody := hb body List.mem_cons_self
    rw [List.flatMap_cons] at h
    rcases Nat.lt_or_ge src.length (framing body).length with hshort | hlong
    · -- the end marker has not arrived
      have hall : src <+: (startOfFrame :: body) ++ (endOfFrame :: bodies.flatMap framing) :=
        ⟨rest, by simp [h, framing]⟩
      have hlength : src.length ≤ (startOfFrame :: body).length := by
        simp [framing] at hshort ⊢
        omega
      have hpart : src <+: startOfFrame :: body :=
        List.prefix_of_prefix_length_le hall (List.prefix_append _ _) hlength
      have hnone : endOfFrame ∉ src := by
        intro hmem
        have hin := hpart.subset hmem
        simp [startOfFrame, endOfFrame] at hin
        exact hbody hin
      exact ⟨0, src, decodeAll_part hnone, hnone, h⟩
    · obtain ⟨src', rfl⟩ : framing body <+: src :=
        List.prefix_of_prefix_length_le ⟨_, rfl⟩ ⟨rest, h⟩ hlong
      rw [List.append_assoc, List.append_cancel_left_eq] at h
      obtain ⟨k, src'', hall, hnone, hsplit⟩ :=
        ih (fun b hmem => hb b (List.mem_cons_of_mem _ hmem)) h
      refine ⟨k + 1, src'', ?_, hnone, hsplit⟩
      rw [decodeAll_framing hbody, hall]
      rfl

/-- The chunks in which the bytes arrive make no difference. -/
theorem framed_stream {bodies : List (List U8)} (hb : ∀ b ∈ bodies, endOfFrame ∉ b)
    {src rest : List U8} {chunks : List (List U8)} (hs : endOfFrame ∉ src)
    (h : src ++ chunks.flatten ++ rest = bodies.flatMap framing) :
    ∃ k src', framed src chunks = some (bodies.take k, src') ∧ endOfFrame ∉ src' ∧
      src' ++ rest = (bodies.drop k).flatMap framing := by
  induction chunks generalizing src bodies with
  | nil =>
    rw [List.flatten_nil, List.append_nil] at h
    exact ⟨0, src, rfl, hs, h⟩
  | cons chunk chunks ih =>
    rw [List.flatten_cons, ← List.append_assoc, List.append_assoc] at h
    obtain ⟨k, src', hall, hnone, hsplit⟩ := decodeAll_stream hb h
    rw [← List.append_assoc] at hsplit
    obtain ⟨k', src'', hlater, hnone', hsplit'⟩ :=
      ih (fun b hmem => hb b (List.mem_of_mem_drop hmem)) hnone hsplit
    refine ⟨k + k', src'', ?_, hnone', ?_⟩
    · simp only [framed, hall, hlater, Option.bind_eq_bind, Option.bind_some, List.take_add]
      rfl
    · rw [hsplit', List.drop_drop]

/-! ## The digits of a signal -/

/-- The lower-case hexadecimal text of a value, with all of its digits. -/
def hexText {width : ℕ} (x : BitVec width) : String :=
  String.ofList ((Nat.toDigits 16 x.toNat).leftpad ((width + 3) / 4) '0')

theorem leftpad_toDigits {k : ℕ} (hk : 0 < k) {n : ℕ} (hn : n < 16 ^ k) :
    (Nat.toDigits 16 n).leftpad k '0' =
      (List.range k).reverse.map fun i => (n / 16 ^ i % 16).digitChar := by
  induction k, hk using Nat.le_induction generalizing n with
  | base =>
    have hlt : n < 16 := by simpa using hn
    rw [Nat.toDigits_of_lt_base hlt]
    simp [List.leftpad, Nat.mod_eq_of_lt hlt]
  | succ k hk ih =>
    have hquot : n / 16 < 16 ^ k := by
      rw [Nat.pow_succ] at hn
      exact Nat.div_lt_of_lt_mul (by omega)
    have hlow : (Nat.toDigits 16 n).leftpad (k + 1) '0' =
        (Nat.toDigits 16 (n / 16)).leftpad k '0' ++ [(n % 16).digitChar] := by
      rcases Nat.lt_or_ge n 16 with hlt | hge
      · obtain ⟨j, rfl⟩ : ∃ j, k = j + 1 := ⟨k - 1, by omega⟩
        rw [Nat.toDigits_of_lt_base hlt, Nat.div_eq_of_lt hlt, Nat.toDigits_zero,
          Nat.mod_eq_of_lt hlt]
        simp [List.leftpad, List.replicate_succ']
      · rw [Nat.toDigits_of_base_le (by decide) hge]
        simp [List.leftpad]
    rw [hlow, ih hquot, List.range_succ_eq_map]
    simp [Function.comp_def, Nat.pow_succ', Nat.div_div_eq_div_mul]

theorem toNat_lt_digits {width : ℕ} (x : BitVec width) : x.toNat < 16 ^ ((width + 3) / 4) := by
  have hpow : 2 ^ (4 * ((width + 3) / 4)) = 16 ^ ((width + 3) / 4) := Nat.pow_mul 2 4 _
  have hle : 2 ^ width ≤ 2 ^ (4 * ((width + 3) / 4)) :=
    Nat.pow_le_pow_right (by decide) (by omega)
  have hlt := x.isLt
  omega

theorem hexText_length {width : ℕ} (hwidth : 0 < width) (x : BitVec width) :
    (hexText x).length = (width + 3) / 4 := by
  rw [hexText, leftpad_toDigits (by omega) (toNat_lt_digits x)]
  simp

theorem septet_bit {W : ℕ} (x : BitVec W) (i k : ℕ) :
    ((x.extractLsb' (7 * i) 7).setWidth 8).getLsbD k =
      (decide (k < 7) && x.getLsbD (7 * i + k)) := by
  simp
  grind

theorem mask_bit {c : ℕ} (hc : c ≤ 4) (k : ℕ) :
    ((1 <<< c) - 1 : U8).getLsbD k = decide (k < c) := by
  rcases Nat.lt_or_ge k 8 with hk | hk
  · have hbits : ∀ c < 5, ∀ k < 8, ((1 <<< c) - 1 : U8).getLsbD k = decide (k < c) := by decide
    exact hbits c (by omega) k hk
  · rw [BitVec.getLsbD_of_ge _ _ hk]
    exact (decide_eq_false (by omega)).symm

theorem septets_getElem? {W : ℕ} (x : BitVec W) {i : ℕ} (hi : 7 * i < W) :
    (septets x)[i]? = some ((x.extractLsb' (7 * i) 7).setWidth 8) := by
  have hlt : i < numberOfPhases W := by
    unfold numberOfPhases
    omega
  simp [septets, hlt]

/-- Four bits of a signal, also where they lie in two septets. -/
theorem getNibble_septets {W : ℕ} (x : BitVec W) {offset width i : ℕ} (hfit : offset + width ≤ W)
    (hi : 4 * i < width) :
    (⟨septets x, offset, width⟩ : SignalBuffer).getNibble (i * 4) =
      some (((x.extractLsb' offset width).extractLsb' (4 * i) 4).setWidth 8) := by
  obtain ⟨lower, hlower⟩ : ∃ lower, lower = i * 4 + offset := ⟨_, rfl⟩
  obtain ⟨upper, hupper⟩ : ∃ upper, upper = min (width + offset - 1) (lower + 3) := ⟨_, rfl⟩
  have hnibble : ∀ k, (((x.extractLsb' offset width).extractLsb' (4 * i) 4).setWidth 8).getLsbD k =
      (decide (k < upper - lower + 1) && x.getLsbD (lower + k)) := by
    intro k
    simp
    grind
  have hlast : checkedSub (width + offset) 1 = some (width + offset - 1) :=
    checkedSub_eq (by omega)
  have hcount : checkedSub upper lower = some (upper - lower) := checkedSub_eq (by omega)
  simp only [SignalBuffer.getNibble, hlast, Option.bind_eq_bind, Option.bind_some, ← hlower,
    ← hupper, hcount]
  split_ifs with hsame
  · rw [septets_getElem? x (by omega)]
    simp only [Option.bind_some, Option.pure_def, Option.some.injEq]
    apply BitVec.eq_of_getLsbD_eq
    intro k hk
    rw [hnibble, BitVec.getLsbD_and, mask_bit (by omega), BitVec.getLsbD_ushiftRight, septet_bit]
    grind
  · rw [septets_getElem? x (by omega), septets_getElem? x (by omega)]
    simp only [Option.bind_some, Option.pure_def, Option.some.injEq]
    apply BitVec.eq_of_getLsbD_eq
    intro k hk
    rw [hnibble, BitVec.getLsbD_and, mask_bit (by omega), BitVec.getLsbD_or,
      BitVec.getLsbD_ushiftRight, BitVec.getLsbD_shiftLeft, septet_bit, septet_bit]
    grind

theorem mapM_some {α β : Type*} {f : α → Option β} {g : α → β} {xs : List α}
    (h : ∀ x ∈ xs, f x = some (g x)) : xs.mapM f = some (xs.map g) := by
  induction xs with
  | nil => rfl
  | cons x xs ih =>
    rw [List.mapM_cons, h x List.mem_cons_self,
      ih fun y hy => h y (List.mem_cons_of_mem x hy)]
    rfl

theorem lowerHex_septets {W : ℕ} (x : BitVec W) {offset width : ℕ} (hwidth : 0 < width)
    (hfit : offset + width ≤ W) :
    (⟨septets x, offset, width⟩ : SignalBuffer).lowerHex =
      some (hexText (x.extractLsb' offset width)) := by
  let y := x.extractLsb' offset width
  have hdigit : ∀ i ∈ (List.range ((width + 3) / 4)).reverse,
      ((⟨septets x, offset, width⟩ : SignalBuffer).getNibble (i * 4)).bind
          (fun nibble => some (Nat.toDigits 16 nibble.toNat)) =
        some [(y.toNat / 16 ^ i % 16).digitChar] := by
    intro i hi
    have hlt := List.mem_range.mp (List.mem_reverse.mp hi)
    have hvalue : ((y.extractLsb' (4 * i) 4).setWidth 8).toNat = y.toNat / 16 ^ i % 16 := by
      have hpow : 2 ^ (4 * i) = 16 ^ i := Nat.pow_mul 2 4 i
      have hmod : y.toNat / 16 ^ i % 16 < 256 := by omega
      simp [Nat.shiftRight_eq_div_pow, hpow, Nat.mod_eq_of_lt hmod]
    rw [getNibble_septets x hfit (by omega), Option.bind_some, hvalue,
      Nat.toDigits_of_lt_base (Nat.mod_lt _ (by decide))]
  have hdigits : (List.range ((width + 3) / 4)).reverse.mapM (fun i =>
      ((⟨septets x, offset, width⟩ : SignalBuffer).getNibble (i * 4)).bind
        fun nibble => some (Nat.toDigits 16 nibble.toNat)) =
      some ((List.range ((width + 3) / 4)).reverse.map fun i =>
        [(y.toNat / 16 ^ i % 16).digitChar]) := mapM_some hdigit
  simp only [SignalBuffer.lowerHex, Option.bind_eq_bind, Option.pure_def, hdigits,
    Option.bind_some, hexText]
  rw [leftpad_toDigits (by omega) (toNat_lt_digits y), ← List.flatMap_def, ← List.map_eq_flatMap]

/-! ## The rows -/

/-- One field for each signal, the first one in the low bits. -/
def fields {W : ℕ} (signals : List Signal) (x : BitVec W) : Record :=
  signals.mapIdx fun j signal =>
    hexText (x.extractLsb' (totalBits (signals.take j)) signal.width)

theorem fields_length {W : ℕ} (signals : List Signal) (x : BitVec W) :
    (fields signals x).map (·.length) = signals.map fun signal => (signal.width + 3) / 4 := by
  apply List.ext_getElem
  · simp [fields]
  · intro j hj hj'
    simp only [fields, List.getElem_map, List.getElem_mapIdx]
    exact hexText_length (signals.get ⟨j, by simpa using hj'⟩).width_pos _

/-- A header and one row for each sample of a frame. -/
def records {W : ℕ} (signals : List Signal) (withIndex : Bool) (frame : List (BitVec W)) :
    List Record :=
  ((if withIndex then ["index"] else []) ++ signals.map (·.name)) ::
    frame.mapIdx fun index x => (if withIndex then [toString index] else []) ++ fields signals x

@[simp] theorem totalBits_cons (signal : Signal) (signals : List Signal) :
    totalBits (signal :: signals) = signal.width + totalBits signals := by
  simp [totalBits]

theorem usizeAdd_eq {a b : ℕ} (h : a + b < 2 ^ 64) : usizeAdd a b = some (a + b) := if_pos h

theorem foldlM_usizeAdd (widths : List ℕ) {a : ℕ} (ha : a < 2 ^ 64) :
    widths.foldlM usizeAdd a = if a + widths.sum < 2 ^ 64 then some (a + widths.sum) else none := by
  induction widths generalizing a with
  | nil =>
    rw [List.sum_nil, Nat.add_zero, if_pos ha]
    rfl
  | cons width widths ih =>
    rw [List.foldlM_cons, List.sum_cons, ← Nat.add_assoc, usizeAdd]
    by_cases hfirst : a + width < 2 ^ 64
    · rw [if_pos hfirst]
      exact ih hfirst
    · have hall : ¬ a + width + widths.sum < 2 ^ 64 := by omega
      rw [if_neg hfirst, if_neg hall]
      rfl

/-- The bytes of a record: seven bits to a byte. -/
def totalBytes (signals : List Signal) : ℕ := (totalBits signals + 6) / 7

/-- Before the first record the widths are summed up. -/
theorem writeSignalsAsCsv_eq (signals : List Signal) (body : List U8) (withIndex : Bool) :
    writeSignalsAsCsv signals body withIndex =
      if totalBits signals + 6 < 2 ^ 64 then
        (writeRecords signals withIndex (totalBytes signals) body 0).map
          (((if withIndex then ["index"] else []) ++ signals.map (·.name)) :: ·)
      else none := by
  have hsum : (signals.map (·.width)).foldlM usizeAdd 0 =
      if totalBits signals < 2 ^ 64 then some (totalBits signals) else none := by
    rw [foldlM_usizeAdd _ (by decide), Nat.zero_add]
    rfl
  unfold writeSignalsAsCsv
  rw [hsum]
  by_cases htotal : totalBits signals < 2 ^ 64
  · by_cases hbytes : totalBits signals + 6 < 2 ^ 64
    · simp only [if_pos htotal, if_pos hbytes, usizeAdd_eq hbytes, Option.bind_eq_bind,
        Option.bind_some, totalBytes]
      cases writeRecords signals withIndex ((totalBits signals + 6) / 7) body 0 <;> rfl
    · simp only [if_pos htotal, if_neg hbytes, usizeAdd, Option.bind_eq_bind, Option.bind_some,
        Option.bind_none]
  · have hbytes : ¬ totalBits signals + 6 < 2 ^ 64 := by omega
    rw [if_neg htotal, if_neg hbytes]
    rfl

theorem writeFields_septets {W : ℕ} (x : BitVec W) (hW : W < 2 ^ 64) {signals : List Signal}
    {bitOffset : ℕ} (hfit : bitOffset + totalBits signals ≤ W) :
    writeFields (septets x) signals bitOffset = some (signals.mapIdx fun j signal =>
      hexText (x.extractLsb' (bitOffset + totalBits (signals.take j)) signal.width)) := by
  induction signals generalizing bitOffset with
  | nil => rfl
  | cons signal signals ih =>
    rw [totalBits_cons] at hfit
    have hrest : bitOffset + signal.width + totalBits signals ≤ W := by omega
    have hfirst : bitOffset + signal.width ≤ W := by omega
    have hnext := usizeAdd_eq (Nat.lt_of_le_of_lt hfirst hW)
    simp only [writeFields, lowerHex_septets x signal.width_pos hfirst, hnext, ih hrest,
      Option.bind_eq_bind, Option.bind_some, Option.pure_def, List.mapIdx_cons,
      List.take_zero, List.take_succ_cons, totalBits_cons, Nat.add_assoc]
    rfl

theorem septets_length {W : ℕ} (x : BitVec W) : (septets x).length = (W + 6) / 7 := by
  simp [septets, numberOfPhases]

theorem totalBits_pos {signals : List Signal} (hs : signals ≠ []) : 0 < totalBits signals := by
  cases signals with
  | nil => exact absurd rfl hs
  | cons signal signals =>
    rw [totalBits_cons]
    exact Nat.add_pos_left signal.width_pos _

/-- What is shorter than a sample has no row. -/
theorem writeRecords_short {totalBytes : ℕ} {head : List U8} (hlt : head.length < totalBytes)
    (signals : List Signal) (withIndex : Bool) (index : ℕ) :
    writeRecords signals withIndex totalBytes head index = some [] := by
  unfold writeRecords
  rw [if_neg (by omega), if_neg (by omega)]

/-- One round of the loop takes one sample off the front, and counts it. -/
theorem writeRecords_append {signals : List Signal} {totalBytes : ℕ} {bytes : List U8}
    {row : Record} (hpos : 0 < totalBytes) (hlength : bytes.length = totalBytes)
    (hfields : writeFields bytes signals 0 = some row) (withIndex : Bool) (head : List U8)
    (index : ℕ) :
    writeRecords signals withIndex totalBytes (bytes ++ head) index =
      if index + 1 < 2 ^ 31 then
        (writeRecords signals withIndex totalBytes head (index + 1)).map
          (((if withIndex then [toString index] else []) ++ row) :: ·)
      else none := by
  have hslice : slice (bytes ++ head) 0 totalBytes = some bytes := by
    rw [← hlength, slice_append_left]
  have hdrop : (bytes ++ head).drop totalBytes = head := List.drop_left' hlength
  conv_lhs => unfold writeRecords
  rw [if_neg (by omega), if_pos (by simp [hlength])]
  simp only [hslice, hdrop, hfields, Option.bind_eq_bind, Option.bind_some, Option.pure_def,
    nextIndex]
  by_cases hnext : index + 1 < 2 ^ 31
  · rw [if_pos hnext, if_pos hnext, Option.bind_some]
    cases writeRecords signals withIndex totalBytes head (index + 1) <;> rfl
  · rw [if_neg hnext, if_neg hnext]
    rfl

theorem totalBytes_pos {signals : List Signal} (hs : signals ≠ []) : 0 < totalBytes signals := by
  have hpos := totalBits_pos hs
  unfold totalBytes
  omega

theorem writeRecords_septets {signals : List Signal} (hs : signals ≠ [])
    (htotal : totalBits signals < 2 ^ 64) (withIndex : Bool)
    (frame : List (BitVec (totalBits signals))) {index : ℕ} (hindex : index < 2 ^ 31) :
    writeRecords signals withIndex (totalBytes signals) (frame.flatMap septets) index =
      if index + frame.length < 2 ^ 31 then
        some (frame.mapIdx fun i x =>
          (if withIndex then [toString (index + i)] else []) ++ fields signals x)
      else none := by
  have hbytes := totalBytes_pos hs
  induction frame generalizing index with
  | nil =>
    rw [List.length_nil, Nat.add_zero, if_pos hindex]
    exact writeRecords_short hbytes signals withIndex index
  | cons x frame ih =>
    have hfields : writeFields (septets x) signals 0 = some (fields signals x) := by
      rw [writeFields_septets x htotal (Nat.le_of_eq (Nat.zero_add _))]
      simp only [Nat.zero_add]
      rfl
    have hcount : index + (x :: frame).length = index + 1 + frame.length := by
      rw [List.length_cons]
      omega
    rw [List.flatMap_cons, writeRecords_append hbytes (septets_length x) hfields, hcount]
    by_cases hnext : index + 1 < 2 ^ 31
    · rw [if_pos hnext, ih hnext]
      by_cases hall : index + 1 + frame.length < 2 ^ 31
      · rw [if_pos hall, if_pos hall]
        simp only [Option.map_some, List.mapIdx_cons, Nat.add_zero, Nat.add_assoc, Nat.add_comm 1]
      · rw [if_neg hall, if_neg hall]
        rfl
    · have hall : ¬ index + 1 + frame.length < 2 ^ 31 := by omega
      rw [if_neg hnext, if_neg hall]

/-- The sums that are made for this many rows stay within their types. -/
def SumsFit (signals : List Signal) (rowCount : ℕ) : Prop :=
  totalBits signals + 6 < 2 ^ 64 ∧ rowCount < 2 ^ 31

instance (signals : List Signal) (rowCount : ℕ) : Decidable (SumsFit signals rowCount) :=
  inferInstanceAs (Decidable (_ ∧ _))

theorem writeSignalsAsCsv_septets {signals : List Signal} (hs : signals ≠ []) (withIndex : Bool)
    (frame : List (BitVec (totalBits signals))) :
    writeSignalsAsCsv signals (frame.flatMap septets) withIndex =
      if SumsFit signals frame.length then some (records signals withIndex frame) else none := by
  unfold SumsFit
  rw [writeSignalsAsCsv_eq]
  by_cases htotal : totalBits signals + 6 < 2 ^ 64
  · have hrows := writeRecords_septets hs (by omega) withIndex frame (by decide : 0 < 2 ^ 31)
    simp only [Nat.zero_add] at hrows
    rw [if_pos htotal, hrows]
    simp only [htotal, true_and]
    by_cases hcount : frame.length < 2 ^ 31
    · rw [if_pos hcount, if_pos hcount]
      rfl
    · rw [if_neg hcount, if_neg hcount]
      rfl
  · simp only [htotal, if_false, false_and]

/-! ## From the probe to the rows -/

/-- What the host writes for the chunks that arrive, frame by frame. -/
def hostRecords (signals : List Signal) (withIndex : Bool) (chunks : List (List U8)) :
    Option (List (List Record)) := do
  let (bodies, _) ← framed [] chunks
  bodies.mapM fun body => writeSignalsAsCsv signals body withIndex

/-- No septet looks like a marker. -/
theorem endOfFrame_notMem_septets {W : ℕ} (frame : List (BitVec W)) :
    endOfFrame ∉ frame.flatMap septets := by
  intro hmem
  obtain ⟨x, -, hx⟩ := List.mem_flatMap.mp hmem
  obtain ⟨i, -, hi⟩ := List.mem_map.mp hx
  have hbit := congrArg (·.getLsbD 7) hi
  simp [endOfFrame] at hbit

theorem encodeFrames {W : ℕ} (frames : List (List (BitVec W))) :
    frames.flatMap encodeFrame =
      (frames.map fun frame => frame.flatMap septets).flatMap framing := by
  rw [List.flatMap_map]
  rfl

/-- Of frames that have arrived in part, the host writes the complete ones. -/
theorem hostRecords_stream {signals : List Signal} (withIndex : Bool)
    {frames : List (List (BitVec (totalBits signals)))} {chunks : List (List U8)} {rest : List U8}
    (h : chunks.flatten ++ rest = frames.flatMap encodeFrame) :
    ∃ k, hostRecords signals withIndex chunks = (frames.take k).mapM (fun frame =>
        writeSignalsAsCsv signals (frame.flatMap septets) withIndex) ∧
      (rest = [] → frames.length ≤ k) := by
  have hbodies : ∀ b ∈ frames.map fun frame => frame.flatMap septets, endOfFrame ∉ b := by
    intro b hb
    obtain ⟨frame, -, rfl⟩ := List.mem_map.mp hb
    exact endOfFrame_notMem_septets frame
  rw [encodeFrames] at h
  obtain ⟨k, src, hframed, hnone, hsplit⟩ := framed_stream hbodies List.not_mem_nil h
  refine ⟨k, ?_, ?_⟩
  · simp only [hostRecords, hframed, Option.bind_eq_bind, Option.bind_some, ← List.map_take,
      List.mapM_map, Function.comp_def]
  · -- a further frame would bring its end marker
    intro hrest
    rw [hrest, List.append_nil] at hsplit
    by_contra hlt
    have hcons : (frames.map fun frame => frame.flatMap septets).drop k ≠ [] := by
      simp only [ne_eq, List.drop_eq_nil_iff, List.length_map]
      omega
    obtain ⟨body, bodies, hdrop⟩ := List.exists_cons_of_ne_nil hcons
    rw [hdrop] at hsplit
    apply hnone
    rw [hsplit]
    simp [framing]

/-- Each of the frames gets its rows. -/
theorem mapM_records {signals : List Signal} (hs : signals ≠ []) (withIndex : Bool)
    {frames : List (List (BitVec (totalBits signals)))}
    (hcount : ∀ f ∈ frames, SumsFit signals f.length) :
    frames.mapM (fun frame => writeSignalsAsCsv signals (frame.flatMap septets) withIndex) =
      some (frames.map (records signals withIndex)) := by
  refine mapM_some fun frame hframe => ?_
  rw [writeSignalsAsCsv_septets hs, if_pos (hcount frame hframe)]

theorem mapM_isSome {α β : Type*} {f : α → Option β} {xs : List α} {ys : List β}
    (h : xs.mapM f = some ys) : ∀ x ∈ xs, (f x).isSome := by
  induction xs generalizing ys with
  | nil => exact fun x hx => absurd hx List.not_mem_nil
  | cons first xs ih =>
    rw [List.mapM_cons] at h
    obtain ⟨y, hy, h⟩ := Option.bind_eq_some_iff.mp h
    obtain ⟨ys', hys, -⟩ := Option.bind_eq_some_iff.mp h
    intro x hx
    rcases List.mem_cons.mp hx with rfl | hx
    · rw [hy]
      rfl
    · exact ih hys x hx

/-- In whatever chunks the bytes arrive, the host writes the rows of the frames that are
complete, in order, and if samples are offered and the receiver is ready again and again the
rows of all frames are written in the end. -/
def Written (signals : List Signal) (withIndex : Bool)
    (frames : List (List (BitVec (totalBits signals)))) (schedule : ℕ → Clock) : Prop :=
  (∀ t chunks,
    chunks.flatten = (Feed.machine (totalBits signals)).trace (.new frames) schedule t →
    (∃ k, hostRecords signals withIndex chunks =
      some ((frames.take k).map (records signals withIndex))) ∧
    (chunks.flatten = frames.flatMap encodeFrame →
      hostRecords signals withIndex chunks = some (frames.map (records signals withIndex)))) ∧
  ((∀ t, ∃ u, t ≤ u ∧ (schedule u).valid = true) →
    (∀ t, ∃ u, t ≤ u ∧ (schedule u).ready = true) →
    ∃ u, ∀ t, u ≤ t → ∀ chunks,
      chunks.flatten = (Feed.machine (totalBits signals)).trace (.new frames) schedule t →
      hostRecords signals withIndex chunks = some (frames.map (records signals withIndex)))

theorem written_of_sumsFit {signals : List Signal} (hs : signals ≠ []) (withIndex : Bool)
    {frames : List (List (BitVec (totalBits signals)))} (hframes : ∀ f ∈ frames, f ≠ [])
    (hcount : ∀ f ∈ frames, SumsFit signals f.length) (schedule : ℕ → Clock) :
    Written signals withIndex frames schedule := by
  have hwidth : 1 ≤ totalBits signals := totalBits_pos hs
  have hcomplete : ∀ chunks : List (List U8), chunks.flatten = frames.flatMap encodeFrame →
      hostRecords signals withIndex chunks = some (frames.map (records signals withIndex)) := by
    intro chunks hchunks
    have harrived : chunks.flatten ++ [] = frames.flatMap encodeFrame := by
      rw [List.append_nil, hchunks]
    obtain ⟨k, hrecords, hk⟩ := hostRecords_stream withIndex harrived
    rw [hrecords, List.take_of_length_le (hk rfl), mapM_records hs withIndex hcount]
  refine ⟨?_, ?_⟩
  · intro t chunks hchunks
    refine ⟨?_, hcomplete chunks⟩
    have harrived := trace_todo hwidth hframes schedule t
    rw [← hchunks] at harrived
    obtain ⟨k, hrecords, -⟩ := hostRecords_stream withIndex harrived
    refine ⟨k, ?_⟩
    rw [hrecords]
    exact mapM_records hs withIndex fun f hf => hcount f (List.mem_of_mem_take hf)
  · intro hvalid hready
    obtain ⟨u, hu⟩ := all_transferred hwidth hframes hvalid hready
    refine ⟨u, ?_⟩
    intro t ht chunks hchunks
    exact hcomplete chunks (hchunks.trans (hu t ht))

/-- A frame of which not all rows can be counted stops the host. -/
theorem hostRecords_overflow {signals : List Signal} (hs : signals ≠ []) (withIndex : Bool)
    {frames : List (List (BitVec (totalBits signals)))} {f : List (BitVec (totalBits signals))}
    (hf : f ∈ frames) (hcount : ¬ SumsFit signals f.length) {chunks : List (List U8)}
    (hchunks : chunks.flatten = frames.flatMap encodeFrame) :
    hostRecords signals withIndex chunks = none := by
  have harrived : chunks.flatten ++ [] = frames.flatMap encodeFrame := by
    rw [List.append_nil, hchunks]
  obtain ⟨k, hrecords, hk⟩ := hostRecords_stream withIndex harrived
  rw [List.take_of_length_le (hk rfl)] at hrecords
  rw [hrecords, Option.eq_none_iff_forall_ne_some]
  intro rows hrows
  have hsome := mapM_isSome hrows f hf
  rw [writeSignalsAsCsv_septets hs, if_neg hcount] at hsome
  exact absurd hsome (by decide)

/-- **From the probe's samples to the host's rows.** Each field has its own number of digits;
and under every schedule the rows of the frames are written exactly if the sum of the widths,
rounded up to bytes, is within `usize` and no frame has more rows than an `i32` counts. -/
theorem rows_written {signals : List Signal} (hs : signals ≠ []) (withIndex : Bool)
    {frames : List (List (BitVec (totalBits signals)))} (hframes : ∀ f ∈ frames, f ≠ []) :
    (∀ x : BitVec (totalBits signals),
      (fields signals x).map (·.length) = signals.map fun signal => (signal.width + 3) / 4) ∧
    ((∀ schedule, Written signals withIndex frames schedule) ↔
      ∀ f ∈ frames, SumsFit signals f.length) := by
  refine ⟨fields_length signals, fun h f hf => ?_, fun hcount schedule =>
    written_of_sumsFit hs withIndex hframes hcount schedule⟩
  have hwidth : 1 ≤ totalBits signals := totalBits_pos hs
  by_contra hcount
  -- with both ends ready all the time the whole stream arrives
  have hagain : ∀ t : ℕ, ∃ u, t ≤ u ∧ true = true := fun t => ⟨t, Nat.le_refl t, rfl⟩
  obtain ⟨u, hu⟩ : ∃ u, ∀ t, u ≤ t → (Feed.machine (totalBits signals)).trace (.new frames)
      (fun _ => ⟨true, true⟩) t = frames.flatMap encodeFrame :=
    all_transferred hwidth hframes hagain hagain
  have hchunks : [(Feed.machine (totalBits signals)).trace (.new frames)
      (fun _ => ⟨true, true⟩) u].flatten = frames.flatMap encodeFrame := by
    rw [List.flatten_singleton]
    exact hu u (Nat.le_refl u)
  have hall := ((h fun _ => ⟨true, true⟩).1 u _ List.flatten_singleton).2 hchunks
  rw [hostRecords_overflow hs withIndex hf hcount hchunks] at hall
  cases hall

/-- The second signal ends a septet, the third one crosses into the next. -/
def pcFlagData : List Signal :=
  [⟨"pc", 5, by decide, by decide⟩, ⟨"flag", 1, by decide, by decide⟩,
    ⟨"data", 6, by decide, by decide⟩]

theorem rows_written_pauses :
    ∃ u, ∀ t, u ≤ t → ∀ chunks, chunks.flatten =
      (Feed.machine 12).trace (.new [[0xa7b, 0x013]]) pauses t →
      hostRecords pcFlagData true chunks =
        some [[["index", "pc", "flag", "data"], ["0", "1b", "1", "29"],
          ["1", "13", "0", "00"]]] := by
  have hsignals : pcFlagData ≠ [] := by decide
  have hframes : ∀ f ∈ ([[0xa7b, 0x013]] : List (List (BitVec (totalBits pcFlagData)))),
      f ≠ [] := by decide
  have hwritten := (rows_written hsignals true hframes).2.mpr (by decide) pauses
  exact hwritten.2 pauses_valid pauses_ready

/-- A signal of one bit -/
def flag : List Signal := [⟨"flag", 1, by decide, by decide⟩]

/-- One sample more than an `i32` counts -/
def uncounted : List (BitVec (totalBits flag)) := List.replicate (2 ^ 31) 0

/-- The host stops behind the last row of a frame that is too long. -/
theorem uncounted_rows : uncounted ≠ [] ∧
    hostRecords flag false [[uncounted].flatMap encodeFrame] = none := by
  have hlength : uncounted.length = 2 ^ 31 := List.length_replicate
  constructor
  · apply List.ne_nil_of_length_pos
    rw [hlength]
    decide
  · refine hostRecords_overflow (by decide) false (List.mem_singleton_self uncounted) ?_
      List.flatten_singleton
    unfold SumsFit
    rw [hlength]
    decide

end SeccampRiscvCpu.ProbeDecoder
