import SeccampRiscvCpu.FwtoolFrame

/-!
# Encoding and decoding of firmware-tool frames

A frame on the wire is its marker, header, payload and checksum. Headers whose
type byte decodes to the same type are recovered from their bytes wherever the
marker stands first; bytes before the first marker only move the offset.
-/
namespace SeccampRiscvCpu.FwtoolFrame
open ByteSlices

/-- The type byte decodes back to the type. -/
def FrameTypeAndDirection.Decodable (t : FrameTypeAndDirection) : Prop :=
  tryFrom t.toByte = .ok t

instance (t : FrameTypeAndDirection) : Decidable t.Decodable :=
  inferInstanceAs (Decidable (_ = _))

/-- The byte of an error response carries the direction bit inside the type. -/
theorem FrameTypeAndDirection.decodable_iff (t : FrameTypeAndDirection) :
    t.Decodable ↔ t ≠ .request .errorResponse ∧ t ≠ .response .errorResponse := by
  rcases t with t | t <;> cases t <;> decide

/-- A byte is the byte of a type that decodes to it, or of no type. -/
theorem FrameTypeAndDirection.tryFrom_cases (b : U8) :
    (∃ t, tryFrom b = .ok t ∧ t.toByte = b ∧ t.Decodable) ∨
      tryFrom b = .error .invalidFrameType := by
  have h : ∀ b : U8, (match tryFrom b with
      | .ok t => decide (t.toByte = b)
      | .error e => decide (e = .invalidFrameType)) = true := by
    decide +kernel
  specialize h b
  cases ht : tryFrom b with
  | ok t =>
    rw [ht] at h
    have hb : t.toByte = b := of_decide_eq_true h
    have hd : tryFrom t.toByte = .ok t := hb ▸ ht
    exact Or.inl ⟨t, rfl, hb, hd⟩
  | error e =>
    rw [ht] at h
    exact Or.inr (congrArg _ (of_decide_eq_true h))

namespace FrameHeader

@[simp] theorem toBytes_length (h : FrameHeader) : h.toBytes.length = 5 := rfl

theorem tryFrom_toBytes {h : FrameHeader} (hd : h.frameType.Decodable) (rest : List U8) :
    tryFrom (h.toBytes ++ rest) = .ok h := by
  have ht : FrameTypeAndDirection.tryFrom h.frameType.toByte = .ok h.frameType := hd
  simp [toBytes, be16, tryFrom, ht]

/-- Five bytes are a header, unless the first of them is no type. -/
theorem tryFrom_cases (bytes : List U8) :
    (∃ h rest, bytes = h.toBytes ++ rest ∧ h.frameType.Decodable ∧ tryFrom bytes = .ok h) ∨
      tryFrom bytes = .error .invalidFrameType ∨ tryFrom bytes = .error .insufficientLength := by
  match bytes with
  | t :: n₁ :: n₀ :: l₁ :: l₀ :: rest =>
    rcases FrameTypeAndDirection.tryFrom_cases t with ⟨x, hx, hb, hd⟩ | he
    · refine Or.inl ⟨⟨x, ofBe16 n₁ n₀, ofBe16 l₁ l₀⟩, rest, ?_, hd, ?_⟩
      · simp [toBytes, be16_ofBe16, hb]
      · simp only [tryFrom, hx]
        rfl
    · refine Or.inr (Or.inl ?_)
      simp only [tryFrom, he]
      rfl
  | [] | [_] | [_, _] | [_, _, _] | [_, _, _, _] => exact Or.inr (Or.inr rfl)

theorem tryFrom_short {bytes : List U8} (h : bytes.length < 5) :
    tryFrom bytes = .error .insufficientLength := by
  match bytes with
  | [] | [_] | [_, _] | [_, _, _] | [_, _, _, _] => rfl
  | _ :: _ :: _ :: _ :: _ :: _ => simp at h; omega

theorem readHeader_noMarker {bytes : List U8} (h : frameMarker ∉ bytes) :
    readHeader bytes = .error (.noFrameMarker, bytes.length) := by
  have hn : bytes.findIdx? (· == frameMarker) = none := by
    rw [List.findIdx?_eq_none_iff]
    intro x hx
    simpa using fun he : x = frameMarker => h (he ▸ hx)
  simp [readHeader, hn]

/-- Bytes before the first marker only move the offset. -/
theorem readHeader_marker (noise : List U8) (h : frameMarker ∉ noise) (rest : List U8) :
    readHeader (noise ++ frameMarker :: rest) =
      match tryFrom rest with
      | .error e => .error (e, noise.length)
      | .ok header => .ok (header, noise.length + size) := by
  have hn : noise.findIdx? (· == frameMarker) = none := by
    rw [List.findIdx?_eq_none_iff]
    intro x hx
    simpa using fun he : x = frameMarker => h (he ▸ hx)
  have hi : (noise ++ frameMarker :: rest).findIdx? (· == frameMarker) = some noise.length := by
    simp [List.findIdx?_append, hn, List.findIdx?_cons]
  have hd : (noise ++ frameMarker :: rest).drop (noise.length + 1) = rest := by
    rw [← List.drop_drop, List.drop_left]
    rfl
  have hl : ¬ (noise ++ frameMarker :: rest).length < noise.length + 1 := by
    simp
  have hopen : readHeader (noise ++ frameMarker :: rest) =
      match tryFrom ((noise ++ frameMarker :: rest).drop (noise.length + 1)) with
      | .error e => .error (e, noise.length)
      | .ok header => .ok (header, noise.length + size) := by
    unfold readHeader
    rw [hi]
    exact if_neg hl
  rw [hopen, hd]

theorem readHeader_toBytes {h : FrameHeader} (hd : h.frameType.Decodable) :
    readHeader (frameMarker :: h.toBytes) = .ok (h, size) := by
  have hr := readHeader_marker [] (by simp) h.toBytes
  have ht := tryFrom_toBytes hd []
  rw [List.append_nil] at ht
  simpa [ht] using hr

/-- The offset of an incomplete header is past the start of a full window. -/
theorem readHeader_insufficient {bytes : List U8} {m : ℕ} (hl : bytes.length = size)
    (h : readHeader bytes = .error (.insufficientLength, m)) : 0 < m ∧ m < size := by
  by_cases hm : frameMarker ∈ bytes
  · obtain ⟨noise, rest, rfl, hn⟩ := List.eq_append_cons_of_mem hm
    rw [readHeader_marker _ hn] at h
    have hlen : noise.length + (rest.length + 1) = size := by simpa using hl
    have hsz : size = 6 := rfl
    rcases Nat.eq_zero_or_pos noise.length with h0 | hpos
    · -- a marker in front leaves five header bytes, which only the type can spoil
      match rest, hlen with
      | [t, n₁, n₀, l₁, l₀], _ =>
        cases ht : FrameTypeAndDirection.tryFrom t with
        | ok x => simp [tryFrom, ht] at h
        | error e =>
          have he : e = .invalidFrameType := by
            revert ht
            unfold FrameTypeAndDirection.tryFrom FrameType.tryFrom
            split_ifs <;> simp +contextual [eq_comm]
          simp [tryFrom, ht, he] at h
      | [], hlen | [_], hlen | [_, _], hlen | [_, _, _], hlen | [_, _, _, _], hlen =>
        simp at hlen; omega
      | _ :: _ :: _ :: _ :: _ :: _ :: _, hlen => simp at hlen; omega
    · have hoff : m = noise.length := by
        cases ht : tryFrom rest with
        | ok x => simp [ht] at h
        | error e =>
          simp only [ht, Except.error.injEq, Prod.mk.injEq] at h
          exact h.2.symm
      omega
  · rw [readHeader_noMarker hm] at h
    simp at h

end FrameHeader

namespace RawFrame

/-- The payload has the declared length and the type survives its byte. -/
structure WellFormed (f : RawFrame) : Prop where
  length : f.payload.length = f.header.payloadLength.toNat
  decodable : f.header.frameType.Decodable

/-- Payload and checksum. -/
def body (crc : Digest) (f : RawFrame) : List U8 :=
  f.payload ++ be16 (expectedCrc crc f.header f.payload)

def encode (crc : Digest) (f : RawFrame) : List U8 :=
  frameMarker :: f.header.toBytes ++ f.body crc

@[simp] theorem body_length (crc : Digest) (f : RawFrame) :
    (f.body crc).length = f.payload.length + 2 := by simp [body]

theorem encode_length (crc : Digest) (f : RawFrame) :
    (f.encode crc).length = FrameHeader.size + f.payload.length + 2 := by
  simp only [encode, List.length_append, List.length_cons, FrameHeader.toBytes_length,
    body_length, FrameHeader.size]
  omega

theorem readFramePayload_append (crc : Digest) {h : FrameHeader} (payload : List U8)
    (a b : U8) (hl : payload.length = h.payloadLength.toNat) :
    readFramePayload crc h (payload ++ [a, b]) =
      some ((checkCrc crc h payload (ofBe16 a b)).map fun f => (f, h.payloadLength.toNat + 2)) := by
  have hs : slice (payload ++ [a, b]) 0 h.payloadLength.toNat = some payload := by
    rw [← hl, slice_append_left]
  have hw : slice (payload ++ [a, b]) h.payloadLength.toNat (h.payloadLength.toNat + 2) =
      some [a, b] := by
    simpa using slice_middle payload [a, b] [] hl.symm (by simp [hl])
  have hn : ¬ (payload ++ [a, b]).length < h.payloadLength.toNat + 2 := by
    simp [hl]
  simp only [readFramePayload, if_neg hn, hs, hw]
  rfl

/-- On `payload_length + 2` bytes the reader compares and never slices out of range. -/
theorem readFramePayload_total (crc : Digest) {h : FrameHeader} {bytes : List U8}
    (hl : bytes.length = h.payloadLength.toNat + 2) :
    ∃ a b, bytes = bytes.take h.payloadLength.toNat ++ [a, b] ∧
      readFramePayload crc h bytes = some ((checkCrc crc h (bytes.take h.payloadLength.toNat)
        (ofBe16 a b)).map fun f => (f, h.payloadLength.toNat + 2)) := by
  have hd : (bytes.drop h.payloadLength.toNat).length = 2 := by simp [hl]
  obtain ⟨a, b, hab⟩ := List.length_eq_two.mp hd
  have hb : bytes = bytes.take h.payloadLength.toNat ++ [a, b] := by
    rw [← hab, List.take_append_drop]
  refine ⟨a, b, hb, ?_⟩
  have hr := readFramePayload_append crc (h := h) (bytes.take h.payloadLength.toNat)
    a b (by simp [hl])
  rwa [← hb] at hr

theorem readFramePayload_body (crc : Digest) {f : RawFrame} (hf : f.WellFormed) :
    readFramePayload crc f.header (f.body crc) =
      some (.ok (f, f.header.payloadLength.toNat + 2)) := by
  have hr := readFramePayload_append crc (h := f.header) f.payload
    (.ofNat 8 ((expectedCrc crc f.header f.payload).toNat / 256))
    ((expectedCrc crc f.header f.payload).setWidth 8) hf.length
  rw [ofBe16_be16] at hr
  simpa [checkCrc, body, be16, Except.map] using hr

/-- The reader never slices out of range. -/
theorem readFrame_total (crc : Digest) (bytes : List U8) : ∃ r, readFrame crc bytes = some r := by
  unfold readFrame
  split
  · exact ⟨_, rfl⟩
  · rename_i header offset _
    dsimp only
    split_ifs with hlt
    · exact ⟨_, rfl⟩
    · have hp := slice_eq bytes (i := offset) (j := offset + header.payloadLength.toNat)
        (by omega) (by omega)
      have hc := slice_eq bytes (i := offset + header.payloadLength.toNat)
        (j := offset + header.payloadLength.toNat + 2) (by omega) (by omega)
      obtain ⟨actual, ha⟩ := wordOf_some ((length_of_slice hc).trans (by omega))
      exact ⟨_, by simp only [hp, hc, ha, Option.bind_eq_bind, Option.bind_some]; rfl⟩

/-- A header behind the first marker with its body behind it is compared with its checksum,
and the offset of the payload is counted twice. -/
theorem readFrame_at (crc : Digest) {noise : List U8} (hn : frameMarker ∉ noise)
    {h : FrameHeader} (hd : h.frameType.Decodable) {payload : List U8}
    (hl : payload.length = h.payloadLength.toNat) (a b : U8) (rest : List U8) :
    readFrame crc (noise ++ frameMarker :: (h.toBytes ++ (payload ++ a :: b :: rest))) =
      some ((checkCrc crc h payload (ofBe16 a b)).map fun f => (f, noise.length +
        FrameHeader.size + (FrameHeader.size + h.payloadLength.toNat + 2))) := by
  have hheader : FrameHeader.readHeader (noise ++ frameMarker :: (h.toBytes ++
      (payload ++ a :: b :: rest))) = .ok (h, noise.length + FrameHeader.size) := by
    rw [FrameHeader.readHeader_marker noise hn, FrameHeader.tryFrom_toBytes hd]
  have hlen : ¬ (noise ++ frameMarker :: (h.toBytes ++ (payload ++ a :: b :: rest))).length <
      noise.length + FrameHeader.size + h.payloadLength.toNat + 2 := by
    simp only [List.length_append, List.length_cons, FrameHeader.toBytes_length, hl,
      FrameHeader.size]
    omega
  have hfront : (noise ++ frameMarker :: h.toBytes).length = noise.length + FrameHeader.size := by
    simp [FrameHeader.size]
  have hpayload := slice_middle (noise ++ frameMarker :: h.toBytes) payload (a :: b :: rest)
    (i := noise.length + FrameHeader.size)
    (j := noise.length + FrameHeader.size + h.payloadLength.toNat) hfront.symm (by rw [hfront, hl])
  have hcrc := slice_middle (noise ++ frameMarker :: h.toBytes ++ payload) [a, b] rest
    (i := noise.length + FrameHeader.size + h.payloadLength.toNat)
    (j := noise.length + FrameHeader.size + h.payloadLength.toNat + 2)
    (by rw [List.length_append, hfront, hl])
    (by rw [List.length_append, hfront, hl, List.length_cons, List.length_singleton])
  simp only [List.append_assoc, List.cons_append, List.nil_append] at hpayload hcrc
  simp only [readFrame, hheader, if_neg hlen, hpayload, hcrc, Option.bind_eq_bind,
    Option.bind_some, wordOf]
  rfl

/-- The first encoding behind marker-free bytes is what is read. -/
theorem readFrame_noise (crc : Digest) {noise : List U8} (hn : frameMarker ∉ noise) {f : RawFrame}
    (hf : f.WellFormed) (rest : List U8) :
    readFrame crc (noise ++ f.encode crc ++ rest) = some (.ok (f, noise.length +
      FrameHeader.size + (FrameHeader.size + f.header.payloadLength.toNat + 2))) := by
  have hr := readFrame_at crc hn hf.decodable hf.length
    (.ofNat 8 ((expectedCrc crc f.header f.payload).toNat / 256))
    ((expectedCrc crc f.header f.payload).setWidth 8) rest
  rw [ofBe16_be16] at hr
  simpa [checkCrc, encode, body, be16, Except.map] using hr

theorem readFrame_encode (crc : Digest) {f : RawFrame} (hf : f.WellFormed) :
    readFrame crc (f.encode crc) = some (.ok (f,
      FrameHeader.size + (FrameHeader.size + f.header.payloadLength.toNat + 2))) := by
  have hr := readFrame_noise crc (List.not_mem_nil : frameMarker ∉ ([] : List U8)) hf []
  simpa using hr

end RawFrame

/-! ## Typed frames -/

theorem fillFront_eq {buffer bytes : List U8} (h : bytes.length ≤ buffer.length) :
    fillFront buffer bytes = .ok (overwrite buffer 0 bytes) :=
  if_neg (Nat.not_lt.mpr h)

theorem ofExactLength_ok {n : ℕ} {raw f : RawFrame} (h : ofExactLength n raw = .ok f) :
    f = raw ∧ raw.header.payloadLength.toNat = n ∧ raw.payload.length = n := by
  unfold ofExactLength at h
  split_ifs at h with hne
  obtain ⟨h₁, h₂⟩ := not_or.mp hne
  simp only [Except.ok.injEq] at h
  exact ⟨h.symm, not_not.mp h₁, not_not.mp h₂⟩

theorem map_eq_ok {ε α β : Type} {f : α → β} {x : Except ε α} {y : β} (h : f <$> x = .ok y) :
    ∃ a, x = .ok a ∧ f a = y := by
  cases x with
  | error e => exact nomatch h
  | ok a => exact ⟨a, rfl, Except.ok.inj h⟩

theorem payloadAddress_some {raw : RawFrame} (h : 4 ≤ raw.payload.length) :
    ∃ address, payloadAddress raw = some address := by
  have hs := slice_eq raw.payload (Nat.zero_le 4) h
  obtain ⟨address, ha⟩ := dwordOf_some (length_of_slice hs)
  exact ⟨address, by simp only [payloadAddress, hs, ha, Option.bind_eq_bind, Option.bind_some]⟩

/-- The two bytes after an address. -/
theorem payloadWord_some {raw : RawFrame} (h : raw.payload.length = 6) :
    ∃ x, (slice raw.payload 4 6).bind wordOf = some x := by
  have hs := slice_eq raw.payload (show 4 ≤ 6 by decide) (Nat.le_of_eq h.symm)
  obtain ⟨x, hx⟩ := wordOf_some (length_of_slice hs)
  exact ⟨x, by rw [hs, Option.bind_some, hx]⟩

namespace Frame

/-- A typed frame is the raw frame it was made from, of the matching type. -/
theorem tryFrom_ok {raw : RawFrame} {frame : Frame} (h : tryFrom raw = .ok frame) :
    frame.toRaw = raw ∧ match frame with
      | .queryVersionRequest _ =>
        raw.header.frameType = .request .queryVersion ∧ raw.payload.length = 0
      | .queryVersionResponse _ =>
        raw.header.frameType = .response .queryVersion ∧ raw.payload.length = 6
      | .readMemoryRequest _ =>
        raw.header.frameType = .request .readMemory ∧ raw.payload.length = 6
      | .writeMemoryRequest _ =>
        raw.header.frameType = .request .writeMemory ∧ 4 ≤ raw.payload.length
      | .runRequest _ => raw.header.frameType = .request .run ∧ raw.payload.length = 4
      | _ => ∃ t, raw.header.frameType = .response t := by
  rcases hty : raw.header.frameType with t | t <;> cases t <;>
    simp only [tryFrom, hty, reduceCtorEq] at h <;> obtain ⟨f, hf, rfl⟩ := map_eq_ok h
  case request.queryVersion =>
    obtain ⟨rfl, -, hl⟩ := ofExactLength_ok hf
    refine ⟨?_, rfl, hl⟩
    simp only [toRaw, ← List.eq_nil_of_length_eq_zero hl]
  case request.readMemory =>
    obtain ⟨rfl, -, hl⟩ := ofExactLength_ok hf
    exact ⟨rfl, rfl, hl⟩
  case request.writeMemory =>
    unfold WriteMemoryRequestFrame.tryFrom at hf
    split_ifs at hf with hlt
    obtain rfl := Except.ok.inj hf
    exact ⟨rfl, rfl, by omega⟩
  case request.run =>
    obtain ⟨rfl, -, hl⟩ := ofExactLength_ok hf
    exact ⟨rfl, rfl, hl⟩
  case response.queryVersion =>
    obtain ⟨rfl, -, hl⟩ := ofExactLength_ok hf
    exact ⟨rfl, rfl, hl⟩
  case response.readMemory =>
    obtain rfl := Except.ok.inj hf
    exact ⟨rfl, _, rfl⟩
  all_goals
    obtain ⟨rfl, -, -⟩ := ofExactLength_ok hf
    exact ⟨rfl, _, rfl⟩

theorem tryFrom_toRaw {raw : RawFrame} {frame : Frame} (h : tryFrom raw = .ok frame) :
    frame.toRaw = raw := (tryFrom_ok h).1

theorem readMemoryRequest_fields {raw request : RawFrame}
    (h : tryFrom raw = .ok (.readMemoryRequest request)) :
    (∃ address, ReadMemoryRequestFrame.address request = some address) ∧
      ∃ length, ReadMemoryRequestFrame.length request = some length := by
  obtain ⟨rfl, -, hl⟩ := tryFrom_ok h
  simp only [toRaw] at hl
  exact ⟨payloadAddress_some (by omega), payloadWord_some hl⟩

theorem queryVersionResponse_fields {raw response : RawFrame}
    (h : tryFrom raw = .ok (.queryVersionResponse response)) :
    (∃ version, QueryVersionResponseFrame.version response = some version) ∧
      ∃ size, QueryVersionResponseFrame.maxPayloadSize response = some size := by
  obtain ⟨rfl, -, hl⟩ := tryFrom_ok h
  simp only [toRaw] at hl
  exact ⟨payloadAddress_some (by omega), payloadWord_some hl⟩

theorem writeMemoryRequest_fields {raw request : RawFrame}
    (h : tryFrom raw = .ok (.writeMemoryRequest request)) :
    (∃ address, WriteMemoryRequestFrame.address request = some address) ∧
      ∃ data, WriteMemoryRequestFrame.data request = some data := by
  obtain ⟨rfl, -, hl⟩ := tryFrom_ok h
  exact ⟨payloadAddress_some hl, _, slice_eq _ hl (Nat.le_refl _)⟩

theorem runRequest_fields {raw request : RawFrame} (h : tryFrom raw = .ok (.runRequest request)) :
    ∃ address, RunRequestFrame.address request = some address := by
  obtain ⟨rfl, -, hl⟩ := tryFrom_ok h
  exact payloadAddress_some (Nat.le_of_eq hl.symm)

end Frame

end SeccampRiscvCpu.FwtoolFrame
