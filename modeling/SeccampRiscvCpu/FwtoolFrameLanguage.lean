import SeccampRiscvCpu.FwtoolService

/-!
# The language of the frame reader

`read_frame` looks for the first marker anywhere in its input. What it accepts
is the output of `write_frame` behind bytes without a marker, whatever follows;
the byte count it returns with the frame is not the end of that output, since
the header is counted in the offset and in the length.

The bodies `read_frame_payload` accepts behind one header all have the same
parity, so a body with an odd number of bits altered is never one of them.
-/
namespace SeccampRiscvCpu.FwtoolFrameLanguage
open ByteSlices FwtoolFrame FwtoolService

/-- A writer that takes every byte, for what `write_frame` puts out. -/
instance : FwtoolFrame.Writer (List U8) Empty where
  write sink bytes := .ok (sink ++ bytes)

/-- The types of the four commands. -/
def IsCommand : FrameTypeAndDirection → Prop
  | .request t | .response t => t = .queryVersion ∨ t = .readMemory ∨ t = .writeMemory ∨ t = .run

section Acceptance
variable (crc : Digest)

theorem isCommand_iff (t : FrameTypeAndDirection) : IsCommand t ↔ t.Decodable := by
  rw [FrameTypeAndDirection.decodable_iff]
  cases t with
  | request t => cases t <;> simp [IsCommand]
  | response t => cases t <;> simp [IsCommand]

theorem writeFrame_sink {f : RawFrame} (h : f.payload.length = f.header.payloadLength.toNat) :
    f.writeFrame crc ([] : List U8) = some (.ok (f.encode crc)) := by
  have hs : slice f.payload 0 f.header.payloadLength.toNat = some f.payload :=
    slice_front List.prefix_rfl h.symm
  simp only [RawFrame.writeFrame, FwtoolFrame.Writer.write, hs, Option.bind_eq_bind,
    Option.bind_some, List.nil_append]
  simp [RawFrame.encode, RawFrame.body]

theorem checkCrc_cases (h : FrameHeader) (payload : List U8) (actual : U16) :
    (actual = expectedCrc crc h payload ∧ checkCrc crc h payload actual = .ok ⟨h, payload⟩) ∨
      checkCrc crc h payload actual =
        .error (.crcMismatch (expectedCrc crc h payload) actual h) := by
  unfold checkCrc
  by_cases hc : actual = expectedCrc crc h payload
  · exact Or.inl ⟨hc, if_neg (not_not.mpr hc)⟩
  · exact Or.inr (if_pos hc)

/-- An input ends before the checksum, or has a whole body behind the header. -/
theorem body_cases (bytes : List U8) (n : ℕ) :
    bytes.length < n + 2 ∨
      ∃ payload a b rest, bytes = payload ++ a :: b :: rest ∧ payload.length = n := by
  rcases Nat.lt_or_ge bytes.length (n + 2) with hlt | hge
  · exact Or.inl hlt
  · refine Or.inr ?_
    have hlen : (bytes.take n).length = n := by
      rw [List.length_take]
      omega
    match hd : bytes.drop n with
    | a :: b :: rest => exact ⟨bytes.take n, a, b, rest, by rw [← hd, List.take_append_drop], hlen⟩
    | [] | [_] =>
      have h := congrArg List.length hd
      simp at h
      omega

theorem readFrame_truncated {noise : List U8} (hn : frameMarker ∉ noise) {h : FrameHeader}
    (hd : h.frameType.Decodable) {rest : List U8} (hl : rest.length < h.payloadLength.toNat + 2) :
    RawFrame.readFrame crc (noise ++ frameMarker :: (h.toBytes ++ rest)) =
      some (.error .insufficientLength) := by
  have hlen : (noise ++ frameMarker :: (h.toBytes ++ rest)).length <
      noise.length + FrameHeader.size + h.payloadLength.toNat + 2 := by
    simp only [List.length_append, List.length_cons, FrameHeader.toBytes_length, FrameHeader.size]
    omega
  have hheader : FrameHeader.readHeader (noise ++ frameMarker :: (h.toBytes ++ rest)) =
      .ok (h, noise.length + FrameHeader.size) := by
    rw [FrameHeader.readHeader_marker noise hn, FrameHeader.tryFrom_toBytes hd]
  simp only [RawFrame.readFrame, hheader, if_pos hlen]

theorem readFrame_noHeader {noise : List U8} (hn : frameMarker ∉ noise) {rest : List U8}
    {e : FrameError} (h : FrameHeader.tryFrom rest = .error e) :
    RawFrame.readFrame crc (noise ++ frameMarker :: rest) = some (.error e) := by
  have hheader : FrameHeader.readHeader (noise ++ frameMarker :: rest) =
      .error (e, noise.length) := by
    rw [FrameHeader.readHeader_marker noise hn, h]
  simp only [RawFrame.readFrame, hheader]

/-- What the reader says when it does not return a frame. -/
def Rejects (bytes : List U8) : Prop :=
  ∃ e, RawFrame.readFrame crc bytes = some (.error e) ∧
    (e = .noFrameMarker ∨ e = .invalidFrameType ∨ e = .insufficientLength ∨
      ∃ expected actual header, e = .crcMismatch expected actual header)

/-- The frame behind the first marker, or one of four errors. -/
theorem readFrame_cases (bytes : List U8) :
    (∃ noise f rest, bytes = noise ++ f.encode crc ++ rest ∧ frameMarker ∉ noise ∧ f.WellFormed ∧
      RawFrame.readFrame crc bytes = some (.ok (f, noise.length + FrameHeader.size +
        (FrameHeader.size + f.header.payloadLength.toNat + 2)))) ∨ Rejects crc bytes := by
  by_cases hm : frameMarker ∈ bytes
  · obtain ⟨noise, after, rfl, hn⟩ := List.eq_append_cons_of_mem hm
    rcases FrameHeader.tryFrom_cases after with ⟨h, rest, rfl, hd, -⟩ | he | he
    · rcases body_cases rest h.payloadLength.toNat with hl | ⟨payload, a, b, tail, rfl, hl⟩
      · exact Or.inr ⟨_, readFrame_truncated crc hn hd hl, Or.inr (Or.inr (Or.inl rfl))⟩
      · have hr := RawFrame.readFrame_at crc hn hd hl a b tail
        rcases checkCrc_cases crc h payload (ofBe16 a b) with ⟨hcrc, hok⟩ | hbad
        · refine Or.inl ⟨noise, ⟨h, payload⟩, tail, ?_, hn, ⟨hl, hd⟩, ?_⟩
          · have hab := be16_ofBe16 a b
            rw [hcrc] at hab
            simp [RawFrame.encode, RawFrame.body, hab]
          · rw [hr, hok]
            rfl
        · rw [hbad] at hr
          exact Or.inr ⟨_, hr, Or.inr (Or.inr (Or.inr ⟨_, _, _, rfl⟩))⟩
    · exact Or.inr ⟨_, readFrame_noHeader crc hn he, Or.inr (Or.inl rfl)⟩
    · exact Or.inr ⟨_, readFrame_noHeader crc hn he, Or.inr (Or.inr (Or.inl rfl))⟩
  · have hheader := FrameHeader.readHeader_noMarker hm
    exact Or.inr ⟨_, by simp only [RawFrame.readFrame, hheader], Or.inl rfl⟩

/-- **The reader's language.** A frame is read exactly if the input is its encoding
behind bytes without a marker; any other input gives one of four errors. -/
theorem readFrame_language (bytes : List U8) :
    (∀ f, (∃ count, RawFrame.readFrame crc bytes = some (.ok (f, count))) ↔
      ∃ noise written rest, bytes = noise ++ written ++ rest ∧ frameMarker ∉ noise ∧
        f.writeFrame crc ([] : List U8) = some (.ok written) ∧
        f.payload.length = f.header.payloadLength.toNat ∧ IsCommand f.header.frameType) ∧
      ((∃ f count, RawFrame.readFrame crc bytes = some (.ok (f, count))) ∨ Rejects crc bytes) := by
  refine ⟨fun f => ⟨?_, ?_⟩, ?_⟩
  · intro h
    obtain ⟨count, h⟩ := h
    rcases readFrame_cases crc bytes with ⟨noise, f', rest, hb, hn, hf, hr⟩ | ⟨e, he, -⟩
    · rw [hr] at h
      simp only [Option.some.injEq, Except.ok.injEq, Prod.mk.injEq] at h
      obtain ⟨rfl, -⟩ := h
      exact ⟨noise, _, rest, hb, hn, writeFrame_sink crc hf.length, hf.length,
        (isCommand_iff _).mpr hf.decodable⟩
    · rw [he] at h
      simp at h
  · intro h
    obtain ⟨noise, written, rest, rfl, hn, hw, hl, hc⟩ := h
    rw [writeFrame_sink crc hl, Option.some.injEq, Except.ok.injEq] at hw
    rw [← hw]
    exact ⟨_, RawFrame.readFrame_noise crc hn ⟨hl, (isCommand_iff _).mp hc⟩ rest⟩
  · rcases readFrame_cases crc bytes with ⟨noise, f, rest, -, -, -, hr⟩ | hr
    · exact Or.inl ⟨f, _, hr⟩
    · exact Or.inr hr

end Acceptance

section Stream
variable (crc : Digest)

/-- `read_frame` again and again, each time without the bytes it counted, until
it returns an error: the frames, and the bytes that are left. -/
inductive Reads : List U8 → List RawFrame → List U8 → Prop
  | stop {bytes : List U8} {e : FrameError} :
      RawFrame.readFrame crc bytes = some (.error e) → Reads bytes [] bytes
  | next {bytes rest : List U8} {f : RawFrame} {count : ℕ} {frames : List RawFrame} :
      RawFrame.readFrame crc bytes = some (.ok (f, count)) → count ≤ bytes.length →
      Reads (bytes.drop count) frames rest → Reads bytes (f :: frames) rest

/-- The count returned with every frame is the index behind its checksum, and the
stream is read as its frames and its tail. -/
def DecodesByCount (traffic : List (List U8 × RawFrame)) (tail : List U8) : Prop :=
  (∀ before noise f after, traffic = before ++ (noise, f) :: after →
    RawFrame.readFrame crc (streamOf crc ((noise, f) :: after) tail) =
      some (.ok (f, (noise ++ f.encode crc).length))) ∧
    Reads crc (streamOf crc traffic tail) (traffic.map Prod.snd) tail

theorem streamOf_cons (noise : List U8) (f : RawFrame) (traffic : List (List U8 × RawFrame))
    (tail : List U8) : streamOf crc ((noise, f) :: traffic) tail =
      noise ++ f.encode crc ++ streamOf crc traffic tail := by
  simp [streamOf]

/-- The count is six bytes past the checksum. -/
theorem readFrame_count {noise : List U8} (hn : frameMarker ∉ noise) {f : RawFrame}
    (hf : f.WellFormed) (rest : List U8) :
    RawFrame.readFrame crc (noise ++ f.encode crc ++ rest) =
      some (.ok (f, (noise ++ f.encode crc).length + FrameHeader.size)) := by
  have hcount : noise.length + FrameHeader.size +
      (FrameHeader.size + f.header.payloadLength.toNat + 2) =
      (noise ++ f.encode crc).length + FrameHeader.size := by
    rw [List.length_append, RawFrame.encode_length, hf.length]
    omega
  rw [RawFrame.readFrame_noise crc hn hf rest, hcount]

/-- **Reading by the count.** No stream with a frame in it is read by the counts
returned with its frames. -/
theorem decodesByCount_iff {traffic : List (List U8 × RawFrame)} {tail : List U8}
    (ht : ∀ t ∈ traffic, frameMarker ∉ t.1 ∧ t.2.WellFormed) (htail : frameMarker ∉ tail) :
    DecodesByCount crc traffic tail ↔ traffic = [] := by
  constructor
  · intro h
    obtain ⟨hcount, -⟩ := h
    cases traffic with
    | nil => rfl
    | cons t traffic =>
      obtain ⟨hn, hf⟩ := ht t List.mem_cons_self
      have hr := hcount [] t.1 t.2 traffic rfl
      rw [streamOf_cons, readFrame_count crc hn hf] at hr
      simp [FrameHeader.size] at hr
  · intro h
    subst h
    refine ⟨?_, ?_⟩
    · intro before noise f after h
      simp at h
    · have hstop := FrameHeader.readHeader_noMarker htail
      exact .stop (e := .noFrameMarker) (by
        simp only [streamOf, List.flatMap_nil, List.nil_append, RawFrame.readFrame, hstop])

end Stream

/-- A request for the version, twelve noise bytes and a second request. -/
def spacedTraffic : List (List U8 × RawFrame) :=
  [([], FwtoolReception.emptyRequest), (List.replicate 12 0, FwtoolReception.emptyRequest)]

theorem decodesByCount_iff_spaced :
    DecodesByCount (ReflectedCrc.checksum ReflectedCrc.usb) spacedTraffic [] ↔
      spacedTraffic = [] := by
  apply decodesByCount_iff
  · intro t ht
    simp only [spacedTraffic, List.mem_cons, List.not_mem_nil, or_false] at ht
    rcases ht with rfl | rfl
    · exact ⟨by decide, rfl, by decide⟩
    · exact ⟨by decide, rfl, by decide⟩
  · decide

/-- One request for the version: its eight bytes are counted as fourteen. -/
theorem decodesByCount_counterexample :
    RawFrame.readFrame (ReflectedCrc.checksum ReflectedCrc.usb)
        (streamOf (ReflectedCrc.checksum ReflectedCrc.usb) [([], FwtoolReception.emptyRequest)] []) =
        some (.ok (FwtoolReception.emptyRequest, 14)) ∧
      ¬ DecodesByCount (ReflectedCrc.checksum ReflectedCrc.usb)
        [([], FwtoolReception.emptyRequest)] [] := by
  have hread : RawFrame.readFrame (ReflectedCrc.checksum ReflectedCrc.usb)
      (streamOf (ReflectedCrc.checksum ReflectedCrc.usb) [([], FwtoolReception.emptyRequest)] []) =
      some (.ok (FwtoolReception.emptyRequest, 14)) := by decide +kernel
  refine ⟨hread, ?_⟩
  intro h
  have hcount := h.1 [] [] FwtoolReception.emptyRequest [] rfl
  rw [hread] at hcount
  simp at hcount
  revert hcount
  decide +kernel

/-! ## Altered bodies -/

section Altered
open ReflectedCrc

/-- The complement has as many ones as the checksum, modulo two, and so have the
initial register and the value added at the end. -/
theorem expectedCrc_parity (h : FrameHeader) (payload : List U8) :
    ones (expectedCrc (checksum usb) h payload) % 2 =
      (onesOf (frameMarker :: h.toBytes) + onesOf payload) % 2 := by
  have hnot := ones_not (checksum usb (frameMarker :: h.toBytes ++ payload))
  have hcrc := checksum_parity (p := usb) (by decide) (frameMarker :: h.toBytes ++ payload)
  have hinit : ones usb.init = 16 := by decide
  have hout : ones usb.xorOut = 16 := by decide
  rw [onesOf_append, hinit, hout] at hcrc
  rw [expectedCrc]
  omega

/-- A payload with its checksum has the parity of the header in front of it. -/
theorem body_parity {h : FrameHeader} {payload : List U8} {actual : U16}
    (hcrc : actual = expectedCrc (checksum usb) h payload) :
    (onesOf payload + ones actual) % 2 = onesOf (frameMarker :: h.toBytes) % 2 := by
  have hones := expectedCrc_parity h payload
  rw [hcrc]
  omega

/-- **Odd alterations.** With an odd number of bits of payload and checksum
altered, the reader reports a wrong checksum. -/
theorem readFramePayload_altered {f : RawFrame} (hf : f.WellFormed) {altered : List U8}
    (hl : altered.length = (f.body (checksum usb)).length)
    (hodd : flips (f.body (checksum usb)) altered % 2 = 1) :
    ∃ actual, RawFrame.readFramePayload (checksum usb) f.header altered =
      some (.error (.crcMismatch (expectedCrc (checksum usb) f.header
        (altered.take f.header.payloadLength.toNat)) actual f.header)) := by
  rw [RawFrame.body_length, hf.length] at hl
  obtain ⟨a, b, hsplit, hread⟩ := RawFrame.readFramePayload_total (checksum usb) hl
  rcases checkCrc_cases (checksum usb) f.header (altered.take f.header.payloadLength.toNat)
    (ofBe16 a b) with ⟨hcrc, -⟩ | hbad
  · -- both bodies would have the parity of the header
    have hflips := flips_parity
      (show (f.body (checksum usb)).length = altered.length by
        rw [hl, RawFrame.body_length, hf.length])
    have hbody := body_parity (rfl : _ = expectedCrc (checksum usb) f.header f.payload)
    have haltered := body_parity hcrc
    have hword : onesOf [a, b] = ones (ofBe16 a b) := by rw [← be16_ofBe16, onesOf_be16]
    have hones : onesOf altered =
        onesOf (altered.take f.header.payloadLength.toNat) + ones (ofBe16 a b) := by
      conv_lhs => rw [hsplit]
      rw [onesOf_append, hword]
    rw [RawFrame.body, onesOf_append, onesOf_be16, hones] at hflips
    rw [RawFrame.body] at hodd
    omega
  · rw [hbad] at hread
    exact ⟨_, hread⟩

/-- One bit of the address of a run request. -/
theorem readFramePayload_altered_run :
    ∃ actual, RawFrame.readFramePayload (checksum usb) ⟨.request .run, 1, 4⟩
        ([0x80, 0, 0, 1] ++
          be16 (expectedCrc (checksum usb) ⟨.request .run, 1, 4⟩ [0x80, 0, 0, 0])) =
      some (.error (.crcMismatch
        (expectedCrc (checksum usb) ⟨.request .run, 1, 4⟩ [0x80, 0, 0, 1])
        actual ⟨.request .run, 1, 4⟩)) :=
  readFramePayload_altered (f := ⟨⟨.request .run, 1, 4⟩, [0x80, 0, 0, 0]⟩) ⟨rfl, by decide⟩ rfl
    (by decide +kernel)

end Altered

end SeccampRiscvCpu.FwtoolFrameLanguage
