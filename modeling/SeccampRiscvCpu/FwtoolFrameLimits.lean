import SeccampRiscvCpu.FwtoolClient

/-!
# Lengths that do not fit

The header has 16 bits for the length of a payload and the constructors cast the
length of a slice to them. A cursor takes of a write what fits, and its count is
dropped on the way to `write_frame`, so that a frame cut short counts as written.
-/
namespace SeccampRiscvCpu.FwtoolFrameLimits
open ByteSlices FwtoolFrame FwtoolClient

section
variable {n : ℕ} {result : Option (Except FrameError RawFrame)}

/-- An error, or a frame that declares `n` bytes. -/
def DeclaresLength (n : ℕ) (result : Option (Except FrameError RawFrame)) : Prop :=
  (∃ e, result = some (.error e)) ∨
    ∃ f, result = some (.ok f) ∧ f.header.payloadLength.toNat = n

theorem declares_error (e : FrameError) : DeclaresLength n (some (.error e)) := Or.inl ⟨e, rfl⟩

theorem declares_ok {f : RawFrame} :
    DeclaresLength n (some (.ok f)) ↔ f.header.payloadLength.toNat = n := by
  simp [DeclaresLength]

theorem not_declares_none : ¬ DeclaresLength n none := by simp [DeclaresLength]

theorem ofNat_declares (n : ℕ) : (BitVec.ofNat 16 n).toNat = n ↔ n < 65536 := by
  rw [BitVec.toNat_ofNat]
  omega

end

/-- **Declared lengths.** A constructor declares the length of what it is given, or returns an
error, exactly if that length fits 16 bits or the buffer is found too short before. -/
theorem declares_length_iff (frameNumber : U16) (address : U32) (buffer data : List U8) :
    (DeclaresLength (4 + data.length)
        (WriteMemoryRequestFrame.new frameNumber buffer address data) ↔
      buffer.length < 4 + data.length ∨ 4 + data.length < 65536) ∧
    (DeclaresLength buffer.length
        (some (WriteMemoryRequestFrame.newInplace frameNumber buffer address)) ↔
      buffer.length < 65536) ∧
    (DeclaresLength data.length (some (ReadMemoryResponseFrame.new frameNumber data)) ↔
      data.length < 65536) := by
  refine ⟨?_, ?_, ?_⟩
  · unfold WriteMemoryRequestFrame.new
    by_cases hshort : buffer.length < 4 + data.length
    · rw [if_pos hshort]
      exact iff_of_true (declares_error _) (Or.inl hshort)
    · rw [if_neg hshort, or_iff_right hshort]
      dsimp only
      by_cases hsum : 4 + (BitVec.ofNat 16 data.length).toNat < 65536
      · rw [if_pos hsum, declares_ok]
        have hvalue : (4 + BitVec.ofNat 16 data.length : U16).toNat =
            4 + (BitVec.ofNat 16 data.length).toNat := by
          rw [BitVec.toNat_add]
          exact Nat.mod_eq_of_lt hsum
        show (4 + BitVec.ofNat 16 data.length : U16).toNat = _ ↔ _
        rw [hvalue]
        rw [BitVec.toNat_ofNat] at hsum ⊢
        omega
      · rw [if_neg hsum]
        rw [BitVec.toNat_ofNat] at hsum
        exact iff_of_false not_declares_none (by omega)
  · unfold WriteMemoryRequestFrame.newInplace fillFront
    by_cases hshort : buffer.length < (be32 address).length
    · rw [if_pos hshort]
      rw [be32_length] at hshort
      exact iff_of_true (declares_error _) (by omega)
    · rw [if_neg hshort]
      exact declares_ok.trans (ofNat_declares _)
  · exact declares_ok.trans (ofNat_declares _)

/-- The first length that is too long is declared as zero. -/
theorem declares_nothing : ¬ ∀ (frameNumber : U16) (data : List U8),
    DeclaresLength data.length (some (ReadMemoryResponseFrame.new frameNumber data)) := by
  intro hall
  have hlong := declares_ok.mp (hall 0 (List.replicate 65536 0))
  rw [List.length_replicate, ofNat_declares] at hlong
  exact absurd hlong (by decide)

section
variable {c : Cursor}

/-- The cursor after these bytes have been stored at its position. -/
def after (c : Cursor) (bytes : List U8) : Cursor :=
  ⟨overwrite c.bytes c.position bytes, c.position + bytes.length⟩

theorem after_nil (c : Cursor) : after c [] = c := by simp [after]

/-- A write that fits is stored behind the ones before. -/
theorem write_fits (before bytes : List U8)
    (h : c.position + (before ++ bytes).length ≤ c.bytes.length) :
    (FwtoolFrame.Writer.write (after c before) bytes : Except Empty Cursor) =
      .ok (after c (before ++ bytes)) := by
  rw [List.length_append] at h
  have hlength : (overwrite c.bytes c.position before).length = c.bytes.length :=
    overwrite_length (by omega)
  have hstart : min (c.position + before.length) c.bytes.length = c.position + before.length := by
    omega
  have htaken : bytes.take (c.bytes.length - (c.position + before.length)) = bytes :=
    List.take_of_length_le (by omega)
  simp only [FwtoolFrame.Writer.write, after, hlength, hstart, htaken,
    overwrite_overwrite before bytes (show c.position ≤ c.bytes.length by omega),
    List.length_append, Nat.add_assoc]

/-- All that `write_frame` should write. -/
def written (crc : Digest) (f : RawFrame) : List U8 :=
  frameMarker :: f.header.toBytes ++ f.payload ++
    be16 (expectedCrc crc f.header (f.payload.take f.header.payloadLength.toNat))

theorem written_length (crc : Digest) (f : RawFrame) :
    (written crc f).length = FrameHeader.size + f.payload.length + 2 := by
  simp [written, FrameHeader.size]
  omega

/-- It is all stored at the position of the cursor if `write_frame` succeeds, and if
there is no room for it `write_frame` fails. -/
def WritesAll (crc : Digest) (f : RawFrame) (c : Cursor)
    (result : Option (Except Empty Cursor)) : Prop :=
  (∀ c', result = some (.ok c') →
    c.position + (written crc f).length ≤ c.bytes.length ∧ c' = after c (written crc f)) ∧
  (c.bytes.length - c.position < (written crc f).length → ∃ e, result = some (.error e))

/-- With room for everything the three writes store one behind the other. -/
theorem writeFrame_fits (crc : Digest) {f : RawFrame}
    (h : c.position + (written crc f).length ≤ c.bytes.length) {c' : Cursor}
    (hwrite : f.writeFrame crc c = some (.ok c')) : c' = after c (written crc f) := by
  have hlength := h
  rw [written, List.length_append, List.length_append] at hlength
  have hheader := write_fits (c := c) [] (frameMarker :: f.header.toBytes)
    (by rw [List.nil_append]; omega)
  have hpayload := write_fits (c := c) (frameMarker :: f.header.toBytes) f.payload
    (by rw [List.length_append]; omega)
  have hcrc := write_fits (c := c) (frameMarker :: f.header.toBytes ++ f.payload) _ h
  rw [after_nil, List.nil_append] at hheader
  unfold RawFrame.writeFrame at hwrite
  simp only [hheader, hpayload] at hwrite
  obtain ⟨digested, hdigested, hwrite⟩ := Option.bind_eq_some_iff.mp hwrite
  have hfront : digested = f.payload.take f.header.payloadLength.toNat := by
    unfold slice at hdigested
    split_ifs at hdigested
    exact (Option.some.inj hdigested).symm.trans List.drop_zero
  rw [hfront, hcrc] at hwrite
  exact (Except.ok.inj (Option.some.inj hwrite)).symm

/-- A cursor never refuses a write. -/
theorem writeFrame_not_error (crc : Digest) (f : RawFrame) (c : Cursor) :
    ¬ ∃ e, f.writeFrame crc c = some (.error e) := nofun

end

/-- **Frames that are cut short.** Success means that the whole frame has been stored, and
too little room is an error, exactly if there is room for the whole frame. -/
theorem writes_all_iff (crc : Digest) (f : RawFrame) (c : Cursor) :
    WritesAll crc f c (f.writeFrame crc c) ↔
      FrameHeader.size + f.payload.length + 2 ≤ c.bytes.length - c.position := by
  rw [← written_length crc f]
  constructor
  · rintro ⟨-, hfails⟩
    by_contra hshort
    exact writeFrame_not_error crc f c (hfails (by omega))
  · intro hroom
    have hlength := written_length crc f
    have hfits : c.position + (written crc f).length ≤ c.bytes.length := by omega
    exact ⟨fun c' hwrite => ⟨hfits, writeFrame_fits crc hfits hwrite⟩, fun hshort => by omega⟩

/-- A request for the version into seven bytes: the last one of its checksum is dropped. -/
theorem writes_all_but_one : ¬ ∀ (crc : Digest) (f : RawFrame) (c : Cursor),
    WritesAll crc f c (f.writeFrame crc c) := by
  intro hall
  have hcut := hall (ReflectedCrc.checksum ReflectedCrc.usb) FwtoolReception.emptyRequest
    ⟨List.replicate 7 0, 0⟩
  exact writeFrame_not_error _ _ _ (hcut.2 (by decide +kernel))

end SeccampRiscvCpu.FwtoolFrameLimits
