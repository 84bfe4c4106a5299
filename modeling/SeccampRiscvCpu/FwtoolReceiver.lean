import SeccampRiscvCpu.FwtoolFrameCodec
import SeccampRiscvCpu.StreamTransducer

/-!
# The frame receiver

`receiver.rs`: one call makes one read, sized by the state, into the shared
buffer, and then acts when a header or a body is complete. The reader is the
byte stream still to come together with one answer for each call: an error, or
a number of bytes it is willing to hand over.

`Scan` is the receiver byte by byte. It knows only the bytes of the frame in
progress. While an oversize frame is being discarded the program keeps the size
of its last read as its progress, so the count never reaches the frame's length
and the scan is deaf. The two agree whenever the 16-bit size limit the program
compares with is the limit of its buffer. Whatever the limit, the receiver agrees
with the scan for that limit until a frame is discarded, and the frames it returns
are made of bytes it has counted once.
-/
namespace SeccampRiscvCpu.FwtoolReceiver
open ByteSlices FwtoolFrame StreamTransducer

inductive State where
  | header (bytesRead : ℕ)
  | payload (bytesRead : ℕ) (header : FrameHeader)
  | discard (bytesRead : ℕ) (header : FrameHeader)
deriving DecidableEq, Repr

structure Receiver (max : ℕ) where
  state : State
  receiveBuffer : Buffer max

def Receiver.new (max : ℕ) : Receiver max := ⟨.header 0, .zero max⟩

inductive ReceiveError where
  | ioError
  | frameError (e : FrameError)
deriving DecidableEq, Repr

abbrev ReceiveResult := Except ReceiveError (Option RawFrame)

/-- How the reader answers one `read`: `deliver n` hands over at most `n` bytes. -/
inductive ReadStep where
  | fail
  | deliver (n : ℕ)
deriving DecidableEq, Repr

/-- It hands over a byte if there is one. -/
def ReadStep.brings : ReadStep → Bool
  | fail => false
  | deliver n => decide (0 < n)

/-- Frames and frame errors; a read error is the reader's. -/
def frameEvent : ReceiveResult → Option (Except FrameError RawFrame)
  | .ok none | .error .ioError => none
  | .ok (some f) => some (.ok f)
  | .error (.frameError e) => some (.error e)

@[simp] theorem frameEvent_ok_none : frameEvent (.ok none) = none := rfl

/-- What a call returns, what it leaves of the receiver and of the stream. -/
structure Received (max : ℕ) where
  result : ReceiveResult
  receiver : Receiver max
  rest : List U8

section
variable {max : ℕ}

/-- The range of the buffer the next read may fill: offset and length. -/
def readRange (max : ℕ) : State → Option (ℕ × ℕ)
  | .header n => do return (n, ← checkedSub FrameHeader.size n)
  | .payload n h => do return (n, ← checkedSub (h.payloadLength.toNat + 2) n)
  | .discard n h => do return (0, min (← checkedSub (h.payloadLength.toNat + 2) n) max)

/-- The `State::Header` arm, with `total` bytes of header in the buffer. -/
def headerArm (buffer : Buffer max) (total : ℕ) : Option (Buffer max × State) :=
  if total = FrameHeader.size then do
    let bytes ← slice buffer.bytes 0 total
    match FrameHeader.readHeader bytes with
    | .ok (header, _) =>
      if BitVec.ofNat 16 (← checkedSub max 2) < header.payloadLength then
        return (buffer, .discard 0 header)
      else return (buffer, .payload 0 header)
    | .error (.noFrameMarker, _) => return (buffer, .header 0)
    | .error (.insufficientLength, markerOffset) =>
      let remaining ← checkedSub total markerOffset
      let moved ← slice buffer.bytes markerOffset total
      return (← buffer.store 0 moved, .header remaining)
    | .error _ => return (buffer, .header 0)
  else some (buffer, .header total)

/-- The `State::Payload` arm. -/
def payloadArm (crc : Digest) (buffer : Buffer max) (total : ℕ) (header : FrameHeader) :
    Option (ReceiveResult × State) :=
  if total = header.payloadLength.toNat + 2 then do
    let bytes ← slice buffer.bytes 0 total
    match ← RawFrame.readFramePayload crc header bytes with
    | .ok (frame, _) => return (.ok (some frame), .header 0)
    | .error e => return (.error (.frameError e), .header 0)
  else some (.ok none, .payload total header)

/-- The `State::Discard` arm; `total` is the size of the read just made. -/
def discardArm (total : ℕ) (header : FrameHeader) : State :=
  if total = header.payloadLength.toNat + 2 then .header 0 else .discard total header

/-- The `match` on the state after a read that brought the count to `total`. -/
def advance (crc : Digest) (r : Receiver max) (total : ℕ) :
    Option (ReceiveResult × Receiver max) :=
  match r.state with
  | .header _ => do
      let (buffer, next) ← headerArm r.receiveBuffer total
      return (.ok none, ⟨next, buffer⟩)
  | .payload _ header => do
      let (result, next) ← payloadArm crc r.receiveBuffer total header
      return (result, ⟨next, r.receiveBuffer⟩)
  | .discard _ header => some (.ok none, ⟨discardArm total header, r.receiveBuffer⟩)

def Receiver.receive (crc : Digest) (r : Receiver max) (answer : ReadStep) (stream : List U8) :
    Option (Received max) := do
  let (offset, bytesToRead) ← readRange max r.state
  let _ ← slice r.receiveBuffer.bytes offset (offset + bytesToRead)
  match answer with
  | .fail => return ⟨.error .ioError, r, stream⟩
  | .deliver n =>
    let got := stream.take (min n bytesToRead)
    let rest := stream.drop (min n bytesToRead)
    let buffer ← r.receiveBuffer.store offset got
    if 0 < bytesToRead ∧ got.length = 0 then return ⟨.ok none, ⟨r.state, buffer⟩, rest⟩
    else
      let (result, receiver) ← advance crc ⟨r.state, buffer⟩ (offset + got.length)
      return ⟨result, receiver, rest⟩

end

/-! ## The receiver byte by byte -/

inductive Scan where
  | header (seen : List U8)
  | payload (header : FrameHeader) (seen : List U8)
  | deaf
deriving DecidableEq, Repr

namespace Scan

/-- A window of six bytes opens a frame, is shifted to its marker, or is dropped. -/
def ofWindow (max : ℕ) (window : List U8) : Scan :=
  match FrameHeader.readHeader window with
  | .ok (h, _) => if h.payloadLength.toNat + 2 ≤ max then .payload h [] else .deaf
  | .error (.insufficientLength, offset) => .header (window.drop offset)
  | .error _ => .header []

def step (max : ℕ) : Scan → U8 → Scan
  | .header seen, b =>
    if seen.length + 1 = FrameHeader.size then ofWindow max (seen ++ [b]) else .header (seen ++ [b])
  | .payload h seen, b =>
    if seen.length + 1 = h.payloadLength.toNat + 2 then .header [] else .payload h (seen ++ [b])
  | .deaf, _ => .deaf

/-- A complete body is a frame or a checksum error. -/
def emit (crc : Digest) : Scan → U8 → Option (Except FrameError RawFrame)
  | .payload h seen, b =>
    if seen.length + 1 = h.payloadLength.toNat + 2 then
      (RawFrame.readFramePayload crc h (seen ++ [b])).map (·.map Prod.fst)
    else none
  | _, _ => none

end Scan

def scanner (crc : Digest) (max : ℕ) : Transducer Scan U8 (Except FrameError RawFrame) :=
  ⟨Scan.step max, Scan.emit crc⟩

section
variable (crc : Digest) (max : ℕ)

theorem scan_header (seen bytes : List U8)
    (h : seen.length + bytes.length < FrameHeader.size) :
    (scanner crc max).run (.header seen) bytes = .header (seen ++ bytes) ∧
      (scanner crc max).output (.header seen) bytes = [] := by
  induction bytes generalizing seen with
  | nil => simp
  | cons b bytes ih =>
      simp only [List.length_cons] at h
      have hs : (scanner crc max).step (.header seen) b = .header (seen ++ [b]) :=
        if_neg (by omega)
      have hr := ih (seen ++ [b]) (by simp; omega)
      simp only [Transducer.run_cons, Transducer.output_cons, hs, hr]
      simp [scanner, Scan.emit]

theorem scan_window (seen bytes : List U8) (hpos : 0 < bytes.length)
    (h : seen.length + bytes.length = FrameHeader.size) :
    (scanner crc max).run (.header seen) bytes = Scan.ofWindow max (seen ++ bytes) ∧
      (scanner crc max).output (.header seen) bytes = [] := by
  obtain ⟨init, b, rfl⟩ := List.eq_nil_or_concat' bytes |>.resolve_left
    (List.length_pos_iff.mp hpos)
  simp only [List.length_append, List.length_singleton] at h
  have hi := scan_header crc max seen init (by omega)
  have hs : (scanner crc max).step (.header (seen ++ init)) b =
      Scan.ofWindow max (seen ++ init ++ [b]) := if_pos (by simp; omega)
  constructor
  · rw [Transducer.run_append, hi.1, Transducer.run_cons, hs, List.append_assoc]
    rfl
  · rw [Transducer.output_append, hi.1, hi.2]
    rfl

theorem scan_payload (h : FrameHeader) (seen bytes : List U8)
    (hl : seen.length + bytes.length < h.payloadLength.toNat + 2) :
    (scanner crc max).run (.payload h seen) bytes = .payload h (seen ++ bytes) ∧
      (scanner crc max).output (.payload h seen) bytes = [] := by
  induction bytes generalizing seen with
  | nil => simp
  | cons b bytes ih =>
      simp only [List.length_cons] at hl
      have hne : seen.length + 1 ≠ h.payloadLength.toNat + 2 := by omega
      have hs : (scanner crc max).step (.payload h seen) b = .payload h (seen ++ [b]) :=
        if_neg hne
      have he : (scanner crc max).emit (.payload h seen) b = none := if_neg hne
      have hr := ih (seen ++ [b]) (by simp; omega)
      simp only [Transducer.run_cons, Transducer.output_cons, hs, he, hr]
      simp

theorem scan_body (h : FrameHeader) (seen bytes : List U8) (hpos : 0 < bytes.length)
    (hl : seen.length + bytes.length = h.payloadLength.toNat + 2) :
    (scanner crc max).run (.payload h seen) bytes = .header [] ∧
      (scanner crc max).output (.payload h seen) bytes =
        ((RawFrame.readFramePayload crc h (seen ++ bytes)).map (·.map Prod.fst)).toList := by
  obtain ⟨init, b, rfl⟩ := List.eq_nil_or_concat' bytes |>.resolve_left
    (List.length_pos_iff.mp hpos)
  simp only [List.length_append, List.length_singleton] at hl
  have hi := scan_payload crc max h seen init (by omega)
  have hlast : (seen ++ init).length + 1 = h.payloadLength.toNat + 2 := by simp; omega
  have hs : (scanner crc max).step (.payload h (seen ++ init)) b = .header [] := if_pos hlast
  have he : (scanner crc max).emit (.payload h (seen ++ init)) b =
      (RawFrame.readFramePayload crc h (seen ++ init ++ [b])).map (·.map Prod.fst) :=
    if_pos hlast
  constructor
  · rw [Transducer.run_append, hi.1, Transducer.run_cons, hs]
    rfl
  · rw [Transducer.output_append, hi.1, hi.2, Transducer.output_cons, he, List.append_assoc]
    simp

theorem scan_deaf (bytes : List U8) :
    (scanner crc max).run .deaf bytes = .deaf ∧ (scanner crc max).output .deaf bytes = [] :=
  Transducer.absorbing _ (fun _ => rfl) (fun _ => rfl) bytes

end

/-! ## One call does what the scan does on the bytes it read -/

/-- The 16-bit limit the program compares with refuses exactly the bodies that
are longer than the buffer. -/
def LimitExact (max : ℕ) : Prop := max ≤ 65537 ∨ (max - 2) % 65536 = 65535

instance (max : ℕ) : Decidable (LimitExact max) := inferInstanceAs (Decidable (_ ∨ _))

/-- The longest body the 16-bit limit lets through, checksum included. -/
def sizeLimit (max : ℕ) : ℕ := (max - 2) % 65536 + 2

theorem limit_lt_iff (max : ℕ) (len : U16) :
    BitVec.ofNat 16 (max - 2) < len ↔ sizeLimit max < len.toNat + 2 := by
  rw [BitVec.lt_def, BitVec.toNat_ofNat, sizeLimit]
  omega

theorem sizeLimit_le {max : ℕ} (hm : 2 ≤ max) : sizeLimit max ≤ max := by
  have := Nat.mod_le (max - 2) 65536
  unfold sizeLimit
  omega

theorem LimitExact.lt_iff {max : ℕ} (hx : LimitExact max) (hm : 2 ≤ max) (len : U16) :
    sizeLimit max < len.toNat + 2 ↔ max < len.toNat + 2 := by
  have hl := len.isLt
  unfold sizeLimit
  rcases hx with h | h <;> omega

/-- With an exact limit the scan of the buffer is the scan of the limit. -/
theorem LimitExact.scanner {max : ℕ} (hx : LimitExact max) (hm : 2 ≤ max) (crc : Digest) :
    scanner crc (sizeLimit max) = scanner crc max := by
  have hw : Scan.ofWindow (sizeLimit max) = Scan.ofWindow max := by
    funext window
    unfold Scan.ofWindow
    simp only [← Nat.not_lt, hx.lt_iff hm]
  have hs : Scan.step (sizeLimit max) = Scan.step max := by
    funext s b
    cases s <;> simp only [Scan.step, hw]
  rw [FwtoolReceiver.scanner, FwtoolReceiver.scanner, hs]

/-- The state names the scan's, and the buffer starts with the bytes it has seen. -/
def Agrees {max : ℕ} (r : Receiver max) : Scan → Prop
  | .header seen => r.state = .header seen.length ∧ seen.length < FrameHeader.size ∧
      r.receiveBuffer.bytes.take seen.length = seen
  | .payload h seen => r.state = .payload seen.length h ∧
      seen.length < h.payloadLength.toNat + 2 ∧ h.payloadLength.toNat + 2 ≤ max ∧
      r.receiveBuffer.bytes.take seen.length = seen
  | .deaf => ∃ n h, r.state = .discard n h ∧ n ≤ max ∧ max < h.payloadLength.toNat + 2

/-- The same, with a discard that has just begun for the deaf scan. -/
def Enters {max : ℕ} (r : Receiver max) : Scan → Prop
  | .deaf => ∃ h, r.state = .discard 0 h ∧ sizeLimit max < h.payloadLength.toNat + 2
  | s => Agrees r s

theorem Enters.agrees {max : ℕ} {r : Receiver max} {s : Scan} (h : Enters r s)
    (hs : s ≠ .deaf) : Agrees r s := by
  cases s with
  | deaf => exact absurd rfl hs
  | _ => exact h

theorem Enters.agrees_of_exact {max : ℕ} (hx : LimitExact max) (hm : 2 ≤ max) {r : Receiver max}
    {s : Scan} (h : Enters r s) : Agrees r s := by
  cases s with
  | deaf =>
    obtain ⟨hd, hr, hbig⟩ := h
    exact ⟨0, hd, hr, Nat.zero_le _, (hx.lt_iff hm _).mp hbig⟩
  | _ => exact h

theorem agrees_header_zero {max : ℕ} (b : Buffer max) : Agrees ⟨.header 0, b⟩ (.header []) :=
  ⟨rfl, by decide, rfl⟩

theorem agrees_new (max : ℕ) : Agrees (Receiver.new max) (.header []) := agrees_header_zero _

section
variable {max : ℕ} (crc : Digest)

theorem headerArm_partial {buffer : Buffer max} {total : ℕ} (h : total < FrameHeader.size) :
    headerArm buffer total = some (buffer, .header total) := if_neg (by omega)

/-- With a full window the arm does what `ofWindow` does; in particular none of
its slices and subtractions fails. -/
theorem headerArm_window (hm : FrameHeader.size ≤ max) {buffer : Buffer max}
    {window : List U8} (hl : window.length = FrameHeader.size)
    (hw : buffer.bytes.take FrameHeader.size = window) :
    ∃ buffer' next, headerArm buffer FrameHeader.size = some (buffer', next) ∧
      Enters ⟨next, buffer'⟩ (Scan.ofWindow (sizeLimit max) window) := by
  have hsize : FrameHeader.size = 6 := rfl
  have hs : slice buffer.bytes 0 FrameHeader.size = some window := by
    rw [buffer.slice_eq (Nat.zero_le _) (by omega), hw, List.drop_zero]
  have hsub : checkedSub max 2 = some (max - 2) := checkedSub_eq (by omega)
  unfold headerArm Scan.ofWindow
  rw [if_pos rfl, hs]
  simp only [Option.bind_eq_bind, Option.bind_some]
  cases hr : FrameHeader.readHeader window with
  | ok v =>
    obtain ⟨h, o⟩ := v
    simp only [hsub, Option.bind_some, limit_lt_iff]
    by_cases hbig : sizeLimit max < h.payloadLength.toNat + 2
    · rw [if_pos hbig, if_neg (by omega)]
      exact ⟨buffer, .discard 0 h, rfl, h, rfl, hbig⟩
    · have hle := sizeLimit_le (show 2 ≤ max by omega)
      rw [if_neg hbig, if_pos (by omega)]
      exact ⟨buffer, .payload 0 h, rfl, rfl, by simp, by omega, rfl⟩
  | error v =>
    obtain ⟨e, m⟩ := v
    cases e with
    | insufficientLength =>
      -- the window moves to its marker, which was not in front
      obtain ⟨hpos, hlt⟩ := FrameHeader.readHeader_insufficient hl hr
      have hmv : slice buffer.bytes m FrameHeader.size = some (window.drop m) := by
        rw [buffer.slice_eq (Nat.le_of_lt hlt) (by omega), hw]
      obtain ⟨b', hb, ht⟩ := buffer.store_take 0 (window.drop m)
        (by rw [List.length_drop]; omega)
      have hd : (window.drop m).length = FrameHeader.size - m := by rw [List.length_drop, hl]
      simp only [checkedSub_eq (Nat.le_of_lt hlt), hmv, hb, Option.bind_some]
      refine ⟨b', _, rfl, ?_, ?_, ?_⟩
      · rw [hd]
      · rw [hd]; omega
      · simpa using ht
    | noFrameMarker => exact ⟨buffer, _, rfl, agrees_header_zero buffer⟩
    | invalidFrameType => exact ⟨buffer, _, rfl, agrees_header_zero buffer⟩
    | invalidLength => exact ⟨buffer, _, rfl, agrees_header_zero buffer⟩
    | crcMismatch _ _ _ => exact ⟨buffer, _, rfl, agrees_header_zero buffer⟩

/-- The result that reports an event of the scan. -/
def resultOf : Option (Except FrameError RawFrame) → ReceiveResult
  | none => .ok none
  | some (.ok f) => .ok (some f)
  | some (.error e) => .error (.frameError e)

theorem payloadArm_partial {buffer : Buffer max} {total : ℕ} {h : FrameHeader}
    (hl : total < h.payloadLength.toNat + 2) :
    payloadArm crc buffer total h = some (.ok none, .payload total h) := if_neg (by omega)

theorem payloadArm_body {buffer : Buffer max} {h : FrameHeader} {body : List U8}
    (hm : h.payloadLength.toNat + 2 ≤ max) (hl : body.length = h.payloadLength.toNat + 2)
    (hb : buffer.bytes.take (h.payloadLength.toNat + 2) = body) :
    payloadArm crc buffer (h.payloadLength.toNat + 2) h = some
      (resultOf ((RawFrame.readFramePayload crc h body).map (·.map Prod.fst)), .header 0) := by
  have hs : slice buffer.bytes 0 (h.payloadLength.toNat + 2) = some body := by
    rw [buffer.slice_eq (Nat.zero_le _) hm, hb, List.drop_zero]
  obtain ⟨a, b, -, hr⟩ := RawFrame.readFramePayload_total crc hl
  simp only [payloadArm, if_pos, hs, hr, Option.bind_eq_bind, Option.bind_some, Option.map_some]
  unfold checkCrc
  split_ifs <;> rfl

theorem readRange_header {n : ℕ} (h : n ≤ FrameHeader.size) :
    readRange max (.header n) = some (n, FrameHeader.size - n) := by
  rw [readRange, checkedSub_eq h]
  rfl

theorem readRange_payload {n : ℕ} {h : FrameHeader} (hn : n ≤ h.payloadLength.toNat + 2) :
    readRange max (.payload n h) = some (n, h.payloadLength.toNat + 2 - n) := by
  rw [readRange, checkedSub_eq hn]
  rfl

theorem readRange_discard {n : ℕ} {h : FrameHeader} (hn : n ≤ h.payloadLength.toNat + 2) :
    readRange max (.discard n h) = some (0, min (h.payloadLength.toNat + 2 - n) max) := by
  rw [readRange, checkedSub_eq hn]
  rfl

/-- The range of the next read lies in the buffer. -/
theorem readRange_fits (hm : FrameHeader.size ≤ max) {r : Receiver max} {s : Scan}
    (h : Agrees r s) :
    ∃ offset length, readRange max r.state = some (offset, length) ∧ 0 < length ∧
      offset + length ≤ max := by
  have hsize : FrameHeader.size = 6 := rfl
  cases s with
  | header seen =>
    obtain ⟨hs, hl, -⟩ := h
    exact ⟨_, _, hs ▸ readRange_header (Nat.le_of_lt hl), by omega, by omega⟩
  | payload hd seen =>
    obtain ⟨hs, hl, hfit, -⟩ := h
    exact ⟨_, _, hs ▸ readRange_payload (Nat.le_of_lt hl), by omega, by omega⟩
  | deaf =>
    obtain ⟨n, hd, hs, hn, hbig⟩ := h
    exact ⟨_, _, hs ▸ readRange_discard (by omega), by omega, by omega⟩

theorem receive_fail {r : Receiver max} {offset length : ℕ} (stream : List U8)
    (hr : readRange max r.state = some (offset, length)) (hfit : offset + length ≤ max) :
    r.receive crc .fail stream = some ⟨.error .ioError, r, stream⟩ := by
  simp [Receiver.receive, hr, r.receiveBuffer.slice_eq (Nat.le_add_right _ _) hfit]

/-- A read of no bytes changes nothing. -/
theorem receive_empty {r : Receiver max} {offset length n : ℕ} {stream : List U8}
    (hr : readRange max r.state = some (offset, length)) (hpos : 0 < length)
    (hfit : offset + length ≤ max) (hgot : stream.take (min n length) = []) :
    r.receive crc (.deliver n) stream = some ⟨.ok none, r, stream⟩ := by
  have hrest : stream.drop (min n length) = stream := by
    simpa [hgot] using List.take_append_drop (min n length) stream
  unfold Receiver.receive
  rw [hr]
  simp only [Option.bind_eq_bind, Option.bind_some,
    r.receiveBuffer.slice_eq (Nat.le_add_right _ _) hfit, hgot, hrest,
    r.receiveBuffer.store_nil (show offset ≤ max by omega)]
  rw [if_pos ⟨hpos, List.length_nil⟩]
  rfl

/-- A read of some bytes appends them to what the buffer held and acts. -/
theorem receive_some {r : Receiver max} {offset length n : ℕ} {stream got : List U8}
    (hr : readRange max r.state = some (offset, length))
    (hfit : offset + length ≤ max) (hgot : stream.take (min n length) = got)
    (hne : 0 < got.length) :
    ∃ buffer, buffer.bytes.take (offset + got.length) =
        r.receiveBuffer.bytes.take offset ++ got ∧
      r.receive crc (.deliver n) stream =
        (advance crc ⟨r.state, buffer⟩ (offset + got.length)).map fun v =>
          ⟨v.1, v.2, stream.drop (min n length)⟩ := by
  have hlen : got.length ≤ length := by
    rw [← hgot, List.length_take]
    omega
  obtain ⟨buffer, hstore, htake⟩ := r.receiveBuffer.store_take offset got
    (by omega)
  refine ⟨buffer, htake, ?_⟩
  unfold Receiver.receive
  rw [hr]
  simp only [Option.bind_eq_bind, Option.bind_some,
    r.receiveBuffer.slice_eq (Nat.le_add_right _ _) hfit, hgot, hstore]
  rw [if_neg (by omega)]
  cases advance crc ⟨r.state, buffer⟩ (offset + got.length) <;> rfl

/-- The arms together, on a nonempty read that stays within the range asked for. -/
theorem advance_enters (hm : FrameHeader.size ≤ max) {r : Receiver max} {s : Scan}
    (h : Agrees r s) (hlive : s ≠ .deaf) {offset length : ℕ}
    (hr : readRange max r.state = some (offset, length))
    {buffer : Buffer max} {got : List U8} (hpos : 0 < got.length) (hle : got.length ≤ length)
    (hb : buffer.bytes.take (offset + got.length) = r.receiveBuffer.bytes.take offset ++ got) :
    ∃ event next, advance crc ⟨r.state, buffer⟩ (offset + got.length) =
        some (resultOf event, next) ∧
      Enters next ((scanner crc (sizeLimit max)).run s got) ∧
      event.toList = (scanner crc (sizeLimit max)).output s got := by
  have hsize : FrameHeader.size = 6 := rfl
  cases s with
  | deaf => exact absurd rfl hlive
  | header seen =>
    obtain ⟨hs, hl, hseen⟩ := h
    rw [hs, readRange_header (Nat.le_of_lt hl)] at hr
    obtain ⟨rfl, rfl⟩ := Prod.mk.inj (Option.some.inj hr)
    rw [hseen] at hb
    rcases Nat.lt_or_ge (seen.length + got.length) FrameHeader.size with hlt | hge
    · obtain ⟨hrun, hout⟩ := scan_header crc (sizeLimit max) seen got hlt
      refine ⟨none, ⟨.header (seen.length + got.length), buffer⟩, ?_, ?_, hout.symm⟩
      · simp only [hs, advance, headerArm_partial hlt]
        rfl
      · rw [hrun]
        exact ⟨by simp, by simpa using hlt, by simpa using hb⟩
    · have hfull : seen.length + got.length = FrameHeader.size := by omega
      obtain ⟨hrun, hout⟩ := scan_window crc (sizeLimit max) seen got hpos hfull
      rw [hfull] at hb ⊢
      obtain ⟨buffer', next, harm, henters⟩ := headerArm_window hm
        (show (seen ++ got).length = FrameHeader.size by simpa using hfull) hb
      refine ⟨none, ⟨next, buffer'⟩, ?_, hrun ▸ henters, hout.symm⟩
      simp only [hs, advance, harm]
      rfl
  | payload hd seen =>
    obtain ⟨hs, hl, hfit, hseen⟩ := h
    rw [hs, readRange_payload (Nat.le_of_lt hl)] at hr
    obtain ⟨rfl, rfl⟩ := Prod.mk.inj (Option.some.inj hr)
    rw [hseen] at hb
    rcases Nat.lt_or_ge (seen.length + got.length) (hd.payloadLength.toNat + 2) with hlt | hge
    · obtain ⟨hrun, hout⟩ := scan_payload crc (sizeLimit max) hd seen got hlt
      refine ⟨none, ⟨.payload (seen.length + got.length) hd, buffer⟩, ?_, ?_, hout.symm⟩
      · simp only [hs, advance, payloadArm_partial crc hlt]
        rfl
      · rw [hrun]
        exact ⟨by simp, by simpa using hlt, hfit, by simpa using hb⟩
    · have hfull : seen.length + got.length = hd.payloadLength.toNat + 2 := by omega
      obtain ⟨hrun, hout⟩ := scan_body crc (sizeLimit max) hd seen got hpos hfull
      rw [hfull] at hb ⊢
      have harm := payloadArm_body crc hfit
        (show (seen ++ got).length = hd.payloadLength.toNat + 2 by simpa using hfull) hb
      refine ⟨_, ⟨.header 0, buffer⟩, ?_, hrun ▸ agrees_header_zero buffer, hout.symm⟩
      simp only [hs, advance, harm]
      rfl

theorem advance_agrees (hm : FrameHeader.size ≤ max) (hx : LimitExact max) {r : Receiver max}
    {s : Scan} (h : Agrees r s) {offset length : ℕ}
    (hr : readRange max r.state = some (offset, length))
    {buffer : Buffer max} {got : List U8} (hpos : 0 < got.length) (hle : got.length ≤ length)
    (hb : buffer.bytes.take (offset + got.length) = r.receiveBuffer.bytes.take offset ++ got) :
    ∃ event next, advance crc ⟨r.state, buffer⟩ (offset + got.length) =
        some (resultOf event, next) ∧ Agrees next ((scanner crc max).run s got) ∧
      event.toList = (scanner crc max).output s got := by
  have hsize : FrameHeader.size = 6 := rfl
  by_cases hlive : s = .deaf
  · subst hlive
    obtain ⟨n, hd, hs, hn, hbig⟩ := h
    rw [hs, readRange_discard (by omega)] at hr
    obtain ⟨rfl, rfl⟩ := Prod.mk.inj (Option.some.inj hr)
    obtain ⟨hrun, hout⟩ := scan_deaf crc max got
    -- one read never brings a whole oversize body, so the count never matches
    have hne : ¬ 0 + got.length = hd.payloadLength.toNat + 2 := by omega
    refine ⟨none, ⟨.discard (0 + got.length) hd, buffer⟩, ?_, ?_, hout.symm⟩
    · simp only [hs, advance, discardArm, if_neg hne]
      rfl
    · rw [hrun]
      exact ⟨_, hd, rfl, by omega, hbig⟩
  · obtain ⟨event, next, hadv, henters, hout⟩ := advance_enters crc hm h hlive hr hpos hle hb
    rw [hx.scanner (by omega) crc] at henters hout
    exact ⟨event, next, hadv, henters.agrees_of_exact hx (by omega), hout⟩

/-- A call on a range that fits does what the arms do on what was read. -/
theorem receive_of_advance {T : Transducer Scan U8 (Except FrameError RawFrame)}
    {R : Receiver max → Scan → Prop} {r : Receiver max} {s : Scan} (h : R r s)
    {offset length : ℕ} (hr : readRange max r.state = some (offset, length)) (hpos : 0 < length)
    (hfit : offset + length ≤ max)
    (hadvance : ∀ {buffer : Buffer max} {got : List U8}, 0 < got.length → got.length ≤ length →
      buffer.bytes.take (offset + got.length) = r.receiveBuffer.bytes.take offset ++ got →
      ∃ event next, advance crc ⟨r.state, buffer⟩ (offset + got.length) =
        some (resultOf event, next) ∧ R next (T.run s got) ∧ event.toList = T.output s got)
    (answer : ReadStep) (stream : List U8) :
    ∃ v taken, r.receive crc answer stream = some v ∧ stream = taken ++ v.rest ∧
      R v.receiver (T.run s taken) ∧ (frameEvent v.result).toList = T.output s taken ∧
      (v.result = .error .ioError → answer = .fail) := by
  cases answer with
  | fail => exact ⟨_, [], receive_fail crc stream hr hfit, rfl, h, rfl, fun _ => rfl⟩
  | deliver n =>
    rcases Nat.eq_zero_or_pos (stream.take (min n length)).length with h0 | hne
    · have hgot := List.eq_nil_of_length_eq_zero h0
      exact ⟨_, [], receive_empty crc hr hpos hfit hgot, rfl, h, rfl, nofun⟩
    · obtain ⟨buffer, hb, hrec⟩ := receive_some crc hr hfit rfl hne
      have hle : (stream.take (min n length)).length ≤ length := by
        rw [List.length_take]
        omega
      obtain ⟨event, next, hadv, hnext, hout⟩ := hadvance hne hle hb
      refine ⟨⟨resultOf event, next, stream.drop (min n length)⟩, _, ?_,
        (List.take_append_drop _ _).symm, hnext, ?_, ?_⟩
      · rw [hrec, hadv]
        rfl
      · rw [← hout]
        rcases event with _ | e | f <;> rfl
      · rcases event with _ | e | f <;> nofun

/-- **One call.** It never fails, consumes a prefix of the stream, does on it
what the scan does, and reports the scan's event. -/
theorem receive_agrees (hm : 8 ≤ max) (hx : LimitExact max) {r : Receiver max} {s : Scan}
    (h : Agrees r s) (answer : ReadStep) (stream : List U8) :
    ∃ v taken, r.receive crc answer stream = some v ∧ stream = taken ++ v.rest ∧
      Agrees v.receiver ((scanner crc max).run s taken) ∧
      (frameEvent v.result).toList = (scanner crc max).output s taken ∧
      (v.result = .error .ioError → answer = .fail) := by
  have hsize : FrameHeader.size ≤ max := Nat.le_trans (by decide) hm
  obtain ⟨offset, length, hr, hpos, hfit⟩ := readRange_fits hsize h
  exact receive_of_advance crc h hr hpos hfit
    (fun hne hle hb => advance_agrees crc hsize hx h hr hne hle hb) answer stream

/-- Whatever the limit, as long as no frame is being discarded. -/
theorem receive_enters (hm : FrameHeader.size ≤ max) {r : Receiver max} {s : Scan}
    (h : Enters r s) (hlive : s ≠ .deaf) (answer : ReadStep) (stream : List U8) :
    ∃ v taken, r.receive crc answer stream = some v ∧ stream = taken ++ v.rest ∧
      Enters v.receiver ((scanner crc (sizeLimit max)).run s taken) ∧
      (frameEvent v.result).toList = (scanner crc (sizeLimit max)).output s taken := by
  obtain ⟨offset, length, hr, hpos, hfit⟩ := readRange_fits hm (h.agrees hlive)
  obtain ⟨v, taken, hv, hs, hnext, hout, -⟩ := receive_of_advance crc h hr hpos hfit
    (fun hne hle hb => advance_enters crc hm (h.agrees hlive) hlive hr hne hle hb) answer stream
  exact ⟨v, taken, hv, hs, hnext, hout⟩

theorem receive_rest {r : Receiver max} {offset length n : ℕ} {stream : List U8}
    {v : Received max} (hr : readRange max r.state = some (offset, length))
    (hv : r.receive crc (.deliver n) stream = some v) : v.rest = stream.drop (min n length) := by
  unfold Receiver.receive at hv
  rw [hr] at hv
  simp only [Option.bind_eq_bind, Option.bind_some] at hv
  obtain ⟨-, -, hv⟩ := Option.bind_eq_some_iff.mp hv
  obtain ⟨buffer, -, hv⟩ := Option.bind_eq_some_iff.mp hv
  split_ifs at hv
  · exact Option.some.inj hv ▸ rfl
  · obtain ⟨next, -, hv⟩ := Option.bind_eq_some_iff.mp hv
    exact Option.some.inj hv ▸ rfl

/-- A call asks for at least one byte and takes what it is given. -/
theorem receive_drop (hm : FrameHeader.size ≤ max) {r : Receiver max} {s : Scan} (h : Agrees r s)
    {n : ℕ} {stream : List U8} {v : Received max}
    (hv : r.receive crc (.deliver n) stream = some v) :
    ∃ k, 0 < k ∧ v.rest = stream.drop (min n k) := by
  obtain ⟨offset, length, hr, hpos, -⟩ := readRange_fits hm h
  exact ⟨length, hpos, receive_rest crc hr hv⟩

/-- A reader that hands over one byte loses one byte. -/
theorem receive_one (hm : 8 ≤ max) {r : Receiver max} {s : Scan} (h : Agrees r s)
    {stream : List U8} {v : Received max} (hv : r.receive crc (.deliver 1) stream = some v) :
    v.rest = stream.drop 1 := by
  obtain ⟨k, hk, hrest⟩ := receive_drop crc (Nat.le_trans (by decide) hm) h hv
  rw [hrest, Nat.min_eq_left hk]

end

/-! ## What bounds the frames of any receiver -/

/-- A read is never finished with, and a body is within the limit. -/
def Reading (max : ℕ) : State → Prop
  | .header n => n < FrameHeader.size
  | .payload n h => n < h.payloadLength.toNat + 2 ∧ h.payloadLength.toNat + 2 ≤ sizeLimit max
  | .discard n h => n < h.payloadLength.toNat + 2

/-- How much of the frame in progress has been read. -/
def held : State → ℕ
  | .header n => n
  | .payload n _ => FrameHeader.size + n
  | .discard _ _ => 0

/-- A frame of a call is within the limit, and made of bytes held or taken. -/
def Bounded (max available : ℕ) (result : ReceiveResult) : Prop :=
  ∀ f, frameEvent result = some (.ok f) → f.header.payloadLength.toNat + 2 ≤ sizeLimit max ∧
    FrameHeader.size + f.header.payloadLength.toNat + 2 ≤ available

section
variable {max : ℕ} {crc : Digest}

theorem headerArm_reading {buffer buffer' : Buffer max} {total : ℕ} {next : State}
    (hle : total ≤ FrameHeader.size) (h : headerArm buffer total = some (buffer', next)) :
    Reading max next ∧ held next ≤ total := by
  unfold headerArm at h
  split_ifs at h with hfull
  · obtain ⟨window, hw, h⟩ := Option.bind_eq_some_iff.mp h
    have hl : window.length = FrameHeader.size := by rw [length_of_slice hw, hfull, Nat.sub_zero]
    cases hr : FrameHeader.readHeader window with
    | ok v =>
      simp only [hr] at h
      obtain ⟨limit, hlimit, h⟩ := Option.bind_eq_some_iff.mp h
      obtain rfl : limit = max - 2 := by
        unfold checkedSub at hlimit
        split_ifs at hlimit
        exact (Option.some.inj hlimit).symm
      simp only [limit_lt_iff] at h
      split_ifs at h with hbig
      · obtain ⟨-, rfl⟩ := Prod.mk.inj (Option.some.inj h)
        exact ⟨Nat.succ_pos _, Nat.zero_le _⟩
      · obtain ⟨-, rfl⟩ := Prod.mk.inj (Option.some.inj h)
        exact ⟨⟨Nat.succ_pos _, Nat.not_lt.mp hbig⟩, Nat.le_of_eq hfull.symm⟩
    | error v =>
      obtain ⟨e, m⟩ := v
      simp only [hr] at h
      cases e with
      | insufficientLength =>
        obtain ⟨hpos, hlt⟩ := FrameHeader.readHeader_insufficient hl hr
        simp only [checkedSub_eq (show m ≤ total by omega), Option.bind_eq_bind,
          Option.bind_some] at h
        obtain ⟨moved, -, h⟩ := Option.bind_eq_some_iff.mp h
        obtain ⟨stored, -, h⟩ := Option.bind_eq_some_iff.mp h
        obtain ⟨-, rfl⟩ := Prod.mk.inj (Option.some.inj h)
        exact ⟨show total - m < FrameHeader.size by omega, Nat.sub_le _ _⟩
      | _ =>
        obtain ⟨-, rfl⟩ := Prod.mk.inj (Option.some.inj h)
        exact ⟨Nat.succ_pos _, Nat.zero_le _⟩
  · obtain ⟨-, rfl⟩ := Prod.mk.inj (Option.some.inj h)
    exact ⟨Nat.lt_of_le_of_ne hle hfull, Nat.le_refl _⟩

theorem payloadArm_reading {buffer : Buffer max} {total : ℕ} {header : FrameHeader}
    {result : ReceiveResult} {next : State} (hle : total ≤ header.payloadLength.toNat + 2)
    (hlimit : header.payloadLength.toNat + 2 ≤ sizeLimit max)
    (h : payloadArm crc buffer total header = some (result, next)) :
    Reading max next ∧ held next ≤ FrameHeader.size + total ∧
      Bounded max (FrameHeader.size + total) result := by
  unfold payloadArm at h
  split_ifs at h with hfull
  · obtain ⟨body, hbody, h⟩ := Option.bind_eq_some_iff.mp h
    obtain ⟨a, b, -, hread⟩ := RawFrame.readFramePayload_total crc
      (show body.length = header.payloadLength.toNat + 2 by
        rw [length_of_slice hbody, hfull, Nat.sub_zero])
    rw [hread] at h
    unfold checkCrc at h
    split_ifs at h
    · obtain ⟨rfl, rfl⟩ := Prod.mk.inj (Option.some.inj h)
      exact ⟨Nat.succ_pos _, Nat.zero_le _, nofun⟩
    · obtain ⟨rfl, rfl⟩ := Prod.mk.inj (Option.some.inj h)
      refine ⟨Nat.succ_pos _, Nat.zero_le _, ?_⟩
      intro f hf
      obtain rfl := Except.ok.inj (Option.some.inj hf)
      exact ⟨hlimit, Nat.le_of_eq (by rw [hfull, Nat.add_assoc])⟩
  · obtain ⟨rfl, rfl⟩ := Prod.mk.inj (Option.some.inj h)
    exact ⟨⟨Nat.lt_of_le_of_ne hle hfull, hlimit⟩, Nat.le_refl _, nofun⟩

theorem advance_reading {r next : Receiver max} {buffer : Buffer max} {result : ReceiveResult}
    {offset length n : ℕ} (hr : Reading max r.state)
    (hrange : readRange max r.state = some (offset, length)) (hle : n ≤ length)
    (h : advance crc ⟨r.state, buffer⟩ (offset + n) = some (result, next)) :
    Reading max next.state ∧ held next.state ≤ held r.state + n ∧
      Bounded max (held r.state + n) result := by
  cases hs : r.state with
  | header k =>
    have hk : k < FrameHeader.size := by simpa [hs, Reading] using hr
    rw [hs, readRange_header (Nat.le_of_lt hk)] at hrange
    obtain ⟨rfl, rfl⟩ := Prod.mk.inj (Option.some.inj hrange)
    simp only [advance, hs] at h
    obtain ⟨⟨buffer', next'⟩, harm, h⟩ := Option.bind_eq_some_iff.mp h
    obtain ⟨rfl, rfl⟩ := Prod.mk.inj (Option.some.inj h)
    obtain ⟨hnext, hheld⟩ := headerArm_reading (by omega) harm
    exact ⟨hnext, hheld, nofun⟩
  | payload k header =>
    obtain ⟨hk, hlimit⟩ : k < header.payloadLength.toNat + 2 ∧
        header.payloadLength.toNat + 2 ≤ sizeLimit max := by simpa [hs, Reading] using hr
    rw [hs, readRange_payload (Nat.le_of_lt hk)] at hrange
    obtain ⟨rfl, rfl⟩ := Prod.mk.inj (Option.some.inj hrange)
    simp only [advance, hs] at h
    obtain ⟨⟨result', next'⟩, harm, h⟩ := Option.bind_eq_some_iff.mp h
    obtain ⟨rfl, rfl⟩ := Prod.mk.inj (Option.some.inj h)
    have harm' := payloadArm_reading (by omega) hlimit harm
    rwa [← Nat.add_assoc] at harm'
  | discard k header =>
    have hk : k < header.payloadLength.toNat + 2 := by simpa [hs, Reading] using hr
    rw [hs, readRange_discard (Nat.le_of_lt hk)] at hrange
    obtain ⟨rfl, rfl⟩ := Prod.mk.inj (Option.some.inj hrange)
    simp only [advance, hs] at h
    obtain ⟨rfl, rfl⟩ := Prod.mk.inj (Option.some.inj h)
    unfold discardArm
    split_ifs with hfull
    · exact ⟨Nat.succ_pos _, Nat.zero_le _, nofun⟩
    · exact ⟨show 0 + n < header.payloadLength.toNat + 2 by omega, Nat.zero_le _, nofun⟩

/-- A receiver counts no byte twice, wherever it is and whatever it reads. -/
theorem receive_reading {r : Receiver max} (hr : Reading max r.state) {answer : ReadStep}
    {stream : List U8} {v : Received max} (h : r.receive crc answer stream = some v) :
    ∃ taken, stream = taken ++ v.rest ∧ Reading max v.receiver.state ∧
      held v.receiver.state ≤ held r.state + taken.length ∧
      Bounded max (held r.state + taken.length) v.result := by
  unfold Receiver.receive at h
  obtain ⟨⟨offset, length⟩, hrange, h⟩ := Option.bind_eq_some_iff.mp h
  obtain ⟨-, -, h⟩ := Option.bind_eq_some_iff.mp h
  cases answer with
  | fail =>
    obtain rfl := Option.some.inj h
    exact ⟨[], rfl, hr, Nat.le_add_right _ _, nofun⟩
  | deliver n =>
    refine ⟨stream.take (min n length), ?_⟩
    obtain ⟨buffer, -, h⟩ := Option.bind_eq_some_iff.mp h
    split_ifs at h
    · obtain rfl := Option.some.inj h
      exact ⟨(List.take_append_drop _ _).symm, hr, Nat.le_add_right _ _, nofun⟩
    · obtain ⟨⟨result, next⟩, hadv, h⟩ := Option.bind_eq_some_iff.mp h
      obtain rfl := Option.some.inj h
      have hle : (stream.take (min n length)).length ≤ length := by
        rw [List.length_take]
        omega
      exact ⟨(List.take_append_drop _ _).symm, advance_reading hr hrange hle hadv⟩

theorem readRange_pos (hm : 0 < max) {s : State} (hs : Reading max s) :
    ∃ offset length, readRange max s = some (offset, length) ∧ 0 < length := by
  cases s with
  | header n => exact ⟨_, _, readRange_header (Nat.le_of_lt hs), Nat.sub_pos_of_lt hs⟩
  | payload n h => exact ⟨_, _, readRange_payload (Nat.le_of_lt hs.1), Nat.sub_pos_of_lt hs.1⟩
  | discard n h =>
    exact ⟨_, _, readRange_discard (Nat.le_of_lt hs), Nat.lt_min.mpr ⟨Nat.sub_pos_of_lt hs, hm⟩⟩

end

end SeccampRiscvCpu.FwtoolReceiver
