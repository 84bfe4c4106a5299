import SeccampRiscvCpu.FwtoolReceiver

/-!
# The firmware-tool server

`server.rs`: one call first hands what is left of the last response to the
writer, and only when nothing is left makes one call of the receiver. A frame
it delivers is answered in place: the handler fills the payload part of the
frame buffer, and header and checksum are written around it.

The handler is a parameter over its own state. It fills the buffer it is lent
and cannot change that buffer's length. `Exchange` records what a call of
`process` asked of the handler and what the handler said, or which error the
server raised without asking.
-/
namespace SeccampRiscvCpu.FwtoolServer
open ByteSlices FwtoolFrame FwtoolReceiver StreamTransducer

structure PendingTransfer where
  offset : ℕ
  remainingBytes : ℕ
deriving DecidableEq, Repr

inductive ServerError where
  | invalidParameter
  | invalidAddress
  | lengthTooLong
  | invalidRequest
  | unknown
deriving DecidableEq, Repr

def ServerError.code : ServerError → U32
  | .invalidParameter => 0x01
  | .invalidAddress => 0x02
  | .lengthTooLong => 0x03
  | .invalidRequest => 0x04
  | .unknown => 0x80

structure ServerHandler (σ : Type) where
  onQueryVersion : σ → Except ServerError U32 × σ
  onReadMemory : σ → U32 → List U8 → Except ServerError Unit × List U8 × σ
  onWriteMemory : σ → U32 → List U8 → Except ServerError Unit × σ
  onRun : σ → U32 → Except ServerError Unit × σ
  readMemory_length : ∀ s address buffer,
    (onReadMemory s address buffer).2.1.length = buffer.length

/-- How the writer answers one `write`: `accept n` takes at most `n` bytes. -/
inductive WriteStep where
  | fail
  | accept (n : ℕ)
deriving DecidableEq, Repr

structure Server (σ : Type) (max : ℕ) where
  handler : σ
  pendingTransfer : Option PendingTransfer
  frameBuffer : Buffer max
  receiver : Receiver max

def Server.new {σ : Type} (max : ℕ) (handler : σ) : Server σ max :=
  ⟨handler, none, .zero max, Receiver.new max⟩

/-- One question to the handler with its answer; a successful read shows the
lent buffer after the call. -/
inductive Exchange where
  | queryVersion (result : Except ServerError U32)
  | readMemory (address : U32) (buffer : List U8) (result : Except ServerError (List U8))
  | writeMemory (address : U32) (data : List U8) (result : Except ServerError Unit)
  | run (address : U32) (result : Except ServerError Unit)
  | refused (error : ServerError)

/-- What the inner block of `process` leaves: the response frame and the payload
part of the buffer it was built in. -/
structure Response (σ : Type) where
  handler : σ
  payloadBuffer : List U8
  frame : Frame
  exchange : Exchange

/-- A filled frame buffer, ready to be sent. -/
structure Reply (σ : Type) (max : ℕ) where
  handler : σ
  frameBuffer : Buffer max
  transfer : PendingTransfer
  exchange : Exchange

/-- What one call gave to the writer, and the frame it answered. -/
structure Turn where
  written : List U8
  exchange : Option (RawFrame × Exchange)

section
variable {σ : Type} {max : ℕ}

/-- The pending transfer, first thing in `process`. -/
def Server.flush (s : Server σ max) (answer : WriteStep) :
    Option (List U8 × Option PendingTransfer) :=
  match s.pendingTransfer with
  | none => some ([], none)
  | some transfer => do
    let bytes ← slice s.frameBuffer.bytes transfer.offset
      (transfer.offset + transfer.remainingBytes)
    match answer with
    | .fail => return ([], some transfer)
    | .accept n =>
      let written := bytes.take n
      let remainingBytes ← checkedSub transfer.remainingBytes written.length
      if remainingBytes = 0 then return (written, none)
      else return (written, some ⟨transfer.offset + written.length, remainingBytes⟩)

def makeErrorResponse (frameNumber : U16) (error : ServerError) (buffer : List U8) :
    Option RawFrame :=
  (ErrorResponseFrame.new frameNumber buffer error.code).toOption

/-- The arms that answer with an error. -/
def errorReply (frameNumber : U16) (handler : σ) (payloadBuffer : List U8)
    (error : ServerError) (exchange : Exchange) : Option (Response σ) := do
  let raw ← makeErrorResponse frameNumber error payloadBuffer
  return ⟨handler, raw.payload, .errorResponse raw, exchange⟩

/-- The `match` on the request, over the payload part of the frame buffer. -/
def respond (H : ServerHandler σ) (max : ℕ) (handler : σ) (payloadBuffer : List U8)
    (frame : Frame) : Option (Response σ) :=
  let frameNumber := frame.frameHeader.frameNumber
  match frame with
  | .queryVersionRequest _ =>
    match H.onQueryVersion handler with
    | (.ok version, handler) => do
      let maxPayloadSize ← checkedSub max (FrameHeader.size + 2)
      let raw ← (QueryVersionResponseFrame.new frameNumber payloadBuffer version
        (.ofNat 16 maxPayloadSize)).toOption
      return ⟨handler, raw.payload, .queryVersionResponse raw, .queryVersion (.ok version)⟩
    | (.error e, handler) =>
      errorReply frameNumber handler payloadBuffer e (.queryVersion (.error e))
  | .readMemoryRequest request => do
    let length ← ReadMemoryRequestFrame.length request
    if (← checkedSub max 2) < length.toNat then
      errorReply frameNumber handler payloadBuffer .lengthTooLong (.refused .lengthTooLong)
    else
      let buffer ← slice payloadBuffer 0 length.toNat
      let address ← ReadMemoryRequestFrame.address request
      match H.onReadMemory handler address buffer with
      | (.ok (), data, handler) =>
        let raw ← (ReadMemoryResponseFrame.new frameNumber data).toOption
        return ⟨handler, overwrite payloadBuffer 0 data, .readMemoryResponse raw,
          .readMemory address buffer (.ok data)⟩
      | (.error e, data, handler) =>
        errorReply frameNumber handler (overwrite payloadBuffer 0 data) e
          (.readMemory address buffer (.error e))
  | .writeMemoryRequest request => do
    let address ← WriteMemoryRequestFrame.address request
    let data ← WriteMemoryRequestFrame.data request
    match H.onWriteMemory handler address data with
    | (.ok (), handler) =>
      let raw ← (WriteMemoryResponseFrame.new frameNumber).toOption
      return ⟨handler, payloadBuffer, .writeMemoryResponse raw,
        .writeMemory address data (.ok ())⟩
    | (.error e, handler) =>
      errorReply frameNumber handler payloadBuffer e (.writeMemory address data (.error e))
  | .runRequest request => do
    let address ← RunRequestFrame.address request
    match H.onRun handler address with
    | (.ok (), handler) =>
      let raw ← (RunResponseFrame.new frameNumber).toOption
      return ⟨handler, payloadBuffer, .runResponse raw, .run address (.ok ())⟩
    | (.error e, handler) =>
      errorReply frameNumber handler payloadBuffer e (.run address (.error e))
  | _ => errorReply frameNumber handler payloadBuffer .invalidRequest (.refused .invalidRequest)

/-- Header and checksum around the payload already in the buffer. -/
def assemble (crc : Digest) (frameBuffer : Buffer max) (response : Response σ) :
    Option (Reply σ max) := do
  let raw := response.frame.toRaw
  let checksum ← raw.calculateCrc crc
  let payloadLength := raw.header.payloadLength.toNat
  let buffer ← frameBuffer.store FrameHeader.size response.payloadBuffer
  let buffer ← buffer.store 0 [frameMarker]
  let buffer ← buffer.store 1 raw.header.toBytes
  let buffer ← buffer.store (6 + payloadLength) (be16 checksum)
  return ⟨response.handler, buffer, ⟨0, 6 + payloadLength + 2⟩, response.exchange⟩

/-- From `split_at_mut` to the new pending transfer. -/
def reply (crc : Digest) (H : ServerHandler σ) (handler : σ) (frameBuffer : Buffer max)
    (frame : Frame) : Option (Reply σ max) := do
  let payloadBuffer ← slice frameBuffer.bytes FrameHeader.size max
  let response ← respond H max handler payloadBuffer frame
  assemble crc frameBuffer response

/-- The two `if let` around the answer: a frame was delivered, and it is one of
the typed frames. -/
def accepted (result : ReceiveResult) : Option (RawFrame × Frame) :=
  match result with
  | .ok (some raw) => match Frame.tryFrom raw with
    | .ok frame => some (raw, frame)
    | .error _ => none
  | _ => none

def Server.process (crc : Digest) (H : ServerHandler σ) (answers : ReadStep × WriteStep)
    (s : Server σ max) (stream : List U8) : Option (Poll (Server σ max) U8 Turn) := do
  let (written, pendingTransfer) ← s.flush answers.2
  if pendingTransfer.isSome then
    return ⟨{ s with pendingTransfer }, stream, some ⟨written, none⟩⟩
  else
    let received ← s.receiver.receive crc answers.1 stream
    match accepted received.result with
    | none =>
      return ⟨{ s with pendingTransfer, receiver := received.receiver }, received.rest,
        some ⟨written, none⟩⟩
    | some (raw, frame) =>
      let r ← reply crc H s.handler s.frameBuffer frame
      return ⟨⟨r.handler, some r.transfer, r.frameBuffer, received.receiver⟩, received.rest,
        some ⟨written, some (raw, r.exchange)⟩⟩

end

/-! ## What a request is answered with -/

/-- The frame that carries an error; `ErrorResponseFrame::new` gives it the type
of a run response. -/
def errorFrame (frameNumber : U16) (e : ServerError) : RawFrame :=
  ⟨⟨.response .run, frameNumber, 4⟩, be32 e.code⟩

namespace Exchange

/-- The response frame of an exchange: type, frame number and payload. -/
def response (max : ℕ) (frameNumber : U16) : Exchange → RawFrame
  | .queryVersion (.ok version) => ⟨⟨.response .queryVersion, frameNumber, 6⟩,
      be32 version ++ be16 (.ofNat 16 (max - 8))⟩
  | .readMemory _ _ (.ok data) =>
      ⟨⟨.response .readMemory, frameNumber, .ofNat 16 data.length⟩, data⟩
  | .writeMemory _ _ (.ok _) => ⟨⟨.response .writeMemory, frameNumber, 0⟩, []⟩
  | .run _ (.ok _) => ⟨⟨.response .run, frameNumber, 0⟩, []⟩
  | .queryVersion (.error e) | .readMemory _ _ (.error e) | .writeMemory _ _ (.error e)
  | .run _ (.error e) | .refused e => errorFrame frameNumber e

/-- The error an exchange ended with, whoever raised it. -/
def error? : Exchange → Option ServerError
  | .queryVersion (.error e) | .readMemory _ _ (.error e) | .writeMemory _ _ (.error e)
  | .run _ (.error e) | .refused e => some e
  | _ => none

theorem response_of_error {x : Exchange} {e : ServerError} (h : x.error? = some e) (max : ℕ)
    (frameNumber : U16) : x.response max frameNumber = errorFrame frameNumber e := by
  rcases x with (e' | v) | ⟨_, _, e' | d⟩ | ⟨_, _, e' | u⟩ | ⟨_, e' | u⟩ | e' <;>
    simp only [error?, Option.some.injEq, reduceCtorEq] at h <;> subst h <;> rfl

variable {σ : Type}

/-- The exchange is the one call of the handler that the request asks for, with
the request's decoded arguments and the handler's answer. -/
def Calls (H : ServerHandler σ) (frame : Frame) (s s' : σ) : Exchange → Prop
  | .queryVersion result =>
      (∃ raw, frame = .queryVersionRequest raw) ∧ H.onQueryVersion s = (result, s')
  | .readMemory address buffer result => ∃ raw length answer data,
      frame = .readMemoryRequest raw ∧ ReadMemoryRequestFrame.address raw = some address ∧
      ReadMemoryRequestFrame.length raw = some length ∧ buffer.length = length.toNat ∧
      H.onReadMemory s address buffer = (answer, data, s') ∧ result = answer.map fun _ => data
  | .writeMemory address data result => ∃ raw, frame = .writeMemoryRequest raw ∧
      WriteMemoryRequestFrame.address raw = some address ∧
      WriteMemoryRequestFrame.data raw = some data ∧ H.onWriteMemory s address data = (result, s')
  | .run address result => ∃ raw, frame = .runRequest raw ∧
      RunRequestFrame.address raw = some address ∧ H.onRun s address = (result, s')
  | .refused _ => False

/-- The server's own errors. -/
def Refuses (max : ℕ) (frame : Frame) : Exchange → Prop
  | .refused .lengthTooLong => ∃ raw length, frame = .readMemoryRequest raw ∧
      ReadMemoryRequestFrame.length raw = some length ∧ max - 2 < length.toNat
  | .refused .invalidRequest => ∃ t, frame.frameHeader.frameType = .response t
  | _ => False

theorem refuses_cases {max : ℕ} {frame : Frame} {x : Exchange} (h : x.Refuses max frame) :
    (x = .refused .lengthTooLong ∧ ∃ raw length, frame = .readMemoryRequest raw ∧
      ReadMemoryRequestFrame.length raw = some length ∧ max - 2 < length.toNat) ∨
    (x = .refused .invalidRequest ∧ ∃ t, frame.frameHeader.frameType = .response t) := by
  cases x with
  | refused e =>
    cases e with
    | lengthTooLong => exact .inl ⟨rfl, h⟩
    | invalidRequest => exact .inr ⟨rfl, h⟩
    | invalidParameter => exact h.elim
    | invalidAddress => exact h.elim
    | unknown => exact h.elim
  | readMemory address buffer result => exact h.elim
  | queryVersion result => exact h.elim
  | writeMemory address data result => exact h.elim
  | run address result => exact h.elim

end Exchange

/-- A read that is longer than the advertised payload. -/
def LongRead (max : ℕ) (frame : Frame) : Prop :=
  ∃ raw length, frame = .readMemoryRequest raw ∧
    ReadMemoryRequestFrame.length raw = some length ∧ max - 8 < length.toNat

/-- A long read that the server does not refuse. -/
def GapRead (max : ℕ) (frame : Frame) : Prop :=
  ∃ raw length, frame = .readMemoryRequest raw ∧
    ReadMemoryRequestFrame.length raw = some length ∧ max - 8 < length.toNat ∧
    length.toNat ≤ max - 2

/-- The response frame of the exchange stands in the payload buffer and fits. -/
structure Response.Builds {σ : Type} (max : ℕ) (frameNumber : U16) (r : Response σ) : Prop where
  header : r.frame.toRaw.header = (r.exchange.response max frameNumber).header
  length : (r.exchange.response max frameNumber).payload.length =
    (r.exchange.response max frameNumber).header.payloadLength.toNat
  payload : (r.exchange.response max frameNumber).payload <+: r.frame.toRaw.payload
  buffer : (r.exchange.response max frameNumber).payload <+: r.payloadBuffer
  bufferLength : r.payloadBuffer.length = max - 6
  fits : (r.exchange.response max frameNumber).payload.length + 8 ≤ max

section
variable {σ : Type} {max : ℕ} {H : ServerHandler σ}

theorem errorReply_spec (hm : 12 ≤ max) {payloadBuffer : List U8}
    (hl : payloadBuffer.length = max - 6) (frameNumber : U16) (s : σ) {e : ServerError}
    {x : Exchange} (hx : x.error? = some e) :
    ∃ r, errorReply frameNumber s payloadBuffer e x = some r ∧ r.Builds max frameNumber ∧
      r.exchange = x ∧ r.handler = s := by
  have hlen : (be32 e.code).length ≤ payloadBuffer.length := by
    rw [be32_length]
    omega
  obtain ⟨hpre, hlen'⟩ := prefix_overwrite _ _ hlen
  have hx' := x.response_of_error hx max frameNumber
  refine ⟨⟨s, overwrite payloadBuffer 0 (be32 e.code), .errorResponse
    ⟨⟨.response .run, frameNumber, 4⟩, overwrite payloadBuffer 0 (be32 e.code)⟩, x⟩, ?_, ?_,
    rfl, rfl⟩
  · simp only [errorReply, makeErrorResponse, ErrorResponseFrame.new, fillFront_eq hlen]
    rfl
  · constructor <;> simp only [hx', errorFrame]
    · rfl
    · rfl
    · exact hpre
    · exact hpre
    · rw [hlen', hl]
    · simp only [be32_length]
      omega

theorem version_spec (hm : 14 ≤ max) {payloadBuffer : List U8}
    (hl : payloadBuffer.length = max - 6) (raw : RawFrame) (s : σ) :
    ∃ r, respond H max s payloadBuffer (.queryVersionRequest raw) = some r ∧
      r.Builds max raw.header.frameNumber ∧
      r.exchange.Calls H (.queryVersionRequest raw) s r.handler := by
  cases hq : H.onQueryVersion s with
  | mk answer s' =>
    cases answer with
    | error e =>
      obtain ⟨r, hr, hb, hx, hs⟩ := errorReply_spec (by omega) hl raw.header.frameNumber s'
        (x := .queryVersion (.error e)) rfl
      refine ⟨r, ?_, hb, by rw [hx, hs]; exact ⟨⟨raw, rfl⟩, hq⟩⟩
      simp only [respond, hq]
      exact hr
    | ok version =>
      have hlen : (be32 version ++ be16 (.ofNat 16 (max - 8))).length ≤ payloadBuffer.length := by
        simp
        omega
      obtain ⟨hpre, hlen'⟩ := prefix_overwrite _ _ hlen
      refine ⟨⟨s', overwrite payloadBuffer 0 (be32 version ++ be16 (.ofNat 16 (max - 8))),
        .queryVersionResponse ⟨⟨.response .queryVersion, raw.header.frameNumber, 6⟩,
          overwrite payloadBuffer 0 (be32 version ++ be16 (.ofNat 16 (max - 8)))⟩,
        .queryVersion (.ok version)⟩, ?_, ?_, ⟨raw, rfl⟩, hq⟩
      · have hsub : checkedSub max (FrameHeader.size + 2) = some (max - 8) :=
          checkedSub_eq (by simp only [FrameHeader.size]; omega)
        simp only [respond, hq, hsub, QueryVersionResponseFrame.new, Option.bind_eq_bind,
          Option.bind_some, fillFront_eq hlen]
        rfl
      · constructor <;> simp only [Exchange.response]
        · rfl
        · rfl
        · exact hpre
        · exact hpre
        · rw [hlen', hl]
        · simp
          omega

theorem read_spec (hm : 14 ≤ max) (hx : max ≤ 65535) {payloadBuffer : List U8}
    (hl : payloadBuffer.length = max - 6) {raw : RawFrame} {address : U32} {length : U16}
    (ha : ReadMemoryRequestFrame.address raw = some address)
    (hn : ReadMemoryRequestFrame.length raw = some length) (hfit : length.toNat ≤ max - 8)
    {s : σ} :
    ∃ r, respond H max s payloadBuffer (.readMemoryRequest raw) = some r ∧
      r.Builds max raw.header.frameNumber ∧
      r.exchange.Calls H (.readMemoryRequest raw) s r.handler := by
  have hsub : checkedSub max 2 = some (max - 2) := checkedSub_eq (by omega)
  have hslice : slice payloadBuffer 0 length.toNat = some (payloadBuffer.take length.toNat) :=
    slice_eq _ (Nat.zero_le _) (by omega)
  have hlen : (payloadBuffer.take length.toNat).length = length.toNat := by
    rw [List.length_take]
    omega
  have hdata := H.readMemory_length s address (payloadBuffer.take length.toNat)
  cases hq : H.onReadMemory s address (payloadBuffer.take length.toNat) with
  | mk answer rest =>
    obtain ⟨data, s'⟩ := rest
    rw [hq, hlen] at hdata
    simp only at hdata
    obtain ⟨hpre, hlen'⟩ := prefix_overwrite payloadBuffer data (by omega)
    cases answer with
    | error e =>
      obtain ⟨r, hr, hb, he, hs⟩ := errorReply_spec (by omega) (hlen'.trans hl) raw.header.frameNumber s'
        (x := .readMemory address (payloadBuffer.take length.toNat) (.error e)) rfl
      refine ⟨r, ?_, hb, ?_⟩
      · simp only [respond, hn, hsub, Option.bind_eq_bind, Option.bind_some,
          if_neg (show ¬ max - 2 < length.toNat by omega), hslice, ha, hq]
        exact hr
      · rw [he, hs]
        exact ⟨raw, length, _, data, rfl, ha, hn, hlen, hq, rfl⟩
    | ok u =>
      refine ⟨⟨s', overwrite payloadBuffer 0 data, .readMemoryResponse
        ⟨⟨.response .readMemory, raw.header.frameNumber, .ofNat 16 data.length⟩, data⟩,
        .readMemory address (payloadBuffer.take length.toNat) (.ok data)⟩, ?_, ?_,
        raw, length, _, data, rfl, ha, hn, hlen, hq, rfl⟩
      · simp only [respond, hn, hsub, Option.bind_eq_bind, Option.bind_some,
          if_neg (show ¬ max - 2 < length.toNat by omega), hslice, ha, hq,
          ReadMemoryResponseFrame.new]
        rfl
      · constructor <;> simp only [Exchange.response]
        · rfl
        · rw [BitVec.toNat_ofNat, Nat.mod_eq_of_lt (by omega)]
        · exact List.prefix_rfl
        · exact hpre
        · rw [hlen', hl]
        · omega

theorem refuse_spec (hm : 14 ≤ max) {payloadBuffer : List U8}
    (hl : payloadBuffer.length = max - 6) {raw : RawFrame} {length : U16}
    (hn : ReadMemoryRequestFrame.length raw = some length) (hbig : max - 2 < length.toNat)
    {s : σ} :
    ∃ r, respond H max s payloadBuffer (.readMemoryRequest raw) = some r ∧
      r.Builds max raw.header.frameNumber ∧ r.exchange = .refused .lengthTooLong ∧
      r.handler = s := by
  have hsub : checkedSub max 2 = some (max - 2) := checkedSub_eq (by omega)
  obtain ⟨r, hr, hb, he, hs⟩ := errorReply_spec (by omega) hl raw.header.frameNumber s
    (x := .refused .lengthTooLong) rfl
  refine ⟨r, ?_, hb, he, hs⟩
  simp only [respond, hn, hsub, Option.bind_eq_bind, Option.bind_some, if_pos hbig]
  exact hr

theorem errorReply_exchange {frameNumber : U16} {s : σ} {payloadBuffer : List U8}
    {e : ServerError} {x : Exchange} {r : Response σ}
    (h : errorReply frameNumber s payloadBuffer e x = some r) : r.exchange = x := by
  obtain ⟨raw, -, hr⟩ := Option.bind_eq_some_iff.mp h
  exact Option.some.inj hr ▸ rfl

theorem errorReply_header {frameNumber : U16} {s : σ} {payloadBuffer : List U8}
    {e : ServerError} {x : Exchange} {r : Response σ}
    (h : errorReply frameNumber s payloadBuffer e x = some r) :
    r.frame.toRaw.header = ⟨.response .run, frameNumber, 4⟩ := by
  obtain ⟨raw, hraw, hr⟩ := Option.bind_eq_some_iff.mp h
  obtain rfl := Option.some.inj hr
  unfold makeErrorResponse ErrorResponseFrame.new fillFront at hraw
  split_ifs at hraw
  · exact nomatch hraw
  · exact Option.some.inj hraw ▸ rfl

/-- A read in the gap is not refused. -/
theorem gap_not_refused (hm : 14 ≤ max) {payloadBuffer : List U8} {raw : RawFrame} {length : U16}
    (hn : ReadMemoryRequestFrame.length raw = some length) (hle : length.toNat ≤ max - 2)
    {s : σ} {r : Response σ}
    (hr : respond H max s payloadBuffer (.readMemoryRequest raw) = some r) :
    r.exchange ≠ .refused .lengthTooLong := by
  have hsub : checkedSub max 2 = some (max - 2) := checkedSub_eq (by omega)
  simp only [respond, hn, hsub, Option.bind_eq_bind, Option.bind_some,
    if_neg (show ¬ max - 2 < length.toNat by omega)] at hr
  obtain ⟨buffer, -, hr⟩ := Option.bind_eq_some_iff.mp hr
  obtain ⟨address, -, hr⟩ := Option.bind_eq_some_iff.mp hr
  split at hr
  · obtain ⟨response, -, hr⟩ := Option.bind_eq_some_iff.mp hr
    rw [← Option.some.inj hr]
    exact Exchange.noConfusion
  · rw [errorReply_exchange hr]
    exact Exchange.noConfusion

theorem write_spec (hm : 14 ≤ max) {payloadBuffer : List U8}
    (hl : payloadBuffer.length = max - 6) {raw : RawFrame} {address : U32} {data : List U8}
    (ha : WriteMemoryRequestFrame.address raw = some address)
    (hd : WriteMemoryRequestFrame.data raw = some data) {s : σ} :
    ∃ r, respond H max s payloadBuffer (.writeMemoryRequest raw) = some r ∧
      r.Builds max raw.header.frameNumber ∧
      r.exchange.Calls H (.writeMemoryRequest raw) s r.handler := by
  cases hq : H.onWriteMemory s address data with
  | mk answer s' =>
    cases answer with
    | error e =>
      obtain ⟨r, hr, hb, he, hs⟩ := errorReply_spec (by omega) hl raw.header.frameNumber s'
        (x := .writeMemory address data (.error e)) rfl
      refine ⟨r, ?_, hb, ?_⟩
      · simp only [respond, ha, hd, Option.bind_eq_bind, Option.bind_some, hq]
        exact hr
      · rw [he, hs]
        exact ⟨raw, rfl, ha, hd, hq⟩
    | ok u =>
      refine ⟨⟨s', payloadBuffer, .writeMemoryResponse
        ⟨⟨.response .writeMemory, raw.header.frameNumber, 0⟩, []⟩,
        .writeMemory address data (.ok ())⟩, ?_, ?_, raw, rfl, ha, hd, hq⟩
      · simp only [respond, ha, hd, Option.bind_eq_bind, Option.bind_some, hq]
        rfl
      · constructor <;> simp only [Exchange.response]
        · rfl
        · rfl
        · exact List.nil_prefix
        · exact List.nil_prefix
        · exact hl
        · simp only [List.length_nil]
          omega

theorem run_spec (hm : 14 ≤ max) {payloadBuffer : List U8}
    (hl : payloadBuffer.length = max - 6) {raw : RawFrame} {address : U32}
    (ha : RunRequestFrame.address raw = some address) {s : σ} :
    ∃ r, respond H max s payloadBuffer (.runRequest raw) = some r ∧
      r.Builds max raw.header.frameNumber ∧
      r.exchange.Calls H (.runRequest raw) s r.handler := by
  cases hq : H.onRun s address with
  | mk answer s' =>
    cases answer with
    | error e =>
      obtain ⟨r, hr, hb, he, hs⟩ := errorReply_spec (by omega) hl raw.header.frameNumber s'
        (x := .run address (.error e)) rfl
      refine ⟨r, ?_, hb, ?_⟩
      · simp only [respond, ha, Option.bind_eq_bind, Option.bind_some, hq]
        exact hr
      · rw [he, hs]
        exact ⟨raw, rfl, ha, hq⟩
    | ok u =>
      refine ⟨⟨s', payloadBuffer, .runResponse
        ⟨⟨.response .run, raw.header.frameNumber, 0⟩, []⟩, .run address (.ok ())⟩, ?_, ?_,
        raw, rfl, ha, hq⟩
      · simp only [respond, ha, Option.bind_eq_bind, Option.bind_some, hq]
        rfl
      · constructor <;> simp only [Exchange.response]
        · rfl
        · rfl
        · exact List.nil_prefix
        · exact List.nil_prefix
        · exact hl
        · simp only [List.length_nil]
          omega

/-- Outside the gap every typed frame is answered, by the one call it asks for or
by one of the server's own errors. -/
theorem respond_spec (hm : 14 ≤ max) (hx : max ≤ 65535) {payloadBuffer : List U8}
    (hl : payloadBuffer.length = max - 6) {raw : RawFrame} {frame : Frame}
    (hf : Frame.tryFrom raw = .ok frame) (hgap : ¬ GapRead max frame) (s : σ) :
    ∃ r, respond H max s payloadBuffer frame = some r ∧ r.Builds max raw.header.frameNumber ∧
      (r.exchange.Calls H frame s r.handler ∧ ¬ LongRead max frame ∨
        r.exchange.Refuses max frame ∧ r.handler = s) := by
  have hraw := Frame.tryFrom_toRaw hf
  have hrefuse : ∀ frame', frame' = frame → 
      (∃ t, raw.header.frameType = .response t) →
      respond H max s payloadBuffer frame' = errorReply frame'.frameHeader.frameNumber s
        payloadBuffer .invalidRequest (.refused .invalidRequest) →
      ∃ r, respond H max s payloadBuffer frame' = some r ∧ r.Builds max raw.header.frameNumber ∧
        (r.exchange.Calls H frame' s r.handler ∧ ¬ LongRead max frame' ∨
          r.exchange.Refuses max frame' ∧ r.handler = s) := by
    intro request he ht hr
    subst he
    rw [← hraw] at ht
    obtain ⟨r, hr', hb, he, hs⟩ := errorReply_spec (by omega) hl raw.header.frameNumber s
      (x := .refused .invalidRequest) rfl
    refine ⟨r, ?_, hb, Or.inr ⟨by rw [he]; exact ht, hs⟩⟩
    rw [hr, Frame.frameHeader, hraw]
    exact hr'
  cases frame with
  | queryVersionRequest request =>
    obtain ⟨r, hr, hb, hc⟩ := version_spec (H := H) hm hl request s
    have hheader : (Frame.toRaw (.queryVersionRequest request)).header = raw.header := by
      rw [hraw]
    have hh : request.header = raw.header := hheader
    rw [hh] at hb
    exact ⟨r, hr, hb, Or.inl ⟨hc, nofun⟩⟩
  | readMemoryRequest request =>
    obtain ⟨⟨address, ha⟩, length, hn⟩ := Frame.readMemoryRequest_fields hf
    have hr' : raw = request := hraw.symm
    rw [hr']
    rcases Nat.lt_or_ge (max - 2) length.toNat with hbig | hle
    · obtain ⟨r, hr, hb, he, hs⟩ := refuse_spec (H := H) hm hl hn hbig (s := s)
      exact ⟨r, hr, hb, Or.inr ⟨by rw [he]; exact ⟨request, length, rfl, hn, hbig⟩, hs⟩⟩
    · have hfit : length.toNat ≤ max - 8 :=
        Nat.not_lt.mp fun hlt => hgap ⟨request, length, rfl, hn, hlt, hle⟩
      obtain ⟨r, hr, hb, hc⟩ := read_spec (H := H) hm hx hl ha hn hfit (s := s)
      refine ⟨r, hr, hb, Or.inl ⟨hc, ?_⟩⟩
      intro h
      rcases h with ⟨_, length', ⟨⟩, hn', hlong⟩
      obtain rfl := Option.some.inj (hn'.symm.trans hn)
      exact Nat.not_lt.mpr hfit hlong
  | writeMemoryRequest request =>
    obtain ⟨⟨address, ha⟩, data, hd⟩ := Frame.writeMemoryRequest_fields hf
    have hr' : raw = request := hraw.symm
    rw [hr']
    obtain ⟨r, hr, hb, hc⟩ := write_spec (H := H) hm hl ha hd (s := s)
    exact ⟨r, hr, hb, Or.inl ⟨hc, nofun⟩⟩
  | runRequest request =>
    obtain ⟨address, ha⟩ := Frame.runRequest_fields hf
    have hr' : raw = request := hraw.symm
    rw [hr']
    obtain ⟨r, hr, hb, hc⟩ := run_spec (H := H) hm hl ha (s := s)
    exact ⟨r, hr, hb, Or.inl ⟨hc, nofun⟩⟩
  | queryVersionResponse _ => exact hrefuse _ rfl ⟨_, (Frame.tryFrom_ok hf).2.1⟩ rfl
  | readMemoryResponse _ => exact hrefuse _ rfl (Frame.tryFrom_ok hf).2 rfl
  | writeMemoryResponse _ => exact hrefuse _ rfl (Frame.tryFrom_ok hf).2 rfl
  | runResponse _ => exact hrefuse _ rfl (Frame.tryFrom_ok hf).2 rfl
  | errorResponse _ => exact hrefuse _ rfl (Frame.tryFrom_ok hf).2 rfl

/-- An exchange that ends with an error ends with an error reply. -/
theorem respond_error {payloadBuffer : List U8} {frame : Frame} {s : σ} {r : Response σ}
    {e : ServerError} (hr : respond H max s payloadBuffer frame = some r)
    (he : r.exchange.error? = some e) :
    ∃ s' buffer, errorReply frame.frameHeader.frameNumber s' buffer e r.exchange = some r ∧
      buffer.length = payloadBuffer.length := by
  -- an arm that calls `errorReply` gives the exchange it was called with
  have hreply : ∀ {n s' buffer e' x}, errorReply n s' buffer e' x = some r → x.error? = some e' →
      buffer.length = payloadBuffer.length →
      ∃ s' buffer, errorReply n s' buffer e r.exchange = some r ∧
        buffer.length = payloadBuffer.length := by
    intro n s' buffer e' x hr hx hl
    have hxr := errorReply_exchange hr
    rw [hxr, hx] at he
    obtain rfl := Option.some.inj he
    exact ⟨s', buffer, by rw [hxr]; exact hr, hl⟩
  cases frame with
  | queryVersionRequest request =>
    simp only [respond] at hr
    split at hr
    · obtain ⟨_, -, hr⟩ := Option.bind_eq_some_iff.mp hr
      obtain ⟨_, -, hr⟩ := Option.bind_eq_some_iff.mp hr
      rw [← Option.some.inj hr] at he
      exact nomatch he
    · exact hreply hr rfl rfl
  | readMemoryRequest request =>
    obtain ⟨length, -, hr⟩ := Option.bind_eq_some_iff.mp hr
    obtain ⟨limit, -, hr⟩ := Option.bind_eq_some_iff.mp hr
    split_ifs at hr
    · exact hreply hr rfl rfl
    · obtain ⟨buffer, hb, hr⟩ := Option.bind_eq_some_iff.mp hr
      obtain ⟨address, -, hr⟩ := Option.bind_eq_some_iff.mp hr
      split at hr
      · obtain ⟨_, -, hr⟩ := Option.bind_eq_some_iff.mp hr
        rw [← Option.some.inj hr] at he
        exact nomatch he
      · rename_i heq
        have hdata := H.readMemory_length s address buffer
        unfold slice at hb
        split_ifs at hb with hle
        rw [heq, ← Option.some.inj hb] at hdata
        simp only [List.drop_zero, List.length_take] at hdata
        exact hreply hr rfl (overwrite_length (by omega))
  | writeMemoryRequest request =>
    obtain ⟨address, -, hr⟩ := Option.bind_eq_some_iff.mp hr
    obtain ⟨data, -, hr⟩ := Option.bind_eq_some_iff.mp hr
    split at hr
    · obtain ⟨_, -, hr⟩ := Option.bind_eq_some_iff.mp hr
      rw [← Option.some.inj hr] at he
      exact nomatch he
    · exact hreply hr rfl rfl
  | runRequest request =>
    obtain ⟨address, -, hr⟩ := Option.bind_eq_some_iff.mp hr
    split at hr
    · obtain ⟨_, -, hr⟩ := Option.bind_eq_some_iff.mp hr
      rw [← Option.some.inj hr] at he
      exact nomatch he
    · exact hreply hr rfl rfl
  | queryVersionResponse _ => exact hreply hr rfl rfl
  | readMemoryResponse _ => exact hreply hr rfl rfl
  | writeMemoryResponse _ => exact hreply hr rfl rfl
  | runResponse _ => exact hreply hr rfl rfl
  | errorResponse _ => exact hreply hr rfl rfl

end

end SeccampRiscvCpu.FwtoolServer
