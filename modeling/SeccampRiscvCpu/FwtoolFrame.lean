import SeccampRiscvCpu.ByteSlices

/-!
# Frames of the firmware tool

The wire format of `frame.rs`: a marker, five header bytes, the payload and a
CRC over all of them, all numbers big endian. The raw frame carries a header
and a payload slice which need not have the length the header declares; the
typed frames are raw frames built by a constructor or accepted by `tryFrom`.

A constructor that writes into a caller's buffer keeps the whole buffer as its
payload. Index expressions, `unwrap` and checked arithmetic have no value where
the program stops, and `Except` holds the errors it returns.

The checksum library is a parameter: `Digest` is what its digest finalizes to
after the given bytes. The program complements that value.
-/
namespace SeccampRiscvCpu.FwtoolFrame
open ByteSlices

abbrev Digest := List U8 → U16

def frameMarker : U8 := 0x5a

inductive FrameType where
  | queryVersion
  | readMemory
  | writeMemory
  | run
  | errorResponse
deriving DecidableEq, Repr

def FrameType.toByte : FrameType → U8
  | .queryVersion => 0x00
  | .readMemory => 0x01
  | .writeMemory => 0x02
  | .run => 0x03
  | .errorResponse => 0x80

inductive FrameTypeAndDirection where
  | request (frameType : FrameType)
  | response (frameType : FrameType)
deriving DecidableEq, Repr

structure FrameHeader where
  frameType : FrameTypeAndDirection
  frameNumber : U16
  payloadLength : U16
deriving DecidableEq, Repr

inductive FrameError where
  | noFrameMarker
  | invalidFrameType
  | insufficientLength
  | invalidLength
  | crcMismatch (expected actual : U16) (header : FrameHeader)
deriving DecidableEq, Repr

def FrameType.tryFrom (byte : U8) : Except FrameError FrameType :=
  if byte = 0x00 then .ok .queryVersion
  else if byte = 0x01 then .ok .readMemory
  else if byte = 0x02 then .ok .writeMemory
  else if byte = 0x03 then .ok .run
  else if byte = 0x80 then .ok .errorResponse
  else .error .invalidFrameType

def FrameTypeAndDirection.tryFrom (value : U8) : Except FrameError FrameTypeAndDirection :=
  if value &&& 0x80 = 0x00 then .request <$> FrameType.tryFrom (value &&& ~~~0x80)
  else if value &&& 0x80 = 0x80 then .response <$> FrameType.tryFrom (value &&& ~~~0x80)
  else .error .invalidFrameType

def FrameTypeAndDirection.toByte : FrameTypeAndDirection → U8
  | .request t => t.toByte
  | .response t => t.toByte ||| 0x80

namespace FrameHeader

/-- Marker and header together. -/
def size : ℕ := 1 + 5

def toBytes (h : FrameHeader) : List U8 :=
  h.frameType.toByte :: (be16 h.frameNumber ++ be16 h.payloadLength)

def tryFrom : List U8 → Except FrameError FrameHeader
  | t :: n₁ :: n₀ :: l₁ :: l₀ :: _ => do
      let frameType ← FrameTypeAndDirection.tryFrom t
      return ⟨frameType, ofBe16 n₁ n₀, ofBe16 l₁ l₀⟩
  | _ => .error .insufficientLength

/-- Both outcomes carry an offset: of the byte after the header, or of the
marker that was found. -/
def readHeader (bytes : List U8) : Except (FrameError × ℕ) (FrameHeader × ℕ) :=
  match bytes.findIdx? (· == frameMarker) with
  | none => .error (.noFrameMarker, bytes.length)
  | some offset =>
    if bytes.length < offset + 1 then .error (.insufficientLength, offset)
    else match tryFrom (bytes.drop (offset + 1)) with
      | .error e => .error (e, offset)
      | .ok header => .ok (header, offset + size)

end FrameHeader

structure RawFrame where
  header : FrameHeader
  payload : List U8
deriving DecidableEq, Repr

/-- The checksum of a header and the payload bytes after it. -/
def expectedCrc (crc : Digest) (header : FrameHeader) (payload : List U8) : U16 :=
  ~~~ crc (frameMarker :: header.toBytes ++ payload)

/-- The comparison both readers end with. -/
def checkCrc (crc : Digest) (header : FrameHeader) (payload : List U8) (actual : U16) :
    Except FrameError RawFrame :=
  if actual ≠ expectedCrc crc header payload then
    .error (.crcMismatch (expectedCrc crc header payload) actual header)
  else .ok ⟨header, payload⟩

/-- `Writer` over the program's sinks. -/
class Writer (W : Type) (ε : outParam Type) where
  write : W → List U8 → Except ε W

namespace RawFrame

/-- The second component is the byte count the source returns with the frame. -/
def readFrame (crc : Digest) (bytes : List U8) : Option (Except FrameError (RawFrame × ℕ)) :=
  match FrameHeader.readHeader bytes with
  | .error (e, _) => some (.error e)
  | .ok (header, payloadOffset) =>
    let payloadLength := header.payloadLength.toNat
    let frameLength := FrameHeader.size + payloadLength + 2
    if bytes.length < payloadOffset + payloadLength + 2 then some (.error .insufficientLength)
    else do
      let payload ← slice bytes payloadOffset (payloadOffset + payloadLength)
      let actual ← wordOf (← slice bytes (payloadOffset + payloadLength)
        (payloadOffset + payloadLength + 2))
      return (checkCrc crc header payload actual).map fun f => (f, payloadOffset + frameLength)

def readFramePayload (crc : Digest) (header : FrameHeader) (bytes : List U8) :
    Option (Except FrameError (RawFrame × ℕ)) :=
  let payloadLength := header.payloadLength.toNat
  if bytes.length < payloadLength + 2 then some (.error .insufficientLength)
  else do
    let payload ← slice bytes 0 payloadLength
    let actual ← wordOf (← slice bytes payloadLength (payloadLength + 2))
    return (checkCrc crc header payload actual).map fun f => (f, payloadLength + 2)

/-- Three writes; the digest covers the declared part of the payload only. -/
def writeFrame {W ε : Type} [Writer W ε] (crc : Digest) (f : RawFrame) (writer : W) :
    Option (Except ε W) :=
  match Writer.write writer (frameMarker :: f.header.toBytes) with
  | .error e => some (.error e)
  | .ok writer => match Writer.write writer f.payload with
    | .error e => some (.error e)
    | .ok writer => do
      let digested ← slice f.payload 0 f.header.payloadLength.toNat
      return Writer.write writer (be16 (expectedCrc crc f.header digested))

def calculateCrc (crc : Digest) (f : RawFrame) : Option U16 := do
  let digested ← slice f.payload 0 f.header.payloadLength.toNat
  return expectedCrc crc f.header digested

end RawFrame

/-! ## Typed frames -/

/-- `if buffer.len() < n` followed by a copy of `n` bytes to the front. -/
def fillFront (buffer bytes : List U8) : Except FrameError (List U8) :=
  if buffer.length < bytes.length then .error .insufficientLength
  else .ok (overwrite buffer 0 bytes)

/-- A raw frame of exact declared and actual payload length `n`. -/
def ofExactLength (n : ℕ) (raw : RawFrame) : Except FrameError RawFrame :=
  if raw.header.payloadLength.toNat ≠ n ∨ raw.payload.length ≠ n then .error .invalidLength
  else .ok raw

/-- `u32::from_be_bytes(payload[..4])` -/
def payloadAddress (raw : RawFrame) : Option U32 := do dwordOf (← slice raw.payload 0 4)

namespace QueryVersionRequestFrame

def new (frameNumber : U16) : RawFrame := ⟨⟨.request .queryVersion, frameNumber, 0⟩, []⟩

def tryFrom : RawFrame → Except FrameError RawFrame := ofExactLength 0

end QueryVersionRequestFrame

namespace QueryVersionResponseFrame

def new (frameNumber : U16) (buffer : List U8) (version : U32) (maxPayloadSize : U16) :
    Except FrameError RawFrame := do
  let payload ← fillFront buffer (be32 version ++ be16 maxPayloadSize)
  return ⟨⟨.response .queryVersion, frameNumber, 6⟩, payload⟩

def tryFrom : RawFrame → Except FrameError RawFrame := ofExactLength 6

def version : RawFrame → Option U32 := payloadAddress

def maxPayloadSize (raw : RawFrame) : Option U16 := do wordOf (← slice raw.payload 4 6)

end QueryVersionResponseFrame

namespace ReadMemoryRequestFrame

def new (frameNumber : U16) (buffer : List U8) (address : U32) (length : U16) :
    Except FrameError RawFrame := do
  let payload ← fillFront buffer (be32 address ++ be16 length)
  return ⟨⟨.request .readMemory, frameNumber, 6⟩, payload⟩

def tryFrom : RawFrame → Except FrameError RawFrame := ofExactLength 6

def address : RawFrame → Option U32 := payloadAddress

def length (raw : RawFrame) : Option U16 := do wordOf (← slice raw.payload 4 6)

end ReadMemoryRequestFrame

namespace ReadMemoryResponseFrame

def new (frameNumber : U16) (data : List U8) : Except FrameError RawFrame :=
  .ok ⟨⟨.response .readMemory, frameNumber, .ofNat 16 data.length⟩, data⟩

def tryFrom (raw : RawFrame) : Except FrameError RawFrame := .ok raw

def data (raw : RawFrame) : List U8 := raw.payload

end ReadMemoryResponseFrame

namespace WriteMemoryRequestFrame

/-- The declared length is a 16-bit sum, which stops the program on overflow. -/
def new (frameNumber : U16) (buffer : List U8) (address : U32) (data : List U8) :
    Option (Except FrameError RawFrame) :=
  if buffer.length < 4 + data.length then some (.error .insufficientLength)
  else
    let payload := overwrite (overwrite buffer 0 (be32 address)) 4 data
    let length : U16 := .ofNat 16 data.length
    if 4 + length.toNat < 65536 then
      some (.ok ⟨⟨.request .writeMemory, frameNumber, 4 + length⟩, payload⟩)
    else none

def newInplace (frameNumber : U16) (buffer : List U8) (address : U32) :
    Except FrameError RawFrame := do
  let payload ← fillFront buffer (be32 address)
  return ⟨⟨.request .writeMemory, frameNumber, .ofNat 16 buffer.length⟩, payload⟩

def tryFrom (raw : RawFrame) : Except FrameError RawFrame :=
  if raw.header.payloadLength.toNat < 4 ∨ raw.payload.length < 4 then .error .invalidLength
  else .ok raw

def address : RawFrame → Option U32 := payloadAddress

def data (raw : RawFrame) : Option (List U8) := slice raw.payload 4 raw.payload.length

end WriteMemoryRequestFrame

namespace WriteMemoryResponseFrame

def new (frameNumber : U16) : Except FrameError RawFrame :=
  .ok ⟨⟨.response .writeMemory, frameNumber, 0⟩, []⟩

def tryFrom : RawFrame → Except FrameError RawFrame := ofExactLength 0

end WriteMemoryResponseFrame

namespace RunRequestFrame

def new (frameNumber : U16) (buffer : List U8) (address : U32) : Except FrameError RawFrame := do
  let payload ← fillFront buffer (be32 address)
  return ⟨⟨.request .run, frameNumber, 4⟩, payload⟩

def tryFrom : RawFrame → Except FrameError RawFrame := ofExactLength 4

def address : RawFrame → Option U32 := payloadAddress

end RunRequestFrame

namespace RunResponseFrame

def new (frameNumber : U16) : Except FrameError RawFrame :=
  .ok ⟨⟨.response .run, frameNumber, 0⟩, []⟩

def tryFrom : RawFrame → Except FrameError RawFrame := ofExactLength 0

end RunResponseFrame

namespace ErrorResponseFrame

/-- The source gives this frame the type of a run response. -/
def new (frameNumber : U16) (buffer : List U8) (errorCode : U32) :
    Except FrameError RawFrame := do
  let payload ← fillFront buffer (be32 errorCode)
  return ⟨⟨.response .run, frameNumber, 4⟩, payload⟩

def tryFrom : RawFrame → Except FrameError RawFrame := ofExactLength 4

def errorCode : RawFrame → Option U32 := payloadAddress

end ErrorResponseFrame

inductive Frame where
  | queryVersionRequest (raw : RawFrame)
  | queryVersionResponse (raw : RawFrame)
  | readMemoryRequest (raw : RawFrame)
  | readMemoryResponse (raw : RawFrame)
  | writeMemoryRequest (raw : RawFrame)
  | writeMemoryResponse (raw : RawFrame)
  | runRequest (raw : RawFrame)
  | runResponse (raw : RawFrame)
  | errorResponse (raw : RawFrame)
deriving DecidableEq, Repr

namespace Frame

def tryFrom (raw : RawFrame) : Except FrameError Frame :=
  match raw.header.frameType with
  | .request .queryVersion => .queryVersionRequest <$> QueryVersionRequestFrame.tryFrom raw
  | .response .queryVersion => .queryVersionResponse <$> QueryVersionResponseFrame.tryFrom raw
  | .request .readMemory => .readMemoryRequest <$> ReadMemoryRequestFrame.tryFrom raw
  | .response .readMemory => .readMemoryResponse <$> ReadMemoryResponseFrame.tryFrom raw
  | .request .writeMemory => .writeMemoryRequest <$> WriteMemoryRequestFrame.tryFrom raw
  | .response .writeMemory => .writeMemoryResponse <$> WriteMemoryResponseFrame.tryFrom raw
  | .request .run => .runRequest <$> RunRequestFrame.tryFrom raw
  | .response .run => .runResponse <$> RunResponseFrame.tryFrom raw
  | .request .errorResponse => .error .invalidFrameType
  | .response .errorResponse => .errorResponse <$> ErrorResponseFrame.tryFrom raw

/-- `Into<RawFrame>`; the request for the version keeps only its header. -/
def toRaw : Frame → RawFrame
  | .queryVersionRequest raw => ⟨raw.header, []⟩
  | .queryVersionResponse raw | .readMemoryRequest raw | .readMemoryResponse raw
  | .writeMemoryRequest raw | .writeMemoryResponse raw | .runRequest raw
  | .runResponse raw | .errorResponse raw => raw

def frameHeader (f : Frame) : FrameHeader := f.toRaw.header

end Frame

end SeccampRiscvCpu.FwtoolFrame
