import SeccampRiscvCpu.FwtoolResync

/-!
# The firmware-tool client

`client.rs`: each command takes the next frame number, builds its request in a
scratch buffer, sends it and decodes the answer. The request goes through
`write_frame` into a cursor over a buffer of exactly the frame's size, and such
a cursor takes of each write only what still fits.

The peer is the bytes it will ever send, and whether it takes what is written.
-/
namespace SeccampRiscvCpu.FwtoolClient
open ByteSlices FwtoolFrame FwtoolReceiver FwtoolReception FwtoolResync StreamTransducer

/-- `Cursor<&mut [u8]>` -/
structure Cursor where
  bytes : List U8
  position : ℕ

/-- A write past the end is cut short, which the caller does not look at. -/
instance : FwtoolFrame.Writer Cursor Empty where
  write c bytes :=
    let start := min c.position c.bytes.length
    let taken := bytes.take (c.bytes.length - start)
    .ok ⟨overwrite c.bytes start taken, c.position + taken.length⟩

inductive IoError where
  | other
  | unexpectedEof
  | writer
deriving DecidableEq, Repr

structure Client where
  nextFrameNumber : U16
deriving DecidableEq, Repr

def Client.new : Client := ⟨1⟩

def Client.advance (c : Client) : U16 × Client := (c.nextFrameNumber, ⟨c.nextFrameNumber + 1⟩)

/-- The peer of one command. -/
structure Peer where
  takesBytes : Bool
  incoming : List U8

/-- What a command hands to the writer and what it returns. -/
structure Transaction (α : Type) where
  client : Client
  sent : List U8
  result : Except IoError α

section
variable {α : Type}

/-- The bytes given to `write_all`. -/
def sendFrameRaw (crc : Digest) (frame : RawFrame) : Option (List U8) := do
  let size := FrameHeader.size + frame.header.payloadLength.toNat + 2
  match ← frame.writeFrame crc (⟨List.replicate size 0, 0⟩ : Cursor) with
  | .ok cursor => return cursor.bytes
  | .error e => nomatch e

/-- The marker is not looked at here; `read_frame` finds it or does not. -/
def receiveFrameRaw (crc : Digest) (incoming : List U8) : Option (Except IoError (List U8)) :=
  if incoming.length < FrameHeader.size then some (.error .unexpectedEof)
  else match FrameHeader.tryFrom ((incoming.take FrameHeader.size).drop 1) with
    | .error _ => some (.error .other)
    | .ok header =>
      let size := FrameHeader.size + header.payloadLength.toNat + 2
      if incoming.length < size then some (.error .unexpectedEof)
      else do
        match ← RawFrame.readFrame crc (incoming.take size) with
        | .error _ => return .error .other
        | .ok _ => return .ok (incoming.take size)

/-- The answer to a command: a frame with its number that `accept` takes. -/
def answer (crc : Digest) (frameNumber : U16) (accept : Frame → Option (Except IoError α))
    (bytes : List U8) : Option (Except IoError α) := do
  match ← RawFrame.readFrame crc bytes with
  | .error _ => return .error .other
  | .ok (raw, _) => match Frame.tryFrom raw with
    | .error _ => return .error .other
    | .ok frame =>
      if frame.frameHeader.frameNumber ≠ frameNumber then return .error .other
      else accept frame

/-- From the built request to the answer; a request that was not built is not sent. -/
def transact (crc : Digest) (client : Client) (frameNumber : U16)
    (request : Except FrameError RawFrame) (accept : Frame → Option (Except IoError α))
    (peer : Peer) : Option (Transaction α) :=
  match request with
  | .error _ => some ⟨client, [], .error .other⟩
  | .ok frame => do
    let sent ← sendFrameRaw crc frame
    if peer.takesBytes then
      match ← receiveFrameRaw crc peer.incoming with
      | .error e => return ⟨client, sent, .error e⟩
      | .ok bytes => return ⟨client, sent, ← answer crc frameNumber accept bytes⟩
    else return ⟨client, sent, .error .writer⟩

/-! The last `match` of each command. -/

def acceptVersion : Frame → Option (Except IoError (U32 × U16))
  | .queryVersionResponse raw => do
    return .ok (← QueryVersionResponseFrame.version raw,
      ← QueryVersionResponseFrame.maxPayloadSize raw)
  | _ => some (.error .other)

def acceptData : Frame → Option (Except IoError (List U8))
  | .readMemoryResponse raw => some (.ok (ReadMemoryResponseFrame.data raw))
  | _ => some (.error .other)

def acceptWrite : Frame → Option (Except IoError Unit)
  | .writeMemoryResponse _ => some (.ok ())
  | _ => some (.error .other)

def acceptRun : Frame → Option (Except IoError Unit)
  | .runResponse _ => some (.ok ())
  | _ => some (.error .other)

namespace Client

def queryVersion (crc : Digest) (c : Client) (peer : Peer) : Option (Transaction (U32 × U16)) :=
  let (frameNumber, c) := c.advance
  transact crc c frameNumber (.ok (QueryVersionRequestFrame.new frameNumber)) acceptVersion peer

def readMemory (crc : Digest) (c : Client) (address : U32) (length : U16) (peer : Peer) :
    Option (Transaction (List U8)) :=
  let (frameNumber, c) := c.advance
  let buffer := List.replicate (FrameHeader.size + 6 + 2) 0
  transact crc c frameNumber (ReadMemoryRequestFrame.new frameNumber buffer address length)
    acceptData peer

def writeMemory (crc : Digest) (c : Client) (address : U32) (data : List U8) (peer : Peer) :
    Option (Transaction Unit) := do
  let (frameNumber, c) := c.advance
  let buffer := List.replicate (FrameHeader.size + 6 + 2 + data.length) 0
  let request ← WriteMemoryRequestFrame.new frameNumber buffer address data
  transact crc c frameNumber request acceptWrite peer

def run (crc : Digest) (c : Client) (address : U32) (peer : Peer) : Option (Transaction Unit) :=
  let (frameNumber, c) := c.advance
  let buffer := List.replicate (FrameHeader.size + 4 + 2) 0
  transact crc c frameNumber (RunRequestFrame.new frameNumber buffer address) acceptRun peer

end Client

end

/-! ## What a bounded cursor keeps -/

/-- Everything written so far, as far as it fits, and zeros behind it. -/
def Cursor.Holds (size : ℕ) (written : List U8) (c : Cursor) : Prop :=
  c.bytes = written.take size ++ List.replicate (size - written.length) 0 ∧
    c.position = min written.length size

theorem cursor_write {size : ℕ} {written : List U8} {c : Cursor} (h : c.Holds size written)
    (bytes : List U8) :
    ∃ c', (FwtoolFrame.Writer.write c bytes : Except Empty Cursor) = .ok c' ∧
      c'.Holds size (written ++ bytes) := by
  obtain ⟨hb, hp⟩ := h
  have hlen : c.bytes.length = size := by
    rw [hb]
    simp
    omega
  have hstart : min (min written.length size) size = min written.length size := by omega
  refine ⟨⟨overwrite c.bytes (min written.length size)
    (bytes.take (size - min written.length size)), min written.length size +
      (bytes.take (size - min written.length size)).length⟩, ?_, ?_, ?_⟩
  · simp only [FwtoolFrame.Writer.write, hlen, hp, hstart]
  · rcases Nat.lt_or_ge size written.length with hfull | hroom
    · -- nothing fits any more
      rw [Nat.min_eq_right (Nat.le_of_lt hfull), Nat.sub_self, List.take_zero, overwrite_nil, hb,
        List.take_append_of_le_length (Nat.le_of_lt hfull), List.length_append,
        Nat.sub_eq_zero_of_le (Nat.le_of_lt hfull), Nat.sub_eq_zero_of_le (by omega)]
    · have hdrop : c.bytes.drop written.length = List.replicate (size - written.length) 0 := by
        rw [hb, List.take_of_length_le hroom, List.drop_left]
      have htake : c.bytes.take written.length = written := by
        rw [hb, List.take_of_length_le hroom, List.take_left]
      have hrest : size - written.length - min (size - written.length) bytes.length =
          size - (written.length + bytes.length) := by omega
      rw [Nat.min_eq_left hroom, overwrite, ← List.drop_drop, hdrop, htake, List.drop_replicate,
        List.take_append, List.take_of_length_le hroom, List.length_take, List.length_append,
        hrest]
  · simp only [List.length_take, List.length_append]
    omega

theorem cursor_new (size : ℕ) : (⟨List.replicate size 0, 0⟩ : Cursor).Holds size [] := by
  simp [Cursor.Holds]

/-- The whole request, cut to the size the header declares. -/
theorem sendFrameRaw_eq (crc : Digest) {f : RawFrame}
    (h : f.header.payloadLength.toNat ≤ f.payload.length) :
    sendFrameRaw crc f = some ((frameMarker :: f.header.toBytes ++ f.payload ++
      be16 (expectedCrc crc f.header (f.payload.take f.header.payloadLength.toNat))).take
        (FrameHeader.size + f.header.payloadLength.toNat + 2)) := by
  have hslice := slice_eq f.payload (Nat.zero_le _) h
  rw [List.drop_zero] at hslice
  obtain ⟨c₁, h₁, hc₁⟩ := cursor_write
    (cursor_new (FrameHeader.size + f.header.payloadLength.toNat + 2))
    (frameMarker :: f.header.toBytes)
  obtain ⟨c₂, h₂, hc₂⟩ := cursor_write hc₁ f.payload
  obtain ⟨c₃, h₃, hc₃⟩ := cursor_write hc₂
    (be16 (expectedCrc crc f.header (f.payload.take f.header.payloadLength.toNat)))
  have hzero : FrameHeader.size + f.header.payloadLength.toNat + 2 - ([] ++
      frameMarker :: f.header.toBytes ++ f.payload ++ be16 (expectedCrc crc f.header
        (f.payload.take f.header.payloadLength.toNat))).length = 0 := by
    simp only [List.length_append, List.length_cons, FrameHeader.toBytes_length, be16_length,
      FrameHeader.size]
    omega
  have hbytes := hc₃.1
  rw [hzero, List.replicate_zero, List.append_nil, List.nil_append] at hbytes
  have hwrite : f.writeFrame crc (⟨List.replicate (FrameHeader.size +
      f.header.payloadLength.toNat + 2) 0, 0⟩ : Cursor) = some (.ok c₃) := by
    simp only [RawFrame.writeFrame, h₁, h₂, h₃, hslice, Option.bind_eq_bind, Option.bind_some]
    rfl
  simp only [sendFrameRaw, hwrite, Option.bind_eq_bind, Option.bind_some, hbytes]
  rfl

/-- A payload with spare bytes behind it pushes the checksum out of the buffer. -/
theorem sendFrameRaw_spare (crc : Digest) {header : FrameHeader} {payload : List U8}
    (a b : U8) (spare : List U8) (h : payload.length = header.payloadLength.toNat) :
    sendFrameRaw crc ⟨header, payload ++ a :: b :: spare⟩ =
      some (frameMarker :: header.toBytes ++ payload ++ [a, b]) := by
  rw [sendFrameRaw_eq crc (by simp; omega)]
  have hl : (frameMarker :: header.toBytes ++ payload ++ [a, b]).length =
      FrameHeader.size + header.payloadLength.toNat + 2 := by
    simp [h, FrameHeader.size]
    omega
  generalize be16 _ = checksum
  rw [← hl, show frameMarker :: header.toBytes ++ (payload ++ a :: b :: spare) ++ checksum =
    (frameMarker :: header.toBytes ++ payload ++ [a, b]) ++ (spare ++ checksum) by simp,
    List.take_left]

theorem sendFrameRaw_exact (crc : Digest) {f : RawFrame}
    (h : f.payload.length = f.header.payloadLength.toNat) :
    sendFrameRaw crc f = some (f.encode crc) := by
  rw [sendFrameRaw_eq crc (Nat.le_of_eq h.symm), ← h, List.take_length]
  have hl : (f.encode crc).length = FrameHeader.size + f.payload.length + 2 := f.encode_length crc
  rw [← hl, show frameMarker :: f.header.toBytes ++ f.payload ++ be16 (expectedCrc crc f.header
    f.payload) = f.encode crc by simp [RawFrame.encode, RawFrame.body], List.take_length]

/-! ## What a command hands to the writer -/

section
variable {α : Type}

theorem receiveFrameRaw_total (crc : Digest) (incoming : List U8) :
    ∃ r, receiveFrameRaw crc incoming = some r := by
  unfold receiveFrameRaw
  split_ifs
  · exact ⟨_, rfl⟩
  · split
    · exact ⟨_, rfl⟩
    · rename_i header _
      dsimp only
      split_ifs
      · exact ⟨_, rfl⟩
      · obtain ⟨r, hr⟩ := RawFrame.readFrame_total crc
          (incoming.take (FrameHeader.size + header.payloadLength.toNat + 2))
        rw [hr]
        cases r <;> exact ⟨_, rfl⟩

/-- A command that can decode every typed frame never stops the program. -/
theorem transact_sent {crc : Digest} {frame : RawFrame} {sent : List U8} (client : Client)
    (n : U16) (peer : Peer) (accept : Frame → Option (Except IoError α))
    (hsent : sendFrameRaw crc frame = some sent)
    (haccept : ∀ raw frame, Frame.tryFrom raw = .ok frame → ∃ r, accept frame = some r) :
    ∃ t, transact crc client n (.ok frame) accept peer = some t ∧ t.sent = sent := by
  simp only [transact, hsent, Option.bind_eq_bind, Option.bind_some]
  split_ifs
  · obtain ⟨r, hr⟩ := receiveFrameRaw_total crc peer.incoming
    rw [hr]
    cases r with
    | error e => exact ⟨⟨client, sent, .error e⟩, rfl, rfl⟩
    | ok bytes =>
      have hanswer : ∃ r, answer crc n accept bytes = some r := by
        obtain ⟨r, hr⟩ := RawFrame.readFrame_total crc bytes
        unfold answer
        rw [hr]
        cases r with
        | error e => exact ⟨_, rfl⟩
        | ok v =>
          simp only [Option.bind_eq_bind, Option.bind_some]
          cases hf : Frame.tryFrom v.1 with
          | error e => exact ⟨_, rfl⟩
          | ok frame =>
            dsimp only
            split_ifs
            · exact ⟨_, rfl⟩
            · exact haccept v.1 frame hf
      obtain ⟨r, hr⟩ := hanswer
      exact ⟨⟨client, sent, r⟩, by simp only [hr, Option.bind_some]; rfl, rfl⟩
  · exact ⟨⟨client, sent, .error .writer⟩, rfl, rfl⟩

end

inductive Command where
  | queryVersion
  | readMemory (address : U32) (length : U16)
  | writeMemory (address : U32) (data : List U8)
  | run (address : U32)
deriving DecidableEq, Repr

namespace Command

/-- The bytes the method of this command hands to the writer. -/
def sent (crc : Digest) (c : Client) (peer : Peer) : Command → Option (List U8)
  | .queryVersion => (c.queryVersion crc peer).map (·.sent)
  | .readMemory address length => (c.readMemory crc address length peer).map (·.sent)
  | .writeMemory address data => (c.writeMemory crc address data peer).map (·.sent)
  | .run address => (c.run crc address peer).map (·.sent)

/-- The typed frame is the request of this very command. -/
def Of (n : U16) : Command → Frame → Prop
  | .queryVersion, .queryVersionRequest raw => raw.header.frameNumber = n
  | .readMemory address length, .readMemoryRequest raw => raw.header.frameNumber = n ∧
      ReadMemoryRequestFrame.address raw = some address ∧
      ReadMemoryRequestFrame.length raw = some length
  | .writeMemory address data, .writeMemoryRequest raw => raw.header.frameNumber = n ∧
      WriteMemoryRequestFrame.address raw = some address ∧
      WriteMemoryRequestFrame.data raw = some data
  | .run address, .runRequest raw => raw.header.frameNumber = n ∧
      RunRequestFrame.address raw = some address
  | _, _ => False

/-- The data of a write fits the 16-bit length together with its address. -/
def Fits : Command → Prop
  | .writeMemory _ data => data.length ≤ 65531
  | _ => True

/-- The frame that asks for the command. -/
def request (n : U16) : Command → RawFrame
  | .queryVersion => ⟨⟨.request .queryVersion, n, 0⟩, []⟩
  | .readMemory address length => ⟨⟨.request .readMemory, n, 6⟩, be32 address ++ be16 length⟩
  | .writeMemory address data =>
      ⟨⟨.request .writeMemory, n, 4 + .ofNat 16 data.length⟩, be32 address ++ data⟩
  | .run address => ⟨⟨.request .run, n, 4⟩, be32 address⟩

theorem addressed_length {n : ℕ} (h : n ≤ 65531) : (4 + BitVec.ofNat 16 n : U16).toNat = 4 + n := by
  have h4 : (4 : U16).toNat = 4 := rfl
  rw [BitVec.toNat_add, BitVec.toNat_ofNat, h4]
  omega

theorem request_length {command : Command} (h : command.Fits) (n : U16) :
    (command.request n).payload.length = (command.request n).header.payloadLength.toNat := by
  cases command with
  | writeMemory address data =>
    simp only [request, addressed_length h, List.length_append, be32_length]
  | queryVersion => rfl
  | readMemory address length => rfl
  | run address => rfl

theorem request_wellFormed {command : Command} (h : command.Fits) (n : U16) :
    (command.request n).WellFormed := by
  refine ⟨request_length h n, ?_⟩
  cases command <;> simp only [request] <;> decide

theorem payloadAddress_be32 {raw : RawFrame} {address : U32} {rest : List U8}
    (h : raw.payload = be32 address ++ rest) : payloadAddress raw = some address := by
  rw [payloadAddress, h, show slice (be32 address ++ rest) 0 4 = some (be32 address) from
    slice_front (List.prefix_append _ _) rfl]
  exact dwordOf_be32 address

theorem request_of {command : Command} (h : command.Fits) (n : U16) :
    ∃ frame, Frame.tryFrom (command.request n) = .ok frame ∧ command.Of n frame := by
  cases command with
  | queryVersion => exact ⟨_, rfl, rfl⟩
  | readMemory address length =>
    refine ⟨_, rfl, rfl, payloadAddress_be32 rfl, ?_⟩
    have hs := slice_middle (be32 address) (be16 length) []
      (i := 4) (j := 6) rfl rfl
    rw [List.append_nil] at hs
    simp only [ReadMemoryRequestFrame.length, request, hs, Option.bind_eq_bind, Option.bind_some,
      wordOf_be16]
  | writeMemory address data =>
    refine ⟨.writeMemoryRequest (request n (.writeMemory address data)), ?_, rfl,
      payloadAddress_be32 rfl, ?_⟩
    · have hmin : ¬ ((request n (.writeMemory address data)).header.payloadLength.toNat < 4 ∨
          (request n (.writeMemory address data)).payload.length < 4) := by
        simp only [request, addressed_length h, List.length_append, be32_length]
        omega
      have htyped : WriteMemoryRequestFrame.tryFrom (request n (.writeMemory address data)) =
          .ok (request n (.writeMemory address data)) := if_neg hmin
      rw [show Frame.tryFrom (request n (.writeMemory address data)) = .writeMemoryRequest <$>
        WriteMemoryRequestFrame.tryFrom (request n (.writeMemory address data)) from rfl, htyped]
      rfl
    · have hs := slice_middle (be32 address) data [] (i := 4)
        (j := (be32 address ++ data).length) rfl (List.length_append ..)
      rwa [List.append_nil] at hs
  | run address => exact ⟨_, rfl, rfl, payloadAddress_be32 (List.append_nil _).symm⟩

/-- A scratch buffer of zeros, filled from the front. -/
theorem overwrite_zeros {n k : ℕ} {bytes : List U8} (h : n = bytes.length + k) :
    overwrite (List.replicate n 0) 0 bytes = bytes ++ List.replicate k 0 := by
  rw [overwrite, List.take_zero, List.nil_append, Nat.zero_add, List.drop_replicate, h,
    Nat.add_sub_cancel_left]

theorem fillFront_zeros {n k : ℕ} {bytes : List U8} (h : n = bytes.length + k) :
    fillFront (List.replicate n 0) bytes = .ok (bytes ++ List.replicate k 0) := by
  rw [fillFront_eq (by rw [List.length_replicate]; omega), overwrite_zeros h]

theorem acceptVersion_total (raw : RawFrame) (frame : Frame) (h : Frame.tryFrom raw = .ok frame) :
    ∃ r, acceptVersion frame = some r := by
  cases frame with
  | queryVersionResponse response =>
    obtain ⟨⟨version, hv⟩, size, hs⟩ := Frame.queryVersionResponse_fields h
    exact ⟨_, by simp only [acceptVersion, hv, hs, Option.bind_eq_bind, Option.bind_some]; rfl⟩
  | _ => exact ⟨_, rfl⟩

/-- Whatever the peer does, a command hands over its request cut to size: only the
request without payload keeps its checksum. -/
theorem sent_eq (crc : Digest) (c : Client) (peer : Peer) {command : Command}
    (h : command.Fits) :
    command.sent crc c peer = some (if command = .queryVersion then
        (command.request c.nextFrameNumber).encode crc
      else frameMarker :: (command.request c.nextFrameNumber).header.toBytes ++
        (command.request c.nextFrameNumber).payload ++ [0, 0]) := by
  cases command with
  | queryVersion =>
    obtain ⟨t, ht, hs⟩ := transact_sent ⟨c.nextFrameNumber + 1⟩ c.nextFrameNumber peer acceptVersion
      (sendFrameRaw_exact crc (f := QueryVersionRequestFrame.new c.nextFrameNumber) rfl)
      acceptVersion_total
    simp only [sent, Client.queryVersion, Client.advance, ht, Option.map_some, hs, if_pos]
    rfl
  | readMemory address length =>
    obtain ⟨t, ht, hs⟩ := transact_sent ⟨c.nextFrameNumber + 1⟩ c.nextFrameNumber peer acceptData
      (sendFrameRaw_spare crc 0 0 (List.replicate 6 0)
        (request_length h c.nextFrameNumber))
      fun _ frame _ => by cases frame <;> exact ⟨_, rfl⟩
    have hnew : ReadMemoryRequestFrame.new c.nextFrameNumber
        (List.replicate (FrameHeader.size + 6 + 2) 0) address length = .ok
          ⟨(request c.nextFrameNumber (.readMemory address length)).header,
            (request c.nextFrameNumber (.readMemory address length)).payload ++
              0 :: 0 :: List.replicate 6 0⟩ := by
      rw [ReadMemoryRequestFrame.new, fillFront_zeros (k := 8) (by rfl)]
      rfl
    simp only [sent, Client.readMemory, Client.advance, hnew, ht, Option.map_some, hs,
      reduceCtorEq, if_false]
  | writeMemory address data =>
    obtain ⟨t, ht, hs⟩ := transact_sent ⟨c.nextFrameNumber + 1⟩ c.nextFrameNumber peer acceptWrite
      (sendFrameRaw_spare crc 0 0 (List.replicate 8 0)
        (request_length h c.nextFrameNumber))
      fun _ frame _ => by cases frame <;> exact ⟨_, rfl⟩
    have hnew : WriteMemoryRequestFrame.new c.nextFrameNumber
        (List.replicate (FrameHeader.size + 6 + 2 + data.length) 0) address data = some (.ok
          ⟨(request c.nextFrameNumber (.writeMemory address data)).header,
            (request c.nextFrameNumber (.writeMemory address data)).payload ++
              0 :: 0 :: List.replicate 8 0⟩) := by
      have hfill : overwrite (overwrite (List.replicate (FrameHeader.size + 6 + 2 + data.length) 0)
          0 (be32 address)) 4 data = be32 address ++ data ++ List.replicate 10 0 := by
        rw [overwrite_zeros (k := 10 + data.length) (by simp [FrameHeader.size]; omega),
          overwrite_append (i := 4) _ _ rfl, List.drop_replicate, Nat.add_sub_cancel]
      have hlen : ¬ (List.replicate (FrameHeader.size + 6 + 2 + data.length) (0 : U8)).length <
          4 + data.length := by rw [List.length_replicate]; omega
      have hfits : 4 + (BitVec.ofNat 16 data.length).toNat < 65536 := by
        have hl : data.length ≤ 65531 := h
        rw [BitVec.toNat_ofNat]
        omega
      simp only [WriteMemoryRequestFrame.new, if_neg hlen, if_pos hfits, hfill]
      rfl
    simp only [sent, Client.writeMemory, Client.advance, hnew, ht, Option.bind_eq_bind,
      Option.bind_some, Option.map_some, hs, reduceCtorEq, if_false]
  | run address =>
    obtain ⟨t, ht, hs⟩ := transact_sent ⟨c.nextFrameNumber + 1⟩ c.nextFrameNumber peer acceptRun
      (sendFrameRaw_spare crc 0 0 (List.replicate 6 0)
        (request_length h c.nextFrameNumber))
      fun _ frame _ => by cases frame <;> exact ⟨_, rfl⟩
    have hnew : RunRequestFrame.new c.nextFrameNumber
        (List.replicate (FrameHeader.size + 4 + 2) 0) address = .ok
          ⟨(request c.nextFrameNumber (.run address)).header,
            (request c.nextFrameNumber (.run address)).payload ++
              0 :: 0 :: List.replicate 6 0⟩ := by
      rw [RunRequestFrame.new, fillFront_zeros (k := 8) (by rfl)]
      rfl
    simp only [sent, Client.run, Client.advance, hnew, ht, Option.map_some, hs, reduceCtorEq,
      if_false]

end Command

/-! ## What arrives -/

/-- The bytes are one well-formed frame; the receiver delivers it, and nothing else,
however it is read, and it is the request of this very command. -/
def Arrives (crc : Digest) (max : ℕ) (bytes : List U8) (n : U16) (command : Command) : Prop :=
  ∃ f : RawFrame, f.WellFormed ∧ bytes = f.encode crc ∧
    (∀ schedule, ∃ q, receiveFrames crc schedule (Receiver.new max) bytes = some q ∧
      (bytes.length ≤ schedule.countP ReadStep.brings → q.rest = []) ∧
      (q.rest = [] → q.events = [.ok f])) ∧
    ∃ frame, Frame.tryFrom f = .ok frame ∧ command.Of n frame

theorem frame_delivered (crc : Digest) {max : ℕ} (hm : FrameHeader.size ≤ max) {f : RawFrame}
    (hf : f.WellFormed) (hfit : f.header.payloadLength.toNat + 2 ≤ sizeLimit max)
    (schedule : List ReadStep) :
    ∃ q, receiveFrames crc schedule (Receiver.new max) (f.encode crc) = some q ∧
      ((f.encode crc).length ≤ schedule.countP ReadStep.brings → q.rest = []) ∧
      (q.rest = [] → q.events = [.ok f]) := by
  have hpos : 0 < max := Nat.lt_of_lt_of_le (by decide) hm
  obtain ⟨q, hq, hev⟩ := frames_behind hm hf hfit (.quiet List.not_mem_nil) trivial schedule
  exact ⟨q, hq, frames_drain hpos reading_new hq, hev⟩

/-- What arrives is within the receiver's 16-bit limit. -/
theorem limit_of_arrives {crc : Digest} {max : ℕ} (hm : FrameHeader.size ≤ max) {f : RawFrame}
    (h : ∀ schedule, ∃ q, receiveFrames crc schedule (Receiver.new max) (f.encode crc) = some q ∧
      ((f.encode crc).length ≤ schedule.countP ReadStep.brings → q.rest = []) ∧
      (q.rest = [] → q.events = [.ok f])) :
    f.header.payloadLength.toNat + 2 ≤ sizeLimit max := by
  have hpos : 0 < max := Nat.lt_of_lt_of_le (by decide) hm
  obtain ⟨q, hq, -, hev⟩ := h (List.replicate (f.encode crc).length (.deliver 1))
  have hrest := bytewise_drains hpos reading_new hq
  refine (frames_bounded reading_new hq ?_).1
  rw [hev hrest]
  exact List.mem_singleton_self _

/-- A frame is recovered from its bytes. -/
theorem encode_injective (crc : Digest) {f : RawFrame} (hf : f.WellFormed) (header : FrameHeader)
    (payload checksum : List U8) (hd : header.frameType.Decodable)
    (hl : payload.length = header.payloadLength.toNat)
    (h : f.encode crc = frameMarker :: header.toBytes ++ payload ++ checksum) :
    f = ⟨header, payload⟩ ∧ be16 (expectedCrc crc header payload) = checksum := by
  rw [RawFrame.encode, RawFrame.body, List.append_assoc] at h
  have hfront := List.append_inj_left h rfl
  have hback := List.append_inj_right h rfl
  have hheader : f.header = header := by
    have h₁ := FrameHeader.tryFrom_toBytes hf.decodable []
    have h₂ := FrameHeader.tryFrom_toBytes hd []
    rw [List.append_nil] at h₁ h₂
    rw [List.cons.inj hfront |>.2, h₂] at h₁
    exact (Except.ok.inj h₁).symm
  have hlen : f.payload.length = payload.length := by
    rw [hf.length, hl, hheader]
  have hpayload := List.append_inj_left hback hlen
  constructor
  · rw [← hheader, ← hpayload]
  · rw [← hheader, ← hpayload]
    exact List.append_inj_right hback hlen

theorem arrives_request (crc : Digest) {max : ℕ} (hm : FrameHeader.size ≤ max) {command : Command}
    (h : command.Fits) (n : U16)
    (hlimit : (command.request n).header.payloadLength.toNat + 2 ≤ sizeLimit max) :
    Arrives crc max ((command.request n).encode crc) n command :=
  ⟨_, Command.request_wellFormed h n, rfl,
    frame_delivered crc hm (Command.request_wellFormed h n) hlimit, Command.request_of h n⟩

/-- **Requests that arrive.** Whatever the client's state and the peer, a command's
bytes are its request, delivered as one frame, exactly if it asks for the version or its
checksum is zero, and the receiver's 16-bit limit lets it through. -/
theorem arrives_iff (crc : Digest) (c : Client) (peer : Peer) {command : Command}
    (h : command.Fits) {max : ℕ} (hm : FrameHeader.size ≤ max) :
    (∃ bytes, command.sent crc c peer = some bytes ∧
        Arrives crc max bytes c.nextFrameNumber command) ↔
      (command = .queryVersion ∨ expectedCrc crc (command.request c.nextFrameNumber).header
          (command.request c.nextFrameNumber).payload = 0) ∧
        (command.request c.nextFrameNumber).header.payloadLength.toNat ≤
          (max - 2) % 65536 := by
  have hwf := Command.request_wellFormed h c.nextFrameNumber
  have hlimit : (command.request c.nextFrameNumber).header.payloadLength.toNat ≤
      (max - 2) % 65536 ↔ (command.request c.nextFrameNumber).header.payloadLength.toNat + 2 ≤
        sizeLimit max := (Nat.add_le_add_iff_right).symm
  rw [Command.sent_eq crc c peer h, hlimit]
  constructor
  · intro h
    rcases h with ⟨bytes, hb, f, hf, hbytes, hdelivered, -⟩
    rw [hbytes] at hdelivered
    have hfits := limit_of_arrives hm hdelivered
    by_cases hq : command = .queryVersion
    · rw [if_pos hq, Option.some.injEq] at hb
      obtain ⟨hsame, -⟩ := encode_injective crc hf _ _ _ hwf.decodable hwf.length
        (hbytes.symm.trans hb.symm)
      rw [hsame] at hfits
      exact ⟨Or.inl hq, hfits⟩
    · rw [if_neg hq, Option.some.injEq] at hb
      obtain ⟨hsame, hcrc⟩ := encode_injective crc hf _ _ _ hwf.decodable hwf.length
        (hbytes.symm.trans hb.symm)
      rw [hsame] at hfits
      exact ⟨Or.inr (be16_injective hcrc), hfits⟩
  · rintro ⟨hcase, hfits⟩
    refine ⟨_, rfl, ?_⟩
    split_ifs with hq
    · exact arrives_request crc hm h _ hfits
    · have hzero := hcase.resolve_left hq
      have hbytes : frameMarker :: (command.request c.nextFrameNumber).header.toBytes ++
          (command.request c.nextFrameNumber).payload ++ [0, 0] =
          (command.request c.nextFrameNumber).encode crc := by
        rw [RawFrame.encode, RawFrame.body, hzero, List.append_assoc]
        rfl
      rw [hbytes]
      exact arrives_request crc hm h _ hfits

theorem arrives_iff_version :
    ∃ bytes, Command.queryVersion.sent (ReflectedCrc.checksum ReflectedCrc.usb) Client.new
        ⟨true, []⟩ = some bytes ∧
      Arrives (ReflectedCrc.checksum ReflectedCrc.usb) 34 bytes Client.new.nextFrameNumber
        .queryVersion :=
  have hfits : Command.queryVersion.Fits := trivial
  (arrives_iff _ _ _ hfits (by decide)).mpr (by decide)

/-- A new client's request to run at `0x80000000` ends in two zeros. -/
theorem arrives_counterexample :
    (Command.run 0x80000000).sent (ReflectedCrc.checksum ReflectedCrc.usb) Client.new ⟨true, []⟩ =
        some [0x5a, 0x03, 0x00, 0x01, 0x00, 0x04, 0x80, 0x00, 0x00, 0x00, 0x00, 0x00] ∧
      ¬ Arrives (ReflectedCrc.checksum ReflectedCrc.usb) 34
        [0x5a, 0x03, 0x00, 0x01, 0x00, 0x04, 0x80, 0x00, 0x00, 0x00, 0x00, 0x00] 1
        (.run 0x80000000) := by
  refine ⟨by decide +kernel, ?_⟩
  intro h
  rcases h with ⟨f, hf, hbytes, -⟩
  obtain ⟨-, hcrc⟩ := encode_injective _ hf
    ⟨.request .run, 1, 4⟩ [0x80, 0x00, 0x00, 0x00] [0x00, 0x00] (by decide) rfl hbytes.symm
  revert hcrc
  decide +kernel

end SeccampRiscvCpu.FwtoolClient
