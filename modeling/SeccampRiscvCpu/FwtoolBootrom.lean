import SeccampRiscvCpu.FwtoolService

/-!
# The bootrom behind the protocol

The handler of `sw-rs/src/main.rs`: version 1, an image buffer of 8192 bytes
that is read and written in place, and a run request that is only acknowledged.

`usize` has 32 bits on the target and the release build does not check sums, so
that the end of a range wraps. A slice expression out of range stops the
program; the handler then has no image any more and never gets one again.

Over it stands an array of 8192 bytes with loads and stores, and behind the
protocol the two cannot be told apart.
-/
namespace SeccampRiscvCpu.FwtoolBootrom
open ByteSlices FwtoolFrame FwtoolReceiver FwtoolReception FwtoolServer FwtoolService
open StreamTransducer

/-- `APPIMAGE_BUFFER.len()` -/
def appImageLen : ℕ := 8192

/-- `APPIMAGE_BUFFER` -/
abbrev AppImage := Buffer appImageLen

/-- `address + buffer.len()` -/
def rangeEnd (address : U32) (length : ℕ) : ℕ := (address.toNat + length) % 4294967296

/-- `destination.copy_from_slice(bytes)` -/
def copyFromSlice (destination bytes : List U8) : Option (List U8) :=
  if destination.length = bytes.length then some bytes else none

theorem copyFromSlice_length {destination bytes result : List U8}
    (h : copyFromSlice destination bytes = some result) : result.length = destination.length := by
  unfold copyFromSlice at h
  split_ifs at h with hl
  exact Option.some.inj h ▸ hl.symm

def onReadMemory (image : AppImage) (address : U32) (buffer : List U8) :
    Option (Except ServerError Unit × List U8) :=
  if appImageLen < rangeEnd address buffer.length then some (.error .invalidAddress, buffer)
  else do
    let bytes ← slice image.bytes address.toNat (rangeEnd address buffer.length)
    let buffer ← copyFromSlice buffer bytes
    return (.ok (), buffer)

def onWriteMemory (image : AppImage) (address : U32) (buffer : List U8) :
    Option (Except ServerError Unit × AppImage) :=
  if appImageLen < rangeEnd address buffer.length then some (.error .invalidAddress, image)
  else do
    let range ← slice image.bytes address.toNat (rangeEnd address buffer.length)
    let bytes ← copyFromSlice range buffer
    let image ← image.store address.toNat bytes
    return (.ok (), image)

theorem onReadMemory_length {image : AppImage} {address : U32} {buffer : List U8}
    {r : Except ServerError Unit × List U8} (h : onReadMemory image address buffer = some r) :
    r.2.length = buffer.length := by
  unfold onReadMemory at h
  split_ifs at h
  · rw [← Option.some.inj h]
  · obtain ⟨bytes, -, h⟩ := Option.bind_eq_some_iff.mp h
    obtain ⟨copied, hcopy, h⟩ := Option.bind_eq_some_iff.mp h
    rw [← Option.some.inj h]
    exact copyFromSlice_length hcopy

/-- A call of a stopped program leaves it stopped, whatever it is said to return. -/
def readOrStop (state : Option AppImage) (address : U32) (buffer : List U8) :
    Except ServerError Unit × List U8 × Option AppImage :=
  match state.bind fun image => onReadMemory image address buffer with
  | none => (.error .unknown, buffer, none)
  | some (result, bytes) => (result, bytes, state)

def writeOrStop (state : Option AppImage) (address : U32) (buffer : List U8) :
    Except ServerError Unit × Option AppImage :=
  match state.bind fun image => onWriteMemory image address buffer with
  | none => (.error .unknown, none)
  | some (result, image) => (result, some image)

theorem readOrStop_length (state : Option AppImage) (address : U32) (buffer : List U8) :
    (readOrStop state address buffer).2.1.length = buffer.length := by
  unfold readOrStop
  cases h : state.bind fun image => onReadMemory image address buffer with
  | none => rfl
  | some r =>
    obtain ⟨image, -, hread⟩ := Option.bind_eq_some_iff.mp h
    exact onReadMemory_length hread

def handler : ServerHandler (Option AppImage) where
  onQueryVersion state := (.ok 1, state)
  onReadMemory := readOrStop
  onWriteMemory := writeOrStop
  onRun state _ := (.ok (), state)
  readMemory_length := readOrStop_length

/-! ## The reference array -/

abbrev Reference := Fin appImageLen → U8

namespace Reference

def read (ref : Reference) (address length : ℕ) (h : address + length ≤ appImageLen) : List U8 :=
  List.ofFn fun i : Fin length => ref ⟨address + i, by omega⟩

def write (ref : Reference) (address : ℕ) (data : List U8) : Reference := fun i =>
  if address ≤ i.val then (data[i.val - address]?).getD (ref i) else ref i

end Reference

/-- What the array answers to a request, and the array after it. -/
def Serves (frame : Frame) (ref ref' : Reference) : Exchange → Prop
  | .readMemory address buffer result => ref' = ref ∧ ∃ request length,
      frame = .readMemoryRequest request ∧
      ReadMemoryRequestFrame.address request = some address ∧
      ReadMemoryRequestFrame.length request = some length ∧ buffer.length = length.toNat ∧
      if h : address.toNat + length.toNat ≤ appImageLen then
        result = .ok (ref.read address.toNat length.toNat h)
      else result = .error .invalidAddress
  | .writeMemory address data result => ∃ request, frame = .writeMemoryRequest request ∧
      WriteMemoryRequestFrame.address request = some address ∧
      WriteMemoryRequestFrame.data request = some data ∧
      if address.toNat + data.length ≤ appImageLen then
        result = .ok () ∧ ref' = ref.write address.toNat data
      else result = .error .invalidAddress ∧ ref' = ref
  | .queryVersion result => ref' = ref ∧ result = .ok 1 ∧ ∃ request,
      frame = .queryVersionRequest request
  | .run address result => ref' = ref ∧ result = .ok () ∧ ∃ request,
      frame = .runRequest request ∧ RunRequestFrame.address request = some address
  | .refused _ => False

/-- The image holds the array. -/
def Holds (state : Option AppImage) (ref : Reference) : Prop :=
  ∃ image, state = some image ∧ image.bytes = List.ofFn ref

theorem holds_zero : Holds (some (.zero appImageLen)) fun _ => 0 :=
  ⟨.zero appImageLen, rfl, List.ext_getElem (by simp [Buffer.zero]) (by simp [Buffer.zero])⟩

theorem rangeEnd_eq {address : U32} {length : ℕ} (h : address.toNat + length < 4294967296) :
    rangeEnd address length = address.toNat + length := Nat.mod_eq_of_lt h

section
variable {ref : Reference} {address : U32} {buffer : List U8}

theorem slice_holds {bytes : List U8} (hb : bytes = List.ofFn ref) {i n : ℕ}
    (h : i + n ≤ appImageLen) : slice bytes i (i + n) = some (ref.read i n h) := by
  have hl : bytes.length = appImageLen := by rw [hb, List.length_ofFn]
  rw [slice_eq _ (Nat.le_add_right i n) (by omega), Option.some.injEq]
  apply List.ext_getElem
  · simp [Reference.read, hl]
    omega
  · intro k hk hk'
    simp [Reference.read, hb]

theorem overwrite_holds {bytes : List U8} (hb : bytes = List.ofFn ref) {i : ℕ}
    (h : i + buffer.length ≤ appImageLen) :
    overwrite bytes i buffer = List.ofFn (ref.write i buffer) := by
  have hl : bytes.length = appImageLen := by rw [hb, List.length_ofFn]
  apply List.ext_getElem?
  intro k
  rw [getElem?_overwrite (by omega), hb, List.getElem?_ofFn, List.getElem?_ofFn]
  by_cases hk : k < appImageLen
  · rw [dif_pos hk, dif_pos hk]
    unfold Reference.write
    split_ifs
    · cases buffer[k - i]? <;> rfl
    · rfl
  · have hnone : buffer[k - i]? = none := List.getElem?_eq_none (by omega)
    rw [dif_neg hk, dif_neg hk, hnone]
    exact ite_self none

/-! ## One request -/

/-- A range within the image has the end the source computes. -/
theorem slice_served (image : AppImage) {length : ℕ} (h : address.toNat + length ≤ appImageLen) :
    ¬ appImageLen < rangeEnd address length ∧ ∃ range,
      slice image.bytes address.toNat (address.toNat + length) = some range ∧
      slice image.bytes address.toNat (rangeEnd address length) = some range ∧
      range.length = length := by
  have hlen : appImageLen < 4294967296 := by decide
  have hend : rangeEnd address length = address.toNat + length := rangeEnd_eq (by omega)
  have hslice := image.slice_eq (Nat.le_add_right address.toNat length) h
  have hrange := length_of_slice hslice
  exact ⟨by omega, _, hslice, hend ▸ hslice, by omega⟩

theorem onReadMemory_served (image : AppImage)
    (h : address.toNat + buffer.length ≤ appImageLen) : ∃ bytes,
      slice image.bytes address.toNat (address.toNat + buffer.length) = some bytes ∧
      onReadMemory image address buffer = some (.ok (), bytes) := by
  obtain ⟨hend, bytes, hslice, hrange, hl⟩ := slice_served image h
  refine ⟨bytes, hslice, ?_⟩
  simp only [onReadMemory, if_neg hend, hrange, Option.bind_eq_bind, Option.bind_some,
    copyFromSlice, if_pos hl.symm]
  rfl

theorem onWriteMemory_served (image : AppImage)
    (h : address.toNat + buffer.length ≤ appImageLen) : ∃ image',
      image'.bytes = overwrite image.bytes address.toNat buffer ∧
      onWriteMemory image address buffer = some (.ok (), image') := by
  obtain ⟨hend, range, -, hrange, hl⟩ := slice_served image h
  obtain ⟨image', hstore, hbytes⟩ := image.store_eq address.toNat buffer h
  refine ⟨image', hbytes, ?_⟩
  simp only [onWriteMemory, if_neg hend, hrange, Option.bind_eq_bind, Option.bind_some,
    copyFromSlice, if_pos hl, hstore]
  rfl

theorem memory_refused (image : AppImage) (h : appImageLen < rangeEnd address buffer.length) :
    onReadMemory image address buffer = some (.error .invalidAddress, buffer) ∧
      onWriteMemory image address buffer = some (.error .invalidAddress, image) :=
  ⟨if_pos h, if_pos h⟩

theorem onReadMemory_spec {image : AppImage} (hi : image.bytes = List.ofFn ref)
    (hreach : address.toNat + buffer.length < 4294967296) :
    onReadMemory image address buffer =
      if h : address.toNat + buffer.length ≤ appImageLen then
        some (.ok (), ref.read address.toNat buffer.length h)
      else some (.error .invalidAddress, buffer) := by
  split_ifs with hle
  · obtain ⟨bytes, hslice, hread⟩ := onReadMemory_served image hle
    rw [slice_holds hi hle] at hslice
    rw [hread, ← Option.some.inj hslice]
  · exact (memory_refused image (by rw [rangeEnd_eq hreach]; omega)).1

theorem onWriteMemory_spec {image : AppImage} (hi : image.bytes = List.ofFn ref)
    (hreach : address.toNat + buffer.length < 4294967296) :
    if address.toNat + buffer.length ≤ appImageLen then
      ∃ image', onWriteMemory image address buffer = some (.ok (), image') ∧
        image'.bytes = List.ofFn (ref.write address.toNat buffer)
    else onWriteMemory image address buffer = some (.error .invalidAddress, image) := by
  split_ifs with hle
  · obtain ⟨image', hbytes, hwrite⟩ := onWriteMemory_served image hle
    exact ⟨image', hwrite, hbytes.trans (overwrite_holds hi hle)⟩
  · exact (memory_refused image (by rw [rangeEnd_eq hreach]; omega)).2

end

/-- The end of the range a request names. -/
def reach : Frame → Option ℕ
  | .readMemoryRequest request => do
    let address ← ReadMemoryRequestFrame.address request
    let length ← ReadMemoryRequestFrame.length request
    return address.toNat + length.toNat
  | .writeMemoryRequest request => do
    let address ← WriteMemoryRequestFrame.address request
    let data ← WriteMemoryRequestFrame.data request
    return address.toNat + data.length
  | _ => none

/-- The step of the simulation: what the handler is asked and says is what the
array answers. -/
theorem serves_of_calls {frame : Frame} {x : Exchange} {state state' : Option AppImage}
    {ref : Reference} (hreach : ∀ n, reach frame = some n → n < 4294967296)
    (hs : Holds state ref) (hc : x.Calls handler frame state state') :
    ∃ ref', Serves frame ref ref' x ∧ Holds state' ref' := by
  obtain ⟨image, rfl, hi⟩ := id hs
  cases x with
  | queryVersion result =>
    obtain ⟨hframe, hcall⟩ := hc
    cases hcall
    exact ⟨ref, ⟨rfl, rfl, hframe⟩, hs⟩
  | readMemory address buffer result =>
    obtain ⟨request, length, answer, data, rfl, ha, hn, hl, hcall, rfl⟩ := hc
    have hend := hreach (address.toNat + length.toNat) (by simp [reach, ha, hn])
    rw [← hl] at hend
    have hread := onReadMemory_spec hi hend
    simp only [handler, readOrStop, Option.bind_some] at hcall
    refine ⟨ref, ⟨rfl, request, length, rfl, ha, hn, hl, ?_⟩, ?_⟩
    · split_ifs with hfit
      · rw [dif_pos (by omega)] at hread
        rw [hread] at hcall
        cases hcall
        simp [Except.map, hl]
      · rw [dif_neg (by omega)] at hread
        rw [hread] at hcall
        cases hcall
        rfl
    · split_ifs at hread <;> rw [hread] at hcall <;> cases hcall <;> exact hs
  | writeMemory address data result =>
    obtain ⟨request, rfl, ha, hd, hcall⟩ := hc
    have hend := hreach (address.toNat + data.length) (by simp [reach, ha, hd])
    have hwrite := onWriteMemory_spec hi hend
    simp only [handler, writeOrStop, Option.bind_some] at hcall
    by_cases hfit : address.toNat + data.length ≤ appImageLen
    · rw [if_pos hfit] at hwrite
      obtain ⟨image', hwrite, hi'⟩ := hwrite
      rw [hwrite] at hcall
      cases hcall
      refine ⟨ref.write address.toNat data, ⟨request, rfl, ha, hd, ?_⟩, image', rfl, hi'⟩
      rw [if_pos hfit]
      exact ⟨rfl, rfl⟩
    · rw [if_neg hfit] at hwrite
      rw [hwrite] at hcall
      cases hcall
      refine ⟨ref, ⟨request, rfl, ha, hd, ?_⟩, hs⟩
      rw [if_neg hfit]
      exact ⟨rfl, rfl⟩
  | run address result =>
    obtain ⟨request, hframe, ha, hcall⟩ := hc
    cases hcall
    exact ⟨ref, ⟨rfl, rfl, request, hframe, ha⟩, hs⟩
  | refused e => exact hc.elim

/-! ## Runs -/

/-- A well-formed request that reads no more than the payload advertised and whose
range has its end in the address space. It may be too long for the receiver. -/
structure HostRequest (max : ℕ) (f : RawFrame) : Prop where
  length : f.payload.length = f.header.payloadLength.toNat
  request : ∃ t, f.header.frameType = .request t
  typed : ∃ frame, Frame.tryFrom f = .ok frame
  read : ∀ frame, Frame.tryFrom f = .ok frame → ¬ LongRead max frame
  reach : ∀ frame n, Frame.tryFrom f = .ok frame → reach frame = some n → n < 4294967296

/-- The receiver has room for the frame. -/
def fits (max : ℕ) (f : RawFrame) : Bool := f.header.payloadLength.toNat + 2 ≤ max

theorem HostRequest.toRequest {max : ℕ} {f : RawFrame} (h : HostRequest max f)
    (hfit : fits max f = true) : Request max f :=
  ⟨h.length, of_decide_eq_true hfit, h.request, h.typed, h.read⟩

/-- The requests up to the first that is too long are received, and nothing after them. -/
theorem scan_requests (crc : Digest) {max : ℕ} {s : Scan} (hs : Idle s)
    {traffic : List (List U8 × RawFrame)} {tail : List U8}
    (ht : ∀ t ∈ traffic, frameMarker ∉ t.1 ∧ HostRequest max t.2) (htail : frameMarker ∉ tail) :
    (scanner crc max).output s (streamOf crc traffic tail) =
      ((traffic.map Prod.snd).takeWhile (fits max)).map .ok := by
  induction traffic generalizing s with
  | nil => exact (scan_noise crc max hs htail).2
  | cons t traffic ih =>
    obtain ⟨noise, f⟩ := t
    obtain ⟨hnoise, hf⟩ := ht (noise, f) List.mem_cons_self
    have hdecodable := request_decodable hf.request hf.typed
    obtain ⟨hidle, hquiet⟩ := scan_noise crc max hs hnoise
    have hstream : streamOf crc ((noise, f) :: traffic) tail =
        noise ++ (f.encode crc ++ streamOf crc traffic tail) := by
      simp [streamOf]
    rw [hstream, Transducer.output_append, hquiet, List.nil_append, List.map_cons]
    cases hfit : fits max f with
    | true =>
      obtain ⟨hidle', hframe⟩ := scan_segment crc max hidle (g := .intact f)
        ⟨(hf.toRequest hfit).wellFormed, of_decide_eq_true hfit⟩
      rw [List.takeWhile_cons_of_pos hfit, Transducer.output_append]
      rw [Segment.bytes] at hidle' hframe
      rw [hframe, ih hidle' fun t ht' => ht t (List.mem_cons_of_mem _ ht')]
      rfl
    | false =>
      have hlong : max < f.header.payloadLength.toNat + 2 :=
        Nat.lt_of_not_le (of_decide_eq_false hfit)
      rw [List.takeWhile_cons_of_neg (by simp [hfit]), RawFrame.encode, List.append_assoc]
      exact (scan_oversize hidle hdecodable hlong _).2

/-- **The bootrom is a memory.** The requests are answered in order, once each and all
of them once the stream is read, as the array answers them; the image then holds the array,
and the bytes sent and pending are the responses. -/
theorem bootrom_refines_reference (crc : Digest) {max : ℕ} (hm : 14 ≤ max) (hx : max ≤ 65535)
    {traffic : List (List U8 × RawFrame)} {tail : List U8}
    (ht : ∀ t ∈ traffic, frameMarker ∉ t.1 ∧ HostRequest max t.2) (htail : frameMarker ∉ tail)
    (steps : List (ReadStep × WriteStep)) :
    ∃ q ref, serve crc handler steps (Server.new max (some (.zero appImageLen)))
        (streamOf crc traffic tail) = some q ∧
      (log q.events).map Prod.fst <+: (traffic.map Prod.snd).takeWhile (fits max) ∧
      (q.rest = [] →
        (log q.events).map Prod.fst = (traffic.map Prod.snd).takeWhile (fits max)) ∧
      Threads (fun e ref ref' => ∃ frame, Frame.tryFrom e.1 = .ok frame ∧
        Serves frame ref ref' e.2) (fun _ => 0) (log q.events) ref ∧
      Holds q.state.handler ref ∧
      written q.events ++ outstanding q.state = (log q.events).flatMap (replyBytes crc max) := by
  have hmem : ∀ f ∈ (traffic.map Prod.snd).takeWhile (fits max),
      HostRequest max f ∧ fits max f = true := by
    intro f hf
    obtain ⟨t, ht', rfl⟩ := List.mem_map.mp ((List.takeWhile_prefix _).subset hf)
    exact ⟨(ht t ht').2, List.mem_takeWhile_imp hf⟩
  obtain ⟨q, hq, hpre, hall, hcalls, hout, -⟩ := serve_requests crc hm hx handler
    (some (.zero appImageLen)) (fun f hf => (hmem f hf).1.toRequest (hmem f hf).2)
    (scan_requests crc idle_start ht htail) steps
  have hstep : ∀ e ∈ log q.events, ∀ state state' ref, Holds state ref →
      (∃ frame, Frame.tryFrom e.1 = .ok frame ∧ e.2.Calls handler frame state state') →
      ∃ ref', (∃ frame, Frame.tryFrom e.1 = .ok frame ∧ Serves frame ref ref' e.2) ∧
        Holds state' ref' := by
    intro e he state state' ref hR hcall
    rcases hcall with ⟨frame, hf, hc⟩
    have hrequest := (hmem e.1 (hpre.subset (List.mem_map_of_mem he))).1
    obtain ⟨ref', hserve, hholds⟩ := serves_of_calls (fun n => hrequest.reach frame n hf) hR hc
    exact ⟨ref', ⟨frame, hf, hserve⟩, hholds⟩
  obtain ⟨ref, hserves, hholds⟩ := hcalls.simulate holds_zero hstep
  exact ⟨q, ref, hq, hpre, hall, hserves, hholds, hout⟩

/-- A store up to the last byte, a load around its beginning, and a load past the end. -/
def storeTraffic : List (List U8 × RawFrame) :=
  [([0x00], ⟨⟨.request .writeMemory, 1, 6⟩, be32 8190 ++ [0xaa, 0xbb]⟩),
    ([], ⟨⟨.request .readMemory, 2, 6⟩, be32 8189 ++ be16 3⟩),
    ([], ⟨⟨.request .readMemory, 3, 6⟩, be32 8190 ++ be16 3⟩)]

theorem hostRequest_read (frameNumber : U16) {address : U32} {length : U16}
    (hl : length.toNat ≤ 120) (hend : address.toNat + length.toNat < 4294967296) :
    HostRequest 128 ⟨⟨.request .readMemory, frameNumber, 6⟩, be32 address ++ be16 length⟩ := by
  have haddress : slice (be32 address ++ be16 length) 0 4 = some (be32 address) :=
    slice_append_left (be32 address) (be16 length)
  have hlength : slice (be32 address ++ be16 length) 4 6 = some (be16 length) :=
    by
    simpa using slice_middle (be32 address) (be16 length) [] rfl rfl
  refine ⟨rfl, ⟨_, rfl⟩, ⟨_, rfl⟩, ?_, ?_⟩
  · rintro _ ⟨⟩ ⟨_, length', ⟨⟩, hn, hlong⟩
    simp [ReadMemoryRequestFrame.length, hlength] at hn
    subst hn
    omega
  · rintro _ n ⟨⟩ hn
    simp [reach, ReadMemoryRequestFrame.address, payloadAddress, ReadMemoryRequestFrame.length,
      haddress, hlength] at hn
    omega

theorem bootrom_refines_reference_store :
    ∃ q ref, serve (ReflectedCrc.checksum ReflectedCrc.usb) handler
        [(.deliver 9, .accept 4), (.deliver 9, .fail), (.deliver 9, .accept 9)]
        (Server.new 128 (some (.zero appImageLen)))
        (streamOf (ReflectedCrc.checksum ReflectedCrc.usb) storeTraffic [0x33]) = some q ∧
      (log q.events).map Prod.fst <+: (storeTraffic.map Prod.snd).takeWhile (fits 128) ∧
      (q.rest = [] →
        (log q.events).map Prod.fst = (storeTraffic.map Prod.snd).takeWhile (fits 128)) ∧
      Threads (fun e ref ref' => ∃ frame, Frame.tryFrom e.1 = .ok frame ∧
        Serves frame ref ref' e.2) (fun _ => 0) (log q.events) ref ∧
      Holds q.state.handler ref ∧
      written q.events ++ outstanding q.state = (log q.events).flatMap
        (replyBytes (ReflectedCrc.checksum ReflectedCrc.usb) 128) := by
  apply bootrom_refines_reference _ (by decide) (by decide)
  · intro t ht
    simp only [storeTraffic, List.mem_cons, List.not_mem_nil, or_false] at ht
    rcases ht with rfl | rfl | rfl
    · refine ⟨by decide, rfl, ⟨_, rfl⟩, ⟨_, rfl⟩, ?_, ?_⟩
      · rintro _ ⟨⟩ ⟨_, _, ⟨⟩, -⟩
      · rintro _ n ⟨⟩ hn
        rw [← Option.some.inj hn]
        decide
    · exact ⟨by decide, hostRequest_read 2 (by decide) (by decide)⟩
    · exact ⟨by decide, hostRequest_read 3 (by decide) (by decide)⟩
  · decide

/-! ## Requests at the end of the address space -/

/-- The request is answered with the bytes it names, or refused if it names others. -/
def ReadsInBounds (image : AppImage) (address : U32) (length : ℕ)
    (result : Option (Except ServerError Unit × List U8)) : Prop :=
  if address.toNat + length ≤ appImageLen then
    ∃ bytes, slice image.bytes address.toNat (address.toNat + length) = some bytes ∧
      result = some (.ok (), bytes)
  else ∃ bytes, result = some (.error .invalidAddress, bytes)

/-- The bytes are stored where the request says, or it is refused and nothing is stored. -/
def WritesInBounds (image : AppImage) (address : U32) (buffer : List U8)
    (result : Option (Except ServerError Unit × AppImage)) : Prop :=
  if address.toNat + buffer.length ≤ appImageLen then
    ∃ image', image'.bytes = overwrite image.bytes address.toNat buffer ∧
      result = some (.ok (), image')
  else result = some (.error .invalidAddress, image)

/-- The end of the range does not wrap, or it wraps to behind the image. -/
def EndRefused (address : U32) (length : ℕ) : Prop :=
  address.toNat + length < 4294967296 ∨ appImageLen < rangeEnd address length

section
variable {image : AppImage} {address : U32} {buffer : List U8}

theorem EndRefused.rangeEnd_le_iff {length : ℕ} (h : EndRefused address length) :
    rangeEnd address length ≤ appImageLen ↔ address.toNat + length ≤ appImageLen := by
  rcases Nat.lt_or_ge (address.toNat + length) 4294967296 with hreach | hwrap
  · rw [rangeEnd_eq hreach]
  · have hbehind := h.resolve_left (by omega)
    have hlen : appImageLen < 4294967296 := by decide
    omega

/-- A range whose end has wrapped into the image stops both functions. -/
theorem wrapped_stops (h : ¬ EndRefused address buffer.length) :
    onReadMemory image address buffer = none ∧ onWriteMemory image address buffer = none := by
  simp only [EndRefused, not_or, Nat.not_lt] at h
  obtain ⟨hwrap, hin⟩ := h
  have hend : rangeEnd address buffer.length < 4294967296 := Nat.mod_lt _ (by decide)
  have hlength : ∀ range, slice image.bytes address.toNat (rangeEnd address buffer.length) =
      some range → buffer.length ≠ range.length := by
    intro range hrange
    have hle := length_of_slice hrange
    omega
  constructor
  · rw [onReadMemory, if_neg (by omega)]
    cases hrange : slice image.bytes address.toNat (rangeEnd address buffer.length) with
    | none => rfl
    | some range => simp [copyFromSlice, hlength range hrange]
  · rw [onWriteMemory, if_neg (by omega)]
    cases hrange : slice image.bytes address.toNat (rangeEnd address buffer.length) with
    | none => rfl
    | some range => simp [copyFromSlice, (hlength range hrange).symm]

theorem onReadMemory_bounds (h : EndRefused address buffer.length) :
    ReadsInBounds image address buffer.length (onReadMemory image address buffer) := by
  unfold ReadsInBounds
  split_ifs with hfit
  · exact onReadMemory_served image hfit
  · exact ⟨buffer, (memory_refused image (Nat.not_le.mp (mt h.rangeEnd_le_iff.mp hfit))).1⟩

theorem onWriteMemory_bounds (h : EndRefused address buffer.length) :
    WritesInBounds image address buffer (onWriteMemory image address buffer) := by
  unfold WritesInBounds
  split_ifs with hfit
  · exact onWriteMemory_served image hfit
  · exact (memory_refused image (Nat.not_le.mp (mt h.rangeEnd_le_iff.mp hfit))).2

end

/-- **The bounds of a memory request.** Both functions serve the requests within the image and
refuse the others, unless the end of the range wraps into the image. -/
theorem memory_bounds_iff (image : AppImage) (address : U32) (buffer : List U8) :
    (ReadsInBounds image address buffer.length (onReadMemory image address buffer) ↔
      EndRefused address buffer.length) ∧
    (WritesInBounds image address buffer (onWriteMemory image address buffer) ↔
      EndRefused address buffer.length) := by
  refine ⟨⟨?_, onReadMemory_bounds⟩, ?_, onWriteMemory_bounds⟩
  · intro hread
    by_contra hwrap
    rw [(wrapped_stops hwrap).1, ReadsInBounds] at hread
    split_ifs at hread <;> simp at hread
  · intro hwrite
    by_contra hwrap
    rw [(wrapped_stops hwrap).2, WritesInBounds] at hwrite
    split_ifs at hwrite
    simp at hwrite

/-- One byte at the last address: the program stops. -/
theorem memory_bounds_last : ¬ ∀ (image : AppImage) (address : U32) (buffer : List U8),
    ReadsInBounds image address buffer.length (onReadMemory image address buffer) ∧
      WritesInBounds image address buffer (onWriteMemory image address buffer) := by
  intro hall
  have hread := (hall (.zero appImageLen) 0xffffffff [0]).1
  have hwrap : ¬ EndRefused 0xffffffff ([0] : List U8).length := by
    rw [EndRefused]
    decide
  rw [(wrapped_stops hwrap).1, ReadsInBounds, if_neg (by decide)] at hread
  obtain ⟨bytes, hstopped⟩ := hread
  exact absurd hstopped nofun

end SeccampRiscvCpu.FwtoolBootrom
