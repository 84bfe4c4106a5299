import SeccampRiscvCpu.FwtoolReceiver
import SeccampRiscvCpu.ReflectedCrc

/-!
# What the receiver delivers

Runs of the receiver over a whole stream, under any sizes of the reads. A
stream of noise, intact frames and frames with a wrong checksum is delivered
exactly. An oversize frame is never finished with. The sizes of the reads are
unobservable exactly when the 16-bit limit is the limit of the buffer.
-/
namespace SeccampRiscvCpu.FwtoolReception
open ByteSlices FwtoolFrame FwtoolReceiver StreamTransducer

/-- The results that are not `Ok(None)`. -/
def nonNone : ReceiveResult → Option (Except ReceiveError RawFrame)
  | .ok none => none
  | .ok (some f) => some (.ok f)
  | .error e => some (.error e)

section
variable {β : Type*} {max : ℕ}

def poll (view : ReceiveResult → Option β) (crc : Digest) (answer : ReadStep)
    (r : Receiver max) (stream : List U8) : Option (Poll (Receiver max) U8 β) :=
  (r.receive crc answer stream).map fun v => ⟨v.receiver, v.rest, view v.result⟩

theorem poll_of_receive (view : ReceiveResult → Option β) {crc : Digest} {answer : ReadStep}
    {r : Receiver max} {stream : List U8} {v : Received max}
    (h : r.receive crc answer stream = some v) :
    poll view crc answer r stream = some ⟨v.receiver, v.rest, view v.result⟩ := by
  rw [poll, h, Option.map_some]

/-- Calls whose reads hand over at most the given numbers of bytes. -/
def receiveChunks (crc : Digest) (chunks : List ℕ) (r : Receiver max) (stream : List U8) :
    Option (PollRun (Receiver max) U8 (Except ReceiveError RawFrame)) :=
  pollRun (fun n => poll nonNone crc (.deliver n)) chunks r stream

/-- Calls under any schedule of reads, read errors included. -/
def receiveFrames (crc : Digest) (schedule : List ReadStep) (r : Receiver max)
    (stream : List U8) : Option (PollRun (Receiver max) U8 (Except FrameError RawFrame)) :=
  pollRun (poll frameEvent crc) schedule r stream

/-- The frame errors among the errors of a call. -/
abbrev asResult (e : Except FrameError RawFrame) : Except ReceiveError RawFrame :=
  e.mapError .frameError

theorem frames_track (crc : Digest) (hm : 8 ≤ max) (hx : LimitExact max) :
    Tracks (scanner crc max) (poll frameEvent crc) (@Agrees max) := by
  intro answer r s stream h
  obtain ⟨v, taken, hv, hs, hagree, hout, -⟩ := receive_agrees crc hm hx h answer stream
  exact ⟨⟨v.receiver, v.rest, frameEvent v.result⟩, taken, poll_of_receive _ hv, hs, hagree, hout⟩

theorem poll_receive {crc : Digest} {answer : ReadStep} {r : Receiver max} {stream : List U8}
    {p : Poll (Receiver max) U8 (Except FrameError RawFrame)}
    (h : poll frameEvent crc answer r stream = some p) :
    ∃ v, r.receive crc answer stream = some v ∧ p.state = v.receiver ∧ p.rest = v.rest ∧
      p.event = frameEvent v.result := by
  obtain ⟨v, hv, rfl⟩ := Option.map_eq_some_iff.mp h
  exact ⟨v, hv, rfl, rfl, rfl⟩

/-- A call reads on, and takes a byte of a stream that is not empty if it is given one. -/
theorem receive_takes {crc : Digest} (hm : 0 < max) {r : Receiver max} (hr : Reading max r.state)
    {answer : ReadStep} {stream : List U8} {v : Received max}
    (hv : r.receive crc answer stream = some v) : Reading max v.receiver.state ∧
      v.rest.length ≤ stream.length - answer.brings.toNat := by
  obtain ⟨taken, htaken, hnext, -⟩ := receive_reading hr hv
  refine ⟨hnext, ?_⟩
  cases answer with
  | fail =>
    rw [htaken, List.length_append]
    exact Nat.le_add_left _ _
  | deliver n =>
    obtain ⟨offset, length, hrange, hpos⟩ := readRange_pos hm hr
    rw [receive_rest crc hrange hv, List.length_drop, ReadStep.brings]
    have hleast : (decide (0 < n)).toNat ≤ min n length := by
      by_cases hn : 0 < n
      · rw [decide_eq_true hn, Bool.toNat_true]
        omega
      · rw [decide_eq_false hn, Bool.toNat_false]
        exact Nat.zero_le _
    omega

/-- Any receiver has read the stream after as many reads with a byte as it has bytes. -/
theorem frames_drain {crc : Digest} (hm : 0 < max) {r : Receiver max} (hr : Reading max r.state)
    {schedule : List ReadStep} {stream : List U8}
    {q : PollRun (Receiver max) U8 (Except FrameError RawFrame)}
    (hq : receiveFrames crc schedule r stream = some q)
    (henough : stream.length ≤ schedule.countP ReadStep.brings) : q.rest = [] := by
  refine pollRun_drains (I := fun t _ => Reading max t.state) ?_ hr hq henough
  intro answer _ t rest p ht hp
  obtain ⟨v, hv, hstate, hrest, -⟩ := poll_receive hp
  rw [hstate, hrest]
  exact receive_takes hm ht hv

theorem chunks_drain {crc : Digest} (hm : 0 < max) {r : Receiver max} (hr : Reading max r.state)
    {chunks : List ℕ} {stream : List U8}
    {q : PollRun (Receiver max) U8 (Except ReceiveError RawFrame)}
    (hq : receiveChunks crc chunks r stream = some q)
    (henough : stream.length ≤ chunks.countP (0 < ·)) : q.rest = [] := by
  refine pollRun_drains (I := fun t _ => Reading max t.state) ?_ hr hq henough
  intro n _ t rest p ht hp
  obtain ⟨v, hv, rfl⟩ := Option.map_eq_some_iff.mp hp
  exact receive_takes hm ht hv

/-- Byte by byte any receiver reads the whole stream. -/
theorem bytewise_drains {crc : Digest} (hm : 0 < max) {r : Receiver max} (hr : Reading max r.state)
    {stream : List U8} {q : PollRun (Receiver max) U8 (Except FrameError RawFrame)}
    (hq : receiveFrames crc (List.replicate stream.length (.deliver 1)) r stream = some q) :
    q.rest = [] := by
  refine frames_drain hm hr hq ?_
  rw [List.countP_replicate]
  exact Nat.le_refl _

theorem reading_new : Reading max (Receiver.new max).state := Nat.succ_pos _

/-- Byte by byte the whole stream is read. -/
theorem frames_bytewise (crc : Digest) (hm : 8 ≤ max) (hx : LimitExact max) (stream : List U8) :
    ∃ q, receiveFrames crc (List.replicate stream.length (.deliver 1)) (Receiver.new max) stream =
      some q ∧ q.rest = [] := by
  obtain ⟨q, taken, hq, -⟩ := (frames_track crc hm hx).run
    (List.replicate stream.length (.deliver 1)) (agrees_new max) stream
  exact ⟨q, hq, bytewise_drains (by omega) reading_new hq⟩

theorem chunks_track (crc : Digest) (hm : 8 ≤ max) (hx : LimitExact max) :
    Tracks ((scanner crc max).rename asResult) (fun n => poll nonNone crc (.deliver n))
      (@Agrees max) := by
  intro n r s stream h
  obtain ⟨v, taken, hv, hs, hagree, hout, hio⟩ :=
    receive_agrees crc hm hx h (.deliver n) stream
  refine ⟨⟨v.receiver, v.rest, nonNone v.result⟩, taken, poll_of_receive _ hv, hs, hagree, ?_⟩
  rw [Transducer.rename_output, ← hout]
  rcases hr : v.result with (_ | e) | (_ | f)
  · exact absurd (hio hr) nofun
  · rfl
  · rfl
  · rfl

end

/-! ## Streams of noise, intact frames and damaged frames -/

inductive Segment where
  | noise (bytes : List U8)
  | intact (frame : RawFrame)
  | damaged (header : FrameHeader) (payload : List U8) (checksum : U16)
deriving DecidableEq, Repr

namespace Segment

def bytes (crc : Digest) : Segment → List U8
  | .noise bytes => bytes
  | .intact f => f.encode crc
  | .damaged h payload checksum => frameMarker :: h.toBytes ++ (payload ++ be16 checksum)

/-- Noise has no marker; frames are decodable and fit a buffer of `max` bytes;
the payload or checksum of a damaged frame no longer match. -/
def Valid (crc : Digest) (max : ℕ) : Segment → Prop
  | .noise bytes => frameMarker ∉ bytes
  | .intact f => f.WellFormed ∧ f.header.payloadLength.toNat + 2 ≤ max
  | .damaged h payload checksum => h.frameType.Decodable ∧
      payload.length = h.payloadLength.toNat ∧ h.payloadLength.toNat + 2 ≤ max ∧
      checksum ≠ expectedCrc crc h payload

def events (crc : Digest) : Segment → List (Except FrameError RawFrame)
  | .noise _ => []
  | .intact f => [.ok f]
  | .damaged h payload checksum =>
    [.error (.crcMismatch (expectedCrc crc h payload) checksum h)]

end Segment

/-- Between frames: fewer bytes than a header, and no marker among them. -/
def Idle : Scan → Prop
  | .header seen => frameMarker ∉ seen ∧ seen.length < FrameHeader.size
  | _ => False

theorem idle_start : Idle (.header []) := ⟨by simp, by decide⟩

section
variable (crc : Digest) (max : ℕ)

theorem scan_noise {s : Scan} (hs : Idle s) {bytes : List U8} (hb : frameMarker ∉ bytes) :
    Idle ((scanner crc max).run s bytes) ∧ (scanner crc max).output s bytes = [] := by
  induction bytes generalizing s with
  | nil => exact ⟨hs, rfl⟩
  | cons b bytes ih =>
    obtain ⟨hb₀, hb₁⟩ := not_or.mp (mt List.mem_cons.mpr hb)
    match s, hs with
    | .header seen, ⟨hseen, hl⟩ =>
      have hseen' : frameMarker ∉ seen ++ [b] := by
        simpa [not_or] using ⟨hseen, hb₀⟩
      have hidle : Idle ((scanner crc max).step (.header seen) b) := by
        rcases Nat.lt_or_ge (seen.length + 1) FrameHeader.size with hlt | hge
        · rw [show (scanner crc max).step (.header seen) b = .header (seen ++ [b]) from
            if_neg (by omega)]
          exact ⟨hseen', by simpa using hlt⟩
        · rw [show (scanner crc max).step (.header seen) b = Scan.ofWindow max (seen ++ [b]) from
            if_pos (by omega)]
          simp only [Scan.ofWindow, FrameHeader.readHeader_noMarker hseen']
          exact idle_start
      obtain ⟨hrun, hout⟩ := ih hidle hb₁
      exact ⟨hrun, by rw [Transducer.output_cons, hout]; rfl⟩

theorem ofWindow_header {h : FrameHeader} (hd : h.frameType.Decodable)
    (hfit : h.payloadLength.toNat + 2 ≤ max) :
    Scan.ofWindow max (frameMarker :: h.toBytes) = .payload h [] := by
  simp only [Scan.ofWindow, FrameHeader.readHeader_toBytes hd, if_pos hfit]

/-- Noise in front of a marker costs one shift of the window and nothing else. -/
theorem ofWindow_shift {noise : List U8} (hn : frameMarker ∉ noise) {seen : List U8}
    (hl : seen.length < 5) :
    Scan.ofWindow max (noise ++ frameMarker :: seen) = .header (frameMarker :: seen) := by
  simp only [Scan.ofWindow, FrameHeader.readHeader_marker _ hn, FrameHeader.tryFrom_short hl,
    List.drop_left]

/-- Between frames a marker is always at the front of the window it completes
with the five bytes behind it. -/
theorem scan_marker {s : Scan} (hs : Idle s) {window : List U8} (hl : window.length = 5) :
    (scanner crc max).run s (frameMarker :: window) =
        Scan.ofWindow max (frameMarker :: window) ∧
      (scanner crc max).output s (frameMarker :: window) = [] := by
  have hsize : FrameHeader.size = 6 := rfl
  match s, hs with
  | .header [], _ =>
    exact scan_window crc max [] _ (by simp) (by simp [hsize, hl])
  | .header (q :: seen), ⟨hn, hlt⟩ =>
    -- the noise fills the front of the first window, the marker its back
    have hsplit : frameMarker :: window =
        (frameMarker :: window.take (FrameHeader.size - (q :: seen).length - 1)) ++
          window.drop (FrameHeader.size - (q :: seen).length - 1) := by
      rw [List.cons_append, List.take_append_drop]
    have hfront := scan_window crc max (q :: seen)
      (frameMarker :: window.take (FrameHeader.size - (q :: seen).length - 1))
      (by simp) (by simp [hsize, hl] at hlt ⊢; omega)
    have hback := scan_window crc max
      (frameMarker :: window.take (FrameHeader.size - (q :: seen).length - 1))
      (window.drop (FrameHeader.size - (q :: seen).length - 1))
      (by simp [hsize, hl] at hlt ⊢; omega) (by simp [hsize, hl] at hlt ⊢; omega)
    rw [ofWindow_shift max hn (by simp [hsize, hl] at hlt ⊢; omega)] at hfront
    rw [← hsplit] at hback
    constructor
    · rw [hsplit, Transducer.run_append, hfront.1, hback.1, ← hsplit]
    · rw [hsplit, Transducer.output_append, hfront.1, hfront.2, hback.2]
      rfl

/-- A frame that fits ends the scan between frames, with the outcome of the
checksum comparison. -/
theorem scan_frame {s : Scan} (hs : Idle s) {h : FrameHeader} (hd : h.frameType.Decodable)
    (hfit : h.payloadLength.toNat + 2 ≤ max) {payload : List U8}
    (hl : payload.length = h.payloadLength.toNat) (checksum : U16) :
    (scanner crc max).run s (frameMarker :: h.toBytes ++ (payload ++ be16 checksum)) =
        .header [] ∧
      (scanner crc max).output s (frameMarker :: h.toBytes ++ (payload ++ be16 checksum)) =
        [checkCrc crc h payload checksum] := by
  obtain ⟨hrun, hout⟩ := scan_marker crc max hs h.toBytes_length
  rw [ofWindow_header max hd hfit] at hrun
  obtain ⟨hrun', hout'⟩ := scan_body crc max h [] (payload ++ be16 checksum)
    (by simp) (by simp [hl])
  have hread := RawFrame.readFramePayload_append crc payload
    (.ofNat 8 (checksum.toNat / 256)) (checksum.setWidth 8) hl
  rw [ofBe16_be16] at hread
  rw [Transducer.run_append, Transducer.output_append, hrun, hout, hrun', hout']
  refine ⟨rfl, ?_⟩
  simp only [List.nil_append, be16, hread, Option.map_some, Option.toList]
  unfold checkCrc
  split_ifs <;> rfl

/-- Nothing is reported before the last byte of a frame. -/
theorem scan_part {f : RawFrame} (hf : f.WellFormed) (hfit : f.header.payloadLength.toNat + 2 ≤ max)
    {part rest : List U8} (hsplit : f.encode crc = part ++ rest) (hrest : rest ≠ []) :
    (scanner crc max).output (.header []) part = [] := by
  have hsize : FrameHeader.size = 6 := rfl
  have hl := congrArg List.length hsplit
  have hpos := List.length_pos_iff.mpr hrest
  rw [f.encode_length crc, hf.length, List.length_append] at hl
  rcases Nat.lt_or_ge part.length FrameHeader.size with hlt | hge
  · exact (scan_header crc max [] part (by simpa using hlt)).2
  · -- the header is complete, and the body is not
    obtain ⟨body, rfl⟩ : frameMarker :: f.header.toBytes <+: part :=
      List.prefix_of_prefix_length_le ⟨f.body crc, rfl⟩ ⟨rest, hsplit.symm⟩
        (by simpa [hsize] using hge)
    obtain ⟨hrun, hout⟩ := scan_marker crc max idle_start f.header.toBytes_length
    rw [ofWindow_header max hf.decodable hfit] at hrun
    have hbody : body.length < f.header.payloadLength.toNat + 2 := by
      simp only [List.length_append, List.length_cons, FrameHeader.toBytes_length] at hl
      omega
    rw [Transducer.output_append, hrun, hout, List.nil_append]
    exact (scan_payload crc max f.header [] body (by simpa using hbody)).2

theorem scan_segment {s : Scan} (hs : Idle s) {g : Segment} (hg : g.Valid crc max) :
    Idle ((scanner crc max).run s (g.bytes crc)) ∧
      (scanner crc max).output s (g.bytes crc) = g.events crc := by
  cases g with
  | noise bytes => exact scan_noise crc max hs hg
  | intact f =>
    obtain ⟨hf, hfit⟩ := hg
    obtain ⟨hrun, hout⟩ := scan_frame crc max hs hf.decodable hfit hf.length
      (expectedCrc crc f.header f.payload)
    constructor
    · rw [Segment.bytes, RawFrame.encode, RawFrame.body, hrun]
      exact idle_start
    · rw [Segment.bytes, RawFrame.encode, RawFrame.body, hout]
      simp [checkCrc, Segment.events]
  | damaged h payload checksum =>
    obtain ⟨hd, hl, hfit, hne⟩ := hg
    obtain ⟨hrun, hout⟩ := scan_frame crc max hs hd hfit hl checksum
    exact ⟨by rw [Segment.bytes, hrun]; exact idle_start,
      by rw [Segment.bytes, hout, checkCrc, if_pos hne]; rfl⟩

/-- The scan of a stream of valid segments reports each of them, in order. -/
theorem scan_segments {s : Scan} (hs : Idle s) {segments : List Segment}
    (hv : ∀ g ∈ segments, g.Valid crc max) :
    Idle ((scanner crc max).run s (segments.flatMap (·.bytes crc))) ∧
      (scanner crc max).output s (segments.flatMap (·.bytes crc)) =
        segments.flatMap (·.events crc) := by
  induction segments generalizing s with
  | nil => exact ⟨hs, rfl⟩
  | cons g segments ih =>
    obtain ⟨hidle, hout⟩ := scan_segment crc max hs (hv g List.mem_cons_self)
    obtain ⟨hidle', hout'⟩ := ih hidle fun g' hg' => hv g' (List.mem_cons_of_mem g hg')
    simp only [List.flatMap_cons, Transducer.run_append, Transducer.output_append]
    exact ⟨hidle', by rw [hout, hout']⟩

end

/-- **Lossless reception.** Under any sizes of the reads no call fails and the results other
than `Ok(None)` are the first ones of its frames and its checksum errors, in order. They
are all of them once the stream is read, which it is after as many reads with a byte as
it has bytes. -/
theorem lossless_reception (crc : Digest) {max : ℕ} (hmin : 8 ≤ max) (hmax : max ≤ 65537)
    {segments : List Segment} (hv : ∀ g ∈ segments, g.Valid crc max) (chunks : List ℕ) :
    let stream := segments.flatMap (·.bytes crc)
    let results := segments.flatMap fun g => (g.events crc).map asResult
    ∃ q, receiveChunks crc chunks (Receiver.new max) stream = some q ∧ q.events <+: results ∧
      (q.rest = [] → q.events = results) ∧
      (stream.length ≤ chunks.countP (0 < ·) → q.rest = []) := by
  intro stream results
  have hT := chunks_track crc hmin (Or.inl hmax)
  have hall : ((scanner crc max).rename asResult).output (.header []) stream = results := by
    rw [Transducer.rename_output, (scan_segments crc max idle_start hv).2, List.map_flatMap]
  obtain ⟨q, taken, hq, hsplit, -, hevents⟩ := hT.run chunks (agrees_new max) stream
  refine ⟨q, hq, ?_, fun hrest => ?_, chunks_drain (by omega) reading_new hq⟩
  · rw [hevents, ← hall]
    exact Transducer.output_mono _ _ ⟨q.rest, hsplit.symm⟩
  · rw [(hT.run_all (agrees_new max) hq hrest).2, hall]

/-- A version request and its copy with a wrong checksum, between noise. -/
def sampleSegments : List Segment :=
  [.noise [0x00, 0x01], .intact ⟨⟨.request .queryVersion, 0x5a01, 0⟩, []⟩,
    .damaged ⟨.request .queryVersion, 0x5a01, 0⟩ [] 0x0304, .noise [0xff]]

theorem lossless_reception_sample :
    ∃ q, receiveChunks (ReflectedCrc.checksum ReflectedCrc.usb)
        ([1, 7, 0, 3, 2, 9] ++ List.replicate 14 4) (Receiver.new 34)
        (sampleSegments.flatMap (·.bytes (ReflectedCrc.checksum ReflectedCrc.usb))) = some q ∧
      q.events = sampleSegments.flatMap fun g =>
        (g.events (ReflectedCrc.checksum ReflectedCrc.usb)).map asResult := by
  have hvalid : ∀ g ∈ sampleSegments, g.Valid (ReflectedCrc.checksum ReflectedCrc.usb) 34 := by
    intro g hg
    simp only [sampleSegments, List.mem_cons, List.not_mem_nil, or_false] at hg
    rcases hg with rfl | rfl | rfl | rfl
    · simp [Segment.Valid, frameMarker]
    · exact ⟨⟨rfl, by decide⟩, by decide⟩
    · exact ⟨by decide, rfl, by decide, by decide +kernel⟩
    · simp [Segment.Valid, frameMarker]
  obtain ⟨q, hq, -, hevents, hread⟩ := lossless_reception _ (by decide) (by decide) hvalid
    ([1, 7, 0, 3, 2, 9] ++ List.replicate 14 4)
  exact ⟨q, hq, hevents (hread (by decide +kernel))⟩

/-! ## Oversize frames -/

/-- What a receiver between frames should do with the `payload_length + 2` bytes
after the header of an oversize frame: consume them all without a frame or an
error and be between frames again. -/
def Discards {max : ℕ} (crc : Digest) (r : Receiver max) (h : FrameHeader)
    (skipped : List U8) (schedule : List ReadStep) : Prop :=
  ∃ q, receiveFrames crc schedule r (frameMarker :: h.toBytes ++ skipped) = some q ∧
    q.rest = [] ∧ q.events = [] ∧ q.state.state = .header 0

section
variable {crc : Digest} {max : ℕ}

theorem limitExact_of_oversize {h : FrameHeader} (hbig : max - 2 < h.payloadLength.toNat) :
    LimitExact max := by
  have := h.payloadLength.isLt
  exact Or.inl (by omega)

theorem scan_oversize {s : Scan} (hs : Idle s) {h : FrameHeader} (hd : h.frameType.Decodable)
    (hbig : max < h.payloadLength.toNat + 2) (after : List U8) :
    (scanner crc max).run s (frameMarker :: h.toBytes ++ after) = .deaf ∧
      (scanner crc max).output s (frameMarker :: h.toBytes ++ after) = [] := by
  obtain ⟨hrun, hout⟩ := scan_marker crc max hs h.toBytes_length
  have hdeaf : Scan.ofWindow max (frameMarker :: h.toBytes) = .deaf := by
    simp only [Scan.ofWindow, FrameHeader.readHeader_toBytes hd, if_neg (Nat.not_le.mpr hbig)]
  rw [hdeaf] at hrun
  rw [Transducer.run_append, Transducer.output_append, hrun, hout]
  exact scan_deaf crc max after

theorem agrees_idle {r : Receiver max} (hr : r.state = .header 0) : Agrees r (.header []) :=
  ⟨hr, by decide, rfl⟩

theorem oversize_stays_discarding (hm : 8 ≤ max) {h : FrameHeader}
    (hd : h.frameType.Decodable) (hbig : max - 2 < h.payloadLength.toNat) {r : Receiver max}
    (hr : r.state = .header 0) (skipped : List U8) (schedule : List ReadStep) :
    ¬ Discards crc r h skipped schedule := by
  intro h
  rcases h with ⟨q, hq, hrest, -, hstate⟩
  have hT := frames_track crc hm (limitExact_of_oversize hbig)
  have hagree := (hT.run_all (agrees_idle hr) hq hrest).1
  rw [(scan_oversize idle_start hd (by omega) skipped).1] at hagree
  obtain ⟨n, h', hdiscard, -⟩ := hagree
  rw [hdiscard] at hstate
  exact State.noConfusion hstate

theorem oversize_silences (hm : 8 ≤ max) {h : FrameHeader} (hd : h.frameType.Decodable)
    (hbig : max - 2 < h.payloadLength.toNat) {r : Receiver max} (hr : r.state = .header 0)
    (after : List U8) (schedule : List ReadStep) :
    ∃ q, receiveFrames crc schedule r (frameMarker :: h.toBytes ++ after) = some q ∧
      q.events = [] := by
  have hT := frames_track crc hm (limitExact_of_oversize hbig)
  obtain ⟨q, taken, hq, hs, -, hout⟩ := hT.run schedule (agrees_idle hr)
    (frameMarker :: h.toBytes ++ after)
  have hpre := (scanner crc max).output_mono (.header [])
    (show taken <+: frameMarker :: h.toBytes ++ after from hs ▸ List.prefix_append _ _)
  rw [(scan_oversize idle_start hd (by omega) after).2] at hpre
  exact ⟨q, hq, hout.trans (List.prefix_nil.mp hpre)⟩

end

/-- **No recovery.** Under no sizes of the reads does the receiver get back
between frames after an oversize frame, and whatever follows it, however it is
read, nothing is delivered any more. -/
theorem oversize_never_recovers (crc : Digest) {max : ℕ} (hm : 8 ≤ max) {h : FrameHeader}
    (hd : h.frameType.Decodable) (hbig : max - 2 < h.payloadLength.toNat) {r : Receiver max}
    (hr : r.state = .header 0) (skipped : List U8) (schedule : List ReadStep) :
    ¬ Discards crc r h skipped schedule ∧
      ∀ following, ∃ q, receiveFrames crc schedule r
        (frameMarker :: h.toBytes ++ (skipped ++ following)) = some q ∧ q.events = [] :=
  ⟨oversize_stays_discarding hm hd hbig hr skipped schedule,
    fun following => oversize_silences hm hd hbig hr (skipped ++ following) schedule⟩

/-- Seven payload bytes and a checksum are one byte too many for eight. -/
def oversizeHeader : FrameHeader := ⟨.request .queryVersion, 1, 7⟩

theorem oversize_never_recovers_eight :
    ¬ Discards (ReflectedCrc.checksum ReflectedCrc.usb) (Receiver.new 8) oversizeHeader
        (List.replicate 9 0) [.deliver 6, .deliver 8, .deliver 1] ∧
      ∀ following, ∃ q, receiveFrames (ReflectedCrc.checksum ReflectedCrc.usb)
        [.deliver 6, .deliver 8, .deliver 1] (Receiver.new 8) (frameMarker ::
          oversizeHeader.toBytes ++ (List.replicate 9 0 ++ following)) = some q ∧ q.events = [] :=
  oversize_never_recovers _ (by decide) (by decide) (by decide) rfl _ _

/-- All nine bytes are consumed, eight and then one, and the state still counts. -/
theorem oversize_counterexample :
    (receiveFrames (ReflectedCrc.checksum ReflectedCrc.usb)
        [.deliver 6, .deliver 8, .deliver 1] (Receiver.new 8)
        (frameMarker :: oversizeHeader.toBytes ++ List.replicate 9 0)).map
          (fun q => (q.rest, q.state.state)) = some ([], .discard 1 oversizeHeader) ∧
      ¬ Discards (ReflectedCrc.checksum ReflectedCrc.usb) (Receiver.new 8) oversizeHeader
        (List.replicate 9 0) [.deliver 6, .deliver 8, .deliver 1] := by
  have hrun : (receiveFrames (ReflectedCrc.checksum ReflectedCrc.usb)
      [.deliver 6, .deliver 8, .deliver 1] (Receiver.new 8)
      (frameMarker :: oversizeHeader.toBytes ++ List.replicate 9 0)).map
        (fun q => (q.rest, q.state.state)) = some ([], .discard 1 oversizeHeader) := by
    decide +kernel
  refine ⟨hrun, ?_⟩
  intro h
  rcases h with ⟨q, hq, -, -, hstate⟩
  rw [hq, Option.map_some, hstate] at hrun
  simp at hrun

/-! ## The sizes of the reads -/

/-- No schedule of reads makes a call fail, and two schedules that read the
whole stream deliver the same frames and frame errors. -/
def ChunkingIndependent (crc : Digest) (max : ℕ) : Prop :=
  ∀ (stream : List U8) (schedule₁ schedule₂ : List ReadStep), ∃ q₁ q₂,
    receiveFrames crc schedule₁ (Receiver.new max) stream = some q₁ ∧
    receiveFrames crc schedule₂ (Receiver.new max) stream = some q₂ ∧
    (q₁.rest = [] → q₂.rest = [] → q₁.events = q₂.events)

section
variable (crc : Digest) {max : ℕ}

theorem independent_of_limitExact (hm : 8 ≤ max) (hx : LimitExact max) :
    ChunkingIndependent crc max := by
  intro stream schedule₁ schedule₂
  have hT := frames_track crc hm hx
  obtain ⟨q₁, _, h₁, -⟩ := hT.run schedule₁ (agrees_new max) stream
  obtain ⟨q₂, _, h₂, -⟩ := hT.run schedule₂ (agrees_new max) stream
  exact ⟨q₁, q₂, h₁, h₂, hT.schedule_independent (agrees_new max) h₁ h₂⟩

theorem receive_frameHeader (hm : 8 ≤ max) {r : Receiver max} (hr : r.state = .header 0)
    {h : FrameHeader} (hd : h.frameType.Decodable) (after : List U8) :
    ∃ buffer, r.receive crc (.deliver FrameHeader.size) (frameMarker :: h.toBytes ++ after) =
      some ⟨.ok none, ⟨if BitVec.ofNat 16 (max - 2) < h.payloadLength then .discard 0 h
        else .payload 0 h, buffer⟩, after⟩ := by
  have hsize : FrameHeader.size = (frameMarker :: h.toBytes).length := rfl
  have hrange : readRange max r.state = some (0, FrameHeader.size) :=
    hr ▸ readRange_header (Nat.zero_le _)
  have hgot : (frameMarker :: h.toBytes ++ after).take (min FrameHeader.size FrameHeader.size) =
      frameMarker :: h.toBytes := by rw [Nat.min_self, hsize, List.take_left]
  obtain ⟨buffer, hb, hrec⟩ := receive_some crc hrange (by rw [hsize]; simp; omega)
    hgot (by simp)
  have hslice : slice buffer.bytes 0 FrameHeader.size = some (frameMarker :: h.toBytes) := by
    rw [buffer.slice_eq (Nat.zero_le _) (by rw [hsize]; simp; omega), List.drop_zero]
    simpa [hsize] using hb
  have hdrop : (frameMarker :: h.toBytes ++ after).drop
      (min FrameHeader.size FrameHeader.size) = after := by
    rw [Nat.min_self, hsize, List.drop_left]
  refine ⟨buffer, ?_⟩
  rw [hrec, hdrop, Nat.zero_add, ← hsize]
  simp only [hr, advance, headerArm, if_pos, hslice, FrameHeader.readHeader_toBytes hd,
    checkedSub_eq (show 2 ≤ max by omega), Option.bind_eq_bind, Option.bind_some]
  split_ifs <;> rfl

theorem receive_discard {r : Receiver max} {n k : ℕ} {h : FrameHeader} (got after : List U8)
    (hr : r.state = .discard n h) (hn : n ≤ h.payloadLength.toNat + 2)
    (hk : got.length = min k (min (h.payloadLength.toNat + 2 - n) max)) (hpos : 0 < got.length) :
    ∃ buffer, r.receive crc (.deliver k) (got ++ after) =
      some ⟨.ok none, ⟨discardArm got.length h, buffer⟩, after⟩ := by
  have hrange : readRange max r.state = some (0, min (h.payloadLength.toNat + 2 - n) max) :=
    hr ▸ readRange_discard hn
  obtain ⟨buffer, -, hrec⟩ := receive_some crc hrange (by omega)
    (show (got ++ after).take (min k (min (h.payloadLength.toNat + 2 - n) max)) = got by
      rw [← hk, List.take_left]) hpos
  refine ⟨buffer, ?_⟩
  rw [hrec, ← hk, List.drop_left, Nat.zero_add]
  simp [hr, advance]

theorem receive_body {r : Receiver max} {f : RawFrame} (hf : f.WellFormed)
    (hr : r.state = .payload 0 f.header) (hfit : f.header.payloadLength.toNat + 2 ≤ max)
    (after : List U8) :
    ∃ buffer, r.receive crc (.deliver (f.header.payloadLength.toNat + 2)) (f.body crc ++ after) =
      some ⟨.ok (some f), ⟨.header 0, buffer⟩, after⟩ := by
  have hlen : (f.body crc).length = f.header.payloadLength.toNat + 2 := by
    rw [RawFrame.body_length, hf.length]
  have hrange : readRange max r.state = some (0, f.header.payloadLength.toNat + 2) :=
    hr ▸ readRange_payload (Nat.zero_le _)
  obtain ⟨buffer, hb, hrec⟩ := receive_some crc hrange (by omega)
    (show (f.body crc ++ after).take (min (f.header.payloadLength.toNat + 2)
      (f.header.payloadLength.toNat + 2)) = f.body crc by
        rw [Nat.min_self, ← hlen, List.take_left]) (by omega)
  rw [Nat.zero_add, hlen] at hb
  have harm := payloadArm_body crc hfit hlen (by simpa using hb)
  refine ⟨buffer, ?_⟩
  rw [hrec, Nat.min_self, ← hlen, List.drop_left, Nat.zero_add, hlen]
  simp only [hr, advance, harm, RawFrame.readFramePayload_body crc hf]
  rfl

/-- Read one byte at a time, a frame being discarded is never finished with. -/
theorem discard_bytewise {r : Receiver max} {n : ℕ} {h : FrameHeader}
    (hr : r.state = .discard n h) (hn : n < h.payloadLength.toNat + 2) (hm : 0 < max)
    (stream : List U8) :
    ∃ q, receiveFrames crc (List.replicate stream.length (.deliver 1)) r stream = some q ∧
      q.rest = [] ∧ q.events = [] := by
  induction stream generalizing r n with
  | nil => exact ⟨_, rfl, rfl, rfl⟩
  | cons b stream ih =>
    obtain ⟨buffer, hrec⟩ := receive_discard crc [b] stream (k := 1) hr (Nat.le_of_lt hn)
      (by simp; omega) (by simp)
    have hnext : discardArm [b].length h = .discard 1 h := if_neg (by simp)
    rw [hnext] at hrec
    have hp := poll_of_receive frameEvent hrec
    obtain ⟨q, hq, hrest, hev⟩ := ih (r := ⟨.discard 1 h, buffer⟩) rfl (by omega)
    exact ⟨_, pollRun_cons hp hq, hrest, by simp [hev]⟩

/-- The smallest length over the truncated limit. -/
def truncatedHeader (max : ℕ) : FrameHeader :=
  ⟨.request .queryVersion, 0, .ofNat 16 ((max - 2) % 65536 + 1)⟩

def emptyRequest : RawFrame := QueryVersionRequestFrame.new 0

/-- A frame over the truncated limit, and a request after it. -/
def truncatedStream (crc : Digest) (max : ℕ) : List U8 :=
  frameMarker :: (truncatedHeader max).toBytes ++
    (List.replicate ((max - 2) % 65536 + 3) 0 ++ emptyRequest.encode crc)

/-- The frame to discard in one read, and one byte after another. -/
def wholeReads (max : ℕ) : List ReadStep :=
  [.deliver 6, .deliver ((max - 2) % 65536 + 3), .deliver 6, .deliver 2]

def byteReads (max : ℕ) : List ReadStep :=
  .deliver 6 :: List.replicate ((max - 2) % 65536 + 3 + 8) (.deliver 1)

/-- Past the truncated limit, but short of the buffer, one read can bring the
whole frame, and then the count does match. -/
theorem truncation_observed (hm : 65537 < max)
    (hx : (max - 2) % 65536 ≠ 65535) :
    ∃ q₁ q₂, receiveFrames crc (wholeReads max) (Receiver.new max) (truncatedStream crc max) =
        some q₁ ∧ q₁.rest = [] ∧ q₁.events = [.ok emptyRequest] ∧
      receiveFrames crc (byteReads max) (Receiver.new max) (truncatedStream crc max) =
        some q₂ ∧ q₂.rest = [] ∧ q₂.events = [] := by
  have hlimit : (max - 2) % 65536 < 65536 := Nat.mod_lt _ (by decide)
  have hlen : (truncatedHeader max).payloadLength.toNat = (max - 2) % 65536 + 1 := by
    simp only [truncatedHeader, BitVec.toNat_ofNat]
    omega
  have hd : (truncatedHeader max).frameType.Decodable :=
    (by decide : (FrameTypeAndDirection.request .queryVersion).Decodable)
  have hover : BitVec.ofNat 16 (max - 2) < (truncatedHeader max).payloadLength := by
    rw [BitVec.lt_def, hlen, BitVec.toNat_ofNat]
    omega
  obtain ⟨b₁, h₁⟩ := receive_frameHeader crc (by omega) (r := Receiver.new max) rfl
    (h := truncatedHeader max) hd
    (List.replicate ((max - 2) % 65536 + 3) 0 ++ emptyRequest.encode crc)
  rw [if_pos hover] at h₁
  have hp₁ := poll_of_receive frameEvent h₁
  have hwhole : ∃ q₁, receiveFrames crc (wholeReads max) (Receiver.new max)
      (truncatedStream crc max) = some q₁ ∧ q₁.rest = [] ∧ q₁.events = [.ok emptyRequest] := by
    obtain ⟨b₂, h₂⟩ := receive_discard crc
      (List.replicate ((max - 2) % 65536 + 3) 0) (emptyRequest.encode crc)
      (r := ⟨.discard 0 (truncatedHeader max), b₁⟩) (k := (max - 2) % 65536 + 3)
      rfl (Nat.zero_le _) (by rw [List.length_replicate, hlen]; omega) (by simp)
    have hdone : discardArm (List.replicate ((max - 2) % 65536 + 3) (0 : U8)).length
        (truncatedHeader max) = .header 0 := if_pos (by rw [List.length_replicate, hlen])
    rw [hdone] at h₂
    obtain ⟨b₃, h₃⟩ := receive_frameHeader crc (by omega) (r := ⟨.header 0, b₂⟩) rfl
      (h := emptyRequest.header) (by decide) (emptyRequest.body crc)
    rw [if_neg (by simp [emptyRequest, QueryVersionRequestFrame.new, BitVec.lt_def])] at h₃
    obtain ⟨b₄, h₄⟩ := receive_body crc (r := ⟨.payload 0 emptyRequest.header, b₃⟩)
      (f := emptyRequest) ⟨rfl, by decide⟩ rfl
      (by simp [emptyRequest, QueryVersionRequestFrame.new]; omega) []
    rw [List.append_nil] at h₄
    have hrun := pollRun_cons hp₁ (pollRun_cons (poll_of_receive frameEvent h₂)
      (pollRun_cons (poll_of_receive frameEvent h₃)
        (pollRun_cons (poll_of_receive frameEvent h₄) (pollRun_nil _ _ _))))
    exact ⟨_, hrun, rfl, rfl⟩
  have hbytes : ∃ q₂, receiveFrames crc (byteReads max) (Receiver.new max)
      (truncatedStream crc max) = some q₂ ∧ q₂.rest = [] ∧ q₂.events = [] := by
    obtain ⟨q, hq, hrest, hev⟩ := discard_bytewise crc
      (r := ⟨.discard 0 (truncatedHeader max), b₁⟩) rfl (by omega) (by omega)
      (List.replicate ((max - 2) % 65536 + 3) 0 ++ emptyRequest.encode crc)
    have hn : (List.replicate ((max - 2) % 65536 + 3) 0 ++ emptyRequest.encode crc).length =
        (max - 2) % 65536 + 3 + 8 := by
      rw [List.length_append, List.length_replicate, RawFrame.encode_length]
      rfl
    rw [hn] at hq
    exact ⟨_, pollRun_cons hp₁ hq, hrest, by simpa using hev⟩
  obtain ⟨q₁, hw⟩ := hwhole
  obtain ⟨q₂, hb⟩ := hbytes
  exact ⟨q₁, q₂, hw.1, hw.2.1, hw.2.2, hb⟩

end

/-- **Chunking independence, exactly.** -/
theorem chunkingIndependent_iff (crc : Digest) {max : ℕ} (hm : 8 ≤ max) :
    ChunkingIndependent crc max ↔ LimitExact max := by
  constructor
  · intro h
    by_contra hx
    obtain ⟨h₁, h₂⟩ := not_or.mp hx
    obtain ⟨q₁, q₂, hq₁, hr₁, he₁, hq₂, hr₂, he₂⟩ :=
      truncation_observed crc (by omega) h₂
    obtain ⟨p₁, p₂, hp₁, hp₂, heq⟩ := h (truncatedStream crc max) (wholeReads max) (byteReads max)
    obtain rfl : p₁ = q₁ := Option.some.inj (hp₁.symm.trans hq₁)
    obtain rfl : p₂ = q₂ := Option.some.inj (hp₂.symm.trans hq₂)
    rw [he₁, he₂] at heq
    simpa using heq hr₁ hr₂
  · exact independent_of_limitExact crc hm

theorem chunkingIndependent_iff_bootrom :
    ChunkingIndependent (ReflectedCrc.checksum ReflectedCrc.usb) 128 ↔ LimitExact 128 :=
  chunkingIndependent_iff _ (by decide)

/-- The 16-bit limit of a buffer of 65538 bytes is zero: a frame of one payload
byte is discarded, and how its three bytes are read decides about the next one. -/
theorem chunking_counterexample :
    ∃ q₁ q₂, receiveFrames (ReflectedCrc.checksum ReflectedCrc.usb)
        [.deliver 6, .deliver 3, .deliver 6, .deliver 2] (Receiver.new 65538)
        (truncatedStream (ReflectedCrc.checksum ReflectedCrc.usb) 65538) = some q₁ ∧
      receiveFrames (ReflectedCrc.checksum ReflectedCrc.usb)
        (.deliver 6 :: List.replicate 11 (.deliver 1)) (Receiver.new 65538)
        (truncatedStream (ReflectedCrc.checksum ReflectedCrc.usb) 65538) = some q₂ ∧
      q₁.rest = [] ∧ q₂.rest = [] ∧ q₁.events ≠ q₂.events := by
  obtain ⟨q₁, q₂, hq₁, hr₁, he₁, hq₂, hr₂, he₂⟩ :=
    truncation_observed (ReflectedCrc.checksum ReflectedCrc.usb)
      (show 65537 < 65538 by decide) (by decide)
  refine ⟨q₁, q₂, hq₁, hq₂, hr₁, hr₂, ?_⟩
  rw [he₁, he₂]
  exact List.cons_ne_nil _ _

end SeccampRiscvCpu.FwtoolReception
