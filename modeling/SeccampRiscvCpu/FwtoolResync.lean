import SeccampRiscvCpu.FwtoolReception

/-!
# A frame behind stray markers

A marker that opens no frame is found out only with the five bytes behind it,
and the receiver drops all six of them, where an incomplete header keeps the
bytes from its marker on. `Skipped` is the noise that leaves the receiver
between frames. Behind any other noise the window of the last stray marker
takes the front of the frame with it, and what is left is too short to be it.
-/
namespace SeccampRiscvCpu.FwtoolResync
open ByteSlices FwtoolFrame FwtoolReceiver FwtoolReception StreamTransducer

/-- The byte of no frame type. -/
def Undecodable (b : U8) : Prop := ∀ t, FrameTypeAndDirection.tryFrom b ≠ .ok t

theorem undecodable_iff (b : U8) :
    FrameTypeAndDirection.tryFrom b = .error .invalidFrameType ↔ Undecodable b := by
  constructor
  · intro h t ht
    rw [h] at ht
    exact nomatch ht
  · intro h
    refine (FrameTypeAndDirection.tryFrom_cases b).resolve_left ?_
    rintro ⟨t, ht, -⟩
    exact h t ht

instance : DecidablePred Undecodable := fun b => decidable_of_iff _ (undecodable_iff b)

/-- No marker of the noise is followed in the stream by the byte of a frame type. -/
def NoFalseStart (following : List U8) : List U8 → Prop
  | [] => True
  | b :: noise => (b = frameMarker → ∀ next ∈ (noise ++ following).head?, Undecodable next) ∧
      NoFalseStart following noise

instance decidableNoFalseStart (following : List U8) : DecidablePred (NoFalseStart following)
  | [] => inferInstanceAs (Decidable True)
  | _ :: noise =>
    have := decidableNoFalseStart following noise
    inferInstanceAs (Decidable (_ ∧ _))

theorem NoFalseStart.behind {following front rest : List U8}
    (h : NoFalseStart following (front ++ rest)) : NoFalseStart following rest := by
  induction front with
  | nil => exact h
  | cons b front ih => exact ih h.2

theorem NoFalseStart.front {following front rest : List U8}
    (h : NoFalseStart following (front ++ rest)) : NoFalseStart (rest ++ following) front := by
  induction front with
  | nil => trivial
  | cons b front ih =>
    obtain ⟨hb, hrest⟩ := h
    refine ⟨?_, ih hrest⟩
    rw [← List.append_assoc]
    exact hb

/-- Read from the left, every marker that is not among the five bytes behind an
earlier such marker has five bytes of noise behind it. -/
inductive Skipped : List U8 → Prop
  | quiet {noise : List U8} (h : frameMarker ∉ noise) : Skipped noise
  | stray {before window rest : List U8} (h : frameMarker ∉ before) (hl : window.length = 5)
      (hrest : Skipped rest) : Skipped (before ++ frameMarker :: (window ++ rest))

/-- Otherwise the noise ends inside the window of such a marker. -/
theorem skipped_or_cut (noise : List U8) : Skipped noise ∨ ∃ front short,
    noise = front ++ frameMarker :: short ∧ Skipped front ∧ short.length < 5 := by
  induction hn : noise.length using Nat.strongRecOn generalizing noise with
  | ind n ih =>
    by_cases hm : frameMarker ∈ noise
    · obtain ⟨before, tail, rfl, hb⟩ := List.eq_append_cons_of_mem hm
      rcases Nat.lt_or_ge tail.length 5 with hshort | hlong
      · exact Or.inr ⟨before, tail, rfl, .quiet hb, hshort⟩
      · have hwindow : (tail.take 5).length = 5 := by rw [List.length_take]; omega
        have hrest : (tail.drop 5).length < n := by
          rw [← hn, List.length_append, List.length_cons, List.length_drop]
          omega
        rw [← List.take_append_drop 5 tail]
        rcases ih _ hrest (tail.drop 5) rfl with hskip | ⟨front, short, heq, hskip, hshort⟩
        · exact Or.inl (.stray hb hwindow hskip)
        · refine Or.inr ⟨before ++ frameMarker :: (tail.take 5 ++ front), short, ?_,
            .stray hb hwindow hskip, hshort⟩
          simp [heq]
    · exact Or.inl (.quiet hm)

section
variable (crc : Digest) (max : ℕ)

theorem ofWindow_stray {window : List U8} (hl : window.length = 5)
    (hhead : ∀ b ∈ window.head?, Undecodable b) :
    Scan.ofWindow max (frameMarker :: window) = .header [] := by
  match window, hl with
  | [b, n₁, n₀, l₁, l₀], _ =>
    have hb := (undecodable_iff b).mpr (hhead b rfl)
    have ht : FrameHeader.tryFrom [b, n₁, n₀, l₁, l₀] = .error .invalidFrameType := by
      rw [FrameHeader.tryFrom, hb]
      rfl
    have hread := FrameHeader.readHeader_marker [] List.not_mem_nil [b, n₁, n₀, l₁, l₀]
    rw [ht, List.nil_append] at hread
    simp only [Scan.ofWindow, hread]

/-- A stray marker costs its window. -/
theorem scan_stray {s : Scan} (hs : Idle s) {before window : List U8}
    (hb : frameMarker ∉ before) (hl : window.length = 5)
    (hhead : ∀ b ∈ window.head?, Undecodable b) :
    (scanner crc max).run s (before ++ frameMarker :: window) = .header [] ∧
      (scanner crc max).output s (before ++ frameMarker :: window) = [] := by
  obtain ⟨hidle, hout⟩ := scan_noise crc max hs hb
  obtain ⟨hrun, hout'⟩ := scan_marker crc max hidle hl
  rw [ofWindow_stray max hl hhead] at hrun
  rw [Transducer.run_append, Transducer.output_append, hrun, hout, hout']
  exact ⟨rfl, rfl⟩

theorem scan_skipped {s : Scan} (hs : Idle s) {noise following : List U8} (h : Skipped noise)
    (hfalse : NoFalseStart following noise) :
    Idle ((scanner crc max).run s noise) ∧ (scanner crc max).output s noise = [] := by
  induction h generalizing s with
  | quiet h => exact scan_noise crc max hs h
  | @stray before window rest h hl hrest ih =>
    have hhead : ∀ b ∈ window.head?, Undecodable b := by
      intro b hb
      refine hfalse.behind.1 rfl b ?_
      rw [List.append_assoc, List.head?_append, hb]
      rfl
    obtain ⟨hrun, hout⟩ := scan_stray crc max hs h hl hhead
    have hsame : NoFalseStart following (before ++ frameMarker :: window ++ rest) := by
      simpa using hfalse
    have hbehind : NoFalseStart following rest := hsame.behind
    obtain ⟨hidle, hout'⟩ := ih idle_start hbehind
    have hsplit : before ++ frameMarker :: (window ++ rest) =
        before ++ frameMarker :: window ++ rest := by simp
    rw [hsplit, Transducer.run_append, Transducer.output_append, hrun, hout, hout']
    exact ⟨hidle, rfl⟩

/-- The window of a marker near the end takes bytes of what follows the noise. -/
theorem scan_cut {s : Scan} (hs : Idle s) {front short following : List U8}
    (hfront : Skipped front) (hshort : short.length < 5) (hlong : 5 ≤ following.length)
    (hfalse : NoFalseStart following (front ++ frameMarker :: short)) :
    (scanner crc max).run s
        (front ++ frameMarker :: (short ++ following.take (5 - short.length))) = .header [] ∧
      (scanner crc max).output s
        (front ++ frameMarker :: (short ++ following.take (5 - short.length))) = [] := by
  have hl : (short ++ following.take (5 - short.length)).length = 5 := by
    rw [List.length_append, List.length_take]
    omega
  have hhead : ∀ b ∈ (short ++ following.take (5 - short.length)).head?, Undecodable b := by
    intro b hb
    refine hfalse.behind.1 rfl b ?_
    rw [List.head?_append] at hb ⊢
    rwa [List.head?_take, if_neg (by omega)] at hb
  obtain ⟨hidle, hout⟩ := scan_skipped crc max hs hfront hfalse.front
  obtain ⟨hrun, hout'⟩ :=
    scan_stray crc max hidle (List.not_mem_nil : frameMarker ∉ ([] : List U8)) hl hhead
  rw [List.nil_append] at hrun hout'
  rw [Transducer.run_append, Transducer.output_append, hrun, hout, hout']
  exact ⟨rfl, rfl⟩

/-- Behind skipped noise the frame is what the scan reports. -/
theorem scan_behind {noise : List U8} {f : RawFrame} (hf : f.WellFormed)
    (hfit : f.header.payloadLength.toNat + 2 ≤ max) (hskip : Skipped noise)
    (hfalse : NoFalseStart (f.encode crc) noise) :
    (scanner crc max).run (.header []) (noise ++ f.encode crc) = .header [] ∧
      (scanner crc max).output (.header []) (noise ++ f.encode crc) = [.ok f] := by
  obtain ⟨hidle, hout⟩ := scan_skipped crc max idle_start hskip hfalse
  obtain ⟨hrun, hout'⟩ := scan_frame crc max hidle hf.decodable hfit hf.length
    (expectedCrc crc f.header f.payload)
  rw [Transducer.run_append, Transducer.output_append, hout]
  refine ⟨hrun, ?_⟩
  rw [RawFrame.encode, RawFrame.body, hout']
  simp [checkCrc]

end

/-! ## Runs of the receiver -/

/-- Under no reads does a call fail, and once the stream is read the frame has
been delivered. -/
def Delivers (crc : Digest) (max : ℕ) (stream : List U8) (f : RawFrame) : Prop :=
  ∀ schedule, ∃ q, receiveFrames crc schedule (Receiver.new max) stream = some q ∧
    (q.rest = [] → .ok f ∈ q.events)

section
variable {crc : Digest} {max : ℕ}

theorem frames_enter (hm : FrameHeader.size ≤ max) : TracksWhile (· ≠ .deaf)
    (scanner crc (sizeLimit max)) (poll frameEvent crc) (@Enters max) := by
  intro answer r s stream hlive h
  obtain ⟨v, taken, hv, hs, hnext, hout⟩ := receive_enters crc hm h hlive answer stream
  exact ⟨⟨v.receiver, v.rest, frameEvent v.result⟩, taken, poll_of_receive _ hv, hs, hnext, hout⟩

theorem enters_new : Enters (Receiver.new max) (.header []) := agrees_new max

theorem live_of_prefix {s : Scan} {xs ys : List U8} (h : ys <+: xs)
    (hlive : (scanner crc max).run s xs ≠ .deaf) : (scanner crc max).run s ys ≠ .deaf := by
  obtain ⟨zs, rfl⟩ := h
  intro hdeaf
  rw [Transducer.run_append, hdeaf] at hlive
  exact hlive (scan_deaf crc max zs).1

/-- Behind skipped noise the frame is the only event of the run. -/
theorem frames_behind (hm : FrameHeader.size ≤ max) {noise : List U8} {f : RawFrame}
    (hf : f.WellFormed) (hlimit : f.header.payloadLength.toNat + 2 ≤ sizeLimit max)
    (hskip : Skipped noise) (hfalse : NoFalseStart (f.encode crc) noise)
    (schedule : List ReadStep) :
    ∃ q, receiveFrames crc schedule (Receiver.new max) (noise ++ f.encode crc) = some q ∧
      (q.rest = [] → q.events = [.ok f]) := by
  obtain ⟨hrun, hout⟩ := scan_behind crc (sizeLimit max) hf hlimit hskip hfalse
  have hlive : (scanner crc (sizeLimit max)).run (.header []) (noise ++ f.encode crc) ≠ .deaf := by
    rw [hrun]
    exact nofun
  obtain ⟨q, taken, hq, hsplit, -, hev⟩ := (frames_enter hm).run schedule enters_new
    fun ys hys => live_of_prefix hys hlive
  refine ⟨q, hq, fun hrest => ?_⟩
  rw [hrest, List.append_nil] at hsplit
  rw [hev, ← hsplit, hout]

theorem delivers_of_skipped (hm : FrameHeader.size ≤ max) {noise : List U8} {f : RawFrame}
    (hf : f.WellFormed) (hlimit : f.header.payloadLength.toNat + 2 ≤ sizeLimit max)
    (hskip : Skipped noise) (hfalse : NoFalseStart (f.encode crc) noise) :
    Delivers crc max (noise ++ f.encode crc) f := by
  intro schedule
  obtain ⟨q, hq, hev⟩ := frames_behind hm hf hlimit hskip hfalse schedule
  refine ⟨q, hq, fun hrest => ?_⟩
  rw [hev hrest]
  exact List.mem_singleton_self _

/-- What a run holds and has still to read is bounded, and so are its frames. -/
structure Counted (available : ℕ) (r : Receiver max) (rest : List U8)
    (events : List (Except FrameError RawFrame)) : Prop where
  reading : Reading max r.state
  left : held r.state + rest.length ≤ available
  frames : ∀ f, .ok f ∈ events → f.header.payloadLength.toNat + 2 ≤ sizeLimit max ∧
    FrameHeader.size + f.header.payloadLength.toNat + 2 ≤ available

theorem Counted.poll {available : ℕ} {r : Receiver max} {rest : List U8}
    {events : List (Except FrameError RawFrame)} (h : Counted available r rest events)
    {answer : ReadStep} {p : Poll (Receiver max) U8 (Except FrameError RawFrame)}
    (hp : poll frameEvent crc answer r rest = some p) :
    Counted available p.state p.rest (events ++ p.event.toList) := by
  obtain ⟨v, hv, hstate, hrest, hevent⟩ := poll_receive hp
  obtain ⟨taken, htaken, hnext, hheld, hbound⟩ := receive_reading h.reading hv
  have hlength := congrArg List.length htaken
  have hleft := h.left
  rw [List.length_append] at hlength
  rw [hstate, hrest]
  refine ⟨hnext, by omega, ?_⟩
  intro f hf
  rcases List.mem_append.mp hf with hold | hnew
  · exact h.frames f hold
  · rw [hevent, Option.mem_toList] at hnew
    obtain ⟨hlimit, hsize⟩ := hbound f hnew
    exact ⟨hlimit, by omega⟩

/-- The frames of any run are within the limit, and no longer than what the
receiver held and the stream brought. -/
theorem frames_bounded {r : Receiver max} (hr : Reading max r.state) {schedule : List ReadStep}
    {stream : List U8} {q : PollRun (Receiver max) U8 (Except FrameError RawFrame)}
    (hq : receiveFrames crc schedule r stream = some q) {f : RawFrame} (hf : .ok f ∈ q.events) :
    f.header.payloadLength.toNat + 2 ≤ sizeLimit max ∧
      FrameHeader.size + f.header.payloadLength.toNat + 2 ≤ held r.state + stream.length := by
  have hstart : Counted (held r.state + stream.length) r stream [] :=
    ⟨hr, Nat.le_refl _, nofun⟩
  have hend := pollRun_sound (fun _ _ _ _ _ h hp => h.poll hp) hstart hq
  exact hend.frames f hf

/-- A smaller buffer is sliced out of range by the first call. -/
theorem size_of_delivers {stream : List U8} {f : RawFrame} (h : Delivers crc max stream f) :
    FrameHeader.size ≤ max := by
  obtain ⟨q, hq, -⟩ := h [.deliver 1]
  obtain ⟨p, hp, -⟩ := Option.bind_eq_some_iff.mp hq
  obtain ⟨v, hv, -⟩ := poll_receive hp
  obtain ⟨window, hw, -⟩ := Option.bind_eq_some_iff.mp hv
  unfold slice at hw
  split_ifs at hw with hfits
  rw [(Receiver.new max).receiveBuffer.length_eq] at hfits
  simpa using hfits.2

theorem limit_of_delivers {stream : List U8} {f : RawFrame} (h : Delivers crc max stream f) :
    f.header.payloadLength.toNat + 2 ≤ sizeLimit max := by
  obtain ⟨q, hq, hev⟩ := h (List.replicate stream.length (.deliver 1))
  have hpos : 0 < max := Nat.lt_of_lt_of_le (by decide) (size_of_delivers h)
  exact (frames_bounded reading_new hq (hev (bytewise_drains hpos reading_new hq))).1

/-- A cut frame is longer than what is left of it. -/
theorem not_delivers_cut {front short : List U8} {f : RawFrame} (hf : f.WellFormed)
    (hfront : Skipped front) (hshort : short.length < 5)
    (hfalse : NoFalseStart (f.encode crc) (front ++ frameMarker :: short)) :
    ¬ Delivers crc max (front ++ frameMarker :: short ++ f.encode crc) f := by
  intro h
  have hm := size_of_delivers h
  have hpos : 0 < max := Nat.lt_of_lt_of_le (by decide) hm
  have hlength := f.encode_length crc
  rw [hf.length] at hlength
  have hsplit : front ++ frameMarker :: short ++ f.encode crc =
      front ++ frameMarker :: (short ++ (f.encode crc).take (5 - short.length)) ++
        (f.encode crc).drop (5 - short.length) := by
    simp
  obtain ⟨hrun, hout⟩ := scan_cut crc (sizeLimit max) idle_start hfront hshort
    (by rw [hlength]; exact Nat.le_add_right_of_le (Nat.le_add_right_of_le (by decide))) hfalse
  have hlive : (scanner crc (sizeLimit max)).run (.header [])
      (front ++ frameMarker :: (short ++ (f.encode crc).take (5 - short.length))) ≠ .deaf := by
    rw [hrun]
    exact nofun
  have hT : TracksWhile (· ≠ .deaf) (scanner crc (sizeLimit max)) (poll frameEvent crc)
      (@Enters max) := frames_enter hm
  obtain ⟨t, hcut, henters⟩ := hT.run_each (d := .deliver 1)
    (by
      intro r s stream p hs hr hp
      obtain ⟨v, hv, -, hrest, -⟩ := poll_receive hp
      obtain ⟨k, hk, hdrop⟩ := receive_drop crc hm (hr.agrees hs) hv
      rw [hrest, hdrop, Nat.min_eq_left hk])
    enters_new _ ((f.encode crc).drop (5 - short.length)) fun ys hys => live_of_prefix hys hlive
  rw [hrun] at henters
  rw [hout, ← hsplit] at hcut
  -- the polls for the cut part, and the polls for the rest
  obtain ⟨q, hq, hev⟩ := h (List.replicate
    (front ++ frameMarker :: (short ++ (f.encode crc).take (5 - short.length))).length
      (.deliver 1) ++ List.replicate ((f.encode crc).drop (5 - short.length)).length (.deliver 1))
  rw [receiveFrames, pollRun_append, hcut, Option.bind_some] at hq
  obtain ⟨q', hq', rfl⟩ := Option.map_eq_some_iff.mp hq
  have ht : t.state = .header 0 := henters.1
  have hreading : Reading max t.state := ht ▸ reading_new
  have hbound := (frames_bounded hreading hq' (hev (bytewise_drains hpos hreading hq'))).2
  rw [ht, List.length_drop, hlength] at hbound
  simp only [held] at hbound
  omega

end

/-- **Resynchronisation, exactly.** Behind noise without a false start a frame is
delivered, under all sizes of the reads, if and only if the buffer holds a header,
the 16-bit limit lets the frame through and the noise is skipped. -/
theorem delivers_iff (crc : Digest) {max : ℕ} {noise : List U8} {f : RawFrame} (hf : f.WellFormed)
    (hfalse : NoFalseStart (f.encode crc) noise) :
    Delivers crc max (noise ++ f.encode crc) f ↔ FrameHeader.size ≤ max ∧
      f.header.payloadLength.toNat + 2 ≤ sizeLimit max ∧ Skipped noise := by
  constructor
  · intro h
    refine ⟨size_of_delivers h, limit_of_delivers h, ?_⟩
    rcases skipped_or_cut noise with hskip | ⟨front, short, rfl, hfront, hshort⟩
    · exact hskip
    · exact absurd h (not_delivers_cut hf hfront hshort hfalse)
  · rintro ⟨hm, hlimit, hskip⟩
    exact delivers_of_skipped hm hf hlimit hskip hfalse

/-- Two markers of no type among six bytes of noise. -/
theorem delivers_iff_sample :
    Delivers (ReflectedCrc.checksum ReflectedCrc.usb) 34 ([0x5a, 0x10, 0x11, 0x5a, 0x12, 0x13] ++
        emptyRequest.encode (ReflectedCrc.checksum ReflectedCrc.usb)) emptyRequest ↔
      FrameHeader.size ≤ 34 ∧ emptyRequest.header.payloadLength.toNat + 2 ≤ sizeLimit 34 ∧
        Skipped [0x5a, 0x10, 0x11, 0x5a, 0x12, 0x13] :=
  delivers_iff _ ⟨rfl, by decide⟩ (by decide +kernel)

/-- One stray marker right in front of a request is enough to lose it. -/
theorem stray_loses_request :
    emptyRequest.WellFormed ∧ emptyRequest.header.payloadLength.toNat + 2 ≤ 34 ∧
      NoFalseStart (emptyRequest.encode (ReflectedCrc.checksum ReflectedCrc.usb)) [0x5a] ∧
      ¬ Delivers (ReflectedCrc.checksum ReflectedCrc.usb) 34
        ([0x5a] ++ emptyRequest.encode (ReflectedCrc.checksum ReflectedCrc.usb))
        emptyRequest := by
  have hrun : (receiveFrames (ReflectedCrc.checksum ReflectedCrc.usb)
      (List.replicate 9 (.deliver 1)) (Receiver.new 34) ([0x5a] ++
        emptyRequest.encode (ReflectedCrc.checksum ReflectedCrc.usb))).map
          (fun q => (q.rest, q.events.length)) = some ([], 0) := by
    decide +kernel
  refine ⟨⟨rfl, by decide⟩, by decide, by decide +kernel, ?_⟩
  intro h
  obtain ⟨q, hq, hev⟩ := h (List.replicate 9 (.deliver 1))
  rw [hq, Option.map_some] at hrun
  obtain ⟨hrest, hlen⟩ := Prod.mk.inj (Option.some.inj hrun)
  rw [List.eq_nil_of_length_eq_zero hlen] at hev
  exact absurd (hev hrest) List.not_mem_nil

end SeccampRiscvCpu.FwtoolResync
