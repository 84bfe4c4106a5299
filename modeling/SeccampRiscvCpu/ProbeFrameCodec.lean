import SeccampRiscvCpu.ProbeDecoder
import SeccampRiscvCpu.StreamTransducer

/-!
# The frame codec on a noisy line

`FrameCodec::decode` searches its whole buffer again for every chunk that arrives.
A scanner that reads one byte at a time and remembers only the body it is in finds
the same frames: what the codec keeps in its buffer is always one of the texts that
leave the scanner where it stands. So the chunks cannot be observed, on any stream.
-/
namespace SeccampRiscvCpu.ProbeFrameCodec
open ByteSlices ProbeStream ProbeDecoder StreamTransducer

/-- Between two frames, or behind the start marker of one with this body so far. -/
inductive Position where
  | outside
  | inside (body : List U8)
deriving DecidableEq, Repr

/-- One byte at a time; a body is complete at its end marker. -/
def scanner : Transducer Position U8 (List U8) where
  step
    | .outside, b => if b = startOfFrame then .inside [] else .outside
    | .inside body, b => if b = endOfFrame then .outside else .inside (body ++ [b])
  emit
    | .outside, _ => none
    | .inside body, b => if b = endOfFrame then some body else none

/-! ## What the scanner does on a part of a stream -/

theorem scan_noise {noise : List U8} (hn : startOfFrame ∉ noise) :
    scanner.run .outside noise = .outside ∧ scanner.output .outside noise = [] := by
  induction noise with
  | nil => exact ⟨rfl, rfl⟩
  | cons b noise ih =>
    obtain ⟨hne, hrest⟩ := List.ne_and_not_mem_of_not_mem_cons hn
    have hstep : scanner.step .outside b = .outside := if_neg (Ne.symm hne)
    rw [Transducer.run_cons, Transducer.output_cons, hstep]
    exact ih hrest

theorem scan_body {body : List U8} (hb : endOfFrame ∉ body) (got : List U8) :
    scanner.run (.inside got) body = .inside (got ++ body) ∧
      scanner.output (.inside got) body = [] := by
  induction body generalizing got with
  | nil => exact ⟨by rw [List.append_nil]; rfl, rfl⟩
  | cons b body ih =>
    obtain ⟨hne, hrest⟩ := List.ne_and_not_mem_of_not_mem_cons hb
    have hstep : scanner.step (.inside got) b = .inside (got ++ [b]) := if_neg (Ne.symm hne)
    have hemit : scanner.emit (.inside got) b = none := if_neg (Ne.symm hne)
    rw [Transducer.run_cons, Transducer.output_cons, hstep, hemit, List.append_cons got b body]
    exact ih hrest (got ++ [b])

theorem scan_start : scanner.run .outside [startOfFrame] = .inside [] ∧
    scanner.output .outside [startOfFrame] = [] := ⟨rfl, rfl⟩

theorem scan_end (body : List U8) : scanner.run (.inside body) [endOfFrame] = .outside ∧
    scanner.output (.inside body) [endOfFrame] = [body] := ⟨rfl, rfl⟩

theorem scan_framing {body : List U8} (hb : endOfFrame ∉ body) :
    scanner.run .outside (framing body) = .outside ∧
      scanner.output .outside (framing body) = [body] := by
  have hsplit : framing body = [startOfFrame] ++ (body ++ [endOfFrame]) := rfl
  obtain ⟨hrun, hout⟩ := scan_body hb []
  rw [hsplit, Transducer.run_append, Transducer.run_append, Transducer.output_append,
    Transducer.output_append, scan_start.1, scan_start.2, hrun, hout]
  exact scan_end body

/-! ## The codec finds what the scanner finds -/

/-- What the buffer holds when the scanner stands there. -/
inductive Holds : List U8 → Position → Prop
  | outside {noise : List U8} (hn : startOfFrame ∉ noise) : Holds noise .outside
  | inside {noise body : List U8} (hn : startOfFrame ∉ noise) (hb : endOfFrame ∉ body) :
      Holds (noise ++ startOfFrame :: body) (.inside body)

/-- Every buffer is one of these, or has a complete frame behind some noise. -/
theorem holds_or_frame (src : List U8) : (∃ p, Holds src p) ∨ ∃ noise body rest,
    startOfFrame ∉ noise ∧ endOfFrame ∉ body ∧ src = noise ++ (framing body ++ rest) := by
  by_cases hs : startOfFrame ∈ src
  · obtain ⟨noise, tail, rfl, hn⟩ := List.eq_append_cons_of_mem hs
    by_cases he : endOfFrame ∈ tail
    · obtain ⟨body, rest, rfl, hb⟩ := List.eq_append_cons_of_mem he
      exact Or.inr ⟨noise, body, rest, hn, hb, by simp [framing]⟩
    · exact Or.inl ⟨_, .inside hn he⟩
  · exact Or.inl ⟨_, .outside hs⟩

theorem Holds.scan {src : List U8} {p : Position} (h : Holds src p) :
    scanner.run .outside src = p ∧ scanner.output .outside src = [] := by
  cases h with
  | outside hn => exact scan_noise hn
  | inside hn hb =>
    obtain ⟨hrun, hout⟩ := scan_noise hn
    obtain ⟨hrun', hout'⟩ := scan_body hb []
    rw [List.append_cons, Transducer.run_append, Transducer.run_append, Transducer.output_append,
      Transducer.output_append, Transducer.run_append, hrun, hout, scan_start.1, scan_start.2]
    exact ⟨hrun', hout'⟩

theorem Holds.decode {src : List U8} {p : Position} (h : Holds src p) :
    decode src = some (none, src) := by
  cases h with
  | outside hn => exact decode_outside hn
  | inside hn hb => exact decode_inside hn hb

/-- Induction over the complete frames of a buffer. -/
theorem frames_induction {motive : List U8 → Prop}
    (quiet : ∀ src p, Holds src p → motive src)
    (frame : ∀ noise body rest, startOfFrame ∉ noise → endOfFrame ∉ body → motive rest →
      motive (noise ++ (framing body ++ rest))) (src : List U8) : motive src := by
  induction hlength : src.length using Nat.strongRecOn generalizing src with
  | ind n ih =>
    rcases holds_or_frame src with ⟨p, h⟩ | ⟨noise, body, rest, hn, hb, rfl⟩
    · exact quiet src p h
    · have hshorter := decode_shrinks (decode_noise hn hb rest)
      exact frame noise body rest hn hb (ih rest.length (hlength ▸ hshorter) rest rfl)

theorem scan_frame {noise body : List U8} (hn : startOfFrame ∉ noise) (hb : endOfFrame ∉ body)
    (rest : List U8) :
    scanner.run .outside (noise ++ (framing body ++ rest)) = scanner.run .outside rest ∧
      scanner.output .outside (noise ++ (framing body ++ rest)) =
        body :: scanner.output .outside rest := by
  obtain ⟨hrun, hout⟩ := scan_noise hn
  obtain ⟨hrun', hout'⟩ := scan_framing hb
  rw [Transducer.run_append, Transducer.run_append, Transducer.output_append,
    Transducer.output_append, hrun, hout, hrun', hout']
  exact ⟨rfl, rfl⟩

/-- Asking again until there is no frame left returns the scanner's bodies. -/
theorem decodeAll_scan (src : List U8) :
    ∃ rest, decodeAll src = some (scanner.output .outside src, rest) ∧
      Holds rest (scanner.run .outside src) := by
  induction src using frames_induction with
  | quiet src p h =>
    obtain ⟨hrun, hout⟩ := h.scan
    rw [hrun, hout]
    exact ⟨src, decodeAll_none h.decode, h⟩
  | frame noise body rest hn hb ih =>
    obtain ⟨src', hall, hholds⟩ := ih
    obtain ⟨hrun, hout⟩ := scan_frame hn hb rest
    refine ⟨src', ?_, hrun ▸ hholds⟩
    rw [decodeAll_some (decode_noise hn hb rest), hall, hout]
    rfl

/-- The chunks in which any stream arrives make no difference. -/
theorem framed_scan {src : List U8} {p : Position} (h : Holds src p) (chunks : List (List U8)) :
    ∃ rest, framed src chunks = some (scanner.output p chunks.flatten, rest) ∧
      Holds rest (scanner.run p chunks.flatten) := by
  induction chunks generalizing src p with
  | nil => exact ⟨src, rfl, h⟩
  | cons chunk chunks ih =>
    obtain ⟨rest, hall, hholds⟩ := decodeAll_scan (src ++ chunk)
    rw [Transducer.run_append, h.scan.1] at hholds
    rw [Transducer.output_append, h.scan.1, h.scan.2, List.nil_append] at hall
    obtain ⟨rest', hlater, hholds'⟩ := ih hholds
    rw [List.flatten_cons, Transducer.run_append, Transducer.output_append]
    refine ⟨rest', ?_, hholds'⟩
    simp only [framed, hall, hlater, Option.bind_eq_bind, Option.bind_some]
    rfl

/-! ## Streams of noise and frames -/

inductive Segment where
  | noise (bytes : List U8) (quiet : startOfFrame ∉ bytes)
  | frame (body : List U8) (below : ∀ b ∈ body, b < 0x80)

namespace Segment

def bytes : Segment → List U8
  | .noise bytes _ => bytes
  | .frame body _ => framing body

def bodies : Segment → List (List U8)
  | .noise _ _ => []
  | .frame body _ => [body]

end Segment

theorem scan_segment (segment : Segment) : scanner.run .outside segment.bytes = .outside ∧
    scanner.output .outside segment.bytes = segment.bodies := by
  cases segment with
  | noise bytes quiet => exact scan_noise quiet
  | frame body below =>
    have hb : endOfFrame ∉ body := fun hmem => absurd (below _ hmem) (by decide)
    exact scan_framing hb

theorem scan_segments (segments : List Segment) :
    scanner.output .outside (segments.flatMap Segment.bytes) =
      segments.flatMap Segment.bodies := by
  induction segments with
  | nil => rfl
  | cons segment segments ih =>
    obtain ⟨hrun, hout⟩ := scan_segment segment
    rw [List.flatMap_cons, List.flatMap_cons, Transducer.output_append, hrun, hout, ih]

/-- **The codec returns the bodies of the frames.** Of noise and frames cut into chunks
anywhere, it has returned the first bodies, in order and once each, and all of them
when everything has arrived. Without a frame in it the buffer stays as it is. -/
theorem bodies_returned {segments : List Segment} {chunks : List (List U8)} {later : List U8}
    (h : chunks.flatten ++ later = segments.flatMap Segment.bytes) :
    (∃ returned src, framed [] chunks = some (returned, src) ∧
      returned <+: segments.flatMap Segment.bodies ∧
      (later = [] → returned = segments.flatMap Segment.bodies)) ∧
    ∀ src src', decode src = some (none, src') → src' = src := by
  constructor
  · obtain ⟨src, hframed, -⟩ := framed_scan (.outside List.not_mem_nil) chunks
    refine ⟨_, src, hframed, ?_, ?_⟩
    · rw [← scan_segments]
      exact scanner.output_mono _ ⟨later, h⟩
    · intro hall
      rw [hall, List.append_nil] at h
      rw [h, scan_segments]
  · intro src src' hdecode
    rcases holds_or_frame src with ⟨p, hholds⟩ | ⟨noise, body, rest, hn, hb, rfl⟩
    · rw [hholds.decode] at hdecode
      exact (Prod.mk.inj (Option.some.inj hdecode)).2.symm
    · rw [decode_noise hn hb rest] at hdecode
      simp at hdecode

/-- Stray end markers, and two neighbouring frames cut between and inside their markers. -/
theorem bodies_returned_cut :
    ∃ returned src, framed [] [[0x81, 0x05], [0x80, 1], [2, 0x81, 0x80], [0x81, 7]] =
      some (returned, src) ∧ returned = [[1, 2], []] := by
  have h : [[0x81, 0x05], [0x80, 1], [2, 0x81, 0x80], [0x81, 7]].flatten ++ ([] : List U8) =
      [.noise [0x81, 0x05] (by decide), .frame [1, 2] (by decide), .frame [] (by decide),
        .noise [7] (by decide)].flatMap Segment.bytes := by decide
  obtain ⟨⟨returned, src, hframed, -, hall⟩, -⟩ := bodies_returned h
  exact ⟨returned, src, hframed, hall rfl⟩

/-! ## A lost end marker -/

/-- A body that is returned stands between its markers in the stream. -/
theorem output_framing {stream body : List U8} (h : body ∈ scanner.output .outside stream) :
    endOfFrame ∉ body ∧ ∃ before after, stream = before ++ (framing body ++ after) := by
  induction stream using frames_induction with
  | quiet stream p hholds =>
    rw [hholds.scan.2] at h
    exact absurd h List.not_mem_nil
  | frame noise first rest hn hb ih =>
    rw [(scan_frame hn hb rest).2, List.mem_cons] at h
    rcases h with rfl | h
    · exact ⟨hb, noise, rest, rfl⟩
    · obtain ⟨hnone, before, after, rfl⟩ := ih h
      exact ⟨hnone, noise ++ framing first ++ before, after, by simp⟩

/-- Behind a start marker the scanner is inside a frame, wherever it was before. -/
theorem scan_startOfFrame (p : Position) : ∃ body, scanner.step p startOfFrame = .inside body := by
  cases p with
  | outside => exact ⟨[], rfl⟩
  | inside body => exact ⟨body ++ [startOfFrame], rfl⟩

/-- What follows a start marker up to the next end marker ends the body returned for it. -/
theorem output_merged (before : List U8) {tail : List U8} (ht : endOfFrame ∉ tail)
    (after : List U8) : ∃ front,
      front ++ tail ∈
        scanner.output .outside (before ++ startOfFrame :: (tail ++ endOfFrame :: after)) := by
  obtain ⟨front, hstep⟩ := scan_startOfFrame (scanner.run .outside before)
  obtain ⟨hrun, -⟩ := scan_body ht front
  refine ⟨front, ?_⟩
  rw [Transducer.output_append, Transducer.output_cons, hstep, Transducer.output_append, hrun,
    Transducer.output_cons]
  have hemit : scanner.emit (.inside (front ++ tail)) endOfFrame = some (front ++ tail) := rfl
  rw [hemit]
  simp

/-- Two start markers with an end marker behind them have one between them. -/
def Separated (stream : List U8) : Prop :=
  ∀ before between after, stream = before ++ startOfFrame :: (between ++ startOfFrame :: after) →
    endOfFrame ∈ after → endOfFrame ∈ between

/-- No body has a marker in it, and where the end marker of a frame is lost, the
next body is returned behind what is returned of the stream before that frame. -/
def Resynchronises (stream : List U8) (returned : List (List U8)) : Prop :=
  (∀ body ∈ returned, startOfFrame ∉ body ∧ endOfFrame ∉ body) ∧
  ∀ before lost body after, (∀ b ∈ lost ++ body, b < 0x80) →
    stream = before ++ startOfFrame :: (lost ++ (framing body ++ after)) →
    ∃ earlier src later, decodeAll before = some (earlier, src) ∧
      returned = earlier ++ body :: later

/-- **The codec resynchronises only where no end marker is lost.** It does not look for a
start marker behind the first: the body it returns then has the start of the next frame
in it. -/
theorem resynchronises_iff (chunks : List (List U8)) :
    ∃ returned src, framed [] chunks = some (returned, src) ∧
      (Resynchronises chunks.flatten returned ↔ Separated chunks.flatten) := by
  obtain ⟨src, hframed, -⟩ := framed_scan (.outside List.not_mem_nil) chunks
  refine ⟨_, src, hframed, ?_, ?_⟩
  · rintro ⟨hmarkers, -⟩ before between after hstream hend
    by_contra hnone
    obtain ⟨first, after, rfl, hfirst⟩ := List.eq_append_cons_of_mem hend
    have htail : endOfFrame ∉ between ++ startOfFrame :: first := by
      simp only [List.mem_append, List.mem_cons, not_or]
      exact ⟨hnone, by decide, hfirst⟩
    obtain ⟨front, hmem⟩ := output_merged before htail after
    rw [List.append_assoc, List.cons_append, ← hstream] at hmem
    exact (hmarkers _ hmem).1 (by simp)
  · intro hseparated
    constructor
    · intro body hbody
      obtain ⟨hnone, before, after, hstream⟩ := output_framing hbody
      refine ⟨?_, hnone⟩
      intro hmem
      obtain ⟨between, rest, rfl, -⟩ := List.eq_append_cons_of_mem hmem
      have hbetween := hseparated before between (rest ++ endOfFrame :: after)
        (by rw [hstream]; simp [framing]) (by simp)
      exact hnone (List.mem_append_left _ hbetween)
    · -- no stream with a lost end marker is separated
      intro before lost body after hbelow hstream
      have hlost := hseparated before lost (body ++ endOfFrame :: after)
        (by rw [hstream]; simp [framing]) (by simp)
      exact absurd (hbelow endOfFrame (List.mem_append_left _ hlost)) (by decide)

/-- The end marker of the first frame is lost; both bodies come back as one. -/
theorem merged_body : ¬ ∀ (chunks : List (List U8)) (returned : List (List U8)) (src : List U8),
    framed [] chunks = some (returned, src) → Resynchronises chunks.flatten returned := by
  intro hall
  obtain ⟨src, hframed, -⟩ := framed_scan (.outside List.not_mem_nil) [[0x80, 1], [0x80, 2, 0x81]]
  have hmerged := (hall _ _ _ hframed).1 [1, 0x80, 2] (by decide)
  exact hmerged.1 (by decide)

end SeccampRiscvCpu.ProbeFrameCodec
