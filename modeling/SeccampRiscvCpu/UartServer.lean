import SeccampRiscvCpu.FwtoolBootrom
import SeccampRiscvCpu.UartDriver

/-!
# The firmware-tool server on the UART

The loop of `main.rs`: it moves the light on and calls `process` with the reader and the writer of
the UART. Each call of `process` is one with the answers the UART has given. So whatever the loop
has loaded and stored is what a run of the server takes and writes, and the results about such runs
are results about the two lines.
-/
namespace SeccampRiscvCpu.UartServer
open BusPrograms ByteMemory ByteSlices FwtoolFrame FwtoolReceiver FwtoolReception FwtoolServer
open FwtoolService HandshakeStreams StreamTransducer UartDriver UartRegisters
open UartLink UartReceiver UartTransmitter

section
variable {σ : Type} {max : ℕ}

/-! ## The loop -/

def writeStep : Except IoError ℕ → WriteStep
  | .ok n => .accept n
  | .error _ => .fail

/-- The pending bytes are handed to the writer; without any it is not called. -/
def flushPending (s : Server σ max) : Firmware (Option WriteStep) :=
  match s.pendingTransfer with
  | none => return some (.accept 0)
  | some t =>
    match slice s.frameBuffer.bytes t.offset (t.offset + t.remainingBytes) with
    | none => return none
    | some bytes => do return some (writeStep (← UartWriter.write bytes))

/-- The reader is called for the bytes the state asks for, unless some are pending. -/
def readMore (s : Server σ max) (answer : WriteStep) : Firmware (Option (ReadStep × List U8)) :=
  match s.flush answer with
  | none => return none
  | some (_, some _) => return some (.fail, [])
  | some (_, none) =>
    match readRange max s.receiver.state with
    | none => return none
    | some (_, bytesToRead) => do
      match ← UartReader.read bytesToRead with
      | .ok got => return some (.deliver got.length, got)
      | .error _ => return some (.fail, [])

/-- `server.process(&mut reader, &mut writer)`, or a stop. -/
def process (crc : Digest) (H : ServerHandler σ) (s : Server σ max) :
    Firmware (Option (Server σ max)) := do
  match ← flushPending s with
  | none => return none
  | some answer =>
    match ← readMore s answer with
    | none => return none
    | some (step, got) => return (s.process crc H (step, answer) got).map (·.state)

/-- `GPIO.led_out` -/
def ledOut : Word := 0xa0000040

/-- The variables of `main`. -/
structure Main (σ : Type) (max : ℕ) where
  server : Server σ max
  ledOut : Word

/-- The body of the loop; a program that has stopped does nothing any more. -/
def mainLoop (crc : Digest) (H : ServerHandler σ) :
    Option (Main σ max) → Firmware (Option (Main σ max))
  | none => return none
  | some m => do
    .write ledOut m.ledOut
    let led := ((m.ledOut <<< 1) &&& 0x3f) ||| (m.ledOut >>> 5)
    match ← process crc H m.server with
    | none => return none
    | some server => return some ⟨server, led⟩

def main (crc : Digest) (H : ServerHandler σ) (max : ℕ) (handler : σ) (n : ℕ) :
    Firmware (Option (Main σ max)) :=
  Program.iterate (mainLoop crc H) n (some ⟨Server.new max handler, 1⟩)

/-! ## A call reads no more than it is given -/

/-- The rest of a stream is left as it is. -/
theorem receive_exact (crc : Digest) (r : Receiver max) {offset bytesToRead : ℕ} {got : List U8}
    (hrange : readRange max r.state = some (offset, bytesToRead)) (hle : got.length ≤ bytesToRead)
    (more : List U8) :
    r.receive crc (.deliver got.length) (got ++ more) =
      (r.receive crc (.deliver got.length) got).map fun v => { v with rest := more } := by
  have hmin : min got.length bytesToRead = got.length := Nat.min_eq_left hle
  simp only [Receiver.receive, hrange, Option.bind_eq_bind, Option.bind_some, hmin,
    List.take_left, List.drop_left, List.take_length, List.drop_length]
  cases slice r.receiveBuffer.bytes offset (offset + bytesToRead) with
  | none => rfl
  | some bytes =>
    simp only [Option.bind_some]
    cases r.receiveBuffer.store offset got with
    | none => rfl
    | some buffer =>
      simp only [Option.bind_some]
      split_ifs
      · rfl
      · cases advance crc ⟨r.state, buffer⟩ (offset + got.length) <;> rfl

variable {crc : Digest} {H : ServerHandler σ} {s : Server σ max} {answer : WriteStep}
  {written : List U8}

theorem process_blocked {t : PendingTransfer} (hflush : s.flush answer = some (written, some t))
    (step : ReadStep) (stream : List U8) : s.process crc H (step, answer) stream =
      some ⟨{ s with pendingTransfer := some t }, stream, some ⟨written, none⟩⟩ := by
  simp only [Server.process, hflush, Option.bind_eq_bind, Option.bind_some]
  rfl

theorem process_exact (hflush : s.flush answer = some (written, none)) {offset bytesToRead : ℕ}
    {got : List U8} (hrange : readRange max s.receiver.state = some (offset, bytesToRead))
    (hle : got.length ≤ bytesToRead) (more : List U8) :
    s.process crc H (.deliver got.length, answer) (got ++ more) =
      (s.process crc H (.deliver got.length, answer) got).map fun p => { p with rest := more } := by
  simp only [Server.process, hflush, Option.bind_eq_bind, Option.bind_some, Option.isSome_none,
    Bool.false_eq_true, if_false, receive_exact crc s.receiver hrange hle more]
  cases s.receiver.receive crc (.deliver got.length) got with
  | none => rfl
  | some v =>
    simp only [Option.map_some, Option.bind_some]
    cases accepted v.result with
    | none => rfl
    | some a =>
      obtain ⟨raw, frame⟩ := a
      simp only
      cases reply crc H s.handler s.frameBuffer frame <;> rfl

theorem process_written {pending : Option PendingTransfer}
    (hflush : s.flush answer = some (written, pending)) {step : ReadStep} {stream : List U8}
    {p : Poll (Server σ max) U8 Turn} (hp : s.process crc H (step, answer) stream = some p) :
    ∃ exchange, p.event = some ⟨written, exchange⟩ := by
  cases pending with
  | some t =>
    rw [process_blocked hflush] at hp
    exact ⟨none, Option.some.inj hp ▸ rfl⟩
  | none =>
    simp only [Server.process, hflush, Option.bind_eq_bind, Option.bind_some, Option.isSome_none,
      Bool.false_eq_true, if_false] at hp
    obtain ⟨v, -, hp⟩ := Option.bind_eq_some_iff.mp hp
    cases ha : accepted v.result with
    | none =>
      rw [ha] at hp
      exact ⟨none, Option.some.inj hp ▸ rfl⟩
    | some a =>
      rw [ha] at hp
      obtain ⟨r, -, hp⟩ := Option.bind_eq_some_iff.mp hp
      rw [← Option.some.inj hp]
      exact ⟨_, rfl⟩

/-! ## The loop is a run of the server -/

/-- A run of the server that has taken `loaded` and written `stored`. -/
def Ran (crc : Digest) (H : ServerHandler σ) (handler : σ) (loaded stored : List U8)
    (s : Server σ max) : Prop :=
  ∃ steps events, (∀ more, serve crc H steps (Server.new max handler) (loaded ++ more) =
    some ⟨s, more, events⟩) ∧ FwtoolService.written events = stored

/-- A run of the server that stops on `loaded`. -/
def RanOut (crc : Digest) (H : ServerHandler σ) (max : ℕ) (handler : σ) (loaded : List U8) : Prop :=
  ∃ steps, serve crc H steps (Server.new max handler) loaded = none

variable {handler : σ} {loaded stored : List U8}

theorem ran_new (crc : Digest) (H : ServerHandler σ) (max : ℕ) (handler : σ) :
    Ran crc H handler [] [] (Server.new max handler) := ⟨[], [], fun _ => rfl, rfl⟩

/-- One more call that takes exactly `got`. -/
theorem Ran.next (h : Ran crc H handler loaded stored s) {d : ReadStep × WriteStep} {got : List U8}
    {s' : Server σ max} {turn : Turn}
    (hp : ∀ more, s.process crc H d (got ++ more) = some ⟨s', more, some turn⟩) :
    Ran crc H handler (loaded ++ got) (stored ++ turn.written) s' := by
  obtain ⟨steps, events, hserve, rfl⟩ := h
  refine ⟨steps ++ [d], events ++ [turn], fun more => ?_, ?_⟩
  · have hbefore := hserve (got ++ more)
    rw [serve] at hbefore ⊢
    rw [pollRun_append, List.append_assoc, hbefore]
    simp [pollRun, hp]
  · simp [FwtoolService.written]

theorem Ran.stops (h : Ran crc H handler loaded stored s) {d : ReadStep × WriteStep} {got : List U8}
    (hp : s.process crc H d got = none) : RanOut crc H max handler (loaded ++ got) := by
  obtain ⟨steps, events, hserve, -⟩ := h
  refine ⟨steps ++ [d], ?_⟩
  have hbefore := hserve got
  rw [serve] at hbefore ⊢
  rw [pollRun_append, hbefore]
  simp [pollRun, hp]

end

section
variable {σ : Type} {max : ℕ} {crc : Digest} {H : ServerHandler σ} {s : Server σ max}
  {handler : σ} {loaded stored : List U8} {B S : ℕ} {port : ℕ → UartPort B S} {txBits : BitVec 10}
  {bits outBits : Byte} {input : ℕ → Inputs}

/-- What the writer is handed is what the flush takes for written. -/
def Flushed (port : ℕ → UartPort B S) (input : ℕ → Inputs) (stored loaded : List U8)
    (s : Server σ max) (r : Option WriteStep) (t : ℕ) : Prop :=
  match r with
  | none => (∀ answer, s.flush answer = none) ∧ Moved port input stored loaded t
  | some answer => ∃ written pending, s.flush answer = some (written, pending) ∧
      Moved port input (stored ++ written) loaded t

theorem stable_flushed (r : Option WriteStep) :
    Stable (traffic port input) (Flushed port input stored loaded s r) := by
  intro t hquiet hr
  cases r with
  | none => exact ⟨hr.1, stable_moved _ _ t hquiet hr.2⟩
  | some answer =>
    obtain ⟨written, pending, hflush, hmoved⟩ := hr
    exact ⟨written, pending, hflush, stable_moved _ _ t hquiet hmoved⟩

theorem flushPending_spec (h : Runs port txBits bits outBits input) :
    Triple (traffic port input) (Moved port input stored loaded) (flushPending s)
      (Flushed port input stored loaded s) := by
  unfold flushPending
  cases hpending : s.pendingTransfer with
  | none =>
    refine .done (stable_flushed _) fun t hmoved => ?_
    exact ⟨[], none, by rw [Server.flush, hpending], by rwa [List.append_nil]⟩
  | some transfer =>
    simp only
    cases hslice : slice s.frameBuffer.bytes transfer.offset
        (transfer.offset + transfer.remainingBytes) with
    | none =>
      refine .done (stable_flushed _) fun t hmoved => ⟨fun answer => ?_, hmoved⟩
      simp [Server.flush, hpending, hslice]
    | some bytes =>
      refine (writer_spec h bytes).bind fun r => .done (stable_flushed _) ?_
      rintro t ⟨n, rfl, hle, hmoved⟩
      have hlength : bytes.length = transfer.remainingBytes := by
        rw [length_of_slice hslice]
        omega
      have hsub : checkedSub transfer.remainingBytes (bytes.take (0 + n)).length =
          some (transfer.remainingBytes - (bytes.take (0 + n)).length) := by
        refine checkedSub_eq ?_
        rw [List.length_take]
        omega
      rw [Nat.zero_add] at hsub ⊢
      by_cases hdone : transfer.remainingBytes - (bytes.take n).length = 0
      · refine ⟨bytes.take n, none, ?_, hmoved⟩
        simp only [writeStep, Server.flush, hpending, hslice, Option.bind_eq_bind,
          Option.bind_some, hsub, if_pos hdone]
        rfl
      · refine ⟨bytes.take n, some ⟨transfer.offset + (bytes.take n).length,
          transfer.remainingBytes - (bytes.take n).length⟩, ?_, hmoved⟩
        simp only [writeStep, Server.flush, hpending, hslice, Option.bind_eq_bind,
          Option.bind_some, hsub, if_neg hdone]
        rfl

/-- What the reader has brought is what a call of `process` takes, whatever comes behind it. -/
def Fetched (crc : Digest) (H : ServerHandler σ) (port : ℕ → UartPort B S) (input : ℕ → Inputs)
    (stored loaded : List U8) (s : Server σ max) (answer : WriteStep)
    (r : Option (ReadStep × List U8)) (t : ℕ) : Prop :=
  match r with
  | none => (∀ step stream, s.process crc H (step, answer) stream = none) ∧
      Moved port input stored loaded t
  | some (step, got) => (∀ more, s.process crc H (step, answer) (got ++ more) =
      (s.process crc H (step, answer) got).map fun p => { p with rest := more }) ∧
      Moved port input stored (loaded ++ got) t

theorem stable_fetched {answer : WriteStep} (r : Option (ReadStep × List U8)) :
    Stable (traffic port input) (Fetched crc H port input stored loaded s answer r) := by
  intro t hquiet hr
  cases r with
  | none => exact ⟨hr.1, stable_moved _ _ t hquiet hr.2⟩
  | some fetched => exact ⟨hr.1, stable_moved _ _ t hquiet hr.2⟩

theorem process_range {answer : WriteStep} {written : List U8}
    (hflush : s.flush answer = some (written, none))
    (hrange : readRange max s.receiver.state = none) (step : ReadStep) (stream : List U8) :
    s.process crc H (step, answer) stream = none := by
  simp [Server.process, hflush, Receiver.receive, hrange]

theorem readMore_spec (crc : Digest) (H : ServerHandler σ)
    (h : Runs port txBits bits outBits input) {answer : WriteStep} {written : List U8}
    {pending : Option PendingTransfer} (hflush : s.flush answer = some (written, pending)) :
    Triple (traffic port input) (Moved port input stored loaded) (readMore s answer)
      (Fetched crc H port input stored loaded s answer) := by
  unfold readMore
  rw [hflush]
  cases pending with
  | some transfer =>
    refine .done (stable_fetched _) fun t hmoved => ⟨fun more => ?_, ?_⟩
    · rw [process_blocked hflush, process_blocked hflush]
      rfl
    · rwa [List.append_nil]
  | none =>
    simp only
    cases hrange : readRange max s.receiver.state with
    | none => exact .done (stable_fetched _) fun t hmoved => ⟨process_range hflush hrange, hmoved⟩
    | some range =>
      obtain ⟨offset, bytesToRead⟩ := range
      refine (reader_spec h bytesToRead).bind fun r => ?_
      cases r with
      | error e =>
        refine .done (stable_fetched _) ?_
        rintro t ⟨got, hr, -⟩
        cases hr
      | ok bytes =>
        refine .done (stable_fetched _) ?_
        rintro t ⟨got, hr, hle, hmoved⟩
        cases hr
        exact ⟨process_exact hflush hrange hle, hmoved⟩

/-- The server after some calls, or that there has been a stop. -/
def Serves (crc : Digest) (H : ServerHandler σ) (handler : σ) (port : ℕ → UartPort B S)
    (input : ℕ → Inputs) (r : Option (Server σ max)) (t : ℕ) : Prop :=
  ∃ stored loaded, (match r with
    | none => RanOut crc H max handler loaded
    | some s => Ran crc H handler loaded stored s) ∧ Moved port input stored loaded t

theorem stable_serves (r : Option (Server σ max)) :
    Stable (traffic port input) (Serves crc H handler port input r) := by
  rintro t hquiet ⟨stored, loaded, hr, hmoved⟩
  exact ⟨stored, loaded, hr, stable_moved _ _ t hquiet hmoved⟩

theorem process_spec (h : Runs port txBits bits outBits input)
    (hran : Ran crc H handler loaded stored s) :
    Triple (traffic port input) (Moved port input stored loaded) (process crc H s)
      (Serves crc H handler port input) := by
  refine (flushPending_spec (s := s) h).bind fun r => ?_
  cases r with
  | none =>
    refine .done (stable_serves _) ?_
    rintro t ⟨hnone, hmoved⟩
    have hstop : s.process crc H (.fail, .fail) [] = none := by
      simp [Server.process, hnone]
    have hout := hran.stops hstop
    rw [List.append_nil] at hout
    exact ⟨stored, loaded, hout, hmoved⟩
  | some answer =>
    refine .of_exists fun written => .of_exists fun pending => .of_and fun hflush => ?_
    refine (readMore_spec crc H h hflush).bind fun r => ?_
    cases r with
    | none =>
      refine .of_and fun hnone => .done (stable_serves _) fun t hmoved => ?_
      have hout := hran.stops (hnone .fail [])
      rw [List.append_nil] at hout
      exact ⟨_, loaded, hout, hmoved⟩
    | some fetched =>
      obtain ⟨step, got⟩ := fetched
      refine .of_and fun hexact => .done (stable_serves _) fun t hmoved => ?_
      refine ⟨_, _, ?_, hmoved⟩
      cases hp : s.process crc H (step, answer) got with
      | none => exact hran.stops hp
      | some p =>
        obtain ⟨exchange, hevent⟩ := process_written hflush hp
        have hall : ∀ more, s.process crc H (step, answer) (got ++ more) =
            some ⟨p.state, more, some ⟨written, exchange⟩⟩ := by
          intro more
          rw [hexact more, hp, Option.map_some, ← hevent]
        exact hran.next hall

/-- The light is not on the UART. -/
theorem led_still {w : Word} {t : ℕ} (hmoved : Moved port input stored loaded t)
    (hstore : (traffic port input).stores t ledOut w) :
    Moved port input stored loaded (t + 1) := by
  have hrequest : (input t).request = ⟨ledOut, false, true, 0b1111, w⟩ := hstore
  have hled : ¬ inData ledOut := by decide
  have helse : ¬ inData (input t).request.addr := by rwa [hrequest]
  exact hmoved.still (stores_none (Or.inr helse)) (loads_none (Or.inr helse))

theorem mainLoop_spec (h : Runs port txBits bits outBits input) (m : Option (Main σ max)) :
    Triple (traffic port input) (Serves crc H handler port input (m.map (·.server)))
      (mainLoop crc H m) (fun m => Serves crc H handler port input (m.map (·.server))) := by
  cases m with
  | none => exact .done (stable_serves _) fun t ht => ht
  | some m =>
    refine .of_exists fun stored => .of_exists fun loaded => .of_and fun hran => ?_
    refine Triple.write (stable_moved _ _) (fun t => led_still) ?_
    refine (process_spec h hran).bind fun r => ?_
    cases r with
    | none => exact .done (stable_serves _) fun t ht => ht
    | some server => exact .done (stable_serves _) fun t ht => ht

/-- Any number of rounds of the loop. -/
theorem main_spec (h : Runs port txBits bits outBits input) (n : ℕ) :
    Triple (traffic port input) (fun t => t = 0) (main crc H max handler n)
      (fun m => Serves crc H handler port input (m.map (·.server))) := by
  refine Triple.imp (Triple.iterate (fun m => stable_serves _) (mainLoop_spec h) n _) ?_
    fun _ _ hall => hall
  rintro t rfl
  exact ⟨[], [], ran_new crc H max handler, rfl, rfl⟩

end

/-- Requests the server can answer hold no read it could stop on, and neither does their front. -/
theorem front_no_gap {crc : Digest} {max : ℕ} {requests : List RawFrame}
    (hreq : ∀ f ∈ requests, Request max f) {stream loaded : List U8}
    (hscan : (scanner crc max).output (.header []) stream = requests.map .ok)
    (hloaded : loaded <+: stream) (raw : RawFrame) (frame : Frame)
    (hmem : .ok raw ∈ (scanner crc max).output (.header []) loaded)
    (hf : Frame.tryFrom raw = .ok frame) : ¬ GapRead max frame := by
  rintro ⟨request, length, hframe, hn, hgt, -⟩
  have hin := ((scanner crc max).output_mono (.header []) hloaded).subset hmem
  rw [hscan] at hin
  obtain ⟨f, hf', heq⟩ := List.mem_map.mp hin
  obtain rfl := Except.ok.inj heq
  exact (hreq f hf').read frame hf ⟨request, length, hframe, hn, hgt⟩

/-- **The server on the line.** A host sends requests, with noise between them, and no byte is
overwritten at the receiver. Then after any number of rounds of the loop, with any clocks between its
accesses, the program has not stopped; it has called the handler for a prefix of the requests,
once each and in order; and what the host has heard after the latency, what is queued and what is
pending are together the responses to these. If all bytes have been loaded, these are all. -/
theorem requests_served {B S S' : ℕ} (hB : 2 ≤ B) (hS : 1 ≤ S) (hS' : 1 ≤ S')
    (crc : Digest) {max : ℕ} (hm : 14 ≤ max) (hx : max ≤ 65535) {σ : Type} (H : ServerHandler σ)
    (handler : σ) {port : ℕ → UartPort B S} {txBits : BitVec 10} {bits outBits : Byte}
    {input : ℕ → Inputs} (h : Runs port txBits bits outBits input) {tx : ℕ → UartTx 8 B}
    {hostBits : BitVec 10} {sent : Handshake Byte} (htx : Drives tx hostBits sent)
    (hline : ∀ t, (input t).rx = (tx t).tx) (farBits farOutBits : Byte)
    {exchanges : List (List U8 × RawFrame)} {tail : List U8}
    (hexchanges : ∀ e ∈ exchanges, frameMarker ∉ e.1 ∧ Request max e.2) (htail : frameMarker ∉ tail)
    (hsent : ∀ t, sent.transferred t <+: streamOf crc exchanges tail)
    {n t : ℕ} {m : Option (Main σ max)}
    (hperforms : Performs (traffic port input) (main crc H max handler n) 0 t m)
    (hnone : NoneOverwritten port t) :
    let far : ℕ → UartRx 8 B S' := farEnd (fun t => (port t).uartTx) farBits farOutBits
    ∃ mm entries, m = some mm ∧
      entries.map Prod.fst <+: exchanges.map Prod.snd ∧
      Threads (fun e s s' => ∃ frame, Frame.tryFrom e.1 = .ok frame ∧ e.2.Calls H frame s s')
        handler entries mm.server.handler ∧
      heard far (t + latency 8 B S') ++ (port t).uartTxQueue.entries ++ outstanding mm.server =
        entries.flatMap (replyBytes crc max) ∧
      ((loads port input).transferred t = streamOf crc exchanges tail →
        entries.map Prod.fst = exchanges.map Prod.snd) := by
  intro far
  have hreq : ∀ f ∈ exchanges.map Prod.snd, Request max f := by
    intro f hmem
    obtain ⟨e, he, rfl⟩ := List.mem_map.mp hmem
    exact (hexchanges e he).2
  have hscan : (scanner crc max).output (.header []) (streamOf crc exchanges tail) =
      (exchanges.map Prod.snd).map .ok := by
    rw [scan_traffic crc hexchanges htail, List.map_map]
    rfl
  obtain ⟨stored, loaded, hran, hstored, hloaded⟩ := main_spec h n 0 t m rfl hperforms
  -- what has been loaded is the front of what the host has sent
  have hfront : loaded <+: streamOf crc exchanges tail := by
    have hcame := (h.came_spec hB hS htx hline t).2.mpr ((h.noneOverwritten_iff hline t).mp hnone)
    refine List.IsPrefix.trans ?_ (hcame ▸ hsent _)
    rw [came, hloaded, List.append_assoc]
    exact List.prefix_append _ _
  cases m with
  | none =>
    obtain ⟨steps, hstop⟩ := hran
    obtain ⟨q, hq, -⟩ :=
      serve_spec crc H hm hx handler loaded (front_no_gap hreq hscan hfront) steps
    exact absurd (hstop.symm.trans hq) (Option.some_ne_none q).symm
  | some mm =>
    obtain ⟨steps, events, hserve, hwritten⟩ := hran
    obtain ⟨more, hmore⟩ := hfront
    obtain ⟨q, hq, hpre, hall, hcalls, hout, -⟩ :=
      serve_requests crc hm hx H handler hreq hscan steps
    rw [← hmore, hserve more] at hq
    obtain rfl := Option.some.inj hq
    refine ⟨mm, log events, rfl, hpre, hcalls, ?_, ?_⟩
    · rw [← h.heard hB hS' farBits farOutBits t, hstored, ← hout, ← hwritten]
    · intro hdone
      refine hall ?_
      rw [hloaded] at hdone
      rw [hdone] at hmore
      exact List.append_right_eq_self.mp hmore

/-! ## A request and its response -/

/-- A query of the version as it is on the line. -/
def queryBytes : List U8 := [0x5a, 0x00, 0x00, 0x00, 0x00, 0x00, 0xe1, 0x0c]

/-- A host that sends it, byte after byte. -/
def asking : Handshake Byte where
  offer t := queryBytes[t / 21]?
  ready t := (txRun 0 (fun t => queryBytes[t / 21]?) t : UartTx 8 2).inReady

def askingLine (t : ℕ) : Bool := (txRun 0 asking.offer t : UartTx 8 2).tx

theorem queryBytes_eq :
    streamOf (ReflectedCrc.checksum ReflectedCrc.usb) [([], emptyRequest)] [] = queryBytes := by
  decide +kernel

theorem asking_front (t : ℕ) : asking.transferred t <+: queryBytes := by
  have hall : ∀ d, asking.transferred (168 + d) = queryBytes := by
    intro d
    induction d with
    | zero => decide +kernel
    | succ d ih =>
      have hlength : queryBytes.length ≤ (168 + d) / 21 := by
        have hbytes : queryBytes.length = 8 := rfl
        omega
      have hquiet : asking.transfer (168 + d) = none := by
        rw [Handshake.transfer, show asking.offer (168 + d) = none from
          List.getElem?_eq_none hlength, ite_self]
      rw [← Nat.add_assoc, Handshake.transferred_succ, ih, hquiet]
      rfl
  rw [← hall t]
  exact Handshake.transferred_mono (Nat.le_add_left t 168)

/-- Three rounds of the loop. -/
def threeRounds : Firmware (Option (Main (Option FwtoolBootrom.AppImage) 128)) :=
  main (ReflectedCrc.checksum ReflectedCrc.usb) FwtoolBootrom.handler 128
    (some (.zero FwtoolBootrom.appImageLen)) 3

/-- They begin when all bytes have come in: the first one loads the header, the second one the
rest, and the third one stores the response. -/
def answeringPort : ℕ → UartPort 2 1 := boardPort 2 1 170 askingLine threeRounds

def answeringInput : ℕ → Inputs := boardInput 2 1 170 askingLine threeRounds

theorem threeRounds_performs :
    ∃ m, Performs (traffic answeringPort answeringInput) threeRounds 0 218 m := by
  have hdone : finished (boardAt 170 askingLine threeRounds 218 : Board _ 2 1).left = true := by
    decide +kernel
  obtain ⟨m, hm⟩ := finished_done hdone
  exact ⟨m, board_performs 170 askingLine threeRounds (Nat.zero_le 218) hm⟩

theorem requests_served_query :
    ∃ (server : Server (Option FwtoolBootrom.AppImage) 128) (entries : List (RawFrame × Exchange)),
      entries.map Prod.fst = [emptyRequest] ∧
      heard (farEnd (fun t => (answeringPort t).uartTx) 0 0 : ℕ → UartRx 8 2 1)
          (218 + latency 8 2 1) ++ (answeringPort 218).uartTxQueue.entries ++ outstanding server =
        entries.flatMap (replyBytes (ReflectedCrc.checksum ReflectedCrc.usb) 128) := by
  obtain ⟨m, hperforms⟩ := threeRounds_performs
  have hruns : Runs answeringPort 0 0 0 answeringInput := runs_board 170 askingLine threeRounds
  have hdrives : Drives (txRun 0 asking.offer : ℕ → UartTx 8 2) 0 asking :=
    ⟨fun _ => rfl, fun _ => rfl⟩
  have hrequest : ∀ e ∈ [(([] : List U8), emptyRequest)],
      frameMarker ∉ e.1 ∧ Request 128 e.2 := by
    intro e he
    rw [List.mem_singleton.mp he]
    refine ⟨by decide, rfl, by decide, ⟨_, rfl⟩, ⟨_, rfl⟩, ?_⟩
    rintro _ ⟨⟩ ⟨_, _, ⟨⟩, -⟩
  have htail : frameMarker ∉ ([] : List U8) := List.not_mem_nil
  have hnone : NoneOverwritten answeringPort 218 :=
    (hruns.noneOverwritten_iff (fun _ => rfl) 218).mpr (by decide +kernel)
  have hloaded : (loads answeringPort answeringInput).transferred 218 = queryBytes := by
    decide +kernel
  obtain ⟨mm, entries, -, -, -, hout, hall⟩ := requests_served (Nat.le_refl 2) (Nat.le_refl 1)
    (Nat.le_refl 1) _ (by decide) (by decide) _ _ hruns hdrives (fun _ => rfl) 0 0 hrequest htail
    (fun t => queryBytes_eq ▸ asking_front t) hperforms hnone
  exact ⟨mm.server, entries, hall (hloaded.trans queryBytes_eq.symm), hout⟩

end SeccampRiscvCpu.UartServer
