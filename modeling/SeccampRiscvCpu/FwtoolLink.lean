import SeccampRiscvCpu.FairSchedules
import SeccampRiscvCpu.FwtoolClient
import SeccampRiscvCpu.FwtoolService

/-!
# Client and server over a link

`query_version` of the client and `process` of the server as two parties with a
byte channel in each direction. The client's call is cut at its awaits:
`write_all` hands its frame over in pieces, `read_exact` collects a header first
and then the rest of the frame. The schedule says who moves next and how many
bytes move, and the caller makes one call after the other.

The invariant follows a call through its two messages. While the request is
under way its bytes are, in order, with the receiver, in the channel and with
the client; then those of the response are with the client, in the channel and
pending in the server.
-/
namespace SeccampRiscvCpu.FwtoolLink
open ByteSlices FwtoolFrame FwtoolReceiver FwtoolReception FwtoolServer FwtoolService FwtoolClient
open StreamTransducer FairSchedules

/-- A call that has returned, with the bytes it took from the reader. -/
structure Finished where
  frameNumber : U16
  received : List U8
  result : Except IoError (U32 × U16)
deriving DecidableEq

inductive Phase where
  | idle
  | sending (frameNumber : U16) (rest : List U8)
  | receiving (frameNumber : U16) (got : List U8)
deriving DecidableEq, Repr

structure Link (σ : Type) (max : ℕ) where
  client : Client
  phase : Phase
  toServer : List U8
  server : Server σ max
  toClient : List U8
  finished : List Finished
  served : List (RawFrame × Exchange)

def Link.new {σ : Type} (max : ℕ) (client : Client) (handler : σ) : Link σ max :=
  ⟨client, .idle, [], Server.new max handler, [], [], []⟩

inductive Action where
  | call
  | send (n : ℕ)
  | receive (n : ℕ)
  | process (answers : ReadStep × WriteStep)
deriving DecidableEq, Repr

/-- What the two `read_exact` of `receive_frame_raw` still wait for. -/
def missing (got : List U8) : ℕ :=
  if got.length < FrameHeader.size then FrameHeader.size - got.length
  else match FrameHeader.tryFrom ((got.take FrameHeader.size).drop 1) with
    | .error _ => 0
    | .ok header => FrameHeader.size + header.payloadLength.toNat + 2 - got.length

/-- From the bytes read to what `query_version` returns. -/
def finish (crc : Digest) (frameNumber : U16) (got : List U8) :
    Option (Except IoError (U32 × U16)) := do
  match ← receiveFrameRaw crc got with
  | .error e => return .error e
  | .ok bytes => answer crc frameNumber acceptVersion bytes

namespace Link
variable {σ : Type} {max : ℕ}

def call (crc : Digest) (l : Link σ max) : Option (Link σ max) :=
  match l.phase with
  | .idle => do
    let (frameNumber, client) := l.client.advance
    let bytes ← sendFrameRaw crc (QueryVersionRequestFrame.new frameNumber)
    return { l with client, phase := .sending frameNumber bytes }
  | _ => some l

/-- The writer takes at most `n` bytes; `write_all` ends with the last one. -/
def send (n : ℕ) (l : Link σ max) : Link σ max :=
  match l.phase with
  | .sending frameNumber rest =>
    { l with
      toServer := l.toServer ++ rest.take n
      phase := if rest.drop n = [] then .receiving frameNumber []
        else .sending frameNumber (rest.drop n) }
  | _ => l

/-- The reader gives at most `n` bytes of what the current `read_exact` waits for. -/
def receive (crc : Digest) (n : ℕ) (l : Link σ max) : Option (Link σ max) :=
  match l.phase with
  | .receiving frameNumber got => do
    let count := min n (missing got)
    let received := got ++ l.toClient.take count
    let l := { l with toClient := l.toClient.drop count }
    if missing received = 0 then
      let result ← finish crc frameNumber received
      return { l with phase := .idle, finished := l.finished ++ [⟨frameNumber, received, result⟩] }
    else return { l with phase := .receiving frameNumber received }
  | _ => some l

def process (crc : Digest) (H : ServerHandler σ) (answers : ReadStep × WriteStep)
    (l : Link σ max) : Option (Link σ max) := do
  let p ← l.server.process crc H answers l.toServer
  return { l with
    server := p.state
    toServer := p.rest
    toClient := l.toClient ++ written p.event.toList
    served := l.served ++ log p.event.toList }

def step (crc : Digest) (H : ServerHandler σ) : Action → Link σ max → Option (Link σ max)
  | .call, l => l.call crc
  | .send n, l => some (l.send n)
  | .receive n, l => l.receive crc n
  | .process answers, l => l.process crc H answers

/-- The link after `t` actions, as long as none of them stops a program. -/
def run (crc : Digest) (H : ServerHandler σ) (schedule : ℕ → Action) (l : Link σ max) :
    ℕ → Option (Link σ max)
  | 0 => some l
  | t + 1 => (run crc H schedule l t).bind (step crc H (schedule t))

end Link

/-! ## The two messages of a call -/

def request (n : U16) : RawFrame := QueryVersionRequestFrame.new n

def response (max : ℕ) (version : U32) (n : U16) : RawFrame :=
  Exchange.response max n (.queryVersion (.ok version))

theorem request_wellFormed (n : U16) : (request n).WellFormed :=
  ⟨rfl, by simp only [request, QueryVersionRequestFrame.new]; decide⟩

theorem response_wellFormed (max : ℕ) (version : U32) (n : U16) :
    (response max version n).WellFormed :=
  ⟨rfl, by simp only [response, Exchange.response]; decide⟩

section
variable {crc : Digest} {max : ℕ} {version : U32} {n : U16}

theorem request_length : ((request n).encode crc).length = 8 := rfl

theorem response_length : ((response max version n).encode crc).length = 14 := rfl

/-- A part of the response waits for what is missing of it. -/
theorem missing_part {got rest : List U8}
    (h : (response max version n).encode crc = got ++ rest) : missing got = 0 ↔ rest = [] := by
  have hl := congrArg List.length h
  rw [response_length, List.length_append] at hl
  have hsize : FrameHeader.size = 6 := rfl
  unfold missing
  split_ifs with hlt
  · constructor
    · intro he
      omega
    · intro he
      rw [he, List.length_nil] at hl
      omega
  · -- the header is there, and it is the response's
    have hhead : (got.take FrameHeader.size).drop 1 =
        (response max version n).header.toBytes := by
      have htake := congrArg (List.take FrameHeader.size) h
      rw [List.take_append_of_le_length (Nat.not_lt.mp hlt)] at htake
      rw [← htake]
      rfl
    have htry := FrameHeader.tryFrom_toBytes (response_wellFormed max version n).decodable []
    rw [List.append_nil] at htry
    have hsum : FrameHeader.size + (response max version n).header.payloadLength.toNat + 2 = 14 :=
      rfl
    rw [hhead, htry]
    simp only [hsum]
    constructor
    · intro he
      exact List.eq_nil_of_length_eq_zero (by omega)
    · intro he
      rw [he, List.length_nil] at hl
      omega

theorem response_fields (max : ℕ) (version : U32) (n : U16) :
    QueryVersionResponseFrame.version (response max version n) = some version ∧
      QueryVersionResponseFrame.maxPayloadSize (response max version n) =
        some (.ofNat 16 (max - 8)) := by
  constructor
  · exact Command.payloadAddress_be32 rfl
  · have hslice := slice_middle (be32 version) (be16 (.ofNat 16 (max - 8))) [] (i := 4) (j := 6)
      rfl rfl
    rw [List.append_nil] at hslice
    simp only [QueryVersionResponseFrame.maxPayloadSize, response, Exchange.response, hslice,
      Option.bind_eq_bind, Option.bind_some, wordOf_be16]

theorem receiveFrameRaw_response :
    receiveFrameRaw crc ((response max version n).encode crc) =
      some (.ok ((response max version n).encode crc)) := by
  have hread := RawFrame.readFrame_encode crc (response_wellFormed max version n)
  have hhead : (((response max version n).encode crc).take FrameHeader.size).drop 1 =
      (response max version n).header.toBytes := rfl
  have htry := FrameHeader.tryFrom_toBytes (response_wellFormed max version n).decodable []
  rw [List.append_nil] at htry
  have hsize : FrameHeader.size + (response max version n).header.payloadLength.toNat + 2 =
      ((response max version n).encode crc).length := rfl
  unfold receiveFrameRaw
  rw [if_neg (by rw [response_length]; decide), hhead, htry]
  simp only [hsize, lt_irrefl, if_false, List.take_length, hread]
  rfl

theorem finish_response : finish crc n ((response max version n).encode crc) =
    some (.ok (version, .ofNat 16 (max - 8))) := by
  have hread := RawFrame.readFrame_encode crc (response_wellFormed max version n)
  have hframe : Frame.tryFrom (response max version n) =
      .ok (.queryVersionResponse (response max version n)) := rfl
  have hnumber : (Frame.queryVersionResponse (response max version n)).frameHeader.frameNumber =
      n := rfl
  obtain ⟨hversion, hsize⟩ := response_fields max version n
  simp only [finish, receiveFrameRaw_response, answer, hread, hframe, hnumber, acceptVersion,
    hversion, hsize, Option.bind_eq_bind, Option.bind_some, ne_eq, not_true_eq_false, if_false]
  rfl

end

/-! ## The server's side -/

section
variable {crc : Digest} {max : ℕ} {σ : Type} {H : ServerHandler σ} {version : U32} {n : U16}
  {s : Server σ max} {taken : List U8}

/-- The receiver has seen these bytes since the last request was complete. -/
structure Hears (crc : Digest) (taken : List U8) (s : Server σ max) : Prop where
  fits : TransferFits s
  agrees : Agrees s.receiver ((scanner crc max).run (.header []) taken)

theorem hears_new (crc : Digest) (max : ℕ) (handler : σ) : Hears crc [] (Server.new max handler) :=
  ⟨nofun, agrees_new max⟩

theorem pending_none {s : Server σ max} (h : TransferFits s) (hout : outstanding s = []) :
    s.pendingTransfer = none := by
  cases hp : s.pendingTransfer with
  | none => rfl
  | some t =>
    obtain ⟨hpos, hfit⟩ := h t hp
    have hl := congrArg List.length hout
    simp only [outstanding, hp, List.length_drop, s.frameBuffer.length_take hfit,
      List.length_nil] at hl
    omega

/-- With no byte to read a call can only go on with the pending response. -/
theorem process_quiet (hm : 14 ≤ max) (hx : max ≤ 65535) (h : Hears crc taken s)
    (answers : ReadStep × WriteStep) :
    ∃ p, s.process crc H answers [] = some p ∧ p.rest = [] ∧ Hears crc taken p.state ∧
      outstanding s = written p.event.toList ++ outstanding p.state ∧ log p.event.toList = [] ∧
      (∀ k, answers.2 = .accept k → written p.event.toList = (outstanding s).take k) := by
  obtain ⟨bytes, pending, hout, hfits, -, htake, hblocked | ⟨rfl, v, more, hv, hmore, hagree, hev,
    hp⟩⟩ := process_cases crc H (by omega) (Or.inl (by omega)) h.fits h.agrees answers []
  · refine ⟨_, hblocked.2, rfl, ⟨hfits, h.agrees⟩, ?_, rfl, ?_⟩
    · simpa [written] using hout
    · simpa [written] using htake
  · obtain ⟨rfl, hrest⟩ := List.append_eq_nil_iff.mp hmore.symm
    have hnone := accepted_of_silent hev
    have hidle : TransferFits { s with pendingTransfer := none, receiver := v.receiver } :=
      fun t ht => absurd ht.symm (Option.some_ne_none t)
    refine ⟨_, hp.trans (afterReceive_none hnone), hrest, ⟨hidle, hagree⟩, ?_, rfl, ?_⟩
    · simpa [written, outstanding] using hout
    · simpa [written] using htake

/-- The only answer to the request is the handler's version. -/
theorem version_of_handles (hv : ∀ s, (H.onQueryVersion s).1 = .ok version) {x : Exchange}
    {handler handler' : σ} (h : Handles H max (request n, x) handler handler') :
    x = .queryVersion (.ok version) := by
  obtain ⟨frame, hf, hans⟩ := h
  obtain rfl : frame = .queryVersionRequest (request n) := (Except.ok.inj hf).symm
  rcases hans with ⟨hcall, -⟩ | ⟨hrefuse, -⟩
  · cases x with
    | queryVersion result =>
      have hresult := hv handler
      rw [hcall.2] at hresult
      exact congrArg _ hresult
    | readMemory address buffer result => exact nomatch hcall
    | writeMemory address data result => exact nomatch hcall
    | run address result => exact nomatch hcall
    | refused e => exact hcall.elim
  · rcases Exchange.refuses_cases hrefuse with ⟨-, _, _, ⟨⟩, -⟩ | ⟨-, _, ⟨⟩⟩

theorem scan_request (crc : Digest) (n : U16) (hm : 14 ≤ max) :
    (scanner crc max).run (.header []) ((request n).encode crc) = .header [] ∧
      (scanner crc max).output (.header []) ((request n).encode crc) = [.ok (request n)] := by
  have hfit : (request n).header.payloadLength.toNat + 2 ≤ max := by
    have hzero : (request n).header.payloadLength.toNat = 0 := rfl
    omega
  obtain ⟨hrun, hout⟩ := scan_frame crc max idle_start (request_wellFormed n).decodable hfit
    (request_wellFormed n).length (expectedCrc crc (request n).header (request n).payload)
  rw [checkCrc, if_neg (not_not_intro rfl)] at hout
  exact ⟨hrun, hout⟩

/-- The whole response stands in the server's buffer. -/
theorem reply_request (hm : 14 ≤ max) (hx : max ≤ 65535)
    (hv : ∀ s, (H.onQueryVersion s).1 = .ok version) (s : Server σ max) {v : Received max}
    (hagree : Agrees v.receiver (.header []))
    (hev : frameEvent v.result = some (.ok (request n))) (bytes : List U8) :
    ∃ p, afterReceive crc H s bytes v = some p ∧ p.rest = v.rest ∧ Hears crc [] p.state ∧
      written p.event.toList = bytes ∧
      outstanding p.state = (response max version n).encode crc ∧
      log p.event.toList = [(request n, .queryVersion (.ok version))] := by
  have hframe : Frame.tryFrom (request n) = .ok (.queryVersionRequest (request n)) := rfl
  have hgap : ¬ GapRead max (.queryVersionRequest (request n)) := nofun
  obtain ⟨t, ht, hh, htransfer, hpre⟩ := reply_spec crc H hm hx hframe hgap s.handler s.frameBuffer
  have hexchange := version_of_handles hv hh
  have hbytes : replyBytes crc max (request n, t.exchange) =
      (response max version n).encode crc := by
    rw [hexchange]
    rfl
  rw [hbytes] at htransfer hpre
  rw [afterReceive_some (accepted_of_event hev hframe), ht, Option.map_some]
  refine ⟨_, rfl, rfl, ⟨?_, hagree⟩, by simp [written], ?_, by simp [log, hexchange]⟩
  · intro p hp
    cases hp
    rw [htransfer, response_length]
    simp only
    omega
  · simp only [outstanding, htransfer, Nat.zero_add, List.drop_zero]
    exact (List.prefix_iff_eq_take.mp hpre).symm

/-- The request is still incomplete, or it is answered. -/
theorem process_request (hm : 14 ≤ max) (hx : max ≤ 65535)
    (hv : ∀ s, (H.onQueryVersion s).1 = .ok version) (h : Hears crc taken s)
    (hsilent : outstanding s = []) {stream rest : List U8}
    (hsplit : (request n).encode crc = taken ++ (stream ++ rest)) (hne : stream ++ rest ≠ [])
    (answers : ReadStep × WriteStep) :
    ∃ p more, s.process crc H answers stream = some p ∧ stream = more ++ p.rest ∧
      written p.event.toList = [] ∧
      (∀ k, answers.1 = .deliver k → 0 < k → stream ≠ [] → more ≠ []) ∧
      (p.rest ++ rest ≠ [] ∧ Hears crc (taken ++ more) p.state ∧ outstanding p.state = [] ∧
          log p.event.toList = [] ∨
        p.rest = [] ∧ rest = [] ∧ Hears crc [] p.state ∧
          outstanding p.state = (response max version n).encode crc ∧
          log p.event.toList = [(request n, .queryVersion (.ok version))]) := by
  have hfit : (request n).header.payloadLength.toNat + 2 ≤ max := by
    have hzero : (request n).header.payloadLength.toNat = 0 := rfl
    omega
  obtain ⟨bytes, pending, hout, hfits, -, -, hblocked | ⟨rfl, v, more, hread, hmore, hagree, hev,
    hp⟩⟩ := process_cases crc H (by omega) (Or.inl (by omega)) h.fits h.agrees answers stream
  · -- nothing is pending, so nothing can block
    rw [hsilent] at hout
    have hnone := pending_none hfits (List.append_eq_nil_iff.mp hout.symm).2
    exact absurd hnone hblocked.1
  rw [hsilent] at hout
  obtain ⟨rfl, -⟩ := List.append_eq_nil_iff.mp hout.symm
  have htakes : ∀ k, answers.1 = .deliver k → 0 < k → stream ≠ [] → more ≠ [] := by
    intro k hk hpos hstream hnil
    rw [hk] at hread
    obtain ⟨l, hl, hrest⟩ := receive_drop crc (show 6 ≤ max by omega) h.agrees hread
    have hlen := congrArg List.length hmore
    have hpos' := List.length_pos_iff.mpr hstream
    rw [hnil, List.nil_append, hrest, List.length_drop] at hlen
    omega
  rw [hp]
  rw [hmore, List.append_assoc, ← List.append_assoc] at hsplit
  rw [← Transducer.run_append] at hagree
  by_cases hend : v.rest ++ rest = []
  · -- the last byte is read
    have hquiet := scan_part crc max (request_wellFormed n) hfit
      (hsplit.trans (List.append_assoc _ _ _)) (by rwa [← List.append_assoc, ← hmore])
    obtain ⟨hrun, hscan⟩ := scan_request crc n hm
    rw [hsplit, hend, List.append_nil] at hrun hscan
    rw [hrun] at hagree
    rw [Transducer.output_append, hquiet, List.nil_append] at hscan
    rw [hscan] at hev
    have hevent : frameEvent v.result = some (.ok (request n)) := by
      cases hr : frameEvent v.result with
      | none =>
        rw [hr] at hev
        exact nomatch hev
      | some e =>
        rw [hr] at hev
        exact congrArg some (List.head_eq_of_cons_eq hev)
    obtain ⟨hrest, hrest'⟩ := List.append_eq_nil_iff.mp hend
    obtain ⟨p, hafter, hrestp, hhears, hwritten, hresponse, hlog⟩ :=
      reply_request hm hx hv s hagree hevent []
    refine ⟨p, more, hafter, hrestp ▸ hmore, hwritten, htakes, Or.inr ?_⟩
    exact ⟨hrestp.trans hrest, hrest', hhears, hresponse, hlog⟩
  · have hquiet := scan_part crc max (request_wellFormed n) hfit hsplit hend
    rw [Transducer.output_append] at hquiet
    rw [(List.append_eq_nil_iff.mp hquiet).2] at hev
    have hnone := accepted_of_silent hev
    refine ⟨_, more, afterReceive_none hnone, hmore, rfl, htakes, Or.inl ?_⟩
    exact ⟨hend, ⟨nofun, hagree⟩, rfl, rfl⟩

end

/-! ## One call and its position -/

section
variable {crc : Digest} {max : ℕ} {σ : Type} {H : ServerHandler σ} {version : U32}
  {l : Link σ max}

/-- What `write_all` still has to hand over. -/
def unsent (l : Link σ max) : List U8 :=
  match l.phase with
  | .sending _ rest => rest
  | _ => []

/-- The call with number `n`: not made, its request under way, its response under way. -/
inductive Position (crc : Digest) (version : U32) (n : U16) (l : Link σ max) : Prop
  | idle (phase : l.phase = .idle) (next : l.client.nextFrameNumber = n)
      (hears : Hears crc [] l.server) (silent : outstanding l.server = [])
      (toServer : l.toServer = []) (toClient : l.toClient = [])
      (served : l.served.length = l.finished.length)
  | asking (taken : List U8)
      (phase : l.phase = .sending n (unsent l) ∧ unsent l ≠ [] ∨
        l.phase = .receiving n [] ∧ unsent l = [])
      (next : l.client.nextFrameNumber = n + 1)
      (hears : Hears crc taken l.server) (silent : outstanding l.server = [])
      (request : (request n).encode crc = taken ++ (l.toServer ++ unsent l))
      (underWay : l.toServer ++ unsent l ≠ []) (toClient : l.toClient = [])
      (served : l.served.length = l.finished.length)
  | answering (got : List U8) (phase : l.phase = .receiving n got)
      (next : l.client.nextFrameNumber = n + 1)
      (hears : Hears crc [] l.server) (toServer : l.toServer = [])
      (response : (response max version n).encode crc =
        got ++ (l.toClient ++ outstanding l.server))
      (underWay : l.toClient ++ outstanding l.server ≠ [])
      (served : l.served.length = l.finished.length + 1)

/-- Call `i` after the one with number `first`, as it should return. -/
def answered (crc : Digest) (max : ℕ) (version : U32) (first : U16) (i : ℕ) : Finished :=
  ⟨first + .ofNat 16 i, (response max version (first + .ofNat 16 i)).encode crc,
    .ok (version, .ofNat 16 (max - 8))⟩

/-- Request `i` with its exchange. -/
def query (version : U32) (first : U16) (i : ℕ) : RawFrame × Exchange :=
  (request (first + .ofNat 16 i), .queryVersion (.ok version))

/-- All calls so far have returned the version, one response each, and the current
call is where its messages are. -/
structure Matched (crc : Digest) (version : U32) (first : U16) (l : Link σ max) : Prop where
  finished : l.finished = (List.range l.finished.length).map (answered crc max version first)
  served : l.served = (List.range l.served.length).map (query version first)
  position : Position crc version (first + .ofNat 16 l.finished.length) l

theorem matched_new (crc : Digest) (max : ℕ) (version : U32) (c : Client) (handler : σ) :
    Matched crc version c.nextFrameNumber (Link.new max c handler) := by
  constructor
  · rfl
  · rfl
  · exact .idle rfl (BitVec.add_zero _).symm (hears_new crc max handler) rfl rfl rfl rfl

theorem Matched.served_length {first : U16} (h : Matched crc version first l) :
    l.finished.length ≤ l.served.length ∧ l.served.length ≤ l.finished.length + 1 := by
  cases h.position with
  | idle _ _ _ _ _ _ served => omega
  | asking _ _ _ _ _ _ _ _ served => omega
  | answering _ _ _ _ _ _ _ served => omega

/-! ## Work left and helpful actions -/

/-- Every byte counts once for each move it still has to make, and an unanswered
request for its response. -/
def work (l : Link σ max) : ℕ :=
  2 * (unsent l).length + l.toServer.length +
    (if l.served.length = l.finished.length then 29 else 0) +
    2 * (outstanding l.server).length + l.toClient.length

inductive Kind where
  | send
  | deliver
  | accept
  | receive
deriving DecidableEq, Repr

/-- An action that lets at least one byte through. -/
def Is : Kind → Action → Prop
  | .send, .send n | .receive, .receive n => 0 < n
  | .deliver, .process (.deliver n, _) => 0 < n
  | .accept, .process (_, .accept n) => 0 < n
  | _, _ => False

def Enabled : Kind → Link σ max → Prop
  | .send, l => unsent l ≠ []
  | .deliver, l => l.toServer ≠ []
  | .accept, l => outstanding l.server ≠ []
  | .receive, l => l.toClient ≠ []

theorem Position.enabled {n : U16} (h : Position crc version n l) (hbusy : l.phase ≠ .idle) :
    ∃ k, Enabled k l := by
  cases h with
  | idle phase => exact absurd phase hbusy
  | asking _ _ _ _ _ _ underWay =>
    by_cases h : l.toServer = []
    · rw [h, List.nil_append] at underWay
      exact ⟨.send, underWay⟩
    · exact ⟨.deliver, h⟩
  | answering _ _ _ _ _ _ underWay =>
    by_cases h : l.toClient = []
    · rw [h, List.nil_append] at underWay
      exact ⟨.accept, underWay⟩
    · exact ⟨.receive, h⟩

theorem Position.next_idle {n : U16} (h : Position crc version n l) (hidle : l.phase = .idle) :
    l.client.nextFrameNumber = n := by
  cases h with
  | idle _ next => exact next
  | asking _ phase =>
    rcases phase with ⟨phase, -⟩ | ⟨phase, -⟩ <;> exact nomatch hidle.symm.trans phase
  | answering _ phase => exact nomatch hidle.symm.trans phase

/-- A step within a call ends it, or leaves it as much or less to do. -/
def Advances (l l' : Link σ max) (a : Action) : Prop :=
  l.phase ≠ .idle → l'.finished.length = l.finished.length + 1 ∨
    l'.phase ≠ .idle ∧ l'.finished.length = l.finished.length ∧
      Harmless Is Enabled work l l' a

theorem Advances.same {a : Action} (h : ∀ k, Enabled k l → ¬ Is k a) : Advances l l a :=
  fun hbusy => Or.inr ⟨hbusy, rfl, .same h⟩

/-! ## One lemma for each action -/

variable {first : U16}

/-- The client has nothing else to do than the call it is told to make. -/
theorem call_idle (hidle : l.phase = .idle) : l.call crc = some { l with
    client := ⟨l.client.nextFrameNumber + 1⟩
    phase := .sending l.client.nextFrameNumber
      ((request l.client.nextFrameNumber).encode crc) } := by
  have hsent := sendFrameRaw_exact crc (request_wellFormed l.client.nextFrameNumber).length
  unfold Link.call
  rw [hidle]
  simp only [Client.advance, Option.bind_eq_bind, request] at hsent ⊢
  rw [hsent]
  rfl

theorem call_step (h : Matched crc version first l) :
    ∃ l', l.call crc = some l' ∧ Matched crc version first l' ∧ Advances l l' .call := by
  have hcall : ∀ k, Enabled k l → ¬ Is k .call := by
    intro k _ his
    cases k <;> exact his
  cases h.position with
  | idle phase next hears silent toServer toClient served =>
    refine ⟨_, call_idle phase, ⟨h.finished, h.served, ?_⟩, fun hbusy => absurd phase hbusy⟩
    rw [next]
    exact .asking [] (Or.inl ⟨rfl, List.cons_ne_nil _ _⟩) rfl hears silent
      (by rw [toServer]; rfl) (by rw [toServer]; exact List.cons_ne_nil _ _) toClient served
  | asking taken phase next hears silent hrequest underWay toClient served =>
    have hsame : l.call crc = some l := by
      unfold Link.call
      rcases phase with ⟨phase, -⟩ | ⟨phase, -⟩ <;> rw [phase]
    exact ⟨l, hsame, h, .same hcall⟩
  | answering got phase =>
    have hsame : l.call crc = some l := by
      unfold Link.call
      rw [phase]
    exact ⟨l, hsame, h, .same hcall⟩

/-- A write moves bytes from the client to the channel. -/
theorem send_sending {n : U16} {rest : List U8} (phase : l.phase = .sending n rest) (k : ℕ) :
    ∃ l', l.send k = l' ∧ l'.client = l.client ∧ l'.toServer = l.toServer ++ rest.take k ∧
      l'.server = l.server ∧ l'.toClient = l.toClient ∧ l'.finished = l.finished ∧
      l'.served = l.served ∧ unsent l' = rest.drop k ∧
      (l'.phase = .sending n (unsent l') ∧ unsent l' ≠ [] ∨
        l'.phase = .receiving n [] ∧ unsent l' = []) := by
  have hsend : l.send k = { l with
      toServer := l.toServer ++ rest.take k
      phase := if rest.drop k = [] then .receiving n [] else .sending n (rest.drop k) } := by
    rw [Link.send, phase]
  by_cases hend : rest.drop k = []
  · rw [if_pos hend] at hsend
    exact ⟨_, hsend, rfl, rfl, rfl, rfl, rfl, rfl, hend.symm, Or.inr ⟨rfl, rfl⟩⟩
  · rw [if_neg hend] at hsend
    exact ⟨_, hsend, rfl, rfl, rfl, rfl, rfl, rfl, rfl, Or.inl ⟨rfl, hend⟩⟩

/-- Without a byte to send nothing happens. -/
theorem Advances.send {k : ℕ} (hnone : unsent l = [] ∨ k = 0) : Advances l l (.send k) := by
  refine .same ?_
  intro kind hk his
  cases kind with
  | send =>
    rcases hnone with hnil | rfl
    · exact hk hnil
    · exact Nat.lt_irrefl 0 his
  | deliver => exact his
  | accept => exact his
  | receive => exact his

/-- Without a byte to receive nothing happens. -/
theorem Advances.receive {k : ℕ} (hnone : l.toClient = [] ∨ k = 0) :
    Advances l l (.receive k) := by
  refine .same ?_
  intro kind hk his
  cases kind with
  | receive =>
    rcases hnone with hnil | rfl
    · exact hk hnil
    · exact Nat.lt_irrefl 0 his
  | deliver => exact his
  | accept => exact his
  | send => exact his

theorem send_step (h : Matched crc version first l) (k : ℕ) :
    Matched crc version first (l.send k) ∧ Advances l (l.send k) (.send k) := by
  have hsame : unsent l = [] ∨ k = 0 → l.send k = l →
      Matched crc version first (l.send k) ∧ Advances l (l.send k) (.send k) := by
    intro hnone heq
    rw [heq]
    exact ⟨h, .send hnone⟩
  cases h.position with
  | idle phase => exact hsame (Or.inl (by rw [unsent, phase])) (by rw [Link.send, phase])
  | answering got phase => exact hsame (Or.inl (by rw [unsent, phase])) (by rw [Link.send, phase])
  | asking taken phase next hears silent hrequest underWay toClient served =>
    rcases phase with ⟨phase, hne⟩ | ⟨phase, hnil⟩
    · rcases Nat.eq_zero_or_pos k with rfl | hpos
      · refine hsame (Or.inr rfl) ?_
        simp only [Link.send, phase, List.take_zero, List.append_nil, List.drop_zero, if_neg hne]
        rw [← phase]
      obtain ⟨l', hsend, hclient, hserver', hserver, hclient', hfinished, hserved, hunsent,
        hphase⟩ := send_sending phase k
      have hmoved : l'.toServer ++ unsent l' = l.toServer ++ unsent l := by
        rw [hserver', hunsent, List.append_assoc, List.take_append_drop]
      have hbusy : l'.phase ≠ .idle := by
        rcases hphase with ⟨hphase, -⟩ | ⟨hphase, -⟩ <;> rw [hphase] <;> nofun
      rw [hsend]
      constructor
      · constructor
        · rw [hfinished]
          exact h.finished
        · rw [hserved]
          exact h.served
        · rw [hfinished]
          exact .asking taken hphase (by rw [hclient, next]) (hserver ▸ hears)
            (hserver ▸ silent) (by rw [hmoved, hrequest]) (by rwa [hmoved]) (hclient' ▸ toClient)
            (by rw [hserved, hfinished, served])
      · have hlen := List.length_pos_iff.mpr hne
        refine fun _ => Or.inr ⟨hbusy, by rw [hfinished], .less ?_⟩
        simp only [work, hunsent, hserver', hserver, hclient', hfinished, hserved,
          List.length_drop, List.length_append, List.length_take]
        omega
    · exact hsame (Or.inl hnil) (by rw [Link.send, phase])

theorem Matched.return {n : U16} (h : Matched crc version first l)
    (hn : first + .ofNat 16 l.finished.length = n) :
    l.finished ++ [⟨n, (response max version n).encode crc, .ok (version, .ofNat 16 (max - 8))⟩] =
      (List.range (l.finished.length + 1)).map (answered crc max version first) := by
  rw [List.range_succ, List.map_append, ← h.finished, ← hn]
  rfl

theorem number_succ (k : ℕ) :
    first + BitVec.ofNat 16 k + 1 = first + BitVec.ofNat 16 (k + 1) := by
  rw [BitVec.add_assoc, BitVec.ofNat_add]
  rfl

/-- The last bytes of a response end the call. -/
theorem receive_last {n : U16} {got : List U8} {k : ℕ} (phase : l.phase = .receiving n got)
    (hclient : l.toClient.drop (min k (missing got)) = [])
    (hsplit : (response max version n).encode crc =
      got ++ l.toClient.take (min k (missing got))) :
    l.receive crc k = some { l with
      toClient := []
      phase := .idle
      finished := l.finished ++ [⟨n, (response max version n).encode crc,
        .ok (version, .ofNat 16 (max - 8))⟩] } := by
  have hdone := (missing_part (hsplit.trans (List.append_nil _).symm)).mpr rfl
  rw [← hsplit] at hdone
  unfold Link.receive
  rw [phase]
  simp only [← hsplit, hdone, if_true, finish_response, hclient, Option.bind_eq_bind,
    Option.bind_some]
  rfl

/-- Bytes that leave some missing are kept. -/
theorem receive_part {n : U16} {got : List U8} {k : ℕ} (phase : l.phase = .receiving n got)
    (hmissing : missing (got ++ l.toClient.take (min k (missing got))) ≠ 0) :
    l.receive crc k = some { l with
      toClient := l.toClient.drop (min k (missing got))
      phase := .receiving n (got ++ l.toClient.take (min k (missing got))) } := by
  unfold Link.receive
  rw [phase]
  simp only [if_neg hmissing]
  rfl

/-- A read that brings no byte changes nothing. -/
theorem receive_nothing {n : U16} {got : List U8} {k : ℕ} (phase : l.phase = .receiving n got)
    (hmissing : missing got ≠ 0) (hnone : l.toClient = [] ∨ k = 0) :
    l.receive crc k = some l := by
  have hcount : l.toClient.drop (min k (missing got)) = l.toClient ∧
      l.toClient.take (min k (missing got)) = [] := by
    rcases hnone with hnil | rfl
    · simp [hnil]
    · simp
  have hgot : got ++ l.toClient.take (min k (missing got)) = got := by
    rw [hcount.2, List.append_nil]
  rw [receive_part phase (by rwa [hgot]), hgot, hcount.1, ← phase]

theorem receive_step (h : Matched crc version first l) (k : ℕ) :
    ∃ l', l.receive crc k = some l' ∧ Matched crc version first l' ∧
      Advances l l' (.receive k) := by
  cases h.position with
  | idle phase next hears silent toServer toClient served =>
    exact ⟨l, by rw [Link.receive, phase], h, .receive (Or.inl toClient)⟩
  | asking taken phase next hears silent hrequest underWay toClient served =>
    refine ⟨l, ?_, h, .receive (Or.inl toClient)⟩
    rcases phase with ⟨phase, -⟩ | ⟨phase, -⟩
    · rw [Link.receive, phase]
    · exact receive_nothing phase (by decide) (Or.inl toClient)
  | answering got phase next hears toServer hresponse underWay served =>
    generalize hn : first + .ofNat 16 l.finished.length = n at phase next hresponse
    have hmissing : missing got ≠ 0 := mt (missing_part hresponse).mp underWay
    by_cases hnone : l.toClient = [] ∨ k = 0
    · exact ⟨l, receive_nothing phase hmissing hnone, h, .receive hnone⟩
    have hsplit : (response max version n).encode crc =
        (got ++ l.toClient.take (min k (missing got))) ++
          (l.toClient.drop (min k (missing got)) ++ outstanding l.server) := by
      rw [hresponse, List.append_assoc, ← List.append_assoc (l.toClient.take _),
        List.take_append_drop]
    by_cases hend : l.toClient.drop (min k (missing got)) ++ outstanding l.server = []
    · rw [hend, List.append_nil] at hsplit
      obtain ⟨hclient, hserver⟩ := List.append_eq_nil_iff.mp hend
      refine ⟨_, receive_last phase hclient hsplit, ?_, fun _ => Or.inl (by simp)⟩
      constructor
      · rw [h.return hn]
        simp
      · exact h.served
      · refine .idle rfl ?_ hears hserver toServer rfl (by simp [served])
        rw [next, ← hn, number_succ]
        simp
    · have hleft := mt (missing_part hsplit).mp hend
      refine ⟨_, receive_part phase hleft, ⟨h.finished, h.served, ?_⟩,
        fun _ => Or.inr ⟨nofun, rfl, .less ?_⟩⟩
      · exact .answering _ (by rw [hn]) (by rw [hn, next]) hears toServer (by rw [hn, hsplit]) hend
          served
      · obtain ⟨hclient, hk⟩ := not_or.mp hnone
        have hlen := List.length_pos_iff.mpr hclient
        have hpos := Nat.pos_of_ne_zero hmissing
        simp only [work, unsent, phase, List.length_drop]
        omega

/-- The link after a call of `process`. -/
def after (l : Link σ max) (p : Poll (Server σ max) U8 Turn) : Link σ max :=
  { l with
    server := p.state
    toServer := p.rest
    toClient := l.toClient ++ written p.event.toList
    served := l.served ++ log p.event.toList }

theorem process_eq {answers : ReadStep × WriteStep} {p : Poll (Server σ max) U8 Turn}
    (hp : l.server.process crc H answers l.toServer = some p) :
    l.process crc H answers = some (after l p) := by
  simp only [Link.process, hp, Option.bind_eq_bind, Option.bind_some]
  rfl

/-- A call that finds nothing to read sends what it can of the response. -/
theorem quiet_advances (answers : ReadStep × WriteStep) {p : Poll (Server σ max) U8 Turn}
    (hserver : l.toServer = []) (hrest : p.rest = []) (hunsent : unsent l = [])
    (hout : outstanding l.server = written p.event.toList ++ outstanding p.state)
    (hlog : log p.event.toList = [])
    (htake : ∀ k, answers.2 = .accept k → written p.event.toList = (outstanding l.server).take k) :
    Advances l (after l p) (.process answers) := by
  intro hbusy
  have hlen := congrArg List.length hout
  rw [List.length_append] at hlen
  refine Or.inr ⟨hbusy, rfl, ⟨?_, ?_⟩⟩
  · simp only [work, after, hlog, hrest, hserver, List.append_nil, List.length_append]
    simp only [unsent]
    omega
  · intro hwork kind hk
    have hnil : written p.event.toList = [] := by
      simp only [work, after, hlog, hrest, hserver, List.append_nil, List.length_append] at hwork
      simp only [unsent] at hwork
      exact List.eq_nil_of_length_eq_zero (by omega)
    cases kind with
    | send => exact absurd hunsent hk
    | deliver => exact absurd hserver hk
    | receive =>
      refine ⟨?_, id⟩
      simp only [Enabled, after, hnil, List.append_nil]
      exact hk
    | accept =>
      rw [hnil, List.nil_append] at hout
      refine ⟨?_, ?_⟩
      · simp only [Enabled, after, ← hout]
        exact hk
      · intro his
        obtain ⟨answer, writeAnswer⟩ := answers
        cases writeAnswer with
        | fail => exact his
        | accept k =>
          have hzero := htake k rfl
          rw [hnil] at hzero
          rcases List.take_eq_nil_iff.mp hzero.symm with hk' | hnone
          · exact absurd hk' (Nat.ne_of_gt his)
          · exact hk hnone

/-- A call that reads a part of the request, possibly nothing. -/
theorem partial_advances (answers : ReadStep × WriteStep) {p : Poll (Server σ max) U8 Turn}
    {more : List U8} (hmore : l.toServer = more ++ p.rest) (hsilent : outstanding l.server = [])
    (hclient : l.toClient = []) (hwritten : written p.event.toList = [])
    (hsilent' : outstanding p.state = []) (hlog : log p.event.toList = [])
    (htakes : ∀ k, answers.1 = .deliver k → 0 < k → l.toServer ≠ [] → more ≠ []) :
    Advances l (after l p) (.process answers) := by
  intro hbusy
  have hlen := congrArg List.length hmore
  rw [List.length_append] at hlen
  refine Or.inr ⟨hbusy, rfl, ⟨?_, ?_⟩⟩
  · simp only [work, after, hlog, hsilent, hsilent', hwritten, List.append_nil]
    simp only [unsent]
    omega
  · intro hwork kind hk
    have hnil : more = [] := by
      simp only [work, after, hlog, hsilent, hsilent', hwritten, List.append_nil] at hwork
      simp only [unsent] at hwork
      exact List.eq_nil_of_length_eq_zero (by omega)
    cases kind with
    | send => exact ⟨hk, id⟩
    | accept => exact absurd hsilent hk
    | receive => exact absurd hclient hk
    | deliver =>
      refine ⟨?_, ?_⟩
      · rw [hnil, List.nil_append] at hmore
        simp only [Enabled, after, ← hmore]
        exact hk
      · intro his
        obtain ⟨answer, writeAnswer⟩ := answers
        cases answer with
        | fail => exact his
        | deliver k => exact htakes k rfl his hk hnil

theorem process_step (hm : 14 ≤ max) (hx : max ≤ 65535)
    (hv : ∀ s, (H.onQueryVersion s).1 = .ok version) (h : Matched crc version first l)
    (answers : ReadStep × WriteStep) :
    ∃ l', l.process crc H answers = some l' ∧ Matched crc version first l' ∧
      Advances l l' (.process answers) := by
  cases h.position with
  | idle phase next hears silent toServer toClient served =>
    obtain ⟨p, hp, hrest, hhears, hout, hlog, htake⟩ := process_quiet (H := H) hm hx hears answers
    rw [← toServer] at hp
    rw [silent] at hout
    obtain ⟨hwritten, hsilent⟩ := List.append_eq_nil_iff.mp hout.symm
    refine ⟨after l p, process_eq hp, ⟨h.finished, ?_, ?_⟩, fun hbusy => absurd phase hbusy⟩
    · simpa [after, hlog] using h.served
    · exact .idle phase next hhears hsilent hrest (by simp [after, toClient, hwritten])
        (by simpa [after, hlog] using served)
  | answering got phase next hears toServer hresponse underWay served =>
    obtain ⟨p, hp, hrest, hhears, hout, hlog, htake⟩ := process_quiet (H := H) hm hx hears answers
    rw [← toServer] at hp
    have hmoved : (after l p).toClient ++ outstanding (after l p).server =
        l.toClient ++ outstanding l.server := by
      simp only [after, hout, List.append_assoc]
    refine ⟨after l p, process_eq hp, ⟨h.finished, ?_, ?_⟩, ?_⟩
    · simpa [after, hlog] using h.served
    · exact .answering got phase next hhears hrest (by rw [hmoved]; exact hresponse)
        (by rw [hmoved]; exact underWay) (by simpa [after, hlog] using served)
    · exact quiet_advances answers toServer hrest (by rw [unsent, phase]) hout hlog htake
  | asking taken phase next hears silent hrequest underWay toClient served =>
    obtain ⟨p, more, hp, hmore, hwritten, htakes, hpart | hwhole⟩ :=
      process_request hm hx hv hears silent hrequest underWay answers
    · obtain ⟨hleft, hhears, hsilent, hlog⟩ := hpart
      refine ⟨after l p, process_eq hp, ⟨h.finished, ?_, ?_⟩, ?_⟩
      · simpa [after, hlog] using h.served
      · refine .asking (taken ++ more) phase next hhears hsilent ?_ hleft ?_ ?_
        · refine hrequest.trans ?_
          rw [hmore, List.append_assoc, List.append_assoc]
          rfl
        · simp [after, toClient, hwritten]
        · simpa [after, hlog] using served
      · exact partial_advances answers hmore silent toClient hwritten hsilent hlog htakes
    · obtain ⟨hrest, hall, hhears, hresponse, hlog⟩ := hwhole
      have hreceiving : l.phase = .receiving (first + .ofNat 16 l.finished.length) [] := by
        rcases phase with ⟨-, hne⟩ | ⟨phase, -⟩
        · exact absurd hall hne
        · exact phase
      have hclient : (after l p).toClient = [] := by
        simp [after, toClient, hwritten]
      refine ⟨after l p, process_eq hp, ⟨h.finished, ?_, ?_⟩, ?_⟩
      · have hnext := h.served
        rw [served] at hnext
        simp only [after, hlog, List.length_append, List.length_singleton, served,
          List.range_succ, List.map_append]
        rw [← hnext]
        rfl
      · refine .answering [] hreceiving next hhears hrest ?_ ?_ (by simp [after, hlog, served])
        · rw [hclient]
          exact hresponse.symm
        · rw [hclient]
          simp only [after, hresponse]
          exact List.cons_ne_nil _ _
      · refine fun hbusy => Or.inr ⟨hbusy, rfl, .less ?_⟩
        have hpending : (outstanding (after l p).server).length = 14 :=
          (congrArg List.length hresponse).trans response_length
        have hserved : (after l p).served.length = l.served.length + 1 := by
          simp [after, hlog]
        have hunsent : unsent (after l p) = [] := hall
        have hserver : (after l p).toServer = [] := hrest
        simp only [work, hpending, hunsent, hserver, hclient, hserved]
        rw [if_neg (by simp [after, served]), if_pos served]
        simp only [List.length_nil]
        omega

theorem step_spec (hm : 14 ≤ max) (hx : max ≤ 65535)
    (hv : ∀ s, (H.onQueryVersion s).1 = .ok version) (h : Matched crc version first l)
    (a : Action) :
    ∃ l', l.step crc H a = some l' ∧ Matched crc version first l' ∧ Advances l l' a := by
  cases a with
  | call => exact call_step h
  | send k => exact ⟨_, rfl, send_step h k⟩
  | receive k => exact receive_step h k
  | process answers => exact process_step hm hx hv h answers

theorem run_spec (crc : Digest) (H : ServerHandler σ) (hm : 14 ≤ max) (hx : max ≤ 65535)
    (hv : ∀ s, (H.onQueryVersion s).1 = .ok version) (schedule : ℕ → Action)
    (h : Matched crc version first l) (t : ℕ) :
    ∃ l', l.run crc H schedule t = some l' ∧ Matched crc version first l' := by
  induction t with
  | zero => exact ⟨l, rfl, h⟩
  | succ t ih =>
    obtain ⟨l', hl', h'⟩ := ih
    obtain ⟨l'', hstep, h'', -⟩ := step_spec hm hx hv h' (schedule t)
    refine ⟨l'', ?_, h''⟩
    rw [Link.run, hl', Option.bind_some, hstep]

end

/-! ## Calls keep returning -/

section
variable {crc : Digest} {max : ℕ} {σ : Type} {H : ServerHandler σ} {l : Link σ max}
  {schedule : ℕ → Action} {run : ℕ → Link σ max}

/-- What has returned stays. -/
theorem step_finished {a : Action} {l' : Link σ max} (h : l.step crc H a = some l') :
    l.finished <+: l'.finished := by
  cases a with
  | call =>
    simp only [Link.step, Link.call] at h
    split at h
    · obtain ⟨bytes, -, h⟩ := Option.bind_eq_some_iff.mp h
      cases h
      exact List.prefix_refl _
    · cases h
      exact List.prefix_refl _
  | send k =>
    obtain rfl : l.send k = l' := Option.some.inj h
    rw [Link.send]
    split <;> exact List.prefix_refl _
  | receive k =>
    simp only [Link.step, Link.receive] at h
    split at h
    · split_ifs at h with hdone
      · obtain ⟨result, -, h⟩ := Option.bind_eq_some_iff.mp h
        cases h
        exact List.prefix_append _ _
      · cases h
        exact List.prefix_refl _
    · cases h
      exact List.prefix_refl _
  | process answers =>
    obtain ⟨p, -, h⟩ := Option.bind_eq_some_iff.mp h
    cases h
    exact List.prefix_refl _

theorem run_next (hrun : ∀ t, l.run crc H schedule t = some (run t)) (t : ℕ) :
    (run t).step crc H (schedule t) = some (run (t + 1)) := by
  have hnext := hrun (t + 1)
  rwa [Link.run, hrun t, Option.bind_some] at hnext

theorem run_finished_mono (hrun : ∀ t, l.run crc H schedule t = some (run t)) {t u : ℕ}
    (h : t ≤ u) : (run t).finished <+: (run u).finished := by
  induction h with
  | refl => exact List.prefix_refl _
  | step _ ih => exact ih.trans (step_finished (run_next hrun _))

/-- A call that comes up finds one under way, which returns, or starts the next one. -/
theorem finished_grows (hrun : ∀ t, l.run crc H schedule t = some (run t))
    (hreturns : ∀ t, (run t).phase ≠ .idle →
      ∃ u, t < u ∧ (run u).finished.length = (run t).finished.length + 1)
    (hcalls : ∀ t, ∃ u, t ≤ u ∧ schedule u = .call) (k : ℕ) :
    ∃ t, k ≤ (run t).finished.length := by
  induction k with
  | zero => exact ⟨0, Nat.zero_le _⟩
  | succ k ih =>
    obtain ⟨t, ht⟩ := ih
    obtain ⟨u, hu, hcall⟩ := hcalls t
    have hmono := (run_finished_mono hrun hu).length_le
    by_cases hidle : (run u).phase = .idle
    · have hstep := run_next hrun u
      rw [hcall, Link.step, call_idle hidle] at hstep
      have hstarted := Option.some.inj hstep
      obtain ⟨v, -, hv⟩ := hreturns (u + 1) (by rw [← hstarted]; nofun)
      have hsame : (run (u + 1)).finished = (run u).finished := by rw [← hstarted]
      rw [hsame] at hv
      exact ⟨v, by omega⟩
    · obtain ⟨v, -, hv⟩ := hreturns u hidle
      exact ⟨v, by omega⟩

end

/-- **Every query is answered.** Whatever moves in whatever order, no program stops;
the calls that have returned returned the version and the payload size, each from the
response to its own number, and the server has answered their requests and at most one
more. An idle client that is told to call sends the request of the next number. If every kind
of move comes up again and again, every call returns, and if calls come up again and again too,
there is no end of them. -/
theorem every_query_answered (crc : Digest) {max : ℕ} (hm : 14 ≤ max) (hx : max ≤ 65535) {σ : Type}
    (H : ServerHandler σ) {version : U32} (hv : ∀ s, (H.onQueryVersion s).1 = .ok version)
    (handler : σ) (c : Client) (schedule : ℕ → Action) :
    ∃ run : ℕ → Link σ max,
      (∀ t, (Link.new max c handler).run crc H schedule t = some (run t)) ∧
      (∀ t, (run t).finished = (List.range (run t).finished.length).map
          (answered crc max version c.nextFrameNumber) ∧
        (run t).served = (List.range (run t).served.length).map
          (query version c.nextFrameNumber) ∧
        (run t).finished.length ≤ (run t).served.length ∧
        (run t).served.length ≤ (run t).finished.length + 1) ∧
      (∀ t, (run t).phase = .idle → schedule t = .call →
        let n := c.nextFrameNumber + .ofNat 16 (run t).finished.length
        (run (t + 1)).phase = .sending n ((request n).encode crc)) ∧
      (Fair Is schedule → (∀ t, (run t).phase ≠ .idle →
          ∃ u, t < u ∧ (run u).finished.length = (run t).finished.length + 1) ∧
        ((∀ t, ∃ u, t ≤ u ∧ schedule u = .call) →
          ∀ k, ∃ t, k ≤ (run t).finished.length)) := by
  have hspec := run_spec crc H hm hx hv schedule
    (matched_new crc max version c handler)
  choose run hrun hmatched using hspec
  refine ⟨run, hrun, ?_, ?_, fun hfair => ?_⟩
  · intro t
    exact ⟨(hmatched t).finished, (hmatched t).served, (hmatched t).served_length⟩
  · intro t hidle hcall n
    have hstep := run_next hrun t
    rw [hcall, Link.step, call_idle hidle] at hstep
    rw [← Option.some.inj hstep, (hmatched t).position.next_idle hidle]
  have hreturns : ∀ t, (run t).phase ≠ .idle →
      ∃ u, t < u ∧ (run u).finished.length = (run t).finished.length + 1 := by
    intro t hbusy
    have hstep : ∀ u, (run u).phase ≠ .idle ∧ (run u).finished.length = (run t).finished.length →
        (run (u + 1)).finished.length = (run t).finished.length + 1 ∨
        ((run (u + 1)).phase ≠ .idle ∧
          (run (u + 1)).finished.length = (run t).finished.length) ∧
          Harmless Is Enabled work (run u) (run (u + 1)) (schedule u) := by
      intro u hu
      obtain ⟨l', hl', -, hadvances⟩ := step_spec hm hx hv (hmatched u) (schedule u)
      obtain rfl := Option.some.inj (hl'.symm.trans (run_next hrun u))
      rcases hadvances hu.1 with hdone | ⟨hbusy', hsame, hharmless⟩
      · exact Or.inl (by rw [hdone, hu.2])
      · exact Or.inr ⟨⟨hbusy', by rw [hsame, hu.2]⟩, hharmless⟩
    exact hfair.reaches (fun u hu => (hmatched u).position.enabled hu.1) hstep ⟨hbusy, rfl⟩
  exact ⟨hreturns, finished_grows hrun hreturns⟩

/-- Every party in turn, a few bytes at a time. -/
def roundRobin (t : ℕ) : Action :=
  match t % 4 with
  | 0 => .call
  | 1 => .send 3
  | 2 => .process (.deliver 5, .accept 2)
  | _ => .receive 1

theorem roundRobin_fair : Fair Is roundRobin := by
  intro k t
  have h1 : (4 * t + 1) % 4 = 1 := by omega
  have h2 : (4 * t + 2) % 4 = 2 := by omega
  have h3 : (4 * t + 3) % 4 = 3 := by omega
  cases k with
  | send => exact ⟨4 * t + 1, by omega, by simp [roundRobin, h1, Is]⟩
  | deliver => exact ⟨4 * t + 2, by omega, by simp [roundRobin, h2, Is]⟩
  | accept => exact ⟨4 * t + 2, by omega, by simp [roundRobin, h2, Is]⟩
  | receive => exact ⟨4 * t + 3, by omega, by simp [roundRobin, h3, Is]⟩

theorem roundRobin_calls (t : ℕ) : ∃ u, t ≤ u ∧ roundRobin u = .call := by
  have h0 : 4 * t % 4 = 0 := by omega
  exact ⟨4 * t, by omega, by simp [roundRobin, h0]⟩

theorem every_query_answered_wrapping :
    ∃ run : ℕ → Link Unit 128,
      (∀ t, (Link.new 128 ⟨65535⟩ ()).run (ReflectedCrc.checksum ReflectedCrc.usb) zeroHandler
        roundRobin t = some (run t)) ∧
      (∀ t, (run t).finished = (List.range (run t).finished.length).map
        (answered (ReflectedCrc.checksum ReflectedCrc.usb) 128 1 65535)) ∧
      ∃ t, 70000 ≤ (run t).finished.length := by
  obtain ⟨run, hrun, hmatched, -, hlive⟩ := every_query_answered
    (ReflectedCrc.checksum ReflectedCrc.usb) (show 14 ≤ 128 by decide) (by decide) zeroHandler
    (fun _ => rfl) () ⟨65535⟩ roundRobin
  exact ⟨run, hrun, fun t => (hmatched t).1, (hlive roundRobin_fair).2 roundRobin_calls 70000⟩

end SeccampRiscvCpu.FwtoolLink
