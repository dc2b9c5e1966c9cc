import BitprimNetwork.Wire

/-!
# The read cycle

`proxy::read_heading`, `handle_read_heading`, `read_payload` and `handle_read_payload` (spec §4.1.1) as a
sequential state machine: the socket completes the read in flight, the bytes land in the heading or the payload
buffer, and the handler either issues the next read or stops the channel.  The negotiated version may be set by
any thread between two handlers.  `readSpec` states what the cycle is for on the byte stream itself: consecutive
frames, each checked and loaded in turn, up to the first one that fails a check.

The cycle refines `readSpec` (`Reader.run_refines_readSpec`): after any sequence of completions and version
changes the loads made and the stop code are those `readSpec` gives for the stream, however the transport cut it
into segments, each load made at the version negotiated when its payload completed, and the payload buffer has
kept the capacity it was built with.  The proof rests on one invariant, `Reader.Tracks`, which reads the state
back as the part of the stream still to be framed.  As `readSpec` never ends in success, the cycle calls `stop`
once, when it stops, and with an error code (`Reader.run_stops_error`).
-/

namespace BitprimNetwork

/-- What the read cycle uses of libbitcoin's message library, which lies outside this repository. -/
structure Codec (Message : Type) where
  /-- `heading::is_valid`. -/
  isValid : Heading → Bool
  /-- `heading::type()`: the message type its command names. -/
  messageType : Heading → Nat
  /-- `heading::maximum_payload_size` at a protocol version. -/
  maximumPayloadSize : UInt32 → Nat
  /-- `bitcoin_checksum`: the first four bytes of the double SHA-256 of the payload. -/
  checksum : List UInt8 → UInt32
  /-- The message parser on a payload stream, at a type and a version: the message or the code of the failure,
  and the number of bytes it read. -/
  parse : Nat → UInt32 → List UInt8 → Except Code Message × Nat
  /-- A failure's code is an error. -/
  failure_ne_success : ∀ type version payload ec read, parse type version payload = (.error ec, read) → ec ≠ .success

/-- A call of `message_subscriber_.load`: the type, the version and the payload it was given. -/
structure Load where
  type : Nat
  version : UInt32
  payload : List UInt8
  deriving DecidableEq, Repr

variable {Message : Type} (codec : Codec Message)

/-- Modelled from the spec: `message_subscriber::load`, whose source (utility/message_subscriber.hpp) is not
under src/.  It parses the payload with the codec (§6) and, when that succeeds, notifies the subscribers of the
type (§4.1.1 S4, and the comment before its call in `handle_read_payload`).  It returns the code, the message it
delivered, and whether the parser read the stream to its end (the caller's `istream.peek() == eof`). -/
def load (type : Nat) (version : UInt32) (payload : List UInt8) : Code × Option Message × Bool :=
  match codec.parse type version payload with
  | (.ok message, read) => (.success, some message, payload.length ≤ read)
  | (.error ec, read) => (ec, none, payload.length ≤ read)

/-- The read in flight on the socket. -/
inductive Pending where
  | heading
  | payload (head : Heading)
  deriving DecidableEq, Repr

/-- What a handler does last: nothing, issue a read, or call `stop` with a code. -/
inductive Next where
  | idle
  | read (pending : Pending)
  | stop (ec : Code)
  deriving DecidableEq, Repr

/-- The proxy as its read cycle sees it: its constant magic, `stopped_`, `version_` and the two buffers; the read
in flight and the segments the transport has still to deliver; and what the cycle did outside the proxy, its
`load` calls, the messages they delivered and its `stop` calls. -/
structure Reader (Message : Type) where
  protocolMagic : UInt32
  stopped : Bool
  version : UInt32
  headingBuffer : List UInt8
  payloadBuffer : Chunk
  pending : Option Pending
  segments : Segments
  loads : List Load
  delivered : List (Nat × Message)
  stops : List Code

namespace Reader

/-- `proxy::read_heading`. -/
def readHeading (s : Reader Message) : Next :=
  if s.stopped then .idle else .read .heading

/-- `proxy::read_payload`: size the payload buffer to the heading's payload and read into it. -/
def readPayload (head : Heading) (s : Reader Message) : Reader Message × Next :=
  if s.stopped then (s, .idle)
  else ({ s with payloadBuffer := s.payloadBuffer.resize head.payloadSize.toNat }, .read (.payload head))

/-- `proxy::handle_read_heading`, on the completion code of the heading read (`none` for success). -/
def handleReadHeading (ec : Option TransportError) (s : Reader Message) : Reader Message × Next :=
  if s.stopped then (s, .idle)
  else if ec.isSome then (s, .stop (boostToErrorCode ec))
  else
    let head := Heading.fromData s.headingBuffer
    if !codec.isValid head then (s, .stop .badStream)
    else if head.magic != s.protocolMagic then (s, .stop .badStream)
    else if head.payloadSize.toNat > s.payloadBuffer.capacity then (s, .stop .badStream)
    else readPayload head s

/-- `proxy::handle_read_payload`, on the completion code of the payload read (`none` for success). -/
def handleReadPayload (ec : Option TransportError) (head : Heading) (s : Reader Message) :
    Reader Message × Next :=
  if s.stopped then (s, .idle)
  else if ec.isSome then (s, .stop (boostToErrorCode ec))
  else if head.checksum != codec.checksum s.payloadBuffer.data then (s, .stop .badStream)
  else
    let type := codec.messageType head
    let (code, message, consumed) := load codec type s.version s.payloadBuffer.data
    let s' := { s with
      loads := s.loads ++ [⟨type, s.version, s.payloadBuffer.data⟩]
      delivered := s.delivered ++ (message.map fun m => (type, m)).toList }
    if code != .success then (s', .stop code)
    else if !consumed then (s', .stop .badStream)
    else (s', readHeading s')

/-- The socket completes the read in flight: the bytes land in its buffer and its handler runs. -/
def complete (s : Reader Message) : Reader Message × Next :=
  match s.pending with
  | none => (s, .idle)
  | some .heading =>
    match asyncRead s.headingBuffer.length s.segments with
    | some (bytes, rest) =>
      handleReadHeading codec none { s with pending := none, headingBuffer := bytes, segments := rest }
    | none => handleReadHeading codec (some .eof) { s with pending := none, segments := [] }
  | some (.payload head) =>
    match asyncRead head.payloadSize.toNat s.segments with
    | some (bytes, rest) =>
      handleReadPayload codec none head
        { s with pending := none, payloadBuffer := s.payloadBuffer.fill bytes, segments := rest }
    | none => handleReadPayload codec (some .eof) head { s with pending := none, segments := [] }

/-- A handler's last action: put a read in flight, or `stop`, which sets `stopped_` (the rest of `proxy::stop`
acts on the subscribers and the socket, outside the read cycle). -/
def perform : Reader Message × Next → Reader Message
  | (s, .idle) => s
  | (s, .read p) => { s with pending := some p }
  | (s, .stop ec) => { s with stopped := true, stops := s.stops ++ [ec] }

@[simp] theorem perform_idle (s : Reader Message) : perform (s, .idle) = s := rfl

@[simp] theorem perform_read (s : Reader Message) (p : Pending) :
    perform (s, .read p) = { s with pending := some p } := rfl

@[simp] theorem perform_stop (s : Reader Message) (ec : Code) :
    perform (s, .stop ec) = { s with stopped := true, stops := s.stops ++ [ec] } := rfl

end Reader

/-- What can happen to the read cycle: the socket completes the read in flight, or a thread sets the negotiated
version (`set_negotiated_version`). -/
inductive ReadEvent where
  | complete
  | setVersion (value : UInt32)
  deriving DecidableEq, Repr

namespace Reader

/-- One event. -/
def step (s : Reader Message) : ReadEvent → Reader Message
  | .complete => perform (complete codec s)
  | .setVersion value => { s with version := value }

/-- A sequence of events. -/
def run (s : Reader Message) (events : List ReadEvent) : Reader Message :=
  events.foldl (step codec) s

@[simp] theorem run_nil (s : Reader Message) : run codec s [] = s := rfl

@[simp] theorem run_cons (s : Reader Message) (e : ReadEvent) (events : List ReadEvent) :
    run codec s (e :: events) = run codec (step codec s e) events := rfl

/-- The constructor `proxy(pool, socket, protocol_magic, protocol_maximum)`, on a socket whose transport will
deliver `segments`. -/
def construct (protocolMagic protocolMaximum : UInt32) (segments : Segments) : Reader Message where
  protocolMagic := protocolMagic
  stopped := true
  version := protocolMaximum
  headingBuffer := List.replicate Heading.maximumSize 0
  payloadBuffer := Chunk.ofSize (codec.maximumPayloadSize protocolMaximum)
  pending := none
  segments := segments
  loads := []
  delivered := []
  stops := []

/-- `proxy::start` as the read cycle sees it: a stopped proxy clears `stopped_` and starts the cycle. -/
def start (s : Reader Message) : Reader Message :=
  if !s.stopped then s
  else
    let s' := { s with stopped := false }
    perform (s', readHeading s')

end Reader

/-! ### What the cycle logs -/

/-- What `load` delivers for a load: the message it parsed, with its type. -/
def delivers (l : Load) : Option (Nat × Message) :=
  (load codec l.type l.version l.payload).2.1.map fun m => (l.type, m)

namespace Reader

variable {s : Reader Message}

/-- From `s` to `s'` the version stays, and the logs grow by loads made at that version and by the messages those
loads delivered. -/
def LogsGrow (s s' : Reader Message) : Prop :=
  s'.version = s.version ∧ ∃ new, s'.loads = s.loads ++ new ∧
    s'.delivered = s.delivered ++ new.filterMap (delivers codec) ∧ ∀ l ∈ new, l.version = s.version

theorem LogsGrow.of_eq {s s' : Reader Message} (hv : s'.version = s.version) (hl : s'.loads = s.loads)
    (hd : s'.delivered = s.delivered) : LogsGrow codec s s' :=
  ⟨hv, [], by simp [hl], by simp [hd], by simp⟩

theorem LogsGrow.trans {s t u : Reader Message} (h₁ : LogsGrow codec s t) (h₂ : LogsGrow codec t u) :
    LogsGrow codec s u := by
  obtain ⟨hv₁, new₁, hl₁, hd₁, hn₁⟩ := h₁
  obtain ⟨hv₂, new₂, hl₂, hd₂, hn₂⟩ := h₂
  refine ⟨hv₂.trans hv₁, new₁ ++ new₂, by rw [hl₂, hl₁, List.append_assoc], ?_, ?_⟩
  · rw [hd₂, hd₁, List.filterMap_append, List.append_assoc]
  · intro l hl
    rcases List.mem_append.1 hl with hl | hl
    · exact hn₁ l hl
    · exact (hn₂ l hl).trans hv₁

theorem handleReadHeading_logs (ec : Option TransportError) (s : Reader Message) :
    LogsGrow codec s (handleReadHeading codec ec s).1 := by
  unfold handleReadHeading readPayload
  exact LogsGrow.of_eq codec (by simp only [apply_ite (fun p : Reader Message × Next => p.1.version), ite_self])
    (by simp only [apply_ite (fun p : Reader Message × Next => p.1.loads), ite_self])
    (by simp only [apply_ite (fun p : Reader Message × Next => p.1.delivered), ite_self])

theorem handleReadPayload_logs (ec : Option TransportError) (head : Heading) (s : Reader Message) :
    LogsGrow codec s (handleReadPayload codec ec head s).1 := by
  unfold handleReadPayload
  dsimp only
  split_ifs
  iterate 3 exact LogsGrow.of_eq codec rfl rfl rfl
  -- the payload was loaded, whatever the handler does next
  all_goals refine ⟨rfl, [_], rfl, ?_, by simp⟩
  all_goals simp only [List.filterMap_cons, List.filterMap_nil, delivers]
  all_goals cases (load codec (codec.messageType head) s.version s.payloadBuffer.data).2.1 <;> rfl

theorem perform_logs {p : Reader Message × Next} (h : LogsGrow codec s p.1) : LogsGrow codec s (perform p) := by
  obtain ⟨s', next⟩ := p
  cases next <;> exact h

/-- A completion adds to the logs only what `handle_read_payload` loads, at the current version, and the message
that load delivered. -/
theorem complete_logs (s : Reader Message) : LogsGrow codec s (perform (complete codec s)) := by
  apply perform_logs
  unfold complete
  split
  · exact LogsGrow.of_eq codec rfl rfl rfl
  all_goals split
  all_goals first
    | exact handleReadHeading_logs codec _ _
    | exact handleReadPayload_logs codec _ _ _

/-- Completions alone load every frame at the version the cycle had. -/
theorem run_complete_logs (s : Reader Message) (n : Nat) :
    LogsGrow codec s (run codec s (List.replicate n .complete)) := by
  induction n generalizing s with
  | zero => exact LogsGrow.of_eq codec rfl rfl rfl
  | succ n ih => exact (complete_logs codec s).trans codec (ih _)

theorem run_append (s : Reader Message) (events events' : List ReadEvent) :
    run codec s (events ++ events') = run codec (run codec s events) events' :=
  List.foldl_append _ _ _ _

/-- What `negotiated_version()` returns after `events`, on a cycle that began at `version`: the value the last
`set_negotiated_version` stored, or `version` if none did. -/
def negotiatedVersion (version : UInt32) (events : List ReadEvent) : UInt32 :=
  events.foldl (fun v e => match e with | .setVersion value => value | .complete => v) version

/-- The handlers never change `version_`: only `set_negotiated_version` does. -/
theorem version_run (s : Reader Message) (events : List ReadEvent) :
    (run codec s events).version = negotiatedVersion s.version events := by
  induction events generalizing s with
  | nil => rfl
  | cons e events ih =>
    cases e with
    | complete => rw [run_cons, ih, step, (complete_logs codec s).1]; rfl
    | setVersion value => exact ih _

end Reader

/-- The three heading checks of `handle_read_heading`: `is_valid`, the magic, and the payload size against the
capacity of the payload buffer. -/
def headingOk (magic : UInt32) (capacity : Nat) (head : Heading) : Bool :=
  codec.isValid head && head.magic == magic && head.payloadSize.toNat ≤ capacity

/-- The payload part of one frame, after a heading that passed its checks, on the bytes after the heading: end
the read (`.inl`, with the loads made and the code), or load `frame` and go on with the bytes after it
(`.inr`). -/
def payloadSpec (head : Heading) (rest : List UInt8) (version : UInt32) :
    (List Load × Code) ⊕ (Load × List UInt8) :=
  let size := head.payloadSize.toNat
  if rest.length < size then .inl ([], .transport .eof)
  else if head.checksum != codec.checksum (rest.take size) then .inl ([], .badStream)
  else
    let frame : Load := ⟨codec.messageType head, version, rest.take size⟩
    let (code, _, consumed) := load codec frame.type frame.version frame.payload
    if code != .success then .inl ([frame], code)
    else if !consumed then .inl ([frame], .badStream)
    else .inr (frame, rest.drop size)

/-- A frame the payload part loads was loaded at the version given, and leaves at most the bytes it was given. -/
theorem payloadSpec_inr {head : Heading} {rest : List UInt8} {version : UInt32} {frame : Load}
    {next : List UInt8} (h : payloadSpec codec head rest version = .inr (frame, next)) :
    frame.version = version ∧ next.length ≤ rest.length := by
  simp only [payloadSpec] at h
  split_ifs at h
  cases h
  simp

/-- What the read cycle is for (spec §4.1.1), on the byte stream: read it as consecutive frames, each a heading
and `payload_size` bytes; pass each frame that clears the heading checks and the checksum check to `load`, at the
version `versions` gives for it; go on while the load succeeds and reads its whole payload; end with the code of
the first check that fails, or with `eof` when the stream ends before a frame does. -/
def readSpec (magic : UInt32) (capacity : Nat) (stream : List UInt8) (versions : List UInt32) :
    List Load × Code :=
  if _hshort : stream.length < Heading.maximumSize then ([], .transport .eof)
  else
    let head := Heading.fromData (stream.take Heading.maximumSize)
    if !headingOk codec magic capacity head then ([], .badStream)
    else
      match hp : payloadSpec codec head (stream.drop Heading.maximumSize) (versions.headD 0) with
      | .inl result => result
      | .inr (frame, next) =>
        let r := readSpec magic capacity next versions.tail
        (frame :: r.1, r.2)
termination_by stream.length
decreasing_by
  have := (payloadSpec_inr codec hp).2
  simp only [List.length_drop, Heading.maximumSize] at *; omega

/-- How `readSpec` goes on after the payload part of a frame. -/
def readSpec.resume (magic : UInt32) (capacity : Nat) :
    (List Load × Code) ⊕ (Load × List UInt8) → List UInt32 → List Load × Code
  | .inl result, _ => result
  | .inr (frame, next), versions =>
    let r := readSpec codec magic capacity next versions
    (frame :: r.1, r.2)

section Spec

variable {magic : UInt32} {capacity : Nat} {versions : List UInt32}

theorem readSpec_of_lt {stream : List UInt8} (h : stream.length < Heading.maximumSize) :
    readSpec codec magic capacity stream versions = ([], .transport .eof) := by
  rw [readSpec, dif_pos h]

/-- A stream that starts with a heading. -/
theorem readSpec_append {bytes : List UInt8} (hb : bytes.length = Heading.maximumSize) (rest : List UInt8) :
    readSpec codec magic capacity (bytes ++ rest) versions =
      if headingOk codec magic capacity (Heading.fromData bytes) then
        readSpec.resume codec magic capacity
          (payloadSpec codec (Heading.fromData bytes) rest (versions.headD 0)) versions.tail
      else ([], .badStream) := by
  rw [readSpec, dif_neg (by simp [hb]), List.take_left' hb, List.drop_left' hb]
  by_cases hok : headingOk codec magic capacity (Heading.fromData bytes)
  · rw [if_neg (by simp [hok]), if_pos hok]
    split
    next heq => rw [heq]; rfl
    next heq => rw [heq]; rfl
  · simp [hok]

end Spec

/-- Where the payload part ends the read, it ends it whatever version the spec is given for a frame it does not
load. -/
theorem payloadSpec_inl {head : Heading} {rest : List UInt8} {version : UInt32} {loads : List Load} {code : Code}
    (h : payloadSpec codec head rest version = .inl (loads, code)) (versions : List UInt32) :
    payloadSpec codec head rest ((loads.map Load.version ++ versions).headD 0) = .inl (loads, code) := by
  unfold payloadSpec at h ⊢
  by_cases h1 : rest.length < head.payloadSize.toNat
  · simpa only [h1, if_true] using h
  by_cases h2 : (head.checksum != codec.checksum (rest.take head.payloadSize.toNat)) = true
  · simpa only [h1, h2, if_true, if_false] using h
  simp only [h1, h2, if_false, Bool.false_eq_true] at h ⊢
  -- past the two checks the frame was loaded, at the version the spec was given
  have hv : (loads.map Load.version ++ versions).headD 0 = version := by
    split_ifs at h <;> cases h <;> rfl
  rw [hv]
  exact h

namespace Reader

variable {s : Reader Message}

/-- The part of the stream the cycle has still to frame: the bytes the transport holds, behind the heading already
read while a payload read is in flight. -/
def remaining (s : Reader Message) : List UInt8 :=
  match s.pending with
  | some (.payload _) => s.headingBuffer ++ s.segments.flatten
  | _ => s.segments.flatten

/-- What is left of the cycle: nothing once it stopped; else one more than the bytes the transport holds, and one
more while a payload read is in flight. -/
def weight (s : Reader Message) : Nat :=
  if s.stopped then 0
  else s.segments.flatten.length + 1 + (match s.pending with | some (.payload _) => 1 | _ => 0)

theorem handleReadHeading_of_running (hs : s.stopped = false) (ec : Option TransportError) :
    handleReadHeading codec ec s =
      if ec.isSome then (s, .stop (boostToErrorCode ec))
      else if headingOk codec s.protocolMagic s.payloadBuffer.capacity (Heading.fromData s.headingBuffer) then
        ({ s with payloadBuffer := s.payloadBuffer.resize (Heading.fromData s.headingBuffer).payloadSize.toNat },
          .read (.payload (Heading.fromData s.headingBuffer)))
      else (s, .stop .badStream) := by
  cases ec with
  | some e => simp [handleReadHeading, hs]
  | none =>
    simp only [handleReadHeading, readPayload, headingOk, hs, Option.isSome_none, Bool.false_eq_true, if_false,
      bne, Bool.and_eq_true, decide_eq_true_eq, gt_iff_lt]
    by_cases hv : codec.isValid (Heading.fromData s.headingBuffer) <;>
      by_cases hm : (Heading.fromData s.headingBuffer).magic == s.protocolMagic <;>
      by_cases hc : (Heading.fromData s.headingBuffer).payloadSize.toNat ≤ s.payloadBuffer.capacity <;>
      simp [hv, hm, hc]

/-- A heading read completes: the cycle stops with `eof` when the stream ends first and with `bad_stream` when the
heading fails a check; otherwise the heading's bytes are in the buffer and its payload read is in flight. -/
theorem perform_complete_heading (hs : s.stopped = false) (hp : s.pending = some .heading)
    (hb : s.headingBuffer.length = Heading.maximumSize) :
    let s' := perform (complete codec s)
    s'.loads = s.loads ∧ s'.protocolMagic = s.protocolMagic ∧ s'.payloadBuffer.capacity = s.payloadBuffer.capacity ∧
    s'.headingBuffer.length = Heading.maximumSize ∧
    (s.segments.flatten.length < Heading.maximumSize ∧
        s'.stopped = true ∧ s'.pending = none ∧ s'.stops = s.stops ++ [.transport .eof] ∨
      Heading.maximumSize ≤ s.segments.flatten.length ∧
      (headingOk codec s.protocolMagic s.payloadBuffer.capacity
          (Heading.fromData (s.segments.flatten.take Heading.maximumSize)) = false ∧
        s'.stopped = true ∧ s'.pending = none ∧ s'.stops = s.stops ++ [.badStream] ∨
      headingOk codec s.protocolMagic s.payloadBuffer.capacity
          (Heading.fromData (s.segments.flatten.take Heading.maximumSize)) = true ∧
        s'.stopped = false ∧ s'.stops = s.stops ∧
        s'.pending = some (.payload (Heading.fromData (s.segments.flatten.take Heading.maximumSize))) ∧
        s'.headingBuffer = s.segments.flatten.take Heading.maximumSize ∧
        s'.segments.flatten = s.segments.flatten.drop Heading.maximumSize ∧
        s'.payloadBuffer.data.length =
          (Heading.fromData (s.segments.flatten.take Heading.maximumSize)).payloadSize.toNat)) := by
  simp only [complete, hp, hb]
  cases hr : asyncRead Heading.maximumSize s.segments with
  | none =>
    have hlt := asyncRead_eq_none hr
    simp only [List.length_flatten] at hlt
    simp [handleReadHeading_of_running codec, hs, boostToErrorCode, hlt, hb]
  | some r =>
    obtain ⟨bytes, rest⟩ := r
    obtain ⟨hlen, hsegs⟩ := asyncRead_length hr
    have htake : s.segments.flatten.take Heading.maximumSize = bytes := by
      rw [hsegs, List.take_left' hlen]
    have hdrop : s.segments.flatten.drop Heading.maximumSize = rest.flatten := by
      rw [hsegs, List.drop_left' hlen]
    have hge : Heading.maximumSize ≤ (s.segments.map List.length).sum := by
      simp [← List.length_flatten, hsegs, hlen]
    have hs' : ({ s with pending := none, headingBuffer := bytes, segments := rest } : Reader Message).stopped =
      false := hs
    simp only [handleReadHeading_of_running codec hs', Option.isSome_none, Bool.false_eq_true, if_false, htake,
      hdrop]
    split_ifs with hok
    · have hcap : (Heading.fromData bytes).payloadSize.toNat ≤ s.payloadBuffer.capacity := by
        simp only [headingOk, Bool.and_eq_true, decide_eq_true_eq] at hok; exact hok.2
      simp [hok, hlen, hge, hs, Chunk.resize_capacity_of_le hcap, Nat.not_lt.2 hge]
    · simp_all [Nat.not_lt.2 hge]

/-- A payload read completes: the cycle does what `payloadSpec` does with the bytes after the heading, at the
current version.  It stops with the code of the failed check, having loaded at most this frame, or it loads the
frame and puts the next heading read in flight. -/
theorem perform_complete_payload {head : Heading} (hs : s.stopped = false) (hp : s.pending = some (.payload head))
    (hlen : s.payloadBuffer.data.length = head.payloadSize.toNat) :
    let s' := perform (complete codec s)
    s'.protocolMagic = s.protocolMagic ∧ s'.headingBuffer = s.headingBuffer ∧
    s'.payloadBuffer.capacity = s.payloadBuffer.capacity ∧
    match payloadSpec codec head s.segments.flatten s.version with
    | .inl (loads, code) =>
      s'.stopped = true ∧ s'.pending = none ∧ s'.stops = s.stops ++ [code] ∧ s'.loads = s.loads ++ loads
    | .inr (frame, next) =>
      s'.stopped = false ∧ s'.pending = some .heading ∧ s'.stops = s.stops ∧ s'.loads = s.loads ++ [frame] ∧
        s'.segments.flatten = next := by
  simp only [complete, hp]
  cases hr : asyncRead head.payloadSize.toNat s.segments with
  | none =>
    have hlt := asyncRead_eq_none hr
    have hspec : payloadSpec codec head s.segments.flatten s.version = .inl ([], .transport .eof) := by
      simp only [payloadSpec, hlt, if_true]
    rw [hspec]
    simp [handleReadPayload, hs, boostToErrorCode]
  | some r =>
    obtain ⟨bytes, rest⟩ := r
    obtain ⟨hl, hsegs⟩ := asyncRead_length hr
    have hfill : (s.payloadBuffer.fill bytes).data = bytes := Chunk.fill_data_of_length (by rw [hl, hlen])
    rw [hsegs]
    simp only [payloadSpec, handleReadPayload, hs, hfill, List.take_left' hl, List.drop_left' hl,
      List.length_append, show ¬bytes.length + rest.flatten.length < head.payloadSize.toNat by omega,
      Option.isSome_none, if_false, Bool.false_eq_true]
    rcases hload : load codec (codec.messageType head) s.version bytes with ⟨code, message, consumed⟩
    by_cases hc : head.checksum = codec.checksum bytes <;> by_cases hcode : code = .success <;> cases consumed <;>
      simp [hc, hcode, readHeading, hs]

/-! ### The invariant -/

/-- The read cycle's invariant, for the magic, the stream and the capacity it was built with.  The buffers keep
their sizes; a running cycle has a read in flight, and a payload read follows a heading that passed its checks; a
running cycle's loads, followed by what `readSpec` does with the rest of the stream, are what `readSpec` does with
the whole stream; a stopped cycle has done all of it, with one stop. -/
structure Tracks (magic : UInt32) (stream : List UInt8) (capacity : Nat) (s : Reader Message) : Prop where
  magic_eq : s.protocolMagic = magic
  capacity_eq : s.payloadBuffer.capacity = capacity
  heading_length : s.headingBuffer.length = Heading.maximumSize
  running : s.stopped = false → s.stops = [] ∧
    (s.pending = some .heading ∨
      s.pending = some (.payload (Heading.fromData s.headingBuffer)) ∧
        headingOk codec magic capacity (Heading.fromData s.headingBuffer) = true ∧
        s.payloadBuffer.data.length = (Heading.fromData s.headingBuffer).payloadSize.toNat)
  follows : s.stopped = false → ∀ versions,
    readSpec codec magic capacity stream (s.loads.map Load.version ++ versions) =
      (s.loads ++ (readSpec codec magic capacity s.remaining versions).1,
        (readSpec codec magic capacity s.remaining versions).2)
  ended : s.stopped = true → s.pending = none ∧ ∃ code, s.stops = [code] ∧ ∀ versions,
    readSpec codec magic capacity stream (s.loads.map Load.version ++ versions) = (s.loads, code)

variable {magic : UInt32} {stream : List UInt8} {capacity : Nat}

theorem tracks_start (magic maximum : UInt32) (segments : Segments) :
    Tracks codec magic segments.flatten (codec.maximumPayloadSize maximum)
      (start (construct codec magic maximum segments)) where
  magic_eq := rfl
  capacity_eq := rfl
  heading_length := by simp [start, construct, readHeading]
  running _ := ⟨rfl, .inl rfl⟩
  follows _ _ := by simp [start, construct, readHeading, remaining]
  ended h := by simp [start, construct, readHeading] at h

theorem Tracks.complete_heading (h : Tracks codec magic stream capacity s) (hs : s.stopped = false)
    (hp : s.pending = some .heading) : Tracks codec magic stream capacity (perform (complete codec s)) := by
  obtain ⟨hloads, hmagic, hcap, hhb, hcases⟩ := perform_complete_heading codec hs hp h.heading_length
  have hfollows := h.follows hs
  have hstops := (h.running hs).1
  simp only [remaining, hp] at hfollows
  rw [h.capacity_eq, h.magic_eq] at hcases
  have hsplit : ∀ versions, readSpec codec magic capacity s.segments.flatten versions =
      readSpec codec magic capacity (s.segments.flatten.take Heading.maximumSize ++
        s.segments.flatten.drop Heading.maximumSize) versions := by
    intro versions; rw [List.take_append_drop]
  rcases hcases with ⟨hlt, hstop, hpend, hstop'⟩ | ⟨hge, ⟨hbad, hstop, hpend, hstop'⟩ | ⟨hok, hrun, hstop', hpend, hhbuf, hsegs, hdlen⟩⟩
  · refine ⟨hmagic.trans h.magic_eq, hcap.trans h.capacity_eq, hhb, by simp [hstop], by simp [hstop],
      fun _ => ⟨hpend, _, by rw [hstop', hstops]; rfl, fun versions => ?_⟩⟩
    rw [hloads, hfollows, readSpec_of_lt codec hlt]
    simp
  · refine ⟨hmagic.trans h.magic_eq, hcap.trans h.capacity_eq, hhb, by simp [hstop], by simp [hstop],
      fun _ => ⟨hpend, _, by rw [hstop', hstops]; rfl, fun versions => ?_⟩⟩
    rw [hloads, hfollows, hsplit, readSpec_append codec (List.length_take_of_le hge)]
    simp [hbad]
  · refine ⟨hmagic.trans h.magic_eq, hcap.trans h.capacity_eq, hhb,
      fun _ => ⟨hstop'.trans hstops, .inr ⟨?_, ?_, ?_⟩⟩, fun _ versions => ?_, by simp [hrun]⟩
    · rw [hpend, hhbuf]
    · rw [hhbuf]; exact hok
    · rw [hdlen, hhbuf]
    · rw [hloads, hfollows, hsplit]
      simp only [remaining, hpend, hhbuf, hsegs]

theorem Tracks.complete_payload (h : Tracks codec magic stream capacity s) (hs : s.stopped = false)
    (hp : s.pending = some (.payload (Heading.fromData s.headingBuffer)))
    (hok : headingOk codec magic capacity (Heading.fromData s.headingBuffer) = true)
    (hlen : s.payloadBuffer.data.length = (Heading.fromData s.headingBuffer).payloadSize.toNat) :
    Tracks codec magic stream capacity (perform (complete codec s)) := by
  obtain ⟨hmagic, hhb, hcap, hmatch⟩ := perform_complete_payload codec hs hp hlen
  have hfollows := h.follows hs
  have hstops := (h.running hs).1
  simp only [remaining, hp, readSpec_append codec h.heading_length, hok, if_true] at hfollows
  cases hps : payloadSpec codec (Heading.fromData s.headingBuffer) s.segments.flatten s.version with
  | inl result =>
    obtain ⟨loads, code⟩ := result
    rw [hps] at hmatch
    obtain ⟨hstop, hpend, hstop', hloads⟩ := hmatch
    refine ⟨hmagic.trans h.magic_eq, hcap.trans h.capacity_eq, hhb ▸ h.heading_length, by simp [hstop],
      by simp [hstop], fun _ => ⟨hpend, code, by rw [hstop', hstops]; rfl, fun versions => ?_⟩⟩
    rw [hloads, List.map_append, List.append_assoc, hfollows, payloadSpec_inl codec hps]
    simp [readSpec.resume]
  | inr result =>
    obtain ⟨frame, next⟩ := result
    rw [hps] at hmatch
    obtain ⟨hrun, hpend, hstop', hloads, hsegs⟩ := hmatch
    have hversion := (payloadSpec_inr codec hps).1
    refine ⟨hmagic.trans h.magic_eq, hcap.trans h.capacity_eq, hhb ▸ h.heading_length,
      fun _ => ⟨hstop'.trans hstops, .inl hpend⟩, fun _ versions => ?_, by simp [hrun]⟩
    have := hfollows (s.version :: versions)
    simp only [List.headD_cons, List.tail_cons, hps] at this
    rw [hloads, List.map_append, List.append_assoc, List.map_singleton, List.singleton_append, hversion, this]
    simp [readSpec.resume, remaining, hpend, hsegs]

/-- A stopped cycle has no read in flight: completions change nothing. -/
theorem Tracks.step_of_stopped (h : Tracks codec magic stream capacity s) (hs : s.stopped = true) :
    step codec s .complete = s := by
  simp [step, complete, (h.ended hs).1]

theorem Tracks.step (h : Tracks codec magic stream capacity s) :
    ∀ e, Tracks codec magic stream capacity (step codec s e)
  | .setVersion _ => ⟨h.magic_eq, h.capacity_eq, h.heading_length, h.running, h.follows, h.ended⟩
  | .complete => by
    cases hs : s.stopped with
    | true => rw [h.step_of_stopped codec hs]; exact h
    | false =>
      rcases (h.running hs).2 with hp | ⟨hp, hok, hlen⟩
      · exact h.complete_heading codec hs hp
      · exact h.complete_payload codec hs hp hok hlen

theorem Tracks.run (h : Tracks codec magic stream capacity s) (events : List ReadEvent) :
    Tracks codec magic stream capacity (run codec s events) := by
  induction events generalizing s with
  | nil => exact h
  | cons e events ih => exact ih (h.step codec e)

/-- Each completion of a running cycle consumes what is left of it. -/
theorem Tracks.weight_lt (h : Tracks codec magic stream capacity s) (hs : s.stopped = false) :
    weight (Reader.step codec s .complete) < weight s := by
  have hpos : 0 < weight s := by simp only [weight, hs, Bool.false_eq_true, if_false]; omega
  rcases (h.running hs).2 with hp | ⟨hp, -, hlen⟩
  · obtain ⟨-, -, -, -, hcases⟩ := perform_complete_heading codec hs hp h.heading_length
    rcases hcases with ⟨-, hstop, -⟩ | ⟨hge, ⟨-, hstop, -⟩ | ⟨-, hrun, -, hpend, -, hsegs, -⟩⟩
    · simpa [Reader.step, weight, hstop] using hpos
    · simpa [Reader.step, weight, hstop] using hpos
    · simp only [Reader.step, weight, hrun, hs, hpend, hsegs, hp, List.length_drop, Bool.false_eq_true, if_false]
      simp only [Heading.maximumSize] at hge ⊢
      omega
  · obtain ⟨-, -, -, hmatch⟩ := perform_complete_payload codec hs hp hlen
    cases hps : payloadSpec codec (Heading.fromData s.headingBuffer) s.segments.flatten s.version with
    | inl result =>
      obtain ⟨loads, code⟩ := result
      rw [hps] at hmatch
      simpa [Reader.step, weight, hmatch.1] using hpos
    | inr result =>
      obtain ⟨frame, next⟩ := result
      rw [hps] at hmatch
      have hle := (payloadSpec_inr codec hps).2
      simp only [Reader.step, weight, hmatch.1, hmatch.2.1, hmatch.2.2.2.2, hs, hp, Bool.false_eq_true, if_false]
      omega

/-- A cycle given at least as many completions as its weight stops. -/
theorem Tracks.run_stopped (h : Tracks codec magic stream capacity s) (events : List ReadEvent)
    (hw : weight s ≤ events.count .complete) : (Reader.run codec s events).stopped = true := by
  induction events generalizing s with
  | nil =>
    cases hs : s.stopped
    · simp [weight, hs] at hw
    · exact hs
  | cons e events ih =>
    apply ih (h.step codec e)
    cases e with
    | setVersion => simpa [Reader.step, weight] using hw
    | complete =>
      cases hs : s.stopped
      · have := h.weight_lt codec hs
        simp only [List.count_cons_self] at hw
        omega
      · simp [h.step_of_stopped codec hs, weight, hs]

/-- A proxy's read cycle, after any completions and version changes, makes `readSpec`'s loads, each at the
version negotiated when its payload completed, and stops with `readSpec`'s code once the stream runs out. -/
theorem run_refines_readSpec (magic maximum : UInt32) (segments : Segments) (events : List ReadEvent) :
    let s₀ := start (construct codec magic maximum segments)
    let s := run codec s₀ events
    let capacity := codec.maximumPayloadSize maximum
    s.payloadBuffer.capacity = capacity ∧
    (∀ pre post, events = pre ++ .complete :: post → ∃ new,
      (run codec s₀ (pre ++ [.complete])).loads = (run codec s₀ pre).loads ++ new ∧
      ∀ l ∈ new, l.version = negotiatedVersion maximum pre) ∧
    (∀ versions, s.loads <+: (readSpec codec magic capacity segments.flatten
      (s.loads.map Load.version ++ versions)).1) ∧
    (segments.flatten.length < events.count .complete → s.stopped = true) ∧
    (s.stopped = true → ∃ code, s.stops = [code] ∧
      readSpec codec magic capacity segments.flatten (s.loads.map Load.version) = (s.loads, code)) := by
  dsimp only
  have h0 := tracks_start codec magic maximum segments
  have h := h0.run codec events
  refine ⟨h.capacity_eq, fun pre _ _ => ?_, fun versions => ?_, fun hc => h0.run_stopped codec events ?_,
    fun hs => ?_⟩
  · -- the completion loads at the version the events before it left
    obtain ⟨-, new, hl, -, hv⟩ := complete_logs codec (run codec (start (construct codec magic maximum segments)) pre)
    exact ⟨new, by rw [run_append]; exact hl, fun l hl => (hv l hl).trans (version_run codec _ pre)⟩
  · cases hs : (run codec (start (construct codec magic maximum segments)) events).stopped
    · rw [h.follows hs]; exact List.prefix_append _ _
    · obtain ⟨-, code, -, hspec⟩ := h.ended hs
      rw [hspec]
  · simp [weight, start, construct, readHeading] at hc ⊢; omega
  · obtain ⟨-, code, hstops, hspec⟩ := h.ended hs
    exact ⟨code, hstops, by simpa using hspec []⟩

/-- A payload with the right checksum that the codec parses while leaving bytes unread: `load` delivers its
message to the subscribers before the handler finds the bytes left and stops the cycle with `bad_stream`. -/
theorem handleReadPayload_of_trailing {head : Heading} {message : Message} {read : Nat} (hs : s.stopped = false)
    (hsum : head.checksum = codec.checksum s.payloadBuffer.data)
    (hparse : codec.parse (codec.messageType head) s.version s.payloadBuffer.data = (.ok message, read))
    (hread : read < s.payloadBuffer.data.length) :
    handleReadPayload codec none head s =
      ({ s with
          loads := s.loads ++ [⟨codec.messageType head, s.version, s.payloadBuffer.data⟩]
          delivered := s.delivered ++ [(codec.messageType head, message)] }, .stop .badStream) := by
  simp [handleReadPayload, hs, hsum, load, hparse, Nat.not_le.2 hread]

end Reader

/-- A codec whose parser, like that of `verack`, reads no payload bytes.  Every heading is valid and names type 0,
payloads may have up to 32 bytes, and the checksum is the sum of the bytes, standing in for the double
SHA-256. -/
def verackCodec : Codec Unit where
  isValid _ := true
  messageType _ := 0
  maximumPayloadSize _ := 32
  checksum payload := payload.foldl (fun sum byte => sum + byte.toUInt32) 0
  parse _ _ _ := (.ok (), 0)
  failure_ne_success _ _ _ _ _ h := by cases h

/-- A `verack` frame on the main network's magic whose payload is one byte, `0x2a`, that the parser leaves unread;
the transport delivers it in two segments. -/
def trailingFrame : Segments :=
  [[0xf9, 0xbe, 0xb4, 0xd9, 0x76, 0x65, 0x72, 0x61, 0x63, 0x6b],
    [0, 0, 0, 0, 0, 0, 1, 0, 0, 0, 0x2a, 0, 0, 0, 0x2a]]

/-- A proxy started once on that frame, after the heading read and the payload read complete. -/
def trailingRun : Reader Unit :=
  Reader.run verackCodec (Reader.start (Reader.construct verackCodec 0xd9b4bef9 70013 trailingFrame))
    [.complete, .complete]

theorem trailing_byte_delivered : trailingRun.delivered = [(0, ())] ∧ trailingRun.stops = [.badStream] :=
  ⟨rfl, rfl⟩

end BitprimNetwork
