import BitprimNetwork.ReadCycle

/-!
# The proxy on many threads

The calls made on a proxy (`start`, `stop`, `send`, `subscribe_stop`, `subscribe`) and the handlers its socket
invokes when a read completes, each on a thread of its own.  A thread takes one atomic step for each access the
source makes to state it shares with other threads: `stopped_`, the two subscribers and the socket.  Between two
steps any other thread may run, so the runs of `World.step` are all the interleavings the source allows.

The socket keeps the reads and the composed writes in flight.  A read completes once the transport has delivered
its bytes, and its handler then runs on a thread of its own; what the bytes make the handler do is an `Arrival`
(`Arrival.of_complete` shows that the arrivals cover every completion of the read cycle).  A read may complete
with any arrival that fits it, so the socket's `close` in `stop`, which makes the reads in flight fail, adds no
run.  A composed write, `async_write`, is a sequence of partial writes, any of which may come between the
partial writes of another write in flight; its handler runs after the last one.  `handle_activity` and
`handle_stopping` touch nothing that the steps read, and are left out.

The two subscribers belong to libbitcoin and are modelled from the spec (§4.1).  Ghost state records what the
handlers were invoked with, the codes `start` and `send` reported, and the `stop` calls begun and returned.
-/

namespace BitprimNetwork

namespace Proxy

/-- A socket read in flight. -/
inductive ReadKind where
  | heading
  | payload
  deriving DecidableEq, Repr

/-- What the bytes of a completed read make its handler do once it has found the proxy running. -/
inductive Arrival where
  /-- Stop with the code: a transport error, a failed check, or the codec's error. -/
  | fail (ec : Code)
  /-- A heading that passed its checks: read its payload. -/
  | heading
  /-- A payload that `load` parsed: deliver a message of the type, then stop with the code when there is one
  (bytes left unread), or else read the next heading. -/
  | message (type : Nat) (after : Option Code)
  deriving DecidableEq, Repr

/-- The arrivals a read of the kind can have. -/
def Arrival.fits : Arrival → ReadKind → Bool
  | .fail _, _ => true
  | .heading, .heading => true
  | .message _ _, .payload => true
  | _, _ => false

/-- The read in flight, as the socket sees it. -/
def ReadKind.ofPending : Pending → ReadKind
  | .heading => .heading
  | .payload _ => .payload

/-- What a read handler running on the read cycle does when its read brings the arrival: the messages it
delivers, and what it does last. -/
def Arrival.Realises {Message : Type} : Arrival → List (Nat × Message) → Next → Prop
  | .fail ec, new, next => new = [] ∧ next = .stop ec
  | .heading, new, next => new = [] ∧ ∃ head, next = .read (.payload head)
  | .message type after, new, next => (∃ m, new = [(type, m)]) ∧ next = after.elim (.read .heading) .stop

/-- The arrivals cover the read cycle: whatever the transport delivers, the completion of the read in flight on
a running proxy is an arrival that fits the read. -/
theorem Arrival.of_complete {Message : Type} (codec : Codec Message) {s : Reader Message} {p : Pending}
    (hs : s.stopped = false) (hp : s.pending = some p) :
    ∃ a : Arrival, a.fits (.ofPending p) = true ∧
      ∃ new, (Reader.complete codec s).1.delivered = s.delivered ++ new ∧ a.Realises new (Reader.complete codec s).2 := by
  cases p with
  | heading =>
    simp only [Reader.complete, hp]
    split
    · simp only [Reader.handleReadHeading, Reader.readPayload, hs, Option.isSome_none, Bool.false_eq_true, if_false]
      split_ifs
      -- `is_valid`, the magic and the payload size fail with `bad_stream`
      iterate 3 exact ⟨.fail .badStream, rfl, [], by simp, rfl, rfl⟩
      exact ⟨.heading, rfl, [], by simp, rfl, _, rfl⟩
    · simp only [Reader.handleReadHeading, hs, Option.isSome_some, Bool.false_eq_true, if_false, if_true]
      exact ⟨.fail _, rfl, [], by simp, rfl, rfl⟩
  | payload head =>
    simp only [Reader.complete, hp]
    split
    next bytes rest _ =>
      simp only [Reader.handleReadPayload, hs, Bool.false_eq_true, if_false, Option.isSome_none]
      split
      · exact ⟨.fail .badStream, rfl, [], by simp, rfl, rfl⟩
      · rcases hparse : codec.parse (codec.messageType head) s.version (s.payloadBuffer.fill bytes).data with
          ⟨_ | m, read⟩
        next ec =>
          have hec := codec.failure_ne_success _ _ _ _ _ hparse
          exact ⟨.fail ec, rfl, [], by simp [load, hparse, hec], rfl, by simp [load, hparse, hec]⟩
        by_cases hc : (s.payloadBuffer.fill bytes).data.length ≤ read
        · exact ⟨.message (codec.messageType head) none, rfl, _, by simp [load, hparse, hc], ⟨m, rfl⟩,
            by simp [load, hparse, hc, Reader.readHeading]⟩
        · exact ⟨.message (codec.messageType head) (some .badStream), rfl, _, by simp [load, hparse, hc], ⟨m, rfl⟩,
            by simp [load, hparse, hc]⟩
    · simp only [Reader.handleReadPayload, hs, Bool.false_eq_true, if_false, Option.isSome_some, if_true]
      exact ⟨.fail _, rfl, [], by simp, rfl, rfl⟩

theorem Arrival.of_complete_trailingFrame :
    ∃ s : Reader Unit, s = Reader.start (Reader.construct verackCodec 0xd9b4bef9 70013 trailingFrame) ∧
      s.stopped = false ∧ s.pending = some .heading ∧
      ∃ a : Arrival, a.fits (.ofPending .heading) = true ∧
        ∃ new, (Reader.complete verackCodec s).1.delivered = s.delivered ++ new ∧
          a.Realises new (Reader.complete verackCodec s).2 :=
  ⟨_, rfl, rfl, rfl, Arrival.of_complete verackCodec rfl rfl⟩

/-- What a handler is invoked with: a code, or a message of a type. -/
inductive Notice where
  | code (ec : Code)
  | message (type : Nat)
  deriving DecidableEq, Repr

/-- Modelled from the spec: a libbitcoin subscriber (bitcoin/utility/subscriber.hpp and the message subscriber's
table of them, not under src/), with the semantics of §4.1, each operation atomic.  It holds the handlers
registered while it runs; `stop` closes it to registration; a registration on a stopped subscriber is answered at
once with `channel_stopped`; the relay at stop delivers to, and discards, the handlers registered at that moment;
a message is delivered to the handlers of its type, which stay registered. -/
structure Subscriber (H : Type) where
  stopped : Bool
  handlers : List H
  deriving DecidableEq, Repr

namespace Subscriber

variable {H : Type}

/-- A subscriber as constructed: stopped, with no handler. -/
def create : Subscriber H := ⟨true, []⟩

/-- `start`. -/
def start (s : Subscriber H) : Subscriber H := { s with stopped := false }

/-- `stop`. -/
def stop (s : Subscriber H) : Subscriber H := { s with stopped := true }

/-- `subscribe`: register the handler; `none` when the subscriber is stopped and answers it at once instead. -/
def subscribe (s : Subscriber H) (handler : H) : Option (Subscriber H) :=
  if s.stopped then none else some { s with handlers := s.handlers ++ [handler] }

/-- `relay` (and `broadcast`) at stop: the handlers to deliver to, and the subscriber without them. -/
def relay (s : Subscriber H) : List H × Subscriber H := (s.handlers, { s with handlers := [] })

variable (s : Subscriber H)

@[simp] theorem start_stopped : s.start.stopped = false := rfl
@[simp] theorem start_handlers : s.start.handlers = s.handlers := rfl
@[simp] theorem stop_stopped : s.stop.stopped = true := rfl
@[simp] theorem stop_handlers : s.stop.handlers = s.handlers := rfl
@[simp] theorem relay_fst : s.relay.1 = s.handlers := rfl
@[simp] theorem relay_snd_stopped : s.relay.2.stopped = s.stopped := rfl
@[simp] theorem relay_snd_handlers : s.relay.2.handlers = [] := rfl

end Subscriber

/-- The calls made on the proxy, and the read handlers the socket invokes. -/
inductive Call where
  | start
  | stop (ec : Code)
  | send (frame : List UInt8)
  | subscribeStop
  | subscribe (type : Nat)
  | handler (kind : ReadKind) (arrival : Arrival)
  deriving DecidableEq, Repr

/-- Where a thread is in its call. -/
inductive Pc where
  /-- `start`: about to test `stopped()`. -/
  | startCheck
  /-- `start` found `stopped_` set: about to clear it. -/
  | startClear
  /-- About to `stop_subscriber_->start()`. -/
  | startArmStops
  /-- About to `message_subscriber_.start()`. -/
  | startArmMessages
  /-- About to call `handler(error::success)`. -/
  | startReply
  /-- `read_heading` or `read_payload`: about to test `stopped()`. -/
  | readCheck (kind : ReadKind)
  /-- About to call `async_read`. -/
  | readIssue (kind : ReadKind)
  /-- A read handler: about to test `stopped()`. -/
  | handlerCheck (arrival : Arrival)
  /-- `handle_read_payload`: in `message_subscriber_.load`, about to deliver the message. -/
  | dispatch (type : Nat) (after : Option Code)
  /-- `stop`: about to set `stopped_`. -/
  | stopSet (ec : Code)
  /-- About to `message_subscriber_.stop()`. -/
  | stopMessages (ec : Code)
  /-- About to `message_subscriber_.broadcast(error::channel_stopped)`. -/
  | broadcast (ec : Code)
  /-- About to `stop_subscriber_->stop()`. -/
  | stopStops (ec : Code)
  /-- About to `stop_subscriber_->relay(ec)`. -/
  | relay (ec : Code)
  /-- `do_send`: about to test `stopped()`. -/
  | sendCheck (frame : List UInt8)
  /-- Holding the socket, about to call `async_write`. -/
  | sendWrite (frame : List UInt8)
  /-- `subscribe_stop`: about to register. -/
  | subscribeStop
  /-- `subscribe`: about to register. -/
  | subscribe (type : Nat)
  /-- Returned, its handler registered with a subscriber. -/
  | subscribed
  /-- Returned. -/
  | done
  deriving DecidableEq, Repr

/-- Where a call starts. -/
def Call.entry : Call → Pc
  | .start => .startCheck
  | .stop ec => .stopSet ec
  | .send frame => .sendCheck frame
  | .subscribeStop => .subscribeStop
  | .subscribe type => .subscribe type
  | .handler _ arrival => .handlerCheck arrival

/-- A call in flight. -/
structure Thread where
  call : Call
  pc : Pc
  deriving DecidableEq, Repr

/-- The proxy's shared state, the socket (its reads in flight, its writes in flight with the thread that issued
each, and the bytes written, each with the thread whose write put it there), the threads (indexed by
invocation), and ghost logs: what handlers were invoked with (by the thread that registered them), the codes
`start` and `send` reported, and the `stop` calls begun (with their codes) and returned. -/
structure World where
  stopped : Bool
  messageSubscriber : Subscriber (Nat × Nat)
  stopSubscriber : Subscriber Nat
  reads : List ReadKind
  writes : List (Nat × List UInt8)
  wire : List (Nat × UInt8)
  threads : List Thread
  notices : List (Nat × Notice)
  started : List (Nat × Code)
  sent : List (Nat × Code)
  stopCalls : List (Nat × Code)
  stopReturns : List Nat
  deriving DecidableEq, Repr

/-- The change one step of a thread makes to the shared state. -/
structure Change where
  pc : Pc
  stopped : Bool
  messageSubscriber : Subscriber (Nat × Nat)
  stopSubscriber : Subscriber Nat
  read : Option ReadKind
  write : Option (List UInt8)
  notices : List (Nat × Notice)
  started : Option Code
  sent : Option Code
  stopCall : Option Code
  stopReturn : Bool

/-- A scheduling event: a call on a thread of its own, one step of thread `i`, the socket completing its `k`-th
read (whose handler then runs on a thread of its own), writing the next `n` bytes of its `k`-th write, or
failing it. -/
inductive Event where
  | invoke (call : Call)
  | advance (i : Nat)
  | complete (k : Nat) (arrival : Arrival)
  | write (k n : Nat)
  | fail (k : Nat) (e : TransportError)
  deriving DecidableEq, Repr

namespace World

/-- The proxy as constructed: stopped, its subscribers stopped, nothing in flight. -/
def init : World :=
  ⟨true, Subscriber.create, Subscriber.create, [], [], [], [], [], [], [], [], []⟩

/-- A step that only moves the thread on. -/
def move (w : World) (pc : Pc) : Change :=
  ⟨pc, w.stopped, w.messageSubscriber, w.stopSubscriber, none, none, [], none, none, none, false⟩

section Move

variable (w : World) (pc : Pc)

@[simp] theorem move_pc : (w.move pc).pc = pc := rfl
@[simp] theorem move_stopped : (w.move pc).stopped = w.stopped := rfl
@[simp] theorem move_messageSubscriber : (w.move pc).messageSubscriber = w.messageSubscriber := rfl
@[simp] theorem move_stopSubscriber : (w.move pc).stopSubscriber = w.stopSubscriber := rfl
@[simp] theorem move_read : (w.move pc).read = none := rfl
@[simp] theorem move_write : (w.move pc).write = none := rfl
@[simp] theorem move_notices : (w.move pc).notices = [] := rfl
@[simp] theorem move_started : (w.move pc).started = none := rfl
@[simp] theorem move_sent : (w.move pc).sent = none := rfl
@[simp] theorem move_stopCall : (w.move pc).stopCall = none := rfl
@[simp] theorem move_stopReturn : (w.move pc).stopReturn = false := rfl

end Move

end World

/-- One atomic step of thread `i`, as its call's code runs; `none` once it has returned. -/
def Thread.next (th : Thread) (w : World) (i : Nat) : Option Change :=
  match th.pc with
  | .startCheck =>
    if !w.stopped then some { w.move .done with started := some .operationFailed }
    else some (w.move .startClear)
  | .startClear => some { w.move .startArmStops with stopped := false }
  | .startArmStops => some { w.move .startArmMessages with stopSubscriber := w.stopSubscriber.start }
  | .startArmMessages => some { w.move .startReply with messageSubscriber := w.messageSubscriber.start }
  | .startReply => some { w.move (.readCheck .heading) with started := some .success }
  | .readCheck kind => some (w.move (if w.stopped then .done else .readIssue kind))
  | .readIssue kind => some { w.move .done with read := some kind }
  | .handlerCheck arrival =>
    some (w.move (if w.stopped then .done
      else match arrival with
        | .fail ec => .stopSet ec
        | .heading => .readCheck .payload
        | .message type after => .dispatch type after))
  | .dispatch type after =>
    some { w.move (match after with | some ec => .stopSet ec | none => .readCheck .heading) with
      notices := (w.messageSubscriber.handlers.filter (·.2 == type)).map fun h => (h.1, .message type) }
  | .stopSet ec => some { w.move (.stopMessages ec) with stopped := true, stopCall := some ec }
  | .stopMessages ec => some { w.move (.broadcast ec) with messageSubscriber := w.messageSubscriber.stop }
  | .broadcast ec =>
    some { w.move (.stopStops ec) with
      messageSubscriber := w.messageSubscriber.relay.2
      notices := w.messageSubscriber.relay.1.map fun h => (h.1, .code .channelStopped) }
  | .stopStops ec => some { w.move (.relay ec) with stopSubscriber := w.stopSubscriber.stop }
  | .relay ec =>
    some { w.move .done with
      stopSubscriber := w.stopSubscriber.relay.2
      notices := w.stopSubscriber.relay.1.map fun h => (h, .code ec)
      stopReturn := true }
  | .sendCheck frame =>
    if w.stopped then some { w.move .done with sent := some .channelStopped }
    else some (w.move (.sendWrite frame))
  | .sendWrite frame => some { w.move .done with write := some frame }
  | .subscribeStop =>
    match w.stopSubscriber.subscribe i with
    | some s => some { w.move .subscribed with stopSubscriber := s }
    | none => some { w.move .done with notices := [(i, .code .channelStopped)] }
  | .subscribe type =>
    match w.messageSubscriber.subscribe (i, type) with
    | some s => some { w.move .subscribed with messageSubscriber := s }
    | none => some { w.move .done with notices := [(i, .code .channelStopped)] }
  | .subscribed | .done => none

namespace World

/-- Thread `i` takes the step `c`. -/
def perform (w : World) (i : Nat) (th : Thread) (c : Change) : World :=
  { w with
    stopped := c.stopped
    messageSubscriber := c.messageSubscriber
    stopSubscriber := c.stopSubscriber
    reads := w.reads ++ c.read.toList
    writes := w.writes ++ (c.write.map fun frame => (i, frame)).toList
    threads := w.threads.set i { th with pc := c.pc }
    notices := w.notices ++ c.notices
    started := w.started ++ (c.started.map fun ec => (i, ec)).toList
    sent := w.sent ++ (c.sent.map fun ec => (i, ec)).toList
    stopCalls := w.stopCalls ++ (c.stopCall.map fun ec => (i, ec)).toList
    stopReturns := w.stopReturns ++ if c.stopReturn then [i] else [] }

/-- One scheduling event; `none` when it cannot happen. -/
def step (w : World) : Event → Option World
  | .invoke (.handler _ _) => none
  | .invoke call => some { w with threads := w.threads ++ [⟨call, call.entry⟩] }
  | .advance i =>
    match w.threads[i]? with
    | none => none
    | some th => (th.next w i).map (w.perform i th)
  | .complete k arrival =>
    match w.reads[k]? with
    | none => none
    | some kind =>
      if arrival.fits kind then
        some { w with
          reads := w.reads.eraseIdx k
          threads := w.threads ++ [⟨.handler kind arrival, .handlerCheck arrival⟩] }
      else none
  | .write k n =>
    match w.writes[k]? with
    | none => none
    | some (i, bytes) =>
      if n = 0 then none
      else if bytes.length ≤ n then
        some { w with
          wire := w.wire ++ bytes.map fun b => (i, b)
          writes := w.writes.eraseIdx k
          sent := w.sent ++ [(i, .success)] }
      else
        some { w with
          wire := w.wire ++ (bytes.take n).map fun b => (i, b)
          writes := w.writes.set k (i, bytes.drop n) }
  | .fail k e =>
    match w.writes[k]? with
    | none => none
    | some (i, _) =>
      some { w with writes := w.writes.eraseIdx k, sent := w.sent ++ [(i, boostToErrorCode (some e))] }

/-- The worlds that some interleaving reaches from the proxy as constructed. -/
inductive Reachable : World → Prop
  | init : Reachable init
  | step {w w' : World} (e : Event) : Reachable w → w.step e = some w' → Reachable w'

/-- Events taken in turn; `none` when one of them cannot happen. -/
def run (w : World) : List Event → Option World
  | [] => some w
  | e :: es => (w.step e).bind fun w' => w'.run es

theorem Reachable.of_run {w w' : World} (hw : w.Reachable) {es : List Event} (h : w.run es = some w') :
    w'.Reachable := by
  induction es generalizing w with
  | nil => cases h; exact hw
  | cons e es ih =>
    simp only [run, Option.bind_eq_some] at h
    obtain ⟨w₁, h₁, h₂⟩ := h
    exact ih (.step e hw h₁) h₂

/-- What an event can do, said once: start a call on a new thread, take a step of a thread, hand a completed read
to a new handler thread, or move the `k`-th write in flight on, writing all its bytes, part of them, or failing
it. -/
theorem step_cases {w w' : World} {e : Event} (hs : w.step e = some w') :
    (∃ call, e = .invoke call ∧ (∀ kind arrival, call ≠ .handler kind arrival) ∧
      w' = { w with threads := w.threads ++ [⟨call, call.entry⟩] }) ∨
    (∃ i th c, e = .advance i ∧ w.threads[i]? = some th ∧ th.next w i = some c ∧ w' = w.perform i th c) ∨
    (∃ k kind arrival, e = .complete k arrival ∧ w.reads[k]? = some kind ∧ arrival.fits kind = true ∧
      w' = { w with
        reads := w.reads.eraseIdx k
        threads := w.threads ++ [⟨.handler kind arrival, .handlerCheck arrival⟩] }) ∨
    (∃ k n i bytes, e = .write k n ∧ w.writes[k]? = some (i, bytes) ∧ n ≠ 0 ∧ bytes.length ≤ n ∧
      w' = { w with
        wire := w.wire ++ bytes.map fun b => (i, b)
        writes := w.writes.eraseIdx k
        sent := w.sent ++ [(i, .success)] }) ∨
    (∃ k n i bytes, e = .write k n ∧ w.writes[k]? = some (i, bytes) ∧ n ≠ 0 ∧ n < bytes.length ∧
      w' = { w with
        wire := w.wire ++ (bytes.take n).map fun b => (i, b)
        writes := w.writes.set k (i, bytes.drop n) }) ∨
    (∃ k err i bytes, e = .fail k err ∧ w.writes[k]? = some (i, bytes) ∧
      w' = { w with writes := w.writes.eraseIdx k, sent := w.sent ++ [(i, boostToErrorCode (some err))] }) := by
  cases e with
  | invoke call =>
    cases call <;> simp only [step, Option.some.injEq, reduceCtorEq] at hs
    all_goals exact .inl ⟨_, rfl, by simp, hs.symm⟩
  | advance i =>
    simp only [step] at hs
    split at hs
    · cases hs
    · obtain ⟨c, hn, rfl⟩ := Option.map_eq_some'.1 hs
      exact .inr (.inl ⟨i, _, c, rfl, ‹_›, hn, rfl⟩)
  | complete k arrival =>
    simp only [step] at hs
    split at hs
    · cases hs
    · split at hs
      · cases hs
        exact .inr (.inr (.inl ⟨k, _, arrival, rfl, ‹_›, ‹_›, rfl⟩))
      · cases hs
  | write k n =>
    simp only [step] at hs
    split at hs
    · cases hs
    · split_ifs at hs with h0 hle
      · cases hs
        exact .inr (.inr (.inr (.inl ⟨k, n, _, _, rfl, ‹_›, h0, hle, rfl⟩)))
      · cases hs
        exact .inr (.inr (.inr (.inr (.inl ⟨k, n, _, _, rfl, ‹_›, h0, Nat.lt_of_not_le hle, rfl⟩))))
  | fail k err =>
    simp only [step] at hs
    split at hs
    · cases hs
    · cases hs
      exact .inr (.inr (.inr (.inr (.inr ⟨k, err, _, _, rfl, ‹_›, rfl⟩))))

section Perform

variable {w : World} {i : Nat} {th : Thread} {c : Change}

@[simp] theorem perform_stopped : (w.perform i th c).stopped = c.stopped := rfl
@[simp] theorem perform_messageSubscriber : (w.perform i th c).messageSubscriber = c.messageSubscriber := rfl
@[simp] theorem perform_stopSubscriber : (w.perform i th c).stopSubscriber = c.stopSubscriber := rfl
@[simp] theorem perform_reads : (w.perform i th c).reads = w.reads ++ c.read.toList := rfl
@[simp] theorem perform_writes :
    (w.perform i th c).writes = w.writes ++ (c.write.map fun frame => (i, frame)).toList := rfl
@[simp] theorem perform_wire : (w.perform i th c).wire = w.wire := rfl
@[simp] theorem perform_threads : (w.perform i th c).threads = w.threads.set i { th with pc := c.pc } := rfl
@[simp] theorem perform_notices : (w.perform i th c).notices = w.notices ++ c.notices := rfl
@[simp] theorem perform_started :
    (w.perform i th c).started = w.started ++ (c.started.map fun ec => (i, ec)).toList := rfl
@[simp] theorem perform_sent : (w.perform i th c).sent = w.sent ++ (c.sent.map fun ec => (i, ec)).toList := rfl
@[simp] theorem perform_stopCalls :
    (w.perform i th c).stopCalls = w.stopCalls ++ (c.stopCall.map fun ec => (i, ec)).toList := rfl
@[simp] theorem perform_stopReturns :
    (w.perform i th c).stopReturns = w.stopReturns ++ if c.stopReturn then [i] else [] := rfl

end Perform

/-- The proxy started once: running, its subscribers armed, one heading read in flight. -/
def running : World :=
  { init with
    stopped := false
    messageSubscriber := ⟨false, []⟩
    stopSubscriber := ⟨false, []⟩
    reads := [.heading]
    threads := [⟨.start, .done⟩]
    started := [(0, .success)] }

end World

/-- One `start` run to its end on the proxy as constructed. -/
def startRun : List Event := [.invoke .start] ++ List.replicate 7 (.advance 0)

theorem World.run_startRun : World.init.run startRun = some World.running := rfl

end Proxy

end BitprimNetwork
