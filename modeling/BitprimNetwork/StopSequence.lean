import BitprimNetwork.ProxyThreads

/-!
# The stop sequence and the handlers

`proxy::stop` is deliberately unguarded: any number of stops may run at once, interleaved with registrations and
with a read handler that passed its `stopped()` test just before.  Each stop closes a subscriber to registration
before it relays to it, so on a proxy started once every stop handler is invoked exactly once, with the code of a
stop or with `channel_stopped` when it registered too late; every message handler is invoked with
`channel_stopped` exactly once, and last; and once a stop has returned no message reaches any handler
(`World.StartedOnce.handlers`).

The proof is one invariant, `World.HandlersOk`, read off the threads: a handler is registered while its
subscribe thread is `subscribed` and it has not been relayed to, and the stop phase a thread is in tells what the
subscribers have been made to do.
-/

namespace BitprimNetwork

namespace Proxy

namespace World

/-- The worlds a proxy started once reaches by any interleaving of stops, sends, registrations and socket events,
with no further start. -/
inductive StartedOnce : World → Prop
  | running : StartedOnce running
  | step {w w' : World} (e : Event) : StartedOnce w → e ≠ .invoke .start → w.step e = some w' → StartedOnce w'

/-- What the handler registered by thread `i` has been invoked with, in order. -/
def noticesOf (w : World) (i : Nat) : List Notice := (w.notices.filter (·.1 == i)).map (·.2)

/-- The codes of the `stop` calls begun. -/
def stopCodes (w : World) : List Code := w.stopCalls.map (·.2)

end World

/-- What a relay to handlers with distinct threads gives the handler of thread `i`. -/
private theorem relay_notices {β : Type} (f : β → Nat) {l : List β} (hl : (l.map f).Nodup) (n : Notice) (i : Nat) :
    ((l.map fun h => (f h, n)).filter (·.1 == i)).map (·.2) = if i ∈ l.map f then [n] else [] := by
  induction l with
  | nil => simp
  | cons h l ih =>
    rw [List.map_cons, List.nodup_cons] at hl
    by_cases hi : f h = i
    · rw [hi] at hl
      simp [List.filter_cons, ih hl.2, hi, hl.1]
    · simp [List.filter_cons, ih hl.2, hi, Ne.symm hi]

/-- The pcs of `start` before it reports. -/
def Pc.isStart : Pc → Bool
  | .startCheck | .startClear | .startArmStops | .startArmMessages | .startReply => true
  | _ => false

/-- The pcs of a registration. -/
def Pc.registers : Pc → Bool
  | .subscribeStop | .subscribe _ | .subscribed => true
  | _ => false

/-- The registrations. -/
def Call.registers : Call → Bool
  | .subscribeStop | .subscribe _ => true
  | _ => false

/-- A step off the steps of `start` and of the registrations stays off them. -/
theorem Thread.next_classes {th : Thread} {w : World} {i : Nat} {c : Change} (hn : th.next w i = some c)
    (hs : th.pc.isStart = false) (hr : th.pc.registers = false) : c.pc.isStart = false ∧ c.pc.registers = false := by
  obtain ⟨call, pc⟩ := th
  cases pc <;> simp only [Thread.next] at hn <;> (repeat' split at hn) <;> cases hn <;>
    simp_all [Pc.isStart, Pc.registers]

/-- A step sends notices only to registered handlers, and to the registration it answers at once. -/
theorem Thread.next_notices {th : Thread} {w : World} {i : Nat} {c : Change} (hn : th.next w i = some c) :
    ∀ n ∈ c.notices, n.1 ∈ w.stopSubscriber.handlers ∨ (∃ t, (n.1, t) ∈ w.messageSubscriber.handlers) ∨
      n.1 = i ∧ th.pc.registers = true := by
  unfold Thread.next at hn
  split at hn <;> (repeat' split at hn) <;> cases hn <;>
    simp only [World.move_notices, List.not_mem_nil, false_implies, implies_true]
  all_goals simp only [List.mem_map, List.mem_filter, Subscriber.relay_fst, List.mem_singleton]
  -- the handlers of a dispatch or the broadcast, those of the relay, and a registration answered at once
  all_goals first
    | rintro _ ⟨⟨_, t⟩, ⟨hm, -⟩, rfl⟩; exact .inr (.inl ⟨t, hm⟩)
    | rintro _ ⟨⟨_, t⟩, hm, rfl⟩; exact .inr (.inl ⟨t, hm⟩)
    | rintro _ ⟨_, hm, rfl⟩; exact .inl hm
    | rintro _ rfl; exact .inr (.inr ⟨rfl, by simp [Pc.registers, *]⟩)

/-- Once both subscribers are stopped and empty, a step sends `channel_stopped` only. -/
theorem Thread.next_notices_of_closed {th : Thread} {w : World} {i : Nat} {c : Change}
    (hs : w.stopSubscriber.stopped = true) (hsh : w.stopSubscriber.handlers = [])
    (hm : w.messageSubscriber.stopped = true) (hmh : w.messageSubscriber.handlers = [])
    (hn : th.next w i = some c) : ∀ n ∈ c.notices, n.2 = .code .channelStopped := by
  obtain ⟨call, pc⟩ := th
  cases pc <;> simp only [Thread.next] at hn <;> (repeat' split at hn) <;> cases hn <;>
    simp [Subscriber.subscribe, Subscriber.relay, hs, hsh, hm, hmh] at *

namespace World

/-- What a stop past a phase has made the subscribers do: its code is a stop's; past `message_subscriber_.stop()`
the message subscriber is stopped; past the broadcast it has no handler; past `stop_subscriber_->stop()` the stop
subscriber is stopped. -/
def PhaseOk (w : World) : Pc → Prop
  | .stopMessages ec => ec ∈ w.stopCodes
  | .broadcast ec => ec ∈ w.stopCodes ∧ w.messageSubscriber.stopped = true
  | .stopStops ec => ec ∈ w.stopCodes ∧ w.messageSubscriber.stopped = true ∧ w.messageSubscriber.handlers = []
  | .relay ec =>
    ec ∈ w.stopCodes ∧ w.messageSubscriber.stopped = true ∧ w.messageSubscriber.handlers = [] ∧
      w.stopSubscriber.stopped = true
  | _ => True

/-- A step of a thread moves it from one phase to the next. -/
theorem PhaseOk.next {w : World} {th : Thread} {i : Nat} {c : Change} (hph : w.PhaseOk th.pc) (hn : th.next w i = some c) :
    (w.perform i th c).PhaseOk c.pc := by
  obtain ⟨call, pc⟩ := th
  cases pc <;> simp only [Thread.next] at hn <;> (repeat' split at hn) <;> cases hn <;>
    first | trivial | simp_all [PhaseOk, stopCodes]

/-- What thread `i`'s call and pc tell about the world, on a proxy started once.  A registration has, before its
step, no notice and no entry.  After it a stop handler is registered and has had no notice, or is no longer
registered and has had one, with a stop's code; a message handler has had messages and, once it is no longer
registered, `channel_stopped`.  A registration answered at once has had `channel_stopped` only.  Every other
thread is off the steps of `start` and of the registrations, and a stop's phase holds. -/
def ThreadOk (w : World) (i : Nat) (th : Thread) : Prop :=
  match th.call, th.pc with
  | .subscribeStop, .subscribeStop => w.noticesOf i = [] ∧ i ∉ w.stopSubscriber.handlers
  | .subscribeStop, .subscribed =>
    i ∈ w.stopSubscriber.handlers ∧ w.noticesOf i = [] ∨
      i ∉ w.stopSubscriber.handlers ∧ ∃ ec ∈ w.stopCodes, w.noticesOf i = [.code ec]
  | .subscribeStop, .done => i ∉ w.stopSubscriber.handlers ∧ w.noticesOf i = [.code .channelStopped]
  | .subscribe type, .subscribe type' =>
    type' = type ∧ w.noticesOf i = [] ∧ i ∉ w.messageSubscriber.handlers.map Prod.fst
  | .subscribe type, .subscribed => ∃ types : List Nat,
    (i, type) ∈ w.messageSubscriber.handlers ∧ w.noticesOf i = types.map .message ∨
      i ∉ w.messageSubscriber.handlers.map Prod.fst ∧
        w.noticesOf i = types.map .message ++ [.code .channelStopped]
  | .subscribe _, .done =>
    i ∉ w.messageSubscriber.handlers.map Prod.fst ∧ w.noticesOf i = [.code .channelStopped]
  | .subscribeStop, _ | .subscribe _, _ => False
  | _, pc => pc.isStart = false ∧ pc.registers = false ∧ w.PhaseOk pc

/-- The invariant of a proxy started once: every thread is where its call allows; the subscribers hold distinct
handlers, each of a registration that returned; every notice is to a thread; and after a stop returned both
subscribers are stopped and empty. -/
structure HandlersOk (w : World) : Prop where
  threads : ∀ i th, w.threads[i]? = some th → w.ThreadOk i th
  stopRegistered : ∀ h ∈ w.stopSubscriber.handlers,
    ∃ th, w.threads[h]? = some th ∧ th.call = .subscribeStop ∧ th.pc = .subscribed
  messageRegistered : ∀ h ∈ w.messageSubscriber.handlers,
    ∃ th, w.threads[h.1]? = some th ∧ th.call = .subscribe h.2 ∧ th.pc = .subscribed
  stopNodup : w.stopSubscriber.handlers.Nodup
  messageNodup : (w.messageSubscriber.handlers.map Prod.fst).Nodup
  bound : ∀ n ∈ w.notices, n.1 < w.threads.length
  returned : w.stopReturns ≠ [] → w.stopSubscriber.stopped = true ∧ w.stopSubscriber.handlers = [] ∧
    w.messageSubscriber.stopped = true ∧ w.messageSubscriber.handlers = []

theorem handlersOk_running : running.HandlersOk where
  threads i th h := by
    match i with
    | 0 => cases h; exact ⟨rfl, rfl, trivial⟩
    | _ + 1 => cases h
  stopRegistered := nofun
  messageRegistered := nofun
  stopNodup := List.nodup_nil
  messageNodup := List.nodup_nil
  bound := nofun
  returned h := absurd rfl h

/-- What a step leaves of the part of the world that thread `i`'s invariant reads: `i`'s notices and entries, and
what the stops have done, which a proxy started once never undoes. -/
structure Keeps (w w' : World) (i : Nat) : Prop where
  notices : w'.noticesOf i = w.noticesOf i
  stopMem : i ∈ w'.stopSubscriber.handlers ↔ i ∈ w.stopSubscriber.handlers
  messageMem : ∀ type, (i, type) ∈ w'.messageSubscriber.handlers ↔ (i, type) ∈ w.messageSubscriber.handlers
  codes : ∀ ec ∈ w.stopCodes, ec ∈ w'.stopCodes
  messagesStopped : w.messageSubscriber.stopped = true → w'.messageSubscriber.stopped = true
  messagesEmpty : w.messageSubscriber.stopped = true → w.messageSubscriber.handlers = [] →
    w'.messageSubscriber.handlers = []
  stopsStopped : w.stopSubscriber.stopped = true → w'.stopSubscriber.stopped = true

theorem PhaseOk.keep {w w' : World} {i : Nat} (hk : Keeps w w' i) {pc : Pc} (h : w.PhaseOk pc) : w'.PhaseOk pc := by
  cases pc <;> simp only [PhaseOk] at h ⊢
  case stopMessages ec => exact hk.codes _ h
  case broadcast ec => exact ⟨hk.codes _ h.1, hk.messagesStopped h.2⟩
  case stopStops ec => exact ⟨hk.codes _ h.1, hk.messagesStopped h.2.1, hk.messagesEmpty h.2.1 h.2.2⟩
  case relay ec =>
    exact ⟨hk.codes _ h.1, hk.messagesStopped h.2.1, hk.messagesEmpty h.2.1 h.2.2.1, hk.stopsStopped h.2.2.2⟩

theorem Keeps.fst {w w' : World} {i : Nat} (hk : Keeps w w' i) :
    i ∈ w'.messageSubscriber.handlers.map Prod.fst ↔ i ∈ w.messageSubscriber.handlers.map Prod.fst := by
  simp only [List.mem_map, Prod.exists, exists_and_right, exists_eq_right]
  exact exists_congr hk.messageMem

theorem ThreadOk.keep {w w' : World} {i : Nat} {th : Thread} (h : w.ThreadOk i th) (hk : Keeps w w' i) :
    w'.ThreadOk i th := by
  unfold ThreadOk at h ⊢
  simp only [hk.notices, hk.stopMem, hk.messageMem, hk.fst]
  split at h
  next hc hp => simpa only [hc, hp] using h
  next hc hp =>
    try simp only [hc, hp]
    exact h.imp id fun h => ⟨h.1, h.2.imp fun ec hec => ⟨hk.codes _ hec.1, hec.2⟩⟩
  next hc hp => simpa only [hc, hp] using h
  next hc hp => simpa only [hc, hp] using h
  next hc hp => simpa only [hc, hp] using h
  next hc hp => simpa only [hc, hp] using h
  next => exact h.elim
  next => exact h.elim
  next => exact ⟨h.1, h.2.1, PhaseOk.keep hk h.2.2⟩

theorem Keeps.of_eq (w w' : World) (hn : w'.notices = w.notices) (hm : w'.messageSubscriber = w.messageSubscriber)
    (hs : w'.stopSubscriber = w.stopSubscriber) (hc : w'.stopCalls = w.stopCalls) (i : Nat) : Keeps w w' i where
  notices := by unfold noticesOf; rw [hn]
  stopMem := by rw [hs]
  messageMem _ := by rw [hm]
  codes _ h := by unfold stopCodes at h ⊢; rwa [hc]
  messagesStopped h := by rwa [hm]
  messagesEmpty _ h := by rwa [hm]
  stopsStopped h := by rwa [hs]

theorem noticesOf_of_bound {w : World} {k : Nat} (h : ∀ n ∈ w.notices, n.1 < k) : w.noticesOf k = [] := by
  simp only [noticesOf, List.map_eq_nil_iff, List.filter_eq_nil_iff, beq_iff_eq]
  exact fun n hn heq => absurd (h n hn) (by omega)

variable {w w' : World}

/-- A new thread: a call, or the handler of a completed read.  Its registration, if it is one, has no notice and
no entry yet. -/
theorem HandlersOk.push (h : w.HandlersOk) {th : Thread} (hnew : w.ThreadOk w.threads.length th) :
    { w with threads := w.threads ++ [th] }.HandlersOk where
  threads i th' hth := by
    by_cases hlt : i < w.threads.length
    · rw [List.getElem?_append_left hlt] at hth
      exact (h.threads i th' hth).keep (Keeps.of_eq w { w with threads := w.threads ++ [th] } rfl rfl rfl rfl i)
    · rw [List.getElem?_append_right (Nat.not_lt.1 hlt)] at hth
      have hi : i = w.threads.length := by
        have := (List.getElem?_eq_some_iff.1 hth).1
        simp only [List.length_singleton] at this
        omega
      subst hi
      simp only [Nat.sub_self, List.getElem?_cons_zero, Option.some.injEq] at hth
      subst hth
      exact hnew.keep (Keeps.of_eq w { w with threads := w.threads ++ [th] } rfl rfl rfl rfl _)
  stopRegistered hh hmem := by
    obtain ⟨th', hth', hc⟩ := h.stopRegistered hh hmem
    exact ⟨th', List.getElem?_append_left (List.getElem?_eq_some_iff.1 hth').1 ▸ hth', hc⟩
  messageRegistered hh hmem := by
    obtain ⟨th', hth', hc⟩ := h.messageRegistered hh hmem
    exact ⟨th', List.getElem?_append_left (List.getElem?_eq_some_iff.1 hth').1 ▸ hth', hc⟩
  stopNodup := h.stopNodup
  messageNodup := h.messageNodup
  bound n hn := by simpa using Nat.lt_succ_of_lt (h.bound n hn)
  returned := h.returned

theorem ThreadOk.of_call {i : Nat} {t : Thread} (hc : t.call.registers = false) :
    w.ThreadOk i t ↔ t.pc.isStart = false ∧ t.pc.registers = false ∧ w.PhaseOk t.pc := by
  obtain ⟨call, pc⟩ := t
  cases call <;> simp only [Call.registers, Bool.true_eq_false] at hc <;> exact Iff.rfl

theorem ThreadOk.not_isStart {i : Nat} {th : Thread} (h : w.ThreadOk i th) : th.pc.isStart = false := by
  cases hc : th.call.registers
  · exact ((ThreadOk.of_call hc).1 h).1
  -- a registration's invariant is `False` at the pcs of `start`
  · obtain ⟨call, pc⟩ := th
    cases pc <;> first | rfl | cases call <;> first | exact False.elim h | cases hc

/-- A step keeps thread `i`'s part of the world when it sends `i` no notice, leaves `i`'s entries alone, empties
the message subscriber only once it is stopped, and never restarts a subscriber. -/
theorem Keeps.perform {j : Nat} {thj : Thread} {c : Change} {i : Nat} (hn : ∀ n ∈ c.notices, n.1 ≠ i)
    (hs : i ∈ c.stopSubscriber.handlers ↔ i ∈ w.stopSubscriber.handlers)
    (hm : ∀ type, (i, type) ∈ c.messageSubscriber.handlers ↔ (i, type) ∈ w.messageSubscriber.handlers)
    (hms : w.messageSubscriber.stopped = true → c.messageSubscriber.stopped = true)
    (hme : w.messageSubscriber.stopped = true → w.messageSubscriber.handlers = [] →
      c.messageSubscriber.handlers = [])
    (hss : w.stopSubscriber.stopped = true → c.stopSubscriber.stopped = true) :
    Keeps w (w.perform j thj c) i where
  notices := by
    simp only [noticesOf, perform_notices, List.filter_append, List.map_append, List.append_right_eq_self,
      List.map_eq_nil_iff, List.filter_eq_nil_iff, beq_iff_eq]
    exact hn
  stopMem := hs
  messageMem := hm
  codes _ h := by simp only [stopCodes, perform_stopCalls, List.map_append, List.mem_append] at h ⊢; exact .inl h
  messagesStopped := hms
  messagesEmpty := hme
  stopsStopped := hss

section Advance

variable {j : Nat} {thj : Thread} {c : Change}

/-- A thread that is not at a registration's pcs, nor returned, is not a registration. -/
theorem ThreadOk.call_registers {i : Nat} {th : Thread} (h : w.ThreadOk i th) (hr : th.pc.registers = false)
    (hd : th.pc ≠ .done) : th.call.registers = false := by
  -- a registration's invariant is `False` off its own pcs
  obtain ⟨call, pc⟩ := th
  cases call <;> first | rfl | cases pc <;> first | exact False.elim h | exact absurd rfl hd | cases hr

/-- The invariant after a step of thread `j`, from what the step does to `j`, to the other threads and to the
subscribers. -/
theorem HandlersOk.perform (h : w.HandlersOk) (hth : w.threads[j]? = some thj) (hpc : thj.pc ≠ .subscribed)
    (hj : (w.perform j thj c).ThreadOk j { thj with pc := c.pc })
    (hothers : ∀ i th, i ≠ j → w.threads[i]? = some th → (w.perform j thj c).ThreadOk i th)
    (hstop : ∀ hh ∈ c.stopSubscriber.handlers, hh ∈ w.stopSubscriber.handlers ∨
      hh = j ∧ thj.call = .subscribeStop ∧ c.pc = .subscribed)
    (hmsg : ∀ hh ∈ c.messageSubscriber.handlers, hh ∈ w.messageSubscriber.handlers ∨
      hh.1 = j ∧ thj.call = .subscribe hh.2 ∧ c.pc = .subscribed)
    (hstopNodup : c.stopSubscriber.handlers.Nodup)
    (hmsgNodup : (c.messageSubscriber.handlers.map Prod.fst).Nodup)
    (hbound : ∀ n ∈ c.notices, n.1 < w.threads.length)
    (hret : (w.perform j thj c).stopReturns ≠ [] → c.stopSubscriber.stopped = true ∧
      c.stopSubscriber.handlers = [] ∧ c.messageSubscriber.stopped = true ∧ c.messageSubscriber.handlers = []) :
    (w.perform j thj c).HandlersOk := by
  have hlt : j < w.threads.length := (List.getElem?_eq_some_iff.1 hth).1
  have hget : ∀ i, (w.perform j thj c).threads[i]? = if i = j then some { thj with pc := c.pc }
      else w.threads[i]? := by
    intro i
    by_cases hij : i = j
    · subst hij; simp [List.getElem?_set_self hlt]
    · simp [List.getElem?_set_ne (Ne.symm hij), hij]
  have hne : ∀ hh th, w.threads[hh]? = some th → th.pc = .subscribed → hh ≠ j := by
    rintro hh th hh' hsub rfl
    rw [hth] at hh'
    cases hh'
    exact hpc hsub
  refine ⟨fun i th hi => ?_, fun hh hmem => ?_, fun hh hmem => ?_, hstopNodup, hmsgNodup, ?_, hret⟩
  · rw [hget] at hi
    split at hi
    · cases hi; subst i; exact hj
    · exact hothers i th (by assumption) hi
  · rcases hstop hh hmem with hold | ⟨rfl, hcall, hsub⟩
    · obtain ⟨th, hth', hcall, hsub⟩ := h.stopRegistered hh hold
      exact ⟨th, by rw [hget, if_neg (hne hh th hth' hsub)]; exact hth', hcall, hsub⟩
    · exact ⟨{ thj with pc := c.pc }, by rw [hget, if_pos rfl], hcall, hsub⟩
  · rcases hmsg hh hmem with hold | ⟨hfst, hcall, hsub⟩
    · obtain ⟨th, hth', hcall, hsub⟩ := h.messageRegistered hh hold
      exact ⟨th, by rw [hget, if_neg (hne hh.1 th hth' hsub)]; exact hth', hcall, hsub⟩
    · exact ⟨{ thj with pc := c.pc }, by rw [hget, if_pos hfst], hcall, hsub⟩
  · intro n hn
    simp only [perform_notices, List.mem_append, perform_threads, List.length_set] at hn ⊢
    exact hn.elim (h.bound n) (hbound n)

/-- A step that leaves the handlers and the notices alone, and only sets the subscribers' stopped flags, by a
thread that is not a registration. -/
theorem HandlersOk.perform_quiet (h : w.HandlersOk) (hth : w.threads[j]? = some thj)
    (hcall : thj.call.registers = false) (hj : (w.perform j thj c).ThreadOk j { thj with pc := c.pc })
    (hn : c.notices = []) (hs : c.stopSubscriber.handlers = w.stopSubscriber.handlers)
    (hm : c.messageSubscriber.handlers = w.messageSubscriber.handlers)
    (hms : w.messageSubscriber.stopped = true → c.messageSubscriber.stopped = true)
    (hss : w.stopSubscriber.stopped = true → c.stopSubscriber.stopped = true) (hr : c.stopReturn = false) :
    (w.perform j thj c).HandlersOk := by
  have hpc : thj.pc ≠ .subscribed := by
    intro hsub
    have := ((ThreadOk.of_call hcall).1 (h.threads j thj hth)).2.1
    rw [hsub] at this
    cases this
  refine h.perform hth hpc hj
    (fun i th _ hi => (h.threads i th hi).keep
      (Keeps.perform (by simp [hn]) (by rw [hs]) (by simp [hm]) hms (fun _ h => hm ▸ h) hss))
    (fun hh hmem => .inl (hs ▸ hmem)) (fun hh hmem => .inl (hm ▸ hmem)) (hs ▸ h.stopNodup)
    (hm ▸ h.messageNodup) (by simp [hn]) (fun hne => ?_)
  simp only [perform_stopReturns, hr, Bool.false_eq_true, ite_false, List.append_nil] at hne
  obtain ⟨h1, h2, h3, h4⟩ := h.returned hne
  exact ⟨hss h1, hs ▸ h2, hms h3, hm ▸ h4⟩

@[simp] theorem noticesOf_perform (i : Nat) :
    (w.perform j thj c).noticesOf i = w.noticesOf i ++ (c.notices.filter (·.1 == i)).map (·.2) := by
  simp [noticesOf, List.filter_append]

/-- A registered stop handler's thread is its registration, returned, and the handler has had no notice. -/
theorem HandlersOk.stopHandler (h : w.HandlersOk) {i : Nat} (hi : i ∈ w.stopSubscriber.handlers) :
    w.threads[i]? = some ⟨.subscribeStop, .subscribed⟩ ∧ w.noticesOf i = [] := by
  obtain ⟨⟨call, pc⟩, hth, rfl, rfl⟩ := h.stopRegistered i hi
  rcases h.threads i _ hth with ⟨-, hn⟩ | ⟨hn, -⟩
  · exact ⟨hth, hn⟩
  · exact absurd hi hn

/-- A registered message handler's thread is its registration, returned, and the handler has had messages
only. -/
theorem HandlersOk.messageHandler (h : w.HandlersOk) {i type : Nat} (hi : (i, type) ∈ w.messageSubscriber.handlers) :
    w.threads[i]? = some ⟨.subscribe type, .subscribed⟩ ∧ ∃ types : List Nat, w.noticesOf i = types.map .message := by
  obtain ⟨⟨call, pc⟩, hth, rfl, rfl⟩ := h.messageRegistered _ hi
  obtain ⟨types, ⟨-, hn⟩ | ⟨hn, -⟩⟩ := h.threads i _ hth
  · exact ⟨hth, types, hn⟩
  · exact absurd (List.mem_map_of_mem Prod.fst hi) hn

theorem HandlersOk.stop_lt (h : w.HandlersOk) {i : Nat} (hi : i ∈ w.stopSubscriber.handlers) :
    i < w.threads.length :=
  (List.getElem?_eq_some_iff.1 (h.stopHandler hi).1).1

theorem HandlersOk.message_lt (h : w.HandlersOk) {hh : Nat × Nat} (hi : hh ∈ w.messageSubscriber.handlers) :
    hh.1 < w.threads.length :=
  (List.getElem?_eq_some_iff.1 (h.messageHandler hi).1).1

/-- `message_subscriber_.load` delivers the message to the handlers of its type, which stay registered. -/
theorem HandlersOk.advance_dispatch (h : w.HandlersOk) (hth : w.threads[j]? = some thj) {type : Nat}
    {after : Option Code} (hpc : thj.pc = .dispatch type after) (hn : thj.next w j = some c)
    (hj : (w.perform j thj c).ThreadOk j { thj with pc := c.pc }) : (w.perform j thj c).HandlersOk := by
  simp only [Thread.next, hpc] at hn
  cases hn
  have hnodup := h.messageNodup.sublist
    ((List.filter_sublist (p := (·.2 == type)) w.messageSubscriber.handlers).map Prod.fst)
  refine h.perform hth (by simp [hpc]) hj (fun i th _ hi => ?_) (fun hh hmem => .inl hmem)
    (fun hh hmem => .inl hmem) h.stopNodup h.messageNodup ?_ (fun hr => h.returned (by simpa using hr))
  · by_cases hreg : ∃ t, (i, t) ∈ w.messageSubscriber.handlers
    · obtain ⟨t, ht⟩ := hreg
      obtain ⟨hth', types, htypes⟩ := h.messageHandler ht
      rw [hth'] at hi
      cases hi
      refine ⟨types ++ if i ∈ (w.messageSubscriber.handlers.filter (·.2 == type)).map Prod.fst then [type] else [],
        .inl ⟨ht, ?_⟩⟩
      rw [noticesOf_perform, htypes, relay_notices Prod.fst hnodup]
      split <;> simp
    · refine (h.threads i th hi).keep (Keeps.perform ?_ Iff.rfl (fun _ => Iff.rfl) id (fun _ h => h) id)
      simp only [List.mem_map, List.mem_filter]
      rintro _ ⟨⟨i', t⟩, ⟨hmem, -⟩, rfl⟩ rfl
      exact hreg ⟨t, hmem⟩
  · simp only [List.mem_map, List.mem_filter]
    rintro _ ⟨hh, ⟨hmem, -⟩, rfl⟩
    exact h.message_lt hmem

/-- `message_subscriber_.broadcast(error::channel_stopped)` on the stopped message subscriber: every handler is
invoked with `channel_stopped` and discarded. -/
theorem HandlersOk.advance_broadcast (h : w.HandlersOk) (hth : w.threads[j]? = some thj) {ec : Code}
    (hpc : thj.pc = .broadcast ec) (hn : thj.next w j = some c)
    (hj : (w.perform j thj c).ThreadOk j { thj with pc := c.pc }) : (w.perform j thj c).HandlersOk := by
  simp only [Thread.next, hpc] at hn
  cases hn
  refine h.perform hth (by simp [hpc]) hj (fun i th _ hi => ?_) (fun hh hmem => .inl hmem)
    (fun hh hmem => by simp [Subscriber.relay] at hmem) h.stopNodup (by simp [Subscriber.relay]) ?_ (fun hr => ?_)
  · by_cases hreg : ∃ t, (i, t) ∈ w.messageSubscriber.handlers
    · obtain ⟨t, ht⟩ := hreg
      obtain ⟨hth', types, htypes⟩ := h.messageHandler ht
      rw [hth'] at hi
      cases hi
      refine ⟨types, .inr ⟨by simp [Subscriber.relay], ?_⟩⟩
      rw [noticesOf_perform, Subscriber.relay_fst, htypes, relay_notices Prod.fst h.messageNodup,
        if_pos (List.mem_map_of_mem Prod.fst ht)]
    · refine (h.threads i th hi).keep (Keeps.perform ?_ Iff.rfl (fun t => ?_) id (fun _ _ => rfl) id)
      · simp only [Subscriber.relay, List.mem_map]
        rintro _ ⟨⟨i', t⟩, hmem, rfl⟩ rfl
        exact hreg ⟨t, hmem⟩
      · simp only [Subscriber.relay, List.not_mem_nil, false_iff]
        exact fun hmem => hreg ⟨t, hmem⟩
  · simp only [Subscriber.relay, List.mem_map]
    rintro _ ⟨hh, hmem, rfl⟩
    exact h.message_lt hmem
  · obtain ⟨h1, h2, h3, -⟩ := h.returned (by simpa using hr)
    exact ⟨h1, h2, h3, rfl⟩

/-- `stop_subscriber_->relay(ec)` on the stopped stop subscriber: every handler is invoked with the stop's code
and discarded, and the stop returns. -/
theorem HandlersOk.advance_relay (h : w.HandlersOk) (hth : w.threads[j]? = some thj) {ec : Code}
    (hpc : thj.pc = .relay ec) (hn : thj.next w j = some c)
    (hj : (w.perform j thj c).ThreadOk j { thj with pc := c.pc }) (hph : w.PhaseOk (.relay ec)) :
    (w.perform j thj c).HandlersOk := by
  simp only [Thread.next, hpc] at hn
  cases hn
  obtain ⟨hec, hms, hmh, hss⟩ := hph
  have hnodup : (w.stopSubscriber.relay.1.map fun h => h).Nodup := by simpa [Subscriber.relay] using h.stopNodup
  refine h.perform hth (by simp [hpc]) hj (fun i th _ hi => ?_) (fun hh hmem => by simp [Subscriber.relay] at hmem)
    (fun hh hmem => .inl hmem) (by simp [Subscriber.relay]) h.messageNodup ?_ (fun _ => ⟨hss, rfl, hms, hmh⟩)
  · by_cases hreg : i ∈ w.stopSubscriber.handlers
    · obtain ⟨hth', hnil⟩ := h.stopHandler hreg
      rw [hth'] at hi
      cases hi
      refine .inr ⟨by simp [Subscriber.relay], ec, by simpa [stopCodes] using hec, ?_⟩
      rw [noticesOf_perform, hnil, relay_notices (fun h => h) hnodup]
      simp [Subscriber.relay, hreg]
    · refine (h.threads i th hi).keep (Keeps.perform ?_ (by simp [Subscriber.relay, hreg]) (fun _ => Iff.rfl) id
        (fun _ h => h) id)
      simp only [Subscriber.relay, List.mem_map]
      rintro _ ⟨i', hmem, rfl⟩ rfl
      exact hreg hmem
  · simp only [Subscriber.relay, List.mem_map]
    rintro _ ⟨hh, hmem, rfl⟩
    exact h.stop_lt hmem

/-- `subscribe_stop`: registered while the stop subscriber runs, answered at once with `channel_stopped` once it
is stopped. -/
theorem HandlersOk.advance_subscribeStop (h : w.HandlersOk)
    (hth : w.threads[j]? = some ⟨.subscribeStop, .subscribeStop⟩)
    (hn : Thread.next ⟨.subscribeStop, .subscribeStop⟩ w j = some c) :
    (w.perform j ⟨.subscribeStop, .subscribeStop⟩ c).HandlersOk := by
  obtain ⟨hnil, hout⟩ := h.threads j _ hth
  have hlt : j < w.threads.length := (List.getElem?_eq_some_iff.1 hth).1
  simp only [Thread.next, Subscriber.subscribe] at hn
  by_cases hst : w.stopSubscriber.stopped = true
  · simp only [hst, if_true] at hn
    cases hn
    refine h.perform hth (by simp) ⟨hout, by simp [hnil]⟩ (fun i th hij hi => (h.threads i th hi).keep
      (Keeps.perform (by simpa using Ne.symm hij) Iff.rfl (fun _ => Iff.rfl) id (fun _ h => h) id))
      (fun hh hmem => .inl hmem) (fun hh hmem => .inl hmem) h.stopNodup h.messageNodup (by simpa using hlt)
      (fun hr => h.returned (by simpa using hr))
  · simp only [hst, if_false] at hn
    cases hn
    refine h.perform hth (by simp) (.inl ⟨by simp, by simp [hnil]⟩) (fun i th hij hi => (h.threads i th hi).keep
      (Keeps.perform (by simp) (by simp [hij]) (fun _ => Iff.rfl) id (fun _ h => h) (fun h => absurd h hst)))
      (fun hh hmem => ?_) (fun hh hmem => .inl hmem)
      (h.stopNodup.append (List.nodup_singleton j) (List.disjoint_singleton.2 hout)) h.messageNodup (by simp)
      (fun hr => absurd (h.returned (by simpa using hr)).1 hst)
    rcases List.mem_append.1 hmem with hmem | hmem
    · exact .inl hmem
    · exact .inr ⟨List.mem_singleton.1 hmem, rfl, rfl⟩

/-- `subscribe<Message>`: registered while the message subscriber runs, answered at once with `channel_stopped`
once it is stopped. -/
theorem HandlersOk.advance_subscribe (h : w.HandlersOk) {type : Nat}
    (hth : w.threads[j]? = some ⟨.subscribe type, .subscribe type⟩)
    (hn : Thread.next ⟨.subscribe type, .subscribe type⟩ w j = some c) :
    (w.perform j ⟨.subscribe type, .subscribe type⟩ c).HandlersOk := by
  obtain ⟨-, hnil, hout⟩ := h.threads j _ hth
  have hlt : j < w.threads.length := (List.getElem?_eq_some_iff.1 hth).1
  simp only [Thread.next, Subscriber.subscribe] at hn
  by_cases hst : w.messageSubscriber.stopped = true
  · simp only [hst, if_true] at hn
    cases hn
    refine h.perform hth (by simp) ⟨hout, by simp [hnil]⟩ (fun i th hij hi => (h.threads i th hi).keep
      (Keeps.perform (by simpa using Ne.symm hij) Iff.rfl (fun _ => Iff.rfl) id (fun _ h => h) id))
      (fun hh hmem => .inl hmem) (fun hh hmem => .inl hmem) h.stopNodup h.messageNodup (by simpa using hlt)
      (fun hr => h.returned (by simpa using hr))
  · simp only [hst, if_false] at hn
    cases hn
    refine h.perform hth (by simp) ⟨[], .inl ⟨by simp, by simp [hnil]⟩⟩ (fun i th hij hi => (h.threads i th hi).keep
      (Keeps.perform (by simp) Iff.rfl (fun _ => by simp [hij]) (fun h => absurd h hst) (fun h => absurd h hst) id))
      (fun hh hmem => .inl hmem) (fun hh hmem => ?_) h.stopNodup
      (by simpa using h.messageNodup.append (List.nodup_singleton j) (List.disjoint_singleton.2 hout)) (by simp)
      (fun hr => absurd (h.returned (by simpa using hr)).2.2.1 hst)
    rcases List.mem_append.1 hmem with hmem | hmem
    · exact .inl hmem
    · obtain rfl := List.mem_singleton.1 hmem
      exact .inr ⟨rfl, rfl, rfl⟩

theorem ThreadOk.call_of_subscribeStop {i : Nat} {call : Call} (h : w.ThreadOk i ⟨call, .subscribeStop⟩) :
    call = .subscribeStop := by
  cases call <;> simp_all [ThreadOk, Pc.registers]

theorem ThreadOk.call_of_subscribe {i type : Nat} {call : Call} (h : w.ThreadOk i ⟨call, .subscribe type⟩) :
    call = .subscribe type := by
  cases call <;> simp_all [ThreadOk, Pc.registers]

/-- The thread itself after a step, when it is not a registration. -/
theorem HandlersOk.threadOk_next (h : w.HandlersOk) (hth : w.threads[j]? = some thj)
    (hcall : thj.call.registers = false) (hn : thj.next w j = some c) :
    (w.perform j thj c).ThreadOk j { thj with pc := c.pc } := by
  obtain ⟨hst, hreg, hph⟩ := (ThreadOk.of_call hcall).1 (h.threads j thj hth)
  have hcls := Thread.next_classes hn hst hreg
  exact (ThreadOk.of_call (t := { thj with pc := c.pc }) hcall).2 ⟨hcls.1, hcls.2, hph.next hn⟩

/-- Every step of a thread keeps the invariant. -/
theorem HandlersOk.advance (h : w.HandlersOk) (hth : w.threads[j]? = some thj) (hn : thj.next w j = some c) :
    (w.perform j thj c).HandlersOk := by
  have hok := h.threads j thj hth
  obtain ⟨call, pc⟩ := thj
  cases pc with
  | subscribeStop =>
    obtain rfl := hok.call_of_subscribeStop
    exact h.advance_subscribeStop hth hn
  | subscribe type =>
    obtain rfl := hok.call_of_subscribe
    exact h.advance_subscribe hth hn
  | subscribed | done => simp [Thread.next] at hn
  | startCheck | startClear | startArmStops | startArmMessages | startReply =>
    simpa [Pc.isStart] using hok.not_isStart
  | dispatch => exact h.advance_dispatch hth rfl hn (h.threadOk_next hth (hok.call_registers rfl (by simp)) hn)
  | broadcast => exact h.advance_broadcast hth rfl hn (h.threadOk_next hth (hok.call_registers rfl (by simp)) hn)
  | relay ec =>
    have hcall := hok.call_registers rfl (by simp)
    exact h.advance_relay hth rfl hn (h.threadOk_next hth hcall hn) ((ThreadOk.of_call hcall).1 hok).2.2
  | readCheck _ | readIssue _ | handlerCheck _ | stopSet _ | stopMessages _ | stopStops _ | sendCheck _
  | sendWrite _ =>
    have hcall := hok.call_registers rfl (by simp)
    have hj := h.threadOk_next hth hcall hn
    simp only [Thread.next] at hn
    (try split at hn) <;> cases hn <;> exact h.perform_quiet hth hcall hj rfl rfl rfl (by simp) (by simp) rfl

/-- A new call: the thread it runs on is where the invariant allows. -/
theorem HandlersOk.invoke (h : w.HandlersOk) {call : Call} (hc : call ≠ .start) :
    w.ThreadOk w.threads.length ⟨call, call.entry⟩ := by
  have hnil := noticesOf_of_bound h.bound
  cases call with
  | start => exact absurd rfl hc
  | subscribeStop => exact ⟨hnil, fun hi => by simpa using (h.stopHandler hi).1⟩
  | subscribe type =>
    refine ⟨rfl, hnil, fun hi => ?_⟩
    obtain ⟨⟨i, t⟩, hmem, rfl⟩ := List.mem_map.1 hi
    simpa using (h.messageHandler hmem).1
  | stop _ | send _ | handler _ _ => exact ⟨rfl, rfl, trivial⟩

/-- The invariant reads only the threads, the notices, the subscribers and the `stop` calls. -/
theorem HandlersOk.congr (h : w.HandlersOk) (ht : w'.threads = w.threads) (hn : w'.notices = w.notices)
    (hm : w'.messageSubscriber = w.messageSubscriber) (hs : w'.stopSubscriber = w.stopSubscriber)
    (hc : w'.stopCalls = w.stopCalls) (hr : w'.stopReturns = w.stopReturns) : w'.HandlersOk where
  threads i th hi := (h.threads i th (ht ▸ hi)).keep (Keeps.of_eq w w' hn hm hs hc i)
  stopRegistered hh hmem := by rw [ht]; exact h.stopRegistered hh (hs ▸ hmem)
  messageRegistered hh hmem := by rw [ht]; exact h.messageRegistered hh (hm ▸ hmem)
  stopNodup := hs ▸ h.stopNodup
  messageNodup := hm ▸ h.messageNodup
  bound n hn' := by rw [ht]; exact h.bound n (hn ▸ hn')
  returned hne := by rw [hs, hm]; exact h.returned (hr ▸ hne)

/-- Every event but a further `start` keeps the invariant. -/
theorem HandlersOk.step (h : w.HandlersOk) {e : Event} (he : e ≠ .invoke .start) (hs : w.step e = some w') :
    w'.HandlersOk := by
  rcases step_cases hs with ⟨call, rfl, -, rfl⟩ | ⟨i, th, c, rfl, hth, hn, rfl⟩ | ⟨k, kind, arrival, rfl, -, -, rfl⟩ |
    ⟨-, -, -, -, -, -, -, -, rfl⟩ | ⟨-, -, -, -, -, -, -, -, rfl⟩ | ⟨-, -, -, -, -, -, rfl⟩
  · exact h.push (h.invoke fun hc => he (congrArg Event.invoke hc))
  · exact h.advance hth hn
  · exact (h.push (h.invoke (show Call.handler kind arrival ≠ .start by simp))).congr rfl rfl rfl rfl rfl rfl
  all_goals exact h.congr rfl rfl rfl rfl rfl rfl

end Advance

/-- Every world of a proxy started once keeps the invariant. -/
theorem StartedOnce.handlersOk (hw : w.StartedOnce) : w.HandlersOk := by
  induction hw with
  | running => exact handlersOk_running
  | step e _ he hs ih => exact ih.step he hs

theorem StartedOnce.of_run (hw : w.StartedOnce) {es : List Event} (hes : ∀ e ∈ es, e ≠ .invoke .start)
    (h : w.run es = some w') : w'.StartedOnce := by
  induction es generalizing w with
  | nil => cases h; exact hw
  | cons e es ih =>
    simp only [run, Option.bind_eq_some] at h
    obtain ⟨w₁, h₁, h₂⟩ := h
    exact ih (.step e hw (hes e (List.mem_cons_self e es)) h₁) (fun e he => hes e (List.mem_cons_of_mem _ he)) h₂

/-- A handler that has been invoked with a code is neither registered nor about to register. -/
theorem HandlersOk.not_registered_of_code (h : w.HandlersOk) {i : Nat} {ec : Code} (hi : .code ec ∈ w.noticesOf i) :
    i ∉ w.stopSubscriber.handlers ∧ (∀ t, (i, t) ∉ w.messageSubscriber.handlers) ∧
      ∀ th, w.threads[i]? = some th → th.pc.registers = true → th.pc = .subscribed := by
  refine ⟨fun hs => by simp [(h.stopHandler hs).2] at hi, fun t hm => ?_, fun th hth hr => ?_⟩
  · obtain ⟨types, htypes⟩ := (h.messageHandler hm).2
    simp [htypes] at hi
  · obtain ⟨call, pc⟩ := th
    have hok := h.threads i _ hth
    cases pc <;> simp only [Pc.registers, reduceCtorEq] at hr ⊢
    · rw [hok.call_of_subscribeStop] at hok
      simp [hok.1] at hi
    · rw [hok.call_of_subscribe] at hok
      simp [hok.2.1] at hi

/-- What the handlers of a proxy started once are invoked with (spec §4.1, and the stop sequence). -/
structure StopDelivery (w : World) : Prop where
  /-- A stop handler is invoked at most once: with the code of a `stop` call, or with `channel_stopped` when its
  registration found the stop subscriber stopped and was answered at once. -/
  stopAtMostOnce : ∀ i th, w.threads[i]? = some th → th.call = .subscribeStop →
    w.noticesOf i = [] ∨ (∃ ec ∈ w.stopCodes, w.noticesOf i = [.code ec]) ∨
      th.pc = .done ∧ w.noticesOf i = [.code .channelStopped]
  /-- A message handler is invoked with messages, then at most once with `channel_stopped`. -/
  messageStoppedLast : ∀ i th type, w.threads[i]? = some th → th.call = .subscribe type →
    ∃ types : List Nat, w.noticesOf i = types.map .message ∨
      w.noticesOf i = types.map .message ++ [.code .channelStopped]
  /-- A handler that has been invoked with a code is never invoked again. -/
  codeLast : ∀ i ec, .code ec ∈ w.noticesOf i → ∀ e w', w.step e = some w' → w'.noticesOf i = w.noticesOf i
  /-- Once a `stop` has returned, every registration that has returned has been invoked exactly once with a
  code: a stop handler with a stop's code, or with `channel_stopped` when it was answered at once; a message
  handler with `channel_stopped`, after its messages. -/
  afterStop : w.stopReturns ≠ [] → ∀ i th, w.threads[i]? = some th → th.pc = .subscribed ∨ th.pc = .done →
    (th.call = .subscribeStop →
      (∃ ec ∈ w.stopCodes, w.noticesOf i = [.code ec]) ∨ th.pc = .done ∧ w.noticesOf i = [.code .channelStopped]) ∧
    ∀ type, th.call = .subscribe type →
      ∃ types : List Nat, w.noticesOf i = types.map .message ++ [.code .channelStopped]
  /-- Once a `stop` has returned, no event delivers a message: all it adds is `channel_stopped`. -/
  quietAfterStop : w.stopReturns ≠ [] → ∀ e w', w.step e = some w' →
    ∃ added, w'.notices = w.notices ++ added ∧ ∀ n ∈ added, n.2 = .code .channelStopped

/-- A step adds notices only by a thread's step, and gives none to a handler that has had a code. -/
theorem HandlersOk.codeLast (h : w.HandlersOk) {i : Nat} {ec : Code} (hi : .code ec ∈ w.noticesOf i) {e : Event}
    (hs : w.step e = some w') : w'.noticesOf i = w.noticesOf i := by
  obtain ⟨hstop, hmsg, hreg⟩ := h.not_registered_of_code hi
  rcases step_cases hs with ⟨_, -, -, rfl⟩ | ⟨j, th, c, -, hth, hn, rfl⟩ | ⟨_, _, _, -, -, -, rfl⟩ |
    ⟨-, -, -, -, -, -, -, -, rfl⟩ | ⟨-, -, -, -, -, -, -, -, rfl⟩ | ⟨-, -, -, -, -, -, rfl⟩
  rotate_left
  · simp only [noticesOf_perform, List.append_right_eq_self, List.map_eq_nil_iff, List.filter_eq_nil_iff, beq_iff_eq]
    intro n hn' hni
    rcases Thread.next_notices hn n hn' with hs | ⟨t, hm⟩ | ⟨hj, hr⟩
    · exact hstop (hni ▸ hs)
    · exact hmsg t (hni ▸ hm)
    · subst hni hj
      simp [Thread.next, hreg th hth hr] at hn
  all_goals rfl

/-- After a `stop` returned, all an event adds is `channel_stopped`. -/
theorem HandlersOk.quietAfterStop (h : w.HandlersOk) (hr : w.stopReturns ≠ []) {e : Event}
    (hs : w.step e = some w') : ∃ added, w'.notices = w.notices ++ added ∧ ∀ n ∈ added, n.2 = .code .channelStopped := by
  obtain ⟨h1, h2, h3, h4⟩ := h.returned hr
  rcases step_cases hs with ⟨_, -, -, rfl⟩ | ⟨j, th, c, -, -, hn, rfl⟩ | ⟨_, _, _, -, -, -, rfl⟩ |
    ⟨-, -, -, -, -, -, -, -, rfl⟩ | ⟨-, -, -, -, -, -, -, -, rfl⟩ | ⟨-, -, -, -, -, -, rfl⟩
  · exact ⟨[], by simp, by simp⟩
  · exact ⟨c.notices, rfl, Thread.next_notices_of_closed h1 h2 h3 h4 hn⟩
  all_goals exact ⟨[], by simp, by simp⟩

/-- On a proxy started once, every stop handler and every message handler hears of the stop exactly once, and no
message reaches a handler once a `stop` has returned. -/
theorem StartedOnce.stopDelivery (hw : w.StartedOnce) : w.StopDelivery := by
  have h := hw.handlersOk
  refine ⟨fun i th hth hc => ?_, fun i th type hth hc => ?_, fun i ec hi e w' hs => h.codeLast hi hs,
    fun hr i th hth hpc => ?_, fun hr e w' hs => h.quietAfterStop hr hs⟩
  · obtain ⟨call, pc⟩ := th
    have hok := h.threads i _ hth
    simp only at hc
    subst hc
    cases pc <;> simp only [ThreadOk] at hok
    · exact .inl hok.1
    · exact hok.elim (fun hin => .inl hin.2) (fun hout => .inr (.inl hout.2))
    · exact .inr (.inr ⟨rfl, hok.2⟩)
  · obtain ⟨call, pc⟩ := th
    have hok := h.threads i _ hth
    simp only at hc
    subst hc
    cases pc <;> simp only [ThreadOk] at hok
    · exact ⟨[], .inl hok.2.1⟩
    · obtain ⟨types, hin | hout⟩ := hok
      · exact ⟨types, .inl hin.2⟩
      · exact ⟨types, .inr hout.2⟩
    · exact ⟨[], .inr hok.2⟩
  · obtain ⟨-, hsh, -, hmh⟩ := h.returned hr
    obtain ⟨call, pc⟩ := th
    have hok := h.threads i _ hth
    refine ⟨fun hc => ?_, fun type hc => ?_⟩ <;> simp only at hc <;> subst hc <;>
      rcases hpc with rfl | rfl <;>
      simp only [ThreadOk, hsh, hmh, List.not_mem_nil, List.map_nil, not_false_eq_true, true_and, false_and,
        false_or] at hok
    · exact .inl hok
    · exact .inr ⟨rfl, hok⟩
    · exact hok
    · exact ⟨[], hok⟩

/-- A stop raced by a registration on each subscriber, and a stop registration made after the stop returned. -/
def stopRun : List Event :=
  [.invoke .subscribeStop, .advance 1, .invoke (.subscribe 7), .advance 2, .invoke (.stop .badStream)] ++
    List.replicate 5 (.advance 3) ++ [.invoke .subscribeStop, .advance 4]

theorem stopDelivery_stopRun : ∃ w : World, w.StartedOnce ∧ w.stopReturns = [3] ∧
    w.notices = [(2, .code .channelStopped), (1, .code .badStream), (4, .code .channelStopped)] ∧ w.StopDelivery := by
  have h : running.run stopRun = some _ := rfl
  have hw := StartedOnce.running.of_run (by decide) h
  exact ⟨_, hw, rfl, rfl, StartedOnce.stopDelivery hw⟩


end World

end Proxy

end BitprimNetwork
