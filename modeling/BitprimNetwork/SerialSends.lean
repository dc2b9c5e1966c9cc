import BitprimNetwork.Sends

/-!
# Awaited sends reach the wire one after another

The socket does not order two sends in flight (`overlapping_sends_interleave`): `do_send` holds the socket only
until `async_write` returns.  A caller that awaits each send's handler before it sends again gets its frames
whole and in the order it sent them.  `World.Awaited` is such a caller's runs: the events of `Reachable`, a send
called only once every send before it has been told its code.

Over those runs `World.SerialOk` holds: every send but the newest has been told, all the writes in flight are of
one thread, no byte on the wire is of a later thread than a write in flight, and the stream is the bytes of each
thread in turn.  So the stream is the frames of the sends in the order they were called once all of them have
reported success (`World.Awaited.frames_in_sequence`).
-/

namespace BitprimNetwork

namespace Proxy

/-- Whether a call is a send. -/
def Call.isSend : Call → Bool
  | .send _ => true
  | _ => false

/-- The bytes a call asks the socket to write: a send's frame, none for any other call. -/
def Call.frame : Call → List UInt8
  | .send frame => frame
  | _ => []

/-- The frames of the threads, one after another, are those of the sends. -/
theorem flatten_map_frame (threads : List Thread) :
    (threads.map (·.call.frame)).flatten = ((threads.filter (·.call.isSend)).map (·.call.frame)).flatten := by
  induction threads with
  | nil => rfl
  | cons th threads ih =>
    cases hs : th.call.isSend
    · have hframe : th.call.frame = [] := by
        obtain ⟨call, pc⟩ := th
        cases call <;> first | rfl | cases hs
      simp [List.filter_cons, hs, hframe, ih]
    · simp [List.filter_cons, hs, ih]

/-- Blocks indexed below `n`, `c` added to block `i` when every later block is empty: `c` comes last. -/
private theorem flatten_range_append {β : Type} {W : Nat → List β} {i n : Nat} (hi : i < n)
    (hW : ∀ t, i < t → W t = []) (c : List β) :
    ((List.range n).map fun t => W t ++ if i = t then c else []).flatten = ((List.range n).map W).flatten ++ c := by
  induction n with
  | zero => omega
  | succ n ih =>
    simp only [List.range_succ, List.map_append, List.map_singleton, List.flatten_append, List.flatten_singleton]
    rcases Nat.lt_succ_iff_lt_or_eq.1 hi with hlt | rfl
    · rw [ih hlt, hW n hlt, if_neg hlt.ne]
      simp
    · rw [List.map_congr_left fun t ht => by rw [if_neg (List.mem_range.1 ht).ne', List.append_nil]]
      simp

namespace World

/-- Whether thread `i` is a send. -/
def isSend (w : World) (i : Nat) : Bool := w.threads[i]?.any (·.call.isSend)

/-- Every send called so far has been told its code. -/
def SendsTold (w : World) : Prop := ∀ i < w.threads.length, w.isSend i = true → w.sentTo i ≠ []

instance (w : World) : Decidable w.SendsTold :=
  inferInstanceAs (Decidable (∀ i, i < w.threads.length → w.isSend i = true → w.sentTo i ≠ []))

/-- Every send called so far has reported success. -/
def SendsSucceeded (w : World) : Prop := ∀ i < w.threads.length, w.isSend i = true → Code.success ∈ w.sentTo i

instance (w : World) : Decidable w.SendsSucceeded :=
  inferInstanceAs (Decidable (∀ i, i < w.threads.length → w.isSend i = true → Code.success ∈ w.sentTo i))

/-- The runs of a caller that awaits each send's handler before it sends again: the events of `Reachable`, a send
called only when every send before it has been told its code. -/
inductive Awaited : World → Prop
  | init : Awaited init
  | step {w w' : World} (e : Event) : Awaited w → w.step e = some w' →
      (∀ frame, e = .invoke (.send frame) → w.SendsTold) → Awaited w'

variable {w w' : World}

theorem Awaited.reachable (hw : w.Awaited) : w.Reachable := by
  induction hw with
  | init => exact .init
  | step e _ hs _ ih => exact .step e ih hs

/-- A run that calls no send keeps the caller's discipline. -/
theorem Awaited.of_run (hw : w.Awaited) (es : List Event) (hes : ∀ e ∈ es, ∀ frame, e ≠ .invoke (.send frame))
    (h : w.run es = some w') : w'.Awaited := by
  induction es generalizing w with
  | nil => cases h; exact hw
  | cons e es ih =>
    simp only [run, Option.bind_eq_some] at h
    obtain ⟨w₁, h₁, h₂⟩ := h
    exact ih (.step e hw h₁ fun frame he => absurd he (hes e (List.mem_cons_self _ _) frame))
      (fun e' he' => hes e' (List.mem_cons_of_mem _ he')) h₂

theorem isSend_of_getElem? {i : Nat} {th : Thread} (h : w.threads[i]? = some th) : w.isSend i = th.call.isSend := by
  simp [isSend, h]

/-- A new thread is a send only if its call is. -/
theorem isSend_push {th : Thread} (ht : w'.threads = w.threads ++ [th]) {i : Nat} (h : w'.isSend i = true) :
    i < w.threads.length ∧ w.isSend i = true ∨ i = w.threads.length ∧ th.call.isSend = true := by
  simp only [isSend, ht] at h ⊢
  rcases Nat.lt_or_ge i w.threads.length with hlt | hge
  · rw [List.getElem?_append_left hlt] at h
    exact .inl ⟨hlt, h⟩
  · rw [List.getElem?_append_right hge] at h
    obtain rfl : i = w.threads.length := by
      by_contra hne
      rw [List.getElem?_eq_none (by simp; omega)] at h
      cases h
    simpa using h

theorem isSend_perform {j : Nat} {th : Thread} {c : Change} (hth : w.threads[j]? = some th) (i : Nat) :
    (w.perform j th c).isSend i = w.isSend i := by
  by_cases hij : i = j
  · subst hij
    simp [isSend, List.getElem?_set_self (List.getElem?_eq_some_iff.1 hth).1, hth]
  · simp only [isSend, perform_threads, List.getElem?_set_ne (Ne.symm hij)]

/-! ### What the socket's invariant says of sends -/

/-- Every byte on the wire is a send's. -/
theorem SendsOk.isSend_of_wire (h : w.SendsOk) {x : Nat × UInt8} (hx : x ∈ w.wire) : w.isSend x.1 = true := by
  obtain ⟨th, hth⟩ : ∃ th, w.threads[x.1]? = some th := ⟨_, List.getElem?_eq_getElem (h.wire x hx)⟩
  have hmine : x.2 ∈ w.writtenBy x.1 := List.mem_map.2 ⟨x, List.mem_filter.2 ⟨hx, by simp⟩, rfl⟩
  rw [isSend_of_getElem? hth]
  obtain ⟨call, pc⟩ := th
  cases call
  case send => rfl
  all_goals simp [(h.threads _ _ hth).2.1] at hmine

/-- A write in flight is an untold send's. -/
theorem SendsOk.untold_of_writes (h : w.SendsOk) {y : Nat × List UInt8} (hy : y ∈ w.writes) :
    w.isSend y.1 = true ∧ w.sentTo y.1 = [] := by
  obtain ⟨th, hth⟩ : ∃ th, w.threads[y.1]? = some th := ⟨_, List.getElem?_eq_getElem (h.writes y hy)⟩
  obtain ⟨frame, rfl, -, -, hs⟩ :=
    (h.threads _ _ hth).of_inflight (List.mem_map.2 ⟨y, List.mem_filter.2 ⟨hy, by simp⟩, rfl⟩)
  exact ⟨by rw [isSend_of_getElem? hth]; rfl, hs⟩

/-- A step that issues a write is an untold send's, with no write of its own in flight. -/
theorem SendsOk.next_write (h : w.SendsOk) {j : Nat} {th : Thread} {c : Change} (hth : w.threads[j]? = some th)
    (hn : th.next w j = some c) (hc : c.write ≠ none) :
    w.isSend j = true ∧ w.sentTo j = [] ∧ w.inflight j = [] := by
  cases hpc : th.pc.sends
  · exact absurd (Thread.next_sends hn hpc).1 hc
  obtain ⟨call, pc⟩ := th
  obtain ⟨frame, rfl⟩ := (h.threads j _ hth).send_of_sends hpc
  have hok := h.threads j _ hth
  rw [isSend_of_getElem? hth]
  cases pc <;> simp only [Pc.sends, reduceCtorEq] at hpc
  all_goals exact ⟨rfl, hok.2.2⟩

/-- A send told success wrote its whole frame, and any other thread wrote nothing. -/
theorem SendOk.writtenBy_eq_frame {i : Nat} {call : Call} {pc : Pc} (h : w.SendOk i ⟨call, pc⟩)
    (hs : call.isSend = true → .success ∈ w.sentTo i) : w.writtenBy i = call.frame := by
  cases call
  case send frame =>
    have hsucc := hs rfl
    cases pc <;> simp only [SendOk] at h
    case sendCheck | sendWrite => simp [h.2.2.1] at hsucc
    case done =>
      rcases h with ⟨rest, -, -, hsent⟩ | ⟨-, -, ec, hsent, hframe⟩
      · simp [hsent] at hsucc
      · rw [hsent, List.mem_singleton] at hsucc
        exact hframe hsucc.symm
  all_goals exact h.2.1

/-! ### The invariant of awaited sends -/

/-- What awaiting each send keeps: every send but the newest has been told, the writes in flight are all of one
thread, no byte on the wire is of a later thread than a write in flight, and the stream is each thread's bytes in
turn. -/
structure SerialOk (w : World) : Prop where
  told : ∀ i j, i < j → w.isSend i = true → w.isSend j = true → w.sentTo i ≠ []
  owner : ∀ x ∈ w.writes, ∀ y ∈ w.writes, x.1 = y.1
  below : ∀ x ∈ w.wire, ∀ y ∈ w.writes, x.1 ≤ y.1
  blocks : w.stream = ((List.range w.threads.length).map w.writtenBy).flatten

theorem serialOk_init : init.SerialOk := ⟨by simp [isSend, init], by simp [init], by simp [init], rfl⟩

/-- A new thread, a call or a read's handler; a send only when every send before it has been told. -/
theorem SerialOk.push (hok : w.SerialOk) (h : w.SendsOk) {th : Thread} (ht : w'.threads = w.threads ++ [th])
    (hr : w'.writes = w.writes) (hw : w'.wire = w.wire) (hs : w'.sent = w.sent)
    (hsend : th.call.isSend = true → w.SendsTold) : w'.SerialOk := by
  have hsent : w'.sentTo = w.sentTo := by funext i; simp [sentTo, hs]
  have hwritten : w'.writtenBy = w.writtenBy := by funext i; simp [writtenBy, hw]
  refine ⟨fun i j hij hi hj => ?_, hr ▸ hok.owner, hr ▸ hw ▸ hok.below, ?_⟩
  · rw [hsent]
    rcases isSend_push ht hi with ⟨hlt, hi⟩ | ⟨rfl, -⟩
    · rcases isSend_push ht hj with ⟨-, hj⟩ | ⟨rfl, hc⟩
      · exact hok.told i j hij hi hj
      · exact hsend hc i hlt hi
    · rcases isSend_push ht hj with ⟨hlt, -⟩ | ⟨rfl, -⟩ <;> omega
  · rw [stream, hw, ← stream, hok.blocks, hwritten, ht, List.length_append, List.length_singleton,
      List.range_succ, List.map_append, List.flatten_append, List.map_singleton, List.flatten_singleton, h.fresh.1,
      List.append_nil]

/-- A step of a thread; one that issues a write is the only send not yet told, so no other write is in flight and
no later thread's byte is on the wire. -/
theorem SerialOk.advance (hok : w.SerialOk) (h : w.SendsOk) {j : Nat} {th : Thread} {c : Change}
    (hth : w.threads[j]? = some th) (hn : th.next w j = some c) : (w.perform j th c).SerialOk := by
  have htold : ∀ i k, i < k → (w.perform j th c).isSend i = true → (w.perform j th c).isSend k = true →
      (w.perform j th c).sentTo i ≠ [] := by
    intro i k hik hi hk
    rw [isSend_perform hth] at hi hk
    simp [sentTo_perform, hok.told i k hik hi hk]
  have hblocks : (w.perform j th c).stream =
      ((List.range (w.perform j th c).threads.length).map (w.perform j th c).writtenBy).flatten := by
    rw [perform_threads, List.length_set]
    exact hok.blocks
  cases hc : c.write with
  | none =>
    have hr : (w.perform j th c).writes = w.writes := by simp [hc]
    exact ⟨htold, hr ▸ hok.owner, hr ▸ hok.below, hblocks⟩
  | some frame =>
    obtain ⟨hj, hsj, hfj⟩ := h.next_write hth hn (by simp [hc])
    -- the writes in flight are of untold sends, and every send before or after `j` has been told
    have hnone : w.writes = [] := by
      refine List.eq_nil_iff_forall_not_mem.2 fun y hy => ?_
      obtain ⟨hys, hsy⟩ := h.untold_of_writes hy
      rcases Nat.lt_trichotomy y.1 j with hlt | heq | hgt
      · exact hok.told _ _ hlt hys hj hsy
      · simp only [inflight, ← heq, List.map_eq_nil_iff, List.filter_eq_nil_iff, beq_iff_eq] at hfj
        exact hfj y hy rfl
      · exact hok.told _ _ hgt hj hys hsj
    have hr : (w.perform j th c).writes = [(j, frame)] := by simp [hc, hnone]
    refine ⟨htold, by rw [hr]; simp, fun x hx y hy => ?_, hblocks⟩
    rw [hr, List.mem_singleton] at hy
    subst hy
    by_contra hlt
    exact hok.told _ _ (Nat.lt_of_not_le hlt) hj (h.isSend_of_wire hx) hsj

/-- A move of the write in flight `(i, bytes)`: `chunk` goes on the wire, what is left stays in flight as
thread `i`'s, and codes are told. -/
theorem SerialOk.socket (hok : w.SerialOk) (h : w.SendsOk) {i : Nat} {bytes : List UInt8}
    (hk : (i, bytes) ∈ w.writes) (chunk : List UInt8) (hw : w'.wire = w.wire ++ chunk.map fun b => (i, b))
    (hr : ∀ y ∈ w'.writes, y ∈ w.writes ∨ y.1 = i) (ht : w'.threads = w.threads)
    (hs : ∃ more, w'.sent = w.sent ++ more) : w'.SerialOk := by
  have howner : ∀ y ∈ w'.writes, y.1 = i := fun y hy =>
    (hr y hy).elim (fun hy => hok.owner y hy _ hk) id
  have hisSend : w'.isSend = w.isSend := by funext j; simp [isSend, ht]
  have hsent : ∀ j, w.sentTo j ≠ [] → w'.sentTo j ≠ [] := by
    obtain ⟨more, hs⟩ := hs
    intro j hj hnil
    simp only [sentTo, hs, List.filter_append, List.map_append, List.append_eq_nil] at hnil
    exact hj hnil.1
  have hwritten : w'.writtenBy = fun t => w.writtenBy t ++ if i = t then chunk else [] := funext (writtenBy_append hw)
  -- no thread after `i` has written
  have hlater : ∀ t, i < t → w.writtenBy t = [] := by
    intro t ht
    simp only [writtenBy, List.map_eq_nil_iff, List.filter_eq_nil_iff, beq_iff_eq]
    intro x hx hxt
    have := hok.below x hx _ hk
    omega
  refine ⟨fun j k hjk hj hk' => ?_, fun x hx y hy => ?_, fun x hx y hy => ?_, ?_⟩
  · rw [hisSend] at hj hk'
    exact hsent j (hok.told j k hjk hj hk')
  · rw [howner x hx, howner y hy]
  · rw [howner y hy]
    rw [hw, List.mem_append, List.mem_map] at hx
    rcases hx with hx | ⟨_, -, rfl⟩
    · exact hok.below x hx _ hk
    · exact le_rfl
  · rw [stream, hw, List.map_append, ← stream, hok.blocks, ht, hwritten,
      flatten_range_append (h.writes _ hk) hlater chunk]
    simp [Function.comp_def]

/-- Every event of an awaited run keeps the invariant. -/
theorem SerialOk.step (hok : w.SerialOk) (h : w.SendsOk) {e : Event} (hs : w.step e = some w')
    (hsend : ∀ frame, e = .invoke (.send frame) → w.SendsTold) : w'.SerialOk := by
  rcases step_cases hs with ⟨call, rfl, -, rfl⟩ | ⟨j, th, c, -, hth, hn, rfl⟩ |
    ⟨k, kind, arrival, -, -, -, rfl⟩ | ⟨k, n, i, bytes, -, hk, -, -, rfl⟩ | ⟨k, n, i, bytes, -, hk, -, -, rfl⟩ |
    ⟨k, err, i, bytes, -, hk, rfl⟩
  · refine hok.push h rfl rfl rfl rfl fun hc => ?_
    cases call <;> simp only [Call.isSend, reduceCtorEq] at hc
    exact hsend _ rfl
  · exact hok.advance h hth hn
  · exact hok.push h rfl rfl rfl rfl fun hc => by simp [Call.isSend] at hc
  all_goals have hmem := List.getElem?_mem hk
  · exact hok.socket h hmem bytes rfl (fun y hy => .inl (List.mem_of_mem_eraseIdx hy)) rfl ⟨_, rfl⟩
  · refine hok.socket h hmem (bytes.take n) rfl (fun y hy => ?_) rfl ⟨[], by simp⟩
    rcases List.mem_or_eq_of_mem_set hy with hy | rfl
    · exact .inl hy
    · exact .inr rfl
  · exact hok.socket h hmem [] (by simp) (fun y hy => .inl (List.mem_of_mem_eraseIdx hy)) rfl ⟨_, rfl⟩

theorem Awaited.serialOk (hw : w.Awaited) : w.SerialOk := by
  induction hw with
  | init => exact serialOk_init
  | step e hw hs hsend ih => exact ih.step hw.reachable.sendsOk hs hsend

/-- Once every send of an awaited run has reported success, the stream is the frames of the threads in turn. -/
theorem Awaited.stream_eq_frames (hw : w.Awaited) (hsucc : w.SendsSucceeded) :
    w.stream = (w.threads.map (·.call.frame)).flatten := by
  refine hw.serialOk.blocks.trans (congrArg List.flatten (List.ext_getElem (by simp) fun t ht _ => ?_))
  rw [List.length_map, List.length_range] at ht
  have hth : w.threads[t]? = some w.threads[t] := List.getElem?_eq_getElem ht
  simp only [List.getElem_map, List.getElem_range]
  exact (hw.reachable.sendsOk.threads t _ hth).writtenBy_eq_frame
    fun hs => hsucc t ht ((isSend_of_getElem? hth).trans hs)

/-- Awaited sends never interleave: the stream is each thread's bytes in turn, and the sends' whole frames in order
once every send has succeeded. -/
theorem Awaited.frames_in_sequence (hw : w.Awaited) :
    w.stream = ((List.range w.threads.length).map w.writtenBy).flatten ∧
      (w.SendsSucceeded → w.stream = (w.threads.map (·.call.frame)).flatten) :=
  ⟨hw.serialOk.blocks, hw.stream_eq_frames⟩

end World

/-- Two sends, the second called once the first, written in two parts, has reported success; the wire holds
`1, 2, 3`. -/
theorem frames_in_sequence_awaitedSends : ∃ w : World, w.Awaited ∧ w.stream = [1, 2, 3] ∧ w.SendsSucceeded ∧
    (w.stream = ((List.range w.threads.length).map w.writtenBy).flatten ∧
      (w.SendsSucceeded → w.stream = (w.threads.map (·.call.frame)).flatten)) := by
  have h₀ : World.running.Awaited := World.Awaited.init.of_run startRun (by simp [startRun]) World.run_startRun
  have h₁ := h₀.step (.invoke (.send [1, 2])) rfl fun _ _ => by decide
  have h₂ := h₁.of_run [.advance 1, .advance 1, .write 0 1, .write 0 1] (by simp) rfl
  have h₃ := h₂.step (.invoke (.send [3])) rfl fun _ _ => by decide
  have h₄ := h₃.of_run [.advance 2, .advance 2, .write 0 1] (by simp) rfl
  exact ⟨_, h₄, rfl, by decide, World.Awaited.frames_in_sequence h₄⟩

end Proxy

end BitprimNetwork
