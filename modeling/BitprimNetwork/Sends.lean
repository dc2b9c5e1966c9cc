import BitprimNetwork.ProxyThreads

/-!
# Sends and the socket's writes

`do_send` tests `stopped()`, then calls `async_write` holding the socket and returns: "The socket is locked until
async_write returns", not until the write completes.  asio's `async_write` is a composed operation, a sequence of
partial writes, any of which may come between the partial writes of another write in flight.  So the frames of
two sends can interleave on the wire even when one send returned before the other was called
(`overlapping_sends_interleave`).

What the socket does keep holds over every interleaving (`World.Reachable.sends_in_order`): each send's bytes
reach the wire in the order of its frame, the whole frame before the send reports success; a send reports one
code at most; and every byte on the wire is a send's.  The proof is one invariant, `World.SendsOk`, read off each
thread's call and pc: the bytes a send wrote and its write in flight make up its frame.
-/

namespace BitprimNetwork

namespace Proxy

/-- The pcs of `do_send`. -/
def Pc.sends : Pc → Bool
  | .sendCheck _ | .sendWrite _ => true
  | _ => false

/-- Only `do_send` writes or reports a send's code, and no other step enters it. -/
theorem Thread.next_sends {th : Thread} {w : World} {i : Nat} {c : Change} (hn : th.next w i = some c)
    (hs : th.pc.sends = false) : c.write = none ∧ c.sent = none ∧ c.pc.sends = false := by
  obtain ⟨call, pc⟩ := th
  cases pc <;> simp only [Pc.sends, reduceCtorEq] at hs <;> simp only [Thread.next] at hn <;>
    (repeat' split at hn) <;> cases hn <;> simp [Pc.sends]

/-- A list with `x` at index `k`, cut around it. -/
private theorem eq_append_of_getElem? {β : Type} {l : List β} {k : Nat} {x : β} (h : l[k]? = some x) :
    ∃ A B, l = A ++ x :: B ∧ A.length = k := by
  obtain ⟨hk, rfl⟩ := List.getElem?_eq_some_iff.1 h
  exact ⟨l.take k, l.drop (k + 1), by rw [List.getElem_cons_drop, List.take_append_drop],
    List.length_take_of_le hk.le⟩

namespace World

/-- The byte stream written to the socket. -/
def stream (w : World) : List UInt8 := w.wire.map (·.2)

/-- The bytes on the wire that thread `i`'s write put there, in order. -/
def writtenBy (w : World) (i : Nat) : List UInt8 := (w.wire.filter (·.1 == i)).map (·.2)

/-- The bytes thread `i`'s writes in flight have still to write. -/
def inflight (w : World) (i : Nat) : List (List UInt8) := (w.writes.filter (·.1 == i)).map (·.2)

/-- The codes reported to thread `i`'s send. -/
def sentTo (w : World) (i : Nat) : List Code := (w.sent.filter (·.1 == i)).map (·.2)

/-- What thread `i`'s call and pc tell about the socket.  A send before `async_write` has written nothing and been
told nothing.  After it, either its write is in flight and the bytes it wrote and those left make up its frame,
or its write is over, the bytes it wrote begin its frame, and it has been told one code, which is success only if
the whole frame was written.  Any other thread stays out of `do_send`, writes nothing and is told nothing. -/
def SendOk (w : World) (i : Nat) (th : Thread) : Prop :=
  match th.call, th.pc with
  | .send frame, .sendCheck frame' | .send frame, .sendWrite frame' =>
    frame' = frame ∧ w.writtenBy i = [] ∧ w.sentTo i = [] ∧ w.inflight i = []
  | .send frame, .done =>
    (∃ rest, w.inflight i = [rest] ∧ w.writtenBy i ++ rest = frame ∧ w.sentTo i = []) ∨
      w.inflight i = [] ∧ w.writtenBy i <+: frame ∧ ∃ ec, w.sentTo i = [ec] ∧ (ec = .success → w.writtenBy i = frame)
  | .send _, _ => False
  | _, pc => pc.sends = false ∧ w.writtenBy i = [] ∧ w.sentTo i = [] ∧ w.inflight i = []

/-- The invariant of the socket's writes: every thread is where its call allows, and the writes in flight, the
bytes on the wire and the codes reported are all of threads. -/
structure SendsOk (w : World) : Prop where
  threads : ∀ i th, w.threads[i]? = some th → w.SendOk i th
  writes : ∀ x ∈ w.writes, x.1 < w.threads.length
  wire : ∀ x ∈ w.wire, x.1 < w.threads.length
  sent : ∀ x ∈ w.sent, x.1 < w.threads.length

theorem sendsOk_init : init.SendsOk := ⟨by simp [init], by simp [init], by simp [init], by simp [init]⟩

variable {w w' : World}

theorem SendOk.keep {i : Nat} {th : Thread} (h : w.SendOk i th) (hw : w'.writtenBy i = w.writtenBy i)
    (hs : w'.sentTo i = w.sentTo i) (hf : w'.inflight i = w.inflight i) : w'.SendOk i th := by
  unfold SendOk at h ⊢
  rwa [hw, hs, hf]

/-- Only a send is ever inside `do_send`. -/
theorem SendOk.send_of_sends {i : Nat} {call : Call} {pc : Pc} (h : w.SendOk i ⟨call, pc⟩) (hpc : pc.sends = true) :
    ∃ frame, call = .send frame := by
  cases call
  case send frame => exact ⟨frame, rfl⟩
  all_goals exact absurd h.1 (by simp [hpc])

/-- A write in flight is the one write of a send that returned, and with the bytes it wrote makes up its
frame. -/
theorem SendOk.of_inflight {i : Nat} {th : Thread} (h : w.SendOk i th) {bytes : List UInt8}
    (hb : bytes ∈ w.inflight i) : ∃ frame, th = ⟨.send frame, .done⟩ ∧ w.inflight i = [bytes] ∧
      w.writtenBy i ++ bytes = frame ∧ w.sentTo i = [] := by
  obtain ⟨call, pc⟩ := th
  unfold SendOk at h
  split at h
  next => simp [h.2.2.2] at hb
  next => simp [h.2.2.2] at hb
  next _ _ frame hc hp =>
    simp only at hc hp
    subst hc hp
    rcases h with ⟨rest, hr, hw, hs⟩ | ⟨hr, -⟩
    · rw [hr, List.mem_singleton] at hb
      subst hb
      exact ⟨_, rfl, hr, hw, hs⟩
    · simp [hr] at hb
  next => exact h.elim
  next => simp [h.2.2.2] at hb

/-- A thread not yet known to the socket: nothing written, told or in flight. -/
theorem SendsOk.fresh (h : w.SendsOk) :
    w.writtenBy w.threads.length = [] ∧ w.sentTo w.threads.length = [] ∧ w.inflight w.threads.length = [] := by
  refine ⟨?_, ?_, ?_⟩ <;>
    simp only [writtenBy, sentTo, inflight, List.map_eq_nil_iff, List.filter_eq_nil_iff, beq_iff_eq]
  · exact fun x hx heq => absurd (h.wire x hx) (by omega)
  · exact fun x hx heq => absurd (h.sent x hx) (by omega)
  · exact fun x hx heq => absurd (h.writes x hx) (by omega)

/-- A new thread: a call, or the handler of a completed read. -/
theorem SendsOk.push (h : w.SendsOk) {th : Thread} (hnew : w.SendOk w.threads.length th) :
    { w with threads := w.threads ++ [th] }.SendsOk where
  threads i th' hth := by
    by_cases hlt : i < w.threads.length
    · rw [List.getElem?_append_left hlt] at hth
      exact (h.threads i th' hth).keep rfl rfl rfl
    · rw [List.getElem?_append_right (Nat.not_lt.1 hlt)] at hth
      have hi : i = w.threads.length := by
        have := (List.getElem?_eq_some_iff.1 hth).1
        simp only [List.length_singleton] at this
        omega
      subst hi
      simp only [Nat.sub_self, List.getElem?_cons_zero, Option.some.injEq] at hth
      subst hth
      exact hnew.keep rfl rfl rfl
  writes x hx := by simpa using Nat.lt_succ_of_lt (h.writes x hx)
  wire x hx := by simpa using Nat.lt_succ_of_lt (h.wire x hx)
  sent x hx := by simpa using Nat.lt_succ_of_lt (h.sent x hx)

/-- The invariant reads only the threads and the socket's writes. -/
theorem SendsOk.congr (h : w.SendsOk) (ht : w'.threads = w.threads) (hr : w'.writes = w.writes)
    (hw : w'.wire = w.wire) (hs : w'.sent = w.sent) : w'.SendsOk where
  threads i th hth := (h.threads i th (ht ▸ hth)).keep (by simp [writtenBy, hw]) (by simp [sentTo, hs])
    (by simp [inflight, hr])
  writes x hx := ht ▸ h.writes x (hr ▸ hx)
  wire x hx := ht ▸ h.wire x (hw ▸ hx)
  sent x hx := ht ▸ h.sent x (hs ▸ hx)

/-- A new call's thread. -/
theorem SendsOk.invoke (h : w.SendsOk) {call : Call} (hc : ∀ kind arrival, call ≠ .handler kind arrival) :
    w.SendOk w.threads.length ⟨call, call.entry⟩ := by
  obtain ⟨hw, hs, hf⟩ := h.fresh
  cases call with
  | send frame => exact ⟨rfl, hw, hs, hf⟩
  | handler kind arrival => exact absurd rfl (hc kind arrival)
  | start | stop _ | subscribeStop | subscribe _ => exact ⟨rfl, hw, hs, hf⟩

section Advance

variable {j : Nat} {th : Thread} {c : Change}

@[simp] theorem writtenBy_perform (i : Nat) : (w.perform j th c).writtenBy i = w.writtenBy i := rfl

theorem sentTo_perform (i : Nat) :
    (w.perform j th c).sentTo i = w.sentTo i ++ if i = j then c.sent.toList else [] := by
  simp only [sentTo, perform_sent, List.filter_append, List.map_append]
  congr 1
  by_cases h : i = j
  · subst h; cases c.sent <;> simp
  · cases c.sent <;> simp [h, Ne.symm h]

theorem inflight_perform (i : Nat) :
    (w.perform j th c).inflight i = w.inflight i ++ if i = j then c.write.toList else [] := by
  simp only [inflight, perform_writes, List.filter_append, List.map_append]
  congr 1
  by_cases h : i = j
  · subst h; cases c.write <;> simp
  · cases c.write <;> simp [h, Ne.symm h]

/-- A step of a thread keeps the invariant. -/
theorem SendsOk.advance (h : w.SendsOk) (hth : w.threads[j]? = some th) (hn : th.next w j = some c) :
    (w.perform j th c).SendsOk := by
  have hlt : j < w.threads.length := (List.getElem?_eq_some_iff.1 hth).1
  have hget : ∀ i, (w.perform j th c).threads[i]? = if i = j then some { th with pc := c.pc }
      else w.threads[i]? := by
    intro i
    by_cases hij : i = j
    · subst hij; simp [List.getElem?_set_self hlt]
    · simp [List.getElem?_set_ne (Ne.symm hij), hij]
  have hok := h.threads j th hth
  -- the thread's own step, by where it is in `do_send`
  have hj : (w.perform j th c).SendOk j { th with pc := c.pc } := by
    obtain ⟨call, pc⟩ := th
    cases hpc : pc.sends
    · obtain ⟨hw, hs, hp⟩ := Thread.next_sends hn hpc
      have hkeep : (w.perform j ⟨call, pc⟩ c).SendOk j ⟨call, pc⟩ := hok.keep (writtenBy_perform j)
        (by simp [sentTo_perform, hs]) (by simp [inflight_perform, hw])
      unfold SendOk at hkeep ⊢
      cases call <;> simp only at hkeep ⊢
      case send frame =>
        cases pc <;> simp only [Pc.sends, reduceCtorEq] at hpc hkeep
        simp [Thread.next] at hn
      all_goals exact ⟨hp, hkeep.2⟩
    · obtain ⟨frame, rfl⟩ := hok.send_of_sends hpc
      cases pc <;> simp only [Pc.sends, reduceCtorEq] at hpc
      case sendCheck frame' =>
        obtain ⟨rfl, hw, hs, hf⟩ := hok
        simp only [Thread.next] at hn
        split at hn <;> cases hn
        · exact .inr ⟨by simp [inflight_perform, hf], by simp [hw], .channelStopped,
            by simp [sentTo_perform, hs], by simp⟩
        · exact ⟨rfl, hw, by simp [sentTo_perform, hs], by simp [inflight_perform, hf]⟩
      case sendWrite frame' =>
        obtain ⟨rfl, hw, hs, hf⟩ := hok
        simp only [Thread.next] at hn
        cases hn
        exact .inl ⟨frame', by simp [inflight_perform, hf], by simp [hw], by simp [sentTo_perform, hs]⟩
  refine ⟨fun i th' hi => ?_, fun x hx => ?_, fun x hx => ?_, fun x hx => ?_⟩
  · rw [hget] at hi
    split at hi
    · cases hi; subst i; exact hj
    · exact (h.threads i th' hi).keep (writtenBy_perform i) (by simp [sentTo_perform, *])
        (by simp [inflight_perform, *])
  · simp only [perform_writes, List.mem_append, Option.mem_toList, Option.mem_def, Option.map_eq_some',
      perform_threads, List.length_set] at hx ⊢
    rcases hx with hx | ⟨_, -, rfl⟩
    · exact h.writes x hx
    · exact hlt
  · simpa using h.wire x hx
  · simp only [perform_sent, List.mem_append, Option.mem_toList, Option.mem_def, Option.map_eq_some',
      perform_threads, List.length_set] at hx ⊢
    rcases hx with hx | ⟨_, -, rfl⟩
    · exact h.sent x hx
    · exact hlt

end Advance

/-- What a list of one thread's entries gives thread `j`. -/
private theorem owned_map {β : Type} (l : List β) (i j : Nat) :
    ((l.map fun b => (i, b)).filter (·.1 == j)).map (·.2) = if i = j then l else [] := by
  by_cases h : i = j <;> simp [h, List.filter_map, Function.comp_def]

/-- Bytes thread `i` puts on the wire add to what `i` has written, and to no other thread's. -/
theorem writtenBy_append {w w' : World} {i : Nat} {chunk : List UInt8}
    (hw : w'.wire = w.wire ++ chunk.map fun b => (i, b)) (j : Nat) :
    w'.writtenBy j = w.writtenBy j ++ if i = j then chunk else [] := by
  simp only [writtenBy, hw, List.filter_append, List.map_append, owned_map]

/-- A move of the write in flight between `A` and `B`, thread `i`'s: it puts `chunk` on the wire, leaves `left`
in flight and tells the send `told`.  It keeps the invariant when the bytes written and left still make up the
send's frame, and the send is told a code, success only for the whole frame, once nothing is left. -/
theorem SendsOk.socket (h : w.SendsOk) {A B : List (Nat × List UInt8)} {i : Nat} {bytes : List UInt8}
    (chunk : List UInt8) (left : List (List UInt8)) (told : List Code) (hk : w.writes = A ++ (i, bytes) :: B)
    (hwire : w'.wire = w.wire ++ chunk.map fun b => (i, b))
    (hwrites : w'.writes = A ++ (left.map fun r => (i, r)) ++ B)
    (hsent : w'.sent = w.sent ++ told.map fun ec => (i, ec)) (hthreads : w'.threads = w.threads)
    (hframe : ∀ frame, w.writtenBy i ++ bytes = frame →
      (∃ rest, left = [rest] ∧ w.writtenBy i ++ chunk ++ rest = frame ∧ told = []) ∨
        left = [] ∧ w.writtenBy i ++ chunk <+: frame ∧
          ∃ ec, told = [ec] ∧ (ec = .success → w.writtenBy i ++ chunk = frame)) :
    w'.SendsOk := by
  have hwritten : ∀ j, w'.writtenBy j = w.writtenBy j ++ if i = j then chunk else [] := writtenBy_append hwire
  have htold : ∀ j, w'.sentTo j = w.sentTo j ++ if i = j then told else [] := by
    intro j
    simp only [sentTo, hsent, List.filter_append, List.map_append, owned_map]
  have hpart : ∀ (l : List (List UInt8)) j,
      ((A ++ (l.map fun r => (i, r)) ++ B).filter (·.1 == j)).map (·.2) =
        (A.filter (·.1 == j)).map (·.2) ++ (if i = j then l else []) ++ (B.filter (·.1 == j)).map (·.2) := by
    intro l j
    simp only [List.filter_append, List.map_append, owned_map]
  have hinflight : ∀ j, w.inflight j =
      (A.filter (·.1 == j)).map (·.2) ++ (if i = j then [bytes] else []) ++ (B.filter (·.1 == j)).map (·.2) := by
    intro j
    have hcut : A ++ (i, bytes) :: B = A ++ ([bytes].map fun r => (i, r)) ++ B := by simp
    rw [inflight, hk, hcut, hpart]
  have hinflight' : ∀ j, w'.inflight j =
      (A.filter (·.1 == j)).map (·.2) ++ (if i = j then left else []) ++ (B.filter (·.1 == j)).map (·.2) := by
    intro j
    simp only [inflight, hwrites, hpart]
  have hlt : i < w.threads.length :=
    h.writes (i, bytes) (by rw [hk]; exact List.mem_append_right _ (List.mem_cons_self _ _))
  obtain ⟨th, hth⟩ : ∃ th, w.threads[i]? = some th := ⟨_, List.getElem?_eq_getElem hlt⟩
  obtain ⟨frame, rfl, hone, hfr, hnil⟩ := (h.threads i th hth).of_inflight (show bytes ∈ w.inflight i by simp [hinflight])
  have hAB : (A.filter (·.1 == i)).map (·.2) = [] ∧ (B.filter (·.1 == i)).map (·.2) = [] := by
    have hl := congrArg List.length ((hinflight i).symm.trans hone)
    simp only [eq_self_iff_true, if_true, List.length_append, List.length_singleton] at hl
    exact ⟨List.eq_nil_of_length_eq_zero (by omega), List.eq_nil_of_length_eq_zero (by omega)⟩
  refine ⟨fun j th' hj => ?_, fun x hx => ?_, fun x hx => ?_, fun x hx => ?_⟩
  · rw [hthreads] at hj
    by_cases hij : i = j
    · subst hij
      rw [hth, Option.some.injEq] at hj
      subst hj
      simp only [SendOk, hwritten, htold, hinflight', hAB, hnil, if_true, List.nil_append, List.append_nil]
      exact hframe frame hfr
    · exact (h.threads j th' hj).keep (by simp [hwritten, hij]) (by simp [htold, hij])
        (by simp [hinflight, hinflight', hij])
  · rw [hthreads]
    rw [hwrites] at hx
    simp only [List.mem_append, List.mem_map] at hx
    rcases hx with (hx | ⟨_, -, rfl⟩) | hx
    · exact h.writes x (by simp [hk, hx])
    · exact hlt
    · exact h.writes x (by simp [hk, hx])
  · rw [hthreads]
    rw [hwire, List.mem_append, List.mem_map] at hx
    rcases hx with hx | ⟨_, -, rfl⟩
    · exact h.wire x hx
    · exact hlt
  · rw [hthreads]
    rw [hsent, List.mem_append, List.mem_map] at hx
    rcases hx with hx | ⟨_, -, rfl⟩
    · exact h.sent x hx
    · exact hlt

/-- Every event keeps the invariant of the socket's writes. -/
theorem SendsOk.step (h : w.SendsOk) {e : Event} (hs : w.step e = some w') : w'.SendsOk := by
  rcases step_cases hs with ⟨call, -, hc, rfl⟩ | ⟨j, th, c, -, hth, hn, rfl⟩ |
    ⟨k, kind, arrival, -, -, -, rfl⟩ | ⟨k, n, i, bytes, -, hk, -, hle, rfl⟩ | ⟨k, n, i, bytes, -, hk, -, hlt, rfl⟩ |
    ⟨k, err, i, bytes, -, hk, rfl⟩
  · exact h.push (h.invoke hc)
  · exact h.advance hth hn
  · obtain ⟨hw, hs, hf⟩ := h.fresh
    have hnew : w.SendOk w.threads.length ⟨.handler kind arrival, .handlerCheck arrival⟩ := ⟨rfl, hw, hs, hf⟩
    exact (h.push hnew).congr rfl rfl rfl rfl
  all_goals
    obtain ⟨A, B, hAB, rfl⟩ := eq_append_of_getElem? hk
  · refine h.socket bytes [] [.success] hAB rfl ?_ rfl rfl
      fun frame hfr => .inr ⟨rfl, hfr ▸ List.prefix_refl _, _, rfl, fun _ => hfr⟩
    simp [hAB, List.eraseIdx_append_of_length_le]
  · refine h.socket (bytes.take n) [bytes.drop n] [] hAB rfl ?_ (by simp) rfl
      fun frame hfr => .inl ⟨_, rfl, by rw [List.append_assoc, List.take_append_drop, hfr], rfl⟩
    simp [hAB, List.set_append]
  · refine h.socket [] [] [boostToErrorCode (some err)] hAB (by simp) ?_ rfl rfl
      fun frame hfr => .inr ⟨rfl, by simp [← hfr], _, rfl, by simp [boostToErrorCode]⟩
    simp [hAB, List.eraseIdx_append_of_length_le]

theorem Reachable.sendsOk (hw : w.Reachable) : w.SendsOk := by
  induction hw with
  | init => exact sendsOk_init
  | step e _ hs ih => exact ih.step hs

/-- The stream is an interleaving of the sends' frames: each send's bytes on the wire are a prefix of its frame, and
the whole frame once it reports success. -/
theorem Reachable.sends_in_order (hw : w.Reachable) :
    (∀ i frame pc, w.threads[i]? = some ⟨.send frame, pc⟩ →
      w.writtenBy i <+: frame ∧ (w.sentTo i).length ≤ 1 ∧ (.success ∈ w.sentTo i → w.writtenBy i = frame)) ∧
    ∀ x ∈ w.wire, ∃ frame pc, w.threads[x.1]? = some ⟨.send frame, pc⟩ := by
  have h := hw.sendsOk
  refine ⟨fun i frame pc hth => ?_, fun x hx => ?_⟩
  · have hok := h.threads i _ hth
    cases pc <;> simp only [SendOk] at hok
    case sendCheck | sendWrite => simp [hok.2.1, hok.2.2.1]
    case done =>
      rcases hok with ⟨rest, -, hfr, hs⟩ | ⟨-, hpre, ec, hs, hsucc⟩
      · simp [hs, ← hfr]
      · simp only [hs, List.length_singleton, le_refl, List.mem_singleton, true_and]
        exact ⟨hpre, fun h => hsucc h.symm⟩
  · obtain ⟨th, hth⟩ : ∃ th, w.threads[x.1]? = some th := ⟨_, List.getElem?_eq_getElem (h.wire x hx)⟩
    have hmine : x.2 ∈ w.writtenBy x.1 := List.mem_map.2 ⟨x, List.mem_filter.2 ⟨hx, by simp⟩, rfl⟩
    obtain ⟨call, pc⟩ := th
    cases call
    case send frame => exact ⟨frame, pc, hth⟩
    all_goals simp [(h.threads _ _ hth).2.1] at hmine

end World

/-- A send of a two-byte frame calls `async_write` and returns; a send of a one-byte frame is called only then, and
its write goes out whole while the first write has written one byte. -/
def overlappingSends : List Event :=
  [.invoke (.send [1, 2]), .advance 1, .advance 1, .invoke (.send [3]), .advance 2, .advance 2, .write 0 1,
    .write 1 1, .write 0 1]

/-- The first send has returned before the second is called, both report success, and the wire holds
`1, 3, 2`: the second frame inside the first. -/
theorem overlapping_sends_interleave : ∃ w w' : World,
    World.running.run (overlappingSends.take 3) = some w ∧ w.threads = [⟨.start, .done⟩, ⟨.send [1, 2], .done⟩] ∧
    w.run (overlappingSends.drop 3) = some w' ∧ w'.Reachable ∧
    w'.sentTo 1 = [.success] ∧ w'.sentTo 2 = [.success] ∧ w'.stream = [1, 3, 2] := by
  have h : World.running.run overlappingSends = some _ := rfl
  exact ⟨_, _, rfl, rfl, rfl, .of_run (.of_run .init World.run_startRun) h, rfl, rfl, rfl⟩

theorem sends_in_order_overlapping : ∃ w : World, w.Reachable ∧ w.stream = [1, 3, 2] ∧
    (∀ i frame pc, w.threads[i]? = some ⟨.send frame, pc⟩ →
      w.writtenBy i <+: frame ∧ (w.sentTo i).length ≤ 1 ∧ (.success ∈ w.sentTo i → w.writtenBy i = frame)) ∧
    ∀ x ∈ w.wire, ∃ frame pc, w.threads[x.1]? = some ⟨.send frame, pc⟩ := by
  have h : World.running.run overlappingSends = some _ := rfl
  have hw := World.Reachable.of_run (.of_run .init World.run_startRun) h
  exact ⟨_, hw, rfl, World.Reachable.sends_in_order hw⟩

end Proxy

end BitprimNetwork
