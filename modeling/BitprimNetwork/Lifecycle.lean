import BitprimNetwork.ProxyThreads

/-!
# Start, stop and the read cycles

`stopped_` is one flag for two states: the proxy as constructed and the proxy after a stop, so `start` succeeds
whenever it finds the flag set, and each success begins a read cycle.  Only a start's clear and a stop's set change
the flag, and the reads in flight, with the threads on their way to issue one, never outnumber the starts that
reported success (`World.Reachable.lifecycle_invariant`): in a run with at most one successful start no two reads
are ever in flight.  But `start` tests the flag and clears it in two steps, so two racing starts can both find it
set: both report success and put two reads in flight into the one heading buffer (`World.starts_race`).
-/

namespace BitprimNetwork

namespace Proxy

/-- The thread is on a read cycle, on its way to issue a read: in `read_heading` or `read_payload`, or in a read
handler that has not stopped. -/
def Pc.holdsRead : Pc → Bool
  | .readCheck _ | .readIssue _ | .handlerCheck _ | .dispatch _ _ => true
  | _ => false

namespace World

/-- The read cycles alive: the reads in flight and the threads on their way to issue one. -/
def cycles (w : World) : Nat := w.reads.length + w.threads.countP (·.pc.holdsRead)

/-- The starts that reported success. -/
def successes (w : World) : Nat := w.started.countP (·.2 == .success)

end World

/-- A step of a thread issues at most one read, and only by leaving the read path; the one step that brings a
thread onto it is a start reporting success. -/
theorem Thread.next_cycles {th : Thread} {w : World} {i : Nat} {c : Change} (hn : th.next w i = some c) :
    c.read.toList.length + (if c.pc.holdsRead then 1 else 0) ≤
      (if th.pc.holdsRead then 1 else 0) + (if c.started = some .success then 1 else 0) := by
  obtain ⟨call, pc⟩ := th
  cases pc <;> simp only [Thread.next] at hn <;> (repeat' split at hn) <;> cases hn <;>
    simp [Pc.holdsRead]

/-- Only `start` clears `stopped_`, at `startClear`, and only `stop` sets it. -/
theorem Thread.next_stopped {th : Thread} {w : World} {i : Nat} {c : Change} (hn : th.next w i = some c) :
    c.stopped = w.stopped ∨ th.pc = .startClear ∧ c.stopped = false ∨ ∃ ec, th.pc = .stopSet ec ∧ c.stopped = true := by
  obtain ⟨call, pc⟩ := th
  cases pc <;> simp only [Thread.next] at hn <;> (repeat' split at hn) <;> cases hn <;>
    first | exact .inl rfl | simp

namespace World

variable {w w' : World}

/-- A step changes `stopped_` only as a thread's step: the clearing step of a start, or the first step of a
stop. -/
theorem step_stopped {e : Event} (hs : w.step e = some w') :
    w'.stopped = w.stopped ∨ ∃ i th, e = .advance i ∧ w.threads[i]? = some th ∧
      (th.pc = .startClear ∧ w'.stopped = false ∨ ∃ ec, th.pc = .stopSet ec ∧ w'.stopped = true) := by
  rcases step_cases hs with ⟨-, -, -, rfl⟩ | ⟨i, th, c, rfl, hth, hn, rfl⟩ | ⟨-, -, -, -, -, -, rfl⟩ |
    ⟨-, -, -, -, -, -, -, -, rfl⟩ | ⟨-, -, -, -, -, -, -, -, rfl⟩ | ⟨-, -, -, -, -, -, rfl⟩
  · exact .inl rfl
  -- a thread's step: `Thread.next_stopped` says which
  · rcases th.next_stopped hn with h | h | h
    · exact .inl h
    · exact .inr ⟨i, th, rfl, hth, .inl h⟩
    · exact .inr ⟨i, th, rfl, hth, .inr h⟩
  all_goals exact .inl rfl

theorem cycles_init : init.cycles = 0 := rfl

/-- No step brings a read cycle to life but a start reporting success. -/
theorem cycles_step (h : w.cycles ≤ w.successes) {e : Event} (hs : w.step e = some w') :
    w'.cycles ≤ w'.successes := by
  simp only [cycles, successes] at h ⊢
  rcases step_cases hs with ⟨call, -, hc, rfl⟩ | ⟨i, th, c, -, hth, hn, rfl⟩ |
    ⟨k, kind, arrival, -, hk, -, rfl⟩ | ⟨-, -, -, -, -, -, -, -, rfl⟩ | ⟨-, -, -, -, -, -, -, -, rfl⟩ |
    ⟨-, -, -, -, -, -, rfl⟩
  -- a new call starts off the read path
  · have hoff : call.entry.holdsRead = false := by
      cases call
      case handler kind arrival => exact absurd rfl (hc kind arrival)
      all_goals rfl
    simpa [List.countP_append, hoff] using h
  -- a thread's step: `Thread.next_cycles` counts what it adds
  · have hc := th.next_cycles hn
    obtain ⟨hlt, hget⟩ := List.getElem?_eq_some_iff.1 hth
    have hset := List.countP_set (fun t : Thread => t.pc.holdsRead) w.threads i { th with pc := c.pc } hlt
    have hle := List.boole_getElem_le_countP (fun t : Thread => t.pc.holdsRead) w.threads i hlt
    simp only [hget] at hset hle
    have hst : (w.started ++ (c.started.map fun ec => (i, ec)).toList).countP (·.2 == .success) =
        w.started.countP (·.2 == .success) + (if c.started = some .success then 1 else 0) := by
      cases c.started <;> simp [List.countP_cons]
    simp only [perform_reads, perform_threads, perform_started, List.length_append, hst]
    omega
  -- a completed read hands its place on the read path to its handler
  · have hlt : k < w.reads.length := (List.getElem?_eq_some_iff.1 hk).1
    have hnew : (Pc.handlerCheck arrival).holdsRead = true := rfl
    simp only [List.length_eraseIdx, hlt, if_true, List.countP_append, List.countP_cons, List.countP_nil, hnew]
    omega
  all_goals exact h

theorem Reachable.cycles_le_successes (hw : w.Reachable) : w.cycles ≤ w.successes := by
  induction hw with
  | init => exact (cycles_init).le.trans (Nat.zero_le _)
  | step e _ hs ih => exact cycles_step ih hs

/-- The proxy's lifecycle over every interleaving of calls and socket events: the read cycles alive never
outnumber the starts that reported success, and only a start's clear and a stop's set change `stopped_`. -/
theorem Reachable.lifecycle_invariant (hw : w.Reachable) :
    w.cycles ≤ w.successes ∧ (w.successes ≤ 1 → w.reads.length ≤ 1) ∧
    ∀ e w', w.step e = some w' → w'.stopped ≠ w.stopped → ∃ i th, e = .advance i ∧ w.threads[i]? = some th ∧
      (th.pc = .startClear ∧ w'.stopped = false ∨ ∃ ec, th.pc = .stopSet ec ∧ w'.stopped = true) := by
  have hc := hw.cycles_le_successes
  refine ⟨hc, fun h1 => ?_, fun e w' hs hne => ?_⟩
  · simp only [cycles] at hc; omega
  · exact (step_stopped hs).resolve_left hne

/-- Two starts that both test `stopped_` before either clears it, then run to their ends. -/
def racingStarts : List Event :=
  [.invoke .start, .invoke .start, .advance 0, .advance 1] ++ List.replicate 6 (.advance 0) ++
    List.replicate 6 (.advance 1)

theorem lifecycle_invariant_races : ∃ w : World, w.Reachable ∧ w.reads.length = 2 ∧ w.cycles ≤ w.successes := by
  have h : init.run racingStarts = some _ := rfl
  exact ⟨_, .of_run .init h, rfl, (Reachable.lifecycle_invariant (.of_run .init h)).1⟩

/-- Two racing starts both report success and put two heading reads in flight into the one heading buffer. -/
theorem starts_race :
    ∃ w : World, init.run racingStarts = some w ∧ w.Reachable ∧ w.started = [(0, .success), (1, .success)] ∧
      w.reads = [.heading, .heading] := by
  have h : init.run racingStarts = some _ := rfl
  exact ⟨_, h, .of_run .init h, rfl, rfl⟩

end World

end Proxy

end BitprimNetwork
