import BitprimNetwork.Connections

/-!
# The registry under its lock

Each call runs on a thread of its own and takes the registry's `upgrade_mutex` as the source does: the readers
(`safe_exists`, `safe_count`, `safe_copy`) take it shared; `safe_store`, `safe_remove` and `stop` take the
upgradable ownership, look, and only when they must write `unlock_upgrade_and_lock`; `stop` then sets
`stopped_`, downgrades with `unlock_and_lock_upgrade`, copies `channels_`, releases, and only then calls
`channel->stop(ec)` on each copied channel.  Every step of a thread is atomic, and any thread may take the
next step, so the runs of `World.step` are all the interleavings of the calls.

The mutex is not a separate object: who holds it, and how, is read off the program counters.  Besides the
registry and the threads, a world records the `channel->stop(ec)` calls made so far and, as ghost state that
no step reads, the order in which the calls took effect (`effects`) and, for each call, the calls that had
returned when it was invoked (`Thread.after`).
-/

set_option linter.unusedSectionVars false

namespace BitprimNetwork

namespace Connections

variable {α : Type} [DecidableEq α] [Channel α]

/-! ### Calls split at the lock -/

/-- What a writer finds while it holds the upgradable ownership: the reply it returns with, or `none` when it
goes on to write. -/
def Call.lookup : Call α → Connections α → Option (Reply α)
  | .store channel, c =>
    if !c.stopped && !c.channels.any (storeMatch channel) then none
    else some (.code (if c.stopped then .serviceStopped else .addressInUse))
  | .remove channel, c => if channel ∈ c.channels then none else some (.code .notFound)
  | .stop _, c => if !c.stopped then none else some (.list [])
  | call, c => some (call.apply c).1

/-- What a writer does while it holds the mutex exclusively; for `stop`, the reply is the list it will copy
once it has downgraded. -/
def Call.write : Call α → Connections α → Reply α × Connections α
  | .store channel, c => (.code .success, { c with channels := c.channels ++ [channel] })
  | .remove channel, c => (.code .success, { c with channels := c.channels.erase channel })
  | .stop _, c => (.list c.channels, { c with stopped := true })
  | call, c => call.apply c

theorem Call.apply_of_lookup_some {call : Call α} {c : Connections α} {r : Reply α}
    (h : call.lookup c = some r) : call.apply c = (r, c) := by
  cases call <;> simp only [Call.lookup, Call.apply] at h ⊢
  case store ch =>
    cases h0 : c.stopped <;> cases hm : c.channels.any (storeMatch ch) <;> simp [h0, hm] at h
    · have hf : ¬ Fresh ch c.channels := by rw [← any_storeMatch_eq_false, hm]; simp
      simp [safeStore_of_not_fresh h0 hf, ← h]
    all_goals simp [safeStore_of_stopped h0, ← h]
  case remove ch =>
    by_cases hm : ch ∈ c.channels <;> simp [hm] at h
    simp [remove_of_not_mem hm, ← h]
  case stop ec =>
    cases h0 : c.stopped <;> simp [h0] at h
    simp [stopSnapshot_of_stopped h0, ← h]
  all_goals cases h; rfl

theorem Call.apply_of_lookup_none {call : Call α} {c : Connections α}
    (h : call.lookup c = none) : call.apply c = call.write c := by
  cases call <;> simp only [Call.lookup, Call.apply, Call.write] at h ⊢
  case store ch =>
    cases h0 : c.stopped <;> cases hm : c.channels.any (storeMatch ch) <;> simp [h0, hm] at h
    have hf : Fresh ch c.channels := by rw [← any_storeMatch_eq_false, hm]
    simp [safeStore_of_fresh h0 hf, h0]
  case remove ch =>
    by_cases hm : ch ∈ c.channels <;> simp [hm] at h
    simp [remove_of_mem hm]
  case stop ec =>
    cases h0 : c.stopped <;> simp [h0] at h
    simp [stopSnapshot_of_running h0]

theorem Call.apply_reader {call : Call α} (h : call.isReader = true) (c : Connections α) :
    (call.apply c).2 = c := by
  cases call <;> first | rfl | cases h

theorem Call.isStop_of_isReader {call : Call α} (h : call.isReader = true) : call.isStop = false := by
  cases call <;> first | rfl | cases h

theorem Call.lookup_of_isStop {call : Call α} {c : Connections α} {r : Reply α} (hs : call.isStop = true)
    (h : call.lookup c = some r) : r = .list [] := by
  cases call <;> simp [Call.isStop] at hs
  simp only [Call.lookup] at h
  split at h <;> simp_all

theorem Call.write_of_isStop {call : Call α} (hs : call.isStop = true) (c : Connections α) :
    call.write c = (.list c.channels, { c with stopped := true }) := by
  cases call <;> first | rfl | cases hs

/-! ### Threads -/

/-- Where a thread is in its call. -/
inductive Pc (α : Type) where
  /-- Invoked; holds nothing. -/
  | start
  /-- Holds the mutex shared, about to read. -/
  | shared
  /-- Has read, about to `unlock_shared`. -/
  | sharedDone (reply : Reply α)
  /-- Holds the upgradable ownership, about to look. -/
  | upgrade
  /-- Must write: in `unlock_upgrade_and_lock`, waiting for the shared owners to leave. -/
  | upgrading
  /-- Holds the mutex exclusively, about to write. -/
  | exclusive
  /-- Has written, about to `unlock`. -/
  | unlocking (reply : Reply α)
  /-- `stop` has set `stopped_`, about to `unlock_and_lock_upgrade`. -/
  | downgrading
  /-- `stop` holds the upgradable ownership again, about to copy `channels_`. -/
  | copying
  /-- About to `unlock_upgrade`. -/
  | releasing (reply : Reply α)
  /-- `stop` has released the mutex and calls `channel->stop(ec)` on the rest of its copy. -/
  | fanout (ec : Code) (snapshot rest : List α)
  /-- Returned. -/
  | done (reply : Reply α)
  deriving DecidableEq, Repr

/-- The thread has returned. -/
def Pc.isDone : Pc α → Bool
  | .done _ => true
  | _ => false

/-- The thread holds the mutex shared. -/
def Pc.holdsShared : Pc α → Bool
  | .shared | .sharedDone _ => true
  | _ => false

/-- The thread holds the mutex exclusively. -/
def Pc.holdsExclusive : Pc α → Bool
  | .exclusive | .unlocking _ | .downgrading => true
  | _ => false

/-- The thread holds the upgradable ownership or the exclusive one: no other thread can. -/
def Pc.holdsWriter : Pc α → Bool
  | .upgrade | .upgrading | .copying | .releasing _ => true
  | pc => pc.holdsExclusive

/-- Where a call goes after `unlock_upgrade`: `stop` on to its copied channels, the others return. -/
def Call.afterRelease : Call α → Reply α → Pc α
  | .stop ec, .list l => .fanout ec l l
  | _, r => .done r

/-- A call in flight. -/
structure Thread (α : Type) where
  call : Call α
  pc : Pc α
  /-- Ghost: the threads that had returned when this one was invoked. -/
  after : List Nat
  deriving DecidableEq, Repr

/-- The registry, the threads (indexed by invocation), the `channel->stop(ec)` calls made, by thread, and the
ghost order of effects. -/
structure World (α : Type) where
  registry : Connections α
  threads : List (Thread α)
  stops : List (Nat × α × Code)
  effects : List (Effect α)
  deriving DecidableEq, Repr

/-- A scheduling event: a new call on a thread of its own, or one atomic step of thread `i`. -/
inductive Event (α : Type) where
  | invoke (call : Call α)
  | advance (i : Nat)
  deriving DecidableEq, Repr

/-- The result of one atomic step of a thread. -/
structure Outcome (α : Type) where
  pc : Pc α
  registry : Connections α
  effect : Option (Reply α)
  stop : Option (α × Code)

namespace World

/-- No thread yet, and the registry as constructed. -/
def init : World α := ⟨empty, [], [], []⟩

/-- Some thread holds the mutex shared. -/
def sharedHeld (w : World α) : Bool := w.threads.any (·.pc.holdsShared)

/-- Some thread holds the mutex exclusively. -/
def exclusiveHeld (w : World α) : Bool := w.threads.any (·.pc.holdsExclusive)

/-- Some thread holds the upgradable or the exclusive ownership. -/
def writerHeld (w : World α) : Bool := w.threads.any (·.pc.holdsWriter)

/-- The threads that have returned. -/
def returned (w : World α) : List Nat :=
  (List.range w.threads.length).filter fun j => w.threads[j]?.any (·.pc.isDone)

end World

/-- One atomic step of a thread in the world, as its call's code runs; `none` while it waits on the mutex,
and once it has returned. -/
def Thread.next (th : Thread α) (w : World α) : Option (Outcome α) :=
  let c := w.registry
  match th.pc with
  | .start =>
    if th.call.isReader then
      if w.exclusiveHeld then none else some ⟨.shared, c, none, none⟩
    else if w.writerHeld then none else some ⟨.upgrade, c, none, none⟩
  | .shared => some ⟨.sharedDone (th.call.apply c).1, c, some (th.call.apply c).1, none⟩
  | .sharedDone r => some ⟨.done r, c, none, none⟩
  | .upgrade =>
    match th.call.lookup c with
    | some r => some ⟨.releasing r, c, some r, none⟩
    | none => some ⟨.upgrading, c, none, none⟩
  | .upgrading => if w.sharedHeld then none else some ⟨.exclusive, c, none, none⟩
  | .exclusive =>
    some ⟨if th.call.isStop then .downgrading else .unlocking (th.call.write c).1,
      (th.call.write c).2, some (th.call.write c).1, none⟩
  | .unlocking r => some ⟨.done r, c, none, none⟩
  | .downgrading => some ⟨.copying, c, none, none⟩
  | .copying => some ⟨.releasing (.list c.channels), c, none, none⟩
  | .releasing r => some ⟨th.call.afterRelease r, c, none, none⟩
  | .fanout _ snapshot [] => some ⟨.done (.list snapshot), c, none, none⟩
  | .fanout ec snapshot (channel :: rest) => some ⟨.fanout ec snapshot rest, c, none, some (channel, ec)⟩
  | .done _ => none

namespace World

/-- Thread `i` takes the step `o`. -/
def perform (w : World α) (i : Nat) (th : Thread α) (o : Outcome α) : World α :=
  { registry := o.registry
    threads := w.threads.set i { th with pc := o.pc }
    stops := w.stops ++ (o.stop.map fun s => (i, s)).toList
    effects := w.effects ++ (o.effect.map fun r => ⟨i, th.call, r⟩).toList }

/-- One scheduling event; `none` when the chosen thread cannot move. -/
def step (w : World α) : Event α → Option (World α)
  | .invoke call => some { w with threads := w.threads ++ [⟨call, .start, w.returned⟩] }
  | .advance i =>
    match w.threads[i]? with
    | none => none
    | some th => (th.next w).map (w.perform i th)

/-- The worlds that some interleaving of calls reaches. -/
inductive Reachable : World α → Prop
  | init : Reachable init
  | step {w w' : World α} (e : Event α) : Reachable w → w.step e = some w' → Reachable w'

/-- Events taken in turn; `none` when one of them cannot happen. -/
def run (w : World α) : List (Event α) → Option (World α)
  | [] => some w
  | e :: es => (w.step e).bind fun w' => w'.run es

theorem Reachable.of_run {w w' : World α} (hw : w.Reachable) {es : List (Event α)}
    (h : w.run es = some w') : w'.Reachable := by
  induction es generalizing w with
  | nil => cases h; exact hw
  | cons e es ih =>
    simp only [run, Option.bind_eq_some] at h
    obtain ⟨w₁, h₁, h₂⟩ := h
    exact ih (.step e hw h₁) h₂

/-- The threads in the order their calls took effect. -/
def order (w : World α) : List Nat := w.effects.map Effect.id

/-- The `channel->stop(ec)` calls thread `i` has made, in order. -/
def issued (w : World α) (i : Nat) : List (α × Code) :=
  (w.stops.filter fun s => s.1 == i).map Prod.snd

/-! ### The invariant -/

/-- The mutex, as the program counters hold it: at most one thread owns it upgradable or exclusively, and no
thread owns it shared while one owns it exclusively. -/
structure MutexOk (w : World α) : Prop where
  writer : ∀ (i j : Nat) (thi thj : Thread α), w.threads[i]? = some thi → w.threads[j]? = some thj →
    thi.pc.holdsWriter → thj.pc.holdsWriter → i = j
  exclusive : ∀ (i j : Nat) (thi thj : Thread α), w.threads[i]? = some thi → w.threads[j]? = some thj →
    thi.pc.holdsExclusive → thj.pc.holdsShared → False

/-- The `channel->stop(ec)` calls a returned call has made: the whole copy for `stop`, none otherwise. -/
def fannedOut : Call α → Reply α → List (α × Code)
  | .stop ec, .list l => l.map (·, ec)
  | _, _ => []

/-- What thread `i`'s program counter says of the world.  Before its effect a call is not in the order and
has stopped no channel; a writer past its look still finds what it found, since no other thread can write;
`stop` past its write finds the registry stopped and its effect's list equal to `channels_`; after its effect
a call is in the order with the reply it will return, and `stop` has stopped exactly the channels of its copy
it has reached. -/
def ThreadOk (w : World α) (i : Nat) (th : Thread α) : Prop :=
  match th.pc with
  | .start | .upgrade => i ∉ w.order ∧ w.issued i = []
  | .shared => i ∉ w.order ∧ w.issued i = [] ∧ th.call.isReader = true
  | .upgrading | .exclusive => i ∉ w.order ∧ w.issued i = [] ∧ th.call.lookup w.registry = none
  | .downgrading | .copying =>
    th.call.isStop = true ∧ w.registry.stopped = true ∧ ⟨i, th.call, .list w.registry.channels⟩ ∈ w.effects ∧
      w.issued i = []
  | .sharedDone r | .unlocking r =>
    ⟨i, th.call, r⟩ ∈ w.effects ∧ w.issued i = [] ∧ th.call.isStop = false
  | .releasing r =>
    ⟨i, th.call, r⟩ ∈ w.effects ∧ w.issued i = [] ∧ (th.call.isStop = true → ∃ l, r = .list l)
  | .fanout ec snapshot rest =>
    th.call = .stop ec ∧ ⟨i, th.call, .list snapshot⟩ ∈ w.effects ∧
      ∃ pre, snapshot = pre ++ rest ∧ w.issued i = pre.map (·, ec)
  | .done r => ⟨i, th.call, r⟩ ∈ w.effects ∧ w.issued i = fannedOut th.call r

theorem fannedOut_of_not_stop {call : Call α} (hs : call.isStop = false) (r : Reply α) :
    fannedOut call r = [] := by
  cases call <;> first | rfl | cases hs

/-- The invariant of every reachable world. -/
structure Inv (w : World α) : Prop where
  mutex : w.MutexOk
  thread : ∀ i th, w.threads[i]? = some th → w.ThreadOk i th
  nodup : w.order.Nodup
  call : ∀ e ∈ w.effects, ∃ th, w.threads[e.id]? = some th ∧ th.call = e.call
  replays : Replays w.effects empty w.registry
  realtime : ∀ i th, w.threads[i]? = some th → ∀ j ∈ th.after,
    j ∈ w.order ∧ (i ∈ w.order → [j, i].Sublist w.order)
  stops : ∀ s ∈ w.stops, s.1 < w.threads.length

/-! ### Frame lemmas for one step -/

variable {w : World α} {i j : Nat} {th : Thread α} {o : Outcome α}

@[simp] theorem perform_registry : (w.perform i th o).registry = o.registry := rfl

@[simp] theorem perform_effects :
    (w.perform i th o).effects = w.effects ++ (o.effect.map fun r => ⟨i, th.call, r⟩).toList := rfl

theorem perform_order : (w.perform i th o).order = w.order ++ (o.effect.map fun _ => i).toList := by
  cases h : o.effect <;> simp [order, h]

theorem perform_issued : (w.perform i th o).issued j =
    w.issued j ++ (if i = j then o.stop.toList else []) := by
  cases h : o.stop <;> by_cases hij : i = j <;> simp [issued, perform, h, hij]

theorem perform_thread (h : w.threads[i]? = some th) :
    (w.perform i th o).threads[j]? = if i = j then some { th with pc := o.pc } else w.threads[j]? := by
  have := (List.getElem?_eq_some_iff.1 h).1
  simp [perform, List.getElem?_set, this]

theorem mem_perform_order_of_ne (h : j ≠ i) : j ∈ (w.perform i th o).order ↔ j ∈ w.order := by
  cases he : o.effect <;> simp [perform_order, he, h]

/-- A thread's invariant survives any change of the world that does not put the thread in the order, leaves
its `channel->stop` calls alone, keeps every effect, and keeps the registry while the thread owns the
upgradable or exclusive lock. -/
theorem ThreadOk.mono {w' : World α} {thj : Thread α} (hok : w.ThreadOk j thj)
    (hord : j ∈ w'.order → j ∈ w.order) (hiss : w'.issued j = w.issued j)
    (heff : ∀ e ∈ w.effects, e ∈ w'.effects)
    (hreg : thj.pc.holdsWriter = true → w'.registry = w.registry) : w'.ThreadOk j thj := by
  cases hpc : thj.pc <;> simp only [ThreadOk, hpc, Pc.holdsWriter, Pc.holdsExclusive] at hok hreg ⊢
  case start | upgrade => exact ⟨mt hord hok.1, hiss ▸ hok.2⟩
  case shared => exact ⟨mt hord hok.1, hiss ▸ hok.2.1, hok.2.2⟩
  case upgrading | exclusive => rw [hreg trivial]; exact ⟨mt hord hok.1, hiss ▸ hok.2.1, hok.2.2⟩
  case downgrading | copying => rw [hreg trivial]; exact ⟨hok.1, hok.2.1, heff _ hok.2.2.1, hiss ▸ hok.2.2.2⟩
  case sharedDone | unlocking | releasing => exact ⟨heff _ hok.1, hiss ▸ hok.2.1, hok.2.2⟩
  case fanout => obtain ⟨h1, h2, pre, h3, h4⟩ := hok; exact ⟨h1, heff _ h2, pre, h3, hiss ▸ h4⟩
  case done => exact ⟨heff _ hok.1, hiss ▸ hok.2⟩

/-- A step of another thread keeps a thread's invariant, provided the registry does not change under a thread
that owns the upgradable or the exclusive lock. -/
theorem ThreadOk.perform_ne {thj : Thread α} (hok : w.ThreadOk j thj) (hij : i ≠ j)
    (hreg : thj.pc.holdsWriter = true → o.registry = w.registry) :
    (w.perform i th o).ThreadOk j thj :=
  hok.mono (mem_perform_order_of_ne (Ne.symm hij)).1 (by simp [perform_issued, hij])
    (fun _ he => by simp [he]) hreg

/-! ### One step of a thread -/

theorem afterRelease_holds (call : Call α) (r : Reply α) :
    (call.afterRelease r).holdsWriter = false ∧ (call.afterRelease r).holdsExclusive = false ∧
      (call.afterRelease r).holdsShared = false := by
  unfold Call.afterRelease; split <;> simp [Pc.holdsWriter, Pc.holdsExclusive, Pc.holdsShared]

/-- A thread acquires only what the mutex grants, and only the exclusive owner changes the registry. -/
theorem next_mutex (hn : th.next w = some o) :
    (o.pc.holdsWriter = true → th.pc.holdsWriter = true ∨ w.writerHeld = false) ∧
    (o.pc.holdsExclusive = true → th.pc.holdsExclusive = true ∨ w.sharedHeld = false) ∧
    (o.pc.holdsShared = true → th.pc.holdsShared = true ∨ w.exclusiveHeld = false) ∧
    (o.registry = w.registry ∨ th.pc = .exclusive) := by
  cases hpc : th.pc <;> simp only [Thread.next, hpc] at hn
  case start => split_ifs at hn <;> cases hn <;> simp_all [Pc.holdsWriter, Pc.holdsExclusive, Pc.holdsShared]
  case upgrade => split at hn <;> cases hn <;> simp [Pc.holdsWriter, Pc.holdsExclusive, Pc.holdsShared]
  case upgrading => split_ifs at hn; cases hn; simp_all [Pc.holdsWriter, Pc.holdsExclusive, Pc.holdsShared]
  case exclusive => cases hn; split <;> simp [Pc.holdsWriter, Pc.holdsExclusive, Pc.holdsShared]
  case releasing r => cases hn; simp [afterRelease_holds, Pc.holdsWriter]
  case fanout ec snapshot rest =>
    cases rest <;> cases hn <;> simp [Pc.holdsWriter, Pc.holdsExclusive, Pc.holdsShared]
  case done => cases hn
  all_goals cases hn; simp [Pc.holdsWriter, Pc.holdsExclusive, Pc.holdsShared]

/-- A step without an effect leaves the registry alone; a step with one is the call's first, and moves the
registry as the call run alone would. -/
theorem next_effect (hok : w.ThreadOk i th) (hn : th.next w = some o) :
    (o.effect = none → o.registry = w.registry) ∧
    (∀ r, o.effect = some r → i ∉ w.order ∧ th.call.apply w.registry = (r, o.registry)) := by
  cases hpc : th.pc <;> simp only [Thread.next, hpc] at hn <;> simp only [ThreadOk, hpc] at hok
  case start => split_ifs at hn <;> cases hn <;> simp
  case shared =>
    cases hn
    simpa using ⟨hok.1, Prod.ext rfl (Call.apply_reader hok.2.2 _)⟩
  case upgrade =>
    split at hn <;> cases hn
    · simpa using ⟨hok.1, Call.apply_of_lookup_some ‹_›⟩
    · simp
  case upgrading => split_ifs at hn; cases hn; simp
  case exclusive =>
    cases hn
    simpa using ⟨hok.1, Call.apply_of_lookup_none hok.2.2⟩
  case fanout ec snapshot rest => cases rest <;> cases hn <;> simp
  case done => cases hn
  all_goals cases hn; simp

/-- A step takes an effect only while the thread holds the mutex. -/
theorem next_effect_holds (hn : th.next w = some o) (he : o.effect ≠ none) :
    th.pc.holdsShared = true ∨ th.pc.holdsWriter = true := by
  cases hpc : th.pc <;> simp only [Thread.next, hpc] at hn <;>
    simp [Pc.holdsShared, Pc.holdsWriter, Pc.holdsExclusive]
  case start => split_ifs at hn <;> cases hn <;> simp at he
  case fanout ec snapshot rest => cases rest <;> cases hn <;> simp at he
  case done => cases hn

@[simp] theorem perform_issued_self : (w.perform i th o).issued i = w.issued i ++ o.stop.toList := by
  simp [perform_issued]

/-- The stepping thread's own invariant holds after its step. -/
theorem next_threadOk (hok : w.ThreadOk i th) (hn : th.next w = some o) :
    (w.perform i th o).ThreadOk i { th with pc := o.pc } := by
  cases hpc : th.pc <;> simp only [Thread.next, hpc] at hn <;> simp only [ThreadOk, hpc] at hok
  case start => split_ifs at hn with hr <;> cases hn <;> simp [ThreadOk, perform_order, hok, hr]
  case shared =>
    cases hn
    simp [ThreadOk, hok, Call.isStop_of_isReader hok.2.2]
  case sharedDone r | unlocking r =>
    cases hn
    simp [ThreadOk, hok, fannedOut_of_not_stop hok.2.2]
  case upgrade =>
    split at hn <;> cases hn
    · exact ⟨by simp, by simp [hok], fun hs => ⟨[], Call.lookup_of_isStop hs ‹_›⟩⟩
    · exact ⟨by simpa [perform_order] using hok.1, by simp [hok.2], ‹_›⟩
  case upgrading => split_ifs at hn; cases hn; simpa [ThreadOk, perform_order] using hok
  case exclusive =>
    cases hn
    cases hs : th.call.isStop
    · simp [ThreadOk, hok, hs]
    · simp [ThreadOk, hok, hs, Call.write_of_isStop hs]
  case downgrading => cases hn; simpa [ThreadOk] using hok
  case copying => cases hn; simp [ThreadOk, hok]
  case releasing r =>
    cases hn
    obtain ⟨hm, hi, hl⟩ := hok
    cases hs : th.call.isStop
    · have : th.call.afterRelease r = .done r := by
        cases hc : th.call <;> simp_all [Call.isStop, Call.afterRelease]
      simpa [ThreadOk, this, hi, fannedOut_of_not_stop hs] using hm
    · obtain ⟨l, rfl⟩ := hl hs
      obtain ⟨ec, hc⟩ := Call.isStop_iff.1 hs
      simp only [hc, Call.afterRelease, ThreadOk]
      exact ⟨trivial, by simpa [hc] using hm, [], rfl, by simp [hi]⟩
  case fanout ec snapshot rest =>
    obtain ⟨hc, hm, pre, hsnap, hi⟩ := hok
    cases rest with
    | nil =>
      cases hn
      rw [List.append_nil] at hsnap
      subst hsnap
      simpa [ThreadOk, hc, fannedOut, hi] using hm
    | cons ch rest =>
      cases hn
      exact ⟨hc, by simpa using hm, pre ++ [ch], by simpa using hsnap, by simp [hi]⟩
  case done => cases hn

/-! ### The invariant is kept -/

private theorem any_eq_false_getElem? {β : Type} {l : List β} {p : β → Bool} (h : l.any p = false) {k : Nat} {x : β}
    (hx : l[k]? = some x) : p x = false := by
  rw [List.any_eq_false] at h
  simpa using h x (List.mem_iff_getElem?.2 ⟨k, hx⟩)

theorem MutexOk.perform (hm : w.MutexOk) (hth : w.threads[i]? = some th) (hn : th.next w = some o) :
    (w.perform i th o).MutexOk := by
  obtain ⟨hw, hx, hs, -⟩ := next_mutex hn
  have hget := fun k => perform_thread (j := k) (o := o) hth
  constructor
  · intro k₁ k₂ t₁ t₂ h₁ h₂ hw₁ hw₂
    rw [hget] at h₁ h₂
    split_ifs at h₁ h₂ with e₁ e₂ e₂ <;> subst_vars
    · rfl
    · cases h₁; rcases hw hw₁ with h | h
      · exact hm.writer _ _ _ _ hth h₂ h hw₂
      · simp [any_eq_false_getElem? h h₂] at hw₂
    · cases h₂; rcases hw hw₂ with h | h
      · exact hm.writer _ _ _ _ h₁ hth hw₁ h
      · simp [any_eq_false_getElem? h h₁] at hw₁
    · exact hm.writer _ _ _ _ h₁ h₂ hw₁ hw₂
  · intro k₁ k₂ t₁ t₂ h₁ h₂ hx₁ hs₂
    rw [hget] at h₁ h₂
    split_ifs at h₁ h₂ with e₁ e₂ e₂ <;> subst_vars
    · cases h₁; cases h₂; revert hx₁ hs₂; cases o.pc <;> simp [Pc.holdsExclusive, Pc.holdsShared]
    · cases h₁; rcases hx hx₁ with h | h
      · exact hm.exclusive _ _ _ _ hth h₂ h hs₂
      · simp [any_eq_false_getElem? h h₂] at hs₂
    · cases h₂; rcases hs hs₂ with h | h
      · exact hm.exclusive _ _ _ _ h₁ hth hx₁ h
      · simp [any_eq_false_getElem? h h₁] at hx₁
    · exact hm.exclusive _ _ _ _ h₁ h₂ hx₁ hs₂

private theorem getElem?_concat_eq_some {β : Type} {l : List β} {a b : β} {k : Nat} (h : (l ++ [a])[k]? = some b) :
    l[k]? = some b ∨ (k = l.length ∧ a = b) := by
  rcases Nat.lt_trichotomy k l.length with hk | rfl | hk
  · exact .inl (by rwa [List.getElem?_append_left hk] at h)
  · exact .inr ⟨rfl, by simpa using h⟩
  · have hlen : (l ++ [a]).length ≤ k := by simp only [List.length_append, List.length_singleton]; omega
    simp [List.getElem?_eq_none hlen] at h

theorem Inv.lt_of_mem_order (hi : w.Inv) (h : j ∈ w.order) : j < w.threads.length := by
  obtain ⟨e, he, rfl⟩ := List.mem_map.1 h
  obtain ⟨th, hth, -⟩ := hi.call e he
  exact (List.getElem?_eq_some_iff.1 hth).1

theorem Inv.init : (World.init : World α).Inv where
  mutex := ⟨by simp [World.init], by simp [World.init]⟩
  thread := by simp [World.init]
  nodup := by simp [World.init, order]
  call := by simp [World.init]
  replays := rfl
  realtime := by simp [World.init]
  stops := by simp [World.init]

/-- A new call, on a thread of its own, keeps the invariant. -/
theorem Inv.invoke (hi : w.Inv) (call : Call α) :
    ({ w with threads := w.threads ++ [⟨call, .start, w.returned⟩] } : World α).Inv := by
  have hfresh : w.threads.length ∉ w.order := fun h => (hi.lt_of_mem_order h).false
  have hnone : w.issued w.threads.length = [] := by
    simp only [issued, List.map_eq_nil_iff, List.filter_eq_nil_iff, beq_iff_eq]
    exact fun s hs he => (he ▸ hi.stops s hs).false
  constructor
  -- the new thread holds nothing
  · constructor <;> intro k₁ k₂ t₁ t₂ h₁ h₂ <;>
      rcases getElem?_concat_eq_some h₁ with h₁ | ⟨rfl, rfl⟩ <;>
      rcases getElem?_concat_eq_some h₂ with h₂ | ⟨rfl, rfl⟩
    · exact hi.mutex.writer _ _ _ _ h₁ h₂
    iterate 3 simp [Pc.holdsWriter, Pc.holdsExclusive]
    · exact hi.mutex.exclusive _ _ _ _ h₁ h₂
    iterate 3 simp [Pc.holdsShared, Pc.holdsExclusive]
  · intro k t h
    rcases getElem?_concat_eq_some h with h | ⟨rfl, rfl⟩
    · exact (hi.thread k t h).mono id rfl (fun _ => id) (fun _ => rfl)
    · exact ⟨hfresh, hnone⟩
  · exact hi.nodup
  · intro e he
    obtain ⟨t, ht, hc⟩ := hi.call e he
    exact ⟨t, by rw [List.getElem?_append_left (List.getElem?_eq_some_iff.1 ht).1, ht], hc⟩
  · exact hi.replays
  · intro k t h
    rcases getElem?_concat_eq_some h with h | ⟨rfl, rfl⟩
    · exact hi.realtime k t h
    · intro j hj
      simp only [returned, List.mem_filter, List.mem_range] at hj
      cases htj : w.threads[j]? with
      | none => simp [htj] at hj
      | some tj =>
      obtain ⟨r, hr⟩ : ∃ r, tj.pc = .done r := by
        revert hj; simp only [htj, Option.any_some]; cases tj.pc <;> simp [Pc.isDone]
      have hok := hi.thread j tj htj
      simp only [ThreadOk, hr] at hok
      exact ⟨List.mem_map.2 ⟨_, hok.1, rfl⟩, fun h => absurd h hfresh⟩
  · intro s hs
    simpa using Nat.lt_succ_of_lt (hi.stops s hs)

/-- One step of a thread keeps the invariant. -/
theorem Inv.advance (hi : w.Inv) (hth : w.threads[i]? = some th) (hn : th.next w = some o) :
    (w.perform i th o).Inv := by
  obtain ⟨-, -, -, hreg⟩ := next_mutex hn
  obtain ⟨hnone, hsome⟩ := next_effect (hi.thread i th hth) hn
  have hget := fun k => perform_thread (j := k) (o := o) hth
  have hsub : w.order.Sublist (w.perform i th o).order := by
    rw [perform_order]; exact List.sublist_append_left _ _
  constructor
  · exact hi.mutex.perform hth hn
  · intro k t h
    rw [hget] at h
    split_ifs at h with hk
    · subst hk; cases h; exact next_threadOk (hi.thread i th hth) hn
    · refine (hi.thread k t h).perform_ne hk fun hw => hreg.resolve_right fun hpc => hk ?_
      exact hi.mutex.writer _ _ _ _ hth h (by simp [hpc, Pc.holdsWriter, Pc.holdsExclusive]) hw
  · rw [perform_order]
    cases he : o.effect with
    | none => simpa using hi.nodup
    | some r => simpa [List.nodup_append] using ⟨hi.nodup, (hsome r he).1⟩
  · intro e he
    simp only [perform_effects, List.mem_append] at he
    rcases he with he | he
    · obtain ⟨t, ht, hc⟩ := hi.call e he
      rw [hget]
      split_ifs with hk
      · subst hk; rw [hth] at ht; cases ht; exact ⟨_, rfl, hc⟩
      · exact ⟨t, ht, hc⟩
    · cases he' : o.effect <;> simp [he'] at he
      subst he
      exact ⟨{ th with pc := o.pc }, by rw [hget]; simp, rfl⟩
  · cases he : o.effect with
    | none => simpa [he, hnone he] using hi.replays
    | some r =>
      simpa [he] using hi.replays.concat (e := ⟨i, th.call, r⟩) (hsome r he).2
  · intro k t h j hj
    obtain ⟨t₀, h₀, hafter⟩ : ∃ t₀, w.threads[k]? = some t₀ ∧ t₀.after = t.after := by
      rw [hget] at h
      split_ifs at h with hk
      · subst hk; cases h; exact ⟨th, hth, rfl⟩
      · exact ⟨t, h, rfl⟩
    obtain ⟨hj₁, hj₂⟩ := hi.realtime k t₀ h₀ j (hafter ▸ hj)
    refine ⟨hsub.subset hj₁, fun hk => ?_⟩
    by_cases hk₀ : k ∈ w.order
    · exact (hj₂ hk₀).trans hsub
    · rw [perform_order] at hk ⊢
      cases he : o.effect <;> simp only [he, Option.map_none', Option.map_some', Option.toList_none,
        Option.toList_some, List.append_nil, List.mem_append, List.mem_singleton] at hk ⊢
      · exact absurd hk hk₀
      · rcases hk with hk | rfl
        · exact absurd hk hk₀
        · exact (List.singleton_sublist.2 hj₁).append (List.Sublist.refl _)
  · intro s hs
    simp only [perform, List.mem_append, List.length_set] at hs ⊢
    rcases hs with hs | hs
    · exact hi.stops s hs
    · cases hst : o.stop <;> simp [hst] at hs
      subst hs
      exact (List.getElem?_eq_some_iff.1 hth).1

/-- Every step keeps the invariant. -/
theorem Inv.step (hi : w.Inv) {e : Event α} {w' : World α} (h : w.step e = some w') : w'.Inv := by
  cases e with
  | invoke call => cases h; exact hi.invoke call
  | advance i =>
    simp only [World.step] at h
    split at h
    · cases h
    · obtain ⟨o, hn, rfl⟩ := Option.map_eq_some'.1 h
      exact hi.advance ‹_› hn

theorem Reachable.inv {w : World α} (h : w.Reachable) : w.Inv := by
  induction h with
  | init => exact Inv.init
  | step _ _ h ih => exact ih.step h

end World

end Connections

end BitprimNetwork
