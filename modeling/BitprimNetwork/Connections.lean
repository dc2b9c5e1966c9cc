import BitprimNetwork.Basic

/-!
# The connection registry, one call at a time

`connections` (collections/connections.cpp) keeps `channels_`, a list of channel pointers, and `stopped_`,
under one upgradable reader/writer lock.  Here each call is the function its critical section computes, and
calls run one after the other from the empty registry (`Reachable`, `Replays`).  In every state so reached no two members
share an authority or a nonce (`Unique`, invariants R1 and R2 of the spec), `safe_store` admits exactly the
channels that keep it so (`safeStore_spec`), and `remove` deletes exactly its own channel
(`remove_reachable`).  The threads and the lock come in `ConnectionsThreads`.
-/

set_option linter.unusedSectionVars false

namespace BitprimNetwork

/-- What the registry reads of a `channel::ptr`.  Equality on the carrier is pointer equality; a channel's
authority and nonce are its own, fixed for its lifetime. -/
class Channel (α : Type) where
  authority : α → Authority
  nonce : α → UInt64

open Channel

/-- A channel object as the registry sees it: its address, and the authority and nonce it answers with. -/
structure Peer where
  address : Nat
  authority : Authority
  nonce : UInt64
  deriving DecidableEq, Repr

instance : Channel Peer := ⟨Peer.authority, Peer.nonce⟩

/-- `channels_` and `stopped_`. -/
structure Connections (α : Type) where
  channels : List α
  stopped : Bool
  deriving DecidableEq, Repr

namespace Connections

variable {α : Type} [DecidableEq α] [Channel α]

/-- The registry as constructed: empty and not stopped (`reserve` only sizes the vector). -/
def empty : Connections α := ⟨[], false⟩

/-! ### Critical sections -/

/-- `safe_copy`. -/
def safeCopy (c : Connections α) : List α := c.channels

/-- `safe_exists`: some member has the authority. -/
def safeExists (address : Authority) (c : Connections α) : Bool :=
  c.channels.any fun entry => authority entry == address

/-- `safe_count`. -/
def safeCount (c : Connections α) : Nat := c.channels.length

/-- `safe_remove`: `std::find` the pointer and erase that entry. -/
def safeRemove (channel : α) (c : Connections α) : Bool × Connections α :=
  if channel ∈ c.channels then (true, { c with channels := c.channels.erase channel }) else (false, c)

/-- `remove`: the code its handler receives. -/
def remove (channel : α) (c : Connections α) : Code × Connections α :=
  let (found, c') := safeRemove channel c
  (if found then .success else .notFound, c')

/-- The `match` of `safe_store`: an entry with the same authority or the same nonce. -/
def storeMatch (channel entry : α) : Bool :=
  authority entry == authority channel || nonce entry == nonce channel

/-- `safe_store`. -/
def safeStore (channel : α) (c : Connections α) : Code × Connections α :=
  let stopped := c.stopped
  if !stopped && !c.channels.any (storeMatch channel) then
    (.success, { c with channels := c.channels ++ [channel] })
  else
    (if stopped then .serviceStopped else .addressInUse, c)

/-- The critical section of `stop`: the first call marks the registry stopped and copies `channels_`; a
later call copies nothing. -/
def stopSnapshot (c : Connections α) : List α × Connections α :=
  if !c.stopped then (c.channels, { c with stopped := true }) else ([], c)

/-! ### Calls run one at a time -/

/-- A call on the registry. -/
inductive Call (α : Type) where
  | store (channel : α)
  | remove (channel : α)
  | «exists» (address : Authority)
  | count
  | copy
  | stop (ec : Code)
  deriving DecidableEq, Repr

/-- What a call reports: the code its handler receives or the value it returns; for `stop`, the list it
copied. -/
inductive Reply (α : Type) where
  | code (ec : Code)
  | truth (value : Bool)
  | size (value : Nat)
  | list (value : List α)
  deriving DecidableEq, Repr

/-- A call that takes the mutex shared. -/
def Call.isReader : Call α → Bool
  | .exists _ | .count | .copy => true
  | _ => false

/-- The call is `stop`. -/
def Call.isStop : Call α → Bool
  | .stop _ => true
  | _ => false

/-- A call run alone, its critical section at one instant. -/
def Call.apply : Call α → Connections α → Reply α × Connections α
  | .store channel, c => let (ec, c') := safeStore channel c; (.code ec, c')
  | .remove channel, c => let (ec, c') := Connections.remove channel c; (.code ec, c')
  | .exists address, c => (.truth (safeExists address c), c)
  | .count, c => (.size (safeCount c), c)
  | .copy, c => (.list (safeCopy c), c)
  | .stop _, c => let (l, c') := stopSnapshot c; (.list l, c')

/-- A call that took effect: the thread that made it, the call, and what it reported. -/
structure Effect (α : Type) where
  id : Nat
  call : Call α
  reply : Reply α
  deriving DecidableEq, Repr

/-- The calls, run one at a time from `c`, each report what is recorded for it, and leave `c'`. -/
def Replays : List (Effect α) → Connections α → Connections α → Prop
  | [], c, c' => c' = c
  | e :: es, c, c' => (e.call.apply c).1 = e.reply ∧ Replays es (e.call.apply c).2 c'

/-- The registries that calls run one at a time reach from the empty one. -/
inductive Reachable : Connections α → Prop
  | empty : Reachable empty
  | apply {c : Connections α} (call : Call α) : Reachable c → Reachable (call.apply c).2

/-- No member has the channel's authority or its nonce: what `safe_store` requires. -/
def Fresh (channel : α) (l : List α) : Prop :=
  ∀ e ∈ l, authority e ≠ authority channel ∧ nonce e ≠ nonce channel

/-- No two members share an authority and no two share a nonce (invariants R1 and R2). -/
def Unique (l : List α) : Prop := l.Pairwise fun a b => authority a ≠ authority b ∧ nonce a ≠ nonce b

/-! ### Spec lemmas -/

variable {channel : α} {c : Connections α}

theorem safeRemove_of_mem (h : channel ∈ c.channels) :
    safeRemove channel c = (true, { c with channels := c.channels.erase channel }) := if_pos h

theorem safeRemove_of_not_mem (h : channel ∉ c.channels) : safeRemove channel c = (false, c) := if_neg h

theorem remove_of_mem (h : channel ∈ c.channels) :
    remove channel c = (.success, { c with channels := c.channels.erase channel }) := by
  simp [remove, safeRemove_of_mem h]

theorem remove_of_not_mem (h : channel ∉ c.channels) : remove channel c = (.notFound, c) := by
  simp [remove, safeRemove_of_not_mem h]

theorem any_storeMatch_eq_false : c.channels.any (storeMatch channel) = false ↔ Fresh channel c.channels := by
  simp [storeMatch, Fresh]

theorem not_fresh_iff : ¬ Fresh channel c.channels ↔
    ∃ e ∈ c.channels, authority e = authority channel ∨ nonce e = nonce channel := by
  simp only [Fresh, not_forall, not_and_or, not_not, exists_prop]

theorem safeStore_of_stopped (h : c.stopped = true) : safeStore channel c = (.serviceStopped, c) := by
  simp [safeStore, h]

theorem safeStore_of_not_fresh (h0 : c.stopped = false) (h : ¬ Fresh channel c.channels) :
    safeStore channel c = (.addressInUse, c) := by
  rw [← any_storeMatch_eq_false, Bool.not_eq_false] at h
  simp [safeStore, h0, h]

theorem safeStore_of_fresh (h0 : c.stopped = false) (h : Fresh channel c.channels) :
    safeStore channel c = (.success, { c with channels := c.channels ++ [channel] }) := by
  rw [← any_storeMatch_eq_false] at h
  simp [safeStore, h0, h]

theorem stopSnapshot_of_running (h : c.stopped = false) :
    stopSnapshot c = (c.channels, { c with stopped := true }) := by
  simp [stopSnapshot, h]

theorem stopSnapshot_of_stopped (h : c.stopped = true) : stopSnapshot c = ([], c) := by
  simp [stopSnapshot, h]

/-- Everything a call can do to the registry: nothing, append a fresh channel while running, erase a member,
or mark a running registry stopped. -/
theorem Call.apply_cases (call : Call α) (c : Connections α) :
    (call.apply c).2 = c ∨
    (∃ ch, call = .store ch ∧ c.stopped = false ∧ Fresh ch c.channels ∧
      (call.apply c).2 = { c with channels := c.channels ++ [ch] }) ∨
    (∃ ch, call = .remove ch ∧ ch ∈ c.channels ∧
      (call.apply c).2 = { c with channels := c.channels.erase ch }) ∨
    (∃ ec, call = .stop ec ∧ c.stopped = false ∧ (call.apply c).2 = { c with stopped := true }) := by
  cases call with
  | store ch =>
    cases h0 : c.stopped
    · by_cases hf : Fresh ch c.channels
      · exact .inr (.inl ⟨ch, rfl, rfl, hf, by simp only [Call.apply, safeStore_of_fresh h0 hf, h0]⟩)
      · exact .inl (by simp only [Call.apply, safeStore_of_not_fresh h0 hf])
    · exact .inl (by simp only [Call.apply, safeStore_of_stopped h0])
  | remove ch =>
    by_cases h : ch ∈ c.channels
    · exact .inr (.inr (.inl ⟨ch, rfl, h, by simp only [Call.apply, remove_of_mem h]⟩))
    · exact .inl (by simp only [Call.apply, remove_of_not_mem h])
  | stop ec =>
    cases h0 : c.stopped
    · exact .inr (.inr (.inr ⟨ec, rfl, rfl, by simp only [Call.apply, stopSnapshot_of_running h0]⟩))
    · exact .inl (by simp only [Call.apply, stopSnapshot_of_stopped h0])
  | _ => exact .inl rfl

theorem replays_append {es₁ es₂ : List (Effect α)} {c c'' : Connections α} :
    Replays (es₁ ++ es₂) c c'' ↔ ∃ c', Replays es₁ c c' ∧ Replays es₂ c' c'' := by
  induction es₁ generalizing c with
  | nil => simp [Replays]
  | cons e es ih => simp [Replays, ih, and_assoc]

theorem Replays.concat {es : List (Effect α)} {c c' c'' : Connections α} {e : Effect α}
    (h : Replays es c c') (he : e.call.apply c' = (e.reply, c'')) : Replays (es ++ [e]) c c'' :=
  replays_append.2 ⟨c', h, by simp [Replays, he]⟩

theorem Replays.reachable {es : List (Effect α)} {c c' : Connections α} (h : Replays es c c')
    (hc : Reachable c) : Reachable c' := by
  induction es generalizing c with
  | nil => exact h ▸ hc
  | cons e es ih => exact ih h.2 (hc.apply e.call)

/-! ### Uniqueness -/

theorem Unique.nodup {l : List α} (h : Unique l) : l.Nodup :=
  h.imp fun {a b} hab (heq : a = b) => hab.1 (congrArg authority heq)

theorem Unique.ne_of_mem {l : List α} (h : Unique l) {a b : α} (ha : a ∈ l) (hb : b ∈ l) (hab : a ≠ b) :
    authority a ≠ authority b ∧ nonce a ≠ nonce b :=
  h.forall (fun _ _ h => ⟨h.1.symm, h.2.symm⟩) ha hb hab

theorem unique_concat {l : List α} (h : Unique l) (hf : Fresh channel l) : Unique (l ++ [channel]) :=
  List.pairwise_append.2 ⟨h, List.pairwise_singleton _ _, fun a ha b hb => by
    rw [List.mem_singleton.1 hb]; exact hf a ha⟩

theorem Call.apply_unique (call : Call α) (h : Unique c.channels) : Unique (call.apply c).2.channels := by
  rcases Call.apply_cases call c with he | ⟨ch, -, -, hf, he⟩ | ⟨ch, -, -, he⟩ | ⟨ec, -, -, he⟩ <;> rw [he]
  · exact h
  · exact unique_concat h hf
  · exact h.sublist (List.erase_sublist _ _)
  · exact h

/-- Invariants R1 and R2 hold in every registry that calls run one at a time reach. -/
theorem Reachable.unique (h : Reachable c) : Unique c.channels := by
  induction h with
  | empty => exact List.Pairwise.nil
  | apply call _ ih => exact call.apply_unique ih

/-! ### After the first `stop` -/

theorem Call.isStop_iff {call : Call α} : call.isStop = true ↔ ∃ ec, call = .stop ec := by
  cases call <;> simp [Call.isStop]

/-- On a stopped registry a call keeps it stopped and only removes members; `stop` copies nothing and
`store` reports `service_stopped`. -/
theorem Call.apply_of_stopped (call : Call α) (h : c.stopped = true) :
    (call.apply c).2.stopped = true ∧ (call.apply c).2.channels.Sublist c.channels ∧
    (call.isStop = true → (call.apply c).1 = .list []) ∧
    (∀ ch, call = .store ch → (call.apply c).1 = .code .serviceStopped) := by
  refine ⟨?_, ?_, fun hs => ?_, fun ch hc => ?_⟩
  · rcases Call.apply_cases call c with he | ⟨ch, -, h0, -, -⟩ | ⟨ch, -, -, he⟩ | ⟨ec, -, h0, -⟩ <;>
      simp_all
  · rcases Call.apply_cases call c with he | ⟨ch, -, h0, -, -⟩ | ⟨ch, -, -, he⟩ | ⟨ec, -, h0, -⟩ <;>
      simp_all [List.erase_sublist]
  · obtain ⟨ec, rfl⟩ := Call.isStop_iff.1 hs
    simp [Call.apply, stopSnapshot_of_stopped h]
  · subst hc
    simp [Call.apply, safeStore_of_stopped h]

/-- A call other than `stop` leaves `stopped_` as it is. -/
theorem Call.apply_stopped_of_not_stop (call : Call α) (hs : call.isStop = false) :
    (call.apply c).2.stopped = c.stopped := by
  rcases Call.apply_cases call c with he | ⟨ch, -, -, -, he⟩ | ⟨ch, -, -, he⟩ | ⟨ec, rfl, -, -⟩ <;>
    simp_all [Call.isStop]

theorem Replays.of_stopped {es : List (Effect α)} {c c' : Connections α} (h : Replays es c c')
    (hs : c.stopped = true) :
    c'.stopped = true ∧ c'.channels.Sublist c.channels ∧
    ∀ e ∈ es, (e.call.isStop = true → e.reply = .list []) ∧
      (∀ ch, e.call = .store ch → e.reply = .code .serviceStopped) := by
  induction es generalizing c with
  | nil => cases h; simpa using hs
  | cons e es ih =>
    obtain ⟨hr, h⟩ := h
    obtain ⟨hs', hsub, hstop, hstore⟩ := e.call.apply_of_stopped hs
    obtain ⟨ih₁, ih₂, ih₃⟩ := ih h hs'
    refine ⟨ih₁, ih₂.trans hsub, ?_⟩
    simp only [List.mem_cons, forall_eq_or_imp]
    exact ⟨⟨fun h => hr ▸ hstop h, fun ch h => hr ▸ hstore ch h⟩, ih₃⟩

theorem Replays.stopped_of_no_stop {es : List (Effect α)} {c c' : Connections α} (h : Replays es c c')
    (hno : ∀ e ∈ es, e.call.isStop = false) : c'.stopped = c.stopped := by
  induction es generalizing c with
  | nil => cases h; rfl
  | cons e es ih =>
    rw [ih h.2 fun e' he' => hno e' (List.mem_cons_of_mem _ he'),
      e.call.apply_stopped_of_not_stop (hno e (List.mem_cons_self _ _))]

/-- Once the registry is stopped, a channel removed by some call is gone for good. -/
theorem Replays.not_mem_of_remove {es : List (Effect α)} {c c' : Connections α} (h : Replays es c c')
    (hs : c.stopped = true) (hnd : c.channels.Nodup) {ch : α} (hr : ∃ e ∈ es, e.call = .remove ch) :
    ch ∉ c'.channels := by
  induction es generalizing c with
  | nil => simp at hr
  | cons e es ih =>
    obtain ⟨hs', hsub, -⟩ := e.call.apply_of_stopped hs
    simp only [List.mem_cons, exists_eq_or_imp] at hr
    rcases hr with hr | hr
    · have hgone : ch ∉ (e.call.apply c).2.channels := by
        by_cases hm : ch ∈ c.channels
        · simpa [hr, Call.apply, remove_of_mem hm] using hnd.not_mem_erase
        · exact fun h' => hm (hsub.subset h')
      exact fun h' => hgone ((h.2.of_stopped hs').2.1.subset h')
    · exact ih h.2 hs' (hnd.sublist hsub) hr

/-- Calls run from the empty registry, of which `e` is the first `stop`: the registry was running when `e`
took effect, and `e` copied its list; from then on the registry stays stopped, every later `stop` copies
nothing and every later `store` reports `service_stopped`, the list only shrinks, and once every copied
channel has been removed it is empty. -/
theorem Replays.first_stop {pre post : List (Effect α)} {e : Effect α} {c' : Connections α}
    (h : Replays (pre ++ e :: post) empty c') (hs : e.call.isStop = true)
    (hpre : ∀ e' ∈ pre, e'.call.isStop = false) :
    ∃ c, Replays pre empty c ∧ c.stopped = false ∧ e.reply = .list c.channels ∧ c.channels.Nodup ∧
      c'.stopped = true ∧ c'.channels.Sublist c.channels ∧
      (∀ e' ∈ post, (e'.call.isStop = true → e'.reply = .list []) ∧
        (∀ ch, e'.call = .store ch → e'.reply = .code .serviceStopped)) ∧
      ((∀ ch ∈ c.channels, ∃ e' ∈ post, e'.call = .remove ch) → c'.channels = []) := by
  obtain ⟨c, hc, hr, hpost⟩ := replays_append.1 h
  have h0 : c.stopped = false := (hc.stopped_of_no_stop hpre).trans rfl
  obtain ⟨ec, hec⟩ := Call.isStop_iff.1 hs
  have happ : e.call.apply c = (.list c.channels, { c with stopped := true }) := by
    simp [hec, Call.apply, stopSnapshot_of_running h0]
  rw [happ] at hr hpost
  have hnd := (hc.reachable .empty).unique.nodup
  obtain ⟨hs', hsub, hposts⟩ := hpost.of_stopped rfl
  refine ⟨c, hc, h0, hr.symm, hnd, hs', hsub, hposts, fun hrm => ?_⟩
  refine List.eq_nil_iff_forall_not_mem.2 fun ch hch => ?_
  exact hpost.not_mem_of_remove rfl hnd (hrm ch (hsub.subset hch)) hch

/-! ### `safe_store` and `remove` -/

/-- `safe_store` succeeds exactly on a running registry with no member sharing the channel's authority or
nonce, and then appends the channel; it reports `service_stopped` exactly when stopped and `address_in_use`
exactly on a match, and on both errors leaves the registry as it was. -/
theorem safeStore_spec (channel : α) (c : Connections α) :
    ((safeStore channel c).1 = .success ↔
      c.stopped = false ∧ ∀ e ∈ c.channels, authority e ≠ authority channel ∧ nonce e ≠ nonce channel) ∧
    ((safeStore channel c).1 = .success →
      (safeStore channel c).2 = { c with channels := c.channels ++ [channel] }) ∧
    ((safeStore channel c).1 = .serviceStopped ↔ c.stopped = true) ∧
    ((safeStore channel c).1 = .addressInUse ↔
      c.stopped = false ∧ ∃ e ∈ c.channels, authority e = authority channel ∨ nonce e = nonce channel) ∧
    ((safeStore channel c).1 ≠ .success → (safeStore channel c).2 = c) := by
  rw [← not_fresh_iff, show (∀ e ∈ c.channels, authority e ≠ authority channel ∧
    nonce e ≠ nonce channel) ↔ Fresh channel c.channels from Iff.rfl]
  cases h0 : c.stopped
  · by_cases hf : Fresh channel c.channels
    · simp [safeStore_of_fresh h0 hf, hf, h0]
    · simp [safeStore_of_not_fresh h0 hf, hf]
  · simp [safeStore_of_stopped h0]

/-- On a reachable registry `remove` succeeds exactly on a member, deletes that one entry keeping the others
in order, so that the count drops by one and, by uniqueness, neither the channel nor its authority is left;
on a non-member it reports `not_found` and changes nothing, so a second `remove` is always a no-op. -/
theorem remove_reachable (hc : Reachable c) (channel : α) :
    ((remove channel c).1 = .success ↔ channel ∈ c.channels) ∧
    (channel ∈ c.channels →
      (∃ l₁ l₂, c.channels = l₁ ++ channel :: l₂ ∧ (remove channel c).2.channels = l₁ ++ l₂) ∧
      (remove channel c).2.stopped = c.stopped ∧
      safeCount (remove channel c).2 + 1 = safeCount c ∧
      channel ∉ (remove channel c).2.channels ∧
      safeExists (authority channel) (remove channel c).2 = false) ∧
    (channel ∉ c.channels → remove channel c = (.notFound, c)) ∧
    remove channel (remove channel c).2 = (.notFound, (remove channel c).2) := by
  have hu := hc.unique
  by_cases h : channel ∈ c.channels
  · have hgone : channel ∉ c.channels.erase channel := hu.nodup.not_mem_erase
    obtain ⟨l₁, l₂, -, hl, he⟩ := List.exists_erase_eq h
    refine ⟨by simp [remove_of_mem h, h], fun _ => ⟨⟨l₁, l₂, hl, by simp [remove_of_mem h, he]⟩, ?_⟩, ?_,
      by
      rw [remove_of_mem h]; exact remove_of_not_mem (c := { c with channels := _ }) hgone⟩
    · refine ⟨by simp [remove_of_mem h], ?_, by simpa [remove_of_mem h] using hgone, ?_⟩
      · have := List.length_pos_of_mem h
        simp only [remove_of_mem h, safeCount, List.length_erase_of_mem h]
        omega
      · simp only [remove_of_mem h, safeExists, List.any_eq_false, beq_iff_eq]
        intro e he'
        exact (hu.ne_of_mem (List.mem_of_mem_erase he') h (fun hec => hgone (hec ▸ he'))).1
    · exact fun hn => absurd h hn
  · simp [remove_of_not_mem h, h]

/-- A peer stored into the empty registry, then removed: the registry forgets its authority. -/
theorem remove_reachable_stored :
    let p : Peer := ⟨1, ⟨0x01020304, 8333⟩, 42⟩
    let c := (Call.apply (.store p) (empty : Connections Peer)).2
    Reachable c ∧ (remove p c).1 = .success ∧ safeExists p.authority (remove p c).2 = false :=
  have hc : Reachable (Call.apply (.store ⟨1, ⟨0x01020304, 8333⟩, 42⟩) (empty : Connections Peer)).2 :=
    .apply _ .empty
  have hm : (⟨1, ⟨0x01020304, 8333⟩, 42⟩ : Peer) ∈
      (Call.apply (.store ⟨1, ⟨0x01020304, 8333⟩, 42⟩) (empty : Connections Peer)).2.channels := by
    decide
  ⟨hc, (remove_reachable hc _).1.2 hm, ((remove_reachable hc _).2.1 hm).2.2.2.2⟩

end Connections

end BitprimNetwork
