import BitprimNetwork.ConnectionsThreads

/-!
# What the lock buys

The invariant of `ConnectionsThreads`, read as properties of every interleaving of registry calls: the
interleaving is linearizable, with each call taking effect at one step while it holds the mutex
(`linearizable`); hence every reachable registry keeps invariants R1 and R2 (`reachable_unique`); and
`stop` marks the registry stopped once, on the list it then copies, after which stores fail, the list only
shrinks, and exactly the copied channels are stopped (`stop_once`).
-/

set_option linter.unusedSectionVars false

namespace BitprimNetwork

namespace Connections

namespace World

variable {α : Type} [DecidableEq α] [Channel α] {w : World α} {k : Nat} {th : Thread α}

/-! ### Reading the invariant -/

theorem Inv.eq_of_id (hi : w.Inv) {e e' : Effect α} (he : e ∈ w.effects) (he' : e' ∈ w.effects)
    (hid : e.id = e'.id) : e = e' :=
  List.inj_on_of_nodup_map hi.nodup he he' hid

/-- The `channel->stop` calls a thread has made: none while it has not returned, or a prefix of those its
effect's reply calls for, all of them once it has returned. -/
theorem Inv.issued_spec (hi : w.Inv) (hth : w.threads[k]? = some th) :
    (w.issued k = [] ∧ th.pc.isDone = false) ∨
    ∃ r, ⟨k, th.call, r⟩ ∈ w.effects ∧ w.issued k <+: fannedOut th.call r ∧
      (th.pc.isDone = true → w.issued k = fannedOut th.call r) := by
  have hok := hi.thread k th hth
  cases hpc : th.pc <;> simp only [ThreadOk, hpc, Pc.isDone] at hok ⊢
  case start | upgrade => exact .inl ⟨hok.2, trivial⟩
  case shared | upgrading | exclusive => exact .inl ⟨hok.2.1, trivial⟩
  case downgrading | copying => exact .inl ⟨hok.2.2.2, trivial⟩
  case sharedDone | unlocking | releasing => exact .inl ⟨hok.2.1, trivial⟩
  case fanout ec snapshot rest =>
    obtain ⟨hc, hm, pre, rfl, hiss⟩ := hok
    refine .inr ⟨_, hm, ?_, fun h => nomatch h⟩
    rw [hc, hiss]
    simp [fannedOut]
  case done r => exact .inr ⟨r, hok.1, hok.2 ▸ List.prefix_refl _, fun _ => hok.2⟩

/-- What one event does to the registry and to the order of effects: nothing, or the stepping thread, holding
the mutex, takes its effect. -/
theorem Inv.step_effects (hi : w.Inv) {e : Event α} {w' : World α} (h : w.step e = some w') :
    (w'.effects = w.effects ∧ w'.registry = w.registry) ∨
    ∃ i th r, e = .advance i ∧ w.threads[i]? = some th ∧
      (th.pc.holdsShared = true ∨ th.pc.holdsWriter = true) ∧
      th.call.apply w.registry = (r, w'.registry) ∧ w'.effects = w.effects ++ [⟨i, th.call, r⟩] := by
  cases e with
  | invoke call => cases h; exact .inl ⟨rfl, rfl⟩
  | advance i =>
    simp only [World.step] at h
    split at h
    · cases h
    · rename_i th hth
      obtain ⟨o, hn, rfl⟩ := Option.map_eq_some'.1 h
      obtain ⟨hnone, hsome⟩ := next_effect (hi.thread i th hth) hn
      cases he : o.effect with
      | none => exact .inl ⟨by simp [he], hnone he⟩
      | some r =>
        exact .inr ⟨i, th, r, rfl, hth, next_effect_holds hn (by simp [he]), (hsome r he).2,
          by simp [he]⟩

/-! ### Linearizability -/

/-- Every interleaving of registry calls is linearizable: the calls that took effect, run alone in the order
`effects`, report what each call reported and leave the registry as it is. -/
theorem linearizable (hw : w.Reachable) :
    w.order.Nodup ∧
    (∀ e ∈ w.effects, ∃ th, w.threads[e.id]? = some th ∧ th.call = e.call) ∧
    Replays w.effects empty w.registry ∧
    (∀ i th r, w.threads[i]? = some th → th.pc = .done r → ⟨i, th.call, r⟩ ∈ w.effects) ∧
    (∀ i th, w.threads[i]? = some th → ∀ j ∈ th.after, i ∈ w.order → [j, i].Sublist w.order) ∧
    (∀ e w', w.step e = some w' →
      (w'.effects = w.effects ∧ w'.registry = w.registry) ∨
      ∃ i th r, e = .advance i ∧ w.threads[i]? = some th ∧
        (th.pc.holdsShared = true ∨ th.pc.holdsWriter = true) ∧
        th.call.apply w.registry = (r, w'.registry) ∧ w'.effects = w.effects ++ [⟨i, th.call, r⟩]) := by
  have hi := hw.inv
  refine ⟨hi.nodup, hi.call, hi.replays, fun i th r hth hpc => ?_,
    fun i th hth j hj => (hi.realtime i th hth j hj).2, fun _ _ h => hi.step_effects h⟩
  have hok := hi.thread i th hth
  simp only [ThreadOk, hpc] at hok
  exact hok.1

/-- A store run to its return, then a `stop` run through its fan-out: the order replays. -/
theorem linearizable_store_stop :
    ∃ w : World Peer, w.Reachable ∧ w.stops.length = 1 ∧ Replays w.effects empty w.registry :=
  have h : (World.init : World Peer).run ([.invoke (.store ⟨1, ⟨1, 8333⟩, 42⟩)] ++ .replicate 5 (.advance 0) ++
      [.invoke (.stop .channelStopped)] ++ .replicate 9 (.advance 1)) = some _ := rfl
  ⟨_, .of_run .init h, rfl, (linearizable (.of_run .init h)).2.2.1⟩

/-- Invariants R1 and R2 in every reachable world, stopped or not: no two members share an authority, no two
share a nonce, and so no channel is held twice. -/
theorem reachable_unique (hw : w.Reachable) : Unique w.registry.channels ∧ w.registry.channels.Nodup := by
  have hu := (hw.inv.replays.reachable .empty).unique
  exact ⟨hu, hu.nodup⟩

/-- Two stores with the same nonce racing for the lock, both returned: the registry holds one channel. -/
theorem reachable_unique_racing_stores :
    ∃ w : World Peer, w.Reachable ∧ w.registry.channels.length = 1 ∧ Unique w.registry.channels :=
  have h : (World.init : World Peer).run [.invoke (.store ⟨1, ⟨1, 8333⟩, 42⟩), .invoke (.store ⟨2, ⟨2, 8333⟩, 42⟩),
      .advance 0, .advance 0, .advance 0, .advance 0, .advance 0, .advance 1, .advance 1, .advance 1] =
      some _ := rfl
  ⟨_, .of_run .init h, rfl, (reachable_unique (.of_run .init h)).1⟩

/-! ### `stop` -/

/-- `stopped_` never goes back: no event clears it. -/
theorem Inv.step_stopped (hi : w.Inv) {e : Event α} {w' : World α} (h : w.step e = some w')
    (hs : w.registry.stopped = true) : w'.registry.stopped = true := by
  rcases hi.step_effects h with ⟨-, hr⟩ | ⟨i, th, r, -, -, -, happ, -⟩
  · rwa [hr]
  · simpa [happ] using (th.call.apply_of_stopped hs).1

private theorem exists_first {β : Type} {p : β → Bool} {l : List β} (h : ∃ x ∈ l, p x = true) :
    ∃ pre x post, l = pre ++ x :: post ∧ p x = true ∧ ∀ y ∈ pre, p y = false := by
  cases hf : l.find? p with
  | none => obtain ⟨x, hx, hp⟩ := h; simpa [hp] using List.find?_eq_none.1 hf x hx
  | some x =>
    obtain ⟨hx, pre, post, hl, hpre⟩ := List.find?_eq_some.1 hf
    exact ⟨pre, x, post, hl, hx, by simpa using hpre⟩

/-- `stopped_` is set exactly when some `stop` has taken effect. -/
theorem Inv.stopped_iff (hi : w.Inv) :
    w.registry.stopped = true ↔ ∃ e ∈ w.effects, e.call.isStop = true := by
  constructor
  · intro hs
    by_contra hno
    push_neg at hno
    simp [hi.replays.stopped_of_no_stop (by simpa using hno), empty] at hs
  · intro h
    obtain ⟨pre, e, post, heff, hs, hpre⟩ := exists_first h
    obtain ⟨c, -, -, -, -, hs', -⟩ := (heff ▸ hi.replays).first_stop hs hpre
    exact hs'

/-- Every `channel->stop` call was made by a `stop` whose effect recorded a copied list holding the channel,
with the code of that `stop`. -/
theorem Inv.stop_entry (hi : w.Inv) {n : Nat} {ch : α} {ec : Code} (hs : (n, ch, ec) ∈ w.stops) :
    ∃ l, ⟨n, .stop ec, .list l⟩ ∈ w.effects ∧ ch ∈ l := by
  have hiss : (ch, ec) ∈ w.issued n :=
    List.mem_map.2 ⟨(n, ch, ec), by simpa [List.mem_filter] using hs, rfl⟩
  obtain ⟨th, hth⟩ : ∃ th, w.threads[n]? = some th := ⟨_, List.getElem?_eq_getElem (hi.stops _ hs)⟩
  rcases hi.issued_spec hth with ⟨h, -⟩ | ⟨r, hm, hpre, -⟩
  · simp [h] at hiss
  · have hf := hpre.subset hiss
    unfold fannedOut at hf
    split at hf
    · rename_i ec' l hc
      obtain ⟨ch', hch, heq⟩ := List.mem_map.1 hf
      cases heq
      rw [hc] at hm
      exact ⟨l, hm, hch⟩
    · simp at hf

/-- The registry's `stop` takes effect once: the first copies `channels_` and stops each copied channel once, with
its code, and every later `stop` or `store` finds the registry stopped. -/
theorem stop_once (hw : w.Reachable) :
    (∀ e w', w.step e = some w' → w.registry.stopped = true → w'.registry.stopped = true) ∧
    (w.registry.stopped = true ↔ ∃ e ∈ w.effects, e.call.isStop = true) ∧
    ((∀ e ∈ w.effects, e.call.isStop = false) → w.stops = []) ∧
    ∀ pre e post, w.effects = pre ++ e :: post → e.call.isStop = true →
      (∀ e' ∈ pre, e'.call.isStop = false) →
      ∃ c ec, Replays pre empty c ∧ c.stopped = false ∧ e.call = .stop ec ∧ e.reply = .list c.channels ∧
        c.channels.Nodup ∧
        (∀ e' ∈ post, (e'.call.isStop = true → e'.reply = .list []) ∧
          (∀ ch, e'.call = .store ch → e'.reply = .code .serviceStopped)) ∧
        w.registry.stopped = true ∧ w.registry.channels.Sublist c.channels ∧
        (∀ s ∈ w.stops, s.1 = e.id) ∧ w.stops.map Prod.snd <+: c.channels.map (·, ec) ∧
        (∀ th, w.threads[e.id]? = some th → th.pc.isDone = true →
          w.stops.map Prod.snd = c.channels.map (·, ec)) ∧
        ((∀ ch ∈ c.channels, ∃ e' ∈ post, e'.call = .remove ch) → w.registry.channels = []) := by
  have hi := hw.inv
  refine ⟨fun _ _ => hi.step_stopped, hi.stopped_iff, fun hno => ?_, fun pre e post heff hs hpre => ?_⟩
  · refine List.eq_nil_iff_forall_not_mem.2 fun ⟨n, ch, ec⟩ hs => ?_
    obtain ⟨l, hm, -⟩ := hi.stop_entry hs
    exact absurd (hno _ hm) (by simp [Call.isStop])
  obtain ⟨c, hc, h0, hr, hnd, hs', hsub, hpost, hrm⟩ := (heff ▸ hi.replays).first_stop hs hpre
  obtain ⟨ec, hec⟩ := Call.isStop_iff.1 hs
  have hmem : e ∈ w.effects := by simp [heff]
  -- every `channel->stop` call is the first `stop`'s
  have hid : ∀ s ∈ w.stops, s.1 = e.id := by
    rintro ⟨n, ch, ec'⟩ hs₁
    obtain ⟨l, hm, hl⟩ := hi.stop_entry hs₁
    rw [heff] at hm
    simp only [List.mem_append, List.mem_cons] at hm
    rcases hm with hm | rfl | hm
    · simpa [Call.isStop] using hpre _ hm
    · rfl
    · have hl' : l = [] := by simpa using (hpost _ hm).1 rfl
      simp [hl'] at hl
  have hall : w.stops.map Prod.snd = w.issued e.id := by
    rw [issued, List.filter_eq_self.2 fun (s : Nat × α × Code) hs₁ => by simp [hid s hs₁]]
  obtain ⟨th, hth, hcall⟩ := hi.call e hmem
  have hfan : fannedOut th.call e.reply = c.channels.map (·, ec) := by simp [hcall, hec, hr, fannedOut]
  have hspec : w.stops.map Prod.snd <+: c.channels.map (·, ec) ∧
      (th.pc.isDone = true → w.stops.map Prod.snd = c.channels.map (·, ec)) := by
    rw [hall, ← hfan]
    rcases hi.issued_spec hth with ⟨h, hd⟩ | ⟨r, hm, hpre', hdone⟩
    · exact ⟨h ▸ List.nil_prefix, fun h' => by simp [hd] at h'⟩
    · have hr' : r = e.reply := congrArg Effect.reply (hi.eq_of_id hm hmem rfl)
      exact hr' ▸ ⟨hpre', hdone⟩
  refine ⟨c, ec, hc, h0, hec, hr, hnd, hpost, hs', hsub, hid, hspec.1, fun th' hth' => ?_, hrm⟩
  rw [hth] at hth'
  cases hth'
  exact hspec.2

/-- A store run to its return, then a `stop` run through its fan-out: the registry is stopped by it. -/
theorem stop_once_store_stop : ∃ w : World Peer, w.Reachable ∧ w.stops.length = 1 ∧
    (w.registry.stopped = true ↔ ∃ e ∈ w.effects, e.call.isStop = true) :=
  have h : (World.init : World Peer).run ([.invoke (.store ⟨1, ⟨1, 8333⟩, 42⟩)] ++ .replicate 5 (.advance 0) ++
      [.invoke (.stop .channelStopped)] ++ .replicate 9 (.advance 1)) = some _ := rfl
  ⟨_, .of_run .init h, rfl, (stop_once (.of_run .init h)).2.1⟩

end World

end Connections

end BitprimNetwork
