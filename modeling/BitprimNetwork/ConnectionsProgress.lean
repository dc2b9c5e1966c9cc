import BitprimNetwork.ConnectionsThreads

/-!
# Every registry call returns

The calls on the registry wait only for the mutex: `start` while another thread holds what it asks for, and
`unlock_upgrade_and_lock` while a thread holds the mutex shared (`World.next_isSome`).  A thread holding the mutex
shared never waits, and with none holding it shared neither does a writer, so while some call has not returned
some thread can take a step (`World.progress`).  Every step lowers the rank of a thread's program counter, or
keeps it and moves a `stop` along the channels it copied (`World.next_rank`), so no schedule goes on forever
(`World.advances_wellFounded`).
-/

set_option linter.unusedSectionVars false

namespace BitprimNetwork

namespace Connections

variable {α : Type} [DecidableEq α] [Channel α]

/-- The steps a thread has left before it returns, not counting the channels still to stop. -/
def Pc.rank : Pc α → Nat
  | .start => 8
  | .shared => 2
  | .sharedDone _ => 1
  | .upgrade => 7
  | .upgrading => 6
  | .exclusive => 5
  | .unlocking _ => 1
  | .downgrading => 4
  | .copying => 3
  | .releasing _ => 2
  | .fanout _ _ _ => 1
  | .done _ => 0

/-- The channels a `stop` has still to stop. -/
def Pc.rest : Pc α → Nat
  | .fanout _ _ rest => rest.length
  | _ => 0

theorem Pc.holdsWriter_of_holdsExclusive {pc : Pc α} (h : pc.holdsExclusive = true) : pc.holdsWriter = true := by
  cases pc <;> first | rfl | cases h

namespace World

/-- The steps the threads have left, not counting the channels still to stop. -/
def rank (w : World α) : Nat := (w.threads.map (·.pc.rank)).sum

/-- The channels the `stop` calls have still to stop. -/
def rest (w : World α) : Nat := (w.threads.map (·.pc.rest)).sum

/-- One step of a thread already invoked. -/
def Advances (w' w : World α) : Prop := ∃ i, w.step (.advance i) = some w'

variable {w w' : World α} {i : Nat} {th : Thread α} {o : Outcome α}

/-- A step of a thread moves it on: to a pc of lower rank, or along the channels its `stop` has copied. -/
theorem next_rank (hn : th.next w = some o) :
    o.pc.rank < th.pc.rank ∨ o.pc.rank = th.pc.rank ∧ o.pc.rest < th.pc.rest := by
  cases hpc : th.pc <;> simp only [Thread.next, hpc] at hn
  case releasing r =>
    cases hn
    left
    unfold Call.afterRelease
    split <;> simp [Pc.rank]
  case fanout ec snapshot rest =>
    cases rest <;> cases hn
    · simp [Pc.rank]
    · simp [Pc.rank, Pc.rest]
  case done => cases hn
  all_goals (repeat' split at hn) <;> cases hn <;> simp [Pc.rank]

/-- A thread that has not returned can take a step, unless it waits for the mutex: `start` while another thread
holds what it asks for, or `unlock_upgrade_and_lock` while a thread holds the mutex shared. -/
theorem next_isSome (hd : th.pc.isDone = false) :
    (th.next w).isSome = true ∨ th.pc = .start ∧ w.writerHeld = true ∨ th.pc = .upgrading ∧ w.sharedHeld = true := by
  obtain ⟨call, pc, after⟩ := th
  cases pc <;> simp only [Thread.next] at hd ⊢
  case start =>
    split_ifs with hr he hw
    · exact .inr (.inl ⟨trivial, by
        obtain ⟨t, ht, hx⟩ := List.any_eq_true.1 he
        exact List.any_eq_true.2 ⟨t, ht, Pc.holdsWriter_of_holdsExclusive hx⟩⟩)
    · exact .inl rfl
    · exact .inr (.inl ⟨trivial, hw⟩)
    · exact .inl rfl
  case upgrade => split <;> simp
  case upgrading => split_ifs with hs <;> simp [hs]
  case fanout ec snapshot rest => cases rest <;> simp
  case done => cases hd
  all_goals simp

/-- Every step of a thread lowers the ranks, or keeps them and lowers the channels left to stop. -/
theorem Advances.lex (h : w'.Advances w) : Prod.Lex (· < ·) (· < ·) (w'.rank, w'.rest) (w.rank, w.rest) := by
  obtain ⟨i, hs⟩ := h
  simp only [step] at hs
  split at hs
  · cases hs
  next th hth =>
    obtain ⟨o, hn, rfl⟩ := Option.map_eq_some'.1 hs
    obtain ⟨hlt, hget⟩ := List.getElem?_eq_some_iff.1 hth
    -- the sums change only at the thread that stepped
    have hsum (f : Thread α → Nat) : ((w.threads.set i { th with pc := o.pc }).map f).sum + f th =
        (w.threads.map f).sum + f { th with pc := o.pc } := by
      have hl : i < (w.threads.map f).length := by simpa using hlt
      have hsplit : (w.threads.map f).sum = ((w.threads.map f).take i).sum + f th +
          ((w.threads.map f).drop (i + 1)).sum := by
        conv_lhs => rw [← List.take_append_drop i (w.threads.map f), List.drop_eq_getElem_cons hl]
        simp [hget, add_assoc]
      rw [List.map_set, List.sum_set, if_pos hl, hsplit]
      omega
    have hr := hsum (·.pc.rank)
    have hc := hsum (·.pc.rest)
    simp only at hr hc
    rw [Prod.lex_def]
    simp only [rank, rest, perform]
    rcases next_rank hn with hlt | ⟨heq, hlt⟩
    · left; omega
    · right; constructor <;> omega

/-- No schedule of the calls already made goes on forever. -/
theorem advances_wellFounded : WellFounded (@Advances α _ _) :=
  Subrelation.wf (fun h => Advances.lex h)
    (InvImage.wf (fun w : World α => (w.rank, w.rest)) (WellFounded.prod_lex wellFounded_lt wellFounded_lt))

/-- While a call has not returned, some thread can take a step: the mutex never deadlocks. -/
theorem progress (w : World α) (h : ∃ th ∈ w.threads, th.pc.isDone = false) : ∃ w' : World α, w'.Advances w := by
  -- a thread that can step gives a step of the world
  have step_of : ∀ th ∈ w.threads, (th.next w).isSome = true → ∃ w' : World α, w'.Advances w := by
    intro th hmem hsome
    obtain ⟨i, hi⟩ := List.getElem?_of_mem hmem
    obtain ⟨o, ho⟩ := Option.isSome_iff_exists.1 hsome
    exact ⟨w.perform i th o, i, by simp [step, hi, ho]⟩
  by_cases hs : w.sharedHeld = true
  -- a thread holding the mutex shared never waits
  · obtain ⟨th, hmem, hsh⟩ := List.any_eq_true.1 hs
    have hd : th.pc.isDone = false := by revert hsh; cases th.pc <;> intro h <;> first | rfl | cases h
    rcases next_isSome hd with hsome | ⟨hpc, -⟩ | ⟨hpc, -⟩
    · exact step_of th hmem hsome
    all_goals rw [hpc] at hsh; cases hsh
  by_cases hw : w.writerHeld = true
  -- with no thread holding it shared, a writer never waits
  · obtain ⟨th, hmem, hwr⟩ := List.any_eq_true.1 hw
    have hd : th.pc.isDone = false := by revert hwr; cases th.pc <;> intro h <;> first | rfl | cases h
    rcases next_isSome hd with hsome | ⟨hpc, -⟩ | ⟨-, hsh⟩
    · exact step_of th hmem hsome
    · rw [hpc] at hwr; cases hwr
    · exact absurd hsh hs
  -- with the mutex free, no thread waits
  · obtain ⟨th, hmem, hd⟩ := h
    rcases next_isSome hd with hsome | ⟨-, hwr⟩ | ⟨-, hsh⟩
    · exact step_of th hmem hsome
    · exact absurd hwr hw
    · exact absurd hsh hs

/-- Every call on the registry returns, whatever the schedule, so `stop` never deadlocks with the `remove` calls
its channel stops make. -/
theorem calls_return :
    WellFounded (@Advances α _ _) ∧
      ∀ w : World α, (∀ th ∈ w.threads, th.pc.isDone = true) ∨ ∃ w' : World α, w'.Advances w := by
  refine ⟨advances_wellFounded, fun w => ?_⟩
  by_cases h : ∃ th ∈ w.threads, th.pc.isDone = false
  · exact .inr (progress w h)
  · exact .inl fun th hth => by simpa using fun hd => h ⟨th, hth, hd⟩

end World

end Connections

end BitprimNetwork
