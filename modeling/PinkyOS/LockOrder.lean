import PinkyOS.NoLostWakeup

/-!
# The order of locks

A process that holds a lock asks for no other but `ptable.lock`, and one that holds `ptable.lock`
asks for none. So processes that spin for locks never wait for each other in a circle.
-/
namespace SleepWakeup
open PipeBuffer TransitionSystem

variable {s t : State} {p q : Slot} {src dest : Pc} {lk : Lock}

/-- The lock for which a process spins. -/
def Pc.awaits : Pc → Option Lock
  | .acquiring c => some c.lock
  | .waking .. | .entering _ => some .ptable
  | _ => none

/-- A process does not hold the lock for which it spins. -/
def Pc.Ordered (pc : Pc) : Prop := ∀ lk, pc.awaits = some lk → pc.held ≠ some lk

theorem Edge.ordered (edge : Edge s p src dest t) (ordered : src.Ordered) : dest.Ordered := by
  cases edge with
  | stay flow => cases flow <;> simp [Pc.Ordered, Pc.awaits, Pc.held, Loop.lock]
  | pipe flow => cases flow <;> simp [Pc.Ordered, Pc.awaits, Pc.held]
  | wake _ _ next =>
    subst next
    split
    · next back => cases back <;> simp [Pc.Ordered, Pc.awaits, Back.pc]
    · simpa [Pc.Ordered, Pc.awaits, Pc.held] using ordered
  | _ => simp [Pc.Ordered, Pc.awaits, Pc.held]

theorem Step.ordered (step : Step s t) (base : Base s) (ordered : ∀ q, (s.proc q).pc.Ordered)
    (q : Slot) : (t.proc q).pc.Ordered := by
  cases step with
  | same => exact ordered q
  | edge running at' edge =>
    rw [(edge.move base at').pc]
    split
    · exact edge.ordered (at' ▸ ordered _)
    · exact ordered q
  | die =>
    unfold runDie
    split
    all_goals
      simp only [release_proc, modify_proc]
      split
      · simp [Pc.Ordered, Pc.awaits]
      · simpa using ordered q
  | @close p _ back =>
    simp only [State.goto, State.modify, State.setRef, Function.update_apply, Proc.dropFd]
    split
    · next next _ =>
      rcases next with rfl | ⟨rfl, -⟩
      · cases back <;> simp [Pc.Ordered, Pc.awaits, Back.pc]
      · simp [Pc.Ordered, Pc.held]
    · exact ordered q
  | _ =>
    simp only [runFork, sysPipe, State.goto, State.modify, State.setRef, State.acquire,
      State.release, Function.update_apply, Proc.addFd]
    repeat' split
    all_goals first | exact ordered _ | simp [Pc.Ordered, Pc.awaits, Pc.held]

theorem Reachable.ordered (reach : Reachable s) : Base s ∧ ∀ p, (s.proc p).pc.Ordered := by
  apply Reachable.invariant (I := fun s => Base s ∧ ∀ p, (s.proc p).pc.Ordered) _ _
    reach
  · rintro s rfl
    refine ⟨base_initial, fun p => ?_⟩
    simp only [initial]
    split <;> simp [Pc.Ordered, Pc.awaits]
  · rintro s a t ⟨base, ordered⟩ next
    have next := step_cases next
    exact ⟨base.step next, next.ordered base ordered⟩

/-- In every reachable state a lock is held by the one process inside its critical section; no
processes wait for each other's locks in a circle, or in an endless chain; and a process that
holds a lock and spins for none can take its next step. -/
theorem no_deadlock (reach : Reachable s) :
    (∀ lk p, s.holder lk = some p ↔ (s.proc p).pc.held = some lk) ∧
    (∀ chain : Nat → Slot, ∃ n, ∀ lk, (s.proc (chain n)).pc.awaits = some lk →
      s.holder lk ≠ some (chain (n + 1))) ∧
    ∀ lk p, s.holder lk = some p → (s.proc p).state = .running → (s.proc p).pc.awaits = none →
      ∃ t, step s (.run p) = some t := by
  obtain ⟨base, ordered⟩ := reach.ordered
  -- a process that holds one lock and spins for another spins for `ptable.lock`
  have last : ∀ p lk lk', s.holder lk = some p → (s.proc p).pc.awaits = some lk' →
      lk' = .ptable ∧ lk ≠ .ptable := by
    intro p lk lk' held awaits
    have other := ordered p lk' awaits
    rw [base.lock] at held
    cases at' : (s.proc p).pc <;> simp_all [Pc.awaits, Pc.held]
  refine ⟨fun lk p => base.lock p lk, fun chain => ?_, fun lk p held running free => ?_⟩
  · by_contra endless
    push Not at endless
    obtain ⟨a, -, first⟩ := endless 0
    obtain ⟨b, second, holds⟩ := endless 1
    obtain ⟨c, third, -⟩ := endless 2
    obtain ⟨rfl, -⟩ := last _ _ _ first second
    exact (last _ _ _ holds third).2 rfl
  · rw [base.lock] at held
    cases at' : (s.proc p).pc <;> simp_all [Pc.awaits, Pc.held, step, runPc]

/-- `initproc`, about to fall asleep over an empty pipe, holds `ptable.lock` and can go on. -/
theorem emptyRead_goes_on : ∃ s t, run step initial (emptyRead.take 6) = some s ∧
    step s (.run initproc) = some t := by
  have ran : run step initial (emptyRead.take 6) = some _ := rfl
  obtain ⟨t, next⟩ := (no_deadlock (.run (.init initial rfl) ran)).2.2 .ptable initproc rfl rfl rfl
  exact ⟨_, t, ran, next⟩

end SleepWakeup
