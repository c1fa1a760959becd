import PinkyOS.SleepWakeup

/-!
# How the operations on the state read

Each update of the state, field by field, and the loop of `exit` over the children.
-/
namespace SleepWakeup
open PipeBuffer

variable {s t : State} {p q : Slot}

section update
variable (s : State) (p q : Slot) (f : Proc → Proc) (pc : Pc) (lk lk' : Lock) (i j : Nat)

theorem modify_self : (s.modify p f).proc p = f (s.proc p) := Function.update_self ..

theorem modify_of_ne (h : q ≠ p) : (s.modify p f).proc q = s.proc q :=
  Function.update_of_ne h ..

theorem modify_proc : (s.modify p f).proc q = if q = p then f (s.proc p) else s.proc q :=
  Function.update_apply ..

@[simp] theorem modify_pipe : (s.modify p f).pipe = s.pipe := rfl
@[simp] theorem modify_ref : (s.modify p f).ref = s.ref := rfl
@[simp] theorem modify_npipes : (s.modify p f).npipes = s.npipes := rfl

@[simp] theorem goto_pc : ((s.goto p pc).proc q).pc = if q = p then pc else (s.proc q).pc := by
  rw [State.goto, modify_proc]
  split <;> rfl

@[simp] theorem goto_state : ((s.goto p pc).proc q).state = (s.proc q).state := by
  rw [State.goto, modify_proc]
  split <;> simp_all

@[simp] theorem goto_chan : ((s.goto p pc).proc q).chan = (s.proc q).chan := by
  rw [State.goto, modify_proc]
  split <;> simp_all

@[simp] theorem goto_parent : ((s.goto p pc).proc q).parent = (s.proc q).parent := by
  rw [State.goto, modify_proc]
  split <;> simp_all

@[simp] theorem goto_fd : ((s.goto p pc).proc q).fd = (s.proc q).fd := by
  rw [State.goto, modify_proc]
  split <;> simp_all

@[simp] theorem goto_pipe : (s.goto p pc).pipe = s.pipe := rfl
@[simp] theorem goto_ref : (s.goto p pc).ref = s.ref := rfl

@[simp] theorem acquire_holder :
    (s.acquire lk p).holder lk' = if lk' = lk then some p else s.holder lk' :=
  Function.update_apply ..

@[simp] theorem release_holder :
    (s.release lk).holder lk' = if lk' = lk then none else s.holder lk' :=
  Function.update_apply ..

@[simp] theorem acquire_proc : (s.acquire lk p).proc = s.proc := rfl
@[simp] theorem release_proc : (s.release lk).proc = s.proc := rfl
@[simp] theorem release_pipe : (s.release lk).pipe = s.pipe := rfl
@[simp] theorem release_ref : (s.release lk).ref = s.ref := rfl
@[simp] theorem release_npipes : (s.release lk).npipes = s.npipes := rfl

@[simp] theorem setPipe_pipe (x : Pipe) :
    (s.setPipe i x).pipe j = if j = i then x else s.pipe j :=
  Function.update_apply ..

@[simp] theorem setRef_proc (w : Bool) (n : Nat) : (s.setRef i w n).proc = s.proc := rfl

variable (ch : Chan)

theorem wakeup1_proc : (s.wakeup1 ch).proc q =
    if (s.proc q).state = .sleeping ∧ (s.proc q).chan = some ch
    then { s.proc q with state := .runnable } else s.proc q := rfl

@[simp] theorem wakeup1_pc : ((s.wakeup1 ch).proc q).pc = (s.proc q).pc := by
  rw [wakeup1_proc]
  split <;> rfl

@[simp] theorem wakeup1_chan : ((s.wakeup1 ch).proc q).chan = (s.proc q).chan := by
  rw [wakeup1_proc]
  split <;> rfl

@[simp] theorem wakeup1_parent : ((s.wakeup1 ch).proc q).parent = (s.proc q).parent := by
  rw [wakeup1_proc]
  split <;> rfl

@[simp] theorem wakeup1_fd : ((s.wakeup1 ch).proc q).fd = (s.proc q).fd := by
  rw [wakeup1_proc]
  split <;> rfl

@[simp] theorem wakeup1_pipe : (s.wakeup1 ch).pipe = s.pipe := rfl
@[simp] theorem wakeup1_ref : (s.wakeup1 ch).ref = s.ref := rfl
@[simp] theorem wakeup1_npipes : (s.wakeup1 ch).npipes = s.npipes := rfl

theorem wakeup1_state : ((s.wakeup1 ch).proc q).state = (s.proc q).state ∨
    (s.proc q).state = .sleeping ∧ ((s.wakeup1 ch).proc q).state = .runnable := by
  rw [wakeup1_proc]
  split
  · next h => exact .inr ⟨h.1, rfl⟩
  · exact .inl rfl

end update

/-- What every round of the loop of `exit` over the children keeps, the whole loop keeps. -/
theorem abandon_induction {I : State → Prop} (start : I s)
    (adoptAlive : ∀ s q, I s → (s.proc q).parent = some p → (s.proc q).state ≠ .zombie →
      I (s.modify q fun x => { x with parent := some initproc }))
    (adoptZombie : ∀ s q, I s → (s.proc q).parent = some p → (s.proc q).state = .zombie →
      I ((s.modify q fun x => { x with parent := some initproc }).wakeup1 (.proc initproc))) :
    I (abandon s p) := by
  unfold abandon
  generalize List.finRange nproc = slots
  induction slots generalizing s with
  | nil => exact start
  | cons q slots ih =>
    apply ih
    unfold adopt
    split
    · next child =>
      split
      · next zombie => exact adoptZombie s q start child zombie
      · next alive => exact adoptAlive s q start child alive
    · exact start

@[simp] theorem abandon_pipe : (abandon s p).pipe = s.pipe := by
  apply abandon_induction (I := fun t => t.pipe = s.pipe) rfl
  · intro t q h _ _
    exact h
  · intro t q h _ _
    exact h

@[simp] theorem runDie_pipe : (runDie s p).pipe = s.pipe := by
  unfold runDie
  split <;> simp

end SleepWakeup
