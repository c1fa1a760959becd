import PinkyOS.SleepWakeup

/-!
# Interrupts under locks (`arm.c`, `spinlock.c`, `proc.c`)

There is one processor. The depth of `pushcli` and `intena` belong to it and not to a process, so
`sched` carries `intena` in a local variable over the switch to the scheduler and back. The ghost
`entry` tells, of a process inside a critical section that it entered itself, whether interrupts
were enabled when it did.
-/
namespace InterruptMask
open Function (update update_apply)
open SleepWakeup (Slot Lock ProcState initproc)

/-- Where a process that does not run goes on: in `sched`, with the local `intena`, or in
`forkret`. -/
inductive Context
  | sched (intena : Bool)
  | forkret

structure State where
  enabled : Bool
  ncli : Int
  intena : Bool
  locked : Finset Lock
  proc : Option Slot
  state : Slot → ProcState
  context : Slot → Context
  entry : Option Slot → Option Bool

def pushcli (s : State) : State :=
  { s with
    enabled := false
    ncli := s.ncli + 1
    intena := if s.ncli = 0 then s.enabled else s.intena
    entry := if s.ncli = 0 then update s.entry s.proc (some s.enabled) else s.entry }

def popcli (s : State) : Except String State :=
  if s.enabled then .error "popcli - interruptible"
  else if s.ncli - 1 < 0 then .error "popcli -- ncli < 0"
  else .ok
    { s with
      enabled := s.ncli - 1 = 0 && s.intena
      ncli := s.ncli - 1
      entry := if s.ncli - 1 = 0 then update s.entry s.proc none else s.entry }

/-- With one processor, `lk->cpu == cpu` whenever the lock is taken. -/
def holding (s : State) (lk : Lock) : Bool := lk ∈ s.locked

/-- `none` if the caller spins: nobody can release the lock any more. -/
def acquire (s : State) (lk : Lock) : Option State :=
  if holding s lk then none else some { pushcli s with locked := insert lk s.locked }

def release (s : State) (lk : Lock) : Except String State :=
  if !holding s lk then .error "release" else popcli { s with locked := s.locked.erase lk }

/-- `sched` up to its switch, after which the scheduler clears `proc`. -/
def sched (s : State) (p : Slot) : Except String State :=
  if !holding s .ptable then .error "sched ptable.lock"
  else if s.ncli ≠ 1 then .error "sched locks"
  else if s.state p = .running then .error "sched running"
  else if s.enabled then .error "sched interruptible"
  else .ok { s with context := update s.context p (.sched s.intena), proc := none }

/-- `yield`, `sleep` and `exit` store the state before they call `sched`. -/
def leave (s : State) (p : Slot) (next : ProcState) : Except String State :=
  sched { s with state := update s.state p next } p

def switchuvm (s : State) : Except String State := popcli (pushcli s)

/-- `cpu->intena` once the process goes on. -/
def Context.intena : Context → Bool → Bool
  | .sched intena, _ => intena
  | .forkret, intena => intena

/-- A round of `scheduler` up to its switch, and the end of the `sched` that it switches to. -/
def dispatch (s : State) (p : Slot) : Except String State := do
  let s ← switchuvm { s with proc := some p }
  return { s with
    state := update s.state p .running
    intena := (s.context p).intena s.intena }

/-- Interrupts are masked by an exception or `cli`, and unmasked by the `sti` of the scheduler's
loop or an `eret`, both outside of critical sections. `store` is what `wakeup`, `fork`, `wait` and
`kill` do to a process that does not run. -/
inductive Act
  | acquire (lk : Lock)
  | release (lk : Lock)
  | leave (next : ProcState)
  | dispatch (p : Slot)
  | mask
  | unmask
  | store (p : Slot) (next : ProcState)
  | allocproc (p : Slot)

def step (s : State) : Act → Option State
  | .acquire lk => acquire s lk
  | .release lk => (release s lk).toOption
  | .leave next => s.proc.bind fun p =>
      if next = .running then none else (leave s p next).toOption
  | .dispatch p =>
      if s.proc = none ∧ .ptable ∈ s.locked ∧ s.state p = .runnable then (dispatch s p).toOption
      else none
  | .mask => some { s with enabled := false }
  | .unmask => if s.ncli = 0 then some { s with enabled := true } else none
  | .store p next =>
      if s.proc ≠ some p ∧ next ≠ .running then
        some { s with state := update s.state p next }
      else none
  | .allocproc p =>
      if s.proc ≠ some p ∧ s.state p = .unused then
        some { s with
          state := update s.state p .embryo
          context := update s.context p .forkret
          entry := update s.entry (some p) none }
      else none

/-- `kmain` behind its `sti`. -/
def initial : State :=
  ⟨true, 0, false, ∅, none, fun _ => .unused, fun _ => .forkret, fun _ => none⟩

abbrev Reachable : State → Prop := TransitionSystem.Reachable (· = initial) step

/-- Interrupts are masked under a lock; what a process found is `intena` while it runs, and the
local variable of its `sched` while it does not. -/
structure Masked (s : State) : Prop where
  depth : s.ncli = s.locked.card
  masked : s.locked.Nonempty → s.enabled = false
  intena : ∀ p b, s.entry (some p) = some b →
    if s.proc = some p then s.intena = b else s.context p = .sched b

variable {s t : State} {lk : Lock} {p : Slot}

theorem Masked.pos (inv : Masked s) (held : lk ∈ s.locked) : 0 < s.ncli := by
  have some := Finset.card_pos.mpr ⟨lk, held⟩
  have depth := inv.depth
  omega

theorem Masked.acquire (inv : Masked s) (next : acquire s lk = some t) : Masked t := by
  simp only [InterruptMask.acquire, holding, decide_eq_true_eq, Option.ite_none_left_eq_some,
    Option.some.injEq] at next
  obtain ⟨free, rfl⟩ := next
  constructor
  · simp [pushcli, inv.depth, Finset.card_insert_of_notMem free]
  · exact fun _ => rfl
  · intro p b entry
    have before := inv.intena p b
    simp only [pushcli] at entry ⊢
    split at entry <;> grind [update_apply]

theorem popcli_eq (masked : s.enabled = false) (pos : 0 < s.ncli) :
    popcli s = .ok
      { s with
        enabled := s.ncli - 1 = 0 && s.intena
        ncli := s.ncli - 1
        entry := if s.ncli - 1 = 0 then update s.entry s.proc none else s.entry } := by
  rw [popcli, if_neg (by simp [masked]), if_neg (by omega)]

theorem switchuvm_eq (masked : s.enabled = false) (pos : 0 < s.ncli) : switchuvm s = .ok s := by
  rw [switchuvm, popcli_eq rfl (by simp only [pushcli]; omega)]
  cases s
  simp_all [pushcli, pos.ne']

theorem Masked.release (inv : Masked s) (held : lk ∈ s.locked) :
    ∃ t, release s lk = .ok t ∧ Masked t ∧
      ∀ p b, s.proc = some p → s.entry (some p) = some b → t.locked = ∅ → t.enabled = b := by
  have depth := inv.depth
  have card := Finset.card_erase_of_mem held
  have pos := inv.pos held
  have outer : s.ncli - 1 = 0 ↔ s.locked.erase lk = ∅ := by
    rw [← Finset.card_eq_zero]
    omega
  rw [InterruptMask.release, if_neg (by simpa [holding] using held),
    popcli_eq (s := { s with locked := s.locked.erase lk }) (inv.masked ⟨lk, held⟩) pos]
  refine ⟨_, rfl, ⟨?_, fun more => ?_, fun p b entry => ?_⟩, fun p b here entry last => ?_⟩
  · dsimp only
    omega
  · have more : s.locked.erase lk ≠ ∅ := more.ne_empty
    simp [outer, more]
  · have before := inv.intena p b
    grind
  · have before := inv.intena p b entry
    have last : s.locked.erase lk = ∅ := last
    simpa [here, outer, last] using before

theorem Masked.leave_iff (inv : Masked s) {next : ProcState} (stops : next ≠ .running) :
    leave s p next = .ok t ↔ s.locked = {.ptable} ∧
      { s with
        state := update s.state p next
        context := update s.context p (.sched s.intena)
        proc := none } = t := by
  have depth := inv.depth
  by_cases held : .ptable ∈ s.locked
  · have masked := inv.masked ⟨_, held⟩
    by_cases one : s.locked.card = 1
    · obtain ⟨lk, only⟩ := Finset.card_eq_one.mp one
      obtain rfl : .ptable = lk := by simpa [only] using held
      simp [leave, sched, holding, only, depth, masked, stops]
    · have more : s.locked ≠ {.ptable} := fun only => one (by rw [only, Finset.card_singleton])
      have deep : s.ncli ≠ 1 := by omega
      simp [leave, sched, holding, held, deep, more]
  · have other : s.locked ≠ {.ptable} := fun only => held (by simp [only])
    simp [leave, sched, holding, held, other]

theorem Masked.dispatch (inv : Masked s) (away : s.proc = none) (held : .ptable ∈ s.locked) :
    ∃ t, dispatch s p = .ok t ∧ Masked t := by
  have masked := inv.masked ⟨_, held⟩
  rw [InterruptMask.dispatch, switchuvm_eq (s := { s with proc := some p }) masked (inv.pos held)]
  refine ⟨_, rfl, inv.depth, inv.masked, fun q b entry => ?_⟩
  have before := inv.intena q b entry
  grind [Context.intena]

theorem toOption_eq_some {x : Except String State} : x.toOption = some t ↔ x = .ok t := by
  cases x <;> simp [Except.toOption]

theorem Masked.step (inv : Masked s) {a : Act} (next : step s a = some t) : Masked t := by
  cases a <;> simp only [InterruptMask.step, Option.bind_eq_some_iff, Option.ite_none_left_eq_some,
    Option.ite_none_right_eq_some, toOption_eq_some, Option.some.injEq] at next
  case acquire lk => exact inv.acquire next
  case release lk =>
    by_cases held : lk ∈ s.locked
    · obtain ⟨u, released, inv, -⟩ := inv.release held
      cases released.symm.trans next
      exact inv
    · simp [InterruptMask.release, holding, held] at next
  case leave st =>
    obtain ⟨p, here, stops, next⟩ := next
    obtain ⟨-, rfl⟩ := (inv.leave_iff stops).mp next
    refine ⟨inv.depth, inv.masked, fun q b entry => ?_⟩
    have before := inv.intena q b entry
    grind [update_apply]
  case dispatch p =>
    obtain ⟨⟨away, held, -⟩, next⟩ := next
    obtain ⟨u, ran, inv⟩ := inv.dispatch (p := p) away held
    cases ran.symm.trans next
    exact inv
  case mask => exact next ▸ ⟨inv.depth, fun _ => rfl, inv.intena⟩
  case unmask =>
    obtain ⟨outside, rfl⟩ := next
    exact ⟨inv.depth, fun ⟨lk, held⟩ => absurd outside (inv.pos held).ne', inv.intena⟩
  case store p st =>
    obtain ⟨-, rfl⟩ := next
    exact ⟨inv.depth, inv.masked, inv.intena⟩
  case allocproc p =>
    obtain ⟨⟨away, -⟩, rfl⟩ := next
    refine ⟨inv.depth, inv.masked, fun q b entry => ?_⟩
    have before := inv.intena q b
    grind [update_apply]

/-- The first process comes back from `yield`. -/
def yielding : List Act :=
  [.allocproc initproc, .store initproc .runnable, .acquire .ptable, .dispatch initproc,
    .release .ptable, .acquire .ptable, .leave .runnable, .dispatch initproc]

end InterruptMask
