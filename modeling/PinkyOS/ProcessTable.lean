import PinkyOS.SleepWakeup

/-!
# The process table (`proc.c`)

Interleavings of `fork`, `exit`, `wait` and `kill` over the slots of `ptable`. What runs under
`ptable.lock` is one step. `fork` takes one step for the slot and the pid, and one for each of the
kernel stack, the copy of the address space with the parent link, and the last store of the state.
The scheduler, `sleep` and `wakeup` move processes between the states in which they can run; a
process acts only while it is RUNNING.

The ghosts `calls` and `log` count the calls of `allocproc` and record who exited, what `wait`
returned and which calls of `kill` found a slot.
-/
namespace ProcessTable
open Option
open SleepWakeup (nproc Slot ProcState)

instance : NeZero nproc := ⟨by decide⟩

structure Proc where
  state : ProcState
  pid : Int
  parent : Option Slot
  killed : Bool

/-- Where a process is: in `fork`, with the slot of its child, asleep in `wait`, or elsewhere. -/
inductive Pc where
  | user
  | stack (np : Slot)
  | copy (np : Slot)
  | ready (np : Slot)
  | waiting
  deriving DecidableEq

inductive Event where
  | exited (pid : Int)
  /-- `wait` of `p` returned `pid`. -/
  | reaped (p : Slot) (pid : Int)
  /-- `wait` of `p` returned -1. -/
  | refused (p : Slot)
  /-- `kill` of `pid` returned 0. -/
  | killed (pid : Int)
  deriving DecidableEq

structure State where
  proc : Slot → Proc
  pc : Slot → Pc
  nextpid : Int
  initproc : Option Slot
  calls : Nat
  log : List Event

def State.set (s : State) (p : Slot) (x : Proc) : State :=
  { s with proc := Function.update s.proc p x }

def State.goto (s : State) (p : Slot) (pc : Pc) : State :=
  { s with pc := Function.update s.pc p pc }

/-- An `int`. -/
def wrap (x : Int) : Int := (x + 2 ^ 31) % 2 ^ 32 - 2 ^ 31

def alive : ProcState → Bool
  | .sleeping | .runnable | .running => true
  | _ => false

/-- The slot `np` taken for a new process. -/
def State.take (s : State) (np : Slot) : State :=
  { s with calls := s.calls + 1, nextpid := wrap (s.nextpid + 1) }.set np
    { s.proc np with state := .embryo, pid := s.nextpid }

def unusedSlot (s : State) : Option Slot :=
  (List.finRange nproc).find? fun p => (s.proc p).state = .unused

/-- The part of `allocproc` that holds the lock; `none` stands for a full table. -/
def allocproc (s : State) : State × Option Slot :=
  match unusedSlot s with
  | none => ({ s with calls := s.calls + 1 }, none)
  | some np => (s.take np, some np)

def userinit (s : State) : Option State :=
  match allocproc s with
  | (_, none) => none
  | (s, some p) => some { s.set p { s.proc p with state := .runnable } with initproc := some p }

def fork (s : State) (p : Slot) : State :=
  match allocproc s with
  | (s, none) => s
  | (s, some np) => s.goto p (.stack np)

/-- `fork` after a failure: the slot is free again, with its pid. -/
def abortFork (s : State) (p np : Slot) : State :=
  (s.set np { s.proc np with state := .unused }).goto p .user

/-- A process after `exit` of `p` has passed on the children of `p`. -/
def adopted (s : State) (p q : Slot) : Proc :=
  if (s.proc q).parent = some p then { s.proc q with parent := s.initproc } else s.proc q

/-- The section of `exit` under the lock; `none` is the panic of `init`. -/
def exit (s : State) (p : Slot) : Option State :=
  if s.initproc = some p then
    none
  else
    some ({ s with proc := adopted s p, log := .exited (s.proc p).pid :: s.log }.set p
      { adopted s p p with state := .zombie })

/-- One turn of the loop of `wait`. -/
def wait (s : State) (p : Slot) : State :=
  match (List.finRange nproc).find? fun q =>
      (s.proc q).parent = some p ∧ (s.proc q).state = .zombie with
  | some q =>
    ({ s with log := .reaped p (s.proc q).pid :: s.log }.set q ⟨.unused, 0, none, false⟩).goto p .user
  | none =>
    if ¬ (List.finRange nproc).any (fun q => (s.proc q).parent = some p) ∨ (s.proc p).killed then
      { s with log := .refused p :: s.log }.goto p .user
    else
      (s.set p { s.proc p with state := .sleeping }).goto p .waiting

def Proc.kill (x : Proc) : Proc :=
  { x with killed := true, state := if x.state = .sleeping then .runnable else x.state }

def kill (s : State) (pid : Int) : State :=
  match (List.finRange nproc).find? fun q => (s.proc q).pid = pid with
  | none => s
  | some q =>
    { s with log := .killed pid :: s.log }.set q (s.proc q).kill

inductive Act where
  | userinit
  | fork (p : Slot)
  /-- `alloc_page` for the kernel stack. -/
  | stack (p : Slot) (ok : Bool)
  /-- `copyuvm`, and the parent link after it. -/
  | copy (p : Slot) (ok : Bool)
  | ready (p : Slot)
  | exit (p : Slot)
  | wait (p : Slot)
  | kill (p : Slot) (pid : Int)
  | schedule (p : Slot) (state : ProcState)

def running (s : State) (p : Slot) : Bool := (s.proc p).state = .running

def step (s : State) : Act → Option State
  | .userinit => if s.initproc.isNone then userinit s else none
  | .fork p => if running s p ∧ s.pc p = .user then some (fork s p) else none
  | .stack p ok =>
    match s.pc p with
    | .stack np =>
      if running s p then
        some (if ok then s.goto p (.copy np) else abortFork s p np)
      else none
    | _ => none
  | .copy p ok =>
    match s.pc p with
    | .copy np =>
      if running s p then
        some (if ok then (s.set np { s.proc np with parent := some p }).goto p (.ready np)
          else abortFork s p np)
      else none
    | _ => none
  | .ready p =>
    match s.pc p with
    | .ready np =>
      if running s p then
        some ((s.set np { s.proc np with state := .runnable }).goto p .user)
      else none
    | _ => none
  | .exit p => if running s p ∧ s.pc p = .user then exit s p else none
  | .wait p => if running s p ∧ (s.pc p = .user ∨ s.pc p = .waiting) then some (wait s p) else none
  | .kill p pid => if running s p ∧ s.pc p = .user then some (kill s pid) else none
  | .schedule p state =>
    if alive (s.proc p).state ∧ alive state then
      some (s.set p { s.proc p with state := state })
    else none

def start : State :=
  ⟨fun _ => ⟨.unused, 0, none, false⟩, fun _ => .user, 1, none, 0, []⟩

abbrev Reachable : State → Prop := TransitionSystem.Reachable (· = start) step

/-! ### What a step can do -/

def Pc.child : Pc → Option Slot
  | .stack np | .copy np | .ready np => some np
  | _ => none

/-- The outcomes of the steps. -/
inductive Move (s : State) : Act → State → Prop
  | userinit (np : Slot) (boot : s.initproc = none) (free : unusedSlot s = some np) :
      Move s .userinit
        { (s.take np).set np { (s.take np).proc np with state := .runnable } with initproc := some np }
  | full (p : Slot) : Move s (.fork p) { s with calls := s.calls + 1 }
  | take (p np : Slot) (runs : (s.proc p).state = .running) (user : s.pc p = .user)
      (free : unusedSlot s = some np) : Move s (.fork p) ((s.take np).goto p (.stack np))
  | abort (a : Act) (p np : Slot) (child : (s.pc p).child = some np)
      (early : s.pc p ≠ .ready np) (fails : a = .stack p false ∨ a = .copy p false) :
      Move s a (abortFork s p np)
  | stacked (p np : Slot) (place : s.pc p = .stack np) :
      Move s (.stack p true) (s.goto p (.copy np))
  | copied (p np : Slot) (place : s.pc p = .copy np) :
      Move s (.copy p true) ((s.set np { s.proc np with parent := some p }).goto p (.ready np))
  | ready (p np : Slot) (place : s.pc p = .ready np) :
      Move s (.ready p) ((s.set np { s.proc np with state := .runnable }).goto p .user)
  | exit (p : Slot) (t : State) (runs : (s.proc p).state = .running) (user : s.pc p = .user)
      (done : exit s p = some t) : Move s (.exit p) t
  | reap (p q : Slot) (runs : (s.proc p).state = .running) (place : (s.pc p).child = none)
      (link : (s.proc q).parent = some p) (zombie : (s.proc q).state = .zombie) :
      Move s (.wait p)
        (({ s with log := .reaped p (s.proc q).pid :: s.log }.set q
          ⟨.unused, 0, none, false⟩).goto p .user)
  | refused (p : Slot) (runs : (s.proc p).state = .running) (place : (s.pc p).child = none)
      (why : (∀ q, (s.proc q).parent ≠ some p) ∨ (s.proc p).killed = true) :
      Move s (.wait p) ({ s with log := .refused p :: s.log }.goto p .user)
  | sleep (p : Slot) (runs : (s.proc p).state = .running) (place : (s.pc p).child = none) :
      Move s (.wait p) ((s.set p { s.proc p with state := .sleeping }).goto p .waiting)
  | missed (p : Slot) (pid : Int) : Move s (.kill p pid) s
  | kill (p q : Slot) (runs : (s.proc p).state = .running) :
      Move s (.kill p (s.proc q).pid)
        ({ s with log := .killed (s.proc q).pid :: s.log }.set q (s.proc q).kill)
  | schedule (p : Slot) (state : ProcState) (before : alive (s.proc p).state = true)
      (after : alive state = true) :
      Move s (.schedule p state) (s.set p { s.proc p with state := state })

variable {s t : State} {p q np : Slot} {x : Proc} {pc : Pc} {a : Act}

section
variable (runs : (s.proc p).state = .running)
include runs

theorem wait_move (place : (s.pc p).child = none) : Move s (.wait p) (wait s p) := by
  rw [wait]
  split
  case h_1 q found =>
    have chosen := List.find?_some found
    simp only [decide_eq_true_eq] at chosen
    exact .reap p q runs place chosen.1 chosen.2
  case h_2 =>
    split
    case isTrue why =>
      refine .refused p runs place ?_
      simpa using why
    case isFalse => exact .sleep p runs place

theorem kill_move (pid : Int) : Move s (.kill p pid) (kill s pid) := by
  rw [kill]
  split
  case h_1 => exact .missed p pid
  case h_2 q found =>
    have chosen := List.find?_some found
    simp only [decide_eq_true_eq] at chosen
    subst chosen
    exact .kill p q runs

theorem fork_move (user : s.pc p = .user) : Move s (.fork p) (fork s p) := by
  rw [fork, allocproc]
  cases free : unusedSlot s with
  | none => exact .full p
  | some np => exact .take p np runs user free

end

theorem userinit_move (boot : s.initproc = none) (next : userinit s = some t) :
    Move s .userinit t := by
  rw [userinit, allocproc] at next
  cases free : unusedSlot s with
  | none => simp [free] at next
  | some np =>
    simp only [free, some.injEq] at next
    exact next ▸ .userinit np boot free

theorem step_move (next : step s a = some t) : Move s a t := by
  cases a with
  | userinit =>
    simp only [step, isNone_iff_eq_none, ite_none_right_eq_some] at next
    exact userinit_move next.1 next.2
  | fork p =>
    simp only [step, running, decide_eq_true_eq, ite_none_right_eq_some, some.injEq] at next
    obtain ⟨⟨runs, user⟩, rfl⟩ := next
    exact fork_move runs user
  | stack p ok =>
    rw [step] at next
    split at next <;> try cases next
    case h_1 np place =>
      split at next <;> cases next
      cases ok
      · exact .abort _ p np (by rw [place, Pc.child]) (by simp [place]) (.inl rfl)
      · exact .stacked p np place
  | copy p ok =>
    rw [step] at next
    split at next <;> try cases next
    case h_1 np place =>
      split at next <;> cases next
      cases ok
      · exact .abort _ p np (by rw [place, Pc.child]) (by simp [place]) (.inr rfl)
      · exact .copied p np place
  | ready p =>
    rw [step] at next
    split at next <;> try cases next
    case h_1 np place =>
      split at next <;> cases next
      exact .ready p np place
  | exit p =>
    simp only [step, running, decide_eq_true_eq, ite_none_right_eq_some] at next
    exact .exit p t next.1.1 next.1.2 next.2
  | wait p =>
    simp only [step, running, decide_eq_true_eq, ite_none_right_eq_some, some.injEq] at next
    obtain ⟨⟨runs, place⟩, rfl⟩ := next
    exact wait_move runs (by rcases place with h | h <;> rw [h, Pc.child] <;> simp)
  | kill p pid =>
    simp only [step, running, decide_eq_true_eq, ite_none_right_eq_some, some.injEq] at next
    obtain ⟨⟨runs, -⟩, rfl⟩ := next
    exact kill_move runs pid
  | schedule p state =>
    simp only [step, ite_none_right_eq_some, some.injEq] at next
    obtain ⟨⟨before, after⟩, rfl⟩ := next
    exact .schedule p state before after

/-! ### The family invariant -/

/-- The pids that `wait` has returned. -/
def reaped (log : List Event) : List Int :=
  log.filterMap fun
    | .reaped _ pid => some pid
    | _ => none

/-- Pids grow, and none of those that `wait` returned is in use. -/
structure Pids (s : State) : Prop where
  first : 0 < s.nextpid
  counted : s.nextpid ≤ s.calls + 1
  older : ∀ q, (s.proc q).pid < s.nextpid
  positive : ∀ q, (s.proc q).state ≠ .unused → 0 < (s.proc q).pid
  distinct : ∀ q r, (s.proc q).state ≠ .unused → (s.proc r).state ≠ .unused →
    (s.proc q).pid = (s.proc r).pid → q = r
  old : ∀ pid ∈ reaped s.log, pid < s.nextpid
  gone : ∀ pid ∈ reaped s.log, ∀ q, (s.proc q).state ≠ .unused → (s.proc q).pid ≠ pid
  once : (reaped s.log).Nodup

/-- Who is whose parent, and which slot each `fork` is filling. -/
structure Kinship (s : State) : Prop where
  parent : ∀ q, (s.proc q).state ≠ .unused → (s.proc q).state ≠ .embryo → s.initproc ≠ some q →
    ∃ f, (s.proc q).parent = some f ∧ alive (s.proc f).state = true
  vacant : ∀ q, (s.proc q).state = .unused → (s.proc q).parent = none
  forking : ∀ p np, (s.pc p).child = some np → (s.proc np).state = .embryo ∧
    alive (s.proc p).state = true ∧
    (s.proc np).parent = if s.pc p = .ready np then some p else none
  apart : ∀ p p' np, (s.pc p).child = some np → (s.pc p').child = some np → p = p'
  resting : ∀ p, alive (s.proc p).state = false → s.pc p = .user
  started : s.initproc = none → ∀ q, (s.proc q).state = .unused
  root : ∀ i, s.initproc = some i → alive (s.proc i).state = true

@[simp, grind =]
theorem proc_set : (s.set p x).proc q = if q = p then x else s.proc q := by
  simp [State.set, Function.update_apply]

@[simp, grind =]
theorem pc_goto : (s.goto p pc).pc q = if q = p then pc else s.pc q := by
  simp [State.goto, Function.update_apply]

@[grind =]
theorem proc_take : (s.take np).proc q =
    if q = np then { s.proc np with state := .embryo, pid := s.nextpid } else s.proc q := by
  simp [State.take]

@[grind =] theorem pc_take : (s.take np).pc q = s.pc q := rfl
@[grind =] theorem initproc_take : (s.take np).initproc = s.initproc := rfl
@[grind =] theorem log_take : (s.take np).log = s.log := rfl
@[grind =] theorem log_set : (s.set p x).log = s.log := rfl
@[grind =] theorem log_goto : (s.goto p pc).log = s.log := rfl
@[simp, grind =] theorem pc_set : (s.set p x).pc q = s.pc q := rfl
@[simp, grind =] theorem initproc_set : (s.set p x).initproc = s.initproc := rfl
@[simp, grind =] theorem proc_goto : (s.goto p pc).proc q = s.proc q := rfl
@[simp, grind =] theorem initproc_goto : (s.goto p pc).initproc = s.initproc := rfl

theorem wrap_of_lt {x : Int} (low : 0 ≤ x) (high : x < 2 ^ 31) : wrap x = x := by
  rw [wrap]
  omega

theorem pids_start : Pids start := by
  constructor <;> simp [start, reaped]

theorem kinship_start : Kinship start := by
  constructor <;> simp [start, Pc.child]

/-- Steps that take no slot and reap none. -/
theorem Pids.mono (pids : Pids s) (pid : ∀ q, (t.proc q).pid = (s.proc q).pid)
    (state : ∀ q, (t.proc q).state ≠ .unused → (s.proc q).state ≠ .unused)
    (nextpid : t.nextpid = s.nextpid) (calls : s.calls ≤ t.calls)
    (log : reaped t.log = reaped s.log) : Pids t := by
  obtain ⟨first, counted, older, positive, distinct, old, gone, once⟩ := pids
  constructor
  case counted => omega
  all_goals grind

theorem unusedSlot_some (found : unusedSlot s = some np) : (s.proc np).state = .unused := by
  simpa using List.find?_some found

theorem Pids.take (pids : Pids s) (np : Slot) (few : s.calls + 2 < 2 ^ 31) : Pids (s.take np) := by
  obtain ⟨first, counted, older, positive, distinct, old, gone, once⟩ := pids
  have next : wrap (s.nextpid + 1) = s.nextpid + 1 := wrap_of_lt (by omega) (by omega)
  constructor <;> simp only [State.take, State.set, next, Function.update_apply] <;> grind

theorem Pids.reap (pids : Pids s) (used : (s.proc q).state ≠ .unused) :
    Pids ({ s with log := .reaped p (s.proc q).pid :: s.log }.set q ⟨.unused, 0, none, false⟩) := by
  have grown : reaped (.reaped p (s.proc q).pid :: s.log) = (s.proc q).pid :: reaped s.log := rfl
  obtain ⟨first, counted, older, positive, distinct, old, gone, once⟩ := pids
  constructor <;> simp only [State.set, grown, Function.update_apply] <;> grind

/-- Two entries of the table that play the same part in the family. -/
def Alike (x y : Proc) : Prop :=
  alive x.state = alive y.state ∧ (x.state = .unused ↔ y.state = .unused) ∧
    (x.state = .embryo ↔ y.state = .embryo) ∧ x.parent = y.parent

section
variable (kin : Kinship s)
include kin

theorem Kinship.alike (proc : ∀ q, Alike (t.proc q) (s.proc q))
    (child : ∀ p, (t.pc p).child = (s.pc p).child)
    (ready : ∀ p np, t.pc p = .ready np ↔ s.pc p = .ready np)
    (resting : ∀ p, alive (t.proc p).state = false → t.pc p = .user)
    (initproc : t.initproc = s.initproc) : Kinship t := by
  obtain ⟨parent, vacant, forking, apart, -, started, root⟩ := kin
  simp only [Alike] at proc
  constructor
  case resting => exact resting
  all_goals grind

/-- Parents stay where no link changes and nobody dies. -/
theorem Kinship.parents
    (same : ∀ q, (t.proc q).state ≠ .unused → (t.proc q).state ≠ .embryo → t.initproc ≠ some q →
      (s.proc q).state ≠ .unused ∧ (s.proc q).state ≠ .embryo ∧ s.initproc ≠ some q ∧
        (t.proc q).parent = (s.proc q).parent)
    (live : ∀ f, alive (s.proc f).state = true → alive (t.proc f).state = true) :
    ∀ q, (t.proc q).state ≠ .unused → (t.proc q).state ≠ .embryo → t.initproc ≠ some q →
      ∃ f, (t.proc q).parent = some f ∧ alive (t.proc f).state = true := by
  intro q used born other
  obtain ⟨used, born, other, link⟩ := same q used born other
  obtain ⟨f, father, lives⟩ := kin.parent q used born other
  exact ⟨f, link.trans father, live f lives⟩

theorem Kinship.take (runs : (s.proc p).state = .running)
    (user : s.pc p = .user) (free : (s.proc np).state = .unused) :
    Kinship ((s.take np).goto p (.stack np)) := by
  constructor
  case parent => exact kin.parents (by grind) (by grind [alive])
  all_goals
    cases kin
    grind [Pc.child, alive]

theorem Kinship.abortFork (child : (s.pc p).child = some np)
    (early : s.pc p ≠ .ready np) : Kinship (abortFork s p np) := by
  have embryo := (kin.forking p np child).1
  rw [ProcessTable.abortFork]
  constructor
  case parent => exact kin.parents (by grind) (by grind [alive])
  all_goals
    cases kin
    grind [Pc.child, alive]

theorem Kinship.copy (copying : s.pc p = .copy np) :
    Kinship ((s.set np { s.proc np with parent := some p }).goto p (.ready np)) := by
  have embryo := kin.forking p np (by rw [copying, Pc.child])
  constructor
  case parent => exact kin.parents (by grind) (by grind [alive])
  all_goals
    cases kin
    grind [Pc.child, alive]

theorem Kinship.ready (last : s.pc p = .ready np) :
    Kinship ((s.set np { s.proc np with state := .runnable }).goto p .user) := by
  obtain ⟨parent, vacant, forking, apart, resting, started, root⟩ := kin
  obtain ⟨embryo, lives, link⟩ := forking p np (by rw [last, Pc.child])
  constructor
  case parent =>
    intro q used born other
    by_cases new : q = np
    · subst new
      exact ⟨p, by grind, by grind [alive]⟩
    · obtain ⟨f, father, living⟩ := parent q (by grind) (by grind) (by grind)
      exact ⟨f, by grind, by grind [alive]⟩
  all_goals grind [Pc.child, alive]

theorem Kinship.exit (runs : (s.proc p).state = .running)
    (user : s.pc p = .user) (done : exit s p = some t) : Kinship t := by
  rw [ProcessTable.exit] at done
  split at done
  case isTrue => cases done
  case isFalse notInit =>
    cases done
    obtain ⟨parent, vacant, forking, apart, resting, started, root⟩ := kin
    have boot : s.initproc ≠ none := fun none => by simp [started none p] at runs
    obtain ⟨i, init⟩ := ne_none_iff_exists'.mp boot
    constructor
    case parent =>
      intro q used born other
      obtain ⟨f, father, living⟩ := parent q (by grind [adopted]) (by grind [adopted]) (by grind)
      by_cases mine : f = p
      · exact ⟨i, by grind [adopted], by grind [adopted, alive]⟩
      · exact ⟨f, by grind [adopted], by grind [adopted, alive]⟩
    all_goals grind [Pc.child, alive, adopted]

theorem Kinship.reap (zombie : (s.proc q).state = .zombie)
    {log : List Event} : Kinship ({ s with log := log }.set q ⟨.unused, 0, none, false⟩) := by
  constructor
  case parent => exact kin.parents (by grind) (by grind [alive])
  all_goals
    cases kin
    grind [alive]

/-- A process that can run goes to a place outside `fork`. -/
theorem Kinship.goto (runs : alive (s.proc p).state = true)
    (before : (s.pc p).child = none) (after : pc.child = none) : Kinship (s.goto p pc) := by
  apply kin.alike
  case proc => exact fun _ => ⟨rfl, .rfl, .rfl, rfl⟩
  case initproc => rfl
  case resting => grind [kin.resting]
  all_goals grind [Pc.child]

theorem Kinship.set (alike : Alike x (s.proc p)) : Kinship (s.set p x) := by
  apply kin.alike
  case initproc => rfl
  case proc => grind [Alike]
  case resting => grind [Alike, kin.resting]
  all_goals grind

end

theorem Alike.kill (x : Proc) : Alike x.kill x := by
  grind [Alike, Proc.kill, alive]

theorem Move.calls_le (move : Move s a t) : s.calls ≤ t.calls := by
  cases move with
  | exit p t runs user done =>
    simp only [ProcessTable.exit, ite_none_left_eq_some, some.injEq] at done
    rw [← done.2]
    exact Nat.le_refl _
  | _ => simp [State.take, State.set, State.goto, ProcessTable.abortFork]

theorem exit_spec (done : exit s p = some t) :
    s.initproc ≠ some p ∧ t.pc = s.pc ∧ t.nextpid = s.nextpid ∧ t.initproc = s.initproc ∧
      t.calls = s.calls ∧ t.log = .exited (s.proc p).pid :: s.log ∧
      ∀ q, t.proc q =
        if q = p then { adopted s p p with state := .zombie } else adopted s p q := by
  simp only [exit, ite_none_left_eq_some, some.injEq] at done
  obtain ⟨other, rfl⟩ := done
  exact ⟨other, rfl, rfl, rfl, rfl, rfl, fun q => by simp⟩

theorem Pids.step (pids : Pids s) (kin : Kinship s) (few : t.calls < 2 ^ 31 - 1)
    (move : Move s a t) : Pids t := by
  cases move with
  | userinit np boot free =>
    have taken := pids.take np (by simp [State.take, State.set] at few; omega)
    exact taken.mono (by grind) (by grind) rfl (Nat.le_refl _) rfl
  | full p => exact pids.mono (fun _ => rfl) (fun _ => id) rfl (Nat.le_succ _) rfl
  | take p np runs user free =>
    have taken := pids.take np (by simp [State.take, State.set, State.goto] at few; omega)
    exact taken.mono (fun _ => rfl) (fun _ => id) rfl (Nat.le_refl _) rfl
  | abort _ p np child early fails =>
    exact pids.mono (by grind [abortFork]) (by grind [abortFork]) rfl (Nat.le_refl _) rfl
  | exit p t runs user done =>
    obtain ⟨-, -, nextpid, -, calls, log, proc⟩ := exit_spec done
    exact pids.mono (by grind [adopted]) (by grind [adopted]) nextpid (by omega) (by rw [log]; rfl)
  | reap p q runs place link zombie =>
    have clean := pids.reap (p := p) (q := q) (by simp [zombie])
    exact clean.mono (fun _ => rfl) (fun _ => id) rfl (Nat.le_refl _) rfl
  | ready p np place =>
    have embryo := (kin.forking p np (by rw [place, Pc.child])).1
    exact pids.mono (by grind) (by grind) rfl (Nat.le_refl _) rfl
  | _ => exact pids.mono (by grind [Proc.kill]) (by grind [Proc.kill, alive]) rfl (Nat.le_refl _) rfl

theorem Kinship.stacked (kin : Kinship s) (place : s.pc p = .stack np) :
    Kinship (s.goto p (.copy np)) := by
  have lives := (kin.forking p np (by rw [place, Pc.child])).2.1
  apply kin.alike
  case proc => exact fun _ => ⟨rfl, .rfl, .rfl, rfl⟩
  case initproc => rfl
  case resting => grind [kin.resting]
  all_goals grind [Pc.child]

theorem Kinship.userinit (kin : Kinship s) (boot : s.initproc = none) :
    Kinship { (s.take np).set np { (s.take np).proc np with state := .runnable } with
      initproc := some np } := by
  have unused := kin.started boot
  cases kin
  constructor
  case parent =>
    intro q used
    grind
  all_goals grind [alive, Pc.child]

theorem Kinship.step (kin : Kinship s) (move : Move s a t) : Kinship t := by
  cases move with
  | userinit np boot free => exact kin.userinit boot
  | full p =>
    exact kin.alike (fun _ => ⟨rfl, .rfl, .rfl, rfl⟩) (fun _ => rfl) (fun _ _ => .rfl) kin.resting rfl
  | take p np runs user free => exact kin.take runs user (unusedSlot_some free)
  | abort _ p np child early fails => exact kin.abortFork child early
  | stacked p np place => exact kin.stacked place
  | copied p np place => exact kin.copy place
  | ready p np place => exact kin.ready place
  | exit p t runs user done => exact kin.exit runs user done
  | reap p q runs place link zombie =>
    refine (kin.reap zombie).goto ?_ place rfl
    grind [alive]
  | refused p runs place why =>
    exact Kinship.goto (kin.alike (fun _ => ⟨rfl, .rfl, .rfl, rfl⟩) (fun _ => rfl)
      (fun _ _ => .rfl) kin.resting rfl) (by simp [runs, alive]) place rfl
  | sleep p runs place =>
    refine (kin.set ?_).goto ?_ place rfl
    · simp [Alike, runs, alive]
    · simp [alive]
  | missed p pid => exact kin
  | kill p q runs =>
    exact Kinship.set (kin.alike (fun _ => ⟨rfl, .rfl, .rfl, rfl⟩) (fun _ => rfl)
      (fun _ _ => .rfl) kin.resting rfl) (.kill _)
  | schedule p state before after =>
    refine kin.set ?_
    grind [Alike, alive]

/-! ### Zombies -/

/-- A zombie waits for its parent, or for `initproc` once the parent is gone. -/
theorem Move.zombie (move : Move s a t) (kin : Kinship s) {z f : Slot}
    (zombie : (s.proc z).state = .zombie) (father : (s.proc z).parent = some f) :
    ((t.proc z).state = .zombie ∧ (t.proc z).pid = (s.proc z).pid ∧
      ((t.proc z).parent = some f ∨ a = .exit f ∧ (t.proc z).parent = s.initproc)) ∨
    (a = .wait f ∧ t.log = .reaped f (s.proc z).pid :: s.log) := by
  cases move with
  | userinit np boot free => grind [kin.started boot]
  | take p np runs user free => grind [unusedSlot_some]
  | abort _ p np child early fails => grind [abortFork, (kin.forking p np child).1]
  | copied p np place => grind [(kin.forking p np (by rw [place, Pc.child])).1]
  | ready p np place => grind [(kin.forking p np (by rw [place, Pc.child])).1]
  | exit p t runs user done =>
    obtain ⟨-, -, -, -, -, -, proc⟩ := exit_spec done
    grind [adopted]
  | reap p q runs place link dead =>
    by_cases same : z = q
    · subst same
      obtain rfl := some.inj (link.symm.trans father)
      exact .inr ⟨rfl, rfl⟩
    · grind
  | kill p q runs => grind [Proc.kill]
  | schedule p state before after => grind [alive]
  | _ => grind

/-- Whoever exited is a zombie or has been waited for. -/
def Remembered (s : State) : Prop :=
  ∀ pid, .exited pid ∈ s.log →
    pid ∈ reaped s.log ∨ ∃ z, (s.proc z).state = .zombie ∧ (s.proc z).pid = pid

theorem Move.log (move : Move s a t) :
    t.log = s.log ∨ (∃ p, a = .exit p ∧ t.log = .exited (s.proc p).pid :: s.log ∧
      (t.proc p).state = .zombie ∧ (t.proc p).pid = (s.proc p).pid) ∨
    (∃ p q, a = .wait p ∧ (s.proc q).state = .zombie ∧ (s.proc q).parent = some p ∧
      t.log = .reaped p (s.proc q).pid :: s.log) ∨
    (∃ p, a = .wait p ∧ t.log = .refused p :: s.log ∧ (s.proc p).state = .running ∧
      ((∀ q, (s.proc q).parent ≠ some p) ∨ (s.proc p).killed = true)) ∨
    ∃ p q, a = .kill p (s.proc q).pid ∧ t.log = .killed (s.proc q).pid :: s.log := by
  cases move with
  | exit p t runs user done =>
    obtain ⟨-, -, -, -, -, log, proc⟩ := exit_spec done
    exact .inr (.inl ⟨p, rfl, log, by grind, by grind [adopted]⟩)
  | reap p q runs place link zombie => exact .inr (.inr (.inl ⟨p, q, rfl, zombie, link, rfl⟩))
  | refused p runs place why => exact .inr (.inr (.inr (.inl ⟨p, rfl, rfl, runs, why⟩)))
  | kill p q runs => exact .inr (.inr (.inr (.inr ⟨p, q, rfl, rfl⟩)))
  | _ => exact .inl rfl

theorem Move.reaped_grows (move : Move s a t) {pid : Int} (before : pid ∈ reaped s.log) :
    pid ∈ reaped t.log := by
  rcases move.log with log | ⟨p, -, log, -⟩ | ⟨p, q, -, -, -, log⟩ | ⟨p, -, log, -⟩ |
    ⟨p, q, -, log⟩ <;> rw [log] <;> simp_all [reaped]

theorem Kinship.zombie_parent (kin : Kinship s) {z : Slot} (zombie : (s.proc z).state = .zombie) :
    ∃ f, (s.proc z).parent = some f ∧ alive (s.proc f).state = true := by
  refine kin.parent z (by simp [zombie]) (by simp [zombie]) fun init => ?_
  simpa [zombie, alive] using kin.root z init

theorem Remembered.step (known : Remembered s) (kin : Kinship s) (move : Move s a t) :
    Remembered t := by
  have kept : ∀ pid, .exited pid ∈ s.log →
      pid ∈ reaped t.log ∨ ∃ z, (t.proc z).state = .zombie ∧ (t.proc z).pid = pid := by
    intro pid exited
    rcases known pid exited with taken | ⟨z, zombie, rfl⟩
    · exact .inl (move.reaped_grows taken)
    · obtain ⟨f, father, -⟩ := kin.zombie_parent zombie
      rcases move.zombie kin zombie father with ⟨still, same, -⟩ | ⟨-, log⟩
      · exact .inr ⟨z, still, same⟩
      · exact .inl (by simp [log, reaped])
  intro pid exited
  rcases move.log with log | ⟨p, -, log, zombie, same⟩ | ⟨p, q, -, -, -, log⟩ | ⟨p, -, log, -⟩ |
    ⟨p, q, -, log⟩
  case inr.inl =>
    rcases List.mem_cons.mp (log ▸ exited) with new | old
    · exact .inr ⟨p, zombie, same.trans (Event.exited.inj new).symm⟩
    · exact kept pid old
  all_goals exact kept pid (by simpa [log] using exited)

structure Family (s : State) : Prop where
  pids : Pids s
  kinship : Kinship s
  remembered : Remembered s

theorem family_start : Family start :=
  ⟨pids_start, kinship_start, by simp [Remembered, start]⟩

theorem Family.step (family : Family s) (few : t.calls < 2 ^ 31 - 1) (move : Move s a t) :
    Family t :=
  ⟨family.pids.step family.kinship few move, family.kinship.step move,
    family.remembered.step family.kinship move⟩

theorem Reachable.family (reach : Reachable s) (few : s.calls < 2 ^ 31 - 1) : Family s := by
  refine reach.invariant (I := fun s => s.calls < 2 ^ 31 - 1 → Family s) ?_ ?_ few
  · rintro s rfl -
    exact family_start
  · intro s a t before next few
    have move := step_move next
    exact (before (Nat.lt_of_le_of_lt move.calls_le few)).step few move

/-- An exited process is a zombie of a living parent, or one `wait` has returned its pid. -/
theorem Family.exited (family : Family s) {pid : Int} (exited : .exited pid ∈ s.log) :
    (∃ z f, (s.proc z).state = .zombie ∧ (s.proc z).pid = pid ∧ (s.proc z).parent = some f ∧
      alive (s.proc f).state = true ∧ pid ∉ reaped s.log) ∨ (reaped s.log).count pid = 1 := by
  rcases family.remembered pid exited with taken | ⟨z, zombie, rfl⟩
  · exact .inr (List.count_eq_one_of_mem family.pids.once taken)
  · obtain ⟨f, father, lives⟩ := family.kinship.zombie_parent zombie
    refine .inl ⟨z, f, zombie, rfl, father, lives, fun taken => ?_⟩
    exact family.pids.gone _ taken z (by simp [zombie]) rfl

/-! ### The killed flag

`kill` takes the first slot with the pid, whatever its state: `kill(0)` finds an UNUSED slot, and
so does the pid of a failed `fork`. `allocproc` and `fork` do not clear the flag. -/

/-- `fork` gets no slot whose flag is set. -/
def Clean (s : State) : Act → Prop
  | .fork _ => ∀ np, unusedSlot s = some np → (s.proc np).killed = false
  | _ => True

instance (s : State) (a : Act) : Decidable (Clean s a) := by
  cases a <;> unfold Clean <;> infer_instance

def cleanStep (s : State) (a : Act) : Option State :=
  if Clean s a then step s a else none

/-- The flag of a process tells that `kill` was called with its pid. -/
structure Flags (s : State) : Prop where
  told : ∀ q, (s.proc q).state ≠ .unused → (s.proc q).killed = true →
    .killed (s.proc q).pid ∈ s.log
  boot : s.initproc = none → ∀ q, (s.proc q).killed = false

theorem Flags.step (flags : Flags s) (kin : Kinship s) (clean : Clean s a) (move : Move s a t) :
    Flags t := by
  obtain ⟨told, boot⟩ := flags
  have started := kin.started
  cases move with
  | userinit np init free => constructor <;> grind
  | take p np runs user free =>
    have unset := clean np free
    constructor <;> grind
  | exit p t runs user done =>
    obtain ⟨-, -, -, init, -, log, proc⟩ := exit_spec done
    constructor <;> grind [adopted]
  | ready p np place =>
    have embryo := (kin.forking p np (by rw [place, Pc.child])).1
    constructor <;> grind
  | _ => constructor <;> grind [Proc.kill, alive, abortFork]

theorem flags_of_clean (reach : TransitionSystem.Reachable (· = start) cleanStep s) :
    Reachable s ∧ Kinship s ∧ Flags s := by
  refine reach.invariant (I := fun s => Reachable s ∧ Kinship s ∧ Flags s) ?_ ?_
  · rintro s rfl
    exact ⟨.init start rfl, kinship_start, by simp [start], by simp [start]⟩
  · intro s a t ⟨before, kin, flags⟩ next
    obtain ⟨clean, next⟩ := ite_none_right_eq_some.mp next
    have move := step_move next
    exact ⟨.step s t a before next, kin.step move, flags.step kin clean move⟩

/-- What holds of the process table in a state and of the steps out of it. -/
structure WellKept (s : State) : Prop where
  positive : ∀ q, (s.proc q).state ≠ .unused → 0 < (s.proc q).pid
  distinct : ∀ q r, (s.proc q).state ≠ .unused → (s.proc r).state ≠ .unused →
    (s.proc q).pid = (s.proc r).pid → q = r
  parent : ∀ q, (s.proc q).state ≠ .unused → (s.proc q).state ≠ .embryo → s.initproc ≠ some q →
    ∃ f, (s.proc q).parent = some f ∧ (s.proc f).state ≠ .unused ∧ (s.proc f).state ≠ .embryo ∧
      (s.proc f).state ≠ .zombie
  /-- Who exited is a zombie nobody has waited for, or one `wait` has returned the pid. -/
  exited : ∀ pid, .exited pid ∈ s.log →
    (∃ z f, (s.proc z).state = .zombie ∧ (s.proc z).pid = pid ∧ (s.proc z).parent = some f ∧
      alive (s.proc f).state = true ∧ pid ∉ reaped s.log) ∨ (reaped s.log).count pid = 1
  /-- A zombie leaves the table only by a `wait` of its parent. -/
  zombie : ∀ z f a t, (s.proc z).state = .zombie → (s.proc z).parent = some f →
    step s a = some t →
    ((t.proc z).state = .zombie ∧ (t.proc z).pid = (s.proc z).pid ∧
      ((t.proc z).parent = some f ∨ a = .exit f ∧ (t.proc z).parent = s.initproc)) ∨
    (a = .wait f ∧ t.log = .reaped f (s.proc z).pid :: s.log)
  /-- `wait` returns the pid of a zombie child. -/
  reaped : ∀ f pid a t, step s a = some t → t.log = .reaped f pid :: s.log →
    a = .wait f ∧ ∃ z, (s.proc z).state = .zombie ∧ (s.proc z).parent = some f ∧
      (s.proc z).pid = pid
  /-- `wait` returns -1 to those without children and to those whose pid was killed. -/
  refused : ∀ p a t, step s a = some t → t.log = .refused p :: s.log →
    (∀ q, (s.proc q).parent ≠ some p) ∨ .killed (s.proc p).pid ∈ s.log

theorem Move.of_reaped (move : Move s a t) {f : Slot} {pid : Int}
    (new : t.log = .reaped f pid :: s.log) :
    a = .wait f ∧ ∃ z, (s.proc z).state = .zombie ∧ (s.proc z).parent = some f ∧
      (s.proc z).pid = pid := by
  rcases move.log with log | ⟨p, -, log, -⟩ | ⟨p, q, act, zombie, link, log⟩ | ⟨p, -, log, -⟩ |
    ⟨p, q, -, log⟩ <;> rw [log] at new <;> simp_all
  exact ⟨q, zombie, link, new.2⟩

theorem Move.of_refused (move : Move s a t) (new : t.log = .refused p :: s.log) :
    (s.proc p).state = .running ∧
      ((∀ q, (s.proc q).parent ≠ some p) ∨ (s.proc p).killed = true) := by
  rcases move.log with log | ⟨p', -, log, -⟩ | ⟨p', q, -, -, -, log⟩ | ⟨p', -, log, runs, why⟩ |
    ⟨p', q, -, log⟩ <;> rw [log] at new <;> simp_all

/-- In the runs in which no `fork` gets a flagged slot the family is kept. -/
theorem family_well_kept (reach : TransitionSystem.Reachable (· = start) cleanStep s)
    (few : s.calls < 2 ^ 31 - 1) : WellKept s := by
  obtain ⟨reach, kin, flags⟩ := flags_of_clean reach
  have family := reach.family few
  constructor
  case positive => exact family.pids.positive
  case distinct => exact family.pids.distinct
  case parent =>
    intro q used born other
    obtain ⟨f, father, lives⟩ := kin.parent q used born other
    exact ⟨f, father, by rintro h; simp [h, alive] at lives, by rintro h; simp [h, alive] at lives,
      by rintro h; simp [h, alive] at lives⟩
  case exited => exact fun pid => family.exited
  case zombie =>
    intro z f a t zombie father next
    exact (step_move next).zombie kin zombie father
  case reaped => exact fun f pid a t next => (step_move next).of_reaped
  case refused =>
    intro p a t next new
    obtain ⟨runs, why⟩ := (step_move next).of_refused new
    exact why.imp_right (flags.told p (by simp [runs]))

/-- `init` forks a child, which exits. -/
def childRun : List Act :=
  [.userinit, .schedule 0 .running, .fork 0, .stack 0 true, .copy 0 true, .ready 0,
    .schedule 1 .running, .exit 1]

theorem childRun_ends : (TransitionSystem.run cleanStep start childRun).isSome := by
  decide +kernel

theorem child_well_kept : ∃ s, TransitionSystem.run cleanStep start childRun = some s ∧
    s.calls < 2 ^ 31 - 1 ∧ WellKept s ∧ (s.proc 1).state = .zombie := by
  have ran := Option.eq_some_of_isSome childRun_ends
  have few : ((TransitionSystem.run cleanStep start childRun).get childRun_ends).calls <
    2 ^ 31 - 1 := by decide +kernel
  exact ⟨_, ran, few, family_well_kept (.run (.init start rfl) ran) few, by decide +kernel⟩

/-- `init` calls `kill(0)`, which flags the free slot 1, and forks into it; the child forks. -/
def strayKill : List Act :=
  [.userinit, .schedule 0 .running, .kill 0 0, .fork 0, .stack 0 true, .copy 0 true, .ready 0,
    .schedule 1 .running, .fork 1, .stack 1 true, .copy 1 true, .ready 1]

theorem strayKill_ends : (TransitionSystem.run step start strayKill).isSome := by
  decide +kernel

theorem step_wait (enabled : running s p ∧ (s.pc p = .user ∨ s.pc p = .waiting)) :
    step s (.wait p) = some (wait s p) :=
  if_pos enabled

/-- `wait` returns -1 to a process that has a child and whose pid nobody has killed. -/
theorem wait_fails_unkilled : ∃ s t, Reachable s ∧ s.calls < 2 ^ 31 - 1 ∧
    step s (.wait 1) = some t ∧ t.log = .refused 1 :: s.log ∧
    (s.proc 2).parent = some 1 ∧ (s.proc 2).state = .runnable ∧
    .killed (s.proc 1).pid ∉ s.log := by
  have ran := Option.eq_some_of_isSome strayKill_ends
  refine ⟨_, wait _ 1, .run (.init start rfl) ran, ?_, step_wait ?_, ?_⟩ <;> decide +kernel

end ProcessTable
