import PinkyOS.Pipe
import PinkyOS.TransitionSystem

/-!
# Processes that sleep and wake each other

Interleavings of the calls of `pipe.c`, `log.c` and `proc.c` that use `sleep` and `wakeup`. A
process takes a step from one lock acquisition, or one byte copied under a lock, to the next.
`sleep` takes two steps: it acquires `ptable.lock` and releases the caller's lock, then marks
the process `SLEEPING` and gives `ptable.lock` up through the scheduler.

A pipe is identified by a number that is not used again after both ends are closed. `fd` counts
the descriptors of a process that refer to one end and `ref` is the count in the end's
`struct file`. Other users of `sleep` and `wakeup` are represented by the numbered locks and
channels `other`.
-/
namespace SleepWakeup
open PipeBuffer

def nproc : Nat := 64

theorem nproc_pos : 0 < nproc := by decide

abbrev Slot := Fin nproc

def initproc : Slot := ⟨0, by decide⟩

inductive ProcState
  | unused | embryo | sleeping | runnable | running | zombie
  deriving DecidableEq

inductive Lock
  | ptable
  | log
  | pipe (i : Nat)
  | other (n : Nat)
  deriving DecidableEq

inductive Chan
  | nread (i : Nat)
  | nwrite (i : Nat)
  | log
  | proc (p : Slot)
  | other (n : Nat)
  deriving DecidableEq

/-- The loops that call `sleep`, at their test: `pipewrite` with the bytes still to store,
`piperead` of `n` bytes, `begin_trans`, `wait`, and any other. -/
inductive Loop
  | write (i : Nat) (rest : List UInt8)
  | read (i n : Nat)
  | begin
  | wait
  | other (lk ch : Nat)
  deriving DecidableEq

/-- Where `fileclose` returns to: the system call, or the loop over descriptors in `exit`. -/
inductive Back
  | user
  | exiting
  deriving DecidableEq

/-- A point inside a critical section. -/
inductive Code
  | loop (l : Loop)
  | copy (i n : Nat)
  | close (i : Nat) (writable : Bool) (back : Back)
  | commit
  | die
  deriving DecidableEq

/-- What follows a `wakeup`: the lock is released and the call returns, or the caller sleeps. -/
inductive After
  | done (lk : Option Lock) (back : Back)
  | sleep (l : Loop)
  deriving DecidableEq

inductive Pc
  /-- outside the calls modelled here -/
  | user
  /-- in the loop of `exit` that closes the descriptors -/
  | exiting
  /-- in `fork`, with the new slot `np` in state `EMBRYO` -/
  | forking (np : Slot)
  /-- a slot without a process, or with one that has exited -/
  | dead
  /-- spinning in `acquire` -/
  | acquiring (c : Code)
  /-- holding the lock of the critical section -/
  | inside (c : Code)
  /-- in `wakeup`, before `ptable.lock` is acquired -/
  | waking (ch : Chan) (after : After)
  /-- in `sleep`, before `ptable.lock` is acquired -/
  | entering (l : Loop)
  /-- in `sleep`, with `ptable.lock` held and the caller's lock released -/
  | handing (l : Loop)
  /-- in `sleep`, switched away -/
  | asleep (l : Loop)
  deriving DecidableEq

def Loop.lock : Loop → Lock
  | .write i _ => .pipe i
  | .read i _ => .pipe i
  | .begin => .log
  | .wait => .ptable
  | .other lk _ => .other lk

/-- The channel on which process `p` sleeps in a loop. -/
def Loop.chan (p : Slot) : Loop → Chan
  | .write i _ => .nwrite i
  | .read i _ => .nread i
  | .begin => .log
  | .wait => .proc p
  | .other _ ch => .other ch

def Code.lock : Code → Lock
  | .loop l => l.lock
  | .copy i _ => .pipe i
  | .close i _ _ => .pipe i
  | .commit => .log
  | .die => .ptable

def Back.pc : Back → Pc
  | .user => .user
  | .exiting => .exiting

structure Proc where
  state : ProcState
  parent : Option Slot
  chan : Option Chan
  killed : Bool
  pc : Pc
  fd : Nat → Bool → Nat

structure State where
  proc : Slot → Proc
  holder : Lock → Option Slot
  pipe : Nat → Pipe
  ref : Nat → Bool → Nat
  npipes : Nat
  busy : Bool

namespace State

def modify (s : State) (p : Slot) (f : Proc → Proc) : State :=
  { s with proc := Function.update s.proc p (f (s.proc p)) }

def goto (s : State) (p : Slot) (pc : Pc) : State :=
  s.modify p fun x => { x with pc := pc }

def acquire (s : State) (lk : Lock) (p : Slot) : State :=
  { s with holder := Function.update s.holder lk (some p) }

def release (s : State) (lk : Lock) : State :=
  { s with holder := Function.update s.holder lk none }

def setPipe (s : State) (i : Nat) (p : Pipe) : State :=
  { s with pipe := Function.update s.pipe i p }

def setBusy (s : State) (busy : Bool) : State :=
  { s with busy := busy }

def setRef (s : State) (i : Nat) (w : Bool) (n : Nat) : State :=
  { s with ref := Function.update s.ref i (Function.update (s.ref i) w n) }

/-- `wakeup1`: every process sleeping on the channel becomes runnable. -/
def wakeup1 (s : State) (ch : Chan) : State :=
  { s with proc := fun q =>
      if (s.proc q).state = .sleeping ∧ (s.proc q).chan = some ch
      then { s.proc q with state := .runnable } else s.proc q }

end State

def Proc.addFd (x : Proc) (i : Nat) (w : Bool) : Proc :=
  { x with fd := Function.update x.fd i (Function.update (x.fd i) w (x.fd i w + 1)) }

def Proc.dropFd (x : Proc) (i : Nat) (w : Bool) : Proc :=
  { x with fd := Function.update x.fd i (Function.update (x.fd i) w (x.fd i w - 1)) }

/-- `wait`, holding `ptable.lock`, after its scan: a zombie child is reaped; without children, or
killed, the call fails; otherwise the caller sleeps on itself. -/
def runWait (s : State) (p : Slot) : State :=
  match (List.finRange nproc).find? fun q =>
      (s.proc q).parent = some p ∧ (s.proc q).state = .zombie with
  | some q =>
    ((s.modify q fun x => { x with state := .unused, parent := none, killed := false }).release
      .ptable).goto p .user
  | none =>
    if (List.finRange nproc).all (fun q => (s.proc q).parent ≠ some p) || (s.proc p).killed then
      (s.release .ptable).goto p .user
    else
      s.goto p (.handing .wait)

/-- One round of a loop that sleeps, entered with its lock held. -/
def runLoop (s : State) (p : Slot) : Loop → State
  | .write i [] => s.goto p (.waking (.nread i) (.done (some (.pipe i)) .user))
  | .write i (b :: rest) =>
    if (s.pipe i).full then
      if (s.pipe i).readopen = false then (s.release (.pipe i)).goto p .user
      else s.goto p (.waking (.nread i) (.sleep (.write i (b :: rest))))
    else (s.setPipe i ((s.pipe i).store b)).goto p (.inside (.loop (.write i rest)))
  | .read i n =>
    if (s.pipe i).empty && (s.pipe i).writeopen then
      if (s.proc p).killed then (s.release (.pipe i)).goto p .user
      else s.goto p (.entering (.read i n))
    else s.goto p (.inside (.copy i n))
  | .begin =>
    if s.busy then s.goto p (.entering .begin)
    else ((s.setBusy true).release .log).goto p .user
  | .wait => runWait s p
  | .other lk ch => s.goto p (.entering (.other lk ch))

/-- One round of the loop of `exit` that passes the children of `p` to `initproc`. -/
def adopt (p : Slot) (s : State) (q : Slot) : State :=
  if (s.proc q).parent = some p then
    if (s.proc q).state = .zombie then
      (s.modify q fun x => { x with parent := some initproc }).wakeup1 (.proc initproc)
    else s.modify q fun x => { x with parent := some initproc }
  else s

def abandon (s : State) (p : Slot) : State :=
  (List.finRange nproc).foldl (adopt p) s

/-- The part of `exit` under `ptable.lock`, which the scheduler then releases. -/
def runDie (s : State) (p : Slot) : State :=
  let s := match (s.proc p).parent with
    | some q => s.wakeup1 (.proc q)
    | none => s
  ((abandon s p).modify p fun x => { x with state := .zombie, pc := .dead }).release .ptable

def runCode (s : State) (p : Slot) : Code → State
  | .loop l => runLoop s p l
  | .copy i n =>
    if n = 0 ∨ (s.pipe i).empty then
      s.goto p (.waking (.nwrite i) (.done (some (.pipe i)) .user))
    else (s.setPipe i (s.pipe i).take).goto p (.inside (.copy i (n - 1)))
  | .close i w back =>
    (s.setPipe i ((s.pipe i).shut w)).goto p
      (.waking (if w then .nread i else .nwrite i) (.done (some (.pipe i)) back))
  | .commit => (s.setBusy false).goto p (.waking .log (.done (some .log) .user))
  | .die => runDie s p

/-- The part of `wakeup` under `ptable.lock`, and what the caller does up to its next lock. -/
def runWaking (s : State) (p : Slot) (ch : Chan) : After → State
  | .done none back => (s.wakeup1 ch).goto p back.pc
  | .done (some lk) back => ((s.wakeup1 ch).release lk).goto p back.pc
  | .sleep l => (s.wakeup1 ch).goto p (.entering l)

/-- `fork` after its allocations have succeeded. -/
def runFork (s : State) (p np : Slot) : State :=
  let s := s.modify np fun x =>
    { x with parent := some p, fd := (s.proc p).fd, state := .runnable, pc := .user }
  { s with ref := fun i w => s.ref i w + (s.proc p).fd i w }.goto p .user

/-- The next step of a running process. -/
def runPc (s : State) (p : Slot) : Pc → Option State
  | .user | .dead | .asleep _ => none
  | .exiting =>
    if (List.range s.npipes).all fun i => (s.proc p).fd i true = 0 ∧ (s.proc p).fd i false = 0
    then some (s.goto p (.acquiring .die)) else none
  | .forking np => some (runFork s p np)
  | .acquiring c =>
    if s.holder c.lock = none then some ((s.acquire c.lock p).goto p (.inside c)) else none
  | .inside c => some (runCode s p c)
  | .waking ch after => if s.holder .ptable = none then some (runWaking s p ch after) else none
  | .entering l =>
    if s.holder .ptable = none then
      some (((s.release l.lock).acquire .ptable p).goto p (.handing l))
    else none
  | .handing l =>
    some ((s.modify p fun x =>
      { x with chan := some (l.chan p), state := .sleeping, pc := .asleep l }).release .ptable)

inductive Call
  | write (i : Nat) (bytes : List UInt8)
  | read (i n : Nat)
  | dup (i : Nat) (writable : Bool)
  | pipe (data : Nat → UInt8)
  | begin
  | commit
  | wait
  | exit
  | fork
  | kill (q : Slot)
  | wakeup (ch : Chan)
  | sleep (lk ch : Nat)

/-- `sys_pipe` after its allocations have succeeded. -/
def sysPipe (s : State) (p : Slot) (data : Nat → UInt8) : State where
  proc := (s.modify p fun x => (x.addFd s.npipes true).addFd s.npipes false).proc
  holder := s.holder
  pipe := (s.setPipe s.npipes (Pipe.alloc data)).pipe
  ref := ((s.setRef s.npipes true 1).setRef s.npipes false 1).ref
  npipes := s.npipes + 1
  busy := s.busy

/-- A process outside the kernel calls into it. -/
def enter (s : State) (p : Slot) : Call → Option State
  | .write i bytes =>
    if 0 < (s.proc p).fd i true then some (s.goto p (.acquiring (.loop (.write i bytes))))
    else none
  | .read i n =>
    if 0 < (s.proc p).fd i false then some (s.goto p (.acquiring (.loop (.read i n)))) else none
  | .dup i w =>
    if 0 < (s.proc p).fd i w then
      some ((s.modify p fun x => x.addFd i w).setRef i w (s.ref i w + 1))
    else none
  | .pipe data => some (sysPipe s p data)
  | .begin => some (s.goto p (.acquiring (.loop .begin)))
  | .commit => some (s.goto p (.acquiring .commit))
  | .wait => some (s.goto p (.acquiring (.loop .wait)))
  | .exit => if p = initproc then none else some (s.goto p .exiting)
  | .fork =>
    if s.holder .ptable = none then
      match (List.finRange nproc).find? fun q => (s.proc q).state = .unused with
      | some np => some ((s.modify np fun x => { x with state := .embryo }).goto p (.forking np))
      | none => some s
    else none
  | .kill q =>
    if s.holder .ptable = none then
      some (s.modify q fun x => { x with
        killed := true
        state := if x.state = .sleeping then .runnable else x.state })
    else none
  | .wakeup ch => some (s.goto p (.waking ch (.done none .user)))
  | .sleep lk ch => some (s.goto p (.acquiring (.loop (.other lk ch))))

/-- `fileclose` of a descriptor; the last one closes the end of the pipe. -/
def fileclose (s : State) (p : Slot) (i : Nat) (w : Bool) (back : Back) : State :=
  let s' := (s.modify p fun x => x.dropFd i w).setRef i w (s.ref i w - 1)
  if s.ref i w - 1 > 0 then s'.goto p back.pc else s'.goto p (.acquiring (.close i w back))

/-- The scheduler, holding `ptable.lock`, switches to a runnable process. One that was asleep
returns from `sched`, clears its channel and goes for the lock it slept with, which in `wait` is
`ptable.lock` itself. -/
def dispatch (s : State) (p : Slot) : State :=
  match (s.proc p).pc with
  | .asleep l =>
    let s' := s.modify p fun x => { x with state := .running, chan := none }
    if l.lock = .ptable then (s'.acquire .ptable p).goto p (.inside (.loop l))
    else s'.goto p (.acquiring (.loop l))
  | _ => s.modify p fun x => { x with state := .running }

inductive Act
  | run (p : Slot)
  | call (p : Slot) (c : Call)
  | close (p : Slot) (i : Nat) (writable : Bool)
  | dispatch (p : Slot)
  | yield (p : Slot)
  /-- an allocation in `fork` fails -/
  | nomem (p : Slot)
  /-- one of the other sleep loops finds its condition true -/
  | leave (p : Slot)

def Pc.held : Pc → Option Lock
  | .inside c => some c.lock
  | .waking _ (.done lk _) => lk
  | .waking _ (.sleep l) => some l.lock
  | .entering l => some l.lock
  | .handing _ => some .ptable
  | _ => none

def step (s : State) : Act → Option State
  | .run p => if (s.proc p).state = .running then runPc s p (s.proc p).pc else none
  | .call p c =>
    if (s.proc p).state = .running ∧ (s.proc p).pc = .user then enter s p c else none
  | .close p i w =>
    if (s.proc p).state = .running ∧ 0 < (s.proc p).fd i w then
      match (s.proc p).pc with
      | .user => some (fileclose s p i w .user)
      | .exiting => some (fileclose s p i w .exiting)
      | _ => none
    else none
  | .dispatch p =>
    if (s.proc p).state = .runnable ∧ s.holder .ptable = none then some (dispatch s p) else none
  | .yield p =>
    -- `sched` panics if any lock but `ptable.lock` is held
    if (s.proc p).state = .running ∧ s.holder .ptable = none ∧ (s.proc p).pc.held = none then
      some (s.modify p fun x => { x with state := .runnable })
    else none
  | .nomem p =>
    match (s.proc p).pc with
    | .forking np =>
      if (s.proc p).state = .running then
        some ((s.modify np fun x => { x with state := .unused }).goto p .user)
      else none
    | _ => none
  | .leave p =>
    match (s.proc p).pc with
    | .inside (.loop (.other lk _)) =>
      if (s.proc p).state = .running then some ((s.release (.other lk)).goto p .user) else none
    | _ => none

/-- After `userinit`: one process, no pipes, no locks held. -/
def initial : State where
  proc p := if p = initproc then ⟨.runnable, none, none, false, .user, fun _ _ => 0⟩
    else ⟨.unused, none, none, false, .dead, fun _ _ => 0⟩
  holder _ := none
  pipe _ := ⟨fun _ => 0, 0#32, 0#32, false, false, [], []⟩
  ref _ _ := 0
  npipes := 0
  busy := false

abbrev Reachable : State → Prop :=
  TransitionSystem.Reachable (· = initial) step

end SleepWakeup
