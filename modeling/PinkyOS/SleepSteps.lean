import PinkyOS.SleepInvariants

/-!
# What one step can do

Most steps move one process along an edge of its control flow and change, besides that, only locks,
a pipe or the log flag, and wake others. The remaining steps are listed by name.
-/
namespace SleepWakeup
open PipeBuffer

/-- The end of a pipe on which a loop works. -/
def Loop.uses : Loop → Option (Nat × Bool)
  | .write i _ => some (i, true)
  | .read i _ => some (i, false)
  | _ => none

/-- Inside the critical section, with a `wakeup` on the channel still to come. -/
def Pc.Owes : Pc → Chan → Prop
  | .waking ch _, ch' => ch = ch'
  | .inside (.loop (.write i _)), ch => ch = .nread i
  | .inside (.copy i _), ch => ch = .nwrite i
  | _, _ => False

/-- The process goes on with the lock it holds, or with none. -/
inductive Flow (s : State) (p : Slot) : Pc → Pc → Prop
  | closed (none : ∀ i < s.npipes, ∀ w, (s.proc p).fd i w = 0) :
      Flow s p .exiting (.acquiring .die)
  | wrote (i : Nat) : Flow s p (.inside (.loop (.write i [])))
      (.waking (.nread i) (.done (some (.pipe i)) .user))
  | full {i : Nat} {bytes : List UInt8} (isFull : (s.pipe i).full = true)
      (reader : (s.pipe i).readopen = true) : Flow s p (.inside (.loop (.write i bytes)))
      (.waking (.nread i) (.sleep (.write i bytes)))
  | empty {i n : Nat} (isEmpty : (s.pipe i).empty = true)
      (writer : (s.pipe i).writeopen = true) :
      Flow s p (.inside (.loop (.read i n))) (.entering (.read i n))
  | copy (i n : Nat) : Flow s p (.inside (.loop (.read i n))) (.inside (.copy i n))
  | busy (isBusy : s.busy = true) : Flow s p (.inside (.loop .begin)) (.entering .begin)
  | wait (noZombie : ∀ q, (s.proc q).parent = some p → (s.proc q).state ≠ .zombie) :
      Flow s p (.inside (.loop .wait)) (.handing .wait)
  | other (lk ch : Nat) :
      Flow s p (.inside (.loop (.other lk ch))) (.entering (.other lk ch))
  | copied (i n : Nat) : Flow s p (.inside (.copy i n))
      (.waking (.nwrite i) (.done (some (.pipe i)) .user))
  | enter {l : Loop} (held : ∀ i w, l.uses = some (i, w) → 0 < (s.proc p).fd i w) :
      Flow s p .user (.acquiring (.loop l))
  | commit : Flow s p .user (.acquiring .commit)
  | exit (other : p ≠ initproc) : Flow s p .user .exiting
  | wakeup (ch : Chan) : Flow s p .user (.waking ch (.done none .user))

/-- The process changes the pipe whose lock it holds. -/
inductive PipeFlow (x : Pipe) (i : Nat) : Pc → Pc → Pipe → Prop
  | store (b : UInt8) (rest : List UInt8) (room : x.full = false) :
      PipeFlow x i (.inside (.loop (.write i (b :: rest)))) (.inside (.loop (.write i rest)))
        (x.store b)
  | take (n : Nat) (some : x.empty = false) :
      PipeFlow x i (.inside (.copy i n)) (.inside (.copy i (n - 1))) x.take
  | shut (w : Bool) (back : Back) : PipeFlow x i (.inside (.close i w back))
      (.waking (if w then .nread i else .nwrite i) (.done (some (.pipe i)) back)) (x.shut w)

inductive Edge (s : State) (p : Slot) : Pc → Pc → State → Prop
  | stay {src dest : Pc} (flow : Flow s p src dest) : Edge s p src dest (s.goto p dest)
  /-- a lock is released without a `wakeup` only if nobody can be waiting for one -/
  | leave {src : Pc} {lk : Lock} (held : src.held = some lk) (quiet : ∀ ch, src.Owes ch →
      ∃ i, lk = .pipe i ∧ ch = .nread i ∧ (s.pipe i).readopen = false) :
      Edge s p src .user ((s.release lk).goto p .user)
  | begin : Edge s p (.inside (.loop .begin)) .user
      (((s.setBusy true).release .log).goto p .user)
  | pipe {src dest : Pc} {i : Nat} {x : Pipe} (flow : PipeFlow (s.pipe i) i src dest x) :
      Edge s p src dest ((s.setPipe i x).goto p dest)
  | commit : Edge s p (.inside .commit) (.waking .log (.done (some .log) .user))
      ((s.setBusy false).goto p (.waking .log (.done (some .log) .user)))
  | wake {ch : Chan} {after : After} (free : s.holder .ptable = none)
      (dest : Pc) (next : dest = match after with
        | .done _ back => back.pc
        | .sleep l => .entering l) :
      Edge s p (.waking ch after) dest (runWaking s p ch after)
  | acquire {c : Code} (free : s.holder c.lock = none) :
      Edge s p (.acquiring c) (.inside c) ((s.acquire c.lock p).goto p (.inside c))
  | hand {l : Loop} (free : s.holder .ptable = none) : Edge s p (.entering l) (.handing l)
      (((s.release l.lock).acquire .ptable p).goto p (.handing l))

/-- What a step can do to the state. -/
inductive Step (s : State) : State → Prop
  | same : Step s s
  | edge {t : State} {p : Slot} {src dest : Pc} (running : (s.proc p).state = .running)
      (at' : (s.proc p).pc = src) (edge : Edge s p src dest t) : Step s t
  | sleep {p : Slot} {l : Loop} (running : (s.proc p).state = .running)
      (at' : (s.proc p).pc = .handing l) : Step s ((s.modify p fun x =>
        { x with chan := some (l.chan p), state := .sleeping, pc := .asleep l }).release .ptable)
  | die {p : Slot} (running : (s.proc p).state = .running) (at' : (s.proc p).pc = .inside .die) :
      Step s (runDie s p)
  | reap {p q : Slot} (running : (s.proc p).state = .running)
      (at' : (s.proc p).pc = .inside (.loop .wait)) (zombie : (s.proc q).state = .zombie) :
      Step s (((s.modify q fun x =>
        { x with state := .unused, parent := none, killed := false }).release .ptable).goto p .user)
  | startFork {p np : Slot} (running : (s.proc p).state = .running)
      (user : (s.proc p).pc = .user) (unused : (s.proc np).state = .unused) :
      Step s ((s.modify np fun x => { x with state := .embryo }).goto p (.forking np))
  | fork {p np : Slot} (at' : (s.proc p).pc = .forking np) : Step s (runFork s p np)
  | nomem {p np : Slot} (running : (s.proc p).state = .running)
      (at' : (s.proc p).pc = .forking np) :
      Step s ((s.modify np fun x => { x with state := .unused }).goto p .user)
  | dup {p : Slot} {i : Nat} {w : Bool} (user : (s.proc p).pc = .user)
      (held : 0 < (s.proc p).fd i w) :
      Step s ((s.modify p fun x => x.addFd i w).setRef i w (s.ref i w + 1))
  | pipe {p : Slot} (user : (s.proc p).pc = .user) (data : Nat → UInt8) :
      Step s (sysPipe s p data)
  | close {p : Slot} (running : (s.proc p).state = .running) (back : Back)
      (at' : (s.proc p).pc = back.pc) {i : Nat} {w : Bool} (held : 0 < (s.proc p).fd i w)
      {dest : Pc} (next : dest = back.pc ∨
        dest = .acquiring (.close i w back) ∧ s.ref i w - 1 = 0) :
      Step s (((s.modify p fun x => x.dropFd i w).setRef i w (s.ref i w - 1)).goto p dest)
  | kill (q : Slot) : Step s (s.modify q fun x =>
      { x with killed := true, state := if x.state = .sleeping then .runnable else x.state })
  | resume {p : Slot} {l : Loop} (runnable : (s.proc p).state = .runnable)
      (asleep : (s.proc p).pc = .asleep l) :
      Step s ((s.modify p fun x => { x with state := .running, chan := none }).goto p
        (.acquiring (.loop l)))
  | resumeWait {p : Slot} {l : Loop} (runnable : (s.proc p).state = .runnable)
      (asleep : (s.proc p).pc = .asleep l) (free : s.holder .ptable = none)
      (ptable : l.lock = .ptable) :
      Step s (((s.modify p fun x => { x with state := .running, chan := none }).acquire
        .ptable p).goto p (.inside (.loop l)))
  | schedule {p : Slot} {st : ProcState} (state : (s.proc p).state = .running ∨
        (s.proc p).state = .runnable ∧ ∀ l, (s.proc p).pc ≠ .asleep l)
      (new : st = .running ∨ st = .runnable) :
      Step s (s.modify p fun x => { x with state := st })

variable {s t : State} {p : Slot}

theorem runLoop_cases (l : Loop) (running : (s.proc p).state = .running)
    (at' : (s.proc p).pc = .inside (.loop l)) : Step s (runLoop s p l) := by
  cases l with
  | write i rest =>
    cases rest with
    | nil => exact .edge running at' (.stay (.wrote i))
    | cons b rest =>
      simp only [runLoop]
      split_ifs with full closed
      · refine .edge running at' (.leave rfl ?_)
        rintro ch rfl
        exact ⟨i, rfl, rfl, closed⟩
      · exact .edge running at' (.stay (.full full (by simpa using closed)))
      · exact .edge running at' (.pipe (.store b rest (by simpa using full)))
  | read i n =>
    simp only [runLoop, Bool.and_eq_true]
    split_ifs with test killed
    · exact .edge running at' (.leave rfl nofun)
    · exact .edge running at' (.stay (.empty test.1 test.2))
    · exact .edge running at' (.stay (.copy i n))
  | begin =>
    simp only [runLoop]
    split_ifs with busy
    · exact .edge running at' (.stay (.busy busy))
    · exact .edge running at' .begin
  | wait =>
    simp only [runLoop, runWait]
    split
    · next q found =>
      have child := List.find?_some found
      exact .reap running at' (of_decide_eq_true child).2
    · next none =>
      split_ifs
      · exact .edge running at' (.leave rfl nofun)
      · refine .edge running at' (.stay (.wait fun q child zombie => ?_))
        have := List.find?_eq_none.mp none q (List.mem_finRange q)
        simp [child, zombie] at this
  | other lk ch => exact .edge running at' (.stay (.other lk ch))

theorem runCode_cases (c : Code) (running : (s.proc p).state = .running)
    (at' : (s.proc p).pc = .inside c) : Step s (runCode s p c) := by
  cases c with
  | loop l => exact runLoop_cases l running at'
  | copy i n =>
    simp only [runCode]
    split_ifs with done
    · exact .edge running at' (.stay (.copied i n))
    · exact .edge running at' (.pipe (.take n (by simpa using (not_or.mp done).2)))
  | close i w back => exact .edge running at' (.pipe (.shut w back))
  | commit => exact .edge running at' .commit
  | die => exact .die running at'

section
variable (running : (s.proc p).state = .running)
include running

theorem runPc_cases (h : runPc s p (s.proc p).pc = some t) : Step s t := by
  cases at' : (s.proc p).pc with
  | user | dead | asleep => rw [at'] at h; cases h
  | exiting =>
    simp only [at', runPc] at h
    split at h <;> cases h
    next closed =>
      refine .edge running at' (.stay (.closed fun i inside w => ?_))
      have := List.all_eq_true.mp closed i (List.mem_range.mpr inside)
      cases w <;> simp_all
  | forking np =>
    rw [at'] at h
    cases h
    exact .fork at'
  | acquiring c =>
    simp only [at', runPc] at h
    split at h <;> cases h
    next free => exact .edge running at' (.acquire free)
  | inside c =>
    rw [at'] at h
    cases h
    exact runCode_cases c running at'
  | waking ch after =>
    simp only [at', runPc] at h
    split at h <;> cases h
    next free => exact .edge running at' (.wake free _ rfl)
  | entering l =>
    simp only [at', runPc] at h
    split at h <;> cases h
    next free => exact .edge running at' (.hand free)
  | handing l =>
    rw [at'] at h
    cases h
    exact .sleep running at'

theorem enter_cases (user : (s.proc p).pc = .user)
    {c : Call} (h : enter s p c = some t) : Step s t := by
  cases c with
  | write i bytes =>
    simp only [enter] at h
    split at h <;> cases h
    next held => exact .edge running user (.stay (.enter (by rintro j w ⟨⟩; exact held)))
  | read i n =>
    simp only [enter] at h
    split at h <;> cases h
    next held => exact .edge running user (.stay (.enter (by rintro j w ⟨⟩; exact held)))
  | dup i w =>
    simp only [enter] at h
    split at h <;> cases h
    next held => exact .dup user held
  | pipe data =>
    cases h
    exact .pipe user data
  | begin | wait | sleep =>
    cases h
    exact .edge running user (.stay (.enter nofun))
  | commit =>
    cases h
    exact .edge running user (.stay .commit)
  | exit =>
    simp only [enter] at h
    split at h <;> cases h
    next other => exact .edge running user (.stay (.exit other))
  | fork =>
    simp only [enter] at h
    split at h
    · split at h <;> cases h
      · next np found =>
        have unused := List.find?_some found
        exact .startFork running user (of_decide_eq_true unused)
      · exact .same
    · cases h
  | kill q =>
    simp only [enter] at h
    split at h <;> cases h
    exact .kill q
  | wakeup ch =>
    cases h
    exact .edge running user (.stay (.wakeup ch))

theorem fileclose_cases (back : Back)
    (at' : (s.proc p).pc = back.pc) {i : Nat} {w : Bool} (held : 0 < (s.proc p).fd i w) :
    Step s (fileclose s p i w back) := by
  unfold fileclose
  dsimp only
  split
  · exact .close running back at' held (.inl rfl)
  · next last => exact .close running back at' held (.inr ⟨rfl, by omega⟩)

end

theorem dispatch_cases (runnable : (s.proc p).state = .runnable)
    (free : s.holder .ptable = none) : Step s (dispatch s p) := by
  unfold dispatch
  split
  · next l asleep =>
    dsimp only
    split
    · next ptable => exact .resumeWait runnable asleep free ptable
    · exact .resume runnable asleep
  · next awake => exact .schedule (.inr ⟨runnable, awake⟩) (.inl rfl)

theorem step_cases {a : Act} (h : step s a = some t) : Step s t := by
  cases a with
  | run p =>
    simp only [step] at h
    split at h
    · next running => exact runPc_cases running h
    · cases h
  | call p c =>
    simp only [step] at h
    split at h
    · next ok => exact enter_cases ok.1 ok.2 h
    · cases h
  | close p i w =>
    simp only [step] at h
    split at h
    · next ok =>
      split at h <;> cases h
      · next user => exact fileclose_cases ok.1 .user user ok.2
      · next exiting => exact fileclose_cases ok.1 .exiting exiting ok.2
    · cases h
  | dispatch p =>
    simp only [step] at h
    split at h <;> cases h
    next ok => exact dispatch_cases ok.1 ok.2
  | yield p =>
    simp only [step] at h
    split at h <;> cases h
    next ok => exact .schedule (.inl ok.1) (.inr rfl)
  | nomem p =>
    simp only [step] at h
    split at h
    · next np forking =>
      split at h <;> cases h
      next running => exact .nomem running forking
    · cases h
  | leave p =>
    simp only [step] at h
    split at h
    · next lk ch at' =>
      split at h <;> cases h
      next running => exact .edge running at' (.leave rfl nofun)
    · cases h

/-! ### Pipes -/

/-- What one step can do to a pipe. -/
inductive PipeMove (x : Pipe) : Pipe → Prop
  | same : PipeMove x x
  | store (b : UInt8) (room : x.full = false) : PipeMove x (x.store b)
  | take (some : x.empty = false) : PipeMove x x.take
  | shut (w : Bool) : PipeMove x (x.shut w)
  | alloc (data : Nat → UInt8) : PipeMove x (Pipe.alloc data)

theorem PipeMove.fifo {x y : Pipe} (move : PipeMove x y) (fifo : x.Fifo) : y.Fifo := by
  cases move with
  | same => exact fifo
  | store b room => exact fifo.store room b
  | take some => exact fifo.take some
  | shut w => exact fifo.shut w
  | alloc data => exact Pipe.Fifo.alloc data

theorem setPipe_move {x : Pipe} {i : Nat} (move : PipeMove (s.pipe i) x) (j : Nat) :
    PipeMove (s.pipe j) ((s.setPipe i x).pipe j) := by
  rw [setPipe_pipe]
  by_cases h : j = i
  · subst h
    rw [if_pos rfl]
    exact move
  · rw [if_neg h]
    exact .same

theorem Edge.pipeMove {src dest : Pc} (edge : Edge s p src dest t) (j : Nat) :
    PipeMove (s.pipe j) (t.pipe j) := by
  cases edge with
  | pipe flow =>
    refine setPipe_move (s := s) ?_ j
    cases flow with
    | store b rest room => exact .store b room
    | take n some => exact .take some
    | shut w back => exact .shut w
  | @wake ch after =>
    rcases after with ⟨_ | lk, back⟩ | l <;> exact .same
  | _ => exact .same

theorem step_pipe {a : Act} (h : step s a = some t) (j : Nat) :
    PipeMove (s.pipe j) (t.pipe j) := by
  cases step_cases h with
  | edge _ _ edge => exact edge.pipeMove j
  | die =>
    rw [runDie_pipe]
    exact .same
  | pipe _ data => exact setPipe_move (s := s) (.alloc data) j
  | _ => exact .same

/-- In every run the bytes `piperead` has delivered are a prefix of those `pipewrite` has stored,
and the rest, at most `PIPESIZE` bytes, is in the buffer between `nread` and `nwrite`; both
counters may have wrapped any number of times. -/
theorem pipe_is_bounded_fifo (reach : Reachable s) (i : Nat) :
    ((s.pipe i).nwrite - (s.pipe i).nread).toNat ≤ pipesize ∧
      (s.pipe i).delivered <+: (s.pipe i).stored ∧
      (s.pipe i).stored = (s.pipe i).delivered ++
        (List.range ((s.pipe i).nwrite - (s.pipe i).nread).toNat).map fun k =>
          (s.pipe i).data (((s.pipe i).nread + BitVec.ofNat 32 k).toNat % pipesize) := by
  have fifo : (s.pipe i).Fifo := by
    apply reach.invariant (I := fun s => (s.pipe i).Fifo)
    · rintro s rfl
      exact ((Pipe.Fifo.alloc fun _ => 0).shut true).shut false
    · intro s a t fifo next
      exact (step_pipe next i).fifo fifo
  exact ⟨fifo.bounded, ⟨_, fifo.queue.symm⟩, fifo.queue⟩

/-- `initproc` writes three bytes to a new pipe and reads one back. -/
def threeBytes : List Act :=
  [.dispatch initproc, .call initproc (.pipe fun _ => 0),
    .call initproc (.write 0 [1, 2, 3]), .run initproc, .run initproc, .run initproc,
    .run initproc, .run initproc, .run initproc,
    .call initproc (.read 0 1), .run initproc, .run initproc, .run initproc]

theorem threeBytes_fifo :
    ∃ s, TransitionSystem.run step initial threeBytes = some s ∧
      (s.pipe 0).stored = [1, 2, 3] ∧ (s.pipe 0).delivered = [1] ∧
      (s.pipe 0).delivered <+: (s.pipe 0).stored := by
  have ran : TransitionSystem.run step initial threeBytes = some _ := rfl
  refine ⟨_, ran, rfl, rfl, ?_⟩
  exact (pipe_is_bounded_fifo (.run (.init initial rfl) ran) 0).2.1

end SleepWakeup
