import PinkyOS.SleepSteps

/-!
# Locks and process states along every run

The lock table names the process whose control point is inside the critical section, and the
state and channel of a process agree with its control point.
-/
namespace SleepWakeup
open PipeBuffer

variable {s t u : State} {p q : Slot} {src dest : Pc} {lk : Lock}

/-- The state and the channel of a process at its control point. -/
def ProcOk (p : Slot) (x : Proc) : Prop :=
  match x.pc with
  | .asleep l => x.state = .runnable ∨ x.state = .sleeping ∧ x.chan = some (l.chan p)
  | .dead => x.state = .unused ∨ x.state = .embryo ∨ x.state = .zombie
  | _ => x.state = .running ∨ x.state = .runnable

structure Base (s : State) : Prop where
  lock : ∀ p lk, s.holder lk = some p ↔ (s.proc p).pc.held = some lk
  ok : ∀ p, ProcOk p (s.proc p)
  embryo : ∀ p np, (s.proc p).pc = .forking np → (s.proc np).state = .embryo
  forkers : ∀ p q np, (s.proc p).pc = .forking np → (s.proc q).pc = .forking np → p = q

/-- A control point at which a process is running. -/
def Pc.Active : Pc → Prop
  | .asleep _ | .dead | .forking _ => False
  | _ => True

theorem Base.holder_unique (base : Base s) (hp : (s.proc p).pc.held = some lk)
    (hq : (s.proc q).pc.held = some lk) : p = q := by
  have h₁ := (base.lock p lk).mpr hp
  have h₂ := (base.lock q lk).mpr hq
  exact Option.some.inj (h₁.symm.trans h₂)

theorem Base.pc_dead (base : Base s) (state : (s.proc q).state = .unused ∨
    (s.proc q).state = .embryo ∨ (s.proc q).state = .zombie) : (s.proc q).pc = .dead := by
  have ok := base.ok q
  unfold ProcOk at ok
  split at ok
  · rcases state with h | h | h <;> simp [h] at ok
  · assumption
  · rcases state with h | h | h <;> simp [h] at ok

theorem Base.not_forking (base : Base s) (state : (s.proc q).state ≠ .embryo) (r : Slot) :
    (s.proc r).pc ≠ .forking q :=
  fun h => state (base.embryo r q h)

theorem ProcOk.woken {x y : Proc} (ok : ProcOk p x) (pc : y.pc = x.pc) (chan : y.chan = x.chan)
    (state : y.state = x.state ∨ x.state = .sleeping ∧ y.state = .runnable) : ProcOk p y := by
  unfold ProcOk at *
  rw [pc, chan]
  rcases state with h | ⟨h, h'⟩
  · rw [h]
    exact ok
  · revert ok
    cases x.pc <;> simp [h, h']

/-- The lock table after `p` has moved to a control point. -/
structure Holds (s : State) (p : Slot) (dest : Pc) (holder : Lock → Option Slot) : Prop where
  table : ∀ lk, holder lk = if dest.held = some lk then some p
    else if (s.proc p).pc.held = some lk then none else s.holder lk
  free : ∀ lk, dest.held = some lk → s.holder lk = none ∨ (s.proc p).pc.held = some lk

theorem holds_keep (base : Base s) (held : dest.held = (s.proc p).pc.held) :
    Holds s p dest s.holder := by
  constructor
  · intro lk
    have := base.lock p lk
    grind
  · intro lk h
    exact .inr (held ▸ h)

theorem holds_release (held : (s.proc p).pc.held = some lk) (none : dest.held = none) :
    Holds s p dest (s.release lk).holder := by
  constructor
  · intro lk'
    rw [release_holder]
    grind
  · simp [none]

theorem holds_acquire (none : (s.proc p).pc.held = none) (free : s.holder lk = Option.none)
    (held : dest.held = some lk) : Holds s p dest (s.acquire lk p).holder := by
  constructor
  · intro lk'
    rw [acquire_holder]
    grind
  · grind

/-- The hand-over in `sleep`: `ptable.lock` is taken before the caller's lock is released. -/
theorem holds_hand (base : Base s) {l : Loop} (entering : (s.proc p).pc = .entering l)
    (free : s.holder .ptable = none) :
    Holds s p (.handing l) ((s.release l.lock).acquire .ptable p).holder := by
  have held := base.lock p l.lock
  have hne : l.lock ≠ .ptable := by
    intro h
    rw [h, free, entering] at held
    simp [Pc.held, h] at held
  constructor
  · intro lk
    simp only [acquire_holder, release_holder, entering, Pc.held]
    grind
  · intro lk h
    cases h
    exact .inl free

/-- Process `p` changes, the lock table follows, and others may be woken. -/
structure Change (s : State) (p : Slot) (t : State) : Prop where
  pc : ∀ q, q ≠ p → (t.proc q).pc = (s.proc q).pc
  chan : ∀ q, q ≠ p → (t.proc q).chan = (s.proc q).chan
  state : ∀ q, q ≠ p → (t.proc q).state = (s.proc q).state ∨
    (s.proc q).state = .sleeping ∧ (t.proc q).state = .runnable
  holds : Holds s p (t.proc p).pc t.holder

theorem Base.update (base : Base s) (change : Change s p t) (ok : ProcOk p (t.proc p))
    (fork : ∀ np, (t.proc p).pc = .forking np →
      (t.proc np).state = .embryo ∧ ∀ q, q ≠ p → (s.proc q).pc ≠ .forking np)
    (alone : ∀ q, (s.proc q).pc = .forking p → q = p ∨ (t.proc p).state = .embryo) : Base t := by
  constructor
  · intro q lk
    have hq := base.lock q lk
    have hp := base.lock p lk
    have hfree := change.holds.free lk
    rw [change.holds.table lk]
    by_cases h : q = p
    · subst h
      grind
    · rw [change.pc q h]
      grind
  · intro q
    by_cases h : q = p
    · exact h ▸ ok
    · exact (base.ok q).woken (change.pc q h) (change.chan q h) (change.state q h)
  · intro q np hpc
    by_cases h : q = p
    · exact (fork np (h ▸ hpc)).1
    · rw [change.pc q h] at hpc
      by_cases hnp : np = p
      · subst hnp
        exact (alone q hpc).resolve_left h
      · have := base.embryo q np hpc
        rcases change.state np hnp with h' | ⟨h', -⟩
        · rw [h', this]
        · rw [this] at h'
          cases h'
  · intro q r np hq hr
    by_cases h : q = p <;> by_cases h' : r = p
    · rw [h, h']
    · rw [change.pc r h'] at hr
      exact absurd hr ((fork np (h ▸ hq)).2 r h')
    · rw [change.pc q h] at hq
      exact absurd hq ((fork np (h' ▸ hr)).2 q h)
    · rw [change.pc q h] at hq
      rw [change.pc r h'] at hr
      exact base.forkers q r np hq hr

/-- Process `p` moves to `dest`: apart from its control point and the lock table, processes are
at most woken and descriptors stay. -/
structure Move (s : State) (p : Slot) (dest : Pc) (t : State) : Prop where
  pc : ∀ q, (t.proc q).pc = if q = p then dest else (s.proc q).pc
  chan : ∀ q, (t.proc q).chan = (s.proc q).chan
  state : ∀ q, (t.proc q).state = (s.proc q).state ∨
    (s.proc q).state = .sleeping ∧ (t.proc q).state = .runnable
  parent : ∀ q, (t.proc q).parent = (s.proc q).parent
  fd : ∀ q, (t.proc q).fd = (s.proc q).fd
  ref : t.ref = s.ref
  npipes : t.npipes = s.npipes
  holds : Holds s p dest t.holder

theorem Move.self (move : Move s p dest t) : (t.proc p).pc = dest := by
  rw [move.pc, if_pos rfl]

theorem Move.other (move : Move s p dest t) (h : q ≠ p) : (t.proc q).pc = (s.proc q).pc := by
  rw [move.pc, if_neg h]

theorem Move.change (move : Move s p dest t) : Change s p t :=
  ⟨fun _ h => move.other h, fun q _ => move.chan q, fun q _ => move.state q,
    move.self.symm ▸ move.holds⟩

theorem move_goto (proc : u.proc = s.proc) (ref : u.ref = s.ref) (npipes : u.npipes = s.npipes)
    (holds : Holds s p dest u.holder) : Move s p dest (u.goto p dest) := by
  refine ⟨?_, ?_, ?_, ?_, ?_, ref, npipes, holds⟩
  all_goals simp [proc]

theorem move_wakeup {ch : Chan} (proc : u.proc = (s.wakeup1 ch).proc) (ref : u.ref = s.ref)
    (npipes : u.npipes = s.npipes) (holds : Holds s p dest u.holder) :
    Move s p dest (u.goto p dest) := by
  refine ⟨?_, ?_, fun q => ?_, ?_, ?_, ref, npipes, holds⟩
  case refine_3 =>
    rw [goto_state, proc]
    exact wakeup1_state s q ch
  all_goals simp [proc]

theorem Back.active (back : Back) : back.pc.Active := by
  cases back <;> trivial

theorem Back.held (back : Back) : back.pc.held = none := by
  cases back <;> rfl

theorem Flow.held (flow : Flow s p src dest) : dest.held = src.held := by
  cases flow <;> rfl

theorem PipeFlow.held {x y : Pipe} {i : Nat} (flow : PipeFlow x i src dest y) :
    dest.held = src.held := by
  cases flow <;> rfl

theorem Edge.active (edge : Edge s p src dest t) : dest.Active := by
  cases edge with
  | stay flow => cases flow <;> trivial
  | pipe flow => cases flow <;> trivial
  | @wake ch after free _ next =>
    subst next
    cases after with
    | done _ back => exact back.active
    | sleep l => trivial
  | _ => trivial

theorem Edge.move (edge : Edge s p src dest t) (base : Base s) (at' : (s.proc p).pc = src) :
    Move s p dest t := by
  cases edge with
  | stay flow => exact move_goto rfl rfl rfl (holds_keep base (at' ▸ flow.held))
  | leave held _ => exact move_goto rfl rfl rfl (holds_release (at' ▸ held) rfl)
  | begin => exact move_goto rfl rfl rfl (holds_release (at' ▸ rfl) rfl)
  | pipe flow => exact move_goto rfl rfl rfl (holds_keep base (at' ▸ flow.held))
  | commit => exact move_goto rfl rfl rfl (holds_keep base (at' ▸ rfl))
  | acquire free => exact move_goto rfl rfl rfl (holds_acquire (at' ▸ rfl) free rfl)
  | hand free => exact move_goto rfl rfl rfl (holds_hand base at' free)
  | @wake ch after free _ next =>
    subst next
    match after with
    | .done none back =>
      exact move_wakeup rfl rfl rfl (holds_keep base (back.held.trans (at' ▸ rfl)))
    | .done (some lk) back => exact move_wakeup rfl rfl rfl (holds_release (at' ▸ rfl) back.held)
    | .sleep l => exact move_wakeup rfl rfl rfl (holds_keep base (at' ▸ rfl))

section
variable (base : Base s)
include base

theorem Base.move (move : Move s p dest t)
    (running : (s.proc p).state = .running) (active : dest.Active) : Base t := by
  have hrun : (t.proc p).state = .running := by
    rcases move.state p with h | ⟨h, -⟩
    · rw [h, running]
    · rw [running] at h
      cases h
  refine base.update move.change ?_ ?_ fun q h => absurd h (base.not_forking (by simp [running]) q)
  · unfold ProcOk
    rw [move.self, hrun]
    revert active
    cases dest <;> simp [Pc.Active]
  · intro np h
    rw [move.self] at h
    rw [h] at active
    cases active

/-- Only states, channels, control points and locks matter. -/
theorem Base.congr (pc : ∀ q, (t.proc q).pc = (s.proc q).pc)
    (chan : ∀ q, (t.proc q).chan = (s.proc q).chan)
    (state : ∀ q, (t.proc q).state = (s.proc q).state ∨
      (s.proc q).state = .sleeping ∧ (t.proc q).state = .runnable)
    (holder : t.holder = s.holder) : Base t := by
  constructor
  · intro q lk
    rw [holder, pc]
    exact base.lock q lk
  · intro q
    exact (base.ok q).woken (pc q) (chan q) (state q)
  · intro q np h
    rw [pc] at h
    have hs := base.embryo q np h
    rcases state np with h' | ⟨h', -⟩
    · rw [h', hs]
    · rw [hs] at h'
      cases h'
  · intro q r np hq hr
    rw [pc] at hq hr
    exact base.forkers q r np hq hr

/-- A process changes in fields that do not matter, or is woken. -/
theorem Base.modify {f : Proc → Proc} (pc : ∀ x, (f x).pc = x.pc)
    (chan : ∀ x, (f x).chan = x.chan) (state : ∀ x, (f x).state = x.state ∨
      x.state = .sleeping ∧ (f x).state = .runnable) : Base (s.modify q f) := by
  refine base.congr (fun r => ?_) (fun r => ?_) (fun r => ?_) rfl
  all_goals rw [modify_proc]; split
  all_goals simp_all

theorem Base.wakeup1 (ch : Chan) : Base (s.wakeup1 ch) :=
  base.congr (fun _ => by simp) (fun _ => by simp) (fun q => wakeup1_state s q ch) rfl

theorem Base.adopted (q : Slot) (r : Option Slot) :
    Base (s.modify q fun x => { x with parent := r }) :=
  base.modify (fun _ => rfl) (fun _ => rfl) fun _ => .inl rfl

theorem Base.abandon : Base (abandon s p) :=
  abandon_induction base (fun _ q b _ _ => b.adopted q _) fun _ q b _ _ => (b.adopted q _).wakeup1 _

end

theorem change_modify {f : Proc → Proc} (proc : t.proc = (s.modify p f).proc)
    (holds : Holds s p (f (s.proc p)).pc t.holder) : Change s p t := by
  have others : ∀ q, q ≠ p → t.proc q = s.proc q := fun q h => by
    rw [proc, modify_of_ne s p q f h]
  refine ⟨fun q h => ?_, fun q h => ?_, fun q h => ?_, ?_⟩
  · rw [others q h]
  · rw [others q h]
  · rw [others q h]
    exact .inl rfl
  · rw [proc, modify_self]
    exact holds

theorem Base.setDead (base : Base s) {f : Proc → Proc} (dead : (s.proc q).pc = .dead)
    (pc : (f (s.proc q)).pc = .dead)
    (state : (f (s.proc q)).state = .unused ∨ (f (s.proc q)).state = .embryo)
    (alone : ∀ p, (s.proc p).pc ≠ .forking q) : Base (s.modify q f) := by
  refine base.update (change_modify rfl (holds_keep base (by rw [pc, dead]))) ?_ ?_
    fun r h => absurd h (alone r)
  · rw [modify_self]
    simp only [ProcOk, pc]
    exact state.imp_right .inl
  · intro np h
    rw [modify_self, pc] at h
    cases h

theorem Base.switch (base : Base s) {f : Proc → Proc}
    (held : (s.proc p).pc.held = some .ptable) (none : (f (s.proc p)).pc.held = none)
    (ok : ProcOk p (f (s.proc p))) (fork : ∀ np, (f (s.proc p)).pc ≠ .forking np)
    (alone : ∀ q, (s.proc q).pc ≠ .forking p) : Base ((s.modify p f).release .ptable) := by
  have self : ((s.modify p f).release .ptable).proc p = f (s.proc p) := modify_self s p f
  refine base.update (change_modify (f := f) rfl ?_) (self ▸ ok) ?_ fun q h => absurd h (alone q)
  · exact holds_release held none
  · intro np h
    exact absurd (self ▸ h) (fork np)

@[simp] theorem abandon_pc : ((abandon s p).proc q).pc = (s.proc q).pc := by
  apply abandon_induction (I := fun t => (t.proc q).pc = (s.proc q).pc) rfl
  · intro t r h _ _
    rw [modify_proc]
    split <;> simp_all
  · intro t r h _ _
    rw [wakeup1_pc, modify_proc]
    split <;> simp_all

theorem Base.runDie (base : Base s) (at' : (s.proc p).pc = .inside .die)
    (running : (s.proc p).state = .running) : Base (runDie s p) := by
  have alone : ∀ q, (s.proc q).pc ≠ .forking p := base.not_forking (by simp [running])
  have key : ∀ u : State, Base u → (∀ q, (u.proc q).pc = (s.proc q).pc) →
      Base (((SleepWakeup.abandon u p).modify p
        fun x => { x with state := .zombie, pc := .dead }).release .ptable) := by
    intro u hu hpc
    refine hu.abandon.switch ?_ rfl (.inr (.inr rfl)) (by simp) ?_
    · rw [abandon_pc, hpc, at']
      rfl
    · intro q
      rw [abandon_pc, hpc]
      exact alone q
  unfold SleepWakeup.runDie
  split
  · next q _ => exact key (s.wakeup1 (.proc q)) (base.wakeup1 _) fun r => wakeup1_pc s r _
  · exact key s base (fun _ => rfl)

theorem Base.reap (base : Base s) (running : (s.proc p).state = .running)
    (at' : (s.proc p).pc = .inside (.loop .wait)) (zombie : (s.proc q).state = .zombie) :
    Base (((s.modify q fun x => { x with state := .unused, parent := none, killed := false
      }).release .ptable).goto p .user) := by
  have hdead := base.pc_dead (.inr (.inr zombie))
  have hne : p ≠ q := by
    rintro rfl
    rw [running] at zombie
    cases zombie
  have hproc := modify_of_ne s q p
    (fun x => { x with state := .unused, parent := none, killed := false }) hne
  have base' := base.setDead (q := q)
    (f := fun x => { x with state := .unused, parent := none, killed := false }) hdead hdead
    (.inl rfl) (base.not_forking (by simp [zombie]))
  refine base'.move (p := p) (move_goto rfl rfl rfl (holds_release ?_ rfl)) ?_ trivial
  · rw [hproc, at']
    rfl
  · rw [hproc, running]

theorem runFork_proc {np : Slot} (hne : p ≠ np) (q : Slot) :
    (runFork s p np).proc q = if q = p then { s.proc p with pc := .user }
      else if q = np then { s.proc np with
        parent := some p, fd := (s.proc p).fd, state := .runnable, pc := .user } else s.proc q := by
  simp only [runFork, State.goto, State.modify, Function.update_apply]
  grind

section
variable (base : Base s)
include base

theorem Base.runFork {np : Slot} (at' : (s.proc p).pc = .forking np) : Base (runFork s p np) := by
  have hnp := base.embryo p np at'
  have hdead := base.pc_dead (.inr (.inl hnp))
  have hne : p ≠ np := by
    rintro rfl
    rw [at'] at hdead
    cases hdead
  have state : (s.proc p).state = .running ∨ (s.proc p).state = .runnable := by
    have := base.ok p
    simpa only [ProcOk, at'] using this
  have hproc := runFork_proc (s := s) hne
  -- the parent leaves `fork` first; then no one is at work on the child's slot
  have base' : Base (s.goto p .user) := by
    refine base.update (change_modify rfl (holds_keep base (by rw [at']; rfl))) ?_ ?_ ?_
    · simpa [ProcOk] using state
    · simp
    · intro q h
      rw [base.embryo q p h] at state
      simp at state
  refine base'.update (p := np) ⟨fun q h => ?_, fun q h => ?_, fun q h => ?_, ?_⟩ ?_ ?_ ?_
  · rw [hproc, goto_pc]
    grind
  · rw [hproc, goto_chan]
    grind
  · rw [hproc, goto_state]
    grind
  · have self : ((SleepWakeup.runFork s p np).proc np).pc = .user := by
      rw [hproc, if_neg hne.symm, if_pos rfl]
    rw [self]
    exact holds_keep base' (by rw [goto_pc, if_neg hne.symm, hdead]; rfl)
  · rw [hproc, if_neg hne.symm, if_pos rfl]
    exact .inr rfl
  · intro np' h
    rw [hproc, if_neg hne.symm, if_pos rfl] at h
    cases h
  · intro q h
    rw [goto_pc] at h
    split at h
    · cases h
    · next hq => exact absurd (base.forkers q p np h at') hq

section
variable (running : (s.proc p).state = .running)
include running

theorem Base.startFork
    (user : (s.proc p).pc = .user) {np : Slot} (unused : (s.proc np).state = .unused) :
    Base ((s.modify np fun x => { x with state := .embryo }).goto p (.forking np)) := by
  have hdead := base.pc_dead (.inl unused)
  have alone := base.not_forking (q := np) (by simp [unused])
  have hne : p ≠ np := by
    rintro rfl
    rw [running] at unused
    cases unused
  have hproc := modify_of_ne s np p (fun x => { x with state := .embryo }) hne
  have base' := base.setDead (f := fun x => { x with state := .embryo }) hdead hdead (.inr rfl) alone
  refine base'.update (change_modify rfl (holds_keep base' (by rw [hproc, user]; rfl))) ?_ ?_ ?_
  · rw [State.goto, modify_self, hproc]
    exact .inl running
  · intro np' h
    rw [goto_pc, if_pos rfl] at h
    cases h
    refine ⟨by rw [goto_state, modify_self], fun q _ => ?_⟩
    rw [modify_proc]
    split
    · simp [hdead]
    · exact alone q
  · intro q h
    have := base'.embryo q p h
    rw [hproc, running] at this
    cases this

theorem Base.nomem {np : Slot} (forking : (s.proc p).pc = .forking np) :
    Base ((s.modify np fun x => { x with state := .unused }).goto p .user) := by
  have hdead := base.pc_dead (.inr (.inl (base.embryo p np forking)))
  have hne : np ≠ p := by
    rintro rfl
    rw [hdead] at forking
    cases forking
  have base' : Base (s.goto p .user) :=
    base.move (move_goto rfl rfl rfl (holds_keep base (by rw [forking]; rfl))) running trivial
  have base'' := base'.setDead (q := np) (f := fun x => { x with state := .unused })
    (by simpa [hne] using hdead) (by simpa [hne] using hdead) (.inl rfl) (by
      intro q h
      rw [goto_pc] at h
      split at h
      · cases h
      · next hq => exact hq (base.forkers q p np h forking))
  refine base''.congr (fun q => ?_) (fun q => ?_) (fun q => ?_) rfl
  all_goals by_cases hq : q = np
  all_goals simp [modify_proc, hq, hne]

theorem Base.close
    (idle : (s.proc p).pc.held = none) {i : Nat} {w : Bool} {n : Nat} (held : dest.held = none)
    (active : dest.Active) :
    Base (((s.modify p fun x => x.dropFd i w).setRef i w n).goto p dest) := by
  have base' : Base (s.modify p fun x => x.dropFd i w) :=
    base.modify (fun _ => rfl) (fun _ => rfl) fun _ => .inl rfl
  have hproc := modify_self s p fun x => x.dropFd i w
  have moved : Base ((s.modify p fun x => x.dropFd i w).goto p dest) := by
    refine base'.move (move_goto rfl rfl rfl (holds_keep base' ?_)) ?_ active
    · rw [held, hproc]
      exact idle.symm
    · rw [hproc]
      exact running
  exact moved.congr (fun _ => rfl) (fun _ => rfl) (fun _ => .inl rfl) rfl

end

/-- The scheduler changes the state of a process that is not asleep. -/
theorem Base.reschedule (state : (s.proc p).state = .running ∨ (s.proc p).state = .runnable)
    (awake : ∀ l, (s.proc p).pc ≠ .asleep l) {st : ProcState}
    (new : st = .running ∨ st = .runnable) : Base (s.modify p fun x => { x with state := st }) := by
  have alone : ∀ q, (s.proc q).pc ≠ .forking p := by
    rcases state with h | h <;> exact base.not_forking (by simp [h])
  refine base.update (change_modify rfl (holds_keep base rfl)) ?_ ?_ fun q h => absurd h (alone q)
  · rw [modify_self]
    have ok := base.ok p
    unfold ProcOk at *
    revert ok
    cases hp : (s.proc p).pc with
    | asleep l => exact absurd hp (awake l)
    | dead => rcases state with h | h <;> simp [h]
    | _ => exact fun _ => new
  · intro np h
    rw [modify_self] at h
    refine ⟨?_, fun q hq h' => hq (base.forkers q p np h' h)⟩
    rw [modify_of_ne _ _ _ _ fun e : np = p => alone p (e ▸ h)]
    exact base.embryo p np h

/-- A process that was asleep goes on with the loop, with or without `ptable.lock`. -/
theorem Base.resume (runnable : (s.proc p).state = .runnable) (proc : t.proc = ((s.modify p fun x =>
      { x with state := .running, chan := none }).goto p dest).proc)
    (holds : Holds s p dest t.holder) (active : dest.Active) : Base t := by
  have alone := base.not_forking (q := p) (by simp [runnable])
  have self : t.proc p = { s.proc p with state := .running, chan := none, pc := dest } := by
    rw [proc, State.goto, modify_self, modify_self]
  refine base.update (change_modify (f := fun x =>
    { x with state := .running, chan := none, pc := dest }) ?_ holds) ?_ ?_
    fun q h => absurd h (alone q)
  · rw [proc]
    simp [State.goto, State.modify]
  · rw [self]
    unfold ProcOk
    cases dest <;> first | exact .inl rfl | cases active
  · intro np h
    rw [self] at h
    rw [show dest = .forking np from h] at active
    cases active

theorem Base.step (h : Step s t) : Base t := by
  cases h with
  | same => exact base
  | edge running at' edge => exact base.move (edge.move base at') running edge.active
  | sleep running at' =>
    exact base.switch (by rw [at']; rfl) rfl (.inr ⟨rfl, rfl⟩) (by simp)
      (base.not_forking (by simp [running]))
  | die running at' => exact base.runDie at' running
  | reap running at' zombie => exact base.reap running at' zombie
  | startFork running user unused => exact base.startFork running user unused
  | fork at' => exact base.runFork at'
  | nomem running at' => exact base.nomem running at'
  | @dup p i w _ _ =>
    have base' : Base (s.modify p fun x => x.addFd i w) :=
      base.modify (fun _ => rfl) (fun _ => rfl) fun _ => .inl rfl
    exact base'.congr (fun _ => rfl) (fun _ => rfl) (fun _ => .inl rfl) rfl
  | @pipe p _ data =>
    have base' : Base (s.modify p fun x => (x.addFd s.npipes true).addFd s.npipes false) :=
      base.modify (fun _ => rfl) (fun _ => rfl) fun _ => .inl rfl
    exact base'.congr (fun _ => rfl) (fun _ => rfl) (fun _ => .inl rfl) rfl
  | close running back at' _ next =>
    have idle : (s.proc _).pc.held = none := (congrArg Pc.held at').trans back.held
    rcases next with rfl | ⟨rfl, -⟩
    · exact base.close running idle back.held back.active
    · exact base.close running idle rfl trivial
  | kill q =>
    refine base.modify (fun _ => rfl) (fun _ => rfl) fun x => ?_
    by_cases asleep : x.state = .sleeping <;> simp [asleep]
  | resume runnable asleep =>
    exact base.resume runnable rfl (holds_keep base (by rw [asleep]; rfl)) trivial
  | resumeWait runnable asleep free ptable =>
    refine base.resume runnable rfl (holds_acquire (by rw [asleep]; rfl) free ?_) trivial
    exact congrArg some ptable
  | @schedule p st state new =>
    refine base.reschedule (state.imp_right And.left) ?_ new
    rcases state with running | ⟨-, awake⟩
    · intro l h
      have := base.ok p
      simp [ProcOk, h, running] at this
    · exact awake

end

end SleepWakeup
