import PinkyOS.PipeEnds

/-!
# No lost wakeup

A process that sleeps, or is about to, in one of the loops has found its condition to hold under
the loop's lock. Whoever makes the condition fail holds the same lock and calls `wakeup` on the
channel before it releases it, so a sleeper whose condition fails is owed a wakeup by the holder
of the lock. The one release without a wakeup, in a `pipewrite` that meets a full pipe without
readers, is harmless because a process inside `piperead` keeps the read end open.
-/
namespace SleepWakeup
open PipeBuffer

variable {s t u : State} {p q r : Slot} {src dest : Pc} {m : Option Slot}

/-- The condition under which a loop sleeps. -/
def Cond (s : State) (p : Slot) : Loop → Prop
  | .write i _ => (s.pipe i).full = true ∧ (s.pipe i).readopen = true
  | .read i _ => (s.pipe i).empty = true ∧ (s.pipe i).writeopen = true
  | .begin => s.busy = true
  | .wait => ∀ q, (s.proc q).parent = some p → (s.proc q).state ≠ .zombie
  | .other _ _ => True

/-- The process is asleep, or past the point where a wakeup could reach its loop. -/
def Dozing (s : State) (p : Slot) (l : Loop) : Prop :=
  (s.proc p).pc = .handing l ∨ (s.proc p).pc = .asleep l ∧ (s.proc p).state = .sleeping

/-- The loop has tested its condition and goes on to `sleep` without releasing its lock. -/
def Pc.About : Pc → Loop → Prop
  | .entering l, l' => l = l'
  | .waking _ (.sleep l), l' => l = l'
  | _, _ => False

/-- On the way out of `exit`. -/
def Pc.Exits : Pc → Prop
  | .exiting | .dead => True
  | .acquiring .die | .inside .die => True
  | .acquiring (.close _ _ .exiting) | .inside (.close _ _ .exiting) => True
  | .waking _ (.done _ .exiting) => True
  | _ => False

/-- Process `q` holds the lock of the loop and owes its sleeper `p` a wakeup. -/
def Owes (s : State) (q p : Slot) (l : Loop) : Prop :=
  (s.proc q).pc.held = some l.lock ∧ (s.proc q).pc.Owes (l.chan p)

structure Doze (s : State) : Prop where
  ready : ∀ p l, (s.proc p).pc.About l → Cond s p l
  just : ∀ p l, Dozing s p l → Cond s p l ∨ ∃ q, Owes s q p l
  init : ¬ (s.proc initproc).pc.Exits
  orphan : (s.proc initproc).parent = none
  self : ∀ q, (s.proc q).parent ≠ some q

theorem About.held {pc : Pc} {l : Loop} (about : pc.About l) : pc.held = some l.lock := by
  unfold Pc.About at about
  split at about
  · rw [← about]
    rfl
  · rw [← about]
    rfl
  · cases about

/-- Process `p` moves to the control point `dest`; others are at most woken. -/
structure Walk (s : State) (p : Slot) (dest : Pc) (t : State) : Prop where
  pc : ∀ q, (t.proc q).pc = if q = p then dest else (s.proc q).pc
  state : ∀ q, (t.proc q).state = (s.proc q).state ∨
    (s.proc q).state = .sleeping ∧ (t.proc q).state = .runnable
  parent : ∀ q, (t.proc q).parent = (s.proc q).parent
  exits : dest.Exits → p ≠ initproc ∨ (s.proc p).pc.Exits
  awake : ∀ l, dest ≠ .asleep l

theorem Walk.dozing {pc : Pc} (walk : Walk s p pc t) {l : Loop} (hr : r ≠ p)
    (dozing : Dozing t r l) : Dozing s r l := by
  unfold Dozing at *
  rw [walk.pc, if_neg hr] at dozing
  rcases dozing with h | ⟨h, h'⟩
  · exact .inl h
  · refine .inr ⟨h, ?_⟩
    rcases walk.state r with e | ⟨-, e⟩
    · rw [← e, h']
    · rw [h'] at e
      cases e

theorem Walk.zombie {pc : Pc} (walk : Walk s p pc t) (q : Slot) :
    (t.proc q).state = .zombie ↔ (s.proc q).state = .zombie := by
  rcases walk.state q with e | ⟨e, e'⟩
  · rw [e]
  · rw [e, e']
    simp

/-- A move keeps the conditions that do not depend on what it changed. -/
theorem Walk.cond {pc : Pc} (walk : Walk s p pc t) {l : Loop} (h : Cond s r l)
    (pipe : ∀ i, l.lock = .pipe i → t.pipe i = s.pipe i)
    (busy : l.lock = .log → t.busy = s.busy) : Cond t r l := by
  cases l with
  | write i rest =>
    rw [Cond, pipe i rfl]
    exact h
  | read i n =>
    rw [Cond, pipe i rfl]
    exact h
  | begin =>
    rw [Cond, busy rfl]
    exact h
  | wait =>
    intro q hq
    rw [walk.parent] at hq
    rw [Ne, walk.zombie]
    exact h q hq
  | other lk ch => trivial

theorem Doze.walk (doze : Doze s) {pc : Pc} (walk : Walk s p pc t)
    (ready : ∀ l, pc.About l → Cond t p l) (new : ∀ l, pc = .handing l → Cond t p l)
    (keep : ∀ r l, r ≠ p → (s.proc r).pc.held = some l.lock → Cond s r l → Cond t r l)
    (cond : ∀ r l, r ≠ p → Dozing t r l → Cond s r l → Cond t r l ∨ ∃ q, Owes t q r l)
    (owes : ∀ r l, r ≠ p → Dozing t r l → Owes s p r l → Cond t r l ∨ ∃ q, Owes t q r l) :
    Doze t := by
  constructor
  · intro r l about
    rw [walk.pc] at about
    split at about
    · next h => exact h ▸ ready l about
    · next h => exact keep r l h (About.held about) (doze.ready r l about)
  · intro r l dozing
    by_cases hr : r = p
    · left
      subst hr
      rcases dozing with h | ⟨h, -⟩
      · rw [walk.pc, if_pos rfl] at h
        exact new l h
      · rw [walk.pc, if_pos rfl] at h
        exact absurd h (walk.awake l)
    · rcases doze.just r l (walk.dozing hr dozing) with h | ⟨q, h⟩
      · exact cond r l hr dozing h
      · by_cases hq : q = p
        · exact owes r l hr dozing (hq ▸ h)
        · refine .inr ⟨q, ?_⟩
          unfold Owes at *
          rw [walk.pc, if_neg hq]
          exact h
  · rw [walk.pc]
    split
    · next h =>
      intro e
      rcases walk.exits e with h' | h'
      · exact h' h.symm
      · exact doze.init (h ▸ h')
    · exact doze.init
  · rw [walk.parent]
    exact doze.orphan
  · intro q
    rw [walk.parent]
    exact doze.self q

/-- A move that changes no shared data, of a process that owes nothing or goes on owing it. -/
theorem Doze.calm (doze : Doze s) {pc : Pc} (walk : Walk s p pc t) (pipe : t.pipe = s.pipe)
    (busy : t.busy = s.busy) (ready : ∀ l, pc.About l → Cond s p l)
    (new : ∀ l, pc = .handing l → Cond s p l) (owes : ∀ r l, r ≠ p → Dozing t r l → Owes s p r l →
      pc.held = some l.lock ∧ pc.Owes (l.chan r)) : Doze t := by
  have same : ∀ r l, Cond s r l → Cond t r l := fun r l h =>
    walk.cond h (fun _ _ => by rw [pipe]) (fun _ => busy)
  refine doze.walk walk (fun l h => same p l (ready l h)) (fun l h => same p l (new l h))
    (fun r l _ _ => same r l) (fun r l _ _ h => .inl (same r l h)) (fun r l hr hd ho => ?_)
  refine .inr ⟨p, ?_⟩
  unfold Owes
  rw [walk.pc, if_pos rfl]
  exact owes r l hr hd ho

theorem walk_goto (pc : Pc) (exits : pc.Exits → p ≠ initproc ∨ (s.proc p).pc.Exits)
    (awake : ∀ l, pc ≠ .asleep l) (proc : t.proc = (s.goto p pc).proc) : Walk s p pc t := by
  constructor
  · intro q
    rw [proc, goto_pc]
  · intro q
    rw [proc, goto_state]
    exact .inl rfl
  · intro q
    rw [proc, goto_parent]
  · exact exits
  · exact awake

theorem not_dozing_wakeup (base : Base s) (free : s.holder .ptable = none) {ch : Chan} {pc : Pc}
    (proc : t.proc = ((s.wakeup1 ch).goto p pc).proc) (hr : r ≠ p) {l : Loop}
    (chan : l.chan r = ch) : ¬ Dozing t r l := by
  rintro (h | ⟨h, h'⟩)
  · rw [proc, goto_pc, if_neg hr, wakeup1_pc] at h
    have := (base.lock r .ptable).mpr (by rw [h]; rfl)
    rw [free] at this
    cases this
  · rw [proc, goto_pc, if_neg hr, wakeup1_pc] at h
    rw [proc, goto_state, wakeup1_proc] at h'
    have ok := base.ok r
    simp only [ProcOk, h, chan] at ok
    split at h'
    · cases h'
    · next hn =>
      rcases ok with e | e
      · rw [h'] at e
        cases e
      · exact hn e

/-- Another process cannot be inside a critical section of the same lock. -/
theorem Base.other_lock (base : Base s) {lk : Lock} (held : (s.proc p).pc.held = some lk)
    (hr : r ≠ p) {lk' : Lock} (h : (s.proc r).pc.held = some lk') : lk' ≠ lk := by
  rintro rfl
  exact hr (base.holder_unique h held)

theorem Doze.setPipe (doze : Doze s) (base : Base s) {i : Nat} {pc : Pc}
    (held : (s.proc p).pc.held = some (.pipe i)) {x : Pipe}
    (walk : Walk s p pc ((s.setPipe i x).goto p pc)) (ready : ∀ l, ¬ pc.About l)
    (new : ∀ l, pc ≠ .handing l) (same : pc.held = some (.pipe i))
    (change : ∀ r l, Loop.lock l = .pipe i → Dozing s r l → Cond s r l ∨ Owes s p r l →
      Cond ((s.setPipe i x).goto p pc) r l ∨ pc.Owes (l.chan r)) :
    Doze ((s.setPipe i x).goto p pc) := by
  have other : ∀ j, Lock.pipe j ≠ .pipe i → ((s.setPipe i x).goto p pc).pipe j = s.pipe j := by
    intro j hj
    rw [goto_pipe, setPipe_pipe, if_neg fun e : j = i => hj (congrArg Lock.pipe e)]
  have result : ∀ r l, Loop.lock l = .pipe i → r ≠ p → Dozing ((s.setPipe i x).goto p pc) r l →
      Cond s r l ∨ Owes s p r l → Cond ((s.setPipe i x).goto p pc) r l ∨
        ∃ q, Owes ((s.setPipe i x).goto p pc) q r l := by
    intro r l hl hr dozing h
    rcases change r l hl (walk.dozing hr dozing) h with h' | h'
    · exact .inl h'
    · refine .inr ⟨p, ?_, ?_⟩ <;> rw [goto_pc, if_pos rfl]
      · rw [same, hl]
      · exact h'
  refine doze.walk walk (fun l h => absurd h (ready l)) (fun l h => absurd h (new l)) ?_ ?_ ?_
  · intro r l hr h hc
    exact walk.cond hc (fun j hj => other j (hj ▸ base.other_lock held hr h)) fun _ => rfl
  · intro r l hr dozing hc
    by_cases hl : l.lock = .pipe i
    · exact result r l hl hr dozing (.inl hc)
    · exact .inl (walk.cond hc (fun j hj => other j (hj ▸ hl)) fun _ => rfl)
  · intro r l hr dozing h
    have hl := h.1
    rw [held] at hl
    exact result r l (Option.some.inj hl).symm hr dozing (.inr h)

theorem Dozing.mono {l : Loop} (pc : (t.proc r).pc = (s.proc r).pc)
    (sleeping : (t.proc r).state = .sleeping → (s.proc r).state = .sleeping)
    (dozing : Dozing t r l) : Dozing s r l := by
  unfold Dozing at *
  rw [pc] at dozing
  rcases dozing with h | ⟨h, h'⟩
  · exact .inl h
  · exact .inr ⟨h, sleeping h'⟩

/-- Nobody begins to test a condition or to sleep, and who owes a wakeup still does. -/
theorem Doze.next (doze : Doze s) (about : ∀ r l, (t.proc r).pc.About l → (s.proc r).pc.About l)
    (dozing : ∀ r l, Dozing t r l → Dozing s r l) (owes : ∀ a r l, Owes s a r l → Owes t a r l)
    (cond : ∀ r l, (s.proc r).pc.About l ∨ Dozing s r l → Cond s r l → Cond t r l)
    (init : ¬ (t.proc initproc).pc.Exits) (orphan : (t.proc initproc).parent = none)
    (self : ∀ q, (t.proc q).parent ≠ some q) : Doze t := by
  refine ⟨fun r l h => ?_, fun r l h => ?_, init, orphan, self⟩
  · exact cond r l (.inl (about r l h)) (doze.ready r l (about r l h))
  · rcases doze.just r l (dozing r l h) with hc | ⟨a, ho⟩
    · exact .inl (cond r l (.inr (dozing r l h)) hc)
    · exact .inr ⟨a, owes a r l ho⟩

theorem Doze.still (doze : Doze s) (pc : ∀ q, (t.proc q).pc = (s.proc q).pc)
    (sleeping : ∀ q, (t.proc q).state = .sleeping → (s.proc q).state = .sleeping)
    (cond : ∀ r l, (s.proc r).pc.About l ∨ Dozing s r l → Cond s r l → Cond t r l)
    (orphan : (t.proc initproc).parent = none) (self : ∀ q, (t.proc q).parent ≠ some q) :
    Doze t := by
  refine doze.next (fun r l h => pc r ▸ h) (fun r l => .mono (pc r) (sleeping r)) ?_ cond
    (pc initproc ▸ doze.init) orphan self
  intro a r l h
  unfold Owes at *
  rwa [pc]

/-- Slots change without a process moving: nobody falls asleep, becomes a zombie or gets a
parent. -/
theorem Doze.table (doze : Doze s) (pc : ∀ q, (t.proc q).pc = (s.proc q).pc)
    (pipe : t.pipe = s.pipe) (busy : t.busy = s.busy)
    (parent : ∀ q, (t.proc q).parent = (s.proc q).parent ∨ (t.proc q).parent = none)
    (sleeping : ∀ q, (t.proc q).state = .sleeping → (s.proc q).state = .sleeping)
    (zombie : ∀ q, (t.proc q).state = .zombie → (s.proc q).state = .zombie) : Doze t := by
  have child : ∀ q r, (t.proc q).parent = some r → (s.proc q).parent = some r := by
    intro q r h
    rcases parent q with e | e
    · rw [← e, h]
    · rw [h] at e
      cases e
  have cond : ∀ r l, Cond s r l → Cond t r l := by
    intro r l h
    cases l with
    | write i rest => rw [Cond, pipe]; exact h
    | read i n => rw [Cond, pipe]; exact h
    | begin => rw [Cond, busy]; exact h
    | wait => exact fun q hq hz => h q (child q r hq) (zombie q hz)
    | other lk ch => trivial
  refine doze.still pc sleeping (fun r l _ => cond r l) ?_ fun q h => doze.self q (child q q h)
  rcases parent initproc with e | e
  · rw [e, doze.orphan]
  · exact e

theorem Doze.wakeup1 (doze : Doze s) (ch : Chan) : Doze (s.wakeup1 ch) := by
  refine doze.table (fun q => wakeup1_pc s q ch) rfl rfl (fun q => .inl (wakeup1_parent s q ch))
    (fun q h => ?_) (fun q h => ?_)
  · rcases wakeup1_state s q ch with e | ⟨e, -⟩
    · rw [← e, h]
    · exact e
  · rcases wakeup1_state s q ch with e | ⟨-, e⟩
    · rw [← e, h]
    · rw [h] at e
      cases e

theorem Doze.modify (doze : Doze s) {f : Proc → Proc} (pc : (f (s.proc q)).pc = (s.proc q).pc)
    (parent : (f (s.proc q)).parent = (s.proc q).parent ∨ (f (s.proc q)).parent = none)
    (sleeping : (f (s.proc q)).state = .sleeping → (s.proc q).state = .sleeping)
    (zombie : (f (s.proc q)).state = .zombie → (s.proc q).state = .zombie) :
    Doze (s.modify q f) := by
  refine doze.table (fun r => ?_) rfl rfl (fun r => ?_) (fun r => ?_) (fun r => ?_)
  all_goals rw [modify_proc]; split
  all_goals simp_all

/-- While `p` runs the last part of `exit`: its parent has been woken. -/
structure Dying (s : State) (p : Slot) (m : Option Slot) : Prop where
  doze : Doze s
  base : Base s
  pc : (s.proc p).pc = .inside .die
  parent : (s.proc p).parent = m
  woken : ∀ r, m = some r → ¬ Dozing s r .wait

/-- Nobody but the dying process is inside a critical section of `ptable.lock`. -/
theorem Dying.alone (dying : Dying s p m) (hr : (s.proc r).pc.held = some .ptable) : r = p :=
  dying.base.holder_unique hr (by rw [dying.pc]; rfl)

/-- A child is passed to `initproc`; if it is a zombie, `initproc` must not be asleep in `wait`. -/
theorem Dying.adopt (dying : Dying s p m) (child : (s.proc q).parent = some p)
    (calm : (s.proc q).state = .zombie → ¬ Dozing s initproc .wait) :
    Dying (s.modify q fun x => { x with parent := some initproc }) p m := by
  have hpc : ∀ r, ((s.modify q fun x => { x with parent := some initproc }).proc r).pc =
      (s.proc r).pc := by
    intro r
    rw [modify_proc]
    split <;> simp_all
  have hstate : ∀ r, ((s.modify q fun x => { x with parent := some initproc }).proc r).state =
      (s.proc r).state := by
    intro r
    rw [modify_proc]
    split <;> simp_all
  have hinit : q ≠ initproc := by
    rintro rfl
    rw [dying.doze.orphan] at child
    cases child
  have hself : q ≠ p := by
    rintro rfl
    exact dying.doze.self q child
  have cond : ∀ r l, (s.proc r).pc.About l ∨ Dozing s r l → Cond s r l →
      Cond (s.modify q fun x => { x with parent := some initproc }) r l := by
    intro r l h hc
    cases l with
    | wait =>
      intro a ha
      rw [hstate]
      rw [modify_proc] at ha
      split at ha
      · next e =>
        subst e
        cases ha
        rcases h with h | h
        · have hr := dying.alone (About.held h)
          rw [hr, dying.pc] at h
          cases h
        · exact fun z => calm z h
      · exact hc a ha
    | write | read | begin | other => exact hc
  refine ⟨dying.doze.still hpc (fun r h => hstate r ▸ h) cond ?_ ?_, dying.base.adopted q _, ?_, ?_,
    ?_⟩
  · rw [modify_of_ne _ _ _ _ hinit.symm]
    exact dying.doze.orphan
  · intro r
    rw [modify_proc]
    split
    · next e =>
      subst e
      intro h
      exact hinit (Option.some.inj h).symm
    · exact dying.doze.self r
  · rw [hpc, dying.pc]
  · rw [modify_of_ne _ _ _ _ hself.symm, dying.parent]
  · intro a ha h
    exact dying.woken a ha (.mono (hpc a) (fun e => hstate a ▸ e) h)

theorem Dying.wakeup1 (dying : Dying s p m) (ch : Chan) : Dying (s.wakeup1 ch) p m := by
  refine ⟨dying.doze.wakeup1 ch, dying.base.wakeup1 ch, ?_, ?_, fun a ha h => ?_⟩
  · rw [wakeup1_pc, dying.pc]
  · rw [wakeup1_parent, dying.parent]
  · refine dying.woken a ha (Dozing.mono (wakeup1_pc s a ch) (fun e => ?_) h)
    rcases wakeup1_state s a ch with e' | ⟨e', -⟩
    · rw [← e', e]
    · exact e'

/-- After `wakeup1` a process asleep in `wait` is no longer so. -/
theorem not_dozing_wait (base : Base s) (alone : ∀ l, (s.proc r).pc ≠ .handing l) :
    ¬ Dozing (s.wakeup1 (.proc r)) r .wait := by
  rintro (h | ⟨h, h'⟩)
  · rw [wakeup1_pc] at h
    exact alone _ h
  · rw [wakeup1_pc] at h
    rw [wakeup1_proc] at h'
    have ok := base.ok r
    simp only [ProcOk, h] at ok
    split at h'
    · cases h'
    · next hn =>
      rcases ok with e | e
      · rw [h'] at e
        cases e
      · exact hn e

theorem adopt_wakeup (s : State) (q : Slot) (ch : Chan) (a : Option Slot) :
    (s.modify q fun x => { x with parent := a }).wakeup1 ch =
      (s.wakeup1 ch).modify q fun x => { x with parent := a } := by
  have hproc : ((s.modify q fun x => { x with parent := a }).wakeup1 ch).proc =
      ((s.wakeup1 ch).modify q fun x => { x with parent := a }).proc := by
    funext r
    rw [modify_proc, wakeup1_proc, wakeup1_proc, wakeup1_proc, modify_proc]
    by_cases h : r = q
    · subst h
      simp only [if_true]
      split <;> rfl
    · simp only [if_neg h]
  calc (s.modify q fun x => { x with parent := a }).wakeup1 ch
      = { s with proc := ((s.modify q fun x => { x with parent := a }).wakeup1 ch).proc } := rfl
    _ = { s with proc := ((s.wakeup1 ch).modify q fun x => { x with parent := a }).proc } := by
      rw [hproc]
    _ = (s.wakeup1 ch).modify q fun x => { x with parent := a } := rfl

theorem Dying.not_handing (dying : Dying s p m) (r : Slot) (l : Loop) :
    (s.proc r).pc ≠ .handing l := by
  intro h
  have hr := dying.alone (r := r) (by rw [h]; rfl)
  rw [hr, dying.pc] at h
  cases h

theorem Dying.abandon (dying : Dying s p m) : Dying (abandon s p) p m := by
  apply abandon_induction (I := fun t => Dying t p m) dying
  · intro t q dying child alive
    exact dying.adopt child fun z => absurd z alive
  · intro t q dying child _
    rw [adopt_wakeup]
    refine (dying.wakeup1 _).adopt (by rw [wakeup1_parent, child]) fun _ => ?_
    exact not_dozing_wait dying.base (dying.not_handing initproc)

/-- The end of `exit`: the process becomes a zombie. -/
theorem Dying.zombie (dying : Dying s p m) (hinit : p ≠ initproc) :
    Doze ((s.modify p fun x => { x with state := .zombie, pc := .dead }).release .ptable) := by
  have hself := modify_self s p fun x => { x with state := .zombie, pc := .dead }
  have hother := fun r (h : r ≠ p) =>
    modify_of_ne s p r (fun x => { x with state := .zombie, pc := .dead }) h
  have hparent : ∀ r, ((s.modify p fun x => { x with state := .zombie, pc := .dead }).proc r).parent
      = (s.proc r).parent := by
    intro r
    rw [modify_proc]
    split <;> simp_all
  refine dying.doze.next (fun r l h => ?_) (fun r l h => ?_) (fun a r l ho => ?_)
    (fun r l h hc => ?_) ?_ ?_ fun r => ?_
  · by_cases e : r = p
    · subst e
      rw [release_proc, hself] at h
      cases h
    · rwa [release_proc, hother r e] at h
  · unfold Dozing at *
    by_cases e : r = p
    · subst e
      rw [release_proc, hself] at h
      rcases h with h | ⟨h, -⟩ <;> cases h
    · rwa [release_proc, hother r e] at h
  · unfold Owes at *
    have ha : a ≠ p := by
      rintro rfl
      rw [dying.pc] at ho
      cases ho.2
    rwa [release_proc, hother a ha]
  · cases l with
    | wait =>
      intro a ha
      rw [release_proc, hparent] at ha
      by_cases e : a = p
      · subst e
        rcases h with h | h
        · rw [dying.alone (About.held h), dying.pc] at h
          cases h
        · exact absurd h (dying.woken r (dying.parent ▸ ha))
      · rw [release_proc, hother a e]
        exact hc a ha
    | write | read | begin | other => exact hc
  · rw [release_proc, hother initproc hinit.symm]
    exact dying.doze.init
  · rw [release_proc, hparent]
    exact dying.doze.orphan
  · rw [release_proc, hparent]
    exact dying.doze.self r

theorem Doze.runDie (doze : Doze s) (base : Base s) (at' : (s.proc p).pc = .inside .die) :
    Doze (runDie s p) := by
  have hinit : p ≠ initproc := by
    rintro rfl
    apply doze.init
    rw [at']
    trivial
  unfold SleepWakeup.runDie
  split
  · next m hm =>
    have dying : Dying (s.wakeup1 (.proc m)) p (some m) := by
      refine ⟨doze.wakeup1 _, base.wakeup1 _, ?_, ?_, ?_⟩
      · rw [wakeup1_pc, at']
      · rw [wakeup1_parent, hm]
      · rintro r ⟨⟩
        refine not_dozing_wait base fun l h => ?_
        have hm : (s.proc m).pc.held = some .ptable := by rw [h]; rfl
        rw [base.holder_unique hm (by rw [at']; rfl), at'] at h
        cases h
    exact dying.abandon.zombie hinit
  · next hm =>
    have dying : Dying s p none := ⟨doze, base, at', hm, nofun⟩
    exact dying.abandon.zombie hinit

/-- The process becomes `SLEEPING` and gives up `ptable.lock`. -/
theorem Doze.sleep (doze : Doze s) (running : (s.proc p).state = .running) {l : Loop}
    (at' : (s.proc p).pc = .handing l) : Doze ((s.modify p fun x =>
      { x with chan := some (l.chan p), state := .sleeping, pc := .asleep l }).release .ptable) := by
  let f : Proc → Proc := fun x =>
    { x with chan := some (l.chan p), state := .sleeping, pc := .asleep l }
  have hother := fun r (h : r ≠ p) => modify_of_ne s p r f h
  have hparent : ∀ r, ((s.modify p f).proc r).parent = (s.proc r).parent := by
    intro r
    rw [modify_proc]
    split <;> simp_all [f]
  refine doze.next (fun r l' h => ?_) (fun r l' h => ?_) (fun a r l' ho => ?_)
    (fun r l' _ hc => ?_) ?_ ?_ fun r => ?_
  · by_cases e : r = p
    · subst e
      rw [release_proc, modify_self] at h
      cases h
    · rwa [release_proc, hother r e] at h
  · by_cases e : r = p
    · subst e
      unfold Dozing at h
      rw [release_proc, modify_self] at h
      rcases h with h | ⟨h, -⟩ <;> cases h
      exact .inl at'
    · unfold Dozing at *
      rwa [release_proc, hother r e] at h
  · have ha : a ≠ p := by
      rintro rfl
      have := ho.2
      rw [at'] at this
      cases this
    unfold Owes at *
    rwa [release_proc, hother a ha]
  · cases l' with
    | wait =>
      intro a ha
      rw [release_proc, hparent] at ha
      rw [release_proc]
      by_cases e : a = p
      · rw [e, modify_self]
        nofun
      · rw [hother a e]
        exact hc a ha
    | write | read | begin | other => exact hc
  · rw [release_proc]
    by_cases e : initproc = p
    · rw [e, modify_self]
      exact id
    · rw [hother initproc e]
      exact doze.init
  · rw [release_proc, hparent]
    exact doze.orphan
  · rw [release_proc, hparent]
    exact doze.self r

theorem Doze.runFork (doze : Doze s) (base : Base s) {np : Slot}
    (at' : (s.proc p).pc = .forking np) : Doze (runFork s p np) := by
  have hdead := base.pc_dead (.inr (.inl (base.embryo p np at')))
  have hne : p ≠ np := by
    rintro rfl
    rw [at'] at hdead
    cases hdead
  have hinit : initproc ≠ np := by
    rintro h
    apply doze.init
    rw [h, hdead]
    trivial
  have hproc := runFork_proc (s := s) hne
  have cond : ∀ r l, Cond s r l → Cond (SleepWakeup.runFork s p np) r l := by
    intro r l hc
    cases l with
    | wait =>
      intro a ha
      rw [hproc] at ha ⊢
      split at ha
      · next e =>
        rw [if_pos e]
        exact hc p ha
      · next e =>
        rw [if_neg e]
        split at ha
        · next e' =>
          rw [if_pos e']
          nofun
        · next e' =>
          rw [if_neg e']
          exact hc a ha
    | write | read | begin | other => exact hc
  refine doze.next (fun r l h => ?_) (fun r l h => ?_) (fun a r l ho => ?_)
    (fun r l _ => cond r l) ?_ ?_ fun r => ?_
  · rw [hproc] at h
    split at h
    · cases h
    · split at h
      · cases h
      · exact h
  · unfold Dozing at *
    rw [hproc] at h
    split at h
    · rcases h with h | ⟨h, -⟩ <;> cases h
    · split at h
      · rcases h with h | ⟨h, -⟩ <;> cases h
      · exact h
  · unfold Owes at *
    have h₁ : a ≠ p := by
      rintro rfl
      rw [at'] at ho
      cases ho.2
    have h₂ : a ≠ np := by
      rintro rfl
      rw [hdead] at ho
      cases ho.2
    rwa [hproc, if_neg h₁, if_neg h₂]
  · rw [hproc]
    split
    · exact id
    · exact doze.init
  · rw [hproc]
    split
    · next e =>
      rw [← e]
      exact doze.orphan
    · exact doze.orphan
  · rw [hproc]
    split
    · next e =>
      rw [e]
      exact doze.self p
    · split
      · next e =>
        intro h
        exact hne ((Option.some.inj h).trans e)
      · exact doze.self r

/-- A new pipe: nobody can be inside a call on it yet. -/
theorem Doze.sysPipe (doze : Doze s) (fds : Fds s) (data : Nat → UInt8) :
    Doze (sysPipe s p data) := by
  have hproc : (SleepWakeup.sysPipe s p data).proc = (s.modify p fun x =>
      (x.addFd s.npipes true).addFd s.npipes false).proc := rfl
  have hpc : ∀ q, ((SleepWakeup.sysPipe s p data).proc q).pc = (s.proc q).pc := by
    intro q
    rw [hproc, modify_proc]
    split
    · next e => rw [e]; rfl
    · rfl
  have hstate : ∀ q, ((SleepWakeup.sysPipe s p data).proc q).state = (s.proc q).state := by
    intro q
    rw [hproc, modify_proc]
    split
    · next e => rw [e]; rfl
    · rfl
  have hparent : ∀ q, ((SleepWakeup.sysPipe s p data).proc q).parent = (s.proc q).parent := by
    intro q
    rw [hproc, modify_proc]
    split
    · next e => rw [e]; rfl
    · rfl
  have old : ∀ r i w, (s.proc r).pc.uses = some (i, w) → i ≠ s.npipes := by
    rintro r i w h rfl
    have := fds.uses r s.npipes w h
    have := fds.fd_le_ref r s.npipes w
    have := fds.fresh s.npipes w le_rfl
    omega
  have cond : ∀ r l, (∀ i w, l.uses = some (i, w) → i ≠ s.npipes) → Cond s r l →
      Cond (SleepWakeup.sysPipe s p data) r l := by
    intro r l hl hc
    have pipe : ∀ i, i ≠ s.npipes → (SleepWakeup.sysPipe s p data).pipe i = s.pipe i :=
      fun i hi => Function.update_of_ne hi ..
    cases l with
    | write i rest =>
      rw [Cond, pipe i (hl i true rfl)]
      exact hc
    | read i n =>
      rw [Cond, pipe i (hl i false rfl)]
      exact hc
    | begin => exact hc
    | wait =>
      intro q hq
      rw [hparent] at hq
      rw [hstate]
      exact hc q hq
    | other lk ch => trivial
  refine doze.still hpc (fun q h => hstate q ▸ h) (fun r l h => cond r l fun i w hu => ?_)
    ((hparent initproc).trans doze.orphan) fun q => hparent q ▸ doze.self q
  refine old r i w ?_
  rcases h with h | h | ⟨h, -⟩
  · unfold Pc.About at h
    split at h
    · next e =>
      rw [e, h]
      exact hu
    · next e =>
      rw [e, h]
      exact hu
    · cases h
  · rw [h]
    exact hu
  · rw [h]
    exact hu

/-- A slot changes without its process moving, and a process that owes nothing moves. -/
theorem Doze.modifyGoto (doze : Doze s) {f : Proc → Proc}
    (proc : u.proc = (s.modify q f).proc) (pc : (f (s.proc q)).pc = (s.proc q).pc)
    (parent : (f (s.proc q)).parent = (s.proc q).parent ∨ (f (s.proc q)).parent = none)
    (sleeping : (f (s.proc q)).state = .sleeping → (s.proc q).state = .sleeping)
    (zombie : (f (s.proc q)).state = .zombie → (s.proc q).state = .zombie)
    (pipe : u.pipe = s.pipe) (busy : u.busy = s.busy)
    (quiet : ∀ ch, ¬ (s.proc p).pc.Owes ch) (exits : dest.Exits → (s.proc p).pc.Exits)
    (awake : ∀ l, dest ≠ .asleep l ∧ dest ≠ .handing l ∧ ¬ dest.About l) :
    Doze (u.goto p dest) := by
  have hpc : ((s.modify q f).proc p).pc = (s.proc p).pc := by
    rw [modify_proc]
    grind
  refine (doze.modify pc parent sleeping zombie).calm (p := p) (walk_goto dest (fun h => .inr ?_)
    (fun l => (awake l).1) ?_) pipe busy (fun l h => absurd h (awake l).2.2)
    (fun l h => absurd h (awake l).2.1) ?_
  · rw [hpc]
    exact exits h
  · funext r
    simp only [State.goto, State.modify, proc]
  · rintro r l - - ⟨-, h⟩
    rw [hpc] at h
    exact absurd h (quiet _)

/-! ### Moves along the control flow -/

theorem Edge.exits (edge : Edge s p src dest t) (h : dest.Exits) : p ≠ initproc ∨ src.Exits := by
  cases edge with
  | stay flow =>
    cases flow with
    | closed => exact .inr trivial
    | exit other => exact .inl other
    | _ => cases h
  | pipe flow =>
    cases flow with
    | store | take => cases h
    | shut w back => cases back <;> exact .inr h
  | @acquire c =>
    cases c with
    | close i w back => cases back <;> exact .inr h
    | _ => exact .inr h
  | @wake ch after _ _ next =>
    subst next
    rcases after with ⟨lk, back⟩ | l
    · cases back <;> exact .inr h
    · cases h
  | _ => cases h

theorem Edge.walk (edge : Edge s p src dest t) (base : Base s) (at' : (s.proc p).pc = src) :
    Walk s p dest t := by
  have move := edge.move base at'
  refine ⟨move.pc, move.state, move.parent, at' ▸ edge.exits, ?_⟩
  rintro l rfl
  cases edge.active

theorem Flow.owes (flow : Flow s p src dest) {ch : Chan} (h : src.Owes ch) : dest.Owes ch := by
  cases flow <;> first | exact h.symm | cases h

/-- The loop has just tested its condition. -/
theorem Flow.cond (flow : Flow s p src dest) {l : Loop} (h : dest.About l ∨ dest = .handing l) :
    Cond s p l := by
  rcases h with h | h <;> cases flow <;> cases h
  case inl.full.refl full reader => exact ⟨full, reader⟩
  case inl.empty.refl empty writer => exact ⟨empty, writer⟩
  case inl.busy.refl busy => exact busy
  case inl.other.refl => trivial
  case inr.wait.refl none => exact none

section
variable (doze : Doze s)
include doze

theorem Doze.stay (walk : Walk s p dest (s.goto p dest))
    (flow : Flow s p (s.proc p).pc dest) : Doze (s.goto p dest) := by
  refine doze.calm walk rfl rfl (fun l h => flow.cond (.inl h)) (fun l h => flow.cond (.inr h)) ?_
  rintro r l - - ⟨h₁, h₂⟩
  exact ⟨flow.held.trans h₁, flow.owes h₂⟩

/-- The lock is released without a wakeup only if nobody can be asleep in `piperead`. -/
theorem Doze.leave (fds : Fds s) {lk : Lock} (walk : Walk s p .user ((s.release lk).goto p .user))
    (held : (s.proc p).pc.held = some lk) (quiet : ∀ ch, (s.proc p).pc.Owes ch →
      ∃ i, lk = .pipe i ∧ ch = .nread i ∧ (s.pipe i).readopen = false) :
    Doze ((s.release lk).goto p .user) := by
  refine doze.calm walk rfl rfl nofun nofun fun r l hr dozing ⟨h₁, h₂⟩ => ?_
  obtain ⟨i, rfl, hch, noReader⟩ := quiet _ h₂
  rw [held] at h₁
  cases l with
  | read j n =>
    cases h₁
    have use : (s.proc r).pc.uses = some (i, false) := by
      rcases walk.dozing hr dozing with e | ⟨e, -⟩ <;> rw [e] <;> rfl
    have := fds.open_of_uses use
    rw [Pipe.isOpen, if_neg (by decide), noReader] at this
    cases this
  | write | begin | wait | other => cases hch

theorem Doze.begin (at' : (s.proc p).pc = .inside (.loop .begin))
    (walk : Walk s p .user (((s.setBusy true).release .log).goto p .user)) :
    Doze (((s.setBusy true).release .log).goto p .user) := by
  have set : ∀ r l, Cond s r l → Cond (((s.setBusy true).release .log).goto p .user) r l := by
    intro r l h
    by_cases hl : l.lock = .log
    · cases l with
      | begin => rfl
      | write | read | wait | other => cases hl
    · exact walk.cond h (fun _ _ => rfl) fun e => absurd e hl
  refine doze.walk walk nofun nofun (fun r l _ _ h => set r l h)
    (fun r l _ _ h => .inl (set r l h)) ?_
  rintro r l - - ⟨-, h⟩
  rw [at'] at h
  cases h

theorem Doze.pipe (base : Base s) {i : Nat} {x : Pipe}
    (flow : PipeFlow (s.pipe i) i (s.proc p).pc dest x)
    (walk : Walk s p dest ((s.setPipe i x).goto p dest)) : Doze ((s.setPipe i x).goto p dest) := by
  have hpipe : ((s.setPipe i x).goto p dest).pipe i = x := by
    rw [goto_pipe, setPipe_pipe, if_pos rfl]
  have hpc : ∃ pc, (s.proc p).pc = pc := ⟨_, rfl⟩
  obtain ⟨pc, at'⟩ := hpc
  rw [at'] at flow
  have held : (s.proc p).pc.held = some (.pipe i) := by
    rw [at']
    cases flow <;> rfl
  have same : dest.held = some (.pipe i) := by
    cases flow <;> rfl
  have about : ∀ l, ¬ dest.About l := by
    cases flow <;> nofun
  have handing : ∀ l, dest ≠ .handing l := by
    cases flow <;> nofun
  refine doze.setPipe base held walk about handing same fun r l hl _ h => ?_
  unfold Owes at h
  rw [at'] at h
  cases l with
  | begin | wait | other => cases hl
  | write j rest' =>
    cases hl
    rw [Cond, hpipe]
    cases flow with
    | store b rest room =>
      rcases h with h | ⟨-, h⟩
      · rw [h.1] at room
        cases room
      · cases h
    | take => exact .inr rfl
    | shut w =>
      rcases h with h | ⟨-, h⟩
      · cases w with
        | true => exact .inl h
        | false => exact .inr rfl
      · cases h
  | read j n =>
    cases hl
    rw [Cond, hpipe]
    cases flow with
    | store => exact .inr rfl
    | take m some =>
      rcases h with h | ⟨-, h⟩
      · rw [h.1] at some
        cases some
      · cases h
    | shut w =>
      rcases h with h | ⟨-, h⟩
      · cases w with
        | true => exact .inr rfl
        | false => exact .inl h
      · cases h

theorem Doze.commit (base : Base s) (at' : (s.proc p).pc = .inside .commit)
    (walk : Walk s p (.waking .log (.done (some .log) .user)) (runCode s p .commit)) :
    Doze (runCode s p .commit) := by
  have held : (s.proc p).pc.held = some .log := by rw [at']; rfl
  refine doze.walk walk nofun nofun ?_ ?_ ?_
  · intro r l hr h hc
    exact walk.cond hc (fun _ _ => rfl) fun e => absurd e (base.other_lock held hr h)
  · intro r l hr _ hc
    by_cases hl : l.lock = .log
    · cases l with
      | begin =>
        refine .inr ⟨p, ?_, ?_⟩ <;> rw [walk.pc, if_pos rfl] <;> rfl
      | write | read | wait | other => cases hl
    · exact .inl (walk.cond hc (fun _ _ => rfl) fun e => absurd e hl)
  · rintro r l - - ⟨-, h⟩
    rw [at'] at h
    cases h

theorem Doze.wake (base : Base s) (free : s.holder .ptable = none)
    {ch : Chan} {after : After} (at' : (s.proc p).pc = .waking ch after)
    (walk : Walk s p dest t) (proc : t.proc = ((s.wakeup1 ch).goto p dest).proc)
    (pipe : t.pipe = s.pipe) (busy : t.busy = s.busy) (next : dest = match after with
      | .done _ back => back.pc
      | .sleep l => .entering l) : Doze t := by
  refine doze.calm walk pipe busy (fun l h => ?_) (fun l h => ?_) fun r l hr dozing owes => ?_
  · subst next
    rcases after with ⟨lk, back⟩ | l'
    · cases back <;> cases h
    · exact doze.ready p l (by rw [at']; exact h)
  · subst next
    rcases after with ⟨lk, back⟩ | l'
    · cases back <;> cases h
    · cases h
  · have chan := owes.2
    rw [at'] at chan
    exact absurd dozing (not_dozing_wakeup base free proc hr (Eq.symm chan))

theorem Doze.edge (base : Base s) (fds : Fds s) (at' : (s.proc p).pc = src)
    (edge : Edge s p src dest t) : Doze t := by
  have walk := edge.walk base at'
  cases edge with
  | stay flow => exact doze.stay walk (at' ▸ flow)
  | leave held quiet => exact doze.leave fds walk (at' ▸ held) (at' ▸ quiet)
  | begin => exact doze.begin at' walk
  | pipe flow => exact doze.pipe base (at' ▸ flow) walk
  | commit => exact doze.commit base at' walk
  | @wake ch after free _ next =>
    rcases after with ⟨_ | lk, back⟩ | l
    all_goals exact doze.wake base free at' walk (next ▸ rfl) rfl rfl next
  | acquire =>
    refine doze.calm walk rfl rfl nofun nofun ?_
    rintro r l - - ⟨-, h⟩
    rw [at'] at h
    cases h
  | @hand l =>
    refine doze.calm walk rfl rfl nofun ?_ ?_
    · rintro l' ⟨⟩
      exact doze.ready p l (by rw [at']; rfl)
    · rintro r l - - ⟨-, h⟩
      rw [at'] at h
      cases h

end

theorem Back.quiet (back : Back) (ch : Chan) : ¬ back.pc.Owes ch := by
  cases back <;> exact id

theorem Back.awake (back : Back) (l : Loop) :
    back.pc ≠ .asleep l ∧ back.pc ≠ .handing l ∧ ¬ back.pc.About l := by
  cases back <;> exact ⟨nofun, nofun, id⟩

theorem Doze.step (doze : Doze s) (base : Base s) (fds : Fds s) (h : Step s t) : Doze t := by
  cases h with
  | same => exact doze
  | edge _ at' edge => exact doze.edge base fds at' edge
  | sleep running at' => exact doze.sleep running at'
  | die _ at' => exact doze.runDie base at'
  | @reap p q _ at' _ =>
    exact doze.modifyGoto (release_proc ..) rfl (.inr rfl) nofun nofun rfl rfl
      (at' ▸ nofun) nofun fun _ => ⟨nofun, nofun, id⟩
  | startFork _ user =>
    exact doze.modifyGoto rfl rfl (.inl rfl) nofun nofun rfl rfl
      (user ▸ nofun) nofun fun _ => ⟨nofun, nofun, id⟩
  | fork at' => exact doze.runFork base at'
  | nomem _ at' =>
    exact doze.modifyGoto rfl rfl (.inl rfl) nofun nofun rfl rfl
      (at' ▸ nofun) nofun fun _ => ⟨nofun, nofun, id⟩
  | @dup p i w =>
    have doze' : Doze (s.modify p fun x => x.addFd i w) := doze.modify rfl (.inl rfl) id id
    exact ⟨doze'.ready, doze'.just, doze'.init, doze'.orphan, doze'.self⟩
  | pipe _ data => exact doze.sysPipe fds data
  | close _ back at' _ next =>
    refine doze.modifyGoto (setRef_proc ..) rfl (.inl rfl) id id rfl rfl
      (at' ▸ back.quiet) ?_ ?_
    all_goals rcases next with rfl | ⟨rfl, -⟩
    · exact at' ▸ id
    · rw [at']
      cases back <;> exact id
    · exact back.awake
    · exact fun _ => ⟨nofun, nofun, id⟩
  | kill q => refine doze.modify rfl (.inl rfl) ?_ ?_ <;> dsimp only <;> split <;> simp_all
  | resume _ asleep =>
    exact doze.modifyGoto rfl rfl (.inl rfl) nofun nofun rfl rfl
      (asleep ▸ nofun) nofun fun _ => ⟨nofun, nofun, id⟩
  | resumeWait _ asleep =>
    exact doze.modifyGoto (acquire_proc ..) rfl (.inl rfl) nofun nofun rfl rfl
      (asleep ▸ nofun) nofun fun _ => ⟨nofun, nofun, id⟩
  | schedule _ new =>
    refine doze.modify rfl (.inl rfl) ?_ ?_ <;> rcases new with rfl | rfl <;> nofun

/-! ### Every run -/

theorem base_initial : Base initial := by
  constructor
  · intro p lk
    simp only [initial]
    split <;> simp [Pc.held]
  · intro p
    by_cases hp : p = initproc <;> simp [initial, ProcOk, hp]
  · intro p np h
    simp only [initial] at h
    split at h <;> cases h
  · intro p q np h
    simp only [initial] at h
    split at h <;> cases h

theorem fds_initial : Fds initial := by
  have hfd : ∀ p, (initial.proc p).fd = fun _ _ => 0 := by
    intro p
    simp only [initial]
    split <;> rfl
  have hpc : ∀ p, (initial.proc p).pc = .user ∨ (initial.proc p).pc = .dead := by
    intro p
    simp only [initial]
    split
    · exact .inl rfl
    · exact .inr rfl
  constructor
  · intro p i w h
    rcases hpc p with e | e <;> rw [e] at h <;> cases h
  · intro i w
    simp only [hfd, Finset.sum_const_zero]
    rfl
  · intro i w h
    cases h
  · intro p i w h
    rcases hpc p with e | e <;> rw [e] at h <;> cases h
  · intro i w _
    rfl
  · intro p _ i w
    rw [hfd]

theorem doze_initial : Doze initial := by
  have hpc : ∀ p, (initial.proc p).pc = .user ∨ (initial.proc p).pc = .dead := by
    intro p
    simp only [initial]
    split
    · exact .inl rfl
    · exact .inr rfl
  have hparent : ∀ p, (initial.proc p).parent = none := by
    intro p
    simp only [initial]
    split <;> rfl
  constructor
  · intro p l h
    rcases hpc p with e | e <;> rw [e] at h <;> cases h
  · intro p l h
    unfold Dozing at h
    rcases hpc p with e | e <;> rw [e] at h <;> rcases h with h | ⟨h, -⟩ <;> cases h
  · exact id
  · exact hparent initproc
  · intro q
    rw [hparent]
    nofun

theorem Reachable.invariants (reach : Reachable s) : Base s ∧ Fds s ∧ Doze s := by
  apply TransitionSystem.Reachable.invariant (I := fun s => Base s ∧ Fds s ∧ Doze s) _ _ reach
  · rintro s rfl
    exact ⟨base_initial, fds_initial, doze_initial⟩
  · rintro s a t ⟨base, fds, doze⟩ next
    have next := step_cases next
    exact ⟨base.step next, fds.step base next, doze.step base fds next⟩

/-- A sleeping process is asleep in a loop, and while the loop's lock is free the condition for
sleeping still holds. -/
theorem Reachable.sleeping (reach : Reachable s) (sleeping : (s.proc p).state = .sleeping) :
    ∃ l : Loop, (s.proc p).chan = some (l.chan p) ∧ (s.holder l.lock = none → Cond s p l) := by
  obtain ⟨base, -, doze⟩ := reach.invariants
  have ok := base.ok p
  cases hpc : (s.proc p).pc with
  | asleep l =>
    simp only [ProcOk, hpc, sleeping] at ok
    refine ⟨l, by simpa using ok, fun free => ?_⟩
    rcases doze.just p l (.inr ⟨hpc, sleeping⟩) with h | ⟨q, held, -⟩
    · exact h
    · rw [← base.lock q l.lock, free] at held
      cases held
  | _ => simp [ProcOk, hpc, sleeping] at ok

/-- While the lock of a pipe is free, no process sleeps on `&p->nread` unless the pipe is empty
and its write end open, or on `&p->nwrite` unless it is full and its read end open; while
`log.lock` is free, none sleeps on `&log` unless the log is busy; while `ptable.lock` is free,
none sleeps in `wait` with a zombie child. -/
theorem no_lost_wakeup (reach : Reachable s) :
    (∀ i p, s.holder (.pipe i) = none → (s.proc p).state = .sleeping →
      ((s.proc p).chan = some (.nread i) →
        (s.pipe i).nread = (s.pipe i).nwrite ∧ (s.pipe i).writeopen = true) ∧
      ((s.proc p).chan = some (.nwrite i) →
        (s.pipe i).nwrite = (s.pipe i).nread + BitVec.ofNat 32 pipesize ∧
          (s.pipe i).readopen = true)) ∧
    (∀ p, s.holder .log = none → (s.proc p).state = .sleeping →
      (s.proc p).chan = some .log → s.busy = true) ∧
    (∀ p q, s.holder .ptable = none → (s.proc p).state = .sleeping →
      (s.proc p).chan = some (.proc p) → (s.proc q).parent = some p →
        (s.proc q).state ≠ .zombie) := by
  refine ⟨fun i p free sleeping => ⟨fun chan => ?_, fun chan => ?_⟩, fun p free sleeping chan => ?_,
    fun p q free sleeping chan => ?_⟩
  all_goals
    obtain ⟨l, hchan, hcond⟩ := reach.sleeping sleeping
    rw [hchan] at chan
    cases l <;> cases chan
  · have := hcond free
    simpa [Cond, Pipe.empty] using this
  · have := hcond free
    simpa [Cond, Pipe.full] using this
  · exact hcond free
  · exact hcond free q

/-- `initproc` reads from a new, empty pipe and falls asleep. -/
def emptyRead : List Act :=
  [.dispatch initproc, .call initproc (.pipe fun _ => 0), .call initproc (.read 0 1),
    .run initproc, .run initproc, .run initproc, .run initproc]

theorem emptyRead_sleeps :
    ∃ s, TransitionSystem.run step initial emptyRead = some s ∧
      (s.proc initproc).state = .sleeping ∧ (s.proc initproc).chan = some (.nread 0) ∧
      s.holder (.pipe 0) = none ∧ (s.pipe 0).nread = (s.pipe 0).nwrite := by
  have ran : TransitionSystem.run step initial emptyRead = some _ := rfl
  refine ⟨_, ran, rfl, rfl, rfl, ?_⟩
  exact (((no_lost_wakeup (.run (.init initial rfl) ran)).1 0 initproc rfl rfl).1 rfl).1

end SleepWakeup
