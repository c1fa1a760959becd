import PinkyOS.SleepLocks

/-!
# Descriptors of pipe ends

The reference count of an end is the number of descriptors that refer to it. A process inside
`pipewrite` or `piperead` keeps a descriptor, so the end it works on is open.
-/
namespace SleepWakeup
open PipeBuffer

variable {s t u : State} {p q : Slot} {src dest : Pc}

def Code.uses : Code → Option (Nat × Bool)
  | .loop l => l.uses
  | .copy i _ => some (i, false)
  | _ => none

def Pc.uses : Pc → Option (Nat × Bool)
  | .acquiring c => c.uses
  | .inside c => c.uses
  | .waking _ (.sleep l) => l.uses
  | .entering l => l.uses
  | .handing l => l.uses
  | .asleep l => l.uses
  | _ => none

/-- The end that `pipeclose` is about to mark closed. -/
def Pc.closes : Pc → Option (Nat × Bool)
  | .acquiring (.close i w _) => some (i, w)
  | .inside (.close i w _) => some (i, w)
  | _ => none

/-- The process has closed its descriptors for good. -/
def Pc.Gone : Pc → Prop
  | .acquiring .die | .inside .die | .dead => True
  | _ => False

structure Fds (s : State) : Prop where
  uses : ∀ p i w, (s.proc p).pc.uses = some (i, w) → 0 < (s.proc p).fd i w
  count : ∀ i w, s.ref i w = ∑ p, (s.proc p).fd i w
  isOpen : ∀ i w, 0 < s.ref i w → (s.pipe i).isOpen w = true
  closes : ∀ p i w, (s.proc p).pc.closes = some (i, w) → i < s.npipes ∧ s.ref i w = 0
  fresh : ∀ i w, s.npipes ≤ i → s.ref i w = 0
  gone : ∀ p, (s.proc p).pc.Gone → ∀ i w, (s.proc p).fd i w = 0

theorem Fds.fd_le_ref (fds : Fds s) (p : Slot) (i : Nat) (w : Bool) :
    (s.proc p).fd i w ≤ s.ref i w := by
  rw [fds.count]
  exact Finset.single_le_sum (f := fun q => (s.proc q).fd i w) (fun _ _ => Nat.zero_le _)
    (Finset.mem_univ p)

/-- While a process is inside a call on one end of a pipe, the end is open. -/
theorem Fds.open_of_uses (fds : Fds s) {i : Nat} {w : Bool}
    (uses : (s.proc p).pc.uses = some (i, w)) : (s.pipe i).isOpen w = true := by
  have := fds.uses p i w uses
  have := fds.fd_le_ref p i w
  exact fds.isOpen i w (by omega)

section
variable (fds : Fds s) (pc : Pc) (hpc : ∀ q, (t.proc q).pc = if q = p then pc else (s.proc q).pc)
    (hfd : ∀ q, (t.proc q).fd = (s.proc q).fd) (href : t.ref = s.ref) (hn : t.npipes = s.npipes)
include fds pc hpc hfd href hn

/-- Process `p` moves to a control point; descriptors and counts stay. -/
theorem Fds.goto
    (hopen : ∀ i w, 0 < s.ref i w → (s.pipe i).isOpen w = true → (t.pipe i).isOpen w = true)
    (uses : ∀ i w, pc.uses = some (i, w) → 0 < (s.proc p).fd i w)
    (closes : ∀ i w, pc.closes = some (i, w) → i < s.npipes ∧ s.ref i w = 0)
    (gone : pc.Gone → ∀ i w, (s.proc p).fd i w = 0) : Fds t := by
  constructor
  · intro q i w h
    rw [hpc] at h
    rw [hfd]
    split at h
    · next hq => exact hq ▸ uses i w h
    · exact fds.uses q i w h
  · intro i w
    rw [href, fds.count]
    simp only [hfd]
  · intro i w h
    rw [href] at h
    exact hopen i w h (fds.isOpen i w h)
  · intro q i w h
    rw [hpc] at h
    rw [hn, href]
    split at h
    · exact closes i w h
    · exact fds.closes q i w h
  · intro i w h
    rw [hn] at h
    rw [href]
    exact fds.fresh i w h
  · intro q h i w
    rw [hpc] at h
    rw [hfd]
    split at h
    · next hq => exact hq ▸ gone h i w
    · exact fds.gone q h i w

/-- Moves that touch no pipe and do not begin to use or close one. -/
theorem Fds.plain (hpipe : t.pipe = s.pipe) (uses : pc.uses = none ∨ pc.uses = (s.proc p).pc.uses)
    (closes : pc.closes = none ∨ pc.closes = (s.proc p).pc.closes)
    (gone : pc.Gone → (s.proc p).pc.Gone) : Fds t := by
  refine fds.goto pc hpc hfd href hn ?_ ?_ ?_ ?_
  · intro i w _ h
    rw [hpipe]
    exact h
  · intro i w h
    rcases uses with h' | h'
    · rw [h'] at h
      cases h
    · exact fds.uses p i w (h' ▸ h)
  · intro i w h
    rcases closes with h' | h'
    · rw [h'] at h
      cases h
    · exact fds.closes p i w (h' ▸ h)
  · exact fun h => fds.gone p (gone h)

end

theorem isOpen_shut (x : Pipe) {w v : Bool} (h : w ≠ v) : (x.shut v).isOpen w = x.isOpen w := by
  cases w <;> cases v <;> first | rfl | exact absurd rfl h

theorem setPipe_isOpen {x : Pipe} {i : Nat} (same : ∀ w, x.isOpen w = (s.pipe i).isOpen w)
    (j : Nat) (w : Bool) : ((s.setPipe i x).pipe j).isOpen w = (s.pipe j).isOpen w := by
  rw [setPipe_pipe]
  split
  · next h => rw [h, same]
  · rfl

/-- What `exit` does to the other slots leaves their control points and descriptors alone. -/
theorem runDie_pc : ((runDie s p).proc q).pc = if q = p then .dead else (s.proc q).pc := by
  unfold runDie
  split <;> simp only [release_proc, modify_proc] <;> split <;> simp

@[simp] theorem abandon_fd : ((abandon s p).proc q).fd = (s.proc q).fd := by
  apply abandon_induction (I := fun t => (t.proc q).fd = (s.proc q).fd) rfl
  · intro t r h _ _
    rw [modify_proc]
    split <;> simp_all
  · intro t r h _ _
    rw [wakeup1_fd, modify_proc]
    split <;> simp_all

theorem runDie_fd : ((runDie s p).proc q).fd = (s.proc q).fd := by
  unfold runDie
  split <;> simp only [release_proc, modify_proc] <;> split <;> simp_all

theorem abandon_frame : (abandon s p).ref = s.ref ∧ (abandon s p).npipes = s.npipes := by
  apply abandon_induction (I := fun t => t.ref = s.ref ∧ t.npipes = s.npipes) ⟨rfl, rfl⟩
  · intro t r h _ _
    exact h
  · intro t r h _ _
    exact h

theorem runDie_frame : (runDie s p).ref = s.ref ∧ (runDie s p).npipes = s.npipes := by
  unfold runDie
  split <;> simp [abandon_frame]

theorem Back.uses (back : Back) : back.pc.uses = none := by
  cases back <;> rfl

theorem Back.closes (back : Back) : back.pc.closes = none := by
  cases back <;> rfl

theorem Back.not_gone (back : Back) : ¬ back.pc.Gone := by
  cases back <;> exact id

/-- Counts follow when the descriptors of the processes change. -/
theorem count_of_eq {d : Slot → Nat} {i : Nat} {w : Bool} {n : Nat}
    (count : s.ref i w = ∑ q, (s.proc q).fd i w)
    (fd : ∀ q, (t.proc q).fd i w = (s.proc q).fd i w + d q) (sum : ∑ q, d q = n) :
    s.ref i w + n = ∑ q, (t.proc q).fd i w := by
  simp only [fd, Finset.sum_add_distrib, sum, count]

theorem Fds.runFork (fds : Fds s) (base : Base s) {np : Slot}
    (at' : (s.proc p).pc = .forking np) : Fds (runFork s p np) := by
  have hdead := base.pc_dead (.inr (.inl (base.embryo p np at')))
  have hzero := fds.gone np (by rw [hdead]; trivial)
  have hne : p ≠ np := by
    rintro rfl
    rw [at'] at hdead
    cases hdead
  have hpc : ∀ q, ((SleepWakeup.runFork s p np).proc q).pc =
      if q = p ∨ q = np then .user else (s.proc q).pc := by
    intro q
    rw [runFork_proc hne]
    grind
  have hfd : ∀ q i w, ((SleepWakeup.runFork s p np).proc q).fd i w =
      (s.proc q).fd i w + if q = np then (s.proc p).fd i w else 0 := by
    intro q i w
    have := hzero i w
    rw [runFork_proc hne]
    grind
  have href : ∀ i w, (SleepWakeup.runFork s p np).ref i w = s.ref i w + (s.proc p).fd i w := by
    intro i w
    change s.ref i w + ((s.modify np _).proc p).fd i w = _
    rw [modify_of_ne _ _ _ _ hne]
  constructor
  · intro q i w h
    rw [hpc] at h
    split at h
    · cases h
    · next hq =>
      rw [hfd]
      have := fds.uses q i w h
      omega
  · intro i w
    rw [href]
    exact count_of_eq (fds.count i w) (fun q => hfd q i w) (by simp)
  · intro i w h
    rw [href] at h
    have := fds.fd_le_ref p i w
    exact fds.isOpen i w (by omega)
  · intro q i w h
    rw [hpc] at h
    split at h
    · cases h
    · obtain ⟨hlt, hzero⟩ := fds.closes q i w h
      have := fds.fd_le_ref p i w
      rw [href]
      exact ⟨hlt, by omega⟩
  · intro i w h
    have := fds.fresh i w h
    have := fds.fd_le_ref p i w
    rw [href]
    omega
  · intro q h i w
    rw [hpc] at h
    split at h
    · cases h
    · next hq =>
      rw [hfd, if_neg fun e => hq (.inr e)]
      exact fds.gone q h i w

theorem Fds.modify (fds : Fds s) (pc : ∀ q, (t.proc q).pc = (s.proc q).pc)
    (more : ∀ q i w, (s.proc q).fd i w ≤ (t.proc q).fd i w)
    (count : ∀ i w, t.ref i w = ∑ q, (t.proc q).fd i w)
    (isOpen : ∀ i w, 0 < t.ref i w → (t.pipe i).isOpen w = true)
    (npipes : s.npipes ≤ t.npipes) (fresh : ∀ i w, t.npipes ≤ i → t.ref i w = 0)
    (old : ∀ i w, i < s.npipes → s.ref i w = 0 → t.ref i w = 0)
    (gone : ∀ q, (s.proc q).pc.Gone → (t.proc q).fd = (s.proc q).fd) : Fds t := by
  constructor
  · intro q i w h
    rw [pc] at h
    exact Nat.lt_of_lt_of_le (fds.uses q i w h) (more q i w)
  · exact count
  · exact isOpen
  · intro q i w h
    rw [pc] at h
    obtain ⟨hlt, hzero⟩ := fds.closes q i w h
    exact ⟨Nat.lt_of_lt_of_le hlt npipes, old i w hlt hzero⟩
  · exact fresh
  · intro q h i w
    rw [pc] at h
    rw [gone q h]
    exact fds.gone q h i w

theorem addFd_apply (x : Proc) (i j : Nat) (w v : Bool) :
    (x.addFd i w).fd j v = x.fd j v + if j = i ∧ v = w then 1 else 0 := by
  simp only [Proc.addFd, Function.update_apply]
  grind

theorem setRef_apply (i j : Nat) (w v : Bool) (n : Nat) :
    (s.setRef i w n).ref j v = if j = i ∧ v = w then n else s.ref j v := by
  simp only [State.setRef, Function.update_apply]
  grind

theorem Fds.dup (fds : Fds s) (user : (s.proc p).pc = .user) {i : Nat} {w : Bool}
    (held : 0 < (s.proc p).fd i w) :
    Fds ((s.modify p fun x => x.addFd i w).setRef i w (s.ref i w + 1)) := by
  have hfd : ∀ q j v, ((s.modify p fun x => x.addFd i w).proc q).fd j v =
      (s.proc q).fd j v + if q = p then if j = i ∧ v = w then 1 else 0 else 0 := by
    intro q j v
    rw [modify_proc]
    split
    · next h => rw [addFd_apply, h]
    · rfl
  have href := fun j v => setRef_apply (s := s.modify p fun x => x.addFd i w) i j w v
    (s.ref i w + 1)
  have hle := fds.fd_le_ref p i w
  refine fds.modify (fun q => ?_) (fun q j v => ?_) (fun j v => ?_) (fun j v h => ?_) le_rfl
    (fun j v h => ?_) (fun j v _ h => ?_) (fun q h => ?_)
  · rw [setRef_proc, modify_proc]
    split
    · next h => rw [h]; rfl
    · rfl
  · rw [setRef_proc, hfd]
    omega
  · have sum := count_of_eq (fds.count j v) (t := s.modify p fun x => x.addFd i w)
      (fun q => hfd q j v) (n := if j = i ∧ v = w then 1 else 0) (by simp)
    rw [href, setRef_proc, ← sum]
    split
    · next h => rw [h.1, h.2]
    · rfl
  · rw [href] at h
    split at h
    · next e =>
      rw [e.1, e.2]
      exact fds.isOpen i w (by omega)
    · exact fds.isOpen j v h
  · rw [href]
    have := fds.fresh j v h
    split
    · next e =>
      rw [e.1, e.2] at this
      omega
    · exact this
  · rw [href]
    split
    · next e =>
      rw [e.1, e.2] at h
      omega
    · exact h
  · rw [setRef_proc, modify_proc]
    split
    · next e =>
      rw [e, user] at h
      cases h
    · rfl

theorem Fds.sysPipe (fds : Fds s) (user : (s.proc p).pc = .user) (data : Nat → UInt8) :
    Fds (sysPipe s p data) := by
  have hproc : (SleepWakeup.sysPipe s p data).proc = (s.modify p fun x =>
      (x.addFd s.npipes true).addFd s.npipes false).proc := rfl
  have hfd : ∀ q j v, ((SleepWakeup.sysPipe s p data).proc q).fd j v =
      (s.proc q).fd j v + if q = p then if j = s.npipes then 1 else 0 else 0 := by
    intro q j v
    rw [hproc, modify_proc]
    split
    · next h =>
      rw [addFd_apply, addFd_apply, h]
      cases v <;> simp
    · rfl
  have href : ∀ j v, (SleepWakeup.sysPipe s p data).ref j v =
      s.ref j v + if j = s.npipes then 1 else 0 := by
    intro j v
    change State.ref (State.setRef _ _ _ _) j v = _
    rw [setRef_apply, setRef_apply]
    by_cases hj : j = s.npipes
    · have := fds.fresh j v hj.ge
      cases v <;> simp [hj] <;> simp_all
    · simp [hj]
  refine fds.modify (fun q => ?_) (fun q j v => ?_) (fun j v => ?_) (fun j v hpos => ?_)
    (Nat.le_succ _) (fun j v hj => ?_) (fun j v hj h => ?_) (fun q h => ?_)
  · rw [hproc, modify_proc]
    split
    · next h => rw [h]; rfl
    · rfl
  · rw [hfd]
    omega
  · rw [href]
    exact count_of_eq (fds.count j v) (fun q => hfd q j v) (by simp)
  · rw [href] at hpos
    change ((s.setPipe s.npipes (Pipe.alloc data)).pipe j).isOpen v = true
    rw [setPipe_pipe]
    split
    · cases v <;> rfl
    · next hj =>
      rw [if_neg hj] at hpos
      exact fds.isOpen j v hpos
  · have hj' : s.npipes + 1 ≤ j := hj
    rw [href, if_neg (by omega), fds.fresh j v (by omega)]
  · rw [href, if_neg (by omega), h]
  · rw [hproc, modify_of_ne]
    rintro rfl
    rw [user] at h
    cases h

theorem dropFd_apply (x : Proc) (i j : Nat) (w v : Bool) :
    (x.dropFd i w).fd j v = x.fd j v - if j = i ∧ v = w then 1 else 0 := by
  simp only [Proc.dropFd, Function.update_apply]
  grind

theorem Fds.close (fds : Fds s) (back : Back) {i : Nat} {w : Bool}
    (held : 0 < (s.proc p).fd i w) (next : dest = back.pc ∨
      dest = .acquiring (.close i w back) ∧ s.ref i w - 1 = 0) :
    Fds (((s.modify p fun x => x.dropFd i w).setRef i w (s.ref i w - 1)).goto p dest) := by
  have hle := fds.fd_le_ref p i w
  have hlt : i < s.npipes := by
    by_contra h
    have := fds.fresh i w (Nat.le_of_not_lt h)
    omega
  have huses : dest.uses = none := by
    rcases next with rfl | ⟨rfl, -⟩
    · exact back.uses
    · rfl
  have hgone : ¬ dest.Gone := by
    rcases next with rfl | ⟨rfl, -⟩
    · exact back.not_gone
    · exact id
  have hpc : ∀ q, ((((s.modify p fun x => x.dropFd i w).setRef i w (s.ref i w - 1)).goto p
      dest).proc q).pc = if q = p then dest else (s.proc q).pc := by
    intro q
    rw [goto_pc, setRef_proc, modify_proc]
    split <;> rfl
  have hfd : ∀ q j v, (s.proc q).fd j v = ((((s.modify p fun x => x.dropFd i w).setRef i w
      (s.ref i w - 1)).goto p dest).proc q).fd j v +
      if q = p then if j = i ∧ v = w then 1 else 0 else 0 := by
    intro q j v
    rw [goto_fd, setRef_proc, modify_proc]
    split
    · next h =>
      subst h
      rw [dropFd_apply]
      split
      · next e =>
        rw [e.1, e.2]
        omega
      · rfl
    · rfl
  have href : ∀ j v, (((s.modify p fun x => x.dropFd i w).setRef i w (s.ref i w - 1)).goto p
      dest).ref j v = s.ref j v - if j = i ∧ v = w then 1 else 0 := by
    intro j v
    rw [goto_ref, setRef_apply]
    split
    · next e => rw [e.1, e.2]
    · rfl
  constructor
  · intro q j v h
    rw [hpc] at h
    split at h
    · rw [huses] at h
      cases h
    · next hq =>
      have := fds.uses q j v h
      have := hfd q j v
      rw [if_neg hq] at this
      omega
  · intro j v
    have sum := fds.count j v
    simp only [hfd, Finset.sum_add_distrib, Finset.sum_ite_eq', Finset.mem_univ, if_true] at sum
    rw [href]
    omega
  · intro j v h
    rw [href] at h
    exact fds.isOpen j v (by omega)
  · intro q j v h
    rw [hpc] at h
    rw [href]
    split at h
    · rcases next with rfl | ⟨rfl, last⟩
      · rw [back.closes] at h
        cases h
      · cases h
        exact ⟨hlt, by simpa using last⟩
    · obtain ⟨hlt, hzero⟩ := fds.closes q j v h
      exact ⟨hlt, by omega⟩
  · intro j v h
    have := fds.fresh j v h
    rw [href]
    omega
  · intro q h j v
    rw [hpc] at h
    split at h
    · exact absurd h hgone
    · have := fds.gone q h j v
      have := hfd q j v
      omega

/-! ### Every step -/

theorem Flow.uses (flow : Flow s p src dest) {i : Nat} {w : Bool}
    (h : dest.uses = some (i, w)) : src.uses = some (i, w) ∨ 0 < (s.proc p).fd i w := by
  cases flow with
  | enter held => exact .inr (held i w h)
  | _ => first | exact .inl h | cases h

section
variable (edge : Edge s p src dest t)
include edge

theorem Edge.uses {i : Nat} {w : Bool}
    (h : dest.uses = some (i, w)) : src.uses = some (i, w) ∨ 0 < (s.proc p).fd i w := by
  cases edge with
  | stay flow => exact flow.uses h
  | pipe flow => cases flow <;> exact .inl h
  | acquire => exact .inl h
  | hand => exact .inl h
  | @wake ch after _ _ next =>
    subst next
    rcases after with ⟨lk, back⟩ | l
    · rw [back.uses] at h
      cases h
    · exact .inl h
  | _ => cases h

theorem Edge.closes {i : Nat} {w : Bool}
    (h : dest.closes = some (i, w)) : src.closes = some (i, w) := by
  cases edge with
  | stay flow => cases flow <;> cases h
  | pipe flow => cases flow <;> cases h
  | @acquire c => cases c <;> exact h
  | @wake ch after _ _ next =>
    subst next
    rcases after with ⟨lk, back⟩ | l
    · rw [back.closes] at h
      cases h
    · cases h
  | _ => cases h

theorem Edge.gone (h : dest.Gone) : src.Gone ∨ ∀ i < s.npipes, ∀ w, (s.proc p).fd i w = 0 := by
  cases edge with
  | stay flow =>
    cases flow with
    | closed none => exact .inr none
    | _ => cases h
  | pipe flow => cases flow <;> cases h
  | @acquire c => cases c <;> exact .inl h
  | @wake ch after _ _ next =>
    subst next
    rcases after with ⟨lk, back⟩ | l
    · exact absurd h back.not_gone
    · cases h
  | _ => cases h

/-- Only `pipeclose` marks an end closed. -/
theorem Edge.isOpen (j : Nat) (v : Bool) :
    (t.pipe j).isOpen v = (s.pipe j).isOpen v ∨ src.closes = some (j, v) := by
  cases edge with
  | pipe flow =>
    cases flow with
    | store | take => exact .inl (setPipe_isOpen (s := s) (by intro; rfl) j v)
    | @shut w back =>
      rw [goto_pipe, setPipe_pipe]
      split
      · next i hj =>
        subst hj
        by_cases hv : v = w
        · exact .inr (hv ▸ rfl)
        · exact .inl (isOpen_shut _ hv)
      · exact .inl rfl
  | @wake ch after =>
    rcases after with ⟨_ | lk, back⟩ | l <;> exact .inl rfl
  | _ => exact .inl rfl

end

theorem Fds.edge (fds : Fds s) (move : Move s p dest t) (at' : (s.proc p).pc = src)
    (edge : Edge s p src dest t) : Fds t := by
  subst at'
  refine fds.goto dest move.pc move.fd move.ref move.npipes ?_ ?_ ?_ ?_
  · intro i w pos h
    rcases edge.isOpen i w with e | e
    · rw [e, h]
    · have := (fds.closes p i w e).2
      omega
  · intro i w h
    rcases edge.uses h with h | h
    · exact fds.uses p i w h
    · exact h
  · intro i w h
    exact fds.closes p i w (edge.closes h)
  · intro h i w
    rcases edge.gone h with h | h
    · exact fds.gone p h i w
    · by_cases hi : i < s.npipes
      · exact h i hi w
      · have := fds.fresh i w (Nat.le_of_not_lt hi)
        have := fds.fd_le_ref p i w
        omega

/-- A slot changes in other fields than its descriptors, and a process moves. -/
theorem Fds.modifyGoto (fds : Fds s) {f : Proc → Proc} (pc : (f (s.proc q)).pc = (s.proc q).pc)
    (fd : (f (s.proc q)).fd = (s.proc q).fd) (proc : u.proc = (s.modify q f).proc)
    (href : u.ref = s.ref) (hn : u.npipes = s.npipes) (hpipe : u.pipe = s.pipe)
    (uses : dest.uses = none ∨ dest.uses = (s.proc p).pc.uses)
    (closes : dest.closes = none ∨ dest.closes = (s.proc p).pc.closes)
    (gone : dest.Gone → (s.proc p).pc.Gone) : Fds (u.goto p dest) := by
  refine fds.plain dest (fun r => ?_) (fun r => ?_) href hn hpipe uses closes gone
  · rw [goto_pc, proc, modify_proc]
    grind
  · rw [goto_fd, proc, modify_proc]
    grind

theorem Fds.slot (fds : Fds s) {f : Proc → Proc} (pc : (f (s.proc q)).pc = (s.proc q).pc)
    (fd : (f (s.proc q)).fd = (s.proc q).fd) : Fds (s.modify q f) := by
  refine fds.plain (p := q) (s.proc q).pc (fun r => ?_) (fun r => ?_) rfl rfl rfl (.inr rfl)
    (.inr rfl) id
  · rw [modify_proc]
    grind
  · rw [modify_proc]
    grind

theorem Fds.step (fds : Fds s) (base : Base s) (h : Step s t) : Fds t := by
  cases h with
  | same => exact fds
  | edge _ at' edge => exact fds.edge (edge.move base at') at' edge
  | @sleep p l _ at' =>
    refine fds.plain (p := p) (.asleep l) (fun q => ?_) (fun q => ?_) rfl rfl rfl
      (.inr (by rw [at']; rfl)) (.inl rfl) nofun
    · rw [release_proc, modify_proc]
      split <;> rfl
    · rw [release_proc, modify_proc]
      split <;> simp_all
  | @die p _ at' =>
    refine fds.plain (p := p) .dead (fun _ => runDie_pc) (fun _ => runDie_fd) runDie_frame.1
      runDie_frame.2 runDie_pipe (.inl rfl) (.inl rfl) fun _ => ?_
    rw [at']
    trivial
  | reap =>
    exact fds.modifyGoto (by rfl) (by rfl) (release_proc ..) rfl rfl rfl (.inl rfl) (.inl rfl) nofun
  | startFork => exact fds.modifyGoto (s := s) (by rfl) (by rfl) rfl rfl rfl rfl (.inl rfl) (.inl rfl) nofun
  | fork at' => exact fds.runFork base at'
  | nomem => exact fds.modifyGoto (s := s) (by rfl) (by rfl) rfl rfl rfl rfl (.inl rfl) (.inl rfl) nofun
  | dup user held => exact fds.dup user held
  | pipe user data => exact fds.sysPipe user data
  | close _ back _ held next => exact fds.close back held next
  | kill q => exact fds.slot rfl rfl
  | @resume p l _ asleep =>
    exact fds.modifyGoto (s := s) (by rfl) (by rfl) rfl rfl rfl rfl (.inr (by rw [asleep]; rfl))
      (.inl (by cases l <;> rfl)) nofun
  | @resumeWait p l _ asleep =>
    exact fds.modifyGoto (by rfl) (by rfl) (acquire_proc ..) rfl rfl rfl
      (.inr (by rw [asleep]; rfl)) (.inl (by cases l <;> rfl)) nofun
  | schedule => exact fds.slot rfl rfl

end SleepWakeup
