import PinkyOS.ProcessTable

/-!
# Whom `kill` hits

`kill` takes the first slot of the table with the given pid and does not look at its state. A free
slot has pid 0 after `wait` and at boot, and the pid of a `fork` that failed after that; and nothing
clears the flag of a free slot when it is taken again.
-/
namespace ProcessTable
open Function TransitionSystem
open SleepWakeup (nproc Slot ProcState)

variable {s t : State} {p q np : Slot} {a : Act} {pid : Int}

/-- The slot at which the loop of `kill` stops. -/
def killSlot (s : State) (pid : Int) : Option Slot :=
  (List.finRange nproc).find? fun q => (s.proc q).pid = pid

/-- What `kill` returns. -/
def killResult (s : State) (pid : Int) : Int := if (killSlot s pid).isSome then 0 else -1

/-- `kill` hits exactly the process with this pid. -/
structure KillExact (s : State) (pid : Int) : Prop where
  returns : killResult s pid = 0 ↔ ∃ q, (s.proc q).state ≠ .unused ∧ (s.proc q).pid = pid
  /-- Only the slot of the process changes. -/
  hits : killResult s pid = 0 → ∃ q, (s.proc q).state ≠ .unused ∧ (s.proc q).pid = pid ∧
    (kill s pid).proc = Function.update s.proc q (s.proc q).kill
  misses : killResult s pid ≠ 0 → killResult s pid = -1 ∧ (kill s pid).proc = s.proc

/-- The first slot with this pid is not free. (Or it has its flag set already, and so has a process
of the same pid that is not asleep: then `kill` changes nothing, and has nothing to change. Pids
have to wrap around for two slots to have the same one.) -/
def KillSafe (s : State) (pid : Int) : Prop :=
  ∀ q, killSlot s pid = some q → (s.proc q).state ≠ .unused ∨
    (s.proc q).killed = true ∧ ∃ r, (s.proc r).state ≠ .unused ∧ (s.proc r).pid = pid ∧
      (s.proc r).killed = true ∧ (s.proc r).state ≠ .sleeping

theorem proc_kill_of_some (found : killSlot s pid = some q) :
    (kill s pid).proc = update s.proc q (s.proc q).kill := by
  rw [killSlot] at found
  rw [kill, found]
  rfl

theorem proc_kill_of_none (missing : killSlot s pid = none) : (kill s pid).proc = s.proc := by
  rw [killSlot] at missing
  rw [kill, missing]

theorem pid_killSlot (found : killSlot s pid = some q) : (s.proc q).pid = pid := by
  simpa using List.find?_some found

theorem pid_ne_of_none (missing : killSlot s pid = none) (q : Slot) : (s.proc q).pid ≠ pid := by
  simpa using List.find?_eq_none.mp missing q (List.mem_finRange q)

/-- Killing changes nothing for one who is killed already and not asleep. -/
theorem kill_eq_self_iff (x : Proc) : x.kill = x ↔ x.killed = true ∧ x.state ≠ .sleeping := by
  obtain ⟨state, pid, parent, killed⟩ := x
  by_cases asleep : state = .sleeping
  · simp [Proc.kill, asleep]
  · simp [Proc.kill, asleep, eq_comm]

theorem kill_exact_iff (s : State) (pid : Int) : KillExact s pid ↔ KillSafe s pid := by
  cases found : killSlot s pid with
  | none =>
    have result : killResult s pid = -1 := by simp [killResult, found]
    have safe : KillSafe s pid := by
      intro q other
      rw [found] at other
      cases other
    refine iff_of_true ⟨?_, ?_, ?_⟩ safe
    · rw [result]
      refine iff_of_false (by decide) ?_
      rintro ⟨q, _, same⟩
      exact pid_ne_of_none found q same
    · intro zero
      rw [result] at zero
      cases zero
    · exact fun _ => ⟨result, proc_kill_of_none found⟩
  | some q =>
    have result : killResult s pid = 0 := by simp [killResult, found]
    have change := proc_kill_of_some found
    have named := pid_killSlot found
    have safe : KillSafe s pid ↔ (s.proc q).state ≠ .unused ∨
        (s.proc q).killed = true ∧ ∃ r, (s.proc r).state ≠ .unused ∧ (s.proc r).pid = pid ∧
          (s.proc r).killed = true ∧ (s.proc r).state ≠ .sleeping := by
      simp [KillSafe, found]
    rw [safe]
    constructor
    · intro exact
      by_cases live : (s.proc q).state ≠ .unused
      · exact .inl live
      · obtain ⟨r, used, same, only⟩ := exact.hits result
        have other : r ≠ q := by
          rintro rfl
          exact live used
        have here := congrFun (change.symm.trans only) q
        have there := congrFun (change.symm.trans only) r
        rw [update_self, update_of_ne other.symm] at here
        rw [update_of_ne other, update_self] at there
        exact .inr ⟨((kill_eq_self_iff _).mp here).1, r, used, same,
          (kill_eq_self_iff _).mp there.symm⟩
    · intro condition
      by_cases live : (s.proc q).state ≠ .unused
      · refine ⟨iff_of_true result ⟨q, live, named⟩, fun _ => ⟨q, live, named, change⟩, ?_⟩
        exact fun other => absurd result other
      · obtain ⟨flag, r, used, same, killed⟩ := condition.resolve_left live
        have awake : (s.proc q).state ≠ .sleeping := by simp_all
        refine ⟨iff_of_true result ⟨r, used, same⟩, fun _ => ⟨r, used, same, ?_⟩,
          fun other => absurd result other⟩
        rw [change, (kill_eq_self_iff _).mpr ⟨flag, awake⟩, (kill_eq_self_iff _).mpr killed,
          update_eq_self, update_eq_self]

/-! ### The children of `fork` -/

/-- `kill` finds no slot that is free or that a `fork` is still filling. -/
def Aimed (s : State) : Act → Prop
  | .kill _ pid => ∀ q, killSlot s pid = some q →
      (s.proc q).state ≠ .unused ∧ (s.proc q).state ≠ .embryo
  | _ => True

instance (s : State) : (a : Act) → Decidable (Aimed s a)
  | .kill _ pid => inferInstanceAs (Decidable (∀ q, killSlot s pid = some q →
      (s.proc q).state ≠ .unused ∧ (s.proc q).state ≠ .embryo))
  | .userinit | .fork _ | .stack .. | .copy .. | .ready _ | .exit _ | .wait _ | .schedule .. =>
    isTrue trivial

def aimedStep (s : State) (a : Act) : Option State :=
  if Aimed s a then step s a else none

/-- Whoever does not live yet is not killed. -/
def Unharmed (s : State) : Prop :=
  ∀ q, (s.proc q).state = .unused ∨ (s.proc q).state = .embryo → (s.proc q).killed = false

theorem Unharmed.kill (unharmed : Unharmed s) (aimed : Aimed s (.kill p pid))
    (next : ProcessTable.step s (.kill p pid) = some t) : Unharmed t := by
  simp only [ProcessTable.step, Option.ite_none_right_eq_some, Option.some.injEq] at next
  obtain ⟨_, rfl⟩ := next
  intro q young
  cases found : killSlot s pid with
  | none =>
    rw [proc_kill_of_none found] at young ⊢
    exact unharmed q young
  | some r =>
    obtain ⟨used, born⟩ := aimed r found
    rw [proc_kill_of_some found, update_apply] at young ⊢
    split_ifs at young ⊢ with here
    · grind [Proc.kill]
    · exact unharmed q young

theorem Unharmed.step (unharmed : Unharmed s) (kin : Kinship s) (aimed : Aimed s a)
    (next : step s a = some t) : Unharmed t := by
  intro q young
  have before := unharmed q
  cases step_move next with
  | userinit np boot free => grind [unusedSlot_some]
  | take p np runs user free => grind [unusedSlot_some]
  | abort _ p np child early fails => grind [abortFork, (kin.forking p np child).1]
  | exit p t runs user done =>
    obtain ⟨-, -, -, -, -, -, proc⟩ := exit_spec done
    grind [adopted]
  | kill p r runs => exact unharmed.kill aimed next q young
  | schedule p state lived lives => grind [alive]
  | _ => grind

theorem aimed_unharmed (reach : TransitionSystem.Reachable (· = start) aimedStep s) :
    Kinship s ∧ Unharmed s := by
  refine reach.invariant (I := fun s => Kinship s ∧ Unharmed s) ?_ ?_
  · rintro s rfl
    exact ⟨kinship_start, fun _ _ => rfl⟩
  · rintro s a t ⟨kin, unharmed⟩ next
    obtain ⟨aimed, next⟩ := Option.ite_none_right_eq_some.mp next
    exact ⟨kin.step (step_move next), unharmed.step kin aimed next⟩

/-- `kill` hits exactly the process it names if and only if the first slot with its pid is in use;
and in the runs in which every `kill` finds a process that lives, or none, the children of `fork`
start with their flag clear. -/
theorem kill_hits_named (s : State) (pid : Int) :
    (KillExact s pid ↔ KillSafe s pid) ∧
      ∀ p np t, TransitionSystem.Reachable (· = start) aimedStep s → s.pc p = .ready np →
        step s (.ready p) = some t →
          (t.proc np).state = .runnable ∧ (t.proc np).killed = false := by
  refine ⟨kill_exact_iff s pid, ?_⟩
  intro p np t reach last next
  obtain ⟨kin, unharmed⟩ := aimed_unharmed reach
  have embryo := (kin.forking p np (by rw [last, Pc.child])).1
  have clear := unharmed np (.inr embryo)
  rw [step, last] at next
  split_ifs at next
  cases next
  simp [clear]

/-- The first steps of `init`, up to the last store of its first `fork`. -/
def firstFork : List Act :=
  [.userinit, .schedule 0 .running, .fork 0, .stack 0 true, .copy 0 true]

theorem firstFork_ends : (run aimedStep start firstFork).isSome := by
  decide +kernel

theorem first_child_clear : ∃ s t, TransitionSystem.run aimedStep start firstFork = some s ∧
    step s (.ready 0) = some t ∧ (t.proc 1).state = .runnable ∧ (t.proc 1).killed = false := by
  have ran := Option.eq_some_of_isSome firstFork_ends
  have ends : (step ((TransitionSystem.run aimedStep start firstFork).get firstFork_ends)
    (.ready 0)).isSome := by decide +kernel
  have next := Option.eq_some_of_isSome ends
  refine ⟨_, _, ran, next, ?_⟩
  exact (kill_hits_named _ 0).2 0 1 _ (.run (.init start rfl) ran) (by decide +kernel) next

/-- `init` runs. -/
def bootRun : List Act := [.userinit, .schedule 0 .running]

theorem bootRun_ends : (run step start bootRun).isSome := by
  decide +kernel

def booted : State := (TransitionSystem.run step start bootRun).get bootRun_ends

/-- `init` calls `kill(0)`, which no process has as its pid, and forks. -/
def strayRun : List Act := [.kill 0 0, .fork 0, .stack 0 true, .copy 0 true, .ready 0]

theorem strayRun_ends : (run step booted strayRun).isSome := by
  decide +kernel

/-- `kill(0)` returns 0 and flags the free slot 1; the child that is then forked gets this slot and
starts with its flag set. -/
theorem stray_kill_flags_child : ∃ t, Reachable booted ∧
    (∀ q, (booted.proc q).state ≠ .unused → (booted.proc q).pid ≠ 0) ∧
    killResult booted 0 = 0 ∧ (booted.proc 1).killed = false ∧
    ((kill booted 0).proc 1).killed = true ∧
    TransitionSystem.run step booted strayRun = some t ∧
    (t.proc 1).state = .runnable ∧ (t.proc 1).killed = true := by
  have ran : TransitionSystem.run step start bootRun = some booted :=
    Option.eq_some_of_isSome bootRun_ends
  refine ⟨_, .run (.init start rfl) ran, ?_, ?_, ?_, ?_, Option.eq_some_of_isSome strayRun_ends,
    ?_, ?_⟩ <;> decide +kernel

end ProcessTable
