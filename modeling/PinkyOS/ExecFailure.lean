import PinkyOS.Sbrk

/-!
# A failed `exec`

`exec` builds the new image in fresh frames, so that a failure leaves the old image alone. But
the two argument registers are stored before the last check, `syscall` does not store the result
of `exec`, and `uva2ka` may take a word of the caller for a page table entry.
-/
namespace UserMemory
open MemoryLayout BuddyHeap Ledger ByteBuffer

/-! ### The system call -/

def sysExecNum : Nat := 7

/-- `sys_exec`, which returns -1 if it cannot fetch the path and the arguments. -/
def sysExec (s : State) (p : SleepWakeup.Slot) : Option Program → Except Fault (State × Int)
  | none => .ok (s, -1)
  | some prog => do
    let (s, ok) ← exec s p prog
    return (s, if ok then 0 else -1)

/-- `syscall` of a process whose `r0` is the number of `handler`, with the result of the handler.
The result goes to `r0` unless the call is `SYS_exec`. -/
def syscall (s : State) (p : SleepWakeup.Slot)
    (handler : State → SleepWakeup.Slot → Except Fault (State × Int)) :
    Except Fault (State × Int) := do
  let num := (s.proc p).tf.r0
  let (s, ret) ← handler s p
  if num ≠ sysExecNum then
    let x := s.proc p
    return (s.setProc p { x with tf := { x.tf with r0 := (ret % 2 ^ 64).toNat } }, ret)
  else
    return (s, ret)

/-- A failed call changes nothing but `r0`, which is -1. -/
structure FailsCleanly (s t : State) (p : SleepWakeup.Slot) : Prop where
  pgdir : (t.proc p).pgdir = (s.proc p).pgdir
  memory : ∀ k, t.userPage p k = s.userPage p k
  size : (t.proc p).sz = (s.proc p).sz
  name : (t.proc p).name = (s.proc p).name
  tf : (t.proc p).tf = { (s.proc p).tf with r0 := 2 ^ 64 - 1 }

/-! ### Frames of others -/

section
variable {rest : Finset (Nat × Nat)} {Ω : Type} {site : Entry → Ω} {own own' : Ω → Option Nat}
  {v v' : Vm} {d : Pgd} {F : Finset Nat} {cur : Option Pgd}

theorem Ends.and {α : Type} {P Q : α → Prop} {m : Except Fault α} (first : Ends P m)
    (second : Ends Q m) : Ends (fun a => P a ∧ Q a) m := by
  cases first with
  | ok holds => exact .ok ⟨holds, second.of_ok rfl⟩
  | fault other => exact .fault other

/-- The frames `F` are held by owners other than the entries of the tree. -/
def Foreign (site : Entry → Ω) (own : Ω → Option Nat) (F : Finset Nat) : Prop :=
  ∀ q ∈ F, ∃ o, (∀ x, site x ≠ o) ∧ own o = some q

/-- The frames `F` have the bytes they had. -/
def Spares (F : Finset Nat) (v v' : Vm) : Prop :=
  ∀ q ∈ F, v'.read q pteSz = v.read q pteSz

theorem Spares.trans {u : Vm} (first : Spares F v v') (second : Spares F v' u) : Spares F v u :=
  fun q listed => (second q listed).trans (first q listed)

theorem Foreign.used (foreign : Foreign site own F) (keeps : Keeps rest site own v d) {q : Nat}
    (listed : q ∈ F) : q ∈ v.pages := by
  obtain ⟨o, -, owned⟩ := foreign q listed
  exact keeps.balanced.live o q owned

/-- A store to a frame of the tree. -/
theorem Foreign.spares (foreign : Foreign site own F) (keeps : Keeps rest site own v d) {x : Entry}
    {f a : Nat} {bs : List UInt8} (entry : frameAt d x = some f) (low : f ≤ a)
    (high : a + bs.length ≤ f + pteSz) : Spares F v (v.write a bs) := by
  intro q listed
  obtain ⟨o, other, owned⟩ := foreign q listed
  have held : own (site x) = some f := (keeps.view x).trans entry
  have apart : f ≠ q := by
    rintro rfl
    exact other x (keeps.balanced.once _ _ f held owned)
  have frames := keeps.sound.frames_apart (keeps.balanced.live _ _ held)
    (keeps.balanced.live _ _ owned) apart
  exact read_write_outside (by omega)

/-- What `readi` returns is no longer than what it was asked for. -/
def Bounded (file : File) : Prop := ∀ off n bs, file off n = some bs → bs.length ≤ n

theorem loadFrom_spares {addr offset i sz : Nat} {file : File} (bounded : Bounded file)
    (foreign : Foreign site own F) (keeps : Keeps rest site own v d) :
    Ends (fun r => Spares F v r.1) (loadFrom v d addr file offset i sz) := by
  have store : ∀ {v : Vm} {i n : Nat} {pt : Pt} {bs : List UInt8} {e : Pte},
      Keeps rest site own v d → walkpgdir d (addr + i) = some pt →
      pt (pteIdx (addr + i)) = some e → file ((offset + i) % 2 ^ 32) n = some bs → n ≤ pteSz →
      Spares F v (v.write (p2v e.pa) bs) := by
    intro v i n pt bs e keeps table entry read small
    have frame : frameAt d (entryOf (addr + i)) = some (p2v e.pa) := by
      rw [frameAt, ← getPte_eq, getPte, table, Option.bind_some, entry]
      rfl
    have length := bounded _ _ _ read
    exact foreign.spares keeps frame (Nat.le_refl _) (by omega)
  have chunk : ∀ i, (if sz - i < pteSz then sz - i else pteSz) ≤ pteSz := by
    intro i
    split <;> omega
  fun_induction loadFrom v d addr file offset i sz with
  | case1 => exact .fault (by simp)
  | case2 => exact .ok fun _ _ => rfl
  | case3 => exact .ok fun _ _ => rfl
  | case4 => exact .fault (by simp)
  | case5 v i more pt table n bs e entry read v' short =>
    exact .ok (store keeps table entry read (chunk i))
  | case6 v i more pt table n bs e entry read v' full ih =>
    have spared := store keeps table entry read (chunk i)
    exact (ih (keeps.write ..)).mono fun r later => spared.trans later
  | case7 => exact .ok fun _ _ => rfl

theorem loaduvm_spares {addr offset sz : Nat} {file : File} (bounded : Bounded file)
    (foreign : Foreign site own F) (keeps : Keeps rest site own v d) :
    Ends (fun r => Spares F v r.1) (loaduvm v d addr file offset sz) := by
  rw [loaduvm]
  split
  · exact .fault (by simp)
  · exact loadFrom_spares bounded foreign keeps

/-- The word at address 0 of the caller would not pass for an entry of a user page. -/
def Inert (v : Vm) (cur : Option Pgd) : Prop :=
  ∀ w, wordAtZero v cur = some w → entryAddr w = none

/-- The page at address 0 of the caller is one of the frames `F`. -/
def Based (cur : Option Pgd) (F : Finset Nat) : Prop :=
  ∀ c e, cur = some c → getPte c 0 = some e → p2v e.pa ∈ F

theorem read_take {a m n : Nat} (less : m ≤ n) : v.read a m = (v.read a n).take m := by
  rw [Vm.read, Vm.read, ← List.map_take, List.take_range, Nat.min_eq_left less]

theorem Inert.spared (inert : Inert v cur) (based : Based cur F) (spared : Spares F v v') :
    Inert v' cur := by
  intro w word
  obtain ⟨c, isCur, rest⟩ := Option.bind_eq_some_iff.mp word
  obtain ⟨e, entry, bytes⟩ := Option.map_eq_some_iff.mp rest
  apply inert w
  have same : v.read (p2v e.pa) 8 = v'.read (p2v e.pa) 8 := by
    rw [read_take (show 8 ≤ pteSz by decide), read_take (show 8 ≤ pteSz by decide),
      spared _ (based c e isCur entry)]
  rw [wordAtZero, isCur, Option.bind_some, entry, Option.map_some, same, bytes]

/-- What `uva2ka` returns is a frame of the tree, or made of the word at address 0. -/
theorem uva2ka_some {uva pa : Nat} (run : uva2ka v cur d uva = .ok (some pa)) :
    (∃ x, frameAt d x = some pa) ∨ ∃ w, wordAtZero v cur = some w ∧ entryAddr w = some pa := by
  rw [uva2ka] at run
  split at run
  case h_1 =>
    split at run
    case h_1 => cases run
    case h_2 w word => exact .inr ⟨w, word, by simpa using run⟩
  case h_2 pt table =>
    split at run
    case h_1 => cases run
    case h_2 e entry =>
      refine .inl ⟨entryOf uva, ?_⟩
      rw [frameAt, ← getPte_eq, getPte, table, Option.bind_some, entry]
      split at run
      case isTrue => cases run
      case isFalse => exact congrArg some (by simpa using run)

section
variable (foreign : Foreign site own F) (keeps : Keeps rest site own v d) (based : Based cur F)
    (inert : Inert v cur)
include foreign keeps based inert

theorem copyout_spares {va : Nat} {bs : List UInt8} :
    Ends (fun r => Spares F v r.1) (copyout v cur d va bs) := by
  fun_induction copyout v cur d va bs with
  | case1 v va bs more va0 fault run => exact .fault (uva2ka_ends.of_error run)
  | case2 => exact .ok fun _ _ => rfl
  | case3 v va bs more va0 pa0 run n ih =>
    obtain ⟨x, frame⟩ : ∃ x, frameAt d x = some pa0 := by
      rcases uva2ka_some run with tree | ⟨w, word, entry⟩
      · exact tree
      · rw [inert w word] at entry
        cases entry
    have inside : va - va0 + n ≤ pteSz := by
      simp only [n, va0, alignDn, pteSz_eq]
      omega
    have length : (bs.take n).length ≤ n := List.length_take_le ..
    have spared : Spares F v (v.write (pa0 + (va - va0)) (bs.take n)) :=
      foreign.spares keeps frame (Nat.le_add_right _ _) (by omega)
    exact (ih (keeps.write ..) (inert.spared based spared)).mono fun r later => spared.trans later
  | case4 => exact .ok fun _ _ => rfl

theorem pushArgs_spares {argv : List (List UInt8)} {sp : Nat} {ustack : List Nat} :
    Ends (fun r => Spares F v r.1) (pushArgs cur d argv v sp ustack) := by
  induction argv generalizing v sp ustack with
  | nil => exact .ok fun _ _ => rfl
  | cons arg argv ih =>
    rw [pushArgs]
    split
    · exact .ok fun _ _ => rfl
    · refine ((copyout_ends keeps).and (copyout_spares foreign keeps based inert)).bind ?_
      rintro ⟨v', ok⟩ ⟨keeps', spared⟩
      simp only
      split
      · exact (ih keeps' (inert.spared based spared)).mono fun r later => spared.trans later
      · exact .ok spared

end

variable [DecidableEq Ω]

omit [DecidableEq Ω] in
theorem stackArgs_spares {argv : List (List UInt8)} {tf : Trapframe} {sz : Nat}
    (foreign : Foreign site own F) (keeps : Keeps rest site own v d) (space : Space d sz)
    (based : Based cur F) (inert : Inert v cur) :
    Ends (fun r => Spares F v r.1) (stackArgs v cur d sz argv tf) := by
  rw [stackArgs]
  refine (clearpteu_ends keeps space).bind ?_
  rintro d' ⟨keeps', -⟩
  refine ((pushArgs_ends keeps').and (pushArgs_spares foreign keeps' based inert)).bind ?_
  rintro ⟨v', none | ⟨sp, ustack⟩⟩ ⟨pushed, spared⟩
  · exact .ok spared
  · refine (copyout_spares foreign pushed based (inert.spared based spared)).bind ?_
    rintro ⟨v₃, ok⟩ copied
    simp only
    split
    · exact .ok (spared.trans copied)
    · exact .ok (spared.trans copied)

end

/-! ### The registers -/

section
variable {rest : Finset (Nat × Nat)} {s t : State} {p : SleepWakeup.Slot} {prog : Program}
  {tf tf' : Trapframe}

/-- At most the two argument registers have changed, and then `r0` is a number of arguments. -/
structure ArgRegs (tf tf' : Trapframe) : Prop where
  sp : tf'.sp = tf.sp
  elr : tf'.elr = tf.elr
  regs : tf'.regs = tf.regs
  args : tf'.r0 = tf.r0 ∧ tf'.r1 = tf.r1 ∨ tf'.r0 ≤ maxarg

theorem ArgRegs.refl (tf : Trapframe) : ArgRegs tf tf := ⟨rfl, rfl, rfl, .inl ⟨rfl, rfl⟩⟩

theorem pushArgs_length {cur : Option Pgd} {d : Pgd} {argv : List (List UInt8)} {v v' : Vm}
    {sp sp' : Nat} {ustack ustack' : List Nat} (few : ustack.length ≤ maxarg)
    (run : pushArgs cur d argv v sp ustack = .ok (v', some (sp', ustack'))) :
    ustack'.length ≤ maxarg := by
  induction argv generalizing v sp ustack with
  | nil =>
    cases run
    exact few
  | cons arg argv ih =>
    rw [pushArgs] at run
    split at run
    case isTrue => cases run
    case isFalse more =>
      obtain ⟨⟨v₁, ok⟩, -, next⟩ := bind_eq_ok run
      simp only at next
      split at next
      case isTrue =>
        refine ih ?_ next
        rw [List.length_append, List.length_singleton]
        omega
      case isFalse => cases next

theorem execStack_regs {cur : Option Pgd} {d d' : Pgd} {argv : List (List UInt8)} {v v' : Vm}
    {sz : Nat} {r : Option (Nat × Nat)}
    (run : execStack v cur d sz argv tf = .ok (v', d', tf', r)) : ArgRegs tf tf' := by
  rw [execStack] at run
  obtain ⟨⟨v₁, d₁, sz₁⟩, -, run⟩ := bind_eq_ok run
  simp only at run
  split at run
  case isTrue =>
    cases run
    exact .refl tf
  case isFalse =>
    obtain ⟨d₂, -, run⟩ := bind_eq_ok run
    obtain ⟨⟨v₂, pushed⟩, pushes, run⟩ := bind_eq_ok run
    cases pushed with
    | none =>
      cases run
      exact .refl tf
    | some top =>
      obtain ⟨sp, ustack⟩ := top
      have few := pushArgs_length (Nat.zero_le _) pushes
      obtain ⟨⟨v₃, ok⟩, -, run⟩ := bind_eq_ok run
      simp only at run
      split at run
      all_goals
        cases run
        exact ⟨rfl, rfl, rfl, .inr few⟩

theorem setProc_self (s : State) (p : SleepWakeup.Slot) : s.setProc p (s.proc p) = s := by
  simp [State.setProc]

/-- The ways `exec` fails: before it has a page table, while it loads the program, or while it
builds the stack. -/
theorem exec_false (run : exec s p prog = .ok (t, false)) :
    t = s ∨ ∃ file k off v d, prog.file = some file ∧
      ((∃ v', execLoad file k s.vm blank off 0 = .ok (v, d, none) ∧ freevm v (some d) = .ok v' ∧
        t = { s with vm := v' }) ∨
      ∃ sz v' d' tf v'', execLoad file k s.vm blank off 0 = .ok (v, d, some sz) ∧
        execStack v (s.proc p).pgdir d sz prog.argv (s.proc p).tf = .ok (v', d', tf, none) ∧
        freevm v' (some d') = .ok v'' ∧
        t = { s with vm := v'' }.setProc p { s.proc p with tf := tf }) := by
  rw [exec] at run
  split at run
  case h_1 =>
    cases run
    exact .inl rfl
  case h_2 file isFile =>
    simp only at run
    split at run
    case isTrue =>
      cases run
      exact .inl rfl
    case isFalse =>
      split at run
      case isTrue =>
        cases run
        exact .inl rfl
      case isFalse =>
        obtain ⟨⟨v, d, loaded⟩, loads, run⟩ := bind_eq_ok run
        cases loaded with
        | none =>
          obtain ⟨v', freed, run⟩ := bind_eq_ok run
          cases run
          exact .inr ⟨file, _, _, v, d, isFile, .inl ⟨v', loads, freed, rfl⟩⟩
        | some sz =>
          obtain ⟨⟨v', d', tf, built⟩, stack, run⟩ := bind_eq_ok run
          cases built with
          | none =>
            obtain ⟨v'', freed, run⟩ := bind_eq_ok run
            cases run
            exact .inr ⟨file, _, _, v, d, isFile,
              .inr ⟨sz, v', d', tf, v'', loads, stack, freed, rfl⟩⟩
          | some image =>
            obtain ⟨v'', -, run⟩ := bind_eq_ok run
            cases run

/-- A failed `exec` has changed memory and registers at most. -/
theorem exec_false_regs (run : exec s p prog = .ok (t, false)) :
    ∃ vm tf, t = { s with vm := vm }.setProc p { s.proc p with tf := tf } ∧
      ArgRegs (s.proc p).tf tf := by
  have same : ∀ vm, { s with vm := vm } =
      { s with vm := vm }.setProc p { s.proc p with tf := (s.proc p).tf } := fun vm =>
    (setProc_self { s with vm := vm } p).symm
  rcases exec_false run with rfl | ⟨file, k, off, v, d, -, ⟨v', -, -, rfl⟩ |
    ⟨sz, v', d', tf, v'', -, stack, -, rfl⟩⟩
  · exact ⟨t.vm, _, same t.vm, .refl _⟩
  · exact ⟨v', _, same v', .refl _⟩
  · exact ⟨v'', tf, rfl, execStack_regs stack⟩

/-! ### What a failure leaves -/

/-! ### The result -/

theorem syscall_exec {args : Option Program} (number : (s.proc p).tf.r0 = sysExecNum) :
    syscall s p (fun s p => sysExec s p args) = sysExec s p args := by
  rw [syscall]
  simp only [number, ne_eq, not_true_eq_false, if_false]
  cases sysExec s p args <;> rfl

/-- The register in which a caller looks for the result never holds -1. -/
theorem sysExec_r0 {args : Option Program} {ret : Int} (number : (s.proc p).tf.r0 = sysExecNum)
    (run : sysExec s p args = .ok (t, ret)) (failed : ret = -1) : (t.proc p).tf.r0 ≤ maxarg := by
  cases args with
  | none =>
    cases run
    rw [number]
    decide
  | some prog =>
    obtain ⟨⟨t', ok⟩, ran, run⟩ := bind_eq_ok run
    cases ok with
    | true =>
      cases run
      cases failed
    | false =>
      cases run
      obtain ⟨vm, tf, rfl, regs⟩ := exec_false_regs ran
      have here : (({ s with vm := vm }.setProc p { s.proc p with tf := tf }).proc p).tf = tf := by
        simp [State.setProc]
      rw [here]
      rcases regs.args with ⟨same, -⟩ | few
      · rw [same, number]
        decide
      · exact few

/-- No failed `exec` is clean: a call is as it should be only if `exec` does not fail. -/
theorem exec_failure_iff (number : (s.proc p).tf.r0 = sysExecNum) (args : Option Program) :
    (∀ t, syscall s p (fun s p => sysExec s p args) = .ok (t, -1) → FailsCleanly s t p) ↔
      ∀ t, syscall s p (fun s p => sysExec s p args) ≠ .ok (t, -1) := by
  constructor
  · intro clean t run
    have result := (clean t run).tf
    rw [syscall_exec number] at run
    have small := sysExec_r0 number run rfl
    rw [result] at small
    exact absurd small (show ¬ 2 ^ 64 - 1 ≤ maxarg by decide)
  · exact fun never t run => absurd run (never t)

/-- A process that has the number of `exec` in `r0`. -/
def State.calling (s : State) (p : SleepWakeup.Slot) : State :=
  s.setProc p { s.proc p with tf := { (s.proc p).tf with r0 := sysExecNum } }

theorem calling_r0 (s : State) (p : SleepWakeup.Slot) :
    ((s.calling p).proc p).tf.r0 = sysExecNum := by
  simp [State.calling, State.setProc]

/-- A program that does not exist. -/
def missing : Program := ⟨none, [], [97], []⟩

/-- For the first process, an `exec` that fails is not clean. -/
theorem first_process_exec_fails : ∃ s, Reachable s ∧
    ¬ ∀ t, syscall (s.calling firstSlot) firstSlot (fun s p => sysExec s p (some missing)) =
      .ok (t, -1) → FailsCleanly (s.calling firstSlot) t firstSlot := by
  obtain ⟨s, -, -, -, reach, -⟩ := first_process
  have number := calling_r0 s firstSlot
  refine ⟨s, reach, fun clean => ?_⟩
  refine (exec_failure_iff number (some missing)).mp clean (s.calling firstSlot) ?_
  rw [syscall_exec number]
  rfl

/-- The first process calls `exec` for a file that does not exist: `exec` returns -1, and the
process finds the number of the call in `r0`. -/
theorem exec_missing_returns_seven : ∃ s t, Reachable s ∧
    exec (s.calling firstSlot) firstSlot missing = .ok (t, false) ∧
    syscall (s.calling firstSlot) firstSlot (fun s p => sysExec s p (some missing)) =
      .ok (t, -1) ∧ (t.proc firstSlot).tf.r0 = 7 := by
  obtain ⟨s, -, -, -, reach, -⟩ := first_process
  have number := calling_r0 s firstSlot
  refine ⟨s, s.calling firstSlot, reach, rfl, ?_, number⟩
  rw [syscall_exec number]
  rfl

end

end UserMemory
