import PinkyOS.FileReferences

/-!
# Balance over sequences of system calls

Processes make system calls one after another. In every state between two calls each count is the
number of pointers, no inode is locked, each entry of the file table that was given out has been
released once, unless a descriptor points to it, and each pipe is freed once, unless an end is
open.
-/
namespace FileSystem
open ByteBuffer DiskLog DiskFormat Program PointerCount Machine
open SleepWakeup (Slot ProcState initproc)

variable {s t b : Machine} {o : Owed} {i j : InodeId} {f : FileId} {p q : Slot} {β : Type}
  {post : β → Machine → Prop}

/-! ### `fork` and `exit` -/

theorem does_allocproc {g : Option Slot → M β} (full : Does post (g none) s)
    (found : ∀ np, (s.proc np).state = .unused → Does post (g (some np)) (s.setState np .embryo)) :
    Does post (call .allocproc >>= g) s := by
  cases search : (List.finRange SleepWakeup.nproc).find? fun p => (s.proc p).state = .unused with
  | none =>
    refine runs_known .allocproc (t := s) (r := none) ?_ full
    simp [perform, search]
  | some np =>
    have unused : (s.proc np).state = .unused := by simpa using List.find?_some search
    refine runs_known .allocproc (r := some np) ?_ (found np unused)
    simp [perform, search]

/-- `fork` fills one free slot, or leaves it as it was. -/
structure Forked (s t : Machine) : Prop where
  slot : ∀ q, t.proc q = s.proc q ∨
    (s.proc q).state = .unused ∧ (t.proc q).state = .runnable

theorem Forked.of_eq (same : t.proc = s.proc) : Forked s t :=
  ⟨fun q => .inl (congrFun same q)⟩

theorem setState_unused {np : Slot} {x : Machine} (unused : (s.proc np).state = .unused)
    (same : x.proc = (s.setState np .embryo).proc) : (x.setState np .unused).proc = s.proc := by
  funext q
  by_cases here : q = np
  · subst here
    simp [setState, setProc, same, ← unused]
  · simp [setState, setProc, same, here]

theorem Balanced.fork (bal : Balanced .zero s)
    (vacant : ∀ q, (s.proc q).state = .unused → (s.proc q).Empty) :
    Does (fun _ t => Balanced .zero t ∧ Forked s t) (fork p) s := by
  apply does_allocproc
  · exact ⟨bal, .of_eq rfl⟩
  · intro np unused
    obtain ⟨noFiles, noCwd⟩ := vacant np unused
    have abort : ∀ t, Owes (s.setState np .embryo) .zero t →
        Does (fun _ t => Balanced .zero t ∧ Forked s t) (do
          call (.setState np .unused)
          return false) t := by
      intro t owes
      refine runs_known (.setState np .unused) (r := ()) rfl ⟨owes.balanced.setState np .unused, ?_⟩
      exact .of_eq (setState_unused unused owes.fixed.proc)
    have owes : Owes (s.setState np .embryo) .zero (s.setState np .embryo) :=
      ⟨bal.setState np .embryo, .refl _⟩
    refine owes.after trivial fun (kstack : Nat) t owes => ?_
    refine Runs.ite (fun _ => abort t owes) fun _ => ?_
    refine owes.after trivial fun (pgdir : Nat) t owes => ?_
    refine Runs.ite (fun _ => abort t owes) fun _ => ?_
    have child : t.proc np = { s.proc np with state := .embryo } := by
      rw [owes.fixed.proc]
      simp [Machine.setState, Machine.setProc]
    have others : ∀ q, q ≠ np → t.proc q = s.proc q := by
      intro q other
      rw [owes.fixed.proc]
      simp [Machine.setState, Machine.setProc, other]
    refine owes.after trivial fun x t' owes' => ?_
    have same : t'.proc = t.proc := owes'.fixed.proc.trans owes.fixed.proc.symm
    apply Runs.bind
    apply (owes'.balanced.dupFiles (by simp [same, child, noFiles]) (List.nodup_finRange _)).mono
    rintro _ u ⟨bal, outside, cwd⟩
    have owes : Owes u .zero u := ⟨bal, .refl u⟩
    refine Runs.seq owes.dupCwd fun i v owes => ?_
    have empty : (v.proc np).cwd = none := by
      rw [owes.fixed.proc, cwd, same, child]
      exact noCwd
    refine runs_known (.setCwd np (some i)) (r := ()) rfl ?_
    have next := owes.balanced.setCwd np (some i)
    have back : ({ Owed.zero.ref i 1 with
        inode := (Owed.zero.ref i 1).inode + mark (v.proc np).cwd - mark (some i) } : Owed) =
        .zero := by
      ext <;> simp [Owed.ref, Owed.zero, empty, mark_some]
    rw [back] at next
    refine runs_known (.setState np .runnable) (r := ()) rfl ⟨next.setState np .runnable, ⟨?_⟩⟩
    intro q
    by_cases here : q = np
    · subst here
      exact .inr ⟨unused, by simp [Machine.setState, Machine.setProc]⟩
    · left
      have step := outside.other q here
      simp [Machine.setState, Machine.setCwd, Machine.setProc, here, owes.fixed.proc, step, same,
        others q here]

/-- The loop of `exit` over the descriptors. -/
theorem Balanced.closeFiles {fds : List Fd} (bal : Balanced .zero s) :
    Does (fun _ t => Balanced .zero t ∧ Outside p s t ∧ (t.proc p).cwd = (s.proc p).cwd ∧
      ∀ d, (t.proc p).ofile d = none ∨ d ∉ fds ∧ (t.proc p).ofile d = (s.proc p).ofile d)
      (closeFiles p fds) s := by
  induction fds generalizing s with
  | nil => exact ⟨bal, .of_eq rfl, rfl, fun d => .inr ⟨by simp, rfl⟩⟩
  | cons d fds ih =>
    refine runs_known (.getProc p) (t := s) (r := s.proc p) rfl ?_
    split
    case h_1 f points =>
      refine Runs.seq (bal.fileclose rfl (.inl rfl)) fun _ t ⟨bal, proc⟩ => ?_
      have points' : (t.proc p).ofile d = some f := by rw [proc, points]
      have next := bal.clear points'
      have back : (Owed.zero.fref f (-1)).fref f 1 = .zero := Owed.fref_fref_neg (-1)
      rw [back] at next
      refine runs_known (.setOfile p d none) (r := ()) rfl ?_
      apply (ih next).mono
      rintro _ u ⟨bal, outside, cwd, closed⟩
      refine ⟨bal, (Outside.of_eq proc).trans (Outside.setOfile.trans outside), ?_, ?_⟩
      · rw [cwd]
        simp [Machine.setOfile, Machine.setProc, proc]
      · intro d'
        rcases closed d' with gone | ⟨later, kept⟩
        · exact .inl gone
        · by_cases here : d' = d
          · subst here
            left
            simpa [Machine.setOfile, Machine.setProc] using kept
          · right
            refine ⟨by simp [here, later], ?_⟩
            rw [kept]
            simp [Machine.setOfile, Machine.setProc, here, proc]
    case h_2 none' =>
      apply (ih bal).mono
      rintro _ t ⟨bal, outside, cwd, closed⟩
      refine ⟨bal, outside, cwd, fun d' => ?_⟩
      rcases closed d' with gone | ⟨later, kept⟩
      · exact .inl gone
      · by_cases here : d' = d
        · subst here
          left
          rw [kept]
          exact none'
        · exact .inr ⟨by simp [here, later], kept⟩

theorem Balanced.exit (bal : Balanced .zero s) :
    Does (fun _ t => Balanced .zero t ∧ (∀ q, q ≠ p → t.proc q = s.proc q) ∧
      (t.proc p).state = .zombie ∧ (t.proc p).Empty) (exit p) s := by
  refine Runs.ite (fun _ => tame_panic (by decide)) fun _ => ?_
  refine Runs.seq bal.closeFiles fun _ t ⟨bal, outside, cwd, closed⟩ => ?_
  have owes : Owes t .zero t := ⟨bal, .refl t⟩
  refine Runs.seq (owes.putCwd rfl) fun _ u ⟨old, points, owes⟩ => ?_
  have next := owes.setCwd (v := none) points
  have back : ({ (Owed.zero.ref old (-1)).ref old 1 with
      inode := ((Owed.zero.ref old (-1)).ref old 1).inode - mark none } : Owed) = .zero := by
    ext <;> simp [Owed.ref, Owed.zero, Pi.single_neg]
  rw [back] at next
  refine runs_known (.setCwd p none) (r := ()) rfl ?_
  refine does_call (.setState p .zombie) ?_ ?_
  · intro r v performed
    cases performed
    refine ⟨next.setState p .zombie, ?_, ?_, ?_, ?_⟩
    · intro q other
      simp [Machine.setState, Machine.setCwd, Machine.setProc, other, owes.fixed.proc,
        outside.other q other]
    · simp [Machine.setState, Machine.setProc]
    · intro d
      have gone := (closed d).resolve_right (by simp)
      simpa [Machine.setState, Machine.setCwd, Machine.setProc, owes.fixed.proc] using gone
    · simp [Machine.setState, Machine.setCwd, Machine.setProc]
  · intro msg performed
    cases performed

/-! ### `read`, `write` and `fstat` -/

theorem Balanced.storeOff (bal : Balanced o s) (f : FileId) (off : Nat) :
    Balanced o (s.setFile f { s.file f with off := off }) := by
  refine bal.storeFile (x := { s.file f with off := off }) (bal.idle f) .rfl ?_ ?_ ?_ rfl
  · simp
  · exact (add_sub_cancel_right _ _).symm
  · exact (add_sub_cancel_right _ _).symm

theorem pipe_live {a : Nat} {w : Bool} (bal : Balanced .zero s) (points : s.ends f = some (a, w)) :
    (s.pipe a).isSome := by
  have count := bal.ends a w
  have pos := pointers_pos points
  have isOpen : s.isOpen a w = true := by
    by_contra closed
    rw [if_neg closed] at count
    have none' : Owed.zero.ends (a, w) = 0 := rfl
    omega
  cases is : s.pipe a with
  | none => simp [Machine.isOpen, is] at isOpen
  | some e => rfl

/-- Reading or writing the pipe that an entry refers to. -/
theorem Balanced.pipeIo (bal : Balanced .zero s) (isPipe : (s.file f).type = .pipe) :
    Does (fun _ t => Balanced .zero t ∧ t.proc = s.proc) (call (.pipeIo (s.file f).pipe)) s := by
  have live := pipe_live bal (f := f) (by rw [Machine.ends, File.ends, if_pos isPipe])
  have isSome : ¬ (s.pipe (s.file f).pipe).isNone = true := by
    simpa [Option.isSome_iff_ne_none] using live
  apply does_call (.pipeIo (s.file f).pipe)
  · intro r t performed
    simp only [perform, if_neg isSome] at performed
    cases performed
    have asked : Still s s.ask := .disk ..
    exact ⟨asked.balanced bal, rfl⟩
  · intro msg performed
    simp only [perform, if_neg isSome] at performed
    cases performed

theorem Owed.unlocked (i : InodeId) : i ∉ Owed.zero.locked := by
  simp [Owed.zero]

theorem Balanced.filestat (bal : Balanced .zero s) :
    Does (fun _ t => Balanced .zero t ∧ t.proc = s.proc) (filestat f) s := by
  have owes : Owes s .zero s := ⟨bal, .refl s⟩
  refine runs_known (.lookFile f) (t := s) (r := s.file f) rfl ?_
  apply Runs.ite
  · intro _
    refine Runs.seq owes.ilock fun _ t ⟨owes, free⟩ => ?_
    refine owes.after trivial fun ip t owes => ?_
    refine Runs.seq owes.iunlock fun _ t owes => ?_
    rw [Owed.unlock_lock free] at owes
    exact ⟨owes.balanced, owes.fixed.proc⟩
  · exact fun _ => ⟨bal, rfl⟩

/-- The end of `fileread` and of one round of `filewrite`: the offset moves, and the inode is
unlocked. -/
theorem Balanced.advance {g : M β} {n : Nat} (bal : Balanced (Owed.zero.lock (s.file f).ip) s)
    (rest : ∀ t, Balanced .zero t → t.proc = s.proc → Does post g t) : Does post (do
      let x : File ← call (.lookFile f)
      call (.storeFile f { x with off := (x.off + n) % 2 ^ 32 })
      FileSystem.iunlock x.ip
      g) s := by
  refine runs_known (.lookFile f) (t := s) (r := s.file f) rfl ?_
  refine runs_known (.storeFile f _) (r := ()) rfl ?_
  have owes : Owes _ (Owed.zero.lock (s.file f).ip)
      (s.setFile f { s.file f with off := ((s.file f).off + n) % 2 ^ 32 }) :=
    ⟨bal.storeOff f _, .refl _⟩
  refine Runs.seq owes.iunlock fun _ t owes => ?_
  rw [Owed.unlock_lock (Owed.unlocked _)] at owes
  exact rest t owes.balanced owes.fixed.proc

section
variable (bal : Balanced .zero s)
include bal

theorem Balanced.fileread {n : Nat} :
    Does (fun _ t => Balanced .zero t ∧ t.proc = s.proc) (fileread f n) s := by
  have owes : Owes s .zero s := ⟨bal, .refl s⟩
  refine runs_known (.lookFile f) (t := s) (r := s.file f) rfl ?_
  refine Runs.ite (fun _ => ⟨bal, rfl⟩) fun _ => ?_
  split
  case h_1 isPipe => exact bal.pipeIo isPipe
  case h_2 isInode =>
    refine Runs.seq owes.ilock fun _ t ⟨owes, free⟩ => ?_
    refine Runs.seq (owes.readi (by simp [Owed.lock])) fun r t owes => ?_
    have same : (t.file f).ip = (s.file f).ip := by rw [owes.fixed.file]
    apply Balanced.advance (by simpa [same] using owes.balanced)
    exact fun u bal proc => ⟨bal, proc.trans owes.fixed.proc⟩
  case h_3 => exact tame_panic (by decide)

theorem Balanced.writeChunk {src : List UInt8} :
    Does (fun _ t => Balanced .zero t ∧ t.proc = s.proc) (writeChunk f src) s := by
  have owes : Owes s .zero s := ⟨bal, .refl s⟩
  refine owes.after trivial fun _ t owes => ?_
  refine runs_known (.lookFile f) (t := t) (r := t.file f) rfl ?_
  refine Runs.seq owes.ilock fun _ u ⟨owes', free⟩ => ?_
  refine runs_known (.lookFile f) (t := u) (r := u.file f) rfl ?_
  have same : (u.file f).ip = (t.file f).ip := by rw [owes'.fixed.file, owes.fixed.file]
  refine Runs.seq (owes'.writei (by simp [Owed.lock, same])) fun r v owes'' => ?_
  have same : (v.file f).ip = (t.file f).ip := by rw [owes''.fixed.file, owes.fixed.file]
  apply Balanced.advance (by simpa [same] using owes''.balanced)
  intro w bal proc
  have owes : Owes w .zero w := ⟨bal, .refl w⟩
  apply Runs.bind
  apply (owes.quiet_last (m := commitTrans) (quiet_call trivial)).mono
  exact fun _ x owes => ⟨owes.balanced, owes.fixed.proc.trans (proc.trans owes''.fixed.proc)⟩

theorem Balanced.writeChunks {fuel : Nat} {src : List UInt8} :
    Does (fun _ t => Balanced .zero t ∧ t.proc = s.proc) (writeChunks f fuel src) s := by
  induction fuel generalizing s src with
  | zero => exact ⟨bal, rfl⟩
  | succ fuel ih =>
    refine Runs.ite (fun _ => ⟨bal, rfl⟩) fun _ => ?_
    refine Runs.seq bal.writeChunk fun r t ⟨bal, proc⟩ => ?_
    cases r with
    | none => exact ⟨bal, proc⟩
    | some r =>
      apply Runs.ite
      · intro _
        apply (ih bal).mono
        exact fun _ u next => ⟨next.1, next.2.trans proc⟩
      · exact fun _ => tame_panic (by decide)

theorem Balanced.filewrite {src : List UInt8} :
    Does (fun _ t => Balanced .zero t ∧ t.proc = s.proc) (filewrite f src) s := by
  refine runs_known (.lookFile f) (t := s) (r := s.file f) rfl ?_
  refine Runs.ite (fun _ => ⟨bal, rfl⟩) fun _ => ?_
  split
  case h_1 isPipe =>
    apply Runs.bind
    exact bal.pipeIo isPipe
  case h_2 isInode =>
    refine Runs.seq bal.writeChunks fun r t ⟨bal, proc⟩ => ?_
    apply Runs.ite
    · exact fun _ => ⟨bal, proc⟩
    · exact fun _ => ⟨bal, proc⟩
  case h_3 => exact tame_panic (by decide)

end

/-! ### Sequences of calls -/

inductive Call where
  | open (path : Option Path) (omode : BitVec 64)
  | close (fd : Int)
  | dup (fd : Int)
  | read (fd : Int) (n : Nat)
  | write (fd : Int) (src : List UInt8)
  | fstat (fd : Int)
  | pipe
  | link (old new : Option Path)
  | unlink (path : Option Path)
  | mkdir (path : Option Path)
  | mknod (path : Option Path) (major minor : BitVec 16)
  | chdir (path : Option Path)
  | exec (path : Option Path)
  | fork
  | exit

/-- The call made by process `p`. -/
def Call.run (p : Slot) : Call → M Unit
  | .open path omode => do
    let _ ← sysOpen p path omode
  | .close fd => do
    let _ ← sysClose p fd
  | .dup fd => do
    let _ ← sysDup p fd
  | .read fd n => do
    let _ ← sysRead p fd n
  | .write fd src => do
    let _ ← sysWrite p fd src
  | .fstat fd => do
    let _ ← sysFstat p fd
  | .pipe => do
    let _ ← sysPipe p
  | .link old new => do
    let _ ← sysLink p old new
  | .unlink path => do
    let _ ← sysUnlink p path
  | .mkdir path => do
    let _ ← sysMkdir p path
  | .mknod path major minor => do
    let _ ← sysMknod p path major minor
  | .chdir path => do
    let _ ← sysChdir p path
  | .exec path => do
    let _ ← sysExec p path
  | .fork => do
    let _ ← FileSystem.fork p
  | .exit => FileSystem.exit p

inductive Action where
  | call (p : Slot) (c : Call)
  /-- A parent's `wait` frees the slot. -/
  | reap (p : Slot)

/-- Processes in these states make no calls. -/
def Idle (x : Proc) : Prop := x.state = .unused ∨ x.state = .embryo ∨ x.state = .zombie

instance (x : Proc) : Decidable (Idle x) := inferInstanceAs (Decidable (_ ∨ _))

/-- One call that returns, or the end of a zombie. -/
def step (s : Machine) : Action → Option Machine
  | .call p c =>
    if Idle (s.proc p) then none else (Program.exec perform (c.run p) s).state
  | .reap p => if (s.proc p).state = .zombie then some (s.setState p .unused) else none

/-- The machine before `userinit`, with whatever is on the disk. -/
def blank (disksize : Nat) (cur : Nat → Block) (log : DiskLog.Log)
    (console : Nat → Option (List UInt8)) (memory : Nat → Nat) : Machine where
  disksize := disksize
  cur := cur
  held := fun _ => false
  log := log
  inode := fun _ => ⟨0, 0, 0, false, false, Dinode.zero⟩
  file := fun _ => ⟨.none, 0, false, false, 0, ⟨0, by decide⟩, 0⟩
  pipe := fun _ => none
  proc := fun _ => ⟨.unused, fun _ => none, none⟩
  console := console
  memory := memory
  asked := 0
  taken := []
  released := []
  made := []
  freed := []

def Booted (s : Machine) : Prop :=
  ∃ disksize cur log console memory,
    Program.exec perform userinit (blank disksize cur log console memory) = .done () s

/-- What holds between two calls: nothing is owed, and slots of no process have no pointers. -/
structure Settled (s : Machine) : Prop where
  balanced : Balanced .zero s
  vacant : ∀ q, Idle (s.proc q) → (s.proc q).Empty

theorem Settled.outside (settled : Settled s) (alive : ¬ Idle (s.proc p)) (bal : Balanced .zero t)
    (outside : Outside p s t) : Settled t := by
  refine ⟨bal, fun q idle => ?_⟩
  by_cases here : q = p
  · subst here
    have same : Idle (t.proc q) ↔ Idle (s.proc q) := by rw [Idle, Idle, outside.state]
    exact absurd (same.mp idle) alive
  · rw [outside.other q here] at idle ⊢
    exact settled.vacant q idle

theorem Settled.forked (settled : Settled s) (bal : Balanced .zero t) (forked : Forked s t) :
    Settled t := by
  refine ⟨bal, fun q idle => ?_⟩
  rcases forked.slot q with same | ⟨-, runnable⟩
  · rw [same] at idle ⊢
    exact settled.vacant q idle
  · simp [Idle, runnable] at idle

theorem owns_zero : Owed.zero.Owns := ⟨fun _ => le_rfl, by simp [Owed.zero]⟩

/-- Every call leads from settled states to settled states, and stops in no freed pipe. -/
theorem Settled.call (settled : Settled s) (alive : ¬ Idle (s.proc p)) (c : Call) :
    Does (fun _ t => Settled t) (c.run p) s := by
  have bal := settled.balanced
  have owes : Owes s .zero s := ⟨bal, .refl s⟩
  have inside : ∀ t, Balanced .zero t ∧ Outside p s t → Settled t :=
    fun t after => settled.outside alive after.1 after.2
  have still : ∀ t, Balanced .zero t ∧ t.proc = s.proc → Settled t :=
    fun t after => settled.outside alive after.1 (.of_eq after.2)
  have fixed : ∀ t, Owes s .zero t → Settled t :=
    fun t owes => still t ⟨owes.balanced, owes.fixed.proc⟩
  cases c with
  | «open» path omode => exact Runs.bind (bal.sysOpen.mono fun _ t => inside t)
  | close fd => exact Runs.bind ((bal.sysClose rfl rfl).mono fun _ t => inside t)
  | dup fd => exact Runs.bind (bal.sysDup.mono fun _ t => inside t)
  | read fd n =>
    apply Runs.bind
    apply does_argfd
    · exact settled
    · exact fun _ f _ => bal.fileread.mono fun _ t => still t
  | write fd src =>
    apply Runs.bind
    apply does_argfd
    · exact settled
    · exact fun _ f _ => bal.filewrite.mono fun _ t => still t
  | fstat fd =>
    apply Runs.bind
    apply does_argfd
    · exact settled
    · exact fun _ f _ => bal.filestat.mono fun _ t => still t
  | pipe => exact Runs.bind (bal.sysPipe.mono fun _ t => inside t)
  | link old new => exact Runs.bind ((owes.sysLink rfl owns_zero).mono fun _ t => fixed t)
  | unlink path => exact Runs.bind ((owes.sysUnlink rfl).mono fun _ t => fixed t)
  | mkdir path => exact Runs.bind ((owes.sysMake rfl owns_zero).mono fun _ t => fixed t)
  | mknod path major minor =>
    exact Runs.bind ((owes.sysMake rfl owns_zero).mono fun _ t => fixed t)
  | chdir path => exact Runs.bind (bal.sysChdir.mono fun _ t => inside t)
  | exec path => exact Runs.bind ((owes.sysExec rfl).mono fun _ t => fixed t)
  | fork =>
    apply Runs.bind
    apply (bal.fork fun q unused => settled.vacant q (.inl unused)).mono
    exact fun _ t after => settled.forked after.1 after.2
  | exit =>
    apply bal.exit.mono
    rintro _ t ⟨bal, others, zombie, empty⟩
    refine ⟨bal, fun q idle => ?_⟩
    by_cases here : q = p
    · subst here
      exact empty
    · rw [others q here] at idle ⊢
      exact settled.vacant q idle

theorem Settled.step (settled : Settled s) {a : Action} (next : step s a = some t) : Settled t := by
  cases a with
  | call p c =>
    simp only [FileSystem.step] at next
    split_ifs at next with idle
    obtain ⟨_, performed⟩ := Outcome.state_eq_some.mp next
    exact (settled.call idle c).done performed
  | reap p =>
    simp only [FileSystem.step] at next
    split_ifs at next with zombie
    cases next
    refine ⟨settled.balanced.setState p .unused, fun q idle => ?_⟩
    by_cases here : q = p
    · subst here
      simpa [setState, setProc, Proc.Empty] using
        settled.vacant q (.inr (.inr zombie))
    · simp only [setState, setProc, Function.update_of_ne here] at idle ⊢
      exact settled.vacant q idle

/-! ### The first process -/

theorem blank_balanced (disksize : Nat) (cur : Nat → Block) (log : DiskLog.Log)
    (console : Nat → Option (List UInt8)) (memory : Nat → Nat) :
    Balanced .zero (blank disksize cur log console memory) := by
  constructor
  case file =>
    intro f
    have slots : pointers (blank disksize cur log console memory).slots f = 0 :=
      pointers_none (fun _ => rfl) f
    rw [slots]
    rfl
  case inode =>
    intro i
    have cwds : pointers (blank disksize cur log console memory).cwds i = 0 :=
      pointers_none (fun _ => rfl) i
    have opened : pointers (blank disksize cur log console memory).opened i = 0 :=
      pointers_none (fun _ => rfl) i
    rw [cwds, opened]
    rfl
  case busy => simp [blank, Owed.zero]
  case held => simp [Owed.zero]
  case idle => exact fun _ _ => rfl
  case ends =>
    intro a w
    have ends : pointers (blank disksize cur log console memory).ends (a, w) = 0 :=
      pointers_none (fun _ => rfl) (a, w)
    rw [ends]
    rfl
  case live => simp [blank]
  case taken => simp [blank]
  case made => simp [blank]

theorem Booted.settled (booted : Booted s) : Settled s := by
  obtain ⟨disksize, cur, log, console, memory, ran⟩ := booted
  have bal := blank_balanced disksize cur log console memory
  have empty : ∀ q, ((blank disksize cur log console memory).proc q).Empty :=
    fun q => ⟨fun _ => rfl, rfl⟩
  generalize blank disksize cur log console memory = z at ran bal empty
  suffices runs : Does (fun _ t => Settled t) userinit z from runs.done ran
  apply does_allocproc
  · have owes : Owes z .zero z := ⟨bal, .refl z⟩
    refine owes.after trivial fun _ t owes => ?_
    exact tame_panic (by decide)
  · intro p unused
    have owes : Owes _ .zero (z.setState p .embryo) := ⟨bal.setState p .embryo, .refl _⟩
    refine owes.after trivial fun (kstack : Nat) t owes => ?_
    refine Runs.ite (fun _ => tame_panic (by decide)) fun _ => ?_
    refine owes.after trivial fun (pgdir : Nat) t owes => ?_
    refine Runs.ite (fun _ => tame_panic (by decide)) fun _ => ?_
    refine Runs.seq (owes.namei rfl) fun r t owes => ?_
    have before : (t.proc p).cwd = none := by
      rw [owes.fixed.proc]
      simpa [setState, setProc] using (empty p).2
    have next := owes.balanced.setCwd p r
    have back : ({ Owed.zero.found r with
        inode := (Owed.zero.found r).inode + mark (t.proc p).cwd - mark r } : Owed) = .zero := by
      cases r <;> ext <;> simp [Owed.found, Owed.ref, Owed.zero, before, mark_some]
    rw [back] at next
    refine runs_known (.setCwd p r) (r := ()) rfl ?_
    refine does_call (.setState p .runnable) ?_ ?_
    · intro _ u performed
      cases performed
      refine ⟨next.setState p .runnable, fun q idle => ?_⟩
      by_cases here : q = p
      · subst here
        simp [setState, setProc, Idle] at idle
      · simpa [setState, setCwd, setProc, here, owes.fixed.proc] using
          empty q
    · intro msg performed
      cases performed

abbrev Reachable := TransitionSystem.Reachable Booted step

theorem Reachable.settled (reach : Reachable s) : Settled s :=
  TransitionSystem.Reachable.invariant (fun _ booted => booted.settled)
    (fun _ _ _ settled next => settled.step next) reach

/-! ### The counts between calls -/

/-- The descriptors that point to an entry of the file table. -/
def descriptors (s : Machine) (f : FileId) : Finset (Slot × Fd) :=
  Finset.univ.filter fun x => (s.proc x.1).ofile x.2 = some f

/-- The entries in use that refer to an inode. -/
def openers (s : Machine) (i : InodeId) : Finset FileId :=
  Finset.univ.filter fun f => 0 < (s.file f).ref ∧ (s.file f).type = .inode ∧ (s.file f).ip = i

/-- The entries in use that refer to an end of a pipe. -/
def enders (s : Machine) (a : Nat) (writable : Bool) : Finset FileId :=
  Finset.univ.filter fun f =>
    0 < (s.file f).ref ∧ (s.file f).type = .pipe ∧ (s.file f).pipe = a ∧
      (s.file f).writable = writable

/-- The processes in a directory. -/
def dwellers (s : Machine) (i : InodeId) : Finset Slot :=
  Finset.univ.filter fun p => (s.proc p).cwd = some i

theorem Balanced.used (bal : Balanced o s) (typed : (s.file f).type ≠ .none) :
    0 < (s.file f).ref := by
  by_contra low
  exact typed (bal.idle f (by omega))

theorem Settled.file_ref (settled : Settled s) (f : FileId) :
    (s.file f).ref = (descriptors s f).card := by
  have count := settled.balanced.file f
  rw [pointers_card] at count
  exact count.trans (add_zero _)

theorem Settled.inode_ref (settled : Settled s) (i : InodeId) :
    (s.inode i).ref = (dwellers s i).card + (openers s i).card := by
  have count := settled.balanced.inode i
  rw [pointers_card, pointers_card] at count
  have entries : (Finset.univ.filter fun f => s.opened f = some i) = openers s i := by
    ext f
    simp only [openers, Finset.mem_filter_univ, opened, File.opened]
    by_cases isInode : (s.file f).type = .inode
    · have used := settled.balanced.used (f := f) (by simp [isInode])
      simp [isInode, used]
    · simp [isInode]
  rw [entries] at count
  exact count.trans (add_zero _)

theorem Settled.pipe_ends (settled : Settled s) (a : Nat) (writable : Bool) :
    (enders s a writable).card = if s.isOpen a writable then 1 else 0 := by
  have count := settled.balanced.ends a writable
  rw [pointers_card] at count
  have entries : (Finset.univ.filter fun f => s.ends f = some (a, writable)) =
      enders s a writable := by
    ext f
    simp only [enders, Finset.mem_filter_univ, ends, File.ends]
    by_cases isPipe : (s.file f).type = .pipe
    · have used := settled.balanced.used (f := f) (by simp [isPipe])
      simp [isPipe, used]
    · simp [isPipe]
  rw [entries] at count
  simp only [Owed.zero, Pi.zero_apply, add_zero] at count
  split_ifs at count ⊢ <;> exact_mod_cast count

/-- The file table between calls. -/
structure Accounted (s : Machine) : Prop where
  /-- `ref` counts the descriptors of all processes. -/
  ref : ∀ f, (s.file f).ref = (descriptors s f).card
  /-- Each time `filealloc` gave out an entry it has been released once, unless a descriptor still
  points to it. -/
  released : ∀ f, s.taken.count f =
    (s.released.map Prod.fst).count f + if (descriptors s f).Nonempty then 1 else 0
  /-- An inode is held by the entries that descriptors point to, once each, and by the current
  directories. -/
  inode : ∀ i, (s.inode i).ref = (dwellers s i).card + (openers s i).card
  /-- An end of a pipe is open while an entry refers to it, and never more than one does. -/
  ends : ∀ a writable, (enders s a writable).card = if s.isOpen a writable then 1 else 0
  /-- Each time a pipe was allocated it has been freed once, unless an end is still open. -/
  freed : ∀ a, s.made.count a =
    s.freed.count a + if s.isOpen a false ∨ s.isOpen a true then 1 else 0

theorem Settled.accounted (settled : Settled s) : Accounted s := by
  constructor
  case ref => exact settled.file_ref
  case released =>
    intro f
    have count := settled.balanced.taken f
    have inUse : 0 < (s.file f).ref ↔ (descriptors s f).Nonempty := by
      rw [settled.file_ref, ← Finset.card_pos]
      exact_mod_cast Iff.rfl
    simpa only [inUse] using count
  case inode => exact settled.inode_ref
  case ends => exact settled.pipe_ends
  case freed =>
    intro a
    have count := settled.balanced.made a
    have live : (s.pipe a).isSome ↔ s.isOpen a false ∨ s.isOpen a true := by
      cases is : s.pipe a with
      | none => simp [isOpen, is]
      | some e => simpa [isOpen, is] using settled.balanced.live a e is
    simpa only [live] using count

/-- In every sequence of calls the file table is accounted for between the calls, and no call reads
or writes a pipe that has been freed, or closes an end of it. -/
theorem files_accounted (reach : Reachable s) :
    Accounted s ∧ ∀ (p : Slot) (c : Call), ¬ Idle (s.proc p) →
      Program.exec perform (c.run p) s ≠ .panic "access to a freed pipe" := by
  have settled := reach.settled
  refine ⟨settled.accounted, fun p c alive stopped => ?_⟩
  exact (settled.call alive c).panic stopped rfl

/-- A disk whose only inode is an empty root directory. -/
def rootDisk : Nat → Block := fun b k => if b = 2 ∧ k.val = 64 then 1 else 0

def firstProcess : Option Machine :=
  (Program.exec perform userinit
    (blank 1024 rootDisk ⟨0, 0, false, []⟩ (fun _ => none) fun k => k + 1)).state

/-- The first process opens the root directory and a pipe and forks; the child closes a descriptor
and exits. -/
def sharing : List Action :=
  let child : Slot := ⟨1, by decide⟩
  [.call initproc (.open (some [slash]) 0), .call initproc .pipe, .call initproc (.dup 0),
    .call initproc .fork, .call child (.close 1), .call child .exit, .reap child]

def sharingRun : Option Machine :=
  firstProcess.bind fun s => TransitionSystem.run step s sharing

theorem sharingRun_ends : sharingRun.isSome := by
  decide +kernel

theorem sharingRun_reachable : Reachable (sharingRun.get sharingRun_ends) := by
  have ends : (firstProcess.bind fun s => TransitionSystem.run step s sharing) =
      some (sharingRun.get sharingRun_ends) := (Option.some_get sharingRun_ends).symm
  obtain ⟨s, first, ran⟩ := Option.bind_eq_some_iff.mp ends
  obtain ⟨_, performed⟩ := Outcome.state_eq_some.mp first
  exact TransitionSystem.Reachable.run (.init s ⟨_, _, _, _, _, performed⟩) ran

theorem sharingRun_accounted : Accounted (sharingRun.get sharingRun_ends) :=
  (files_accounted sharingRun_reachable).1

/-- Nothing leaks: between calls `filealloc` fails only if descriptors point to every entry of the
file table, and `iget` panics only if every entry of the inode cache is for another inode that is
a current directory or open. -/
theorem tables_full_iff (reach : Reachable s) :
    ((fileSlot s).2 = none ↔ ∀ f, (descriptors s f).Nonempty) ∧
    ∀ dev inum msg, igetSlot s dev inum = .panic msg ↔ msg = "iget: no inodes" ∧
      ∀ i, ((dwellers s i).Nonempty ∨ (openers s i).Nonempty) ∧
        ¬ ((s.inode i).dev = dev ∧ (s.inode i).inum = inum) := by
  have settled := reach.settled
  constructor
  · have free : (fileSlot s).2 = (List.finRange nfile).find? fun f => (s.file f).ref = 0 := by
      unfold fileSlot
      split <;> simp [*]
    simp only [free, List.find?_eq_none, List.mem_finRange, true_implies, decide_eq_true_eq,
      settled.file_ref, Nat.cast_eq_zero, Finset.card_eq_zero, ← Finset.nonempty_iff_ne_empty]
  · intro dev inum msg
    have used : ∀ i, (dwellers s i).Nonempty ∨ (openers s i).Nonempty ↔ (s.inode i).ref ≠ 0 := by
      intro i
      rw [settled.inode_ref, ← Finset.card_pos, ← Finset.card_pos]
      omega
    have low : ∀ i, 0 ≤ (s.inode i).ref := fun i => by
      rw [settled.inode_ref]
      omega
    simp only [used]
    unfold igetSlot
    split
    · next i found =>
      have is := List.find?_some found
      grind
    · next absent =>
      split
      · next i found =>
        have is := List.find?_some found
        grind
      · next full =>
        rw [List.find?_eq_none] at absent full
        grind

theorem sharingRun_full_iff : (fileSlot (sharingRun.get sharingRun_ends)).2 = none ↔
    ∀ f, (descriptors (sharingRun.get sharingRun_ends) f).Nonempty :=
  (tables_full_iff sharingRun_reachable).1

/-- A lookup that found `r` has one more reference to it, and otherwise leaves the counts. -/
def Extra (s t : Machine) (r : Option InodeId) : Prop :=
  ∀ i, (t.inode i).ref = (s.inode i).ref + if r = some i then 1 else 0

theorem Owes.extra {r : Option InodeId} (bal : Balanced o s) (owes : Owes s (o.found r) t) :
    Extra s t r := by
  intro i
  have before := bal.inode i
  have after := owes.balanced.inode i
  have cwds : t.cwds = s.cwds := by
    funext p
    simp only [cwds, owes.fixed.proc]
  have opened : t.opened = s.opened := by
    funext f
    simp only [opened, owes.fixed.file]
  have found : (o.found r).inode i = o.inode i + if r = some i then 1 else 0 := by
    cases r with
    | none => simp [Owed.found]
    | some j => simp [Owed.found, Owed.ref, Pi.single_apply, eq_comm]
  rw [cwds, opened, found] at after
  omega

/-- Whatever the file system holds, a call that returns leaves no inode locked, and every count is
the number of current directories and open files. A lookup, which starts with no inode locked,
returns one reference more, or none. -/
theorem inodes_balanced :
    (∀ s, Reachable s → Settled s) ∧
    (∀ s, Settled s → ∀ (p : Slot) (c : Call) t, ¬ Idle (s.proc p) →
      Program.exec perform (c.run p) s = .done () t →
      ∀ i, (t.inode i).busy = false ∧
        (t.inode i).ref = (dwellers t i).card + (openers t i).card) ∧
    ∀ o s, Balanced o s → o.locked = ∅ → ∀ (p : Slot) (path : Path) t,
      (∀ r, Program.exec perform (namei p path) s = .done r t → Extra s t r) ∧
      ∀ r, Program.exec perform (nameiparent p path) s = .done r t →
        Extra s t (r.map Prod.fst) := by
  refine ⟨fun s reach => reach.settled, ?_, ?_⟩
  · intro s settled p c t alive done i
    have after := (settled.call alive c).done done
    refine ⟨?_, after.inode_ref i⟩
    have flag := after.balanced.busy i
    simpa [Owed.zero] using flag
  · intro o s bal free p path t
    have owes : Owes s o s := ⟨bal, .refl s⟩
    constructor
    · intro r done
      exact Owes.extra bal ((owes.namei free).done done)
    · intro r done
      exact Owes.extra bal ((owes.nameiparent free).done done)

/-- The first process forks once more. -/
def forkAgain : Program.Outcome Machine Unit :=
  Program.exec perform (Call.run initproc .fork) (sharingRun.get sharingRun_ends)

theorem forkAgain_ends : forkAgain.state.isSome := by
  decide +kernel

theorem forkAgain_inodes_balanced :
    ∃ t, forkAgain = .done () t ∧
      ∀ i, (t.inode i).busy = false ∧
        (t.inode i).ref = (dwellers t i).card + (openers t i).card := by
  obtain ⟨t, ends⟩ := Option.isSome_iff_exists.mp forkAgain_ends
  obtain ⟨_, performed⟩ := Outcome.state_eq_some.mp ends
  have settled := inodes_balanced.1 _ sharingRun_reachable
  have alive : ¬ Idle ((sharingRun.get sharingRun_ends).proc initproc) := by decide +kernel
  exact ⟨t, performed, inodes_balanced.2.1 _ settled initproc .fork t alive performed⟩

end FileSystem
