import PinkyOS.FileCalls
import PinkyOS.PointerCount

/-!
# References to inodes, files and pipes

Between system calls the counts in the inode cache and the file table are the numbers of pointers
to their entries. During a call the process owns references that no table shows, or owes some to
the tables; `Owed` keeps account of them, and `Balanced` says that the account is right.
-/
namespace FileSystem
open ByteBuffer DiskLog DiskFormat Program PointerCount
open SleepWakeup (Slot ProcState initproc)

/-! ### Accounts -/

/-- The references a call owns beyond those in the tables; negative numbers are owed to them.
`ends` counts the pipe ends it has to close, and `locked` are the inodes it has locked. -/
@[ext]
structure Owed where
  inode : InodeId → Int
  file : FileId → Int
  ends : Nat × Bool → Int
  locked : Finset InodeId

namespace Owed

def zero : Owed := ⟨0, 0, 0, ∅⟩

def ref (o : Owed) (i : InodeId) (k : Int) : Owed := { o with inode := o.inode + Pi.single i k }

def fref (o : Owed) (f : FileId) (k : Int) : Owed := { o with file := o.file + Pi.single f k }

def lock (o : Owed) (i : InodeId) : Owed := { o with locked := insert i o.locked }

def unlock (o : Owed) (i : InodeId) : Owed := { o with locked := o.locked.erase i }

end Owed

namespace Machine
variable (s : Machine)

def slots (x : Slot × Fd) : Option FileId := (s.proc x.1).ofile x.2

def cwds (p : Slot) : Option InodeId := (s.proc p).cwd

end Machine

def File.opened (x : File) : Option InodeId := if x.type = .inode then some x.ip else none

def File.ends (x : File) : Option (Nat × Bool) :=
  if x.type = .pipe then some (x.pipe, x.writable) else none

namespace Machine
variable (s : Machine)

def opened (f : FileId) : Option InodeId := (s.file f).opened

def ends (f : FileId) : Option (Nat × Bool) := (s.file f).ends

/-- The end of a pipe is open. -/
def isOpen (a : Nat) (writable : Bool) : Bool :=
  match s.pipe a with
  | none => false
  | some e => if writable then e.writeopen else e.readopen

end Machine

structure Balanced (o : Owed) (s : Machine) : Prop where
  file : ∀ f, (s.file f).ref = pointers s.slots f + o.file f
  inode : ∀ i, (s.inode i).ref = pointers s.cwds i + pointers s.opened i + o.inode i
  busy : ∀ i, (s.inode i).busy = true ↔ i ∈ o.locked
  held : ∀ i ∈ o.locked, 0 < (s.inode i).ref
  idle : ∀ f, (s.file f).ref ≤ 0 → (s.file f).type = .none
  ends : ∀ a w, pointers s.ends (a, w) + o.ends (a, w) = if s.isOpen a w then 1 else 0
  live : ∀ a e, s.pipe a = some e → e.readopen = true ∨ e.writeopen = true
  taken : ∀ f, s.taken.count f =
    (s.released.map Prod.fst).count f + if 0 < (s.file f).ref then 1 else 0
  made : ∀ a, s.made.count a = s.freed.count a + if (s.pipe a).isSome then 1 else 0

/-- The tables other than the inode cache. -/
structure Fixed (s t : Machine) : Prop where
  file : t.file = s.file
  proc : t.proc = s.proc
  pipe : t.pipe = s.pipe
  taken : t.taken = s.taken
  released : t.released = s.released
  made : t.made = s.made
  freed : t.freed = s.freed

theorem Fixed.refl (s : Machine) : Fixed s s := ⟨rfl, rfl, rfl, rfl, rfl, rfl, rfl⟩

variable {s t u : Machine} {o : Owed} {i j : InodeId} {f : FileId}

theorem Fixed.trans (one : Fixed s t) (two : Fixed t u) : Fixed s u :=
  ⟨two.file.trans one.file, two.proc.trans one.proc, two.pipe.trans one.pipe,
    two.taken.trans one.taken, two.released.trans one.released, two.made.trans one.made,
    two.freed.trans one.freed⟩

/-- Balance looks at the inode cache only for its counts and locks. -/
theorem Balanced.fixed {o' : Owed} (bal : Balanced o s) (fixed : Fixed s t)
    (file : o'.file = o.file) (ends : o'.ends = o.ends)
    (inode : ∀ i, (t.inode i).ref = (s.inode i).ref + (o'.inode i - o.inode i))
    (busy : ∀ i, (t.inode i).busy = true ↔ i ∈ o'.locked)
    (held : ∀ i ∈ o'.locked, 0 < (t.inode i).ref) : Balanced o' t := by
  have slots : t.slots = s.slots := by
    funext x
    simp only [Machine.slots, fixed.proc]
  have cwds : t.cwds = s.cwds := by
    funext x
    simp only [Machine.cwds, fixed.proc]
  have opened : t.opened = s.opened := by
    funext x
    simp only [Machine.opened, fixed.file]
  have ends' : t.ends = s.ends := by
    funext x
    simp only [Machine.ends, fixed.file]
  have isOpen : t.isOpen = s.isOpen := by
    funext a w
    simp only [Machine.isOpen, fixed.pipe]
  constructor
  case file => simpa only [fixed.file, slots, file] using bal.file
  case inode =>
    intro i
    have before := bal.inode i
    have after := inode i
    rw [cwds, opened]
    omega
  case busy => exact busy
  case held => exact held
  case idle => simpa only [fixed.file] using bal.idle
  case ends => simpa only [ends', ends, isOpen] using bal.ends
  case live => simpa only [fixed.pipe] using bal.live
  case taken => simpa only [fixed.file, fixed.taken, fixed.released] using bal.taken
  case made => simpa only [fixed.pipe, fixed.made, fixed.freed] using bal.made

theorem Balanced.setInode {x : Inode} {locked : Finset InodeId} (bal : Balanced o s)
    (busy : x.busy = true ↔ i ∈ locked) (others : ∀ j, j ≠ i → (j ∈ locked ↔ j ∈ o.locked))
    (held : i ∈ locked → 0 < x.ref) :
    Balanced { o.ref i (x.ref - (s.inode i).ref) with locked := locked } (s.setInode i x) := by
  apply bal.fixed
  case fixed => exact ⟨rfl, rfl, rfl, rfl, rfl, rfl, rfl⟩
  case file => rfl
  case ends => rfl
  case inode =>
    intro j
    by_cases same : j = i
    · subst same
      simp [Machine.setInode, Owed.ref]
    · simp [Machine.setInode, Owed.ref, same]
  case busy =>
    intro j
    by_cases same : j = i
    · subst same
      simpa [Machine.setInode] using busy
    · simp [Machine.setInode, same, others j same, bal.busy j]
  case held =>
    intro j isLocked
    by_cases same : j = i
    · subst same
      simpa [Machine.setInode] using held isLocked
    · simpa [Machine.setInode, same] using bal.held j ((others j same).mp isLocked)

/-! ### Programs that leave the counts alone -/

/-- Stopping in a panic other than that of a freed pipe. -/
def Tame (stop : Option String) : Prop := stop ≠ some "access to a freed pipe"

abbrev Does {α : Type} (post : α → Machine → Prop) (m : M α) (s : Machine) : Prop :=
  Runs perform Tame post m s

/-- Operations on the disk and on the copies of disk inodes. -/
def Quiet : Op → Prop
  | .bread _ _ | .brelse _ | .logWrite _ _ | .beginTrans | .commitTrans | .look _ | .store _ _
  | .setValid _ | .lookFile _ | .getProc _ | .console | .memory => True
  | .panic msg => msg ≠ "access to a freed pipe"
  | _ => False

structure Still (s t : Machine) : Prop extends Fixed s t where
  ref : ∀ i, (t.inode i).ref = (s.inode i).ref
  busy : ∀ i, (t.inode i).busy = (s.inode i).busy

theorem Still.balanced (still : Still s t) (bal : Balanced o s) : Balanced o t := by
  apply bal.fixed still.toFixed rfl rfl
  case inode => simp [still.ref]
  case busy => simp [still.busy, bal.busy]
  case held =>
    intro i isLocked
    rw [still.ref]
    exact bal.held i isLocked

theorem Still.refl (s : Machine) : Still s s := ⟨.refl s, fun _ => rfl, fun _ => rfl⟩

theorem Still.trans (one : Still s t) (two : Still t u) : Still s u :=
  ⟨one.toFixed.trans two.toFixed, fun i => (two.ref i).trans (one.ref i),
    fun i => (two.busy i).trans (one.busy i)⟩

theorem Still.setInode {x : Inode} (ref : x.ref = (s.inode i).ref)
    (busy : x.busy = (s.inode i).busy) : Still s (s.setInode i x) := by
  constructor
  case toFixed => exact ⟨rfl, rfl, rfl, rfl, rfl, rfl, rfl⟩
  case ref =>
    intro j
    by_cases same : j = i
    · subst same
      simpa [Machine.setInode] using ref
    · simp [Machine.setInode, same]
  case busy =>
    intro j
    by_cases same : j = i
    · subst same
      simpa [Machine.setInode] using busy
    · simp [Machine.setInode, same]

theorem Still.disk (cur : Nat → Block) (held : Nat → Bool) (log : DiskLog.Log) (asked : Nat) :
    Still s { s with cur := cur, held := held, log := log, asked := asked } :=
  ⟨⟨rfl, rfl, rfl, rfl, rfl, rfl, rfl⟩, fun _ => rfl, fun _ => rfl⟩

theorem tame_none : Tame none := nofun

theorem Quiet.step {op : Op} (quiet : Quiet op) (s : Machine) : match perform s op with
    | .done _ t => Still s t | .wait => Tame none | .panic msg => Tame (some msg) := by
  cases op with
  | bread dev b =>
    simp only [perform]
    split_ifs
    · simp [Tame]
    · simp [Tame]
    · exact tame_none
    · exact .disk ..
  | brelse b =>
    simp only [perform]
    split_ifs
    · exact .disk ..
    · simp [Tame]
  | logWrite b data =>
    simp only [perform]
    split_ifs
    · simp [Tame]
    · simp [Tame]
    · exact .disk ..
  | beginTrans =>
    simp only [perform]
    split_ifs
    · exact tame_none
    · exact .disk ..
  | commitTrans => exact .disk ..
  | look i => exact .refl s
  | lookFile f => exact .refl s
  | getProc p => exact .refl s
  | store i d => exact .setInode rfl rfl
  | setValid i => exact .setInode rfl rfl
  | console => exact .disk ..
  | memory => exact .disk ..
  | panic msg => simpa [perform, Tame, Quiet] using quiet
  | _ => exact quiet.elim

/-- A program of quiet operations leaves the counts alone. -/
theorem still_runs {α : Type} {m : M α} (uses : Uses Quiet m) :
    Does (fun _ t => Still s t) m s := by
  apply uses.runs
  case step =>
    intro t op quiet still
    have next := quiet.step t
    split at next
    case h_1 performed => exact performed ▸ still.trans next
    case h_2 performed => exact performed ▸ next
    case h_3 performed => exact performed ▸ next
  case start => exact .refl s

theorem quiet_call {op : Op} (quiet : Quiet op) : Uses Quiet (call op) :=
  ⟨quiet, fun _ => trivial⟩

theorem quiet_panic {α : Type} {msg : String} (other : msg ≠ "access to a freed pipe") :
    Uses Quiet (panic msg : M α) :=
  ⟨other, nofun⟩

theorem readsb_quiet (dev : Nat) : Uses Quiet (readsb dev) :=
  .bind (quiet_call trivial) fun _ => .bind (quiet_call trivial) fun _ => trivial

theorem bzero_quiet (dev b : Nat) : Uses Quiet (bzero dev b) :=
  .bind (quiet_call trivial) fun _ => .bind (quiet_call trivial) fun _ => quiet_call trivial

theorem ballocLoop_quiet (dev : Nat) (sb : Superblock) (k b : Nat) :
    Uses Quiet (ballocLoop dev sb k b) := by
  induction k generalizing b with
  | zero => exact quiet_panic (by decide)
  | succ k ih =>
    refine .bind (quiet_call trivial) fun data => ?_
    split
    · refine .bind (quiet_call trivial) fun _ => .bind (quiet_call trivial) fun _ => ?_
      exact .bind (bzero_quiet ..) fun _ => trivial
    · exact .bind (quiet_call trivial) fun _ => ih _

theorem balloc_quiet (dev : Nat) : Uses Quiet (balloc dev) :=
  .bind (readsb_quiet dev) fun _ => ballocLoop_quiet ..

theorem bfree_quiet (dev b : Nat) : Uses Quiet (bfree dev b) := by
  refine .bind (readsb_quiet dev) fun sb => .bind (quiet_call trivial) fun data => ?_
  apply Uses.ite
  · exact fun _ => .bind (quiet_call trivial) fun _ => quiet_call trivial
  · exact fun _ => quiet_panic (by decide)

theorem iupdate_quiet (i : InodeId) : Uses Quiet (iupdate i) :=
  .bind (quiet_call trivial) fun _ => .bind (quiet_call trivial) fun _ =>
    .bind (quiet_call trivial) fun _ => quiet_call trivial

theorem truncDirect_quiet (i : InodeId) (k j : Nat) : Uses Quiet (truncDirect i k j) := by
  induction k generalizing j with
  | zero => trivial
  | succ k ih =>
    refine .bind (quiet_call trivial) fun ip => ?_
    apply Uses.ite
    · exact fun _ => .bind (bfree_quiet ..) fun _ => .bind (quiet_call trivial) fun _ => ih _
    · exact fun _ => ih _

theorem truncIndirect_quiet (dev : Nat) (data : Block) (k j : Nat) :
    Uses Quiet (truncIndirect dev data k j) := by
  induction k generalizing j with
  | zero => trivial
  | succ k ih =>
    apply Uses.ite
    · exact fun _ => .bind (bfree_quiet ..) fun _ => ih _
    · exact fun _ => ih _

theorem itrunc_quiet (i : InodeId) : Uses Quiet (itrunc i) := by
  refine .bind (truncDirect_quiet ..) fun _ => .bind (quiet_call trivial) fun ip => ?_
  have last : Uses Quiet (do
      let ip ← look i
      store i { ip.d with size := 0 }
      iupdate i) :=
    .bind (quiet_call trivial) fun _ => .bind (quiet_call trivial) fun _ => iupdate_quiet i
  apply Uses.ite
  · refine fun _ => .bind (quiet_call trivial) fun data => .bind (truncIndirect_quiet ..) fun _ => ?_
    exact .bind (quiet_call trivial) fun _ => .bind (bfree_quiet ..) fun _ =>
      .bind (quiet_call trivial) fun _ => last
  · exact fun _ => last

theorem bmapIndirect_quiet (dev ind bn : Nat) : Uses Quiet (bmapIndirect dev ind bn) := by
  refine .bind (quiet_call trivial) fun data => ?_
  apply Uses.ite
  · exact fun _ => .bind (balloc_quiet dev) fun _ => .bind (quiet_call trivial) fun _ =>
      .bind (quiet_call trivial) fun _ => trivial
  · exact fun _ => .bind (quiet_call trivial) fun _ => trivial

theorem bmap_quiet (i : InodeId) (bn : Nat) : Uses Quiet (bmap i bn) := by
  refine .bind (quiet_call trivial) fun ip => ?_
  apply Uses.ite
  · intro _
    apply Uses.ite
    · exact fun _ => .bind (balloc_quiet _) fun _ => .bind (quiet_call trivial) fun _ => trivial
    · exact fun _ => trivial
  · intro _
    apply Uses.ite
    · intro _
      apply Uses.ite
      · exact fun _ => .bind (balloc_quiet _) fun _ => .bind (quiet_call trivial) fun _ =>
          bmapIndirect_quiet ..
      · exact fun _ => bmapIndirect_quiet ..
    · exact fun _ => quiet_panic (by decide)

theorem readLoop_quiet (i : InodeId) (fuel off n : Nat) : Uses Quiet (readLoop i fuel off n) := by
  induction fuel generalizing off n with
  | zero => trivial
  | succ fuel ih =>
    apply Uses.ite
    · exact fun _ => trivial
    · refine fun _ => .bind (bmap_quiet ..) fun b => .bind (quiet_call trivial) fun ip => ?_
      exact .bind (quiet_call trivial) fun data => .bind (quiet_call trivial) fun _ =>
        .bind (ih ..) fun _ => trivial

theorem writeLoop_quiet (i : InodeId) (fuel off : Nat) (src : List UInt8) :
    Uses Quiet (writeLoop i fuel off src) := by
  induction fuel generalizing off src with
  | zero => trivial
  | succ fuel ih =>
    apply Uses.ite
    · exact fun _ => trivial
    · refine fun _ => .bind (bmap_quiet ..) fun b => .bind (quiet_call trivial) fun ip => ?_
      exact .bind (quiet_call trivial) fun data => .bind (quiet_call trivial) fun _ =>
        .bind (quiet_call trivial) fun _ => ih ..

/-! ### Inodes -/

theorem does_call (op : Op) {post : Res op → Machine → Prop}
    (done : ∀ r t, perform s op = .done r t → post r t)
    (panic : ∀ msg, perform s op = .panic msg → Tame (some msg)) : Does post (call op) s := by
  show Runs perform Tame post (.call op .ret) s
  simp only [Runs]
  split
  case h_1 r t performed => exact done r t performed
  case h_2 => exact tame_none
  case h_3 msg performed => exact panic msg performed

/-- The account in a state whose tables are those of `b`. -/
structure Owes (b : Machine) (o : Owed) (s : Machine) : Prop where
  balanced : Balanced o s
  fixed : Fixed b s

variable {b : Machine} {α β : Type}

/-- A quiet program between others. -/
theorem Owes.quiet {m : M α} {g : α → M β} {post : β → Machine → Prop} (owes : Owes b o s)
    (quiet : Uses Quiet m) (rest : ∀ a t, Owes b o t → Does post (g a) t) :
    Does post (m >>= g) s := by
  refine Runs.seq (still_runs quiet) fun a t still => ?_
  exact rest a t ⟨still.balanced owes.balanced, owes.fixed.trans still.toFixed⟩

theorem Owes.after {op : Op} {g : Res op → M β} {post : β → Machine → Prop} (owes : Owes b o s)
    (quiet : Quiet op) (rest : ∀ a t, Owes b o t → Does post (g a) t) :
    Does post (call op >>= g) s :=
  owes.quiet (quiet_call quiet) rest

theorem Owes.quiet_last {m : M α} (owes : Owes b o s) (quiet : Uses Quiet m) :
    Does (fun _ t => Owes b o t) m s :=
  (still_runs quiet).mono fun _ _ still =>
    ⟨still.balanced owes.balanced, owes.fixed.trans still.toFixed⟩

theorem Owes.setInode {x : Inode} {k : Int} (owes : Owes b o s) (locked : Finset InodeId)
    (ref : x.ref = (s.inode i).ref + k) (busy : x.busy = true ↔ i ∈ locked)
    (others : ∀ j, j ≠ i → (j ∈ locked ↔ j ∈ o.locked)) (held : i ∈ locked → 0 < x.ref) :
    Owes b { o.ref i k with locked := locked } (s.setInode i x) := by
  have next := owes.balanced.setInode busy others held
  rw [ref, add_sub_cancel_left] at next
  exact ⟨next, owes.fixed.trans ⟨rfl, rfl, rfl, rfl, rfl, rfl, rfl⟩⟩

theorem Owed.ref_zero : o.ref i 0 = o := by
  simp [Owed.ref]

theorem Owes.setBusy {x : Inode} (owes : Owes b o s) (locked : Finset InodeId)
    (ref : x.ref = (s.inode i).ref) (busy : x.busy = true ↔ i ∈ locked)
    (others : ∀ j, j ≠ i → (j ∈ locked ↔ j ∈ o.locked)) (held : i ∈ locked → 0 < x.ref) :
    Owes b { o with locked := locked } (s.setInode i x) := by
  have next := owes.setInode (k := 0) locked (by omega) busy others held
  rwa [Owed.ref_zero] at next

theorem Owes.lockOp (owes : Owes b o s) :
    Does (fun _ t => Owes b (o.lock i) t ∧ i ∉ o.locked) (call (.lock i)) s := by
  apply does_call
  · intro r t performed
    simp only [perform] at performed
    split_ifs at performed with ref busy
    cases performed
    have free : i ∉ o.locked := fun isLocked => busy ((owes.balanced.busy i).mpr isLocked)
    exact ⟨owes.setBusy (insert i o.locked) rfl (by simp) (by simp +contextual) (by simp; omega),
      free⟩
  · intro msg performed
    simp only [perform] at performed
    split_ifs at performed
    cases performed
    simp [Tame]

theorem ilock_rest_quiet (i : InodeId) : Uses Quiet (do
    let ip ← look i
    if !ip.valid then
      let data ← bread ip.dev (iblock ip.inum)
      store i (Dinode.ofBlock data ip.inum)
      brelse (iblock ip.inum)
      call (.setValid i)
      if (Dinode.ofBlock data ip.inum).type = 0 then
        panic "ilock: no type") := by
  refine .bind (quiet_call trivial) fun ip => ?_
  apply Uses.ite
  · refine fun _ => .bind (quiet_call trivial) fun data => .bind (quiet_call trivial) fun _ => ?_
    refine .bind (quiet_call trivial) fun _ => .bind (quiet_call trivial) fun _ => ?_
    exact Uses.ite (fun _ => quiet_panic (by decide)) fun _ => trivial
  · exact fun _ => trivial

theorem Owes.ilock (owes : Owes b o s) :
    Does (fun _ t => Owes b (o.lock i) t ∧ i ∉ o.locked) (ilock i) s := by
  refine Runs.seq owes.lockOp fun _ t ⟨owes, free⟩ => ?_
  apply (owes.quiet_last (ilock_rest_quiet i)).mono
  intro _ u owes
  exact ⟨owes, free⟩

theorem Owes.iunlock (owes : Owes b o s) :
    Does (fun _ t => Owes b (o.unlock i) t) (iunlock i) s := by
  apply does_call (.iunlock i)
  · intro r t performed
    simp only [perform] at performed
    split_ifs at performed
    cases performed
    exact owes.setBusy (o.locked.erase i) rfl (by simp) (by simp +contextual) (by simp)
  · intro msg performed
    simp only [perform] at performed
    split_ifs at performed
    cases performed
    simp [Tame]

/-- A locked inode keeps a reference. -/
def Owed.MayPut (o : Owed) (i : InodeId) : Prop := i ∈ o.locked → 2 ≤ o.inode i

theorem Balanced.ref_ge (bal : Balanced o s) (i : InodeId) : o.inode i ≤ (s.inode i).ref := by
  have cwds := pointers_nonneg s.cwds i
  have opened := pointers_nonneg s.opened i
  have total := bal.inode i
  omega

theorem Owes.putBegin (owes : Owes b o s) (may : o.MayPut i) : Does (fun (last : Bool) t =>
      if last then Owes b (o.lock i) t ∧ i ∉ o.locked else Owes b (o.ref i (-1)) t)
      (call (.putBegin i)) s := by
  apply does_call (.putBegin i)
  · intro r t performed
    simp only [perform, FileSystem.putBegin] at performed
    split_ifs at performed with last busy
    · cases performed
      have free : i ∉ o.locked := fun isLocked => busy ((owes.balanced.busy i).mpr isLocked)
      exact ⟨owes.setBusy (insert i o.locked) rfl (by simp) (by simp +contextual) (by simp; omega),
      free⟩
    · cases performed
      have left : i ∈ o.locked → 0 < (s.inode i).ref - 1 := by
        intro isLocked
        have two := may isLocked
        have ref := owes.balanced.ref_ge i
        omega
      exact owes.setInode o.locked rfl (owes.balanced.busy i) (by simp) left
  · intro msg performed
    simp only [perform, FileSystem.putBegin] at performed
    split_ifs at performed
    cases performed
    simp [Tame]

theorem Owes.putEnd (owes : Owes b (o.lock i) s) (free : i ∉ o.locked) :
    Does (fun _ t => Owes b (o.ref i (-1)) t) (call (.putEnd i)) s := by
  apply does_call
  · intro r t performed
    cases performed
    exact owes.setInode o.locked rfl (by simpa using free)
      (by simp +contextual [Owed.lock]) (fun isLocked => absurd isLocked free)
  · intro msg performed
    cases performed

theorem Owes.iput (owes : Owes b o s) (may : o.MayPut i) :
    Does (fun _ t => Owes b (o.ref i (-1)) t) (iput i) s := by
  refine Runs.seq (owes.putBegin may) fun last t owes => ?_
  cases last
  case false => exact owes
  case true =>
    obtain ⟨owes, free⟩ := owes
    refine owes.quiet (itrunc_quiet i) fun _ t owes => ?_
    refine owes.after trivial fun ip t owes => ?_
    refine owes.after trivial fun _ t owes => ?_
    refine owes.quiet (iupdate_quiet i) fun _ t owes => ?_
    exact owes.putEnd free

theorem Owed.unlock_lock (free : i ∉ o.locked) : (o.lock i).unlock i = o := by
  simp [Owed.lock, Owed.unlock, Finset.erase_insert free]

theorem Owed.lock_unlock (isLocked : i ∈ o.locked) : (o.unlock i).lock i = o := by
  simp [Owed.lock, Owed.unlock, Finset.insert_erase isLocked]

section
variable (owes : Owes b o s)
include owes

theorem Owes.iunlockput :
    Does (fun _ t => Owes b ((o.unlock i).ref i (-1)) t) (iunlockput i) s := by
  refine Runs.seq owes.iunlock fun _ t owes => ?_
  exact owes.iput fun isLocked => absurd isLocked (by simp [Owed.unlock])

theorem Owes.iget {dev inum : Nat} : Does (fun i t => Owes b (o.ref i 1) t) (iget dev inum) s := by
  apply does_call (.iget dev inum)
  · intro i t performed
    simp only [perform, igetSlot] at performed
    split at performed
    case h_1 i found =>
      cases performed
      have positive := List.find?_some found
      simp only [decide_eq_true_eq] at positive
      exact owes.setInode o.locked rfl (owes.balanced.busy i) (by simp) fun _ => by
        dsimp only
        omega
    case h_2 =>
      split at performed
      case h_1 i found =>
        cases performed
        have zero := List.find?_some found
        simp only [decide_eq_true_eq] at zero
        have free : i ∉ o.locked := fun isLocked => by
          have held := owes.balanced.held i isLocked
          omega
        exact owes.setInode o.locked (by simp [zero]) ⟨nofun, fun isLocked => absurd isLocked free⟩
          (by simp) fun isLocked => absurd isLocked free
      case h_2 => cases performed
  · intro msg performed
    simp only [perform, igetSlot] at performed
    split at performed
    case h_1 => cases performed
    case h_2 =>
      split at performed <;> cases performed
      simp [Tame]

theorem Owes.idup : Does (fun _ t => Owes b (o.ref i 1) t) (idup i) s := by
  apply does_call (.idup i)
  · intro r t performed
    cases performed
    refine owes.setInode o.locked rfl (owes.balanced.busy i) (by simp) fun isLocked => ?_
    have held := owes.balanced.held i isLocked
    dsimp only
    omega
  · intro msg performed
    cases performed

theorem Owes.device (isLocked : i ∈ o.locked) : Does (fun _ t => Owes b o t) (device i) s := by
  refine Runs.seq owes.iunlock fun _ t owes => ?_
  refine owes.after trivial fun answer t owes => ?_
  apply Runs.bind
  apply owes.ilock.mono
  rintro _ t ⟨owes, -⟩
  rw [Owed.lock_unlock isLocked] at owes
  exact owes

theorem Owes.readi {off n : Nat} (isLocked : i ∈ o.locked) :
    Does (fun _ t => Owes b o t) (readi i off n) s := by
  refine owes.after trivial fun ip t owes => ?_
  apply Runs.ite
  · intro _
    apply Runs.ite
    · exact fun _ => owes.device isLocked
    · exact fun _ => owes
  · intro _
    apply Runs.ite
    · exact fun _ => owes
    · exact fun _ => owes.quiet (readLoop_quiet ..) fun _ t owes => owes

theorem Owes.writei {src : List UInt8} {off : Nat} (isLocked : i ∈ o.locked) :
    Does (fun _ t => Owes b o t) (writei i src off) s := by
  refine owes.after trivial fun ip t owes => ?_
  apply Runs.ite
  · intro _
    apply Runs.ite
    · intro _
      apply Runs.bind
      exact owes.device isLocked
    · exact fun _ => owes
  · intro _
    refine Runs.ite (fun _ => owes) fun _ => ?_
    refine Runs.ite (fun _ => owes) fun _ => ?_
    refine owes.quiet (writeLoop_quiet ..) fun off t owes => ?_
    refine owes.after trivial fun ip t owes => ?_
    apply Runs.ite
    · exact fun _ => owes.after trivial fun _ t owes =>
        owes.quiet (iupdate_quiet i) fun _ t owes => owes
    · exact fun _ => owes

end

/-! ### Directories and paths -/

theorem tame_panic {post : α → Machine → Prop} {msg : String}
    (other : msg ≠ "access to a freed pipe") : Does post (panic msg) s := by
  simpa [Does, panic, Runs, perform, Tame] using other

theorem tame_panic_bind {post : β → Machine → Prop} {g : α → M β} {msg : String}
    (other : msg ≠ "access to a freed pipe") : Does post (panic msg >>= g) s := by
  apply Runs.bind
  exact tame_panic other

theorem Owes.readDirent {off : Nat} (owes : Owes b o s) (isLocked : i ∈ o.locked) :
    Does (fun _ t => Owes b o t) (readDirent i off) s := by
  refine Runs.seq (owes.readi isLocked) fun r t owes => ?_
  cases r with
  | none => exact tame_panic (by decide)
  | some bs =>
    apply Runs.ite
    · exact fun _ => owes
    · exact fun _ => tame_panic (by decide)

/-- The account with a reference more to what a lookup found. -/
def Owed.found (o : Owed) : Option InodeId → Owed
  | none => o
  | some i => o.ref i 1

section
variable (owes : Owes b o s) (isLocked : i ∈ o.locked)
include owes isLocked

theorem Owes.dirlookupLoop {name : List UInt8} {k off : Nat} :
    Does (fun r t => Owes b (o.found (r.map Prod.fst)) t) (dirlookupLoop i name k off) s := by
  induction k generalizing s off with
  | zero => exact owes
  | succ k ih =>
    refine Runs.seq (owes.readDirent isLocked) fun de t owes => ?_
    apply Runs.ite
    · intro _
      refine owes.after trivial fun x t owes => ?_
      apply Runs.bind
      apply owes.iget.mono
      exact fun _ _ owes => owes
    · exact fun _ => ih owes

theorem Owes.dirlookup {name : List UInt8} :
    Does (fun r t => Owes b (o.found (r.map Prod.fst)) t) (dirlookup i name) s := by
  refine owes.after trivial fun x t owes => ?_
  apply Runs.ite
  · exact fun _ => tame_panic (by decide)
  · exact fun _ => owes.dirlookupLoop isLocked

theorem Owes.freeEntry {k off : Nat} : Does (fun _ t => Owes b o t) (freeEntry i k off) s := by
  induction k generalizing s off with
  | zero => exact owes
  | succ k ih =>
    refine Runs.seq (owes.readDirent isLocked) fun de t owes => ?_
    apply Runs.ite
    · exact fun _ => owes
    · exact fun _ => ih owes

end

/-- Nothing is owed, and every locked inode is referenced by the call itself. -/
structure Owed.Owns (o : Owed) : Prop where
  nonneg : ∀ i, 0 ≤ o.inode i
  locked : ∀ i ∈ o.locked, 1 ≤ o.inode i

theorem Owed.Owns.mayPut (owns : o.Owns) : (o.ref i 1).MayPut i := by
  intro isLocked
  have one := owns.locked i isLocked
  simp only [Owed.ref, Pi.add_apply, Pi.single_eq_same]
  omega

theorem Owed.ref_ref_neg (k : Int) : (o.ref i k).ref i (-k) = o := by
  ext <;> simp [Owed.ref, add_assoc, ← Pi.single_add]

theorem Owes.dirlink {name : List UInt8} {inum : Nat} (owes : Owes b o s) (isLocked : i ∈ o.locked)
    (owns : o.Owns) : Does (fun _ t => Owes b o t) (dirlink i name inum) s := by
  refine Runs.seq (owes.dirlookup isLocked) fun r t owes => ?_
  cases r with
  | some found =>
    refine Runs.seq (Owes.iput owes owns.mayPut) fun _ t owes => ?_
    have owes : Owes b ((o.ref found.1 1).ref found.1 (-1)) t := owes
    rw [Owed.ref_ref_neg] at owes
    exact owes
  | none =>
    refine Owes.quiet owes (quiet_call trivial) fun x t owes => ?_
    refine Runs.seq (owes.freeEntry isLocked) fun off t owes => ?_
    refine Runs.seq (owes.writei isLocked) fun r t owes => ?_
    apply Runs.ite
    · exact fun _ => owes
    · exact fun _ => tame_panic (by decide)

theorem Owed.ref_swap {k l : Int} : (o.ref i k).ref j l = (o.ref j l).ref i k := by
  ext <;> simp [Owed.ref, add_right_comm]

theorem Owes.namexLoop {parent : Bool} {fuel : Nat} {path name : List UInt8} (owes : Owes b o s)
    (free : o.locked = ∅) (enough : path.length < fuel) :
    Does (fun r t => Owes b ((o.ref i (-1)).found (r.map Prod.fst)) t)
      (namexLoop parent fuel i path name) s := by
  induction fuel generalizing s o i path name with
  | zero => omega
  | succ fuel ih =>
    have unlocked : i ∉ o.locked := by simp [free]
    simp only [FileSystem.namexLoop]
    split
    case h_1 =>
      apply Runs.ite
      · intro _
        apply Runs.bind
        exact owes.iput fun isLocked => absurd isLocked unlocked
      · intro _
        have same : (o.ref i (-1)).ref i 1 = o := Owed.ref_ref_neg (-1)
        show Owes b ((o.ref i (-1)).ref i 1) s
        rwa [same]
    case h_2 name rest next =>
      have shorter := skipelem_shorter next
      apply Runs.bind
      apply owes.ilock.mono
      rintro _ t ⟨owes, -⟩
      refine owes.after trivial fun x t owes => ?_
      apply Runs.ite
      · intro _
        refine Runs.seq owes.iunlockput fun _ t owes => ?_
        rwa [Owed.unlock_lock unlocked] at owes
      · intro _
        apply Runs.ite
        · intro _
          refine Runs.seq owes.iunlock fun _ t owes => ?_
          rw [Owed.unlock_lock unlocked] at owes
          have same : (o.ref i (-1)).ref i 1 = o := Owed.ref_ref_neg (-1)
          show Owes b ((o.ref i (-1)).ref i 1) t
          rwa [same]
        · intro _
          refine Runs.seq (owes.dirlookup (by simp [Owed.lock])) fun r t owes => ?_
          cases r with
          | none =>
            refine Runs.seq (Owes.iunlockput owes) fun _ t owes => ?_
            have owes : Owes b (((o.lock i).unlock i).ref i (-1)) t := owes
            rwa [Owed.unlock_lock unlocked] at owes
          | some found =>
            obtain ⟨next, off⟩ := found
            refine Runs.seq (Owes.iunlockput owes) fun _ t owes => ?_
            have step : ((((o.lock i).found (some next)).unlock i).ref i (-1)) =
                (o.ref next 1).ref i (-1) :=
              congrArg (fun o => Owed.ref o i (-1)) (Owed.unlock_lock (o := o.ref next 1) unlocked)
            have owes' : Owes b ((o.ref next 1).ref i (-1)) t := step ▸ owes
            have rest := @ih _ _ next rest name owes' free (by omega)
            have back : ((o.ref next 1).ref i (-1)).ref next (-1) = o.ref i (-1) := by
              rw [Owed.ref_swap (i := next), Owed.ref_ref_neg]
            rwa [back] at rest

end FileSystem
