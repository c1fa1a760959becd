import PinkyOS.CallReferences
import PinkyOS.TransitionSystem

/-!
# The file table and the descriptors

The calls that change the tables: `open`, `close`, `dup`, `pipe`, `chdir`, `fork` and `exit`, and
`read` and `write`, which reach pipes through them.
-/
namespace FileSystem
open ByteBuffer DiskLog DiskFormat Program PointerCount Function Machine
open SleepWakeup (Slot ProcState initproc)

variable {s t b : Machine} {o : Owed} {i j : InodeId} {f : FileId} {p : Slot} {k : Int}

/-! ### One entry of a table -/

theorem opened_setFile {x : File} : (s.setFile f x).opened = update s.opened f x.opened := by
  funext g
  by_cases same : g = f
  · subst same
    simp [opened, setFile]
  · simp [opened, setFile, same]

theorem ends_setFile {x : File} : (s.setFile f x).ends = update s.ends f x.ends := by
  funext g
  by_cases same : g = f
  · subst same
    simp [ends, setFile]
  · simp [ends, setFile, same]

/-- An entry of the file table changes, and the call takes over what it refers to. -/
theorem Balanced.setFile {x : File} {taken : List FileId} {released : List (FileId × File)}
    {o' : Owed} (bal : Balanced o s) (idle : x.ref ≤ 0 → x.type = .none)
    (counts : ∀ g, taken.count g = (released.map Prod.fst).count g +
      if 0 < ((s.setFile f x).file g).ref then 1 else 0)
    (file : o'.file = o.file + Pi.single f (x.ref - (s.file f).ref))
    (inode : o'.inode = o.inode + mark (s.opened f) - mark x.opened)
    (ends : o'.ends = o.ends + mark (s.ends f) - mark x.ends) (locked : o'.locked = o.locked) :
    Balanced o' { s.setFile f x with taken := taken, released := released } := by
  constructor
  case file =>
    intro g
    have before := bal.file g
    rw [file]
    by_cases same : g = f
    · subst same
      simp only [Machine.setFile, update_self, Pi.add_apply, Pi.single_eq_same]
      show x.ref = pointers s.slots g + _
      omega
    · simp only [Machine.setFile, update_of_ne same, Pi.add_apply, Pi.single_eq_of_ne same]
      show _ = pointers s.slots g + _
      omega
  case inode =>
    intro i
    have before := bal.inode i
    show (s.inode i).ref = pointers s.cwds i + pointers (s.setFile f x).opened i + _
    rw [opened_setFile, pointers_update, inode]
    simp only [Pi.add_apply, Pi.sub_apply]
    omega
  case busy =>
    rw [locked]
    exact bal.busy
  case held =>
    rw [locked]
    exact bal.held
  case idle =>
    intro g
    by_cases same : g = f
    · subst same
      simpa [Machine.setFile] using idle
    · simpa [Machine.setFile, same] using bal.idle g
  case ends =>
    intro a w
    have before := bal.ends a w
    show pointers (s.setFile f x).ends (a, w) + _ = if s.isOpen a w then 1 else 0
    rw [ends_setFile, pointers_update, ends]
    simp only [Pi.add_apply, Pi.sub_apply]
    omega
  case live => exact bal.live
  case taken => exact counts
  case made => exact bal.made

/-- An entry that stays in use, or stays free, changes. -/
theorem Balanced.storeFile {x : File} {o' : Owed} (bal : Balanced o s)
    (idle : x.ref ≤ 0 → x.type = .none) (used : 0 < x.ref ↔ 0 < (s.file f).ref)
    (file : o'.file = o.file + Pi.single f (x.ref - (s.file f).ref))
    (inode : o'.inode = o.inode + mark (s.opened f) - mark x.opened)
    (ends : o'.ends = o.ends + mark (s.ends f) - mark x.ends) (locked : o'.locked = o.locked) :
    Balanced o' (s.setFile f x) := by
  apply bal.setFile idle ?_ file inode ends locked
  intro g
  have before := bal.taken g
  by_cases same : g = f
  · subst same
    simpa [Machine.setFile, used] using before
  · simpa [Machine.setFile, same] using before

theorem slots_setProc {x : Proc} {fd : Fd} {v : Option FileId}
    (shape : x.ofile = update (s.proc p).ofile fd v) :
    (s.setProc p x).slots = update s.slots (p, fd) v := by
  funext ⟨q, g⟩
  by_cases same : q = p
  · subst same
    by_cases same' : g = fd
    · subst same'
      simp [slots, setProc, shape]
    · simp [slots, setProc, shape, same']
  · simp [slots, setProc, same]

theorem slots_same {x : Proc} (shape : x.ofile = (s.proc p).ofile) :
    (s.setProc p x).slots = s.slots := by
  funext ⟨q, g⟩
  by_cases same : q = p
  · subst same
    simp [slots, setProc, shape]
  · simp [slots, setProc, same]

theorem cwds_setProc {x : Proc} : (s.setProc p x).cwds = update s.cwds p x.cwd := by
  funext q
  by_cases same : q = p
  · subst same
    simp [cwds, setProc]
  · simp [cwds, setProc, same]

theorem Balanced.setProc {x : Proc} {inode : InodeId → Int} {file : FileId → Int}
    (bal : Balanced o s)
    (slots : ∀ g, pointers (s.setProc p x).slots g + file g = pointers s.slots g + o.file g)
    (cwds : ∀ i, pointers (s.setProc p x).cwds i + inode i = pointers s.cwds i + o.inode i) :
    Balanced { o with inode := inode, file := file } (s.setProc p x) := by
  constructor
  case file =>
    intro g
    have before := bal.file g
    have change := slots g
    show (s.file g).ref = pointers (s.setProc p x).slots g + file g
    omega
  case inode =>
    intro i
    have before := bal.inode i
    have change := cwds i
    show (s.inode i).ref = pointers (s.setProc p x).cwds i + pointers s.opened i + inode i
    omega
  case busy => exact bal.busy
  case held => exact bal.held
  case idle => exact bal.idle
  case ends => exact bal.ends
  case live => exact bal.live
  case taken => exact bal.taken
  case made => exact bal.made

theorem Balanced.setOfile (bal : Balanced o s) (p : Slot) (fd : Fd) (v : Option FileId) :
    Balanced { o with file := o.file + mark ((s.proc p).ofile fd) - mark v }
      (s.setOfile p fd v) := by
  apply bal.setProc
  · intro g
    have here : s.slots (p, fd) = (s.proc p).ofile fd := rfl
    rw [slots_setProc rfl, pointers_update, here]
    simp only [Pi.add_apply, Pi.sub_apply]
    omega
  · intro i
    have same : update s.cwds p (s.proc p).cwd = s.cwds := update_eq_self p s.cwds
    rw [cwds_setProc, same]

theorem Balanced.setCwd (bal : Balanced o s) (p : Slot) (v : Option InodeId) :
    Balanced { o with inode := o.inode + mark (s.proc p).cwd - mark v }
      (s.setCwd p v) := by
  apply bal.setProc
  · intro g
    rw [slots_same (x := { s.proc p with cwd := v }) rfl]
  · intro i
    have here : s.cwds p = (s.proc p).cwd := rfl
    rw [cwds_setProc, pointers_update, here]
    simp only [Pi.add_apply, Pi.sub_apply]
    omega

theorem Balanced.setState (bal : Balanced o s) (p : Slot) (state : ProcState) :
    Balanced o (s.setState p state) := by
  apply bal.setProc
  · intro g
    rw [slots_same (x := { s.proc p with state := state }) rfl]
  · intro i
    have same : update s.cwds p (s.proc p).cwd = s.cwds := update_eq_self p s.cwds
    rw [cwds_setProc, same]

/-! ### Operations -/

variable {α β : Type} {post : β → Machine → Prop}

/-- `filealloc`: a free entry of no type. -/
theorem Balanced.filealloc {g : Option FileId → M β} (bal : Balanced o s)
    (full : Does post (g none) s)
    (found : ∀ f t, Balanced (o.fref f 1) t → (s.file f).ref = 0 → (t.file f).ref = 1 →
      (t.file f).type = .none → (∀ g, g ≠ f → t.file g = s.file g) → t.proc = s.proc →
      Does post (g (some f)) t) : Does post (call .filealloc >>= g) s := by
  cases search : (List.finRange nfile).find? fun f => (s.file f).ref = 0 with
  | none =>
    refine runs_known .filealloc (t := s) (r := none) ?_ full
    simp [perform, fileSlot, search]
  | some f =>
    have zero : (s.file f).ref = 0 := by simpa using List.find?_some search
    have none' := bal.idle f (by omega)
    refine runs_known .filealloc
      (t := { s.setFile f { s.file f with ref := 1 } with taken := f :: s.taken }) (r := some f) ?_ ?_
    · simp [perform, fileSlot, search]
    · refine found f _ (bal.setFile (by simp) ?_ ?_ ?_ ?_ rfl) zero ?_ ?_ ?_ rfl
      case refine_1 =>
        intro g
        have before := bal.taken g
        by_cases same : g = f
        · subst same
          simp only [zero, lt_self_iff_false, if_false] at before
          simp [Machine.setFile, before]
        · have other : f ≠ g := fun h => same h.symm
          simpa [Machine.setFile, same, other] using before
      case refine_2 => simp [Owed.fref, zero]
      case refine_3 => exact (add_sub_cancel_right _ _).symm
      case refine_4 => exact (add_sub_cancel_right _ _).symm
      case refine_5 => simp [Machine.setFile]
      case refine_6 => simp [Machine.setFile, none']
      case refine_7 => simp +contextual [Machine.setFile]

theorem Balanced.filedup {g : Unit → M β} (bal : Balanced o s)
    (rest : ∀ t, Balanced (o.fref f 1) t → t.proc = s.proc → Does post (g ()) t) :
    Does post (call (.filedup f) >>= g) s := by
  apply Runs.op
  · intro r t performed
    simp only [perform] at performed
    split_ifs at performed with low
    cases performed
    refine rest _ (bal.storeFile (fun low' => ?_) ?_ ?_ ?_ ?_ rfl) rfl
    · simp only at low'
      omega
    · simp only
      omega
    · simp [Owed.fref]
    · exact (add_sub_cancel_right _ _).symm
    · exact (add_sub_cancel_right _ _).symm
  · exact fun _ => tame_none
  · intro msg performed
    simp only [perform] at performed
    split_ifs at performed
    cases performed
    simp [Tame]

/-- The section of `fileclose` under the lock. -/
theorem Balanced.closeRef {g : Option File → M β} (bal : Balanced o s)
    (more : ∀ t, Balanced (o.fref f (-1)) t → t.proc = s.proc → t.pipe = s.pipe →
      Does post (g none) t)
    (last : ∀ t, Balanced { o.fref f (-1) with
        inode := o.inode + mark (s.opened f), ends := o.ends + mark (s.ends f) } t →
      t.proc = s.proc → t.pipe = s.pipe → Does post (g (some { s.file f with ref := 0 })) t) :
    Does post (call (.closeRef f) >>= g) s := by
  apply Runs.op
  · intro r t performed
    simp only [perform, FileSystem.closeRef] at performed
    split_ifs at performed with low high
    · cases performed
      refine more _ (bal.storeFile (fun low' => ?_) ?_ ?_ ?_ ?_ rfl) rfl rfl
      · simp only at low'
        omega
      · simp only
        omega
      · simp [Owed.fref]
      · exact (add_sub_cancel_right _ _).symm
      · exact (add_sub_cancel_right _ _).symm
    · cases performed
      have one : (s.file f).ref = 1 := by omega
      refine last _ (bal.setFile (by simp) ?_ ?_ ?_ ?_ rfl) rfl rfl
      · intro g
        have before := bal.taken g
        by_cases same : g = f
        · subst same
          simp only [one, zero_lt_one, if_true] at before
          simp [Machine.setFile, before]
        · have other : f ≠ g := fun h => same h.symm
          simpa [Machine.setFile, same, other] using before
      · simp [Owed.fref, one]
      · simp [File.opened]
      · simp [File.ends]
  · exact fun _ => tame_none
  · intro msg performed
    simp only [perform, FileSystem.closeRef] at performed
    split_ifs at performed
    cases performed
    simp [Tame]

theorem isOpen_setPipe {a c : Nat} {v : Option Ends} {w : Bool} : (s.setPipe a v).isOpen c w =
      if c = a then v.any (fun e => if w then e.writeopen else e.readopen) else s.isOpen c w := by
  by_cases same : c = a
  · subst same
    cases v <;> simp [isOpen, setPipe]
  · simp [isOpen, setPipe, same]

theorem Balanced.setPipe {a : Nat} {v : Option Ends} {made freed : List Nat} {o' : Owed}
    (bal : Balanced o s) (live : ∀ e, v = some e → e.readopen = true ∨ e.writeopen = true)
    (counts : ∀ c, made.count c = freed.count c +
      if ((s.setPipe a v).pipe c).isSome then 1 else 0)
    (ends : ∀ c w, o'.ends (c, w) - (if (s.setPipe a v).isOpen c w then 1 else 0) =
      o.ends (c, w) - if s.isOpen c w then 1 else 0)
    (inode : o'.inode = o.inode) (file : o'.file = o.file) (locked : o'.locked = o.locked) :
    Balanced o' { s.setPipe a v with made := made, freed := freed } := by
  constructor
  case file =>
    rw [file]
    exact bal.file
  case inode =>
    rw [inode]
    exact bal.inode
  case busy =>
    rw [locked]
    exact bal.busy
  case held =>
    rw [locked]
    exact bal.held
  case idle => exact bal.idle
  case ends =>
    intro c w
    have before := bal.ends c w
    have change := ends c w
    show pointers s.ends (c, w) + _ = if (s.setPipe a v).isOpen c w then 1 else 0
    omega
  case live =>
    intro c e is
    by_cases same : c = a
    · subst same
      exact live e (by simpa [Machine.setPipe] using is)
    · exact bal.live c e (by simpa [Machine.setPipe, same] using is)
  case taken => exact bal.taken
  case made => exact counts

theorem Balanced.pipeclose {a : Nat} {w : Bool} (bal : Balanced o s) (due : 1 ≤ o.ends (a, w)) :
    Does (fun _ t => Balanced { o with ends := o.ends - Pi.single (a, w) 1 } t ∧ t.proc = s.proc)
      (call (.pipeclose a w)) s := by
  have before := bal.ends a w
  have some' := pointers_nonneg s.ends (a, w)
  have isOpen : s.isOpen a w = true := by
    by_contra closed
    rw [if_neg closed] at before
    omega
  obtain ⟨e, is⟩ : ∃ e, s.pipe a = some e := by
    cases is : s.pipe a with
    | none => simp [Machine.isOpen, is] at isOpen
    | some e => exact ⟨e, rfl⟩
  have count := bal.made a
  rw [is, Option.isSome_some, if_pos rfl] at count
  have flag : (if w then e.writeopen else e.readopen) = true := by
    simpa [Machine.isOpen, is] using isOpen
  -- whether the pipe is freed or not, its ends are those that the flags show
  have after : ∀ v : Option Ends,
      (∀ w' : Bool, (v.any fun e => if w' then e.writeopen else e.readopen) =
        if w' then (e.close w).writeopen else (e.close w).readopen) →
      ∀ c w', ({ o with ends := o.ends - Pi.single (a, w) 1 } : Owed).ends (c, w') -
        (if (s.setPipe a v).isOpen c w' then 1 else 0) =
          o.ends (c, w') - if s.isOpen c w' then 1 else 0 := by
    intro v flags c w'
    rw [isOpen_setPipe]
    by_cases same : c = a
    · subst same
      rw [if_pos rfl, flags]
      cases w <;> cases w' <;> simp_all [Ends.close, Machine.isOpen]
    · simp [same]
  apply does_call
  · intro r t performed
    simp only [perform, FileSystem.pipeclose, is] at performed
    split at performed
    case isTrue closed =>
      cases performed
      refine ⟨bal.setPipe (by simp) ?_ (after none ?_) rfl rfl rfl, rfl⟩
      · intro c
        by_cases same : c = a
        · subst same
          simp [Machine.setPipe, count]
        · have other : a ≠ c := fun h => same h.symm
          simpa [Machine.setPipe, same, other] using bal.made c
      · intro w'
        simp only [Bool.and_eq_true, Bool.not_eq_true'] at closed
        cases w' <;> simp [closed]
    case isFalse open' =>
      cases performed
      refine ⟨bal.setPipe ?_ ?_ (after (some (e.close w)) fun w' => rfl) rfl rfl rfl, rfl⟩
      · intro e' is'
        cases is'
        simp only [Bool.and_eq_true, Bool.not_eq_true', not_and, Bool.not_eq_false] at open'
        by_cases reading : (e.close w).readopen = true
        · exact .inl reading
        · exact .inr (open' (by simpa using reading))
      · intro c
        by_cases same : c = a
        · subst same
          simp [Machine.setPipe, count]
        · simpa [Machine.setPipe, same] using bal.made c
  · intro msg performed
    simp only [perform, FileSystem.pipeclose, is] at performed
    split at performed <;> cases performed

/-- `fileclose` gives back one reference of the caller. -/
theorem Balanced.fileclose (bal : Balanced o s) (ends : o.ends = 0)
    (free : o.locked = ∅ ∨ (s.file f).type ≠ .inode) :
    Does (fun _ t => Balanced (o.fref f (-1)) t ∧ t.proc = s.proc) (fileclose f) s := by
  apply bal.closeRef
  · exact fun t bal proc _ => ⟨bal, proc⟩
  · intro t bal proc _
    simp only
    split
    case h_1 isPipe =>
      have due : mark (s.ends f) = Pi.single ((s.file f).pipe, (s.file f).writable) 1 := by
        rw [Machine.ends, File.ends, if_pos isPipe, mark_some]
      have opened : s.opened f = none := by simp [Machine.opened, File.opened, isPipe]
      rw [due, opened, mark_none, add_zero] at bal
      apply (bal.pipeclose (by simp [ends])).mono
      rintro _ u ⟨bal, proc'⟩
      rw [add_sub_cancel_right] at bal
      exact ⟨bal, proc'.trans proc⟩
    case h_2 isInode =>
      have due : mark (s.opened f) = Pi.single (s.file f).ip 1 := by
        rw [Machine.opened, File.opened, if_pos isInode, mark_some]
      have noEnd : s.ends f = none := by simp [Machine.ends, File.ends, isInode]
      have free : o.locked = ∅ := free.resolve_right (by simp [isInode])
      rw [due, noEnd, mark_none, add_zero] at bal
      have owes : Owes t ((o.fref f (-1)).ref (s.file f).ip 1) t := ⟨bal, .refl t⟩
      refine owes.after trivial fun _ u owes => ?_
      refine Runs.seq (owes.iput fun isLocked => by simp [Owed.ref, Owed.fref, free] at isLocked)
        fun _ u owes => ?_
      rw [Owed.ref_ref_neg] at owes
      apply (owes.quiet_last (m := commitTrans) (quiet_call trivial)).mono
      exact fun _ u owes => ⟨owes.balanced, owes.fixed.proc.trans proc⟩
    case h_3 isNone =>
      have opened : s.opened f = none := by simp [Machine.opened, File.opened, isNone]
      have noEnd : s.ends f = none := by simp [Machine.ends, File.ends, isNone]
      rw [opened, noEnd, mark_none, mark_none, add_zero, add_zero] at bal
      exact ⟨bal, proc⟩

/-! ### Descriptors -/

/-- Nothing happened to the other processes, nor to the state of `p`. -/
structure Outside (p : Slot) (s t : Machine) : Prop where
  other : ∀ q, q ≠ p → t.proc q = s.proc q
  state : (t.proc p).state = (s.proc p).state

theorem Outside.of_eq (same : t.proc = s.proc) : Outside p s t := by
  constructor <;> simp [same]

theorem Outside.trans {u : Machine} (one : Outside p s t) (two : Outside p t u) : Outside p s u :=
  ⟨fun q h => (two.other q h).trans (one.other q h), two.state.trans one.state⟩

theorem Outside.setProc {x : Proc} (state : x.state = (s.proc p).state) :
    Outside p s (s.setProc p x) := by
  constructor
  · intro q other
    simp [Machine.setProc, other]
  · simpa [Machine.setProc] using state

theorem Outside.setOfile {d : Fd} {v : Option FileId} : Outside p s (s.setOfile p d v) :=
  .setProc rfl

theorem does_argfd {fd : Int} {g : Option (Fd × FileId) → M β} (bad : Does post (g none) s)
    (good : ∀ fd f, (s.proc p).ofile fd = some f → Does post (g (some (fd, f))) s) :
    Does post (argfd p fd >>= g) s := by
  rw [argfd]
  split
  case isTrue inside =>
    apply Runs.bind
    refine runs_known (.getProc p) (t := s) (r := s.proc p) rfl ?_
    split
    case h_1 f points => exact good _ f points
    case h_2 => exact bad
  case isFalse => exact bad

/-- `fdalloc` moves a reference of the call into a descriptor. -/
theorem Balanced.fdalloc {g : Option Fd → M β} (bal : Balanced o s) (full : Does post (g none) s)
    (found : ∀ fd, (s.proc p).ofile fd = none →
      Balanced (o.fref f (-1)) (s.setOfile p fd (some f)) →
      Does post (g (some fd)) (s.setOfile p fd (some f))) :
    Does post (fdalloc p f >>= g) s := by
  apply Runs.bind
  refine runs_known (.getProc p) (t := s) (r := s.proc p) rfl ?_
  split
  case h_1 fd search =>
    have empty : (s.proc p).ofile fd = none := by simpa using List.find?_some search
    have next := bal.setOfile p fd (some f)
    rw [empty, mark_none, add_zero, mark_some] at next
    have same : o.file - Pi.single f 1 = (o.fref f (-1)).file := by
      simp [Owed.fref, sub_eq_add_neg, Pi.single_neg]
    rw [same] at next
    exact runs_known (.setOfile p fd (some f)) (r := ()) rfl (found fd empty next)
  case h_2 => exact full

theorem Owed.fref_fref_neg (k : Int) : (o.fref f k).fref f (-k) = o := by
  ext <;> simp [Owed.fref, add_assoc, ← Pi.single_add]

theorem Balanced.sysDup {fd : Int} (bal : Balanced o s) :
    Does (fun _ t => Balanced o t ∧ Outside p s t) (sysDup p fd) s := by
  apply does_argfd
  · exact ⟨bal, .of_eq rfl⟩
  · intro fd f points
    apply bal.fdalloc
    · exact ⟨bal, .of_eq rfl⟩
    · intro fd' empty bal
      apply bal.filedup
      intro t bal proc
      have back : (o.fref f (-1)).fref f 1 = o := Owed.fref_fref_neg (-1)
      rw [back] at bal
      exact ⟨bal, Outside.setOfile.trans (.of_eq proc)⟩

/-- A cleared descriptor leaves its reference to the call. -/
theorem Balanced.clear {d : Fd} (bal : Balanced o s) (points : (s.proc p).ofile d = some f) :
    Balanced (o.fref f 1) (s.setOfile p d none) := by
  have next := bal.setOfile p d none
  rwa [points, mark_none, sub_zero, mark_some] at next

theorem Balanced.sysClose {fd : Int} (bal : Balanced o s) (ends : o.ends = 0)
    (free : o.locked = ∅) : Does (fun _ t => Balanced o t ∧ Outside p s t) (sysClose p fd) s := by
  apply does_argfd
  · exact ⟨bal, .of_eq rfl⟩
  · intro fd f points
    refine runs_known (.setOfile p fd none) (r := ()) rfl ?_
    refine Runs.seq ((bal.clear points).fileclose ends (.inl free)) fun _ t ⟨bal, proc⟩ => ?_
    rw [Owed.fref_fref_neg] at bal
    exact ⟨bal, Outside.setOfile.trans (.of_eq proc)⟩

/-! ### `open` -/

theorem Balanced.openInode {omode : BitVec 64} (bal : Balanced ((Owed.zero.ref i 1).lock i) s) :
    Does (fun _ t => Balanced .zero t ∧ Outside p s t) (openInode p i omode) s := by
  have free : i ∉ (Owed.zero.ref i 1).locked := by simp [Owed.ref, Owed.zero]
  have give : ∀ t u, Balanced ((Owed.zero.ref i 1).lock i) u → Outside p t u →
      Does (fun _ u => Balanced .zero u ∧ Outside p t u) (do
        FileSystem.iunlockput i
        return (none : Option Fd)) u := by
    intro t u bal outside
    have owes : Owes u ((Owed.zero.ref i 1).lock i) u := ⟨bal, .refl u⟩
    refine Runs.seq owes.iunlockput fun _ v owes => ?_
    rw [Owed.unlock_ref free] at owes
    exact ⟨owes.balanced, outside.trans (.of_eq owes.fixed.proc)⟩
  apply bal.filealloc
  · exact give s s bal (.of_eq rfl)
  · intro f t bal zero one isNone others proc
    apply bal.fdalloc
    · apply Runs.bind
      apply (bal.fileclose rfl (.inr (by simp [isNone]))).mono
      rintro _ u ⟨bal, proc'⟩
      rw [Owed.fref_fref_neg] at bal
      exact give s u bal (.of_eq (proc'.trans proc))
    · intro fd empty bal
      rw [Owed.fref_fref_neg] at bal
      apply Runs.bind
      have owes : Owes _ ((Owed.zero.ref i 1).lock i) _ := ⟨bal, .refl _⟩
      apply owes.iunlock.mono
      intro _ u owes
      rw [Owed.unlock_lock free] at owes
      have entry : u.file f = t.file f := congrFun owes.fixed.file f
      refine runs_known (.lookFile f) (t := u) (r := u.file f) rfl ?_
      refine runs_known (.storeFile f _) (r := ()) rfl ⟨owes.balanced.storeFile ?_ .rfl ?_ ?_ ?_ rfl, ?_⟩
      · intro low
        simp only [entry, one] at low
        omega
      · simp [Owed.ref]
      · have opened : u.opened f = none := by simp [Machine.opened, File.opened, entry, isNone]
        simp [opened, File.opened, mark_some, Owed.ref]
      · have noEnd : u.ends f = none := by simp [Machine.ends, File.ends, entry, isNone]
        simp [noEnd, File.ends, Owed.ref]
      · have outside : Outside p t u := Outside.setOfile.trans (.of_eq owes.fixed.proc)
        exact (Outside.of_eq proc).trans (outside.trans (.of_eq rfl))

theorem Balanced.sysOpen {path : Option Path} {omode : BitVec 64} (bal : Balanced .zero s) :
    Does (fun _ t => Balanced .zero t ∧ Outside p s t) (sysOpen p path omode) s := by
  have owns : Owed.zero.Owns := ⟨fun _ => le_rfl, by simp [Owed.zero]⟩
  have owes : Owes s .zero s := ⟨bal, .refl s⟩
  cases path with
  | none => exact ⟨bal, .of_eq rfl⟩
  | some path =>
    apply Runs.ite
    · intro _
      refine owes.after trivial fun _ t owes => ?_
      refine Runs.seq (owes.create rfl owns) fun r t owes => ?_
      refine owes.after trivial fun _ t owes => ?_
      cases r with
      | none => exact ⟨owes.balanced, .of_eq owes.fixed.proc⟩
      | some i =>
        apply Runs.mono (Balanced.openInode owes.balanced)
        rintro _ u ⟨bal, outside⟩
        exact ⟨bal, (Outside.of_eq owes.fixed.proc).trans outside⟩
    · intro _
      refine Runs.seq (owes.namei rfl) fun r t owes => ?_
      cases r with
      | none => exact ⟨owes.balanced, .of_eq owes.fixed.proc⟩
      | some i =>
        have owes : Owes s (Owed.zero.ref i 1) t := owes
        refine Runs.seq owes.ilock fun _ t ⟨owes, iFree⟩ => ?_
        refine owes.after trivial fun ip t owes => ?_
        apply Runs.ite
        · intro _
          refine owes.drop iFree fun t owes => ?_
          exact ⟨owes.balanced, .of_eq owes.fixed.proc⟩
        · intro _
          apply Runs.mono (Balanced.openInode owes.balanced)
          rintro _ u ⟨bal, outside⟩
          exact ⟨bal, (Outside.of_eq owes.fixed.proc).trans outside⟩

/-! ### `pipe` -/

theorem Balanced.pipeNew {g : Option Nat → M β} (bal : Balanced o s)
    (failed : ∀ t, Balanced o t → t.file = s.file → t.proc = s.proc → Does post (g none) t)
    (made : ∀ a t,
      Balanced { o with ends := o.ends + Pi.single (a, false) 1 + Pi.single (a, true) 1 } t →
      t.file = s.file → t.proc = s.proc → Does post (g (some a)) t) : Does post (call .pipeNew >>= g) s := by
  have asked : Still s s.ask := .disk ..
  by_cases bad : s.memory s.asked = 0 ∨ (s.pipe (s.memory s.asked)).isSome
  · refine runs_known .pipeNew (t := s.ask) (r := none) ?_
      (failed _ (asked.balanced bal) rfl rfl)
    simp [perform, FileSystem.pipeNew, bad]
  · refine runs_known .pipeNew (r := some (s.memory s.asked)) ?_
      (made (s.memory s.asked) { s.ask.setPipe (s.memory s.asked) (some ⟨true, true⟩) with
        made := s.memory s.asked :: s.made } ?_ rfl rfl)
    · simp [perform, FileSystem.pipeNew, bad]
    · have none' : s.pipe (s.memory s.asked) = none := by
        simp only [not_or, Bool.not_eq_true, Option.isSome_eq_false_iff,
          Option.isNone_iff_eq_none] at bad
        exact bad.2
      apply (asked.balanced bal).setPipe
      · rintro e ⟨⟩
        exact .inl rfl
      · intro c
        have before := bal.made c
        by_cases same : c = s.memory s.asked
        · subst same
          simp only [none', Option.isSome_none, Bool.false_eq_true, if_false] at before
          simpa [Machine.setPipe, Machine.ask] using before
        · have other : s.memory s.asked ≠ c := fun h => same h.symm
          simpa [Machine.setPipe, Machine.ask, same, other] using before
      · intro c w
        rw [isOpen_setPipe]
        have before : s.ask.isOpen c w = s.isOpen c w := rfl
        rw [before]
        by_cases same : c = s.memory s.asked
        · subst same
          cases w <;> simp [Machine.isOpen, none']
        · simp [same]
      · rfl
      · rfl
      · rfl

theorem Balanced.storeEnd {x : File} {a : Nat} {w : Bool} {g : Unit → M β}
    (bal : Balanced { o with ends := o.ends + Pi.single (a, w) 1 } s)
    (isNone : (s.file f).type = .none) (used : 0 < (s.file f).ref)
    (rest : ∀ t, Balanced o t → (∀ g, g ≠ f → t.file g = s.file g) → t.proc = s.proc →
      Does post (g ()) t) (ref : x.ref = (s.file f).ref) (type : x.type = .pipe)
    (pipe : x.pipe = a) (writable : x.writable = w) :
    Does post (call (.storeFile f x) >>= g) s := by
  refine runs_known (.storeFile f x) (r := ()) rfl (rest _ (bal.storeFile ?_ ?_ ?_ ?_ ?_ rfl) ?_ rfl)
  · intro low
    omega
  · rw [ref]
  · simp [ref]
  · have opened : s.opened f = none := by simp [Machine.opened, File.opened, isNone]
    simp [opened, File.opened, type]
  · have noEnd : s.ends f = none := by simp [Machine.ends, File.ends, isNone]
    simp [noEnd, File.ends, type, pipe, writable, mark_some]
  · simp +contextual [Machine.setFile]

theorem Balanced.closeBoth {f0 f1 : FileId} (bal : Balanced ((Owed.zero.fref f0 1).fref f1 1) s)
    (a : α) : Does (fun r t => r = a ∧ Balanced .zero t ∧ t.proc = s.proc) (do
      FileSystem.fileclose f0
      FileSystem.fileclose f1
      return a) s := by
  refine Runs.seq (bal.fileclose rfl (.inl rfl)) fun _ t ⟨bal, proc⟩ => ?_
  refine Runs.seq (bal.fileclose rfl (.inl rfl)) fun _ u ⟨bal, proc'⟩ => ?_
  have back : (((Owed.zero.fref f0 1).fref f1 1).fref f0 (-1)).fref f1 (-1) = .zero := by
    ext g <;> simp only [Owed.fref, Pi.add_apply, Pi.single_apply]
    split <;> split <;> simp
  rw [back] at bal
  exact ⟨rfl, bal, proc'.trans proc⟩

theorem Balanced.pipealloc (bal : Balanced .zero s) :
    Does (fun r t => t.proc = s.proc ∧ match r with
      | none => Balanced .zero t
      | some (f0, f1) => Balanced ((Owed.zero.fref f0 1).fref f1 1) t) pipealloc s := by
  apply bal.filealloc
  · exact ⟨rfl, bal⟩
  · intro f0 t bal zero one none0 others proc
    apply bal.filealloc
    · apply Runs.bind
      apply (bal.fileclose rfl (.inl rfl)).mono
      rintro _ u ⟨bal, proc'⟩
      rw [Owed.fref_fref_neg] at bal
      exact ⟨proc'.trans proc, bal⟩
    · intro f1 u bal zero1 one1 none1 others1 proc1
      have apart : f0 ≠ f1 := by
        rintro rfl
        omega
      have entry0 := others1 f0 apart
      apply bal.pipeNew
      · intro v bal file procv
        apply Runs.mono (bal.closeBoth none)
        rintro r w ⟨rfl, bal, procw⟩
        exact ⟨procw.trans (procv.trans (proc1.trans proc)), bal⟩
      · intro a v bal file procv
        have at0 : v.file f0 = t.file f0 := (congrFun file f0).trans entry0
        have at1 : v.file f1 = u.file f1 := congrFun file f1
        refine runs_known (.lookFile f0) (t := v) (r := v.file f0) rfl ?_
        have swap : ((Owed.zero.fref f0 1).fref f1 1).ends + Pi.single (a, false) 1 +
            Pi.single (a, true) 1 = ({ (Owed.zero.fref f0 1).fref f1 1 with
              ends := Pi.single (a, true) 1 } : Owed).ends + Pi.single (a, false) 1 := by
          simp [Owed.fref, Owed.zero, add_comm]
        rw [swap] at bal
        refine Balanced.storeEnd (w := false) (a := a)
          (o := { (Owed.zero.fref f0 1).fref f1 1 with ends := Pi.single (a, true) 1 })
          bal (by rw [at0, none0]) (by rw [at0, one]; omega) ?_ rfl rfl rfl rfl
        intro v' bal others' procv'
        have at1' : v'.file f1 = u.file f1 := (others' f1 apart.symm).trans at1
        refine runs_known (.lookFile f1) (t := v') (r := v'.file f1) rfl ?_
        refine Balanced.storeEnd (w := true) (a := a) (o := (Owed.zero.fref f0 1).fref f1 1)
          (by simpa [Owed.fref, Owed.zero] using bal) (by rw [at1', none1])
          (by rw [at1', one1]; omega) ?_
          rfl rfl rfl rfl
        intro w bal _ procw
        exact ⟨procw.trans (procv'.trans (procv.trans (proc1.trans proc))), bal⟩

theorem Owed.fref_swap {g : FileId} {l : Int} : (o.fref f k).fref g l = (o.fref g l).fref f k := by
  ext <;> simp [Owed.fref, add_right_comm]

theorem Balanced.sysPipe (bal : Balanced .zero s) :
    Does (fun _ t => Balanced .zero t ∧ Outside p s t) (sysPipe p) s := by
  refine Runs.seq bal.pipealloc fun r t ⟨proc, bal⟩ => ?_
  cases r with
  | none => exact ⟨bal, .of_eq proc⟩
  | some files =>
    obtain ⟨rf, wf⟩ := files
    have bal : Balanced ((Owed.zero.fref rf 1).fref wf 1) t := bal
    apply bal.fdalloc
    · apply (bal.closeBoth none).mono
      rintro r u ⟨-, bal, proc'⟩
      exact ⟨bal, .of_eq (proc'.trans proc)⟩
    · intro fd0 empty bal
      have moved : Outside p s (t.setOfile p fd0 (some rf)) := (Outside.of_eq proc).trans .setOfile
      rw [Owed.fref_swap, Owed.fref_fref_neg] at bal
      apply bal.fdalloc
      · refine runs_known (.setOfile p fd0 none) (r := ()) rfl ?_
        have bal := bal.clear (p := p) (f := rf) (d := fd0) (by simp [Machine.setOfile, Machine.setProc])
        rw [Owed.fref_swap] at bal
        apply (bal.closeBoth none).mono
        rintro r u ⟨-, bal, proc'⟩
        exact ⟨bal, moved.trans (Outside.setOfile.trans (.of_eq proc'))⟩
      · intro fd1 _ bal
        rw [Owed.fref_fref_neg] at bal
        exact ⟨bal, moved.trans .setOfile⟩

/-! ### Processes -/

theorem Owes.putCwd (owes : Owes b o s) (free : o.locked = ∅) :
    Does (fun _ t => ∃ i, (b.proc p).cwd = some i ∧ Owes b (o.ref i (-1)) t) (putCwd p) s := by
  refine runs_known (.getProc p) (t := s) (r := s.proc p) rfl ?_
  have same : s.proc p = b.proc p := congrFun owes.fixed.proc p
  split
  case h_1 i points =>
    apply (owes.iput fun isLocked => by simp [free] at isLocked).mono
    exact fun _ t owes => ⟨i, same ▸ points, owes⟩
  case h_2 => exact tame_panic (by decide)

theorem Owes.setCwd {v : Option InodeId} (owes : Owes b o s) (points : (b.proc p).cwd = some i) :
    Balanced { o.ref i 1 with inode := (o.ref i 1).inode - mark v } (s.setCwd p v) := by
  have same : s.proc p = b.proc p := congrFun owes.fixed.proc p
  have next := owes.balanced.setCwd p v
  rwa [same, points, mark_some] at next

theorem Balanced.sysChdir {path : Option Path} (bal : Balanced .zero s) :
    Does (fun _ t => Balanced .zero t ∧ Outside p s t) (sysChdir p path) s := by
  have owes : Owes s .zero s := ⟨bal, .refl s⟩
  cases path with
  | none => exact ⟨bal, .of_eq rfl⟩
  | some path =>
    refine Runs.seq (owes.namei rfl) fun r t owes => ?_
    cases r with
    | none => exact ⟨owes.balanced, .of_eq owes.fixed.proc⟩
    | some i =>
      have owes : Owes s (Owed.zero.ref i 1) t := owes
      refine Runs.seq owes.ilock fun _ t ⟨owes, iFree⟩ => ?_
      refine owes.after trivial fun ip t owes => ?_
      apply Runs.ite
      · intro _
        refine owes.drop iFree fun t owes => ?_
        exact ⟨owes.balanced, .of_eq owes.fixed.proc⟩
      · intro _
        refine Runs.seq owes.iunlock fun _ t owes => ?_
        rw [Owed.unlock_lock iFree] at owes
        refine Runs.seq (owes.putCwd rfl) fun _ t ⟨old, points, owes⟩ => ?_
        have next := owes.setCwd (v := some i) points
        have back : ({ ((Owed.zero.ref i 1).ref old (-1)).ref old 1 with
            inode := (((Owed.zero.ref i 1).ref old (-1)).ref old 1).inode - mark (some i) } : Owed) =
            .zero := by
          ext j <;> simp [Owed.ref, Owed.zero, mark_some, Pi.single_neg]
        rw [back] at next
        refine runs_known (.setCwd p (some i)) (r := ()) rfl ⟨next, ?_⟩
        exact (Outside.of_eq owes.fixed.proc).trans (.setProc rfl)

/-- A slot without pointers. -/
def Proc.Empty (x : Proc) : Prop := (∀ d, x.ofile d = none) ∧ x.cwd = none

theorem Balanced.dupFiles {np : Slot} {ofile : Fd → Option FileId} {fds : List Fd}
    (bal : Balanced o s) (empty : ∀ d ∈ fds, (s.proc np).ofile d = none) (once : fds.Nodup) :
    Does (fun _ t => Balanced o t ∧ Outside np s t ∧ (t.proc np).cwd = (s.proc np).cwd)
      (dupFiles np ofile fds) s := by
  induction fds generalizing s with
  | nil => exact ⟨bal, .of_eq rfl, rfl⟩
  | cons d fds ih =>
    obtain ⟨fresh, once⟩ := List.nodup_cons.mp once
    have restEmpty : ∀ d ∈ fds, (s.proc np).ofile d = none :=
      fun d h => empty d (List.mem_cons_of_mem _ h)
    rw [FileSystem.dupFiles]
    split
    case h_1 f points =>
      apply bal.filedup
      intro t bal proc
      have here : (t.proc np).ofile d = none := by
        rw [proc]
        exact empty d List.mem_cons_self
      refine runs_known (.setOfile np d (some f)) (r := ()) rfl ?_
      have next := bal.setOfile np d (some f)
      have back : ({ o.fref f 1 with
          file := (o.fref f 1).file + mark ((t.proc np).ofile d) - mark (some f) } : Owed) = o := by
        ext <;> simp [Owed.fref, here, mark_some]
      rw [back] at next
      apply (ih next ?_ once).mono
      · rintro _ u ⟨bal, outside, cwd⟩
        have cwd' : ((t.setOfile np d (some f)).proc np).cwd = (s.proc np).cwd := by
          simp [Machine.setOfile, Machine.setProc, proc]
        exact ⟨bal, (Outside.of_eq proc).trans (Outside.setOfile.trans outside), cwd.trans cwd'⟩
      · intro d' later
        have other : d' ≠ d := fun same => fresh (same ▸ later)
        simpa [Machine.setOfile, Machine.setProc, other, proc] using restEmpty d' later
    case h_2 => exact ih bal restEmpty once

end FileSystem
