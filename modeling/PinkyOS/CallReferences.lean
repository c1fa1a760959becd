import PinkyOS.References

/-!
# System calls keep the references balanced

Every system call of `sysfile.c`, with `exec`, `fork` and `exit`, starts and ends with the counts
of the inode cache and the file table equal to the numbers of pointers, on every path through it.
-/
namespace FileSystem
open ByteBuffer DiskLog DiskFormat Program PointerCount
open SleepWakeup (Slot ProcState initproc)

variable {s t b : Machine} {o : Owed} {i j : InodeId} {f : FileId} {p : Slot} {k : Int}

/-! ### Paths -/

theorem Owes.dupCwd (owes : Owes b o s) : Does (fun i t => Owes b (o.ref i 1) t) (dupCwd p) s := by
  refine owes.after trivial fun x t owes => ?_
  split
  case h_1 i _ =>
    apply Runs.bind
    exact owes.idup
  case h_2 => exact tame_panic (by decide)

variable {path : Path} {major minor type : BitVec 16} {dp : InodeId} {off : Nat}

section
variable (owes : Owes b o s)
include owes

theorem Owes.pathStart : Does (fun i t => Owes b (o.ref i 1) t) (pathStart p path) s := by
  apply Runs.ite
  · exact fun _ => owes.iget
  · exact fun _ => owes.dupCwd

theorem Owes.namex {parent : Bool} (free : o.locked = ∅) :
    Does (fun r t => Owes b (o.found (r.map Prod.fst)) t) (namex p path parent) s := by
  refine Runs.seq owes.pathStart fun i t owes => ?_
  have walk := @Owes.namexLoop _ _ i _ parent _ path [] owes free (Nat.lt_succ_self _)
  rwa [Owed.ref_ref_neg] at walk

/-- `namei` takes one reference to what it returns, and none if it fails. -/
theorem Owes.namei (free : o.locked = ∅) :
    Does (fun r t => Owes b (o.found r) t) (namei p path) s := by
  apply Runs.bind
  apply (owes.namex free).mono
  exact fun r t owes => owes

theorem Owes.nameiparent (free : o.locked = ∅) :
    Does (fun r t => Owes b (o.found (r.map Prod.fst)) t) (nameiparent p path) s :=
  owes.namex free

/-! ### Creation -/

theorem Owes.iallocLoop {dev : Nat} {k inum : Nat} :
    Does (fun i t => Owes b (o.ref i 1) t) (iallocLoop dev type k inum) s := by
  induction k generalizing s inum with
  | zero => exact tame_panic (by decide)
  | succ k ih =>
    refine owes.after trivial fun data t owes => ?_
    apply Runs.ite
    · intro _
      refine owes.after trivial fun _ t owes => ?_
      exact owes.after trivial fun _ t owes => owes.iget
    · intro _
      exact owes.after trivial fun _ t owes => ih owes

theorem Owes.ialloc {dev : Nat} : Does (fun i t => Owes b (o.ref i 1) t) (ialloc dev type) s :=
  owes.quiet (readsb_quiet dev) fun _ _ owes => owes.iallocLoop

end

theorem Owed.ref_self : (o.ref i k).inode i = o.inode i + k := by
  simp [Owed.ref]

theorem Owed.ref_of_ne (other : j ≠ i) : (o.ref i k).inode j = o.inode j := by
  simp [Owed.ref, other]

theorem Owed.Owns.take (owns : o.Owns) : (o.ref i 1).Owns := by
  have all : ∀ j, o.inode j ≤ (o.ref i 1).inode j := by
    intro j
    by_cases same : j = i
    · rw [same, Owed.ref_self]
      omega
    · rw [Owed.ref_of_ne same]
  exact ⟨fun j => (owns.nonneg j).trans (all j), fun j h => (owns.locked j h).trans (all j)⟩

theorem Owed.Owns.lock (owns : o.Owns) : ((o.ref i 1).lock i).Owns := by
  refine ⟨owns.take.nonneg, fun j isLocked => ?_⟩
  rcases Finset.mem_insert.mp isLocked with rfl | isLocked
  · have zero := owns.nonneg j
    show 1 ≤ (o.ref j 1).inode j
    rw [Owed.ref_self]
    omega
  · exact owns.take.locked j isLocked

/-- `create` in a locked directory: the new inode is locked, the directory is given up. -/
theorem Owes.createNew {name : Path}
    (owes : Owes b o s) (isLocked : dp ∈ o.locked) (owns : o.Owns) :
    Does (fun i t => Owes b ((((o.ref i 1).lock i).unlock dp).ref dp (-1)) t ∧ i ∉ o.locked)
      (createNew dp name type major minor) s := by
  refine owes.after trivial fun dx t owes => ?_
  refine Runs.seq owes.ialloc fun i t owes => ?_
  refine Runs.seq owes.ilock fun _ t ⟨owes, free⟩ => ?_
  have owns' : ((o.ref i 1).lock i).Owns := owns.lock
  refine owes.after trivial fun ip t owes => ?_
  refine owes.after trivial fun _ t owes => ?_
  refine owes.quiet (iupdate_quiet i) fun _ t owes => ?_
  have last : ∀ t, Owes b ((o.ref i 1).lock i) t →
      Does (fun i t => Owes b ((((o.ref i 1).lock i).unlock dp).ref dp (-1)) t ∧ i ∉ o.locked)
        (do
          let ip ← look i
          if !(← FileSystem.dirlink dp name ip.inum) then
            panic "create: dirlink"
          FileSystem.iunlockput dp
          return i) t := by
    intro t owes
    refine owes.after trivial fun ip t owes => ?_
    refine Runs.seq (owes.dirlink (Finset.mem_insert_of_mem isLocked) owns') fun linked t owes => ?_
    refine Runs.ite (fun _ => tame_panic_bind (by decide)) fun _ => ?_
    apply Runs.bind
    apply owes.iunlockput.mono
    exact fun _ t owes => ⟨owes, free⟩
  apply Runs.ite
  · intro _
    refine owes.after trivial fun dx t owes => ?_
    refine owes.after trivial fun _ t owes => ?_
    refine owes.quiet (iupdate_quiet dp) fun _ t owes => ?_
    refine owes.after trivial fun ip t owes => ?_
    refine Runs.seq (owes.dirlink (by simp [Owed.lock]) owns') fun linked t owes => ?_
    refine Runs.ite (fun _ => tame_panic_bind (by decide)) fun _ => ?_
    refine owes.after trivial fun dx t owes => ?_
    refine Runs.seq (owes.dirlink (by simp [Owed.lock]) owns') fun linked t owes => ?_
    apply Runs.ite
    · exact fun _ => tame_panic_bind (by decide)
    · exact fun _ => last t owes
  · exact fun _ => last t owes

theorem Owed.unlock_ref (free : i ∉ (o.ref i 1).locked) :
    (((o.ref i 1).lock i).unlock i).ref i (-1) = o := by
  rw [Owed.unlock_lock free, Owed.ref_ref_neg]

theorem Owes.drop {β : Type} {f : Unit → M β} {post : β → Machine → Prop}
    (owes : Owes b ((o.ref i 1).lock i) s) (free : i ∉ (o.ref i 1).locked)
    (rest : ∀ t, Owes b o t → Does post (f ()) t) :
    Does post (FileSystem.iunlockput i >>= f) s := by
  refine Runs.seq owes.iunlockput fun _ t owes => ?_
  rw [Owed.unlock_ref free] at owes
  exact rest t owes

theorem Owed.swap_locked (free : i ∉ ((o.ref dp 1).lock dp).locked)
    (dpFree : dp ∉ (o.ref dp 1).locked) :
    (((((o.ref dp 1).lock dp).ref i 1).lock i).unlock dp).ref dp (-1) = (o.ref i 1).lock i := by
  have apart : i ≠ dp := fun same => free (by simp [Owed.lock, same])
  have dpFree : dp ∉ o.locked := dpFree
  ext j
  · simp only [Owed.ref, Owed.lock, Owed.unlock, Pi.add_apply, Pi.single_apply]
    split <;> split <;> omega
  · rfl
  · rfl
  · by_cases same : j = dp
    · subst same
      simp [Owed.ref, Owed.lock, Owed.unlock, dpFree, apart.symm]
    · simp [Owed.ref, Owed.lock, Owed.unlock, same]

/-- The account after `create`. -/
def Owed.created (o : Owed) : Option InodeId → Owed
  | none => o
  | some i => (o.ref i 1).lock i

theorem Owes.create (owes : Owes b o s) (free : o.locked = ∅) (owns : o.Owns) :
    Does (fun r t => Owes b (o.created r) t) (create p path type major minor) s := by
  refine Runs.seq (owes.nameiparent free) fun r t owes => ?_
  cases r with
  | none => exact owes
  | some found =>
    obtain ⟨dp, name⟩ := found
    refine Runs.seq (Owes.ilock owes) fun _ t held => ?_
    obtain ⟨owes, dpFree⟩ := held
    have owes : Owes b ((o.ref dp 1).lock dp) t := owes
    refine Runs.seq (owes.dirlookup (by simp [Owed.lock])) fun r t owes => ?_
    cases r with
    | some found =>
      obtain ⟨i, off⟩ := found
      refine Runs.seq (Owes.iunlockput owes) fun _ t owes => ?_
      have back : (((((o.ref dp 1).lock dp).ref i 1).unlock dp).ref dp (-1)) = o.ref i 1 := by
        show ((((o.ref dp 1).ref i 1).lock dp).unlock dp).ref dp (-1) = o.ref i 1
        rw [Owed.ref_swap]
        exact Owed.unlock_ref dpFree
      have owes : Owes b (o.ref i 1) t := back ▸ owes
      refine Runs.seq owes.ilock fun _ t held => ?_
      obtain ⟨owes, iFree⟩ := held
      refine owes.after trivial fun ip t owes => ?_
      refine Runs.ite (fun _ => owes) fun _ => ?_
      refine Runs.seq owes.iunlockput fun _ t owes => ?_
      rwa [Owed.unlock_ref iFree] at owes
    | none =>
      have owes : Owes b ((o.ref dp 1).lock dp) t := owes
      refine Runs.seq (owes.createNew (by simp [Owed.lock]) owns.lock) fun i t new => ?_
      obtain ⟨owes, iFree⟩ := new
      rw [Owed.swap_locked iFree dpFree] at owes
      exact owes

/-- `sys_mkdir` and `sys_mknod`. -/
theorem Owes.sysMake {path : Option Path} (owes : Owes b o s)
    (free : o.locked = ∅) (owns : o.Owns) :
    Does (fun _ t => Owes b o t) (sysMake p path type major minor) s := by
  refine owes.after trivial fun _ t owes => ?_
  cases path with
  | none => exact owes.after trivial fun _ t owes => owes
  | some path =>
    refine Runs.seq (owes.create free owns) fun r t owes => ?_
    cases r with
    | none => exact Owes.quiet owes (quiet_call trivial) fun _ t owes => owes
    | some i =>
      have owes : Owes b ((o.ref i 1).lock i) t := owes
      refine owes.drop (by simp [Owed.ref, free]) fun t owes => ?_
      exact owes.after trivial fun _ t owes => owes

/-! ### Links -/

theorem Owes.linkBad (owes : Owes b (o.ref i 1) s) :
    Does (fun _ t => Owes b o t) (linkBad i) s := by
  refine Runs.seq owes.ilock fun _ t ⟨owes, iFree⟩ => ?_
  refine owes.after trivial fun ip t owes => ?_
  refine owes.after trivial fun _ t owes => ?_
  refine owes.quiet (iupdate_quiet i) fun _ t owes => ?_
  refine owes.drop iFree fun t owes => ?_
  exact owes.after trivial fun _ t owes => owes

theorem Owes.sysLink {old new : Option Path} (owes : Owes b o s) (free : o.locked = ∅)
    (owns : o.Owns) : Does (fun _ t => Owes b o t) (sysLink p old new) s := by
  cases old with
  | none => exact owes
  | some old =>
    cases new with
    | none => exact owes
    | some new =>
      refine Runs.seq (owes.namei free) fun r t owes => ?_
      cases r with
      | none => exact owes
      | some i =>
        have owes : Owes b (o.ref i 1) t := owes
        refine owes.after trivial fun _ t owes => ?_
        refine Runs.seq owes.ilock fun _ t ⟨owes, iFree⟩ => ?_
        refine owes.after trivial fun ip t owes => ?_
        apply Runs.ite
        · intro _
          refine owes.drop iFree fun t owes => ?_
          exact owes.after trivial fun _ t owes => owes
        · intro _
          refine owes.after trivial fun _ t owes => ?_
          refine owes.quiet (iupdate_quiet i) fun _ t owes => ?_
          refine Runs.seq owes.iunlock fun _ t owes => ?_
          rw [Owed.unlock_lock iFree] at owes
          refine Runs.seq (owes.nameiparent free) fun r t owes => ?_
          cases r with
          | none => exact Owes.linkBad owes
          | some found =>
            obtain ⟨dp, name⟩ := found
            refine Runs.seq (Owes.ilock owes) fun _ t ⟨owes, dpFree⟩ => ?_
            have owes : Owes b (((o.ref i 1).ref dp 1).lock dp) t := owes
            have bad : ∀ t, Owes b (((o.ref i 1).ref dp 1).lock dp) t →
                Does (fun _ t => Owes b o t) (do
                  FileSystem.iunlockput dp
                  FileSystem.linkBad i) t := by
              intro t owes
              refine owes.drop dpFree fun t owes => ?_
              exact owes.linkBad
            refine owes.after trivial fun dx t owes => ?_
            refine owes.after trivial fun ip t owes => ?_
            refine Runs.ite (fun _ => bad t owes) fun _ => ?_
            refine Runs.seq (owes.dirlink (by simp [Owed.lock]) owns.take.lock)
              fun linked t owes => ?_
            apply Runs.ite
            · intro _
              refine owes.drop dpFree fun t owes => ?_
              refine Runs.seq (owes.iput fun isLocked => absurd isLocked iFree) fun _ t owes => ?_
              rw [Owed.ref_ref_neg] at owes
              exact owes.after trivial fun _ t owes => owes
            · exact fun _ => bad t owes

theorem Owes.isdiremptyLoop {k : Nat} (owes : Owes b o s) (isLocked : i ∈ o.locked) :
    Does (fun _ t => Owes b o t) (isdiremptyLoop i k off) s := by
  induction k generalizing s off with
  | zero => exact owes
  | succ k ih =>
    refine Runs.seq (owes.readi isLocked) fun r t owes => ?_
    cases r with
    | none => exact tame_panic (by decide)
    | some bs =>
      refine Runs.ite (fun _ => tame_panic (by decide)) fun _ => ?_
      apply Runs.ite
      · exact fun _ => owes
      · exact fun _ => ih owes

theorem Owes.isdirempty (owes : Owes b o s) (isLocked : i ∈ o.locked) :
    Does (fun _ t => Owes b o t) (isdirempty i) s :=
  owes.after trivial fun _ _ owes => owes.isdiremptyLoop isLocked

theorem Owes.unlinkBad (owes : Owes b ((o.ref dp 1).lock dp) s)
    (free : dp ∉ (o.ref dp 1).locked) : Does (fun _ t => Owes b o t) (unlinkBad dp) s := by
  refine owes.drop free fun t owes => ?_
  exact owes.after trivial fun _ t owes => owes

theorem Owes.unlinkEntry (owes : Owes b ((((o.ref dp 1).lock dp).ref i 1).lock i) s)
    (free : i ∉ ((o.ref dp 1).lock dp).locked) (dpFree : dp ∉ (o.ref dp 1).locked) :
    Does (fun _ t => Owes b o t) (unlinkEntry dp i off) s := by
  have dpLocked : dp ∈ ((((o.ref dp 1).lock dp).ref i 1).lock i).locked := by
    simp [Owed.lock, Owed.ref]
  have iFree : i ∉ (o.ref i 1).locked := fun h => free (Finset.mem_insert_of_mem h)
  have last : ∀ t, Owes b ((((o.ref dp 1).lock dp).ref i 1).lock i) t →
      Does (fun _ t => Owes b o t) (do
        FileSystem.iunlockput dp
        let ip ← look i
        store i { ip.d with nlink := ip.d.nlink - 1 }
        iupdate i
        FileSystem.iunlockput i
        commitTrans
        return true) t := by
    intro t owes
    refine Runs.seq owes.iunlockput fun _ t owes => ?_
    rw [Owed.swap_locked free dpFree] at owes
    refine owes.after trivial fun ip t owes => ?_
    refine owes.after trivial fun _ t owes => ?_
    refine owes.quiet (iupdate_quiet i) fun _ t owes => ?_
    refine owes.drop iFree fun t owes => ?_
    exact owes.after trivial fun _ t owes => owes
  refine Runs.seq (owes.writei dpLocked) fun r t owes => ?_
  refine Runs.ite (fun _ => tame_panic (by decide)) fun _ => ?_
  refine owes.after trivial fun ip t owes => ?_
  apply Runs.ite
  · intro _
    refine owes.after trivial fun dx t owes => ?_
    refine owes.after trivial fun _ t owes => ?_
    exact owes.quiet (iupdate_quiet dp) fun _ t owes => last t owes
  · exact fun _ => last t owes

theorem Owes.sysUnlink {path : Option Path} (owes : Owes b o s) (free : o.locked = ∅) :
    Does (fun _ t => Owes b o t) (sysUnlink p path) s := by
  cases path with
  | none => exact owes
  | some path =>
    refine Runs.seq (owes.nameiparent free) fun r t owes => ?_
    cases r with
    | none => exact owes
    | some found =>
      obtain ⟨dp, name⟩ := found
      refine Owes.quiet owes (quiet_call trivial) fun _ t owes => ?_
      refine Runs.seq owes.ilock fun _ t held => ?_
      obtain ⟨owes, dpFree⟩ := held
      have owes : Owes b ((o.ref dp 1).lock dp) t := owes
      refine Runs.ite (fun _ => owes.unlinkBad dpFree) fun _ => ?_
      refine Runs.seq (owes.dirlookup (by simp [Owed.lock])) fun r t owes => ?_
      cases r with
      | none => exact Owes.unlinkBad owes dpFree
      | some found =>
        obtain ⟨i, off⟩ := found
        refine Runs.seq (Owes.ilock owes) fun _ t held => ?_
        obtain ⟨owes, iFree⟩ := held
        have owes : Owes b ((((o.ref dp 1).lock dp).ref i 1).lock i) t := owes
        have iLocked : i ∈ ((((o.ref dp 1).lock dp).ref i 1).lock i).locked := by
          simp [Owed.lock]
        refine owes.after trivial fun ip t owes => ?_
        refine Runs.ite (fun _ => tame_panic (by decide)) fun _ => ?_
        apply Runs.ite
        · intro _
          refine Runs.seq (owes.isdirempty iLocked) fun empty t owes => ?_
          refine Runs.ite (fun _ => owes.unlinkEntry iFree dpFree) fun _ => ?_
          refine owes.drop iFree fun t owes => ?_
          exact owes.unlinkBad dpFree
        · exact fun _ => owes.unlinkEntry iFree dpFree

/-! ### `exec` -/

section
variable (owes : Owes b o s) (isLocked : i ∈ o.locked)
include owes isLocked

theorem Owes.loaduvm {offset sz fuel k : Nat} :
    Does (fun _ t => Owes b o t) (loaduvm i offset sz fuel k) s := by
  induction fuel generalizing s k with
  | zero => exact owes
  | succ fuel ih =>
    apply Runs.ite
    · intro _
      refine owes.after trivial fun (pte : Nat) t owes => ?_
      refine Runs.ite (fun _ => tame_panic (by decide)) fun _ => ?_
      refine Runs.seq (owes.readi isLocked) fun r t owes => ?_
      cases r with
      | none => exact owes
      | some bs =>
        apply Runs.ite
        · exact fun _ => ih owes
        · exact fun _ => owes
    · exact fun _ => owes

theorem Owes.execLoad {k : Nat} : Does (fun _ t => Owes b o t) (execLoad i k off) s := by
  induction k generalizing s off with
  | zero => exact owes
  | succ k ih =>
    refine Runs.seq (owes.readi isLocked) fun r t owes => ?_
    cases r with
    | none => exact owes
    | some ph =>
      refine Runs.ite (fun _ => owes) fun _ => ?_
      refine Runs.ite (fun _ => ih owes) fun _ => ?_
      refine Runs.ite (fun _ => owes) fun _ => ?_
      refine owes.after trivial fun (sz : Nat) t owes => ?_
      refine Runs.ite (fun _ => owes) fun _ => ?_
      refine Runs.ite (fun _ => tame_panic (by decide)) fun _ => ?_
      refine Runs.seq (owes.loaduvm isLocked) fun loaded t owes => ?_
      apply Runs.ite
      · exact fun _ => ih owes
      · exact fun _ => owes

theorem Owes.debugScan {k : Nat} : Does (fun _ t => Owes b o t) (debugScan i k) s := by
  induction k generalizing s with
  | zero => exact owes
  | succ k ih =>
    refine owes.after trivial fun off t owes => ?_
    refine owes.after trivial fun n t owes => ?_
    refine Runs.seq (owes.readi isLocked) fun _ t owes => ?_
    exact ih owes

end

theorem execHeader_quiet (elf : Option (List UInt8)) : Uses Quiet (execHeader elf) := by
  cases elf with
  | none =>
    exact .bind (quiet_call trivial) fun _ => .bind (quiet_call trivial) fun _ =>
      .bind (quiet_call trivial) fun _ => trivial
  | some bs => exact Uses.ite (fun _ => trivial) fun _ => trivial

theorem Owes.execFile (owes : Owes b o s) (isLocked : i ∈ o.locked) :
    Does (fun _ t => Owes b o t) (execFile i) s := by
  refine Runs.seq (owes.readi isLocked) fun elf t owes => ?_
  refine owes.quiet (execHeader_quiet elf) fun header t owes => ?_
  cases header with
  | none => exact owes
  | some header =>
    refine Runs.ite (fun _ => owes) fun _ => ?_
    refine owes.after trivial fun (pgdir : Nat) t owes => ?_
    refine Runs.ite (fun _ => owes) fun _ => ?_
    refine Runs.seq (owes.execLoad isLocked) fun loaded t owes => ?_
    apply Runs.ite
    · intro _
      refine owes.after trivial fun reads t owes => ?_
      apply Runs.bind
      exact owes.debugScan isLocked
    · exact fun _ => owes

theorem Owes.sysExec {path : Option Path} (owes : Owes b o s) (free : o.locked = ∅) :
    Does (fun _ t => Owes b o t) (sysExec p path) s := by
  cases path with
  | none => exact owes
  | some path =>
    refine Runs.seq (owes.namei free) fun r t owes => ?_
    cases r with
    | none => exact owes
    | some i =>
      have owes : Owes b (o.ref i 1) t := owes
      refine Runs.seq owes.ilock fun _ t ⟨owes, iFree⟩ => ?_
      refine Runs.seq (owes.execFile (by simp [Owed.lock])) fun loaded t owes => ?_
      refine owes.drop iFree fun t owes => ?_
      apply Runs.ite
      · exact fun _ => owes.after trivial fun _ t owes => owes
      · exact fun _ => owes

end FileSystem
