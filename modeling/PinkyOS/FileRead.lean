import PinkyOS.FileSystem
import PinkyOS.FileMap

/-!
# Reading files

Where every block of a file is there, the kernel reads the bytes that the slots of the inode lead
to, and leaves everything as it was.
-/
namespace FileSystem
open ByteBuffer DiskLog DiskFormat FileMap Program
open SleepWakeup (Slot ProcState)

variable {s t : Machine} {i j : InodeId} {α β : Type} {post : β → Machine → Prop} {d : Dinode}
  {perf : Machine → (o : Op) → Outcome Machine (Res o)} {stop : Option String → Prop}

/-- Run alone, the program ends, and ends with `post`. -/
abbrev Yields (post : α → Machine → Prop) (m : M α) (s : Machine) : Prop :=
  Runs perform (fun _ => False) post m s

/-- Where operations do what `perf` says, the program returns `a` and leaves the state as it
was. -/
abbrev Reads (perf : Machine → (o : Op) → Outcome Machine (Res o)) (stop : Option String → Prop)
    (m : M α) (s : Machine) (a : α) : Prop :=
  Runs perf stop (fun r t => r = a ∧ t = s) m s

theorem Reads.bind {m : M α} {a : α} {g : α → M β} (reads : Reads perf stop m s a)
    (rest : Runs perf stop post (g a) s) : Runs perf stop post (m >>= g) s := by
  apply Runs.bind
  apply Runs.mono reads
  rintro _ _ ⟨rfl, rfl⟩
  exact rest

theorem Reads.exec {m : M α} {a : α} (reads : Reads perf (fun _ => False) m s a) :
    Program.exec perf m s = .done a s := by
  obtain ⟨_, _, ran, rfl, rfl⟩ := reads.ends
  exact ran

/-! ### Blocks -/

variable {b k m n off : Nat} {disk : Nat → Block} {name : List UInt8}

theorem setHeld_back (free : s.held b = false) : (s.setHeld b true).setHeld b false = s := by
  have back : Function.update (Function.update s.held b true) b false = s.held := by
    rw [Function.update_idem, ← free, Function.update_eq_self]
  simp only [Machine.setHeld, back]

theorem perform_bread (inside : b < s.disksize) (free : s.held b = false) :
    perform s (.bread rootdev b) = .done (s.cur b) (s.setHeld b true) := by
  simp [perform, free, inside]

theorem perform_brelse (free : s.held b = false) :
    perform (s.setHeld b true) (.brelse b) = .done () s := by
  have isHeld : (s.setHeld b true).held b = true := Function.update_self ..
  simp [perform, isHeld, setHeld_back free]

/-- A sector that can be read. -/
structure CanRead (perf : Machine → (o : Op) → Outcome Machine (Res o)) (s : Machine) (b : Nat) :
    Prop where
  take : perf s (.bread rootdev b) = .done (s.cur b) (s.setHeld b true)
  give : perf (s.setHeld b true) (.brelse b) = .done () s

theorem canRead (inside : b < s.disksize) (free : s.held b = false) : CanRead perform s b :=
  ⟨perform_bread inside free, perform_brelse free⟩

theorem CanRead.bread {g : Block → M β} (can : CanRead perf s b)
    (rest : Runs perf stop post (g (s.cur b)) (s.setHeld b true)) :
    Runs perf stop post (bread rootdev b >>= g) s :=
  Runs.known (Op.bread rootdev b) can.take rest

theorem CanRead.brelse {g : Unit → M β} (can : CanRead perf s b)
    (rest : Runs perf stop post (g ()) s) :
    Runs perf stop post (brelse b >>= g) (s.setHeld b true) :=
  Runs.known (Op.brelse b) can.give rest

/-! ### `bmap` -/

/-- The sectors that the slots of an inode name can be read. -/
structure Readable (perf : Machine → (o : Op) → Outcome Machine (Res o)) (s : Machine)
    (d : Dinode) : Prop where
  slot : ∀ k, CanRead perf s (slotRef s.cur d k)
  look : ∀ i, perf s (.look i) = .done (s.inode i) s

/-- Block `bn` is there, so that `bmap` finds it. -/
theorem Readable.bmap {bn : Nat} (readable : Readable perf s (s.inode i).d)
    (dev : (s.inode i).dev = rootdev) (mapped : blockAt s.cur (s.inode i).d bn ≠ 0) :
    Reads perf stop (bmap i bn) s (blockAt s.cur (s.inode i).d bn) := by
  refine Runs.known (Op.look i) (readable.look i) ?_
  by_cases direct : bn < ndirect
  · have slot : blockAt s.cur (s.inode i).d bn = (s.inode i).d.addr bn := by
      rw [blockAt, slotOf, if_pos direct, slotRef_direct (Nat.le_of_lt direct)]
    rw [slot] at mapped ⊢
    simp only [if_pos direct, if_neg mapped]
    exact ⟨rfl, rfl⟩
  · have slot : blockAt s.cur (s.inode i).d bn = if bn - ndirect < nindirect ∧
        (s.inode i).d.addr ndirect ≠ 0 then
          word (s.cur ((s.inode i).d.addr ndirect)) (bn - ndirect) else 0 := by
      have index : bn + 1 - (ndirect + 1) = bn - ndirect := by omega
      have inside : bn + 1 ≤ ndirect + nindirect ↔ bn - ndirect < nindirect := by omega
      rw [blockAt, slotOf, if_neg direct, slotRef, if_neg (by omega), index]
      simp only [inside]
    have there : bn - ndirect < nindirect ∧ (s.inode i).d.addr ndirect ≠ 0 := by
      by_contra none'
      exact mapped (by rw [slot, if_neg none'])
    rw [slot, if_pos there] at mapped ⊢
    have can := readable.slot ndirect
    rw [slotRef_indirect] at can
    simp only [if_neg direct, if_pos there.1, if_neg there.2, dev]
    apply can.bread
    simp only [if_neg mapped]
    apply can.brelse
    exact ⟨rfl, rfl⟩

/-! ### `readi` -/

/-- The bytes of a file from `off` on. -/
def fileBytes (disk : Nat → Block) (d : Dinode) (off n : Nat) : List UInt8 :=
  (List.range n).map fun k => byteAt disk d (off + k)

theorem fileBytes_split (inside : m ≤ n) :
    fileBytes disk d off n = fileBytes disk d off m ++ fileBytes disk d (off + m) (n - m) := by
  have whole : n = m + (n - m) := by omega
  conv_lhs => rw [fileBytes, whole, List.range_add, List.map_append, List.map_map]
  congr 1
  apply List.map_congr_left
  intro k _
  simp [Nat.add_assoc]

theorem read_eq_fileBytes (inside : m ≤ bsize - off % bsize) :
    (disk (blockAt disk d (off / bsize))).read (off % bsize) m = fileBytes disk d off m := by
  apply List.map_congr_left
  intro k listed
  have less := List.mem_range.mp listed
  have block : (off + k) / bsize = off / bsize := by
    simp only [bsize] at inside ⊢
    omega
  have rest : (off + k) % bsize = off % bsize + k := by
    simp only [bsize] at inside ⊢
    omega
  rw [byteAt, block, rest]

/-- Every block of the bytes from `off` to `off + n` is there. -/
def Mapped (disk : Nat → Block) (d : Dinode) (off n : Nat) : Prop :=
  ∀ k < n, blockAt disk d ((off + k) / bsize) ≠ 0

section
variable (readable : Readable perf s (s.inode i).d) (dev : (s.inode i).dev = rootdev)
include readable dev

theorem Readable.readLoop {fuel : Nat} (enough : n ≤ fuel)
    (mapped : Mapped s.cur (s.inode i).d off n) :
    Reads perf stop (readLoop i fuel off n) s (fileBytes s.cur (s.inode i).d off n) := by
  induction fuel generalizing off n with
  | zero =>
    obtain rfl : n = 0 := by omega
    exact ⟨rfl, rfl⟩
  | succ fuel ih =>
    by_cases none' : n = 0
    · subst none'
      exact ⟨rfl, rfl⟩
    · rw [FileSystem.readLoop, if_neg none']
      have here : blockAt s.cur (s.inode i).d (off / bsize) ≠ 0 := mapped 0 (by omega)
      have can : CanRead perf s (blockAt s.cur (s.inode i).d (off / bsize)) := readable.slot _
      apply (readable.bmap dev here).bind
      refine Runs.known (Op.look i) (readable.look i) ?_
      simp only [dev]
      apply can.bread
      apply can.brelse
      have room : 0 < bsize - off % bsize := by
        simp only [bsize]
        omega
      generalize count : min n (bsize - off % bsize) = m
      have later : Mapped s.cur (s.inode i).d (off + m) (n - m) := by
        intro k less
        have next := mapped (m + k) (by omega)
        rwa [← Nat.add_assoc] at next
      apply (ih (by omega) later).bind
      refine ⟨?_, rfl⟩
      rw [read_eq_fileBytes (by omega), ← fileBytes_split (by omega)]

/-- `readi` of a file or directory, inside its size. -/
theorem Readable.readi (notDev : (s.inode i).d.type ≠ tDev)
    (inside : off + n ≤ (s.inode i).d.size.toNat) (mapped : Mapped s.cur (s.inode i).d off n) :
    Reads perf stop (readi i off n) s (some (fileBytes s.cur (s.inode i).d off n)) := by
  refine Runs.known (Op.look i) (readable.look i) ?_
  have fits : ¬ (off > (s.inode i).d.size.toNat ∨ (off + n) % 2 ^ 32 < off) := by
    omega
  have whole : ¬ off + n > (s.inode i).d.size.toNat := by omega
  simp only [if_neg notDev, if_neg fits, if_neg whole]
  apply (readable.readLoop dev (Nat.le_refl n) mapped).bind
  exact ⟨rfl, rfl⟩

end

/-! ### Directories -/

/-- Entry `k` of a directory. -/
def direntAt (disk : Nat → Block) (d : Dinode) (k : Nat) : Dirent :=
  Dirent.ofBytes (fileBytes disk d (sizeofDirent * k) sizeofDirent)

theorem length_fileBytes (disk : Nat → Block) (d : Dinode) (off n : Nat) :
    (fileBytes disk d off n).length = n := by
  simp [fileBytes]

theorem Readable.readDirent (readable : Readable perf s (s.inode i).d)
    (dev : (s.inode i).dev = rootdev) (notDev : (s.inode i).d.type ≠ tDev)
    (inside : sizeofDirent * k + sizeofDirent ≤ (s.inode i).d.size.toNat)
    (mapped : Mapped s.cur (s.inode i).d (sizeofDirent * k) sizeofDirent) :
    Reads perf stop (readDirent i (sizeofDirent * k)) s (direntAt s.cur (s.inode i).d k) := by
  apply (readable.readi dev notDev inside mapped).bind
  exact ⟨rfl, rfl⟩

/-- The entry that a lookup finds. -/
structure FirstMatch (disk : Nat → Block) (d : Dinode) (name : List UInt8) (m : Nat) : Prop where
  found : (direntAt disk d m).inum ≠ 0 ∧ (direntAt disk d m).name = name
  first : ∀ k < m, ¬ ((direntAt disk d k).inum ≠ 0 ∧ (direntAt disk d k).name = name)

theorem namecmp_eq_zero {s t : List UInt8} : namecmp s t = 0 ↔ cut s = cut t :=
  strncmp_eq_zero

theorem cut_direntAt (disk : Nat → Block) (d : Dinode) (k : Nat) :
    cut (direntAt disk d k).name = (direntAt disk d k).name :=
  cut_cut _

/-- What the lookup tests: the entry is in use and has the name. -/
theorem matches_iff : (direntAt disk d k).inum ≠ 0 ∧ namecmp name (direntAt disk d k).name = 0 ↔
      (direntAt disk d k).inum ≠ 0 ∧ (direntAt disk d k).name = cut name := by
  rw [namecmp_eq_zero, cut_direntAt, eq_comm (a := cut name)]

theorem FirstMatch.cut_eq (isMatch : FirstMatch disk d name m) : cut name = name := by
  rw [← isMatch.found.2, cut_direntAt]

section
variable {post : Option (InodeId × Nat) → Machine → Prop}
    (readable : Readable perf s (s.inode i).d) (dev : (s.inode i).dev = rootdev)
    (isMatch : FirstMatch s.cur (s.inode i).d (cut name) m)
    (inside : sizeofDirent * m + sizeofDirent ≤ (s.inode i).d.size.toNat)
    (mapped : FileSystem.Mapped s.cur (s.inode i).d 0 (sizeofDirent * m + sizeofDirent))
    (next : Runs perf stop (fun r t => post (some (r, sizeofDirent * m)) t)
      (iget rootdev (direntAt s.cur (s.inode i).d m).inum) s)
include readable dev isMatch inside mapped next

/-- The lookup reads on until the entry that matches, and then calls `iget`. -/
theorem Readable.dirlookupLoop {rest : Nat} (notDev : (s.inode i).d.type ≠ tDev) (from' : k ≤ m) :
    Runs perf stop post (dirlookupLoop i name (m - k + 1 + rest) (sizeofDirent * k)) s := by
  have read : ∀ k ≤ m, Reads perf stop (FileSystem.readDirent i (sizeofDirent * k)) s
      (direntAt s.cur (s.inode i).d k) := by
    intro k le
    have before : sizeofDirent * k ≤ sizeofDirent * m := Nat.mul_le_mul_left _ le
    apply readable.readDirent dev notDev (by omega)
    intro j less
    have there := mapped (sizeofDirent * k + j) (by omega)
    rwa [Nat.zero_add] at there
  generalize left : m - k = l
  induction l generalizing k with
  | zero =>
    obtain rfl : k = m := by omega
    rw [Nat.zero_add, Nat.add_comm, FileSystem.dirlookupLoop]
    apply (read k from').bind
    rw [if_pos (matches_iff.mpr isMatch.found)]
    refine Runs.known (Op.look i) (readable.look i) ?_
    simp only [dev]
    apply Runs.bind
    exact next
  | succ l ih =>
    have more : l + 1 + 1 + rest = l + 1 + rest + 1 := by omega
    rw [more, FileSystem.dirlookupLoop]
    apply (read k from').bind
    have differs := isMatch.first k (by omega)
    rw [← matches_iff] at differs
    rw [if_neg differs]
    exact ih (k := k + 1) (by omega) (by omega)

theorem Readable.dirlookup (isDir : (s.inode i).d.type = tDir) :
    Runs perf stop post (dirlookup i name) s := by
  refine Runs.known (Op.look i) (readable.look i) ?_
  have notDev : (s.inode i).d.type ≠ tDev := by
    rw [isDir]
    decide
  have isDir' : ¬ (s.inode i).d.type ≠ tDir := by simp [isDir]
  have rounds : entries (s.inode i).d.size.toNat =
      m - 0 + 1 + (entries (s.inode i).d.size.toNat - (m + 1)) := by
    simp only [entries, sizeofDirent] at inside ⊢
    omega
  simp only [if_neg isDir']
  rw [rounds]
  exact readable.dirlookupLoop dev isMatch inside mapped next notDev (Nat.zero_le m)

end

end FileSystem
