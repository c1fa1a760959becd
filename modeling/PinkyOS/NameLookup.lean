import PinkyOS.FileRead

/-!
# Looking up a name

A machine that only serves reads: the inode cache agrees with the disk. Looking up a name in a
directory then finds the inode that the directory names.
-/
namespace FileSystem
open ByteBuffer DiskLog DiskFormat FileMap Program List Machine
open SleepWakeup (Slot ProcState initproc)

variable {s t : Machine} {i j : InodeId} {α β : Type} {post : β → Machine → Prop}
  {disk : Nat → Block} {locked : Finset InodeId}

/-- The inode on the disk. -/
def inodeOn (disk : Nat → Block) (inum : Nat) : Dinode := Dinode.ofBlock (disk (iblock inum)) inum

/-- No sector is in use, and the cache agrees with the disk. `locked` are the inodes in use. -/
structure Cached (disk : Nat → Block) (locked : Finset InodeId) (s : Machine) : Prop where
  cur : s.cur = disk
  held : ∀ b, s.held b = false
  nonneg : ∀ i, 0 ≤ (s.inode i).ref
  busy : ∀ i, 0 < (s.inode i).ref → ((s.inode i).busy = true ↔ i ∈ locked)
  used : ∀ i ∈ locked, 0 < (s.inode i).ref
  valid : ∀ i, 0 < (s.inode i).ref → (s.inode i).dev = rootdev → (s.inode i).valid = true →
    (s.inode i).d = inodeOn disk (s.inode i).inum

/-- An entry as it has to be, locked or not. -/
structure Entry (disk : Nat → Block) (isLocked : Prop) (x : Inode) : Prop where
  nonneg : 0 ≤ x.ref
  busy : 0 < x.ref → (x.busy = true ↔ isLocked)
  used : isLocked → 0 < x.ref
  valid : 0 < x.ref → x.dev = rootdev → x.valid = true → x.d = inodeOn disk x.inum

theorem Cached.entry (cached : Cached disk locked s) (i : InodeId) :
    Entry disk (i ∈ locked) (s.inode i) :=
  ⟨cached.nonneg i, cached.busy i, cached.used i, cached.valid i⟩

theorem Cached.setInode {x : Inode} {locked' : Finset InodeId} (cached : Cached disk locked s)
    (entry : Entry disk (i ∈ locked') x) (others : ∀ j, j ≠ i → (j ∈ locked' ↔ j ∈ locked)) :
    Cached disk locked' (s.setInode i x) := by
  have all : ∀ j, Entry disk (j ∈ locked') ((s.setInode i x).inode j) := by
    intro j
    by_cases here : j = i
    · subst here
      simpa [Machine.setInode] using entry
    · simpa [Machine.setInode, here, others j here] using cached.entry j
  exact ⟨cached.cur, cached.held, fun j => (all j).nonneg, fun j => (all j).busy,
    fun j => (all j).used, fun j => (all j).valid⟩

/-- The entries that are free. -/
def unused (s : Machine) : Finset InodeId := Finset.univ.filter fun i => (s.inode i).ref = 0

theorem unused_setInode (x : Inode) : (unused s).card ≤ (unused (s.setInode i x)).card + 1 := by
  have sub : (unused s).erase i ⊆ unused (s.setInode i x) := by
    intro j listed
    obtain ⟨other, zero⟩ := Finset.mem_erase.mp listed
    simp only [unused, Finset.mem_filter_univ] at zero ⊢
    simpa [setInode, other] using zero
  have bound := Finset.card_le_card sub
  have erase := Finset.pred_card_le_card_erase (s := unused s) (a := i)
  omega

/-- What `iget` does: it returns an entry of the inode, and leaves the others as they were. -/
structure Got (s t : Machine) (dev inum : Nat) (i : InodeId) : Prop where
  sameDev : (t.inode i).dev = dev
  sameInum : (t.inode i).inum = inum
  ref : 0 < (t.inode i).ref
  others : ∀ j, j ≠ i → t.inode j = s.inode j
  fresh : (s.inode i).ref = 0 ∨ (s.inode i).dev = dev ∧ (s.inode i).inum = inum
  room : (unused s).card ≤ (unused t).card + 1
  disksize : t.disksize = s.disksize

theorem Cached.iget {dev inum : Nat} (cached : Cached disk locked s) (room : (unused s).Nonempty) :
    Yields (fun i t => Cached disk locked t ∧ Got s t dev inum i) (iget dev inum) s := by
  cases search : (finRange ninode).find? fun i =>
      0 < (s.inode i).ref ∧ (s.inode i).dev = dev ∧ (s.inode i).inum = inum with
  | some i =>
    obtain ⟨ref, isDev, isInum⟩ :
        0 < (s.inode i).ref ∧ (s.inode i).dev = dev ∧ (s.inode i).inum = inum := by
      simpa using find?_some search
    refine runs_last (.iget dev inum) (t := s.setInode i { s.inode i with ref := (s.inode i).ref + 1 })
      (r := i) (by simp only [perform, igetSlot, search]; rfl) ⟨?_, ?_⟩
    · have entry := cached.entry i
      refine cached.setInode ⟨?_, fun _ => entry.busy ref, ?_, fun _ => entry.valid ref⟩ fun _ _ => .rfl
      · simp only
        omega
      · simp only
        omega
    · refine ⟨?_, ?_, ?_, ?_, .inr ⟨isDev, isInum⟩, unused_setInode _, rfl⟩
      · simpa [Machine.setInode] using isDev
      · simpa [Machine.setInode] using isInum
      · simp only [Machine.setInode, Function.update_self]
        omega
      · simp +contextual [Machine.setInode]
  | none =>
    obtain ⟨i, free⟩ : ∃ i, (finRange ninode).find? (fun i => (s.inode i).ref = 0) = some i := by
      obtain ⟨j, listed⟩ := room
      apply Option.isSome_iff_exists.mp
      simpa using ⟨j, by simpa [unused] using listed⟩
    have zero : (s.inode i).ref = 0 := by simpa using find?_some free
    have unlocked : i ∉ locked := fun isLocked => by
      have used := cached.used i isLocked
      omega
    refine runs_last (.iget dev inum)
      (t := s.setInode i ⟨dev, inum, 1, false, false, (s.inode i).d⟩) (r := i)
      (by simp only [perform, igetSlot, search, free]; rfl) ⟨?_, ?_⟩
    · refine cached.setInode ⟨?_, ?_, ?_, ?_⟩ fun _ _ => .rfl
      · simp
      · simp [unlocked]
      · simp
      · simp
    · refine ⟨?_, ?_, ?_, ?_, .inl zero, unused_setInode _, rfl⟩
      · simp [Machine.setInode]
      · simp [Machine.setInode]
      · simp [Machine.setInode]
      · simp +contextual [Machine.setInode]

section
variable (cached : Cached disk locked s)
include cached

/-- `ilock` of an inode that nobody has locked: afterwards it is a copy of the one on the disk. -/
theorem Cached.ilock {g : Unit → M β} (ref : 0 < (s.inode i).ref)
    (unlocked : i ∉ locked) (dev : (s.inode i).dev = rootdev)
    (inside : iblock (s.inode i).inum < s.disksize)
    (typed : (inodeOn disk (s.inode i).inum).type ≠ 0)
    (rest : Cached disk (insert i locked) (s.setInode i ⟨rootdev, (s.inode i).inum,
        (s.inode i).ref, true, true, inodeOn disk (s.inode i).inum⟩) →
      Yields post (g ()) (s.setInode i ⟨rootdev, (s.inode i).inum, (s.inode i).ref, true, true,
        inodeOn disk (s.inode i).inum⟩)) : Yields post (ilock i >>= g) s := by
  have notBusy : (s.inode i).busy = false := by
    have flag := cached.busy i ref
    simpa [unlocked] using flag
  have final := rest (cached.setInode ⟨by simp only; omega, by simp, fun _ => ref, by simp⟩
    (by simp +contextual))
  apply Runs.bind
  have low : ¬ (s.inode i).ref < 1 := by omega
  obtain ⟨x, shape⟩ : ∃ x : Inode, x = { s.inode i with busy := true } := ⟨_, rfl⟩
  have isDev : x.dev = rootdev := by rw [shape, dev]
  have isInum : x.inum = (s.inode i).inum := by rw [shape]
  refine runs_known (.lock i) (t := s.setInode i x) (r := ())
    (by simp [perform, low, notBusy, shape]) ?_
  have here : (s.setInode i x).inode i = x := Function.update_self ..
  refine runs_known (.look i) (r := x) (by rw [perform, here]) ?_
  cases valid : x.valid with
  | true =>
    have flag : (s.inode i).valid = true := by simpa [shape] using valid
    have copy := cached.valid i ref dev flag
    have same : x = ⟨rootdev, (s.inode i).inum, (s.inode i).ref, true, true,
        inodeOn disk (s.inode i).inum⟩ := by
      simp [shape, flag, copy, dev]
    rw [same]
    exact final
  | false =>
    simp only [Bool.not_false, if_true, isDev, isInum]
    have can : CanRead perform (s.setInode i x) (iblock (s.inode i).inum) :=
      canRead inside (cached.held _)
    have data : Dinode.ofBlock ((s.setInode i x).cur (iblock (s.inode i).inum)) (s.inode i).inum =
        inodeOn disk (s.inode i).inum := by
      rw [inodeOn, ← cached.cur]
      rfl
    apply can.bread
    simp only [data]
    generalize inodeOn disk (s.inode i).inum = d at final typed ⊢
    have can' : CanRead perform (s.setInode i { x with d := d }) (iblock (s.inode i).inum) :=
      canRead inside (cached.held _)
    refine runs_known (.store i d)
      (t := (s.setInode i { x with d := d }).setHeld (iblock (s.inode i).inum) true) (r := ())
      (by simp [perform, Machine.setInode, Machine.setHeld]) ?_
    apply can'.brelse
    refine runs_known (.setValid i) (t := s.setInode i ⟨rootdev, (s.inode i).inum, (s.inode i).ref,
      true, true, d⟩) (r := ()) (by simp [perform, Machine.setInode, shape, dev]) ?_
    simp only [if_neg typed]
    exact final

theorem Cached.iunlock (isLocked : i ∈ locked) :
    Yields (fun _ t => t = s.setInode i { s.inode i with busy := false } ∧
      Cached disk (locked.erase i) t) (iunlock i) s := by
  have ref := cached.used i isLocked
  have busy := (cached.busy i ref).mpr isLocked
  have low : ¬ (s.inode i).ref < 1 := by omega
  refine runs_last (.iunlock i) (r := ()) (by simp [perform, low, busy]) ⟨rfl, ?_⟩
  have entry := cached.entry i
  exact cached.setInode ⟨entry.nonneg, by simp, by simp, entry.valid⟩ (by simp +contextual)

theorem Cached.iput (ref : 0 < (s.inode i).ref)
    (unlocked : i ∉ locked) (linked : (s.inode i).d.nlink ≠ 0) :
    Yields (fun _ t => t = s.setInode i { s.inode i with ref := (s.inode i).ref - 1 } ∧
      Cached disk locked t) (iput i) s := by
  have notLast : ¬ ((s.inode i).ref = 1 ∧ (s.inode i).valid = true ∧ (s.inode i).d.nlink = 0) :=
    fun last => linked last.2.2
  refine runs_known (.putBegin i) (r := false)
    (t := s.setInode i { s.inode i with ref := (s.inode i).ref - 1 })
    (by simp only [perform, FileSystem.putBegin, if_neg notLast]; rfl) ⟨rfl, ?_⟩
  have entry := cached.entry i
  refine cached.setInode ⟨by simp only; omega, fun _ => entry.busy ref,
    fun isLocked => absurd isLocked unlocked, fun _ => entry.valid ref⟩ fun _ _ => .rfl

theorem Cached.iunlockput (isLocked : i ∈ locked) (linked : (s.inode i).d.nlink ≠ 0) :
    Yields (fun _ t => Cached disk (locked.erase i) t ∧ (∀ j, j ≠ i → t.inode j = s.inode j) ∧
      t.disksize = s.disksize) (iunlockput i) s := by
  apply Runs.bind
  apply (cached.iunlock isLocked).mono
  rintro _ _ ⟨rfl, cached1⟩
  have here : (s.setInode i { s.inode i with busy := false }).inode i =
      { s.inode i with busy := false } := Function.update_self ..
  have ref := cached.used i isLocked
  apply (cached1.iput (by rw [here]; exact ref) (by simp) (by rw [here]; exact linked)).mono
  rintro _ _ ⟨rfl, cached2⟩
  refine ⟨cached2, ?_, rfl⟩
  simp +contextual [Machine.setInode]

end

theorem unused_of_ref {x : Inode} (ref : x.ref = (s.inode i).ref) :
    unused (s.setInode i x) = unused s := by
  ext j
  simp only [unused, Finset.mem_filter_univ]
  by_cases here : j = i
  · subst here
    simp [setInode, ref]
  · simp [setInode, here]

/-! ### A name in the root directory -/

theorem skipelem_root {name : List UInt8} (noSlash : slash ∉ name) (nonempty : name ≠ []) :
    skipelem (slash :: name) = some (name.take dirsiz, []) := by
  have all : ∀ c ∈ name, decide (c ≠ slash) = true := by
    intro c listed
    exact decide_eq_true fun same => noSlash (same ▸ listed)
  have start : (slash :: name).dropWhile (· = slash) = name := by
    cases name with
    | nil => rfl
    | cons c name => simp [dropWhile, of_decide_eq_true (all c mem_cons_self)]
  have whole : name.takeWhile (· ≠ slash) = name := takeWhile_eq_self_iff.mpr all
  have rest : name.dropWhile (· ≠ slash) = [] := dropWhile_eq_nil_iff.mpr all
  simp only [skipelem, start, if_neg nonempty, whole, rest, dropWhile_nil]

/-- The root directory names `inum` in its entry `m`. -/
structure Named (disk : Nat → Block) (disksize : Nat) (name : List UInt8) (m inum : Nat) : Prop where
  sector : iblock rootino < disksize
  type : (inodeOn disk rootino).type = tDir
  nlink : (inodeOn disk rootino).nlink ≠ 0
  slots : ∀ k, slotRef disk (inodeOn disk rootino) k < disksize
  isMatch : FirstMatch disk (inodeOn disk rootino) name m
  inside : sizeofDirent * m + sizeofDirent ≤ (inodeOn disk rootino).size.toNat
  mapped : Mapped disk (inodeOn disk rootino) 0 (sizeofDirent * m + sizeofDirent)
  names : (direntAt disk (inodeOn disk rootino) m).inum = inum
  other : inum ≠ rootino

theorem Cached.readable {d : Dinode} (cached : Cached disk locked s)
    (slots : ∀ k, slotRef disk d k < s.disksize) : Readable perform s d := by
  refine ⟨fun k => canRead ?_ (cached.held _), fun _ => rfl⟩
  rw [cached.cur]
  exact slots k

theorem Cached.namei {name : List UInt8} {m inum : Nat} {p : Slot} (cached : Cached disk ∅ s)
    (room : 2 ≤ (unused s).card) (noSlash : slash ∉ name) (nonempty : name ≠ [])
    (named : Named disk s.disksize (name.take dirsiz) m inum) :
    Yields (fun r t => ∃ i, r = some i ∧ Cached disk ∅ t ∧ (t.inode i).dev = rootdev ∧
      (t.inode i).inum = inum ∧ 0 < (t.inode i).ref ∧ t.disksize = s.disksize)
      (namei p (slash :: name)) s := by
  apply Runs.bind
  apply Runs.bind
  simp only [pathStart, head?_cons, if_true]
  apply Runs.mono (cached.iget (Finset.card_pos.mp (by omega)))
  rintro i0 s1 ⟨cached1, got⟩
  rw [length_cons, namexLoop, skipelem_root noSlash nonempty]
  apply cached1.ilock got.ref (by simp) got.sameDev
  · rw [got.sameInum, got.disksize]
    exact named.sector
  · rw [got.sameInum, named.type]
    decide
  · intro cached2
    rw [got.sameInum] at cached2 ⊢
    generalize entry : (⟨rootdev, rootino, (s1.inode i0).ref, true, true,
      inodeOn disk rootino⟩ : Inode) = x at cached2 ⊢
    generalize at2 : s1.setInode i0 x = s2 at cached2 ⊢
    have here : s2.inode i0 = x := by
      rw [← at2]
      exact Function.update_self ..
    have size2 : s2.disksize = s.disksize := by
      rw [← at2, ← got.disksize]
      rfl
    have copy : (s2.inode i0).d = inodeOn disk rootino := by rw [here, ← entry]
    refine runs_known (.look i0) (t := s2) (r := s2.inode i0) rfl ?_
    have isDir : ¬ (s2.inode i0).d.type ≠ tDir := by simp [copy, named.type]
    simp only [if_neg isDir, Bool.false_eq_true, false_and, if_false]
    apply Runs.bind
    have readable : Readable perform s2 (s2.inode i0).d := by
      rw [copy]
      exact cached2.readable (by rw [size2]; exact named.slots)
    have room2 : (unused s2).Nonempty := by
      have same : unused s2 = unused s1 := by
        rw [← at2]
        exact unused_of_ref (by rw [← entry])
      have less := got.room
      rw [same]
      exact Finset.card_pos.mp (by omega)
    have names : (direntAt s2.cur (s2.inode i0).d m).inum = inum := by
      rw [cached2.cur, copy]
      exact named.names
    refine readable.dirlookup (m := m) (by rw [here, ← entry]) ?_ ?_ ?_ ?_ (not_not.mp isDir)
    · rw [cached2.cur, copy, named.isMatch.cut_eq]
      exact named.isMatch
    · rw [copy]
      exact named.inside
    · rw [cached2.cur, copy]
      exact named.mapped
    · rw [names]
      apply (cached2.iget room2).mono
      rintro i1 s3 ⟨cached3, got'⟩
      have apart : i0 ≠ i1 := by
        rintro rfl
        have ref := cached2.used i0 (by simp)
        rcases got'.fresh with zero | ⟨-, same⟩
        · omega
        · rw [here, ← entry] at same
          exact named.other same.symm
      have kept : s3.inode i0 = x := (got'.others i0 apart).trans here
      apply Runs.bind
      apply (cached3.iunlockput (i := i0) (by simp) (by rw [kept, ← entry]; exact named.nlink)).mono
      rintro _ s4 ⟨cached4, others, size4⟩
      obtain ⟨c, rest, rfl⟩ := exists_cons_of_ne_nil nonempty
      have same : s4.inode i1 = s3.inode i1 := others i1 apart.symm
      refine ⟨i1, rfl, ?_, ?_, ?_, ?_, ?_⟩
      · simpa using cached4
      · rw [same, got'.sameDev]
      · rw [same, got'.sameInum]
      · rw [same]
        exact got'.ref
      · rw [size4, got'.disksize, size2]

/-- Looking up a path, locking the inode and reading all of it. -/
def fetch (p : Slot) (path : List UInt8) : M (Option (Dinode × Option (List UInt8))) := do
  match ← namei p path with
  | none => return none
  | some i =>
    ilock i
    let ip ← look i
    let bytes ← readi i 0 ip.d.size.toNat
    return some (ip.d, bytes)

/-- A file named in the root directory is read as it is on the disk. -/
theorem Cached.fetch {name : List UInt8} {m inum : Nat} {p : Slot} (cached : Cached disk ∅ s)
    (room : 2 ≤ (unused s).card) (noSlash : slash ∉ name) (nonempty : name ≠ [])
    (named : Named disk s.disksize (name.take dirsiz) m inum) (sector : iblock inum < s.disksize)
    (isFile : (inodeOn disk inum).type = tFile)
    (slots : ∀ k, slotRef disk (inodeOn disk inum) k < s.disksize)
    (mapped : Mapped disk (inodeOn disk inum) 0 (inodeOn disk inum).size.toNat) :
    Yields (fun r _ => r = some (inodeOn disk inum,
        some (fileBytes disk (inodeOn disk inum) 0 (inodeOn disk inum).size.toNat)))
      (fetch p (slash :: name)) s := by
  apply Runs.bind
  apply (cached.namei room noSlash nonempty named).mono
  rintro _ t ⟨i, rfl, cached1, dev, isInum, ref, size⟩
  apply cached1.ilock ref (by simp) dev
  · rw [isInum, size]
    exact sector
  · rw [isInum, isFile]
    decide
  · intro cached2
    rw [isInum] at cached2 ⊢
    generalize entry : (⟨rootdev, inum, (t.inode i).ref, true, true, inodeOn disk inum⟩ : Inode) =
      x at cached2 ⊢
    generalize at2 : t.setInode i x = s2 at cached2 ⊢
    have here : s2.inode i = x := by
      rw [← at2]
      exact Function.update_self ..
    have size2 : s2.disksize = s.disksize := by
      rw [← at2, ← size]
      rfl
    have copy : (s2.inode i).d = inodeOn disk inum := by rw [here, ← entry]
    refine runs_known (.look i) (t := s2) (r := s2.inode i) rfl ?_
    have readable : Readable perform s2 (s2.inode i).d := by
      rw [copy]
      exact cached2.readable (by rw [size2]; exact slots)
    apply (readable.readi (n := (s2.inode i).d.size.toNat) (by rw [here, ← entry])
      (by rw [copy, isFile]; decide) (Nat.le_of_eq (Nat.zero_add _))
      (by rw [cached2.cur, copy]; exact mapped)).bind
    rw [cached2.cur, copy]
    rfl

/-! ### The elements of a path -/

/-- The parts of a path between slashes that are not empty, cut to `DIRSIZ` bytes. -/
def elements (path : List UInt8) : List (List UInt8) :=
  ((path.splitOn slash).filter (· ≠ [])).map (take dirsiz)

variable {path path' : List UInt8}

theorem elements_append {w : List UInt8} (noSlash : slash ∉ w) (path : List UInt8) :
    elements (w ++ slash :: path) = elements w ++ elements path := by
  simp [elements, splitOn_eq_singleton noSlash, splitOn_append_cons_self_of_not_mem noSlash,
    filter_cons]
  split <;> simp

theorem elements_slash : elements (slash :: path) = elements path :=
  elements_append (w := []) not_mem_nil path

theorem elements_dropWhile : elements (path.dropWhile (· = slash)) = elements path := by
  induction path with
  | nil => rfl
  | cons c path ih =>
    by_cases isSlash : c = slash
    · subst isSlash
      simpa [elements_slash] using ih
    · simp [isSlash]

theorem elements_word {c : UInt8} (word : c ≠ slash) :
    elements (c :: path) = ((c :: path).takeWhile (· ≠ slash)).take dirsiz ::
      elements ((c :: path).dropWhile (· ≠ slash)) := by
  have whole := takeWhile_append_dropWhile (p := (· ≠ slash)) (l := c :: path)
  have first : (c :: path).takeWhile (· ≠ slash) ≠ [] := by simp [word]
  have noSlash : slash ∉ (c :: path).takeWhile (· ≠ slash) :=
    fun mem => by simpa using mem_takeWhile_imp mem
  generalize (c :: path).takeWhile (· ≠ slash) = w at whole first noSlash ⊢
  have single : elements w = [w.take dirsiz] := by
    simp [elements, splitOn_eq_singleton noSlash, first]
  obtain none | ⟨d, rest, is, isSlash⟩ := dropWhile_cases (· ≠ slash) (c :: path)
  · rw [none, ← whole, none, append_nil, single]
    rfl
  · obtain rfl : d = slash := by simpa using isSlash
    rw [is, ← whole, is, elements_append noSlash, single, elements_slash, singleton_append]

/-- What a round of the loop does to the elements. -/
theorem skipelem_elements (path : List UInt8) :
    skipelem path = none ∧ elements path = [] ∨ ∃ name rest, skipelem path = some (name, rest) ∧
      elements path = name :: elements rest ∧ (rest = [] ↔ elements rest = []) := by
  simp only [skipelem]
  obtain none | ⟨c, q, is, word⟩ := dropWhile_cases (· = slash) path
  · exact .inl ⟨if_pos none, by rw [← elements_dropWhile, none]; rfl⟩
  · refine .inr ⟨_, _, if_neg (is ▸ cons_ne_nil c q), ?_, ?_⟩
    · rw [← elements_dropWhile, is, elements_word (by simpa using word), elements_dropWhile]
    · obtain none | ⟨c, q, is, word⟩ := dropWhile_cases (· = slash)
        ((path.dropWhile (· = slash)).dropWhile (· ≠ slash))
      · rw [none]
        exact iff_of_true rfl rfl
      · rw [is, elements_word (by simpa using word)]
        simp

theorem namexLoop_congr {parent : Bool} {fuel fuel' : Nat} {ip : InodeId} {name : List UInt8}
    (same : elements path = elements path') (enough : path.length < fuel)
    (enough' : path'.length < fuel') :
    namexLoop parent fuel ip path name = namexLoop parent fuel' ip path' name := by
  induction fuel generalizing fuel' ip path path' name with
  | zero => omega
  | succ fuel ih =>
    obtain ⟨fuel', rfl⟩ : ∃ n, fuel' = n + 1 := ⟨fuel' - 1, by omega⟩
    rw [namexLoop, namexLoop]
    obtain ⟨none, end'⟩ | ⟨name, rest, next, more, last⟩ := skipelem_elements path
    · obtain ⟨none', -⟩ | ⟨name', rest', next', more', -⟩ := skipelem_elements path'
      · rw [none, none']
      · simp [← same, end'] at more'
    · obtain ⟨none', end'⟩ | ⟨name', rest', next', more', last'⟩ := skipelem_elements path'
      · simp [same, end'] at more
      · rw [same, more', cons.injEq] at more
        obtain ⟨rfl, rests⟩ := more
        have shorter := skipelem_shorter next
        have shorter' := skipelem_shorter next'
        have later : ∀ ip, namexLoop parent fuel ip rest name' =
            namexLoop parent fuel' ip rest' name' :=
          fun ip => ih rests.symm (by omega) (by omega)
        rw [← rests, ← last'] at last
        simp only [next, next', later, last]

/-- Two paths that start in the same place and have the same elements are looked up by the same
operations, in whatever state. -/
theorem namei_elements (p : Slot) (same : elements path = elements path')
    (start : path.head? = some slash ↔ path'.head? = some slash) :
    namei p path = namei p path' ∧ nameiparent p path = nameiparent p path' := by
  have both : ∀ parent, namex p path parent = namex p path' parent := by
    intro parent
    have loop : ∀ ip, namexLoop parent (path.length + 1) ip path [] =
        namexLoop parent (path'.length + 1) ip path' [] :=
      fun ip => namexLoop_congr same (Nat.lt_succ_self _) (Nat.lt_succ_self _)
    simp only [namex, pathStart, start, loop]
  exact ⟨by rw [namei, namei, both], both true⟩

/-- `//a/` and `/a`. -/
theorem namei_slashes : namei initproc [slash, slash, 97, slash] = namei initproc [slash, 97] :=
  (namei_elements initproc (by decide) (by decide)).1

end FileSystem
