import PinkyOS.MkfsFormat
import PinkyOS.NameLookup
import PinkyOS.CallBalance

/-!
# The kernel reads what `mkfs` has written

The two programs have the on-disk format each in its own words. A file that `mkfs` put into the
image is found by `namei` and read by `readi` with the bytes it had.
-/
namespace Mkfs
open ByteBuffer DiskLog DiskFormat FileMap SlotRefs List
open FileSystem (Machine inodeOn fileBytes direntAt slash unused)

variable {inum j k : Nat} {s : State} {files : List Input} {f : Input}

theorem inodeOn_eq {disk : Nat → Block} (inside : inum < ninodes) :
    inodeOn disk inum = inodes disk inum := by
  rw [inodes, if_pos inside]
  rfl

theorem fileBytes_eq {disk : Nat → Block} {d : Dinode} {bytes : List UInt8} {off n : Nat}
    (holds : Holds disk d bytes) (inside : off + n ≤ bytes.length) :
    fileBytes disk d off n = (bytes.drop off).take n := by
  apply ext_getElem?
  intro k
  by_cases less : k < n
  · rw [getElem?_take_of_lt less, getElem?_drop, holds _ (by omega)]
    simp [fileBytes, less]
  · rw [getElem?_eq_none (by simp [fileBytes]; omega),
      getElem?_eq_none (by simp; omega)]

/-! ### The root directory -/

/-- The entries of the root directory. -/
def rootEntries (files : List Input) : List Dirent :=
  ⟨rootino, [46]⟩ :: ⟨rootino, [46, 46]⟩ ::
    files.zipIdx.map fun f => ⟨f.2 + 2, strip f.1.name⟩

theorem rootBytes_eq (files : List Input) :
    rootBytes files = (rootEntries files).flatMap Dirent.bytes := by
  simp [rootBytes, rootEntries, entryBytes, flatMap_map]

theorem flatMap_piece (es : List Dirent) {de : Dirent} (entry : es[k]? = some de) :
    ((es.flatMap Dirent.bytes).drop (sizeofDirent * k)).take sizeofDirent = de.bytes := by
  induction es generalizing k with
  | nil => simp at entry
  | cons e es ih =>
    rw [flatMap_cons]
    cases k with
    | zero =>
      obtain rfl : e = de := by simpa using entry
      rw [Nat.mul_zero, drop_zero, take_left' (Dirent.length_bytes e)]
    | succ k =>
      have next : sizeofDirent * (k + 1) = e.bytes.length + sizeofDirent * k := by
        rw [Dirent.length_bytes, Nat.mul_add_one, Nat.add_comm]
      rw [next, ← drop_drop, drop_left]
      exact ih (by simpa using entry)

/-- The name of a file in the directory. -/
def entryName (f : Input) : List UInt8 := (strip f.name).take dirsiz

theorem noNul_strip (f : Input) : 0 ∉ strip f.name := by
  rw [strip]
  split
  · exact fun listed => f.noNul (mem_of_mem_tail listed)
  · exact f.noNul

/-- The names are those of a directory. -/
structure Names (files : List Input) : Prop where
  distinct : (files.map entryName).Nodup
  nonempty : ∀ f ∈ files, entryName f ≠ []
  dot : ∀ f ∈ files, entryName f ≠ [46]
  dotdot : ∀ f ∈ files, entryName f ≠ [46, 46]
  noSlash : ∀ f ∈ files, slash ∉ entryName f

theorem length_rootEntries (files : List Input) :
    (rootEntries files).length = files.length + 2 := by
  simp [rootEntries]

theorem rootEntries_file (entry : files[k]? = some f) :
    (rootEntries files)[k + 2]? = some ⟨k + 2, strip f.name⟩ := by
  simp [rootEntries, entry]

section
variable (built : Built s files)
include built

theorem Built.direntAt_eq {name : List UInt8}
    (entry : (rootEntries files)[k]? = some ⟨inum, name⟩) (small : inum < 2 ^ 16)
    (noNul : 0 ∉ name) :
    direntAt (finish s).disk (inodes (finish s).disk rootino) k = ⟨inum, name.take dirsiz⟩ := by
  have holds : Holds (finish s).disk (inodes (finish s).disk rootino) (rootBytes files) :=
    built.finish_stored.holds rootino
  obtain ⟨bound, -⟩ := List.getElem?_eq_some_iff.mp entry
  rw [length_rootEntries] at bound
  have inside : sizeofDirent * k + sizeofDirent ≤ (rootBytes files).length := by
    rw [length_rootBytes]
    simp only [sizeofDirent]
    omega
  rw [direntAt, fileBytes_eq holds inside, rootBytes_eq, flatMap_piece _ entry]
  rw [Dirent.ofBytes_bytes small, cut_of_noNul noNul]

theorem Built.firstMatch (few : files.length < ninodes - 1)
    (names : Names files) (entry : files[k]? = some f) :
    FileSystem.FirstMatch (finish s).disk (inodes (finish s).disk rootino) (entryName f) (k + 2) := by
  obtain ⟨bound, -⟩ := List.getElem?_eq_some_iff.mp entry
  have member : f ∈ files := List.mem_of_getElem? entry
  simp only [ninodes] at few
  constructor
  case found =>
    rw [built.direntAt_eq (rootEntries_file entry) (by omega) (noNul_strip f)]
    exact ⟨Nat.succ_ne_zero _, rfl⟩
  case first =>
    rintro j less ⟨-, same⟩
    rcases j with _ | _ | j
    · have dot : (rootEntries files)[0]? = some ⟨rootino, [46]⟩ := rfl
      rw [built.direntAt_eq dot (by decide) (by decide)] at same
      exact names.dot f member same.symm
    · have dotdot : (rootEntries files)[0 + 1]? = some ⟨rootino, [46, 46]⟩ := rfl
      rw [built.direntAt_eq dotdot (by decide) (by decide)] at same
      exact names.dotdot f member same.symm
    · have earlier : files[j]? = some files[j] := List.getElem?_eq_getElem (by omega)
      rw [built.direntAt_eq (rootEntries_file earlier) (by omega) (noNul_strip _)] at same
      have one : (files.map entryName)[j]? = some (entryName f) := by
        rw [List.getElem?_map, earlier]
        exact congrArg some same
      have two : (files.map entryName)[k]? = some (entryName f) := by
        rw [List.getElem?_map, entry]
        rfl
      have eq := (List.getElem?_inj (by simp; omega) names.distinct).mp (one.trans two.symm)
      omega

/-! ### Files -/

theorem Built.slot_lt (fits : Fits files) (inum j : Nat) :
    slotRef (finish s).disk (inodes (finish s).disk inum) j < size := by
  by_cases zero : slotRef (finish s).disk (inodes (finish s).disk inum) j = 0
  · rw [zero]
    decide
  · have range := built.finish_stored.mapped.bump.range (x := (inum, j)) zero
    have count := built.freeblock fits.few
    have total := fits.total
    have number : metablocks + nblocks ≤ size := by decide
    simp only [refs] at range
    omega

theorem Built.finish_type (inum : Nat) : (inodes (finish s).disk inum).type = types files inum := by
  have type := built.type inum
  rw [finish_inodes]
  by_cases root : inum = rootino
  · subst root
    simpa using type
  · rwa [Function.update_of_ne root]

theorem Built.finish_mappedTo {n : Nat} (inside : n ≤ (contents files inum).length) :
    FileSystem.Mapped (finish s).disk (inodes (finish s).disk inum) 0 n := by
  intro k less
  rw [Nat.zero_add]
  exact built.finish_held.mpr (lt_blocks (by omega))

theorem Built.named (fits : Fits files) (names : Names files) (entry : files[k]? = some f) :
    FileSystem.Named (finish s).disk size (entryName f) (k + 2) (k + 2) := by
  have root : inodeOn (finish s).disk rootino = inodes (finish s).disk rootino :=
    inodeOn_eq (by decide)
  obtain ⟨bound, -⟩ := List.getElem?_eq_some_iff.mp entry
  have few := fits.few
  have length := length_rootBytes files
  simp only [ninodes] at few
  constructor
  case sector => decide
  case type =>
    rw [root, built.finish_type]
    rfl
  case nlink =>
    have nlink := built.nlink rootino (by simp [types, tDir])
    rw [root, finish_inodes, Function.update_self, nlink]
    decide
  case slots =>
    rw [root]
    exact built.slot_lt fits rootino
  case isMatch =>
    rw [root]
    exact built.firstMatch fits.few names entry
  case inside =>
    rw [root, built.finish_root_size fits.few]
    simp only [fixSize, sizeofDirent, bsize]
    omega
  case mapped =>
    rw [root]
    apply built.finish_mappedTo
    show _ ≤ (rootBytes files).length
    rw [length]
    simp only [sizeofDirent]
    omega
  case names => rw [root, built.direntAt_eq (rootEntries_file entry) (by omega) (noNul_strip f)]
  case other =>
    simp only [rootino]
    omega

end

theorem contents_file (entry : files[k]? = some f) : contents files (k + 2) = f.bytes := by
  simp [contents, rootino, entry]

/-- The kernel reads a file of the image. -/
theorem Built.fetched (built : Built s files) (fits : Fits files) (names : Names files)
    (entry : files[k]? = some f) {t : Machine} (cached : FileSystem.Cached (finish s).disk ∅ t)
    (disksize : t.disksize = size) (room : 2 ≤ (unused t).card) {name : List UInt8}
    (noSlash : slash ∉ name) (short : name.take dirsiz = entryName f) (p : SleepWakeup.Slot) :
    ∃ d u, Program.exec FileSystem.perform (FileSystem.fetch p (slash :: name)) t =
        .done (some (d, some f.bytes)) u ∧
      d.type = tFile ∧ d.size.toNat = f.bytes.length := by
  obtain ⟨bound, -⟩ := List.getElem?_eq_some_iff.mp entry
  have few := fits.few
  simp only [ninodes] at few
  have inside : k + 2 < ninodes := by
    simp only [ninodes]
    omega
  have named := built.named fits names entry
  rw [← short, ← disksize] at named
  have nonempty : name ≠ [] := by
    rintro rfl
    exact names.nonempty f (List.mem_of_getElem? entry) short.symm
  have inode : inodeOn (finish s).disk (k + 2) = inodes (finish s).disk (k + 2) := inodeOn_eq inside
  have isSize : (inodes (finish s).disk (k + 2)).size.toNat = f.bytes.length := by
    rw [built.finish_size (by simp only [rootino]; omega), contents_file entry]
  have isFile : (inodes (finish s).disk (k + 2)).type = tFile := by
    rw [built.finish_type]
    simp [types, rootino, bound]
  have holds : Holds (finish s).disk (inodes (finish s).disk (k + 2)) f.bytes := by
    rw [← contents_file entry]
    exact built.finish_stored.holds (k + 2)
  have runs := cached.fetch (p := p) room noSlash nonempty named
    (by rw [disksize]; simp only [iblock, ipb, size]; omega) (by rw [inode, isFile])
    (by rw [inode, disksize]; exact built.slot_lt fits (k + 2))
    (by rw [inode, isSize, ← contents_file entry]; exact built.finish_mappedTo (Nat.le_refl _))
  obtain ⟨r, u, ran, rfl⟩ := runs.ends
  refine ⟨inodes (finish s).disk (k + 2), u, ?_, isFile, isSize⟩
  rw [ran, inode, isSize, fileBytes_eq holds (by omega), List.drop_zero, List.take_length]

/-- For input files that fit and have distinct proper names, `mkfs` writes an image unless a name
has a slash, and in every kernel state over this image, with two free entries in the inode cache,
looking up and reading a file gives an inode of type `T_FILE` with the size and bytes of the file.
The path may have the name in full or cut to `DIRSIZ` bytes. -/
theorem main_read_back (fits : Fits files) (names : Names files) :
    ((∀ f ∈ files, slash ∉ f.name) → ∃ image, main files = .ok image) ∧
    ∀ image, main files = .ok image → ∀ t : Machine, FileSystem.Cached image.disk ∅ t →
      t.disksize = size → 2 ≤ (unused t).card → ∀ f ∈ files, ∀ name : List UInt8, slash ∉ name →
        name.take dirsiz = entryName f → ∀ p, ∃ d u,
          Program.exec FileSystem.perform (FileSystem.fetch p (slash :: name)) t =
            .done (some (d, some f.bytes)) u ∧
          d.type = tFile ∧ d.size.toNat = f.bytes.length := by
  constructor
  · intro noSlash
    obtain ⟨s, -, ran⟩ := main_built fits noSlash
    exact ⟨finish s, ran⟩
  · intro image ran t cached disksize room f member name noSlash short p
    obtain ⟨s, built, ran'⟩ := main_built fits (main_noSlash ran)
    obtain rfl : finish s = image := by
      rw [ran] at ran'
      exact (Except.ok.inj ran').symm
    obtain ⟨k, entry⟩ := List.mem_iff_getElem?.mp member
    exact built.fetched fits names entry cached disksize room noSlash short p

/-- A kernel that has just started is in such a state. -/
theorem blank_cached (disk : Nat → Block) (log : DiskLog.Log)
    (console : Nat → Option (List UInt8)) (memory : Nat → Nat) :
    FileSystem.Cached disk ∅ (FileSystem.blank size disk log console memory) :=
  ⟨rfl, fun _ => rfl, fun _ => le_rfl, fun _ less => absurd less (lt_irrefl _), by simp,
    fun _ less => absurd less (lt_irrefl _)⟩

theorem hello_read_back :
    ∃ image d u, main [hello] = .ok image ∧
      Program.exec FileSystem.perform (FileSystem.fetch SleepWakeup.initproc [47, 104, 105])
        (FileSystem.blank size image.disk ⟨0, 0, false, []⟩ (fun _ => none) fun _ => 0) =
          .done (some (d, some [104, 101, 108, 108, 111])) u ∧
      d.type = tFile ∧ d.size.toNat = 5 := by
  have fits : Fits [hello] := ⟨by decide, by decide, by decide⟩
  have names : Names [hello] := ⟨by decide, by decide, by decide, by decide, by decide⟩
  obtain ⟨image, ran⟩ := (main_read_back fits names).1 (by decide)
  have cached := blank_cached image.disk ⟨0, 0, false, []⟩ (fun _ => none) fun _ => 0
  have room : 2 ≤ (unused (FileSystem.blank size image.disk ⟨0, 0, false, []⟩ (fun _ => none)
      fun _ => 0)).card := by
    simp [unused, FileSystem.blank, FileSystem.ninode]
  obtain ⟨d, u, result⟩ := (main_read_back fits names).2 image ran _ cached rfl room hello
    List.mem_cons_self [104, 105] (by decide) (by decide) SleepWakeup.initproc
  exact ⟨image, d, u, ran, result⟩

end Mkfs
