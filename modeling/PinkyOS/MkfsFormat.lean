import PinkyOS.MkfsImage

/-!
# Images of `mkfs` are well formed, or have a hole in the root directory

`main` rounds the size of the root directory up to the next block boundary, and by a whole block
where it is at one already. The directory then has a block index without a block.
-/
namespace Mkfs
open ByteBuffer DiskLog DiskFormat FileMap SlotRefs

variable {inum j k : Nat} {s : State} {files : List Input}

/-! ### The bitmap -/

theorem bit_zero (k : Nat) : bit (fun _ => 0) k = false := by
  simp [bit, Buffer.get]

theorem bit_bitmap {used : Nat} (inside : used ≤ bpb) (b : Nat) :
    bit (bitmap used) b = decide (b < used) := by
  induction used with
  | zero => simp [bitmap, bit_zero]
  | succ used ih =>
    have step : bitmap (used + 1) = setBit (bitmap used) used := by
      simp [bitmap, List.range_succ]
    rw [step, bit_setBit _ (by omega), ih (by omega)]
    by_cases last : b = used
    · subst last
      simp
    · have same : b < used + 1 ↔ b < used := by omega
      simp [last, same]

/-! ### The finished image -/

theorem fixRoot_disk {b : Nat} (high : metablocks ≤ b) : (fixRoot s rootino).disk b = s.disk b :=
  winode_low (by decide) high

theorem finish_disk {b : Nat} (high : metablocks ≤ b) : (finish s).disk b = s.disk b := by
  have sector : bitmapSector < metablocks := by decide
  exact (Function.update_of_ne (by omega) _ _).trans (fixRoot_disk high)

theorem finish_inodes : inodes (finish s).disk = Function.update (inodes s.disk) rootino
    { inodes s.disk rootino with
      size := BitVec.ofNat 32 (fixSize (inodes s.disk rootino).size.toNat) } := by
  have root : inodes s.disk rootino = rinode s rootino := rfl
  rw [root, ← inodes_winode (by decide)]
  funext inum
  simp only [inodes]
  split
  case isTrue inside =>
    have low := i2b_lt inside
    have sector : bitmapSector = metablocks - 1 := by decide
    have other : (finish s).disk (i2b inum) = (fixRoot s rootino).disk (i2b inum) :=
      Function.update_of_ne (by omega) _ _
    rw [other]
    rfl
  case isFalse => rfl

theorem Built.finish_stored (built : Built s files) :
    Stored (finish s).disk (inodes (finish s).disk) s.freeblock (contents files) := by
  have stored : Stored s.disk (Function.update (inodes s.disk) rootino (inodes s.disk rootino))
      s.freeblock (contents files) := by
    rw [Function.update_eq_self]
    exact built.image.stored
  rw [finish_inodes]
  refine (stored.inode fun _ => ?_).frame fun b high => finish_disk high
  rfl

theorem Built.finish_size (built : Built s files) (other : inum ≠ rootino) :
    (inodes (finish s).disk inum).size.toNat = (contents files inum).length := by
  rw [finish_inodes, Function.update_of_ne other]
  exact built.image.size inum

theorem Built.finish_root_size (built : Built s files) (few : files.length < ninodes - 1) :
    (inodes (finish s).disk rootino).size.toNat = fixSize (sizeofDirent * (files.length + 2)) := by
  have size := built.image.size rootino
  have length : (contents files rootino).length = sizeofDirent * (files.length + 2) :=
    length_rootBytes files
  rw [finish_inodes, Function.update_self, size, length, BitVec.toNat_ofNat]
  apply Nat.mod_eq_of_lt
  simp only [ninodes] at few
  simp only [fixSize, sizeofDirent, bsize]
  omega

/-- What the kernel relies on. -/
structure WellFormed (disk : Nat → Block) : Prop where
  /-- Every block of a file lies in the data region. -/
  mapped : ∀ inum < ninodes, ∀ k < blocks (inodes disk inum).size.toNat,
    metablocks ≤ blockAt disk (inodes disk inum) k ∧
      blockAt disk (inodes disk inum) k < metablocks + nblocks
  /-- No two blocks of files are the same. -/
  distinct : ∀ inum < ninodes, ∀ inum' < ninodes,
    ∀ k < blocks (inodes disk inum).size.toNat, ∀ k' < blocks (inodes disk inum').size.toNat,
      blockAt disk (inodes disk inum) k = blockAt disk (inodes disk inum') k' →
        inum = inum' ∧ k = k'
  root : (inodes disk rootino).size.toNat % sizeofDirent = 0
  /-- The bitmap marks the blocks before the data and those that inodes refer to. -/
  marked : ∀ b < metablocks + nblocks, bit (disk (bblock b ninodes)) (b % bpb) = true ↔
    b < metablocks ∨ ∃ inum < ninodes, ∃ j, slotRef disk (inodes disk inum) j = b

theorem Built.finish_marked (built : Built s files) (fits : Fits files) {b : Nat}
    (inside : b < metablocks + nblocks) :
    bit ((finish s).disk (bblock b ninodes)) (b % bpb) = true ↔
      b < metablocks ∨ ∃ inum < ninodes, ∃ j,
        slotRef (finish s).disk (inodes (finish s).disk inum) j = b := by
  have stored := built.finish_stored
  have count := built.freeblock fits.few
  have total := fits.total
  have number : metablocks + nblocks < bpb := by decide
  have sector : bblock b ninodes = bitmapSector := by
    rw [bblock, Nat.div_eq_of_lt (by omega), Nat.zero_add]
    rfl
  have here : (finish s).disk bitmapSector = bitmap s.usedblocks := by simp [finish, wsect]
  have used := built.image.counters
  rw [sector, here, Nat.mod_eq_of_lt (by omega), bit_bitmap (by omega), decide_eq_true_iff, used]
  have low := stored.mapped.low
  constructor
  · intro less
    by_cases early : b < metablocks
    · exact .inl early
    · have pos : 0 < metablocks := by decide
      obtain ⟨⟨inum, j⟩, holds⟩ := (stored.mapped.bump.filled b (by omega)).mpr (by omega)
      refine .inr ⟨inum, ?_, j, holds⟩
      by_contra outside
      have zero : inodes (finish s).disk inum = Dinode.zero := if_neg outside
      simp only [refs, zero, slotRef, Dinode.addr_zero] at holds
      simp at holds
      omega
  · rintro (early | ⟨inum, -, j, rfl⟩)
    · omega
    · by_cases zero : slotRef (finish s).disk (inodes (finish s).disk inum) j = 0
      · have pos : 0 < metablocks := by decide
        omega
      · exact (stored.mapped.bump.range (x := (inum, j)) zero).2

theorem Built.finish_held (built : Built s files) :
    blockAt (finish s).disk (inodes (finish s).disk inum) k ≠ 0 ↔
      k < blocks (contents files inum).length :=
  (built.finish_stored.mapped.extent inum (slotOf k)).trans slotOf_lt_slots

/-- The blocks of a file lie in the data region as long as its size has not been changed. -/
theorem Built.finish_mapped (built : Built s files) (fits : Fits files)
    (held : blockAt (finish s).disk (inodes (finish s).disk inum) k ≠ 0) :
    metablocks ≤ blockAt (finish s).disk (inodes (finish s).disk inum) k ∧
      blockAt (finish s).disk (inodes (finish s).disk inum) k < metablocks + nblocks := by
  have range := built.finish_stored.mapped.bump.range (x := (inum, slotOf k)) held
  have count := built.freeblock fits.few
  have total := fits.total
  simp only [refs] at range
  simp only [blockAt]
  omega

theorem fixSize_blocks {n : Nat} : blocks (fixSize (sizeofDirent * n)) =
    if n % 32 = 0 then blocks (sizeofDirent * n) + 1 else blocks (sizeofDirent * n) := by
  simp only [blocks, fixSize, sizeofDirent, bsize]
  split <;> omega

/-- Without the extra block every size is that of the contents, counted in blocks. -/
theorem Built.finish_blocks (built : Built s files) (few : files.length < ninodes - 1)
    (odd : (files.length + 2) % 32 ≠ 0) (inum : Nat) :
    blocks (inodes (finish s).disk inum).size.toNat = blocks (contents files inum).length := by
  by_cases root : inum = rootino
  · subst root
    have length : (contents files rootino).length = sizeofDirent * (files.length + 2) :=
      length_rootBytes files
    rw [built.finish_root_size few, fixSize_blocks, if_neg odd, length]
  · rw [built.finish_size root]

theorem Built.finish_hole (built : Built s files) (few : files.length < ninodes - 1)
    (even : (files.length + 2) % 32 = 0) :
    blocks (sizeofDirent * (files.length + 2)) <
        blocks (inodes (finish s).disk rootino).size.toNat ∧
      blockAt (finish s).disk (inodes (finish s).disk rootino)
        (blocks (sizeofDirent * (files.length + 2))) = 0 := by
  have length : (contents files rootino).length = sizeofDirent * (files.length + 2) :=
    length_rootBytes files
  constructor
  · rw [built.finish_root_size few, fixSize_blocks, if_pos even]
    omega
  · by_contra held
    have less := built.finish_held.mp held
    rw [length] at less
    omega

theorem Built.wellFormed (built : Built s files) (fits : Fits files)
    (odd : (files.length + 2) % 32 ≠ 0) : WellFormed (finish s).disk := by
  have same := built.finish_blocks fits.few odd
  have held : ∀ inum k, k < blocks (inodes (finish s).disk inum).size.toNat →
      blockAt (finish s).disk (inodes (finish s).disk inum) k ≠ 0 := by
    intro inum k less
    rw [same] at less
    exact built.finish_held.mpr less
  constructor
  case mapped => exact fun inum _ k less => built.finish_mapped fits (held inum k less)
  case distinct =>
    intro inum _ inum' _ k less k' _ eq
    have distinct := built.finish_stored.mapped.bump.distinct (inum, slotOf k) (inum', slotOf k')
      (held inum k less) eq
    obtain ⟨one, two⟩ := Prod.mk.inj distinct
    exact ⟨one, slotOf_inj two⟩
  case root =>
    rw [built.finish_root_size fits.few]
    simp only [fixSize, sizeofDirent, bsize]
    omega
  case marked => exact fun b inside => built.finish_marked fits inside

/-- Input files that fit give an image unless a name has a slash, and the image is well formed
exactly if the root directory does not end at a block boundary before its size is rounded up. -/
theorem main_wellFormed_iff (fits : Fits files) :
    ((∀ f ∈ files, FileSystem.slash ∉ f.name) → ∃ s, main files = .ok s) ∧
    ∀ s, main files = .ok s → (WellFormed s.disk ↔ (files.length + 2) % 32 ≠ 0) := by
  constructor
  · intro noSlash
    obtain ⟨s, -, ran⟩ := main_built fits noSlash
    exact ⟨finish s, ran⟩
  · intro s ran
    obtain ⟨s0, built, ran'⟩ := main_built fits (main_noSlash ran)
    obtain rfl : finish s0 = s := by
      rw [ran] at ran'
      exact (Except.ok.inj ran').symm
    constructor
    · intro formed even
      obtain ⟨less, hole⟩ := built.finish_hole fits.few even
      have inside := (formed.mapped rootino (by decide) _ less).1
      have pos : 0 < metablocks := by decide
      omega
    · exact built.wellFormed fits

/-- One file of five bytes. -/
def hello : Input := ⟨[104, 105], [[104, 101], [108, 108, 111]], by decide, by decide⟩

theorem hello_wellFormed : ∃ s, main [hello] = .ok s ∧ WellFormed s.disk := by
  have fits : Fits [hello] := ⟨by decide, by decide, by decide⟩
  obtain ⟨s, ran⟩ := (main_wellFormed_iff fits).1 (by decide)
  exact ⟨s, ran, ((main_wellFormed_iff fits).2 s ran).mpr (by decide)⟩

/-- An empty file. -/
def emptyFile : Input := ⟨[120], [], by decide, by decide⟩

/-- Thirty empty files: with them the root directory has 512 bytes, and `main` makes them 1024. -/
theorem thirty_files_hole :
    ∃ s, Fits (List.replicate 30 emptyFile) ∧ main (List.replicate 30 emptyFile) = .ok s ∧
      (inodes s.disk rootino).size = 1024 ∧ blockAt s.disk (inodes s.disk rootino) 1 = 0 ∧
      ¬ WellFormed s.disk := by
  have fits : Fits (List.replicate 30 emptyFile) := ⟨by decide, by decide, by decide⟩
  obtain ⟨s, built, ran⟩ := main_built fits (by decide)
  have even : ((List.replicate 30 emptyFile).length + 2) % 32 = 0 := by decide
  obtain ⟨less, hole⟩ := built.finish_hole fits.few even
  refine ⟨finish s, fits, ran, ?_, hole, fun formed => ?_⟩
  · apply BitVec.eq_of_toNat_eq
    rw [built.finish_root_size fits.few]
    rfl
  · have inside := (formed.mapped rootino (by decide) _ less).1
    have pos : 0 < metablocks := by decide
    omega

end Mkfs
