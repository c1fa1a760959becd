import PinkyOS.FileContents
import PinkyOS.MkfsFormat

/-!
# Where new blocks come from

`balloc` hands out the first block whose bit is clear, up to the end of the disk. `mkfs` marks the
blocks before the data and those of the files, but not the log: once no data block is free, the
next block that `balloc` finds is the first block of the log.
-/
namespace FileSystem
open ByteBuffer DiskLog DiskFormat FileMap Program

variable {s t : Machine} {b : Nat} {β : Type} {post : β → Machine → Prop}

/-- The first block after the bitmap. -/
def Superblock.data (sb : Superblock) : Nat := sb.ninodes / ipb + 4

/-- A block of the data region. -/
def InData (sb : Superblock) (b : Nat) : Prop :=
  Superblock.data sb ≤ b ∧ b < sb.size - sb.nlog

/-! ### The first clear bit -/

/-- The rule for an operation whose effect does not matter. -/
theorem runs_skip (o : Op) {k : Res o → M β}
    (rest : ∀ r t, Runs perform (fun _ => True) post (k r) t) :
    Runs perform (fun _ => True) post (call o >>= k) s :=
  Runs.op (fun r t _ => rest r t) (fun _ => trivial) (fun _ _ => trivial)

theorem runs_bread {dev : Nat} {k : Block → M β}
    (rest : ∀ t, t.cur = s.cur → Runs perform (fun _ => True) post (k (s.cur b)) t) :
    Runs perform (fun _ => True) post (bread dev b >>= k) s := by
  apply Runs.op (o := Op.bread dev b)
  case done =>
    intro r u performed
    simp only [perform] at performed
    split_ifs at performed
    cases performed
    exact rest _ rfl
  case wait => exact fun _ => trivial
  case panic => exact fun _ _ => trivial

theorem runs_brelse {k : Unit → M β}
    (rest : ∀ t, t.cur = s.cur → Runs perform (fun _ => True) post (k ()) t) :
    Runs perform (fun _ => True) post (brelse b >>= k) s := by
  apply Runs.op (o := Op.brelse b)
  case done =>
    intro r u performed
    simp only [perform] at performed
    split_ifs at performed
    cases performed
    exact rest _ rfl
  case wait => exact fun _ => trivial
  case panic => exact fun _ _ => trivial

/-- What `balloc` returns is the first clear bit. -/
theorem balloc_freeBit (one : (Superblock.ofBlock (s.cur 1)).size ≤ bpb)
    (ran : Program.exec perform (balloc rootdev) s = .done b t) :
    freeBit (s.cur (bblock 0 (Superblock.ofBlock (s.cur 1)).ninodes))
      (Superblock.ofBlock (s.cur 1)).size = some b := by
  generalize super : Superblock.ofBlock (s.cur 1) = sb at one ⊢
  have runs : Runs perform (fun _ => True) (fun r _ =>
      freeBit (s.cur (bblock 0 sb.ninodes)) sb.size = some r) (balloc rootdev) s := by
    apply Runs.bind
    apply Runs.bind
    apply runs_bread
    intro s1 cur1
    apply runs_brelse
    intro s2 cur2
    show Runs perform (fun _ => True) _
      (ballocLoop rootdev (Superblock.ofBlock (s.cur 1)) _ 0) s2
    rw [super]
    rcases Nat.eq_zero_or_pos sb.size with none' | some'
    · rw [none']
      exact trivial
    · have rounds : (sb.size + bpb - 1) / bpb = 1 := by
        simp only [bpb] at one ⊢
        omega
      have bits : min bpb (sb.size - 0) = sb.size := by omega
      rw [rounds, ballocLoop, bits]
      apply runs_bread
      intro s3 cur3
      rw [cur2, cur1]
      cases found : freeBit (s.cur (bblock 0 sb.ninodes)) sb.size with
      | none =>
        apply runs_brelse
        exact fun _ _ => trivial
      | some bi =>
        apply runs_skip (.logWrite _ _)
        intro _ _
        apply runs_skip (.brelse _)
        intro _ _
        apply Runs.bind
        apply runs_skip (.bread _ _)
        intro _ _
        apply runs_skip (.logWrite _ _)
        intro _ _
        apply runs_skip (.brelse _)
        intro _ _
        exact congrArg some (Nat.zero_add bi).symm
  exact runs.done ran

/-- `balloc` returns a data block exactly if the blocks before the data are marked and some data
block is not. -/
theorem balloc_inData_iff (one : (Superblock.ofBlock (s.cur 1)).size ≤ bpb)
    (ran : Program.exec perform (balloc rootdev) s = .done b t) :
    let sb := Superblock.ofBlock (s.cur 1)
    let bitmap := s.cur (bblock 0 sb.ninodes)
    InData sb b ↔ (∀ c < Superblock.data sb, bit bitmap c = true) ∧
      ∃ c, InData sb c ∧ bit bitmap c = false := by
  intro sb bitmap
  obtain ⟨less, clear, before⟩ := freeBit_some (balloc_freeBit one ran)
  constructor
  · intro inData
    exact ⟨fun c early => before c (by have := inData.1; omega), b, inData, clear⟩
  · rintro ⟨marked, c, inData, free⟩
    constructor
    · by_contra early
      have set := marked b (by omega)
      have unset : bit bitmap b = false := clear
      rw [unset] at set
      cases set
    · have notAfter : ¬ c < b := by
        intro early
        have set : bit bitmap c = true := before c early
        rw [free] at set
        cases set
      have := inData.2
      omega

/-- The empty disk has room for data. -/
theorem smallMachine_balloc : ∃ t, Program.exec perform (balloc rootdev) smallMachine = .done 29 t ∧
    InData (Superblock.ofBlock (smallMachine.cur 1)) 29 := by
  obtain ⟨t, ran⟩ : ∃ t, Program.exec perform (balloc rootdev) smallMachine = .done 29 t :=
    Outcome.result_eq_some.mp (by decide +kernel)
  refine ⟨t, ran, (balloc_inData_iff (by decide +kernel) ran).mpr ⟨by decide +kernel, 29, ?_⟩⟩
  exact ⟨⟨by decide +kernel, by decide +kernel⟩, by decide +kernel⟩

end FileSystem

/-! ### A full image -/

namespace Mkfs
open ByteBuffer DiskLog DiskFormat FileMap Program

/-- The disk of an image, all of it up to `hi` counted as data. -/
def geometry (hi : Nat) (within : hi ≤ size) : Geometry :=
  ⟨size, ninodes, hi, by decide, within, by decide, nlog⟩

/-- An image that was built owns the blocks of its files. -/
theorem Built.owned {s : State} {files : List Input} {hi : Nat} (built : Built s files)
    (fits : Fits files) (within : hi ≤ size) (room : metablocks + nblocks ≤ hi) :
    Owned (geometry hi within) ∅ (finish s).disk (inodes (finish s).disk) := by
  have bump := built.finish_stored.mapped.bump
  have count := built.freeblock fits.few
  have total := fits.total
  have number : metablocks + nblocks < bpb := by decide
  have used := built.image.counters
  have bits : ∀ b, bit ((finish s).disk (geometry hi within).bm) b = decide (b < s.freeblock) := by
    intro b
    have here : (finish s).disk (geometry hi within).bm = bitmap s.usedblocks :=
      Function.update_self ..
    rw [here, used, bit_bitmap (by omega)]
  have low := built.finish_stored.mapped.low
  have lo : (geometry hi within).lo = metablocks := rfl
  have top : (geometry hi within).hi = hi := rfl
  constructor
  case distinct => exact bump.distinct
  case region =>
    intro y held
    have range := bump.range held
    omega
  case marked =>
    intro y held
    rw [bits, decide_eq_true (bump.range held).2]
  case low =>
    intro b less
    rw [bits, decide_eq_true (by omega)]
  case loose => exact fun b listed => absurd listed (Finset.notMem_empty b)
  case exact =>
    intro b above _ set
    rw [bits, decide_eq_true_iff] at set
    have pos : 0 < metablocks := by decide
    exact .inl ((bump.filled b (by omega)).mpr (by omega))

/-- A file of `n` blocks. -/
def blockFile (n : Nat) : Input :=
  ⟨[97], List.replicate n (List.replicate 512 0), by decide, by
    intro chunk listed
    rw [List.eq_of_mem_replicate listed, List.length_replicate]
    decide⟩

theorem length_blockFile (n : Nat) : (blockFile n).bytes.length = n * 512 := by
  simp only [blockFile, Input.bytes, List.length_flatten, List.map_replicate, List.length_replicate,
    List.sum_replicate]
  rfl

/-- Files that leave no data block free. -/
def fullFiles : List Input := List.replicate 6 (blockFile 140) ++ [blockFile 137]

theorem fullFiles_total : (fullFiles.map fun f => slots (blocks f.bytes.length)).sum +
    slots (blocks (sizeofDirent * (fullFiles.length + 2))) = nblocks := by
  simp only [fullFiles, List.map_append, List.map_replicate, List.map_cons, List.map_nil,
    length_blockFile]
  decide

theorem fullFiles_fits : Fits fullFiles := by
  constructor
  case few => decide
  case each =>
    intro f listed
    rcases List.mem_append.mp listed with large | last
    · rw [List.eq_of_mem_replicate large, length_blockFile]
      decide
    · rw [List.mem_singleton.mp last, length_blockFile]
      decide
  case total => exact Nat.le_of_eq fullFiles_total

theorem finish_super {s : State} {files : List Input} (built : Built s files) :
    (finish s).disk 1 = start.disk 1 := by
  have apart : (1 : Nat) ≠ bitmapSector := by decide
  have other : (finish s).disk 1 = (fixRoot s rootino).disk 1 :=
    Function.update_of_ne apart (bitmap s.usedblocks) (fixRoot s rootino).disk
  rw [other, fixRoot, winode_super, built.super]

/-- The kernel on an image, in its first transaction. -/
def kernel (image : State) : FileSystem.Machine :=
  FileSystem.blank size image.disk ⟨size - nlog, nlog, true, []⟩ (fun _ => none) (fun _ => 0)

theorem Built.sound {s : State} {files : List Input} (built : Built s files) (fits : Fits files) :
    FileSystem.Sound (geometry size (Nat.le_refl _))
      ⟨inodes (finish s).disk, ∅, ∅, ∅, true⟩ (kernel (finish s)) := by
  have super := finish_super built
  constructor
  case owned => exact built.owned fits _ (by decide)
  case size =>
    show (Superblock.ofBlock ((finish s).disk 1)).size = size
    rw [super]
    decide +kernel
  case ninodes =>
    show (Superblock.ofBlock ((finish s).disk 1)).ninodes = ninodes
    rw [super]
    decide +kernel
  case disk => exact Nat.le_refl _
  case held => exact fun b => by simp [kernel, FileSystem.blank]
  case busy => rfl
  case nlog => rfl
  case nodup => exact List.nodup_nil
  case logs => exact fun b listed => absurd listed List.not_mem_nil
  case boot => exact Finset.notMem_empty 0

/-- The kernel's first `balloc` on the full image returns the first block of the log. -/
theorem fullFiles_balloc : ∃ image, main fullFiles = .ok image ∧
    ∃ t, Program.exec FileSystem.perform (FileSystem.balloc FileSystem.rootdev) (kernel image) =
        .done (size - nlog) t ∧
      ¬ FileSystem.InData (Superblock.ofBlock (image.disk 1)) (size - nlog) := by
  have fits := fullFiles_fits
  obtain ⟨s, built, ran⟩ := main_built fits (by decide)
  have super := finish_super built
  have sound := built.sound fits
  have bits : ∀ b, bit ((finish s).disk bitmapSector) b = decide (b < size - nlog) := by
    intro b
    have here : (finish s).disk bitmapSector = bitmap s.usedblocks :=
      Function.update_self bitmapSector _ (fixRoot s rootino).disk
    have count := built.freeblock fits.few
    rw [fullFiles_total] at count
    rw [here, built.image.counters, count, bit_bitmap (by decide)]
    rfl
  have free : size - nlog ∈ freeBlocks (geometry size (Nat.le_refl _)) (finish s).disk :=
    mem_freeBlocks.mpr ⟨by decide, (bits _).trans (by decide)⟩
  have runs : Runs FileSystem.perform (fun _ => False) (fun _ _ => True)
      (FileSystem.balloc FileSystem.rootdev >>= Pure.pure) (kernel (finish s)) :=
    sound.balloc (m := FileSystem.Mode.strict _ (by decide)) (fun _ => ⟨by simp, by simp⟩)
      (fun _ => rfl) (fun _ h listed => absurd listed (Finset.notMem_empty h))
      (fun _ => ⟨_, free⟩) (fun _ _ => trivial)
  rw [Prog.bind_pure] at runs
  obtain ⟨b, t, done, -⟩ := Runs.ends runs
  have found : FileSystem.freeBit ((finish s).disk bitmapSector) size = some b := by
    have first := FileSystem.balloc_freeBit (sound.size.trans_le (by decide)) done
    rwa [sound.size, sound.ninodes] at first
  obtain ⟨-, clear, before⟩ := FileSystem.freeBit_some found
  rw [bits, decide_eq_false_iff_not] at clear
  have notAfter : ¬ size - nlog < b := by
    intro after
    have set := before _ after
    rw [bits, decide_eq_true_iff] at set
    exact Nat.lt_irrefl _ set
  obtain rfl : b = size - nlog := by omega
  refine ⟨finish s, ran, t, done, fun inData => ?_⟩
  have below := inData.2
  rw [super] at below
  revert below
  decide +kernel

end Mkfs
