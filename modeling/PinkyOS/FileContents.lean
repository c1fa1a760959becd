import PinkyOS.FileWrite
import PinkyOS.NameLookup
import PinkyOS.CallBalance

/-!
# Files as sequences of bytes

The contents of a file are the bytes that its slots lead to. Under the ownership of blocks,
`writei` splices bytes into them, `readi` returns a part of them, and no other file changes.
-/
namespace FileSystem
open ByteBuffer DiskLog DiskFormat FileMap Program List Dinode
open SleepWakeup (Slot ProcState)

/-- Every block below the size is there. -/
def NoHoles (cur : Nat → Block) (d : Dinode) : Prop :=
  ∀ k < blocks d.size.toNat, blockAt cur d k ≠ 0

def contents (cur : Nat → Block) (d : Dinode) : List UInt8 := fileBytes cur d 0 d.size.toNat

/-- The inodes of the disk, with the copy in memory of the one in use. -/
def view (g : Geometry) (s : Machine) (i : InodeId) : Nat → Dinode :=
  Function.update (fun k => if k < g.ninodes then inodeOn s.cur k else Dinode.zero)
    (s.inode i).inum (s.inode i).d

/-- Inside a transaction, inode `i` is in use by the process that runs, and the file system owns
its blocks. -/
structure Holding (g : Geometry) (s : Machine) (i : InodeId) : Prop where
  owned : Owned g ∅ s.cur (view g s i)
  noHoles : ∀ k, NoHoles s.cur (view g s i k)
  size : (Superblock.ofBlock (s.cur 1)).size = g.size
  ninodes : (Superblock.ofBlock (s.cur 1)).ninodes = g.ninodes
  disk : g.size ≤ s.disksize
  held : ∀ b, s.held b = false
  busy : s.log.busy = true
  nlog : s.log.size = g.nlog
  nodup : s.log.lh.Nodup
  boot : 0 ∉ s.log.lh
  dev : (s.inode i).dev = rootdev
  ranged : (s.inode i).inum < g.ninodes

variable {g : Geometry} {m : Mode g} {γ γ' : Ghost} {s t : Machine} {i : InodeId}
  {n c off : Nat} {src : List UInt8} {cur cur' : Nat → Block} {d d' : Dinode}
  {dn dn' : Nat → Dinode} {inum : Nat}

/-- The bytes `src` in place of those at `off`. -/
def splice (bytes : List UInt8) (off : Nat) (src : List UInt8) : List UInt8 :=
  bytes.take off ++ src ++ bytes.drop (off + src.length)

theorem getElem?_contents {o : Nat} (inside : o < d.size.toNat) :
    (contents cur d)[o]? = some (byteAt cur d o) := by
  simp [contents, fileBytes, getElem?_range inside]

theorem length_contents (cur : Nat → Block) (d : Dinode) :
    (contents cur d).length = d.size.toNat := length_fileBytes ..

theorem NoHoles.mapped (noHoles : NoHoles cur d) {o : Nat} (inside : o < d.size.toNat) :
    slotRef cur d (slotOf (o / bsize)) ≠ 0 :=
  noHoles _ (lt_blocks inside)

/-- Contents that are as long and agree byte by byte. -/
theorem contents_eq {bytes : List UInt8} (length : bytes.length = d.size.toNat)
    (byte : ∀ o < d.size.toNat, bytes[o]? = some (byteAt cur d o)) : contents cur d = bytes := by
  apply ext_getElem?
  intro o
  by_cases inside : o < d.size.toNat
  · rw [getElem?_contents inside, byte o inside]
  · rw [getElem?_eq_none (by rw [length_contents]; omega),
      getElem?_eq_none (by omega)]

section
variable (written : Written g n inum off src cur dn cur' dn')
include written

theorem contents_splice (noHoles : NoHoles cur (dn inum)) (before : off ≤ (dn inum).size.toNat)
    (size : (dn' inum).size.toNat = max (dn inum).size.toNat (off + src.length)) :
    contents cur' (dn' inum) = splice (contents cur (dn inum)) off src := by
  have length := length_contents cur (dn inum)
  apply contents_eq
  · simp only [splice, length_append, length_take, length_drop, length, size]
    omega
  intro o inside
  have start : ((contents cur (dn inum)).take off).length = off := by
    rw [length_take, length]
    omega
  by_cases early : o < off
  · have held := noHoles.mapped (o := o) (by omega)
    rw [splice, append_assoc, getElem?_append_left (by omega), getElem?_take,
      if_pos early, getElem?_contents (by omega), written.bytes inum o held (by omega)]
  · by_cases late : o < off + src.length
    · have new := (written.new (o - off) (by omega)).2
      have place : off + (o - off) = o := by omega
      rw [place] at new
      rw [splice, append_assoc, getElem?_append_right (by omega), start,
        getElem?_append_left (by omega), new]
    · have held := noHoles.mapped (o := o) (by omega)
      have index : off + src.length + (o - off - src.length) = o := by omega
      rw [splice, append_assoc, getElem?_append_right (by omega), start,
        getElem?_append_right (by omega), getElem?_drop, index,
        getElem?_contents (by omega), written.bytes inum o held (by omega)]

theorem contents_other {k : Nat} (other : k ≠ inum) (noHoles : NoHoles cur (dn k)) :
    contents cur' (dn' k) = contents cur (dn k) := by
  have same := written.others k other
  apply contents_eq
  · rw [length_contents, same]
  · intro o inside
    rw [same] at inside ⊢
    have held := noHoles.mapped inside
    have byte := written.bytes k o held (fun here => other here.1)
    rw [same] at byte
    rw [getElem?_contents inside, byte]

theorem noHoles_written (noHoles : ∀ k, NoHoles cur (dn k)) (before : off ≤ (dn inum).size.toNat)
    (size : (dn' inum).size.toNat = max (dn inum).size.toNat (off + src.length)) (k : Nat) :
    NoHoles cur' (dn' k) := by
  have kept : ∀ j < blocks (dn k).size.toNat, blockAt cur' (dn' k) j ≠ 0 := by
    intro j less
    have held := noHoles k j less
    have same : blockAt cur' (dn' k) j = blockAt cur (dn k) j := written.kept (k, slotOf j) held
    rwa [same]
  by_cases here : k = inum
  · subst here
    intro j less
    by_cases old : j < blocks (dn k).size.toNat
    · exact kept j old
    · -- such a block starts at or after the end, so that its first byte is a new one
      have first : off ≤ bsize * j ∧ bsize * j < off + src.length := by
        simp only [blocks, bsize] at less old ⊢
        rw [size] at less
        omega
      have new := (written.new (bsize * j - off) (by omega)).1
      have block : (off + (bsize * j - off)) / bsize = j := by
        simp only [bsize] at first ⊢
        omega
      rwa [block] at new
  · intro j less
    rw [written.others k here] at less
    exact kept j less

end

theorem view_self : view g s i (s.inode i).inum = (s.inode i).d := Function.update_self ..

theorem view_other {k : Nat} (other : k ≠ (s.inode i).inum) (less : k < g.ninodes) :
    view g s i k = inodeOn s.cur k := by
  rw [view, Function.update_of_ne other, if_pos less]

/-! ### `writei` -/

namespace Mode

/-- The program returns. -/
def strict (g : Geometry) (log : logsize ≤ g.nlog) : Mode g where
  perf := perform
  stop := fun _ => False
  counted := True
  funded := True
  quiet := fun _ _ _ => rfl
  same := fun _ _ _ => rfl
  log := fun _ => log
  tooBig := fun absurd' => absurd' trivial
  whole := fun absurd' => absurd absurd' (not_not_intro trivial)
  lenient := fun absurd' => absurd absurd' (not_not_intro trivial)

/-- The program returns or finds the log too small. -/
def ample (g : Geometry) : Mode g where
  perf := perform
  stop := fun p => p = some "too big a transaction"
  counted := False
  funded := True
  quiet := fun _ _ _ => rfl
  same := fun _ _ _ => rfl
  log := False.elim
  tooBig := fun _ => rfl
  whole := fun absurd' => absurd absurd' (not_not_intro trivial)
  lenient := fun absurd' => absurd absurd' (not_not_intro trivial)

end Mode

/-- The account at the start of a write. -/
def Holding.ghost (g : Geometry) (s : Machine) (i : InodeId) : Ghost :=
  ⟨view g s i, ∅, ∅, s.log.lh.toFinset, true⟩

/-- How many blocks have to be allocated for the file to have `len` bytes. -/
def missing (s : Machine) (i : InodeId) (len : Nat) : Nat :=
  SlotRefs.lacking (slotRef s.cur (s.inode i).d) (slots (blocks len))

theorem Holding.opened (holding : Holding g s i) (few : m.counted → s.log.lh.length ≤ c)
    (need : m.funded → SlotRefs.lacking (slotRef s.cur (s.inode i).d) n ≤
      (freeBlocks g s.cur).card) : Opened m n c (Holding.ghost g s i) s i := by
  constructor
  case toSound =>
    constructor
    case owned => exact holding.owned
    case size => exact holding.size
    case ninodes => exact holding.ninodes
    case disk => exact holding.disk
    case held =>
      intro b
      simp [Holding.ghost, holding.held]
    case busy => exact holding.busy
    case nlog => exact holding.nlog
    case nodup => exact holding.nodup
    case logs =>
      intro b listed
      simpa [Holding.ghost] using listed
    case boot => simpa [Holding.ghost] using holding.boot
  case dev => exact holding.dev
  case ranged => exact holding.ranged
  case copy => exact view_self
  case idle => rfl
  case trans => exact fun _ => rfl
  case room =>
    intro counted
    have less : (s.log.lh.toFinset \ ({g.bm, (s.inode i).d.addr ndirect} : Finset Nat)).card ≤
      s.log.lh.toFinset.card := Finset.card_le_card (Finset.sdiff_subset)
    exact less.trans (Nat.le_trans (toFinset_card_le s.log.lh) (few counted))
  case need => exact need

/-- What a write has done to the files: bytes are spliced into one, and the others stay. -/
structure Spliced (g : Geometry) (i : InodeId) (off : Nat) (src : List UInt8) (s t : Machine) :
    Prop where
  holding : Holding g t i
  patched : Patched i s t
  same : (t.inode i).d = { (s.inode i).d with
    size := (t.inode i).d.size, addrs := (t.inode i).d.addrs }
  size : (t.inode i).d.size.toNat = max (s.inode i).d.size.toNat (off + src.length)
  bytes : contents t.cur (t.inode i).d = splice (contents s.cur (s.inode i).d) off src
  others : ∀ k < g.ninodes, k ≠ (s.inode i).inum →
    inodeOn t.cur k = inodeOn s.cur k ∧
      contents t.cur (inodeOn t.cur k) = contents s.cur (inodeOn s.cur k)

theorem Holding.stored (holding : Holding g s i) (opened : Opened m n c γ t i)
    (stored : Stored g n i off src (Holding.ghost g s i) s γ t)
    (before : off ≤ (s.inode i).d.size.toNat) : Spliced g i off src s t := by
  have written := stored.written
  have inum := stored.patched.inum
  have copy := opened.copy
  rw [inum] at copy
  have disk : ∀ k < g.ninodes, k ≠ (s.inode i).inum → inodeOn t.cur k = inodeOn s.cur k :=
    fun k less other => written.inodes k less other
  have dn : γ.dn = view g t i := by
    funext k
    by_cases here : k = (s.inode i).inum
    · subst here
      rw [copy, ← inum, view_self]
    · rw [written.others k here]
      simp only [Holding.ghost, view, inum, Function.update_of_ne here]
      split
      case isTrue less => rw [disk k less here]
      case isFalse => rfl
  have size : (γ.dn (s.inode i).inum).size.toNat =
      max (view g s i (s.inode i).inum).size.toNat (off + src.length) := by
    rw [copy, view_self]
    exact stored.size
  have before' : off ≤ (view g s i (s.inode i).inum).size.toNat := by rwa [view_self]
  constructor
  case holding =>
    constructor
    case owned =>
      have owned := opened.owned
      rwa [stored.loose, dn] at owned
    case noHoles =>
      rw [← dn]
      exact noHoles_written written holding.noHoles before' size
    case size => exact opened.size
    case ninodes => exact opened.ninodes
    case disk => exact opened.disk
    case held =>
      intro b
      apply opened.toSound.notHeld
      rw [opened.idle]
      exact Finset.notMem_empty b
    case busy =>
      rw [opened.busy, stored.trans]
      rfl
    case nlog => exact opened.nlog
    case nodup => exact opened.nodup
    case boot => exact fun listed => opened.boot (opened.logs 0 listed)
    case dev => exact opened.dev
    case ranged => exact opened.ranged
  case patched => exact stored.patched
  case same =>
    have same := written.same
    rw [copy] at same
    rw [same]
    simp only [Holding.ghost, view_self]
  case size => exact stored.size
  case bytes =>
    have bytes := contents_splice written (holding.noHoles _) before' size
    rw [copy] at bytes
    rw [bytes]
    simp only [Holding.ghost, view_self]
  case others =>
    intro k less other
    have bytes := contents_other written other (holding.noHoles k)
    rw [written.others k other] at bytes
    simp only [Holding.ghost, view_other other less] at bytes
    rw [disk k less other]
    exact ⟨rfl, bytes⟩

theorem Holding.writei (holding : Holding g s i) (notDev : (s.inode i).d.type ≠ tDev)
    (small : src.length < 2 ^ 32) (few : m.counted → s.log.lh.length + rounds off src.length ≤ 5)
    (need : m.funded → Fits (s.inode i).d off src.length →
      missing s i (off + src.length) ≤ (freeBlocks g s.cur).card) :
    Runs m.perf m.stop (fun r t =>
        Fits (s.inode i).d off src.length ∧ r = some src.length ∧ Spliced g i off src s t ∨
        ¬ Fits (s.inode i).d off src.length ∧ r = none ∧ t = s)
      (writei i src off) s := by
  by_cases fits : Fits (s.inode i).d off src.length
  · have opened := holding.opened (m := m) (fun _ => Nat.le_refl _)
      (fun funded => need funded fits)
    apply (opened.writei notDev fits few (Nat.le_refl _)).mono
    rintro _ t ⟨rfl, γ', opened', stored⟩
    exact .inl ⟨fits, rfl, holding.stored opened' stored fits.1⟩
  · apply (writei_misfit m notDev small fits).mono
    rintro _ _ ⟨rfl, rfl⟩
    exact .inr ⟨fits, rfl, rfl⟩

/-! ### `readi` -/

theorem Holding.readable (holding : Holding g s i) : Readable perform s (s.inode i).d := by
  refine ⟨fun k => canRead ?_ (holding.held _), fun _ => rfl⟩
  have size := g.bm_lt_size
  have within := g.within
  have disk := holding.disk
  have slot : refs s.cur (view g s i) ((s.inode i).inum, k) = slotRef s.cur (s.inode i).d k := by
    rw [refs, view_self]
  rw [← slot]
  by_cases zero : refs s.cur (view g s i) ((s.inode i).inum, k) = 0
  · omega
  · have range := holding.owned.region _ zero
    omega

theorem contents_drop_take {m : Nat} (inside : off + m ≤ d.size.toNat) :
    ((contents cur d).drop off).take m = fileBytes cur d off m := by
  apply ext_getElem?
  intro o
  rw [getElem?_take]
  split
  case isTrue less =>
    rw [getElem?_drop, getElem?_contents (by omega)]
    simp [fileBytes, getElem?_range less]
  case isFalse beyond =>
    rw [getElem?_eq_none]
    rw [length_fileBytes]
    omega

/-- `readi` returns the part of the contents that was asked for and is there. -/
theorem Holding.readi {stop : Option String → Prop} (holding : Holding g s i)
    (notDev : (s.inode i).d.type ≠ tDev) (small : n < 2 ^ 32) : Reads perform stop (readi i off n) s
      (if (s.inode i).d.size.toNat < off ∨ 2 ^ 32 ≤ off + n then none
        else some (((contents s.cur (s.inode i).d).drop off).take
          (min n ((s.inode i).d.size.toNat - off)))) := by
  refine Runs.known (Op.look i) rfl ?_
  have bound := (s.inode i).d.size.isLt
  have test : (off > (s.inode i).d.size.toNat ∨ (off + n) % 2 ^ 32 < off) ↔
      ((s.inode i).d.size.toNat < off ∨ 2 ^ 32 ≤ off + n) := by omega
  simp only [if_neg notDev, test]
  split
  case isTrue => exact ⟨rfl, rfl⟩
  case isFalse inside =>
    have count : (if off + n > (s.inode i).d.size.toNat then (s.inode i).d.size.toNat - off
        else n) = min n ((s.inode i).d.size.toNat - off) := by
      split <;> omega
    rw [count]
    generalize amount : min n ((s.inode i).d.size.toNat - off) = k
    have mapped : Mapped s.cur (s.inode i).d off k := by
      intro j less
      have noHoles := holding.noHoles (s.inode i).inum
      rw [view_self] at noHoles
      exact noHoles.mapped (by omega)
    apply (holding.readable.readLoop holding.dev (Nat.le_refl k) mapped).bind
    rw [contents_drop_take (by omega)]
    exact ⟨rfl, rfl⟩

/-- The first entry of the inode cache. -/
def first : InodeId := ⟨0, ninode_pos⟩

def emptyFile : Dinode := { Dinode.zero with type := tFile, nlink := 1 }

def smallGeometry : Geometry := ⟨1024, 200, 1014, by decide, by decide, by decide, 10⟩

/-- A disk on which inode 2 is an empty file and all data blocks are free. -/
def smallDisk (x : Nat) : Block :=
  if x = 1 then Buffer.write (fun _ => 0) 0 ([1024, 985, 200, 10].flatMap (leBytes 4))
  else if x = 2 then Dinode.store (fun _ => 0) 2 emptyFile
  else if x = 28 then fun k => if k.val < 3 then 255 else if k.val = 3 then 31 else 0
  else fun _ => 0

/-- A kernel in a transaction that has locked the empty file. -/
def smallMachine : Machine :=
  (blank 1024 smallDisk ⟨1014, 10, true, []⟩ (fun _ => none) (fun _ => 0)).setInode first
    ⟨rootdev, 2, 1, true, true, emptyFile⟩

theorem inodeOn_smallDisk {k : Nat} (less : k < 200) :
    inodeOn smallDisk k = if k = 2 then emptyFile else zero := by
  have sector : iblock k < 27 := by
    simp only [iblock, ipb]
    omega
  have notSuper : iblock k ≠ 1 := by
    simp only [iblock, ipb]
    omega
  rw [inodeOn, smallDisk, if_neg notSuper]
  by_cases here : iblock k = 2
  · rw [if_pos here]
    split
    case isTrue same =>
      subst same
      exact ofBlock_store _ _ _
    case isFalse other =>
      have apart : k % ipb ≠ 2 % ipb := by
        simp only [iblock, ipb] at here ⊢
        omega
      rw [ofBlock_store_of_ne _ _ apart]
      exact ofBlock_zero k
  · have other : k ≠ 2 := by
      rintro rfl
      exact here rfl
    rw [if_neg here, if_neg (by omega), if_neg other]
    exact ofBlock_zero k

theorem view_small (k : Nat) :
    view smallGeometry smallMachine first k = if k = 2 then emptyFile else zero := by
  by_cases here : k = 2
  · subst here
    rfl
  · have shape : view smallGeometry smallMachine first k =
        if k < 200 then inodeOn smallDisk k else zero := Function.update_of_ne here _ _
    rw [shape, if_neg here]
    split
    case isTrue less => rw [inodeOn_smallDisk less, if_neg here]
    case isFalse => rfl

theorem refs_small (y : Nat × Nat) : refs smallDisk (view smallGeometry smallMachine first) y = 0 := by
  have empty : ∀ k, (view smallGeometry smallMachine first y.1).addr k = 0 := by
    intro k
    rw [view_small]
    split <;> exact addr_zero k
  rw [refs, slotRef, empty, empty]
  simp

theorem smallMachine_holding : Holding smallGeometry smallMachine first := by
  constructor
  case owned =>
    constructor
    case distinct => exact fun y _ held => absurd (refs_small y) held
    case region => exact fun y held => absurd (refs_small y) held
    case marked => exact fun y held => absurd (refs_small y) held
    case low => decide +kernel
    case loose => exact fun b listed => absurd listed (Finset.notMem_empty b)
    case exact =>
      have clear : ∀ b < 1014, 29 ≤ b → bit (smallDisk 28) b = false := by decide +kernel
      intro b low high set
      have unset : bit (smallDisk 28) b = true := set
      rw [clear b high low] at unset
      cases unset
  case noHoles =>
    intro k j less
    have size : (view smallGeometry smallMachine first k).size = 0 := by
      rw [view_small]
      split <;> rfl
    rw [size] at less
    exact absurd less (Nat.not_lt_zero j)
  case size => decide +kernel
  case ninodes => decide +kernel
  case disk => decide
  case held => exact fun _ => rfl
  case busy => rfl
  case nlog => rfl
  case nodup => exact nodup_nil
  case boot => exact not_mem_nil
  case dev => rfl
  case ranged => decide

end FileSystem
