import PinkyOS.DiskLog

/-!
# The on-disk format (`fs.h`)

Superblock, inodes, bitmap, indirect blocks and directory entries as bytes of 512-byte blocks.
-/
namespace DiskFormat
open ByteBuffer DiskLog List

def rootino : Nat := 1
def ndirect : Nat := 12
def nindirect : Nat := 128
def maxfile : Nat := ndirect + nindirect
def ipb : Nat := 8
def bpb : Nat := 4096
def dirsiz : Nat := 14
def sizeofDinode : Nat := 64
def sizeofDirent : Nat := 16

def tDir : BitVec 16 := 1
def tFile : BitVec 16 := 2
def tDev : BitVec 16 := 3

def iblock (inum : Nat) : Nat := inum / ipb + 2
def bblock (b ninodes : Nat) : Nat := b / bpb + ninodes / ipb + 3

structure Superblock where
  size : Nat
  nblocks : Nat
  ninodes : Nat
  nlog : Nat

def Superblock.ofBlock (b : Block) : Superblock :=
  ⟨b.getLE 0 4, b.getLE 4 4, b.getLE 8 4, b.getLE 12 4⟩

/-! ### Inodes -/

@[ext]
structure Dinode where
  type : BitVec 16
  major : BitVec 16
  minor : BitVec 16
  nlink : BitVec 16
  size : BitVec 32
  addrs : Fin (ndirect + 1) → BitVec 32

namespace Dinode

/-- The address of block `k`, or of the indirect block for `k = NDIRECT`. -/
def addr (d : Dinode) (k : Nat) : Nat :=
  if h : k < ndirect + 1 then (d.addrs ⟨k, h⟩).toNat else 0

def setAddr (d : Dinode) (k v : Nat) : Dinode :=
  { d with addrs := fun j => if j.val = k then BitVec.ofNat 32 v else d.addrs j }

def bytes (d : Dinode) : List UInt8 :=
  leBytes 2 d.type.toNat ++ leBytes 2 d.major.toNat ++ leBytes 2 d.minor.toNat ++
    leBytes 2 d.nlink.toNat ++ leBytes 4 d.size.toNat ++
    (List.ofFn d.addrs).flatMap fun v => leBytes 4 v.toNat

/-- Where the inode lies in its block. -/
def at' (inum : Nat) : Nat := sizeofDinode * (inum % ipb)

def ofBlock (b : Block) (inum : Nat) : Dinode where
  type := BitVec.ofNat 16 (b.getLE (at' inum) 2)
  major := BitVec.ofNat 16 (b.getLE (at' inum + 2) 2)
  minor := BitVec.ofNat 16 (b.getLE (at' inum + 4) 2)
  nlink := BitVec.ofNat 16 (b.getLE (at' inum + 6) 2)
  size := BitVec.ofNat 32 (b.getLE (at' inum + 8) 4)
  addrs k := BitVec.ofNat 32 (b.getLE (at' inum + 12 + 4 * k) 4)

/-- The block with the inode stored in it. -/
def store (b : Block) (inum : Nat) (d : Dinode) : Block :=
  b.write (at' inum) d.bytes

def zero : Dinode := ⟨0, 0, 0, 0, 0, fun _ => 0⟩

@[simp] theorem addr_zero (k : Nat) : zero.addr k = 0 := by
  simp [addr, zero]

theorem addr_setAddr (d : Dinode) {k v : Nat} (j : Nat) (inside : k ≤ ndirect)
    (small : v < 2 ^ 32) : (d.setAddr k v).addr j = if j = k then v else d.addr j := by
  by_cases bound : j < ndirect + 1
  · simp only [addr, setAddr, dif_pos bound]
    split
    · rw [BitVec.toNat_ofNat, Nat.mod_eq_of_lt small]
    · rfl
  · have other : j ≠ k := by omega
    simp only [addr, dif_neg bound, if_neg other]

@[simp] theorem size_setAddr (d : Dinode) (k v : Nat) : (d.setAddr k v).size = d.size := rfl

theorem at'_le (inum : Nat) : at' inum + sizeofDinode ≤ bsize := by
  have small : inum % 8 < 8 := Nat.mod_lt _ (by decide)
  simp only [at', sizeofDinode, ipb, bsize]
  omega

@[simp] theorem length_bytes (d : Dinode) : d.bytes.length = sizeofDinode := by
  simp only [bytes, length_append, length_leBytes, length_flatMap_leBytes, length_ofFn]
  rfl

theorem getLE_store (b : Block) (inum : Nat) {d : Dinode} {width v : Nat} (xs ys : List UInt8)
    (shape : d.bytes = xs ++ (leBytes width v ++ ys)) (small : v < 256 ^ width) :
    (store b inum d).getLE (at' inum + xs.length) width = v := by
  have length := congrArg length shape
  simp only [length_bytes, length_append, length_leBytes] at length
  have fits := at'_le inum
  rw [store, shape]
  exact Buffer.getLE_write b (by omega) small

theorem ofFn_flatMap {n : Nat} (g : Fin n → BitVec 32) (k : Fin n) :
    (ofFn g).flatMap (fun v => leBytes 4 v.toNat) =
      ((ofFn g).take k).flatMap (fun v => leBytes 4 v.toNat) ++
        (leBytes 4 (g k).toNat ++
          ((ofFn g).drop (k + 1)).flatMap fun v => leBytes 4 v.toNat) := by
  have bound : k.val < (ofFn g).length := by simp
  have entry : (ofFn g)[k.val] = g k := by simp
  conv_lhs => rw [← take_append_drop k.val (ofFn g), drop_eq_getElem_cons bound]
  rw [flatMap_append, flatMap_cons, entry]

theorem ofBlock_store (b : Block) (inum : Nat) (d : Dinode) :
    ofBlock (store b inum d) inum = d := by
  apply Dinode.ext
  case type =>
    have field := getLE_store b inum (d := d) [] _ (by simp [bytes]; rfl) d.type.isLt
    simp only [length_nil, Nat.add_zero] at field
    simp [ofBlock, field]
  case major =>
    have field := getLE_store b inum (d := d) (leBytes 2 d.type.toNat) _ (by simp [bytes]; rfl)
      d.major.isLt
    simp only [length_leBytes] at field
    simp [ofBlock, field]
  case minor =>
    have field := getLE_store b inum (d := d) (leBytes 2 d.type.toNat ++ leBytes 2 d.major.toNat) _
      (by simp [bytes]; rfl) d.minor.isLt
    simp only [length_append, length_leBytes] at field
    simp [ofBlock, field]
  case nlink =>
    have field := getLE_store b inum (d := d) (leBytes 2 d.type.toNat ++ leBytes 2 d.major.toNat ++
      leBytes 2 d.minor.toNat) _ (by simp [bytes]; rfl) d.nlink.isLt
    simp only [length_append, length_leBytes] at field
    simp [ofBlock, field]
  case size =>
    have field := getLE_store b inum (d := d) (leBytes 2 d.type.toNat ++ leBytes 2 d.major.toNat ++
      leBytes 2 d.minor.toNat ++ leBytes 2 d.nlink.toNat) _ (by simp [bytes]; rfl) d.size.isLt
    simp only [length_append, length_leBytes] at field
    simp [ofBlock, field]
  case addrs =>
    funext k
    have field := getLE_store b inum (d := d) (leBytes 2 d.type.toNat ++ leBytes 2 d.major.toNat ++
      leBytes 2 d.minor.toNat ++ leBytes 2 d.nlink.toNat ++ leBytes 4 d.size.toNat ++
        ((ofFn d.addrs).take k).flatMap fun v => leBytes 4 v.toNat) _
      (by simp only [bytes, ofFn_flatMap d.addrs k, append_assoc]; rfl) (d.addrs k).isLt
    have taken : min k.val (ndirect + 1) = k := Nat.min_eq_left (Nat.le_of_lt k.isLt)
    simp only [length_append, length_leBytes, length_flatMap_leBytes, length_take,
      length_ofFn, taken] at field
    simp [ofBlock, Nat.add_assoc, field]

theorem ofBlock_zero (inum : Nat) : ofBlock (fun _ => 0) inum = zero := by
  simp [ofBlock, Buffer.getLE_zero, zero]

theorem ofBlock_store_of_ne (b : Block) {inum inum' : Nat} (d : Dinode)
    (other : inum' % ipb ≠ inum % ipb) : ofBlock (store b inum d) inum' = ofBlock b inum' := by
  have apart : at' inum' + sizeofDinode ≤ at' inum ∨ at' inum + sizeofDinode ≤ at' inum' := by
    simp only [at', sizeofDinode]
    omega
  have kept : ∀ off width, off + width ≤ sizeofDinode →
      (store b inum d).getLE (at' inum' + off) width = b.getLE (at' inum' + off) width := by
    intro off width inside
    apply Buffer.getLE_write_of_disjoint
    rw [length_bytes]
    omega
  have first := kept 0 2 (by decide)
  rw [Nat.add_zero] at first
  apply Dinode.ext
  case type => rw [ofBlock, first, ofBlock]
  case major => rw [ofBlock, kept 2 2 (by decide), ofBlock]
  case minor => rw [ofBlock, kept 4 2 (by decide), ofBlock]
  case nlink => rw [ofBlock, kept 6 2 (by decide), ofBlock]
  case size => rw [ofBlock, kept 8 4 (by decide), ofBlock]
  case addrs =>
    funext k
    have inside : 12 + 4 * k.val + 4 ≤ sizeofDinode := by
      have bound := k.isLt
      simp only [ndirect, sizeofDinode] at bound ⊢
      omega
    have field := kept (12 + 4 * k) 4 inside
    simp only [← Nat.add_assoc] at field
    simp only [ofBlock, field]

end Dinode

/-! ### Bitmap -/

/-- Bit `k` of a bitmap block. -/
def bit (b : Block) (k : Nat) : Bool :=
  (b.get (k / 8)).toBitVec.getLsbD (k % 8)

def setBit (b : Block) (k : Nat) : Block :=
  b.write (k / 8) [⟨(b.get (k / 8)).toBitVec ||| (1#8 <<< (k % 8))⟩]

def clearBit (b : Block) (k : Nat) : Block :=
  b.write (k / 8) [⟨(b.get (k / 8)).toBitVec &&& ~~~(1#8 <<< (k % 8))⟩]

theorem toBitVec_get_write (b : Block) {k : Nat} (v : BitVec 8) (inside : k < bsize) (j : Nat) :
    ((b.write k [⟨v⟩]).get j).toBitVec = if j = k then v else (b.get j).toBitVec := by
  by_cases same : j = k
  · subst same
    rw [Buffer.get_write _ _ _ inside]
    simp
  · rw [if_neg same]
    by_cases before : j < k
    · rw [Buffer.get_write_of_lt _ _ before]
    · rw [Buffer.get_write_of_ge _ (by simp; omega)]

theorem getLsbD_one_shift {m n : Nat} (inside : n < 8) :
    (1#8 <<< m).getLsbD n = decide (n = m) := by
  rw [BitVec.getLsbD_shiftLeft, BitVec.getLsbD_one]
  by_cases same : n = m
  · subst same
    simp [inside]
  · have apart : n - m ≠ 0 ∨ n < m := by omega
    rcases apart with apart | apart <;> simp [same, apart]

theorem bit_setBit (b : Block) {k : Nat} (inside : k < bpb) (j : Nat) :
    bit (setBit b k) j = (decide (j = k) || bit b j) := by
  simp only [bpb] at inside
  rw [bit, setBit, toBitVec_get_write _ _ (by rw [bsize]; omega), bit]
  by_cases byte : j / 8 = k / 8
  · have same : j % 8 = k % 8 ↔ j = k := by omega
    rw [if_pos byte, byte, BitVec.getLsbD_or, getLsbD_one_shift (Nat.mod_lt _ (by decide)),
      Bool.or_comm]
    simp only [same]
  · have other : j ≠ k := by
      rintro rfl
      exact byte rfl
    simp [byte, other]

/-! ### Indirect blocks and directories -/

/-- Entry `k` of an indirect block. -/
def word (b : Block) (k : Nat) : Nat := b.getLE (4 * k) 4

def setWord (b : Block) (k v : Nat) : Block := b.setLE (4 * k) 4 v

theorem word_setWord (b : Block) {k v : Nat} (inside : k < nindirect) (small : v < 2 ^ 32)
    (j : Nat) : word (setWord b k v) j = if j = k then v else word b j := by
  by_cases same : j = k
  · subst same
    rw [if_pos rfl]
    simp only [nindirect] at inside
    exact Buffer.getLE_setLE b (by rw [bsize]; omega) small
  · rw [if_neg same]
    exact Buffer.getLE_setLE_of_disjoint b (by omega)

theorem word_zero (k : Nat) : word (fun _ => 0) k = 0 := Buffer.getLE_zero _ _

structure Dirent where
  inum : Nat
  name : List UInt8
  deriving DecidableEq

/-- A string up to its NUL, or its first `DIRSIZ` bytes. -/
def cut (s : List UInt8) : List UInt8 := (s.take dirsiz).takeWhile (· ≠ 0)

def Dirent.ofBytes (bs : List UInt8) : Dirent := ⟨ofLE (bs.take 2), cut (bs.drop 2)⟩

/-- `strncmp`; behind the end of a list there is a NUL. -/
def strncmp (p q : List UInt8) : Nat → Int
  | 0 => 0
  | n + 1 =>
    if p.headD 0 ≠ 0 ∧ p.headD 0 = q.headD 0 then strncmp p.tail q.tail n
    else (p.headD 0).toNat - (q.headD 0).toNat

/-- `strncpy` of a string into the `n` bytes of an array. -/
def strncpy (s : List UInt8) (n : Nat) : List UInt8 :=
  let t := (s.take n).takeWhile (· ≠ 0)
  t ++ List.replicate (n - t.length) 0

def Dirent.bytes (de : Dirent) : List UInt8 := leBytes 2 de.inum ++ strncpy de.name dirsiz

theorem takeWhile_take_succ (l : List UInt8) (n : Nat) :
    (l.take (n + 1)).takeWhile (· ≠ 0) =
      if l.headD 0 = 0 then [] else l.headD 0 :: (l.tail.take n).takeWhile (· ≠ 0) := by
  cases l with
  | nil => rfl
  | cons c l =>
    by_cases zero : c = 0
    · simp [zero]
    · simp [zero]

/-- `strncmp` finds no difference in two strings that agree up to a NUL or up to `n` bytes. -/
theorem strncmp_eq_zero {p q : List UInt8} {n : Nat} :
    strncmp p q n = 0 ↔ (p.take n).takeWhile (· ≠ 0) = (q.take n).takeWhile (· ≠ 0) := by
  induction n generalizing p q with
  | zero => simp [strncmp]
  | succ n ih =>
    rw [strncmp, takeWhile_take_succ, takeWhile_take_succ]
    split
    case isTrue same =>
      rw [if_neg same.1, if_neg (same.2 ▸ same.1), same.2, cons_inj_right]
      exact ih
    case isFalse differ =>
      rw [Int.sub_eq_zero, Int.ofNat_inj, UInt8.toNat_inj]
      by_cases zero : p.headD 0 = 0
      · rw [if_pos zero, zero, eq_comm]
        by_cases zero' : q.headD 0 = 0
        · rw [if_pos zero', zero']
          exact iff_of_true rfl rfl
        · rw [if_neg zero']
          exact iff_of_false zero' nofun
      · rw [if_neg zero]
        have other : p.headD 0 ≠ q.headD 0 := fun same => differ ⟨zero, same⟩
        by_cases zero' : q.headD 0 = 0
        · rw [if_pos zero']
          exact iff_of_false other nofun
        · rw [if_neg zero']
          exact iff_of_false other fun same => other (cons.inj same).1

theorem takeWhile_ne_zero {s : List UInt8} (noNul : 0 ∉ s) : s.takeWhile (· ≠ 0) = s := by
  rw [takeWhile_eq_self_iff]
  intro c listed
  exact decide_eq_true fun zero => noNul (zero ▸ listed)

theorem length_strncpy (s : List UInt8) (n : Nat) : (strncpy s n).length = n := by
  have short : ((s.take n).takeWhile (· ≠ 0)).length ≤ n :=
    Nat.le_trans (takeWhile_sublist _).length_le (length_take_le _ _)
  simp only [strncpy, length_append, length_replicate]
  omega

@[simp] theorem Dirent.length_bytes (de : Dirent) : de.bytes.length = sizeofDirent := by
  simp [Dirent.bytes, length_strncpy, dirsiz, sizeofDirent]

theorem notMem_cut (s : List UInt8) : 0 ∉ cut s := by
  intro listed
  have nonzero := mem_takeWhile_imp listed
  exact of_decide_eq_true nonzero rfl

theorem cut_of_noNul {s : List UInt8} (noNul : 0 ∉ s) : cut s = s.take dirsiz :=
  takeWhile_ne_zero fun listed => noNul (mem_of_mem_take listed)

theorem cut_cut (s : List UInt8) : cut (cut s) = cut s := by
  have short : (cut s).length ≤ dirsiz :=
    Nat.le_trans (takeWhile_sublist _).length_le (length_take_le _ _)
  rw [cut_of_noNul (notMem_cut s), take_of_length_le short]

theorem cut_strncpy (s : List UInt8) : cut (strncpy s dirsiz) = cut s := by
  have copied : strncpy s dirsiz = cut s ++ replicate (dirsiz - (cut s).length) 0 := rfl
  have length := length_strncpy s dirsiz
  rw [cut, take_of_length_le (Nat.le_of_eq length), copied, takeWhile_append_of_pos]
  · cases dirsiz - (cut s).length with
    | zero => simp
    | succ n => simp [replicate_succ]
  · intro c listed
    exact decide_eq_true fun zero => notMem_cut s (zero ▸ listed)

/-- An entry is read back with its name cut to `DIRSIZ` bytes. -/
theorem Dirent.ofBytes_bytes {inum : Nat} (small : inum < 2 ^ 16) (name : List UInt8) :
    ofBytes (bytes ⟨inum, name⟩) = ⟨inum, cut name⟩ := by
  simp only [ofBytes, bytes]
  rw [take_left' (length_leBytes 2 inum), drop_left' (length_leBytes 2 inum),
    ofLE_leBytes small, cut_strncpy]

end DiskFormat
