import PinkyOS.DiskFormat
import PinkyOS.SlotRefs

/-!
# Where the bytes of a file lie

An inode refers to its blocks through numbered slots: the addresses of the inode itself, of which
the last is that of the indirect block, and the entries of the indirect block. Both the kernel and
`mkfs` find a byte of a file through the same slots.
-/
namespace FileMap
open ByteBuffer DiskLog DiskFormat Function

/-- The number in slot `j` of an inode. -/
def slotRef (disk : Nat → Block) (d : Dinode) (j : Nat) : Nat :=
  if j ≤ ndirect then d.addr j
  else if j ≤ ndirect + nindirect ∧ d.addr ndirect ≠ 0 then
    word (disk (d.addr ndirect)) (j - (ndirect + 1))
  else 0

/-- The slot of block `k` of a file. -/
def slotOf (k : Nat) : Nat := if k < ndirect then k else k + 1

/-- Where block `k` of a file lies. -/
def blockAt (disk : Nat → Block) (d : Dinode) (k : Nat) : Nat := slotRef disk d (slotOf k)

/-- The byte of a file at offset `off`. -/
def byteAt (disk : Nat → Block) (d : Dinode) (off : Nat) : UInt8 :=
  (disk (blockAt disk d (off / bsize))).get (off % bsize)

/-- How many blocks a file of `len` bytes has. -/
def blocks (len : Nat) : Nat := (len + (bsize - 1)) / bsize

/-- How many slots a file of `n` blocks uses. -/
def slots (n : Nat) : Nat := if ndirect < n then n + 1 else n

/-- The slots of all inodes. -/
def refs (disk : Nat → Block) (dn : Nat → Dinode) (x : Nat × Nat) : Nat :=
  slotRef disk (dn x.1) x.2

/-- The bytes of the file begin with `bytes`. -/
def Holds (disk : Nat → Block) (d : Dinode) (bytes : List UInt8) : Prop :=
  ∀ off, off < bytes.length → bytes[off]? = some (byteAt disk d off)

variable {disk : Nat → Block} {dn : Nat → Dinode} {d : Dinode} {inum j k v w x : Nat} {buf : Block}

theorem slotOf_ne (k : Nat) : slotOf k ≠ ndirect := by
  rw [slotOf]
  split <;> omega

theorem slotOf_lt_slots : slotOf j < slots k ↔ j < k := by
  simp only [slotOf, slots]
  split <;> split <;> omega

theorem slotRef_indirect : slotRef disk d ndirect = d.addr ndirect := by
  simp [slotRef]

theorem slotRef_direct (direct : j ≤ ndirect) : slotRef disk d j = d.addr j := by
  simp [slotRef, direct]

theorem slotRef_word (beyond : ndirect < j) (inside : j ≤ ndirect + nindirect)
    (has : d.addr ndirect ≠ 0) :
    slotRef disk d j = word (disk (d.addr ndirect)) (j - (ndirect + 1)) := by
  rw [slotRef, if_neg (by omega), if_pos ⟨inside, has⟩]

/-! ### One slot changes -/

theorem slotRef_setAddr (direct : k < ndirect) (small : v < 2 ^ 32) :
    slotRef disk (d.setAddr k v) j = if j = k then v else slotRef disk d j := by
  have same : (d.setAddr k v).addr ndirect = d.addr ndirect := by
    rw [Dinode.addr_setAddr d _ (by omega) small, if_neg (by omega)]
  simp only [slotRef, same, Dinode.addr_setAddr d j (Nat.le_of_lt direct) small]
  split_ifs <;> first | rfl | omega

theorem slotRef_setIndirect (none' : d.addr ndirect = 0) (empty : disk v = fun _ => 0)
    (small : v < 2 ^ 32) :
    slotRef disk (d.setAddr ndirect v) j = if j = ndirect then v else slotRef disk d j := by
  simp only [slotRef, Dinode.addr_setAddr d _ (Nat.le_refl _) small, if_true, empty, word_zero,
    none', ne_eq, not_true_eq_false, and_false, if_false, ite_self]
  split_ifs <;> first | rfl | omega

theorem slotRef_setWord (has : d.addr ndirect ≠ 0) (inside : w < nindirect) (small : v < 2 ^ 32) :
    slotRef (update disk (d.addr ndirect) (setWord (disk (d.addr ndirect)) w v)) d j =
      if j = ndirect + 1 + w then v else slotRef disk d j := by
  simp only [slotRef, update_self, word_setWord _ inside small, has, ne_eq,
    not_false_eq_true, and_true]
  split_ifs <;> first | rfl | omega

theorem slotRef_write (other : d.addr ndirect ≠ 0 → d.addr ndirect ≠ x) :
    slotRef (update disk x buf) d j = slotRef disk d j := by
  simp only [slotRef]
  split_ifs with direct has
  · rfl
  · rw [update_of_ne (other has.2)]
  · rfl

/-! ### The slots of all inodes -/

theorem refs_inode {d' : Dinode} (slot : ∀ j, slotRef disk d' j = update (slotRef disk d) k v j) :
    refs disk (update dn inum d') =
      update (refs disk (update dn inum d)) (inum, k) v := by
  funext ⟨inum', j⟩
  by_cases here : inum' = inum
  · subst here
    by_cases at' : j = k
    · subst at'
      simp [refs, slot]
    · simp [refs, slot, at']
  · simp [refs, here]

/-- The indirect block of one inode changes, and nothing else is stored in it. -/
theorem refs_setWord (distinct : SlotRefs.Distinct (refs disk dn)) (has : (dn inum).addr ndirect ≠ 0)
    (inside : w < nindirect) (small : v < 2 ^ 32) : refs (update disk ((dn inum).addr ndirect)
        (setWord (disk ((dn inum).addr ndirect)) w v)) dn =
      update (refs disk dn) (inum, ndirect + 1 + w) v := by
  funext ⟨inum', j⟩
  by_cases here : inum' = inum
  · subst here
    rw [refs, slotRef_setWord has inside small]
    by_cases at' : j = ndirect + 1 + w
    · subst at'
      simp
    · simp [refs, at']
  · rw [update_of_ne (by simp [here])]
    apply slotRef_write
    intro has' same
    have one : refs disk dn (inum', ndirect) = (dn inum').addr ndirect := slotRef_indirect
    have two : refs disk dn (inum, ndirect) = (dn inum).addr ndirect := slotRef_indirect
    have := distinct (inum', ndirect) (inum, ndirect) (by rwa [one]) (by rw [one, two, same])
    exact here (congrArg Prod.fst this)

theorem refs_write (distinct : SlotRefs.Distinct (refs disk dn)) (holds : refs disk dn (inum, j) = x)
    (data : j ≠ ndirect) (nonzero : x ≠ 0) : refs (update disk x buf) dn = refs disk dn := by
  funext ⟨inum', j'⟩
  apply slotRef_write
  intro has same
  have one : refs disk dn (inum', ndirect) = (dn inum').addr ndirect := slotRef_indirect
  have := distinct (inum, j) (inum', ndirect) (by rwa [holds]) (by rw [holds, one, same])
  exact data (congrArg Prod.snd this)

/-! ### Bytes -/

theorem lt_blocks {off len : Nat} (inside : off < len) : off / bsize < blocks len := by
  simp only [blocks, bsize]
  omega

theorem slotOf_inj (same : slotOf j = slotOf k) : j = k := by
  simp only [slotOf] at same
  split_ifs at same <;> omega

/-- The bytes of all files after a block of data has changed. -/
theorem byteAt_write (distinct : SlotRefs.Distinct (refs disk dn))
    (here : refs disk dn (inum, slotOf k) = x) (nonzero : x ≠ 0) {inum' off : Nat}
    (held : refs disk dn (inum', slotOf (off / bsize)) ≠ 0) :
    byteAt (update disk x buf) (dn inum') off =
      if inum' = inum ∧ off / bsize = k then buf.get (off % bsize)
      else byteAt disk (dn inum') off := by
  have same : blockAt (update disk x buf) (dn inum') (off / bsize) =
      blockAt disk (dn inum') (off / bsize) :=
    congrFun (refs_write distinct here (slotOf_ne k) nonzero) (inum', slotOf (off / bsize))
  rw [byteAt, same]
  split
  case isTrue at' =>
    obtain ⟨rfl, rfl⟩ := at'
    have block : blockAt disk (dn inum') (off / bsize) = x := here
    rw [block, update_self]
  case isFalse elsewhere =>
    rw [update_of_ne]
    · rfl
    · intro block
      have := distinct (inum', slotOf (off / bsize)) (inum, slotOf k) held (by rw [here]; exact block)
      obtain ⟨one, two⟩ := Prod.mk.inj this
      exact elsewhere ⟨one, slotOf_inj two⟩

/-- A run of bytes is appended in the last block of a file. -/
theorem Holds.append {disk' : Nat → Block} {d' : Dinode} {bytes chunk : List UInt8}
    (holds : Holds disk d bytes) (last : (bytes.length + chunk.length - 1) / bsize = bytes.length / bsize)
    (old : ∀ off, off < bytes.length → byteAt disk' d' off = byteAt disk d off)
    (new : (disk' (blockAt disk' d' (bytes.length / bsize))).read (bytes.length % bsize)
      chunk.length = chunk) : Holds disk' d' (bytes ++ chunk) := by
  intro off inside
  by_cases before : off < bytes.length
  · rw [List.getElem?_append_left before, old off before]
    exact holds off before
  · rw [List.length_append] at inside
    have index : off - bytes.length < chunk.length := by omega
    have block : off / bsize = bytes.length / bsize := by
      simp only [bsize] at last ⊢
      omega
    have rest : bytes.length % bsize + (off - bytes.length) = off % bsize := by
      simp only [bsize] at block ⊢
      omega
    have entry := congrArg (fun l => l[off - bytes.length]?) new
    simp only [Buffer.read, List.getElem?_map, List.getElem?_range index, Option.map_some, rest]
      at entry
    rw [List.getElem?_append_right (by omega), ← entry, byteAt, block]

end FileMap
