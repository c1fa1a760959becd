import PinkyOS.BlockOwnership

/-!
# How files grow

What a step of the kernel does to the files of a disk, in terms of slots and bytes: `Filled` is one
empty slot getting a fresh block, `Written` is a run of bytes being stored in one file.
-/
namespace FileMap
open ByteBuffer DiskLog DiskFormat Function

variable {g : Geometry} {L : Finset Nat} {cur cur' cur'' : Nat → Block}
  {dn dn' dn'' : Nat → Dinode} {b x inum off j n : Nat} {buf : Block} {src src' : List UInt8}

/-- From `cur` and `dn` to `cur'` and `dn'`, the bytes `src` are stored at offset `off` of file
`inum`. It may have got another size, and more blocks for its first `n` slots; nothing else has
changed. -/
structure Written (g : Geometry) (n inum off : Nat) (src : List UInt8) (cur : Nat → Block)
    (dn : Nat → Dinode) (cur' : Nat → Block) (dn' : Nat → Dinode) : Prop where
  others : ∀ k, k ≠ inum → dn' k = dn k
  same : dn' inum = { dn inum with size := (dn' inum).size, addrs := (dn' inum).addrs }
  kept : ∀ y, refs cur dn y ≠ 0 → refs cur' dn' y = refs cur dn y
  frame : ∀ y, (y.1 = inum → n ≤ y.2) → refs cur' dn' y = refs cur dn y
  inodes : ∀ k < g.ninodes, k ≠ inum →
    Dinode.ofBlock (cur' (iblock k)) k = Dinode.ofBlock (cur (iblock k)) k
  bytes : ∀ k o, refs cur dn (k, slotOf (o / bsize)) ≠ 0 →
    ¬ (k = inum ∧ off ≤ o ∧ o < off + src.length) → byteAt cur' (dn' k) o = byteAt cur (dn k) o
  new : ∀ n < src.length, refs cur' dn' (inum, slotOf ((off + n) / bsize)) ≠ 0 ∧
    src[n]? = some (byteAt cur' (dn' inum) (off + n))

namespace Written

theorem refl : Written g n inum off [] cur dn cur dn :=
  ⟨fun _ _ => rfl, rfl, fun _ _ => rfl, fun _ _ => rfl, fun _ _ _ => rfl, fun _ _ _ _ => rfl,
    fun _ less => absurd less (Nat.not_lt_zero _)⟩

theorem trans (first : Written g n inum off src cur dn cur' dn')
    (second : Written g n inum (off + src.length) src' cur' dn' cur'' dn'') :
    Written g n inum off (src ++ src') cur dn cur'' dn'' := by
  constructor
  case others =>
    intro k other
    rw [second.others k other, first.others k other]
  case same => rw [second.same, first.same]
  case kept =>
    intro y held
    have one := first.kept y held
    rw [second.kept y (by rwa [one]), one]
  case frame =>
    intro y other
    rw [second.frame y other, first.frame y other]
  case inodes =>
    intro k less other
    rw [second.inodes k less other, first.inodes k less other]
  case bytes =>
    intro k o held outside
    rw [List.length_append] at outside
    have one := first.bytes k o held (by omega)
    have held' : refs cur' dn' (k, slotOf (o / bsize)) ≠ 0 := by rwa [first.kept _ held]
    rw [second.bytes k o held' (by omega), one]
  case new =>
    intro l less
    rw [List.length_append] at less
    by_cases early : l < src.length
    · obtain ⟨held, byte⟩ := first.new l early
      have kept := second.kept _ held
      refine ⟨by rwa [kept], ?_⟩
      rw [List.getElem?_append_left early, byte, second.bytes inum (off + l) held (by omega)]
    · obtain ⟨held, byte⟩ := second.new (l - src.length) (by omega)
      have place : off + src.length + (l - src.length) = off + l := by omega
      rw [place] at held byte
      refine ⟨held, ?_⟩
      rw [List.getElem?_append_right (by omega), byte]

/-- The slots and the blocks of data that were there are as they were. -/
theorem grow (others : ∀ k, k ≠ inum → dn' k = dn k)
    (same : dn' inum = { dn inum with size := (dn' inum).size, addrs := (dn' inum).addrs })
    (kept : ∀ y, refs cur dn y ≠ 0 → refs cur' dn' y = refs cur dn y)
    (frame : ∀ y, (y.1 = inum → n ≤ y.2) → refs cur' dn' y = refs cur dn y)
    (inodes : ∀ k < g.ninodes, k ≠ inum →
      Dinode.ofBlock (cur' (iblock k)) k = Dinode.ofBlock (cur (iblock k)) k)
    (data : ∀ y, y.2 ≠ ndirect → refs cur dn y ≠ 0 → cur' (refs cur dn y) = cur (refs cur dn y)) :
    Written g n inum off [] cur dn cur' dn' := by
  refine ⟨others, same, kept, frame, inodes, ?_, fun _ less => absurd less (Nat.not_lt_zero _)⟩
  intro k o held _
  have block : blockAt cur' (dn' k) (o / bsize) = blockAt cur (dn k) (o / bsize) := kept _ held
  rw [byteAt, byteAt, block]
  exact congrArg (·.get (o % bsize)) (data (k, slotOf (o / bsize)) (slotOf_ne _) held)

theorem block (owned : Owned g L cur dn) (here : refs cur dn (inum, slotOf (off / bsize)) = x)
    (nonzero : x ≠ 0) (fits : off % bsize + src.length ≤ bsize) : Written g n inum off src cur dn
      (update cur x ((cur x).write (off % bsize) src)) dn := by
  have slots : refs (update cur x ((cur x).write (off % bsize) src)) dn = refs cur dn :=
    refs_write owned.distinct here (slotOf_ne (off / bsize)) nonzero
  have range := owned.region _ (by rw [here]; exact nonzero)
  rw [here] at range
  have lo := g.bm_lt_lo
  have byte : ∀ k o, refs cur dn (k, slotOf (o / bsize)) ≠ 0 →
      byteAt (update cur x ((cur x).write (off % bsize) src)) (dn k) o =
        if k = inum ∧ o / bsize = off / bsize then
          ((cur x).write (off % bsize) src).get (o % bsize)
        else byteAt cur (dn k) o :=
    fun _ _ => byteAt_write owned.distinct here nonzero
  constructor
  case others => exact fun _ _ => rfl
  case same => rfl
  case kept => exact fun y _ => congrFun slots y
  case frame => exact fun y _ => congrFun slots y
  case inodes =>
    intro k less _
    have sector := g.iblock_lt less
    rw [update_of_ne (by omega)]
  case bytes =>
    intro k o held outside
    rw [byte k o held]
    split
    case isTrue at' =>
      obtain ⟨rfl, block⟩ := at'
      have old : byteAt cur (dn k) o = (cur x).get (o % bsize) := by
        rw [byteAt, blockAt, block]
        exact congrArg (fun c => (cur c).get (o % bsize)) here
      rw [old]
      simp only [bsize] at block fits ⊢
      by_cases before : o < off
      · exact Buffer.get_write_of_lt _ _ (by omega)
      · exact Buffer.get_write_of_ge _ (by omega)
    case isFalse => rfl
  case new =>
    intro l less
    have block : (off + l) / bsize = off / bsize := by
      simp only [bsize] at fits ⊢
      omega
    have held : refs cur dn (inum, slotOf ((off + l) / bsize)) ≠ 0 := by
      rw [block, here]
      exact nonzero
    refine ⟨by rwa [congrFun slots], ?_⟩
    have place : (off + l) % bsize = off % bsize + l := by
      simp only [bsize] at fits ⊢
      omega
    have index : off % bsize + l - off % bsize = l := by omega
    rw [byte inum (off + l) held, if_pos ⟨rfl, block⟩, place,
      Buffer.get_write _ _ _ (by omega), if_pos (by omega), index, List.getElem?_eq_getElem less]
    rfl

theorem inode (owned : Owned g L cur dn) (ranged : inum < g.ninodes) (v : BitVec 32) :
    Written g n inum off [] cur dn
      (update cur (iblock inum)
        (Dinode.store (cur (iblock inum)) inum { dn inum with size := v }))
      (update dn inum { dn inum with size := v }) := by
  have sector := g.iblock_lt ranged
  have lo := g.bm_lt_lo
  have slots : ∀ y, refs (update cur (iblock inum)
      (Dinode.store (cur (iblock inum)) inum { dn inum with size := v }))
      (update dn inum { dn inum with size := v }) y = refs cur dn y := by
    intro y
    rw [← owned.refs_write_low (x := iblock inum)
      (Dinode.store (cur (iblock inum)) inum { dn inum with size := v }) (by omega)]
    by_cases here : y.1 = inum
    · rw [refs, refs, here, update_self]
      rfl
    · rw [refs, refs, update_of_ne here]
  apply grow
  case others => exact fun k other => update_of_ne other _ _
  case same => rw [update_self]
  case kept => exact fun y _ => slots y
  case frame => exact fun y _ => slots y
  case inodes =>
    intro k less other
    by_cases here : iblock k = iblock inum
    · have apart : k % ipb ≠ inum % ipb := by
        simp only [iblock, ipb] at here ⊢
        omega
      rw [here, update_self, Dinode.ofBlock_store_of_ne _ _ apart]
    · rw [update_of_ne here]
  case data =>
    intro y _ held
    have range := owned.region y held
    exact update_of_ne (by omega) _ _

end Written

/-- Slot `j` of inode `inum`, which was empty, gets the free block `b`. -/
structure Filled (g : Geometry) (inum j b : Nat) (cur : Nat → Block) (dn : Nat → Dinode)
    (cur' : Nat → Block) (dn' : Nat → Dinode) : Prop where
  slot : refs cur' dn' = Function.update (refs cur dn) (inum, j) b
  empty : refs cur dn (inum, j) = 0
  free : b ∈ freeBlocks g cur
  bitmap : cur' g.bm = setBit (cur g.bm) b
  others : ∀ k, k ≠ inum → dn' k = dn k
  same : dn' inum = { dn inum with addrs := (dn' inum).addrs }
  data : ∀ x, x ≠ g.bm → x ≠ b → (x = (dn' inum).addr ndirect → x = 0) → cur' x = cur x

namespace Filled
variable (filled : Filled g inum j b cur dn cur' dn')
include filled

theorem ne_zero : b ≠ 0 := by
  have low := (mem_freeBlocks.mp filled.free).1.1
  have lo := g.bm_lt_lo
  omega

theorem here : refs cur' dn' (inum, j) = b := by
  rw [filled.slot, update_self]

section
variable (owned : Owned g L cur dn)
include owned

theorem indirect (inum' : Nat) :
    refs cur' dn' (inum', ndirect) = 0 ∨ g.lo ≤ refs cur' dn' (inum', ndirect) := by
  rw [filled.slot]
  by_cases here : (inum', ndirect) = (inum, j)
  · rw [here, update_self]
    exact .inr (mem_freeBlocks.mp filled.free).1.1
  · rw [update_of_ne here]
    by_cases zero : refs cur dn (inum', ndirect) = 0
    · exact .inl zero
    · exact .inr (owned.region _ zero).1

theorem unheld (y : Nat × Nat) : refs cur dn y ≠ b := by
  intro same
  have set := owned.marked y (by rw [same]; exact filled.ne_zero)
  rw [same, (mem_freeBlocks.mp filled.free).2] at set
  cases set

theorem low {c : Nat} (less : c < g.lo) (other : c ≠ g.bm) : cur' c = cur c := by
  have range := (mem_freeBlocks.mp filled.free).1
  have lo := g.bm_lt_lo
  have ind : refs cur' dn' (inum, ndirect) = (dn' inum).addr ndirect := slotRef_indirect
  apply filled.data c other (by omega)
  intro same
  rcases filled.indirect owned inum with zero | high
  · rw [same, ← ind, zero]
  · omega

theorem inode {k : Nat} (less : k < g.ninodes) : cur' (iblock k) = cur (iblock k) := by
  have sector := g.iblock_lt less
  have lo := g.bm_lt_lo
  exact filled.low owned (by omega) (by omega)

theorem written (bound : j < n) : Written g n inum off [] cur dn cur' dn' := by
  have lo := g.bm_lt_lo
  have ind : refs cur' dn' (inum, ndirect) = (dn' inum).addr ndirect := slotRef_indirect
  apply Written.grow filled.others (by rw [filled.same])
  case kept =>
    intro y held
    have other : y ≠ (inum, j) := by
      rintro rfl
      exact held filled.empty
    rw [filled.slot, update_of_ne other]
  case frame =>
    intro y other
    rw [filled.slot, update_of_ne]
    rintro rfl
    have := other rfl
    omega
  case inodes =>
    intro k less _
    rw [filled.inode owned less]
  case data =>
    intro y isData held
    have range := owned.region y held
    apply filled.data _ (by omega) (filled.unheld owned y)
    intro same
    rw [← ind, filled.slot] at same
    by_cases at' : (inum, ndirect) = (inum, j)
    · rw [at', update_self] at same
      exact absurd same (filled.unheld owned y)
    · rw [update_of_ne at'] at same
      have := owned.distinct y (inum, ndirect) held same
      exact absurd (congrArg Prod.snd this) isData

end

theorem inside : b < bpb := by
  have range := (mem_freeBlocks.mp filled.free).1
  have within := g.within
  have one := g.one
  omega

theorem owned (owned : Owned g L cur dn) : Owned g L cur' dn' := by
  obtain ⟨⟨low, high⟩, clear⟩ := mem_freeBlocks.mp filled.free
  have marked := owned.mark low high clear
  have slots := owned.refs_write_low (setBit (cur g.bm) b) g.bm_lt_lo
  have fresh : b ∉ L := by
    intro isLoose
    have set := (owned.loose b isLoose).2.2.1
    rw [clear] at set
    cases set
  have linked := marked.link (Finset.mem_insert_self b L) (y := (inum, j))
    (by rw [slots]; exact filled.empty)
    (filled.bitmap.trans (update_self g.bm _ cur).symm)
    (by rw [slots]; exact filled.slot)
  rwa [Finset.erase_insert fresh] at linked

theorem free_card : (freeBlocks g cur').card + 1 = (freeBlocks g cur).card := by
  rw [freeBlocks_mark filled.inside filled.bitmap, Finset.card_erase_add_one filled.free]

theorem lacking {n : Nat} (less : j < n) :
    SlotRefs.lacking (slotRef cur' (dn' inum)) n + 1 = SlotRefs.lacking (slotRef cur (dn inum)) n := by
  have slots : slotRef cur' (dn' inum) = update (slotRef cur (dn inum)) j b := by
    funext k
    have entry := congrFun filled.slot (inum, k)
    by_cases at' : k = j
    · subst at'
      rwa [update_self] at entry ⊢
    · rwa [update_of_ne (by simp [at'])] at entry ⊢
  rw [slots]
  exact SlotRefs.lacking_update less filled.empty filled.ne_zero

end Filled

/-- The disk after block `b` has been marked and zeroed. -/
def allocate (g : Geometry) (cur : Nat → Block) (b : Nat) : Nat → Block :=
  Function.update (Function.update cur g.bm (setBit (cur g.bm) b)) b fun _ => 0

section
variable (owned : Owned g L cur dn) (free : b ∈ freeBlocks g cur)
include free

theorem allocate_bm : allocate g cur b g.bm = setBit (cur g.bm) b := by
  have range := (mem_freeBlocks.mp free).1
  have lo := g.bm_lt_lo
  rw [allocate, update_of_ne (by omega), update_self]

theorem lt_of_mem_freeBlocks : b < 2 ^ 32 := by
  have range := (mem_freeBlocks.mp free).1
  have within := g.within
  have one := g.one
  simp only [bpb] at one
  omega

include owned

theorem refs_allocate : refs (allocate g cur b) dn = refs cur dn := by
  obtain ⟨⟨low, high⟩, clear⟩ := mem_freeBlocks.mp free
  have marked := owned.mark low high clear
  rw [allocate, marked.refs_write_loose (Finset.mem_insert_self b L),
    owned.refs_write_low _ g.bm_lt_lo]

theorem filled_addr {k : Nat} (le : k ≤ ndirect) (empty : (dn inum).addr k = 0) :
    Filled g inum k b cur dn (allocate g cur b)
      (update dn inum ((dn inum).setAddr k b)) := by
  have small := lt_of_mem_freeBlocks free
  have slot : ∀ j, slotRef (allocate g cur b) ((dn inum).setAddr k b) j =
      update (slotRef (allocate g cur b) (dn inum)) k b j := by
    intro j
    rw [update_apply]
    rcases Nat.lt_or_eq_of_le le with direct | rfl
    · exact slotRef_setAddr direct small
    · exact slotRef_setIndirect empty (update_self ..) small
  constructor
  case slot =>
    have slots : refs (allocate g cur b) (update dn inum ((dn inum).setAddr k b)) =
        update (refs (allocate g cur b) (update dn inum (dn inum))) (inum, k) b :=
      refs_inode slot
    rw [update_eq_self, refs_allocate owned free] at slots
    exact slots
  case empty => rw [refs, slotRef_direct le, empty]
  case free => exact free
  case bitmap => exact allocate_bm free
  case others => exact fun _ other => update_of_ne other _ _
  case same =>
    rw [update_self]
    rfl
  case data =>
    intro x notMap notNew _
    rw [allocate, update_of_ne notNew, update_of_ne notMap]

theorem filled_word {w : Nat} (inside : w < nindirect) (has : (dn inum).addr ndirect ≠ 0)
    (empty : word (cur ((dn inum).addr ndirect)) w = 0) : Filled g inum (ndirect + 1 + w) b cur dn
      (update (allocate g cur b) ((dn inum).addr ndirect)
        (setWord (cur ((dn inum).addr ndirect)) w b)) dn := by
  have small := lt_of_mem_freeBlocks free
  have range := owned.indirect inum has
  have lo := g.bm_lt_lo
  have clear := (mem_freeBlocks.mp free).2
  have other : (dn inum).addr ndirect ≠ b := by
    intro same
    have set := owned.marked (inum, ndirect) (by rw [refs, slotRef_indirect]; exact has)
    rw [refs, slotRef_indirect, same, clear] at set
    cases set
  have before : allocate g cur b ((dn inum).addr ndirect) = cur ((dn inum).addr ndirect) := by
    rw [allocate, update_of_ne other, update_of_ne (by omega)]
  have slots := refs_allocate owned free
  constructor
  case slot =>
    have distinct : SlotRefs.Distinct (refs (allocate g cur b) dn) := by
      rw [slots]
      exact owned.distinct
    have slot := refs_setWord distinct has inside small
    rw [before, slots] at slot
    exact slot
  case empty =>
    have index : ndirect + 1 + w - (ndirect + 1) = w := by omega
    rw [refs, slotRef_word (by omega) (by simp only; omega) has, index, empty]
  case free => exact free
  case bitmap => rw [update_of_ne (by omega), allocate_bm free]
  case others => exact fun _ _ => rfl
  case same => rfl
  case data =>
    intro x notMap notNew zero
    have notInd : x ≠ (dn inum).addr ndirect := by
      intro same
      exact has (same.symm.trans (zero same))
    rw [update_of_ne notInd, allocate, update_of_ne notNew, update_of_ne notMap]

end

end FileMap
