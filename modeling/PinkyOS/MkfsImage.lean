import PinkyOS.Mkfs
import PinkyOS.FileMap

/-!
# The image that `mkfs` builds

The blocks handed out by counting upwards are those that the inodes refer to, each once. While
`iappend` works on an inode, the inode in memory counts, not the one on the disk.
-/
namespace Mkfs
open ByteBuffer DiskLog DiskFormat FileMap SlotRefs Function Finset Dinode

variable {disk disk' : Nat → Block} {dn dn' : Nat → Dinode} {free inum j k v x : Nat}
  {used : Nat → Nat} {data : Nat → List UInt8} {s : State} {din : Dinode}

/-- The slots of the inodes hold the blocks from `metablocks` to `free`, and `used` says how many
slots of each inode are in use. -/
structure Mapped (disk : Nat → Block) (dn : Nat → Dinode) (free : Nat) (used : Nat → Nat) :
    Prop where
  bump : Bump (refs disk dn) metablocks free
  extent : ∀ inum j, refs disk dn (inum, j) ≠ 0 ↔ j < used inum
  fresh : ∀ b, free ≤ b → disk b = fun _ => 0
  count : free = metablocks + ∑ inum ∈ Finset.range ninodes, used inum

section
variable (mapped : Mapped disk dn free used)
include mapped

theorem Mapped.used_le (inum : Nat) : used inum ≤ slots maxfile := by
  by_contra more
  have held := (mapped.extent inum (slots maxfile)).mpr (by omega)
  have none' : refs disk dn (inum, slots maxfile) = 0 := rfl
  exact held none'

theorem Mapped.small : free < 2 ^ 32 := by
  have bound : ∑ inum ∈ range ninodes, used inum ≤ ninodes * slots maxfile := by
    have each := sum_le_card_nsmul (range ninodes) used (slots maxfile)
      fun inum _ => mapped.used_le inum
    simpa using each
  have count := mapped.count
  have number : metablocks + ninodes * slots maxfile < 2 ^ 32 := by decide
  omega

theorem Mapped.low : metablocks ≤ free := by
  have count := mapped.count
  omega

theorem Mapped.fill (inside : inum < ninodes)
    (slot : refs disk' dn' = update (refs disk dn) (inum, used inum) free)
    (fresh : ∀ b, free + 1 ≤ b → disk' b = fun _ => 0) :
    Mapped disk' dn' (free + 1) (update used inum (used inum + 1)) := by
  have empty : refs disk dn (inum, used inum) = 0 := by
    by_contra held
    exact Nat.lt_irrefl _ ((mapped.extent inum (used inum)).mp held)
  have pos : 0 < metablocks := by decide
  have low := mapped.low
  constructor
  case bump =>
    rw [slot]
    exact mapped.bump.alloc empty pos mapped.low
  case extent =>
    intro inum' j
    rw [slot]
    by_cases here : inum' = inum
    · subst here
      rw [update_self]
      by_cases at' : j = used inum'
      · subst at'
        rw [update_self]
        omega
      · rw [update_of_ne (by simp [at']), mapped.extent]
        omega
    · rw [update_of_ne (by simp [here]), update_of_ne here, mapped.extent]
  case fresh => exact fresh
  case count =>
    have member : inum ∈ range ninodes := mem_range.mpr inside
    have before := add_sum_erase _ used member
    rw [sum_update_of_mem member, mapped.count, ← before]
    simp only [sdiff_singleton_eq_erase]
    omega

end

/-- What allocation leaves as it was: the sectors before the data, and the contents of the blocks
that hold data. -/
structure Kept (disk disk' : Nat → Block) (dn dn' : Nat → Dinode) : Prop where
  meta' : ∀ b, b < metablocks → disk' b = disk b
  refs : ∀ y, refs disk dn y ≠ 0 → FileMap.refs disk' dn' y = FileMap.refs disk dn y
  data : ∀ y, FileMap.refs disk dn y ≠ 0 → y.2 ≠ ndirect →
    disk' (FileMap.refs disk dn y) = disk (FileMap.refs disk dn y)

theorem Kept.refl : Kept disk disk dn dn :=
  ⟨fun _ _ => rfl, fun _ _ => rfl, fun _ _ _ => rfl⟩

theorem Kept.trans {disk'' : Nat → Block} {dn'' : Nat → Dinode} (one : Kept disk disk' dn dn')
    (two : Kept disk' disk'' dn' dn'') : Kept disk disk'' dn dn'' := by
  constructor
  case meta' => exact fun b low => (two.meta' b low).trans (one.meta' b low)
  case refs =>
    intro y held
    have first := one.refs y held
    exact (two.refs y (by rwa [first])).trans first
  case data =>
    intro y held isData
    have first := one.refs y held
    have second := two.data y (by rwa [first]) isData
    rw [first] at second
    exact second.trans (one.data y held isData)

theorem Kept.fill {y : Nat × Nat} (empty : FileMap.refs disk dn y = 0)
    (slot : FileMap.refs disk dn' = update (FileMap.refs disk dn) y free) :
    Kept disk disk dn dn' := by
  refine ⟨fun _ _ => rfl, fun z held => ?_, fun _ _ _ => rfl⟩
  rw [slot, update_of_ne]
  rintro rfl
  exact held empty

theorem Kept.word {y : Nat × Nat} {buf : Block} (bump : Bump (FileMap.refs disk dn) metablocks free)
    (empty : FileMap.refs disk dn y = 0) (has : FileMap.refs disk dn (inum, ndirect) = x)
    (nonzero : x ≠ 0) (slot : FileMap.refs (update disk x buf) dn =
      update (FileMap.refs disk dn) y free) :
    Kept disk (update disk x buf) dn dn := by
  constructor
  case meta' =>
    intro b low
    have range := bump.range (x := (inum, ndirect)) (by rwa [has])
    exact update_of_ne (by omega) _ _
  case refs =>
    intro z held
    rw [slot, update_of_ne]
    rintro rfl
    exact held empty
  case data =>
    intro z held isData
    apply update_of_ne
    intro same
    have := bump.distinct z (inum, ndirect) held (by rw [has, same])
    exact isData (congrArg Prod.snd this)

theorem Kept.byteAt {off : Nat} (kept : Kept disk disk' dn dn')
    (held : FileMap.refs disk dn (inum, slotOf (off / bsize)) ≠ 0) :
    byteAt disk' (dn' inum) off = byteAt disk (dn inum) off := by
  have block : blockAt disk' (dn' inum) (off / bsize) = blockAt disk (dn inum) (off / bsize) :=
    kept.refs _ held
  have data : disk' (blockAt disk (dn inum) (off / bsize)) =
      disk (blockAt disk (dn inum) (off / bsize)) := kept.data _ held (slotOf_ne _)
  rw [FileMap.byteAt, block, data, FileMap.byteAt]

theorem Mapped.empty (mapped : Mapped disk dn free used) (beyond : used inum ≤ j) :
    refs disk dn (inum, j) = 0 := by
  by_contra held
  have := (mapped.extent inum j).mp held
  omega

/-! ### `iappend` finds or allocates a block -/

/-- What `mapBlock` does: it goes on from a state with `used` slots to one with `used'` slots. -/
structure Maps (s s' : State) (din din' : Dinode) (dn : Nat → Dinode) (inum : Nat)
    (used' : Nat → Nat) : Prop where
  mapped : Mapped s'.disk (Function.update dn inum din') s'.freeblock used'
  kept : Kept s.disk s'.disk (Function.update dn inum din) (Function.update dn inum din')
  same : din' = { din with addrs := din'.addrs }
  counters : s'.usedblocks + s.freeblock = s.usedblocks + s'.freeblock
  freeinode : s'.freeinode = s.freeinode

theorem Maps.refl (mapped : Mapped s.disk (update dn inum din) s.freeblock used) :
    Maps s s din din dn inum used :=
  ⟨mapped, .refl, rfl, rfl, rfl⟩

variable {s' : State} {n : Nat} {files : List Input}

theorem Maps.trans {s'' : State} {din' din'' : Dinode} {used' used'' : Nat → Nat}
    (one : Maps s s' din din' dn inum used') (two : Maps s' s'' din' din'' dn inum used'') :
    Maps s s'' din din'' dn inum used'' := by
  have counters := one.counters
  have counters' := two.counters
  refine ⟨two.mapped, one.kept.trans two.kept, ?_, by omega, two.freeinode.trans one.freeinode⟩
  rw [two.same, one.same]

section
variable (mapped : Mapped s.disk (Function.update dn inum din) s.freeblock used)
include mapped

section
variable (inside : inum < ninodes)
include inside

theorem Maps.setAddr (next : used inum ≤ ndirect) :
    Maps s (take s) din (din.setAddr (used inum) s.freeblock) dn inum
      (update used inum (used inum + 1)) := by
  have empty := mapped.empty (Nat.le_refl (used inum))
  have slot : refs s.disk (update dn inum (din.setAddr (used inum) s.freeblock)) =
      update (refs s.disk (update dn inum din)) (inum, used inum)
        s.freeblock := by
    apply refs_inode
    intro j
    by_cases direct : used inum < ndirect
    · rw [slotRef_setAddr direct mapped.small, update_apply]
    · have last : used inum = ndirect := by omega
      have none' : din.addr ndirect = 0 := by
        rw [last] at empty
        simpa [refs, slotRef_indirect] using empty
      rw [last, slotRef_setIndirect none' (mapped.fresh _ (Nat.le_refl _)) mapped.small,
        update_apply]
  refine ⟨mapped.fill inside slot fun b high => mapped.fresh b (by omega), .fill empty slot, rfl,
    ?_, rfl⟩
  simp only [take]
  omega

theorem Maps.setWord (next : used inum = ndirect + 1 + k) (entry : k < nindirect) :
    Maps s (wsect (take s) (din.addr ndirect)
        (DiskFormat.setWord (s.disk (din.addr ndirect)) k s.freeblock))
      din din dn inum (update used inum (used inum + 1)) := by
  have empty := mapped.empty (Nat.le_refl (used inum))
  have here : refs s.disk (update dn inum din) (inum, ndirect) = din.addr ndirect := by
    simp [refs, slotRef_indirect]
  have has : din.addr ndirect ≠ 0 := by
    rw [← here, mapped.extent]
    omega
  have low := (mapped.bump.range (x := (inum, ndirect)) (by rwa [here])).2
  rw [here] at low
  have has' : (update dn inum din inum).addr ndirect ≠ 0 := by simpa using has
  have slot := refs_setWord mapped.bump.distinct has' entry mapped.small
  rw [update_self, ← next] at slot
  refine ⟨mapped.fill inside slot ?_, .word mapped.bump empty here has slot, rfl, ?_, rfl⟩
  · intro b high
    have other : b ≠ din.addr ndirect := by omega
    simp only [wsect, take, update_of_ne other]
    exact mapped.fresh b (by omega)
  · simp only [wsect, take]
    omega

theorem mapIndirect_maps (direct : ndirect ≤ used inum) :
    Maps s (mapIndirect s din).1 din (mapIndirect s din).2 dn inum
      (update used inum (max (used inum) (ndirect + 1))) := by
  have here : refs s.disk (update dn inum din) (inum, ndirect) = din.addr ndirect := by
    simp [refs, slotRef_indirect]
  have extent := mapped.extent inum ndirect
  rw [here] at extent
  rw [mapIndirect]
  split
  case isTrue none' =>
    have last : used inum = ndirect := by omega
    have maps := Maps.setAddr mapped inside (by omega)
    rw [last] at maps ⊢
    simpa using maps
  case isFalse has =>
    have more := extent.mp has
    rw [Nat.max_eq_left (by omega), update_eq_self]
    exact .refl mapped

/-- The number of slots after block `fbn` has been found or allocated. -/
theorem mapBlock_maps {fbn : Nat} (slots' : used inum = slots n) (reach : fbn ≤ n)
    (bound : fbn < maxfile) : Maps s (mapBlock s din fbn).1 din (mapBlock s din fbn).2.1 dn inum
        (update used inum (slots (max n (fbn + 1)))) ∧
      (mapBlock s din fbn).2.2 = refs (mapBlock s din fbn).1.disk
        (update dn inum (mapBlock s din fbn).2.1) (inum, slotOf fbn) := by
  by_cases direct : fbn < ndirect
  · have slot : ∀ disk d, refs disk (update dn inum d) (inum, slotOf fbn) = d.addr fbn := by
      intro disk d
      simp [refs, slotOf, direct, slotRef_direct (Nat.le_of_lt direct)]
    have extent := mapped.extent inum (slotOf fbn)
    rw [slot, slotOf, if_pos direct, slots'] at extent
    rw [mapBlock, if_pos direct]
    split
    case isTrue none' =>
      have beyond : ¬ fbn < slots n := fun less => extent.mpr less none'
      have last : n = fbn := by
        simp only [slots] at beyond
        split at beyond <;> omega
      have here : used inum = fbn := by
        rw [slots', last, slots, if_neg (by omega)]
      have maps := Maps.setAddr mapped inside (by omega)
      rw [here] at maps
      refine ⟨?_, (slot _ _).symm⟩
      have after : slots (max n (fbn + 1)) = fbn + 1 := by
        rw [last, Nat.max_eq_right (by omega), slots, if_neg (by omega)]
      rw [after]
      exact maps
    case isFalse has =>
      have within := extent.mp has
      have less : fbn < n := by
        simp only [slots] at within
        split at within <;> omega
      rw [Nat.max_eq_left less, ← slots', update_eq_self]
      exact ⟨.refl mapped, (slot _ _).symm⟩
  · have enough : ndirect ≤ used inum := by
      rw [slots', slots]
      split <;> omega
    have first := mapIndirect_maps mapped inside enough
    rw [mapBlock, if_neg direct]
    generalize mapIndirect s din = r at first ⊢
    obtain ⟨s1, d1⟩ := r
    simp only at first ⊢
    have count : update used inum (max (used inum) (ndirect + 1)) inum =
        if n = fbn then fbn + 1 else slots n := by
      rw [update_self, slots']
      simp only [slots]
      split_ifs <;> omega
    have has : d1.addr ndirect ≠ 0 := by
      have here : refs s1.disk (update dn inum d1) (inum, ndirect) = d1.addr ndirect := by
        simp [refs, slotRef_indirect]
      rw [← here, first.mapped.extent, update_self]
      omega
    simp only [maxfile] at bound
    have slot : ∀ disk, refs disk (update dn inum d1) (inum, slotOf fbn) =
        word (disk (d1.addr ndirect)) (fbn - ndirect) := by
      intro disk
      have index : fbn + 1 - (ndirect + 1) = fbn - ndirect := by omega
      simp only [refs, slotOf, if_neg direct, update_self]
      rw [slotRef_word (by omega) (by omega) has, index]
    have extent := first.mapped.extent inum (slotOf fbn)
    rw [slot, slotOf, if_neg direct, count] at extent
    split
    case isTrue none' =>
      have beyond : ¬ fbn + 1 < if n = fbn then fbn + 1 else slots n :=
        fun less => extent.mpr less none'
      have last : n = fbn := by
        by_contra other
        rw [if_neg other, slots, if_pos (by omega)] at beyond
        omega
      rw [if_pos last] at count
      have second := Maps.setWord first.mapped inside
        (show _ = ndirect + 1 + (fbn - ndirect) by rw [count]; omega) (by omega)
      rw [count, update_idem] at second
      have after : slots (max n (fbn + 1)) = fbn + 1 + 1 := by
        rw [last, Nat.max_eq_right (by omega), slots, if_pos (by omega)]
      rw [after]
      refine ⟨first.trans second, ?_⟩
      rw [slot]
      simp [wsect]
    case isFalse has' =>
      have within := extent.mp has'
      have less : n ≠ fbn := by
        rintro rfl
        simp at within
      rw [if_neg less] at count
      rw [update_self] at count
      rw [count] at first
      rw [Nat.max_eq_left (by omega)]
      exact ⟨first, (slot _).symm⟩

end

end

/-! ### `iappend` -/

/-- The files hold the bytes of `data`. -/
structure Stored (disk : Nat → Block) (dn : Nat → Dinode) (free : Nat) (data : Nat → List UInt8) :
    Prop where
  mapped : Mapped disk dn free fun inum => slots (blocks (data inum).length)
  holds : ∀ inum, Holds disk (dn inum) (data inum)
  small : ∀ inum, (data inum).length ≤ maxfile * bsize

/-- What an append leaves as it was. -/
structure Appends (s s' : State) (din din' : Dinode) : Prop where
  meta' : ∀ b, b < metablocks → s'.disk b = s.disk b
  same : din' = { din with addrs := din'.addrs }
  counters : s'.usedblocks + s.freeblock = s.usedblocks + s'.freeblock
  freeinode : s'.freeinode = s.freeinode

theorem Appends.trans {s'' : State} {din' din'' : Dinode} (one : Appends s s' din din')
    (two : Appends s' s'' din' din'') : Appends s s'' din din'' := by
  have counters := one.counters
  have counters' := two.counters
  refine ⟨fun b low => (two.meta' b low).trans (one.meta' b low), ?_, by omega,
    two.freeinode.trans one.freeinode⟩
  rw [two.same, one.same]

theorem blocks_append {len : Nat} (some' : 0 < n) (within : n ≤ (len / bsize + 1) * bsize - len) :
    blocks (len + n) = max (blocks len) (len / bsize + 1) := by
  simp only [blocks, bsize] at within ⊢
  omega

theorem Stored.round (chunk : List UInt8)
    (stored : Stored s.disk (update dn inum din) s.freeblock data)
    (inside : inum < ninodes) (some' : 0 < chunk.length)
    (within : chunk.length ≤ ((data inum).length / bsize + 1) * bsize - (data inum).length)
    (fits : (data inum).length + chunk.length ≤ maxfile * bsize) :
    let r := mapBlock s din ((data inum).length / bsize)
    let s' := wsect r.1 r.2.2 ((r.1.disk r.2.2).write
      ((data inum).length - (data inum).length / bsize * bsize) chunk)
    Stored s'.disk (update dn inum r.2.1) s'.freeblock
        (update data inum (data inum ++ chunk)) ∧
      Appends s s' din r.2.1 := by
  have reach : (data inum).length / bsize ≤ blocks (data inum).length := by
    simp only [blocks, bsize]
    omega
  have bound : (data inum).length / bsize < maxfile := by
    simp only [bsize] at fits ⊢
    omega
  obtain ⟨maps, block⟩ := mapBlock_maps stored.mapped inside rfl reach bound
  rw [← blocks_append some' within] at maps
  have used : update (fun inum => slots (blocks (data inum).length)) inum
      (slots (blocks ((data inum).length + chunk.length))) =
      fun inum' => slots (blocks (update data inum (data inum ++ chunk) inum').length) := by
    funext inum'
    by_cases here : inum' = inum
    · subst here
      simp
    · simp [here]
  rw [used] at maps
  generalize mapBlock s din ((data inum).length / bsize) = r at maps block ⊢
  obtain ⟨s1, d1, x⟩ := r
  simp only at maps block ⊢
  have held : ∀ inum' off, off < (update data inum (data inum ++ chunk) inum').length →
      refs s1.disk (update dn inum d1) (inum', slotOf (off / bsize)) ≠ 0 :=
    fun inum' off less => (maps.mapped.extent _ _).mpr (slotOf_lt_slots.mpr (lt_blocks less))
  have nonzero : x ≠ 0 := by
    rw [block]
    apply held
    rw [update_self, List.length_append]
    omega
  have range := maps.mapped.bump.range (x := (inum, slotOf ((data inum).length / bsize)))
    (by rwa [← block])
  rw [← block] at range
  have distinct := maps.mapped.bump.distinct
  have start : (data inum).length - (data inum).length / bsize * bsize = (data inum).length % bsize := by
    simp only [bsize]
    omega
  rw [start]
  have refs' : refs (update s1.disk x
      ((s1.disk x).write ((data inum).length % bsize) chunk)) (update dn inum d1) =
      refs s1.disk (update dn inum d1) :=
    refs_write distinct block.symm (slotOf_ne _) nonzero
  have bytes : ∀ inum' off, off < (data inum').length →
      byteAt (update s1.disk x
        ((s1.disk x).write ((data inum).length % bsize) chunk)) (update dn inum d1 inum') off =
      byteAt s.disk (update dn inum din inum') off := by
    intro inum' off less
    have old : refs s.disk (update dn inum din) (inum', slotOf (off / bsize)) ≠ 0 :=
      (stored.mapped.extent _ _).mpr (slotOf_lt_slots.mpr (lt_blocks less))
    have now : refs s1.disk (update dn inum d1) (inum', slotOf (off / bsize)) ≠ 0 := by
      rwa [maps.kept.refs _ old]
    rw [byteAt_write distinct block.symm nonzero now, ← maps.kept.byteAt old]
    split
    case isTrue at' =>
      obtain ⟨rfl, last⟩ := at'
      have before : off % bsize < (data inum').length % bsize := by
        simp only [bsize] at last ⊢
        omega
      have same : blockAt s1.disk (update dn inum' d1 inum') (off / bsize) = x := by
        rw [block, last]
        rfl
      rw [Buffer.get_write_of_lt _ _ before, byteAt, same]
    case isFalse => rfl
  refine ⟨⟨?_, ?_, ?_⟩, ⟨?_, maps.same, maps.counters, maps.freeinode⟩⟩
  · refine ⟨?_, ?_, ?_, maps.mapped.count⟩
    · simp only [wsect, refs']
      exact maps.mapped.bump
    · simp only [wsect, refs']
      exact maps.mapped.extent
    · intro b high
      have other : b ≠ x := by
        have : s1.freeblock ≤ b := high
        omega
      simp only [wsect, update_of_ne other]
      exact maps.mapped.fresh b high
  · intro inum'
    by_cases here : inum' = inum
    · subst here
      have before := stored.holds inum'
      have at' : blockAt (update s1.disk x
          ((s1.disk x).write ((data inum').length % bsize) chunk)) d1
          ((data inum').length / bsize) = x := by
        have slot := congrFun refs' (inum', slotOf ((data inum').length / bsize))
        rw [← block] at slot
        simpa [refs, blockAt] using slot
      have old := bytes inum'
      simp only [update_self] at before old ⊢
      apply before.append
      · simp only [bsize] at within ⊢
        omega
      · exact old
      · simp only [wsect, at', update_self]
        apply Buffer.read_write
        simp only [bsize] at within ⊢
        omega
    · intro off less
      rw [update_of_ne here] at less ⊢
      rw [stored.holds inum' off less]
      exact congrArg some (bytes inum' off less).symm
  · intro inum'
    by_cases here : inum' = inum
    · subst here
      simpa using fits
    · simpa [here] using stored.small inum'
  · intro b low
    have other : b ≠ x := by omega
    simp only [wsect, update_of_ne other]
    exact maps.kept.meta' b low

theorem appendLoop_stored {fuel : Nat} {p : List UInt8} (enough : p.length ≤ fuel)
    (stored : Stored s.disk (update dn inum din) s.freeblock data)
    (inside : inum < ninodes) (fits : (data inum).length + p.length ≤ maxfile * bsize) :
    ∃ s' din', appendLoop fuel s din (data inum).length p =
        .ok (s', din', (data inum).length + p.length) ∧
      Stored s'.disk (update dn inum din') s'.freeblock
        (update data inum (data inum ++ p)) ∧ Appends s s' din din' := by
  induction fuel generalizing s din data p with
  | zero =>
    have empty : p = [] := List.eq_nil_of_length_eq_zero (by omega)
    subst empty
    refine ⟨s, din, rfl, ?_, fun _ _ => rfl, rfl, rfl, rfl⟩
    simpa using stored
  | succ fuel ih =>
    rw [appendLoop]
    by_cases empty : p = []
    · subst empty
      refine ⟨s, din, rfl, ?_, fun _ _ => rfl, rfl, rfl, rfl⟩
      simpa using stored
    · have some' : 0 < p.length := List.length_pos_iff.mpr empty
      have bound : (data inum).length / 512 < maxfile := by
        simp only [bsize] at fits
        omega
      rw [if_neg empty, if_pos bound]
      have room : 0 < ((data inum).length / 512 + 1) * 512 - (data inum).length := by omega
      generalize count : min p.length (((data inum).length / 512 + 1) * 512 - (data inum).length) = n1
      have length : (p.take n1).length = n1 := by
        rw [List.length_take]
        omega
      obtain ⟨next, appends⟩ := stored.round (p.take n1) inside (by omega)
        (by simp only [bsize]; omega) (by omega)
      simp only [bsize] at next appends
      generalize mapBlock s din ((data inum).length / 512) = r at next appends ⊢
      obtain ⟨s1, d1, x⟩ := r
      simp only at next appends ⊢
      have length' : (update data inum (data inum ++ p.take n1) inum).length =
          (data inum).length + n1 := by
        rw [update_self, List.length_append, length]
      have rest : (p.drop n1).length = p.length - n1 := List.length_drop
      obtain ⟨s', din', ran, stored', appends'⟩ := ih (p := p.drop n1) (by omega) next (by omega)
      rw [length', rest] at ran
      refine ⟨s', din', ?_, ?_, appends.trans appends'⟩
      · have total : (data inum).length + n1 + (p.length - n1) = (data inum).length + p.length := by
          omega
        rw [← total]
        exact ran
      · simpa [List.append_assoc] using stored'

/-! ### Whole inodes -/

/-- The inodes on the disk. -/
def inodes (disk : Nat → Block) (inum : Nat) : Dinode :=
  if inum < ninodes then Dinode.ofBlock (disk (i2b inum)) inum else .zero

theorem i2b_lt (inside : inum < ninodes) : i2b inum < metablocks - 1 := by
  have bound : metablocks = 29 := rfl
  simp only [i2b, ninodes, ipb] at inside ⊢
  omega

/-- The bytes of the files do not depend on the sectors before the data. -/
theorem Stored.frame (stored : Stored disk dn free data)
    (same : ∀ b, metablocks ≤ b → disk' b = disk b) : Stored disk' dn free data := by
  have refs' : refs disk' dn = refs disk dn := by
    funext ⟨inum, j⟩
    by_cases has : (dn inum).addr ndirect = 0
    · simp [refs, slotRef, has]
    · have here : refs disk dn (inum, ndirect) = (dn inum).addr ndirect := slotRef_indirect
      have range := stored.mapped.bump.range (x := (inum, ndirect)) (by rwa [here])
      rw [here] at range
      simp only [refs, slotRef, same _ range.1]
  have mapped := stored.mapped
  refine ⟨⟨?_, ?_, ?_, mapped.count⟩, ?_, stored.small⟩
  · rw [refs']
    exact mapped.bump
  · rw [refs']
    exact mapped.extent
  · intro b high
    have low := mapped.low
    rw [same b (by omega)]
    exact mapped.fresh b high
  · intro inum off less
    have held : refs disk dn (inum, slotOf (off / bsize)) ≠ 0 :=
      (mapped.extent _ _).mpr (slotOf_lt_slots.mpr (lt_blocks less))
    have kept : disk' (blockAt disk (dn inum) (off / bsize)) =
        disk (blockAt disk (dn inum) (off / bsize)) := same _ (mapped.bump.range held).1
    have block : blockAt disk' (dn inum) (off / bsize) = blockAt disk (dn inum) (off / bsize) :=
      congrFun refs' (inum, slotOf (off / bsize))
    rw [byteAt, block, kept]
    exact stored.holds inum off less

theorem Stored.inode {d : Dinode} (stored : Stored disk (update dn inum din) free data)
    (same : ∀ j, slotRef disk d j = slotRef disk din j) :
    Stored disk (update dn inum d) free data := by
  have refs' : refs disk (update dn inum d) = refs disk (update dn inum din) := by
    funext ⟨inum', j⟩
    by_cases here : inum' = inum
    · subst here
      simp [refs, same]
    · simp [refs, here]
  refine ⟨⟨?_, ?_, stored.mapped.fresh, stored.mapped.count⟩, ?_, stored.small⟩
  · rw [refs']
    exact stored.mapped.bump
  · rw [refs']
    exact stored.mapped.extent
  · intro inum' off less
    have block : blockAt disk (update dn inum d inum') (off / bsize) =
        blockAt disk (update dn inum din inum') (off / bsize) :=
      congrFun refs' (inum', slotOf (off / bsize))
    rw [byteAt, block]
    exact stored.holds inum' off less

theorem inodes_winode (inside : inum < ninodes) :
    inodes (winode s inum din).disk = update (inodes s.disk) inum din := by
  funext inum'
  by_cases here : inum' = inum
  · subst here
    simp [inodes, inside, winode, wsect, ofBlock_store]
  · rw [update_of_ne here, inodes, inodes]
    split
    · by_cases block : i2b inum' = i2b inum
      · have other : inum' % ipb ≠ inum % ipb := by
          simp only [i2b, ipb] at block ⊢
          omega
        simp only [winode, wsect, block, update_self]
        exact ofBlock_store_of_ne _ _ other
      · simp only [winode, wsect, update_of_ne block]
    · rfl

/-- The image holds the files `data`. -/
structure Image (s : State) (data : Nat → List UInt8) : Prop where
  stored : Stored s.disk (inodes s.disk) s.freeblock data
  size : ∀ inum, (inodes s.disk inum).size.toNat = (data inum).length
  counters : s.usedblocks = s.freeblock

theorem winode_low {b : Nat} (inside : inum < ninodes) (high : metablocks ≤ b) :
    (winode s inum din).disk b = s.disk b := by
  have low := i2b_lt inside
  exact update_of_ne (by omega) _ _

/-- What becomes of the inodes when a file grows. -/
structure Grown (s s' : State) : Prop where
  type : ∀ inum, (inodes s'.disk inum).type = (inodes s.disk inum).type
  nlink : ∀ inum, (inodes s'.disk inum).nlink = (inodes s.disk inum).nlink
  freeinode : s'.freeinode = s.freeinode
  super : s'.disk 1 = s.disk 1

theorem winode_super (s : State) (inum : Nat) (din : Dinode) :
    (winode s inum din).disk 1 = s.disk 1 := by
  have other : 1 ≠ i2b inum := by
    simp only [i2b, ipb]
    omega
  simp only [winode, wsect, update_of_ne other]

theorem maxfile_small (fits : n ≤ maxfile * bsize) : n % 2 ^ 32 = n := by
  have bound : maxfile * bsize < 2 ^ 32 := by decide
  exact Nat.mod_eq_of_lt (by omega)

theorem iappend_image (p : List UInt8) (image : Image s data) (inside : inum < ninodes)
    (fits : (data inum).length + p.length ≤ maxfile * bsize) :
    ∃ s', iappend s inum p = .ok s' ∧ Image s' (update data inum (data inum ++ p)) ∧
      Grown s s' := by
  have here : inodes s.disk inum = rinode s inum := by simp [inodes, inside, rinode]
  have size := image.size inum
  rw [here] at size
  have stored : Stored s.disk (update (inodes s.disk) inum (rinode s inum)) s.freeblock
      data := by
    rw [← here, update_eq_self]
    exact image.stored
  obtain ⟨s1, d1, ran, stored, appends⟩ := appendLoop_stored (Nat.le_refl _) stored inside fits
  have sectors : inodes s1.disk = inodes s.disk := by
    funext inum'
    simp only [inodes]
    split
    case isTrue inside' =>
      have low := i2b_lt inside'
      rw [appends.meta' _ (by omega)]
    case isFalse => rfl
  have result : iappend s inum p = .ok (winode s1 inum { d1 with
      size := BitVec.ofNat 32 ((data inum).length + p.length) }) := by
    simp only [iappend, size, ran]
    rfl
  refine ⟨_, result, ⟨?_, ?_, ?_⟩, ?_, ?_, appends.freeinode, ?_⟩
  · rw [inodes_winode inside, sectors]
    have resized := stored.inode
      (d := { d1 with size := BitVec.ofNat 32 ((data inum).length + p.length) }) fun _ => rfl
    exact resized.frame fun b high => winode_low inside high
  · intro inum'
    rw [inodes_winode inside, sectors]
    by_cases at' : inum' = inum
    · subst at'
      simp only [update_self, List.length_append, BitVec.toNat_ofNat]
      exact maxfile_small fits
    · rw [update_of_ne at', update_of_ne at']
      exact image.size inum'
  · have counters := appends.counters
    have before := image.counters
    show s1.usedblocks = s1.freeblock
    omega
  · intro inum'
    rw [inodes_winode inside, sectors]
    by_cases at' : inum' = inum
    · subst at'
      rw [update_self, appends.same, here]
    · rw [update_of_ne at']
  · intro inum'
    rw [inodes_winode inside, sectors]
    by_cases at' : inum' = inum
    · subst at'
      rw [update_self, appends.same, here]
    · rw [update_of_ne at']
  · rw [winode_super, appends.meta' 1 (by decide)]

theorem appends_image (chunks : List (List UInt8)) (image : Image s data) (inside : inum < ninodes)
    (fits : (data inum).length + chunks.flatten.length ≤ maxfile * bsize) :
    ∃ s', chunks.foldlM (fun s chunk => iappend s inum chunk) s = .ok s' ∧
      Image s' (update data inum (data inum ++ chunks.flatten)) ∧ Grown s s' := by
  induction chunks generalizing s data with
  | nil => exact ⟨s, rfl, by simpa using image, ⟨fun _ => rfl, fun _ => rfl, rfl, rfl⟩⟩
  | cons chunk chunks ih =>
    rw [List.flatten_cons, List.length_append] at fits
    obtain ⟨s1, ran, image, grown⟩ := iappend_image chunk image inside (by omega)
    obtain ⟨s', ran', image', grown'⟩ := ih image
      (by simp only [update_self, List.length_append]; omega)
    refine ⟨s', ?_, ?_, ?_⟩
    · rw [List.foldlM_cons, ran]
      exact ran'
    · simpa using image'
    · exact ⟨fun inum => (grown'.type inum).trans (grown.type inum),
        fun inum => (grown'.nlink inum).trans (grown.nlink inum),
        grown'.freeinode.trans grown.freeinode, grown'.super.trans grown.super⟩

theorem ialloc_image (type : BitVec 16) (image : Image s data) (inside : s.freeinode < ninodes)
    (empty : data s.freeinode = []) : Image (ialloc s type).1 data ∧
      inodes (ialloc s type).1.disk = update (inodes s.disk) s.freeinode
        { zero with type := type, nlink := 1 } := by
  have dn : inodes (ialloc s type).1.disk = update (inodes s.disk) s.freeinode
      { zero with type := type, nlink := 1 } :=
    inodes_winode (s := { s with freeinode := s.freeinode + 1 }) inside
  refine ⟨⟨?_, ?_, image.counters⟩, dn⟩
  · rw [dn]
    have stored : Stored s.disk (update (inodes s.disk) s.freeinode
        (inodes s.disk s.freeinode)) s.freeblock data := by
      rw [update_eq_self]
      exact image.stored
    refine (stored.inode fun j => ?_).frame fun b high => ?_
    · have none' : slotRef s.disk (inodes s.disk s.freeinode) j = 0 :=
        image.stored.mapped.empty (by simp [empty, slots, blocks, bsize, ndirect])
      rw [none']
      show slotRef s.disk zero j = 0
      simp [slotRef]
    · exact winode_low (s := { s with freeinode := s.freeinode + 1 }) inside high
  · intro inum
    rw [dn]
    by_cases at' : inum = s.freeinode
    · subst at'
      simp [empty, zero]
    · rw [update_of_ne at']
      exact image.size inum

/-! ### `main` -/

/-- The entries of the root directory for the files. -/
def entryBytes (files : List Input) : List UInt8 :=
  files.zipIdx.flatMap fun f => Dirent.bytes ⟨f.2 + 2, strip f.1.name⟩

/-- The bytes of the root directory before its size is rounded up. -/
def rootBytes (files : List Input) : List UInt8 :=
  Dirent.bytes ⟨rootino, [46]⟩ ++ Dirent.bytes ⟨rootino, [46, 46]⟩ ++ entryBytes files

/-- What each inode holds. -/
def contents (files : List Input) (inum : Nat) : List UInt8 :=
  if inum = rootino then rootBytes files
  else if 2 ≤ inum then ((files[inum - 2]?).map Input.bytes).getD []
  else []

def types (files : List Input) (inum : Nat) : BitVec 16 :=
  if inum = rootino then tDir
  else if 2 ≤ inum ∧ inum < files.length + 2 then tFile
  else 0

theorem entryBytes_append (files : List Input) (f : Input) : entryBytes (files ++ [f]) =
      entryBytes files ++ Dirent.bytes ⟨files.length + 2, strip f.name⟩ := by
  simp [entryBytes, List.zipIdx_append]

theorem length_rootBytes (files : List Input) :
    (rootBytes files).length = sizeofDirent * (files.length + 2) := by
  induction files using List.reverseRecOn with
  | nil => simp [rootBytes, entryBytes, sizeofDirent]
  | append_singleton files f ih =>
    simp only [rootBytes, entryBytes_append, List.length_append, Dirent.length_bytes,
      List.length_singleton, sizeofDirent] at ih ⊢
    omega

/-- The image after some of the files. -/
structure Built (s : State) (files : List Input) : Prop where
  image : Image s (contents files)
  type : ∀ inum, (inodes s.disk inum).type = types files inum
  nlink : ∀ inum, types files inum ≠ 0 → (inodes s.disk inum).nlink = 1
  freeinode : s.freeinode = files.length + 2
  super : s.disk 1 = start.disk 1

theorem contents_append (files : List Input) (f : Input) : contents (files ++ [f]) =
      update (update (contents files) rootino (contents files rootino ++
        Dirent.bytes ⟨files.length + 2, strip f.name⟩)) (files.length + 2) f.bytes := by
  funext inum
  by_cases root : inum = rootino
  · subst root
    rw [update_of_ne (by simp only [rootino]; omega), update_self]
    simp only [contents, if_true, rootBytes, entryBytes_append, List.append_assoc]
  · by_cases new : inum = files.length + 2
    · subst new
      simp [contents, rootino]
    · rw [update_of_ne new, update_of_ne root]
      simp only [contents, if_neg root]
      split
      · by_cases before : inum - 2 < files.length
        · rw [List.getElem?_append_left before]
        · rw [List.getElem?_eq_none (by simp; omega), List.getElem?_eq_none (by omega)]
      · rfl

theorem types_append (files : List Input) (f : Input) (inum : Nat) :
    types (files ++ [f]) inum = if inum = files.length + 2 then tFile else types files inum := by
  by_cases new : inum = files.length + 2
  · subst new
    simp [types, rootino]
  · simp only [types, List.length_append, List.length_singleton, if_neg new]
    split_ifs <;> first | rfl | omega

theorem addFile_built {f : Input} (built : Built s files)
    (room : files.length + 2 < ninodes) (noSlash : FileSystem.slash ∉ f.name)
    (fits : f.bytes.length ≤ maxfile * bsize) :
    ∃ s', addFile rootino s f = .ok s' ∧ Built s' (files ++ [f]) := by
  have new : contents files (files.length + 2) = [] := by simp [contents, rootino]
  have free := built.freeinode
  obtain ⟨image, dn⟩ := ialloc_image tFile built.image (by omega) (by rw [free, new])
  have rootFits : (contents files rootino).length +
      (Dirent.bytes ⟨files.length + 2, strip f.name⟩).length ≤ maxfile * bsize := by
    have length := length_rootBytes files
    simp only [ninodes] at room
    simp only [contents, if_true, length, Dirent.length_bytes, sizeofDirent, maxfile, ndirect,
      nindirect, bsize]
    omega
  obtain ⟨s1, ran, image, grown⟩ := iappend_image _ image (by decide) rootFits
  have apart : files.length + 2 ≠ rootino := by
    simp only [rootino]
    omega
  obtain ⟨s', ran', image, grown'⟩ := appends_image f.chunks image room
    (by rw [update_of_ne apart, new, List.length_nil, Nat.zero_add]; exact fits)
  rw [update_of_ne apart, new, List.nil_append] at image
  refine ⟨s', ?_, ?_, ?_, ?_, ?_, ?_⟩
  · have inum : (ialloc s tFile).2 = files.length + 2 := free
    simp only [addFile, if_neg noSlash, inum, ran]
    exact ran'
  · rw [contents_append]
    exact image
  · intro inum
    rw [grown'.type, grown.type, dn, types_append, free]
    by_cases at' : inum = files.length + 2
    · subst at'
      simp
    · rw [update_of_ne at', if_neg at', built.type]
  · intro inum used
    rw [types_append] at used
    rw [grown'.nlink, grown.nlink, dn, free]
    by_cases at' : inum = files.length + 2
    · subst at'
      simp
    · rw [if_neg at'] at used
      rw [update_of_ne at', built.nlink inum used]
  · rw [grown'.freeinode, grown.freeinode]
    simp [ialloc, winode, wsect, free]
  · rw [grown'.super, grown.super, ← built.super]
    exact winode_super ..

theorem addFiles_built {rest : List Input} (built : Built s files)
    (room : files.length + rest.length + 1 < ninodes)
    (noSlash : ∀ f ∈ rest, FileSystem.slash ∉ f.name)
    (fits : ∀ f ∈ rest, f.bytes.length ≤ maxfile * bsize) :
    ∃ s', rest.foldlM (addFile rootino) s = .ok s' ∧ Built s' (files ++ rest) := by
  induction rest generalizing s files with
  | nil => exact ⟨s, rfl, by simpa using built⟩
  | cons f rest ih =>
    rw [List.length_cons] at room
    obtain ⟨s1, ran, built⟩ := addFile_built built (by omega) (noSlash f List.mem_cons_self)
      (fits f List.mem_cons_self)
    obtain ⟨s', ran', built⟩ := ih built (by simp; omega)
      (fun g later => noSlash g (List.mem_cons_of_mem _ later))
      (fun g later => fits g (List.mem_cons_of_mem _ later))
    refine ⟨s', ?_, by simpa using built⟩
    rw [List.foldlM_cons, ran]
    exact ran'

theorem start_disk {b : Nat} (other : b ≠ 1) : start.disk b = fun _ => 0 :=
  update_of_ne other _ _

theorem start_inodes : inodes start.disk = fun _ => zero := by
  funext inum
  rw [inodes]
  split
  · rw [start_disk (by simp only [i2b, ipb]; omega), ofBlock_zero]
  · rfl

theorem start_image : Image start fun _ => [] := by
  have none' : refs start.disk (inodes start.disk) = fun _ => 0 := by
    funext ⟨inum, j⟩
    simp [refs, start_inodes, slotRef]
  refine ⟨⟨⟨⟨?_, ?_⟩, ?_, ?_, ?_⟩, ?_, ?_⟩, ?_, rfl⟩
  · rw [none']
    exact fun _ _ held => absurd rfl held
  · rw [none']
    intro b nonzero
    have free : start.freeblock = metablocks := rfl
    constructor
    · rintro ⟨_, rfl⟩
      exact absurd rfl nonzero
    · omega
  · simp [none', blocks, slots, bsize, ndirect]
  · intro b high
    apply start_disk
    have : metablocks ≤ b := high
    have number : metablocks = 29 := rfl
    omega
  · simp [blocks, slots, bsize, ndirect]
    rfl
  · exact fun _ _ less => absurd less (Nat.not_lt_zero _)
  · simp
  · simp [start_inodes, zero]

theorem root_built : ∃ s s',
    iappend (ialloc start tDir).1 rootino (Dirent.bytes ⟨rootino, [46]⟩) = .ok s ∧
    iappend s rootino (Dirent.bytes ⟨rootino, [46, 46]⟩) = .ok s' ∧ Built s' [] := by
  obtain ⟨image, dn⟩ := ialloc_image tDir start_image (by decide) rfl
  obtain ⟨s1, ran, image, grown⟩ := iappend_image
    (Dirent.bytes ⟨rootino, [46]⟩) image (show rootino < ninodes by decide) (by decide)
  obtain ⟨s', ran', image, grown'⟩ := iappend_image
    (Dirent.bytes ⟨rootino, [46, 46]⟩) image (show rootino < ninodes by decide) (by decide)
  have final : update (update (fun _ => []) rootino
      ([] ++ Dirent.bytes ⟨rootino, [46]⟩)) rootino (update (fun _ => []) rootino
        ([] ++ Dirent.bytes ⟨rootino, [46]⟩) rootino ++ Dirent.bytes ⟨rootino, [46, 46]⟩) =
      contents [] := by
    funext inum
    by_cases root : inum = rootino
    · subst root
      simp [contents, rootBytes, entryBytes]
    · simp [contents, root]
  rw [final] at image
  have next : start.freeinode = rootino := rfl
  have type : ∀ inum, (inodes s'.disk inum).type = types [] inum := by
    intro inum
    rw [grown'.type, grown.type, dn, start_inodes, next]
    by_cases root : inum = rootino
    · subst root
      simp [types]
    · have none' : ¬ (2 ≤ inum ∧ inum < ([] : List Input).length + 2) := by
        rw [List.length_nil]
        omega
      rw [types, if_neg root, if_neg none', update_of_ne root]
      rfl
  refine ⟨s1, s', ran, ran', image, type, ?_, ?_, ?_⟩
  · intro inum used
    rw [grown'.nlink, grown.nlink, dn, next]
    by_cases root : inum = rootino
    · subst root
      simp
    · have none' : ¬ (2 ≤ inum ∧ inum < ([] : List Input).length + 2) := by
        rw [List.length_nil]
        omega
      rw [types, if_neg root, if_neg none'] at used
      exact absurd rfl used
  · rw [grown'.freeinode, grown.freeinode]
    rfl
  · rw [grown'.super, grown.super]
    exact winode_super ..

/-- The files fit on the disk. -/
structure Fits (files : List Input) : Prop where
  few : files.length < ninodes - 1
  each : ∀ f ∈ files, f.bytes.length ≤ maxfile * bsize
  total : (files.map fun f => slots (blocks f.bytes.length)).sum +
    slots (blocks (sizeofDirent * (files.length + 2))) ≤ nblocks

theorem sum_files {m : Nat} (files : List Input) (g : Input → Nat) (inside : files.length ≤ m) :
    ∑ k ∈ range m, ((files[k]?).map g).getD 0 = (files.map g).sum := by
  induction files generalizing m with
  | nil => simp
  | cons f files ih =>
    obtain ⟨m, rfl⟩ : ∃ m', m = m' + 1 := ⟨m - 1, by simp at inside; omega⟩
    rw [sum_range_succ', List.map_cons, List.sum_cons, Nat.add_comm]
    simp only [List.getElem?_cons_zero, List.getElem?_cons_succ, Option.map_some, Option.getD_some]
    rw [ih (by simpa using inside)]

theorem Built.freeblock (built : Built s files) (few : files.length < ninodes - 1) :
    s.freeblock = metablocks + ((files.map fun f => slots (blocks f.bytes.length)).sum +
      slots (blocks (sizeofDirent * (files.length + 2)))) := by
  have count := built.image.stored.mapped.count
  have split : ninodes = 198 + 1 + 1 := rfl
  rw [split, sum_range_succ', sum_range_succ'] at count
  have root : contents files (0 + 1) = rootBytes files := rfl
  have none' : contents files 0 = [] := rfl
  have rest : ∀ k, slots (blocks (contents files (k + 1 + 1)).length) =
      ((files[k]?).map fun f => slots (blocks f.bytes.length)).getD 0 := by
    intro k
    cases entry : files[k]? with
    | none => simp [contents, rootino, entry, slots, blocks, bsize, ndirect]
    | some f => simp [contents, rootino, entry]
  simp only [rest, root, none', length_rootBytes] at count
  rw [sum_files files _ (by simp only [ninodes] at few; omega)] at count
  have zero : slots (blocks ([] : List UInt8).length) = 0 := rfl
  omega

/-- The number of the sector of the bitmap. -/
def bitmapSector : Nat := ninodes / ipb + 3

theorem main_eq (files : List Input) : ∃ s0, Built s0 [] ∧ main files = (do
      let s ← files.foldlM (addFile rootino) s0
      balloc (fixRoot s rootino) (fixRoot s rootino).usedblocks) := by
  obtain ⟨s1, s0, ran, ran', built⟩ := root_built
  refine ⟨s0, built, ?_⟩
  have total : ¬ nblocks + metablocks + nlog ≠ size := by decide
  have root : (ialloc start tDir).2 = rootino := rfl
  simp only [main, if_neg total, root, ne_eq, not_true_eq_false, if_false, ran]
  show (do
    let s ← iappend s1 rootino (Dirent.bytes ⟨rootino, [46, 46]⟩)
    let s ← files.foldlM (addFile rootino) s
    balloc (fixRoot s rootino) (fixRoot s rootino).usedblocks) = _
  rw [ran']
  rfl

theorem addFiles_noSlash (ran : files.foldlM (addFile rootino) s = .ok s') :
    ∀ f ∈ files, FileSystem.slash ∉ f.name := by
  induction files generalizing s with
  | nil => simp
  | cons f files ih =>
    rw [List.foldlM_cons] at ran
    cases first : addFile rootino s f with
    | error msg =>
      rw [first] at ran
      cases ran
    | ok s1 =>
      rw [first] at ran
      intro g listed
      rcases List.mem_cons.mp listed with rfl | later
      · intro isSlash
        simp only [addFile, if_pos isSlash] at first
        cases first
      · exact ih ran g later

/-- The image that `mkfs` writes. -/
def finish (s : State) : State :=
  wsect (fixRoot s rootino) bitmapSector (bitmap s.usedblocks)

theorem balloc_fixRoot (built : Built s files) (fits : Fits files) :
    balloc (fixRoot s rootino) (fixRoot s rootino).usedblocks = .ok (finish s) := by
  have used : s.usedblocks < 512 * 8 := by
    have count := built.freeblock fits.few
    have total := fits.total
    have number : metablocks + nblocks < 512 * 8 := by decide
    rw [built.image.counters]
    omega
  exact if_pos used

/-- `mkfs` writes an image, unless a name has a slash. -/
theorem main_built (fits : Fits files) (noSlash : ∀ f ∈ files, FileSystem.slash ∉ f.name) :
    ∃ s, Built s files ∧ main files = .ok (finish s) := by
  obtain ⟨s0, built, eq⟩ := main_eq files
  have few := fits.few
  obtain ⟨s, ran, built⟩ := addFiles_built built
    (by simp only [ninodes, List.length_nil] at few ⊢; omega) noSlash fits.each
  rw [List.nil_append] at built
  refine ⟨s, built, ?_⟩
  rw [eq, ran]
  exact balloc_fixRoot built fits

theorem main_noSlash (ran : main files = .ok s') : ∀ f ∈ files, FileSystem.slash ∉ f.name := by
  obtain ⟨s0, -, eq⟩ := main_eq files
  rw [eq] at ran
  cases loop : files.foldlM (addFile rootino) s0 with
  | error msg =>
    rw [loop] at ran
    cases ran
  | ok s => exact addFiles_noSlash loop

end Mkfs
