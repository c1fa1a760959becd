import PinkyOS.BuddyPartition

/-!
# When `kmalloc` fails, which double frees `kfree` catches, and `get_order`

The free blocks of a reachable state are the largest aligned blocks inside the free area. So
`kmalloc` finds a block whenever an aligned region of its size is free. `kfree` looks at the bit of
the block it gets, which is set only if that very block is one of the largest.
-/
namespace BuddyHeap
open DyadicTiling MemoryLayout Finset Nat

/-- The bytes of the free blocks. -/
def freeBytes (r : Region) (s : Kmem) : Set Nat := {y | ∃ e ∈ freeExtents r s, y ∈ bytes e}

section
variable {r : Region} {s : Kmem} {A : Set Nat} {b : Block} {o p : Nat}

theorem HeapOk.mem_freeBytes (ok : HeapOk r s A) {y : Nat} :
    y ∈ freeBytes r s ↔ r.startHeap ≤ y ∧ y - r.startHeap ∈ A := by
  constructor
  · rintro ⟨e, free, inside⟩
    obtain ⟨b, isFree, rfl⟩ := (mem_freeExtents ok.marks.layout).mp free
    obtain ⟨above, cell⟩ := mem_bytes_addr.mp inside
    exact ⟨above, ok.tiles.inside b isFree cell⟩
  · rintro ⟨above, inside⟩
    obtain ⟨b, isFree, cell⟩ := ok.tiles.cover _ inside
    exact ⟨_, (mem_freeExtents ok.marks.layout).mpr ⟨b, isFree, rfl⟩,
      mem_bytes_addr.mpr ⟨above, cell⟩⟩

theorem HeapOk.bytes_subset_iff (ok : HeapOk r s A) :
    bytes (r.addr b, b.ord) ⊆ freeBytes r s ↔ b.cells ⊆ A := by
  constructor
  · intro sub x cell
    have inside : r.startHeap + x ∈ bytes (r.addr b, b.ord) :=
      mem_bytes_addr.mpr ⟨Nat.le_add_right .., by rwa [Nat.add_sub_cancel_left]⟩
    have free := (ok.mem_freeBytes.mp (sub inside)).2
    rwa [Nat.add_sub_cancel_left] at free
  · intro sub y inside
    obtain ⟨above, cell⟩ := mem_bytes_addr.mp inside
    exact ok.mem_freeBytes.mpr ⟨above, sub cell⟩

theorem exists_block (r : Region) (top : o ≤ maxOrd) (aligned : 2 ^ o ∣ p)
    (above : r.startHeap ≤ p) : ∃ k, p = r.addr ⟨o, k⟩ := by
  obtain ⟨k, size⟩ := Nat.dvd_sub aligned ((Nat.pow_dvd_pow 2 top).trans r.startHeap_aligned)
  refine ⟨k, ?_⟩
  rw [Region.addr]
  dsimp only
  omega

theorem Region.startHeap_pos (r : Region) : 0 < r.startHeap := by
  have marks : 0 < r.topMarks * (2 ^ nOrd - 1) * 8 :=
    Nat.mul_pos (Nat.mul_pos r.topMarks_pos (by decide)) (by decide)
  have top : r.start + r.topMarks * (2 ^ nOrd - 1) * 8 ≤ r.startHeap := le_alignUp (by decide) _
  omega

/-- An aligned region of `2 ^ o` bytes that is entirely free. -/
def FreeRegion (r : Region) (s : Kmem) (o p : Nat) : Prop :=
  2 ^ o ∣ p ∧ bytes (p, o) ⊆ freeBytes r s

/-- The regions of an order that are free are the blocks inside the free area. -/
theorem HeapOk.freeRegion_iff (ok : HeapOk r s A) (ho : IsOrder o) :
    FreeRegion r s o p ↔ ∃ k, p = r.addr ⟨o, k⟩ ∧ (⟨o, k⟩ : Block).cells ⊆ A := by
  constructor
  · rintro ⟨aligned, free⟩
    have first : p ∈ bytes (p, o) := ⟨le_rfl, Nat.lt_add_of_pos_right (Nat.two_pow_pos o)⟩
    obtain ⟨k, rfl⟩ := exists_block r ho.2 aligned (ok.mem_freeBytes.mp (free first)).1
    exact ⟨k, rfl, ok.bytes_subset_iff.mp free⟩
  · rintro ⟨k, rfl, sub⟩
    have aligned := addr_mask r (b := ⟨o, k⟩) ho.2
    rw [and_two_pow_sub_one_eq_mod] at aligned
    exact ⟨dvd_of_mod_eq_zero aligned, ok.bytes_subset_iff.mpr sub⟩

/-- `kmalloc` finds nothing only if no free block is large enough. -/
theorem HeapOk.no_region (ok : HeapOk r s A) (ho : IsOrder o)
    (small : ∀ c ∈ freeBlocks r s, c.ord < o) : ¬ ∃ p, FreeRegion r s o p := by
  rintro ⟨p, free⟩
  obtain ⟨k, rfl, sub⟩ := (ok.freeRegion_iff ho).mp free
  obtain ⟨c, isFree, large, -⟩ := exists_tile_above ok.tiles ok.reduced (fun c hc => hc.1.1)
    ⟨o, k⟩ ho.1 ho.2 sub
  exact not_le.mpr (small c isFree) large

/-- What a successful `kmalloc` takes away is what it returns. -/
theorem HeapOk.freeBytes_sdiff {s' : Kmem} (ok : HeapOk r s A) (ok' : HeapOk r s' (A \ b.cells)) :
    freeBytes r s' = freeBytes r s \ bytes (r.addr b, b.ord) := by
  ext y
  rw [Set.mem_sdiff, ok'.mem_freeBytes, ok.mem_freeBytes, mem_bytes_addr, Set.mem_sdiff]
  tauto

/-- `kmalloc` returns a null pointer exactly if no aligned region of its size is free, and then
changes nothing; otherwise it returns such a region and takes no other byte. -/
theorem kmalloc_fails_iff (r : Region) (s : Kmem) (L : Finset (Nat × Nat))
    (reach : Reachable r s L) (o : Nat) (ho : IsOrder o) :
    (∀ s', kmalloc s o = .ok (s', none) ↔ s' = s ∧ ¬ ∃ p, FreeRegion r s o p) ∧
    ((∃ p, FreeRegion r s o p) → ∃ p s', kmalloc s o = .ok (s', some p) ∧ p ≠ 0 ∧
      FreeRegion r s o p ∧ freeBytes r s' = freeBytes r s \ bytes (p, o)) := by
  obtain ⟨A, live⟩ := reach.liveOk
  have ok := live.heap
  rw [kmalloc_eq s ho]
  rcases _kmalloc_spec ok ho with ⟨run, small⟩ | ⟨k, s₁, run, sub, ok', -⟩
  · have none := ok.no_region ho small
    refine ⟨fun s' => ?_, fun some => absurd some none⟩
    rw [run]
    constructor
    · rintro ⟨⟩
      exact ⟨rfl, none⟩
    · rintro ⟨rfl, -⟩
      rfl
  · have region : FreeRegion r s o (r.addr ⟨o, k⟩) := (ok.freeRegion_iff ho).mpr ⟨k, rfl, sub⟩
    refine ⟨fun s' => ?_, fun _ => ⟨_, s₁, run, ?_, region, ok.freeBytes_sdiff ok'⟩⟩
    · rw [run]
      constructor
      · rintro ⟨⟩
      · rintro ⟨-, none⟩
        exact absurd ⟨_, region⟩ none
    · exact (r.startHeap_pos.trans_le (Nat.le_add_right ..)).ne'

/-- Right after boot a page can be allocated. -/
theorem kmalloc_page_at_boot : ∃ s, Reachable bootRegion s ∅ ∧
    (∀ s', kmalloc s 12 = .ok (s', none) ↔ s' = s ∧ ¬ ∃ p, FreeRegion bootRegion s 12 p) ∧
    ((∃ p, FreeRegion bootRegion s 12 p) → ∃ p s', kmalloc s 12 = .ok (s', some p) ∧ p ≠ 0 ∧
      FreeRegion bootRegion s 12 p ∧
      freeBytes bootRegion s' = freeBytes bootRegion s \ bytes (p, 12)) := by
  obtain ⟨s, init, -⟩ := kmemInit2_spec bootRegion
    ⟨0, 0, 0, fun _ => ⟨0, 0⟩, fun _ => ⟨0#32, 0#32⟩⟩
  have reach : Reachable bootRegion s ∅ := .init init
  exact ⟨s, reach, kmalloc_fails_iff bootRegion s ∅ reach 12 (by decide)⟩

theorem Reachable.aligned {L : Finset (Nat × Nat)} (reach : Reachable r s L) {e : Nat × Nat}
    (live : e ∈ L) : 2 ^ e.2 ∣ e.1 := by
  obtain ⟨A, ok⟩ := reach.liveOk
  obtain ⟨b, order, rfl⟩ := ok.blocks e live
  have masked := addr_mask r (b := b) order.2
  rw [and_two_pow_sub_one_eq_mod] at masked
  exact dvd_of_mod_eq_zero masked

/-! ### Running out -/

/-- There are finitely many places for a live block. -/
theorem Reachable.card_le {L : Finset (Nat × Nat)} (reach : Reachable r s L) :
    L.card ≤ (range (r.startHeap + r.heapLen) ×ˢ range (maxOrd + 1)).card := by
  apply card_le_card
  intro e live
  obtain ⟨A, ok⟩ := reach.liveOk
  obtain ⟨b, order, isE⟩ := ok.blocks e live
  have small : e.2 ≤ maxOrd := isE ▸ order.2
  exact mem_product.mpr ⟨mem_range.mpr (reach.inside live).2,
    mem_range.mpr (lt_succ_of_le small)⟩

theorem Reachable.exhaust {L : Finset (Nat × Nat)} (reach : Reachable r s L) (ho : IsOrder o) :
    ∃ s' L', Reachable r s' L' ∧ L ⊆ L' ∧ ∃ t, kmalloc s' o = .ok (t, none) := by
  obtain ⟨n, room⟩ : ∃ n, L.card + n =
      (range (r.startHeap + r.heapLen) ×ˢ range (maxOrd + 1)).card + 1 :=
    ⟨_, Nat.add_sub_cancel' (reach.card_le.trans (le_succ _))⟩
  induction n generalizing s L with
  | zero =>
    have bound := reach.card_le
    omega
  | succ n ih =>
    obtain ⟨⟨t, res⟩, run⟩ := reach.kmalloc_ok ho
    cases res with
    | none => exact ⟨s, L, reach, Subset.refl L, t, run⟩
    | some p =>
      have fresh := reach.fresh ho run
      obtain ⟨s', L', reach', more, stop⟩ := ih (.malloc reach ho run) (by
        rw [card_insert_of_notMem fresh]
        omega)
      exact ⟨s', L', reach', (subset_insert _ _).trans more, stop⟩

/-! ### Double frees -/

/-- `_kfree` has made a new free block around `b` and kept the free blocks that meet `b`. -/
structure Freed (r : Region) (s : Kmem) (b : Block) (s' : Kmem) : Prop where
  layout : Layout r s'
  around : ∃ a ∈ freeBlocks r s', a ∉ freeBlocks r s ∧ b.ord ≤ a.ord ∧ b.cells ⊆ a.cells
  kept : ∀ c ∈ freeBlocks r s, ∀ x ∈ b.cells, x ∈ c.cells → c ∈ freeBlocks r s'

section
variable (marks : MarksOk r s) (ho : IsOrder b.ord) (inside : ∀ x ∈ b.cells, x < r.heapLen)
include marks ho inside

theorem _kfree_unpaired (clear : b ∉ freeBlocks r s)
    (alone : b.ord < maxOrd → b.buddy ∉ freeBlocks r s) :
    ∃ s', _kfree s (r.addr b) b.ord = .ok s' ∧ Freed r s b s' := by
  obtain ⟨s', run, marks', added⟩ := markBlk_spec marks ho (mark_in_range ho inside) clear
  refine ⟨s', (_kfree_alone marks ho inside clear alone).trans run, marks'.layout, ?_,
    fun c isFree _ _ _ => ?_⟩
  · exact ⟨b, added ▸ Set.mem_insert .., clear, le_rfl, Set.Subset.rfl⟩
  · exact added ▸ Set.mem_insert_of_mem _ isFree

/-- A block is freed without a panic if neither it nor a block around it is free. -/
theorem _kfree_returns
    (unseen : ∀ c : Block, b.cells ⊆ c.cells → b.ord ≤ c.ord → c ∉ freeBlocks r s) :
    ∃ s', _kfree s (r.addr b) b.ord = .ok s' ∧ Freed r s b s' := by
  have clear : b ∉ freeBlocks r s := unseen b Set.Subset.rfl le_rfl
  obtain ⟨n, hn⟩ : ∃ n, maxOrd - b.ord = n := ⟨_, rfl⟩
  induction n generalizing s b with
  | zero => exact _kfree_unpaired marks ho inside clear fun below => by omega
  | succ n ih =>
    by_cases paired : b.buddy ∈ freeBlocks r s
    · obtain ⟨s₁, taken, marks₁, fewer⟩ := unmarkBlk_spec marks (o := b.ord) (k := b.buddy.id) paired
      have below : b.ord < maxOrd := by omega
      have order : IsOrder b.parent.ord := ⟨ho.1.trans (le_succ _), by rw [Block.parent_ord]; omega⟩
      have inside' : ∀ x ∈ b.parent.cells, x < r.heapLen :=
        cells_lt_heapLen order.2 (b.cells_subset_parent b.first_mem) (inside _ b.first_mem)
      have unseen' : ∀ c : Block, b.parent.cells ⊆ c.cells → b.parent.ord ≤ c.ord →
          c ∉ freeBlocks r s₁ := by
        intro c sub le isFree
        rw [fewer] at isFree
        exact unseen c (b.cells_subset_parent.trans sub) ((le_succ _).trans le) isFree.1
      obtain ⟨s', run, layout, ⟨a, isFree, -, le, sub⟩, kept⟩ := ih marks₁ order inside' unseen'
        (unseen' _ Set.Subset.rfl le_rfl) (by rw [Block.parent_ord]; omega)
      have wide : b.cells ⊆ a.cells := b.cells_subset_parent.trans sub
      have high : b.ord ≤ a.ord := (le_succ _).trans le
      refine ⟨s', (_kfree_merge marks ho inside clear below paired taken marks₁.layout).trans run,
        layout, ⟨a, isFree, unseen a wide high, high, wide⟩, fun c isFree x here there => ?_⟩
      refine kept c ?_ x (b.cells_subset_parent here) there
      rw [fewer]
      refine ⟨isFree, ?_⟩
      rintro rfl
      exact Block.buddy_disjoint here there
    · exact _kfree_unpaired marks ho inside clear fun _ => paired

end

/-- Where the buddy is free, no block around the two is. -/
theorem HeapOk.not_around (ok : HeapOk r s A) (paired : b.buddy ∈ freeBlocks r s) {c : Block}
    (sub : b.cells ⊆ c.cells) (above : b.ord < c.ord) : c ∉ freeBlocks r s := by
  intro isFree
  have parent : b.parent.cells ⊆ c.cells :=
    Block.subset_of_meet above (b.cells_subset_parent b.first_mem) (sub b.first_mem)
  have meets : b.buddy.id * 2 ^ b.buddy.ord ∈ c.cells :=
    parent (Block.mem_parent.mpr (.inr b.buddy.first_mem))
  have same := ok.tiles.disjoint _ paired _ isFree _ b.buddy.first_mem meets
  rw [← same, Block.buddy_ord] at above
  exact Nat.lt_irrefl _ above

/-- `_kfree` looks at the bit of the block it gets and at no other. -/
theorem HeapOk._kfree_cases (ok : HeapOk r s A) (ho : IsOrder b.ord)
    (inside : ∀ x ∈ b.cells, x < r.heapLen) :
    (b ∈ freeBlocks r s ∧ _kfree s (r.addr b) b.ord = .error "kfree: double free") ∨
    (b ∉ freeBlocks r s ∧ ∃ s', _kfree s (r.addr b) b.ord = .ok s' ∧ Freed r s b s') := by
  by_cases isFree : b ∈ freeBlocks r s
  · refine .inl ⟨isFree, ?_⟩
    rw [_kfree]
    simp only [mem2blkid_addr ok.marks.layout, shiftRight_eq_div_pow, reducePow,
      available_bit, isFree.2.2, if_true]
  · refine .inr ⟨isFree, ?_⟩
    by_cases paired : b.buddy ∈ freeBlocks r s
    · refine _kfree_returns ok.marks ho inside fun c sub le => ?_
      rcases Nat.lt_or_eq_of_le le with above | same
      · exact ok.not_around paired sub above
      · rwa [← Block.eq_of_meet same b.first_mem (sub b.first_mem)]
    · exact _kfree_unpaired ok.marks ho inside isFree fun _ => paired

/-- Two free blocks share a byte. -/
def Corrupt (r : Region) (s : Kmem) : Prop :=
  ∃ e ∈ freeExtents r s, ∃ f ∈ freeExtents r s, e ≠ f ∧ ¬ Disjoint (bytes e) (bytes f)

/-- A block with a free byte that is freed without a panic is in two free blocks afterwards. -/
theorem Freed.corrupt {s' : Kmem} (ok : HeapOk r s A) (freed : Freed r s b s') {x : Nat}
    (here : x ∈ b.cells) (free : x ∈ A) : Corrupt r s' := by
  obtain ⟨a, isFree, new, -, wide⟩ := freed.around
  obtain ⟨c, old, there⟩ := ok.tiles.cover x free
  refine ⟨_, (mem_freeExtents freed.layout).mpr ⟨a, isFree, rfl⟩, _,
    (mem_freeExtents freed.layout).mpr ⟨c, freed.kept c old x here there, rfl⟩, fun same => ?_, ?_⟩
  · obtain ⟨addr, ord⟩ := Prod.mk.inj same
    rw [addr_inj ord addr] at new
    exact new old
  · rw [Set.not_disjoint_iff]
    refine ⟨r.startHeap + x, mem_bytes_addr.mpr ?_, mem_bytes_addr.mpr ?_⟩
    · exact ⟨Nat.le_add_right .., by rw [Nat.add_sub_cancel_left]; exact wide here⟩
    · exact ⟨Nat.le_add_right .., by rwa [Nat.add_sub_cancel_left]⟩


/-- For a block of the heap with a free byte, `kfree` panics exactly if that block, with that
order, is one of the free blocks; otherwise it returns, and two free blocks share a byte. -/
theorem kfree_caught_iff (r : Region) (s : Kmem) (L : Finset (Nat × Nat)) (reach : Reachable r s L)
    (p o : Nat) (ho : IsOrder o) (aligned : 2 ^ o ∣ p)
    (inside : bytes (p, o) ⊆ Set.Ico s.startHeap s.stop)
    (free : ∃ y ∈ bytes (p, o), y ∈ freeBytes r s) :
    ((∃ msg, kfree s p o = .error msg) ↔ (p, o) ∈ freeExtents r s) ∧
    ∀ s', kfree s p o = .ok s' → Corrupt r s' := by
  obtain ⟨A, live⟩ := reach.liveOk
  have ok := live.heap
  have lay := ok.marks.layout
  have first : p ∈ bytes (p, o) := ⟨le_rfl, Nat.lt_add_of_pos_right (Nat.two_pow_pos o)⟩
  have above : r.startHeap ≤ p := lay.startHeap ▸ (inside first).1
  obtain ⟨k, rfl⟩ := exists_block r ho.2 aligned above
  obtain ⟨b, isB⟩ : ∃ b : Block, b = ⟨o, k⟩ := ⟨_, rfl⟩
  obtain rfl : b.ord = o := by rw [isB]
  rw [← isB] at inside free ⊢
  have cells : ∀ x ∈ b.cells, x < r.heapLen := by
    intro x cell
    have byte : r.startHeap + x ∈ bytes (r.addr b, b.ord) :=
      mem_bytes_addr.mpr ⟨Nat.le_add_right .., by rwa [Nat.add_sub_cancel_left]⟩
    have below := (inside byte).2
    rw [lay.stop] at below
    exact lt_of_lt_of_le (show x < r.stop - r.startHeap by omega) (le_alignUp (by decide) _)
  have isFree : (r.addr b, b.ord) ∈ freeExtents r s ↔ b ∈ freeBlocks r s := by
    rw [mem_freeExtents lay]
    constructor
    · rintro ⟨c, isFree, same⟩
      obtain ⟨addr, ord⟩ := Prod.mk.inj same
      rwa [addr_inj ord addr]
    · exact fun isFree => ⟨b, isFree, rfl⟩
  rw [kfree_eq r s ho, isFree]
  rcases ok._kfree_cases ho cells with ⟨seen, panics⟩ | ⟨unseen, s₁, run, freed⟩
  · rw [panics]
    refine ⟨⟨fun _ => seen, fun _ => ⟨_, rfl⟩⟩, ?_⟩
    rintro s' ⟨⟩
  · rw [run]
    refine ⟨⟨?_, fun seen => absurd seen unseen⟩, ?_⟩
    · rintro ⟨msg, ⟨⟩⟩
    · rintro s' ⟨⟩
      obtain ⟨y, byte, isFree⟩ := free
      exact freed.corrupt ok (mem_bytes_addr.mp byte).2 (ok.mem_freeBytes.mp isFree).2

/-- Right after boot the first page of the heap is free, and `kfree` of it panics. -/
theorem kfree_page_caught : ∃ s p, Reachable bootRegion s ∅ ∧ (p, 12) ∈ freeExtents bootRegion s ∧
    ((∃ msg, kfree s p 12 = .error msg) ↔ (p, 12) ∈ freeExtents bootRegion s) ∧
    ∀ s', kfree s p 12 = .ok s' → Corrupt bootRegion s' := by
  obtain ⟨s, init, ok⟩ := kmemInit2_spec bootRegion
    ⟨0, 0, 0, fun _ => ⟨0, 0⟩, fun _ => ⟨0#32, 0#32⟩⟩
  have reach : Reachable bootRegion s ∅ := .init init
  have lay := ok.marks.layout
  have room : (⟨maxOrd, 0⟩ : Block).cells ⊆ Set.Iio bootRegion.heapLen :=
    top_block_inside (by decide)
  have isFree : (⟨maxOrd, 0⟩ : Block) ∈ freeBlocks bootRegion s :=
    (mem_iff_maximal ok.tiles ok.reduced (fun d hd => hd.1) _).mpr
      ⟨⟨by decide, le_rfl⟩, room, .inl rfl⟩
  have extent : (bootRegion.addr ⟨maxOrd, 0⟩, 12) ∈ freeExtents bootRegion s :=
    (mem_freeExtents lay).mpr ⟨_, isFree, rfl⟩
  have aligned : 2 ^ 12 ∣ bootRegion.addr ⟨maxOrd, 0⟩ := by decide
  have inside : bytes (bootRegion.addr ⟨maxOrd, 0⟩, 12) ⊆ Set.Ico s.startHeap s.stop := by
    intro y byte
    obtain ⟨above, cell⟩ := (mem_bytes_addr (b := ⟨maxOrd, 0⟩)).mp byte
    have below : y - bootRegion.startHeap < bootRegion.heapLen := room cell
    rw [bootRegion_aligned.heapLen_eq] at below
    rw [lay.startHeap, lay.stop]
    exact ⟨above, by omega⟩
  have first : bootRegion.addr ⟨maxOrd, 0⟩ ∈ bytes (bootRegion.addr ⟨maxOrd, 0⟩, 12) :=
    ⟨le_rfl, Nat.lt_add_of_pos_right (Nat.two_pow_pos 12)⟩
  exact ⟨s, _, reach, extent, kfree_caught_iff bootRegion s ∅ reach _ 12 (by decide) aligned inside
    ⟨_, first, _, extent, first⟩⟩

/-- A block of the smallest order, allocated, freed and freed again: the second `kfree` returns. -/
theorem double_free_missed : ∃ s₀ s₁ s₂ s₃ p, Reachable bootRegion s₀ ∅ ∧
    kmalloc s₀ 6 = .ok (s₁, some p) ∧ kfree s₁ p 6 = .ok s₂ ∧ kfree s₂ p 6 = .ok s₃ ∧
    Corrupt bootRegion s₃ := by
  obtain ⟨s₀, init, ok⟩ := kmemInit2_spec bootRegion
    ⟨0, 0, 0, fun _ => ⟨0, 0⟩, fun _ => ⟨0#32, 0#32⟩⟩
  have ho : IsOrder 6 := by decide
  obtain ⟨j, s₁, run₁, sub, ok₁⟩ := ok.kmalloc_some (k := 0) ho (top_block_inside (by decide))
  obtain ⟨b, isB⟩ : ∃ b : Block, b = ⟨6, j⟩ := ⟨_, rfl⟩
  have ord : b.ord = 6 := by rw [isB]
  have order : IsOrder b.ord := ord ▸ ho
  rw [← isB] at run₁ sub ok₁
  obtain ⟨s₂, run₂, ok₂, -⟩ := _kfree_spec ok₁ order sub fun x here free => free.2 here
  rw [Set.sdiff_union_of_subset sub] at ok₂
  -- everything is free again, in blocks of the highest order
  have merged : b ∉ freeBlocks bootRegion s₂ := by
    intro isFree
    obtain ⟨-, -, top | cut⟩ := (mem_iff_maximal ok₂.tiles ok₂.reduced (fun d hd => hd.1) b).mp isFree
    · rw [ord] at top
      exact absurd top (by decide)
    · refine cut fun x inside => ?_
      have low : b.parent.ord ≤ maxOrd := by
        rw [Block.parent_ord, ord]
        decide
      exact cells_lt_heapLen low (b.cells_subset_parent b.first_mem) (sub b.first_mem) x inside
  rcases ok₂._kfree_cases order sub with ⟨isFree, -⟩ | ⟨-, s₃, run₃, freed⟩
  · exact absurd isFree merged
  · rw [← kfree_eq bootRegion _ order, ord] at run₂ run₃
    exact ⟨s₀, s₁, s₂, s₃, _, .init init, run₁, run₂, run₃,
      freed.corrupt ok₂ b.first_mem (sub b.first_mem)⟩

end

/-! ### The order of a request -/

/-- Every bit of `x` is set if one of the `w` bits of `v` from it on is. -/
def Spread (v x : BitVec 32) (w : Nat) : Prop :=
  ∀ i, x.getLsbD i = true ↔ ∃ d < w, v.getLsbD (i + d) = true

theorem Spread.double {v x : BitVec 32} {w : Nat} (spread : Spread v x w) :
    Spread v (x ||| x >>> w) (w + w) := by
  intro i
  rw [BitVec.getLsbD_or, BitVec.getLsbD_ushiftRight, Bool.or_eq_true, spread i, spread (w + i)]
  constructor
  · rintro (⟨d, small, set⟩ | ⟨d, small, set⟩)
    · exact ⟨d, by omega, set⟩
    · exact ⟨w + d, by omega, by rwa [← Nat.add_assoc, Nat.add_comm i]⟩
  · rintro ⟨d, small, set⟩
    by_cases near : d < w
    · exact .inl ⟨d, near, set⟩
    · exact .inr ⟨d - w, by omega, by rwa [show w + i + (d - w) = i + d by omega]⟩

theorem spread_smear (v : BitVec 32) : Spread v (smear v) 32 := by
  have start : Spread v v 1 := by
    intro i
    simp
  exact start.double.double.double.double.double

theorem smear_toNat {v : BitVec 32} (pos : 1 ≤ v.toNat) :
    (smear (v - 1)).toNat = 2 ^ clog 2 v.toNat - 1 := by
  have pred : (v - 1).toNat = v.toNat - 1 := by bv_omega
  apply eq_of_testBit_eq
  intro i
  rw [testBit_two_pow_sub_one, ← BitVec.getLsbD, Bool.eq_iff_iff, spread_smear (v - 1) i,
    decide_eq_true_iff, lt_clog_iff_pow_lt (by decide)]
  constructor
  · rintro ⟨d, -, set⟩
    have large := ge_two_pow_of_testBit set
    have := Nat.pow_le_pow_right (show 0 < 2 by decide) (Nat.le_add_right i d)
    omega
  · intro less
    obtain ⟨j, above, set⟩ :=
      exists_ge_and_testBit_of_ge_two_pow (show (v - 1).toNat ≥ 2 ^ i by omega)
    have small : j < 32 := BitVec.lt_of_getLsbD set
    exact ⟨j - i, by omega, by rwa [add_sub_of_le above]⟩

/-- The round-up is the next power of two, or 0 if that does not fit. -/
theorem roundUp_toNat (v : BitVec 32) : (smear (v - 1) + 1).toNat =
    if 1 ≤ v.toNat then 2 ^ clog 2 v.toNat % 2 ^ 32 else 0 := by
  split_ifs with pos
  · have := Nat.two_pow_pos (clog 2 v.toNat)
    rw [BitVec.toNat_add, smear_toNat pos]
    congr 1
    simp
    omega
  · have zero : v = 0 := by bv_omega
    rw [zero]
    rfl

/-- The search for the lowest set bit. -/
theorem lowest_bit {w : BitVec 32} {c : Nat} (small : c ≤ 32) (power : w.toNat = 2 ^ c % 2 ^ 32) :
    ((List.range 32).find? fun ord => w &&& (1#32 <<< ord) != 0#32).getD 32 = c := by
  have bits : ∀ i < 32, w.getLsbD i = decide (i = c) := by
    intro i inside
    rw [BitVec.getLsbD, power, testBit_mod_two_pow, testBit_two_pow]
    simp [inside, eq_comm]
  rcases Nat.lt_or_eq_of_le small with less | rfl
  · rw [List.find?_range_eq_some.mpr ⟨?_, List.mem_range.mpr less, ?_⟩, Option.getD_some]
    · rw [test_bit_eq w less, bits c less]
      simp
    · intro j below
      rw [test_bit_eq w (by omega), bits j (by omega)]
      simp
      omega
  · rw [List.find?_range_eq_none.mpr, Option.getD_none]
    intro i inside
    rw [test_bit_eq w inside, bits i inside]
    simp
    omega

theorem getOrder_eq (v : BitVec 32) : getOrder v =
    if 1 ≤ v.toNat ∧ v.toNat ≤ 4096 then .ok (max 6 (clog 2 v.toNat))
    else .error "order too big!" := by
  by_cases pos : 1 ≤ v.toNat
  · have small : clog 2 v.toNat ≤ 32 := clog_le_of_le_pow (by omega)
    have range : clog 2 v.toNat ≤ 12 ↔ v.toNat ≤ 2 ^ 12 := clog_le_iff_le_pow Nat.one_lt_two
    rw [getOrder, lowest_bit small (by rw [roundUp_toNat, if_pos pos])]
    simp only [minOrd, maxOrd]
    split_ifs <;> grind
  · rw [getOrder, lowest_bit le_rfl (by rw [roundUp_toNat, if_neg pos]; rfl), if_neg (by decide),
      if_pos (by decide), if_neg fun fits => pos fits.1]

/-- `getOrder` gives the least order of blocks that hold `v` bytes and panics if there is none; a
block of that order has them, and is freed by the same order. -/
theorem getOrder_exact (v : BitVec 32) :
    (1 ≤ v.toNat ∧ v.toNat ≤ 4096 → ∃ o, getOrder v = .ok o ∧ 6 ≤ o ∧ o ≤ 12 ∧ v.toNat ≤ 2 ^ o ∧
      (∀ o', 6 ≤ o' → v.toNat ≤ 2 ^ o' → o ≤ o') ∧
      ∀ r s L, Reachable r s L → ∀ s' p, kmalloc s o = .ok (s', some p) →
        Set.Ico p (p + v.toNat) ⊆ bytes (p, o) ∧ ∃ s'', kfree s' p o = .ok s'') ∧
    (¬ (1 ≤ v.toNat ∧ v.toNat ≤ 4096) → getOrder v = .error "order too big!") := by
  constructor
  · intro fits
    have top : Nat.clog 2 v.toNat ≤ 12 := Nat.clog_le_of_le_pow fits.2
    have enough : v.toNat ≤ 2 ^ max 6 (Nat.clog 2 v.toNat) :=
      (Nat.clog_le_iff_le_pow (by decide)).mp (le_max_right ..)
    refine ⟨max 6 (Nat.clog 2 v.toNat), by rw [getOrder_eq, if_pos fits], le_max_left ..,
      max_le (by decide) top, enough, fun o' low holds => max_le low ?_, ?_⟩
    · exact Nat.clog_le_of_le_pow holds
    · intro r s L reach s' p run
      have order : IsOrder (max 6 (Nat.clog 2 v.toNat)) :=
        ⟨le_max_left .., max_le (by decide) top⟩
      exact ⟨Set.Ico_subset_Ico_right (Nat.add_le_add_left enough p),
        (reach.malloc order run).kfree_ok (Finset.mem_insert_self ..)⟩
  · intro outside
    rw [getOrder_eq, if_neg outside]

end BuddyHeap
