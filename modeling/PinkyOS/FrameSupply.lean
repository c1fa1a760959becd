import PinkyOS.HeapFrames
import PinkyOS.TableAccounting

/-!
# Frames and tables at hand

How many frames there can be for pages to come, what taking one of them leaves alone, and how the
heap can be arranged beside the frames and the tables that a process has.
-/
namespace TableMemory
open MemoryLayout BuddyHeap UserMemory Ledger PageTablePool PageTableWords Finset

/-- Everything taken from the store is back, and what was not free has kept its bytes. -/
structure Released (k k' : Store) : Prop where
  pages : k'.vm.pages = k.vm.pages
  tables : k'.tables = k.tables
  blocks : freeExtents bootRegion k'.vm.heap = freeExtents bootRegion k.vm.heap
  freelist : k'.freelist.Perm k.freelist
  mem : ∀ x, Outside k.freelist x → x ∉ freeBytes bootRegion k.vm.heap →
    k'.vm.mem x = k.vm.mem x

/-- How many pages there are from `a` to the end of the last page of `[0, sz)`. -/
def pagesFrom (a sz : Nat) : Nat := (alignUp sz pteSz - a) / pteSz

section
variable {rest : Finset (Nat × Nat)} {slots : Set Nat} {k k' : Store} {sz a : Nat}

theorem pagesFrom_succ (aligned : pteSz ∣ a) (more : a < sz) :
    pagesFrom a sz = pagesFrom (a + pteSz) sz + 1 := by
  have next := next_le_alignUp aligned more
  rw [pagesFrom, pagesFrom]
  rw [pteSz_eq] at next ⊢
  omega

variable {n p : Nat} {v : Vm} {bs : List UInt8}

theorem pages_left {c : Nat} (aligned : pteSz ∣ a) (more : a < sz) (room : c + 1 ≤ n) :
    min (pagesFrom a sz) (n - c) = min (pagesFrom (a + pteSz) sz) (n - (c + 1)) + 1 := by
  rw [pagesFrom_succ aligned more]
  omega

theorem lt_of_pagesFrom (aligned : pteSz ∣ a) (more : 0 < pagesFrom a sz) : a < sz := by
  by_contra done
  have top : alignUp sz pteSz ≤ a :=
    (alignUp_le_iff (by decide) aligned sz).mpr (Nat.le_of_not_lt done)
  rw [pagesFrom, Nat.sub_eq_zero_of_le top] at more
  cases more

theorem first_page (aligned : pteSz ∣ a) (more : a < sz) : a / pteSz ∈ pagesIn a sz := by
  rw [mem_pagesIn, Nat.div_mul_cancel aligned]
  exact ⟨le_rfl, more⟩

/-- The first number of pages that asks for more than there is. -/
theorem exists_first {f : Nat → Nat} {len m : Nat} (short : len < f m) :
    ∃ n ≤ m, len < f n ∧ ∀ l < n, f l ≤ len := by
  have some : ∃ n, len < f n := ⟨m, short⟩
  refine ⟨Nat.find some, Nat.find_min' some short, Nat.find_spec some, fun l before => ?_⟩
  exact Nat.le_of_not_lt (Nat.find_min some before)

theorem lt_pagesFrom_zero (n sz : Nat) : n < pagesFrom 0 sz ↔ n * pteSz < sz := by
  rw [← page_lt_alignUp, pagesFrom, Nat.sub_zero]
  have aligned : pteSz ∣ alignUp sz pteSz := alignUp_dvd ..
  rw [pteSz_eq] at aligned ⊢
  omega

section
variable (stocked : Stocked rest slots k) (stocked' : Stocked rest slots k')
include stocked stocked'

/-- Frames and tables of the heap in use determine its free blocks. -/
theorem Stocked.same_blocks
    (pages : k'.vm.pages = k.vm.pages) (tables : heapTables k'.tables = heapTables k.tables) :
    freeExtents bootRegion k'.vm.heap = freeExtents bootRegion k.vm.heap := by
  have live : k'.vm.live = k.vm.live := by
    ext e
    rw [stocked.sound.live, stocked'.sound.live, pages, tables]
  exact stocked'.sound.heap.freeExtents_eq (live ▸ stocked.sound.heap)

/-- Tables in use determine the free list up to its order. -/
theorem Stocked.same_list (tables : k'.tables = k.tables) : k'.freelist.Perm k.freelist := by
  have free : ∀ {k : Store}, Stocked rest slots k → ∀ u, u ∈ k.freelist ↔
      u ∈ slots ∧ u ∉ k.tables := by
    intro k stocked u
    constructor
    · exact fun listed => ⟨(stocked.pool u).mpr (.inl listed), stocked.idle u listed⟩
    · rintro ⟨slot, unused⟩
      exact ((stocked.pool u).mp slot).resolve_right fun h => unused h.1
  refine (List.perm_ext_iff_of_nodup stocked'.nodup stocked.nodup).mpr fun u => ?_
  rw [free stocked, free stocked', tables]

theorem Stocked.released (pages : k'.vm.pages = k.vm.pages) (tables : k'.tables = k.tables)
    (mem : ∀ x, Outside k.freelist x → x ∉ freeBytes bootRegion k.vm.heap →
      k'.vm.mem x = k.vm.mem x) : Released k k' :=
  ⟨pages, tables, stocked.same_blocks stocked' pages (by rw [tables]),
    stocked.same_list stocked' tables, mem⟩

end

/-! ### Frames -/

theorem frame_of_page (sound : Sound rest v) (used : p ∈ v.pages) :
    ∃ i < bootRegion.frameCount, (p, pteShift) = bootRegion.frame i :=
  sound.heap.frame_of (sound.page used) rfl

theorem few_pages (sound : Sound rest v) : v.pages.card ≤ bootRegion.frameCount := by
  have sub : v.pages ⊆ (range bootRegion.frameCount).image fun i =>
      (bootRegion.frame i).1 := by
    intro p used
    obtain ⟨i, less, isFrame⟩ := frame_of_page sound used
    exact mem_image.mpr ⟨i, mem_range.mpr less, (congrArg Prod.fst isFrame).symm⟩
  exact (card_le_card sub).trans (card_image_le.trans (card_range _).le)

/-- The heap is smaller than the address space of a process. -/
theorem frameCount_lt : pteSz * bootRegion.frameCount < uaddrSz := by
  have inside : pteSz * bootRegion.frameCount ≤ bootRegion.heapLen := Nat.mul_div_le ..
  have span : bootRegion.heapLen < uaddrSz := by decide
  omega

theorem p2v_frame {rest : Finset (Nat × Nat)} (sound : Sound rest v)
    (used : p ∈ v.pages) : p2v (v2p p % 2 ^ 32) = p := by
  obtain ⟨above, below⟩ := sound.bounds used
  rw [p2v, v2p, Nat.mod_eq_of_lt (by omega)]
  omega

/-- A frame that `alloc_page` returns was free. -/
theorem allocPage_bytes {v' : Vm} (sound : Sound rest v) (run : allocPage v = .ok (v', some p)) :
    bytes (p, pteShift) ⊆ freeBytes bootRegion v.heap ∧
      freeBytes bootRegion v'.heap ⊆ freeBytes bootRegion v.heap := by
  rw [allocPage] at run
  split at run
  case h_1 heap q taken =>
    cases run
    exact sound.heap.kmalloc_bytes isOrder_pteShift taken
  case h_2 => cases run
  case h_3 => cases run

theorem Stocked.taken {mem : Nat} (stocked : Stocked rest slots k)
    (run : allocPage k.vm = .ok (v, some mem)) : Stocked rest slots { k with vm := v } := by
  obtain ⟨sound, -⟩ := (allocPage_ends stocked.sound).of_ok run
  exact ⟨sound, stocked.apart, stocked.low, stocked.pool, stocked.nodup, stocked.idle⟩

/-- The bytes of a frame in use are neither free nor in a free table. -/
theorem Stocked.in_use (stocked : Stocked rest slots k) {x : Nat} (used : p ∈ k.vm.pages)
    (inside : x ∈ bytes (p, pteShift)) :
    Outside k.freelist x ∧ x ∉ freeBytes bootRegion k.vm.heap := by
  refine ⟨stocked.outside ?_, stocked.sound.heap.not_free (stocked.sound.page used) inside⟩
  exact (bootRegion.start_le_startHeap.trans
    (stocked.sound.heap.inside (stocked.sound.page used)).1).trans inside.1

theorem read_eq {v' : Vm} (same : ∀ x ∈ bytes (p, pteShift), v'.mem x = v.mem x) :
    v'.read p pteSz = v.read p pteSz := by
  rw [Vm.read, Vm.read, List.map_inj_left]
  intro i inside
  exact same _ ⟨Nat.le_add_right .., Nat.add_lt_add_left (List.mem_range.mp inside) _⟩

/-! ### One more page -/

/-- One page was copied from the store `k` to the frame at `p`, and the store is now `k₁`. -/
structure Step (k k₁ : Store) (p : Nat) (bs : List UInt8) : Prop where
  free : bytes (p, pteShift) ⊆ freeBytes bootRegion k.vm.heap
  less : freeBytes bootRegion k₁.vm.heap ⊆ freeBytes bootRegion k.vm.heap
  list : k₁.freelist ⊆ k.freelist
  pages : k₁.vm.pages = insert p k.vm.pages
  card : k₁.vm.pages.card = k.vm.pages.card + 1
  written : k₁.vm.read p pteSz = bs
  mem : ∀ x, Outside k.freelist x → x ∉ bytes (p, pteShift) → k₁.vm.mem x = k.vm.mem x

theorem not_mem_frame {b q : Nat} : b ∉ bytes (q, pteShift) ↔ b < q ∨ q + pteSz ≤ b := by
  rw [bytes, Set.mem_Ico, not_and_or, Nat.not_le, Nat.not_lt]
  rfl

theorem Took.step (stocked : Stocked rest slots k)
    (run : allocPage k.vm = .ok (v, some p)) (whole : bs.length = pteSz)
    (took : Took n { k with vm := v.write p bs } k') : Step k k' p bs := by
  obtain ⟨sound, fresh, pages, -⟩ := (allocPage_ends stocked.sound).of_ok run
  obtain ⟨free, less⟩ := allocPage_bytes stocked.sound run
  have pages' : k'.vm.pages = insert p k.vm.pages := took.pages.trans pages
  have high : ∀ x ∈ bytes (p, pteShift), Outside k.freelist x := by
    intro x inside
    have used : p ∈ v.pages := pages ▸ mem_insert_self ..
    refine stocked.outside ((bootRegion.start_le_startHeap.trans ?_).trans inside.1)
    exact (sound.heap.inside (sound.page used)).1
  constructor
  case free => exact free
  case less =>
    rw [took.heap]
    exact less
  case list => exact took.fewer
  case pages => exact pages'
  case card => rw [pages', card_insert_of_notMem fresh]
  case written =>
    have written := read_write_self v p bs
    rw [whole] at written
    rw [← written]
    exact read_eq fun x inside => took.mem x (high x inside)
  case mem =>
    intro x outside away
    rw [took.mem x outside]
    dsimp only
    rw [mem_write_outside, allocPage_mem run]
    rw [whole]
    exact not_mem_frame.mp away

theorem Step.outside {k₁ : Store} {x : Nat} (step : Step k k₁ p bs)
    (outside : Outside k.freelist x) : Outside k₁.freelist x := fun u free =>
  outside u (step.list free)

theorem Step.kept {k₁ : Store} {q : Nat} (step : Step k k₁ p bs)
    (stocked : Stocked rest slots k) (used : q ∈ k.vm.pages) :
    k₁.vm.read q pteSz = k.vm.read q pteSz := by
  refine read_eq fun x inside => ?_
  obtain ⟨outside, busy⟩ := stocked.in_use used inside
  exact step.mem x outside fun h => busy (step.free h)

/-! ### Arrangements -/

/-- In a heap of frames with one frame left, a page can be had. -/
theorem Stocked.some_page (stocked : Stocked rest slots k) (tops : ∀ e ∈ k.vm.live, e.2 = maxOrd)
    (left : k.vm.live.card < bootRegion.frameCount) :
    ∃ v p, allocPage k.vm = .ok (v, some p) ∧ (∀ e ∈ v.live, e.2 = maxOrd) ∧
      v.live.card = k.vm.live.card + 1 := by
  obtain ⟨j, heap, run, idle, -⟩ := stocked.sound.heap.some_frame tops left
  have taken : kmalloc k.vm.heap pteShift = .ok (heap, some (bootRegion.frame j).1) := run
  refine ⟨_, _, by rw [allocPage, taken], fun e live => ?_, card_insert_of_notMem idle⟩
  rcases mem_insert.mp live with rfl | live
  · rfl
  · exact tops e live

/-- The store `k'` has the free list and the boot tables of `k`; its heap consists of frames, the
frames `keep` are in use and `n` frames are free. -/
structure Arranged (slots : Set Nat) (k : Store) (keep : Finset Nat) (n : Nat) (k' : Store) :
    Prop where
  stocked : Stocked ∅ slots k'
  freelist : k'.freelist = k.freelist
  tables : k'.tables = k.tables.filter (· < p2v initKernmap)
  mem : k'.vm.mem = k.vm.mem
  kept : keep ⊆ k'.vm.pages
  tops : ∀ e ∈ k'.vm.live, e.2 = maxOrd
  left : k'.vm.live.card + n = bootRegion.frameCount

theorem Stocked.arrange (stocked : Stocked rest slots k) {keep : Finset Nat}
    (sub : keep ⊆ k.vm.pages) (room : n + keep.card ≤ bootRegion.frameCount) :
    ∃ k', Arranged slots k keep n k' := by
  let start : Nat → Nat := fun i => (bootRegion.frame i).1
  let all := range bootRegion.frameCount
  let inside := all.filter fun i => start i ∈ keep
  have inj : Function.Injective start := fun i j same =>
    frame_injective bootRegion (Prod.ext same rfl)
  have few : inside.card ≤ keep.card := by
    rw [← card_image_of_injective inside inj]
    refine card_le_card fun p listed => ?_
    obtain ⟨i, hi, rfl⟩ := mem_image.mp listed
    exact (mem_filter.mp hi).2
  have many : n ≤ (all \ inside).card := by
    rw [card_sdiff_of_subset (filter_subset _ _), card_range]
    exact Nat.le_sub_of_add_le ((Nat.add_le_add_left few n).trans room)
  obtain ⟨D, away, size⟩ := exists_subset_card_eq many
  have sub' : all \ D ⊆ all := sdiff_subset
  obtain ⟨heap, reach⟩ := exists_heap bootRegion sub'
  refine ⟨⟨⟨heap, k.vm.mem, (all \ D).image bootRegion.frame, (all \ D).image start⟩, k.freelist,
    k.tables.filter (· < p2v initKernmap)⟩, ?_, rfl, rfl, rfl, fun p used => ?_, tops_image _, ?_⟩
  · have none : heapTables (k.tables.filter (· < p2v initKernmap)) = ∅ := by
      refine eq_empty_of_forall_notMem fun e listed => ?_
      obtain ⟨table, high, -⟩ := mem_heapTables.mp listed
      exact absurd (mem_filter.mp table).2 (Nat.not_lt.mpr high)
    constructor
    case sound =>
      dsimp only
      rw [none, union_empty]
      refine ⟨reach, fun e => ?_, nofun⟩
      dsimp only
      rw [mem_image, mem_image]
      constructor
      · rintro ⟨i, listed, rfl⟩
        exact .inr ⟨rfl, i, listed, rfl⟩
      · rintro (⟨⟨⟩⟩ | ⟨order, i, listed, same⟩)
        exact ⟨i, listed, Prod.ext same order.symm⟩
    case apart => exact disjoint_empty_left _
    case low => exact stocked.low
    case pool =>
      intro t
      rw [stocked.pool, mem_filter]
      exact or_congr_right ⟨fun h => ⟨h, h.2⟩, fun h => h.1⟩
    case nodup => exact stocked.nodup
    case idle => exact fun t free used => stocked.idle t free (mem_filter.mp used).1
  · obtain ⟨i, less, isFrame⟩ := frame_of_page stocked.sound (sub used)
    have same : p = start i := congrArg Prod.fst isFrame
    have listed : i ∈ all := mem_range.mpr less
    refine mem_image.mpr ⟨i, mem_sdiff.mpr ⟨listed, fun gone => ?_⟩, same.symm⟩
    exact (mem_sdiff.mp (away gone)).2 (mem_filter.mpr ⟨listed, same ▸ used⟩)
  · dsimp only
    rw [card_image_of_injective _ (frame_injective bootRegion),
      card_sdiff_of_subset (away.trans sdiff_subset), size, card_range]
    exact Nat.sub_add_cancel ((Nat.le_add_right ..).trans room)

end

/-- The frames of the first `n` pages. -/
def framesOf (d : Pgd) (n : Nat) : Finset Nat :=
  ((List.range n).filterMap fun i => (getPte d (i * pteSz)).map fun e => p2v e.pa).toFinset

theorem mem_framesOf {d : Pgd} {n p : Nat} :
    p ∈ framesOf d n ↔ ∃ i < n, ∃ e, getPte d (i * pteSz) = some e ∧ p2v e.pa = p := by
  simp only [framesOf, List.mem_toFinset, List.mem_filterMap, List.mem_range, Option.map_eq_some_iff]

/-- A store whose free list is a number of slots of the pool, with no table in use. -/
theorem stocked_slots {rest : Finset (Nat × Nat)} {v : Vm} (sound : Sound rest v) {n : Nat}
    (few : n ≤ 64) : Stocked rest {t | t ∈ (List.range n).map fun i => smallImage.kend + i * ptSz}
      ⟨v, (List.range n).map fun i => smallImage.kend + i * ptSz, ∅⟩ := by
  have none : heapTables ∅ = ∅ := by
    refine eq_empty_of_forall_notMem fun e listed => ?_
    cases (mem_heapTables.mp listed).1
  constructor
  case sound => rwa [none, union_empty]
  case apart =>
    rw [none]
    exact disjoint_empty_right _
  case low =>
    intro t slot
    obtain ⟨i, less, rfl⟩ := List.mem_map.mp slot
    exact (smallImage_slot ((List.mem_range.mp less).trans_le few)).below
  case pool => exact fun t => ⟨.inl, fun h => h.resolve_right nofun⟩
  case nodup =>
    refine List.nodup_range.map fun i j same => ?_
    exact Nat.eq_of_mul_eq_mul_right (by decide) (Nat.add_left_cancel same)
  case idle => exact fun t _ => notMem_empty t

end TableMemory
