import PinkyOS.BuddyGuarantees

/-!
# Arrangements of the heap

What `kmalloc` finds depends only on the live blocks. A block that meets none of them is vacant;
`kmalloc` returns a vacant block of the order asked for if there is one. The blocks of the highest
order, the frames, can be live in every combination.
-/
namespace BuddyHeap
open DyadicTiling Finset

/-- The block lies in the heap and meets no live block. -/
def Vacant (r : Region) (L : Finset (Nat × Nat)) (b : Block) : Prop :=
  ∀ x ∈ b.cells, x < r.heapLen ∧ ∀ c : Block, (r.addr c, c.ord) ∈ L → x ∉ c.cells

def Region.frame (r : Region) (i : Nat) : Nat × Nat := (r.addr ⟨maxOrd, i⟩, maxOrd)

def Region.frameCount (r : Region) : Nat := r.heapLen / 2 ^ maxOrd

section
variable {r : Region} {s : Kmem} {L : Finset (Nat × Nat)} {A : Set Nat} {b : Block} {o i j : Nat}

theorem LiveOk.vacant_iff (h : LiveOk r s L A) : Vacant r L b ↔ b.cells ⊆ A := by
  constructor
  · intro vacant x inside
    obtain ⟨less, apart⟩ := vacant x inside
    by_contra notFree
    obtain ⟨c, live, meets⟩ := h.live.cover x ⟨less, notFree⟩
    exact apart c live meets
  · intro free x inside
    refine ⟨h.heap.inside x (free inside), fun c live meets => ?_⟩
    exact (h.live.inside c live meets).2 (free inside)

section
variable (reach : Reachable r s L)
include reach

/-- `kmalloc` returns a vacant block if there is one of its order. -/
theorem Reachable.kmalloc_vacant (ho : IsOrder o) (vacant : Vacant r L ⟨o, i⟩) :
    ∃ j s', kmalloc s o = .ok (s', some (r.addr ⟨o, j⟩)) ∧ Vacant r L ⟨o, j⟩ := by
  obtain ⟨A, h⟩ := reach.liveOk
  rw [kmalloc_eq s ho]
  rcases _kmalloc_spec h.heap ho with ⟨-, small⟩ | ⟨j, s', run, sub, -⟩
  · exact absurd ⟨_, (h.heap.freeRegion_iff ho).mpr ⟨i, rfl, h.vacant_iff.mp vacant⟩⟩
      (h.heap.no_region ho small)
  · exact ⟨j, s', run, h.vacant_iff.mpr sub⟩

theorem Reachable.kmalloc_full (ho : IsOrder o)
    (full : ∀ j, ¬ Vacant r L ⟨o, j⟩) : kmalloc s o = .ok (s, none) := by
  obtain ⟨A, h⟩ := reach.liveOk
  rw [kmalloc_eq s ho]
  rcases _kmalloc_spec h.heap ho with ⟨run, -⟩ | ⟨j, s', run, sub, -⟩
  · exact run
  · exact absurd (h.vacant_iff.mpr sub) (full j)

/-- A block that `kmalloc` returns was free, and nothing becomes free. -/
theorem Reachable.kmalloc_bytes {s' : Kmem} {p : Nat} (ho : IsOrder o)
    (run : kmalloc s o = .ok (s', some p)) :
    bytes (p, o) ⊆ freeBytes r s ∧ freeBytes r s' ⊆ freeBytes r s := by
  obtain ⟨A, h⟩ := reach.liveOk
  rw [kmalloc_eq s ho] at run
  rcases _kmalloc_spec h.heap ho with ⟨none, -⟩ | ⟨j, s₁, some, sub, ok, -⟩
  · rw [none] at run
    cases run
  · rw [some] at run
    cases run
    refine ⟨h.heap.bytes_subset_iff.mpr sub, ?_⟩
    rw [h.heap.freeBytes_sdiff ok]
    exact Set.sdiff_subset

theorem Reachable.not_free {e : Nat × Nat} (live : e ∈ L) {y : Nat}
    (inside : y ∈ bytes e) : y ∉ freeBytes r s := by
  obtain ⟨A, h⟩ := reach.liveOk
  rintro ⟨f, free, meets⟩
  exact Set.disjoint_left.mp (h.live_free_disjoint live free) inside meets

end

/-! ### Frames -/

theorem isOrder_maxOrd : IsOrder maxOrd := ⟨by decide, le_rfl⟩

theorem frame_injective (r : Region) : Function.Injective r.frame := by
  intro i j same
  have start : r.addr ⟨maxOrd, i⟩ = r.addr ⟨maxOrd, j⟩ := congrArg Prod.fst same
  exact congrArg Block.id (addr_inj (b := ⟨maxOrd, i⟩) (c := ⟨maxOrd, j⟩) rfl start)

theorem lt_frameCount (r : Region) : i < r.frameCount ↔ i * 2 ^ maxOrd < r.heapLen := by
  obtain ⟨q, exactly⟩ := r.heapLen_aligned
  rw [Region.frameCount, exactly, Nat.mul_div_cancel_left _ (Nat.two_pow_pos _), Nat.mul_comm,
    Nat.mul_lt_mul_left (Nat.two_pow_pos _)]

theorem Vacant.frame_lt (vacant : Vacant r L ⟨maxOrd, i⟩) : i < r.frameCount :=
  (lt_frameCount r).mpr (vacant _ (Block.first_mem ⟨maxOrd, i⟩)).1

theorem Vacant.frame_notMem (vacant : Vacant r L ⟨maxOrd, i⟩) : r.frame i ∉ L := fun live =>
  (vacant _ (Block.first_mem ⟨maxOrd, i⟩)).2 ⟨maxOrd, i⟩ live (Block.first_mem _)

/-- Among frames, one that is not live is vacant. -/
theorem vacant_frame (tops : ∀ e ∈ L, e.2 = maxOrd) (less : i < r.frameCount)
    (idle : r.frame i ∉ L) : Vacant r L ⟨maxOrd, i⟩ := by
  intro x inside
  refine ⟨top_block_inside ((lt_frameCount r).mp less) inside, fun c live meets => idle ?_⟩
  have same : (⟨maxOrd, i⟩ : Block) = c := Block.eq_of_meet (tops _ live).symm inside meets
  rw [← same] at live
  exact live

theorem Reachable.frame_of (reach : Reachable r s L) {e : Nat × Nat} (live : e ∈ L)
    (top : e.2 = maxOrd) : ∃ i < r.frameCount, e = r.frame i := by
  obtain ⟨A, h⟩ := reach.liveOk
  obtain ⟨⟨o, i⟩, -, rfl⟩ := h.blocks e live
  obtain rfl : o = maxOrd := top
  exact ⟨i, (lt_frameCount r).mpr (h.live.inside _ live (Block.first_mem _)).1, rfl⟩

/-- With fewer live blocks than frames, all of them frames, one more can be had. -/
theorem Reachable.some_frame (reach : Reachable r s L) (tops : ∀ e ∈ L, e.2 = maxOrd)
    (few : L.card < r.frameCount) :
    ∃ j s', kmalloc s maxOrd = .ok (s', some (r.frame j).1) ∧ r.frame j ∉ L ∧
      j < r.frameCount := by
  have left : ((range r.frameCount).image r.frame).card = r.frameCount := by
    rw [card_image_of_injective _ (frame_injective r), card_range]
  obtain ⟨e, listed, idle⟩ := exists_mem_notMem_of_card_lt_card (few.trans_eq left.symm)
  obtain ⟨i, less, rfl⟩ := mem_image.mp listed
  obtain ⟨j, s', run, vacant⟩ := reach.kmalloc_vacant isOrder_maxOrd
    (vacant_frame tops (mem_range.mp less) idle)
  exact ⟨j, s', run, vacant.frame_notMem, vacant.frame_lt⟩

/-- With as many live frames as there are, nothing can be had. -/
theorem Reachable.no_room (reach : Reachable r s L) (tops : ∀ e ∈ L, e.2 = maxOrd)
    (all : L.card = r.frameCount) (ho : IsOrder o) : kmalloc s o = .ok (s, none) := by
  have sub : L ⊆ (range r.frameCount).image r.frame := by
    intro e live
    obtain ⟨i, less, rfl⟩ := reach.frame_of live (tops e live)
    exact mem_image_of_mem _ (mem_range.mpr less)
  have every : L = (range r.frameCount).image r.frame := by
    refine eq_of_subset_of_card_le sub ?_
    rw [card_image_of_injective _ (frame_injective r), card_range, all]
  refine reach.kmalloc_full ho fun j vacant => ?_
  obtain ⟨less, apart⟩ := vacant _ (Block.first_mem ⟨o, j⟩)
  refine apart ⟨maxOrd, j * 2 ^ o / 2 ^ maxOrd⟩ ?_ rfl
  have index : j * 2 ^ o / 2 ^ maxOrd < r.frameCount :=
    (lt_frameCount r).mpr ((Nat.div_mul_le_self ..).trans_lt less)
  rw [every]
  exact mem_image_of_mem r.frame (mem_range.mpr index)

theorem tops_image (S : Finset Nat) : ∀ e ∈ S.image r.frame, e.2 = maxOrd := by
  intro e listed
  obtain ⟨i, -, rfl⟩ := mem_image.mp listed
  rfl

/-- Frames are taken until the given number is live. -/
theorem exists_live_frames (r : Region) {n : Nat} (few : n ≤ r.frameCount) :
    ∃ s S, Reachable r s (S.image r.frame) ∧ S ⊆ range r.frameCount ∧ S.card = n := by
  induction n with
  | zero =>
    obtain ⟨s, init, -⟩ := kmemInit2_spec r ⟨0, 0, 0, fun _ => ⟨0, 0⟩, fun _ => ⟨0#32, 0#32⟩⟩
    exact ⟨s, ∅, .init init, empty_subset _, rfl⟩
  | succ n ih =>
    obtain ⟨s, S, reach, sub, card⟩ := ih (Nat.le_of_succ_le few)
    have size : (S.image r.frame).card = n :=
      (card_image_of_injective _ (frame_injective r)).trans card
    obtain ⟨j, s', run, idle, less⟩ := reach.some_frame (tops_image S) (size.trans_lt few)
    refine ⟨s', insert j S, ?_, insert_subset (mem_range.mpr less) sub, ?_⟩
    · rw [image_insert]
      exact .malloc reach isOrder_maxOrd run
    · rw [card_insert_of_notMem, card]
      exact fun listed => idle (mem_image_of_mem _ listed)

theorem Reachable.drop_frames {S : Finset Nat} (reach : Reachable r s (S.image r.frame))
    (D : Finset Nat) (sub : D ⊆ S) : ∃ s', Reachable r s' ((S \ D).image r.frame) := by
  induction D using Finset.induction_on with
  | empty => exact ⟨s, by rwa [sdiff_empty]⟩
  | insert a D new ih =>
    obtain ⟨s', reach'⟩ := ih ((subset_insert a D).trans sub)
    have left : a ∈ S \ D := mem_sdiff.mpr ⟨sub (mem_insert_self a D), new⟩
    have live : r.frame a ∈ (S \ D).image r.frame := mem_image_of_mem _ left
    obtain ⟨s'', run⟩ := reach'.kfree_ok live
    refine ⟨s'', ?_⟩
    rw [sdiff_insert, image_erase (frame_injective r)]
    exact .free reach' live run

/-- Every set of frames is the set of live blocks of some state. -/
theorem exists_heap (r : Region) {S : Finset Nat} (sub : S ⊆ range r.frameCount) :
    ∃ s, Reachable r s (S.image r.frame) := by
  obtain ⟨s, T, reach, inside, card⟩ := exists_live_frames r le_rfl
  have all : T = range r.frameCount := eq_of_subset_of_card_le inside (by rw [card, card_range])
  obtain ⟨s', reach'⟩ := reach.drop_frames (T \ S) sdiff_subset
  refine ⟨s', ?_⟩
  rwa [Finset.sdiff_sdiff_eq_self (all ▸ sub)] at reach'

/-! ### Half a frame -/

/-- The halves of the first frame. -/
def Region.half (r : Region) (j : Nat) : Nat × Nat := (r.addr ⟨11, j⟩, 11)

/-- Live frames and live halves of the first frame. -/
def Region.halved (r : Region) (S J : Finset Nat) : Finset (Nat × Nat) :=
  S.image r.frame ∪ J.image r.half

theorem mem_halved {S J : Finset Nat} {c : Block} :
    (r.addr c, c.ord) ∈ r.halved S J ↔ c.ord = maxOrd ∧ c.id ∈ S ∨ c.ord = 11 ∧ c.id ∈ J := by
  obtain ⟨o, k⟩ := c
  simp only [Region.halved, mem_union, mem_image, Region.frame, Region.half, Prod.mk.injEq]
  constructor
  · rintro (⟨i, listed, same, rfl⟩ | ⟨i, listed, same, rfl⟩)
    · obtain rfl : i = k := congrArg Block.id (addr_inj (b := ⟨_, i⟩) (c := ⟨_, k⟩) rfl same)
      exact .inl ⟨rfl, listed⟩
    · obtain rfl : i = k := congrArg Block.id (addr_inj (b := ⟨_, i⟩) (c := ⟨_, k⟩) rfl same)
      exact .inr ⟨rfl, listed⟩
  · rintro (⟨rfl, listed⟩ | ⟨rfl, listed⟩)
    · exact .inl ⟨k, listed, rfl, rfl⟩
    · exact .inr ⟨k, listed, rfl, rfl⟩

/-- Beside live frames and halves, a block is vacant if its first byte is in none of them. -/
theorem vacant_halved_iff {S J : Finset Nat} {k : Nat} (small : o ≤ 11) :
    Vacant r (r.halved S J) ⟨o, k⟩ ↔ k * 2 ^ o < r.heapLen ∧ k * 2 ^ o / 2 ^ maxOrd ∉ S ∧
      k * 2 ^ o / 2 ^ 11 ∉ J := by
  have first := Block.first_mem ⟨o, k⟩
  have within : ∀ top, o ≤ top → ∀ x ∈ (⟨o, k⟩ : Block).cells, x / 2 ^ top = k * 2 ^ o / 2 ^ top :=
    fun top le x inside =>
      Block.subset_of_meet (b := ⟨top, k * 2 ^ o / 2 ^ top⟩) le first rfl inside
  have top : o ≤ maxOrd := small.trans (by decide)
  constructor
  · intro vacant
    obtain ⟨less, apart⟩ := vacant _ first
    refine ⟨less, fun listed => ?_, fun listed => ?_⟩
    · exact apart ⟨maxOrd, _⟩ (mem_halved.mpr (.inl ⟨rfl, listed⟩)) rfl
    · exact apart ⟨11, _⟩ (mem_halved.mpr (.inr ⟨rfl, listed⟩)) rfl
  · rintro ⟨less, notS, notJ⟩ x inside
    refine ⟨cells_lt_heapLen top first less x inside, fun c live meets => ?_⟩
    obtain ⟨c, i⟩ := c
    rcases mem_halved.mp live with ⟨rfl, listed⟩ | ⟨rfl, listed⟩
    · exact notS (within maxOrd top x inside ▸ meets.symm ▸ listed)
    · exact notJ (within 11 small x inside ▸ meets.symm ▸ listed)

theorem halved_insert_frame (S J : Finset Nat) (i : Nat) :
    r.halved (insert i S) J = insert (r.frame i) (r.halved S J) := by
  rw [Region.halved, image_insert, insert_union, Region.halved]

theorem halved_insert (S J : Finset Nat) (j : Nat) :
    r.halved S (insert j J) = insert (r.half j) (r.halved S J) := by
  rw [Region.halved, image_insert, union_insert, Region.halved]

/-- The frames but the first. -/
def Region.later (r : Region) : Finset Nat := (Finset.range r.frameCount).erase 0

theorem mem_later : i ∈ r.later ↔ i ≠ 0 ∧ i < r.frameCount := by
  rw [Region.later, mem_erase, mem_range]

theorem frame_zero {x : Nat} (less : x < r.heapLen) (other : x / 2 ^ maxOrd ∉ r.later) :
    x / 2 ^ maxOrd = 0 := by
  by_contra later
  refine other (mem_later.mpr ⟨later, ?_⟩)
  exact (lt_frameCount r).mpr ((Nat.div_mul_le_self ..).trans_lt less)

/-- With the other frames live, small blocks come from the first frame. -/
theorem Reachable.kmalloc_first {J : Finset Nat} (reach : Reachable r s (r.halved r.later J))
    (ho : IsOrder o) (small : o ≤ 11) (frames : 0 < r.frameCount) (room : i * 2 ^ o < 2 ^ maxOrd)
    (idle : i * 2 ^ o / 2 ^ 11 ∉ J) :
    ∃ j s', kmalloc s o = .ok (s', some (r.addr ⟨o, j⟩)) ∧ j * 2 ^ o / 2 ^ maxOrd = 0 ∧
      j * 2 ^ o / 2 ^ 11 ∉ J := by
  have heap : 2 ^ maxOrd ≤ r.heapLen :=
    Nat.le_of_dvd (Nat.zero_lt_of_lt ((lt_frameCount r).mp frames)) r.heapLen_aligned
  have vacant : Vacant r (r.halved r.later J) ⟨o, i⟩ := by
    refine (vacant_halved_iff small).mpr ⟨room.trans_le heap, ?_, idle⟩
    rw [Nat.div_eq_of_lt room]
    exact notMem_erase 0 _
  obtain ⟨j, s', run, free⟩ := reach.kmalloc_vacant ho vacant
  obtain ⟨less, first, apart⟩ := (vacant_halved_iff small).mp free
  exact ⟨j, s', run, frame_zero less first, apart⟩

theorem Reachable.take_half {J : Finset Nat} (reach : Reachable r s (r.halved r.later J))
    (frames : 0 < r.frameCount) (less : i < 2) (idle : i ∉ J) :
    ∃ j s', j < 2 ∧ j ∉ J ∧ Reachable r s' (r.halved r.later (insert j J)) := by
  have ho : IsOrder 11 := ⟨by decide, by decide⟩
  have self : ∀ n, n * 2 ^ 11 / 2 ^ 11 = n := fun n => Nat.mul_div_cancel n (Nat.two_pow_pos _)
  have size : (2 : Nat) ^ maxOrd = 2 * 2 ^ 11 := rfl
  obtain ⟨j, s', run, first, apart⟩ := reach.kmalloc_first ho le_rfl frames (i := i)
    (by rw [size]; exact Nat.mul_lt_mul_of_pos_right less (Nat.two_pow_pos _))
    (by rwa [self])
  rw [self] at apart
  rw [size] at first
  refine ⟨j, s', ?_, apart, ?_⟩
  · omega
  · rw [halved_insert]
    exact .malloc reach ho run

/-- The lower half of the first frame and all other frames but one can be live. -/
theorem exists_half (r : Region) (less : i < r.frameCount) (other : i ≠ 0) :
    ∃ s, Reachable r s (r.halved (r.later.erase i) {0}) := by
  have frames : 0 < r.frameCount := Nat.zero_lt_of_lt less
  obtain ⟨s₀, start⟩ := exists_heap r (S := r.later) (erase_subset _ _)
  have whole : r.halved r.later ∅ = r.later.image r.frame := union_empty _
  obtain ⟨j, s₁, first, -, reach₁⟩ := (whole ▸ start).take_half frames (i := 0) (by decide)
    (notMem_empty _)
  obtain ⟨j', s₂, second, apart, reach₂⟩ := reach₁.take_half frames (i := 1 - j) (by omega)
    (by rw [mem_insert]; rintro (h | ⟨⟨⟩⟩); omega)
  have both : insert j' (insert j ∅) = ({1, 0} : Finset Nat) := by
    have differ : j' ≠ j := fun h => apart (h ▸ mem_insert_self ..)
    ext x
    simp only [mem_insert, notMem_empty, or_false, mem_singleton]
    omega
  rw [both, halved_insert] at reach₂
  have upper : r.half 1 ∉ r.halved r.later {0} := by
    intro live
    rcases mem_halved (c := ⟨11, 1⟩).mp live with ⟨h, -⟩ | ⟨-, h⟩
    · exact absurd h (by decide)
    · exact absurd h (by decide)
  obtain ⟨s₃, freed⟩ := reach₂.kfree_ok (mem_insert_self ..)
  have reach₃ := Reachable.free reach₂ (mem_insert_self ..) freed
  rw [erase_insert upper, ← insert_erase (mem_later.mpr ⟨other, less⟩),
    halved_insert_frame] at reach₃
  have gone : r.frame i ∉ r.halved (r.later.erase i) {0} := by
    intro live
    rcases mem_halved (c := ⟨maxOrd, i⟩).mp live with ⟨-, h⟩ | ⟨h, -⟩
    · exact notMem_erase i _ h
    · exact absurd h (show maxOrd ≠ 11 by decide)
  obtain ⟨s₄, freed'⟩ := reach₃.kfree_ok (mem_insert_self ..)
  have reach₄ := Reachable.free reach₃ (mem_insert_self ..) freed'
  rw [erase_insert gone] at reach₄
  exact ⟨s₄, reach₄⟩

/-- Beside them, the one frame left is what `kmalloc` returns. -/
theorem Reachable.kmalloc_frame (reach : Reachable r s (r.halved (r.later.erase i) {0}))
    (less : i < r.frameCount) (other : i ≠ 0) :
    ∃ s', kmalloc s maxOrd = .ok (s', some (r.frame i).1) ∧
      Reachable r s' (r.halved r.later {0}) := by
  have vacant : Vacant r (r.halved (r.later.erase i) {0}) ⟨maxOrd, i⟩ := by
    intro x inside
    refine ⟨top_block_inside ((lt_frameCount r).mp less) inside, fun c live meets => ?_⟩
    obtain ⟨o, k⟩ := c
    rcases mem_halved.mp live with ⟨rfl, h⟩ | ⟨rfl, h⟩
    · exact (mem_erase.mp h).1 (meets.symm.trans inside)
    · obtain rfl : k = 0 := mem_singleton.mp h
      have low : x / 2 ^ 11 = 0 := meets
      have same : x / 2 ^ maxOrd = i := inside
      have size : (2 : Nat) ^ maxOrd = 2 * 2 ^ 11 := rfl
      rw [size] at same
      omega
  obtain ⟨j, s', run, free⟩ := reach.kmalloc_vacant isOrder_maxOrd vacant
  have notFirst : j ≠ 0 := by
    rintro rfl
    exact (free _ (Block.first_mem _)).2 ⟨11, 0⟩
      (mem_halved.mpr (.inr ⟨rfl, mem_singleton_self 0⟩)) rfl
  have here : j = i := by
    by_contra differ
    refine free.frame_notMem (mem_halved (c := ⟨maxOrd, j⟩).mpr (.inl ⟨rfl, ?_⟩))
    exact mem_erase.mpr ⟨differ, mem_later.mpr ⟨notFirst, free.frame_lt⟩⟩
  subst here
  refine ⟨s', run, ?_⟩
  rw [← insert_erase (mem_later.mpr ⟨other, less⟩), halved_insert_frame]
  exact .malloc reach isOrder_maxOrd run

/-- A quarter in the upper half of the first frame starts less than a frame before the second. -/
theorem upper_quarter (r : Region) (first : j * 2 ^ 10 / 2 ^ maxOrd = 0)
    (upper : j * 2 ^ 10 / 2 ^ 11 ∉ ({0} : Finset Nat)) :
    r.addr ⟨10, j⟩ ≤ (r.frame 1).1 ∧ (r.frame 1).1 < r.addr ⟨10, j⟩ + 2 ^ maxOrd := by
  have size : (2 : Nat) ^ maxOrd = 4 * 2 ^ 10 := rfl
  have later : j * 2 ^ 10 / 2 ^ 11 ≠ 0 := fun h => upper (mem_singleton.mpr h)
  rw [size] at first
  simp only [Region.frame, Region.addr, size]
  omega

end

end BuddyHeap
