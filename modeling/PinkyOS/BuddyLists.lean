import PinkyOS.BuddyPartition

/-!
# The free lists and the marks that are used

The free list of an order is the set of its marks with a nonzero bitmap. The functions `…Uses`
follow the code and collect the marks it reads or writes, as pairs of order and index.
-/
namespace BuddyHeap
open DyadicTiling LinkedIndex

def unmarkUses (s : Kmem) (order blkId : Nat) : List (Nat × Nat) :=
  let mk := s.getMark order (blkId >>> 5)
  (order, blkId >>> 5) ::
    if mk.bitmap &&& ~~~blkBit blkId = 0#32 then
      ([preLnk mk.lnks, nextLnk mk.lnks].filter (· ≠ NIL)).map (order, ·)
    else []

def markUses (s : Kmem) (order blkId : Nat) : List (Nat × Nat) :=
  let head := (s.order order).head
  (order, blkId >>> 5) ::
    if (s.getMark order (blkId >>> 5)).bitmap = 0#32 ∧ head ≠ NIL then [(order, head)] else []

def getBlkUses (s : Kmem) (order : Nat) : List (Nat × Nat) :=
  let head := (s.order order).head
  (order, head) ::
    match (List.range 32).find? fun i =>
        (s.getMark order head).bitmap &&& (1#32 <<< i) != 0#32 with
    | some i => unmarkUses s order (head * 32 + i)
    | none => []

def _kfreeUses (s : Kmem) (mem order : Nat) : List (Nat × Nat) :=
  let blkId := mem2blkid s order mem
  let buddyId := blkId ^^^ 1
  (order, blkId >>> 5) ::
    if !available (s.getMark order (blkId >>> 5)).bitmap buddyId || maxOrd ≤ order then
      markUses s order blkId
    else unmarkUses s order buddyId ++ match unmarkBlk s order buddyId with
      | .ok s' => _kfreeUses s' (blkid2mem s' order (2 * (blkId / 2))) (order + 1)
      | .error _ => []
termination_by maxOrd - order
decreasing_by simp_all; omega

def _kmallocUses (s : Kmem) (order : Nat) : List (Nat × Nat) :=
  if (s.order order).head ≠ NIL then getBlkUses s order
  else if order < maxOrd then
    _kmallocUses s (order + 1) ++ match _kmalloc s (order + 1) with
      | .ok (s', some up) => _kfreeUses s' (up + 2 ^ order) order
      | _ => []
  else []
termination_by maxOrd - order

/-- Every mark lies in the mark array of its order. -/
def InRange (r : Region) (uses : List (Nat × Nat)) : Prop :=
  ∀ u ∈ uses, IsOrder u.1 ∧ u.2 < r.markCount u.1

section
variable {r : Region} {s : Kmem} {A : Set Nat} {o k : Nat} {b : Block}

theorem InRange.append {uses uses' : List (Nat × Nat)} (first : InRange r uses)
    (second : InRange r uses') : InRange r (uses ++ uses') :=
  fun u used => (List.mem_append.mp used).elim (first u) (second u)

theorem InRange.cons {u : Nat × Nat} {uses : List (Nat × Nat)} (order : IsOrder u.1)
    (inside : u.2 < r.markCount u.1) (rest : InRange r uses) : InRange r (u :: uses) :=
  List.forall_mem_cons.mpr ⟨⟨order, inside⟩, rest⟩

theorem inRange_nil : InRange r [] := List.forall_mem_nil _

theorem unmarkUses_inRange (ok : MarksOk r s) (free : (⟨o, k⟩ : Block) ∈ freeBlocks r s) :
    InRange r (unmarkUses s o k) := by
  obtain ⟨order, inside, set⟩ := free
  obtain ⟨xs, list⟩ := ok.lists o order
  have listed : k >>> 5 ∈ xs := by
    refine (list.mem_iff _).mpr ⟨by rwa [Nat.shiftRight_eq_div_pow], fun zero => ?_⟩
    rw [Nat.shiftRight_eq_div_pow] at zero
    simp [bit, zero] at set
  refine .cons order (list.lt_count listed) ?_
  split_ifs
  · intro u used
    obtain ⟨i, link, rfl⟩ := List.mem_map.mp used
    obtain ⟨link, notNil⟩ := List.mem_filter.mp link
    refine ⟨order, list.lt_count ?_⟩
    rw [List.mem_pair] at link
    rcases link with rfl | rfl
    · rcases list.linked.pre_cases listed with ⟨-, isNil⟩ | listed
      · simp [isNil] at notNil
      · exact listed
    · rcases list.linked.next_cases listed with isNil | listed
      · simp [isNil] at notNil
      · exact listed
  · exact inRange_nil

theorem head_inRange (ok : MarksOk r s) (order : IsOrder o) (notNil : (s.order o).head ≠ NIL) :
    (s.order o).head < r.markCount o := by
  obtain ⟨xs, list⟩ := ok.lists o order
  exact list.lt_count (list.linked.first_mem notNil)

theorem markUses_inRange (ok : MarksOk r s) (order : IsOrder o) (inside : k >>> 5 < r.markCount o) :
    InRange r (markUses s o k) := by
  refine .cons order inside ?_
  split_ifs with insert
  · exact .cons order (head_inRange ok order insert.2) inRange_nil
  · exact inRange_nil

/-- Induction on the distance to the top order, as in `_kfree_spec`. -/
theorem _kfreeUses_inRange (h : HeapOk r s A) (order : IsOrder b.ord)
    (inside : ∀ x ∈ b.cells, x < r.heapLen) (outside : ∀ x ∈ b.cells, x ∉ A) :
    InRange r (_kfreeUses s (r.addr b) b.ord) := by
  induction distance : maxOrd - b.ord using Nat.strong_induction_on generalizing s A b with
  | _ n earlier =>
    have mark : b.id >>> 5 < r.markCount b.ord := by
      rw [Nat.shiftRight_eq_div_pow]
      exact mark_in_range order inside
    rw [_kfreeUses]
    simp only [mem2blkid_addr h.marks.layout]
    refine .cons order mark ?_
    split_ifs with last
    · exact markUses_inRange h.marks order mark
    · simp only [Bool.or_eq_true, Bool.not_eq_true', decide_eq_true_eq, not_or, Nat.not_le,
        Bool.not_eq_false] at last
      have buddy : b.buddy ∈ freeBlocks r s := by
        have set := last.1
        rw [Nat.shiftRight_eq_div_pow, ← xor_one_div, available_bit] at set
        exact ⟨order, by rw [Block.buddy_id, xor_one_div]; exact mark_in_range order inside, set⟩
      obtain ⟨s', run, h', -⟩ := unmarkBlk_heap h buddy
      refine (unmarkUses_inRange h.marks buddy).append ?_
      rw [Block.buddy_ord, Block.buddy_id] at run
      rw [run]
      simp only [blkid2mem_parent h'.marks.layout]
      have order' : IsOrder b.parent.ord := ⟨order.1.trans (Nat.le_succ _), last.2⟩
      refine earlier (maxOrd - b.parent.ord) ?_ h' order' ?_ ?_ rfl
      · rw [Block.parent_ord]
        omega
      · exact cells_lt_heapLen order'.2 (b.cells_subset_parent b.first_mem) (inside _ b.first_mem)
      · rintro x cell ⟨isFree, other⟩
        exact outside x ((Block.mem_parent.mp cell).resolve_right other) isFree

theorem getBlkUses_inRange (h : HeapOk r s A) (order : IsOrder o)
    (notNil : (s.order o).head ≠ NIL) : InRange r (getBlkUses s o) := by
  have head := head_inRange h.marks order notNil
  refine .cons order head ?_
  split
  · next i found =>
    have small : i < 32 := List.mem_range.mp (List.mem_of_find?_eq_some found)
    have set := List.find?_some found
    rw [test_bit_eq _ small] at set
    have div : ((s.order o).head * 32 + i) / 32 = (s.order o).head := by omega
    have mod : ((s.order o).head * 32 + i) % 32 = i := by omega
    exact unmarkUses_inRange h.marks ⟨order, by simpa only [div] using head,
      by simpa only [bit, div, mod] using set⟩
  · exact inRange_nil

theorem _kmallocUses_inRange (h : HeapOk r s A) (order : IsOrder o) :
    InRange r (_kmallocUses s o) := by
  induction distance : maxOrd - o using Nat.strong_induction_on generalizing o with
  | _ n earlier =>
    rw [_kmallocUses]
    split_ifs with here below
    · exact getBlkUses_inRange h order here
    · have order' : IsOrder (o + 1) := ⟨order.1.trans (Nat.le_succ _), below⟩
      refine (earlier (maxOrd - (o + 1)) (by omega) order' rfl).append ?_
      rcases _kmalloc_spec h order' with ⟨none, -⟩ | ⟨k, s', some, sub, h', -⟩
      · rw [none]
        exact inRange_nil
      · rw [some]
        dsimp only
        rw [addr_upper]
        have upper : (⟨o, 2 * k + 1⟩ : Block).cells ⊆ (⟨o + 1, k⟩ : Block).cells := by
          have parent : (⟨o, 2 * k + 1⟩ : Block).parent = ⟨o + 1, k⟩ := by
            simp only [Block.parent, Block.mk.injEq, true_and]
            omega
          exact parent ▸ Block.cells_subset_parent _
        exact _kfreeUses_inRange (b := ⟨o, 2 * k + 1⟩) h' order
          (fun x cell => h.inside x (sub (upper cell))) fun x cell isFree => isFree.2 (upper cell)
    · exact inRange_nil

/-- In every reachable state the free list of each order is the set of its marks with a nonzero
bitmap, `kmemInit2`, `kmalloc` and `kfree` of live blocks do not panic, they use no mark outside
the mark array of its order, and `getBlk`, called with a nonempty list, returns a block. -/
theorem lists_mirror_bitmaps (r : Region) (s : Kmem) (L : Finset (Nat × Nat))
    (reach : Reachable r s L) :
    (∀ m, ∃ s₀, kmemInit2 m r.start r.stop = .ok s₀) ∧
    (∀ o, IsOrder o → (∃ xs, FreeList r s o xs) ∧ (∃ res, kmalloc s o = .ok res) ∧
      InRange r (_kmallocUses s o) ∧
      ((s.order o).head ≠ NIL → ∃ s' p, getBlk s o = .ok (s', some p))) ∧
    ∀ e ∈ L, (∃ s', kfree s e.1 e.2 = .ok s') ∧ InRange r (_kfreeUses s e.1 e.2) := by
  obtain ⟨A, ok⟩ := reach.liveOk
  refine ⟨fun m => ?_, fun o order => ⟨ok.heap.marks.lists o order, reach.kmalloc_ok order,
    _kmallocUses_inRange ok.heap order, fun notNil => ?_⟩, fun e live => ⟨reach.kfree_ok live, ?_⟩⟩
  · obtain ⟨s₀, run, -⟩ := kmemInit2_spec r m
    exact ⟨s₀, run⟩
  · obtain ⟨k, s', run, -⟩ := getBlk_spec ok.heap order notNil
    exact ⟨s', _, run⟩
  · obtain ⟨b, order, rfl⟩ := ok.blocks e live
    have cells := ok.live.inside b live
    exact _kfreeUses_inRange ok.heap order (fun x cell => (cells cell).1)
      fun x cell => (cells cell).2

/-- Right after boot, with one page taken. -/
theorem boot_lists_mirror : ∃ s p, Reachable bootRegion s {(p, 12)} ∧
    (∃ xs, FreeList bootRegion s 12 xs) ∧ InRange bootRegion (_kfreeUses s p 12) := by
  obtain ⟨s₀, init, ok⟩ := kmemInit2_spec bootRegion
    ⟨0, 0, 0, fun _ => ⟨0, 0⟩, fun _ => ⟨0#32, 0#32⟩⟩
  have order : IsOrder 12 := by decide
  obtain ⟨j, s, run, -⟩ := ok.kmalloc_some (k := 0) order (top_block_inside (by decide))
  have reach := (Reachable.init init).malloc order run
  obtain ⟨-, calls, frees⟩ := lists_mirror_bitmaps bootRegion s _ reach
  exact ⟨s, _, reach, (calls 12 order).1, (frees _ (Finset.mem_insert_self ..)).2⟩

end

end BuddyHeap
