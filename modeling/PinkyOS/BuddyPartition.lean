import PinkyOS.BuddyMarks

/-!
# The heap is partitioned by free and allocated blocks

`_kfree` and `_kmalloc` are specified by the area their free blocks tile. Every
state reachable by allocating and by freeing allocated blocks is a partition
of the heap in canonical form, so its bitmaps depend on the allocated blocks
alone.
-/

namespace BuddyHeap
open Nat

open DyadicTiling MemoryLayout

/-- The free blocks tile the area `A` and contain no buddy pair to merge. -/
structure HeapOk (r : Region) (s : Kmem) (A : Set Nat) : Prop where
  marks : MarksOk r s
  tiles : Tiles (freeBlocks r s) A
  reduced : Reduced maxOrd (freeBlocks r s)
  inside : ∀ x ∈ A, x < r.heapLen

section Geometry
variable {r : Region} {b : Block}

theorem Region.startHeap_aligned (r : Region) : 2 ^ maxOrd ∣ r.startHeap := alignUp_dvd _ _

theorem Region.start_le_startHeap (r : Region) : r.start ≤ r.startHeap :=
  (Nat.le_add_right _ _).trans (le_alignUp (by decide) _)

theorem Region.heapLen_aligned (r : Region) : 2 ^ maxOrd ∣ r.heapLen := alignUp_dvd _ _

theorem Region.heapLen_le_iff (r : Region) (k : Nat) :
    r.heapLen ≤ 2 ^ maxOrd * k ↔ r.stop ≤ r.startHeap + 2 ^ maxOrd * k := by
  rw [heapLen, alignUp_le_iff (by decide) (Nat.dvd_mul_right ..), Nat.sub_le_iff_le_add']

theorem Region.Aligned.heapLen_eq {r : Region} (aligned : r.Aligned) :
    r.heapLen = r.stop - r.startHeap :=
  le_antisymm
    ((alignUp_le_iff (by decide) (Nat.dvd_sub aligned.2 r.startHeap_aligned) _).mpr le_rfl)
    (le_alignUp (by decide) _)

/-- Blocks that contain an address of the heap lie inside it. -/
theorem cells_lt_heapLen (top : b.ord ≤ maxOrd) {x : Nat} (hx : x ∈ b.cells)
    (lt : x < r.heapLen) : ∀ y ∈ b.cells, y < r.heapLen := by
  intro y hy
  obtain ⟨q, hq⟩ := r.heapLen_aligned
  obtain ⟨d, hd⟩ := Nat.exists_eq_add_of_le top
  have hpow : 2 ^ maxOrd = 2 ^ b.ord * 2 ^ d := by rw [hd, Nat.pow_add]
  have hlen : r.heapLen = 2 ^ d * q * 2 ^ b.ord := by rw [hq, hpow]; ac_rfl
  rw [hlen] at lt ⊢
  have hxq := Nat.div_lt_of_lt_mul (Nat.mul_comm _ _ ▸ lt)
  rw [Block.mem_cells.mp hx, ← Block.mem_cells.mp hy] at hxq
  exact (Nat.div_lt_iff_lt_mul (Nat.two_pow_pos _)).mp hxq

/-- Every block of the heap has a bit in the mark array of its order. -/
theorem mark_in_range (ho : IsOrder b.ord) (inside : ∀ x ∈ b.cells, x < r.heapLen) :
    b.id / 32 < r.markCount b.ord := by
  have hfirst := inside _ b.first_mem
  have hlen : r.heapLen ≤ r.topMarks * 2 ^ (maxOrd + 5) := by
    have hlt : r.stop - r.start < r.topMarks * 2 ^ (maxOrd + 5) := by
      rw [Region.topMarks, shiftRight_eq_div_pow, Nat.mul_comm]
      exact lt_mul_div_succ _ (Nat.two_pow_pos _)
    have := r.start_le_startHeap
    rw [Nat.pow_add, Nat.mul_left_comm, r.heapLen_le_iff, ← Nat.mul_left_comm, ← Nat.pow_add]
    omega
  have hpow : 2 ^ (maxOrd + 5) = 2 ^ (maxOrd - b.ord) * 32 * 2 ^ b.ord := by
    have := ho.2
    rw [show (32 : Nat) = 2 ^ 5 from rfl, ← Nat.pow_add, ← Nat.pow_add]
    congr 1
    omega
  rw [hpow, ← Nat.mul_assoc, ← Nat.mul_assoc] at hlen
  have hid := Nat.lt_of_mul_lt_mul_right (hfirst.trans_le hlen)
  exact Nat.div_lt_of_lt_mul (by rw [Region.markCount, Nat.mul_comm]; exact hid)

/-- The address of a block. -/
def Region.addr (r : Region) (b : Block) : Nat := r.startHeap + 2 ^ b.ord * b.id

variable {s : Kmem}

theorem mem2blkid_addr (lay : Layout r s) (b : Block) : mem2blkid s b.ord (r.addr b) = b.id := by
  rw [mem2blkid, Region.addr, lay.startHeap, Nat.add_sub_cancel_left, shiftRight_eq_div_pow,
    Nat.mul_div_cancel_left _ (Nat.two_pow_pos _)]

theorem blkid2mem_eq (lay : Layout r s) (b : Block) : blkid2mem s b.ord b.id = r.addr b := by
  rw [blkid2mem, Region.addr, lay.startHeap]

theorem blkid2mem_parent (lay : Layout r s) (b : Block) :
    blkid2mem s b.ord (2 * (b.id / 2)) = r.addr b.parent := by
  rw [blkid2mem, Region.addr, lay.startHeap, Block.parent_ord, Block.parent_id, Nat.pow_succ,
    Nat.mul_assoc]

end Geometry

section Free
variable {r : Region} {s : Kmem} {A : Set Nat} {b : Block}

theorem bit_eq_false (ho : IsOrder b.ord)
    (inside : ∀ x ∈ b.cells, x < r.heapLen) (hb : b ∉ freeBlocks r s) :
    bit s b.ord b.id = false := by
  by_contra hbit
  exact hb ⟨ho, mark_in_range ho inside, by simpa using hbit⟩

theorem xor_one_div (k : Nat) : (k ^^^ 1) / 32 = k / 32 := by
  have := Block.xor_one_cases k
  omega

/-- Marking a block whose buddy is not free. -/
theorem markBlk_heap (h : HeapOk r s A) (ho : IsOrder b.ord)
    (inside : ∀ x ∈ b.cells, x < r.heapLen) (outside : ∀ x ∈ b.cells, x ∉ A)
    (alone : b.ord < maxOrd → b.buddy ∉ freeBlocks r s) :
    ∃ s', markBlk s b.ord b.id = .ok s' ∧ HeapOk r s' (A ∪ b.cells) ∧
      freeBlocks r s' = insert b (freeBlocks r s) := by
  obtain ⟨s', hs', hok, hF⟩ := markBlk_spec h.marks ho (mark_in_range ho inside)
    (h.tiles.not_mem outside)
  refine ⟨s', hs', ⟨hok, hF ▸ h.tiles.insert outside, hF ▸ h.reduced.insert alone, ?_⟩, hF⟩
  rintro x (hx | hx)
  · exact h.inside x hx
  · exact inside x hx

theorem unmarkBlk_heap (h : HeapOk r s A) (hb : b ∈ freeBlocks r s) :
    ∃ s', unmarkBlk s b.ord b.id = .ok s' ∧ HeapOk r s' (A \ b.cells) ∧
      freeBlocks r s' = freeBlocks r s \ {b} := by
  obtain ⟨s', hs', hok, hF⟩ := unmarkBlk_spec h.marks (o := b.ord) (k := b.id) hb
  exact ⟨s', hs', ⟨hok, hF ▸ h.tiles.erase hb, hF ▸ h.reduced.mono fun _ hc => hc.1,
    fun x hx => h.inside x hx.1⟩, hF⟩

section
variable (marks : MarksOk r s) (ho : IsOrder b.ord) (inside : ∀ x ∈ b.cells, x < r.heapLen)
    (clear : b ∉ freeBlocks r s)
include marks ho inside clear

theorem _kfree_alone (alone : b.ord < maxOrd → b.buddy ∉ freeBlocks r s) :
    _kfree s (r.addr b) b.ord = markBlk s b.ord b.id := by
  have hbit := bit_eq_false ho inside clear
  have hbuddy : (!bit s b.ord b.buddy.id || decide (maxOrd ≤ b.ord)) = true := by
    by_cases top : maxOrd ≤ b.ord
    · simp [top]
    · have hrange : b.buddy.id / 32 < r.markCount b.ord :=
        (xor_one_div b.id).symm ▸ mark_in_range ho inside
      have hclear : bit s b.ord b.buddy.id ≠ true := fun hb => alone (by omega) ⟨ho, hrange, hb⟩
      simpa [top] using hclear
  rw [_kfree]
  simp only [mem2blkid_addr marks.layout, shiftRight_eq_div_pow, reducePow,
    available_bit, hbit, Bool.false_eq_true, if_false]
  rw [if_pos]
  rw [← hbuddy, Block.buddy_id, ← available_bit, xor_one_div]

theorem _kfree_merge (below : b.ord < maxOrd) (hbuddy : b.buddy ∈ freeBlocks r s) {s' : Kmem}
    (hs' : unmarkBlk s b.ord b.buddy.id = .ok s') (lay : Layout r s') :
    _kfree s (r.addr b) b.ord = _kfree s' (r.addr b.parent) b.parent.ord := by
  have hbit := bit_eq_false ho inside clear
  have hset : available (s.getMark b.ord (b.id / 32)).bitmap (b.id ^^^ 1) = true := by
    rw [← xor_one_div, available_bit]
    exact hbuddy.2.2
  rw [_kfree]
  simp only [mem2blkid_addr marks.layout, shiftRight_eq_div_pow, reducePow,
    available_bit, hbit, Bool.false_eq_true, if_false, hset, Bool.not_true, Bool.false_or,
    decide_eq_true_eq, if_neg (Nat.not_le_of_gt below)]
  rw [← Block.buddy_id, hs', ← blkid2mem_parent lay]
  rfl

end

/-- Freeing a block outside the free area adds exactly its cells; blocks of
smaller orders are not touched. Induction on the distance to the top order:
a free buddy is taken out and the parent is freed instead. -/
theorem _kfree_spec (h : HeapOk r s A) (ho : IsOrder b.ord)
    (inside : ∀ x ∈ b.cells, x < r.heapLen) (outside : ∀ x ∈ b.cells, x ∉ A) :
    ∃ s', _kfree s (r.addr b) b.ord = .ok s' ∧ HeapOk r s' (A ∪ b.cells) ∧
      ∀ c : Block, c.ord < b.ord → (c ∈ freeBlocks r s' ↔ c ∈ freeBlocks r s) := by
  obtain ⟨n, hn⟩ : ∃ n, maxOrd - b.ord = n := ⟨_, rfl⟩
  induction n generalizing s A b with
  | zero =>
    have alone : b.ord < maxOrd → b.buddy ∉ freeBlocks r s := by omega
    obtain ⟨s', hs', hok, hF⟩ := markBlk_heap h ho inside outside alone
    refine ⟨s', (_kfree_alone h.marks ho inside (h.tiles.not_mem outside) alone).trans hs', hok, fun c hc => ?_⟩
    have hcb : c ≠ b := by rintro rfl; omega
    simp [hF, hcb]
  | succ n ih =>
    by_cases hbuddy : b.buddy ∈ freeBlocks r s
    · obtain ⟨s₁, hs₁, hok₁, hF₁⟩ := unmarkBlk_heap h hbuddy
      have below : b.ord < maxOrd := by omega
      have horder : IsOrder b.parent.ord := ⟨by have := ho.1; rw [Block.parent_ord]; omega,
        by rw [Block.parent_ord]; omega⟩
      have pinside : ∀ x ∈ b.parent.cells, x < r.heapLen :=
        cells_lt_heapLen horder.2 (b.cells_subset_parent b.first_mem) (inside _ b.first_mem)
      have poutside : ∀ x ∈ b.parent.cells, x ∉ A \ b.buddy.cells := by
        rintro x hx ⟨hA, hnb⟩
        exact outside x ((Block.mem_parent.mp hx).resolve_right hnb) hA
      obtain ⟨s', hs', hok, hlow⟩ := ih hok₁ horder pinside poutside
        (by rw [Block.parent_ord]; omega)
      refine ⟨s', (_kfree_merge h.marks ho inside (h.tiles.not_mem outside) below
        hbuddy hs₁ hok₁.marks.layout).trans hs', ?_, fun c hc => ?_⟩
      · have harea : A \ b.buddy.cells ∪ b.parent.cells = A ∪ b.cells := by
          ext x
          have hsub := h.tiles.inside _ hbuddy (a := x)
          have hpar := Block.mem_parent (b := b) (x := x)
          simp only [Set.mem_union, Set.mem_sdiff]
          tauto
        exact harea ▸ hok
      · have hcb : c ≠ b.buddy := by
          rintro rfl
          rw [Block.buddy_ord] at hc
          omega
        rw [hlow c (by rw [Block.parent_ord]; omega), hF₁]
        simp [hcb]
    · obtain ⟨s', hs', hok, hF⟩ := markBlk_heap h ho inside outside fun _ => hbuddy
      refine ⟨s', (_kfree_alone h.marks ho inside (h.tiles.not_mem outside) fun _ => hbuddy).trans hs', hok,
        fun c hc => ?_⟩
      have hcb : c ≠ b := by rintro rfl; omega
      simp [hF, hcb]

end Free

section Malloc
variable {r : Region} {s : Kmem} {A : Set Nat} {o : Nat}

theorem test_bit_eq (bm : BitVec 32) {i : Nat} (hi : i < 32) :
    (bm &&& (1#32 <<< i) != 0#32) = bm.getLsbD i := by
  have hmod : i % 32 = i := mod_eq_of_lt hi
  have hmask : i &&& 0x1F = i := (and_two_pow_sub_one_eq_mod i 5).trans hmod
  have havail := available_eq bm i
  rwa [available, blkBit, hmask, hmod] at havail

/-- `getBlk` takes some free block out of a nonempty list. -/
theorem getBlk_spec (h : HeapOk r s A) (ho : IsOrder o) (hd : (s.order o).head ≠ NIL) :
    ∃ (k : Nat) (s' : Kmem), getBlk s o = .ok (s', some (r.addr ⟨o, k⟩)) ∧
      (⟨o, k⟩ : Block) ∈ freeBlocks r s ∧ HeapOk r s' (A \ (⟨o, k⟩ : Block).cells) ∧
      freeBlocks r s' = freeBlocks r s \ {⟨o, k⟩} := by
  obtain ⟨xs, hxs⟩ := h.marks.lists o ho
  obtain ⟨hlt, hne⟩ := (hxs.mem_iff _).mp (hxs.linked.first_mem hd)
  obtain ⟨i, hi⟩ : ∃ i, (List.range 32).find? (fun i =>
      (s.getMark o (s.order o).head).bitmap &&& (1#32 <<< i) != 0#32) = some i := by
    rw [← Option.isSome_iff_exists, List.find?_isSome]
    by_contra hno
    refine hne ((eq_zero_iff _).mpr fun j hj => ?_)
    by_contra hb
    exact hno ⟨j, List.mem_range.mpr hj, by rw [test_bit_eq _ hj]; simpa using hb⟩
  have hi32 : i < 32 := List.mem_range.mp (List.mem_of_find?_eq_some hi)
  have hbit : (s.getMark o (s.order o).head).bitmap.getLsbD i = true := by
    have hfound := List.find?_some hi
    simpa only [test_bit_eq _ hi32] using hfound
  have hdiv : ((s.order o).head * 32 + i) / 32 = (s.order o).head := by omega
  have hmod : ((s.order o).head * 32 + i) % 32 = i := by omega
  have hmem : (⟨o, (s.order o).head * 32 + i⟩ : Block) ∈ freeBlocks r s :=
    ⟨ho, by simpa only [hdiv] using hlt, by simpa only [bit, hdiv, hmod] using hbit⟩
  obtain ⟨s', hs', hok, hF⟩ := unmarkBlk_heap h hmem
  refine ⟨_, s', ?_, hmem, hok, hF⟩
  rw [← blkid2mem_eq h.marks.layout]
  simp only [getBlk, hne, if_false, hi, hs']
  rfl

theorem _kmalloc_here (h : HeapOk r s A) (ho : IsOrder o) (hd : (s.order o).head ≠ NIL) :
    ∃ (k : Nat) (s' : Kmem), _kmalloc s o = .ok (s', some (r.addr ⟨o, k⟩)) ∧
      (⟨o, k⟩ : Block).cells ⊆ A ∧ HeapOk r s' (A \ (⟨o, k⟩ : Block).cells) ∧
      ∀ c : Block, c.ord < o → (c ∈ freeBlocks r s' ↔ c ∈ freeBlocks r s) := by
  obtain ⟨k, s', hrun, hmem, hok, hF⟩ := getBlk_spec h ho hd
  refine ⟨k, s', ?_, h.tiles.inside _ hmem, hok, fun c hc => ?_⟩
  · rw [_kmalloc, if_pos hd, hrun]
  · have hck : c ≠ ⟨o, k⟩ := by
      rintro rfl
      exact lt_irrefl _ hc
    simp [hF, hck]

theorem order_ne_of_nil (ok : MarksOk r s) (ho : IsOrder o) (hd : (s.order o).head = NIL) :
    ∀ c ∈ freeBlocks r s, c.ord ≠ o := by
  rintro c hc rfl
  exact (head_ne_nil_iff ok ho).mpr ⟨c.id, hc⟩ hd

theorem addr_upper (r : Region) (o k : Nat) :
    r.addr ⟨o + 1, k⟩ + 2 ^ o = r.addr ⟨o, 2 * k + 1⟩ := by
  simp only [Region.addr, Nat.pow_succ]
  ring

/-- `_kmalloc` either finds no free block of the order or above and changes
nothing, or it takes one block out of the free area. Orders below are not touched,
so the list found empty is still empty when the upper half is freed into it. -/
theorem _kmalloc_spec (h : HeapOk r s A) (ho : IsOrder o) :
    (_kmalloc s o = .ok (s, none) ∧ ∀ c ∈ freeBlocks r s, c.ord < o) ∨
    ∃ (k : Nat) (s' : Kmem), _kmalloc s o = .ok (s', some (r.addr ⟨o, k⟩)) ∧
      (⟨o, k⟩ : Block).cells ⊆ A ∧ HeapOk r s' (A \ (⟨o, k⟩ : Block).cells) ∧
      ∀ c : Block, c.ord < o → (c ∈ freeBlocks r s' ↔ c ∈ freeBlocks r s) := by
  obtain ⟨n, hn⟩ : ∃ n, maxOrd - o = n := ⟨_, rfl⟩
  induction n generalizing o with
  | zero =>
    by_cases hd : (s.order o).head = NIL
    · refine Or.inl ⟨?_, fun c hc => ?_⟩
      · rw [_kmalloc]
        simp only [hd, ne_eq, not_true_eq_false, if_false, if_neg (show ¬ o < maxOrd by omega)]
        rfl
      · have hco := order_ne_of_nil h.marks ho hd c hc
        have := hc.1.2
        omega
    · exact Or.inr (_kmalloc_here h ho hd)
  | succ n ih =>
    by_cases hd : (s.order o).head = NIL
    · have below : o < maxOrd := by omega
      have ho' : IsOrder (o + 1) := ⟨by have := ho.1; omega, below⟩
      have empty := order_ne_of_nil h.marks ho hd
      rcases ih ho' (by omega) with ⟨hrun, hnone⟩ | ⟨k, s₁, hrun, hsub, hok, hlow⟩
      · refine Or.inl ⟨?_, fun c hc => ?_⟩
        · rw [_kmalloc]
          simp only [hd, ne_eq, not_true_eq_false, if_false, if_pos below, hrun]
          rfl
        · have := hnone c hc
          have := empty c hc
          omega
      · obtain ⟨lower, hlower⟩ : ∃ lower : Block, lower = ⟨o, 2 * k⟩ := ⟨_, rfl⟩
        have hparent : lower.parent = ⟨o + 1, k⟩ := by
          subst hlower
          simp [Block.parent]
        have hupper : lower.buddy = ⟨o, 2 * k + 1⟩ := by
          have := Block.xor_one_cases (2 * k)
          subst hlower
          ext
          · rfl
          · change 2 * k ^^^ 1 = 2 * k + 1
            omega
        have hmem : ∀ x, x ∈ (⟨o + 1, k⟩ : Block).cells ↔ x ∈ lower.cells ∨ x ∈ lower.buddy.cells :=
          fun x => hparent ▸ Block.mem_parent
        have hord : lower.buddy.ord = o := by rw [hupper]
        have inA : ∀ x ∈ lower.buddy.cells, x ∈ A := fun x hx => hsub ((hmem x).mpr (Or.inr hx))
        obtain ⟨s₂, hs₂, hok₂, hlow₂⟩ := _kfree_spec hok (b := lower.buddy) (hord ▸ ho)
          (fun x hx => h.inside x (inA x hx))
          (fun x hx hA => hA.2 ((hmem x).mpr (Or.inr hx)))
        refine Or.inr ⟨2 * k, s₂, ?_, ?_, ?_, fun c hc => ?_⟩
        · have haddr : r.addr ⟨o, 2 * k⟩ = r.addr ⟨o + 1, k⟩ := by
            simp only [Region.addr, Nat.pow_succ]
            ring
          rw [hupper, ← addr_upper] at hs₂
          rw [_kmalloc]
          simp only [hd, ne_eq, not_true_eq_false, if_false, if_pos below, hrun, haddr]
          change (_kfree s₁ _ o >>= fun s'' => pure (s'', some (r.addr ⟨o + 1, k⟩))) = _
          rw [hs₂]
          rfl
        · rw [← hlower]
          exact fun x hx => hsub ((hmem x).mpr (Or.inl hx))
        · have harea : A \ (⟨o + 1, k⟩ : Block).cells ∪ lower.buddy.cells = A \ lower.cells := by
            ext x
            have := hmem x
            have := inA x
            have hapart : x ∈ lower.cells → x ∉ lower.buddy.cells := Block.buddy_disjoint
            simp only [Set.mem_union, Set.mem_sdiff]
            tauto
          rw [← hlower, ← harea]
          exact hok₂
        · rw [hlow₂ c (by omega), hlow c (by omega)]
    · exact Or.inr (_kmalloc_here h ho hd)

end Malloc

section Init
variable {r : Region} {s : Kmem}

theorem ok_bind {ε α β : Type} (a : α) (f : α → Except ε β) : (Except.ok a >>= f) = f a := rfl

theorem bind_eq_ok {ε α β : Type} {m : Except ε α} {f : α → Except ε β} {b : β}
    (run : (m >>= f) = .ok b) : ∃ a, m = .ok a ∧ f a = .ok b := by
  cases m with
  | error e => cases run
  | ok a => exact ⟨a, rfl, run⟩

theorem addr_mask (r : Region) {b : Block} (top : b.ord ≤ maxOrd) :
    r.addr b &&& (2 ^ b.ord - 1) = 0 := by
  rw [and_two_pow_sub_one_eq_mod]
  exact mod_eq_zero_of_dvd (Nat.dvd_add ((Nat.pow_dvd_pow 2 top).trans r.startHeap_aligned)
    (Nat.dvd_mul_right _ _))

theorem kfree_eq (r : Region) (s : Kmem) {b : Block} (ho : IsOrder b.ord) :
    kfree s (r.addr b) b.ord = _kfree s (r.addr b) b.ord := by
  have hhi : ¬ b.ord > maxOrd := not_lt.mpr ho.2
  have hlo : ¬ b.ord < minOrd := not_lt.mpr ho.1
  simp [kfree, hhi, hlo, addr_mask r ho.2]

theorem kmalloc_eq (s : Kmem) {o : Nat} (ho : IsOrder o) : kmalloc s o = _kmalloc s o := by
  have hhi : ¬ o > maxOrd := not_lt.mpr ho.2
  have hlo : ¬ o < minOrd := not_lt.mpr ho.1
  simp [kmalloc, hhi, hlo]

/-- A mark with no available block and null links. -/
def blankMark : Mark := ⟨mkLnks NIL NIL, 0#32⟩

theorem initMarks_spec (s : Kmem) (o n : Nat) :
    (initMarks s o n).orders = s.orders ∧ (initMarks s o n).start = s.start ∧
    (initMarks s o n).stop = s.stop ∧ ∀ x, (initMarks s o n).marks x =
      if (s.order o).offset ≤ x ∧ x < (s.order o).offset + n then blankMark else s.marks x := by
  induction n with
  | zero => simp [initMarks]
  | succ n ih =>
    obtain ⟨horders, hstart, hstop, hmarks⟩ := ih
    have hstep : initMarks s o (n + 1) = (initMarks s o n).setMark o n blankMark := by
      simp only [initMarks, List.range_succ, List.foldl_append, List.foldl_cons, List.foldl_nil]
      rfl
    rw [hstep]
    refine ⟨horders, hstart, hstop, fun x => ?_⟩
    have hoff : ((initMarks s o n).order o).offset = (s.order o).offset := by
      simp only [Kmem.order, horders]
    change (if x = ((initMarks s o n).order o).offset + n then blankMark
      else (initMarks s o n).marks x) = _
    rw [hoff, hmarks]
    by_cases hx : x = (s.order o).offset + n
    · simp [hx]
    · rw [if_neg hx]
      refine if_congr ?_ rfl rfl
      omega

/-- The orders from `i - 1` down to 0 get consecutive mark arrays after `total`. -/
theorem initOrders_spec (i total n : Nat) (s : Kmem) :
    (initOrders i total n s).2 = total + n * (2 ^ i - 1) ∧
    (initOrders i total n s).1.start = s.start ∧ (initOrders i total n s).1.stop = s.stop ∧
    (∀ j, (initOrders i total n s).1.orders j =
      if j < i then ⟨NIL, total + n * (2 ^ (i - 1 - j) - 1)⟩ else s.orders j) ∧
    ∀ x, (initOrders i total n s).1.marks x =
      if total ≤ x ∧ x < total + n * (2 ^ i - 1) then blankMark else s.marks x := by
  induction i generalizing total n s with
  | zero => simp [initOrders]
  | succ i ih =>
    obtain ⟨s₁, hs₁⟩ : ∃ s₁, s₁ =
      initMarks (s.setOrder (i + minOrd) ⟨NIL, total⟩) (i + minOrd) n := ⟨_, rfl⟩
    obtain ⟨horders, hstart, hstop, hmarks⟩ :=
      initMarks_spec (s.setOrder (i + minOrd) ⟨NIL, total⟩) (i + minOrd) n
    have hoff : ((s.setOrder (i + minOrd) ⟨NIL, total⟩).order (i + minOrd)).offset = total := by
      simp [Kmem.order, Kmem.setOrder]
    have horder₁ : ∀ j, s₁.orders j = if j = i then ⟨NIL, total⟩ else s.orders j := by
      intro j
      rw [hs₁, horders]
      simp only [Kmem.setOrder, Nat.add_sub_cancel]
    have hmarks₁ : ∀ x, s₁.marks x =
        if total ≤ x ∧ x < total + n then blankMark else s.marks x := by
      intro x
      rw [hs₁, hmarks, hoff]
      rfl
    have hdouble : n <<< 1 = 2 * n := by rw [shiftLeft_eq, Nat.pow_one, Nat.mul_comm]
    obtain ⟨htotal, hst, hsp, hord, hmk⟩ := ih (total + n) (n <<< 1) s₁
    have hsum : ∀ e, total + n + n <<< 1 * (2 ^ e - 1) = total + n * (2 ^ (e + 1) - 1) := by
      intro e
      obtain ⟨q, hq⟩ : ∃ q, 2 ^ e = q + 1 := ⟨2 ^ e - 1, by have := Nat.two_pow_pos e; omega⟩
      rw [hdouble, Nat.pow_succ, hq, show (q + 1) * 2 - 1 = 2 * q + 1 by omega, Nat.add_sub_cancel]
      ring
    rw [hsum] at htotal hmk
    have hrun : initOrders (i + 1) total n s = initOrders i (total + n) (n <<< 1) s₁ := by
      rw [initOrders, hs₁]
    rw [hrun]
    refine ⟨htotal, hst.trans (hs₁ ▸ hstart), hsp.trans (hs₁ ▸ hstop), fun j => ?_, fun x => ?_⟩
    · rw [hord, horder₁]
      rcases Nat.lt_trichotomy j i with h | h | h
      · rw [if_pos h, if_pos (by omega), hsum, show i - 1 - j + 1 = i + 1 - 1 - j by omega]
      · subst h
        simp
      · rw [if_neg (by omega), if_neg (by omega), if_neg (by omega)]
    · have hpos : n ≤ n * (2 ^ (i + 1) - 1) := by
        refine Nat.le_mul_of_pos_right n ?_
        have := Nat.one_lt_two_pow (n := i + 1) (by omega)
        omega
      rw [hmk, hmarks₁]
      split
      · rw [if_pos (by omega)]
      · split
        · rw [if_pos (by omega)]
        · rw [if_neg (by omega)]

/-- The state just before the heap is freed: no block is available. -/
def initBlank (s : Kmem) (vstart vend : Nat) : Kmem :=
  let p := initOrders nOrd 0 (((vend - vstart) >>> (maxOrd + 5)) + 1)
    { s with start := vstart, stop := vend }
  { p.1 with startHeap := alignUp (p.1.start + p.2 * 8) (2 ^ maxOrd) }

theorem kmemInit2_eq (s : Kmem) (vstart vend : Nat) :
    kmemInit2 s vstart vend = freeHeap (initBlank s vstart vend).stop
      (initBlank s vstart vend).startHeap (initBlank s vstart vend) := rfl

theorem initBlank_heap (r : Region) (s : Kmem) : HeapOk r (initBlank s r.start r.stop) ∅ := by
  obtain ⟨p, hp⟩ : ∃ p, p =
    initOrders nOrd 0 r.topMarks { s with start := r.start, stop := r.stop } := ⟨_, rfl⟩
  obtain ⟨t, ht⟩ : ∃ t, t = initBlank s r.start r.stop := ⟨_, rfl⟩
  have htp : t = { p.1 with startHeap := alignUp (p.1.start + p.2 * 8) (2 ^ maxOrd) } := by
    rw [ht, hp, initBlank]
    rfl
  obtain ⟨htotal, hstart, hstop, horders, hmarks⟩ :=
    initOrders_spec nOrd 0 r.topMarks { s with start := r.start, stop := r.stop }
  rw [← hp] at htotal hstart hstop
  simp only [← hp, Nat.zero_add] at htotal horders hmarks
  have hord : ∀ o, IsOrder o → t.order o = ⟨NIL, r.offset o⟩ := by
    intro o ho
    have hlt : o - minOrd < nOrd := by have := ho.1; have := ho.2; unfold nOrd; omega
    have hexp : nOrd - 1 - (o - minOrd) = maxOrd - o := by
      have := ho.1; have := ho.2; unfold nOrd; omega
    rw [Kmem.order, htp, horders, if_pos hlt, hexp, Region.offset]
  have hlay : Layout r t := by
    refine ⟨?_, ?_, fun o ho => by rw [hord o ho]⟩
    · rw [htp, hstart, htotal, Region.startHeap]
    · rw [htp, hstop]
  have hblank : ∀ o j, IsOrder o → j < r.markCount o → t.getMark o j = blankMark := by
    intro o j ho hj
    have hidx : r.offset o + j < r.topMarks * (2 ^ nOrd - 1) := by
      have hpow : 2 ^ (maxOrd - o) * 2 ≤ 2 ^ nOrd := by
        rw [← Nat.pow_succ]
        exact Nat.pow_le_pow_right (by decide) (by have := ho.1; unfold nOrd; omega)
      have hone : 1 ≤ 2 ^ (maxOrd - o) := Nat.one_le_two_pow
      have hle : r.offset o + r.markCount o ≤ r.topMarks * (2 ^ nOrd - 1) := by
        rw [Region.offset, Region.markCount, ← Nat.mul_add]
        exact Nat.mul_le_mul_left _ (by omega)
      omega
    rw [Kmem.getMark, hord o ho, htp, hmarks, if_pos ⟨Nat.zero_le _, hidx⟩]
  have hempty : freeBlocks r t = ∅ := by
    ext b
    refine iff_of_false (fun hb => ?_) (Set.notMem_empty b)
    have hbit := hb.2.2
    rw [bit, hblank _ _ hb.1 hb.2.1] at hbit
    simp [blankMark] at hbit
  rw [← ht]
  refine ⟨⟨hlay, fun o ho => ⟨[], ?_⟩⟩, hempty ▸ Tiles.empty, ?_, fun x hx => hx.elim⟩
  · refine ⟨⟨by rw [hord o ho], trivial⟩, List.nodup_nil, fun i => ?_, fun i hi _ => ?_⟩
    · refine iff_of_false List.not_mem_nil fun hi => hi.2 ?_
      rw [hblank o i ho hi.1]
      rfl
    · rw [hblank o i ho hi]
      rfl
  · rw [hempty]
    exact fun b hb => hb.elim

/-- Each iteration of the loop frees the next block of the highest order. -/
theorem freeHeap_spec (b : Block) (top : b.ord = maxOrd)
    (h : HeapOk r s (Set.Iio (2 ^ b.ord * b.id))) (le : 2 ^ b.ord * b.id ≤ r.heapLen) :
    ∃ s', freeHeap r.stop (r.addr b) s = .ok s' ∧ HeapOk r s' (Set.Iio r.heapLen) := by
  obtain ⟨q, hq⟩ := r.heapLen_aligned
  rw [← top] at hq
  have hbq : b.id ≤ q := Nat.le_of_mul_le_mul_left (hq ▸ le) (Nat.two_pow_pos _)
  obtain ⟨n, hn⟩ := Nat.exists_eq_add_of_le hbq
  have hend := r.heapLen_le_iff b.id
  rw [← top] at hend
  have haddr : r.addr b = r.startHeap + 2 ^ b.ord * b.id := rfl
  induction n generalizing b s with
  | zero =>
    have hm : 2 ^ b.ord * b.id = r.heapLen := by rw [hq, hn, Nat.add_zero]
    refine ⟨s, ?_, hm ▸ h⟩
    rw [freeHeap, if_neg (by omega)]
    rfl
  | succ n ih =>
    have hpos := Nat.two_pow_pos b.ord
    have hsum := Nat.mul_add_one (2 ^ b.ord) b.id
    have hstep : 2 ^ b.ord * (b.id + 1) ≤ r.heapLen := by
      rw [hq]
      exact Nat.mul_le_mul_left _ (by omega)
    have ho : IsOrder b.ord := by rw [top]; decide
    obtain ⟨s₁, hs₁, hok₁, -⟩ := _kfree_spec h ho
      (fun x hx => lt_of_lt_of_le (Block.mem_cells_iff.mp hx).2 hstep)
      (fun x hx hlt => absurd (Set.mem_Iio.mp hlt) (not_lt.mpr (Block.mem_cells_iff.mp hx).1))
    have harea : Set.Iio (2 ^ b.ord * b.id) ∪ b.cells = Set.Iio (2 ^ b.ord * (b.id + 1)) := by
      ext x
      rw [Set.mem_union, Set.mem_Iio, Set.mem_Iio, Block.mem_cells_iff]
      omega
    rw [harea] at hok₁
    obtain ⟨s', hs', hok'⟩ := ih ⟨b.ord, b.id + 1⟩ top hok₁ hstep hq
      (by change b.id + 1 ≤ q; omega) (by change q = b.id + 1 + n; omega)
      (top ▸ r.heapLen_le_iff (b.id + 1)) rfl
    refine ⟨s', ?_, hok'⟩
    have hnext : r.addr ⟨b.ord, b.id + 1⟩ = r.addr b + 2 ^ maxOrd := by
      rw [haddr, Region.addr, hsum, top, Nat.add_assoc]
    have hkfree : kfree s (r.addr b) maxOrd = .ok s₁ := by
      have := kfree_eq r s ho
      rwa [hs₁, top] at this
    rw [hnext] at hs'
    rw [freeHeap, if_pos (by omega), hkfree, ok_bind, hs']

theorem kmemInit2_spec (r : Region) (s : Kmem) :
    ∃ s', kmemInit2 s r.start r.stop = .ok s' ∧ HeapOk r s' (Set.Iio r.heapLen) := by
  have hblank := initBlank_heap r s
  have hzero : Set.Iio (2 ^ (⟨maxOrd, 0⟩ : Block).ord * (⟨maxOrd, 0⟩ : Block).id) = ∅ := by
    simp
  obtain ⟨s', hs', hok⟩ := freeHeap_spec ⟨maxOrd, 0⟩ rfl (hzero ▸ hblank) (by simp)
  refine ⟨s', ?_, hok⟩
  have haddr : r.addr ⟨maxOrd, 0⟩ = r.startHeap := by simp [Region.addr]
  rw [haddr] at hs'
  rw [kmemInit2_eq, hblank.marks.layout.stop, hblank.marks.layout.startHeap]
  exact hs'

end Init

/-- States reached from `kmemInit2` by `kmalloc` and by `kfree` of blocks that
`kmalloc` returned with the same order and that are not yet freed. `L` is the
set of these live blocks, as pairs of address and order. -/
inductive Reachable (r : Region) : Kmem → Finset (Nat × Nat) → Prop
  | init {m s : Kmem} : kmemInit2 m r.start r.stop = .ok s → Reachable r s ∅
  | malloc {s s' : Kmem} {L : Finset (Nat × Nat)} {o p : Nat} : Reachable r s L → IsOrder o →
      kmalloc s o = .ok (s', some p) → Reachable r s' (insert (p, o) L)
  | exhausted {s s' : Kmem} {L : Finset (Nat × Nat)} {o : Nat} : Reachable r s L → IsOrder o →
      kmalloc s o = .ok (s', none) → Reachable r s' L
  | free {s s' : Kmem} {L : Finset (Nat × Nat)} {e : Nat × Nat} : Reachable r s L → e ∈ L →
      kfree s e.1 e.2 = .ok s' → Reachable r s' (L.erase e)

def liveBlocks (r : Region) (L : Finset (Nat × Nat)) : Set Block := {b | (r.addr b, b.ord) ∈ L}

/-- The live blocks tile what the free blocks leave over. -/
structure LiveOk (r : Region) (s : Kmem) (L : Finset (Nat × Nat)) (A : Set Nat) : Prop where
  heap : HeapOk r s A
  live : Tiles (liveBlocks r L) (Set.Iio r.heapLen \ A)
  blocks : ∀ e ∈ L, ∃ b : Block, IsOrder b.ord ∧ e = (r.addr b, b.ord)

section Reach
variable {r : Region} {s s' : Kmem} {L : Finset (Nat × Nat)} {A : Set Nat}

theorem addr_inj {b c : Block} (ord : b.ord = c.ord) (h : r.addr b = r.addr c) : b = c := by
  ext
  · exact ord
  · rw [Region.addr, Region.addr, ord] at h
    exact Nat.eq_of_mul_eq_mul_left (Nat.two_pow_pos _) (Nat.add_left_cancel h)

theorem liveBlocks_insert (r : Region) (L : Finset (Nat × Nat)) (b : Block) :
    liveBlocks r (insert (r.addr b, b.ord) L) = insert b (liveBlocks r L) := by
  ext c
  change (r.addr c, c.ord) ∈ insert (r.addr b, b.ord) L ↔ c = b ∨ (r.addr c, c.ord) ∈ L
  rw [Finset.mem_insert, Prod.mk.injEq]
  refine or_congr_left ⟨fun h => addr_inj h.2 h.1, ?_⟩
  rintro rfl
  exact ⟨rfl, rfl⟩

theorem liveBlocks_erase (r : Region) (L : Finset (Nat × Nat)) (b : Block) :
    liveBlocks r (L.erase (r.addr b, b.ord)) = liveBlocks r L \ {b} := by
  ext c
  change (r.addr c, c.ord) ∈ L.erase (r.addr b, b.ord) ↔ (r.addr c, c.ord) ∈ L ∧ c ≠ b
  rw [Finset.mem_erase, and_comm, Ne, Prod.mk.injEq]
  refine and_congr_right fun _ => not_congr ⟨fun h => addr_inj h.2 h.1, ?_⟩
  rintro rfl
  exact ⟨rfl, rfl⟩

theorem LiveOk.init (h : HeapOk r s (Set.Iio r.heapLen)) : LiveOk r s ∅ (Set.Iio r.heapLen) := by
  have hnone : liveBlocks r ∅ = ∅ := by
    ext b
    simp [liveBlocks]
  refine ⟨h, ?_, by simp⟩
  rw [hnone, sdiff_self]
  exact Tiles.empty

theorem LiveOk.malloc (h : LiveOk r s L A) {o k : Nat} (ho : IsOrder o)
    (sub : (⟨o, k⟩ : Block).cells ⊆ A) (hok : HeapOk r s' (A \ (⟨o, k⟩ : Block).cells)) :
    LiveOk r s' (insert (r.addr ⟨o, k⟩, o) L) (A \ (⟨o, k⟩ : Block).cells) := by
  obtain ⟨b, hb⟩ : ∃ b : Block, b = ⟨o, k⟩ := ⟨_, rfl⟩
  have hord : o = b.ord := by rw [hb]
  rw [← hb] at sub hok ⊢
  refine ⟨hok, ?_, fun e he => ?_⟩
  · have harea : Set.Iio r.heapLen \ (A \ b.cells) = (Set.Iio r.heapLen \ A) ∪ b.cells := by
      ext x
      have hin := h.heap.inside x
      have hsub := sub (a := x)
      simp only [Set.mem_sdiff, Set.mem_union, Set.mem_Iio]
      tauto
    rw [hord, liveBlocks_insert, harea]
    exact h.live.insert fun x hx hout => hout.2 (sub hx)
  · rcases Finset.mem_insert.mp he with rfl | he
    · exact ⟨b, hord ▸ ho, by rw [hord]⟩
    · exact h.blocks e he

theorem LiveOk.free (h : LiveOk r s L A) {e : Nat × Nat} (he : e ∈ L) :
    ∃ s' A', kfree s e.1 e.2 = .ok s' ∧ LiveOk r s' (L.erase e) A' := by
  obtain ⟨b, ho, rfl⟩ := h.blocks e he
  have hcells := h.live.inside b he
  obtain ⟨s', hs', hok, -⟩ := _kfree_spec h.heap ho (fun x hx => (hcells hx).1)
    (fun x hx => (hcells hx).2)
  refine ⟨s', A ∪ b.cells, (kfree_eq r s ho).trans hs', hok, ?_, fun f hf => ?_⟩
  · have harea : Set.Iio r.heapLen \ (A ∪ b.cells) = (Set.Iio r.heapLen \ A) \ b.cells := by
      ext x
      simp only [Set.mem_sdiff, Set.mem_union]
      tauto
    rw [liveBlocks_erase, harea]
    exact h.live.erase he
  · exact h.blocks f (Finset.mem_of_mem_erase hf)

theorem Reachable.liveOk (reach : Reachable r s L) : ∃ A, LiveOk r s L A := by
  induction reach with
  | @init m s hs =>
    obtain ⟨s', hs', hok⟩ := kmemInit2_spec r m
    rw [hs] at hs'
    cases hs'
    exact ⟨_, LiveOk.init hok⟩
  | malloc _ ho hrun ih =>
    obtain ⟨A, h⟩ := ih
    rw [kmalloc_eq _ ho] at hrun
    rcases _kmalloc_spec h.heap ho with ⟨hnone, -⟩ | ⟨k, s', hsome, hsub, hok, -⟩
    · rw [hnone] at hrun
      cases hrun
    · rw [hsome] at hrun
      cases hrun
      exact ⟨_, h.malloc ho hsub hok⟩
  | exhausted _ ho hrun ih =>
    obtain ⟨A, h⟩ := ih
    rw [kmalloc_eq _ ho] at hrun
    rcases _kmalloc_spec h.heap ho with ⟨hnone, -⟩ | ⟨k, s', hsome, -⟩
    · rw [hnone] at hrun
      cases hrun
      exact ⟨A, h⟩
    · rw [hsome] at hrun
      cases hrun
  | free _ he hrun ih =>
    obtain ⟨A, h⟩ := ih
    obtain ⟨s', A', hs', hok⟩ := h.free he
    rw [hrun] at hs'
    cases hs'
    exact ⟨A', hok⟩

theorem Reachable.fresh (reach : Reachable r s L) {o p : Nat} (ho : IsOrder o)
    (run : kmalloc s o = .ok (s', some p)) : (p, o) ∉ L := by
  obtain ⟨A, h⟩ := reach.liveOk
  rw [kmalloc_eq _ ho] at run
  rcases _kmalloc_spec h.heap ho with ⟨none, -⟩ | ⟨k, t, some, sub, -⟩
  · rw [none] at run
    cases run
  · rw [some] at run
    cases run
    intro live
    have first := (⟨o, k⟩ : Block).first_mem
    exact (h.live.inside ⟨o, k⟩ live first).2 (sub first)

end Reach

/-- The bytes of a block given by address and order. -/
def bytes (e : Nat × Nat) : Set Nat := Set.Ico e.1 (e.1 + 2 ^ e.2)

/-- The free blocks by address: a set bit `k` of order `o` stands for the block at
`blkid2mem s o k`. -/
def freeExtents (r : Region) (s : Kmem) : Set (Nat × Nat) :=
  {e | IsOrder e.2 ∧ ∃ k, k / 32 < r.markCount e.2 ∧ bit s e.2 k = true ∧
    e.1 = blkid2mem s e.2 k}

/-- Live and free blocks are naturally aligned, pairwise disjoint and cover the
heap exactly. -/
structure Partition (r : Region) (s : Kmem) (L : Finset (Nat × Nat)) : Prop where
  aligned : ∀ e, e ∈ L ∨ e ∈ freeExtents r s → 2 ^ e.2 ∣ e.1
  live_disjoint : ∀ e ∈ L, ∀ f ∈ L, e ≠ f → Disjoint (bytes e) (bytes f)
  free_disjoint : ∀ e ∈ freeExtents r s, ∀ f ∈ freeExtents r s, e ≠ f → Disjoint (bytes e) (bytes f)
  live_free_disjoint : ∀ e ∈ L, ∀ f ∈ freeExtents r s, Disjoint (bytes e) (bytes f)
  cover : ∀ y, (∃ e, (e ∈ L ∨ e ∈ freeExtents r s) ∧ y ∈ bytes e) ↔ s.startHeap ≤ y ∧ y < s.stop

/-- No two buddies of an order below the highest are both free. -/
def NoFreeBuddies (r : Region) (s : Kmem) : Prop :=
  ∀ o k, IsOrder o → o < maxOrd → k / 32 < r.markCount o →
    ¬ (bit s o k = true ∧ bit s o (k ^^^ 1) = true)

/-- Equal bitmaps in every order. -/
def SameBitmaps (r : Region) (s s' : Kmem) : Prop :=
  ∀ o, IsOrder o → ∀ i < r.markCount o, (s.getMark o i).bitmap = (s'.getMark o i).bitmap

section Untouched
variable {r : Region} {s : Kmem} {b c : Block} {o : Nat}

/-- With one block taken from an untouched heap, the only free block of its order is its buddy. -/
theorem free_iff_buddy (ok : HeapOk r s (Set.Iio r.heapLen \ b.cells)) (ho : IsOrder b.ord)
    (below : b.ord < maxOrd) (inside : ∀ x ∈ b.cells, x < r.heapLen) (same : c.ord = b.ord) :
    c ∈ freeBlocks r s ↔ c = b.buddy := by
  have whole : ∀ a : Block, a.ord < maxOrd → ∀ x ∈ a.cells, x < r.heapLen →
      ∀ y ∈ a.parent.cells, y < r.heapLen := fun a ha x hx lt =>
    cells_lt_heapLen ha (a.cells_subset_parent hx) lt
  rw [mem_iff_maximal ok.tiles ok.reduced (fun d hd => hd.1) c]
  constructor
  · rintro ⟨-, sub, top | cut⟩
    · omega
    · -- the parent of `c` is cut by `b`, so that both have the same parent
      obtain ⟨x, hx, out⟩ := Set.not_subset.mp cut
      have first := sub c.first_mem
      have hxb : x ∈ b.cells := by
        by_contra hxb
        exact out ⟨whole c (same ▸ below) _ c.first_mem first.1 x hx, hxb⟩
      rcases Block.mem_parent.mp hx with hx | hx
      · exact absurd hxb (sub hx).2
      · have meet : c.buddy = b := Block.eq_of_meet same hx hxb
        rw [← meet, Block.buddy_buddy]
  · rintro rfl
    refine ⟨ho, fun x hx => ⟨?_, fun hb => Block.buddy_disjoint hb hx⟩, .inr fun sub => ?_⟩
    · exact whole b below _ b.first_mem (inside _ b.first_mem) x (Block.mem_parent.mpr (.inr hx))
    · rw [Block.parent_buddy] at sub
      exact (sub (b.cells_subset_parent b.first_mem)).2 b.first_mem

/-- `kmalloc` succeeds as long as one block of the highest order is free. -/
theorem HeapOk.kmalloc_some {A : Set Nat} {k : Nat} (ok : HeapOk r s A) (ho : IsOrder o)
    (room : (⟨maxOrd, k⟩ : Block).cells ⊆ A) :
    ∃ j s', kmalloc s o = .ok (s', some (r.addr ⟨o, j⟩)) ∧ (⟨o, j⟩ : Block).cells ⊆ A ∧
      HeapOk r s' (A \ (⟨o, j⟩ : Block).cells) := by
  rcases _kmalloc_spec ok ho with ⟨-, none⟩ | ⟨j, s', run, sub, ok', -⟩
  · have free : (⟨maxOrd, k⟩ : Block) ∈ freeBlocks r s :=
      (mem_iff_maximal ok.tiles ok.reduced (fun d hd => hd.1) _).mpr
        ⟨⟨(by decide : minOrd ≤ maxOrd), le_rfl⟩, room, .inl rfl⟩
    exact absurd (none _ free) (not_lt.mpr ho.2)
  · exact ⟨j, s', (kmalloc_eq s ho).trans run, sub, ok'⟩

theorem top_block_inside {k : Nat} (lt : k * 2 ^ maxOrd < r.heapLen) :
    (⟨maxOrd, k⟩ : Block).cells ⊆ Set.Iio r.heapLen :=
  fun x hx => cells_lt_heapLen le_rfl (Block.first_mem ⟨maxOrd, k⟩) lt x hx

/-- Two blocks of one order taken one after the other from an untouched heap are neighbours. -/
theorem kmalloc_neighbours (ok : HeapOk r s (Set.Iio r.heapLen)) (ho : IsOrder o)
    (below : o < maxOrd) (nonempty : 0 < r.heapLen) :
    ∃ s₁ s₂ p q, kmalloc s o = .ok (s₁, some p) ∧ kmalloc s₁ o = .ok (s₂, some q) ∧
      (q = p + 2 ^ o ∨ p = q + 2 ^ o) := by
  obtain ⟨k, s₁, run₁, sub, ok₁⟩ :=
    ok.kmalloc_some (k := 0) ho (top_block_inside (by rwa [Nat.zero_mul]))
  have free := fun c same => free_iff_buddy (c := c) ok₁ ho below sub same
  have head : (s₁.order o).head ≠ NIL := (head_ne_nil_iff ok₁.marks ho).mpr
    ⟨_, (free (⟨o, k⟩ : Block).buddy rfl).mpr rfl⟩
  obtain ⟨j, s₂, run₂, mem, -⟩ := getBlk_spec ok₁ ho head
  have buddy : (⟨o, j⟩ : Block) = (⟨o, k⟩ : Block).buddy := (free ⟨o, j⟩ rfl).mp mem
  have hj : j = k ^^^ 1 := congrArg Block.id buddy
  refine ⟨s₁, s₂, _, r.addr ⟨o, j⟩, run₁, ?_, ?_⟩
  · rw [kmalloc_eq s₁ ho, _kmalloc, if_pos head, run₂]
  · have next : ∀ i, r.addr ⟨o, i + 1⟩ = r.addr ⟨o, i⟩ + 2 ^ o := fun i => by
      simp only [Region.addr, Nat.mul_add, Nat.mul_one, Nat.add_assoc]
    subst hj
    rcases Block.xor_one_cases k with ⟨-, near⟩ | ⟨-, near⟩
    · exact .inl (near ▸ next k)
    · exact .inr ((congrArg (fun i => r.addr ⟨o, i⟩) near).symm.trans (next _))

end Untouched

section Runs
variable {r : Region} {s s' : Kmem} {L : Finset (Nat × Nat)} {A : Set Nat}

theorem mem_bytes_addr {b : Block} {y : Nat} :
    y ∈ bytes (r.addr b, b.ord) ↔ r.startHeap ≤ y ∧ y - r.startHeap ∈ b.cells := by
  have hsum := Nat.mul_add_one (2 ^ b.ord) b.id
  simp only [bytes, Set.mem_Ico, Block.mem_cells_iff, Region.addr]
  omega

variable {e : Nat × Nat} {B : Set Nat}

theorem mem_freeExtents (lay : Layout r s) :
    e ∈ freeExtents r s ↔ ∃ b ∈ freeBlocks r s, e = (r.addr b, b.ord) := by
  constructor
  · rintro ⟨ho, k, hk, hbit, haddr⟩
    refine ⟨⟨e.2, k⟩, ⟨ho, hk, hbit⟩, Prod.ext ?_ rfl⟩
    rw [haddr, blkid2mem, lay.startHeap]
    rfl
  · rintro ⟨b, ⟨ho, hk, hbit⟩, rfl⟩
    exact ⟨ho, b.id, hk, hbit, (blkid2mem_eq lay b).symm⟩

theorem disjoint_bytes {b c : Block} (h : ∀ x, x ∈ b.cells → x ∉ c.cells) :
    Disjoint (bytes (r.addr b, b.ord)) (bytes (r.addr c, c.ord)) := by
  rw [Set.disjoint_left]
  intro y hb hc
  exact h _ (mem_bytes_addr.mp hb).2 (mem_bytes_addr.mp hc).2

theorem LiveOk.live_free_disjoint (h : LiveOk r s L A) {f : Nat × Nat} (live : e ∈ L)
    (free : f ∈ freeExtents r s) : Disjoint (bytes e) (bytes f) := by
  obtain ⟨b, -, rfl⟩ := h.blocks e live
  obtain ⟨c, hc, rfl⟩ := (mem_freeExtents h.heap.marks.layout).mp free
  exact disjoint_bytes fun x hx hy => (h.live.inside b live hx).2 (h.heap.tiles.inside c hc hy)

theorem LiveOk.partition (h : LiveOk r s L A) (aligned : r.Aligned) : Partition r s L := by
  have lay := h.heap.marks.layout
  have free := fun e => mem_freeExtents (e := e) lay
  have live : ∀ e ∈ L, ∃ b ∈ liveBlocks r L, IsOrder b.ord ∧ e = (r.addr b, b.ord) := by
    intro e he
    obtain ⟨b, ho, rfl⟩ := h.blocks e he
    exact ⟨b, he, ho, rfl⟩
  refine ⟨?_, ?_, ?_, ?_, ?_⟩
  · intro e he
    have haddr : ∀ b : Block, IsOrder b.ord → 2 ^ b.ord ∣ r.addr b := fun b ho =>
      dvd_of_mod_eq_zero (and_two_pow_sub_one_eq_mod (r.addr b) _ ▸ addr_mask r ho.2)
    rcases he with he | he
    · obtain ⟨b, -, ho, rfl⟩ := live e he
      exact haddr b ho
    · obtain ⟨b, hb, rfl⟩ := (free e).mp he
      exact haddr b hb.1
  · intro e he f hf hne
    obtain ⟨b, hb, -, rfl⟩ := live e he
    obtain ⟨c, hc, -, rfl⟩ := live f hf
    exact disjoint_bytes fun x hx hy => hne (by rw [h.live.disjoint b hb c hc x hx hy])
  · intro e he f hf hne
    obtain ⟨b, hb, rfl⟩ := (free e).mp he
    obtain ⟨c, hc, rfl⟩ := (free f).mp hf
    exact disjoint_bytes fun x hx hy => hne (by rw [h.heap.tiles.disjoint b hb c hc x hx hy])
  · exact fun e he f hf => h.live_free_disjoint he hf
  · intro y
    have hstop : y < s.stop ∧ s.startHeap ≤ y ↔ y - r.startHeap < r.heapLen ∧ r.startHeap ≤ y := by
      rw [lay.stop, lay.startHeap, aligned.heapLen_eq]
      omega
    constructor
    · rintro ⟨e, he, hy⟩
      have hcell : ∃ b : Block, e = (r.addr b, b.ord) ∧ ∀ x ∈ b.cells, x < r.heapLen := by
        rcases he with he | he
        · obtain ⟨b, hb, -, rfl⟩ := live e he
          exact ⟨b, rfl, fun x hx => (h.live.inside b hb hx).1⟩
        · obtain ⟨b, hb, rfl⟩ := (free e).mp he
          exact ⟨b, rfl, fun x hx => h.heap.inside x (h.heap.tiles.inside b hb hx)⟩
      obtain ⟨b, rfl, hin⟩ := hcell
      obtain ⟨hle, hx⟩ := mem_bytes_addr.mp hy
      exact (hstop.mpr ⟨hin _ hx, hle⟩).symm
    · intro hy
      obtain ⟨hlt, hle⟩ := hstop.mp hy.symm
      by_cases hA : y - r.startHeap ∈ A
      · obtain ⟨b, hb, hx⟩ := h.heap.tiles.cover _ hA
        exact ⟨_, Or.inr ((free _).mpr ⟨b, hb, rfl⟩), mem_bytes_addr.mpr ⟨hle, hx⟩⟩
      · obtain ⟨b, hb, hx⟩ := h.live.cover _ ⟨hlt, hA⟩
        exact ⟨_, Or.inl hb, mem_bytes_addr.mpr ⟨hle, hx⟩⟩

theorem Reachable.inside (reach : Reachable r s L) (live : e ∈ L) :
    r.startHeap ≤ e.1 ∧ e.1 < r.startHeap + r.heapLen := by
  obtain ⟨A, h⟩ := reach.liveOk
  obtain ⟨b, -, rfl⟩ := h.blocks e live
  have first : b.id * 2 ^ b.ord < r.heapLen := (h.live.inside b live b.first_mem).1
  rw [Nat.mul_comm] at first
  exact ⟨Nat.le_add_right _ _, Nat.add_lt_add_left first _⟩

theorem Reachable.kmalloc_ok (reach : Reachable r s L) {o : Nat} (ho : IsOrder o) :
    ∃ res, kmalloc s o = .ok res := by
  obtain ⟨A, h⟩ := reach.liveOk
  rw [kmalloc_eq s ho]
  rcases _kmalloc_spec h.heap ho with ⟨run, -⟩ | ⟨k, s', run, -⟩
  · exact ⟨_, run⟩
  · exact ⟨_, run⟩

theorem Reachable.kfree_ok (reach : Reachable r s L) (live : e ∈ L) :
    ∃ s', kfree s e.1 e.2 = .ok s' := by
  obtain ⟨A, h⟩ := reach.liveOk
  obtain ⟨s', -, run, -⟩ := h.free live
  exact ⟨s', run⟩

theorem LiveOk.noFreeBuddies (h : LiveOk r s L A) : NoFreeBuddies r s := by
  rintro o k ho hlt hk ⟨hbit, hbuddy⟩
  have hrange : (k ^^^ 1) / 32 < r.markCount o := (xor_one_div k).symm ▸ hk
  exact h.heap.reduced ⟨o, k⟩ ⟨ho, hk, hbit⟩ hlt ⟨ho, hrange, hbuddy⟩

/-- The area of the free blocks is the complement of the live ones. -/
theorem LiveOk.area_eq (h : LiveOk r s L A) (h' : LiveOk r s' L B) : A = B := by
  have sub : ∀ {s s' : Kmem} {A B : Set Nat}, LiveOk r s L A → LiveOk r s' L B → A ⊆ B := by
    intro s s' A B h h' x hx
    by_contra hB
    obtain ⟨b, hb, hxb⟩ := h'.live.cover x ⟨h.heap.inside x hx, hB⟩
    exact (h.live.inside b hb hxb).2 hx
  exact Set.Subset.antisymm (sub h h') (sub h' h)

theorem sameBitmaps_of_freeBlocks (h : freeBlocks r s = freeBlocks r s') : SameBitmaps r s s' := by
  intro o ho i hi
  apply BitVec.eq_of_getLsbD_eq
  intro j hj
  have hdiv : (i * 32 + j) / 32 = i := by omega
  have hmod : (i * 32 + j) % 32 = j := by omega
  have hmem := congrArg (fun F => (⟨o, i * 32 + j⟩ : Block) ∈ F) h
  simp only [mem_freeBlocks, bit, hdiv, hmod, ho, hi, true_and, eq_iff_iff] at hmem
  exact Bool.eq_iff_iff.mpr hmem

/-- The live blocks determine the free ones. -/
theorem LiveOk.freeBlocks_eq (h : LiveOk r s L A) (h' : LiveOk r s' L B) :
    freeBlocks r s = freeBlocks r s' := by
  have hAB := h.area_eq h'
  subst hAB
  exact reduced_unique h.heap.tiles h'.heap.tiles h.heap.reduced h'.heap.reduced
    (fun b hb => hb.1) (fun b hb => hb.1)

theorem LiveOk.sameBitmaps (h : LiveOk r s L A) (h' : LiveOk r s' L B) : SameBitmaps r s s' :=
  sameBitmaps_of_freeBlocks (h.freeBlocks_eq h')

theorem Reachable.freeExtents_eq (reach : Reachable r s L) (reach' : Reachable r s' L) :
    freeExtents r s = freeExtents r s' := by
  obtain ⟨A, h⟩ := reach.liveOk
  obtain ⟨B, h'⟩ := reach'.liveOk
  ext e
  rw [mem_freeExtents h.heap.marks.layout, mem_freeExtents h'.heap.marks.layout, h.freeBlocks_eq h']

/-- The region `kmain` passes to `kmemInit2`. -/
def bootRegion : Region where
  start := p2v initKernmap
  stop := p2v physTop
  nonempty := by decide
  bounded := by decide
  few_marks := by decide

theorem bootRegion_aligned : bootRegion.Aligned := ⟨by decide, by decide⟩

end Runs

end BuddyHeap
