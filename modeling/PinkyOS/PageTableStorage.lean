import PinkyOS.PageTablePool

/-!
# When page tables have their storage to themselves

A table of the boot free list owns `PT_SZ` bytes; one that comes from the buddy heap owns a block
of order `PT_ORDER`, a quarter of that. The live tables are apart from each other and from all
other blocks as long as none of them comes from the heap, and only then.
-/
namespace PageTablePool
open MemoryLayout BuddyHeap DyadicTiling Finset

/-- The bytes `kpt_alloc` clears and the MMU reads. -/
def tableBytes (t : Nat) : Set Nat := Set.Ico t (t + ptSz)

/-- The memory a table was given: a slot of the pool, or a block of the heap. -/
def owned (image : Image) (t : Nat) : Set Nat :=
  if t < p2v initKernmap then
    Set.Ico t (t + ptSz) ∩ Set.Ico (alignUp image.kend ptSz) (p2v initKernmap)
  else
    bytes (t, ptOrder)

structure Exclusive (image : Image) (s : State) : Prop where
  aligned : ∀ t ∈ s.tables, ptSz ∣ t
  owned : ∀ t ∈ s.tables, tableBytes t ⊆ owned image t
  tables : ∀ t ∈ s.tables, ∀ u ∈ s.tables, t ≠ u → Disjoint (tableBytes t) (tableBytes u)
  blocks : ∀ t ∈ s.tables, ∀ e ∈ s.blocks, Disjoint (tableBytes t) (bytes e)
  recovered : ∀ t ∈ s.tables, entryAddr (tableEntry t) = t ∧ ptAddr (tableEntry t) = t

/-- A slot of the memory `kmain` gives to `kpt_freerange`. -/
structure InPool (image : Image) (t : Nat) : Prop where
  aligned : ptSz ∣ t
  above : alignUp image.kend ptSz ≤ t
  below : t + ptSz ≤ p2v initKernmap

theorem freelist_kptFreerange {s : Kpt} {low hi : Nat} (hl : ptSz ∣ low) (hh : ptSz ∣ hi)
    (nodup : s.freelist.Nodup) (before : ∀ t ∈ s.freelist, t < low) :
    (kptFreerange s low hi).freelist.Nodup ∧ (kptFreerange s low hi).heap = s.heap ∧
      ∀ t ∈ (kptFreerange s low hi).freelist,
        t ∈ s.freelist ∨ ptSz ∣ t ∧ low ≤ t ∧ t + ptSz ≤ hi := by
  fun_induction kptFreerange s low hi with
  | case1 s low more ih =>
    have fresh : low ∉ s.freelist := fun h => lt_irrefl _ (before low h)
    have pos : 0 < ptSz := by decide
    obtain ⟨nodup, heap, mem⟩ := ih ((Nat.dvd_add_right hl).mpr dvd_rfl)
      (List.nodup_cons.mpr ⟨fresh, nodup⟩) (by
        intro t ht
        rcases List.mem_cons.mp ht with rfl | ht
        · omega
        · have := before t ht
          omega)
    refine ⟨nodup, heap, fun t ht => ?_⟩
    rcases mem t ht with ht | ⟨ha, hb, hc⟩
    · rcases List.mem_cons.mp ht with rfl | ht
      · -- both ends are multiples of the table size, so that the slot fits
        obtain ⟨i, rfl⟩ := hl
        obtain ⟨j, rfl⟩ := hh
        have hij : i < j := Nat.lt_of_mul_lt_mul_left more
        exact .inr ⟨⟨i, rfl⟩, le_refl _, by
          rw [← Nat.mul_succ]
          exact Nat.mul_le_mul_left _ hij⟩
      · exact .inl ht
    · exact .inr ⟨ha, by omega, hc⟩
  | case2 s low done => exact ⟨nodup, rfl, fun t ht => .inl ht⟩

/-- The live tables that come from the heap, as blocks of it. -/
def heapTables (tables : Finset Nat) : Finset (Nat × Nat) :=
  (tables.filter fun t => p2v initKernmap ≤ t).image fun t => (t, ptOrder)

variable {tables : Finset Nat} {a r t : Nat} {k : Kpt}

theorem mem_heapTables {e : Nat × Nat} :
    e ∈ heapTables tables ↔ e.1 ∈ tables ∧ p2v initKernmap ≤ e.1 ∧ e.2 = ptOrder := by
  obtain ⟨a, o⟩ := e
  simp only [heapTables, mem_image, mem_filter, Prod.mk.injEq]
  constructor
  · rintro ⟨t, ⟨ht, hk⟩, rfl, rfl⟩
    exact ⟨ht, hk, rfl⟩
  · rintro ⟨ht, hk, rfl⟩
    exact ⟨a, ⟨ht, hk⟩, rfl, rfl⟩

theorem heapTables_insert_low (low : t < p2v initKernmap) :
    heapTables (insert t tables) = heapTables tables := by
  ext e
  simp only [mem_heapTables, mem_insert]
  constructor
  · rintro ⟨h, hk, ho⟩
    exact ⟨h.resolve_left (by omega), hk, ho⟩
  · rintro ⟨h, rest⟩
    exact ⟨.inr h, rest⟩

theorem heapTables_insert_high (high : p2v initKernmap ≤ t) :
    heapTables (insert t tables) = insert (t, ptOrder) (heapTables tables) := by
  ext e
  simp only [mem_heapTables, mem_insert, Prod.ext_iff]
  constructor
  · rintro ⟨h | h, hk, ho⟩
    · exact .inl ⟨h, ho⟩
    · exact .inr ⟨h, hk, ho⟩
  · rintro (⟨h, ho⟩ | ⟨h, rest⟩)
    · exact ⟨.inl h, h ▸ high, ho⟩
    · exact ⟨.inr h, rest⟩

theorem heapTables_erase_low (low : t < p2v initKernmap) :
    heapTables (tables.erase t) = heapTables tables := by
  ext e
  simp only [mem_heapTables, mem_erase]
  constructor
  · rintro ⟨⟨-, h⟩, rest⟩
    exact ⟨h, rest⟩
  · rintro ⟨h, hk, ho⟩
    exact ⟨⟨by omega, h⟩, hk, ho⟩

theorem heapTables_erase_high (tables : Finset Nat) (t : Nat) :
    heapTables (tables.erase t) = (heapTables tables).erase (t, ptOrder) := by
  ext e
  simp only [mem_heapTables, mem_erase, ne_eq, Prod.ext_iff]
  constructor
  · rintro ⟨⟨hne, h⟩, hk, ho⟩
    exact ⟨fun hh => hne hh.1, h, hk, ho⟩
  · rintro ⟨hne, h, hk, ho⟩
    exact ⟨⟨fun hh => hne ⟨hh, ho⟩, h⟩, hk, ho⟩

structure Storage (image : Image) (s : State) : Prop where
  heap : BuddyHeap.Reachable bootRegion s.kpt.heap (s.blocks ∪ heapTables s.tables)
  apart : Disjoint s.blocks (heapTables s.tables)
  free : ∀ t ∈ s.kpt.freelist, InPool image t
  nodup : s.kpt.freelist.Nodup
  used : ∀ t ∈ s.tables, t < p2v initKernmap → InPool image t ∧ t ∉ s.kpt.freelist

variable {image : Image} {s : State}

theorem Storage.booted (boot : Booted image s) : Storage image s := by
  obtain ⟨m, mem, heap, init, rfl⟩ := boot
  obtain ⟨nodup, same, slots⟩ := freelist_kptFreerange (s := ⟨[], heap, mem⟩)
    (alignUp_dvd image.kend ptSz) (by decide : ptSz ∣ p2v initKernmap) List.nodup_nil (by simp)
  constructor
  case heap =>
    change BuddyHeap.Reachable bootRegion (kptFreerange _ _ _).heap _
    rw [same]
    exact .init init
  case apart => exact disjoint_empty_left _
  case free =>
    intro t ht
    obtain ⟨aligned, above, below⟩ := (slots t ht).resolve_left (by simp)
    exact ⟨aligned, above, below⟩
  case nodup => exact nodup
  case used => simp

theorem Storage.high (good : Storage image s) {e : Nat × Nat}
    (live : e ∈ s.blocks ∪ heapTables s.tables) : p2v initKernmap ≤ e.1 :=
  bootRegion.start_le_startHeap.trans (good.heap.inside live).1

theorem isOrder_ptOrder : IsOrder ptOrder := by decide

/-- What `kpt_alloc` does: a slot of the pool if there is one, a heap block otherwise. -/
theorem kptAlloc_cases {s : Kpt} (run : kptAlloc s = .ok (k, r)) : k.mem = memset0 s.mem r ptSz ∧
      ((s.freelist = r :: k.freelist ∧ k.heap = s.heap) ∨
        (s.freelist = [] ∧ k.freelist = [] ∧ kmalloc s.heap ptOrder = .ok (k.heap, some r))) := by
  unfold kptAlloc at run
  split at run
  · rename_i first rest hl
    cases run
    exact ⟨rfl, .inl ⟨hl, rfl⟩⟩
  · rename_i hl
    cases hm : kmalloc s.heap ptOrder with
    | error msg =>
      rw [hm] at run
      cases run
    | ok res =>
      obtain ⟨heap, p⟩ := res
      rw [hm] at run
      cases p with
      | none => cases run
      | some p =>
        cases run
        exact ⟨rfl, .inr ⟨hl, hl, rfl⟩⟩

theorem Storage.kptAlloc (good : Storage image s) (run : kptAlloc s.kpt = .ok (k, r)) :
    Storage image { s with kpt := k, tables := insert r s.tables } := by
  obtain ⟨-, ⟨hl, hheap⟩ | ⟨hl, hk, hm⟩⟩ := kptAlloc_cases run
  · have slot : InPool image r := good.free r (hl ▸ List.mem_cons_self)
    have low : r < p2v initKernmap := by
      have := slot.below
      have : 0 < ptSz := by decide
      omega
    have nodup := good.nodup
    rw [hl] at nodup
    obtain ⟨gone, nodup⟩ := List.nodup_cons.mp nodup
    refine ⟨?_, ?_, fun t ht => good.free t (hl ▸ List.mem_cons_of_mem r ht), nodup, ?_⟩
    · rw [heapTables_insert_low low]
      change BuddyHeap.Reachable bootRegion k.heap _
      rw [hheap]
      exact good.heap
    · rw [heapTables_insert_low low]
      exact good.apart
    · intro t ht hlow
      rcases mem_insert.mp ht with rfl | ht
      · exact ⟨slot, gone⟩
      · obtain ⟨hp, hf⟩ := good.used t ht hlow
        exact ⟨hp, fun h => hf (hl ▸ List.mem_cons_of_mem r h)⟩
  · have fresh := good.heap.fresh isOrder_ptOrder hm
    have heap := BuddyHeap.Reachable.malloc good.heap isOrder_ptOrder hm
    have high : p2v initKernmap ≤ r :=
      bootRegion.start_le_startHeap.trans (heap.inside (mem_insert_self ..)).1
    refine ⟨?_, ?_, ?_, ?_, ?_⟩
    · rw [heapTables_insert_high high, union_insert]
      exact heap
    · rw [heapTables_insert_high high, disjoint_insert_right]
      exact ⟨fun h => fresh (mem_union_left _ h), good.apart⟩
    · simp [hk]
    · simp [hk]
    · intro t ht hlow
      have old := (mem_insert.mp ht).resolve_left (by omega)
      exact ⟨(good.used t old hlow).1, by simp [hk]⟩

theorem Storage.kptFree (good : Storage image s) (live : t ∈ s.tables)
    (run : kptFree s.kpt t = .ok k) :
    Storage image { s with kpt := k, tables := s.tables.erase t } := by
  unfold PageTablePool.kptFree at run
  split at run
  · rename_i high
    have block : (t, ptOrder) ∈ heapTables s.tables := mem_heapTables.mpr ⟨live, high, rfl⟩
    cases hf : kfree s.kpt.heap t ptOrder with
    | error msg =>
      rw [hf] at run
      cases run
    | ok heap =>
      rw [hf] at run
      cases run
      have freed := BuddyHeap.Reachable.free good.heap (mem_union_right _ block) hf
      have other : (t, ptOrder) ∉ s.blocks := disjoint_right.mp good.apart block
      refine ⟨?_, ?_, good.free, good.nodup, fun u hu => good.used u (mem_of_mem_erase hu)⟩
      · rw [erase_union_distrib, erase_eq_of_notMem other] at freed
        rw [heapTables_erase_high]
        exact freed
      · rw [heapTables_erase_high]
        exact good.apart.mono_right (erase_subset _ _)
  · rename_i low
    cases run
    have low : t < p2v initKernmap := not_le.mp low
    obtain ⟨slot, busy⟩ := good.used t live low
    refine ⟨?_, ?_, ?_, List.nodup_cons.mpr ⟨busy, good.nodup⟩, ?_⟩
    · rw [heapTables_erase_low low]
      exact good.heap
    · rw [heapTables_erase_low low]
      exact good.apart
    · intro u hu
      rcases List.mem_cons.mp hu with rfl | hu
      · exact slot
      · exact good.free u hu
    · intro u hu hlow
      obtain ⟨hne, hu⟩ := mem_erase.mp hu
      obtain ⟨hp, hf⟩ := good.used u hu hlow
      refine ⟨hp, fun h => ?_⟩
      rcases List.mem_cons.mp h with h | h
      · exact hne h
      · exact hf h

theorem Storage.step {t : State} {a : Act} (good : Storage image s)
    (next : step s a = some t) : Storage image t := by
  cases a with
  | kptAlloc =>
    simp only [PageTablePool.step] at next
    split at next <;> cases next
    rename_i run
    exact good.kptAlloc run
  | kptFree t =>
    simp only [PageTablePool.step] at next
    split at next
    · rename_i live
      split at next <;> cases next
      rename_i run
      exact good.kptFree live run
    · cases next
  | kmalloc o =>
    simp only [PageTablePool.step] at next
    split at next
    · rename_i ho
      split at next <;> cases next
      · rename_i heap p run
        refine ⟨?_, ?_, good.free, good.nodup, good.used⟩
        · rw [insert_union]
          exact .malloc good.heap ho run
        · rw [disjoint_insert_left]
          have fresh := good.heap.fresh ho run
          exact ⟨fun h => fresh (mem_union_right _ h), good.apart⟩
      · rename_i heap run
        exact ⟨.exhausted good.heap ho run, good.apart, good.free, good.nodup, good.used⟩
    · cases next
  | kfree e =>
    simp only [PageTablePool.step] at next
    split at next
    · rename_i live
      split at next <;> cases next
      rename_i heap run
      have freed := BuddyHeap.Reachable.free good.heap (mem_union_left _ live) run
      have other : e ∉ heapTables s.tables := disjoint_left.mp good.apart live
      refine ⟨?_, good.apart.mono_left (erase_subset _ _), good.free, good.nodup, good.used⟩
      rw [erase_union_distrib, erase_eq_of_notMem other] at freed
      exact freed
    · cases next

theorem Reachable.storage (reach : Reachable image s) : Storage image s :=
  reach.invariant (fun _ boot => Storage.booted boot) fun _ _ _ good next => good.step next

/-! ### Descriptors -/

theorem tableEntry_toNat {q : Nat} (small : q < 2 ^ 36) :
    (tableEntry (p2v (q <<< 12))).toNat = q <<< 12 + 3 := by
  have fits : q <<< 12 < 2 ^ 64 := by
    rw [Nat.shiftLeft_eq]
    omega
  have addr : v2p (p2v (q <<< 12)) = q <<< 12 := Nat.add_sub_cancel ..
  have flags : entryTable ||| entryValid = 3#64 := by decide
  rw [tableEntry, addr, BitVec.or_assoc, flags, BitVec.toNat_or, BitVec.toNat_ofNat,
    Nat.mod_eq_of_lt fits]
  exact (Nat.shiftLeft_add_eq_or_of_lt (by decide) q).symm

theorem tableEntry_recovered {q : Nat} (small : q < 2 ^ 36) :
    entryAddr (tableEntry (p2v (q <<< 12))) = p2v (q <<< 12) ∧
      ptAddr (tableEntry (p2v (q <<< 12))) = p2v (q <<< 12) := by
  have value := tableEntry_toNat small
  constructor
  · have masked : (q <<< 12 + 3) &&& pgAddrMask.toNat = q <<< 12 := by
      have mask : pgAddrMask.toNat = (2 ^ 36 - 1) <<< 12 := by decide
      rw [Nat.shiftLeft_add_eq_or_of_lt (by decide), mask, Nat.and_or_distrib_right,
        ← Nat.shiftLeft_and_distrib, Nat.and_two_pow_sub_one_of_lt_two_pow small]
      exact Nat.or_zero _
    rw [entryAddr, BitVec.toNat_and, value, masked]
  · have rounded : alignDn (q <<< 12 + 3) ptSz = q <<< 12 := by
      rw [alignDn, ptSz_eq, Nat.shiftLeft_eq]
      omega
    rw [ptAddr, value, rounded]

theorem InPool.slot (slot : InPool image t) : ∃ q, q < 2 ^ 36 ∧ t = p2v (q <<< 12) := by
  obtain ⟨i, hi⟩ := slot.aligned
  have above := (image.linked.trans (le_alignUp (by decide) image.kend)).trans slot.above
  have below := slot.below
  have sizes : ptSz = 4096 ∧ p2v initKernmap = 0xFFFFFFFF40200000 ∧
      p2v phyStart = 0xFFFFFFFF40000000 ∧ kernBase = 0xFFFFFFFF00000000 := by decide
  rw [sizes.1] at hi
  refine ⟨(t - kernBase) / 4096, by omega, ?_⟩
  rw [p2v, Nat.shiftLeft_eq]
  omega

/-! ### Exclusive storage -/

theorem mem_tableBytes : a ∈ tableBytes t ↔ t ≤ a ∧ a < t + ptSz := Iff.rfl

theorem InPool.eq_of_meet {u : Nat} (ht : InPool image t) (hu : InPool image u)
    (hat : a ∈ tableBytes t) (hau : a ∈ tableBytes u) : t = u := by
  obtain ⟨i, rfl⟩ := ht.aligned
  obtain ⟨j, rfl⟩ := hu.aligned
  simp only [mem_tableBytes, ← Nat.mul_succ] at hat hau
  have hij : i < j + 1 := Nat.lt_of_mul_lt_mul_left (hat.1.trans_lt hau.2)
  have hji : j < i + 1 := Nat.lt_of_mul_lt_mul_left (hau.1.trans_lt hat.2)
  have same : i = j := by omega
  rw [same]

/-- A slot of the pool lies below every block and every table of the heap. -/
theorem InPool.below_heap (slot : InPool image t) (ha : a ∈ tableBytes t) : a < p2v initKernmap :=
  lt_of_lt_of_le ha.2 slot.below

theorem Storage.exclusive (good : Storage image s)
    (pooled : ∀ t ∈ s.tables, t < p2v initKernmap) : Exclusive image s := by
  have slot : ∀ t ∈ s.tables, InPool image t := fun t ht => (good.used t ht (pooled t ht)).1
  constructor
  case aligned => exact fun t ht => (slot t ht).aligned
  case owned =>
    intro t ht a ha
    rw [PageTablePool.owned, if_pos (pooled t ht)]
    exact ⟨ha, (slot t ht).above.trans ha.1, (slot t ht).below_heap ha⟩
  case tables =>
    intro t ht u hu hne
    rw [Set.disjoint_left]
    exact fun a hat hau => hne ((slot t ht).eq_of_meet (slot u hu) hat hau)
  case blocks =>
    intro t ht e he
    rw [Set.disjoint_left]
    intro a hat hae
    have high := good.high (mem_union_left _ he)
    exact absurd ((slot t ht).below_heap hat) (not_lt.mpr (high.trans hae.1))
  case recovered =>
    intro t ht
    obtain ⟨q, small, rfl⟩ := (slot t ht).slot
    exact tableEntry_recovered small

/-- A table of the heap does not even have the bytes it is cleared over. -/
theorem not_owned (high : p2v initKernmap ≤ t) : ¬ tableBytes t ⊆ owned image t := by
  intro sub
  have last : t + 1024 ∈ owned image t :=
    sub ⟨Nat.le_add_right _ _, Nat.add_lt_add_left (by decide) t⟩
  rw [owned, if_neg (not_lt.mpr high)] at last
  have size : 2 ^ ptOrder = 1024 := rfl
  have := last.2
  simp only [size] at this
  omega

/-- A kernel image that leaves 64 slots; `paging_init` takes 63 of them. -/
def smallImage : Image where
  kend := p2v initKernmap - 64 * ptSz
  linked := by decide

theorem smallImage_slot {k : Nat} (less : k < 64) : InPool smallImage (smallImage.kend + k * ptSz) := by
  have start : smallImage.kend = 0xFFFFFFFF401C0000 := rfl
  have top : p2v initKernmap = 0xFFFFFFFF40200000 := rfl
  refine ⟨?_, ?_, ?_⟩
  · rw [ptSz_eq, start]
    omega
  · rw [alignUp, ptSz_eq, start]
    omega
  · rw [ptSz_eq, start, top]
    omega

theorem Reachable.kptAlloc (reach : Reachable image s) (run : kptAlloc s.kpt = .ok (k, r)) :
    Reachable image { s with kpt := k, tables := insert r s.tables } :=
  .step _ _ .kptAlloc reach (by simp only [step, run])

theorem drained (reach : Reachable image s) :
    ∃ t, Reachable image t ∧ t.kpt.freelist = [] ∧ t.kpt.heap = s.kpt.heap := by
  obtain ⟨n, hn⟩ : ∃ n, s.kpt.freelist.length = n := ⟨_, rfl⟩
  induction n generalizing s with
  | zero => exact ⟨s, reach, List.length_eq_zero_iff.mp hn, rfl⟩
  | succ n ih =>
    obtain ⟨r, rest, hl⟩ := List.exists_cons_of_length_eq_add_one hn
    have run : kptAlloc s.kpt =
        .ok ({ s.kpt with freelist := rest, mem := memset0 s.kpt.mem r ptSz }, r) := by
      simp only [kptAlloc, hl]
      rfl
    obtain ⟨t, reach', empty, heap⟩ := ih (Reachable.kptAlloc reach run) (by
      rw [hl, List.length_cons] at hn
      exact Nat.succ.inj hn)
    exact ⟨t, reach', empty, heap⟩

theorem kptAlloc_heap {heap : Kmem} (empty : k.freelist = [])
    (run : kmalloc k.heap ptOrder = .ok (heap, some r)) :
    kptAlloc k = .ok ({ k with heap := heap, mem := memset0 k.mem r ptSz }, r) := by
  simp only [kptAlloc, empty, run]
  rfl

end PageTablePool
