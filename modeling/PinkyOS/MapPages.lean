import PinkyOS.BuddyGuarantees
import PinkyOS.PageTableWords

/-!
# `mappages` on page tables in memory

While the free list of `kpt_alloc` lasts, a run of `mappages` on the words of a page table is the
run of `mappages` on the tree that they represent. A table taken from the heap has no storage of
its own, and what follows is not a tree of the user's style any more.
-/
namespace PageTableWords
open MemoryLayout PageTablePool UserMemory Function Finset Option PageTableWords Nat

section
variable {image : Image} {s s' : Kpt} {mem : Mem} {pgdir t u r i j k n va : Nat}

theorem entries_map {α β : Type} (f : BitVec 64 → α) (g : α → β) :
    entries mem t n (fun w => g (f w)) i = (entries mem t n f i).map g := by
  rw [entries, entries]
  split
  · rfl
  · rfl

theorem tree_apply (mem : Mem) (pgdir i : Nat) :
    tree mem pgdir i = (addr mem pgdir (.pmd i)).map (pmdOf mem) :=
  entries_map entryAddr (pmdOf mem)

theorem pmdOf_apply (mem : Mem) (t j : Nat) :
    pmdOf mem t j = (entries mem t ptrsPerPmd entryAddr j).map (ptOf mem) :=
  entries_map entryAddr (ptOf mem)

/-- Whether a table is missing, as a number. -/
def lack {α : Type} (x : Option α) : Nat := if x.isSome then 0 else 1

/-- The first level of `walkpgdir`. -/
theorem UserStyle.enter_pgd (style : UserStyle image s pgdir) (less : i < ptrsPerPgd)
    (enough : lack (tree s.mem pgdir i) ≤ s.freelist.length) :
    ∃ s' t, descend s (pgdir + 8 * i) true = .ok (s', some t) ∧ UserStyle image s' pgdir ∧
      addr s'.mem pgdir (.pmd i) = some t ∧
      tree s'.mem pgdir =
        update (tree s.mem pgdir) i (some ((tree s.mem pgdir i).getD blank)) ∧
      s'.freelist.length + lack (tree s.mem pgdir i) = s.freelist.length ∧ s'.heap = s.heap := by
  by_cases valid : present (word s.mem (pgdir + 8 * i))
  · have found : addr s.mem pgdir (.pmd i) = some (entryAddr (word s.mem (pgdir + 8 * i))) :=
      entries_eq_some.mpr ⟨less, valid, rfl⟩
    have here := tree_apply s.mem pgdir i
    rw [found, map_some] at here
    refine ⟨s, _, descend_present valid, style, found, ?_, ?_, rfl⟩
    · rw [here, getD_some, ← here, update_eq_self]
    · rw [here]
      rfl
  · have absent : tree s.mem pgdir i = none := entries_eq_none.mpr fun both => valid both.2
    rw [absent] at enough ⊢
    obtain ⟨r, rest, list⟩ := List.exists_cons_of_length_pos (lt_of_succ_le enough)
    obtain ⟨mem, run, only, here, zero⟩ :=
      style.descend_takes (x := .pgd) rfl (less.trans (by decide)) valid list
    have recovered : entryAddr (tableEntry r) = r :=
      entryAddr_slot (style.free r (list ▸ List.mem_cons_self))
    have places := only.addr_pgd less valid here recovered zero
    refine ⟨_, r, run, style.add list rfl places, ?_, ?_, ?_, rfl⟩
    · rw [places, if_pos rfl]
    · exact only.tree_pgd less here recovered zero
    · rw [list]
      rfl

/-- The second level of `walkpgdir`. -/
theorem UserStyle.enter_pmd (style : UserStyle image s pgdir) (less : j < ptrsPerPmd)
    (upper : addr s.mem pgdir (.pmd i) = some t)
    (enough : lack (pmdOf s.mem t j) ≤ s.freelist.length) :
    ∃ s' u, descend s (t + 8 * j) true = .ok (s', some u) ∧ UserStyle image s' pgdir ∧
      addr s'.mem pgdir (.pt i j) = some u ∧
      tree s'.mem pgdir = update (tree s.mem pgdir) i
        (some (update (pmdOf s.mem t) j (some ((pmdOf s.mem t j).getD blank)))) ∧
      s'.freelist.length + lack (pmdOf s.mem t j) = s.freelist.length ∧ s'.heap = s.heap := by
  by_cases valid : present (word s.mem (t + 8 * j))
  · have entry : entries s.mem t ptrsPerPmd entryAddr j =
        some (entryAddr (word s.mem (t + 8 * j))) := entries_eq_some.mpr ⟨less, valid, rfl⟩
    have here := pmdOf_apply s.mem t j
    rw [entry, map_some] at here
    refine ⟨s, _, descend_present valid, style, (addr_pt upper j).trans entry, ?_, ?_, rfl⟩
    · have above := tree_apply s.mem pgdir i
      rw [upper, map_some] at above
      rw [here, getD_some, ← here, update_eq_self, ← above, update_eq_self]
    · rw [here]
      rfl
  · have absent : pmdOf s.mem t j = none := entries_eq_none.mpr fun both => valid both.2
    rw [absent] at enough ⊢
    obtain ⟨r, rest, list⟩ := List.exists_cons_of_length_pos (lt_of_succ_le enough)
    obtain ⟨mem, run, only, here, zero⟩ := style.descend_takes upper less valid list
    have recovered : entryAddr (tableEntry r) = r :=
      entryAddr_slot (style.free r (list ▸ List.mem_cons_self))
    have places := only.addr_pmd upper less here recovered
    refine ⟨_, r, run, style.add list rfl places, ?_, ?_, ?_, rfl⟩
    · rw [places, if_pos rfl]
    · exact only.tree_pmd upper less here recovered zero
    · rw [list]
      rfl

/-- The tables that `walkpgdir` takes on the way to `va`. -/
def missing (d : Pgd) (va : Nat) : Nat := lack (d (pgdIdx va)) + lack (UserMemory.walkpgdir d va)

theorem pmdOf_entered {d : Pgd} (upper : addr mem pgdir (.pmd i) = some t)
    (entered : tree mem pgdir = update d i (some ((d i).getD blank))) :
    pmdOf mem t = (d i).getD blank := by
  have here := tree_apply mem pgdir i
  rw [upper, map_some, entered, update_self, some.injEq] at here
  exact here.symm

theorem lack_entered (d : Pgd) (va : Nat) :
    lack ((d (pgdIdx va)).getD blank (pmdIdx va)) = lack (UserMemory.walkpgdir d va) := by
  rw [UserMemory.walkpgdir]
  cases d (pgdIdx va) <;> rfl

theorem UserStyle.walkpgdir (style : UserStyle image s pgdir) (va : Nat)
    (enough : missing (tree s.mem pgdir) va ≤ s.freelist.length) :
    ∃ s' t, PageTableWords.walkpgdir s pgdir va true = .ok (s', some (t + 8 * pteIdx va)) ∧
      UserStyle image s' pgdir ∧ addr s'.mem pgdir (.pt (pgdIdx va) (pmdIdx va)) = some t ∧
      tree s'.mem pgdir = addTables (tree s.mem pgdir) va ∧
      s'.freelist.length + missing (tree s.mem pgdir) va = s.freelist.length ∧
      s'.heap = s.heap := by
  rw [missing] at enough ⊢
  obtain ⟨s₁, t, run₁, style₁, upper, tree₁, length₁, heap₁⟩ :=
    style.enter_pgd (i := pgdIdx va) (mod_lt _ (by decide)) (by omega)
  have middle := pmdOf_entered upper tree₁
  have second := lack_entered (tree s.mem pgdir) va
  rw [← middle] at second
  obtain ⟨s₂, u, run₂, style₂, lower, tree₂, length₂, heap₂⟩ :=
    style₁.enter_pmd (j := pmdIdx va) (mod_lt _ (by decide)) upper (by omega)
  refine ⟨s₂, u, ?_, style₂, lower, ?_, by omega, heap₂.trans heap₁⟩
  · rw [PageTableWords.walkpgdir, run₁, BuddyHeap.ok_bind]
    dsimp only
    rw [run₂]
    rfl
  · rw [tree₂, middle, tree₁, update_idem, addTables]

/-! ### Entries of the last level -/

theorem getPte_tree {a : Nat} (lower : addr mem pgdir (.pt (pgdIdx a) (pmdIdx a)) = some u) :
    getPte (tree mem pgdir) a = ptOf mem u (pteIdx a) := by
  obtain ⟨t, upper, entry⟩ := bind_eq_some_iff.mp lower
  have above : tree mem pgdir (pgdIdx a) = some (pmdOf mem t) := by
    rw [tree_apply, addr, upper, map_some]
  rw [getPte, UserMemory.walkpgdir, above, bind_some, pmdOf_apply, entry, map_some, bind_some]

theorem UserStyle.keep (style : UserStyle image s pgdir)
    (places : ∀ y, addr mem pgdir y = addr s.mem pgdir y) :
    UserStyle image { s with mem := mem } pgdir where
  slot y t found := style.slot y t ((places y).symm.trans found)
  once y z t foundY foundZ := style.once y z t ((places y).symm.trans foundY)
    ((places z).symm.trans foundZ)
  free := style.free
  nodup := style.nodup
  heap := style.heap

theorem UserStyle.store (style : UserStyle image s pgdir) {a : Nat} {w : BitVec 64}
    (lower : addr s.mem pgdir (.pt (pgdIdx a) (pmdIdx a)) = some u) (valid : present w) :
    UserStyle image { s with mem := setWord s.mem (u + 8 * pteIdx a) w } pgdir ∧
      tree (setWord s.mem (u + 8 * pteIdx a) w) pgdir =
        setPte (tree s.mem pgdir) a (some (pteOf w)) := by
  have index : pteIdx a < 512 := mod_lt _ (by decide)
  obtain ⟨t, upper, entry⟩ := bind_eq_some_iff.mp lower
  have only := style.onlyAt (w := w) lower index fun _ _ _ _ _ => rfl
  have self := word_setWord_self s.mem (u + 8 * pteIdx a) w
  refine ⟨style.keep only.addr_pt, ?_⟩
  have above : tree s.mem pgdir (pgdIdx a) = some (pmdOf s.mem t) := by
    rw [tree_apply, addr, upper, map_some]
  have below : pmdOf s.mem t (pmdIdx a) = some (ptOf s.mem u) := by
    rw [pmdOf_apply, entry, map_some]
  rw [only.tree_pt upper lower index (by rw [self, valid]), self, setPte, above, map_some,
    below, map_some]

theorem ap_cases {ap : BitVec 64} (field : ap &&& KernelMap.apMask = ap) :
    ap = 0#64 ∨ ap = 64#64 ∨ ap = 128#64 ∨ ap = 192#64 := by
  have value := congrArg BitVec.toNat field
  rw [BitVec.toNat_and, show KernelMap.apMask.toNat = (2 ^ 2 - 1) <<< 6 from rfl] at value
  have bound : ap.toNat &&& (2 ^ 2 - 1) <<< 6 ≤ (2 ^ 2 - 1) <<< 6 := and_le_right
  have low : ap.toNat % 2 ^ 6 = 0 := by
    rw [← value, and_mod_two_pow]
    exact and_zero _
  have cases : ap.toNat = 0 ∨ ap.toNat = 64 ∨ ap.toNat = 128 ∨ ap.toNat = 192 := by
    rw [value] at bound
    simp only [reducePow, reduceSub, reduceShiftLeft] at bound low
    omega
  rcases cases with h | h | h | h
  · exact .inl (BitVec.eq_of_toNat_eq h)
  · exact .inr (.inl (BitVec.eq_of_toNat_eq h))
  · exact .inr (.inr (.inl (BitVec.eq_of_toNat_eq h)))
  · exact .inr (.inr (.inr (BitVec.eq_of_toNat_eq h)))

/-- The attribute bits of a page descriptor lie below the address. -/
theorem pteOf_or {k : Nat} {c : BitVec 64} (small : k < 2 ^ 20) (flags : c.toNat < 2 ^ 12) :
    pteOf (BitVec.ofNat 64 (pteSz * k) ||| c) = ⟨pteSz * k, (c &&& KernelMap.apMask).toNat⟩ := by
  have shift : pteSz * k = k <<< 12 := by
    rw [shiftLeft_eq, pteSz_eq, Nat.mul_comm]
  have value : (BitVec.ofNat 64 (pteSz * k) ||| c).toNat = pteSz * k + c.toNat := by
    rw [BitVec.toNat_or, BitVec.toNat_ofNat, mod_eq_of_lt (by rw [pteSz_eq]; omega), shift,
      shiftLeft_add_eq_or_of_lt flags]
  rw [pteOf, value, KernelMap.and_field (KernelMap.low_bits (Nat.dvd_mul_right ..) (by decide)),
    alignDn, mul_add_div (by decide), show c.toNat / pteSz = 0 from div_eq_of_lt flags,
    Nat.add_zero, Nat.mul_comm]

theorem pteOf_pageDesc {pa : Nat} {ap : BitVec 64} (aligned : pteSz ∣ pa) (small : pa < 2 ^ 32)
    (field : ap &&& KernelMap.apMask = ap) : pteOf (KernelMap.pageDesc pa ap) = ⟨pa, ap.toNat⟩ := by
  obtain ⟨k, rfl⟩ := aligned
  have few : k < 2 ^ 20 := by
    rw [pteSz_eq] at small
    omega
  rw [KernelMap.pageDesc]
  rcases ap_cases field with rfl | rfl | rfl | rfl
  all_goals
    rw [pteOf_or few (by decide)]
    rfl

/-! ### The loop -/

theorem walkpgdir_look (s : Kpt) (pgdir va : Nat) : walkpgdir s pgdir va false =
      .ok (s, (addr s.mem pgdir (.pt (pgdIdx va) (pmdIdx va))).map (· + 8 * pteIdx va)) := by
  have first : pgdIdx va < ptrsPerPgd := mod_lt _ (by decide)
  have second : pmdIdx va < ptrsPerPmd := mod_lt _ (by decide)
  rw [walkpgdir, descend, addr, pmdAt]
  by_cases valid : present (word s.mem (pgdir + 8 * pgdIdx va))
  · rw [if_pos valid, BuddyHeap.ok_bind, entries_eq_some.mpr ⟨first, valid, rfl⟩, bind_some]
    dsimp only
    rw [descend]
    by_cases valid' : present
        (word s.mem (entryAddr (word s.mem (pgdir + 8 * pgdIdx va)) + 8 * pmdIdx va))
    · rw [if_pos valid', entries_eq_some.mpr ⟨second, valid', rfl⟩]
      rfl
    · rw [if_neg valid', entries_eq_none.mpr fun both => valid' both.2]
      rfl
  · rw [if_neg valid, entries_eq_none.mpr fun both => valid both.2]
    rfl

/-- The positions that the pages of a range have in the upper two levels. -/
def uppers (a n : Nat) : Finset Nat := (Finset.range n).image fun k => pgdIdx (a + k * pteSz)

def lowers (a n : Nat) : Finset (Nat × Nat) :=
  (Finset.range n).image fun k => (pgdIdx (a + k * pteSz), pmdIdx (a + k * pteSz))

/-- How many tables `n` pages from `a` on lack. -/
def lacking (d : Pgd) (a n : Nat) : Nat :=
  ((uppers a n).filter fun i => (d i).isSome = false).card +
    ((lowers a n).filter fun x => (tableAt d x.1 x.2).isSome = false).card

theorem lacking_mono (d : Pgd) (a : Nat) {m n : Nat} (le : m ≤ n) :
    lacking d a m ≤ lacking d a n := by
  have sub := range_mono le
  exact Nat.add_le_add
    (card_le_card (filter_subset_filter _ (image_subset_image sub)))
    (card_le_card (filter_subset_filter _ (image_subset_image sub)))

theorem image_range_succ {α : Type} [DecidableEq α] (f : Nat → α) (a n : Nat) :
    ((range (n + 1)).image fun k => f (a + k * pteSz)) =
      insert (f a) ((range n).image fun k => f (a + pteSz + k * pteSz)) := by
  have shift : ∀ k, a + pteSz + k * pteSz = a + (k + 1) * pteSz := fun k => by
    rw [succ_mul, Nat.add_assoc, Nat.add_comm pteSz]
  ext y
  simp only [mem_insert, mem_image, mem_range]
  constructor
  · rintro ⟨k, less, rfl⟩
    cases k with
    | zero => simp
    | succ k => exact .inr ⟨k, lt_of_succ_lt_succ less, by rw [shift]⟩
  · rintro (rfl | ⟨k, less, rfl⟩)
    · exact ⟨0, succ_pos n, by simp⟩
    · exact ⟨k + 1, succ_lt_succ less, by rw [shift]⟩

/-- Giving the first member of a set what it lacks. -/
theorem card_lacking_insert {α : Type} [DecidableEq α] {has has' : α → Bool} {x : α}
    (S : Finset α) (given : ∀ y, has' y = (has y || decide (y = x))) :
    ((insert x S).filter fun y => has y = false).card =
      (if has x then 0 else 1) + (S.filter fun y => has' y = false).card := by
  have split : (insert x S).filter (fun y => has y = false) =
      if has x then S.filter fun y => has' y = false
      else insert x (S.filter fun y => has' y = false) := by
    ext y
    by_cases same : y = x
    · subst same
      cases here : has y <;> simp [given, here]
    · cases here : has x <;> simp [given, same]
  rw [split]
  cases here : has x with
  | true => simp
  | false =>
    rw [if_neg Bool.false_ne_true, if_neg Bool.false_ne_true, card_insert_of_notMem, Nat.add_comm]
    simp [given]

theorem isSome_addTables (d : Pgd) (va i : Nat) :
    (addTables d va i).isSome = ((d i).isSome || decide (i = pgdIdx va)) := by
  rw [addTables]
  by_cases here : i = pgdIdx va
  · simp [here]
  · simp [here]

theorem isSome_tableAt_addTables (d : Pgd) (va : Nat) (x : Nat × Nat) :
    (tableAt (addTables d va) x.1 x.2).isSome =
      ((tableAt d x.1 x.2).isSome || decide (x = (pgdIdx va, pmdIdx va))) := by
  rw [tableAt_addTables]
  by_cases here : x = (pgdIdx va, pmdIdx va)
  · simp [here]
  · have other : ¬ (x.1 = pgdIdx va ∧ x.2 = pmdIdx va) := fun h => here (Prod.ext h.1 h.2)
    rw [if_neg other]
    simp [here]

theorem lacking_setPte (d : Pgd) (va : Nat) (e : Option Pte) (a n : Nat) :
    lacking (setPte d va e) a n = lacking d a n := by
  simp only [lacking, isSome_pgd_setPte, isSome_setPte]

theorem lacking_succ (d : Pgd) (a n : Nat) :
    lacking d a (n + 1) = missing d a + lacking (addTables d a) (a + pteSz) n := by
  rw [lacking, lacking, uppers, lowers, image_range_succ pgdIdx,
    image_range_succ fun b => (pgdIdx b, pmdIdx b),
    card_lacking_insert _ (isSome_addTables d a),
    card_lacking_insert _ (isSome_tableAt_addTables d a), missing, lack, lack, uppers, lowers, walkpgdir_eq]
  dsimp only
  omega

theorem present_iff_getPte {a : Nat} (lower : addr mem pgdir (.pt (pgdIdx a) (pmdIdx a)) = some u) :
    present (word mem (u + 8 * pteIdx a)) = (getPte (tree mem pgdir) a).isSome := by
  rw [getPte_tree lower, ptOf, entries]
  cases present (word mem (u + 8 * pteIdx a)) with
  | false => simp
  | true => simp [show pteIdx a < ptrsPerPte from mod_lt _ (by decide)]

/-- While the free list lasts, the loop does on the words what it does on the tree. -/
theorem UserStyle.mapFrom {d : Pgd} {a pa : Nat} {ap : BitVec 64} (style : UserStyle image s pgdir)
    (aligned : pteSz ∣ pa) (frames : pa + n * pteSz ≤ 2 ^ 32) (field : ap &&& KernelMap.apMask = ap)
    (enough : lacking (tree s.mem pgdir) a n ≤ s.freelist.length)
    (run : UserMemory.mapFrom n (tree s.mem pgdir) a pa ap.toNat = .ok d) :
    ∃ s', mapFrom n s pgdir a pa ap = .ok (s', true) ∧ UserStyle image s' pgdir ∧
      tree s'.mem pgdir = d := by
  induction n generalizing s a pa with
  | zero =>
    cases run
    exact ⟨s, rfl, style, rfl⟩
  | succ n ih =>
    rw [lacking_succ] at enough
    obtain ⟨s₁, t, walk, style₁, lower, tree₁, length₁, -⟩ := style.walkpgdir a (by omega)
    rw [UserMemory.mapFrom] at run
    split at run
    case h_1 => cases run
    case h_2 free =>
      have absent : ¬ present (word s₁.mem (t + 8 * pteIdx a)) := by
        rw [present_iff_getPte lower, tree₁, free]
        exact Bool.false_ne_true
      obtain ⟨style₂, tree₂⟩ := style₁.store (a := a) lower (present_pageDesc pa ap)
      rw [tree₁, pteOf_pageDesc aligned (by rw [pteSz_eq] at frames; omega) field] at tree₂
      have next : pteSz ∣ (pa + pteSz) % 2 ^ 32 := by
        rw [pteSz_eq] at aligned ⊢
        omega
      obtain ⟨s', ran, style', tree'⟩ := ih (a := a + pteSz) style₂ next
        (by rw [pteSz_eq] at frames ⊢; omega) (by
          dsimp only
          rw [tree₂, lacking_setPte]
          omega) (by
          dsimp only
          rw [tree₂]
          exact run)
      refine ⟨s', ?_, style', tree'⟩
      rw [mapFrom, walk, BuddyHeap.ok_bind]
      dsimp only
      rw [if_neg absent, ran]

/-! ### No table to be had -/

/-- Nothing of the size that `kpt_alloc` asks for is free. -/
def Exhausted (heap : BuddyHeap.Kmem) : Prop := ∃ t, BuddyHeap.kmalloc heap ptOrder = .ok (t, none)

theorem kptAlloc_oom (empty : s.freelist = []) (out : Exhausted s.heap) :
    kptAlloc s = .error "oom: kpt_alloc" := by
  obtain ⟨t, none⟩ := out
  rw [kptAlloc, empty]
  dsimp only
  rw [none]
  rfl

theorem descend_oom {slot : Nat} (absent : ¬ present (word s.mem slot)) (empty : s.freelist = [])
    (out : Exhausted s.heap) : descend s slot true = .error "oom: kpt_alloc" := by
  rw [descend, if_neg absent, if_pos rfl, kptAlloc_oom empty out]
  rfl

theorem UserStyle.walkpgdir_oom (style : UserStyle image s pgdir) (out : Exhausted s.heap)
    (short : s.freelist.length < missing (tree s.mem pgdir) va) :
    PageTableWords.walkpgdir s pgdir va true = .error "oom: kpt_alloc" := by
  have index : pgdIdx va < ptrsPerPgd := mod_lt _ (by decide)
  have index' : pmdIdx va < ptrsPerPmd := mod_lt _ (by decide)
  have one : ∀ {α : Type} (x : Option α), lack x ≤ 1 := by
    intro α x
    rw [lack]
    split
    · exact Nat.zero_le 1
    · exact le_rfl
  rw [missing] at short
  by_cases enough : lack (tree s.mem pgdir (pgdIdx va)) ≤ s.freelist.length
  · obtain ⟨s₁, t, run₁, style₁, upper, tree₁, length₁, heap₁⟩ := style.enter_pgd index enough
    have second := lack_entered (tree s.mem pgdir) va
    rw [← pmdOf_entered upper tree₁] at second
    have bound := one (pmdOf s₁.mem t (pmdIdx va))
    have absent : ¬ present (word s₁.mem (t + 8 * pmdIdx va)) := by
      intro valid
      have some : (pmdOf s₁.mem t (pmdIdx va)).isSome := by
        rw [pmdOf, entries_eq_some.mpr ⟨index', valid, rfl⟩]
        rfl
      rw [lack, if_pos some] at second
      omega
    have empty : s₁.freelist = [] := List.length_eq_zero_iff.mp (by omega)
    rw [PageTableWords.walkpgdir, run₁, BuddyHeap.ok_bind]
    dsimp only
    rw [descend_oom absent empty (heap₁ ▸ out)]
    rfl
  · have bound := one (tree s.mem pgdir (pgdIdx va))
    have absent : ¬ present (word s.mem (pgdir + 8 * pgdIdx va)) := by
      intro valid
      have some : (tree s.mem pgdir (pgdIdx va)).isSome := by
        rw [tree, entries_eq_some.mpr ⟨index, valid, rfl⟩]
        rfl
      rw [lack, if_pos some] at enough
      omega
    have empty : s.freelist = [] := List.length_eq_zero_iff.mp (by omega)
    rw [PageTableWords.walkpgdir, descend_oom absent empty out]
    rfl

theorem UserStyle.mapFrom_oom {a pa : Nat} {ap : BitVec 64} (style : UserStyle image s pgdir)
    (out : Exhausted s.heap) (short : s.freelist.length < lacking (tree s.mem pgdir) a n) :
    ∃ msg, PageTableWords.mapFrom n s pgdir a pa ap = .error msg := by
  induction n generalizing s a pa with
  | zero => simp [lacking, uppers, lowers] at short
  | succ n ih =>
    rw [lacking_succ] at short
    by_cases enough : missing (tree s.mem pgdir) a ≤ s.freelist.length
    · obtain ⟨s₁, t, walk, style₁, lower, tree₁, length₁, heap₁⟩ := style.walkpgdir a enough
      rw [PageTableWords.mapFrom, walk, BuddyHeap.ok_bind]
      dsimp only
      by_cases mapped : present (word s₁.mem (t + 8 * pteIdx a))
      · rw [if_pos mapped]
        exact ⟨_, rfl⟩
      · obtain ⟨style₂, tree₂⟩ := style₁.store (a := a) lower (present_pageDesc pa ap)
        rw [if_neg mapped]
        refine ih style₂ (heap₁ ▸ out) ?_
        dsimp only
        rw [tree₂, lacking_setPte, tree₁]
        omega
    · rw [PageTableWords.mapFrom, style.walkpgdir_oom out (by omega)]
      exact ⟨_, rfl⟩

end

end PageTableWords
