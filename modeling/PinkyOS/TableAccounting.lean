import PinkyOS.MapPages
import PinkyOS.TableMemory

/-!
# Page tables taken and given back

The tables in use are in a ledger of their own: those of others, and one owner for each place in
the page table at hand. As long as the boot free list has the tables that a call lacks, the call
changes nothing in the heap for their sake; giving the tables of a page table back leaves exactly
those of the others.
-/
namespace TableMemory
open MemoryLayout BuddyHeap UserMemory Ledger PageTablePool PageTableWords
open Function Finset List Option

/-! ### The stock of tables -/

/-- The tables in use and the free list are slots of the boot pool, those in use may also be blocks
of the heap; `rest` are the blocks of others. -/
structure Stocked (rest : Finset (Nat × Nat)) (slots : Set Nat) (k : Store) : Prop where
  sound : Sound (rest ∪ heapTables k.tables) k.vm
  apart : Disjoint rest (heapTables k.tables)
  low : ∀ t ∈ slots, t + ptSz ≤ p2v initKernmap
  pool : ∀ t, t ∈ slots ↔ t ∈ k.freelist ∨ t ∈ k.tables ∧ t < p2v initKernmap
  nodup : k.freelist.Nodup
  idle : ∀ t ∈ k.freelist, t ∉ k.tables

/-- The byte at `x` is in none of these tables. -/
def Outside (l : List Nat) (x : Nat) : Prop := ∀ u ∈ l, x < u ∨ u + ptSz ≤ x

/-- So many tables were taken from the free list, and nothing from the heap. Only free tables were
written to. -/
structure Took (n : Nat) (k k' : Store) : Prop where
  pages : k'.vm.pages = k.vm.pages
  live : k'.vm.live = k.vm.live
  heap : k'.vm.heap = k.vm.heap
  blocks : heapTables k'.tables = heapTables k.tables
  fewer : k'.freelist ⊆ k.freelist
  length : k'.freelist.length + n = k.freelist.length
  mem : ∀ x, Outside k.freelist x → k'.vm.mem x = k.vm.mem x

theorem Took.refl (k : Store) : Took 0 k k :=
  ⟨rfl, rfl, rfl, rfl, Subset.refl _, rfl, fun _ _ => rfl⟩

theorem Took.trans {m n : Nat} {k k₁ k₂ : Store} (first : Took m k k₁) (second : Took n k₁ k₂) :
    Took (m + n) k k₂ where
  pages := second.pages.trans first.pages
  live := second.live.trans first.live
  heap := second.heap.trans first.heap
  blocks := second.blocks.trans first.blocks
  fewer := Subset.trans second.fewer first.fewer
  length := by rw [← first.length, ← second.length, Nat.add_assoc, Nat.add_comm n]
  mem x outside := (second.mem x fun u free => outside u (first.fewer free)).trans
    (first.mem x outside)

section
variable {rest : Finset (Nat × Nat)} {slots : Set Nat} {k k' : Store} {a : Nat}

theorem Stocked.slot_low (stocked : Stocked rest slots k) {t : Nat} (slot : t ∈ slots) :
    t < p2v initKernmap :=
  Nat.lt_of_lt_of_le (Nat.lt_add_of_pos_right (by decide)) (stocked.low t slot)

/-- The free tables lie in front of the heap. -/
theorem Stocked.outside (stocked : Stocked rest slots k) {x : Nat} (high : p2v initKernmap ≤ x) :
    Outside k.freelist x := fun u free =>
  .inr ((stocked.low u ((stocked.pool u).mpr (.inl free))).trans high)

theorem kptAlloc_ok (stocked : Stocked rest slots k) (more : 0 < k.freelist.length) :
    ∃ k' r, kptAlloc k = .ok (k', r) ∧ Stocked rest slots k' ∧ r ∉ k.tables ∧
      k'.tables = insert r k.tables ∧ Took 1 k k' := by
  obtain ⟨r, free, list⟩ := List.exists_cons_of_length_pos more
  have first : r ∈ k.freelist := list ▸ List.mem_cons_self
  have low := stocked.slot_low ((stocked.pool r).mpr (.inl first))
  have nodup := List.nodup_cons.mp (list ▸ stocked.nodup)
  rw [kptAlloc, list]
  refine ⟨_, r, rfl, ?_, stocked.idle r first, rfl, rfl, rfl, rfl, heapTables_insert_low low, ?_, ?_,
    fun x outside => ?_⟩
  · constructor
    case sound =>
      dsimp only
      rw [heapTables_insert_low low]
      exact ⟨stocked.sound.heap, stocked.sound.live, stocked.sound.apart⟩
    case apart =>
      dsimp only
      rw [heapTables_insert_low low]
      exact stocked.apart
    case low => exact stocked.low
    case pool =>
      intro t
      dsimp only
      rw [stocked.pool, list, List.mem_cons, mem_insert]
      constructor
      · rintro ((rfl | later) | ⟨used, below⟩)
        · exact .inr ⟨.inl rfl, low⟩
        · exact .inl later
        · exact .inr ⟨.inr used, below⟩
      · rintro (later | ⟨rfl | used, below⟩)
        · exact .inl (.inr later)
        · exact .inl (.inl rfl)
        · exact .inr ⟨used, below⟩
    case nodup => exact nodup.2
    case idle =>
      intro t isFree used
      rcases mem_insert.mp used with rfl | used
      · exact nodup.1 isFree
      · exact stocked.idle t (list ▸ List.mem_cons_of_mem r isFree) used
  · rw [list]
    exact List.subset_cons_self ..
  · rw [list]
    rfl
  · have apart := outside r first
    dsimp only
    rw [memset0, if_neg (by omega)]

theorem kptAlloc_starves (empty : k.freelist = []) (out : Exhausted k.vm.heap) :
    kptAlloc k = .error (.panic "oom: kpt_alloc") := by
  obtain ⟨heap, none⟩ := out
  rw [kptAlloc, empty]
  dsimp only
  rw [none]

theorem kptFree_ok (stocked : Stocked rest slots k) (used : a ∈ k.tables) :
    ∃ k', kptFree k a = .ok k' ∧ Stocked rest slots k' ∧ k'.tables = k.tables.erase a ∧
      k'.vm.pages = k.vm.pages ∧ k'.vm.mem = k.vm.mem := by
  rw [kptFree, if_pos used]
  by_cases high : a ≥ p2v initKernmap
  · have block : (a, ptOrder) ∈ heapTables k.tables := mem_heapTables.mpr ⟨used, high, rfl⟩
    have live : (a, ptOrder) ∈ k.vm.live :=
      (stocked.sound.live _).mpr (.inl (mem_union_right _ block))
    obtain ⟨heap, run⟩ := stocked.sound.heap.kfree_ok live
    dsimp only at run
    have other : (a, ptOrder) ∉ rest := disjoint_right.mp stocked.apart block
    rw [if_pos high, run]
    refine ⟨_, rfl, ?_, rfl, rfl, rfl⟩
    constructor
    case sound =>
      dsimp only
      have fewer : rest ∪ heapTables (k.tables.erase a) =
          (rest ∪ heapTables k.tables).erase (a, ptOrder) := by
        rw [heapTables_erase_high, erase_union_distrib, erase_eq_of_notMem other]
      rw [fewer]
      refine ⟨.free stocked.sound.heap live run, fun e => ?_, fun p page inside => ?_⟩
      · rw [mem_erase, stocked.sound.live, mem_erase]
        constructor
        · rintro ⟨notA, inRest | page⟩
          · exact .inl ⟨notA, inRest⟩
          · exact .inr page
        · rintro (⟨notA, inRest⟩ | page)
          · exact ⟨notA, .inl inRest⟩
          · refine ⟨?_, .inr page⟩
            rintro rfl
            cases page.1
      · exact stocked.sound.apart p page (mem_of_mem_erase inside)
    case apart =>
      dsimp only
      rw [heapTables_erase_high]
      exact stocked.apart.mono_right (erase_subset _ _)
    case low => exact stocked.low
    case pool =>
      intro t
      dsimp only
      rw [stocked.pool, mem_erase]
      constructor
      · rintro (isFree | ⟨inUse, below⟩)
        · exact .inl isFree
        · refine .inr ⟨⟨?_, inUse⟩, below⟩
          rintro rfl
          exact absurd below (Nat.not_lt.mpr high)
      · rintro (isFree | ⟨⟨-, inUse⟩, below⟩)
        · exact .inl isFree
        · exact .inr ⟨inUse, below⟩
    case nodup => exact stocked.nodup
    case idle => exact fun t isFree inUse => stocked.idle t isFree (mem_of_mem_erase inUse)
  · have low : a < p2v initKernmap := Nat.lt_of_not_le high
    rw [if_neg high]
    refine ⟨_, rfl, ?_, rfl, rfl, rfl⟩
    constructor
    case sound =>
      dsimp only
      rw [heapTables_erase_low low]
      exact stocked.sound
    case apart =>
      dsimp only
      rw [heapTables_erase_low low]
      exact stocked.apart
    case low => exact stocked.low
    case pool =>
      intro t
      dsimp only
      rw [stocked.pool, List.mem_cons, mem_erase]
      by_cases same : t = a
      · subst same
        simp [used, low]
      · simp [same]
    case nodup => exact List.nodup_cons.mpr ⟨fun h => stocked.idle a h used, stocked.nodup⟩
    case idle =>
      intro t isFree inUse
      obtain ⟨other, inUse⟩ := mem_erase.mp inUse
      rcases List.mem_cons.mp isFree with same | isFree
      · exact other same
      · exact stocked.idle t isFree inUse

theorem freeTables_ok {l : List Nat} (stocked : Stocked rest slots k) (nodup : l.Nodup)
    (used : ∀ t ∈ l, t ∈ k.tables) : ∃ k', l.foldlM kptFree k = .ok k' ∧ Stocked rest slots k' ∧
      (∀ t, t ∈ k'.tables ↔ t ∈ k.tables ∧ t ∉ l) ∧ k'.vm.pages = k.vm.pages ∧
      k'.vm.mem = k.vm.mem := by
  induction l generalizing k with
  | nil => exact ⟨k, rfl, stocked, fun t => by simp, rfl, rfl⟩
  | cons a l ih =>
    obtain ⟨notLater, nodup⟩ := List.nodup_cons.mp nodup
    obtain ⟨k₁, run, stocked₁, tables, pages, mem⟩ := kptFree_ok stocked (used a List.mem_cons_self)
    obtain ⟨k', ran, stocked', tables', pages', mem'⟩ := ih stocked₁ nodup (by
      intro t later
      rw [tables, mem_erase]
      refine ⟨?_, used t (List.mem_cons_of_mem a later)⟩
      rintro rfl
      exact notLater later)
    refine ⟨k', ?_, stocked', fun t => ?_, pages'.trans pages, mem'.trans mem⟩
    · rw [List.foldlM_cons, run, ok_bind, ran]
    · rw [tables', tables, mem_erase, List.mem_cons]
      tauto

end

/-! ### The tables of a page table -/

/-- The table at a place of a page table. -/
def Homes.addr (h : Homes) : Site → Option Nat
  | .pgd => some h.pgd
  | .pmd i => h.pmd i
  | .pt i j => h.pt i j

/-- The owners of tables: the tables of others, and the places of the page table at hand. -/
def tableOwner (others : Finset Nat) (h : Homes) : Nat ⊕ Site → Option Nat :=
  Sum.elim (standIn others) h.addr

/-- The tables in use are those of others and those of `t`, each at one place. -/
structure Rooted (others : Finset Nat) (k : Store) (t : Tree) : Prop where
  pmd : ∀ i, (t.pmd i).isSome = (t.entries i).isSome
  pt : ∀ i j, (t.pt i j).isSome = (tableAt t.entries i j).isSome
  wide : ∀ i, (t.pmd i).isSome → i < ptrsPerPgd
  deep : ∀ i j, (t.pt i j).isSome → j < ptrsPerPmd
  ledger : Balanced (tableOwner others t.toHomes) k.tables

/-- A page table with its tables in the stock. -/
structure Stored (rest : Finset (Nat × Nat)) (slots : Set Nat) (others : Finset Nat) (k : Store)
    (t : Tree) : Prop where
  stocked : Stocked rest slots k
  rooted : Rooted others k t

section
variable {rest : Finset (Nat × Nat)} {slots : Set Nat} {others : Finset Nat} {k k' : Store}
  {t t' : Tree} {d : Pgd} {a i j va : Nat}

/-- Clearing or setting entries moves no table. -/
theorem Rooted.entries (rooted : Rooted others k t)
    (tables : ∀ i j, (tableAt d i j).isSome = (tableAt t.entries i j).isSome)
    (uppers : ∀ i, (d i).isSome = (t.entries i).isSome) (same : k'.tables = k.tables) :
    Rooted others k' { t with entries := d } where
  pmd i := (rooted.pmd i).trans (uppers i).symm
  pt i j := (rooted.pt i j).trans (tables i j).symm
  wide := rooted.wide
  deep := rooted.deep
  ledger := by
    rw [same]
    exact rooted.ledger

theorem tableOwner_update {h h' : Homes} {x : Site}
    (places : ∀ y, h'.addr y = update h.addr x (some a) y) :
    tableOwner others h' = update (tableOwner others h) (.inr x) (some a) := by
  funext o
  rcases o with u | y
  · rw [update_of_ne (by simp)]
    rfl
  · by_cases here : y = x
    · rw [here, update_self]
      exact (places x).trans (update_self ..)
    · rw [update_of_ne (by simpa using here)]
      exact (places y).trans (update_of_ne here ..)

theorem addr_setPmd (h : Homes) (i a : Nat) (y : Site) :
    Homes.addr { h with pmd := update h.pmd i (some a) } y =
      update h.addr (.pmd i) (some a) y := by
  cases y with
  | pgd => rfl
  | pmd l =>
    by_cases here : l = i
    · subst here
      simp [Homes.addr]
    · simp [Homes.addr, here]
  | pt l m => rfl

theorem addr_setPt (h : Homes) (i j a : Nat) (y : Site) :
    Homes.addr { h with pt := update h.pt i (update (h.pt i) j (some a)) } y =
      update h.addr (.pt i j) (some a) y := by
  cases y with
  | pgd => rfl
  | pmd l => rfl
  | pt l m =>
    by_cases upper : l = i
    · subst upper
      by_cases here : m = j
      · subst here
        simp [Homes.addr]
      · simp [Homes.addr, here]
    · simp [Homes.addr, upper]

theorem lack_pos {α : Type} {x : Option α} {l : List Nat} (short : l.length < lack x) :
    x = none ∧ l = [] := by
  cases x with
  | some y => exact absurd short (Nat.not_lt_zero _)
  | none => exact ⟨rfl, length_eq_zero_iff.mp (Nat.lt_one_iff.mp short)⟩

theorem Rooted.new (fresh : a ∉ k.tables) (tables : k'.tables = insert a k.tables) :
    Rooted k.tables k' (.new a) where
  pmd _ := rfl
  pt _ _ := rfl
  wide _ h := by cases h
  deep _ _ h := by cases h
  ledger := by
    have root : tableOwner k.tables (Tree.new a).toHomes = update
        (Sum.elim (standIn k.tables) fun _ => none) (.inr .pgd) (some a) := by
      funext o
      rcases o with u | x
      · rfl
      · cases x with
        | pgd => rfl
        | pmd i => rfl
        | pt i j => rfl
    rw [tables, root]
    exact (balanced_inl.mpr balanced_standIn).take rfl fresh

section
variable (stored : Stored rest slots others k t)
include stored

theorem addPmd_ok (wide : i < ptrsPerPgd) (enough : lack (t.entries i) ≤ k.freelist.length) :
    ∃ k' t', addPmd k t i = .ok (k', t') ∧ Stored rest slots others k' t' ∧
      Took (lack (t.entries i)) k k' ∧
      t'.entries = update t.entries i (some ((t.entries i).getD blank)) := by
  obtain ⟨stocked, rooted⟩ := stored
  rw [addPmd]
  cases here : t.pmd i with
  | some b =>
    have present := rooted.pmd i
    rw [here, isSome_some] at present
    obtain ⟨pmd, entry⟩ := isSome_iff_exists.mp present.symm
    refine ⟨k, t, rfl, ⟨stocked, rooted⟩, ?_, ?_⟩
    · rw [entry]
      exact .refl k
    · rw [entry, getD_some, ← entry, update_eq_self]
  | none =>
    have absent : t.entries i = none := by
      have present := rooted.pmd i
      rw [here, isSome_none] at present
      exact isNone_iff_eq_none.mp (isSome_eq_false_iff.mp present.symm)
    rw [absent] at enough ⊢
    obtain ⟨k₁, b, run, stocked₁, fresh, tables, took⟩ := kptAlloc_ok stocked enough
    refine ⟨k₁, _, by rw [run, ok_bind]; rfl, ⟨stocked₁, ?_⟩, took, rfl⟩
    constructor
    case pmd =>
      intro l
      dsimp only
      by_cases at' : l = i
      · simp [at']
      · simp [at', rooted.pmd l]
    case pt =>
      intro l m
      dsimp only
      rw [rooted.pt, tableAt, tableAt]
      by_cases at' : l = i
      · rw [at', update_self, absent]
        rfl
      · rw [update_of_ne at']
    case wide =>
      intro l present
      dsimp only at present
      by_cases at' : l = i
      · exact at' ▸ wide
      · rw [update_of_ne at'] at present
        exact rooted.wide l present
    case deep => exact rooted.deep
    case ledger =>
      dsimp only
      rw [tables, tableOwner_update (addr_setPmd t.toHomes i b)]
      exact rooted.ledger.take here fresh

theorem addPt_ok {pmd : Pmd} (upper : t.entries i = some pmd) (deep : j < ptrsPerPmd)
    (enough : lack (pmd j) ≤ k.freelist.length) :
    ∃ k' t', addPt k t i j = .ok (k', t') ∧ Stored rest slots others k' t' ∧
      Took (lack (pmd j)) k k' ∧
      t'.entries = update t.entries i
        (some (update pmd j (some ((pmd j).getD blank)))) := by
  obtain ⟨stocked, rooted⟩ := stored
  have match' := rooted.pt i j
  rw [tableAt, upper, bind_some] at match'
  rw [addPt]
  cases here : t.pt i j with
  | some b =>
    rw [here, isSome_some] at match'
    obtain ⟨pt, entry⟩ := isSome_iff_exists.mp match'.symm
    refine ⟨k, t, rfl, ⟨stocked, rooted⟩, ?_, ?_⟩
    · rw [entry]
      exact .refl k
    · rw [entry, getD_some, ← entry, update_eq_self, ← upper, update_eq_self]
  | none =>
    rw [here, isSome_none] at match'
    have absent : pmd j = none := isNone_iff_eq_none.mp (isSome_eq_false_iff.mp match'.symm)
    rw [absent] at enough ⊢
    obtain ⟨k₁, b, run, stocked₁, fresh, tables, took⟩ := kptAlloc_ok stocked enough
    refine ⟨k₁, _, by rw [run, ok_bind]; rfl, ⟨stocked₁, ?_⟩, took,
      by rw [upper, map_some, getD_none]⟩
    constructor
    case pmd =>
      intro l
      dsimp only
      rw [rooted.pmd]
      by_cases at' : l = i
      · rw [at', update_self, isSome_map]
      · rw [update_of_ne at']
    case pt =>
      intro l m
      dsimp only
      rw [tableAt]
      by_cases at' : l = i
      · rw [at', update_self, update_self, upper, map_some, bind_some]
        by_cases at'' : m = j
        · simp [at'']
        · have old := rooted.pt i m
          rw [tableAt, upper, bind_some] at old
          rw [update_of_ne at'', update_of_ne at'', old]
      · rw [update_of_ne at', update_of_ne at', rooted.pt]
        rfl
    case wide => exact rooted.wide
    case deep =>
      intro l m present
      dsimp only at present
      by_cases at' : l = i
      · rw [at', update_self] at present
        by_cases at'' : m = j
        · exact at'' ▸ deep
        · rw [update_of_ne at''] at present
          exact rooted.deep i m present
      · rw [update_of_ne at'] at present
        exact rooted.deep l m present
    case ledger =>
      dsimp only
      rw [tables, tableOwner_update (addr_setPt t.toHomes i j b)]
      exact rooted.ledger.take here fresh

theorem walkpgdir_ok (enough : missing t.entries va ≤ k.freelist.length) :
    ∃ k' t', walkpgdir k t va = .ok (k', t') ∧ Stored rest slots others k' t' ∧
      Took (missing t.entries va) k k' ∧ t'.entries = addTables t.entries va := by
  rw [PageTableWords.missing] at enough ⊢
  have wide : pgdIdx va < ptrsPerPgd := Nat.mod_lt _ (by decide)
  have deep : pmdIdx va < ptrsPerPmd := Nat.mod_lt _ (by decide)
  obtain ⟨k₁, t₁, run₁, stored₁, took₁, entries₁⟩ := addPmd_ok stored wide (by omega)
  have upper : t₁.entries (pgdIdx va) = some ((t.entries (pgdIdx va)).getD blank) := by
    rw [entries₁, update_self]
  have length₁ := took₁.length
  rw [← lack_entered] at enough ⊢
  obtain ⟨k₂, t₂, run₂, stored₂, took₂, entries₂⟩ := addPt_ok stored₁ upper deep (by omega)
  refine ⟨k₂, t₂, ?_, stored₂, took₁.trans took₂, ?_⟩
  · rw [walkpgdir, run₁, ok_bind]
    exact run₂
  · rw [entries₂, entries₁, update_idem, addTables]

/-- Taking the tables on the way, the loop of `mappages` does to the entries what it does on the
tree alone. -/
theorem mapFrom_ok {n pa ap : Nat} (enough : lacking t.entries a n ≤ k.freelist.length)
    (run : UserMemory.mapFrom n t.entries a pa ap = .ok d) :
    ∃ k' t', mapFrom n k t a pa ap = .ok (k', t') ∧ Stored rest slots others k' t' ∧
      Took (lacking t.entries a n) k k' ∧ t'.entries = d := by
  induction n generalizing k t a pa with
  | zero =>
    cases run
    exact ⟨k, t, rfl, stored, .refl k, rfl⟩
  | succ n ih =>
    rw [lacking_succ] at enough ⊢
    have first : missing t.entries a ≤ k.freelist.length := by omega
    obtain ⟨k₁, t₁, walked, stored₁, took₁, entries₁⟩ := walkpgdir_ok stored first
    rw [UserMemory.mapFrom] at run
    split at run
    case h_1 => cases run
    case h_2 free =>
      have written : Rooted others k₁
          { t₁ with entries := setPte (addTables t.entries a) a (some ⟨pa, ap⟩) } := by
        rw [← entries₁]
        exact stored₁.rooted.entries (fun l m => isSome_setPte _ a l m _)
          (fun l => isSome_pgd_setPte _ a l _) rfl
      have length₁ := took₁.length
      obtain ⟨k₂, t₂, ran, stored₂, took₂, entries₂⟩ := ih ⟨stored₁.stocked, written⟩
        (by rw [lacking_setPte]; omega) run
      rw [lacking_setPte] at took₂
      refine ⟨k₂, t₂, ?_, stored₂, took₁.trans took₂, entries₂⟩
      rw [mapFrom, walked, ok_bind]
      dsimp only
      rw [entries₁, free]
      exact ran

theorem walkpgdir_starves (out : Exhausted k.vm.heap)
    (short : k.freelist.length < missing t.entries va) :
    walkpgdir k t va = .error (.panic "oom: kpt_alloc") := by
  obtain ⟨stocked, rooted⟩ := stored
  rw [PageTableWords.missing] at short
  have wide : pgdIdx va < ptrsPerPgd := Nat.mod_lt _ (by decide)
  by_cases first : lack (t.entries (pgdIdx va)) ≤ k.freelist.length
  · obtain ⟨k₁, t₁, run₁, stored₁, took₁, entries₁⟩ := addPmd_ok ⟨stocked, rooted⟩ wide first
    have length₁ := took₁.length
    rw [← lack_entered] at short
    have upper : t₁.entries (pgdIdx va) = some ((t.entries (pgdIdx va)).getD blank) := by
      rw [entries₁, update_self]
    have less : k₁.freelist.length < lack ((t.entries (pgdIdx va)).getD blank (pmdIdx va)) := by
      omega
    obtain ⟨absent, empty⟩ := lack_pos less
    have bare : t₁.pt (pgdIdx va) (pmdIdx va) = none := by
      have present := stored₁.rooted.pt (pgdIdx va) (pmdIdx va)
      rw [tableAt, upper, bind_some, absent] at present
      exact isNone_iff_eq_none.mp (isSome_eq_false_iff.mp present)
    rw [walkpgdir, run₁, ok_bind]
    dsimp only
    rw [addPt, bare]
    dsimp only
    rw [kptAlloc_starves empty (took₁.heap ▸ out)]
    rfl
  · obtain ⟨absent, empty⟩ := lack_pos (Nat.lt_of_not_le first)
    have bare : t.pmd (pgdIdx va) = none := by
      have present := rooted.pmd (pgdIdx va)
      rw [absent] at present
      exact isNone_iff_eq_none.mp (isSome_eq_false_iff.mp present)
    rw [walkpgdir, addPmd, bare]
    dsimp only
    rw [kptAlloc_starves empty out]
    rfl

end

end

/-! ### Giving a page table back -/

/-- The places below entry `i` of the first level, in the order in which `freevm` frees them. -/
def placesAt (i : Nat) : List Site := (List.range ptrsPerPmd).map (Site.pt i) ++ [Site.pmd i]

def places : List Site := (List.range ptrsPerPgd).flatMap placesAt ++ [Site.pgd]

theorem mem_placesAt {x : Site} {i : Nat} :
    x ∈ placesAt i ↔ x = .pmd i ∨ ∃ j < ptrsPerPmd, x = .pt i j := by
  simp only [placesAt, List.mem_append, List.mem_map, List.mem_range, List.mem_singleton]
  constructor
  · rintro (⟨j, deep, rfl⟩ | rfl)
    · exact .inr ⟨j, deep, rfl⟩
    · exact .inl rfl
  · rintro (rfl | ⟨j, deep, rfl⟩)
    · exact .inr rfl
    · exact .inl ⟨j, deep, rfl⟩

theorem places_nodup : places.Nodup := by
  have level : ∀ i, (placesAt i).Nodup := by
    intro i
    refine List.Nodup.append (List.nodup_range.map fun _ _ h => (Site.pt.inj h).2)
      (List.nodup_singleton _) ?_
    intro x upper lower
    obtain ⟨j, -, rfl⟩ := List.mem_map.mp upper
    cases List.mem_singleton.mp lower
  refine List.Nodup.append (List.nodup_flatMap.mpr ⟨fun i _ => level i, ?_⟩)
    (List.nodup_singleton _) ?_
  · refine List.nodup_range.imp fun other x here there => other ?_
    rcases mem_placesAt.mp here with rfl | ⟨j, -, rfl⟩
    · rcases mem_placesAt.mp there with e | ⟨l, -, e⟩
      · exact Site.pmd.inj e
      · cases e
    · rcases mem_placesAt.mp there with e | ⟨l, -, e⟩
      · cases e
      · exact (Site.pt.inj e).1
  · intro x below root
    obtain ⟨i, -, inside⟩ := List.mem_flatMap.mp below
    cases List.mem_singleton.mp root
    rcases mem_placesAt.mp inside with e | ⟨l, -, e⟩
    · cases e
    · cases e

section
variable {rest : Finset (Nat × Nat)} {slots : Set Nat} {others : Finset Nat} {k k' : Store}
  {t : Tree} {u : Nat}

section
variable (rooted : Rooted others k t)
include rooted

/-- A table of the third level hangs below one of the second. -/
theorem Rooted.upper {i j : Nat} (present : (t.pt i j).isSome) : (t.pmd i).isSome := by
  rw [rooted.pt, tableAt] at present
  rw [rooted.pmd]
  cases above : t.entries i with
  | none =>
    rw [above] at present
    cases present
  | some pmd => rfl

theorem Rooted.mem_places {x : Site} (has : t.addr x = some u) : x ∈ places := by
  have present : (t.addr x).isSome := isSome_iff_exists.mpr ⟨u, has⟩
  rw [places, List.mem_append, List.mem_flatMap, List.mem_singleton]
  cases x with
  | pgd => exact .inr rfl
  | pmd i =>
    exact .inl ⟨i, List.mem_range.mpr (rooted.wide i present), mem_placesAt.mpr (.inl rfl)⟩
  | pt i j =>
    exact .inl ⟨i, List.mem_range.mpr (rooted.wide i (rooted.upper present)),
      mem_placesAt.mpr (.inr ⟨j, rooted.deep i j present, rfl⟩)⟩

theorem Rooted.tables_eq : t.tables = places.filterMap t.addr := by
  rw [Homes.tables, places, filterMap_append, filterMap_flatMap]
  refine congrArg (· ++ [t.pgd]) (flatMap_congr fun i _ => ?_)
  rw [placesAt, filterMap_append, filterMap_map]
  cases upper : t.pmd i with
  | none =>
    have bare : ∀ j, t.pt i j = none := by
      intro j
      by_contra present
      have above := rooted.upper (isSome_iff_ne_none.mpr present)
      rw [upper] at above
      cases above
    simp [Homes.addr, upper, bare, comp_def]
  | some a => simp [Homes.addr, upper, comp_def]

/-- The tables of the page table are each in the list of `freevm` once, those of others never. -/
theorem Rooted.listed : t.tables.Nodup ∧ (∀ u ∈ t.tables, u ∈ k.tables) ∧
      ∀ u, u ∈ k.tables ∧ u ∉ t.tables ↔ u ∈ others := by
  have mem : ∀ u, u ∈ t.tables ↔ ∃ x, t.addr x = some u := by
    intro u
    rw [rooted.tables_eq, List.mem_filterMap]
    exact ⟨fun ⟨x, _, has⟩ => ⟨x, has⟩, fun ⟨x, has⟩ => ⟨x, rooted.mem_places has, has⟩⟩
  refine ⟨?_, fun u listed => ?_, fun u => ⟨fun ⟨used, unlisted⟩ => ?_, fun other => ⟨?_, ?_⟩⟩⟩
  · rw [rooted.tables_eq]
    refine places_nodup.filterMap fun x y u hasX hasY => ?_
    have same : (Sum.inr x : Nat ⊕ Site) = .inr y := rooted.ledger.once _ _ u hasX hasY
    exact Sum.inr.inj same
  · obtain ⟨x, has⟩ := (mem u).mp listed
    exact rooted.ledger.live (.inr x) u has
  · obtain ⟨o, has⟩ := rooted.ledger.kept u used
    rcases o with w | x
    · obtain ⟨rfl, other⟩ := standIn_eq_some.mp has
      exact other
    · exact absurd ((mem u).mpr ⟨x, has⟩) unlisted
  · exact rooted.ledger.live (.inl u) u (standIn_eq_some.mpr ⟨rfl, other⟩)
  · intro listed
    obtain ⟨x, has⟩ := (mem u).mp listed
    cases rooted.ledger.once (.inl u) (.inr x) u (standIn_eq_some.mpr ⟨rfl, other⟩) has

end

/-! ### A page table with its tables and its frames -/

theorem deallocFrom_upper {v : Vm} {d : Pgd} {a oldsz : Nat} {r : Vm × Pgd}
    (run : UserMemory.deallocFrom v d a oldsz = .ok r) (i : Nat) :
    (r.2 i).isSome = (d i).isSome := by
  fun_induction UserMemory.deallocFrom v d a oldsz with
  | case1 v d a more absent ih => exact ih run
  | case2 v d a more pt table free ih => exact ih run
  | case3 => cases run
  | case4 => cases run
  | case5 v d a more pt table e entry nonzero v' freed ih =>
    rw [ih run, isSome_pgd_setPte]
  | case6 v d a done =>
    cases run
    rfl

variable {Ω : Type} {site : Entry → Ω} {own : Ω → Option Nat} {sz : Nat}

/-- The tables of `t` are in the stock and its frames in a ledger of frames. -/
structure Lodged (rest : Finset (Nat × Nat)) (slots : Set Nat) (others : Finset Nat)
    (site : Entry → Ω) (own : Ω → Option Nat) (k : Store) (t : Tree) : Prop
    extends Stored rest slots others k t where
  balanced : Balanced own k.vm.pages
  view : ∀ x, own (site x) = frameAt t.entries x

theorem Lodged.keeps (lodged : Lodged rest slots others site own k t) :
    Keeps (rest ∪ heapTables k.tables) site own k.vm t.entries :=
  ⟨lodged.stocked.sound, lodged.balanced, lodged.view⟩

variable [DecidableEq Ω]

section
variable (inj : Function.Injective site) (lodged : Lodged rest slots others site own k t)
    (space : Space t.entries sz)
include inj lodged space

theorem deallocuvm_ok {oldsz newsz : Nat} (small : oldsz ≤ uaddrSz) (less : newsz < oldsz) :
    ∃ k' d own', deallocuvm k t oldsz newsz = .ok (k', { t with entries := d }, newsz) ∧
      Lodged rest slots others site own' k' { t with entries := d } ∧ Beside site own own' ∧
      k'.tables = k.tables ∧ k'.freelist = k.freelist ∧ k'.vm.mem = k.vm.mem ∧
      Without t.entries d (pagesIn (alignUp newsz pteSz) oldsz) ∧
      (sz ≤ oldsz → newsz ≤ sz → Space d newsz) := by
  obtain ⟨v, d, ran, cleared, ⟨own', keeps, beside⟩, mem⟩ :=
    deallocFrom_keeps inj lodged.keeps space.front (alignUp_dvd newsz pteSz) small
  refine ⟨{ k with vm := v }, d, own', ?_, ?_, beside, rfl, rfl, mem,
    ⟨cleared.gone, cleared.kept⟩, cleared.cut space⟩
  · rw [deallocuvm, UserMemory.deallocuvm, if_neg (by omega), ran]
    rfl
  · refine ⟨⟨⟨keeps.sound, lodged.stocked.apart, lodged.stocked.low, lodged.stocked.pool,
      lodged.stocked.nodup, lodged.stocked.idle⟩, ?_⟩, keeps.balanced, keeps.view⟩
    exact lodged.rooted.entries cleared.tables (deallocFrom_upper ran) rfl

/-- `freevm` gives back every table and every frame of the page table. -/
theorem freevm_ok (small : sz ≤ uaddrSz) :
    ∃ k', freevm k (some t) = .ok k' ∧ Stocked rest slots k' ∧ k'.tables = others ∧
      k'.vm.mem = k.vm.mem ∧ KeepsBeside (rest ∪ heapTables others) site own k'.vm blank := by
  obtain ⟨k₁, d, own', ran, lodged₁, beside, tables, -, mem, -, cut⟩ :=
    deallocuvm_ok inj lodged space le_rfl (show 0 < uaddrSz by decide)
  obtain ⟨nodup, used, left⟩ := lodged₁.rooted.listed
  obtain ⟨k₂, freed, stocked, tables₂, pages, memory⟩ := freeTables_ok lodged₁.stocked nodup used
  have exactly : k₂.tables = others := ext fun u => (tables₂ u).trans (left u)
  refine ⟨k₂, ?_, stocked, exactly, memory.trans mem, own', ⟨?_, ?_, fun x => ?_⟩, beside⟩
  · rw [freevm, ran]
    exact freed
  · exact exactly ▸ stocked.sound
  · rw [pages]
    exact lodged₁.balanced
  · have bare : lookup d x = none := by
      by_contra present
      obtain ⟨n, -, h⟩ := (cut small (Nat.zero_le _)).mapped x present
      exact Nat.not_lt_zero _ h
    rw [lodged₁.view, frameAt, frameAt, bare, lookup_blank]

end

omit [DecidableEq Ω] in
/-- The heap and the bytes change, with the same frames in use. -/
theorem Lodged.setVm {v : Vm} (lodged : Lodged rest slots others site own k t)
    (sound : Sound (rest ∪ heapTables k.tables) v) (pages : v.pages = k.vm.pages) :
    Lodged rest slots others site own { k with vm := v } t :=
  ⟨⟨⟨sound, lodged.stocked.apart, lodged.stocked.low, lodged.stocked.pool, lodged.stocked.nodup,
    lodged.stocked.idle⟩, ⟨lodged.rooted.pmd, lodged.rooted.pt, lodged.rooted.wide,
    lodged.rooted.deep, lodged.rooted.ledger⟩⟩, pages ▸ lodged.balanced, lodged.view⟩

omit [DecidableEq Ω] in
/-- A frame is taken and written to. -/
theorem Lodged.allocated {v : Vm} {p : Nat} (lodged : Lodged rest slots others site own k t)
    (run : allocPage k.vm = .ok (v, some p)) (bs : List UInt8) :
    Stored rest slots others { k with vm := v.write p bs } t := by
  obtain ⟨sound, -⟩ := (allocPage_ends lodged.stocked.sound).of_ok run
  exact ⟨⟨⟨sound.heap, sound.live, sound.apart⟩, lodged.stocked.apart, lodged.stocked.low,
    lodged.stocked.pool, lodged.stocked.nodup, lodged.stocked.idle⟩,
    ⟨lodged.rooted.pmd, lodged.rooted.pt, lodged.rooted.wide, lodged.rooted.deep,
      lodged.rooted.ledger⟩⟩

/-- One turn of the loops that map fresh pages. -/
theorem Lodged.next {v : Vm} {p a : Nat} (lodged : Lodged rest slots others site own k t)
    (inj : Injective site) (space : Space t.entries a) (aligned : pteSz ∣ a)
    (low : a < uaddrSz) (run : allocPage k.vm = .ok (v, some p)) (bs : List UInt8) (ap : Nat)
    (enough : missing t.entries a ≤ k.freelist.length) :
    ∃ k' t', mappages { k with vm := v.write p bs } t a pteSz (v2p p % 2 ^ 32) ap = .ok (k', t') ∧
      UserMemory.mappages t.entries a pteSz (v2p p % 2 ^ 32) ap = .ok t'.entries ∧
      Space t'.entries (a + pteSz) ∧
      lookup t'.entries = update (lookup t.entries) (page (a / pteSz))
        (some ⟨v2p p % 2 ^ 32, ap⟩) ∧
      (∀ n, lacking t'.entries (a + pteSz) n = lacking (addTables t.entries a) (a + pteSz) n) ∧
      Took (missing t.entries a) { k with vm := v.write p bs } k' ∧
      ∃ own', Lodged rest slots others site own' k' t' ∧ Beside site own own' := by
  obtain ⟨sound, fresh, pages, addr⟩ := (allocPage_ends lodged.stocked.sound).of_ok run
  obtain ⟨free, d, plain, entries, space'⟩ := space.grow aligned low (v2p p % 2 ^ 32) ap
  have keeps := lodged.keeps.map inj sound fresh pages addr free entries
  have first : alignDn a pteSz = a := Nat.div_mul_cancel aligned
  have mapped := plain
  rw [UserMemory.mappages, one_page aligned, first] at mapped
  have count : lacking t.entries a 1 = missing t.entries a := by
    rw [lacking_succ]
    rfl
  obtain ⟨k', t', ran, stored', took, same⟩ := mapFrom_ok (lodged.allocated run bs) (count ▸ enough) mapped
  subst same
  refine ⟨k', t', ?_, plain, space', entryOf_user low ▸ entries, fun n => ?_, count ▸ took, _,
    ⟨stored', ?_, keeps.view⟩, Beside.update _ _⟩
  · rw [mappages, one_page aligned, first]
    exact ran
  · rw [UserMemory.mapFrom] at mapped
    split at mapped
    case h_1 => cases mapped
    case h_2 =>
      rw [UserMemory.mapFrom] at mapped
      rw [← Except.ok.inj mapped, lacking_setPte]
  · rw [took.pages]
    exact keeps.balanced

end

end TableMemory
