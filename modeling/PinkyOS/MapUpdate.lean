import PinkyOS.MapPages

/-!
# `mappages` as an update of a partial map

A page table stands for a partial map from page numbers to frames and access bits. `mappages`
updates that map for a range of pages and panics if one of them is mapped. It does so whatever the
heap looks like if and only if the boot free list has all the tables that the range lacks.
-/
namespace PageTableWords
open MemoryLayout PageTablePool UserMemory Option BuddyHeap KernelMap PageTableWords Nat

/-- The page with number `n`, of the pages below 2^32. -/
def pageOf (mem : Mem) (pgdir n : Nat) : Option Pte := getPte (tree mem pgdir) (n * pteSz)

/-- The valid descriptor at `pte`. -/
def entryAt (mem : Mem) (pte : Nat) : Option Pte :=
  if present (word mem pte) then some (pteOf (word mem pte)) else none

/-- `walkpgdir` without allocation returns the entry that the map describes, and a null pointer
where no table covers the address. -/
def Describes (s : Kpt) (pgdir : Nat) : Prop :=
  ∀ va, ∃ r, walkpgdir s pgdir va false = .ok (s, r) ∧
    (r = none ↔ UserMemory.walkpgdir (tree s.mem pgdir) va = none) ∧
    ∀ pte, r = some pte → entryAt s.mem pte = pageOf s.mem pgdir (va / pteSz % 2 ^ 20)

/-- The numbers of the pages of a range of addresses. -/
def span (va size : Nat) : Set Nat := {n | va / pteSz ≤ n ∧ n ≤ (va + size - 1) / pteSz}

def pageCount (va size : Nat) : Nat := (va + size - 1) / pteSz - va / pteSz + 1

structure Refines (s : Kpt) (pgdir va size pa : Nat) (ap : BitVec 64) : Prop where
  update : (∀ n ∈ span va size, pageOf s.mem pgdir n = none) →
    ∃ s', mappages s pgdir va size pa ap = .ok (s', true) ∧
      (∀ k < pageCount va size, pageOf s'.mem pgdir (va / pteSz + k) =
        some ⟨pa + k * pteSz, ap.toNat⟩) ∧
      (∀ n < 2 ^ 20, n ∉ span va size → pageOf s'.mem pgdir n = pageOf s.mem pgdir n) ∧
      Describes s' pgdir
  panics : (∃ n ∈ span va size, pageOf s.mem pgdir n ≠ none) →
    ∃ msg, mappages s pgdir va size pa ap = .error msg

section
variable {image : Image} {s s₀ s' : Kpt} {mem : Mem} {pgdir t u r i j k n m va size pa : Nat}
  {ap : BitVec 64} {d : Pgd}

/-! ### The map behind the tree -/

theorem entryOf_page (a : Nat) : entryOf a = entryOf (a / pteSz % 2 ^ 20 * pteSz) := by
  have number : vpn (a / pteSz % 2 ^ 20 * pteSz) = vpn a := by
    rw [vpn, vpn, Nat.mul_div_cancel _ (by decide), mod_mod]
  obtain ⟨h₁, h₂, h₃⟩ := idx_vpn a
  obtain ⟨g₁, g₂, g₃⟩ := idx_vpn (a / pteSz % 2 ^ 20 * pteSz)
  rw [entryOf, entryOf, h₁, h₂, h₃, g₁, g₂, g₃, number]

theorem entryOf_inj (small : n < 2 ^ 20) (small' : m < 2 ^ 20)
    (same : entryOf (n * pteSz) = entryOf (m * pteSz)) : n = m := by
  have number : ∀ l < 2 ^ 20, vpn (l * pteSz) = l := by
    intro l less
    rw [vpn, Nat.mul_div_cancel _ (by decide), mod_eq_of_lt less]
  obtain ⟨h₁, h₂, h₃⟩ := idx_vpn (n * pteSz)
  obtain ⟨g₁, g₂, g₃⟩ := idx_vpn (m * pteSz)
  rw [number n small] at h₁ h₂ h₃
  rw [number m small'] at g₁ g₂ g₃
  simp only [entryOf, Prod.mk.injEq, h₁, h₂, h₃, g₁, g₂, g₃] at same
  omega

/-- The loop of `mappages` on a tree in which the pages are free. -/
theorem mapFrom_free {p : Nat} (top : m + n ≤ 2 ^ 20) (frames : pa + n * pteSz ≤ 2 ^ 32)
    (free : ∀ k < n, lookup d (entryOf ((m + k) * pteSz)) = none) :
    ∃ d', UserMemory.mapFrom n d (m * pteSz) pa p = .ok d' ∧
      (∀ k < n, lookup d' (entryOf ((m + k) * pteSz)) = some ⟨pa + k * pteSz, p⟩) ∧
      ∀ x, (∀ k < n, x ≠ entryOf ((m + k) * pteSz)) → lookup d' x = lookup d x := by
  induction n generalizing d m pa with
  | zero => exact ⟨d, rfl, fun k less => absurd less (Nat.not_lt_zero k), fun _ _ => rfl⟩
  | succ n ih =>
    have shift : ∀ k, m + 1 + k = m + (k + 1) := fun k => by omega
    have unmapped : getPte (addTables d (m * pteSz)) (m * pteSz) = none := by
      rw [getPte_eq, lookup_addTables]
      exact free 0 (succ_pos n)
    have here : (UserMemory.walkpgdir (addTables d (m * pteSz)) (m * pteSz)).isSome := by
      rw [walkpgdir_eq, tableAt_addTables, if_pos ⟨rfl, rfl⟩]
      rfl
    have stored := lookup_setPte (e := some ⟨pa, p⟩) here
    rw [lookup_addTables] at stored
    have other : ∀ k < n, entryOf ((m + (k + 1)) * pteSz) ≠ entryOf (m * pteSz) := by
      intro k less same
      have := entryOf_inj (by omega) (by omega) same
      omega
    obtain ⟨d', run, mapped, kept⟩ := @ih (m + 1) ((pa + pteSz) % 2 ^ 32)
      (setPte (addTables d (m * pteSz)) (m * pteSz) (some ⟨pa, p⟩)) (by omega)
      (by rw [pteSz_eq] at frames ⊢; omega) (fun k less => by
        rw [shift, stored, Function.update_of_ne (other k less)]
        exact free (k + 1) (succ_lt_succ less))
    refine ⟨d', ?_, fun k less => ?_, fun x outside => ?_⟩
    · rw [UserMemory.mapFrom, unmapped, ← run, succ_mul]
    · cases k with
      | zero =>
        rw [kept, stored]
        · simp
        · intro k less same
          rw [shift] at same
          exact other k less same.symm
      | succ k =>
        have frame : (pa + pteSz) % 2 ^ 32 + k * pteSz = pa + (k + 1) * pteSz := by
          rw [pteSz_eq] at frames ⊢
          omega
        rw [← shift, mapped k (lt_of_succ_lt_succ less), frame]
    · rw [kept x fun k less => by rw [shift]; exact outside (k + 1) (succ_lt_succ less),
        stored, Function.update_of_ne]
      exact outside 0 (succ_pos n)

theorem walkpgdir_tree (mem : Mem) (pgdir va : Nat) : UserMemory.walkpgdir (tree mem pgdir) va =
      (addr mem pgdir (.pt (pgdIdx va) (pmdIdx va))).map (ptOf mem) := by
  rw [UserMemory.walkpgdir, tree_apply, addr, addr]
  cases pmdAt mem pgdir (pgdIdx va) with
  | none => simp
  | some t => rw [map_some, bind_some, bind_some, pmdOf_apply]

theorem describes (s : Kpt) (pgdir : Nat) : Describes s pgdir := by
  intro va
  refine ⟨_, walkpgdir_look s pgdir va, ?_, ?_⟩
  · rw [walkpgdir_tree, map_eq_none_iff, map_eq_none_iff]
  · intro pte found
    obtain ⟨t, lower, rfl⟩ := map_eq_some_iff.mp found
    rw [pageOf, getPte_eq, ← entryOf_page, ← getPte_eq, getPte_tree lower, ptOf, entries, entryAt]
    simp [show pteIdx va < ptrsPerPte from mod_lt _ (by decide)]

/-! ### Words that stay -/

/-- The valid words of the tables of `s₀` are as they were, whatever tables `kpt_alloc` has
handed out since. -/
structure Guarded (image : Image) (s₀ : Kpt) (pgdir : Nat) (s : Kpt) : Prop where
  words : ∀ x t, addr s₀.mem pgdir x = some t → ∀ k < 512,
    present (word s₀.mem (t + 8 * k)) → word s.mem (t + 8 * k) = word s₀.mem (t + 8 * k)
  free : ∀ r ∈ s.freelist, InPool image r ∧ ∀ x, addr s₀.mem pgdir x ≠ some r
  heap : ∃ live, BuddyHeap.Reachable BuddyHeap.bootRegion s.heap live

theorem UserStyle.guarded (style : UserStyle image s pgdir) : Guarded image s pgdir s where
  words _ _ _ _ _ _ := rfl
  free r free := ⟨style.free r free, fun x found => (style.slot x r found).2 free⟩
  heap := style.heap

section
variable (guarded : Guarded image s₀ pgdir s) (style : UserStyle image s₀ pgdir)
include guarded style

theorem Guarded.setWord
    {a : Nat} {w : BitVec 64} (aligned : 8 ∣ a) (absent : ¬ present (word s.mem a)) :
    Guarded image s₀ pgdir { s with mem := setWord s.mem a w } where
  words x t found k less valid := by
    have same := guarded.words x t found k less valid
    obtain ⟨q, table⟩ := (style.slot x t found).1.aligned
    rw [ptSz_eq] at table
    dsimp only
    rw [word_setWord_of_apart, same]
    by_contra near
    have here : a = t + 8 * k := by omega
    rw [here, same] at absent
    exact absent valid
  free := guarded.free
  heap := guarded.heap

theorem Guarded.kptAlloc (run : kptAlloc s = .ok (s', r)) :
    Guarded image s₀ pgdir { s' with mem := memset0 s'.mem r ptSz } ∧ 8 ∣ r := by
  have size := ptSz_eq
  obtain ⟨cleared, way⟩ := kptAlloc_cases run
  have frame : ∀ apart : ∀ x t, addr s₀.mem pgdir x = some t → t + ptSz ≤ r ∨ r + ptSz ≤ t,
      ∀ x t, addr s₀.mem pgdir x = some t → ∀ k < 512, present (word s₀.mem (t + 8 * k)) →
        word (memset0 s'.mem r ptSz) (t + 8 * k) = word s₀.mem (t + 8 * k) := by
    intro apart x t found k less valid
    have away := apart x t found
    rw [cleared, word_memset0_of_apart (by omega), word_memset0_of_apart (by omega),
      guarded.words x t found k less valid]
  rcases way with ⟨list, heap⟩ | ⟨list, list', heap⟩
  · obtain ⟨slot, other⟩ := guarded.free r (list ▸ List.mem_cons_self)
    refine ⟨⟨frame fun x t found => ?_, fun q free => ?_, ?_⟩, ?_⟩
    · refine slots_apart (style.slot x t found).1 slot ?_
      rintro rfl
      exact other x found
    · exact guarded.free q (list ▸ List.mem_cons_of_mem r free)
    · dsimp only
      rw [heap]
      exact guarded.heap
    · exact (show 8 ∣ ptSz by decide).trans slot.aligned
  · obtain ⟨live, reach⟩ := guarded.heap
    have reach' := Reachable.malloc reach isOrder_ptOrder heap
    have high : p2v initKernmap ≤ r :=
      bootRegion.start_le_startHeap.trans (reach'.inside (Finset.mem_insert_self ..)).1
    refine ⟨⟨frame fun x t found => .inl ?_, ?_, _, reach'⟩, ?_⟩
    · exact (style.slot x t found).1.below.trans high
    · dsimp only
      rw [list']
      exact nofun
    · exact (show 8 ∣ 2 ^ ptOrder by decide).trans (reach'.aligned (Finset.mem_insert_self ..))

end

theorem entryAddr_aligned (w : BitVec 64) : ptSz ∣ PageTablePool.entryAddr w := by
  have low : (w &&& pgAddrMask).toNat % 2 ^ 12 = 0 := by
    rw [BitVec.toNat_and, and_mod_two_pow]
    exact and_zero _
  have base : kernBase = 0xFFFFFFFF00000000 := rfl
  rw [PageTablePool.entryAddr, p2v, base, ptSz_eq]
  omega

theorem not_present_memset0 {a : Nat} (aligned : 8 ∣ a) (even : 8 ∣ r)
    (absent : ¬ present (word mem a)) : ¬ present (word (memset0 mem r ptSz) a) := by
  have size := ptSz_eq
  by_cases apart : a + 8 ≤ r ∨ r + ptSz ≤ a
  · rwa [word_memset0_of_apart apart]
  · rw [word_memset0_inside (by omega), present_zero]
    exact Bool.false_ne_true

section
variable (guarded : Guarded image s₀ pgdir s)
include guarded

theorem Guarded.descend {slot : Nat} {res : Option Nat}
    (style : UserStyle image s₀ pgdir) (aligned : 8 ∣ slot)
    (run : descend s slot true = .ok (s', res)) :
    Guarded image s₀ pgdir s' ∧ ∃ t, res = some t ∧ 8 ∣ t := by
  rw [PageTableWords.descend] at run
  split at run
  case isTrue valid =>
    cases run
    exact ⟨guarded, _, rfl, (show 8 ∣ ptSz by decide).trans (entryAddr_aligned _)⟩
  case isFalse absent =>
    rw [if_pos rfl] at run
    cases taken : PageTablePool.kptAlloc s with
    | error msg =>
      rw [taken] at run
      cases run
    | ok a =>
      obtain ⟨s₁, r⟩ := a
      rw [taken] at run
      cases run
      obtain ⟨guarded₁, even⟩ := guarded.kptAlloc style taken
      refine ⟨guarded₁.setWord style aligned ?_, r, rfl, even⟩
      apply not_present_memset0 aligned even
      rw [(kptAlloc_cases taken).1]
      exact not_present_memset0 aligned even absent

/-- The entry that `walkpgdir` comes to by taking tables. -/
theorem Guarded.walkpgdir {res : Option Nat} (style : UserStyle image s₀ pgdir)
    (run : PageTableWords.walkpgdir s pgdir va true = .ok (s', res)) :
    Guarded image s₀ pgdir s' ∧ ∃ pte, res = some pte ∧ 8 ∣ pte := by
  have start : 8 ∣ pgdir := (show 8 ∣ ptSz by decide).trans (style.slot .pgd pgdir rfl).1.aligned
  have index : ∀ {t i : Nat}, 8 ∣ t → 8 ∣ t + 8 * i := fun h => Nat.dvd_add h (Nat.dvd_mul_right ..)
  rw [PageTableWords.walkpgdir] at run
  obtain ⟨⟨s₁, res₁⟩, run₁, rest⟩ := bind_eq_ok run
  obtain ⟨guarded₁, t, rfl, even₁⟩ := guarded.descend style (index start) run₁
  dsimp only at rest
  obtain ⟨⟨s₂, res₂⟩, run₂, rest⟩ := bind_eq_ok rest
  obtain ⟨guarded₂, u, rfl, even₂⟩ := guarded₁.descend style (index even₁) run₂
  cases rest
  exact ⟨guarded₂, _, rfl, index even₂⟩

/-- A page that was mapped at the beginning is found mapped. -/
theorem Guarded.mapped (mapped : getPte (tree s₀.mem pgdir) va ≠ none) :
    ∃ pte, PageTableWords.walkpgdir s pgdir va true = .ok (s, some pte) ∧
      present (word s.mem pte) := by
  obtain ⟨e, entry⟩ := ne_none_iff_exists'.mp mapped
  obtain ⟨pt, table, -⟩ := bind_eq_some_iff.mp entry
  rw [walkpgdir_tree] at table
  obtain ⟨u, lower, -⟩ := map_eq_some_iff.mp table
  have valid := present_iff_getPte lower
  rw [entry] at valid
  obtain ⟨t, upper, inner⟩ := bind_eq_some_iff.mp lower
  obtain ⟨less₁, valid₁, isT⟩ := entries_eq_some.mp upper
  obtain ⟨less₂, valid₂, isU⟩ := entries_eq_some.mp inner
  have same₁ := guarded.words .pgd pgdir rfl _ (less₁.trans (by decide)) valid₁
  have same₂ := guarded.words (.pmd (pgdIdx va)) t upper _ less₂ valid₂
  have same₃ := guarded.words _ u lower (pteIdx va) (mod_lt _ (by decide)) valid
  refine ⟨u + 8 * pteIdx va, ?_, by rw [same₃, valid]; rfl⟩
  rw [PageTableWords.walkpgdir, descend_present (by rw [same₁, valid₁]), ok_bind, same₁,
    isT]
  dsimp only
  rw [descend_present (by rw [same₂, valid₂]), ok_bind, same₂, isU]
  rfl

theorem Guarded.mapFrom {a : Nat} (style : UserStyle image s₀ pgdir)
    (mapped : ∃ k < n, getPte (tree s₀.mem pgdir) (a + k * pteSz) ≠ none) :
    ∃ msg, PageTableWords.mapFrom n s pgdir a pa ap = .error msg := by
  induction n generalizing s a pa with
  | zero =>
    obtain ⟨k, less, -⟩ := mapped
    exact absurd less (Nat.not_lt_zero k)
  | succ n ih =>
    rw [PageTableWords.mapFrom]
    by_cases here : getPte (tree s₀.mem pgdir) a = none
    · cases walk : PageTableWords.walkpgdir s pgdir a true with
      | error msg => exact ⟨msg, rfl⟩
      | ok res =>
        obtain ⟨s₁, res⟩ := res
        obtain ⟨guarded₁, pte, rfl, even⟩ := guarded.walkpgdir style walk
        rw [ok_bind]
        dsimp only
        split
        case isTrue => exact ⟨_, rfl⟩
        case isFalse absent =>
          refine ih (guarded₁.setWord style even absent) ?_
          obtain ⟨k, less, mapped⟩ := mapped
          cases k with
          | zero => exact absurd (by simpa using here) mapped
          | succ k =>
            refine ⟨k, lt_of_succ_lt_succ less, ?_⟩
            rwa [Nat.add_assoc, Nat.add_comm pteSz, ← succ_mul]
    · obtain ⟨pte, walk, valid⟩ := guarded.mapped here
      rw [walk, ok_bind]
      dsimp only
      rw [if_pos valid]
      exact ⟨_, rfl⟩

end

/-! ### The whole range -/

theorem mappages_eq (s : Kpt) (pgdir va size pa : Nat) (ap : BitVec 64) :
    mappages s pgdir va size pa ap =
      mapFrom (pageCount va size) s pgdir (va / pteSz * pteSz) pa ap := by
  rw [mappages, pageCount, alignDn, alignDn, ← Nat.sub_mul, Nat.mul_div_cancel _ (by decide)]

theorem mem_span : n ∈ span va size ↔ va / pteSz ≤ n ∧ n ≤ (va + size - 1) / pteSz := Iff.rfl

theorem mem_span_iff (nonempty : 1 ≤ size) :
    n ∈ span va size ↔ ∃ k < pageCount va size, n = va / pteSz + k := by
  have le : va / pteSz ≤ (va + size - 1) / pteSz := Nat.div_le_div_right (by omega)
  rw [mem_span, pageCount]
  constructor
  · rintro ⟨low, high⟩
    exact ⟨n - va / pteSz, by omega, by omega⟩
  · rintro ⟨k, less, rfl⟩
    omega

theorem pageCount_le (nonempty : 1 ≤ size) (small : va + size ≤ 2 ^ 32) :
    va / pteSz + pageCount va size ≤ 2 ^ 20 := by
  rw [pageCount, pteSz_eq]
  omega

theorem UserStyle.update (style : UserStyle image s pgdir) (nonempty : 1 ≤ size)
    (small : va + size ≤ 2 ^ 32) (aligned : pteSz ∣ pa)
    (frames : pa + pageCount va size * pteSz ≤ 2 ^ 32) (field : ap &&& KernelMap.apMask = ap)
    (free : ∀ n ∈ span va size, pageOf s.mem pgdir n = none)
    (enough : lacking (tree s.mem pgdir) (va / pteSz * pteSz) (pageCount va size) ≤
      s.freelist.length) :
    ∃ s', mappages s pgdir va size pa ap = .ok (s', true) ∧ UserStyle image s' pgdir ∧
      (∀ k < pageCount va size, pageOf s'.mem pgdir (va / pteSz + k) =
        some ⟨pa + k * pteSz, ap.toNat⟩) ∧
      ∀ n < 2 ^ 20, n ∉ span va size → pageOf s'.mem pgdir n = pageOf s.mem pgdir n := by
  have top := pageCount_le nonempty small
  obtain ⟨d, run, mapped, kept⟩ := mapFrom_free (d := tree s.mem pgdir) (p := ap.toNat) top frames
    fun k less => free _ ((mem_span_iff nonempty).mpr ⟨k, less, rfl⟩)
  obtain ⟨s', ran, style', isD⟩ := style.mapFrom aligned frames field enough run
  refine ⟨s', by rw [mappages_eq, ran], style', fun k less => ?_, fun n less outside => ?_⟩
  · rw [pageOf, isD]
    exact mapped k less
  · rw [pageOf, pageOf, isD, getPte_eq, getPte_eq]
    apply kept
    intro k inside same
    have isN := entryOf_inj less (by omega) same
    exact outside ((mem_span_iff nonempty).mpr ⟨k, inside, isN⟩)

/-- `mappages` refines the update of the map for every arrangement of the heap if and only if the
boot free list has the tables that a free range lacks. -/
theorem mappages_refines_iff (image : Image) (s : Kpt) (pgdir : Nat)
    (style : UserStyle image s pgdir) (va size pa : Nat) (ap : BitVec 64) (nonempty : 1 ≤ size)
    (small : va + size ≤ 2 ^ 32) (aligned : pteSz ∣ pa)
    (frames : pa + pageCount va size * pteSz ≤ 2 ^ 32) (field : ap &&& KernelMap.apMask = ap) :
    (∀ heap live, BuddyHeap.Reachable BuddyHeap.bootRegion heap live →
      Refines { s with heap := heap } pgdir va size pa ap) ↔
    ((∀ n ∈ span va size, pageOf s.mem pgdir n = none) →
      lacking (tree s.mem pgdir) (alignDn va pteSz) (pageCount va size) ≤ s.freelist.length) := by
  have styled : ∀ heap live, BuddyHeap.Reachable BuddyHeap.bootRegion heap live →
      UserStyle image { s with heap := heap } pgdir := fun heap live reach =>
    ⟨style.slot, style.once, style.free, style.nodup, live, reach⟩
  constructor
  · intro refines free
    by_contra short
    obtain ⟨live, reach⟩ := style.heap
    obtain ⟨heap, live', reach', -, out⟩ := reach.exhaust isOrder_ptOrder
    obtain ⟨s', run, -⟩ := (refines heap live' reach').update free
    obtain ⟨msg, oom⟩ := (styled heap live' reach').mapFrom_oom out
      (Nat.lt_of_not_le short)
    rw [mappages_eq] at run
    rw [alignDn, run] at oom
    cases oom
  · intro enough heap live reach
    constructor
    case update =>
      intro free
      obtain ⟨s', run, -, mapped, kept⟩ := (styled heap live reach).update nonempty small aligned
        frames field free (enough free)
      exact ⟨s', run, mapped, kept, describes s' pgdir⟩
    case panics =>
      rintro ⟨n, inside, mapped⟩
      obtain ⟨k, less, rfl⟩ := (mem_span_iff nonempty).mp inside
      have style' := styled heap live reach
      rw [mappages_eq]
      refine style'.guarded.mapFrom style' ⟨k, less, ?_⟩
      rwa [← Nat.add_mul]

/-! ### An empty table -/

theorem word_zero (a : Nat) : word (fun _ => 0) a = 0 := by
  rw [word, List.map_const', List.length_range, ByteBuffer.ofLE_replicate_zero]
  rfl

theorem memset0_zero (a n : Nat) : memset0 (fun _ => 0) a n = fun _ => 0 := by
  funext x
  rw [memset0, ite_self]

theorem tree_zero (pgdir : Nat) : tree (fun _ => 0) pgdir = blank :=
  entries_zero (fun _ _ => word_zero _) (by decide) _

theorem UserStyle.zero {heap : Kmem} {live : Finset (Nat × Nat)} {list : List Nat}
    (slot : InPool image pgdir) (busy : pgdir ∉ list) (free : ∀ t ∈ list, InPool image t)
    (nodup : list.Nodup) (reach : Reachable bootRegion heap live) :
    UserStyle image ⟨list, heap, fun _ => 0⟩ pgdir := by
  have only : ∀ x t, addr (fun _ => 0) pgdir x = some t → x = .pgd ∧ t = pgdir := by
    have none : ∀ i, pmdAt (fun _ => 0) pgdir i = none := fun i =>
      congrFun (entries_zero (fun _ _ => word_zero _) (show ptrsPerPgd ≤ 512 by decide) _) i
    intro x t found
    cases x with
    | pgd => exact ⟨rfl, (some.inj found).symm⟩
    | pmd i =>
      rw [addr, none] at found
      cases found
    | pt i j =>
      rw [addr, none] at found
      cases found
  refine ⟨fun x t found => ?_, fun x y t foundX foundY => ?_, free, nodup, live, reach⟩
  · rw [(only x t found).2]
    exact ⟨slot, busy⟩
  · rw [(only x t foundX).1, (only y t foundY).1]

/-- With two tables on the free list one page can be mapped in an empty table. -/
theorem one_page_mapped : ∃ s pgdir, UserStyle smallImage s pgdir ∧
    ∀ heap live, BuddyHeap.Reachable BuddyHeap.bootRegion heap live →
      Refines { s with heap := heap } pgdir 0x5000 0x1000 0x48000000 KernelMap.apRw10 := by
  obtain ⟨heap, init, -⟩ := BuddyHeap.kmemInit2_spec BuddyHeap.bootRegion
    ⟨0, 0, 0, fun _ => ⟨0, 0⟩, fun _ => ⟨0#32, 0#32⟩⟩
  have style : UserStyle smallImage ⟨[smallImage.kend + 1 * ptSz, smallImage.kend + 2 * ptSz], heap,
      fun _ => 0⟩ (smallImage.kend + 0 * ptSz) := by
    refine .zero (smallImage_slot (by decide)) (by decide) ?_ (by decide) (.init init)
    intro t isFree
    simp only [List.mem_cons, List.not_mem_nil, or_false] at isFree
    rcases isFree with rfl | rfl
    · exact smallImage_slot (by decide)
    · exact smallImage_slot (by decide)
  refine ⟨_, _, style, (mappages_refines_iff smallImage _ _ style _ _ _ _ (by decide) (by decide)
    (by decide) (by decide) (by decide)).mpr fun _ => ?_⟩
  rw [tree_zero]
  show lacking blank 0x5000 1 ≤ 2
  decide

/-! ### A table from the heap -/

/-- Some table of the heap does not start at a multiple of its size. -/
theorem exists_unaligned : ∃ heap live heap' r, Reachable bootRegion heap live ∧
    kmalloc heap ptOrder = .ok (heap', some r) ∧ ¬ ptSz ∣ r := by
  obtain ⟨heap, init, ok⟩ := kmemInit2_spec bootRegion
    ⟨0, 0, 0, fun _ => ⟨0, 0⟩, fun _ => ⟨0#32, 0#32⟩⟩
  have reach : Reachable bootRegion heap ∅ := .init init
  obtain ⟨heap₁, heap₂, t, u, run₁, run₂, near⟩ :=
    kmalloc_neighbours ok isOrder_ptOrder (by decide) (by decide)
  rw [show 2 ^ ptOrder = 1024 from rfl] at near
  by_cases aligned : ptSz ∣ t
  · refine ⟨heap₁, _, heap₂, u, reach.malloc isOrder_ptOrder run₁, run₂, ?_⟩
    rw [show ptSz = 4096 from rfl] at *
    omega
  · exact ⟨heap, ∅, heap₁, t, reach, run₁, aligned⟩

theorem descend_alloc {slot : Nat} {s' : Kpt} (alloc : kptAlloc s = .ok (s', t))
    (absent : ¬ present (word s.mem slot)) : descend s slot true =
      .ok ({ s' with mem := setWord (memset0 s'.mem t ptSz) slot (tableEntry t) }, some t) := by
  rw [descend, if_neg absent, if_pos rfl, alloc]
  rfl

/-- The memory after the page number 5 was mapped through the tables `t` and `u`. -/
def heapMapped (pgdir t u : Nat) (w : BitVec 64) : Mem :=
  setWord (setWord (memset0 (memset0 (setWord (fun _ => 0) pgdir (tableEntry t)) u ptSz) u ptSz) t
    (tableEntry u)) (u + 40) w

theorem word_heapMapped_zero {w : BitVec 64} {b : Nat} (notPgd : b + 8 ≤ pgdir ∨ pgdir + 8 ≤ b)
    (notT : b + 8 ≤ t ∨ t + 8 ≤ b) (notU : b + 8 ≤ u + 40 ∨ u + 40 + 8 ≤ b) (aligned : 8 ∣ b)
    (even : 8 ∣ u) : word (heapMapped pgdir t u w) b = 0 := by
  have size := ptSz_eq
  rw [heapMapped, word_setWord_of_apart (by omega), word_setWord_of_apart (by omega)]
  by_cases apart : b + 8 ≤ u ∨ u + ptSz ≤ b
  · rw [word_memset0_of_apart apart, word_memset0_of_apart apart, word_setWord_of_apart (by omega),
      word_zero]
  · rw [word_memset0_inside (by omega)]

/-- A table that does not start at a multiple of its size is not found again. -/
theorem pageOf_heapMapped {w : BitVec 64} (slot : InPool image t) (below : pgdir + ptSz ≤ t)
    (far : t + ptSz ≤ u) (whole : ptSz ∣ pgdir) (aligned : 2 ^ ptOrder ∣ u) (off : ¬ ptSz ∣ u) :
    pageOf (heapMapped pgdir t u w) pgdir 5 = none := by
  have size := ptSz_eq
  have order : 2 ^ ptOrder = 1024 := rfl
  have first : word (heapMapped pgdir t u w) pgdir = tableEntry t := by
    rw [heapMapped, word_setWord_of_apart (by omega), word_setWord_of_apart (by omega),
      word_memset0_of_apart (by omega), word_memset0_of_apart (by omega), word_setWord_self]
  have second : word (heapMapped pgdir t u w) t = tableEntry u := by
    rw [heapMapped, word_setWord_of_apart (by omega), word_setWord_self]
  have upper : pmdAt (heapMapped pgdir t u w) pgdir 0 = some t :=
    entries_eq_some.mpr ⟨by decide, by rw [Nat.mul_zero, Nat.add_zero, first, present_tableEntry],
      by rw [Nat.mul_zero, Nat.add_zero, first, entryAddr_slot slot]⟩
  have lower : addr (heapMapped pgdir t u w) pgdir (.pt 0 0) =
      some (PageTablePool.entryAddr (tableEntry u)) := by
    rw [addr_pt upper]
    exact entries_eq_some.mpr ⟨by decide,
      by rw [Nat.mul_zero, Nat.add_zero, second, present_tableEntry],
      by rw [Nat.mul_zero, Nat.add_zero, second]⟩
  have table := walkpgdir_tree (heapMapped pgdir t u w) pgdir (5 * pteSz)
  have page := entryAddr_aligned (tableEntry u)
  have found := slot.aligned
  rw [size] at page found whole off
  rw [order] at aligned
  rw [pageOf, getPte, table, show pgdIdx (5 * pteSz) = 0 from rfl,
    show pmdIdx (5 * pteSz) = 0 from rfl, show pteIdx (5 * pteSz) = 5 from rfl, lower,
    map_some, bind_some]
  refine entries_eq_none.mpr fun both => ?_
  rw [word_heapMapped_zero (by omega) (by omega) (by omega) (by omega) (by omega),
    present_zero] at both
  exact absurd both.2 Bool.false_ne_true

/-- With one free table `mappages` takes the other one from the heap. -/
theorem mappages_heapMapped {heap heap' : Kmem} (below : pgdir + ptSz ≤ t)
    (far : t + ptSz ≤ u) (run : kmalloc heap ptOrder = .ok (heap', some u)) :
    mappages ⟨[t], heap, fun _ => 0⟩ pgdir 0x5000 0x1000 0x48000000 KernelMap.apRw10 =
      .ok (⟨[], heap', heapMapped pgdir t u (KernelMap.pageDesc 0x48000000 KernelMap.apRw10)⟩,
        true) := by
  have size := ptSz_eq
  have zero {a : Nat} : ¬ present (word (fun _ => 0) a) := by
    rw [word_zero, present_zero]
    exact Bool.false_ne_true
  have notPmd : ¬ present (word (setWord (fun _ => 0) pgdir (tableEntry t)) t) := by
    rw [word_setWord_of_apart (by omega)]
    exact zero
  have walk : walkpgdir ⟨[t], heap, fun _ => 0⟩ pgdir 0x5000 true =
      .ok (⟨[], heap', setWord (memset0 (memset0 (setWord (fun _ => 0) pgdir (tableEntry t)) u ptSz)
        u ptSz) t (tableEntry u)⟩, some (u + 40)) := by
    have pool : kptAlloc ⟨[t], heap, fun _ => 0⟩ = .ok (⟨[], heap, memset0 (fun _ => 0) t ptSz⟩, t) :=
      rfl
    have taken : kptAlloc ⟨[], heap, setWord (fun _ => 0) pgdir (tableEntry t)⟩ = _ :=
      kptAlloc_heap rfl run
    rw [walkpgdir, descend_alloc pool zero, ok_bind, show pgdIdx 0x5000 = 0 from rfl]
    dsimp only
    rw [memset0_zero, memset0_zero, show pmdIdx 0x5000 = 0 from rfl, Nat.mul_zero, Nat.add_zero,
      Nat.add_zero, descend_alloc taken notPmd, ok_bind]
    rfl
  have notPte : ¬ present (word (setWord (memset0 (memset0 (setWord (fun _ => 0) pgdir
      (tableEntry t)) u ptSz) u ptSz) t (tableEntry u)) (u + 40)) := by
    rw [word_setWord_of_apart (by omega), word_memset0_inside (by omega), present_zero]
    exact Bool.false_ne_true
  rw [mappages_eq, show pageCount 0x5000 0x1000 = 1 from rfl,
    show 0x5000 / pteSz * pteSz = 0x5000 from rfl, mapFrom, walk, ok_bind]
  dsimp only
  rw [if_neg notPte]
  rfl

/-- `mappages` returns 0 and leaves the page unmapped. -/
theorem heap_tables_lose_page : ∃ s s' pgdir, UserStyle smallImage s pgdir ∧
    pageOf s.mem pgdir 5 = none ∧
    mappages s pgdir 0x5000 0x1000 0x48000000 KernelMap.apRw10 = .ok (s', true) ∧
    pageOf s'.mem pgdir 5 = none := by
  obtain ⟨heap, live, heap', u, reach, run, off⟩ := exists_unaligned
  have reach' := reach.malloc isOrder_ptOrder run
  have slot := smallImage_slot (k := 0) (by decide)
  have slot' := smallImage_slot (k := 1) (by decide)
  have below : smallImage.kend + 0 * ptSz + ptSz ≤ smallImage.kend + 1 * ptSz := by decide
  have far : smallImage.kend + 1 * ptSz + ptSz ≤ u :=
    ((show smallImage.kend + 1 * ptSz + ptSz ≤ BuddyHeap.bootRegion.start by decide).trans
      BuddyHeap.bootRegion.start_le_startHeap).trans (reach'.inside (Finset.mem_insert_self ..)).1
  refine ⟨_, _, _, .zero slot (by decide) (by simpa using slot') (List.nodup_singleton _) reach, ?_,
    mappages_heapMapped below far run, pageOf_heapMapped slot' below far slot.aligned
      (reach'.aligned (Finset.mem_insert_self ..)) off⟩
  rw [pageOf, tree_zero]
  rfl

end

end PageTableWords
