import PinkyOS.KernelMap
import PinkyOS.PageTree
import PinkyOS.PageTableStorage

/-!
# Page tables in memory (`walkpgdir` and `mappages` of `vm.c`)

The tables are arrays of 512 words of 64 bits in the memory of the kernel, a descriptor is an
address with attribute bits, and missing tables come from `kpt_alloc`. `tree` reads the memory
behind a first-level table as the tree of the module `UserMemory`. A table of the user's style has
its tables in slots of the boot pool, each of them at one place of the tree.
-/
namespace PageTableWords
open MemoryLayout PageTablePool ByteBuffer Function

abbrev Mem := Nat → UInt8

/-- The 64-bit word at `a`. -/
def word (mem : Mem) (a : Nat) : BitVec 64 :=
  BitVec.ofNat 64 (ofLE ((List.range 8).map fun i => mem (a + i)))

def setWord (mem : Mem) (a : Nat) (w : BitVec 64) : Mem :=
  UserMemory.store mem a (leBytes 8 w.toNat)

/-- `w & (ENTRY_TABLE | ENTRY_VALID)`, which is also `w & (ENTRY_PAGE | ENTRY_VALID)`. -/
def present (w : BitVec 64) : Bool := decide (w &&& (entryTable ||| entryValid) ≠ 0)

/-- One level of `walkpgdir`: the table behind the descriptor at `slot`. -/
def descend (s : Kpt) (slot : Nat) (alloc : Bool) : Except String (Kpt × Option Nat) :=
  if present (word s.mem slot) then
    .ok (s, some (entryAddr (word s.mem slot)))
  else if alloc then do
    let (s, t) ← kptAlloc s
    return ({ s with mem := setWord (memset0 s.mem t ptSz) slot (tableEntry t) }, some t)
  else
    .ok (s, none)

/-- `walkpgdir` with the address it returns; `none` is a null pointer. -/
def walkpgdir (s : Kpt) (pgdbase va : Nat) (alloc : Bool) : Except String (Kpt × Option Nat) := do
  match ← descend s (pgdbase + 8 * UserMemory.pgdIdx va) alloc with
  | (s, none) => return (s, none)
  | (s, some pmdbase) =>
    match ← descend s (pmdbase + 8 * UserMemory.pmdIdx va) alloc with
    | (s, none) => return (s, none)
    | (s, some ptebase) => return (s, some (ptebase + 8 * UserMemory.pteIdx va))

/-- The loop of `mappages` over `n` pages; `false` stands for -1. -/
def mapFrom : Nat → Kpt → Nat → Nat → Nat → BitVec 64 → Except String (Kpt × Bool)
  | 0, s, _, _, _, _ => .ok (s, true)
  | n + 1, s, pgdir, a, pa, ap => do
    match ← walkpgdir s pgdir a true with
    | (s, none) => return (s, false)
    | (s, some pte) =>
      if present (word s.mem pte) then
        throw "remap"
      else
        mapFrom n { s with mem := setWord s.mem pte (KernelMap.pageDesc pa ap) } pgdir (a + pteSz)
          ((pa + pteSz) % 2 ^ 32) ap

def mappages (s : Kpt) (pgdir va size pa : Nat) (ap : BitVec 64) : Except String (Kpt × Bool) :=
  let a := alignDn va pteSz
  let last := alignDn (va + size - 1) pteSz
  mapFrom ((last - a) / pteSz + 1) s pgdir a pa ap

/-! ### Memory as a tree -/

/-- The first `n` words of the table at `t`, as far as they are valid, read by `f`. -/
def entries {α : Type} (mem : Mem) (t n : Nat) (f : BitVec 64 → α) (i : Nat) : Option α :=
  if i < n ∧ present (word mem (t + 8 * i)) then some (f (word mem (t + 8 * i))) else none

def pteOf (w : BitVec 64) : UserMemory.Pte :=
  ⟨alignDn w.toNat pteSz, (w &&& KernelMap.apMask).toNat⟩

def ptOf (mem : Mem) (t : Nat) : UserMemory.Pt := entries mem t ptrsPerPte pteOf

def pmdOf (mem : Mem) (t : Nat) : UserMemory.Pmd :=
  entries mem t ptrsPerPmd fun w => ptOf mem (entryAddr w)

def tree (mem : Mem) (pgdir : Nat) : UserMemory.Pgd :=
  entries mem pgdir ptrsPerPgd fun w => pmdOf mem (entryAddr w)

/-- A place for a table in the tree. -/
inductive Site where
  | pgd
  | pmd (i : Nat)
  | pt (i j : Nat)
  deriving DecidableEq

def pmdAt (mem : Mem) (pgdir i : Nat) : Option Nat := entries mem pgdir ptrsPerPgd entryAddr i

def addr (mem : Mem) (pgdir : Nat) : Site → Option Nat
  | .pgd => some pgdir
  | .pmd i => pmdAt mem pgdir i
  | .pt i j => (pmdAt mem pgdir i).bind fun t => entries mem t ptrsPerPmd entryAddr j

/-- A table of the user's style, and the allocator beside it. -/
structure UserStyle (image : Image) (s : Kpt) (pgdir : Nat) : Prop where
  slot : ∀ x t, addr s.mem pgdir x = some t → InPool image t ∧ t ∉ s.freelist
  once : ∀ x y t, addr s.mem pgdir x = some t → addr s.mem pgdir y = some t → x = y
  free : ∀ t ∈ s.freelist, InPool image t
  nodup : s.freelist.Nodup
  heap : ∃ live, BuddyHeap.Reachable BuddyHeap.bootRegion s.heap live

/-! ### Words -/

section
variable {mem mem' : Mem} {a b t u n i j : Nat} {w : BitVec 64}

theorem word_congr (same : ∀ i < 8, mem' (b + i) = mem (b + i)) : word mem' b = word mem b := by
  rw [word, word, List.map_congr_left fun i inside => same i (List.mem_range.mp inside)]

theorem word_setWord_self (mem : Mem) (a : Nat) (w : BitVec 64) : word (setWord mem a w) a = w := by
  have bytes : ((List.range 8).map fun i => setWord mem a w (a + i)) = leBytes 8 w.toNat := by
    apply List.ext_getElem
    · simp
    · intro i _ inside
      simp [setWord, UserMemory.store, List.getElem?_eq_getElem inside]
  rw [word, bytes, ofLE_leBytes w.isLt, BitVec.ofNat_toNat, BitVec.setWidth_eq]

theorem word_setWord_of_apart (apart : a + 8 ≤ b ∨ b + 8 ≤ a) :
    word (setWord mem a w) b = word mem b := by
  apply word_congr
  intro i inside
  rw [setWord, UserMemory.store]
  split
  case isTrue above => rw [List.getElem?_eq_none (by rw [length_leBytes]; omega), Option.getD_none]
  case isFalse => rfl

theorem word_memset0_of_apart (apart : b + 8 ≤ t ∨ t + n ≤ b) :
    word (memset0 mem t n) b = word mem b := by
  apply word_congr
  intro i inside
  rw [memset0, if_neg (by omega)]

theorem word_memset0_inside (inside : t ≤ b ∧ b + 8 ≤ t + n) : word (memset0 mem t n) b = 0 := by
  have zero : ((List.range 8).map fun i => memset0 mem t n (b + i)) = List.replicate 8 0 := by
    apply List.ext_getElem
    · simp
    · intro i less _
      rw [List.length_map, List.length_range] at less
      simp only [List.getElem_map, List.getElem_range, List.getElem_replicate, memset0]
      rw [if_pos (by omega)]
  rw [word, zero, ofLE_replicate_zero]
  rfl

theorem present_zero : present 0 = false := by decide

theorem present_tableEntry (t : Nat) : present (tableEntry t) = true := by
  rw [present, decide_eq_true_eq]
  intro zero
  have bit := congrArg (fun w : BitVec 64 => w.getLsbD 0) zero
  simp [tableEntry, entryTable, entryValid] at bit

theorem present_pageDesc (pa : Nat) (ap : BitVec 64) : present (KernelMap.pageDesc pa ap) = true := by
  rw [present, decide_eq_true_eq]
  intro zero
  have bit := congrArg (fun w : BitVec 64 => w.getLsbD 0) zero
  simp [KernelMap.pageDesc, entryTable, entryValid] at bit

/-! ### Tables whose words are unchanged -/

/-- The words of the table at `t` are the same. -/
def Same (mem mem' : Mem) (t : Nat) : Prop := ∀ k < 512, word mem' (t + 8 * k) = word mem (t + 8 * k)

variable {α : Type} {f f' : BitVec 64 → α}

theorem entries_eq_some {x : α} : entries mem t n f i = some x ↔
    i < n ∧ present (word mem (t + 8 * i)) ∧ f (word mem (t + 8 * i)) = x := by
  rw [entries]
  split
  case isTrue both =>
    rw [Option.some.injEq]
    exact ⟨fun h => ⟨both.1, both.2, h⟩, fun h => h.2.2⟩
  case isFalse neither => exact ⟨nofun, fun h => absurd ⟨h.1, h.2.1⟩ neither⟩

theorem entries_eq_none : entries mem t n f i = none ↔
    ¬ (i < n ∧ present (word mem (t + 8 * i))) := by
  rw [entries]
  split
  case isTrue both => exact ⟨nofun, fun h => absurd both h⟩
  case isFalse neither => exact ⟨fun _ => neither, fun _ => rfl⟩

theorem entries_apply_congr (words : i < n → word mem' (t + 8 * i) = word mem (t + 8 * i))
    (below : ∀ x, entries mem t n entryAddr i = some x →
      f' (word mem (t + 8 * i)) = f (word mem (t + 8 * i))) :
    entries mem' t n f' i = entries mem t n f i := by
  rw [entries, entries]
  by_cases less : i < n
  · rw [words less]
    split
    case isTrue both =>
      rw [below (entryAddr (word mem (t + 8 * i))) (entries_eq_some.mpr ⟨both.1, both.2, rfl⟩)]
    case isFalse => rfl
  · rw [if_neg fun h => less h.1, if_neg fun h => less h.1]

/-- One word of a table may change; below the other words nothing does. -/
theorem entries_update (inside : i < n) (now : present (word mem' (t + 8 * i)))
    (words : ∀ j < n, j ≠ i → word mem' (t + 8 * j) = word mem (t + 8 * j))
    (below : ∀ j x, j ≠ i → entries mem t n entryAddr j = some x →
      f' (word mem (t + 8 * j)) = f (word mem (t + 8 * j))) :
    entries mem' t n f' =
      update (entries mem t n f) i (some (f' (word mem' (t + 8 * i)))) := by
  funext j
  by_cases here : j = i
  · subst here
    rw [update_self]
    exact entries_eq_some.mpr ⟨inside, now, rfl⟩
  · rw [update_of_ne here]
    exact entries_apply_congr (fun less => words j less here) fun x entry => below j x here entry

theorem entries_congr (words : ∀ j < n, word mem' (t + 8 * j) = word mem (t + 8 * j))
    (below : ∀ j x, entries mem t n entryAddr j = some x →
      f' (word mem (t + 8 * j)) = f (word mem (t + 8 * j))) :
    entries mem' t n f' = entries mem t n f :=
  funext fun j => entries_apply_congr (words j) (below j)

theorem Same.entries_eq (same : Same mem mem' t) (le : n ≤ 512) (f : BitVec 64 → α) :
    entries mem' t n f = entries mem t n f :=
  entries_congr (fun j less => same j (less.trans_le le)) fun _ _ _ => rfl

theorem Same.pmdOf_eq (same : Same mem mem' t)
    (below : ∀ j u, entries mem t ptrsPerPmd entryAddr j = some u →
      Same mem mem' u) : pmdOf mem' t = pmdOf mem t := by
  apply entries_congr same
  intro j u entry
  rw [(entries_eq_some.mp entry).2.2]
  exact (below j u entry).entries_eq le_rfl _

theorem entries_zero (zero : ∀ k < 512, word mem (t + 8 * k) = 0) (le : n ≤ 512)
    (f : BitVec 64 → α) : entries mem t n f = UserMemory.blank := by
  funext j
  rw [entries_eq_none.mpr]
  · rfl
  · rintro ⟨less, valid⟩
    rw [zero j (less.trans_le le), present_zero] at valid
    cases valid

end

/-! ### One word of the tree -/

/-- The words of the tree are the same, except perhaps the word `i` of the table at `x`. -/
def OnlyAt (mem mem' : Mem) (pgdir : Nat) (x : Site) (i : Nat) : Prop :=
  ∀ y u, addr mem pgdir y = some u → ∀ k < 512, y ≠ x ∨ k ≠ i →
    word mem' (u + 8 * k) = word mem (u + 8 * k)

section
variable {mem mem' : Mem} {pgdir t r i j k : Nat} {x y : Site}

theorem addr_pt (upper : pmdAt mem pgdir i = some t) (j : Nat) :
    addr mem pgdir (.pt i j) = entries mem t ptrsPerPmd entryAddr j := by
  rw [addr, upper, Option.bind_some]

section
variable (words : OnlyAt mem mem' pgdir x i)
include words

theorem OnlyAt.same (other : y ≠ x) (found : addr mem pgdir y = some t) : Same mem mem' t :=
  fun k less => words y t found k less (.inl other)

theorem OnlyAt.pmdAt_eq (other : x ≠ .pgd ∨ j ≠ i) : pmdAt mem' pgdir j = pmdAt mem pgdir j := by
  rw [pmdAt, pmdAt]
  refine entries_apply_congr (fun less => ?_) fun _ _ => rfl
  exact words .pgd pgdir rfl j (less.trans (by decide)) (other.imp Ne.symm id)

theorem OnlyAt.addr_pt_eq (other : x ≠ .pgd ∨ j ≠ i)
    (notHere : x ≠ .pmd j ∨ k ≠ i) : addr mem' pgdir (.pt j k) = addr mem pgdir (.pt j k) := by
  rw [addr, addr, words.pmdAt_eq other]
  cases upper : pmdAt mem pgdir j with
  | none => rw [Option.bind_none, Option.bind_none]
  | some u =>
    rw [Option.bind_some, Option.bind_some]
    exact entries_apply_congr (fun less => words (.pmd j) u upper k less (notHere.imp Ne.symm id))
      fun _ _ => rfl

theorem OnlyAt.pmdOf_eq (upper : addr mem pgdir (.pmd j) = some t)
    (notHere : x ≠ .pmd j) (notBelow : ∀ k, x ≠ .pt j k) : pmdOf mem' t = pmdOf mem t := by
  apply (words.same notHere.symm upper).pmdOf_eq
  intro k u entry
  exact words.same (notBelow k).symm ((addr_pt upper k).trans entry)

end

theorem OnlyAt.tree_pgd (words : OnlyAt mem mem' pgdir .pgd i) (less : i < ptrsPerPgd)
    (here : word mem' (pgdir + 8 * i) = tableEntry r) (recovered : entryAddr (tableEntry r) = r)
    (zero : ∀ k < 512, word mem' (r + 8 * k) = 0) :
    tree mem' pgdir = update (tree mem pgdir) i (some UserMemory.blank) := by
  have blank : pmdOf mem' r = UserMemory.blank := entries_zero zero le_rfl _
  rw [tree, entries_update less (by rw [here, present_tableEntry]) (f := fun w => pmdOf mem (entryAddr w)),
    here, recovered, blank]
  · rfl
  · intro j inside other
    exact words .pgd pgdir rfl j (inside.trans (by decide)) (.inr other)
  · intro j u other entry
    rw [(entries_eq_some.mp entry).2.2]
    exact words.pmdOf_eq entry nofun nofun

/-- A change below one word of the first level. -/
theorem OnlyAt.tree_below (words : OnlyAt mem mem' pgdir x k)
    (upper : addr mem pgdir (.pmd i) = some t) (below : x = .pmd i ∨ ∃ j, x = .pt i j) :
    tree mem' pgdir = update (tree mem pgdir) i (some (pmdOf mem' t)) := by
  obtain ⟨less, valid, isT⟩ := entries_eq_some.mp upper
  have same : ∀ j < ptrsPerPgd, word mem' (pgdir + 8 * j) = word mem (pgdir + 8 * j) := by
    intro j inside
    refine words .pgd pgdir rfl j (inside.trans (by decide)) (.inl ?_)
    rcases below with rfl | ⟨j, rfl⟩
    · exact nofun
    · exact nofun
  rw [tree, entries_update less (by rw [same i less, valid]) (f := fun w => pmdOf mem (entryAddr w))
    fun j inside _ => same j inside, same i less, isT]
  · rfl
  · intro j u other entry
    rw [(entries_eq_some.mp entry).2.2]
    apply words.pmdOf_eq entry
    · rcases below with rfl | ⟨l, rfl⟩
      · exact fun e => other (Site.pmd.inj e).symm
      · exact nofun
    · rcases below with rfl | ⟨l, rfl⟩
      · exact nofun
      · exact fun m e => other (Site.pt.inj e).1.symm

theorem OnlyAt.addr_pgd (words : OnlyAt mem mem' pgdir .pgd i) (less : i < ptrsPerPgd)
    (absent : ¬ present (word mem (pgdir + 8 * i)))
    (here : word mem' (pgdir + 8 * i) = tableEntry r) (recovered : entryAddr (tableEntry r) = r)
    (zero : ∀ k < 512, word mem' (r + 8 * k) = 0) (y : Site) :
    addr mem' pgdir y = if y = .pmd i then some r else addr mem pgdir y := by
  have new : pmdAt mem' pgdir i = some r :=
    entries_eq_some.mpr ⟨less, by rw [here, present_tableEntry], by rw [here, recovered]⟩
  have old : pmdAt mem pgdir i = none := entries_eq_none.mpr fun both => absent both.2
  cases y with
  | pgd => rw [if_neg nofun, addr, addr]
  | pmd j =>
    by_cases same : j = i
    · rw [same, if_pos rfl, addr, new]
    · rw [if_neg (fun e => same (Site.pmd.inj e)), addr, addr, words.pmdAt_eq (.inr same)]
  | pt j k =>
    rw [if_neg nofun]
    by_cases same : j = i
    · rw [same, addr_pt new, addr, old, Option.bind_none]
      exact congrFun (entries_zero zero (show ptrsPerPmd ≤ 512 from le_rfl) entryAddr) k
    · exact words.addr_pt_eq (.inr same) (.inl nofun)

theorem OnlyAt.addr_pmd (words : OnlyAt mem mem' pgdir (.pmd i) j)
    (upper : addr mem pgdir (.pmd i) = some t) (less : j < ptrsPerPmd)
    (here : word mem' (t + 8 * j) = tableEntry r) (recovered : entryAddr (tableEntry r) = r)
    (y : Site) : addr mem' pgdir y = if y = .pt i j then some r else addr mem pgdir y := by
  have upper' : pmdAt mem' pgdir i = some t := (words.pmdAt_eq (.inl nofun)).trans upper
  cases y with
  | pgd => rw [if_neg nofun, addr, addr]
  | pmd l => rw [if_neg nofun, addr, addr, words.pmdAt_eq (.inl nofun)]
  | pt l k =>
    by_cases same : Site.pt l k = Site.pt i j
    · cases same
      rw [if_pos rfl, addr_pt upper']
      exact entries_eq_some.mpr ⟨less, by rw [here, present_tableEntry], by rw [here, recovered]⟩
    · rw [if_neg same]
      apply words.addr_pt_eq (.inl nofun)
      by_cases area : l = i
      · exact .inr fun e => same (by rw [area, e])
      · exact .inl fun e => area (Site.pmd.inj e).symm

theorem OnlyAt.addr_pt (words : OnlyAt mem mem' pgdir (.pt i j) k) (y : Site) :
    addr mem' pgdir y = addr mem pgdir y := by
  cases y with
  | pgd => rw [addr, addr]
  | pmd l => rw [addr, addr, words.pmdAt_eq (.inl nofun)]
  | pt l m => exact words.addr_pt_eq (.inl nofun) (.inl nofun)

theorem OnlyAt.tree_pmd (words : OnlyAt mem mem' pgdir (.pmd i) j)
    (upper : addr mem pgdir (.pmd i) = some t) (less : j < ptrsPerPmd)
    (here : word mem' (t + 8 * j) = tableEntry r) (recovered : entryAddr (tableEntry r) = r)
    (zero : ∀ k < 512, word mem' (r + 8 * k) = 0) : tree mem' pgdir = update (tree mem pgdir) i
      (some (update (pmdOf mem t) j (some UserMemory.blank))) := by
  have blank : ptOf mem' r = UserMemory.blank := entries_zero zero le_rfl _
  have lower : pmdOf mem' t = update (pmdOf mem t) j (some UserMemory.blank) := by
    rw [pmdOf, entries_update less (by rw [here, present_tableEntry])
      (f := fun w => ptOf mem (entryAddr w)), here,
      recovered, blank]
    · rfl
    · exact fun k inside other => words (.pmd i) t upper k inside (.inr other)
    · intro k u other entry
      rw [(entries_eq_some.mp entry).2.2]
      have found := (PageTableWords.addr_pt upper k).trans entry
      exact (words.same (y := .pt i k) nofun found).entries_eq le_rfl _
  rw [words.tree_below upper (.inl rfl), lower]

theorem OnlyAt.tree_pt (words : OnlyAt mem mem' pgdir (.pt i j) k)
    (upper : addr mem pgdir (.pmd i) = some t) (lower : addr mem pgdir (.pt i j) = some r)
    (less : k < ptrsPerPte) (valid : present (word mem' (r + 8 * k))) :
    tree mem' pgdir = update (tree mem pgdir) i (some (update (pmdOf mem t) j
      (some (update (ptOf mem r) k (some (pteOf (word mem' (r + 8 * k)))))))) := by
  have table : ptOf mem' r =
      update (ptOf mem r) k (some (pteOf (word mem' (r + 8 * k)))) := by
    refine entries_update less valid (fun l inside other => ?_) fun _ _ _ _ => rfl
    exact words (.pt i j) r lower l inside (.inr other)
  rw [PageTableWords.addr_pt upper] at lower
  obtain ⟨lessJ, validJ, isR⟩ := entries_eq_some.mp lower
  have same : ∀ l < ptrsPerPmd, word mem' (t + 8 * l) = word mem (t + 8 * l) :=
    fun l inside => words (.pmd i) t upper l inside (.inl nofun)
  have middle : pmdOf mem' t = update (pmdOf mem t) j (some (ptOf mem' r)) := by
    rw [pmdOf, entries_update lessJ (by rw [same j lessJ, validJ])
      (f := fun w => ptOf mem (entryAddr w))
      fun l inside _ => same l inside, same j lessJ, isR]
    · rfl
    · intro l u other entry
      rw [(entries_eq_some.mp entry).2.2]
      refine (words.same ?_ ((PageTableWords.addr_pt upper l).trans entry)).entries_eq le_rfl _
      exact fun e => other (Site.pt.inj e).2
  rw [words.tree_below upper (.inr ⟨j, rfl⟩), middle, table]

end

/-! ### Tables from the pool -/

section
variable {image : Image} {s s' : Kpt} {pgdir t u r i j k : Nat} {x y : Site}

theorem slots_apart (ht : InPool image t) (hu : InPool image u) (other : t ≠ u) :
    t + ptSz ≤ u ∨ u + ptSz ≤ t := by
  obtain ⟨m, rfl⟩ := ht.aligned
  obtain ⟨n, rfl⟩ := hu.aligned
  rw [ptSz_eq] at other ⊢
  omega

/-- Storing one word of the tree, after a slot of the free list may have been cleared. -/
theorem UserStyle.onlyAt (style : UserStyle image s pgdir) (found : addr s.mem pgdir x = some t)
    (inside : i < 512) {mem : Mem} {w : BitVec 64}
    (cleared : ∀ u, InPool image u → u ∉ s.freelist → Same s.mem mem u) :
    OnlyAt s.mem (setWord mem (t + 8 * i) w) pgdir x i := by
  intro y u foundY k less other
  obtain ⟨slotT, -⟩ := style.slot x t found
  obtain ⟨slotU, busy⟩ := style.slot y u foundY
  rw [word_setWord_of_apart, cleared u slotU busy k less]
  by_cases same : t = u
  · rw [← same] at foundY ⊢
    have index := other.resolve_left (not_not.mpr (style.once y x t foundY found))
    omega
  · have apart := slots_apart slotT slotU same
    have size := ptSz_eq
    omega

theorem entryAddr_slot (slot : InPool image r) : entryAddr (tableEntry r) = r := by
  obtain ⟨q, small, rfl⟩ := slot.slot
  exact (tableEntry_recovered small).1

/-- A table of the free list has been entered at `c`. -/
theorem UserStyle.add {c : Site} (style : UserStyle image s pgdir)
    (list : s.freelist = r :: s'.freelist) (heap : s'.heap = s.heap)
    (places : ∀ y, addr s'.mem pgdir y = if y = c then some r else addr s.mem pgdir y) :
    UserStyle image s' pgdir := by
  have first : r ∈ s.freelist := list ▸ List.mem_cons_self
  have rest : ∀ t ∈ s'.freelist, t ∈ s.freelist := fun t ht => list ▸ List.mem_cons_of_mem r ht
  have nodup := list ▸ style.nodup
  constructor
  case slot =>
    intro y t found
    rw [places] at found
    split at found
    · cases found
      exact ⟨style.free r first, (List.nodup_cons.mp nodup).1⟩
    · obtain ⟨slot, busy⟩ := style.slot y t found
      exact ⟨slot, fun h => busy (rest t h)⟩
  case once =>
    intro y z t foundY foundZ
    rw [places] at foundY foundZ
    split at foundY
    case isTrue hereY =>
      split at foundZ
      case isTrue hereZ => rw [hereY, hereZ]
      case isFalse =>
        cases foundY
        exact absurd first (style.slot z r foundZ).2
    case isFalse =>
      split at foundZ
      case isTrue =>
        cases foundZ
        exact absurd first (style.slot y r foundY).2
      case isFalse => exact style.once y z t foundY foundZ
  case free => exact fun t ht => style.free t (rest t ht)
  case nodup => exact (List.nodup_cons.mp nodup).2
  case heap => rw [heap]; exact style.heap

theorem descend_present {slot : Nat} {alloc : Bool} (valid : present (word s.mem slot)) :
    descend s slot alloc = .ok (s, some (entryAddr (word s.mem slot))) := by
  rw [descend, if_pos valid]

/-- What taking a table from the free list does to the memory. -/
theorem UserStyle.descend_takes {rest : List Nat} (style : UserStyle image s pgdir)
    (found : addr s.mem pgdir x = some t) (inside : i < 512)
    (absent : ¬ present (word s.mem (t + 8 * i))) (list : s.freelist = r :: rest) :
    ∃ mem, descend s (t + 8 * i) true = .ok (⟨rest, s.heap, mem⟩, some r) ∧
      OnlyAt s.mem mem pgdir x i ∧ word mem (t + 8 * i) = tableEntry r ∧
      ∀ k < 512, word mem (r + 8 * k) = 0 := by
  have size := ptSz_eq
  have first : r ∈ s.freelist := list ▸ List.mem_cons_self
  obtain ⟨slotT, busy⟩ := style.slot x t found
  have other : t ≠ r := by
    rintro rfl
    exact busy first
  have apart := slots_apart slotT (style.free r first) other
  refine ⟨setWord (memset0 (memset0 s.mem r ptSz) r ptSz) (t + 8 * i) (tableEntry r), ?_, ?_, ?_,
    fun k less => ?_⟩
  · rw [descend, if_neg absent, if_pos rfl, kptAlloc, list]
    rfl
  · refine style.onlyAt found inside fun u slotU busyU k less => ?_
    have apartU := slots_apart slotU (style.free r first) (by rintro rfl; exact busyU first)
    rw [word_memset0_of_apart (by omega), word_memset0_of_apart (by omega)]
  · exact word_setWord_self ..
  · rw [word_setWord_of_apart (by omega), word_memset0_inside (by omega)]

end

end PageTableWords
