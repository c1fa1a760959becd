import Mathlib

/-!
# The page tables of `pagenav.c`

`pgtbl_walk` and `pgtbl_map_pages` for 4 KiB pages, as written: the walk reads the level index
after it has incremented the level, takes the descriptor it reads for a pointer, and compares
before it masks. Memory is a function of byte addresses; pages come from any allocator.
-/
namespace PageNavigation

abbrev Word := BitVec 64

abbrev Memory := Word → BitVec 8

def load (m : Memory) (a : Word) : Word :=
  m (a + 7) ++ m (a + 6) ++ m (a + 5) ++ m (a + 4) ++ m (a + 3) ++ m (a + 2) ++ m (a + 1) ++ m a

def store (m : Memory) (a w : Word) : Memory := fun b =>
  if (b - a).toNat < 8 then w.extractLsb' (8 * (b - a).toNat) 8 else m b

def pageSize : Nat := 4096

/-- `memset(page, 0, PAGE_SIZE)` -/
def clear (m : Memory) (page : Word) : Memory := fun b =>
  if (b - page).toNat < pageSize then 0 else m b

/-- One element of each of the arrays `PT_LEVEL_*`. -/
structure Level where
  shift : Nat
  ptrs : Nat
  mask : Nat

/-- `init_pgtbl_constants` with `_PT_N_MAX` 3 and `_PT_PS` 12; the second loop starts at 3. -/
def initPgtblConstants (old : Nat → Level) : Nat → Level :=
  let up := [3, 2, 1, 0].foldl (fun t i =>
    Function.update t i ⟨12 + i * 9, 1 <<< 9, ((1 <<< 9) - 1) <<< (12 + i * 9)⟩) old
  [3, 4].foldl (fun t i => Function.update t i ⟨0, 0, 0⟩) up

def level : Nat → Level := initPgtblConstants fun _ => ⟨0, 0, 0⟩

def pgtblLevelIdx (va lvl : Nat) : Nat := (va &&& (level lvl).mask) >>> (level lvl).shift

/-- `page_alloc`, `kern_v2p` and `kern_p2v`. -/
structure Kern where
  page : Nat → Word
  v2p : Word → Word
  p2v : Word → Word

structure State where
  mem : Memory
  allocated : Nat

/-- The loop of `pgtbl_walk` from level `i` on; the arrays have five elements. -/
def walkFrom (kern : Kern) (alloc : Bool) (va : Nat) :
    Nat → Nat → Word → State → Option Word × State
  | 0, _, next, s => (some next, s)
  | left + 1, i, next, s =>
    let mask := (level i).mask
    if mask = 0 then (some next, s)
    else
      let next := load s.mem (next + BitVec.ofNat 64 (8 * pgtblLevelIdx va (i + 1)))
      -- `==` binds tighter than `&`
      if load s.mem next &&& (if (3 : Nat) = 1 then 1 else 0) ≠ 0 then (none, s)
      else if load s.mem next &&& 1 = 0 then
        if alloc then
          let page := kern.page s.allocated
          walkFrom kern alloc va left (i + 1) page
            ⟨store (clear s.mem page) next (kern.v2p page ||| 3), s.allocated + 1⟩
        else (none, s)
      else
        walkFrom kern alloc va left (i + 1)
          (kern.p2v (load s.mem next &&& BitVec.ofNat 64 mask)) s

def pgtblWalk (kern : Kern) (base : Word) (va : Nat) (alloc : Bool) (s : State) :
    Option Word × State :=
  walkFrom kern alloc va 5 0 base s

/-- The descriptor of a page. -/
def descriptor (ppage attrs mode : Word) : Word := ppage ||| attrs ||| 3 ||| (mode &&& 7) <<< 2

theorem loop_decreases {vpage stop : Nat} (more : vpage + pageSize < stop) :
    stop - (vpage + pageSize) < stop - vpage := by
  unfold pageSize at *
  omega

/-- One page: `false` where the source returns -1. -/
def mapPage (kern : Kern) (base : Word) (vpage : Nat) (desc : Word) (s : State) : Bool × State :=
  match pgtblWalk kern base vpage true s with
  | (none, s) => (false, s)
  | (some e, s) =>
    if load s.mem e &&& 1 ≠ 0 then (false, s) else (true, { s with mem := store s.mem e desc })

/-- The loop of `pgtbl_map_pages`, whose test leaves the last page out. -/
def mapLoop (kern : Kern) (base : Word) (vpage stop : Nat) (ppage attrs mode : Word)
    (s : State) : Int × State :=
  if more : vpage + pageSize < stop then
    let r := mapPage kern base vpage (descriptor ppage attrs mode) s
    if r.1 then
      mapLoop kern base (vpage + pageSize) stop (ppage + BitVec.ofNat 64 pageSize) attrs mode r.2
    else (-1, r.2)
  else (0, s)
termination_by stop - vpage
decreasing_by exact loop_decreases more

def memattrMaxIdx : Int := 4

/-- `pgtbl_map_pages`; `none` when an assertion fails. -/
def pgtblMapPages (kern : Kern) (base : Word) (start stop : Nat) (phys attrs : Word)
    (mode : BitVec 32) (s : State) : Option (Int × State) :=
  if 0 ≤ mode.toInt ∧ mode.toInt < memattrMaxIdx ∧ pageSize ∣ start ∧ pageSize ∣ stop ∧
      pageSize ∣ phys.toNat then
    some (mapLoop kern base start stop phys attrs (mode.setWidth 64) s)
  else none

section
variable (kern : Kern) (base : Word)

/-- The entry that the walk finds for an address, without allocating. -/
def entry (s : State) (va : Nat) : Option Word := (pgtblWalk kern base va false s).1

/-- The descriptor of a mapped page. -/
def mapping (s : State) (va : Nat) : Option Word :=
  (entry kern base s va).bind fun e =>
    if load s.mem e &&& 1 = 0 then none else some (load s.mem e)

/-- Every page of the range is mapped to its frame by an entry of its own, and the mappings of
the other pages are as they were. -/
structure Exact (start stop : Nat) (phys attrs mode : Word) (s t : State) : Prop where
  maps : ∀ va, pageSize ∣ va → start ≤ va → va < stop → mapping kern base t va =
    some (descriptor (phys + BitVec.ofNat 64 (va - start)) attrs mode)
  distinct : ∀ va va', pageSize ∣ va → pageSize ∣ va' → start ≤ va → va < va' → va' < stop →
    entry kern base t va ≠ entry kern base t va'
  frame : ∀ va, pageSize ∣ va → va < 2 ^ 64 → (va < start ∨ stop ≤ va) →
    mapping kern base t va = mapping kern base s va

variable {kern base}

theorem level_eq : (level 1).shift = 21 ∧ (level 1).mask = 511 <<< 21 ∧ (level 2).shift = 30 ∧
    (level 2).mask = 511 <<< 30 ∧ (level 3).mask = 0 := by
  decide

/-- The index at levels 1 to 3 does not depend on the low 21 bits of the address. -/
theorem pgtblLevelIdx_congr {va va' lvl : Nat} (same : va / 2 ^ 21 = va' / 2 ^ 21)
    (lo : 1 ≤ lvl) (hi : lvl ≤ 3) : pgtblLevelIdx va lvl = pgtblLevelIdx va' lvl := by
  obtain ⟨s₁, m₁, s₂, m₂, m₃⟩ := level_eq
  have high : va >>> 21 = va' >>> 21 := by
    rw [Nat.shiftRight_eq_div_pow, Nat.shiftRight_eq_div_pow, same]
  have higher : va >>> 30 = va' >>> 30 := by
    rw [show 30 = 21 + 9 from rfl, Nat.shiftRight_add, Nat.shiftRight_add, high]
  obtain rfl | rfl | rfl : lvl = 1 ∨ lvl = 2 ∨ lvl = 3 := by omega
  · rw [pgtblLevelIdx, pgtblLevelIdx, s₁, m₁, Nat.shiftRight_and_distrib,
      Nat.shiftRight_and_distrib, high]
  · rw [pgtblLevelIdx, pgtblLevelIdx, s₂, m₂, Nat.shiftRight_and_distrib,
      Nat.shiftRight_and_distrib, higher]
  · rw [pgtblLevelIdx, pgtblLevelIdx, m₃, Nat.and_zero, Nat.and_zero]

theorem walkFrom_congr {va va' : Nat} (same : va / 2 ^ 21 = va' / 2 ^ 21) (alloc : Bool)
    (left i : Nat) (next : Word) (s : State) :
    walkFrom kern alloc va left i next s = walkFrom kern alloc va' left i next s := by
  induction left generalizing i next s with
  | zero => rfl
  | succ left ih =>
    by_cases last : (level i).mask = 0
    · simp only [walkFrom, last, if_true]
    · have small : i < 3 := by
        by_contra h
        apply last
        simp only [level, initPgtblConstants, List.foldl_cons, List.foldl_nil]
        grind [Function.update_apply]
      simp only [walkFrom, pgtblLevelIdx_congr same (show 1 ≤ i + 1 by omega) (by omega), ih]

theorem entry_congr {va va' : Nat} (same : va / 2 ^ 21 = va' / 2 ^ 21) (s : State) :
    entry kern base s va = entry kern base s va' :=
  congrArg Prod.fst (walkFrom_congr same false 5 0 base s)

theorem mapping_congr {va va' : Nat} (same : va / 2 ^ 21 = va' / 2 ^ 21) (s : State) :
    mapping kern base s va = mapping kern base s va' := by
  rw [mapping, mapping, entry_congr same]

variable {start stop : Nat} {phys attrs mode : Word} {s t : State}

/-- A single page is not mapped at all. -/
theorem mapLoop_one (start : Nat) (one : stop = start + pageSize) :
    mapLoop kern base start stop phys attrs mode s = (0, s) := by
  rw [mapLoop, dif_neg (by omega)]

/-- Pages of the same 2 MiB share their entry, and two of them, or one and its neighbour outside
the range, are among the pages mapped. -/
theorem Exact.false_of_two (exact' : Exact kern base start stop phys attrs mode s t)
    (alignedStart : pageSize ∣ start) (alignedStop : pageSize ∣ stop)
    (two : start + 2 * pageSize ≤ stop) (bound : stop < 2 ^ 64)
    (unmapped : mapping kern base s start = none) : False := by
  have size : pageSize = 4096 := rfl
  obtain ⟨i, rfl⟩ := alignedStart
  obtain ⟨j, rfl⟩ := alignedStop
  rw [size] at *
  have shared : ∀ n, i ≤ n → n + 1 < j → 4096 * n / 2 ^ 21 ≠ 4096 * (n + 1) / 2 ^ 21 :=
    fun n low high same => exact'.distinct (4096 * n) (4096 * (n + 1)) ⟨n, rfl⟩ ⟨n + 1, rfl⟩
      (by omega) (by omega) (by omega) (entry_congr same t)
  have last := shared (j - 2) (by omega) (by omega)
  by_cases three : i + 3 ≤ j
  · have := shared (j - 3) (by omega) (by omega)
    omega
  · -- two pages, the second at the start of 2 MiB: the page before the range has the same entry
    have same : 4096 * (i - 1) / 2 ^ 21 = 4096 * i / 2 ^ 21 := by omega
    have outside := exact'.frame (4096 * (i - 1)) ⟨i - 1, rfl⟩ (by omega) (.inl (by omega))
    rw [mapping_congr same, mapping_congr same, unmapped,
      exact'.maps (4096 * i) ⟨i, rfl⟩ le_rfl (by omega)] at outside
    cases outside

end

/-- `pgtbl_map_pages` never maps exactly the range when it returns 0. -/
theorem map_pages_exact_iff (kern : Kern) (base : Word) (start stop : Nat) (phys attrs : Word)
    (mode : BitVec 32) (s : State) (alignedStart : pageSize ∣ start)
    (alignedStop : pageSize ∣ stop) (nonempty : start < stop) (bound : stop < 2 ^ 64)
    (unmapped : ∀ va, pageSize ∣ va → start ≤ va → va < stop → mapping kern base s va = none) :
    (∀ t, pgtblMapPages kern base start stop phys attrs mode s = some (0, t) →
        Exact kern base start stop phys attrs (mode.setWidth 64) s t) ↔
      ∀ t, pgtblMapPages kern base start stop phys attrs mode s ≠ some (0, t) := by
  refine ⟨fun property t ran => ?_, fun fails t ran => absurd ran (fails t)⟩
  have exact' := property t ran
  have free := unmapped start alignedStart le_rfl nonempty
  by_cases one : stop = start + pageSize
  · rw [pgtblMapPages] at ran
    split at ran
    · rw [mapLoop_one start one] at ran
      cases ran
      rw [exact'.maps start alignedStart le_rfl nonempty] at free
      cases free
    · cases ran
  · refine exact'.false_of_two alignedStart alignedStop ?_ bound free
    obtain ⟨i, rfl⟩ := alignedStart
    obtain ⟨j, rfl⟩ := alignedStop
    simp only [pageSize] at nonempty one ⊢
    omega

def zeros : State := ⟨fun _ => 0, 0⟩

def plain : Kern := ⟨fun n => BitVec.ofNat 64 (pageSize * (n + 1)), id, id⟩

theorem zeros_unmapped (va : Nat) : mapping plain 0 zeros va = none := by
  have zero : ∀ a, load zeros.mem a = 0 := fun a => by simp [load, zeros]
  have walk : entry plain 0 zeros va = none := by
    have first : (level 0).mask ≠ 0 := by decide
    simp [entry, pgtblWalk, walkFrom, first, zero]
  rw [mapping, walk]
  rfl

theorem zeros_ran : pgtblMapPages plain 0 0 4096 0 0 0 zeros = some (0, zeros) := by
  rw [pgtblMapPages, if_pos (by decide)]
  exact congrArg some (mapLoop_one 0 rfl)

/-- Mapping one page of an empty table returns 0 and leaves the page unmapped. -/
theorem one_page_unmapped : pgtblMapPages plain 0 0 4096 0 0 0 zeros = some (0, zeros) ∧
    mapping plain 0 zeros 0 = none :=
  ⟨zeros_ran, zeros_unmapped 0⟩

theorem one_page_not_exact : ¬ ∀ t, pgtblMapPages plain 0 0 4096 0 0 0 zeros = some (0, t) →
    Exact plain 0 0 4096 0 0 0 zeros t := fun property =>
  (map_pages_exact_iff plain 0 0 4096 0 0 0 zeros (by decide) (by decide) (by decide)
    (by decide) fun va _ _ _ => zeros_unmapped va).mp property zeros zeros_ran

end PageNavigation
