import PinkyOS.UserMemory

/-!
# The kernel's own page table (`start.c`, `paging_init`)

`start` points the four first-level entries at four second-level tables that lie behind each other,
so a second-level word is named by its two indices. `set_bootpgtbl` stores block descriptors of
2 MiB there; `paging_init` maps the rest of the memory with pages, in tables from `kpt_alloc`.
The map is as loaded, all zero, before `start`.
-/
namespace KernelMap
open MemoryLayout UserMemory Nat

/-! ### Descriptors -/

def entryMask : BitVec 64 := 0x03
def entryBlock : BitVec 64 := 0x00
def entryPage : BitVec 64 := 0x02
def memAttrIdx0 : BitVec 64 := 0 <<< 2
def memAttrIdx4 : BitVec 64 := 4 <<< 2
def nonSecurePa : BitVec 64 := 1 <<< 5
def apRw1 : BitVec 64 := 0 <<< 6
def apRw10 : BitVec 64 := 1 <<< 6
def apRo10 : BitVec 64 := 3 <<< 6
def apMask : BitVec 64 := 3 <<< 6
def shInSh : BitVec 64 := 3 <<< 8
def accessFlag : BitVec 64 := 1 <<< 10
def uxn : BitVec 64 := 0x40000000000000

/-- `~(PMD_SZ - 1)` is an `int`, extended with its sign. -/
def pmdMask : BitVec 64 := ~~~(BitVec.ofNat 64 pmdSz - 1)

def devbase1 : Nat := 0x08000000
def devbase2 : Nat := 0x09000000
def devbase3 : Nat := 0x0a000000
def devMemSz : Nat := 0x01000000

/-- A second-level word: a descriptor that is no table, or a table from `kpt_alloc`. -/
inductive Slot where
  | desc (w : BitVec 64)
  | table (pt : Nat → BitVec 64)

abbrev Pgtbl := Nat → Nat → Slot

def Pgtbl.set (t : Pgtbl) (i j : Nat) (x : Slot) : Pgtbl :=
  fun i' j' => if i' = i ∧ j' = j then x else t i' j'

/-! ### The map at boot -/

def bootDesc (phy : Nat) (dev : Bool) : BitVec 64 :=
  let pde := BitVec.ofNat 64 phy &&& pmdMask
  if dev then
    pde ||| (accessFlag ||| apRw1 ||| memAttrIdx0 ||| entryBlock ||| entryValid)
  else
    pde ||| (accessFlag ||| shInSh ||| apRw1 ||| nonSecurePa ||| memAttrIdx4 ||| entryBlock |||
      entryValid ||| uxn)

/-- The loop of `set_bootpgtbl` over `n` blocks. -/
def bootFrom : Nat → Pgtbl → Nat → Nat → Bool → Pgtbl
  | 0, t, _, _, _ => t
  | n + 1, t, virt, phy, dev =>
    bootFrom n (t.set (pgdIdx virt) (pmdIdx virt) (.desc (bootDesc phy dev))) (virt + pmdSz)
      (phy + pmdSz) dev

def setBootpgtbl (t : Pgtbl) (virt phy len : Nat) (dev : Bool) : Pgtbl :=
  bootFrom ((len + pmdSz - 1) / pmdSz) t virt phy dev

/-- The calls of `start`; the last one maps `DEVBASE3` to the addresses of `DEVBASE2`. -/
def start (t : Pgtbl) : Pgtbl :=
  let t := setBootpgtbl t phyStart phyStart initKernSz false
  let t := setBootpgtbl t (kernBase + phyStart) phyStart initKernSz false
  let t := setBootpgtbl t devbase2 devbase2 devMemSz true
  let t := setBootpgtbl t (kernBase + devbase1) devbase1 devMemSz true
  let t := setBootpgtbl t (kernBase + devbase2) devbase2 devMemSz true
  setBootpgtbl t (kernBase + devbase3) devbase2 devMemSz true

/-! ### `paging_init` -/

/-- `mappages` can panic, or write through a block descriptor that it takes for a table. -/
inductive Fault where
  | panic (msg : String)
  | stray
  deriving DecidableEq

def pageDesc (pa : Nat) (ap : BitVec 64) : BitVec 64 :=
  BitVec.ofNat 64 pa ||| (accessFlag ||| shInSh ||| ap ||| nonSecurePa ||| memAttrIdx4 |||
    entryPage ||| entryValid)

/-- `walkpgdir` with allocation: the third-level table for `va`. -/
def walkpgdir (t : Pgtbl) (va : Nat) : Except Fault (Nat → BitVec 64) :=
  match t (pgdIdx va) (pmdIdx va) with
  | .table pt => .ok pt
  | .desc w => if w &&& (entryTable ||| entryValid) = 0 then .ok fun _ => 0 else .error .stray

/-- The loop of `mappages` over `n` pages. -/
def mapFrom : Nat → Pgtbl → Nat → Nat → BitVec 64 → Except Fault Pgtbl
  | 0, t, _, _, _ => .ok t
  | n + 1, t, a, pa, ap => do
    let pt ← walkpgdir t a
    if pt (pteIdx a) &&& (entryPage ||| entryValid) ≠ 0 then
      .error (.panic "remap")
    else
      let pt := Function.update pt (pteIdx a) (pageDesc pa ap)
      mapFrom n (t.set (pgdIdx a) (pmdIdx a) (.table pt)) (a + pteSz) ((pa + pteSz) % 2 ^ 32) ap

def mappages (t : Pgtbl) (va size pa : Nat) (ap : BitVec 64) : Except Fault Pgtbl :=
  let a := alignDn va pteSz
  let last := alignDn (va + size - 1) pteSz
  mapFrom ((last - a) / pteSz + 1) t a pa ap

def pagingInit (t : Pgtbl) (low hi : Nat) : Except Fault Pgtbl :=
  mappages t (p2v low) ((hi - low) % 2 ^ 32) (low % 2 ^ 32) apRw10

/-- The kernel's table once `kmain` has called `paging_init`. -/
def kernelMap : Except Fault Pgtbl :=
  pagingInit (start fun _ _ => .desc 0) initKernmap physTop

/-! ### Translation -/

/-- The valid leaf descriptor that the walk for `va` ends at. -/
def leaf (t : Pgtbl) (va : Nat) : Option (BitVec 64) :=
  match t (pgdIdx va) (pmdIdx va) with
  | .desc w => if w &&& entryMask = entryBlock ||| entryValid then some w else none
  | .table pt =>
    if pt (pteIdx va) &&& entryMask = entryPage ||| entryValid then some (pt (pteIdx va)) else none

/-- The descriptor lets EL0 in. -/
def El0 (w : BitVec 64) : Prop := w &&& apMask = apRw10 ∨ w &&& apMask = apRo10

instance (w : BitVec 64) : Decidable (El0 w) := inferInstanceAs (Decidable (_ ∨ _))

theorem and_field {x c m : BitVec 64} (clear : x &&& m = 0#64) : (x ||| c) &&& m = c &&& m := by
  have split : (x ||| c) &&& m = (x &&& m) ||| (c &&& m) := by
    ext i
    simp [Bool.and_or_distrib_right]
  rw [split, clear, BitVec.zero_or]

variable {a hi lo n pa : Nat} {base t : Pgtbl}

theorem low_bits (aligned : pteSz ∣ pa) {m : BitVec 64} (small : m.toNat < 2 ^ 12) :
    BitVec.ofNat 64 pa &&& m = 0#64 := by
  obtain ⟨k, rfl⟩ := aligned
  apply BitVec.eq_of_toNat_eq
  rw [BitVec.toNat_and, BitVec.toNat_ofNat]
  apply eq_of_testBit_eq
  intro i
  rw [testBit_and, show pteSz * k = 2 ^ 12 * k from rfl, testBit_mod_two_pow,
    testBit_two_pow_mul]
  by_cases h : i < 12
  · simp [not_le.mpr h]
  · have high : m.toNat.testBit i = false :=
      testBit_lt_two_pow (small.trans_le (Nat.pow_le_pow_right (by decide) (not_lt.mp h)))
    simp [high]

theorem pageDesc_page (aligned : pteSz ∣ pa) :
    pageDesc pa apRw10 &&& entryMask = entryPage ||| entryValid := by
  rw [pageDesc, and_field (low_bits aligned (by decide))]
  decide

theorem pageDesc_el0 (aligned : pteSz ∣ pa) : El0 (pageDesc pa apRw10) := by
  left
  rw [pageDesc, and_field (low_bits aligned (by decide))]
  decide

theorem bootDesc_closed (phy : Nat) (dev : Bool) : ¬ El0 (bootDesc phy dev) := by
  have clear : BitVec.ofNat 64 phy &&& pmdMask &&& apMask = 0#64 := by
    rw [BitVec.and_assoc, show pmdMask &&& apMask = 0#64 by decide, BitVec.and_zero]
  cases dev with
  | false =>
    rw [El0, bootDesc, if_neg (by decide), and_field clear]
    decide
  | true =>
    rw [El0, bootDesc, if_pos rfl, and_field clear]
    decide

/-! ### Page numbers -/

/-- The page number of an address, without the bits that select the table. -/
def vpn (va : Nat) : Nat := va / pteSz % 2 ^ 20

theorem idx_vpn (va : Nat) : pgdIdx va = vpn va / 2 ^ 18 ∧ pmdIdx va = vpn va / 512 % 512 ∧
    pteIdx va = vpn va % 512 := by
  simp only [pgdIdx, pmdIdx, pteIdx, vpn, shiftRight_eq_div_pow, pgdShift, pmdShift, pteSz,
    pteShift, ptrsPerPgd, ptrsPerPmd, ptrsPerPte, reducePow]
  omega

/-- Page `m` is translated through the second-level word `(i, j)`. -/
def Under (m i j : Nat) : Prop := i = m / 2 ^ 18 ∧ j = m / 512 % 512

/-! ### The map at boot -/

/-- Only block descriptors that are closed to EL0, and nothing for the pages from `lo` to `hi`. -/
structure Closed (t : Pgtbl) (lo hi : Nat) : Prop where
  blocks : ∀ i j, ∃ w, t i j = .desc w ∧ ¬ El0 w
  free : ∀ m i j, lo ≤ m → m < hi → Under m i j → t i j = .desc 0

theorem Closed.bootFrom {dev : Bool} (n virt phy : Nat) (closed : Closed t lo hi)
    (apart : ∀ k < n, ∀ m, lo ≤ m → m < hi → ¬ Under m (pgdIdx (virt + pmdSz * k))
      (pmdIdx (virt + pmdSz * k))) :
    Closed (bootFrom n t virt phy dev) lo hi := by
  induction n generalizing t virt phy with
  | zero => exact closed
  | succ n ih =>
    rw [KernelMap.bootFrom]
    refine ih _ _ ⟨fun i j => ?_, fun m i j low high under => ?_⟩ fun k hk => ?_
    · by_cases h : i = pgdIdx virt ∧ j = pmdIdx virt
      · exact ⟨_, by rw [Pgtbl.set, if_pos h], bootDesc_closed phy dev⟩
      · obtain ⟨w, hw, shut⟩ := closed.blocks i j
        exact ⟨w, by rw [Pgtbl.set, if_neg h, hw], shut⟩
    · have other : ¬ (i = pgdIdx virt ∧ j = pmdIdx virt) := by
        rintro ⟨rfl, rfl⟩
        exact apart 0 (succ_pos n) m low high (by simpa using under)
      rw [Pgtbl.set, if_neg other]
      exact closed.free m i j low high under
    · have next := apart (k + 1) (succ_lt_succ hk)
      rwa [mul_succ, Nat.add_comm (pmdSz * k), ← Nat.add_assoc] at next

theorem Closed.setBootpgtbl {virt phy len : Nat} {dev : Bool} (closed : Closed t lo hi)
    (apart : ∀ k < (len + pmdSz - 1) / pmdSz, ∀ m, lo ≤ m → m < hi →
      ¬ Under m (pgdIdx (virt + pmdSz * k)) (pmdIdx (virt + pmdSz * k))) :
    Closed (setBootpgtbl t virt phy len dev) lo hi :=
  closed.bootFrom _ virt phy apart

/-- The first page that `paging_init` maps, and the first one behind. -/
def lowPage : Nat := initKernmap / pteSz
def highPage : Nat := physTop / pteSz

theorem start_closed : Closed (start fun _ _ => .desc 0) lowPage highPage := by
  have blank : Closed (fun _ _ => .desc 0) lowPage highPage :=
    ⟨fun _ _ => ⟨0, rfl, by decide⟩, fun _ _ _ _ _ _ => rfl⟩
  have apart : ∀ virt n, (∀ k < n, vpn (virt + pmdSz * k) / 512 < lowPage / 512) →
      ∀ k < n, ∀ m, lowPage ≤ m → m < highPage →
        ¬ Under m (pgdIdx (virt + pmdSz * k)) (pmdIdx (virt + pmdSz * k)) := by
    intro virt n off k hk m low high ⟨hi, hj⟩
    obtain ⟨h₁, h₂, -⟩ := idx_vpn (virt + pmdSz * k)
    have size : vpn (virt + pmdSz * k) < 2 ^ 20 := mod_lt _ (by decide)
    have below := off k hk
    have lowEq : lowPage = 262656 := rfl
    have highEq : highPage = 294912 := rfl
    omega
  exact (((((blank.setBootpgtbl (apart _ _ (by decide))).setBootpgtbl
    (apart _ _ (by decide))).setBootpgtbl (apart _ _ (by decide))).setBootpgtbl
    (apart _ _ (by decide))).setBootpgtbl (apart _ _ (by decide))).setBootpgtbl
    (apart _ _ (by decide))

/-! ### The pages of `paging_init` -/

/-- The pages from `lo` to `n` are mapped with access from EL0, and everything else is as in
`base`. -/
structure Mapped (base t : Pgtbl) (lo n : Nat) : Prop where
  same : ∀ i j, (∀ m, lo ≤ m → m < n → ¬ Under m i j) → t i j = base i j
  tables : ∀ m i j, lo ≤ m → m < n → Under m i j → ∃ pt, t i j = .table pt ∧
    ∀ l i' j', Under l i' j' → i' = i → j' = j →
      if lo ≤ l ∧ l < n then
        pt (l % 512) &&& entryMask = entryPage ||| entryValid ∧ El0 (pt (l % 512))
      else
        pt (l % 512) = 0

/-- The pages from `lo` to `n` are mapped to the memory with their own numbers, and everything else
is as in `base`. -/
structure Filled (base t : Pgtbl) (lo n : Nat) : Prop where
  same : ∀ i j, (∀ m, lo ≤ m → m < n → ¬ Under m i j) → t i j = base i j
  tables : ∀ m i j, lo ≤ m → m < n → Under m i j → ∃ pt, t i j = .table pt ∧
    ∀ l, Under l i j →
      pt (l % 512) = if lo ≤ l ∧ l < n then pageDesc (l * pteSz) apRw10 else 0

theorem Filled.mapped (filled : Filled base t lo n) : Mapped base t lo n := by
  refine ⟨filled.same, fun m i j low high under => ?_⟩
  obtain ⟨pt, table, entries⟩ := filled.tables m i j low high under
  refine ⟨pt, table, ?_⟩
  rintro l _ _ hl rfl rfl
  have entry := entries l hl
  split_ifs at entry ⊢ with range
  · have aligned : pteSz ∣ l * pteSz := Nat.dvd_mul_left ..
    rw [entry]
    exact ⟨pageDesc_page aligned, pageDesc_el0 aligned⟩
  · exact entry

/-- The third-level table of page `n`, which is about to be mapped. -/
theorem Filled.walk (closed : Closed base lo hi)
    (filled : Filled base t lo n) (low : lo ≤ n) (high : n < hi) (page : vpn a = n) :
    ∃ pt, walkpgdir t a = .ok pt ∧ ∀ l, Under l (pgdIdx a) (pmdIdx a) →
      pt (l % 512) = if lo ≤ l ∧ l < n then pageDesc (l * pteSz) apRw10 else 0 := by
  obtain ⟨hi', hj, -⟩ := idx_vpn a
  rw [page] at hi' hj
  by_cases before : ∃ m, lo ≤ m ∧ m < n ∧ Under m (pgdIdx a) (pmdIdx a)
  · obtain ⟨m, hlo, hn, under⟩ := before
    obtain ⟨pt, table, entries⟩ := filled.tables m _ _ hlo hn under
    exact ⟨pt, by rw [walkpgdir, table], entries⟩
  · have bare : t (pgdIdx a) (pmdIdx a) = .desc 0 := by
      rw [filled.same _ _ fun m hlo hn under => before ⟨m, hlo, hn, under⟩]
      exact closed.free n _ _ low high ⟨hi', hj⟩
    refine ⟨fun _ => 0, by rw [walkpgdir, bare]; rfl, fun l hl => ?_⟩
    rw [if_neg fun h => before ⟨l, h.1, h.2, hl⟩]

theorem Filled.step {pt : Nat → BitVec 64}
    (filled : Filled base t lo n) (low : lo ≤ n) (page : vpn a = n)
    (entries : ∀ l, Under l (pgdIdx a) (pmdIdx a) →
      pt (l % 512) = if lo ≤ l ∧ l < n then pageDesc (l * pteSz) apRw10 else 0) :
    Filled base (t.set (pgdIdx a) (pmdIdx a)
      (.table (Function.update pt (pteIdx a) (pageDesc (n * pteSz) apRw10)))) lo (n + 1) := by
  obtain ⟨hi, hj, hk⟩ := idx_vpn a
  rw [page] at hi hj hk
  constructor
  case same =>
    intro i j none
    have other : ¬ (i = pgdIdx a ∧ j = pmdIdx a) := by
      rintro ⟨rfl, rfl⟩
      exact none n low (lt_succ_self n) ⟨hi, hj⟩
    rw [Pgtbl.set, if_neg other]
    exact filled.same i j fun m hlo hn => none m hlo (hn.trans (lt_succ_self n))
  case tables =>
    intro m i j hlo hn under
    by_cases here : i = pgdIdx a ∧ j = pmdIdx a
    · obtain ⟨rfl, rfl⟩ := here
      refine ⟨_, by rw [Pgtbl.set, if_pos ⟨rfl, rfl⟩], fun l hl => ?_⟩
      by_cases self : l = n
      · subst self
        rw [if_pos ⟨low, lt_succ_self l⟩, hk, Function.update_self]
      · have slot : l % 512 ≠ pteIdx a := by
          intro e
          rw [hk] at e
          obtain ⟨h₁, h₂⟩ := hl
          omega
        have range : lo ≤ l ∧ l < n + 1 ↔ lo ≤ l ∧ l < n := by omega
        simp only [range, Function.update_of_ne slot]
        exact entries l hl
    · have before : m < n := by
        refine Nat.lt_of_le_of_ne (le_of_lt_succ hn) ?_
        rintro rfl
        exact here ⟨under.1.trans hi.symm, under.2.trans hj.symm⟩
      obtain ⟨pt', table, old⟩ := filled.tables m i j hlo before under
      refine ⟨pt', by rw [Pgtbl.set, if_neg here, table], fun l hl => ?_⟩
      have range : lo ≤ l ∧ l < n + 1 ↔ lo ≤ l ∧ l < n := by
        have : l ≠ n := by
          rintro rfl
          exact here ⟨hl.1.trans hi.symm, hl.2.trans hj.symm⟩
        omega
      simp only [range]
      exact old l hl

theorem Filled.mapFrom (closed : Closed base lo hi) (k : Nat)
    (filled : Filled base t lo n) (low : lo ≤ n) (fits : n + k ≤ hi)
    (top : hi < 2 ^ 20) (page : vpn a = n) :
    ∃ t', mapFrom k t a (n * pteSz) apRw10 = .ok t' ∧ Filled base t' lo (n + k) := by
  induction k generalizing t n a with
  | zero => exact ⟨t, rfl, filled⟩
  | succ k ih =>
    obtain ⟨pt, walk, entries⟩ := filled.walk closed low (by omega) page
    obtain ⟨hi', hj, hk⟩ := idx_vpn a
    rw [page] at hi' hj hk
    have free : pt (pteIdx a) = 0 := by
      have := entries n ⟨hi', hj⟩
      rw [if_neg fun h => lt_irrefl n h.2] at this
      rw [hk, this]
    have next := filled.step low page entries
    have page' : vpn (a + pteSz) = n + 1 := by
      simp only [vpn, pteSz_eq] at page ⊢
      omega
    have address : (n * pteSz + pteSz) % 2 ^ 32 = (n + 1) * pteSz := by
      rw [pteSz_eq]
      omega
    obtain ⟨t', run, done⟩ := ih next (le_succ_of_le low) (by omega) page'
    refine ⟨t', ?_, by rwa [Nat.add_assoc, Nat.add_comm 1 k] at done⟩
    rw [KernelMap.mapFrom, walk, BuddyHeap.ok_bind, if_neg (by simp [free]), address]
    exact run

theorem kernelMap_filled :
    ∃ t, kernelMap = .ok t ∧ Filled (start fun _ _ => .desc 0) t lowPage highPage := by
  have none : Filled (start fun _ _ => .desc 0) (start fun _ _ => .desc 0) lowPage lowPage :=
    ⟨fun _ _ _ => rfl, fun m _ _ hlo hn => absurd hlo (not_le.mpr hn)⟩
  obtain ⟨t, run, filled⟩ := none.mapFrom start_closed (a := p2v initKernmap)
    (highPage - lowPage) le_rfl (by decide) (by decide) (by decide)
  exact ⟨t, run, filled⟩

theorem kernelMap_mapped :
    ∃ t, kernelMap = .ok t ∧ Mapped (start fun _ _ => .desc 0) t lowPage highPage := by
  obtain ⟨t, run, filled⟩ := kernelMap_filled
  exact ⟨t, run, filled.mapped⟩

/-- Through the kernel's table EL0 reaches exactly the memory that `paging_init` maps. -/
theorem kernel_closed_iff (va : Nat) :
    ∃ t, kernelMap = .ok t ∧ ((∀ w, leaf t va = some w → ¬ El0 w) ↔
      ¬ (initKernmap ≤ va % 2 ^ 32 ∧ va % 2 ^ 32 < physTop)) := by
  obtain ⟨t, run, mapped⟩ := kernelMap_mapped
  refine ⟨t, run, ?_⟩
  obtain ⟨hi, hj, hk⟩ := idx_vpn va
  have inside : initKernmap ≤ va % 2 ^ 32 ∧ va % 2 ^ 32 < physTop ↔
      lowPage ≤ vpn va ∧ vpn va < highPage := by
    have low : initKernmap = 1075838976 := rfl
    have high : physTop = 1207959552 := rfl
    have lowEq : lowPage = 262656 := rfl
    have highEq : highPage = 294912 := rfl
    have unit : pteSz = 4096 := rfl
    rw [vpn, low, high, lowEq, highEq, unit]
    omega
  rw [inside, leaf]
  by_cases range : lowPage ≤ vpn va ∧ vpn va < highPage
  · obtain ⟨pt, table, entries⟩ := mapped.tables _ _ _ range.1 range.2 ⟨hi, hj⟩
    have entry := entries _ _ _ ⟨hi, hj⟩ rfl rfl
    rw [if_pos range, ← hk] at entry
    simp [table, entry, range]
  · by_cases under : ∃ m, lowPage ≤ m ∧ m < highPage ∧ Under m (pgdIdx va) (pmdIdx va)
    · obtain ⟨m, hlo, hhi, hm⟩ := under
      obtain ⟨pt, table, entries⟩ := mapped.tables m _ _ hlo hhi hm
      have entry := entries _ _ _ ⟨hi, hj⟩ rfl rfl
      rw [if_neg range, ← hk] at entry
      simp [table, entry, range, entryMask, entryPage, entryValid]
    · have same := mapped.same (pgdIdx va) (pmdIdx va) fun m hlo hhi hm => under ⟨m, hlo, hhi, hm⟩
      obtain ⟨w, desc, shut⟩ := start_closed.blocks (pgdIdx va) (pmdIdx va)
      rw [desc] at same
      simp only [same, range, not_false_eq_true, iff_true]
      intro w' h
      split at h
      · cases h
        exact shut
      · cases h

/-- The first byte behind the boot map is open to EL0. -/
theorem kernel_open_at_kernmap :
    ∃ t w, kernelMap = .ok t ∧ leaf t (p2v initKernmap) = some w ∧ El0 w := by
  obtain ⟨t, run, mapped⟩ := kernelMap_mapped
  obtain ⟨hi, hj, hk⟩ := idx_vpn (p2v initKernmap)
  have page : vpn (p2v initKernmap) = lowPage := by decide
  rw [page] at hi hj hk
  obtain ⟨pt, table, entries⟩ := mapped.tables lowPage _ _ le_rfl (by decide) ⟨hi, hj⟩
  obtain ⟨valid, el0⟩ := entries _ _ _ ⟨hi, hj⟩ rfl rfl
  exact ⟨t, pt (lowPage % 512), run, by rw [leaf, table]; simp only [hk, if_pos valid], el0⟩

end KernelMap
