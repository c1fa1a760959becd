import PinkyOS.UserMemory

/-!
# Page tables as partial maps

An entry of a page table is named by its three indices. `lookup` reads the tree as a partial map
from entries to descriptors, and each operation of `vm.c` on the tree is an update of that map.
-/
namespace UserMemory
open MemoryLayout Function

/-- An entry of the last level: its indices in the three levels. -/
abbrev Entry := Nat × Nat × Nat

def entryOf (va : Nat) : Entry := (pgdIdx va, pmdIdx va, pteIdx va)

def tableAt (d : Pgd) (i j : Nat) : Option Pt := (d i).bind fun pmd => pmd j

def lookup (d : Pgd) (x : Entry) : Option Pte := (tableAt d x.1 x.2.1).bind fun pt => pt x.2.2

variable {d d' : Pgd} {va a : Nat} {e : Option Pte}

theorem walkpgdir_eq (d : Pgd) (va : Nat) :
    walkpgdir d va = tableAt d (pgdIdx va) (pmdIdx va) := rfl

theorem getPte_eq (d : Pgd) (va : Nat) : getPte d va = lookup d (entryOf va) := rfl

theorem lookup_blank (x : Entry) : lookup blank x = none := rfl

theorem lookup_eq_none {i j k : Nat} (absent : tableAt d i j = none) :
    lookup d (i, j, k) = none := by
  simp [lookup, absent]

theorem tableAt_addTables (d : Pgd) (va i j : Nat) : tableAt (addTables d va) i j =
      if i = pgdIdx va ∧ j = pmdIdx va then some ((tableAt d i j).getD blank)
      else tableAt d i j := by
  by_cases hi : i = pgdIdx va
  · subst hi
    cases hd : d (pgdIdx va) with
    | none =>
      by_cases hj : j = pmdIdx va
      · simp [tableAt, addTables, hd, hj, blank]
      · simp [tableAt, addTables, hd, hj, blank]
    | some pmd =>
      by_cases hj : j = pmdIdx va
      · simp [tableAt, addTables, hd, hj]
      · simp [tableAt, addTables, hd, hj]
  · simp [tableAt, addTables, hi]

theorem lookup_addTables (d : Pgd) (va : Nat) : lookup (addTables d va) = lookup d := by
  funext x
  rw [lookup, lookup, tableAt_addTables]
  split
  · cases tableAt d x.1 x.2.1 <;> rfl
  · rfl

theorem tableAt_setPte (d : Pgd) (va i j : Nat) (e : Option Pte) : tableAt (setPte d va e) i j =
      if i = pgdIdx va ∧ j = pmdIdx va then
        (tableAt d i j).map fun pt => update pt (pteIdx va) e
      else tableAt d i j := by
  by_cases hi : i = pgdIdx va
  · subst hi
    cases hd : d (pgdIdx va) with
    | none => simp [tableAt, setPte, hd]
    | some pmd =>
      by_cases hj : j = pmdIdx va
      · simp [tableAt, setPte, hd, hj]
      · simp [tableAt, setPte, hd, hj]
  · simp [tableAt, setPte, hi]

theorem isSome_pgd_setPte (d : Pgd) (va i : Nat) (e : Option Pte) :
    (setPte d va e i).isSome = (d i).isSome := by
  rw [setPte]
  by_cases here : i = pgdIdx va
  · rw [here, update_self, Option.isSome_map]
  · rw [update_of_ne here]

theorem isSome_setPte (d : Pgd) (va i j : Nat) (e : Option Pte) :
    (tableAt (setPte d va e) i j).isSome = (tableAt d i j).isSome := by
  rw [tableAt_setPte]
  split
  · rw [Option.isSome_map]
  · rfl

/-- Storing an entry of a table that exists changes that entry only. -/
theorem lookup_setPte (present : (walkpgdir d va).isSome) :
    lookup (setPte d va e) = update (lookup d) (entryOf va) e := by
  obtain ⟨pt, hpt⟩ := Option.isSome_iff_exists.mp present
  rw [walkpgdir_eq] at hpt
  funext ⟨i, j, k⟩
  rw [lookup, tableAt_setPte]
  by_cases here : i = pgdIdx va ∧ j = pmdIdx va
  · obtain ⟨rfl, rfl⟩ := here
    by_cases hk : k = pteIdx va
    · subst hk
      simp [entryOf, hpt]
    · have other : (pgdIdx va, pmdIdx va, k) ≠ entryOf va := by simp [entryOf, hk]
      simp [update_of_ne other, lookup, hpt, hk]
  · have other : (i, j, k) ≠ entryOf va := by
      intro eq
      simp only [entryOf, Prod.mk.injEq] at eq
      exact here ⟨eq.1, eq.2.1⟩
    simp only [if_neg here, update_of_ne other]
    rfl

theorem one_page (aligned : pteSz ∣ a) :
    (alignDn (a + pteSz - 1) pteSz - alignDn a pteSz) / pteSz + 1 = 1 := by
  obtain ⟨n, rfl⟩ := aligned
  simp only [alignDn, pteSz_eq]
  omega

/-- `mappages` over one page whose entry is free: that entry is the only one to change. -/
theorem mappages_page (pa ap : Nat) (aligned : pteSz ∣ a) (free : lookup d (entryOf a) = none) :
    ∃ d', mappages d a pteSz pa ap = .ok d' ∧
      lookup d' = update (lookup d) (entryOf a) (some ⟨pa, ap⟩) ∧
      ∀ i j, (tableAt d' i j).isSome ↔
        (tableAt d i j).isSome ∨ (i = pgdIdx a ∧ j = pmdIdx a) := by
  have first : alignDn a pteSz = a := Nat.div_mul_cancel aligned
  have unmapped : getPte (addTables d a) a = none := by
    rw [getPte_eq, lookup_addTables, free]
  have present : (walkpgdir (addTables d a) a).isSome := by
    rw [walkpgdir_eq, tableAt_addTables, if_pos ⟨rfl, rfl⟩]
    rfl
  refine ⟨setPte (addTables d a) a (some ⟨pa, ap⟩), ?_, ?_, fun i j => ?_⟩
  · rw [mappages, one_page aligned, first]
    simp only [mapFrom, unmapped]
  · rw [lookup_setPte present, lookup_addTables]
  · rw [isSome_setPte, tableAt_addTables]
    split
    · rename_i here
      exact ⟨fun _ => .inr here, fun _ => rfl⟩
    · rename_i there
      exact ⟨.inl, fun h => h.resolve_right there⟩

/-! ### User pages -/

/-- The entry of the user page with number `n`. -/
def page (n : Nat) : Entry := (0, n / 512, n % 512)

theorem page_inj {n m : Nat} (h : page n = page m) : n = m := by
  simp only [page, Prod.mk.injEq, true_and] at h
  omega

theorem idx_user (low : a < uaddrSz) : pgdIdx a = 0 ∧ pmdIdx a = a / pteSz / 512 ∧
    pteIdx a = a / pteSz % 512 := by
  have size := uaddrSz_eq
  have unit := pteSz_eq
  simp only [pgdIdx, pmdIdx, pteIdx, Nat.shiftRight_eq_div_pow, pgdShift, pmdShift, pteShift,
    ptrsPerPgd, ptrsPerPmd, ptrsPerPte, unit, Nat.reducePow]
  exact ⟨by omega, by omega, trivial⟩

theorem entryOf_user (low : a < uaddrSz) : entryOf a = page (a / pteSz) := by
  obtain ⟨h₁, h₂, h₃⟩ := idx_user low
  simp [entryOf, page, h₁, h₂, h₃]

/-- The shape of a user address space of size `sz`: entries only for the pages below `sz`, tables
for all of them, and no gap in the tables. -/
structure Space (d : Pgd) (sz : Nat) : Prop where
  mapped : ∀ x, lookup d x ≠ none → ∃ n, x = page n ∧ n * pteSz < sz
  covered : ∀ n, n * pteSz < sz → (tableAt d 0 (n / 512)).isSome
  front : ∃ m, ∀ j, (tableAt d 0 j).isSome ↔ j < m

theorem Space.blank : Space UserMemory.blank 0 :=
  ⟨fun _ h => absurd rfl h, fun _ h => absurd h (Nat.not_lt_zero _), 0,
    fun _ => by simp [tableAt, UserMemory.blank]⟩

theorem page_lt_alignUp (n sz : Nat) : n * pteSz < alignUp sz pteSz ↔ n * pteSz < sz := by
  simp only [alignUp, pteSz_eq]
  omega

/-- The page after an aligned address is reached by a size beyond that address. -/
theorem next_le_alignUp {sz : Nat} (aligned : pteSz ∣ a) (more : a < sz) :
    a + pteSz ≤ alignUp sz pteSz := by
  have far : ¬ alignUp sz pteSz ≤ a := by
    rw [alignUp_le_iff (by decide) aligned]
    exact Nat.not_le.mpr more
  obtain ⟨k, rfl⟩ := aligned
  obtain ⟨m, hm⟩ := alignUp_dvd sz pteSz
  rw [hm] at far ⊢
  rw [← Nat.mul_succ]
  exact Nat.mul_le_mul_left _ (Nat.lt_of_mul_lt_mul_left (Nat.lt_of_not_le far))

theorem Space.alignUp {sz : Nat} : Space d (alignUp sz pteSz) ↔ Space d sz := by
  constructor
  · intro ⟨mapped, covered, front⟩
    refine ⟨fun x hx => ?_, fun n h => covered n ((page_lt_alignUp n sz).mpr h), front⟩
    obtain ⟨n, e, lt⟩ := mapped x hx
    exact ⟨n, e, (page_lt_alignUp n sz).mp lt⟩
  · intro ⟨mapped, covered, front⟩
    refine ⟨fun x hx => ?_, fun n h => covered n ((page_lt_alignUp n sz).mp h), front⟩
    obtain ⟨n, e, lt⟩ := mapped x hx
    exact ⟨n, e, (page_lt_alignUp n sz).mpr lt⟩

/-- Entries may be cleared or changed as long as the tables stay. -/
theorem Space.entries {sz : Nat} (space : Space d sz)
    (tables : ∀ i j, (tableAt d' i j).isSome = (tableAt d i j).isSome)
    (fewer : ∀ x, lookup d' x ≠ none → lookup d x ≠ none) : Space d' sz where
  mapped x hx := space.mapped x (fewer x hx)
  covered n hn := (tables _ _).trans (space.covered n hn)
  front := by simpa only [tables] using space.front

theorem Space.cut {sz newsz : Nat} (space : Space d sz) (le : newsz ≤ sz)
    (gone : ∀ n, newsz ≤ n * pteSz → lookup d (page n) = none) : Space d newsz where
  mapped x hx := by
    obtain ⟨n, rfl, -⟩ := space.mapped x hx
    exact ⟨n, rfl, Nat.lt_of_not_le fun h => hx (gone n h)⟩
  covered n hn := space.covered n (hn.trans_le le)
  front := space.front

/-- The next page of an address space. Its entry is free, and its table is one of those in front
or the next one. -/
theorem Space.grow (space : Space d a) (aligned : pteSz ∣ a) (low : a < uaddrSz) (pa ap : Nat) :
    lookup d (entryOf a) = none ∧ ∃ d', mappages d a pteSz pa ap = .ok d' ∧
      lookup d' = update (lookup d) (entryOf a) (some ⟨pa, ap⟩) ∧
      Space d' (a + pteSz) := by
  obtain ⟨hg, hm, -⟩ := idx_user low
  have free : lookup d (entryOf a) = none := by
    by_contra mapped
    obtain ⟨n, e, lt⟩ := space.mapped _ mapped
    rw [entryOf_user low] at e
    rw [← page_inj e, Nat.div_mul_cancel aligned] at lt
    exact lt_irrefl a lt
  obtain ⟨d', run, entries, tables⟩ := mappages_page pa ap aligned free
  refine ⟨free, d', run, entries, ?_⟩
  obtain ⟨k, rfl⟩ := aligned
  have number : pteSz * k / pteSz = k := Nat.mul_div_cancel_left k (by decide)
  rw [entryOf_user low, number] at entries
  simp only [hg, hm, number] at tables
  constructor
  case mapped =>
    intro x hx
    by_cases e : x = page k
    · exact ⟨k, e, by rw [pteSz_eq]; omega⟩
    · rw [entries, update_of_ne e] at hx
      obtain ⟨n, e, lt⟩ := space.mapped x hx
      exact ⟨n, e, lt.trans_le (Nat.le_add_right _ _)⟩
  case covered =>
    intro n hn
    rw [tables]
    by_cases e : n = k
    · exact .inr ⟨rfl, by rw [e]⟩
    · exact .inl (space.covered n (by rw [pteSz_eq] at hn ⊢; omega))
  case front =>
    obtain ⟨m, front⟩ := space.front
    have reach : k / 512 ≤ m := by
      by_contra gap
      have last := space.covered (512 * m) (by rw [pteSz_eq]; omega)
      rw [Nat.mul_div_cancel_left m (by decide), front] at last
      exact lt_irrefl _ last
    refine ⟨max m (k / 512 + 1), fun j => ?_⟩
    rw [tables, front]
    omega

end UserMemory
