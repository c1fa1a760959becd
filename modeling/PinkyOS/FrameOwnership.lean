import PinkyOS.Ledger
import PinkyOS.PageTree

/-!
# Who owns the page frames

Every frame that `alloc_page` returned and `free_page` has not got back has one owner: the kernel
stack of a process or one entry of one page table. The functions of `vm.c` are specified for one
tree at a time, whose entries are some of the owners in a balanced ledger; all other owners are
left alone.
-/
namespace UserMemory
open MemoryLayout BuddyHeap Ledger Function

/-- A call ends with a result that satisfies `post`, or in a fault other than a bad free. -/
inductive Ends {α : Type} (post : α → Prop) : Except Fault α → Prop
  | ok {a : α} (h : post a) : Ends post (.ok a)
  | fault {e : Fault} (h : e ≠ .badFree) : Ends post (.error e)

section Ends
variable {α β : Type} {post post' : α → Prop} {goal : β → Prop} {m : Except Fault α}
  {f : α → Except Fault β} {a : α}

theorem Ends.of_ok (h : Ends post m) (run : m = .ok a) : post a := by
  subst run
  cases h with
  | ok h => exact h

theorem Ends.of_error {e : Fault} (h : Ends post m) (run : m = .error e) : e ≠ .badFree := by
  subst run
  cases h with
  | fault h => exact h

theorem Ends.mono (h : Ends post m) (imp : ∀ a, post a → post' a) : Ends post' m := by
  cases h with
  | ok h => exact .ok (imp _ h)
  | fault h => exact .fault h

theorem Ends.bind (h : Ends post m) (next : ∀ a, post a → Ends goal (f a)) :
    Ends goal (m >>= f) := by
  cases h with
  | ok h => exact next _ h
  | fault h => exact .fault h

theorem Ends.then (run : m = .ok a) (h : Ends goal (f a)) : Ends goal (m >>= f) := by
  subst run
  exact h

end Ends

/-! ### The allocator -/

/-- The live blocks of the heap are the page frames and the blocks `rest` of others. -/
structure Sound (rest : Finset (Nat × Nat)) (v : Vm) : Prop where
  heap : BuddyHeap.Reachable bootRegion v.heap v.live
  live : ∀ e, e ∈ v.live ↔ e ∈ rest ∨ e.2 = pteShift ∧ e.1 ∈ v.pages
  apart : ∀ p ∈ v.pages, (p, pteShift) ∉ rest

variable {rest : Finset (Nat × Nat)} {v : Vm} {p : Nat}

theorem isOrder_pteShift : IsOrder pteShift := by decide

section
variable (sound : Sound rest v)
include sound

theorem Sound.page (used : p ∈ v.pages) : (p, pteShift) ∈ v.live :=
  (sound.live _).mpr (.inr ⟨rfl, used⟩)

/-- The frames have physical addresses of 32 bits, none of them zero. -/
theorem Sound.bounds (used : p ∈ v.pages) : kernBase < p ∧ p < kernBase + 2 ^ 32 := by
  obtain ⟨above, below⟩ := sound.heap.inside (sound.page used)
  have start := bootRegion.start_le_startHeap
  have low : kernBase < bootRegion.start := by decide
  have high : bootRegion.startHeap + bootRegion.heapLen < kernBase + 2 ^ 32 := by decide
  simp only at above below
  omega

theorem Sound.pa_ne_zero {e : Pte} (used : p2v e.pa ∈ v.pages) : e.pa ≠ 0 := by
  obtain ⟨above, -⟩ := sound.bounds used
  intro zero
  simp [zero, p2v] at above

theorem allocPage_ends : Ends (fun r => Sound rest r.1 ∧ match r.2 with
      | none => r.1.pages = v.pages
      | some p => p ∉ v.pages ∧ r.1.pages = insert p v.pages ∧ p2v (v2p p % 2 ^ 32) = p)
      (allocPage v) := by
  obtain ⟨⟨heap, r⟩, run⟩ := sound.heap.kmalloc_ok isOrder_pteShift
  rw [allocPage, run]
  cases r with
  | none =>
    exact .ok ⟨⟨.exhausted sound.heap isOrder_pteShift run, sound.live, sound.apart⟩, rfl⟩
  | some p =>
    have fresh := sound.heap.fresh isOrder_pteShift run
    have after : Sound rest { v with
        heap := heap
        live := insert (p, pteShift) v.live
        pages := insert p v.pages } := by
      refine ⟨.malloc sound.heap isOrder_pteShift run, fun e => ?_, fun q hq => ?_⟩
      · simp only [Finset.mem_insert, sound.live, Prod.ext_iff]
        tauto
      · rcases Finset.mem_insert.mp hq with rfl | hq
        · exact fun h => fresh ((sound.live _).mpr (.inl h))
        · exact sound.apart q hq
    obtain ⟨above, below⟩ := after.bounds (Finset.mem_insert_self ..)
    refine .ok ⟨after, fun h => fresh (sound.page h), rfl, ?_⟩
    rw [p2v, v2p, Nat.mod_eq_of_lt (by omega)]
    omega

theorem freePage_ok (used : p ∈ v.pages) :
    ∃ v', freePage v p = .ok v' ∧ Sound rest v' ∧ v'.pages = v.pages.erase p := by
  obtain ⟨heap, run⟩ := sound.heap.kfree_ok (sound.page used)
  refine ⟨_, by rw [freePage, if_pos used, run],
    ⟨.free sound.heap (sound.page used) run, fun e => ?_, fun q hq => ?_⟩, rfl⟩
  · have apart := sound.apart p used
    simp only [Finset.mem_erase, sound.live, Prod.ext_iff, ne_eq]
    constructor
    · tauto
    · rintro (h | h)
      · refine ⟨fun eq => apart ?_, .inl h⟩
        rwa [← eq.1, ← eq.2]
      · tauto
  · exact sound.apart q (Finset.mem_erase.mp hq).2

end

/-! ### One tree in the ledger -/

def frameAt (d : Pgd) (x : Entry) : Option Nat := (lookup d x).map fun e => p2v e.pa

variable {Ω : Type} {site : Entry → Ω} {own own' : Ω → Option Nat} {d d' : Pgd} {a sz : Nat}

/-- The entries of the tree `d` are the owners `site x` of a balanced ledger. -/
structure Keeps (rest : Finset (Nat × Nat)) (site : Entry → Ω) (own : Ω → Option Nat) (v : Vm)
    (d : Pgd) : Prop where
  sound : Sound rest v
  balanced : Balanced own v.pages
  view : ∀ x, own (site x) = frameAt d x

/-- The owners that are not entries of the tree have what they had. -/
def Beside (site : Entry → Ω) (own own' : Ω → Option Nat) : Prop :=
  ∀ o, (∀ x, site x ≠ o) → own' o = own o

/-- The tree is kept in some ledger that agrees with `own` beside it. -/
def KeepsBeside (rest : Finset (Nat × Nat)) (site : Entry → Ω) (own : Ω → Option Nat) (v : Vm)
    (d : Pgd) : Prop :=
  ∃ own', Keeps rest site own' v d ∧ Beside site own own'

theorem Keeps.beside (keeps : Keeps rest site own v d) : KeepsBeside rest site own v d :=
  ⟨own, keeps, fun _ _ => rfl⟩

theorem KeepsBeside.after (h : KeepsBeside rest site own' v d) (beside : Beside site own own') :
    KeepsBeside rest site own v d := by
  obtain ⟨own'', keeps, beside'⟩ := h
  exact ⟨own'', keeps, fun o ho => (beside' o ho).trans (beside o ho)⟩

theorem Keeps.write (keeps : Keeps rest site own v d) (a : Nat) (bs : List UInt8) :
    Keeps rest site own (v.write a bs) d :=
  ⟨⟨keeps.sound.heap, keeps.sound.live, keeps.sound.apart⟩, keeps.balanced, keeps.view⟩

theorem Keeps.congr (keeps : Keeps rest site own v d) (same : ∀ x, frameAt d' x = frameAt d x) :
    Keeps rest site own v d' :=
  ⟨keeps.sound, keeps.balanced, fun x => (keeps.view x).trans (same x).symm⟩

variable [DecidableEq Ω]

theorem Beside.update (x : Entry) (f : Option Nat) : Beside site own (update own (site x) f) :=
  fun _ ho => update_of_ne (ho x).symm f own

theorem view_update (view : ∀ x, own (site x) = frameAt d x) (inj : Injective site)
    {x : Entry} {e : Option Pte} (entries : lookup d' = update (lookup d) x e) (y : Entry) :
    update own (site x) (e.map fun e => p2v e.pa) (site y) = frameAt d' y := by
  rw [frameAt, entries]
  by_cases h : y = x
  · subst h
    simp
  · rw [update_of_ne (fun e => h (inj e)), update_of_ne h, view y]
    rfl

theorem Keeps.map {v' : Vm} {ap : Nat} {x : Entry} (keeps : Keeps rest site own v d)
    (inj : Injective site) (sound : Sound rest v') (fresh : p ∉ v.pages)
    (pages : v'.pages = insert p v.pages) (addr : p2v (v2p p % 2 ^ 32) = p)
    (free : lookup d x = none)
    (entries : lookup d' = update (lookup d) x (some ⟨v2p p % 2 ^ 32, ap⟩)) :
    Keeps rest site (update own (site x) (some p)) v' d' := by
  refine ⟨sound, ?_, fun y => ?_⟩
  · rw [pages]
    refine keeps.balanced.take ?_ fresh
    rw [keeps.view, frameAt, free]
    rfl
  · have seen := view_update keeps.view inj entries y
    rw [Option.map_some, addr] at seen
    exact seen

theorem Keeps.unmap {e : Pte} (keeps : Keeps rest site own v d)
    (inj : Injective site) (present : (walkpgdir d a).isSome)
    (entry : lookup d (entryOf a) = some e) : ∃ v', freePage v (p2v e.pa) = .ok v' ∧
      Keeps rest site (update own (site (entryOf a)) none) v' (setPte d a none) := by
  have owned : own (site (entryOf a)) = some (p2v e.pa) := by
    rw [keeps.view, frameAt, entry]
    rfl
  obtain ⟨v', run, sound, pages⟩ := freePage_ok keeps.sound (keeps.balanced.live _ _ owned)
  refine ⟨v', run, sound, ?_, fun y => ?_⟩
  · rw [pages]
    exact keeps.balanced.give owned
  · exact view_update keeps.view inj (e := none) (lookup_setPte present) y

/-! ### Shrinking -/

/-- The entries of the pages in `gap` are cleared; the tables stay. -/
structure Cleared (d d' : Pgd) (gap : Set Nat) : Prop where
  tables : ∀ i j, (tableAt d' i j).isSome = (tableAt d i j).isSome
  gone : ∀ n ∈ gap, lookup d' (page n) = none
  kept : ∀ x, (∀ n ∈ gap, x ≠ page n) → lookup d' x = lookup d x

theorem Cleared.none_of {gap : Set Nat} (empty : ∀ n ∈ gap, lookup d (page n) = none) :
    Cleared d d gap :=
  ⟨fun _ _ => rfl, empty, fun _ _ => rfl⟩

theorem Cleared.trans {d₁ : Pgd} {gap gap' all : Set Nat} (first : Cleared d d₁ gap)
    (second : Cleared d₁ d' gap') (union : ∀ n, n ∈ all ↔ n ∈ gap ∨ n ∈ gap') :
    Cleared d d' all := by
  refine ⟨fun i j => (second.tables i j).trans (first.tables i j), fun n hn => ?_, fun x hx => ?_⟩
  · by_cases h : n ∈ gap'
    · exact second.gone n h
    · have other : ∀ m ∈ gap', page n ≠ page m := by
        intro m hm e
        exact h (page_inj e ▸ hm)
      rw [second.kept _ other]
      exact first.gone n (((union n).mp hn).resolve_right h)
  · rw [second.kept x fun n hn => hx n ((union n).mpr (.inr hn)),
      first.kept x fun n hn => hx n ((union n).mpr (.inl hn))]

/-- The pages that start in a range of addresses. -/
def pagesIn (a b : Nat) : Set Nat := {n | a ≤ n * pteSz ∧ n * pteSz < b}

theorem mem_pagesIn {a b n : Nat} : n ∈ pagesIn a b ↔ a ≤ n * pteSz ∧ n * pteSz < b := Iff.rfl

theorem pagesIn_first {k c : Nat} (more : pteSz * k < c) (n : Nat) :
    n ∈ pagesIn (pteSz * k) c ↔ n ∈ ({k} : Set Nat) ∨ n ∈ pagesIn (pteSz * k + pteSz) c := by
  simp only [mem_pagesIn, Set.mem_singleton_iff, pteSz_eq] at more ⊢
  omega

theorem freePage_mem {v' : Vm} (run : freePage v p = .ok v') : v'.mem = v.mem := by
  rw [freePage] at run
  split at run
  case isTrue =>
    split at run
    all_goals cases run
    rfl
  case isFalse => cases run

/-- The page `n`, the first one under its table, is behind an absent table that the loop meets when
it starts at `a`. -/
def Skipped (d : Pgd) (a n : Nat) : Prop :=
  512 ∣ n ∧ a < n * pteSz ∧ (tableAt d 0 (n / 512 - 1)).isSome = false

/-- The pages that the loop from `a` on comes to, or that are not mapped. -/
def reached (d : Pgd) (a oldsz : Nat) : Set Nat := {n ∈ pagesIn a oldsz | ¬ Skipped d a n}

section
variable {v' : Vm} {n oldsz : Nat}

/-- The tables decide what is skipped. -/
theorem Skipped.congr (tables : ∀ i j, (tableAt d' i j).isSome = (tableAt d i j).isSome) :
    Skipped d' a n ↔ Skipped d a n := by
  rw [Skipped, Skipped, tables]

theorem mem_reached : n ∈ reached d a oldsz ↔
    (a ≤ n * pteSz ∧ n * pteSz < oldsz) ∧ ¬ Skipped d a n := Iff.rfl

/-- What is reached from the next page on, where the table of this one exists. -/
theorem reached_next {k : Nat} (more : pteSz * k < oldsz)
    (present : (tableAt d 0 (k / 512)).isSome) (n : Nat) :
    n ∈ reached d (pteSz * k) oldsz ↔ n ∈ ({k} : Set Nat) ∨
      n ∈ reached d (pteSz * k + pteSz) oldsz := by
  simp only [mem_reached, Skipped, Set.mem_singleton_iff, pteSz_eq] at more ⊢
  by_cases absent : (tableAt d 0 (n / 512 - 1)).isSome = false
  · have other : 512 ∣ n → n ≠ k + 1 := by
      rintro first rfl
      have before : (k + 1) / 512 - 1 = k / 512 := by omega
      rw [before, present] at absent
      cases absent
    simp only [absent, and_true]
    omega
  · simp only [absent, reduceCtorEq, and_false, not_false_eq_true, and_true]
    omega

/-- What is reached beyond an absent table: nothing before the second page of the next area is
mapped, apart from the page that is skipped. -/
theorem reached_over {k : Nat} (absent : tableAt d 0 (k / 512) = none) (oldsz n : Nat) :
    n ∈ reached d (pteSz * k) oldsz ↔
      n ∈ {n ∈ pagesIn (pteSz * k) oldsz | n / 512 = k / 512 ∧
          n * pteSz < alignUp (pteSz * k) pmdSz + pteSz} ∨
        n ∈ reached d (alignUp (pteSz * k) pmdSz + pteSz) oldsz := by
  have area : pmdSz = 2097152 := rfl
  have none : (tableAt d 0 (k / 512)).isSome = false := by rw [absent]; rfl
  simp only [mem_reached, Skipped, Set.mem_ofPred_eq, mem_pagesIn, pteSz_eq, alignUp, area]
  by_cases absent : (tableAt d 0 (n / 512 - 1)).isSome = false
  · simp only [absent, and_true]
    omega
  · have other : n / 512 ≠ k / 512 + 1 := by
      intro next
      rw [next, Nat.add_sub_cancel] at absent
      exact absent none
    simp only [absent, reduceCtorEq, and_false, not_false_eq_true, and_true]
    omega

theorem isSome_of_walk {k : Nat} {pt : Pt} (low : pteSz * k < uaddrSz)
    (table : walkpgdir d (pteSz * k) = some pt) : (tableAt d 0 (k / 512)).isSome := by
  obtain ⟨hg, hm, -⟩ := idx_user low
  rw [walkpgdir_eq, hg, hm, Nat.mul_div_cancel_left k (by decide)] at table
  rw [table]
  rfl

theorem lookup_of_walk {pt : Pt} {e : Pte} (table : walkpgdir d a = some pt)
    (entry : pt (pteIdx a) = some e) : lookup d (entryOf a) = some e := by
  rw [← getPte_eq, getPte, table]
  exact entry

/-- The loop of `deallocuvm`, with what stays true when an entry is cleared and its frame freed. It
clears the pages that it reaches. -/
theorem deallocFrom_rule {I : Vm → Pgd → Prop}
    (unmap : ∀ v d a e, I v d → (walkpgdir d a).isSome → lookup d (entryOf a) = some e →
      e.pa ≠ 0 ∧ ∃ v', freePage v (p2v e.pa) = .ok v' ∧ I v' (setPte d a none))
    (inv : I v d) (aligned : pteSz ∣ a) (small : oldsz ≤ uaddrSz) :
    ∃ v' d', deallocFrom v d a oldsz = .ok (v', d') ∧ I v' d' ∧
      Cleared d d' (reached d a oldsz) := by
  have number (k : Nat) : pteSz * k / pteSz = k := Nat.mul_div_cancel_left k (by decide)
  fun_induction deallocFrom v d a oldsz with
  | case1 v d a more absent ih =>
    obtain ⟨v', d', ran, ended, cleared⟩ := ih inv
      (Nat.dvd_add (Nat.dvd_mul_left_of_dvd (by decide) _) (Nat.dvd_refl pteSz))
    obtain ⟨hg, hm, -⟩ := idx_user (more.trans_le small)
    obtain ⟨k, rfl⟩ := aligned
    rw [walkpgdir_eq, hg, hm, number] at absent
    refine ⟨v', d', ran, ended, (Cleared.none_of ?_).trans cleared (reached_over absent oldsz)⟩
    rintro n ⟨-, area, -⟩
    apply lookup_eq_none
    rw [area, absent]
  | case2 v d a more pt table free ih =>
    have low := more.trans_le small
    obtain ⟨v', d', ran, ended, cleared⟩ := ih inv (Nat.dvd_add aligned (Nat.dvd_refl pteSz))
    obtain ⟨k, rfl⟩ := aligned
    refine ⟨v', d', ran, ended,
      (Cleared.none_of ?_).trans cleared (reached_next more (isSome_of_walk low table))⟩
    rintro n rfl
    rw [← number n, ← entryOf_user low, ← getPte_eq, getPte, table]
    exact free
  | case3 v d a more pt table e entry zero =>
    exact absurd zero (unmap v d a e inv (by simp [table]) (lookup_of_walk table entry)).1
  | case4 v d a more pt table e entry nonzero fault run =>
    obtain ⟨-, v', ok, -⟩ := unmap v d a e inv (by simp [table]) (lookup_of_walk table entry)
    rw [ok] at run
    cases run
  | case5 v d a more pt table e entry nonzero v₁ run ih =>
    have low := more.trans_le small
    have present : (walkpgdir d a).isSome := by simp [table]
    obtain ⟨-, _, ok, inv'⟩ := unmap v d a e inv present (lookup_of_walk table entry)
    rw [ok] at run
    cases run
    obtain ⟨v', d', ran, ended, cleared⟩ := ih inv' (Nat.dvd_add aligned (Nat.dvd_refl pteSz))
    obtain ⟨k, rfl⟩ := aligned
    have entries := lookup_setPte (e := none) present
    rw [entryOf_user low, number] at entries
    have cut : Cleared d (setPte d (pteSz * k) none) {k} := by
      refine ⟨fun i j => isSome_setPte .., ?_, fun x hx => ?_⟩
      · rintro n rfl
        rw [entries, update_self]
      · rw [entries, update_of_ne (hx k rfl)]
    have same : reached (setPte d (pteSz * k) none) (pteSz * k + pteSz) oldsz =
        reached d (pteSz * k + pteSz) oldsz := by
      ext n
      rw [mem_reached, mem_reached, Skipped.congr cut.tables]
    exact ⟨v', d', ran, ended,
      cut.trans (same ▸ cleared) (reached_next more (isSome_of_walk low table))⟩
  | case6 v d a done =>
    refine ⟨v, d, rfl, inv, Cleared.none_of ?_⟩
    rintro n ⟨⟨above, below⟩, -⟩
    omega

/-- If the tables have no gap, nothing behind an absent one is mapped, and the whole range is
cleared. -/
theorem deallocFrom_keeps (inj : Injective site) (keeps : Keeps rest site own v d)
    (front : ∃ m, ∀ j, (tableAt d 0 j).isSome ↔ j < m) (aligned : pteSz ∣ a)
    (small : oldsz ≤ uaddrSz) :
    ∃ v' d', deallocFrom v d a oldsz = .ok (v', d') ∧ Cleared d d' (pagesIn a oldsz) ∧
      KeepsBeside rest site own v' d' ∧ v'.mem = v.mem := by
  have ended := deallocFrom_rule (I := fun w c => KeepsBeside rest site own w c ∧ w.mem = v.mem)
    ?_ ⟨keeps.beside, rfl⟩ aligned small
  · obtain ⟨v', d', ran, ⟨kept, mem⟩, cleared⟩ := ended
    have behind : ∀ n ∈ {n ∈ pagesIn a oldsz | Skipped d a n}, lookup d (page n) = none := by
      rintro n ⟨-, first, -, absent⟩
      obtain ⟨m, front⟩ := front
      apply lookup_eq_none
      rw [Bool.eq_false_iff, ne_eq, front] at absent
      rw [← Option.not_isSome_iff_eq_none, front]
      omega
    refine ⟨v', d', ran, (Cleared.none_of behind).trans cleared fun n => ?_, kept, mem⟩
    by_cases skipped : Skipped d a n
    · exact ⟨fun inside => .inl ⟨inside, skipped⟩, fun h => h.elim (·.1) (·.1)⟩
    · exact ⟨fun inside => .inr ⟨inside, skipped⟩, fun h => h.elim (·.1) (·.1)⟩
  · rintro w c b e ⟨⟨own', keeps', beside⟩, mem⟩ present entry
    obtain ⟨w', ok, next⟩ := keeps'.unmap inj present entry
    refine ⟨keeps'.sound.pa_ne_zero (keeps'.balanced.live (site (entryOf b)) _ ?_), w', ok,
      (next.beside.after (Beside.update _ _)).after beside, (freePage_mem ok).trans mem⟩
    rw [keeps'.view, frameAt, entry]
    rfl

end

theorem Cleared.lookup_ne {gap : Set Nat} (cleared : Cleared d d' gap) (x : Entry)
    (h : lookup d' x ≠ none) : lookup d x ≠ none := by
  rw [← cleared.kept x]
  · exact h
  · rintro n hn rfl
    exact h (cleared.gone n hn)

theorem Cleared.space {gap : Set Nat} (cleared : Cleared d d' gap) (space : Space d sz) :
    Space d' sz :=
  space.entries cleared.tables cleared.lookup_ne

/-- A space of size `sz` from which all pages from `newsz` on are cleared. -/
theorem Cleared.cut {newsz oldsz : Nat} (cleared : Cleared d d' (pagesIn (alignUp newsz pteSz) oldsz))
    (space : Space d sz) (reach : sz ≤ oldsz) (le : newsz ≤ sz) : Space d' newsz := by
  refine (cleared.space space).cut le fun n hn => ?_
  by_contra present
  obtain ⟨m, e, below⟩ := space.mapped _ (cleared.lookup_ne _ present)
  obtain rfl := page_inj e
  refine present (cleared.gone n ⟨?_, below.trans_le reach⟩)
  exact Nat.le_of_not_lt fun h => absurd ((page_lt_alignUp n newsz).mp h) (Nat.not_lt.mpr hn)

section
variable (inj : Function.Injective site) (keeps : Keeps rest site own v d) (space : Space d sz)
include inj keeps space

theorem deallocuvm_keeps {oldsz newsz : Nat} (small : oldsz ≤ uaddrSz) (less : newsz < oldsz) :
    ∃ v' d', deallocuvm v d oldsz newsz = .ok (v', d', newsz) ∧
      Cleared d d' (pagesIn (alignUp newsz pteSz) oldsz) ∧ KeepsBeside rest site own v' d' ∧
      v'.mem = v.mem := by
  obtain ⟨v', d', ran, ended⟩ :=
    deallocFrom_keeps inj keeps space.front (alignUp_dvd newsz pteSz) small
  refine ⟨v', d', ?_, ended⟩
  rw [deallocuvm, if_neg (by omega), ran]
  rfl

theorem deallocuvm_ends {oldsz newsz : Nat} (small : oldsz ≤ uaddrSz) :
    Ends (fun r => KeepsBeside rest site own r.1 r.2.1 ∧ Space r.2.1 sz ∧
        r.2.2 = min oldsz newsz ∧ (sz ≤ oldsz → newsz ≤ sz → Space r.2.1 newsz))
      (deallocuvm v d oldsz newsz) := by
  by_cases less : newsz < oldsz
  · obtain ⟨v', d', ran, cleared, kept, -⟩ := deallocuvm_keeps inj keeps space small less
    rw [ran]
    exact .ok ⟨kept, cleared.space space, (Nat.min_eq_right less.le).symm, cleared.cut space⟩
  · have ge := Nat.not_lt.mp less
    rw [deallocuvm, if_pos ge]
    refine .ok ⟨keeps.beside, space, (Nat.min_eq_left ge).symm, fun h h' => ?_⟩
    obtain rfl : newsz = sz := by omega
    exact space

/-- After `freevm` no entry of the tree owns a frame. -/
theorem freevm_ends (small : sz ≤ uaddrSz) :
    Ends (fun v' => KeepsBeside rest site own v' blank) (freevm v (some d)) := by
  rw [freevm]
  refine (deallocuvm_ends inj keeps space (le_refl uaddrSz)).bind ?_
  rintro ⟨v', d', r⟩ ⟨⟨own', keeps', beside⟩, -, -, cut⟩
  refine .ok ⟨own', keeps'.congr fun x => ?_, beside⟩
  have bare : lookup d' x = none := by
    by_contra present
    obtain ⟨n, -, h⟩ := (cut small (Nat.zero_le _)).mapped x present
    exact Nat.not_lt_zero _ h
  rw [frameAt, frameAt, bare, lookup_blank]

end

omit [DecidableEq Ω] in
/-- The frames of a tree that was freed are back, and none was taken. -/
theorem Keeps.freed {v' : Vm} (keeps : Keeps rest site own v d)
    (freed : KeepsBeside rest site own v' blank) :
    v'.pages ⊆ v.pages ∧ ∀ x f, own (site x) = some f → f ∉ v'.pages := by
  obtain ⟨own', keeps', beside⟩ := freed
  have bare : ∀ x, own' (site x) = none := fun x => keeps'.view x
  have fewer : ∀ o f, own' o = some f → own o = some f := by
    intro o f h
    by_cases entry : ∃ x, site x = o
    · obtain ⟨x, rfl⟩ := entry
      rw [bare] at h
      cases h
    · rwa [← beside o fun x e => entry ⟨x, e⟩]
  exact ⟨keeps.balanced.subset keeps'.balanced fewer,
    fun x f has => keeps.balanced.gone keeps'.balanced fewer has (bare x)⟩

/-! ### Growing -/

/-- One turn of the loops that map fresh pages. -/
theorem Keeps.next {v' : Vm} (keeps : Keeps rest site own v d) (inj : Injective site)
    (space : Space d a) (aligned : pteSz ∣ a) (low : a < uaddrSz) (sound : Sound rest v')
    (fresh : p ∉ v.pages) (pages : v'.pages = insert p v.pages)
    (addr : p2v (v2p p % 2 ^ 32) = p) (ap : Nat) :
    ∃ d', mappages d a pteSz (v2p p % 2 ^ 32) ap = .ok d' ∧ Space d' (a + pteSz) ∧
      ∃ own', Keeps rest site own' v' d' ∧ Beside site own own' := by
  obtain ⟨free, d', run, entries, space'⟩ := space.grow aligned low (v2p p % 2 ^ 32) ap
  exact ⟨d', run, space', _, keeps.map inj sound fresh pages addr free entries,
    Beside.update _ _⟩

section
variable {v' : Vm} {q : Nat}

theorem Sound.frames_apart (sound : Sound rest v) (usedP : p ∈ v.pages) (usedQ : q ∈ v.pages)
    (other : p ≠ q) : p + pteSz ≤ q ∨ q + pteSz ≤ p := by
  obtain ⟨A, ok⟩ := sound.heap.liveOk
  obtain ⟨b, -, isB⟩ := ok.blocks _ (sound.page usedP)
  obtain ⟨c, -, isC⟩ := ok.blocks _ (sound.page usedQ)
  simp only [Prod.mk.injEq, Region.addr] at isB isC
  have size := pteSz_eq
  have order : (2 : Nat) ^ pteShift = 4096 := rfl
  rw [← isB.2, order] at isB
  rw [← isC.2, order] at isC
  omega

theorem read_write_self (v : Vm) (a : Nat) (bs : List UInt8) :
    (v.write a bs).read a bs.length = bs := by
  apply List.ext_getElem
  · simp [Vm.read]
  · intro i _ inside
    simp [Vm.read, Vm.write, store, inside]

theorem length_read (v : Vm) (a n : Nat) : (v.read a n).length = n := by
  rw [Vm.read, List.length_map, List.length_range]

theorem mem_write_outside {bs : List UInt8} {x : Nat} (outside : x < a ∨ a + bs.length ≤ x) :
    (v.write a bs).mem x = v.mem x := by
  simp only [Vm.write, store]
  split
  case isTrue excess =>
    have beyond : bs.length ≤ x - a := by omega
    rw [List.getElem?_eq_none beyond]
    rfl
  case isFalse => rfl

theorem read_write_outside {bs : List UInt8} {n : Nat} (outside : a + bs.length ≤ q ∨ q + n ≤ a) :
    (v.write a bs).read q n = v.read q n := by
  rw [Vm.read, Vm.read, List.map_inj_left]
  intro i inside
  have less := List.mem_range.mp inside
  exact mem_write_outside (by omega)

theorem read_congr (same : v'.mem = v.mem) (q n : Nat) : v'.read q n = v.read q n := by
  simp only [Vm.read, same]

theorem allocPage_mem {r : Option Nat} (run : allocPage v = .ok (v', r)) : v'.mem = v.mem := by
  rw [allocPage] at run
  split at run
  all_goals cases run
  all_goals rfl

/-- The entries of the pages in `gap` are gone and all others are as they were. -/
structure Without (d d' : Pgd) (gap : Set Nat) : Prop where
  gone : ∀ n ∈ gap, lookup d' (page n) = none
  kept : ∀ x, (∀ n ∈ gap, x ≠ page n) → lookup d' x = lookup d x

/-- The pages in `gap` are cleared pages for the user, and all other entries as they were. -/
structure Added (v' : Vm) (d d' : Pgd) (gap : Set Nat) : Prop where
  fresh : ∀ n ∈ gap, ∃ e, lookup d' (page n) = some e ∧ e.ap = apRw10 ∧
    v'.read (p2v e.pa) pteSz = List.replicate pteSz 0
  kept : ∀ x, (∀ n ∈ gap, x ≠ page n) → lookup d' x = lookup d x

theorem allocPage_returns (sound : Sound rest v) : ∃ r, allocPage v = .ok r := by
  obtain ⟨⟨heap, r⟩, run⟩ := sound.heap.kmalloc_ok isOrder_pteShift
  rw [allocPage, run]
  cases r with
  | none => exact ⟨_, rfl⟩
  | some p => exact ⟨_, rfl⟩

theorem Added.first {d₁ : Pgd} {k newsz : Nat} {e : Pte} (more : pteSz * k < newsz)
    (entries : lookup d₁ = update (lookup d) (page k) (some e)) (user : e.ap = apRw10)
    (cleared : v'.read (p2v e.pa) pteSz = List.replicate pteSz 0)
    (added : Added v' d₁ d' (pagesIn (pteSz * k + pteSz) newsz)) :
    Added v' d d' (pagesIn (pteSz * k) newsz) := by
  have apart : ∀ n ∈ pagesIn (pteSz * k + pteSz) newsz, page k ≠ page n := by
    rintro n ⟨low, -⟩ same
    rw [page_inj same, pteSz_eq] at low
    omega
  constructor
  case fresh =>
    intro n inside
    rcases (pagesIn_first more n).mp inside with rfl | later
    · refine ⟨e, ?_, user, cleared⟩
      rw [added.kept _ apart, entries, update_self]
    · exact added.fresh n later
  case kept =>
    intro x outside
    have notHere : x ≠ page k := outside k ((pagesIn_first more k).mpr (.inl rfl))
    have notLater : ∀ n ∈ pagesIn (pteSz * k + pteSz) newsz, x ≠ page n := fun n later =>
      outside n ((pagesIn_first more n).mpr (.inr later))
    rw [added.kept x notLater, entries, update_of_ne notHere]

end

section
variable (inj : Function.Injective site)
include inj

theorem inituvm_ends {init : List UInt8} (keeps : Keeps rest site own v blank) :
    Ends (fun r => KeepsBeside rest site own r.1 r.2 ∧ Space r.2 pteSz)
      (inituvm v blank init) := by
  rw [inituvm]
  split
  · exact .fault (by simp)
  · refine (allocPage_ends keeps.sound).bind ?_
    rintro ⟨v', _ | mem⟩ ends
    · exact .fault (by simp)
    · obtain ⟨sound, fresh, pages, addr⟩ := ends
      obtain ⟨d', ok, space, own', keeps', beside⟩ := keeps.next inj Space.blank (Nat.dvd_zero _)
        (by decide) sound fresh pages addr apRw10
      refine Ends.then ok (.ok ⟨⟨own', (keeps'.write ..).write .., beside⟩, ?_⟩)
      simpa using space

/-- The loop of `allocuvm`: the pages below `newsz` are added, or all above `oldsz` removed. The
frames in use keep their bytes. -/
theorem allocFrom_keeps {oldsz newsz : Nat}
    (keeps : Keeps rest site own v d) (space : Space d a) (aligned : pteSz ∣ a)
    (low : alignUp oldsz pteSz ≤ a) (high : a ≤ alignUp newsz pteSz) (small : newsz < uaddrSz) :
    ∃ v' d' r, allocFrom v d a oldsz newsz = .ok (v', d', r) ∧ KeepsBeside rest site own v' d' ∧
      (∀ q ∈ v.pages, v'.read q pteSz = v.read q pteSz) ∧
      (r = newsz ∧ Space d' newsz ∧ Added v' d d' (pagesIn a newsz) ∨
        r = 0 ∧ Space d' oldsz ∧ Without d d' (pagesIn (alignUp oldsz pteSz) newsz)) := by
  fun_induction allocFrom v d a oldsz newsz generalizing own with
  | case1 v d a more fault run =>
    obtain ⟨r, ok⟩ := allocPage_returns keeps.sound
    rw [ok] at run
    cases run
  | case2 v d a more v₁ run =>
    obtain ⟨sound, pages⟩ := (allocPage_ends keeps.sound).of_ok run
    have keeps' : Keeps rest site own v₁ d := ⟨sound, pages ▸ keeps.balanced, keeps.view⟩
    have above : oldsz ≤ alignUp oldsz pteSz := le_alignUp (by decide) oldsz
    obtain ⟨v', d', ran, cleared, kept, mem⟩ :=
      deallocuvm_keeps inj keeps' space small.le (show oldsz < newsz by omega)
    refine ⟨v', d', 0, ?_, kept, fun q _ => read_congr (mem.trans (allocPage_mem run)) q pteSz,
      .inr ⟨rfl, cleared.cut space more.le (above.trans low), cleared.gone, cleared.kept⟩⟩
    rw [ran, ok_bind]
    rfl
  | case3 v d a more v₁ mem run ih =>
    obtain ⟨sound, fresh, pages, addr⟩ := (allocPage_ends keeps.sound).of_ok run
    obtain ⟨free, d₁, mapped, entries, space'⟩ :=
      space.grow aligned (more.trans small) (v2p mem % 2 ^ 32) apRw10
    have keeps' := keeps.map inj sound fresh pages addr free entries
    obtain ⟨v', d', r, ran, kept, bytes, ended⟩ := ih d₁
      (keeps'.write mem (List.replicate pteSz 0)) space' (Nat.dvd_add aligned (Nat.dvd_refl pteSz))
      (Nat.le_add_right_of_le low) (next_le_alignUp aligned more)
    have inUse : mem ∈ v₁.pages := pages ▸ Finset.mem_insert_self ..
    have zero : v'.read mem pteSz = List.replicate pteSz 0 := by
      have written := read_write_self v₁ mem (List.replicate pteSz 0)
      rw [List.length_replicate] at written
      rw [bytes mem inUse, written]
    obtain ⟨k, rfl⟩ := aligned
    have number : pteSz * k / pteSz = k := Nat.mul_div_cancel_left k (by decide)
    rw [entryOf_user (more.trans small), number] at entries
    refine ⟨v', d', r, ?_, kept.after (Beside.update _ _), ?_, ?_⟩
    · rw [mapped, ok_bind, ran]
    · intro q used
      have usedQ : q ∈ v₁.pages := pages ▸ Finset.mem_insert_of_mem used
      have other : mem ≠ q := by
        rintro rfl
        exact fresh used
      have apart := sound.frames_apart inUse usedQ other
      rw [bytes q usedQ, read_write_outside (by rwa [List.length_replicate])]
      exact read_congr (allocPage_mem run) q pteSz
    · rcases ended with ⟨rfl, sized, added⟩ | ⟨rfl, sized, without⟩
      · exact .inl ⟨rfl, sized, added.first more entries rfl (addr.symm ▸ zero)⟩
      · have inside : k ∈ pagesIn (alignUp oldsz pteSz) newsz := by
          rw [mem_pagesIn, Nat.mul_comm]
          exact ⟨low, more⟩
        refine .inr ⟨rfl, sized, without.gone, fun x outside => ?_⟩
        rw [without.kept x outside, entries, update_of_ne (outside k inside)]
  | case4 v d a done =>
    have exactly : alignUp newsz pteSz = a :=
      Nat.le_antisymm ((alignUp_le_iff (by decide) aligned _).mpr (Nat.not_lt.mp done)) high
    refine ⟨v, d, newsz, rfl, keeps.beside, fun _ _ => rfl,
      .inl ⟨rfl, Space.alignUp.mp (exactly ▸ space), ?_, fun _ _ => rfl⟩⟩
    rintro n ⟨above, below⟩
    omega

theorem allocuvm_ends {oldsz newsz : Nat}
    (keeps : Keeps rest site own v d) (space : Space d oldsz) (small : oldsz ≤ uaddrSz) :
    Ends (fun r => KeepsBeside rest site own r.1 r.2.1 ∧
        (r.2.2 = 0 → Space r.2.1 oldsz) ∧ (r.2.2 ≠ 0 → Space r.2.1 r.2.2 ∧ r.2.2 ≤ uaddrSz))
      (allocuvm v d oldsz newsz) := by
  rw [allocuvm]
  split
  · exact .ok ⟨keeps.beside, fun _ => space, fun h => absurd rfl h⟩
  · split
    · exact .ok ⟨keeps.beside, fun _ => space, fun _ => ⟨space, small⟩⟩
    · rename_i below grows
      have wide := alignUp_mono pteSz (Nat.le_of_not_lt grows)
      obtain ⟨v', d', r, ran, kept, -, ended⟩ := allocFrom_keeps inj keeps (Space.alignUp.mpr space)
        (alignUp_dvd ..) le_rfl wide (Nat.lt_of_not_le below)
      rw [ran]
      rcases ended with ⟨rfl, space', -⟩ | ⟨rfl, space', -⟩
      · refine .ok ⟨kept, fun zero => ?_, fun _ => ⟨space', (Nat.lt_of_not_le below).le⟩⟩
        obtain rfl : r = 0 := zero
        obtain rfl : oldsz = 0 := Nat.le_zero.mp (Nat.le_of_not_lt grows)
        exact space'
      · exact .ok ⟨kept, fun _ => space', fun h => absurd rfl h⟩

/-- The loop of `copyuvm` up to `sz`; after a failure the copy owns nothing. -/
theorem copyFrom_ends {old : Pgd}
    (keeps : Keeps rest site own v d) (space : Space d a) (aligned : pteSz ∣ a)
    (high : a ≤ alignUp sz pteSz) (small : sz ≤ uaddrSz) : Ends (fun r => match r.2 with
      | none => KeepsBeside rest site own r.1 blank
      | some d' => KeepsBeside rest site own r.1 d' ∧ Space d' sz)
      (copyFrom v old d a sz) := by
  fun_induction copyFrom v old d a sz generalizing own with
  | case1 => exact .fault (by simp)
  | case2 => exact .fault (by simp)
  | case3 v d a more pt table e entry fault run =>
    exact .fault ((allocPage_ends keeps.sound).of_error run)
  | case4 v d a more pt table e entry v' run =>
    obtain ⟨sound, pages⟩ := (allocPage_ends keeps.sound).of_ok run
    have keeps' : Keeps rest site own v' d := ⟨sound, pages ▸ keeps.balanced, keeps.view⟩
    exact (freevm_ends inj keeps' space (more.le.trans small)).bind fun _ freed => .ok freed
  | case5 v d a more pt table e entry v' mem run ih =>
    obtain ⟨sound, fresh, pages, addr⟩ := (allocPage_ends keeps.sound).of_ok run
    obtain ⟨d', ok, space', own', keeps', beside⟩ :=
      keeps.next inj space aligned (more.trans_le small) sound fresh pages addr e.ap
    refine Ends.then ok ((ih d' (keeps'.write ..) space' (Nat.dvd_add aligned (Nat.dvd_refl _))
      (next_le_alignUp aligned more)).mono ?_)
    rintro ⟨v'', none | copy⟩ post
    · exact post.after beside
    · exact ⟨post.1.after beside, post.2⟩
  | case6 v d a done =>
    refine .ok ⟨keeps.beside, Space.alignUp.mp ?_⟩
    have exactly : alignUp sz pteSz = a :=
      Nat.le_antisymm ((alignUp_le_iff (by decide) aligned _).mpr (Nat.not_lt.mp done)) high
    rwa [exactly]

end

end UserMemory
