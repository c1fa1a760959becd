import PinkyOS.FrameSupply

/-!
# Copying an address space (`copyuvm`, `fork`)

The copy takes a fresh frame for every page of the parent and a table wherever one is missing, and
may find the heap empty at any page. It then has given everything back. This is what happens for
every arrangement of the heap if and only if the boot free list has the tables that the copy can
come to need.
-/
namespace TableMemory
open MemoryLayout BuddyHeap UserMemory Ledger PageTablePool PageTableWords Function Finset

/-- The pages of `[0, sz)` are mapped, to frames in use. -/
def Covered (k : Store) (d : Pgd) (sz : Nat) : Prop :=
  ∀ n, n * pteSz < sz → ∃ e, getPte d (n * pteSz) = some e ∧ p2v e.pa ∈ k.vm.pages

/-- The tree `d'` in the store `k'` is a copy of the first `sz` bytes of `d` in `k`, on frames that
were free in `k`. -/
structure Copied (k : Store) (d : Pgd) (sz : Nat) (k' : Store) (d' : Pgd) : Prop where
  mapped : ∀ x, (lookup d' x).isSome ↔ ∃ n, x = page n ∧ n * pteSz < alignUp sz pteSz
  same : ∀ n, n * pteSz < sz → ∃ e e', getPte d (n * pteSz) = some e ∧
    lookup d' (page n) = some e' ∧ k'.vm.pageAt e' = k.vm.pageAt e
  fresh : ∀ x e, lookup d' x = some e → p2v e.pa ∈ k'.vm.pages ∧
    bytes (p2v e.pa, pteShift) ⊆ freeBytes bootRegion k.vm.heap
  once : ∀ x y e e', lookup d' x = some e → lookup d' y = some e' → p2v e.pa = p2v e'.pa → x = y
  elsewhere : ∀ b, Outside k.freelist b →
    (∀ x e, lookup d' x = some e → b ∉ bytes (p2v e.pa, pteShift)) → k'.vm.mem b = k.vm.mem b

/-- `copyuvm` returns, with a copy or with nothing taken. -/
def Copies (k : Store) (d : Pgd) (sz : Nat) : Prop :=
  ∃ k' res, copyuvm k d sz = .ok (k', res) ∧
    match res with
    | none => Released k k'
    | some t => Copied k d sz k' t.entries

section
variable {rest : Finset (Nat × Nat)} {slots : Set Nat} {others : Finset Nat} {k k' : Store}
  {t : Tree} {d : Pgd} {sz a : Nat}

/-! ### The loop -/

/-- What the loop of `copyuvm` did for the pages in `gap`. -/
structure Pasted (k : Store) (old : Pgd) (k' : Store) (d d' : Pgd) (gap : Set Nat) : Prop where
  copy : ∀ n ∈ gap, ∃ e e', getPte old (n * pteSz) = some e ∧ lookup d' (page n) = some e' ∧
    k'.vm.pageAt e' = k.vm.pageAt e ∧
    bytes (p2v e'.pa, pteShift) ⊆ freeBytes bootRegion k.vm.heap
  kept : ∀ x, (∀ n ∈ gap, x ≠ page n) → lookup d' x = lookup d x
  elsewhere : ∀ b, Outside k.freelist b → (∀ n ∈ gap, ∀ e, lookup d' (page n) = some e →
    b ∉ bytes (p2v e.pa, pteShift)) → k'.vm.mem b = k.vm.mem b

theorem Pasted.first {old d₁ d' : Pgd} {k₁ : Store} {m : Nat} {e c : Pte}
    (stocked : Stocked rest slots k) (more : pteSz * m < sz)
    (step : Step k k₁ (p2v c.pa) (k.vm.read (p2v e.pa) pteSz)) (ap : c.ap = e.ap)
    (entries : lookup d₁ = update (lookup d) (page m) (some c))
    (source : getPte old (m * pteSz) = some e)
    (bytes : k'.vm.read (p2v c.pa) pteSz = k₁.vm.read (p2v c.pa) pteSz)
    (covered : ∀ n ∈ pagesIn (pteSz * m + pteSz) sz, ∃ e, getPte old (n * pteSz) = some e ∧
      p2v e.pa ∈ k.vm.pages)
    (pasted : Pasted k₁ old k' d₁ d' (pagesIn (pteSz * m + pteSz) sz)) :
    Pasted k old k' d d' (pagesIn (pteSz * m) sz) := by
  have apart : ∀ n ∈ pagesIn (pteSz * m + pteSz) sz, page m ≠ page n := by
    rintro n ⟨low, -⟩ same
    rw [page_inj same, pteSz_eq] at low
    omega
  have here : lookup d' (page m) = some c := by
    rw [pasted.kept _ apart, entries, update_self]
  constructor
  case copy =>
    intro n inside
    rcases (pagesIn_first more n).mp inside with rfl | later
    · refine ⟨e, c, source, here, ?_, step.free⟩
      rw [Vm.pageAt, Vm.pageAt, ap, bytes, step.written]
    · obtain ⟨e₀, e₁, source₀, copy, same, fresh₁⟩ := pasted.copy n later
      obtain ⟨e₂, source₂, used⟩ := covered n later
      obtain rfl : e₀ = e₂ := Option.some.inj (source₀.symm.trans source₂)
      refine ⟨e₀, e₁, source₀, copy, ?_, fresh₁.trans step.less⟩
      rw [same, Vm.pageAt, Vm.pageAt, step.kept stocked used]
  case kept =>
    intro x outside
    have notHere : x ≠ page m := outside m ((pagesIn_first more m).mpr (.inl rfl))
    have notLater : ∀ n ∈ pagesIn (pteSz * m + pteSz) sz, x ≠ page n := fun n later =>
      outside n ((pagesIn_first more n).mpr (.inr later))
    rw [pasted.kept x notLater, entries, update_of_ne notHere]
  case elsewhere =>
    intro b outside away
    have notHere := away m ((pagesIn_first more m).mpr (.inl rfl)) c here
    rw [pasted.elsewhere b (step.outside outside) fun n later =>
      away n ((pagesIn_first more n).mpr (.inr later)), step.mem b outside notHere]

variable {Ω : Type} {site : Entry → Ω} {own : Ω → Option Nat} [DecidableEq Ω]

/-- The loop of `copyuvm`, while the free list has a table for each of the pages that there may be
a frame for. -/
theorem copyFrom_ok (old : Pgd) (sz : Nat) (inj : Injective site)
    (lodged : Lodged rest slots others site own k t) (space : Space t.entries a)
    (aligned : pteSz ∣ a) (high : a ≤ alignUp sz pteSz) (many : a ≤ pteSz * k.vm.pages.card)
    (covered : ∀ n ∈ pagesIn a sz, ∃ e, getPte old (n * pteSz) = some e ∧ p2v e.pa ∈ k.vm.pages)
    (enough : lacking t.entries a
      (min (pagesFrom a sz) (bootRegion.frameCount - k.vm.pages.card)) ≤ k.freelist.length) :
    ∃ k' res, copyFrom k old t a sz = .ok (k', res) ∧
      (∀ x, Outside k.freelist x → x ∉ freeBytes bootRegion k.vm.heap →
        k'.vm.mem x = k.vm.mem x) ∧
      match res with
      | none => Stocked rest slots k' ∧ k'.tables = others ∧
          KeepsBeside (rest ∪ heapTables others) site own k'.vm blank
      | some t' => Pasted k old k' t.entries t'.entries (pagesIn a sz) ∧ Space t'.entries sz ∧
          ∃ own', Lodged rest slots others site own' k' t' ∧ Beside site own own' := by
  fun_induction copyFrom k old t a sz generalizing own with
  | case1 k t a more absent =>
    obtain ⟨e, present, -⟩ := covered (a / pteSz) (first_page aligned more)
    rw [Nat.div_mul_cancel aligned, getPte, absent] at present
    cases present
  | case2 k t a more pt table absent =>
    obtain ⟨e, present, -⟩ := covered (a / pteSz) (first_page aligned more)
    rw [Nat.div_mul_cancel aligned, getPte, table, Option.bind_some, absent] at present
    cases present
  | case3 k t a more pt table e entry fault run =>
    obtain ⟨r, ok⟩ := allocPage_returns lodged.stocked.sound
    rw [ok] at run
    cases run
  | case4 k t a more pt table e entry v run =>
    obtain ⟨sound, pages⟩ := (allocPage_ends lodged.stocked.sound).of_ok run
    have small : a ≤ uaddrSz := many.trans ((Nat.mul_le_mul_left _
      (few_pages lodged.stocked.sound)).trans frameCount_lt.le)
    obtain ⟨k', ok, stocked, tables, mem, kept⟩ :=
      freevm_ok inj (lodged.setVm sound pages) space small
    refine ⟨k', none, ?_, fun x _ _ => ?_, stocked, tables, kept⟩
    · rw [ok, ok_bind]
      rfl
    · rw [mem]
      exact congrFun (allocPage_mem run) x
  | case5 k t a more pt table e entry v mem run ih =>
    have stocked := lodged.stocked
    obtain ⟨sound, fresh, pages, addr⟩ := (allocPage_ends stocked.sound).of_ok run
    have room := few_pages sound
    rw [pages, card_insert_of_notMem fresh] at room
    rw [pages_left aligned more room, lacking_succ] at enough
    have low : a < uaddrSz := many.trans_lt ((Nat.mul_le_mul_left _ (Nat.le_of_succ_le room)).trans_lt
      frameCount_lt)
    obtain ⟨k₁, t₁, mapped, -, space₁, entries, tables, took, own₁, lodged₁, beside⟩ :=
      lodged.next inj space aligned low run (v.read (p2v e.pa) pteSz) e.ap (by omega)
    have length := took.length
    have step := took.step stocked run (length_read ..)
    rw [read_congr (allocPage_mem run)] at step
    have sub : k.vm.pages ⊆ k₁.vm.pages := step.pages ▸ subset_insert ..
    have used : mem ∈ k₁.vm.pages := step.pages ▸ mem_insert_self ..
    have covered₁ : ∀ n ∈ pagesIn (a + pteSz) sz, ∃ e, getPte old (n * pteSz) = some e ∧
        p2v e.pa ∈ k.vm.pages := fun n later =>
      covered n ⟨(Nat.le_add_right ..).trans later.1, later.2⟩
    obtain ⟨k', res, ran, kept, post⟩ := ih k₁ t₁ lodged₁ space₁
      (Nat.dvd_add aligned (Nat.dvd_refl pteSz)) (next_le_alignUp aligned more)
      (by rw [step.card, Nat.mul_succ]; exact Nat.add_le_add_right many _)
      (fun n later => (covered₁ n later).imp fun e h => ⟨h.1, sub h.2⟩)
      (by rw [tables, step.card]; dsimp only at length; omega)
    refine ⟨k', res, ?_, fun x outside busy => ?_, ?_⟩
    · rw [mapped, ok_bind]
      exact ran
    · rw [kept x (step.outside outside) fun h => busy (step.less h),
        step.mem x outside fun h => busy (step.free h)]
    · cases res with
      | none => exact ⟨post.1, post.2.1, post.2.2.after beside⟩
      | some t' =>
        obtain ⟨pasted, space', own', lodged', beside'⟩ := post
        refine ⟨?_, space', own', lodged', fun o ho => (beside' o ho).trans (beside o ho)⟩
        obtain ⟨m, rfl⟩ := aligned
        rw [Nat.mul_div_cancel_left m (by decide)] at entries
        rw [← addr] at step
        refine pasted.first (e := e) (c := ⟨v2p mem % 2 ^ 32, e.ap⟩) stocked more step rfl entries ?_
          (read_eq fun x inside => ?_) covered₁
        · rw [Nat.mul_comm, getPte, table, Option.bind_some, entry]
        · rw [addr] at inside
          obtain ⟨outside, busy⟩ := lodged₁.stocked.in_use used inside
          exact kept x outside busy
  | case6 k t a done =>
    refine ⟨k, some t, rfl, fun _ _ _ => rfl, ⟨?_, fun _ _ => rfl, fun _ _ _ => rfl⟩,
      Space.alignUp.mp ?_, own, lodged, fun _ _ => rfl⟩
    · rintro n ⟨above, below⟩
      omega
    · have exactly : alignUp sz pteSz = a :=
        Nat.le_antisymm ((alignUp_le_iff (by decide) aligned _).mpr (Nat.not_lt.mp done)) high
      rwa [exactly]

/-! ### The whole copy -/

/-- The frames in use, each its own owner, beside a page table that owns none. -/
def bystanders (used : Finset Nat) : Nat ⊕ Entry → Option Nat :=
  Sum.elim (standIn used) fun _ => none

theorem Beside.bystanders_eq {used : Finset Nat} {own : Nat ⊕ Entry → Option Nat}
    (beside : Beside .inr (bystanders used) own) (bare : ∀ x, own (.inr x) = none) :
    own = bystanders used := by
  funext o
  rcases o with q | x
  · exact beside (.inl q) nofun
  · exact bare x

omit [DecidableEq Ω] in
/-- A page table with its first table only, beside the frames in use. -/
theorem Stocked.lodged {k₁ : Store} (stocked : Stocked rest slots k₁) (fresh : a ∉ k.tables)
    (tables : k₁.tables = insert a k.tables) (pages : k₁.vm.pages = k.vm.pages) :
    Lodged rest slots k.tables Sum.inr (bystanders k.vm.pages) k₁ (.new a) := by
  refine ⟨⟨stocked, .new fresh tables⟩, ?_, fun x => rfl⟩
  rw [pages]
  exact balanced_inl.mpr balanced_standIn

omit [DecidableEq Ω] in
/-- All pages of `[0, sz)` were copied after the first table had been taken. -/
theorem Pasted.copied {k₁ : Store} (stocked : Stocked rest slots k) (covered : Covered k d sz)
    (took : Took 1 k k₁) (pasted : Pasted k₁ d k' blank t.entries (pagesIn 0 sz))
    (space : Space t.entries sz) (inj : Injective site)
    (lodged : Lodged rest slots others site own k' t) : Copied k d sz k' t.entries := by
  have frame : ∀ x e, lookup t.entries x = some e → own (site x) = some (p2v e.pa) := by
    intro x e entry
    rw [lodged.view, frameAt, entry]
    rfl
  have number : ∀ x e, lookup t.entries x = some e → ∃ n ∈ pagesIn 0 sz, x = page n := by
    intro x e entry
    obtain ⟨n, isPage, below⟩ := space.mapped x (by rw [entry]; exact Option.some_ne_none e)
    exact ⟨n, ⟨Nat.zero_le _, below⟩, isPage⟩
  constructor
  case mapped =>
    intro x
    constructor
    · intro present
      obtain ⟨e, entry⟩ := Option.isSome_iff_exists.mp present
      obtain ⟨n, inside, isPage⟩ := number x e entry
      exact ⟨n, isPage, (page_lt_alignUp n sz).mpr inside.2⟩
    · rintro ⟨n, rfl, below⟩
      obtain ⟨-, e, -, entry, -⟩ := pasted.copy n ⟨Nat.zero_le _, (page_lt_alignUp n sz).mp below⟩
      rw [entry]
      rfl
  case same =>
    intro n below
    obtain ⟨e, e', source, entry, same, -⟩ := pasted.copy n ⟨Nat.zero_le _, below⟩
    obtain ⟨e₀, source₀, used⟩ := covered n below
    obtain rfl : e = e₀ := Option.some.inj (source.symm.trans source₀)
    refine ⟨e, e', source, entry, ?_⟩
    rw [same, Vm.pageAt, Vm.pageAt,
      read_eq fun x inside => took.mem x (stocked.in_use used inside).1]
  case fresh =>
    intro x e entry
    refine ⟨lodged.balanced.live _ _ (frame x e entry), ?_⟩
    obtain ⟨n, inside, rfl⟩ := number x e entry
    obtain ⟨-, e', -, entry', -, free⟩ := pasted.copy n inside
    obtain rfl : e = e' := Option.some.inj (entry.symm.trans entry')
    rwa [took.heap] at free
  case once =>
    intro x y e e' entryX entryY same
    exact inj (lodged.balanced.once _ _ _ (frame x e entryX) (same ▸ frame y e' entryY))
  case elsewhere =>
    intro b outside away
    rw [pasted.elsewhere b (fun u free => outside u (took.fewer free)) fun n _ e entry =>
      away _ e entry, took.mem b outside]

/-- `copyuvm`, while the free list has a table for each of the pages that there may be a frame for. -/
theorem copyuvm_ok (stocked : Stocked rest slots k) (covered : Covered k d sz)
    (enough : 1 + lacking blank 0 (min (pagesFrom 0 sz)
      (bootRegion.frameCount - k.vm.pages.card)) ≤ k.freelist.length) :
    ∃ k' res, copyuvm k d sz = .ok (k', res) ∧ Stocked rest slots k' ∧
      match res with
      | none => Released k k'
      | some t => Copied k d sz k' t.entries := by
  obtain ⟨k₁, a, run, stocked₁, fresh, tables, took⟩ := kptAlloc_ok stocked (by omega)
  have lodged := stocked₁.lodged fresh tables took.pages
  have length := took.length
  obtain ⟨k', res, ran, kept, post⟩ := copyFrom_ok d sz Sum.inr_injective lodged Space.blank
    (Nat.dvd_zero _) (Nat.zero_le _) (Nat.zero_le _)
    (fun n inside => by rw [took.pages]; exact covered n inside.2)
    (by rw [took.pages]; exact Nat.le_of_add_le_add_left (enough.trans_eq (by omega)))
  refine ⟨k', res, ?_, ?_⟩
  · rw [copyuvm, run, ok_bind]
    exact ran
  · cases res with
    | none =>
      obtain ⟨stocked', same, own, keeps, beside⟩ := post
      refine ⟨stocked', stocked.released stocked' ?_ same fun x outside busy => ?_⟩
      · have balanced := keeps.balanced
        rw [Beside.bystanders_eq beside keeps.view] at balanced
        exact balanced_standIn.unique (balanced_inl.mp balanced)
      · rw [kept x (fun u free => outside u (took.fewer free)) (took.heap ▸ busy),
          took.mem x outside]
    | some t =>
      obtain ⟨pasted, space, own, lodged', beside⟩ := post
      exact ⟨lodged'.stocked, pasted.copied stocked covered took space Sum.inr_injective lodged'⟩

/-! ### Running out of tables -/

omit [DecidableEq Ω] in
/-- One turn of the loop of `copyuvm` that gets a frame. -/
theorem copyFrom_turn {old : Pgd} {e : Pte} {v : Vm} {p : Nat} (more : a < sz)
    (source : getPte old a = some e) (run : allocPage k.vm = .ok (v, some p)) :
    copyFrom k old t a sz = mappages { k with vm := v.write p (v.read (p2v e.pa) pteSz) } t a
      pteSz (v2p p % 2 ^ 32) e.ap >>= fun r => copyFrom r.1 old r.2 (a + pteSz) sz := by
  rw [getPte] at source
  obtain ⟨pt, table, entry⟩ := Option.bind_eq_some_iff.mp source
  rw [copyFrom, if_pos more, table]
  dsimp only
  rw [entry]
  dsimp only
  rw [run]

/-- The last frame is taken, and a table is missing. -/
theorem copyFrom_starves (old : Pgd) (sz : Nat) {n : Nat} (inj : Injective site)
    (lodged : Lodged rest slots others site own k t) (space : Space t.entries a)
    (aligned : pteSz ∣ a) (many : a ≤ pteSz * k.vm.pages.card)
    (covered : ∀ n ∈ pagesIn a sz, ∃ e, getPte old (n * pteSz) = some e ∧ p2v e.pa ∈ k.vm.pages)
    (tops : ∀ e ∈ k.vm.live, e.2 = maxOrd)
    (left : k.vm.live.card + (n + 1) = bootRegion.frameCount) (more : n < pagesFrom a sz)
    (enough : lacking t.entries a n ≤ k.freelist.length)
    (short : k.freelist.length < lacking t.entries a (n + 1)) :
    copyFrom k old t a sz = .error (.panic "oom: kpt_alloc") := by
  induction n generalizing k t a own with
  | zero =>
    have inside := lt_of_pagesFrom aligned more
    obtain ⟨e, source, used⟩ := covered (a / pteSz) (first_page aligned inside)
    rw [Nat.div_mul_cancel aligned] at source
    obtain ⟨v, p, run, tops', card⟩ :=
      lodged.stocked.some_page tops (Nat.lt_of_lt_of_eq (Nat.lt_succ_self _) left)
    have first : alignDn a pteSz = a := Nat.div_mul_cancel aligned
    have stored := lodged.allocated run (v.read (p2v e.pa) pteSz)
    have out : Exhausted v.heap :=
      ⟨_, stored.stocked.sound.heap.no_room tops' (card.trans left) isOrder_ptOrder⟩
    rw [lacking_succ] at short
    rw [copyFrom_turn inside source run, mappages, one_page aligned, first, mapFrom,
      walkpgdir_starves stored out short]
    rfl
  | succ n ih =>
    have inside := lt_of_pagesFrom aligned (Nat.zero_lt_of_lt more)
    obtain ⟨e, source, used⟩ := covered (a / pteSz) (first_page aligned inside)
    rw [Nat.div_mul_cancel aligned] at source
    obtain ⟨v, p, run, tops', card⟩ := lodged.stocked.some_page tops
      (left ▸ Nat.lt_add_of_pos_right (Nat.succ_pos _))
    rw [lacking_succ] at enough short
    rw [pagesFrom_succ aligned inside] at more
    have low : a < uaddrSz := many.trans_lt ((Nat.mul_le_mul_left _
      (few_pages lodged.stocked.sound)).trans_lt frameCount_lt)
    obtain ⟨k₁, t₁, mapped, -, space₁, -, tables, took, own₁, lodged₁, -⟩ :=
      lodged.next inj space aligned low run (v.read (p2v e.pa) pteSz) e.ap (by omega)
    have length := took.length
    have step := took.step lodged.stocked run (length_read ..)
    have live : k₁.vm.live = v.live := took.live
    dsimp only at length
    rw [copyFrom_turn inside source run, mapped, ok_bind]
    dsimp only
    refine ih lodged₁ space₁ (Nat.dvd_add aligned (Nat.dvd_refl pteSz)) ?_ (fun m later => ?_)
      (live ▸ tops') ?_ (Nat.lt_of_succ_lt_succ more) ?_ ?_
    · rw [step.card, Nat.mul_succ]
      exact Nat.add_le_add_right many _
    · obtain ⟨e', source', used'⟩ := covered m ⟨(Nat.le_add_right ..).trans later.1, later.2⟩
      exact ⟨e', source', step.pages ▸ mem_insert_of_mem used'⟩
    · rw [live, card, ← left, Nat.add_assoc, Nat.add_comm 1]
    · rw [tables]
      omega
    · rw [tables]
      omega

end

/-- The tables that a copy can come to need: one, and those of the pages for which there can be
frames beside those of the parent. -/
def tablesNeeded (d : Pgd) (sz : Nat) : Nat :=
  1 + lacking blank 0 (min (pagesFrom 0 sz)
    (bootRegion.frameCount - (framesOf d (pagesFrom 0 sz)).card))

section
variable {rest : Finset (Nat × Nat)} {slots : Set Nat} {k : Store} {d : Pgd} {sz : Nat}

/-- The frames of the pages of `[0, sz)` are all that matters for `Covered`. -/
theorem covered_iff (covered : Covered k d sz) (k' : Store) :
    Covered k' d sz ↔ framesOf d (pagesFrom 0 sz) ⊆ k'.vm.pages := by
  constructor
  · intro covered' p listed
    obtain ⟨i, less, e, source, rfl⟩ := mem_framesOf.mp listed
    obtain ⟨e', source', used⟩ := covered' i ((lt_pagesFrom_zero i sz).mp less)
    rw [Option.some.inj (source.symm.trans source')]
    exact used
  · intro sub n below
    obtain ⟨e, source, -⟩ := covered n below
    exact ⟨e, source, sub (mem_framesOf.mpr ⟨n, (lt_pagesFrom_zero n sz).mpr below, e, source, rfl⟩)⟩

/-- The free list runs out with the last frame. -/
theorem copyuvm_starves {n : Nat} (stocked : Stocked rest slots k) (covered : Covered k d sz)
    (tops : ∀ e ∈ k.vm.live, e.2 = maxOrd) (left : k.vm.live.card + n = bootRegion.frameCount)
    (more : n ≤ pagesFrom 0 sz) (short : k.freelist.length < 1 + lacking blank 0 n)
    (before : ∀ l < n, 1 + lacking blank 0 l ≤ k.freelist.length) :
    copyuvm k d sz = .error (.panic "oom: kpt_alloc") := by
  cases n with
  | zero =>
    have empty : k.freelist = [] := List.length_eq_zero_iff.mp (Nat.lt_one_iff.mp short)
    have out : Exhausted k.vm.heap := ⟨_, stocked.sound.heap.no_room tops left isOrder_ptOrder⟩
    rw [copyuvm, kptAlloc_starves empty out]
    rfl
  | succ n =>
    -- the page for which the free list does not last is copied to the last frame
    have enough := before n (Nat.lt_succ_self n)
    obtain ⟨k₁, a, run, stocked₁, fresh, tables, took⟩ := kptAlloc_ok stocked
      ((Nat.lt_add_right _ Nat.zero_lt_one).trans_le enough)
    have length := took.length
    rw [copyuvm, run, ok_bind]
    refine copyFrom_starves d sz Sum.inr_injective (stocked₁.lodged fresh tables took.pages)
      Space.blank (Nat.dvd_zero _) (Nat.zero_le _)
      (fun n inside => by rw [took.pages]; exact covered n inside.2) (took.live ▸ tops)
      (took.live ▸ left) more ?_ ?_
    · show lacking blank 0 n ≤ _
      omega
    · show _ < lacking blank 0 (n + 1)
      omega

/-- With too short a free list some arrangement of the heap ends in the panic of `kpt_alloc`. -/
theorem exists_copyuvm_starves (stocked : Stocked rest slots k) (covered : Covered k d sz)
    (short : k.freelist.length < tablesNeeded d sz) :
    ∃ k', Stocked ∅ slots k' ∧ k'.freelist = k.freelist ∧ Covered k' d sz ∧
      copyuvm k' d sz = .error (.panic "oom: kpt_alloc") := by
  have sub := (covered_iff covered k).mp covered
  have few := (card_le_card sub).trans (few_pages stocked.sound)
  obtain ⟨n, most, lacks, before⟩ := exists_first (f := fun n => 1 + lacking blank 0 n) short
  obtain ⟨inPages, inFrames⟩ := le_min_iff.mp most
  obtain ⟨k', arranged⟩ := stocked.arrange sub (Nat.add_le_of_le_sub few inFrames)
  have covered' := (covered_iff covered k').mpr arranged.kept
  rw [← arranged.freelist] at lacks before
  exact ⟨k', arranged.stocked, arranged.freelist, covered',
    copyuvm_starves arranged.stocked covered' arranged.tops arranged.left inPages lacks before⟩

/-! ### `fork` -/

/-- A failed `fork`: the slot is free again, without a stack, and the rest is as it was. -/
structure Undone (s s' : State) (np : SleepWakeup.Slot) : Prop where
  store : Released s.store s'.store
  state : (s'.base.proc np).state = .unused
  stack : (s'.base.proc np).kstack = none
  others : ∀ q, q ≠ np → s'.base.proc q = s.base.proc q ∧ s'.homes q = s.homes q

theorem allocproc_some {s b : UserMemory.State} {np : SleepWakeup.Slot}
    (run : allocproc s = .ok (b, some np)) :
    ∃ mem, allocPage s.vm = .ok (b.vm, some mem) ∧ (b.proc np).kstack = some mem ∧
      ∀ q, q ≠ np → b.proc q = s.proc q := by
  rw [allocproc] at run
  split at run
  case h_1 => cases run
  case h_2 =>
    obtain ⟨⟨vm, res⟩, page, run⟩ := bind_eq_ok run
    cases res with
    | none => cases run
    | some mem =>
      cases run
      refine ⟨mem, page, ?_, fun q other => ?_⟩
      · simp [UserMemory.State.setProc]
      · simp [UserMemory.State.setProc, other]

theorem fork_undone {s : State} {b : UserMemory.State} {p np : SleepWakeup.Slot} {k' : Store}
    (stocked : Stocked rest slots s.store) (slot : allocproc s.base = .ok (b, some np))
    (pgdir : (b.proc p).pgdir = some d)
    (failed : copyuvm ⟨b.vm, s.freelist, s.tables⟩ d (b.proc p).sz = .ok (k', none))
    (stocked' : Stocked rest slots k') (released : Released ⟨b.vm, s.freelist, s.tables⟩ k') :
    ∃ s', fork s p = .ok (s', none) ∧ Undone s s' np := by
  obtain ⟨mem, page, stack, same⟩ := allocproc_some slot
  obtain ⟨-, fresh, pages, -⟩ := (allocPage_ends stocked.sound).of_ok page
  obtain ⟨-, less⟩ := allocPage_bytes stocked.sound page
  have used : mem ∈ k'.vm.pages := by
    rw [released.pages]
    exact pages ▸ mem_insert_self ..
  obtain ⟨v', freed, sound, pages'⟩ := freePage_ok stocked'.sound used
  refine ⟨{ s with base := b }.set { k' with vm := v' } np
    { b.proc np with kstack := none, state := .unused } none, ?_, ?_⟩
  · rw [fork, slot, ok_bind]
    dsimp only
    rw [pgdir]
    dsimp only
    rw [failed, ok_bind]
    dsimp only
    rw [stack]
    dsimp only
    rw [freed, ok_bind]
    rfl
  · constructor
    case store =>
      have restocked : Stocked rest slots { k' with vm := v' } :=
        ⟨sound, stocked'.apart, stocked'.low, stocked'.pool, stocked'.nodup, stocked'.idle⟩
      have same : v'.pages = s.store.vm.pages := by
        rw [pages', released.pages]
        exact (congrArg (·.erase mem) pages).trans (erase_insert fresh)
      refine stocked.released restocked same released.tables fun x outside busy => ?_
      · show v'.mem x = s.store.vm.mem x
        rw [freePage_mem freed, released.mem x outside fun h => busy (less h)]
        exact congrFun (allocPage_mem page) x
    case state => simp [State.set, UserMemory.State.setProc]
    case stack => simp [State.set, UserMemory.State.setProc]
    case others =>
      intro q other
      simp [State.set, UserMemory.State.setProc, other, same q other]

/-- For every arrangement of the heap `copyuvm` makes an exact copy or gives everything back, if and
only if the boot free list has the tables that it can come to need; and then a `fork` whose copy
fails leaves nothing behind. -/
theorem copyuvm_exact_iff (stocked : Stocked rest slots k) (covered : Covered k d sz) :
    ((∀ rest' k', Stocked rest' slots k' → k'.freelist = k.freelist → Covered k' d sz →
      Copies k' d sz) ↔ tablesNeeded d sz ≤ k.freelist.length) ∧
    (tablesNeeded d sz ≤ k.freelist.length → ∀ rest' (s : State) (b : UserMemory.State) p np k',
      Stocked rest' slots s.store → s.freelist = k.freelist → Covered s.store d sz →
      allocproc s.base = .ok (b, some np) → (b.proc p).pgdir = some d → (b.proc p).sz = sz →
      copyuvm ⟨b.vm, s.freelist, s.tables⟩ d sz = .ok (k', none) →
      ∃ s', fork s p = .ok (s', none) ∧ Undone s s' np) := by
  have suffices' : tablesNeeded d sz ≤ k.freelist.length → ∀ rest' k', Stocked rest' slots k' →
      k'.freelist = k.freelist → Covered k' d sz →
      ∃ k'' res, copyuvm k' d sz = .ok (k'', res) ∧ Stocked rest' slots k'' ∧
        match res with
        | none => Released k' k''
        | some t => Copied k' d sz k'' t.entries := by
    intro enough rest' k' stocked' list covered'
    refine copyuvm_ok stocked' covered' (le_trans ?_ (enough.trans_eq (congrArg _ list.symm)))
    have sub := Finset.card_le_card ((covered_iff covered k').mp covered')
    exact Nat.add_le_add_left (lacking_mono _ _
      (min_le_min_left _ (Nat.sub_le_sub_left sub _))) _
  refine ⟨⟨fun exact' => ?_, fun enough rest' k' stocked' list covered' => ?_⟩, ?_⟩
  · by_contra short
    obtain ⟨k', stocked', list, covered', oom⟩ :=
      exists_copyuvm_starves stocked covered (Nat.lt_of_not_le short)
    obtain ⟨k'', res, run, -⟩ := exact' ∅ k' stocked' list covered'
    rw [oom] at run
    cases run
  · obtain ⟨k'', res, run, -, post⟩ := suffices' enough rest' k' stocked' list covered'
    exact ⟨k'', res, run, post⟩
  · rintro enough rest' s b p np k' stocked' list covered' slot pgdir rfl failed
    obtain ⟨mem, page, -⟩ := allocproc_some slot
    obtain ⟨-, -, pages, -⟩ := (allocPage_ends stocked'.sound).of_ok page
    have more : Covered ⟨b.vm, s.freelist, s.tables⟩ d (b.proc p).sz := fun n below =>
      (covered' n below).imp fun e h => ⟨h.1, pages ▸ Finset.mem_insert_of_mem h.2⟩
    obtain ⟨k'', res, run, stocked'', post⟩ :=
      suffices' enough rest' _ (stocked'.taken page) list more
    have both := run.symm.trans failed
    cases both
    exact fork_undone stocked' slot pgdir failed stocked'' post

end

/-! ### The first process -/

theorem lacking_one : lacking blank 0 1 = 2 := by
  rw [lacking_succ]
  rfl

theorem covered_first {k : Store} {d : Pgd} {e : Pte} (entry : getPte d 0 = some e)
    (used : p2v e.pa ∈ k.vm.pages) : Covered k d pteSz := by
  intro n below
  have first : n = 0 := by
    rw [pteSz_eq] at below
    omega
  rw [first, Nat.zero_mul]
  exact ⟨e, entry, used⟩

/-- The first process can be copied while the free list has three tables. -/
theorem first_process_copied : ∃ rest slots k d, Stocked rest slots k ∧ Covered k d pteSz ∧
    k.freelist.length = 3 ∧ Copies k d pteSz := by
  obtain ⟨s, p, q, d, reach, pages, -, -, -, -, entries, -⟩ := first_process
  obtain ⟨rest, tidy⟩ := reach.tidy
  have stocked := stocked_slots tidy.sound (n := 3) (by decide)
  have used : q ∈ s.vm.pages := pages ▸ Finset.mem_insert_self ..
  have frame := p2v_frame tidy.sound used
  have covered : Covered ⟨s.vm, (List.range 3).map fun i => smallImage.kend + i * ptSz, ∅⟩ d
      pteSz := by
    refine covered_first (e := ⟨v2p q % 2 ^ 32, apRw10⟩) ?_ ?_
    · rw [getPte_eq, entryOf_user (by decide), entries]
      exact Function.update_self ..
    · dsimp only
      rwa [frame]
  refine ⟨rest, _, _, d, stocked, covered, rfl, ?_⟩
  refine (copyuvm_exact_iff stocked covered).1.mpr ?_ rest _ stocked rfl covered
  have one : pagesFrom 0 pteSz = 1 := rfl
  have most : tablesNeeded d pteSz ≤ 1 + lacking blank 0 1 :=
    Nat.add_le_add_left (lacking_mono _ _ (one ▸ min_le_left _ _)) 1
  exact most.trans_eq (congrArg (1 + ·) lacking_one)

/-! ### A table from the heap -/

section
variable {rest : Finset (Nat × Nat)} {slots : Set Nat} {others : Finset Nat} {k : Store}
  {a r : Nat} {heap : Kmem}

/-- With one free table left, the page table of the first page is taken from the heap, and `PT_SZ`
bytes are cleared there. -/
theorem walkpgdir_clears (stored : Stored rest slots others k (.new a))
    (one : k.freelist.length = 1) (run : kmalloc k.vm.heap ptOrder = .ok (heap, some r)) :
    ∃ k' t, walkpgdir k (.new a) 0 = .ok (k', t) ∧ t.entries = addTables blank 0 ∧
      ∀ x, r ≤ x → x < r + ptSz → k'.vm.mem x = 0 := by
  obtain ⟨k₁, t₁, taken, stored₁, took, entries⟩ := addPmd_ok stored (i := pgdIdx 0) (by decide)
    one.ge
  have empty : k₁.freelist = [] := by
    have length : k₁.freelist.length + 1 = k.freelist.length := took.length
    exact List.length_eq_zero_iff.mp (by omega)
  have bare : t₁.pt (pgdIdx 0) (pmdIdx 0) = none := by
    have present := stored₁.rooted.pt (pgdIdx 0) (pmdIdx 0)
    rw [entries] at present
    exact Option.isNone_iff_eq_none.mp (Option.isSome_eq_false_iff.mp present)
  rw [← took.heap] at run
  rw [walkpgdir, taken, ok_bind]
  dsimp only
  rw [addPt, bare]
  dsimp only
  rw [kptAlloc, empty]
  dsimp only
  rw [run, entries]
  refine ⟨_, _, rfl, ?_, fun x above below => ?_⟩
  · dsimp only
    rw [update_self, update_idem]
    rfl
  · exact if_pos ⟨above, below⟩

theorem copyFrom_clears {Ω : Type} {site : Entry → Ω} {own : Ω → Option Nat} {old : Pgd} {e : Pte}
    {v : Vm} {p : Nat} (lodged : Lodged rest slots others site own k (.new a))
    (one : k.freelist.length = 1) (source : getPte old 0 = some e)
    (alloc : allocPage k.vm = .ok (v, some p))
    (run : kmalloc v.heap ptOrder = .ok (heap, some r)) :
    ∃ k' t, copyFrom k old (.new a) 0 pteSz = .ok (k', some t) ∧
      ∀ x, r ≤ x → x < r + ptSz → k'.vm.mem x = 0 := by
  obtain ⟨k₁, t, walked, entries, cleared⟩ :=
    walkpgdir_clears (lodged.allocated alloc (v.read (p2v e.pa) pteSz)) one run
  have free : getPte t.entries 0 = none := by
    rw [entries]
    rfl
  refine ⟨k₁, { t with entries := setPte t.entries 0 (some ⟨v2p p % 2 ^ 32, e.ap⟩) }, ?_, cleared⟩
  rw [copyFrom_turn (by decide) source alloc, mappages, one_page (Nat.dvd_zero _)]
  rw [show alignDn 0 pteSz = 0 from rfl, mapFrom, walked, ok_bind]
  dsimp only
  rw [free]
  dsimp only
  rw [mapFrom, ok_bind]
  dsimp only
  rw [copyFrom, if_neg (by decide)]

end

/-- The live blocks are the lower half of the first frame and the frames from the second on, but
for the third. -/
theorem exists_tight : ∃ v : Vm, Sound {bootRegion.half 0} v ∧
    (bootRegion.frame 1).1 ∈ v.pages ∧ v.mem = (fun _ => 1) ∧
    v.live = bootRegion.halved (bootRegion.later.erase 2) {0} := by
  obtain ⟨heap, reach⟩ := exists_half bootRegion (i := 2) (by decide +kernel) (by decide)
  let start : Nat → Nat := fun i => (bootRegion.frame i).1
  refine ⟨⟨heap, fun _ => 1, bootRegion.halved (bootRegion.later.erase 2) {0},
    (bootRegion.later.erase 2).image start⟩, ⟨reach, fun e => ?_, fun p _ => ?_⟩, ?_, rfl, rfl⟩
  · dsimp only
    rw [Region.halved, image_singleton, mem_union, mem_image, mem_image]
    constructor
    · rintro (⟨i, listed, rfl⟩ | half)
      · exact .inr ⟨rfl, i, listed, rfl⟩
      · exact .inl half
    · rintro (half | ⟨order, i, listed, same⟩)
      · exact .inr half
      · exact .inl ⟨i, listed, Prod.ext same order.symm⟩
  · rw [mem_singleton]
    exact fun same => absurd (congrArg Prod.snd same) (show pteShift ≠ 11 by decide)
  · refine mem_image.mpr ⟨1, mem_erase.mpr ⟨by decide, mem_later.mpr ⟨by decide, ?_⟩⟩, rfl⟩
    decide +kernel

/-- The copy of an address space of one page succeeds, and the parent's page has changed: the table
from the heap lies less than `PT_SZ` in front of it. -/
theorem heap_table_clears_parent : ∃ rest slots k d k' t e, Stocked rest slots k ∧
    Covered k d pteSz ∧ getPte d 0 = some e ∧ copyuvm k d pteSz = .ok (k', some t) ∧
    k'.vm.mem (p2v e.pa) ≠ k.vm.mem (p2v e.pa) := by
  obtain ⟨v, sound, used, ones, live⟩ := exists_tight
  have stocked := stocked_slots sound (n := 2) (by decide)
  have frame := p2v_frame sound used
  obtain ⟨-, d, -, entries, -⟩ := Space.blank.grow (Nat.dvd_zero _) (show 0 < uaddrSz by decide)
    (v2p (bootRegion.frame 1).1 % 2 ^ 32) apRw10
  have source : getPte d 0 = some ⟨v2p (bootRegion.frame 1).1 % 2 ^ 32, apRw10⟩ := by
    rw [getPte_eq, entries, Function.update_self]
  obtain ⟨k₁, a, taken, stocked₁, fresh, tables, took⟩ := kptAlloc_ok stocked Nat.two_pos
  have heap₁ : Reachable bootRegion k₁.vm.heap
      (bootRegion.halved (bootRegion.later.erase 2) {0}) := by
    rw [took.heap, ← live]
    exact sound.heap
  obtain ⟨heap₂, page, reach₂⟩ := heap₁.kmalloc_frame (by decide +kernel) (by decide)
  have page' : kmalloc k₁.vm.heap pteShift = .ok (heap₂, some (bootRegion.frame 2).1) := page
  obtain ⟨j, heap₃, table, first, upper⟩ := reach₂.kmalloc_first isOrder_ptOrder (by decide)
    (by decide +kernel) (i := 2) (by decide) (by decide)
  have length : k₁.freelist.length = 1 := Nat.add_right_cancel took.length
  obtain ⟨k', t, run, cleared⟩ := copyFrom_clears (stocked₁.lodged fresh tables took.pages) length
    source (by rw [allocPage, page']) table
  refine ⟨_, _, _, d, k', t, _, stocked, covered_first source ?_, source, ?_, ?_⟩
  · dsimp only
    rwa [frame]
  · rw [copyuvm, taken, ok_bind]
    exact run
  · obtain ⟨before, after⟩ := upper_quarter bootRegion first upper
    dsimp only
    rw [frame, ones, cleared _ before after]
    decide

end TableMemory
