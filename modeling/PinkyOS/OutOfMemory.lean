import PinkyOS.ForkCopy
import PinkyOS.TableGrowth

/-!
# Running out of memory (`fork`, `sbrk`)

A call that cannot get a frame gives back what it has taken and returns -1. A call that cannot get
a table does not return: `kpt_alloc` panics. What decides is the length of the boot free list, given
the tables that the call lacks for the pages that there can be frames for.
-/
namespace TableMemory
open MemoryLayout BuddyHeap UserMemory Ledger PageTablePool PageTableWords List

/-! ### The caller -/

/-- The process `p` has the page table `t`, whose tables are slots of the boot pool and which maps
exactly the pages of its size, each to a frame of its own. -/
structure Housed (rest : Finset (Nat × Nat)) (slots : Set Nat) (s : State) (p : SleepWakeup.Slot)
    (t : Tree) : Prop where
  used : (s.base.proc p).state ≠ .unused
  tree : s.tree p = some t
  stored : ∃ others, Stored rest slots others s.store t
  pooled : ∀ x u, t.addr x = some u → u < p2v initKernmap
  frames : ∀ x f, frameAt t.entries x = some f → f ∈ s.base.vm.pages
  once : ∀ x y f, frameAt t.entries x = some f → frameAt t.entries y = some f → x = y
  space : Space t.entries (s.base.proc p).sz
  full : ∀ n, n * pteSz < (s.base.proc p).sz → (lookup t.entries (page n)).isSome
  small : (s.base.proc p).sz ≤ uaddrSz

/-- What a call that returns -1 leaves: the address space of the caller, the free blocks of the heap
and the free list, which may lack the tables `added`. -/
structure Unharmed (s s' : State) (p : SleepWakeup.Slot) (added : List Nat) : Prop where
  caller : Untouched s.base s'.base p
  blocks : freeExtents bootRegion s'.base.vm.heap = freeExtents bootRegion s.base.vm.heap
  tables : (added ++ s'.freelist).Perm s.freelist

section
variable {rest rest' : Finset (Nat × Nat)} {slots : Set Nat} {others : Finset Nat} {k k' : Store}
  {t t' : Tree} {s s' : State} {p : SleepWakeup.Slot} {n : Nat}

/-- The tables that `t` has in one store it has in another. -/
theorem Stored.elsewhere (stored : Stored rest slots others k t)
    (stocked : Stocked rest' slots k') (used : ∀ x u, t.addr x = some u → u ∈ k'.tables) :
    ∃ others', Stored rest' slots others' k' t := by
  have rooted := stored.rooted
  obtain ⟨others', ledger⟩ := exists_standIn used fun x y u hasX hasY =>
    Sum.inr.inj (rooted.ledger.once (.inr x) (.inr y) u hasX hasY)
  exact ⟨others', stocked, rooted.pmd, rooted.pt, rooted.wide, rooted.deep, ledger⟩

/-- A ledger of frames for a tree that has its frames to itself. -/
theorem Stored.lodge (stored : Stored rest slots others k t)
    (frames : ∀ x f, frameAt t.entries x = some f → f ∈ k.vm.pages)
    (once : ∀ x y f, frameAt t.entries x = some f → frameAt t.entries y = some f → x = y) :
    ∃ own, Lodged rest slots others (Sum.inr : Entry → Nat ⊕ Entry) own k t := by
  obtain ⟨others', ledger⟩ := exists_standIn frames once
  exact ⟨_, stored, ledger, fun x => rfl⟩

section
variable (housed : Housed rest slots s p t)
include housed

theorem Housed.lodged :
    ∃ others own, Lodged rest slots others (Sum.inr : Entry → Nat ⊕ Entry) own s.store t := by
  obtain ⟨others, stored⟩ := housed.stored
  exact ⟨others, stored.lodge housed.frames housed.once⟩

theorem Housed.stocked : Stocked rest slots s.store := by
  obtain ⟨others, stored⟩ := housed.stored
  exact stored.stocked

theorem Housed.pgdir : (s.base.proc p).pgdir = some t.entries ∧ s.homes p = some t.toHomes := by
  have tree := housed.tree
  rw [State.tree] at tree
  obtain ⟨d, pgdir, tree⟩ := Option.bind_eq_some_iff.mp tree
  obtain ⟨h, homes, tree⟩ := Option.bind_eq_some_iff.mp tree
  cases tree
  exact ⟨pgdir, homes⟩

end

/-- The number of frames of the pages of the caller. -/
def held (d : Pgd) (sz : Nat) : Nat := (framesOf d (pagesFrom 0 sz)).card

theorem held_le_pages (d : Pgd) (sz : Nat) : held d sz ≤ pagesFrom 0 sz := by
  refine (toFinset_card_le _).trans ((length_filterMap_le _ _).trans ?_)
  rw [length_range]

section
variable (housed : Housed rest slots s p t)
include housed

theorem Housed.covered : Covered s.store t.entries (s.base.proc p).sz := by
  intro n below
  obtain ⟨e, entry⟩ := Option.isSome_iff_exists.mp (housed.full n below)
  have low : n * pteSz < uaddrSz := below.trans_le housed.small
  have frame : frameAt t.entries (page n) = some (p2v e.pa) := by
    rw [frameAt, entry]
    rfl
  refine ⟨e, ?_, housed.frames _ _ frame⟩
  rw [getPte_eq, entryOf_user low, Nat.mul_div_cancel n (by decide), entry]

theorem Housed.framesOf_subset :
    framesOf t.entries (pagesFrom 0 (s.base.proc p).sz) ⊆ s.base.vm.pages :=
  (covered_iff housed.covered s.store).mp housed.covered

theorem Housed.held_le : held t.entries (s.base.proc p).sz ≤ s.base.vm.pages.card :=
  Finset.card_le_card housed.framesOf_subset

end

/-- The process `p` of `s` without the others, in the store `k`. -/
def State.alone (s : State) (p : SleepWakeup.Slot) (k : Store) : State :=
  ⟨⟨k.vm, Function.update (fun _ => { s.base.proc p with state := .unused }) p (s.base.proc p),
    s.base.initproc⟩, k.freelist, k.tables, Function.update (fun _ => none) p (s.homes p)⟩

theorem alone_proc (s : State) (p : SleepWakeup.Slot) (k : Store) :
    (s.alone p k).base.proc p = s.base.proc p := by
  simp [State.alone]

/-- A state in which the process `p` is as in `s` and alone, with all memory clear, and `n` frames
are left in a heap of frames. -/
structure Cornered (s : State) (p : SleepWakeup.Slot) (n : Nat) (s' : State) : Prop where
  list : s'.freelist = s.freelist
  same : s'.base.proc p = s.base.proc p
  idle : ∀ q, q ≠ p → (s'.base.proc q).state = .unused
  clear : s'.base.vm.mem = fun _ => 0
  tops : ∀ e ∈ s'.base.vm.live, e.2 = maxOrd
  left : s'.base.vm.live.card + n = bootRegion.frameCount

theorem Housed.corner (housed : Housed rest slots s p t)
    (room : n + held t.entries (s.base.proc p).sz ≤ bootRegion.frameCount) :
    ∃ s', Housed ∅ slots s' p t ∧ Cornered s p n s' := by
  obtain ⟨others, stored⟩ := housed.stored
  obtain ⟨pgdir, homes⟩ := housed.pgdir
  have stocked : Stocked rest slots
      { s.store with vm := { s.base.vm with mem := fun _ => 0 } } :=
    ⟨⟨stored.stocked.sound.heap, stored.stocked.sound.live, stored.stocked.sound.apart⟩,
      stored.stocked.apart, stored.stocked.low, stored.stocked.pool, stored.stocked.nodup,
      stored.stocked.idle⟩
  obtain ⟨k', arranged⟩ := stocked.arrange housed.framesOf_subset room
  have same := alone_proc s p k'
  refine ⟨s.alone p k', ?_, arranged.freelist, same, fun q other => ?_, arranged.mem,
    arranged.tops, arranged.left⟩
  · constructor
    case used => exact same ▸ housed.used
    case tree =>
      rw [State.tree, same, State.alone]
      dsimp only
      rw [Function.update_self]
      exact housed.tree
    case stored =>
      have supply : Stocked ∅ slots k' := arranged.stocked
      have used : ∀ x u, t.addr x = some u → u ∈ k'.tables := by
        intro x u has
        rw [arranged.tables]
        exact Finset.mem_filter.mpr
          ⟨stored.rooted.ledger.live (.inr x) u has, housed.pooled x u has⟩
      exact stored.elsewhere supply used
    case pooled => exact housed.pooled
    case frames =>
      intro x f frame
      obtain ⟨e, entry, rfl⟩ := Option.map_eq_some_iff.mp frame
      obtain ⟨n, rfl, below⟩ := housed.space.mapped x (by rw [entry]; exact Option.some_ne_none e)
      refine arranged.kept (mem_framesOf.mpr ⟨n, (lt_pagesFrom_zero n _).mpr below, e, ?_, rfl⟩)
      rw [getPte_eq, entryOf_user (below.trans_le housed.small), Nat.mul_div_cancel n (by decide),
        entry]
    case once => exact housed.once
    case space => exact same ▸ housed.space
    case full => exact same ▸ housed.full
    case small => exact same ▸ housed.small
  · simp [State.alone, other]

/-- The pages of the caller are as before if its entries and the bytes in use are. -/
theorem Housed.untouched (housed : Housed rest slots s p t)
    (sz : (s'.base.proc p).sz = (s.base.proc p).sz)
    (pgdir : (s'.base.proc p).pgdir = some t'.entries)
    (entries : ∀ n, lookup t'.entries (page n) = lookup t.entries (page n))
    (bytes : Spares s.base.vm.pages s.base.vm s'.base.vm) : Untouched s.base s'.base p := by
  refine ⟨sz, fun n => ?_⟩
  rw [userPage_eq pgdir, userPage_eq housed.pgdir.1, entries]
  cases entry : lookup t.entries (page n) with
  | none => rw [Option.map_none, Option.map_none]
  | some e =>
    have frame : frameAt t.entries (page n) = some (p2v e.pa) := by
      rw [frameAt, entry]
      rfl
    exact congrArg (fun bs => some (e.ap, bs)) (bytes _ (housed.frames _ _ frame))

theorem Stocked.spares (stocked : Stocked rest slots k)
    (mem : ∀ x, Outside k.freelist x → x ∉ freeBytes bootRegion k.vm.heap →
      k'.vm.mem x = k.vm.mem x) : Spares k.vm.pages k.vm k'.vm := by
  intro q used
  refine read_eq fun x inside => ?_
  obtain ⟨outside, busy⟩ := stocked.in_use used inside
  exact mem x outside busy

/-! ### `fork` -/

/-- `fork` returns, and leaves everything as it was if it returns -1. -/
def ForkReports (s : State) (p : SleepWakeup.Slot) : Prop :=
  ∃ s' r, fork s p = .ok (s', r) ∧ (r = none → Unharmed s s' p [])

/-- The tables that `fork` can come to need, after the frame for the kernel stack. -/
def forkTables (d : Pgd) (sz : Nat) : Nat :=
  if held d sz < bootRegion.frameCount then
    1 + lacking blank 0 (min (pagesFrom 0 sz) (bootRegion.frameCount - (held d sz + 1)))
  else 0

/-- `allocproc` returns and leaves the processes alone. -/
theorem allocproc_cases {s : UserMemory.State} (sound : Sound rest s.vm)
    (used : (s.proc p).state ≠ .unused) : ∃ b r, allocproc s = .ok (b, r) ∧ b.proc p = s.proc p ∧
      match r with
      | none => (b.vm = s.vm ∧ ∀ q, (s.proc q).state ≠ .unused) ∨
          allocPage s.vm = .ok (b.vm, none)
      | some np => p ≠ np ∧ ∃ mem, allocPage s.vm = .ok (b.vm, some mem) := by
  rw [allocproc]
  split
  case h_1 none =>
    refine ⟨s, .none, rfl, rfl, .inl ⟨rfl, fun q => ?_⟩⟩
    simpa using find?_eq_none.mp none q (mem_finRange q)
  case h_2 q found =>
    have idle : (s.proc q).state = .unused := by simpa using find?_some found
    have other : p ≠ q := by
      rintro rfl
      exact used idle
    obtain ⟨⟨vm, page⟩, taken⟩ := allocPage_returns sound
    rw [taken, ok_bind]
    cases page with
    | none =>
      exact ⟨_, _, rfl, by simp [UserMemory.State.setProc, other], .inr rfl⟩
    | some mem =>
      exact ⟨_, _, rfl, by simp [UserMemory.State.setProc, other], other, mem, rfl⟩

theorem Released.unharmed (released : Released s.store s'.store)
    (housed : Housed rest slots s p t) (same : s'.base.proc p = s.base.proc p) :
    Unharmed s s' p [] := by
  have spares : Spares s.store.vm.pages s.store.vm s'.store.vm := housed.stocked.spares released.mem
  constructor
  case caller => exact housed.untouched (by rw [same]) (same ▸ housed.pgdir.1) (fun _ => rfl) spares
  case blocks => exact released.blocks
  case tables => exact released.freelist

theorem Stocked.sameFrames {v : Vm} (stocked : Stocked rest slots k)
    (sound : Sound (rest ∪ heapTables k.tables) v) (pages : v.pages = k.vm.pages)
    (mem : v.mem = k.vm.mem) : Released k { k with vm := v } :=
  have restocked : Stocked rest slots { k with vm := v } :=
    ⟨sound, stocked.apart, stocked.low, stocked.pool, stocked.nodup, stocked.idle⟩
  stocked.released restocked pages rfl fun x _ _ => congrFun mem x

theorem fork_reports (housed : Housed rest slots s p t)
    (enough : forkTables t.entries (s.base.proc p).sz ≤ s.freelist.length) : ForkReports s p := by
  have stocked := housed.stocked
  obtain ⟨b, r, run, same, found⟩ := allocproc_cases stocked.sound housed.used
  cases r with
  | none =>
    refine ⟨{ s with base := b }, none, ?_, fun _ => ?_⟩
    · rw [fork, run, ok_bind]
      rfl
    · refine Released.unharmed ?_ housed same
      rcases found with ⟨vm, -⟩ | taken
      · exact stocked.sameFrames (vm ▸ stocked.sound) (congrArg _ vm) (congrArg _ vm)
      · obtain ⟨sound, pages⟩ := (allocPage_ends stocked.sound).of_ok taken
        exact stocked.sameFrames sound pages (allocPage_mem taken)
  | some np =>
    obtain ⟨other, mem, taken⟩ := found
    obtain ⟨sound, fresh, pages, -⟩ := (allocPage_ends stocked.sound).of_ok taken
    have stocked' : Stocked rest slots ⟨b.vm, s.freelist, s.tables⟩ := stocked.taken taken
    have covered : Covered ⟨b.vm, s.freelist, s.tables⟩ t.entries (s.base.proc p).sz := fun n below =>
      (housed.covered n below).imp fun e h => ⟨h.1, pages ▸ Finset.mem_insert_of_mem h.2⟩
    have count : b.vm.pages.card = s.base.vm.pages.card + 1 := by
      rw [pages]
      exact Finset.card_insert_of_notMem fresh
    have few : b.vm.pages.card ≤ bootRegion.frameCount := few_pages sound
    have least := housed.held_le
    rw [forkTables, if_pos (by omega)] at enough
    obtain ⟨k', res, copied, stocked'', post⟩ := copyuvm_ok stocked' covered (le_trans
      (Nat.add_le_add_left (lacking_mono _ _ (min_le_min_left _ (Nat.sub_le_sub_left
        (by dsimp only; omega) _))) _) enough)
    have pgdir : (b.proc p).pgdir = some t.entries := same ▸ housed.pgdir.1
    rw [← same] at copied
    cases res with
    | none =>
      obtain ⟨s', ran, undone⟩ := fork_undone stocked run pgdir copied stocked'' post
      exact ⟨s', none, ran, fun _ => undone.store.unharmed housed (undone.others p other).1⟩
    | some t' =>
      obtain ⟨s', ran⟩ : ∃ s', fork s p = .ok (s', some np) := by
        rw [fork, run, ok_bind]
        dsimp only
        rw [pgdir]
        dsimp only
        rw [copied, ok_bind]
        exact ⟨_, rfl⟩
      exact ⟨s', some np, ran, by simp⟩

theorem exists_other (p : SleepWakeup.Slot) : ∃ q, q ≠ p := by
  by_cases first : p = firstSlot
  · exact ⟨⟨1, by decide⟩, fun h => absurd (first ▸ h) (by decide)⟩
  · exact ⟨firstSlot, Ne.symm first⟩

theorem fork_starves (housed : Housed rest slots s p t)
    (short : s.freelist.length < forkTables t.entries (s.base.proc p).sz) :
    ∃ s', Housed ∅ slots s' p t ∧ s'.freelist = s.freelist ∧
      s'.base.proc p = s.base.proc p ∧ fork s' p = .error (.panic "oom: kpt_alloc") := by
  rw [forkTables] at short
  split at short
  case isFalse => exact absurd short (Nat.not_lt_zero _)
  case isTrue room =>
    obtain ⟨n, most, lacks, before⟩ := exists_first (f := fun n => 1 + lacking blank 0 n) short
    obtain ⟨inPages, inFrames⟩ := le_min_iff.mp most
    obtain ⟨s', housed', cornered⟩ := housed.corner (n := n + 1) (by omega)
    refine ⟨s', housed', cornered.list, cornered.same, ?_⟩
    have stocked := housed'.stocked
    obtain ⟨b, r, run, same, found⟩ := allocproc_cases stocked.sound housed'.used
    obtain ⟨v, mem, taken, tops, card⟩ := stocked.some_page cornered.tops
      (cornered.left ▸ Nat.lt_add_of_pos_right (Nat.succ_pos n))
    have taken' : allocPage s'.base.vm = .ok (v, some mem) := taken
    cases r with
    | none =>
      rcases found with ⟨-, busy⟩ | none
      · obtain ⟨q, other⟩ := exists_other p
        exact absurd (cornered.idle q other) (busy q)
      · rw [taken'] at none
        cases none
    | some np =>
      obtain ⟨-, mem', page⟩ := found
      rw [taken'] at page
      obtain ⟨isVm, -⟩ := Prod.mk.inj (Except.ok.inj page)
      have stocked' : Stocked ∅ slots ⟨v, s'.freelist, s'.tables⟩ := stocked.taken taken
      obtain ⟨-, -, pages, -⟩ := (allocPage_ends stocked.sound).of_ok taken
      have covered : Covered ⟨v, s'.freelist, s'.tables⟩ t.entries (s'.base.proc p).sz :=
        fun n below => (housed'.covered n below).imp fun e h =>
          ⟨h.1, pages ▸ Finset.mem_insert_of_mem h.2⟩
      rw [← cornered.list] at lacks before
      rw [← cornered.same] at inPages
      have left : v.live.card + n = bootRegion.frameCount := by
        rw [card, ← cornered.left]
        exact Nat.add_right_comm ..
      have oom := copyuvm_starves stocked' covered tops left inPages lacks before
      rw [fork, run, ok_bind]
      dsimp only
      rw [same, housed'.pgdir.1]
      dsimp only
      rw [← isVm, oom]
      rfl

/-! ### `sbrk` -/

/-- `sbrk` returns, and leaves everything as it was if it returns -1, but for tables that it has added
to the page table of the caller. -/
def SbrkReports (s : State) (p : SleepWakeup.Slot) (n : Int) : Prop :=
  ∃ s' ok, growproc s p n = .ok (s', ok) ∧ (ok = false → ∃ t added, s'.tree p = some t ∧
    (∀ u ∈ added, ∃ x, t.addr x = some u) ∧ Unharmed s s' p added)

/-- The size that `growproc` asks for. -/
def sbrkGoal (sz : Nat) (n : Int) : Nat := (((sz : Int) + n) % 2 ^ 32).toNat

/-- The tables that `sbrk` can come to need. -/
def sbrkTables (d : Pgd) (sz : Nat) (n : Int) : Nat :=
  if sbrkGoal sz n < uaddrSz then
    lacking d (alignUp sz pteSz) (min (pagesFrom (alignUp sz pteSz) (sbrkGoal sz n))
      (bootRegion.frameCount - held d sz))
  else 0

theorem set_proc (s : State) (k : Store) (x : Proc) (t : Tree) :
    (s.set k p x (some t)).base.proc p = { x with pgdir := some t.entries } := by
  simp [State.set, UserMemory.State.setProc]

theorem set_tree (s : State) (k : Store) (x : Proc) (t : Tree) :
    (s.set k p x (some t)).tree p = some t := by
  rw [State.tree, set_proc]
  simp [State.set]

theorem Stored.added (stored : Stored rest slots others k t)
    (stored' : Stored rest slots others k' t') (fewer : k'.freelist ⊆ k.freelist) :
    ∃ added, (∀ u ∈ added, ∃ x, t'.addr x = some u) ∧ (added ++ k'.freelist).Perm k.freelist := by
  refine ⟨k.freelist.filter fun u => u ∉ k'.freelist, fun u listed => ?_, ?_⟩
  · obtain ⟨free, gone⟩ := mem_filter.mp listed
    have slot := (stored.stocked.pool u).mpr (.inl free)
    obtain ⟨used, -⟩ := ((stored'.stocked.pool u).mp slot).resolve_left (of_decide_eq_true gone)
    obtain ⟨o, has⟩ := stored'.rooted.ledger.kept u used
    rcases o with w | x
    · refine absurd (stored.rooted.ledger.live (.inl w) u has) (stored.stocked.idle u free)
    · exact ⟨x, has⟩
  · refine (perm_ext_iff_of_nodup ?_ stored.stocked.nodup).mpr fun u => ?_
    · refine Nodup.append (stored.stocked.nodup.filter _) stored'.stocked.nodup ?_
      exact fun u gone free => of_decide_eq_true (mem_filter.mp gone).2 free
    · rw [mem_append, mem_filter]
      constructor
      · rintro (⟨free, -⟩ | free)
        · exact free
        · exact fewer free
      · intro free
        by_cases still : u ∈ k'.freelist
        · exact .inr still
        · exact .inl ⟨free, decide_eq_true still⟩

/-- The ledger of frames is as it was if the entries are. -/
theorem Lodged.same_pages {Ω : Type} {site : Entry → Ω} {own own' : Ω → Option Nat}
    (lodged : Lodged rest slots others site own k t)
    (lodged' : Lodged rest slots others site own' k' t') (beside : Beside site own own')
    (entries : lookup t'.entries = lookup t.entries) : k'.vm.pages = k.vm.pages := by
  have same : own' = own := by
    funext o
    by_cases here : ∃ x, site x = o
    · obtain ⟨x, rfl⟩ := here
      rw [lodged'.view, lodged.view, frameAt, frameAt, entries]
    · exact beside o fun x is => here ⟨x, is⟩
  exact lodged.balanced.unique (same ▸ lodged'.balanced)

/-- `allocuvm` took back what it had added. -/
theorem Housed.grow_failed {Ω : Type} {site : Entry → Ω} {own own' : Ω → Option Nat} {goal : Nat}
    (housed : Housed rest slots s p t) (lodged : Lodged rest slots others site own s.store t)
    (lodged' : Lodged rest slots others site own' k' t') (beside : Beside site own own')
    (bounds : Bounds s.store k')
    (without : Without t.entries t'.entries (pagesIn (alignUp (s.base.proc p).sz pteSz) goal)) :
    ∃ added, (∀ u ∈ added, ∃ x, t'.addr x = some u) ∧
      Unharmed s (s.set k' p (s.base.proc p) (some t')) p added := by
  have entries : lookup t'.entries = lookup t.entries := by
    funext x
    by_cases inGap : ∃ n ∈ pagesIn (alignUp (s.base.proc p).sz pteSz) goal, x = page n
    · obtain ⟨n, inside, rfl⟩ := inGap
      rw [without.gone n inside]
      by_contra present
      obtain ⟨m, same, below⟩ := housed.space.mapped _ (Ne.symm present)
      rw [← page_inj same, ← page_lt_alignUp] at below
      exact absurd inside.1 (Nat.not_le.mpr below)
    · exact without.kept x fun n inside is => inGap ⟨n, inside, is⟩
  obtain ⟨added, own, perm⟩ := lodged.toStored.added lodged'.toStored bounds.fewer
  refine ⟨added, own, ?_, ?_, perm⟩
  · refine housed.untouched ?_ ?_ (fun n => congrFun entries _) ?_
    · rw [set_proc]
    · rw [set_proc]
    · exact housed.stocked.spares bounds.mem
  · exact lodged.stocked.same_blocks lodged'.stocked (lodged.same_pages lodged' beside entries)
      bounds.blocks

theorem Housed.unharmed_self (housed : Housed rest slots s p t) :
    Unharmed s (s.set s.store p (s.base.proc p) (some t)) p [] where
  caller := housed.untouched (by rw [set_proc]) (by rw [set_proc]) (fun _ => rfl) fun _ _ => rfl
  blocks := rfl
  tables := .refl _

theorem growproc_eq (tree : s.tree p = some t) (n : Int) : growproc s p n = if n > 0 then
      allocuvm s.store t (s.base.proc p).sz (sbrkGoal (s.base.proc p).sz n) >>= fun r =>
        if r.2.2 = 0 then .ok (s.set r.1 p (s.base.proc p) (some r.2.1), false)
        else .ok (s.set r.1 p { s.base.proc p with sz := r.2.2 } (some r.2.1), true)
    else if n < 0 then
      deallocuvm s.store t (s.base.proc p).sz (sbrkGoal (s.base.proc p).sz n) >>= fun r =>
        if r.2.2 = 0 then .ok (s.set r.1 p (s.base.proc p) (some r.2.1), false)
        else .ok (s.set r.1 p { s.base.proc p with sz := r.2.2 } (some r.2.1), true)
    else .ok (s, true) := by
  rw [growproc, tree]
  rfl

section
variable (housed : Housed rest slots s p t)
include housed

theorem sbrk_grows {n : Int} (grows : 0 < n) (int : n < 2 ^ 31)
    (enough : sbrkTables t.entries (s.base.proc p).sz n ≤ s.freelist.length) :
    SbrkReports s p n := by
  have size : uaddrSz = 2 ^ 28 := rfl
  have small := housed.small
  rw [SbrkReports, growproc_eq housed.tree, if_pos grows, allocuvm]
  rw [sbrkTables] at enough
  by_cases large : sbrkGoal (s.base.proc p).sz n ≥ uaddrSz
  · rw [if_pos large, ok_bind, if_pos rfl]
    exact ⟨_, false, rfl, fun _ => ⟨t, [], set_tree .., nofun, housed.unharmed_self⟩⟩
  rw [if_neg large]
  rw [if_pos (Nat.lt_of_not_le large)] at enough
  by_cases less : sbrkGoal (s.base.proc p).sz n < (s.base.proc p).sz
  · rw [if_pos less, ok_bind, if_neg (by dsimp only; omega)]
    exact ⟨_, true, rfl, nofun⟩
  rw [if_neg less]
  have positive : sbrkGoal (s.base.proc p).sz n ≠ 0 := by
    rw [sbrkGoal] at less ⊢
    omega
  obtain ⟨others, own, lodged⟩ := housed.lodged
  obtain ⟨k', t', r, own', ran, bounds, lodged', beside, ended⟩ :=
    allocFrom_ok Sum.inr_injective lodged
      (Space.alignUp.mpr housed.space) (alignUp_dvd ..) le_rfl (Nat.lt_of_not_le large)
      (le_trans (lacking_mono _ _ (min_le_min_left _ (Nat.sub_le_sub_left housed.held_le _))) enough)
  rw [ran, ok_bind]
  dsimp only
  rcases ended with ⟨rfl, -⟩ | ⟨rfl, without, -⟩
  · rw [if_neg positive]
    exact ⟨_, true, rfl, nofun⟩
  · rw [if_pos rfl]
    obtain ⟨added, own, unharmed⟩ := housed.grow_failed lodged lodged' beside bounds without
    exact ⟨_, false, rfl, fun _ => ⟨t', added, set_tree .., own, unharmed⟩⟩

theorem sbrk_shrinks {n : Int} (shrinks : n < 0)
    (int : -2 ^ 31 ≤ n) (keeps : ((s.base.proc p).sz : Int) + n ≠ 0) : SbrkReports s p n := by
  have size : uaddrSz = 2 ^ 28 := rfl
  have small := housed.small
  rw [SbrkReports, growproc_eq housed.tree, if_neg (by omega), if_pos shrinks]
  by_cases above : sbrkGoal (s.base.proc p).sz n ≥ (s.base.proc p).sz
  · have same : deallocuvm s.store t (s.base.proc p).sz (sbrkGoal (s.base.proc p).sz n) =
        .ok (s.store, t, (s.base.proc p).sz) := by
      rw [deallocuvm, UserMemory.deallocuvm, if_pos above]
      rfl
    rw [same, ok_bind]
    by_cases empty : (s.base.proc p).sz = 0
    · rw [if_pos empty]
      exact ⟨_, false, rfl, fun _ => ⟨t, [], set_tree .., by simp, housed.unharmed_self⟩⟩
    · rw [if_neg empty]
      exact ⟨_, true, rfl, by simp⟩
  · have positive : sbrkGoal (s.base.proc p).sz n ≠ 0 := by
      rw [sbrkGoal] at above ⊢
      omega
    obtain ⟨others, own, lodged⟩ := housed.lodged
    obtain ⟨k', d, own', ran, -⟩ := deallocuvm_ok Sum.inr_injective lodged housed.space small
      (Nat.lt_of_not_le above)
    rw [ran, ok_bind, if_neg positive]
    exact ⟨_, true, rfl, by simp⟩

theorem sbrk_reports {n : Int}
    (int : -2 ^ 31 ≤ n ∧ n < 2 ^ 31) (keeps : n < 0 → ((s.base.proc p).sz : Int) + n ≠ 0)
    (enough : sbrkTables t.entries (s.base.proc p).sz n ≤ s.freelist.length) :
    SbrkReports s p n := by
  rcases lt_trichotomy n 0 with shrinks | rfl | grows
  · exact sbrk_shrinks housed shrinks int.1 (keeps shrinks)
  · refine ⟨s, true, ?_, nofun⟩
    rw [growproc_eq housed.tree, if_neg (lt_irrefl 0), if_neg (lt_irrefl 0)]
  · exact sbrk_grows housed grows int.2 enough

/-- Shrinking to nothing returns -1 without the pages. -/
theorem sbrk_to_nothing {n : Int} (shrinks : n < 0)
    (nothing : ((s.base.proc p).sz : Int) + n = 0) : ¬ SbrkReports s p n := by
  rintro ⟨s', ok, run, reports⟩
  have zero : sbrkGoal (s.base.proc p).sz n = 0 := by
    rw [sbrkGoal, nothing]
    rfl
  have some : 0 < (s.base.proc p).sz := by omega
  obtain ⟨others, own, lodged⟩ := housed.lodged
  obtain ⟨k', d, own', ran, -, -, -, -, -, without, -⟩ :=
    deallocuvm_ok Sum.inr_injective lodged housed.space housed.small some
  rw [growproc_eq housed.tree, if_neg (by omega), if_pos shrinks, zero, ran, ok_bind, if_pos rfl] at run
  cases run
  obtain ⟨_, added, -, -, unharmed⟩ := reports rfl
  have gone : lookup d (page 0) = none := without.gone 0 ⟨Nat.le_of_eq rfl, by rwa [Nat.zero_mul]⟩
  have first := unharmed.caller.pages 0
  rw [userPage_eq (d := d) (by rw [set_proc]), gone, userPage_eq housed.pgdir.1] at first
  have present := housed.full 0 (by rwa [Nat.zero_mul])
  cases entry : lookup t.entries (page 0) with
  | none =>
    rw [entry] at present
    cases present
  | some e =>
    rw [entry, Option.map_none, Option.map_some] at first
    cases first

theorem sbrk_starves {n : Int} (int : -2 ^ 31 ≤ n)
    (short : s.freelist.length < sbrkTables t.entries (s.base.proc p).sz n) :
    ∃ s', Housed ∅ slots s' p t ∧ s'.freelist = s.freelist ∧
      s'.base.proc p = s.base.proc p ∧ growproc s' p n = .error (.panic "oom: kpt_alloc") := by
  have size : uaddrSz = 2 ^ 28 := rfl
  have small := housed.small
  rw [sbrkTables] at short
  split at short
  case isFalse => exact absurd short (Nat.not_lt_zero _)
  case isTrue low =>
    obtain ⟨m, most, lacks, before⟩ :=
      exists_first (f := lacking t.entries (alignUp (s.base.proc p).sz pteSz)) short
    obtain ⟨inPages, inFrames⟩ := le_min_iff.mp most
    cases m with
    | zero => exact absurd lacks (Nat.not_lt_zero _)
    | succ m =>
      have least := housed.held_le
      have few := few_pages housed.stocked.sound
      have above := lt_of_pagesFrom (alignUp_dvd ..) (Nat.zero_lt_of_lt inPages)
      have bound := le_alignUp (show 0 < pteSz by decide) (s.base.proc p).sz
      have grows : 0 < n := by
        rw [sbrkGoal] at above low
        omega
      obtain ⟨s', housed', cornered⟩ := housed.corner (n := m + 1)
        (Nat.add_le_of_le_sub (least.trans few) inFrames)
      refine ⟨s', housed', cornered.list, cornered.same, ?_⟩
      obtain ⟨others, own, lodged⟩ := housed'.lodged
      have space := Space.alignUp.mpr housed'.space
      have enough := before m (Nat.lt_succ_self m)
      rw [← cornered.list] at lacks enough
      rw [← cornered.same] at *
      rw [growproc_eq housed'.tree, if_pos grows, allocuvm, if_neg (Nat.not_le.mpr low),
        if_neg (by omega), allocFrom_starves Sum.inr_injective lodged space (alignUp_dvd ..) low
          cornered.tops cornered.left inPages enough lacks]
      rfl

end

end

end TableMemory
