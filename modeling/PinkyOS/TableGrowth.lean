import PinkyOS.ExecPanics
import PinkyOS.FrameSupply

/-!
# Growing an address space (`allocuvm`)

Pages are added one by one, each with a frame and with the tables that it lacks. The loop returns
as long as the boot free list has these tables, and takes back what it added when the heap has no
frame left. When the free list is too short and the heap runs out at the same page, `kpt_alloc`
panics.
-/
namespace TableMemory
open MemoryLayout BuddyHeap UserMemory Ledger PageTablePool PageTableWords

/-- If the live blocks are all frames, there are not `n` more. -/
def Scarce (k : Store) (n : Nat) : Prop :=
  (∀ e ∈ k.vm.live, e.2 = maxOrd) → bootRegion.frameCount < k.vm.live.card + n

/-- The tree has got `n` pages from `a` on. -/
structure Grown (k : Store) (t : Tree) (a n : Nat) (k' : Store) (t' : Tree) : Prop where
  card : k'.vm.pages.card = k.vm.pages.card + n
  tops : (∀ e ∈ k.vm.live, e.2 = maxOrd) → ∀ e ∈ k'.vm.live, e.2 = maxOrd
  live : k'.vm.live.card = k.vm.live.card + n
  length : k'.freelist.length + lacking t.entries a n = k.freelist.length
  later : ∀ m, lacking t'.entries (a + n * pteSz) m + lacking t.entries a n =
    lacking t.entries a (n + m)
  space : Space t'.entries (a + n * pteSz)
  image : Image t.entries a → Image t'.entries (a + n * pteSz)

/-- What `kpt_alloc` and `alloc_page` may change while nothing is given back: the blocks of the heap
that are tables and the bytes in use stay. -/
structure Bounds (k k' : Store) : Prop where
  fewer : k'.freelist ⊆ k.freelist
  blocks : heapTables k'.tables = heapTables k.tables
  mem : ∀ x, Outside k.freelist x → x ∉ freeBytes bootRegion k.vm.heap →
    k'.vm.mem x = k.vm.mem x

section
variable {rest : Finset (Nat × Nat)} {slots : Set Nat} {others : Finset Nat} {k k₁ k' : Store}
  {t t₁ t' : Tree} {a n p : Nat} {v : Vm} {bs : List UInt8}

theorem lacking_zero (d : Pgd) (a : Nat) : lacking d a 0 = 0 := rfl

theorem Grown.refl (k : Store) (space : Space t.entries a) : Grown k t a 0 k t where
  card := rfl
  tops h := h
  live := rfl
  length := rfl
  later m := by rw [Nat.zero_mul, Nat.add_zero, lacking_zero, Nat.zero_add, Nat.add_zero]
  space := by rwa [Nat.zero_mul]
  image h := by rwa [Nat.zero_mul]

theorem allocPage_live (sound : Sound rest v) {v' : Vm} (run : allocPage v = .ok (v', some p)) :
    v'.live = insert (p, pteShift) v.live ∧ v'.live.card = v.live.card + 1 := by
  obtain ⟨sound', fresh, pages, -⟩ := (allocPage_ends sound).of_ok run
  rw [allocPage] at run
  split at run
  case h_1 heap q taken =>
    cases run
    refine ⟨rfl, Finset.card_insert_of_notMem fun live => ?_⟩
    rcases (sound.live _).mp live with other | page
    · exact sound'.apart p (Finset.mem_insert_self ..) other
    · exact fresh page.2
  case h_2 => cases run
  case h_3 => cases run

/-- One page, and the `n` after it. -/
theorem Grown.next (sound : Sound rest k.vm) (run : allocPage k.vm = .ok (v, some p))
    (aligned : pteSz ∣ a) (low : a < uaddrSz) {pa : Nat}
    (mapped : UserMemory.mappages t.entries a pteSz pa apRw10 = .ok t₁.entries)
    (tables : ∀ n, lacking t₁.entries (a + pteSz) n =
      lacking (addTables t.entries a) (a + pteSz) n)
    (took : Took (missing t.entries a) { k with vm := v.write p bs } k₁)
    (grown : Grown k₁ t₁ (a + pteSz) n k' t') : Grown k t a (n + 1) k' t' := by
  obtain ⟨-, fresh, pages, -⟩ := (allocPage_ends sound).of_ok run
  obtain ⟨insert, count⟩ := allocPage_live sound run
  have size : a + pteSz + n * pteSz = a + (n + 1) * pteSz := by ring
  have live : k₁.vm.live = v.live := took.live
  constructor
  case card =>
    have pages' : k₁.vm.pages = v.pages := took.pages
    rw [grown.card, pages', pages, Finset.card_insert_of_notMem fresh]
    omega
  case tops =>
    intro tops
    refine grown.tops fun e listed => ?_
    rw [live, insert] at listed
    rcases Finset.mem_insert.mp listed with rfl | listed
    · rfl
    · exact tops e listed
  case live =>
    rw [grown.live, live, count]
    omega
  case length =>
    have length := took.length
    have length' := grown.length
    dsimp only at length
    rw [lacking_succ, ← tables]
    omega
  case later =>
    intro m
    have later := grown.later m
    rw [size] at later
    rw [lacking_succ, ← tables, Nat.add_right_comm n 1 m, lacking_succ, ← tables]
    omega
  case space => exact size ▸ grown.space
  case image => exact fun image => size ▸ grown.image (image.next aligned low pa mapped)

theorem Bounds.step (step : Step k k₁ p bs) (blocks : heapTables k₁.tables = heapTables k.tables)
    (bounds : Bounds k₁ k') : Bounds k k' where
  fewer := List.Subset.trans bounds.fewer step.list
  blocks := bounds.blocks.trans blocks
  mem x outside busy := by
    rw [bounds.mem x (step.outside outside) fun h => busy (step.less h),
      step.mem x outside fun h => busy (step.free h)]

theorem Scarce.step (sound : Sound rest k.vm) (run : allocPage k.vm = .ok (v, some p))
    (live : k₁.vm.live = v.live) (scarce : Scarce k₁ n) : Scarce k (n + 1) := by
  intro tops
  obtain ⟨insert, count⟩ := allocPage_live sound run
  have less := scarce fun e listed => by
    rw [live, insert] at listed
    rcases Finset.mem_insert.mp listed with rfl | listed
    · rfl
    · exact tops e listed
  rw [live, count] at less
  exact less.trans_eq (by rw [Nat.add_assoc, Nat.add_comm 1])

theorem Stocked.scarce (stocked : Stocked rest slots k) (run : allocPage k.vm = .ok (v, none))
    (n : Nat) : Scarce k (n + 1) := by
  intro tops
  by_contra left
  obtain ⟨v', p, run', -⟩ := stocked.some_page tops
    (Nat.lt_of_lt_of_le (Nat.lt_add_of_pos_right (Nat.succ_pos n)) (Nat.le_of_not_lt left))
  rw [run] at run'
  cases run'

theorem pagesFrom_done {sz : Nat} (aligned : pteSz ∣ a) (done : ¬ a < sz) : pagesFrom a sz = 0 := by
  by_contra more
  exact done (lt_of_pagesFrom aligned (Nat.pos_of_ne_zero more))

variable {Ω : Type} {site : Entry → Ω} {own : Ω → Option Nat} [DecidableEq Ω]

/-- The loop of `allocuvm`, while the free list has a table for each of the pages that there may be
a frame for. -/
theorem allocFrom_ok {oldsz newsz : Nat} (inj : Function.Injective site)
    (lodged : Lodged rest slots others site own k t) (space : Space t.entries a)
    (aligned : pteSz ∣ a) (low : alignUp oldsz pteSz ≤ a) (small : newsz < uaddrSz)
    (enough : lacking t.entries a
      (min (pagesFrom a newsz) (bootRegion.frameCount - k.vm.pages.card)) ≤ k.freelist.length) :
    ∃ k' t' r own', allocFrom k t a oldsz newsz = .ok (k', t', r) ∧ Bounds k k' ∧
      Lodged rest slots others site own' k' t' ∧ Beside site own own' ∧
      (r = newsz ∧ Grown k t a (pagesFrom a newsz) k' t' ∨
        r = 0 ∧ Without t.entries t'.entries (pagesIn (alignUp oldsz pteSz) newsz) ∧
          Space t'.entries oldsz ∧ Scarce k (pagesFrom a newsz)) := by
  fun_induction allocFrom k t a oldsz newsz generalizing own with
  | case1 k t a more fault run =>
    obtain ⟨r, ok⟩ := allocPage_returns lodged.stocked.sound
    rw [ok] at run
    cases run
  | case2 k t a more v run =>
    obtain ⟨sound, pages⟩ := (allocPage_ends lodged.stocked.sound).of_ok run
    have above : oldsz ≤ alignUp oldsz pteSz := le_alignUp (by decide) oldsz
    obtain ⟨k', d, own', ran, lodged', beside, tables, list, mem, without, cut⟩ :=
      deallocuvm_ok inj (lodged.setVm sound pages) space small.le
        (show oldsz < newsz by omega)
    refine ⟨k', _, 0, own', ?_, ⟨?_, ?_, ?_⟩, lodged', beside, .inr ⟨rfl, without, ?_, ?_⟩⟩
    · rw [ran, ok_bind]
      rfl
    · rw [list]
      exact List.Subset.refl _
    · rw [tables]
    · intro x _ _
      rw [mem]
      exact congrFun (allocPage_mem run) x
    · exact cut more.le (above.trans low)
    · rw [pagesFrom_succ aligned more]
      exact lodged.stocked.scarce run _
  | case3 k t a more v mem run ih =>
    have stocked := lodged.stocked
    obtain ⟨sound, fresh, pages, addr⟩ := (allocPage_ends stocked.sound).of_ok run
    have room := few_pages sound
    rw [pages, Finset.card_insert_of_notMem fresh] at room
    rw [pages_left aligned more room, lacking_succ] at enough
    obtain ⟨k₁, t₁, mapped, plain, space₁, entries, tables, took, own₁, lodged₁, beside⟩ :=
      lodged.next inj space aligned (more.trans small) run (List.replicate pteSz 0) apRw10 (by omega)
    have length := took.length
    have step := took.step stocked run List.length_replicate
    obtain ⟨k', t', r, own', ran, bounds, lodged', beside', ended⟩ := ih k₁ t₁ lodged₁ space₁
      (Nat.dvd_add aligned (Nat.dvd_refl pteSz)) (Nat.le_add_right_of_le low)
      (by rw [tables, step.card]; dsimp only at length; omega)
    refine ⟨k', t', r, own', ?_, bounds.step step took.blocks, lodged',
      fun o ho => (beside' o ho).trans (beside o ho), ?_⟩
    · rw [mapped, ok_bind]
      exact ran
    · rw [pagesFrom_succ aligned more]
      rcases ended with ⟨rfl, grown⟩ | ⟨rfl, without, cut, scarce⟩
      · exact .inl ⟨rfl, grown.next stocked.sound run aligned (more.trans small) plain tables took⟩
      · refine .inr ⟨rfl, ⟨without.gone, fun x outside => ?_⟩, cut,
          scarce.step stocked.sound run took.live⟩
        have inside : a / pteSz ∈ pagesIn (alignUp oldsz pteSz) newsz := by
          rw [mem_pagesIn, Nat.div_mul_cancel aligned]
          exact ⟨low, more⟩
        rw [without.kept x outside, entries, Function.update_of_ne (outside _ inside)]
  | case4 k t a done =>
    refine ⟨k, t, newsz, own, rfl, ⟨List.Subset.refl _, rfl, fun _ _ _ => rfl⟩, lodged,
      fun _ _ => rfl, .inl ⟨rfl, ?_⟩⟩
    rw [pagesFrom_done aligned done]
    exact .refl k space

omit [DecidableEq Ω] in
/-- One turn of the loop that gets a frame. -/
theorem allocFrom_turn {oldsz newsz : Nat} (more : a < newsz)
    (run : allocPage k.vm = .ok (v, some p)) :
    allocFrom k t a oldsz newsz = mappages { k with vm := v.write p (List.replicate pteSz 0) } t a
      pteSz (v2p p % 2 ^ 32) apRw10 >>= fun r => allocFrom r.1 r.2 (a + pteSz) oldsz newsz := by
  rw [allocFrom, if_pos more, run]

/-- The last frame is taken, and a table is missing. -/
theorem allocFrom_starves {oldsz newsz : Nat} (inj : Function.Injective site)
    (lodged : Lodged rest slots others site own k t) (space : Space t.entries a)
    (aligned : pteSz ∣ a) (small : newsz < uaddrSz) (tops : ∀ e ∈ k.vm.live, e.2 = maxOrd)
    (left : k.vm.live.card + (n + 1) = bootRegion.frameCount) (more : n < pagesFrom a newsz)
    (enough : lacking t.entries a n ≤ k.freelist.length)
    (short : k.freelist.length < lacking t.entries a (n + 1)) :
    allocFrom k t a oldsz newsz = .error (.panic "oom: kpt_alloc") := by
  induction n generalizing k t a own with
  | zero =>
    have inside := lt_of_pagesFrom aligned more
    obtain ⟨v, p, run, tops', card⟩ :=
      lodged.stocked.some_page tops (Nat.lt_of_lt_of_eq (Nat.lt_succ_self _) left)
    have first : alignDn a pteSz = a := Nat.div_mul_cancel aligned
    have stored := lodged.allocated run (List.replicate pteSz 0)
    have out : Exhausted v.heap :=
      ⟨_, stored.stocked.sound.heap.no_room tops' (card.trans left) isOrder_ptOrder⟩
    rw [lacking_succ] at short
    rw [allocFrom_turn inside run, mappages, one_page aligned, first, mapFrom,
      walkpgdir_starves stored out short]
    rfl
  | succ n ih =>
    have inside := lt_of_pagesFrom aligned (Nat.zero_lt_of_lt more)
    obtain ⟨v, p, run, tops', card⟩ := lodged.stocked.some_page tops
      (left ▸ Nat.lt_add_of_pos_right (Nat.succ_pos _))
    rw [lacking_succ] at enough short
    rw [pagesFrom_succ aligned inside] at more
    obtain ⟨k₁, t₁, mapped, -, space₁, -, tables, took, own₁, lodged₁, -⟩ :=
      lodged.next inj space aligned (inside.trans small) run (List.replicate pteSz 0) apRw10
        (by omega)
    have length := took.length
    have live : k₁.vm.live = v.live := took.live
    dsimp only at length
    rw [allocFrom_turn inside run, mapped, ok_bind]
    dsimp only
    refine ih lodged₁ space₁ (Nat.dvd_add aligned (Nat.dvd_refl pteSz)) (live ▸ tops') ?_
      (Nat.lt_of_succ_lt_succ more) ?_ ?_
    · rw [live, card, ← left, Nat.add_assoc, Nat.add_comm 1]
    · rw [tables]
      omega
    · rw [tables]
      omega

end

end TableMemory
