import PinkyOS.OutOfMemory

/-!
# Running out of memory (`exec`)

`exec` builds the new image beside the old one, segment by segment, and discards it when a frame
cannot be had. How large the image gets is up to the file; the tables that it takes up to that size
must be in the boot free list.
-/
namespace TableMemory
open MemoryLayout BuddyHeap UserMemory Ledger PageTablePool PageTableWords

/-- With memory enough, `exec` comes to ask for an image of size `top` from the header at `off` on,
with `n` headers to come and an image of size `sz`. -/
def ReachesFrom (file : File) : Nat → Nat → Nat → Nat → Prop
  | 0, _, sz, top => top = alignUp sz pteSz + 2 * pteSz ∧ top < uaddrSz
  | n + 1, off, sz, top => ∃ ph, header file off = some ph ∧
      if ph.type ≠ 1 then ReachesFrom file n (off + sizeofProghdr) sz top
      else ph.filesz ≤ ph.memsz ∧ grown sz ph.top ≠ 0 ∧ (top = grown sz ph.top ∨
        LoadsFrom file (ph.off % 2 ^ 32) ph.length 0 ∧
          ReachesFrom file n (off + sizeofProghdr) (grown sz ph.top) top)

/-- With memory enough, `exec` comes to ask for an image of size `top`. -/
def Reaches (prog : Program) (top : Nat) : Prop :=
  ∃ file, prog.file = some file ∧
    let read := file 0 sizeofElfhdr
    let elf := read.getD prog.junk
    sizeofElfhdr ≤ (read.map List.length).getD sizeofElfhdr ∧ field elf 0 4 = elfMagic ∧
      (top = 0 ∨ ReachesFrom file (field elf 56 2) (field elf 32 8) 0 top)

/-! ### Stores to memory -/

/-- The same blocks of the heap are in use. -/
structure SameBlocks (v v' : Vm) : Prop where
  heap : v'.heap = v.heap
  live : v'.live = v.live
  pages : v'.pages = v.pages

section
variable {v v' : Vm} {d d' : Pgd} {cur : Option Pgd} {argv : List (List UInt8)}

theorem SameBlocks.refl (v : Vm) : SameBlocks v v := ⟨rfl, rfl, rfl⟩

theorem SameBlocks.trans {u : Vm} (first : SameBlocks v v') (second : SameBlocks v' u) :
    SameBlocks v u :=
  ⟨second.heap.trans first.heap, second.live.trans first.live, second.pages.trans first.pages⟩

theorem SameBlocks.write (v : Vm) (a : Nat) (bs : List UInt8) : SameBlocks v (v.write a bs) :=
  ⟨rfl, rfl, rfl⟩

theorem SameBlocks.sound {rest : Finset (Nat × Nat)} (same : SameBlocks v v')
    (sound : Sound rest v) : Sound rest v' where
  heap := by
    rw [same.heap, same.live]
    exact sound.heap
  live := by
    rw [same.live, same.pages]
    exact sound.live
  apart := by
    rw [same.pages]
    exact sound.apart

theorem loadFrom_blocks {file : File} {addr offset i sz : Nat} {ok : Bool}
    (run : loadFrom v d addr file offset i sz = .ok (v', ok)) : SameBlocks v v' := by
  fun_induction loadFrom v d addr file offset i sz with
  | case1 => cases run
  | case2 =>
    cases run
    exact .refl _
  | case3 =>
    cases run
    exact .refl _
  | case4 => cases run
  | case5 v i more pt table n bs e entry read v₁ short =>
    rw [← (Prod.mk.inj (Except.ok.inj run)).1]
    exact .write ..
  | case6 v i more pt table n bs e entry read v₁ full ih => exact .trans (.write ..) (ih run)
  | case7 =>
    cases run
    exact .refl _

theorem loaduvm_blocks {file : File} {addr offset sz : Nat} {ok : Bool}
    (run : loaduvm v d addr file offset sz = .ok (v', ok)) : SameBlocks v v' := by
  rw [loaduvm] at run
  split at run
  · cases run
  · exact loadFrom_blocks run

theorem copyout_blocks {va : Nat} {bs : List UInt8} {ok : Bool}
    (run : copyout v cur d va bs = .ok (v', ok)) : SameBlocks v v' := by
  fun_induction copyout v cur d va bs with
  | case1 => cases run
  | case2 =>
    cases run
    exact .refl _
  | case3 v va bs more va0 pa0 found n ih => exact .trans (.write ..) (ih run)
  | case4 =>
    cases run
    exact .refl _

theorem pushArgs_blocks {sp : Nat} {ustack : List Nat} {r : Option (Nat × List Nat)}
    (run : pushArgs cur d argv v sp ustack = .ok (v', r)) : SameBlocks v v' := by
  induction argv generalizing v sp ustack with
  | nil =>
    cases run
    exact .refl _
  | cons arg argv ih =>
    rw [pushArgs] at run
    split at run
    case isTrue =>
      cases run
      exact .refl _
    case isFalse =>
      obtain ⟨⟨v₁, ok⟩, copied, next⟩ := bind_eq_ok run
      have first := copyout_blocks copied
      simp only at next
      split at next
      case isTrue => exact first.trans (ih next)
      case isFalse =>
        cases next
        exact first

/-- Pushing the arguments changes the bytes and the access bits of a page, and no table. -/
theorem stackArgs_blocks {sz : Nat} {tf tf' : Trapframe} {r : Option (Nat × Nat)}
    (run : stackArgs v cur d sz argv tf = .ok (v', d', tf', r)) :
    SameBlocks v v' ∧ (∀ i j, (tableAt d' i j).isSome = (tableAt d i j).isSome) ∧
      ∀ i, (d' i).isSome = (d i).isSome := by
  rw [stackArgs] at run
  obtain ⟨d₁, cleared, run⟩ := bind_eq_ok run
  have shape : (∀ i j, (tableAt d₁ i j).isSome = (tableAt d i j).isSome) ∧
      ∀ i, (d₁ i).isSome = (d i).isSome := by
    rw [clearpteu] at cleared
    split at cleared
    case h_1 => cases cleared
    case h_2 =>
      cases cleared
      exact ⟨fun i j => isSome_setPte .., fun i => isSome_pgd_setPte ..⟩
  obtain ⟨⟨v₁, pushed⟩, pushes, run⟩ := bind_eq_ok run
  have first := pushArgs_blocks pushes
  cases pushed with
  | none =>
    cases run
    exact ⟨first, shape⟩
  | some top =>
    obtain ⟨⟨v₂, ok⟩, copied, run⟩ := bind_eq_ok run
    have both := first.trans (copyout_blocks copied)
    simp only at run
    split at run
    case isTrue =>
      cases run
      exact ⟨both, shape⟩
    case isFalse =>
      cases run
      exact ⟨both, shape⟩

end

/-! ### The image under construction -/

/-- The new tree `t` stands beside the frames and the tables of `k₀`, which have kept their bytes. -/
structure Leftover (rest : Finset (Nat × Nat)) (slots : Set Nat) (k₀ k : Store) (t : Tree) :
    Prop where
  lodged : ∃ own, Lodged rest slots k₀.tables Sum.inr own k t ∧
    Beside Sum.inr (bystanders k₀.vm.pages) own
  spared : Spares k₀.vm.pages k₀.vm k.vm
  space : ∃ z ≤ uaddrSz, Space t.entries z

/-- An image of size `sz` beside `k₀`, with the tables and frames taken since `k₁`, where its first
table was at `a`. -/
structure Building (rest : Finset (Nat × Nat)) (slots : Set Nat) (k₀ k₁ : Store) (a : Nat)
    (k : Store) (t : Tree) (sz : Nat) : Prop where
  lodged : ∃ own, Lodged rest slots k₀.tables Sum.inr own k t ∧
    Beside Sum.inr (bystanders k₀.vm.pages) own
  spared : Spares k₀.vm.pages k₀.vm k.vm
  small : sz ≤ uaddrSz
  grew : Grown k₁ (.new a) 0 (pagesFrom 0 sz) k t

section
variable {rest : Finset (Nat × Nat)} {slots : Set Nat} {k₀ k₁ k k' : Store} {a sz top n : Nat}
  {t t' : Tree}

theorem pagesFrom_mul (sz : Nat) : pagesFrom 0 sz * pteSz = alignUp sz pteSz := by
  rw [pagesFrom, Nat.sub_zero]
  exact Nat.div_mul_cancel (alignUp_dvd ..)

theorem pagesFrom_alignUp (sz : Nat) : pagesFrom 0 (alignUp sz pteSz) = pagesFrom 0 sz := by
  have twice : alignUp (alignUp sz pteSz) pteSz = alignUp sz pteSz :=
    Nat.le_antisymm ((alignUp_le_iff (by decide) (alignUp_dvd ..) _).mpr le_rfl)
      (le_alignUp (by decide) _)
  rw [pagesFrom, twice, pagesFrom]

theorem pagesFrom_add (le : sz ≤ top) :
    pagesFrom 0 top = pagesFrom 0 sz + pagesFrom (alignUp sz pteSz) top := by
  have high := alignUp_mono pteSz le
  obtain ⟨i, lower⟩ := alignUp_dvd sz pteSz
  obtain ⟨j, upper⟩ := alignUp_dvd top pteSz
  simp only [pagesFrom, Nat.sub_zero]
  rw [lower, upper] at high ⊢
  rw [← Nat.mul_sub, Nat.mul_div_cancel_left _ (by decide), Nat.mul_div_cancel_left _ (by decide),
    Nat.mul_div_cancel_left _ (by decide)]
  have order := Nat.le_of_mul_le_mul_left high (by decide)
  omega

theorem Grown.trans {k₂ : Store} {t₁ t₂ : Tree} {m : Nat} (first : Grown k t a n k₁ t₁)
    (second : Grown k₁ t₁ (a + n * pteSz) m k₂ t₂) : Grown k t a (n + m) k₂ t₂ := by
  have size : a + n * pteSz + m * pteSz = a + (n + m) * pteSz := by ring
  constructor
  case card => rw [second.card, first.card, Nat.add_assoc]
  case tops => exact fun tops => second.tops (first.tops tops)
  case live => rw [second.live, first.live, Nat.add_assoc]
  case length =>
    have later := first.later m
    have length := first.length
    have length' := second.length
    omega
  case later =>
    intro l
    have later := second.later l
    have later' := first.later (m + l)
    have later'' := first.later m
    rw [size] at later
    rw [Nat.add_assoc]
    omega
  case space => exact size ▸ second.space
  case image => exact fun image => size ▸ second.image (first.image image)

theorem Grown.setVm {v : Vm} (grown : Grown k t a n k' t') (same : SameBlocks k'.vm v) :
    Grown k t a n { k' with vm := v } t' where
  card := by
    rw [same.pages]
    exact grown.card
  tops h := by
    rw [same.live]
    exact grown.tops h
  live := by
    rw [same.live]
    exact grown.live
  length := grown.length
  later := grown.later
  space := grown.space
  image := grown.image

section
variable (building : Building rest slots k₀ k₁ a k t sz)
include building

theorem Building.space : Space t.entries sz := by
  have space := building.grew.space
  rwa [Nat.zero_add, pagesFrom_mul, Space.alignUp] at space

theorem Building.image : Image t.entries sz := by
  have image := building.grew.image Image.blank
  rwa [Nat.zero_add, pagesFrom_mul, Image.alignUp] at image

theorem Building.leftover : Leftover rest slots k₀ k t :=
  ⟨building.lodged, building.spared, sz, building.small, building.space⟩

theorem Building.rounded : Building rest slots k₀ k₁ a k t (alignUp sz pteSz) :=
  ⟨building.lodged, building.spared,
    (alignUp_le_iff (by decide) (by decide) _).mpr building.small, by
      rw [pagesFrom_alignUp]
      exact building.grew⟩

end

theorem foreign_bystanders {own : Nat ⊕ Entry → Option Nat}
    (beside : Beside Sum.inr (bystanders k₀.vm.pages) own) : Foreign Sum.inr own k₀.vm.pages := by
  intro q used
  refine ⟨.inl q, nofun, ?_⟩
  rw [beside (.inl q) nofun]
  exact standIn_eq_some.mpr ⟨rfl, used⟩

/-- Growth that stays within bounds leaves the frames of `k₀` alone. -/
theorem Building.spares (building : Building rest slots k₀ k₁ a k t sz) (bounds : Bounds k k') :
    Spares k₀.vm.pages k₀.vm k'.vm := by
  obtain ⟨own, lodged, beside⟩ := building.lodged
  have foreign := foreign_bystanders beside
  exact building.spared.trans fun q used =>
    lodged.stocked.spares bounds.mem q (foreign.used lodged.keeps used)

/-- The tables that an image of size `top` can come to need after its first one. -/
def imageTables (k₁ : Store) (top : Nat) : Nat :=
  lacking blank 0 (min (pagesFrom 0 top) (bootRegion.frameCount - k₁.vm.pages.card))

/-- The next segment: the image grows, or nothing more can be had. -/
theorem Building.extend (building : Building rest slots k₀ k₁ a k t sz)
    (enough : grown sz top ≠ 0 → imageTables k₁ (grown sz top) ≤ k₁.freelist.length) :
    ∃ k' t' r, allocuvm k t sz top = .ok (k', t', r) ∧
      (r ≠ 0 ∧ r = grown sz top ∧ Building rest slots k₀ k₁ a k' t' r ∨
        r = 0 ∧ Leftover rest slots k₀ k' t' ∧
          (grown sz top ≠ 0 → Scarce k₁ (pagesFrom 0 (grown sz top)))) := by
  rw [allocuvm]
  by_cases refused : top ≥ uaddrSz
  · have zero : grown sz top = 0 := by rw [grown, if_pos refused]
    rw [if_pos refused]
    exact ⟨k, t, 0, rfl, .inr ⟨rfl, building.leftover, fun nonzero => absurd zero nonzero⟩⟩
  rw [if_neg refused]
  have size : grown sz top = max sz top := by rw [grown, if_neg refused]
  rw [size] at enough ⊢
  by_cases less : top < sz
  · rw [if_pos less, Nat.max_eq_left less.le]
    exact ⟨k, t, sz, rfl, .inl ⟨by omega, rfl, building⟩⟩
  have excess := Nat.le_of_not_lt less
  rw [if_neg less]
  rw [Nat.max_eq_right excess] at enough ⊢
  by_cases zero : top = 0
  · have none : sz = 0 := by omega
    rw [none, zero, show alignUp 0 pteSz = 0 from rfl, allocFrom, if_neg (lt_irrefl 0)]
    exact ⟨k, t, 0, rfl, .inr ⟨rfl, building.leftover, fun nonzero => absurd rfl nonzero⟩⟩
  have enough := enough zero
  obtain ⟨own, lodged, beside⟩ := building.lodged
  have few := few_pages lodged.stocked.sound
  have total := pagesFrom_add excess
  have card := building.grew.card
  have length := building.grew.length
  have start : 0 + pagesFrom 0 sz * pteSz = alignUp sz pteSz := by
    rw [Nat.zero_add, pagesFrom_mul]
  have suffices' : lacking t.entries (alignUp sz pteSz)
      (min (pagesFrom (alignUp sz pteSz) top)
        (bootRegion.frameCount - k.vm.pages.card)) ≤ k.freelist.length := by
    have later := building.grew.later (min (pagesFrom (alignUp sz pteSz) top)
      (bootRegion.frameCount - k.vm.pages.card))
    rw [start] at later
    have count : pagesFrom 0 sz + min (pagesFrom (alignUp sz pteSz) top)
        (bootRegion.frameCount - k.vm.pages.card) =
        min (pagesFrom 0 top) (bootRegion.frameCount - k₁.vm.pages.card) := by omega
    rw [count] at later
    rw [imageTables] at enough
    have same : (Tree.new a).entries = blank := rfl
    rw [same] at later length
    omega
  obtain ⟨k', t', r, own', ran, bounds, lodged', beside', ended⟩ :=
    allocFrom_ok Sum.inr_injective lodged (Space.alignUp.mpr building.space)
      (alignUp_dvd ..) le_rfl (Nat.lt_of_not_le refused) suffices'
  have besides : Beside Sum.inr (bystanders k₀.vm.pages) own' := fun o other =>
    (beside' o other).trans (beside o other)
  rcases ended with ⟨rfl, more⟩ | ⟨rfl, without, space, scarce⟩
  · refine ⟨k', t', r, ran, .inl ⟨zero, rfl, ⟨own', lodged', besides⟩, building.spares bounds,
      Nat.le_of_not_le refused, ?_⟩⟩
    rw [← start] at more
    rw [total]
    exact building.grew.trans (start ▸ more)
  · refine ⟨k', t', 0, ran, .inr ⟨rfl, ⟨⟨own', lodged', besides⟩, building.spares bounds, sz,
      building.small, space⟩, fun _ tops => ?_⟩⟩
    have out := scarce (building.grew.tops tops)
    rw [building.grew.live] at out
    rw [total]
    exact out.trans_eq (Nat.add_assoc ..)

theorem execLoad_succ (file : File) (n : Nat) (k : Store) (t : Tree) (off sz : Nat) :
    execLoad file (n + 1) k t off sz = match header file off with
      | none => .ok (k, t, none)
      | some ph =>
        if ph.type ≠ 1 then
          execLoad file n k t (off + sizeofProghdr) sz
        else if ph.memsz < ph.filesz then
          .ok (k, t, none)
        else do
          let (k, t, sz) ← allocuvm k t sz ph.top
          if sz = 0 then
            return (k, t, none)
          else
            let (v, ok) ← loaduvm k.vm t.entries ph.vaddr file (ph.off % 2 ^ 32) ph.length
            if ok then
              execLoad file n { k with vm := v } t (off + sizeofProghdr) sz
            else
              return ({ k with vm := v }, t, none) := by
  rw [execLoad]
  symm
  exact (match_header _ _).symm

variable {file : File} {off : Nat} {after : Nat → Prop}

theorem Building.load {addr offset len : Nat} (building : Building rest slots k₀ k₁ a k t sz)
    (bounded : Bounded file) (aligned : addr % pteSz = 0)
    (stays : StaysFrom file addr offset len sz 0) :
    ∃ v ok, loaduvm k.vm t.entries addr file offset len = .ok (v, ok) ∧
      Building rest slots k₀ k₁ a { k with vm := v } t sz ∧
      (ok = true ↔ LoadsFrom file offset len 0) := by
  obtain ⟨returns, loaded⟩ := building.image.loaduvm_iff building.small k.vm file addr offset len
  obtain ⟨⟨v, ok⟩, run⟩ := returns.mpr ⟨aligned, stays⟩
  obtain ⟨own, lodged, beside⟩ := building.lodged
  have same := loaduvm_blocks run
  have spared := (loaduvm_spares bounded (foreign_bystanders beside) lodged.keeps).of_ok run
  refine ⟨v, ok, run, ⟨⟨own, ?_, beside⟩, building.spared.trans spared, building.small,
    building.grew.setVm same⟩, (loaded v ok run).2⟩
  exact lodged.setVm (same.sound lodged.stocked.sound) same.pages

theorem execLoad_ok (bounded : Bounded file) (safe : SafeFrom file after n off sz)
    (building : Building rest slots k₀ k₁ a k t sz)
    (enough : ∀ top, ReachesFrom file n off sz top → imageTables k₁ top ≤ k₁.freelist.length) :
    ∃ k' t' r, execLoad file n k t off sz = .ok (k', t', r) ∧
      match r with
      | none => Leftover rest slots k₀ k' t'
      | some z => Building rest slots k₀ k₁ a k' t' z ∧ after z ∧
          ∀ top, ReachesFrom file 0 0 z top → imageTables k₁ top ≤ k₁.freelist.length := by
  induction n generalizing k t off sz with
  | zero => exact ⟨k, t, some sz, rfl, building, safe, enough⟩
  | succ n ih =>
    rw [execLoad_succ]
    cases read : header file off with
    | none => exact ⟨k, t, none, rfl, building.leftover⟩
    | some ph =>
      have here := safe ph read
      have reaches : ∀ top, _ → imageTables k₁ top ≤ k₁.freelist.length := fun top reach =>
        enough top ⟨ph, read, reach⟩
      dsimp only
      by_cases isLoad : ph.type = 1
      swap
      · rw [if_pos isLoad] at here
        simp only [if_pos isLoad] at reaches
        rw [if_pos isLoad]
        exact ih here building reaches
      rw [if_neg (not_not.mpr isLoad)] at here
      simp only [if_neg (not_not.mpr isLoad)] at reaches
      rw [if_neg (not_not.mpr isLoad)]
      by_cases excess : ph.memsz < ph.filesz
      · rw [if_pos excess]
        exact ⟨k, t, none, rfl, building.leftover⟩
      have fits := Nat.le_of_not_lt excess
      rw [if_neg excess]
      obtain ⟨k', t', r, ran, ended⟩ := building.extend fun nonzero =>
        reaches _ ⟨fits, nonzero, .inl rfl⟩
      rw [ran, ok_bind]
      dsimp only
      rcases ended with ⟨nonzero, rfl, building'⟩ | ⟨rfl, leftover, -⟩
      · rw [if_neg nonzero]
        obtain ⟨aligned, stays, next⟩ := here fits nonzero
        obtain ⟨v, ok, loaded, building'', complete⟩ := building'.load bounded aligned stays
        rw [loaded, ok_bind]
        cases ok with
        | true =>
          have loads := complete.mp rfl
          exact ih (next loads) building'' fun top reach =>
            reaches top ⟨fits, nonzero, .inr ⟨loads, reach⟩⟩
        | false => exact ⟨_, t', none, rfl, building''.leftover⟩
      · rw [if_pos rfl]
        exact ⟨k', t', none, rfl, leftover⟩

/-! ### The stack -/

theorem execStack_eq (k : Store) (cur : Option Pgd) (t : Tree) (sz : Nat)
    (argv : List (List UInt8)) (tf : Trapframe) : execStack k cur t sz argv tf =
      allocuvm k t (alignUp sz pteSz % 2 ^ 32) ((alignUp sz pteSz + 2 * pteSz) % 2 ^ 32) >>= fun r =>
        if r.2.2 = 0 then .ok (r.1, r.2.1, tf, none)
        else stackArgs r.1.vm cur r.2.1.entries r.2.2 argv tf >>= fun q =>
          .ok ({ r.1 with vm := q.1 }, { r.2.1 with entries := q.2.1 }, q.2.2.1, q.2.2.2) := by
  rw [execStack]
  refine congrArg (bind _) (funext fun r => ?_)
  obtain ⟨k, t, sz⟩ := r
  dsimp only
  by_cases zero : sz = 0
  · rw [if_pos zero, if_pos zero]
    rfl
  rw [if_neg zero, if_neg zero, stackArgs, bind_assoc]
  refine congrArg (bind _) (funext fun d => ?_)
  rw [bind_assoc]
  refine congrArg (bind _) (funext fun r => ?_)
  obtain ⟨v, pushed⟩ := r
  cases pushed with
  | none => rfl
  | some top =>
    dsimp only
    rw [bind_assoc]
    refine congrArg (bind _) (funext fun r => ?_)
    obtain ⟨v, ok⟩ := r
    cases ok with
    | true => rfl
    | false => rfl

theorem stack_sizes (small : sz ≤ uaddrSz) : alignUp sz pteSz % 2 ^ 32 = alignUp sz pteSz ∧
    (alignUp sz pteSz + 2 * pteSz) % 2 ^ 32 = alignUp sz pteSz + 2 * pteSz := by
  have most : alignUp sz pteSz ≤ uaddrSz := (alignUp_le_iff (by decide) (by decide) _).mpr small
  have size : uaddrSz = 2 ^ 28 := rfl
  have unit := pteSz_eq
  omega

/-- The stack with its arguments, for a caller whose page at 0 is one of the frames of `k₀`. -/
theorem execStack_ok {cur : Option Pgd} {argv : List (List UInt8)} {tf : Trapframe}
    (building : Building rest slots k₀ k₁ a k t sz) (safe : StackSafe cur argv sz)
    (short : ∀ arg ∈ argv, arg.length < uaddrSz) (few : argv.length ≤ maxarg)
    (based : Based cur k₀.vm.pages) (inert : Inert k₀.vm cur)
    (enough : ∀ top, ReachesFrom file 0 0 sz top → imageTables k₁ top ≤ k₁.freelist.length) :
    ∃ k' t' tf' r, execStack k cur t sz argv tf = .ok (k', t', tf', r) ∧
      Leftover rest slots k₀ k' t' := by
  obtain ⟨here, above⟩ := stack_sizes building.small
  rw [execStack_eq, here, above]
  have aligned := alignUp_dvd sz pteSz
  have nonzero : 0 < alignUp sz pteSz + 2 * pteSz := Nat.lt_add_left _ (by decide)
  obtain ⟨k', t', r, ran, ended⟩ := building.rounded.extend
    fun nonzero => by
      rw [grown] at nonzero ⊢
      split at nonzero
      case isTrue => exact absurd rfl nonzero
      case isFalse below =>
        rw [if_neg below, Nat.max_eq_right (Nat.le_add_right ..)]
        exact enough _ ⟨rfl, Nat.lt_of_not_le below⟩
  rw [ran, ok_bind]
  dsimp only
  rcases ended with ⟨positive, isSize, building'⟩ | ⟨rfl, leftover, -⟩
  swap
  · rw [if_pos rfl]
    exact ⟨k', t', tf, none, rfl, leftover⟩
  rw [if_neg positive]
  have below : alignUp sz pteSz + 2 * pteSz < uaddrSz := by
    by_contra refused
    rw [grown, if_pos (Nat.le_of_not_lt refused)] at isSize
    exact positive isSize
  rw [grown, if_neg (Nat.not_le.mpr below), Nat.max_eq_right (Nat.le_add_right ..)] at isSize
  subst isSize
  obtain ⟨⟨v, d, tf', q⟩, pushed⟩ := (stackArgs_returns_iff (v := k'.vm) building'.image
    (Nat.dvd_add aligned (Nat.dvd_mul_left ..)) (Nat.le_add_left ..) below short few).mpr (safe below)
  obtain ⟨own, lodged, beside⟩ := building'.lodged
  obtain ⟨same, tables, uppers⟩ := stackArgs_blocks pushed
  obtain ⟨keeps, space, -⟩ := (stackArgs_ends lodged.keeps building'.space).of_ok pushed
  have spared := (stackArgs_spares (foreign_bystanders beside) lodged.keeps building'.space based
    (inert.spared based building'.spared)).of_ok pushed
  rw [pushed, ok_bind]
  refine ⟨_, _, tf', q, rfl, ⟨own, ?_, beside⟩, building'.spared.trans spared, _, below.le, space⟩
  have stocked := lodged.stocked
  exact ⟨⟨⟨keeps.sound, stocked.apart, stocked.low, stocked.pool, stocked.nodup, stocked.idle⟩,
    lodged.rooted.entries tables uppers rfl⟩, keeps.balanced, keeps.view⟩

/-! ### `exec` -/

variable {s : State} {p : SleepWakeup.Slot} {prog : Program}

/-- `exec` returns, and leaves everything as it was if it returns -1. -/
def ExecReports (s : State) (p : SleepWakeup.Slot) (prog : Program) : Prop :=
  ∃ s' ok, exec s p prog = .ok (s', ok) ∧ (ok = false → Unharmed s s' p [])

/-- The tables that `exec` can come to need for an image of size `top`. -/
def execTables (d : Pgd) (sz top : Nat) : Nat :=
  1 + lacking blank 0 (min (pagesFrom 0 top) (bootRegion.frameCount - held d sz))

theorem Unharmed.refl (s : State) (p : SleepWakeup.Slot) : Unharmed s s p [] :=
  ⟨⟨rfl, fun _ => rfl⟩, rfl, .refl _⟩

section
variable (leftover : Leftover rest slots s.store k t') (housed : Housed rest slots s p t)
include leftover housed

theorem Leftover.discard {x : Proc} (size : x.sz = (s.base.proc p).sz) :
    ∃ k', freevm k (some t') = .ok k' ∧ Unharmed s (s.set k' p x (s.tree p)) p [] := by
  obtain ⟨own, lodged, beside⟩ := leftover.lodged
  obtain ⟨z, small, space⟩ := leftover.space
  obtain ⟨k', freed, stocked, tables, mem, own', keeps, beside'⟩ :=
    freevm_ok Sum.inr_injective lodged space small
  have both : Beside Sum.inr (bystanders s.store.vm.pages) own' := fun o other =>
    (beside' o other).trans (beside o other)
  have pages : k'.vm.pages = s.base.vm.pages := by
    have balanced := keeps.balanced
    rw [Beside.bystanders_eq both keeps.view] at balanced
    exact balanced_standIn.unique (balanced_inl.mp balanced)
  rw [housed.tree]
  refine ⟨k', freed, housed.untouched ?_ ?_ (fun _ => rfl) fun q used => ?_, ?_, ?_⟩
  · rw [set_proc]
    exact size
  · rw [set_proc]
  · exact (read_congr mem q pteSz).trans (leftover.spared q used)
  · exact housed.stocked.same_blocks stocked pages (by rw [tables])
  · exact housed.stocked.same_list stocked tables

theorem Leftover.replace : ∃ k', freevm k (s.tree p) = .ok k' := by
  obtain ⟨own, lodged, beside⟩ := leftover.lodged
  have foreign := foreign_bystanders beside
  obtain ⟨others, stored⟩ := housed.stored
  obtain ⟨others', stored'⟩ := stored.elsewhere lodged.stocked fun x u has => by
    have used := stored.rooted.ledger.live (.inr x) u has
    exact lodged.rooted.ledger.live (.inl u) u (standIn_eq_some.mpr ⟨rfl, used⟩)
  obtain ⟨own', lodged'⟩ := stored'.lodge
    (fun x f frame => foreign.used lodged.keeps (housed.frames x f frame)) housed.once
  obtain ⟨k', freed, -⟩ := freevm_ok Sum.inr_injective lodged' housed.space housed.small
  rw [housed.tree]
  exact ⟨k', freed⟩

end

theorem Building.start (stocked : Stocked rest slots k₀) (more : 0 < k₀.freelist.length) :
    ∃ k₁ a, kptAlloc k₀ = .ok (k₁, a) ∧ Took 1 k₀ k₁ ∧
      Building rest slots k₀ k₁ a k₁ (.new a) 0 := by
  obtain ⟨k₁, a, run, stocked₁, fresh, tables, took⟩ := kptAlloc_ok stocked more
  refine ⟨k₁, a, run, took, ⟨_, stocked₁.lodged fresh tables took.pages, fun _ _ => rfl⟩,
    stocked.spares fun x outside _ => took.mem x outside, Nat.zero_le _, ?_⟩
  exact .refl k₁ Space.blank

theorem Housed.based (housed : Housed rest slots s p t) :
    Based (s.base.proc p).pgdir s.base.vm.pages := by
  intro c e isCur entry
  rw [housed.pgdir.1] at isCur
  cases isCur
  refine housed.frames (entryOf 0) (p2v e.pa) ?_
  rw [frameAt, ← getPte_eq, entry]
  rfl

theorem exec_reports (housed : Housed rest slots s p t)
    (bounded : ∀ file ∈ prog.file, Bounded file) (accepted : Accepted s.base p prog.argv)
    (safe : ExecSafe (s.base.proc p).pgdir prog) (inert : Inert s.base.vm (s.base.proc p).pgdir)
    (enough : ∀ top, Reaches prog top →
      execTables t.entries (s.base.proc p).sz top ≤ s.freelist.length) : ExecReports s p prog := by
  have stocked := housed.stocked
  have least := housed.held_le
  rw [ExecReports, exec]
  cases isFile : prog.file with
  | none => exact ⟨s, false, rfl, fun _ => .refl s p⟩
  | some file =>
    dsimp only
    by_cases short : ((file 0 sizeofElfhdr).map List.length).getD sizeofElfhdr < sizeofElfhdr
    · rw [if_pos short]
      exact ⟨s, false, rfl, fun _ => .refl s p⟩
    rw [if_neg short]
    by_cases magic : field ((file 0 sizeofElfhdr).getD prog.junk) 0 4 = elfMagic
    swap
    · rw [if_pos magic]
      exact ⟨s, false, rfl, fun _ => .refl s p⟩
    rw [if_neg (not_not.mpr magic)]
    have long := Nat.le_of_not_lt short
    have first := enough 0 ⟨file, isFile, long, magic, .inl rfl⟩
    obtain ⟨k₁, a, taken, took, building⟩ := Building.start stocked
      ((Nat.lt_add_right _ Nat.zero_lt_one).trans_le first)
    have length : k₁.freelist.length + 1 = s.freelist.length := took.length
    have tables : ∀ top, Reaches prog top → imageTables k₁ top ≤ k₁.freelist.length := by
      intro top reach
      have needs := enough top reach
      have fewer : imageTables k₁ top ≤ lacking blank 0 (min (pagesFrom 0 top)
          (bootRegion.frameCount - held t.entries (s.base.proc p).sz)) := by
        refine lacking_mono _ _ (min_le_min_left _ (Nat.sub_le_sub_left ?_ _))
        rw [took.pages]
        exact least
      rw [execTables] at needs
      omega
    obtain ⟨k, t', r, loaded, post⟩ := execLoad_ok (bounded file isFile)
      (safe file isFile long magic) building fun top reach =>
        tables top ⟨file, isFile, long, magic, .inr reach⟩
    rw [taken, ok_bind]
    dsimp only
    rw [loaded, ok_bind]
    cases r with
    | none =>
      obtain ⟨k', freed, unharmed⟩ := post.discard housed rfl
      dsimp only
      rw [freed, ok_bind]
      exact ⟨_, false, rfl, fun _ => unharmed⟩
    | some sz =>
      obtain ⟨building', stackSafe, later⟩ := post
      obtain ⟨k', t'', tf, q, stacked, leftover⟩ := execStack_ok
        building' stackSafe
        (fun arg listed => (accepted.inside arg listed).trans_le housed.small) accepted.count.le
        housed.based inert later
      dsimp only
      rw [stacked, ok_bind]
      cases q with
      | none =>
        obtain ⟨k'', freed, unharmed⟩ := leftover.discard (x := { s.base.proc p with tf := tf })
          housed rfl
        dsimp only
        rw [freed, ok_bind]
        exact ⟨_, false, rfl, fun _ => unharmed⟩
      | some top =>
        obtain ⟨k'', freed⟩ := leftover.replace housed
        dsimp only
        rw [freed, ok_bind]
        exact ⟨_, true, rfl, nofun⟩

/-! ### Running out of tables -/

/-- The free list of `k₁` lasts for fewer than `m` pages, and there are `m` frames left. -/
structure Tight (k₁ : Store) (m : Nat) : Prop where
  tops : ∀ e ∈ k₁.vm.live, e.2 = maxOrd
  left : k₁.vm.live.card + m = bootRegion.frameCount
  lacks : k₁.freelist.length < lacking blank 0 m
  before : ∀ l < m, lacking blank 0 l ≤ k₁.freelist.length

variable {m : Nat}

theorem Building.starves (building : Building rest slots k₀ k₁ a k t sz) (tight : Tight k₁ m)
    (inside : pagesFrom 0 sz < m) (reached : m ≤ pagesFrom 0 (grown sz top)) :
    allocuvm k t sz top = .error (.panic "oom: kpt_alloc") := by
  have below : ¬ top ≥ uaddrSz := by
    intro refused
    rw [grown, if_pos refused] at reached
    have none : pagesFrom 0 0 = 0 := rfl
    omega
  rw [grown, if_neg below] at reached
  have excess : ¬ top < sz := by
    intro less
    rw [Nat.max_eq_left less.le] at reached
    omega
  rw [Nat.max_eq_right (Nat.le_of_not_lt excess)] at reached
  have total := pagesFrom_add (Nat.le_of_not_lt excess)
  obtain ⟨own, lodged, -⟩ := building.lodged
  have start : 0 + pagesFrom 0 sz * pteSz = alignUp sz pteSz := by
    rw [Nat.zero_add, pagesFrom_mul]
  obtain ⟨l, rfl⟩ : ∃ l, m = pagesFrom 0 sz + (l + 1) := ⟨m - pagesFrom 0 sz - 1, by omega⟩
  have length : k.freelist.length + lacking blank 0 (pagesFrom 0 sz) = k₁.freelist.length :=
    building.grew.length
  have later : ∀ i, lacking t.entries (alignUp sz pteSz) i + lacking blank 0 (pagesFrom 0 sz) =
      lacking blank 0 (pagesFrom 0 sz + i) := by
    intro i
    rw [← start]
    exact building.grew.later i
  rw [allocuvm, if_neg below, if_neg excess]
  refine allocFrom_starves (n := l) Sum.inr_injective lodged (Space.alignUp.mpr building.space)
    (alignUp_dvd ..) (Nat.lt_of_not_le below) (building.grew.tops tight.tops) ?_ ?_ ?_ ?_
  · rw [building.grew.live, Nat.add_assoc]
    exact tight.left
  · omega
  · have before := tight.before (pagesFrom 0 sz + l) (by omega)
    have lack := later l
    omega
  · have lacks := tight.lacks
    have lack := later (l + 1)
    omega

theorem Tight.enough (tight : Tight k₁ m) (inside : pagesFrom 0 top < m) :
    imageTables k₁ top ≤ k₁.freelist.length :=
  (lacking_mono _ _ (min_le_left _ _)).trans (tight.before _ inside)

theorem Building.extend_tight (building : Building rest slots k₀ k₁ a k t sz) (tight : Tight k₁ m)
    (nonzero : grown sz top ≠ 0) (inside : pagesFrom 0 (grown sz top) < m) :
    ∃ k' t', allocuvm k t sz top = .ok (k', t', grown sz top) ∧
      Building rest slots k₀ k₁ a k' t' (grown sz top) := by
  obtain ⟨k', t', r, ran, ended⟩ := building.extend fun _ => tight.enough inside
  rcases ended with ⟨-, rfl, building'⟩ | ⟨-, -, scarce⟩
  · exact ⟨k', t', ran, building'⟩
  · have out := scarce nonzero tight.tops
    rw [← tight.left] at out
    exact absurd out (Nat.not_lt.mpr (Nat.add_le_add_left inside.le _))

/-- The loop over the headers panics, or leaves it to the stack. -/
theorem execLoad_starves (bounded : Bounded file) (safe : SafeFrom file after n off sz)
    (building : Building rest slots k₀ k₁ a k t sz) (tight : Tight k₁ m)
    (inside : pagesFrom 0 sz < m) (reach : ReachesFrom file n off sz top)
    (reached : m ≤ pagesFrom 0 top) :
    execLoad file n k t off sz = .error (.panic "oom: kpt_alloc") ∨
      ∃ k' t' z, execLoad file n k t off sz = .ok (k', t', some z) ∧
        Building rest slots k₀ k₁ a k' t' z ∧ pagesFrom 0 z < m ∧ ReachesFrom file 0 0 z top := by
  induction n generalizing k t off sz with
  | zero => exact .inr ⟨k, t, sz, rfl, building, inside, reach⟩
  | succ n ih =>
    obtain ⟨ph, read, reach⟩ := reach
    have here := safe ph read
    rw [execLoad_succ, read]
    dsimp only
    by_cases isLoad : ph.type = 1
    swap
    · rw [if_pos isLoad] at here reach
      rw [if_pos isLoad]
      exact ih here building inside reach
    rw [if_neg (not_not.mpr isLoad)] at here reach
    obtain ⟨fits, nonzero, reach⟩ := reach
    rw [if_neg (not_not.mpr isLoad), if_neg (Nat.not_lt.mpr fits)]
    by_cases small : pagesFrom 0 (grown sz ph.top) < m
    swap
    · rw [building.starves tight inside (Nat.le_of_not_lt small)]
      exact .inl rfl
    obtain ⟨loads, reach⟩ := reach.resolve_left fun same =>
      absurd reached (Nat.not_le.mpr (same ▸ small))
    obtain ⟨aligned, stays, next⟩ := here fits nonzero
    obtain ⟨k', t', ran, building'⟩ := building.extend_tight tight nonzero small
    obtain ⟨v, ok, loaded, building'', complete⟩ := building'.load bounded aligned stays
    rw [complete.mpr loads] at loaded
    rw [ran, ok_bind]
    dsimp only
    rw [if_neg nonzero, loaded, ok_bind]
    exact ih (next loads) building'' small reach

theorem execStack_starves {cur : Option Pgd} {argv : List (List UInt8)} {tf : Trapframe}
    (building : Building rest slots k₀ k₁ a k t sz) (tight : Tight k₁ m)
    (inside : pagesFrom 0 sz < m) (reach : ReachesFrom file 0 0 sz top)
    (reached : m ≤ pagesFrom 0 top) :
    execStack k cur t sz argv tf = .error (.panic "oom: kpt_alloc") := by
  obtain ⟨here, above⟩ := stack_sizes building.small
  obtain ⟨rfl, below⟩ := reach
  rw [execStack_eq, here, above, building.rounded.starves tight (by rwa [pagesFrom_alignUp])]
  · rfl
  · rwa [grown, if_neg (Nat.not_le.mpr below), Nat.max_eq_right (Nat.le_add_right ..)]

theorem inert_clear {v : Vm} {cur : Option Pgd} (clear : v.mem = fun _ => 0) : Inert v cur := by
  intro w word
  obtain ⟨c, -, word⟩ := Option.bind_eq_some_iff.mp word
  obtain ⟨e, -, rfl⟩ := Option.map_eq_some_iff.mp word
  have zeros : v.read (p2v e.pa) 8 = List.replicate 8 0 := by
    rw [Vm.read, clear, List.map_const', List.length_range]
  rw [zeros]
  rfl

/-- With too short a free list some arrangement of the heap ends in the panic of `kpt_alloc`. -/
theorem exec_starves (housed : Housed rest slots s p t)
    (bounded : ∀ file ∈ prog.file, Bounded file) (safe : ExecSafe (s.base.proc p).pgdir prog)
    (reaches : Reaches prog top)
    (short : s.freelist.length < execTables t.entries (s.base.proc p).sz top) :
    ∃ s', Housed ∅ slots s' p t ∧ s'.freelist = s.freelist ∧ s'.base.proc p = s.base.proc p ∧
      Inert s'.base.vm (s'.base.proc p).pgdir ∧
      exec s' p prog = .error (.panic "oom: kpt_alloc") := by
  obtain ⟨m, most, lacks, before⟩ := exists_first (f := fun m => 1 + lacking blank 0 m) short
  obtain ⟨inPages, inFrames⟩ := le_min_iff.mp most
  have few := housed.held_le.trans (few_pages housed.stocked.sound)
  obtain ⟨s', housed', cornered⟩ := housed.corner (n := m) (Nat.add_le_of_le_sub few inFrames)
  refine ⟨s', housed', cornered.list, cornered.same, inert_clear cornered.clear, ?_⟩
  obtain ⟨file, isFile, long, magic, reach⟩ := reaches
  rw [exec, isFile]
  dsimp only
  rw [if_neg (Nat.not_lt.mpr long), if_neg (not_not.mpr magic)]
  have stocked := housed'.stocked
  rw [← cornered.list] at lacks before
  by_cases none : m = 0
  · subst none
    have empty : s'.store.freelist = [] := List.length_eq_zero_iff.mp (Nat.lt_one_iff.mp lacks)
    have out : Exhausted s'.store.vm.heap :=
      ⟨_, stocked.sound.heap.no_room cornered.tops cornered.left isOrder_ptOrder⟩
    rw [kptAlloc_starves empty out]
    rfl
  have positive := Nat.pos_of_ne_zero none
  obtain ⟨k₁, a, taken, took, building⟩ := Building.start stocked
    ((Nat.lt_add_right _ Nat.zero_lt_one).trans_le (before 0 positive))
  have length : k₁.freelist.length + 1 = s'.freelist.length := took.length
  have tight : Tight k₁ m := by
    refine ⟨took.live ▸ cornered.tops, took.live ▸ cornered.left, by omega, fun l less => ?_⟩
    have enough := before l less
    omega
  have reach := reach.resolve_left fun zero => by
    rw [zero] at inPages
    exact none (Nat.le_zero.mp inPages)
  rw [taken, ok_bind]
  dsimp only
  rcases execLoad_starves (bounded file isFile) (safe file isFile long magic) building tight positive
    reach inPages with oom | ⟨k, t', z, loaded, building', inside, reach'⟩
  · rw [oom]
    rfl
  · rw [loaded, ok_bind]
    dsimp only
    rw [execStack_starves building' tight inside reach' inPages]
    rfl

/-- The process `p` is as in `s`, with the same page table and the same free list; the rest of the
memory is arranged in any way. -/
structure Rearranged (slots : Set Nat) (s : State) (p : SleepWakeup.Slot) (t : Tree) (s' : State) :
    Prop where
  housed : ∃ rest, Housed rest slots s' p t
  list : s'.freelist = s.freelist
  same : s'.base.proc p = s.base.proc p

/-- For every arrangement of the memory `fork`, `sbrk` and `exec` (of a program that is safe to load,
by a process whose word at address 0 is not taken for an entry) succeed or return -1 and leave
everything as it was, if and only if the boot free list has the tables that they can come to need
and `sbrk` does not shrink the process to nothing. -/
theorem out_of_memory_reported_iff (housed : Housed rest slots s p t) :
    ((∀ s', Rearranged slots s p t s' → ForkReports s' p) ↔
      forkTables t.entries (s.base.proc p).sz ≤ s.freelist.length) ∧
    (∀ n : Int, -2 ^ 31 ≤ n ∧ n < 2 ^ 31 →
      ((∀ s', Rearranged slots s p t s' → SbrkReports s' p n) ↔
        sbrkTables t.entries (s.base.proc p).sz n ≤ s.freelist.length ∧
          (n < 0 → ((s.base.proc p).sz : Int) + n ≠ 0))) ∧
    (∀ prog : Program, (∀ file ∈ prog.file, Bounded file) → Accepted s.base p prog.argv →
      ExecSafe (s.base.proc p).pgdir prog →
      ((∀ s', Rearranged slots s p t s' → Inert s'.base.vm (s'.base.proc p).pgdir →
          ExecReports s' p prog) ↔
        ∀ top, Reaches prog top →
          execTables t.entries (s.base.proc p).sz top ≤ s.freelist.length)) := by
  refine ⟨⟨fun reports => ?_, fun enough s' again => ?_⟩, fun n int => ⟨fun reports => ⟨?_, ?_⟩,
    fun ⟨enough, keeps⟩ s' again => ?_⟩, fun prog bounded accepted safe =>
      ⟨fun reports top reach => ?_, fun enough s' again inert => ?_⟩⟩
  · by_contra short
    obtain ⟨s', housed', list, same, oom⟩ := fork_starves housed (Nat.lt_of_not_le short)
    obtain ⟨_, _, run, -⟩ := reports s' ⟨⟨∅, housed'⟩, list, same⟩
    rw [oom] at run
    cases run
  · obtain ⟨⟨rest', housed'⟩, list, same⟩ := again
    exact fork_reports housed' (by rwa [same, list])
  · by_contra short
    obtain ⟨s', housed', list, same, oom⟩ := sbrk_starves housed int.1 (Nat.lt_of_not_le short)
    obtain ⟨_, _, run, -⟩ := reports s' ⟨⟨∅, housed'⟩, list, same⟩
    rw [oom] at run
    cases run
  · exact fun shrinks nothing =>
      sbrk_to_nothing housed shrinks nothing (reports s ⟨⟨rest, housed⟩, rfl, rfl⟩)
  · obtain ⟨⟨rest', housed'⟩, list, same⟩ := again
    exact sbrk_reports housed' int (by rwa [same]) (by rwa [same, list])
  · by_contra short
    obtain ⟨s', housed', list, same, inert, oom⟩ :=
      exec_starves housed bounded safe reach (Nat.lt_of_not_le short)
    obtain ⟨_, _, run, -⟩ := reports s' ⟨⟨∅, housed'⟩, list, same⟩ inert
    rw [oom] at run
    cases run
  · obtain ⟨⟨rest', housed'⟩, list, same⟩ := again
    refine exec_reports housed' bounded ⟨accepted.count, ?_⟩ (by rwa [same]) inert
      (by rwa [same, list])
    rw [same]
    exact accepted.inside

end

/-! ### A process of one page -/

/-- A process with one page and its three tables, in a heap with nothing else in use, and a free list
of the given length. -/
theorem exists_housed {n : Nat} (few : n + 3 ≤ 64) : ∃ slots s t, Housed ∅ slots s firstSlot t ∧
    (s.base.proc firstSlot).sz = pteSz ∧ s.freelist.length = n ∧
    ∀ m, lacking t.entries pteSz m + 2 = lacking blank 0 (1 + m) := by
  obtain ⟨heap, reach⟩ := exists_heap bootRegion (Finset.empty_subset _)
  have sound : Sound ∅ ⟨heap, fun _ => 0, ∅, ∅⟩ := ⟨reach, fun e => by simp, nofun⟩
  have stocked := stocked_slots sound few
  have one : pagesFrom 0 pteSz = 1 := rfl
  have frames : 0 < bootRegion.frameCount := by decide +kernel
  obtain ⟨k₁, a, -, took, building⟩ := Building.start stocked (by simp)
  have length : k₁.freelist.length + 1 = n + 3 := by
    have length := took.length
    rwa [List.length_map, List.length_range] at length
  have enough : imageTables k₁ (grown 0 pteSz) ≤ k₁.freelist.length := by
    have most := lacking_mono blank 0 (min_le_left (pagesFrom 0 (grown 0 pteSz))
      (bootRegion.frameCount - k₁.vm.pages.card))
    rw [show pagesFrom 0 (grown 0 pteSz) = 1 from rfl, lacking_one] at most
    exact most.trans (by omega)
  obtain ⟨k, t, r, -, ended⟩ := building.extend fun _ => enough
  rcases ended with ⟨-, rfl, building'⟩ | ⟨-, -, scarce⟩
  swap
  · have none : k₁.vm.live = ∅ := took.live
    have out := scarce (by decide) (by rw [none]; nofun)
    rw [none] at out
    exact absurd out (Nat.not_lt.mpr (Nat.succ_le_of_lt frames))
  have size : grown 0 pteSz = pteSz := rfl
  rw [size] at building'
  obtain ⟨own, lodged, beside⟩ := building'.lodged
  have image := building'.image
  let x : Proc := ⟨.running, none, none, some t.entries, pteSz, ⟨0, 0, 0, 0, fun _ => 0⟩, []⟩
  have frame : ∀ y f, frameAt t.entries y = some f → own (.inr y) = some f := by
    intro y f has
    rw [lodged.view, has]
  refine ⟨{u | u ∈ (List.range (n + 3)).map fun i => smallImage.kend + i * ptSz},
    ⟨⟨k.vm, fun _ => x, none⟩, k.freelist, k.tables, fun _ => some t.toHomes⟩, t, ?_, rfl, ?_,
    fun m => ?_⟩
  · constructor
    case used => exact nofun
    case tree => rfl
    case stored => exact ⟨_, lodged.toStored⟩
    case pooled =>
      intro y u has
      by_contra high
      have block : (u, ptOrder) ∈ heapTables k.tables :=
        mem_heapTables.mpr ⟨lodged.rooted.ledger.live (.inr y) u has, Nat.le_of_not_lt high, rfl⟩
      have live : (u, ptOrder) ∈ k.vm.live :=
        (lodged.stocked.sound.live _).mpr (.inl (Finset.mem_union_right _ block))
      have none : k₁.vm.live = ∅ := took.live
      have order := building'.grew.tops (by rw [none]; nofun) _ live
      exact absurd order (show ptOrder ≠ maxOrd by decide)
    case frames => exact fun y f has => lodged.balanced.live _ _ (frame y f has)
    case once =>
      exact fun y z f hasY hasZ =>
        Sum.inr_injective (lodged.balanced.once _ _ f (frame y f hasY) (frame z f hasZ))
    case space => exact building'.space
    case full => exact fun n below => (image.pages n).mpr below
    case small => exact building'.small
  · have used := building'.grew.length
    rw [one, show (Tree.new a).entries = blank from rfl, lacking_one] at used
    dsimp only
    omega
  · have later := building'.grew.later m
    rw [one, show (Tree.new a).entries = blank from rfl, lacking_one] at later
    exact later

theorem lacking_two : lacking blank 0 2 = 2 := by
  rw [lacking_succ, lacking_succ]
  rfl

/-- The calls of a process of one page report running out of memory while the free list has three
tables. -/
theorem one_page_reports : ∃ slots s t, Housed ∅ slots s firstSlot t ∧ s.freelist.length = 3 ∧
    ForkReports s firstSlot ∧ SbrkReports s firstSlot 4096 := by
  obtain ⟨slots, s, t, housed, size, length, later⟩ := exists_housed (n := 3) (by decide)
  obtain ⟨forks, sbrks, -⟩ := out_of_memory_reported_iff housed
  have again : Rearranged slots s firstSlot t s := ⟨⟨∅, housed⟩, rfl, rfl⟩
  refine ⟨slots, s, t, housed, length, forks.mpr ?_ s again, (sbrks 4096 (by decide)).mpr ⟨?_, nofun⟩ s again⟩
  · rw [size, length, forkTables]
    split
    · have most := lacking_mono blank 0 (min_le_left (pagesFrom 0 pteSz)
        (bootRegion.frameCount - (held t.entries pteSz + 1)))
      rw [show pagesFrom 0 pteSz = 1 from rfl, lacking_one] at most
      exact Nat.add_le_add_left most 1
    · exact Nat.zero_le _
  · rw [size, length, sbrkTables]
    split
    · have most := lacking_mono t.entries pteSz (min_le_left (pagesFrom pteSz (sbrkGoal pteSz 4096))
        (bootRegion.frameCount - held t.entries pteSz))
      have count := later 1
      rw [lacking_two] at count
      rw [show pagesFrom pteSz (sbrkGoal pteSz 4096) = 1 from rfl] at most
      exact most.trans (by omega)
    · exact Nat.zero_le _

/-- With an empty free list and no frame but the one for the kernel stack of the child, `fork`
panics. -/
theorem fork_out_of_tables_panics : ∃ slots s t, Housed ∅ slots s firstSlot t ∧
    fork s firstSlot = .error (.panic "oom: kpt_alloc") := by
  obtain ⟨slots, s, t, housed, size, length, -⟩ := exists_housed (n := 0) (by decide)
  have one : held t.entries pteSz ≤ 1 := held_le_pages t.entries pteSz
  obtain ⟨s', housed', -, -, oom⟩ := fork_starves housed (by
    have frames : 1 < bootRegion.frameCount := by decide +kernel
    rw [size, length, forkTables, if_pos (one.trans_lt frames)]
    exact Nat.lt_add_right _ Nat.zero_lt_one)
  exact ⟨slots, s', t, housed', oom⟩

end TableMemory
