import PinkyOS.FrameOwnership

/-!
# Frames of processes

The ledger of the whole kernel: kernel stacked and the entries of the page tables of all processes
own the page frames. `exec` builds its new tree beside that ledger and exchanges it with the old
one at the end.
-/
namespace UserMemory
open MemoryLayout BuddyHeap Ledger Finset Proc
open SleepWakeup (Slot)
open Function (update update_self update_of_ne)

section Image
variable {rest : Finset (Nat × Nat)} {Ω : Type} {site : Entry → Ω} {own : Ω → Option Nat}
  {v : Vm} {d : Pgd} {sz : Nat}

/-! ### Building an image -/

variable {file : File} {cur : Option Pgd} {argv : List (List UInt8)}

section
variable (keeps : Keeps rest site own v d)
include keeps

theorem loadFrom_ends {addr offset i : Nat} :
    Ends (fun r => Keeps rest site own r.1 d) (loadFrom v d addr file offset i sz) := by
  fun_induction loadFrom v d addr file offset i sz with
  | case1 => exact .fault (by simp)
  | case2 => exact .ok keeps
  | case3 => exact .ok keeps
  | case4 => exact .fault (by simp)
  | case5 => exact .ok (keeps.write ..)
  | case6 v i more pt table n bs e read entry v' full ih => exact ih (keeps.write ..)
  | case7 => exact .ok keeps

theorem loaduvm_ends {addr offset : Nat} :
    Ends (fun r => Keeps rest site own r.1 d) (loaduvm v d addr file offset sz) := by
  rw [loaduvm]
  split
  · exact .fault (by simp)
  · exact loadFrom_ends keeps

theorem clearpteu_ends {uva : Nat} (space : Space d sz) :
    Ends (fun d' => Keeps rest site own v d' ∧ Space d' sz) (clearpteu d uva) := by
  rw [clearpteu]
  cases table : walkpgdir d uva with
  | none => exact .fault (by simp)
  | some pt =>
    have present : (walkpgdir d uva).isSome := by simp [table]
    have here : lookup d (entryOf uva) = pt (pteIdx uva) := by
      rw [← getPte_eq, getPte, table]
      rfl
    have entries : lookup (setPte d uva ((pt (pteIdx uva)).map fun e => { e with ap := apRw1 })) =
        update (lookup d) (entryOf uva)
          ((lookup d (entryOf uva)).map fun e => { e with ap := apRw1 }) := by
      rw [lookup_setPte present, here]
    refine .ok ⟨keeps.congr fun x => ?_,
      space.entries (fun i j => isSome_setPte ..) fun x hx => ?_⟩
    · rw [frameAt, frameAt, entries]
      by_cases h : x = entryOf uva
      · rw [h, update_self, Option.map_map]
        rfl
      · rw [update_of_ne h]
    · rw [entries] at hx
      by_cases h : x = entryOf uva
      · rw [h, update_self] at hx
        intro bare
        rw [← h, bare] at hx
        exact hx rfl
      · rwa [update_of_ne h] at hx

end

theorem uva2ka_ends {uva : Nat} : Ends (fun _ => True) (uva2ka v cur d uva) := by
  rw [uva2ka]
  split
  · split
    · exact .fault (by simp)
    · exact .ok trivial
  · split <;> exact .ok trivial

theorem copyout_ends {va : Nat} {bs : List UInt8} (keeps : Keeps rest site own v d) :
    Ends (fun r => Keeps rest site own r.1 d) (copyout v cur d va bs) := by
  fun_induction copyout v cur d va bs with
  | case1 v va bs more va0 fault run => exact .fault (uva2ka_ends.of_error run)
  | case2 => exact .ok keeps
  | case3 v va bs more va0 pa0 run n ih => exact ih (keeps.write ..)
  | case4 => exact .ok keeps

theorem pushArgs_ends {sp : Nat} {ustack : List Nat} (keeps : Keeps rest site own v d) :
    Ends (fun r => Keeps rest site own r.1 d) (pushArgs cur d argv v sp ustack) := by
  induction argv generalizing v sp ustack with
  | nil => exact .ok keeps
  | cons arg argv ih =>
    rw [pushArgs]
    split
    · exact .ok keeps
    · refine (copyout_ends keeps).bind ?_
      rintro ⟨v', ok⟩ keeps'
      simp only
      split
      · exact ih keeps'
      · exact .ok keeps'

variable [DecidableEq Ω]

/-- What `execStack` does once it has the two pages. -/
def stackArgs (v : Vm) (cur : Option Pgd) (d : Pgd) (sz : Nat) (argv : List (List UInt8))
    (tf : Trapframe) : Except Fault (Vm × Pgd × Trapframe × Option (Nat × Nat)) := do
  let d ← clearpteu d (sz - 2 * pteSz)
  match ← pushArgs cur d argv v sz [] with
  | (v, none) => return (v, d, tf, none)
  | (v, some (sp, ustack)) =>
    let argc := ustack.length
    let sp := (sp + 2 ^ 64 - (argc + 1) * 8) % 2 ^ 64
    let tf := { tf with r0 := argc, r1 := sp }
    let (v, ok) ← copyout v cur d (sp % 2 ^ 32) ((ustack ++ [0]).flatMap (ByteBuffer.leBytes 8))
    if ok then
      return (v, d, tf, some (sz, sp))
    else
      return (v, d, tf, none)

omit [DecidableEq Ω] in
theorem execStack_eq (v : Vm) (cur : Option Pgd) (d : Pgd) (sz : Nat) (argv : List (List UInt8))
    (tf : Trapframe) : execStack v cur d sz argv tf =
      allocuvm v d (alignUp sz pteSz % 2 ^ 32) ((alignUp sz pteSz + 2 * pteSz) % 2 ^ 32) >>= fun r =>
        if r.2.2 = 0 then .ok (r.1, r.2.1, tf, none)
        else stackArgs r.1 cur r.2.1 r.2.2 argv tf := rfl

/-- The segments of a program: whatever happens, the tree is a space that `freevm` can free. -/
theorem execLoad_ends {k off : Nat} (inj : Function.Injective site)
    (keeps : Keeps rest site own v d) (space : Space d sz) (small : sz ≤ uaddrSz) :
    Ends (fun r => KeepsBeside rest site own r.1 r.2.1 ∧
        ∃ z ≤ uaddrSz, Space r.2.1 z ∧ ∀ sz' ∈ r.2.2, sz' = z)
      (execLoad file k v d off sz) := by
  induction k generalizing own v d off sz with
  | zero =>
    refine .ok ⟨keeps.beside, sz, small, space, fun z h => ?_⟩
    exact (Option.some.inj h).symm
  | succ k ih =>
    have stop : KeepsBeside rest site own v d ∧
        ∃ z ≤ uaddrSz, Space d z ∧ ∀ sz' ∈ (none : Option Nat), sz' = z :=
      ⟨keeps.beside, sz, small, space, nofun⟩
    rw [execLoad]
    split
    · exact .ok stop
    · split
      · exact .ok stop
      · split
        · exact ih keeps space small
        · split
          · exact .ok stop
          · refine (allocuvm_ends inj keeps space small).bind ?_
            rintro ⟨v', d', r⟩ ⟨⟨own', keeps', beside⟩, failed, grown⟩
            simp only at failed grown keeps' ⊢
            split
            · rename_i zero
              exact .ok ⟨⟨own', keeps', beside⟩, sz, small, failed zero, nofun⟩
            · rename_i nonzero
              obtain ⟨space', small'⟩ := grown nonzero
              refine (loaduvm_ends keeps').bind ?_
              rintro ⟨v'', ok⟩ keeps''
              simp only
              split
              · refine (ih keeps'' space' small').mono ?_
                rintro r ⟨kept, sized⟩
                exact ⟨kept.after beside, sized⟩
              · exact .ok ⟨⟨own', keeps'', beside⟩, r, small', space', nofun⟩

omit [DecidableEq Ω] in
theorem stackArgs_ends {tf : Trapframe} (keeps : Keeps rest site own v d) (space : Space d sz) :
    Ends (fun r => Keeps rest site own r.1 r.2.1 ∧ Space r.2.1 sz ∧ ∀ x ∈ r.2.2.2, x.1 = sz)
      (stackArgs v cur d sz argv tf) := by
  rw [stackArgs]
  refine (clearpteu_ends keeps space).bind ?_
  rintro d' ⟨keeps', space'⟩
  refine (pushArgs_ends keeps').bind ?_
  rintro ⟨v', none | ⟨sp, ustack⟩⟩ pushed
  · exact .ok ⟨pushed, space', nofun⟩
  · refine (copyout_ends pushed).bind ?_
    rintro ⟨v₃, ok⟩ copied
    simp only
    split
    · refine .ok ⟨copied, space', fun x hx => ?_⟩
      obtain rfl := Option.some.inj hx
      rfl
    · exact .ok ⟨copied, space', nofun⟩

theorem execStack_ends {tf : Trapframe}
    (inj : Function.Injective site) (keeps : Keeps rest site own v d) (space : Space d sz)
    (small : sz ≤ uaddrSz) : Ends (fun r => KeepsBeside rest site own r.1 r.2.1 ∧
        ∃ z ≤ uaddrSz, Space r.2.1 z ∧ ∀ x ∈ r.2.2.2, x.1 = z)
      (execStack v cur d sz argv tf) := by
  have top : alignUp sz pteSz ≤ uaddrSz := (alignUp_le_iff (by decide) (by decide) _).mpr small
  have fits : alignUp sz pteSz % 2 ^ 32 = alignUp sz pteSz :=
    Nat.mod_eq_of_lt (top.trans_lt (by decide))
  rw [execStack_eq, fits]
  refine (allocuvm_ends inj keeps (Space.alignUp.mpr space) top).bind ?_
  rintro ⟨v', d', r⟩ ⟨⟨own', keeps', beside⟩, failed, grown⟩
  simp only at failed grown keeps' ⊢
  split
  · rename_i zero
    exact .ok ⟨⟨own', keeps', beside⟩, _, top, failed zero, nofun⟩
  · rename_i nonzero
    obtain ⟨space', small'⟩ := grown nonzero
    refine (stackArgs_ends keeps' space').mono ?_
    rintro q ⟨kept, space'', size⟩
    exact ⟨⟨own', kept, beside⟩, r, small', space'', size⟩

end Image

/-! ### The ledger of all processes -/

inductive Owner where
  | stack (p : SleepWakeup.Slot)
  | page (p : SleepWakeup.Slot) (x : Entry)
  deriving DecidableEq

/-- What an owner holds: the kernel stack of a process that is not UNUSED, or the frame that an
entry of its page table points to. -/
def Proc.frame (x : Proc) : Option Entry → Option Nat
  | none => if x.state = .unused then none else x.kstack
  | some y => x.pgdir.bind fun d => frameAt d y

def State.owner (s : State) : Owner → Option Nat
  | .stack p => (s.proc p).frame none
  | .page p y => (s.proc p).frame (some y)

/-- A process has a stack and an address space of its size, and a free slot has no tree. -/
structure Proc.Fit (x : Proc) : Prop where
  vacant : x.state = .unused → x.pgdir = none
  stack : x.state ≠ .unused → x.kstack.isSome
  tree : x.state ≠ .unused → ∃ d, x.pgdir = some d ∧ Space d x.sz ∧ x.sz ≤ uaddrSz

structure Tidy (rest : Finset (Nat × Nat)) (s : State) : Prop where
  sound : Sound rest s.vm
  balanced : Balanced s.owner s.vm.pages
  fit : ∀ p, (s.proc p).Fit

theorem page_injective (p : Slot) : Function.Injective (Owner.page p) :=
  fun _ _ h => (Owner.page.inj h).2

variable {rest : Finset (Nat × Nat)} {s t : State} {p : SleepWakeup.Slot} {v : Vm} {x : Proc}
  {own : Owner → Option Nat} {d : Pgd}

/-- One process is replaced; the ledger is known at its owners and unchanged at all others. -/
theorem Tidy.set (tidy : Tidy rest s) (change : t.proc = update s.proc p x) (new : x.Fit)
    (sound : Sound rest t.vm) (balanced : Balanced own t.vm.pages)
    (stack : own (.stack p) = x.frame none) (tree : ∀ y, own (.page p y) = x.frame (some y))
    (others : ∀ q, q ≠ p → own (.stack q) = s.owner (.stack q) ∧
      ∀ y, own (.page q y) = s.owner (.page q y)) :
    Tidy rest t := by
  have same : t.owner = own := by
    funext o
    cases o with
    | stack q =>
      by_cases h : q = p
      · subst h
        simp [State.owner, change, stack]
      · rw [(others q h).1]
        simp [State.owner, change, h]
    | page q y =>
      by_cases h : q = p
      · subst h
        simp [State.owner, change, tree]
      · rw [(others q h).2 y]
        simp [State.owner, change, h]
  refine ⟨sound, same ▸ balanced, fun q => ?_⟩
  by_cases h : q = p
  · subst h
    simpa [change] using new
  · simpa [change, h] using tidy.fit q

/-- Owners other than the entries of one process's tree. -/
theorem Beside.others {own' : Owner → Option Nat} (beside : Beside (.page p) own own') :
    (∀ q, own' (.stack q) = own (.stack q)) ∧
      ∀ q, q ≠ p → ∀ y, own' (.page q y) = own (.page q y) :=
  ⟨fun q => beside (.stack q) nofun,
    fun q h y => beside (.page q y) fun _ e => h (Owner.page.inj e).1.symm⟩

section
variable (tidy : Tidy rest s)
include tidy

theorem Tidy.tree (used : (s.proc p).state ≠ .unused) :
    ∃ d, (s.proc p).pgdir = some d ∧ Space d (s.proc p).sz ∧ (s.proc p).sz ≤ uaddrSz ∧
      Keeps rest (.page p) s.owner s.vm d := by
  obtain ⟨d, pgdir, space, small⟩ := (tidy.fit p).tree used
  refine ⟨d, pgdir, space, small, tidy.sound, tidy.balanced, fun y => ?_⟩
  simp [State.owner, frame, pgdir]

theorem Tidy.setTree (kept : KeepsBeside rest (.page p) s.owner v d)
    (used : (s.proc p).state ≠ .unused) (state : x.state ≠ .unused)
    (stack : x.kstack = (s.proc p).kstack) (pgdir : x.pgdir = some d) (space : Space d x.sz)
    (small : x.sz ≤ uaddrSz) : Tidy rest ({ s with vm := v }.setProc p x) := by
  obtain ⟨own', keeps, beside⟩ := kept
  obtain ⟨stacked, trees⟩ := beside.others
  refine tidy.set rfl ?_ keeps.sound keeps.balanced ?_ (fun y => ?_)
    fun q h => ⟨stacked q, trees q h⟩
  · exact ⟨fun h => absurd h state, fun _ => stack ▸ (tidy.fit p).stack used,
      fun _ => ⟨d, pgdir, space, small⟩⟩
  · rw [stacked]
    simp [State.owner, frame, used, state, stack]
  · rw [keeps.view]
    simp [frame, pgdir]

/-- A process changes in what the ledger does not see. -/
theorem Tidy.setPlain (frame : x.frame = (s.proc p).frame) (new : x.Fit) :
    Tidy rest (s.setProc p x) := by
  refine tidy.set rfl new tidy.sound tidy.balanced ?_ (fun y => ?_)
    fun q _ => ⟨rfl, fun _ => rfl⟩
  · rw [frame]
    rfl
  · rw [frame]
    rfl

/-! ### The calls -/

theorem growproc_ends {n : Int} (used : (s.proc p).state ≠ .unused) :
    Ends (fun r => Tidy rest r.1) (growproc s p n) := by
  obtain ⟨d, pgdir, space, small, keeps⟩ := tidy.tree used
  rw [growproc]
  simp only [pgdir]
  split
  · refine (allocuvm_ends (page_injective p) keeps space small).bind ?_
    rintro ⟨v, d', r⟩ ⟨kept, failed, grown⟩
    simp only at failed grown ⊢
    split
    · rename_i zero
      exact .ok (tidy.setTree kept used used rfl rfl (failed zero) small)
    · rename_i nonzero
      obtain ⟨space', small'⟩ := grown nonzero
      exact .ok (tidy.setTree kept used used rfl rfl space' small')
  · split
    · refine (deallocuvm_ends (page_injective p) keeps space small).bind ?_
      rintro ⟨v, d', r⟩ ⟨kept, same, size, cut⟩
      simp only at size cut same kept ⊢
      split
      · exact .ok (tidy.setTree kept used used rfl rfl same small)
      · refine .ok (tidy.setTree kept used used rfl rfl ?_
          (size ▸ (Nat.min_le_left ..).trans small))
        simp only [size]
        rcases Nat.le_total (s.proc p).sz (((s.proc p).sz + n) % 2 ^ 32).toNat with le | le
        · rwa [Nat.min_eq_left le]
        · rw [Nat.min_eq_right le]
          exact cut le_rfl le
    · exact .ok tidy

/-- A slot with a fresh kernel stack, or a null pointer. -/
theorem allocproc_ends : Ends (fun r => match r.2 with
      | none => Tidy rest r.1
      | some p => (s.proc p).state = .unused ∧ ∃ mem vm,
          r.1 = { s with vm := vm }.setProc p
            { s.proc p with state := .embryo, kstack := some mem } ∧
          Keeps rest (.page p) (update s.owner (.stack p) (some mem)) vm blank)
      (allocproc s) := by
  rw [allocproc]
  split
  · exact .ok tidy
  · rename_i p found
    have unused : (s.proc p).state = .unused := by simpa using List.find?_some found
    have vacant := (tidy.fit p).vacant unused
    refine (allocPage_ends tidy.sound).bind ?_
    rintro ⟨vm, _ | mem⟩ ends
    · obtain ⟨sound, pages⟩ := ends
      refine .ok (tidy.set rfl ?_ sound (pages ▸ tidy.balanced) ?_ (fun y => ?_)
        fun q _ => ⟨rfl, fun _ => rfl⟩)
      · exact ⟨fun _ => vacant, fun h => absurd unused h, fun h => absurd unused h⟩
      · simp [State.owner, frame, unused]
      · simp [State.owner, frame, vacant]
    · obtain ⟨sound, fresh, pages, -⟩ := ends
      refine .ok ⟨unused, mem, vm, rfl, sound, ?_, fun y => ?_⟩
      · rw [pages]
        refine tidy.balanced.take ?_ fresh
        simp [State.owner, frame, unused]
      · simp [State.owner, frame, vacant, frameAt, lookup_blank]

/-- A process starts with the stack from `allocproc` and a tree of its own. -/
theorem Tidy.born {mem : Nat}
    (kept : KeepsBeside rest (.page p) (update s.owner (.stack p) (some mem)) t.vm d)
    (change : t.proc = update s.proc p x) (state : x.state ≠ .unused)
    (stack : x.kstack = some mem) (pgdir : x.pgdir = some d) (space : Space d x.sz)
    (small : x.sz ≤ uaddrSz) : Tidy rest t := by
  obtain ⟨own, keeps, beside⟩ := kept
  obtain ⟨stacked, trees⟩ := beside.others
  refine tidy.set change ?_ keeps.sound keeps.balanced ?_ (fun y => ?_) fun q h => ⟨?_, ?_⟩
  · exact ⟨fun h => absurd h state, fun _ => by simp [stack],
      fun _ => ⟨d, pgdir, space, small⟩⟩
  · simp [stacked, frame, state, stack]
  · simp [keeps.view, frame, pgdir]
  · simp [stacked, h]
  · intro y
    simp [trees q h]

theorem userinit_ends {init : List UInt8} : Ends (Tidy rest) (userinit s init) := by
  rw [userinit]
  refine (allocproc_ends tidy).bind ?_
  rintro ⟨s', _ | p⟩ ends
  · exact .fault (by simp)
  · obtain ⟨unused, mem, vm, rfl, keeps⟩ := ends
    refine (inituvm_ends (page_injective p) keeps).bind ?_
    rintro ⟨v, d⟩ ⟨kept, space⟩
    simp only [State.setProc, update_self, Function.update_idem]
    exact .ok (tidy.born kept rfl (by simp) rfl rfl space (show pteSz ≤ uaddrSz by decide))

end

theorem Keeps.dropStack {q : Slot} {mem : Nat} (keeps : Keeps rest (.page p) own v d)
    (held : own (.stack q) = some mem) :
    ∃ v', freePage v mem = .ok v' ∧ v'.pages = v.pages.erase mem ∧
      Keeps rest (.page p) (update own (.stack q) none) v' d := by
  obtain ⟨v', run, sound, pages⟩ := freePage_ok keeps.sound (keeps.balanced.live _ _ held)
  refine ⟨v', run, pages, sound, ?_, fun y => ?_⟩
  · rw [pages]
    exact keeps.balanced.give held
  · simp [keeps.view]

theorem Tidy.vacate {own : Owner → Option Nat} (tidy : Tidy rest s)
    (change : t.proc = update s.proc p x) (state : x.state = .unused)
    (pgdir : x.pgdir = none) (keeps : Keeps rest (.page p) own t.vm blank)
    (stack : own (.stack p) = none) (others : ∀ q, q ≠ p → own (.stack q) = s.owner (.stack q) ∧
      ∀ y, own (.page q y) = s.owner (.page q y)) : Tidy rest t := by
  refine tidy.set change ?_ keeps.sound keeps.balanced ?_ (fun y => ?_) others
  · exact ⟨fun _ => pgdir, fun h => absurd state h, fun h => absurd state h⟩
  · simp [stack, frame, state]
  · simp [keeps.view, frame, pgdir, frameAt, lookup_blank]

theorem fork_ends (tidy : Tidy rest s) (used : (s.proc p).state ≠ .unused) :
    Ends (fun r => Tidy rest r.1) (fork s p) := by
  rw [fork]
  refine (allocproc_ends tidy).bind ?_
  rintro ⟨s', _ | np⟩ ends
  · exact .ok ends
  · obtain ⟨unused, mem, vm, rfl, keeps⟩ := ends
    obtain ⟨d, pgdir, space, small, -⟩ := tidy.tree used
    have other : p ≠ np := by
      rintro rfl
      exact used unused
    simp only [State.setProc, update_of_ne other, update_self, pgdir]
    refine (copyFrom_ends (page_injective np) keeps Space.blank (Nat.dvd_zero _)
      (Nat.zero_le _) small).bind ?_
    rintro ⟨v, _ | copy⟩ ends
    · obtain ⟨own, keeps', beside⟩ := ends
      obtain ⟨stacked, trees⟩ := beside.others
      have held : own (.stack np) = some mem := by simp [stacked]
      obtain ⟨v', run, -, keeps''⟩ := keeps'.dropStack held
      refine Ends.then run (.ok (tidy.vacate (Function.update_idem ..) rfl rfl keeps'' (by simp)
        fun q h => ⟨?_, fun y => ?_⟩))
      · simp [stacked, h]
      · simp [trees q h]
    · obtain ⟨kept, space'⟩ := ends
      exact .ok (tidy.born kept (Function.update_idem ..) (by simp) rfl rfl space' small)

theorem exit_ends (tidy : Tidy rest s) (used : (s.proc p).state ≠ .unused) :
    Ends (Tidy rest) (exit s p) := by
  rw [exit]
  split
  · exact .fault (by simp)
  · have same : ∀ q, (adopted s p q).state = (s.proc q).state ∧
        (adopted s p q).kstack = (s.proc q).kstack ∧ (adopted s p q).pgdir = (s.proc q).pgdir ∧
        (adopted s p q).sz = (s.proc q).sz := by
      intro q
      rw [adopted]
      split <;> exact ⟨rfl, rfl, rfl, rfl⟩
    have frame : ∀ q, (adopted s p q).frame = (s.proc q).frame := by
      intro q
      obtain ⟨state, kstack, pgdir, -⟩ := same q
      funext y
      cases y <;> simp [Proc.frame, state, kstack, pgdir]
    have passed : Tidy rest { s with proc := adopted s p } := by
      refine ⟨tidy.sound, ?_, fun q => ?_⟩
      · have owner : State.owner { s with proc := adopted s p } = s.owner := by
          funext o
          cases o <;> simp [State.owner, frame]
        rw [owner]
        exact tidy.balanced
      · obtain ⟨state, kstack, pgdir, size⟩ := same q
        obtain ⟨vacant, stack, tree⟩ := tidy.fit q
        constructor
        · rwa [state, pgdir]
        · rwa [state, kstack]
        · rwa [state, pgdir, size]
    obtain ⟨state, -⟩ := same p
    have alive : (adopted s p p).state ≠ .unused := state ▸ used
    refine .ok (passed.setPlain ?_ ⟨nofun, fun _ => (passed.fit p).stack alive,
      fun _ => (passed.fit p).tree alive⟩)
    funext y
    cases y <;> simp [Proc.frame, alive]

/-- `wait` gives back everything the reaped process owned. -/
theorem wait_ends (tidy : Tidy rest s) : Ends (fun r => Tidy rest r.1 ∧ ∀ q, r.2 = some q → ∀ y f,
        (s.proc q).frame y = some f → f ∉ r.1.vm.pages) (wait s p) := by
  rw [wait]
  split
  · exact .ok ⟨tidy, nofun⟩
  · rename_i q found
    have zombie : (s.proc q).state = .zombie := by
      have := List.find?_some found
      simp only [decide_eq_true_eq] at this
      exact this.2
    have used : (s.proc q).state ≠ .unused := by simp [zombie]
    obtain ⟨d, pgdir, space, small, keeps⟩ := tidy.tree used
    obtain ⟨mem, kstack⟩ := Option.isSome_iff_exists.mp ((tidy.fit q).stack used)
    have held : s.owner (.stack q) = some mem := by
      simp [State.owner, frame, zombie, kstack]
    obtain ⟨v, run, pages, keeps'⟩ := keeps.dropStack held
    simp only [kstack, pgdir]
    refine Ends.then run ((freevm_ends (page_injective q) keeps' space small).bind ?_)
    intro v' freed
    obtain ⟨subset, gone⟩ := keeps'.freed freed
    obtain ⟨own, keeps'', beside⟩ := freed
    obtain ⟨stacked, trees⟩ := beside.others
    refine .ok ⟨tidy.vacate rfl rfl rfl keeps'' (by simp [stacked])
      fun q' h => ⟨?_, fun y => ?_⟩, ?_⟩
    · simp [stacked, h]
    · simp [trees q' h]
    · rintro _ ⟨⟩ (_ | y) f owned
      · rw [frame, if_neg used, kstack] at owned
        obtain rfl := Option.some.inj owned
        intro again
        exact notMem_erase _ _ (pages ▸ subset again)
      · refine gone y f ?_
        rw [update_of_ne (by simp)]
        exact owned

/-! ### The exchange of images -/

/-- The ledger of all processes with room for the entries of one more tree. -/
def State.ownerBeside (s : State) : Owner ⊕ Entry → Option Nat := Sum.elim s.owner fun _ => none

theorem Tidy.aside (tidy : Tidy rest s) : Keeps rest .inr s.ownerBeside s.vm blank :=
  ⟨tidy.sound, balanced_inl.mpr tidy.balanced, fun _ => rfl⟩

theorem Beside.inl {own : Owner ⊕ Entry → Option Nat} (beside : Beside .inr s.ownerBeside own)
    (o : Owner) : own (.inl o) = s.owner o :=
  beside (.inl o) nofun

theorem Tidy.discard (tidy : Tidy rest s) (kept : KeepsBeside rest .inr s.ownerBeside v blank) :
    Tidy rest { s with vm := v } := by
  obtain ⟨own, keeps, beside⟩ := kept
  have same : own = Sum.elim s.owner fun _ => none := by
    funext o
    cases o with
    | inl o => exact beside.inl o
    | inr y => exact keeps.view y
  exact ⟨keeps.sound, balanced_inl.mp (same ▸ keeps.balanced), tidy.fit⟩

/-- The entries of the tree of `p` and those of the new tree change places. -/
def exchange (p : SleepWakeup.Slot) : Owner ⊕ Entry → Owner ⊕ Entry
  | .inl (.stack q) => .inl (.stack q)
  | .inl (.page q y) => if q = p then .inr y else .inl (.page q y)
  | .inr y => .inl (.page p y)

theorem exchange_involutive (p : Slot) : Function.Involutive (exchange p) := by
  rintro ((q | ⟨q, y⟩) | y)
  · rfl
  · by_cases h : q = p
    · simp [exchange, h]
    · simp [exchange, h]
  · simp [exchange]

/-- `exec` past the point of no return: the old tree is freed and the new one takes its place. -/
theorem Tidy.replace (tidy : Tidy rest s) (used : (s.proc p).state ≠ .unused)
    (kept : KeepsBeside rest .inr s.ownerBeside v d) (state : x.state = (s.proc p).state)
    (stack : x.kstack = (s.proc p).kstack) (pgdir : x.pgdir = some d) (space : Space d x.sz)
    (small : x.sz ≤ uaddrSz) : Ends (fun v' => Tidy rest ({ s with vm := v' }.setProc p x) ∧
        ∀ y f, s.owner (.page p y) = some f → f ∉ v'.pages) (freevm v (s.proc p).pgdir) := by
  obtain ⟨own, keeps, beside⟩ := kept
  obtain ⟨d₀, pgdir₀, space₀, small₀, keeps₀⟩ := tidy.tree used
  rw [pgdir₀]
  have old : Keeps rest (fun y => .inl (.page p y)) own v d₀ :=
    ⟨keeps.sound, keeps.balanced, fun y => (beside.inl _).trans (keeps₀.view y)⟩
  have inj : Function.Injective fun y => (.inl (.page p y) : Owner ⊕ Entry) :=
    Sum.inl_injective.comp (page_injective p)
  refine (freevm_ends inj old space₀ small₀).mono fun v' freed => ?_
  obtain ⟨-, gone⟩ := old.freed freed
  obtain ⟨own', keeps', beside'⟩ := freed
  have entries : ∀ y, own' (.inr y) = frameAt d y := fun y =>
    (beside' (.inr y) nofun).trans (keeps.view y)
  have others : ∀ o, (∀ y, o ≠ .page p y) → own' (.inl o) = s.owner o := fun o h =>
    (beside' (.inl o) fun y e => h y (Sum.inl.inj e).symm).trans (beside.inl o)
  have moved : own' ∘ exchange p = Sum.elim (fun o => own' (exchange p (.inl o))) fun _ => none := by
    funext o
    cases o with
    | inl o => rfl
    | inr y => exact keeps'.view y
  have balanced := balanced_inl.mp (moved ▸ keeps'.balanced.swap (exchange_involutive p))
  refine ⟨tidy.set rfl ?_ keeps'.sound balanced ?_ (fun y => ?_) fun q h => ⟨?_, fun y => ?_⟩,
    fun y f owned => gone y f ((beside.inl _).trans owned)⟩
  · exact ⟨fun h => absurd (state.symm.trans h) used, fun _ => stack ▸ (tidy.fit p).stack used,
      fun _ => ⟨d, pgdir, space, small⟩⟩
  · rw [exchange, others (.stack p) nofun]
    simp [State.owner, frame, state, stack]
  · simp [exchange, entries, frame, pgdir]
  · exact others _ nofun
  · rw [exchange, if_neg h]
    exact others _ fun _ e => h (Owner.page.inj e).1

theorem exec_ends {prog : Program} (tidy : Tidy rest s) (used : (s.proc p).state ≠ .unused) :
    Ends (fun r => Tidy rest r.1 ∧ (r.2 = true → ∀ y f, s.owner (.page p y) = some f →
        f ∉ r.1.vm.pages)) (exec s p prog) := by
  have fit := tidy.fit p
  rw [exec]
  split
  · exact .ok ⟨tidy, nofun⟩
  · rename_i file _
    simp only
    split
    · exact .ok ⟨tidy, nofun⟩
    · split
      · exact .ok ⟨tidy, nofun⟩
      · refine (execLoad_ends Sum.inr_injective tidy.aside Space.blank
          (Nat.zero_le _)).bind ?_
        rintro ⟨v, d, _ | sz⟩ ⟨⟨own, keeps, beside⟩, z, small, space, size⟩
        · refine (freevm_ends Sum.inr_injective keeps space small).bind ?_
          intro v' freed
          exact .ok ⟨tidy.discard (freed.after beside), nofun⟩
        · obtain rfl := size sz rfl
          refine (execStack_ends Sum.inr_injective keeps space small).bind ?_
          rintro ⟨v, d, tf, _ | ⟨sz', sp⟩⟩ ⟨⟨own', keeps', beside'⟩, z, small', space', size'⟩
          · refine (freevm_ends Sum.inr_injective keeps' space' small').bind ?_
            intro v' freed
            have kept := (freed.after beside').after beside
            refine .ok ⟨(tidy.discard kept).setPlain ?_ ⟨fit.vacant, fit.stack, fit.tree⟩, nofun⟩
            funext y
            cases y <;> rfl
          · obtain rfl := size' _ rfl
            have kept := (KeepsBeside.after ⟨own', keeps', beside'⟩ beside)
            let x : Proc := { s.proc p with
              pgdir := some d
              sz := sz'
              tf := { tf with elr := field ((file 0 sizeofElfhdr).getD prog.junk) 24 8, sp := sp }
              name := (lastElem prog.path).take 15 }
            refine (tidy.replace (x := x) used kept rfl rfl rfl space' small').bind ?_
            intro v' ⟨tidy', gone⟩
            exact .ok ⟨tidy', fun _ => gone⟩

/-! ### Whole runs -/

theorem ne_unused_of_alive {state : SleepWakeup.ProcState} (h : alive state = true) :
    state ≠ .unused := by
  rintro rfl
  cases h

/-- The scheduler and its like move a process between states in which it can run. -/
theorem Tidy.schedule {state : SleepWakeup.ProcState} (tidy : Tidy rest s)
    (before : alive (s.proc p).state = true) (after : alive state = true) :
    Tidy rest (s.setProc p { s.proc p with state := state }) := by
  have used := ne_unused_of_alive before
  have used' := ne_unused_of_alive after
  refine tidy.setPlain ?_ ⟨fun h => absurd h used', fun _ => (tidy.fit p).stack used,
    fun _ => (tidy.fit p).tree used⟩
  funext y
  cases y <;> simp [frame, used, used']

variable {heap : Kmem}

theorem Tidy.kmalloc {o q : Nat} (tidy : Tidy rest s) (order : IsOrder o)
    (run : BuddyHeap.kmalloc s.vm.heap o = .ok (heap, some q)) : Tidy (insert (q, o) rest)
      { s with vm := { s.vm with heap := heap, live := insert (q, o) s.vm.live } } := by
  have fresh := tidy.sound.heap.fresh order run
  refine ⟨⟨.malloc tidy.sound.heap order run, fun e => ?_, fun f hf => ?_⟩, tidy.balanced, tidy.fit⟩
  · simp only [mem_insert, tidy.sound.live, or_assoc]
  · rw [mem_insert, not_or]
    refine ⟨fun e => fresh (e ▸ tidy.sound.page hf), tidy.sound.apart f hf⟩

theorem Tidy.kfree {e : Nat × Nat} (tidy : Tidy rest s) (live : e ∈ s.vm.live)
    (other : ¬ (e.2 = pteShift ∧ e.1 ∈ s.vm.pages))
    (run : BuddyHeap.kfree s.vm.heap e.1 e.2 = .ok heap) :
    Tidy (rest.erase e) { s with vm := { s.vm with heap := heap, live := s.vm.live.erase e } } := by
  refine ⟨⟨.free tidy.sound.heap live run, fun b => ?_, fun f hf => ?_⟩, tidy.balanced, tidy.fit⟩
  · simp only [mem_erase, tidy.sound.live]
    constructor
    · tauto
    · rintro (h | h)
      · tauto
      · exact ⟨fun eq => other (eq ▸ h), .inr h⟩
  · exact fun h => tidy.sound.apart f hf (mem_of_mem_erase h)

theorem Ends.fst {α β : Type} {post : α → Prop} {m : Except Fault (α × β)}
    (h : Ends (fun r => post r.1) m) : Ends post (Prod.fst <$> m) := by
  cases h with
  | ok h => exact .ok h
  | fault h => exact .fault h

/-- Every call and every step of the environment. -/
theorem Tidy.perform {a : Act} (tidy : Tidy rest s) (on : enabled s a = true) :
    Ends (fun t => ∃ rest', Tidy rest' t) (perform s a) := by
  cases a with
  | userinit init => exact (userinit_ends tidy).mono fun _ h => ⟨rest, h⟩
  | fork p => exact ((fork_ends tidy (ne_unused_of_alive on)).mono fun _ h => ⟨rest, h⟩).fst
  | exec p prog => exact ((exec_ends tidy (ne_unused_of_alive on)).mono fun _ h => ⟨rest, h.1⟩).fst
  | growproc p n => exact ((growproc_ends tidy (ne_unused_of_alive on)).mono fun _ h => ⟨rest, h⟩).fst
  | exit p => exact (exit_ends tidy (ne_unused_of_alive on)).mono fun _ h => ⟨rest, h⟩
  | wait p => exact ((wait_ends tidy).mono fun _ h => ⟨rest, h.1⟩).fst
  | schedule p state =>
    obtain ⟨before, after⟩ := Bool.and_eq_true_iff.mp on
    exact .ok ⟨rest, tidy.schedule before after⟩
  | kmalloc o =>
    have order : IsOrder o := of_decide_eq_true on
    simp only [UserMemory.perform]
    split
    · rename_i run
      exact .ok ⟨_, tidy.kmalloc order run⟩
    · rename_i run
      exact .ok ⟨rest, ⟨.exhausted tidy.sound.heap order run, tidy.sound.live, tidy.sound.apart⟩,
        tidy.balanced, tidy.fit⟩
    · exact .fault (by simp)
  | kfree e =>
    simp only [enabled, Bool.and_eq_true, decide_eq_true_eq, Bool.not_eq_true',
      Bool.and_eq_false_iff, beq_eq_false_iff_ne, decide_eq_false_iff_not] at on
    simp only [UserMemory.perform]
    split
    · rename_i run
      refine .ok ⟨_, tidy.kfree on.1 ?_ run⟩
      tauto
    · exact .fault (by simp)

theorem booted_tidy (start : Booted s) : Tidy ∅ s := by
  obtain ⟨m, heap, mem, init, rfl⟩ := start
  refine ⟨⟨.init init, fun e => by simp, fun p h => by simp at h⟩, ?_, fun p => ?_⟩
  · refine ⟨fun o f h => ?_, fun f hf => by simp at hf, fun o o' f h => ?_⟩
    · cases o <;> simp [State.owner, frame] at h
    · cases o <;> simp [State.owner, frame] at h
  · exact ⟨fun _ => rfl, fun h => absurd rfl h, fun h => absurd rfl h⟩

theorem Reachable.tidy (reach : Reachable s) : ∃ rest, Tidy rest s := by
  refine TransitionSystem.Reachable.invariant (I := fun s => ∃ rest, Tidy rest s)
    (fun s start => ⟨∅, booted_tidy start⟩) ?_ reach
  rintro s a t ⟨rest, tidy⟩ next
  rw [step] at next
  split at next
  · rename_i on
    cases run : UserMemory.perform s a with
    | error e =>
      rw [run] at next
      cases next
    | ok t' =>
      rw [run] at next
      cases next
      exact (tidy.perform on).of_ok run
  · cases next

/-- A frame that is no longer in use is not a live block of the heap. -/
theorem Tidy.returned {f : Nat} (tidy : Tidy rest s)
    (used : f ∈ s.vm.pages) (after : Tidy rest t) (gone : f ∉ t.vm.pages) :
    (f, pteShift) ∉ t.vm.live := by
  rw [after.sound.live]
  rintro (h | ⟨-, h⟩)
  · exact tidy.sound.apart f used h
  · exact gone h

/-- That many frames can be taken from the heap one after the other. -/
def Plenty : Nat → Kmem → Prop
  | 0, _ => True
  | n + 1, heap => ∃ heap' p, BuddyHeap.kmalloc heap pteShift = .ok (heap', some p) ∧ Plenty n heap'

theorem Plenty.mono {m n : Nat} (plenty : Plenty n heap) (le : m ≤ n) : Plenty m heap := by
  induction m generalizing n heap with
  | zero => trivial
  | succ m ih =>
    obtain ⟨n, rfl⟩ : ∃ k, n = k + 1 := ⟨n - 1, by omega⟩
    obtain ⟨heap', p, run, more⟩ := plenty
    exact ⟨heap', p, run, ih more (by omega)⟩

/-- Frames are blocks of the highest order, and any two of them are apart. -/
theorem plenty_of_blocks {n : Nat} {A : Set Nat} (ok : HeapOk bootRegion heap A)
    (K : Finset Nat) (count : n ≤ K.card)
    (inside : ∀ k ∈ K, (⟨maxOrd, k⟩ : DyadicTiling.Block).cells ⊆ A) : Plenty n heap := by
  induction n generalizing heap A K with
  | zero => trivial
  | succ n ih =>
    obtain ⟨k, listed⟩ := card_pos.mp (Nat.lt_of_lt_of_le (Nat.succ_pos n) count)
    obtain ⟨j, heap', run, -, ok'⟩ := ok.kmalloc_some isOrder_pteShift (inside k listed)
    refine ⟨heap', _, run, ih ok' (K.erase j) ?_ fun i left => ?_⟩
    · have := pred_card_le_card_erase (s := K) (a := j)
      omega
    · obtain ⟨other, old⟩ := mem_erase.mp left
      refine fun x hx => ⟨inside i old hx, fun hj => other ?_⟩
      have same : (⟨maxOrd, i⟩ : DyadicTiling.Block) = ⟨pteShift, j⟩ :=
        DyadicTiling.Block.eq_of_meet rfl hx hj
      exact congrArg DyadicTiling.Block.id same

/-- A thousand frames can be taken from the heap after boot. -/
theorem boot_plenty (ok : HeapOk bootRegion heap (Set.Iio bootRegion.heapLen)) :
    Plenty 1000 heap := by
  apply plenty_of_blocks ok (range 1000) (card_range 1000).ge
  intro k listed
  apply top_block_inside
  have less := Nat.le_of_lt_succ (mem_range.mp listed)
  exact (Nat.mul_le_mul_right _ less).trans_lt (by decide)

/-- The slot that `userinit` takes. -/
def firstSlot : SleepWakeup.Slot := ⟨0, SleepWakeup.nproc_pos⟩

/-- A state after `userinit`: the first process has a kernel stack and one page, and there is
memory left. -/
theorem first_process : ∃ s p q d, Reachable s ∧ s.vm.pages = {q, p} ∧ p ≠ q ∧
    (s.proc firstSlot).state = .runnable ∧ (s.proc firstSlot).pgdir = some d ∧
    (s.proc firstSlot).sz = pteSz ∧
    lookup d = update (lookup blank) (page 0) (some ⟨v2p q % 2 ^ 32, apRw10⟩) ∧
    Plenty 998 s.vm.heap := by
  obtain ⟨heap, init, ok⟩ := kmemInit2_spec bootRegion
    ⟨0, 0, 0, fun _ => ⟨0, 0⟩, fun _ => ⟨0#32, 0#32⟩⟩
  obtain ⟨h₁, p, run₁, h₂, q, run₂, plenty⟩ := boot_plenty ok
  have fresh := (BuddyHeap.Reachable.malloc (.init init) isOrder_pteShift run₁).fresh
    isOrder_pteShift run₂
  let boot : State := ⟨⟨heap, fun _ => 0, ∅, ∅⟩,
    fun _ => ⟨.unused, none, none, none, 0, ⟨0, 0, 0, 0, fun _ => 0⟩, []⟩, none⟩
  let v₁ : Vm := ⟨h₁, fun _ => 0, {(p, pteShift)}, {p}⟩
  obtain ⟨-, d, map, entries, -⟩ :=
    Space.blank.grow (Nat.dvd_zero _) (by decide) (v2p q % 2 ^ 32) apRw10
  have slot : allocproc boot = .ok ({ boot with vm := v₁ }.setProc firstSlot
      { boot.proc firstSlot with state := .embryo, kstack := some p }, some firstSlot) := by
    have found : (List.finRange SleepWakeup.nproc).find? (fun i => (boot.proc i).state = .unused) =
        some firstSlot := rfl
    rw [allocproc, found]
    simp only [allocPage, boot, run₁]
    rfl
  have tree : inituvm v₁ blank [] = .ok
      ((Vm.write ⟨h₂, fun _ => 0, {(q, pteShift), (p, pteShift)}, {q, p}⟩ q
        (List.replicate pteSz 0)).write q [], d) := by
    rw [inituvm, if_neg (by decide)]
    simp only [allocPage, v₁, run₂]
    rw [ok_bind]
    simp only [map]
    rfl
  have ran : ∃ t, userinit boot [] = .ok t ∧ t.vm.pages = {q, p} ∧ t.vm.heap = h₂ ∧
      (t.proc firstSlot).state = .runnable ∧ (t.proc firstSlot).pgdir = some d ∧
      (t.proc firstSlot).sz = pteSz := by
    rw [userinit, slot, ok_bind]
    simp only [State.setProc]
    rw [tree, ok_bind]
    refine ⟨_, rfl, rfl, rfl, ?_⟩
    simp
  obtain ⟨t, ran, pages, heap', state, pgdir, size⟩ := ran
  have reach : Reachable t := by
    refine .step boot t (.userinit []) (.init boot ⟨_, heap, _, init, rfl⟩) ?_
    rw [step, if_pos (show enabled boot (.userinit []) = true from rfl), perform, ran]
    rfl
  refine ⟨t, p, q, d, reach, pages, ?_, state, pgdir, size, entries, heap' ▸ plenty⟩
  rintro rfl
  exact fresh (mem_insert_self ..)

end UserMemory
