import PinkyOS.Sbrk
import PinkyOS.PageTableStorage

/-!
# User memory with the storage of its page tables (`vm.c`, `proc.c`, `exec.c`)

The functions of the module `UserMemory` once more, where they take and return page tables.
`kpt_alloc` takes a table from the boot free list or, once that is empty, from the heap that the
page frames come from too, and panics when it finds nothing. It clears `PT_SZ` bytes, four times
as much as the block that it gets from the heap. A page table is the tree of its entries, with the
addresses of the tables beside it; how a tree lies in the words of its tables is the subject of the
module `PageTableWords`.

The ghost `tables` holds the tables that `kpt_alloc` returned and `kpt_free` has not got back.
-/
namespace TableMemory
open MemoryLayout BuddyHeap UserMemory
open PageTablePool (memset0)

structure Store where
  vm : Vm
  freelist : List Nat
  tables : Finset Nat

def kptAlloc (k : Store) : Except Fault (Store × Nat) :=
  match k.freelist with
  | r :: rest => .ok
    ({ k with
        vm := { k.vm with mem := memset0 k.vm.mem r ptSz }
        freelist := rest
        tables := insert r k.tables }, r)
  | [] =>
    match kmalloc k.vm.heap ptOrder with
    | .ok (heap, some r) => .ok
      ({ k with
          vm := { k.vm with
            heap := heap
            mem := memset0 k.vm.mem r ptSz
            live := insert (r, ptOrder) k.vm.live }
          tables := insert r k.tables }, r)
    | .ok (_, none) => .error (.panic "oom: kpt_alloc")
    | .error msg => .error (.panic msg)

def kptFree (k : Store) (t : Nat) : Except Fault Store :=
  if t ∈ k.tables then
    if t ≥ p2v initKernmap then
      match kfree k.vm.heap t ptOrder with
      | .ok heap => .ok
        { k with
          vm := { k.vm with heap := heap, live := k.vm.live.erase (t, ptOrder) }
          tables := k.tables.erase t }
      | .error msg => .error (.panic msg)
    else
      .ok { k with freelist := t :: k.freelist, tables := k.tables.erase t }
  else
    .error .badFree

/-! ### Page tables -/

/-- Where the tables of a page table lie. -/
structure Homes where
  pgd : Nat
  pmd : Nat → Option Nat
  pt : Nat → Nat → Option Nat

structure Tree extends Homes where
  entries : Pgd

/-- A page table that consists of the first-level table at `a`. -/
def Tree.new (a : Nat) : Tree := ⟨⟨a, fun _ => none, fun _ _ => none⟩, blank⟩

/-- The first level of `walkpgdir` with allocation. -/
def addPmd (k : Store) (t : Tree) (i : Nat) : Except Fault (Store × Tree) :=
  match t.pmd i with
  | some _ => .ok (k, t)
  | none => do
    let (k, a) ← kptAlloc k
    return (k, { t with
      pmd := Function.update t.pmd i (some a)
      entries := Function.update t.entries i (some blank) })

/-- The second level. -/
def addPt (k : Store) (t : Tree) (i j : Nat) : Except Fault (Store × Tree) :=
  match t.pt i j with
  | some _ => .ok (k, t)
  | none => do
    let (k, a) ← kptAlloc k
    return (k, { t with
      pt := Function.update t.pt i (Function.update (t.pt i) j (some a))
      entries := Function.update t.entries i ((t.entries i).map fun pmd =>
        Function.update pmd j (some blank)) })

/-- `walkpgdir` with allocation. -/
def walkpgdir (k : Store) (t : Tree) (va : Nat) : Except Fault (Store × Tree) := do
  let (k, t) ← addPmd k t (pgdIdx va)
  addPt k t (pgdIdx va) (pmdIdx va)

def mapFrom : Nat → Store → Tree → Nat → Nat → Nat → Except Fault (Store × Tree)
  | 0, k, t, _, _, _ => .ok (k, t)
  | n + 1, k, t, a, pa, ap => do
    let (k, t) ← walkpgdir k t a
    match getPte t.entries a with
    | some _ => .error (.panic "remap")
    | none =>
      mapFrom n k { t with entries := setPte t.entries a (some ⟨pa, ap⟩) } (a + pteSz)
        ((pa + pteSz) % 2 ^ 32) ap

def mappages (k : Store) (t : Tree) (va size pa ap : Nat) : Except Fault (Store × Tree) :=
  let a := alignDn va pteSz
  let last := alignDn (va + size - 1) pteSz
  mapFrom ((last - a) / pteSz + 1) k t a pa ap

/-! ### Address spaces -/

def deallocuvm (k : Store) (t : Tree) (oldsz newsz : Nat) : Except Fault (Store × Tree × Nat) := do
  let (v, d, sz) ← UserMemory.deallocuvm k.vm t.entries oldsz newsz
  return ({ k with vm := v }, { t with entries := d }, sz)

def allocFrom (k : Store) (t : Tree) (a oldsz newsz : Nat) :
    Except Fault (Store × Tree × Nat) :=
  if a < newsz then
    match allocPage k.vm with
    | .error fault => .error fault
    | .ok (v, none) => do
      let (k, t, _) ← deallocuvm { k with vm := v } t newsz oldsz
      return (k, t, 0)
    | .ok (v, some mem) => do
      let (k, t) ← mappages { k with vm := v.write mem (List.replicate pteSz 0) } t a pteSz
        (v2p mem % 2 ^ 32) apRw10
      allocFrom k t (a + pteSz) oldsz newsz
  else
    .ok (k, t, newsz)
termination_by newsz - a
decreasing_by
  have : pteSz = 4096 := rfl
  omega

def allocuvm (k : Store) (t : Tree) (oldsz newsz : Nat) : Except Fault (Store × Tree × Nat) :=
  if newsz ≥ uaddrSz then
    .ok (k, t, 0)
  else if newsz < oldsz then
    .ok (k, t, oldsz)
  else
    allocFrom k t (alignUp oldsz pteSz) oldsz newsz

/-- The tables of a page table in the order in which `freevm` frees them. -/
def Homes.tables (h : Homes) : List Nat :=
  (List.range ptrsPerPgd).flatMap (fun j =>
    match h.pmd j with
    | none => []
    | some a => (List.range ptrsPerPmd).filterMap (h.pt j) ++ [a]) ++ [h.pgd]

def freevm (k : Store) : Option Tree → Except Fault Store
  | none => .error (.panic "freevm: no pgdir")
  | some t => do
    let (k, t, _) ← deallocuvm k t uaddrSz 0
    t.tables.foldlM kptFree k

def copyFrom (k : Store) (old : Pgd) (new : Tree) (i sz : Nat) :
    Except Fault (Store × Option Tree) :=
  if i < sz then
    match UserMemory.walkpgdir old i with
    | none => .error (.panic "copyuvm: pte should exist")
    | some pt =>
      match pt (pteIdx i) with
      | none => .error (.panic "copyuvm: page not present")
      | some e =>
        match allocPage k.vm with
        | .error fault => .error fault
        | .ok (v, none) => do
          let k ← freevm { k with vm := v } (some new)
          return (k, none)
        | .ok (v, some mem) => do
          let (k, new) ← mappages { k with vm := v.write mem (v.read (p2v e.pa) pteSz) } new i
            pteSz (v2p mem % 2 ^ 32) e.ap
          copyFrom k old new (i + pteSz) sz
  else
    .ok (k, some new)
termination_by sz - i
decreasing_by
  have : pteSz = 4096 := rfl
  omega

def copyuvm (k : Store) (d : Pgd) (sz : Nat) : Except Fault (Store × Option Tree) := do
  let (k, a) ← kptAlloc k
  copyFrom k d (.new a) 0 sz

/-! ### Processes -/

/-- The processes with the entries of their page tables, and beside them where the tables lie. -/
structure State where
  base : UserMemory.State
  freelist : List Nat
  tables : Finset Nat
  homes : SleepWakeup.Slot → Option Homes

def State.store (s : State) : Store := ⟨s.base.vm, s.freelist, s.tables⟩

def State.tree (s : State) (p : SleepWakeup.Slot) : Option Tree := do
  let d ← (s.base.proc p).pgdir
  let h ← s.homes p
  return { h with entries := d }

/-- The memory is `k` and the process `p` is `x`, with the page table `t` if it has one. -/
def State.set (s : State) (k : Store) (p : SleepWakeup.Slot) (x : Proc) (t : Option Tree) : State :=
  ⟨{ s.base with vm := k.vm }.setProc p { x with pgdir := t.map Tree.entries }, k.freelist,
    k.tables, Function.update s.homes p (t.map Tree.toHomes)⟩

def growproc (s : State) (p : SleepWakeup.Slot) (n : Int) : Except Fault (State × Bool) := do
  let x := s.base.proc p
  match s.tree p with
  | none => .error .abort
  | some t =>
    let goal := (((x.sz : Int) + n) % 2 ^ 32).toNat
    if n > 0 then
      let (k, t, sz) ← allocuvm s.store t x.sz goal
      if sz = 0 then
        return (s.set k p x (some t), false)
      else
        return (s.set k p { x with sz := sz } (some t), true)
    else if n < 0 then
      let (k, t, sz) ← deallocuvm s.store t x.sz goal
      if sz = 0 then
        return (s.set k p x (some t), false)
      else
        return (s.set k p { x with sz := sz } (some t), true)
    else
      return (s, true)

def fork (s : State) (p : SleepWakeup.Slot) : Except Fault (State × Option SleepWakeup.Slot) := do
  match ← allocproc s.base with
  | (b, none) => return ({ s with base := b }, none)
  | (b, some np) =>
    let x := b.proc p
    match x.pgdir with
    | none => .error .abort
    | some d =>
      match ← copyuvm ⟨b.vm, s.freelist, s.tables⟩ d x.sz with
      | (k, none) =>
        match (b.proc np).kstack with
        | none => .error .badFree
        | some mem =>
          let vm ← freePage k.vm mem
          return ({ s with base := b }.set { k with vm := vm } np
            { b.proc np with kstack := none, state := .unused } none, none)
      | (k, some new) =>
        return ({ s with base := b }.set k np
          { b.proc np with
            sz := x.sz
            parent := some p
            tf := { x.tf with r0 := 0 }
            state := .runnable
            name := x.name } (some new), some np)

/-! ### `exec` -/

def execLoad (file : File) : Nat → Store → Tree → Nat → Nat →
    Except Fault (Store × Tree × Option Nat)
  | 0, k, t, _, sz => .ok (k, t, some sz)
  | n + 1, k, t, off, sz =>
    match file (off % 2 ^ 32) sizeofProghdr with
    | none => .ok (k, t, none)
    | some ph =>
      if ph.length ≠ sizeofProghdr then
        .ok (k, t, none)
      else if field ph 0 4 ≠ 1 then
        execLoad file n k t (off + sizeofProghdr) sz
      else if field ph 40 8 < field ph 32 8 then
        .ok (k, t, none)
      else do
        let (k, t, sz) ← allocuvm k t sz ((field ph 16 8 + field ph 40 8) % 2 ^ 32)
        if sz = 0 then
          return (k, t, none)
        else
          let (v, ok) ← loaduvm k.vm t.entries (field ph 16 8) file (field ph 8 8 % 2 ^ 32)
            (field ph 32 8 % 2 ^ 32)
          if ok then
            execLoad file n { k with vm := v } t (off + sizeofProghdr) sz
          else
            return ({ k with vm := v }, t, none)

def execStack (k : Store) (cur : Option Pgd) (t : Tree) (sz : Nat) (argv : List (List UInt8))
    (tf : Trapframe) : Except Fault (Store × Tree × Trapframe × Option (Nat × Nat)) := do
  let sz := alignUp sz pteSz
  let (k, t, sz) ← allocuvm k t (sz % 2 ^ 32) ((sz + 2 * pteSz) % 2 ^ 32)
  if sz = 0 then
    return (k, t, tf, none)
  else
    let d ← clearpteu t.entries (sz - 2 * pteSz)
    let t := { t with entries := d }
    match ← pushArgs cur d argv k.vm sz [] with
    | (v, none) => return ({ k with vm := v }, t, tf, none)
    | (v, some (sp, ustack)) =>
      let argc := ustack.length
      let sp := (sp + 2 ^ 64 - (argc + 1) * 8) % 2 ^ 64
      let tf := { tf with r0 := argc, r1 := sp }
      let (v, ok) ← copyout v cur d (sp % 2 ^ 32)
        ((ustack ++ [0]).flatMap (ByteBuffer.leBytes 8))
      if ok then
        return ({ k with vm := v }, t, tf, some (sz, sp))
      else
        return ({ k with vm := v }, t, tf, none)

def exec (s : State) (p : SleepWakeup.Slot) (prog : Program) : Except Fault (State × Bool) := do
  let x := s.base.proc p
  match prog.file with
  | none => return (s, false)
  | some file =>
    let read := file 0 sizeofElfhdr
    -- the comparison is unsigned, so that -1 passes as a long enough read
    if (read.map List.length).getD sizeofElfhdr < sizeofElfhdr then
      return (s, false)
    else
      let elf := read.getD prog.junk
      if field elf 0 4 ≠ elfMagic then
        return (s, false)
      else
        let (k, a) ← kptAlloc s.store
        match ← execLoad file (field elf 56 2) k (.new a) (field elf 32 8) 0 with
        | (k, t, none) =>
          let k ← freevm k (some t)
          return (s.set k p x (s.tree p), false)
        | (k, t, some sz) =>
          match ← execStack k x.pgdir t sz prog.argv x.tf with
          | (k, t, tf, none) =>
            let k ← freevm k (some t)
            return (s.set k p { x with tf := tf } (s.tree p), false)
          | (k, t, tf, some (sz, sp)) =>
            let k ← freevm k (s.tree p)
            return (s.set k p
              { x with
                sz := sz
                tf := { tf with elr := field elf 24 8, sp := sp }
                name := (lastElem prog.path).take 15 } (some t), true)

end TableMemory
