import PinkyOS.BuddyPartition
import PinkyOS.ByteBuffer
import PinkyOS.SleepWakeup

/-!
# User memory (`vm.c`, `proc.c`, `exec.c`)

A page table is a tree of three levels; `kpt_alloc` yields fresh cleared tables. Page frames come
from the buddy heap at order `PTE_SHIFT`. Each call of `proc.c` or `exec.c` runs to its end
before the next one starts. A file is known by what `readi` returns for an offset and a length.
The debugging scan of `exec` and the parts of a process that no modelled function reads are left
out.

The ghosts `live` and `pages` hold the live heap blocks and the frames that `alloc_page` returned
and `free_page` has not got back.
-/
namespace UserMemory
open MemoryLayout BuddyHeap ByteBuffer

/-- The ways a call can go wrong: a panic, `free_page` of what is not a live frame, or an access to
an address that is not mapped, after which the handler returns to the same access for ever. -/
inductive Fault where
  | panic (msg : String)
  | badFree
  | abort
  deriving DecidableEq

/-! ### Page tables -/

/-- A valid descriptor of the last level: the frame and its `AP` field. -/
structure Pte where
  pa : Nat
  ap : Nat
  deriving DecidableEq

abbrev Pt := Nat → Option Pte
abbrev Pmd := Nat → Option Pt
abbrev Pgd := Nat → Option Pmd

def pgdIdx (va : Nat) : Nat := (va >>> pgdShift) % ptrsPerPgd
def pmdIdx (va : Nat) : Nat := (va >>> pmdShift) % ptrsPerPmd
def pteIdx (va : Nat) : Nat := (va >>> pteShift) % ptrsPerPte

/-- A table as `kpt_alloc` returns it. -/
def blank {α : Type} : Nat → Option α := fun _ => none

/-- `walkpgdir` without allocation: the last-level table that covers `va`. -/
def walkpgdir (d : Pgd) (va : Nat) : Option Pt :=
  (d (pgdIdx va)).bind fun pmd => pmd (pmdIdx va)

/-- The tree after `walkpgdir` has added the tables missing on the way to `va`. -/
def addTables (d : Pgd) (va : Nat) : Pgd :=
  let pmd := (d (pgdIdx va)).getD blank
  let pt := (pmd (pmdIdx va)).getD blank
  Function.update d (pgdIdx va) (some (Function.update pmd (pmdIdx va) (some pt)))

/-- `*pte = e` for the entry of `va` in a table that exists. -/
def setPte (d : Pgd) (va : Nat) (e : Option Pte) : Pgd :=
  Function.update d (pgdIdx va) ((d (pgdIdx va)).map fun pmd =>
    Function.update pmd (pmdIdx va) ((pmd (pmdIdx va)).map fun pt =>
      Function.update pt (pteIdx va) e))

def getPte (d : Pgd) (va : Nat) : Option Pte :=
  (walkpgdir d va).bind fun pt => pt (pteIdx va)

/-- The loop of `mappages` over `n` pages. -/
def mapFrom : Nat → Pgd → Nat → Nat → Nat → Except Fault Pgd
  | 0, d, _, _, _ => .ok d
  | n + 1, d, a, pa, ap =>
    let d := addTables d a
    match getPte d a with
    | some _ => .error (.panic "remap")
    | none => mapFrom n (setPte d a (some ⟨pa, ap⟩)) (a + pteSz) ((pa + pteSz) % 2 ^ 32) ap

def mappages (d : Pgd) (va size pa ap : Nat) : Except Fault Pgd :=
  let a := alignDn va pteSz
  let last := alignDn (va + size - 1) pteSz
  mapFrom ((last - a) / pteSz + 1) d a pa ap

/-! ### Frames -/

structure Vm where
  heap : Kmem
  mem : Nat → UInt8
  live : Finset (Nat × Nat)
  pages : Finset Nat

/-- The memory with `bs` stored from `a` on. -/
def store (mem : Nat → UInt8) (a : Nat) (bs : List UInt8) : Nat → UInt8 :=
  fun x => if a ≤ x then (bs[x - a]?).getD (mem x) else mem x

def Vm.write (v : Vm) (a : Nat) (bs : List UInt8) : Vm :=
  { v with mem := store v.mem a bs }

def Vm.read (v : Vm) (a n : Nat) : List UInt8 :=
  (List.range n).map fun i => v.mem (a + i)

def allocPage (v : Vm) : Except Fault (Vm × Option Nat) :=
  match kmalloc v.heap pteShift with
  | .ok (heap, some p) => .ok
    ({ v with heap := heap, live := insert (p, pteShift) v.live, pages := insert p v.pages },
      some p)
  | .ok (heap, none) => .ok ({ v with heap := heap }, none)
  | .error msg => .error (.panic msg)

def freePage (v : Vm) (p : Nat) : Except Fault Vm :=
  if p ∈ v.pages then
    match kfree v.heap p pteShift with
    | .ok heap => .ok
      { v with heap := heap, live := v.live.erase (p, pteShift), pages := v.pages.erase p }
    | .error msg => .error (.panic msg)
  else
    .error .badFree

/-! ### Address spaces -/

def inituvm (v : Vm) (d : Pgd) (init : List UInt8) : Except Fault (Vm × Pgd) := do
  if init.length ≥ pteSz then
    .error (.panic "inituvm: more than a page")
  else
    match ← allocPage v with
    | (_, none) => .error .abort
    | (v, some mem) =>
      let d ← mappages d 0 pteSz (v2p mem % 2 ^ 32) apRw10
      return ((v.write mem (List.replicate pteSz 0)).write mem init, d)

/-- The loop of `deallocuvm` from `a` on. An absent table sends `a` to the end of the area that
the table would cover, and the loop's increment one page further. -/
def deallocFrom (v : Vm) (d : Pgd) (a oldsz : Nat) : Except Fault (Vm × Pgd) :=
  if a < oldsz then
    match walkpgdir d a with
    | none => deallocFrom v d (alignUp a pmdSz + pteSz) oldsz
    | some pt =>
      match pt (pteIdx a) with
      | none => deallocFrom v d (a + pteSz) oldsz
      | some e =>
        if e.pa = 0 then
          .error (.panic "deallocuvm")
        else
          match freePage v (p2v e.pa) with
          | .error fault => .error fault
          | .ok v => deallocFrom v (setPte d a none) (a + pteSz) oldsz
  else
    .ok (v, d)
termination_by oldsz - a
decreasing_by
  all_goals
    have span : 0 < pmdSz := by decide
    have := le_alignUp span a
    have : pteSz = 4096 := rfl
    omega

/-- `deallocuvm` with its return value. -/
def deallocuvm (v : Vm) (d : Pgd) (oldsz newsz : Nat) : Except Fault (Vm × Pgd × Nat) :=
  if newsz ≥ oldsz then
    .ok (v, d, oldsz)
  else do
    let (v, d) ← deallocFrom v d (alignUp newsz pteSz) oldsz
    return (v, d, newsz)

/-- The loop of `allocuvm` from `a` on, with its return value. -/
def allocFrom (v : Vm) (d : Pgd) (a oldsz newsz : Nat) : Except Fault (Vm × Pgd × Nat) :=
  if a < newsz then
    match allocPage v with
    | .error fault => .error fault
    | .ok (v, none) => do
      let (v, d, _) ← deallocuvm v d newsz oldsz
      return (v, d, 0)
    | .ok (v, some mem) => do
      let d ← mappages d a pteSz (v2p mem % 2 ^ 32) apRw10
      allocFrom (v.write mem (List.replicate pteSz 0)) d (a + pteSz) oldsz newsz
  else
    .ok (v, d, newsz)
termination_by newsz - a
decreasing_by
  have : pteSz = 4096 := rfl
  omega

def allocuvm (v : Vm) (d : Pgd) (oldsz newsz : Nat) : Except Fault (Vm × Pgd × Nat) :=
  if newsz ≥ uaddrSz then
    .ok (v, d, 0)
  else if newsz < oldsz then
    .ok (v, d, oldsz)
  else
    allocFrom v d (alignUp oldsz pteSz) oldsz newsz

/-- `freevm`; `none` is a null `pgdir`. The tables go back with the tree. -/
def freevm (v : Vm) : Option Pgd → Except Fault Vm
  | none => .error (.panic "freevm: no pgdir")
  | some d => do
    let (v, _, _) ← deallocuvm v d uaddrSz 0
    return v

/-- The loop of `copyuvm` from `i` on: the copy, or `none` after `goto bad`. -/
def copyFrom (v : Vm) (old new : Pgd) (i sz : Nat) : Except Fault (Vm × Option Pgd) :=
  if i < sz then
    match walkpgdir old i with
    | none => .error (.panic "copyuvm: pte should exist")
    | some pt =>
      match pt (pteIdx i) with
      | none => .error (.panic "copyuvm: page not present")
      | some e =>
        match allocPage v with
        | .error fault => .error fault
        | .ok (v, none) => do
          let v ← freevm v (some new)
          return (v, none)
        | .ok (v, some mem) => do
          let new ← mappages new i pteSz (v2p mem % 2 ^ 32) e.ap
          copyFrom (v.write mem (v.read (p2v e.pa) pteSz)) old new (i + pteSz) sz
  else
    .ok (v, some new)
termination_by sz - i
decreasing_by
  have : pteSz = 4096 := rfl
  omega

def copyuvm (v : Vm) (d : Pgd) (sz : Nat) : Except Fault (Vm × Option Pgd) :=
  copyFrom v d blank 0 sz

/-- What `readi` returns for an offset and a length: `none` for -1. -/
abbrev File := Nat → Nat → Option (List UInt8)

/-- The loop of `loaduvm` from `i` on; `false` stands for -1. An entry that is not valid gives the
physical address 0, which the kernel does not map. -/
def loadFrom (v : Vm) (d : Pgd) (addr : Nat) (file : File) (offset i sz : Nat) :
    Except Fault (Vm × Bool) :=
  if i < sz then
    match walkpgdir d (addr + i) with
    | none => .error (.panic "loaduvm: address should exist")
    | some pt =>
      let n := if sz - i < pteSz then sz - i else pteSz
      match file ((offset + i) % 2 ^ 32) n, pt (pteIdx (addr + i)) with
      | none, _ => .ok (v, false)
      | some bs, none => if bs = [] then .ok (v, false) else .error .abort
      | some bs, some e =>
        let v := v.write (p2v e.pa) bs
        if bs.length ≠ n then
          .ok (v, false)
        else
          loadFrom v d addr file offset (i + pteSz) sz
  else
    .ok (v, true)
termination_by sz - i
decreasing_by
  have : pteSz = 4096 := rfl
  omega

def loaduvm (v : Vm) (d : Pgd) (addr : Nat) (file : File) (offset sz : Nat) :
    Except Fault (Vm × Bool) :=
  if addr % pteSz ≠ 0 then
    .error (.panic "loaduvm: addr must be page aligned")
  else
    loadFrom v d addr file offset 0 sz

def clearpteu (d : Pgd) (uva : Nat) : Except Fault Pgd :=
  match walkpgdir d uva with
  | none => .error (.panic "clearpteu")
  | some pt => .ok (setPte d uva ((pt (pteIdx uva)).map fun e => { e with ap := apRw1 }))

/-- The word at address 0 in the memory of the current process, whose page table is `cur`. -/
def wordAtZero (v : Vm) (cur : Option Pgd) : Option Nat :=
  cur.bind fun d => (getPte d 0).map fun e => ofLE (v.read (p2v e.pa) 8)

/-- What `uva2ka` makes of a word that it takes for an entry. -/
def entryAddr (w : Nat) : Option Nat :=
  if w % 4 = 0 ∨ w &&& apMask ≠ apRw10 then none
  else if p2v (alignDn w pteSz) % 2 ^ 64 = 0 then none
  else some (p2v (alignDn w pteSz) % 2 ^ 64)

/-- `uva2ka`, which does not check that `walkpgdir` has found an entry: a null pointer is the
address 0 of the current process. -/
def uva2ka (v : Vm) (cur : Option Pgd) (d : Pgd) (uva : Nat) : Except Fault (Option Nat) :=
  match walkpgdir d uva with
  | none =>
    match wordAtZero v cur with
    | none => .error .abort
    | some w => .ok (entryAddr w)
  | some pt =>
    match pt (pteIdx uva) with
    | none => .ok none
    | some e => .ok (if e.ap ≠ apRw10 then none else some (p2v e.pa))

/-- `copyout`; `false` stands for -1. -/
def copyout (v : Vm) (cur : Option Pgd) (d : Pgd) (va : Nat) (bs : List UInt8) :
    Except Fault (Vm × Bool) :=
  if bs.length > 0 then
    let va0 := alignDn va pteSz
    match uva2ka v cur d va0 with
    | .error fault => .error fault
    | .ok none => .ok (v, false)
    | .ok (some pa0) =>
      let n := min (pteSz - (va - va0)) bs.length
      copyout (v.write (pa0 + (va - va0)) (bs.take n)) cur d ((va0 + pteSz) % 2 ^ 32) (bs.drop n)
  else
    .ok (v, true)
termination_by bs.length
decreasing_by
  have size : pteSz = 4096 := rfl
  simp only [List.length_drop, alignDn, size]
  omega

/-! ### Processes -/

def maxarg : Nat := 32

/-- `regs` are `r2` to `r30` and `spsr`. -/
structure Trapframe where
  r0 : Nat
  r1 : Nat
  sp : Nat
  elr : Nat
  regs : Nat → Nat

/-- `kstack` and `pgdir` are `none` where the kernel has a null pointer, and after `freevm`. -/
structure Proc where
  state : SleepWakeup.ProcState
  parent : Option SleepWakeup.Slot
  kstack : Option Nat
  pgdir : Option Pgd
  sz : Nat
  tf : Trapframe
  name : List UInt8

structure State where
  vm : Vm
  proc : SleepWakeup.Slot → Proc
  initproc : Option SleepWakeup.Slot

def State.setProc (s : State) (p : SleepWakeup.Slot) (x : Proc) : State :=
  { s with proc := Function.update s.proc p x }

/-- `allocproc`; `none` stands for a null pointer. -/
def allocproc (s : State) : Except Fault (State × Option SleepWakeup.Slot) := do
  match (List.finRange SleepWakeup.nproc).find? fun p => (s.proc p).state = .unused with
  | none => return (s, none)
  | some p =>
    match ← allocPage s.vm with
    | (vm, none) => return ({ s with vm := vm }.setProc p { s.proc p with kstack := none }, none)
    | (vm, some mem) =>
      return ({ s with vm := vm }.setProc p
        { s.proc p with state := .embryo, kstack := some mem }, some p)

def userinit (s : State) (init : List UInt8) : Except Fault State := do
  match ← allocproc s with
  | (_, none) => .error .abort
  | (s, some p) =>
    let (vm, d) ← inituvm s.vm blank init
    return { s with vm := vm, initproc := some p }.setProc p
      { s.proc p with
        pgdir := some d
        sz := pteSz
        tf := ⟨0, 0, pteSz, 0, fun _ => 0⟩
        name := [105, 110, 105, 116, 99, 111, 100, 101]
        state := .runnable }

/-- `growproc`; `false` stands for -1. -/
def growproc (s : State) (p : SleepWakeup.Slot) (n : Int) : Except Fault (State × Bool) := do
  let x := s.proc p
  match x.pgdir with
  | none => .error .abort
  | some d =>
    let goal := (((x.sz : Int) + n) % 2 ^ 32).toNat
    if n > 0 then
      let (vm, d, sz) ← allocuvm s.vm d x.sz goal
      if sz = 0 then
        return ({ s with vm := vm }.setProc p { x with pgdir := some d }, false)
      else
        return ({ s with vm := vm }.setProc p { x with pgdir := some d, sz := sz }, true)
    else if n < 0 then
      let (vm, d, sz) ← deallocuvm s.vm d x.sz goal
      if sz = 0 then
        return ({ s with vm := vm }.setProc p { x with pgdir := some d }, false)
      else
        return ({ s with vm := vm }.setProc p { x with pgdir := some d, sz := sz }, true)
    else
      return (s, true)

/-- `fork`; `none` stands for -1, and the slot of the child for its pid. -/
def fork (s : State) (p : SleepWakeup.Slot) : Except Fault (State × Option SleepWakeup.Slot) := do
  match ← allocproc s with
  | (s, none) => return (s, none)
  | (s, some np) =>
    let x := s.proc p
    match x.pgdir with
    | none => .error .abort
    | some d =>
      match ← copyuvm s.vm d x.sz with
      | (vm, none) =>
        match (s.proc np).kstack with
        | none => .error .badFree
        | some mem =>
          let vm ← freePage vm mem
          return ({ s with vm := vm }.setProc np
            { s.proc np with pgdir := none, kstack := none, state := .unused }, none)
      | (vm, some copy) =>
        return ({ s with vm := vm }.setProc np
          { s.proc np with
            pgdir := some copy
            sz := x.sz
            parent := some p
            tf := { x.tf with r0 := 0 }
            state := .runnable
            name := x.name }, some np)

/-- A process after `exit` of `p` has passed on the children of `p`. -/
def adopted (s : State) (p q : SleepWakeup.Slot) : Proc :=
  if (s.proc q).parent = some p then { s.proc q with parent := s.initproc } else s.proc q

def exit (s : State) (p : SleepWakeup.Slot) : Except Fault State :=
  if s.initproc = some p then
    .error (.panic "init exiting")
  else
    .ok ({ s with proc := adopted s p }.setProc p { adopted s p p with state := .zombie })

/-- One scan of the table by `wait`: the first zombie child is reaped. -/
def wait (s : State) (p : SleepWakeup.Slot) : Except Fault (State × Option SleepWakeup.Slot) := do
  match (List.finRange SleepWakeup.nproc).find? fun q =>
      (s.proc q).parent = some p ∧ (s.proc q).state = .zombie with
  | none => return (s, none)
  | some q =>
    let x := s.proc q
    match x.kstack with
    | none => .error .badFree
    | some mem =>
      let vm ← freePage s.vm mem
      let vm ← freevm vm x.pgdir
      return ({ s with vm := vm }.setProc q
        { x with kstack := none, pgdir := none, state := .unused, parent := none, name := [] },
        some q)

/-! ### `exec` -/

/-- The program named by `path`, `none` if there is none; `junk` is what the uninitialised
`struct elfhdr` holds. -/
structure Program where
  file : Option File
  junk : List UInt8
  path : List UInt8
  argv : List (List UInt8)

def field (bs : List UInt8) (off width : Nat) : Nat :=
  ofLE ((bs.drop off).take width)

def sizeofElfhdr : Nat := 64
def sizeofProghdr : Nat := 56
def elfMagic : Nat := 0x464C457F

/-- The loop of `exec` over the program headers: the size reached, or `none` for `goto bad`. -/
def execLoad (file : File) : Nat → Vm → Pgd → Nat → Nat → Except Fault (Vm × Pgd × Option Nat)
  | 0, v, d, _, sz => .ok (v, d, some sz)
  | k + 1, v, d, off, sz =>
    match file (off % 2 ^ 32) sizeofProghdr with
    | none => .ok (v, d, none)
    | some ph =>
      if ph.length ≠ sizeofProghdr then
        .ok (v, d, none)
      else if field ph 0 4 ≠ 1 then
        execLoad file k v d (off + sizeofProghdr) sz
      else if field ph 40 8 < field ph 32 8 then
        .ok (v, d, none)
      else do
        let (v, d, sz) ← allocuvm v d sz ((field ph 16 8 + field ph 40 8) % 2 ^ 32)
        if sz = 0 then
          return (v, d, none)
        else
          let (v, ok) ← loaduvm v d (field ph 16 8) file (field ph 8 8 % 2 ^ 32)
            (field ph 32 8 % 2 ^ 32)
          if ok then
            execLoad file k v d (off + sizeofProghdr) sz
          else
            return (v, d, none)

/-- The loop of `exec` over the arguments: the stack pointer and `ustack`, or `none` for
`goto bad`. -/
def pushArgs (cur : Option Pgd) (d : Pgd) : List (List UInt8) → Vm → Nat → List Nat →
    Except Fault (Vm × Option (Nat × List Nat))
  | [], v, sp, ustack => .ok (v, some (sp, ustack))
  | arg :: rest, v, sp, ustack =>
    if ustack.length ≥ maxarg then
      .ok (v, none)
    else do
      let sp := (sp + 2 ^ 64 - (arg.length + 1)) % 2 ^ 64 / 8 * 8
      let (v, ok) ← copyout v cur d (sp % 2 ^ 32) (arg ++ [0])
      if ok then
        pushArgs cur d rest v sp (ustack ++ [sp])
      else
        return (v, none)

/-- The part of a path after its last slash. -/
def lastElem (path : List UInt8) : List UInt8 :=
  (path.reverse.takeWhile fun c => c ≠ 47).reverse

/-- The new image up to the point of no return: the page table with the size, the stack pointer
and the two argument registers, or `none` for `goto bad`. -/
def execStack (v : Vm) (cur : Option Pgd) (d : Pgd) (sz : Nat) (argv : List (List UInt8))
    (tf : Trapframe) : Except Fault (Vm × Pgd × Trapframe × Option (Nat × Nat)) := do
  let sz := alignUp sz pteSz
  let (v, d, sz) ← allocuvm v d (sz % 2 ^ 32) ((sz + 2 * pteSz) % 2 ^ 32)
  if sz = 0 then
    return (v, d, tf, none)
  else
    let d ← clearpteu d (sz - 2 * pteSz)
    match ← pushArgs cur d argv v sz [] with
    | (v, none) => return (v, d, tf, none)
    | (v, some (sp, ustack)) =>
      let argc := ustack.length
      let sp := (sp + 2 ^ 64 - (argc + 1) * 8) % 2 ^ 64
      let tf := { tf with r0 := argc, r1 := sp }
      let (v, ok) ← copyout v cur d (sp % 2 ^ 32) ((ustack ++ [0]).flatMap (leBytes 8))
      if ok then
        return (v, d, tf, some (sz, sp))
      else
        return (v, d, tf, none)

/-- `exec`; `false` stands for -1. -/
def exec (s : State) (p : SleepWakeup.Slot) (prog : Program) : Except Fault (State × Bool) := do
  let x := s.proc p
  match prog.file with
  | none => return (s, false)
  | some file =>
    let read := file 0 sizeofElfhdr
    -- the comparison is unsigned, so that -1 passes as a long enough read
    if (read.map List.length).getD sizeofElfhdr < sizeofElfhdr then
      return (s, false)
    else
      let elf := read.getD prog.junk
      if field elf 0 4 ≠ elfMagic then
        return (s, false)
      else
        match ← execLoad file (field elf 56 2) s.vm blank (field elf 32 8) 0 with
        | (v, d, none) =>
          let v ← freevm v (some d)
          return ({ s with vm := v }, false)
        | (v, d, some sz) =>
          match ← execStack v x.pgdir d sz prog.argv x.tf with
          | (v, d, tf, none) =>
            let v ← freevm v (some d)
            return ({ s with vm := v }.setProc p { x with tf := tf }, false)
          | (v, d, tf, some (sz, sp)) =>
            let v ← freevm v x.pgdir
            return ({ s with vm := v }.setProc p
              { x with
                pgdir := some d
                sz := sz
                tf := { tf with elr := field elf 24 8, sp := sp }
                name := (lastElem prog.path).take 15 }, true)

/-! ### Runs -/

inductive Act where
  | userinit (init : List UInt8)
  | fork (p : SleepWakeup.Slot)
  | exec (p : SleepWakeup.Slot) (prog : Program)
  | growproc (p : SleepWakeup.Slot) (n : Int)
  | exit (p : SleepWakeup.Slot)
  | wait (p : SleepWakeup.Slot)
  /-- The scheduler, `sleep` and `wakeup`. -/
  | schedule (p : SleepWakeup.Slot) (state : SleepWakeup.ProcState)
  /-- Other users of the heap. -/
  | kmalloc (o : Nat)
  | kfree (e : Nat × Nat)

/-- The states of a process that can run. -/
def alive : SleepWakeup.ProcState → Bool
  | .sleeping | .runnable | .running => true
  | _ => false

/-- `userinit` is called once, the other calls by processes; other users of the heap free only
blocks of their own. -/
def enabled (s : State) : Act → Bool
  | .userinit _ => s.initproc.isNone
  | .fork p | .exec p _ | .growproc p _ | .exit p | .wait p => alive (s.proc p).state
  | .schedule p state => alive (s.proc p).state && alive state
  | .kmalloc o => decide (IsOrder o)
  | .kfree e => decide (e ∈ s.vm.live) && !(e.2 == pteShift && decide (e.1 ∈ s.vm.pages))

def perform (s : State) : Act → Except Fault State
  | .userinit init => UserMemory.userinit s init
  | .fork p => Prod.fst <$> UserMemory.fork s p
  | .exec p prog => Prod.fst <$> UserMemory.exec s p prog
  | .growproc p n => Prod.fst <$> UserMemory.growproc s p n
  | .exit p => UserMemory.exit s p
  | .wait p => Prod.fst <$> UserMemory.wait s p
  | .schedule p state => .ok (s.setProc p { s.proc p with state := state })
  | .kmalloc o =>
    match BuddyHeap.kmalloc s.vm.heap o with
    | .ok (heap, some q) =>
      .ok { s with vm := { s.vm with heap := heap, live := insert (q, o) s.vm.live } }
    | .ok (heap, none) => .ok { s with vm := { s.vm with heap := heap } }
    | .error msg => .error (.panic msg)
  | .kfree e =>
    match BuddyHeap.kfree s.vm.heap e.1 e.2 with
    | .ok heap => .ok { s with vm := { s.vm with heap := heap, live := s.vm.live.erase e } }
    | .error msg => .error (.panic msg)

def step (s : State) (a : Act) : Option State :=
  if enabled s a then (perform s a).toOption else none

/-- The kernel before `userinit`: an empty process table over the fresh heap. -/
def Booted (s : State) : Prop :=
  ∃ m heap mem, kmemInit2 m bootRegion.start bootRegion.stop = .ok heap ∧
    s = ⟨⟨heap, mem, ∅, ∅⟩, fun _ => ⟨.unused, none, none, none, 0, ⟨0, 0, 0, 0, fun _ => 0⟩, []⟩, none⟩

abbrev Reachable : State → Prop := TransitionSystem.Reachable Booted step

end UserMemory
