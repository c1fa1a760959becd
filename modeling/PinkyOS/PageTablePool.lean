import PinkyOS.BuddyPartition
import PinkyOS.TransitionSystem

/-!
# Storage of page tables (`kpt_alloc` and `kpt_free` of `vm.c`)

Tables come from a free list that `kmain` fills with the memory between the end of the kernel
image and `INIT_KERNMAP`, and from the buddy heap once that list is empty. The free list is
threaded through the free tables themselves; it is a list of their addresses here. `mem` is the
memory the tables are cleared in.
-/
namespace PageTablePool
open MemoryLayout BuddyHeap

structure Kpt where
  freelist : List Nat
  heap : Kmem
  mem : Nat → UInt8

/-- `memset(a, 0, n)`. -/
def memset0 (mem : Nat → UInt8) (a n : Nat) : Nat → UInt8 :=
  fun x => if a ≤ x ∧ x < a + n then 0 else mem x

def _kptFree (s : Kpt) (v : Nat) : Kpt :=
  { s with freelist := v :: s.freelist }

def kptFree (s : Kpt) (v : Nat) : Except String Kpt :=
  if v ≥ p2v initKernmap then do
    let heap ← kfree s.heap v ptOrder
    return { s with heap := heap }
  else
    return _kptFree s v

def kptFreerange (s : Kpt) (low hi : Nat) : Kpt :=
  if low < hi then
    kptFreerange (_kptFree s low) (low + ptSz) hi
  else
    s
termination_by hi - low
decreasing_by
  have : ptSz = 4096 := rfl
  omega

def kptAlloc (s : Kpt) : Except String (Kpt × Nat) :=
  match s.freelist with
  | r :: rest => return ({ s with freelist := rest, mem := memset0 s.mem r ptSz }, r)
  | [] => do
    match ← kmalloc s.heap ptOrder with
    | (heap, some r) => return ({ s with heap := heap, mem := memset0 s.mem r ptSz }, r)
    | (_, none) => throw "oom: kpt_alloc"

/-- The descriptor `walkpgdir` stores for a table. -/
def tableEntry (t : Nat) : BitVec 64 :=
  BitVec.ofNat 64 (v2p t) ||| entryTable ||| entryValid

/-- The table `walkpgdir` finds behind a descriptor. -/
def entryAddr (e : BitVec 64) : Nat :=
  p2v (e &&& pgAddrMask).toNat

/-- The table `freevm` finds behind a descriptor, `p2v(PT_ADDR(e))`. -/
def ptAddr (e : BitVec 64) : Nat :=
  p2v (alignDn e.toNat ptSz)

/-- The kernel image, which the linker places above `KERNBASE + PHY_START`; `kend` is the
address of the symbol `end`. -/
structure Image where
  kend : Nat
  linked : p2v phyStart ≤ kend

/-- The allocators with the tables and the other blocks that are live. -/
structure State where
  kpt : Kpt
  tables : Finset Nat
  blocks : Finset (Nat × Nat)

inductive Act where
  | kptAlloc
  | kptFree (t : Nat)
  | kmalloc (o : Nat)
  | kfree (e : Nat × Nat)

/-- A step frees only what is live. A panic ends the run. -/
def step (s : State) : Act → Option State
  | .kptAlloc =>
    match PageTablePool.kptAlloc s.kpt with
    | .ok (kpt, t) => some { s with kpt := kpt, tables := insert t s.tables }
    | .error _ => none
  | .kptFree t =>
    if t ∈ s.tables then
      match PageTablePool.kptFree s.kpt t with
      | .ok kpt => some { s with kpt := kpt, tables := s.tables.erase t }
      | .error _ => none
    else
      none
  | .kmalloc o =>
    if IsOrder o then
      match BuddyHeap.kmalloc s.kpt.heap o with
      | .ok (heap, some p) =>
        some { s with kpt := { s.kpt with heap := heap }, blocks := insert (p, o) s.blocks }
      | .ok (heap, none) => some { s with kpt := { s.kpt with heap := heap } }
      | .error _ => none
    else
      none
  | .kfree e =>
    if e ∈ s.blocks then
      match BuddyHeap.kfree s.kpt.heap e.1 e.2 with
      | .ok heap => some { s with kpt := { s.kpt with heap := heap }, blocks := s.blocks.erase e }
      | .error _ => none
    else
      none

/-- The allocators as `kmain` sets them up. The tables `paging_init` takes before `kmem_init2`
come from the free list, so that these calls are part of the run. -/
def Booted (image : Image) (s : State) : Prop :=
  ∃ m mem heap, kmemInit2 m bootRegion.start bootRegion.stop = .ok heap ∧
    s = ⟨kptFreerange ⟨[], heap, mem⟩ (alignUp image.kend ptSz) (p2v initKernmap), ∅, ∅⟩

abbrev Reachable (image : Image) : State → Prop :=
  TransitionSystem.Reachable (Booted image) step

end PageTablePool
