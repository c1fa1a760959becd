import PinkyOS.MemoryLayout
import PinkyOS.TransitionSystem

/-!
# The allocator of user programs (`usr/umalloc.c`)

Memory is seen as headers at byte addresses. Both loops take fuel, more than the heap has units;
`diverges` is what a loop that uses it up would return. `sbrk` takes an `int`. A positive one moves
the break up, or fails, and stays below `UADDR_SZ`, where `allocuvm` refuses.

The ghost `live` holds the pointers that `malloc` has returned and `free` has not got back, with
the number of bytes asked for. A program may write to the bytes it asked for.
-/
namespace UserHeap
open MemoryLayout (uaddrSz)

structure Header where
  ptr : Nat
  size : Nat

def sizeofHeader : Nat := 16

/-- `p + n` for a `Header *`. -/
def plus (p n : Nat) : Nat := p + sizeofHeader * n

/-- Where a program has its static header `base` and its first break. -/
structure Image where
  base : Nat
  start : Nat
  nonnull : 0 < base
  above : base + sizeofHeader ≤ start

/-- `freep` is 0 for a null pointer. -/
structure State where
  hdr : Nat → Header
  freep : Nat
  brk : Nat
  live : Finset (Nat × Nat)

namespace State

def ptr (s : State) (p : Nat) : Nat := (s.hdr p).ptr

def size (s : State) (p : Nat) : Nat := (s.hdr p).size

def setPtr (s : State) (p q : Nat) : State :=
  { s with hdr := Function.update s.hdr p { s.hdr p with ptr := q } }

def setSize (s : State) (p n : Nat) : State :=
  { s with hdr := Function.update s.hdr p { s.hdr p with size := n % 2 ^ 32 } }

end State

inductive Fault where
  | diverges
  /-- A header is stored outside the memory that `sbrk` has granted. -/
  | stray
  deriving DecidableEq

/-- More than the number of elements that a list in the heap can have. -/
def State.steps (im : Image) (s : State) : Nat := (s.brk - im.start) / sizeofHeader + 2

/-- The loop of `free`. -/
def locate (s : State) (bp : Nat) : Nat → Nat → Except Fault Nat
  | 0, _ => .error .diverges
  | n + 1, p =>
    if bp > p ∧ bp < s.ptr p then
      .ok p
    else if p ≥ s.ptr p ∧ (bp > p ∨ bp < s.ptr p) then
      .ok p
    else
      locate s bp n (s.ptr p)

/-- `free` of the block with header `bp`. -/
def release (im : Image) (s : State) (bp : Nat) : Except Fault State := do
  let p ← locate s bp (s.steps im) s.freep
  let next := s.ptr p
  let s :=
    if plus bp (s.size bp) = next then
      (s.setSize bp (s.size bp + s.size next)).setPtr bp (s.ptr next)
    else
      s.setPtr bp next
  let s :=
    if plus p (s.size p) = bp then
      (s.setSize p (s.size p + s.size bp)).setPtr p (s.ptr bp)
    else
      s.setPtr p bp
  return { s with freep := p }

def free (im : Image) (s : State) (ap : Nat) : Except Fault State := do
  let s ← release im s (ap - sizeofHeader)
  return { s with live := s.live.filter fun x => x.1 ≠ ap }

/-- The conversion to an `int`. -/
def toInt (x : Nat) : Int := (BitVec.ofNat 32 x).toInt

/-- `sbrk` with `growproc`: the old break, or `none` for -1. Whether `allocuvm` gets its memory
depends on the break. `deallocuvm` is given an unsigned new size, and keeps the old one if that is
less; a new size of 0 is taken for a failure. -/
def sbrk (grant : Nat → Bool) (s : State) (n : Int) : Option (State × Nat) :=
  if n > 0 then
    if grant s.brk ∧ s.brk + n.toNat < uaddrSz then
      some ({ s with brk := s.brk + n.toNat }, s.brk)
    else
      none
  else if n < 0 then
    let newsz := ((s.brk + n) % 2 ^ 32).toNat
    let sz := if newsz ≥ s.brk then s.brk else newsz
    if sz = 0 then none else some ({ s with brk := sz }, s.brk)
  else
    some (s, s.brk)

/-- The part of `morecore` behind `sbrk`: `nu` units at `hp` are given to `free`. -/
def addCore (im : Image) (s : State) (hp nu : Nat) : Except Fault (Option State) :=
  if hp + sizeofHeader ≤ s.brk then
    some <$> release im (s.setSize hp nu) hp
  else
    .error .stray

/-- `morecore`; its result is `freep`, or `none` for a null pointer. -/
def morecore (im : Image) (grant : Nat → Bool) (s : State) (nu : Nat) :
    Except Fault (Option State) :=
  let nu := if nu < 4096 then 4096 else nu
  match sbrk grant s (toInt (nu * sizeofHeader)) with
  | none => .ok none
  | some (s, hp) => addCore im s hp nu

/-- The block of `nunits` that `malloc` takes from the free block at `p`, after `prevp`. -/
def carve (s : State) (nunits prevp p : Nat) : State × Nat :=
  if s.size p = nunits then
    ({ s.setPtr prevp (s.ptr p) with freep := prevp }, plus p 1)
  else
    let s := s.setSize p (s.size p - nunits)
    let p := plus p (s.size p)
    ({ s.setSize p nunits with freep := prevp }, plus p 1)

/-- The loop of `malloc`, with its return value. -/
def search (im : Image) (grant : Nat → Bool) (nunits : Nat) :
    Nat → State → Nat → Nat → Except Fault (State × Nat)
  | 0, _, _, _ => .error .diverges
  | n + 1, s, prevp, p =>
    if s.size p ≥ nunits then
      .ok (carve s nunits prevp p)
    else if p = s.freep then do
      match ← morecore im grant s nunits with
      | none => return (s, 0)
      | some s => search im grant nunits n s s.freep (s.ptr s.freep)
    else
      search im grant nunits n s p (s.ptr p)

/-- `nunits` for a request of `nbytes`. -/
def units (nbytes : Nat) : Nat := ((nbytes + sizeofHeader - 1) / sizeofHeader + 1) % 2 ^ 32

/-- `malloc`; 0 stands for a null pointer. -/
def malloc (im : Image) (grant : Nat → Bool) (s : State) (nbytes : Nat) :
    Except Fault (State × Nat) := do
  let s := if s.freep = 0 then { (s.setPtr im.base im.base).setSize im.base 0 with
    freep := im.base } else s
  let (s, p) ← search im grant (units nbytes) (2 * s.steps im + 2) s s.freep (s.ptr s.freep)
  return (if p = 0 then s else { s with live := insert (p, nbytes) s.live }, p)

/-! ### Runs -/

inductive Act where
  | malloc (nbytes : Nat) (grant : Nat → Bool)
  | free (ap : Nat)
  /-- The program writes to a block of its own. -/
  | store (a : Nat) (h : Header)

/-- The request is a `uint`, and what `morecore` asks for fits a positive `int`. -/
def fits (nbytes : Nat) : Bool := nbytes < 2 ^ 32 ∧ units nbytes * sizeofHeader < 2 ^ 31

/-- The address `a` lies in a live block, with room for a header. -/
def State.inLive (s : State) (a : Nat) : Bool :=
  ∃ x ∈ s.live, x.1 ≤ a ∧ a + sizeofHeader ≤
    plus (x.1 - sizeofHeader) (s.size (x.1 - sizeofHeader))

def enabled (s : State) : Act → Bool
  | .malloc nbytes _ => fits nbytes
  | .free ap => ∃ x ∈ s.live, x.1 = ap
  | .store a _ => s.inLive a

def perform (im : Image) (s : State) : Act → Except Fault State
  | .malloc nbytes grant => Prod.fst <$> malloc im grant s nbytes
  | .free ap => free im s ap
  | .store a h => .ok { s with hdr := Function.update s.hdr a h }

def step (im : Image) (s : State) (a : Act) : Option State :=
  if enabled s a then (perform im s a).toOption else none

/-- A program that has not called `malloc` yet. -/
def Started (im : Image) (s : State) : Prop :=
  s.freep = 0 ∧ s.brk = im.start ∧ s.live = ∅ ∧ im.start < uaddrSz

def Reachable (im : Image) : State → Prop := TransitionSystem.Reachable (Started im) (step im)

end UserHeap
