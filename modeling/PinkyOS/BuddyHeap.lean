import PinkyOS.MemoryLayout

/-!
# The buddy allocator of `buddy.c`

Each order from 6 to 12 divides the heap into equal blocks. One mark holds the
availability bits of 32 consecutive blocks of an order, and the marks of an
order with a nonzero bitmap are chained by 16-bit indices packed in `lnks`.
The marks of all orders form one array at the start of the region. A panic is
an error that carries its message; the spinlock is not modelled, since every
operation runs with it held. Addresses are natural numbers.
-/

namespace BuddyHeap

open MemoryLayout

def maxOrd : Nat := 12

def minOrd : Nat := 6

def nOrd : Nat := maxOrd - minOrd + 1

/-- The null link, `(uint16)0xFFFF`. -/
def NIL : Nat := 0xFFFF

structure Mark where
  lnks : BitVec 32
  bitmap : BitVec 32
  deriving DecidableEq, Repr

def preLnk (lnks : BitVec 32) : Nat := (lnks >>> 16).toNat

def nextLnk (lnks : BitVec 32) : Nat := (lnks &&& 0xFFFF#32).toNat

def mkLnks (pre next : Nat) : BitVec 32 :=
  (BitVec.ofNat 32 pre <<< 16) ||| (BitVec.ofNat 32 next &&& 0xFFFF#32)

structure Order where
  head : Nat
  offset : Nat
  deriving DecidableEq, Repr

/-- `marks` is the memory at `start` read as an array of marks. -/
structure Kmem where
  start : Nat
  startHeap : Nat
  stop : Nat
  orders : Nat → Order
  marks : Nat → Mark

namespace Kmem

def order (s : Kmem) (order : Nat) : Order := s.orders (order - minOrd)

def setOrder (s : Kmem) (order : Nat) (ord : Order) : Kmem :=
  { s with orders := fun i => if i = order - minOrd then ord else s.orders i }

def setHead (s : Kmem) (order head : Nat) : Kmem :=
  s.setOrder order { s.order order with head := head }

def getMark (s : Kmem) (order idx : Nat) : Mark := s.marks ((s.order order).offset + idx)

def setMark (s : Kmem) (order idx : Nat) (mk : Mark) : Kmem :=
  { s with marks := fun i => if i = (s.order order).offset + idx then mk else s.marks i }

def setLnks (s : Kmem) (order idx : Nat) (lnks : BitVec 32) : Kmem :=
  s.setMark order idx { s.getMark order idx with lnks := lnks }

end Kmem

def blkid2mem (s : Kmem) (order blkId : Nat) : Nat := s.startHeap + 2 ^ order * blkId

def mem2blkid (s : Kmem) (order mem : Nat) : Nat := (mem - s.startHeap) >>> order

/-- The bit of a block in its mark, `1 << (blk_id & 0x1F)`. -/
def blkBit (blkId : Nat) : BitVec 32 := 1#32 <<< (blkId &&& 0x1F)

def available (bitmap : BitVec 32) (blkId : Nat) : Bool := bitmap &&& blkBit blkId != 0#32

/-- The link into a mark being removed: from its predecessor or from the head. -/
def joinPrev (s : Kmem) (order idx prev next : Nat) : Kmem :=
  if prev ≠ NIL then s.setLnks order prev (mkLnks (preLnk (s.getMark order prev).lnks) next)
  else if (s.order order).head = idx then s.setHead order next
  else s

def joinNext (s : Kmem) (order prev next : Nat) : Kmem :=
  if next ≠ NIL then s.setLnks order next (mkLnks prev (nextLnk (s.getMark order next).lnks))
  else s

/-- Unlink an empty mark: join its neighbours, or move the head past it. -/
def unlinkMark (s : Kmem) (order idx prev next : Nat) : Kmem :=
  (joinNext (joinPrev s order idx prev next) order prev next).setLnks order idx (mkLnks NIL NIL)

def unmarkBlk (s : Kmem) (order blkId : Nat) : Except String Kmem :=
  let mk := s.getMark order (blkId >>> 5)
  if !available mk.bitmap blkId then .error "double alloc\n"
  else
    let bitmap := mk.bitmap &&& ~~~blkBit blkId
    let s₁ := s.setMark order (blkId >>> 5) { mk with bitmap := bitmap }
    if bitmap = 0#32 then
      .ok (unlinkMark s₁ order (blkId >>> 5) (preLnk mk.lnks) (nextLnk mk.lnks))
    else .ok s₁

/-- Insert a mark at the head; the list is not kept ordered. -/
def linkMark (s : Kmem) (order idx : Nat) : Kmem :=
  let head := (s.order order).head
  let s₁ := s.setLnks order idx (mkLnks NIL head)
  let s₂ :=
    if head ≠ NIL then
      s₁.setLnks order head (mkLnks idx (nextLnk (s₁.getMark order head).lnks))
    else s₁
  s₂.setHead order idx

def markBlk (s : Kmem) (order blkId : Nat) : Except String Kmem :=
  let mk := s.getMark order (blkId >>> 5)
  if available mk.bitmap blkId then .error "double free\n"
  else
    let s₁ := s.setMark order (blkId >>> 5) { mk with bitmap := mk.bitmap ||| blkBit blkId }
    if mk.bitmap = 0#32 then .ok (linkMark s₁ order (blkId >>> 5)) else .ok s₁

def getBlk (s : Kmem) (order : Nat) : Except String (Kmem × Option Nat) :=
  let head := (s.order order).head
  let mk := s.getMark order head
  if mk.bitmap = 0#32 then .error "empty mark in the list\n"
  else
    match (List.range 32).find? fun i => mk.bitmap &&& (1#32 <<< i) != 0#32 with
    | some i => do
      let s' ← unmarkBlk s order (head * 32 + i)
      return (s', some (blkid2mem s order (head * 32 + i)))
    | none => return (s, none)

/-- The recursion stops at `MAX_ORD`; `kfree` has checked that the order does
not exceed it. -/
def _kfree (s : Kmem) (mem order : Nat) : Except String Kmem :=
  let blkId := mem2blkid s order mem
  let mk := s.getMark order (blkId >>> 5)
  if available mk.bitmap blkId then .error "kfree: double free"
  else
    let buddyId := blkId ^^^ 1
    if !available mk.bitmap buddyId || maxOrd ≤ order then markBlk s order blkId
    else do
      let s' ← unmarkBlk s order buddyId
      _kfree s' (blkid2mem s' order (2 * (blkId / 2))) (order + 1)
termination_by maxOrd - order
decreasing_by simp_all; omega

/-- If no block of the order is available, split a block of the next order and
free its upper half. -/
def _kmalloc (s : Kmem) (order : Nat) : Except String (Kmem × Option Nat) :=
  if (s.order order).head ≠ NIL then getBlk s order
  else if order < maxOrd then do
    match ← _kmalloc s (order + 1) with
    | (s', some up) => do
      let s'' ← _kfree s' (up + 2 ^ order) order
      return (s'', some up)
    | (s', none) => return (s', none)
  else return (s, none)
termination_by maxOrd - order

def kmalloc (s : Kmem) (order : Nat) : Except String (Kmem × Option Nat) :=
  if order > maxOrd || order < minOrd then .error "kmalloc: order out of range\n"
  else _kmalloc s order

def kfree (s : Kmem) (mem order : Nat) : Except String Kmem :=
  if order > maxOrd || order < minOrd || mem &&& (2 ^ order - 1) ≠ 0 then
    .error "kfree: order out of range or memory unaligned\n"
  else _kfree s mem order

/-- Set the `n` marks of an order to "no block available". -/
def initMarks (s : Kmem) (order n : Nat) : Kmem :=
  (List.range n).foldl (fun s j => s.setMark order j ⟨mkLnks NIL NIL, 0#32⟩) s

/-- The orders are laid out from the highest down, doubling the number of marks. -/
def initOrders : Nat → Nat → Nat → Kmem → Kmem × Nat
  | 0, total, _, s => (s, total)
  | i + 1, total, n, s =>
    initOrders i (total + n) (n <<< 1)
      (initMarks (s.setOrder (i + minOrd) ⟨NIL, total⟩) (i + minOrd) n)

/-- Add the memory from `i` to `stop` to the highest order. -/
def freeHeap (stop i : Nat) (s : Kmem) : Except String Kmem :=
  if i < stop then do
    let s' ← kfree s i maxOrd
    freeHeap stop (i + 2 ^ maxOrd) s'
  else return s
termination_by stop - i
decreasing_by simp only [maxOrd]; omega

/-- `s` is the memory before the call; a mark takes 8 bytes. -/
def kmemInit2 (s : Kmem) (vstart vend : Nat) : Except String Kmem :=
  let n := ((vend - vstart) >>> (maxOrd + 5)) + 1
  let (s₁, total) := initOrders nOrd 0 n { s with start := vstart, stop := vend }
  let s₂ := { s₁ with startHeap := alignUp (s₁.start + total * 8) (2 ^ maxOrd) }
  freeHeap s₂.stop s₂.startHeap s₂

/-- The shifts of `getOrder`: every bit below a set one is set too. -/
def smear (v : BitVec 32) : BitVec 32 :=
  let v := v ||| v >>> 1
  let v := v ||| v >>> 2
  let v := v ||| v >>> 4
  let v := v ||| v >>> 8
  v ||| v >>> 16

/-- Round up to a power of two, then get the order. -/
def getOrder (v : BitVec 32) : Except String Nat :=
  let v := smear (v - 1) + 1
  let ord := ((List.range 32).find? fun ord => v &&& (1#32 <<< ord) != 0#32).getD 32
  if ord < minOrd then .ok minOrd
  else if ord > maxOrd then .error "order too big!"
  else .ok ord

end BuddyHeap
