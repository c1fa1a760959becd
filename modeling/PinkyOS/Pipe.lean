import PinkyOS.RingBuffer

/-!
# The pipe buffer (`pipe.c`)

`stored` and `delivered` record the bytes that `pipewrite` has stored and `piperead` has handed
out since the pipe was allocated; the code does not read them.
-/
namespace PipeBuffer
open RingBuffer

def pipesize : Nat := 512

structure Pipe where
  data : Nat → UInt8
  nread : BitVec 32
  nwrite : BitVec 32
  readopen : Bool
  writeopen : Bool
  stored : List UInt8
  delivered : List UInt8

namespace Pipe

/-- The test of `pipewrite`, `p->nwrite == p->nread + PIPESIZE`. -/
def full (p : Pipe) : Bool := p.nwrite == p.nread + BitVec.ofNat 32 pipesize

/-- The test of `piperead`, `p->nread == p->nwrite`. -/
def empty (p : Pipe) : Bool := p.nread == p.nwrite

/-- `p->data[p->nwrite++ % PIPESIZE] = b`. -/
def store (p : Pipe) (b : UInt8) : Pipe :=
  { p with
    data := Function.update p.data (p.nwrite.toNat % pipesize) b
    nwrite := p.nwrite + 1#32
    stored := p.stored ++ [b] }

/-- `addr[i] = p->data[p->nread++ % PIPESIZE]`. -/
def take (p : Pipe) : Pipe :=
  { p with
    nread := p.nread + 1#32
    delivered := p.delivered ++ [p.data (p.nread.toNat % pipesize)] }

/-- One end is still open. -/
def isOpen (p : Pipe) (writable : Bool) : Bool :=
  if writable then p.writeopen else p.readopen

def shut (p : Pipe) (writable : Bool) : Pipe :=
  if writable then { p with writeopen := false } else { p with readopen := false }

/-- `pipealloc` on fresh memory, whose bytes are left as they are. -/
def alloc (data : Nat → UInt8) : Pipe :=
  ⟨data, 0#32, 0#32, true, true, [], []⟩

/-- The number of bytes in the pipe, `nwrite - nread` in 32-bit arithmetic. -/
def count (p : Pipe) : Nat := (p.nwrite - p.nread).toNat

/-- The pipe is a FIFO queue of at most `PIPESIZE` bytes. -/
structure Fifo (p : Pipe) : Prop where
  bounded : p.count ≤ pipesize
  queue : p.stored = p.delivered ++ window pipesize p.data p.nread p.count

variable {p : Pipe}

theorem pipesize_dvd : pipesize ∣ 2 ^ 32 := ⟨2 ^ 23, by decide⟩

theorem full_iff : p.full = true ↔ p.count = pipesize := by
  simp only [full, count, pipesize, beq_iff_eq]
  constructor <;> intro h <;> bv_omega

theorem empty_iff : p.empty = true ↔ p.count = 0 := by
  simp only [empty, count, beq_iff_eq]
  constructor <;> intro h <;> bv_omega

theorem nwrite_eq (p : Pipe) : p.nwrite = p.nread + BitVec.ofNat 32 p.count := by
  rw [count]
  bv_omega

theorem Fifo.alloc (data : Nat → UInt8) : Fifo (Pipe.alloc data) := by
  have hcount : (Pipe.alloc data).count = 0 := by simp [count, Pipe.alloc]
  constructor
  · rw [hcount]
    exact Nat.zero_le _
  · rw [hcount]
    rfl

theorem Fifo.store (fifo : Fifo p) (room : p.full = false) (b : UInt8) : Fifo (p.store b) := by
  have hlt : p.count < pipesize := by
    have hne : p.count ≠ pipesize := fun h => by simp [full_iff.mpr h] at room
    have := fifo.bounded
    omega
  have hcount : (p.store b).count = p.count + 1 := by
    have : p.count < 512 := hlt
    simp only [count, Pipe.store] at *
    bv_omega
  constructor
  · omega
  · have hpush := window_push pipesize_dvd p.data p.nread b hlt
    rw [← p.nwrite_eq] at hpush
    rw [hcount]
    calc p.stored ++ [b]
        = p.delivered ++ window pipesize p.data p.nread p.count ++ [b] := by rw [← fifo.queue]
      _ = p.delivered ++ window pipesize (p.store b).data p.nread (p.count + 1) := by
        rw [List.append_assoc, ← hpush]
        rfl

theorem Fifo.take (fifo : Fifo p) (some : p.empty = false) : Fifo p.take := by
  obtain ⟨n, hn⟩ : ∃ n, p.count = n + 1 := by
    have hne : p.count ≠ 0 := fun h => by simp [empty_iff.mpr h] at some
    exact ⟨p.count - 1, by omega⟩
  have hcount : p.take.count = n := by
    have := fifo.bounded
    simp only [count, Pipe.take, pipesize] at *
    bv_omega
  constructor
  · have := fifo.bounded
    omega
  · have hqueue := fifo.queue
    rw [hn, window_pop] at hqueue
    rw [hcount]
    exact hqueue.trans (List.append_cons ..)

theorem Fifo.shut (fifo : Fifo p) (writable : Bool) : Fifo (p.shut writable) := by
  cases writable <;> exact ⟨fifo.bounded, fifo.queue⟩

end Pipe
end PipeBuffer
