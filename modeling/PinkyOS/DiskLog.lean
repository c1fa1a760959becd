import PinkyOS.ByteBuffer
import PinkyOS.WriteTrace

/-!
# The redo log (`log.c`) over the memory disk (`memide.c`)

The disk is a map from sectors to 512-byte blocks. `Sys` holds the disk, the contents of the
`B_DIRTY` buffers, which the buffer cache keeps back from the disk until `installTrans` writes
them, and the in-memory log. A panic is an error with the kernel's message. The trace `writes`
records every sector written by `iderw`, in order.

`struct logheader` is the list of its first `n` sectors: nothing reads the entries past `n`.
-/
namespace DiskLog
open ByteBuffer WriteTrace

def bsize : Nat := 512
def logsize : Nat := 10

abbrev Block := Buffer bsize

structure Log where
  start : Nat
  size : Nat
  busy : Bool
  lh : List Nat

structure Sys where
  disksize : Nat
  disk : Nat → Block
  dirty : Nat → Option Block
  log : Log
  writes : List (Nat × Block)

namespace Sys

/-- The contents of a sector as a buffer obtained by `bread` holds them. -/
def cur (s : Sys) (sector : Nat) : Block :=
  (s.dirty sector).getD (s.disk sector)

/-- `iderw` on a `B_DIRTY` buffer: the sector is written and the buffer is clean. -/
def put (s : Sys) (sector : Nat) (data : Block) : Sys :=
  { s with
    disk := Function.update s.disk sector data
    dirty := Function.update s.dirty sector none
    writes := s.writes ++ [(sector, data)] }

def setHead (s : Sys) (lh : List Nat) : Sys :=
  { s with log := { s.log with lh := lh } }

def setBusy (s : Sys) (busy : Bool) : Sys :=
  { s with log := { s.log with busy := busy } }

/-- `b->flags |= B_DIRTY` on the buffer of a sector whose data the caller has changed. -/
def pin (s : Sys) (sector : Nat) (data : Block) : Sys :=
  { s with dirty := Function.update s.dirty sector (some data) }

end Sys

def bread (s : Sys) (sector : Nat) : Except String Block :=
  if sector ≥ s.disksize then throw "iderw: sector out of range" else pure (s.cur sector)

def bwrite (s : Sys) (sector : Nat) (data : Block) : Except String Sys :=
  if sector ≥ s.disksize then throw "iderw: sector out of range" else pure (s.put sector data)

/-- `lh->n` of a header block; `int`, so a negative count makes every loop over it empty. -/
def headCount (b : Block) : Nat :=
  (BitVec.ofNat 32 (b.getLE 0 4)).toInt.toNat

def headOf (b : Block) : List Nat :=
  b.words 4 4 (headCount b)

/-- A header block with `n` and the first `n` sectors stored and its other bytes kept. -/
def withHead (b : Block) (lh : List Nat) : Block :=
  b.write 0 (leBytes 4 lh.length ++ lh.flatMap (leBytes 4))

def readHead (s : Sys) : Except String Sys := do
  let buf ← bread s s.log.start
  return s.setHead (headOf buf)

def writeHead (s : Sys) : Except String Sys := do
  let buf ← bread s s.log.start
  bwrite s s.log.start (withHead buf s.log.lh)

/-- One round of the loop of `install_trans`. -/
def installOne (s : Sys) (slot : Nat × Nat) : Except String Sys := do
  let lbuf ← bread s (s.log.start + slot.2 + 1)
  let _ ← bread s slot.1
  bwrite s slot.1 lbuf

def installTrans (s : Sys) : Except String Sys :=
  s.log.lh.zipIdx.foldlM installOne s

def recoverFromLog (s : Sys) : Except String Sys := do
  let s ← readHead s
  let s ← installTrans s
  writeHead (s.setHead [])

/-- `begin_trans`: `none` while the caller sleeps on a busy log. -/
def beginTrans (s : Sys) : Option Sys :=
  if s.log.busy then none else some (s.setBusy true)

def commitTrans (s : Sys) : Except String Sys := do
  if s.log.lh.length > 0 then
    let s ← writeHead s
    let s ← installTrans s
    let s ← writeHead (s.setHead [])
    return s.setBusy false
  else
    return s.setBusy false

/-- The header after `sector` is stored at its slot: its old one (log absorption), or a new one
at the end. -/
def addSector (lh : List Nat) (sector : Nat) : List Nat :=
  if lh.idxOf sector = lh.length then lh ++ [sector] else lh

def logWrite (s : Sys) (sector : Nat) (data : Block) : Except String Sys :=
  if s.log.lh.length ≥ logsize ∨ s.log.lh.length ≥ s.log.size - 1 then
    throw "too big a transaction"
  else if !s.log.busy then
    throw "write outside of trans"
  else do
    let i := s.log.lh.idxOf sector
    let _ ← bread s (s.log.start + i + 1)
    let s' ← bwrite s (s.log.start + i + 1) data
    return (s'.setHead (addSector s.log.lh sector)).pin sector data

/-- The log of a booted kernel: `start` and `size` as `initlog` computed them, the rest zero. -/
def boot (disksize start size : Nat) (disk : Nat → Block) : Sys :=
  ⟨disksize, disk, fun _ => none, ⟨start, size, false, []⟩, []⟩

/-- `initlog` with the fields `size` and `nlog` of the superblock in sector 1. -/
def initlog (disksize : Nat) (disk : Nat → Block) : Except String Sys := do
  let sb ← bread (boot disksize 0 0 disk) 1
  let size := sb.getLE 0 4
  let nlog := sb.getLE 12 4
  recoverFromLog (boot disksize ((size + 2 ^ 32 - nlog) % 2 ^ 32) nlog disk)

/-- The log calls of one transaction after its `begin_trans`. -/
def transaction (s : Sys) (ws : List (Nat × Block)) : Except String Sys := do
  let s ← ws.foldlM (fun s w => logWrite s w.1 w.2) s
  commitTrans s

end DiskLog
