import PinkyOS.DiskLog
import PinkyOS.Program
import PinkyOS.TransitionSystem

/-!
# The buffer cache (`bio.c`) and its users in `log.c`

Every function of `bio.c` and the log functions that call it are programs whose operations are
the pieces of code no other process can come between: the part of `bget` and of `brelse` under
`bcache.lock`, one call of `iderw`, one access to a buffer or to the log. A sleep in `bget` ends
by `goto loop`, so the operation that would sleep is tried again. Processes take turns after
every operation.

The cache carries two ghosts: `image` is the disk at boot and `saved` lists, in order, every
block handed to `bwrite` or `log_write`.
-/
namespace BufferCache
open ByteBuffer WriteTrace DiskLog Program

def nbuf : Nat := 10
def rootdev : BitVec 32 := 1

abbrev BufId := Fin nbuf

/-- A `struct buf *` of the list: `none` is `&bcache.head`. -/
abbrev Ptr := Option BufId

structure Buf where
  busy : Bool
  valid : Bool
  dirty : Bool
  dev : BitVec 32
  sector : Nat
  data : Block

/-- `struct log` without its lock. -/
structure Log where
  start : Nat
  size : Nat
  busy : Bool
  n : Nat
  sector : Nat → Nat

def Log.sectors (log : Log) : List Nat :=
  (List.range log.n).map log.sector

structure Cache where
  buf : BufId → Buf
  prev : Ptr → Ptr
  next : Ptr → Ptr
  disksize : Nat
  disk : Nat → Block
  log : Log
  image : Nat → Block
  saved : List (Nat × Block)

namespace Cache

def setPrev (c : Cache) (p q : Ptr) : Cache :=
  { c with prev := Function.update c.prev p q }

def setNext (c : Cache) (p q : Ptr) : Cache :=
  { c with next := Function.update c.next p q }

def setBuf (c : Cache) (b : BufId) (x : Buf) : Cache :=
  { c with buf := Function.update c.buf b x }

def setLog (c : Cache) (log : Log) : Cache :=
  { c with log := log }

def record (c : Cache) (sector : Nat) (data : Block) : Cache :=
  { c with saved := c.saved ++ [(sector, data)] }

/-- The contents of a sector most recently handed to `bwrite` or `log_write`. -/
def latest (c : Cache) : Nat → Block :=
  apply c.image c.saved

/-- The four assignments that put `b` behind `bcache.head`. -/
def pushFront (c : Cache) (b : BufId) : Cache :=
  let c := c.setNext (some b) (c.next none)
  let c := c.setPrev (some b) none
  let c := c.setPrev (c.next none) (some b)
  c.setNext none (some b)

def unlink (c : Cache) (b : BufId) : Cache :=
  let c := c.setPrev (c.next (some b)) (c.prev (some b))
  c.setNext (c.prev (some b)) (c.next (some b))

end Cache

/-- The buffers a `for` loop along `link` passes before it comes to the head. -/
def visit (link : Ptr → Ptr) : Nat → Ptr → List BufId
  | 0, _ => []
  | _ + 1, none => []
  | k + 1, some b => b :: visit link k (link (some b))

/-- One round of the loop of `binit`. -/
def binitOne (c : Cache) (b : BufId) : Cache :=
  (c.setBuf b { c.buf b with dev := -1 }).pushFront b

def binit (c : Cache) : Cache :=
  (List.finRange nbuf).foldl binitOne ((c.setPrev none none).setNext none none)

/-- The kernel's zeroed data before `binit`, with the log as `initlog` leaves it. -/
def zeroed (disksize : Nat) (disk : Nat → Block) (start size : Nat) : Cache where
  buf _ := ⟨false, false, false, 0, 0, fun _ => 0⟩
  prev _ := none
  next _ := none
  disksize := disksize
  disk := disk
  log := ⟨start, size, false, 0, fun _ => 0⟩
  image := disk
  saved := []

/-- The part of `bget` under `bcache.lock`. -/
def bget (c : Cache) (dev : BitVec 32) (sector : Nat) : Outcome Cache BufId :=
  match (visit c.next nbuf (c.next none)).find?
      fun b => (c.buf b).dev == dev && (c.buf b).sector == sector with
  | some b =>
    if !(c.buf b).busy then
      .done b (c.setBuf b { c.buf b with busy := true })
    else
      .wait
  | none =>
    match (visit c.prev nbuf (c.prev none)).find?
        fun b => !(c.buf b).busy && !(c.buf b).dirty with
    | some b =>
      .done b (c.setBuf b
        { c.buf b with dev := dev, sector := sector, busy := true, valid := false, dirty := false })
    | none => .panic "bget: no buffers"

def iderw (c : Cache) (b : BufId) : Outcome Cache Unit :=
  let x := c.buf b
  if !x.busy then
    .panic "iderw: buf not busy"
  else if x.valid && !x.dirty then
    .panic "iderw: nothing to do"
  else if x.dev ≠ 1 then
    .panic "iderw: request not for disk 1"
  else if x.sector ≥ c.disksize then
    .panic "iderw: sector out of range"
  else if x.dirty then
    .done () (({ c with disk := Function.update c.disk x.sector x.data }.setBuf b
      { x with dirty := false, valid := true }).record x.sector x.data)
  else
    .done () (c.setBuf b { x with data := c.disk x.sector, valid := true })

/-- The part of `brelse` under `bcache.lock`. -/
def moveToFront (c : Cache) (b : BufId) : Cache :=
  let c := (c.unlink b).pushFront b
  c.setBuf b { c.buf b with busy := false }

/-- `log_write` up to its call of `bread`: the slot of the sector, which is now in the header. -/
def logSlot (c : Cache) (sector : Nat) : Outcome Cache Nat :=
  let log := c.log
  if log.n ≥ logsize ∨ log.n ≥ log.size - 1 then
    .panic "too big a transaction"
  else if !log.busy then
    .panic "write outside of trans"
  else
    let i := log.sectors.idxOf sector
    .done i (c.setLog { log with sector := Function.update log.sector i sector })

/-- The pieces of code that run without interruption. -/
inductive Op where
  | bget (dev : BitVec 32) (sector : Nat)
  /-- Reading the fields of a buffer. -/
  | look (b : BufId)
  | setData (b : BufId) (data : Block)
  /-- `b->flags |= B_DIRTY` in `bwrite`. -/
  | setDirty (b : BufId)
  | iderw (b : BufId)
  | release (b : BufId)
  | getLog
  | logSlot (sector : Nat)
  /-- `if (i == log.lh.n) log.lh.n++`. -/
  | grow (i : Nat)
  /-- `b->flags |= B_DIRTY` at the end of `log_write`. -/
  | pin (b : BufId)
  /-- `log.lh.n = 0`. -/
  | clear
  | lockLog
  | unlockLog
  | panic (msg : String)

def Res : Op → Type
  | .bget _ _ => BufId
  | .look _ => Buf
  | .getLog => Log
  | .logSlot _ => Nat
  | .panic _ => Empty
  | _ => Unit

def perform (c : Cache) : (o : Op) → Outcome Cache (Res o)
  | .bget dev sector => BufferCache.bget c dev sector
  | .look b => .done (c.buf b) c
  | .setData b data => .done () (c.setBuf b { c.buf b with data := data })
  | .setDirty b => .done () (c.setBuf b { c.buf b with dirty := true })
  | .iderw b => BufferCache.iderw c b
  | .release b => .done () (moveToFront c b)
  | .getLog => .done c.log c
  | .logSlot sector => BufferCache.logSlot c sector
  | .grow i => .done () (if i = c.log.n then c.setLog { c.log with n := c.log.n + 1 } else c)
  | .pin b => .done () ((c.setBuf b { c.buf b with dirty := true }).record
      (c.buf b).sector (c.buf b).data)
  | .clear => .done () (c.setLog { c.log with n := 0 })
  | .lockLog => if c.log.busy then .wait else .done () (c.setLog { c.log with busy := true })
  | .unlockLog => .done () (c.setLog { c.log with busy := false })
  | .panic msg => .panic msg

abbrev M := Prog Op Res

def call (o : Op) : M (Res o) := Prog.op o

def bread (dev : BitVec 32) (sector : Nat) : M BufId := do
  let b ← call (.bget dev sector)
  let x : Buf ← call (.look b)
  if !x.valid then
    call (.iderw b)
    return b
  else
    return b

def bwrite (b : BufId) : M Unit := do
  let x : Buf ← call (.look b)
  if !x.busy then
    let e ← call (.panic "bwrite")
    nomatch e
  else
    call (.setDirty b)
    call (.iderw b)

def brelse (b : BufId) : M Unit := do
  let x : Buf ← call (.look b)
  if !x.busy then
    let e ← call (.panic "brelse")
    nomatch e
  else
    call (.release b)

def logWrite (b : BufId) : M Unit := do
  let x : Buf ← call (.look b)
  let i : Nat ← call (.logSlot x.sector)
  let log : Log ← call .getLog
  let lbuf ← bread x.dev (log.start + i + 1)
  let x : Buf ← call (.look b)
  call (.setData lbuf x.data)
  bwrite lbuf
  brelse lbuf
  call (.grow i)
  call (.pin b)

def writeHead : M Unit := do
  let log : Log ← call .getLog
  let b ← bread rootdev log.start
  let x : Buf ← call (.look b)
  let log : Log ← call .getLog
  call (.setData b (withHead x.data log.sectors))
  bwrite b
  brelse b

/-- `install_trans` from slot `tail` on; `log.lh.n` is at most `LOGSIZE`. -/
def installFrom : Nat → Nat → M Unit
  | 0, _ => return
  | k + 1, tail => do
    let log : Log ← call .getLog
    if tail < log.n then
      let lbuf ← bread rootdev (log.start + tail + 1)
      let log : Log ← call .getLog
      let dbuf ← bread rootdev (log.sector tail)
      let l : Buf ← call (.look lbuf)
      call (.setData dbuf l.data)
      bwrite dbuf
      brelse lbuf
      brelse dbuf
      installFrom k (tail + 1)
    else
      return

def commitTrans : M Unit := do
  let log : Log ← call .getLog
  if log.n > 0 then
    writeHead
    installFrom logsize 0
    call .clear
    writeHead
    call .unlockLog
  else
    call .unlockLog

/-! ### Processes -/

/-- What a process may call. `modify` stores into the data of a buffer it got from `bread`. -/
inductive Call where
  | bread (dev : BitVec 32) (sector : Nat)
  | modify (b : BufId) (data : Block)
  | bwrite (b : BufId)
  | brelse (b : BufId)
  | logWrite (b : BufId)
  | beginTrans
  | commitTrans

def body : Call → M (Option BufId)
  | .bread dev sector => do
    let b ← BufferCache.bread dev sector
    return some b
  | .modify b data => do
    call (.setData b data)
    return none
  | .bwrite b => do
    BufferCache.bwrite b
    return none
  | .brelse b => do
    BufferCache.brelse b
    return none
  | .logWrite b => do
    BufferCache.logWrite b
    return none
  | .beginTrans => do
    call .lockLog
    return none
  | .commitTrans => do
    BufferCache.commitTrans
    return none

/-- A buffer in the hands of a process: the sector it asked for, whether it is known to be
valid, and whether its data were changed since they were last written or logged. -/
structure Hold where
  dev : BitVec 32
  sector : Nat
  valid : Bool
  unsaved : Bool
  deriving DecidableEq

abbrev Holds := BufId → Option Hold

/-- The buffers in the hands of a process after an operation with the given result. -/
def Holds.after (hs : Holds) : (o : Op) → Res o → Holds
  | .bget dev sector, b => Function.update hs b (some ⟨dev, sector, false, false⟩)
  | .look b, x =>
    Function.update hs b ((hs b).map fun h => { h with valid := h.valid || Buf.valid x })
  | .setData b _, _ => Function.update hs b ((hs b).map fun h => { h with unsaved := true })
  | .iderw b, _ => Function.update hs b ((hs b).map fun h => { h with valid := true, unsaved := false })
  | .pin b, _ => Function.update hs b ((hs b).map fun h => { h with unsaved := false })
  | .release b, _ => Function.update hs b none
  | _, _ => hs

/-- The documented interface: only the data of one's own buffers are changed, and a changed
buffer is written or logged before it is released. -/
def follows (hs : Holds) : Call → Bool
  | .modify b _ => (hs b).isSome
  | .bwrite b => (hs b).isSome
  | .logWrite b => (hs b).isSome
  | .brelse b => (hs b).any fun h => !h.unsaved
  | _ => true

inductive Task where
  | idle
  | running (c : Call) (rest : M (Option BufId))

variable {P : Type} [DecidableEq P]

structure State (P : Type) where
  cache : Cache
  holds : P → Holds
  task : P → Task

inductive Act (P : Type) where
  | start (p : P) (c : Call)
  | advance (p : P)
  | finish (p : P)

def step (s : State P) : Act P → Option (State P)
  | .start p c =>
    match s.task p with
    | .idle =>
      if follows (s.holds p) c then
        some { s with task := Function.update s.task p (.running c (body c)) }
      else
        none
    | .running _ _ => none
  | .advance p =>
    match s.task p with
    | .running c (.call o next) =>
      match perform s.cache o with
      | .done r cache => some
        { cache := cache
          holds := Function.update s.holds p ((s.holds p).after o r)
          task := Function.update s.task p (.running c (next r)) }
      | .wait => none
      | .panic _ => none
    | _ => none
  | .finish p =>
    match s.task p with
    | .running _ (.ret _) => some { s with task := Function.update s.task p .idle }
    | _ => none

/-- The kernel after `binit`, on any disk and with any log area; no process has called yet. -/
def boot (disksize : Nat) (disk : Nat → Block) (start size : Nat) : State P where
  cache := binit (zeroed disksize disk start size)
  holds _ _ := none
  task _ := .idle

def Initial (s : State P) : Prop :=
  ∃ disksize disk start size, s = boot disksize disk start size

abbrev Reachable : State P → Prop := TransitionSystem.Reachable Initial step

end BufferCache
