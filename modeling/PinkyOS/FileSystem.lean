import PinkyOS.DiskFormat
import PinkyOS.Program
import PinkyOS.SleepWakeup

/-!
# The file system (`fs.c`)

The functions of `fs.c`, and in `FileCalls` those of `file.c` and `sysfile.c`, are programs whose
operations are the pieces of code that no other process can come between: the calls of the
buffer cache and the log, the sections of the inode cache and the file table under their locks,
and accesses to data the process owns.

`Machine` is the state the operations work on. Its disk is what the buffer cache and the log
provide: `cur b` is what `bread` of sector `b` delivers, and `log_write` replaces it.
-/
namespace FileSystem
open ByteBuffer DiskLog DiskFormat Program
open SleepWakeup (Slot ProcState)

def ninode : Nat := 50
def nfile : Nat := 100
def nofile : Nat := 16
def rootdev : Nat := 1
def console : BitVec 16 := 1

theorem ninode_pos : 0 < ninode := by decide

abbrev InodeId := Fin ninode
abbrev FileId := Fin nfile

/-- `struct inode`; `d` is the copy of the disk inode. -/
structure Inode where
  dev : Nat
  inum : Nat
  ref : Int
  busy : Bool
  valid : Bool
  d : Dinode

inductive FdType where
  | none
  | pipe
  | inode
  deriving DecidableEq

structure File where
  type : FdType
  ref : Int
  readable : Bool
  writable : Bool
  pipe : Nat
  ip : InodeId
  off : Nat

/-- The part of `struct proc` that the file system uses. -/
structure Proc where
  state : ProcState
  ofile : Fin nofile → Option FileId
  cwd : Option InodeId

/-- The flags `readopen` and `writeopen` of a pipe. -/
structure Ends where
  readopen : Bool
  writeopen : Bool

/-- The flags after one end is closed. -/
def Ends.close (e : Ends) (writable : Bool) : Ends :=
  if writable then { e with writeopen := false } else { e with readopen := false }

/-- `console` and `memory` are the answers of the console and of `vm.c` and `buddy.c`, in the
order in which they are asked for. The other ghosts list the entries that `filealloc` gave out,
those whose last reference was dropped, with what they were, and the pipes that were allocated
and freed. -/
structure Machine where
  disksize : Nat
  cur : Nat → Block
  held : Nat → Bool
  log : DiskLog.Log
  inode : InodeId → Inode
  file : FileId → File
  pipe : Nat → Option Ends
  proc : Slot → Proc
  console : Nat → Option (List UInt8)
  memory : Nat → Nat
  asked : Nat
  taken : List FileId
  released : List (FileId × File)
  made : List Nat
  freed : List Nat

inductive Op where
  | bread (dev b : Nat)
  | brelse (b : Nat)
  | logWrite (b : Nat) (data : Block)
  | beginTrans
  | commitTrans
  | iget (dev inum : Nat)
  | idup (i : InodeId)
  /-- The section of `ilock` under the lock of the cache. -/
  | lock (i : InodeId)
  /-- Reading the fields of an inode. -/
  | look (i : InodeId)
  /-- Storing to the copy of the disk inode. -/
  | store (i : InodeId) (d : Dinode)
  /-- `ip->flags |= I_VALID`. -/
  | setValid (i : InodeId)
  | iunlock (i : InodeId)
  /-- The first section of `iput` under the lock: `true` if the inode is to be freed. -/
  | putBegin (i : InodeId)
  /-- The section of `iput` after the inode has been freed. -/
  | putEnd (i : InodeId)
  | filealloc
  | filedup (f : FileId)
  /-- The section of `fileclose` under the lock: the old contents of an entry that is now free. -/
  | closeRef (f : FileId)
  | lookFile (f : FileId)
  | storeFile (f : FileId) (x : File)
  /-- `kmalloc` of a pipe and the stores to its flags. -/
  | pipeNew
  | pipeclose (p : Nat) (writable : Bool)
  /-- `piperead` or `pipewrite`. -/
  | pipeIo (p : Nat)
  | getProc (p : Slot)
  | setOfile (p : Slot) (fd : Fin nofile) (f : Option FileId)
  | setCwd (p : Slot) (i : Option InodeId)
  | allocproc
  | setState (p : Slot) (state : ProcState)
  | console
  | memory
  | panic (msg : String)

def Res : Op → Type
  | .bread _ _ => Block
  | .iget _ _ => InodeId
  | .look _ => Inode
  | .putBegin _ => Bool
  | .filealloc => Option FileId
  | .closeRef _ => Option File
  | .lookFile _ => File
  | .pipeNew => Option Nat
  | .getProc _ => Proc
  | .allocproc => Option Slot
  | .pipeIo _ => Option (List UInt8)
  | .console => Option (List UInt8)
  | .memory => Nat
  | .panic _ => Empty
  | _ => Unit

/-! ### What the operations do -/

namespace Machine

def setInode (s : Machine) (i : InodeId) (x : Inode) : Machine :=
  { s with inode := Function.update s.inode i x }

def setFile (s : Machine) (f : FileId) (x : File) : Machine :=
  { s with file := Function.update s.file f x }

def setPipe (s : Machine) (p : Nat) (x : Option Ends) : Machine :=
  { s with pipe := Function.update s.pipe p x }

def setProc (s : Machine) (p : Slot) (x : Proc) : Machine :=
  { s with proc := Function.update s.proc p x }

def setHeld (s : Machine) (b : Nat) (held : Bool) : Machine :=
  { s with held := Function.update s.held b held }

def setOfile (s : Machine) (p : Slot) (fd : Fin nofile) (f : Option FileId) : Machine :=
  s.setProc p { s.proc p with ofile := Function.update (s.proc p).ofile fd f }

def setCwd (s : Machine) (p : Slot) (i : Option InodeId) : Machine :=
  s.setProc p { s.proc p with cwd := i }

def setState (s : Machine) (p : Slot) (state : ProcState) : Machine :=
  s.setProc p { s.proc p with state := state }

/-- One more answer has been used. -/
def ask (s : Machine) : Machine := { s with asked := s.asked + 1 }

end Machine

/-- `iget`: the entry of the inode, or the first one without references. -/
def igetSlot (s : Machine) (dev inum : Nat) : Outcome Machine InodeId :=
  match (List.finRange ninode).find? fun i =>
      0 < (s.inode i).ref ∧ (s.inode i).dev = dev ∧ (s.inode i).inum = inum with
  | some i => .done i (s.setInode i { s.inode i with ref := (s.inode i).ref + 1 })
  | none =>
    match (List.finRange ninode).find? fun i => (s.inode i).ref = 0 with
    | some i => .done i (s.setInode i ⟨dev, inum, 1, false, false, (s.inode i).d⟩)
    | none => .panic "iget: no inodes"

def putBegin (s : Machine) (i : InodeId) : Outcome Machine Bool :=
  let x := s.inode i
  if x.ref = 1 ∧ x.valid ∧ x.d.nlink = 0 then
    if x.busy then .panic "iput busy" else .done true (s.setInode i { x with busy := true })
  else
    .done false (s.setInode i { x with ref := x.ref - 1 })

/-- `filealloc`: the first entry without references. -/
def fileSlot (s : Machine) : Machine × Option FileId :=
  match (List.finRange nfile).find? fun f => (s.file f).ref = 0 with
  | some f => ({ s.setFile f { s.file f with ref := 1 } with taken := f :: s.taken }, some f)
  | none => (s, none)

def closeRef (s : Machine) (f : FileId) : Outcome Machine (Option File) :=
  let x := s.file f
  if x.ref < 1 then
    .panic "fileclose"
  else if x.ref - 1 > 0 then
    .done none (s.setFile f { x with ref := x.ref - 1 })
  else
    .done (some { x with ref := 0 })
      { s.setFile f { x with ref := 0, type := .none } with released := (f, x) :: s.released }

/-- `kmalloc` answers with an address that no live pipe has, or 0. -/
def pipeNew (s : Machine) : Machine × Option Nat :=
  let a := s.memory s.asked
  if a = 0 ∨ (s.pipe a).isSome then (s.ask, none)
  else ({ s.ask.setPipe a (some ⟨true, true⟩) with made := a :: s.made }, some a)

def pipeclose (s : Machine) (p : Nat) (writable : Bool) : Outcome Machine Unit :=
  match s.pipe p with
  | none => .panic "access to a freed pipe"
  | some e =>
    if !(e.close writable).readopen && !(e.close writable).writeopen then
      .done () { s.setPipe p none with freed := p :: s.freed }
    else
      .done () (s.setPipe p (some (e.close writable)))

def perform (s : Machine) : (o : Op) → Outcome Machine (Res o)
  | .bread dev b =>
    if dev ≠ rootdev then .panic "iderw: request not for disk 1"
    else if b ≥ s.disksize then .panic "iderw: sector out of range"
    else if s.held b then .wait
    else .done (s.cur b) (s.setHeld b true)
  | .brelse b => if s.held b then .done () (s.setHeld b false) else .panic "brelse"
  | .logWrite b data =>
    if s.log.lh.length ≥ logsize ∨ s.log.lh.length ≥ s.log.size - 1 then
      .panic "too big a transaction"
    else if !s.log.busy then
      .panic "write outside of trans"
    else
      .done () { s with
        cur := Function.update s.cur b data
        log := { s.log with lh := addSector s.log.lh b } }
  | .beginTrans => if s.log.busy then .wait else .done () { s with log := { s.log with busy := true } }
  | .commitTrans => .done () { s with log := { s.log with busy := false, lh := [] } }
  | .iget dev inum => igetSlot s dev inum
  | .idup i => .done () (s.setInode i { s.inode i with ref := (s.inode i).ref + 1 })
  | .lock i =>
    if (s.inode i).ref < 1 then .panic "ilock"
    else if (s.inode i).busy then .wait
    else .done () (s.setInode i { s.inode i with busy := true })
  | .look i => .done (s.inode i) s
  | .store i d => .done () (s.setInode i { s.inode i with d := d })
  | .setValid i => .done () (s.setInode i { s.inode i with valid := true })
  | .iunlock i =>
    if !(s.inode i).busy ∨ (s.inode i).ref < 1 then .panic "iunlock"
    else .done () (s.setInode i { s.inode i with busy := false })
  | .putBegin i => putBegin s i
  | .putEnd i =>
    .done () (s.setInode i
      { s.inode i with busy := false, valid := false, ref := (s.inode i).ref - 1 })
  | .filealloc => .done (fileSlot s).2 (fileSlot s).1
  | .filedup f =>
    if (s.file f).ref < 1 then .panic "filedup"
    else .done () (s.setFile f { s.file f with ref := (s.file f).ref + 1 })
  | .closeRef f => closeRef s f
  | .lookFile f => .done (s.file f) s
  | .storeFile f x => .done () (s.setFile f x)
  | .pipeNew => .done (pipeNew s).2 (pipeNew s).1
  | .pipeclose p writable => pipeclose s p writable
  | .pipeIo p =>
    if (s.pipe p).isNone then .panic "access to a freed pipe"
    else .done (s.console s.asked) s.ask
  | .getProc p => .done (s.proc p) s
  | .setOfile p fd f => .done () (s.setOfile p fd f)
  | .setCwd p i => .done () (s.setCwd p i)
  | .allocproc =>
    match (List.finRange SleepWakeup.nproc).find? fun p => (s.proc p).state = .unused with
    | some p => .done (some p) (s.setState p .embryo)
    | none => .done none s
  | .setState p state => .done () (s.setState p state)
  | .console => .done (s.console s.asked) s.ask
  | .memory => .done (s.memory s.asked) s.ask
  | .panic msg => .panic msg

abbrev M := Prog Op Res

def call (o : Op) : M (Res o) := Prog.op o

def panic {α : Type} (msg : String) : M α := .call (.panic msg) nofun

def bread (dev b : Nat) : M Block := call (.bread dev b)
def brelse (b : Nat) : M Unit := call (.brelse b)
def logWrite (b : Nat) (data : Block) : M Unit := call (.logWrite b data)
def beginTrans : M Unit := call .beginTrans
def commitTrans : M Unit := call .commitTrans
def iget (dev inum : Nat) : M InodeId := call (.iget dev inum)
def idup (i : InodeId) : M Unit := call (.idup i)
def look (i : InodeId) : M Inode := call (.look i)
def store (i : InodeId) (d : Dinode) : M Unit := call (.store i d)
def iunlock (i : InodeId) : M Unit := call (.iunlock i)

/-- The rule for an operation whose result is known. -/
theorem runs_known {β : Type} {stop : Option String → Prop} {post : β → Machine → Prop}
    {s t : Machine} (op : Op) {r : Res op} {g : Res op → M β}
    (performed : perform s op = .done r t) (rest : Runs perform stop post (g r) t) :
    Runs perform stop post (call op >>= g) s :=
  Runs.known op performed rest

theorem runs_last {stop : Option String → Prop} {s t : Machine} (op : Op)
    {post : Res op → Machine → Prop} {r : Res op} (performed : perform s op = .done r t)
    (holds : post r t) : Runs perform stop post (call op) s := by
  simp only [call, Prog.op, Runs]
  rwa [performed]

/-! ### Blocks -/

def readsb (dev : Nat) : M Superblock := do
  let data ← bread dev 1
  brelse 1
  return Superblock.ofBlock data

def bzero (dev bno : Nat) : M Unit := do
  let _ ← bread dev bno
  logWrite bno fun _ => 0
  brelse bno

/-- The first clear bit of a bitmap block among the first `n`. -/
def freeBit (data : Block) (n : Nat) : Option Nat :=
  (List.range n).find? fun bi => !bit data bi

/-- The loop of `balloc` over the bitmap blocks, `k` of which are left. -/
def ballocLoop (dev : Nat) (sb : Superblock) : Nat → Nat → M Nat
  | 0, _ => panic "balloc: out of blocks"
  | k + 1, b => do
    let bb := bblock b sb.ninodes
    let data ← bread dev bb
    match freeBit data (min bpb (sb.size - b)) with
    | some bi =>
      logWrite bb (setBit data bi)
      brelse bb
      bzero dev (b + bi)
      return b + bi
    | none =>
      brelse bb
      ballocLoop dev sb k (b + bpb)

def balloc (dev : Nat) : M Nat := do
  let sb ← readsb dev
  ballocLoop dev sb ((sb.size + bpb - 1) / bpb) 0

def bfree (dev b : Nat) : M Unit := do
  let sb ← readsb dev
  let bb := bblock b sb.ninodes
  let data ← bread dev bb
  if bit data (b % bpb) then
    logWrite bb (clearBit data (b % bpb))
    brelse bb
  else
    panic "freeing free block"

/-! ### Inodes -/

/-- The loop of `ialloc`, with `k` inodes left. -/
def iallocLoop (dev : Nat) (type : BitVec 16) : Nat → Nat → M InodeId
  | 0, _ => panic "ialloc: no inodes"
  | k + 1, inum => do
    let data ← bread dev (iblock inum)
    if (Dinode.ofBlock data inum).type = 0 then
      logWrite (iblock inum) (Dinode.store data inum { Dinode.zero with type := type })
      brelse (iblock inum)
      iget dev inum
    else
      brelse (iblock inum)
      iallocLoop dev type k (inum + 1)

def ialloc (dev : Nat) (type : BitVec 16) : M InodeId := do
  let sb ← readsb dev
  iallocLoop dev type (sb.ninodes - 1) 1

def iupdate (i : InodeId) : M Unit := do
  let ip ← look i
  let data ← bread ip.dev (iblock ip.inum)
  logWrite (iblock ip.inum) (Dinode.store data ip.inum ip.d)
  brelse (iblock ip.inum)

def ilock (i : InodeId) : M Unit := do
  call (.lock i)
  let ip ← look i
  if !ip.valid then
    let data ← bread ip.dev (iblock ip.inum)
    store i (Dinode.ofBlock data ip.inum)
    brelse (iblock ip.inum)
    call (.setValid i)
    if (Dinode.ofBlock data ip.inum).type = 0 then
      panic "ilock: no type"

/-- The loop of `itrunc` over `addrs[j..NDIRECT]`, with `k` entries left. -/
def truncDirect (i : InodeId) : Nat → Nat → M Unit
  | 0, _ => return
  | k + 1, j => do
    let ip ← look i
    if ip.d.addr j ≠ 0 then
      bfree ip.dev (ip.d.addr j)
      store i (ip.d.setAddr j 0)
    truncDirect i k (j + 1)

/-- The loop of `itrunc` over the entries of the indirect block. -/
def truncIndirect (dev : Nat) (data : Block) : Nat → Nat → M Unit
  | 0, _ => return
  | k + 1, j => do
    if word data j ≠ 0 then
      bfree dev (word data j)
    truncIndirect dev data k (j + 1)

def itrunc (i : InodeId) : M Unit := do
  truncDirect i ndirect 0
  let ip ← look i
  let ind := ip.d.addr ndirect
  if ind ≠ 0 then
    let data ← bread ip.dev ind
    truncIndirect ip.dev data nindirect 0
    brelse ind
    bfree ip.dev ind
    store i (ip.d.setAddr ndirect 0)
  let ip ← look i
  store i { ip.d with size := 0 }
  iupdate i

def iput (i : InodeId) : M Unit := do
  let last : Bool ← call (.putBegin i)
  if last then
    itrunc i
    let ip ← look i
    store i { ip.d with type := 0 }
    iupdate i
    call (.putEnd i)

def iunlockput (i : InodeId) : M Unit := do
  iunlock i
  iput i

/-- `bmap` for a block of the indirect block at `ind`. -/
def bmapIndirect (dev ind bn : Nat) : M Nat := do
  let data ← bread dev ind
  if word data bn = 0 then
    let addr ← balloc dev
    logWrite ind (setWord data bn addr)
    brelse ind
    return addr
  else
    brelse ind
    return word data bn

def bmap (i : InodeId) (bn : Nat) : M Nat := do
  let ip ← look i
  if bn < ndirect then
    if ip.d.addr bn = 0 then
      let addr ← balloc ip.dev
      store i (ip.d.setAddr bn addr)
      return addr
    else
      return ip.d.addr bn
  else if bn - ndirect < nindirect then
    if ip.d.addr ndirect = 0 then
      let ind ← balloc ip.dev
      store i (ip.d.setAddr ndirect ind)
      bmapIndirect ip.dev ind (bn - ndirect)
    else
      bmapIndirect ip.dev (ip.d.addr ndirect) (bn - ndirect)
  else
    panic "bmap: out of range"

/-- `consoleread` and `consolewrite`, which give up the inode meanwhile. -/
def device (i : InodeId) : M (Option (List UInt8)) := do
  iunlock i
  let answer : Option (List UInt8) ← call .console
  ilock i
  return answer

/-- The loop of `readi`; `fuel` is at least the number of bytes left. -/
def readLoop (i : InodeId) : (fuel off n : Nat) → M (List UInt8)
  | 0, _, _ => return []
  | fuel + 1, off, n =>
    if n = 0 then return [] else do
      let b ← bmap i (off / bsize)
      let ip ← look i
      let data ← bread ip.dev b
      let m := min n (bsize - off % bsize)
      brelse b
      let rest ← readLoop i fuel (off + m) (n - m)
      return data.read (off % bsize) m ++ rest

/-- `readi`: the bytes it stores, or `none` for -1. -/
def readi (i : InodeId) (off n : Nat) : M (Option (List UInt8)) := do
  let ip ← look i
  if ip.d.type = tDev then
    if ip.d.major = console then device i else return none
  else if off > ip.d.size.toNat ∨ (off + n) % 2 ^ 32 < off then
    return none
  else
    let n := if off + n > ip.d.size.toNat then ip.d.size.toNat - off else n
    return some (← readLoop i n off n)

/-- The loop of `writei`: the offset reached. -/
def writeLoop (i : InodeId) : (fuel off : Nat) → (src : List UInt8) → M Nat
  | 0, off, _ => return off
  | fuel + 1, off, src =>
    if src = [] then return off else do
      let b ← bmap i (off / bsize)
      let ip ← look i
      let data ← bread ip.dev b
      let m := min src.length (bsize - off % bsize)
      logWrite b (data.write (off % bsize) (src.take m))
      brelse b
      writeLoop i fuel (off + m) (src.drop m)

/-- `writei` of the bytes `src`; `none` stands for -1. -/
def writei (i : InodeId) (src : List UInt8) (off : Nat) : M (Option Nat) := do
  let ip ← look i
  let n := src.length
  if ip.d.type = tDev then
    if ip.d.major = console then
      let _ ← device i
      return some n
    else return none
  else if off > ip.d.size.toNat ∨ (off + n) % 2 ^ 32 < off then
    return none
  else if (off + n) % 2 ^ 32 > maxfile * bsize then
    return none
  else
    let off ← writeLoop i n off src
    let ip ← look i
    if n > 0 ∧ off > ip.d.size.toNat then
      store i { ip.d with size := BitVec.ofNat 32 off }
      iupdate i
    return some n

/-! ### Directories -/

/-- The directory entry at `off`. -/
def readDirent (dp : InodeId) (off : Nat) : M Dirent := do
  match ← readi dp off sizeofDirent with
  | some bs => if bs.length = sizeofDirent then return Dirent.ofBytes bs else panic "dirlink read"
  | none => panic "dirlink read"

/-- How often a loop `for (off = 0; off < size; off += sizeof(de))` runs. -/
def entries (size : Nat) : Nat := (size + sizeofDirent - 1) / sizeofDirent

def namecmp (s t : List UInt8) : Int := strncmp s t dirsiz

/-- The loop of `dirlookup`, with `k` entries left. -/
def dirlookupLoop (dp : InodeId) (name : List UInt8) : Nat → Nat → M (Option (InodeId × Nat))
  | 0, _ => return none
  | k + 1, off => do
    let de ← readDirent dp off
    if de.inum ≠ 0 ∧ namecmp name de.name = 0 then
      let x ← look dp
      return some (← iget x.dev de.inum, off)
    else
      dirlookupLoop dp name k (off + sizeofDirent)

/-- `dirlookup`: the inode and the offset of its entry. -/
def dirlookup (dp : InodeId) (name : List UInt8) : M (Option (InodeId × Nat)) := do
  let x ← look dp
  if x.d.type ≠ tDir then
    panic "dirlookup not DIR"
  else
    dirlookupLoop dp name (entries x.d.size.toNat) 0

/-- The offset of the first free entry, or the end. -/
def freeEntry (dp : InodeId) : Nat → Nat → M Nat
  | 0, off => return off
  | k + 1, off => do
    let de ← readDirent dp off
    if de.inum = 0 then return off else freeEntry dp k (off + sizeofDirent)

/-- `dirlink`; `false` stands for -1. -/
def dirlink (dp : InodeId) (name : List UInt8) (inum : Nat) : M Bool := do
  match ← dirlookup dp name with
  | some (i, _) =>
    iput i
    return false
  | none =>
    let x ← look dp
    let off ← freeEntry dp (entries x.d.size.toNat) 0
    if (← writei dp (Dirent.bytes ⟨inum, name⟩) off) = some sizeofDirent then
      return true
    else
      panic "dirlink"

/-! ### Paths -/

def slash : UInt8 := 47

/-- `skipelem`: the next element of a path, cut to `DIRSIZ` bytes, and the path after it. -/
def skipelem (path : List UInt8) : Option (List UInt8 × List UInt8) :=
  let path := path.dropWhile (· = slash)
  if path = [] then none
  else
    some ((path.takeWhile (· ≠ slash)).take dirsiz,
      (path.dropWhile (· ≠ slash)).dropWhile (· = slash))

theorem dropWhile_cases (P : UInt8 → Bool) (path : List UInt8) :
    path.dropWhile P = [] ∨ ∃ c rest, path.dropWhile P = c :: rest ∧ P c = false := by
  cases is : path.dropWhile P with
  | nil => exact .inl rfl
  | cons c rest =>
    have head := List.head_dropWhile_not P (l := path) (is ▸ List.cons_ne_nil c rest)
    exact .inr ⟨c, rest, rfl, by simpa [is] using head⟩

theorem skipelem_shorter {path name rest : List UInt8} (next : skipelem path = some (name, rest)) :
    rest.length < path.length := by
  simp only [skipelem] at next
  obtain none | ⟨c, word, is, first⟩ := dropWhile_cases (· = slash) path
  · simp [none] at next
  · have whole := (List.dropWhile_suffix (· = slash) (l := path)).length_le
    have shorter := ((List.dropWhile_suffix (· = slash)).trans
      (List.dropWhile_suffix (· ≠ slash) (l := word))).length_le
    rw [is, if_neg (List.cons_ne_nil c word)] at next
    cases next
    rw [is, List.length_cons] at whole
    rw [List.dropWhile_cons_of_pos (by simpa using first)]
    omega

/-- The loop of `namex`. Every round takes an element off the path, so that its length is fuel
enough. -/
def namexLoop (nameiparent : Bool) :
    (fuel : Nat) → InodeId → (path name : List UInt8) → M (Option (InodeId × List UInt8))
  | 0, _, _, _ => return none
  | fuel + 1, ip, path, name =>
    match skipelem path with
    | none =>
      if nameiparent then do
        iput ip
        return none
      else return some (ip, name)
    | some (name, path) => do
      ilock ip
      let x ← look ip
      if x.d.type ≠ tDir then
        iunlockput ip
        return none
      else if nameiparent ∧ path = [] then
        iunlock ip
        return some (ip, name)
      else
        match ← dirlookup ip name with
        | none =>
          iunlockput ip
          return none
        | some (next, _) =>
          iunlockput ip
          namexLoop nameiparent fuel next path name

/-- `idup(proc->cwd)`. -/
def dupCwd (p : Slot) : M InodeId := do
  let x : Proc ← call (.getProc p)
  match x.cwd with
  | some i =>
    idup i
    return i
  | none => panic "idup of a null pointer"

/-- Where a path starts. -/
def pathStart (p : Slot) (path : List UInt8) : M InodeId :=
  if path.head? = some slash then iget rootdev rootino else dupCwd p

def namex (p : Slot) (path : List UInt8) (nameiparent : Bool) :
    M (Option (InodeId × List UInt8)) := do
  let ip ← pathStart p path
  namexLoop nameiparent (path.length + 1) ip path []

def namei (p : Slot) (path : List UInt8) : M (Option InodeId) :=
  return (← namex p path false).map Prod.fst

def nameiparent (p : Slot) (path : List UInt8) : M (Option (InodeId × List UInt8)) :=
  namex p path true

end FileSystem
