import PinkyOS.FileSystem

/-!
# System calls on files (`file.c`, `sysfile.c`, and the parts of `exec.c`, `pipe.c` and `proc.c`
that handle files)

A failed `argstr` or `argint` is an argument `none`; `false` and `none` stand for the result -1.
-/
namespace FileSystem
open ByteBuffer DiskLog DiskFormat Program
open SleepWakeup (Slot ProcState initproc)

abbrev Path := List UInt8
abbrev Fd := Fin nofile

/-! ### `file.c` -/

def fileclose (f : FileId) : M Unit := do
  let last : Option File ← call (.closeRef f)
  match last with
  | none => return
  | some ff =>
    match ff.type with
    | .pipe => call (.pipeclose ff.pipe ff.writable)
    | .inode => do
      beginTrans
      iput ff.ip
      commitTrans
    | .none => return

def filestat (f : FileId) : M (Option Inode) := do
  let x : File ← call (.lookFile f)
  if x.type = .inode then
    ilock x.ip
    let ip ← look x.ip
    iunlock x.ip
    return some ip
  else
    return none

def fileread (f : FileId) (n : Nat) : M (Option (List UInt8)) := do
  let x : File ← call (.lookFile f)
  if !x.readable then return none
  else
    match x.type with
    | .pipe => call (.pipeIo x.pipe)
    | .inode => do
      ilock x.ip
      let r ← readi x.ip x.off n
      let x : File ← call (.lookFile f)
      call (.storeFile f { x with off := (x.off + (r.getD []).length) % 2 ^ 32 })
      iunlock x.ip
      return r
    | .none => panic "fileread"

/-- The bytes that one transaction of `filewrite` writes. -/
def maxChunk : Nat := (logsize - 1 - 1 - 2) / 2 * 512

/-- One round of the loop of `filewrite`: what `writei` returned. -/
def writeChunk (f : FileId) (src : List UInt8) : M (Option Nat) := do
  beginTrans
  let x : File ← call (.lookFile f)
  ilock x.ip
  let x : File ← call (.lookFile f)
  let r ← writei x.ip src x.off
  let x : File ← call (.lookFile f)
  call (.storeFile f { x with off := (x.off + r.getD 0) % 2 ^ 32 })
  iunlock x.ip
  commitTrans
  return r

/-- The loop of `filewrite`; `fuel` is at least the number of bytes left. -/
def writeChunks (f : FileId) : (fuel : Nat) → List UInt8 → M Bool
  | 0, src => return src = []
  | fuel + 1, src =>
    if src = [] then return true else do
      let chunk := src.take maxChunk
      match ← writeChunk f chunk with
      | none => return false
      | some r =>
        if r = chunk.length then writeChunks f fuel (src.drop maxChunk)
        else panic "short filewrite"

def filewrite (f : FileId) (src : List UInt8) : M (Option Nat) := do
  let x : File ← call (.lookFile f)
  if !x.writable then return none
  else
    match x.type with
    | .pipe =>
      let r : Option (List UInt8) ← call (.pipeIo x.pipe)
      return r.map List.length
    | .inode => do
      if ← writeChunks f src.length src then return some src.length else return none
    | .none => panic "filewrite"

/-! ### Descriptors -/

def argfd (p : Slot) (fd : Int) : M (Option (Fd × FileId)) := do
  if h : 0 ≤ fd ∧ fd.toNat < nofile then
    let x : Proc ← call (.getProc p)
    match x.ofile ⟨fd.toNat, h.2⟩ with
    | some f => return some (⟨fd.toNat, h.2⟩, f)
    | none => return none
  else
    return none

def fdalloc (p : Slot) (f : FileId) : M (Option Fd) := do
  let x : Proc ← call (.getProc p)
  match (List.finRange nofile).find? fun fd => (x.ofile fd).isNone with
  | some fd =>
    call (.setOfile p fd (some f))
    return some fd
  | none => return none

def sysDup (p : Slot) (fd : Int) : M (Option Fd) := do
  match ← argfd p fd with
  | none => return none
  | some (_, f) =>
    match ← fdalloc p f with
    | none => return none
    | some fd =>
      call (.filedup f)
      return some fd

def sysRead (p : Slot) (fd : Int) (n : Nat) : M (Option (List UInt8)) := do
  match ← argfd p fd with
  | none => return none
  | some (_, f) => fileread f n

def sysWrite (p : Slot) (fd : Int) (src : List UInt8) : M (Option Nat) := do
  match ← argfd p fd with
  | none => return none
  | some (_, f) => filewrite f src

def sysClose (p : Slot) (fd : Int) : M Bool := do
  match ← argfd p fd with
  | none => return false
  | some (fd, f) =>
    call (.setOfile p fd none)
    fileclose f
    return true

def sysFstat (p : Slot) (fd : Int) : M (Option Inode) := do
  match ← argfd p fd with
  | none => return none
  | some (_, f) => filestat f

/-! ### Links -/

def dot : Path := [46]
def dotdot : Path := [46, 46]

/-- `goto bad` of `sys_link`. -/
def linkBad (i : InodeId) : M Bool := do
  ilock i
  let ip ← look i
  store i { ip.d with nlink := ip.d.nlink - 1 }
  iupdate i
  iunlockput i
  commitTrans
  return false

def sysLink (p : Slot) (old new : Option Path) : M Bool := do
  match old, new with
  | some old, some new =>
    match ← namei p old with
    | none => return false
    | some i =>
      beginTrans
      ilock i
      let ip ← look i
      if ip.d.type = tDir then
        iunlockput i
        commitTrans
        return false
      else
        store i { ip.d with nlink := ip.d.nlink + 1 }
        iupdate i
        iunlock i
        match ← nameiparent p new with
        | none => linkBad i
        | some (dp, name) =>
          ilock dp
          let dx ← look dp
          let ip ← look i
          if dx.dev ≠ ip.dev then
            iunlockput dp
            linkBad i
          else if ← dirlink dp name ip.inum then
            iunlockput dp
            iput i
            commitTrans
            return true
          else
            iunlockput dp
            linkBad i
  | _, _ => return false

/-- The loop of `isdirempty`, with `k` entries left. -/
def isdiremptyLoop (dp : InodeId) : Nat → Nat → M Bool
  | 0, _ => return true
  | k + 1, off => do
    match ← readi dp off sizeofDirent with
    | some bs =>
      if bs.length ≠ sizeofDirent then panic "isdirempty: readi"
      else if (Dirent.ofBytes bs).inum ≠ 0 then return false
      else isdiremptyLoop dp k (off + sizeofDirent)
    | none => panic "isdirempty: readi"

def isdirempty (dp : InodeId) : M Bool := do
  let x ← look dp
  isdiremptyLoop dp (entries x.d.size.toNat - 2) (2 * sizeofDirent)

/-- `goto bad` of `sys_unlink`. -/
def unlinkBad (dp : InodeId) : M Bool := do
  iunlockput dp
  commitTrans
  return false

/-- `sys_unlink` once both inodes are locked and the entry may go. -/
def unlinkEntry (dp i : InodeId) (off : Nat) : M Bool := do
  if (← writei dp (List.replicate sizeofDirent 0) off) ≠ some sizeofDirent then
    panic "unlink: writei"
  else
    let ip ← look i
    if ip.d.type = tDir then
      let dx ← look dp
      store dp { dx.d with nlink := dx.d.nlink - 1 }
      iupdate dp
    iunlockput dp
    let ip ← look i
    store i { ip.d with nlink := ip.d.nlink - 1 }
    iupdate i
    iunlockput i
    commitTrans
    return true

def sysUnlink (p : Slot) (path : Option Path) : M Bool := do
  match path with
  | none => return false
  | some path =>
    match ← nameiparent p path with
    | none => return false
    | some (dp, name) =>
      beginTrans
      ilock dp
      if name = dot ∨ name = dotdot then
        unlinkBad dp
      else
        match ← dirlookup dp name with
        | none => unlinkBad dp
        | some (i, off) =>
          ilock i
          let ip ← look i
          if ip.d.nlink.toInt < 1 then
            panic "unlink: nlink < 1"
          else if ip.d.type = tDir then
            if ← isdirempty i then
              unlinkEntry dp i off
            else
              iunlockput i
              unlinkBad dp
          else
            unlinkEntry dp i off

/-! ### Creation -/

/-- `create` once it is clear that the name is new. -/
def createNew (dp : InodeId) (name : Path) (type major minor : BitVec 16) : M InodeId := do
  let dx ← look dp
  let i ← ialloc dx.dev type
  ilock i
  let ip ← look i
  store i { ip.d with major := major, minor := minor, nlink := 1 }
  iupdate i
  if type = tDir then
    let dx ← look dp
    store dp { dx.d with nlink := dx.d.nlink + 1 }
    iupdate dp
    let ip ← look i
    if !(← dirlink i dot ip.inum) then
      panic "create dots"
    let dx ← look dp
    if !(← dirlink i dotdot dx.inum) then
      panic "create dots"
  let ip ← look i
  if !(← dirlink dp name ip.inum) then
    panic "create: dirlink"
  iunlockput dp
  return i

def create (p : Slot) (path : Path) (type major minor : BitVec 16) : M (Option InodeId) := do
  match ← nameiparent p path with
  | none => return none
  | some (dp, name) =>
    ilock dp
    match ← dirlookup dp name with
    | some (i, _) =>
      iunlockput dp
      ilock i
      let ip ← look i
      if type = tFile ∧ ip.d.type = tFile then
        return some i
      else
        iunlockput i
        return none
    | none => return some (← createNew dp name type major minor)

def oWronly : BitVec 64 := 1
def oRdwr : BitVec 64 := 2
def oCreate : BitVec 64 := 0x200

/-- `sys_open` once the inode is found and locked. -/
def openInode (p : Slot) (i : InodeId) (omode : BitVec 64) : M (Option Fd) := do
  let f : Option FileId ← call .filealloc
  match f with
  | none =>
    iunlockput i
    return none
  | some f =>
    match ← fdalloc p f with
    | none =>
      fileclose f
      iunlockput i
      return none
    | some fd =>
      iunlock i
      let x : File ← call (.lookFile f)
      call (.storeFile f { x with
        type := .inode, ip := i, off := 0
        readable := omode &&& oWronly = 0
        writable := omode &&& oWronly ≠ 0 ∨ omode &&& oRdwr ≠ 0 })
      return some fd

def sysOpen (p : Slot) (path : Option Path) (omode : BitVec 64) : M (Option Fd) := do
  match path with
  | none => return none
  | some path =>
    if omode &&& oCreate ≠ 0 then
      beginTrans
      let i ← create p path tFile 0 0
      commitTrans
      match i with
      | none => return none
      | some i => openInode p i omode
    else
      match ← namei p path with
      | none => return none
      | some i =>
        ilock i
        let ip ← look i
        if ip.d.type = tDir ∧ omode ≠ 0 then
          iunlockput i
          return none
        else
          openInode p i omode

/-- `sys_mkdir` and `sys_mknod`, with the type and the numbers of the new inode. -/
def sysMake (p : Slot) (path : Option Path) (type major minor : BitVec 16) : M Bool := do
  beginTrans
  match path with
  | none =>
    commitTrans
    return false
  | some path =>
    match ← create p path type major minor with
    | none =>
      commitTrans
      return false
    | some i =>
      iunlockput i
      commitTrans
      return true

def sysMkdir (p : Slot) (path : Option Path) : M Bool := sysMake p path tDir 0 0

def sysMknod (p : Slot) (path : Option Path) (major minor : BitVec 16) : M Bool :=
  sysMake p path tDev major minor

def putCwd (p : Slot) : M Unit := do
  let x : Proc ← call (.getProc p)
  match x.cwd with
  | some i => iput i
  | none => panic "iput of a null pointer"

def sysChdir (p : Slot) (path : Option Path) : M Bool := do
  match path with
  | none => return false
  | some path =>
    match ← namei p path with
    | none => return false
    | some i =>
      ilock i
      let ip ← look i
      if ip.d.type ≠ tDir then
        iunlockput i
        return false
      else
        iunlock i
        putCwd p
        call (.setCwd p (some i))
        return true

/-! ### Pipes -/

/-- `pipealloc`: both ends, or `none` after `goto bad`. -/
def pipealloc : M (Option (FileId × FileId)) := do
  let f0 : Option FileId ← call .filealloc
  match f0 with
  | none => return none
  | some f0 =>
    let f1 : Option FileId ← call .filealloc
    match f1 with
    | none =>
      fileclose f0
      return none
    | some f1 =>
      let pipe : Option Nat ← call .pipeNew
      match pipe with
      | none =>
        fileclose f0
        fileclose f1
        return none
      | some a =>
        let x : File ← call (.lookFile f0)
        call (.storeFile f0 { x with type := .pipe, readable := true, writable := false, pipe := a })
        let x : File ← call (.lookFile f1)
        call (.storeFile f1 { x with type := .pipe, readable := false, writable := true, pipe := a })
        return some (f0, f1)

def sysPipe (p : Slot) : M (Option (Fd × Fd)) := do
  match ← pipealloc with
  | none => return none
  | some (rf, wf) =>
    match ← fdalloc p rf with
    | none =>
      fileclose rf
      fileclose wf
      return none
    | some fd0 =>
      match ← fdalloc p wf with
      | none =>
        call (.setOfile p fd0 none)
        fileclose rf
        fileclose wf
        return none
      | some fd1 => return some (fd0, fd1)

/-! ### Processes -/

/-- `fork` copies the descriptors that are left. -/
def dupFiles (np : Slot) (ofile : Fd → Option FileId) : List Fd → M Unit
  | [] => return
  | fd :: fds => do
    match ofile fd with
    | some f =>
      call (.filedup f)
      call (.setOfile np fd (some f))
    | none => pure ()
    dupFiles np ofile fds

/-- `fork`; the answers of `vm.c` are those of `alloc_page` and `copyuvm`. -/
def fork (p : Slot) : M Bool := do
  let np : Option Slot ← call .allocproc
  match np with
  | none => return false
  | some np =>
    let kstack : Nat ← call .memory
    if kstack = 0 then
      call (.setState np .unused)
      return false
    else
      let pgdir : Nat ← call .memory
      if pgdir = 0 then
        call (.setState np .unused)
        return false
      else
        let x : Proc ← call (.getProc p)
        dupFiles np x.ofile (List.finRange nofile)
        let i ← dupCwd p
        call (.setCwd np (some i))
        call (.setState np .runnable)
        return true

/-- `exit` closes the descriptors that are left. -/
def closeFiles (p : Slot) : List Fd → M Unit
  | [] => return
  | fd :: fds => do
    let x : Proc ← call (.getProc p)
    match x.ofile fd with
    | some f =>
      fileclose f
      call (.setOfile p fd none)
    | none => pure ()
    closeFiles p fds

def exit (p : Slot) : M Unit := do
  if p = initproc then
    panic "init exiting"
  else
    closeFiles p (List.finRange nofile)
    putCwd p
    call (.setCwd p none)
    call (.setState p .zombie)

/-- `userinit`; the answers of `vm.c` are those of `alloc_page` and `kpt_alloc`. -/
def userinit : M Unit := do
  let p : Option Slot ← call .allocproc
  let kstack : Nat ← call .memory
  match p with
  | none => panic "null pointer"
  | some p =>
    if kstack = 0 then panic "null pointer"
    else
      let pgdir : Nat ← call .memory
      if pgdir = 0 then panic "userinit: out of memory?"
      else
        let cwd ← namei p [slash]
        call (.setCwd p cwd)
        call (.setState p .runnable)

/-! ### `exec` -/

/-- `loaduvm` from offset `i` of the segment; `fuel` is at least the number of pages left. -/
def loaduvm (ip : InodeId) (offset sz : Nat) : (fuel i : Nat) → M Bool
  | 0, _ => return true
  | fuel + 1, i =>
    if i < sz then do
      let pte : Nat ← call .memory
      if pte = 0 then
        panic "loaduvm: address should exist"
      else
        let n := min (sz - i) 4096
        match ← readi ip ((offset + i) % 2 ^ 32) n with
        | some bs => if bs.length = n then loaduvm ip offset sz fuel (i + 4096) else return false
        | none => return false
    else
      return true

/-- The loop of `exec` over the program headers, `k` of which are left; `false` is `goto bad`. -/
def execLoad (ip : InodeId) : (k off : Nat) → M Bool
  | 0, _ => return true
  | k + 1, off => do
    match ← readi ip (off % 2 ^ 32) 56 with
    | none => return false
    | some ph =>
      let field := fun at' width => ofLE ((ph.drop at').take width)
      if ph.length ≠ 56 then return false
      else if field 0 4 ≠ 1 then execLoad ip k (off + 56)
      else if field 40 8 < field 32 8 then return false
      else
        let sz : Nat ← call .memory
        if sz = 0 then return false
        else if field 16 8 % 4096 ≠ 0 then panic "loaduvm: addr must be page aligned"
        else if ← loaduvm ip (field 8 8 % 2 ^ 32) (field 32 8 % 2 ^ 32) (field 32 8 % 2 ^ 32) 0 then
          execLoad ip k (off + 56)
        else return false

/-- The reads of the debugging scan for `.text`. -/
def debugScan (ip : InodeId) : Nat → M Unit
  | 0 => return
  | k + 1 => do
    let off : Nat ← call .memory
    let n : Nat ← call .memory
    let _ ← readi ip off n
    debugScan ip k

/-- The fields `magic`, `phoff` and `phnum` of the header. `readi(..) < sizeof(elf)` compares
unsigned numbers: with the result -1 the header is what the stack held. -/
def execHeader (elf : Option (List UInt8)) : M (Option (Nat × Nat × Nat)) := do
  match elf with
  | some bs =>
    let field := fun at' width => ofLE ((bs.drop at').take width)
    if bs.length < 64 then return none
    else return some (field 0 4, field 32 8, field 56 2)
  | none =>
    let magic : Nat ← call .memory
    let phoff : Nat ← call .memory
    let phnum : Nat ← call .memory
    return some (magic, phoff, phnum % 2 ^ 16)

/-- `exec` up to the point where it is done with the file; `false` is `goto bad`. -/
def execFile (ip : InodeId) : M Bool := do
  match ← execHeader (← readi ip 0 64) with
  | none => return false
  | some (magic, phoff, phnum) =>
    if magic ≠ 0x464C457F then return false
    else
      let pgdir : Nat ← call .memory
      if pgdir = 0 then return false
      else if ← execLoad ip phnum phoff then
        let reads : Nat ← call .memory
        debugScan ip reads
        return true
      else return false

def exec (p : Slot) (path : Path) : M Bool := do
  match ← namei p path with
  | none => return false
  | some i =>
    ilock i
    let loaded ← execFile i
    iunlockput i
    if loaded then
      -- the stack pages and the arguments
      let stack : Nat ← call .memory
      return stack ≠ 0
    else return false

def sysExec (p : Slot) (path : Option Path) : M Bool := do
  match path with
  | none => return false
  | some path => exec p path

end FileSystem
