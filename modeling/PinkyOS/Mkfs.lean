import PinkyOS.DiskFormat
import PinkyOS.FileSystem

/-!
# Building a file system (`mkfs.c`)

`xshort` and `xint` put the bytes of a number in little-endian order whatever the host's order is,
so that a `struct dinode` of the program is the `Dinode` of the disk. A failed assertion is an
error with its text. An input file is its name and what the calls of `read` deliver of it.
-/
namespace Mkfs
open ByteBuffer DiskLog DiskFormat

def nblocks : Nat := 985
def nlog : Nat := logsize
def ninodes : Nat := 200
def size : Nat := 1024

def bitblocks : Nat := size / (512 * 8) + 1

/-- `usedblocks` and `freeblock` at the start. -/
def metablocks : Nat := ninodes / ipb + 3 + bitblocks

structure State where
  disk : Nat → Block
  freeblock : Nat
  usedblocks : Nat
  freeinode : Nat

structure Input where
  name : List UInt8
  chunks : List (List UInt8)
  noNul : 0 ∉ name
  delivered : ∀ chunk ∈ chunks, 1 ≤ chunk.length ∧ chunk.length ≤ 512

/-- The bytes of the file. -/
def Input.bytes (f : Input) : List UInt8 := f.chunks.flatten

def wsect (s : State) (sec : Nat) (buf : Block) : State :=
  { s with disk := Function.update s.disk sec buf }

def i2b (inum : Nat) : Nat := inum / ipb + 2

def winode (s : State) (inum : Nat) (din : Dinode) : State :=
  wsect s (i2b inum) (Dinode.store (s.disk (i2b inum)) inum din)

def rinode (s : State) (inum : Nat) : Dinode := Dinode.ofBlock (s.disk (i2b inum)) inum

def ialloc (s : State) (type : BitVec 16) : State × Nat :=
  (winode { s with freeinode := s.freeinode + 1 } s.freeinode
    { Dinode.zero with type := type, nlink := 1 }, s.freeinode)

/-- The bitmap with the first `used` bits set. -/
def bitmap (used : Nat) : Block := (List.range used).foldl setBit fun _ => 0

def balloc (s : State) (used : Nat) : Except String State :=
  if used < 512 * 8 then .ok (wsect s (ninodes / ipb + 3) (bitmap used))
  else .error "used < 512*8"

/-- `freeblock++` and `usedblocks++`. -/
def take (s : State) : State :=
  { s with freeblock := s.freeblock + 1, usedblocks := s.usedblocks + 1 }

/-- The indirect block of an inode, allocated if it has none. -/
def mapIndirect (s : State) (din : Dinode) : State × Dinode :=
  if din.addr ndirect = 0 then (take s, din.setAddr ndirect s.freeblock) else (s, din)

/-- The block of `iappend` for `fbn`, with the state and the inode after it was allocated. -/
def mapBlock (s : State) (din : Dinode) (fbn : Nat) : State × Dinode × Nat :=
  if fbn < ndirect then
    if din.addr fbn = 0 then
      let din := din.setAddr fbn s.freeblock
      (take s, din, din.addr fbn)
    else (s, din, din.addr fbn)
  else
    let (s, din) := mapIndirect s din
    let indirect := s.disk (din.addr ndirect)
    if word indirect (fbn - ndirect) = 0 then
      let indirect := setWord indirect (fbn - ndirect) s.freeblock
      (wsect (take s) (din.addr ndirect) indirect, din, word indirect (fbn - ndirect))
    else (s, din, word indirect (fbn - ndirect))

/-- The loop of `iappend`; `fuel` is at least the number of bytes left. -/
def appendLoop : (fuel : Nat) → State → Dinode → (off : Nat) → List UInt8 →
    Except String (State × Dinode × Nat)
  | 0, s, din, off, _ => .ok (s, din, off)
  | fuel + 1, s, din, off, p =>
    if p = [] then .ok (s, din, off)
    else
      let fbn := off / 512
      if fbn < maxfile then
        let (s, din, x) := mapBlock s din fbn
        let n1 := min p.length ((fbn + 1) * 512 - off)
        let s := wsect s x ((s.disk x).write (off - fbn * 512) (p.take n1))
        appendLoop fuel s din (off + n1) (p.drop n1)
      else .error "fbn < MAXFILE"

def iappend (s : State) (inum : Nat) (p : List UInt8) : Except String State := do
  let din := rinode s inum
  let (s, din, off) ← appendLoop p.length s din din.size.toNat p
  return winode s inum { din with size := BitVec.ofNat 32 off }

/-- The name without one leading underscore. -/
def strip (name : List UInt8) : List UInt8 := if name.head? = some 95 then name.tail else name

/-- One round of the loop of `main` over its arguments. -/
def addFile (rootino : Nat) (s : State) (f : Input) : Except String State := do
  if FileSystem.slash ∈ f.name then throw "index(argv[i], '/') == 0"
  let (s, inum) := ialloc s tFile
  let s ← iappend s rootino (Dirent.bytes ⟨inum, strip f.name⟩)
  f.chunks.foldlM (fun s chunk => iappend s inum chunk) s

/-- The superblock. -/
def superblock : List UInt8 := leBytes 4 size ++ leBytes 4 nblocks ++ leBytes 4 ninodes ++ leBytes 4 nlog

/-- The image after the superblock has been written. -/
def start : State :=
  wsect ⟨fun _ _ => 0, metablocks, metablocks, 1⟩ 1 (Buffer.write (fun _ => 0) 0 superblock)

/-- The size that `main` gives the root directory at the end. -/
def fixSize (off : Nat) : Nat := (off / bsize + 1) * bsize

def fixRoot (s : State) (root : Nat) : State :=
  let din := rinode s root
  winode s root { din with size := BitVec.ofNat 32 (fixSize din.size.toNat) }

def main (files : List Input) : Except String State := do
  if nblocks + metablocks + nlog ≠ size then throw "nblocks + usedblocks + nlog == size"
  let (s, root) := ialloc start tDir
  if root ≠ rootino then throw "rootino == ROOTINO"
  let s ← iappend s root (Dirent.bytes ⟨root, [46]⟩)
  let s ← iappend s root (Dirent.bytes ⟨root, [46, 46]⟩)
  let s ← files.foldlM (addFile root) s
  let s := fixRoot s root
  balloc s s.usedblocks

end Mkfs
