import PinkyOS.MemoryLayout

/-!
# User buffers of system calls (`syscall.c`, `sysfile.c`)

`sys_read`, `sys_write`, `sys_fstat` and `sys_pipe` as far as user memory is concerned: the
result of a call, and the user addresses it reads or writes. What a call finds on its way (a pipe
that is empty or has no reader, the characters of the console, size and offset of a file at each
transaction) is a parameter. A call that sleeps for ever is left out: what it has touched until
then is also touched by a call that returns.
-/
namespace UserBuffers
open MemoryLayout

/-! ### Arguments -/

/-- The part of `struct proc` that the calls read. -/
structure Proc (File : Type) where
  sz : Nat
  bounded : sz ≤ uaddrSz
  r1 : BitVec 64
  r2 : BitVec 64
  r3 : BitVec 64
  ofile : Nat → Option File

def nofile : Nat := 16

/-- The conversion of a `long` to an `int`. -/
def toI32 (x : BitVec 64) : Int := (x.setWidth 32).toInt

/-- The conversion of an `int` to a `uint`. -/
def toU32 (n : Int) : Nat := (n % 2 ^ 32).toNat

/-- `argptr` for the pointer `i`; the sum is one of `uint64`. -/
def argptr (sz : Nat) (i : BitVec 64) (size : Int) : Option Nat :=
  if sz ≤ i.toNat ∨ (sz : Int) < ((i.toNat : Int) + size) % 2 ^ 64 then none else some i.toNat

def argfd {File : Type} (p : Proc File) (fd : BitVec 64) : Option File :=
  if fd.toInt < 0 ∨ nofile ≤ fd.toInt then none else p.ofile fd.toInt.toNat

/-! ### Effects -/

inductive End where
  | returns (r : Int)
  | panics (msg : String)
  deriving DecidableEq

/-- The user addresses a call touches, in order, and how it ends. -/
structure Effect where
  touched : List Nat
  fin : End

def Effect.after (e : Effect) (before : List Nat) : Effect := { e with touched := before ++ e.touched }

def span (addr n : Nat) : List Nat := (List.range n).map fun i => addr + i

/-! ### Pipes and the console -/

/-- The byte loops of `piperead` and `pipewrite`: they return `early i` where byte `i` is not to
be had, and `done i` at the end. -/
def pipeLoop (stop : Nat → Bool) (early done : Nat → Int) (addr : Nat) (n : Int) (i : Nat) :
    Effect :=
  if (i : Int) < n then
    if stop i then
      ⟨[], .returns (early i)⟩
    else
      (pipeLoop stop early done addr n (i + 1)).after [addr + i]
  else
    ⟨[], .returns (done i)⟩
termination_by (n - i).toNat

/-- `empty i` says that there is no byte left after `i` of them. -/
def piperead (killed : Bool) (empty : Nat → Bool) (addr : Nat) (n : Int) : Effect :=
  if killed then ⟨[], .returns (-1)⟩ else pipeLoop empty (fun i => i) (fun i => i) addr n 0

/-- `gone i` says that byte `i` finds the pipe full and no reader. -/
def pipewrite (gone : Nat → Bool) (addr : Nat) (n : Int) : Effect :=
  pipeLoop gone (fun _ => -1) (fun _ => n) addr n 0

/-- The loop of `consoleread` with `n` bytes left of `target`; `input k` is character `k` that it
gets, or `none` when the process is killed instead. -/
def consolereadFrom (input : Nat → Option UInt8) (target dst k : Nat) : Nat → Effect
  | 0 => ⟨[], .returns target⟩
  | n + 1 =>
    match input k with
    | none => ⟨[], .returns (-1)⟩
    | some c =>
      -- `C('D')`
      if c = 4 then
        ⟨[], .returns (target - (n + 1))⟩
      else if c = 10 then
        ⟨[dst], .returns (target - n)⟩
      else
        (consolereadFrom input target (dst + 1) (k + 1) n).after [dst]

def consoleread (input : Nat → Option UInt8) (dst : Nat) (n : Int) : Effect :=
  consolereadFrom input n.toNat dst 0 n.toNat

def consolewrite (buf : Nat) (n : Int) : Effect := ⟨span buf n.toNat, .returns n⟩

/-! ### Inodes -/

def bsize : Nat := 512
def maxfile : Nat := 12 + 128
def ndev : Int := 10
def console : Int := 1

/-- What `readi` and `writei` see under the lock: the major number of a device, size and offset. -/
structure View where
  dev : Option Int
  size : Nat
  off : Nat

/-- The loop that `readi` and `writei` share, block by block. -/
def copyBlocks (addr off tot n : Nat) : List Nat :=
  if tot < n then
    let m := min (n - tot) (bsize - off % bsize)
    span addr m ++ copyBlocks (addr + m) (off + m) (tot + m) n
  else
    []
termination_by n - tot
decreasing_by
  have : off % bsize < bsize := Nat.mod_lt _ (by decide)
  omega

/-- Only `devsw[CONSOLE]` has functions. -/
def hasDev (major : Int) : Bool := ¬ (major < 0 ∨ major ≥ ndev) ∧ major = console

def readi (v : View) (input : Nat → Option UInt8) (dst n : Nat) : Effect :=
  match v.dev with
  | some major =>
    if hasDev major then
      consoleread input dst (BitVec.ofNat 32 n).toInt
    else
      ⟨[], .returns (-1)⟩
  | none =>
    if v.off > v.size ∨ (v.off + n) % 2 ^ 32 < v.off then
      ⟨[], .returns (-1)⟩
    else
      let n := if v.off + n > v.size then v.size - v.off else n
      ⟨copyBlocks dst v.off 0 n, .returns (BitVec.ofNat 32 n).toInt⟩

def writei (v : View) (src n : Nat) : Effect :=
  match v.dev with
  | some major =>
    if hasDev major then
      consolewrite src (BitVec.ofNat 32 n).toInt
    else
      ⟨[], .returns (-1)⟩
  | none =>
    if v.off > v.size ∨ (v.off + n) % 2 ^ 32 < v.off then
      ⟨[], .returns (-1)⟩
    else if (v.off + n) % 2 ^ 32 > maxfile * bsize then
      ⟨[], .returns (-1)⟩
    else
      ⟨copyBlocks src v.off 0 n, .returns (BitVec.ofNat 32 n).toInt⟩

/-! ### Files -/

inductive FileType where
  | none
  | pipe
  | inode
  deriving DecidableEq

structure File where
  type : FileType
  readable : Bool
  writable : Bool

/-- What a call meets: the state of the pipe, the characters of the console, and the file at the
`k`-th transaction of the call. -/
structure World where
  killed : Bool
  empty : Nat → Bool
  gone : Nat → Bool
  input : Nat → Option UInt8
  view : Nat → View

def fileread (w : World) (f : File) (addr : Nat) (n : Int) : Effect :=
  if f.readable then
    match f.type with
    | .pipe => piperead w.killed w.empty addr n
    | .inode => readi (w.view 0) w.input addr (toU32 n)
    | .none => ⟨[], .panics "fileread"⟩
  else
    ⟨[], .returns (-1)⟩

def logsize : Nat := 10
def maxChunk : Int := ((logsize - 1 - 1 - 2) / 2) * 512

/-- The loop of `filewrite` with `i` bytes written in `k` transactions. -/
def filewriteFrom (w : World) (addr : Nat) (n : Int) (i k : Nat) : Effect :=
  if (i : Int) < n then
    let n1 := min (n - i) maxChunk
    let e := writei (w.view k) (addr + i) (toU32 n1)
    match e.fin with
    | .panics msg => ⟨e.touched, .panics msg⟩
    | .returns r =>
      if r < 0 then
        ⟨e.touched, .returns (-1)⟩
      else if r ≠ n1 then
        ⟨e.touched, .panics "short filewrite"⟩
      else
        (filewriteFrom w addr n (i + n1.toNat) (k + 1)).after e.touched
  else
    ⟨[], .returns (if (i : Int) = n then n else -1)⟩
termination_by (n - i).toNat
decreasing_by
  have : maxChunk = 1536 := rfl
  omega

def filewrite (w : World) (f : File) (addr : Nat) (n : Int) : Effect :=
  if f.writable then
    match f.type with
    | .pipe => pipewrite w.gone addr n
    | .inode => filewriteFrom w addr n 0 0
    | .none => ⟨[], .panics "filewrite"⟩
  else
    ⟨[], .returns (-1)⟩

/-! ### The calls -/

def sysRead (w : World) (p : Proc File) : Effect :=
  match argfd p p.r1, argptr p.sz p.r2 (toI32 p.r3) with
  | some f, some addr => fileread w f addr (toI32 p.r3)
  | _, _ => ⟨[], .returns (-1)⟩

def sysWrite (w : World) (p : Proc File) : Effect :=
  match argfd p p.r1, argptr p.sz p.r2 (toI32 p.r3) with
  | some f, some addr => filewrite w f addr (toI32 p.r3)
  | _, _ => ⟨[], .returns (-1)⟩

def sizeofStat : Nat := 20

/-- The fields that `stati` stores: `type`, `dev`, `ino`, `nlink` and `size`. -/
def statFields (st : Nat) : List Nat :=
  span st 2 ++ span (st + 4) 4 ++ span (st + 8) 4 ++ span (st + 12) 2 ++ span (st + 16) 4

def sysFstat (p : Proc File) : Effect :=
  match argfd p p.r1, argptr p.sz p.r2 sizeofStat with
  | some f, some st =>
    if f.type = .inode then ⟨statFields st, .returns 0⟩ else ⟨[], .returns (-1)⟩
  | _, _ => ⟨[], .returns (-1)⟩

/-- Two descriptors, `2 * sizeof(fd[0])`. -/
def sizeofFds : Nat := 2 * 4

/-- `made` says whether `pipealloc` and the two `fdalloc` succeed. -/
def sysPipe (made : Bool) (p : Proc File) : Effect :=
  match argptr p.sz p.r1 sizeofFds with
  | some fd => if made then ⟨span fd 4 ++ span (fd + 4) 4, .returns 0⟩ else ⟨[], .returns (-1)⟩
  | none => ⟨[], .returns (-1)⟩

/-! ### What the layers touch -/

/-- All addresses lie in the `n` bytes from `addr` on. -/
def Within (addr : Nat) (n : Int) (touched : List Nat) : Prop :=
  ∀ a ∈ touched, addr ≤ a ∧ (a : Int) < addr + n

theorem within_nil (addr : Nat) (n : Int) : Within addr n [] := nofun

variable {addr sz : Nat} {n : Int} {s : List Nat} {e : Effect} {p : Proc File}

theorem Within.append {t : List Nat} (hs : Within addr n s)
    (ht : Within addr n t) : Within addr n (s ++ t) := by
  intro a ha
  rcases List.mem_append.mp ha with h | h
  · exact hs a h
  · exact ht a h

theorem Within.mono {addr' : Nat} {n' : Int} (h : Within addr n s)
    (low : addr' ≤ addr) (high : (addr : Int) + n ≤ addr' + n') : Within addr' n' s := by
  intro a ha
  obtain ⟨h₁, h₂⟩ := h a ha
  exact ⟨Nat.le_trans low h₁, Int.lt_of_lt_of_le h₂ high⟩

theorem within_span (addr n : Nat) : Within addr n (span addr n) := by
  intro a ha
  obtain ⟨i, hi, rfl⟩ := List.mem_map.mp ha
  have := List.mem_range.mp hi
  omega

theorem within_pipeLoop (stop : Nat → Bool) (early done : Nat → Int) (addr : Nat) (n : Int)
    (i : Nat) : Within addr n (pipeLoop stop early done addr n i).touched := by
  fun_induction pipeLoop stop early done addr n i with
  | case1 => exact within_nil addr n
  | case2 i more _ ih =>
    refine Within.append ?_ ih
    intro a ha
    obtain rfl := List.mem_singleton.mp ha
    omega
  | case3 => exact within_nil addr n

theorem within_consolereadFrom (input : Nat → Option UInt8) (target dst k n : Nat) :
    Within dst n (consolereadFrom input target dst k n).touched := by
  induction n generalizing dst k with
  | zero => exact within_nil dst _
  | succ n ih =>
    have first : Within dst (n + 1 : Nat) [dst] := by
      intro a ha
      obtain rfl := List.mem_singleton.mp ha
      omega
    rw [consolereadFrom]
    split
    · exact within_nil dst _
    · split
      · exact within_nil dst _
      · split
        · exact first
        · exact first.append ((ih (dst + 1) (k + 1)).mono (Nat.le_succ dst) (by omega))

theorem span_append (addr m n : Nat) : span addr m ++ span (addr + m) n = span addr (m + n) := by
  simp [span, List.range_add, Nat.add_assoc]

theorem copyBlocks_eq (addr off tot n : Nat) : copyBlocks addr off tot n = span addr (n - tot) := by
  fun_induction copyBlocks addr off tot n with
  | case1 addr off tot more m ih =>
    have fits : m ≤ n - tot := Nat.min_le_left ..
    rw [ih, span_append]
    congr 1
    omega
  | case2 addr off tot done =>
    rw [Nat.sub_eq_zero_of_le (Nat.not_lt.mp done)]
    rfl

theorem toI32_nonneg_le {n : Nat} (h : 0 ≤ (BitVec.ofNat 32 n).toInt) :
    (BitVec.ofNat 32 n).toInt ≤ n := by
  rw [BitVec.toInt_eq_toNat_cond] at h ⊢
  split
  · rw [BitVec.toNat_ofNat]
    exact_mod_cast Nat.mod_le n (2 ^ 32)
  · rename_i big
    rw [if_neg big] at h
    have := (BitVec.ofNat 32 n).isLt
    omega

theorem within_toNat {m : Nat}
    (h : Within addr n.toNat s) (le : 0 ≤ n → n ≤ m) : Within addr m s := by
  intro a ha
  obtain ⟨h₁, h₂⟩ := h a ha
  omega

theorem within_readi (v : View) (input : Nat → Option UInt8) (dst n : Nat) :
    Within dst n (readi v input dst n).touched := by
  rw [readi]
  split
  · split
    · exact within_toNat (within_consolereadFrom _ _ _ _ _) toI32_nonneg_le
    · exact within_nil _ _
  · split
    · exact within_nil _ _
    · simp only [copyBlocks_eq]
      refine (within_span _ _).mono (Nat.le_refl dst) ?_
      split <;> omega

theorem within_writei (v : View) (src n : Nat) : Within src n (writei v src n).touched := by
  rw [writei]
  split
  · split
    · exact within_toNat (within_span _ _) toI32_nonneg_le
    · exact within_nil _ _
  · split
    · exact within_nil _ _
    · split
      · exact within_nil _ _
      · rw [copyBlocks_eq]
        exact within_span src n

theorem within_filewriteFrom (w : World) (addr : Nat) (n : Int) (i k : Nat) :
    Within addr n (filewriteFrom w addr n i k).touched := by
  have chunk : maxChunk = 1536 := rfl
  have here : ∀ i k : Nat, (i : Int) < n →
      Within addr n (writei (w.view k) (addr + i) (toU32 (min (n - i) maxChunk))).touched := by
    intro i k more
    refine (within_writei _ _ _).mono (Nat.le_add_right addr i) ?_
    rw [toU32]
    omega
  fun_induction filewriteFrom w addr n i k with
  | case1 i k more => exact here i k more
  | case2 i k more => exact here i k more
  | case3 i k more => exact here i k more
  | case4 i k more n1 e r fin nonneg full ih => exact (here i k more).append ih
  | case5 => exact within_nil _ _

theorem within_fileread (w : World) (f : File) (addr : Nat) (nonneg : 0 ≤ n)
    (small : n < 2 ^ 32) : Within addr n (fileread w f addr n).touched := by
  have same : (toU32 n : Int) = n := by
    rw [toU32]
    omega
  rw [fileread]
  split
  · split
    · rw [piperead]
      split
      · exact within_nil _ _
      · exact within_pipeLoop _ _ _ _ _ _
    · have touched := within_readi (w.view 0) w.input addr (toU32 n)
      rwa [same] at touched
    · exact within_nil _ _
  · exact within_nil _ _

theorem within_filewrite (w : World) (f : File) (addr : Nat) (n : Int) :
    Within addr n (filewrite w f addr n).touched := by
  rw [filewrite]
  split
  · split
    · exact within_pipeLoop _ _ _ _ _ _
    · exact within_filewriteFrom _ _ _ _ _
    · exact within_nil _ _
  · exact within_nil _ _

/-! ### Confinement -/

/-- The pointer `p` and the length `n` describe a part of the process's memory. -/
def Describes (sz : Nat) (p n : BitVec 64) : Prop :=
  0 ≤ n.toInt ∧ (p.toNat : Int) + n.toInt ≤ sz

/-- The call touches only the buffer it was given, and nothing where there is no such buffer. -/
def Respects (sz : Nat) (p n : BitVec 64) (e : Effect) : Prop :=
  (Describes sz p n → Within p.toNat n.toInt e.touched) ∧
    (¬ Describes sz p n → e = ⟨[], .returns (-1)⟩)

/-- `argptr` lets the pair pass. -/
def Accepts (sz : Nat) (p n : BitVec 64) : Prop := argptr sz p (toI32 n) ≠ none

theorem argptr_some {i : BitVec 64} {size : Int}
    (h : argptr sz i size = some addr) : addr = i.toNat := by
  rw [argptr] at h
  split at h
  · cases h
  · exact (Option.some.inj h).symm

theorem toI32_of_describes {p n : BitVec 64} (bounded : sz ≤ uaddrSz)
    (described : Describes sz p n) : toI32 n = n.toInt := by
  have limit := uaddrSz_eq
  obtain ⟨nonneg, fits⟩ := described
  rw [toI32]
  rw [BitVec.toInt_eq_toNat_cond] at nonneg fits ⊢
  rw [BitVec.toInt_eq_toNat_cond, BitVec.toNat_setWidth]
  have := n.isLt
  split at fits
  · omega
  · omega

theorem toI32_lt (n : BitVec 64) : toI32 n < 2 ^ 32 := by
  have := (n.setWidth 32).isLt
  rw [toI32, BitVec.toInt_eq_toNat_cond]
  split <;> omega

/-- The descriptors of a process point to pipes and inodes. -/
def Proc.Open (p : Proc File) : Prop := ∀ fd f, p.ofile fd = some f → f.type ≠ .none

theorem respects_of_rejected {p n : BitVec 64}
    (none : e = ⟨[], .returns (-1)⟩) : Respects sz p n e :=
  ⟨fun _ => none ▸ within_nil _ _, fun _ => none⟩

/-- A call that passes what `argptr` accepts on to a file. -/
theorem respects_call (file : File → Nat → Effect)
    (call : e = match argfd p p.r1, argptr p.sz p.r2 (toI32 p.r3) with
      | some f, some addr => file f addr
      | _, _ => ⟨[], .returns (-1)⟩)
    (inside : Describes p.sz p.r2 p.r3 → ∀ f, Within p.r2.toNat p.r3.toInt
      (file f p.r2.toNat).touched)
    (outside : Accepts p.sz p.r2 p.r3 → ¬ Describes p.sz p.r2 p.r3 → ∀ fd f,
      p.ofile fd = some f → file f p.r2.toNat = ⟨[], .returns (-1)⟩) :
    Respects p.sz p.r2 p.r3 e := by
  cases fd : argfd p p.r1 with
  | none => exact respects_of_rejected (by rw [call, fd])
  | some f =>
    cases ptr : argptr p.sz p.r2 (toI32 p.r3) with
    | none => exact respects_of_rejected (by rw [call, fd, ptr])
    | some addr =>
      obtain rfl := argptr_some ptr
      rw [call, fd, ptr]
      refine ⟨fun described => inside described f, fun other => ?_⟩
      have open_ : p.ofile p.r1.toInt.toNat = some f := by
        rw [argfd] at fd
        split at fd
        · cases fd
        · exact fd
      exact outside (by rw [Accepts, ptr]; nofun) other _ f open_

theorem sysRead_respects (w : World) (p : Proc File)
    (checked : Accepts p.sz p.r2 p.r3 → Describes p.sz p.r2 p.r3) :
    Respects p.sz p.r2 p.r3 (sysRead w p) := by
  refine respects_call (fun f addr => fileread w f addr (toI32 p.r3)) rfl (fun described f => ?_)
    fun accepted other => absurd (checked accepted) other
  rw [toI32_of_describes p.bounded described]
  refine within_fileread w f _ described.1 ?_
  rw [← toI32_of_describes p.bounded described]
  exact toI32_lt _

/-- With a length of -1, as an `int`, every file refuses to write. -/
theorem filewrite_minus_one (w : World) (f : File) (addr : Nat) (type : f.type ≠ .none) :
    filewrite w f addr (-1) = ⟨[], .returns (-1)⟩ := by
  rw [filewrite]
  split
  · split
    · rw [pipewrite, pipeLoop, if_neg (by decide)]
    · rw [filewriteFrom, if_neg (by decide), if_neg (by decide)]
    · contradiction
  · rfl

theorem sysWrite_respects (w : World) (p : Proc File) (opened : p.Open)
    (checked : Accepts p.sz p.r2 p.r3 → Describes p.sz p.r2 p.r3 ∨ toI32 p.r3 = -1) :
    Respects p.sz p.r2 p.r3 (sysWrite w p) := by
  refine respects_call (fun f addr => filewrite w f addr (toI32 p.r3)) rfl (fun described f => ?_)
    fun accepted other fd f hf => ?_
  · rw [toI32_of_describes p.bounded described]
    exact within_filewrite w f _ _
  · rw [(checked accepted).resolve_left other]
    exact filewrite_minus_one w f _ (opened fd f hf)

/-- The process with one open file, on descriptor 0, and its other registers unchanged. -/
def Proc.only (p : Proc File) (f : File) : Proc File :=
  { p with r1 := 0, ofile := fun fd => if fd = 0 then some f else none }

def SameBuffer (q p : Proc File) : Prop := q.sz = p.sz ∧ q.r2 = p.r2 ∧ q.r3 = p.r3

theorem only_open {f : File} (type : f.type ≠ .none) : (p.only f).Open := by
  intro fd g h
  simp only [Proc.only] at h
  split at h
  · exact Option.some.inj h ▸ type
  · cases h

theorem argfd_only (p : Proc File) (f : File) : argfd (p.only f) (p.only f).r1 = some f := rfl

/-- A file of one byte. -/
def oneByte : World where
  killed := false
  empty := fun _ => true
  gone := fun _ => false
  input := fun _ => none
  view := fun _ => ⟨none, 1, 0⟩

theorem sysRead_only (ptr : argptr p.sz p.r2 (toI32 p.r3) = some addr) :
    (sysRead oneByte (p.only ⟨.inode, true, true⟩)).fin ≠ .returns (-1) := by
  have call : sysRead oneByte (p.only ⟨.inode, true, true⟩) =
      readi ⟨none, 1, 0⟩ oneByte.input addr (toU32 (toI32 p.r3)) := by
    have same : argptr (p.only ⟨.inode, true, true⟩).sz (p.only ⟨.inode, true, true⟩).r2
        (toI32 (p.only ⟨.inode, true, true⟩).r3) = some addr := ptr
    rw [sysRead, argfd_only, same]
    rfl
  generalize toU32 (toI32 p.r3) = n at call
  rw [call, readi, if_neg (by simp)]
  by_cases more : 0 + n > 1
  · simp only [if_pos more]
    decide
  · simp only [if_neg more]
    have : n = 0 ∨ n = 1 := by omega
    rcases this with rfl | rfl <;> decide

theorem pipeLoop_end (addr : Nat) (n c : Int) (early : Nat → Int) (i : Nat) :
    (pipeLoop (fun _ => false) early (fun _ => c) addr n i).fin = .returns c := by
  fun_induction pipeLoop (fun _ => false) early (fun _ => c) addr n i with
  | case1 i more stop => cases stop
  | case2 i more _ ih => exact ih
  | case3 => rfl

theorem sysWrite_only (ptr : argptr p.sz p.r2 (toI32 p.r3) = some addr) :
    (sysWrite oneByte (p.only ⟨.pipe, true, true⟩)).fin = .returns (toI32 p.r3) := by
  have same : argptr (p.only ⟨.pipe, true, true⟩).sz (p.only ⟨.pipe, true, true⟩).r2
      (toI32 (p.only ⟨.pipe, true, true⟩).r3) = some addr := ptr
  rw [sysWrite, argfd_only, same]
  exact pipeLoop_end ..

theorem respects_fixed {i : BitVec 64} (bounded : sz ≤ uaddrSz) (n : Nat)
    (small : n < 2 ^ 16) (touches : Within i.toNat n e.touched)
    (rejected : argptr sz i n = none → e = ⟨[], .returns (-1)⟩) :
    Respects sz i (BitVec.ofNat 64 n) e := by
  have value : (BitVec.ofNat 64 n).toInt = n := by
    rw [BitVec.toInt_eq_toNat_cond, BitVec.toNat_ofNat]
    split <;> omega
  rw [Respects, Describes, value]
  refine ⟨fun _ => touches, fun other => rejected ?_⟩
  have limit := uaddrSz_eq
  rw [argptr, if_pos]
  omega

theorem within_part {off m n : Nat} (fits : off + m ≤ n) : Within addr n (span (addr + off) m) :=
  (within_span _ _).mono (Nat.le_add_right addr off) (by omega)

theorem within_sysFstat (p : Proc File) : Within p.r2.toNat sizeofStat (sysFstat p).touched := by
  rw [sysFstat]
  split
  · rename_i f st _ ptr
    obtain rfl := argptr_some ptr
    split
    · exact ((((@within_part _ 0 _ _ (by decide)).append (within_part (by decide))).append
        (within_part (by decide))).append (within_part (by decide))).append
        (within_part (by decide))
    · exact within_nil _ _
  · exact within_nil _ _

theorem within_sysPipe (made : Bool) (p : Proc File) :
    Within p.r1.toNat sizeofFds (sysPipe made p).touched := by
  rw [sysPipe]
  split
  · rename_i fd ptr
    obtain rfl := argptr_some ptr
    split
    · exact (@within_part _ 0 _ _ (by decide)).append (within_part (by decide))
    · exact within_nil _ _
  · exact within_nil _ _

/-- For given registers, `sys_read` keeps to the buffer whatever the file is exactly when `argptr`
refuses everything that is no buffer; so does `sys_write`, but for lengths that are -1 as an
`int`. `sys_fstat` and `sys_pipe` always do. -/
theorem buffers_confined_iff (p : Proc File) :
    ((∀ w q, SameBuffer q p → q.Open → Respects p.sz p.r2 p.r3 (sysRead w q)) ↔
      (Accepts p.sz p.r2 p.r3 → Describes p.sz p.r2 p.r3)) ∧
    ((∀ w q, SameBuffer q p → q.Open → Respects p.sz p.r2 p.r3 (sysWrite w q)) ↔
      (Accepts p.sz p.r2 p.r3 → Describes p.sz p.r2 p.r3 ∨ toI32 p.r3 = -1)) ∧
    Respects p.sz p.r2 (BitVec.ofNat 64 sizeofStat) (sysFstat p) ∧
    ∀ made, Respects p.sz p.r1 (BitVec.ofNat 64 sizeofFds) (sysPipe made p) := by
  refine ⟨⟨fun all accepted => ?_, fun checked w q same _ => ?_⟩,
    ⟨fun all accepted => ?_, fun checked w q same opened => ?_⟩, ?_, fun made => ?_⟩
  · obtain ⟨addr, ptr⟩ := Option.ne_none_iff_exists'.mp accepted
    by_contra other
    have refused := (all oneByte (p.only ⟨.inode, true, true⟩) ⟨rfl, rfl, rfl⟩
      (only_open (by decide))).2 other
    exact sysRead_only ptr (by rw [refused])
  · obtain ⟨sz, r2, r3⟩ := same
    rw [← sz, ← r2, ← r3] at checked ⊢
    exact sysRead_respects w q checked
  · obtain ⟨addr, ptr⟩ := Option.ne_none_iff_exists'.mp accepted
    by_cases described : Describes p.sz p.r2 p.r3
    · exact .inl described
    · have refused := (all oneByte (p.only ⟨.pipe, true, true⟩) ⟨rfl, rfl, rfl⟩
        (only_open (by decide))).2 described
      have fin := sysWrite_only ptr
      rw [refused] at fin
      exact .inr (End.returns.inj fin).symm
  · obtain ⟨sz, r2, r3⟩ := same
    rw [← sz, ← r2, ← r3] at checked ⊢
    exact sysWrite_respects w q opened checked
  · refine respects_fixed p.bounded sizeofStat (by decide) (within_sysFstat p) fun none => ?_
    rw [sysFstat, none]
    cases argfd p p.r1 <;> rfl
  · refine respects_fixed p.bounded sizeofFds (by decide) (within_sysPipe made p) fun none => ?_
    rw [sysPipe, none]

/-- A process of one page that reads `n` bytes to address 16 from an open file. -/
def reader (n : BitVec 64) : Proc File where
  sz := 4096
  bounded := by decide
  r1 := 0
  r2 := 16
  r3 := n
  ofile := fun _ => some ⟨.inode, true, false⟩

/-- `read(fd, p, -1)` at offset 0 stores the whole file, here beyond the end of the process. -/
theorem read_minus_one_overruns :
    ∃ w, ∃ a ∈ (sysRead w (reader (-1))).touched, (reader (-1)).sz ≤ a := by
  refine ⟨{ oneByte with view := fun _ => ⟨none, 5000, 0⟩ }, 4096, ?_, Nat.le_refl _⟩
  have call : (sysRead { oneByte with view := fun _ => ⟨none, 5000, 0⟩ } (reader (-1))).touched =
      copyBlocks 16 0 0 5000 := rfl
  rw [call, copyBlocks_eq]
  exact List.mem_map.mpr ⟨4080, List.mem_range.mpr (by decide), rfl⟩

end UserBuffers
