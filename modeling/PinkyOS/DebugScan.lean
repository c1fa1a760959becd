import PinkyOS.ExecPanics

/-!
# The search of `exec` for `.text` (`exec.c` with `CONFIG_DEBUG`)

`exec` counts the names of the section name table up to the first that reads `.text`, and then
prints the size of the first section whose `name`, which is a byte offset, equals that count. The
names are read byte by byte through an 8-bit cursor, as often as `shnum` of the header said before
the header was read.
-/
namespace DebugScan
open List

open UserMemory (File field contents)
open ByteBuffer (leBytes)

def sizeofSecthdr : Nat := 64
def sizeofChreadblk : Nat := 256

/-! Fields of the header, with which the file starts, and of a section. -/

def shoff (elf : List UInt8) : Nat := field elf 40 8
def shnum (elf : List UInt8) : Nat := field elf 60 2
def shstrndx (elf : List UInt8) : Nat := field elf 62 2
def shName (sh : List UInt8) : Nat := field sh 0 4
def shOff (sh : List UInt8) : Nat := field sh 24 8
def shSz (sh : List UInt8) : Nat := field sh 32 8

def dotText : List UInt8 := [46, 116, 101, 120, 116]

/-- The locals of the search. `chwp` is taken relative to `chreadblk`; `touched` collects where
`chreadblk` is accessed. -/
structure Locals where
  strndx : Nat
  shmax : Nat
  chreadblk : Nat → UInt8
  chridx : Nat
  chwp : Nat
  touched : List Nat

/-- `strcmp` of `kernel/kmem.c` from index `j` on: its result, and how many bytes of `p` it has
read. The end of `q` stands for the NUL. -/
def strcmp (p : Nat → UInt8) : List UInt8 → Nat → Int × Nat
  | [], j => ((p j).toNat, j + 1)
  | c :: q, j =>
    if p j = 0 ∨ p j ≠ c then (((p j).toNat : Int) - c.toNat, j + 1) else strcmp p q (j + 1)

section
variable (file : File) (off : Nat)

/-- The inner loop: one name, up to its NUL, the end of `chreadblk` or a failing `readi`. -/
def readName (s : Locals) : Locals :=
  match file ((off + s.chridx) % 2 ^ 32) 1 with
  | some [b] =>
    let s' := { s with
      chreadblk := Function.update s.chreadblk s.chwp b
      chridx := (s.chridx + 1) % 2 ^ 8
      chwp := s.chwp + 1
      touched := s.chwp :: s.touched }
    if b = 0 ∨ s.chwp + 1 ≥ sizeofChreadblk then s' else readName s'
  | _ => { s with chridx := (s.chridx + 1) % 2 ^ 8 }
termination_by sizeofChreadblk - s.chwp

/-- Reads a name and compares it. -/
def compareName (s : Locals) : Int × Locals :=
  let s := readName file off s
  let (c, n) := strcmp s.chreadblk dotText 0
  (c, { s with touched := List.range n ++ s.touched })

/-- The locals after a trip of `while (shmax--)` that does not find the name. -/
def advance (s : Locals) : Locals :=
  let t := (compareName file off s).2
  { t with strndx := t.strndx + 1, chwp := 0 }

/-- `while (shmax--)`, with the trips that are left. -/
def scanNames : Nat → Locals → Locals
  | 0, s => s
  | n + 1, s =>
    if (compareName file off s).1 = 0 then (compareName file off s).2
    else scanNames n (advance file off s)

end

/-- The section headers that can be read, with their indices. -/
def secthdrs (file : File) (elf : List UInt8) : List (Nat × List UInt8) :=
  (List.range (shnum elf)).filterMap fun i =>
    match file ((shoff elf + i * sizeofSecthdr) % 2 ^ 32) sizeofSecthdr with
    | some sh => if sh.length = sizeofSecthdr then some (i, sh) else none
    | none => none

/-- The body of the first loop, for the section with index `p.1`. -/
def visit (file : File) (elf : List UInt8) (s : Locals) (p : Nat × List UInt8) : Locals :=
  if p.1 = shstrndx elf then
    { scanNames file (shOff p.2) s.shmax { s with strndx := 0 } with shmax := shnum elf + 1 }
  else s

/-- The first loop over the sections. -/
def findIndex (file : File) (elf : List UInt8) (s : Locals) : Locals :=
  (secthdrs file elf).foldl (visit file elf) s

/-- The second loop: the section whose size is printed. -/
def reported (file : File) (elf : List UInt8) (strndx : Nat) : Option (List UInt8) :=
  ((secthdrs file elf).find? fun p => shName p.2 = strndx).map (·.2)

/-- The locals at the start: `junk` is what the uninitialised `elf` holds, `strndx` and the bytes
of `blk` are arbitrary as well. -/
def start (junk : List UInt8) (strndx : Nat) (blk : Nat → UInt8) : Locals :=
  ⟨strndx, shnum junk + 1, blk, 0, 0, []⟩

/-! ### What is expected -/

section
variable (bs : List UInt8)

def secthdr (i : Nat) : List UInt8 :=
  (bs.drop (shoff bs + i * sizeofSecthdr)).take sizeofSecthdr

/-- Where the section name table lies in the file. -/
def strtab : Nat := shOff (secthdr bs (shstrndx bs))

/-- The name at byte offset `n` of the section name table. -/
def nameAt (n : Nat) : List UInt8 := (bs.drop (strtab bs + n)).takeWhile (· ≠ 0)

/-- A file with a table of section headers and a table of their names, which ends in a NUL. -/
structure WellFormed : Prop where
  size : bs.length < 2 ^ 32
  headers : shoff bs + shnum bs * sizeofSecthdr ≤ bs.length
  index : shstrndx bs < shnum bs
  names : strtab bs + shSz (secthdr bs (shstrndx bs)) ≤ bs.length
  ends : bs.getD (strtab bs + shSz (secthdr bs (shstrndx bs)) - 1) 1 = 0
  named : ∀ i < shnum bs, shName (secthdr bs i) < shSz (secthdr bs (shstrndx bs))

/-- The search reports only a section called `.text`, none if there is none, and stays within
`chreadblk`. -/
def NamesText (s : Locals) : Prop :=
  let t := findIndex (contents bs) bs s
  (∀ sh, reported (contents bs) bs t.strndx = some sh → nameAt bs (shName sh) = dotText) ∧
    ((∀ i < shnum bs, nameAt bs (shName (secthdr bs i)) ≠ dotText) →
      reported (contents bs) bs t.strndx = none) ∧
    ∀ a ∈ t.touched, a < sizeofChreadblk

end

/-- Within `n` trips from `s` on, the name read in trip `k` is the first that compares equal; with
no such name, `k` is `n`. -/
def FirstText (file : File) (off n : Nat) (s : Locals) (k : Nat) : Prop :=
  k ≤ n ∧ (∀ j < k, (compareName file off ((advance file off)^[j] s)).1 ≠ 0) ∧
    (k < n → (compareName file off ((advance file off)^[k] s)).1 = 0)

/-! ### The search stays within `chreadblk` -/

theorem strcmp_reads (p : Nat → UInt8) (q : List UInt8) (j : Nat) :
    (strcmp p q j).2 ≤ j + q.length + 1 := by
  induction q generalizing j with
  | nil => simp [strcmp]
  | cons c q more =>
    rw [strcmp]
    split
    · simp
    · have := more (j + 1)
      simp only [length_cons]
      omega

def Inside (s : Locals) : Prop := ∀ a ∈ s.touched, a < sizeofChreadblk

section
variable {file : File} {off : Nat} {s : Locals}

theorem Inside.readName (inside : Inside s) (room : s.chwp < sizeofChreadblk) :
    Inside (readName file off s) := by
  fun_induction DebugScan.readName with
  | case1 s b read s' last => exact forall_mem_cons.mpr ⟨room, inside⟩
  | case2 s b read s' more rest =>
    exact rest (forall_mem_cons.mpr ⟨room, inside⟩) (by simp only [s']; omega)
  | case3 s read => exact inside

theorem Inside.compareName (inside : Inside s) (room : s.chwp < sizeofChreadblk) :
    Inside (compareName file off s).2 := by
  intro a mem
  have reads := strcmp_reads (DebugScan.readName file off s).chreadblk dotText 0
  rw [DebugScan.compareName] at mem
  rcases mem_append.mp mem with compared | written
  · exact ((mem_range.mp compared).trans_le reads).trans (by decide)
  · exact inside.readName room a written

theorem Inside.scanNames (n : Nat) (inside : Inside s) (room : s.chwp < sizeofChreadblk) :
    Inside (scanNames file off n s) := by
  induction n generalizing s with
  | zero => exact inside
  | succ n more =>
    rw [DebugScan.scanNames]
    split
    · exact inside.compareName room
    · exact more (s := advance file off s) (inside.compareName room) (Nat.zero_lt_succ 255)

/-! ### What the search counts -/

theorem FirstText.unique {n k l : Nat} (first : FirstText file off n s k)
    (other : FirstText file off n s l) : k = l := by
  rcases Nat.lt_trichotomy k l with less | same | more
  · exact absurd (first.2.2 (by have := other.1; omega)) (other.2.1 k less)
  · exact same
  · exact absurd (other.2.2 (by have := first.1; omega)) (first.2.1 l more)

theorem readName_strndx (file : File) (off : Nat) (s : Locals) :
    (readName file off s).strndx = s.strndx := by
  fun_induction readName with
  | case1 => rfl
  | case2 s b read s' more rest => exact rest
  | case3 => rfl

/-- The loop counts the names before the first that compares equal. -/
theorem scanNames_strndx (file : File) (off n : Nat) (s : Locals) :
    ∃ k, FirstText file off n s k ∧ (scanNames file off n s).strndx = s.strndx + k := by
  induction n generalizing s with
  | zero => exact ⟨0, ⟨le_rfl, nofun, nofun⟩, rfl⟩
  | succ n more =>
    rw [scanNames]
    by_cases hit : (compareName file off s).1 = 0
    · rw [if_pos hit]
      exact ⟨0, ⟨Nat.zero_le _, nofun, fun _ => hit⟩, readName_strndx ..⟩
    · rw [if_neg hit]
      obtain ⟨k, ⟨le, missed, found⟩, counted⟩ := more (advance file off s)
      refine ⟨k + 1, ⟨by omega, fun j less => ?_, fun less => found (by omega)⟩, ?_⟩
      · cases j with
        | zero => exact hit
        | succ j => exact missed j (by omega)
      · have : (advance file off s).strndx = s.strndx + 1 :=
          congrArg (· + 1) (readName_strndx ..)
        omega

end

section
variable {bs : List UInt8} (formed : WellFormed bs)
include formed

theorem WellFormed.secthdrs : secthdrs (contents bs) bs =
    (range (shnum bs)).map fun i => (i, secthdr bs i) := by
  rw [DebugScan.secthdrs, ← filterMap_eq_map]
  refine filterMap_congr fun i mem => ?_
  have := mem_range.mp mem
  have size := formed.size
  have headers := formed.headers
  have : shoff bs + i * sizeofSecthdr + sizeofSecthdr ≤ bs.length := by
    simp only [sizeofSecthdr] at *
    omega
  rw [Nat.mod_eq_of_lt (by omega), contents, if_neg (by omega)]
  simp only [length_take, length_drop]
  rw [if_pos (by omega)]
  rfl

/-- The names are counted once, at the section that holds them. -/
theorem WellFormed.findIndex (s : Locals) : findIndex (contents bs) bs s =
    { scanNames (contents bs) (strtab bs) s.shmax { s with strndx := 0 } with
      shmax := shnum bs + 1 } := by
  have counted (n : Nat) : ((range n).map fun i => (i, secthdr bs i)).foldl
      (visit (contents bs) bs) s = if shstrndx bs < n then
        visit (contents bs) bs s (shstrndx bs, secthdr bs (shstrndx bs)) else s := by
    induction n with
    | zero => rfl
    | succ n before =>
      rw [range_succ, map_append, foldl_append, before]
      by_cases here : n = shstrndx bs
      · rw [if_neg (by omega), if_pos (by omega), ← here]
        rfl
      · rw [if_congr (show shstrndx bs < n + 1 ↔ shstrndx bs < n by omega) rfl rfl]
        exact if_neg here
  rw [DebugScan.findIndex, formed.secthdrs, counted, if_pos formed.index, visit, if_pos rfl]
  rfl

end

/-- A file with two sections, whose names are offsets into the bytes of "\0a\0.text\0": the string
table, whose name is the empty one at 2, and `.text` at 3. -/
def twoSections : List UInt8 :=
  let header (name off sz : Nat) : List UInt8 :=
    leBytes 4 name ++ List.replicate 20 0 ++ leBytes 8 off ++ leBytes 8 sz ++ List.replicate 24 0
  leBytes 4 UserMemory.elfMagic ++ List.replicate 36 0 ++ leBytes 8 64 ++ List.replicate 12 0 ++
    leBytes 2 2 ++ leBytes 2 0 ++ header 2 192 9 ++ header 3 0 0 ++ [0, 97, 0] ++ dotText ++ [0]

theorem twoSections_formed : WellFormed twoSections where
  size := by decide +kernel
  headers := by decide +kernel
  index := by decide +kernel
  names := by decide +kernel
  ends := by decide +kernel
  named := by decide +kernel

end DebugScan
