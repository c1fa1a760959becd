import PinkyOS.ExecFailure

/-!
# When `exec` returns

Program headers hold 64-bit numbers that `exec` adds and cuts to 32 bits before it passes them on
to `allocuvm` and `loaduvm`. Given memory enough for the image, `exec` returns exactly if the
segments that it gets to are aligned and the file data they name lies inside the image, and no
argument reaches below address 0 of an image whose caller has nothing mapped there.
-/
namespace UserMemory
open MemoryLayout BuddyHeap Ledger ByteBuffer Function List Nat

/-! ### What the headers ask for -/

structure Proghdr where
  type : Nat
  off : Nat
  vaddr : Nat
  filesz : Nat
  memsz : Nat
  deriving DecidableEq

def Proghdr.ofBytes (bs : List UInt8) : Proghdr :=
  ⟨field bs 0 4, field bs 8 8, field bs 16 8, field bs 32 8, field bs 40 8⟩

/-- The header at `off` of the file, if all of it is there. -/
def header (file : File) (off : Nat) : Option Proghdr :=
  ((file (off % 2 ^ 32) sizeofProghdr).filter fun bs => bs.length = sizeofProghdr).map
    Proghdr.ofBytes

namespace Proghdr

/-- The end of the segment, as `allocuvm` gets it. -/
def top (ph : Proghdr) : Nat := (ph.vaddr + ph.memsz) % 2 ^ 32

/-- The length of the file data, as `loaduvm` gets it. -/
def length (ph : Proghdr) : Nat := ph.filesz % 2 ^ 32

/-- The bytes that the loop of `loaduvm` asks for at `i`, out of `sz`. -/
def chunk (sz i : Nat) : Nat := if sz - i < pteSz then sz - i else pteSz

end Proghdr

/-- The size of an image of size `sz` after `allocuvm` up to `top`, if there is memory; 0 if it
refuses. -/
def grown (sz top : Nat) : Nat := if top ≥ uaddrSz then 0 else max sz top

section
variable (file : File) (addr offset sz top : Nat)

/-- What `readi` gives at `i` of a segment. -/
def piece (i : Nat) : Option (List UInt8) :=
  file ((offset + i) % 2 ^ 32) (Proghdr.chunk sz i)

def Full (i : Nat) : Prop := ∃ bs, piece file offset sz i = some bs ∧ bs.length = Proghdr.chunk sz i

/-- The page for what is read at `i` belongs to the image, or nothing is read and the image has at
least a table there. Addresses count modulo `2 ^ 32`. -/
def InImage (i : Nat) : Prop :=
  (addr + i) % 2 ^ 32 < alignUp top pteSz ∨
    ((addr + i) % 2 ^ 32 < alignUp top pmdSz ∧ (piece file offset sz i).getD [] = [])

/-- The loop of `loaduvm` from `i` on stays in the image, as far as it gets. -/
def StaysFrom (i : Nat) : Prop :=
  ∀ k, i + k * pteSz < sz → (∀ j < k, Full file offset sz (i + j * pteSz)) →
    InImage file addr offset sz top (i + k * pteSz)

/-- All the file data from `i` on is there. -/
def LoadsFrom (i : Nat) : Prop := ∀ k, i + k * pteSz < sz → Full file offset sz (i + k * pteSz)

end

/-- `exec` can go on from the header at `off`, with `k` headers to come and an image of size
`sz`; `after` is what it needs at the end. -/
def SafeFrom (file : File) (after : Nat → Prop) : Nat → Nat → Nat → Prop
  | 0, _, sz => after sz
  | k + 1, off, sz =>
    ∀ ph, header file off = some ph →
      if ph.type ≠ 1 then SafeFrom file after k (off + sizeofProghdr) sz
      else
        let size := grown sz ph.top
        ph.filesz ≤ ph.memsz → size ≠ 0 →
          ph.vaddr % pteSz = 0 ∧
          StaysFrom file ph.vaddr (ph.off % 2 ^ 32) ph.length size 0 ∧
          (LoadsFrom file (ph.off % 2 ^ 32) ph.length 0 →
            SafeFrom file after k (off + sizeofProghdr) size)

/-- An argument is longer than what is left of the image, with the ones before it in the stack
page, which starts at `low`. -/
def Underflows (low : Nat) : Nat → List (List UInt8) → Prop
  | _, [] => False
  | sp, arg :: rest =>
    sp < arg.length + 1 ∨
      (low ≤ (sp - (arg.length + 1)) / 8 * 8 ∧ Underflows low ((sp - (arg.length + 1)) / 8 * 8) rest)

/-- The caller has a page at address 0. -/
def Grounded (cur : Option Pgd) : Prop := ∃ c e, cur = some c ∧ getPte c 0 = some e

/-- The arguments can be pushed on the stack of an image of size `sz`. -/
def StackSafe (cur : Option Pgd) (argv : List (List UInt8)) (sz : Nat) : Prop :=
  let top := alignUp sz pteSz + 2 * pteSz
  top < uaddrSz → Grounded cur ∨ ¬ Underflows (top - pteSz) top argv

/-- What `exec` needs of a program to return. -/
def ExecSafe (cur : Option Pgd) (prog : Program) : Prop :=
  ∀ file, prog.file = some file →
    let read := file 0 sizeofElfhdr
    let elf := read.getD prog.junk
    sizeofElfhdr ≤ (read.map List.length).getD sizeofElfhdr → field elf 0 4 = elfMagic →
      SafeFrom file (StackSafe cur prog.argv) (field elf 56 2) (field elf 32 8) 0

/-! ### Returning -/

def Returns {α : Type} (m : Except Fault α) : Prop := ∃ a, m = .ok a

section
variable {α β : Type} {m : Except Fault α} {f : α → Except Fault β}

theorem returns_ok (a : α) : Returns (.ok a : Except Fault α) := ⟨a, rfl⟩

theorem not_returns_error (e : Fault) : ¬ Returns (.error e : Except Fault α) := nofun

theorem returns_bind {a : α} (run : m = .ok a) : Returns (m >>= f) ↔ Returns (f a) := by
  rw [run, ok_bind]

theorem returns_bind_iff (next : ∀ a, m = .ok a → Returns (f a)) :
    Returns (m >>= f) ↔ Returns m := by
  constructor
  · rintro ⟨b, run⟩
    obtain ⟨a, first, -⟩ := bind_eq_ok run
    exact ⟨a, first⟩
  · rintro ⟨a, run⟩
    rw [returns_bind run]
    exact next a run

end

/-! ### Images -/

/-- A tree that maps exactly the pages below `top`, all of them for the user, with exactly the
tables that takes. -/
structure Image (d : Pgd) (top : Nat) : Prop where
  pages : ∀ n, (lookup d (page n)).isSome ↔ n * pteSz < top
  user : ∀ n e, lookup d (page n) = some e → e.ap = apRw10
  tables : ∀ i j, (tableAt d i j).isSome ↔ i = 0 ∧ j * pmdSz < top

section
variable {d d' : Pgd} {a top sz newsz : Nat}

theorem Image.blank : Image UserMemory.blank 0 where
  pages n := by simp [lookup_blank]
  user n e entry := by simp [lookup_blank] at entry
  tables i j := by simp [tableAt, UserMemory.blank]

theorem Image.alignUp : Image d (alignUp sz pteSz) ↔ Image d sz := by
  have tables : ∀ j, j * pmdSz < MemoryLayout.alignUp sz pteSz ↔ j * pmdSz < sz := by
    intro j
    have span : pmdSz = 2097152 := rfl
    simp only [MemoryLayout.alignUp, pteSz_eq, span]
    omega
  constructor
  · intro image
    exact ⟨fun n => (image.pages n).trans (page_lt_alignUp n sz), image.user,
      fun i j => (image.tables i j).trans (and_congr_right fun _ => tables j)⟩
  · intro image
    exact ⟨fun n => (image.pages n).trans (page_lt_alignUp n sz).symm, image.user,
      fun i j => (image.tables i j).trans (and_congr_right fun _ => (tables j).symm)⟩

theorem Image.next (image : Image d a) (aligned : pteSz ∣ a) (low : a < uaddrSz) (pa : Nat)
    (ran : mappages d a pteSz pa apRw10 = .ok d') : Image d' (a + pteSz) := by
  have span : pmdSz = 2097152 := rfl
  obtain ⟨isFirst, isPmd, -⟩ := idx_user low
  obtain ⟨k, rfl⟩ := aligned
  have number : pteSz * k / pteSz = k := Nat.mul_div_cancel_left k (by decide)
  have free : lookup d (entryOf (pteSz * k)) = none := by
    have absent := image.pages k
    rw [entryOf_user low, number, ← Option.not_isSome_iff_eq_none, absent, Nat.mul_comm]
    exact Nat.lt_irrefl _
  obtain ⟨d'', run, entries, tables⟩ := mappages_page pa apRw10 (Nat.dvd_mul_right ..) free
  rw [run] at ran
  cases ran
  rw [entryOf_user low, number] at entries
  constructor
  case pages =>
    intro n
    by_cases here : n = k
    · rw [here, entries, update_self]
      simp only [Option.isSome_some, true_iff, pteSz_eq]
      omega
    · rw [entries, update_of_ne (fun same => here (page_inj same)), image.pages, pteSz_eq]
      omega
  case user =>
    intro n e entry
    by_cases here : n = k
    · rw [here, entries, update_self] at entry
      cases entry
      rfl
    · rw [entries, update_of_ne (fun same => here (page_inj same))] at entry
      exact image.user n e entry
  case tables =>
    intro i j
    rw [tables, image.tables, isFirst, isPmd, number, pteSz_eq, span]
    omega

theorem idx_mod (x : Nat) : pgdIdx x = x % 2 ^ 32 / 2 ^ 30 ∧
    pmdIdx x = x % 2 ^ 32 / 2 ^ 21 % 512 ∧ pteIdx x = x % 2 ^ 32 / 2 ^ 12 % 512 := by
  simp only [pgdIdx, pmdIdx, pteIdx, shiftRight_eq_div_pow, pgdShift, pmdShift, pteShift,
    ptrsPerPgd, ptrsPerPmd, ptrsPerPte]
  omega

theorem Image.walk_isSome (image : Image d top) (small : top ≤ uaddrSz) (x : Nat) :
    (walkpgdir d x).isSome ↔ x % 2 ^ 32 < MemoryLayout.alignUp top pmdSz := by
  have span : pmdSz = 2097152 := rfl
  have size := uaddrSz_eq
  obtain ⟨isPgd, isPmd, -⟩ := idx_mod x
  rw [walkpgdir_eq, image.tables, isPgd, isPmd, MemoryLayout.alignUp, span]
  omega

theorem Image.entry_isSome (image : Image d top) (small : top ≤ uaddrSz) (x : Nat) {pt : Pt}
    (table : walkpgdir d x = some pt) :
    (pt (pteIdx x)).isSome ↔ x % 2 ^ 32 < MemoryLayout.alignUp top pteSz := by
  have span : pmdSz = 2097152 := rfl
  have unit := pteSz_eq
  have size := uaddrSz_eq
  have low : x % 2 ^ 32 < MemoryLayout.alignUp top pmdSz := by
    rw [← image.walk_isSome small, table]
    rfl
  rw [MemoryLayout.alignUp, span] at low
  obtain ⟨isPgd, isPmd, isPte⟩ := idx_mod x
  have isPage : entryOf x = page (x % 2 ^ 32 / pteSz) := by
    simp only [entryOf, page, isPgd, isPmd, isPte, unit, Prod.mk.injEq]
    omega
  have here : pt (pteIdx x) = lookup d (page (x % 2 ^ 32 / pteSz)) := by
    rw [← isPage, ← getPte_eq, getPte, table]
    rfl
  rw [here, image.pages, MemoryLayout.alignUp, unit]
  omega

end

/-! ### Loading a segment -/

section
variable {d : Pgd} {file : File} {addr offset i sz top : Nat}

theorem heap_write (v : Vm) (a : Nat) (bs : List UInt8) : (v.write a bs).heap = v.heap := rfl

theorem staysFrom_iff (more : i < sz) : StaysFrom file addr offset sz top i ↔
    InImage file addr offset sz top i ∧
      (Full file offset sz i → StaysFrom file addr offset sz top (i + pteSz)) := by
  constructor
  · intro stays
    refine ⟨?_, fun full k less before => ?_⟩
    · simpa using stays 0 (by simpa using more) nofun
    · have step : i + (k + 1) * pteSz = i + pteSz + k * pteSz := by ring
      rw [← step] at less ⊢
      refine stays (k + 1) less fun j early => ?_
      cases j with
      | zero => simpa using full
      | succ j =>
        have shift : i + (j + 1) * pteSz = i + pteSz + j * pteSz := by ring
        rw [shift]
        exact before j (by omega)
  · rintro ⟨first, later⟩ k less before
    cases k with
    | zero => simpa using first
    | succ k =>
      have step : i + (k + 1) * pteSz = i + pteSz + k * pteSz := by ring
      rw [step] at less ⊢
      refine later (by simpa using before 0 (succ_pos k)) k less fun j early => ?_
      have shift : i + (j + 1) * pteSz = i + pteSz + j * pteSz := by ring
      rw [← shift]
      exact before (j + 1) (by omega)

theorem loadsFrom_iff (more : i < sz) : LoadsFrom file offset sz i ↔
    Full file offset sz i ∧ LoadsFrom file offset sz (i + pteSz) := by
  have shift : ∀ k, i + (k + 1) * pteSz = i + pteSz + k * pteSz := fun k => by ring
  constructor
  · intro loads
    refine ⟨by simpa using loads 0 (by simpa using more), fun k less => ?_⟩
    rw [← shift] at less ⊢
    exact loads (k + 1) less
  · rintro ⟨first, later⟩ k less
    cases k with
    | zero => simpa using first
    | succ k =>
      rw [shift] at less ⊢
      exact later k less

theorem staysFrom_done (done : ¬ i < sz) : StaysFrom file addr offset sz top i :=
  fun _ less => absurd (Nat.lt_of_le_of_lt (Nat.le_add_right i _) less) done

theorem loadsFrom_done (done : ¬ i < sz) : LoadsFrom file offset sz i :=
  fun _ less => absurd (Nat.lt_of_le_of_lt (Nat.le_add_right i _) less) done

/-- The loop of `loaduvm` returns exactly if it stays in the image, and returns 0 exactly if all
the file data is there. -/
theorem loadFrom_returns_iff (image : Image d top) (small : top ≤ uaddrSz) (v : Vm) (file : File)
    (addr offset i sz : Nat) :
    (Returns (loadFrom v d addr file offset i sz) ↔ StaysFrom file addr offset sz top i) ∧
      ∀ v' ok, loadFrom v d addr file offset i sz = .ok (v', ok) →
        v'.heap = v.heap ∧ (ok = true ↔ LoadsFrom file offset sz i) := by
  have isChunk : ∀ i, (if _ : sz - i < pteSz then sz - i else pteSz) = Proghdr.chunk sz i := by
    intro i
    rw [dite_eq_ite, Proghdr.chunk]
  have isPiece : ∀ {i r}, file ((offset + i) % 2 ^ 32)
      (if _ : sz - i < pteSz then sz - i else pteSz) = r → piece file offset sz i = r := by
    intro i r read
    rw [piece, ← isChunk, read]
  fun_induction loadFrom v d addr file offset i sz with
  | case1 v i more absent =>
    refine ⟨iff_of_false (not_returns_error _) fun stays => ?_, by simp⟩
    have outside : ¬ (addr + i) % 2 ^ 32 < alignUp top pmdSz := by
      rw [← image.walk_isSome small, absent]
      exact Bool.false_ne_true
    have wide : alignUp top pteSz ≤ alignUp top pmdSz := by
      rw [alignUp_le_iff (by decide) ((show pteSz ∣ pmdSz by decide).trans (alignUp_dvd ..))]
      exact le_alignUp (by decide) top
    rcases ((staysFrom_iff more).mp stays).1 with inside | ⟨inside, -⟩
    · exact outside (inside.trans_le wide)
    · exact outside inside
  | case2 v i more pt table n unread =>
    have nothing : piece file offset sz i = none := isPiece unread
    have missing : ¬ Full file offset sz i := by
      rintro ⟨bs, read, -⟩
      rw [nothing] at read
      cases read
    constructor
    · refine iff_of_true (returns_ok _) ((staysFrom_iff more).mpr ⟨.inr ⟨?_, ?_⟩, ?_⟩)
      · rw [← image.walk_isSome small, table]
        rfl
      · rw [nothing, Option.getD_none]
      · exact fun full => absurd full missing
    · intro v' ok ran
      cases ran
      exact ⟨rfl, by simp [loadsFrom_iff more, missing]⟩
  | case3 v i more pt table n noEntry read =>
    have empty : piece file offset sz i = some [] := isPiece read
    have missing : ¬ Full file offset sz i := by
      rintro ⟨bs, read', length⟩
      rw [empty] at read'
      cases read'
      have unit := pteSz_eq
      rw [Proghdr.chunk, length_nil] at length
      split at length <;> omega
    constructor
    · refine iff_of_true (returns_ok _) ((staysFrom_iff more).mpr ⟨.inr ⟨?_, ?_⟩, ?_⟩)
      · rw [← image.walk_isSome small, table]
        rfl
      · rw [empty, Option.getD_some]
      · exact fun full => absurd full missing
    · intro v' ok ran
      cases ran
      exact ⟨rfl, by simp [loadsFrom_iff more, missing]⟩
  | case4 v i more pt table n bs noEntry read nonempty =>
    have some : piece file offset sz i = some bs := isPiece read
    refine ⟨iff_of_false (not_returns_error _) fun stays => ?_, by simp⟩
    rcases ((staysFrom_iff more).mp stays).1 with inside | ⟨-, empty⟩
    · rw [← image.entry_isSome small _ table, noEntry] at inside
      cases inside
    · rw [some, Option.getD_some] at empty
      exact nonempty empty
  | case5 v i more pt table n bs e entry read v' short =>
    have some : piece file offset sz i = some bs := isPiece read
    have missing : ¬ Full file offset sz i := by
      rintro ⟨bs', read', length⟩
      rw [some] at read'
      cases read'
      exact short (length.trans (isChunk i).symm)
    constructor
    · refine iff_of_true (returns_ok _) ((staysFrom_iff more).mpr ⟨.inl ?_, ?_⟩)
      · rw [← image.entry_isSome small _ table, entry]
        rfl
      · exact fun full => absurd full missing
    · intro v' ok ran
      cases ran
      exact ⟨heap_write .., by simp [loadsFrom_iff more, missing]⟩
  | case6 v i more pt table n bs e entry read v' full ih =>
    have complete : Full file offset sz i := ⟨bs, isPiece read, (not_not.mp full).trans (isChunk i)⟩
    have inside : (addr + i) % 2 ^ 32 < alignUp top pteSz := by
      rw [← image.entry_isSome small _ table, entry]
      rfl
    constructor
    · rw [ih.1, staysFrom_iff more]
      exact ⟨fun later => ⟨.inl inside, fun _ => later⟩, fun both => both.2 complete⟩
    · intro v' ok ran
      obtain ⟨heap, loads⟩ := ih.2 v' ok ran
      refine ⟨heap.trans (heap_write ..), ?_⟩
      rw [loads, loadsFrom_iff more]
      exact ⟨fun later => ⟨complete, later⟩, fun both => both.2⟩
  | case7 v i done =>
    refine ⟨iff_of_true (returns_ok _) (staysFrom_done done), fun v' ok ran => ?_⟩
    cases ran
    exact ⟨rfl, iff_of_true rfl (loadsFrom_done done)⟩

end

/-! ### Memory for the image -/

section
variable {rest : Finset (Nat × Nat)} {Ω : Type} {site : Entry → Ω} {own : Ω → Option Nat}
  {v v' : Vm} {d : Pgd} {a n oldsz newsz : Nat}

theorem Plenty.allocPage (plenty : Plenty (n + 1) v.heap) :
    ∃ v' mem, allocPage v = .ok (v', some mem) ∧ Plenty n v'.heap := by
  obtain ⟨heap, mem, run, more⟩ := plenty
  rw [UserMemory.allocPage, run]
  exact ⟨_, mem, rfl, more⟩

variable [DecidableEq Ω]

/-- With enough frames, the loop of `allocuvm` maps all pages up to `newsz`. -/
theorem allocFrom_plenty (inj : Injective site) (keeps : Keeps rest site own v d)
    (space : Space d a) (image : Image d a) (aligned : pteSz ∣ a) (small : newsz < uaddrSz)
    (high : a ≤ alignUp newsz pteSz) (plenty : Plenty n v.heap)
    (enough : alignUp newsz pteSz ≤ a + n * pteSz) :
    ∃ v' d', allocFrom v d a oldsz newsz = .ok (v', d', newsz) ∧
      KeepsBeside rest site own v' d' ∧ Space d' newsz ∧ Image d' newsz ∧
      Plenty (n - (alignUp newsz pteSz - a) / pteSz) v'.heap := by
  induction n generalizing own v d a with
  | zero =>
    have reached : alignUp newsz pteSz = a := by omega
    have done : ¬ a < newsz := by
      have := le_alignUp (show 0 < pteSz by decide) newsz
      omega
    rw [allocFrom, if_neg done]
    rw [← reached, Space.alignUp] at space
    rw [← reached, Image.alignUp] at image
    exact ⟨v, d, rfl, keeps.beside, space, image, by simpa using plenty⟩
  | succ n ih =>
    by_cases more : a < newsz
    · obtain ⟨v₁, mem, run, fewer⟩ := plenty.allocPage
      obtain ⟨sound, fresh, pages, addr⟩ := (allocPage_ends keeps.sound).of_ok run
      obtain ⟨free, d₁, mapped, entries, space'⟩ :=
        space.grow aligned (more.trans small) (v2p mem % 2 ^ 32) apRw10
      have keeps' := keeps.map inj sound fresh pages addr free entries
      have image' := image.next aligned (more.trans small) _ mapped
      have next := next_le_alignUp aligned more
      have count : alignUp newsz pteSz ≤ a + pteSz + n * pteSz := by
        rw [succ_mul] at enough
        omega
      obtain ⟨v', d', ran, kept, space'', image'', left⟩ :=
        ih (keeps'.write mem (replicate pteSz 0)) space' image'
          (Nat.dvd_add aligned (Nat.dvd_refl pteSz)) next fewer count
      refine ⟨v', d', ?_, kept.after (Beside.update _ _), space'', image'', left.mono ?_⟩
      · rw [allocFrom, if_pos more, run]
        simp only
        rw [mapped, ok_bind, ran]
      · rw [pteSz_eq] at next ⊢
        omega
    · have reached : alignUp newsz pteSz = a :=
        Nat.le_antisymm ((alignUp_le_iff (by decide) aligned _).mpr (Nat.le_of_not_lt more)) high
      rw [allocFrom, if_neg more]
      rw [← reached, Space.alignUp] at space
      rw [← reached, Image.alignUp] at image
      exact ⟨v, d, rfl, keeps.beside, space, image, plenty.mono (sub_le _ _)⟩

/-- An image of size `sz` under construction, with frames left for one of `N` pages. -/
structure Good (rest : Finset (Nat × Nat)) (site : Entry → Ω) (own : Ω → Option Nat) (N : Nat)
    (v : Vm) (d : Pgd) (sz : Nat) : Prop where
  kept : KeepsBeside rest site own v d
  space : Space d sz
  image : Image d sz
  fits : sz ≤ N * pteSz
  small : sz ≤ uaddrSz
  plenty : Plenty (N - alignUp sz pteSz / pteSz) v.heap

variable {N sz top : Nat}

theorem Good.allocuvm (inj : Injective site) (good : Good rest site own N v d sz)
    (bound : top < uaddrSz → top ≤ N * pteSz) :
    ∃ v' d', allocuvm v d sz top = .ok (v', d', grown sz top) ∧
      if grown sz top = 0 then v' = v ∧ d' = d else Good rest site own N v' d' (grown sz top) := by
  rw [UserMemory.allocuvm, grown]
  by_cases refused : top ≥ uaddrSz
  · rw [if_pos refused, if_pos refused]
    exact ⟨v, d, rfl, by simp⟩
  rw [if_neg refused, if_neg refused]
  by_cases less : top < sz
  · rw [if_pos less, Nat.max_eq_left less.le]
    have nonzero : sz ≠ 0 := by omega
    exact ⟨v, d, rfl, by rwa [if_neg nonzero]⟩
  have excess : sz ≤ top := Nat.le_of_not_lt less
  rw [if_neg less, Nat.max_eq_right excess]
  by_cases zero : top = 0
  · obtain rfl : sz = 0 := by omega
    have start : alignUp 0 pteSz = 0 := by decide
    rw [zero, start, allocFrom, if_neg (Nat.lt_irrefl 0)]
    exact ⟨v, d, rfl, by simp⟩
  simp only [if_neg zero]
  obtain ⟨own', keeps, beside⟩ := good.kept
  have bounded := bound (Nat.lt_of_not_le refused)
  have high := alignUp_mono pteSz excess
  have most : alignUp top pteSz ≤ N * pteSz :=
    (alignUp_le_iff (by decide) (Nat.dvd_mul_left ..) _).mpr bounded
  have aligned := alignUp_dvd sz pteSz
  have aligned' := alignUp_dvd top pteSz
  have enough : alignUp top pteSz ≤
      alignUp sz pteSz + (N - alignUp sz pteSz / pteSz) * pteSz := by
    simp only [pteSz_eq] at aligned high most ⊢
    omega
  obtain ⟨v', d', ran, kept, space, image, left⟩ : ∃ v' d', allocFrom v d (alignUp sz pteSz) sz top
      = .ok (v', d', top) ∧ _ := allocFrom_plenty inj keeps (Space.alignUp.mpr good.space)
        (Image.alignUp.mpr good.image) aligned (Nat.lt_of_not_le refused) high good.plenty enough
  refine ⟨v', d', ran, kept.after beside, space, image, bounded,
    Nat.le_of_not_le refused, left.mono ?_⟩
  simp only [pteSz_eq] at aligned aligned' high most ⊢
  omega

omit [DecidableEq Ω] in
/-- `loaduvm` returns exactly if the address is aligned and the data stays in the image. -/
theorem Image.loaduvm_iff (image : Image d top) (small : top ≤ uaddrSz) (v : Vm) (file : File)
    (addr offset len : Nat) : (Returns (loaduvm v d addr file offset len) ↔
        addr % pteSz = 0 ∧ StaysFrom file addr offset len top 0) ∧
      ∀ v' ok, loaduvm v d addr file offset len = .ok (v', ok) →
        v'.heap = v.heap ∧ (ok = true ↔ LoadsFrom file offset len 0) := by
  obtain ⟨returns, loaded⟩ := loadFrom_returns_iff image small v file addr offset 0 len
  rw [loaduvm]
  by_cases aligned : addr % pteSz = 0
  · rw [if_neg (not_not.mpr aligned)]
    exact ⟨by rw [returns, and_iff_right aligned], loaded⟩
  · rw [if_pos aligned]
    exact ⟨iff_of_false (not_returns_error _) fun both => aligned both.1, by simp⟩

omit [DecidableEq Ω] in
theorem Good.loaduvm (good : Good rest site own N v d sz) (file : File) (addr offset len : Nat) :
    (Returns (loaduvm v d addr file offset len) ↔
        addr % pteSz = 0 ∧ StaysFrom file addr offset len sz 0) ∧
      ∀ v' ok, UserMemory.loaduvm v d addr file offset len = .ok (v', ok) →
        Good rest site own N v' d sz ∧ (ok = true ↔ LoadsFrom file offset len 0) := by
  obtain ⟨own', keeps, beside⟩ := good.kept
  obtain ⟨returns, loaded⟩ := good.image.loaduvm_iff good.small v file addr offset len
  refine ⟨returns, fun v' ok ran => ?_⟩
  obtain ⟨heap, loads⟩ := loaded v' ok ran
  have keeps' := (loaduvm_ends keeps).of_ok ran
  exact ⟨⟨⟨own', keeps', beside⟩, good.space, good.image, good.fits, good.small,
    heap ▸ good.plenty⟩, loads⟩

/-! ### The program headers -/

variable {file : File} {off : Nat}

/-- What is done with the bytes of a header is done with the header. -/
theorem match_header {β : Type} (bad : β) (good : Proghdr → β) :
    (match file (off % 2 ^ 32) sizeofProghdr with
      | none => bad
      | some bs => if bs.length ≠ sizeofProghdr then bad else good (Proghdr.ofBytes bs)) =
    match header file off with
      | none => bad
      | some ph => good ph := by
  rw [header]
  cases file (off % 2 ^ 32) sizeofProghdr with
  | none => rfl
  | some bs => by_cases full : bs.length = sizeofProghdr <;> simp [Option.filter, full]

theorem execLoad_succ (file : File) (k : Nat) (v : Vm) (d : Pgd) (off sz : Nat) :
    execLoad file (k + 1) v d off sz = match header file off with
      | none => .ok (v, d, none)
      | some ph =>
        if ph.type ≠ 1 then
          execLoad file k v d (off + sizeofProghdr) sz
        else if ph.memsz < ph.filesz then
          .ok (v, d, none)
        else do
          let (v, d, sz) ← UserMemory.allocuvm v d sz ph.top
          if sz = 0 then
            return (v, d, none)
          else
            let (v, ok) ← UserMemory.loaduvm v d ph.vaddr file (ph.off % 2 ^ 32) ph.length
            if ok then
              execLoad file k v d (off + sizeofProghdr) sz
            else
              return (v, d, none) := by
  rw [execLoad]
  symm
  exact (match_header _ _).symm

/-- The segments end below page `N` of the user part, if they are in it. -/
def Within (file : File) (N k off : Nat) : Prop :=
  ∀ j < k, ∀ ph, header file (off + j * sizeofProghdr) = some ph → ph.type = 1 →
    ph.top < uaddrSz → ph.top ≤ N * pteSz

theorem Within.next {k : Nat} (within : Within file N (k + 1) off) :
    Within file N k (off + sizeofProghdr) := by
  intro j less ph read
  apply within (j + 1) (succ_lt_succ less)
  rw [succ_mul, Nat.add_comm (j * sizeofProghdr), ← Nat.add_assoc]
  exact read

theorem execLoad_returns_iff {β : Type} {k : Nat} {after : Nat → Prop}
    {next : Vm × Pgd × Option Nat → Except Fault β} (inj : Injective site)
    (within : Within file N k off) (good : Good rest site own (N + 2) v d sz) (low : sz ≤ N * pteSz)
    (bad : ∀ v d sz, Good rest site own (N + 2) v d sz → Returns (next (v, d, none)))
    (fine : ∀ v d sz, Good rest site own (N + 2) v d sz → sz ≤ N * pteSz →
      (Returns (next (v, d, some sz)) ↔ after sz)) :
    Returns (execLoad file k v d off sz >>= next) ↔ SafeFrom file after k off sz := by
  induction k generalizing v d off sz with
  | zero =>
    rw [execLoad, ok_bind, SafeFrom]
    exact fine v d sz good low
  | succ k ih =>
    have failed : Returns ((.ok (v, d, none) : Except Fault _) >>= next) := by
      rw [ok_bind]
      exact bad v d sz good
    rw [execLoad_succ, SafeFrom]
    cases read : header file off with
    | none => exact iff_of_true failed (by simp)
    | some ph =>
      simp only [Option.some.injEq, forall_eq']
      by_cases isLoad : ph.type = 1
      swap
      · rw [if_pos isLoad, if_pos isLoad]
        exact ih within.next good low
      have bound : ph.top < uaddrSz → ph.top ≤ N * pteSz :=
        within 0 (succ_pos k) ph (by simpa using read) isLoad
      rw [if_neg (not_not.mpr isLoad), if_neg (not_not.mpr isLoad)]
      by_cases excess : ph.memsz < ph.filesz
      · rw [if_pos excess]
        exact iff_of_true failed fun le => absurd le (not_le.mpr excess)
      rw [if_neg excess]
      obtain ⟨v₁, d₁, ran, result⟩ := good.allocuvm inj fun below =>
        (bound below).trans (Nat.mul_le_mul_right _ (Nat.le_add_right N 2))
      rw [ran, ok_bind]
      simp only
      by_cases zero : grown sz ph.top = 0
      · rw [if_pos zero] at result
        obtain ⟨rfl, rfl⟩ := result
        rw [if_pos zero]
        exact iff_of_true failed fun _ nonzero => absurd zero nonzero
      rw [if_neg zero] at result
      rw [if_neg zero]
      have low' : grown sz ph.top ≤ N * pteSz := by
        rw [grown] at zero ⊢
        split at zero
        case isTrue => exact absurd rfl zero
        case isFalse below =>
          rw [if_neg below]
          exact max_le low (bound (Nat.lt_of_not_le below))
      obtain ⟨returns, loaded⟩ := result.loaduvm file ph.vaddr (ph.off % 2 ^ 32) ph.length
      rw [bind_assoc]
      by_cases safe : Returns (loaduvm v₁ d₁ ph.vaddr file (ph.off % 2 ^ 32) ph.length)
      swap
      · constructor
        · rintro ⟨b, run⟩
          obtain ⟨a, first, -⟩ := bind_eq_ok run
          exact absurd ⟨a, first⟩ safe
        · intro all
          obtain ⟨aligned, stays, -⟩ := all (Nat.le_of_not_lt excess) zero
          exact absurd (returns.mpr ⟨aligned, stays⟩) safe
      obtain ⟨aligned, stays⟩ := returns.mp safe
      obtain ⟨⟨v₂, ok⟩, ran₂⟩ := safe
      obtain ⟨good₂, complete⟩ := loaded v₂ ok ran₂
      rw [returns_bind ran₂]
      cases ok with
      | true =>
        simp only [if_true]
        rw [ih within.next good₂ low']
        constructor
        · exact fun later _ _ => ⟨aligned, stays, fun _ => later⟩
        · exact fun all => (all (Nat.le_of_not_lt excess) zero).2.2 (complete.mp rfl)
      | false =>
        refine iff_of_true ?_ fun _ _ => ⟨aligned, stays, fun loads => ?_⟩
        · exact bad v₂ d₁ _ good₂
        · exact absurd (complete.mpr loads) Bool.false_ne_true

/-! ### The stack -/

/-- An image of size `top` whose last page but one is not for the user. -/
structure Stacked (d : Pgd) (top : Nat) : Prop where
  aligned : pteSz ∣ top
  room : 2 * pteSz ≤ top
  small : top < uaddrSz
  pages : ∀ n, n * pteSz < top → ∃ e, lookup d (page n) = some e ∧
    (e.ap = apRw10 ↔ n * pteSz + 2 * pteSz ≠ top)
  high : ∀ x, 2 ^ 31 ≤ x → x < 2 ^ 32 → walkpgdir d x = none

omit [DecidableEq Ω] in
theorem Image.stacked (image : Image d top) (aligned : pteSz ∣ top)
    (room : 2 * pteSz ≤ top) (small : top < uaddrSz) :
    ∃ d', clearpteu d (top - 2 * pteSz) = .ok d' ∧ Stacked d' top := by
  obtain ⟨k, rfl⟩ : ∃ k, top = (k + 2) * pteSz := by
    obtain ⟨m, rfl⟩ := aligned
    exact ⟨m - 2, by rw [pteSz_eq] at room ⊢; omega⟩
  have guard : (k + 2) * pteSz - 2 * pteSz = k * pteSz := by
    rw [← Nat.sub_mul, Nat.add_sub_cancel]
  have low : k * pteSz < uaddrSz := (Nat.mul_le_mul_right _ (Nat.le_add_right k 2)).trans_lt small
  have isPage : entryOf (k * pteSz) = page k := by
    rw [entryOf_user low, Nat.mul_div_cancel k (by decide)]
  obtain ⟨e, entry⟩ : ∃ e, lookup d (page k) = some e := by
    rw [← Option.isSome_iff_exists, image.pages, pteSz_eq]
    omega
  obtain ⟨pt, table, here⟩ := Option.bind_eq_some_iff.mp (isPage ▸ entry)
  rw [guard, clearpteu, walkpgdir_eq, show tableAt d (pgdIdx (k * pteSz)) (pmdIdx (k * pteSz)) =
    some pt from table]
  refine ⟨_, rfl, Nat.dvd_mul_left .., room, small, ?_, ?_⟩
  · intro n inside
    rw [lookup_setPte (by rw [walkpgdir_eq]; exact Option.isSome_of_eq_some table), isPage]
    by_cases same : n = k
    · rw [same, update_self, show pt (pteIdx (k * pteSz)) = some e from here]
      refine ⟨_, rfl, iff_of_false (show apRw1 ≠ apRw10 by decide) ?_⟩
      rw [Nat.add_mul]
      exact not_not.mpr rfl
    · rw [update_of_ne fun h => same (page_inj h)]
      obtain ⟨e', entry'⟩ := Option.isSome_iff_exists.mp ((image.pages n).mpr inside)
      refine ⟨e', entry', iff_of_true (image.user n e' entry') ?_⟩
      rw [pteSz_eq]
      omega
  · intro x above below
    rw [← Option.not_isSome_iff_eq_none, walkpgdir_eq, isSome_setPte, ← walkpgdir_eq,
      image.walk_isSome small.le, mod_eq_of_lt below, MemoryLayout.alignUp]
    have span : pmdSz = 2097152 := rfl
    rw [span]
    rw [uaddrSz_eq] at small
    omega

section
variable {cur : Option Pgd} {va : Nat} {bs : List UInt8}

theorem wordAtZero_none (ungrounded : ¬ Grounded cur) (v : Vm) : wordAtZero v cur = none := by
  rw [wordAtZero, Option.bind_eq_none_iff]
  intro c isCur
  rw [Option.map_eq_none_iff]
  by_contra present
  obtain ⟨e, entry⟩ := Option.ne_none_iff_exists'.mp present
  exact ungrounded ⟨c, e, isCur, entry⟩

theorem copyout_grounded (grounded : Grounded cur) (v : Vm) (d : Pgd) (va : Nat)
    (bs : List UInt8) : Returns (copyout v cur d va bs) := by
  obtain ⟨c, e, rfl, entry⟩ := grounded
  fun_induction copyout v (some c) d va bs with
  | case1 v va bs more va0 fault run =>
    rw [uva2ka] at run
    split at run
    case h_1 => simp [wordAtZero, entry] at run
    case h_2 => split at run <;> cases run
  | case2 => exact returns_ok _
  | case3 v va bs more va0 pa0 run n ih => exact ih
  | case4 => exact returns_ok _

theorem Stacked.copyout_high (stacked : Stacked d top) (ungrounded : ¬ Grounded cur) (v : Vm)
    (above : 2 ^ 31 ≤ va) (below : va < 2 ^ 32) (some : bs ≠ []) :
    copyout v cur d va bs = .error .abort := by
  have aligned : alignDn va pteSz = va / 4096 * 4096 := by rw [alignDn, pteSz_eq]
  have absent : walkpgdir d (alignDn va pteSz) = none := by
    rw [aligned]
    exact stacked.high _ (by omega) (by omega)
  rw [copyout, if_pos (length_pos_iff.mpr some)]
  simp only [uva2ka, absent, wordAtZero_none ungrounded]

theorem Stacked.uva2ka (stacked : Stacked d top) (cur : Option Pgd) (v : Vm) {n : Nat}
    (inside : n * pteSz < top) : ∃ r, uva2ka v cur d (n * pteSz) = .ok r ∧
      (r = none ↔ n * pteSz + 2 * pteSz = top) := by
  obtain ⟨e, entry, user⟩ := stacked.pages n inside
  have isPage : entryOf (n * pteSz) = page n := by
    rw [entryOf_user (inside.trans stacked.small), Nat.mul_div_cancel n (by decide)]
  obtain ⟨pt, table, here⟩ := Option.bind_eq_some_iff.mp (isPage ▸ entry)
  refine ⟨if e.ap ≠ apRw10 then none else some (p2v e.pa), ?_, ?_⟩
  · rw [UserMemory.uva2ka, walkpgdir_eq,
      show tableAt d (pgdIdx (n * pteSz)) (pmdIdx (n * pteSz)) = some pt from table]
    simp only
    rw [show pt (pteIdx (n * pteSz)) = some e from here]
  · by_cases plain : e.ap = apRw10
    · simpa [plain] using user.mp plain
    · simpa [plain] using not_not.mp (mt user.mpr plain)

/-- Inside the image `copyout` returns, and it returns 0 unless it meets the guard page. -/
theorem Stacked.copyout (stacked : Stacked d top) (cur : Option Pgd) (v : Vm) (va : Nat)
    (bs : List UInt8) (inside : va + bs.length ≤ top) : ∃ v' ok, copyout v cur d va bs = .ok (v', ok) ∧
      (ok = true ↔ bs = [] ∨ top ≤ va + pteSz ∨ va + bs.length + 2 * pteSz ≤ top) := by
  have unit := pteSz_eq
  have size := uaddrSz_eq
  have small := stacked.small
  have aligned := stacked.aligned
  have room := stacked.room
  have down : ∀ x, alignDn x pteSz = x / pteSz * pteSz := fun x => rfl
  fun_induction UserMemory.copyout v cur d va bs with
  | case1 v va bs more va0 fault run =>
    obtain ⟨r, ok, -⟩ := stacked.uva2ka cur v (n := va / pteSz) (by rw [unit]; omega)
    rw [← down, run] at ok
    cases ok
  | case2 v va bs more va0 run =>
    obtain ⟨r, ok, guard⟩ := stacked.uva2ka cur v (n := va / pteSz) (by rw [unit]; omega)
    rw [← down, run] at ok
    cases ok
    refine ⟨v, false, rfl, iff_of_false Bool.false_ne_true ?_⟩
    have here := guard.mp rfl
    rintro (empty | above | below)
    · simp [empty] at more
    · rw [unit] at here above
      omega
    · rw [unit] at here below
      omega
  | case3 v va bs more va0 pa0 run n ih =>
    obtain ⟨r, ok, guard⟩ := stacked.uva2ka cur v (n := va / pteSz) (by rw [unit]; omega)
    rw [← down, run] at ok
    cases ok
    have other : ¬ va / pteSz * pteSz + 2 * pteSz = top := by
      intro here
      cases guard.mpr here
    have next : (va0 + pteSz) % 2 ^ 32 = va / 4096 * 4096 + 4096 := by
      simp only [va0, down, unit]
      omega
    have left : (bs.drop n).length = bs.length - n := length_drop
    have part : n = min (4096 - va % 4096) bs.length := by
      simp only [n, va0, down, unit]
      omega
    simp only [unit] at aligned other
    obtain ⟨v', ok, ran, exact⟩ := ih (by rw [next, left]; omega)
    refine ⟨v', ok, ran, ?_⟩
    rw [exact, next, ← length_eq_zero_iff, ← length_eq_zero_iff, left, unit]
    omega
  | case4 v va bs none =>
    have empty : bs = [] := eq_nil_of_length_eq_zero (by omega)
    exact ⟨v, true, rfl, iff_of_true rfl (.inl empty)⟩

variable {sp : Nat} {argv : List (List UInt8)}

theorem sp_next {len : Nat} (fits : len + 1 ≤ sp) (small : sp < 2 ^ 64) :
    (sp + 2 ^ 64 - (len + 1)) % 2 ^ 64 / 8 * 8 = (sp - (len + 1)) / 8 * 8 := by
  omega

theorem sp_wraps {len : Nat} (under : sp < len + 1) (short : len < 2 ^ 28) :
    2 ^ 31 ≤ (sp + 2 ^ 64 - (len + 1)) % 2 ^ 64 / 8 * 8 % 2 ^ 32 := by
  omega

theorem Stacked.pushArgs {ustack : List Nat} (stacked : Stacked d top) (ungrounded : ¬ Grounded cur)
    (short : ∀ arg ∈ argv, arg.length < uaddrSz) (few : ustack.length + argv.length ≤ maxarg)
    (below : sp ≤ top) (above : top ≤ sp + pteSz) :
    (Returns (pushArgs cur d argv v sp ustack) ↔ ¬ Underflows (top - pteSz) sp argv) ∧
      ∀ v' sp' ustack', UserMemory.pushArgs cur d argv v sp ustack =
        .ok (v', some (sp', ustack')) → sp' ≤ top ∧ top ≤ sp' + pteSz := by
  have size : uaddrSz = 2 ^ 28 := rfl
  have small := stacked.small
  have room := stacked.room
  induction argv generalizing v sp ustack with
  | nil =>
    refine ⟨iff_of_true (returns_ok _) id, fun v' sp' ustack' ran => ?_⟩
    cases ran
    exact ⟨below, above⟩
  | cons arg argv ih =>
    rw [length_cons] at few
    have shortHere : arg.length < 2 ^ 28 := short arg (mem_cons_self ..)
    rw [UserMemory.pushArgs, if_neg (by omega), Underflows]
    dsimp only
    by_cases under : sp < arg.length + 1
    · have high := sp_wraps under shortHere
      rw [stacked.copyout_high ungrounded v high (mod_lt _ (by decide)) (by simp)]
      exact ⟨iff_of_false (not_returns_error _) fun safe => safe (.inl under), by
        rintro _ _ _ ⟨⟩⟩
    rw [size] at small
    have next := sp_next (Nat.le_of_not_lt under) (show sp < 2 ^ 64 by omega)
    rw [next]
    have fits : (sp - (arg.length + 1)) / 8 * 8 % 2 ^ 32 = (sp - (arg.length + 1)) / 8 * 8 :=
      mod_eq_of_lt (by omega)
    have length : (arg ++ [0]).length = arg.length + 1 := by simp
    obtain ⟨v', ok, ran, exact⟩ := stacked.copyout cur v ((sp - (arg.length + 1)) / 8 * 8)
      (arg ++ [0]) (by rw [length]; omega)
    have inStack : ok = true ↔ top ≤ (sp - (arg.length + 1)) / 8 * 8 + pteSz := by
      rw [exact, length, ← length_eq_zero_iff, length]
      rw [pteSz_eq] at above room ⊢
      omega
    rw [fits, ran, ok_bind]
    simp only
    cases ok with
    | true =>
      have still := inStack.mp rfl
      obtain ⟨returns, bounds⟩ := @ih v' ((sp - (arg.length + 1)) / 8 * 8)
        (ustack ++ [(sp - (arg.length + 1)) / 8 * 8])
        (fun a listed => short a (mem_cons_of_mem _ listed))
        (by rw [length_append, length_singleton]; omega) (by omega) still
      simp only [if_true]
      refine ⟨?_, bounds⟩
      rw [returns]
      have reached : top - pteSz ≤ (sp - (arg.length + 1)) / 8 * 8 := by omega
      simp [under, reached]
    | false =>
      have lost : ¬ top ≤ (sp - (arg.length + 1)) / 8 * 8 + pteSz := fun still =>
        Bool.false_ne_true (inStack.mpr still)
      refine ⟨iff_of_true (returns_ok _) ?_, ?_⟩
      · rintro (early | ⟨reached, -⟩)
        · exact under early
        · omega
      · intro v' sp' ustack' run
        cases run

theorem pushArgs_grounded (grounded : Grounded cur) (d : Pgd) (argv : List (List UInt8)) (v : Vm)
    (sp : Nat) (ustack : List Nat) : Returns (pushArgs cur d argv v sp ustack) := by
  induction argv generalizing v sp ustack with
  | nil => exact returns_ok _
  | cons arg argv ih =>
    rw [pushArgs]
    split
    · exact returns_ok _
    · obtain ⟨⟨v', ok⟩, ran⟩ := copyout_grounded grounded v d
        ((sp + 2 ^ 64 - (arg.length + 1)) % 2 ^ 64 / 8 * 8 % 2 ^ 32) (arg ++ [0])
      dsimp only
      rw [ran, ok_bind]
      dsimp only
      split
      · exact ih v' ..
      · exact returns_ok _

omit [DecidableEq Ω] in
theorem stackArgs_returns_iff {tf : Trapframe} (image : Image d top)
    (aligned : pteSz ∣ top) (room : 2 * pteSz ≤ top) (small : top < uaddrSz)
    (short : ∀ arg ∈ argv, arg.length < uaddrSz) (few : argv.length ≤ maxarg) :
    Returns (stackArgs v cur d top argv tf) ↔
      Grounded cur ∨ ¬ Underflows (top - pteSz) top argv := by
  have unit := pteSz_eq
  have size : uaddrSz = 2 ^ 28 := rfl
  obtain ⟨d', cleared, stacked⟩ := image.stacked aligned room small
  rw [stackArgs, cleared, ok_bind]
  by_cases grounded : Grounded cur
  · refine iff_of_true ?_ (.inl grounded)
    obtain ⟨⟨v₂, _ | ⟨sp, ustack⟩⟩, pushed⟩ := pushArgs_grounded grounded d' argv v top []
    · rw [pushed, ok_bind]
      exact returns_ok _
    · rw [pushed, ok_bind]
      dsimp only
      rw [returns_bind_iff]
      · exact copyout_grounded grounded ..
      · rintro ⟨v₃, ok⟩ -
        dsimp only
        split <;> exact returns_ok _
  · obtain ⟨returns, bounds⟩ := stacked.pushArgs (v := v) grounded short
      (show ([] : List Nat).length + argv.length ≤ maxarg by simpa using few) (Nat.le_refl top)
      (Nat.le_add_right top pteSz)
    rw [or_iff_right grounded, ← returns]
    apply returns_bind_iff
    rintro ⟨v₂, _ | ⟨sp, ustack⟩⟩ pushed
    · exact returns_ok _
    · obtain ⟨under, excess⟩ := bounds v₂ sp ustack pushed
      have count := pushArgs_length (Nat.zero_le _) pushed
      have length : ((ustack ++ [0]).flatMap (leBytes 8)).length = 8 * (ustack.length + 1) := by
        have bytes := length_flatMap_leBytes 8 (fun x => x) (ustack ++ [0])
        rwa [length_append, length_singleton] at bytes
      have limit : maxarg = 32 := rfl
      have sp' : (sp + 2 ^ 64 - (ustack.length + 1) * 8) % 2 ^ 64 % 2 ^ 32 =
          sp - 8 * (ustack.length + 1) := by omega
      obtain ⟨v₃, ok, copied, -⟩ := stacked.copyout cur v₂ (sp - 8 * (ustack.length + 1))
        ((ustack ++ [0]).flatMap (leBytes 8)) (by omega)
      dsimp only
      rw [sp', copied, ok_bind]
      dsimp only
      split <;> exact returns_ok _

theorem execStack_returns_iff {tf : Trapframe}
    (inj : Injective site) (good : Good rest site own (N + 2) v d sz)
    (low : sz ≤ N * pteSz) (short : ∀ arg ∈ argv, arg.length < uaddrSz)
    (few : argv.length ≤ maxarg) :
    Returns (execStack v cur d sz argv tf) ↔ StackSafe cur argv sz := by
  have unit := pteSz_eq
  have size : uaddrSz = 2 ^ 28 := rfl
  have aligned := alignUp_dvd sz pteSz
  have most : alignUp sz pteSz ≤ N * pteSz :=
    (alignUp_le_iff (by decide) (Nat.dvd_mul_left ..) _).mpr low
  have small : alignUp sz pteSz ≤ uaddrSz :=
    (alignUp_le_iff (by decide) (by decide) _).mpr good.small
  have twice : alignUp (alignUp sz pteSz) pteSz = alignUp sz pteSz :=
    Nat.le_antisymm ((alignUp_le_iff (by decide) aligned _).mpr (Nat.le_refl _))
      (le_alignUp (by decide) _)
  have wide : Good rest site own (N + 2) v d (alignUp sz pteSz) :=
    ⟨good.kept, Space.alignUp.mpr good.space, Image.alignUp.mpr good.image,
      most.trans (Nat.mul_le_mul_right _ (Nat.le_add_right N 2)), small, by
        rw [twice]
        exact good.plenty⟩
  have here : alignUp sz pteSz % 2 ^ 32 = alignUp sz pteSz := mod_eq_of_lt (by omega)
  have above : (alignUp sz pteSz + 2 * pteSz) % 2 ^ 32 = alignUp sz pteSz + 2 * pteSz :=
    mod_eq_of_lt (by omega)
  rw [execStack_eq, StackSafe, here, above]
  generalize isTop : alignUp sz pteSz + 2 * pteSz = top
  have bound : top ≤ (N + 2) * pteSz := by
    rw [← isTop, Nat.add_mul]
    exact Nat.add_le_add_right most _
  obtain ⟨v₁, d₁, ran, result⟩ := wide.allocuvm inj fun _ => bound
  rw [ran, ok_bind]
  dsimp only
  by_cases refused : top ≥ uaddrSz
  · have zero : grown (alignUp sz pteSz) top = 0 := by rw [grown, if_pos refused]
    rw [if_pos zero]
    exact iff_of_true (returns_ok _) fun below => absurd refused (not_le.mpr below)
  have below := Nat.lt_of_not_le refused
  have grows : grown (alignUp sz pteSz) top = top := by
    rw [grown, if_neg refused, Nat.max_eq_right (isTop ▸ Nat.le_add_right _ _)]
  have nonzero : top ≠ 0 := by omega
  rw [grows] at result ⊢
  rw [if_neg nonzero] at result
  rw [if_neg nonzero, forall_prop_of_true below]
  have whole : pteSz ∣ top := isTop ▸ Nat.dvd_add aligned (Nat.dvd_mul_left ..)
  have room : 2 * pteSz ≤ top := isTop ▸ Nat.le_add_left ..
  exact stackArgs_returns_iff result.image whole room below short few

theorem freevm_returns (inj : Injective site) (keeps : Keeps rest site own v d)
    (space : Space d sz) : Returns (freevm v (some d)) := by
  obtain ⟨v', d', ran, -⟩ := deallocuvm_keeps inj keeps space (Nat.le_refl uaddrSz)
    (show 0 < uaddrSz by decide)
  rw [freevm, ran, ok_bind]
  exact returns_ok _

end

end

/-! ### `exec` -/

section
variable {rest : Finset (Nat × Nat)} {s : State} {p : SleepWakeup.Slot} {v : Vm} {d : Pgd}
  {prog : Program} {N sz : Nat}

/-- The arguments that `sys_exec` passes on: each is a string in the memory of the process. -/
structure Accepted (s : State) (p : SleepWakeup.Slot) (argv : List (List UInt8)) : Prop where
  count : argv.length < maxarg
  inside : ∀ arg ∈ argv, arg.length < (s.proc p).sz

/-- Memory enough for all segments and the stack: `N` pages cover the segments. -/
def Roomy (heap : Kmem) (prog : Program) : Prop :=
  ∃ N, Plenty (N + 2) heap ∧ ∀ file, prog.file = some file →
    let elf := (file 0 sizeofElfhdr).getD prog.junk
    Within file N (field elf 56 2) (field elf 32 8)

theorem Tidy.good (tidy : Tidy rest s) (plenty : Plenty N s.vm.heap) :
    Good rest .inr s.ownerBeside N s.vm blank 0 where
  kept := tidy.aside.beside
  space := Space.blank
  image := Image.blank
  fits := Nat.zero_le _
  small := Nat.zero_le _
  plenty := plenty.mono (sub_le _ _)

theorem Tidy.freevm_old (tidy : Tidy rest s) (used : (s.proc p).state ≠ .unused)
    (kept : KeepsBeside rest .inr s.ownerBeside v d) : Returns (freevm v (s.proc p).pgdir) := by
  obtain ⟨own, keeps, beside⟩ := kept
  obtain ⟨d₀, pgdir, space, -, keeps₀⟩ := tidy.tree used
  have old : Keeps rest (fun y => .inl (.page p y)) own v d₀ :=
    ⟨keeps.sound, keeps.balanced, fun y => (beside.inl _).trans (keeps₀.view y)⟩
  rw [pgdir]
  exact freevm_returns (Sum.inl_injective.comp (page_injective p)) old space

/-- `readi` of a file with the bytes `bs`. -/
def contents (bs : List UInt8) : File := fun off n =>
  if bs.length < off ∨ 2 ^ 32 ≤ off + n then none else some ((bs.drop off).take n)

/-- An ELF header with one program header right after it. -/
def oneSegmentElf : List UInt8 :=
  leBytes 4 elfMagic ++ List.replicate 28 0 ++ leBytes 8 sizeofElfhdr ++ List.replicate 16 0 ++
    leBytes 2 1 ++ List.replicate 6 0

/-- An executable file with one segment to load, of no file data. -/
def oneSegment (vaddr memsz : Nat) : List UInt8 :=
  oneSegmentElf ++ (leBytes 4 1 ++ leBytes 4 0 ++ leBytes 8 0 ++ leBytes 8 vaddr ++ leBytes 8 0 ++
    leBytes 8 0 ++ leBytes 8 memsz ++ leBytes 8 0)

/-- The program with that file, called with the argument `a`. -/
def oneSegmentProgram (vaddr memsz : Nat) : Program :=
  ⟨some (contents (oneSegment vaddr memsz)), [], [97], [[97]]⟩

theorem oneSegment_read (vaddr memsz : Nat) :
    contents (oneSegment vaddr memsz) 0 sizeofElfhdr = some oneSegmentElf := by
  rw [contents, if_neg (by simp [sizeofElfhdr]), oneSegment, drop_zero]
  exact congrArg some (take_left' rfl)

theorem oneSegmentElf_fields : oneSegmentElf.length = sizeofElfhdr ∧
    field oneSegmentElf 0 4 = elfMagic ∧ field oneSegmentElf 56 2 = 1 ∧
    field oneSegmentElf 32 8 = sizeofElfhdr := by
  decide +kernel

section
variable {vaddr memsz : Nat} {ph : Proghdr}

section
variable (read : header (contents (oneSegment vaddr memsz)) sizeofElfhdr = some ph)
include read

theorem roomy_oneSegment {heap : Kmem} (bound : ph.top ≤ pteSz) (plenty : Plenty 3 heap) :
    Roomy heap (oneSegmentProgram vaddr memsz) := by
  obtain ⟨-, -, count, start⟩ := oneSegmentElf_fields
  refine ⟨1, plenty, fun file isFile => ?_⟩
  cases isFile
  rw [oneSegment_read]
  dsimp only
  rw [Option.getD_some, count, start]
  intro j first ph' read'
  obtain rfl : j = 0 := by omega
  rw [Nat.zero_mul, Nat.add_zero, read] at read'
  cases read'
  exact fun _ _ => by rwa [Nat.one_mul]

theorem execSafe_oneSegment {cur : Option Pgd}
    (isLoad : ph.type = 1) (noData : ph.filesz = 0) (aligned : ph.vaddr % pteSz = 0)
    (stack : StackSafe cur [[97]] (grown 0 ph.top)) :
    ExecSafe cur (oneSegmentProgram vaddr memsz) := by
  obtain ⟨-, -, count, start⟩ := oneSegmentElf_fields
  intro file isFile
  cases isFile
  rw [oneSegment_read]
  dsimp only
  rw [Option.getD_some, count, start]
  intro _ _ ph' read'
  rw [read] at read'
  cases read'
  rw [if_neg (not_not.mpr isLoad)]
  have none : ph.length = 0 := by rw [Proghdr.length, noData, zero_mod]
  refine fun _ _ => ⟨aligned, ?_, fun _ => stack⟩
  rw [none]
  exact staysFrom_done (Nat.lt_irrefl 0)

end

end

theorem accepted_letter (size : (s.proc p).sz = pteSz) : Accepted s p [[97]] := by
  refine ⟨by decide, fun arg listed => ?_⟩
  rw [mem_singleton.mp listed, size]
  decide

end

end UserMemory
