import PinkyOS.RingBuffer

/-!
# The console's line discipline (`console.c`)

`consoleintr` stores and edits characters in a ring behind three wrapping indices, and
`consoleread` takes them out up to the last line that was ended. The lock of the ring is held by
`consoleintr` for all the characters it gets and by `consoleread` from each start to the next
sleep, so these are the steps. `committed`, `delivered`, `begun`, `calls` and `overlapped` record
the history of the run; the code does not read them.
-/
namespace Console
open RingBuffer List

def inputBuf : Nat := 512

/-- `C(x)`, Control-x. -/
def C (x : Char) : Nat := x.toNat - '@'.toNat

def newline : UInt8 := 10
def ctrlD : UInt8 := 4

/-- The argument of `consputc` that erases a character. -/
def backspace : Nat := 0x100

structure Input where
  buf : Nat → UInt8
  r : BitVec 32
  w : BitVec 32
  e : BitVec 32

namespace Input

def at' (i : Input) (index : BitVec 32) : UInt8 := i.buf (index.toNat % inputBuf)

/-- The number of committed characters in the ring, `w - r` in 32-bit arithmetic. -/
def ready (i : Input) : Nat := (i.w - i.r).toNat

/-- The number of characters in the ring, `e - r` in 32-bit arithmetic. -/
def held (i : Input) : Nat := (i.e - i.r).toNat

/-- The committed characters in the ring. -/
def line (i : Input) : List UInt8 := window inputBuf i.buf i.r i.ready

/-- `input.buf[input.e++ % INPUT_BUF] = c`. -/
def store (i : Input) (c : UInt8) : Input :=
  { i with buf := Function.update i.buf (i.e.toNat % inputBuf) c, e := i.e + 1#32 }

end Input

/-- How a call of `consoleread` ends. -/
inductive Stop where
  | newline
  | length
  | eof
  | killed
  deriving DecidableEq

/-- A process inside `consoleread`: `n` bytes are still wanted, `got` are at its buffer. -/
structure Reader where
  call : Nat
  target : Nat
  n : Nat
  got : List UInt8
  asleep : Bool

/-- A call of `consoleread` that has returned. -/
structure Call where
  call : Nat
  target : Nat
  bytes : List UInt8
  stop : Stop

structure State where
  input : Input
  screen : List Nat
  reader : Nat → Option Reader
  committed : List UInt8
  delivered : List (Nat × UInt8)
  begun : Nat
  calls : List Call
  overlapped : Bool

/-! ### The interrupt handler -/

def consputc (s : State) (c : Nat) : State := { s with screen := s.screen ++ [c] }

def erase (s : State) : State :=
  consputc { s with input := { s.input with e := s.input.e - 1#32 } } backspace

def killLine (s : State) : State :=
  if s.input.e ≠ s.input.w ∧ s.input.at' (s.input.e - 1#32) ≠ newline then killLine (erase s)
  else s
termination_by (s.input.e - s.input.w).toNat
decreasing_by
  rename_i more
  have ne := more.1
  simp only [erase, consputc]
  bv_omega

/-- `input.w = input.e; wakeup(&input.r)`. -/
def commit (s : State) : State :=
  { s with
    input := { s.input with w := s.input.e }
    reader := fun p => (s.reader p).map fun rd => { rd with asleep := false }
    committed := s.committed ++
      window inputBuf s.input.buf s.input.w (s.input.e - s.input.w).toNat }

/-- The default case of `consoleintr` with room in the ring. -/
def insert (s : State) (c : Nat) : State :=
  let s := consputc { s with input := s.input.store (UInt8.ofNat c) } c
  if c = '\n'.toNat ∨ c = C 'D' ∨ s.input.e = s.input.r + BitVec.ofNat 32 inputBuf then commit s
  else s

/-- One character of `consoleintr`; `procdump` for ^P leaves the ring alone. -/
def key (s : State) (c : Nat) : State :=
  if c = C 'P' then s
  else if c = C 'U' then killLine s
  else if c = C 'H' ∨ c = 0x7f then
    if s.input.e ≠ s.input.w then erase s else s
  else if c ≠ 0 ∧ s.input.held < inputBuf then
    insert s (if c = '\r'.toNat then '\n'.toNat else c)
  else s

/-- `consoleintr`, where `getc` gives the characters `cs` and then a negative value. -/
def consoleintr (s : State) (cs : List Nat) : State := cs.foldl key s

/-! ### The readers -/

/-- Where the loop of `consoleread` sleeps or ends: `stop` is `none` if it sleeps. -/
structure Progress where
  input : Input
  bytes : List UInt8
  n : Nat
  stop : Option Stop

/-- The loop of `consoleread` from here to the next sleep or to the end; `bytes` are those that it
has copied since it last slept. -/
def readLoop (killed : Bool) (target : Nat) : Nat → Input → List UInt8 → Progress
  | 0, i, bytes => ⟨i, bytes, 0, some .length⟩
  | n + 1, i, bytes =>
    if i.r = i.w then ⟨i, bytes, n + 1, if killed then some .killed else none⟩
    else
      let c := i.at' i.r
      let i := { i with r := i.r + 1#32 }
      if c = ctrlD then
        -- a ^D after some bytes is saved for the next call
        let i := if n + 1 < target then { i with r := i.r - 1#32 } else i
        ⟨i, bytes, n + 1, some .eof⟩
      else if c = newline then ⟨i, bytes ++ [c], n, some .newline⟩
      else readLoop killed target n i (bytes ++ [c])

/-- Reader `p` goes on: what it copies is delivered, and it sleeps or returns. -/
def proceed (s : State) (p : Nat) (rd : Reader) : State :=
  let after := readLoop false rd.target rd.n s.input []
  let got := rd.got ++ after.bytes
  let s := { s with
    input := after.input
    delivered := s.delivered ++ after.bytes.map fun b => (rd.call, b) }
  match after.stop with
  | none => { s with
    reader := Function.update s.reader p (some ⟨rd.call, rd.target, after.n, got, true⟩) }
  | some stop => { s with
    reader := Function.update s.reader p none
    calls := s.calls ++ [⟨rd.call, rd.target, got, stop⟩] }

inductive Action where
  | intr (cs : List Nat)
  | read (p n : Nat)
  | resume (p : Nat)

/-- One step of the console: an interrupt, a process that calls `consoleread` for a positive
number of bytes, or a process that goes on in it after a `wakeup`. -/
def step (s : State) : Action → Option State
  | .intr cs => some (consoleintr s cs)
  | .read p n =>
    if (s.reader p).isSome ∨ n = 0 ∨ 2 ^ 31 ≤ n then none
    else
      let call := s.begun
      let s := { s with
        begun := s.begun + 1
        overlapped := s.overlapped || s.begun != s.calls.length }
      some (proceed s p ⟨call, n, n, [], false⟩)
  | .resume p =>
    match s.reader p with
    | none => none
    | some rd => if rd.asleep then none else some (proceed s p rd)

/-- The console after boot. -/
def boot (screen : List Nat) : State :=
  ⟨⟨fun _ => 0, 0, 0, 0⟩, screen, fun _ => none, [], [], 0, [], false⟩

def Booted (s : State) : Prop := ∃ screen, s = boot screen

/-! ### The ring -/

section
variable {s t : State} {i : Input}

theorem inputBuf_dvd : inputBuf ∣ 2 ^ 32 := ⟨2 ^ 23, by decide⟩

/-- The three indices are in order and the ring is not overfull. -/
structure Fits (i : Input) : Prop where
  ready_le : i.ready ≤ i.held
  held_le : i.held ≤ inputBuf

theorem Fits.pop (fits : Fits i) (more : i.r ≠ i.w) :
    Fits { i with r := i.r + 1#32 } ∧ i.line = i.at' i.r :: { i with r := i.r + 1#32 }.line := by
  obtain ⟨order, bound⟩ := fits
  simp only [Input.ready, Input.held, inputBuf] at order bound
  have ready : i.ready = (i.w - (i.r + 1#32)).toNat + 1 := by
    simp only [Input.ready]
    bv_omega
  constructor
  · constructor
    · simp only [Input.ready, Input.held]
      bv_omega
    · simp only [Input.held, inputBuf]
      bv_omega
  · rw [Input.line, ready, window_pop]
    rfl

theorem Fits.store (fits : Fits i) (room : i.held < inputBuf) (c : UInt8) :
    Fits (i.store c) ∧ (i.store c).line = i.line := by
  obtain ⟨order, bound⟩ := fits
  have last : i.e = i.r + BitVec.ofNat 32 i.held := by
    simp only [Input.held]
    bv_omega
  constructor
  · simp only [Input.ready, Input.held, inputBuf] at order room
    constructor
    · simp only [Input.store, Input.ready, Input.held]
      bv_omega
    · simp only [Input.store, Input.held, inputBuf]
      bv_omega
  · have same := window_update inputBuf_dvd i.buf i.r c order room
    rw [← last] at same
    exact same

theorem Fits.erase (fits : Fits i) (more : i.e ≠ i.w) : Fits { i with e := i.e - 1#32 } := by
  obtain ⟨order, bound⟩ := fits
  simp only [Input.ready, Input.held, inputBuf] at order bound
  constructor
  · simp only [Input.ready, Input.held]
    bv_omega
  · simp only [Input.held, inputBuf]
    bv_omega

theorem Fits.commit (fits : Fits i) : Fits { i with w := i.e } ∧
      { i with w := i.e }.line = i.line ++ window inputBuf i.buf i.w (i.e - i.w).toNat := by
  obtain ⟨order, bound⟩ := fits
  constructor
  · exact ⟨Nat.le_refl _, bound⟩
  · have total : i.held = i.ready + (i.e - i.w).toNat := by
      simp only [Input.ready, Input.held] at order ⊢
      bv_omega
    have first : i.w = i.r + BitVec.ofNat 32 i.ready := by
      simp only [Input.ready]
      bv_omega
    show window inputBuf i.buf i.r i.held = _
    rw [total, window_add, ← first]
    rfl

/-! ### Keystrokes -/

/-- What the handler may do: it adds to the committed characters and wakes readers. -/
structure Keyed (s t : State) : Prop where
  fits : Fits t.input
  grows : ∃ new, t.input.line = s.input.line ++ new ∧ t.committed = s.committed ++ new
  reader : ∀ p, (t.reader p).map ({ · with asleep := false }) =
    (s.reader p).map ({ · with asleep := false })
  delivered : t.delivered = s.delivered
  begun : t.begun = s.begun
  calls : t.calls = s.calls
  overlapped : t.overlapped = s.overlapped

/-- What an editing key may do: it moves the edit index only. -/
structure Edited (s t : State) : Prop where
  fits : Fits t.input
  buf : t.input.buf = s.input.buf
  r : t.input.r = s.input.r
  w : t.input.w = s.input.w
  committed : t.committed = s.committed
  reader : t.reader = s.reader
  delivered : t.delivered = s.delivered
  begun : t.begun = s.begun
  calls : t.calls = s.calls
  overlapped : t.overlapped = s.overlapped

theorem Edited.refl (fits : Fits s.input) : Edited s s :=
  ⟨fits, rfl, rfl, rfl, rfl, rfl, rfl, rfl, rfl, rfl⟩

theorem Edited.line (edited : Edited s t) : t.input.line = s.input.line := by
  simp only [Input.line, Input.ready, edited.buf, edited.r, edited.w]

theorem Edited.keyed (edited : Edited s t) : Keyed s t where
  fits := edited.fits
  grows := ⟨[], by simp [edited.line], by simp [edited.committed]⟩
  reader p := by rw [edited.reader]
  delivered := edited.delivered
  begun := edited.begun
  calls := edited.calls
  overlapped := edited.overlapped

theorem Keyed.trans {u : State} (first : Keyed s t) (second : Keyed t u) : Keyed s u where
  fits := second.fits
  grows := by
    obtain ⟨new, line, committed⟩ := first.grows
    obtain ⟨more, line', committed'⟩ := second.grows
    exact ⟨new ++ more, by rw [line', line, append_assoc],
      by rw [committed', committed, append_assoc]⟩
  reader p := (second.reader p).trans (first.reader p)
  delivered := second.delivered.trans first.delivered
  begun := second.begun.trans first.begun
  calls := second.calls.trans first.calls
  overlapped := second.overlapped.trans first.overlapped

theorem edited_erase (fits : Fits s.input) (more : s.input.e ≠ s.input.w) : Edited s (erase s) :=
  ⟨fits.erase more, rfl, rfl, rfl, rfl, rfl, rfl, rfl, rfl, rfl⟩

theorem edited_killLine (fits : Fits s.input) : Edited s (killLine s) := by
  fun_induction killLine s with
  | case1 s more ih =>
    have erased := edited_erase fits more.1
    have rest := ih erased.fits
    exact ⟨rest.fits, rest.buf, rest.r, rest.w, rest.committed, rest.reader, rest.delivered,
      rest.begun, rest.calls, rest.overlapped⟩
  | case2 s => exact .refl fits

/-- The keys that remove characters: ^U, ^H and delete. -/
def IsEdit (c : Nat) : Prop := c = C 'U' ∨ c = C 'H' ∨ c = 0x7f

section
variable (fits : Fits s.input)
include fits

theorem edited_key {c : Nat} (edit : IsEdit c) : Edited s (key s c) := by
  rcases edit with rfl | back
  · exact edited_killLine fits
  · have other : c ≠ C 'P' ∧ c ≠ C 'U' := by
      rcases back with rfl | rfl <;> decide
    rw [key, if_neg other.1, if_neg other.2, if_pos back]
    split
    case isTrue more => exact edited_erase fits more
    case isFalse => exact .refl fits

theorem keyed_store (room : s.input.held < inputBuf) (b : UInt8) (c : Nat) :
    Keyed s (consputc { s with input := s.input.store b } c) where
  fits := (fits.store room b).1
  grows := ⟨[], by
    rw [append_nil]
    exact (fits.store room b).2, (append_nil _).symm⟩
  reader _ := rfl
  delivered := rfl
  begun := rfl
  calls := rfl
  overlapped := rfl

theorem keyed_commit : Keyed s (commit s) where
  fits := fits.commit.1
  grows := ⟨_, fits.commit.2, rfl⟩
  reader p := by
    simp only [commit, Option.map_map]
    rfl
  delivered := rfl
  begun := rfl
  calls := rfl
  overlapped := rfl

theorem keyed_insert (room : s.input.held < inputBuf) (c : Nat) : Keyed s (insert s c) := by
  have stored := keyed_store fits room (UInt8.ofNat c) c
  simp only [insert]
  split
  case isTrue => exact stored.trans (keyed_commit stored.fits)
  case isFalse => exact stored

theorem keyed_key (c : Nat) : Keyed s (key s c) := by
  by_cases edit : IsEdit c
  · exact (edited_key fits edit).keyed
  · simp only [IsEdit, not_or] at edit
    simp only [key, edit, or_self, if_false]
    split
    case isTrue => exact (Edited.refl fits).keyed
    case isFalse =>
      split
      case isTrue stores => exact keyed_insert fits stores.2 _
      case isFalse => exact (Edited.refl fits).keyed

theorem keyed_consoleintr (cs : List Nat) : Keyed s (consoleintr s cs) := by
  induction cs generalizing s with
  | nil => exact (Edited.refl fits).keyed
  | cons c cs ih =>
    have first := keyed_key fits c
    exact first.trans (ih first.fits)

end

/-! ### The loop of a reader -/

/-- Why the loop of a reader halts. -/
def Halts (target : Nat) (used : List UInt8) (a : Progress) : Prop :=
  match a.stop with
  | none => 0 < a.n ∧ newline ∉ a.bytes ∧ a.input.line = []
  | some .length => a.n = 0 ∧ newline ∉ a.bytes
  | some .newline => ∃ init, a.bytes = init ++ [newline] ∧ newline ∉ init
  | some .eof => 0 < a.n ∧ newline ∉ a.bytes ∧
    if a.n < target then ∃ rest, a.input.line = ctrlD :: rest else used = a.bytes ++ [ctrlD]
  | some .killed => False

/-- The loop of a reader that takes `used` out of the ring and wants `n` bytes. -/
structure Takes (target n : Nat) (i : Input) (used : List UInt8) (a : Progress) : Prop where
  fits : Fits a.input
  line : i.line = used ++ a.input.line
  bytes : a.bytes = used.filter (· ≠ ctrlD)
  count : a.n + a.bytes.length = n
  halts : Halts target used a

theorem readLoop_bytes (killed : Bool) (target n : Nat) (i : Input) (bytes : List UInt8) :
    readLoop killed target n i bytes =
      { readLoop killed target n i [] with
        bytes := bytes ++ (readLoop killed target n i []).bytes } := by
  induction n generalizing i bytes with
  | zero => simp [readLoop]
  | succ n ih =>
    simp only [readLoop]
    split_ifs <;> try simp
    rw [ih, ih _ [i.at' i.r]]
    simp

theorem Halts.cons {target : Nat} {used : List UInt8} {a : Progress} {b : UInt8}
    (halts : Halts target used a) (other : newline ≠ b) :
    Halts target (b :: used) { a with bytes := b :: a.bytes } := by
  obtain ⟨input, bytes, n, stop⟩ := a
  cases stop with
  | none => exact ⟨halts.1, not_mem_cons_of_ne_of_not_mem other halts.2.1, halts.2.2⟩
  | some stop =>
    cases stop with
    | newline =>
      obtain ⟨init, ends, first⟩ := halts
      exact ⟨b :: init, congrArg (b :: ·) ends, not_mem_cons_of_ne_of_not_mem other first⟩
    | length => exact ⟨halts.1, not_mem_cons_of_ne_of_not_mem other halts.2⟩
    | eof =>
      obtain ⟨more, first, kept⟩ := halts
      refine ⟨more, not_mem_cons_of_ne_of_not_mem other first, ?_⟩
      by_cases short : n < target
      · rwa [if_pos short] at kept ⊢
      · rw [if_neg short] at kept ⊢
        exact congrArg (b :: ·) kept
    | killed => exact halts

theorem readLoop_takes (fits : Fits i) (target n : Nat) :
    ∃ used, Takes target n i used (readLoop false target n i []) := by
  induction n generalizing i with
  | zero => exact ⟨[], fits, rfl, rfl, rfl, rfl, not_mem_nil⟩
  | succ n ih =>
    rw [readLoop]
    by_cases empty : i.r = i.w
    · have ready : i.ready = 0 := by simp [Input.ready, empty]
      rw [if_pos empty]
      exact ⟨[], fits, rfl, rfl, rfl, Nat.succ_pos n, not_mem_nil, by simp [Input.line, ready]⟩
    · obtain ⟨fits', line⟩ := fits.pop empty
      rw [if_neg empty]
      by_cases isEof : i.at' i.r = ctrlD
      · simp only [isEof, if_true]
        rw [isEof] at line
        by_cases some' : n + 1 < target
        · have back : { i with r := i.r + 1#32 - 1#32 } = i := by
            rw [BitVec.add_sub_cancel]
          simp only [some', if_true, back]
          refine ⟨[], fits, rfl, rfl, rfl, Nat.succ_pos n, not_mem_nil, ?_⟩
          exact if_pos some' ▸ ⟨_, line⟩
        · simp only [some', if_false]
          refine ⟨[ctrlD], fits', line, rfl, rfl, Nat.succ_pos n, not_mem_nil, ?_⟩
          exact if_neg some' ▸ rfl
      · simp only [isEof, if_false]
        by_cases ends : i.at' i.r = newline
        · simp only [ends, if_true]
          rw [ends] at line
          exact ⟨[newline], fits', line, rfl, rfl, [], rfl, not_mem_nil⟩
        · simp only [ends, if_false]
          obtain ⟨used, takes⟩ := ih fits'
          rw [readLoop_bytes]
          refine ⟨i.at' i.r :: used, takes.fits, ?_, ?_, ?_, ?_⟩
          · rw [line, takes.line]
            rfl
          · simp [takes.bytes, isEof]
          · have := takes.count
            simp
            omega
          · exact takes.halts.cons (Ne.symm ends)

end

end Console
