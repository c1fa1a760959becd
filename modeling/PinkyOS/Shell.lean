import Mathlib

/-!
# The parser of the shell (`usr/sh.c`)

A pointer into the command line is modelled by the text from there to the NUL: `*s` is the first
byte of it, or NUL if there is none, and `s < es` says that it is not empty. The functions that
call each other, `parseline`, `parsepipe`, `parseexec` and `parseblock`, take fuel; `parsecmd`
gives them more than the length of the line can use up. Nodes are always there (`malloc` does not
fail), and so is room on the stack.
-/
namespace Shell

/-- A `char *` into the command line. -/
abbrev Ptr := List UInt8

inductive Fault where
  | panic (msg : String)
  | fuel
  deriving DecidableEq

/-- A tree of commands over strings of type `σ`. The arguments of an `execcmd` are those before
its null entry. -/
inductive Cmd (σ : Type) where
  | exec (argv : List σ)
  | redir (cmd : Cmd σ) (file : σ) (mode fd : Nat)
  | pipe (left right : Cmd σ)
  | list (left right : Cmd σ)
  | back (cmd : Cmd σ)
  deriving DecidableEq

/-- A string that the parser has found: where it starts and where it ends. -/
structure Span where
  q : Ptr
  eq : Ptr
  deriving DecidableEq

def maxargs : Nat := 10

def oRdonly : Nat := 0x000
def oWronly : Nat := 0x001
def oCreate : Nat := 0x200

/-! ### Tokens -/

def bytes (cs : List Char) : List UInt8 := cs.map Char.toUInt8

def whitespace : List UInt8 := bytes [' ', '\t', '\r', '\n', '\x0b']

def symbols : List UInt8 := bytes ['<', '|', '>', '&', ';', '(', ')']

/-- `strchr` as a condition; the NUL at the end of `s` does not count. -/
def strchr (s : List UInt8) (c : UInt8) : Bool := s.contains c

/-- `while(s < es && strchr(whitespace, *s)) s++;` -/
def skip (s : Ptr) : Ptr := s.dropWhile (strchr whitespace)

/-- The part of `gettoken` that finds the end of the token at `q`, with its return value. -/
def scan (q : Ptr) : UInt8 × Ptr :=
  match q with
  | [] => (0, [])
  | c :: s =>
    if c = 0 then
      (0, q)
    else if strchr (bytes ['|', '(', ')', ';', '&', '<']) c then
      (c, s)
    else if c = '>'.toUInt8 then
      if s.head? = some '>'.toUInt8 then ('+'.toUInt8, s.tail) else (c, s)
    else
      ('a'.toUInt8, q.dropWhile fun c => !strchr whitespace c && !strchr symbols c)

/-- What `gettoken` returns: the kind of the token, the token and the new `*ps`. -/
structure Scanned where
  tok : UInt8
  span : Span
  ps : Ptr

def gettoken (s : Ptr) : Scanned :=
  let q := skip s
  let (ret, eq) := scan q
  ⟨ret, ⟨q, eq⟩, skip eq⟩

/-- `peek` with the new `*ps`. -/
def peek (s : Ptr) (toks : List Char) : Bool × Ptr :=
  match skip s with
  | [] => (false, [])
  | c :: s => (c ≠ 0 && strchr (bytes toks) c, c :: s)

theorem length_skip_le (s : Ptr) : (skip s).length ≤ s.length :=
  List.length_dropWhile_le ..

theorem skip_head {s t : Ptr} {c : UInt8} (first : skip s = c :: t) :
    strchr whitespace c = false := by
  have kept := List.head?_dropWhile_not (strchr whitespace) s
  rw [show s.dropWhile (strchr whitespace) = c :: t from first] at kept
  simpa using kept

/-- Every token but NUL takes at least one byte. -/
theorem length_scan_le {c : UInt8} {s : Ptr} (solid : c ≠ 0)
    (dark : strchr whitespace c = false) : (scan (c :: s)).2.length ≤ s.length := by
  rw [scan.eq_def]
  dsimp only
  rw [if_neg solid]
  split_ifs with symbol greater double
  · exact Nat.le_refl _
  · simp
  · exact Nat.le_refl _
  · have plain : strchr symbols c = false := by
      simp only [strchr, symbols, bytes, List.contains_eq_mem, List.map_cons, List.map_nil,
        List.mem_cons, List.not_mem_nil, or_false, decide_eq_false_iff_not,
        decide_eq_true_eq] at symbol ⊢
      tauto
    dsimp only
    rw [List.dropWhile_cons_of_pos (by simp [dark, plain])]
    exact List.length_dropWhile_le ..

theorem peek_snd (s : Ptr) (toks : List Char) : (peek s toks).2 = skip s := by
  rw [peek]
  cases skip s <;> rfl

theorem skip_skip (s : Ptr) : skip (skip s) = skip s := List.dropWhile_idempotent ..

theorem length_gettoken_le {s t : Ptr} {c : UInt8} (first : skip s = c :: t) (solid : c ≠ 0) :
    (gettoken s).ps.length ≤ t.length := by
  rw [gettoken, first]
  exact (length_skip_le _).trans (length_scan_le solid (skip_head first))

/-- What `peek` has seen is taken away by `gettoken`. -/
theorem length_gettoken_peek {s : Ptr} {toks : List Char} (seen : (peek s toks).1 = true) :
    (gettoken (peek s toks).2).ps.length < s.length := by
  have shorter := length_skip_le s
  rw [peek_snd]
  rw [peek] at seen
  cases first : skip s with
  | nil =>
    rw [first] at seen
    cases seen
  | cons c t =>
    rw [first] at seen shorter
    have solid : c ≠ 0 := by simpa using (Bool.and_eq_true_iff.mp seen).1
    have again : skip (c :: t) = c :: t := first ▸ skip_skip s
    have less := length_gettoken_le again solid
    rw [List.length_cons] at shorter
    omega

/-- A token that is a word takes at least one byte. -/
theorem length_gettoken_word {s : Ptr} (word : (gettoken s).tok = 'a'.toUInt8) :
    (gettoken s).ps.length < s.length := by
  have shorter := length_skip_le s
  cases first : skip s with
  | nil =>
    rw [gettoken, first] at word
    exact absurd word (by decide)
  | cons c t =>
    rw [first] at shorter
    by_cases solid : c = 0
    · have nul : scan (0 :: t) = (0, 0 :: t) := by simp [scan.eq_def]
      rw [gettoken, first, solid, nul] at word
      exact absurd word (show (0 : UInt8) ≠ 'a'.toUInt8 by decide)
    · have less := length_gettoken_le first solid
      rw [List.length_cons] at shorter
      omega

/-! ### The functions of the parser -/

/-- The node for a redirection with the operator `tok`. -/
def redirect (tok : UInt8) (cmd : Cmd Span) (file : Span) : Cmd Span :=
  if tok = '<'.toUInt8 then
    .redir cmd file oRdonly 0
  else if tok = '>'.toUInt8 then
    .redir cmd file (oWronly ||| oCreate) 1
  else if tok = '+'.toUInt8 then
    .redir cmd file (oWronly ||| oCreate) 1
  else
    cmd

def parseredirs (cmd : Cmd Span) (s : Ptr) : Except Fault (Cmd Span × Ptr) :=
  if (peek s ['<', '>']).1 then
    let op := gettoken (peek s ['<', '>']).2
    let file := gettoken op.ps
    if file.tok ≠ 'a'.toUInt8 then
      .error (.panic "missing file for redirection")
    else
      parseredirs (redirect op.tok cmd file.span) file.ps
  else
    .ok (cmd, (peek s ['<', '>']).2)
termination_by s.length
decreasing_by
  rename_i seen word
  exact (length_gettoken_word (not_not.mp word)).trans (length_gettoken_peek seen)

/-- `cmd->argv[argc] = q; cmd->eargv[argc] = eq;` for the `execcmd` inside of `ret`. -/
def addArg {σ : Type} (arg : σ) : Cmd σ → Cmd σ
  | .exec argv => .exec (argv ++ [arg])
  | .redir cmd file mode fd => .redir (addArg arg cmd) file mode fd
  | cmd => cmd

/-- The loop of `parseexec` with `argc` arguments found. -/
def parseargs (ret : Cmd Span) (argc : Nat) (s : Ptr) : Except Fault (Cmd Span × Ptr) :=
  if (peek s ['|', ')', '&', ';']).1 then
    .ok (ret, (peek s ['|', ')', '&', ';']).2)
  else
    let arg := gettoken (peek s ['|', ')', '&', ';']).2
    if arg.tok = 0 then
      .ok (ret, arg.ps)
    else if arg.tok ≠ 'a'.toUInt8 then
      .error (.panic "syntax")
    else if argc + 1 ≥ maxargs then
      .error (.panic "too many args")
    else do
      let (ret, s) ← parseredirs (addArg arg.span ret) arg.ps
      parseargs ret (argc + 1) s
termination_by maxargs - argc

/-- The loop of `parseline` over `&`. -/
def parsebacks (cmd : Cmd Span) (s : Ptr) : Cmd Span × Ptr :=
  if (peek s ['&']).1 then
    parsebacks (.back cmd) (gettoken (peek s ['&']).2).ps
  else
    (cmd, (peek s ['&']).2)
termination_by s.length
decreasing_by
  rename_i seen
  exact length_gettoken_peek seen

mutual

def parseline : Nat → Ptr → Except Fault (Cmd Span × Ptr)
  | 0, _ => .error .fuel
  | n + 1, s => do
    let (cmd, s) ← parsepipe n s
    let (cmd, s) := parsebacks cmd s
    let (more, s) := peek s [';']
    if more then
      let (right, s) ← parseline n (gettoken s).ps
      return (.list cmd right, s)
    else
      return (cmd, s)

def parsepipe : Nat → Ptr → Except Fault (Cmd Span × Ptr)
  | 0, _ => .error .fuel
  | n + 1, s => do
    let (cmd, s) ← parseexec n s
    let (more, s) := peek s ['|']
    if more then
      let (right, s) ← parsepipe n (gettoken s).ps
      return (.pipe cmd right, s)
    else
      return (cmd, s)

def parseblock : Nat → Ptr → Except Fault (Cmd Span × Ptr)
  | 0, _ => .error .fuel
  | n + 1, s => do
    let (opened, s) := peek s ['(']
    if !opened then
      .error (.panic "parseblock")
    else
      let (cmd, s) ← parseline n (gettoken s).ps
      let (closed, s) := peek s [')']
      if !closed then
        .error (.panic "syntax - missing )")
      else
        parseredirs cmd (gettoken s).ps

def parseexec : Nat → Ptr → Except Fault (Cmd Span × Ptr)
  | 0, _ => .error .fuel
  | n + 1, s => do
    let (opened, s) := peek s ['(']
    if opened then
      parseblock n s
    else
      let (ret, s) ← parseredirs (.exec []) s
      parseargs ret 0 s

end

/-! ### The command line -/

/-- `*p = 0`, in the text of the line. At its end there is a NUL already. -/
def terminate (line : List UInt8) (p : Ptr) : List UInt8 := line.set (line.length - p.length) 0

def nulterminate : Cmd Span → List UInt8 → List UInt8
  | .exec argv, line => argv.foldl (fun line arg => terminate line arg.eq) line
  | .redir cmd file _ _, line => terminate (nulterminate cmd line) file.eq
  | .pipe left right, line => nulterminate right (nulterminate left line)
  | .list left right, line => nulterminate right (nulterminate left line)
  | .back cmd, line => nulterminate cmd line

/-- A NUL-terminated string, without its NUL. -/
structure CString where
  text : List UInt8
  noNul : 0 ∉ text

/-- `parsecmd`: the tree, and the line with all its strings terminated. -/
def parsecmd (s : CString) : Except Fault (Cmd Span × List UInt8) := do
  let (cmd, rest) ← parseline (4 * s.text.length + 4) s.text
  if (peek rest []).2 ≠ [] then
    .error (.panic "syntax")
  else
    return (cmd, nulterminate cmd s.text)

/-- The string that starts at `p`, in a line of which `p` was the end part. -/
def stringAt (line : List UInt8) (p : Ptr) : List UInt8 :=
  (line.drop (line.length - p.length)).takeWhile (· ≠ 0)

def Cmd.map {σ τ : Type} (f : σ → τ) : Cmd σ → Cmd τ
  | .exec argv => .exec (argv.map f)
  | .redir cmd file mode fd => .redir (cmd.map f) (f file) mode fd
  | .pipe left right => .pipe (left.map f) (right.map f)
  | .list left right => .list (left.map f) (right.map f)
  | .back cmd => .back (cmd.map f)

/-- `parsecmd` returns a tree that reads as `c`. -/
def Parses (s : CString) (c : Cmd (List UInt8)) : Prop :=
  ∃ cmd line, parsecmd s = .ok (cmd, line) ∧ cmd.map (fun x => stringAt line x.q) = c

end Shell
