import PinkyOS.Shell

/-!
# The tokens of a command line

What the parser does depends on the line only through its tokens. `Lexes` says what the tokens of
a text are; the functions of `Tokens` are the parser on lists of them, and the parser of the shell
agrees with these functions.
-/
namespace Shell
open List

/-! ### Lexing -/

/-- The operators of redirections. -/
inductive Op where
  | input
  | output
  | append
  deriving DecidableEq

inductive Token where
  | bar
  | lpar
  | rpar
  | semi
  | amp
  | redir (op : Op)
  | word (w : List UInt8)
  deriving DecidableEq

namespace Op

def spell : Op → List UInt8
  | input => bytes ['<']
  | output => bytes ['>']
  | append => bytes ['>', '>']

def mode : Op → Nat
  | input => oRdonly
  | output => oWronly ||| oCreate
  | append => oWronly ||| oCreate

def fd : Op → Nat
  | input => 0
  | output => 1
  | append => 1

end Op

/-- The bytes of which words are made. -/
def Plain (c : UInt8) : Prop := c ≠ 0 ∧ c ∉ whitespace ∧ c ∉ symbols

namespace Token

def spell : Token → List UInt8
  | bar => bytes ['|']
  | lpar => bytes ['(']
  | rpar => bytes [')']
  | semi => bytes [';']
  | amp => bytes ['&']
  | redir op => op.spell
  | word w => w

/-- What `gettoken` returns for the token. -/
def code : Token → UInt8
  | bar => '|'.toUInt8
  | lpar => '('.toUInt8
  | rpar => ')'.toUInt8
  | semi => ';'.toUInt8
  | amp => '&'.toUInt8
  | redir .input => '<'.toUInt8
  | redir .output => '>'.toUInt8
  | redir .append => '+'.toUInt8
  | word _ => 'a'.toUInt8

/-- The symbol that the token starts with. -/
def lead : Token → Option UInt8
  | word _ => none
  | t => t.spell.head?

def Valid : Token → Prop
  | word w => w ≠ [] ∧ ∀ c ∈ w, Plain c
  | _ => True

/-- The text after the token does not continue it. -/
def Ends : Token → List UInt8 → Prop
  | word _, s => ∀ c ∈ s.head?, ¬ Plain c
  | redir .output, s => s.head? ≠ some '>'.toUInt8
  | _, _ => True

end Token

/-- The text `s` consists of the tokens `ts`, with whitespace between, before and after them. -/
inductive Lexes : List UInt8 → List Token → Prop
  | done : Lexes [] []
  | space {c : UInt8} {s : List UInt8} {ts : List Token} (blank : c ∈ whitespace)
      (rest : Lexes s ts) : Lexes (c :: s) ts
  | token {t : Token} {s : List UInt8} {ts : List Token} (valid : t.Valid) (ends : t.Ends s)
      (rest : Lexes s ts) : Lexes (t.spell ++ s) (t :: ts)

section
variable {s : List UInt8} {ts us : List Token} {t : Token} {c : UInt8} {w : List UInt8}

/-- Tokens start with a byte that is neither NUL nor whitespace. -/
theorem Token.Valid.spell_eq (valid : t.Valid) : ∃ c l, t.spell = c :: l ∧ c ≠ 0 ∧ c ∉ whitespace ∧
      (t.lead = some c ∨ t.lead = none ∧ c ∉ symbols) := by
  cases t with
  | word w =>
    obtain ⟨nonempty, plain⟩ := valid
    obtain ⟨c, l, rfl⟩ := exists_cons_of_ne_nil nonempty
    obtain ⟨solid, dark, letter⟩ := plain c (mem_cons_self ..)
    exact ⟨c, l, rfl, solid, dark, .inr ⟨rfl, letter⟩⟩
  | redir op => cases op <;> exact ⟨_, _, rfl, by decide, by decide, .inl rfl⟩
  | _ => exact ⟨_, _, rfl, by decide, by decide, .inl rfl⟩

theorem strchr_eq_false : strchr w c = false ↔ c ∉ w := by
  simp [strchr]

theorem strchr_eq_true : strchr w c = true ↔ c ∈ w := by
  simp [strchr]

theorem Token.Valid.skip_spell (valid : t.Valid) (s : List UInt8) :
    skip (t.spell ++ s) = t.spell ++ s := by
  obtain ⟨c, l, spelled, -, dark, -⟩ := valid.spell_eq
  rw [spelled, cons_append, skip, dropWhile_cons_of_neg]
  rw [Bool.not_eq_true, strchr_eq_false]
  exact dark

theorem skip_space (blank : c ∈ whitespace) (s : List UInt8) : skip (c :: s) = skip s := by
  rw [skip, dropWhile_cons_of_pos (strchr_eq_true.mpr blank)]
  rfl

theorem Lexes.skip (lexes : Lexes s ts) : Lexes (skip s) ts := by
  induction lexes with
  | done => exact .done
  | space blank rest ih => rwa [skip_space blank]
  | token valid ends rest ih =>
    rw [valid.skip_spell]
    exact .token valid ends rest

theorem Lexes.nil_inv (lexes : Lexes s []) : Shell.skip s = [] := by
  generalize none : ([] : List Token) = ts at lexes
  induction lexes with
  | done => rfl
  | space blank rest ih => rw [skip_space blank, ih none]
  | token => cases none

theorem Lexes.cons_inv (lexes : Lexes s (t :: us)) :
    ∃ l, Shell.skip s = t.spell ++ l ∧ t.Valid ∧ t.Ends l ∧ Lexes l us := by
  generalize some : t :: us = ts at lexes
  induction lexes with
  | done => cases some
  | space blank rest ih =>
    rw [skip_space blank]
    exact ih some
  | token valid ends rest ih =>
    cases some
    exact ⟨_, valid.skip_spell _, valid, ends, rest⟩

theorem Lexes.head_solid (lexes : Lexes s ts) (first : s.head? = some c) : c ≠ 0 := by
  cases lexes with
  | done => cases first
  | space blank rest =>
    cases first
    rintro rfl
    exact absurd blank (by decide)
  | token valid ends rest =>
    obtain ⟨c', l, spelled, solid, -⟩ := valid.spell_eq
    rw [spelled] at first
    cases first
    exact solid

/-- The loop of `gettoken` over the bytes of a word stops at its end. -/
theorem dropWhile_word (plain : ∀ c ∈ w, Plain c) (ends : (Token.word w).Ends s)
    (rest : Lexes s ts) :
    (w ++ s).dropWhile (fun c => !strchr whitespace c && !strchr symbols c) = s := by
  rw [dropWhile_append_of_pos]
  · cases s with
    | nil => rfl
    | cons c s =>
      have solid := rest.head_solid rfl
      have other : ¬ Plain c := ends c rfl
      rw [dropWhile_cons_of_neg]
      simp only [strchr, contains_eq_mem, Bool.and_eq_true, Bool.not_eq_true',
        decide_eq_false_iff_not]
      exact fun both => other ⟨solid, both.1, both.2⟩
  · intro c listed
    obtain ⟨-, dark, letter⟩ := plain c listed
    simp [strchr, dark, letter]

/-- `gettoken` finds the end of a token. -/
theorem scan_spell (valid : t.Valid) (ends : t.Ends s) (rest : Lexes s ts) :
    scan (t.spell ++ s) = (t.code, s) := by
  cases t with
  | word w =>
    obtain ⟨nonempty, plain⟩ := valid
    have stops := dropWhile_word plain ends rest
    obtain ⟨c, l, rfl⟩ := exists_cons_of_ne_nil nonempty
    obtain ⟨solid, -, letter⟩ := plain c (mem_cons_self ..)
    have others : strchr (bytes ['|', '(', ')', ';', '&', '<']) c = false := by
      rw [strchr_eq_false]
      exact fun listed => letter ((show ∀ x ∈ bytes ['|', '(', ')', ';', '&', '<'], x ∈ symbols by
        decide +kernel) c listed)
    have greater : c ≠ '>'.toUInt8 := by
      rintro rfl
      exact letter (by decide)
    rw [Token.spell, cons_append, scan.eq_def]
    dsimp only
    rw [if_neg solid, others, if_neg Bool.false_ne_true, if_neg greater]
    exact congrArg (Prod.mk _) stops
  | redir op =>
    cases op with
    | input => rfl
    | output =>
      have single : s.head? ≠ some '>'.toUInt8 := ends
      have reduce : scan ('>'.toUInt8 :: s) =
          if s.head? = some '>'.toUInt8 then ('+'.toUInt8, s.tail) else ('>'.toUInt8, s) := rfl
      exact reduce.trans (if_neg single)
    | append => rfl
  | _ => rfl

/-- The span `x` of a text is the word `w`. -/
structure IsWord (line : List UInt8) (x : Span) (w : List UInt8) : Prop where
  text : x.q = w ++ x.eq
  plain : ∀ c ∈ w, Plain c
  ends : (Token.word w).Ends x.eq
  inside : x.q <:+ line

theorem skip_suffix (s : Ptr) : skip s <:+ s := dropWhile_suffix _

theorem gettoken_cons {line : List UInt8} (inside : s <:+ line) (lexes : Lexes s (t :: us)) :
    (gettoken s).tok = t.code ∧ (gettoken s).ps <:+ line ∧ Lexes (gettoken s).ps us ∧
      ∀ w, t = .word w → IsWord line (gettoken s).span w := by
  obtain ⟨l, start, valid, ends, rest⟩ := lexes.cons_inv
  have scanned := scan_spell valid ends rest
  have here : t.spell ++ l <:+ line := start ▸ (skip_suffix s).trans inside
  rw [gettoken, start, scanned]
  refine ⟨rfl, ?_, rest.skip, ?_⟩
  · exact ((skip_suffix l).trans (suffix_append _ _)).trans here
  · rintro w rfl
    exact ⟨rfl, valid.2, ends, here⟩

theorem gettoken_nil (lexes : Lexes s []) : gettoken s = ⟨0, ⟨[], []⟩, []⟩ := by
  rw [gettoken, lexes.nil_inv]
  rfl

/-- `peek` tells which symbol comes next. -/
theorem peek_fst {toks : List Char} (some : ∀ c ∈ bytes toks, c ∈ symbols) (lexes : Lexes s ts) :
    (peek s toks).1 = (ts.head?.bind Token.lead).any (strchr (bytes toks)) := by
  rw [peek]
  cases ts with
  | nil =>
    rw [lexes.nil_inv]
    rfl
  | cons t us =>
    obtain ⟨l, start, valid, -⟩ := lexes.cons_inv
    obtain ⟨c, l', spelled, solid, -, lead | ⟨lead, letter⟩⟩ := valid.spell_eq
    · rw [start, spelled, head?_cons, Option.bind_some, lead]
      simp [solid]
    · have other : strchr (bytes toks) c = false := by
        rw [strchr_eq_false]
        exact fun listed => letter (some c listed)
      rw [start, spelled, head?_cons, Option.bind_some, lead]
      simp [other]

/-- A symbol is a token, unless it is the first half of `>>`. -/
theorem exists_token (symbol : c ∈ symbols) (s : List UInt8) :
    ∃ t l, c :: s = Token.spell t ++ l ∧ t.Valid ∧ t.Ends l ∧ l <:+ s := by
  simp only [symbols, bytes, map_cons, map_nil, mem_cons, not_mem_nil, or_false] at symbol
  rcases symbol with rfl | rfl | rfl | rfl | rfl | rfl | rfl
  · exact ⟨.redir .input, s, rfl, trivial, trivial, suffix_rfl⟩
  · exact ⟨.bar, s, rfl, trivial, trivial, suffix_rfl⟩
  · by_cases double : s.head? = some '>'.toUInt8
    · cases s with
      | nil => cases double
      | cons c s =>
        cases double
        exact ⟨.redir .append, s, rfl, trivial, trivial, suffix_cons _ _⟩
    · exact ⟨.redir .output, s, rfl, trivial, double, suffix_rfl⟩
  · exact ⟨.amp, s, rfl, trivial, trivial, suffix_rfl⟩
  · exact ⟨.semi, s, rfl, trivial, trivial, suffix_rfl⟩
  · exact ⟨.lpar, s, rfl, trivial, trivial, suffix_rfl⟩
  · exact ⟨.rpar, s, rfl, trivial, trivial, suffix_rfl⟩

/-- A byte that is not whitespace, NUL or a symbol starts a word. -/
theorem exists_word (plain : Plain c) (noNul : 0 ∉ s) :
    ∃ w l, c :: s = w ++ l ∧ (Token.word w).Valid ∧ (Token.word w).Ends l ∧ l <:+ s := by
  let p : UInt8 → Bool := fun c => !strchr whitespace c && !strchr symbols c
  have isPlain : ∀ x ∈ s, p x = true ↔ Plain x := by
    intro x listed
    have solid : x ≠ 0 := fun zero => noNul (zero ▸ listed)
    simp [p, strchr, Plain, solid]
  refine ⟨c :: s.takeWhile p, s.dropWhile p, ?_, ⟨cons_ne_nil _ _, ?_⟩, ?_,
    dropWhile_suffix _⟩
  · rw [cons_append, takeWhile_append_dropWhile]
  · intro x listed
    rcases mem_cons.mp listed with rfl | later
    · exact plain
    · exact (isPlain x (takeWhile_subset p later)).mp (mem_takeWhile_imp later)
  · intro x first letter
    have stopped := head?_dropWhile_not p s
    rw [first] at stopped
    have inside : x ∈ s := (dropWhile_suffix p).subset (mem_of_mem_head? first)
    exact absurd ((isPlain x inside).mpr letter) (by simpa using stopped)

/-- Every text without NUL has tokens. -/
theorem exists_lexes (noNul : 0 ∉ s) : ∃ ts, Lexes s ts := by
  obtain ⟨n, short⟩ : ∃ n, s.length ≤ n := ⟨_, Nat.le_refl _⟩
  induction n generalizing s with
  | zero =>
    obtain rfl := eq_nil_of_length_eq_zero (Nat.le_zero.mp short)
    exact ⟨[], .done⟩
  | succ n ih =>
    cases s with
    | nil => exact ⟨[], .done⟩
    | cons c s =>
      rw [mem_cons, not_or] at noNul
      have shorter : s.length ≤ n := Nat.le_of_succ_le_succ short
      have later : ∀ {l : List UInt8}, l <:+ s → ∃ ts, Lexes l ts := fun part =>
        ih (fun zero => noNul.2 (part.subset zero)) (part.length_le.trans shorter)
      by_cases blank : c ∈ whitespace
      · obtain ⟨ts, rest⟩ := later suffix_rfl
        exact ⟨ts, .space blank rest⟩
      by_cases symbol : c ∈ symbols
      · obtain ⟨t, l, split, valid, ends, part⟩ := exists_token symbol s
        obtain ⟨ts, rest⟩ := later part
        exact ⟨t :: ts, split ▸ .token valid ends rest⟩
      · obtain ⟨w, l, split, valid, ends, part⟩ :=
          exists_word ⟨Ne.symm noNul.1, blank, symbol⟩ noNul.2
        obtain ⟨ts, rest⟩ := later part
        exact ⟨.word w :: ts, split ▸ .token valid ends rest⟩

end

/-! ### The parser on tokens -/

namespace Tokens

abbrev Tree := Cmd (List UInt8)

def redirs (cmd : Tree) : List Token → Except Fault (Tree × List Token)
  | .redir op :: .word w :: ts => redirs (.redir cmd w op.mode op.fd) ts
  | .redir _ :: _ => .error (.panic "missing file for redirection")
  | ts => .ok (cmd, ts)

def args (ret : Tree) (argc : Nat) : List Token → Except Fault (Tree × List Token)
  | .word w :: ts =>
    if argc + 1 ≥ maxargs then
      .error (.panic "too many args")
    else do
      let (ret, ts) ← redirs (addArg w ret) ts
      args ret (argc + 1) ts
  | .lpar :: _ => .error (.panic "syntax")
  | .redir _ :: _ => .error (.panic "syntax")
  | ts => .ok (ret, ts)
termination_by maxargs - argc

def backs (cmd : Tree) : List Token → Tree × List Token
  | .amp :: ts => backs (.back cmd) ts
  | ts => (cmd, ts)

mutual

def line : Nat → List Token → Except Fault (Tree × List Token)
  | 0, _ => .error .fuel
  | n + 1, ts => do
    let (cmd, ts) ← pipe n ts
    let (cmd, ts) := backs cmd ts
    match ts with
    | .semi :: ts =>
      let (right, ts) ← line n ts
      return (.list cmd right, ts)
    | ts => return (cmd, ts)

def pipe : Nat → List Token → Except Fault (Tree × List Token)
  | 0, _ => .error .fuel
  | n + 1, ts => do
    let (cmd, ts) ← exec n ts
    match ts with
    | .bar :: ts =>
      let (right, ts) ← pipe n ts
      return (.pipe cmd right, ts)
    | ts => return (cmd, ts)

def block : Nat → List Token → Except Fault (Tree × List Token)
  | 0, _ => .error .fuel
  | n + 1, .lpar :: ts => do
    let (cmd, ts) ← line n ts
    match ts with
    | .rpar :: ts => redirs cmd ts
    | _ => .error (.panic "syntax - missing )")
  | _ + 1, _ => .error (.panic "parseblock")

def exec : Nat → List Token → Except Fault (Tree × List Token)
  | 0, _ => .error .fuel
  | n + 1, .lpar :: ts => block n (.lpar :: ts)
  | _ + 1, ts => do
    let (ret, ts) ← redirs (.exec []) ts
    args ret 0 ts

end

end Tokens

/-! ### The parser of the shell agrees with it -/

/-- Two trees of the same form, with strings that are related. -/
inductive Cmd.Rel {σ τ : Type} (R : σ → τ → Prop) : Cmd σ → Cmd τ → Prop
  | exec {argv : List σ} {ws : List τ} (args : List.Forall₂ R argv ws) :
      Rel R (.exec argv) (.exec ws)
  | redir {c : Cmd σ} {d : Cmd τ} {x : σ} {w : τ} (cmd : Rel R c d) (file : R x w)
      (mode fd : Nat) : Rel R (.redir c x mode fd) (.redir d w mode fd)
  | pipe {c c' : Cmd σ} {d d' : Cmd τ} (left : Rel R c d) (right : Rel R c' d') :
      Rel R (.pipe c c') (.pipe d d')
  | list {c c' : Cmd σ} {d d' : Cmd τ} (left : Rel R c d) (right : Rel R c' d') :
      Rel R (.list c c') (.list d d')
  | back {c : Cmd σ} {d : Cmd τ} (cmd : Rel R c d) : Rel R (.back c) (.back d)

theorem Cmd.Rel.addArg {σ τ : Type} {R : σ → τ → Prop} {c : Cmd σ} {d : Cmd τ} {x : σ} {w : τ}
    (rel : Cmd.Rel R c d) (arg : R x w) : Cmd.Rel R (addArg x c) (addArg w d) := by
  induction rel with
  | exec args => exact .exec (rel_append args (.cons arg .nil))
  | redir cmd file mode fd ih => exact .redir ih file mode fd
  | pipe left right => exact .pipe left right
  | list left right => exact .list left right
  | back cmd => exact .back cmd

/-- A position in the line and the tokens from there on. -/
structure At (line : List UInt8) (s : Ptr) (ts : List Token) : Prop where
  inside : s <:+ line
  lexes : Lexes s ts

/-- The parser has come to the same tree and the same place, or to the same fault. -/
inductive Agrees (line : List UInt8) : Except Fault (Cmd Span × Ptr) →
    Except Fault (Tokens.Tree × List Token) → Prop
  | ok {cmd : Cmd Span} {tree : Tokens.Tree} {s : Ptr} {ts : List Token}
      (reads : Cmd.Rel (IsWord line) cmd tree) (here : At line s ts) :
      Agrees line (.ok (cmd, s)) (.ok (tree, ts))
  | error (e : Fault) : Agrees line (.error e) (.error e)

section
variable {line : List UInt8} {s : Ptr} {ts us : List Token} {t : Token} {cmd : Cmd Span}
  {tree : Tokens.Tree} {toks : List Char}

theorem Agrees.bind {m : Except Fault (Cmd Span × Ptr)}
    {m' : Except Fault (Tokens.Tree × List Token)}
    {f : Cmd Span × Ptr → Except Fault (Cmd Span × Ptr)}
    {f' : Tokens.Tree × List Token → Except Fault (Tokens.Tree × List Token)}
    (agrees : Agrees line m m')
    (next : ∀ cmd s tree ts, Cmd.Rel (IsWord line) cmd tree → At line s ts →
      Agrees line (f (cmd, s)) (f' (tree, ts))) : Agrees line (m >>= f) (m' >>= f') := by
  cases agrees with
  | ok reads here => exact next _ _ _ _ reads here
  | error e => exact .error e

theorem At.peek (here : At line s ts) (toks : List Char) : At line (peek s toks).2 ts := by
  rw [peek_snd]
  exact ⟨(skip_suffix s).trans here.inside, here.lexes.skip⟩

theorem At.gettoken (here : At line s (t :: us)) : At line (gettoken s).ps us := by
  obtain ⟨-, inside, lexes, -⟩ := gettoken_cons here.inside here.lexes
  exact ⟨inside, lexes⟩

theorem At.tok (here : At line s (t :: us)) : (Shell.gettoken s).tok = t.code :=
  (gettoken_cons here.inside here.lexes).1

theorem At.word {w : List UInt8} (here : At line s (.word w :: us)) :
    IsWord line (Shell.gettoken s).span w :=
  (gettoken_cons here.inside here.lexes).2.2.2 w rfl

/-- Whether the next token starts with one of the given symbols. -/
def starts (toks : List Char) (ts : List Token) : Bool :=
  (ts.head?.bind Token.lead).any (strchr (bytes toks))

section
variable (here : At line s ts) (reads : Cmd.Rel (IsWord line) cmd tree)
include here reads

theorem parseredirs_agrees : Agrees line (parseredirs cmd s) (Tokens.redirs tree ts) := by
  have seen : ∀ {s ts}, At line s ts → (peek s ['<', '>']).1 = starts ['<', '>'] ts :=
    fun here => peek_fst (by decide +kernel) here.lexes
  fun_induction Tokens.redirs tree ts generalizing cmd s with
  | case1 tree op w ts ih =>
    have next : starts ['<', '>'] (.redir op :: .word w :: ts) = true := by cases op <;> rfl
    have file := (here.peek ['<', '>']).gettoken
    rw [parseredirs, seen here, if_pos next]
    dsimp only
    rw [if_neg (by rw [file.tok]; exact not_not.mpr rfl)]
    apply ih file.gettoken
    rw [(here.peek _).tok]
    cases op <;> exact .redir reads file.word _ _
  | case2 tree op rest noFile =>
    have next : starts ['<', '>'] (.redir op :: rest) = true := by cases op <;> rfl
    have file := (here.peek ['<', '>']).gettoken
    have noWord : (gettoken (gettoken (peek s ['<', '>']).2).ps).tok ≠ 'a'.toUInt8 := by
      cases rest with
      | nil =>
        rw [gettoken_nil file.lexes]
        decide
      | cons t us =>
        rw [file.tok]
        cases t with
        | word w => exact absurd rfl (noFile w us)
        | redir op => cases op <;> decide
        | _ => decide
    rw [parseredirs, seen here, if_pos next]
    dsimp only
    rw [if_pos noWord]
    exact .error _
  | case3 tree ts noFile noRedir =>
    have next : starts ['<', '>'] ts = false := by
      cases ts with
      | nil => rfl
      | cons t us =>
        cases t with
        | redir op => exact absurd rfl (noRedir op us)
        | _ => rfl
    rw [parseredirs, seen here, if_neg (by rw [next]; exact Bool.false_ne_true)]
    exact .ok reads (here.peek _)

theorem parseargs_agrees {argc : Nat} :
    Agrees line (parseargs cmd argc s) (Tokens.args tree argc ts) := by
  have seen : ∀ {s ts}, At line s ts →
      (peek s ['|', ')', '&', ';']).1 = starts ['|', ')', '&', ';'] ts :=
    fun here => peek_fst (by decide +kernel) here.lexes
  have goesOn : ∀ w us, starts ['|', ')', '&', ';'] (.word w :: us) = false := fun _ _ => rfl
  fun_induction Tokens.args tree argc ts generalizing cmd s with
  | case1 tree argc w ts many =>
    rw [parseargs, seen here, goesOn, if_neg Bool.false_ne_true]
    dsimp only
    rw [(here.peek _).tok, Token.code, if_neg (by decide), if_neg (not_not.mpr rfl), if_pos many]
    exact .error _
  | case2 tree argc w ts few ih =>
    rw [parseargs, seen here, goesOn, if_neg Bool.false_ne_true]
    dsimp only
    rw [(here.peek _).tok, Token.code, if_neg (by decide), if_neg (not_not.mpr rfl), if_neg few]
    apply (parseredirs_agrees (here.peek _).gettoken (reads.addArg (here.peek _).word)).bind
    intro cmd s tree ts reads here
    exact ih tree ts here reads
  | case3 tree argc ts =>
    have other : starts ['|', ')', '&', ';'] (.lpar :: ts) = false := rfl
    rw [parseargs, seen here, other, if_neg Bool.false_ne_true]
    dsimp only
    rw [(here.peek _).tok, if_neg (by decide), if_pos (by decide)]
    exact .error _
  | case4 tree argc op ts =>
    have other : starts ['|', ')', '&', ';'] (.redir op :: ts) = false := by cases op <;> rfl
    rw [parseargs, seen here, other, if_neg Bool.false_ne_true]
    dsimp only
    rw [(here.peek _).tok, if_neg (by cases op <;> decide), if_pos (by cases op <;> decide)]
    exact .error _
  | case5 tree argc ts noWord noBlock noRedir =>
    rw [parseargs, seen here]
    cases ts with
    | nil =>
      have stop : starts ['|', ')', '&', ';'] [] = false := rfl
      rw [stop, if_neg Bool.false_ne_true, gettoken_nil (here.peek _).lexes]
      exact .ok reads ⟨nil_suffix, .done⟩
    | cons t us =>
      cases t with
      | word w => exact absurd rfl (noWord w us)
      | lpar => exact absurd rfl (noBlock us)
      | redir op => exact absurd rfl (noRedir op us)
      | _ => exact .ok reads (here.peek _)

theorem parsebacks_agrees : Cmd.Rel (IsWord line) (parsebacks cmd s).1 (Tokens.backs tree ts).1 ∧
      At line (parsebacks cmd s).2 (Tokens.backs tree ts).2 := by
  have seen : ∀ {s ts}, At line s ts → (peek s ['&']).1 = starts ['&'] ts :=
    fun here => peek_fst (by decide +kernel) here.lexes
  fun_induction Tokens.backs tree ts generalizing cmd s with
  | case1 tree ts ih =>
    rw [parsebacks, seen here, if_pos (show starts ['&'] (.amp :: ts) = true from rfl)]
    exact ih (here.peek _).gettoken (.back reads)
  | case2 tree ts noAmp =>
    have next : starts ['&'] ts = false := by
      cases ts with
      | nil => rfl
      | cons t us =>
        cases t with
        | amp => exact absurd rfl (noAmp us)
        | redir op => cases op <;> rfl
        | _ => rfl
    rw [parsebacks, seen here, if_neg (by rw [next]; exact Bool.false_ne_true)]
    exact ⟨reads, here.peek _⟩

end

/-- No two tokens start with the same symbol, apart from `>` and `>>`. -/
theorem Token.lead_inj {t' : Token} {c : UInt8} (single : ∀ op, t ≠ .redir op)
    (lead : t.lead = some c) (same : t'.lead = some c) : t' = t := by
  rw [← lead] at same
  cases t with
  | word w => cases lead
  | redir op => exact absurd rfl (single op)
  | _ =>
    cases t' with
    | word w => cases same
    | redir op => cases op <;> exact absurd same (by decide)
    | _ => first | rfl | exact absurd same (by decide)

/-- The next token is `t`, or it is not and `peek` says so. -/
theorem starts_or {c : Char} (single : ∀ op, t ≠ .redir op) (lead : t.lead = some c.toUInt8)
    (ts : List Token) :
    (∃ us, ts = t :: us ∧ starts [c] ts = true) ∨ (starts [c] ts = false ∧ ∀ us, ts ≠ t :: us) := by
  cases ts with
  | nil => exact .inr ⟨rfl, nofun⟩
  | cons t' us =>
    by_cases same : t' = t
    · refine .inl ⟨us, by rw [same], ?_⟩
      simp [starts, same, lead, strchr, bytes]
    · refine .inr ⟨?_, fun us eq => same (cons.inj eq).1⟩
      cases lead' : t'.lead with
      | none => simp [starts, lead']
      | some x =>
        have other : x ≠ c.toUInt8 := by
          rintro rfl
          exact same (Token.lead_inj single lead lead')
        simp [starts, lead', strchr, bytes, other]

theorem At.peek_eq {c : Char} (here : At line s ts) (symbol : ∀ x ∈ bytes [c], x ∈ symbols) :
    Shell.peek s [c] = (starts [c] ts, skip s) :=
  Prod.ext (peek_fst symbol here.lexes) (peek_snd s [c])

theorem At.skip (here : At line s ts) : At line (skip s) ts :=
  peek_snd s [] ▸ here.peek []

/-- The four functions that call each other agree with those on tokens, at any fuel. -/
theorem parse_agrees (n : Nat) :
    (∀ s ts, At line s ts → Agrees line (parseline n s) (Tokens.line n ts)) ∧
    (∀ s ts, At line s ts → Agrees line (parsepipe n s) (Tokens.pipe n ts)) ∧
    (∀ s ts, At line s ts → Agrees line (parseblock n s) (Tokens.block n ts)) ∧
    ∀ s ts, At line s ts → Agrees line (parseexec n s) (Tokens.exec n ts) := by
  induction n with
  | zero =>
    refine ⟨fun s ts _ => ?_, fun s ts _ => ?_, fun s ts _ => ?_, fun s ts _ => ?_⟩
    · exact .error _
    · exact .error _
    · exact .error _
    · exact .error _
  | succ n ih =>
    obtain ⟨lineAgrees, pipeAgrees, blockAgrees, execAgrees⟩ := ih
    refine ⟨fun s ts here => ?_, fun s ts here => ?_, fun s ts here => ?_, fun s ts here => ?_⟩
    · rw [parseline, Tokens.line]
      apply (pipeAgrees s ts here).bind
      intro cmd s tree ts reads here
      obtain ⟨reads', here'⟩ := parsebacks_agrees here reads
      dsimp only
      rw [here'.peek_eq (c := ';') (by decide +kernel)]
      generalize Tokens.backs tree ts = r at *
      obtain ⟨tree, ts⟩ := r
      dsimp only at reads' here' ⊢
      rcases starts_or (t := .semi) nofun rfl ts with ⟨us, rfl, next⟩ | ⟨next, other⟩
      · rw [next, if_pos rfl]
        apply (lineAgrees _ us here'.skip.gettoken).bind
        intro right s tree' ts readsRight here
        exact .ok (.list reads' readsRight) here
      · rw [next, if_neg Bool.false_ne_true]
        split
        · exact absurd rfl (other _)
        · exact .ok reads' here'.skip
    · rw [parsepipe, Tokens.pipe]
      apply (execAgrees s ts here).bind
      intro cmd s tree ts reads here
      dsimp only
      rw [here.peek_eq (c := '|') (by decide +kernel)]
      dsimp only
      rcases starts_or (t := .bar) nofun rfl ts with ⟨us, rfl, next⟩ | ⟨next, other⟩
      · rw [next, if_pos rfl]
        apply (pipeAgrees _ us here.skip.gettoken).bind
        intro right s tree' ts readsRight here
        exact .ok (.pipe reads readsRight) here
      · rw [next, if_neg Bool.false_ne_true]
        split
        · exact absurd rfl (other _)
        · exact .ok reads here.skip
    · rw [parseblock, here.peek_eq (c := '(') (by decide +kernel)]
      dsimp only
      rcases starts_or (t := .lpar) nofun rfl ts with ⟨us, rfl, next⟩ | ⟨next, other⟩
      · rw [next, Tokens.block, if_neg (by decide)]
        apply (lineAgrees _ us here.skip.gettoken).bind
        intro cmd s tree ts reads here
        dsimp only
        rw [here.peek_eq (c := ')') (by decide +kernel)]
        dsimp only
        rcases starts_or (t := .rpar) nofun rfl ts with ⟨us, rfl, next⟩ | ⟨next, other⟩
        · rw [next, if_neg (by decide)]
          exact parseredirs_agrees here.skip.gettoken reads
        · rw [next, if_pos (by decide)]
          split
          · exact absurd rfl (other _)
          · exact .error _
      · rw [next, if_pos (by decide), Tokens.block]
        · exact .error _
        · exact other
    · rw [parseexec, here.peek_eq (c := '(') (by decide +kernel)]
      dsimp only
      rcases starts_or (t := .lpar) nofun rfl ts with ⟨us, rfl, next⟩ | ⟨next, other⟩
      · rw [next, Tokens.exec, if_pos rfl]
        exact blockAgrees _ _ here.skip
      · rw [next, if_neg Bool.false_ne_true, Tokens.exec]
        · apply (parseredirs_agrees here.skip (.exec .nil)).bind
          intro cmd s tree ts reads here
          exact parseargs_agrees here reads
        · exact other

end

end Shell
