import PinkyOS.ShellTokens

/-!
# The grammar of the shell

`Derives` is the grammar of command lines over tokens, with the tree that a derivation denotes.
The parser accepts what can be derived and returns its tree: by induction on the fuel in one
direction, and on the derivation in the other.
-/
namespace Shell
open List Tokens

open Tokens (Tree)

/-! ### Derivations -/

/-- A redirection: its operator and the name of the file. -/
structure Redir where
  op : Op
  file : List UInt8

def Redir.tokens (r : Redir) : List Token := [.redir r.op, .word r.file]

/-- A command with redirections, the first of them innermost. -/
def redirected (c : Tree) (rs : List Redir) : Tree :=
  rs.foldl (fun c r => .redir c r.file r.op.mode r.op.fd) c

/-- A word of a simple command with the redirections that follow it. -/
structure Arg where
  word : List UInt8
  redirs : List Redir

def Arg.tokens (a : Arg) : List Token := .word a.word :: a.redirs.flatMap Redir.tokens

inductive Sym where
  | line
  | pipe
  | exec
  | block

/-- The tokens can be derived from the symbol, and the derivation denotes the tree. -/
inductive Derives : Sym → List Token → Tree → Prop
  /-- A pipe in the background `n` times. -/
  | line {ts : List Token} {c : Tree} (n : Nat) (pipe : Derives .pipe ts c) :
      Derives .line (ts ++ List.replicate n .amp) (Cmd.back^[n] c)
  | list {ts us : List Token} {c d : Tree} (n : Nat) (pipe : Derives .pipe ts c)
      (line : Derives .line us d) :
      Derives .line (ts ++ List.replicate n .amp ++ .semi :: us) (.list (Cmd.back^[n] c) d)
  | last {ts : List Token} {c : Tree} (exec : Derives .exec ts c) : Derives .pipe ts c
  | pipe {ts us : List Token} {c d : Tree} (exec : Derives .exec ts c) (pipe : Derives .pipe us d) :
      Derives .pipe (ts ++ .bar :: us) (.pipe c d)
  | group {ts : List Token} {c : Tree} (rs : List Redir) (block : Derives .block ts c) :
      Derives .exec (ts ++ rs.flatMap Redir.tokens) (redirected c rs)
  | simple (rs : List Redir) (args : List Arg) (few : args.length < maxargs) :
      Derives .exec (rs.flatMap Redir.tokens ++ args.flatMap Arg.tokens)
        (redirected (.exec (args.map Arg.word)) (rs ++ args.flatMap Arg.redirs))
  | block {ts : List Token} {c : Tree} (line : Derives .line ts c) :
      Derives .block (.lpar :: ts ++ [.rpar]) c

section
variable {c d : Tree} {ts us : List Token} {rs : List Redir} {ws : List (List UInt8)}

theorem redirected_append (c : Tree) (rs rs' : List Redir) :
    redirected c (rs ++ rs') = redirected (redirected c rs) rs' := foldl_append

theorem addArg_redirected (w : List UInt8) (rs : List Redir) (c : Tree) :
    addArg w (redirected c rs) = redirected (addArg w c) rs := by
  induction rs generalizing c with
  | nil => rfl
  | cons r rs ih => exact ih _

/-! ### The loops -/

theorem redirs_sound (ran : redirs c ts = .ok (d, us)) :
    ∃ rs, ts = rs.flatMap Redir.tokens ++ us ∧ d = redirected c rs := by
  fun_induction redirs c ts with
  | case1 c op w ts ih =>
    obtain ⟨rs, rfl, rfl⟩ := ih ran
    exact ⟨⟨op, w⟩ :: rs, rfl, rfl⟩
  | case2 => cases ran
  | case3 =>
    cases ran
    exact ⟨[], rfl, rfl⟩

theorem redirs_complete (stop : ∀ op l, us ≠ .redir op :: l) (rs : List Redir) (c : Tree) :
    redirs c (rs.flatMap Redir.tokens ++ us) = .ok (redirected c rs, us) := by
  induction rs generalizing c with
  | nil =>
    rw [flatMap_nil, nil_append, redirs]
    · rfl
    · exact fun op w l => stop op (.word w :: l)
    · exact stop
  | cons r rs ih => exact ih _

theorem bind_eq_ok {α β : Type} {m : Except Fault α} {f : α → Except Fault β} {b : β}
    (ran : (m >>= f) = .ok b) : ∃ a, m = .ok a ∧ f a = .ok b := by
  cases m with
  | error e => cases ran
  | ok a => exact ⟨a, rfl, ran⟩

theorem args_sound {argc : Nat} (count : ws.length = argc) (few : argc < maxargs)
    (ran : args (redirected (.exec ws) rs) argc ts = .ok (d, us)) :
    ∃ args : List Arg, ts = args.flatMap Arg.tokens ++ us ∧ ws.length + args.length < maxargs ∧
      d = redirected (.exec (ws ++ args.map Arg.word)) (rs ++ args.flatMap Arg.redirs) := by
  generalize isRet : redirected (.exec ws) rs = ret at ran
  fun_induction args ret argc ts generalizing ws rs with
  | case1 => cases ran
  | case2 ret argc w ts more ih =>
    obtain ⟨⟨ret', ts'⟩, first, ran⟩ := bind_eq_ok ran
    obtain ⟨rs', rfl, rfl⟩ := redirs_sound first
    subst isRet
    obtain ⟨args, rfl, less, rfl⟩ := @ih _ ts' (rs ++ rs') (ws ++ [w]) (by simp [count])
      (by omega) (by rw [redirected_append, addArg_redirected]; rfl) ran
    refine ⟨⟨w, rs'⟩ :: args, ?_, ?_, ?_⟩
    · simp [Arg.tokens]
    · simpa [Nat.add_assoc, Nat.add_comm 1] using less
    · simp
  | case3 => cases ran
  | case4 => cases ran
  | case5 =>
    cases ran
    refine ⟨[], rfl, ?_, ?_⟩
    · simpa [count] using few
    · simp [← isRet]

/-- The arguments end where no word, redirection or block follows. -/
theorem args_complete {argc : Nat} (stopRedir : ∀ op l, us ≠ .redir op :: l)
    (stopWord : ∀ w l, us ≠ .word w :: l) (stopBlock : ∀ l, us ≠ .lpar :: l) (args : List Arg)
    (rs : List Redir) (count : ws.length = argc) (few : argc + args.length < maxargs) :
    Tokens.args (redirected (.exec ws) rs) argc (args.flatMap Arg.tokens ++ us) =
      .ok (redirected (.exec (ws ++ args.map Arg.word)) (rs ++ args.flatMap Arg.redirs), us) := by
  induction args generalizing ws rs argc with
  | nil =>
    rw [flatMap_nil, nil_append, Tokens.args]
    · simp
    · exact stopWord
    · exact stopBlock
    · exact stopRedir
  | cons a args ih =>
    have next : ∀ op l, args.flatMap Arg.tokens ++ us ≠ .redir op :: l := by
      intro op l
      cases args with
      | nil => exact stopRedir op l
      | cons a args => simp [Arg.tokens]
    rw [length_cons] at few
    have split : (a :: args).flatMap Arg.tokens ++ us = .word a.word ::
        (a.redirs.flatMap Redir.tokens ++ (args.flatMap Arg.tokens ++ us)) := by
      simp [Arg.tokens]
    rw [split, Tokens.args, if_neg (by omega), addArg_redirected, redirs_complete next,
      ← redirected_append]
    have later := @ih (ws ++ [a.word]) (argc + 1) (rs ++ a.redirs) (by simp [count]) (by omega)
    rw [map_cons, flatMap_cons, ← append_assoc, append_cons]
    exact later

theorem backs_sound (c : Tree) (ts : List Token) : ∃ n us, backs c ts = (Cmd.back^[n] c, us) ∧
    ts = replicate n .amp ++ us := by
  fun_induction backs c ts with
  | case1 c ts ih =>
    obtain ⟨n, us, ran, rfl⟩ := ih
    exact ⟨n + 1, us, ran, rfl⟩
  | case2 c ts => exact ⟨0, ts, rfl, rfl⟩

theorem backs_complete (stop : ∀ l, us ≠ .amp :: l) (n : Nat) (c : Tree) :
    backs c (replicate n .amp ++ us) = (Cmd.back^[n] c, us) := by
  induction n generalizing c with
  | zero =>
    rw [replicate_zero, nil_append, backs]
    · rfl
    · exact stop
  | succ n ih => exact ih _

/-! ### What the parser accepts can be derived -/

theorem parse_sound (n : Nat) :
    (∀ ts c us, line n ts = .ok (c, us) → ∃ l, ts = l ++ us ∧ Derives .line l c) ∧
    (∀ ts c us, pipe n ts = .ok (c, us) → ∃ l, ts = l ++ us ∧ Derives .pipe l c) ∧
    (∀ ts c us, block n ts = .ok (c, us) → ∃ l, ts = l ++ us ∧ Derives .exec l c) ∧
    ∀ ts c us, exec n ts = .ok (c, us) → ∃ l, ts = l ++ us ∧ Derives .exec l c := by
  induction n with
  | zero => exact ⟨nofun, nofun, nofun, nofun⟩
  | succ n ih =>
    obtain ⟨lineSound, pipeSound, blockSound, execSound⟩ := ih
    refine ⟨fun ts c us ran => ?_, fun ts c us ran => ?_, fun ts c us ran => ?_,
      fun ts c us ran => ?_⟩
    · rw [line] at ran
      obtain ⟨⟨c₁, ts₁⟩, first, next⟩ := bind_eq_ok ran
      obtain ⟨l, rfl, pipe⟩ := pipeSound _ _ _ first
      obtain ⟨k, ts₂, looped, rfl⟩ := backs_sound c₁ ts₁
      simp only [looped] at next
      split at next
      · obtain ⟨⟨d, ts₃⟩, second, last⟩ := bind_eq_ok next
        cases last
        obtain ⟨l', rfl, line⟩ := lineSound _ _ _ second
        refine ⟨_, ?_, .list k pipe line⟩
        simp
      · cases next
        refine ⟨_, ?_, .line k pipe⟩
        simp
    · rw [pipe] at ran
      obtain ⟨⟨c₁, ts₁⟩, first, next⟩ := bind_eq_ok ran
      obtain ⟨l, rfl, exec⟩ := execSound _ _ _ first
      dsimp only at next
      split at next
      · obtain ⟨⟨d, ts₂⟩, second, last⟩ := bind_eq_ok next
        cases last
        obtain ⟨l', rfl, pipe⟩ := pipeSound _ _ _ second
        refine ⟨_, ?_, .pipe exec pipe⟩
        simp
      · cases next
        exact ⟨l, rfl, .last exec⟩
    · rw [block.eq_def] at ran
      split at ran
      · cases ran
      · rename_i same
        cases same
        obtain ⟨⟨c₁, ts₁⟩, first, next⟩ := bind_eq_ok ran
        obtain ⟨l, rfl, line⟩ := lineSound _ _ _ first
        dsimp only at next
        split at next
        · obtain ⟨rs, rfl, rfl⟩ := redirs_sound next
          refine ⟨_, ?_, .group rs (.block line)⟩
          simp
        · cases next
      · cases ran
    · rw [exec.eq_def] at ran
      split at ran
      · cases ran
      · rename_i same
        cases same
        exact blockSound _ _ _ ran
      · obtain ⟨⟨ret, ts₁⟩, first, next⟩ := bind_eq_ok ran
        obtain ⟨rs, rfl, rfl⟩ := redirs_sound first
        obtain ⟨args, rfl, few, rfl⟩ := args_sound rfl (by decide) next
        refine ⟨_, ?_, .simple rs args (by simpa using few)⟩
        simp

/-! ### What can be derived is accepted -/

/-- The tokens that may follow what is derived from a symbol. -/
def Sym.mayPrecede : Sym → Token → Prop
  | .line, t => t = .rpar
  | .pipe, t => t = .rpar ∨ t = .amp ∨ t = .semi
  | .exec, t => t = .rpar ∨ t = .amp ∨ t = .semi ∨ t = .bar
  | .block, t => ∀ op, t ≠ .redir op

def Follows (sym : Sym) (us : List Token) : Prop := ∀ t ∈ us.head?, sym.mayPrecede t

theorem Follows.ne {sym : Sym} {t : Token} (follows : Follows sym us) (other : ¬ sym.mayPrecede t)
    (l : List Token) : us ≠ t :: l := by
  rintro rfl
  exact other (follows t rfl)

/-- The parser, with enough fuel, finds the tree of a derivation and stops after its tokens. For a
block it takes the redirections too. -/
def Accepts : Sym → List Token → Tree → Prop
  | .line, ts, c => ∀ us n, Follows .line us → 4 * ts.length + 4 ≤ n →
      Tokens.line n (ts ++ us) = .ok (c, us)
  | .pipe, ts, c => ∀ us n, Follows .pipe us → 4 * ts.length + 3 ≤ n →
      Tokens.pipe n (ts ++ us) = .ok (c, us)
  | .exec, ts, c => ∀ us n, Follows .exec us → 4 * ts.length + 2 ≤ n →
      Tokens.exec n (ts ++ us) = .ok (c, us)
  | .block, ts, c => ∃ ts', ts = .lpar :: ts' ∧ ∀ rs us n, Follows .block us →
      4 * ts.length + 1 ≤ n →
      Tokens.block n (ts ++ (rs.flatMap Redir.tokens ++ us)) = .ok (redirected c rs, us)

/-- What follows the tokens of a pipe in the background. -/
theorem Follows.amps {k : Nat} (follows : ∀ t ∈ us.head?, t = .rpar ∨ t = .semi) :
    Follows .pipe (replicate k .amp ++ us) := by
  intro t first
  cases k with
  | zero =>
    rcases follows t first with rfl | rfl
    · exact .inl rfl
    · exact .inr (.inr rfl)
  | succ k =>
    cases first
    exact .inr (.inl rfl)

theorem ok_bind {α β : Type} (a : α) (f : α → Except Fault β) : (.ok a >>= f) = f a := rfl

theorem Derives.accepts {sym : Sym} (derives : Derives sym ts c) : Accepts sym ts c := by
  induction derives with
  | @line ts c k pipe ih =>
    intro us n follows enough
    obtain ⟨n, rfl⟩ : ∃ m, n = m + 1 := ⟨n - 1, by omega⟩
    have next : Follows .pipe (replicate k .amp ++ us) :=
      .amps fun t first => .inl (follows t first)
    rw [length_append] at enough
    rw [Tokens.line, append_assoc, ih _ n next (by omega), ok_bind]
    dsimp only
    rw [backs_complete (follows.ne (by simp [Sym.mayPrecede]))]
    dsimp only
    split
    · exact absurd (follows .semi rfl) (by simp [Sym.mayPrecede])
    · rfl
  | @list ts us c d k pipe line ihPipe ihLine =>
    intro vs n follows enough
    obtain ⟨n, rfl⟩ : ∃ m, n = m + 1 := ⟨n - 1, by omega⟩
    have next : Follows .pipe (replicate k .amp ++ (.semi :: us ++ vs)) :=
      .amps fun t first => .inr (Option.some.inj first).symm
    simp only [length_append, length_cons] at enough
    rw [Tokens.line, append_assoc, append_assoc, ihPipe _ n next (by omega), ok_bind]
    dsimp only
    rw [backs_complete fun l same => by cases same]
    dsimp only
    rw [cons_append]
    dsimp only
    rw [ihLine vs n follows (by omega), ok_bind]
    rfl
  | last exec ih =>
    intro us n follows enough
    obtain ⟨n, rfl⟩ : ∃ m, n = m + 1 := ⟨n - 1, by omega⟩
    have next : Follows .exec us := by
      intro t first
      rcases follows t first with rfl | rfl | rfl
      · exact .inl rfl
      · exact .inr (.inl rfl)
      · exact .inr (.inr (.inl rfl))
    rw [Tokens.pipe, ih us n next (by omega), ok_bind]
    dsimp only
    split
    · exact absurd (follows .bar rfl) (by simp [Sym.mayPrecede])
    · rfl
  | @pipe ts us c d exec pipe ihExec ihPipe =>
    intro vs n follows enough
    obtain ⟨n, rfl⟩ : ∃ m, n = m + 1 := ⟨n - 1, by omega⟩
    have next : Follows .exec (.bar :: us ++ vs) := by
      intro t first
      cases first
      exact .inr (.inr (.inr rfl))
    simp only [length_append, length_cons] at enough
    rw [Tokens.pipe, append_assoc, ihExec _ n next (by omega), ok_bind, cons_append]
    dsimp only
    rw [ihPipe vs n follows (by omega), ok_bind]
    rfl
  | @group ts c rs block ih =>
    intro us n follows enough
    obtain ⟨n, rfl⟩ : ∃ m, n = m + 1 := ⟨n - 1, by omega⟩
    obtain ⟨ts', rfl, ran⟩ := ih
    have next : Follows .block us := by
      intro t first op same
      have allowed := follows t first
      simp [same, Sym.mayPrecede] at allowed
    rw [length_append] at enough
    have found := ran rs us n next (by omega)
    rw [append_assoc, cons_append, Tokens.exec]
    exact found
  | simple rs args few =>
    intro us n follows enough
    obtain ⟨n, rfl⟩ : ∃ m, n = m + 1 := ⟨n - 1, by omega⟩
    have stopRedir : ∀ op l, us ≠ .redir op :: l := fun op => follows.ne (by simp [Sym.mayPrecede])
    have stopWord : ∀ w l, us ≠ .word w :: l := fun w => follows.ne (by simp [Sym.mayPrecede])
    have stopBlock : ∀ l, us ≠ .lpar :: l := follows.ne (by simp [Sym.mayPrecede])
    have noRedir : ∀ op l, args.flatMap Arg.tokens ++ us ≠ .redir op :: l := by
      cases args with
      | nil => exact stopRedir
      | cons a args => simp [Arg.tokens]
    have noBlock : ∀ l, rs.flatMap Redir.tokens ++ (args.flatMap Arg.tokens ++ us) ≠ .lpar :: l := by
      cases rs with
      | cons r rs => simp [Redir.tokens]
      | nil =>
        cases args with
        | nil => exact stopBlock
        | cons a args => simp [Arg.tokens]
    have none : ([] : List (List UInt8)).length = 0 := rfl
    have found := args_complete stopRedir stopWord stopBlock args rs none (by simpa using few)
    rw [append_assoc, Tokens.exec]
    · rw [redirs_complete noRedir, ok_bind]
      exact found
    · exact noBlock
  | @block ts c line ih =>
    refine ⟨ts ++ [.rpar], rfl, fun rs us n follows enough => ?_⟩
    obtain ⟨n, rfl⟩ : ∃ m, n = m + 1 := ⟨n - 1, by omega⟩
    have next : Follows .line (.rpar :: (rs.flatMap Redir.tokens ++ us)) := by
      intro t first
      cases first
      rfl
    simp only [cons_append, length_cons, length_append] at enough
    have found := ih _ n next (by omega)
    have stop : ∀ op l, us ≠ .redir op :: l := fun op => follows.ne fun allowed => allowed op rfl
    have split : .lpar :: ts ++ [.rpar] ++ (rs.flatMap Redir.tokens ++ us) =
        .lpar :: (ts ++ .rpar :: (rs.flatMap Redir.tokens ++ us)) := by simp
    rw [split, Tokens.block, found, ok_bind]
    exact redirs_complete stop rs c

/-! ### The fuel is enough -/

def Fueled {α : Type} (m : Except Fault α) : Prop := m ≠ .error .fuel

theorem Fueled.ok {α : Type} (a : α) : Fueled (.ok a) := by simp [Fueled]

theorem Fueled.bind {α β : Type} {m : Except Fault α} {f : α → Except Fault β} (first : Fueled m)
    (next : ∀ a, m = .ok a → Fueled (f a)) : Fueled (m >>= f) := by
  cases m with
  | ok a => exact next a rfl
  | error e =>
    intro ran
    cases ran
    exact first rfl

theorem redirs_fueled (c : Tree) (ts : List Token) : Fueled (redirs c ts) := by
  fun_induction redirs c ts with
  | case1 c op w ts ih => exact ih
  | case2 => simp [Fueled]
  | case3 => simp [Fueled]

theorem args_fueled (c : Tree) (argc : Nat) (ts : List Token) : Fueled (args c argc ts) := by
  fun_induction args c argc ts with
  | case1 => simp [Fueled]
  | case2 c argc w ts more ih =>
    exact (redirs_fueled _ ts).bind fun a _ => ih a.1 a.2
  | case3 => simp [Fueled]
  | case4 => simp [Fueled]
  | case5 => simp [Fueled]

/-- A call takes a token or is the next in the order line, pipe, exec, block. -/
theorem parse_fueled (n : Nat) : (∀ ts, 4 * ts.length + 4 ≤ n → Fueled (line n ts)) ∧
    (∀ ts, 4 * ts.length + 3 ≤ n → Fueled (pipe n ts)) ∧
    (∀ ts, 4 * ts.length + 1 ≤ n → Fueled (block n ts)) ∧
    ∀ ts, 4 * ts.length + 2 ≤ n → Fueled (exec n ts) := by
  induction n with
  | zero =>
    refine ⟨fun ts enough => ?_, fun ts enough => ?_, fun ts enough => ?_, fun ts enough => ?_⟩
    · omega
    · omega
    · omega
    · omega
  | succ n ih =>
    obtain ⟨lineFueled, pipeFueled, blockFueled, execFueled⟩ := ih
    obtain ⟨lineSound, pipeSound, blockSound, execSound⟩ := parse_sound n
    refine ⟨fun ts enough => ?_, fun ts enough => ?_, fun ts enough => ?_, fun ts enough => ?_⟩
    · rw [line]
      refine (pipeFueled ts (by omega)).bind fun r first => ?_
      obtain ⟨c, us⟩ := r
      obtain ⟨l, rfl, -⟩ := pipeSound _ _ _ first
      obtain ⟨k, vs, looped, rfl⟩ := backs_sound c us
      simp only [looped]
      split
      · simp only [length_append, length_cons] at enough
        exact (lineFueled _ (by omega)).bind fun _ _ => .ok _
      · exact .ok _
    · rw [pipe]
      refine (execFueled ts (by omega)).bind fun r first => ?_
      obtain ⟨c, us⟩ := r
      obtain ⟨l, rfl, -⟩ := execSound _ _ _ first
      dsimp only
      split
      · simp only [length_append, length_cons] at enough
        exact (pipeFueled _ (by omega)).bind fun _ _ => .ok _
      · exact .ok _
    · rcases starts_or (t := .lpar) (c := '(') (by simp) rfl ts with ⟨us, rfl, -⟩ | ⟨-, other⟩
      · rw [length_cons] at enough
        rw [block]
        refine (lineFueled us (by omega)).bind fun _ _ => ?_
        dsimp only
        split
        · exact redirs_fueled _ _
        · simp [Fueled]
      · rw [block]
        · simp [Fueled]
        · exact other
    · rcases starts_or (t := .lpar) (c := '(') (by simp) rfl ts with ⟨us, rfl, -⟩ | ⟨-, other⟩
      · rw [exec]
        exact blockFueled _ (by omega)
      · rw [exec]
        · exact (redirs_fueled _ ts).bind fun a _ => args_fueled _ _ _
        · exact other

end

/-! ### The strings are terminated -/

/-- The strings of a tree, in the order in which `nulterminate` gets to them. -/
def Cmd.strings {σ : Type} : Cmd σ → List σ
  | .exec argv => argv
  | .redir cmd file _ _ => cmd.strings ++ [file]
  | .pipe left right => left.strings ++ right.strings
  | .list left right => left.strings ++ right.strings
  | .back cmd => cmd.strings

theorem nulterminate_eq (cmd : Cmd Span) (line : List UInt8) :
    nulterminate cmd line = (cmd.strings.map Span.eq).foldl terminate line := by
  induction cmd generalizing line with
  | exec argv => rw [nulterminate, Cmd.strings, foldl_map]
  | redir cmd file mode fd ih => simp [nulterminate, Cmd.strings, ih]
  | pipe left right ihLeft ihRight => simp [nulterminate, Cmd.strings, ihLeft, ihRight]
  | list left right ihLeft ihRight => simp [nulterminate, Cmd.strings, ihLeft, ihRight]
  | back cmd ih => exact ih line

theorem Cmd.Rel.map_eq {σ τ : Type} {R : σ → τ → Prop} {c : Cmd σ} {d : Cmd τ} {f : σ → τ}
    (rel : Cmd.Rel R c d) (same : ∀ x ∈ c.strings, ∀ w, R x w → f x = w) : c.map f = d := by
  induction rel with
  | exec args =>
    rw [Cmd.map]
    congr 1
    induction args with
    | nil => rfl
    | cons first rest ih =>
      rw [map_cons, same _ (mem_cons_self ..) _ first,
        ih fun x listed => same x (mem_cons_of_mem _ listed)]
  | redir cmd file mode fd ih =>
    rw [Cmd.map, ih fun x listed => same x (mem_append_left _ listed),
      same _ (mem_append_right _ (mem_singleton_self _)) _ file]
  | pipe left right ihLeft ihRight =>
    rw [Cmd.map, ihLeft fun x listed => same x (mem_append_left _ listed),
      ihRight fun x listed => same x (mem_append_right _ listed)]
  | list left right ihLeft ihRight =>
    rw [Cmd.map, ihLeft fun x listed => same x (mem_append_left _ listed),
      ihRight fun x listed => same x (mem_append_right _ listed)]
  | back cmd ih => rw [Cmd.map, ih same]

theorem Cmd.Rel.exists_of_mem {σ τ : Type} {R : σ → τ → Prop} {c : Cmd σ} {d : Cmd τ}
    (rel : Cmd.Rel R c d) {x : σ} (listed : x ∈ c.strings) : ∃ w, R x w := by
  induction rel with
  | exec args =>
    induction args with
    | nil => cases listed
    | cons first rest ih =>
      rcases mem_cons.mp listed with rfl | later
      · exact ⟨_, first⟩
      · exact ih later
  | redir cmd file mode fd ih =>
    rcases mem_append.mp listed with early | last
    · exact ih early
    · exact ⟨_, mem_singleton.mp last ▸ file⟩
  | pipe left right ihLeft ihRight =>
    rcases mem_append.mp listed with early | late
    · exact ihLeft early
    · exact ihRight late
  | list left right ihLeft ihRight =>
    rcases mem_append.mp listed with early | late
    · exact ihLeft early
    · exact ihRight late
  | back cmd ih => exact ih listed

section
variable {line text : List UInt8} {p : Ptr} {x : Span} {w : List UInt8}

/-- A line in which only bytes that belong to no word are overwritten. -/
structure Cut (line text : List UInt8) : Prop where
  length : text.length = line.length
  plain : ∀ (k : Nat) (c : UInt8), (line)[k]? = some c → Plain c → text[k]? = some c

/-- A place where a word may end. -/
structure IsEnd (line : List UInt8) (p : Ptr) : Prop where
  inside : p <:+ line
  ends : ∀ c ∈ p.head?, ¬ Plain c

theorem IsWord.isEnd (word : IsWord line x w) : IsEnd line x.eq := by
  refine ⟨IsSuffix.trans ?_ word.inside, word.ends⟩
  rw [word.text]
  exact suffix_append _ _

theorem Cut.terminate (cut : Cut line text) (isEnd : IsEnd line p) :
    Cut line (terminate text p) := by
  obtain ⟨front, rfl⟩ := isEnd.inside
  refine ⟨(length_set ..).trans cut.length, fun k c here plain => ?_⟩
  have place : text.length - p.length = front.length := by
    rw [cut.length, length_append, Nat.add_sub_cancel]
  have other : front.length ≠ k := by
    rintro rfl
    rw [getElem?_append_right (Nat.le_refl _), Nat.sub_self, ← head?_eq_getElem?] at here
    exact isEnd.ends c here plain
  rw [Shell.terminate, place, getElem?_set_ne other]
  exact cut.plain k c here plain

/-- There is a NUL at `p`, or it is the end of the line. -/
def Ended (text : List UInt8) (p : Ptr) : Prop := ∀ c, text[text.length - p.length]? = some c → c = 0

theorem Ended.terminate (ended : Ended text p) (q : Ptr) : Ended (terminate text q) p := by
  intro c here
  rw [Shell.terminate, length_set, getElem?_set] at here
  split at here
  · split at here
    · exact (Option.some.inj here).symm
    · cases here
  · exact ended c here

theorem ended_terminate (text : List UInt8) (p : Ptr) : Ended (terminate text p) p := by
  intro c here
  rw [Shell.terminate, length_set, getElem?_set] at here
  split at here
  · split at here
    · exact (Option.some.inj here).symm
    · cases here
  · rename_i other
    exact absurd rfl other

/-- After all ends of words have been overwritten. -/
theorem foldl_terminate (ps : List Ptr) (cut : Cut line text) (ends : ∀ p ∈ ps, IsEnd line p) :
    Cut line (ps.foldl terminate text) ∧ ∀ p, (p ∈ ps ∨ Ended text p) →
      Ended (ps.foldl terminate text) p := by
  induction ps generalizing text with
  | nil => exact ⟨cut, fun p h => h.resolve_left not_mem_nil⟩
  | cons q ps ih =>
    obtain ⟨cut', ended⟩ := ih (cut.terminate (ends q (mem_cons_self ..)))
      fun p listed => ends p (mem_cons_of_mem _ listed)
    refine ⟨cut', fun p how => ended p ?_⟩
    rcases how with listed | early
    · rcases mem_cons.mp listed with rfl | later
      · exact .inr (ended_terminate text p)
      · exact .inl later
    · exact .inr (early.terminate q)

/-- The bytes of a word are kept. -/
theorem IsWord.drop_eq (word : IsWord line x w) (cut : Cut line text) :
    text.drop (text.length - x.q.length) = w ++ text.drop (text.length - x.eq.length) := by
  obtain ⟨front, isLine⟩ := word.inside
  have length : line.length = front.length + (w.length + x.eq.length) := by
    rw [← isLine, length_append, word.text, length_append]
  have start : text.length - x.q.length = front.length := by
    rw [cut.length, ← isLine, length_append, Nat.add_sub_cancel]
  have stop : text.length - x.eq.length = front.length + w.length := by
    rw [cut.length]
    omega
  have kept : (text.drop front.length).take w.length = w := by
    apply ext_getElem?
    intro k
    by_cases inside : k < w.length
    · have here : (line)[front.length + k]? = some w[k] := by
        rw [← isLine, word.text, getElem?_append_right (Nat.le_add_right ..),
          Nat.add_sub_cancel_left, getElem?_append_left inside, getElem?_eq_getElem]
      rw [getElem?_take_of_lt inside, getElem?_drop,
        cut.plain _ _ here (word.plain _ (getElem_mem inside)), getElem?_eq_getElem]
    · rw [getElem?_eq_none, getElem?_eq_none (Nat.le_of_not_lt inside)]
      rw [length_take]
      omega
  rw [start, stop, ← take_append_drop w.length (text.drop front.length), kept, drop_drop]

theorem IsWord.noNul (word : IsWord line x w) : 0 ∉ w := fun listed => (word.plain 0 listed).1 rfl

theorem Ended.head (ended : Ended text p) :
    ∀ c ∈ (text.drop (text.length - p.length)).head?, c = 0 := by
  intro c first
  apply ended c
  rwa [Option.mem_def, head?_drop] at first

/-- A word is read back from a line in which it is terminated. -/
theorem IsWord.stringAt (word : IsWord line x w) (cut : Cut line text) (ended : Ended text x.eq) :
    stringAt text x.q = w := by
  have stops := ended.head
  rw [Shell.stringAt, word.drop_eq cut, takeWhile_append_of_pos]
  · cases rest : text.drop (text.length - x.eq.length) with
    | nil => simp
    | cons c l =>
      rw [rest] at stops
      simp [stops c rfl]
  · intro c listed
    simpa using (word.plain c listed).1

/-- `nulterminate` writes behind the strings of the tree only, and behind every one of them. -/
theorem nulterminate_cut {cmd : Cmd Span} {tree : Tree} (reads : Cmd.Rel (IsWord line) cmd tree) :
    Cut line (nulterminate cmd line) ∧ ∀ x ∈ cmd.strings, Ended (nulterminate cmd line) x.eq := by
  have ends : ∀ p ∈ cmd.strings.map Span.eq, IsEnd line p := by
    intro p listed
    obtain ⟨x, inside, rfl⟩ := mem_map.mp listed
    obtain ⟨w, word⟩ := reads.exists_of_mem inside
    exact word.isEnd
  obtain ⟨cut, ended⟩ := foldl_terminate _ ⟨rfl, fun _ _ here _ => here⟩ ends
  rw [nulterminate_eq]
  exact ⟨cut, fun x listed => ended _ (.inl (mem_map_of_mem listed))⟩

theorem nulterminate_reads {cmd : Cmd Span} {tree : Tree} (reads : Cmd.Rel (IsWord line) cmd tree) :
    cmd.map (fun x => stringAt (nulterminate cmd line) x.q) = tree := by
  obtain ⟨cut, ended⟩ := nulterminate_cut reads
  apply reads.map_eq
  intro x listed w word
  exact word.stringAt cut (ended x listed)

end

/-! ### The parser and its grammar -/

section
variable {s : List UInt8} {ts : List Token}

theorem Lexes.length_le (lexes : Lexes s ts) : ts.length ≤ s.length := by
  induction lexes with
  | done => exact Nat.le_refl 0
  | space blank rest ih => exact Nat.le_succ_of_le ih
  | token valid ends rest ih =>
    obtain ⟨c, l, spelled, -⟩ := valid.spell_eq
    rw [length_cons, length_append, spelled, length_cons]
    omega

theorem Lexes.skip_eq_nil (lexes : Lexes s ts) : Shell.skip s = [] ↔ ts = [] := by
  cases ts with
  | nil => exact iff_of_true lexes.nil_inv rfl
  | cons t us =>
    obtain ⟨l, start, valid, -⟩ := lexes.cons_inv
    obtain ⟨c, l', spelled, -⟩ := valid.spell_eq
    rw [start, spelled]
    exact iff_of_false nofun nofun

/-- The line as the two parsers see it. -/
theorem parsecmd_agrees (s : CString) (lexes : Lexes s.text ts) :
    Agrees s.text (parseline (4 * s.text.length + 4) s.text)
      (line (4 * s.text.length + 4) ts) :=
  (parse_agrees _).1 s.text ts ⟨suffix_rfl, lexes⟩

/-- A line that is accepted: its tokens are derived from the grammar, the strings of the tree are
the words of the line, and all of them have been terminated. -/
theorem parsecmd_ok {s : CString} {cmd : Cmd Span} {text : List UInt8}
    (ran : parsecmd s = .ok (cmd, text)) :
    ∃ ts tree, Lexes s.text ts ∧ Derives .line ts tree ∧ Cmd.Rel (IsWord s.text) cmd tree ∧
      text = nulterminate cmd s.text := by
  obtain ⟨ts, lexes⟩ := exists_lexes s.noNul
  have agrees := parsecmd_agrees s lexes
  obtain ⟨⟨cmd', rest⟩, parsed, next⟩ := bind_eq_ok ran
  dsimp only at next
  split at next
  case isTrue => cases next
  case isFalse nothing =>
    cases next
    rw [parsed] at agrees
    generalize found : line (4 * s.text.length + 4) ts = result at agrees
    cases agrees with
    | ok reads here =>
      rw [peek_snd, not_not, here.lexes.skip_eq_nil] at nothing
      obtain ⟨l, isTs, derives⟩ := (parse_sound _).1 _ _ _ found
      rw [nothing, append_nil] at isTs
      exact ⟨ts, _, lexes, isTs ▸ derives, reads, rfl⟩

/-- `parsecmd` returns the tree that the tokens of the line stand for. -/
theorem parses_iff (s : CString) (c : Tree) :
    Parses s c ↔ ∃ ts, Lexes s.text ts ∧ Derives .line ts c := by
  constructor
  · rintro ⟨cmd, text, ran, rfl⟩
    obtain ⟨ts, tree, lexes, derives, reads, rfl⟩ := parsecmd_ok ran
    rw [nulterminate_reads reads]
    exact ⟨ts, lexes, derives⟩
  · rintro ⟨ts, lexes, derives⟩
    have agrees := parsecmd_agrees s lexes
    have short := lexes.length_le
    have found := derives.accepts [] (4 * s.text.length + 4) nofun (by omega)
    rw [append_nil] at found
    rw [found] at agrees
    generalize parsed : parseline (4 * s.text.length + 4) s.text = result at agrees
    cases agrees with
    | ok reads here =>
      refine ⟨_, _, ?_, nulterminate_reads reads⟩
      rw [parsecmd, parsed, ok_bind]
      dsimp only
      rw [if_neg (by rw [peek_snd, here.lexes.nil_inv]; exact not_not.mpr rfl)]
      rfl

/-- The token that the parser has recorded: the bytes from `q` up to `eq`. -/
def Span.token (x : Span) : List UInt8 := x.q.take (x.q.length - x.eq.length)

/-- The buffer of a line with its NUL holds the string `w`, closed by a NUL, at the pointer `p`. -/
def HoldsString (buffer : List UInt8) (p : Ptr) (w : List UInt8) : Prop :=
  0 ∉ w ∧ w ++ [0] <+: buffer.drop (buffer.length - (p.length + 1))

theorem IsWord.token_eq {line w : List UInt8} {x : Span} (word : IsWord line x w) :
    x.token = w := by
  rw [Span.token, word.text, length_append, Nat.add_sub_cancel, take_left]

theorem IsWord.holdsString {line text w : List UInt8} {x : Span} (word : IsWord line x w)
    (cut : Cut line text) (ended : Ended text x.eq) : HoldsString (text ++ [0]) x.q w := by
  have stops := ended.head
  refine ⟨word.noNul, ?_⟩
  rw [length_append, length_singleton, Nat.add_sub_add_right,
    drop_append_of_le_length (Nat.sub_le ..), word.drop_eq cut, append_assoc,
    prefix_append_right_inj]
  cases rest : text.drop (text.length - x.eq.length) with
  | nil => exact prefix_rfl
  | cons c l =>
    rw [rest] at stops
    rw [stops c rfl]
    exact prefix_append [0] (l ++ [0])

/-- Each string of an accepted line is its token: the pointers are into the line, and after
`nulterminate` the buffer holds, where the string starts, the recorded text and a NUL. -/
theorem nulterminate_exact (s : CString) (cmd : Cmd Span) (line : List UInt8)
    (accepted : parsecmd s = .ok (cmd, line)) :
    line.length = s.text.length ∧ ∀ x ∈ cmd.strings, x.eq <:+ x.q ∧ x.q <:+ s.text ∧
      HoldsString (line ++ [0]) x.q x.token := by
  obtain ⟨ts, tree, -, -, reads, rfl⟩ := parsecmd_ok accepted
  obtain ⟨cut, ended⟩ := nulterminate_cut reads
  refine ⟨cut.length, ?_⟩
  intro x listed
  obtain ⟨w, word⟩ := reads.exists_of_mem listed
  have tail : x.eq <:+ x.q := ⟨w, word.text.symm⟩
  exact ⟨tail, word.inside, word.token_eq ▸ word.holdsString cut (ended x listed)⟩

/-- In the line `a <b|c` the NUL of `b` is written over the pipe symbol. -/
theorem nulterminate_exact_pipe :
    let text := bytes ['a', ' ', '<', 'b', '|', 'c']
    let cmd : Cmd Span := .pipe
      (.redir (.exec [⟨text, text.drop 1⟩]) ⟨text.drop 3, text.drop 4⟩ 0 0)
      (.exec [⟨text.drop 5, []⟩])
    let line := bytes ['a', '\x00', '<', 'b', '\x00', 'c']
    parsecmd ⟨text, by decide⟩ = .ok (cmd, line) ∧
      ∀ x ∈ cmd.strings, HoldsString (line ++ [0]) x.q x.token := by
  intro text cmd line
  have ran : parsecmd ⟨text, by decide⟩ = .ok (cmd, line) := by with_unfolding_all rfl
  refine ⟨ran, ?_⟩
  intro x listed
  exact ((nulterminate_exact _ _ _ ran).2 x listed).2.2

theorem parsecmd_fueled (s : CString) : parsecmd s ≠ .error .fuel := by
  obtain ⟨ts, lexes⟩ := exists_lexes s.noNul
  have agrees := parsecmd_agrees s lexes
  have short := lexes.length_le
  have enough := (parse_fueled (4 * s.text.length + 4)).1 ts (by omega)
  have fueled : Fueled (parseline (4 * s.text.length + 4) s.text) := by
    generalize parsed : parseline (4 * s.text.length + 4) s.text = result at agrees
    generalize line (4 * s.text.length + 4) ts = result' at agrees enough
    cases agrees with
    | ok reads here => nofun
    | error e =>
      intro same
      cases same
      exact enough rfl
  refine fueled.bind fun ⟨cmd, rest⟩ _ => ?_
  dsimp only
  split
  · nofun
  · nofun

end

/-! ### Rendering -/

/-- A word of the grammar. -/
abbrev Word := { w : List UInt8 // (Token.word w).Valid }

/-- A tree built from words and operators. -/
inductive Command where
  | exec (argv : List Word) (few : argv.length < maxargs)
  | redir (cmd : Command) (op : Op) (file : Word)
  | pipe (left right : Command)
  | list (left right : Command)
  | back (cmd : Command)

namespace Command

def tree : Command → Tree
  | exec argv _ => .exec (argv.map Subtype.val)
  | redir cmd op file => .redir cmd.tree file.val op.mode op.fd
  | pipe left right => .pipe left.tree right.tree
  | list left right => .list left.tree right.tree
  | back cmd => .back cmd.tree

/-- The command with parentheses around each of its parts. -/
def tokens : Command → List Token
  | exec argv _ => argv.map fun w => .word w.val
  | redir cmd op file => .lpar :: cmd.tokens ++ [.rpar, .redir op, .word file.val]
  | pipe left right =>
    .lpar :: left.tokens ++ [.rpar] ++ .bar :: (.lpar :: right.tokens ++ [.rpar])
  | list left right =>
    .lpar :: left.tokens ++ [.rpar] ++ .semi :: (.lpar :: right.tokens ++ [.rpar])
  | back cmd => .lpar :: cmd.tokens ++ [.rpar] ++ [.amp]

/-- The text of a command, with a blank after each token. -/
def render (c : Command) : List UInt8 := c.tokens.flatMap fun t => t.spell ++ bytes [' ']

theorem derives (c : Command) : Derives .line c.tokens c.tree := by
  have grouped : ∀ {ts : List Token} {c : Tree}, Derives .line ts c →
      Derives .exec (.lpar :: ts ++ [.rpar]) c := by
    intro ts c line
    simpa [redirected] using Derives.group [] (.block line)
  induction c with
  | exec argv few =>
    have words : ∀ ws : List Word, (ws.map fun w => Arg.mk w.val []).flatMap Arg.tokens =
        ws.map fun w => Token.word w.val := by
      intro ws
      induction ws with
      | nil => rfl
      | cons w ws ih => exact congrArg (Token.word w.val :: ·) ih
    have plain : ∀ ws : List Word, (ws.map fun w => Arg.mk w.val []).flatMap Arg.redirs = [] := by
      intro ws
      induction ws with
      | nil => rfl
      | cons w ws ih => exact ih
    have simple := Derives.line 0 (.last (.simple [] (argv.map fun w => ⟨w.val, []⟩)
      (by simpa using few)))
    simp only [flatMap_nil, nil_append, words, plain, map_map, replicate_zero,
      append_nil, Function.iterate_zero, id_eq] at simple
    exact simple
  | redir cmd op file ih =>
    have redirection := Derives.line 0 (.last (.group [⟨op, file.val⟩] (.block ih)))
    simpa [redirected, Redir.tokens, tokens, tree] using redirection
  | pipe left right ihLeft ihRight =>
    have both := Derives.line 0 (.pipe (grouped ihLeft) (.last (grouped ihRight)))
    simpa [tokens, tree] using both
  | list left right ihLeft ihRight =>
    have both := Derives.list 0 (.last (grouped ihLeft)) (.line 0 (.last (grouped ihRight)))
    simpa [tokens, tree] using both
  | back cmd ih =>
    have once := Derives.line 1 (.last (grouped ih))
    simpa [tokens, tree] using once

theorem valid (c : Command) : ∀ t ∈ c.tokens, t.Valid := by
  induction c with
  | exec argv few =>
    intro t listed
    obtain ⟨w, -, rfl⟩ := mem_map.mp listed
    exact w.property
  | redir cmd op file ih => simpa [tokens, Token.Valid, or_imp, forall_and] using ⟨ih, file.property⟩
  | pipe left right ihLeft ihRight =>
    simpa [tokens, Token.Valid, or_imp, forall_and] using ⟨ihLeft, ihRight⟩
  | list left right ihLeft ihRight =>
    simpa [tokens, Token.Valid, or_imp, forall_and] using ⟨ihLeft, ihRight⟩
  | back cmd ih => simpa [tokens, Token.Valid, or_imp, forall_and] using ih

theorem lexes (c : Command) : Lexes c.render c.tokens := by
  have blanks : ∀ ts : List Token, (∀ t ∈ ts, t.Valid) →
      Lexes (ts.flatMap fun t => t.spell ++ bytes [' ']) ts := by
    intro ts valid
    induction ts with
    | nil => exact .done
    | cons t ts ih =>
      have rest := ih fun t' listed => valid t' (mem_cons_of_mem _ listed)
      have ends : ∀ l, t.Ends (bytes [' '] ++ l) := by
        intro l
        cases t with
        | word w =>
          rintro c first ⟨-, dark, -⟩
          cases first
          exact dark (by decide)
        | redir op =>
          have other : some ' '.toUInt8 ≠ some '>'.toUInt8 := by decide
          cases op with
          | output => exact other
          | _ => trivial
        | _ => trivial
      rw [flatMap_cons, append_assoc]
      exact .token (valid t (mem_cons_self ..)) (ends _) (.space (by decide) rest)
  exact blanks _ c.valid

end Command

theorem Lexes.noNul {s : List UInt8} {ts : List Token} (lexes : Lexes s ts) : 0 ∉ s := by
  induction lexes with
  | done => exact not_mem_nil
  | space blank rest ih =>
    rw [mem_cons, not_or]
    refine ⟨?_, ih⟩
    rintro rfl
    exact absurd blank (by decide)
  | @token t s ts valid ends rest ih =>
    rw [mem_append, not_or]
    refine ⟨?_, ih⟩
    cases t with
    | word w => exact fun listed => (valid.2 0 listed).1 rfl
    | redir op => cases op <;> decide
    | _ => decide

/-- The command line of a command. -/
def Command.line (c : Command) : CString := ⟨c.render, c.lexes.noNul⟩

/-- `parsecmd` always returns or panics; it returns a tree exactly if the line can be derived, and
then the tree of the derivation; and a command is the result of parsing its own text. -/
theorem parsecmd_accepts_grammar :
    (∀ s : CString, (∃ r, parsecmd s = .ok r) ∨ ∃ msg, parsecmd s = .error (.panic msg)) ∧
    (∀ (s : CString) (c : Tree), Parses s c ↔ ∃ ts, Lexes s.text ts ∧ Derives .line ts c) ∧
    ∀ c : Command, Parses c.line c.tree := by
  refine ⟨fun s => ?_, parses_iff, fun c => ?_⟩
  · cases ran : parsecmd s with
    | ok r => exact .inl ⟨r, rfl⟩
    | error e =>
      cases e with
      | panic msg => exact .inr ⟨msg, rfl⟩
      | fuel => exact absurd ran (parsecmd_fueled s)
  · exact (parses_iff c.line c.tree).mpr ⟨c.tokens, c.lexes, c.derives⟩

end Shell
