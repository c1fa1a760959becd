import Mathlib

/-!
# Sequential programs over a shared state

A program is a tree of operations: each node names an operation and says how to go on for every
result it may have. The meaning of an operation is given apart, so that one program text can be
run alone or interleaved with others, and can be held against a protocol: a local state that
says which operations may be called next.
-/
namespace Program

inductive Prog (Op : Type) (Res : Op → Type) (α : Type) where
  | ret (a : α)
  | call (o : Op) (next : Res o → Prog Op Res α)

/-- What one operation does: a result and a new state, a wait for others, or a panic. -/
inductive Outcome (σ β : Type) where
  | done (b : β) (s : σ)
  | wait
  | panic (msg : String)

/-- The new state, if there is one. -/
def Outcome.state {σ β : Type} : Outcome σ β → Option σ
  | .done _ s => some s
  | .wait => none
  | .panic _ => none

theorem Outcome.state_eq_some {σ β : Type} {x : Outcome σ β} {s : σ} :
    x.state = some s ↔ ∃ b, x = .done b s := by
  cases x <;> simp [Outcome.state]

/-- The result, if there is one. -/
def Outcome.result {σ β : Type} : Outcome σ β → Option β
  | .done b _ => some b
  | _ => none

theorem Outcome.result_eq_some {σ β : Type} {x : Outcome σ β} {b : β} :
    x.result = some b ↔ ∃ s, x = .done b s := by
  cases x <;> simp [Outcome.result]

/-- The message of a panic. -/
def Outcome.message {σ β : Type} : Outcome σ β → Option String
  | .panic msg => some msg
  | _ => none

theorem Outcome.message_eq_some {σ β : Type} {x : Outcome σ β} {msg : String} :
    x.message = some msg ↔ x = .panic msg := by
  cases x <;> simp [Outcome.message]

section
variable {Op : Type} {Res : Op → Type} {α β : Type}

namespace Prog

def bind : Prog Op Res α → (α → Prog Op Res β) → Prog Op Res β
  | .ret a, f => f a
  | .call o next, f => .call o fun r => (next r).bind f

instance : Monad (Prog Op Res) where
  pure := Prog.ret
  bind := Prog.bind

theorem bind_pure (m : Prog Op Res α) : (m >>= Pure.pure) = m := by
  induction m with
  | ret a => rfl
  | call o next ih =>
    show Prog.call o (fun r => next r >>= Pure.pure) = Prog.call o next
    simp only [ih]

/-- The program that calls `o` and returns its result. -/
def op (o : Op) : Prog Op Res (Res o) :=
  .call o .ret

end Prog

/-- The rules one process keeps to. In the local state `l` it calls only operations that
`allow l` holds of; a result `r` of `o` is one that `may l o r` holds of. -/
structure Protocol (Op : Type) (Res : Op → Type) (L : Type) where
  allow : L → Op → Prop
  may : L → (o : Op) → Res o → Prop
  next : L → (o : Op) → Res o → L

variable {L : Type}

/-- From the local state `l` on, the program keeps to the protocol and ends with `post`. -/
def Safe (P : Protocol Op Res L) (post : L → α → Prop) : L → Prog Op Res α → Prop
  | l, .ret a => post l a
  | l, .call o next => P.allow l o ∧ ∀ r, P.may l o r → Safe P post (P.next l o r) (next r)

variable {P : Protocol Op Res L}

theorem Safe.bind {post : L → β → Prop} {m : Prog Op Res α} {f : α → Prog Op Res β} {l : L}
    (h : Safe P (fun l' a => Safe P post l' (f a)) l m) : Safe P post l (m >>= f) := by
  induction m generalizing l with
  | ret a => exact h
  | call o next ih =>
    constructor
    · exact h.1
    · intro r hr
      exact ih r (h.2 r hr)

theorem Safe.ite {post : L → α → Prop} {c : Prop} [Decidable c] {m n : Prog Op Res α} {l : L}
    (yes : c → Safe P post l m) (no : ¬c → Safe P post l n) :
    Safe P post l (if c then m else n) := by
  split
  case isTrue h => exact yes h
  case isFalse h => exact no h

/-! ### Running a program alone -/

section
variable {σ : Type} (perform : σ → (o : Op) → Outcome σ (Res o))

def exec : Prog Op Res α → σ → Outcome σ α
  | .ret a, s => .done a s
  | .call o next, s =>
    match perform s o with
    | .done r t => exec (next r) t
    | .wait => .wait
    | .panic msg => .panic msg

/-- Run alone from a state, the program ends with `post`, or stops in a way that `stop` allows: in
a wait for ever (`none`) or with a panic. -/
def Runs (stop : Option String → Prop) (post : α → σ → Prop) : Prog Op Res α → σ → Prop
  | .ret a, s => post a s
  | .call o next, s =>
    match perform s o with
    | .done r t => Runs stop post (next r) t
    | .wait => stop none
    | .panic msg => stop (some msg)

variable {perform} {stop : Option String → Prop} {s t : σ}

theorem Runs.done {post : α → σ → Prop} {m : Prog Op Res α} {a : α}
    (runs : Runs perform stop post m s) (done : exec perform m s = .done a t) : post a t := by
  induction m generalizing s with
  | ret b =>
    cases done
    exact runs
  | call o next ih =>
    simp only [exec, Runs] at done runs
    split at done
    case h_1 r u performed =>
      rw [performed] at runs
      exact ih r runs done
    case h_2 => cases done
    case h_3 => cases done

theorem Runs.panic {post : α → σ → Prop} {m : Prog Op Res α} {msg : String}
    (runs : Runs perform stop post m s) (stopped : exec perform m s = .panic msg) :
    stop (some msg) := by
  induction m generalizing s with
  | ret b => cases stopped
  | call o next ih =>
    simp only [exec, Runs] at stopped runs
    split at stopped
    case h_1 r u performed =>
      rw [performed] at runs
      exact ih r runs stopped
    case h_2 => cases stopped
    case h_3 msg performed =>
      rw [performed] at runs
      cases stopped
      exact runs

/-- The program returns, or stops in an allowed way. -/
theorem Runs.outcome {post : α → σ → Prop} {m : Prog Op Res α} (runs : Runs perform stop post m s) :
    (∃ a t, exec perform m s = .done a t ∧ post a t) ∨
      (exec perform m s = .wait ∧ stop none) ∨
      ∃ msg, exec perform m s = .panic msg ∧ stop (some msg) := by
  induction m generalizing s with
  | ret a => exact .inl ⟨a, s, rfl, runs⟩
  | call o next ih =>
    simp only [exec, Runs] at runs ⊢
    cases performed : perform s o with
    | done r t =>
      rw [performed] at runs
      exact ih r runs
    | wait =>
      rw [performed] at runs
      exact .inr (.inl ⟨rfl, runs⟩)
    | panic msg =>
      rw [performed] at runs
      exact .inr (.inr ⟨msg, rfl, runs⟩)

/-- A program that may not stop returns. -/
theorem Runs.ends {post : α → σ → Prop} {m : Prog Op Res α}
    (runs : Runs perform (fun _ => False) post m s) :
    ∃ a t, exec perform m s = .done a t ∧ post a t := by
  rcases runs.outcome with returns | ⟨-, absurd'⟩ | ⟨_, -, absurd'⟩
  · exact returns
  · exact absurd'.elim
  · exact absurd'.elim

theorem Runs.bind {post : β → σ → Prop} {m : Prog Op Res α} {f : α → Prog Op Res β}
    (runs : Runs perform stop (fun a t => Runs perform stop post (f a) t) m s) :
    Runs perform stop post (m >>= f) s := by
  induction m generalizing s with
  | ret a => exact runs
  | call o next ih =>
    show Runs perform stop post (.call o fun r => (next r).bind f) s
    simp only [Runs] at runs ⊢
    split
    case h_1 r t performed =>
      rw [performed] at runs
      exact ih r runs
    case h_2 performed => rwa [performed] at runs
    case h_3 performed => rwa [performed] at runs

theorem Runs.mono {post post' : α → σ → Prop} {m : Prog Op Res α}
    (runs : Runs perform stop post m s) (weaker : ∀ a t, post a t → post' a t) :
    Runs perform stop post' m s := by
  induction m generalizing s with
  | ret a => exact weaker a s runs
  | call o next ih =>
    simp only [Runs] at runs ⊢
    split
    case h_1 r t performed =>
      rw [performed] at runs
      exact ih r runs
    case h_2 performed => rwa [performed] at runs
    case h_3 performed => rwa [performed] at runs

/-- The rule for a call whose effect is known by an earlier result. -/
theorem Runs.seq {post : α → σ → Prop} {post' : β → σ → Prop} {m : Prog Op Res α}
    {f : α → Prog Op Res β} (first : Runs perform stop post m s)
    (next : ∀ a t, post a t → Runs perform stop post' (f a) t) :
    Runs perform stop post' (m >>= f) s :=
  .bind (first.mono next)

/-- The rule for one operation. -/
theorem Runs.op {post : β → σ → Prop} {o : Op} {f : Res o → Prog Op Res β}
    (done : ∀ r t, perform s o = .done r t → Runs perform stop post (f r) t)
    (wait : perform s o = .wait → stop none)
    (panic : ∀ msg, perform s o = .panic msg → stop (some msg)) :
    Runs perform stop post (Prog.op o >>= f) s := by
  show Runs perform stop post (.call o f) s
  simp only [Runs]
  split
  case h_1 r t performed => exact done r t performed
  case h_2 performed => exact wait performed
  case h_3 msg performed => exact panic msg performed

/-- The rule for an operation whose result is known. -/
theorem Runs.known (o : Op) {post : β → σ → Prop} {f : Res o → Prog Op Res β} {r : Res o}
    (performed : perform s o = .done r t) (rest : Runs perform stop post (f r) t) :
    Runs perform stop post (Prog.op o >>= f) s := by
  show Runs perform stop post (.call o f) s
  simp only [Runs]
  rwa [performed]

theorem Runs.ite {post : α → σ → Prop} {c : Prop} [Decidable c] {m n : Prog Op Res α}
    (yes : c → Runs perform stop post m s) (no : ¬c → Runs perform stop post n s) :
    Runs perform stop post (if c then m else n) s := by
  split
  case isTrue h => exact yes h
  case isFalse h => exact no h

end

/-! ### Programs that use some operations only -/

def Uses (allowed : Op → Prop) : Prog Op Res α → Prop
  | .ret _ => True
  | .call o next => allowed o ∧ ∀ r, Uses allowed (next r)

variable {allowed : Op → Prop}

theorem Uses.bind {m : Prog Op Res α} {f : α → Prog Op Res β} (first : Uses allowed m)
    (rest : ∀ a, Uses allowed (f a)) : Uses allowed (m >>= f) := by
  induction m with
  | ret a => exact rest a
  | call o next ih => exact ⟨first.1, fun r => ih r (first.2 r)⟩

theorem Uses.ite {c : Prop} [Decidable c] {m n : Prog Op Res α} (yes : c → Uses allowed m)
    (no : ¬c → Uses allowed n) : Uses allowed (if c then m else n) := by
  split
  case isTrue h => exact yes h
  case isFalse h => exact no h

/-- What the allowed operations keep, the program keeps. -/
theorem Uses.runs {σ : Type} {perform : σ → (o : Op) → Outcome σ (Res o)}
    {stop : Option String → Prop} {keep : σ → Prop} {m : Prog Op Res α} {s : σ}
    (uses : Uses allowed m) (step : ∀ s o, allowed o → keep s → match perform s o with
      | .done _ t => keep t
      | .wait => stop none
      | .panic msg => stop (some msg))
    (start : keep s) : Runs perform stop (fun _ => keep) m s := by
  induction m generalizing s with
  | ret a => exact start
  | call o next ih =>
    have held := step s o uses.1 start
    simp only [Runs]
    split
    case h_1 r t performed =>
      rw [performed] at held
      exact ih r (uses.2 r) held
    case h_2 performed => rwa [performed] at held
    case h_3 performed => rwa [performed] at held

end

end Program
