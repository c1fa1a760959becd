import Mathlib

/-!
# Runs of a partial step function

`step s a` is the state after action `a`, or `none` where `a` is not enabled in `s`.
-/
namespace TransitionSystem
variable {σ α : Type}

/-- The states a run from `init` passes through. -/
inductive Reachable (init : σ → Prop) (step : σ → α → Option σ) : σ → Prop
  | init (s : σ) (start : init s) : Reachable init step s
  | step (s t : σ) (a : α) (before : Reachable init step s) (next : step s a = some t) :
      Reachable init step t

variable {init : σ → Prop} {step : σ → α → Option σ}

theorem Reachable.invariant {I : σ → Prop} (start : ∀ s, init s → I s)
    (keep : ∀ s a t, I s → step s a = some t → I t) {s : σ} (reach : Reachable init step s) :
    I s := by
  induction reach with
  | init s h => exact start s h
  | step s t a _ next ih => exact keep s a t ih next

/-- The state after a list of actions. -/
def run (step : σ → α → Option σ) : σ → List α → Option σ
  | s, [] => some s
  | s, a :: as => (step s a).bind fun t => run step t as

theorem Reachable.run {s t : σ} {as : List α} (reach : Reachable init step s)
    (ran : TransitionSystem.run step s as = some t) : Reachable init step t := by
  induction as generalizing s with
  | nil => exact Option.some.inj ran ▸ reach
  | cons a as ih =>
    obtain ⟨u, next, rest⟩ := Option.bind_eq_some_iff.mp ran
    exact ih (.step s u a reach next) rest

end TransitionSystem
