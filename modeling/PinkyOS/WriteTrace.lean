import Mathlib

/-!
# Traces of writes to a store

A store maps locations to contents. A trace lists single-location writes in the order they
reach the store; a crash keeps an initial part of it.
-/
namespace WriteTrace
variable {ι β : Type} [DecidableEq ι]

/-- The store after the writes of a trace, first write first. -/
def apply (d : ι → β) (ws : List (ι × β)) : ι → β :=
  ws.foldl (fun d w => Function.update d w.1 w.2) d

@[simp] theorem apply_nil (d : ι → β) : apply d [] = d := rfl

@[simp] theorem apply_cons (d : ι → β) (w : ι × β) (ws : List (ι × β)) :
    apply d (w :: ws) = apply (Function.update d w.1 w.2) ws := rfl

theorem apply_append (d : ι → β) (ws ws' : List (ι × β)) :
    apply d (ws ++ ws') = apply (apply d ws) ws' :=
  List.foldl_append

theorem apply_concat (d : ι → β) (ws : List (ι × β)) (w : ι × β) :
    apply d (ws ++ [w]) = Function.update (apply d ws) w.1 w.2 := by
  rw [apply_append]
  rfl

/-- A location that no write names keeps its contents. -/
theorem apply_of_not_mem {d : ι → β} {ws : List (ι × β)} {a : ι}
    (untouched : ∀ w ∈ ws, w.1 ≠ a) : apply d ws a = d a := by
  induction ws generalizing d with
  | nil => rfl
  | cons w ws ih =>
    have later : ∀ v ∈ ws, v.1 ≠ a := fun v hv => untouched v (List.mem_cons_of_mem w hv)
    rw [apply_cons, ih later]
    exact Function.update_of_ne (untouched w List.mem_cons_self).symm _ _

/-- A location that is written, always with the same contents, ends up with these. -/
theorem apply_of_mem {d : ι → β} {ws : List (ι × β)} {a : ι} {c : β}
    (same : ∀ w ∈ ws, w.1 = a → w.2 = c) (written : ∃ w ∈ ws, w.1 = a) : apply d ws a = c := by
  induction ws generalizing d with
  | nil => simp at written
  | cons w ws ih =>
    by_cases later : ∃ v ∈ ws, v.1 = a
    · exact ih (fun v hv => same v (List.mem_cons_of_mem w hv)) later
    · have hw : w.1 = a := by
        obtain ⟨v, hv, hva⟩ := written
        cases List.mem_cons.mp hv with
        | inl h => exact h ▸ hva
        | inr h => exact absurd ⟨v, h, hva⟩ later
      rw [apply_cons, apply_of_not_mem fun v hv hva => later ⟨v, hv, hva⟩, ← hw,
        Function.update_self]
      exact same w List.mem_cons_self hw

/-- What holds of a store, and is kept by every write of a trace, holds at every crash point. -/
theorem apply_take {P : (ι → β) → Prop} {ws : List (ι × β)}
    (step : ∀ d, P d → ∀ w ∈ ws, P (Function.update d w.1 w.2)) {d : ι → β} (start : P d)
    (k : Nat) : P (apply d (ws.take k)) := by
  induction ws generalizing d k with
  | nil => simpa using start
  | cons w ws ih =>
    cases k with
    | zero => exact start
    | succ k =>
      apply ih
      · intro e he v hv
        exact step e he v (List.mem_cons_of_mem w hv)
      · exact step d start w List.mem_cons_self

end WriteTrace
