import Mathlib

/-!
# Numbers held in slots

Slots hold block numbers, and 0 stands for none. No number is held twice, and an allocator that
counts upwards has handed out exactly the numbers that are held.
-/
namespace SlotRefs
open Function
variable {ι : Type} [DecidableEq ι] {r : ι → Nat} {x : ι} {lo free v : Nat}

/-- No number is held by two slots. -/
def Distinct (r : ι → Nat) : Prop := ∀ x y, r x ≠ 0 → r x = r y → x = y

theorem Distinct.update (distinct : Distinct r) (fresh : ∀ y, r y ≠ v) :
    Distinct (update r x v) := by
  intro y z held same
  by_cases atY : y = x
  · by_cases atZ : z = x
    · exact atY.trans atZ.symm
    · rw [atY, update_self, update_of_ne atZ] at same
      exact absurd same.symm (fresh z)
  · rw [update_of_ne atY] at held same
    by_cases atZ : z = x
    · rw [atZ, update_self] at same
      exact absurd same (fresh y)
    · rw [update_of_ne atZ] at same
      exact distinct y z held same

/-- The slots hold the numbers from `lo` up to `free`, each once. -/
structure Bump (r : ι → Nat) (lo free : Nat) : Prop where
  distinct : Distinct r
  filled : ∀ b, b ≠ 0 → ((∃ x, r x = b) ↔ lo ≤ b ∧ b < free)

omit [DecidableEq ι] in
theorem Bump.range (bump : Bump r lo free) (held : r x ≠ 0) : lo ≤ r x ∧ r x < free :=
  (bump.filled (r x) held).mp ⟨x, rfl⟩

/-- An empty slot gets the next number. -/
theorem Bump.alloc (bump : Bump r lo free) (empty : r x = 0) (pos : 0 < lo) (le : lo ≤ free) :
    Bump (update r x free) lo (free + 1) := by
  have fresh : ∀ y, r y ≠ free := by
    intro y same
    have range := bump.range (x := y) (by omega)
    omega
  refine ⟨bump.distinct.update fresh, fun b nonzero => ?_⟩
  have before := bump.filled b nonzero
  constructor
  · rintro ⟨y, holds⟩
    by_cases here : y = x
    · subst here
      rw [update_self] at holds
      omega
    · rw [update_of_ne here] at holds
      have range := before.mp ⟨y, holds⟩
      omega
  · intro range
    by_cases last : b = free
    · exact ⟨x, by rw [update_self, last]⟩
    · obtain ⟨y, holds⟩ := before.mpr (by omega)
      have other : y ≠ x := by
        rintro rfl
        omega
      exact ⟨y, by rw [update_of_ne other, holds]⟩

/-- How many of the first `n` slots are empty. -/
def lacking (r : Nat → Nat) (n : Nat) : Nat := ((Finset.range n).filter fun j => r j = 0).card

theorem lacking_update {r : Nat → Nat} {j n : Nat} (less : j < n) (empty : r j = 0)
    (held : v ≠ 0) : lacking (update r j v) n + 1 = lacking r n := by
  have rest : (Finset.range n).filter (fun k => update r j v k = 0) =
      ((Finset.range n).filter fun k => r k = 0).erase j := by
    ext k
    by_cases here : k = j
    · simp [here, held]
    · simp [here]
  have member : j ∈ (Finset.range n).filter fun k => r k = 0 := by simp [less, empty]
  rw [lacking, lacking, rest, Finset.card_erase_add_one member]

end SlotRefs
