import Mathlib

/-!
# Counting pointers

A table of cells, each empty or pointing at an object, and how many cells point at each object.
-/
namespace PointerCount
open Finset
variable {ι β : Type} [Fintype ι] [DecidableEq ι] [DecidableEq β]

/-- What one cell contributes. -/
def mark (v : Option β) (b : β) : Int := if v = some b then 1 else 0

/-- How many cells of the table point at `b`. -/
def pointers (g : ι → Option β) (b : β) : Int := ∑ x, mark (g x) b

@[simp] theorem mark_none : mark (none : Option β) = 0 := by
  funext b
  simp [mark]

theorem mark_some (b : β) : mark (some b) = Pi.single b 1 := by
  funext c
  simp [mark, Pi.single_apply, eq_comm]

omit [DecidableEq ι] in
theorem pointers_nonneg (g : ι → Option β) (b : β) : 0 ≤ pointers g b := by
  apply sum_nonneg
  intro x _
  rw [mark]
  split <;> omega

theorem pointers_update (g : ι → Option β) (x : ι) (v : Option β) (b : β) :
    pointers (Function.update g x v) b = pointers g b - mark (g x) b + mark v b := by
  have split := add_sum_erase univ (fun y => mark (g y) b) (mem_univ x)
  have split' := add_sum_erase univ (fun y => mark (Function.update g x v y) b)
    (mem_univ x)
  have rest : ∑ y ∈ univ.erase x, mark (Function.update g x v y) b =
      ∑ y ∈ univ.erase x, mark (g y) b := by
    apply sum_congr rfl
    intro y hy
    rw [Function.update_of_ne (ne_of_mem_erase hy)]
  simp only [Function.update_self, rest] at split'
  rw [pointers, pointers, ← split, ← split']
  omega

omit [DecidableEq ι] in
theorem pointers_pos {g : ι → Option β} {x : ι} {b : β} (points : g x = some b) :
    1 ≤ pointers g b := by
  have one : mark (g x) b = 1 := by simp [mark, points]
  rw [← one]
  apply single_le_sum (f := fun y => mark (g y) b)
  · intro y _
    simp only [mark]
    split <;> omega
  · exact mem_univ x

omit [DecidableEq ι] in

omit [DecidableEq ι] in
theorem pointers_none {g : ι → Option β} (empty : ∀ x, g x = none) (b : β) : pointers g b = 0 := by
  simp [pointers, empty]

omit [DecidableEq ι] in
theorem pointers_card (g : ι → Option β) (b : β) :
    pointers g b = (univ.filter fun x => g x = some b).card := by
  rw [natCast_card_filter]
  rfl

end PointerCount
