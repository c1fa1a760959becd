import Mathlib

/-!
# Circular arrays indexed by wrapping counters

A circular array of `N` cells is addressed by `w`-bit counters that only ever count up and wrap
at `2 ^ w`. If `N` divides `2 ^ w`, the wrap of a counter does not disturb the cell it names.
-/
namespace RingBuffer
open List
variable {β : Type} {w N : Nat}

/-- The contents of the `n` cells from counter `r` on. -/
def window (N : Nat) (data : Nat → β) (r : BitVec w) (n : Nat) : List β :=
  (List.range n).map fun k => data ((r + BitVec.ofNat w k).toNat % N)

@[simp] theorem window_zero (data : Nat → β) (r : BitVec w) : window N data r 0 = [] := rfl

theorem cell_eq (divides : N ∣ 2 ^ w) (r : BitVec w) (k : Nat) :
    (r + BitVec.ofNat w k).toNat % N = (r.toNat + k) % N := by
  rw [BitVec.toNat_add, Nat.mod_mod_of_dvd _ divides, BitVec.toNat_ofNat, Nat.add_mod,
    Nat.mod_mod_of_dvd _ divides, ← Nat.add_mod]

/-- Fewer than `N` counters name different cells. -/
theorem cell_ne (divides : N ∣ 2 ^ w) (r : BitVec w) {j k : Nat} (hjk : j < k) (hk : k < N) :
    (r + BitVec.ofNat w j).toNat % N ≠ (r + BitVec.ofNat w k).toNat % N := by
  rw [cell_eq divides, cell_eq divides]
  intro same
  have hmod : (k - j) % N = 0 := by
    rw [show r.toNat + k = r.toNat + j + (k - j) by omega] at same
    have := Nat.sub_mod_eq_zero_of_mod_eq same.symm
    rwa [Nat.add_sub_cancel_left] at this
  rw [Nat.mod_eq_of_lt (by omega)] at hmod
  omega

/-- A window is the window of its first cells and then that of the rest. -/
theorem window_add (data : Nat → β) (r : BitVec w) (m n : Nat) :
    window N data r (m + n) = window N data r m ++ window N data (r + BitVec.ofNat w m) n := by
  simp only [window, range_add, map_append, map_map]
  congr 1
  apply map_congr_left
  intro k _
  simp only [Function.comp_apply, BitVec.ofNat_add, BitVec.add_assoc]

/-- Storing at or behind the end of a window does not change it. -/
theorem window_update (divides : N ∣ 2 ^ w) (data : Nat → β) (r : BitVec w) {m n : Nat} (b : β)
    (behind : n ≤ m) (room : m < N) :
    window N (Function.update data ((r + BitVec.ofNat w m).toNat % N) b) r n =
      window N data r n := by
  apply map_congr_left
  intro k inside
  have less := mem_range.mp inside
  exact Function.update_of_ne (cell_ne divides r (by omega) room) _ _

/-- Storing behind a window that is not full extends it. -/
theorem window_push (divides : N ∣ 2 ^ w) (data : Nat → β) (r : BitVec w) {n : Nat} (b : β)
    (room : n < N) :
    window N (Function.update data ((r + BitVec.ofNat w n).toNat % N) b) r (n + 1) =
      window N data r n ++ [b] := by
  rw [window_add, window_update divides data r b (Nat.le_refl n) room]
  simp [window]

/-- The first cell of a window, and the window without it. -/
theorem window_pop (data : Nat → β) (r : BitVec w) (n : Nat) :
    window N data r (n + 1) = data (r.toNat % N) :: window N data (r + 1#w) n := by
  rw [window, range_succ_eq_map, map_cons, map_map]
  congr 1
  · simp
  · apply map_congr_left
    intro k _
    have hk : r + BitVec.ofNat w (k + 1) = r + 1#w + BitVec.ofNat w k := by
      rw [Nat.add_comm k 1, BitVec.ofNat_add, BitVec.add_assoc]
    simp only [Function.comp_apply, Nat.succ_eq_add_one, hk]

end RingBuffer
