import Mathlib

/-!
# Byte buffers of fixed length

A buffer of `n` bytes, with the two operations a C program performs on one: copying a run of
bytes out of it and copying a run of bytes into it. Integers are stored little-endian.
-/
namespace ByteBuffer
open List

/-- Exactly `n` bytes. -/
abbrev Buffer (n : Nat) := Fin n → UInt8

/-- The `k` low bytes of `v`, least significant first. -/
def leBytes : Nat → Nat → List UInt8
  | 0, _ => []
  | k + 1, v => UInt8.ofNat v :: leBytes k (v / 256)

def ofLE : List UInt8 → Nat
  | [] => 0
  | b :: bs => b.toNat + 256 * ofLE bs

@[simp] theorem length_leBytes (k v : Nat) : (leBytes k v).length = k := by
  induction k generalizing v with
  | zero => rfl
  | succ k ih => simp [leBytes, ih]

theorem length_flatMap_leBytes {α : Type} (k : Nat) (g : α → Nat) (xs : List α) :
    (xs.flatMap fun x => leBytes k (g x)).length = k * xs.length := by
  induction xs with
  | nil => rfl
  | cons x xs ih =>
    rw [flatMap_cons, length_append, length_leBytes, ih, length_cons, Nat.mul_add_one, Nat.add_comm]

variable {i off v width : Nat} {bs : List UInt8}

theorem ofLE_leBytes {k : Nat} (small : v < 256 ^ k) : ofLE (leBytes k v) = v := by
  induction k generalizing v with
  | zero => simp only [leBytes, ofLE]; omega
  | succ k ih =>
    have rest : v / 256 < 256 ^ k := by
      rw [Nat.pow_succ] at small
      omega
    simp only [leBytes, ofLE, ih rest, UInt8.toNat_ofNat']
    omega

theorem ofLE_replicate_zero (k : Nat) : ofLE (replicate k 0) = 0 := by
  induction k with
  | zero => rfl
  | succ k ih => simp [replicate_succ, ofLE, ih]

namespace Buffer
variable {n : Nat}

def get (b : Buffer n) (i : Nat) : UInt8 :=
  if h : i < n then b ⟨i, h⟩ else 0

/-- The `len` bytes from offset `off` on. -/
def read (b : Buffer n) (off len : Nat) : List UInt8 :=
  (List.range len).map fun i => b.get (off + i)

/-- Copies `bs` to offset `off`; bytes past the end are dropped. -/
def write (b : Buffer n) (off : Nat) (bs : List UInt8) : Buffer n :=
  fun j => if off ≤ j.val then (bs[j.val - off]?).getD (b j) else b j

def getLE (b : Buffer n) (off width : Nat) : Nat :=
  ofLE (b.read off width)

/-- An array of `count` words of `width` bytes, stored from offset `off` on. -/
def words (b : Buffer n) (off width count : Nat) : List Nat :=
  (List.range count).map fun i => b.getLE (off + width * i) width

def setLE (b : Buffer n) (off width v : Nat) : Buffer n :=
  b.write off (leBytes width v)

section
variable (b : Buffer n)
include b

@[simp] theorem length_read (off len : Nat) : (b.read off len).length = len := by
  simp [read]

theorem get_write (off : Nat) (bs : List UInt8) (hi : i < n) :
    (b.write off bs).get i = if off ≤ i then (bs[i - off]?).getD (b.get i) else b.get i := by
  simp only [get, write, dif_pos hi]

theorem get_write_of_lt (bs : List UInt8) (before : i < off) :
    (b.write off bs).get i = b.get i := by
  by_cases hi : i < n
  · rw [get_write b off bs hi, if_neg (by omega)]
  · simp [get, hi]

theorem get_write_of_ge (after : off + bs.length ≤ i) : (b.write off bs).get i = b.get i := by
  by_cases hi : i < n
  · have hnone : bs[i - off]? = none := getElem?_eq_none (by omega)
    rw [get_write b off bs hi, hnone]
    split <;> rfl
  · simp [get, hi]

theorem read_write_before (bs : List UInt8) {at' len : Nat}
    (before : at' + len ≤ off) : (b.write off bs).read at' len = b.read at' len := by
  apply map_congr_left
  intro i hi
  have hlt := mem_range.mp hi
  exact get_write_of_lt b bs (by omega)

theorem read_write_after {at' len : Nat}
    (after : off + bs.length ≤ at') : (b.write off bs).read at' len = b.read at' len := by
  apply map_congr_left
  intro i _
  exact get_write_of_ge b (by omega)

/-- What was written is read back. -/
theorem read_write (fits : off + bs.length ≤ n) : (b.write off bs).read off bs.length = bs := by
  apply ext_getElem
  · simp
  · intro i h₁ h₂
    have hget : bs[off + i - off]? = some bs[i] := by
      rw [Nat.add_sub_cancel_left]
      exact getElem?_eq_getElem h₂
    simp only [read, getElem_map, getElem_range]
    rw [get_write b off bs (by omega), if_pos (Nat.le_add_right off i), hget]
    rfl

end

theorem getLE_zero (off width : Nat) : getLE (fun _ => 0 : Buffer n) off width = 0 := by
  have zeros : read (fun _ => 0 : Buffer n) off width = replicate width 0 := by
    simp [read, get]
  rw [getLE, zeros, ofLE_replicate_zero]

theorem getLE_setLE (b : Buffer n) (fits : off + width ≤ n)
    (small : v < 256 ^ width) : (b.setLE off width v).getLE off width = v := by
  have back : (b.write off (leBytes width v)).read off (leBytes width v).length =
      leBytes width v := read_write b (by simpa using fits)
  rw [length_leBytes] at back
  rw [getLE, setLE, back, ofLE_leBytes small]

theorem getLE_setLE_of_disjoint (b : Buffer n) {off' width' : Nat}
    (apart : off' + width' ≤ off ∨ off + width ≤ off') :
    (b.setLE off width v).getLE off' width' = b.getLE off' width' := by
  unfold getLE setLE
  cases apart with
  | inl before => rw [read_write_before b _ before]
  | inr after => rw [read_write_after b (by simpa using after)]

theorem write_append (b : Buffer n) (off : Nat) (xs ys : List UInt8) :
    b.write off (xs ++ ys) = (b.write off xs).write (off + xs.length) ys := by
  funext j
  simp only [write]
  by_cases hoff : off ≤ j.val
  · by_cases hxs : j.val - off < xs.length
    · have before : ¬ off + xs.length ≤ j.val := by omega
      simp [hoff, before, getElem?_append_left hxs]
    · have after : off + xs.length ≤ j.val := by omega
      have hnone : xs[j.val - off]? = none := getElem?_eq_none (by omega)
      have hsub : j.val - off - xs.length = j.val - (off + xs.length) := by omega
      simp [hoff, after, getElem?_append_right (by omega : xs.length ≤ j.val - off), hnone, hsub]
  · simp [hoff, show ¬ off + xs.length ≤ j.val by omega]

/-- One field of a record that was written is read back. -/
theorem getLE_write (b : Buffer n) {xs ys : List UInt8}
    (fits : off + xs.length + width ≤ n) (small : v < 256 ^ width) :
    (b.write off (xs ++ (leBytes width v ++ ys))).getLE (off + xs.length) width = v := by
  rw [write_append, write_append, length_leBytes, getLE, read_write_before _ _ (Nat.le_refl _)]
  exact getLE_setLE _ fits small

theorem getLE_write_of_disjoint (b : Buffer n) {off' : Nat}
    (apart : off' + width ≤ off ∨ off + bs.length ≤ off') :
    (b.write off bs).getLE off' width = b.getLE off' width := by
  cases apart with
  | inl before => rw [getLE, read_write_before b _ before, getLE]
  | inr after => rw [getLE, read_write_after b after, getLE]

/-- An array that was written is read back. -/
theorem words_write {xs : List Nat} (small : ∀ x ∈ xs, x < 256 ^ width)
    (b : Buffer n) (fits : off + width * xs.length ≤ n) :
    (b.write off (xs.flatMap (leBytes width))).words off width xs.length = xs := by
  induction xs generalizing b off with
  | nil => rfl
  | cons x xs ih =>
    have hx : x < 256 ^ width := small x mem_cons_self
    have hxs : ∀ y ∈ xs, y < 256 ^ width := fun y hy => small y (mem_cons_of_mem x hy)
    rw [length_cons, Nat.mul_add_one] at fits
    have rest : ((b.write off (leBytes width x)).write (off + width)
        (xs.flatMap (leBytes width))).words (off + width) width xs.length = xs :=
      ih hxs _ (by omega)
    rw [flatMap_cons, write_append, length_leBytes, words, length_cons,
      range_succ_eq_map, map_cons, map_map]
    congr 1
    · rw [getLE, Nat.mul_zero, Nat.add_zero, read_write_before _ _ (Nat.le_refl _)]
      exact getLE_setLE b (by omega) hx
    · refine Eq.trans ?_ rest
      apply map_congr_left
      intro i _
      simp only [Function.comp_apply, Nat.succ_eq_add_one, Nat.mul_add_one]
      congr 1
      omega

end Buffer
end ByteBuffer
