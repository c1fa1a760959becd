import Mathlib

/-!
# Memory routines of the kernel and of user programs (`lib/string.c`, `usr/ulib.c`)

Memory is a function from addresses to bytes. Both libraries have a `memmove`; only the one of the
kernel looks at how the two ranges lie. Their `memset`s differ in the type of the length.
-/
namespace LibString
open Function

abbrev Memory := Nat → UInt8

/-- `while(n-- > 0) *d++ = *s++;` -/
def copyUp (mem : Memory) (d s : Nat) : Nat → Memory
  | 0 => mem
  | n + 1 => copyUp (Function.update mem d (mem s)) (d + 1) (s + 1) n

/-- `while(n-- > 0) *--d = *--s;` -/
def copyDown (mem : Memory) (d s : Nat) : Nat → Memory
  | 0 => mem
  | n + 1 => copyDown (Function.update mem (d - 1) (mem (s - 1))) (d - 1) (s - 1) n

namespace Kernel

/-- `memmove` of `lib/string.c`. -/
def memmove (mem : Memory) (dst src n : Nat) : Memory :=
  if src < dst ∧ src + n > dst then copyDown mem (dst + n) (src + n) n else copyUp mem dst src n

end Kernel

namespace User

/-- `memmove` of `usr/ulib.c`; its `n` is an `int`. -/
def memmove (mem : Memory) (vdst vsrc : Nat) (n : Int) : Memory := copyUp mem vdst vsrc n.toNat

end User

/-- What a move of `n` bytes is to leave: the old bytes of the source in the destination, and all
others as they were. -/
def moved (mem : Memory) (dst src n : Nat) : Memory :=
  fun a => if dst ≤ a ∧ a < dst + n then mem (src + (a - dst)) else mem a

variable (mem : Memory)

theorem copyUp_succ (d s n : Nat) : copyUp mem d s (n + 1) =
      update (copyUp mem d s n) (d + n) (copyUp mem d s n (s + n)) := by
  induction n generalizing mem d s with
  | zero => rfl
  | succ n more =>
    rw [copyUp, more, copyUp]
    simp only [Nat.add_comm, Nat.add_left_comm]

theorem copyDown_succ (d s n : Nat) :
    copyDown mem (d + (n + 1)) (s + (n + 1)) (n + 1) =
      copyDown (update mem (d + n) (mem (s + n))) (d + n) (s + n) n := rfl

/-- A copy downwards is a move if the destination lies above the source. -/
theorem copyDown_eq {d s : Nat} (above : s ≤ d) (n : Nat) :
    copyDown mem (d + n) (s + n) n = moved mem d s n := by
  induction n generalizing mem with
  | zero =>
    funext a
    rw [moved, if_neg (by omega)]
    rfl
  | succ n more =>
    rw [copyDown_succ, more]
    funext a
    simp only [moved, update_apply]
    split_ifs <;> grind

/-- A copy upwards is a move if the destination does not lie above the source. -/
theorem copyUp_eq {d s : Nat} (below : d ≤ s) (n : Nat) :
    copyUp mem d s n = moved mem d s n := by
  induction n with
  | zero =>
    funext a
    rw [moved, if_neg (by omega)]
    rfl
  | succ n more =>
    rw [copyUp_succ, more]
    funext a
    simp only [moved, update_apply]
    split_ifs <;> grind

/-- A copy upwards by `k` bytes repeats the first `k` bytes of the source. -/
theorem copyUp_repeats (s : Nat) {k : Nat} (apart : 0 < k) (n a : Nat) :
    copyUp mem (s + k) s n a =
      if s + k ≤ a ∧ a < s + k + n then mem (s + (a - (s + k)) % k) else mem a := by
  induction n generalizing a with
  | zero =>
    rw [if_neg (by omega)]
    rfl
  | succ n more =>
    rw [copyUp_succ, update_apply, more, more]
    by_cases last : a = s + k + n
    · rw [if_pos last, if_pos (show s + k ≤ a ∧ a < s + k + (n + 1) by omega), last,
        Nat.add_sub_cancel_left]
      by_cases wrapped : k ≤ n
      · rw [if_pos (by omega), Nat.add_sub_add_left, ← Nat.mod_eq_sub_mod wrapped]
      · rw [if_neg (by omega), Nat.mod_eq_of_lt (by omega)]
    · rw [if_neg last]
      congr 1
      simp only [eq_iff_iff]
      omega

theorem repeats_iff {α : Type} (f : Nat → α) {k : Nat} (apart : 0 < k) (n : Nat) :
    (∀ j < n, f (j % k) = f j) ↔ ∀ i, i + k < n → f (i + k) = f i := by
  constructor
  · intro periodic i inside
    rw [← periodic (i + k) inside, Nat.add_mod_right, periodic i (by omega)]
  · intro shifted j
    induction j using Nat.strong_induction_on with
    | _ j earlier =>
      intro inside
      by_cases first : j < k
      · rw [Nat.mod_eq_of_lt first]
      · obtain ⟨i, rfl⟩ : ∃ i, j = i + k := ⟨j - k, by omega⟩
        rw [Nat.add_mod_right, earlier i (by omega) (by omega), shifted i inside]

/-- On ranges that overlap with the destination above, a copy upwards is a move exactly if the
bytes where they overlap are already the ones to be moved there. -/
theorem copyUp_eq_moved_iff (d s n : Nat) : copyUp mem d s n = moved mem d s n ↔
      ∀ i, s < d → d + i < s + n → mem (d + i) = mem (s + i) := by
  by_cases below : d ≤ s
  · simp only [copyUp_eq mem below, true_iff]
    intro i above
    omega
  obtain ⟨k, apart, rfl⟩ : ∃ k, 0 < k ∧ d = s + k := ⟨d - s, by omega, by omega⟩
  have bytes : copyUp mem (s + k) s n = moved mem (s + k) s n ↔
      ∀ j < n, mem (s + j % k) = mem (s + j) := by
    constructor
    · intro same j inside
      have here := congrFun same (s + k + j)
      rw [copyUp_repeats mem s apart, moved, if_pos (by omega), if_pos (by omega),
        Nat.add_sub_cancel_left] at here
      exact here
    · intro same
      funext a
      rw [copyUp_repeats mem s apart, moved]
      split_ifs with inside
      · exact same _ (by omega)
      · rfl
  rw [bytes, repeats_iff (fun j => mem (s + j)) apart]
  constructor
  · intro shifted i _ inside
    have here := shifted i (by omega)
    rwa [show s + (i + k) = s + k + i by omega] at here
  · intro shifted i inside
    have here := shifted i (by omega) (by omega)
    rwa [show s + k + i = s + (i + k) by omega] at here

theorem Kernel.memmove_eq (dst src n : Nat) :
    Kernel.memmove mem dst src n = moved mem dst src n := by
  rw [Kernel.memmove]
  split_ifs with overlap
  · exact copyDown_eq mem (Nat.le_of_lt overlap.1) n
  · apply (copyUp_eq_moved_iff mem dst src n).mpr
    intro i above inside
    omega

/-- The `memmove` of user programs does what the one of the kernel does, namely a move, exactly if
the destination does not start inside the source range, or if the source range repeats itself with
the distance of the two. -/
theorem memmove_agree_iff (mem : Memory) (dst src n : Nat) :
    (User.memmove mem dst src n = Kernel.memmove mem dst src n ∧
      Kernel.memmove mem dst src n = moved mem dst src n) ↔
      ∀ i, src < dst → dst + i < src + n → mem (dst + i) = mem (src + i) := by
  rw [Kernel.memmove_eq, and_iff_left rfl, User.memmove, Int.toNat_natCast]
  exact copyUp_eq_moved_iff mem dst src n

/-- Moving two bytes up by one: the user's copy writes the first one twice. -/
theorem memmove_disagree :
    User.memmove (fun a => a.toUInt8) 1 0 2 2 = 0 ∧
      Kernel.memmove (fun a => a.toUInt8) 1 0 2 2 = 1 := by
  decide

/-! ### `memset` -/

/-- A memory being filled, with the addresses of the 32-bit stores made. -/
structure Fill where
  mem : Memory
  words : List Nat

/-- `for (; (n > 0) && ((uint64)p % 4); n--, p++) *p = c;`, with the `p` and `n` it leaves. -/
def headLoop (c : UInt8) (mem : Memory) (p : Nat) : Nat → Memory × Nat × Nat
  | 0 => (mem, p, 0)
  | n + 1 =>
    if p % 4 ≠ 0 then headLoop c (Function.update mem p c) (p + 1) n else (mem, p, n + 1)

/-- The 32-bit store `*p4 = val`, least significant byte first. -/
def store32 (mem : Memory) (p4 : Nat) (val : UInt32) : Memory :=
  fun a => if p4 ≤ a ∧ a < p4 + 4 then (val >>> (8 * (a - p4)).toUInt32).toUInt8 else mem a

/-- `for (; n >= 4; n -= 4, p4++) *p4 = val;` -/
def wordLoop (val : UInt32) (mem : Memory) (words : List Nat) (p4 : Nat) :
    Nat → Memory × List Nat × Nat × Nat
  | n + 4 => wordLoop val (store32 mem p4 val) (p4 :: words) (p4 + 4) n
  | n => (mem, words, p4, n)

/-- `for (; n > 0; n--, p++) *p = c;` -/
def tailLoop (c : UInt8) (mem : Memory) (p : Nat) : Nat → Memory
  | 0 => mem
  | n + 1 => tailLoop c (Function.update mem p c) (p + 1) n

/-- The body both libraries have; a negative `n` makes no test true. -/
def fill (mem : Memory) (dst : Nat) (v : Int) (n : Nat) : Fill :=
  let c := UInt8.ofInt v
  let val := (c.toUInt32 <<< 24) ||| (c.toUInt32 <<< 16) ||| (c.toUInt32 <<< 8) ||| c.toUInt32
  let (mem, p, n) := headLoop c mem dst n
  let (mem, words, p, n) := wordLoop val mem [] p n
  ⟨tailLoop c mem p n, words⟩

/-- `memset` of `lib/string.c`; its `n` is an `int`. -/
def Kernel.memset (mem : Memory) (dst : Nat) (v n : Int) : Fill := fill mem dst v n.toNat

/-- `memset` of `usr/ulib.c`; its `n` is a `uint`. -/
def User.memset (mem : Memory) (dst : Nat) (v : Int) (n : Nat) : Fill := fill mem dst v n

/-- The bytes from `lo` up to `hi` set to `c`. -/
def filled (mem : Memory) (lo hi : Nat) (c : UInt8) : Memory :=
  fun a => if lo ≤ a ∧ a < hi then c else mem a

theorem filled_filled {lo mid hi : Nat} (c : UInt8) (le : lo ≤ mid)
    (le' : mid ≤ hi) : filled (filled mem lo mid c) mid hi c = filled mem lo hi c := by
  funext a
  simp only [filled]
  split_ifs <;> first | rfl | omega

theorem filled_empty (lo : Nat) (c : UInt8) : filled mem lo lo c = mem := by
  funext a
  rw [filled, if_neg (by omega)]

theorem update_eq_filled (p : Nat) (c : UInt8) :
    update mem p c = filled mem p (p + 1) c := by
  funext a
  rw [update_apply, filled]
  exact if_congr (by omega) rfl rfl

/-- A store of the repeated byte fills four bytes. -/
theorem store32_eq_filled (p4 : Nat) (c : UInt8) :
    store32 mem p4 ((c.toUInt32 <<< 24) ||| (c.toUInt32 <<< 16) ||| (c.toUInt32 <<< 8) |||
      c.toUInt32) = filled mem p4 (p4 + 4) c := by
  have bytes : ∀ b : Fin 256, ∀ i : Fin 4,
      ((((UInt8.ofFin b).toUInt32 <<< 24) ||| ((UInt8.ofFin b).toUInt32 <<< 16) |||
        ((UInt8.ofFin b).toUInt32 <<< 8) ||| (UInt8.ofFin b).toUInt32) >>>
          (8 * i.val).toUInt32).toUInt8 = .ofFin b := by
    decide +kernel
  funext a
  rw [store32, filled]
  split_ifs with inside
  · exact bytes c.toFin ⟨a - p4, by omega⟩
  · rfl

theorem tailLoop_eq (c : UInt8) (mem : Memory) (p n : Nat) :
    tailLoop c mem p n = filled mem p (p + n) c := by
  induction n generalizing mem p with
  | zero => exact (filled_empty mem p c).symm
  | succ n more =>
    rw [tailLoop, more, update_eq_filled, filled_filled mem c (by omega) (by omega)]
    congr 1
    omega

/-- The first loop ends on a word boundary or at the end of the range. -/
theorem headLoop_eq (c : UInt8) (mem : Memory) (p n : Nat) :
    ∃ k ≤ n, headLoop c mem p n = (filled mem p (p + k) c, p + k, n - k) ∧
      (4 ∣ p + k ∨ n - k = 0) := by
  induction n generalizing mem p with
  | zero => exact ⟨0, Nat.le_refl 0, by rw [headLoop, Nat.add_zero, filled_empty], .inr rfl⟩
  | succ n more =>
    rw [headLoop]
    split_ifs with unaligned
    · obtain ⟨k, small, run, ends⟩ := more (update mem p c) (p + 1)
      refine ⟨k + 1, by omega, ?_, ?_⟩
      · rw [run, update_eq_filled, filled_filled mem c (by omega) (by omega),
          show p + 1 + k = p + (k + 1) by omega, Nat.add_sub_add_right]
      · omega
    · exact ⟨0, by omega, by simp [filled_empty], .inl (by omega)⟩

theorem wordLoop_eq (c : UInt8) (mem : Memory) (words : List Nat) (p n : Nat) :
    ∃ k ≤ n, ∃ more, wordLoop ((c.toUInt32 <<< 24) ||| (c.toUInt32 <<< 16) |||
        (c.toUInt32 <<< 8) ||| c.toUInt32) mem words p n =
      (filled mem p (p + k) c, more ++ words, p + k, n - k) ∧
      ∀ a ∈ more, 4 ∣ a - p ∧ p ≤ a ∧ a + 4 ≤ p + n := by
  induction n using Nat.strong_induction_on generalizing mem words p with
  | _ n earlier =>
    by_cases big : 4 ≤ n
    · obtain ⟨m, rfl⟩ := Nat.exists_eq_add_of_le' big
      obtain ⟨k, small, more, run, stores⟩ := earlier m (by omega)
        (filled mem p (p + 4) c) (p :: words) (p + 4)
      refine ⟨k + 4, by omega, more ++ [p], ?_, ?_⟩
      · rw [wordLoop, store32_eq_filled, run, filled_filled mem c (by omega) (by omega),
          show p + 4 + k = p + (k + 4) by omega, Nat.add_sub_add_right, List.append_assoc]
        rfl
      · intro a store
        rcases List.mem_append.mp store with store | store
        · have := stores a store
          omega
        · rw [List.mem_singleton.mp store]
          omega
    · refine ⟨0, by omega, [], ?_, by simp⟩
      rw [Nat.add_zero, filled_empty]
      rcases n with _ | _ | _ | _ | n
      · rfl
      · rfl
      · rfl
      · rfl
      · omega

theorem fill_spec (dst : Nat) (v : Int) (n : Nat) :
    (fill mem dst v n).mem = filled mem dst (dst + n) (UInt8.ofInt v) ∧
      ∀ p ∈ (fill mem dst v n).words, 4 ∣ p ∧ dst ≤ p ∧ p + 4 ≤ dst + n := by
  obtain ⟨j, first, head, ends⟩ := headLoop_eq (UInt8.ofInt v) mem dst n
  obtain ⟨k, second, words, body, stores⟩ := wordLoop_eq (UInt8.ofInt v)
    (filled mem dst (dst + j) (UInt8.ofInt v)) [] (dst + j) (n - j)
  simp only [fill, head, body, List.append_nil]
  constructor
  · rw [tailLoop_eq, filled_filled _ _ (by omega) (by omega),
      filled_filled _ _ (by omega) (by omega)]
    congr 1
    omega
  · intro p store
    have := stores p store
    omega

/-- For every address, value and length `memset` sets exactly the bytes of the range, with aligned
word stores inside it, and the two libraries agree. -/
theorem memset_exact (mem : Memory) (dst : Nat) (v n : Int) :
    (Kernel.memset mem dst v n).mem =
      (fun a => if dst ≤ a ∧ (a : Int) < dst + n then UInt8.ofInt v else mem a) ∧
    (∀ p ∈ (Kernel.memset mem dst v n).words, 4 ∣ p ∧ dst ≤ p ∧ (p : Int) + 4 ≤ dst + n) ∧
    ∀ m : Nat, User.memset mem dst v m = Kernel.memset mem dst v m := by
  obtain ⟨bytes, stores⟩ := fill_spec mem dst v n.toNat
  refine ⟨?_, ?_, ?_⟩
  · rw [Kernel.memset, bytes]
    funext a
    exact if_congr (by omega) rfl rfl
  · intro p store
    have := stores p store
    omega
  · intro m
    rfl

end LibString
