import Mathlib

/-!
# Formatted output of the kernel and of user programs (`console.c`, `usr/printf.c`)

What `consputc` and `putc` are given is collected in a list. The arguments behind the format are
the 64-bit slots that `va_arg` takes one after the other; of an argument that is an `int` only the
lower half of its slot is defined. `mem` gives the text that a `char *` points to.
-/
namespace Printf
open List

inductive Fault where
  | panic (msg : String)
  /-- A digit is stored outside the 16 bytes of `buf`. -/
  | digitBuffer
  /-- `va_arg` is called once more than there are arguments. -/
  | noArgument
  deriving DecidableEq

abbrev Text := List UInt8

def text (s : String) : Text := s.toList.map Char.toUInt8

/-- `buf[i++] = c` for a `buf` of 16 bytes, of which the first `i` are given. -/
def store (buf : Text) (c : UInt8) : Except Fault Text :=
  if buf.length < 16 then .ok (buf ++ [c]) else .error .digitBuffer

/-- `do { buf[i++] = digits[x % base]; } while((x /= base) != 0);` -/
def putDigits (digits : Text) (base x : Nat) (buf : Text) : Except Fault Text :=
  if buf.length < 16 then
    let buf := buf ++ [digits.getD (x % base) 0]
    if x / base ≠ 0 then putDigits digits base (x / base) buf else .ok buf
  else
    .error .digitBuffer
termination_by 16 - buf.length
decreasing_by
  simp only [List.length_append, List.length_cons, List.length_nil]
  omega

/-- What the two `printint` have in common: the digits of `x`, with a sign if there is one. -/
def printDigits (digits : Text) (base x : Nat) (neg : Bool) : Except Fault Text := do
  let buf ← putDigits digits base x []
  let buf ← if neg then store buf '-'.toUInt8 else pure buf
  return buf.reverse

namespace Kernel

def digits : Text := text "0123456789abcdef"

def printint (xx : UInt64) (base : Nat) (sign : Bool) : Except Fault Text :=
  -- The comparison is one of `uint64` values.
  let sign := sign && xx < 0
  let x := if sign then -xx else xx
  printDigits digits base x.toNat sign

/-- The loop of `cprintf`. -/
def format (mem : UInt64 → Text) : Text → List UInt64 → Except Fault Text
  | [], _ => .ok []
  | c :: fmt, args =>
    if c ≠ '%'.toUInt8 then do
      return c :: (← format mem fmt args)
    else
      match fmt with
      | [] => .ok []
      | c :: fmt =>
        if c = 'd'.toUInt8 then
          match args with
          | [] => .error .noArgument
          | arg :: args => do
            return (← printint arg.toUInt32.toUInt64 10 true) ++ (← format mem fmt args)
        else if c = 'x'.toUInt8 ∨ c = 'p'.toUInt8 then
          match args with
          | [] => .error .noArgument
          | arg :: args => do
            return (← printint arg 16 false) ++ (← format mem fmt args)
        else if c = 's'.toUInt8 then
          match args with
          | [] => .error .noArgument
          | arg :: args => do
            return (if arg = 0 then text "(null)" else mem arg) ++ (← format mem fmt args)
        else if c = '%'.toUInt8 then do
          return '%'.toUInt8 :: (← format mem fmt args)
        else do
          return '%'.toUInt8 :: c :: (← format mem fmt args)

/-- `cprintf`; a null pointer for the format is `none`. -/
def cprintf (mem : UInt64 → Text) (fmt : Option Text) (args : List UInt64) : Except Fault Text :=
  match fmt with
  | none => .error (.panic "null fmt")
  | some fmt => format mem fmt args

end Kernel

namespace User

def digits : Text := text "0123456789ABCDEF"

def printint (xx : Int32) (base : Nat) (sgn : Bool) : Except Fault Text :=
  let neg := sgn && xx < 0
  let x := if neg then (-xx).toUInt32 else xx.toUInt32
  printDigits digits base x.toNat neg

/-- The loop of `printf`; `state` says whether a `%` has been seen. -/
def format (mem : UInt64 → Text) : Bool → Text → List UInt64 → Except Fault Text
  | _, [], _ => .ok []
  | false, c :: fmt, args =>
    if c = '%'.toUInt8 then format mem true fmt args else do
      return c :: (← format mem false fmt args)
  | true, c :: fmt, args =>
    if c = 'd'.toUInt8 then
      match args with
      | [] => .error .noArgument
      | arg :: args => do
        return (← printint arg.toUInt32.toInt32 10 true) ++ (← format mem false fmt args)
    else if c = 'x'.toUInt8 ∨ c = 'p'.toUInt8 then
      match args with
      | [] => .error .noArgument
      | arg :: args => do
        return (← printint arg.toUInt32.toInt32 16 false) ++ (← format mem false fmt args)
    else if c = 's'.toUInt8 then
      match args with
      | [] => .error .noArgument
      | arg :: args => do
        return (if arg = 0 then text "(null)" else mem arg) ++ (← format mem false fmt args)
    else if c = 'c'.toUInt8 then
      match args with
      | [] => .error .noArgument
      | arg :: args => do
        return arg.toUInt8 :: (← format mem false fmt args)
    else if c = '%'.toUInt8 then do
      return c :: (← format mem false fmt args)
    else do
      return '%'.toUInt8 :: c :: (← format mem false fmt args)

def printf (mem : UInt64 → Text) (fmt : Text) (args : List UInt64) : Except Fault Text :=
  format mem false fmt args

end User

/-! ### Numerals -/

/-- The digits of `n`, the lowest first; zero has one. -/
def places (base n : Nat) : List Nat := if n = 0 then [0] else Nat.digits base n

/-- The decimal numeral of a number. -/
def numeral (n : Nat) : Text := ((places 10 n).map fun d => '0'.toUInt8 + d.toUInt8).reverse

/-- The decimal numeral of an integer. -/
def decimal (v : Int) : Text := if v < 0 then '-'.toUInt8 :: numeral v.natAbs else numeral v.natAbs

theorem places_small {base n : Nat} (two : 1 < base) (below : n / base = 0) :
    places base n = [n % base] := by
  have small : n < base := by
    rcases Nat.div_eq_zero_iff.mp below with zero | less <;> omega
  rw [places]
  split_ifs with zero
  · simp [zero]
  · rw [Nat.digits_of_lt base n zero small, Nat.mod_eq_of_lt small]

theorem places_large {base n : Nat} (two : 1 < base) (more : n / base ≠ 0) :
    places base n = n % base :: places base (n / base) := by
  have pos : 0 < n := by
    rcases Nat.eq_zero_or_pos n with rfl | pos
    · simp at more
    · exact pos
  rw [places, places, if_neg (by omega), if_neg more, Nat.digits_def' two pos]

theorem length_places_le {base n k : Nat} (two : 1 < base) (some_place : 0 < k)
    (below : n < base ^ k) : (places base n).length ≤ k := by
  rw [places]
  split_ifs with zero
  · exact some_place
  · exact (Nat.digits_length_le_iff two n).mpr below

theorem putDigits_eq (digits : Text) {base : Nat} (two : 1 < base) (x : Nat) (buf : Text)
    (room : buf.length + (places base x).length ≤ 16) :
    putDigits digits base x buf = .ok (buf ++ (places base x).map fun d => digits.getD d 0) := by
  induction x using Nat.strong_induction_on generalizing buf with
  | _ x lower =>
    rw [putDigits]
    by_cases more : x / base = 0
    · rw [places_small two more] at room ⊢
      simp only [length_cons, length_nil] at room
      rw [if_pos (by omega)]
      simp [more]
    · rw [places_large two more] at room ⊢
      simp only [length_cons] at room
      have smaller : x / base < x := by
        apply Nat.div_lt_self _ two
        rcases Nat.eq_zero_or_pos x with rfl | pos
        · simp at more
        · exact pos
      rw [if_pos (by omega)]
      simp only [ne_eq, more, not_false_eq_true, if_true]
      have left : (buf ++ [digits.getD (x % base) 0]).length +
          (places base (x / base)).length ≤ 16 := by
        rw [length_append, length_singleton]
        omega
      rw [lower _ smaller _ left]
      simp

theorem printDigits_eq (digits : Text) {base x k : Nat} {neg : Bool} (two : 1 < base)
    (below : x < base ^ (k + 1)) (room : k + 1 + neg.toNat ≤ 16) : printDigits digits base x neg =
      .ok ((if neg then ['-'.toUInt8] else []) ++
        ((places base x).map fun d => digits.getD d 0).reverse) := by
  have short : (places base x).length ≤ k + 1 := length_places_le two (Nat.succ_pos k) below
  rw [printDigits, putDigits_eq digits two x [] (by rw [length_nil]; omega)]
  cases neg with
  | false => rfl
  | true =>
    have fits : (places base x).length < 16 := by
      simp only [Bool.toNat_true] at room
      omega
    simp [bind, Except.bind, store, fits, pure, Except.pure]

theorem lt_of_mem_places {base n d : Nat} (two : 1 < base) (member : d ∈ places base n) :
    d < base := by
  rw [places] at member
  split_ifs at member with zero
  · rw [mem_singleton.mp member]
    omega
  · exact Nat.digits_lt_base two member

/-- In base 10 both tables of digits give the numeral. -/
theorem numeral_eq {digits : Text} (tens : ∀ d < 10, digits.getD d 0 = '0'.toUInt8 + d.toUInt8)
    (n : Nat) : ((places 10 n).map fun d => digits.getD d 0).reverse = numeral n := by
  rw [numeral]
  congr 1
  apply map_congr_left
  intro d member
  exact tens d (lt_of_mem_places (by decide) member)

theorem Kernel.printint_unsigned (xx : UInt64) (base : Nat) (sign : Bool) :
    Kernel.printint xx base sign = printDigits Kernel.digits base xx.toNat false := by
  have never : (sign && decide (xx < 0)) = false := by simp
  rw [Kernel.printint, never]
  rfl

theorem Kernel.printint_decimal (u : UInt32) (sign : Bool) :
    Kernel.printint u.toUInt64 10 sign = .ok (numeral u.toNat) := by
  have below : u.toUInt64.toNat < 10 ^ (9 + 1) := by
    have := u.toNat_lt
    rw [UInt32.toNat_toUInt64]
    omega
  rw [Kernel.printint_unsigned, printDigits_eq Kernel.digits (by decide) below (by decide),
    numeral_eq (by decide), UInt32.toNat_toUInt64]
  rfl

theorem toInt_eq (v : Int32) :
    v.toInt = if 2 * v.toUInt32.toNat < 2 ^ 32 then (v.toUInt32.toNat : Int)
      else (v.toUInt32.toNat : Int) - 2 ^ 32 :=
  v.toBitVec.toInt_eq_toNat_cond

/-- The absolute value is right for the least `int` too, although `-xx` overflows there. -/
theorem toNat_abs (v : Int32) :
    (if v < 0 then (-v).toUInt32 else v.toUInt32).toNat = v.toInt.natAbs := by
  have value := toInt_eq v
  have bound := v.toUInt32.toNat_lt
  by_cases minus : v < 0
  · have opposite : (-v).toUInt32.toNat = (2 ^ 32 - v.toUInt32.toNat) % 2 ^ 32 :=
      BitVec.toNat_neg v.toBitVec
    have below : v.toInt < 0 := Int32.lt_iff_toInt_lt.mp minus
    rw [if_pos minus, opposite]
    split_ifs at value <;> omega
  · have above : ¬v.toInt < 0 := fun below => minus (Int32.lt_iff_toInt_lt.mpr below)
    rw [if_neg minus]
    split_ifs at value <;> omega

theorem natAbs_toInt_le (v : Int32) : v.toInt.natAbs ≤ 2 ^ 31 := by
  have value := toInt_eq v
  have bound := v.toUInt32.toNat_lt
  split_ifs at value <;> omega

theorem User.printint_decimal (xx : Int32) : User.printint xx 10 true = .ok (decimal xx.toInt) := by
  have below : xx.toInt.natAbs < 10 ^ (9 + 1) := by
    have := natAbs_toInt_le xx
    omega
  have room : 9 + 1 + (decide (xx < 0)).toNat ≤ 16 := by
    have := (decide (xx < 0)).toNat_le
    omega
  have sign : xx < 0 ↔ xx.toInt < 0 := Int32.lt_iff_toInt_lt
  rw [User.printint]
  simp only [Bool.true_and, decide_eq_true_eq, toNat_abs]
  rw [printDigits_eq User.digits (by decide) below room, numeral_eq (by decide), decimal]
  by_cases minus : xx < 0
  · simp [minus, sign.mp minus]
  · simp [minus, mt sign.mpr minus]

/-- The slot of an argument that is an `int`, with anything in its upper half. -/
def slot (upper : UInt32) (v : Int32) : UInt64 :=
  UInt64.ofNat (upper.toNat * 2 ^ 32 + v.toUInt32.toNat)

theorem toUInt32_slot (upper : UInt32) (v : Int32) : (slot upper v).toUInt32 = v.toUInt32 := by
  apply UInt32.toNat_inj.mp
  rw [UInt64.toNat_toUInt32, slot, UInt64.toNat_ofNat']
  have low := v.toUInt32.toNat_lt
  omega

theorem Kernel.cprintf_d (mem : UInt64 → Text) (upper : UInt32) (v : Int32) :
    Kernel.cprintf mem (some (text "%d")) [slot upper v] = .ok (numeral v.toUInt32.toNat) := by
  have run : Kernel.cprintf mem (some (text "%d")) [slot upper v] =
      (do return (← Kernel.printint (slot upper v).toUInt32.toUInt64 10 true) ++ []) := rfl
  rw [run, Kernel.printint_decimal, toUInt32_slot]
  simp [bind, Except.bind, pure, Except.pure]

theorem User.printf_d (mem : UInt64 → Text) (upper : UInt32) (v : Int32) :
    User.printf mem (text "%d") [slot upper v] = .ok (decimal v.toInt) := by
  have run : User.printf mem (text "%d") [slot upper v] =
      (do return (← User.printint (slot upper v).toUInt32.toInt32 10 true) ++ []) := rfl
  rw [run, toUInt32_slot, Int32.toInt32_toUInt32, User.printint_decimal]
  simp [bind, Except.bind, pure, Except.pure]

theorem minus_not_mem_numeral (n : Nat) : '-'.toUInt8 ∉ numeral n := by
  intro minus
  rw [numeral, mem_reverse, mem_map] at minus
  obtain ⟨d, place, same⟩ := minus
  have digit : d < 10 := lt_of_mem_places (by decide) place
  interval_cases d <;> revert same <;> decide

theorem decimal_eq_iff (v : Int32) : numeral v.toUInt32.toNat = decimal v.toInt ↔ 0 ≤ v.toInt := by
  rw [decimal]
  split_ifs with minus
  · constructor
    · intro same
      exact absurd (same ▸ mem_cons_self) (minus_not_mem_numeral _)
    · omega
  · have value := toInt_eq v
    have bound := v.toUInt32.toNat_lt
    have same : v.toInt.natAbs = v.toUInt32.toNat := by
      split_ifs at value <;> omega
    rw [same]
    simp only [true_iff]
    omega

/-- No value with which `cprintf` and `printf` call their `printint` overruns its buffer. -/
theorem digits_fit (arg : UInt64) : (∃ t, Kernel.printint arg.toUInt32.toUInt64 10 true = .ok t) ∧
      (∃ t, Kernel.printint arg 16 false = .ok t) ∧
      (∃ t, User.printint arg.toUInt32.toInt32 10 true = .ok t) ∧
      ∃ t, User.printint arg.toUInt32.toInt32 16 false = .ok t := by
  refine ⟨⟨_, Kernel.printint_decimal ..⟩, ?_, ⟨_, User.printint_decimal _⟩, ?_⟩
  · have below : arg.toNat < 16 ^ (15 + 1) := arg.toNat_lt
    rw [Kernel.printint_unsigned]
    exact ⟨_, printDigits_eq Kernel.digits (by decide) below (by decide)⟩
  · have below : arg.toUInt32.toNat < 16 ^ (7 + 1) := arg.toUInt32.toNat_lt
    exact ⟨_, printDigits_eq User.digits (by decide) below (by simp)⟩

/-- The kernel prints an `int` as the user's `printf` does, and both as its decimal numeral,
exactly if it is not negative: `cprintf` fetches it as a `uint`. Neither overruns its buffer. -/
theorem print_agree_iff (mem : UInt64 → Text) (upper : UInt32) (v : Int32) :
    ((Kernel.cprintf mem (some (text "%d")) [slot upper v] = .ok (decimal v.toInt) ∧
        User.printf mem (text "%d") [slot upper v] = .ok (decimal v.toInt)) ↔ 0 ≤ v.toInt) ∧
      ∀ arg : UInt64,
        (∃ t, Kernel.printint arg.toUInt32.toUInt64 10 true = .ok t) ∧
        (∃ t, Kernel.printint arg 16 false = .ok t) ∧
        (∃ t, User.printint arg.toUInt32.toInt32 10 true = .ok t) ∧
        ∃ t, User.printint arg.toUInt32.toInt32 16 false = .ok t := by
  refine ⟨?_, digits_fit⟩
  rw [Kernel.cprintf_d, User.printf_d, and_iff_left rfl, Except.ok.injEq]
  exact decimal_eq_iff v

/-- `cprintf` prints -1 as 4294967295. -/
theorem cprintf_minus_one :
    Kernel.cprintf (fun _ => []) (some (text "%d")) [slot 0 (-1)] = .ok (text "4294967295") ∧
      User.printf (fun _ => []) (text "%d") [slot 0 (-1)] = .ok (text "-1") := by
  rw [Kernel.cprintf_d, User.printf_d]
  decide

end Printf
