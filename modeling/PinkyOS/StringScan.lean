import Mathlib

/-!
# Searching and converting strings (`lib/string.c`)

A range or a string is the list of its bytes, at an address. `char` is unsigned on this machine.
Reading a byte that is not in the list ends a routine with `outside`.
-/
namespace LibString
open List

/-- A NUL-terminated string, without its terminator. -/
structure CString where
  bytes : List UInt8
  noNul : 0 ∉ bytes

/-- The bytes of a string with its terminator. -/
def CString.all (str : CString) : List UInt8 := str.bytes ++ [0]

inductive Stray
  | outside
  | overflow
  deriving DecidableEq, Repr

/-- The conversion of an `int` to `uchar`. -/
def uchar (c : Int) : UInt8 := UInt8.ofInt c

/-! ### `memchr`, `strchr` and `strrchr` -/

def memchrLoop (value : UInt8) : Nat → List UInt8 → BitVec 64 → Except Stray (BitVec 64)
  | 0, _, pout => .ok pout
  | _ + 1, [], _ => .error .outside
  | num + 1, b :: rest, pout =>
    if b = value then .ok (pout + 1) else memchrLoop value num rest (pout + 1)

def memchr (bytes : List UInt8) (ptr : BitVec 64) (value : Int) (num : Nat) :
    Except Stray (BitVec 64) :=
  (memchrLoop (uchar value) num bytes ptr).map (· - 1)

/-- `strlen` counts in an `int`. -/
def strlenLoop : List UInt8 → Nat → Except Stray Nat
  | [], _ => .error .outside
  | b :: rest, n =>
    if b = 0 then .ok n
    else if n + 1 < 2 ^ 31 then strlenLoop rest (n + 1)
    else .error .overflow

def strlen (s : CString) : Except Stray Nat := strlenLoop s.all 0

def strchrLoop (character : UInt8) : List UInt8 → BitVec 64 → Except Stray (BitVec 64)
  | [], _ => .error .outside
  | b :: rest, p => if b = character then .ok p else strchrLoop character rest (p + 1)

def strchr (s : CString) (str : BitVec 64) (character : Int) : Except Stray (BitVec 64) :=
  strchrLoop (uchar character) s.all str

/-- The loop of `strrchr`, with the bytes from `lchar` downwards. -/
def strrchrLoop (character : UInt8) : List UInt8 → BitVec 64 → Except Stray (BitVec 64)
  | [], _ => .error .outside
  | b :: below, lchar =>
    if b = character then .ok lchar else strrchrLoop character below (lchar - 1)

def strrchr (s : CString) (str : BitVec 64) (character : Int) : Except Stray (BitVec 64) := do
  let n ← strlen s
  strrchrLoop (uchar character) (s.all.take (n + 1)).reverse (str + BitVec.ofNat 64 n)

/-- The character is found at the position `k`, and not before it. -/
def First (bytes : List UInt8) (c : UInt8) (k : Nat) : Prop :=
  bytes[k]? = some c ∧ ∀ j < k, bytes[j]? ≠ some c

/-- The character is found at the position `k`, and not after it. -/
def Last (bytes : List UInt8) (c : UInt8) (k : Nat) : Prop :=
  bytes[k]? = some c ∧ ∀ j > k, bytes[j]? ≠ some c

/-- A search over bytes at `ptr` returns the address of the position wanted, or `NULL` if there is
none, and reads nothing else. -/
def Reports (ptr : BitVec 64) (Wanted : Nat → Prop) (r : Except Stray (BitVec 64)) : Prop :=
  ∃ a, r = .ok a ∧ ((∃ k, Wanted k ∧ a = ptr + BitVec.ofNat 64 k) ∨ (∀ k, ¬ Wanted k) ∧ a = 0)

theorem exists_first {bytes : List UInt8} {c : UInt8} (present : c ∈ bytes) :
    ∃ k, First bytes c k := by
  induction bytes with
  | nil => cases present
  | cons b rest more =>
    by_cases here : b = c
    · exact ⟨0, by simp [here], nofun⟩
    · obtain ⟨k, found, none⟩ := more ((mem_cons.mp present).resolve_left (Ne.symm here))
      refine ⟨k + 1, found, fun j before => ?_⟩
      cases j with
      | zero => simpa using here
      | succ j => exact none j (Nat.lt_of_succ_lt_succ before)

theorem not_first {bytes : List UInt8} {c : UInt8} (absent : c ∉ bytes) (k : Nat) :
    ¬ First bytes c k :=
  fun found => absent (mem_of_getElem? found.1)

theorem last_reverse {bytes : List UInt8} {c : UInt8} {k : Nat} (first : First bytes.reverse c k) :
    Last bytes c (bytes.length - 1 - k) := by
  obtain ⟨found, none⟩ := first
  have inside : k < bytes.length := by
    by_contra beyond
    rw [getElem?_eq_none (by simpa using beyond)] at found
    cases found
  rw [getElem?_reverse inside] at found
  refine ⟨found, fun j after same => ?_⟩
  have small : j < bytes.length := by
    by_contra beyond
    rw [getElem?_eq_none (by omega)] at same
    cases same
  apply none (bytes.length - 1 - j) (by omega)
  rw [getElem?_reverse (by omega), ← same]
  congr 1
  omega

theorem memchrLoop_absent {value : UInt8} {bytes : List UInt8} (absent : value ∉ bytes)
    (pout : BitVec 64) :
    memchrLoop value bytes.length bytes pout = .ok (pout + BitVec.ofNat 64 bytes.length) := by
  induction bytes generalizing pout with
  | nil => simp [memchrLoop]
  | cons b rest more =>
    rw [mem_cons, not_or] at absent
    rw [length_cons, memchrLoop, if_neg (Ne.symm absent.1), more absent.2,
      Nat.add_comm rest.length, BitVec.ofNat_add, BitVec.add_assoc]
    rfl

theorem strchrLoop_absent {c : UInt8} {bytes : List UInt8} (absent : c ∉ bytes) (p : BitVec 64) :
    strchrLoop c bytes p = .error .outside := by
  induction bytes generalizing p with
  | nil => rfl
  | cons b rest more =>
    rw [mem_cons, not_or] at absent
    rw [strchrLoop, if_neg (Ne.symm absent.1), more absent.2]

theorem strchrLoop_first {c : UInt8} {bytes : List UInt8} {k : Nat} (first : First bytes c k)
    (p : BitVec 64) : strchrLoop c bytes p = .ok (p + BitVec.ofNat 64 k) := by
  induction bytes generalizing k p with
  | nil => cases first.1
  | cons b rest more =>
    rw [strchrLoop]
    cases k with
    | zero =>
      rw [if_pos (by simpa using first.1)]
      simp
    | succ k =>
      rw [if_neg fun here => first.2 0 k.succ_pos (by simpa using here),
        more ⟨first.1, fun j before => first.2 (j + 1) (Nat.succ_lt_succ before)⟩,
        Nat.add_comm k, BitVec.ofNat_add, BitVec.add_assoc p]
      rfl

theorem memchrLoop_present {value : UInt8} {bytes : List UInt8} (present : value ∈ bytes)
    (pout : BitVec 64) :
    memchrLoop value bytes.length bytes pout = (strchrLoop value bytes pout).map (· + 1) := by
  induction bytes generalizing pout with
  | nil => cases present
  | cons b rest more =>
    rw [length_cons, memchrLoop, strchrLoop]
    split_ifs with here
    · rfl
    · exact more ((mem_cons.mp present).resolve_left (Ne.symm here)) (pout + 1)

/-- Downwards from `lchar` is upwards in the negated addresses. -/
theorem strrchrLoop_eq (c : UInt8) (below : List UInt8) (lchar : BitVec 64) :
    strrchrLoop c below lchar = (strchrLoop c below (-lchar)).map (- ·) := by
  induction below generalizing lchar with
  | nil => rfl
  | cons b below more =>
    rw [strrchrLoop, strchrLoop]
    split_ifs
    · simp [Except.map]
    · rw [more, show -(lchar - 1) = -lchar + 1 by bv_omega]

theorem strlenLoop_eq {bytes : List UInt8} (noNul : 0 ∉ bytes) (n : Nat) :
    strlenLoop (bytes ++ [0]) n =
      if n + bytes.length < 2 ^ 31 ∨ bytes = [] then .ok (n + bytes.length)
      else .error .overflow := by
  induction bytes generalizing n with
  | nil => simp [strlenLoop]
  | cons b rest more =>
    rw [mem_cons, not_or] at noNul
    rw [cons_append, strlenLoop, if_neg (Ne.symm noNul.1), more noNul.2, length_cons]
    split_ifs <;> grind

theorem reports_at {ptr a : BitVec 64} {Wanted : Nat → Prop} {k : Nat} (wanted : Wanted k)
    (at' : a = ptr + BitVec.ofNat 64 k) : Reports ptr Wanted (.ok a) :=
  ⟨a, rfl, .inl ⟨k, wanted, at'⟩⟩

theorem memchr_exact_iff (bytes : List UInt8) (ptr : BitVec 64) (c : Int) :
    Reports ptr (First bytes (uchar c)) (memchr bytes ptr c bytes.length) ↔
      uchar c ∈ bytes ∨ ptr + BitVec.ofNat 64 bytes.length = 1 := by
  by_cases present : uchar c ∈ bytes
  · simp only [present, true_or, iff_true]
    obtain ⟨k, first⟩ := exists_first present
    rw [memchr, memchrLoop_present present, strchrLoop_first first]
    exact reports_at first (BitVec.add_sub_cancel ..)
  · rw [memchr, memchrLoop_absent present]
    simp only [present, false_or]
    constructor
    · rintro ⟨a, same, ⟨k, first, -⟩ | ⟨-, null⟩⟩
      · exact absurd first (not_first present k)
      · cases same
        bv_omega
    · intro last
      exact ⟨_, rfl, .inr ⟨not_first present, by rw [last]; rfl⟩⟩

theorem strchr_exact_iff (s : CString) (ptr : BitVec 64) (c : Int) :
    Reports ptr (First s.all (uchar c)) (strchr s ptr c) ↔ uchar c ∈ s.all := by
  rw [strchr]
  constructor
  · rintro ⟨a, found, -⟩
    by_contra absent
    rw [strchrLoop_absent absent] at found
    cases found
  · intro present
    obtain ⟨k, first⟩ := exists_first present
    rw [strchrLoop_first first]
    exact reports_at first rfl

theorem strrchr_exact_iff (s : CString) (ptr : BitVec 64) (c : Int) :
    Reports ptr (Last s.all (uchar c)) (strrchr s ptr c) ↔
      uchar c ∈ s.all ∧ s.bytes.length < 2 ^ 31 := by
  have length : s.all.length = s.bytes.length + 1 := by simp [CString.all]
  rw [strrchr, strlen, CString.all, strlenLoop_eq s.noNul, ← CString.all]
  by_cases short : s.bytes.length < 2 ^ 31
  · rw [if_pos (.inl (by omega))]
    simp only [short, and_true, Nat.zero_add]
    change Reports ptr _ (strrchrLoop _ (s.all.take (s.bytes.length + 1)).reverse _) ↔ _
    rw [← length, List.take_length, strrchrLoop_eq]
    constructor
    · rintro ⟨a, found, -⟩
      by_contra absent
      rw [strchrLoop_absent (by simpa using absent)] at found
      cases found
    · intro present
      obtain ⟨k, first⟩ := exists_first (List.mem_reverse.mpr present)
      have inside : k < s.all.length := by
        simpa using (List.getElem?_eq_some_iff.mp first.1).1
      rw [strchrLoop_first first]
      refine reports_at (last_reverse first) ?_
      rw [show s.bytes.length = s.all.length - 1 - k + k by omega, BitVec.ofNat_add]
      bv_omega
  · rw [if_neg (by grind)]
    simp only [short, and_false, iff_false]
    rintro ⟨a, found, -⟩
    cases found

/-- `memchr` reports absence only if the range ends at the address 0, and the other two not at
all: they read on past the end, or below the start, of the string. -/
theorem search_exact_iff (bytes : List UInt8) (s : CString) (ptr : BitVec 64) (c : Int) :
    (Reports ptr (First bytes (uchar c)) (memchr bytes ptr c bytes.length) ↔
      uchar c ∈ bytes ∨ ptr + BitVec.ofNat 64 bytes.length = 1) ∧
    (Reports ptr (First s.all (uchar c)) (strchr s ptr c) ↔ uchar c ∈ s.all) ∧
    (Reports ptr (Last s.all (uchar c)) (strrchr s ptr c) ↔
      uchar c ∈ s.all ∧ s.bytes.length < 2 ^ 31) :=
  ⟨memchr_exact_iff bytes ptr c, strchr_exact_iff s ptr c, strrchr_exact_iff s ptr c⟩

/-- Nothing is found in an empty range or string: the address before the range, and a read past
the terminator. -/
theorem search_empty :
    memchr [] 4096 97 0 = .ok 4095 ∧ strchr ⟨[], nofun⟩ 4096 97 = .error .outside ∧
      strrchr ⟨[], nofun⟩ 4096 97 = .error .outside := by
  decide

/-! ### `strtoul` -/

/-- The two tests of `strtoul` on a character. -/
def digitVal (c : UInt8) : Option Nat :=
  let lc := c ||| 0x20
  if 48 ≤ c ∧ c ≤ 57 then some (c.toNat - 48)
  else if 97 ≤ lc ∧ lc ≤ 102 then some (lc.toNat - 97 + 10)
  else none

/-- The loop of `strtoul`; `p` counts the characters from `str`. -/
def strtoulLoop (base : Nat) : List UInt8 → Nat → BitVec 64 → BitVec 64 × Nat
  | [], p, res => (res, p)
  | c :: rest, p, res =>
    -- `p` moves on before the character is looked at
    match digitVal c with
    | none => (res, p + 1)
    | some val =>
      if val ≥ base then (res, p + 1)
      else strtoulLoop base rest (p + 1) (res * BitVec.ofNat 64 base + BitVec.ofNat 64 val)

/-- `strtoul`, with what is stored at `*endptr` if `endptr` is not `NULL`. The variable `res` is
not initialised: `junk` is what it holds. -/
def strtoul (junk : BitVec 64) (str : CString) (endptr : Bool) (base : Nat) :
    BitVec 64 × Option Nat :=
  let (res, p) := strtoulLoop base str.bytes 0 junk
  (res, if endptr then some p else none)

/-- The characters that stand for a digit. -/
def spelled (d : Nat) : List UInt8 :=
  if d < 10 then [(48 + d).toUInt8] else [(87 + d).toUInt8, (55 + d).toUInt8]

/-- The digit of a base up to 16 that a character stands for. -/
def digit (base : Nat) (c : UInt8) : Option Nat :=
  ((List.range 16).find? (c ∈ spelled ·)).filter (· < base)

/-- The digits of the longest prefix that consists of digits. -/
def digits (base : Nat) : List UInt8 → List Nat
  | [] => []
  | c :: rest => match digit base c with
    | none => []
    | some d => d :: digits base rest

theorem digitVal_eq (c : UInt8) : digitVal c = (range 16).find? (c ∈ spelled ·) := by
  have all : ∀ n : Fin 256, digitVal (.ofFin n) = (range 16).find? (.ofFin n ∈ spelled ·) := by
    decide +kernel
  exact all c.toFin

theorem length_digits_le (base : Nat) (str : List UInt8) :
    (digits base str).length ≤ str.length := by
  fun_induction digits base str <;> simp_all

/-- One digit of the loop, and its two ways out at another character. -/
theorem strtoulLoop_cons (base : Nat) (c : UInt8) (rest : List UInt8) (p : Nat)
    (res : BitVec 64) : strtoulLoop base (c :: rest) p res = match digit base c with
      | none => (res, p + 1)
      | some d => strtoulLoop base rest (p + 1)
          (res * BitVec.ofNat 64 base + BitVec.ofNat 64 d) := by
  rw [strtoulLoop, digit, ← digitVal_eq]
  cases digitVal c with
  | none => rfl
  | some d =>
    by_cases small : d < base
    · simp [Option.filter_some, small, Nat.not_le.mpr small]
    · simp [Option.filter_some, small, Nat.le_of_not_lt small]

/-- What was in `res` stays as a leading digit, and the end pointer is one too far unless the
digits reach the terminator. -/
theorem strtoulLoop_eq (base : Nat) (str : List UInt8) (p : Nat) (res : BitVec 64) :
    strtoulLoop base str p res =
      (res * BitVec.ofNat 64 (base ^ (digits base str).length) +
          BitVec.ofNat 64 (Nat.ofDigits base (digits base str).reverse),
        p + (digits base str).length + if (digits base str).length < str.length then 1 else 0) := by
  induction str generalizing p res with
  | nil => simp [strtoulLoop, digits]
  | cons c rest more =>
    rw [strtoulLoop_cons, digits]
    cases digit base c with
    | none => simp
    | some d =>
      simp only [more, length_cons, reverse_cons, Nat.ofDigits_append,
        Nat.ofDigits_singleton, length_reverse, Nat.add_lt_add_iff_right, pow_succ,
        Prod.mk.injEq]
      constructor
      · rw [BitVec.ofNat_mul, BitVec.ofNat_add, BitVec.ofNat_mul]
        grind
      · omega

/-- `strtoul` is right whatever `res` held exactly if the digits shift that out of 64 bits, and its
end pointer exactly if every character is a digit. -/
theorem strtoul_exact_iff (base : Nat) (str : CString) (endptr : Bool) :
    (∀ junk, strtoul junk str endptr base =
      (BitVec.ofNat 64 (Nat.ofDigits base (digits base str.bytes).reverse),
        if endptr then some (digits base str.bytes).length else none)) ↔
      2 ^ 64 ∣ base ^ (digits base str.bytes).length ∧
        (endptr = true → (digits base str.bytes).length = str.bytes.length) := by
  have shifted : BitVec.ofNat 64 (base ^ (digits base str.bytes).length) = 0 ↔
      2 ^ 64 ∣ base ^ (digits base str.bytes).length := by
    rw [← BitVec.toNat_inj, BitVec.toNat_ofNat, Nat.dvd_iff_mod_eq_zero]
    rfl
  have atMost := length_digits_le base str.bytes
  simp only [strtoul, strtoulLoop_eq, Prod.mk.injEq, Nat.zero_add, ← shifted]
  constructor
  · intro right
    constructor
    · simpa using (right 1#64).1
    · rintro rfl
      have stop := (right 0).2
      simp only [if_true, Option.some.injEq] at stop
      split_ifs at stop <;> omega
  · rintro ⟨zero, all⟩ junk
    constructor
    · simp [zero]
    · cases endptr with
      | false => rfl
      | true => simp [all rfl]

/-- The empty string gives what `res` held, and `*endptr` is set past a character that is not
a digit. -/
theorem strtoul_junk :
    strtoul 7 ⟨[], nofun⟩ true 10 = (7, some 0) ∧
      strtoul 0 ⟨[0x31, 0x78], by decide⟩ true 10 = (1, some 2) := by
  decide

end LibString
