import Mathlib

/-!
# The matcher of grep (`usr/grep.c`)

A `char *` is modelled by the text from there to the NUL that ends it: `s[i]` is a byte of this
text, or NUL right behind it. What a pattern means is said apart from the code: it is read from
left to right as a list of items, each with a language, and the text has to contain a word of
their product.
-/
namespace Grep
open List

abbrev Ptr := List UInt8

/-- `s[i]`. -/
def byte (s : Ptr) (i : Nat) : UInt8 := s.getD i 0

@[simp] theorem byte_nil (i : Nat) : byte [] i = 0 := rfl

@[simp] theorem byte_zero (x : UInt8) (s : Ptr) : byte (x :: s) 0 = x := rfl

@[simp] theorem byte_succ (x : UInt8) (s : Ptr) (i : Nat) : byte (x :: s) (i + 1) = byte s i := rfl

def caret : UInt8 := '^'.toUInt8
def star : UInt8 := '*'.toUInt8
def dollar : UInt8 := '$'.toUInt8
def dot : UInt8 := '.'.toUInt8

theorem lt_of_byte {s : Ptr} {i : Nat} (solid : byte s i ≠ 0) : i < s.length := by
  by_contra short
  exact solid (getD_eq_default _ _ (Nat.le_of_not_lt short))

mutual

def matchhere (re text : Ptr) : Bool :=
  if byte re 0 = 0 then
    true
  else if byte re 1 = star then
    matchstar (byte re 0) (re.drop 2) text
  else if byte re 0 = dollar ∧ byte re 1 = 0 then
    byte text 0 = 0
  else if byte text 0 ≠ 0 ∧ (byte re 0 = dot ∨ byte re 0 = byte text 0) then
    matchhere (re.drop 1) (text.drop 1)
  else
    false
termination_by (re.length, 0)
decreasing_by
  all_goals
    have := lt_of_byte ‹byte re 0 ≠ 0›
    apply Prod.Lex.left
    simp only [List.length_drop]
    omega

/-- The loop of `matchstar`; `text++` happens in every turn but the last. -/
def matchstar (c : UInt8) (re text : Ptr) : Bool :=
  if matchhere re text then
    true
  else if byte text 0 ≠ 0 ∧ (byte text 0 = c ∨ c = dot) then
    matchstar c re (text.drop 1)
  else
    false
termination_by (re.length, text.length + 1)
decreasing_by
  · apply Prod.Lex.right
    omega
  · rename_i more
    have := lt_of_byte more.1
    apply Prod.Lex.right
    simp only [List.length_drop]
    omega

end

/-- The loop of `match`. -/
def matchFrom (re text : Ptr) : Bool :=
  if matchhere re text then
    true
  else if byte text 0 ≠ 0 then
    matchFrom re (text.drop 1)
  else
    false
termination_by text.length
decreasing_by
  rename_i more
  have := lt_of_byte more
  simp only [List.length_drop]
  omega

/-- `match`, which is a keyword here. -/
def matchRe (re text : Ptr) : Bool :=
  if byte re 0 = caret then matchhere (re.drop 1) text else matchFrom re text

/-! ### What a pattern means -/

inductive Item where
  /-- A character followed by `*`. -/
  | repeated (c : UInt8)
  /-- A character by itself. -/
  | single (c : UInt8)
  /-- A `$` at the very end. -/
  | finish
  deriving DecidableEq

/-- A pattern without its `^`, read from left to right. -/
def items : List UInt8 → List Item
  | [] => []
  | [c] => if c = dollar then [.finish] else [.single c]
  | c :: d :: re => if d = star then .repeated c :: items re else .single c :: items (d :: re)

/-- The one-letter words that a character of a pattern stands for. -/
def letter (c : UInt8) : Language UInt8 := {w | ∃ x, w = [x] ∧ (c = dot ∨ x = c)}

open scoped Computability in
def Item.language : Item → Language UInt8
  | .repeated c => (letter c)∗
  | .single c => letter c
  | .finish => 1

def language (its : List Item) : Language UInt8 := (its.map Item.language).prod

/-- The text starts with a word of the pattern; with a final `$` the word is all of it. -/
def Starts (its : List Item) (text : List UInt8) : Prop :=
  ∃ found after, text = found ++ after ∧ found ∈ language its ∧ (.finish ∈ its → after = [])

theorem starts_nil (text : List UInt8) : Starts [] text :=
  ⟨[], text, rfl, Set.mem_singleton _, fun last => absurd last not_mem_nil⟩

theorem starts_finish (text : List UInt8) : Starts [.finish] text ↔ text = [] := by
  constructor
  · rintro ⟨found, after, rfl, word, last⟩
    rw [last mem_cons_self, append_nil]
    simpa [language, Item.language] using word
  · rintro rfl
    exact ⟨[], [], rfl, by simp [language, Item.language], fun _ => rfl⟩

/-- The first item takes a word off the text, and the others go on from there. -/
theorem starts_cons {first : Item} {its : List Item} (inner : first ≠ .finish) (text : List UInt8) :
    Starts (first :: its) text ↔
      ∃ word rest, text = word ++ rest ∧ word ∈ first.language ∧ Starts its rest := by
  constructor
  · rintro ⟨found, after, rfl, member, last⟩
    obtain ⟨word, here, others, there, rfl⟩ := member
    refine ⟨word, others ++ after, append_assoc .., here, others, after, rfl, there, ?_⟩
    exact fun final => last (mem_cons_of_mem _ final)
  · rintro ⟨word, rest, rfl, here, others, after, rfl, there, last⟩
    refine ⟨word ++ others, after, (append_assoc ..).symm, ?_, ?_⟩
    · rw [language, map_cons, prod_cons]
      exact Language.append_mem_mul here there
    · intro final
      rcases mem_cons.mp final with same | later
      · exact absurd same.symm inner
      · exact last later

theorem starts_single (c : UInt8) (its : List Item) (text : List UInt8) :
    Starts (.single c :: its) text ↔
      ∃ x rest, text = x :: rest ∧ (c = dot ∨ x = c) ∧ Starts its rest := by
  rw [starts_cons (by simp)]
  constructor
  · rintro ⟨_, rest, rfl, ⟨x, rfl, fits⟩, more⟩
    exact ⟨x, rest, rfl, fits, more⟩
  · rintro ⟨x, rest, rfl, fits, more⟩
    exact ⟨[x], rest, rfl, ⟨x, rfl, fits⟩, more⟩

/-- A repetition is empty, or it takes one character and goes on. -/
theorem starts_repeated (c : UInt8) (its : List Item) (text : List UInt8) :
    Starts (.repeated c :: its) text ↔ Starts its text ∨
      ∃ x rest, text = x :: rest ∧ (c = dot ∨ x = c) ∧ Starts (.repeated c :: its) rest := by
  simp only [starts_cons (show Item.repeated c ≠ .finish by simp), Item.language]
  constructor
  · rintro ⟨word, rest, rfl, repetition, more⟩
    rw [← Language.one_add_self_mul_kstar_eq_kstar, Language.mem_add, Language.mem_one,
      Language.mem_mul] at repetition
    rcases repetition with rfl | ⟨_, ⟨x, rfl, fits⟩, others, again, rfl⟩
    · exact .inl more
    · exact .inr ⟨x, others ++ rest, rfl, fits, others, rest, rfl, again, more⟩
  · rintro (more | ⟨x, _, rfl, fits, word, rest, rfl, again, more⟩)
    · exact ⟨[], text, rfl, Language.nil_mem_kstar _, more⟩
    · refine ⟨x :: word, rest, rfl, ?_, more⟩
      rw [← Language.one_add_self_mul_kstar_eq_kstar]
      exact .inr (Language.append_mem_mul (a := [x]) ⟨x, rfl, fits⟩ again)

/-! ### The matcher finds what the pattern means -/

theorem solid_cons {x : UInt8} {s : List UInt8} (solid : 0 ∉ x :: s) : x ≠ 0 ∧ 0 ∉ s := by
  rw [mem_cons, not_or] at solid
  exact ⟨fun zero => solid.1 zero.symm, solid.2⟩

theorem matchstar_iff {re : Ptr}
    (here : ∀ text, 0 ∉ text → (matchhere re text = true ↔ Starts (items re) text)) (c : UInt8)
    (text : Ptr) (solid : 0 ∉ text) :
    matchstar c re text = true ↔ Starts (.repeated c :: items re) text := by
  induction text with
  | nil =>
    rw [matchstar, starts_repeated, ← here [] solid]
    simp
  | cons x text again =>
    obtain ⟨head, tail⟩ := solid_cons solid
    rw [matchstar, starts_repeated, ← here _ solid]
    simp [head, again tail, or_comm]

/-- A character that is neither repeated nor a final `$` stands for one character of the text. -/
theorem matchhere_single {c : UInt8} {re text : Ptr} (solid : c ≠ 0) (once : byte re 0 ≠ star)
    (inner : ¬(c = dollar ∧ byte re 0 = 0)) (full : 0 ∉ text) : matchhere (c :: re) text = true ↔
      ∃ x rest, text = x :: rest ∧ (c = dot ∨ x = c) ∧ matchhere re rest = true := by
  rw [matchhere, byte_succ, byte_zero, if_neg solid, if_neg once, if_neg inner]
  cases text with
  | nil => simp
  | cons x text => simp [(solid_cons full).1, @eq_comm _ x c]

theorem matchhere_iff (re text : Ptr) (regular : 0 ∉ re) (solid : 0 ∉ text) :
    matchhere re text = true ↔ Starts (items re) text := by
  fun_induction items re generalizing text with
  | case1 => simp [matchhere, starts_nil]
  | case2 =>
    rw [matchhere, starts_finish, byte_succ, byte_nil, byte_zero, if_neg (by decide),
      if_neg (by decide), if_pos (by decide)]
    cases text with
    | nil => simp
    | cons x text => simp [(solid_cons solid).1]
  | case3 c other =>
    rw [matchhere_single (solid_cons regular).1 (by decide) (by simp [other]) solid, starts_single]
    simp [matchhere, starts_nil]
  | case4 c re ih =>
    obtain ⟨head, tail⟩ := solid_cons regular
    obtain ⟨_, rest⟩ := solid_cons tail
    rw [matchhere, byte_succ, byte_zero, byte_zero, if_neg head, if_pos rfl]
    exact matchstar_iff (fun text full => ih text rest full) c text solid
  | case5 c d re plain ih =>
    obtain ⟨head, tail⟩ := solid_cons regular
    have inner : ¬(c = dollar ∧ byte (d :: re) 0 = 0) := fun last => (solid_cons tail).1 last.2
    rw [matchhere_single head (show byte (d :: re) 0 ≠ star from plain) inner solid, starts_single]
    constructor
    · rintro ⟨x, rest, rfl, fits, more⟩
      exact ⟨x, rest, rfl, fits, (ih rest tail (solid_cons solid).2).mp more⟩
    · rintro ⟨x, rest, rfl, fits, more⟩
      exact ⟨x, rest, rfl, fits, (ih rest tail (solid_cons solid).2).mpr more⟩

/-- The loop of `match` tries every end of the text, the empty one as the last. -/
theorem matchFrom_iff (re text : Ptr) (solid : 0 ∉ text) :
    matchFrom re text = true ↔ ∃ before rest, text = before ++ rest ∧ matchhere re rest = true := by
  induction text with
  | nil =>
    rw [matchFrom]
    simp
  | cons x text again =>
    obtain ⟨head, tail⟩ := solid_cons solid
    rw [matchFrom]
    simp only [Bool.if_true_left, Bool.or_eq_true, decide_eq_true_eq, byte_zero, ne_eq, head,
      not_false_eq_true, if_true, drop_succ_cons, drop_zero, again tail]
    constructor
    · rintro (now | ⟨before, rest, rfl, later⟩)
      · exact ⟨[], _, rfl, now⟩
      · exact ⟨x :: before, rest, rfl, later⟩
    · rintro ⟨before, rest, split, found⟩
      cases before with
      | nil =>
        exact .inl (split ▸ found)
      | cons y before =>
        obtain ⟨rfl, rfl⟩ := cons.inj split
        exact .inr ⟨before, rest, rfl, found⟩

/-- The pattern without a `^` at its start. -/
def unanchored (re : List UInt8) : List UInt8 := if byte re 0 = caret then re.drop 1 else re

/-- `match` answers whether the text has, somewhere or at its start if the pattern begins with
`^`, a word of the pattern, which reaches to the end of the text if the pattern ends in `$`. -/
theorem matchRe_iff (re text : Ptr) (regular : 0 ∉ re) (solid : 0 ∉ text) :
    matchRe re text = true ↔
      ∃ before found after, text = before ++ found ++ after ∧
        found ∈ language (items (unanchored re)) ∧
        (byte re 0 = caret → before = []) ∧
        (.finish ∈ items (unanchored re) → after = []) := by
  by_cases anchored : byte re 0 = caret
  · have part : 0 ∉ re.drop 1 := fun zero => regular (List.mem_of_mem_drop zero)
    rw [matchRe, unanchored, if_pos anchored, if_pos anchored, matchhere_iff _ _ part solid]
    constructor
    · rintro ⟨found, after, split, word, last⟩
      exact ⟨[], found, after, split, word, fun _ => rfl, last⟩
    · rintro ⟨before, found, after, split, word, first, last⟩
      rw [first anchored] at split
      exact ⟨found, after, split, word, last⟩
  · rw [matchRe, unanchored, if_neg anchored, if_neg anchored, matchFrom_iff _ _ solid]
    constructor
    · rintro ⟨before, rest, rfl, here⟩
      have full : 0 ∉ rest := fun zero => solid (List.mem_append_right _ zero)
      obtain ⟨found, after, rfl, word, last⟩ := (matchhere_iff re rest regular full).mp here
      exact ⟨before, found, after, (List.append_assoc ..).symm, word,
        fun begins => absurd begins anchored, last⟩
    · rintro ⟨before, found, after, rfl, word, _, last⟩
      have full : 0 ∉ found ++ after := by
        intro zero
        rw [List.append_assoc] at solid
        exact solid (List.mem_append_right _ zero)
      exact ⟨before, found ++ after, List.append_assoc ..,
        (matchhere_iff re _ regular full).mpr ⟨found, after, rfl, word, last⟩⟩

/-- The pattern `.b$` is found in `aab`, behind its first character. -/
theorem matchRe_at_end :
    matchRe [dot, 'b'.toUInt8, dollar] ['a'.toUInt8, 'a'.toUInt8, 'b'.toUInt8] = true := by
  refine (matchRe_iff _ _ (by decide) (by decide)).mpr
    ⟨['a'.toUInt8], ['a'.toUInt8, 'b'.toUInt8], [], rfl, ?_, fun first => absurd first (by decide),
      fun _ => rfl⟩
  have parts : items (unanchored [dot, 'b'.toUInt8, dollar]) =
      [.single dot, .single 'b'.toUInt8, .finish] := by decide
  rw [parts, language]
  simp only [List.map_cons, List.map_nil, List.prod_cons, List.prod_nil, mul_one, Item.language]
  exact Language.append_mem_mul (a := ['a'.toUInt8]) ⟨_, rfl, .inl rfl⟩ ⟨_, rfl, .inr rfl⟩

end Grep
