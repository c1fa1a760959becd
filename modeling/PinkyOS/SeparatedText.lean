import Mathlib

/-!
# Texts cut at a separator

A text falls into lines, each closed by a separator, and a rest without one. Reading it in two
parts, the rest of the first part goes before the second.
-/
namespace SeparatedText
open List

variable {α : Type} [DecidableEq α] (sep : α)

/-- The lines of a text, each without the separator that closes it. -/
def lines (s : List α) : List (List α) := (s.splitOn sep).dropLast

/-- What comes after the last separator. -/
def rest (s : List α) : List α := (s.splitOn sep).getLast (List.splitOn_ne_nil sep s)

/-- How much of the text is in its lines. -/
def closed (s : List α) : Nat := s.length - (rest sep s).length

variable {sep}

theorem lines_of_notMem {s : List α} (without : sep ∉ s) : lines sep s = [] := by
  rw [lines, splitOn_eq_singleton without, dropLast_singleton]

theorem rest_of_notMem {s : List α} (without : sep ∉ s) : rest sep s = s := by
  simp only [rest, splitOn_eq_singleton without, getLast_singleton]

theorem lines_line {l : List α} (without : sep ∉ l) (t : List α) :
    lines sep (l ++ sep :: t) = l :: lines sep t := by
  rw [lines, splitOn_append_cons_self_of_not_mem without,
    dropLast_cons_of_ne_nil (splitOn_ne_nil sep t), lines]

theorem lines_single {l : List α} (without : sep ∉ l) : lines sep (l ++ [sep]) = [l] := by
  rw [lines_line without, lines_of_notMem not_mem_nil]

theorem rest_line (l t : List α) : rest sep (l ++ sep :: t) = rest sep t := by
  simp only [rest, splitOn_append_cons_self,
    getLast_append_of_ne_nil _ (splitOn_ne_nil sep t)]

/-- A text has no separator, or it is a line and the text behind it. -/
@[elab_as_elim]
theorem line_induction (sep : α) {motive : List α → Prop} (last : ∀ s, sep ∉ s → motive s)
    (line : ∀ l t, sep ∉ l → motive t → motive (l ++ sep :: t)) (s : List α) : motive s := by
  induction size : s.length using Nat.strongRecOn generalizing s with
  | _ n ih =>
    by_cases found : sep ∈ s
    · obtain ⟨l, t, rfl, without⟩ := eq_append_cons_of_mem found
      rw [length_append, length_cons] at size
      exact line l t without (ih t.length (by omega) t rfl)
    · exact last s found

theorem lines_append (sep : α) (s t : List α) :
    lines sep (s ++ t) = lines sep s ++ lines sep (rest sep s ++ t) := by
  induction s using line_induction sep with
  | last s without => rw [lines_of_notMem without, rest_of_notMem without, nil_append]
  | line l u without ih =>
    rw [append_assoc, cons_append, lines_line without, lines_line without, ih, rest_line,
      cons_append]

theorem notMem_rest (sep : α) (s : List α) : sep ∉ rest sep s := by
  induction s using line_induction sep with
  | last s without => rwa [rest_of_notMem without]
  | line l t without ih => rwa [rest_line]

theorem rest_suffix (sep : α) (s : List α) : rest sep s <:+ s := by
  induction s using line_induction sep with
  | last s without =>
    exact ⟨[], by rw [rest_of_notMem without, nil_append]⟩
  | line l t without ih =>
    rw [rest_line]
    exact ih.trans ((suffix_cons sep t).trans (suffix_append l _))

theorem drop_closed (sep : α) (s : List α) : s.drop (closed sep s) = rest sep s :=
  (suffix_iff_eq_drop.mp (rest_suffix sep s)).symm

theorem closed_add_rest (sep : α) (s : List α) : closed sep s + (rest sep s).length = s.length :=
  Nat.sub_add_cancel (rest_suffix sep s).length_le

theorem closed_of_notMem {s : List α} (without : sep ∉ s) : closed sep s = 0 := by
  rw [closed, rest_of_notMem without, Nat.sub_self]

theorem closed_line (l t : List α) : closed sep (l ++ sep :: t) = l.length + 1 + closed sep t := by
  have whole := closed_add_rest sep (l ++ sep :: t)
  have part := closed_add_rest sep t
  rw [rest_line, length_append, length_cons] at whole
  omega

/-- The lines end with the last separator. -/
theorem mem_drop_iff (sep : α) (s : List α) (k : Nat) : sep ∈ s.drop k ↔ k < closed sep s := by
  induction s using line_induction sep generalizing k with
  | last s without =>
    rw [closed_of_notMem without]
    exact iff_of_false (fun found => without (mem_of_mem_drop found)) (Nat.not_lt_zero k)
  | line l t without ih =>
    rw [closed_line]
    by_cases early : k ≤ l.length
    · rw [drop_append_of_le_length early]
      exact iff_of_true (mem_append_right _ (mem_cons_self ..)) (by omega)
    · rw [drop_append, drop_of_length_le (by omega), nil_append,
        show k - l.length = (k - l.length - 1) + 1 by omega, drop_succ_cons, ih]
      omega

theorem mem_iff_closed_pos (sep : α) (s : List α) : sep ∈ s ↔ 0 < closed sep s := by
  have here := mem_drop_iff sep s 0
  rwa [drop_zero] at here

theorem lines_eq_nil_iff (sep : α) (s : List α) : lines sep s = [] ↔ sep ∉ s := by
  constructor
  · intro none found
    obtain ⟨l, t, rfl, without⟩ := eq_append_cons_of_mem found
    rw [lines_line without] at none
    cases none
  · exact lines_of_notMem

/-- A part without a separator belongs to the first line. -/
theorem head?_lines_append {s : List α} (without : sep ∉ s) (t : List α) :
    (lines sep (s ++ t)).head? = (lines sep t).head?.map (s ++ ·) := by
  by_cases found : sep ∈ t
  · obtain ⟨l, u, rfl, alone⟩ := eq_append_cons_of_mem found
    have both : sep ∉ s ++ l := by simp [without, alone]
    rw [← append_assoc, lines_line both, lines_line alone]
    rfl
  · have neither : sep ∉ s ++ t := by simp [without, found]
    rw [lines_of_notMem neither, lines_of_notMem found]
    rfl

end SeparatedText
