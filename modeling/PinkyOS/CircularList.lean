import Mathlib

/-!
# Circular singly linked lists

`Links next p xs q` says that following `next` from `p` visits `xs` and then `q`. With `q = p` the
elements `p :: xs` form a ring. `Path next q xs r` is the same from the link `q` itself.
-/
namespace CircularList
open List

universe u
variable {α : Type u}

def Links (next : α → α) : α → List α → α → Prop
  | p, [], q => next p = q
  | p, x :: xs, q => next p = x ∧ Links next x xs q

def Path (next : α → α) : α → List α → α → Prop
  | q, [], r => q = r
  | q, x :: xs, r => q = x ∧ Links next x xs r

variable {next next' : α → α} {p q r x : α} {xs ys : List α}

theorem links_iff_path : Links next p xs r ↔ Path next (next p) xs r := by
  cases xs <;> exact Iff.rfl

theorem links_append : Links next p (xs ++ x :: ys) q ↔ Links next p xs x ∧ Links next x ys q := by
  induction xs generalizing p with
  | nil => exact Iff.rfl
  | cons y xs ih => rw [cons_append, Links, Links, ih, and_assoc]

/-- A list is cut in two at the link between its parts. -/
theorem links_append_iff :
    Links next p (xs ++ ys) q ↔ ∃ r, Links next p xs r ∧ Path next r ys q := by
  cases ys with
  | nil =>
    rw [append_nil]
    exact ⟨fun links => ⟨q, links, rfl⟩, fun ⟨r, links, same⟩ => same ▸ links⟩
  | cons x ys =>
    rw [links_append]
    exact ⟨fun both => ⟨x, both.1, rfl, both.2⟩, fun ⟨r, front, same, back⟩ => ⟨same ▸ front, back⟩⟩

/-- Only the links of the elements before the end matter. -/
theorem Links.congr (links : Links next p xs q) (same : ∀ y ∈ p :: xs, next' y = next y) :
    Links next' p xs q := by
  induction xs generalizing p with
  | nil => exact (same p (mem_cons_self ..)).trans links
  | cons y xs ih =>
    obtain ⟨first, rest⟩ := links
    exact ⟨(same p (mem_cons_self ..)).trans first,
      ih rest fun z listed => same z (mem_cons_of_mem _ listed)⟩

theorem Path.congr (path : Path next q xs r) (same : ∀ y ∈ xs, next' y = next y) :
    Path next' q xs r := by
  cases xs with
  | nil => exact path
  | cons y xs => exact ⟨path.1, path.2.congr same⟩

/-- A ring starts at any of its elements. -/
theorem Links.rotate (links : Links next p (xs ++ x :: ys) p) : Links next x (ys ++ p :: xs) x := by
  obtain ⟨front, back⟩ := links_append.mp links
  exact links_append.mpr ⟨back, front⟩

theorem Links.ring_from (links : Links next p xs p) (listed : x ∈ p :: xs) :
    ∃ ys, Links next x ys x ∧ (x :: ys).Perm (p :: xs) := by
  rcases mem_cons.mp listed with rfl | later
  · exact ⟨xs, links, .refl _⟩
  · obtain ⟨ys, zs, rfl⟩ := append_of_mem later
    exact ⟨zs ++ p :: ys, links.rotate, @perm_append_comm _ (x :: zs) _⟩

/-- A path continues from any of its elements. -/
theorem Links.from_mem (links : Links next p xs q) (listed : x ∈ p :: xs) :
    ∃ ys zs, p :: xs = ys ++ x :: zs ∧ Links next x zs q ∧
      (p :: xs).getLast (cons_ne_nil _ _) = (x :: zs).getLast (cons_ne_nil _ _) := by
  induction xs generalizing p with
  | nil =>
    obtain rfl := mem_singleton.mp listed
    exact ⟨[], [], rfl, links, rfl⟩
  | cons y xs ih =>
    rcases mem_cons.mp listed with rfl | later
    · exact ⟨[], y :: xs, rfl, links, rfl⟩
    · obtain ⟨ys, zs, split, rest, last⟩ := ih links.2 later
      exact ⟨p :: ys, zs, congrArg (p :: ·) split, rest,
        (getLast_cons (cons_ne_nil _ _)).trans last⟩

/-- The last of the elements visited leads to the end. -/
theorem Links.next_last (links : Links next p xs q) :
    next ((p :: xs).getLast (cons_ne_nil _ _)) = q := by
  induction xs generalizing p with
  | nil => exact links
  | cons y xs ih =>
    rw [getLast_cons (cons_ne_nil _ _)]
    exact ih links.2

/-- Only the last element visited leads to the end. -/
theorem Links.eq_last (links : Links next p xs x) (distinct : x ∉ xs) (listed : q ∈ p :: xs)
    (before : next q = x) : q = (p :: xs).getLast (cons_ne_nil _ _) := by
  induction xs generalizing p with
  | nil => exact mem_singleton.mp listed
  | cons y xs ih =>
    rw [getLast_cons (cons_ne_nil _ _)]
    rw [mem_cons, not_or] at distinct
    rcases mem_cons.mp listed with rfl | later
    · exact absurd (before.symm.trans links.1) distinct.1
    · exact ih links.2 distinct.2 later

variable [DecidableEq α]

/-- The end of a path is redirected. -/
theorem Links.set_last (links : Links next p xs q) (distinct : (p :: xs).Nodup) (x : α) :
    Links (Function.update next ((p :: xs).getLast (cons_ne_nil _ _)) x) p xs x := by
  induction xs generalizing p with
  | nil => exact Function.update_self ..
  | cons y xs ih =>
    rw [getLast_cons (cons_ne_nil _ _)]
    rw [nodup_cons] at distinct
    refine ⟨?_, ih links.2 distinct.2⟩
    rw [Function.update_of_ne]
    · exact links.1
    · rintro rfl
      exact distinct.1 (getLast_mem _)

end CircularList
