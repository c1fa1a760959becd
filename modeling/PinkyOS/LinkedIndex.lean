import Mathlib

/-!
# Intrusive doubly linked lists

Links are two index-valued functions. `Linked pre next stop fin p c xs` says
that following `next` from `c` visits `xs` and then `stop`, that `pre` leads
back along the same elements to `p`, and that the last element visited
satisfies `fin`. A `fin` that is always true describes a chain that ends in
a null index; `fin q := pre stop = q` closes the chain into a ring.
-/

namespace LinkedIndex
open List

universe u
variable {ι : Type u}

def Linked (pre next : ι → ι) (stop : ι) (fin : ι → Prop) : ι → ι → List ι → Prop
  | p, c, [] => c = stop ∧ fin p
  | p, c, x :: xs => c = x ∧ x ≠ stop ∧ pre x = p ∧ Linked pre next stop fin x (next x) xs

variable {pre next pre' next' : ι → ι} {stop : ι} {fin fin' : ι → Prop}

variable {a c p : ι} {xs : List ι}

section
variable (h : Linked pre next stop fin p c xs)
include h

theorem Linked.ne_stop : ∀ x ∈ xs, x ≠ stop := by
  induction xs generalizing p c with
  | nil => simp
  | cons a xs ih =>
    obtain ⟨-, hne, -, rest⟩ := h
    intro x hx
    rcases mem_cons.mp hx with rfl | hx
    · exact hne
    · exact ih rest x hx

/-- The chain is empty exactly when it starts at the stop index. -/
theorem Linked.eq_nil_iff : xs = [] ↔ c = stop := by
  cases xs with
  | nil => simpa using h.1
  | cons a xs => simp [h.1, h.2.1]

theorem Linked.first_mem (hc : c ≠ stop) : c ∈ xs := by
  cases xs with
  | nil => exact False.elim (hc h.1)
  | cons a xs => exact h.1 ▸ mem_cons_self

theorem Linked.pre_first (hc : c ≠ stop) : pre c = p := by
  cases xs with
  | nil => exact False.elim (hc h.1)
  | cons a xs => exact h.1 ▸ h.2.2.1

/-- Only the links of the visited elements matter. -/
theorem Linked.congr (hpre : ∀ x ∈ xs, pre' x = pre x) (hnext : ∀ x ∈ xs, next' x = next x)
    (hfin : ∀ q ∈ p :: xs, fin q → fin' q) : Linked pre' next' stop fin' p c xs := by
  induction xs generalizing p c with
  | nil => exact ⟨h.1, hfin p mem_cons_self h.2⟩
  | cons a xs ih =>
    obtain ⟨hc, hne, hp, rest⟩ := h
    refine ⟨hc, hne, (hpre a mem_cons_self).trans hp, ?_⟩
    rw [hnext a mem_cons_self]
    exact ih rest (fun x hx => hpre x (mem_cons_of_mem a hx))
      (fun x hx => hnext x (mem_cons_of_mem a hx))
      (fun q hq => hfin q (mem_cons_of_mem p hq))

/-- The predecessor of a visited element: `p` for the first, a visited one otherwise. -/
theorem Linked.pre_cases (ha : a ∈ xs) : (c = a ∧ pre a = p) ∨ pre a ∈ xs := by
  induction xs generalizing p c with
  | nil => simp at ha
  | cons x xs ih =>
    obtain ⟨rfl, -, hp, rest⟩ := h
    rcases mem_cons.mp ha with rfl | ha
    · exact Or.inl ⟨rfl, hp⟩
    · rcases ih rest ha with ⟨-, hpa⟩ | hmem
      · exact Or.inr (hpa ▸ mem_cons_self)
      · exact Or.inr (mem_cons_of_mem c hmem)

theorem Linked.next_cases (ha : a ∈ xs) : next a = stop ∨ next a ∈ xs := by
  induction xs generalizing p c with
  | nil => simp at ha
  | cons x xs ih =>
    obtain ⟨rfl, -, -, rest⟩ := h
    rcases mem_cons.mp ha with rfl | ha
    · cases xs with
      | nil => exact Or.inl rest.1
      | cons y ys => exact Or.inr (rest.1 ▸ mem_cons_of_mem a mem_cons_self)
    · exact (ih rest ha).imp id (mem_cons_of_mem c)

theorem Linked.next_ne (nodup : xs.Nodup) (ha : a ∈ xs) : next a ≠ a := by
  induction xs generalizing p c with
  | nil => simp at ha
  | cons x xs ih =>
    obtain ⟨-, hne, -, rest⟩ := h
    obtain ⟨hx, nd⟩ := nodup_cons.mp nodup
    rcases mem_cons.mp ha with rfl | ha
    · intro e
      exact hx (e ▸ rest.first_mem (e.symm ▸ hne))
    · exact ih rest nd ha

/-- The element from which the chain goes to the stop index is the last one. -/
theorem Linked.fin_of_next (ha : a ∈ xs) (hn : next a = stop) : fin a := by
  induction xs generalizing p c with
  | nil => simp at ha
  | cons x xs ih =>
    obtain ⟨-, -, -, rest⟩ := h
    rcases mem_cons.mp ha with rfl | ha
    · cases xs with
      | nil => exact rest.2
      | cons y ys => exact absurd (rest.1.symm.trans hn) rest.2.1
    · exact ih rest ha

/-- A chain that is not empty has a last element. -/
theorem Linked.exists_last (hne : xs ≠ []) : ∃ q ∈ xs, next q = stop ∧ fin q := by
  induction xs generalizing p c with
  | nil => exact absurd rfl hne
  | cons x xs ih =>
    obtain ⟨-, -, -, rest⟩ := h
    cases xs with
    | nil => exact ⟨x, mem_cons_self, rest⟩
    | cons y ys =>
      obtain ⟨q, hq, hlast⟩ := ih rest (cons_ne_nil y ys)
      exact ⟨q, mem_cons_of_mem x hq, hlast⟩

/-- Insertion in front: only the old first element gets a new predecessor. -/
theorem Linked.push [DecidableEq ι] (nodup : xs.Nodup) (ha : a ≠ stop)
    (hpa : pre' a = p) (hna : next' a = c) (hpre : ∀ x ∈ xs, pre' x = if x = c then a else pre x)
    (hnext : ∀ x ∈ xs, next' x = next x)
    (hfin : ∀ q ∈ p :: xs, fin q → fin' (if xs = [] then a else q)) :
    Linked pre' next' stop fin' p a (a :: xs) := by
  refine ⟨rfl, ha, hpa, ?_⟩
  rw [hna]
  cases xs with
  | nil => exact ⟨h.1, by simpa using hfin p mem_cons_self h.2⟩
  | cons x xs =>
    obtain ⟨rfl, hne, hp, rest⟩ := h
    have hx : c ∉ xs := (nodup_cons.mp nodup).1
    refine ⟨rfl, hne, by simpa using hpre c mem_cons_self, ?_⟩
    rw [hnext c mem_cons_self]
    refine rest.congr (fun y hy => ?_) (fun y hy => hnext y (mem_cons_of_mem c hy))
      (fun q hq hf => by simpa using hfin q (mem_cons_of_mem p hq) hf)
    have hyc : y ≠ c := by
      rintro rfl
      exact hx hy
    simpa [hyc] using hpre y (mem_cons_of_mem c hy)

end

/-- Removal of the first element: its successor now points back to `p`. -/
theorem Linked.pop [DecidableEq ι] (h : Linked pre next stop fin p a (a :: xs)) (nodup : xs.Nodup)
    (hpre : ∀ x ∈ xs, pre' x = if x = next a then p else pre x) (hnext : ∀ x ∈ xs, next' x = next x)
    (hfin : ∀ q ∈ a :: xs, fin q → fin' (if q = a then p else q)) (ha : a ∉ xs) :
    Linked pre' next' stop fin' p (next a) xs := by
  obtain ⟨-, -, -, rest⟩ := h
  cases xs with
  | nil => exact ⟨rest.1, by simpa using hfin a mem_cons_self rest.2⟩
  | cons y ys =>
    obtain ⟨hy, hne, -, rest⟩ := rest
    have hys : y ∉ ys := (nodup_cons.mp nodup).1
    refine ⟨hy, hne, by rw [hpre y mem_cons_self, if_pos hy.symm], ?_⟩
    rw [hnext y mem_cons_self]
    refine rest.congr (fun z hz => ?_) (fun z hz => hnext z (mem_cons_of_mem y hz))
      (fun q hq hf => ?_)
    · have hzy : z ≠ next a := by
        rw [hy]
        rintro rfl
        exact hys hz
      rw [hpre z (mem_cons_of_mem y hz), if_neg hzy]
    · have hqa : q ≠ a := by
        rintro rfl
        exact ha hq
      simpa [hqa] using hfin q (mem_cons_of_mem a hq) hf

/-- Removal: the neighbours of `a` are joined, all other links are kept. The
induction runs down to the position of `a`; everything after it is unchanged. -/
theorem Linked.remove [DecidableEq ι] [BEq ι] [LawfulBEq ι]
    (h : Linked pre next stop fin p c xs) (nodup : xs.Nodup) (ha : a ∈ xs) (hp : p ∉ xs)
    (hpre : ∀ x ∈ xs, x ≠ a → pre' x = if x = next a then pre a else pre x)
    (hnext : ∀ x ∈ xs, x ≠ a → next' x = if x = pre a then next a else next x)
    (hfin : ∀ q ∈ p :: xs, fin q → fin' (if q = a then pre a else q)) :
    Linked pre' next' stop fin' p (if c = a then next a else c) (xs.erase a) := by
  induction xs generalizing p c with
  | nil => simp at ha
  | cons x xs ih =>
    have whole := h
    obtain ⟨rfl, hne, hpx, rest⟩ := h
    obtain ⟨hx, nd⟩ := nodup_cons.mp nodup
    by_cases hca : c = a
    · subst hca
      have other : ∀ y ∈ xs, y ≠ c ∧ y ≠ pre c := fun y hy =>
        ⟨fun e => hx (e ▸ hy), fun e => hp (hpx ▸ e ▸ mem_cons_of_mem c hy)⟩
      rw [if_pos rfl, erase_cons_head]
      refine whole.pop nd (fun y hy => ?_) (fun y hy => ?_)
        (fun q hq hf => hpx ▸ hfin q (mem_cons_of_mem p hq) hf) hx
      · rw [hpre y (mem_cons_of_mem c hy) (other y hy).1, hpx]
      · rw [hnext y (mem_cons_of_mem c hy) (other y hy).1, if_neg (other y hy).2]
    · have hax : a ∈ xs := (mem_cons.mp ha).resolve_left (Ne.symm hca)
      have hcp : c ≠ p := fun e => hp (e ▸ mem_cons_self)
      have step := ih rest nd hax hx
        (fun y hy => hpre y (mem_cons_of_mem c hy))
        (fun y hy => hnext y (mem_cons_of_mem c hy))
        (fun q hq => hfin q (mem_cons_of_mem p hq))
      -- the element before `a` is `c` exactly when `a` comes right after `c`
      have hlink : next' c = if next c = a then next a else next c := by
        rw [hnext c mem_cons_self hca]
        rcases rest.pre_cases hax with ⟨hna, hpa⟩ | hmem
        · rw [if_pos hpa.symm, if_pos hna]
        · have hpc : c ≠ pre a := fun e => hx (e ▸ hmem)
          have hna : next c ≠ a := by
            intro e
            cases xs with
            | nil => simp at hax
            | cons y ys => exact hpc (by rw [← e, rest.1]; exact rest.2.2.1.symm)
          rw [if_neg hpc, if_neg hna]
      have hcn : c ≠ next a := by
        intro e
        rcases rest.next_cases hax with hs | hmem
        · exact hne (e.trans hs)
        · exact hx (e ▸ hmem)
      rw [if_neg hca, erase_cons_tail (by simpa using hca)]
      refine ⟨rfl, hne, ?_, hlink ▸ step⟩
      rw [hpre c mem_cons_self hca, if_neg hcn, hpx]

end LinkedIndex
