import Mathlib

/-!
# Regions cut into segments

A list of segments describes a region of memory from an address `a` on, in address order and
without gaps; sizes count units of `u` bytes. A segment is free, or used for something of type `τ`.
-/
namespace SegmentList
open List

variable {τ : Type}

structure Segment (τ : Type) where
  size : Nat
  use : Option τ

def total : List (Segment τ) → Nat
  | [] => 0
  | g :: l => g.size + total l

variable (u : Nat)

/-- The segments with their addresses. -/
def pieces : Nat → List (Segment τ) → List (Nat × Nat)
  | _, [] => []
  | a, g :: l => (a, g.size) :: pieces (a + u * g.size) l

/-- The free ones of them. -/
def free : Nat → List (Segment τ) → List (Nat × Nat)
  | _, [] => []
  | a, ⟨n, none⟩ :: l => (a, n) :: free (a + u * n) l
  | a, ⟨n, some _⟩ :: l => free (a + u * n) l

/-- The used ones, with their uses. -/
def used : Nat → List (Segment τ) → List (Nat × Nat × τ)
  | _, [] => []
  | a, ⟨n, none⟩ :: l => used (a + u * n) l
  | a, ⟨n, some t⟩ :: l => (a, n, t) :: used (a + u * n) l

/-- No two free segments touch. -/
def Apart (l : List (Segment τ)) : Prop :=
  l.IsChain fun g h => g.use ≠ none ∨ h.use ≠ none

variable {u} {a : Nat} {l m : List (Segment τ)} {x y : Nat × Nat}

theorem total_append (l m : List (Segment τ)) : total (l ++ m) = total l + total m := by
  induction l with
  | nil => exact (Nat.zero_add _).symm
  | cons g l ih => rw [cons_append, total, total, ih, Nat.add_assoc]

theorem next_addr (u a n k : Nat) : a + u * n + u * k = a + u * (n + k) := by ring

theorem free_append (u a : Nat) (l m : List (Segment τ)) :
    free u a (l ++ m) = free u a l ++ free u (a + u * total l) m := by
  induction l generalizing a with
  | nil => rfl
  | cons g l ih =>
    obtain ⟨n, _ | t⟩ := g
    · rw [cons_append, free, free, ih, next_addr]
      rfl
    · rw [cons_append, free, free, ih, next_addr]
      rfl

theorem used_append (u a : Nat) (l m : List (Segment τ)) :
    used u a (l ++ m) = used u a l ++ used u (a + u * total l) m := by
  induction l generalizing a with
  | nil => rfl
  | cons g l ih =>
    obtain ⟨n, _ | t⟩ := g
    · rw [cons_append, used, used, ih, next_addr]
      rfl
    · rw [cons_append, used, used, ih, next_addr]
      rfl

theorem free_sublist (u a : Nat) (l : List (Segment τ)) : (free u a l).Sublist (pieces u a l) := by
  induction l generalizing a with
  | nil => exact .slnil
  | cons g l ih =>
    obtain ⟨n, _ | t⟩ := g
    · exact (ih _).cons_cons _
    · exact (ih _).cons _

theorem used_sublist (u a : Nat) (l : List (Segment τ)) :
    ((used u a l).map fun x => (x.1, x.2.1)).Sublist (pieces u a l) := by
  induction l generalizing a with
  | nil => exact .slnil
  | cons g l ih =>
    obtain ⟨n, _ | t⟩ := g
    · exact (ih _).cons _
    · exact (ih _).cons_cons _

theorem free_or_used (listed : x ∈ pieces u a l) :
    x ∈ free u a l ∨ ∃ t, (x.1, x.2, t) ∈ used u a l := by
  induction l generalizing a with
  | nil => cases listed
  | cons g l ih =>
    obtain ⟨n, _ | t⟩ := g
    · rcases mem_cons.mp listed with rfl | later
      · exact .inl (mem_cons_self ..)
      · exact (ih later).imp (mem_cons_of_mem _) id
    · rcases mem_cons.mp listed with rfl | later
      · exact .inr ⟨t, mem_cons_self ..⟩
      · exact (ih later).imp id fun ⟨t', listed⟩ => ⟨t', mem_cons_of_mem _ listed⟩

theorem bounds (listed : x ∈ pieces u a l) : a ≤ x.1 ∧ x.1 + u * x.2 ≤ a + u * total l := by
  induction l generalizing a with
  | nil => cases listed
  | cons g l ih =>
    have shift := next_addr u a g.size (total l)
    rcases mem_cons.mp listed with rfl | later
    · exact ⟨Nat.le_refl _, (Nat.le_add_right _ _).trans shift.le⟩
    · obtain ⟨low, high⟩ := ih later
      exact ⟨(Nat.le_add_right _ _).trans low, high.trans shift.le⟩

theorem bounds_free (listed : x ∈ free u a l) : a ≤ x.1 ∧ x.1 + u * x.2 ≤ a + u * total l :=
  bounds ((free_sublist u a l).subset listed)

theorem bounds_used {z : Nat × Nat × τ} (listed : z ∈ used u a l) :
    a ≤ z.1 ∧ z.1 + u * z.2.1 ≤ a + u * total l :=
  bounds ((used_sublist u a l).subset (mem_map_of_mem listed))

/-- The pieces lie in order and do not overlap. -/
theorem pairwise_pieces (u a : Nat) (l : List (Segment τ)) :
    (pieces u a l).Pairwise fun x y => x.1 + u * x.2 ≤ y.1 := by
  induction l generalizing a with
  | nil => exact .nil
  | cons g l ih => exact .cons (fun y listed => (bounds listed).1) (ih _)

/-- Every address of the region lies in a piece. -/
theorem covered {b : Nat} (low : a ≤ b) (high : b < a + u * total l) :
    ∃ x ∈ pieces u a l, x.1 ≤ b ∧ b < x.1 + u * x.2 := by
  induction l generalizing a with
  | nil =>
    rw [total, Nat.mul_zero] at high
    omega
  | cons g l ih =>
    by_cases here : b < a + u * g.size
    · exact ⟨_, mem_cons_self .., low, here⟩
    · rw [total, ← next_addr] at high
      obtain ⟨x, listed, inside⟩ := ih (Nat.le_of_not_lt here) high
      exact ⟨x, mem_cons_of_mem _ listed, inside⟩

theorem positive_pieces (positive : ∀ g ∈ l, 0 < g.size) (listed : x ∈ pieces u a l) : 0 < x.2 := by
  induction l generalizing a with
  | nil => cases listed
  | cons g l ih =>
    rcases mem_cons.mp listed with rfl | later
    · exact positive g (mem_cons_self ..)
    · exact ih (fun h inside => positive h (mem_cons_of_mem _ inside)) later

theorem lt_end (unit : 0 < u) (positive : ∀ g ∈ l, 0 < g.size) (listed : x ∈ pieces u a l) :
    x.1 < a + u * total l := by
  have size := Nat.mul_pos unit (positive_pieces positive listed)
  have high := (bounds listed).2
  omega

/-- A free piece and a used one do not overlap. -/
theorem free_used_disjoint {z : Nat × Nat × τ} (isFree : x ∈ free u a l) (isUsed : z ∈ used u a l) :
    x.1 + u * x.2 ≤ z.1 ∨ z.1 + u * z.2.1 ≤ x.1 := by
  induction l generalizing a with
  | nil => cases isFree
  | cons g l ih =>
    obtain ⟨n, _ | t⟩ := g
    · rcases mem_cons.mp isFree with rfl | later
      · have rest : z ∈ used u (a + u * n) l := isUsed
        exact .inl (bounds_used rest).1
      · exact ih later isUsed
    · rcases mem_cons.mp isUsed with rfl | later
      · have rest : x ∈ free u (a + u * n) l := isFree
        exact .inr (bounds_free rest).1
      · exact ih isFree later

theorem free_ne_used {z : Nat × Nat × τ} (unit : 0 < u) (positive : ∀ g ∈ l, 0 < g.size)
    (isFree : x ∈ free u a l) (isUsed : z ∈ used u a l) : x.1 ≠ z.1 := by
  have size := Nat.mul_pos unit
    (positive_pieces positive ((free_sublist u a l).subset isFree))
  have size' := Nat.mul_pos unit
    (positive_pieces positive ((used_sublist u a l).subset (mem_map_of_mem isUsed)))
  dsimp only at size'
  have disjoint := free_used_disjoint isFree isUsed
  omega

theorem pairwise_used (u a : Nat) (l : List (Segment τ)) :
    (used u a l).Pairwise fun x y => x.1 + u * x.2.1 ≤ y.1 :=
  pairwise_map.mp ((pairwise_pieces u a l).sublist (used_sublist u a l))

/-- Two elements of a list that is in order are the same, or one comes before the other. -/
theorem eq_or_related {α : Type} {R : α → α → Prop} {xs : List α} (order : xs.Pairwise R) {v w : α}
    (isV : v ∈ xs) (isW : w ∈ xs) : v = w ∨ R v w ∨ R w v := by
  induction order with
  | nil => cases isV
  | cons first rest ih =>
    rcases mem_cons.mp isV with rfl | laterV
    · rcases mem_cons.mp isW with rfl | laterW
      · exact .inl rfl
      · exact .inr (.inl (first w laterW))
    · rcases mem_cons.mp isW with rfl | laterW
      · exact .inr (.inr (first v laterV))
      · exact ih laterV laterW

theorem length_free_le (positive : ∀ g ∈ l, 0 < g.size) : (free u a l).length ≤ total l := by
  induction l generalizing a with
  | nil => exact Nat.le_refl 0
  | cons g l ih =>
    have rest := @ih (a + u * g.size) fun h listed => positive h (mem_cons_of_mem _ listed)
    have first := positive g (mem_cons_self ..)
    obtain ⟨n, _ | t⟩ := g
    · rw [free, length_cons, total]
      dsimp only at rest first ⊢
      omega
    · rw [free, total]
      exact Nat.le_add_left_of_le rest

/-- Free segments that do not touch have a gap between them. -/
theorem pairwise_free (unit : 0 < u) (positive : ∀ g ∈ l, 0 < g.size) (apart : Apart l) :
    (free u a l).Pairwise fun x y => x.1 + u * x.2 < y.1 := by
  induction l generalizing a with
  | nil => exact .nil
  | cons g l ih =>
    have positive' : ∀ h ∈ l, 0 < h.size := fun h listed => positive h (mem_cons_of_mem _ listed)
    have rest := @ih (a + u * g.size) positive' apart.tail
    obtain ⟨n, _ | t⟩ := g
    · refine .cons (fun y listed => ?_) rest
      cases l with
      | nil => cases listed
      | cons h l =>
        obtain ⟨k, _ | t⟩ := h
        · exact absurd (isChain_cons_cons.mp apart).1 (by simp)
        · have later : y ∈ free u (a + u * n + u * k) l := listed
          have low := (bounds_free later).1
          have gap := Nat.mul_pos unit (positive' ⟨k, some t⟩ (mem_cons_self ..))
          exact (Nat.lt_add_of_pos_right gap).trans_le low
    · exact rest

/-- A free address splits the list at its segment. -/
theorem split_of_mem_free (listed : x ∈ free u a l) :
    ∃ before after, l = before ++ ⟨x.2, none⟩ :: after ∧ x.1 = a + u * total before := by
  induction l generalizing a with
  | nil => cases listed
  | cons g l ih =>
    obtain ⟨n, _ | t⟩ := g
    · rcases mem_cons.mp listed with rfl | later
      · exact ⟨[], l, rfl, by rw [total, Nat.mul_zero, Nat.add_zero]⟩
      · obtain ⟨before, after, rfl, here⟩ := ih later
        exact ⟨⟨n, none⟩ :: before, after, rfl, by rw [here, next_addr, total]⟩
    · obtain ⟨before, after, rfl, here⟩ := ih listed
      exact ⟨⟨n, some t⟩ :: before, after, rfl, by rw [here, next_addr, total]⟩

/-- A used address splits the list at its segment. -/
theorem split_of_mem_used {z : Nat × Nat × τ} (listed : z ∈ used u a l) :
    ∃ before after, l = before ++ ⟨z.2.1, some z.2.2⟩ :: after ∧ z.1 = a + u * total before := by
  induction l generalizing a with
  | nil => cases listed
  | cons g l ih =>
    obtain ⟨n, _ | t⟩ := g
    · obtain ⟨before, after, rfl, here⟩ := ih listed
      exact ⟨⟨n, none⟩ :: before, after, rfl, by rw [here, next_addr, total]⟩
    · rcases mem_cons.mp listed with rfl | later
      · exact ⟨[], l, rfl, by rw [total, Nat.mul_zero, Nat.add_zero]⟩
      · obtain ⟨before, after, rfl, here⟩ := ih later
        exact ⟨⟨n, some t⟩ :: before, after, rfl, by rw [here, next_addr, total]⟩

/-! ### Freeing a segment -/

/-- A free segment of size `n` before `l` takes in the first segment of `l`, if that is free. -/
inductive MergeRight (n : Nat) : List (Segment τ) → Nat → List (Segment τ) → Prop
  | join (m : Nat) (l : List (Segment τ)) : MergeRight n (⟨m, none⟩ :: l) (n + m) l
  | apart (l : List (Segment τ)) (gap : ∀ g ∈ l.head?, g.use ≠ none) : MergeRight n l n l

/-- A free segment of size `n` between `l` and `m` is joined with the last segment of `l`, if that
is free. -/
inductive MergeLeft (n : Nat) (m : List (Segment τ)) :
    List (Segment τ) → List (Segment τ) → Prop
  | join (l : List (Segment τ)) (k : Nat) :
      MergeLeft n m (l ++ [⟨k, none⟩]) (l ++ ⟨k + n, none⟩ :: m)
  | apart (l : List (Segment τ)) (gap : ∀ g ∈ l.getLast?, g.use ≠ none) :
      MergeLeft n m l (l ++ ⟨n, none⟩ :: m)

variable {n k : Nat} {r r' l' : List (Segment τ)}

theorem exists_mergeRight (n : Nat) (r : List (Segment τ)) : ∃ n' r', MergeRight n r n' r' := by
  rcases r with _ | ⟨⟨m, _ | t⟩, r⟩
  · exact ⟨n, [], .apart [] (by simp)⟩
  · exact ⟨n + m, r, .join m r⟩
  · exact ⟨n, _, .apart _ (by simp)⟩

theorem exists_mergeLeft (n : Nat) (l r : List (Segment τ)) : ∃ l', MergeLeft n r l l' := by
  rcases eq_nil_or_concat l with rfl | ⟨l, ⟨k, _ | t⟩, rfl⟩
  · exact ⟨_, .apart [] (by simp)⟩
  · rw [concat_eq_append]
    exact ⟨_, .join l k⟩
  · rw [concat_eq_append]
    exact ⟨_, .apart _ (by simp)⟩

section
variable (merge : MergeRight n r k r')
include merge

theorem MergeRight.subset : r' ⊆ r := by
  cases merge with
  | join m l => exact subset_cons_self ..
  | apart l gap => exact Subset.refl _

theorem MergeRight.size : k + total r' = n + total r ∧ n ≤ k := by
  cases merge with
  | join m l => exact ⟨Nat.add_assoc .., Nat.le_add_right ..⟩
  | apart l gap => exact ⟨rfl, Nat.le_refl _⟩

theorem MergeRight.used_eq : used u (a + u * n) r = used u (a + u * k) r' := by
  cases merge with
  | join m l => rw [used, next_addr]
  | apart l gap => rfl

theorem MergeRight.isApart (apart : Apart r) : Apart r' ∧ ∀ g ∈ r'.head?, g.use ≠ none := by
  cases merge with
  | join m l =>
    obtain ⟨first, rest⟩ := isChain_cons.mp apart
    exact ⟨rest, fun g listed => (first g listed).resolve_left fun isUsed => isUsed rfl⟩
  | apart l gap => exact ⟨apart, gap⟩

end

theorem MergeLeft.total_eq (merge : MergeLeft n r l l') : total l' = total l + n + total r := by
  cases merge with
  | join l k =>
    simp only [total_append, total]
    omega
  | apart l gap =>
    simp only [total_append, total]
    omega

theorem MergeLeft.used_eq (merge : MergeLeft n r l l') :
    used u a l' = used u a l ++ used u (a + u * total l + u * n) r := by
  cases merge with
  | join l k =>
    rw [used_append, used_append, total_append, used, used, used, total, total, append_nil,
      next_addr, next_addr, Nat.add_zero, Nat.add_assoc]
  | apart l gap => rw [used_append, used]

theorem MergeLeft.positive (merge : MergeLeft n r l l') (some : 0 < n)
    (left : ∀ g ∈ l, 0 < g.size) (right : ∀ g ∈ r, 0 < g.size) : ∀ g ∈ l', 0 < g.size := by
  intro g listed
  cases merge with
  | join l k =>
    rcases mem_append.mp listed with before | after
    · exact left g (mem_append_left _ before)
    · rcases mem_cons.mp after with rfl | later
      · exact Nat.add_pos_right _ some
      · exact right g later
  | apart l gap =>
    rcases mem_append.mp listed with before | after
    · exact left g before
    · rcases mem_cons.mp after with rfl | later
      · exact some
      · exact right g later

/-- Segments around a free one, whose neighbours are used. -/
theorem apart_around (left : Apart l) (right : Apart r) (last : ∀ g ∈ l.getLast?, g.use ≠ none)
    (first : ∀ g ∈ r.head?, g.use ≠ none) : Apart (l ++ ⟨n, none⟩ :: r) := by
  refine isChain_append.mpr ⟨left, isChain_cons.mpr ⟨?_, right⟩, ?_⟩
  · exact fun g listed => .inr (first g listed)
  · exact fun g listed _ _ => .inl (last g listed)

theorem MergeLeft.isApart (merge : MergeLeft n r l l') (left : Apart l) (right : Apart r)
    (first : ∀ g ∈ r.head?, g.use ≠ none) : Apart l' := by
  cases merge with
  | join l k =>
    obtain ⟨before, -, gap⟩ := isChain_append.mp left
    refine apart_around before right (fun g listed => ?_) first
    exact (gap g listed _ rfl).resolve_right fun isUsed => isUsed rfl
  | apart l gap => exact apart_around left right gap first

theorem MergeLeft.large (merge : MergeLeft n r l l') : ∃ x ∈ free u a l', n ≤ x.2 := by
  cases merge with
  | join l k =>
    refine ⟨(a + u * total l, k + n), ?_, Nat.le_add_left ..⟩
    rw [free_append, free]
    exact mem_append_right _ (mem_cons_self ..)
  | apart l gap =>
    refine ⟨(a + u * total l, n), ?_, Nat.le_refl _⟩
    rw [free_append, free]
    exact mem_append_right _ (mem_cons_self ..)

/-! ### Taking a free segment into use -/

theorem Apart.use {t : τ} (apart : Apart (l ++ ⟨n, none⟩ :: r)) :
    Apart (l ++ ⟨k, some t⟩ :: r) := by
  obtain ⟨left, right, -⟩ := isChain_append.mp apart
  refine isChain_append.mpr ⟨left, isChain_cons.mpr ⟨?_, right.tail⟩, ?_⟩
  · exact fun _ _ => .inl (by simp)
  · rintro _ _ g ⟨⟩
    exact .inr (by simp)

/-- The end of a free segment is taken. -/
theorem Apart.cut {t : τ} {m : Nat} (apart : Apart (l ++ ⟨n, none⟩ :: r)) :
    Apart (l ++ ⟨k, none⟩ :: ⟨m, some t⟩ :: r) := by
  obtain ⟨left, right, gap⟩ := isChain_append.mp apart
  have last : ∀ g ∈ l.getLast?, g.use ≠ none := fun g listed =>
    (gap g listed _ rfl).resolve_right fun isUsed => isUsed rfl
  refine apart_around left (isChain_cons.mpr ⟨?_, right.tail⟩) last ?_
  · exact fun _ _ => .inl (by simp)
  · rintro g ⟨⟩
    simp

end SegmentList
