import Mathlib

/-!
# Tilings by dyadic blocks

A block of order `ord` and index `id` is the set of natural numbers whose
quotient by `2 ^ ord` is `id`. Two blocks are nested or disjoint. A tiling
without complete buddy pairs below a top order is determined by the area it
covers: it consists of the maximal blocks contained in that area.
-/

namespace DyadicTiling

/-- The block `[id * 2 ^ ord, (id + 1) * 2 ^ ord)`. -/
@[ext] structure Block where
  ord : Nat
  id : Nat
  deriving DecidableEq, Repr

namespace Block

def cells (b : Block) : Set Nat := {x | x / 2 ^ b.ord = b.id}

def parent (b : Block) : Block := ⟨b.ord + 1, b.id / 2⟩

/-- The other half of the parent: the two indices differ in the last bit. -/
def buddy (b : Block) : Block := ⟨b.ord, b.id ^^^ 1⟩

@[simp] theorem mem_cells {b : Block} {x : Nat} : x ∈ b.cells ↔ x / 2 ^ b.ord = b.id := Iff.rfl

@[simp] theorem parent_ord (b : Block) : b.parent.ord = b.ord + 1 := rfl

@[simp] theorem parent_id (b : Block) : b.parent.id = b.id / 2 := rfl

@[simp] theorem buddy_ord (b : Block) : b.buddy.ord = b.ord := rfl

@[simp] theorem buddy_id (b : Block) : b.buddy.id = b.id ^^^ 1 := rfl

theorem xor_one_cases (k : Nat) :
    (k % 2 = 0 ∧ k ^^^ 1 = k + 1) ∨ (k % 2 = 1 ∧ (k ^^^ 1) + 1 = k) := by
  rcases Nat.mod_two_eq_zero_or_one k with h | h
  · exact Or.inl ⟨h, Nat.xor_one_of_even (Nat.even_iff.mpr h)⟩
  · refine Or.inr ⟨h, ?_⟩
    rw [Nat.xor_one_of_odd (Nat.odd_iff.mpr h)]
    omega

@[simp] theorem buddy_buddy (b : Block) : b.buddy.buddy = b := by
  ext
  · rfl
  · simp

theorem buddy_ne (b : Block) : b.buddy ≠ b := by
  intro h
  have := congrArg Block.id h
  have := xor_one_cases b.id
  simp only [buddy_id] at *
  omega

@[simp] theorem parent_buddy (b : Block) : b.buddy.parent = b.parent := by
  ext
  · rfl
  · have := xor_one_cases b.id
    simp only [parent_id, buddy_id]
    omega

theorem first_mem (b : Block) : b.id * 2 ^ b.ord ∈ b.cells :=
  Nat.mul_div_cancel _ (Nat.two_pow_pos _)

/-- The cells as a range of addresses. -/
theorem mem_cells_iff {b : Block} {x : Nat} :
    x ∈ b.cells ↔ 2 ^ b.ord * b.id ≤ x ∧ x < 2 ^ b.ord * (b.id + 1) := by
  have hpos := Nat.two_pow_pos b.ord
  rw [mem_cells, Nat.div_eq_iff hpos, Nat.mul_comm b.id, Nat.mul_add_one]
  omega

/-- A parent is the union of a block and its buddy. -/
theorem mem_parent {b : Block} {x : Nat} :
    x ∈ b.parent.cells ↔ x ∈ b.cells ∨ x ∈ b.buddy.cells := by
  have hq : x / 2 ^ (b.ord + 1) = x / 2 ^ b.ord / 2 := by
    rw [Nat.pow_succ, Nat.div_div_eq_div_mul]
  have := xor_one_cases b.id
  simp only [mem_cells, parent_ord, parent_id, buddy_ord, buddy_id, hq]
  omega

theorem cells_subset_parent (b : Block) : b.cells ⊆ b.parent.cells :=
  fun _ hx => mem_parent.mpr (Or.inl hx)

theorem buddy_disjoint {b : Block} {x : Nat} (hx : x ∈ b.cells) : x ∉ b.buddy.cells := by
  intro hb
  have := xor_one_cases b.id
  simp only [mem_cells, buddy_ord, buddy_id] at *
  omega

/-- Dyadic blocks that meet are nested. -/
theorem subset_of_meet {a b : Block} (le : a.ord ≤ b.ord) {x : Nat}
    (ha : x ∈ a.cells) (hb : x ∈ b.cells) : a.cells ⊆ b.cells := by
  intro y hy
  obtain ⟨d, hd⟩ := Nat.exists_eq_add_of_le le
  have split : ∀ z, z / 2 ^ b.ord = z / 2 ^ a.ord / 2 ^ d := by
    intro z
    rw [hd, Nat.pow_add, Nat.div_div_eq_div_mul]
  simp only [mem_cells, split] at *
  rw [hy, ← ha, hb]

theorem eq_of_meet {a b : Block} (ord : a.ord = b.ord) {x : Nat}
    (ha : x ∈ a.cells) (hb : x ∈ b.cells) : a = b := by
  ext
  · exact ord
  · simp only [mem_cells, ord] at *
    exact ha.symm.trans hb

end Block

/-- The blocks of `F` are pairwise disjoint and their union is `A`. -/
structure Tiles (F : Set Block) (A : Set Nat) : Prop where
  cover : ∀ x ∈ A, ∃ b ∈ F, x ∈ b.cells
  inside : ∀ b ∈ F, b.cells ⊆ A
  disjoint : ∀ b ∈ F, ∀ c ∈ F, ∀ x, x ∈ b.cells → x ∈ c.cells → b = c

/-- No two buddies of an order below `top` both belong to `F`. -/
def Reduced (top : Nat) (F : Set Block) : Prop :=
  ∀ b ∈ F, b.ord < top → b.buddy ∉ F

section Operations
variable {F : Set Block} {A : Set Nat} {b : Block}

theorem Tiles.empty : Tiles ∅ ∅ :=
  ⟨fun _ h => h.elim, fun _ h => h.elim, fun _ h => h.elim⟩

theorem Tiles.erase (tiles : Tiles F A) (hb : b ∈ F) : Tiles (F \ {b}) (A \ b.cells) := by
  refine ⟨?_, ?_, ?_⟩
  · rintro x ⟨hx, hxb⟩
    obtain ⟨c, hc, hxc⟩ := tiles.cover x hx
    refine ⟨c, ⟨hc, ?_⟩, hxc⟩
    rintro rfl
    exact hxb hxc
  · rintro c ⟨hc, hne⟩ x hx
    exact ⟨tiles.inside c hc hx, fun hxb => hne (tiles.disjoint c hc b hb x hx hxb)⟩
  · rintro c ⟨hc, _⟩ d ⟨hd, _⟩
    exact tiles.disjoint c hc d hd

theorem Tiles.insert (tiles : Tiles F A) (hb : ∀ x ∈ b.cells, x ∉ A) :
    Tiles (Insert.insert b F) (A ∪ b.cells) := by
  have apart : ∀ c ∈ F, ∀ x, x ∈ c.cells → x ∉ b.cells :=
    fun c hc x hx hxb => hb x hxb (tiles.inside c hc hx)
  refine ⟨?_, ?_, ?_⟩
  · rintro x (hx | hx)
    · obtain ⟨c, hc, hxc⟩ := tiles.cover x hx
      exact ⟨c, Or.inr hc, hxc⟩
    · exact ⟨b, Or.inl rfl, hx⟩
  · rintro c (rfl | hc)
    · exact Set.subset_union_right
    · exact (tiles.inside c hc).trans Set.subset_union_left
  · rintro c (rfl | hc) d (rfl | hd) x hx hy
    · rfl
    · exact False.elim (apart d hd x hy hx)
    · exact False.elim (apart c hc x hx hy)
    · exact tiles.disjoint c hc d hd x hx hy

theorem Tiles.not_mem (tiles : Tiles F A) (hb : ∀ x ∈ b.cells, x ∉ A) : b ∉ F :=
  fun h => hb _ b.first_mem (tiles.inside b h b.first_mem)

theorem Reduced.mono {top : Nat} {G : Set Block} (red : Reduced top F) (sub : G ⊆ F) :
    Reduced top G :=
  fun b hb lt h => red b (sub hb) lt (sub h)

theorem Reduced.insert {top : Nat} (red : Reduced top F)
    (alone : b.ord < top → b.buddy ∉ F) : Reduced top (Insert.insert b F) := by
  rintro c (rfl | hc) lt (h | h)
  · exact c.buddy_ne h
  · exact alone lt h
  · refine alone (h ▸ lt) ?_
    rw [← h, Block.buddy_buddy]
    exact hc
  · exact red c hc lt h

end Operations

section Canonical
variable {F G : Set Block} {A : Set Nat} {lo top : Nat}

/-- In a reduced tiling every covered block lies in one tile. Induction on the
order: two halves that are tiles themselves would form a buddy pair. -/
theorem exists_tile_above (tiles : Tiles F A) (red : Reduced top F)
    (low : ∀ b ∈ F, lo ≤ b.ord) (c : Block) (hlo : lo ≤ c.ord) (htop : c.ord ≤ top)
    (hc : c.cells ⊆ A) : ∃ b ∈ F, c.ord ≤ b.ord ∧ c.cells ⊆ b.cells := by
  obtain ⟨d, hd⟩ := Nat.exists_eq_add_of_le hlo
  induction d generalizing c with
  | zero =>
    obtain ⟨b, hb, hx⟩ := tiles.cover _ (hc c.first_mem)
    have le : c.ord ≤ b.ord := by have := low b hb; omega
    exact ⟨b, hb, le, Block.subset_of_meet le c.first_mem hx⟩
  | succ d ih =>
    let left : Block := ⟨c.ord - 1, 2 * c.id⟩
    have hparent : left.parent = c := by
      ext
      · simp only [Block.parent_ord, left]; omega
      · simp only [Block.parent_id, left]; omega
    have hleft : left.cells ⊆ c.cells := hparent ▸ left.cells_subset_parent
    have hright : left.buddy.cells ⊆ c.cells := by
      rw [← hparent, ← Block.parent_buddy]
      exact left.buddy.cells_subset_parent
    have hord : left.ord = c.ord - 1 := rfl
    have small : left.buddy.ord = c.ord - 1 := rfl
    obtain ⟨a, ha, hale, hasub⟩ := ih left (by omega) (by omega) (hleft.trans hc) (by omega)
    obtain ⟨b, hb, hble, hbsub⟩ := ih left.buddy (by omega) (by omega) (hright.trans hc) (by omega)
    by_cases big : c.ord ≤ a.ord
    · exact ⟨a, ha, big, Block.subset_of_meet big (hleft left.first_mem)
        (hasub left.first_mem)⟩
    · by_cases bigb : c.ord ≤ b.ord
      · exact ⟨b, hb, bigb, Block.subset_of_meet bigb (hright left.buddy.first_mem)
          (hbsub left.buddy.first_mem)⟩
      · have hal : a = left :=
          Block.eq_of_meet (by omega) (hasub left.first_mem) left.first_mem
        have hbr : b = left.buddy :=
          Block.eq_of_meet (by omega) (hbsub left.buddy.first_mem) left.buddy.first_mem
        subst hal hbr
        exact False.elim (red _ ha (by omega) hb)

/-- The tiles of a reduced tiling are the maximal blocks inside its area. -/
theorem mem_iff_maximal (tiles : Tiles F A) (red : Reduced top F)
    (range : ∀ b ∈ F, lo ≤ b.ord ∧ b.ord ≤ top) (b : Block) :
    b ∈ F ↔ (lo ≤ b.ord ∧ b.ord ≤ top) ∧ b.cells ⊆ A ∧
      (b.ord = top ∨ ¬ b.parent.cells ⊆ A) := by
  have low : ∀ b ∈ F, lo ≤ b.ord := fun b hb => (range b hb).1
  constructor
  · intro hb
    refine ⟨range b hb, tiles.inside b hb, ?_⟩
    by_cases heq : b.ord = top
    · exact Or.inl heq
    · refine Or.inr fun hp => ?_
      have hr := range b hb
      obtain ⟨c, hc, hle, hsub⟩ := exists_tile_above tiles red low b.parent
        (by rw [Block.parent_ord]; omega) (by rw [Block.parent_ord]; omega) hp
      have hbc := tiles.disjoint b hb c hc _ b.first_mem
        (hsub (b.cells_subset_parent b.first_mem))
      rw [← hbc, Block.parent_ord] at hle
      omega
  · rintro ⟨hr, hsub, hmax⟩
    obtain ⟨c, hc, hle, hbc⟩ := exists_tile_above tiles red low b hr.1 hr.2 hsub
    by_cases heq : b.ord = c.ord
    · rwa [Block.eq_of_meet heq b.first_mem (hbc b.first_mem)]
    · rcases hmax with hmax | hmax
      · have := (range c hc).2; omega
      · refine False.elim (hmax (Set.Subset.trans ?_ (tiles.inside c hc)))
        exact Block.subset_of_meet (by rw [Block.parent_ord]; omega)
          (b.cells_subset_parent b.first_mem) (hbc b.first_mem)

/-- A reduced tiling is a function of the area it covers. -/
theorem reduced_unique (tilesF : Tiles F A) (tilesG : Tiles G A)
    (redF : Reduced top F) (redG : Reduced top G) (rangeF : ∀ b ∈ F, lo ≤ b.ord ∧ b.ord ≤ top)
    (rangeG : ∀ b ∈ G, lo ≤ b.ord ∧ b.ord ≤ top) : F = G := by
  ext b
  rw [mem_iff_maximal tilesF redF rangeF, mem_iff_maximal tilesG redG rangeG]

end Canonical
end DyadicTiling
