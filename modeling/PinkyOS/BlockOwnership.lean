import PinkyOS.FileMap

/-!
# Ownership of disk blocks

Every block that an inode refers to is marked in the bitmap, is referred to from one slot of one
inode, and lies in the data region. A block that is marked but not yet, or no longer, referred to
is loose; between transactions there are none.
-/
namespace FileMap
open ByteBuffer DiskLog DiskFormat Function

/-- Where things lie on a disk with one bitmap block. Data blocks end at `hi`; `nlog` is the size
of the log. -/
structure Geometry where
  size : Nat
  ninodes : Nat
  hi : Nat
  one : size ≤ bpb
  within : hi ≤ size
  room : ninodes / ipb + 3 < size
  nlog : Nat

namespace Geometry

/-- The sector of the bitmap. -/
def bm (g : Geometry) : Nat := g.ninodes / ipb + 3

/-- The first data block. -/
def lo (g : Geometry) : Nat := g.bm + 1

theorem one_lt_bm (g : Geometry) : 1 < g.bm := by
  simp only [bm, ipb]
  omega

theorem bm_lt_lo (g : Geometry) : g.bm < g.lo := Nat.lt_succ_self _

/-- The sectors of the inodes lie before the bitmap. -/
theorem iblock_lt (g : Geometry) {inum : Nat} (inside : inum < g.ninodes) : iblock inum < g.bm := by
  simp only [iblock, bm, ipb]
  omega

theorem bm_lt_size (g : Geometry) : g.bm < g.size := g.room

end Geometry

/-- The free data blocks. -/
def freeBlocks (g : Geometry) (cur : Nat → Block) : Finset Nat :=
  (Finset.Ico g.lo g.hi).filter fun b => bit (cur g.bm) b = false

structure Owned (g : Geometry) (L : Finset Nat) (cur : Nat → Block) (dn : Nat → Dinode) :
    Prop where
  distinct : SlotRefs.Distinct (refs cur dn)
  region : ∀ y, refs cur dn y ≠ 0 → g.lo ≤ refs cur dn y ∧ refs cur dn y < g.hi
  marked : ∀ y, refs cur dn y ≠ 0 → bit (cur g.bm) (refs cur dn y) = true
  low : ∀ b < g.lo, bit (cur g.bm) b = true
  loose : ∀ b ∈ L, g.lo ≤ b ∧ b < g.hi ∧ bit (cur g.bm) b = true ∧ ∀ y, refs cur dn y ≠ b
  exact : ∀ b, g.lo ≤ b → b < g.hi → bit (cur g.bm) b = true →
    (∃ y, refs cur dn y = b) ∨ b ∈ L

variable {g : Geometry} {L : Finset Nat} {cur cur' : Nat → Block} {dn dn' : Nat → Dinode}
  {b x v inum : Nat} {buf : Block} {d : Dinode} {y : Nat × Nat}

/-- A sector that no slot refers to as an indirect block changes. -/
theorem refs_write_other (other : ∀ inum, (dn inum).addr ndirect ≠ 0 → (dn inum).addr ndirect ≠ x) :
    refs (update cur x buf) dn = refs cur dn := by
  funext y
  exact slotRef_write (other y.1)

namespace Owned

section
variable (owned : Owned g L cur dn)
include owned

theorem indirect (inum : Nat) (has : (dn inum).addr ndirect ≠ 0) :
    g.lo ≤ (dn inum).addr ndirect ∧ (dn inum).addr ndirect < g.hi := by
  have slot : refs cur dn (inum, ndirect) = (dn inum).addr ndirect := slotRef_indirect
  have range := owned.region (inum, ndirect) (by rwa [slot])
  rwa [slot] at range

theorem refs_write_low (buf : Block) (low : x < g.lo) :
    refs (update cur x buf) dn = refs cur dn := by
  apply refs_write_other
  intro inum has
  have range := owned.indirect inum has
  omega

theorem refs_write_loose (isLoose : x ∈ L) : refs (update cur x buf) dn = refs cur dn := by
  apply refs_write_other
  intro inum _ same
  have slot : refs cur dn (inum, ndirect) = (dn inum).addr ndirect := slotRef_indirect
  exact (owned.loose x isLoose).2.2.2 (inum, ndirect) (slot.trans same)

/-- Sectors other than the bitmap change, and the slots do not. -/
theorem frame (same : cur' g.bm = cur g.bm)
    (refs' : refs cur' dn' = refs cur dn) : Owned g L cur' dn' := by
  constructor
  case distinct =>
    rw [refs']
    exact owned.distinct
  case region =>
    rw [refs']
    exact owned.region
  case marked =>
    rw [refs', same]
    exact owned.marked
  case low =>
    rw [same]
    exact owned.low
  case loose =>
    rw [refs', same]
    exact owned.loose
  case exact =>
    rw [refs', same]
    exact owned.exact

theorem writeLow (low : x < g.lo) (other : x ≠ g.bm) : Owned g L (update cur x buf) dn :=
  owned.frame (update_of_ne (Ne.symm other) _ _) (owned.refs_write_low buf low)

theorem writeLoose (isLoose : x ∈ L) : Owned g L (update cur x buf) dn := by
  have range := owned.loose x isLoose
  refine owned.frame (update_of_ne ?_ _ _) (owned.refs_write_loose isLoose)
  have lo := g.bm_lt_lo
  omega

theorem writeData (here : refs cur dn y = x) (nonzero : x ≠ 0)
    (data : y.2 ≠ ndirect) : Owned g L (update cur x buf) dn := by
  have range := owned.region y (by rwa [here])
  refine owned.frame (update_of_ne ?_ _ _) ?_
  · have lo : g.lo = g.bm + 1 := rfl
    omega
  · exact refs_write owned.distinct here data nonzero

theorem mark (low : g.lo ≤ b) (high : b < g.hi) (free : bit (cur g.bm) b = false) :
    Owned g (insert b L) (update cur g.bm (setBit (cur g.bm) b)) dn := by
  have lo := g.bm_lt_lo
  have refs' := owned.refs_write_low (setBit (cur g.bm) b) (x := g.bm) (by omega)
  have inside : b < bpb := by
    have one := g.one
    have within := g.within
    omega
  have bits : ∀ c, bit (update cur g.bm (setBit (cur g.bm) b) g.bm) c =
      (decide (c = b) || bit (cur g.bm) c) := by
    intro c
    rw [update_self, bit_setBit _ inside]
  have unheld : ∀ y, refs cur dn y ≠ b := by
    intro y same
    by_cases zero : refs cur dn y = 0
    · omega
    · have set := owned.marked y zero
      rw [same, free] at set
      cases set
  constructor
  case distinct =>
    rw [refs']
    exact owned.distinct
  case region =>
    rw [refs']
    exact owned.region
  case marked =>
    rw [refs']
    intro y held
    rw [bits, owned.marked y held, Bool.or_true]
  case low =>
    intro c less
    rw [bits, owned.low c less, Bool.or_true]
  case loose =>
    rw [refs']
    intro c listed
    rw [bits]
    rcases Finset.mem_insert.mp listed with rfl | old
    · exact ⟨low, high, by simp, unheld⟩
    · obtain ⟨low, high, set, unheld⟩ := owned.loose c old
      exact ⟨low, high, by rw [set, Bool.or_true], unheld⟩
  case exact =>
    rw [refs']
    intro c low high set
    rw [bits] at set
    by_cases same : c = b
    · subst same
      exact .inr (Finset.mem_insert_self c L)
    · simp only [same, decide_false, Bool.false_or] at set
      rcases owned.exact c low high set with held | old
      · exact .inl held
      · exact .inr (Finset.mem_insert_of_mem old)

theorem link (isLoose : b ∈ L) (empty : refs cur dn y = 0)
    (same : cur' g.bm = cur g.bm) (slot : refs cur' dn' = update (refs cur dn) y b) :
    Owned g (L.erase b) cur' dn' := by
  obtain ⟨low, high, set, unheld⟩ := owned.loose b isLoose
  have cases' : ∀ z, z = y ∧ refs cur' dn' z = b ∨ z ≠ y ∧ refs cur' dn' z = refs cur dn z := by
    intro z
    rw [slot]
    by_cases here : z = y
    · exact .inl ⟨here, by rw [here, update_self]⟩
    · exact .inr ⟨here, update_of_ne here _ _⟩
  constructor
  case distinct =>
    rw [slot]
    exact owned.distinct.update unheld
  case region =>
    intro z held
    rcases cases' z with ⟨-, eq⟩ | ⟨-, eq⟩
    · rw [eq]
      exact ⟨low, high⟩
    · rw [eq] at held ⊢
      exact owned.region z held
  case marked =>
    intro z held
    rw [same]
    rcases cases' z with ⟨-, eq⟩ | ⟨-, eq⟩
    · rw [eq, set]
    · rw [eq] at held ⊢
      exact owned.marked z held
  case low =>
    rw [same]
    exact owned.low
  case loose =>
    intro c listed
    obtain ⟨other, old⟩ := Finset.mem_erase.mp listed
    obtain ⟨low, high, set, unheld⟩ := owned.loose c old
    refine ⟨low, high, by rw [same, set], fun z => ?_⟩
    rcases cases' z with ⟨-, eq⟩ | ⟨-, eq⟩
    · rw [eq]
      exact fun same => other same.symm
    · rw [eq]
      exact unheld z
  case exact =>
    intro c low high set
    rw [same] at set
    rcases owned.exact c low high set with ⟨z, holds⟩ | old
    · left
      refine ⟨z, ?_⟩
      rcases cases' z with ⟨rfl, -⟩ | ⟨-, eq⟩
      · have lo := g.bm_lt_lo
        omega
      · rw [eq, holds]
    · by_cases here : c = b
      · subst here
        exact .inl ⟨y, by rw [slot, update_self]⟩
      · exact .inr (Finset.mem_erase.mpr ⟨here, old⟩)

end

end Owned

theorem mem_freeBlocks : b ∈ freeBlocks g cur ↔
    (g.lo ≤ b ∧ b < g.hi) ∧ bit (cur g.bm) b = false := by
  rw [freeBlocks, Finset.mem_filter, Finset.mem_Ico]

theorem freeBlocks_mark (inside : b < bpb) (same : cur' g.bm = setBit (cur g.bm) b) :
    freeBlocks g cur' = (freeBlocks g cur).erase b := by
  ext c
  rw [Finset.mem_erase, mem_freeBlocks, mem_freeBlocks, same, bit_setBit _ inside]
  by_cases here : c = b <;> simp [here]

theorem freeBlocks_congr (same : cur' g.bm = cur g.bm) : freeBlocks g cur' = freeBlocks g cur := by
  rw [freeBlocks, freeBlocks, same]

end FileMap
