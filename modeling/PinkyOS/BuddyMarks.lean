import PinkyOS.BuddyHeap
import PinkyOS.DyadicTiling
import PinkyOS.LinkedIndex

/-!
# Marks, bitmaps and free lists

The layout of the mark array is fixed by the region. `markBlk` and `unmarkBlk`
change one availability bit and keep every free list equal to the marks with
a nonzero bitmap, so later modules speak only about the set of free blocks.
-/

namespace BuddyHeap
open Nat

open DyadicTiling LinkedIndex MemoryLayout

section Bits

theorem mkLnks_toNat {pre next : Nat} (hp : pre < 2 ^ 16) (hn : next < 2 ^ 16) :
    (mkLnks pre next).toNat = pre * 2 ^ 16 + next := by
  have hmask : next &&& 65535 = next := by
    rw [show 65535 = 2 ^ 16 - 1 from rfl, and_two_pow_sub_one_of_lt_two_pow hn]
  have hshift : (pre % 2 ^ 32) <<< 16 % 2 ^ 32 = pre <<< 16 := by
    rw [shiftLeft_eq, shiftLeft_eq]
    omega
  have hnext : next % 2 ^ 32 = next := by omega
  simp only [mkLnks, BitVec.toNat_or, BitVec.toNat_shiftLeft, BitVec.toNat_and,
    BitVec.toNat_ofNat, hshift, hnext]
  rw [show 65535 % 2 ^ 32 = 65535 from rfl, hmask, ← shiftLeft_add_eq_or_of_lt hn,
    shiftLeft_eq]

theorem preLnk_mkLnks {pre next : Nat} (hp : pre < 2 ^ 16) (hn : next < 2 ^ 16) :
    preLnk (mkLnks pre next) = pre := by
  rw [preLnk, BitVec.toNat_ushiftRight, mkLnks_toNat hp hn, shiftRight_eq_div_pow]
  omega

theorem nextLnk_mkLnks {pre next : Nat} (hp : pre < 2 ^ 16) (hn : next < 2 ^ 16) :
    nextLnk (mkLnks pre next) = next := by
  rw [nextLnk, BitVec.toNat_and, mkLnks_toNat hp hn,
    show (0xFFFF#32).toNat = 2 ^ 16 - 1 from rfl, and_two_pow_sub_one_eq_mod]
  omega

theorem preLnk_lt (lnks : BitVec 32) : preLnk lnks < 2 ^ 16 := by
  rw [preLnk, BitVec.toNat_ushiftRight, shiftRight_eq_div_pow]
  have := lnks.isLt
  omega

theorem nextLnk_lt (lnks : BitVec 32) : nextLnk lnks < 2 ^ 16 := by
  rw [nextLnk, BitVec.toNat_and, show (0xFFFF#32).toNat = 2 ^ 16 - 1 from rfl,
    and_two_pow_sub_one_eq_mod]
  omega

theorem getLsbD_blkBit (k j : Nat) : (blkBit k).getLsbD j = decide (j = k % 32) := by
  have hk : k &&& 0x1F = k % 32 := and_two_pow_sub_one_eq_mod k 5
  have hlt : k % 32 < 32 := mod_lt _ (by decide)
  rw [blkBit, hk, BitVec.getLsbD_shiftLeft, BitVec.getLsbD_one]
  by_cases h : j = k % 32
  · simp [h, hlt]
  · by_cases hj : j < k % 32
    · simp [h, hj]
    · have : j - k % 32 ≠ 0 := by omega
      simp [h, this]

theorem eq_zero_iff (bm : BitVec 32) : bm = 0#32 ↔ ∀ j < 32, bm.getLsbD j = false := by
  constructor
  · rintro rfl j -
    simp
  · intro h
    apply BitVec.eq_of_getLsbD_eq
    intro i hi
    simp [h i hi]

theorem available_eq (bm : BitVec 32) (k : Nat) : available bm k = bm.getLsbD (k % 32) := by
  have hlt : k % 32 < 32 := mod_lt _ (by decide)
  rw [available, Bool.eq_iff_iff, bne_iff_ne, Ne, eq_zero_iff]
  constructor
  · intro h
    by_contra hb
    apply h
    intro j hj
    rw [BitVec.getLsbD_and, getLsbD_blkBit]
    by_cases e : j = k % 32
    · simpa [e] using hb
    · simp [e]
  · intro hb h
    have := h (k % 32) hlt
    simp [getLsbD_blkBit, hb] at this

theorem getLsbD_set (bm : BitVec 32) (k j : Nat) :
    (bm ||| blkBit k).getLsbD j = (bm.getLsbD j || decide (j = k % 32)) := by
  rw [BitVec.getLsbD_or, getLsbD_blkBit]

theorem getLsbD_clear (bm : BitVec 32) (k : Nat) {j : Nat} (hj : j < 32) :
    (bm &&& ~~~blkBit k).getLsbD j = (bm.getLsbD j && !decide (j = k % 32)) := by
  rw [BitVec.getLsbD_and, BitVec.getLsbD_not, getLsbD_blkBit]
  simp [hj]

end Bits

/-- A region with at most `0xFFFF` marks of the smallest order. -/
structure Region where
  start : Nat
  stop : Nat
  nonempty : start < stop
  bounded : stop < 2 ^ 64
  few_marks : (((stop - start) >>> (maxOrd + 5)) + 1) * 2 ^ (maxOrd - minOrd) ≤ 0xFFFF

namespace Region
variable (r : Region)

/-- The number of marks of the highest order. -/
def topMarks : Nat := ((r.stop - r.start) >>> (maxOrd + 5)) + 1

def markCount (o : Nat) : Nat := r.topMarks * 2 ^ (maxOrd - o)

def offset (o : Nat) : Nat := r.topMarks * (2 ^ (maxOrd - o) - 1)

def startHeap : Nat :=
  alignUp (r.start + r.topMarks * (2 ^ nOrd - 1) * 8) (2 ^ maxOrd)

/-- Bytes of allocatable memory, in whole pages; zero when the marks fill the region. -/
def heapLen : Nat := alignUp (r.stop - r.startHeap) (2 ^ maxOrd)

/-- Both ends on page boundaries. -/
def Aligned : Prop := pteSz ∣ r.start ∧ pteSz ∣ r.stop

end Region

/-- The orders the allocator serves. -/
def IsOrder (o : Nat) : Prop := minOrd ≤ o ∧ o ≤ maxOrd

instance (o : Nat) : Decidable (IsOrder o) := inferInstanceAs (Decidable (_ ∧ _))

/-- The addresses of the region are those recorded in the state, and the marks
of each order start at their place in the mark array. -/
structure Layout (r : Region) (s : Kmem) : Prop where
  startHeap : s.startHeap = r.startHeap
  stop : s.stop = r.stop
  offset : ∀ o, IsOrder o → (s.order o).offset = r.offset o

section Layout
variable {r : Region} {s : Kmem} {o o' i i' : Nat}

theorem Region.topMarks_pos (r : Region) : 0 < r.topMarks := succ_pos _

/-- Mark arrays of different orders do not overlap. -/
theorem mark_index_inj (ho : IsOrder o) (ho' : IsOrder o') (hi : i < r.markCount o)
    (hi' : i' < r.markCount o') (same : r.offset o + i = r.offset o' + i') : o = o' ∧ i = i' := by
  have apart : ∀ a b j k, IsOrder a → IsOrder b → j < r.markCount a → a > b →
      r.offset a + j < r.offset b + k := by
    intro a b j k ha hb hj hab
    obtain ⟨d, hd⟩ := Nat.exists_eq_add_of_lt hab
    have hexp : maxOrd - b = maxOrd - a + (d + 1) := by
      have := ha.2; omega
    have hpow : 2 ^ (maxOrd - a) * 2 ≤ 2 ^ (maxOrd - b) := by
      rw [hexp, Nat.pow_add, Nat.pow_succ]
      exact Nat.mul_le_mul_left _ (Nat.le_mul_of_pos_left 2 (Nat.two_pow_pos d))
    have hone : 1 ≤ 2 ^ (maxOrd - a) := Nat.one_le_two_pow
    have hle : r.offset a + r.markCount a ≤ r.offset b := by
      rw [Region.offset, Region.markCount, Region.offset, ← Nat.mul_add]
      exact Nat.mul_le_mul_left _ (by omega)
    omega
  rcases Nat.lt_trichotomy o o' with h | h | h
  · have := apart o' o i' i ho' ho hi' h; omega
  · subst h
    exact ⟨rfl, by omega⟩
  · have := apart o o' i i' ho ho' hi h; omega

theorem Layout.setMark (lay : Layout r s) (o i : Nat) (m : Mark) :
    Layout r (s.setMark o i m) := ⟨lay.startHeap, lay.stop, lay.offset⟩

theorem Layout.setLnks (lay : Layout r s) (o i : Nat) (l : BitVec 32) :
    Layout r (s.setLnks o i l) := lay.setMark o i _

theorem order_sub_inj (ho : IsOrder o) (ho' : IsOrder o') : o' - minOrd = o - minOrd ↔ o' = o := by
  have := ho.1; have := ho'.1; omega

theorem order_setHead (ho : IsOrder o) (ho' : IsOrder o') (h : Nat) :
    (s.setHead o h).order o' = if o' = o then { s.order o with head := h } else s.order o' := by
  simp only [Kmem.setHead, Kmem.setOrder, Kmem.order, order_sub_inj ho ho']

theorem Layout.setHead (lay : Layout r s) (ho : IsOrder o) (h : Nat) :
    Layout r (s.setHead o h) := by
  refine ⟨lay.startHeap, lay.stop, fun o' ho' => ?_⟩
  rw [order_setHead ho ho']
  split
  · next heq => exact heq ▸ lay.offset o ho
  · exact lay.offset o' ho'

theorem getMark_setHead (ho : IsOrder o) (ho' : IsOrder o') (h i : Nat) :
    (s.setHead o h).getMark o' i = s.getMark o' i := by
  have hoff : ((s.setHead o h).order o').offset = (s.order o').offset := by
    rw [order_setHead ho ho']
    split
    · next heq => rw [heq]
    · rfl
  simp only [Kmem.getMark, hoff]
  rfl

section
variable (lay : Layout r s) (ho : IsOrder o) (ho' : IsOrder o') (hi : i < r.markCount o)
    (hi' : i' < r.markCount o')
include lay ho ho' hi hi'

theorem getMark_setMark (m : Mark) :
    (s.setMark o i m).getMark o' i' = if o' = o ∧ i' = i then m else s.getMark o' i' := by
  have hidx : (s.order o').offset + i' = (s.order o).offset + i ↔ o' = o ∧ i' = i := by
    rw [lay.offset o ho, lay.offset o' ho']
    constructor
    · exact mark_index_inj ho' ho hi' hi
    · rintro ⟨rfl, rfl⟩
      rfl
  change (if (s.order o').offset + i' = (s.order o).offset + i then m else _) = _
  simp only [hidx]
  rfl

theorem getMark_setLnks (l : BitVec 32) : (s.setLnks o i l).getMark o' i' =
      if o' = o ∧ i' = i then { s.getMark o i with lnks := l } else s.getMark o' i' :=
  getMark_setMark lay ho ho' hi hi' _

end

theorem markCount_le (r : Region) (ho : IsOrder o) : r.markCount o ≤ NIL := by
  have hle : 2 ^ (maxOrd - o) ≤ 2 ^ (maxOrd - minOrd) :=
    Nat.pow_le_pow_right (by decide) (by have := ho.1; omega)
  exact (Nat.mul_le_mul_left _ hle).trans r.few_marks

theorem mark_lt_nil (ho : IsOrder o) (hi : i < r.markCount o) : i < NIL :=
  lt_of_lt_of_le hi (markCount_le r ho)

end Layout

/-- The free list of an order visits exactly the marks with an available block;
all other marks have null links. -/
structure FreeList (r : Region) (s : Kmem) (o : Nat) (xs : List Nat) : Prop where
  linked : Linked (fun i => preLnk (s.getMark o i).lnks) (fun i => nextLnk (s.getMark o i).lnks)
    NIL (fun _ => True) NIL (s.order o).head xs
  nodup : xs.Nodup
  mem_iff : ∀ i, i ∈ xs ↔ i < r.markCount o ∧ (s.getMark o i).bitmap ≠ 0#32
  unlinked : ∀ i < r.markCount o, i ∉ xs → (s.getMark o i).lnks = mkLnks NIL NIL

/-- The state of the mark array between operations. -/
structure MarksOk (r : Region) (s : Kmem) : Prop where
  layout : Layout r s
  lists : ∀ o, IsOrder o → ∃ xs, FreeList r s o xs

section FreeLists
variable {r : Region} {s s' : Kmem} {o o' i : Nat} {xs : List Nat}

theorem FreeList.lt_count (h : FreeList r s o xs) (hi : i ∈ xs) : i < r.markCount o :=
  ((h.mem_iff i).mp hi).1

/-- The links as they are during an update: the chain of `xs` is intact and the
marks outside it have null links, but a bitmap may disagree with membership. -/
structure Chained (r : Region) (s : Kmem) (o : Nat) (xs : List Nat) : Prop where
  linked : Linked (fun i => preLnk (s.getMark o i).lnks) (fun i => nextLnk (s.getMark o i).lnks)
    NIL (fun _ => True) NIL (s.order o).head xs
  nodup : xs.Nodup
  bound : ∀ i ∈ xs, i < r.markCount o
  unlinked : ∀ i < r.markCount o, i ∉ xs → (s.getMark o i).lnks = mkLnks NIL NIL

theorem FreeList.chained (h : FreeList r s o xs) : Chained r s o xs :=
  ⟨h.linked, h.nodup, fun _ hi => h.lt_count hi, h.unlinked⟩

theorem Chained.freeList (h : Chained r s o xs)
    (mem_iff : ∀ i < r.markCount o, i ∈ xs ↔ (s.getMark o i).bitmap ≠ 0#32) : FreeList r s o xs :=
  ⟨h.linked, h.nodup, fun i => ⟨fun hi => ⟨h.bound i hi, (mem_iff i (h.bound i hi)).mp hi⟩,
    fun hi => (mem_iff i hi.1).mpr hi.2⟩, h.unlinked⟩

theorem Chained.congr (h : Chained r s o xs)
    (lnks : ∀ i < r.markCount o, (s'.getMark o i).lnks = (s.getMark o i).lnks)
    (head : (s'.order o).head = (s.order o).head) : Chained r s' o xs := by
  refine ⟨?_, h.nodup, h.bound, fun i hi hx => (lnks i hi).trans (h.unlinked i hi hx)⟩
  rw [head]
  exact h.linked.congr (fun i hi => by rw [lnks i (h.bound i hi)])
    (fun i hi => by rw [lnks i (h.bound i hi)]) (fun _ _ _ => trivial)

theorem FreeList.congr (h : FreeList r s o xs)
    (marks : ∀ i < r.markCount o, s'.getMark o i = s.getMark o i)
    (head : (s'.order o).head = (s.order o).head) : FreeList r s' o xs := by
  refine (h.chained.congr (fun i hi => by rw [marks i hi]) head).freeList fun i hi => ?_
  rw [h.mem_iff, marks i hi]
  exact and_iff_right hi

theorem Chained.not_nil (h : Chained r s o xs) (ho : IsOrder o) : NIL ∉ xs :=
  fun hmem => lt_irrefl _ (mark_lt_nil ho (h.bound NIL hmem))

/-- A step that rewrites links of one order only. -/
structure Relinks (r : Region) (o : Nat) (s s' : Kmem) : Prop where
  layout : Layout r s'
  bitmap : ∀ o' j, IsOrder o' → j < r.markCount o' →
    (s'.getMark o' j).bitmap = (s.getMark o' j).bitmap
  head : ∀ o', IsOrder o' → o' ≠ o → (s'.order o').head = (s.order o').head
  marks : ∀ o' j, IsOrder o' → o' ≠ o → j < r.markCount o' → s'.getMark o' j = s.getMark o' j

theorem Relinks.refl (lay : Layout r s) : Relinks r o s s :=
  ⟨lay, fun _ _ _ _ => rfl, fun _ _ _ => rfl, fun _ _ _ _ _ => rfl⟩

theorem Relinks.trans {t : Kmem} (h : Relinks r o s t) (h' : Relinks r o t s') :
    Relinks r o s s' where
  layout := h'.layout
  bitmap o' j ho' hj := (h'.bitmap o' j ho' hj).trans (h.bitmap o' j ho' hj)
  head o' ho' hne := (h'.head o' ho' hne).trans (h.head o' ho' hne)
  marks o' j ho' hne hj := (h'.marks o' j ho' hne hj).trans (h.marks o' j ho' hne hj)

theorem Relinks.setLnks (lay : Layout r s) (ho : IsOrder o) (hi : i < r.markCount o)
    (l : BitVec 32) : Relinks r o s (s.setLnks o i l) where
  layout := lay.setLnks o i l
  bitmap o' j ho' hj := by
    rw [getMark_setLnks lay ho ho' hi hj]
    split
    · next h => rw [h.1, h.2]
    · rfl
  head _ _ _ := rfl
  marks o' j ho' hne hj := by
    rw [getMark_setLnks lay ho ho' hi hj, if_neg fun h => hne h.1]

theorem Relinks.setHead (lay : Layout r s) (ho : IsOrder o) (h : Nat) :
    Relinks r o s (s.setHead o h) where
  layout := lay.setHead ho h
  bitmap o' j ho' _ := by rw [getMark_setHead ho ho']
  head o' ho' hne := by rw [order_setHead ho ho', if_neg hne]
  marks o' j ho' _ _ := getMark_setHead ho ho' h j

theorem head_setHead (ho : IsOrder o) (h : Nat) : ((s.setHead o h).order o).head = h := by
  simp [order_setHead ho ho]

section
variable (lay : Layout r s)
include lay

section
variable (ho : IsOrder o)
include ho

theorem lnks_setLnks (hi : i < r.markCount o) {j : Nat} (hj : j < r.markCount o) (l : BitVec 32) :
    ((s.setLnks o i l).getMark o j).lnks = if j = i then l else (s.getMark o j).lnks := by
  simp only [getMark_setLnks lay ho ho hi hj, true_and]
  split <;> rfl

/-- `linkMark` puts an unlinked mark in front and touches no bitmap. -/
theorem linkMark_spec (h : Chained r s o xs) (hi : i < r.markCount o) (hx : i ∉ xs) :
    Relinks r o s (linkMark s o i) ∧ Chained r (linkMark s o i) o (i :: xs) := by
  have hnil := mark_lt_nil ho hi
  have hNIL : NIL < 2 ^ 16 := by decide
  have headLt : (s.order o).head < 2 ^ 16 := by
    by_cases hd : (s.order o).head = NIL
    · rw [hd]; exact hNIL
    · have := mark_lt_nil ho (h.bound _ (h.linked.first_mem hd)); omega
  have r₁ := Relinks.setLnks lay ho hi (mkLnks NIL (s.order o).head)
  by_cases hd : (s.order o).head = NIL
  · have hxs : xs = [] := h.linked.eq_nil_iff.mpr hd
    subst hxs
    have heq : linkMark s o i = (s.setLnks o i (mkLnks NIL NIL)).setHead o i := by
      simp [linkMark, hd]
    rw [hd] at r₁
    have r₂ := Relinks.setHead r₁.layout ho i
    have lnks : ∀ j < r.markCount o, ((linkMark s o i).getMark o j).lnks =
        if j = i then mkLnks NIL NIL else (s.getMark o j).lnks := fun j hj => by
      rw [heq, getMark_setHead ho ho, lnks_setLnks lay ho hi hj]
    refine ⟨heq ▸ r₁.trans r₂, ?_, by simp, by simpa using hi, fun j hj hne => ?_⟩
    · rw [heq, head_setHead ho, ← heq]
      refine ⟨rfl, hnil.ne, ?_, ?_, trivial⟩
      · simp only [lnks i hi, if_true, preLnk_mkLnks hNIL hNIL]
      · simp only [lnks i hi, if_true, nextLnk_mkLnks hNIL hNIL]
    · rw [lnks j hj, if_neg (by simpa using hne)]
      exact h.unlinked j hj (by simp)
  · have hmem := h.linked.first_mem hd
    have hlt := h.bound _ hmem
    have hne : (s.order o).head ≠ i := fun e => hx (e ▸ hmem)
    have heq : linkMark s o i = ((s.setLnks o i (mkLnks NIL (s.order o).head)).setLnks o
        (s.order o).head (mkLnks i (nextLnk (s.getMark o (s.order o).head).lnks))).setHead o i := by
      simp only [linkMark, ne_eq, hd, not_false_eq_true, if_true]
      rw [lnks_setLnks lay ho hi hlt, if_neg hne]
    have r₂ := Relinks.setLnks r₁.layout ho hlt
      (mkLnks i (nextLnk (s.getMark o (s.order o).head).lnks))
    have r₃ := Relinks.setHead r₂.layout ho i
    have lnks : ∀ j < r.markCount o, ((linkMark s o i).getMark o j).lnks =
        if j = (s.order o).head then mkLnks i (nextLnk (s.getMark o (s.order o).head).lnks)
        else if j = i then mkLnks NIL (s.order o).head else (s.getMark o j).lnks := fun j hj => by
      rw [heq, getMark_setHead ho ho, lnks_setLnks r₁.layout ho hlt hj, lnks_setLnks lay ho hi hj]
    refine ⟨heq ▸ (r₁.trans r₂).trans r₃, ?_, List.nodup_cons.mpr ⟨hx, h.nodup⟩, ?_, ?_⟩
    · rw [heq, head_setHead ho, ← heq]
      refine h.linked.push h.nodup hnil.ne ?_ ?_ (fun x hxs => ?_) (fun x hxs => ?_)
        (fun _ _ _ => trivial)
      · simp only [lnks i hi, if_neg hne.symm, if_true, preLnk_mkLnks hNIL headLt]
      · simp only [lnks i hi, if_neg hne.symm, if_true, nextLnk_mkLnks hNIL headLt]
      · have hxi : x ≠ i := fun e => hx (e ▸ hxs)
        simp only [lnks x (h.bound x hxs), if_neg hxi]
        split
        · exact preLnk_mkLnks (by omega) (nextLnk_lt _)
        · rfl
      · have hxi : x ≠ i := fun e => hx (e ▸ hxs)
        simp only [lnks x (h.bound x hxs), if_neg hxi]
        split
        · next e => rw [e]; exact nextLnk_mkLnks (by omega) (nextLnk_lt _)
        · rfl
    · intro j hj
      rcases List.mem_cons.mp hj with rfl | hj
      · exact hi
      · exact h.bound j hj
    · intro j hj hjx
      obtain ⟨hji, hjxs⟩ := not_or.mp (fun e => hjx (List.mem_cons.mpr e))
      have hjh : j ≠ (s.order o).head := fun e => hjxs (e ▸ hmem)
      rw [lnks j hj, if_neg hjh, if_neg hji]
      exact h.unlinked j hj hjxs

theorem joinPrev_spec {prev : Nat} (next : Nat)
    (hprev : prev ≠ NIL → prev < r.markCount o) (hhead : prev ≠ NIL → (s.order o).head ≠ i) :
    Relinks r o s (joinPrev s o i prev next) ∧ ((joinPrev s o i prev next).order o).head =
      (if (s.order o).head = i then next else (s.order o).head) ∧
    ∀ j < r.markCount o, ((joinPrev s o i prev next).getMark o j).lnks =
      if j = prev then mkLnks (preLnk (s.getMark o j).lnks) next else (s.getMark o j).lnks := by
  by_cases hp : prev = NIL
  · have notPrev : ∀ j < r.markCount o, j ≠ prev := fun j hj => hp ▸ (mark_lt_nil ho hj).ne
    by_cases hh : (s.order o).head = i
    · have heq : joinPrev s o i prev next = s.setHead o next := by simp [joinPrev, hp, hh]
      rw [heq, if_pos hh]
      refine ⟨Relinks.setHead lay ho next, head_setHead ho next, fun j hj => ?_⟩
      rw [getMark_setHead ho ho, if_neg (notPrev j hj)]
    · have heq : joinPrev s o i prev next = s := by simp [joinPrev, hp, hh]
      rw [heq, if_neg hh]
      exact ⟨Relinks.refl lay, rfl, fun j hj => (if_neg (notPrev j hj)).symm⟩
  · have heq : joinPrev s o i prev next =
        s.setLnks o prev (mkLnks (preLnk (s.getMark o prev).lnks) next) := by simp [joinPrev, hp]
    rw [heq, if_neg (hhead hp)]
    refine ⟨Relinks.setLnks lay ho (hprev hp) _, rfl, fun j hj => ?_⟩
    rw [lnks_setLnks lay ho (hprev hp) hj]
    split
    · next e => rw [e]
    · rfl

theorem joinNext_spec (prev : Nat) {next : Nat} (hnext : next ≠ NIL → next < r.markCount o) :
    Relinks r o s (joinNext s o prev next) ∧
    ((joinNext s o prev next).order o).head = (s.order o).head ∧
    ∀ j < r.markCount o, ((joinNext s o prev next).getMark o j).lnks =
      if j = next then mkLnks prev (nextLnk (s.getMark o j).lnks) else (s.getMark o j).lnks := by
  by_cases hn : next = NIL
  · have heq : joinNext s o prev next = s := by simp [joinNext, hn]
    rw [heq]
    exact ⟨Relinks.refl lay, rfl, fun j hj => (if_neg (hn ▸ (mark_lt_nil ho hj).ne)).symm⟩
  · have heq : joinNext s o prev next =
        s.setLnks o next (mkLnks prev (nextLnk (s.getMark o next).lnks)) := by simp [joinNext, hn]
    rw [heq]
    refine ⟨Relinks.setLnks lay ho (hnext hn) _, rfl, fun j hj => ?_⟩
    rw [lnks_setLnks lay ho (hnext hn) hj]
    split
    · next e => rw [e]
    · rfl

/-- `unlinkMark`, called with the links of a listed mark, removes it. -/
theorem unlinkMark_spec (h : Chained r s o xs)
    (hx : i ∈ xs) {prev next : Nat} (hprev : preLnk (s.getMark o i).lnks = prev)
    (hnext : nextLnk (s.getMark o i).lnks = next) : Relinks r o s (unlinkMark s o i prev next) ∧
      Chained r (unlinkMark s o i prev next) o (xs.erase i) := by
  have hi := h.bound i hx
  have hNIL : NIL < 2 ^ 16 := by decide
  have prevLt : prev < 2 ^ 16 := hprev ▸ preLnk_lt _
  have nextLt : next < 2 ^ 16 := hnext ▸ nextLnk_lt _
  have prevCases : (s.order o).head = i ∧ prev = NIL ∨ prev ∈ xs := hprev ▸ h.linked.pre_cases hx
  have nextCases : next = NIL ∨ next ∈ xs := hnext ▸ h.linked.next_cases hx
  have prevHead : prev ≠ NIL → (s.order o).head ≠ i := by
    rintro hp rfl
    exact hp (hprev ▸ h.linked.pre_first (h.linked.ne_stop _ hx))
  obtain ⟨r₁, head₁, lnks₁⟩ := joinPrev_spec (i := i) lay ho next
    (fun hp => h.bound _ (prevCases.resolve_left fun e => hp e.2)) prevHead
  obtain ⟨r₂, head₂, lnks₂⟩ := joinNext_spec r₁.layout ho prev
    (fun hn => h.bound _ (nextCases.resolve_left hn))
  have r₃ := Relinks.setLnks r₂.layout ho hi (mkLnks NIL NIL)
  have lnks : ∀ j < r.markCount o, j ≠ i →
      ((unlinkMark s o i prev next).getMark o j).lnks =
        ((joinNext (joinPrev s o i prev next) o prev next).getMark o j).lnks := by
    intro j hj hji
    rw [unlinkMark, lnks_setLnks r₂.layout ho hi hj, if_neg hji]
  refine ⟨(r₁.trans r₂).trans r₃, ?_, h.nodup.erase i,
    fun j hj => h.bound j (List.mem_of_mem_erase hj), fun j hj hjx => ?_⟩
  · have hhead : ((unlinkMark s o i prev next).order o).head =
        if (s.order o).head = i then next else (s.order o).head := head₂.trans head₁
    rw [hhead, ← hnext]
    refine h.linked.remove h.nodup hx (h.not_nil ho) (fun x hxs hxi => ?_)
      (fun x hxs hxi => ?_) (fun _ _ _ => trivial)
    · have hlt := h.bound x hxs
      simp only [lnks x hlt hxi, lnks₂ x hlt, lnks₁ x hlt, hprev, hnext]
      by_cases hxn : x = next
      · simp only [if_pos hxn, preLnk_mkLnks prevLt (nextLnk_lt _)]
      · simp only [if_neg hxn]
        split
        · exact preLnk_mkLnks (preLnk_lt _) nextLt
        · rfl
    · have hlt := h.bound x hxs
      simp only [lnks x hlt hxi, lnks₂ x hlt, lnks₁ x hlt, hprev, hnext]
      have same : nextLnk (if x = prev then mkLnks (preLnk (s.getMark o x).lnks) next
          else (s.getMark o x).lnks) = if x = prev then next else nextLnk (s.getMark o x).lnks := by
        split
        · exact nextLnk_mkLnks (preLnk_lt _) nextLt
        · rfl
      by_cases hxn : x = next
      · rw [if_pos hxn, nextLnk_mkLnks prevLt (nextLnk_lt _), same]
      · simp only [if_neg hxn, same]
  · by_cases hji : j = i
    · rw [unlinkMark, lnks_setLnks r₂.layout ho hi hj, if_pos hji]
    · have hjxs : j ∉ xs := fun hmem => hjx ((List.mem_erase_of_ne hji).mpr hmem)
      have hjnil := (mark_lt_nil ho hj).ne
      have hjp : j ≠ prev := by
        rintro rfl
        rcases prevCases with e | e
        · exact hjnil e.2
        · exact hjxs e
      have hjn : j ≠ next := by
        rintro rfl
        rcases nextCases with e | e
        · exact hjnil e
        · exact hjxs e
      rw [lnks j hj hji, lnks₂ j hj, if_neg hjn, lnks₁ j hj, if_neg hjp]
      exact h.unlinked j hj hjxs

end

end

end FreeLists

/-- The availability bit of a block. -/
def bit (s : Kmem) (o k : Nat) : Bool := (s.getMark o (k / 32)).bitmap.getLsbD (k % 32)

/-- The set bits of all orders, as blocks relative to the start of the heap. -/
def freeBlocks (r : Region) (s : Kmem) : Set Block :=
  {b | IsOrder b.ord ∧ b.id / 32 < r.markCount b.ord ∧ bit s b.ord b.id = true}

section FreeBlocks
variable {r : Region} {s s' : Kmem} {o k : Nat}

theorem mem_freeBlocks {b : Block} : b ∈ freeBlocks r s ↔
    IsOrder b.ord ∧ b.id / 32 < r.markCount b.ord ∧ bit s b.ord b.id = true := Iff.rfl

theorem available_bit (s : Kmem) (o k : Nat) :
    available (s.getMark o (k / 32)).bitmap k = bit s o k := available_eq _ k

/-- A free list is empty exactly when no block of its order is free. -/
theorem head_ne_nil_iff (ok : MarksOk r s) (ho : IsOrder o) :
    (s.order o).head ≠ NIL ↔ ∃ k, (⟨o, k⟩ : Block) ∈ freeBlocks r s := by
  obtain ⟨xs, hxs⟩ := ok.lists o ho
  constructor
  · intro hd
    obtain ⟨hlt, hne⟩ := (hxs.mem_iff _).mp (hxs.linked.first_mem hd)
    obtain ⟨j, hj, hbit⟩ : ∃ j < 32, (s.getMark o (s.order o).head).bitmap.getLsbD j = true := by
      by_contra hno
      exact hne ((eq_zero_iff _).mpr fun j hj => by
        by_contra hb
        exact hno ⟨j, hj, by simpa using hb⟩)
    have hdiv : ((s.order o).head * 32 + j) / 32 = (s.order o).head := by omega
    have hmod : ((s.order o).head * 32 + j) % 32 = j := by omega
    exact ⟨(s.order o).head * 32 + j, ho, by simpa only [hdiv] using hlt,
      by simpa only [bit, hdiv, hmod] using hbit⟩
  · rintro ⟨k, -, hlt, hbit⟩ hd
    have hnil : xs = [] := hxs.linked.eq_nil_iff.mpr hd
    subst hnil
    have hzero : (s.getMark o (k / 32)).bitmap = 0#32 := by
      by_contra hne
      exact List.not_mem_nil ((hxs.mem_iff _).mpr ⟨hlt, hne⟩)
    simp [bit, hzero] at hbit

/-- The set of free blocks after the bitmap of one mark has changed. -/
theorem freeBlocks_update {i : Nat} {bm : BitVec 32}
    (hbm : ∀ o' j, IsOrder o' → j < r.markCount o' → (s'.getMark o' j).bitmap =
      if o' = o ∧ j = i then bm else (s.getMark o' j).bitmap) (b : Block) :
    b ∈ freeBlocks r s' ↔ IsOrder b.ord ∧ b.id / 32 < r.markCount b.ord ∧
      (if b.ord = o ∧ b.id / 32 = i then bm.getLsbD (b.id % 32) else bit s b.ord b.id) = true := by
  refine and_congr_right fun hob => and_congr_right fun hlt => ?_
  rw [bit, hbm _ _ hob hlt]
  split <;> rfl

/-- Overwrite the bitmap of one mark. -/
def setBitmap (s : Kmem) (o i : Nat) (bm : BitVec 32) : Kmem :=
  s.setMark o i { s.getMark o i with bitmap := bm }

theorem getMark_setBitmap (lay : Layout r s) (ho : IsOrder o) {i : Nat}
    (hi : i < r.markCount o) (bm : BitVec 32) {o' j : Nat} (ho' : IsOrder o')
    (hj : j < r.markCount o') : (setBitmap s o i bm).getMark o' j =
      if o' = o ∧ j = i then { s.getMark o i with bitmap := bm } else s.getMark o' j :=
  getMark_setMark lay ho ho' hi hj _

theorem chained_setBitmap {xs : List Nat} (lay : Layout r s) (ho : IsOrder o) {i : Nat}
    (hi : i < r.markCount o) (bm : BitVec 32) (h : Chained r s o xs) :
    Chained r (setBitmap s o i bm) o xs := by
  refine h.congr (fun j hj => ?_) rfl
  rw [getMark_setBitmap lay ho hi bm ho hj]
  split
  · next e => rw [e.2]
  · rfl

/-- An operation on one block: overwrite one bitmap, then relink its order so
that the chain is again the set of nonempty marks. -/
theorem update_spec {i : Nat} {bm : BitVec 32} {ys : List Nat} (ok : MarksOk r s)
    (ho : IsOrder o) (hi : i < r.markCount o)
    (relinks : Relinks r o (setBitmap s o i bm) s') (chained : Chained r s' o ys)
    (mem_iff : ∀ j < r.markCount o,
      j ∈ ys ↔ (if j = i then bm else (s.getMark o j).bitmap) ≠ 0#32) :
    MarksOk r s' ∧ ∀ b, b ∈ freeBlocks r s' ↔ IsOrder b.ord ∧ b.id / 32 < r.markCount b.ord ∧
      (if b.ord = o ∧ b.id / 32 = i then bm.getLsbD (b.id % 32) else bit s b.ord b.id) = true := by
  have hbm : ∀ o' j, IsOrder o' → j < r.markCount o' → (s'.getMark o' j).bitmap =
      if o' = o ∧ j = i then bm else (s.getMark o' j).bitmap := by
    intro o' j ho' hj
    rw [relinks.bitmap o' j ho' hj, getMark_setBitmap ok.layout ho hi bm ho' hj]
    split <;> rfl
  refine ⟨⟨relinks.layout, fun o' ho' => ?_⟩, freeBlocks_update hbm⟩
  by_cases heq : o' = o
  · subst heq
    refine ⟨ys, chained.freeList fun j hj => ?_⟩
    rw [mem_iff j hj, hbm o' j ho' hj]
    simp only [true_and]
  · obtain ⟨xs, hxs⟩ := ok.lists o' ho'
    refine ⟨xs, hxs.congr (fun j hj => ?_) (relinks.head o' ho' heq)⟩
    rw [relinks.marks o' j ho' heq hj, getMark_setBitmap ok.layout ho hi bm ho' hj,
      if_neg fun e => heq e.1]

theorem block_eq_iff {b : Block} : b = ⟨o, k⟩ ↔ (b.ord = o ∧ b.id / 32 = k / 32) ∧
    b.id % 32 = k % 32 := by
  simp only [Block.ext_iff]
  omega

theorem markBlk_spec (ok : MarksOk r s) (ho : IsOrder o) (hk : k / 32 < r.markCount o)
    (hfree : (⟨o, k⟩ : Block) ∉ freeBlocks r s) : ∃ s', markBlk s o k = .ok s' ∧ MarksOk r s' ∧
      freeBlocks r s' = insert ⟨o, k⟩ (freeBlocks r s) := by
  have hbit : bit s o k = false := by
    by_contra hb
    exact hfree ⟨ho, hk, by simpa using hb⟩
  have hmod : k % 32 < 32 := mod_lt _ (by decide)
  obtain ⟨bm, hbm⟩ : ∃ bm, bm = (s.getMark o (k / 32)).bitmap ||| blkBit k := ⟨_, rfl⟩
  have hne : bm ≠ 0#32 := fun h0 => by
    have hclear := (eq_zero_iff bm).mp h0 _ hmod
    rw [hbm, getLsbD_set] at hclear
    simp at hclear
  obtain ⟨xs, hxs⟩ := ok.lists o ho
  have hchain := chained_setBitmap ok.layout ho hk bm hxs.chained
  have hlay : Layout r (setBitmap s o (k / 32) bm) := ok.layout.setMark _ _ _
  have hrun : markBlk s o k = .ok (if (s.getMark o (k / 32)).bitmap = 0#32 then
      linkMark (setBitmap s o (k / 32) bm) o (k / 32) else setBitmap s o (k / 32) bm) := by
    simp only [markBlk, shiftRight_eq_div_pow, reducePow, available_bit, hbit, hbm,
      setBitmap, Bool.false_eq_true, if_false]
    split <;> rfl
  obtain ⟨s', hs', hok, hmem⟩ : ∃ s', markBlk s o k = .ok s' ∧ MarksOk r s' ∧
      ∀ b, b ∈ freeBlocks r s' ↔ IsOrder b.ord ∧ b.id / 32 < r.markCount b.ord ∧
        (if b.ord = o ∧ b.id / 32 = k / 32 then bm.getLsbD (b.id % 32)
          else bit s b.ord b.id) = true := by
    refine ⟨_, hrun, ?_⟩
    by_cases hz : (s.getMark o (k / 32)).bitmap = 0#32
    · rw [if_pos hz]
      have hnot : k / 32 ∉ xs := fun hx => ((hxs.mem_iff _).mp hx).2 hz
      obtain ⟨hrel, hch⟩ := linkMark_spec hlay ho hchain hk hnot
      refine update_spec ok ho hk hrel hch fun j hj => ?_
      by_cases hjk : j = k / 32
      · simp [hjk, hne]
      · simp only [List.mem_cons, hjk, false_or, if_false, hxs.mem_iff]
        exact and_iff_right hj
    · rw [if_neg hz]
      refine update_spec ok ho hk (Relinks.refl hlay) hchain fun j hj => ?_
      by_cases hjk : j = k / 32
      · simp only [hjk, if_true, hxs.mem_iff]
        exact iff_of_true ⟨hk, hz⟩ hne
      · simp only [hjk, if_false, hxs.mem_iff]
        exact and_iff_right hj
  refine ⟨s', hs', hok, Set.ext fun b => ?_⟩
  rw [hmem, Set.mem_insert_iff, block_eq_iff (o := o) (k := k)]
  by_cases hsame : b.ord = o ∧ b.id / 32 = k / 32
  · have hbits : bit s o b.id = (s.getMark o (k / 32)).bitmap.getLsbD (b.id % 32) := by
      rw [bit, hsame.2]
    simp only [hsame, and_self, if_true, true_and, hbm, getLsbD_set, Bool.or_eq_true,
      decide_eq_true_eq, mem_freeBlocks, hbits, ho, hk]
    tauto
  · simp only [hsame, if_false, false_and, false_or, mem_freeBlocks]

theorem unmarkBlk_spec (ok : MarksOk r s) (hmem : (⟨o, k⟩ : Block) ∈ freeBlocks r s) :
    ∃ s', unmarkBlk s o k = .ok s' ∧ MarksOk r s' ∧
      freeBlocks r s' = freeBlocks r s \ {⟨o, k⟩} := by
  obtain ⟨ho, hk, hbit⟩ := hmem
  change k / 32 < r.markCount o at hk
  change bit s o k = true at hbit
  obtain ⟨bm, hbm⟩ : ∃ bm, bm = (s.getMark o (k / 32)).bitmap &&& ~~~blkBit k := ⟨_, rfl⟩
  obtain ⟨xs, hxs⟩ := ok.lists o ho
  have hold : (s.getMark o (k / 32)).bitmap ≠ 0#32 := fun h0 => by
    simp [bit, h0] at hbit
  have hin : k / 32 ∈ xs := (hxs.mem_iff _).mpr ⟨hk, hold⟩
  have hchain := chained_setBitmap ok.layout ho hk bm hxs.chained
  have hlay : Layout r (setBitmap s o (k / 32) bm) := ok.layout.setMark _ _ _
  have hlnks : ((setBitmap s o (k / 32) bm).getMark o (k / 32)).lnks =
      (s.getMark o (k / 32)).lnks := by
    simp [getMark_setBitmap ok.layout ho hk bm ho hk]
  have hrun : unmarkBlk s o k = .ok (if bm = 0#32 then
      unlinkMark (setBitmap s o (k / 32) bm) o (k / 32) (preLnk (s.getMark o (k / 32)).lnks)
        (nextLnk (s.getMark o (k / 32)).lnks) else setBitmap s o (k / 32) bm) := by
    simp only [unmarkBlk, shiftRight_eq_div_pow, reducePow, available_bit, hbit, hbm,
      setBitmap, Bool.not_true, Bool.false_eq_true, if_false]
    split <;> rfl
  obtain ⟨s', hs', hok, hmem⟩ : ∃ s', unmarkBlk s o k = .ok s' ∧ MarksOk r s' ∧
      ∀ b, b ∈ freeBlocks r s' ↔ IsOrder b.ord ∧ b.id / 32 < r.markCount b.ord ∧
        (if b.ord = o ∧ b.id / 32 = k / 32 then bm.getLsbD (b.id % 32)
          else bit s b.ord b.id) = true := by
    refine ⟨_, hrun, ?_⟩
    by_cases hz : bm = 0#32
    · rw [if_pos hz]
      obtain ⟨hrel, hch⟩ := unlinkMark_spec hlay ho hchain hin
        (congrArg preLnk hlnks) (congrArg nextLnk hlnks)
      refine update_spec ok ho hk hrel hch fun j hj => ?_
      by_cases hjk : j = k / 32
      · subst hjk
        simp [hz, hxs.nodup.mem_erase_iff]
      · rw [List.mem_erase_of_ne hjk, if_neg hjk, hxs.mem_iff]
        exact and_iff_right hj
    · rw [if_neg hz]
      refine update_spec ok ho hk (Relinks.refl hlay) hchain fun j hj => ?_
      by_cases hjk : j = k / 32
      · simp only [hjk, if_true]
        exact iff_of_true hin hz
      · simp only [hjk, if_false, hxs.mem_iff]
        exact and_iff_right hj
  refine ⟨s', hs', hok, Set.ext fun b => ?_⟩
  rw [hmem, Set.mem_sdiff, Set.mem_singleton_iff, block_eq_iff (o := o) (k := k)]
  by_cases hsame : b.ord = o ∧ b.id / 32 = k / 32
  · have hbits : bit s o b.id = (s.getMark o (k / 32)).bitmap.getLsbD (b.id % 32) := by
      rw [bit, hsame.2]
    have hlt : b.id % 32 < 32 := mod_lt _ (by decide)
    simp only [hsame, and_self, if_true, true_and, hbm, getLsbD_clear _ _ hlt, Bool.and_eq_true,
      Bool.not_eq_true', decide_eq_false_iff_not, mem_freeBlocks, hbits, ho, hk]
  · simp only [hsame, if_false, false_and, not_false_eq_true, and_true, mem_freeBlocks]

end FreeBlocks

end BuddyHeap
