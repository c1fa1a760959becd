import PinkyOS.SegmentList
import PinkyOS.UserHeapRing

/-!
# The heap is cut into free and live blocks

The memory granted by `sbrk` is a list of segments without gaps, and the free ones of them, after
the static header, form the ring. `free` turns a used segment into a free one and joins it with
its neighbours; `malloc` cuts a piece off the end of a free one.
-/
namespace UserHeap
open List
open MemoryLayout (uaddrSz)
open CircularList SegmentList

/-- The segments `segs` are the memory between the first break and the present one. A segment in
use is used for the number of bytes asked for. -/
structure Layout (im : Image) (s : State) (segs : List (Segment Nat)) : Prop where
  brk : s.brk = im.start + sizeofHeader * total segs
  low : s.brk < uaddrSz
  positive : ∀ g ∈ segs, 0 < g.size
  apart : Apart segs
  ring : Ring im s (SegmentList.free sizeofHeader im.start segs)
  sizes : ∀ x ∈ used sizeofHeader im.start segs, s.size x.1 = x.2.1
  room : ∀ x ∈ used sizeofHeader im.start segs, x.2.2 + sizeofHeader ≤ sizeofHeader * x.2.1

section
variable {im : Image} {s : State} {segs l r r' l' : List (Segment Nat)} {x : Nat × Nat}
  {bp n n' t : Nat}

theorem header_pos : 0 < sizeofHeader := by decide

theorem Layout.total_lt (layout : Layout im s segs) : total segs < 2 ^ 32 := by
  have brk := layout.brk
  have low := layout.low
  have top : uaddrSz ≤ 2 ^ 32 := by decide
  rw [show sizeofHeader = 16 from rfl] at brk
  omega

theorem size_le_total (listed : x ∈ pieces sizeofHeader im.start segs) : x.2 ≤ total segs := by
  obtain ⟨low, high⟩ := bounds listed
  rw [show sizeofHeader = 16 from rfl] at high
  omega

theorem Layout.sorted (layout : Layout im s segs) :
    (im.base :: (SegmentList.free sizeofHeader im.start segs).map Prod.fst).Pairwise (· < ·) := by
  refine .cons (fun y listed => ?_) (pairwise_map.mpr ?_)
  · obtain ⟨x, inside, rfl⟩ := mem_map.mp listed
    have low := (bounds_free inside).1
    have above := im.above
    have unit := header_pos
    omega
  · exact (pairwise_free header_pos layout.positive layout.apart).imp fun gap =>
      (Nat.le_add_right _ _).trans_lt gap

theorem Layout.length_lt (layout : Layout im s segs) :
    (SegmentList.free sizeofHeader im.start segs).length + 1 < s.steps im := by
  have count := @length_free_le Nat sizeofHeader im.start segs layout.positive
  rw [State.steps, layout.brk, Nat.add_sub_cancel_left, Nat.mul_div_cancel_left _ header_pos]
  omega

/-! ### `free` -/

theorem NodesRight.of_merge (merge : MergeRight n r n' r') (positive : ∀ g ∈ r, 0 < g.size) :
    NodesRight bp n (SegmentList.free sizeofHeader (bp + sizeofHeader * n) r) n'
      (SegmentList.free sizeofHeader (bp + sizeofHeader * n') r') := by
  cases merge with
  | join m l =>
    rw [SegmentList.free, next_addr]
    exact .join m _
  | apart l gap =>
    refine .apart _ fun y listed => ?_
    rcases r with _ | ⟨⟨m, _ | t⟩, r⟩
    · cases listed
    · exact absurd rfl (gap _ rfl)
    · have inside : y ∈ SegmentList.free sizeofHeader (bp + sizeofHeader * n + sizeofHeader * m) r :=
        mem_of_mem_head? listed
      have low := (bounds_free inside).1
      have size := Nat.mul_pos header_pos (positive ⟨m, some t⟩ (mem_cons_self ..))
      dsimp only at size
      rw [plus]
      omega

theorem NodesLeft.of_merge {a : Nat} {nodes : List (Nat × Nat)}
    (merge : MergeLeft n r l l') (positive : ∀ g ∈ l, 0 < g.size)
    (isNodes : nodes = SegmentList.free sizeofHeader (a + sizeofHeader * total l + sizeofHeader * n) r) :
    NodesLeft (a + sizeofHeader * total l) n nodes (SegmentList.free sizeofHeader a l)
      (SegmentList.free sizeofHeader a l') := by
  subst isNodes
  cases merge with
  | join l k =>
    rw [free_append, free_append, SegmentList.free, SegmentList.free, SegmentList.free,
      total_append, total, total, next_addr, next_addr, Nat.add_zero, Nat.add_assoc]
    exact .join _ _ k (next_addr ..)
  | apart l gap =>
    rw [free_append, SegmentList.free]
    refine .apart _ fun y listed => ?_
    rcases eq_nil_or_concat l with rfl | ⟨l, ⟨m, _ | t⟩, rfl⟩
    · cases listed
    · exact absurd rfl (gap ⟨m, none⟩ (by simp))
    · rw [concat_eq_append] at listed positive ⊢
      have inside : y ∈ SegmentList.free sizeofHeader a l := by
        have here := mem_of_mem_getLast? listed
        rwa [free_append, SegmentList.free, SegmentList.free, append_nil] at here
      have high := (bounds_free inside).2
      have size := Nat.mul_pos header_pos
        (positive ⟨m, some t⟩ (mem_append_right _ (mem_singleton_self _)))
      dsimp only at size
      rw [plus, total_append, total, total, ← next_addr, Nat.add_zero]
      dsimp only
      omega

/-- `free` of a used segment. -/
theorem Layout.release (layout : Layout im s (l ++ ⟨n, some t⟩ :: r)) :
    ∃ s' segs', release im s (im.start + sizeofHeader * total l) = .ok s' ∧ Layout im s' segs' ∧
      used sizeofHeader im.start segs' = used sizeofHeader im.start l ++
        used sizeofHeader (im.start + sizeofHeader * total l + sizeofHeader * n) r ∧
      s'.live = s.live ∧ s'.brk = s.brk ∧
      (SegmentList.free sizeofHeader im.start segs').length ≤
        (SegmentList.free sizeofHeader im.start (l ++ ⟨n, some t⟩ :: r)).length + 1 ∧
      ∃ x ∈ SegmentList.free sizeofHeader im.start segs', n ≤ x.2 := by
  obtain ⟨n', r', mergeRight⟩ := exists_mergeRight n r
  obtain ⟨l', mergeLeft⟩ := exists_mergeLeft n' l r'
  generalize isBp : im.start + sizeofHeader * total l = bp
  have positiveL : ∀ g ∈ l, 0 < g.size := fun g inside =>
    layout.positive g (mem_append_left _ inside)
  have positiveR : ∀ g ∈ r, 0 < g.size := fun g inside =>
    layout.positive g (mem_append_right _ (mem_cons_of_mem _ inside))
  have positive : 0 < n := layout.positive ⟨n, some t⟩ (mem_append_right _ (mem_cons_self ..))
  have ring := layout.ring
  have sorted := layout.sorted
  have enough := layout.length_lt
  have sizes := layout.sizes
  rw [used_append, used, isBp] at sizes
  rw [free_append, SegmentList.free, isBp] at ring sorted enough
  rw [length_append] at enough
  have size : s.size bp = n := sizes (bp, n, t) (by simp)
  have belowFree : ∀ y ∈ SegmentList.free sizeofHeader im.start l, y.1 < bp := by
    intro y listed
    rw [← isBp]
    exact lt_end header_pos positiveL ((free_sublist ..).subset listed)
  have aboveFree : ∀ y ∈ SegmentList.free sizeofHeader (bp + sizeofHeader * n) r, bp < y.1 := by
    intro y listed
    have low := (bounds_free listed).1
    have some := Nat.mul_pos header_pos positive
    omega
  have low : im.base < bp := by
    have above := im.above
    have some := header_pos
    omega
  have right : NodesRight bp (s.size bp) (SegmentList.free sizeofHeader (bp + sizeofHeader * n) r)
      n' (SegmentList.free sizeofHeader (bp + sizeofHeader * n') r') := by
    rw [size]
    exact .of_merge mergeRight positiveR
  have left := NodesLeft.of_merge (a := im.start) mergeLeft positiveL rfl
  rw [isBp] at left
  have totals : total l' = total (l ++ ⟨n, some t⟩ :: r) := by
    have rights := mergeRight.size.1
    rw [mergeLeft.total_eq, total_append, total]
    dsimp only
    omega
  have small : ∀ x ∈ SegmentList.free sizeofHeader im.start l', x.2 < 2 ^ 32 := fun x listed =>
    (size_le_total ((free_sublist ..).subset listed)).trans_lt (totals ▸ layout.total_lt)
  obtain ⟨s', ran, released⟩ := ring.release sorted low belowFree aboveFree enough right left small
  have usedEq := mergeLeft.used_eq (u := sizeofHeader) (a := im.start)
  rw [isBp, ← mergeRight.used_eq] at usedEq
  have kept : ∀ x ∈ used sizeofHeader im.start l', s'.size x.1 = s.size x.1 := by
    intro x listed
    rw [usedEq] at listed
    refine released.sizes x.1 ?_ ?_
    · rcases mem_append.mp listed with before | after
      · rw [← isBp]
        exact (lt_end header_pos positiveL
          ((used_sublist ..).subset (mem_map_of_mem before))).ne
      · have beyond := (bounds_used after).1
        have some := Nat.mul_pos header_pos positive
        omega
    · intro inside
      obtain ⟨y, isFree, same⟩ := mem_map.mp inside
      rcases mem_append.mp listed with before | after
      · exact free_ne_used header_pos positiveL isFree before same
      · have beyond := (bounds_used after).1
        have under := belowFree y isFree
        omega
  have subset : ∀ x ∈ used sizeofHeader im.start l',
      x ∈ used sizeofHeader im.start (l ++ ⟨n, some t⟩ :: r) := by
    intro x listed
    rw [usedEq] at listed
    rw [used_append, used, isBp]
    exact mem_append.mpr ((mem_append.mp listed).imp id (mem_cons_of_mem _))
  have apartR : Apart r := (isChain_append.mp layout.apart).2.1.tail
  obtain ⟨apartR', first⟩ := mergeRight.isApart apartR
  refine ⟨s', l', ran, ?_, usedEq, released.live, released.brk, ?_, ?_⟩
  · constructor
    case brk => rw [released.brk, layout.brk, totals]
    case low => exact released.brk ▸ layout.low
    case positive =>
      exact mergeLeft.positive (positive.trans_le mergeRight.size.2) positiveL fun g inside =>
        positiveR g (mergeRight.subset inside)
    case apart => exact mergeLeft.isApart (isChain_append.mp layout.apart).1 apartR' first
    case ring => exact released.ring
    case sizes => exact fun x listed => (kept x listed).trans (layout.sizes x (subset x listed))
    case room => exact fun x listed => layout.room x (subset x listed)
  · have longer := left.length_le
    have shorter := right.length_le
    rw [free_append, SegmentList.free, isBp, length_append]
    omega
  · obtain ⟨x, listed, large⟩ := mergeLeft.large (u := sizeofHeader) (a := im.start)
    exact ⟨x, listed, mergeRight.size.2.trans large⟩

/-! ### `morecore` -/

/-- The segments start above the static header and end below the break. -/
theorem Layout.within (layout : Layout im s segs) {y : Nat}
    (listed : y ∈ (pieces sizeofHeader im.start segs).map Prod.fst) : im.base < y ∧ y < s.brk := by
  obtain ⟨x, inside, rfl⟩ := mem_map.mp listed
  have low := (bounds inside).1
  have high := lt_end header_pos layout.positive inside
  have above := im.above
  have some := header_pos
  have brk := layout.brk
  omega

/-- The memory that `sbrk` grants, seen as one more used segment. -/
theorem Layout.grow (layout : Layout im s segs) {nu : Nat} (positive : 0 < nu)
    (granted : s.brk + nu * sizeofHeader < uaddrSz) :
    Layout im ({ s with brk := s.brk + nu * sizeofHeader }.setSize s.brk nu)
      (segs ++ [⟨nu, some 0⟩]) := by
  have unit : sizeofHeader = 16 := rfl
  have small : nu < 2 ^ 32 := by
    have top : uaddrSz ≤ 2 ^ 32 := by decide
    rw [unit] at granted
    omega
  have usedEq : used sizeofHeader im.start (segs ++ [⟨nu, some 0⟩]) =
      used sizeofHeader im.start segs ++ [(s.brk, nu, 0)] := by
    rw [used_append, used, used, ← layout.brk]
  have freeEq : SegmentList.free sizeofHeader im.start (segs ++ [⟨nu, some 0⟩]) =
      SegmentList.free sizeofHeader im.start segs := by
    rw [free_append, SegmentList.free, SegmentList.free, append_nil]
  constructor
  case brk =>
    have brk := layout.brk
    rw [total_append, total, total, ← next_addr, ← brk, Nat.add_zero]
    exact congrArg (s.brk + ·) (Nat.mul_comm ..)
  case low => exact granted
  case positive =>
    intro g listed
    rcases mem_append.mp listed with old | new
    · exact layout.positive g old
    · obtain rfl := mem_singleton.mp new
      exact positive
  case apart =>
    refine isChain_append.mpr ⟨layout.apart, isChain_singleton _, ?_⟩
    rintro _ _ g ⟨⟩
    exact .inr (by simp)
  case ring =>
    rw [freeEq]
    refine layout.ring.congr (fun x listed => ?_) rfl
    refine Function.update_of_ne ?_ _ _
    rcases mem_cons.mp listed with rfl | inside
    · have low := im.above
      have brk := layout.brk
      omega
    · exact (layout.within (((free_sublist ..).map _).subset inside)).2.ne
  case sizes =>
    intro x listed
    rw [usedEq] at listed
    rw [size_setSize]
    rcases mem_append.mp listed with old | new
    · have inside := (used_sublist ..).subset (mem_map_of_mem old)
      rw [Function.update_of_ne (layout.within (mem_map_of_mem inside)).2.ne]
      exact layout.sizes x old
    · obtain rfl := mem_singleton.mp new
      rw [Function.update_self, Nat.mod_eq_of_lt small]
  case room =>
    intro x listed
    rw [usedEq] at listed
    rcases mem_append.mp listed with old | new
    · exact layout.room x old
    · obtain rfl := mem_singleton.mp new
      rw [unit]
      dsimp only
      omega

theorem toInt_eq (x : Nat) : toInt x = if 2 * (x % 2 ^ 32) < 2 ^ 32 then ((x % 2 ^ 32 : Nat) : Int)
    else ((x % 2 ^ 32 : Nat) : Int) - 2 ^ 32 := by
  rfl

theorem toInt_of_lt {x : Nat} (small : x < 2 ^ 31) : toInt x = x := by
  rw [toInt_eq, Nat.mod_eq_of_lt (by omega), if_pos (by omega)]

/-- `sbrk` of a positive number of bytes. -/
theorem sbrk_pos (grant : Nat → Bool) (s : State) {n : Nat} (positive : 0 < n) :
    sbrk grant s n = if grant s.brk ∧ s.brk + n < uaddrSz then
      some ({ s with brk := s.brk + n }, s.brk) else none := by
  rw [sbrk, if_pos (Int.natCast_pos.mpr positive), Int.toNat_natCast]

/-- `morecore` fails, or adds a free block that is large enough. -/
theorem Layout.morecore (layout : Layout im s segs) (grant : Nat → Bool)
    (fit : n * sizeofHeader < 2 ^ 31) : morecore im grant s n = .ok none ∨
    ∃ s' segs', morecore im grant s n = .ok (some s') ∧ Layout im s' segs' ∧
      used sizeofHeader im.start segs' = used sizeofHeader im.start segs ∧ s'.live = s.live ∧
      (SegmentList.free sizeofHeader im.start segs').length ≤
        (SegmentList.free sizeofHeader im.start segs).length + 1 ∧
      ∃ x ∈ SegmentList.free sizeofHeader im.start segs', n ≤ x.2 := by
  obtain ⟨nu, isNu⟩ : ∃ nu, (if n < 4096 then 4096 else n) = nu := ⟨_, rfl⟩
  have unit : sizeofHeader = 16 := rfl
  have enough : 0 < nu ∧ n ≤ nu := by
    split at isNu <;> omega
  have asked : nu * sizeofHeader < 2 ^ 31 := by
    rw [unit] at fit ⊢
    split at isNu <;> omega
  have positive : 0 < nu * sizeofHeader := Nat.mul_pos enough.1 header_pos
  have request : sbrk grant s (toInt (nu * sizeofHeader)) =
      if grant s.brk ∧ s.brk + nu * sizeofHeader < uaddrSz then
        some ({ s with brk := s.brk + nu * sizeofHeader }, s.brk) else none := by
    rw [toInt_of_lt asked, sbrk_pos grant s positive]
  by_cases granted : grant s.brk ∧ s.brk + nu * sizeofHeader < uaddrSz
  · right
    have grown := layout.grow enough.1 granted.2
    obtain ⟨s', segs', ran, layout', usedEq, live, -, longer, x, listed, large⟩ := grown.release
    refine ⟨s', segs', ?_, layout', ?_, live, ?_, x, listed, enough.2.trans large⟩
    · rw [← layout.brk] at ran
      have inside : s.brk + sizeofHeader ≤ s.brk + nu * sizeofHeader :=
        Nat.add_le_add_left (Nat.le_mul_of_pos_left _ enough.1) _
      rw [UserHeap.morecore, isNu, request, if_pos granted]
      dsimp only
      rw [addCore, if_pos inside, ran]
      rfl
    · rw [usedEq, used, append_nil]
    · rwa [free_append, SegmentList.free, SegmentList.free, append_nil] at longer
  · left
    rw [UserHeap.morecore, isNu, request, if_neg granted]

end

end UserHeap
