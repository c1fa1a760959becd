import PinkyOS.UserHeapBlocks

/-!
# `malloc` and the invariant of the heap

The loop of `malloc` goes once round the ring, and a second time after `morecore` has added a block
that is large enough. Every run of a program keeps the layout of the heap, and the live pointers
are the used segments of it.
-/
namespace UserHeap
open Function List
open MemoryLayout (uaddrSz)
open CircularList SegmentList

section
variable {im : Image} {s : State} {segs l r : List (Segment Nat)} {n p q req : Nat}

/-! ### The block that `malloc` takes -/

section
variable (layout : Layout im s (l ++ ⟨n, none⟩ :: r))
include layout

section
variable (isP : p = im.start + sizeofHeader * total l)
include isP

/-- The element before a free block in the ring. -/
theorem Layout.before (listed : q ∈ im.base ::
      (SegmentList.free sizeofHeader im.start (l ++ ⟨n, none⟩ :: r)).map Prod.fst)
    (next : s.ptr q = p) : q = lastBefore im (SegmentList.free sizeofHeader im.start l) := by
  have links := layout.ring.links
  have sorted := layout.sorted
  rw [free_append, SegmentList.free, ← isP, map_append, map_cons] at links sorted listed
  rw [← cons_append] at sorted
  obtain ⟨-, after, order⟩ := pairwise_append.mp sorted
  have last := links.rotate.eq_last (q := q) ?_ ?_ next
  · rw [last, lastBefore]
    simp
  · intro again
    rcases mem_append.mp again with above | below
    · exact Nat.lt_irrefl _ ((pairwise_cons.mp after).1 _ above)
    · exact Nat.lt_irrefl _ (order _ below _ (mem_cons_self ..))
  · simp only [mem_cons, mem_append] at listed ⊢
    tauto

/-- A block that fits exactly is taken into use. -/
theorem Layout.take (isQ : q = lastBefore im (SegmentList.free sizeofHeader im.start l))
    (room : req + sizeofHeader ≤ sizeofHeader * n) :
    Layout im { s.setPtr q (s.ptr p) with freep := q } (l ++ ⟨n, some req⟩ :: r) := by
  have sorted := layout.sorted
  have ring := layout.ring
  rw [free_append, SegmentList.free, ← isP] at sorted ring
  have listedOf : ∀ x ∈ used sizeofHeader im.start (l ++ ⟨n, some req⟩ :: r), x = (p, n, req) ∨
      x ∈ used sizeofHeader im.start (l ++ ⟨n, none⟩ :: r) := by
    intro x listed
    rw [used_append, used, ← isP] at listed
    rw [used_append, used, ← isP]
    simp only [mem_append, mem_cons] at listed ⊢
    tauto
  constructor
  case brk =>
    have brk := layout.brk
    rwa [total_append, total] at brk ⊢
  case low => exact layout.low
  case positive =>
    intro g listed
    rcases mem_append.mp listed with left | right
    · exact layout.positive g (mem_append_left _ left)
    · rcases mem_cons.mp right with rfl | later
      · exact layout.positive ⟨n, none⟩ (mem_append_right _ (mem_cons_self ..))
      · exact layout.positive g (mem_append_right _ (mem_cons_of_mem _ later))
  case apart => exact layout.apart.use
  case ring =>
    rw [free_append, SegmentList.free, ← isP, isQ]
    exact ring.take sorted
  case sizes =>
    intro x listed
    have same : (s.setPtr q (s.ptr p)).size x.1 = s.size x.1 := congrFun (size_setPtr ..) _
    refine same.trans ?_
    rcases listedOf x listed with rfl | old
    · exact ring.sizes (p, n) (mem_append_right _ (mem_cons_self ..))
    · exact layout.sizes x old
  case room =>
    intro x listed
    rcases listedOf x listed with rfl | old
    · exact room
    · exact layout.room x old

/-- The end of a larger block is taken into use. -/
theorem Layout.cut {m : Nat} (isQ : q = lastBefore im (SegmentList.free sizeofHeader im.start l))
    (positive : 0 < m) (less : m < n) (room : req + sizeofHeader ≤ sizeofHeader * m) :
    Layout im { (s.setSize p (n - m)).setSize (plus p (n - m)) m with freep := q }
      (l ++ ⟨n - m, none⟩ :: ⟨m, some req⟩ :: r) := by
  have sorted := layout.sorted
  have ring := layout.ring
  have unit : sizeofHeader = 16 := rfl
  have bound := layout.total_lt
  rw [total_append, total] at bound
  dsimp only at bound
  have positiveL : ∀ g ∈ l, 0 < g.size := fun g inside =>
    layout.positive g (mem_append_left _ inside)
  generalize isC : plus p (n - m) = c
  rw [plus] at isC
  have cut : p < c ∧ c + sizeofHeader * m = p + sizeofHeader * n := by
    rw [unit] at isC ⊢
    omega
  have usedEq : used sizeofHeader im.start (l ++ ⟨n - m, none⟩ :: ⟨m, some req⟩ :: r) =
      used sizeofHeader im.start l ++ (c, m, req) :: used sizeofHeader (p + sizeofHeader * n) r := by
    rw [used_append, used, used, ← isP, isC, cut.2]
  rw [free_append, SegmentList.free, ← isP] at sorted ring
  have fresh : c ∉ im.base :: (SegmentList.free sizeofHeader im.start l ++
      (p, n) :: SegmentList.free sizeofHeader (p + sizeofHeader * n) r).map Prod.fst := by
    intro listed
    rw [map_append, map_cons, ← cons_append] at sorted listed
    obtain ⟨-, -, order⟩ := pairwise_append.mp sorted
    rcases mem_append.mp listed with left | right
    · have below := order c left p (mem_cons_self ..)
      omega
    · rcases mem_cons.mp right with isP' | later
      · exact cut.1.ne' isP'
      · obtain ⟨x, inside, rfl⟩ := mem_map.mp later
        have beyond := (bounds_free inside).1
        rw [unit] at cut beyond
        omega
  have otherUsed : ∀ x ∈ used sizeofHeader im.start l ++
      used sizeofHeader (p + sizeofHeader * n) r, x.1 ≠ p ∧ x.1 ≠ c := by
    intro x listed
    rcases mem_append.mp listed with left | right
    · have below := lt_end header_pos positiveL
        ((used_sublist ..).subset (mem_map_of_mem left))
      rw [← isP] at below
      exact ⟨below.ne, (below.trans cut.1).ne⟩
    · have beyond := (bounds_used right).1
      rw [unit] at cut beyond
      omega
  have old : used sizeofHeader im.start (l ++ ⟨n, none⟩ :: r) = used sizeofHeader im.start l ++
      used sizeofHeader (p + sizeofHeader * n) r := by
    rw [used_append, used, ← isP]
  have listedOf : ∀ x ∈ used sizeofHeader im.start (l ++ ⟨n - m, none⟩ :: ⟨m, some req⟩ :: r),
      x = (c, m, req) ∨ x ∈ used sizeofHeader im.start (l ++ ⟨n, none⟩ :: r) := by
    intro x listed
    rw [usedEq] at listed
    rw [old]
    simp only [mem_append, mem_cons] at listed ⊢
    tauto
  have size : ((s.setSize p (n - m)).setSize c m).size =
      update (update s.size p (n - m)) c m := by
    rw [size_setSize, size_setSize, Nat.mod_eq_of_lt, Nat.mod_eq_of_lt]
    · omega
    · omega
  constructor
  case brk =>
    have brk := layout.brk
    simp only [total_append, total] at brk ⊢
    rwa [← Nat.add_assoc (n - m), Nat.sub_add_cancel less.le]
  case low => exact layout.low
  case positive =>
    intro g listed
    rcases mem_append.mp listed with left | right
    · exact positiveL g left
    · rcases mem_cons.mp right with rfl | later
      · exact Nat.sub_pos_of_lt less
      · rcases mem_cons.mp later with rfl | last
        · exact positive
        · exact layout.positive g (mem_append_right _ (mem_cons_of_mem _ last))
  case apart => exact layout.apart.cut
  case ring =>
    rw [free_append, SegmentList.free, SegmentList.free, ← isP, isQ, isC, cut.2]
    exact ring.cut sorted fresh (by omega)
  case sizes =>
    intro x listed
    refine (congrFun size x.1).trans ?_
    rcases listedOf x listed with rfl | before
    · exact update_self ..
    · obtain ⟨notP, notC⟩ := otherUsed x (old ▸ before)
      rw [update_of_ne notC, update_of_ne notP, layout.sizes x before]
  case room =>
    intro x listed
    rcases listedOf x listed with rfl | before
    · exact room
    · exact layout.room x before

end

end

/-- A used segment for `req` bytes is added to those in use; `malloc` returns its payload. -/
structure Taken (im : Image) (s : State) (segs : List (Segment Nat)) (n req : Nat)
    (result : State × Nat) : Prop where
  live : result.1.live = s.live
  taken : ∃ segs' before after a, Layout im result.1 segs' ∧
    used sizeofHeader im.start segs = before ++ after ∧
    used sizeofHeader im.start segs' = before ++ (a, n, req) :: after ∧ result.2 = plus a 1

/-- What `malloc` does when it has found a block. -/
theorem Layout.carve (layout : Layout im s segs)
    (listedP : p ∈ im.base :: (SegmentList.free sizeofHeader im.start segs).map Prod.fst)
    (listedQ : q ∈ im.base :: (SegmentList.free sizeofHeader im.start segs).map Prod.fst)
    (next : s.ptr q = p) (positive : 0 < n) (large : n ≤ s.size p)
    (room : req + sizeofHeader ≤ sizeofHeader * n) : Taken im s segs n req (carve s n q p) := by
  rcases mem_cons.mp listedP with isBase | inside
  · rw [isBase, layout.ring.base] at large
    omega
  obtain ⟨⟨p', m⟩, isFree, same⟩ := mem_map.mp inside
  obtain rfl : p' = p := same
  obtain ⟨l, r, rfl, isP⟩ := split_of_mem_free isFree
  have size : s.size p' = m := layout.ring.sizes _ isFree
  have isQ := layout.before isP listedQ next
  rw [size] at large
  dsimp only at isP layout isQ
  by_cases exactly : m = n
  · subst exactly
    rw [UserHeap.carve, if_pos size]
    refine ⟨rfl, _, used sizeofHeader im.start l, used sizeofHeader (p' + sizeofHeader * m) r, p',
      layout.take isP isQ room, ?_, ?_, rfl⟩
    · rw [used_append, used, ← isP]
    · rw [used_append, used, ← isP]
  · have less : n < m := Nat.lt_of_le_of_ne large fun same => exactly same.symm
    have bound := layout.total_lt
    rw [total_append, total] at bound
    dsimp only at bound
    have left : (s.setSize p' (m - n)).size p' = m - n := by
      rw [size_setSize, update_self, Nat.mod_eq_of_lt (by omega)]
    have cut := layout.cut isP isQ positive less room
    rw [UserHeap.carve, size, if_neg exactly]
    dsimp only
    rw [left]
    refine ⟨rfl, _, used sizeofHeader im.start l, used sizeofHeader (p' + sizeofHeader * m) r,
      plus p' (m - n), cut, ?_, ?_, rfl⟩
    · rw [used_append, used, ← isP]
    · rw [used_append, used, used, ← isP, next_addr, Nat.sub_add_cancel less.le, plus]

/-! ### The loop of `malloc` -/

/-- One round of the loop finds a block, or comes back to `freep` and asks for more memory. -/
theorem search_round (im : Image) (grant : Nat → Bool) (n m : Nat) {xs : List Nat} {prevp : Nat}
    (links : Links s.ptr prevp xs s.freep) (away : s.freep ∉ xs) :
    (∃ q p, q ∈ prevp :: xs ∧ p ∈ xs ++ [s.freep] ∧ s.ptr q = p ∧ n ≤ s.size p ∧
      search im grant n (xs.length + 1 + m) s prevp (s.ptr prevp) = .ok (carve s n q p)) ∨
    (∀ p ∈ xs ++ [s.freep], s.size p < n) ∧
      search im grant n (xs.length + 1 + m) s prevp (s.ptr prevp) =
        (do match ← morecore im grant s n with
          | none => return (s, 0)
          | some s => search im grant n m s s.freep (s.ptr s.freep)) := by
  induction xs generalizing prevp with
  | nil =>
    have here : s.ptr prevp = s.freep := links
    rw [length_nil, Nat.zero_add, Nat.add_comm, search, here]
    by_cases large : s.size s.freep ≥ n
    · rw [if_pos large]
      exact .inl ⟨prevp, s.freep, mem_cons_self .., mem_singleton_self _, here, large, rfl⟩
    · rw [if_neg large, if_pos rfl]
      refine .inr ⟨fun p listed => ?_, rfl⟩
      rw [mem_singleton.mp listed]
      exact Nat.lt_of_not_le large
  | cons x xs ih =>
    obtain ⟨here, rest⟩ := links
    rw [mem_cons, not_or] at away
    have count : (x :: xs).length + 1 + m = xs.length + 1 + m + 1 := by
      rw [length_cons]
      omega
    rw [count, search, here]
    by_cases large : s.size x ≥ n
    · rw [if_pos large]
      exact .inl ⟨prevp, x, mem_cons_self .., mem_cons_self .., here, large, rfl⟩
    · rw [if_neg large, if_neg (Ne.symm away.1)]
      rcases ih rest away.2 with ⟨q, p, listedQ, listedP, next, fits, found⟩ | ⟨small, asks⟩
      · exact .inl ⟨q, p, mem_cons_of_mem _ listedQ, mem_cons_of_mem _ listedP, next,
          fits, found⟩
      · refine .inr ⟨fun p listed => ?_, asks⟩
        rcases mem_cons.mp listed with rfl | later
        · exact Nat.lt_of_not_le large
        · exact small p later

/-- One round from `freep`. -/
theorem Ring.round {nodes : List (Nat × Nat)} (ring : Ring im s nodes)
    (sorted : (im.base :: nodes.map Prod.fst).Pairwise (· < ·)) (grant : Nat → Bool) (n m : Nat) :
    (∃ q ∈ im.base :: nodes.map Prod.fst, ∃ p ∈ im.base :: nodes.map Prod.fst,
      s.ptr q = p ∧ n ≤ s.size p ∧
      search im grant n (nodes.length + 1 + m) s s.freep (s.ptr s.freep) =
        .ok (UserHeap.carve s n q p)) ∨
    (∀ x ∈ nodes, x.2 < n) ∧
      search im grant n (nodes.length + 1 + m) s s.freep (s.ptr s.freep) =
        (do match ← UserHeap.morecore im grant s n with
          | none => return (s, 0)
          | some s => search im grant n m s s.freep (s.ptr s.freep)) := by
  obtain ⟨xs, links, perm⟩ := ring.links.ring_from ring.freep
  have distinct : (s.freep :: xs).Nodup := perm.nodup_iff.mpr (sorted.imp fun less => less.ne)
  have length : xs.length = nodes.length := by
    have count := perm.length_eq
    rw [length_cons, length_cons, length_map] at count
    exact Nat.succ.inj count
  have listed : ∀ y, y ∈ xs ++ [s.freep] → y ∈ im.base :: nodes.map Prod.fst := by
    intro y inside
    refine perm.subset ?_
    simp only [mem_append, mem_cons] at inside ⊢
    tauto
  rw [← length]
  rcases search_round im grant n m links (nodup_cons.mp distinct).1 with
    ⟨q, p, isQ, isP, next, large, found⟩ | ⟨small, asks⟩
  · exact .inl ⟨q, perm.subset isQ, p, listed p isP, next, large, found⟩
  · refine .inr ⟨fun x isFree => ?_, asks⟩
    have inRing : x.1 ∈ s.freep :: xs :=
      perm.symm.subset (mem_cons_of_mem _ (mem_map_of_mem isFree))
    rw [← ring.sizes x isFree]
    refine small x.1 ?_
    simp only [mem_append, mem_cons] at inRing ⊢
    tauto

section
variable (layout : Layout im s segs) (positive : 0 < n)
    (room : req + sizeofHeader ≤ sizeofHeader * n)
include layout positive room

/-- One round from `freep`, where the ring is that of a layout. -/
theorem Layout.round (grant : Nat → Bool) (m : Nat) :
    (∃ result, search im grant n ((SegmentList.free sizeofHeader im.start segs).length + 1 + m) s
      s.freep (s.ptr s.freep) = .ok result ∧ Taken im s segs n req result) ∨
    (∀ x ∈ SegmentList.free sizeofHeader im.start segs, x.2 < n) ∧
      search im grant n ((SegmentList.free sizeofHeader im.start segs).length + 1 + m) s
        s.freep (s.ptr s.freep) =
        (do match ← UserHeap.morecore im grant s n with
          | none => return (s, 0)
          | some s => search im grant n m s s.freep (s.ptr s.freep)) := by
  rcases layout.ring.round layout.sorted grant n m with
    ⟨q, isQ, p, isP, next, large, found⟩ | asks
  · exact .inl ⟨_, found, layout.carve isP isQ next positive large room⟩
  · exact .inr asks

/-- The loop of `malloc` ends: it fails in `morecore`, or takes a block. -/
theorem Layout.search (fit : n * sizeofHeader < 2 ^ 31)
    (grant : Nat → Bool) {m : Nat} (enough : 2 * s.steps im ≤ m) :
    search im grant n m s s.freep (s.ptr s.freep) = .ok (s, 0) ∨
    ∃ result, search im grant n m s s.freep (s.ptr s.freep) = .ok result ∧
      Taken im s segs n req result := by
  have count := layout.length_lt
  obtain ⟨k, rfl⟩ : ∃ k, m = (SegmentList.free sizeofHeader im.start segs).length + 1 + k :=
    ⟨m - ((SegmentList.free sizeofHeader im.start segs).length + 1), by omega⟩
  rcases layout.round positive room grant k with found | ⟨-, asks⟩
  · exact .inr found
  rw [asks]
  rcases layout.morecore grant fit with
    fails | ⟨s', segs', grown, layout', usedEq, live, longer, x, isFree, large⟩
  · rw [fails]
    exact .inl rfl
  right
  obtain ⟨k', rfl⟩ : ∃ k', k = (SegmentList.free sizeofHeader im.start segs').length + 1 + k' :=
    ⟨k - ((SegmentList.free sizeofHeader im.start segs').length + 1), by omega⟩
  rw [grown]
  rcases layout'.round positive room grant k' with
    ⟨result, found, taken⟩ | ⟨small, -⟩
  · refine ⟨result, found, taken.live.trans live, ?_⟩
    rw [← usedEq]
    exact taken.taken
  · exact absurd (small x isFree) (Nat.not_lt.mpr large)

end

/-! ### Runs -/

/-- The live pointers are the payloads of the used segments. -/
def Live (im : Image) (s : State) (segs : List (Segment Nat)) : Prop :=
  ∀ y, y ∈ s.live ↔ ∃ x ∈ used sizeofHeader im.start segs, y = (plus x.1 1, x.2.2)

theorem header_of_payload (a : Nat) : plus a 1 - sizeofHeader = a := Nat.add_sub_cancel ..

theorem Layout.freep_ne (layout : Layout im s segs) : s.freep ≠ 0 := by
  have base := im.nonnull
  rcases mem_cons.mp layout.ring.freep with isBase | inside
  · omega
  · have low := (layout.within (((free_sublist ..).map _).subset inside)).1
    omega

/-- The heap is laid out in the same way if no header changes. -/
theorem Layout.congr {s' : State} (layout : Layout im s segs)
    (same : ∀ x ∈ im.base :: (pieces sizeofHeader im.start segs).map Prod.fst, s'.hdr x = s.hdr x)
    (freep : s'.freep = s.freep) (brk : s'.brk = s.brk) : Layout im s' segs where
  brk := brk.trans layout.brk
  low := brk ▸ layout.low
  positive := layout.positive
  apart := layout.apart
  ring := layout.ring.congr (fun x listed => same x
    ((((free_sublist ..).map _).cons_cons _).subset listed)) freep
  sizes x listed := by
    have inside := (used_sublist ..).subset (mem_map_of_mem listed)
    have header := same x.1 (mem_cons_of_mem _ (mem_map_of_mem inside))
    exact (congrArg Header.size header).trans (layout.sizes x listed)
  room := layout.room

theorem units_eq {nbytes : Nat} (bound : nbytes < 2 ^ 32) :
    0 < units nbytes ∧ nbytes + sizeofHeader ≤ sizeofHeader * units nbytes := by
  have unit : sizeofHeader = 16 := rfl
  have small : (nbytes + sizeofHeader - 1) / sizeofHeader + 1 < 2 ^ 32 := by
    rw [unit]
    omega
  rw [units, Nat.mod_eq_of_lt small, unit]
  omega

section
variable (layout : Layout im s segs) (live : Live im s segs)
include layout live

/-- `malloc` returns, and a block it hands out is live afterwards. -/
theorem Layout.malloc {nbytes : Nat} (fit : fits nbytes) (grant : Nat → Bool) :
    ∃ s' p segs', malloc im grant s nbytes = .ok (s', p) ∧ Layout im s' segs' ∧
      Live im s' segs' := by
  obtain ⟨bound, small⟩ := of_decide_eq_true fit
  obtain ⟨positive, room⟩ := units_eq bound
  rw [UserHeap.malloc, if_neg layout.freep_ne]
  dsimp only
  rcases layout.search positive room small grant (Nat.le_add_right _ 2) with
    fails | ⟨⟨s', p⟩, found, same, segs', before, after, a, layout', split, split', isP⟩
  · rw [fails]
    exact ⟨s, 0, segs, rfl, layout, live⟩
  · have nonnull : p ≠ 0 := by
      dsimp only at isP
      rw [isP, plus]
      have unit := header_pos
      omega
    rw [found]
    refine ⟨{ s' with live := insert (p, nbytes) s'.live }, p, segs', ?_,
      layout'.congr (fun _ _ => rfl) rfl rfl, fun y => ?_⟩
    · rw [ok_bind]
      dsimp only
      rw [if_neg nonnull]
      rfl
    · dsimp only at same isP
      rw [Finset.mem_insert, same, live y, split, split', isP]
      simp only [mem_append, mem_cons]
      constructor
      · rintro (rfl | ⟨x, listed, rfl⟩)
        · exact ⟨_, .inr (.inl rfl), rfl⟩
        · exact ⟨x, listed.imp id .inr, rfl⟩
      · rintro ⟨x, inBefore | rfl | inAfter, rfl⟩
        · exact .inr ⟨x, .inl inBefore, rfl⟩
        · exact .inl rfl
        · exact .inr ⟨x, .inr inAfter, rfl⟩

/-- `free` of a live pointer returns, and the pointer is no longer live. -/
theorem Layout.free {ap bytes : Nat} (isLive : (ap, bytes) ∈ s.live) :
    ∃ s' segs', free im s ap = .ok s' ∧ Layout im s' segs' ∧ Live im s' segs' := by
  obtain ⟨⟨a, m, t⟩, isUsed, isAp⟩ := (live _).mp isLive
  obtain ⟨l, r, rfl, isA⟩ := split_of_mem_used isUsed
  dsimp only at isA layout isAp
  obtain ⟨pointer, rfl⟩ := Prod.mk.inj isAp
  obtain ⟨s', segs', ran, layout', usedEq, sameLive, -⟩ := layout.release
  rw [← isA] at ran usedEq
  have header : ap - sizeofHeader = a := by
    rw [pointer, header_of_payload]
  refine ⟨{ s' with live := s'.live.filter fun x => x.1 ≠ ap }, segs', ?_,
    layout'.congr (fun _ _ => rfl) rfl rfl, fun y => ?_⟩
  · rw [UserHeap.free, header, ran]
    rfl
  · have split : used sizeofHeader im.start (l ++ ⟨m, some bytes⟩ :: r) =
        used sizeofHeader im.start l ++ (a, m, bytes) ::
          used sizeofHeader (a + sizeofHeader * m) r := by
      rw [used_append, used, ← isA]
    have sorted := pairwise_used sizeofHeader im.start (l ++ ⟨m, some bytes⟩ :: r)
    have room := layout.room
    rw [split] at sorted room
    obtain ⟨-, after, order⟩ := pairwise_append.mp sorted
    have unit := header_pos
    have others : ∀ x ∈ used sizeofHeader im.start l ++ used sizeofHeader (a + sizeofHeader * m) r,
        x.1 ≠ a := by
      intro x listed
      rcases mem_append.mp listed with inL | inR
      · have below := order x inL _ (mem_cons_self ..)
        have some := room x (mem_append_left _ inL)
        dsimp only at below
        omega
      · have above := (pairwise_cons.mp after).1 x inR
        have some := room _ (mem_append_right _ (mem_cons_self ..))
        dsimp only at above some
        omega
    have same : ∀ x : Nat × Nat × Nat, plus x.1 1 = ap ↔ x.1 = a := by
      intro x
      rw [pointer, plus, plus]
      omega
    have listedLive : y ∈ s.live ↔ ∃ x ∈ used sizeofHeader im.start (l ++ ⟨m, some bytes⟩ :: r),
        y = (plus x.1 1, x.2.2) := live y
    rw [Finset.mem_filter, sameLive, listedLive, split, usedEq]
    constructor
    · rintro ⟨⟨x, listed, rfl⟩, other⟩
      rcases mem_append.mp listed with inL | rest
      · exact ⟨x, mem_append_left _ inL, rfl⟩
      · rcases mem_cons.mp rest with rfl | inR
        · exact absurd ((same _).mpr rfl) other
        · exact ⟨x, mem_append_right _ inR, rfl⟩
    · rintro ⟨x, listed, rfl⟩
      refine ⟨⟨x, ?_, rfl⟩, fun isAp => others x listed ((same x).mp isAp)⟩
      exact mem_append.mpr ((mem_append.mp listed).imp id (mem_cons_of_mem _))

/-- A write to a live block touches no header. -/
theorem Layout.store {a : Nat} (h : Header) (inside : s.inLive a) :
    Layout im { s with hdr := update s.hdr a h } segs := by
  obtain ⟨y, isLive, low, high⟩ := of_decide_eq_true inside
  obtain ⟨x, isUsed, rfl⟩ := (live y).mp isLive
  have piece := (used_sublist ..).subset (mem_map_of_mem isUsed)
  have unit := header_pos
  dsimp only at low high
  rw [plus, Nat.mul_one] at low
  rw [header_of_payload, layout.sizes x isUsed, plus] at high
  refine layout.congr (fun y listed => update_of_ne ?_ _ _) rfl rfl
  rcases mem_cons.mp listed with rfl | isHeader
  · have start := (bounds piece).1
    have above := im.above
    dsimp only at start
    omega
  · obtain ⟨z, isPiece, rfl⟩ := mem_map.mp isHeader
    have size := Nat.mul_pos unit (positive_pieces layout.positive isPiece)
    rcases eq_or_related (pairwise_pieces ..) piece isPiece with same | before | after
    · rw [← same]
      dsimp only
      omega
    · dsimp only at before
      omega
    · dsimp only at after
      omega

end

/-- A program that has not called `malloc`, or a heap that is laid out. -/
def Kept (im : Image) (s : State) : Prop :=
  Started im s ∨ ∃ segs, Layout im s segs ∧ Live im s segs

/-- The first call of `malloc` makes the ring that has only the static header. -/
theorem Started.layout (started : Started im s) :
    Layout im { (s.setPtr im.base im.base).setSize im.base 0 with freep := im.base } [] ∧
      Live im { (s.setPtr im.base im.base).setSize im.base 0 with freep := im.base } [] := by
  obtain ⟨-, brk, live, low⟩ := started
  constructor
  · constructor
    case brk => exact brk
    case low => exact brk ▸ low
    case positive => exact fun g listed => nomatch listed
    case apart => exact .nil
    case ring =>
      constructor
      case links =>
        have ptr : ((s.setPtr im.base im.base).setSize im.base 0).ptr im.base = im.base := by simp
        exact ptr
      case base =>
        have size : ((s.setPtr im.base im.base).setSize im.base 0).size im.base = 0 := by simp
        exact size
      case sizes => exact fun x listed => nomatch listed
      case freep => exact mem_cons_self ..
    case sizes => exact fun x listed => nomatch listed
    case room => exact fun x listed => nomatch listed
  · intro y
    have none : (s.setPtr im.base im.base).live = ∅ := live
    constructor
    · intro listed
      exact absurd (none ▸ listed) (Finset.notMem_empty y)
    · rintro ⟨x, listed, -⟩
      cases listed

theorem malloc_started (started : Started im s) (grant : Nat → Bool) (nbytes : Nat) :
    UserHeap.malloc im grant s nbytes = UserHeap.malloc im grant
      { (s.setPtr im.base im.base).setSize im.base 0 with freep := im.base } nbytes := by
  rw [UserHeap.malloc, UserHeap.malloc, if_pos started.1, if_neg im.nonnull.ne']

theorem Kept.malloc (kept : Kept im s) {nbytes : Nat} (fit : fits nbytes) (grant : Nat → Bool) :
    ∃ s' p, malloc im grant s nbytes = .ok (s', p) ∧ Kept im s' := by
  rcases kept with started | ⟨segs, layout, live⟩
  · obtain ⟨layout, live⟩ := started.layout
    obtain ⟨s', p, segs', ran, layout', live'⟩ := layout.malloc live fit grant
    exact ⟨s', p, (malloc_started started grant nbytes).trans ran, .inr ⟨segs', layout', live'⟩⟩
  · obtain ⟨s', p, segs', ran, layout', live'⟩ := layout.malloc live fit grant
    exact ⟨s', p, ran, .inr ⟨segs', layout', live'⟩⟩

theorem Kept.free (kept : Kept im s) {ap bytes : Nat} (isLive : (ap, bytes) ∈ s.live) :
    ∃ s', free im s ap = .ok s' ∧ Kept im s' := by
  rcases kept with ⟨-, -, none, -⟩ | ⟨segs, layout, live⟩
  · exact absurd (none ▸ isLive) (Finset.notMem_empty _)
  · obtain ⟨s', segs', ran, layout', live'⟩ := layout.free live isLive
    exact ⟨s', ran, .inr ⟨segs', layout', live'⟩⟩

theorem Kept.store (kept : Kept im s) {a : Nat} (h : Header) (inside : s.inLive a) :
    Kept im { s with hdr := update s.hdr a h } := by
  rcases kept with ⟨freep, brk, none, low⟩ | ⟨segs, layout, live⟩
  · exact .inl ⟨freep, brk, none, low⟩
  · exact .inr ⟨segs, layout.store live h inside, live⟩

theorem Kept.step {t : State} {act : Act} (kept : Kept im s) (next : step im s act = some t) :
    Kept im t := by
  rw [UserHeap.step] at next
  split at next
  · rename_i isEnabled
    cases act with
    | malloc nbytes grant =>
      obtain ⟨s', p, ran, kept'⟩ := kept.malloc isEnabled grant
      rw [perform, ran] at next
      obtain rfl : s' = t := Option.some.inj next
      exact kept'
    | free ap =>
      obtain ⟨⟨ap', bytes⟩, isLive, rfl⟩ := of_decide_eq_true isEnabled
      obtain ⟨s', ran, kept'⟩ := kept.free isLive
      rw [perform, ran] at next
      obtain rfl : s' = t := Option.some.inj next
      exact kept'
    | store a h =>
      obtain rfl := Option.some.inj next
      exact kept.store h isEnabled
  · cases next

theorem Reachable.kept (run : Reachable im s) : Kept im s :=
  TransitionSystem.Reachable.invariant (fun _ started => .inl started)
    (fun _ _ _ kept next => kept.step next) run


/-! ### The heap in its own terms -/

/-- The block that a pointer of `malloc` stands for: its header and its size in units. -/
def State.block (s : State) (ap : Nat) : Nat × Nat :=
  (ap - sizeofHeader, s.size (ap - sizeofHeader))

/-- The block ends before the other one starts. -/
def Before (x y : Nat × Nat) : Prop := plus x.1 x.2 ≤ y.1

def Contains (x : Nat × Nat) (b : Nat) : Prop := x.1 ≤ b ∧ b < plus x.1 x.2

/-- What the heap is when `blocks` are its free blocks: a ring in address order whose only
descending link leads back to the static header, blocks that do not overlap, and no memory of
`sbrk` outside them. -/
structure Heap (im : Image) (s : State) (blocks : List (Nat × Nat)) : Prop where
  increasing : (im.base :: blocks.map Prod.fst).Pairwise (· < ·)
  ring : s.freep ≠ 0 → Links s.ptr im.base (blocks.map Prod.fst) im.base ∧
    s.freep ∈ im.base :: blocks.map Prod.fst
  unused : s.freep = 0 → s.brk = im.start
  sizes : ∀ x ∈ blocks, s.size x.1 = x.2
  separate : blocks.Pairwise fun x y => plus x.1 x.2 < y.1
  freeLive : ∀ x ∈ blocks, ∀ y ∈ s.live, Before x (s.block y.1) ∨ Before (s.block y.1) x
  liveLive : ∀ x ∈ s.live, ∀ y ∈ s.live, x ≠ y →
    Before (s.block x.1) (s.block y.1) ∨ Before (s.block y.1) (s.block x.1)
  freeWithin : ∀ x ∈ blocks, im.start ≤ x.1 ∧ plus x.1 x.2 ≤ s.brk
  liveWithin : ∀ y ∈ s.live, im.start ≤ (s.block y.1).1 ∧
    plus (s.block y.1).1 (s.block y.1).2 ≤ s.brk
  requested : ∀ y ∈ s.live, y.1 = plus (s.block y.1).1 1 ∧
    y.1 + y.2 ≤ plus (s.block y.1).1 (s.block y.1).2
  covered : ∀ b, im.start ≤ b → b < s.brk →
    (∃ x ∈ blocks, Contains x b) ∨ ∃ y ∈ s.live, Contains (s.block y.1) b

/-- The block of a live pointer is a used segment. -/
theorem Layout.block_eq (layout : Layout im s segs) {x : Nat × Nat × Nat}
    (listed : x ∈ used sizeofHeader im.start segs) : s.block (plus x.1 1) = (x.1, x.2.1) := by
  rw [State.block, header_of_payload, layout.sizes x listed]

theorem Layout.heap (layout : Layout im s segs) (live : Live im s segs) :
    Heap im s (SegmentList.free sizeofHeader im.start segs) where
  increasing := layout.sorted
  ring _ := ⟨layout.ring.links, layout.ring.freep⟩
  unused null := absurd null layout.freep_ne
  sizes := layout.ring.sizes
  separate := pairwise_free header_pos layout.positive layout.apart
  freeLive x isFree y isLive := by
    obtain ⟨z, isUsed, rfl⟩ := (live y).mp isLive
    rw [layout.block_eq isUsed]
    exact free_used_disjoint isFree isUsed
  liveLive x isX y isY other := by
    obtain ⟨z, usedZ, rfl⟩ := (live x).mp isX
    obtain ⟨w, usedW, rfl⟩ := (live y).mp isY
    rw [layout.block_eq usedZ, layout.block_eq usedW]
    exact (eq_or_related (pairwise_used ..) usedZ usedW).resolve_left fun same => other (same ▸ rfl)
  freeWithin x isFree := layout.brk ▸ bounds_free isFree
  liveWithin y isLive := by
    obtain ⟨z, isUsed, rfl⟩ := (live y).mp isLive
    rw [layout.block_eq isUsed, layout.brk]
    exact bounds_used isUsed
  requested y isLive := by
    obtain ⟨z, isUsed, rfl⟩ := (live y).mp isLive
    rw [layout.block_eq isUsed]
    have room := layout.room z isUsed
    refine ⟨rfl, ?_⟩
    rw [plus, plus]
    dsimp only
    omega
  covered b low high := by
    obtain ⟨x, piece, inside⟩ := SegmentList.covered low (layout.brk ▸ high)
    rcases free_or_used piece with isFree | ⟨t, isUsed⟩
    · exact .inl ⟨x, isFree, inside⟩
    · refine .inr ⟨_, (live _).mpr ⟨_, isUsed, rfl⟩, ?_⟩
      rw [layout.block_eq isUsed]
      exact inside

theorem Started.heap (started : Started im s) : Heap im s [] := by
  obtain ⟨freep, brk, live, -⟩ := started
  constructor
  case increasing => exact pairwise_singleton ..
  case ring => exact fun other => absurd freep other
  case unused => exact fun _ => brk
  case sizes => exact fun x listed => nomatch listed
  case separate => exact .nil
  case freeLive => exact fun x listed => nomatch listed
  case liveLive => exact fun x isX => absurd (live ▸ isX) (Finset.notMem_empty _)
  case freeWithin => exact fun x listed => nomatch listed
  case liveWithin => exact fun x isX => absurd (live ▸ isX) (Finset.notMem_empty _)
  case requested => exact fun x isX => absurd (live ▸ isX) (Finset.notMem_empty _)
  case covered => exact fun b low high => absurd (brk ▸ high) (Nat.not_lt.mpr low)

/-- In every state of every run the heap is one of free and live blocks, and every call of `malloc`
and every `free` of a live pointer returns. -/
theorem heap_invariant (im : Image) (s : State) (run : Reachable im s) :
    (∃ blocks, Heap im s blocks) ∧
    (∀ nbytes grant, fits nbytes → ∃ result, malloc im grant s nbytes = .ok result) ∧
    ∀ ap bytes, (ap, bytes) ∈ s.live → ∃ s', free im s ap = .ok s' := by
  have kept := Reachable.kept run
  refine ⟨?_, fun nbytes grant fit => ?_, fun ap bytes isLive => ?_⟩
  · rcases kept with started | ⟨segs, layout, live⟩
    · exact ⟨[], started.heap⟩
    · exact ⟨_, layout.heap live⟩
  · obtain ⟨s', p, ran, -⟩ := kept.malloc fit grant
    exact ⟨_, ran⟩
  · obtain ⟨s', ran, -⟩ := kept.free isLive
    exact ⟨s', ran⟩

end

/-- The static header at 16, the first break at 32. -/
def tinyImage : Image := ⟨16, 32, by decide, by decide⟩

def tinyStart : State := ⟨fun _ => ⟨0, 0⟩, 0, 32, ∅⟩

/-- Two calls of `malloc`, the second block given back. -/
def tinyCalls : List Act :=
  [.malloc 1 fun _ => true, .malloc 40 fun _ => true, .free (32 + 16 * 4091)]

theorem heap_invariant_tiny : ∃ s, TransitionSystem.run (step tinyImage) tinyStart tinyCalls =
      some s ∧ s.live = {(32 + 16 * 4095, 1)} ∧ (∃ blocks, Heap tinyImage s blocks) ∧
    (∀ nbytes grant, fits nbytes → ∃ result, malloc tinyImage grant s nbytes = .ok result) ∧
    ∀ ap bytes, (ap, bytes) ∈ s.live → ∃ s', free tinyImage s ap = .ok s' := by
  have ran : (TransitionSystem.run (step tinyImage) tinyStart tinyCalls).isSome := by decide +kernel
  obtain ⟨s, isS⟩ := Option.isSome_iff_exists.mp ran
  have live : (TransitionSystem.run (step tinyImage) tinyStart tinyCalls).map State.live =
      some {(32 + 16 * 4095, 1)} := by decide +kernel
  rw [isS] at live
  have start : Started tinyImage tinyStart := ⟨rfl, rfl, rfl, by decide⟩
  exact ⟨s, isS, Option.some.inj live,
    heap_invariant tinyImage s (TransitionSystem.Reachable.run (.init _ start) isS)⟩

end UserHeap
