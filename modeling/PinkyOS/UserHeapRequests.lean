import PinkyOS.UserHeapInvariant

/-!
# How much memory `malloc` asks for

`morecore` computes the number of bytes in 64 bits and hands it to `sbrk` as an `int`. From 2 GiB on
the two differ by 4 GiB: `sbrk` is asked for nothing, for less than nothing or for a single unit,
and the header of the new block says otherwise.
-/
namespace UserHeap
open List
open MemoryLayout (uaddrSz)
open CircularList SegmentList

/-- The number of units that `morecore` asks for and records. -/
def coreUnits (nunits : Nat) : Nat := if nunits < 4096 then 4096 else nunits

/-- What `sbrk` is asked for when `malloc` has found no block. -/
def asked (nbytes : Nat) : Int := toInt (coreUnits (units nbytes) * sizeofHeader)

/-- `malloc` returns 0, or a block of `nbytes` in the memory that `sbrk` has granted. -/
def Sound (im : Image) (grant : Nat → Bool) (s : State) (nbytes : Nat) : Prop :=
  ∃ s' p, malloc im grant s nbytes = .ok (s', p) ∧
    (p = 0 ∨ plus im.start 1 ≤ p ∧ p + nbytes ≤ s'.brk)

/-- If `sbrk` grants what it is asked for, that is the size in the header of the new block. -/
def Honest (grant : Nat → Bool) (s : State) (nbytes : Nat) : Prop :=
  sbrk grant s (asked nbytes) ≠ none →
    asked nbytes = (coreUnits (units nbytes) * sizeofHeader : Nat)

section
variable {im : Image} {s s' : State} {segs : List (Segment Nat)} {nbytes : Nat}

/-! ### The request -/

theorem units_le (bound : nbytes < 2 ^ 32) : units nbytes ≤ 2 ^ 28 + 1 := by
  have unit : sizeofHeader = 16 := rfl
  rw [units, unit]
  omega

theorem asked_small (small : units nbytes * sizeofHeader < 2 ^ 31) :
    asked nbytes = (coreUnits (units nbytes) * sizeofHeader : Nat) := by
  have unit : sizeofHeader = 16 := rfl
  rw [unit] at small
  rw [asked, toInt_of_lt]
  rw [coreUnits, unit]
  split <;> omega

theorem coreUnits_large (large : 2 ^ 31 ≤ units nbytes * sizeofHeader) :
    coreUnits (units nbytes) = units nbytes := by
  have unit : sizeofHeader = 16 := rfl
  rw [unit] at large
  rw [coreUnits, if_neg (by omega)]

/-- A request of 2 GiB or more loses 4 GiB. -/
theorem asked_large (bound : nbytes < 2 ^ 32) (large : 2 ^ 31 ≤ units nbytes * sizeofHeader) :
    asked nbytes = (units nbytes * sizeofHeader : Nat) - 2 ^ 32 := by
  have unit : sizeofHeader = 16 := rfl
  have most := units_le bound
  rw [asked, coreUnits_large large, toInt_eq]
  rw [unit] at large ⊢
  split <;> omega

theorem honest_iff (bound : nbytes < 2 ^ 32) (grant : Nat → Bool) (s : State) :
    Honest grant s nbytes ↔
      units nbytes * sizeofHeader < 2 ^ 31 ∨ sbrk grant s (asked nbytes) = none := by
  by_cases small : units nbytes * sizeofHeader < 2 ^ 31
  · exact iff_of_true (fun _ => asked_small small) (.inl small)
  · have large : 2 ^ 31 ≤ units nbytes * sizeofHeader := Nat.le_of_not_lt small
    have differs : asked nbytes ≠ (coreUnits (units nbytes) * sizeofHeader : Nat) := by
      rw [asked_large bound large, coreUnits_large large]
      omega
    constructor
    · intro honest
      by_contra other
      rw [not_or] at other
      exact differs (honest other.2)
    · rintro (fits | refused)
      · exact absurd fits small
      · exact fun granted => absurd refused granted

/-! ### Blocks that fit -/

/-- The pointer that `malloc` returns is live. -/
theorem malloc_live {grant : Nat → Bool} {p : Nat} (ran : malloc im grant s nbytes = .ok (s', p))
    (nonnull : p ≠ 0) : (p, nbytes) ∈ s'.live := by
  rw [malloc] at ran
  cases found : search im grant (units nbytes) _ _ _ _ with
  | error e =>
    rw [found] at ran
    cases ran
  | ok result =>
    rw [found, ok_bind] at ran
    obtain ⟨same, rfl⟩ := Prod.mk.inj (Except.ok.inj ran)
    rw [← same, if_neg nonnull]
    exact Finset.mem_insert_self ..

theorem Kept.within (kept : Kept im s) {y : Nat × Nat} (isLive : y ∈ s.live) :
    plus im.start 1 ≤ y.1 ∧ y.1 + y.2 ≤ s.brk := by
  rcases kept with ⟨-, -, none, -⟩ | ⟨segs, layout, live⟩
  · exact absurd (none ▸ isLive) (Finset.notMem_empty _)
  · have heap := layout.heap live
    obtain ⟨low, high⟩ := heap.liveWithin y isLive
    obtain ⟨pointer, room⟩ := heap.requested y isLive
    rw [plus] at pointer
    rw [plus]
    omega

theorem Kept.sound (kept : Kept im s) (bound : nbytes < 2 ^ 32)
    (small : units nbytes * sizeofHeader < 2 ^ 31) (grant : Nat → Bool) :
    Sound im grant s nbytes := by
  obtain ⟨s', p, ran, kept'⟩ := kept.malloc (decide_eq_true ⟨bound, small⟩) grant
  refine ⟨s', p, ran, ?_⟩
  by_cases null : p = 0
  · exact .inl null
  · exact .inr (kept'.within (malloc_live ran null))

/-! ### Blocks that do not fit -/

/-- No block of the heap has 2 GiB, so `malloc` goes on to `morecore`. -/
theorem Layout.asks (layout : Layout im s segs) (bound : nbytes < 2 ^ 32)
    (large : 2 ^ 31 ≤ units nbytes * sizeofHeader) (grant : Nat → Bool) (m : Nat) :
    UserHeap.search im grant (units nbytes)
        ((SegmentList.free sizeofHeader im.start segs).length + 1 + m) s s.freep (s.ptr s.freep) =
      (do match ← UserHeap.morecore im grant s (units nbytes) with
        | none => return (s, 0)
        | some s => UserHeap.search im grant (units nbytes) m s s.freep (s.ptr s.freep)) := by
  obtain ⟨positive, room⟩ := units_eq bound
  rcases layout.round positive room grant m with ⟨⟨s', p⟩, -, taken⟩ | ⟨-, asks⟩
  · obtain ⟨segs', before, after, a, layout', -, split, -⟩ := taken.taken
    have listed : (a, units nbytes, nbytes) ∈ used sizeofHeader im.start segs' := by
      rw [split]
      exact mem_append_right _ (mem_cons_self ..)
    have high := (bounds_used listed).2
    have low := layout'.low
    have top : uaddrSz = 268435456 := rfl
    rw [← layout'.brk] at high
    rw [Nat.mul_comm] at large
    dsimp only at high low
    omega
  · exact asks

/-- `sbrk` of nothing, or less, does not move the break up. -/
theorem sbrk_nonpos {grant : Nat → Bool} {n : Int} {hp : Nat} (short : n ≤ 0)
    (granted : sbrk grant s n = some (s', hp)) : hp = s.brk ∧ s'.brk ≤ s.brk := by
  rw [sbrk, if_neg (by omega)] at granted
  dsimp only at granted
  split_ifs at granted with negative kept zero zero
  · obtain ⟨rfl, rfl⟩ := Prod.mk.inj (Option.some.inj granted)
    exact ⟨rfl, Nat.le_refl _⟩
  · obtain ⟨rfl, rfl⟩ := Prod.mk.inj (Option.some.inj granted)
    dsimp only
    omega
  · obtain ⟨rfl, rfl⟩ := Prod.mk.inj (Option.some.inj granted)
    exact ⟨rfl, Nat.le_refl _⟩

theorem morecore_eq (im : Image) (grant : Nat → Bool) (s : State) (nbytes : Nat) :
    morecore im grant s (units nbytes) =
      match sbrk grant s (asked nbytes) with
      | none => .ok none
      | some (s, hp) => addCore im s hp (coreUnits (units nbytes)) := by
  unfold morecore asked coreUnits
  rfl

theorem exists_nodesLeft (bp n : Nat) (nodes : List (Nat × Nat)) :
    ∃ nodes', NodesLeft bp n [] nodes nodes' := by
  rcases eq_nil_or_concat nodes with rfl | ⟨front, ⟨p, k⟩, rfl⟩
  · exact ⟨_, .apart [] (by simp)⟩
  · rw [concat_eq_append]
    by_cases touch : plus p k = bp
    · exact ⟨_, .join front p k touch⟩
    · exact ⟨_, .apart _ (by simp [touch])⟩

/-- A block of `nu` units at the end of the heap, of which `sbrk` has granted the first only, is
taken into the ring. -/
theorem Layout.overgrow (layout : Layout im s segs) {nu : Nat} (small : nu ≤ 2 ^ 28 + 1) :
    ∃ s' nodes, UserHeap.release im
        ({ s with brk := s.brk + sizeofHeader }.setSize s.brk nu) s.brk = .ok s' ∧
      Ring im s' nodes ∧ (im.base :: nodes.map Prod.fst).Pairwise (· < ·) ∧
      s'.brk = s.brk + sizeofHeader ∧
      nodes.length ≤ (SegmentList.free sizeofHeader im.start segs).length + 1 ∧
      ∃ x ∈ nodes, nu ≤ x.2 := by
  obtain ⟨old, isOld⟩ : ∃ old, SegmentList.free sizeofHeader im.start segs = old := ⟨_, rfl⟩
  have unit : sizeofHeader = 16 := rfl
  have above := im.above
  have brk := layout.brk
  have below : ∀ y ∈ im.base :: old.map Prod.fst, y < s.brk := by
    intro y listed
    rcases mem_cons.mp listed with rfl | inside
    · omega
    · rw [← isOld] at inside
      exact (layout.within (((free_sublist ..).map _).subset inside)).2
  have sizes : ∀ x ∈ old, x.2 < 2 ^ 24 := by
    intro x listed
    have most := size_le_total ((free_sublist ..).subset (isOld ▸ listed))
    have low := layout.low
    have top : uaddrSz = 268435456 := rfl
    rw [unit] at brk
    omega
  have sorted := layout.sorted
  have enough := layout.length_lt
  have ring : Ring im ({ s with brk := s.brk + sizeofHeader }.setSize s.brk nu) (old ++ []) := by
    rw [append_nil, ← isOld]
    refine layout.ring.congr (fun x listed => Function.update_of_ne ?_ _ _) rfl
    exact (below x (isOld ▸ listed)).ne
  rw [isOld] at sorted enough
  have size : ({ s with brk := s.brk + sizeofHeader }.setSize s.brk nu).size s.brk = nu := by
    rw [size_setSize, Function.update_self, Nat.mod_eq_of_lt (by omega)]
  obtain ⟨nodes, left⟩ := exists_nodesLeft s.brk nu old
  have fuel : old.length + ([] : List (Nat × Nat)).length + 1 <
      ({ s with brk := s.brk + sizeofHeader }.setSize s.brk nu).steps im := by
    refine Nat.lt_of_lt_of_le enough ?_
    rw [State.steps, State.steps]
    refine Nat.add_le_add_right (Nat.div_le_div_right ?_) _
    exact Nat.sub_le_sub_right (Nat.le_add_right ..) _
  have bounded : ∀ x ∈ nodes, x.2 < 2 ^ 32 := by
    intro x listed
    cases left with
    | join front p k touch =>
      have last := sizes (p, k) (by simp)
      rcases mem_append.mp listed with earlier | rest
      · have := sizes x (mem_append_left _ earlier)
        omega
      · rw [mem_singleton.mp rest]
        dsimp only at last ⊢
        omega
    | apart _ gap =>
      rcases mem_append.mp listed with earlier | rest
      · have := sizes x earlier
        omega
      · rw [mem_singleton.mp rest]
        dsimp only
        omega
  have right : NodesRight s.brk
      (({ s with brk := s.brk + sizeofHeader }.setSize s.brk nu).size s.brk) [] nu [] := by
    rw [size]
    exact .apart [] (by simp)
  obtain ⟨s', ran, released⟩ := ring.release (by rwa [append_nil])
    (below _ (mem_cons_self ..))
    (fun y listed => below _ (mem_cons_of_mem _ (mem_map_of_mem listed)))
    (by simp) fuel right left bounded
  refine ⟨s', nodes, ran, released.ring, ?_, released.brk, ?_, ?_⟩
  · cases left with
    | join front p k touch => simpa using sorted
    | apart _ gap =>
      rw [map_append, ← cons_append]
      refine pairwise_append.mpr ⟨sorted, pairwise_singleton .., ?_⟩
      intro y listed z last
      rw [map_singleton, mem_singleton] at last
      exact last ▸ below y listed
  · rw [isOld]
    exact left.length_le
  · cases left with
    | join front p k touch => exact ⟨(p, k + nu), by simp, Nat.le_add_left ..⟩
    | apart _ gap => exact ⟨(s.brk, nu), by simp, Nat.le_refl _⟩

theorem carve_spec (s : State) (n q p : Nat) :
    (carve s n q p).1.brk = s.brk ∧ (carve s n q p).2 ≠ 0 := by
  rw [carve]
  split_ifs
  · exact ⟨rfl, Nat.succ_ne_zero _⟩
  · exact ⟨rfl, Nat.succ_ne_zero _⟩

theorem Layout.malloc_eq (layout : Layout im s segs) (grant : Nat → Bool) (nbytes : Nat) :
    UserHeap.malloc im grant s nbytes =
      (do
        let (s, p) ← UserHeap.search im grant (units nbytes) (2 * s.steps im + 2) s s.freep
          (s.ptr s.freep)
        return (if p = 0 then s else { s with live := insert (p, nbytes) s.live }, p)) := by
  rw [UserHeap.malloc, if_neg layout.freep_ne]

/-- A request of 2 GiB or more ends well only if `sbrk` fails. -/
theorem Layout.sound_large_iff (layout : Layout im s segs) (bound : nbytes < 2 ^ 32)
    (large : 2 ^ 31 ≤ units nbytes * sizeofHeader) (grant : Nat → Bool) :
    Sound im grant s nbytes ↔ sbrk grant s (asked nbytes) = none := by
  have unit : sizeofHeader = 16 := rfl
  have value := asked_large bound large
  have most := units_le bound
  have count := layout.length_lt
  obtain ⟨m, isM⟩ : ∃ m, 2 * s.steps im + 2 =
      (SegmentList.free sizeofHeader im.start segs).length + 1 + m :=
    ⟨2 * s.steps im + 2 - ((SegmentList.free sizeofHeader im.start segs).length + 1), by omega⟩
  have run := layout.malloc_eq grant nbytes
  rw [isM, layout.asks bound large grant m, morecore_eq, coreUnits_large large] at run
  cases granted : sbrk grant s (asked nbytes) with
  | none =>
    rw [granted] at run
    exact iff_of_true ⟨s, 0, run, .inl rfl⟩ rfl
  | some result =>
    obtain ⟨s₁, hp⟩ := result
    rw [granted] at run
    dsimp only at run
    refine iff_of_false ?_ (fun none => nomatch none)
    rintro ⟨s', p, ran, fate⟩
    rw [run] at ran
    by_cases short : asked nbytes ≤ 0
    · -- The header would be stored at the break or above it.
      obtain ⟨rfl, low⟩ := sbrk_nonpos short granted
      rw [addCore, if_neg (by rw [unit]; omega)] at ran
      cases ran
    · -- Only the last request gets here: `sbrk` is asked for the bytes of one header.
      have one : asked nbytes = (sizeofHeader : Nat) := by
        rw [unit] at value large ⊢
        omega
      rw [one, sbrk_pos grant s header_pos] at granted
      obtain ⟨⟨-, low⟩, same⟩ := Option.ite_none_right_eq_some.mp granted
      obtain ⟨rfl, rfl⟩ := Prod.mk.inj (Option.some.inj same)
      obtain ⟨s₂, nodes, released, ring, sorted, brk, longer, x, listed, enough⟩ :=
        layout.overgrow most
      obtain ⟨k, rfl⟩ : ∃ k, m = nodes.length + 1 + k := ⟨m - (nodes.length + 1), by omega⟩
      rw [addCore, if_pos (Nat.le_refl _), released] at ran
      rcases ring.round sorted grant (units nbytes) k with
        ⟨q, -, b, -, -, -, found⟩ | ⟨few, -⟩
      · obtain ⟨same, nonnull⟩ := carve_spec s₂ (units nbytes) q b
        obtain ⟨⟨t, c⟩, isCut⟩ : ∃ cut, UserHeap.carve s₂ (units nbytes) q b = cut := ⟨_, rfl⟩
        rw [isCut] at found same nonnull
        change (UserHeap.search im grant (units nbytes) (nodes.length + 1 + k) s₂ s₂.freep
          (s₂.ptr s₂.freep) >>= _) = _ at ran
        rw [found, ok_bind] at ran
        obtain ⟨isS, rfl⟩ := Prod.mk.inj (Except.ok.inj ran)
        have top : uaddrSz = 268435456 := rfl
        have size : units nbytes * 16 ≤ nbytes + 31 := by
          rw [units, unit]
          omega
        have last : s'.brk = s.brk + sizeofHeader := by
          rw [← isS, if_neg nonnull]
          exact same.trans brk
        rcases fate with null | ⟨-, high⟩
        · exact nonnull null
        · rw [last] at high
          rw [unit] at large
          omega
      · exact absurd (few x listed) (Nat.not_lt.mpr enough)

/-- Whether `sbrk` fails depends on the break only. -/
theorem sbrk_none_congr {grant : Nat → Bool} {n : Int} (same : s'.brk = s.brk) :
    sbrk grant s' n = none ↔ sbrk grant s n = none := by
  rw [sbrk, sbrk, same]
  dsimp only
  split_ifs <;> simp

/-- In every heap `malloc` returns nothing that it does not have exactly if the request is of less
than 2 GiB, or `sbrk` fails; and so it is for the size in the new header. -/
theorem malloc_owns_iff (kept : Kept im s) (bound : nbytes < 2 ^ 32) (grant : Nat → Bool) :
    (Sound im grant s nbytes ↔
      units nbytes * sizeofHeader < 2 ^ 31 ∨ sbrk grant s (asked nbytes) = none) ∧
    (Honest grant s nbytes ↔
      units nbytes * sizeofHeader < 2 ^ 31 ∨ sbrk grant s (asked nbytes) = none) := by
  refine ⟨?_, honest_iff bound grant s⟩
  by_cases small : units nbytes * sizeofHeader < 2 ^ 31
  · exact iff_of_true (kept.sound bound small grant) (.inl small)
  have large : 2 ^ 31 ≤ units nbytes * sizeofHeader := Nat.le_of_not_lt small
  rw [or_iff_right small]
  rcases kept with started | ⟨segs, layout, -⟩
  · have first := started.layout.1.sound_large_iff bound large grant
    rw [Sound, ← malloc_started started] at first
    rw [Sound, first]
    exact sbrk_none_congr rfl
  · exact layout.sound_large_iff bound large grant

end

theorem kept_tiny : Kept tinyImage tinyStart := .inl ⟨rfl, rfl, rfl, by decide⟩

/-- A first request of 40 bytes. -/
theorem malloc_owns_tiny : Sound tinyImage (fun _ => true) tinyStart 40 ∧
    Honest (fun _ => true) tinyStart 40 := by
  have small : units 40 * sizeofHeader < 2 ^ 31 := by decide
  obtain ⟨sound, honest⟩ := malloc_owns_iff kept_tiny (by decide : 40 < 2 ^ 32) (fun _ => true)
  exact ⟨sound.mpr (.inl small), honest.mpr (.inl small)⟩

/-- A first request of 4294967295 bytes: `sbrk` is asked for 16 and moves the break from 32 to 48,
where the block that `malloc` returns begins. -/
theorem malloc_beyond_break :
    asked (2 ^ 32 - 1) = 16 ∧
      (malloc tinyImage (fun _ => true) tinyStart (2 ^ 32 - 1)).toOption.map
        (fun result => (result.2, result.1.brk)) = some (48, 48) := by
  decide +kernel

end UserHeap
