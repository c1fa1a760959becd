import PinkyOS.CircularList
import PinkyOS.UserHeap

/-!
# The ring of free blocks

The free blocks form a ring with the static header, in address order. The loop of `free` finds the
last element before the block that comes back, and joins the block with its neighbours where they
touch.
-/
namespace UserHeap
open CircularList Function List

section
variable {im : Image} {s : State} {bp p q x : Nat} {xs A B : List Nat}

/-! ### The loop of `free` -/

/-- From a place below `bp` the loop goes up to the last element before `bp`. -/
theorem locate_up (links : Links s.ptr x xs q) (sorted : (x :: xs).Pairwise (· < ·))
    (below : ∀ y ∈ x :: xs, y < bp) (stop : bp < q ∨ ∀ y ∈ x :: xs, q ≤ y) {n : Nat}
    (enough : xs.length < n) : locate s bp n x = .ok ((x :: xs).getLast (cons_ne_nil _ _)) := by
  induction xs generalizing x n with
  | nil =>
    obtain ⟨n, rfl⟩ : ∃ m, n = m + 1 := ⟨n - 1, by omega⟩
    have here : s.ptr x = q := links
    have low := below x (mem_cons_self ..)
    rw [locate, here]
    rcases stop with beyond | wraps
    · rw [if_pos ⟨low, beyond⟩]
      rfl
    · have wrap := wraps x (mem_cons_self ..)
      rw [if_neg (by omega), if_pos ⟨wrap, .inl low⟩]
      rfl
  | cons y xs ih =>
    obtain ⟨n, rfl⟩ : ∃ m, n = m + 1 := ⟨n - 1, by omega⟩
    obtain ⟨here, rest⟩ := links
    have low := below y (mem_cons_of_mem _ (mem_cons_self ..))
    have order := (pairwise_cons.mp sorted).1 y (mem_cons_self ..)
    rw [length_cons] at enough
    rw [locate, here, if_neg (by omega), if_neg (by omega), getLast_cons (cons_ne_nil _ _)]
    exact ih rest (pairwise_cons.mp sorted).2
      (fun z listed => below z (mem_cons_of_mem _ listed))
      (stop.imp id fun wraps z listed => wraps z (mem_cons_of_mem _ listed)) (by omega)

/-- From a place above `bp` the loop goes round to the element that is below it again. -/
theorem locate_round (links : Links s.ptr x xs q) (sorted : (x :: xs).Pairwise (· < ·))
    (above : ∀ y ∈ x :: xs, bp < y) (low : q < bp) {n : Nat} :
    locate s bp (xs.length + 1 + n) x = locate s bp n q := by
  induction xs generalizing x with
  | nil =>
    have here : s.ptr x = q := links
    have high := above x (mem_cons_self ..)
    rw [length_nil, Nat.zero_add, Nat.add_comm, locate, here, if_neg (by omega), if_neg (by omega)]
  | cons y xs ih =>
    obtain ⟨here, rest⟩ := links
    have high := above x (mem_cons_self ..)
    have order := (pairwise_cons.mp sorted).1 y (mem_cons_self ..)
    have count : (y :: xs).length + 1 + n = xs.length + 1 + n + 1 := by
      rw [length_cons]
      omega
    rw [count, locate, here, if_neg (by omega), if_neg (by omega)]
    exact ih rest (pairwise_cons.mp sorted).2
      fun z listed => above z (mem_cons_of_mem _ listed)

/-- Wherever it starts, the loop finds the last element before `bp`. -/
theorem locate_ring (links : Links s.ptr p A q) (path : Path s.ptr q B p)
    (sorted : (p :: (A ++ B)).Pairwise (· < ·)) (below : ∀ y ∈ p :: A, y < bp)
    (above : ∀ y ∈ B, bp < y) (freep : s.freep ∈ p :: (A ++ B)) {n : Nat}
    (enough : A.length + B.length + 1 < n) :
    locate s bp n s.freep = .ok ((p :: A).getLast (cons_ne_nil _ _)) := by
  have split : (p :: A ++ B).Pairwise (· < ·) := sorted
  obtain ⟨sortedA, sortedB, -⟩ := pairwise_append.mp split
  have stop : bp < q ∨ ∀ y ∈ p :: A, q ≤ y := by
    cases B with
    | nil =>
      refine .inr fun y listed => ?_
      rw [show q = p from path]
      rcases mem_cons.mp listed with rfl | later
      · exact Nat.le_refl _
      · exact ((pairwise_cons.mp sortedA).1 y later).le
    | cons b B =>
      rw [show q = b from path.1]
      exact .inl (above b (mem_cons_self ..))
  have here : s.freep ∈ (p :: A) ++ B := freep
  rcases mem_append.mp here with low | high
  · obtain ⟨ys, zs, isA, rest, last⟩ := links.from_mem low
    have part : ∀ y ∈ s.freep :: zs, y ∈ p :: A := fun y listed => isA ▸ mem_append_right ys listed
    have length := congrArg length isA
    simp only [length_cons, length_append] at length
    rw [isA] at sortedA
    rw [last]
    exact locate_up rest (pairwise_append.mp sortedA).2.1 (fun y listed => below y (part y listed))
      (stop.imp id fun wraps y listed => wraps y (part y listed)) (by omega)
  · cases B with
    | nil => cases high
    | cons b B =>
      obtain ⟨ys, zs, isB, rest, -⟩ := path.2.from_mem high
      have part : ∀ y ∈ s.freep :: zs, y ∈ b :: B := fun y listed =>
        isB ▸ mem_append_right ys listed
      have length := congrArg length isB
      simp only [length_cons, length_append] at length enough
      rw [isB] at sortedB
      obtain ⟨k, rfl⟩ : ∃ k, n = zs.length + 1 + k := ⟨n - (zs.length + 1), by omega⟩
      rw [locate_round rest (pairwise_append.mp sortedB).2.1
        (fun y listed => above y (part y listed)) (below p (mem_cons_self ..))]
      exact locate_up links sortedA below stop (by omega)

/-! ### `free` on the ring -/

@[simp] theorem ptr_setPtr (s : State) (p q : Nat) : (s.setPtr p q).ptr = update s.ptr p q := by
  funext x
  by_cases here : x = p
  · simp [State.ptr, State.setPtr, here]
  · simp [State.ptr, State.setPtr, here]

@[simp] theorem size_setPtr (s : State) (p q : Nat) : (s.setPtr p q).size = s.size := by
  funext x
  by_cases here : x = p
  · simp [State.size, State.setPtr, here]
  · simp [State.size, State.setPtr, here]

@[simp] theorem ptr_setSize (s : State) (p n : Nat) : (s.setSize p n).ptr = s.ptr := by
  funext x
  by_cases here : x = p
  · simp [State.ptr, State.setSize, here]
  · simp [State.ptr, State.setSize, here]

@[simp] theorem size_setSize (s : State) (p n : Nat) :
    (s.setSize p n).size = update s.size p (n % 2 ^ 32) := by
  funext x
  by_cases here : x = p
  · simp [State.size, State.setSize, here]
  · simp [State.size, State.setSize, here]

theorem ok_bind {α β : Type} (a : α) (f : α → Except Fault β) : (.ok a >>= f) = f a := rfl

/-- The block at `bp` with the free block right after it, if there is one: its size and link. -/
inductive JoinsRight (s : State) (bp next : Nat) : Nat → Nat → Prop
  | join (touch : plus bp (s.size bp) = next) :
      JoinsRight s bp next (s.size bp + s.size next) (s.ptr next)
  | apart (gap : plus bp (s.size bp) ≠ next) : JoinsRight s bp next (s.size bp) next

/-- The element `p` before the block at `bp`, which has size `n` and link `q`, after the two are
joined if they touch. -/
inductive JoinsLeft (s : State) (bp p n q : Nat) : Nat → Nat → Prop
  | join (touch : plus p (s.size p) = bp) : JoinsLeft s bp p n q (s.size p + n) q
  | apart (gap : plus p (s.size p) ≠ bp) : JoinsLeft s bp p n q (s.size p) bp

theorem release_eq {n k r : Nat} (found : locate s bp (s.steps im) s.freep = .ok p)
    (other : p ≠ bp) (right : JoinsRight s bp (s.ptr p) n q) (left : JoinsLeft s bp p n q k r)
    (small : n < 2 ^ 32) (small' : k < 2 ^ 32) :
    ∃ s', release im s bp = .ok s' ∧ s'.ptr = update (update s.ptr bp q) p r ∧
      s'.size = update (update s.size bp n) p k ∧ s'.freep = p ∧
      s'.brk = s.brk ∧ s'.live = s.live := by
  obtain ⟨s₁, isS₁, ptr₁, size₁, brk₁, live₁⟩ : ∃ s₁, (if plus bp (s.size bp) = s.ptr p then
        (s.setSize bp (s.size bp + s.size (s.ptr p))).setPtr bp (s.ptr (s.ptr p))
      else s.setPtr bp (s.ptr p)) = s₁ ∧ s₁.ptr = update s.ptr bp q ∧
      s₁.size = update s.size bp n ∧ s₁.brk = s.brk ∧ s₁.live = s.live := by
    cases right with
    | join touch =>
      refine ⟨_, if_pos touch, by simp, ?_, rfl, rfl⟩
      rw [size_setPtr, size_setSize, Nat.mod_eq_of_lt small]
    | apart gap => exact ⟨_, if_neg gap, by simp, by simp, rfl, rfl⟩
  have sizeP : s₁.size p = s.size p := by rw [size₁, update_of_ne other]
  have sizeBp : s₁.size bp = n := by rw [size₁, update_self]
  have ptrBp : s₁.ptr bp = q := by rw [ptr₁, update_self]
  obtain ⟨s₂, isS₂, ptr₂, size₂, brk₂, live₂⟩ : ∃ s₂, (if plus p (s₁.size p) = bp then
        (s₁.setSize p (s₁.size p + s₁.size bp)).setPtr p (s₁.ptr bp)
      else s₁.setPtr p bp) = s₂ ∧ s₂.ptr = update s₁.ptr p r ∧
      s₂.size = update s₁.size p k ∧ s₂.brk = s₁.brk ∧ s₂.live = s₁.live := by
    rw [sizeP, sizeBp, ptrBp]
    cases left with
    | join touch =>
      refine ⟨_, if_pos touch, by simp, ?_, rfl, rfl⟩
      rw [size_setPtr, size_setSize, Nat.mod_eq_of_lt small']
    | apart gap =>
      refine ⟨_, if_neg gap, by simp, ?_, rfl, rfl⟩
      rw [size_setPtr, ← sizeP, update_eq_self]
  refine ⟨{ s₂ with freep := p }, ?_, ptr₁ ▸ ptr₂, size₁ ▸ size₂, rfl, brk₂.trans brk₁,
    live₂.trans live₁⟩
  rw [release, found, ok_bind]
  dsimp only
  rw [isS₁, isS₂]
  rfl

end

/-- The free blocks `nodes`, in order, form a ring with the static header. -/
structure Ring (im : Image) (s : State) (nodes : List (Nat × Nat)) : Prop where
  links : Links s.ptr im.base (nodes.map Prod.fst) im.base
  base : s.size im.base = 0
  sizes : ∀ x ∈ nodes, s.size x.1 = x.2
  freep : s.freep ∈ im.base :: nodes.map Prod.fst

/-- The free blocks after the one at `bp`, when that has been joined with the first of them. -/
inductive NodesRight (bp n : Nat) : List (Nat × Nat) → Nat → List (Nat × Nat) → Prop
  | join (m : Nat) (B : List (Nat × Nat)) : NodesRight bp n ((plus bp n, m) :: B) (n + m) B
  | apart (B : List (Nat × Nat)) (gap : ∀ y ∈ B.head?, y.1 ≠ plus bp n) : NodesRight bp n B n B

/-- All free blocks, when the one at `bp` has been joined with the last one before it. -/
inductive NodesLeft (bp n : Nat) (B : List (Nat × Nat)) :
    List (Nat × Nat) → List (Nat × Nat) → Prop
  | join (A : List (Nat × Nat)) (p k : Nat) (touch : plus p k = bp) :
      NodesLeft bp n B (A ++ [(p, k)]) (A ++ (p, k + n) :: B)
  | apart (A : List (Nat × Nat)) (gap : ∀ y ∈ A.getLast?, plus y.1 y.2 ≠ bp) :
      NodesLeft bp n B A (A ++ (bp, n) :: B)

section
variable {im : Image} {s : State} {bp n : Nat} {A B B' nodes : List (Nat × Nat)}

/-- The ring depends on the headers of its elements only. -/
theorem Ring.congr {s' : State} (ring : Ring im s nodes)
    (same : ∀ x ∈ im.base :: nodes.map Prod.fst, s'.hdr x = s.hdr x)
    (freep : s'.freep = s.freep) : Ring im s' nodes where
  links := ring.links.congr fun y listed => congrArg Header.ptr (same y listed)
  base := (congrArg Header.size (same _ (mem_cons_self ..))).trans ring.base
  sizes x listed := (congrArg Header.size
    (same x.1 (mem_cons_of_mem _ (mem_map_of_mem listed)))).trans (ring.sizes x listed)
  freep := freep ▸ ring.freep

theorem NodesRight.subset {n' : Nat} (right : NodesRight bp n B n' B') : B' ⊆ B := by
  cases right with
  | join m B => exact subset_cons_self ..
  | apart B gap => exact Subset.refl _

theorem NodesRight.length_le {n' : Nat} (right : NodesRight bp n B n' B') :
    B'.length ≤ B.length := by
  cases right with
  | join m B => exact Nat.le_succ _
  | apart B gap => exact Nat.le_refl _

theorem NodesLeft.length_le (left : NodesLeft bp n B A nodes) :
    nodes.length ≤ A.length + B.length + 1 := by
  cases left with
  | join A p k touch =>
    simp only [length_append, length_cons]
    omega
  | apart A gap =>
    simp only [length_append, length_cons]
    omega

/-- The last element before `bp`. -/
def lastBefore (im : Image) (A : List (Nat × Nat)) : Nat :=
  (im.base :: A.map Prod.fst).getLast (List.cons_ne_nil _ _)

theorem lastBefore_nil : lastBefore im [] = im.base := rfl

theorem lastBefore_concat (A : List (Nat × Nat)) (y : Nat × Nat) :
    lastBefore im (A ++ [y]) = y.1 := by
  simp [lastBefore]

theorem NodesRight.joins {p n' q : Nat} (right : NodesRight bp (s.size bp) B n' B')
    (link : s.ptr p = q) (path : Path s.ptr q (B.map Prod.fst) im.base)
    (sizes : ∀ x ∈ B, s.size x.1 = x.2) (low : im.base < bp) :
    ∃ q', JoinsRight s bp (s.ptr p) n' q' ∧ Path s.ptr q' (B'.map Prod.fst) im.base := by
  rw [link]
  cases right with
  | join m B =>
    obtain ⟨rfl, rest⟩ := path
    have first : s.size (plus bp (s.size bp)) = m := sizes _ (mem_cons_self ..)
    subst first
    exact ⟨_, .join rfl, links_iff_path.mp rest⟩
  | apart B gap =>
    refine ⟨q, .apart fun touch => ?_, path⟩
    cases B with
    | nil =>
      have wraps : q = im.base := path
      rw [plus] at touch
      omega
    | cons y B => exact gap y rfl (path.1.symm.trans touch.symm)

theorem NodesLeft.joins {n' q : Nat} (left : NodesLeft bp n' B' A nodes)
    (base : s.size im.base = 0) (sizes : ∀ x ∈ A, s.size x.1 = x.2) (low : im.base < bp) :
    ∃ k r, JoinsLeft s bp (lastBefore im A) n' q k r ∧
      ((k = s.size (lastBefore im A) ∧ r = bp ∧ nodes = A ++ (bp, n') :: B') ∨
        (r = q ∧ ∃ A₁ m, A = A₁ ++ [(lastBefore im A, m)] ∧ k = m + n' ∧
          nodes = A₁ ++ (lastBefore im A, k) :: B')) := by
  cases left with
  | join A p k touch =>
    rw [lastBefore_concat]
    have size : s.size p = k := sizes (p, k) (mem_append_right _ (mem_singleton_self _))
    refine ⟨_, q, .join (by rw [size]; exact touch), .inr ⟨rfl, A, k, rfl, ?_, ?_⟩⟩
    · rw [size]
    · rw [size]
  | apart A gap =>
    refine ⟨_, bp, .apart fun touch => ?_, .inl ⟨rfl, rfl, rfl⟩⟩
    rcases eq_nil_or_concat A with rfl | ⟨A, y, rfl⟩
    · rw [lastBefore_nil, base, plus] at touch
      omega
    · rw [concat_eq_append, lastBefore_concat,
        sizes y (by rw [concat_eq_append]; exact mem_append_right _ (mem_singleton_self _))]
        at touch
      exact gap y (by simp) touch

/-- What `free` does to a ring, seen from its links and sizes alone. -/
structure Released (im : Image) (s s' : State) (bp : Nat) (A nodes : List (Nat × Nat)) : Prop where
  ring : Ring im s' nodes
  sizes : ∀ x, x ≠ bp → x ∉ A.map Prod.fst → s'.size x = s.size x
  brk : s'.brk = s.brk
  live : s'.live = s.live

section
variable (base : s.size im.base = 0) (sizesA : ∀ x ∈ A, s.size x.1 = x.2)
    (sizesB : ∀ x ∈ B', s.size x.1 = x.2) (low : im.base < bp)
include base sizesA sizesB low

/-- The block at `bp` becomes an element of its own. -/
theorem Released.apart {s' : State} {n' q' : Nat}
    (below : ∀ y ∈ A, y.1 < bp) (above : ∀ y ∈ B', bp < y.1)
    (front : Links s'.ptr im.base (A.map Prod.fst) bp) (link : s'.ptr bp = q')
    (back : Path s'.ptr q' (B'.map Prod.fst) im.base)
    (size : s'.size = update s.size bp n') (freep : s'.freep = lastBefore im A)
    (brk : s'.brk = s.brk) (live : s'.live = s.live) :
    Released im s s' bp A (A ++ (bp, n') :: B') where
  ring := by
    constructor
    case links =>
      rw [map_append, map_cons, links_append]
      exact ⟨front, links_iff_path.mpr (link.symm ▸ back)⟩
    case base => rw [size, update_of_ne low.ne, base]
    case sizes =>
      intro x listed
      rw [size]
      rcases mem_append.mp listed with before | after
      · rw [update_of_ne (below x before).ne, sizesA x before]
      · rcases mem_cons.mp after with rfl | later
        · exact update_self ..
        · rw [update_of_ne (above x later).ne', sizesB x later]
    case freep =>
      rw [freep, map_append, ← cons_append]
      exact mem_append_left _ (getLast_mem _)
  sizes x other _ := by rw [size, update_of_ne other]
  brk := brk
  live := live

/-- The block at `bp` is joined with the element at `p` before it. -/
theorem Released.join {s' : State} {p n' k q' : Nat}
    (below : ∀ y ∈ A, y.1 < p) (above : ∀ y ∈ B', bp < y.1)
    (belowP : im.base < p) (belowBp : p < bp)
    (front : Links s'.ptr im.base ((A ++ [(p, k)]).map Prod.fst) q')
    (back : Path s'.ptr q' (B'.map Prod.fst) im.base)
    (size : s'.size = update (update s.size bp n') p (k + n'))
    (freep : s'.freep = p) (brk : s'.brk = s.brk) (live : s'.live = s.live) :
    Released im s s' bp (A ++ [(p, k)]) (A ++ (p, k + n') :: B') where
  ring := by
    constructor
    case links =>
      have all : Links s'.ptr im.base ((A ++ [(p, k)]).map Prod.fst ++ B'.map Prod.fst) im.base :=
        links_append_iff.mpr ⟨q', front, back⟩
      simpa using all
    case base => rw [size, update_of_ne belowP.ne, update_of_ne low.ne, base]
    case sizes =>
      intro x listed
      rw [size]
      rcases mem_append.mp listed with before | after
      · have left := below x before
        rw [update_of_ne left.ne, update_of_ne (left.trans belowBp).ne, sizesA x before]
      · rcases mem_cons.mp after with rfl | later
        · exact update_self ..
        · have right := above x later
          rw [update_of_ne (belowBp.trans right).ne', update_of_ne right.ne', sizesB x later]
    case freep =>
      rw [freep]
      simp
  sizes x other unlisted := by
    have notP : x ≠ p := by
      rintro rfl
      exact unlisted (by simp)
    rw [size, update_of_ne notP, update_of_ne other]
  brk := brk
  live := live

end

/-- `free` of a block between the free blocks `A` and `B`. -/
theorem Ring.release {n' : Nat} (ring : Ring im s (A ++ B))
    (sorted : (im.base :: (A ++ B).map Prod.fst).Pairwise (· < ·)) (low : im.base < bp)
    (below : ∀ y ∈ A, y.1 < bp) (above : ∀ y ∈ B, bp < y.1)
    (enough : A.length + B.length + 1 < s.steps im)
    (right : NodesRight bp (s.size bp) B n' B') (left : NodesLeft bp n' B' A nodes)
    (small : ∀ x ∈ nodes, x.2 < 2 ^ 32) :
    ∃ s', release im s bp = .ok s' ∧ Released im s s' bp A nodes := by
  rw [map_append] at sorted
  have links := ring.links
  rw [map_append, links_append_iff] at links
  obtain ⟨q, front, back⟩ := links
  have split : (im.base :: A.map Prod.fst ++ B.map Prod.fst).Pairwise (· < ·) := sorted
  obtain ⟨sortedA, -, order⟩ := pairwise_append.mp split
  have belowAll : ∀ y ∈ im.base :: A.map Prod.fst, y < bp := by
    intro y listed
    rcases mem_cons.mp listed with rfl | later
    · exact low
    · obtain ⟨x, inside, rfl⟩ := mem_map.mp later
      exact below x inside
  have aboveAll : ∀ y ∈ B.map Prod.fst, bp < y := by
    intro y listed
    obtain ⟨x, inside, rfl⟩ := mem_map.mp listed
    exact above x inside
  have freep := ring.freep
  rw [map_append] at freep
  have found : locate s bp (s.steps im) s.freep = .ok (lastBefore im A) :=
    locate_ring front back sorted belowAll aboveAll freep (by simpa using enough)
  have lastMem : lastBefore im A ∈ im.base :: A.map Prod.fst := getLast_mem _
  have lastLow : lastBefore im A < bp := belowAll _ lastMem
  have sizesA : ∀ x ∈ A, s.size x.1 = x.2 := fun x inside => ring.sizes x (mem_append_left B inside)
  have sizesB : ∀ x ∈ B, s.size x.1 = x.2 := fun x inside =>
    ring.sizes x (mem_append_right A inside)
  obtain ⟨q', joinsRight, path⟩ := right.joins front.next_last back sizesB low
  obtain ⟨k, r, joinsLeft, how⟩ := left.joins (q := q') ring.base sizesA low
  have smalls : n' < 2 ^ 32 ∧ k < 2 ^ 32 := by
    rcases how with ⟨rfl, rfl, rfl⟩ | ⟨rfl, A₁, m, -, rfl, rfl⟩
    · refine ⟨small (r, n') (by simp), ?_⟩
      rcases mem_cons.mp lastMem with isBase | inA
      · rw [isBase, ring.base]
        exact Nat.two_pow_pos 32
      · obtain ⟨x, inside, isLast⟩ := mem_map.mp inA
        rw [← isLast, sizesA x inside]
        exact small x (mem_append_left _ inside)
    · have joined := small (lastBefore im A, m + n') (by simp)
      exact ⟨(Nat.le_add_left n' m).trans_lt joined, joined⟩
  obtain ⟨s', ran, ptr, size, freep', brk, live⟩ :=
    release_eq found lastLow.ne joinsRight joinsLeft smalls.1 smalls.2
  refine ⟨s', ran, ?_⟩
  -- Up to the new link of the last element before `bp` the ring is as it was.
  have front' : Links s'.ptr im.base (A.map Prod.fst) r := by
    have away : Links (update s.ptr bp q') im.base (A.map Prod.fst) q :=
      front.congr fun y listed => update_of_ne (belowAll y listed).ne _ _
    rw [ptr]
    exact away.set_last (sortedA.imp fun less => less.ne) r
  have aboveB' : ∀ y ∈ B', bp < y.1 := fun y listed => above y (right.subset listed)
  have back' : Path s'.ptr q' (B'.map Prod.fst) im.base := by
    refine path.congr fun y listed => ?_
    obtain ⟨x, inside, rfl⟩ := mem_map.mp listed
    have high := aboveB' x inside
    rw [ptr, update_of_ne (lastLow.trans high).ne', update_of_ne high.ne']
  have sizesB' : ∀ x ∈ B', s.size x.1 = x.2 := fun x listed => sizesB x (right.subset listed)
  rcases how with ⟨rfl, rfl, rfl⟩ | ⟨rfl, A₁, m, isA, rfl, rfl⟩
  · have link : s'.ptr r = q' := by
      rw [ptr, update_of_ne lastLow.ne', update_self]
    have size' : s'.size = update s.size r n' := by
      rw [size, update_eq_self_iff, update_of_ne lastLow.ne]
    exact Released.apart ring.base sizesA sizesB' low below aboveB' front' link back' size' freep'
      brk live
  · rw [isA, map_append, map_singleton, ← cons_append] at sortedA
    have before := (pairwise_append.mp sortedA).2.2
    have belowLast : ∀ y ∈ im.base :: A₁.map Prod.fst, y < lastBefore im A := fun y listed =>
      before y listed _ (mem_singleton_self _)
    have sizesA₁ : ∀ x ∈ A₁, s.size x.1 = x.2 := fun x inside =>
      sizesA x (by rw [isA]; exact mem_append_left _ inside)
    have released := Released.join (k := m) ring.base sizesA₁ sizesB' low
      (fun y listed => belowLast y.1 (mem_cons_of_mem _ (mem_map_of_mem listed)))
      aboveB' (belowLast _ (mem_cons_self ..)) lastLow (isA ▸ front') back' size freep' brk live
    rw [← isA] at released
    exact released

/-! ### `malloc` on the ring -/

/-- A block that fits exactly leaves the ring. -/
theorem Ring.take {p : Nat} (ring : Ring im s (A ++ (p, n) :: B))
    (sorted : (im.base :: (A ++ (p, n) :: B).map Prod.fst).Pairwise (· < ·)) :
    Ring im { s.setPtr (lastBefore im A) (s.ptr p) with freep := lastBefore im A } (A ++ B) := by
  rw [map_append, map_cons, ← cons_append] at sorted
  obtain ⟨before, -, order⟩ := pairwise_append.mp sorted
  obtain ⟨front, back⟩ : Links s.ptr im.base (A.map Prod.fst) p ∧
      Links s.ptr p (B.map Prod.fst) im.base := by
    have links := ring.links
    rwa [map_append, map_cons, links_append] at links
  have ptr : (s.setPtr (lastBefore im A) (s.ptr p)).ptr =
    update s.ptr (lastBefore im A) (s.ptr p) := ptr_setPtr ..
  have size : (s.setPtr (lastBefore im A) (s.ptr p)).size = s.size := size_setPtr ..
  constructor
  case links =>
    rw [map_append, links_append_iff]
    change ∃ r, Links (s.setPtr (lastBefore im A) (s.ptr p)).ptr _ _ r ∧
      Path (s.setPtr (lastBefore im A) (s.ptr p)).ptr r _ _
    rw [ptr]
    refine ⟨s.ptr p, front.set_last (before.imp fun less => less.ne) _, ?_⟩
    refine (links_iff_path.mp back).congr fun y listed => update_of_ne ?_ _ _
    exact (order _ (getLast_mem _) y (mem_cons_of_mem _ listed)).ne'
  case base => exact (congrFun size _).trans ring.base
  case sizes =>
    intro x listed
    refine (congrFun size _).trans (ring.sizes x ?_)
    exact mem_append.mpr ((mem_append.mp listed).imp id (mem_cons_of_mem _))
  case freep =>
    rw [map_append, ← cons_append]
    exact mem_append_left _ (getLast_mem _)

/-- A block gets smaller, and the header of the piece cut off it is at `c`. -/
theorem Ring.cut {p c k m : Nat} (ring : Ring im s (A ++ (p, n) :: B))
    (sorted : (im.base :: (A ++ (p, n) :: B).map Prod.fst).Pairwise (· < ·))
    (fresh : c ∉ im.base :: (A ++ (p, n) :: B).map Prod.fst) (small : k < 2 ^ 32) :
    Ring im { (s.setSize p k).setSize c m with freep := lastBefore im A } (A ++ (p, k) :: B) := by
  have same : (A ++ (p, k) :: B).map Prod.fst = (A ++ (p, n) :: B).map Prod.fst := by simp
  have size : ∀ x ∈ im.base :: (A ++ (p, n) :: B).map Prod.fst,
      ((s.setSize p k).setSize c m).size x = update s.size p k x := by
    intro x listed
    have other : x ≠ c := by
      rintro rfl
      exact fresh listed
    rw [size_setSize, update_of_ne other, size_setSize, Nat.mod_eq_of_lt small]
  have ptr : ((s.setSize p k).setSize c m).ptr = s.ptr := by rw [ptr_setSize, ptr_setSize]
  rw [map_append, map_cons, ← cons_append] at sorted
  obtain ⟨before, after, order⟩ := pairwise_append.mp sorted
  constructor
  case links =>
    rw [same]
    exact ring.links.congr fun y _ => congrFun ptr y
  case base =>
    refine (size _ (mem_cons_self ..)).trans ?_
    rw [update_of_ne (order _ (mem_cons_self ..) p (mem_cons_self ..)).ne, ring.base]
  case sizes =>
    intro x listed
    have inside : x.1 ∈ im.base :: (A ++ (p, n) :: B).map Prod.fst :=
      mem_cons_of_mem _ (same ▸ mem_map_of_mem listed)
    refine (size x.1 inside).trans ?_
    rcases mem_append.mp listed with left | right
    · have less := order x.1 (mem_cons_of_mem _ (mem_map_of_mem left)) p
        (mem_cons_self ..)
      rw [update_of_ne less.ne, ring.sizes x (mem_append_left _ left)]
    · rcases mem_cons.mp right with rfl | later
      · exact update_self ..
      · have more := (pairwise_cons.mp after).1 x.1 (mem_map_of_mem later)
        rw [update_of_ne more.ne', ring.sizes x (mem_append_right _ (mem_cons_of_mem _ later))]
  case freep =>
    rw [map_append, ← cons_append]
    exact mem_append_left _ (getLast_mem _)

end

end UserHeap
