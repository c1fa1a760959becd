import PinkyOS.ProcessFrames

/-!
# Growing and shrinking a process (`growproc`)

`growproc` adds a signed number to an unsigned size and reads the answer 0 of `allocuvm` and
`deallocuvm` as a failure. What it does to the pages of the process is exact, or nothing, unless
the process shrinks to nothing or below.
-/
namespace UserMemory
open MemoryLayout BuddyHeap Ledger

/-! ### `growproc` -/

/-- The page that a descriptor names: its access bits and its bytes. -/
def Vm.pageAt (v : Vm) (e : Pte) : Nat × List UInt8 := (e.ap, v.read (p2v e.pa) pteSz)

/-- The user page with number `k` of a process. -/
def State.userPage (s : State) (p : SleepWakeup.Slot) (k : Nat) : Option (Nat × List UInt8) :=
  (s.proc p).pgdir.bind fun d => (lookup d (page k)).map s.vm.pageAt

/-- The mapped user pages are those of `[0, align_up(sz, PTE_SZ))`. -/
def Filled (s : State) (p : SleepWakeup.Slot) (sz : Nat) : Prop :=
  ∀ k, (s.userPage p k).isSome ↔ k * pteSz < alignUp sz pteSz

/-- The process has grown by exactly `n`. -/
structure Resized (s t : State) (p : SleepWakeup.Slot) (n : Int) : Prop where
  size : ((t.proc p).sz : Int) = (s.proc p).sz + n
  positive : 0 < ((s.proc p).sz : Int) + n
  small : ((s.proc p).sz : Int) + n < uaddrSz
  filled : Filled t p (t.proc p).sz
  kept : ∀ k, k * pteSz < (s.proc p).sz → k * pteSz < (t.proc p).sz →
    t.userPage p k = s.userPage p k
  added : ∀ k, (s.proc p).sz ≤ k * pteSz → k * pteSz < (t.proc p).sz →
    t.userPage p k = some (apRw10, List.replicate pteSz 0)

/-- The size and the pages of the process are as before. -/
structure Untouched (s t : State) (p : SleepWakeup.Slot) : Prop where
  size : (t.proc p).sz = (s.proc p).sz
  pages : ∀ k, t.userPage p k = s.userPage p k

/-- `growproc` is exact where it returns 0 and does nothing where it returns -1. -/
def SbrkExact (s : State) (p : SleepWakeup.Slot) (n : Int) : Prop :=
  ∀ t ok, growproc s p n = .ok (t, ok) → if ok then Resized s t p n else Untouched s t p

section
variable {rest : Finset (Nat × Nat)} {s t : State} {p : SleepWakeup.Slot} {n : Int} {d d' : Pgd}
  {v : Vm} {x : Proc}

theorem userPage_eq (pgdir : (s.proc p).pgdir = some d) (k : Nat) :
    s.userPage p k = (lookup d (page k)).map s.vm.pageAt := by
  rw [State.userPage, pgdir]
  rfl

theorem userPage_setProc (s : State) (v : Vm) (pgdir : x.pgdir = some d) (k : Nat) :
    ({ s with vm := v }.setProc p x).userPage p k =
      (lookup d (page k)).map v.pageAt := by
  simp [State.userPage, State.setProc, pgdir]

theorem mapped_iff (pgdir : (s.proc p).pgdir = some d) (filled : Filled s p (s.proc p).sz)
    (k : Nat) : (lookup d (page k)).isSome ↔ k * pteSz < (s.proc p).sz := by
  have exactly := filled k
  rw [userPage_eq pgdir, Option.isSome_map, page_lt_alignUp] at exactly
  exact exactly

/-- A page whose entry is kept has the bytes it had. -/
theorem page_kept (keeps : Keeps rest (.page p) s.owner s.vm d)
    (bytes : ∀ q ∈ s.vm.pages, v.read q pteSz = s.vm.read q pteSz) {k : Nat}
    (same : lookup d' (page k) = lookup d (page k)) :
    (lookup d' (page k)).map v.pageAt = (lookup d (page k)).map s.vm.pageAt := by
  rw [same]
  cases entry : lookup d (page k) with
  | none => rw [Option.map_none, Option.map_none]
  | some e =>
    have owned : s.owner (.page p (page k)) = some (p2v e.pa) := by
      rw [keeps.view, frameAt, entry]
      rfl
    exact congrArg (fun bs => some (e.ap, bs)) (bytes _ (keeps.balanced.live _ _ owned))

/-- All pages below the new size are added to those there were. -/
theorem resized_of_added {g : Nat} (keeps : Keeps rest (.page p) s.owner s.vm d)
    (pgdir : (s.proc p).pgdir = some d) (filled : Filled s p (s.proc p).sz)
    (goal : (g : Int) = (s.proc p).sz + n) (positive : 0 < n) (small : g < uaddrSz)
    (bytes : ∀ q ∈ s.vm.pages, v.read q pteSz = s.vm.read q pteSz)
    (added : Added v d d' (pagesIn (alignUp (s.proc p).sz pteSz) g)) :
    Resized s ({ s with vm := v }.setProc p { s.proc p with pgdir := some d', sz := g }) p n := by
  have size : (({ s with vm := v }.setProc p
      { s.proc p with pgdir := some d', sz := g }).proc p).sz = g := by
    simp [State.setProc]
  have mapped := mapped_iff pgdir filled
  have kept : ∀ k, k * pteSz < (s.proc p).sz → lookup d' (page k) = lookup d (page k) := by
    intro k low
    apply added.kept
    rintro m ⟨above, -⟩ same
    rw [← page_inj same] at above
    exact absurd ((page_lt_alignUp k _).mpr low) (Nat.not_lt.mpr above)
  have fresh : ∀ k, (s.proc p).sz ≤ k * pteSz → k * pteSz < g →
      k ∈ pagesIn (alignUp (s.proc p).sz pteSz) g := by
    intro k above low
    refine ⟨Nat.le_of_not_lt fun early => ?_, low⟩
    exact absurd ((page_lt_alignUp k _).mp early) (Nat.not_lt.mpr above)
  constructor
  case size => rw [size, goal]
  case positive => omega
  case small => omega
  case filled =>
    intro k
    rw [size, userPage_setProc s v rfl, Option.isSome_map, page_lt_alignUp]
    by_cases low : k * pteSz < (s.proc p).sz
    · rw [kept k low, mapped]
      omega
    · by_cases inside : k * pteSz < g
      · obtain ⟨e, entry, -⟩ := added.fresh k (fresh k (Nat.not_lt.mp low) inside)
        simp [entry, inside]
      · have outside : lookup d' (page k) = lookup d (page k) := by
          apply added.kept
          rintro m ⟨-, below⟩ same
          exact inside (page_inj same ▸ below)
        rw [outside, mapped]
        omega
  case kept =>
    intro k low _
    rw [userPage_setProc s v rfl, userPage_eq pgdir]
    exact page_kept keeps bytes (kept k low)
  case added =>
    intro k above low
    rw [size] at low
    obtain ⟨e, entry, user, cleared⟩ := added.fresh k (fresh k above low)
    rw [userPage_setProc s v rfl, entry, Option.map_some, Vm.pageAt, user, cleared]

section
variable (tidy : Tidy rest s)
include tidy

section
variable (used : (s.proc p).state ≠ .unused)
include used

theorem growproc_grows (filled : Filled s p (s.proc p).sz) (positive : 0 < n) (int : n < 2 ^ 31) :
    SbrkExact s p n := by
  obtain ⟨d, pgdir, space, small, keeps⟩ := tidy.tree used
  have top := uaddrSz_eq
  obtain ⟨g, goal⟩ : ∃ g : Nat, (g : Int) = (s.proc p).sz + n := ⟨_, Int.toNat_of_nonneg (by omega)⟩
  have isGoal : ((((s.proc p).sz : Int) + n) % 2 ^ 32).toNat = g := by omega
  intro t ok run
  rw [growproc] at run
  simp only [pgdir, isGoal, if_pos positive] at run
  rw [allocuvm] at run
  split at run
  case isTrue high =>
    cases run
    exact ⟨by simp [State.setProc], fun k => by rw [userPage_setProc s _ rfl, userPage_eq pgdir]⟩
  case isFalse below =>
    rw [if_neg (by omega)] at run
    obtain ⟨v', d', r, ran, -, bytes, ended⟩ := allocFrom_keeps (page_injective p) keeps
      (Space.alignUp.mpr space) (alignUp_dvd (s.proc p).sz pteSz) (Nat.le_refl _)
      (alignUp_mono pteSz (by omega)) (Nat.lt_of_not_le below)
    rw [ran, ok_bind] at run
    simp only at run
    rcases ended with ⟨rfl, -, added⟩ | ⟨rfl, -, without⟩
    · rw [if_neg (by omega)] at run
      cases run
      exact resized_of_added keeps pgdir filled goal positive (Nat.lt_of_not_le below) bytes added
    · rw [if_pos rfl] at run
      cases run
      refine ⟨by simp [State.setProc], fun k => ?_⟩
      rw [userPage_setProc s _ rfl, userPage_eq pgdir]
      apply page_kept keeps bytes
      by_cases inside : k ∈ pagesIn (alignUp (s.proc p).sz pteSz) g
      · have absent : ¬ (lookup d (page k)).isSome := by
          rw [mapped_iff pgdir filled, ← page_lt_alignUp]
          exact Nat.not_lt.mpr inside.1
        rw [without.gone k inside, Option.not_isSome_iff_eq_none.mp absent]
      · apply without.kept
        intro m isIn same
        exact inside (page_inj same ▸ isIn)

/-- Shrinking by at most the size of the process: its pages are cut, whatever is returned. -/
theorem growproc_shrinks (negative : n < 0) {g : Nat} (goal : (g : Int) = (s.proc p).sz + n) :
    ∃ t, growproc s p n = .ok (t, decide (g ≠ 0)) ∧
      (t.proc p).sz = (if g = 0 then (s.proc p).sz else g) ∧
      (∀ k, k * pteSz < g → t.userPage p k = s.userPage p k) ∧
      ∀ k, g ≤ k * pteSz → t.userPage p k = none := by
  obtain ⟨d, pgdir, space, small, keeps⟩ := tidy.tree used
  have top := uaddrSz_eq
  have isGoal : ((((s.proc p).sz : Int) + n) % 2 ^ 32).toNat = g := by omega
  obtain ⟨v', d', ran, without, -, mem⟩ := deallocuvm_keeps (page_injective p) keeps space small
    (show g < (s.proc p).sz by omega)
  have kept : ∀ k, k * pteSz < g →
      (lookup d' (page k)).map v'.pageAt = (lookup d (page k)).map s.vm.pageAt := by
    intro k low
    apply page_kept keeps fun q _ => read_congr mem q pteSz
    apply without.kept
    rintro m ⟨above, -⟩ same
    rw [← page_inj same] at above
    exact absurd ((page_lt_alignUp k _).mpr low) (Nat.not_lt.mpr above)
  have gone : ∀ k, g ≤ k * pteSz → (lookup d' (page k)).map v'.pageAt = none := by
    intro k above
    by_cases inside : k ∈ pagesIn (alignUp g pteSz) (s.proc p).sz
    · rw [without.gone k inside, Option.map_none]
    · have absent : lookup d (page k) = none := by
        by_contra present
        obtain ⟨m, same, below⟩ := space.mapped _ present
        rw [← page_inj same] at below
        refine inside ⟨Nat.le_of_not_lt fun early => ?_, below⟩
        exact absurd ((page_lt_alignUp k _).mp early) (Nat.not_lt.mpr above)
      have outside : ∀ m ∈ pagesIn (alignUp g pteSz) (s.proc p).sz, page k ≠ page m := by
        intro m isIn same
        exact inside (page_inj same ▸ isIn)
      rw [without.kept _ outside, absent, Option.map_none]
  have run : growproc s p n = if g = 0 then
      .ok ({ s with vm := v' }.setProc p { s.proc p with pgdir := some d' }, false)
      else .ok ({ s with vm := v' }.setProc p { s.proc p with pgdir := some d', sz := g }, true) := by
    rw [growproc]
    simp only [pgdir, isGoal, if_neg (Int.not_lt.mpr negative.le), if_pos negative]
    rw [ran, ok_bind]
    rfl
  by_cases zero : g = 0
  · rw [run, if_pos zero, decide_eq_false (not_not.mpr zero), if_pos zero]
    refine ⟨_, rfl, by simp [State.setProc], fun k low => ?_, fun k above => ?_⟩
    · rw [userPage_setProc s _ rfl, userPage_eq pgdir, kept k low]
    · rw [userPage_setProc s _ rfl, gone k above]
  · rw [run, if_neg zero, decide_eq_true zero, if_neg zero]
    refine ⟨_, rfl, by simp [State.setProc], fun k low => ?_, fun k above => ?_⟩
    · rw [userPage_setProc s _ rfl, userPage_eq pgdir, kept k low]
    · rw [userPage_setProc s _ rfl, gone k above]

/-- Shrinking by more than the size of the process: the sum wraps around, and nothing is done. -/
theorem growproc_wraps (below : ((s.proc p).sz : Int) + n < 0) (int : -2 ^ 31 ≤ n) :
    ∃ t, growproc s p n = .ok (t, decide ((s.proc p).sz ≠ 0)) ∧ Untouched s t p := by
  obtain ⟨d, pgdir, space, small, keeps⟩ := tidy.tree used
  have negative : n < 0 := by omega
  have excess : ((((s.proc p).sz : Int) + n) % 2 ^ 32).toNat ≥ (s.proc p).sz := by omega
  rw [growproc]
  simp only [pgdir, if_neg (Int.not_lt.mpr negative.le), if_pos negative]
  rw [deallocuvm, if_pos excess, ok_bind]
  simp only
  split
  case isTrue zero =>
    rw [decide_eq_false (not_not.mpr zero)]
    refine ⟨_, rfl, by simp [State.setProc], fun k => ?_⟩
    rw [userPage_setProc s _ rfl, userPage_eq pgdir]
  case isFalse zero =>
    rw [decide_eq_true zero]
    refine ⟨_, rfl, by simp [State.setProc], fun k => ?_⟩
    rw [userPage_setProc s _ rfl, userPage_eq pgdir]

theorem growproc_zero : growproc s p 0 = .ok (s, true) := by
  obtain ⟨d, pgdir, -⟩ := tidy.tree used
  rw [growproc]
  simp only [pgdir]
  rfl

theorem growproc_shrinks_exact (filled : Filled s p (s.proc p).sz) (negative : n < 0)
    (positive : 0 < ((s.proc p).sz : Int) + n) : SbrkExact s p n := by
  obtain ⟨d, -, -, small, -⟩ := tidy.tree used
  obtain ⟨g, goal⟩ : ∃ g : Nat, (g : Int) = (s.proc p).sz + n := ⟨_, Int.toNat_of_nonneg positive.le⟩
  obtain ⟨t, run, size, kept, gone⟩ := growproc_shrinks tidy used negative goal
  rw [if_neg (by omega)] at size
  intro t' ok ran
  rw [run, decide_eq_true (by omega)] at ran
  cases ran
  constructor
  case size => rw [size, goal]
  case positive => exact positive
  case small => omega
  case filled =>
    intro k
    rw [size, page_lt_alignUp]
    by_cases low : k * pteSz < g
    · rw [kept k low, filled k, page_lt_alignUp]
      omega
    · rw [gone k (Nat.not_lt.mp low)]
      simp [low]
  case kept => exact fun k _ low => kept k (size ▸ low)
  case added =>
    intro k above low
    omega

theorem growproc_zero_exact (filled : Filled s p (s.proc p).sz) (positive : 0 < (s.proc p).sz)
    (small : (s.proc p).sz < uaddrSz) : SbrkExact s p 0 := by
  intro t ok ran
  rw [growproc_zero tidy used] at ran
  cases ran
  constructor
  case size => rw [Int.add_zero]
  case positive => omega
  case small => omega
  case filled => exact filled
  case kept => exact fun _ _ _ => rfl
  case added =>
    intro k above low
    omega

end

end

theorem filled_first {p : SleepWakeup.Slot} {e : Pte} (pgdir : (s.proc p).pgdir = some d)
    (entries : lookup d = Function.update (lookup blank) (page 0) (some e)) : Filled s p pteSz := by
  intro k
  rw [userPage_eq pgdir, Option.isSome_map, page_lt_alignUp, entries]
  by_cases first : k = 0
  · simp [first, pteSz_eq]
  · have other : page k ≠ page 0 := fun same => first (page_inj same)
    rw [Function.update_of_ne other, lookup_blank]
    simp [pteSz_eq]
    omega

end

end UserMemory
