import Mathlib

/-!
# Ledgers of resources

Owners hold at most one resource each. A ledger is balanced against the set of resources in use
when every one of these has exactly one owner and nothing else is owned.
-/
namespace Ledger
open Function Finset
variable {Ω F : Type}

structure Balanced (own : Ω → Option F) (used : Finset F) : Prop where
  live : ∀ o f, own o = some f → f ∈ used
  kept : ∀ f ∈ used, ∃ o, own o = some f
  once : ∀ o o' f, own o = some f → own o' = some f → o = o'

variable {own own' : Ω → Option F} {used : Finset F} {o : Ω} {f : F}

/-- A fresh resource goes to an owner that holds nothing. -/
theorem Balanced.take [DecidableEq Ω] [DecidableEq F] (balanced : Balanced own used)
    (free : own o = none) (fresh : f ∉ used) :
    Balanced (update own o (some f)) (insert f used) := by
  have fate : ∀ p g, update own o (some f) p = some g →
      (p = o ∧ g = f) ∨ (p ≠ o ∧ own p = some g) := by
    intro p g h
    by_cases e : p = o
    · subst e
      rw [update_self] at h
      exact .inl ⟨rfl, (Option.some.inj h).symm⟩
    · rw [update_of_ne e] at h
      exact .inr ⟨e, h⟩
  constructor
  case live =>
    intro p g h
    rcases fate p g h with ⟨-, rfl⟩ | ⟨-, h⟩
    · exact mem_insert_self ..
    · exact mem_insert_of_mem (balanced.live p g h)
  case kept =>
    intro g hg
    rcases mem_insert.mp hg with rfl | hg
    · exact ⟨o, update_self ..⟩
    · obtain ⟨p, hp⟩ := balanced.kept g hg
      have e : p ≠ o := by
        rintro rfl
        rw [free] at hp
        cases hp
      exact ⟨p, by rwa [update_of_ne e]⟩
  case once =>
    intro p q g hp hq
    rcases fate p g hp with ⟨rfl, rfl⟩ | ⟨-, old⟩
    · rcases fate q g hq with ⟨rfl, -⟩ | ⟨-, old⟩
      · rfl
      · exact absurd (balanced.live q g old) fresh
    · rcases fate q g hq with ⟨-, rfl⟩ | ⟨-, old'⟩
      · exact absurd (balanced.live p g old) fresh
      · exact balanced.once p q g old old'

/-- An owner gives its resource back. -/
theorem Balanced.give [DecidableEq Ω] [DecidableEq F] (balanced : Balanced own used)
    (has : own o = some f) : Balanced (update own o none) (used.erase f) := by
  have fate : ∀ p g, update own o none p = some g → p ≠ o ∧ own p = some g := by
    intro p g h
    by_cases e : p = o
    · subst e
      rw [update_self] at h
      cases h
    · rw [update_of_ne e] at h
      exact ⟨e, h⟩
  constructor
  case live =>
    intro p g h
    obtain ⟨e, h⟩ := fate p g h
    refine mem_erase.mpr ⟨?_, balanced.live p g h⟩
    rintro rfl
    exact e (balanced.once p o g h has)
  case kept =>
    intro g hg
    obtain ⟨hne, hg⟩ := mem_erase.mp hg
    obtain ⟨p, hp⟩ := balanced.kept g hg
    have e : p ≠ o := by
      rintro rfl
      exact hne (Option.some.inj (hp.symm.trans has))
    exact ⟨p, by rwa [update_of_ne e]⟩
  case once =>
    intro p q g hp hq
    exact balanced.once p q g (fate p g hp).2 (fate q g hq).2

/-- Where owners only lose what they hold, nothing comes into use. -/
theorem Balanced.subset {used' : Finset F} (old : Balanced own used) (new : Balanced own' used')
    (fewer : ∀ p g, own' p = some g → own p = some g) : used' ⊆ used := by
  intro f hf
  obtain ⟨o, ho⟩ := new.kept f hf
  exact old.live o f (fewer o f ho)

/-- What an owner has lost is no longer in use. -/
theorem Balanced.gone {used' : Finset F} (old : Balanced own used) (new : Balanced own' used')
    (fewer : ∀ p g, own' p = some g → own p = some g) (has : own o = some f)
    (lost : own' o = none) : f ∉ used' := by
  intro hf
  obtain ⟨p, hp⟩ := new.kept f hf
  obtain rfl := old.once p o f (fewer p f hp) has
  rw [lost] at hp
  cases hp

/-- A ledger determines what is in use. -/
theorem Balanced.unique {used' : Finset F} (balanced : Balanced own used)
    (balanced' : Balanced own used') : used' = used := by
  have sub : ∀ {u u' : Finset F}, Balanced own u → Balanced own u' → u' ⊆ u :=
    fun old new => old.subset new fun _ _ h => h
  exact Subset.antisymm (sub balanced balanced') (sub balanced' balanced)

/-- Owners change places. -/
theorem Balanced.swap {e : Ω → Ω} (balanced : Balanced own used) (inv : Involutive e) :
    Balanced (own ∘ e) used where
  live o f h := balanced.live (e o) f h
  kept f hf := by
    obtain ⟨o, ho⟩ := balanced.kept f hf
    exact ⟨e o, by rwa [comp_apply, inv o]⟩
  once o o' f h h' := inv.injective (balanced.once (e o) (e o') f h h')

/-- Owners that hold nothing may be added or left out. -/
theorem balanced_inl {Ψ : Type} :
    Balanced (Sum.elim own fun _ : Ψ => none) used ↔ Balanced own used := by
  constructor
  · intro balanced
    constructor
    case live => exact fun o f h => balanced.live (.inl o) f h
    case kept =>
      intro f hf
      obtain ⟨o | o, ho⟩ := balanced.kept f hf
      · exact ⟨o, ho⟩
      · cases ho
    case once => exact fun o o' f h h' => Sum.inl.inj (balanced.once (.inl o) (.inl o') f h h')
  · intro balanced
    constructor
    case live =>
      rintro (o | o) f h
      · exact balanced.live o f h
      · cases h
    case kept =>
      intro f hf
      obtain ⟨o, ho⟩ := balanced.kept f hf
      exact ⟨.inl o, ho⟩
    case once =>
      rintro (o | o) (o' | o') f h h'
      · rw [balanced.once o o' f h h']
      · cases h'
      · cases h
      · cases h

/-- Each resource in use as its own owner. -/
def standIn [DecidableEq F] (used : Finset F) (f : F) : Option F :=
  if f ∈ used then some f else none

theorem standIn_eq_some [DecidableEq F] {g : F} : standIn used f = some g ↔ f = g ∧ f ∈ used := by
  rw [standIn, Option.ite_none_right_eq_some, Option.some.injEq, and_comm]

theorem balanced_standIn [DecidableEq F] : Balanced (standIn used) used where
  live o f h := by
    obtain ⟨rfl, inUse⟩ := standIn_eq_some.mp h
    exact inUse
  kept f inUse := ⟨f, standIn_eq_some.mpr ⟨rfl, inUse⟩⟩
  once o o' f h h' := (standIn_eq_some.mp h).1.trans (standIn_eq_some.mp h').1.symm

/-- What some owners do not hold can be held by stand-ins. -/
theorem exists_standIn [DecidableEq F] (live : ∀ o f, own o = some f → f ∈ used)
    (once : ∀ o o' f, own o = some f → own o' = some f → o = o') :
    ∃ others, Balanced (Sum.elim (standIn others) own) used := by
  classical
  refine ⟨used.filter fun f => ∀ o, own o ≠ some f, ?_, ?_, ?_⟩
  · rintro (g | o) f has
    · obtain ⟨rfl, listed⟩ := standIn_eq_some.mp has
      exact (mem_filter.mp listed).1
    · exact live o f has
  · intro f inUse
    by_cases held : ∃ o, own o = some f
    · obtain ⟨o, has⟩ := held
      exact ⟨.inr o, has⟩
    · have left : f ∈ used.filter fun f => ∀ o, own o ≠ some f :=
        mem_filter.mpr ⟨inUse, fun o has => held ⟨o, has⟩⟩
      exact ⟨.inl f, standIn_eq_some.mpr ⟨rfl, left⟩⟩
  · rintro (g | o) (g' | o') f has has'
    · rw [(standIn_eq_some.mp has).1, (standIn_eq_some.mp has').1]
    · obtain ⟨rfl, listed⟩ := standIn_eq_some.mp has
      exact absurd has' ((mem_filter.mp listed).2 o')
    · obtain ⟨rfl, listed⟩ := standIn_eq_some.mp has'
      exact absurd has ((mem_filter.mp listed).2 o)
    · exact congrArg Sum.inr (once o o' f has has')

end Ledger
