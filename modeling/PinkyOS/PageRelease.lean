import PinkyOS.Sbrk

/-!
# `deallocuvm` on a page table with holes

Where the table for an address is absent, the loop goes on at the end of the area that the table
would cover, and its increment takes it one page further. So the first page of the next area is
left alone.
-/
namespace UserMemory
open MemoryLayout BuddyHeap Function

/-- The frames of the user pages of `d` are in use, each by one page. -/
structure Owned (rest : Finset (Nat × Nat)) (v : Vm) (d : Pgd) : Prop where
  sound : Sound rest v
  user : ∀ x, lookup d x ≠ none → ∃ n, x = page n ∧ n * pteSz < uaddrSz
  frames : ∀ x f, frameAt d x = some f → f ∈ v.pages
  once : ∀ x y f, frameAt d x = some f → frameAt d y = some f → x = y

section
variable {rest : Finset (Nat × Nat)} {v v' : Vm} {d d' : Pgd} {a n oldsz : Nat}

theorem Owned.unmap {e : Pte} (owned : Owned rest v d) (present : (walkpgdir d a).isSome)
    (entry : lookup d (entryOf a) = some e) :
    ∃ v', freePage v (p2v e.pa) = .ok v' ∧ v'.pages = v.pages.erase (p2v e.pa) ∧
      Owned rest v' (setPte d a none) := by
  have frame : frameAt d (entryOf a) = some (p2v e.pa) := by
    rw [frameAt, entry]
    rfl
  obtain ⟨v', run, sound, pages⟩ := freePage_ok owned.sound (owned.frames _ _ frame)
  have entries := lookup_setPte (e := none) present
  have fewer : ∀ x f, frameAt (setPte d a none) x = some f → x ≠ entryOf a ∧ frameAt d x = some f := by
    intro x f has
    rw [frameAt, entries] at has
    by_cases here : x = entryOf a
    · rw [here, update_self] at has
      cases has
    · rw [update_of_ne here] at has
      exact ⟨here, has⟩
  refine ⟨v', run, pages, sound, fun x mapped => ?_, fun x f has => ?_, fun x y f hx hy => ?_⟩
  · apply owned.user x
    rw [entries] at mapped
    by_cases here : x = entryOf a
    · rw [here, update_self] at mapped
      exact absurd rfl mapped
    · rwa [update_of_ne here] at mapped
  · obtain ⟨other, has⟩ := fewer x f has
    rw [pages]
    refine Finset.mem_erase.mpr ⟨?_, owned.frames x f has⟩
    rintro rfl
    exact other (owned.once _ _ _ has frame)
  · exact owned.once x y f (fewer x f hx).2 (fewer y f hy).2

/-- Just the frames of the pages in `gap` have been freed. -/
def Given (v v' : Vm) (d : Pgd) (gap : Set Nat) : Prop :=
  ∀ f, f ∈ v'.pages ↔ f ∈ v.pages ∧ ∀ n ∈ gap, frameAt d (page n) ≠ some f

/-- The loop returns; it clears the pages it reaches and frees their frames. -/
theorem Owned.dealloc (owned : Owned rest v d) (aligned : pteSz ∣ a) (small : oldsz ≤ uaddrSz) :
    ∃ v' d', deallocFrom v d a oldsz = .ok (v', d') ∧ Cleared d d' (reached d a oldsz) ∧
      Given v v' d (reached d a oldsz) := by
  have ended := deallocFrom_rule (I := fun w c =>
    Owned rest w c ∧ (∀ x f, frameAt c x = some f → frameAt d x = some f) ∧
      ∀ f, f ∈ w.pages ↔ f ∈ v.pages ∧ ∀ x, frameAt d x = some f → frameAt c x = some f) ?_
    ⟨owned, fun _ _ h => h, fun f => ⟨fun h => ⟨h, fun _ h => h⟩, fun h => h.1⟩⟩ aligned small
  · obtain ⟨v', d', ran, ⟨-, -, given⟩, cleared⟩ := ended
    refine ⟨v', d', ran, cleared, fun f => (given f).trans (and_congr_right fun _ => ?_)⟩
    constructor
    · intro stays n inside has
      have left := stays _ has
      rw [frameAt, cleared.gone n inside] at left
      cases left
    · intro spared x has
      rwa [frameAt, cleared.kept x fun n inside same => spared n inside (same ▸ has)]
  · rintro w c b e ⟨owned, older, given⟩ present entry
    have frame : frameAt c (entryOf b) = some (p2v e.pa) := by
      rw [frameAt, entry]
      rfl
    obtain ⟨w', ok, pages, owned'⟩ := owned.unmap present entry
    have left (x : Entry) (f : Nat) :
        frameAt (setPte c b none) x = some f ↔ x ≠ entryOf b ∧ frameAt c x = some f := by
      rw [frameAt, lookup_setPte present]
      by_cases here : x = entryOf b
      · simp [here]
      · simp [here, frameAt]
    refine ⟨owned.sound.pa_ne_zero (owned.frames _ _ frame), w', ok, owned', fun x f has =>
      older x f ((left x f).mp has).2, fun f => ?_⟩
    rw [pages, Finset.mem_erase, given f]
    simp only [left]
    constructor
    · rintro ⟨other, used, stays⟩
      refine ⟨used, fun x has => ⟨?_, stays x has⟩⟩
      rintro rfl
      exact other (Option.some.inj ((stays _ has).symm.trans frame))
    · rintro ⟨used, stays⟩
      refine ⟨?_, used, fun x has => (stays x has).2⟩
      rintro rfl
      exact (stays _ (older _ _ frame)).1 rfl

/-- The pages of the range are no longer mapped and their frames are free, each once; all other
entries and frames are as they were. -/
structure Releases (v : Vm) (d : Pgd) (range : Set Nat) (v' : Vm) (d' : Pgd) : Prop where
  gone : ∀ n ∈ range, lookup d' (page n) = none
  kept : ∀ x, (∀ n ∈ range, x ≠ page n) → lookup d' x = lookup d x
  given : Given v v' d range

/-- `deallocuvm` releases the whole range exactly if no mapped page of it is the first one behind
an absent table. -/
theorem deallocuvm_releases_iff (rest : Finset (Nat × Nat)) (v : Vm) (d : Pgd)
    (owned : Owned rest v d) (oldsz newsz : Nat) (less : newsz < oldsz) (small : oldsz ≤ uaddrSz) :
    (∃ v' d', deallocuvm v d oldsz newsz = .ok (v', d', newsz) ∧
      Releases v d (pagesIn (alignUp newsz pteSz) oldsz) v' d') ↔
    ∀ n ∈ pagesIn (alignUp newsz pteSz) oldsz, Skipped d (alignUp newsz pteSz) n →
      lookup d (page n) = none := by
  obtain ⟨v₁, d₁, ran, cleared, given⟩ :=
    owned.dealloc (alignUp_dvd newsz pteSz) small
  have run : deallocuvm v d oldsz newsz = .ok (v₁, d₁, newsz) := by
    rw [deallocuvm, if_neg (Nat.not_le.mpr less), ran]
    rfl
  have within : ∀ x, (∀ n ∈ pagesIn (alignUp newsz pteSz) oldsz, x ≠ page n) →
      ∀ n ∈ reached d (alignUp newsz pteSz) oldsz, x ≠ page n :=
    fun x outside n inside => outside n inside.1
  constructor
  · rintro ⟨v', d', again, releases⟩ n inside skipped
    rw [run] at again
    cases again
    rw [← cleared.kept (page n)]
    · exact releases.gone n inside
    · intro m reached same
      obtain rfl := page_inj same
      exact reached.2 skipped
  · intro unmapped
    refine ⟨v₁, d₁, run, fun n inside => ?_, fun x outside => cleared.kept x (within x outside),
      fun f => ?_⟩
    · by_cases skipped : Skipped d (alignUp newsz pteSz) n
      · rw [cleared.kept (page n), unmapped n inside skipped]
        intro m reached same
        obtain rfl := page_inj same
        exact reached.2 skipped
      · exact cleared.gone n ⟨inside, skipped⟩
    · rw [given f]
      refine and_congr_right fun _ => ⟨fun other n inside => ?_, fun other n inside => ?_⟩
      · by_cases skipped : Skipped d (alignUp newsz pteSz) n
        · rw [frameAt, unmapped n inside skipped]
          simp
        · exact other n ⟨inside, skipped⟩
      · exact other n inside.1

theorem Owned.single {q ap : Nat} (sound : Sound rest v) (used : q ∈ v.pages)
    (low : n * pteSz < uaddrSz)
    (entries : lookup d = update (lookup blank) (page n) (some ⟨v2p q % 2 ^ 32, ap⟩)) :
    Owned rest v d := by
  obtain ⟨above, below⟩ := sound.bounds used
  have addr : p2v (v2p q % 2 ^ 32) = q := by
    rw [p2v, v2p, Nat.mod_eq_of_lt (by omega)]
    omega
  have only : ∀ x f, frameAt d x = some f → x = page n ∧ f = q := by
    intro x f has
    rw [frameAt, entries] at has
    by_cases here : x = page n
    · rw [here, update_self, Option.map_some, addr] at has
      exact ⟨here, (Option.some.inj has).symm⟩
    · rw [update_of_ne here] at has
      cases has
  refine ⟨sound, fun x mapped => ⟨n, ?_, low⟩, fun x f has => ?_, fun x y f hx hy => ?_⟩
  · by_contra other
    rw [entries, update_of_ne other] at mapped
    exact mapped rfl
  · rw [(only x f has).2]
    exact used
  · rw [(only x f hx).1, (only y f hy).1]

/-- The first page of an address space is released. -/
theorem first_page_released : ∃ v d, lookup d (page 0) ≠ none ∧
    ∃ v' d', deallocuvm v d 4096 0 = .ok (v', d', 0) ∧
      Releases v d (pagesIn (alignUp 0 pteSz) 4096) v' d' := by
  obtain ⟨s, p, q, d, reach, pages, -, -, -, -, entries, -⟩ := first_process
  obtain ⟨rest, tidy⟩ := reach.tidy
  have owned := Owned.single tidy.sound (pages ▸ Finset.mem_insert_self ..) (by decide) entries
  refine ⟨s.vm, d, ?_, (deallocuvm_releases_iff rest s.vm d owned 4096 0 (by decide)
    (by decide)).mpr ?_⟩
  · rw [entries, Function.update_self]
    exact nofun
  · rintro n ⟨-, below⟩ ⟨-, above, -⟩
    have unit : pteSz = 4096 := rfl
    have start : alignUp 0 pteSz = 0 := rfl
    rw [unit] at below above
    omega

/-- A page at 2 MiB with nothing below it stays mapped when everything below 4 MiB is released. -/
theorem page_left_mapped : ∃ rest v d, Owned rest v d ∧ lookup d (page 512) ≠ none ∧
    ∃ v' d', deallocuvm v d 0x400000 0 = .ok (v', d', 0) ∧
      lookup d' (page 512) = lookup d (page 512) ∧ v'.pages = v.pages := by
  obtain ⟨s, p, q, -, reach, pages, -⟩ := first_process
  obtain ⟨rest, tidy⟩ := reach.tidy
  obtain ⟨d, -, entries, tables⟩ := mappages_page (d := blank) (a := 0x200000) (v2p q % 2 ^ 32)
    apRw10 (by decide) rfl
  rw [show entryOf 0x200000 = page 512 from rfl] at entries
  have owned := Owned.single tidy.sound (pages ▸ Finset.mem_insert_self ..) (by decide) entries
  obtain ⟨v', d', ran, cleared, given⟩ :=
    owned.dealloc (Nat.dvd_zero pteSz) (show 0x400000 ≤ uaddrSz by decide)
  have skipped : Skipped d 0 512 := by
    refine ⟨by decide, by decide, ?_⟩
    rw [Bool.eq_false_iff]
    intro present
    rcases (tables 0 0).mp present with old | ⟨-, here⟩
    · cases old
    · exact absurd here (by decide)
  have missed : ∀ n ∈ reached d 0 0x400000, page 512 ≠ page n := by
    rintro n ⟨-, visited⟩ same
    rw [← page_inj same] at visited
    exact visited skipped
  refine ⟨rest, s.vm, d, owned, ?_, v', d', ?_, cleared.kept _ missed, ?_⟩
  · rw [entries, Function.update_self]
    simp
  · rw [deallocuvm, if_neg (by decide), show alignUp 0 pteSz = 0 from rfl, ran]
    rfl
  · ext f
    rw [given f]
    refine ⟨fun h => h.1, fun used => ⟨used, fun n inside => ?_⟩⟩
    rw [frameAt, entries, Function.update_of_ne (missed n inside).symm]
    simp [lookup_blank]

end

end UserMemory
