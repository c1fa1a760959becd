import PinkyOS.PageTree

/-!
# `copyout`

`copyout` stores a buffer page by page at a user address. As long as the pages are pages of the
user, a run amounts to storing one byte after the other through the page table. It goes astray at
a page whose table is absent: `uva2ka` then takes the word at address 0 for the entry.
-/
namespace UserMemory
open MemoryLayout ByteBuffer Finset

/-- The kernel address behind a user address, if `uva2ka` accepts its page. -/
def userAddr (d : Pgd) (a : Nat) : Option Nat :=
  (getPte d a).bind fun e => if e.ap = apRw10 then some (p2v e.pa + a % pteSz) else none

/-- The `len` bytes from `va` on are bytes of the user. -/
def IsUser (d : Pgd) (va len : Nat) : Prop := ∀ i < len, (userAddr d (va + i)).isSome

/-- The user bytes from `va` on have become `bs`, and nothing else has changed. -/
structure Written (v : Vm) (d : Pgd) (va : Nat) (bs : List UInt8) (v' : Vm) : Prop where
  rest : v' = { v with mem := v'.mem }
  bytes : ∀ i b, bs[i]? = some b → ∃ x, userAddr d (va + i) = some x ∧ v'.mem x = b
  kept : ∀ x, (∀ i < bs.length, userAddr d (va + i) ≠ some x) → v'.mem x = v.mem x

/-- `copyout` stores the buffer, or returns -1 with the buffer stored up to a page boundary. -/
structure Exact (v : Vm) (cur : Option Pgd) (d : Pgd) (va : Nat) (bs : List UInt8) : Prop where
  whole : IsUser d va bs.length →
    ∃ v', copyout v cur d va bs = .ok (v', true) ∧ Written v d va bs v'
  part : ¬ IsUser d va bs.length →
    ∃ v' k, copyout v cur d va bs = .ok (v', false) ∧ k ≤ bs.length ∧ (k = 0 ∨ pteSz ∣ va + k) ∧
      Written v d va (bs.take k) v'

/-- The frames of a page table are page frames in the kernel's part of the memory. -/
def Framed (d : Pgd) : Prop :=
  ∀ a e, getPte d a = some e → pteSz ∣ e.pa ∧ p2v e.pa < 2 ^ 64

/-- The first page that is not a page of the user has a table. -/
def Covered (d : Pgd) (va len : Nat) : Prop :=
  ∀ i < len, IsUser d va i → (walkpgdir d (va + i)).isSome

/-- No two bytes of the user are the same byte of the kernel. -/
def Apart (d : Pgd) (va len : Nat) : Prop :=
  ∀ j < len, IsUser d va (j + 1) → ∀ i < j, userAddr d (va + i) ≠ userAddr d (va + j)

section
variable {v v' : Vm} {cur : Option Pgd} {d : Pgd} {va a b len k x : Nat} {bs : List UInt8}

/-! ### Addresses of one page -/

theorem entryOf_congr (same : a / pteSz = b / pteSz) : entryOf a = entryOf b := by
  rw [pteSz_eq] at same
  simp only [entryOf, pgdIdx, pmdIdx, pteIdx, Nat.shiftRight_eq_div_pow, pgdShift, pmdShift,
    pteShift, Nat.reducePow, Prod.mk.injEq]
  refine ⟨congrArg (· % _) ?_, congrArg (· % _) ?_, congrArg (· % _) same⟩
  · omega
  · omega

theorem getPte_congr (d : Pgd) (same : a / pteSz = b / pteSz) : getPte d a = getPte d b := by
  rw [getPte_eq, getPte_eq, entryOf_congr same]

theorem walkpgdir_congr (d : Pgd) (same : a / pteSz = b / pteSz) :
    walkpgdir d a = walkpgdir d b := by
  have entry := entryOf_congr same
  simp only [entryOf, Prod.mk.injEq] at entry
  rw [walkpgdir_eq, walkpgdir_eq, entry.1, entry.2.1]

theorem alignDn_page (a : Nat) : alignDn a pteSz / pteSz = a / pteSz :=
  Nat.mul_div_cancel _ (by decide)

theorem alignDn_add_mod (a : Nat) : alignDn a pteSz + a % pteSz = a :=
  Nat.div_add_mod' a pteSz

theorem userAddr_eq_some : userAddr d a = some x ↔
    ∃ e, getPte d a = some e ∧ e.ap = apRw10 ∧ x = p2v e.pa + a % pteSz := by
  rw [userAddr, Option.bind_eq_some_iff]
  refine exists_congr fun e => and_congr_right fun _ => ?_
  by_cases user : e.ap = apRw10
  · rw [if_pos user, Option.some.injEq]
    exact ⟨fun h => ⟨user, h.symm⟩, fun h => h.2.symm⟩
  · rw [if_neg user]
    exact ⟨nofun, fun h => absurd h.1 user⟩

theorem isSome_userAddr_congr (d : Pgd) (same : a / pteSz = b / pteSz) :
    (userAddr d a).isSome = (userAddr d b).isSome := by
  rw [userAddr, userAddr, getPte_congr d same]
  cases getPte d b with
  | none => rfl
  | some e =>
    simp only [Option.bind_some]
    split <;> rfl

/-- Bytes of the user that go up to one that is not the user's end at a page boundary. -/
theorem IsUser.boundary (user : IsUser d va k) (gap : userAddr d (va + k) = none) :
    k = 0 ∨ pteSz ∣ va + k := by
  by_cases start : k = 0
  · exact .inl start
  · right
    by_contra within
    have last := user (k - 1) (by omega)
    rw [isSome_userAddr_congr (b := va + k) d (by rw [pteSz_eq] at within ⊢; omega), gap] at last
    cases last

theorem exists_gap (gap : ¬ IsUser d va len) :
    ∃ k < len, IsUser d va k ∧ userAddr d (va + k) = none ∧ (k = 0 ∨ pteSz ∣ va + k) := by
  simp only [IsUser, not_forall, Bool.not_eq_true, Option.isSome_eq_false_iff,
    Option.isNone_iff_eq_none] at gap
  have first : ∃ k, k < len ∧ userAddr d (va + k) = none := by
    obtain ⟨k, inside, none⟩ := gap
    exact ⟨k, inside, none⟩
  classical
  obtain ⟨inside, none⟩ := Nat.find_spec first
  have before : IsUser d va (Nat.find first) := by
    intro i early
    by_contra notUser
    rw [Bool.not_eq_true, Option.isSome_eq_false_iff, Option.isNone_iff_eq_none] at notUser
    exact Nat.find_min first early ⟨early.trans inside, notUser⟩
  exact ⟨_, inside, before, none, before.boundary none⟩

/-! ### One byte after the other -/

/-- The bytes of `bs` stored one after the other through the page table. -/
def poke (d : Pgd) (v : Vm) : Nat → List UInt8 → Vm
  | _, [] => v
  | va, b :: bs => poke d ((userAddr d va).elim v fun x => v.write x [b]) (va + 1) bs

theorem write_nil (v : Vm) (a : Nat) : v.write a [] = v := by
  have same : store v.mem a [] = v.mem := by
    funext x
    simp [store]
  rw [Vm.write, same]

theorem write_cons (v : Vm) (a : Nat) (b : UInt8) (bs : List UInt8) :
    (v.write a [b]).write (a + 1) bs = v.write a (b :: bs) := by
  simp only [Vm.write]
  congr 1
  funext x
  simp only [store]
  rcases Nat.lt_trichotomy x a with below | rfl | above
  · rw [if_neg (by omega), if_neg (by omega), if_neg (by omega)]
  · simp
  · obtain ⟨i, rfl⟩ := Nat.exists_eq_add_of_lt above
    rw [if_pos (by omega), if_pos (by omega), if_pos (by omega),
      show a + i + 1 - (a + 1) = i by omega, show a + i + 1 - a = i + 1 by omega]
    simp

theorem write_single (v : Vm) (a : Nat) (b : UInt8) (x : Nat) :
    (v.write a [b]).mem x = if x = a then b else v.mem x := by
  simp only [Vm.write, store]
  rcases Nat.lt_trichotomy x a with below | rfl | above
  · rw [if_neg (by omega), if_neg (by omega)]
  · simp
  · obtain ⟨i, rfl⟩ := Nat.exists_eq_add_of_lt above
    rw [if_pos (by omega), if_neg (by omega), show a + i + 1 - a = i + 1 by omega]
    simp

/-- Within one page this is one `memmove`. -/
theorem poke_page {e : Pte} (entry : getPte d va = some e) (user : e.ap = apRw10)
    (fits : va % pteSz + bs.length ≤ pteSz) (v : Vm) :
    poke d v va bs = v.write (p2v e.pa + va % pteSz) bs := by
  induction bs generalizing v va with
  | nil => rw [poke, write_nil]
  | cons b bs ih =>
    have addr : userAddr d va = some (p2v e.pa + va % pteSz) :=
      userAddr_eq_some.mpr ⟨e, entry, user, rfl⟩
    rw [poke, addr, Option.elim_some]
    cases bs with
    | nil => rfl
    | cons c bs =>
      rw [pteSz_eq] at fits
      simp only [List.length_cons] at fits
      have next : (va + 1) % pteSz = va % pteSz + 1 := by
        rw [pteSz_eq]
        omega
      rw [ih, next, ← Nat.add_assoc, write_cons]
      · rw [← entry]
        apply getPte_congr
        rw [pteSz_eq]
        omega
      · simp only [List.length_cons]
        rw [next, pteSz_eq]
        omega

theorem poke_append (d : Pgd) (v : Vm) (va : Nat) (xs ys : List UInt8) :
    poke d v va (xs ++ ys) = poke d (poke d v va xs) (va + xs.length) ys := by
  induction xs generalizing v va with
  | nil => rfl
  | cons x xs ih =>
    rw [List.cons_append, poke, poke, ih, List.length_cons, Nat.add_right_comm, Nat.add_assoc]

theorem poke_rest (d : Pgd) (v : Vm) (va : Nat) (bs : List UInt8) :
    poke d v va bs = { v with mem := (poke d v va bs).mem } := by
  induction bs generalizing v va with
  | nil => rfl
  | cons b bs ih =>
    rw [poke, ih]
    cases userAddr d va <;> rfl

theorem poke_kept (other : ∀ i < bs.length, userAddr d (va + i) ≠ some x) :
    (poke d v va bs).mem x = v.mem x := by
  induction bs generalizing v va with
  | nil => rfl
  | cons b bs ih =>
    have here := other 0 (Nat.succ_pos _)
    rw [Nat.add_zero] at here
    rw [poke, ih]
    · cases addr : userAddr d va with
      | none => rfl
      | some y =>
        rw [addr, ne_eq, Option.some.injEq] at here
        rw [Option.elim_some, write_single, if_neg (Ne.symm here)]
    · intro i inside
      rw [Nat.add_right_comm, Nat.add_assoc]
      exact other (i + 1) (Nat.succ_lt_succ inside)

/-- A byte of the kernel that is stored to holds what was stored there last. -/
theorem poke_last {j : Nat} (inside : j < bs.length) (addr : userAddr d (va + j) = some x) :
    ∃ l b, j ≤ l ∧ bs[l]? = some b ∧ userAddr d (va + l) = some x ∧
      (poke d v va bs).mem x = b := by
  induction bs generalizing v va j with
  | nil => cases inside
  | cons b bs ih =>
    have shift : ∀ i, va + 1 + i = va + (i + 1) := fun i => by omega
    by_cases later : ∃ i < bs.length, j ≤ i + 1 ∧ userAddr d (va + (i + 1)) = some x
    · obtain ⟨i, less, after, again⟩ := later
      obtain ⟨l, c, beyond, byte, last, mem⟩ := ih less (by rw [shift, again])
      rw [shift] at last
      exact ⟨l + 1, c, by omega, byte, last, mem⟩
    · cases j with
      | succ j => exact absurd ⟨j, Nat.lt_of_succ_lt_succ inside, Nat.le_refl _, addr⟩ later
      | zero =>
        refine ⟨0, b, Nat.le_refl _, rfl, addr, ?_⟩
        rw [Nat.add_zero] at addr
        rw [poke, poke_kept, addr, Option.elim_some, write_single, if_pos rfl]
        intro i less again
        rw [shift] at again
        exact later ⟨i, less, Nat.zero_le _, again⟩

theorem Apart.written (apart : Apart d va bs.length) (user : IsUser d va bs.length) (v : Vm) :
    Written v d va bs (poke d v va bs) where
  rest := poke_rest d v va bs
  bytes i b byte := by
    obtain ⟨inside, -⟩ := List.getElem?_eq_some_iff.mp byte
    obtain ⟨x, addr⟩ := Option.isSome_iff_exists.mp (user i inside)
    obtain ⟨l, c, after, last, again, mem⟩ := poke_last (v := v) inside addr
    obtain ⟨less, -⟩ := List.getElem?_eq_some_iff.mp last
    have same : l = i := by
      by_contra other
      refine apart l less (fun n h => user n (by omega)) i (by omega) ?_
      rw [addr, again]
    rw [same, byte] at last
    cases last
    exact ⟨x, addr, mem⟩
  kept x other := poke_kept other

/-! ### The loop of `copyout` -/

theorem uva2ka_user {e : Pte} (entry : getPte d a = some e) (user : e.ap = apRw10) (v : Vm)
    (cur : Option Pgd) : uva2ka v cur d a = .ok (some (p2v e.pa)) := by
  obtain ⟨pt, table, slot⟩ := Option.bind_eq_some_iff.mp entry
  simp [uva2ka, table, slot, user]

theorem uva2ka_none (gap : userAddr d a = none) (table : (walkpgdir d a).isSome) (v : Vm)
    (cur : Option Pgd) : uva2ka v cur d a = .ok none := by
  obtain ⟨pt, found⟩ := Option.isSome_iff_exists.mp table
  rw [userAddr, getPte, found, Option.bind_some] at gap
  rw [uva2ka, found]
  dsimp only
  cases slot : pt (pteIdx a) with
  | none => rfl
  | some e =>
    rw [slot, Option.bind_some] at gap
    dsimp only
    by_cases user : e.ap = apRw10
    · rw [if_pos user] at gap
      cases gap
    · rw [if_pos user]

theorem copyout_nil (v : Vm) (cur : Option Pgd) (d : Pgd) (va : Nat) :
    copyout v cur d va [] = .ok (v, true) := by
  rw [copyout.eq_def, if_neg (by simp)]

/-- Over bytes of the user, up to a page boundary or to the end of the buffer, the loop stores one
byte after the other. -/
theorem copyout_user (user : IsUser d va k) (le : k ≤ bs.length)
    (stop : k = bs.length ∨ k = 0 ∨ pteSz ∣ va + k) (small : va + bs.length ≤ 2 ^ 32) :
    copyout v cur d va bs = copyout (poke d v va (bs.take k)) cur d (va + k) (bs.drop k) := by
  induction len : bs.length using Nat.strong_induction_on generalizing v va k bs with
  | _ n ih =>
    subst len
    rcases Nat.eq_zero_or_pos k with rfl | some
    · rfl
    have split := alignDn_add_mod va
    obtain ⟨x, addr⟩ := Option.isSome_iff_exists.mp (user 0 some)
    rw [Nat.add_zero] at addr
    obtain ⟨e, entry, ap, -⟩ := userAddr_eq_some.mp addr
    have start : getPte d (alignDn va pteSz) = .some e := by
      rw [getPte_congr d (alignDn_page va), entry]
    rw [copyout.eq_def v, if_pos (by omega)]
    dsimp only
    rw [uva2ka_user start ap]
    dsimp only
    rw [show va - alignDn va pteSz = va % pteSz by omega]
    generalize hm : min (pteSz - va % pteSz) bs.length = m
    have offset : va % pteSz < pteSz := Nat.mod_lt _ (by decide)
    have mk : m ≤ k := by
      rcases stop with rfl | zero | ⟨q, stop⟩
      · omega
      · omega
      · rw [pteSz_eq] at hm offset stop
        omega
    rw [← poke_page entry ap (by rw [List.length_take]; omega)]
    have parts : bs.take k = bs.take m ++ (bs.drop m).take (k - m) := by
      rw [← List.take_add, Nat.add_sub_cancel' mk]
    have whole : bs.drop k = (bs.drop m).drop (k - m) := by
      rw [List.drop_drop, Nat.add_sub_cancel' mk]
    rcases Nat.eq_or_lt_of_le (show m ≤ bs.length by omega) with all | more
    · have same : k = m := by omega
      rw [same, all, List.drop_length, copyout_nil, copyout_nil]
    · have next : (alignDn va pteSz + pteSz) % 2 ^ 32 = va + m := by
        rw [Nat.mod_eq_of_lt]
        · omega
        · omega
      rw [next, ih (bs.drop m).length _ (k := k - m) _ _ _ _ rfl, parts, whole, poke_append,
        List.length_take, Nat.min_eq_left more.le, Nat.add_assoc, Nat.add_sub_cancel' mk]
      · rw [List.length_drop]
        omega
      · intro i inside
        rw [Nat.add_assoc]
        exact user (m + i) (by omega)
      · rw [List.length_drop]
        omega
      · rw [List.length_drop, Nat.add_assoc, Nat.add_sub_cancel' mk]
        omega
      · rw [List.length_drop]
        omega

theorem copyout_whole (user : IsUser d va bs.length) (small : va + bs.length ≤ 2 ^ 32) :
    copyout v cur d va bs = .ok (poke d v va bs, true) := by
  rw [copyout_user user (Nat.le_refl _) (.inl rfl) small, List.drop_length, List.take_length,
    copyout_nil]

/-- At a page that is not the user's and has a table, `copyout` gives up. -/
theorem copyout_part (user : IsUser d va k) (less : k < bs.length)
    (stop : k = 0 ∨ pteSz ∣ va + k) (small : va + bs.length ≤ 2 ^ 32)
    (gap : userAddr d (va + k) = none) (table : (walkpgdir d (va + k)).isSome) :
    copyout v cur d va bs = .ok (poke d v va (bs.take k), false) := by
  have start : uva2ka (poke d v va (bs.take k)) cur d (alignDn (va + k) pteSz) = .ok none := by
    apply uva2ka_none
    · have same := isSome_userAddr_congr d (alignDn_page (va + k))
      rw [gap] at same
      exact Option.isNone_iff_eq_none.mp (Option.isSome_eq_false_iff.mp same)
    · rwa [walkpgdir_congr d (alignDn_page (va + k))]
  rw [copyout_user user less.le (.inr stop) small, copyout.eq_def,
    if_pos (by rw [List.length_drop]; omega)]
  dsimp only
  rw [start]

theorem Covered.run (covered : Covered d va bs.length) (gap : ¬ IsUser d va bs.length)
    (small : va + bs.length ≤ 2 ^ 32) :
    ∃ k < bs.length, IsUser d va k ∧ (k = 0 ∨ pteSz ∣ va + k) ∧ userAddr d (va + k) = none ∧
      ∀ v, copyout v cur d va bs = .ok (poke d v va (bs.take k), false) := by
  obtain ⟨k, less, user, none, stop⟩ := exists_gap gap
  exact ⟨k, less, user, stop, none,
    fun _ => copyout_part user less stop small none (covered k less user)⟩

/-! ### A page without a table -/

/-- A memory full of the word `w`: what it has at `x`. -/
def stripe (w x : Nat) : UInt8 := (leBytes 8 w).getD (x % 8) 0

theorem stripe_congr {w y : Nat} (same : x % 8 = y % 8) : stripe w x = stripe w y := by
  rw [stripe, stripe, same]

theorem ofLE_read_stripe {w : Nat} (small : w < 2 ^ 64) (aligned : 8 ∣ a)
    (mem : ∀ i < 8, v.mem (a + i) = stripe w (a + i)) : ofLE (v.read a 8) = w := by
  have word : v.read a 8 = leBytes 8 w := by
    apply List.ext_getElem
    · simp [Vm.read]
    · intro i inside inside'
      rw [length_leBytes] at inside'
      have index : (a + i) % 8 = i := by omega
      simp only [Vm.read, List.getElem_map, List.getElem_range]
      rw [mem i inside', stripe, index, List.getD_eq_getElem?_getD, List.getElem?_eq_getElem,
        Option.getD_some]
  rw [word, ofLE_leBytes small]

theorem Framed.uva2ka_aligned (framed : Framed d) (found : uva2ka v cur d a = .ok (some x)) :
    pteSz ∣ x := by
  have base : pteSz ∣ kernBase := by decide
  rw [uva2ka] at found
  split at found
  case h_1 =>
    split at found
    case h_1 => cases found
    case h_2 w _ =>
      rw [Except.ok.injEq, entryAddr] at found
      split at found
      · cases found
      · split at found
        · cases found
        · rw [Option.some.injEq] at found
          obtain ⟨q, start⟩ : pteSz ∣ p2v (alignDn w pteSz) :=
            Nat.dvd_add (Nat.dvd_mul_left _ _) base
          rw [start, pteSz_eq] at found
          rw [pteSz_eq]
          omega
  case h_2 pt table =>
    split at found
    case h_1 => cases found
    case h_2 e slot =>
      rw [Except.ok.injEq] at found
      split at found
      · cases found
      · cases found
        have entry : getPte d a = some e := by
          rw [getPte, table]
          exact slot
        exact Nat.dvd_add (framed a e entry).1 base

/-- Copying a part of a memory full of `w` stores nothing but parts of `w`, wherever the bytes
go. -/
theorem Framed.copyout_stripe {w : Nat} {r : Bool} (framed : Framed d)
    (striped : ∀ i b, bs[i]? = some b → b = stripe w (va + i))
    (run : copyout v cur d va bs = .ok (v', r)) (x : Nat) :
    v'.mem x = v.mem x ∨ v'.mem x = stripe w x := by
  fun_induction copyout v cur d va bs with
  | case1 => cases run
  | case2 =>
    cases run
    exact .inl rfl
  | case3 v va bs some va0 pa0 found n ih =>
    have split : va0 + va % pteSz = va := alignDn_add_mod va
    have count : n = min (pteSz - (va - va0)) bs.length := rfl
    have offset : va % pteSz < pteSz := Nat.mod_lt _ (by decide)
    obtain ⟨q, frame⟩ := framed.uva2ka_aligned found
    rw [pteSz_eq] at split count offset frame
    have next : ∀ i b, (bs.drop n)[i]? = .some b → b = stripe w ((va0 + pteSz) % 2 ^ 32 + i) := by
      intro i b byte
      rw [List.getElem?_drop] at byte
      obtain ⟨inside, -⟩ := List.getElem?_eq_some_iff.mp byte
      rw [striped _ b byte, pteSz_eq]
      apply stripe_congr
      omega
    rcases ih next run with kept | done
    · rw [kept]
      simp only [Vm.write, store]
      split
      case isTrue above =>
        cases byte : (bs.take n)[x - (pa0 + (va - va0))]? with
        | none => exact .inl rfl
        | some b =>
          right
          rw [List.getElem?_take] at byte
          split at byte
          · rw [Option.getD_some, striped _ b byte]
            apply stripe_congr
            omega
          · cases byte
      case isFalse => exact .inl rfl
    · exact .inr done
  | case4 =>
    cases run
    exact .inl rfl

theorem entryAddr_page {n : Nat} (nonzero : p2v (pteSz * n) % 2 ^ 64 ≠ 0) :
    entryAddr (pteSz * n + 0x43) = some (p2v (pteSz * n) % 2 ^ 64) := by
  have ap : (pteSz * n + 0x43) &&& apMask = apRw10 := by
    have low : (pteSz * n + 0x43) % 2 ^ 12 = 0x43 := by
      rw [pteSz_eq]
      omega
    have bound : (pteSz * n + 0x43) &&& apMask < 2 ^ 12 :=
      Nat.and_lt_two_pow _ (show apMask < 2 ^ 12 by decide)
    rw [← Nat.mod_eq_of_lt bound, Nat.and_mod_two_pow, low]
    rfl
  have start : alignDn (pteSz * n + 0x43) pteSz = pteSz * n := by
    rw [alignDn, pteSz_eq]
    omega
  rw [entryAddr, ap, start, if_neg, if_neg nonzero]
  rw [pteSz_eq]
  omega

theorem exists_page_notMem {S : Finset Nat} (few : S.card < 2 ^ 36) :
    ∃ n < 2 ^ 36, p2v (pteSz * n) % 2 ^ 64 ∉ S := by
  have inj : Set.InjOn (fun n => p2v (pteSz * n) % 2 ^ 64) (range (2 ^ 36)) := by
    intro n hn m hm same
    have base : kernBase = 0xFFFFFFFF00000000 := rfl
    simp only [coe_range, Set.mem_Iio] at hn hm
    simp only [p2v, pteSz_eq, base] at same
    omega
  have many := card_image_of_injOn inj
  rw [card_range] at many
  obtain ⟨x, isPage, other⟩ := exists_mem_notMem_of_card_lt_card (few.trans_eq many.symm)
  obtain ⟨n, less, rfl⟩ := mem_image.mp isPage
  exact ⟨n, mem_range.mp less, other⟩

theorem wordAtZero_stripe {cur : Pgd} {e : Pte} {w : Nat} (entry : getPte cur 0 = some e)
    (aligned : pteSz ∣ e.pa) (small : w < 2 ^ 64)
    (mem : ∀ i < 8, v.mem (p2v e.pa + i) = stripe w (p2v e.pa + i)) :
    wordAtZero v (some cur) = some w := by
  have frame : 8 ∣ p2v e.pa := Nat.dvd_add ((show 8 ∣ pteSz by decide).trans aligned) (by decide)
  rw [wordAtZero, Option.bind_some, entry, Option.map_some, ofLE_read_stripe small frame mem]

theorem succ_ne_self (b : UInt8) : b + 1 ≠ b := by
  intro same
  have nat := congrArg UInt8.toNat same
  rw [UInt8.toNat_add] at nat
  have := b.toNat_lt
  simp only [UInt8.reduceToNat] at nat
  omega

/-- A word that `uva2ka` takes for an entry, with a page that neither the range nor `p` has. -/
theorem exists_wild (d : Pgd) (va p : Nat) (few : len ≤ 2 ^ 32) :
    ∃ w X, w < 2 ^ 64 ∧ entryAddr w = some X ∧ pteSz ∣ X ∧ X ≠ p ∧
      ∀ i < len, ∀ y, userAddr d (va + i) = some y → alignDn y pteSz ≠ X := by
  have base : kernBase = 0xFFFFFFFF00000000 := rfl
  let taken := (range len).image fun i => alignDn ((userAddr d (va + i)).getD 0) pteSz
  have card : (insert p (insert 0 taken)).card < 2 ^ 36 := by
    have ranges : taken.card ≤ len := card_image_le.trans_eq (card_range len)
    have one := card_insert_le 0 taken
    have two := card_insert_le p (insert 0 taken)
    omega
  obtain ⟨n, below, fresh⟩ := exists_page_notMem card
  rw [mem_insert, mem_insert, not_or, not_or] at fresh
  obtain ⟨notP, nonzero, other⟩ := fresh
  refine ⟨pteSz * n + 0x43, _, ?_, entryAddr_page nonzero, ?_, notP, fun i inside y addr same => ?_⟩
  · rw [pteSz_eq]
    omega
  · rw [p2v, pteSz_eq, base]
    omega
  · refine other (mem_image.mpr ⟨i, mem_range.mpr inside, ?_⟩)
    rw [addr, Option.getD_some, same]

theorem not_isUser_of_absent (less : k < len) (absent : walkpgdir d (va + k) = none) :
    ¬ IsUser d va len := by
  intro all
  have here := all k less
  rw [userAddr, getPte, absent] at here
  cases here

section gap
variable (user : IsUser d va k) (less : k < bs.length) (stop : k = 0 ∨ pteSz ∣ va + k)
  (small : va + bs.length ≤ 2 ^ 32) (absent : walkpgdir d (va + k) = none)
include user less stop small absent

theorem copyout_abort (closed : ∀ u, wordAtZero u cur = none) :
    copyout v cur d va bs = .error .abort := by
  have start : uva2ka (poke d v va (bs.take k)) cur d (alignDn (va + k) pteSz) =
      .error .abort := by
    rw [uva2ka, walkpgdir_congr d (alignDn_page (va + k)), absent]
    dsimp only
    rw [closed]
  rw [copyout_user user less.le (.inr stop) small, copyout.eq_def,
    if_pos (by rw [List.length_drop]; omega)]
  dsimp only
  rw [start]

/-- At a page without a table the bytes go where the word at address 0 says. -/
theorem copyout_wild {w X : Nat} (word : wordAtZero (poke d v va (bs.take k)) cur = some w)
    (target : entryAddr w = some X) :
    ∃ n > 0, (n = bs.length - k ∨ alignDn (va + k) pteSz + pteSz = va + k + n) ∧
      copyout v cur d va bs =
        copyout ((poke d v va (bs.take k)).write (X + (va + k) % pteSz) ((bs.drop k).take n)) cur d
          ((alignDn (va + k) pteSz + pteSz) % 2 ^ 32) ((bs.drop k).drop n) := by
  have split := alignDn_add_mod (va + k)
  have offset : (va + k) % pteSz < pteSz := Nat.mod_lt _ (by decide)
  have start : uva2ka (poke d v va (bs.take k)) cur d (alignDn (va + k) pteSz) =
      .ok (some X) := by
    rw [uva2ka, walkpgdir_congr d (alignDn_page (va + k)), absent]
    dsimp only
    rw [word]
    dsimp only
    rw [target]
  refine ⟨min (pteSz - (va + k) % pteSz) (bs.drop k).length, ?_, ?_, ?_⟩
  · rw [List.length_drop]
    omega
  · rw [List.length_drop]
    omega
  · rw [copyout_user user less.le (.inr stop) small, copyout.eq_def,
      if_pos (by rw [List.length_drop]; omega)]
    dsimp only
    rw [start]
    dsimp only
    rw [show va + k - alignDn (va + k) pteSz = (va + k) % pteSz by omega]

end gap

/-- A memory full of a word that `uva2ka` takes for an entry sends the bytes to a page that is
not in the range. -/
theorem not_exact_of_word {c : Pgd} {e : Pte} (framed : Framed d) (entry : getPte c 0 = some e)
    (aligned : pteSz ∣ e.pa) (user : IsUser d va k) (less : k < len)
    (stop : k = 0 ∨ pteSz ∣ va + k) (small : va + len ≤ 2 ^ 32)
    (absent : walkpgdir d (va + k) = none) (v : Vm) :
    ∃ mem bs, bs.length = len ∧ ¬ Exact { v with mem := mem } (some c) d va bs := by
  obtain ⟨w, X, word, target, isPage, notZero, outside⟩ := exists_wild d va (p2v e.pa) (by omega)
  let mem := fun x => if alignDn x pteSz = X then stripe w x + 1 else stripe w x
  let bs := (List.range len).map fun i => stripe w (va + i)
  have length : bs.length = len := by simp [bs]
  have striped : ∀ i b, bs[i]? = some b → b = stripe w (va + i) := by
    intro i b byte
    obtain ⟨inside, rfl⟩ := List.getElem?_eq_some_iff.mp byte
    simp [bs]
  refine ⟨mem, bs, length, fun exact => ?_⟩
  clear_value bs
  subst length
  obtain ⟨v', l, run, le, -, written⟩ := exact.part (not_isUser_of_absent less absent)
  -- the word at address 0 is still `w` when the run comes to the page without a table
  have earlier : copyout { v with mem := mem } (some c) d va (bs.take k) =
      .ok (poke d { v with mem := mem } va (bs.take k), true) := by
    apply copyout_whole
    · rwa [List.length_take, Nat.min_eq_left less.le]
    · rw [List.length_take]
      omega
  have atZero : wordAtZero (poke d { v with mem := mem } va (bs.take k)) (some c) = some w := by
    refine wordAtZero_stripe entry aligned word fun i inside => ?_
    have keep := framed.copyout_stripe (w := w) (fun i b byte => ?_) earlier (p2v e.pa + i)
    · rcases keep with same | stored
      · rw [same]
        apply if_neg
        obtain ⟨q, frame⟩ : pteSz ∣ p2v e.pa := Nat.dvd_add aligned (by decide)
        obtain ⟨r, page⟩ := isPage
        rw [alignDn]
        rw [pteSz_eq] at frame page ⊢
        omega
      · exact stored
    · rw [List.getElem?_take] at byte
      split at byte
      · exact striped i b byte
      · cases byte
  obtain ⟨n, count, ends, next⟩ := copyout_wild user less stop small absent atZero target
  rw [next] at run
  -- so the byte for `va + k` is stored outside of the range, and stays there
  have offset : (va + k) % pteSz < pteSz := Nat.mod_lt _ (by decide)
  have here : alignDn (X + (va + k) % pteSz) pteSz = X := by
    obtain ⟨r, page⟩ := isPage
    rw [alignDn]
    rw [pteSz_eq] at page offset ⊢
    omega
  have kept : v'.mem (X + (va + k) % pteSz) = stripe w (X + (va + k) % pteSz) + 1 := by
    rw [written.kept]
    · exact if_pos here
    · intro i inside addr
      rw [List.length_take] at inside
      exact outside i (by omega) _ addr here
  have first : bs[k]? = some (stripe w (va + k)) := by
    rw [List.getElem?_eq_getElem less]
    exact congrArg _ (striped k _ (List.getElem?_eq_getElem less))
  have stored : ∀ u : Vm, (u.write (X + (va + k) % pteSz) ((bs.drop k).take n)).mem
      (X + (va + k) % pteSz) = stripe w (X + (va + k) % pteSz) := by
    intro u
    simp only [Vm.write, store]
    rw [if_pos (Nat.le_refl _), Nat.sub_self, List.getElem?_take_of_lt count, List.getElem?_drop,
      Nat.add_zero, first, Option.getD_some]
    obtain ⟨r, page⟩ := isPage
    apply stripe_congr
    rw [pteSz_eq] at page ⊢
    omega
  have final := framed.copyout_stripe (w := w) (fun i b byte => ?_) run (X + (va + k) % pteSz)
  · rw [stored, or_self, kept] at final
    exact succ_ne_self _ final
  · rw [List.drop_drop, List.getElem?_drop] at byte
    obtain ⟨inside, -⟩ := List.getElem?_eq_some_iff.mp byte
    rw [striped _ b byte]
    apply stripe_congr
    omega

/-! ### Two bytes that are one -/

/-- Where two bytes of the user are the same byte of the kernel, only one of them can be had. -/
theorem not_written_of_alias {i j m l : Nat} (before : i < j) (beyond : j < m) (le : m ≤ len)
    (addr : userAddr d (va + i) = some x) (again : userAddr d (va + j) = some x)
    (early : ∀ h < i, userAddr d (va + h) ≠ some x) {v : Vm} (mem : v.mem x = 2)
    {bs : List UInt8} (marked : ∀ h b, bs[h]? = some b → b = if h = i then 0 else 1)
    (length : bs.length = len) : ¬ Written v d va (bs.take l) (poke d v va (bs.take m)) := by
  intro written
  have inside : j < (bs.take m).length := by
    rw [List.length_take]
    omega
  obtain ⟨h, b, after, byte, -, last⟩ := poke_last (v := v) inside again
  have one : b = 1 := by
    rw [List.getElem?_take] at byte
    split at byte
    · rw [marked h b byte, if_neg (by omega)]
    · cases byte
  rw [one] at last
  by_cases far : i < l
  · have zero : (bs.take l)[i]? = some 0 := by
      rw [List.getElem?_take_of_lt far, List.getElem?_eq_getElem (by omega)]
      rw [marked i _ (List.getElem?_eq_getElem (by omega)), if_pos rfl]
    obtain ⟨y, same, stored⟩ := written.bytes i 0 zero
    rw [addr] at same
    cases same
    rw [last] at stored
    exact absurd stored (by decide)
  · have kept := written.kept x fun h less => early h (by rw [List.length_take] at less; omega)
    rw [last, mem] at kept
    exact absurd kept (by decide)

theorem not_exact_of_alias {i j : Nat} (covered : Covered d va len) (small : va + len ≤ 2 ^ 32)
    (inside : j < len) (user : IsUser d va (j + 1)) (before : i < j)
    (same : userAddr d (va + i) = userAddr d (va + j)) (v : Vm) :
    ∃ mem bs, bs.length = len ∧ ¬ Exact { v with mem := mem } cur d va bs := by
  obtain ⟨x, again⟩ := Option.isSome_iff_exists.mp (user j (Nat.lt_succ_self j))
  have some : ∃ i, userAddr d (va + i) = some x := ⟨i, same.trans again⟩
  classical
  have start : Nat.find some < j := (Nat.find_min' some (same.trans again)).trans_lt before
  let bs : List UInt8 := (List.range len).map fun h => if h = Nat.find some then 0 else 1
  have length : bs.length = len := by simp [bs]
  have marked : ∀ h b, bs[h]? = .some b → b = if h = Nat.find some then 0 else 1 := by
    intro h b byte
    obtain ⟨inside, rfl⟩ := List.getElem?_eq_some_iff.mp byte
    simp [bs]
  clear_value bs
  subst length
  refine ⟨fun _ => 2, bs, rfl, fun exact => ?_⟩
  have never : ∀ l m, j < m → m ≤ bs.length → ¬ Written { v with mem := fun _ => 2 } d va
      (bs.take l) (poke d { v with mem := fun _ => 2 } va (bs.take m)) :=
    fun l m beyond le => not_written_of_alias start beyond le (Nat.find_spec some) again
      (fun h early => Nat.find_min some early) rfl marked rfl
  by_cases all : IsUser d va bs.length
  · obtain ⟨v', run, written⟩ := exact.whole all
    rw [copyout_whole all small] at run
    cases run
    have := never bs.length bs.length inside (Nat.le_refl _)
    rw [List.take_length] at this
    exact this written
  · obtain ⟨v', l, run, -, -, written⟩ := exact.part all
    obtain ⟨k, less, -, -, gap, ran⟩ := covered.run all small
    rw [ran] at run
    cases run
    refine never l k ?_ less.le written
    by_contra near
    have here := user k (by omega)
    rw [gap] at here
    cases here

/-! ### When `copyout` is exact -/

theorem Covered.of_exact (framed : Framed d) (framedCur : ∀ c, cur = some c → Framed c)
    (small : va + len ≤ 2 ^ 32)
    (exact : ∀ mem bs, bs.length = len → Exact { v with mem := mem } cur d va bs) :
    Covered d va len := by
  intro i inside user
  by_contra absent
  rw [Bool.not_eq_true, Option.isSome_eq_false_iff, Option.isNone_iff_eq_none] at absent
  have stop := user.boundary (by rw [userAddr, getPte, absent]; rfl)
  cases zero : cur.bind fun c => getPte c 0 with
  | none =>
    have closed : ∀ u, wordAtZero u cur = none := by
      intro u
      cases cur with
      | none => rfl
      | some c =>
        rw [wordAtZero, Option.bind_some, show getPte c 0 = none from zero, Option.map_none]
    have length : (List.replicate len (0 : UInt8)).length = len := List.length_replicate
    obtain ⟨v', l, run, -⟩ := (exact v.mem _ length).part
      (length.symm ▸ not_isUser_of_absent inside absent)
    rw [copyout_abort user (length.symm ▸ inside) stop (length.symm ▸ small) absent closed] at run
    cases run
  | some e =>
    obtain ⟨c, rfl, entry⟩ := Option.bind_eq_some_iff.mp zero
    obtain ⟨mem, bs, length, not⟩ := not_exact_of_word framed entry
      (framedCur c rfl 0 e entry).1 user inside stop small absent v
    exact not (exact mem bs length)

/-- An address space of one page. -/
theorem exists_onePage : ∃ d, Framed d ∧ getPte d 0 = some ⟨0x200000, apRw10⟩ ∧
    walkpgdir d 0x200000 = none := by
  obtain ⟨d, -, entries, tables⟩ := mappages_page (d := blank) (a := 0) 0x200000 apRw10
    (by decide) rfl
  refine ⟨d, fun a e entry => ?_, ?_, ?_⟩
  · rw [getPte_eq, entries] at entry
    by_cases here : entryOf a = entryOf 0
    · rw [here, Function.update_self, Option.some.injEq] at entry
      rw [← entry]
      decide
    · rw [Function.update_of_ne here] at entry
      cases entry
  · rw [getPte_eq, entries, Function.update_self]
  · rw [walkpgdir_eq, ← Option.not_isSome_iff_eq_none, tables]
    rintro (old | ⟨-, here⟩)
    · cases old
    · exact absurd here (by decide)

end

end UserMemory
