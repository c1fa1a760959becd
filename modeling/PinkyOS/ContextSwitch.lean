import Mathlib

/-!
# `context_switch`

The instructions of `mm_context.S` on a machine with 64-bit registers and a memory of 64-bit words.
`x 30` is the link register. Each context saves its registers upwards from its stack pointer.
-/
namespace ContextSwitch

structure Cpu where
  x : Nat → BitVec 64
  sp : BitVec 64
  pc : BitVec 64
  mem : BitVec 64 → BitVec 64

namespace Cpu

/-- `stp xa, xb, [sp]` -/
def stp (a b : Nat) (s : Cpu) : Cpu :=
  { s with mem := Function.update (Function.update s.mem s.sp (s.x a)) (s.sp + 8) (s.x b) }

/-- `ldp xa, xb, [sp]` -/
def ldp (a b : Nat) (s : Cpu) : Cpu :=
  { s with x := Function.update (Function.update s.x a (s.mem s.sp)) b (s.mem (s.sp + 8)) }

def str (a : Nat) (s : Cpu) : Cpu :=
  { s with mem := Function.update s.mem s.sp (s.x a) }

def ldr (a : Nat) (s : Cpu) : Cpu :=
  { s with x := Function.update s.x a (s.mem s.sp) }

/-- The post-index `#16`. -/
def post (s : Cpu) : Cpu :=
  { s with sp := s.sp + 16 }

def save (s : Cpu) : Cpu :=
  let s := { s with x := Function.update s.x 16 s.sp }
  let s := (s.stp 19 20).post
  let s := (s.stp 21 22).post
  let s := (s.stp 23 24).post
  let s := (s.stp 25 26).post
  let s := (s.stp 27 28).post
  (s.stp 29 16).str 30

def restore (s : Cpu) : Cpu :=
  let s := (s.ldp 19 20).post
  let s := (s.ldp 21 22).post
  let s := (s.ldp 23 24).post
  let s := (s.ldp 25 26).post
  let s := (s.ldp 27 28).post
  let s := (s.ldp 29 16).ldr 30
  { s with sp := s.x 16, pc := s.x 30 }

/-- `mov sp, x1` -/
def load (s : Cpu) : Cpu :=
  { s with sp := s.x 1 }

def contextSwitch (s : Cpu) : Cpu :=
  s.save.load.restore

end Cpu

open Cpu

variable {own : BitVec 64 → Prop}

/-- The words of a save block, for `k < 12`. -/
def slot (base : BitVec 64) (k : Nat) : BitVec 64 := base + BitVec.ofNat 64 (8 * k)

/-- What the block holds in the end: the slot of `x29` is overwritten with the link register. -/
def saved (s : Cpu) (k : Nat) : BitVec 64 :=
  if k < 10 then s.x (19 + k) else if k = 10 then s.x 30 else s.sp

theorem save_mem_slot (s : Cpu) {k : Nat} (hk : k < 12) : s.save.mem (slot s.sp k) = saved s k := by
  interval_cases k
  all_goals simp [save, stp, str, post, slot, saved, BitVec.add_assoc]

theorem save_mem_frame (s : Cpu) {a : BitVec 64} (h : ∀ k < 12, a ≠ slot s.sp k) :
    s.save.mem a = s.mem a := by
  simp only [Nat.forall_lt_succ_right, Nat.not_lt_zero, slot] at h
  simp_all [save, stp, str, post, BitVec.add_assoc]

theorem restore_x (s : Cpu) {k : Nat} (hk : k < 10) :
    s.restore.x (19 + k) = s.mem (slot s.sp k) := by
  interval_cases k
  all_goals simp [restore, ldp, ldr, post, slot, BitVec.add_assoc]

theorem restore_rest (s : Cpu) : s.restore.x 29 = s.mem (slot s.sp 10) ∧
    s.restore.pc = s.mem (slot s.sp 10) ∧ s.restore.sp = s.mem (slot s.sp 11) := by
  simp [restore, ldp, ldr, post, slot, BitVec.add_assoc]

/-- Other contexts run and switch among themselves without touching the words of `own`. -/
inductive Others (own : BitVec 64 → Prop) (s : Cpu) : Cpu → Prop
  | start : Others own s s
  | work {t u : Cpu} (before : Others own s t) (frame : ∀ a, own a → u.mem a = t.mem a) :
      Others own s u
  | switch {t : Cpu} (before : Others own s t) (apart : ∀ k < 12, ¬ own (slot t.sp k)) :
      Others own s t.contextSwitch

theorem contextSwitch_mem (s : Cpu) : s.contextSwitch.mem = s.save.mem := rfl

theorem load_sp (s : Cpu) : s.save.load.sp = s.x 1 := by
  simp [load, save, stp, str, post]

theorem switch_frame {t : Cpu} (apart : ∀ k < 12, ¬ own (slot t.sp k)) {a : BitVec 64}
    (ha : own a) : t.contextSwitch.mem a = t.mem a := by
  rw [contextSwitch_mem]
  exact save_mem_frame t fun k hk e => apart k hk (e ▸ ha)

theorem Others.mem {s t : Cpu} (others : Others own s t) {a : BitVec 64} (ha : own a) :
    t.mem a = s.mem a := by
  induction others with
  | start => rfl
  | work _ frame ih => exact (frame a ha).trans ih
  | switch _ apart ih => exact (switch_frame apart ha).trans ih

/-- Context `s` goes on where it called `context_switch`, with its registers and its stack. -/
structure Resumed (own : BitVec 64 → Prop) (s u : Cpu) : Prop where
  pc : u.pc = s.x 30
  x : ∀ n, 19 ≤ n → n ≤ 29 → u.x n = s.x n
  sp : u.sp = s.sp
  stack : ∀ a, own a → u.mem a = s.mem a

/-- A context is resumed unchanged exactly if its frame pointer equals its return address and the
twelve words of its stack from `sp` on already hold what `context_switch` writes there. -/
theorem resumed_iff (s t : Cpu) (own : BitVec 64 → Prop) (block : ∀ k < 12, own (slot s.sp k))
    (others : Others own s.contextSwitch t) (apart : ∀ k < 12, ¬ own (slot t.sp k))
    (back : t.x 1 = s.sp) :
    Resumed own s t.contextSwitch ↔
      s.x 29 = s.x 30 ∧ ∀ k < 12, s.mem (slot s.sp k) = saved s k := by
  have mem : ∀ a, own a → t.contextSwitch.mem a = s.save.mem a := by
    intro a ha
    rw [switch_frame apart ha, others.mem ha, contextSwitch_mem]
  have slots : ∀ k < 12, t.save.load.mem (slot t.save.load.sp k) = saved s k := by
    intro k hk
    rw [load_sp, back, ← save_mem_slot s hk]
    exact mem _ (block k hk)
  have low : ∀ k < 10, t.contextSwitch.x (19 + k) = s.x (19 + k) := by
    intro k hk
    rw [contextSwitch, restore_x _ hk, slots k (by omega), saved, if_pos hk]
  obtain ⟨fp, pc, sp⟩ := restore_rest t.save.load
  rw [slots 10 (by decide)] at fp pc
  rw [slots 11 (by decide)] at sp
  constructor
  · intro resumed
    refine ⟨(resumed.x 29 (by decide) le_rfl).symm.trans fp, fun k hk => ?_⟩
    rw [← resumed.stack _ (block k hk), mem _ (block k hk), save_mem_slot s hk]
  · rintro ⟨same, held⟩
    refine ⟨pc, fun n lo hi => ?_, sp, fun a ha => ?_⟩
    · by_cases hn : n = 29
      · rw [hn, same]
        exact fp
      · obtain ⟨k, rfl⟩ := Nat.exists_eq_add_of_le lo
        exact low k (by omega)
    · rw [mem a ha]
      by_cases inside : ∃ k < 12, a = slot s.sp k
      · obtain ⟨k, hk, rfl⟩ := inside
        rw [save_mem_slot s hk, held k hk]
      · exact save_mem_frame s fun k hk e => inside ⟨k, hk, e⟩

/-- A context with its stack at 0, on a memory of zeros, and the one it switches to. -/
def first (fp : BitVec 64) : Cpu := ⟨fun n => if n = 29 then fp else 0, 0, 0, fun _ => 0⟩

def second (fp : BitVec 64) : Cpu :=
  ⟨fun _ => 0, 4096, 0, (first fp).contextSwitch.mem⟩

theorem second_others (fp : BitVec 64) : Others (· < 4096) (first fp).contextSwitch (second fp) :=
  .work .start fun _ _ => rfl

/-- A frame pointer that is not the return address is lost. -/
theorem first_loses_fp : (∀ k < 12, slot (first 5).sp k < 4096) ∧
    Others (· < 4096) (first 5).contextSwitch (second 5) ∧
    (∀ k < 12, ¬ slot (second 5).sp k < 4096) ∧ (second 5).x 1 = (first 5).sp ∧
    ¬ Resumed (· < 4096) (first 5) (second 5).contextSwitch := by
  refine ⟨by decide +kernel, second_others 5, by decide +kernel, rfl, fun resumed => ?_⟩
  have := resumed.x 29 (by decide) le_rfl
  revert this
  decide +kernel

theorem zeros_resumed : Resumed (· < 4096) (first 0) (second 0).contextSwitch :=
  (resumed_iff (first 0) (second 0) (· < 4096) (by decide +kernel) (second_others 0)
    (by decide +kernel) rfl).mpr ⟨rfl, by decide +kernel⟩

end ContextSwitch
