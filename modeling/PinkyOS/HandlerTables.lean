import Mathlib

/-!
# Tables of handlers

`syscall` of `syscall.c` and the interrupt dispatch of `gic.c` index arrays of function pointers.
What lies around an array in memory is arbitrary; `F` is the type of the functions found there.
-/
namespace HandlerTables

variable {F : Type}

/-- The handlers in the order of their numbers in `syscall.h`. -/
inductive Sys
  | fork | exit | wait | pipe | read | kill | exec | fstat | chdir | dup | getpid
  | sbrk | sleep | uptime | open | write | mknod | unlink | link | mkdir | close

def sysExec : Int := 7

/-- The array `syscalls`; its entry 0 has no initialiser. -/
def syscalls : List (Option Sys) :=
  [none, some .fork, some .exit, some .wait, some .pipe, some .read, some .kill, some .exec,
    some .fstat, some .chdir, some .dup, some .getpid, some .sbrk, some .sleep, some .uptime,
    some .open, some .write, some .mknod, some .unlink, some .link, some .mkdir, some .close]

inductive Target (F : Type)
  | sys (c : Sys)
  | stray (f : F)

/-- `syscalls[num]`, with the words around the array. -/
def entry (around : Int → Option F) (num : Int) : Option (Target F) :=
  if 0 ≤ num ∧ num < syscalls.length then syscalls[num.toNat]?.join.map .sys
  else (around num).map .stray

structure Outcome (F : Type) where
  reads : List Int
  called : Option (Target F)
  r0 : BitVec 64

/-- `syscall`. A handler returns an `int` and may itself change the saved `r0`. -/
def syscall (around : Int → Option F) (run : Target F → BitVec 64 → BitVec 32 × BitVec 64)
    (r0 : BitVec 64) : Outcome F :=
  let num := (r0.setWidth 32).toInt
  if 0 < num ∧ num ≤ syscalls.length then
    match entry around num with
    | some f =>
      ⟨[num, num], some f, if num ≠ sysExec then (run f r0).1.signExtend 64 else (run f r0).2⟩
    | none => ⟨[num], none, -1⟩
  else ⟨[], none, -1⟩

/-- Only entries of the array are read, a call goes through one of the entries 1 to 21, and
without a call `r0` becomes -1. -/
structure Indexed (r0 : BitVec 64) (out : Outcome F) : Prop where
  reads : ∀ i ∈ out.reads, 0 ≤ i ∧ i < syscalls.length
  called : ∀ f, out.called = some f → ∃ n : Nat, 1 ≤ n ∧ n ≤ 21 ∧ (r0.setWidth 32).toInt = n ∧
    ∃ c, syscalls[n]? = some (some c) ∧ f = .sys c
  refused : out.called = none → out.r0 = -1

theorem syscalls_entry {n : Nat} (pos : 1 ≤ n) (le : n ≤ 21) :
    ∃ c, syscalls[n]? = some (some c) := by
  have all : ∀ k : Fin 21, (syscalls[k.val + 1]?.join).isSome = true := by decide
  have some := all ⟨n - 1, by omega⟩
  rw [Nat.sub_add_cancel pos] at some
  cases h : syscalls[n]? with
  | none => simp [h] at some
  | some c =>
    cases c with
    | none => simp [h] at some
    | some c => exact ⟨c, rfl⟩

/-- `NELEM(syscalls)` itself passes the test, one past the last entry. -/
theorem syscall_indexed_iff (around : Int → Option F)
    (run : Target F → BitVec 64 → BitVec 32 × BitVec 64) (r0 : BitVec 64) :
    Indexed r0 (syscall around run r0) ↔ (r0.setWidth 32).toInt ≠ 22 := by
  have size : (syscalls.length : Int) = 22 := rfl
  unfold syscall
  dsimp only
  generalize hnum : (r0.setWidth 32).toInt = num
  by_cases test : 0 < num ∧ num ≤ syscalls.length
  · rw [if_pos test]
    constructor
    · intro ok past
      have : 0 ≤ num ∧ num < syscalls.length := by
        apply ok.reads
        split <;> simp
      omega
    · intro ne
      obtain ⟨n, rfl⟩ := Int.eq_ofNat_of_zero_le (show 0 ≤ num by omega)
      obtain ⟨c, hc⟩ := syscalls_entry (n := n) (by omega) (by omega)
      have found : entry around n = some (.sys c) := by
        rw [entry, if_pos (by omega), Int.toNat_natCast, hc]
        rfl
      rw [found]
      refine ⟨fun i hi => ?_, ?_, nofun⟩
      · have : i = n := by simpa using hi
        omega
      · rintro f ⟨⟩
        exact ⟨n, by omega, by omega, hnum, c, hc, rfl⟩
  · rw [if_neg test]
    refine ⟨fun _ => by omega, fun _ => ⟨nofun, nofun, fun _ => rfl⟩⟩

/-! ### Interrupts -/

def numIntsrc : Nat := 32

/-- The array `isrs` and the words around it. -/
abbrev Isrs (F : Type) := Int → F

def isrInit (defaultIsr : F) (isrs : Isrs F) : Isrs F :=
  (List.range numIntsrc).foldl (fun isrs (i : Nat) => Function.update isrs i defaultIsr) isrs

def picEnable (isrs : Isrs F) (n : BitVec 32) (isr : F) : Isrs F :=
  if n.toInt < numIntsrc then Function.update isrs n.toInt isr else isrs

/-- The index and the function that `pic_dispatch` calls, from the value of `GICC_IAR`. -/
def picDispatch (isrs : Isrs F) (iar : BitVec 64) : Int × F :=
  let intid := iar.setWidth 32
  let intn := (intid - 32#32).toInt
  (intn, isrs intn)

def enableAll (isrs : Isrs F) (history : List (BitVec 32 × F)) : Isrs F :=
  history.foldl (fun isrs e => picEnable isrs e.1 e.2) isrs

/-- The function called stands in the array, put there by `isr_init` or for this interrupt. -/
structure Dispatched (defaultIsr : F) (history : List (BitVec 32 × F)) (out : Int × F) :
    Prop where
  inside : 0 ≤ out.1 ∧ out.1 < numIntsrc
  stored : out.2 = defaultIsr ∨ ∃ n, n.toInt = out.1 ∧ (n, out.2) ∈ history

theorem foldl_update_default (defaultIsr : F) (k : Nat) (isrs : Isrs F) {i : Int} (pos : 0 ≤ i)
    (lt : i < k) : (List.range k).foldl (fun (isrs : Isrs F) (i : Nat) =>
      Function.update isrs i defaultIsr) isrs i = defaultIsr := by
  induction k with
  | zero => omega
  | succ k ih =>
    rw [List.range_succ, List.foldl_append, List.foldl_cons, List.foldl_nil, Function.update_apply]
    split
    · rfl
    · exact ih (by omega)

/-- Each entry is what it was or what some `pic_enable` stored for its index. -/
theorem enableAll_stored (history : List (BitVec 32 × F)) (isrs : Isrs F) (i : Int) :
    enableAll isrs history i = isrs i ∨
      ∃ n : BitVec 32, n.toInt = i ∧ (n, enableAll isrs history i) ∈ history := by
  induction history generalizing isrs with
  | nil => exact .inl rfl
  | cons e history ih =>
    change enableAll (picEnable isrs e.1 e.2) history i = _ ∨ ∃ n : BitVec 32, n.toInt = i ∧
      (n, enableAll (picEnable isrs e.1 e.2) history i) ∈ e :: history
    rcases ih (picEnable isrs e.1 e.2) with same | ⟨n, hn, mem⟩
    · rw [same, picEnable]
      split
      · rw [Function.update_apply]
        split
        · next h => exact .inr ⟨e.1, h.symm, List.mem_cons_self ..⟩
        · exact .inl rfl
      · exact .inl rfl
    · exact .inr ⟨n, hn, List.mem_cons_of_mem _ mem⟩

theorem sub_toInt_inside (x : BitVec 32) : 0 ≤ (x - 32#32).toInt ∧ (x - 32#32).toInt < 32 ↔
    32 ≤ x.toInt ∧ x.toInt < 64 := by
  rw [BitVec.toInt_eq_toNat_cond, BitVec.toInt_eq_toNat_cond, BitVec.toNat_sub]
  have := x.isLt
  simp only [BitVec.toNat_ofNat]
  split <;> split <;> omega

/-- Both dispatchers keep inside their tables exactly when the system call number is not
`NELEM(syscalls)` and the acknowledged interrupt is one of the first 32 shared ones. -/
theorem handlers_indexed_iff (around : Int → Option F)
    (run : Target F → BitVec 64 → BitVec 32 × BitVec 64) (r0 : BitVec 64) (defaultIsr : F)
    (isrs : Isrs F) (history : List (BitVec 32 × F)) (iar : BitVec 64) :
    Indexed r0 (syscall around run r0) ∧
        Dispatched defaultIsr history
          (picDispatch (enableAll (isrInit defaultIsr isrs) history) iar) ↔
      (r0.setWidth 32).toInt ≠ 22 ∧
        32 ≤ (iar.setWidth 32).toInt ∧ (iar.setWidth 32).toInt < 64 := by
  rw [syscall_indexed_iff, ← sub_toInt_inside]
  refine and_congr_right fun _ => ⟨fun ok => ok.inside, fun inside => ⟨inside, ?_⟩⟩
  rcases enableAll_stored history (isrInit defaultIsr isrs) _ with same | ⟨n, hn, mem⟩
  · exact .inl (same.trans (foldl_update_default defaultIsr numIntsrc isrs inside.1 inside.2))
  · exact .inr ⟨n, hn, mem⟩

/-- System call 22 reads one past the array, and the spurious interrupt 1023 calls through
`isrs[991]`. -/
theorem handlers_past_end :
    ¬ Indexed 22#64 (syscall (fun _ => some ()) (fun _ r0 => (0, r0)) 22#64) ∧
      ¬ Dispatched 0 [] (picDispatch (enableAll (isrInit 0 fun i => i) []) 1023#64) := by
  refine ⟨fun ok => ?_, fun ok => ?_⟩
  · have := ok.reads 22 (by decide)
    revert this
    decide
  · have := ok.inside
    revert this
    decide

end HandlerTables
