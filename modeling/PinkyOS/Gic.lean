import PinkyOS.ByteBuffer

/-!
# The distributor of the interrupt controller (`device/gic.c`)

The registers of the distributor are memory, addressed by their offset from `gic_base`. Three banks
of 32-bit registers hold 1, 2 and 8 bits for every interrupt. The macro `GICD_REG` that the driver
goes through is an access of 64 bits, which reaches over the register that follows.
-/
namespace Gic
open List

open ByteBuffer (ofLE)

abbrev Memory := Nat → UInt8

def gicdIsenable : Nat := 0x100
def gicdItarget : Nat := 0x800
def gicdIcfg : Nat := 0xC00

/-- `GICD_REG(o)` as a value. -/
def gicdReg (mem : Memory) (o : Nat) : BitVec 64 :=
  BitVec.ofNat 64 (ofLE ((List.range 8).map fun i => mem (o + i)))

/-- `GICD_REG(o) = v`. -/
def setGicdReg (mem : Memory) (o : Nat) (v : BitVec 64) : Memory :=
  fun a => if o ≤ a ∧ a < o + 8 then UInt8.ofNat (v.toNat / 256 ^ (a - o)) else mem a

/-- `uint rval = GICD_REG(o)`, a change of `rval`, and `GICD_REG(o) = rval`. -/
def update (mem : Memory) (o : Nat) (change : BitVec 32 → BitVec 32) : Memory :=
  setGicdReg mem o ((change ((gicdReg mem o).setWidth 32)).setWidth 64)

def gicdSetBit (mem : Memory) (base id : Nat) (bval : Bool) : Memory :=
  let offset := id / 32
  let bitpos := id % 32
  update mem (base + 4 * offset) fun rval =>
    if bval then rval ||| (1#32 <<< bitpos) else rval &&& ~~~(1#32 <<< bitpos)

def spi2id (spi : Nat) : Nat := spi + 32

def gdSpiEnable (mem : Memory) (spi : Nat) : Memory :=
  let id := spi2id spi
  gicdSetBit mem gicdIsenable id true

def gdSpiGroup0 (mem : Memory) (_spi : Nat) : Memory := mem

def gdSpiTarget0 (mem : Memory) (spi : Nat) : Memory :=
  let id := spi2id spi
  let offset := id / 4
  let bitpos := (id % 4) * 8
  let tcpu := 0x01#32
  update mem (gicdItarget + 4 * offset) fun rval => rval ||| (tcpu <<< bitpos)

def gdSpiSetcfg (mem : Memory) (spi : Nat) (isEdge : Bool) : Memory :=
  let id := spi2id spi
  let offset := id / 16
  let bitpos := (id % 16) * 2
  let vmask := 0x03#32
  update mem (gicdIcfg + 4 * offset) fun rval =>
    let rval := rval &&& ~~~(vmask <<< bitpos)
    if isEdge then rval ||| (0x02#32 <<< bitpos) else rval

/-- `gic_dist_configure`, which does not look at the type. -/
def gicDistConfigure (mem : Memory) (_itype num : Nat) : Memory :=
  let spi := num
  let mem := gdSpiSetcfg mem spi true
  let mem := gdSpiEnable mem spi
  let mem := gdSpiGroup0 mem spi
  gdSpiTarget0 mem spi

/-! ### Registers bit by bit -/

/-- Bit `k` of the memory from `base` on. -/
def bit (mem : Memory) (base k : Nat) : Bool := (mem (base + k / 8)).toNat.testBit (k % 8)

theorem testBit_ofLE (bs : List UInt8) (k : Nat) :
    (ofLE bs).testBit k = (bs.getD (k / 8) 0).toNat.testBit (k % 8) := by
  induction bs generalizing k with
  | nil => simp [ofLE]
  | cons b bs more =>
    have byte : b.toNat < 2 ^ 8 := b.toNat_lt
    rw [ofLE, Nat.add_comm, show (256 : Nat) = 2 ^ 8 from rfl, Nat.testBit_two_pow_mul_add _ byte]
    split_ifs with first
    · rw [Nat.div_eq_of_lt first, Nat.mod_eq_of_lt first]
      rfl
    · rw [more, show k / 8 = (k - 8) / 8 + 1 by omega, show (k - 8) % 8 = k % 8 by omega]
      rfl

theorem getLsbD_gicdReg (mem : Memory) (o : Nat) {k : Nat} (low : k < 32) :
    ((gicdReg mem o).setWidth 32).getLsbD k = bit mem o k := by
  have inside : k / 8 < 8 := by omega
  rw [BitVec.getLsbD_setWidth, gicdReg, BitVec.getLsbD_ofNat, testBit_ofLE, bit]
  simp [low, inside, show k < 64 by omega]

/-- An update gives the register its new value and clears the one behind it. -/
theorem bit_update (mem : Memory) (base r : Nat) (change : BitVec 32 → BitVec 32) (k : Nat) :
    bit (update mem (base + 4 * r) change) base k =
      if k / 32 = r then
        (change ((gicdReg mem (base + 4 * r)).setWidth 32)).getLsbD (k % 32)
      else if k / 32 = r + 1 then false
      else bit mem base k := by
  rw [bit, update, setGicdReg]
  generalize change ((gicdReg mem (base + 4 * r)).setWidth 32) = rval
  by_cases inside : base + 4 * r ≤ base + k / 8 ∧ base + k / 8 < base + 4 * r + 8
  · have place : 8 * (base + k / 8 - (base + 4 * r)) + k % 8 = k - 32 * r := by omega
    rw [if_pos inside, UInt8.toNat_ofNat', show (256 : Nat) = 2 ^ 8 from rfl, ← Nat.pow_mul,
      Nat.testBit_mod_two_pow, Nat.testBit_div_two_pow, Nat.add_comm, place,
      BitVec.toNat_setWidth_of_le (by decide)]
    simp only [Nat.mod_lt k (show 0 < 8 by decide), decide_true, Bool.true_and]
    split_ifs with here behind
    · rw [← BitVec.getLsbD, show k - 32 * r = k % 32 by omega]
    · exact BitVec.getLsbD_of_ge rval _ (by omega)
    · omega
  · rw [if_neg inside, if_neg (by omega), if_neg (by omega), bit]

theorem bit_update_apart (mem : Memory) {o base k : Nat} (change : BitVec 32 → BitVec 32)
    (apart : base + k / 8 < o ∨ o + 8 ≤ base + k / 8) :
    bit (update mem o change) base k = bit mem base k := by
  rw [bit, update, setGicdReg, if_neg (by omega), bit]

/-! ### The fields of an interrupt -/

inductive Bank where
  | enable
  | config
  | target
  deriving DecidableEq

def Bank.base : Bank → Nat
  | .enable => gicdIsenable
  | .config => gicdIcfg
  | .target => gicdItarget

/-- How many bits an interrupt has in a bank. -/
def Bank.width : Bank → Nat
  | .enable => 1
  | .config => 2
  | .target => 8

/-- How many interrupts share a register. -/
def Bank.count : Bank → Nat
  | .enable => 32
  | .config => 16
  | .target => 4

/-- Bit `j` of the field of an interrupt. -/
def field (mem : Memory) (b : Bank) (id j : Nat) : Bool := bit mem b.base (b.width * id + j)

/-- What configuring an interrupt makes of bit `j` of its field: it is enabled, edge-triggered, and
goes to CPU 0 besides those it went to before. -/
def Bank.set (b : Bank) (j : Nat) (old : Bool) : Bool :=
  match b with
  | .enable => true
  | .config => j = 1
  | .target => j = 0 || old

theorem getLsbD_one (k : Nat) : (1#32).getLsbD k = decide (k = 0) := by
  cases k <;> simp

theorem getLsbD_two (k : Nat) : (2#32).getLsbD k = decide (k = 1) := by
  rw [show 2#32 = 1#32 <<< 1 from rfl, BitVec.getLsbD_shiftLeft, getLsbD_one]
  grind

theorem getLsbD_three (k : Nat) : (3#32).getLsbD k = decide (k < 2) := by
  rw [show 3#32 = 1#32 ||| 2#32 from rfl, BitVec.getLsbD_or, getLsbD_one, getLsbD_two]
  grind

variable {id j n : Nat} {b : Bank} {spis : List Nat}

/-- A field of the register of interrupt `n`, before and after an update of this register. -/
theorem field_update (mem : Memory) (b : Bank) (n : Nat) (change : BitVec 32 → BitVec 32)
    (inside : j < b.width) : field (update mem (b.base + 4 * (n / b.count)) change) b id j =
      if id / b.count = n / b.count then
        (change ((gicdReg mem (b.base + 4 * (n / b.count))).setWidth 32)).getLsbD
          ((id % b.count) * b.width + j)
      else if id / b.count = n / b.count + 1 then false
      else field mem b id j := by
  have reg : (b.width * id + j) / 32 = id / b.count := by
    cases b <;> simp only [Bank.width, Bank.count] at inside ⊢ <;> omega
  have pos : (b.width * id + j) % 32 = (id % b.count) * b.width + j := by
    cases b <;> simp only [Bank.width, Bank.count] at inside ⊢ <;> omega
  rw [field, bit_update, reg, pos, field]

theorem getLsbD_field (mem : Memory) (b : Bank) (inside : j < b.width)
    (same : id / b.count = n / b.count) :
    ((gicdReg mem (b.base + 4 * (n / b.count))).setWidth 32).getLsbD
      ((id % b.count) * b.width + j) = field mem b id j := by
  have low : (id % b.count) * b.width + j < 32 := by
    cases b <;> simp only [Bank.width, Bank.count] at inside ⊢ <;> omega
  have byte : b.base + 4 * (n / b.count) + ((id % b.count) * b.width + j) / 8 =
      b.base + (b.width * id + j) / 8 := by
    rw [← same]
    cases b <;> simp only [Bank.width, Bank.count] at inside ⊢ <;> omega
  have pos : ((id % b.count) * b.width + j) % 8 = (b.width * id + j) % 8 := by
    cases b <;> simp only [Bank.width, Bank.count] at inside ⊢ <;> omega
  rw [getLsbD_gicdReg mem _ low, bit, byte, pos, field, bit]

/-- A change of a register that sets the field of interrupt `n` and keeps the others. -/
def Bank.Sets (b : Bank) (n : Nat) (change : BitVec 32 → BitVec 32) : Prop :=
  ∀ rval, ∀ place < b.count, ∀ j < b.width,
    (change rval).getLsbD (place * b.width + j) =
      if place = n % b.count then b.set j (rval.getLsbD (place * b.width + j))
      else rval.getLsbD (place * b.width + j)

theorem field_set (mem : Memory) {change : BitVec 32 → BitVec 32}
    (sets : b.Sets n change) (inside : j < b.width) :
    field (update mem (b.base + 4 * (n / b.count)) change) b id j =
      if id = n then b.set j (field mem b id j)
      else if id / b.count = n / b.count + 1 then false
      else field mem b id j := by
  have pos : 0 < b.count := by cases b <;> decide
  have same : id = n ↔ id / b.count = n / b.count ∧ id % b.count = n % b.count := by
    constructor
    · rintro rfl
      exact ⟨rfl, rfl⟩
    · rintro ⟨quotient, remainder⟩
      rw [← Nat.div_add_mod id b.count, quotient, remainder, Nat.div_add_mod]
  rw [field_update mem b n change inside]
  by_cases register : id / b.count = n / b.count
  · rw [if_pos register, sets _ _ (Nat.mod_lt _ pos) j inside, getLsbD_field mem b inside register]
    simp only [same, register, true_and]
    split_ifs
    · rfl
    · omega
    · rfl
  · rw [if_neg register, if_neg (show id ≠ n from fun equal => register (same.mp equal).1)]

theorem sets_enable (n : Nat) : Bank.enable.Sets n fun rval => rval ||| (1#32 <<< (n % 32)) := by
  intro rval place within j inside
  simp only [Bank.width, Bank.count] at within inside ⊢
  simp only [BitVec.getLsbD_or, BitVec.getLsbD_shiftLeft, getLsbD_one, Bank.set]
  grind

theorem sets_config (n : Nat) : Bank.config.Sets n fun rval =>
      (rval &&& ~~~(3#32 <<< ((n % 16) * 2))) ||| (2#32 <<< ((n % 16) * 2)) := by
  intro rval place within j inside
  simp only [Bank.width, Bank.count] at within inside ⊢
  simp only [BitVec.getLsbD_or, BitVec.getLsbD_and, BitVec.getLsbD_not, BitVec.getLsbD_shiftLeft,
    getLsbD_two, getLsbD_three, Bank.set]
  grind

theorem sets_target (n : Nat) :
    Bank.target.Sets n fun rval => rval ||| (1#32 <<< ((n % 4) * 8)) := by
  intro rval place within j inside
  simp only [Bank.width, Bank.count] at within inside ⊢
  simp only [BitVec.getLsbD_or, BitVec.getLsbD_shiftLeft, getLsbD_one, Bank.set]
  grind

/-- The interrupts of the controller have the numbers below this one; SPI `n` has `n + 32`. -/
def idCount : Nat := 1020

theorem field_apart (mem : Memory) {b' : Bank} (other : b' ≠ b)
    (known : n < idCount) (present : id < idCount) (inside : j < b'.width)
    (change : BitVec 32 → BitVec 32) :
    field (update mem (b.base + 4 * (n / b.count)) change) b' id j = field mem b' id j := by
  apply bit_update_apart
  rw [idCount] at known present
  cases b <;> cases b' <;>
    simp only [Bank.base, Bank.width, Bank.count, gicdIsenable, gicdIcfg, gicdItarget] at * <;>
    first | omega | exact absurd rfl other

theorem configure_eq (mem : Memory) (itype n : Nat) : gicDistConfigure mem itype n =
      update (update (update mem (Bank.config.base + 4 * (spi2id n / Bank.config.count))
            fun rval => (rval &&& ~~~(3#32 <<< ((spi2id n % 16) * 2))) |||
              (2#32 <<< ((spi2id n % 16) * 2)))
          (Bank.enable.base + 4 * (spi2id n / Bank.enable.count))
            fun rval => rval ||| (1#32 <<< (spi2id n % 32)))
        (Bank.target.base + 4 * (spi2id n / Bank.target.count))
          fun rval => rval ||| (1#32 <<< ((spi2id n % 4) * 8)) := rfl

/-- Configuring an interrupt sets its fields, clears those in the registers behind its own, and
keeps all others. -/
theorem field_configure (mem : Memory) (itype : Nat) (b : Bank)
    (known : spi2id n < idCount) (present : id < idCount) (inside : j < b.width) :
    field (gicDistConfigure mem itype n) b id j =
      if id = spi2id n then b.set j (field mem b id j)
      else if id / b.count = spi2id n / b.count + 1 then false
      else field mem b id j := by
  rw [configure_eq]
  cases b with
  | enable =>
    rw [field_apart _ (by decide) known present inside, field_set _ (sets_enable _) inside,
      field_apart _ (by decide) known present inside]
  | config =>
    rw [field_apart _ (by decide) known present inside,
      field_apart _ (by decide) known present inside, field_set _ (sets_config _) inside]
  | target =>
    rw [field_set _ (sets_target _) inside, field_apart _ (by decide) known present inside,
      field_apart _ (by decide) known present inside]

/-! ### A sequence of calls -/

/-- The calls for the interrupts `spis`, one after the other. -/
def configureAll (mem : Memory) (itype : Nat → Nat) (spis : List Nat) : Memory :=
  spis.foldl (fun mem n => gicDistConfigure mem (itype n) n) mem

/-- Interrupt `id` lies in the register right behind the one of SPI `n`. -/
def Bank.Behind (b : Bank) (n id : Nat) : Prop := id / b.count = spi2id n / b.count + 1

/-- What the fields of a configured interrupt look like. -/
def Bank.Configured : Bank → (Nat → Bool) → Prop
  | .enable, f => f 0 = true
  | .config, f => f 0 = false ∧ f 1 = true
  | .target, f => f 0 = true

theorem Bank.configured_set (b : Bank) {f old : Nat → Bool}
    (set : ∀ j < b.width, f j = b.set j (old j)) : b.Configured f := by
  cases b with
  | enable => exact set 0 (by decide)
  | config => exact ⟨set 0 (by decide), set 1 (by decide)⟩
  | target => exact set 0 (by decide)

theorem Bank.not_configured_cleared (b : Bank) {f : Nat → Bool}
    (cleared : ∀ j < b.width, f j = false) : ¬b.Configured f := by
  cases b with
  | enable =>
    intro configured
    exact Bool.noConfusion ((cleared 0 (by decide)).symm.trans configured)
  | config =>
    intro configured
    exact Bool.noConfusion ((cleared 1 (by decide)).symm.trans configured.2)
  | target =>
    intro configured
    exact Bool.noConfusion ((cleared 0 (by decide)).symm.trans configured)

section
variable (mem : Memory) (itype : Nat → Nat) (known : ∀ n ∈ spis, spi2id n < idCount)
    (present : id < idCount) (inside : j < b.width) (skipped : ∀ n ∈ spis, spi2id n ≠ id)
include mem itype known present inside skipped

/-- Calls for other interrupts keep a field if none of them is for the register before. -/
theorem field_kept (clear : ∀ n ∈ spis, ¬b.Behind n id) :
    field (configureAll mem itype spis) b id j = field mem b id j := by
  induction spis generalizing mem with
  | nil => rfl
  | cons n spis more =>
    obtain ⟨first, others⟩ := forall_mem_cons.mp known
    obtain ⟨notFirst, notOthers⟩ := forall_mem_cons.mp skipped
    obtain ⟨apart, apartOthers⟩ := forall_mem_cons.mp clear
    refine (more _ others notOthers apartOthers).trans ?_
    rw [field_configure mem _ b first present inside, if_neg (Ne.symm notFirst)]
    exact if_neg apart

/-- A single call for the register before clears the field for good. -/
theorem field_cleared (hit : ∃ n ∈ spis, b.Behind n id) :
    field (configureAll mem itype spis) b id j = false := by
  induction spis generalizing mem with
  | nil =>
    obtain ⟨_, member, _⟩ := hit
    exact absurd member not_mem_nil
  | cons n spis more =>
    obtain ⟨first, others⟩ := forall_mem_cons.mp known
    obtain ⟨notFirst, notOthers⟩ := forall_mem_cons.mp skipped
    by_cases later : ∃ m ∈ spis, b.Behind m id
    · exact more _ others notOthers later
    · have clear : ∀ m ∈ spis, ¬b.Behind m id := fun m member behind => later ⟨m, member, behind⟩
      have now : b.Behind n id := by
        obtain ⟨m, member, behind⟩ := hit
        rcases mem_cons.mp member with rfl | rest
        · exact behind
        · exact absurd behind (clear m rest)
      refine (field_kept _ itype others present inside notOthers clear).trans ?_
      rw [field_configure mem _ b first present inside, if_neg (Ne.symm notFirst)]
      exact if_pos now

end

theorem spi2id_inj {m : Nat} (same : spi2id m = spi2id n) : m = n := Nat.add_right_cancel same

theorem not_mem_after {before after : List Nat} (distinct : spis.Nodup)
    (split : spis = before ++ n :: after) : n ∉ after := by
  rw [split] at distinct
  exact (nodup_cons.mp (nodup_append.mp distinct).2.1).1

/-- The fields of a configured interrupt are what the calls after its own leave of them. -/
theorem configured_iff_spared (mem : Memory) (itype : Nat → Nat) {before after : List Nat}
    (b : Bank) (distinct : spis.Nodup) (known : ∀ m ∈ spis, spi2id m < idCount)
    (split : spis = before ++ n :: after) :
    b.Configured (field (configureAll mem itype spis) b (spi2id n)) ↔
      ∀ m ∈ after, ¬b.Behind m (spi2id n) := by
  have present : spi2id n < idCount := known n (by simp [split])
  have later : ∀ m ∈ after, spi2id m < idCount := fun m member => known m (by simp [split, member])
  have skipped : ∀ m ∈ after, spi2id m ≠ spi2id n := by
    intro m member same
    exact not_mem_after distinct split (spi2id_inj same ▸ member)
  have parts : configureAll mem itype spis =
      configureAll (gicDistConfigure (configureAll mem itype before) (itype n) n) itype after := by
    rw [split, configureAll, foldl_append]
    rfl
  rw [parts]
  constructor
  · intro configured m member behind
    refine b.not_configured_cleared (fun j inside => ?_) configured
    exact field_cleared _ itype later present inside skipped ⟨m, member, behind⟩
  · intro clear
    apply b.configured_set
    intro j inside
    rw [field_kept _ itype later present inside skipped clear,
      field_configure _ _ b present present inside, if_pos rfl]

/-- A sequence of calls configures its interrupts and leaves the fields of all others alone exactly
if every interrupt in the register behind the one of a call is either configured by a later call,
or not configured at all and has a field of zeros to begin with. -/
theorem configureAll_exact_iff (mem : Memory) (itype : Nat → Nat) {spis : List Nat}
    (distinct : spis.Nodup) (range : ∀ n ∈ spis, n < 988) :
    ((∀ n ∈ spis, ∀ b : Bank, b.Configured (field (configureAll mem itype spis) b (spi2id n))) ∧
      ∀ id < idCount, (∀ n ∈ spis, spi2id n ≠ id) → ∀ b : Bank, ∀ j < b.width,
        field (configureAll mem itype spis) b id j = field mem b id j) ↔
      ∀ (b : Bank) (before : List Nat) (n : Nat) (after : List Nat),
        spis = before ++ n :: after → ∀ id < idCount, b.Behind n id →
          (∃ m ∈ after, spi2id m = id) ∨
          (∀ m ∈ spis, spi2id m ≠ id) ∧ ∀ j < b.width, field mem b id j = false := by
  have known : ∀ n ∈ spis, spi2id n < idCount := by
    intro n member
    have := range n member
    rw [spi2id, idCount]
    omega
  constructor
  · rintro ⟨configured, unchanged⟩ b before n after split id present behind
    by_cases later : ∃ m ∈ after, spi2id m = id
    · exact .inl later
    refine .inr ?_
    have current : n ∈ spis := by simp [split]
    have skipped : ∀ m ∈ spis, spi2id m ≠ id := by
      rintro m member rfl
      -- An interrupt configured before `n` has been cleared by the call for `n`.
      rw [split, List.mem_append, List.mem_cons] at member
      rcases member with earlier | rfl | rest
      · obtain ⟨first, second, rfl⟩ := List.append_of_mem earlier
        have spared := (configured_iff_spared mem itype b distinct known
          (split.trans (List.append_assoc ..))).mp (configured m (by simp [split]) b)
        exact spared n (by simp) behind
      · rw [Bank.Behind] at behind
        omega
      · exact later ⟨m, rest, rfl⟩
    refine ⟨skipped, fun j inside => ?_⟩
    rw [← unchanged id present skipped b j inside]
    exact field_cleared mem itype known present inside skipped ⟨n, current, behind⟩
  · intro harmless
    constructor
    · intro n member b
      obtain ⟨before, after, split⟩ := List.append_of_mem member
      refine (configured_iff_spared mem itype b distinct known split).mpr ?_
      intro m later behind
      obtain ⟨middle, rest, rfl⟩ := List.append_of_mem later
      have again := harmless b (before ++ n :: middle) m rest (by simp [split]) (spi2id n)
        (known n member) behind
      rcases again with ⟨k, last, same⟩ | ⟨skipped, _⟩
      · have twice := not_mem_after distinct split
        rw [spi2id_inj same] at last
        exact twice (by simp [last])
      · exact skipped n member rfl
    · intro id present skipped b j inside
      by_cases hit : ∃ n ∈ spis, b.Behind n id
      · obtain ⟨n, member, behind⟩ := hit
        obtain ⟨before, after, split⟩ := List.append_of_mem member
        rw [field_cleared mem itype known present inside skipped ⟨n, member, behind⟩]
        rcases harmless b before n after split id present behind with ⟨m, later, same⟩ | ⟨_, zero⟩
        · exact absurd same (skipped m (by simp [split, later]))
        · exact (zero j inside).symm
      · exact field_kept mem itype known present inside skipped
          fun n member behind => hit ⟨n, member, behind⟩

/-- The last SPI can always be configured by itself: behind its registers there are no others. -/
theorem last_configured :
    (∀ n ∈ [987], ∀ b : Bank, b.Configured
        (field (configureAll (fun _ => 0xFF) (fun _ => 3) [987]) b (spi2id n))) ∧
      ∀ id < idCount, (∀ n ∈ [987], spi2id n ≠ id) → ∀ b : Bank, ∀ j < b.width,
        field (configureAll (fun _ => 0xFF) (fun _ => 3) [987]) b id j =
          field (fun _ => 0xFF) b id j := by
  refine (configureAll_exact_iff _ _ (by decide) (by decide)).mpr ?_
  intro b before n after split id present behind
  obtain rfl : n = 987 := by
    have member : n ∈ [987] := by simp [split]
    exact List.mem_singleton.mp member
  rw [idCount] at present
  cases b <;> simp only [Bank.Behind, Bank.count, spi2id] at behind <;> omega

/-- The calls of `gic_init` on registers of zeros: the one for the second timer (SPI 11) takes CPU 0
away from the first one (SPI 13), which has just been configured. -/
theorem gic_init_clears_target :
    field (configureAll (fun _ => 0) (fun _ => 3) [13]) .target (spi2id 13) 0 = true ∧
      field (configureAll (fun _ => 0) (fun _ => 3) [13, 11, 1]) .target (spi2id 13) 0 = false := by
  decide

end Gic
