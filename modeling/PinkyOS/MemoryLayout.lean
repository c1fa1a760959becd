import Mathlib

/-!
# Memory layout and page geometry

Constants and address arithmetic of `mmu.h`, `memlayout.h` and `arm_virt.h`.
Kernel addresses are physical addresses shifted by `KERNBASE`.
-/

namespace MemoryLayout

def kernBase : Nat := 0xFFFFFFFF00000000

def phyStart : Nat := 0x40000000

def physTop : Nat := 0x08000000 + phyStart

/-- Low memory mapped at boot; it contains the kernel image. -/
def initKernSz : Nat := 0x200000

def initKernmap : Nat := initKernSz + phyStart

def v2p (a : Nat) : Nat := a - kernBase

def p2v (a : Nat) : Nat := a + kernBase

/-- `al` is a power of two; the C macro masks with `~(al - 1)`. -/
def alignUp (sz al : Nat) : Nat := (sz + al - 1) / al * al

def alignDn (sz al : Nat) : Nat := sz / al * al

def pteShift : Nat := 12

def pteSz : Nat := 2 ^ pteShift

theorem pteSz_eq : pteSz = 4096 := rfl

def pgdShift : Nat := 30

def ptrsPerPgd : Nat := 4

def pmdShift : Nat := 21

def pmdSz : Nat := 2 ^ pmdShift

def ptrsPerPmd : Nat := 512

def ptrsPerPte : Nat := 512

/-- The user address space, `UADDR_SZ`. -/
def uaddrSz : Nat := 2 ^ 28

theorem uaddrSz_eq : uaddrSz = 268435456 := rfl

/-- Access from EL1 only. -/
def apRw1 : Nat := 0 <<< 6

/-- Access from EL1 and EL0. -/
def apRw10 : Nat := 1 <<< 6

def apMask : Nat := 3 <<< 6

/-- The size of a page table at any level. -/
def ptSz : Nat := ptrsPerPte <<< 3

theorem ptSz_eq : ptSz = 4096 := rfl

def ptOrder : Nat := 10

def entryValid : BitVec 64 := 0x01

def entryTable : BitVec 64 := 0x02

/-- Bits 47 to 12. -/
def pgAddrMask : BitVec 64 := 0xFFFFFFFFF000

theorem alignUp_dvd (sz al : Nat) : al ∣ alignUp sz al :=
  Nat.dvd_mul_left _ _

theorem alignUp_mono (al : Nat) {a b : Nat} (le : a ≤ b) : alignUp a al ≤ alignUp b al :=
  Nat.mul_le_mul_right _ (Nat.div_le_div_right (by omega))

theorem le_alignUp {al : Nat} (pos : 0 < al) (sz : Nat) : sz ≤ alignUp sz al := by
  have hm := Nat.mod_lt (sz + al - 1) pos
  have hd := Nat.div_add_mod' (sz + al - 1) al
  unfold alignUp
  omega

/-- `alignUp` gives the least multiple that is large enough. -/
theorem alignUp_le_iff {al a : Nat} (pos : 0 < al) (aligned : al ∣ a) (sz : Nat) :
    alignUp sz al ≤ a ↔ sz ≤ a := by
  obtain ⟨k, rfl⟩ := aligned
  rw [alignUp, Nat.mul_comm al k, Nat.mul_le_mul_right_iff pos, ← Nat.lt_add_one_iff,
    Nat.div_lt_iff_lt_mul pos, Nat.add_mul]
  omega

end MemoryLayout
