import PinkyOS.KernelMap

/-!
# Where the kernel's table leads

The second-level words of the kernel's table are numbered by the blocks of 2 MiB that they stand
for. `start` fills them from six ranges, of which three are given twice over in the lower bits that
select a word; `paging_init` adds a page for every page number of the rest of the memory.
-/
namespace KernelMap
open MemoryLayout UserMemory

/-! ### Output addresses -/

/-- Bits 47 to 21, the address in a block descriptor. -/
def blockAddrMask : BitVec 64 := 0xFFFFFFE00000

/-- The physical address for `va`, given the descriptor its walk ends at. -/
def outputAddress (w : BitVec 64) (va : Nat) : Nat :=
  if w &&& entryMask = entryBlock ||| entryValid then (w &&& blockAddrMask).toNat + va % pmdSz
  else (w &&& pgAddrMask).toNat + va % pteSz

def translate (t : Pgtbl) (va : Nat) : Option Nat :=
  (leaf t va).map fun w => outputAddress w va

theorem address_bits {x s : Nat} {mask : BitVec 64}
    (bits : ∀ i < 64, mask.getLsbD i = decide (s ≤ i ∧ i < 48)) (aligned : 2 ^ s ∣ x)
    (small : x < 2 ^ 48) : BitVec.ofNat 64 x &&& mask = BitVec.ofNat 64 x := by
  obtain ⟨k, rfl⟩ := aligned
  apply BitVec.eq_of_getLsbD_eq
  intro i below
  rw [BitVec.getLsbD_and, bits i below, BitVec.getLsbD_ofNat]
  by_cases low : s ≤ i
  · by_cases high : i < 48
    · simp [low, high]
    · have zero : (2 ^ s * k).testBit i = false :=
        Nat.testBit_lt_two_pow (small.trans_le (Nat.pow_le_pow_right (by decide) (by omega)))
      simp [zero]
  · simp [Nat.testBit_two_pow_mul, low]

theorem blockAddrMask_bits :
    ∀ i < 64, blockAddrMask.getLsbD i = decide (21 ≤ i ∧ i < 48) := by decide

theorem pgAddrMask_bits : ∀ i < 64, pgAddrMask.getLsbD i = decide (12 ≤ i ∧ i < 48) := by decide

/-- The attributes of a descriptor do not touch its address. -/
theorem address_of_desc {x s : Nat} {mask attrs : BitVec 64}
    (bits : ∀ i < 64, mask.getLsbD i = decide (s ≤ i ∧ i < 48)) (aligned : 2 ^ s ∣ x)
    (small : x < 2 ^ 48) (apart : attrs &&& mask = 0#64) :
    ((BitVec.ofNat 64 x ||| attrs) &&& mask).toNat = x := by
  rw [BitVec.or_comm, and_field apart, address_bits bits aligned small, BitVec.toNat_ofNat]
  exact Nat.mod_eq_of_lt (by omega)

theorem and_pmdMask {x : Nat} (aligned : pmdSz ∣ x) (small : x < 2 ^ 48) :
    BitVec.ofNat 64 x &&& pmdMask = BitVec.ofNat 64 x := by
  rw [← address_bits blockAddrMask_bits aligned small, BitVec.and_assoc,
    show blockAddrMask &&& pmdMask = blockAddrMask by decide]

/-- The attributes in the descriptors of `set_bootpgtbl`. -/
def bootAttrs (dev : Bool) : BitVec 64 :=
  if dev then accessFlag ||| apRw1 ||| memAttrIdx0 ||| entryBlock ||| entryValid
  else accessFlag ||| shInSh ||| apRw1 ||| nonSecurePa ||| memAttrIdx4 ||| entryBlock |||
    entryValid ||| uxn

theorem bootDesc_eq {phy : Nat} (dev : Bool) (aligned : pmdSz ∣ phy) (small : phy < 2 ^ 48) :
    bootDesc phy dev = BitVec.ofNat 64 phy ||| bootAttrs dev := by
  cases dev <;> simp only [bootDesc, bootAttrs, and_pmdMask aligned small] <;> rfl

theorem low_bits_block {phy : Nat} (aligned : pmdSz ∣ phy) {m : BitVec 64}
    (small : m.toNat < 2 ^ 12) : BitVec.ofNat 64 phy &&& m = 0#64 :=
  low_bits (Nat.dvd_trans (by decide) aligned) small

theorem bootDesc_block {phy : Nat} (dev : Bool) (aligned : pmdSz ∣ phy) (small : phy < 2 ^ 48) :
    bootDesc phy dev &&& entryMask = entryBlock ||| entryValid := by
  rw [bootDesc_eq dev aligned small, and_field (low_bits_block aligned (by decide))]
  cases dev <;> decide

theorem outputAddress_bootDesc {phy : Nat} (dev : Bool) (aligned : pmdSz ∣ phy)
    (small : phy < 2 ^ 48) (va : Nat) : outputAddress (bootDesc phy dev) va = phy + va % pmdSz := by
  have apart : bootAttrs dev &&& blockAddrMask = 0#64 := by cases dev <;> decide
  rw [outputAddress, if_pos (bootDesc_block dev aligned small), bootDesc_eq dev aligned small,
    address_of_desc blockAddrMask_bits aligned small apart]

theorem outputAddress_pageDesc {pa : Nat} (aligned : pteSz ∣ pa) (small : pa < 2 ^ 48) (va : Nat) :
    outputAddress (pageDesc pa apRw10) va = pa + va % pteSz := by
  rw [outputAddress, pageDesc_page aligned, if_neg (by decide), pageDesc,
    address_of_desc pgAddrMask_bits aligned small (by decide)]

/-! ### The blocks of `start` -/

/-- The number of the block of an address, without the bits that select the table. -/
def blockNo (va : Nat) : Nat := va / pmdSz % 2048

theorem idx_blockNo (va : Nat) : pgdIdx va = blockNo va / 512 ∧ pmdIdx va = blockNo va % 512 := by
  simp only [pgdIdx, pmdIdx, blockNo, Nat.shiftRight_eq_div_pow, pgdShift, pmdShift, pmdSz,
    ptrsPerPgd, ptrsPerPmd, Nat.reducePow]
  omega

/-- The word of a block. -/
def Pgtbl.block (t : Pgtbl) (m : Nat) : Slot := t (m / 512) (m % 512)

theorem block_blockNo (t : Pgtbl) (va : Nat) :
    t (pgdIdx va) (pmdIdx va) = t.block (blockNo va) := by
  rw [(idx_blockNo va).1, (idx_blockNo va).2, Pgtbl.block]

theorem block_set (t : Pgtbl) (va m : Nat) (x : Slot) :
    (t.set (pgdIdx va) (pmdIdx va) x).block m = if m = blockNo va then x else t.block m := by
  have same : m / 512 = blockNo va / 512 ∧ m % 512 = blockNo va % 512 ↔ m = blockNo va := by omega
  rw [Pgtbl.block, Pgtbl.set, (idx_blockNo va).1, (idx_blockNo va).2]
  simp only [same, Pgtbl.block]

/-- `set_bootpgtbl` on blocks that do not run around the end of the table. -/
theorem block_bootFrom (n : Nat) (t : Pgtbl) (virt phy : Nat) (dev : Bool)
    (fits : blockNo virt + n ≤ 2048) (m : Nat) : (bootFrom n t virt phy dev).block m =
      if blockNo virt ≤ m ∧ m < blockNo virt + n then
        .desc (bootDesc (phy + pmdSz * (m - blockNo virt)) dev)
      else t.block m := by
  induction n generalizing t virt phy with
  | zero =>
    rw [if_neg (by omega)]
    rfl
  | succ n more =>
    rw [bootFrom]
    by_cases last : n = 0
    · subst last
      rw [bootFrom, block_set]
      by_cases here : m = blockNo virt
      · rw [if_pos here, if_pos (by omega), here, Nat.sub_self, Nat.mul_zero, Nat.add_zero]
      · rw [if_neg here, if_neg (by omega)]
    · have next : blockNo (virt + pmdSz) = blockNo virt + 1 := by
        have unit : pmdSz = 2097152 := rfl
        simp only [blockNo, unit] at fits ⊢
        omega
      rw [more _ _ _ (by omega), next, block_set]
      by_cases here : m = blockNo virt
      · rw [if_neg (by omega), if_pos here, if_pos (by omega), here, Nat.sub_self, Nat.mul_zero,
          Nat.add_zero]
      · rw [if_neg here]
        by_cases inside : blockNo virt + 1 ≤ m ∧ m < blockNo virt + 1 + n
        · rw [if_pos inside, if_pos (by omega)]
          have later : m - blockNo virt = m - (blockNo virt + 1) + 1 := by omega
          rw [later, Nat.mul_succ, Nat.add_assoc, Nat.add_comm pmdSz]
        · rw [if_neg inside, if_neg (by omega)]

theorem block_setBootpgtbl (first count : Nat) {t : Pgtbl} {virt phy len : Nat} {dev : Bool}
    (start : blockNo virt = first) (size : (len + pmdSz - 1) / pmdSz = count)
    (fits : first + count ≤ 2048) (m : Nat) : (setBootpgtbl t virt phy len dev).block m =
      if first ≤ m ∧ m < first + count then .desc (bootDesc (phy + pmdSz * (m - first)) dev)
      else t.block m := by
  subst start size
  exact block_bootFrom _ t virt phy dev fits m

/-- Block 512 is the memory of the boot map, blocks 64 to 79 lead to the devices at their own
addresses, and the eight blocks behind to those of the eight before. -/
theorem block_start (m : Nat) : (start fun _ _ => .desc 0).block m =
      if 80 ≤ m ∧ m < 88 then .desc (bootDesc (pmdSz * (m - 8)) true)
      else if 64 ≤ m ∧ m < 80 then .desc (bootDesc (pmdSz * m) true)
      else if m = 512 then .desc (bootDesc (pmdSz * m) false)
      else .desc 0 := by
  have blank : Pgtbl.block (fun _ _ => .desc 0) m = .desc 0 := rfl
  have address : ∀ {phy k : Nat}, phy = pmdSz * k → ∀ first,
      phy + pmdSz * (m - first) = pmdSz * (k + (m - first)) := by
    rintro _ k rfl first
    rw [Nat.mul_add]
  rw [start, block_setBootpgtbl 80 8 (by decide) (by decide) (by decide),
    block_setBootpgtbl 72 8 (by decide) (by decide) (by decide),
    block_setBootpgtbl 64 8 (by decide) (by decide) (by decide),
    block_setBootpgtbl 72 8 (by decide) (by decide) (by decide),
    block_setBootpgtbl 512 1 (by decide) (by decide) (by decide),
    block_setBootpgtbl 512 1 (by decide) (by decide) (by decide), blank,
    address (show devbase2 = pmdSz * 72 from rfl), address (show devbase2 = pmdSz * 72 from rfl),
    address (show devbase1 = pmdSz * 64 from rfl), address (show phyStart = pmdSz * 512 from rfl)]
  by_cases third : 80 ≤ m ∧ m < 88
  · rw [if_pos (by omega), if_pos third, show 72 + (m - 80) = m - 8 by omega]
  by_cases second : 72 ≤ m ∧ m < 80
  · rw [if_neg (by omega), if_pos (by omega), if_neg third, if_pos (by omega),
      show 72 + (m - 72) = m by omega]
  by_cases first : 64 ≤ m ∧ m < 72
  · rw [if_neg (by omega), if_neg (by omega), if_pos (by omega), if_neg third, if_pos (by omega),
      show 64 + (m - 64) = m by omega]
  rw [if_neg (by omega), if_neg (by omega), if_neg (by omega), if_neg (by omega), if_neg third,
    if_neg (show ¬(64 ≤ m ∧ m < 80) by omega)]
  by_cases memory : m = 512
  · rw [if_pos (by omega), if_pos memory, show 512 + (m - 512) = m by omega]
  · rw [if_neg (by omega), if_neg (by omega), if_neg memory]

/-! ### Translation -/

theorem leaf_bootDesc {t : Pgtbl} {va phy : Nat} {dev : Bool} (aligned : pmdSz ∣ phy)
    (small : phy < 2 ^ 48) (word : t (pgdIdx va) (pmdIdx va) = .desc (bootDesc phy dev)) :
    translate t va = some (phy + va % pmdSz) := by
  rw [translate, leaf, word]
  dsimp only
  rw [if_pos (bootDesc_block dev aligned small), Option.map_some,
    outputAddress_bootDesc dev aligned small]

theorem leaf_blank {t : Pgtbl} {va : Nat} (word : t (pgdIdx va) (pmdIdx va) = .desc 0) :
    translate t va = none := by
  rw [translate, leaf, word]
  rfl

theorem Filled.translate {base t : Pgtbl} {lo n va : Nat} (filled : Filled base t lo n)
    (low : lo ≤ vpn va) (high : vpn va < n) : KernelMap.translate t va = some (va % 2 ^ 32) := by
  obtain ⟨first, second, third⟩ := idx_vpn va
  obtain ⟨pt, table, entries⟩ := filled.tables _ _ _ low high ⟨first, second⟩
  have entry := entries _ ⟨first, second⟩
  rw [if_pos ⟨low, high⟩, ← third] at entry
  have aligned : pteSz ∣ vpn va * pteSz := Nat.dvd_mul_left ..
  have small : vpn va * pteSz < 2 ^ 48 := by
    simp only [vpn, pteSz_eq]
    omega
  have whole : vpn va * pteSz + va % pteSz = va % 2 ^ 32 := by
    simp only [vpn, pteSz_eq]
    omega
  rw [KernelMap.translate, leaf, table]
  dsimp only
  rw [entry, if_pos (pageDesc_page aligned), Option.map_some, outputAddress_pageDesc aligned small,
    whole]

/-- The kernel's table translates the memory and the first two device windows to themselves, and
the third window to the second. -/
theorem Filled.translate_eq {t : Pgtbl}
    (filled : Filled (start fun _ _ => .desc 0) t lowPage highPage) (va : Nat) :
    KernelMap.translate t va =
      if phyStart ≤ va % 2 ^ 32 ∧ va % 2 ^ 32 < physTop ∨
          devbase1 ≤ va % 2 ^ 32 ∧ va % 2 ^ 32 < devbase3 then some (va % 2 ^ 32)
      else if devbase3 ≤ va % 2 ^ 32 ∧ va % 2 ^ 32 < devbase3 + devMemSz then
        some (va % 2 ^ 32 - devMemSz)
      else none := by
  have blockUnit : pmdSz = 2097152 := rfl
  have bottom : phyStart = 1073741824 := rfl
  have top : physTop = 1207959552 := rfl
  have first : devbase1 = 134217728 := rfl
  have third : devbase3 = 167772160 := rfl
  have size : devMemSz = 16777216 := rfl
  have lowEq : lowPage = 262656 := rfl
  have highEq : highPage = 294912 := rfl
  have number : vpn va = va / 4096 % 2 ^ 20 := by rw [vpn, pteSz_eq]
  have block : blockNo va = va / 2097152 % 2048 := by rw [blockNo, blockUnit]
  by_cases pages : lowPage ≤ vpn va ∧ vpn va < highPage
  · rw [filled.translate pages.1 pages.2, if_pos (by omega)]
  -- No page of `paging_init` lies in this block, so the word is the one of `start`.
  have apart : ∀ m, lowPage ≤ m → m < highPage → ¬Under m (pgdIdx va) (pmdIdx va) := by
    rintro m low high ⟨same, sameBlock⟩
    obtain ⟨i, j⟩ := idx_blockNo va
    omega
  have word : t (pgdIdx va) (pmdIdx va) = _ :=
    (filled.same _ _ apart).trans ((block_blockNo _ va).trans (block_start _))
  by_cases window : 80 ≤ blockNo va ∧ blockNo va < 88
  · rw [if_pos window] at word
    rw [leaf_bootDesc (Nat.dvd_mul_right ..) (by rw [blockUnit]; omega) word, if_neg (by omega),
      if_pos (by omega), blockUnit]
    exact congrArg some (by omega)
  rw [if_neg window] at word
  by_cases device : 64 ≤ blockNo va ∧ blockNo va < 80
  · rw [if_pos device] at word
    rw [leaf_bootDesc (Nat.dvd_mul_right ..) (by rw [blockUnit]; omega) word, if_pos (by omega),
      blockUnit]
    exact congrArg some (by omega)
  rw [if_neg device] at word
  by_cases memory : blockNo va = 512
  · rw [if_pos memory] at word
    rw [leaf_bootDesc (Nat.dvd_mul_right ..) (by rw [blockUnit]; omega) word, if_pos (by omega),
      blockUnit]
    exact congrArg some (by omega)
  · rw [if_neg memory] at word
    rw [leaf_blank word, if_neg (by omega), if_neg (by omega)]

/-- The kernel's table is linear, except for the third device window; and the memory and the first
two windows are reached at their kernel addresses. -/
theorem kernel_linear_iff (va : Nat) :
    ∃ t, kernelMap = .ok t ∧
      (kernBase ≤ va → va < 2 ^ 64 →
        ((∀ pa, translate t va = some pa → pa = v2p va) ↔
          ¬(p2v devbase3 ≤ va ∧ va < p2v (devbase3 + devMemSz)))) ∧
      ∀ pa, phyStart ≤ pa ∧ pa < physTop ∨ devbase1 ≤ pa ∧ pa < devbase3 →
        translate t (p2v pa) = some pa := by
  obtain ⟨t, run, filled⟩ := kernelMap_filled
  refine ⟨t, run, ?_, ?_⟩
  · intro low high
    have offset : va % 2 ^ 32 = v2p va := by
      simp only [v2p, kernBase] at low ⊢
      omega
    have window : p2v devbase3 ≤ va ∧ va < p2v (devbase3 + devMemSz) ↔
        devbase3 ≤ v2p va ∧ v2p va < devbase3 + devMemSz := by
      simp only [p2v, v2p]
      omega
    have size : devMemSz = 16777216 := rfl
    have third : devbase3 = 167772160 := rfl
    have bottom : phyStart = 1073741824 := rfl
    rw [filled.translate_eq, offset, window]
    split_ifs with straight shifted
    · refine iff_of_true (fun pa same => (Option.some.inj same).symm) ?_
      omega
    · refine iff_of_false (fun linear => ?_) (fun other => other shifted)
      have wrong := linear _ rfl
      omega
    · exact iff_of_true (fun pa none => by cases none) shifted
  · intro pa mapped
    have top : physTop = 1207959552 := rfl
    have third : devbase3 = 167772160 := rfl
    have offset : p2v pa % 2 ^ 32 = pa := by
      simp only [p2v, kernBase]
      omega
    rw [filled.translate_eq, offset, if_pos mapped]

/-- The transports of VirtIO lie in the third window, but their kernel address leads to the UART. -/
theorem virtio_leads_to_uart :
    ∃ t, kernelMap = .ok t ∧ translate t (p2v devbase3) = some devbase2 := by
  obtain ⟨t, run, filled⟩ := kernelMap_filled
  refine ⟨t, run, ?_⟩
  rw [filled.translate_eq]
  decide

end KernelMap
