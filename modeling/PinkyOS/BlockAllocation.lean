import PinkyOS.BlockOwnership
import PinkyOS.FileRead

/-!
# Allocating and freeing blocks

The functions of `fs.c` that change the disk, as programs that keep the ownership of blocks. The
same proofs serve three ends, which `Mode` tells apart: that a program keeps ownership whenever it
returns; that a transaction fits into the log and the buffer cache; and that a program returns at
all.
-/
namespace FileSystem
open ByteBuffer DiskLog DiskFormat FileMap Program
open SleepWakeup (Slot ProcState)

/-- What is kept account of besides the machine: the inodes as they are meant to be, the loose
blocks, the sectors held, a set with all sectors logged so far, and whether a transaction is
open. -/
structure Ghost where
  dn : Nat → Dinode
  loose : Finset Nat
  held : Finset Nat
  logs : Finset Nat
  trans : Bool

structure Sound (g : Geometry) (γ : Ghost) (s : Machine) : Prop where
  owned : Owned g γ.loose s.cur γ.dn
  size : (Superblock.ofBlock (s.cur 1)).size = g.size
  ninodes : (Superblock.ofBlock (s.cur 1)).ninodes = g.ninodes
  disk : g.size ≤ s.disksize
  held : ∀ b, s.held b = true ↔ b ∈ γ.held
  busy : s.log.busy = γ.trans
  nlog : s.log.size = g.nlog
  nodup : s.log.lh.Nodup
  logs : ∀ b ∈ s.log.lh, b ∈ γ.logs
  boot : 0 ∉ γ.logs

/-- The operations that need no buffer. -/
def Op.Quiet : Op → Prop
  | .bread _ _ => False
  | .logWrite _ _ => False
  | .commitTrans => False
  | _ => True

/-- What the operations do, and the ways a program may stop. If it is `counted`, what is logged
and held must stay small; if it is `funded`, the program must not stop. -/
structure Mode (g : Geometry) where
  perf : Machine → (o : Op) → Outcome Machine (Res o)
  stop : Option String → Prop
  counted : Prop
  funded : Prop
  quiet : ∀ s o, o.Quiet → perf s o = perform s o
  same : ∀ {γ s} o, Sound g γ s → (counted → γ.held.card + γ.logs.card ≤ 9) →
    perf s o = perform s o
  log : counted → logsize ≤ g.nlog
  tooBig : ¬counted → stop (some "too big a transaction")
  whole : ¬funded → g.hi = g.size
  lenient : ¬funded → ∀ p, p ≠ some "too big a transaction" → p ≠ some "freeing free block" →
    stop p

/-- The machine after `log_write`. -/
def Machine.logged (s : Machine) (b : Nat) (data : Block) : Machine :=
  { s with
    cur := Function.update s.cur b data
    log := { s.log with lh := addSector s.log.lh b } }

theorem Machine.logged_setHeld (s : Machine) (b c : Nat) (h : Bool) (data : Block) :
    (s.setHeld b h).logged c data = (s.logged c data).setHeld b h := rfl

theorem mem_addSector {lh : List Nat} {b c : Nat} (mem : c ∈ addSector lh b) : c = b ∨ c ∈ lh := by
  rw [addSector] at mem
  split at mem
  · rcases List.mem_append.mp mem with old | new
    · exact .inr old
    · exact .inl (List.mem_singleton.mp new)
  · exact .inr mem

theorem nodup_addSector {lh : List Nat} {b : Nat} (nodup : lh.Nodup) : (addSector lh b).Nodup := by
  rw [addSector]
  split
  case isTrue fresh =>
    have notIn : b ∉ lh := List.idxOf_eq_length_iff.mp fresh
    rw [List.nodup_append]
    refine ⟨nodup, List.nodup_singleton b, ?_⟩
    rintro c old d new rfl
    exact notIn (List.mem_singleton.mp new ▸ old)
  case isFalse => exact nodup

variable {g : Geometry} {m : Mode g} {γ : Ghost} {s t : Machine} {b : Nat} {data : Block}
  {α β : Type} {post : β → Machine → Prop}

/-! ### Operations -/

theorem Mode.step (o : Op) (quiet : o.Quiet) {r : Res o} {k : Res o → M β}
    (performed : perform s o = .done r t) (rest : Runs m.perf m.stop post (k r) t) :
    Runs m.perf m.stop post (call o >>= k) s :=
  Runs.known o ((m.quiet s o quiet).trans performed) rest

/-- A panic that the mode allows. -/
theorem Mode.panic (msg : String) (small : msg ≠ "too big a transaction")
    (set : msg ≠ "freeing free block") (poor : ¬ m.funded) :
    Runs m.perf m.stop post (panic msg) s := by
  have stops : m.stop (some msg) := m.lenient poor _ (by simpa) (by simpa)
  simp only [FileSystem.panic, Runs, m.quiet s (.panic msg) trivial, perform]
  exact stops

theorem Sound.lh_le (sound : Sound g γ s) : s.log.lh.length ≤ γ.logs.card := by
  rw [← List.toFinset_card_of_nodup sound.nodup]
  apply Finset.card_le_card
  intro b listed
  exact sound.logs b (List.mem_toFinset.mp listed)

theorem Sound.hold (sound : Sound g γ s) :
    Sound g { γ with held := insert b γ.held } (s.setHeld b true) := by
  refine { sound with held := fun c => ?_ }
  by_cases here : c = b
  · simp [Machine.setHeld, here]
  · simp [Machine.setHeld, here, sound.held]

theorem Sound.logged {L : Finset Nat} {dn : Nat → Dinode} (sound : Sound g γ s) (beyond : 1 < b)
    (owned : Owned g L (Function.update s.cur b data) dn) :
    Sound g { γ with dn := dn, loose := L, logs := insert b γ.logs } (s.logged b data) := by
  have super : (s.logged b data).cur 1 = s.cur 1 := Function.update_of_ne (by omega) _ _
  constructor
  case owned => exact owned
  case size =>
    rw [super]
    exact sound.size
  case ninodes =>
    rw [super]
    exact sound.ninodes
  case disk => exact sound.disk
  case held => exact sound.held
  case busy => exact sound.busy
  case nlog => exact sound.nlog
  case nodup => exact nodup_addSector sound.nodup
  case logs =>
    intro c listed
    rcases mem_addSector listed with rfl | old
    · exact Finset.mem_insert_self _ _
    · exact Finset.mem_insert_of_mem (sound.logs c old)
  case boot =>
    intro listed
    rcases Finset.mem_insert.mp listed with same | old
    · omega
    · exact sound.boot old

/-- No more than what the log and the cache have room for. -/
def Mode.Room (m : Mode g) (γ : Ghost) (held : Nat) : Prop :=
  m.counted → γ.held.card ≤ held ∧ γ.logs.card ≤ 7

section
variable (sound : Sound g γ s)
include sound

theorem Sound.bread {k : Block → M β} (room : m.Room γ 2) (can : m.funded → b < g.size ∧ b ∉ γ.held)
    (rest : b ∉ γ.held → Runs m.perf m.stop post (k (s.cur b)) (s.setHeld b true)) :
    Runs m.perf m.stop post (bread rootdev b >>= k) s := by
  have same : m.perf s (.bread rootdev b) = perform s (.bread rootdev b) := by
    apply m.same _ sound
    intro counted
    have := room counted
    omega
  have lenient : ¬ m.funded → ∀ p, p ≠ some "too big a transaction" →
    p ≠ some "freeing free block" → m.stop p := m.lenient
  apply Runs.op (o := Op.bread rootdev b) <;> rw [same]
  case done =>
    intro r u performed
    simp only [perform, ne_eq, not_true_eq_false, if_false] at performed
    split_ifs at performed with range held
    cases performed
    exact rest fun mem => held ((sound.held b).mpr mem)
  case wait =>
    intro waits
    apply lenient _ _ (by simp) (by simp)
    intro funded
    simp only [perform, ne_eq, not_true_eq_false, if_false] at waits
    split_ifs at waits with range held
    exact (can funded).2 ((sound.held b).mp held)
  case panic =>
    intro msg stops
    simp only [perform, ne_eq, not_true_eq_false, if_false] at stops
    split_ifs at stops with range held
    cases stops
    apply lenient _ _ (by simp) (by simp)
    intro funded
    have inside := (can funded).1
    have disk := sound.disk
    omega

theorem Sound.logWrite {k : Unit → M β} (room : m.Room γ 2) (trans : m.funded → γ.trans = true)
    (rest : Runs m.perf m.stop post (k ()) (s.logged b data)) :
    Runs m.perf m.stop post (logWrite b data >>= k) s := by
  have same : m.perf s (.logWrite b data) = perform s (.logWrite b data) := by
    apply m.same _ sound
    intro counted
    have := room counted
    omega
  apply Runs.op (o := Op.logWrite b data) <;> rw [same]
  case done =>
    intro r u performed
    simp only [perform] at performed
    split_ifs at performed
    cases performed
    exact rest
  case wait =>
    intro waits
    simp only [perform] at waits
    split_ifs at waits
  case panic =>
    intro msg stops
    simp only [perform] at stops
    split_ifs at stops with full outside
    · cases stops
      apply m.tooBig
      intro counted
      have small := (room counted).2
      have length := sound.lh_le
      have nlog := sound.nlog
      have size := m.log counted
      simp only [logsize] at full size
      omega
    · cases stops
      apply m.lenient _ _ (by simp) (by simp)
      intro funded
      rw [sound.busy, trans funded] at outside
      cases outside

theorem Sound.notHeld (free : b ∉ γ.held) : s.held b = false := by
  by_contra isHeld
  exact free ((sound.held b).mp (by simpa using isHeld))

theorem Sound.brelse {k : Unit → M β} (free : b ∉ γ.held)
    (rest : Runs m.perf m.stop post (k ()) s) :
    Runs m.perf m.stop post (brelse b >>= k) (s.setHeld b true) :=
  Mode.step (.brelse b) trivial (perform_brelse (sound.notHeld free)) rest

end

theorem Mode.Room.hold (room : m.Room γ 1) : m.Room { γ with held := insert b γ.held } 2 := by
  intro counted
  obtain ⟨held, logs⟩ := room counted
  have := Finset.card_insert_le b γ.held
  exact ⟨by simp only; omega, logs⟩

theorem Mode.Room.mono {h : Nat} (room : m.Room γ h) (le : h ≤ 2) : m.Room γ 2 := by
  intro counted
  obtain ⟨held, logs⟩ := room counted
  exact ⟨by omega, logs⟩

theorem Sound.relog {k : Unit → M β} (sound : Sound g γ s) (free : b ∉ γ.held)
    (room : m.Room γ 1) (trans : m.funded → γ.trans = true)
    (rest : Runs m.perf m.stop post (k ()) (s.logged b data)) :
    Runs m.perf m.stop post (FileSystem.logWrite b data >>= fun _ => FileSystem.brelse b >>= k)
      (s.setHeld b true) := by
  apply sound.hold.logWrite room.hold trans
  rw [Machine.logged_setHeld]
  have notHeld : (s.logged b data).held b = false := sound.notHeld free
  exact Mode.step (.brelse b) trivial (perform_brelse notHeld) rest

/-! ### `balloc` and `bfree` -/

theorem Sound.readsb {k : Superblock → M β} (sound : Sound g γ s) (room : m.Room γ 2)
    (free : m.funded → 1 ∉ γ.held)
    (rest : Runs m.perf m.stop post (k (Superblock.ofBlock (s.cur 1))) s) :
    Runs m.perf m.stop post (readsb rootdev >>= k) s := by
  apply Runs.bind
  apply sound.bread room
  · intro funded
    exact ⟨g.one_lt_bm.trans g.bm_lt_size, free funded⟩
  · intro notHeld
    apply sound.brelse notHeld
    exact rest

theorem Sound.bzero {k : Unit → M β} (sound : Sound g γ s) (room : m.Room γ 1)
    (trans : m.funded → γ.trans = true) (can : m.funded → b < g.size ∧ b ∉ γ.held)
    (rest : Runs m.perf m.stop post (k ()) (s.logged b fun _ => 0)) :
    Runs m.perf m.stop post (bzero rootdev b >>= k) s := by
  apply Runs.bind
  apply sound.bread (room.mono (by omega)) can
  intro notHeld
  exact sound.relog notHeld room trans rest

theorem freeBit_some {n bi : Nat} (found : freeBit data n = some bi) :
    bi < n ∧ bit data bi = false ∧ ∀ c < bi, bit data c = true := by
  rw [freeBit, List.find?_range_eq_some] at found
  obtain ⟨clear, less, first⟩ := found
  refine ⟨List.mem_range.mp less, by simpa using clear, fun c before => ?_⟩
  simpa using first c before

theorem freeBit_none {n c : Nat} (none' : freeBit data n = none) (inside : c < n) :
    bit data c = true := by
  rw [freeBit, List.find?_eq_none] at none'
  simpa using none' c (List.mem_range.mpr inside)

/-- The machine after `balloc` has handed out block `b`. -/
def Machine.allocated (s : Machine) (g : Geometry) (b : Nat) : Machine :=
  (s.logged g.bm (setBit (s.cur g.bm) b)).logged b fun _ => 0

theorem Mode.Room.less {h : Nat} (room : m.Room { γ with logs := insert b γ.logs } h) :
    m.Room γ h := by
  intro counted
  obtain ⟨held, logs⟩ := room counted
  have le := Finset.card_le_card (Finset.subset_insert b γ.logs)
  exact ⟨held, le.trans logs⟩

/-- The block that `balloc` finds is free. -/
theorem Sound.freeBit (sound : Sound g γ s) (free : m.funded → (freeBlocks g s.cur).Nonempty)
    (found : freeBit (s.cur g.bm) (min bpb (g.size - 0)) = some b) : b ∈ freeBlocks g s.cur := by
  obtain ⟨less, clear, first⟩ := freeBit_some found
  rw [mem_freeBlocks]
  refine ⟨⟨?_, ?_⟩, clear⟩
  · by_contra low
    rw [sound.owned.low b (by omega)] at clear
    cases clear
  · by_cases funded : m.funded
    · obtain ⟨c, isFree⟩ := free funded
      rw [mem_freeBlocks] at isFree
      have notAfter : ¬ c < b := by
        intro before
        rw [first c before] at isFree
        cases isFree.2
      omega
    · rw [m.whole funded]
      omega

/-- `balloc` hands out a free block, which is marked and zeroed. -/
theorem Sound.balloc {k : Nat → M β} (sound : Sound g γ s)
    (room : m.Room { γ with logs := insert g.bm γ.logs } 1) (trans : m.funded → γ.trans = true)
    (held : m.funded → ∀ h ∈ γ.held, g.lo ≤ h ∧ bit (s.cur g.bm) h = true)
    (free : m.funded → (freeBlocks g s.cur).Nonempty)
    (rest : ∀ b ∈ freeBlocks g s.cur, Runs m.perf m.stop post (k b) (s.allocated g b)) :
    Runs m.perf m.stop post (balloc rootdev >>= k) s := by
  have one := g.one_lt_bm
  have lo := g.bm_lt_lo
  have size := g.bm_lt_size
  have bound := g.one
  have rounds : (g.size + bpb - 1) / bpb = 1 := by
    simp only [bpb] at bound ⊢
    omega
  have sector : bblock 0 g.ninodes = g.bm := by
    simp [bblock, Geometry.bm]
  have low : m.funded → ∀ b < g.lo, b ∉ γ.held := by
    intro funded b less isHeld
    have := held funded b isHeld
    omega
  apply Runs.bind
  apply sound.readsb (room.less.mono (by omega))
  · intro funded
    exact low funded 1 (by omega)
  simp only [sound.size, rounds, ballocLoop, sound.ninodes, sector]
  apply sound.bread (room.less.mono (by omega))
  · intro funded
    exact ⟨size, low funded g.bm lo⟩
  intro notHeld
  cases found : FileSystem.freeBit (s.cur g.bm) (min bpb (g.size - 0)) with
  | none =>
    apply sound.brelse notHeld
    apply Mode.panic _ (by simp) (by simp)
    intro funded
    obtain ⟨c, isFree⟩ := free funded
    rw [mem_freeBlocks] at isFree
    have within := g.within
    rw [freeBit_none found (by omega)] at isFree
    cases isFree.2
  | some b =>
    have isFree := sound.freeBit free found
    have range := mem_freeBlocks.mp isFree
    apply sound.relog notHeld room.less trans
    have marked := sound.logged (by omega) (sound.owned.mark range.1.1 range.1.2 range.2)
    simp only [Nat.zero_add]
    apply marked.bzero room trans
    · intro funded
      have within := g.within
      refine ⟨by omega, fun isHeld => ?_⟩
      have set := (held funded b isHeld).2
      rw [range.2] at set
      cases set
    · exact rest b isFree

/-- The block that was handed out is loose. -/
theorem Sound.allocated (sound : Sound g γ s) (isFree : b ∈ freeBlocks g s.cur) :
    Sound g { γ with loose := insert b γ.loose, logs := insert b (insert g.bm γ.logs) }
      (s.allocated g b) := by
  have range := mem_freeBlocks.mp isFree
  have one := g.one_lt_bm
  have lo := g.bm_lt_lo
  have marked := sound.logged (by omega) (sound.owned.mark range.1.1 range.1.2 range.2)
  exact marked.logged (by omega) (marked.owned.writeLoose (Finset.mem_insert_self b γ.loose))

/-! ### `iupdate` -/

/-- The machine after `iupdate`. -/
def Machine.synced (s : Machine) (i : InodeId) : Machine :=
  s.logged (iblock (s.inode i).inum)
    (Dinode.store (s.cur (iblock (s.inode i).inum)) (s.inode i).inum (s.inode i).d)

theorem Sound.iupdate {i : InodeId} {k : Unit → M β} (sound : Sound g γ s)
    (dev : (s.inode i).dev = rootdev) (ranged : (s.inode i).inum < g.ninodes) (room : m.Room γ 1)
    (trans : m.funded → γ.trans = true) (held : m.funded → ∀ h ∈ γ.held, g.lo ≤ h)
    (rest : Runs m.perf m.stop post (k ()) (s.synced i)) :
    Runs m.perf m.stop post (iupdate i >>= k) s := by
  have sector := g.iblock_lt ranged
  have lo := g.bm_lt_lo
  apply Runs.bind
  apply Mode.step (.look i) trivial rfl
  rw [dev]
  apply sound.bread (room.mono (by omega))
  · intro funded
    refine ⟨sector.trans g.bm_lt_size, fun isHeld => ?_⟩
    have := held funded _ isHeld
    omega
  intro notHeld
  exact sound.relog notHeld room trans rest

theorem Sound.synced {i : InodeId} (sound : Sound g γ s) (ranged : (s.inode i).inum < g.ninodes) :
    Sound g { γ with logs := insert (iblock (s.inode i).inum) γ.logs } (s.synced i) := by
  have sector := g.iblock_lt ranged
  have lo := g.bm_lt_lo
  have low : 1 < iblock (s.inode i).inum := by
    simp only [iblock, ipb]
    omega
  exact sound.logged low (sound.owned.writeLow (by omega) (by omega))

end FileSystem
