import PinkyOS.BlockAllocation
import PinkyOS.FileGrowth

/-!
# Writing files

`bmap` and `writei` on an inode whose copy in memory is the valid one: the bytes are stored where
they belong, and every other byte of every file stays.
-/
namespace FileSystem
open ByteBuffer DiskLog DiskFormat FileMap Program Function Finset Machine
open SleepWakeup (Slot ProcState)

variable {g : Geometry} {m : Mode g} {γ γ' γ'' : Ghost} {s t u : Machine} {i : InodeId}
  {α β : Type} {post : β → Machine → Prop} {n c b bn w off : Nat} {data : Block} {d : Dinode}
  {src src' : List UInt8}

/-! ### What such a step leaves alone -/

/-- The machine with other sectors and another copy of one inode. -/
def Machine.patch (s : Machine) (i : InodeId) (cur : Nat → Block) (lh : List Nat) (d : Dinode) :
    Machine :=
  { s with
    cur := cur
    log := { s.log with lh := lh }
    inode := Function.update s.inode i { s.inode i with d := d } }

/-- Only the sectors and the copy of one inode have changed. -/
def Patched (i : InodeId) (s t : Machine) : Prop := t = s.patch i t.cur t.log.lh (t.inode i).d

namespace Patched

theorem refl : Patched i s s := by
  simp [Patched, patch]

theorem trans (first : Patched i s t) (second : Patched i t u) : Patched i s u := by
  rw [Patched] at first second ⊢
  rw [second, first]
  simp [patch]

theorem logged (patched : Patched i s t) : Patched i s (t.logged b data) := by
  apply patched.trans
  simp [Patched, Machine.patch, Machine.logged]

theorem store (patched : Patched i s t) : Patched i s (t.setInode i { t.inode i with d := d }) := by
  apply patched.trans
  simp [Patched, patch, setInode]

variable (patched : Patched i s t)
include patched

theorem inode : t.inode i = { s.inode i with d := (t.inode i).d } := by
  conv_lhs => rw [patched]
  exact update_self ..

theorem dev : (t.inode i).dev = (s.inode i).dev := by rw [patched.inode]

theorem inum : (t.inode i).inum = (s.inode i).inum := by rw [patched.inode]

end Patched

/-- Bytes have been stored, but neither the size nor the inode on the disk has changed. -/
structure Wrote (g : Geometry) (n : Nat) (i : InodeId) (off : Nat) (src : List UInt8) (γ : Ghost)
    (s : Machine) (γ' : Ghost) (t : Machine) : Prop where
  patched : Patched i s t
  loose : γ'.loose = γ.loose
  held : γ'.held = γ.held
  trans : γ'.trans = γ.trans
  written : Written g n (s.inode i).inum off src s.cur γ.dn t.cur γ'.dn
  size : (t.inode i).d.size = (s.inode i).d.size
  disk : t.cur (iblock (s.inode i).inum) = s.cur (iblock (s.inode i).inum)

theorem Wrote.then (first : Wrote g n i off src γ s γ' t)
    (second : Wrote g n i (off + src.length) src' γ' t γ'' u) :
    Wrote g n i off (src ++ src') γ s γ'' u := by
  constructor
  case patched => exact first.patched.trans second.patched
  case loose => rw [second.loose, first.loose]
  case held => rw [second.held, first.held]
  case trans => rw [second.trans, first.trans]
  case written =>
    have later := second.written
    rw [first.patched.inum] at later
    exact first.written.trans later
  case size => rw [second.size, first.size]
  case disk =>
    have later := second.disk
    rw [first.patched.inum] at later
    rw [later, first.disk]

/-- How many blocks the bytes from `off` on lie in. -/
def rounds (off len : Nat) : Nat := if len = 0 then 0 else (off % bsize + len - 1) / bsize + 1

theorem rounds_step {len : Nat} (some' : len ≠ 0) :
    rounds off len = 1 + rounds (off + min len (bsize - off % bsize))
      (len - min len (bsize - off % bsize)) := by
  by_cases last : len ≤ bsize - off % bsize
  · rw [Nat.min_eq_left last, Nat.sub_self, rounds, if_neg some', rounds, if_pos rfl]
    simp only [bsize] at last ⊢
    omega
  · rw [Nat.min_eq_right (by omega), rounds, if_neg some', rounds, if_neg (by omega)]
    simp only [bsize] at last ⊢
    omega

/-! ### `bmap` -/

/-- The inode is in use, and its copy in memory is what counts. The transaction has logged at most
`c` sectors besides the bitmap and the indirect block, and there are enough free blocks for the
first `n` slots. -/
structure Opened (m : Mode g) (n c : Nat) (γ : Ghost) (s : Machine) (i : InodeId) : Prop
    extends Sound g γ s where
  dev : (s.inode i).dev = rootdev
  ranged : (s.inode i).inum < g.ninodes
  copy : γ.dn (s.inode i).inum = (s.inode i).d
  idle : γ.held = ∅
  trans : m.funded → γ.trans = true
  room : m.counted → (γ.logs \ {g.bm, (s.inode i).d.addr ndirect}).card ≤ c
  need : m.funded → SlotRefs.lacking (slotRef s.cur (s.inode i).d) n ≤ (freeBlocks g s.cur).card

theorem card_insert_sdiff (A B : Finset Nat) (x : Nat) :
    (insert x A \ B).card ≤ (A \ B).card + 1 := by
  have sub : insert x A \ B ⊆ insert x (A \ B) := by
    intro y
    simp only [mem_sdiff, mem_insert]
    tauto
  exact (card_le_card sub).trans (card_insert_le _ _)

/-- What `bmap` leaves: block `bn` is `b`, which may be logged. -/
def Maps (m : Mode g) (n c : Nat) (i : InodeId) (off bn : Nat) (γ : Ghost) (s : Machine) (b : Nat)
    (t : Machine) : Prop :=
  ∃ γ', Opened m n (c + 1) γ' t i ∧ Wrote g n i off [] γ s γ' t ∧
    refs t.cur γ'.dn ((s.inode i).inum, slotOf bn) = b ∧ b ≠ 0 ∧ b ∈ γ'.logs

namespace Opened

section
variable (opened : Opened m n c γ s i)
include opened

theorem card_logs (counted : m.counted) : (insert g.bm γ.logs).card ≤ c + 2 := by
  have le := card_le_card_sdiff_add_card (s := insert g.bm γ.logs)
    (t := {g.bm, (s.inode i).d.addr ndirect})
  rw [insert_sdiff_of_mem _ (mem_insert_self _ _)] at le
  have two := card_le_two (a := g.bm) (b := (s.inode i).d.addr ndirect)
  have room := opened.room counted
  omega

theorem roomFor (few : m.counted → c ≤ 4) : m.Room { γ with logs := insert g.bm γ.logs } 1 := by
  intro counted
  have logs := opened.card_logs counted
  have := few counted
  simp only [opened.idle, card_empty]
  omega

theorem mapped (here : refs s.cur γ.dn ((s.inode i).inum, slotOf bn) = b) (nonzero : b ≠ 0) :
    Maps m n c i off bn γ s b s := by
  refine ⟨{ γ with logs := insert b γ.logs }, ?_, ?_, here, nonzero, mem_insert_self _ _⟩
  · refine { opened with logs := ?_, boot := ?_, room := ?_ }
    · exact fun x listed => mem_insert_of_mem (opened.logs x listed)
    · intro listed
      rcases mem_insert.mp listed with same | old
      · exact nonzero same.symm
      · exact opened.boot old
    · intro counted
      have := card_insert_sdiff γ.logs {g.bm, (s.inode i).d.addr ndirect} b
      have := opened.room counted
      simp only
      omega
  · exact ⟨Patched.refl, rfl, rfl, rfl, Written.refl, rfl, rfl⟩

theorem fill {j c' : Nat}
    (filled : Filled g (s.inode i).inum j b s.cur γ.dn t.cur γ'.dn) (less : j < n)
    (sound : Sound g γ' t) (patched : Patched i s t)
    (copy : γ'.dn (s.inode i).inum = (t.inode i).d) (held : γ'.held = γ.held)
    (trans : γ'.trans = γ.trans)
    (room : m.counted → (γ'.logs \ {g.bm, (t.inode i).d.addr ndirect}).card ≤ c') :
    Opened m n c' γ' t i := by
  constructor
  case toSound => exact sound
  case dev => rw [patched.dev, opened.dev]
  case ranged =>
    rw [patched.inum]
    exact opened.ranged
  case copy => rw [patched.inum, copy]
  case idle => rw [held, opened.idle]
  case trans =>
    rw [trans]
    exact opened.trans
  case room => exact room
  case need =>
    intro funded
    have before := opened.need funded
    have slots := filled.lacking less
    have blocks := filled.free_card
    rw [copy, opened.copy] at slots
    omega

/-- The sectors logged after `balloc` for an address of the inode. -/
theorem room_addr {j : Nat} (counted : m.counted) (small : b < 2 ^ 32)
    (le : j ≤ ndirect) (empty : (s.inode i).d.addr j = 0) :
    (insert b (insert g.bm γ.logs) \ {g.bm, ((s.inode i).d.setAddr j b).addr ndirect}).card ≤
      if j = ndirect then c else c + 1 := by
  have room := opened.room counted
  rw [Dinode.addr_setAddr _ _ le small]
  split
  case isTrue at' =>
    rw [if_pos at'.symm, insert_sdiff_of_mem _ (by simp), insert_sdiff_of_mem _ (by simp)]
    rw [at', empty] at room
    refine (card_le_card fun x => ?_).trans room
    simp only [mem_sdiff, mem_insert, mem_singleton, not_or]
    rintro ⟨logged, notMap, -⟩
    refine ⟨logged, notMap, ?_⟩
    rintro rfl
    exact opened.boot logged
  case isFalse at' =>
    rw [if_neg (Ne.symm at')]
    have one := card_insert_sdiff (insert g.bm γ.logs) {g.bm, (s.inode i).d.addr ndirect} b
    rw [insert_sdiff_of_mem γ.logs (by simp)] at one
    omega

theorem fillAddr {j : Nat} {k : Nat → M β}
    (few : m.counted → c ≤ 4) (le : j ≤ ndirect) (less : j < n) (empty : (s.inode i).d.addr j = 0)
    (rest : ∀ b t γ', Opened m n (if j = ndirect then c else c + 1) γ' t i →
      Wrote g n i off [] γ s γ' t → refs t.cur γ'.dn ((s.inode i).inum, j) = b → b ≠ 0 →
      b ∈ γ'.logs → (t.inode i).d = (s.inode i).d.setAddr j b →
      Runs m.perf m.stop post (k b) t) :
    Runs m.perf m.stop post
      (balloc rootdev >>= fun b => store i ((s.inode i).d.setAddr j b) >>= fun _ => k b) s := by
  have sound := opened.toSound
  have funded : ∀ x, m.funded → ∀ h ∈ γ.held, g.lo ≤ h ∧ bit (s.cur x) h = true := by
    intro x _ h isHeld
    rw [opened.idle] at isHeld
    cases isHeld
  apply sound.balloc (opened.roomFor few) opened.trans (funded g.bm)
  · intro funded
    have need := opened.need funded
    have := SlotRefs.lacking_update (v := 1) less (r := slotRef s.cur (s.inode i).d)
      (by rw [slotRef_direct le, empty]) (by decide)
    exact card_pos.mp (by omega)
  intro b free
  apply Mode.step (.store i _) trivial rfl
  have isEmpty : (γ.dn (s.inode i).inum).addr j = 0 := by rw [opened.copy, empty]
  have filled := filled_addr sound.owned free le isEmpty
  rw [opened.copy] at filled
  have patched : Patched i s ((s.allocated g b).setInode i
      { (s.allocated g b).inode i with d := (s.inode i).d.setAddr j b }) :=
    Patched.refl.logged.logged.store
  have here : (((s.allocated g b).setInode i
      { (s.allocated g b).inode i with d := (s.inode i).d.setAddr j b }).inode i).d =
      (s.inode i).d.setAddr j b := by
    simp [setInode]
  generalize after : (s.allocated g b).setInode i
    { (s.allocated g b).inode i with d := (s.inode i).d.setAddr j b } = t at patched here ⊢
  have cur : t.cur = allocate g s.cur b := by
    rw [← after]
    rfl
  rw [← cur] at filled
  generalize ghost : ({ γ with
    dn := update γ.dn (s.inode i).inum ((s.inode i).d.setAddr j b)
    logs := insert b (insert g.bm γ.logs) } : Ghost) = γ'
  have dn : γ'.dn = update γ.dn (s.inode i).inum ((s.inode i).d.setAddr j b) := by
    rw [← ghost]
  have logs : γ'.logs = insert b (insert g.bm γ.logs) := by rw [← ghost]
  rw [← dn] at filled
  have nonzero := filled.ne_zero
  have sound' : Sound g γ' t := by
    have allocated := sound.allocated free
    rw [← after, ← ghost]
    refine { allocated with owned := ?_ }
    have owned := filled.owned sound.owned
    rwa [dn, cur] at owned
  apply rest b t γ'
  · apply opened.fill filled less sound' patched (by rw [dn, update_self, here])
      (by rw [← ghost]) (by rw [← ghost])
    intro counted
    rw [here, logs]
    exact opened.room_addr counted (lt_of_mem_freeBlocks free) le empty
  · exact ⟨patched, by rw [← ghost], by rw [← ghost], by rw [← ghost],
      filled.written sound.owned less, by rw [here, Dinode.size_setAddr],
      filled.inode sound.owned opened.ranged⟩
  · exact filled.here
  · exact nonzero
  · rw [logs]
    exact mem_insert_self _ _
  · exact here

theorem bmapIndirect (off : Nat) (few : m.counted → c ≤ 4)
    (has : (s.inode i).d.addr ndirect ≠ 0) (inside : w < nindirect) (less : ndirect + 1 + w < n) :
    Runs m.perf m.stop (Maps m n c i off (ndirect + w) γ s)
      (bmapIndirect rootdev ((s.inode i).d.addr ndirect) w) s := by
  have sound := opened.toSound
  have has' : (γ.dn (s.inode i).inum).addr ndirect ≠ 0 := by rwa [opened.copy]
  have range := sound.owned.indirect _ has'
  have marked := sound.owned.marked ((s.inode i).inum, ndirect)
  rw [refs, slotRef_indirect, opened.copy] at marked
  rw [opened.copy] at range
  have slot : slotOf (ndirect + w) = ndirect + 1 + w := by
    rw [slotOf, if_neg (by omega)]
    omega
  have index : ndirect + 1 + w - (ndirect + 1) = w := by omega
  have entry : refs s.cur γ.dn ((s.inode i).inum, ndirect + 1 + w) =
      word (s.cur ((s.inode i).d.addr ndirect)) w := by
    rw [refs, opened.copy, slotRef_word (by omega) (by simp only; omega) has, index]
  have room := opened.roomFor few
  apply sound.bread (room.less.mono (by omega))
  · intro _
    have within := g.within
    rw [opened.idle]
    exact ⟨by omega, notMem_empty _⟩
  intro notHeld
  by_cases empty : word (s.cur ((s.inode i).d.addr ndirect)) w = 0
  case neg =>
    rw [if_neg empty]
    apply sound.brelse notHeld
    exact opened.mapped (by rw [slot, entry]) empty
  case pos =>
    rw [if_pos empty]
    apply sound.hold.balloc
    case room =>
      intro counted
      have logs := (room counted).2
      simp only [opened.idle] at logs ⊢
      exact ⟨by simp, logs⟩
    case trans => exact opened.trans
    case held =>
      intro _ h isHeld
      simp only [opened.idle, insert_empty_eq, mem_singleton] at isHeld
      subst isHeld
      exact ⟨range.1, marked has⟩
    case free =>
      intro funded
      have need := opened.need funded
      have empty' : slotRef s.cur (s.inode i).d (ndirect + 1 + w) = 0 := by
        rw [← opened.copy]
        exact entry.trans empty
      have := SlotRefs.lacking_update (v := 1) less empty' (by decide)
      exact card_pos.mp (show 0 < (freeBlocks g s.cur).card by omega)
    case rest =>
      intro b free
      have free' : b ∈ freeBlocks g s.cur := free
      have filled := filled_word sound.owned free' inside has' (by rwa [opened.copy])
      rw [opened.copy] at filled
      have allocated := sound.allocated free'
      have nonzero := filled.ne_zero
      apply Sound.relog (s := s.allocated g b) allocated notHeld
      case room =>
        intro counted
        have := opened.card_logs counted
        have := few counted
        have := card_insert_le b (insert g.bm γ.logs)
        simp only [opened.idle, card_empty]
        omega
      case trans => exact opened.trans
      case rest =>
        have sound' := allocated.logged (by have := g.one_lt_bm; have := g.bm_lt_lo; omega)
          (filled.owned sound.owned)
        have patched : Patched i s ((s.allocated g b).logged ((s.inode i).d.addr ndirect)
          (setWord (s.cur ((s.inode i).d.addr ndirect)) w b)) := Patched.refl.logged.logged.logged
        have logs : m.counted → (insert ((s.inode i).d.addr ndirect)
            (insert b (insert g.bm γ.logs)) \ {g.bm, (s.inode i).d.addr ndirect}).card ≤ c + 1 := by
          intro counted
          have before := opened.room counted
          have one := card_insert_sdiff (insert g.bm γ.logs) {g.bm, (s.inode i).d.addr ndirect} b
          rw [insert_sdiff_of_mem γ.logs (by simp)] at one
          rw [insert_sdiff_of_mem _ (by simp)]
          omega
        have opened' : Opened m n (c + 1) { γ with
            logs := insert ((s.inode i).d.addr ndirect) (insert b (insert g.bm γ.logs)) } _ i :=
          opened.fill filled less sound' patched opened.copy rfl rfl logs
        refine ⟨_, opened', ⟨patched, rfl, rfl, rfl, filled.written sound.owned less, rfl,
          filled.inode sound.owned opened.ranged⟩, ?_, nonzero, by simp⟩
        rw [slot]
        exact filled.here

theorem bmap (off : Nat) (few : m.counted → c ≤ 4)
    (inside : m.funded → bn < maxfile) (less : slotOf bn < n) :
    Runs m.perf m.stop (Maps m n c i off bn γ s) (bmap i bn) s := by
  apply Mode.step (.look i) trivial rfl
  simp only [opened.dev]
  by_cases direct : bn < ndirect
  · rw [if_pos direct]
    have slot : slotOf bn = bn := if_pos direct
    by_cases empty : (s.inode i).d.addr bn = 0
    · rw [if_pos empty]
      apply opened.fillAddr few (Nat.le_of_lt direct) (by rwa [slot] at less) empty
      intro b t γ' opened' wrote here nonzero logged _
      rw [if_neg (by omega)] at opened'
      exact ⟨γ', opened', wrote, by rw [slot, here], nonzero, logged⟩
    · rw [if_neg empty]
      refine opened.mapped ?_ empty
      rw [slot, refs, slotRef_direct (Nat.le_of_lt direct), opened.copy]
  · have slot : slotOf bn = bn + 1 := if_neg direct
    have split : ndirect + (bn - ndirect) = bn := by omega
    rw [if_neg direct]
    by_cases range : bn - ndirect < nindirect
    · rw [if_pos range]
      by_cases empty : (s.inode i).d.addr ndirect = 0
      · rw [if_pos empty]
        apply opened.fillAddr few (Nat.le_refl _) (by omega) empty
        intro ind t γ' opened' (wrote : Wrote g n i off [] γ s γ' t) here nonzero _ copy
        rw [if_pos rfl] at opened'
        have has : (t.inode i).d.addr ndirect = ind := by
          rw [← opened'.copy, wrote.patched.inum, ← here]
          exact slotRef_indirect.symm
        have later := opened'.bmapIndirect off few (by rwa [has]) range
          (by omega)
        rw [has, split] at later
        apply later.mono
        rintro b u ⟨γ'', opened'', wrote', here', nonzero', logged⟩
        refine ⟨γ'', opened'', wrote.then wrote', ?_, nonzero', logged⟩
        rwa [wrote.patched.inum] at here'
      · rw [if_neg empty]
        have later := opened.bmapIndirect off few empty range
          (by omega)
        rwa [split] at later
    · rw [if_neg range]
      apply Mode.panic _ (by simp) (by simp)
      intro funded
      have := inside funded
      simp only [maxfile] at this
      omega

/-! ### `writei` -/

theorem block (fits : off % bsize + src.length ≤ bsize)
    (here : refs s.cur γ.dn ((s.inode i).inum, slotOf (off / bsize)) = b) (nonzero : b ≠ 0)
    (logged : b ∈ γ.logs) : Opened m n c γ (s.logged b ((s.cur b).write (off % bsize) src)) i ∧
      Wrote g n i off src γ s γ (s.logged b ((s.cur b).write (off % bsize) src)) := by
  have sound := opened.toSound
  have range := sound.owned.region _ (by rw [here]; exact nonzero)
  rw [here] at range
  have one := g.one_lt_bm
  have lo := g.bm_lt_lo
  have data : slotOf (off / bsize) ≠ ndirect := slotOf_ne _
  have owned : Owned g γ.loose (update s.cur b ((s.cur b).write (off % bsize) src)) γ.dn :=
    sound.owned.writeData here nonzero data
  have sound' := sound.logged (by omega) owned
  have slots : refs (update s.cur b ((s.cur b).write (off % bsize) src)) γ.dn =
    refs s.cur γ.dn := refs_write sound.owned.distinct here data nonzero
  rw [insert_eq_of_mem logged] at sound'
  constructor
  · refine { opened with toSound := sound', need := ?_ }
    intro funded
    have same : slotRef (s.logged b ((s.cur b).write (off % bsize) src)).cur (s.inode i).d =
        slotRef s.cur (s.inode i).d := by
      funext j
      have entry := congrFun slots ((s.inode i).inum, j)
      rwa [refs, refs, opened.copy] at entry
    have blocks : freeBlocks g (s.logged b ((s.cur b).write (off % bsize) src)).cur =
        freeBlocks g s.cur := freeBlocks_congr (update_of_ne (by omega) _ _)
    rw [blocks]
    exact (Nat.le_of_eq (congrArg (SlotRefs.lacking · n) same)).trans (opened.need funded)
  · have sector := g.iblock_lt opened.ranged
    exact ⟨Patched.refl.logged, rfl, rfl, rfl, Written.block sound.owned here nonzero fits, rfl,
      update_of_ne (by omega) _ _⟩

/-- One round of the loop of `writei`. -/
theorem writeRound {k : M β} (few : m.counted → c ≤ 4)
    (inside : m.funded → off / bsize < maxfile) (less : slotOf (off / bsize) < n)
    (fits : off % bsize + src.length ≤ bsize)
    (rest : ∀ t γ', Opened m n (c + 1) γ' t i → Wrote g n i off src γ s γ' t →
      Runs m.perf m.stop post k t) :
    Runs m.perf m.stop post (do
      let b ← FileSystem.bmap i (off / bsize)
      let ip ← look i
      let data ← bread ip.dev b
      logWrite b (data.write (off % bsize) src)
      brelse b
      k) s := by
  refine Runs.seq (opened.bmap off few inside less)
    fun b t ⟨γ', opened', wrote, here, nonzero, logged⟩ => ?_
  rw [← wrote.patched.inum] at here
  have sound := opened'.toSound
  have range := sound.owned.region _ (by rw [here]; exact nonzero)
  rw [here] at range
  have room : m.Room γ' 1 := by
    intro counted
    have := opened'.card_logs counted
    have := card_le_card (subset_insert g.bm γ'.logs)
    have := few counted
    rw [opened'.idle, card_empty]
    omega
  apply Mode.step (.look i) trivial rfl
  rw [opened'.dev]
  apply sound.bread (room.mono (by omega))
  · intro _
    have within := g.within
    rw [opened'.idle]
    exact ⟨by omega, notMem_empty _⟩
  intro notHeld
  apply sound.relog notHeld room opened'.trans
  obtain ⟨opened'', wrote'⟩ := opened'.block fits here nonzero logged
  exact rest _ γ' opened'' (wrote.then wrote')

theorem writeNone (none' : src = []) : off = off + src.length ∧
      ∃ γ', Opened m n (c + rounds off src.length) γ' s i ∧ Wrote g n i off src γ s γ' s := by
  subst none'
  exact ⟨rfl, γ, opened, Patched.refl, rfl, rfl, rfl, Written.refl, rfl, rfl⟩

theorem writeLoop {fuel : Nat} (enough : src.length ≤ fuel)
    (few : m.counted → c + rounds off src.length ≤ 5)
    (inside : m.funded → off + src.length ≤ maxfile * bsize)
    (less : slots (blocks (off + src.length)) ≤ n) :
    Runs m.perf m.stop (fun o t => o = off + src.length ∧
      ∃ γ', Opened m n (c + rounds off src.length) γ' t i ∧ Wrote g n i off src γ s γ' t)
      (writeLoop i fuel off src) s := by
  induction fuel generalizing s γ c off src with
  | zero => exact opened.writeNone (List.length_eq_zero_iff.mp (by omega))
  | succ fuel ih =>
    by_cases none' : src = []
    · rw [FileSystem.writeLoop, if_pos none']
      exact opened.writeNone none'
    · rw [FileSystem.writeLoop, if_neg none']
      have some' : src.length ≠ 0 := by simpa using none'
      have step := @rounds_step off _ some'
      have space : 0 < bsize - off % bsize := by
        simp only [bsize]
        omega
      have length : (src.take (min src.length (bsize - off % bsize))).length =
          min src.length (bsize - off % bsize) := by
        rw [List.length_take]
        omega
      generalize chunk : min src.length (bsize - off % bsize) = k at step length ⊢
      apply opened.writeRound (fun counted => by have := few counted; omega)
      case inside =>
        intro funded
        have := inside funded
        simp only [bsize] at this ⊢
        omega
      case less =>
        have := slotOf_lt_slots.mpr (@lt_blocks off (off + src.length) (by omega))
        omega
      case fits => omega
      case rest =>
        intro t γ' opened' wrote
        have whole : off + k + (src.drop k).length = off + src.length := by
          rw [List.length_drop]
          omega
        have count : c + 1 + rounds (off + k) (src.drop k).length = c + rounds off src.length := by
          rw [List.length_drop]
          omega
        have later := @ih γ' t (c + 1) (off + k) (src.drop k) opened'
          (by rw [List.length_drop]; omega) (by rw [count]; exact few)
          (by rw [whole]; exact inside) (by rwa [whole])
        rw [whole, count] at later
        apply later.mono
        rintro o u ⟨rfl, γ'', opened'', wrote'⟩
        refine ⟨rfl, γ'', opened'', ?_⟩
        have both := wrote.then (by rw [length]; exact wrote')
        rwa [List.take_append_drop] at both

end

end Opened

/-- `writei` has stored the bytes. The inode is on the disk if its size has changed. -/
structure Stored (g : Geometry) (n : Nat) (i : InodeId) (off : Nat) (src : List UInt8) (γ : Ghost)
    (s : Machine) (γ' : Ghost) (t : Machine) : Prop where
  patched : Patched i s t
  loose : γ'.loose = γ.loose
  held : γ'.held = γ.held
  trans : γ'.trans = γ.trans
  written : Written g n (s.inode i).inum off src s.cur γ.dn t.cur γ'.dn
  size : (t.inode i).d.size.toNat = max (s.inode i).d.size.toNat (off + src.length)
  grown : (s.inode i).d.size.toNat < off + src.length →
    Dinode.ofBlock (t.cur (iblock (s.inode i).inum)) (s.inode i).inum = (t.inode i).d
  within : off + src.length ≤ (s.inode i).d.size.toNat →
    t.cur (iblock (s.inode i).inum) = s.cur (iblock (s.inode i).inum)

/-- What can be written at an offset. -/
def Fits (d : Dinode) (off len : Nat) : Prop :=
  off ≤ d.size.toNat ∧ off + len ≤ maxfile * bsize

/-- `writei` of bytes that do not fit changes nothing. -/
theorem writei_misfit {stop : Option String → Prop} (m : Mode g)
    (notDev : (s.inode i).d.type ≠ tDev) (small : src.length < 2 ^ 32)
    (misfit : ¬ Fits (s.inode i).d off src.length) :
    Reads m.perf stop (writei i src off) s none := by
  apply Runs.known (Op.look i) (m.quiet s (.look i) trivial)
  rw [if_neg notDev]
  simp only [Fits, maxfile, ndirect, nindirect, bsize] at misfit
  by_cases excess : off > (s.inode i).d.size.toNat ∨ (off + src.length) % 2 ^ 32 < off
  · rw [if_pos excess]
    exact ⟨rfl, rfl⟩
  · have big : (off + src.length) % 2 ^ 32 > maxfile * bsize := by
      simp only [maxfile, ndirect, nindirect, bsize]
      omega
    rw [if_neg excess, if_pos big]
    exact ⟨rfl, rfl⟩

namespace Opened

/-- The last part of `writei`, if the file has grown. -/
theorem resize {k : M β} (opened : Opened m n c γ s i) (few : m.counted → c ≤ 5) (off : Nat)
    (v : BitVec 32) (rest : ∀ t γ', Opened m n (c + 1) γ' t i → Patched i s t → γ'.loose = γ.loose →
      γ'.held = γ.held → γ'.trans = γ.trans →
      Written g n (s.inode i).inum off [] s.cur γ.dn t.cur γ'.dn → (t.inode i).d.size = v →
      Dinode.ofBlock (t.cur (iblock (s.inode i).inum)) (s.inode i).inum = (t.inode i).d →
      Runs m.perf m.stop post k t) :
    Runs m.perf m.stop post (do
      store i { (s.inode i).d with size := v }
      iupdate i
      k) s := by
  have sound := opened.toSound
  have written : Written g n (s.inode i).inum off [] s.cur γ.dn _ _ :=
    Written.inode sound.owned opened.ranged v
  rw [opened.copy] at written
  apply Mode.step (.store i _) trivial rfl
  generalize after : s.setInode i { s.inode i with d := { (s.inode i).d with size := v } } = t
  have here : t.inode i = { s.inode i with d := { (s.inode i).d with size := v } } := by
    rw [← after]
    exact update_self ..
  have cur : t.cur = s.cur := by
    rw [← after]
    rfl
  have patched : Patched i s t := by
    rw [← after]
    exact Patched.refl.store
  have same : refs s.cur (update γ.dn (s.inode i).inum
      { (s.inode i).d with size := v }) = refs s.cur γ.dn := by
    funext y
    by_cases at' : y.1 = (s.inode i).inum
    · rw [refs, refs, at', update_self, opened.copy]
      rfl
    · rw [refs, refs, update_of_ne at']
  have sound' : Sound g { γ with
      dn := update γ.dn (s.inode i).inum { (s.inode i).d with size := v } } t := by
    rw [← after]
    exact { sound with owned := sound.owned.frame rfl same }
  have dev : (t.inode i).dev = rootdev := by rw [here, opened.dev]
  have inum : (t.inode i).inum = (s.inode i).inum := by rw [here]
  have ranged : (t.inode i).inum < g.ninodes := by
    rw [inum]
    exact opened.ranged
  apply sound'.iupdate dev ranged
  case room =>
    intro counted
    have logs := opened.card_logs counted
    have le := card_le_card (subset_insert g.bm γ.logs)
    have := few counted
    simp only [opened.idle, card_empty]
    omega
  case trans => exact opened.trans
  case held =>
    intro _ h isHeld
    simp only [opened.idle] at isHeld
    cases isHeld
  case rest =>
    have data : (t.synced i).cur = update s.cur (iblock (s.inode i).inum)
        (Dinode.store (s.cur (iblock (s.inode i).inum)) (s.inode i).inum
          { (s.inode i).d with size := v }) := by
      rw [synced, inum, cur, here]
      exact congrArg (update · _ _) cur
    have still : (t.synced i).inode i = t.inode i := rfl
    have sector := g.iblock_lt opened.ranged
    have lo := g.bm_lt_lo
    have slots : slotRef (t.synced i).cur ((t.synced i).inode i).d =
        slotRef s.cur (s.inode i).d := by
      funext j
      have entry := congrFun (sound.owned.refs_write_low (x := iblock (s.inode i).inum)
        (Dinode.store (s.cur (iblock (s.inode i).inum)) (s.inode i).inum
          { (s.inode i).d with size := v }) (by omega)) ((s.inode i).inum, j)
      rw [← data] at entry
      rw [refs, refs, opened.copy] at entry
      rw [still, here, ← entry]
      rfl
    have bitmap : (t.synced i).cur g.bm = s.cur g.bm := by
      rw [data]
      exact update_of_ne (by omega) _ _
    rw [← data] at written
    refine rest (t.synced i) _ ⟨sound'.synced ranged, ?dev, ?ranged, ?copy, ?idle, ?trans, ?room,
      ?need⟩ patched.logged rfl rfl rfl written ?newSize ?onDisk
    case dev => exact dev
    case ranged => exact ranged
    case copy =>
      rw [still, inum, here]
      exact update_self ..
    case idle => exact opened.idle
    case trans => exact opened.trans
    case room =>
      intro counted
      have before := opened.room counted
      have one := card_insert_sdiff γ.logs {g.bm, (s.inode i).d.addr ndirect}
        (iblock (s.inode i).inum)
      rw [still, inum, here]
      exact one.trans (by omega)
    case need =>
      intro funded
      rw [slots, freeBlocks_congr bitmap]
      exact opened.need funded
    case newSize => rw [still, here]
    case onDisk => rw [still, here, data, update_self, Dinode.ofBlock_store]

theorem more {c' : Nat} (opened : Opened m n c γ s i) (le : c ≤ c') : Opened m n c' γ s i :=
  { opened with room := fun counted => (opened.room counted).trans le }

theorem writei (opened : Opened m n c γ s i) (notDev : (s.inode i).d.type ≠ tDev)
    (fits : Fits (s.inode i).d off src.length) (few : m.counted → c + rounds off src.length ≤ 5)
    (less : slots (blocks (off + src.length)) ≤ n) :
    Runs m.perf m.stop (fun r t => r = some src.length ∧
        ∃ γ', Opened m n (c + rounds off src.length + 1) γ' t i ∧ Stored g n i off src γ s γ' t)
      (writei i src off) s := by
  apply Mode.step (.look i) trivial rfl
  rw [if_neg notDev]
  obtain ⟨before, inside⟩ := fits
  have small : off + src.length < 2 ^ 32 := by
    simp only [maxfile, ndirect, nindirect, bsize] at inside
    omega
  have excess : ¬ (off > (s.inode i).d.size.toNat ∨ (off + src.length) % 2 ^ 32 < off) := by omega
  have big : ¬ (off + src.length) % 2 ^ 32 > maxfile * bsize := by
    rw [Nat.mod_eq_of_lt small]
    omega
  rw [if_neg excess, if_neg big]
  apply Runs.bind
  apply (opened.writeLoop (Nat.le_refl _) few (fun _ => inside) less).mono
  rintro _ t ⟨rfl, γ', opened', wrote⟩
  apply Mode.step (.look i) trivial rfl
  by_cases grown : (s.inode i).d.size.toNat < off + src.length
  · have yes : src.length > 0 ∧ off + src.length > (t.inode i).d.size.toNat := by
      rw [wrote.size]
      omega
    simp only [if_pos yes]
    apply opened'.resize few (off + src.length)
    intro u γ'' opened'' patched loose held trans written size disk
    refine ⟨rfl, γ'', opened'', ⟨wrote.patched.trans patched, ?_, ?_, ?_, ?_, ?_, ?_, ?_⟩⟩
    · rw [loose, wrote.loose]
    · rw [held, wrote.held]
    · rw [trans, wrote.trans]
    · rw [wrote.patched.inum] at written
      have both := wrote.written.trans written
      rwa [List.append_nil] at both
    · rw [size, BitVec.toNat_ofNat, Nat.mod_eq_of_lt small]
      omega
    · intro _
      rwa [wrote.patched.inum] at disk
    · intro within
      omega
  · have no : ¬ (src.length > 0 ∧ off + src.length > (t.inode i).d.size.toNat) := by
      rw [wrote.size]
      omega
    simp only [if_neg no]
    refine ⟨rfl, γ', opened'.more (Nat.le_succ _), ⟨wrote.patched, wrote.loose, wrote.held,
      wrote.trans, wrote.written, ?_, fun less => absurd less grown, fun _ => wrote.disk⟩⟩
    rw [wrote.size]
    omega

end Opened

end FileSystem
