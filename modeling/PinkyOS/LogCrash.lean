import PinkyOS.DiskLog

/-!
# Crash atomicity of the log

A disk on which a transaction is committed but perhaps not installed is `Pending`. Commit and
recovery both bring such a disk to a clean one by home writes, each of which keeps it `Pending`,
and one last header write; so an interrupted recovery can be restarted any number of times.
-/
namespace DiskLog
open ByteBuffer WriteTrace List
open Function (update update_self update_of_ne)

/-- A disk and its log area, as the superblock lays them out. -/
structure Volume where
  disksize : Nat
  start : Nat
  size : Nat
  small : disksize ≤ 2 ^ 31
  nonempty : 0 < size
  inside : start + size ≤ disksize

/-- The sector is the log's header or one of its slots. -/
def Volume.InLog (v : Volume) (sector : Nat) : Prop :=
  v.start ≤ sector ∧ sector < v.start + v.size

/-- A list of home sectors the log can hold. -/
structure Fits (v : Volume) (lh : List Nat) : Prop where
  short : lh.length ≤ logsize
  slots : lh.length < v.size
  home : ∀ sector ∈ lh, sector < v.disksize ∧ ¬ v.InLog sector

/-- The state is one of a kernel that runs on this volume; no log sector is held back. -/
structure On (v : Volume) (s : Sys) : Prop where
  disksize : s.disksize = v.disksize
  start : s.log.start = v.start
  size : s.log.size = v.size
  settled : ∀ sector, v.InLog sector → s.dirty sector = none

/-- The log lists `lh`, its slots hold what `target` has there, and every other sector outside
the log already agrees with `target`. With `lh` empty the disk is `target` outside the log. -/
structure Pending (v : Volume) (target : Nat → Block) (lh : List Nat) (d : Nat → Block) :
    Prop where
  count : (d v.start).getLE 0 4 = lh.length
  head : headOf (d v.start) = lh
  slot : ∀ i sector, lh[i]? = some sector → d (v.start + i + 1) = target sector
  rest : ∀ sector, ¬ v.InLog sector → sector ∉ lh → d sector = target sector

variable {v : Volume} {s : Sys} {t : Nat → Block} {lh : List Nat} {d : Nat → Block}

section header

theorem count_withHead (b : Block) (short : lh.length ≤ logsize) :
    (withHead b lh).getLE 0 4 = lh.length := by
  have hn : lh.length ≤ 10 := short
  rw [withHead, Buffer.write_append, Buffer.getLE, length_leBytes,
    Buffer.read_write_before _ _ (Nat.le_refl _)]
  exact Buffer.getLE_setLE b (by decide) (by omega)

theorem headCount_eq {b : Block} {n : Nat} (count : b.getLE 0 4 = n) (short : n ≤ logsize) :
    headCount b = n := by
  have hn : n ≤ 10 := short
  rw [headCount, count, BitVec.toInt_eq_toNat_of_lt]
  · simp only [BitVec.toNat_ofNat, Int.toNat_natCast]
    omega
  · simp only [BitVec.toNat_ofNat]
    omega

theorem headOf_withHead (b : Block) (short : lh.length ≤ logsize)
    (small : ∀ sector ∈ lh, sector < 2 ^ 32) : headOf (withHead b lh) = lh := by
  have hn : lh.length ≤ 10 := short
  rw [headOf, headCount_eq (count_withHead b short) short, withHead, Buffer.write_append]
  exact Buffer.words_write small _ (by simp only [bsize, length_leBytes]; omega)

theorem Fits.headOf (fits : Fits v lh) (b : Block) : headOf (withHead b lh) = lh := by
  apply headOf_withHead b fits.short
  intro sector hs
  have := (fits.home sector hs).1
  have := v.small
  omega

end header

theorem Volume.start_inLog (v : Volume) : v.InLog v.start :=
  ⟨Nat.le_refl _, Nat.lt_add_of_pos_right v.nonempty⟩

variable {a n sector : Nat}

theorem Volume.inLog_lt (v : Volume) (inLog : v.InLog sector) : sector < v.disksize :=
  Nat.lt_of_lt_of_le inLog.2 v.inside

theorem Volume.ne_of_outside {b : Nat} (inLog : v.InLog a) (outside : ¬ v.InLog b) : a ≠ b :=
  fun h => outside (h ▸ inLog)

theorem Fits.nil (v : Volume) : Fits v [] :=
  ⟨Nat.zero_le _, v.nonempty, by simp⟩

theorem Fits.slot_inLog (fits : Fits v lh) {i : Nat} (hi : i < lh.length) :
    v.InLog (v.start + i + 1) := by
  have := fits.slots
  constructor <;> omega

/-! ### What the disk operations do -/

@[simp] theorem put_disk (s : Sys) (a : Nat) (b : Block) :
    (s.put a b).disk = update s.disk a b := rfl
@[simp] theorem setHead_disk (s : Sys) (lh : List Nat) : (s.setHead lh).disk = s.disk := rfl
@[simp] theorem setHead_lh (s : Sys) (lh : List Nat) : (s.setHead lh).log.lh = lh := rfl

theorem bread_eq (inside : sector < s.disksize) : bread s sector = pure (s.cur sector) :=
  if_neg (Nat.not_le.mpr inside)

theorem bwrite_eq (inside : sector < s.disksize) (data : Block) :
    bwrite s sector data = pure (s.put sector data) :=
  if_neg (Nat.not_le.mpr inside)

theorem On.lt_disksize (on : On v s) (inside : sector < v.disksize) : sector < s.disksize :=
  on.disksize ▸ inside

theorem On.cur_log (on : On v s) (inLog : v.InLog sector) : s.cur sector = s.disk sector := by
  rw [Sys.cur, on.settled sector inLog, Option.getD_none]

theorem On.put (on : On v s) (sector : Nat) (data : Block) : On v (s.put sector data) := by
  refine ⟨on.disksize, on.start, on.size, fun a ha => ?_⟩
  by_cases h : a = sector
  · subst h
    exact update_self ..
  · exact (update_of_ne h ..).trans (on.settled a ha)

theorem On.setHead (on : On v s) (lh : List Nat) : On v (s.setHead lh) :=
  ⟨on.disksize, on.start, on.size, on.settled⟩

theorem writeHead_eq (on : On v s) :
    writeHead s = pure (s.put v.start (withHead (s.disk v.start) s.log.lh)) := by
  have inside := on.lt_disksize (v.inLog_lt v.start_inLog)
  rw [writeHead, on.start, bread_eq inside, pure_bind, on.cur_log v.start_inLog, bwrite_eq inside]

/-- The sector writes of a trace, one `iderw` after the other. -/
def Sys.puts (s : Sys) (ws : List (Nat × Block)) : Sys :=
  ws.foldl (fun s w => s.put w.1 w.2) s

theorem puts_cons (s : Sys) (w : Nat × Block) (ws : List (Nat × Block)) :
    s.puts (w :: ws) = (s.put w.1 w.2).puts ws := rfl

theorem puts_concat (s : Sys) (ws : List (Nat × Block)) (w : Nat × Block) :
    s.puts (ws ++ [w]) = (s.puts ws).put w.1 w.2 := by
  rw [Sys.puts, foldl_append]
  rfl

@[simp] theorem puts_disk (s : Sys) (ws : List (Nat × Block)) :
    (s.puts ws).disk = apply s.disk ws := by
  induction ws generalizing s with
  | nil => rfl
  | cons w ws ih => exact ih (s.put w.1 w.2)

theorem puts_writes (s : Sys) (ws : List (Nat × Block)) : (s.puts ws).writes = s.writes ++ ws := by
  induction ws generalizing s with
  | nil => exact (append_nil _).symm
  | cons w ws ih =>
    rw [puts_cons, ih]
    exact append_assoc ..

theorem On.puts (on : On v s) (ws : List (Nat × Block)) : On v (s.puts ws) := by
  induction ws generalizing s with
  | nil => exact on
  | cons w ws ih => exact ih (on.put w.1 w.2)

/-- The home writes that install the log of a disk. -/
def homes (v : Volume) (d : Nat → Block) (slots : List (Nat × Nat)) : List (Nat × Block) :=
  slots.map fun slot => (slot.1, d (v.start + slot.2 + 1))

theorem install_slots (on : On v s) {slots : List (Nat × Nat)}
    (good : ∀ p ∈ slots, p.1 < v.disksize ∧ ¬ v.InLog p.1 ∧ v.InLog (v.start + p.2 + 1)) :
    slots.foldlM installOne s = pure (s.puts (homes v s.disk slots)) := by
  induction slots generalizing s with
  | nil => rfl
  | cons p slots ih =>
    obtain ⟨inside, outside, inLog⟩ := good p mem_cons_self
    have later := fun q hq => good q (mem_cons_of_mem p hq)
    have one : installOne s p = pure (s.put p.1 (s.disk (v.start + p.2 + 1))) := by
      rw [installOne, on.start, bread_eq (on.lt_disksize (v.inLog_lt inLog)), pure_bind,
        bread_eq (on.lt_disksize inside), pure_bind, bwrite_eq (on.lt_disksize inside),
        on.cur_log inLog]
    -- the home write leaves every later slot as it was
    have same : homes v (s.put p.1 (s.disk (v.start + p.2 + 1))).disk slots =
        homes v s.disk slots := by
      apply map_congr_left
      intro q hq
      rw [put_disk, update_of_ne (Volume.ne_of_outside (later q hq).2.2 outside)]
    rw [foldlM_cons, one, pure_bind, ih (on.put _ _) later, same]
    rfl

theorem mem_zipIdx_slots (fits : Fits v lh) {p : Nat × Nat} (hp : p ∈ lh.zipIdx) :
    lh[p.2]? = some p.1 ∧ p.1 < v.disksize ∧ ¬ v.InLog p.1 ∧ v.InLog (v.start + p.2 + 1) := by
  have hget : lh[p.2]? = some p.1 := List.mem_zipIdx_iff_getElem?.mp hp
  have home := fits.home p.1 (List.mem_of_getElem? hget)
  obtain ⟨hlt, -⟩ := List.getElem?_eq_some_iff.mp hget
  exact ⟨hget, home.1, home.2, fits.slot_inLog hlt⟩

theorem installTrans_eq (on : On v s) (fits : Fits v s.log.lh) :
    installTrans s = pure (s.puts (homes v s.disk s.log.lh.zipIdx)) :=
  install_slots on fun _ hp => (mem_zipIdx_slots fits hp).2

/-! ### Settling a pending log -/

theorem Pending.home_write (fits : Fits v lh) (pending : Pending v t lh d) {w : Nat × Block}
    (hw : w.1 ∈ lh) : Pending v t lh (update d w.1 w.2) := by
  have outside := (fits.home w.1 hw).2
  have header := update_of_ne (Volume.ne_of_outside v.start_inLog outside) w.2 d
  constructor
  · rw [header]
    exact pending.count
  · rw [header]
    exact pending.head
  · intro i sector hget
    obtain ⟨hlt, -⟩ := List.getElem?_eq_some_iff.mp hget
    rw [update_of_ne (Volume.ne_of_outside (fits.slot_inLog hlt) outside)]
    exact pending.slot i sector hget
  · intro sector hout hmem
    have hne : sector ≠ w.1 := fun h => hmem (h ▸ hw)
    rw [update_of_ne hne]
    exact pending.rest sector hout hmem

theorem homes_mem {w : Nat × Block} (hw : w ∈ homes v d lh.zipIdx) :
    ∃ i, lh[i]? = some w.1 ∧ w.2 = d (v.start + i + 1) := by
  obtain ⟨p, hp, rfl⟩ := mem_map.mp hw
  exact ⟨p.2, mem_zipIdx_iff_getElem?.mp hp, rfl⟩

theorem homes_sectors : (homes v d lh.zipIdx).map Prod.fst = lh := by
  rw [homes, map_map]
  exact zipIdx_map_fst 0 lh

/-- Once every home write is made, the disk is the target everywhere outside the log. -/
theorem Pending.homes_installed (pending : Pending v t lh d) (outside : ¬ v.InLog sector) :
    apply d (homes v d lh.zipIdx) sector = t sector := by
  by_cases hmem : sector ∈ lh
  · apply apply_of_mem
    · rintro w hw rfl
      obtain ⟨i, hget, hdata⟩ := homes_mem hw
      exact hdata.trans (pending.slot i w.1 hget)
    · have written : sector ∈ (homes v d lh.zipIdx).map Prod.fst := by rwa [homes_sectors]
      exact mem_map.mp written
  · rw [apply_of_not_mem fun w hw h => ?_]
    · exact pending.rest sector outside hmem
    · obtain ⟨i, hget, -⟩ := homes_mem hw
      exact hmem (h ▸ mem_of_getElem? hget)

/-- Erasing the log of a disk that is the target outside the log. -/
theorem Pending.erase (b : Block) (done : ∀ sector, ¬ v.InLog sector → d sector = t sector) :
    Pending v t [] (update d v.start (withHead b [])) := by
  constructor
  · rw [update_self]
    exact count_withHead b (Fits.nil v).short
  · rw [update_self]
    exact (Fits.nil v).headOf b
  · simp
  · intro sector outside _
    rw [update_of_ne (Volume.ne_of_outside v.start_inLog outside).symm]
    exact done sector outside

/-- The writes that settle the log: home writes, then the header. -/
def settling (v : Volume) (d : Nat → Block) (lh : List Nat) : List (Nat × Block) :=
  homes v d lh.zipIdx ++
    [(v.start, withHead (apply d (homes v d lh.zipIdx) v.start) [])]

/-- `install_trans`, then the write of an empty header. -/
theorem settle_eq (on : On v s) (fits : Fits v s.log.lh) :
    (do let s ← installTrans s; writeHead (s.setHead [])) =
      (pure ((s.puts (settling v s.disk s.log.lh)).setHead []) : Except String Sys) := by
  rw [installTrans_eq on fits, pure_bind, writeHead_eq ((on.puts _).setHead []),
    setHead_disk, setHead_lh, puts_disk, settling, puts_concat]
  rfl

theorem Pending.settled (pending : Pending v t lh d) :
    Pending v t [] (apply d (settling v d lh)) := by
  rw [settling, apply_concat]
  exact Pending.erase _ fun _ => pending.homes_installed

theorem Pending.settling_take (fits : Fits v lh) (pending : Pending v t lh d) (k : Nat) :
    ∃ lh', Fits v lh' ∧ Pending v t lh' (apply d ((settling v d lh).take k)) := by
  by_cases early : k ≤ (homes v d lh.zipIdx).length
  · refine ⟨lh, fits, ?_⟩
    rw [settling, take_append_of_le_length early]
    refine apply_take (fun e he w hw => he.home_write fits ?_) pending k
    obtain ⟨i, hget, -⟩ := homes_mem hw
    exact mem_of_getElem? hget
  · refine ⟨[], Fits.nil v, ?_⟩
    have all : (settling v d lh).length ≤ k := by
      simp only [settling, length_append, length_singleton]
      omega
    rw [take_of_length_le all]
    exact pending.settled

/-! ### Recovery -/

abbrev Volume.boot (v : Volume) (d : Nat → Block) : Sys :=
  DiskLog.boot v.disksize v.start v.size d

theorem boot_on (v : Volume) (d : Nat → Block) : On v (v.boot d) :=
  ⟨rfl, rfl, rfl, fun _ _ => rfl⟩

theorem recoverFromLog_spec (fits : Fits v lh) (pending : Pending v t lh d) :
    ∃ s, recoverFromLog (v.boot d) = .ok s ∧ s.disk = apply d (settling v d lh) ∧
      s.writes = settling v d lh := by
  have on : On v ((v.boot d).setHead lh) := (boot_on v d).setHead lh
  have head : readHead (v.boot d) = pure ((v.boot d).setHead lh) := by
    have sector : bread (v.boot d) (v.boot d).log.start = pure (d v.start) :=
      bread_eq (v.inLog_lt v.start_inLog)
    rw [readHead, sector, pure_bind, pending.head]
  refine ⟨(((v.boot d).setHead lh).puts (settling v d lh)).setHead [], ?_, ?_, ?_⟩
  · rw [recoverFromLog, head, pure_bind, settle_eq on fits]
    rfl
  · exact puts_disk _ _
  · exact puts_writes _ _

/-- Recovery of a disk, interrupted by crashes any number of times before it completes. -/
inductive Recovers (v : Volume) : (Nat → Block) → (Nat → Block) → Prop
  | completes (d : Nat → Block) (s : Sys) (run : recoverFromLog (v.boot d) = .ok s) :
      Recovers v d s.disk
  | crashes (d d' : Nat → Block) (s : Sys) (k : Nat)
      (run : recoverFromLog (v.boot d) = .ok s)
      (again : Recovers v (apply d (s.writes.take k)) d') : Recovers v d d'

/-- However often recovery is interrupted, it ends with the target and an empty log. -/
theorem Recovers.settled {d d' : Nat → Block} (recovers : Recovers v d d') (fits : Fits v lh)
    (pending : Pending v t lh d) : Pending v t [] d' := by
  induction recovers generalizing lh with
  | completes d s run =>
    obtain ⟨s', run', disk, -⟩ := recoverFromLog_spec fits pending
    cases run.symm.trans run'
    rw [disk]
    exact pending.settled
  | crashes d d' s k run again ih =>
    obtain ⟨s', run', -, writes⟩ := recoverFromLog_spec fits pending
    cases run.symm.trans run'
    obtain ⟨lh', fits', pending'⟩ := pending.settling_take fits k
    rw [← writes] at pending'
    exact ih fits' pending'

theorem Pending.recovers (fits : Fits v lh) (pending : Pending v t lh d) :
    ∃ d', Recovers v d d' := by
  obtain ⟨s, run, -⟩ := recoverFromLog_spec fits pending
  exact ⟨s.disk, .completes d s run⟩

/-! ### One transaction -/

/-- Within a transaction that has logged `ws` on the disk `base`. -/
structure Logging (v : Volume) (base : Nat → Block) (ws : List (Nat × Block)) (s : Sys) :
    Prop where
  on : On v s
  busy : s.log.busy = true
  fits : Fits v s.log.lh
  nodup : s.log.lh.Nodup
  listed : ∀ sector, sector ∈ s.log.lh ↔ sector ∈ ws.map Prod.fst
  slot : ∀ i sector, s.log.lh[i]? = some sector →
    s.disk (v.start + i + 1) = apply base ws sector
  header : s.disk v.start = base v.start
  outside : ∀ sector, ¬ v.InLog sector → s.disk sector = base sector
  pinned : ∀ sector, s.dirty sector =
    if sector ∈ s.log.lh then some (apply base ws sector) else none

/-- The state right after `begin_trans` of a kernel booted on the disk `base`. -/
def Volume.begun (v : Volume) (base : Nat → Block) : Sys :=
  (v.boot base).setBusy true

theorem begun_logging (v : Volume) (base : Nat → Block) : Logging v base [] (v.begun base) where
  on := ⟨rfl, rfl, rfl, fun _ _ => rfl⟩
  busy := rfl
  fits := Fits.nil v
  nodup := nodup_nil
  listed := by simp [Volume.begun, boot, Sys.setBusy]
  slot := by simp [Volume.begun, boot, Sys.setBusy]
  header := rfl
  outside := fun _ _ => rfl
  pinned := by simp [Volume.begun, boot, Sys.setBusy]

/-- The number of distinct sectors a transaction has logged. -/
def distinct (ws : List (Nat × Block)) : Nat :=
  (ws.map Prod.fst).toFinset.card

variable {base : Nat → Block} {ws : List (Nat × Block)}

theorem Logging.length_eq (logging : Logging v base ws s) : s.log.lh.length = distinct ws := by
  rw [distinct, ← toFinset_card_of_nodup logging.nodup]
  congr 1
  ext sector
  simpa using logging.listed sector

theorem addSector_eq (lh : List Nat) (sector : Nat) :
    addSector lh sector = if sector ∈ lh then lh else lh ++ [sector] := by
  by_cases hmem : sector ∈ lh
  · rw [addSector, if_neg (idxOf_lt_length_of_mem hmem).ne, if_pos hmem]
  · rw [addSector, if_pos (idxOf_eq_length hmem), if_neg hmem]

theorem mem_addSector {lh : List Nat} : a ∈ addSector lh sector ↔ a ∈ lh ∨ a = sector := by
  rw [addSector_eq]
  split
  · constructor
    · exact Or.inl
    · rintro (h | rfl) <;> assumption
  · simp

theorem addSector_slot {lh : List Nat} : (addSector lh sector)[lh.idxOf sector]? = some sector := by
  by_cases hmem : sector ∈ lh
  · rw [addSector_eq, if_pos hmem]
    exact getElem?_idxOf hmem
  · rw [addSector_eq, if_neg hmem, idxOf_eq_length hmem]
    simp

theorem addSector_nodup {lh : List Nat} (nodup : lh.Nodup) (sector : Nat) :
    (addSector lh sector).Nodup := by
  rw [addSector_eq]
  split
  · exact nodup
  · next hmem => simpa using nodup.concat hmem

theorem addSector_length (lh : List Nat) (sector : Nat) :
    (addSector lh sector).length ≤ lh.length + 1 := by
  rw [addSector_eq]
  split <;> simp

theorem addSector_other {lh : List Nat} {i : Nat}
    (hget : (addSector lh sector)[i]? = some a) (hne : a ≠ sector) : lh[i]? = some a := by
  rw [addSector_eq] at hget
  split at hget
  · exact hget
  · by_cases hlt : i < lh.length
    · rwa [getElem?_append_left hlt] at hget
    · rw [getElem?_append_right (by omega)] at hget
      have := mem_of_getElem? hget
      simp_all

theorem addSector_fits (fits : Fits v lh) (short : lh.length < logsize)
    (slots : lh.length < v.size - 1) (inside : sector < v.disksize)
    (outside : ¬ v.InLog sector) : Fits v (addSector lh sector) := by
  have bound := addSector_length lh sector
  refine ⟨by omega, by omega, fun a ha => ?_⟩
  cases mem_addSector.mp ha with
  | inl h => exact fits.home a h
  | inr h => exact h ▸ ⟨inside, outside⟩

/-- The state after a `log_write` that does not panic. -/
def Sys.logged (s : Sys) (sector : Nat) (data : Block) : Sys :=
  ((s.put (s.log.start + s.log.lh.idxOf sector + 1) data).setHead
    (addSector s.log.lh sector)).pin sector data

section
variable (logging : Logging v base ws s) (data : Block) (short : s.log.lh.length < logsize)
    (slots : s.log.lh.length < v.size - 1)
include logging data short slots

theorem logWrite_eq : logWrite s sector data = pure (s.logged sector data) := by
  have room : ¬ (s.log.lh.length ≥ logsize ∨ s.log.lh.length ≥ s.log.size - 1) := by
    rw [logging.on.size]
    omega
  have slot : v.InLog (v.start + s.log.lh.idxOf sector + 1) := by
    have := idxOf_le_length (a := sector) (l := s.log.lh)
    constructor <;> omega
  have inside := logging.on.lt_disksize (v.inLog_lt slot)
  rw [← logging.on.start] at inside
  rw [logWrite, if_neg room, if_neg (by simp [logging.busy])]
  dsimp only
  rw [bread_eq inside, pure_bind, bwrite_eq inside, pure_bind]
  rfl

theorem Logging.logged (inside : sector < v.disksize) (outside : ¬ v.InLog sector) :
    Logging v base (ws ++ [(sector, data)]) (s.logged sector data) := by
  have hstart := logging.on.start
  have slotIn : v.InLog (v.start + s.log.lh.idxOf sector + 1) := by
    have := List.idxOf_le_length (a := sector) (l := s.log.lh)
    constructor <;> omega
  have disk : (s.logged sector data).disk =
      update s.disk (v.start + s.log.lh.idxOf sector + 1) data := by
    rw [← hstart]
    rfl
  have lhEq : (s.logged sector data).log.lh = addSector s.log.lh sector := rfl
  constructor
  · refine ⟨logging.on.disksize, hstart, logging.on.size, fun a ha => ?_⟩
    exact (update_of_ne (Volume.ne_of_outside ha outside) ..).trans
      ((logging.on.put _ data).settled a ha)
  · exact logging.busy
  · exact addSector_fits logging.fits short slots inside outside
  · exact addSector_nodup logging.nodup sector
  · intro a
    rw [lhEq, mem_addSector, logging.listed]
    simp [or_comm]
  · intro i a hget
    rw [lhEq] at hget
    rw [disk, apply_concat]
    by_cases hne : a = sector
    · -- a sector has one slot, so this is the slot just written
      subst hne
      obtain ⟨hlt, -⟩ := List.getElem?_eq_some_iff.mp hget
      have hi : i = s.log.lh.idxOf a :=
        (List.getElem?_inj hlt (addSector_nodup logging.nodup a)).mp
          (hget.trans addSector_slot.symm)
      rw [hi, update_self, update_self]
    · have hold := addSector_other hget hne
      have hi : i ≠ s.log.lh.idxOf sector := by
        rintro rfl
        exact hne (Option.some.inj (hget.symm.trans addSector_slot))
      rw [update_of_ne (by omega), update_of_ne hne]
      exact logging.slot i a hold
  · rw [disk, update_of_ne (by omega)]
    exact logging.header
  · intro a ha
    rw [disk, update_of_ne (Volume.ne_of_outside slotIn ha).symm]
    exact logging.outside a ha
  · intro a
    have hput : (s.put (s.log.start + s.log.lh.idxOf sector + 1) data).dirty a = s.dirty a := by
      by_cases h : a = s.log.start + s.log.lh.idxOf sector + 1
      · rw [h, logging.on.settled _ (hstart ▸ slotIn)]
        exact update_self ..
      · exact update_of_ne h ..
    have dirty : (s.logged sector data).dirty a =
        if a = sector then some data else s.dirty a := by
      rw [← hput]
      exact Function.update_apply ..
    rw [dirty, lhEq, apply_concat, logging.pinned]
    by_cases h : a = sector
    · simp [h, mem_addSector]
    · simp [h, mem_addSector, update_of_ne]

end

/-- Every `log_write` of the transaction finds room in the log. -/
def Admitted (v : Volume) (ws : List (Nat × Block)) : Prop :=
  ∀ i < ws.length, distinct (ws.take i) < logsize ∧ distinct (ws.take i) < v.size - 1

/-- So far a transaction has written slots only, one for each `log_write`. -/
structure SlotTrace (v : Volume) (base : Nat → Block) (n : Nat) (s : Sys) : Prop where
  disk : s.disk = apply base s.writes
  length : s.writes.length = n
  slots : ∀ w ∈ s.writes, v.InLog w.1 ∧ w.1 ≠ v.start

theorem SlotTrace.logged (trace : SlotTrace v base n s) (on : On v s)
    (data : Block) (slots : s.log.lh.length < v.size - 1) :
    SlotTrace v base (n + 1) (s.logged sector data) := by
  have writes : (s.logged sector data).writes =
      s.writes ++ [(v.start + s.log.lh.idxOf sector + 1, data)] := by
    rw [← on.start]
    rfl
  constructor
  · rw [writes, apply_concat, ← trace.disk, ← on.start]
    rfl
  · rw [writes, length_append, trace.length]
    rfl
  · intro w hw
    rw [writes] at hw
    cases mem_append.mp hw with
    | inl h => exact trace.slots w h
    | inr h =>
      have := idxOf_le_length (a := sector) (l := s.log.lh)
      rw [mem_singleton.mp h]
      refine ⟨⟨?_, ?_⟩, ?_⟩ <;> dsimp only <;> omega

theorem logWrites_spec (base : Nat → Block) (home : ∀ w ∈ ws, w.1 < v.disksize ∧ ¬ v.InLog w.1)
    (admitted : Admitted v ws) :
    ∃ s, ws.foldlM (fun s w => logWrite s w.1 w.2) (v.begun base) = .ok s ∧
      Logging v base ws s ∧ SlotTrace v base ws.length s := by
  induction ws using reverseRecOn with
  | nil => exact ⟨_, rfl, begun_logging v base, ⟨rfl, rfl, by simp [Volume.begun, boot,
      Sys.setBusy]⟩⟩
  | append_singleton ws w ih =>
    have earlier : Admitted v ws := by
      intro i hi
      have := admitted i (by rw [length_append]; omega)
      rwa [take_append_of_le_length hi.le] at this
    obtain ⟨s, run, logging, trace⟩ := ih (fun u hu => home u (mem_append_left _ hu)) earlier
    have room := admitted ws.length (by simp)
    rw [take_left', ← logging.length_eq] at room
    · obtain ⟨inside, outside⟩ := home w (by simp)
      refine ⟨s.logged w.1 w.2, ?_, logging.logged w.2 room.1 room.2 inside outside, ?_⟩
      · rw [foldlM_append, run]
        exact (bind_pure _).trans (logWrite_eq logging w.2 room.1 room.2)
      · rw [length_append]
        exact trace.logged logging.on w.2 room.2
    · rfl

/-! ### Commit -/

theorem Logging.committed (logging : Logging v base ws s) (b : Block) :
    Pending v (apply base ws) s.log.lh
      (update s.disk v.start (withHead b s.log.lh)) := by
  constructor
  · rw [update_self]
    exact count_withHead b logging.fits.short
  · rw [update_self]
    exact logging.fits.headOf b
  · intro i sector hget
    rw [update_of_ne (by omega)]
    exact logging.slot i sector hget
  · intro sector outside hmem
    rw [update_of_ne (Volume.ne_of_outside v.start_inLog outside).symm,
      logging.outside sector outside]
    symm
    apply apply_of_not_mem
    intro w hw h
    exact hmem ((logging.listed sector).mpr (mem_map.mpr ⟨w, hw, h⟩))

/-- The sector writes of `commit_trans`. -/
def committing (v : Volume) (s : Sys) : List (Nat × Block) :=
  if s.log.lh = [] then [] else
    let header := withHead (s.disk v.start) s.log.lh
    (v.start, header) :: settling v (Function.update s.disk v.start header) s.log.lh

theorem commitTrans_eq (on : On v s) (fits : Fits v s.log.lh) :
    commitTrans s = pure (((s.puts (committing v s)).setHead []).setBusy false) := by
  by_cases h : s.log.lh = []
  · rw [commitTrans, h, if_neg (by simp), committing, if_pos h]
    congr 2
    simp only [Sys.puts, foldl_nil, Sys.setHead, ← h]
  · have hpos : s.log.lh.length > 0 := length_pos_iff.mpr h
    rw [commitTrans, if_pos hpos, writeHead_eq on, pure_bind]
    have settle := settle_eq (on.put v.start (withHead (s.disk v.start) s.log.lh)) fits
    rw [← bind_assoc, settle, pure_bind, committing, if_neg h]
    rfl

/-- The two disks agree outside the log area. -/
def SameHome (v : Volume) (d d' : Nat → Block) : Prop :=
  ∀ sector, ¬ v.InLog sector → d sector = d' sector

theorem Pending.sameHome (pending : Pending v t [] d) : SameHome v d t :=
  fun sector outside => pending.rest sector outside (by simp)

/-- Before the header write the disk outside the log is the one the transaction started on. -/
theorem SlotTrace.pending (trace : SlotTrace v base n s)
    (empty : (base v.start).getLE 0 4 = 0) (k : Nat) :
    Pending v base [] (apply base (s.writes.take k)) := by
  have slots : ∀ w ∈ s.writes.take k, v.InLog w.1 ∧ w.1 ≠ v.start :=
    fun w hw => trace.slots w (mem_of_mem_take hw)
  have header : apply base (s.writes.take k) v.start = base v.start :=
    apply_of_not_mem fun w hw => (slots w hw).2
  constructor
  · rw [header, empty]
    rfl
  · rw [header, headOf, headCount_eq empty (Nat.zero_le _)]
    rfl
  · simp
  · intro sector outside _
    exact apply_of_not_mem fun w hw => Volume.ne_of_outside (slots w hw).1 outside

/-- A crash of a transaction leaves the disk it started on, or a pending transaction; the latter
if the header write had completed. -/
theorem transaction_take (logging : Logging v base ws s)
    (trace : SlotTrace v base n s) (empty : (base v.start).getLE 0 4 = 0) (k : Nat) :
    (Pending v base [] (apply base ((s.writes ++ committing v s).take k)) ∧
      ∀ w ∈ (s.writes ++ committing v s).take k, w.1 ≠ v.start) ∨
    ∃ lh, Fits v lh ∧
      Pending v (apply base ws) lh (apply base ((s.writes ++ committing v s).take k)) := by
  rw [take_append]
  cases hcommit : (committing v s).take (k - s.writes.length) with
  | nil =>
    left
    rw [append_nil]
    exact ⟨trace.pending empty k, fun w hw => (trace.slots w (mem_of_mem_take hw)).2⟩
  | cons w rest =>
    right
    have late : s.writes.length < k := by
      by_contra early
      rw [Nat.sub_eq_zero_of_le (Nat.not_lt.mp early), take_zero] at hcommit
      simp at hcommit
    obtain ⟨m, hm⟩ : ∃ m, k - s.writes.length = m + 1 := ⟨k - s.writes.length - 1, by omega⟩
    rw [take_of_length_le late.le, ← hcommit, apply_append, ← trace.disk, hm]
    by_cases h : s.log.lh = []
    · simp [committing, h] at hcommit
    · rw [committing, if_neg h, take_succ_cons, apply_cons]
      exact (logging.committed _).settling_take logging.fits m

/-- A transaction on a disk with an empty log, run to its end or cut off at any sector write,
followed by a recovery that may itself be cut off any number of times: outside the log the disk
is the old one or has all the blocks last logged, the latter once the commit header is written,
and the log is empty. -/
theorem transaction_crash_atomic (v : Volume) (base : Nat → Block) (ws : List (Nat × Block))
    (empty : (base v.start).getLE 0 4 = 0)
    (home : ∀ w ∈ ws, w.1 < v.disksize ∧ ¬ v.InLog w.1) (admitted : Admitted v ws) :
    ∃ s, transaction (v.begun base) ws = .ok s ∧
      ∀ k, (∃ d, Recovers v (apply base (s.writes.take k)) d) ∧
        ∀ d, Recovers v (apply base (s.writes.take k)) d →
          (d v.start).getLE 0 4 = 0 ∧
          (SameHome v d base ∨ SameHome v d (apply base ws)) ∧
          ((∃ header, (v.start, header) ∈ s.writes.take k) → SameHome v d (apply base ws)) := by
  obtain ⟨s, run, logging, trace⟩ := logWrites_spec base home admitted
  refine ⟨((s.puts (committing v s)).setHead []).setBusy false, ?_, fun k => ?_⟩
  · rw [transaction, run]
    exact commitTrans_eq logging.on logging.fits
  · have writes : (((s.puts (committing v s)).setHead []).setBusy false).writes =
        s.writes ++ committing v s := puts_writes s _
    rw [writes]
    cases transaction_take logging trace empty k with
    | inl early =>
      obtain ⟨pending, noHeader⟩ := early
      refine ⟨pending.recovers (Fits.nil v), fun d recovers => ?_⟩
      have settled := recovers.settled (Fits.nil v) pending
      refine ⟨settled.count, .inl settled.sameHome, ?_⟩
      rintro ⟨header, hw⟩
      exact absurd rfl (noHeader _ hw)
    | inr late =>
      obtain ⟨lh, fits, pending⟩ := late
      refine ⟨pending.recovers fits, fun d recovers => ?_⟩
      have settled := recovers.settled fits pending
      exact ⟨settled.count, .inr settled.sameHome, fun _ => settled.sameHome⟩

/-- Two sectors, one of them logged twice, on a blank disk with a log of four sectors. -/
theorem absorbed_transaction_atomic :
    ∃ s, transaction ((⟨16, 8, 4, by decide, by decide, by decide⟩ : Volume).begun
        fun _ _ => 0) [(2, fun _ => 1), (3, fun _ => 2), (2, fun _ => 3)] = .ok s ∧
      ∀ k d, Recovers ⟨16, 8, 4, by decide, by decide, by decide⟩
          (apply (fun _ _ => 0) (s.writes.take k)) d →
        d 2 = (fun _ => 0) ∧ d 3 = (fun _ => 0) ∨ d 2 = (fun _ => 3) ∧ d 3 = (fun _ => 2) := by
  have outside : ∀ a < 8, ¬ Volume.InLog ⟨16, 8, 4, by decide, by decide, by decide⟩ a := by
    intro a ha inLog
    exact absurd inLog.1 (Nat.not_le.mpr ha)
  obtain ⟨s, run, crash⟩ := transaction_crash_atomic
    ⟨16, 8, 4, by decide, by decide, by decide⟩ (fun _ _ => 0)
    [(2, fun _ => 1), (3, fun _ => 2), (2, fun _ => 3)] (by decide)
    (by
      intro w hw
      simp only [List.mem_cons, List.not_mem_nil, or_false] at hw
      obtain rfl | rfl | rfl := hw <;> exact ⟨by decide, outside _ (by decide)⟩)
    (by unfold Admitted; decide)
  refine ⟨s, run, fun k d recovers => ?_⟩
  obtain ⟨-, old | new, -⟩ := (crash k).2 d recovers
  · exact .inl ⟨old 2 (outside 2 (by decide)), old 3 (outside 3 (by decide))⟩
  · exact .inr ⟨new 2 (outside 2 (by decide)), new 3 (outside 3 (by decide))⟩

/-! ### A whole life of the disk -/

theorem puts_dirty (s : Sys) (ws : List (Nat × Block)) :
    (s.puts ws).dirty a = if a ∈ ws.map Prod.fst then none else s.dirty a := by
  induction ws generalizing s with
  | nil => simp [Sys.puts]
  | cons w ws ih =>
    rw [puts_cons, ih]
    by_cases here : a = w.1 <;> simp [Sys.put, here]

theorem puts_kept (s : Sys) (ws : List (Nat × Block)) :
    (s.puts ws).log = s.log ∧ (s.puts ws).disksize = s.disksize := by
  induction ws generalizing s with
  | nil => exact ⟨rfl, rfl⟩
  | cons w ws ih => exact ih (s.put w.1 w.2)

/-- `commit_trans` leaves nothing behind in memory: every buffer is clean, the log is idle. -/
theorem Logging.rests (logging : Logging v base ws s) :
    { ((s.puts (committing v s)).setHead []).setBusy false with writes := [] } =
      v.boot (apply s.disk (committing v s)) := by
  have clean : (s.puts (committing v s)).dirty = fun _ => none := by
    funext a
    rw [puts_dirty, logging.pinned]
    by_cases nothing : s.log.lh = []
    · simp [nothing]
    · simp [committing, nothing, settling, homes_sectors]
      tauto
  obtain ⟨log, disksize⟩ := puts_kept s (committing v s)
  simp only [Sys.setHead, Sys.setBusy, clean, log, disksize, puts_disk, boot, logging.on.disksize,
    logging.on.start, logging.on.size]

theorem SameHome.apply {d e : Nat → Block} (same : SameHome v d e) (ws : List (Nat × Block)) :
    SameHome v (apply d ws) (apply e ws) := by
  induction ws generalizing d e with
  | nil => exact same
  | cons w ws ih =>
    refine ih fun a outside => ?_
    simp only [Function.update_apply, same a outside]

/-- A transaction, and after how many of its sector writes the power failed, if it did. -/
structure Turn where
  ws : List (Nat × Block)
  cut : Option Nat

/-- The transaction is one that the log admits. -/
def Turn.Legal (v : Volume) (turn : Turn) : Prop :=
  (∀ w ∈ turn.ws, w.1 < v.disksize ∧ ¬ v.InLog w.1) ∧ Admitted v turn.ws

/-- The kernel makes the transaction; if the power failed, the next kernel recovers the disk,
perhaps after more failures. -/
def Turn.Leads (v : Volume) (turn : Turn) (s u : Sys) : Prop :=
  ∃ s₁ s₂, beginTrans s = some s₁ ∧ transaction s₁ turn.ws = .ok s₂ ∧
    match turn.cut with
    | none => u = { s₂ with writes := [] }
    | some k => ∃ d, Recovers v (apply s.disk (s₂.writes.take k)) d ∧ u = v.boot d

/-- One turn after the other. -/
def Lives (v : Volume) : List Turn → Sys → Sys → Prop
  | [], s, t => t = s
  | turn :: rest, s, t => ∃ u, turn.Leads v s u ∧ Lives v rest u t

theorem Logging.complete (logging : Logging v base ws s) (trace : SlotTrace v base n s)
    (empty : (base v.start).getLE 0 4 = 0) :
    Pending v (apply base ws) [] (apply s.disk (committing v s)) := by
  by_cases nothing : s.log.lh = []
  · have none : ws = [] := eq_nil_iff_forall_not_mem.mpr fun w mem => by
      simpa [nothing] using (logging.listed w.1).mpr (mem_map_of_mem mem)
    have pending := trace.pending empty s.writes.length
    rw [take_length, ← trace.disk] at pending
    rwa [committing, if_pos nothing, none]
  · rw [committing, if_neg nothing]
    exact (logging.committed _).settled

/-- After a turn the kernel is as after a boot, on a disk with an empty log and the old or the new
home area; the old one only if the power failed. -/
theorem Turn.Legal.leads {turn : Turn} (legal : turn.Legal v) (empty : (d v.start).getLE 0 4 = 0) :
    (∃ u, turn.Leads v (v.boot d) u) ∧ ∀ u, turn.Leads v (v.boot d) u → ∃ e, u = v.boot e ∧
      (Pending v (apply d turn.ws) [] e ∨ turn.cut ≠ none ∧ Pending v d [] e) := by
  obtain ⟨ws, cut⟩ := turn
  obtain ⟨s, logged, logging, trace⟩ := logWrites_spec d legal.1 legal.2
  have run : transaction (v.begun d) ws =
      .ok (((s.puts (committing v s)).setHead []).setBusy false) := by
    rw [transaction, logged]
    exact commitTrans_eq logging.on logging.fits
  cases cut with
  | none =>
    refine ⟨⟨_, _, _, rfl, run, rfl⟩, ?_⟩
    rintro u ⟨s₁, s₂, begun, run', rfl⟩
    cases begun
    cases run.symm.trans run'
    exact ⟨_, logging.rests, .inl (logging.complete trace empty)⟩
  | some k =>
    have crash := transaction_take logging trace empty k
    rw [← puts_writes] at crash
    obtain ⟨lh, fits, pending⟩ : ∃ lh, Fits v lh ∧
        (Pending v (apply d ws) lh _ ∨ Pending v d lh _) :=
      crash.elim (fun early => ⟨[], Fits.nil v, .inr early.1⟩)
        fun ⟨lh, fits, late⟩ => ⟨lh, fits, .inl late⟩
    obtain ⟨e, recovers⟩ := pending.elim (Pending.recovers fits) (Pending.recovers fits)
    refine ⟨⟨_, _, _, rfl, run, e, recovers, rfl⟩, ?_⟩
    rintro u ⟨s₁, s₂, begun, run', e, recovers, rfl⟩
    cases begun
    cases run.symm.trans run'
    exact ⟨e, rfl, pending.imp (recovers.settled fits) fun old =>
      ⟨Option.some_ne_none k, recovers.settled fits old⟩⟩

/-- Whatever the failures, a life that the log admits can be led, and it ends with an empty log
and the blocks, in their order, of every transaction that ran to its end and of some of those
that were cut off: each of these is there as a whole or not at all. -/
theorem committed_survive (v : Volume) (turns : List Turn) (d : Nat → Block)
    (empty : (d v.start).getLE 0 4 = 0) (legal : ∀ turn ∈ turns, turn.Legal v) :
    (∃ s, Lives v turns (v.boot d) s) ∧ ∀ s, Lives v turns (v.boot d) s →
      (s.disk v.start).getLE 0 4 = 0 ∧ ∃ kept : List Turn,
        (turns.filter (·.cut.isNone)).Sublist kept ∧ kept.Sublist turns ∧
        SameHome v s.disk (apply d (kept.flatMap Turn.ws)) := by
  induction turns generalizing d with
  | nil =>
    refine ⟨⟨_, rfl⟩, ?_⟩
    rintro s rfl
    exact ⟨empty, [], .refl _, .refl _, fun _ _ => rfl⟩
  | cons turn rest ih =>
    obtain ⟨⟨u, leads⟩, after⟩ := (legal turn mem_cons_self).leads empty
    have ih := fun e empty => ih e empty fun turn mem => legal turn (.tail _ mem)
    constructor
    · obtain ⟨e, rfl, ended⟩ := after u leads
      obtain ⟨⟨s, later⟩, -⟩ := ih e (ended.elim (·.count) (·.2.count))
      exact ⟨s, _, leads, later⟩
    · rintro s ⟨u, leads, later⟩
      obtain ⟨e, rfl, new | ⟨cut, old⟩⟩ := after u leads
      · obtain ⟨clean, kept, least, most, same⟩ := (ih e new.count).2 s later
        refine ⟨clean, turn :: kept, ?_, most.cons_cons _, fun a outside => ?_⟩
        · rw [filter_cons]
          split
          · exact least.cons_cons _
          · exact least.cons _
        · rw [flatMap_cons, apply_append, same a outside]
          exact new.sameHome.apply _ a outside
      · obtain ⟨clean, kept, least, most, same⟩ := (ih e old.count).2 s later
        refine ⟨clean, kept, ?_, most.cons _, fun a outside => ?_⟩
        · rwa [filter_cons_of_neg (by simpa using cut)]
        · rw [same a outside]
          exact old.sameHome.apply _ a outside

/-- On a blank disk, a transaction cut off after its first sector write and then a whole one. -/
theorem cut_then_whole_lives : ∃ s, Lives ⟨16, 8, 4, by decide, by decide, by decide⟩
        [⟨[(3, fun _ => 2)], some 1⟩, ⟨[(2, fun _ => 1)], none⟩]
        (DiskLog.boot 16 8 4 fun _ _ => 0) s ∧ (s.disk 8).getLE 0 4 = 0 := by
  obtain ⟨⟨s, lives⟩, ends⟩ := committed_survive ⟨16, 8, 4, by decide, by decide, by decide⟩
    [⟨[(3, fun _ => 2)], some 1⟩, ⟨[(2, fun _ => 1)], none⟩] (fun _ _ => 0) (by decide) (by
      intro turn mem
      obtain rfl | rfl : turn = _ ∨ turn = _ := by simpa using mem
      all_goals
        refine ⟨fun w mem => ?_, by unfold Admitted; decide⟩
        obtain rfl := mem_singleton.mp mem
        exact ⟨by decide, fun inLog => absurd inLog.1 (by decide)⟩)
  exact ⟨s, lives, (ends s lives).1⟩

end DiskLog
