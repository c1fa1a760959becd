import PinkyOS.BufferCache
import PinkyOS.LinkedIndex

/-!
# Coherence of the buffer cache

The programs of `bio.c` and `log.c` keep to a protocol on the buffers in their hands
(`protocol`), and every operation that keeps to it keeps the invariant `Core` of the cache. Both
hold for any number of processes, whatever the order in which they take turns.
-/
namespace BufferCache
open ByteBuffer WriteTrace DiskLog Program LinkedIndex Function List

/-! ### The list through `bcache.head` -/

/-- The links form one ring through the head and every buffer, each once. -/
def Ring (c : Cache) : Prop :=
  ∃ xs : List Ptr, Linked c.prev c.next none (fun q => c.prev none = q) none (c.next none) xs ∧
    xs.Nodup ∧ ∀ b : BufId, some b ∈ xs

variable {xs : List Ptr} {c : Cache}

theorem visit_linked {link prev : Ptr → Ptr} {fin : Ptr → Prop} {k : Nat} {p q : Ptr}
    (linked : Linked prev link none fin p q xs) (enough : xs.length ≤ k) :
    (visit link k q).map some = xs := by
  induction xs generalizing k p q with
  | nil =>
    obtain ⟨rfl, -⟩ := linked
    cases k <;> rfl
  | cons x xs ih =>
    obtain ⟨rfl, hne, -, rest⟩ := linked
    obtain ⟨b, rfl⟩ := Option.ne_none_iff_exists'.mp hne
    cases k with
    | zero => simp at enough
    | succ k =>
      simp only [length_cons] at enough
      simp only [visit, map_cons, ih rest (Nat.le_of_succ_le_succ enough)]

theorem ring_length (nodup : xs.Nodup) (named : ∀ x ∈ xs, x ≠ none) : xs.length ≤ nbuf := by
  have whole : (none :: xs).Nodup := nodup_cons.mpr ⟨fun h => named none h rfl, nodup⟩
  have card := whole.length_le_card
  simp only [length_cons, Fintype.card_option, Fintype.card_fin] at card
  omega

/-- The scan of `bget` passes every buffer. -/
theorem Ring.mem_visit (ring : Ring c) (b : BufId) : b ∈ visit c.next nbuf (c.next none) := by
  obtain ⟨xs, linked, nodup, all⟩ := ring
  have walk := visit_linked linked (ring_length nodup linked.ne_stop)
  have hb := all b
  rw [← walk, mem_map] at hb
  obtain ⟨d, hd, h⟩ := hb
  exact Option.some.inj h ▸ hd

/-- A chain through the head; `Ring` without the condition that it passes every buffer. -/
def Chain (c : Cache) (xs : List Ptr) : Prop :=
  Linked c.prev c.next none (fun q => c.prev none = q) none (c.next none) xs ∧ xs.Nodup

theorem Chain.pushFront {b : BufId} (chain : Chain c xs)
    (fresh : some b ∉ xs) : Chain (c.pushFront b) (some b :: xs) := by
  obtain ⟨linked, nodup⟩ := chain
  have hne : ∀ x ∈ xs, x ≠ none ∧ x ≠ some b := fun x hx =>
    ⟨linked.ne_stop x hx, fun e => fresh (e ▸ hx)⟩
  have hfirst : c.next none ≠ some b := by
    intro e
    cases xs with
    | nil => simp [linked.1] at e
    | cons x xs => exact fresh (linked.1 ▸ e ▸ mem_cons_self)
  constructor
  · have first : (c.pushFront b).next none = some b := by
      simp [Cache.pushFront, Cache.setNext, Cache.setPrev]
    rw [first]
    refine linked.push nodup (by simp) ?_ ?_ ?_ ?_ ?_
    · simp [Cache.pushFront, Cache.setNext, Cache.setPrev, hfirst.symm]
    · simp [Cache.pushFront, Cache.setNext, Cache.setPrev]
    · intro x hx
      simp [Cache.pushFront, Cache.setNext, Cache.setPrev, update_apply, hne x hx]
    · intro x hx
      simp [Cache.pushFront, Cache.setNext, Cache.setPrev, hne x hx]
    · -- the head's `prev` changes only when the list was empty
      intro q _ hq
      by_cases h : xs = []
      · have stop : c.next none = none := linked.eq_nil_iff.mp h
        simp [Cache.pushFront, Cache.setNext, Cache.setPrev, h, stop]
      · have go : c.next none ≠ none := fun e => h (linked.eq_nil_iff.mpr e)
        simp [Cache.pushFront, Cache.setNext, Cache.setPrev, h, go.symm, hq]
  · exact nodup_cons.mpr ⟨fresh, nodup⟩

theorem Chain.unlink {b : BufId} (chain : Chain c xs) (mem : some b ∈ xs) :
    ∃ ys, Chain (c.unlink b) ys ∧ some b ∉ ys ∧ ∀ d ≠ b, some d ∈ xs → some d ∈ ys := by
  obtain ⟨linked, nodup⟩ := chain
  have hnb : some b ≠ c.next (some b) := (linked.next_ne nodup mem).symm
  have prev_eq : (c.unlink b).prev =
      update c.prev (c.next (some b)) (c.prev (some b)) := rfl
  have next_eq : (c.unlink b).next =
      update c.next (c.prev (some b)) (c.next (some b)) := by
    simp [Cache.unlink, Cache.setPrev, Cache.setNext, update_of_ne hnb]
  have first : (c.unlink b).next none =
      if c.next none = some b then c.next (some b) else c.next none := by
    rw [next_eq, update_apply]
    rcases linked.pre_cases mem with ⟨hc, hp⟩ | hp
    · simp [hc, hp]
    · have hc : c.next none ≠ some b := by
        intro e
        have := linked.pre_first (e ▸ Option.some_ne_none b)
        rw [e] at this
        exact linked.ne_stop _ hp this
      simp [hc, (linked.ne_stop _ hp).symm]
  refine ⟨xs.erase (some b), ⟨?_, nodup.erase (some b)⟩, nodup.not_mem_erase, ?_⟩
  · rw [first]
    refine linked.remove nodup mem (fun h => linked.ne_stop none h rfl) ?_ ?_ ?_
    · intro x _ _
      rw [prev_eq, update_apply]
    · intro x _ _
      rw [next_eq, update_apply]
    · -- `b` is the last element exactly when the head's `prev` has to change
      rintro q - rfl
      rw [prev_eq, update_apply]
      by_cases last : c.next (some b) = none
      · simp [last, linked.fin_of_next mem last]
      · have other : c.prev none ≠ some b := by
          intro e
          obtain ⟨q, -, hq, hf⟩ := linked.exists_last (ne_nil_of_mem mem)
          exact last (e ▸ hf ▸ hq)
        simp [other, Ne.symm last]
  · intro d hd hmem
    exact (mem_erase_of_ne (by simpa using hd)).mpr hmem

theorem Ring.moveToFront (ring : Ring c) (b : BufId) : Ring (moveToFront c b) := by
  obtain ⟨xs, linked, nodup, all⟩ := ring
  obtain ⟨ys, chain, fresh, others⟩ := Chain.unlink ⟨linked, nodup⟩ (all b)
  have moved := chain.pushFront fresh
  refine ⟨some b :: ys, moved.1, moved.2, ?_⟩
  intro d
  by_cases h : d = b
  · exact h ▸ mem_cons_self
  · exact mem_cons_of_mem _ (others d h (all d))

theorem binit_fold (bs : List BufId) (c : Cache) :
    (bs.foldl binitOne c).disk = c.disk ∧ (bs.foldl binitOne c).latest = c.latest ∧
      ∀ b, (bs.foldl binitOne c).buf b = if b ∈ bs then { c.buf b with dev := -1 } else c.buf b := by
  induction bs generalizing c with
  | nil => simp
  | cons d bs ih =>
    obtain ⟨disk, latest, buf⟩ := ih (binitOne c d)
    refine ⟨disk, latest, fun b => ?_⟩
    have here : (binitOne c d).buf = update c.buf d { c.buf d with dev := -1 } := rfl
    rw [foldl_cons, buf b, here]
    by_cases e : b = d
    · subst e
      simp
    · simp [e]

theorem Ring.binit (c : Cache) : Ring (binit c) := by
  have all : ∀ (bs : List BufId) (c : Cache) (xs : List Ptr), Chain c xs → bs.Nodup →
      (∀ b ∈ bs, some b ∉ xs) →
      ∃ ys, Chain (bs.foldl binitOne c) ys ∧ (∀ x ∈ xs, x ∈ ys) ∧ ∀ b ∈ bs, some b ∈ ys := by
    intro bs
    induction bs with
    | nil =>
      intro c xs chain _ _
      exact ⟨xs, chain, fun x hx => hx, by simp⟩
    | cons b bs ih =>
      intro c xs chain nodup fresh
      obtain ⟨hb, nd⟩ := nodup_cons.mp nodup
      have pushed : Chain (binitOne c b) (some b :: xs) :=
        Chain.pushFront (c := c.setBuf b { c.buf b with dev := -1 }) chain
          (fresh b mem_cons_self)
      obtain ⟨ys, chain, old, new⟩ := ih _ _ pushed nd (by
        intro d hd
        have : d ≠ b := fun e => hb (e ▸ hd)
        simp [this, fresh d (mem_cons_of_mem b hd)])
      refine ⟨ys, chain, fun x hx => old x (mem_cons_of_mem _ hx), ?_⟩
      intro d hd
      rcases mem_cons.mp hd with rfl | hd
      · exact old _ mem_cons_self
      · exact new d hd
  have start : Chain ((c.setPrev none none).setNext none none) [] := by
    simp [Chain, Linked, Cache.setPrev, Cache.setNext]
  obtain ⟨ys, chain, -, mem⟩ := all (finRange nbuf) _ [] start (nodup_finRange nbuf)
    (by simp)
  exact ⟨ys, chain.1, chain.2, fun b => mem b (mem_finRange b)⟩

/-! ### The protocol of the programs -/

/-- What a program may do with the buffers in its hands; `bget` never gives it one of them. -/
def protocol : Protocol Op Res Holds where
  allow hs
    | .look b => (hs b).isSome
    | .setData b _ => ∃ h, hs b = some h ∧ h.valid
    | .setDirty b => ∃ h, hs b = some h ∧ h.valid
    | .iderw b => (hs b).isSome
    | .pin b => ∃ h, hs b = some h ∧ h.valid
    | .release b => ∃ h, hs b = some h ∧ h.unsaved = false
    | _ => True
  may hs
    | .bget _ _, b => hs b = none
    | _, _ => True
  next := Holds.after

/-- The operations on the log alone. -/
def Op.onLog : Op → Bool
  | .getLog | .logSlot _ | .grow _ | .clear | .lockLog | .unlockLog => true
  | _ => false

section
variable {α : Type} {post : Holds → α → Prop} {hs : Holds} {b : BufId}
  {dev : BitVec 32} {sector : Nat} {valid unsaved : Bool}

theorem update_none (fresh : hs b = none) : update hs b none = hs := by
  rw [← fresh, update_eq_self]

theorem safe_onLog {o : Op} {f : Res o → M α} (log : o.onLog = true)
    (rest : ∀ r, Safe protocol post hs (f r)) : Safe protocol post hs (call o >>= f) := by
  cases o <;> cases log <;> exact ⟨trivial, fun r _ => rest r⟩

theorem safe_bget {f : BufId → M α} (rest : ∀ b, hs b = none →
      Safe protocol post (update hs b (some ⟨dev, sector, false, false⟩)) (f b)) :
    Safe protocol post hs (call (.bget dev sector) >>= f) :=
  ⟨trivial, rest⟩

theorem safe_look {f : Buf → M α} (held : hs b = some ⟨dev, sector, valid, unsaved⟩)
    (rest : ∀ x : Buf, Safe protocol post
      (update hs b (some ⟨dev, sector, valid || x.valid, unsaved⟩)) (f x)) :
    Safe protocol post hs (call (.look b) >>= f) := by
  constructor
  · simp [protocol, held]
  · intro x _
    have result := rest x
    change Safe protocol post (update hs b ((hs b).map _)) (f x)
    rwa [held]

variable {f : Unit → M α}

theorem safe_setData {data : Block} (held : hs b = some ⟨dev, sector, true, unsaved⟩)
    (rest : Safe protocol post (update hs b (some ⟨dev, sector, true, true⟩)) (f ())) :
    Safe protocol post hs (call (.setData b data) >>= f) := by
  refine ⟨⟨_, held, rfl⟩, fun _ _ => ?_⟩
  change Safe protocol post (update hs b ((hs b).map _)) (f ())
  rwa [held]

theorem safe_iderw (held : hs b = some ⟨dev, sector, valid, unsaved⟩)
    (rest : Safe protocol post (update hs b (some ⟨dev, sector, true, false⟩)) (f ())) :
    Safe protocol post hs (call (.iderw b) >>= f) := by
  constructor
  · simp [protocol, held]
  · intro _ _
    change Safe protocol post (update hs b ((hs b).map _)) (f ())
    rwa [held]

theorem safe_pin (held : hs b = some ⟨dev, sector, true, unsaved⟩)
    (rest : Safe protocol post (update hs b (some ⟨dev, sector, true, false⟩)) (f ())) :
    Safe protocol post hs (call (.pin b) >>= f) := by
  refine ⟨⟨_, held, rfl⟩, fun _ _ => ?_⟩
  change Safe protocol post (update hs b ((hs b).map _)) (f ())
  rwa [held]

/-- A look at a buffer known to be valid tells nothing new. -/
theorem safe_look_valid {f : Buf → M α} (held : hs b = some ⟨dev, sector, true, unsaved⟩)
    (rest : ∀ x : Buf, Safe protocol post hs (f x)) :
    Safe protocol post hs (call (.look b) >>= f) := by
  refine safe_look held fun x => ?_
  rw [Bool.true_or, update_eq_self_iff.mpr held.symm]
  exact rest x

theorem safe_bread {post : Holds → BufId → Prop}
    (rest : ∀ b, hs b = none → post (update hs b (some ⟨dev, sector, true, false⟩)) b) :
    Safe protocol post hs (bread dev sector) := by
  refine safe_bget fun b fresh => safe_look (update_self ..) fun x => ?_
  rw [update_idem]
  refine Safe.ite (fun _ => safe_iderw (update_self ..) ?_) fun hx => ?_
  · rw [update_idem]
    exact rest b fresh
  · have known : x.valid = true := by simpa using hx
    rw [known]
    exact rest b fresh

section
variable {post : Holds → Unit → Prop}

theorem safe_bwrite (held : hs b = some ⟨dev, sector, true, unsaved⟩)
    (rest : post (update hs b (some ⟨dev, sector, true, false⟩)) ()) :
    Safe protocol post hs (bwrite b) := by
  refine safe_look_valid held fun x => Safe.ite (fun _ => ⟨trivial, nofun⟩) fun _ => ?_
  exact ⟨⟨_, held, rfl⟩, fun _ _ => safe_iderw (f := Prog.ret) held rest⟩

theorem safe_brelse (held : hs b = some ⟨dev, sector, true, false⟩)
    (rest : post (update hs b none) ()) : Safe protocol post hs (brelse b) := by
  refine safe_look_valid held fun x => Safe.ite (fun _ => ⟨trivial, nofun⟩) fun _ => ?_
  exact ⟨⟨_, held, rfl⟩, fun _ _ => rest⟩

theorem safe_logWrite (held : hs b = some ⟨dev, sector, true, unsaved⟩)
    (rest : post (update hs b (some ⟨dev, sector, true, false⟩)) ()) :
    Safe protocol post hs (logWrite b) := by
  refine safe_look_valid held fun x => safe_onLog rfl fun i => safe_onLog rfl fun log => ?_
  refine Safe.bind (safe_bread fun lbuf fresh => ?_)
  have other : b ≠ lbuf := by
    rintro rfl
    rw [held] at fresh
    cases fresh
  refine safe_look_valid (by rw [update_of_ne other]; exact held) fun x => ?_
  refine safe_setData (update_self ..) (Safe.bind (safe_bwrite (update_self ..) ?_))
  refine Safe.bind (safe_brelse (update_self ..) (safe_onLog rfl fun _ => ?_))
  simp only [update_idem, update_none fresh]
  exact safe_pin (f := Prog.ret) held rest

theorem safe_writeHead (rest : post hs ()) : Safe protocol post hs writeHead := by
  refine safe_onLog rfl fun log => Safe.bind (safe_bread fun b fresh => ?_)
  refine safe_look_valid (update_self ..) fun x => safe_onLog rfl fun log => ?_
  refine safe_setData (update_self ..) (Safe.bind (safe_bwrite (update_self ..) ?_))
  refine safe_brelse (update_self ..) ?_
  simpa only [update_idem, update_none fresh] using rest

theorem safe_installFrom (rest : post hs ()) (k tail : Nat) :
    Safe protocol post hs (installFrom k tail) := by
  induction k generalizing tail with
  | zero => exact rest
  | succ k ih =>
    refine safe_onLog rfl fun log => Safe.ite (fun _ => ?_) fun _ => rest
    refine Safe.bind (safe_bread fun lbuf freshL => safe_onLog rfl fun log => ?_)
    refine Safe.bind (safe_bread fun dbuf freshD => ?_)
    have other : lbuf ≠ dbuf := by
      rintro rfl
      simp at freshD
    have freshD : hs dbuf = none := by rwa [update_of_ne other.symm] at freshD
    refine safe_look_valid (by rw [update_of_ne other, update_self]) fun l => ?_
    refine safe_setData (update_self ..)
      (Safe.bind (safe_bwrite (update_self ..) ?_))
    simp only [update_idem]
    refine Safe.bind (safe_brelse (by rw [update_of_ne other, update_self]) ?_)
    refine Safe.bind
      (safe_brelse (by rw [update_of_ne other.symm, update_self]) ?_)
    -- both buffers are back in the cache
    rw [update_comm other, update_idem, update_comm other.symm,
      update_idem, update_none freshL, update_none freshD]
    exact ih (tail + 1)

theorem safe_commitTrans (rest : post hs ()) : Safe protocol post hs commitTrans := by
  refine safe_onLog rfl fun log => Safe.ite (fun _ => ?_) fun _ => ?_
  · refine Safe.bind (safe_writeHead (Safe.bind (safe_installFrom ?_ _ _)))
    refine safe_onLog rfl fun _ => Safe.bind (safe_writeHead ?_)
    exact safe_onLog (f := Prog.ret) rfl fun _ => rest
  · exact safe_onLog (f := Prog.ret) rfl fun _ => rest

end

end

/-! ### The invariant of the cache -/

section
variable {P : Type}

/-- What every operation keeps; `hands p` are the buffers in the hands of process `p`. -/
structure Core (c : Cache) (hands : P → Holds) : Prop where
  ring : Ring c
  unique : ∀ b d, (c.buf b).dev = (c.buf d).dev → (c.buf b).sector = (c.buf d).sector →
    (c.buf b).dev ≠ -1 → b = d
  disk1 : ∀ b, (c.buf b).valid → (c.buf b).dev = 1
  pinned : ∀ b, (c.buf b).dirty → (c.buf b).valid
  /-- A sector whose latest contents are not on the disk is kept in a dirty buffer. -/
  pending : ∀ n, c.disk n ≠ c.latest n → ∃ b, (c.buf b).sector = n ∧ (c.buf b).dirty
  current : ∀ b, (c.buf b).valid → (∀ p h, hands p b = some h → h.unsaved = false) →
    (c.buf b).data = c.latest (c.buf b).sector
  held : ∀ p b h, hands p b = some h → (c.buf b).busy ∧ (c.buf b).dev = h.dev ∧
    (c.buf b).sector = h.sector ∧ (h.valid → (c.buf b).valid)
  alone : ∀ p q b, (hands p b).isSome → (hands q b).isSome → p = q

variable {c c' : Cache} {hands : P → Holds} {p : P} {b : BufId} {x : Buf} {o : Option Hold}

theorem Core.free (core : Core c hands) (own : (hands p b).isSome) : ∀ q ≠ p, hands q b = none := by
  intro q hq
  by_contra some
  exact hq (core.alone q p b (Option.isSome_iff_ne_none.mpr some) own)

theorem Core.not_busy (core : Core c hands) (idle : (c.buf b).busy = false) (q : P) :
    hands q b = none := by
  by_contra some
  obtain ⟨h, hh⟩ := Option.ne_none_iff_exists'.mp some
  rw [(core.held q b h hh).1] at idle
  cases idle

theorem Core.clean_data (core : Core c hands) (valid : (c.buf b).valid)
    (clean : (c.buf b).dirty = false) (idle : (c.buf b).busy = false) :
    (c.buf b).data = c.disk (c.buf b).sector := by
  rw [core.current b valid fun q h e => by simp [core.not_busy idle q] at e]
  by_contra stale
  obtain ⟨d, hd, dirty⟩ := core.pending _ (Ne.symm stale)
  have same : b = d := core.unique b d
    ((core.disk1 b valid).trans (core.disk1 d (core.pinned d dirty)).symm) hd.symm
    (by rw [core.disk1 b valid]; decide)
  rw [← same, clean] at dirty
  cases dirty

variable {h : Hold} {hs : Holds} {s : State P}

/-- What the holder of a valid buffer finds in it, unless it has changed the data itself. -/
theorem Core.data_eq (core : Core c hands) (own : hands p b = some h)
    (saved : h.unsaved = false) (valid : (c.buf b).valid) :
    (c.buf b).data = c.latest (c.buf b).sector := by
  refine core.current b valid fun q h' hq => ?_
  have e : q = p := core.alone q p b (by rw [hq]; rfl) (by rw [own]; rfl)
  rw [e, own] at hq
  cases hq
  exact saved

theorem Core.only (core : Core c hands) (d : BufId) (hd : d ≠ b)
    (dev : (c.buf b).dev = (c.buf d).dev) (sector : (c.buf b).sector = (c.buf d).sector) :
    (c.buf b).dev = -1 := by
  by_contra hne
  exact hd (core.unique b d dev sector hne).symm

theorem Core.setLog (core : Core c hands) (log : Log) : Core (c.setLog log) hands :=
  ⟨core.ring, core.unique, core.disk1, core.pinned, core.pending, core.current, core.held,
    core.alone⟩

variable [DecidableEq P]

/-- The hands after process `p` has `o` in place of what it had of buffer `b`. -/
def setHand (hands : P → Holds) (p : P) (b : BufId) (o : Option Hold) : P → Holds :=
  Function.update hands p (Function.update (hands p) b o)

@[simp] theorem setHand_self : setHand hands p b o p b = o := by
  simp [setHand]

theorem setHand_of_ne {q : P} {d : BufId} (h : q ≠ p ∨ d ≠ b) :
    setHand hands p b o q d = hands q d := by
  by_cases hq : q = p
  · subst hq
    simp [setHand, h.resolve_left (fun ne => ne rfl)]
  · simp [setHand, hq]

/-- An operation that puts `x` in place of buffer `b`, which no other process holds. -/
theorem Core.replace (core : Core c hands) (buf : c'.buf = update c.buf b x)
    (ring : Ring c') (free : ∀ q ≠ p, hands q b = none)
    (only : ∀ d ≠ b, x.dev = (c.buf d).dev → x.sector = (c.buf d).sector → x.dev = -1)
    (disk1 : x.valid → x.dev = 1) (pinned : x.dirty → x.valid)
    (pending : ∀ n, c'.disk n ≠ c'.latest n →
      (∃ d ≠ b, (c.buf d).sector = n ∧ (c.buf d).dirty) ∨ x.sector = n ∧ x.dirty)
    (others : ∀ d ≠ b, (c.buf d).valid → c'.latest (c.buf d).sector = c.latest (c.buf d).sector)
    (current : x.valid → (∀ h, o = some h → h.unsaved = false) → x.data = c'.latest x.sector)
    (held : ∀ h, o = some h → x.busy ∧ x.dev = h.dev ∧ x.sector = h.sector ∧
      (h.valid → x.valid)) : Core c' (setHand hands p b o) := by
  have self : c'.buf b = x := by simp [buf]
  have other : ∀ d ≠ b, c'.buf d = c.buf d := fun d hd => by simp [buf, hd]
  constructor
  case ring => exact ring
  case unique =>
    intro d e hdev hsec hne
    by_cases hd : d = b
    · subst hd
      by_cases he : e = d
      · exact he.symm
      · rw [self, other e he] at hdev hsec
        exact absurd (self ▸ only e he hdev hsec) hne
    · by_cases he : e = b
      · subst he
        rw [self, other d hd] at hdev hsec
        exact absurd ((other d hd).symm ▸ hdev.trans (only d hd hdev.symm hsec.symm)) hne
      · rw [other d hd, other e he] at hdev hsec
        exact core.unique d e hdev hsec (other d hd ▸ hne)
  case disk1 =>
    intro d
    by_cases hd : d = b
    · rw [hd, self]
      exact disk1
    · rw [other d hd]
      exact core.disk1 d
  case pinned =>
    intro d
    by_cases hd : d = b
    · rw [hd, self]
      exact pinned
    · rw [other d hd]
      exact core.pinned d
  case pending =>
    intro n hn
    rcases pending n hn with ⟨d, hd, h⟩ | h
    · exact ⟨d, by rwa [other d hd]⟩
    · exact ⟨b, by rwa [self]⟩
  case current =>
    intro d valid saved
    by_cases hd : d = b
    · subst hd
      rw [self] at valid ⊢
      exact current valid fun h e => saved p h (by rw [setHand_self, e])
    · rw [other d hd] at valid ⊢
      rw [others d hd valid]
      exact core.current d valid fun q h e => saved q h (by rwa [setHand_of_ne (.inr hd)])
  case held =>
    intro q d h hq
    by_cases hd : d = b
    · subst hd
      rw [self]
      by_cases e : q = p
      · subst e
        exact held h (by simpa using hq)
      · rw [setHand_of_ne (.inl e), free q e] at hq
        cases hq
    · rw [setHand_of_ne (.inr hd)] at hq
      rw [other d hd]
      exact core.held q d h hq
  case alone =>
    have mine : ∀ q, (setHand hands p b o q b).isSome → q = p := by
      intro q hq
      by_contra e
      rw [setHand_of_ne (.inl e), free q e] at hq
      cases hq
    intro q r d hq hr
    by_cases hd : d = b
    · subst hd
      rw [mine q hq, mine r hr]
    · rw [setHand_of_ne (.inr hd)] at hq hr
      exact core.alone q r d hq hr

/-- An operation by its holder on a buffer, which leaves the disk and the history alone. -/
theorem Core.touch (core : Core c hands) (own : hands p b = some h)
    (buf : c'.buf = update c.buf b x) (ring : Ring c') (disk : c'.disk = c.disk)
    (latest : c'.latest = c.latest) (dev : x.dev = (c.buf b).dev)
    (sector : x.sector = (c.buf b).sector) (keep : (c.buf b).dirty → x.dirty)
    (disk1 : x.valid → x.dev = 1) (pinned : x.dirty → x.valid)
    (current : x.valid → (∀ h, o = some h → h.unsaved = false) → x.data = c.latest x.sector)
    (held : ∀ h, o = some h → x.busy ∧ x.dev = h.dev ∧ x.sector = h.sector ∧
      (h.valid → x.valid)) : Core c' (setHand hands p b o) := by
  refine core.replace buf ring (core.free (by rw [own]; rfl)) ?_ disk1 pinned ?_ ?_
    (latest ▸ current) held
  · intro d hd e₁ e₂
    rw [dev] at e₁ ⊢
    exact core.only d hd e₁ (sector ▸ e₂)
  · intro n hn
    rw [disk, latest] at hn
    obtain ⟨d, hd, dirty⟩ := core.pending n hn
    by_cases e : d = b
    · subst e
      exact .inr ⟨sector.trans hd, keep dirty⟩
    · exact .inl ⟨d, e, hd, dirty⟩
  · intro d _ _
    rw [latest]

/-- An operation by its holder that hands the data of a valid buffer to the disk or the log. -/
theorem Core.save (core : Core c hands) (own : hands p b = some h)
    (valid : (c.buf b).valid) (buf : c'.buf = update c.buf b x) (ring : Ring c')
    (latest : c'.latest = update c.latest (c.buf b).sector (c.buf b).data)
    (dev : x.dev = (c.buf b).dev) (sector : x.sector = (c.buf b).sector)
    (data : x.data = (c.buf b).data) (busy : x.busy = (c.buf b).busy) (known : x.valid)
    (disk : ∀ n ≠ (c.buf b).sector, c'.disk n = c.disk n)
    (here : c'.disk (c.buf b).sector = (c.buf b).data ∨ x.dirty) :
    Core c' (setHand hands p b (some { h with valid := true, unsaved := false })) := by
  obtain ⟨hbusy, hdev, hsector, -⟩ := core.held p b h own
  refine core.replace buf ring (core.free (by rw [own]; rfl)) ?_ ?_ (fun _ => known) ?_ ?_ ?_ ?_
  · intro d hd e₁ e₂
    rw [dev] at e₁ ⊢
    exact core.only d hd e₁ (sector ▸ e₂)
  · intro _
    rw [dev]
    exact core.disk1 b valid
  · intro n hn
    by_cases e : n = (c.buf b).sector
    · subst e
      rw [latest, update_self] at hn
      exact .inr ⟨sector, here.resolve_left hn⟩
    · rw [latest, update_of_ne e, disk n e] at hn
      obtain ⟨d, hd, dirty⟩ := core.pending n hn
      refine .inl ⟨d, ?_, hd, dirty⟩
      rintro rfl
      exact e hd.symm
  · intro d hd hvalid
    rw [latest, update_of_ne]
    intro e
    have same := core.only d hd ((core.disk1 b valid).trans (core.disk1 d hvalid).symm) e.symm
    rw [core.disk1 b valid] at same
    cases same
  · intro _ _
    rw [latest, sector, update_self, data]
  · rintro _ ⟨⟩
    exact ⟨busy.trans hbusy, dev.trans hdev, sector.trans hsector, fun _ => known⟩

theorem latest_record (c : Cache) (n : Nat) (data : Block) :
    (c.record n data).latest = update c.latest n data :=
  apply_concat ..

theorem Core.bget {dev : BitVec 32} {sector : Nat} (core : Core c hands)
    (done : BufferCache.bget c dev sector = .done b c') :
    hands p b = none ∧ Core c' (setHand hands p b (some ⟨dev, sector, false, false⟩)) := by
  unfold BufferCache.bget at done
  split at done
  · -- the sector is cached
    rename_i d found
    have named := find?_some found
    simp only [Bool.and_eq_true, beq_iff_eq] at named
    split at done
    · rename_i idle
      cases done
      have idle : (c.buf b).busy = false := by simpa using idle
      refine ⟨core.not_busy idle p, ?_⟩
      refine core.replace rfl core.ring (fun q _ => core.not_busy idle q) (fun e he => core.only e he)
        (core.disk1 b) (core.pinned b) ?_ (fun _ _ _ => rfl) ?_ ?_
      · intro n hn
        obtain ⟨e, he, dirty⟩ := core.pending n hn
        by_cases h : e = b
        · exact .inr (h ▸ ⟨he, dirty⟩)
        · exact .inl ⟨e, h, he, dirty⟩
      · intro valid _
        exact core.current b valid fun q h e => by simp [core.not_busy idle q] at e
      · rintro _ ⟨⟩
        exact ⟨rfl, named.1, named.2, nofun⟩
    · cases done
  · rename_i missing
    split at done
    · -- a clean buffer is recycled
      rename_i d found
      have clean := find?_some found
      simp only [Bool.and_eq_true, Bool.not_eq_true'] at clean
      cases done
      refine ⟨core.not_busy clean.1 p, ?_⟩
      refine core.replace rfl core.ring (fun q _ => core.not_busy clean.1 q) ?_ nofun nofun ?_
        (fun _ _ _ => rfl) nofun ?_
      · intro e _ h₁ h₂
        have absent := find?_eq_none.mp missing e (core.ring.mem_visit e)
        simp [← h₁, ← h₂] at absent
      · intro n hn
        obtain ⟨e, he, dirty⟩ := core.pending n hn
        refine .inl ⟨e, ?_, he, dirty⟩
        rintro rfl
        rw [clean.2] at dirty
        cases dirty
      · rintro _ ⟨⟩
        exact ⟨rfl, rfl, rfl, nofun⟩
    · cases done

theorem Core.iderw (core : Core c hands) (own : hands p b = some h)
    (done : BufferCache.iderw c b = .done () c') :
    Core c' (setHand hands p b (some { h with valid := true, unsaved := false })) := by
  obtain ⟨hbusy, hdev, hsector, -⟩ := core.held p b h own
  simp only [BufferCache.iderw] at done
  split at done
  · cases done
  split at done
  · cases done
  rename_i work
  split at done
  · cases done
  rename_i disk1
  have disk1 : (c.buf b).dev = 1 := not_not.mp disk1
  split at done
  · cases done
  split at done
  · -- the disk is written
    rename_i dirty
    cases done
    refine core.save own (core.pinned b dirty) rfl core.ring (latest_record ..) rfl rfl rfl rfl rfl
      (fun n hn => update_of_ne hn ..) (.inl (update_self ..))
  · -- the disk is read: no other buffer can hold newer contents
    rename_i clean
    cases done
    have invalid : (c.buf b).valid = false := by simpa [clean] using work
    refine core.touch own rfl core.ring rfl rfl rfl rfl (fun d => absurd d clean)
      (fun _ => disk1) (fun _ => rfl) ?_ ?_
    · intro _ _
      by_contra stale
      obtain ⟨d, hd, dirty⟩ := core.pending _ stale
      have valid := core.pinned d dirty
      have same : b = d := core.unique b d (disk1.trans (core.disk1 d valid).symm) hd.symm
        (by rw [disk1]; decide)
      rw [← same, invalid] at valid
      cases valid
    · rintro _ ⟨⟩
      exact ⟨hbusy, hdev, hsector, fun _ => rfl⟩

/-- Every operation that keeps to the protocol keeps the invariant. -/
theorem Core.perform {a : Op} {r : Res a} (core : Core c hands)
    (allowed : protocol.allow (hands p) a) (done : BufferCache.perform c a = .done r c') :
    protocol.may (hands p) a r ∧ Core c' (update hands p ((hands p).after a r)) := by
  have still : update hands p (hands p) = hands := update_eq_self ..
  cases a with
  | bget dev sector => exact core.bget done
  | look b =>
    obtain ⟨h, own⟩ := Option.isSome_iff_exists.mp allowed
    obtain ⟨hbusy, hdev, hsector, hvalid⟩ := core.held p b h own
    cases done
    refine ⟨trivial, ?_⟩
    simp only [Holds.after, own, Option.map_some]
    refine core.touch own (update_eq_self ..).symm core.ring rfl rfl rfl rfl id
      (core.disk1 b) (core.pinned b) ?_ ?_
    · intro valid saved
      have unchanged := saved _ rfl
      exact core.data_eq own unchanged valid
    · rintro _ ⟨⟩
      refine ⟨hbusy, hdev, hsector, fun known => ?_⟩
      rcases Bool.or_eq_true_iff.mp known with h | h
      · exact hvalid h
      · exact h
  | setData b data =>
    obtain ⟨h, own, valid⟩ := allowed
    obtain ⟨hbusy, hdev, hsector, hvalid⟩ := core.held p b h own
    cases done
    refine ⟨trivial, ?_⟩
    simp only [Holds.after, own, Option.map_some]
    refine core.touch own rfl core.ring rfl rfl rfl rfl id (core.disk1 b) (core.pinned b) ?_ ?_
    · intro _ saved
      exact absurd (saved _ rfl) (by simp)
    · rintro _ ⟨⟩
      exact ⟨hbusy, hdev, hsector, hvalid⟩
  | setDirty b =>
    obtain ⟨h, own, valid⟩ := allowed
    obtain ⟨hbusy, hdev, hsector, hvalid⟩ := core.held p b h own
    cases done
    refine ⟨trivial, ?_⟩
    have same : update hands p (hands p) = setHand hands p b (some h) := by
      rw [setHand, ← own, update_eq_self b]
    refine same ▸ core.touch own rfl core.ring rfl rfl rfl rfl (fun _ => rfl) (core.disk1 b)
      (fun _ => hvalid valid) ?_ ?_
    · intro valid saved
      have unchanged := saved _ rfl
      exact core.data_eq own unchanged valid
    · rintro _ ⟨⟩
      exact ⟨hbusy, hdev, hsector, hvalid⟩
  | iderw b =>
    obtain ⟨h, own⟩ := Option.isSome_iff_exists.mp allowed
    refine ⟨trivial, ?_⟩
    simp only [Holds.after, own, Option.map_some]
    exact core.iderw own done
  | release b =>
    obtain ⟨h, own, saved⟩ := allowed
    cases done
    exact ⟨trivial, core.touch own rfl (core.ring.moveToFront b) rfl rfl rfl rfl id
      (core.disk1 b) (core.pinned b) (fun valid _ => core.data_eq own saved valid) nofun⟩
  | pin b =>
    obtain ⟨h, own, valid⟩ := allowed
    cases done
    refine ⟨trivial, ?_⟩
    have known : (c.buf b).valid := (core.held p b h own).2.2.2 valid
    have kept : { h with unsaved := false } = { h with valid := true, unsaved := false } := by
      rw [valid]
    simp only [Holds.after, own, Option.map_some, kept]
    exact core.save own known rfl core.ring (latest_record ..) rfl rfl rfl rfl known
      (fun _ _ => rfl) (.inr rfl)
  | getLog =>
    cases done
    exact ⟨trivial, still.symm ▸ core⟩
  | logSlot sector =>
    refine ⟨trivial, still.symm ▸ ?_⟩
    simp only [BufferCache.perform, BufferCache.logSlot] at done
    split at done
    · cases done
    · split at done <;> cases done
      exact core.setLog _
  | grow i =>
    cases done
    refine ⟨trivial, still.symm ▸ ?_⟩
    split
    · exact core.setLog _
    · exact core
  | clear =>
    cases done
    exact ⟨trivial, still.symm ▸ core.setLog _⟩
  | lockLog =>
    refine ⟨trivial, still.symm ▸ ?_⟩
    simp only [BufferCache.perform] at done
    split at done <;> cases done
    exact core.setLog _
  | unlockLog =>
    cases done
    exact ⟨trivial, still.symm ▸ core.setLog _⟩
  | panic msg => cases done

/-! ### Processes -/

/-- Between its calls a process has read every buffer in its hands. -/
def Settled (hs : Holds) : Prop :=
  ∀ b h, hs b = some h → h.valid

/-- What a call leaves behind. -/
def Returns (call : Call) (hs : Holds) (r : Option BufId) : Prop :=
  Settled hs ∧ match call with
    | .bread dev sector => ∃ b, r = some b ∧ hs b = some ⟨dev, sector, true, false⟩
    | _ => True

theorem Settled.update (settled : Settled hs) {o : Option Hold}
    (valid : ∀ h, o = some h → h.valid) : Settled (update hs b o) := by
  intro d h hd
  by_cases e : d = b
  · subst e
    exact valid h (by simpa using hd)
  · exact settled d h (by simpa [e] using hd)

theorem Settled.hold (settled : Settled hs) (own : (hs b).isSome) :
    ∃ dev sector unsaved, hs b = some ⟨dev, sector, true, unsaved⟩ := by
  obtain ⟨⟨dev, sector, valid, unsaved⟩, e⟩ := Option.isSome_iff_exists.mp own
  have known : valid = true := settled b _ e
  subst known
  exact ⟨dev, sector, unsaved, e⟩

/-- A call that follows the interface keeps to the protocol. -/
theorem safe_body (settled : Settled hs) (call : Call)
    (ok : follows hs call = true) : Safe protocol (Returns call) hs (body call) := by
  cases call with
  | bread dev sector =>
    refine Safe.bind (safe_bread fun b _ => ?_)
    exact ⟨settled.update (by rintro _ ⟨⟩; rfl), b, rfl, update_self ..⟩
  | modify b data =>
    obtain ⟨dev, sector, unsaved, own⟩ := settled.hold ok
    exact safe_setData own ⟨settled.update (by rintro _ ⟨⟩; rfl), trivial⟩
  | bwrite b =>
    obtain ⟨dev, sector, unsaved, own⟩ := settled.hold ok
    exact Safe.bind (safe_bwrite own ⟨settled.update (by rintro _ ⟨⟩; rfl), trivial⟩)
  | brelse b =>
    cases own : hs b with
    | none => simp [follows, own] at ok
    | some h =>
      obtain ⟨dev, sector, valid, unsaved⟩ := h
      have known : valid = true := settled b _ own
      have saved : unsaved = false := by simpa [follows, own] using ok
      subst known saved
      exact Safe.bind (safe_brelse own ⟨settled.update nofun, trivial⟩)
  | logWrite b =>
    obtain ⟨dev, sector, unsaved, own⟩ := settled.hold ok
    exact Safe.bind (safe_logWrite own ⟨settled.update (by rintro _ ⟨⟩; rfl), trivial⟩)
  | beginTrans => exact safe_onLog rfl fun _ => ⟨settled, trivial⟩
  | commitTrans => exact Safe.bind (safe_commitTrans ⟨settled, trivial⟩)

def TaskOk (hs : Holds) : Task → Prop
  | .idle => Settled hs
  | .running call rest => Safe protocol (Returns call) hs rest

structure Coherent (s : State P) : Prop where
  core : Core s.cache s.holds
  task : ∀ p, TaskOk (s.holds p) (s.task p)

theorem Coherent.step {t : State P} {a : Act P} (good : Coherent s)
    (next : step s a = some t) : Coherent t := by
  cases a with
  | start p call =>
    simp only [BufferCache.step] at next
    split at next
    · rename_i idle
      split at next <;> cases next
      rename_i ok
      refine ⟨good.core, fun q => ?_⟩
      by_cases e : q = p
      · subst e
        have settled : Settled (s.holds q) := by
          have := good.task q
          rwa [idle] at this
        simpa [TaskOk] using safe_body settled call ok
      · simpa [e] using good.task q
    · cases next
  | advance p =>
    simp only [BufferCache.step] at next
    split at next
    · rename_i call o rest running
      split at next
      · rename_i r cache done
        cases next
        have safe := good.task p
        rw [running] at safe
        obtain ⟨may, core⟩ := good.core.perform safe.1 done
        refine ⟨core, fun q => ?_⟩
        by_cases e : q = p
        · subst e
          simp only [update_self]
          exact safe.2 r may
        · simpa [e] using good.task q
      · cases next
      · cases next
    · cases next
  | finish p =>
    simp only [BufferCache.step] at next
    split at next
    · rename_i call r running
      cases next
      have ended := good.task p
      rw [running] at ended
      refine ⟨good.core, fun q => ?_⟩
      by_cases e : q = p
      · subst e
        simpa [TaskOk] using ended.1
      · simpa [e] using good.task q
    · cases next

omit [DecidableEq P] in
theorem coherent_boot (disksize : Nat) (disk : Nat → Block) (start size : Nat) :
    Coherent (boot disksize disk start size : State P) := by
  obtain ⟨same, saved, bufs⟩ := binit_fold (finRange nbuf)
    (((zeroed disksize disk start size).setPrev none none).setNext none none)
  have buf : ∀ b, (binit (zeroed disksize disk start size)).buf b =
      ⟨false, false, false, -1, 0, fun _ => 0⟩ := fun b => by
    rw [binit, bufs b, if_pos (mem_finRange b)]
    rfl
  constructor
  case task =>
    intro p b h hold
    cases hold
  case core =>
    constructor
    case ring => exact Ring.binit _
    case unique =>
      intro b d _ _ hne
      exact absurd (congrArg Buf.dev (buf b)) hne
    case pending =>
      intro n hn
      refine absurd ?_ hn
      change (binit _).disk n = (binit _).latest n
      rw [binit, same, saved]
      rfl
    case held => nofun
    case alone => nofun
    all_goals
      intro b hb
      simp [boot, buf b] at hb

theorem Reachable.coherent (reach : Reachable s) : Coherent s := by
  refine reach.invariant ?_ fun s a t good next => good.step next
  rintro s ⟨disksize, disk, start, size, rfl⟩
  exact coherent_boot disksize disk start size

/-- No operation gives a dirty buffer another sector. -/
theorem perform_dirty {a : Op} {r : Res a} (done : perform c a = .done r c')
    (dirty : (c.buf b).dirty) :
    (c'.buf b).dev = (c.buf b).dev ∧ (c'.buf b).sector = (c.buf b).sector := by
  have touched : ∀ (d : BufId) (x : Buf), x.dev = (c.buf d).dev → x.sector = (c.buf d).sector →
      (update c.buf d x b).dev = (c.buf b).dev ∧
        (update c.buf d x b).sector = (c.buf b).sector := by
    intro d x dev sector
    by_cases e : b = d
    · subst e
      simp [dev, sector]
    · simp [e]
  cases a with
  | bget dev sector =>
    simp only [perform, bget] at done
    split at done
    · split at done <;> cases done
      exact touched _ _ rfl rfl
    · split at done
      · rename_i d found
        have clean := find?_some found
        simp only [Bool.and_eq_true, Bool.not_eq_true'] at clean
        cases done
        have other : b ≠ r := by
          rintro rfl
          rw [clean.2] at dirty
          cases dirty
        have same : ∀ x, update c.buf r x b = c.buf b := fun x => update_of_ne other x c.buf
        exact ⟨congrArg Buf.dev (same _), congrArg Buf.sector (same _)⟩
      · cases done
  | iderw d =>
    simp only [perform, iderw] at done
    repeat' split at done
    all_goals cases done
    all_goals exact touched d _ rfl rfl
  | logSlot sector =>
    simp only [perform, logSlot] at done
    repeat' split at done
    all_goals cases done
    exact ⟨rfl, rfl⟩
  | grow i =>
    cases done
    split <;> exact ⟨rfl, rfl⟩
  | lockLog =>
    simp only [perform] at done
    split at done <;> cases done
    exact ⟨rfl, rfl⟩
  | panic msg => cases done
  | setData d _ | setDirty d | release d | pin d =>
    cases done
    exact touched d _ rfl rfl
  | look d | getLog | clear | unlockLog =>
    cases done
    exact ⟨rfl, rfl⟩

theorem step_dirty {t : State P} {a : Act P} (next : step s a = some t)
    (dirty : (s.cache.buf b).dirty) : (t.cache.buf b).dev = (s.cache.buf b).dev ∧
      (t.cache.buf b).sector = (s.cache.buf b).sector := by
  cases a with
  | start p call =>
    simp only [step] at next
    repeat' split at next
    all_goals cases next
    exact ⟨rfl, rfl⟩
  | advance p =>
    simp only [step] at next
    split at next
    · split at next
      · rename_i done
        cases next
        exact perform_dirty done dirty
      · cases next
      · cases next
    · cases next
  | finish p =>
    simp only [step] at next
    split at next <;> cases next
    exact ⟨rfl, rfl⟩

/-- In every state of every run: the list is one ring through the head and all buffers; no
sector is cached twice; no step gives a dirty buffer another sector; an idle clean buffer agrees
with the disk; a buffer in the hands of a process is in no other's, and it has the contents
last written or logged unless its holder has changed them; and a `bread` that returns has such
a buffer, of the sector asked for. -/
theorem cache_coherent {s : State P} (reach : Reachable s) :
    Ring s.cache ∧
    (∀ b d, (s.cache.buf b).dev = (s.cache.buf d).dev →
      (s.cache.buf b).sector = (s.cache.buf d).sector → (s.cache.buf b).dev ≠ -1 → b = d) ∧
    (∀ a t b, step s a = some t → (s.cache.buf b).dirty →
      (t.cache.buf b).dev = (s.cache.buf b).dev ∧
        (t.cache.buf b).sector = (s.cache.buf b).sector) ∧
    (∀ b, (s.cache.buf b).valid → (s.cache.buf b).dirty = false → (s.cache.buf b).busy = false →
      (s.cache.buf b).data = s.cache.disk (s.cache.buf b).sector) ∧
    (∀ p b h, s.holds p b = some h → (s.cache.buf b).busy ∧ (∀ q ≠ p, s.holds q b = none) ∧
      (h.valid → h.unsaved = false →
        (s.cache.buf b).data = s.cache.latest (s.cache.buf b).sector)) ∧
    (∀ p dev sector r, s.task p = .running (.bread dev sector) (.ret r) →
      ∃ b, r = some b ∧ s.holds p b = some ⟨dev, sector, true, false⟩ ∧
        (s.cache.buf b).dev = dev ∧ (s.cache.buf b).sector = sector ∧
        (s.cache.buf b).data = s.cache.latest sector) := by
  have good := Reachable.coherent reach
  have core := good.core
  refine ⟨core.ring, core.unique, fun a t b next dirty => step_dirty next dirty,
    fun b valid clean idle => core.clean_data valid clean idle, ?_, ?_⟩
  · intro p b h own
    obtain ⟨busy, -, -, known⟩ := core.held p b h own
    exact ⟨busy, core.free (by rw [own]; rfl), fun valid saved =>
      core.data_eq own saved (known valid)⟩
  · intro p dev sector r returned
    have ended := good.task p
    rw [returned] at ended
    obtain ⟨-, b, hr, own⟩ := ended
    obtain ⟨-, hdev, hsector, known⟩ := core.held p b _ own
    have data := core.data_eq own rfl (known rfl)
    rw [hsector] at data
    exact ⟨b, hr, own, hdev, hsector, data⟩

def smallDisk : State Unit := boot 8 (fun n _ => UInt8.ofNat n) 6 2

/-- The steps of one `bread` of sector 3. -/
def firstRead : List (Act Unit) :=
  [.start () (.bread 1 3), .advance (), .advance (), .advance ()]

theorem firstRead_coherent :
    ∃ s, TransitionSystem.run step smallDisk firstRead = some s ∧
      s.task () = .running (.bread 1 3) (.ret (some ⟨0, by decide⟩)) ∧
      (s.cache.buf ⟨0, by decide⟩).data = s.cache.latest 3 := by
  have reach : Reachable smallDisk := .init _ ⟨_, _, _, _, rfl⟩
  have ran : ∃ s, TransitionSystem.run step smallDisk firstRead = some s ∧
      s.task () = .running (.bread 1 3) (.ret (some ⟨0, by decide⟩)) := ⟨_, rfl, rfl⟩
  obtain ⟨s, run, returned⟩ := ran
  refine ⟨s, run, returned, ?_⟩
  obtain ⟨-, -, -, -, -, reads⟩ := cache_coherent (reach.run run)
  obtain ⟨b, hb, -, -, -, data⟩ := reads () 1 3 _ returned
  cases hb
  exact data

end

end BufferCache
