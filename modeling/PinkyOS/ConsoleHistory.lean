import PinkyOS.Console
import PinkyOS.TransitionSystem

/-!
# What the console hands out

Over a whole run, with any number of readers in the console, the bytes handed out are the
committed characters that have left the ring, without the ^D among them.
-/
namespace Console
open RingBuffer TransitionSystem Function List

section
variable {s t : State}

/-! ### The history of a run -/

/-- The bytes that one call was given. -/
def share (s : State) (call : Nat) : List UInt8 :=
  (s.delivered.filter (·.1 = call)).map Prod.snd

/-- A call ended at its first newline, at its length or at a ^D. -/
def Ended (c : Call) : Prop :=
  match c.stop with
  | .newline => c.bytes.length ≤ c.target ∧ ∃ init, c.bytes = init ++ [newline] ∧ newline ∉ init
  | .length => c.bytes.length = c.target ∧ newline ∉ c.bytes
  | .eof => c.bytes.length < c.target ∧ newline ∉ c.bytes
  | .killed => False

/-- A call that has not ended. -/
structure Reading (s : State) (rd : Reader) : Prop where
  begun : rd.call < s.begun
  pending : rd.call ∉ s.calls.map Call.call
  share_eq : share s rd.call = rd.got
  wanted : rd.n + rd.got.length = rd.target
  more : 0 < rd.n
  noNewline : newline ∉ rd.got

structure History (s : State) : Prop where
  fits : Fits s.input
  past : ∃ past, s.committed = past ++ s.input.line ∧
    s.delivered.map Prod.snd = past.filter (· ≠ ctrlD)
  fresh : ∀ x ∈ s.delivered, x.1 < s.begun
  reader : ∀ p rd, s.reader p = some rd → Reading s rd
  apart : ∀ p q a b, s.reader p = some a → s.reader q = some b → a.call = b.call → p = q
  calls : ∀ c ∈ s.calls, c.call < s.begun ∧ share s c.call = c.bytes ∧ Ended c

/-- One call is in the console, or none: then the bytes delivered are those of the calls that
have returned, one after the other, and of the one that has not. -/
def Alone (s : State) : Prop :=
  (s.begun = s.calls.length ∧ (∀ p, s.reader p = none) ∧
    s.delivered.map Prod.snd = s.calls.flatMap Call.bytes) ∨
  (s.begun = s.calls.length + 1 ∧ ∃ p rd, s.reader p = some rd ∧ (∀ q ≠ p, s.reader q = none) ∧
    s.delivered.map Prod.snd = s.calls.flatMap Call.bytes ++ rd.got)

theorem Keyed.reader_some (keyed : Keyed s t) {p : Nat} {rd : Reader}
    (reads : t.reader p = some rd) :
    ∃ old, s.reader p = some old ∧ { rd with asleep := false } = { old with asleep := false } := by
  have same := keyed.reader p
  rw [reads, Option.map_some] at same
  obtain ⟨old, was, eq⟩ := Option.map_eq_some_iff.mp same.symm
  exact ⟨old, was, eq.symm⟩

theorem Keyed.reader_none (keyed : Keyed s t) {p : Nat} (idle : s.reader p = none) :
    t.reader p = none := by
  have same := keyed.reader p
  rw [idle] at same
  exact Option.map_eq_none_iff.mp same

theorem History.keyed (history : History s) (keyed : Keyed s t) : History t := by
  have shares : ∀ call, share t call = share s call := by
    intro call
    rw [share, share, keyed.delivered]
  constructor
  case fits => exact keyed.fits
  case past =>
    obtain ⟨past, committed, delivered⟩ := history.past
    obtain ⟨new, line, grown⟩ := keyed.grows
    refine ⟨past, ?_, keyed.delivered ▸ delivered⟩
    rw [grown, committed, line, append_assoc]
  case fresh =>
    rw [keyed.delivered, keyed.begun]
    exact history.fresh
  case reader =>
    intro p rd reads
    obtain ⟨old, was, eq⟩ := keyed.reader_some reads
    obtain ⟨begun, pending, share_eq, wanted, more, noNewline⟩ := history.reader p old was
    cases rd
    cases old
    cases eq
    exact ⟨keyed.begun ▸ begun, keyed.calls ▸ pending, (shares _).trans share_eq, wanted, more,
      noNewline⟩
  case apart =>
    intro p q a b readsA readsB same
    obtain ⟨a', wasA, eqA⟩ := keyed.reader_some readsA
    obtain ⟨b', wasB, eqB⟩ := keyed.reader_some readsB
    have callA := congrArg Reader.call eqA
    have callB := congrArg Reader.call eqB
    exact history.apart p q a' b' wasA wasB (callA.symm.trans (same.trans callB))
  case calls =>
    rw [keyed.calls, keyed.begun]
    intro c listed
    rw [shares]
    exact history.calls c listed

theorem Alone.keyed (alone : Alone s) (keyed : Keyed s t) : Alone t := by
  simp only [Alone, keyed.begun, keyed.calls, keyed.delivered]
  rcases alone with ⟨begun, idle, all⟩ | ⟨begun, p, rd, reads, others, all⟩
  · exact .inl ⟨begun, fun p => keyed.reader_none (idle p), all⟩
  · have same := keyed.reader p
    rw [reads] at same
    obtain ⟨new, is, eq⟩ := Option.map_eq_some_iff.mp same
    have got := congrArg Reader.got eq
    refine .inr ⟨begun, p, new, is, fun q apart => keyed.reader_none (others q apart), ?_⟩
    rw [all]
    exact congrArg _ got.symm

/-! ### A reader goes on -/

/-- The console after a reader has taken bytes out of the ring. -/
def taken (s : State) (call : Nat) (a : Progress) : State :=
  { s with
    input := a.input
    delivered := s.delivered ++ a.bytes.map fun b => (call, b) }

variable {p : Nat} {rd : Reader} {a : Progress} {used : List UInt8}

theorem share_taken_self (s : State) (call : Nat) (a : Progress) :
    share (taken s call a) call = share s call ++ a.bytes := by
  simp [share, taken, filter_map, comp_def]

theorem share_taken_of_ne {call other : Nat} (apart : other ≠ call) :
    share (taken s call a) other = share s other := by
  have none' : ∀ x ∈ a.bytes.map fun b => (call, b), ¬ x.1 = other := by
    intro x listed
    obtain ⟨b, -, rfl⟩ := mem_map.mp listed
    exact Ne.symm apart
  have empty : (a.bytes.map fun b => (call, b)).filter (·.1 = other) = [] :=
    filter_eq_nil_iff.mpr (by simpa using none')
  simp only [share, taken, filter_append, empty, append_nil]

theorem past_taken (history : History s) (takes : Takes rd.target rd.n s.input used a) :
    ∃ past, s.committed = past ++ a.input.line ∧
      (taken s rd.call a).delivered.map Prod.snd = past.filter (· ≠ ctrlD) := by
  obtain ⟨past, committed, delivered⟩ := history.past
  refine ⟨past ++ used, ?_, ?_⟩
  · rw [committed, takes.line, append_assoc]
  · simp only [taken, map_append, delivered, map_map, filter_append, takes.bytes]
    simp [comp_def]

/-- Reader `p` is the only one of its call. -/
def Sole (s : State) (p : Nat) (rd : Reader) : Prop :=
  ∀ q b, q ≠ p → s.reader q = some b → b.call ≠ rd.call

theorem Reading.later {b : Reader} (reading : Reading s b) (begun : s.begun ≤ t.begun)
    (pending : b.call ∉ t.calls.map Call.call) (same : share t b.call = share s b.call) :
    Reading t b :=
  ⟨Nat.lt_of_lt_of_le reading.begun begun, pending, same.trans reading.share_eq, reading.wanted,
    reading.more, reading.noNewline⟩

theorem fresh_taken (history : History s) (begun : rd.call < s.begun) :
    ∀ x ∈ (taken s rd.call a).delivered, x.1 < s.begun := by
  intro x listed
  rcases mem_append.mp listed with old | new
  · exact history.fresh x old
  · obtain ⟨b, -, rfl⟩ := mem_map.mp new
    exact begun

theorem calls_taken (history : History s) (reading : Reading s rd) :
    ∀ c ∈ s.calls, c.call < s.begun ∧ share (taken s rd.call a) c.call = c.bytes ∧ Ended c := by
  intro c listed
  have apart : c.call ≠ rd.call := by
    intro same
    exact reading.pending (same ▸ mem_map_of_mem listed)
  rw [share_taken_of_ne apart]
  exact history.calls c listed

theorem History.sleeps (history : History s) (reading : Reading s rd) (sole : Sole s p rd)
    (takes : Takes rd.target rd.n s.input used a) (stop : a.stop = none) :
    History { taken s rd.call a with
      reader := update s.reader p
        (some ⟨rd.call, rd.target, a.n, rd.got ++ a.bytes, true⟩) } := by
  have halts := takes.halts
  simp only [Halts, stop] at halts
  have count := takes.count
  have wanted := reading.wanted
  constructor
  case fits => exact takes.fits
  case past => exact past_taken history takes
  case fresh => exact fresh_taken history reading.begun
  case reader =>
    intro q b reads
    by_cases here : q = p
    · simp only [here, update_self, Option.some.injEq] at reads
      subst reads
      refine ⟨reading.begun, reading.pending, ?_, ?_, halts.1, ?_⟩
      · exact (share_taken_self s rd.call a).trans (congrArg (· ++ a.bytes) reading.share_eq)
      · simp only [length_append]
        omega
      · simp [reading.noNewline, halts.2.1]
    · simp only [update_of_ne here] at reads
      have old := history.reader q b reads
      exact old.later (Nat.le_refl _) old.pending (share_taken_of_ne (sole q b here reads))
  case apart =>
    intro q q' b b' reads reads' same
    by_cases here : q = p <;> by_cases here' : q' = p
    · rw [here, here']
    · simp only [here, update_self, Option.some.injEq] at reads
      simp only [update_of_ne here'] at reads'
      subst reads
      exact absurd same.symm (sole q' b' here' reads')
    · simp only [update_of_ne here] at reads
      simp only [here', update_self, Option.some.injEq] at reads'
      subst reads'
      exact absurd same (sole q b here reads)
    · simp only [update_of_ne here] at reads
      simp only [update_of_ne here'] at reads'
      exact history.apart q q' b b' reads reads' same
  case calls => exact calls_taken history reading

theorem Takes.ended {stop : Stop} (reading : Reading s rd)
    (takes : Takes rd.target rd.n s.input used a) (stops : a.stop = some stop) :
    Ended ⟨rd.call, rd.target, rd.got ++ a.bytes, stop⟩ := by
  have halts := takes.halts
  have count := takes.count
  have wanted := reading.wanted
  have noNewline := reading.noNewline
  simp only [Halts, stops] at halts
  cases stop with
  | newline =>
    obtain ⟨init, ends, first⟩ := halts
    constructor
    · simp only [length_append]
      omega
    · exact ⟨rd.got ++ init, by rw [ends, append_assoc], by simp [noNewline, first]⟩
  | length =>
    constructor
    · simp only [length_append]
      omega
    · simp [noNewline, halts.2]
  | eof =>
    constructor
    · simp only [length_append]
      have := halts.1
      omega
    · simp [noNewline, halts.2.1]
  | killed => exact halts

theorem History.returns {stop : Stop} (history : History s) (reading : Reading s rd)
    (sole : Sole s p rd) (takes : Takes rd.target rd.n s.input used a)
    (stops : a.stop = some stop) :
    History { taken s rd.call a with
      reader := update s.reader p none
      calls := s.calls ++ [⟨rd.call, rd.target, rd.got ++ a.bytes, stop⟩] } := by
  have elsewhere : ∀ q b, update s.reader p none q = some b →
      q ≠ p ∧ s.reader q = some b := by
    intro q b reads
    by_cases here : q = p
    · simp [here] at reads
    · exact ⟨here, update_of_ne here _ s.reader ▸ reads⟩
  constructor
  case fits => exact takes.fits
  case past => exact past_taken history takes
  case fresh => exact fresh_taken history reading.begun
  case reader =>
    intro q b reads
    obtain ⟨here, old⟩ := elsewhere q b reads
    have apart := sole q b here old
    have reading := history.reader q b old
    refine reading.later (Nat.le_refl _) ?_ (share_taken_of_ne apart)
    simp only [map_append, mem_append, not_or]
    exact ⟨reading.pending, by simpa using apart⟩
  case apart =>
    intro q q' b b' reads reads' same
    exact history.apart q q' b b' (elsewhere q b reads).2 (elsewhere q' b' reads').2 same
  case calls =>
    intro c listed
    rcases mem_append.mp listed with old | new
    · exact calls_taken history reading c old
    · obtain rfl := mem_singleton.mp new
      refine ⟨reading.begun, ?_, takes.ended reading stops⟩
      exact (share_taken_self s rd.call a).trans (congrArg (· ++ a.bytes) reading.share_eq)

theorem History.proceed (history : History s) (reading : Reading s rd) (sole : Sole s p rd) :
    History (proceed s p rd) := by
  obtain ⟨used, takes⟩ := readLoop_takes history.fits rd.target rd.n
  simp only [Console.proceed]
  generalize readLoop false rd.target rd.n s.input [] = a at takes
  split
  case h_1 stop => exact history.sleeps reading sole takes stop
  case h_2 stop stops => exact history.returns reading sole takes stops

theorem alone_proceed (begun : s.begun = s.calls.length + 1) (others : ∀ q ≠ p, s.reader q = none)
    (all : s.delivered.map Prod.snd = s.calls.flatMap Call.bytes ++ rd.got) :
    Alone (proceed s p rd) := by
  simp only [proceed]
  generalize readLoop false rd.target rd.n s.input [] = a
  have idle : ∀ q ≠ p, ∀ x, update s.reader p x q = none := by
    intro q apart x
    rw [update_of_ne apart]
    exact others q apart
  split
  case h_1 =>
    refine .inr ⟨begun, p, _, update_self .., fun q apart => idle q apart _, ?_⟩
    simp [all, comp_def]
  case h_2 =>
    refine .inl ⟨?_, ?_, ?_⟩
    · simp [begun]
    · intro q
      by_cases here : q = p
      · simp [here]
      · exact idle q here none
    · simp [all, comp_def]

theorem History.begin' (history : History s) (overlapped : Bool) :
    History { s with begun := s.begun + 1, overlapped := overlapped } where
  fits := history.fits
  past := history.past
  fresh x listed := Nat.lt_succ_of_lt (history.fresh x listed)
  reader p rd reads :=
    have old := history.reader p rd reads
    old.later (Nat.le_succ _) old.pending rfl
  apart := history.apart
  calls c listed :=
    have old := history.calls c listed
    ⟨Nat.lt_succ_of_lt old.1, old.2⟩

/-- What a step does: keystrokes, or a reader that goes on. -/
theorem step_cases {act : Action} (history : History s) (next : step s act = some t) :
    (∃ cs, act = .intr cs ∧ t = consoleintr s cs) ∨
      ∃ u p rd, t = proceed u p rd ∧ History u ∧ Reading u rd ∧ Sole u p rd ∧
        u.input = s.input ∧ u.calls = s.calls ∧
        ((∃ n, act = .read p n ∧ rd = ⟨s.begun, n, n, [], false⟩ ∧ u = { s with
          begun := s.begun + 1
          overlapped := s.overlapped || s.begun != s.calls.length }) ∨
        (u = s ∧ s.reader p = some rd)) := by
  cases act with
  | intr cs => exact .inl ⟨cs, rfl, (Option.some.inj next).symm⟩
  | read p n =>
    simp only [step] at next
    split at next
    case isTrue => cases next
    case isFalse can =>
      simp only [not_or] at can
      refine .inr ⟨_, p, _, (Option.some.inj next).symm, history.begin' _, ?_, ?_, rfl, rfl,
        .inl ⟨n, rfl, rfl, rfl⟩⟩
      · have none' : ∀ x ∈ s.delivered, ¬ x.1 = s.begun := fun x listed =>
          Nat.ne_of_lt (history.fresh x listed)
        refine ⟨Nat.lt_succ_self _, ?_, ?_, rfl, Nat.pos_of_ne_zero can.2.1, not_mem_nil⟩
        · intro listed
          obtain ⟨c, old, same⟩ := mem_map.mp listed
          exact absurd same (Nat.ne_of_lt (history.calls c old).1)
        · have empty : s.delivered.filter (·.1 = s.begun) = [] :=
            filter_eq_nil_iff.mpr (by simpa using none')
          exact congrArg (map Prod.snd) empty
      · intro q b _ reads
        exact Nat.ne_of_lt (history.reader q b reads).begun
  | resume p =>
    simp only [step] at next
    split at next
    case h_1 => cases next
    case h_2 rd reads =>
      split at next
      case isTrue => cases next
      case isFalse =>
        refine .inr ⟨s, p, rd, (Option.some.inj next).symm, history, history.reader p rd reads, ?_,
          rfl, rfl, .inr ⟨rfl, reads⟩⟩
        intro q b apart reads' same
        exact apart (history.apart q p b rd reads' reads same)

theorem History.step {act : Action} (history : History s) (next : step s act = some t) :
    History t := by
  rcases step_cases history next with ⟨cs, -, rfl⟩ | ⟨u, p, rd, rfl, before, reading, sole, -⟩
  · exact history.keyed (keyed_consoleintr history.fits cs)
  · exact before.proceed reading sole

theorem proceed_overlapped (s : State) (p : Nat) (rd : Reader) :
    (proceed s p rd).overlapped = s.overlapped := by
  simp only [proceed]
  split <;> rfl

theorem Alone.step {act : Action} (history : History s) (alone : s.overlapped = false → Alone s)
    (next : step s act = some t) (never : t.overlapped = false) : Alone t := by
  rcases step_cases history next with ⟨cs, -, rfl⟩ | ⟨u, p, rd, rfl, -, -, -, -, -, how⟩
  · have keyed := keyed_consoleintr history.fits cs
    exact (alone (keyed.overlapped ▸ never)).keyed keyed
  · rw [proceed_overlapped] at never
    rcases how with ⟨n, -, rfl, rfl⟩ | ⟨rfl, reads⟩
    · simp only [Bool.or_eq_false_iff, bne_eq_false_iff_eq] at never
      rcases alone never.1 with ⟨begun, idle, all⟩ | ⟨begun, -⟩
      · apply alone_proceed
        · simp [begun]
        · exact fun q _ => idle q
        · simpa using all
      · omega
    · rcases alone never with ⟨-, idle, -⟩ | ⟨begun, q, b, reads', others, all⟩
      · rw [idle] at reads
        cases reads
      · have here : p = q := by
          by_contra apart
          rw [others p apart] at reads
          cases reads
        subst here
        obtain rfl := Option.some.inj (reads.symm.trans reads')
        exact alone_proceed begun others all

theorem history_booted (booted : Booted s) : History s := by
  obtain ⟨screen, rfl⟩ := booted
  constructor
  case fits => exact ⟨Nat.le_refl _, by simp [boot, Input.held]⟩
  case past => exact ⟨[], by simp [boot, Input.line, Input.ready], rfl⟩
  case fresh => simp [boot]
  case reader => simp [boot]
  case apart => simp [boot]
  case calls => simp [boot]

theorem alone_booted (booted : Booted s) : Alone s := by
  obtain ⟨screen, rfl⟩ := booted
  exact .inl ⟨rfl, fun _ => rfl, rfl⟩

theorem reachable_history (reach : Reachable Booted step s) :
    History s ∧ (s.overlapped = false → Alone s) := by
  apply reach.invariant (I := fun s => History s ∧ (s.overlapped = false → Alone s))
  · exact fun s booted => ⟨history_booted booted, fun _ => alone_booted booted⟩
  · rintro s act t ⟨history, alone⟩ next
    exact ⟨history.step next, Alone.step history alone next⟩

/-! ### The line discipline -/

theorem proceed_eof {c : Call} (fits : Fits s.input) (reading : Reading s rd)
    (returned : (proceed s p rd).calls = s.calls ++ [c]) (eof : c.stop = .eof) :
    if c.bytes = [] then s.input.line = ctrlD :: (proceed s p rd).input.line
    else ∃ rest, (proceed s p rd).input.line = ctrlD :: rest := by
  obtain ⟨used, takes⟩ := readLoop_takes fits rd.target rd.n
  simp only [proceed] at returned ⊢
  generalize readLoop false rd.target rd.n s.input [] = a at takes returned
  cases stop : a.stop with
  | none => simp [stop] at returned
  | some why =>
    simp only [stop, append_cancel_left_eq, cons.injEq, and_true] at returned ⊢
    subst returned
    cases eof
    have halts := takes.halts
    simp only [Halts, stop] at halts
    have count := takes.count
    have wanted := reading.wanted
    split
    case isTrue empty =>
      obtain ⟨noGot, noBytes⟩ := append_eq_nil_iff.mp empty
      simp only [noGot, noBytes, length_nil] at count wanted
      rw [if_neg (by omega), noBytes] at halts
      rw [takes.line, halts.2.2]
      rfl
    case isFalse some' =>
      have length : 0 < (rd.got ++ a.bytes).length := length_pos_of_ne_nil some'
      rw [length_append] at length
      rw [if_pos (by omega)] at halts
      exact halts.2.2

/-- A call that meets a ^D before any byte returns nothing. -/
theorem proceed_ctrlD {n : Nat} {rest : List UInt8} (fits : Fits s.input)
    (line : s.input.line = ctrlD :: rest) (positive : 0 < n) (call : Nat) :
    (proceed s p ⟨call, n, n, [], false⟩).input.line = rest ∧
      (proceed s p ⟨call, n, n, [], false⟩).calls = s.calls ++ [⟨call, n, [], .eof⟩] := by
  have more : s.input.r ≠ s.input.w := by
    intro empty
    have ready : s.input.ready = 0 := by simp [Input.ready, empty]
    simp [Input.line, ready] at line
  obtain ⟨-, first⟩ := fits.pop more
  rw [line, cons.injEq] at first
  obtain ⟨k, rfl⟩ := Nat.exists_eq_add_of_lt positive
  simp [proceed, readLoop, more, ← first.1, first.2]

/-- What the console promises in one state of a run. -/
structure LineDiscipline (s : State) : Prop where
  /-- The indices are in order, in 32-bit arithmetic. -/
  order : (s.input.w - s.input.r).toNat ≤ (s.input.e - s.input.r).toNat ∧
    (s.input.e - s.input.r).toNat ≤ inputBuf
  /-- An editing key changes nothing below `w`. -/
  edit : ∀ c, IsEdit c → Edited s (key s c)
  /-- No key removes a committed character. -/
  keep : ∀ cs, s.input.line <+: (consoleintr s cs).input.line
  /-- The bytes handed out are those of the committed characters that have left the ring. -/
  delivered : ∃ past, s.committed = past ++ s.input.line ∧
    s.delivered.map Prod.snd = past.filter (· ≠ ctrlD)
  /-- A call returns the bytes that it was handed, and ends where it should. -/
  calls : ∀ c ∈ s.calls, c.bytes = share s c.call ∧ Ended c
  /-- Where no two calls overlap, the bytes are handed out call by call. -/
  successive : s.overlapped = false → Alone s
  /-- A ^D ends a call that has no bytes, and is kept by one that has. -/
  eof : ∀ act t c, step s act = some t → t.calls = s.calls ++ [c] → c.stop = .eof →
    if c.bytes = [] then s.input.line = ctrlD :: t.input.line
    else ∃ rest, t.input.line = ctrlD :: rest
  /-- The call after a ^D was kept returns nothing. -/
  next : ∀ p n t rest, step s (.read p n) = some t → s.input.line = ctrlD :: rest →
    t.input.line = rest ∧ t.calls = s.calls ++ [⟨s.begun, n, [], .eof⟩]

/-- The console keeps to its line discipline in every run. -/
theorem console_line_discipline (reach : Reachable Booted step s) : LineDiscipline s := by
  obtain ⟨history, alone⟩ := reachable_history reach
  constructor
  case order => exact ⟨history.fits.ready_le, history.fits.held_le⟩
  case edit => exact fun c edit => edited_key history.fits edit
  case keep =>
    intro cs
    obtain ⟨new, line, -⟩ := (keyed_consoleintr history.fits cs).grows
    exact ⟨new, line.symm⟩
  case delivered => exact history.past
  case calls =>
    intro c listed
    obtain ⟨-, bytes, ended⟩ := history.calls c listed
    exact ⟨bytes.symm, ended⟩
  case successive => exact alone
  case eof =>
    intro act t c next returned eof
    rcases step_cases history next with
      ⟨cs, -, rfl⟩ | ⟨u, p, rd, rfl, before, reading, -, input, calls, -⟩
    · simp [(keyed_consoleintr history.fits cs).calls] at returned
    · rw [← input]
      rw [← calls] at returned
      exact proceed_eof before.fits reading returned eof
  case next =>
    intro p n t rest next line
    simp only [step] at next
    split at next
    case isTrue => cases next
    case isFalse can =>
      have positive : 0 < n := by omega
      obtain rfl := Option.some.inj next
      exact proceed_ctrlD (history.begin' _).fits line positive s.begun

/-- A line is typed with a slip, ended by a ^D, and read twice. -/
def typedRun : List Action :=
  [.read 1 8, .intr [104, 120, 0x7f, 105], .intr [4], .resume 1, .read 2 8]

theorem typedRun_disciplined : ∃ t, run step (boot []) typedRun = some t ∧
    t.calls.map Call.bytes = [[104, 105], []] ∧ LineDiscipline t := by
  have ran : (run step (boot []) typedRun).map (fun t => t.calls.map Call.bytes) =
      some [[104, 105], []] := by
    decide +kernel
  obtain ⟨t, ends, calls⟩ := Option.map_eq_some_iff.mp ran
  exact ⟨t, ends, calls, console_line_discipline ((Reachable.init _ ⟨[], rfl⟩).run ends)⟩

end

end Console
