import PinkyOS.Grep
import PinkyOS.SeparatedText

/-!
# The lines that grep reads (`usr/grep.c`, `usr/ulib.c`)

`grep` reads into a buffer of 1024 bytes, behind the part of a line that the read before has left
there, and looks for newlines with `strchr`, which knows nothing of how much has been read: it goes
on to the next NUL. Every access outside of the buffer is a fault. What the input gives to a read is
a list of pieces; a read takes no more than it has asked for.
-/
namespace Grep
open List hiding Vector

open SeparatedText

def newline : UInt8 := '\n'.toUInt8

def sizeofBuf : Nat := 1024

/-- An access outside of `buf`. -/
inductive Fault where
  | outside
  deriving DecidableEq

/-- `strchr`, with the bytes from `s` to the end of the buffer. -/
def strchr : List UInt8 → UInt8 → Except Fault (Option Nat)
  | [], _ => .error .outside
  | x :: s, c =>
    if x = 0 then
      .ok none
    else if x = c then
      .ok (some 0)
    else
      (strchr s c).map (·.map (· + 1))

theorem lt_of_strchr {s : List UInt8} {c : UInt8} {k : Nat} (found : strchr s c = .ok (some k)) :
    k < s.length := by
  induction s generalizing k with
  | nil => cases found
  | cons x s ih =>
    rw [strchr] at found
    split_ifs at found with nul here
    · cases found
    · cases found
      exact Nat.succ_pos _
    · cases rest : strchr s c with
      | error e =>
        rw [rest] at found
        cases found
      | ok r =>
        rw [rest] at found
        cases r with
        | none => cases found
        | some j =>
          cases found
          exact Nat.succ_lt_succ (ih rest)

/-- The inner loop from `p` on: the buffer and `p` at its end, and what it has written. -/
def scan (pattern : Ptr) (buf : List UInt8) (p : Nat) :
    Except Fault (List UInt8 × Nat × List (List UInt8)) :=
  match found : strchr (buf.drop p) newline with
  | .error e => .error e
  | .ok none => .ok (buf, p, [])
  | .ok (some k) =>
    let q := p + k
    let ended := buf.set q 0
    if matchRe pattern ((ended.drop p).takeWhile (· ≠ 0)) then
      let buf := ended.set q newline
      (scan pattern buf (q + 1)).map fun (buf', p', out) =>
        (buf', p', (buf.drop p).take (q + 1 - p) :: out)
    else
      scan pattern ended (q + 1)
termination_by buf.length - p
decreasing_by
  all_goals
    have := lt_of_strchr found
    simp only [List.length_drop, List.length_set] at *
    omega

/-- `memmove` within the buffer. -/
def memmove (buf : List UInt8) (dst src : Nat) : Nat → Except Fault (List UInt8)
  | 0 => .ok buf
  | n + 1 =>
    match buf[src]? with
    | none => .error .outside
    | some x => memmove (buf.set dst x) (dst + 1) (src + 1) n

structure State where
  buf : List UInt8
  m : Int

/-- `read(fd, ..., n)`: the bytes that it stores, and what is left to read. -/
def read (n : Nat) : List (List UInt8) → List UInt8 × List (List UInt8)
  | [] => ([], [])
  | piece :: pieces =>
    (piece.take n, if n < piece.length then piece.drop n :: pieces else pieces)

/-- The body of the outer loop, for the bytes that have been read. -/
def body (pattern : Ptr) (s : State) (bytes : List UInt8) :
    Except Fault (State × List (List UInt8)) :=
  if s.m < 0 then
    .error .outside
  else do
    let start := s.m.toNat
    let m := s.m + bytes.length
    let (buf, p, out) ←
      scan pattern (s.buf.take start ++ bytes ++ s.buf.drop (start + bytes.length)) 0
    let m := if p = 0 then 0 else m
    if m > 0 then
      let m := m - p
      let buf ← memmove buf 0 p m.toNat
      return (⟨buf, m⟩, out)
    else
      return (⟨buf, m⟩, out)

theorem read_shorter {n : Nat} {input : List (List UInt8)} (some : (read n input).1 ≠ []) :
    (read n input).2.flatten.length < input.flatten.length := by
  cases input with
  | nil => exact absurd rfl some
  | cons piece pieces =>
    have stored : 0 < (piece.take n).length := length_pos_iff.mpr some
    rw [length_take] at stored
    rw [read]
    dsimp only
    split_ifs with more
    · simp only [flatten_cons, length_append, length_drop]
      omega
    · simp only [flatten_cons, length_append]
      omega

/-- The outer loop: what it writes until a read returns 0. -/
def loop (pattern : Ptr) (s : State) (input : List (List UInt8)) :
    Except Fault (List (List UInt8)) :=
  if (read (sizeofBuf - s.m).toNat input).1 = [] then
    .ok []
  else do
    let (s', out) ← body pattern s (read (sizeofBuf - s.m).toNat input).1
    let outs ← loop pattern s' (read (sizeofBuf - s.m).toNat input).2
    return out ++ outs
termination_by input.flatten.length
decreasing_by exact read_shorter ‹_›

/-- `grep`, with what `buf` holds before. -/
def grep (pattern : Ptr) (buf : List UInt8) (input : List (List UInt8)) :
    Except Fault (List (List UInt8)) :=
  loop pattern ⟨buf, 0⟩ input

/-! ### What a scan finds -/

/-- The lines of a text that match, each with its newline. -/
def matching (pattern : Ptr) (s : List UInt8) : List (List UInt8) :=
  ((lines newline s).filter (matchRe pattern)).map (· ++ [newline])

/-- A NUL comes before any newline. -/
def Quiet (s : List UInt8) : Prop := 0 ∈ s ∧ newline ∉ s.takeWhile (· ≠ 0)

section
variable {pattern : Ptr} {l w : List UInt8}

theorem strchr_append (solid : 0 ∉ l) (without : newline ∉ l) (s : List UInt8) :
    strchr (l ++ s) newline = (strchr s newline).map (·.map (· + l.length)) := by
  induction l with
  | nil =>
    rw [nil_append, length_nil]
    rcases strchr s newline with e | _ | k <;> rfl
  | cons x l ih =>
    rw [mem_cons, not_or] at solid without
    rw [cons_append, strchr, if_neg (Ne.symm solid.1), if_neg (Ne.symm without.1),
      ih solid.2 without.2, length_cons]
    rcases strchr s newline with e | _ | k <;> rfl

theorem strchr_line (solid : 0 ∉ l) (without : newline ∉ l) (s : List UInt8) :
    strchr (l ++ newline :: s) newline = .ok (some l.length) := by
  rw [strchr_append solid without, strchr, if_neg (by decide), if_pos rfl, Except.map,
    Option.map_some, Nat.zero_add]

theorem strchr_eq_none (s : List UInt8) : strchr s newline = .ok none ↔ Quiet s := by
  induction s with
  | nil => exact iff_of_false nofun fun quiet => not_mem_nil quiet.1
  | cons x s ih =>
    by_cases nul : x = 0
    · subst nul
      exact iff_of_true rfl ⟨mem_cons_self .., by simp⟩
    · have inside : (0 : UInt8) ∈ x :: s ↔ 0 ∈ s := by simp [Ne.symm nul]
      rw [strchr, if_neg nul, Quiet, inside, takeWhile_cons_of_pos (by simpa using nul)]
      by_cases here : x = newline
      · rw [if_pos here]
        exact iff_of_false nofun fun quiet => quiet.2 (here ▸ mem_cons_self ..)
      · rw [if_neg here, mem_cons, not_or, and_congr_right_iff.mpr fun _ =>
          and_iff_right (Ne.symm here), ← Quiet, ← ih]
        rcases strchr s newline with e | _ | k
        · exact iff_of_false nofun nofun
        · exact iff_of_true rfl rfl
        · exact iff_of_false nofun nofun

theorem Quiet.append {s : List UInt8} (without : newline ∉ l) (quiet : Quiet s) :
    Quiet (l ++ s) := by
  refine ⟨mem_append_right _ quiet.1, ?_⟩
  rw [takeWhile_append]
  split_ifs with all
  · rw [mem_append, not_or]
    exact ⟨without, quiet.2⟩
  · exact fun found => without (takeWhile_subset _ found)

variable {buf : List UInt8}

theorem scan_none {p : Nat} (quiet : Quiet (buf.drop p)) :
    scan pattern buf p = .ok (buf, p, []) := by
  rw [← strchr_eq_none] at quiet
  rw [scan]
  split
  case h_1 e found => rw [found] at quiet; cases quiet
  case h_2 found => rfl
  case h_3 k found => rw [found] at quiet; cases quiet

theorem scan_outside {p : Nat} (past : strchr (buf.drop p) newline = .error .outside) :
    scan pattern buf p = .error .outside := by
  rw [scan]
  split
  case h_1 e found => cases e; rfl
  case h_2 found => rw [found] at past; cases past
  case h_3 k found => rw [found] at past; cases past

variable (pattern : Ptr)

/-- One line of a scan: whether it is written or not, the scan goes on behind it. -/
theorem scan_line (solid : 0 ∉ l) (without : newline ∉ l) (front s : List UInt8) :
    ∃ b, (matchRe pattern l → b = newline) ∧
      scan pattern (front ++ l ++ newline :: s) front.length =
        (scan pattern (front ++ l ++ [b] ++ s) (front ++ l ++ [b]).length).map
          fun (buf, p, out) => (buf, p, matching pattern (l ++ [newline]) ++ out) := by
  have one := lines_single without
  have place : (front ++ l).length = front.length + l.length := length_append
  have next : ∀ b : UInt8, (front ++ l ++ [b]).length = front.length + l.length + 1 := by
    simp [Nat.add_assoc]
  have seen : ((front ++ l ++ newline :: s).drop front.length) = l ++ newline :: s := by
    rw [append_assoc, drop_left]
  have written : ∀ b c : UInt8, (front ++ l ++ b :: s).set (front.length + l.length) c =
      front ++ l ++ [c] ++ s := by
    intro b c
    rw [← place, set_append_right _ _ (Nat.le_refl _), Nat.sub_self, set_cons_zero,
      append_assoc, append_assoc, append_assoc, singleton_append]
  have ended : ((front ++ l ++ [0] ++ s).drop front.length).takeWhile (· ≠ 0) = l := by
    rw [append_assoc, append_assoc, drop_left, takeWhile_append_of_pos]
    · simp
    · intro c listed
      have other : c ≠ 0 := fun nul => solid (nul ▸ listed)
      simpa using other
  rw [scan]
  split
  case h_1 e found => rw [seen, strchr_line solid without] at found; cases found
  case h_2 found => rw [seen, strchr_line solid without] at found; cases found
  case h_3 k found =>
    rw [seen, strchr_line solid without] at found
    cases found
    dsimp only
    rw [written, ended]
    by_cases hit : matchRe pattern l
    · have whole : ((front ++ l ++ [newline] ++ s).drop front.length).take
          (front.length + l.length + 1 - front.length) = l ++ [newline] := by
        rw [append_assoc, append_assoc, drop_left, ← append_assoc,
          take_left' (by rw [length_append, length_singleton]; omega)]
      refine ⟨newline, fun _ => rfl, ?_⟩
      rw [if_pos hit, append_assoc _ [0], singleton_append, written, whole, next,
        matching, one, filter_cons_of_pos hit]
      rfl
    · refine ⟨0, fun found => absurd found hit, ?_⟩
      rw [if_neg hit, next, matching, one, filter_cons_of_neg hit]
      rcases scan pattern (front ++ l ++ [0] ++ s) (front.length + l.length + 1) with e | r <;> rfl

theorem matching_append (s t : List UInt8) :
    matching pattern (s ++ t) = matching pattern s ++ matching pattern (rest newline s ++ t) := by
  rw [matching, lines_append, filter_append, map_append, matching, matching]

theorem matching_of_notMem (without : newline ∉ w) : matching pattern w = [] := by
  rw [matching, lines_of_notMem without]
  rfl

theorem matching_line (l t : List UInt8) : matching pattern (l ++ newline :: t) =
      matching pattern (l ++ [newline]) ++ matching pattern t := by
  rw [← singleton_append, ← append_assoc, matching_append, rest_line,
    rest_of_notMem not_mem_nil, nil_append]

/-- A scan over a text that is followed by a NUL, with no newline before it: the matching lines are
written, and the newlines of the others are gone. -/
theorem scan_text {after : List UInt8} (quiet : Quiet after) (solid : 0 ∉ w)
    (front : List UInt8) : ∃ w', w'.length = closed newline w ∧
      ((∀ text, matchRe pattern text) → w' = w.take (closed newline w)) ∧
      scan pattern (front ++ w ++ after) front.length =
        .ok (front ++ w' ++ rest newline w ++ after, front.length + closed newline w,
          matching pattern w) := by
  induction w using line_induction newline generalizing front with
  | last w without =>
    have still : Quiet ((front ++ w ++ after).drop front.length) := by
      rw [append_assoc, drop_left]
      exact quiet.append without
    refine ⟨[], ?_, fun _ => ?_, ?_⟩
    · rw [closed_of_notMem without, length_nil]
    · rw [closed_of_notMem without, take_zero]
    · rw [scan_none still, closed_of_notMem without, rest_of_notMem without,
        matching_of_notMem pattern without, append_nil, Nat.add_zero]
  | line l t without ih =>
    simp only [mem_append, mem_cons, not_or] at solid
    obtain ⟨b, kept, first⟩ := scan_line pattern solid.1 without front (t ++ after)
    obtain ⟨w', length, all, then'⟩ := ih solid.2.2 (front ++ l ++ [b])
    refine ⟨l ++ [b] ++ w', ?_, fun every => ?_, ?_⟩
    · rw [length_append, length_append, length_singleton, length, closed_line]
    · rw [closed_line, all every, kept (every l), take_append, Nat.add_assoc,
        take_of_length_le (Nat.le_add_right ..), Nat.add_sub_cancel_left, Nat.add_comm 1,
        take_succ_cons, append_assoc, singleton_append]
    · rw [append_assoc, append_assoc, cons_append, ← append_assoc front, first,
        ← append_assoc _ t, then', Except.map, rest_line, closed_line,
        matching_line pattern l t]
      simp [Nat.add_assoc]

theorem scan_full (solid : 0 ∉ w) (front : List UInt8) :
    scan pattern (front ++ w) front.length = .error .outside := by
  induction w using line_induction newline generalizing front with
  | last w without =>
    apply scan_outside
    rw [drop_left, ← append_nil w, strchr_append solid without]
    rfl
  | line l t without ih =>
    simp only [mem_append, mem_cons, not_or] at solid
    obtain ⟨b, -, first⟩ := scan_line pattern solid.1 without front t
    rw [← append_assoc, first, ih solid.2.2]
    rfl

theorem memmove_eq {dst src n : Nat} (down : dst ≤ src) (inside : src + n ≤ buf.length) :
    memmove buf dst src n =
      .ok (buf.take dst ++ (buf.drop src).take n ++ buf.drop (dst + n)) := by
  induction n generalizing buf dst src with
  | zero =>
    rw [memmove, take_zero, append_nil, Nat.add_zero, take_append_drop]
  | succ n ih =>
    have here : src < buf.length := by omega
    rw [memmove, getElem?_eq_getElem here]
    dsimp only
    rw [ih (by omega) (by rw [length_set]; omega)]
    have target : dst < (buf.set dst buf[src]).length := by
      rw [length_set]
      omega
    rw [take_succ_eq_append_getElem target, take_set_of_le (Nat.le_refl dst),
      getElem_set_self, drop_set_of_lt (by omega), drop_set_of_lt (by omega),
      drop_eq_getElem_cons here, take_succ_cons, Nat.add_right_comm dst 1 n]
    simp [Nat.add_assoc]

end

/-! ### One read -/

theorem body_ok {pattern : Ptr} {s : State} {bytes buf : List UInt8} {p : Nat}
    {out : List (List UInt8)} (start : 0 ≤ s.m) (nonempty : bytes ≠ [])
    (scanned : scan pattern (s.buf.take s.m.toNat ++ bytes ++
      s.buf.drop (s.m.toNat + bytes.length)) 0 = .ok (buf, p, out)) :
    body pattern s bytes =
      if p = 0 then
        .ok (⟨buf, 0⟩, out)
      else
        (memmove buf 0 p (s.m + bytes.length - p).toNat).map fun buf =>
          (⟨buf, s.m + bytes.length - p⟩, out) := by
  have some := length_pos_iff.mpr nonempty
  have ran : ∀ f : List UInt8 × Nat × List (List UInt8) → Except Fault (State × List (List UInt8)),
      (Except.ok (buf, p, out) >>= f) = f (buf, p, out) := fun _ => rfl
  rw [body, if_neg (Int.not_lt.mpr start)]
  dsimp only
  rw [scanned, ran]
  dsimp only
  by_cases nothing : p = 0
  · rw [if_pos nothing, if_pos nothing, if_neg (Int.lt_irrefl 0)]
    rfl
  · rw [if_neg nothing, if_neg nothing, if_pos (by omega)]
    cases memmove buf 0 p (s.m + bytes.length - p).toNat <;> rfl

theorem body_error {pattern : Ptr} {s : State} {bytes : List UInt8} {e : Fault} (start : 0 ≤ s.m)
    (fault : scan pattern (s.buf.take s.m.toNat ++ bytes ++
      s.buf.drop (s.m.toNat + bytes.length)) 0 = .error e) :
    body pattern s bytes = .error e := by
  rw [body, if_neg (Int.not_lt.mpr start)]
  dsimp only
  rw [fault]
  rfl

/-- The part of a line that is carried to the next read. -/
def carried (text : List UInt8) : List UInt8 :=
  if newline ∈ text then rest newline text else []

/-- Between two reads: `v` has been stored over the front of `buf`, `pending` is the part of a line
that is kept, and behind `old` there is no newline in `v`. -/
structure Kept (buf v pending : List UInt8) (old : Nat) (s : State) : Prop where
  m : s.m = pending.length
  stored : s.buf = v ++ buf.drop v.length
  front : pending <+: v
  solid : 0 ∉ pending
  without : newline ∉ pending
  clean : ∀ k, pending.length ≤ k → newline ∈ v.drop k → k < old

/-- All newlines are still there. -/
structure Exact (buf v pending : List UInt8) (old : Nat) (s : State) : Prop extends
    Kept buf v pending old s where
  full : 0 ∉ v
  stale : ∀ k, pending.length ≤ k → k < old → newline ∈ v.drop k

section
variable {buf v pending : List UInt8} {old : Nat} {s : State}

theorem Kept.start (kept : Kept buf v pending old s) : 0 ≤ s.m := by
  rw [kept.m]
  exact Int.natCast_nonneg _

theorem Kept.store (kept : Kept buf v pending old s) (piece : List UInt8) :
    s.buf.take s.m.toNat ++ piece ++ s.buf.drop (s.m.toNat + piece.length) =
      pending ++ piece ++ (v.drop (pending ++ piece).length ++
        buf.drop (max v.length (pending ++ piece).length)) := by
  have far : v.length + ((pending ++ piece).length - v.length) =
      max v.length (pending ++ piece).length := by omega
  obtain ⟨tail, isV⟩ := kept.front
  rw [kept.m, Int.toNat_natCast, kept.stored, ← length_append, drop_append,
    drop_drop, far, ← isV, append_assoc pending, take_left]

/-- The buffer when `r` has been moved to its front. -/
def moved (r z : List UInt8) : List UInt8 := r ++ z.drop r.length

section
variable {r z : List UInt8}

theorem length_moved (short : r.length ≤ z.length) : (moved r z).length = z.length := by
  rw [moved, length_append, length_drop, Nat.add_sub_cancel' short]

theorem drop_moved {k : Nat} (late : r.length ≤ k) : (moved r z).drop k = z.drop k := by
  rw [moved, drop_append, drop_of_length_le late, nil_append, drop_drop, Nat.add_sub_cancel' late]

theorem moved_append (short : r.length ≤ z.length) (t : List UInt8) :
    moved r (z ++ t) = moved r z ++ t := by
  rw [moved, moved, drop_append_of_le_length short, append_assoc]

theorem memmove_moved (w r t : List UInt8) :
    memmove (w ++ r ++ t) 0 w.length r.length = .ok (moved r (w ++ r ++ t)) := by
  have inside : w.length + r.length ≤ (w ++ r ++ t).length := by
    rw [length_append, length_append]
    exact Nat.le_add_right ..
  rw [memmove_eq (Nat.zero_le _) inside, take_zero, nil_append, Nat.zero_add,
    append_assoc w, drop_left, take_left, moved]

end

variable {text : List UInt8}

theorem kept_line {w : List UInt8} (solid : 0 ∉ text) (length : w.length = closed newline text)
    (clear : newline ∉ v.drop text.length) :
    Kept buf (moved (rest newline text) (w ++ rest newline text ++ v.drop text.length))
      (rest newline text) (closed newline text)
      ⟨moved (rest newline text) (w ++ rest newline text ++ v.drop text.length) ++
        buf.drop (max v.length text.length), (rest newline text).length⟩ := by
  have parts := closed_add_rest newline text
  refine ⟨rfl, ?_, prefix_append .., ?_, notMem_rest newline text, ?_⟩
  · rw [length_moved (by simp; omega)]
    simp only [length_append, length_drop, length, parts]
    rw [show text.length + (v.length - text.length) = max v.length text.length by omega]
  · exact fun nul => solid ((rest_suffix newline text).subset nul)
  · intro k late inside
    by_contra far
    rw [drop_moved late, append_assoc, drop_append, drop_of_length_le (by omega),
      nil_append] at inside
    rcases mem_append.mp (mem_of_mem_drop inside) with early | last
    · exact notMem_rest newline text early
    · exact clear last

theorem exact_line (solid : 0 ∉ text) (full : 0 ∉ v) (clear : newline ∉ v.drop text.length) :
    Exact buf (moved (rest newline text) (text ++ v.drop text.length))
      (rest newline text) (closed newline text)
      ⟨moved (rest newline text) (text ++ v.drop text.length) ++
        buf.drop (max v.length text.length), (rest newline text).length⟩ := by
  have whole : text.take (closed newline text) ++ rest newline text = text := by
    rw [← drop_closed, take_append_drop]
  have size : (text.take (closed newline text)).length = closed newline text :=
    length_take_of_le (Nat.sub_le ..)
  have kept : Kept buf (moved (rest newline text)
      (text.take (closed newline text) ++ rest newline text ++ v.drop text.length))
      (rest newline text) (closed newline text) _ := kept_line solid size clear
  rw [whole] at kept
  refine ⟨kept, ?_, ?_⟩
  · intro nul
    rcases mem_append.mp nul with early | late
    · exact kept.solid early
    · rcases mem_append.mp (mem_of_mem_drop late) with inside | behind
      · exact solid inside
      · exact full (mem_of_mem_drop behind)
  · intro k late before
    rw [drop_moved late, drop_append]
    exact mem_append_left _ ((mem_drop_iff newline text k).mpr before)

theorem kept_none (without : newline ∉ text) (clear : newline ∉ v.drop text.length) :
    Kept buf (text ++ v.drop text.length) [] 0
      ⟨text ++ v.drop text.length ++ buf.drop (max v.length text.length), 0⟩ := by
  refine ⟨rfl, ?_, nil_prefix, not_mem_nil, not_mem_nil, ?_⟩
  · simp only [length_append, length_drop]
    rw [show text.length + (v.length - text.length) = max v.length text.length by omega]
  · intro k _ inside
    rcases mem_append.mp (mem_of_mem_drop inside) with early | late
    · exact absurd early without
    · exact absurd late clear

theorem Kept.step (pattern : Ptr) {piece : List UInt8} (kept : Kept buf v pending old s)
    (solid : 0 ∉ piece) (nonempty : piece ≠ []) (covers : old ≤ (pending ++ piece).length)
    (quiet : Quiet (buf.drop (max v.length (pending ++ piece).length))) :
    ∃ s' v', body pattern s piece = .ok (s', matching pattern (pending ++ piece)) ∧
      v'.length = max v.length (pending ++ piece).length ∧
      Kept buf v' (carried (pending ++ piece)) (closed newline (pending ++ piece)) s' ∧
      ((∀ text, matchRe pattern text) → 0 ∉ v →
        Exact buf v' (carried (pending ++ piece)) (closed newline (pending ++ piece)) s') := by
  have newText : 0 ∉ pending ++ piece := by simp [kept.solid, solid]
  have start := kept.start
  have reach : s.m + piece.length = (pending ++ piece).length := by
    rw [kept.m, length_append]
    exact (Int.natCast_add ..).symm
  have longer : pending.length ≤ (pending ++ piece).length := by simp
  have stored := kept.store piece
  have clear : newline ∉ v.drop (pending ++ piece).length := fun found =>
    absurd (kept.clean _ longer found) (Nat.not_lt.mpr covers)
  generalize pending ++ piece = text at *
  obtain ⟨w, length, all, scanned⟩ := scan_text pattern (quiet.append clear) newText []
  rw [nil_append, nil_append, length_nil, Nat.zero_add, ← stored] at scanned
  have ran := body_ok start nonempty scanned
  have parts := closed_add_rest newline text
  by_cases found : newline ∈ text
  · have far := (mem_iff_closed_pos newline _).mp found
    have left : ((text.length : Int) - closed newline text) = (rest newline text).length := by omega
    rw [if_neg (Nat.pos_iff_ne_zero.mp far), reach, left, Int.toNat_natCast, ← length,
      memmove_moved, ← append_assoc, moved_append (by simp; omega)] at ran
    rw [carried, if_pos found]
    refine ⟨_, _, ran, ?_, kept_line newText length clear, fun every full => ?_⟩
    · rw [length_moved (by simp; omega)]
      simp only [length_append, length_drop, length]
      omega
    · have whole : w ++ rest newline text = text := by
        rw [all every, ← drop_closed, take_append_drop]
      rw [whole]
      exact exact_line newText full clear
  · rw [closed_of_notMem found] at length ran ⊢
    rw [if_pos rfl, length_eq_zero_iff.mp length, rest_of_notMem found, nil_append,
      ← append_assoc] at ran
    rw [carried, if_neg found]
    refine ⟨_, _, ran, ?_, kept_none found clear, fun every full => ⟨kept_none found clear, ?_, ?_⟩⟩
    · simp only [length_append, length_drop]
      omega
    · intro nul
      rcases mem_append.mp nul with early | late
      · exact newText early
      · exact full (mem_of_mem_drop late)
    · exact fun k _ none => absurd none (Nat.not_lt_zero k)

end

/-! ### All reads -/

theorem map_eq_ok {α β : Type} {m : Except Fault α} {f : α → β} {b : β} (ran : m.map f = .ok b) :
    ∃ a, m = .ok a ∧ f a = b := by
  cases m with
  | error e => cases ran
  | ok a => exact ⟨a, rfl, Except.ok.inj ran⟩

theorem loop_nil (pattern : Ptr) (s : State) : loop pattern s [] = .ok [] := by
  rw [loop, read, if_pos rfl]

section
variable {pattern : Ptr} {s : State} {piece : List UInt8} {pieces : List (List UInt8)}

theorem loop_cons (nonempty : piece ≠ []) (fits : s.m + piece.length ≤ sizeofBuf) :
    loop pattern s (piece :: pieces) = do
      let (s', out) ← body pattern s piece
      let outs ← loop pattern s' pieces
      return out ++ outs := by
  have enough : piece.length ≤ (sizeofBuf - s.m).toNat := by omega
  have all : read (sizeofBuf - s.m).toNat (piece :: pieces) = (piece, pieces) := by
    rw [read, take_of_length_le enough, if_neg (Nat.not_lt.mpr enough)]
  rw [loop, all, if_neg nonempty]

theorem loop_error {e : Fault} (some : (read (sizeofBuf - s.m).toNat (piece :: pieces)).1 ≠ [])
    (fault : body pattern s (read (sizeofBuf - s.m).toNat (piece :: pieces)).1 = .error e) :
    loop pattern s (piece :: pieces) = .error e := by
  rw [loop, if_neg some, fault]
  rfl

/-- With a negative `m` the next read stores in front of the buffer. -/
theorem loop_stray (nonempty : piece ≠ []) (stray : s.m < 0) :
    loop pattern s (piece :: pieces) = .error .outside := by
  have pos := length_pos_iff.mpr nonempty
  apply loop_error
  · apply length_pos_iff.mp
    rw [read, length_take, sizeofBuf]
    omega
  · rw [body, if_pos stray]

end

/-- The input arrives so that nothing is lost and nothing old is seen. Each read gives a text, the
part of a line that was carried and the new piece. The text is at least as long as the lines of the
read before; behind all that has been stored, the buffer has a NUL before any newline; and the text
has a newline, unless no newline follows. -/
def Arrives (buf : List UInt8) : Nat → List UInt8 → Nat → List (List UInt8) → Prop
  | _, _, _, [] => True
  | extent, pending, old, piece :: pieces =>
    let text := pending ++ piece
    let extent := max extent text.length
    old ≤ text.length ∧ Quiet (buf.drop extent) ∧ (newline ∈ text ∨ newline ∉ pieces.flatten) ∧
      Arrives buf extent (carried text) (closed newline text) pieces

section
variable {buf v pending : List UInt8} {old : Nat} {s : State} {pieces : List (List UInt8)}

theorem matching_carried (pattern : Ptr) {text flat : List UInt8}
    (whole : newline ∈ text ∨ newline ∉ flat) : matching pattern (text ++ flat) =
      matching pattern text ++ matching pattern (carried text ++ flat) := by
  rw [matching_append, carried]
  by_cases found : newline ∈ text
  · rw [if_pos found]
  · have none := whole.resolve_left found
    have neither : newline ∉ text ++ flat := by simp [found, none]
    rw [if_neg found, rest_of_notMem found, nil_append, matching_of_notMem pattern none,
      matching_of_notMem pattern neither]

variable {l piece : List UInt8}

theorem Kept.loop_step (pattern : Ptr) (pieces : List (List UInt8)) (size : buf.length = sizeofBuf)
    (kept : Kept buf v pending old s) (solid : 0 ∉ piece)
    (nonempty : piece ≠ []) (covers : old ≤ (pending ++ piece).length)
    (quiet : Quiet (buf.drop (max v.length (pending ++ piece).length))) :
    ∃ s' v', loop pattern s (piece :: pieces) =
        (loop pattern s' pieces).map (matching pattern (pending ++ piece) ++ ·) ∧
      v'.length = max v.length (pending ++ piece).length ∧ v'.length < sizeofBuf ∧
      Kept buf v' (carried (pending ++ piece)) (closed newline (pending ++ piece)) s' ∧
      ((∀ text, matchRe pattern text) → 0 ∉ v →
        Exact buf v' (carried (pending ++ piece)) (closed newline (pending ++ piece)) s') := by
  obtain ⟨s', v', ran, length, next, exact'⟩ := kept.step pattern solid nonempty covers quiet
  have room := length_pos_of_mem quiet.1
  rw [length_drop, size] at room
  have fits : s.m + piece.length ≤ sizeofBuf := by
    rw [length_append] at room
    rw [kept.m]
    omega
  refine ⟨s', v', ?_, length, by omega, next, exact'⟩
  rw [loop_cons nonempty fits, ran]
  show (loop pattern s' pieces >>= fun outs => Except.ok (_ ++ outs)) = _
  cases loop pattern s' pieces <;> rfl

/-- In whatever pieces the input arrives in this way, the matching lines are written. -/
theorem Kept.loop_eq (pattern : Ptr) (size : buf.length = sizeofBuf)
    (kept : Kept buf v pending old s) (nonempty : [] ∉ pieces) (solid : 0 ∉ pieces.flatten)
    (arrives : Arrives buf v.length pending old pieces) :
    loop pattern s pieces = .ok (matching pattern (pending ++ pieces.flatten)) := by
  induction pieces generalizing v pending old s with
  | nil => rw [loop_nil, flatten_nil, append_nil, matching_of_notMem _ kept.without]
  | cons piece pieces ih =>
    obtain ⟨covers, quiet, whole, after⟩ := arrives
    simp only [mem_cons, flatten_cons, mem_append, not_or] at nonempty solid
    obtain ⟨s', v', ran, length, -, next, -⟩ :=
      kept.loop_step pattern pieces size solid.1 (Ne.symm nonempty.1) covers quiet
    rw [← length] at after
    rw [ran, ih next nonempty.2 solid.2 after, flatten_cons, ← append_assoc,
      matching_carried pattern whole]
    rfl

/-! ### A read that goes wrong -/

theorem quiet_append_iff {t : List UInt8} (solid : 0 ∉ l) :
    Quiet (l ++ t) ↔ newline ∉ l ∧ Quiet t := by
  have passed : ∀ c ∈ l, decide (c ≠ 0) = true := fun c listed =>
    decide_eq_true fun nul => solid (nul ▸ listed)
  rw [Quiet, Quiet, takeWhile_append_of_pos passed, mem_append, mem_append, not_or,
    or_iff_right solid]
  tauto

theorem matchRe_empty (text : List UInt8) : matchRe [] text := by
  rw [matchRe, if_neg (by decide), matchFrom, matchhere, if_pos (byte_nil 0), if_pos rfl]

theorem matching_empty (text : List UInt8) :
    matching [] text = (lines newline text).map (· ++ [newline]) := by
  rw [matching, filter_eq_self.mpr fun l _ => matchRe_empty l]

theorem Kept.loop_full (pattern : Ptr) (size : buf.length = sizeofBuf)
    (kept : Kept buf v pending old s) (room : v.length < sizeofBuf)
    (solid : 0 ∉ piece) (long : sizeofBuf ≤ (pending ++ piece).length) :
    loop pattern s (piece :: pieces) = .error .outside := by
  have short : pending.length ≤ v.length := kept.front.length_le
  have asked : (sizeofBuf - s.m).toNat = sizeofBuf - pending.length := by
    rw [kept.m]
    omega
  rw [length_append] at long
  have got : (read (sizeofBuf - s.m).toNat (piece :: pieces)).1 =
      piece.take (sizeofBuf - pending.length) := by rw [read, asked]
  have filled : (pending ++ piece.take (sizeofBuf - pending.length)).length = sizeofBuf := by
    rw [length_append, length_take]
    omega
  have newText : 0 ∉ pending ++ piece.take (sizeofBuf - pending.length) := by
    rw [mem_append, not_or]
    exact ⟨kept.solid, fun nul => solid (mem_of_mem_take nul)⟩
  have stored := kept.store (piece.take (sizeofBuf - pending.length))
  have nothing : v.drop sizeofBuf ++ buf.drop (max v.length sizeofBuf) = [] := by
    rw [drop_of_length_le (Nat.le_of_lt room), drop_of_length_le (by omega)]
    rfl
  rw [filled, nothing, append_nil] at stored
  have fault := scan_full pattern newText []
  rw [nil_append, length_nil, ← stored] at fault
  apply loop_error
  · rw [got, ← length_pos_iff, length_take]
    omega
  · rw [got]
    exact body_error kept.start fault

/-- A read that does not reach over the lines of the read before, or with no NUL behind it, ends in
a fault, at once or at the next read; if there is no next one, lines may have been written that are
not of the input. -/
theorem Exact.unclear (size : buf.length = sizeofBuf) (kept : Exact buf v pending old s)
    (room : v.length < sizeofBuf) (solid : 0 ∉ piece) (nonempty : [] ∉ piece :: pieces)
    (unclear : ¬ (old ≤ (pending ++ piece).length ∧
      Quiet (buf.drop (max v.length (pending ++ piece).length)))) :
    loop [] s (piece :: pieces) = .error .outside ∨
      pieces = [] ∧ ∃ u, newline ∈ u ∧
        loop [] s (piece :: pieces) = .ok (matching [] (pending ++ piece ++ u)) := by
  rw [mem_cons, not_or] at nonempty
  by_cases fits : (pending ++ piece).length < sizeofBuf
  case neg => exact .inl (kept.loop_full [] size room solid (Nat.not_lt.mp fits))
  have reach : s.m + piece.length = (pending ++ piece).length := by
    rw [kept.m, length_append]
    exact (Int.natCast_add ..).symm
  have step : loop [] s (piece :: pieces) = _ :=
    loop_cons (Ne.symm nonempty.1) (by rw [reach]; omega)
  have newText : 0 ∉ pending ++ piece := by simp [kept.solid, solid]
  have longer : pending.length ≤ (pending ++ piece).length := by simp
  have stored := kept.store piece
  have full : 0 ∉ v.drop (pending ++ piece).length := fun nul => kept.full (mem_of_mem_drop nul)
  have noisy : ¬ Quiet (v.drop (pending ++ piece).length ++
      buf.drop (max v.length (pending ++ piece).length)) := by
    rw [quiet_append_iff full]
    rintro ⟨clear, quiet⟩
    refine unclear ⟨Nat.not_lt.mp fun less => clear (kept.stale _ longer less), quiet⟩
  generalize pending ++ piece = text at *
  generalize v.drop text.length ++ buf.drop (max v.length text.length) = stale at *
  by_cases nul : 0 ∈ stale
  · obtain ⟨u, z, rfl, solidU⟩ := eq_append_cons_of_mem nul
    have ended : Quiet (0 :: z) := (strchr_eq_none _).mp rfl
    have found : newline ∈ u := by
      by_contra without
      exact noisy (ended.append without)
    have both : 0 ∉ text ++ u := by simp [newText, solidU]
    obtain ⟨w, length, -, scanned⟩ := scan_text [] ended both []
    rw [nil_append, nil_append, length_nil, Nat.zero_add, append_assoc text, ← stored] at scanned
    have past : text.length < closed newline (text ++ u) := by
      rw [← mem_drop_iff, drop_left]
      exact found
    have left : (text.length - closed newline (text ++ u) : Int) < 0 := by omega
    have ran := body_ok kept.start (Ne.symm nonempty.1) scanned
    rw [if_neg (Nat.ne_of_gt (Nat.zero_lt_of_lt past)), reach, Int.toNat_of_nonpos left.le,
      memmove] at ran
    rw [step, ran]
    cases pieces with
    | nil =>
      refine .inr ⟨rfl, u, found, ?_⟩
      show (loop [] _ [] >>= fun outs => Except.ok (_ ++ outs)) = _
      rw [loop_nil]
      exact congrArg Except.ok (append_nil _)
    | cons next pieces =>
      rw [mem_cons, not_or] at nonempty
      refine .inl ?_
      show (loop [] _ (next :: pieces) >>= fun outs => Except.ok (_ ++ outs)) = _
      rw [loop_stray (Ne.symm nonempty.2.1) left]
      rfl
  · have solidAll : 0 ∉ text ++ stale := by simp [newText, nul]
    have fault := scan_full [] solidAll []
    rw [nil_append, length_nil, ← stored] at fault
    rw [step, body_error kept.start fault]
    exact .inl rfl

theorem head?_matching_append (without : newline ∉ l) (t : List UInt8) :
    (matching [] (l ++ t)).head? = (matching [] t).head?.map (l ++ ·) := by
  rw [matching_empty, matching_empty, head?_map, head?_map, head?_lines_append without]
  cases (lines newline t).head? with
  | none => rfl
  | some x => exact congrArg some (append_assoc ..)

theorem exists_head?_matching (found : newline ∈ l) : ∃ x, (matching [] l).head? = some x := by
  cases all : matching [] l with
  | nil =>
    rw [matching_empty, map_eq_nil_iff, lines_eq_nil_iff] at all
    exact absurd found all
  | cons x xs => exact ⟨x, rfl⟩

theorem head?_matching (found : newline ∈ l) (t : List UInt8) :
    (matching [] (l ++ t)).head? = (matching [] l).head? := by
  obtain ⟨x, first⟩ := exists_head?_matching found
  rw [matching_append, head?_append, first]
  rfl

/-- If the part of a line has been dropped, the first line that is written is no longer than what
follows of it. -/
theorem Exact.head?_le (size : buf.length = sizeofBuf) (kept : Exact buf v [] 0 s)
    (room : v.length < sizeofBuf) (nonempty : [] ∉ pieces) (solid : 0 ∉ pieces.flatten)
    (found : newline ∈ pieces.flatten) {out : List (List UInt8)}
    (ran : loop [] s pieces = .ok out) :
    ∃ l l', out.head? = some l ∧ (matching [] pieces.flatten).head? = some l' ∧
      l.length ≤ l'.length := by
  induction pieces generalizing v s out with
  | nil => exact absurd found not_mem_nil
  | cons piece pieces ih =>
    simp only [flatten_cons, mem_append, not_or] at solid found
    by_cases clear : 0 ≤ ([] ++ piece).length ∧ Quiet (buf.drop (max v.length ([] ++ piece).length))
    · rw [mem_cons, not_or] at nonempty
      obtain ⟨s', v', step, length, room', -, next⟩ :=
        kept.loop_step [] pieces size solid.1 (Ne.symm nonempty.1) clear.1 clear.2
      rw [nil_append] at step next
      rw [step] at ran
      obtain ⟨outs, rest', rfl⟩ := map_eq_ok ran
      rw [flatten_cons]
      by_cases here : newline ∈ piece
      · obtain ⟨x, first⟩ := exists_head?_matching here
        rw [head?_matching here, head?_append, first]
        exact ⟨x, x, rfl, rfl, Nat.le_refl _⟩
      · have still := next matchRe_empty kept.full
        rw [carried, if_neg here, closed_of_notMem here] at still
        obtain ⟨l, l', first, line, shorter⟩ :=
          ih still room' nonempty.2 solid.2 (found.resolve_left here) rest'
        rw [head?_matching_append here, matching_of_notMem [] here, line, nil_append]
        refine ⟨l, piece ++ l', first, rfl, shorter.trans ?_⟩
        rw [length_append]
        exact Nat.le_add_left ..
    · rcases kept.unclear size room solid.1 nonempty clear with fault | ⟨rfl, u, -, wrong⟩
      · rw [fault] at ran
        cases ran
      · rw [wrong] at ran
        cases ran
        have here : newline ∈ piece := found.resolve_right not_mem_nil
        obtain ⟨x, first⟩ := exists_head?_matching here
        rw [nil_append, head?_matching here, flatten_cons, head?_matching here, first]
        exact ⟨x, x, rfl, rfl, Nat.le_refl _⟩

/-- If every line of the input has been written, the input has arrived so. -/
theorem Exact.arrives (size : buf.length = sizeofBuf) (kept : Exact buf v pending old s)
    (room : v.length < sizeofBuf) (nonempty : [] ∉ pieces) (solid : 0 ∉ pieces.flatten)
    (ran : loop [] s pieces = .ok (matching [] (pending ++ pieces.flatten))) :
    Arrives buf v.length pending old pieces := by
  induction pieces generalizing v pending old s with
  | nil => trivial
  | cons piece pieces ih =>
    simp only [flatten_cons, mem_append, not_or] at solid
    rw [flatten_cons, ← append_assoc] at ran
    by_cases clear : old ≤ (pending ++ piece).length ∧
        Quiet (buf.drop (max v.length (pending ++ piece).length))
    · rw [mem_cons, not_or] at nonempty
      obtain ⟨s', v', step, length, room', -, next⟩ :=
        kept.loop_step [] pieces size solid.1 (Ne.symm nonempty.1) clear.1 clear.2
      have still := next matchRe_empty kept.full
      rw [step] at ran
      obtain ⟨outs, rest', same⟩ := map_eq_ok ran
      have whole : newline ∈ pending ++ piece ∨ newline ∉ pieces.flatten := by
        by_contra lost
        obtain ⟨here, later⟩ := not_or.mp lost
        rw [carried, if_neg here, closed_of_notMem here] at still
        obtain ⟨l, l', first, line, shorter⟩ :=
          still.head?_le size room' nonempty.2 solid.2 (not_not.mp later) rest'
        rw [matching_of_notMem [] here, nil_append] at same
        rw [same, head?_matching_append here, line] at first
        cases first
        have pos := length_pos_iff.mpr (Ne.symm nonempty.1)
        rw [length_append, length_append] at shorter
        omega
      rw [matching_carried [] whole] at same
      rw [append_cancel_left same] at rest'
      exact ⟨clear.1, clear.2, whole, length ▸ ih still room' nonempty.2 solid.2 rest'⟩
    · rcases kept.unclear size room solid.1 nonempty clear with fault | ⟨rfl, u, found, wrong⟩
      · rw [fault] at ran
        cases ran
      · rw [wrong, flatten_nil, append_nil, matching_append] at ran
        have none := append_right_eq_self.mp (Except.ok.inj ran)
        rw [matching_empty, map_eq_nil_iff, lines_eq_nil_iff] at none
        exact absurd (mem_append_right _ found) none

end

theorem exact_start (buf : List UInt8) : Exact buf [] [] 0 ⟨buf, 0⟩ := by
  refine ⟨⟨rfl, rfl, nil_prefix, not_mem_nil, not_mem_nil, ?_⟩,
    not_mem_nil, fun k _ none => absurd none (Nat.not_lt_zero k)⟩
  intro k _ inside
  rw [drop_nil] at inside
  exact absurd inside not_mem_nil

/-- A stream without a NUL, in the pieces in which it arrives. -/
structure Input where
  pieces : List (List UInt8)
  nonempty : [] ∉ pieces
  noNul : 0 ∉ pieces.flatten

/-- With any buffer to start with, `grep` writes the matching lines for every pattern, and keeps to
its buffer, exactly if each read gives a text that reaches over the lines of the read before, that
leaves a NUL behind it before any newline, and that has a newline unless none follows. -/
theorem grep_lines_iff (buf : Vector UInt8 sizeofBuf) (input : Input) :
    (∀ pattern, 0 ∉ pattern →
      grep pattern buf.toList input.pieces = .ok (matching pattern input.pieces.flatten)) ↔
    Arrives buf.toList 0 [] 0 input.pieces := by
  have size : buf.toList.length = sizeofBuf := buf.length_toList
  have first := exact_start buf.toList
  constructor
  · intro right
    exact first.arrives size (by decide) input.nonempty input.noNul (right [] List.not_mem_nil)
  · intro arrives pattern _
    exact first.loop_eq pattern size input.nonempty input.noNul arrives

/-- The line `ab`, read in two pieces: only its second part is written. -/
theorem grep_split_line :
    grep [] (List.replicate sizeofBuf 0) [['a'.toUInt8], ['b'.toUInt8, newline]] =
      .ok [['b'.toUInt8, newline]] ∧
    matching [] ['a'.toUInt8, 'b'.toUInt8, newline] = [['a'.toUInt8, 'b'.toUInt8, newline]] := by
  have size : (List.replicate sizeofBuf (0 : UInt8)).length = sizeofBuf := List.length_replicate
  have quiet : ∀ k < sizeofBuf, Quiet ((List.replicate sizeofBuf 0).drop k) := by
    intro k inside
    rw [List.drop_replicate, ← Nat.succ_pred_eq_of_pos (Nat.sub_pos_of_lt inside)]
    exact (strchr_eq_none _).mp rfl
  have part : newline ∉ ['b'.toUInt8] := by decide
  have whole : newline ∉ ['a'.toUInt8, 'b'.toUInt8] := by decide
  have lost : newline ∉ ['a'.toUInt8] := by decide
  have start : (0 : UInt8) ∉ ['a'.toUInt8] := by decide
  have next : (0 : UInt8) ∉ ['b'.toUInt8, newline] := by decide
  obtain ⟨s, v, first, length, -, kept, -⟩ := (exact_start (List.replicate sizeofBuf 0)).loop_step
    [] [['b'.toUInt8, newline]] size start nofun (Nat.zero_le _) (quiet _ (by decide))
  rw [List.nil_append, carried, if_neg lost, closed_of_notMem lost] at kept
  obtain ⟨s', v', second, -⟩ := kept.loop_step [] [] size next nofun (Nat.zero_le _)
    (quiet _ (by rw [length]; decide))
  constructor
  · have written : lines newline ['b'.toUInt8, newline] = _ := lines_single part
    rw [grep, first, second, loop_nil, List.nil_append, matching_of_notMem [] lost,
      List.nil_append, matching_empty, written]
    rfl
  · have due : lines newline ['a'.toUInt8, 'b'.toUInt8, newline] = _ := lines_single whole
    rw [matching_empty, due]
    rfl

end Grep
