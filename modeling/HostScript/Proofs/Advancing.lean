import HostScript.Proofs.Compiling
/-!
# How the compiler advances

Every step of the compiler that succeeds leaves the cursor where it was or behind it, and a step that takes
something leaves it behind it. The only way back is the start of a statement that is read again as an
expression, and then its semicolon is taken. So a statement that is compiled before the end of the source
always takes some of it.

Moving on, the cursor counts the line feeds that it takes: where it advances, it looks for them, and what it skips
has been seen to be none.
-/

set_option autoImplicit false

namespace HostScript

open HostScript.Text

/-- The byte that ends a line. -/
def lineFeed : UInt8 := 10

/-! ## Cursors over one source -/

namespace Cursor

/-- The second cursor stands some bytes behind the first one. -/
structure Ahead (c : Cursor) (n : Nat) (d : Cursor) : Prop where
  rest : d.rest = c.rest.drop n
  offset : d.offset = c.offset + n

/-- The second cursor stands where the first one does, or behind it. -/
def Upto (c d : Cursor) : Prop := ∃ n, c.Ahead n d

/-- The second cursor stands behind the first one. -/
def Before (c d : Cursor) : Prop := ∃ n, c.Ahead (n + 1) d

variable {c d e : Cursor}

theorem Upto.rfl : c.Upto c := ⟨0, List.drop_zero.symm, Eq.refl _⟩

theorem Ahead.trans {n m : Nat} (h : c.Ahead n d) (h' : d.Ahead m e) : c.Ahead (n + m) e where
  rest := by rw [h'.rest, h.rest, List.drop_drop]
  offset := by rw [h'.offset, h.offset, Nat.add_assoc]

theorem Upto.trans (h : c.Upto d) (h' : d.Upto e) : c.Upto e := by
  obtain ⟨n, h⟩ := h
  obtain ⟨m, h'⟩ := h'
  exact ⟨n + m, h.trans h'⟩

theorem Before.upto (h : c.Before d) : c.Upto d := by
  obtain ⟨n, h⟩ := h
  exact ⟨n + 1, h⟩

theorem Before.trans (h : c.Before d) (h' : d.Upto e) : c.Before e := by
  obtain ⟨n, h⟩ := h
  obtain ⟨m, h'⟩ := h'
  exact ⟨n + m, by simpa only [Nat.add_right_comm] using h.trans h'⟩

theorem Upto.before (h : c.Upto d) (h' : d.Before e) : c.Before e := by
  obtain ⟨n, h⟩ := h
  obtain ⟨m, h'⟩ := h'
  exact ⟨n + m, h.trans h'⟩

theorem Upto.offset (h : c.Upto d) : c.offset ≤ d.offset := by
  obtain ⟨n, h⟩ := h
  rw [h.offset]
  exact Nat.le_add_right _ _

theorem Before.offset (h : c.Before d) : c.offset < d.offset := by
  obtain ⟨n, h⟩ := h
  rw [h.offset]
  exact Nat.lt_add_of_pos_right (Nat.succ_pos n)

/-- The line does not matter. -/
theorem Upto.of_eq (hrest : d.rest = c.rest) (hoffset : d.offset = c.offset) : c.Upto d := ⟨0, hrest, hoffset⟩

/-- A cursor before the end has less of the source before it once it has moved. -/
theorem Before.rest_lt (h : c.Before d) (hend : c.atEnd = false) : d.rest.length < c.rest.length := by
  obtain ⟨n, h⟩ := h
  have hpos : 0 < c.rest.length := List.length_pos_iff.mpr fun hnil => by simp [atEnd, hnil] at hend
  rw [h.rest, List.length_drop]
  omega

theorem Upto.rest_le (h : c.Upto d) : d.rest.length ≤ c.rest.length := by
  obtain ⟨n, h⟩ := h
  rw [h.rest, List.length_drop]
  exact Nat.sub_le _ _

theorem advance_before (c : Cursor) : c.Before c.advance := ⟨0, List.drop_one.symm, Eq.refl _⟩

theorem skip_upto (c : Cursor) (n : Nat) : c.Upto (c.skip n) := ⟨n, Eq.refl _, Eq.refl _⟩

theorem skip_before (c : Cursor) {n : Nat} (h : 0 < n) : c.Before (c.skip n) := by
  obtain ⟨m, rfl⟩ := Nat.exists_eq_succ_of_ne_zero (Nat.ne_of_gt h)
  exact ⟨m, Eq.refl _, Eq.refl _⟩

/-! ## Lines -/

/-- The line feeds between two cursors. -/
def lineFeedsTo (c d : Cursor) : Nat := (c.rest.take (d.offset - c.offset)).count lineFeed

/-- Between two cursors the lines are counted, and some more than there are. -/
structure Drifts (c : Cursor) (extra : Nat) (d : Cursor) : Prop where
  upto : c.Upto d
  line : d.line = c.line + c.lineFeedsTo d + extra

/-- Between two cursors the lines are counted as they are. -/
abbrev Counts (c d : Cursor) : Prop := c.Drifts 0 d

theorem Ahead.lineFeedsTo {n : Nat} (h : c.Ahead n d) : c.lineFeedsTo d = (c.rest.take n).count lineFeed := by
  rw [Cursor.lineFeedsTo, h.offset, Nat.add_sub_cancel_left]

theorem lineFeedsTo_trans (h : c.Upto d) (h' : d.Upto e) :
    c.lineFeedsTo e = c.lineFeedsTo d + d.lineFeedsTo e := by
  obtain ⟨n, h⟩ := h
  obtain ⟨m, h'⟩ := h'
  rw [(h.trans h').lineFeedsTo, h.lineFeedsTo, h'.lineFeedsTo, h.rest, List.take_add, List.count_append]

theorem Counts.rfl : c.Counts c := ⟨.rfl, by simp [Cursor.lineFeedsTo]⟩

theorem Drifts.trans {n m : Nat} (h : c.Drifts n d) (h' : d.Drifts m e) : c.Drifts (n + m) e where
  upto := h.upto.trans h'.upto
  line := by
    rw [h'.line, h.line, lineFeedsTo_trans h.upto h'.upto]
    omega

theorem Drifts.counts {n : Nat} (h : c.Drifts n d) (h' : d.Counts e) : c.Drifts n e := h.trans h'

theorem Counts.trans (h : c.Counts d) (h' : d.Counts e) : c.Counts e := Drifts.trans h h'

/-- Only a line feed is read as one. -/
theorem shown_eq_newline (b : UInt8) : shown b = '\n' ↔ b = lineFeed := by
  constructor
  · intro h
    have hb := toNat_shown b
    rw [h] at hb
    exact UInt8.toNat_inj.mp hb.symm
  · rintro rfl
    rfl

theorem skip_counts {n : Nat} (h : lineFeed ∉ c.rest.take n) : c.Counts (c.skip n) where
  upto := skip_upto c n
  line := by
    have hn : c.Ahead n (c.skip n) := ⟨rfl, rfl⟩
    rw [hn.lineFeedsTo, List.count_eq_zero_of_not_mem h]
    rfl

theorem peekAt_of_lt {n : Nat} (h : n < c.rest.length) : c.peekAt n = shown c.rest[n] := by
  rw [peekAt, List.getD_eq_getElem?_getD, List.getElem?_eq_getElem h, Option.getD_some, shown]

/-- What is seen ahead is what is skipped. -/
theorem skip_seen_counts {n : Nat} (h : ∀ i < n, c.peekAt i ≠ '\n') : c.Counts (c.skip n) := by
  refine skip_counts fun hmem => ?_
  obtain ⟨i, hi, hfeed⟩ := List.mem_take_iff_getElem.mp hmem
  have hlt := Nat.lt_min.mp hi
  refine h i hlt.1 ?_
  rw [peekAt_of_lt hlt.2]
  exact (shown_eq_newline _).mpr hfeed

theorem skip_one_counts (h : c.peek ≠ '\n') : c.Counts (c.skip 1) :=
  skip_seen_counts fun i hi => by rwa [Nat.lt_one_iff.mp hi]

theorem skip_two_counts (h : c.peek ≠ '\n') (h' : c.peekAt 1 ≠ '\n') : c.Counts (c.skip 2) := by
  refine skip_seen_counts fun i hi => ?_
  match i with
  | 0 => exact h
  | 1 => exact h'

/-- Whoever advances counts. -/
theorem advance_counts (c : Cursor) : c.Counts c.advance where
  upto := (advance_before c).upto
  line := by
    have hone : c.Ahead 1 c.advance := ⟨List.drop_one.symm, rfl⟩
    rw [hone.lineFeedsTo, advance, peek, peekAt]
    cases c.rest with
    | nil => rfl
    | cons b r =>
      change (if shown b == '\n' then c.line + 1 else c.line) = c.line + List.count lineFeed [b]
      by_cases hb : b = lineFeed
      · rw [if_pos (beq_iff_eq.mpr ((shown_eq_newline b).mpr hb)), hb, List.count_singleton_self]
      · rw [if_neg (by simpa [shown_eq_newline] using hb), List.count_eq_zero_of_not_mem (by simpa using Ne.symm hb)]
        rfl

/-! ## Moving over the source -/

theorem counts_of_advance (h : c.advance.Counts d) : c.Counts d := (advance_counts c).trans h

theorem toDelimiter_counts (delimiter : Char) (n : Nat) (c : Cursor) : c.Counts (toDelimiter delimiter n c) := by
  induction n generalizing c with
  | zero => exact .rfl
  | succ n ih =>
    rw [toDelimiter]
    split
    · exact .rfl
    · exact counts_of_advance (ih _)

theorem lineComment_counts (n : Nat) (c : Cursor) : c.Counts (lineComment n c) := by
  rw [lineComment_eq_toDelimiter]
  exact toDelimiter_counts '\n' n c

theorem blockComment_counts (n : Nat) (c : Cursor) : c.Counts (blockComment n c) := by
  induction n generalizing c with
  | zero => exact .rfl
  | succ n ih =>
    rw [blockComment]
    split
    · exact .rfl
    split
    · rename_i hclose
      simp only [Bool.and_eq_true, beq_iff_eq] at hclose
      exact skip_two_counts (by rw [hclose.1]; decide) (by rw [hclose.2]; decide)
    · exact counts_of_advance (ih _)

theorem skipWhiteWithin_counts (n : Nat) (c : Cursor) : c.Counts (skipWhiteWithin n c) := by
  induction n generalizing c with
  | zero => exact .rfl
  | succ n ih =>
    rw [skipWhiteWithin]
    split
    · exact counts_of_advance (ih _)
    split
    · exact (lineComment_counts _ c).trans (ih _)
    split
    · rename_i hopen
      simp only [Bool.and_eq_true, beq_iff_eq] at hopen
      have hskip := skip_two_counts (by rw [hopen.1]; decide) (by rw [hopen.2]; decide)
      exact hskip.trans ((blockComment_counts _ _).trans (ih _))
    · exact .rfl

theorem skipWhite_counts (c : Cursor) : c.Counts c.skipWhite := skipWhiteWithin_counts _ c

theorem toExpressionEnd_counts (ending : Char) (n depth : Nat) (quoted : Bool) (c : Cursor) :
    c.Counts (toExpressionEnd ending n depth quoted c).1 := by
  induction n generalizing depth quoted c with
  | zero => exact .rfl
  | succ n ih =>
    rw [toExpressionEnd]
    split
    · exact .rfl
    dsimp only
    split
    · split
      · rename_i hescape
        simp only [Bool.and_eq_true, beq_iff_eq] at hescape
        have hskip := skip_one_counts (c := c) (by rw [hescape.1]; decide)
        exact hskip.trans (counts_of_advance (ih _ _ _))
      · exact counts_of_advance (ih _ _ _)
    split
    · exact counts_of_advance (ih _ _ _)
    split
    · exact counts_of_advance (ih _ _ _)
    split
    · split
      · split <;> exact .rfl
      · exact counts_of_advance (ih _ _ _)
    split
    · exact .rfl
    · exact counts_of_advance (ih _ _ _)

theorem lineComment_upto (n : Nat) (c : Cursor) : c.Upto (lineComment n c) := (lineComment_counts n c).upto

theorem blockComment_upto (n : Nat) (c : Cursor) : c.Upto (blockComment n c) := (blockComment_counts n c).upto

theorem skipWhite_upto (c : Cursor) : c.Upto c.skipWhite := (skipWhite_counts c).upto

theorem toExpressionEnd_upto (ending : Char) (n depth : Nat) (quoted : Bool) (c : Cursor) :
    c.Upto (toExpressionEnd ending n depth quoted c).1 := (toExpressionEnd_counts ending n depth quoted c).upto

theorem toDelimiter_upto (delimiter : Char) (n : Nat) (c : Cursor) : c.Upto (toDelimiter delimiter n c) :=
  (toDelimiter_counts delimiter n c).upto

end Cursor

namespace Compiler

variable {ξ δ α β : Type} {decls : Declarations ξ δ} {statement : Compile δ Unit} {s t u : Compilation δ}

/-! ## What a step has done -/

/-- A sequence of two steps that succeeds is two steps that do. -/
theorem Does.of_bind {m : Compile δ α} {f : α → Compile δ β} {b : β} (h : Does (m >>= f) s b u) :
    ∃ a t, Does m s a t ∧ Does (f a) t b u := by
  rw [Does, ExceptT.run_bind, StateT.run_bind] at h
  rcases hm : m.run.run s with ⟨e | a, t⟩
  · rw [hm] at h
    cases h
  · rw [hm] at h
    exact ⟨a, t, hm, h⟩

/-- A step does one thing only. -/
theorem Does.unique {m : Compile δ α} {a b : α} (h : Does m s a t) (h' : Does m s b u) : a = b ∧ t = u := by
  cases h.symm.trans h'
  exact ⟨rfl, rfl⟩

/-- What is known of the first step of a sequence. -/
theorem Does.after {m : Compile δ α} {f : α → Compile δ β} {a : α} {b : β} (hm : Does m s a t)
    (h : Does (m >>= f) s b u) : Does (f a) t b u := by
  obtain ⟨a', t', hm', hf⟩ := h.of_bind
  obtain ⟨rfl, rfl⟩ := hm.unique hm'
  exact hf

theorem Does.of_pure {a b : α} (h : Does (Pure.pure a) s b t) : b = a ∧ t = s := by
  cases h
  exact ⟨rfl, rfl⟩

theorem not_does_throw {e : Stop} {a : α} : ¬Does (throw e) s a t := fun h => nomatch h

theorem not_does_fail {kind : ErrorKind} {reason : String} {a : α} : ¬Does (fail kind reason) s a t := not_does_throw

theorem not_does_failing {kind : ErrorKind} {reason : String} {f : α → Compile δ β} {b : β} :
    ¬Does (fail kind reason >>= f) s b t := by
  intro h
  obtain ⟨a, u, hfail, -⟩ := h.of_bind
  exact not_does_fail hfail

/-- The cursor has moved on, and nothing else has changed. -/
def Read (s t : Compilation δ) : Prop := s.cursor.Upto t.cursor ∧ t = move s t.cursor

/-- The cursor has moved on by some bytes at least, and nothing else has changed. -/
def Taken (s t : Compilation δ) : Prop := s.cursor.Before t.cursor ∧ t = move s t.cursor

theorem Read.trans (h : Read s t) (h' : Read t u) : Read s u :=
  ⟨h.1.trans h'.1, by rw [h'.2, h.2, move_move, move_cursor]⟩

theorem Taken.read (h : Taken s t) : Read s t := ⟨h.1.upto, h.2⟩

theorem Taken.trans (h : Taken s t) (h' : Read t u) : Taken s u :=
  ⟨h.1.trans h'.1, by rw [h'.2, h.2, move_move, move_cursor]⟩

theorem Read.taken (h : Read s t) (h' : Taken t u) : Taken s u :=
  ⟨h.1.before h'.1, by rw [h'.2, h.2, move_move, move_cursor]⟩

theorem read_move {c : Cursor} (h : s.cursor.Upto c) : Read s (move s c) := ⟨h, rfl⟩

theorem taken_move {c : Cursor} (h : s.cursor.Before c) : Taken s (move s c) := ⟨h, rfl⟩

/-! ## Reading -/

theorem read_skipWhite (s : Compilation δ) : Read s (move s s.cursor.skipWhite) := read_move (Cursor.skipWhite_upto _)

/-- A name that was read stands behind white space. -/
theorem name_done {name : String} (h : Does Compiler.name s name t) :
    let c := s.cursor.skipWhite
    0 < c.nameLength ∧ name = c.textTo (c.skip c.nameLength) ∧ t = move s (c.skip c.nameLength) := by
  intro c
  have h := (getCursor_does _).after ((skipWhite_does s).after h)
  dsimp only at h
  split at h
  · exact absurd h not_does_failing
  · rename_i hpos
    obtain ⟨hname, ht⟩ := ((setCursor_does _ _).after h).of_pure
    exact ⟨Nat.pos_of_ne_zero hpos, hname, ht⟩

theorem name_taken {name : String} (h : Does Compiler.name s name t) : Taken s t := by
  obtain ⟨hpos, -, rfl⟩ := name_done h
  exact taken_move ((Cursor.skipWhite_upto _).before (Cursor.skip_before _ hpos))

/-- A character that was taken stands behind white space. -/
theorem expect_done {wanted : Char} {kind : ErrorKind} (h : Does (expect wanted kind) s () t) :
    s.cursor.skipWhite.peek = wanted ∧ t = move s (s.cursor.skipWhite.skip 1) := by
  have h := (getCursor_does _).after ((skipWhite_does s).after h)
  split at h
  · exact absurd h not_does_failing
  · rename_i hpeek
    exact ⟨by simpa using hpeek, (h.unique (.modify _ _)).2⟩

theorem expect_taken {wanted : Char} {kind : ErrorKind} (h : Does (expect wanted kind) s () t) : Taken s t := by
  obtain ⟨-, rfl⟩ := expect_done h
  exact taken_move ((Cursor.skipWhite_upto _).before (Cursor.skip_before _ Nat.one_pos))

theorem expression_read {ending : Char} {text : String} (h : Does (expression ending) s text t) : Read s t := by
  have h := (getCursor_does _).after ((skipWhite_does s).after h)
  dsimp only [move_cursor] at h
  have hend := Cursor.toExpressionEnd_upto ending (s.cursor.skipWhite.rest.length + 1) 0 false s.cursor.skipWhite
  generalize Cursor.toExpressionEnd _ _ _ _ _ = outcome at h hend
  obtain ⟨stop, _ | e⟩ := outcome
  · obtain ⟨-, rfl⟩ := ((setCursor_does _ _).after h).of_pure
    exact read_move ((Cursor.skipWhite_upto _).trans hend)
  · have h : Does (throw (.error e)) _ text t := (setCursor_does _ stop).after h
    exact absurd h not_does_throw

theorem segments_read {n : Nat} {text text' : String} (h : Does (segments n text) s text' t) : Read s t := by
  induction n generalizing s text with
  | zero =>
    obtain ⟨-, rfl⟩ := h.of_pure
    exact read_move .rfl
  | succ n ih =>
    rw [segments] at h
    have h := (getCursor_does s).after h
    split at h
    · obtain ⟨_, _, -, h⟩ := h.of_bind
      obtain ⟨_, _, hthrow, -⟩ := h.of_bind
      exact absurd hthrow not_does_throw
    extract_lets plain delimiter start stop at h
    have hstart : s.cursor.Upto start := by
      unfold start
      split
      · exact .rfl
      · exact (Cursor.advance_before _).upto
    have hstop : s.cursor.Upto stop := hstart.trans (Cursor.toDelimiter_upto _ _ _)
    let behind := if !plain && stop.peek == delimiter then stop.skip 1 else stop
    have hbehind : s.cursor.Upto behind := by
      unfold behind
      split
      · exact hstop.trans (Cursor.skip_upto _ _)
      · exact hstop
    have hread := (read_move hbehind).trans (read_skipWhite _)
    have h := (setCursor_does s behind).after h
    have h := (getCursor_does _).after ((skipWhite_does _).after h)
    clear_value plain delimiter start stop behind
    split at h
    · obtain ⟨-, rfl⟩ := h.of_pure
      exact hread
    · exact hread.trans (ih h)

theorem externalText_taken {text : String} (h : Does externalText s text t) : Taken s t := by
  have h := (getCursor_does _).after ((skipWhite_does s).after h)
  obtain ⟨text', s₁, hsegments, h⟩ := h.of_bind
  have hread := (read_skipWhite s).trans (segments_read hsegments)
  have h := (getCursor_does _).after h
  split at h
  · exact absurd h not_does_failing
  · obtain ⟨-, rfl⟩ := (Does.after (.modify _ _) h).of_pure
    exact hread.taken (taken_move (Cursor.skip_before _ Nat.one_pos))

end Compiler

end HostScript
