import HostScript.Proofs.DanglingKeywords
/-!
# Lines that are counted

A step of the compiler that only reads, or reads and adds an instruction, leaves the cursor as many lines further as
there are line feeds between, and so does one that fails. What it skips without looking at it is a name, or the
character that it has just stopped at.
-/

set_option autoImplicit false

namespace HostScript

open HostScript.Text

namespace Cursor

variable {c d : Cursor}

theorem skip_name_counts (c : Cursor) : c.Counts (c.skip c.nameLength) := by
  refine skip_counts fun hmem => ?_
  rw [nameLength, ← List.prefix_iff_eq_take.mp (List.takeWhile_prefix _)] at hmem
  have hchar := List.all_eq_true.mp List.all_takeWhile _ hmem
  exact absurd hchar (by decide)

/-- An expression stops at the character that ends it. -/
theorem toExpressionEnd_stops {ending : Char} {n depth : Nat} {quoted : Bool} {c : Cursor}
    (h : (toExpressionEnd ending n depth quoted c).2 = none) :
    (toExpressionEnd ending n depth quoted c).1.peek = ending := by
  fun_induction toExpressionEnd ending n depth quoted c
  -- without an obstacle it stops at a closing parenthesis or at a semicolon
  case case7 hclose hending =>
    exact (beq_iff_eq.mp hclose).trans (beq_iff_eq.mp hending).symm
  case case10 hsemi =>
    simp only [Bool.and_eq_true, beq_iff_eq] at hsemi
    exact hsemi.1.1.trans hsemi.2.symm
  all_goals simp_all

/-- White space has been skipped up to something else, and there is no more of it. -/
theorem toSolid_stops {n : Nat} (h : toSolid n c = some d) : isWhite d.peek = false ∧ d.skipWhite = d := by
  induction n generalizing c with
  | zero => cases h
  | succ n ih =>
    rw [toSolid] at h
    split at h
    · exact ih h
    rename_i hwhite
    split at h
    · obtain ⟨e, -, he⟩ := Option.bind_eq_some_iff.mp h
      exact ih he
    rename_i hline
    split at h
    · obtain ⟨e, -, he⟩ := Option.bind_eq_some_iff.mp h
      exact ih he
    rename_i hblock
    cases h
    refine ⟨Bool.eq_false_iff.mpr hwhite, ?_⟩
    rw [skipWhite, skipWhiteWithin, if_neg hwhite, if_neg hline, if_neg hblock]

theorem skipWhite_stops (c : Cursor) : isWhite c.skipWhite.peek = false ∧ c.skipWhite.skipWhite = c.skipWhite := by
  obtain ⟨n, hn⟩ := toSolid_comes (Nat.lt_succ_self c.rest.length)
  exact toSolid_stops (hn n (Nat.le_refl n))

theorem not_newline (h : isWhite c.peek = false) : c.peek ≠ '\n' := by
  intro hfeed
  rw [hfeed] at h
  cases h

/-- At a name there is no white space to skip. -/
theorem skipWhite_of_name (h : isNameChar c.peek = true) : c.skipWhite = c := by
  have hwhite : ¬isWhite c.peek = true := fun hw => by simp [isNameChar_of_isWhite hw] at h
  have hslash : c.peek ≠ '/' := by
    intro hslash
    rw [hslash] at h
    cases h
  simp [skipWhite, skipWhiteWithin, hwhite, hslash]

/-- An expression takes a character that a name has. -/
theorem toExpressionEnd_before {ending : Char} {n : Nat} (h : isNameChar c.peek = true) :
    c.Before (toExpressionEnd ending (n + 1) 0 false c).1 := by
  have hother {a : Char} (ha : isNameChar a = false) : ¬(c.peek == a) = true := by
    intro hpeek
    rw [beq_iff_eq.mp hpeek, ha] at h
    cases h
  have hend : ¬c.atEnd = true := by
    rw [not_atEnd_of_peek fun hnul => hother (a := '\x00') (by decide) (beq_iff_eq.mpr hnul)]
    exact Bool.false_ne_true
  have hsemi : ¬(c.peek == ';' && 0 == 0 && ending == ';') = true := by
    simp [hother (a := ';') (by decide)]
  rw [toExpressionEnd, if_neg hend]
  dsimp only
  rw [if_neg Bool.false_ne_true, if_neg (hother (by decide)), if_neg (hother (by decide)), if_neg (hother (by decide)),
    if_neg hsemi]
  exact (advance_before c).trans (toExpressionEnd_upto _ _ _ _ _)

/-- A name stands where its first character does. -/
theorem nameLength_pos : 0 < c.nameLength ↔ isNameChar c.peek = true := by
  rw [nameLength, peek, peekAt]
  cases c.rest with
  | nil => decide
  | cons b r =>
    change 0 < (List.takeWhile (fun b => isNameChar (Char.ofNat b.toNat)) (b :: r)).length ↔
      isNameChar (Char.ofNat b.toNat) = true
    cases h : isNameChar (Char.ofNat b.toNat) <;> simp [h]

end Cursor

/-- Where the instructions stand in the source. -/
def Program.positions (p : Program) : List SourcePos := p.instructions.map (·.pos)

namespace Compiler

variable {ξ δ α β : Type} {decls : Declarations ξ δ} {s t u : Compilation δ} {m : Compile δ α} {f : α → Compile δ β}
  {pos : SourcePos}

/-! ## The state that a step leaves -/

/-- The state that a step leaves, also one that fails. -/
def stateAfter (m : Compile δ α) (s : Compilation δ) : Compilation δ := (m.run.run s).2

theorem Does.stateAfter {a : α} (h : Does m s a t) : stateAfter m s = t := congrArg Prod.snd h

theorem Does.stateAfter_bind {a : α} (h : Does m s a t) :
    Compiler.stateAfter (m >>= f) s = Compiler.stateAfter (f a) t := by
  rw [Compiler.stateAfter, ExceptT.run_bind, StateT.run_bind, show m.run.run s = _ from h]
  rfl

/-- A step that follows is taken if the first one succeeds. -/
theorem stateAfter_bind (m : Compile δ α) (f : α → Compile δ β) (s : Compilation δ) :
    (∃ a t, Does m s a t ∧ stateAfter (m >>= f) s = stateAfter (f a) t) ∨
      (∀ a t, ¬Does m s a t) ∧ stateAfter (m >>= f) s = stateAfter m s := by
  rcases hm : m.run.run s with ⟨e | a, t⟩
  · refine .inr ⟨fun a u h => ?_, ?_⟩
    · cases hm.symm.trans h
    · rw [stateAfter, ExceptT.run_bind, StateT.run_bind, stateAfter, hm]
      rfl
  · exact .inl ⟨a, t, hm, Does.stateAfter_bind hm⟩

/-- What holds behind the first step when it fails, and behind the second one when it is taken. -/
theorem holds_after_bind {P : Compilation δ → Prop} (hm : P (stateAfter m s))
    (hf : ∀ a t, Does m s a t → P (stateAfter (f a) t)) : P (stateAfter (m >>= f) s) := by
  rcases stateAfter_bind m f s with ⟨a, t, hdone, heq⟩ | ⟨-, heq⟩
  · rw [heq]
    exact hf a t hdone
  · rwa [heq]

theorem stateAfter_ahead {f : Cursor → Compile δ β} :
    stateAfter (skipWhite >>= fun _ => getCursor >>= f) s =
      stateAfter (f s.cursor.skipWhite) (move s s.cursor.skipWhite) := by
  rw [(skipWhite_does s).stateAfter_bind, (getCursor_does _).stateAfter_bind, move_cursor]

theorem stateAfter_look {f : Cursor → Compile δ β} : stateAfter (getCursor >>= f) s = stateAfter (f s.cursor) s := rfl

theorem stateAfter_goTo {c : Cursor} {f : Unit → Compile δ β} :
    stateAfter (setCursor c >>= f) s = stateAfter (f ()) (move s c) := rfl

theorem stateAfter_modify {g : Compilation δ → Compilation δ} {f : Unit → Compile δ β} :
    stateAfter (modify g >>= f) s = stateAfter (f ()) (g s) := rfl

theorem stateAfter_moved {g : Cursor → Cursor} {f : Unit → Compile δ β} :
    stateAfter (moveCursor g >>= f) s = stateAfter (f ()) (move s (g s.cursor)) := rfl

/-! ## Reading -/

/-- Only what is read has changed the state, and its lines are counted. -/
structure Counted (s t : Compilation δ) : Prop where
  counts : s.cursor.Counts t.cursor
  positions : t.program.positions = s.program.positions

theorem Counted.rfl : Counted s s := ⟨.rfl, Eq.refl _⟩

theorem Counted.trans (h : Counted s t) (h' : Counted t u) : Counted s u :=
  ⟨h.counts.trans h'.counts, h'.positions.trans h.positions⟩

theorem counted_move {c : Cursor} (h : s.cursor.Counts c) : Counted s (move s c) := ⟨h, rfl⟩

theorem counted_white (s : Compilation δ) : Counted s (move s s.cursor.skipWhite) :=
  counted_move (Cursor.skipWhite_counts _)

theorem name_counted (s : Compilation δ) : Counted s (stateAfter name s) := by
  rw [name, stateAfter_ahead]
  dsimp only
  split
  · exact counted_white s
  · exact (counted_white s).trans (counted_move (Cursor.skip_name_counts _))

theorem expect_counted {wanted : Char} (hwanted : wanted ≠ '\n') (kind : ErrorKind) (s : Compilation δ) :
    Counted s (stateAfter (expect wanted kind) s) := by
  rw [expect, stateAfter_ahead]
  split
  · exact counted_white s
  · rename_i hpeek
    have hpeek : s.cursor.skipWhite.peek = wanted := by simpa using hpeek
    exact (counted_white s).trans (counted_move (Cursor.skip_one_counts (hpeek ▸ hwanted)))

theorem expectDelimiter_counted (s : Compilation δ) : Counted s (stateAfter expectDelimiter s) :=
  expect_counted (by decide) _ s

theorem checkFree_stateAfter (name : String) (s : Compilation δ) : stateAfter (checkFree decls name) s = s := by
  rw [checkFree, (Does.get s).stateAfter_bind]
  extract_lets known
  clear_value known
  split <;> rfl

/-- An expression leaves the cursor where it ends, and so it does if it fails. -/
theorem expression_stateAfter (ending : Char) (s : Compilation δ) :
    let start := s.cursor.skipWhite
    stateAfter (expression ending) s = move s (start.toExpressionEnd ending (start.rest.length + 1) 0 false).1 := by
  dsimp only
  rw [expression, stateAfter_ahead]
  dsimp only
  generalize Cursor.toExpressionEnd _ _ _ _ _ = outcome
  obtain ⟨stop, _ | e⟩ := outcome <;> rfl

theorem expression_counted (ending : Char) (s : Compilation δ) : Counted s (stateAfter (expression ending) s) := by
  rw [expression_stateAfter]
  exact counted_move ((Cursor.skipWhite_counts _).trans (Cursor.toExpressionEnd_counts _ _ _ _ _))

theorem expression_stops {ending : Char} {text : String} (h : Does (expression ending) s text t) :
    t.cursor.peek = ending := by
  have hstate := h.stateAfter
  rw [expression_stateAfter] at hstate
  have h := (getCursor_does _).after ((skipWhite_does s).after h)
  dsimp only [move_cursor] at h
  have hstops := @Cursor.toExpressionEnd_stops ending (s.cursor.skipWhite.rest.length + 1) 0 false s.cursor.skipWhite
  generalize Cursor.toExpressionEnd _ _ _ _ _ = outcome at h hstops hstate
  obtain ⟨stop, _ | e⟩ := outcome
  · rw [← hstate]
    exact hstops rfl
  · have h : Does (throw (.error e)) _ text t := (setCursor_does _ stop).after h
    exact absurd h not_does_throw

theorem label_counted (s : Compilation δ) : Counted s (stateAfter (label decls) s) := by
  refine holds_after_bind (name_counted s) fun name t hname => ?_
  have hread := hname.stateAfter ▸ name_counted s
  refine holds_after_bind (by rwa [checkFree_stateAfter]) fun _ u hfree => ?_
  obtain rfl : t = u := (checkFree_stateAfter name t).symm.trans hfree.stateAfter
  have hdelimiter := hread.trans (expectDelimiter_counted t)
  refine holds_after_bind hdelimiter fun _ v hdone => ?_
  exact (hdone.stateAfter ▸ hdelimiter).trans ⟨.rfl, rfl⟩

theorem elseFollows_counted (s : Compilation δ) : Counted s (stateAfter (elseFollows decls) s) := by
  rw [elseFollows, stateAfter_ahead]
  dsimp only
  split
  · exact counted_white s
  rw [(Does.get _).stateAfter_bind]
  split
  · exact (counted_white s).trans (counted_move (Cursor.skip_name_counts _))
  · exact counted_white s

theorem behindSegment_counts {c : Cursor} (h : isWhite c.peek = false) :
    c.Counts (Compiling.behindSegment c) := by
  unfold Compiling.behindSegment
  cases c.peek.isAlphanum || c.peek == ';' with
  | true => exact Cursor.toDelimiter_counts _ _ _
  | false =>
    simp only [Bool.false_eq_true, if_false]
    have hstop := Cursor.counts_of_advance (Cursor.toDelimiter_counts c.peek (c.advance.rest.length + 1) c.advance)
    split
    · rename_i hdelimiter
      simp only [Bool.not_false, Bool.true_and, beq_iff_eq] at hdelimiter
      exact hstop.trans (Cursor.skip_one_counts (by rw [hdelimiter]; exact Cursor.not_newline h))
    · exact hstop

/-- Behind a segment and white space the text is over, or goes on with another segment. -/
theorem goOn_stateAfter (c : Cursor) (n : Nat) (text : String) (s : Compilation δ) :
    stateAfter (do
        setCursor c
        skipWhite
        let c ← getCursor
        if c.atEnd || c.peek == ';' then return text else segments n text) s =
      if c.skipWhite.atEnd || c.skipWhite.peek == ';' then move s c.skipWhite
      else stateAfter (segments n text) (move s c.skipWhite) := by
  rw [stateAfter_goTo, stateAfter_ahead]
  exact apply_ite (fun m => stateAfter m (move s c.skipWhite)) _ _ _

theorem segments_stateAfter (hend : ¬s.cursor.atEnd = true) (n : Nat) (text : String) :
    let c := (Compiling.behindSegment s.cursor).skipWhite
    ∃ text', stateAfter (segments (n + 1) text) s =
      if c.atEnd || c.peek == ';' then move s c else stateAfter (segments n text') (move s c) := by
  rw [segments, stateAfter_look]
  dsimp only
  rw [if_neg hend]
  exact ⟨_, goOn_stateAfter (Compiling.behindSegment s.cursor) n _ s⟩

/-- Segments start and end where there is no white space. -/
theorem segments_counted (hs : isWhite s.cursor.peek = false) (n : Nat) (text : String) :
    Counted s (stateAfter (segments n text) s) ∧ isWhite (stateAfter (segments n text) s).cursor.peek = false := by
  induction n generalizing s text with
  | zero => exact ⟨.rfl, hs⟩
  | succ n ih =>
    by_cases hend : s.cursor.atEnd = true
    · have hover : stateAfter (segments (n + 1) text) s = move s s.cursor.advance := by
        rw [segments, stateAfter_look]
        dsimp only
        rw [if_pos hend]
        rfl
      have hnil : s.cursor.rest = [] := List.isEmpty_iff.mp hend
      rw [hover]
      refine ⟨counted_move (Cursor.advance_counts _), ?_⟩
      change isWhite (Char.ofNat (s.cursor.rest.tail.getD 0 0).toNat) = false
      rw [hnil]
      rfl
    obtain ⟨text', heq⟩ := segments_stateAfter hend n text
    rw [heq]
    have hcounts := (behindSegment_counts hs).trans (Cursor.skipWhite_counts _)
    have hwhite := (Cursor.skipWhite_stops (Compiling.behindSegment s.cursor)).1
    clear heq
    generalize (Compiling.behindSegment s.cursor).skipWhite = c at hcounts hwhite ⊢
    split
    · exact ⟨counted_move hcounts, hwhite⟩
    · obtain ⟨hmore, hstops⟩ := ih (s := move s c) hwhite text'
      exact ⟨(counted_move hcounts).trans hmore, hstops⟩

theorem externalText_counted (s : Compilation δ) : Counted s (stateAfter externalText s) := by
  rw [externalText, stateAfter_ahead]
  have hsegments := segments_counted (s := move s s.cursor.skipWhite) (Cursor.skipWhite_stops s.cursor).1
    (s.cursor.skipWhite.rest.length + 1) ""
  refine holds_after_bind ((counted_white s).trans hsegments.1) fun text t hdone => ?_
  rw [hdone.stateAfter] at hsegments
  obtain ⟨hscan, hstops⟩ := hsegments
  have hscan := (counted_white s).trans hscan
  rw [stateAfter_look]
  split
  · exact hscan
  · exact hscan.trans (counted_move (Cursor.skip_one_counts (Cursor.not_newline hstops)))

theorem externalStatement_counted (x : ξ) (s : Compilation δ) :
    Counted s (stateAfter (externalStatement decls x) s) := by
  have htext := externalText_counted s
  refine holds_after_bind htext fun text t hdone => ?_
  rw [hdone.stateAfter] at htext
  rw [(Does.get t).stateAfter_bind]
  dsimp only
  -- handling the statement changes what is declared, whether it is accepted or not
  refine htext.trans (holds_after_bind ⟨.rfl, rfl⟩ fun _ u hset => ?_)
  obtain rfl := hset.stateAfter
  split <;> exact ⟨.rfl, rfl⟩

/-! ## Emitting -/

/-- Besides, an instruction has been added with a given position, or none. -/
structure Notes (pos : SourcePos) (s t : Compilation δ) : Prop where
  counts : s.cursor.Counts t.cursor
  positions : t.program.positions = s.program.positions ∨ t.program.positions = s.program.positions ++ [pos]

theorem Counted.notes (h : Counted s t) : Notes pos s t := ⟨h.counts, .inl h.positions⟩

theorem emit_positions (opcode : Opcode) (target : Option Int) (text : String) (pos : SourcePos) (s : Compilation δ) :
    (stateAfter (emit opcode target text pos) s).program.positions = s.program.positions ++ [pos] := List.map_append

theorem Counted.emit_notes (h : Counted s t) (opcode : Opcode) (target : Option Int) (text : String) :
    Notes pos s (stateAfter (emit opcode target text pos) t) where
  counts := h.counts
  positions := .inr ((emit_positions opcode target text pos t).trans (by rw [h.positions]))

theorem condition_notes (pos : SourcePos) (s : Compilation δ) : Notes pos s (stateAfter (condition pos) s) := by
  have hopen := expect_counted (show '(' ≠ '\n' by decide) .expectedLeftParenthesis s
  refine holds_after_bind hopen.notes fun _ t hdone => ?_
  rw [hdone.stateAfter] at hopen
  have hread := hopen.trans (expression_counted ')' t)
  refine holds_after_bind hread.notes fun text u hdone => ?_
  rw [hdone.stateAfter] at hread
  -- the parenthesis is skipped without being looked at
  have hclose := Cursor.skip_one_counts (c := u.cursor) (by rw [expression_stops hdone]; decide)
  exact (hread.trans (counted_move hclose)).emit_notes _ _ _

/-- Reading up to the semicolon and emitting what was read. -/
theorem delimited_notes (h : Counted s t) (opcode : Opcode) (target : Option Int) (text : String) :
    Notes pos s (stateAfter (do
      expectDelimiter
      let _ ← emit opcode target text pos) t) := by
  have hscan := h.trans (expectDelimiter_counted t)
  refine holds_after_bind hscan.notes fun _ u hdone => ?_
  rw [hdone.stateAfter] at hscan
  exact hscan.emit_notes _ _ _

theorem expressionStatement_notes (pos : SourcePos) (s : Compilation δ) :
    Notes pos s (stateAfter (expressionStatement pos) s) := by
  have hread := expression_counted ';' s
  refine holds_after_bind hread.notes fun text t hdone => ?_
  rw [hdone.stateAfter] at hread
  exact delimited_notes hread _ _ _

/-- An expression that starts with a name takes some of the source, even if it fails. -/
theorem expressionStatement_before (h : isNameChar s.cursor.peek = true) (pos : SourcePos) :
    s.cursor.Before (stateAfter (expressionStatement pos) s).cursor := by
  have hread : s.cursor.Before (stateAfter (expression ';') s).cursor := by
    rw [expression_stateAfter, Cursor.skipWhite_of_name h]
    exact Cursor.toExpressionEnd_before h
  refine holds_after_bind (P := fun t => s.cursor.Before t.cursor) hread fun text t hdone => ?_
  rw [hdone.stateAfter] at hread
  have hnotes : Notes pos t _ := delimited_notes .rfl .calc none text
  exact hread.trans hnotes.counts.upto

end Compiler

end HostScript
