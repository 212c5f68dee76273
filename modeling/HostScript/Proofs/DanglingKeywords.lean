import HostScript.Proofs.SourceSlices
/-!
# Keywords that the source ends with

Compiling stops beyond the source only if it comes to a statement that starts with an external keyword, with nothing
but white space behind it. Where it comes to is told by the structure of what was compiled before: from a statement
to those in its block, to its body or to its `else`, and from there on.
-/

set_option autoImplicit false

namespace HostScript

open HostScript.Text

namespace Compiler

variable {ξ δ : Type} (decls : Declarations ξ δ)

/-! ## Where compiling comes to -/

/-- A statement, nested as deep as the source that is left is long. -/
def statementHere : Compile δ Unit := do
  statementAt decls ((← getCursor).rest.length + 1)

/-- The statement at the cursor starts with a name, which has been read in the second state, and what it means. -/
def Starts (s : Compilation δ) (m : Meaning ξ) (t : Compilation δ) : Prop :=
  isNameStart s.cursor.skipWhite.peek ∧
    ∃ first, Does name (move s s.cursor.skipWhite) first t ∧ decls.meaning t.declared first = m

/-- An external keyword stands at the cursor, and nothing behind it. -/
def Dangles (s : Compilation δ) : Prop :=
  ∃ x t, Starts decls s (.external x) t ∧ t.cursor.skipWhite.atEnd = true

/-- A statement stands at the cursor before the brace that closes the block. -/
def inBlock (c : Cursor) : Bool := !c.atEnd && c.peek != '\x7d'

def inSource (c : Cursor) : Bool := !c.atEnd

/-- From the beginning of a statement to the beginning of one behind it, as long as the sequence goes on. -/
inductive Sequel (goesOn : Cursor → Bool) : Compilation δ → Compilation δ → Prop
  | first (s : Compilation δ) : Sequel goesOn s s
  | next {s t u : Compilation δ} : Does (statementHere decls) s () t → goesOn t.cursor.skipWhite = true →
    Sequel goesOn (move t t.cursor.skipWhite) u → Sequel goesOn s u

/-- An `if` up to its `else`, and whether there is one. -/
def upToElse (pos : SourcePos) : Compile δ Bool := do
  let test ← condition pos
  statementHere decls
  setTarget test (← nextIp)
  let _ ← emit .jump none "" (← getCursor).pos
  elseFollows decls

/-- From the beginning of a statement to the beginning of one inside of it. -/
inductive Reaches : Compilation δ → Compilation δ → Prop
  | here (s : Compilation δ) : Reaches s s
  | block {s t u : Compilation δ} : s.cursor.skipWhite.peek = '\x7b' →
    inBlock (s.cursor.skipWhite.skip 1).skipWhite = true →
    Sequel decls inBlock (move s (s.cursor.skipWhite.skip 1).skipWhite) t → Reaches t u → Reaches s u
  | body {s t u v : Compilation δ} {k : Keyword} {test : Nat} : Starts decls s (.keyword k) t → k = .if_ ∨ k = .while_ →
    Does (condition s.cursor.skipWhite.pos) t test u → Reaches u v → Reaches s v
  | other {s t u v : Compilation δ} : Starts decls s (.keyword .if_) t →
    Does (upToElse decls s.cursor.skipWhite.pos) t true u → Reaches u v → Reaches s v

/-! ## Stopping beyond the source -/

variable {decls} {α β : Type} {statement : Compile δ Unit} {s t u : Compilation δ} {m : Compile δ α} {f : α → Compile δ β}

/-- From the state the step ends beyond the source. -/
def Strays (m : Compile δ α) (s : Compilation δ) : Prop := (m.run.run s).1 = .error .beyondSource

theorem Does.not_strays {a : α} (h : Does m s a t) : ¬Strays m s := by
  rw [Strays, show m.run.run s = _ from h]
  exact nofun

theorem not_strays_fail (kind : ErrorKind) (reason : String) (s : Compilation δ) :
    ¬Strays (fail kind reason : Compile δ α) s := nofun

theorem not_strays_pure (a : α) (s : Compilation δ) : ¬Strays (pure a) s := (Does.pure a s).not_strays

theorem not_strays_setCursor (c : Cursor) (s : Compilation δ) : ¬Strays (setCursor c) s := (setCursor_does s c).not_strays

theorem not_strays_emit (opcode : Opcode) (target : Option Int) (text : String) (pos : SourcePos) (s : Compilation δ) :
    ¬Strays (emit opcode target text pos) s := (Compiling.emit_does opcode target text pos s).not_strays

theorem strays_bind : Strays (m >>= f) s ↔ Strays m s ∨ ∃ a t, Does m s a t ∧ Strays (f a) t := by
  rw [Strays, ExceptT.run_bind, StateT.run_bind]
  rcases hm : m.run.run s with ⟨e | a, t⟩
  · have hnone : ¬∃ a t, Does m s a t ∧ Strays (f a) t := by
      rintro ⟨a, u, hdone, -⟩
      cases hdone.symm.trans hm
    rw [or_iff_left hnone, Strays, hm]
    exact ⟨fun h => congrArg Except.error (Except.error.inj h), fun h => congrArg Except.error (Except.error.inj h)⟩
  · have hno : ¬Strays m s := Does.not_strays hm
    rw [or_iff_right hno]
    constructor
    · exact fun h => ⟨a, t, hm, h⟩
    · rintro ⟨b, u, hdone, h⟩
      obtain ⟨rfl, rfl⟩ := Does.unique hm hdone
      exact h

theorem Does.strays {a : α} (h : Does m s a t) : Strays (m >>= f) s ↔ Strays (f a) t := by
  rw [strays_bind, or_iff_right h.not_strays]
  constructor
  · rintro ⟨b, u, hdone, hf⟩
    obtain ⟨rfl, rfl⟩ := h.unique hdone
    exact hf
  · exact fun hf => ⟨a, t, h, hf⟩

/-- Nothing strays before the second step. -/
theorem strays_second (hm : ¬Strays m s) : Strays (m >>= f) s ↔ ∃ a t, Does m s a t ∧ Strays (f a) t := by
  rw [strays_bind, or_iff_right hm]

theorem not_strays_bind (hm : ¬Strays m s) (hf : ∀ a t, Does m s a t → ¬Strays (f a) t) : ¬Strays (m >>= f) s := by
  rw [strays_second hm]
  rintro ⟨a, t, hdone, h⟩
  exact hf a t hdone h

theorem not_strays_ite {p : Prop} [Decidable p] {n : Compile δ α} (hm : p → ¬Strays m s) (hn : ¬p → ¬Strays n s) :
    ¬Strays (if p then m else n) s := by
  split
  · exact hm ‹_›
  · exact hn ‹_›

theorem strays_white {f : Unit → Compile δ β} :
    Strays (skipWhite >>= f) s ↔ Strays (f ()) (move s s.cursor.skipWhite) := (skipWhite_does s).strays

theorem strays_look {f : Cursor → Compile δ β} : Strays (getCursor >>= f) s ↔ Strays (f s.cursor) s :=
  (getCursor_does s).strays

/-- White space is skipped before the compiler looks where it is. -/
theorem strays_ahead {f : Cursor → Compile δ β} :
    Strays (skipWhite >>= fun _ => getCursor >>= f) s ↔
      Strays (f s.cursor.skipWhite) (move s s.cursor.skipWhite) := by
  rw [strays_white, strays_look, move_cursor]

theorem strays_goTo {c : Cursor} {f : Unit → Compile δ β} : Strays (setCursor c >>= f) s ↔ Strays (f ()) (move s c) :=
  (setCursor_does s c).strays

theorem strays_modify {g : Compilation δ → Compilation δ} {f : Unit → Compile δ β} :
    Strays (modify g >>= f) s ↔ Strays (f ()) (g s) := Does.strays (.modify _ _)

/-! ## Reading -/

theorem not_strays_failing {kind : ErrorKind} {reason : String} : ¬Strays (fail kind reason >>= f) s :=
  not_strays_bind (not_strays_fail _ _ _) fun _ _ h => absurd h not_does_fail

theorem not_strays_name (s : Compilation δ) : ¬Strays name s := by
  rw [name, strays_ahead]
  refine not_strays_ite (fun _ => not_strays_failing) fun _ => ?_
  exact not_strays_bind (not_strays_setCursor _ _) fun _ _ _ => not_strays_pure _ _

theorem not_strays_expect (wanted : Char) (kind : ErrorKind) (s : Compilation δ) : ¬Strays (expect wanted kind) s := by
  rw [expect, strays_ahead]
  exact not_strays_ite (fun _ => not_strays_failing) fun _ => (Does.modify _ _).not_strays

theorem not_strays_expression (ending : Char) (s : Compilation δ) : ¬Strays (expression ending) s := by
  rw [expression, strays_ahead]
  dsimp only
  generalize Cursor.toExpressionEnd _ _ _ _ _ = outcome
  obtain ⟨stop, _ | e⟩ := outcome
  · exact not_strays_bind (not_strays_setCursor _ _) fun _ _ _ => not_strays_pure _ _
  · exact not_strays_bind (not_strays_setCursor _ _) fun _ _ _ => nofun

theorem not_strays_condition (pos : SourcePos) (s : Compilation δ) : ¬Strays (condition pos) s := by
  refine not_strays_bind (not_strays_expect _ _ _) fun _ t _ => ?_
  refine not_strays_bind (not_strays_expression _ _) fun text u _ => ?_
  exact not_strays_bind (Does.modify _ _).not_strays fun _ v _ => not_strays_emit _ _ _ _ _

theorem not_strays_expressionStatement (pos : SourcePos) (s : Compilation δ) :
    ¬Strays (expressionStatement pos) s := by
  refine not_strays_bind (not_strays_expression _ _) fun text t _ => ?_
  refine not_strays_bind (not_strays_expect _ _ _) fun _ u _ => ?_
  exact not_strays_bind (not_strays_emit _ _ _ _ _) fun _ _ _ => not_strays_pure _ _

theorem not_strays_checkFree (name : String) (s : Compilation δ) : ¬Strays (checkFree decls name) s := by
  rw [checkFree, (Does.get s).strays]
  exact not_strays_ite (fun _ => not_strays_fail _ _ _) fun _ => not_strays_pure _ _

theorem not_strays_label (s : Compilation δ) : ¬Strays (label decls) s := by
  refine not_strays_bind (not_strays_name _) fun name t _ => ?_
  refine not_strays_bind (not_strays_checkFree _ _) fun _ u _ => ?_
  exact not_strays_bind (not_strays_expect _ _ _) fun _ v _ => (Does.modify _ _).not_strays

theorem not_strays_declaration (ty : ValueType) (s : Compilation δ) : ¬Strays (declaration decls ty) s := by
  rw [declaration, strays_ahead]
  refine not_strays_bind (not_strays_name _) fun name t _ => not_strays_bind (not_strays_checkFree _ _) fun _ u _ => ?_
  rw [strays_modify, strays_ahead]
  refine not_strays_ite (fun _ => ?_) fun _ => not_strays_expect _ _ _
  rw [moveCursor, strays_modify]
  exact not_strays_expressionStatement _ _

theorem not_strays_elseFollows (s : Compilation δ) : ¬Strays (elseFollows decls) s := by
  rw [elseFollows, strays_ahead]
  refine not_strays_ite (fun _ => not_strays_pure _ _) fun _ => ?_
  rw [(Does.get _).strays]
  generalize decls.meaning _ _ = meaning
  cases meaning with
  | keyword k =>
    cases k with
    | else_ => exact not_strays_bind (not_strays_setCursor _ _) fun _ _ _ => not_strays_pure _ _
    | _ => exact not_strays_pure _ _
  | _ => exact not_strays_pure _ _

/-! ## The text of an external statement -/

theorem not_strays_goOn {c : Cursor} {n : Nat} {text : String}
    (h : c.skipWhite.atEnd = false → ¬Strays (segments n text) (move s c.skipWhite)) :
    ¬Strays (do
      setCursor c
      skipWhite
      let c ← getCursor
      if c.atEnd || c.peek == ';' then return text else segments n text) s := by
  rw [strays_goTo, strays_ahead]
  refine not_strays_ite (fun _ => not_strays_pure _ _) fun hgo => h ?_
  rw [Bool.or_eq_true, not_or] at hgo
  exact Bool.eq_false_iff.mpr hgo.1

theorem not_strays_segments (hs : s.cursor.atEnd = false) (n : Nat) (text : String) : ¬Strays (segments n text) s := by
  induction n generalizing s text with
  | zero => exact not_strays_pure _ _
  | succ n ih =>
    rw [segments, strays_look]
    dsimp only
    rw [if_neg (by simp [hs])]
    refine not_strays_goOn (c := Compiling.behindSegment s.cursor) fun hmore => ih ?_ _
    rwa [move_cursor]

theorem strays_segments (hs : s.cursor.atEnd = true) (n : Nat) (text : String) : Strays (segments (n + 1) text) s := by
  rw [segments, strays_look]
  dsimp only
  rw [if_pos hs]
  rfl

/-- The text strays if there is nothing left for its first segment. -/
theorem externalText_strays : Strays externalText s ↔ s.cursor.skipWhite.atEnd = true := by
  rw [externalText, strays_ahead]
  have hrest (text : String) (t : Compilation δ) : ¬Strays (do
      if (← getCursor).atEnd then fail .unexpectedEnd "end-of-script"
      moveCursor (·.skip 1)
      return trimEnd text) t := by
    rw [strays_look]
    refine not_strays_ite (fun _ => not_strays_failing) fun _ => ?_
    exact not_strays_bind (Does.modify _ _).not_strays fun _ _ _ => not_strays_pure _ _
  constructor
  · intro h
    by_contra hend
    exact not_strays_bind (not_strays_segments (Bool.eq_false_iff.mpr hend) _ _) (fun text t _ => hrest text t) h
  · exact fun hend => strays_bind.mpr (.inl (strays_segments (by exact hend) _ _))

theorem externalStatement_strays {x : ξ} :
    Strays (externalStatement decls x) s ↔ s.cursor.skipWhite.atEnd = true := by
  rw [externalStatement, strays_bind, externalText_strays, or_iff_left]
  rintro ⟨text, t, -, h⟩
  refine absurd h ?_
  rw [(Does.get t).strays]
  refine not_strays_bind (Does.modify _ _).not_strays fun _ u _ => ?_
  exact not_strays_ite (fun _ => not_strays_fail _ _ _) fun _ => not_strays_pure _ _

/-! ## Nested statements -/

theorem statementHere_run (s : Compilation δ) :
    (statementHere decls).run.run s = (statementAt decls (s.cursor.rest.length + 1)).run.run s := by
  rw [statementHere, ExceptT.run_bind, StateT.run_bind, show getCursor.run.run s = (.ok s.cursor, s) from rfl]
  rfl

theorem statementHere_ends (decls : Declarations ξ δ) (size : Nat) :
    Compiling.StatementsBelow decls size (statementHere decls) := by
  intro s _
  rw [Compiling.Ends, statementHere_run]
  exact Compiling.statementsBelow decls (s.cursor.rest.length + 1) s (Nat.lt_succ_self _)

theorem statementHere_forward (decls : Declarations ξ δ) : Compiling.Forward (statementHere decls) where
  upto := by
    intro s t h
    rw [Does, statementHere_run] at h
    exact (Compiling.statementAt_forward decls _).upto h
  before := by
    intro s t h
    rw [Does, statementHere_run] at h
    exact (Compiling.statementAt_forward decls _).before h

/-- A statement is made of statements. -/
theorem statementHere_eq (s : Compilation δ) :
    (statementHere decls).run.run s = (statementWith decls (statementHere decls)).run.run s :=
  Comes.unique (statementHere_ends decls _ s (Nat.lt_succ_self _))
    (Compiling.statementWith_ends (statementHere_ends decls _) (statementHere_forward decls) (Nat.le_refl _))

/-- A whole source is a sequence of them. -/
theorem statements_eq {n : Nat} (h : s.cursor.rest.length < n) :
    (statements (statementAt decls n) n).run.run s = (statements (statementHere decls) n).run.run s :=
  Comes.unique
    (Compiling.statements_ends (Compiling.statementsBelow decls n) (Compiling.statementAt_forward decls n) h h)
    (Compiling.statements_ends (statementHere_ends decls n) (statementHere_forward decls) h h)

/-! ## Sequences -/

theorem Sequel.upto {goesOn : Cursor → Bool} (h : Sequel decls goesOn s t) : s.cursor.Upto t.cursor := by
  induction h with
  | first => exact .rfl
  | next hdone _ _ ih => exact ((statementHere_forward decls).upto hdone).trans ((Cursor.skipWhite_upto _).trans ih)

/-- A block strays with one of its statements. -/
theorem block_strays {n : Nat} (hn : s.cursor.rest.length < n) :
    Strays (block (statementHere decls) n) s ↔ inBlock s.cursor.skipWhite = true ∧
      ∃ t, Sequel decls inBlock (move s s.cursor.skipWhite) t ∧ Strays (statementHere decls) t := by
  induction n generalizing s with
  | zero => cases hn
  | succ n ih =>
    rw [block, strays_ahead]
    -- at the end and at the brace the block is over, and it does not go on either
    by_cases hend : s.cursor.skipWhite.atEnd
    · rw [if_pos hend, inBlock, hend]
      exact iff_of_false not_strays_failing (by simp)
    by_cases hclose : s.cursor.skipWhite.peek == '\x7d'
    · rw [if_neg hend, if_pos hclose, inBlock, bne, hclose]
      exact iff_of_false (not_strays_setCursor _ _) (by simp)
    rw [if_neg hend, if_neg hclose, strays_bind]
    have hgo : inBlock s.cursor.skipWhite = true := by simp_all [inBlock]
    -- the statement has taken something, so the steps suffice for the rest of the block
    have hshort {t : Compilation δ} (h : Does (statementHere decls) (move s s.cursor.skipWhite) () t) :
        t.cursor.rest.length < n := by
      have hend : s.cursor.skipWhite.atEnd = false := Bool.eq_false_iff.mpr hend
      have htaken := ((statementHere_forward decls).before h hend).rest_lt hend
      have hwhite := (Cursor.skipWhite_upto s.cursor).rest_le
      rw [move_cursor] at htaken
      omega
    constructor
    · rintro (hfirst | ⟨_, t, hdone, hrest⟩)
      · exact ⟨hgo, _, .first _, hfirst⟩
      · obtain ⟨hmore, u, hsequel, hu⟩ := (ih (hshort hdone)).mp hrest
        exact ⟨hgo, u, .next hdone hmore hsequel, hu⟩
    · rintro ⟨-, u, hsequel, hu⟩
      cases hsequel with
      | first => exact .inl hu
      | next hdone hmore hsequel => exact .inr ⟨(), _, hdone, (ih (hshort hdone)).mpr ⟨hmore, u, hsequel, hu⟩⟩

/-- A source strays with one of its statements. -/
theorem statements_strays {n : Nat} (hn : s.cursor.rest.length < n) :
    Strays (statements (statementHere decls) n) s ↔
      ∃ t, Sequel decls inSource s t ∧ Strays (statementHere decls) t := by
  induction n generalizing s with
  | zero => cases hn
  | succ n ih =>
    have hrest {t : Compilation δ} (hdone : Does (statementHere decls) s () t) :
        Strays (do
          skipWhite
          if (← getCursor).atEnd then return
          statements (statementHere decls) n) t ↔ inSource t.cursor.skipWhite = true ∧
            ∃ u, Sequel decls inSource (move t t.cursor.skipWhite) u ∧ Strays (statementHere decls) u := by
      rw [strays_ahead]
      by_cases hend : t.cursor.skipWhite.atEnd
      · rw [if_pos hend, inSource, hend]
        exact iff_of_false (not_strays_pure _ _) (by simp)
      have hwhite := Cursor.skipWhite_upto t.cursor
      have hstart : s.cursor.atEnd = false :=
        Compiling.not_atEnd_of_upto (((statementHere_forward decls).upto hdone).trans hwhite) (Bool.eq_false_iff.mpr hend)
      have htaken := (((statementHere_forward decls).before hdone hstart).trans hwhite).rest_lt hstart
      have hgo : inSource t.cursor.skipWhite = true := by simp_all [inSource]
      rw [if_neg hend, ih (by rw [move_cursor]; omega), and_iff_right hgo]
    rw [statements, strays_bind]
    constructor
    · rintro (hfirst | ⟨_, t, hdone, h⟩)
      · exact ⟨_, .first _, hfirst⟩
      · obtain ⟨hmore, u, hsequel, hu⟩ := (hrest hdone).mp h
        exact ⟨u, .next hdone hmore hsequel, hu⟩
    · rintro ⟨u, hsequel, hu⟩
      cases hsequel with
      | first => exact .inl hu
      | next hdone hmore hsequel => exact .inr ⟨(), _, hdone, (hrest hdone).mpr ⟨hmore, u, hsequel, hu⟩⟩

/-! ## Bodies -/

theorem whileStatement_strays {pos : SourcePos} :
    Strays (whileStatement (statementHere decls) pos) s ↔
      ∃ test t, Does (condition pos) s test t ∧ Strays (statementHere decls) t := by
  rw [whileStatement, strays_second (not_strays_condition _ _)]
  refine exists_congr fun test => exists_congr fun t => and_congr_right fun _ => ?_
  rw [strays_bind, or_iff_left]
  rintro ⟨_, u, -, h⟩
  exact absurd h nofun

/-- An `if` strays with what it tests for, or with what it does else. -/
theorem ifStatement_strays {pos : SourcePos} :
    Strays (ifStatement decls (statementHere decls) pos) s ↔
      (∃ test t, Does (condition pos) s test t ∧ Strays (statementHere decls) t) ∨
        ∃ t, Does (upToElse decls pos) s true t ∧ Strays (statementHere decls) t := by
  -- behind the `else` only its statement can stray
  have hother {test skip : Nat} {follows : Bool} {t : Compilation δ} :
      Strays (if follows then do
          statementHere decls
          setTarget test (skip + 1)
          setTarget skip (← nextIp)
        else return) t ↔ follows = true ∧ Strays (statementHere decls) t := by
    cases follows with
    | false => exact iff_of_false (not_strays_pure _ _) (by simp)
    | true =>
      rw [if_pos rfl, strays_bind, or_iff_left, and_iff_right rfl]
      rintro ⟨_, u, -, h⟩
      exact absurd h nofun
  constructor
  · intro h
    rw [ifStatement, strays_second (not_strays_condition _ _)] at h
    obtain ⟨test, t, hcond, h⟩ := h
    rcases strays_bind.mp h with hthen | ⟨_, u, hthen, h⟩
    · exact .inl ⟨test, t, hcond, hthen⟩
    rw [(Compiling.nextIp_does u).strays, (Compiling.setTarget_does _ _ _).strays, strays_look,
      (Compiling.emit_does _ _ _ _ _).strays, strays_second (not_strays_elseFollows _)] at h
    obtain ⟨follows, v, helse, h⟩ := h
    obtain ⟨rfl, hstrays⟩ := hother.mp h
    refine .inr ⟨v, hcond.bind (hthen.bind ?_), hstrays⟩
    refine (Compiling.nextIp_does u).bind ((Compiling.setTarget_does _ _ _).bind ?_)
    exact (getCursor_does _).bind ((Compiling.emit_does _ _ _ _ _).bind helse)
  · rintro (⟨test, t, hcond, h⟩ | ⟨v, hupTo, h⟩)
    · exact strays_bind.mpr (.inr ⟨test, t, hcond, strays_bind.mpr (.inl h)⟩)
    · obtain ⟨test, t, hcond, hupTo⟩ := hupTo.of_bind
      obtain ⟨_, u, hthen, hupTo⟩ := hupTo.of_bind
      have helse := (Compiling.emit_does _ _ _ _ _).after ((getCursor_does _).after
        ((Compiling.setTarget_does _ _ _).after ((Compiling.nextIp_does u).after hupTo)))
      refine strays_bind.mpr (.inr ⟨test, t, hcond, strays_bind.mpr (.inr ⟨(), u, hthen, ?_⟩)⟩)
      rw [(Compiling.nextIp_does u).strays, (Compiling.setTarget_does _ _ _).strays, strays_look,
        (Compiling.emit_does _ _ _ _ _).strays]
      exact strays_bind.mpr (.inr ⟨true, v, helse, hother.mpr ⟨rfl, h⟩⟩)

theorem keyword_strays {k : Keyword} {pos : SourcePos} :
    Strays (keyword decls (statementHere decls) k pos) s ↔
      ((k = .if_ ∨ k = .while_) ∧ ∃ test t, Does (condition pos) s test t ∧ Strays (statementHere decls) t) ∨
        k = .if_ ∧ ∃ t, Does (upToElse decls pos) s true t ∧ Strays (statementHere decls) t := by
  have hemits (opcode : Opcode) (target : Option Int) (text : String) (t : Compilation δ) :
      ¬Strays (do
        expectDelimiter
        let _ ← emit opcode target text pos) t :=
    not_strays_bind (not_strays_expect _ _ _) fun _ _ _ =>
      not_strays_bind (not_strays_emit _ _ _ _ _) fun _ _ _ => not_strays_pure _ _
  cases k with
  | if_ =>
    rw [keyword, ifStatement_strays]
    simp
  | while_ =>
    rw [keyword, whileStatement_strays]
    simp
  | break_ | continue_ | return_ => exact iff_of_false (hemits _ _ _ _) (by simp)
  | goto | gosub =>
    exact iff_of_false (not_strays_bind (not_strays_name _) fun _ _ _ => hemits _ _ _ _) (by simp)
  | else_ | external => exact iff_of_false (not_strays_fail _ _ _) (by simp)

/-! ## Statements -/

/-- The characters that start other statements start no names. -/
theorem other_of_start {c : Cursor} (hstart : isNameStart c.peek = true) :
    ¬c.atEnd = true ∧ ¬(c.peek == ';') = true ∧ ¬(c.peek == '\x7b') = true ∧ ¬(c.peek == ':') = true := by
  have hother {a : Char} (ha : isNameStart a = false) : ¬(c.peek == a) = true := by
    intro hpeek
    rw [beq_iff_eq.mp hpeek, ha] at hstart
    cases hstart
  refine ⟨?_, hother (by decide), hother (by decide), hother (by decide)⟩
  rw [Cursor.not_atEnd_of_peek fun hnul => hother (a := '\x00') (by decide) (beq_iff_eq.mpr hnul)]
  exact Bool.false_ne_true

/-- A statement that starts with a name strays with what the name means. -/
theorem named_strays (hstart : isNameStart s.cursor.skipWhite.peek = true) :
    Strays (statementHere decls) s ↔ Dangles decls s ∨
      ∃ k t, Starts decls s (.keyword k) t ∧
        Strays (keyword decls (statementHere decls) k s.cursor.skipWhite.pos) t := by
  obtain ⟨hend, hsemi, hbrace, hcolon⟩ := other_of_start hstart
  rw [Strays, statementHere_eq, ← Strays, statementWith, strays_ahead, if_neg hend, if_neg hsemi, if_neg hbrace,
    if_neg hcolon, if_pos hstart, strays_second (not_strays_name _)]
  constructor
  · rintro ⟨first, t, hname, h⟩
    rw [(Does.get t).strays] at h
    generalize hm : decls.meaning t.declared first = m at h
    cases m with
    | external x => exact .inl ⟨x, t, ⟨hstart, first, hname, hm⟩, externalStatement_strays.mp h⟩
    | keyword k => exact .inr ⟨k, t, ⟨hstart, first, hname, hm⟩, h⟩
    | unknown | reserved => exact absurd h (not_strays_fail _ _ _)
    | typedef ty => exact absurd h (not_strays_declaration _ _)
    | expression =>
      dsimp only at h
      rw [strays_goTo] at h
      exact absurd h (not_strays_expressionStatement _ _)
  · rintro (⟨x, t, ⟨-, first, hname, hm⟩, hdangles⟩ | ⟨k, t, ⟨-, first, hname, hm⟩, h⟩)
    · refine ⟨first, t, hname, ?_⟩
      rw [(Does.get t).strays, hm]
      exact externalStatement_strays.mpr hdangles
    · refine ⟨first, t, hname, ?_⟩
      rw [(Does.get t).strays, hm]
      exact h

theorem braced_strays (hbrace : s.cursor.skipWhite.peek = '\x7b') :
    Strays (statementHere decls) s ↔ inBlock (s.cursor.skipWhite.skip 1).skipWhite = true ∧
      ∃ t, Sequel decls inBlock (move s (s.cursor.skipWhite.skip 1).skipWhite) t ∧ Strays (statementHere decls) t := by
  have hend : s.cursor.skipWhite.atEnd = false := Cursor.not_atEnd_of_peek (by rw [hbrace]; decide)
  have hshort := (Cursor.skip_before s.cursor.skipWhite Nat.one_pos).rest_lt hend
  rw [Strays, statementHere_eq, ← Strays, statementWith, strays_ahead, if_neg (by rw [hend]; decide),
    if_neg (by rw [hbrace]; decide), if_pos (by rw [hbrace]; decide), strays_goTo,
    block_strays (Nat.lt_succ_of_lt hshort)]
  rfl

/-- What starts neither with a name nor with a brace has no statements inside of it. -/
theorem not_strays_plain (hstart : isNameStart s.cursor.skipWhite.peek = false)
    (hbrace : s.cursor.skipWhite.peek ≠ '\x7b') : ¬Strays (statementHere decls) s := by
  rw [Strays, statementHere_eq, ← Strays, statementWith, strays_ahead]
  refine not_strays_ite (fun _ => not_strays_pure _ _) fun _ => not_strays_ite (fun _ => not_strays_setCursor _ _) fun _ => ?_
  refine not_strays_ite (fun h => absurd (beq_iff_eq.mp h) hbrace) fun _ => not_strays_ite (fun _ => ?_) fun _ => ?_
  · rw [strays_goTo]
    exact not_strays_label _
  · exact not_strays_ite (fun h => absurd (hstart.symm.trans h) Bool.false_ne_true) fun _ => not_strays_fail _ _ _

/-- A name takes something of the source. -/
theorem Starts.rest_lt {m : Meaning ξ} (h : Starts decls s m t) : t.cursor.rest.length < s.cursor.rest.length := by
  obtain ⟨hstart, first, hname, -⟩ := h
  have hend : s.cursor.skipWhite.atEnd = false :=
    Cursor.not_atEnd_of_peek fun hnul => absurd (hnul ▸ hstart) (by decide)
  exact Nat.lt_of_lt_of_le ((name_taken hname).1.rest_lt hend) (Cursor.skipWhite_upto _).rest_le

theorem upToElse_upto {pos : SourcePos} {follows : Bool} (h : Does (upToElse decls pos) s follows t) :
    s.cursor.Upto t.cursor := by
  obtain ⟨test, u, hcond, h⟩ := h.of_bind
  obtain ⟨_, v, hthen, h⟩ := h.of_bind
  have helse := (Compiling.emit_does _ _ _ _ _).after ((getCursor_does _).after
    ((Compiling.setTarget_does _ _ _).after ((Compiling.nextIp_does v).after h)))
  have hbody := (Compiling.condition_upto hcond).trans ((statementHere_forward decls).upto hthen)
  exact hbody.trans (elseFollows_read helse).1

/-- A statement in a block has less of the source before it. -/
theorem Sequel.rest_lt {goesOn : Cursor → Bool} (hbrace : s.cursor.skipWhite.peek = '\x7b')
    (h : Sequel decls goesOn (move s (s.cursor.skipWhite.skip 1).skipWhite) t) :
    t.cursor.rest.length < s.cursor.rest.length := by
  have hend : s.cursor.skipWhite.atEnd = false := Cursor.not_atEnd_of_peek (by rw [hbrace]; decide)
  have hrest := h.upto
  rw [move_cursor] at hrest
  have htaken := (Cursor.skip_before s.cursor.skipWhite Nat.one_pos).trans ((Cursor.skipWhite_upto _).trans hrest)
  exact Nat.lt_of_lt_of_le (htaken.rest_lt hend) (Cursor.skipWhite_upto _).rest_le

/-- By induction on what is left of the source: a statement that strays is a keyword that nothing follows, or strays
with a statement inside of it. -/
theorem reaches_of_strays {n : Nat} (hn : s.cursor.rest.length < n) (h : Strays (statementHere decls) s) :
    ∃ t, Reaches decls s t ∧ Dangles decls t := by
  induction n generalizing s with
  | zero => cases hn
  | succ n ih =>
    have hinside {u : Compilation δ} (hlt : u.cursor.rest.length < s.cursor.rest.length) :
        u.cursor.rest.length < n := Nat.lt_of_lt_of_le hlt (Nat.le_of_lt_succ hn)
    by_cases hstart : isNameStart s.cursor.skipWhite.peek = true
    · rcases (named_strays hstart).mp h with hdangles | ⟨k, t, hstarts, h⟩
      · exact ⟨s, .here s, hdangles⟩
      rcases keyword_strays.mp h with ⟨hk, test, u, hcond, hu⟩ | ⟨rfl, u, hupTo, hu⟩
      · have hlt := Nat.lt_of_le_of_lt (Compiling.condition_upto hcond).rest_le hstarts.rest_lt
        obtain ⟨v, hreaches, hv⟩ := ih (hinside hlt) hu
        exact ⟨v, .body hstarts hk hcond hreaches, hv⟩
      · have hlt := Nat.lt_of_le_of_lt (upToElse_upto hupTo).rest_le hstarts.rest_lt
        obtain ⟨v, hreaches, hv⟩ := ih (hinside hlt) hu
        exact ⟨v, .other hstarts hupTo hreaches, hv⟩
    by_cases hbrace : s.cursor.skipWhite.peek = '\x7b'
    · obtain ⟨hgo, t, hsequel, ht⟩ := (braced_strays hbrace).mp h
      obtain ⟨u, hreaches, hu⟩ := ih (hinside (hsequel.rest_lt hbrace)) ht
      exact ⟨u, .block hbrace hgo hsequel hreaches, hu⟩
    · exact absurd h (not_strays_plain (Bool.eq_false_iff.mpr hstart) hbrace)

theorem strays_of_reaches (h : Reaches decls s t) (ht : Dangles decls t) : Strays (statementHere decls) s := by
  induction h with
  | here s =>
    obtain ⟨x, t, hstarts, hend⟩ := ht
    exact (named_strays hstarts.1).mpr (.inl ⟨x, t, hstarts, hend⟩)
  | block hbrace hgo hsequel _ ih => exact (braced_strays hbrace).mpr ⟨hgo, _, hsequel, ih ht⟩
  | body hstarts hk hcond _ ih =>
    exact (named_strays hstarts.1).mpr (.inr ⟨_, _, hstarts, keyword_strays.mpr (.inl ⟨hk, _, _, hcond, ih ht⟩)⟩)
  | other hstarts hupTo _ ih =>
    exact (named_strays hstarts.1).mpr (.inr ⟨_, _, hstarts, keyword_strays.mpr (.inr ⟨rfl, _, hupTo, ih ht⟩)⟩)

/-- Compiling stops beyond the source exactly if it comes to an external keyword with nothing behind it. -/
theorem compile_beyondSource (decls : Declarations ξ δ) (source : String) (declared : δ) :
    (compile decls source declared).1 = .beyondSource ↔
      ∃ s t, Sequel decls inSource ⟨.ofSource source, .empty, declared⟩ s ∧ Reaches decls s t ∧ Dangles decls t := by
  let start : Compilation δ := ⟨.ofSource source, .empty, declared⟩
  have hstrays : (compile decls source declared).1 = .beyondSource ↔
      Strays (statements (statementHere decls) (start.cursor.rest.length + 1)) start := by
    rw [Strays, ← statements_eq (Nat.lt_add_one _), StateT.run]
    unfold compile
    dsimp only [start]
    generalize (ExceptT.run _ : StateM (Compilation δ) _) _ = outcome
    obtain ⟨(e | _) | _, t⟩ := outcome
    · exact iff_of_false nofun nofun
    · exact iff_of_true rfl rfl
    · exact iff_of_false nofun nofun
  rw [hstrays, statements_strays (Nat.lt_succ_self _)]
  constructor
  · rintro ⟨s, hsequel, hs⟩
    obtain ⟨t, hreaches, ht⟩ := reaches_of_strays (Nat.lt_succ_self _) hs
    exact ⟨s, t, hsequel, hreaches, ht⟩
  · rintro ⟨s, t, hsequel, hreaches, ht⟩
    exact ⟨s, hsequel, strays_of_reaches hreaches ht⟩

end Compiler

namespace Slicing

open Compiler (Sequel Reaches Dangles inSource)

variable {ξ δ : Type}

/-- Taking slices of the source comes to what the compiler does, and all of them lie within the source, except the text
of an external keyword that nothing follows: that one starts beyond the end, and compiling stops there. -/
theorem compile_outside_iff (decls : Declarations ξ δ) (source : String) (declared : δ) :
    compile decls source declared = Compiler.compile decls source declared ∧
      ((compile decls source declared).1 = .beyondSource ↔
        ∃ s t, Sequel decls inSource ⟨.ofSource source, .empty, declared⟩ s ∧ Reaches decls s t ∧ Dangles decls t) := by
  have heq := compile_eq decls source declared
  refine ⟨heq, ?_⟩
  rw [heq]
  exact Compiler.compile_beyondSource decls source declared

/-- A keyword in a body, with a comment behind it. -/
example :
    let decls : Declarations Unit Unit :=
      { meaning := fun _ name =>
          if name = "if" then .keyword .if_ else if name = "extern" then .external () else .unknown
        declare := fun _ _ _ => ()
        external := fun _ _ _ => ((), true) }
    (compile decls "if (1) extern // x" ()).1 matches .beyondSource := by
  decide +kernel

end Slicing

end HostScript
