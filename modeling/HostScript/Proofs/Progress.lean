import HostScript.Calculator
import HostScript.Proofs.CompilingEnds
import HostScript.Proofs.CursorTerms
import HostScript.Proofs.Outcomes
/-!
# Progress

Whatever stands in a text, an engine that has read something stands behind it, and still in the text. The compiler
that has compiled a statement has taken some of the source. So both come to an end on every text.
-/

set_option autoImplicit false

namespace HostScript

variable {κ ι σ ξ δ α β : Type}

/-! ## Progress in a text -/

/-- From a desk a routine comes to an end in the same text, and where it succeeds the cursor stands further on, and not
beyond the text. -/
def Progresses (m : Nat → Routine σ α) (d : Desk σ) : Prop :=
  ∃ outcome e, Comes (fun k => (m k).run d) (outcome, e) ∧ e.text = d.text ∧
    ∀ a, outcome = .ok a → d.pos < e.pos ∧ e.pos ≤ d.text.length

/-- What takes something of the text makes progress. -/
theorem EvaluatesAs.progresses {Q : α → β → Nat → Prop} {m : Nat → Routine σ α} {r : Eval σ β} {d : Desk σ}
    (h : EvaluatesAs d.text d.pos Q m r)
    (hQ : ∀ a b p, Q a b p → ∃ rest, LeftAt d.text p rest ∧ rest.length < (d.text.drop d.pos).length)
    (hd : d.pos ≤ d.text.length) : Progresses m d := by
  obtain ⟨outcome, p, hcomes, hboth⟩ := h d.session
  refine ⟨outcome, _, hcomes, rfl, ?_⟩
  rintro a rfl
  generalize (r.run d.session).1 = result at hboth
  cases hboth with
  | ok hq =>
    obtain ⟨rest, hleft, hlt⟩ := hQ _ _ _ hq
    have hstart : LeftAt d.text d.pos (d.text.drop d.pos) := ⟨hd, rfl⟩
    exact ⟨hstart.lt_of_length_lt hleft hlt, hleft.le⟩

/-! ## Engines at a desk -/

/-- The engine with a cursor, over whose scope the functions do what they do for the evaluator. -/
def Evaluator.onDesk (ev : Evaluator κ ι σ) : CursorEngine κ ι σ :=
  { ev.toEngine with access := fun _ i a => Routine.ofAction (ev.scope.access ev.nested i a) }

theorem Evaluator.onDesk_answers (ev : Evaluator κ ι σ) : ev.onDesk.Answers ev.scope.access ev.nested :=
  fun i a _ _ => .ofAction (ev.scope.access ev.nested i a)

namespace Engine

/-- The evaluator of texts that are nested at a depth. -/
def evaluator (engine : Engine κ ι σ) (depth : Nat) : Evaluator κ ι σ :=
  { engine with nested := engine.calculate depth }

theorem calculate_succ (engine : Engine κ ι σ) (depth : Nat) :
    engine.calculate (depth + 1) = (engine.evaluator depth).calculate :=
  funext₂ (engine.calculate_eq depth)

/-- An engine at a desk evaluates as it does without one. -/
theorem onDesk_comes (engine : Engine κ ι σ) (depth : Nat) (text : String) (result : Value) (d : Desk σ) :
    Comes (fun k => (engine.evaluator depth).onDesk.calculate k text result d)
      (d.answered result (engine.calculate (depth + 1) text d.session)) := by
  rw [calculate_succ]
  exact CursorEngine.calculate_comes (engine.evaluator depth).onDesk_answers text result d

end Engine

namespace CursorEngine

variable {en : CursorEngine κ ι σ} {access : Evaluation σ → ι → Access → Action σ (Answer Operand)}
  {nested : Evaluation σ} {d : Desk σ}

theorem term_progresses (hen : Answers en access nested) (hd : d.pos ≤ d.text.length) : Progresses en.term d := by
  have hterm := termsBelow hen ((d.text.drop d.pos).length + 1) ⟨hd, rfl⟩ (Nat.lt_succ_self _)
  refine hterm.progresses ?_ hd
  rintro v ⟨_, rest⟩ p ⟨-, hleft, hlt⟩
  exact ⟨rest, hleft, hlt⟩

theorem arith_progresses (hen : Answers en access nested) (hd : d.pos ≤ d.text.length) : Progresses en.arith d := by
  refine (arith_evaluates hen (termsBelow hen _) ⟨hd, rfl⟩ (Nat.le_refl _)).progresses ?_ hd
  rintro a atom p ⟨-, hleft, hlt⟩
  exact ⟨atom.rest, hleft, hlt⟩

theorem identifier_progresses (hen : Answers en access nested) (hd : d.pos ≤ d.text.length) :
    Progresses en.identifier d := by
  refine (identifier_evaluates hen (termsBelow hen _) ⟨hd, rfl⟩ (Nat.le_refl _)).progresses ?_ hd
  rintro a atom p ⟨-, hleft, hlt⟩
  exact ⟨atom.rest, hleft, hlt⟩

end CursorEngine

/-- A text is only read where its quote stands. -/
theorem stringLiteral_progresses {d : Desk σ} (hd : d.pos ≤ d.text.length) (hquote : d.peek = '"') :
    Progresses Routine.stringLiteral d := by
  have hleft : LeftAt d.text d.pos (d.text.drop d.pos) := ⟨hd, rfl⟩
  obtain ⟨cs, hcs⟩ : ∃ cs, d.text.drop d.pos = '"' :: cs :=
    exists_of_headD ((hleft.peek (s := d.session)).symm.trans hquote) (by decide)
  have hread : EvaluatesAs (σ := σ) d.text d.pos (Takes d.text (d.text.drop d.pos).length) Routine.stringLiteral
      (Evaluator.liftExcept (Token.readText (d.text.drop d.pos))) :=
    .token (.stringLiteral hleft) fun v rest h => by
      rw [hcs] at h ⊢
      exact Token.readText_length h
  refine hread.progresses ?_ hd
  rintro v ⟨_, rest⟩ p ⟨-, hleft, hlt⟩
  exact ⟨rest, hleft, hlt⟩

/-! ## Progress in a source -/

/-- Before the end of the source, a statement comes to an end, and where it succeeds the cursor has moved on. -/
theorem Compiling.statement_advances (decls : Declarations ξ δ) {s : Compilation δ} (hend : s.cursor.atEnd = false) :
    ∃ outcome t, Comes (fun k => (Compiling.statement decls k).run.run s) (outcome, t) ∧
      ∀ a, outcome = .ok a → s.cursor.offset < t.cursor.offset := by
  have hcomes := statementsBelow decls (s.cursor.rest.length + 1) s (Nat.lt_succ_self _)
  refine ⟨_, _, hcomes, fun _ hok => ?_⟩
  have hdone : Compiler.Does (Compiler.statementAt decls (s.cursor.rest.length + 1)) s () _ := Prod.ext hok rfl
  exact ((statementAt_forward decls _).before hdone hend).offset

/-! ## Both parsers -/

/-- Wherever it is in a text, an engine that reads a term, an operand, a name with what follows it, or a text, comes to
an end behind the place where it has started, and not behind the end; and wherever the compiler is in a source, it
comes to an end with a statement behind the place where it has started. So every text is evaluated: over any scope
whose functions come to an end, without a scope, and over the inputs of the calculator. And every source is
compiled. -/
theorem parsers_progress (en : CursorEngine κ ι σ) {access : Evaluation σ → ι → Access → Action σ (Answer Operand)}
    {nested : Evaluation σ} (hen : en.Answers access nested) (registry : Registry κ) (decls : Declarations ξ δ) :
    (∀ d : Desk σ, d.pos ≤ d.text.length → Progresses en.term d ∧ Progresses en.arith d ∧ Progresses en.identifier d ∧
      (d.peek = '"' → Progresses Routine.stringLiteral d)) ∧
    (∀ s : Compilation δ, s.cursor.atEnd = false → ∃ outcome t,
      Comes (fun k => (Compiling.statement decls k).run.run s) (outcome, t) ∧
        ∀ a, outcome = .ok a → s.cursor.offset < t.cursor.offset) ∧
    (∀ text result d, Comes (fun k => en.calculate k text result d)
      (d.answered result ((en.evaluator access nested).calculate text d.session))) ∧
    (∀ depth text result d,
      Comes (fun k => ((Engine.mk registry .none).evaluator depth).onDesk.calculate k text result d)
        (d.answered result ((Engine.mk registry .none).calculate (depth + 1) text d.session))) ∧
    (∀ depth text result d,
      Comes (fun k => ((Engine.mk registry Calculator.scope).evaluator depth).onDesk.calculate k text result d)
        (d.answered result ((Engine.mk registry Calculator.scope).calculate (depth + 1) text d.session))) ∧
    ∀ source declared, Comes (fun k => Compiling.compile decls k source declared)
      (Compiler.compile decls source declared) := by
  refine ⟨fun d hd => ?_, fun s => Compiling.statement_advances decls, CursorEngine.calculate_comes hen,
    Engine.onDesk_comes _, Engine.onDesk_comes _, Compiling.compile_comes decls⟩
  exact ⟨en.term_progresses hen hd, en.arith_progresses hen hd, en.identifier_progresses hen hd,
    stringLiteral_progresses hd⟩

/-- The calculator comes to an end with a group that is open, and refuses it. -/
theorem open_group_progress :
    Progresses (Calculator.engine.evaluator 0).onDesk.term ⟨['(', 'y'], 0, .clear, .zero⟩ ∧
      ∃ d, Comes (fun k => (Calculator.engine.evaluator 0).onDesk.calculate k "(y" .undefined ⟨[], 0, .clear, .zero⟩)
        ((false, .undefined), d) := by
  obtain ⟨hroutines, -, hcalculate, -⟩ := parsers_progress _ (Calculator.engine.evaluator 0).onDesk_answers .empty
    (ScriptState.declarations (.empty : Registry Empty))
  exact ⟨(hroutines _ (Nat.zero_le _)).1, _, hcalculate "(y" .undefined _⟩

end HostScript
