import HostScript.Proofs.Beside
/-!
# What a step leaves of errors and sleep

An expression that gives a value leaves no error, so that a script only goes on without one. And a script
that is not stepped sleeps within its calls, so that nothing of it is left when a step is over.
-/

set_option autoImplicit false

namespace HostScript

open Structured ScriptState

/-! ## Values without errors -/

/-- What fails reports its error, whatever was reported before: a kind that is there already is that kind. -/
theorem ErrorState.report_kind (errors : ErrorState) (e : ScriptError) : (errors.report e).kind = e.kind := by
  unfold report
  split
  · assumption
  · rfl

/-- Evaluating a text starts without an error, and reports the one that it fails with. -/
theorem Engine.calculate_eq {κ ι σ : Type} (engine : Engine κ ι σ) (depth : Nat) (text : String) (s : Session σ) :
    engine.calculate (depth + 1) text s =
      match (({ engine with nested := engine.calculate depth } : Evaluator κ ι σ).expression text.toList).run
        ⟨s.state, .clear⟩ with
      | (.ok v, t) => (some v, t)
      | (.error e, t) => (none, { t with errors := t.errors.report e }) := by
  have hmodify : ∀ (f : Session σ → Session σ) (t : Session σ), (modify f : Action σ PUnit) t = (⟨⟩, f t) :=
    fun _ _ => rfl
  rw [calculate]
  simp only [bind, StateT.bind, hmodify]
  generalize (({ engine with nested := engine.calculate depth } : Evaluator κ ι σ).expression text.toList).run
    ⟨s.state, .clear⟩ = r
  obtain ⟨_ | v, t⟩ := r <;> rfl

/-- The same session, without an error. -/
def Likeness.clean {σ : Type} : Likeness σ σ := ⟨fun s t => s = t ∧ s.errors = .clear, fun _ => False⟩

namespace ScriptState

variable {κ μ : Type} [NativeObject κ μ]

theorem access_clean (registry : Registry κ) (nested nested' : Evaluation (ScriptState κ)) (i : ScriptId μ)
    (a : Access) :
    Alike .clean (fun _ => True) ((scope registry).access nested i a) ((scope registry).access nested' i a) := by
  refine ⟨?_, fun h => h.elim⟩
  rintro s _ ⟨rfl, h⟩
  exact ⟨trivial, .inr ⟨rfl, rfl, h⟩⟩

theorem clean_alike (registry : Registry κ) :
    ScopesAlike .clean (fun _ : ScriptId μ => True) (scope registry) (scope registry) where
  find := by
    rintro s _ name ⟨rfl, -⟩
    rfl
  found := fun _ _ _ => trivial
  access := fun a _ _ => access_clean registry _ _ _ a
  isObject := by
    rintro s _ h ⟨rfl, -⟩
    rfl
  member := by
    rintro s _ h name ⟨rfl, -⟩
    rfl
  memberFound := fun _ _ _ => trivial
  release := by
    refine fun h => .change ?_ fun _ h => h.elim
    rintro s _ ⟨rfl, hs⟩
    exact ⟨rfl, hs⟩
  cells := fun _ => rfl
  setCells := by
    refine fun cells => .change ?_ fun _ h => h.elim
    rintro s _ ⟨rfl, hs⟩
    exact ⟨rfl, hs⟩

end ScriptState

namespace Interpreter

variable {κ μ : Type} [NativeObject κ μ] {i j k : Interpreter κ} {instruction : Instruction}

/-- What gives a value leaves no error. -/
theorem calculate_clean (i : Interpreter κ) (text : String) :
    (i.calculate text).2 = none ∨ (i.calculate text).1.errors = .clear := by
  have hev : EvaluatorsAlike .clean (fun _ => True)
      { engine i.registry with nested := (engine i.registry).calculate 0 }
      { engine i.registry with nested := (engine i.registry).calculate 0 } :=
    ⟨rfl, (clean_alike i.registry).toLookupsAlike, fun a _ => access_clean i.registry _ _ _ a⟩
  have hclean := ((Evaluator.expression_alike hev text.toList).related (s := ⟨i.script, .clear⟩) ⟨rfl, rfl⟩).2
  unfold calculate
  rw [Engine.calculate_eq]
  generalize ExceptT.run (Evaluator.expression _ _) _ = r at hclean ⊢
  obtain ⟨_ | v, t⟩ := r
  · exact .inl rfl
  · exact .inr (hclean.resolve_left id).2.2

/-! ## Steps -/

/-- The error of the last evaluation, whether the script is stepped, and how long it sleeps between its steps. -/
def remains (i : Interpreter κ) : ErrorState × Bool × Option Micros :=
  (i.errors, i.script.stepMode, i.script.sleepUntil)

theorem settle_remains (i : Interpreter κ) : i.settle.remains = i.remains := by
  unfold settle
  dsimp only
  split <;> rfl

theorem goOn_remains (depth : Nat) (instruction : Instruction) (i : Interpreter κ) (v : Option Value) :
    (goOn depth instruction i v).remains = i.remains := by
  unfold goOn
  dsimp only
  split
  · rfl
  · split
    · rfl
    · split
      · rfl
      · split <;> rfl

theorem settle_errors (i : Interpreter κ) : i.settle.errors = i.errors := congrArg Prod.fst (settle_remains i)

/-- An instruction that evaluates fails with an error, or leaves none. -/
theorem evaluated_errors (hnext : i.next? = some instruction) (he : Evaluates instruction) :
    i.step.script.phase = .error ∨ i.step.errors.isError = false := by
  have hclean := calculate_clean (i.modifyScript traceInstruction) instruction.text
  have hstays := (stays_of_posture (trace_posture i.script)).trans
    (calculate_stays (i.modifyScript traceInstruction) instruction.text)
  rw [step_evaluates hnext he, stepWith, settle_phase, settle_errors]
  generalize (i.modifyScript traceInstruction).calculate instruction.text = outcome at hclean hstays ⊢
  obtain ⟨k, _ | v⟩ := outcome
  · -- without a value the script is in error
    have hdepth : ¬k.script.stack.length < i.script.stack.length :=
      Nat.not_lt.mpr (Nat.le_of_eq (congrArg List.length hstays.stack.symm))
    exact .inl (congrArg (·.script.phase) (goOn_none hdepth instruction))
  · obtain hnone | hclear : some v = none ∨ k.errors = .clear := hclean
    · cases hnone
    · have hgoOn : (goOn i.script.stack.length instruction k (some v)).errors = k.errors :=
        congrArg Prod.fst (goOn_remains _ _ _ _)
      exact .inr (congrArg ErrorState.isError (hgoOn.trans hclear))

/-- A script fails with an error, and goes on without one. -/
theorem step_errors (hrunning : i.script.phase = .running) (herrors : i.errors.isError = false) :
    i.step.script.phase = .error ∨ i.step.errors.isError = false := by
  cases hnext : i.next? with
  | none =>
    rw [step_behindCode hrunning hnext]
    exact .inr herrors
  | some instruction =>
    by_cases he : Evaluates instruction
    · exact evaluated_errors hnext he
    rw [step_next hnext, settle_phase, settle_errors, perform]
    split
    · exact .inr herrors
    · exact absurd (.inl ‹_›) he
    · exact absurd (.inr ‹_›) he
    · exact .inr herrors
    · exact .inr herrors
    · split
      · exact .inr herrors
      · exact .inl rfl
    all_goals exact .inl rfl

/-- A script that is not stepped does not sleep between its instructions. -/
theorem step_awake (hmode : i.script.stepMode = false) : i.step.remains.2 = i.remains.2 := by
  by_cases hrunning : i.script.phase = .running
  · cases hnext : i.next? with
    | none =>
      rw [step_behindCode hrunning hnext]
      rfl
    | some instruction =>
      by_cases he : Evaluates instruction
      · have hstays := (stays_of_posture (trace_posture i.script)).trans
          (calculate_stays (i.modifyScript traceInstruction) instruction.text)
        rw [step_evaluates hnext he, stepWith, settle_remains, goOn_remains]
        exact Prod.ext hstays.stepMode (hstays.awake hmode)
      have htrace : (i.modifyScript traceInstruction).remains.2 = i.remains.2 :=
        congrArg (·.2.2) (trace_posture i.script)
      rw [step_next hnext, settle_remains, ← htrace, perform]
      split
      · rfl
      · exact absurd (.inl ‹_›) he
      · exact absurd (.inr ‹_›) he
      · rfl
      · rfl
      · split <;> rfl
      all_goals rfl
  · rw [step, if_pos hrunning]

end Interpreter

end HostScript
