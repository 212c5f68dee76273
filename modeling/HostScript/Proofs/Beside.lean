import HostScript.Proofs.Calls
/-!
# A script beside another one

A script may remember other places to go back to and may take single steps, and be the same otherwise. Its
instructions do the same then, as long as they do not sleep: nothing else that an expression reaches looks at
where the script goes back to or at how it is stepped.
-/

set_option autoImplicit false

namespace HostScript

open Structured ScriptState

namespace ScriptState

variable {κ μ : Type}

/-- The same script with something else to go back to, taking single steps or not. -/
def beside (s : ScriptState κ) (stack : List Int) (stepMode : Bool) : ScriptState κ :=
  { s with stack := stack, stepMode := stepMode }

variable {stack : List Int} {stepMode : Bool}

/-! ## Accesses -/

/-- What works on what a script has does so in any script beside. -/
theorem Carries.beside {α : Type} {m : ScriptAction κ α} (h : Carries overScript m) (s : ScriptState κ) :
    m (s.beside stack stepMode) = ((m s).1, (m s).2.beside stack stepMode) := by
  have hs : (m s).2 = overScript (m s).2 s := congrArg Prod.snd (h s s)
  have hb : m (s.beside stack stepMode) = ((m s).1, overScript (m s).2 (s.beside stack stepMode)) :=
    h s (s.beside stack stepMode)
  rw [hb, hs]
  rfl

variable [NativeObject κ μ]

theorem scriptCall_beside (registry : Registry κ) {g : ScriptFunction} (hsleep : g ≠ .sleep) (args : List Value)
    (s : ScriptState κ) :
    g.call registry args (s.beside stack stepMode) =
      ((g.call registry args s).1, (g.call registry args s).2.beside stack stepMode) := by
  cases g with
  | sleep => exact absurd rfl hsleep
  | create =>
    unfold ScriptFunction.call
    dsimp only
    rcases registry.create (args.headD .undefined).text args.tail with kind | o <;> rfl
  | _ => rfl

/-- Only `sleep` does something else in a script beside. -/
theorem access_beside (registry : Registry κ) {i : ScriptId μ} {a : Access} (hsleep : ¬(Use.access i a).Calls .sleep)
    (s : ScriptState κ) :
    access registry i a (s.beside stack stepMode) =
      ((access registry i a s).1, (access registry i a s).2.beside stack stepMode) := by
  by_cases hi : ∃ g, i = .function g
  · obtain ⟨g, rfl⟩ := hi
    cases a with
    | call args => exact scriptCall_beside registry (fun h => hsleep ⟨args, by rw [h]⟩) args s
    | _ => rfl
  · exact Carries.beside (access_carries registry (not_exists.mp hi) a) s

/-! ## Evaluating -/

/-- The recorded script has a script beside it, and has not slept. -/
def Accompanied (stack : List Int) (stepMode : Bool) : Likeness (ScriptState κ × List (Effect κ μ)) (ScriptState κ) :=
  .ofStates (fun s t => t = s.1.beside stack stepMode ∧ ¬∃ e ∈ s.2, e.use.Calls .sleep)
    fun s => ∃ e ∈ s.2, e.use.Calls .sleep

theorem beside_alike (registry : Registry κ) (stack : List Int) (stepMode : Bool) :
    ScopesAlike (Accompanied stack stepMode) (fun _ : ScriptId μ => True) (recordedScope registry)
      (scope registry) where
  find := by
    rintro ⟨s, _⟩ ⟨_, _⟩ name ⟨⟨rfl, -⟩, -⟩
    rfl
  found := fun _ _ _ => trivial
  access := by
    rintro _ _ i a - -
    refine ⟨?_, ?_⟩
    · rintro ⟨⟨s, es⟩, errors⟩ ⟨_, _⟩ ⟨⟨rfl, hes⟩, rfl⟩
      refine ⟨trivial, ?_⟩
      by_cases hsleep : (Use.access i a).Calls .sleep
      · exact .inl ⟨_, List.mem_append_right _ (List.mem_singleton_self _), hsleep⟩
      · have hb : access registry i a (s.beside stack stepMode) = _ := access_beside registry hsleep s
        refine .inr ⟨congrArg (fun r => r.1.map (·.map Operand.value)) hb.symm, ⟨congrArg Prod.snd hb, ?_⟩, rfl⟩
        exact not_calls_append hes hsleep
    · rintro ⟨⟨s, es⟩, errors⟩ ⟨e, he, hc⟩
      exact ⟨trivial, e, List.mem_append_left _ he, hc⟩
  isObject := by
    rintro ⟨s, _⟩ ⟨_, _⟩ h ⟨⟨rfl, -⟩, -⟩
    rfl
  member := by
    rintro ⟨s, _⟩ ⟨_, _⟩ h name ⟨⟨rfl, -⟩, -⟩
    rfl
  memberFound := fun _ _ _ => trivial
  release := by
    refine fun h => .change ?_ ?_
    · rintro ⟨⟨s, es⟩, errors⟩ ⟨_, _⟩ ⟨⟨rfl, hes⟩, rfl⟩
      exact ⟨⟨rfl, not_calls_append hes fun ⟨_, hc⟩ => nomatch hc⟩, rfl⟩
    · rintro ⟨⟨s, es⟩, errors⟩ ⟨e, he, hc⟩
      exact ⟨e, List.mem_append_left _ he, hc⟩
  cells := fun _ => rfl
  setCells := fun _ => .change (fun _ _ h => h) fun _ h => h

/-- An expression that does not sleep gives the same in a script beside, and does the same to it. -/
theorem calculate_beside (registry : Registry κ) (text : String) (s : ScriptState κ) (errors : ErrorState)
    (hsleep : ¬∃ e ∈ effectsOf registry text s, e.use.Calls .sleep) :
    (engine registry).calculate 1 text ⟨s.beside stack stepMode, errors⟩ =
      (((engine registry).calculate 1 text ⟨s, errors⟩).1,
        ⟨((engine registry).calculate 1 text ⟨s, errors⟩).2.state.beside stack stepMode,
          ((engine registry).calculate 1 text ⟨s, errors⟩).2.errors⟩) := by
  rw [calculate_errors, calculate_errors (engine registry) text s]
  have hany : KeptByUses (μ := μ) registry fun _ _ => True := ⟨fun _ _ _ _ _ _ => trivial, fun _ _ _ _ => trivial⟩
  obtain ⟨hvalue, ⟨hstate, -⟩, herrors⟩ := calculate_recorded hany text s trivial
  have hregistry : (recordedEngine registry).registry = (engine (κ := κ) registry).registry := rfl
  have halike : Alike (Accompanied stack stepMode) (fun _ => True) ((recordedEngine registry).calculate 1 text)
      ((engine registry).calculate 1 text) :=
    Engine.calculate_alike hregistry (beside_alike registry stack stepMode) 1 text
  have hstart : (Accompanied stack stepMode).related ⟨(s, ([] : List (Effect κ μ))), .clear⟩
      ⟨s.beside stack stepMode, .clear⟩ := ⟨⟨rfl, by simp⟩, rfl⟩
  obtain ⟨-, hslept | ⟨he, ⟨ht, -⟩, hr⟩⟩ := halike.related hstart
  · exact absurd hslept hsleep
  · rw [hvalue, herrors, ← hstate, he, hr, ← ht]
    rfl

end ScriptState

namespace Interpreter

variable {κ μ : Type} [NativeObject κ μ] {i j k : Interpreter κ} {instruction : Instruction} {stack : List Int}
  {stepMode : Bool}

/-- The same interpreter with a script beside. -/
def beside (i : Interpreter κ) (stack : List Int) (stepMode : Bool) : Interpreter κ :=
  i.modifyScript (·.beside stack stepMode)

theorem calculate_beside (i : Interpreter κ) (text : String)
    (hsleep : ¬∃ e ∈ effectsOf i.registry text i.script, e.use.Calls .sleep) :
    (i.beside stack stepMode).calculate text =
      ((i.calculate text).1.beside stack stepMode, (i.calculate text).2) := by
  have h : (engine i.registry).calculate 1 text ⟨i.script.beside stack stepMode, i.errors⟩ = _ :=
    ScriptState.calculate_beside i.registry text i.script i.errors hsleep
  unfold calculate
  dsimp only [beside, modifyScript]
  rw [h]
  generalize (engine i.registry).calculate 1 text ⟨i.script, i.errors⟩ = outcome
  rfl

/-! ## Steps -/

theorem traceInstruction_beside (s : ScriptState κ) :
    traceInstruction (s.beside stack stepMode) = (traceInstruction s).beside stack stepMode := by
  change (if s.trace then _ else _) = (if s.trace then _ else _ : ScriptState κ).beside stack stepMode
  split <;> rfl

theorem trace_beside (i : Interpreter κ) :
    (i.beside stack stepMode).modifyScript traceInstruction = (i.modifyScript traceInstruction).beside stack stepMode :=
  congrArg (fun s => ({ i with script := s } : Interpreter κ)) (traceInstruction_beside i.script)

theorem settle_beside (i : Interpreter κ) : (i.beside stack stepMode).settle = i.settle.beside stack stepMode := by
  change (if i.script.phase = .error then _ else _) =
    (if i.script.phase = .error then _ else _ : Interpreter κ).beside stack stepMode
  split <;> rfl

/-- After an expression that left the stack alone a script beside goes on in the same way. -/
theorem goOn_beside {depth : Nat} (hdepth : ¬i.script.stack.length < depth) (instruction : Instruction)
    (v : Option Value) :
    goOn stack.length instruction (i.beside stack stepMode) v = (goOn depth instruction i v).beside stack stepMode := by
  have hbeside : ¬(i.beside stack stepMode).script.stack.length < stack.length := Nat.lt_irrefl _
  simp only [goOn, if_neg hdepth, if_neg hbeside, apply_ite (Interpreter.beside · stack stepMode)]
  rfl

/-- An instruction that evaluates leaves the stack alone, in a script beside, too. -/
theorem evaluating_beside (h : i.next? = some instruction) (he : Evaluates instruction)
    (hsleep : ¬i.CallsNext .sleep) :
    (i.beside stack stepMode).step = i.step.beside stack stepMode := by
  have hstays := (stays_of_posture (trace_posture i.script)).trans
    (calculate_stays (i.modifyScript traceInstruction) instruction.text)
  have hdepth : ¬((i.modifyScript traceInstruction).calculate instruction.text).1.script.stack.length <
      i.script.stack.length := by simp [hstays.stack]
  rw [CallsNext, stepEffects_evaluates h he] at hsleep
  have hnext : (i.beside stack stepMode).next? = some instruction := h
  rw [step_evaluates h he, step_evaluates hnext he, trace_beside, calculate_beside _ _ hsleep, stepWith, stepWith,
    ← settle_beside]
  exact congrArg settle (goOn_beside hdepth instruction _)

theorem evaluating_stack (h : i.next? = some instruction) (he : Evaluates instruction) (hsleep : ¬i.CallsNext .sleep) :
    i.step.script.stack = i.script.stack := by
  have hstep : i.step = i.step.beside i.script.stack i.script.stepMode := evaluating_beside h he hsleep
  exact congrArg (·.script.stack) hstep

/-- What an instruction without an expression does beside, as long as it does not reach for the bottom of the stack. -/
theorem perform_beside {t : Interpreter κ} {instruction : Instruction} (he : ¬Evaluates instruction)
    {frames bottom : List Int} (hstack : t.script.stack = frames ++ bottom) (hbottom : bottom ≠ [])
    (hkept : bottom.length ≤ (t.perform instruction).script.stack.length) (base : List Int) :
    ∃ frames', (t.perform instruction).script.stack = frames' ++ bottom ∧
      (t.beside (frames ++ base) stepMode).perform instruction =
        (t.perform instruction).beside (frames' ++ base) stepMode := by
  rcases hop : instruction.opcode with _ | _ | _ | _ | _ | _ | _ | _ | _
  · exact ⟨frames, by rw [perform, hop]; exact hstack, by rw [perform, perform, hop]; rfl⟩
  · exact absurd (.inl hop) he
  · exact absurd (.inr hop) he
  · exact ⟨frames, by rw [perform, hop]; exact hstack, by rw [perform, perform, hop]; rfl⟩
  · refine ⟨(t.script.ip + 1) :: frames, ?_, by rw [perform, perform, hop]; rfl⟩
    rw [perform, hop]
    exact congrArg ((t.script.ip + 1) :: ·) hstack
  · rw [perform, hop] at hkept
    dsimp only at hkept
    cases frames with
    | nil =>
      -- the return would take the bottom away
      obtain ⟨ip, stack, rfl⟩ := List.exists_cons_of_ne_nil hbottom
      rw [show t.script.stack = ip :: stack from hstack] at hkept
      exact absurd hkept (Nat.not_succ_le_self _)
    | cons ip frames =>
      have hpop : t.script.stack = ip :: (frames ++ bottom) := hstack
      refine ⟨frames, ?_, ?_⟩
      · rw [perform, hop]
        dsimp only
        rw [hpop]
        rfl
      · rw [perform, perform, hop]
        dsimp only
        rw [hpop]
        rfl
  all_goals exact ⟨frames, by rw [perform, hop]; exact hstack, by rw [perform, perform, hop]; rfl⟩

/-- As long as an instruction does not reach for the bottom of the stack, a script beside that has another
bottom goes on in the same way. -/
theorem step_beside (hrunning : i.script.phase = .running) (hsleep : ¬i.CallsNext .sleep) {frames bottom : List Int}
    (hstack : i.script.stack = frames ++ bottom) (hbottom : bottom ≠ [])
    (hkept : bottom.length ≤ i.step.script.stack.length) (base : List Int) :
    ∃ frames', i.step.script.stack = frames' ++ bottom ∧
      (i.beside (frames ++ base) stepMode).step = i.step.beside (frames' ++ base) stepMode := by
  cases hnext : i.next? with
  | none =>
    have hbeside : (i.beside (frames ++ base) stepMode).next? = none := hnext
    have hphase : (i.beside (frames ++ base) stepMode).script.phase = .running := hrunning
    rw [step_behindCode hrunning hnext, step_behindCode hphase hbeside]
    exact ⟨frames, hstack, rfl⟩
  | some instruction =>
    by_cases he : Evaluates instruction
    · exact ⟨frames, (evaluating_stack hnext he hsleep).trans hstack, evaluating_beside hnext he hsleep⟩
    have hbeside : (i.beside (frames ++ base) stepMode).next? = some instruction := hnext
    have htraced : (i.modifyScript traceInstruction).script.stack = frames ++ bottom :=
      (stays_of_posture (trace_posture i.script)).stack.trans hstack
    rw [step_next hnext, settle_stack] at hkept ⊢
    obtain ⟨frames', hframes, hperform⟩ := perform_beside he htraced hbottom hkept base
    rw [step_next hbeside, trace_beside, hperform, settle_beside]
    exact ⟨frames', hframes, rfl⟩

end Interpreter

end HostScript
