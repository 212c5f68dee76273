import HostScript.Proofs.Executions
import HostScript.Proofs.Runs
/-!
# Calls

A call remembers where the script stands and goes through the code until that is what it goes back to, or
until the script has ended or failed. What an instruction does to the stack is said once. It follows that a
call never touches what was remembered before it, so that afterwards the stack is what it was.
-/

set_option autoImplicit false

namespace HostScript

open Structured ScriptState

namespace ScriptState

variable {κ μ : Type} [NativeObject κ μ] {registry : Registry κ}

/-- Only `exit` changes where a script stands. -/
theorem access_standing (registry : Registry κ) {i : ScriptId μ} {a : Access} (hexit : ¬(Use.access i a).Calls .exit)
    (s : ScriptState κ) : standing (access registry i a s).2 = standing s := by
  by_cases hsleep : (Use.access i a).Calls .sleep
  · obtain ⟨args, h⟩ := hsleep
    cases h
    change standing (ScriptFunction.pause s _) = standing s
    unfold ScriptFunction.pause
    split <;> rfl
  · exact congrArg Prod.fst (access_posture registry hexit hsleep s)

theorem truncateStack_stack {s : ScriptState κ} {frames stack : List Int} (h : s.stack = frames ++ stack) :
    (s.truncateStack stack.length).stack = stack := by
  simp [truncateStack, h]

end ScriptState

namespace Interpreter

variable {κ μ : Type} [NativeObject κ μ] {i j k : Interpreter κ} {instruction : Instruction}

/-- The expression of the next instruction calls a function of the script. -/
def CallsNext (i : Interpreter κ) (g : ScriptFunction) : Prop := ∃ e ∈ i.stepEffects, e.use.Calls g

instance (i : Interpreter κ) (g : ScriptFunction) : Decidable (i.CallsNext g) :=
  inferInstanceAs (Decidable (∃ e ∈ i.stepEffects, e.use.Calls g))

/-- An expression that does not call `exit` leaves the script where it stands. -/
theorem calculate_standing (i : Interpreter κ) (text : String)
    (h : ¬∃ e ∈ effectsOf i.registry text i.script, e.use.Calls .exit) :
    standing (i.calculate text).1.script = standing i.script := by
  have hinv : KeptByUses (μ := μ) i.registry fun t es =>
      standing t = standing i.script ∨ ∃ e ∈ es, e.use.Calls .exit := by
    refine ⟨fun t es j a ht _ => ?_, fun t es h ht => ?_⟩
    · rcases ht with ht | ⟨e, he, hc⟩
      · by_cases hexit : (Use.access j a).Calls .exit
        · exact .inr ⟨_, List.mem_append_right _ (List.mem_singleton_self _), hexit⟩
        · exact .inl ((access_standing i.registry hexit t).trans ht)
      · exact .inr ⟨e, List.mem_append_left _ he, hc⟩
    · exact ht.imp id fun ⟨e, he, hc⟩ => ⟨e, List.mem_append_left _ he, hc⟩
  exact (calculate_invariant hinv text i.script i.errors (.inl rfl)).resolve_right h

/-! ## What an instruction does to the stack -/

/-- How a script comes to its end: behind its last instruction, or because it says so. -/
inductive Ends (i : Interpreter κ) : ExitCode → Prop
  | behindCode : i.script.phase = .running → i.next? = none → Ends i .normal
  | exit : i.CallsNext .exit → Ends i .script

/-- Where the next instruction takes a running script. -/
inductive Move (i j : Interpreter κ) : Prop
  | goes : j.script.phase = .running → j.script.stack = i.script.stack → Move i j
  | calls (ip : Int) : j.script.phase = .running → j.script.stack = ip :: i.script.stack → Move i j
  | returns (instruction : Instruction) (stack : List Int) : i.next? = some instruction → instruction.opcode = .ret →
    i.script.stack = j.script.ip :: stack → j.script.phase = .running → j.script.stack = stack → Move i j
  | ends : i.Ends j.script.exitCode → j.script.phase = .ready → j.script.ip = -1 → j.script.stack = i.script.stack →
    Move i j
  | fails : j.script.phase = .error → j.script.stack = i.script.stack → Move i j

@[simp]
theorem settle_stack (i : Interpreter κ) : i.settle.script.stack = i.script.stack :=
  congrArg (·.2.1) (settle_standing i)

@[simp]
theorem settle_ip (i : Interpreter κ) : i.settle.script.ip = i.script.ip := congrArg (·.2.2.2) (settle_standing i)

theorem settle_exitCode (h : i.script.phase ≠ .error) : i.settle.script.exitCode = i.script.exitCode := by
  change (if i.script.phase = .error then _ else _ : Interpreter κ).script.exitCode = _
  rw [if_neg h]
  rfl

theorem stepEffects_evaluates (h : i.next? = some instruction) (he : Evaluates instruction) :
    i.stepEffects = effectsOf i.registry instruction.text (traceInstruction i.script) := by
  obtain ⟨hphase, hget⟩ := next_eq h
  rw [stepEffects, if_neg (by simp [hphase]), hget]
  dsimp only
  unfold performEffects
  rcases he with he | he <;> rw [he] <;> rfl

/-- An instruction that evaluates leaves the stack alone. -/
theorem evaluating_moves (h : i.next? = some instruction) (he : Evaluates instruction) : Move i i.step := by
  have hphase := (next_eq h).1
  have hstays := (stays_of_posture (trace_posture i.script)).trans
    (calculate_stays (i.modifyScript traceInstruction) instruction.text)
  have hexit : ¬i.CallsNext .exit →
      ((i.modifyScript traceInstruction).calculate instruction.text).1.script.phase = .running := by
    intro hno
    rw [CallsNext, stepEffects_evaluates h he] at hno
    exact (congrArg (·.2.2.1) (calculate_standing (i.modifyScript traceInstruction) _ hno)).trans
      ((congrArg (·.2.2.1) (trace_standing i.script)).trans hphase)
  rw [step_evaluates h he]
  generalize (i.modifyScript traceInstruction).calculate instruction.text = outcome at hstays hexit ⊢
  obtain ⟨k, v⟩ := outcome
  obtain ⟨hprogram, hstack, -, -, hplace⟩ : Stays i.script k.script := hstays
  have hdepth : ¬k.script.stack.length < i.script.stack.length := by simp [hstack]
  cases v with
  | none =>
    -- the expression failed, and the step with it
    rw [stepWith, goOn_none hdepth]
    exact .fails (settle_phase _) ((settle_stack _).trans hstack)
  | some v =>
    by_cases hrunning : k.script.phase = .running
    · have hip : k.script.ip = i.script.ip := by
        rcases hplace with ⟨hready, -⟩ | ⟨-, hip, -⟩
        · simp [hrunning] at hready
        · exact hip
      have hstanding := stepWith_standing ⟨hprogram, hstack, hip, hrunning⟩ instruction v
      exact .goes (congrArg (·.2.2.1) hstanding) (congrArg (·.2.1) hstanding)
    · -- the expression ended the script, and the step leaves it there
      obtain ⟨hready, hip, hcode⟩ : k.script.phase = .ready ∧ k.script.ip = -1 ∧ k.script.exitCode = .script := by
        rcases hplace with hended | ⟨hsame, -⟩
        · exact hended
        · exact absurd (hsame.trans hphase) hrunning
      have hcalls : i.CallsNext .exit := Classical.byContradiction fun hno => hrunning (hexit hno)
      rw [stepWith, goOn_ended hdepth hrunning]
      refine .ends ?_ ((settle_phase _).trans hready) ((settle_ip _).trans hip) ((settle_stack _).trans hstack)
      rw [settle_exitCode (by simp [hready])]
      exact hcode ▸ .exit hcalls

theorem step_behindCode (h : i.script.phase = .running) (hnext : i.next? = none) :
    i.step = ((i.exitWith .normal).setPhase .ready).jumpTo (-1) := by
  have hget : i.script.program.get? i.script.ip = none := by rwa [next?, if_pos h] at hnext
  rw [step, if_neg (by simp [h]), hget]

theorem step_returns (h : i.next? = some instruction) (hret : instruction.opcode = .ret) {ip : Int} {stack : List Int}
    (hstack : i.script.stack = ip :: stack) :
    i.step = ((i.modifyScript traceInstruction).modifyScript fun s => { s with stack := stack, ip := ip }).settle := by
  have hpop : (i.modifyScript traceInstruction).script.stack = ip :: stack :=
    (stays_of_posture (trace_posture i.script)).stack.trans hstack
  rw [step_next h, perform, hret]
  dsimp only
  rw [hpop]

/-- A return fails where there is nothing to go back to. -/
theorem step_returnsNowhere (h : i.next? = some instruction) (hret : instruction.opcode = .ret)
    (hstack : i.script.stack = []) :
    i.step =
      (((i.modifyScript traceInstruction).report ⟨.ipStack, "Unexpected end of stack."⟩).setPhase .error).settle := by
  have hpop : (i.modifyScript traceInstruction).script.stack = [] :=
    (stays_of_posture (trace_posture i.script)).stack.trans hstack
  rw [step_next h, perform, hret]
  dsimp only
  rw [hpop]

/-- Every instruction of a running script makes one of these moves. -/
theorem step_moves (h : i.script.phase = .running) : Move i i.step := by
  cases hnext : i.next? with
  | none =>
    rw [step_behindCode h hnext]
    exact .ends (.behindCode h hnext) rfl rfl rfl
  | some instruction =>
    by_cases he : Evaluates instruction
    · exact evaluating_moves hnext he
    obtain ⟨-, hstack, hphase, -⟩ : _ ∧ _ ∧ _ ∧ _ := by
      simpa only [standing, Prod.mk.injEq] using trace_standing i.script
    have hrunning := hphase.trans h
    by_cases hret : instruction.opcode = .ret
    · cases hpop : i.script.stack with
      | nil =>
        rw [step_returnsNowhere hnext hret hpop]
        exact .fails (settle_phase _) ((settle_stack _).trans hstack)
      | cons ip stack =>
        rw [step_returns hnext hret hpop]
        exact .returns instruction stack hnext hret (by rwa [settle_ip]) ((settle_phase _).trans hrunning)
          (settle_stack _)
    rw [step_next hnext, perform]
    split
    · exact .goes ((settle_phase _).trans hrunning) ((settle_stack _).trans hstack)
    · exact absurd (.inl ‹_›) he
    · exact absurd (.inr ‹_›) he
    · exact .goes ((settle_phase _).trans hrunning) ((settle_stack _).trans hstack)
    · exact .calls _ ((settle_phase _).trans hrunning) ((settle_stack _).trans (congrArg (_ :: ·) hstack))
    · exact absurd ‹_› hret
    all_goals exact .fails (settle_phase _) ((settle_stack _).trans hstack)

/-! ## What a call goes through -/

/-- The interpreter that a call starts with. -/
def begun (i : Interpreter κ) (ip : Int) : Interpreter κ := (i.enter ip).setPhase .running

/-- The interpreters that a call goes through: more is remembered in them than before the call. -/
inductive During (i : Interpreter κ) (ip : Int) : Interpreter κ → Prop
  | start : During i ip (i.begun ip)
  | step {k : Interpreter κ} : During i ip k → k.script.phase = .running →
    i.script.stack.length < k.step.script.stack.length → During i ip k.step

variable {ip : Int}

/-- What was remembered before the call stays, and above it where the call goes back to. -/
theorem During.frames (h : During i ip k) :
    ∃ frames, k.script.stack = frames ++ i.script.ip :: i.script.stack := by
  induction h with
  | start => exact ⟨[], rfl⟩
  | @step k _ hrunning hdepth ih =>
    obtain ⟨frames, hframes⟩ := ih
    cases step_moves hrunning with
    | goes _ hstack => exact ⟨frames, hstack.trans hframes⟩
    | calls ip _ hstack => exact ⟨ip :: frames, hstack.trans (congrArg (ip :: ·) hframes)⟩
    | returns instruction stack _ _ hpop _ hstack =>
      cases frames with
      | nil =>
        -- the call is over by then
        obtain ⟨-, rfl⟩ := List.cons.inj (hpop.symm.trans hframes)
        rw [hstack] at hdepth
        exact absurd hdepth (Nat.lt_irrefl _)
      | cons frame frames =>
        obtain ⟨-, rfl⟩ := List.cons.inj (hpop.symm.trans hframes)
        exact ⟨frames, hstack⟩
    | ends _ _ _ hstack => exact ⟨frames, hstack.trans hframes⟩
    | fails _ hstack => exact ⟨frames, hstack.trans hframes⟩

/-- The script has come to its end in the call. -/
def EndsWithin (i : Interpreter κ) (ip : Int) (code : ExitCode) : Prop := ∃ k, During i ip k ∧ k.Ends code

/-- The return that belongs to the call is reached. -/
def Returns (i : Interpreter κ) (ip : Int) : Prop :=
  ∃ k instruction, During i ip k ∧ k.next? = some instruction ∧ instruction.opcode = .ret ∧
    k.script.stack.length = i.script.stack.length + 1

theorem During.phase (h : During i ip k) : k.script.phase = .running ∨
    (i.EndsWithin ip k.script.exitCode ∧ k.script.phase = .ready ∧ k.script.ip = -1) ∨ k.script.phase = .error := by
  cases h with
  | start => exact .inl rfl
  | @step k hk hrunning _ =>
    cases step_moves hrunning with
    | goes hphase => exact .inl hphase
    | calls _ hphase => exact .inl hphase
    | returns _ _ _ _ _ hphase => exact .inl hphase
    | ends hends hphase hip => exact .inr (.inl ⟨⟨k, hk, hends⟩, hphase, hip⟩)
    | fails hphase => exact .inr (.inr hphase)

/-- What makes the script remember less again is the return from the call. -/
theorem During.back (h : During i ip k) (hrunning : k.script.phase = .running)
    (hdepth : k.step.script.stack.length ≤ i.script.stack.length) :
    ∃ instruction, k.next? = some instruction ∧ instruction.opcode = .ret ∧
      k.script.stack = i.script.ip :: i.script.stack := by
  obtain ⟨frames, hframes⟩ := h.frames
  have hlength : i.script.stack.length < k.script.stack.length := by simp [hframes]; omega
  cases step_moves hrunning with
  | goes _ hstack | ends _ _ _ hstack | fails _ hstack =>
    rw [hstack] at hdepth
    exact absurd hdepth (Nat.not_le.mpr hlength)
  | calls ip _ hstack =>
    rw [hstack, List.length_cons] at hdepth
    omega
  | returns instruction stack hnext hret hpop _ hstack =>
    -- had the call remembered more, there would still be more to go back to
    obtain rfl : frames = [] := by
      have hpopped := congrArg List.length (hpop.symm.trans hframes)
      simp [← hstack] at hpopped
      exact List.length_eq_zero_iff.mp (by omega)
    exact ⟨instruction, hnext, hret, hframes⟩

/-- A call goes through the interpreters that follow its start step by step. -/
theorem During.steps (h : During i ip k) :
    ∃ n, k = Nat.repeat Interpreter.step n (i.begun ip) ∧
      ∀ m < n, (Nat.repeat Interpreter.step m (i.begun ip)).script.phase = .running ∧
        i.script.stack.length < (Nat.repeat Interpreter.step (m + 1) (i.begun ip)).script.stack.length := by
  induction h with
  | start => exact ⟨0, rfl, fun m hm => absurd hm (Nat.not_lt_zero m)⟩
  | @step k _ hrunning hdepth ih =>
    obtain ⟨n, rfl, hn⟩ := ih
    exact ⟨n + 1, rfl, Nat.forall_lt_succ_right.mpr ⟨hn, hrunning, hdepth⟩⟩

/-- What holds of these steps up to where the call is over holds of all that the call goes through. -/
theorem During.of_steps {n : Nat} {P : Interpreter κ → Prop}
    (hP : ∀ m ≤ n, P (Nat.repeat Interpreter.step m (i.begun ip)))
    (hover : (Nat.repeat Interpreter.step n (i.begun ip)).script.phase ≠ .running ∨
      (Nat.repeat Interpreter.step (n + 1) (i.begun ip)).script.stack.length ≤ i.script.stack.length)
    (h : During i ip k) : P k := by
  obtain ⟨m, rfl, hm⟩ := h.steps
  refine hP m (Nat.le_of_not_lt fun hlt => ?_)
  rcases hover with hstopped | hback
  · exact hstopped (hm n hlt).1
  · exact absurd (hm n hlt).2 (Nat.not_lt.mpr hback)

/-- A call in which the script stops does not return. -/
theorem During.stopped (h : During i ip k) (hstopped : k.script.phase ≠ .running) : ¬i.Returns ip := by
  rintro ⟨k', instruction, hk', hnext, hret, hdepth⟩
  obtain ⟨n, rfl, hn⟩ := h.steps
  obtain ⟨n', rfl, hn'⟩ := hk'.steps
  rcases Nat.lt_trichotomy n n' with hlt | rfl | hgt
  · exact hstopped (hn' n hlt).1
  · exact hstopped (next_eq hnext).1
  · -- the call is over with the return
    obtain ⟨ip', stack, hstack⟩ := List.exists_cons_of_length_eq_add_one hdepth
    have hdeeper : _ < (Nat.repeat Interpreter.step n' (i.begun ip)).step.script.stack.length := (hn n' hgt).2
    rw [step_returns hnext hret hstack, settle_stack] at hdeeper
    rw [hstack, List.length_cons] at hdepth
    exact absurd hdeeper (Nat.not_lt.mpr (Nat.le_of_eq (Nat.succ.inj hdepth)))

/-! ## How a call comes to its end -/

/-- A call ends when it comes back, or when the script has ended or failed, or when it takes too long. -/
theorem runCall_ends {call : Call} (hdepth : call.depth = i.script.stack.length) {n : Nat} (hk : During i ip k)
    (h : runCall call n k = some j) :
    (∃ k, During i ip k ∧ k.script.phase = .running ∧ k.step.script.stack.length ≤ i.script.stack.length ∧
        j = k.step.setPhase call.phase) ∨
      (∃ k, During i ip k ∧ k.script.phase ≠ .running ∧
        j = k.modifyScript (·.truncateStack i.script.stack.length)) ∨
      ∃ k, During i ip k ∧ isLate k.script call = true ∧ j = k.timeOut call := by
  induction n generalizing k with
  | zero => cases h
  | succ n ih =>
    rw [runCall] at h
    split at h
    · rename_i hended
      have hstopped : k.script.phase ≠ .running := by rcases hended with he | he <;> simp [he]
      exact .inr (.inl ⟨k, hk, hstopped, by rw [← Option.some_inj.mp h, hdepth]⟩)
    · rename_i hgoing
      have hrunning : k.script.phase = .running := by
        rcases hk.phase with hrunning | ⟨-, hready, -⟩ | herror
        · exact hrunning
        · exact absurd (.inr hready) hgoing
        · exact absurd (.inl herror) hgoing
      dsimp only at h
      split at h
      · rename_i hback
        exact .inl ⟨k, hk, hrunning, hdepth ▸ hback, (Option.some_inj.mp h).symm⟩
      · rename_i hdeeper
        have hstep : During i ip k.step := hk.step hrunning (by omega)
        split at h
        · rename_i hlate
          exact .inr (.inr ⟨k.step, hstep, hlate, (Option.some_inj.mp h).symm⟩)
        · exact ih hstep h

theorem callAt_skipped (hskipped : i.script.phase = .empty ∨ i.script.phase = .error ∨ ip < 0) {limit : Nat}
    {stepMode : Bool} (h : callAt limit i ip stepMode = some j) : j = i := by
  unfold callAt at h
  dsimp only at h
  rw [if_pos hskipped] at h
  exact (Option.some_inj.mp h).symm

theorem callAt_eq (hempty : i.script.phase ≠ .empty) (herror : i.script.phase ≠ .error) (hip : 0 ≤ ip) (limit : Nat) :
    callAt limit i ip false =
      runCall ⟨i.script.stack.length, i.script.phase, i.script.clock⟩ limit (i.begun ip) := by
  unfold callAt
  dsimp only
  rw [if_neg (by simp [hempty, herror]; omega)]
  rfl

/-- Whatever is called, a call ends behind something that it goes through. -/
theorem callAt_ends {limit : Nat} (h : callAt limit i ip false = some j) :
    j = i ∨ ∃ k, During i ip k ∧ (j = k.step.setPhase i.script.phase ∨
      j = k.modifyScript (·.truncateStack i.script.stack.length) ∨
      j = k.timeOut ⟨i.script.stack.length, i.script.phase, i.script.clock⟩) := by
  by_cases hskipped : i.script.phase = .empty ∨ i.script.phase = .error ∨ ip < 0
  · exact .inl (callAt_skipped hskipped h)
  obtain ⟨hempty, herror, hip⟩ : i.script.phase ≠ .empty ∧ i.script.phase ≠ .error ∧ ¬ip < 0 := by
    simpa only [not_or] using hskipped
  rw [callAt_eq hempty herror (Int.not_lt.mp hip)] at h
  rcases runCall_ends rfl .start h with ⟨k, hk, -, -, hj⟩ | ⟨k, hk, -, hj⟩ | ⟨k, hk, -, hj⟩
  · exact .inr ⟨k, hk, .inl hj⟩
  · exact .inr ⟨k, hk, .inr (.inl hj)⟩
  · exact .inr ⟨k, hk, .inr (.inr hj)⟩

/-- A call leaves what was remembered before it, unless it fails. -/
theorem callAt_stack (hempty : i.script.phase ≠ .empty) (herror : i.script.phase ≠ .error) (hip : 0 ≤ ip) {limit : Nat}
    (h : callAt limit i ip false = some j) : j.script.phase = .error ∨ j.script.stack = i.script.stack := by
  rw [callAt_eq hempty herror hip] at h
  rcases runCall_ends rfl .start h with ⟨k, hk, hrunning, hback, rfl⟩ | ⟨k, hk, -, rfl⟩ | ⟨k, -, -, rfl⟩
  · obtain ⟨instruction, hnext, hret, hframe⟩ := hk.back hrunning hback
    rw [step_returns hnext hret hframe]
    exact .inr (settle_stack _)
  · obtain ⟨frames, hframes⟩ := hk.frames
    exact .inr (truncateStack_stack (hframes.trans (List.append_cons _ _ _)))
  · exact .inl rfl

/-- A call that comes to its end leaves what was remembered before it, as long as the time of calls is not
limited. Either the script is where it was, because the call has returned; or the script is ready, because it
came to its end in the call; or it is in error. -/
theorem call_balanced (i : Interpreter κ) (ip : Int) (limit : Nat) (j : Interpreter κ)
    (hphase : i.script.phase = .compiled ∨ i.script.phase = .ready ∨ i.script.phase = .running) (hip : 0 ≤ ip)
    (hoff : ∀ k, During i ip k → k.script.maxLoopTime = none) (h : callAt limit i ip false = some j) :
    j.script.stack = i.script.stack ∧
      (i.Returns ip ∧ j.script.phase = i.script.phase ∧ j.script.ip = i.script.ip ∨
        i.EndsWithin ip j.script.exitCode ∧ j.script.phase = .ready ∧ j.script.ip = -1 ∨
        j.script.phase = .error) := by
  have hempty : i.script.phase ≠ .empty := by rcases hphase with hp | hp | hp <;> simp [hp]
  have herror : i.script.phase ≠ .error := by rcases hphase with hp | hp | hp <;> simp [hp]
  rw [callAt_eq hempty herror hip] at h
  rcases runCall_ends rfl .start h with
    ⟨k, hk, hrunning, hback, rfl⟩ | ⟨k, hk, hstopped, rfl⟩ | ⟨k, hk, hlate, rfl⟩
  · obtain ⟨instruction, hnext, hret, hframe⟩ := hk.back hrunning hback
    rw [step_returns hnext hret hframe]
    exact ⟨settle_stack _, .inl ⟨⟨k, instruction, hk, hnext, hret, by simp [hframe]⟩, rfl, settle_ip _⟩⟩
  · obtain ⟨frames, hframes⟩ := hk.frames
    refine ⟨?_, ?_⟩
    · exact truncateStack_stack (hframes.trans (List.append_cons _ _ _))
    · rcases hk.phase with hrunning | ⟨hends, hready, hip⟩ | hfailed
      · exact absurd hrunning hstopped
      · exact .inr (.inl ⟨hends, hready, hip⟩)
      · exact .inr (.inr hfailed)
  · rw [isLate, hoff k hk] at hlate
    cases hlate

/-- A subroutine that calls another one, in a script that stands somewhere else. -/
theorem nested_call_balanced :
    let script := ((new (Registry.empty : Registry Empty) false 0).compile
      "int n; gosub inner; return; :inner; n = n + 1; return;").1
    let i := script.modifyScript fun s => { s with phase := .running, stack := [7, 5], ip := 3 }
    (∀ k, During i 0 k → k.script.maxLoopTime = none) ∧
      ∃ j, callAt 100 i 0 false = some j ∧ j.script.stack = [7, 5] ∧ j.script.phase = .running ∧ j.script.ip = 3 := by
  intro script i
  have hoff : ∀ k, During i 0 k → k.script.maxLoopTime = none := by
    have hsteps : ∀ m ≤ 3, (Nat.repeat step m (i.begun 0)).script.maxLoopTime = none := by decide +kernel
    have hback : (Nat.repeat step (3 + 1) (i.begun 0)).script.stack.length ≤ i.script.stack.length := by decide +kernel
    exact fun k hk => During.of_steps (P := fun k => k.script.maxLoopTime = none) hsteps (.inr hback) hk
  have hphase : (callAt 100 i 0 false).map (·.script.phase) = some .running := by decide +kernel
  obtain ⟨j, hj, hrunning⟩ := Option.map_eq_some_iff.mp hphase
  obtain ⟨hstack, ⟨-, -, hip⟩ | ⟨-, hready, -⟩ | herror⟩ :=
    call_balanced i 0 100 j (.inr (.inr rfl)) (Int.le_refl 0) hoff hj
  · exact ⟨hoff, j, hj, hstack, hrunning, hip⟩
  · cases hready.symm.trans hrunning
  · cases herror.symm.trans hrunning

end Interpreter

end HostScript
