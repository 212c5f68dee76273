import HostScript.Proofs.Effects
import HostScript.Proofs.Paths
import HostScript.Script.Interpreter
/-!
# Executions

An execution takes a running script step by step, and lets the expressions come out in any way, as long as
they neither fail nor end the script. So each of them leaves the script where it stood, with some value;
what else it changes does not matter for the way the script goes on. The steps of an interpreter are
executions for as long as it keeps running, and executions are paths through the code.
-/

set_option autoImplicit false

namespace HostScript

open Structured

theorem Program.mem_of_get {p : Program} {ip : Int} {i : Instruction} (h : p.get? ip = some i) :
    i ∈ p.instructions := by
  unfold Program.get? at h
  split at h
  · cases h
  · exact List.mem_of_getElem? h

/-! ## What evaluating leaves as it is -/

namespace ScriptState

variable {κ μ : Type} [NativeObject κ μ] {registry : Registry κ} {s t u : ScriptState κ}

/-- The program and the stack are the same, and the script stands where it stood unless it was ended. Only
between single steps does it sleep. -/
structure Stays (s t : ScriptState κ) : Prop where
  program : t.program = s.program
  stack : t.stack = s.stack
  stepMode : t.stepMode = s.stepMode
  awake : s.stepMode = false → t.sleepUntil = s.sleepUntil
  place : t.phase = .ready ∧ t.ip = -1 ∧ t.exitCode = .script ∨
    t.phase = s.phase ∧ t.ip = s.ip ∧ t.exitCode = s.exitCode

theorem Stays.rfl : Stays s s :=
  ⟨Eq.refl _, Eq.refl _, Eq.refl _, fun _ => Eq.refl _, .inr ⟨Eq.refl _, Eq.refl _, Eq.refl _⟩⟩

theorem Stays.trans (h : Stays s t) (h' : Stays t u) : Stays s u where
  program := h'.program.trans h.program
  stack := h'.stack.trans h.stack
  stepMode := h'.stepMode.trans h.stepMode
  awake := fun hs => (h'.awake (h.stepMode.trans hs)).trans (h.awake hs)
  place := by
    rcases h'.place with hready | ⟨hphase, hip, hcode⟩
    · exact .inl hready
    · rw [hphase, hip, hcode]
      exact h.place

/-- Where a script stands. -/
def standing (s : ScriptState κ) : Program × List Int × Phase × Int := (s.program, s.stack, s.phase, s.ip)

/-- What an action does not touch. -/
def posture (s : ScriptState κ) : (Program × List Int × Phase × Int) × ExitCode × Bool × Option Micros :=
  (standing s, s.exitCode, s.stepMode, s.sleepUntil)

theorem stays_of_posture (h : posture t = posture s) : Stays s t := by
  simp only [posture, standing, Prod.mk.injEq] at h
  obtain ⟨⟨hprogram, hstack, hphase, hip⟩, hcode, hmode, hsleep⟩ := h
  exact ⟨hprogram, hstack, hmode, fun _ => hsleep, .inr ⟨hphase, hip, hcode⟩⟩

theorem scriptCall_posture (registry : Registry κ) {g : ScriptFunction} (hexit : g ≠ .exit) (hsleep : g ≠ .sleep)
    (args : List Value) (s : ScriptState κ) : posture (g.call registry args s).2 = posture s := by
  cases g with
  | exit => exact absurd (Eq.refl _) hexit
  | sleep => exact absurd (Eq.refl _) hsleep
  | create =>
    unfold ScriptFunction.call
    dsimp only
    rcases registry.create (args.headD .undefined).text args.tail with kind | o <;> exact Eq.refl _
  | _ => exact Eq.refl _

/-- Only `exit` and `sleep` touch where a script stands. -/
theorem access_posture (registry : Registry κ) {i : ScriptId μ} {a : Access}
    (hexit : ¬(Use.access i a).Calls .exit) (hsleep : ¬(Use.access i a).Calls .sleep) (s : ScriptState κ) :
    posture (access registry i a s).2 = posture s := by
  refine access_keeps registry (fun _ _ => Eq.refl _) (fun _ _ => Eq.refl _) (fun _ _ => Eq.refl _) ?_ s
  rintro g args rfl rfl
  have hgexit : g ≠ .exit := fun h => hexit ⟨args, by rw [h]⟩
  have hgsleep : g ≠ .sleep := fun h => hsleep ⟨args, by rw [h]⟩
  exact scriptCall_posture registry hgexit hgsleep args

theorem pause_stays (s : ScriptState κ) (time : Micros) : Stays s (ScriptFunction.pause s time) := by
  unfold ScriptFunction.pause
  split
  · rename_i hmode
    exact ⟨Eq.refl _, Eq.refl _, Eq.refl _, fun hs => by simp [hs] at hmode, .inr ⟨Eq.refl _, Eq.refl _, Eq.refl _⟩⟩
  · exact stays_of_posture (Eq.refl _)

theorem access_stays (registry : Registry κ) (i : ScriptId μ) (a : Access) (s : ScriptState κ) :
    Stays s (access registry i a s).2 := by
  by_cases hexit : (Use.access i a).Calls .exit
  · obtain ⟨args, h⟩ := hexit
    cases h
    exact ⟨Eq.refl _, Eq.refl _, Eq.refl _, fun _ => Eq.refl _, .inl ⟨Eq.refl _, Eq.refl _, Eq.refl _⟩⟩
  by_cases hsleep : (Use.access i a).Calls .sleep
  · obtain ⟨args, h⟩ := hsleep
    cases h
    exact pause_stays s _
  exact stays_of_posture (access_posture registry hexit hsleep s)

end ScriptState

namespace Interpreter

open ScriptState

variable {κ μ : Type} [NativeObject κ μ] {i j k : Interpreter κ} {instruction : Instruction}

/-- An expression moves a script only if it ends it. -/
theorem calculate_stays (i : Interpreter κ) (text : String) : Stays i.script (i.calculate text).1.script := by
  have hinv : KeptByUses (μ := μ) i.registry fun t _ => Stays i.script t :=
    ⟨fun t _ j a hs _ => hs.trans (access_stays i.registry j a t), fun _ _ _ hs => hs.trans (stays_of_posture rfl)⟩
  exact calculate_invariant hinv text i.script i.errors .rfl

/-! ## Steps with a given outcome -/

/-- The instruction that a running script comes to. -/
def next? (i : Interpreter κ) : Option Instruction :=
  if i.script.phase = .running then i.script.program.get? i.script.ip else none

/-- How an interpreter goes on after the expression of an instruction. -/
def goOn (depth : Nat) (instruction : Instruction) (i : Interpreter κ) (v : Option Value) : Interpreter κ :=
  let i := { i with accumulator := v.getD i.accumulator }
  if i.script.stack.length < depth then i
  else if v.isNone then i.setPhase .error
  else if i.script.phase ≠ .running then i
  else if instruction.opcode = .jumpIfZero ∧ i.accumulator.isZero then i.jumpTo instruction.target
  else i.jumpTo (i.script.ip + 1)

/-- The end of a step. -/
def settle (i : Interpreter κ) : Interpreter κ :=
  let i := i.modifyScript fun s => { s with clock := s.clock + instructionTime }
  if i.script.phase = .error then i.exitWith .error else i

/-- A step whose expression leaves the interpreter `j` and gives a value, or none. -/
def stepWith (i : Interpreter κ) (instruction : Instruction) (j : Interpreter κ) (v : Option Value) : Interpreter κ :=
  (goOn i.script.stack.length instruction j v).settle

theorem next_eq (h : i.next? = some instruction) :
    i.script.phase = .running ∧ i.script.program.get? i.script.ip = some instruction := by
  unfold next? at h
  split at h
  · exact ⟨‹_›, h⟩
  · cases h

theorem step_next (h : i.next? = some instruction) :
    i.step = ((i.modifyScript traceInstruction).perform instruction).settle := by
  obtain ⟨hphase, hget⟩ := next_eq h
  rw [step, if_neg (by simp [hphase]), hget]
  rfl

theorem trace_posture (s : ScriptState κ) : posture (traceInstruction s) = posture s := by
  unfold traceInstruction
  split <;> rfl

theorem trace_standing (s : ScriptState κ) : standing (traceInstruction s) = standing s :=
  congrArg Prod.fst (trace_posture s)

/-- A step does with the outcome of its expression what `stepWith` does. -/
theorem step_evaluates (h : i.next? = some instruction) (he : Evaluates instruction) :
    i.step = i.stepWith instruction ((i.modifyScript traceInstruction).calculate instruction.text).1
      ((i.modifyScript traceInstruction).calculate instruction.text).2 := by
  have hperform : (i.modifyScript traceInstruction).perform instruction =
      (i.modifyScript traceInstruction).evaluate instruction := by
    rcases he with he | he <;> rw [perform, he]
  rw [step_next h, hperform, stepWith, ← (stays_of_posture (trace_posture i.script)).stack]
  rfl

/-! ## Executions -/

/-- The script stands in the second interpreter where it stood in the first one, and runs. -/
structure Undisturbed (i j : Interpreter κ) : Prop where
  program : j.script.program = i.script.program
  stack : j.script.stack = i.script.stack
  ip : j.script.ip = i.script.ip
  phase : j.script.phase = .running

/-- The interpreters that are reached when the expressions come out as the log tells. -/
inductive Execution (i : Interpreter κ) : Log → Interpreter κ → Prop
  | start : Execution i [] i
  | silent {log : Log} {j : Interpreter κ} {instruction : Instruction} :
    Execution i log j → j.next? = some instruction → ¬Evaluates instruction → Execution i log j.step
  | evaluate {log : Log} {j k : Interpreter κ} {instruction : Instruction} (v : Value) :
    Execution i log j → j.next? = some instruction → Evaluates instruction → Undisturbed j k →
      Execution i (log ++ [(instruction.text, v.isZero)]) (j.stepWith instruction k (some v))

variable {log : Log}

theorem settle_standing (i : Interpreter κ) : standing i.settle.script = standing i.script := by
  unfold settle
  dsimp only
  split <;> rfl

theorem settle_phase (i : Interpreter κ) : i.settle.script.phase = i.script.phase :=
  congrArg (·.2.2.1) (settle_standing i)

/-- Without a value a script is in error. -/
theorem goOn_none {depth : Nat} (h : ¬i.script.stack.length < depth) (instruction : Instruction) :
    goOn depth instruction i none = i.setPhase .error := by
  simp only [goOn, if_neg h, Option.isNone_none, if_true, Option.getD_none]

/-- With a value a script that has ended stays where it ended. -/
theorem goOn_ended {depth : Nat} (h : ¬i.script.stack.length < depth) (hended : i.script.phase ≠ .running)
    (instruction : Instruction) (v : Value) : goOn depth instruction i (some v) = { i with accumulator := v } := by
  simp only [goOn, if_neg h, Option.isNone_some, Bool.false_eq_true, if_false, Option.getD_some]
  exact if_pos hended

/-- An undisturbed script goes on behind the expression, or where a test leads to. -/
theorem goOn_standing (h : Undisturbed i j) (v : Value) :
    standing (goOn i.script.stack.length instruction j (some v)).script =
      (i.script.program, i.script.stack, .running, after instruction i.script.ip v.isZero) := by
  have hdepth : ¬j.script.stack.length < i.script.stack.length := by simp [h.stack]
  have hphase : ¬j.script.phase ≠ .running := by simp [h.phase]
  simp only [goOn, if_neg hdepth, Option.isNone_some, Bool.false_eq_true, if_false, if_neg hphase, Option.getD_some]
  unfold after
  split
  · rw [← h.program, ← h.stack, ← h.phase]
    rfl
  · rw [← h.program, ← h.stack, ← h.phase, ← h.ip]
    rfl

/-- An expression after which the script keeps running has left it where it stood. -/
theorem step_undisturbed (hnext : i.next? = some instruction) (he : Evaluates instruction)
    (hrunning : i.step.script.phase = .running) :
    ∃ k v, Undisturbed i k ∧ k.script.exitCode = i.script.exitCode ∧ i.step = i.stepWith instruction k (some v) := by
  have hstays := (stays_of_posture (trace_posture i.script)).trans
    (calculate_stays (i.modifyScript traceInstruction) instruction.text)
  rw [step_evaluates hnext he] at hrunning ⊢
  generalize (i.modifyScript traceInstruction).calculate instruction.text = outcome at hstays hrunning ⊢
  obtain ⟨k, v⟩ := outcome
  obtain ⟨hprogram, hstack, -, -, hplace⟩ : Stays i.script k.script := hstays
  rw [stepWith, settle_phase] at hrunning
  have hdepth : ¬k.script.stack.length < i.script.stack.length := by simp [hstack]
  -- without a value the step would have left the script in error
  cases v with
  | none =>
    rw [goOn_none hdepth] at hrunning
    cases hrunning
  | some v =>
    have hphase : k.script.phase = .running := by
      refine Classical.byContradiction fun hne => hne ?_
      rwa [goOn_ended hdepth hne] at hrunning
    rcases hplace with ⟨hready, -⟩ | ⟨-, hip, hcode⟩
    · cases hready.symm.trans hphase
    · exact ⟨k, v, ⟨hprogram, hstack, hip, hphase⟩, hcode, rfl⟩

/-- An interpreter that keeps running goes on with an execution. -/
theorem Execution.step (h : Execution i log j) (hphase : j.script.phase = .running)
    (hstep : j.step.script.phase = .running) : ∃ log', Execution i (log ++ log') j.step := by
  cases hnext : j.next? with
  | none =>
    rw [next?, if_pos hphase] at hnext
    rw [Interpreter.step, if_neg (by simp [hphase]), hnext] at hstep
    cases hstep
  | some instruction =>
    by_cases he : Evaluates instruction
    · obtain ⟨k, v, hk, -, heq⟩ := step_undisturbed hnext he hstep
      exact ⟨_, heq ▸ h.evaluate v hnext he hk⟩
    · exact ⟨[], by rw [List.append_nil]; exact h.silent hnext he⟩

/-- For as long as an interpreter keeps running, its steps are an execution. -/
theorem Execution.steps (i : Interpreter κ) (n : Nat)
    (h : ∀ m ≤ n, (Nat.repeat Interpreter.step m i).script.phase = .running) :
    ∃ log, Execution i log (Nat.repeat Interpreter.step n i) := by
  induction n with
  | zero => exact ⟨[], .start⟩
  | succ n ih =>
    obtain ⟨log, hexec⟩ := ih fun m hm => h m (Nat.le_succ_of_le hm)
    obtain ⟨log', hstep⟩ := hexec.step (h n (Nat.le_succ n)) (h (n + 1) (Nat.le_refl _))
    exact ⟨_, hstep⟩

/-! ## Executions and paths -/

theorem jump_standing (h : i.next? = some instruction) (hj : instruction.opcode = .jump) :
    standing i.step.script = (i.script.program, i.script.stack, .running, instruction.target) := by
  have htrace := trace_standing i.script
  simp only [standing, Prod.mk.injEq, (next_eq h).1] at htrace
  obtain ⟨hprogram, hstack, hphase, -⟩ := htrace
  rw [step_next h, settle_standing, perform, hj, ← hprogram, ← hstack, ← hphase]
  rfl

theorem stepWith_standing (h : Undisturbed i j) (instruction : Instruction) (v : Value) :
    standing (i.stepWith instruction j (some v)).script =
      (i.script.program, i.script.stack, .running, after instruction i.script.ip v.isZero) := by
  rw [stepWith, settle_standing, goOn_standing h]

variable {p : Program}

/-- Where an interpreter runs a program. -/
structure Runs (p : Program) (ip : Int) (i : Interpreter κ) : Prop where
  program : i.script.program = p
  phase : i.script.phase = .running
  ip : i.script.ip = ip

theorem Runs.next {ip : Int} (h : Runs p ip i) : i.next? = p.get? ip := by
  rw [next?, if_pos h.phase, h.program, h.ip]

theorem Runs.jump {ip : Int} (h : Runs p ip i) (hi : p.get? ip = some instruction) (hj : instruction.opcode = .jump) :
    Runs p instruction.target i.step := by
  have hstanding := jump_standing (h.next.trans hi) hj
  simp only [standing, Prod.mk.injEq] at hstanding
  exact ⟨hstanding.1.trans h.program, hstanding.2.2.1, hstanding.2.2.2⟩

theorem Runs.stepWith {ip : Int} (h : Runs p ip i) (hj : Undisturbed i j) (instruction : Instruction) (v : Value) :
    Runs p (after instruction ip v.isZero) (i.stepWith instruction j (some v)) := by
  have hstanding := stepWith_standing hj instruction v
  simp only [standing, Prod.mk.injEq, h.ip] at hstanding
  exact ⟨hstanding.1.trans h.program, hstanding.2.2.1, hstanding.2.2.2⟩

/-- Executions follow paths, in a program that only calculates, tests and jumps. -/
theorem Execution.path {ip : Int} (h : Execution i log j) (hi : Runs p ip i)
    (hp : ∀ l ∈ p.instructions, l.opcode = .calc ∨ l.opcode = .jumpIfZero ∨ l.opcode = .jump) :
    Runs p j.script.ip j ∧ ∃ n, Path p n ip log j.script.ip := by
  induction h with
  | start => exact ⟨⟨hi.program, hi.phase, rfl⟩, 0, hi.ip ▸ .stay _⟩
  | @silent log j instruction _ hnext he ih =>
    obtain ⟨hj, n, hn⟩ := ih
    have hget := hj.next.symm.trans hnext
    have hjump : instruction.opcode = .jump := by
      rcases hp _ (Program.mem_of_get hget) with hop | hop | hop
      · exact absurd (.inl hop) he
      · exact absurd (.inr hop) he
      · exact hop
    have hstep := hj.jump hget hjump
    refine ⟨?_, n + 1, ?_⟩
    · rwa [hstep.ip]
    · rw [hstep.ip]
      simpa using hn.trans (.jump hget hjump (.stay _))
  | @evaluate log j k instruction v _ hnext he hk ih =>
    obtain ⟨hj, n, hn⟩ := ih
    have hstep := hj.stepWith hk instruction v
    refine ⟨?_, n + 1, ?_⟩
    · rwa [hstep.ip]
    · rw [hstep.ip]
      exact hn.trans (.evaluate _ (hj.next.symm.trans hnext) he (.stay _))

/-- Every path is followed by an execution. -/
theorem execution_of_path {n : Nat} {a b : Int} {log' : Log} (h : Path p n a log' b) (hj : Execution i log j)
    (hruns : Runs p a j) : ∃ k, Execution i (log ++ log') k ∧ Runs p b k := by
  induction h generalizing log j with
  | stay => exact ⟨j, by rwa [List.append_nil], hruns⟩
  | jump hi hjump _ ih =>
    exact ih (hj.silent (hruns.next.trans hi) (by simp [Evaluates, hjump])) (hruns.jump hi hjump)
  | @evaluate n ip ip' log' instruction zero hi he _ ih =>
    let v : Value := .int (if zero then 0 else 1)
    have hv : v.isZero = zero := by cases zero <;> rfl
    -- an expression that does nothing but give the value is enough
    have hk : Undisturbed j j := ⟨rfl, rfl, rfl, hruns.phase⟩
    have hexec := hj.evaluate v (hruns.next.trans hi) he hk
    have hstep := hruns.stepWith hk instruction v
    rw [hv] at hexec hstep
    simpa using ih hexec hstep

end Interpreter

end HostScript
