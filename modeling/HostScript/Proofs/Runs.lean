import HostScript.Proofs.Effects
/-!
# What running does to a script

An application drives an interpreter by operations: it executes modes, calls labels, evaluates texts of
its own, delivers events and changes the host and the settings. Whatever an operation changes about
variables and objects, it changes by the effects of the expressions it evaluates. An operation may not
come to its end within its limit; its effects up to there are told nevertheless.
-/

set_option autoImplicit false

namespace HostScript

namespace Interpreter

open ScriptState

variable {κ μ : Type} [NativeObject κ μ]

/-! ## What every use keeps -/

/-- What holds of a script and the effects up to there is kept by every use of the script, and by whatever
changes neither its program, its variables and objects, nor its binding. -/
structure Lasting (registry : Registry κ) (Inv : ScriptState κ → List (Effect κ μ) → Prop) : Prop
    extends KeptByUses registry Inv where
  world (s t : ScriptState κ) (es : List (Effect κ μ)) : SameWorld s t → t.program = s.program → Inv s es → Inv t es

/-- It holds of the outcome; without one, of where the effects have led. -/
def Lasts (registry : Registry κ) (Inv : ScriptState κ → List (Effect κ μ) → Prop) (es : List (Effect κ μ)) :
    Option (Interpreter κ) → Prop
  | some j => j.registry = registry ∧ Inv j.script es
  | none => ∃ t, Inv t es

/-- The effects start at an interpreter and lead to the outcome, if there is one. -/
def Leads (i : Interpreter κ) (es : List (Effect κ μ)) (outcome : Option (Interpreter κ)) : Prop :=
  ∃ t, Chain i.registry i.script es t ∧ ∀ j ∈ outcome, j.registry = i.registry ∧ SameHeap t j.script

/-- Nothing happened to the program, a variable, an object or the binding. -/
structure Quiet (i j : Interpreter κ) : Prop where
  registry : j.registry = i.registry
  world : SameWorld i.script j.script
  program : j.script.program = i.script.program

variable {registry : Registry κ} {Inv : ScriptState κ → List (Effect κ μ) → Prop} {i j : Interpreter κ}
  {es : List (Effect κ μ)} {outcome : Option (Interpreter κ)}

theorem Quiet.rfl : Quiet i i := ⟨Eq.refl _, .rfl, Eq.refl _⟩

theorem Lasts.quiet (h : Lasts registry Inv es (some i)) (hl : Lasting registry Inv) (hq : Quiet i j) :
    Lasts registry Inv es (some j) := ⟨hq.registry.trans h.1, hl.world _ _ _ hq.world hq.program h.2⟩

omit [NativeObject κ μ] in
/-- Going on with an outcome, if there is one. -/
theorem Lasts.bind (h : Lasts registry Inv es outcome) {f : Interpreter κ → Option (Interpreter κ)}
    {more : Interpreter κ → List (Effect κ μ)}
    (hf : ∀ j, Lasts registry Inv es (some j) → Lasts registry Inv (es ++ more j) (f j)) :
    Lasts registry Inv (es ++ (outcome.map more).getD []) (outcome.bind f) := by
  cases outcome with
  | none => simpa using h
  | some j => exact hf j h

theorem Lasts.andThen (h : Lasts registry Inv es outcome) (hl : Lasting registry Inv)
    {f : Interpreter κ → Interpreter κ} (hf : ∀ j, Quiet j (f j)) :
    Lasts registry Inv es (do return f (← outcome)) := by
  cases outcome with
  | none => exact h
  | some j => exact h.quiet hl (hf j)

/-! ## Instructions -/

theorem quiet_setPhase (i : Interpreter κ) (phase : Phase) : Quiet i (i.setPhase phase) :=
  ⟨rfl, ⟨⟨rfl, rfl, rfl⟩, rfl⟩, rfl⟩

theorem quiet_evaluate (i : Interpreter κ) (instruction : Instruction) :
    Quiet (i.calculate instruction.text).1 (i.evaluate instruction) := by
  unfold evaluate
  dsimp only
  split
  · exact ⟨rfl, .rfl, rfl⟩
  · split
    · exact ⟨rfl, ⟨⟨rfl, rfl, rfl⟩, rfl⟩, rfl⟩
    · split
      · exact ⟨rfl, .rfl, rfl⟩
      · split <;> exact ⟨rfl, ⟨⟨rfl, rfl, rfl⟩, rfl⟩, rfl⟩

theorem calculate_lasts (hl : Lasting registry Inv) (h : Lasts registry Inv es (some i)) (text : String) :
    Lasts registry Inv (es ++ effectsOf i.registry text i.script) (some (i.calculate text).1) := by
  obtain ⟨rfl, hi⟩ := h
  have hkept : KeptByUses i.registry fun s more => Inv s (es ++ more) :=
    ⟨fun s more x a hs hown => by simpa using hl.access s (es ++ more) x a hs hown,
      fun s more o hs => by simpa using hl.release s (es ++ more) o hs⟩
  exact ⟨rfl, calculate_invariant hkept text i.script i.errors (by simpa using hi)⟩

/-- What carrying out an instruction does. -/
def performEffects (i : Interpreter κ) (instruction : Instruction) : List (Effect κ μ) :=
  match instruction.opcode with
  | .calc | .jumpIfZero => effectsOf i.registry instruction.text i.script
  | _ => []

theorem perform_lasts (hl : Lasting registry Inv) (h : Lasts registry Inv es (some i)) (instruction : Instruction) :
    Lasts registry Inv (es ++ performEffects i instruction) (some (i.perform instruction)) := by
  have hq : ∀ {j : Interpreter κ}, Quiet i j → Lasts registry Inv (es ++ []) (some j) :=
    fun hij => (List.append_nil es).symm ▸ h.quiet hl hij
  unfold performEffects perform
  rcases instruction.opcode with _ | _ | _ | _ | _ | _ | _ | _ | _
  · exact hq ⟨rfl, ⟨⟨rfl, rfl, rfl⟩, rfl⟩, rfl⟩
  · exact (calculate_lasts hl h _).quiet hl (quiet_evaluate i instruction)
  · exact (calculate_lasts hl h _).quiet hl (quiet_evaluate i instruction)
  · exact hq ⟨rfl, ⟨⟨rfl, rfl, rfl⟩, rfl⟩, rfl⟩
  · exact hq ⟨rfl, ⟨⟨rfl, rfl, rfl⟩, rfl⟩, rfl⟩
  · dsimp only
    split <;> exact hq ⟨rfl, ⟨⟨rfl, rfl, rfl⟩, rfl⟩, rfl⟩
  · exact hq ⟨rfl, ⟨⟨rfl, rfl, rfl⟩, rfl⟩, rfl⟩
  · exact hq ⟨rfl, ⟨⟨rfl, rfl, rfl⟩, rfl⟩, rfl⟩
  · exact hq ⟨rfl, ⟨⟨rfl, rfl, rfl⟩, rfl⟩, rfl⟩

/-- What the next instruction does. -/
def stepEffects (i : Interpreter κ) : List (Effect κ μ) :=
  if i.script.phase ≠ .running then []
  else
    match i.script.program.get? i.script.ip with
    | some instruction => (i.modifyScript traceInstruction).performEffects instruction
    | none => []

theorem quiet_trace (i : Interpreter κ) : Quiet i (i.modifyScript traceInstruction) := by
  unfold traceInstruction modifyScript
  dsimp only
  split <;> exact ⟨rfl, ⟨⟨rfl, rfl, rfl⟩, rfl⟩, rfl⟩

theorem step_lasts (hl : Lasting registry Inv) (h : Lasts registry Inv es (some i)) :
    Lasts registry Inv (es ++ stepEffects i) (some i.step) := by
  unfold stepEffects step
  split
  · simpa using h
  · cases i.script.program.get? i.script.ip with
    | none =>
      rw [List.append_nil]
      exact h.quiet hl ⟨rfl, ⟨⟨rfl, rfl, rfl⟩, rfl⟩, rfl⟩
    | some instruction =>
      refine (perform_lasts hl (h.quiet hl (quiet_trace i)) instruction).quiet hl ?_
      dsimp only
      split <;> exact ⟨rfl, ⟨⟨rfl, rfl, rfl⟩, rfl⟩, rfl⟩

/-! ## Calls -/

/-- What the instructions of a call do. -/
def runCallEffects (call : Call) : Nat → Interpreter κ → List (Effect κ μ)
  | 0, _ => []
  | n + 1, i =>
    if i.script.phase = .error ∨ i.script.phase = .ready then []
    else
      i.stepEffects ++
        (if i.step.script.stack.length ≤ call.depth then []
        else if isLate i.step.script call then []
        else runCallEffects call n i.step)

theorem runCall_lasts (hl : Lasting registry Inv) (call : Call) (n : Nat) (h : Lasts registry Inv es (some i)) :
    Lasts registry Inv (es ++ runCallEffects call n i) (runCall call n i) := by
  induction n generalizing i es with
  | zero => exact ⟨i.script, by simpa [runCallEffects] using h.2⟩
  | succ n ih =>
    unfold runCallEffects runCall
    split
    · rw [List.append_nil]
      exact h.quiet hl ⟨rfl, ⟨⟨rfl, rfl, rfl⟩, rfl⟩, rfl⟩
    · have hstep := step_lasts hl h
      dsimp only
      rw [← List.append_assoc]
      split
      · rw [List.append_nil]
        exact hstep.quiet hl (quiet_setPhase _ _)
      · split
        · rw [List.append_nil]
          exact hstep.quiet hl ⟨rfl, ⟨⟨rfl, rfl, rfl⟩, rfl⟩, rfl⟩
        · exact ih hstep

/-- A script that is set up for a call. -/
def enter (i : Interpreter κ) (ip : Int) : Interpreter κ :=
  i.modifyScript fun s => { s with stack := s.ip :: s.stack, ip := ip }

def callAtEffects (limit : Nat) (i : Interpreter κ) (ip : Int) (stepMode : Bool) : List (Effect κ μ) :=
  if i.script.phase = .empty ∨ i.script.phase = .error ∨ ip < 0 then []
  else if stepMode then []
  else
    runCallEffects ⟨i.script.stack.length, i.script.phase, i.script.clock⟩ limit ((i.enter ip).setPhase .running)

theorem callAt_lasts (hl : Lasting registry Inv) (limit : Nat) (h : Lasts registry Inv es (some i)) (ip : Int)
    (stepMode : Bool) : Lasts registry Inv (es ++ callAtEffects limit i ip stepMode) (callAt limit i ip stepMode) := by
  unfold callAtEffects callAt
  dsimp only
  split
  · simpa using h
  · cases stepMode with
    | true =>
      simp only [if_true, List.append_nil]
      split <;> exact h.quiet hl ⟨rfl, ⟨⟨rfl, rfl, rfl⟩, rfl⟩, rfl⟩
    | false =>
      have hq : Quiet i ((i.enter ip).setPhase .running) := ⟨rfl, ⟨⟨rfl, rfl, rfl⟩, rfl⟩, rfl⟩
      exact runCall_lasts hl _ _ (h.quiet hl hq)

/-! ## Modes -/

def callLabelEffects (limit : Nat) (i : Interpreter κ) (name : String) (stepMode : Bool) : List (Effect κ μ) :=
  ((i.script.program.labelIp? name).map fun ip => callAtEffects limit i ip stepMode).getD []

theorem callLabel_lasts (hl : Lasting registry Inv) (limit : Nat) (h : Lasts registry Inv es (some i))
    (name : String) (stepMode : Bool) :
    Lasts registry Inv (es ++ callLabelEffects limit i name stepMode)
      ((callLabel limit i name stepMode).map Prod.fst) := by
  unfold callLabelEffects callLabel
  cases i.script.program.labelIp? name with
  | none => simpa using h
  | some ip => simpa [Function.comp_def] using callAt_lasts hl limit h ip stepMode

/-- What executing a mode does. -/
def executeEffects (limit : Nat) (i : Interpreter κ) : Mode → List (Effect κ μ)
  | .start | .abort => []
  | .step =>
    if i.script.phase = .running ∧ i.script.stepMode ∧ i.script.sleepUntil = none then i.stepEffects else []
  | .init => if i.script.phase = .compiled ∧ 0 ≤ i.script.main then callAtEffects limit i 0 false else []
  | .run =>
    if i.script.phase = .ready then
      callAtEffects limit (i.modifyScript fun s => { s with ip := -1, stepMode := false }) (max i.script.main 0) false
    else []

theorem quiet_startStepping (i : Interpreter κ) : Quiet i i.startStepping := by
  unfold startStepping
  split
  · exact .rfl
  · dsimp only [modifyScript]
    split <;> exact ⟨rfl, ⟨⟨rfl, rfl, rfl⟩, rfl⟩, rfl⟩

theorem quiet_abort (i : Interpreter κ) : Quiet i i.abort := by
  unfold abort
  split
  · exact .rfl
  · exact ⟨rfl, ⟨⟨rfl, rfl, rfl⟩, rfl⟩, rfl⟩

theorem takeStep_lasts (hl : Lasting registry Inv) (limit : Nat) (h : Lasts registry Inv es (some i)) :
    Lasts registry Inv (es ++ executeEffects limit i .step) (some i.takeStep) := by
  unfold executeEffects takeStep
  by_cases hrun : i.script.phase = .running ∧ i.script.stepMode = true
  · cases hsleep : i.script.sleepUntil with
    | none => simpa [hrun] using step_lasts hl h
    | some time =>
      simp only [hrun, and_self, if_true, reduceCtorEq, and_false, if_false, List.append_nil]
      split
      · exact h
      · exact h.quiet hl ⟨rfl, ⟨⟨rfl, rfl, rfl⟩, rfl⟩, rfl⟩
  · rw [if_neg hrun, if_neg fun h => hrun ⟨h.1, h.2.1⟩, List.append_nil]
    exact h

theorem initialise_lasts (hl : Lasting registry Inv) (limit : Nat) (h : Lasts registry Inv es (some i)) :
    Lasts registry Inv (es ++ executeEffects limit i .init) (i.initialise limit) := by
  have hlast : ∀ j : Interpreter κ, Quiet j (if j.script.phase = .error then j else j.setPhase .ready) := by
    intro j
    split
    · exact .rfl
    · exact quiet_setPhase _ _
  unfold executeEffects initialise
  by_cases hphase : i.script.phase = .compiled
  · simp only [hphase, true_and, ne_eq, not_true, if_false]
    split
    · exact (callAt_lasts hl limit h 0 false).andThen hl hlast
    · simpa using h.quiet hl (hlast i)
  · simp only [hphase, false_and, if_false, ne_eq, not_false_eq_true, if_true, List.append_nil]
    exact h

theorem runMain_lasts (hl : Lasting registry Inv) (limit : Nat) (h : Lasts registry Inv es (some i)) :
    Lasts registry Inv (es ++ executeEffects limit i .run) (i.runMain limit) := by
  have hq : Quiet i (i.modifyScript fun s => { s with ip := -1, stepMode := false }) :=
    ⟨rfl, ⟨⟨rfl, rfl, rfl⟩, rfl⟩, rfl⟩
  unfold executeEffects runMain
  by_cases hphase : i.script.phase = .ready
  · simp only [hphase, ne_eq, not_true, if_true, if_false]
    refine (callAt_lasts hl limit (h.quiet hl hq) (max i.script.main 0) false).andThen hl fun j => ?_
    split
    · exact ⟨rfl, ⟨⟨rfl, rfl, rfl⟩, rfl⟩, rfl⟩
    · exact ⟨rfl, ⟨⟨rfl, rfl, rfl⟩, rfl⟩, rfl⟩
    · exact .rfl
  · rw [if_neg hphase, if_pos hphase, List.append_nil]
    exact h

theorem execute_lasts (hl : Lasting registry Inv) (limit : Nat) (h : Lasts registry Inv es (some i)) (mode : Mode) :
    Lasts registry Inv (es ++ executeEffects limit i mode) (i.execute limit mode) := by
  have hlast : ∀ j : Interpreter κ, Quiet j (if j.errors.isError then j.setPhase .error else j) := by
    intro j
    split
    · exact quiet_setPhase _ _
    · exact .rfl
  have hnothing : Lasts registry Inv (es ++ []) (some i) := (List.append_nil es).symm ▸ h
  unfold execute
  cases mode with
  | start => exact (hnothing.quiet hl (quiet_startStepping i)).andThen hl hlast
  | step => exact (takeStep_lasts hl limit h).andThen hl hlast
  | init => exact (initialise_lasts hl limit h).andThen hl hlast
  | run => exact (runMain_lasts hl limit h).andThen hl hlast
  | abort => exact (hnothing.quiet hl (quiet_abort i)).andThen hl hlast

/-! ## Events -/

def deliverEffects (limit : Nat) (i : Interpreter κ) (e : LinkEvent) : List (Effect κ μ) :=
  if i.script.phase = .error ∨ i.script.phase = .compiled then []
  else ((i.script.binding.hookFor? e).map fun ip => callAtEffects limit i ip i.script.stepMode).getD []

theorem deliver_lasts (hl : Lasting registry Inv) (limit : Nat) (h : Lasts registry Inv es (some i))
    (e : LinkEvent) : Lasts registry Inv (es ++ deliverEffects limit i e) ((i.deliver limit e).map Prod.fst) := by
  unfold deliverEffects deliver
  split
  · simpa using h
  · cases i.script.binding.hookFor? e with
    | none => simpa using h
    | some ip => simpa [Function.comp_def] using callAt_lasts hl limit h ip i.script.stepMode

def deliverAllEffects (limit : Nat) : Interpreter κ → List LinkEvent → List (Effect κ μ)
  | _, [] => []
  | i, e :: es =>
    deliverEffects limit i e ++
      (((i.deliver limit e).map Prod.fst).map fun j => deliverAllEffects limit j es).getD []

theorem deliverAll_lasts (hl : Lasting registry Inv) (limit : Nat) (events : List LinkEvent)
    (h : Lasts registry Inv es (some i)) :
    Lasts registry Inv (es ++ deliverAllEffects limit i events) ((deliverAll limit i events).map Prod.fst) := by
  induction events generalizing i es with
  | nil => simpa [deliverAllEffects, deliverAll] using h
  | cons e events ih =>
    have hrest := (deliver_lasts hl limit h e).bind fun j hj => ih hj
    unfold deliverAllEffects deliverAll
    rw [← List.append_assoc]
    cases hd : i.deliver limit e with
    | none => simpa [hd] using hrest
    | some r =>
      cases ha : deliverAll limit r.1 events with
      | none => simpa [hd, ha] using hrest
      | some r' => simpa [hd, ha] using hrest

/-- What delivering the queued events does. -/
def dispatchEffects (limit : Nat) (i : Interpreter κ) : List (Effect κ μ) :=
  deliverAllEffects limit (i.modifyScript (·.setHost i.script.host.takeEvents.1)) i.script.host.takeEvents.2

theorem dispatch_lasts (hl : Lasting registry Inv) (limit : Nat) (h : Lasts registry Inv es (some i)) :
    Lasts registry Inv (es ++ dispatchEffects limit i) ((dispatchEvents limit i).map Prod.fst) := by
  have hq : Quiet i (i.modifyScript (·.setHost i.script.host.takeEvents.1)) := ⟨rfl, ⟨⟨rfl, rfl, rfl⟩, rfl⟩, rfl⟩
  exact deliverAll_lasts hl limit _ (h.quiet hl hq)

/-! ## Operations -/

end Interpreter

/-- What an application does with a script that it has compiled. Whatever runs the script is held within
a limit of instructions. -/
inductive Operation where
  | execute (limit : Nat) (mode : Mode)
  | callAt (limit : Nat) (ip : Int) (stepMode : Bool)
  | callLabel (limit : Nat) (name : String) (stepMode : Bool)
  | calculate (text : String)
  | dispatchEvents (limit : Nat)
  | takeOutput
  | setName (name : String)
  | setMaxLoopTime (limit : Option Micros)
  | setTrace (on : Bool)
  | setListing (on : Bool)
  | setEnvironment (environment : List (String × String))
  | passTime (t : Micros)
  /-- Something happens to the host, or to what the script is bound to there. -/
  | changeBinding (f : Binding → Binding)

namespace Operation

variable {κ μ : Type} [NativeObject κ μ]

/-- The interpreter after an operation; nothing if it does not end within its limit. -/
def apply (i : Interpreter κ) : Operation → Option (Interpreter κ)
  | execute limit mode => i.execute limit mode
  | callAt limit ip stepMode => i.callAt limit ip stepMode
  | callLabel limit name stepMode => (i.callLabel limit name stepMode).map Prod.fst
  | calculate text => some (i.calculate text).1
  | dispatchEvents limit => (i.dispatchEvents limit).map Prod.fst
  | takeOutput => some i.takeOutput.1
  | setName name => some (i.modifyScript fun s => { s with name := name })
  | setMaxLoopTime limit => some (i.modifyScript fun s => { s with maxLoopTime := limit })
  | setTrace on => some (i.modifyScript fun s => { s with trace := on })
  | setListing on => some (i.modifyScript fun s => { s with listing := on })
  | setEnvironment environment => some (i.modifyScript fun s => { s with environment := environment })
  | passTime t => some (i.modifyScript fun s => { s with clock := s.clock + t })
  | changeBinding f => some (i.modifyScript fun s => s.modifyBinding f)

/-- What an operation does to variables and objects, as far as it comes. -/
def effects (i : Interpreter κ) : Operation → List (Effect κ μ)
  | execute limit mode => i.executeEffects limit mode
  | callAt limit ip stepMode => i.callAtEffects limit ip stepMode
  | callLabel limit name stepMode => i.callLabelEffects limit name stepMode
  | calculate text => ScriptState.effectsOf i.registry text i.script
  | dispatchEvents limit => i.dispatchEffects limit
  | _ => []

open Interpreter (Lasting Lasts Leads)
open ScriptState (Chain SameHeap)

variable {registry : Registry κ} {Inv : ScriptState κ → List (Effect κ μ) → Prop} {i : Interpreter κ}
  {es : List (Effect κ μ)}

/-- Something happens to the host or the binding, and that keeps the property as well. -/
def Keeps (Inv : ScriptState κ → List (Effect κ μ) → Prop) : Operation → Prop
  | changeBinding f => ∀ s es, Inv s es → Inv (s.modifyBinding f) es
  | _ => True

theorem apply_lasts (hl : Lasting registry Inv) (h : Lasts registry Inv es (some i)) (op : Operation)
    (hop : op.Keeps Inv) : Lasts registry Inv (es ++ op.effects i) (op.apply i) := by
  have hnothing : Lasts registry Inv (es ++ []) (some i) := (List.append_nil es).symm ▸ h
  cases op with
  | execute limit mode => exact i.execute_lasts hl limit h mode
  | callAt limit ip stepMode => exact i.callAt_lasts hl limit h ip stepMode
  | callLabel limit name stepMode => exact i.callLabel_lasts hl limit h name stepMode
  | calculate text => exact i.calculate_lasts hl h text
  | dispatchEvents limit => exact i.dispatch_lasts hl limit h
  | changeBinding f => exact ⟨hnothing.1, hop _ _ hnothing.2⟩
  | _ => exact hnothing.quiet hl ⟨rfl, ⟨⟨rfl, rfl, rfl⟩, rfl⟩, rfl⟩

/-- The interpreter after some operations. -/
def run (i : Interpreter κ) : List Operation → Option (Interpreter κ)
  | [] => some i
  | op :: ops => (op.apply i).bind fun j => run j ops

/-- What some operations do, up to the first that does not end. -/
def runEffects (i : Interpreter κ) : List Operation → List (Effect κ μ)
  | [] => []
  | op :: ops => op.effects i ++ ((op.apply i).map fun j => runEffects j ops).getD []

/-- What every use of the script keeps, holds after any operations, with all their effects. -/
theorem run_lasts (hl : Lasting registry Inv) (h : Lasts registry Inv es (some i)) (ops : List Operation)
    (hops : ∀ op ∈ ops, op.Keeps Inv) : Lasts registry Inv (es ++ runEffects i ops) (run i ops) := by
  induction ops generalizing i es with
  | nil => simpa [runEffects, run] using h
  | cons op ops ih =>
    obtain ⟨hop, hops⟩ := List.forall_mem_cons.mp hops
    have hrest := (apply_lasts hl h op hop).bind fun j hj => ih hj hops
    rwa [List.append_assoc] at hrest

theorem chain_quiet {s t u : ScriptState κ} (h : Chain registry s es t) (hq : SameHeap t u) :
    Chain registry s es u := by
  simpa using h.append (.quiet hq)

theorem chain_lasting (s : ScriptState κ) : Lasting (μ := μ) registry fun t es => Chain registry s es t where
  access _ _ i a hc hi := hc.append (.single .rfl (.access _ i a hi))
  release _ _ h hc := hc.append (.single .rfl (.release _ h))
  world _ _ _ hw _ hc := chain_quiet hc hw.toSameHeap

/-- The effects of any operations start at the interpreter and lead to the one they leave. -/
theorem run_leads (ops : List Operation) (i : Interpreter κ) : i.Leads (runEffects i ops) (run i ops) := by
  have hops : ∀ op ∈ ops,
      op.Keeps fun (t : ScriptState κ) (es : List (Effect κ μ)) => Chain i.registry i.script es t := by
    intro op _
    cases op with
    | changeBinding f => exact fun t es hc => chain_quiet hc ⟨rfl, rfl, rfl⟩
    | _ => trivial
  have hrun := run_lasts (chain_lasting i.script) ⟨rfl, .quiet .rfl⟩ ops hops
  rw [List.nil_append] at hrun
  unfold Leads
  revert hrun
  cases run i ops with
  | none => exact fun ⟨t, ht⟩ => ⟨t, ht, by simp⟩
  | some j => exact fun ⟨hr, hj⟩ => ⟨j.script, hj, fun k hk => Option.some_inj.mp hk ▸ ⟨hr, .rfl⟩⟩

end Operation

end HostScript
