import HostScript.Compiler.Statement
import HostScript.Expression.Evaluate
import HostScript.Script.Scope
/-!
# Compiling and running scripts

An interpreter holds one script at a time. It compiles a source, runs the part before `main` once and
then `main` as often as it is asked to, calls labels, and delivers the events of the host.

A call may go on forever, so running is limited to a number of instructions, and gives nothing when
they do not suffice. The time limit of a script is another matter: it is an error of the script.
-/

set_option autoImplicit false

namespace HostScript

/-- A script and what its last evaluation left. -/
structure Interpreter (κ : Type) where
  registry : Registry κ
  script : ScriptState κ
  errors : ErrorState
  accumulator : Value

namespace Interpreter

variable {κ μ : Type} [NativeObject κ μ]

/-- An interpreter without a script; `bound` tells whether scripts reach its host. -/
def new (registry : Registry κ) (bound : Bool) (clock : Micros) : Interpreter κ :=
  ⟨registry, .initial bound clock, .clear, .undefined⟩

def report (i : Interpreter κ) (e : ScriptError) : Interpreter κ := { i with errors := i.errors.report e }

def modifyScript (i : Interpreter κ) (f : ScriptState κ → ScriptState κ) : Interpreter κ :=
  { i with script := f i.script }

def setPhase (i : Interpreter κ) (phase : Phase) : Interpreter κ := i.modifyScript (·.setPhase phase)

/-- Records how the script ended. -/
def exitWith (i : Interpreter κ) (code : ExitCode) : Interpreter κ :=
  i.modifyScript fun s => { s with exitCode := code }

/-- Takes what the script has written. -/
def takeOutput (i : Interpreter κ) : Interpreter κ × List String :=
  (i.modifyScript fun s => { s with output := #[] }, i.script.output.toList)

/-- All names that expressions of the script can use. -/
def names (i : Interpreter κ) : List String := (ScriptState.engine i.registry).names i.script

/-! ## Evaluating -/

/-- Evaluates an expression with the names of the script. -/
def calculate (i : Interpreter κ) (text : String) : Interpreter κ × Option Value :=
  let (v, session) := (ScriptState.engine i.registry).calculate 1 text ⟨i.script, i.errors⟩
  ({ i with script := session.state, errors := session.errors }, v)

/-! ## Compiling -/

/-- Drops the script and everything it made. -/
def clear (i : Interpreter κ) : Interpreter κ :=
  { i with
    errors := .clear
    script :=
      { i.script.setPhase .empty with
        vars := []
        program := .empty
        stack := []
        ip := -1
        main := -1
        sleepUntil := none
        compilePos := ⟨0, 0⟩
        arena := .empty
        binding := i.script.binding.clear } }

/-- Links a compiled program. -/
def link (i : Interpreter κ) (program : Program) : Interpreter κ × Option ScriptError :=
  let (bound, s) := Binding.link { i.script with program := program }
  match bound with
  | .error e => ({ i with script := s }, some e)
  | .ok () =>
    let (program, e) := s.program.link
    ({ i with script := { s with program := program } }, e)

/-- A linked script is ready to be initialised. -/
def begin (i : Interpreter κ) : Interpreter κ :=
  i.modifyScript fun s =>
    let s := { s with main := (s.program.labelIp? "main").getD (-1) }
    let s := if s.listing then s.printAll s.listingLines else s
    { s.setPhase .compiled with ip := -1 }

/-- What came of compiling. -/
inductive Compiled where
  | done
  | failed
  /-- See `Stop.beyondSource`. -/
  | beyondSource
deriving Repr, DecidableEq

/-- Compiles and links a source in place of the script there was; a running script stays. -/
def compile (i : Interpreter κ) (source : String) : Interpreter κ × Compiled :=
  if i.script.phase = .running then (i, .failed)
  else
    let i := i.clear
    match Compiler.compile (ScriptState.declarations i.registry) source i.script with
    | (.beyondSource, s) => ({ i with script := s }, .beyondSource)
    | (.rejected e, s) => ({ i with script := { s with compilePos := e.pos } }.report e.error, .failed)
    | (.compiled program, s) =>
      match { i with script := s }.link program with
      | (i, some e) => (i.report e, .failed)
      | (i, none) => (i.begin, .done)

/-! ## Single instructions -/

/-- Writes the next instruction to the output if that is wanted. -/
def traceInstruction (s : ScriptState κ) : ScriptState κ :=
  if s.trace then
    s.print ("Script '" ++ s.name ++ "': " ++ (s.program.line? s.ip).getD "")
  else s

def jumpTo (i : Interpreter κ) (ip : Int) : Interpreter κ := i.modifyScript fun s => { s with ip := ip }

/-- Evaluates the expression of an instruction. An expression that ends the script decides itself
where the script stands; otherwise the script goes on, with a zero at the target of a test. -/
def evaluate (i : Interpreter κ) (instruction : Instruction) : Interpreter κ :=
  let depth := i.script.stack.length
  let (i, v) := i.calculate instruction.text
  let i := { i with accumulator := v.getD i.accumulator }
  if i.script.stack.length < depth then i
  else if v.isNone then i.setPhase .error
  else if i.script.phase ≠ .running then i
  else if instruction.opcode = .jumpIfZero ∧ i.accumulator.isZero then i.jumpTo instruction.target
  else i.jumpTo (i.script.ip + 1)

/-- Carries an instruction out. -/
def perform (i : Interpreter κ) (instruction : Instruction) : Interpreter κ :=
  match instruction.opcode with
  | .nop => i.jumpTo (i.script.ip + 1)
  | .calc | .jumpIfZero => i.evaluate instruction
  | .jump => i.jumpTo instruction.target
  | .call =>
    i.modifyScript fun s => { s with stack := (s.ip + 1) :: s.stack, ip := instruction.target }
  | .ret =>
    match i.script.stack with
    | ip :: stack => i.modifyScript fun s => { s with stack := stack, ip := ip }
    | [] => (i.report ⟨.ipStack, "Unexpected end of stack."⟩).setPhase .error
  | .goto | .leave | .again =>
    (i.report ⟨.compilerImplementationError, instruction.opcode.mnemonic⟩).setPhase .error

/-- Runs the next instruction of a running script; after the last one the script has ended. -/
def step (i : Interpreter κ) : Interpreter κ :=
  if i.script.phase ≠ .running then i
  else
    match i.script.program.get? i.script.ip with
    | some instruction =>
      let i := (i.modifyScript traceInstruction).perform instruction
      let i := i.modifyScript fun s => { s with clock := s.clock + instructionTime }
      if i.script.phase = .error then i.exitWith .error else i
    | none => ((i.exitWith .normal).setPhase .ready).jumpTo (-1)

/-! ## Calls -/

/-- A call that is under way. -/
structure Call where
  /-- How much was remembered before it. -/
  depth : Nat
  /-- The phase to return to. -/
  phase : Phase
  started : Micros
deriving Repr

/-- Whether a call has taken longer than it may. -/
def isLate (s : ScriptState κ) (call : Call) : Bool :=
  s.maxLoopTime.any fun limit => limit < s.clock - call.started

def timeOut (i : Interpreter κ) (call : Call) : Interpreter κ :=
  (i.setPhase .error).report ⟨.scriptTimeout, secondsText (i.script.clock - call.started)⟩

/-- Runs a call to its end, in at most `n` instructions. -/
def runCall (call : Call) : Nat → Interpreter κ → Option (Interpreter κ)
  | 0, _ => none
  | n + 1, i =>
    if i.script.phase = .error ∨ i.script.phase = .ready then
      some (i.modifyScript (·.truncateStack call.depth))
    else
      let i := i.step
      if i.script.stack.length ≤ call.depth then some (i.setPhase call.phase)
      else if isLate i.script call then some (i.timeOut call)
      else runCall call n i

/-- Calls what is at a position. In step mode the call is only set up. -/
def callAt (limit : Nat) (i : Interpreter κ) (ip : Int) (stepMode : Bool) : Option (Interpreter κ) :=
  let phase := i.script.phase
  if phase = .empty ∨ phase = .error ∨ ip < 0 then some i
  else
    let depth := i.script.stack.length
    let i := i.modifyScript fun s => { s with stack := s.ip :: s.stack, ip := ip }
    if stepMode then some (if phase = .ready then i.setPhase .running else i)
    else runCall ⟨depth, phase, i.script.clock⟩ limit (i.setPhase .running)

/-- Calls a label, and tells whether there is one. -/
def callLabel (limit : Nat) (i : Interpreter κ) (name : String) (stepMode : Bool) :
    Option (Interpreter κ × Bool) :=
  match i.script.program.labelIp? name with
  | none => some (i, false)
  | some ip => (callAt limit i ip stepMode).map fun i => (i, true)

/-! ## Modes -/

/-- Puts a ready script before its first instruction. -/
def startStepping (i : Interpreter κ) : Interpreter κ :=
  if i.script.phase ≠ .ready then i
  else
    let i := i.modifyScript fun s =>
      if 0 ≤ s.main then { s with stack := -1 :: s.stack, ip := s.main } else { s with ip := 0 }
    (i.setPhase .running).modifyScript fun s => { s with stepMode := true }

/-- One step, unless the script sleeps; waking up takes a step of its own. -/
def takeStep (i : Interpreter κ) : Interpreter κ :=
  if i.script.phase = .running ∧ i.script.stepMode then
    match i.script.sleepUntil with
    | none => i.step
    | some time =>
      if i.script.clock < time then i else i.modifyScript fun s => { s with sleepUntil := none }
  else i

/-- Runs the part before `main`. -/
def initialise (limit : Nat) (i : Interpreter κ) : Option (Interpreter κ) := do
  if i.script.phase ≠ .compiled then return i
  let i ← if 0 ≤ i.script.main then callAt limit i 0 false else some i
  return if i.script.phase = .error then i else i.setPhase .ready

/-- Runs `main`, or the whole script if there is no such label. -/
def runMain (limit : Nat) (i : Interpreter κ) : Option (Interpreter κ) := do
  if i.script.phase ≠ .ready then return i
  let i := i.modifyScript fun s => { s with ip := -1, stepMode := false }
  let i ← callAt limit i (max i.script.main 0) false
  return match i.script.phase with
    | .running => ((i.exitWith .normal).setPhase .ready).jumpTo (-1)
    | .error => i.exitWith .error
    | _ => i

def abort (i : Interpreter κ) : Interpreter κ :=
  if i.script.phase ≠ .running then i
  else
    ((i.exitWith .application).setPhase .ready).modifyScript fun s => { s with ip := -1, stack := [] }

/-- Does what a mode asks for, if the script is in the phase for it. An error that was left by the
last evaluation shows in the phase afterwards. -/
def execute (limit : Nat) (i : Interpreter κ) (mode : Mode) : Option (Interpreter κ) := do
  let i ← match mode with
    | .start => some i.startStepping
    | .step => some i.takeStep
    | .init => i.initialise limit
    | .run => i.runMain limit
    | .abort => some i.abort
  return if i.errors.isError then i.setPhase .error else i

/-- The states after at most `n` single steps; it ends with the first in which the script does not
run. -/
def walk (limit : Nat) : Nat → Interpreter κ → List (Interpreter κ)
  | 0, _ => []
  | n + 1, i =>
    match i.execute limit .step with
    | none => []
    | some i => i :: (if i.script.phase = .running then walk limit n i else [])

/-! ## Events -/

/-- Delivers one event, and tells whether a hook was called. A script that is in error or not yet
initialised misses it. -/
def deliver (limit : Nat) (i : Interpreter κ) (e : LinkEvent) : Option (Interpreter κ × Bool) :=
  if i.script.phase = .error ∨ i.script.phase = .compiled then some (i, false)
  else
    match i.script.binding.hookFor? e with
    | none => some (i, false)
    | some ip => (callAt limit i ip i.script.stepMode).map fun i => (i, true)

/-- Delivers events in order and counts the hooks that were called. -/
def deliverAll (limit : Nat) : Interpreter κ → List LinkEvent → Option (Interpreter κ × Nat)
  | i, [] => some (i, 0)
  | i, e :: es => do
    let (i, called) ← deliver limit i e
    let (i, n) ← deliverAll limit i es
    return (i, if called then n + 1 else n)

/-- Delivers the events that are queued now. -/
def dispatchEvents (limit : Nat) (i : Interpreter κ) : Option (Interpreter κ × Nat) :=
  let (host, events) := i.script.host.takeEvents
  deliverAll limit (i.modifyScript (·.setHost host)) events

/-! ## Diagnostics -/

/-- The listing line at a position, or blanks. -/
def instructionText (i : Interpreter κ) (ip : Int) : String :=
  (i.script.program.line? ip).getD (String.ofList (List.replicate 70 ' '))

/-- Where the script went wrong. -/
def locationText (i : Interpreter κ) : String :=
  let s := i.script
  if s.phase = .empty then
    "\nLocation: Line " ++ toString (s.compilePos.line + 1) ++ ", Pos " ++ toString s.compilePos.offset
  else
    match s.program.get? s.errorIp with
    | some instruction =>
      "\nLocation: Instr " ++ toString s.errorIp ++ " " ++ instruction.text
        ++ " at Line " ++ toString (instruction.pos.line + 1)
        ++ " at Pos " ++ toString instruction.pos.offset
    | none => ""

/-- The name, the phase and the error of the script, and where it arose. -/
def debugText (i : Interpreter κ) : String :=
  "Script: " ++ i.script.name ++ "\nState: " ++ i.script.phase.name
    ++ "\nError: '" ++ i.errors.reason ++ "' " ++ i.errors.kind.text ++ i.locationText

/-- The host variable that a bound name is attached to. -/
def boundId? (i : Interpreter κ) (name : String) : Option Int64 :=
  match (i.script.binding.named? name).bind fun v => i.script.host.target? v.link with
  | some (.variable id) => some id
  | _ => none

end Interpreter

end HostScript
