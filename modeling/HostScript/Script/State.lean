import HostScript.Host.Host
import HostScript.Object.Arena
import HostScript.Program.Instruction
import HostScript.Script.Clock
import HostScript.Script.Object
import HostScript.Script.Phase
import HostScript.Value.Stream
/-!
# The state of a script

Everything a script has: its program, its variables and objects, where it stands in its program, what
it has written, and how it is bound to a host. A script that is not bound has an empty host that it
cannot reach.
-/

namespace HostScript

/-- A variable that the script declared. -/
structure ScriptVariable where
  name : String
  value : Value
deriving Repr

/-- A host variable that the script reaches, under a name or only through its object. -/
structure VariableBinding where
  name : Option String
  link : Nat
  handle : Handle
  hooks : HookSlots
  /-- Whether the script is not told of its own changes. -/
  skipEvent : Bool
  /-- The label that is called when the value changes. -/
  changeLabel : Option String
deriving Repr

/-- A result that the script reaches through its object. -/
structure ResultBinding where
  link : Nat
  handle : Handle
  hooks : HookSlots
deriving Repr

/-- A host variable that the application hands to scripts; its object exists while a script is
linked. -/
structure Parameter where
  name : String
  link : Nat
  handle : Option Handle
deriving Repr

/-- What ties a script to a host. -/
structure Binding where
  host : Host
  vars : List VariableBinding
  results : List ResultBinding
  parameters : List Parameter
deriving Repr

namespace Binding

def empty : Binding := ⟨.empty, [], [], []⟩

instance : Inhabited Binding := ⟨empty⟩

/-- The binding of a name. -/
def named? (b : Binding) (name : String) : Option VariableBinding :=
  b.vars.find? (·.name == some name)

def boundNames (b : Binding) : List String := b.vars.filterMap (·.name)

/-- Changes the bindings of a variable that go through a link. -/
def modifyVariable (b : Binding) (link : Nat) (f : VariableBinding → VariableBinding) : Binding :=
  { b with vars := b.vars.map fun v => if v.link = link then f v else v }

def modifyResult (b : Binding) (link : Nat) (f : ResultBinding → ResultBinding) : Binding :=
  { b with results := b.results.map fun r => if r.link = link then f r else r }

/-- Whether changes through a link are kept from the script; they are unless it says otherwise. -/
def skipsEvent (b : Binding) (link : Nat) : Bool :=
  match b.vars.find? (·.link = link) with
  | some v => v.skipEvent
  | none => true

/-- The position that an event calls, if it fires an armed hook. -/
def hookFor? (b : Binding) (e : LinkEvent) : Option Int :=
  match b.vars.find? (·.link = e.link) with
  | some v => e.event.variableHook?.bind v.hooks.armed?
  | none => (b.results.find? (·.link = e.link)).bind fun r => e.event.resultHook?.bind r.hooks.armed?

end Binding

/-- The state of a script whose application brings objects of type `κ`. -/
structure ScriptState (κ : Type) where
  program : Program
  vars : List ScriptVariable
  arena : Arena (ScriptObject κ)
  /-- Where to go back to, latest first. -/
  stack : List Int
  /-- The next instruction, or minus one. -/
  ip : Int
  /-- The instruction that failed, or minus one. -/
  errorIp : Int
  /-- Where the label `main` is, or minus one. -/
  main : Int
  phase : Phase
  stepMode : Bool
  /-- Whether every instruction is written to the output. -/
  trace : Bool
  /-- Whether compiling writes a listing to the output. -/
  listing : Bool
  name : String
  /-- How long a call may take. -/
  maxLoopTime : Option Micros
  sleepUntil : Option Micros
  clock : Micros
  exitCode : ExitCode
  /-- Where compiling stopped. -/
  compilePos : SourcePos
  output : Array String
  /-- The variables of the environment. -/
  environment : List (String × String)
  /-- Whether the script can reach the host. -/
  bound : Bool
  binding : Binding

namespace ScriptState

variable {κ : Type}

/-- No script, at some time. -/
def initial (bound : Bool) (clock : Micros) : ScriptState κ where
  program := .empty
  vars := []
  arena := .empty
  stack := []
  ip := -1
  errorIp := -1
  main := -1
  phase := .empty
  stepMode := false
  trace := false
  listing := false
  name := ""
  maxLoopTime := none
  sleepUntil := none
  clock := clock
  exitCode := .normal
  compilePos := ⟨0, 0⟩
  output := #[]
  environment := []
  bound := bound
  binding := .empty

instance : Inhabited (ScriptState κ) := ⟨initial false 0⟩

/-- Moves to a phase. The instruction at which an error arose is kept as long as it lasts. -/
def setPhase (s : ScriptState κ) (phase : Phase) : ScriptState κ :=
  { s with
    phase := phase
    errorIp := if phase = .error then (if s.phase = .error then s.errorIp else s.ip) else -1 }

def print (s : ScriptState κ) (line : String) : ScriptState κ := { s with output := s.output.push line }

def printAll (s : ScriptState κ) (lines : List String) : ScriptState κ := lines.foldl print s

/-- The current value of a variable. -/
def valueOf? (s : ScriptState κ) (name : String) : Option Value :=
  (s.vars.find? (·.name == name)).map (·.value)

/-- A variable of the environment; one that is not set is empty. -/
def environmentText (s : ScriptState κ) (name : String) : String :=
  ((s.environment.find? (·.1 == name)).map (·.2)).getD ""

/-- Drops what was remembered beyond a depth. -/
def truncateStack (s : ScriptState κ) (depth : Nat) : ScriptState κ :=
  { s with stack := s.stack.drop (s.stack.length - depth) }

def modifyBinding (s : ScriptState κ) (f : Binding → Binding) : ScriptState κ :=
  { s with binding := f s.binding }

def host (s : ScriptState κ) : Host := s.binding.host

def setHost (s : ScriptState κ) (host : Host) : ScriptState κ :=
  { s with binding := { s.binding with host := host } }

/-- The lines of a listing: variables, labels and instructions. -/
def listingLines (s : ScriptState κ) : List String :=
  (s.vars.map fun v => "VARIABLES: " ++ v.name ++ " " ++ v.value.toStream)
    ++ (s.program.labels.map fun l => "LABELS: " ++ l.name ++ " " ++ toString l.ip)
    ++ s.program.listing

end ScriptState

end HostScript
