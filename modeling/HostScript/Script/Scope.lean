import HostScript.Compiler.Declarations
import HostScript.Expression.Scope
import HostScript.Script.HostFunctions
/-!
# A script as a scope

How the expressions of a script, and the compiler, see the names of the script. A variable that holds
the handle of an object counts as a reference to it.
-/

set_option autoImplicit false

namespace HostScript

open ScriptFunction (give)

namespace ScriptState

variable {κ μ : Type} [NativeObject κ μ]

/-! ## Variables and labels -/

/-- The object a value is the handle of. -/
def objectOf? (s : ScriptState κ) (v : Value) : Option Handle :=
  (Handle.ofValue? v).filter s.arena.contains

/-- Counts the references of a variable that changes from one object to another. -/
def moveReference (arena : Arena (ScriptObject κ)) (old new : Option Handle) : Arena (ScriptObject κ) :=
  if old = new then arena
  else
    let arena := match old with
      | some h => (Arena.release ScriptObject.mayGo arena h).1
      | none => arena
    match new with
    | some h => arena.retain h
    | none => arena

/-- Assigns to a variable, which keeps its type. -/
def assignVariable (s : ScriptState κ) (index : Nat) (x : ScriptVariable) (v : Value) : ScriptState κ :=
  { s with
    arena := moveReference s.arena (s.objectOf? x.value) (s.objectOf? v)
    vars := s.vars.set index { x with value := x.value.assign v } }

def accessVariable (index : Nat) (a : Access) : ScriptAction κ (Answer Value) := do
  let s ← get
  match s.vars[index]?, a with
  | none, _ => return .error .unknownVariable
  | some x, .write v =>
    set (s.assignVariable index x v)
    return give v
  | some x, _ => return give x.value

/-- A label is the position it was set at. -/
def accessLabel (index : Nat) (a : Access) : ScriptAction κ (Answer Value) := do
  match a, (← get).program.labels[index]? with
  | .write _, _ => return .error .assignConstant
  | _, some l => return give (.int (Int64.ofInt l.ip))
  | _, none => return .error .unknownConstant

/-! ## The scope -/

def access (registry : Registry κ) (i : ScriptId μ) (a : Access) : ScriptAction κ (Answer Value) :=
  match i with
  | .function f =>
    match a with
    | .call args => f.call registry args
    | _ => return .ok none
  | .hostFunction f =>
    match a with
    | .call args => Binding.call f args
    | _ => return .ok none
  | .keyword _ | .external _ => return .ok none
  | .variable index => accessVariable index a
  | .label index => accessLabel index a
  | .bound index => Binding.accessBound index a
  | .parameter index => Binding.accessParameter index a
  | .member h m => ScriptObject.access h m a

/-- The member of an object. -/
def member? (s : ScriptState κ) (h : Handle) (name : String) : Option (Identifier (ScriptId μ)) := do
  let o ← s.arena.get? h
  let i ← Identifier.find? o.members name
  return i.map (.member h)

/-- The scope that expressions of a script are evaluated in. No value of it is a reference. -/
def scope (registry : Registry κ) : Scope (ScriptId μ) (ScriptState κ) where
  find? := findName?
  access _ i a := do
    let s ← get
    let (answer, state) := access registry i a s.state
    set { s with state := state }
    return answer.map (·.map .value)
  isObject s h := s.arena.contains h
  member? := member?
  release h s := { s with arena := (Arena.collect ScriptObject.mayGo s.arena h).1 }
  names := names
  cells _ := .empty
  setCells _ s := s

def engine (registry : Registry κ) : Engine κ (ScriptId μ) (ScriptState κ) := ⟨registry, scope registry⟩

/-! ## Declarations -/

/-- What an identifier of the script means at the start of a statement. -/
def meaningOf (i : Identifier (Symbol (ScriptId μ))) : Meaning ExternalWord :=
  match i.id with
  | .scoped (.keyword k) => .keyword k
  | .scoped (.external x) => .external x
  | .builtin (.typedef ty) => .typedef ty
  | _ => .expression

def declarations (registry : Registry κ) : Declarations ExternalWord (ScriptState κ) where
  meaning s name :=
    match (engine registry).find? s name with
    | some i => meaningOf i
    | none => .unknown
  declare name ty s := { s with vars := s.vars ++ [⟨name, .zero ty⟩] }
  external x text s :=
    let (accepted, s) := Binding.statement x text s
    (s, accepted)

end ScriptState

end HostScript
