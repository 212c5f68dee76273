import HostScript.Host.Definition
/-!
# Host variables

A variable has its definition, a current value and current flags. Every value that is stored has the
type of the variable, and a number is brought into the limits and rounded before.
-/

namespace HostScript

structure Variable where
  definition : VariableDefinition
  current : Value
  flags : VariableFlags
deriving Repr

namespace Variable

/-- A variable as it is defined: with its default. -/
def ofDefinition (d : VariableDefinition) : Variable := ⟨d, d.default, d.flags⟩

def id (v : Variable) : Int64 := v.definition.id

def name (v : Variable) (levels : Int) : String := pathAt levels v.definition.name

/-- A number held between the limits, unless both limits are the same. -/
def clamp (d : VariableDefinition) (x : Value) : Value :=
  if d.max.equals d.min then x
  else
    let x := if x.greater d.max then d.max else x
    if x.less d.min then d.min else x

/-- The value that is stored for an incoming one of the right type. -/
def adjust (d : VariableDefinition) (x : Value) : Value :=
  if d.type == .integer || d.type == .float then (clamp d x).round d.round else x

/-- Stores a value and tells whether it changed; nothing if it does not convert. -/
def store? (v : Variable) (incoming : Value) : Option (Variable × Bool) :=
  match incoming.convert v.definition.type with
  | (_, false) => none
  | (x, true) =>
    let x := adjust v.definition x
    some ({ v with current := x }, v.current.type != x.type || !v.current.equals x)

/-- The name of the current value, or its text if it has none. -/
def currentText (v : Variable) : String :=
  match v.definition.states.find? (·.value.equals v.current) with
  | some s => s.name
  | none => v.current.text

end Variable

end HostScript
