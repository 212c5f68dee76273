import HostScript.Expression.Evaluate
/-!
# The calculator

Expressions may be evaluated on their own, with nothing but three numbers `x`, `y` and `z` to refer
to. An expression that fails gives a default.
-/

namespace HostScript.Calculator

/-- The three inputs. -/
inductive Input where
  | x
  | y
  | z
deriving Repr, DecidableEq

/-- The values of the inputs. -/
structure Inputs where
  x : Float
  y : Float
  z : Float
deriving Repr

namespace Inputs

def zero : Inputs := ⟨0.0, 0.0, 0.0⟩

def get (inputs : Inputs) : Input → Float
  | .x => inputs.x
  | .y => inputs.y
  | .z => inputs.z

def set (inputs : Inputs) (i : Input) (v : Float) : Inputs :=
  match i with
  | .x => { inputs with x := v }
  | .y => { inputs with y := v }
  | .z => { inputs with z := v }

end Inputs

def table : List (Identifier Input) :=
  [⟨.constant, "x", 0, .x⟩, ⟨.constant, "y", 0, .y⟩, ⟨.constant, "z", 0, .z⟩]

/-- The inputs can be read and not written. -/
def access (inputs : Inputs) (i : Input) : Access → Answer Operand
  | .write _ => .error .assignConstant
  | _ => .ok (some (.value (.float (inputs.get i))))

def scope : Scope Input Inputs where
  find? _ name := Identifier.find? table name
  access _ i a := do return access (← get).state i a
  isObject _ _ := false
  member? _ _ _ := none
  release _ s := s
  names _ := Identifier.names table
  cells _ := .empty
  setCells _ s := s

/-- An engine that knows the inputs and the builtins. -/
def engine : Engine Empty Input Inputs := ⟨.empty, scope⟩

/-- The value of an expression over the inputs, if it has one. -/
def evaluate? (inputs : Inputs) (text : String) : Option Value :=
  (engine.calculate 1 text ⟨inputs, .clear⟩).1

/-- The value of an expression with all inputs zero. -/
def evaluate (text : String) (default : Value) : Value := (evaluate? .zero text).getD default

/-- The value of an expression as a float; what is no number gives the default, too. -/
def evaluateFloat (text : String) (default : Float) (inputs : Inputs) : Float :=
  match evaluate? inputs text with
  | some v => if v.isNumber then v.toFloat else default
  | none => default

end HostScript.Calculator
