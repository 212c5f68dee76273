import HostScript.Object.Native
/-!
# Functions of the application

An application registers functions under a name, and factories for the objects scripts may create.
Registering a name again replaces what was registered before, in its place.
-/

namespace HostScript

/-- A function that every script can call. -/
structure NativeFunction where
  name : String
  params : Int
  call : List Value → Except ErrorKind Value

/-- Makes objects of one type. -/
structure Factory (κ : Type) where
  name : String
  create : List Value → Except ErrorKind κ

/-- What an application has registered, in order. -/
structure Registry (κ : Type) where
  functions : List NativeFunction
  factories : List (Factory κ)

namespace Registry

variable {κ α : Type}

def empty : Registry κ := ⟨[], []⟩

/-- Replaces the first entry that has the same name, or adds one at the end. -/
def place (nameOf : α → String) (entry : α) : List α → List α
  | [] => [entry]
  | e :: es => if nameOf e == nameOf entry then entry :: es else e :: place nameOf entry es

def register (r : Registry κ) (f : NativeFunction) : Registry κ :=
  { r with functions := place NativeFunction.name f r.functions }

def registerFactory (r : Registry κ) (f : Factory κ) : Registry κ :=
  { r with factories := place Factory.name f r.factories }

/-- The function of a name, known by its position. -/
def find? (r : Registry κ) (name : String) : Option (Identifier Nat) := do
  let i ← r.functions.findIdx? (·.name == name)
  let f ← r.functions[i]?
  return ⟨.function, name, f.params, i⟩

def names (r : Registry κ) : List String := r.functions.map (·.name)

def call (r : Registry κ) (index : Nat) (args : List Value) : Except ErrorKind Value :=
  match r.functions[index]? with
  | some f => f.call args
  | none => .error .unknownFunction

/-- A new object of the named type. -/
def create (r : Registry κ) (name : String) (args : List Value) : Except ErrorKind κ :=
  match r.factories.find? (·.name == name) with
  | some f => f.create args
  | none => .error .unknownIdentifier

end Registry

end HostScript
