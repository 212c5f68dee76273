import HostScript.Error
/-!
# Identifiers

Looking a name up gives an `Identifier`: its kind, how many parameters it takes, and the layer that
answered the lookup. Every read, write and call goes back to that layer, which finds there what it
needs to know: a builtin its own name, the registry a position, a scope an identity of its own
type.
-/

namespace HostScript

/-- What a name stands for. -/
inductive IdKind where
  | constant
  | variable
  | function
  | typedef
  | keyword
deriving Repr, DecidableEq, Inhabited

/-- A known name, with the identity `ι` by which its owner knows it. -/
structure Identifier (ι : Type) where
  kind : IdKind
  name : String
  /-- Exactly so many parameters if positive, otherwise at least as many as its magnitude. -/
  params : Int
  id : ι
deriving Repr

/-- The parameter count of functions that take anything. -/
def unlimited : Int := 0x7FFFFFFF

/-- Checks the number of parameters of a call. -/
def checkParams (params : Int) (count : Nat) : Except ErrorKind Unit :=
  if params = unlimited then .ok ()
  else if 0 < params ∧ params.natAbs < count then .error .tooManyParameters
  else if count < params.natAbs then .error .tooFewParameters
  else .ok ()

namespace Identifier

variable {ι κ : Type}

def map (f : ι → κ) (i : Identifier ι) : Identifier κ := ⟨i.kind, i.name, i.params, f i.id⟩

/-- The entry of a table for a name. -/
def find? (table : List (Identifier ι)) (name : String) : Option (Identifier ι) :=
  table.find? (·.name == name)

/-- The names of a table in its order. -/
def names (table : List (Identifier ι)) : List String := table.map (·.name)

end Identifier

end HostScript
