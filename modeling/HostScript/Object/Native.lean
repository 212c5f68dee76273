import HostScript.Identifier
import HostScript.Value.Basic
/-!
# Objects of the application

An application gives scripts objects of its own type. What a script can do with one is described
here: look a member up by name and read it, write it or call it.
-/

namespace HostScript

/-- What is done with an identifier. -/
inductive Access where
  | read
  | write (v : Value)
  | call (args : List Value)
deriving Repr, Inhabited

/-- What an access gives: nothing if the owner does not handle it, otherwise the value read. -/
abbrev Answer (α : Type) := Except ErrorKind (Option α)

/-- The objects of type `κ` that an application brings, with members known as `μ`. -/
class NativeObject (κ : Type) (μ : outParam Type) where
  /-- The name of the type, for listings and printed handles. -/
  typeName : κ → String
  /-- The members in the order in which they are listed. -/
  members : κ → List (Identifier μ)
  /-- Reads, writes or calls a member; the object may change in doing so. -/
  access : κ → μ → Access → Answer (κ × Value)
  /-- Whether the object may go when nothing refers to it any more. -/
  mayGo : κ → Bool

/-- There may be no objects of the application at all. -/
instance : NativeObject Empty Empty where
  typeName := Empty.elim
  members := Empty.elim
  access := Empty.elim
  mayGo := Empty.elim

end HostScript
