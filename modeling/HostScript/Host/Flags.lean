/-!
# Flags

Variables and results have flags, each written as a letter. A set of flags is written as its letters
in the order of the alphabet; letters that mean nothing are ignored when a set is read.
-/

namespace HostScript

/-- A set of flags out of an alphabet, one bit for each letter. -/
structure FlagSet (alphabet : String) where
  mask : UInt16
deriving Repr, DecidableEq

namespace FlagSet

variable {alphabet : String}

/-- The bit of a letter. -/
def bitOf (alphabet : String) (c : Char) : UInt16 :=
  match alphabet.toList.idxOf? c with
  | some i => 1 <<< UInt16.ofNat i
  | none => 0

def ofLetters (letters : String) : FlagSet alphabet :=
  ⟨letters.toList.foldl (fun mask c => mask ||| bitOf alphabet c) 0⟩

def union (a b : FlagSet alphabet) : FlagSet alphabet := ⟨a.mask ||| b.mask⟩

def diff (a b : FlagSet alphabet) : FlagSet alphabet := ⟨a.mask &&& ~~~b.mask⟩

/-- Whether all flags of `b` are among those of `a`. -/
def contains (a b : FlagSet alphabet) : Bool := a.mask &&& b.mask == b.mask

def letters (a : FlagSet alphabet) : String :=
  String.ofList (alphabet.toList.filter fun c => a.mask &&& bitOf alphabet c != 0)

end FlagSet

/-- Read only, archived, shared, link, function, parameter, hidden, exportable, writeable. -/
abbrev VariableFlags := FlagSet "RASLFPHEW"

namespace VariableFlags

/-- Only the owner changes the value. -/
def readOnly : VariableFlags := .ofLetters "R"

/-- Others may change the value all the same. -/
def writeable : VariableFlags := .ofLetters "W"

end VariableFlags

/-- Recycled, archived, shared, hidden. -/
abbrev ResultFlags := FlagSet "RASH"

end HostScript
