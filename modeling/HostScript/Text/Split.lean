/-!
# Splitting text

Fields of a line stand between separators, lines end at a line feed, and a setting or a state is
cut at its first separator.
-/

namespace HostScript.Text

/-- The fields between separators; there is always one more field than there are separators. -/
def fieldsOf (sep : Char) : List Char → List (List Char)
  | [] => [[]]
  | c :: cs =>
    if c == sep then [] :: fieldsOf sep cs
    else
      match fieldsOf sep cs with
      | [] => [[c]]
      | field :: more => (c :: field) :: more

def fields (sep : Char) (s : String) : List String := (fieldsOf sep s.toList).map String.ofList

/-- The text before and after the first separator, if there is one. -/
def cutChars (sep : Char) : List Char → Option (List Char × List Char)
  | [] => none
  | c :: cs =>
    if c == sep then some ([], cs)
    else (cutChars sep cs).map fun (before, after) => (c :: before, after)

def cut (sep : Char) (s : String) : Option (String × String) :=
  (cutChars sep s.toList).map fun (before, after) => (String.ofList before, String.ofList after)

/-- A line without the carriage return that may stand before its line feed. -/
def dropCarriageReturn (line : List Char) : List Char :=
  match line.reverse with
  | '\r' :: before => before.reverse
  | _ => line

/-- The lines of a text. A line feed ends a line, so a text that ends in one has no empty line
after it, and a carriage return belongs to the line end only where the line feed follows. -/
def linesOf : List (List Char) → List (List Char)
  | [] => []
  | [last] => if last.isEmpty then [] else [last]
  | line :: more => dropCarriageReturn line :: linesOf more

def lines (s : String) : List String := (linesOf (fieldsOf '\n' s.toList)).map String.ofList

/-! ## Searching -/

/-- The first position in bytes where `needle` starts. -/
def findBytes (needle : List UInt8) : List UInt8 → Option Nat
  | [] => if needle.isEmpty then some 0 else none
  | b :: bs => if needle.isPrefixOf (b :: bs) then some 0 else (findBytes needle bs).map (· + 1)

end HostScript.Text
