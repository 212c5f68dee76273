import HostScript.Value.Basic
import HostScript.Text.Escape
import HostScript.Text.Split
/-!
# Values in a stream

A value is written as its type and its content in quotes, `(INTEGER,"42")`. The content of a text
is escaped, so that the quote that ends it is the last one.
-/

namespace HostScript.Value

open HostScript.Text

def toStream (v : Value) : String :=
  let content := if v.type == .string then escape (some '"') v.text else v.text
  "(" ++ v.type.name ++ ",\"" ++ content ++ "\")"

/-- What stands between an opening and a closing character. -/
def between? (first last : Char) (cs : List Char) : Option (List Char) :=
  match cs with
  | [] => none
  | c :: rest =>
    if c != first then none
    else
      match rest.reverse with
      | [] => none
      | d :: inner => if d == last then some inner.reverse else none

/-- Reads the written form, with blanks around it and around the type. A type that is not known
makes an invalid value. -/
def ofStream? (s : String) : Option Value := do
  let inner ← between? '(' ')' (trim s).toList
  let (name, rest) ← cutChars ',' inner
  let content ← between? '"' '"' rest
  match ValueType.ofName (trim (String.ofList name)) with
  | .invalid => some .invalid
  | .string => some (ofString (unescape (String.ofList content)))
  | ty => some ((ofString (String.ofList content)).convert ty).1

end HostScript.Value
