import HostScript.Error
import HostScript.Value.Order
import HostScript.Text.Escape
/-!
# Tokens of expressions

Expressions are read character by character, without a separate pass. Here is what is read at a
time: names, numbers, texts, signs and operators. Every reader gives the text that is left, and
what follows a name, a number or a text is left without the white space before it.
-/

namespace HostScript.Token

open HostScript.Text HostScript.Number

def skipWhite (cs : List Char) : List Char := cs.dropWhile isWhite

/-! ## Names -/

def maxNameLength : Nat := 64

/-- The name at the front. -/
def readName (cs : List Char) : Except ScriptError (String × List Char) :=
  let word := cs.takeWhile isNameChar
  if maxNameLength < word.length then
    .error ⟨.maxIdentifierLength, String.ofList (word.take (maxNameLength + 1))⟩
  else if word.isEmpty then .error ⟨.expectedIdentifier, excerptOfChars cs⟩
  else .ok (String.ofList word, skipWhite (cs.drop word.length))

/-! ## Numbers -/

/-- The number at the front: an integer, unless reading a float takes more of the text. -/
def readNumber (cs : List Char) : Value × List Char :=
  let int := readInteger cs
  let float := readFloat cs
  if int.used < float.used then (.float float.value, skipWhite (cs.drop float.used))
  else (.int int.value, skipWhite (cs.drop (max int.used 1)))

/-! ## Texts -/

def maxLiteralSize : Nat := 4096

/-- The text up to the closing quote, escapes left as they are. -/
def untilQuote : List Char → Option (List Char × List Char)
  | [] => none
  | '"' :: rest => some ([], rest)
  | '\\' :: c :: rest => (untilQuote rest).map fun (text, rest) => ('\\' :: c :: text, rest)
  | c :: rest => (untilQuote rest).map fun (text, rest) => (c :: text, rest)

/-- The quoted segments at the front, at most `n` of them, put together. -/
def segments : Nat → List Char → Option (List Char × List Char)
  | n + 1, '"' :: cs => do
    let (text, rest) ← untilQuote cs
    let (more, rest) ← segments n (skipWhite rest)
    return (text ++ more, rest)
  | _, cs => some ([], cs)

/-- The text that adjacent quoted segments write. -/
def readText (cs : List Char) : Except ScriptError (Value × List Char) :=
  match segments cs.length cs with
  | none => .error ⟨.unexpectedEnd, "end-of-string"⟩
  | some (raw, rest) =>
    let text := String.ofList raw
    if maxLiteralSize < text.utf8ByteSize then .error ⟨.stringTooLong, fit maxLiteralSize text⟩
    else .ok (.ofString (unescape text), rest)

/-! ## Signs -/

/-- What may stand before an operand. -/
inductive Sign where
  | not
  | plus
  | minus
deriving Repr, DecidableEq

def signOf? (c : Char) : Option Sign :=
  if c == '!' then some .not else if c == '+' then some .plus else if c == '-' then some .minus else none

/-- The signs at the front, with white space between them. -/
def readSigns : List Char → List Sign × List Char
  | [] => ([], [])
  | c :: cs =>
    if isWhite c then readSigns cs
    else
      match signOf? c with
      | some sign =>
        let (signs, rest) := readSigns cs
        (sign :: signs, rest)
      | none => ([], c :: cs)

/-! ## Operators -/

inductive Relation where
  | less
  | lessEqual
  | greater
  | greaterEqual
  | equal
  | notEqual
deriving Repr, DecidableEq

/-- Whether a relation holds for operands in the given order. -/
def Relation.holds : Relation → Ordering → Bool
  | .less, o => o == .lt
  | .lessEqual, o => o != .gt
  | .greater, o => o == .gt
  | .greaterEqual, o => o != .lt
  | .equal, o => o == .eq
  | .notEqual, o => o != .eq

inductive Connective where
  | and
  | or
  | xor
deriving Repr, DecidableEq

def Connective.onBool : Connective → Bool → Bool → Bool
  | .and => Bool.and
  | .or => Bool.or
  | .xor => Bool.xor

def Connective.onInt : Connective → Int64 → Int64 → Int64
  | .and => (· &&& ·)
  | .or => (· ||| ·)
  | .xor => (· ^^^ ·)

/-- A binary operator. -/
inductive Operator where
  | relation (r : Relation)
  | logical (c : Connective)
  | bitwise (c : Connective)
  | mul
  | div
  | mod
  | assign
  /-- A combination that means nothing, with the character at fault. -/
  | stray (c : Char)
deriving Repr, DecidableEq

/-- An operator as it is written: a character and perhaps a second one. -/
structure Written where
  first : Char
  second : Option Char
deriving Repr, DecidableEq

/-- The operator that is written. A second character that changes nothing is accepted. -/
def Written.operator : Written → Operator
  | ⟨'>', some '='⟩ => .relation .greaterEqual
  | ⟨'>', _⟩ => .relation .greater
  | ⟨'<', some '='⟩ => .relation .lessEqual
  | ⟨'<', some '>'⟩ => .relation .notEqual
  | ⟨'<', _⟩ => .relation .less
  | ⟨'!', some '='⟩ => .relation .notEqual
  | ⟨'!', _⟩ => .stray '!'
  | ⟨'=', some '='⟩ => .relation .equal
  | ⟨'=', some c⟩ => .stray c
  | ⟨'=', none⟩ => .assign
  | ⟨'&', some '&'⟩ => .logical .and
  | ⟨'&', _⟩ => .bitwise .and
  | ⟨'|', some '|'⟩ => .logical .or
  | ⟨'|', _⟩ => .bitwise .or
  | ⟨'^', some '^'⟩ => .logical .xor
  | ⟨'^', _⟩ => .bitwise .xor
  | ⟨'*', _⟩ => .mul
  | ⟨'/', _⟩ => .div
  | ⟨'%', _⟩ => .mod
  | ⟨c, _⟩ => .stray c

/-- Whether the operator makes both operands floats when one of them is. -/
def Written.promotes (w : Written) : Bool :=
  match w.second with
  | none => true
  | some c => c == '>' || c == '='

/-- The characters an operator may start with. -/
def startsOperator (c : Char) : Bool := "<>=&|^/*!%".toList.contains c

/-- The characters that may follow in an operator. -/
def extendsOperator (c : Char) : Bool := ">=|^&".toList.contains c

/-- The operator at the front. -/
def readOperator? : List Char → Option (Written × List Char)
  | [] => none
  | c :: cs =>
    if !startsOperator c then none
    else
      match cs with
      | [] => some (⟨c, none⟩, [])
      | d :: rest => if extendsOperator d then some (⟨c, some d⟩, rest) else some (⟨c, none⟩, cs)

/-! ## What may follow -/

/-- Whether a term may follow a term without more ado, since it starts with a sign. -/
def startsSigned : List Char → Bool
  | c :: _ => c == '+' || c == '-'
  | [] => false

/-- The characters at which another part of an expression may start. -/
def isDelimiter (c : Char) : Bool := "+-/*&|^=<>!%".toList.contains c

/-- The characters that may follow the name of a variable. -/
def endsName (c : Char) : Bool := c == '\x00' || "<>^&|= +-/*)!,%;".toList.contains c

end HostScript.Token
