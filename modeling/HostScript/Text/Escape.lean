import HostScript.Text.Hex
/-!
# Escaped text

A backslash and a letter stand for a control character, `\x` and two digits for any character
below 256. `escape` writes a text so that it can stand between delimiters, `unescape` reads it
back and is generous: an unknown escape is the escaped character, and a lone backslash at the end
is dropped.
-/

namespace HostScript.Text

/-- The characters with a letter of their own, and that letter. -/
def escapes : List (Char × Char) :=
  [('\'', '\''), ('"', '"'), ('\x07', 'a'), ('\x08', 'b'), ('\x0c', 'f'), ('\n', 'n'), ('\r', 'r'),
    ('\t', 't'), ('\x0b', 'v'), ('\\', '\\')]

/-- The letter that escapes `c`. -/
def escapeLetter? (c : Char) : Option Char := (escapes.find? (·.1 == c)).map (·.2)

/-- The character that a letter after a backslash stands for. -/
def escapedChar? (letter : Char) : Option Char := (escapes.find? (·.2 == letter)).map (·.1)

/-- `\x` and at least two digits. -/
def escapeByCode (c : Char) : List Char :=
  '\\' :: 'x' :: (if c.toNat < 256 then hexPair c.toNat else Nat.toDigits 16 c.toNat)

/-- One character; the delimiter is always written by its code. -/
def escapeChar (delimiter : Option Char) (c : Char) : List Char :=
  if some c == delimiter then escapeByCode c
  else
    match escapeLetter? c with
    | some letter => ['\\', letter]
    | none => if c.toNat < 0x20 then escapeByCode c else [c]

def escape (delimiter : Option Char) (s : String) : String :=
  String.ofList (s.toList.flatMap (escapeChar delimiter))

/-- The character of a code of at most two digits, and the number of digits it takes. -/
def codeAt : List Char → Option Char × Nat
  | [] => (none, 0)
  | d :: rest =>
    match digitValue? 16 d, rest.head?.bind (digitValue? 16) with
    | none, _ => (none, 0)
    | some n, none => (some (Char.ofNat n), 1)
    | some hi, some lo => (some (Char.ofNat (hi * 16 + lo)), 2)

/-- Reads escaped text after `skip` characters that belong to the code just read. -/
def unescapeFrom : Nat → List Char → List Char
  | _, [] => []
  | skip + 1, _ :: rest => unescapeFrom skip rest
  | 0, '\\' :: letter :: rest =>
    match escapedChar? letter with
    | some plain => plain :: unescapeFrom 0 rest
    | none =>
      if letter == 'x' || letter == 'X' then
        let (c?, digits) := codeAt rest
        c?.toList ++ unescapeFrom digits rest
      else letter :: unescapeFrom 0 rest
  | 0, c :: rest => if c == '\\' then [] else c :: unescapeFrom 0 rest

/-- The text that an escaped text stands for. -/
def unescapeChars (cs : List Char) : List Char := unescapeFrom 0 cs

def unescape (s : String) : String := String.ofList (unescapeChars s.toList)

end HostScript.Text
