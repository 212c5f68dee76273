/-!
# Character classes

The language knows ASCII letters, digits and four white characters; numbers read from text also
skip a form feed. Only trimming follows Unicode's white space property.
-/

namespace HostScript.Text

/-- A letter or underscore, which may start a name. -/
def isNameStart (c : Char) : Bool := c.isAlpha || c == '_'

/-- What may follow in a name. -/
def isNameChar (c : Char) : Bool := isNameStart c || c.isDigit

/-- White space between the tokens of a script. -/
def isWhite (c : Char) : Bool := c == ' ' || c == '\t' || c == '\n' || c == '\r'

/-- White space skipped before a number. -/
def isSpace (c : Char) : Bool := isWhite c || c == '\x0c'

/-- The value of a digit in bases up to sixteen, in either case. -/
def digitValue? (base : Nat) (c : Char) : Option Nat :=
  let value :=
    if c.isDigit then some (c.toNat - '0'.toNat)
    else if 'a' ≤ c && c ≤ 'f' then some (c.toNat - 'a'.toNat + 10)
    else if 'A' ≤ c && c ≤ 'F' then some (c.toNat - 'A'.toNat + 10)
    else none
  value.filter (· < base)

def isHexDigit (c : Char) : Bool := (digitValue? 16 c).isSome

/-! ## Unicode white space -/

/-- The characters with the White_Space property. -/
def isBlank (c : Char) : Bool :=
  let n := c.toNat
  (0x09 ≤ n && n ≤ 0x0D) || n == 0x20 || n == 0x85 || n == 0xA0 || n == 0x1680
    || (0x2000 ≤ n && n ≤ 0x200A) || n == 0x2028 || n == 0x2029 || n == 0x202F
    || n == 0x205F || n == 0x3000

/-- Drops the characters at the end that satisfy `p`. -/
def dropEndWhile (p : Char → Bool) (cs : List Char) : List Char :=
  (cs.reverse.dropWhile p).reverse

/-- Drops blanks at the end. -/
def trimEnd (s : String) : String := String.ofList (dropEndWhile isBlank s.toList)

/-- Drops blanks at both ends. -/
def trim (s : String) : String :=
  String.ofList (dropEndWhile isBlank (s.toList.dropWhile isBlank))

/-! ## Letter case -/

/-- ASCII letters in upper case, everything else as it is. -/
def toUpper (s : String) : String := String.ofList (s.toList.map Char.toUpper)

/-- ASCII letters in lower case, everything else as it is. -/
def toLower (s : String) : String := String.ofList (s.toList.map Char.toLower)

end HostScript.Text
