import HostScript.Text.Ascii
/-!
# Integers in text

A number may start with white space and a sign. `0x` announces hexadecimal and a leading zero
octal digits. The digits are taken as far as they go, and a number too large for 64 bits is held
at the largest magnitude both signs have. A reading tells how many characters it used; none at all
means that there was no number.
-/

namespace HostScript.Number

open HostScript.Text

/-- A value read from the front of a text, with the number of characters it takes. -/
structure Reading (α : Type) where
  value : α
  used : Nat
deriving Repr, DecidableEq

/-- The digits at the front, in the given base. -/
def leadingDigits (base : Nat) : List Char → List Nat
  | [] => []
  | c :: cs =>
    match digitValue? base c with
    | some d => d :: leadingDigits base cs
    | none => []

/-- The number that a list of digits writes. -/
def ofDigits (base : Nat) (digits : List Nat) : Nat := digits.foldl (fun n d => n * base + d) 0

/-- The base a number is written in, and how many characters announce it. A lone `0x` announces
nothing: its zero is an octal digit. -/
def detectBase : List Char → Nat × Nat
  | '0' :: x :: d :: _ => if (x == 'x' || x == 'X') && isHexDigit d then (16, 2) else (8, 0)
  | '0' :: _ => (8, 0)
  | _ => (10, 0)

/-- Whether a number starts with a minus sign, and the length of its sign. -/
def signOf : List Char → Bool × Nat
  | '-' :: _ => (true, 1)
  | '+' :: _ => (false, 1)
  | _ => (false, 0)

/-- The largest magnitude that is read. -/
def maxMagnitude : Nat := 0x7FFFFFFFFFFFFFFF

/-- The integer at the front of a text. -/
def readInteger (text : List Char) : Reading Int64 :=
  let spaces := (text.takeWhile isSpace).length
  let (negative, sign) := signOf (text.drop spaces)
  let number := text.drop (spaces + sign)
  let (base, mark) := detectBase number
  let digits := leadingDigits base (number.drop mark)
  if digits.isEmpty then ⟨0, 0⟩
  else
    let magnitude : Int := min (ofDigits base digits) maxMagnitude
    ⟨Int64.ofInt (if negative then -magnitude else magnitude), spaces + sign + mark + digits.length⟩

end HostScript.Number
