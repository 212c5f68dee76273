import HostScript.Text.Ascii
/-!
# Bytes in hexadecimal

Blobs are shown as two lower-case digits a byte. Reading takes either case, ignores a digit left
over at the end and refuses everything else.
-/

namespace HostScript.Text

/-- The lower-case digit of a value below sixteen. -/
def hexDigit (n : Nat) : Char := if n < 10 then Char.ofNat (48 + n) else Char.ofNat (87 + n)

/-- Two digits for a value below 256. -/
def hexPair (n : Nat) : List Char := [hexDigit (n / 16), hexDigit (n % 16)]

/-- The shortest hexadecimal text of a number. -/
def hexText (n : Nat) : String := String.ofList (Nat.toDigits 16 n)

def toHex (bytes : List UInt8) : String := String.ofList (bytes.flatMap fun b => hexPair b.toNat)

/-- Pairs of digits; a single character left at the end is not looked at. -/
def fromHexChars : List Char → Option (List UInt8)
  | hi :: lo :: rest => do
    let high ← digitValue? 16 hi
    let low ← digitValue? 16 lo
    let bytes ← fromHexChars rest
    return UInt8.ofNat (high * 16 + low) :: bytes
  | _ => some []

end HostScript.Text
