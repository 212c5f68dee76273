import HostScript.Number.Binary64
import HostScript.Number.IntegerText
/-!
# Floats in text

A float is written with at most fifteen significant digits and no zeros at the end of a fraction.
From `1e15` on, and below `0.0001`, it is written with an exponent of at least two digits. Reading
takes decimal notation, `inf` and `nan`, and gives the nearest float.
-/

namespace HostScript.Number

open HostScript.Text

/-! ## Writing -/

/-- How many significant digits are written. -/
def significantDigits : Nat := 15

/-- Exponents below this one are written out. -/
def minPositional : Int := -4

/-- Whether `num / den` is at least `10 ^ k`. -/
def atLeastPow10 (num den : Nat) (k : Int) : Bool :=
  if 0 ≤ k then den * Nat.pow 10 k.toNat ≤ num else den ≤ num * Nat.pow 10 (-k).toNat

/-- The largest `k` with `10 ^ k` at most `num / den`. The power of two tells it up to one. -/
def floorLog10 (num den : Nat) : Int :=
  let guess := floorLog2 num den * 30103 / 100000
  if atLeastPow10 num den (guess + 1) then guess + 1
  else if atLeastPow10 num den guess then guess
  else guess - 1

/-- `num / den` in units of `10 ^ k`, rounded. -/
def roundAtPow10 (num den : Nat) (k : Int) : Nat :=
  if 0 ≤ k then roundQuotient num (den * Nat.pow 10 k.toNat)
  else roundQuotient (num * Nat.pow 10 (-k).toNat) den

/-- The significant digits of a positive number and the exponent of the first. -/
structure Scientific where
  digits : List Char
  exponent : Int

/-- Rounds to the significant digits; rounding up to a power of ten moves the exponent. -/
def Scientific.ofRatio (num den : Nat) : Scientific :=
  let k := floorLog10 num den
  let n := roundAtPow10 num den (k - (significantDigits - 1 : Nat))
  if n < Nat.pow 10 significantDigits then ⟨Nat.toDigits 10 n, k⟩
  else ⟨Nat.toDigits 10 (n / 10), k + 1⟩

/-- Digits with a point after the first `whole`; the zeros at the end of the fraction go, and the
point with them when nothing is left. -/
def withPoint (digits : List Char) (whole : Nat) : List Char :=
  let fraction := dropEndWhile (· == '0') (digits.drop whole)
  if fraction.isEmpty then digits.take whole else digits.take whole ++ '.' :: fraction

def exponentText (e : Int) : List Char :=
  let digits := Nat.toDigits 10 e.natAbs
  (if e < 0 then '-' else '+') :: (if digits.length < 2 then '0' :: digits else digits)

def Scientific.render (s : Scientific) : List Char :=
  if s.exponent < minPositional || (significantDigits : Int) ≤ s.exponent then
    withPoint s.digits 1 ++ 'e' :: exponentText s.exponent
  else if s.exponent < 0 then
    withPoint (List.replicate (-s.exponent).toNat '0' ++ s.digits) 1
  else withPoint s.digits (s.exponent.toNat + 1)

/-- The text of a float. -/
def floatText (x : Float) : String :=
  if x.isNaN then "nan"
  else if x.isInf then (if 0.0 < x then "inf" else "-inf")
  else
    let b := Binary64.ofFloat x
    let sign := if b.negative then ['-'] else []
    if b.significand == 0 then String.ofList (sign ++ ['0'])
    else
      let s :=
        if 0 ≤ b.exponent then Scientific.ofRatio (b.significand * Nat.pow 2 b.exponent.toNat) 1
        else Scientific.ofRatio b.significand (Nat.pow 2 (-b.exponent).toNat)
      String.ofList (sign ++ s.render)

/-! ## Reading -/

/-- Whether a text starts with a lower-case word, in any case. -/
def startsWithWord (word : String) (text : List Char) : Bool :=
  (text.take word.length).map Char.toLower == word.toList

/-- The words read as floats, longer ones first. -/
def floatWords : List (String × Bool) := [("infinity", true), ("inf", true), ("nan", false)]

/-- An exponent that has come this far takes no more digits. -/
def exponentLimit : Nat := 65536

/-- The size of an exponent. Digits after it has reached its limit are read over. -/
def exponentOfDigits (digits : List Nat) : Nat :=
  digits.foldl (fun n d => if n < exponentLimit then n * 10 + d else n) 0

/-- The exponent after the digits and the number of characters it takes; none when no digit
follows. -/
def readExponent : List Char → Reading Int
  | e :: rest =>
    if e == 'e' || e == 'E' then
      let (negative, sign) := signOf rest
      let digits := leadingDigits 10 (rest.drop sign)
      if digits.isEmpty then ⟨0, 0⟩
      else
        let n : Int := exponentOfDigits digits
        ⟨if negative then -n else n, 1 + sign + digits.length⟩
    else ⟨0, 0⟩
  | [] => ⟨0, 0⟩

/-- The float nearest to `n · 10 ^ e`, where `n` has at most `size` digits. Exponents far out of
range are settled without computing the power. -/
def floatOfDecimal (negative : Bool) (n size : Nat) (e : Int) : Float :=
  if n == 0 || (size : Int) + e < -400 then floatOfRatio negative 0 1
  else if 400 < e then Float.ofBits (UInt64.ofNat (if negative then infinityBits + signBit else infinityBits))
  else if 0 ≤ e then floatOfRatio negative (n * Nat.pow 10 e.toNat) 1
  else floatOfRatio negative n (Nat.pow 10 (-e).toNat)

/-- The decimal number after an optional sign, which counts as `before` characters. -/
def readDecimal (negative : Bool) (before : Nat) (number : List Char) : Reading Float :=
  let whole := leadingDigits 10 number
  let afterWhole := number.drop whole.length
  let fraction := if afterWhole.head? == some '.' then leadingDigits 10 afterWhole.tail else []
  let point := if afterWhole.head? == some '.' then 1 else 0
  let digits := whole ++ fraction
  if digits.isEmpty then ⟨0.0, 0⟩
  else
    let exponent := readExponent (afterWhole.drop (point + fraction.length))
    ⟨floatOfDecimal negative (ofDigits 10 digits) digits.length (exponent.value - fraction.length),
      before + whole.length + point + fraction.length + exponent.used⟩

/-- The float at the front of a text. -/
def readFloat (text : List Char) : Reading Float :=
  let spaces := (text.takeWhile isSpace).length
  let (negative, sign) := signOf (text.drop spaces)
  let number := text.drop (spaces + sign)
  match floatWords.find? fun w => startsWithWord w.1 number with
  | some (word, infinite) =>
    let x : Float := if infinite then 1.0 / 0.0 else 0.0 / 0.0
    ⟨if negative then -x else x, spaces + sign + word.length⟩
  | none => readDecimal negative (spaces + sign) number

end HostScript.Number
