import HostScript.Value.Basic
/-!
# Arithmetic on values

The left operand decides: the right one is coerced to its type, and the result has that type.
Integers wrap at 64 bits. A zero divisor counts as one here, since a script never gets this far
with one. Texts and blobs have no arithmetic but the concatenation of texts and stay as they are.
-/

namespace HostScript.Value

open HostScript.Number

/-- Sum of numbers, concatenation of texts; a missing left operand gives the right one. -/
def add (a b : Value) : Value :=
  match a with
  | .invalid | .undefined => b
  | .int n => .int (n + b.toInt)
  | .float x => .float (x + b.toFloat)
  | .str s => ofString (s ++ b.text)
  | .binary _ | .custom _ => a

def sub (a b : Value) : Value :=
  match a with
  | .int n => .int (n - b.toInt)
  | .float x => .float (x - b.toFloat)
  | _ => a

def mul (a b : Value) : Value :=
  match a with
  | .int n => .int (n * b.toInt)
  | .float x => .float (x * b.toFloat)
  | _ => a

/-- The divisor that is used for `n`. -/
def intDivisor (n : Int64) : Int64 := if n == 0 then 1 else n

def floatDivisor (x : Float) : Float := if x == 0.0 then 1.0 else x

/-- Quotient, rounded toward zero for integers. -/
def div (a b : Value) : Value :=
  match a with
  | .int n => .int (n / intDivisor b.toInt)
  | .float x => .float (x / floatDivisor b.toFloat)
  | _ => a

/-- Remainder with the sign of the divisor. -/
def intModulo (k n : Int64) : Int64 :=
  let r := k % n
  if (0 < n && r < 0) || (n < 0 && 0 < r) then r + n else r

def floatModulo (k n : Float) : Float :=
  let r := remainder k n
  if (0.0 < n && r < 0.0) || (n < 0.0 && 0.0 < r) then r + n else r

def mod (a b : Value) : Value :=
  match a with
  | .int k => .int (intModulo k (intDivisor b.toInt))
  | .float k => .float (floatModulo k (floatDivisor b.toFloat))
  | _ => a

/-- A number brought to the nearest multiple of a step; a zero step changes nothing. -/
def round (v step : Value) : Value :=
  if step.isZero then v
  else
    match v with
    | .int n =>
      let s := step.toInt
      if s == 0 then v else .int ((n + s / 2) / s * s)
    | .float x =>
      let s := step.toFloat
      .float ((x / s + 0.5).floor * s)
    | _ => v

/-- `a` after `a += b`: the sum in the type that `a` keeps. -/
def addAssign (a b : Value) : Value := a.assign (a.add b)

def negOne : Value := .float (-1.0)

/-- The value with its sign changed, which leaves texts and blobs alone. -/
def neg (v : Value) : Value := v.mul negOne

end HostScript.Value
