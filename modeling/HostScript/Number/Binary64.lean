/-!
# Binary floating point, exactly

A finite float is `significand · 2 ^ exponent`. Taking floats apart and putting them together in
`Nat` arithmetic gives text conversion and the remainder without any rounding but the last, which
goes to the nearest float and to the even one at a tie.
-/

namespace HostScript.Number

/-! ## Taking floats apart -/

/-- A finite float as a sign and an integer multiple of a power of two. -/
structure Binary64 where
  negative : Bool
  significand : Nat
  exponent : Int
deriving Repr, DecidableEq

/-- The bit above the stored fraction, set in all but subnormal floats. -/
def hiddenBit : Nat := 0x10000000000000

def signBit : Nat := 0x8000000000000000

/-- The smallest exponent: that of the subnormal floats. -/
def minExponent : Int := -1074

/-- The parts of a finite float; the caller has dealt with infinities and NaN. -/
def Binary64.ofFloat (x : Float) : Binary64 :=
  let bits : Nat := x.toBits.toNat
  let fraction : Nat := bits % hiddenBit
  let biased : Nat := bits / hiddenBit % 2048
  ⟨bits / signBit == 1,
    if biased == 0 then fraction else hiddenBit + fraction,
    if biased == 0 then minExponent else (biased : Int) - 1075⟩

/-! ## Rounding to a float -/

/-- The quotient rounded to the nearest integer, a tie to the even one. -/
def roundQuotient (num den : Nat) : Nat :=
  let q := num / den
  let twice := 2 * (num % den)
  if twice < den then q
  else if den < twice then q + 1
  else q + q % 2

/-- Whether `num / den` is at least `2 ^ k`. -/
def atLeastPow2 (num den : Nat) (k : Int) : Bool :=
  if 0 ≤ k then den * Nat.pow 2 k.toNat ≤ num else den ≤ num * Nat.pow 2 (-k).toNat

/-- The largest `k` with `2 ^ k` at most `num / den`, for positive `num` and `den`. -/
def floorLog2 (num den : Nat) : Int :=
  let k : Int := (num.log2 : Int) - den.log2
  if atLeastPow2 num den k then k else k - 1

/-- `num / den` in units of `2 ^ e`, rounded. -/
def roundAt (num den : Nat) (e : Int) : Nat :=
  if 0 ≤ e then roundQuotient num (den * Nat.pow 2 e.toNat)
  else roundQuotient (num * Nat.pow 2 (-e).toNat) den

def infinityBits : Nat := 0x7FF0000000000000

/-- The float nearest to `num / den`, with the given sign. A carry out of the significand lands in
the exponent field, which is what it means, and past the last exponent there is infinity. -/
def floatOfRatio (negative : Bool) (num den : Nat) : Float :=
  let magnitude :=
    if num == 0 then 0
    else
      let e := max minExponent (floorLog2 num den - 52)
      let bits := (e - minExponent).toNat * hiddenBit + roundAt num den e
      min bits infinityBits
  Float.ofBits (UInt64.ofNat (if negative then magnitude + signBit else magnitude))

/-- The float nearest to `n · 2 ^ e`. -/
def floatOfScaled (negative : Bool) (n : Nat) (e : Int) : Float :=
  if 0 ≤ e then floatOfRatio negative (n * Nat.pow 2 e.toNat) 1
  else floatOfRatio negative n (Nat.pow 2 (-e).toNat)

/-! ## Remainder -/

/-- The remainder of truncated division, which is always a float itself; it has the sign of `x`. -/
def remainder (x y : Float) : Float :=
  if x.isNaN || y.isNaN || x.isInf || y == 0.0 then 0.0 / 0.0
  else if y.isInf then x
  else
    let a := Binary64.ofFloat x
    let b := Binary64.ofFloat y
    let e := min a.exponent b.exponent
    let m := a.significand * Nat.pow 2 (a.exponent - e).toNat
    let n := b.significand * Nat.pow 2 (b.exponent - e).toNat
    floatOfScaled a.negative (m % n) e

/-! ## Integers -/

/-- The integer nearest to the magnitude, a half rounded up. -/
def Binary64.roundedMagnitude (b : Binary64) : Nat :=
  if 0 ≤ b.exponent then b.significand * Nat.pow 2 b.exponent.toNat
  else
    let unit := Nat.pow 2 (-b.exponent).toNat
    (2 * b.significand + unit) / (2 * unit)

/-- The nearest integer, a half away from zero, held within 64 bits; NaN gives zero. -/
def roundToInt64 (x : Float) : Int64 :=
  if x.isNaN then 0
  else if x.isInf then (if 0.0 < x then Int64.maxValue else Int64.minValue)
  else
    let b := Binary64.ofFloat x
    let n : Int := b.roundedMagnitude
    if b.negative then Int64.ofInt (max (-n) Int64.minValue.toInt)
    else Int64.ofInt (min n Int64.maxValue.toInt)

end HostScript.Number
