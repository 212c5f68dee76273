import HostScript.Value.Basic
/-!
# Comparing values

The left operand decides here too. Integers and texts are ordered totally, texts by their bytes.
Blobs are ordered by length first. Floats are equal already when they differ by less than one part
in ten thousand million, and a missing left operand is greater than everything.
-/

namespace HostScript.Value

open HostScript.Text

/-- Lexicographic order of bytes. -/
def orderBytes : List UInt8 → List UInt8 → Ordering
  | [], [] => .eq
  | [], _ :: _ => .lt
  | _ :: _, [] => .gt
  | a :: as, b :: bs => if a < b then .lt else if b < a then .gt else orderBytes as bs

def orderInts (a b : Int64) : Ordering := if a < b then .lt else if b < a then .gt else .eq

/-- Shorter blobs come first, blobs of one length in the order of their bytes. -/
def orderBlobs (a b : List UInt8) : Ordering :=
  if a.length < b.length then .lt else if b.length < a.length then .gt else orderBytes a b

/-- How far apart two floats have to be, as the reciprocal of their relative distance. -/
def nearness : Float := 1e10

def floatsDiffer (a b : Float) : Bool :=
  if a == b then false
  else
    let ratio := (b / (b - a)).abs
    ratio.isNaN || ratio < nearness

def orderFloats (a b : Float) : Ordering :=
  if floatsDiffer a b then (if a < b then .lt else .gt) else .eq

def compare (a b : Value) : Ordering :=
  match a with
  | .int n => orderInts n b.toInt
  | .float x => orderFloats x b.toFloat
  | .str s => orderBytes (utf8 s) (utf8 b.text)
  | .binary bytes | .custom bytes =>
    match b.blob? with
    | some other => orderBlobs bytes other
    | none => .gt
  | .invalid | .undefined => .gt

def equals (a b : Value) : Bool := a.compare b == .eq

def less (a b : Value) : Bool := a.compare b == .lt

def greater (a b : Value) : Bool := a.compare b == .gt

end HostScript.Value
