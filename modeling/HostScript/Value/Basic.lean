import HostScript.Number.FloatText
import HostScript.Text.Hex
import HostScript.Text.Quoted
import HostScript.Text.Utf8
/-!
# Script values

A value is an integer, a float, a text or a blob; `undefined` is what nothing was assigned to yet,
and `invalid` is what could not be had at all. Payloads are bounded: a text is cut at the last
character that fits, a blob at the limit itself.
-/

namespace HostScript

open HostScript.Text HostScript.Number

/-- The type of a value. -/
inductive ValueType where
  | invalid
  | undefined
  | integer
  | float
  | string
  | binary
  | custom
deriving Repr, DecidableEq, Inhabited

namespace ValueType

def all : List ValueType := [.invalid, .undefined, .integer, .float, .string, .binary, .custom]

/-- The name used where a value is written with its type. -/
def name : ValueType → String
  | .invalid => "INVALID"
  | .undefined => "UNDEF"
  | .integer => "INTEGER"
  | .float => "FLOAT"
  | .string => "STRING"
  | .binary => "BINARY"
  | .custom => "SPECIAL"

def ofName? (name : String) : Option ValueType := all.find? (·.name == name)

/-- The type of a name; an unknown name means `invalid`. -/
def ofName (name : String) : ValueType := (ofName? name).getD .invalid

/-- What is said of a name that no type has. -/
def unknownMessage (name : String) : String := "unknown value type " ++ quoted name

end ValueType

/-- A script value. -/
inductive Value where
  | invalid
  | undefined
  | int (n : Int64)
  | float (x : Float)
  | str (s : String)
  | binary (bytes : List UInt8)
  | custom (bytes : List UInt8)
deriving Repr, Inhabited

namespace Value

/-- The largest payload of a text or blob in bytes. -/
def payloadLimit : Nat := 65535

/-! ## Construction -/

/-- A text, cut to the limit. -/
def ofString (s : String) : Value := .str (fit payloadLimit s)

/-- A binary blob, cut to the limit. -/
def ofBytes (bytes : List UInt8) : Value := .binary (bytes.take payloadLimit)

/-- A custom blob, cut to the limit. -/
def ofCustom (bytes : List UInt8) : Value := .custom (bytes.take payloadLimit)

/-- Truth values are the integers one and zero. -/
def ofBool (b : Bool) : Value := .int (if b then 1 else 0)

/-- The zero of a type. -/
def zero : ValueType → Value
  | .invalid => .invalid
  | .undefined => .undefined
  | .integer => .int 0
  | .float => .float 0.0
  | .string => .str ""
  | .binary => .binary []
  | .custom => .custom []

/-! ## Inspection -/

def type : Value → ValueType
  | .invalid => .invalid
  | .undefined => .undefined
  | .int _ => .integer
  | .float _ => .float
  | .str _ => .string
  | .binary _ => .binary
  | .custom _ => .custom

def isNumber (v : Value) : Bool := v.type == .integer || v.type == .float

/-- What conditions and logical operators take for false: zero, the empty text or blob, and
values that are missing. A float within the smallest positive one of zero is zero. -/
def isZero : Value → Bool
  | .int n => n == 0
  | .float x => x.abs ≤ Float.ofBits 1
  | .str s => s.isEmpty
  | .binary bytes | .custom bytes => bytes.isEmpty
  | .invalid | .undefined => true

/-- The bytes of a blob. -/
def blob? : Value → Option (List UInt8)
  | .binary bytes | .custom bytes => some bytes
  | _ => none

/-! ## Coercion -/

/-- A coerced value, and whether the text it came from was used up. -/
structure Coerced (α : Type) where
  value : α
  clean : Bool
deriving Repr

/-- The value as an integer; a float is rounded, and a text is read as far as it is a number. -/
def coerceInt : Value → Coerced Int64
  | .int n => ⟨n, true⟩
  | .float x => ⟨roundToInt64 x, true⟩
  | .str s =>
    let r := readInteger s.toList
    ⟨r.value, r.used == s.length⟩
  | _ => ⟨0, true⟩

def toInt (v : Value) : Int64 := v.coerceInt.value

/-- The value as a float. -/
def coerceFloat : Value → Coerced Float
  | .int n => ⟨n.toFloat, true⟩
  | .float x => ⟨x, true⟩
  | .str s =>
    let r := readFloat s.toList
    ⟨r.value, r.used == s.length⟩
  | _ => ⟨0.0, true⟩

def toFloat (v : Value) : Float := v.coerceFloat.value

/-- The value as a text; blobs in hexadecimal. -/
def text : Value → String
  | .invalid => "n/a"
  | .undefined => ""
  | .int n => toString n.toInt
  | .float x => floatText x
  | .str s => s
  | .binary bytes | .custom bytes => toHex bytes

/-! ## Conversion -/

/-- The bytes a value stands for as a blob: its own, or those its text names in hexadecimal.
A text that is not hexadecimal gives as many zeros as it would have named bytes. -/
def coerceBytes (v : Value) : Coerced (List UInt8) :=
  match v.blob? with
  | some bytes => ⟨bytes, true⟩
  | none =>
    let text := utf8 v.text
    match fromHexChars (text.map fun b => Char.ofNat b.toNat) with
    | some bytes => ⟨bytes, true⟩
    | none => ⟨List.replicate (text.length / 2) 0, false⟩

/-- The value in another type, and whether nothing was lost. `invalid` stays what it is. -/
def convert (v : Value) (ty : ValueType) : Value × Bool :=
  if v.type == ty then (v, true)
  else if v.type == .invalid then (v, false)
  else
    match ty with
    | .invalid => (.invalid, true)
    | .undefined => (.undefined, true)
    | .integer => (.int v.coerceInt.value, v.coerceInt.clean)
    | .float => (.float v.coerceFloat.value, v.coerceFloat.clean)
    | .string => (ofString v.text, true)
    | .binary => (ofBytes v.coerceBytes.value, v.coerceBytes.clean)
    | .custom => (ofCustom v.coerceBytes.value, v.coerceBytes.clean)

/-- Whether a place that holds the value gives its type to what is assigned to it. -/
def keepsType (v : Value) : Bool := v.type != .undefined && v.type != .invalid

/-- What a place that holds `v` holds after `incoming` is assigned to it. -/
def assign (v incoming : Value) : Value :=
  if v.keepsType then (incoming.convert v.type).1 else incoming

end Value

end HostScript
