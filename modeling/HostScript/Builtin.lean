import HostScript.Identifier
import HostScript.Value.Arithmetic
import HostScript.Value.Order
import HostScript.Text.Split
/-!
# Builtin identifiers

The names every script knows: the types a declaration may start with, `PI`, and the functions on
numbers and texts. Positions and lengths in texts are counted in bytes.
-/

namespace HostScript

open HostScript.Text HostScript.Number

/-- The functions every script can call. -/
inductive BuiltinFunction where
  | sin
  | cos
  | tan
  | acos
  | asin
  | atan
  | atan2
  | cmp
  | abs
  | log
  | exp
  | logx
  | log10
  | pow
  | sqrt
  | ceil
  | floor
  | round
  | mod
  | str
  | toInt
  | toFloat
  | substr
  | strlen
  | findstr
  | strip
  | toUpper
  | toLower
deriving Repr, DecidableEq

/-- What a builtin name stands for. -/
inductive Builtin where
  | typedef (ty : ValueType)
  | pi
  | function (f : BuiltinFunction)
deriving Repr, DecidableEq

namespace Builtin

/-- The builtin names in the order in which they are listed. -/
def table : List (Identifier Builtin) :=
  [⟨.typedef, "int", 0, .typedef .integer⟩,
    ⟨.typedef, "float", 0, .typedef .float⟩,
    ⟨.typedef, "string", 0, .typedef .string⟩,
    ⟨.typedef, "undef", 0, .typedef .undefined⟩,
    ⟨.typedef, "object", 0, .typedef .custom⟩,
    ⟨.constant, "PI", 0, .pi⟩,
    ⟨.function, "sin", 1, .function .sin⟩,
    ⟨.function, "cos", 1, .function .cos⟩,
    ⟨.function, "tan", 1, .function .tan⟩,
    ⟨.function, "acos", 1, .function .acos⟩,
    ⟨.function, "asin", 1, .function .asin⟩,
    ⟨.function, "atan", 1, .function .atan⟩,
    ⟨.function, "atan2", 2, .function .atan2⟩,
    ⟨.function, "cmp", 3, .function .cmp⟩,
    ⟨.function, "abs", 1, .function .abs⟩,
    ⟨.function, "log", 1, .function .log⟩,
    ⟨.function, "exp", 1, .function .exp⟩,
    ⟨.function, "logx", 2, .function .logx⟩,
    ⟨.function, "log10", 1, .function .log10⟩,
    ⟨.function, "pow", 2, .function .pow⟩,
    ⟨.function, "sqrt", 1, .function .sqrt⟩,
    ⟨.function, "ceil", 1, .function .ceil⟩,
    ⟨.function, "floor", 1, .function .floor⟩,
    ⟨.function, "round", 2, .function .round⟩,
    ⟨.function, "mod", 2, .function .mod⟩,
    ⟨.function, "str", 1, .function .str⟩,
    ⟨.function, "to_int", 1, .function .toInt⟩,
    ⟨.function, "to_float", 1, .function .toFloat⟩,
    ⟨.function, "substr", 3, .function .substr⟩,
    ⟨.function, "strlen", 1, .function .strlen⟩,
    ⟨.function, "findstr", 2, .function .findstr⟩,
    ⟨.function, "strip", 3, .function .strip⟩,
    ⟨.function, "to_upper", 1, .function .toUpper⟩,
    ⟨.function, "to_lower", 1, .function .toLower⟩]

def find? (name : String) : Option (Identifier Builtin) := Identifier.find? table name

def names : List String := Identifier.names table

def namesOfKind (kind : IdKind) : List String := Identifier.names (table.filter (·.kind == kind))

/-- The type a builtin declares. -/
def declares? : Builtin → Option ValueType
  | .typedef ty => some ty
  | _ => none

/-! ## Texts -/

/-- The part of a text that starts at byte `pos` and has at most `len` bytes, all of them if `len`
is negative. There is none when it would start outside of the text. -/
def substr (s : String) (pos len : Int64) : String :=
  let bytes := utf8 s
  let start := pos.toInt.toNat
  if pos < 0 || bytes.length < start then ""
  else
    let rest := bytes.drop start
    decode (if len < 0 then rest else rest.take len.toInt.toNat)

/-- The byte where the first occurrence of a text starts, or minus one. -/
def findstr (hay needle : String) : Int64 :=
  match findBytes (utf8 needle) (utf8 hay) with
  | some i => Int64.ofNat i
  | none => -1

/-- Removes the given characters at the start, at the end, or at both. -/
def strip (s : String) (chars : List Char) (mode : Int64) : String :=
  let listed := fun c => chars.contains c
  let cs := s.toList
  let cs := if mode == 1 then cs else cs.dropWhile listed
  String.ofList (if mode == -1 then cs else dropEndWhile listed cs)

/-! ## Calls -/

def piValue : Float := Float.ofBits 0x400921FB54442D18

/-- The step that `round` uses, in the type of the number that is rounded. -/
def roundingStep (v step : Value) : Value :=
  if v.type == .integer then .int step.toInt.abs else .float step.toFloat.abs

/-- Changes a float, and leaves a value of another type as it is. -/
def onFloat (f : Float → Float) : Value → Value
  | .float x => .float (f x)
  | v => v

/-- Calls a function; a missing argument is undefined. -/
def call (f : BuiltinFunction) (args : List Value) : Value :=
  let a := args.getD 0 .undefined
  let b := args.getD 1 .undefined
  let c := args.getD 2 .undefined
  match f with
  | .sin => .float a.toFloat.sin
  | .cos => .float a.toFloat.cos
  | .tan => .float a.toFloat.tan
  | .acos => .float a.toFloat.acos
  | .asin => .float a.toFloat.asin
  | .atan => .float a.toFloat.atan
  | .atan2 => .float (a.toFloat.atan2 b.toFloat)
  | .log => .float a.toFloat.log
  | .exp => .float a.toFloat.exp
  | .log10 => .float a.toFloat.log10
  | .logx => .float (b.toFloat.log / a.toFloat.log)
  | .pow => .float (a.toFloat.pow b.toFloat)
  | .sqrt => .float a.toFloat.sqrt
  | .cmp => .ofBool (!b.greater a && !c.less a)
  | .abs =>
    match a with
    | .int n => .int n.abs
    | _ => .float a.toFloat.abs
  | .ceil => onFloat Float.ceil a
  | .floor => onFloat Float.floor a
  | .round => a.round (roundingStep a b)
  | .mod => .float (remainder a.toFloat b.toFloat)
  | .str => (a.convert .string).1
  | .toInt => .int a.toInt
  | .toFloat => .float a.toFloat
  | .substr => .ofString (substr a.text b.toInt c.toInt)
  | .strlen => .int (Int64.ofNat a.text.utf8ByteSize)
  | .findstr => .int (findstr a.text b.text)
  | .strip =>
    match a with
    | .str s => .ofString (strip s b.text.toList c.toInt)
    | _ => a
  | .toUpper => .ofString (Text.toUpper a.text)
  | .toLower => .ofString (Text.toLower a.text)

/-- Reads a builtin into a place that holds `old`, or calls it. A constant keeps the type of the
place, the result of a function replaces what was there. -/
def read (b : Builtin) (old : Value) (args : List Value) : Except ErrorKind Value :=
  match b with
  | .typedef _ => .error .unknownIdentifier
  | .pi => .ok (old.assign (.float piValue))
  | .function f => .ok (call f args)

/-- Builtins cannot be written; only a function takes no notice of being assigned to. -/
def write (b : Builtin) (args : List Value) : Except ErrorKind Value :=
  match b with
  | .typedef _ => .error .unknownIdentifier
  | .pi => .error .assignConstant
  | .function f => .ok (call f args)

end Builtin

end HostScript
