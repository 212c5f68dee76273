import HostScript.Host.Flags
import HostScript.Text.Escape
import HostScript.Text.Quoted
import HostScript.Text.Split
import HostScript.Value.Arithmetic
import HostScript.Value.Order
/-!
# Variable definitions

A variable is defined by a line of fields with commas between them:

    id,name,unit,flags,description,type,conversion,round,default,min,max,state=value,...

The name is a path with bars between its segments, and the last fields name values. Every value has
to be one of the type of the variable.
-/

namespace HostScript

open HostScript.Text HostScript.Number

/-- Why a definition is refused. -/
inductive DefinitionError where
  | badId (text : String)
  | zeroId
  | badValue (field text : String) (ty : ValueType)
  | duplicate (id : Int64)
deriving Repr, DecidableEq

def DefinitionError.message : DefinitionError → String
  | .badId text => "invalid id field " ++ quoted text
  | .zeroId => "id zero is reserved"
  | .badValue field text ty =>
    "field " ++ field ++ " " ++ quoted text ++ " does not convert to " ++ ty.name
  | .duplicate id => "id 0x" ++ hexText id.toUInt64.toNat ++ " already defined"

/-- A value with a name of its own. -/
structure NamedValue where
  name : String
  value : Value
deriving Repr

structure VariableDefinition where
  id : Int64
  name : String
  unit : String
  flags : VariableFlags
  description : String
  type : ValueType
  conversion : String
  /-- The step that values are rounded to. -/
  round : Value
  default : Value
  min : Value
  max : Value
  states : List NamedValue
deriving Repr

/-! ## Fields -/

/-- The fields of a definition line. -/
def definitionFields (csv : String) : List String :=
  fields ',' (String.ofList (dropEndWhile (fun c => c == '\r' || c == '\n') csv.toList))

/-- The number in a field; nothing else may stand there. -/
def readId (field : String) : Except DefinitionError Int64 :=
  let text := trim field
  let r := readInteger text.toList
  if r.used = text.length ∧ text ≠ "" then .ok r.value else .error (.badId text)

/-- The number that names what is defined, which is not zero. -/
def readOwnId (field : String) : Except DefinitionError Int64 := do
  let id ← readId field
  if id = 0 then .error .zeroId else .ok id

/-- The value in a field, in the type of the variable. -/
def readValue (field text : String) (ty : ValueType) : Except DefinitionError Value :=
  let (v, clean) := (Value.ofString text).convert ty
  if clean then .ok v else .error (.badValue field text ty)

/-- A named value; without a sign of equality its text is empty. -/
def readState (ty : ValueType) (field : String) : Except DefinitionError NamedValue := do
  let (name, text) := (cut '=' field).getD (field, "")
  return ⟨name, ← readValue "state" text ty⟩

namespace VariableDefinition

/-- A type that is not known or says nothing means text. -/
def readType (field : String) : ValueType :=
  match ValueType.ofName field with
  | .invalid | .undefined => .string
  | ty => ty

/-- Reads a definition. The id is looked at first, the named values before the other values. -/
def parse (csv : String) : Except DefinitionError VariableDefinition := do
  let fields := definitionFields csv
  let field := fun i => fields.getD i ""
  let id ← readOwnId (field 0)
  let ty := readType (field 5)
  let unit := field 2
  let default :=
    if ty = .string ∧ unit.toList.contains 'M' then unescape (field 8) else field 8
  let states ← ((fields.drop 11).takeWhile (· ≠ "")).mapM (readState ty)
  return {
    id
    name := field 1
    unit
    flags := .ofLetters (field 3)
    description := unescape (field 4)
    type := ty
    conversion := field 6
    round := ← readValue "round" (field 7) ty
    default := ← readValue "default" default ty
    min := ← readValue "min" (field 9) ty
    max := ← readValue "max" (field 10) ty
    states }

/-- The definition as a line again. -/
def render (d : VariableDefinition) : String :=
  String.intercalate ","
    (["0x" ++ hexText d.id.toUInt64.toNat, d.name, d.unit, d.flags.letters, d.description, d.type.name,
      d.conversion, d.round.text, d.default.text, d.min.text, d.max.text]
      ++ d.states.map fun s => s.name ++ "=" ++ s.value.text)

end VariableDefinition

/-! ## Paths -/

/-- The segments of a path that are kept: the last ones for a positive number of levels, all but
the first ones for a negative number. -/
def keptSegments (levels : Int) (segments : List String) : List String :=
  if 0 < levels then segments.drop (segments.length - levels.natAbs)
  else segments.drop (min levels.natAbs (segments.length - 1))

/-- The name at a number of levels: the whole path for zero, otherwise segments with spaces between
them. -/
def pathAt (levels : Int) (path : String) : String :=
  if levels = 0 then path else String.intercalate " " (keptSegments levels (fields '|' path))

end HostScript
