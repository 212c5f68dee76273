import HostScript.Number.IntegerText
import HostScript.Script.Clock
import HostScript.Text.Split
/-!
# Settings

A settings file has one `name = value` to a line. Blank lines are skipped, and so are lines that
start with `;` or `#`. A line that is not understood is reported and changes nothing; the other
lines count all the same, and of two lines for one setting the later.
-/

namespace HostScript

/-- What scripts run with. -/
structure Settings where
  /-- How long a call may take. -/
  maxLoopTime : Option Micros
  trace : Bool
  listing : Bool
  /-- The name of the script, if not that of its file. -/
  scriptName : Option String
  /-- Which messages of the program are wanted. -/
  log : String
deriving Repr, DecidableEq

/-- Why a line is not understood. -/
inductive SettingError where
  /-- There is no equals sign in it. -/
  | noValue (line : String)
  | notANumber (name value : String)
  | negative (name : String)
  | unknown (name : String)
deriving Repr, DecidableEq

def SettingError.message : SettingError → String
  | .noValue line => "expected 'name = value', got '" ++ line ++ "'"
  | .notANumber name value => name ++ ": '" ++ value ++ "' is not a number"
  | .negative name => name ++ ": must not be negative"
  | .unknown name => "unknown setting '" ++ name ++ "'"

/-- A line that is not understood, counted from one. -/
structure SettingFault where
  line : Nat
  error : SettingError
deriving Repr, DecidableEq

def SettingFault.message (f : SettingFault) : String :=
  "line " ++ toString f.line ++ ": " ++ f.error.message

namespace Settings

open HostScript.Text

/-- No time limit, no trace and no listing. -/
def standard : Settings := ⟨none, false, false, none, "warn"⟩

instance : Inhabited Settings := ⟨standard⟩

/-! ## Values -/

/-- A number that takes up the whole text. -/
def wholeNumber? (value : String) : Option Int :=
  let cs := value.toList
  let r := Number.readInteger cs
  if r.used = 0 ∨ r.used ≠ cs.length then none else some r.value.toInt

def number (name value : String) : Except SettingError Int :=
  match wholeNumber? value with
  | some n => .ok n
  | none => .error (.notANumber name value)

/-- A text without the double quotes that may stand around it. -/
def unquote (value : String) : String :=
  match value.toList with
  | '"' :: rest => if rest.getLast? = some '"' then String.ofList rest.dropLast else value
  | _ => value

/-- A time limit in microseconds; zero means that there is none. -/
def timeLimit (name value : String) : Except SettingError (Option Micros) := do
  let n ← number name value
  if n < 0 then throw (.negative name)
  return if n = 0 then none else some n.toNat

/-! ## Lines -/

/-- Makes one setting. -/
def assign (s : Settings) (name value : String) : Except SettingError Settings := do
  match name with
  | "max_loop_time" => return { s with maxLoopTime := ← timeLimit name value }
  | "trace" => return { s with trace := (← number name value) ≠ 0 }
  | "listing" => return { s with listing := (← number name value) ≠ 0 }
  | "script_name" => return { s with scriptName := some (unquote value) }
  | "log" => return { s with log := unquote value }
  | _ => throw (.unknown name)

/-- Whether a line without blanks around it says nothing. -/
def isComment (line : String) : Bool :=
  match line.toList with
  | [] => true
  | c :: _ => c == ';' || c == '#'

/-- The settings after a line. -/
def apply (s : Settings) (line : String) : Except SettingError Settings :=
  let line := trim line
  if isComment line then .ok s
  else
    match cut '=' line with
    | none => .error (.noValue line)
    | some (name, value) => s.assign (trim name) (trim value)

/-- The settings after lines numbered from `n` on, and the faults in these lines. -/
def applyAll (s : Settings) (n : Nat) : List String → Settings × List SettingFault
  | [] => (s, [])
  | line :: more =>
    match s.apply line with
    | .ok s => s.applyAll (n + 1) more
    | .error e =>
      let (s, faults) := s.applyAll (n + 1) more
      (s, ⟨n, e⟩ :: faults)

/-- Reads the text of a settings file. -/
def load (text : String) : Settings × List SettingFault := standard.applyAll 1 (lines text)

end Settings

end HostScript
