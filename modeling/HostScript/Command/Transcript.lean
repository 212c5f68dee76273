import HostScript.Command.Options
import HostScript.Command.Settings
import HostScript.Script.Interpreter
import HostScript.Text.Split
/-!
# What a command writes

A command lists names, evaluates an expression and runs a script, in this order and as far as it is
asked to; whatever fails is the last. A script runs on a host of its own, an expression without one.

The transcript of a command, all it writes and whether it went well, is a function of its options, of
its surroundings and of the files it reads. `Command.perform` finds out which files these are, in
any monad that can read files.
-/

set_option autoImplicit false

namespace HostScript

/-- What a command has written and whether it went well. -/
structure Transcript where
  /-- The lines of the answer. -/
  out : List String
  /-- The lines of complaints. -/
  err : List String
  ok : Bool
deriving Repr, DecidableEq

namespace Transcript

/-- Nothing is written and all is well. -/
def silent : Transcript := ⟨[], [], true⟩

def answer (lines : List String) : Transcript := ⟨lines, [], true⟩

/-- A complaint of the program. -/
def complaint (text : String) : String := "sf: " ++ text

/-- A failure, with what was written before it. -/
def failure (lines : List String) (text : String) : Transcript := ⟨lines, [complaint text], false⟩

/-- One part of a command and then the next, unless the first fails. -/
def andThen (first second : Transcript) : Transcript :=
  if first.ok then ⟨first.out ++ second.out, first.err ++ second.err, second.ok⟩ else first

end Transcript

/-- Why a file cannot be read. -/
structure FileError where
  /-- Whether there is no such file. -/
  missing : Bool
  /-- What the system says. -/
  text : String
deriving Repr, DecidableEq

/-- What reading a file gives. -/
abbrev FileRead := Except FileError String

/-- What a command finds in the system. -/
structure Surroundings where
  environment : List (String × String)
  clock : Micros
deriving Repr

namespace Command

open Transcript (answer failure complaint)

/-! ## Paths -/

/-- The names in a path; a single dot names nothing. -/
def components (path : String) : List String :=
  (Text.fields '/' path).filter fun part => part ≠ "" ∧ part ≠ "."

/-- A file name up to its last dot. A name whose only dot is its first character is kept. -/
def stem (name : String) : String :=
  let after := name.toList.reverse.takeWhile (· ≠ '.')
  let before := name.toList.take (name.length - after.length - 1)
  if name = ".." ∨ before.isEmpty then name else String.ofList before

/-- The name of a script that is read from a path. -/
def scriptName (path : String) : String :=
  match (components path).getLast? with
  | some name => if name = ".." then "" else stem name
  | none => ""

/-- The settings file of the user, in the place for such files. -/
def userSettingsPath? (environment : List (String × String)) : Option String :=
  let find (name : String) : Option String := (environment.find? (·.1 == name)).map (·.2)
  let base :=
    match find "XDG_CONFIG_HOME" with
    | some path => if path.startsWith "/" then some path else none
    | none => none
  (base <|> ((find "HOME").filter (· ≠ "")).map (· ++ "/.config")).map (· ++ "/sf/sfrc")

/-! ## The parts of a command -/

/-- The settings of a command, with a warning if their file cannot be read. -/
def settingsOf : Option (String × FileRead) → Settings × Transcript
  | none => (.standard, .silent)
  | some (_, .ok text) => ((Settings.load text).1, .silent)
  | some (path, .error e) =>
    (.standard, { Transcript.silent with err := [complaint ("warning: " ++ path ++ ": " ++ e.text)] })

/-- Scripts of a command know no objects but those of the host. -/
def interpreter (bound : Bool) (around : Surroundings) : Interpreter Empty :=
  (Interpreter.new .empty bound around.clock).modifyScript fun s =>
    { s with environment := around.environment }

/-- The names that a script can use before it declares any. -/
def listNames (around : Surroundings) : Transcript := answer (interpreter true around).names

/-- The value of an expression, as text or with its type. -/
def evaluate (around : Surroundings) (text : String) (typed : Bool) : Transcript :=
  match (interpreter false around).calculate text with
  | (_, some v) => answer [if typed then v.toStream else v.text]
  | (i, none) => failure [] i.debugText

/-- Runs a mode and delivers the events it has caused. The phase after the mode decides whether it
went well. -/
def runMode (limit : Nat) (i : Interpreter Empty) (mode : Mode) :
    Option (Interpreter Empty × Transcript) := do
  let i ← i.execute limit mode
  let failed := i.script.phase = .error
  let (i, _) ← i.dispatchEvents limit
  let (i, lines) := i.takeOutput
  return (i, if failed then failure lines i.debugText else answer lines)

/-- Runs the modes that remain. -/
def runModes (limit : Nat) (i : Interpreter Empty) : List Mode → Option Transcript
  | [] => some .silent
  | mode :: modes => do
    let (i, first) ← runMode limit i mode
    if first.ok then return first.andThen (← runModes limit i modes) else return first

/-- Compiles a script and runs it once. -/
def runScript (limit : Nat) (around : Surroundings) (settings : Settings) (name source : String) :
    Option Transcript :=
  let i := (interpreter true around).modifyScript fun s =>
    { s with
      name := name
      maxLoopTime := settings.maxLoopTime
      trace := settings.trace
      listing := settings.listing }
  let (i, compiled) := i.compile source
  let (i, lines) := i.takeOutput
  match compiled with
  | .done => (runModes limit i [.init, .run]).map (answer lines).andThen
  | .failed => some (failure lines i.debugText)
  | .beyondSource => some ⟨lines, [], false⟩

/-- Runs the script of a file. -/
def runFile (limit : Nat) (around : Surroundings) (settings : Settings) (path : String) :
    FileRead → Option Transcript
  | .ok source => runScript limit around settings (settings.scriptName.getD (scriptName path)) source
  | .error e => some (failure [] (path ++ ": " ++ e.text))

/-! ## Commands -/

/-- A command line that is wrong is answered with how to write it. -/
def usage (e : UsageError) : Transcript := ⟨[], [complaint e.message, Options.usage], false⟩

/-- Carries a command out: `settingsFile` is the settings file with its path, if there is one, and
`script` what reading the script gave. Nothing if the script runs for more than `limit`
instructions. -/
def run (limit : Nat) (around : Surroundings) (options : Options)
    (settingsFile : Option (String × FileRead)) (script : FileRead) : Option Transcript := do
  let (settings, warning) := settingsOf settingsFile
  let names := if options.listNames then listNames around else .silent
  let value := match options.expression with
    | some text => evaluate around text options.typed
    | none => .silent
  let before := (warning.andThen names).andThen value
  match options.script with
  | some path =>
    if before.ok then return before.andThen (← runFile limit around settings path script)
    else return before
  | none => return before

/-! ## Reading files -/

section Reading

variable {m : Type → Type} [Monad m] (read : String → m FileRead)

/-- Reads the settings file. That of the user need not be there. -/
def readSettings (around : Surroundings) : SettingsSource → m (Option (String × FileRead))
  | .nowhere => pure none
  | .file path => do return some (path, ← read path)
  | .user =>
    match userSettingsPath? around.environment with
    | none => pure none
    | some path => do
      match ← read path with
      | .ok text => return some (path, .ok text)
      | .error e => return if e.missing then none else some (path, .error e)

/-- Reads the files that a command line asks for and carries the command out. -/
def perform (limit : Nat) (around : Surroundings) (args : List String) : m (Option Transcript) :=
  match Options.parse args with
  | .error e => pure (some (usage e))
  | .ok options => do
    let settingsFile ← readSettings read around options.settings
    let script ← match options.script with
      | some path => read path
      | none => pure (.ok "")
    return run limit around options settingsFile script

end Reading

end Command

end HostScript
