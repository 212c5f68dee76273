/-!
# Options

The command line is `sf [-dlt] [-f[<file>]] [-e <expr>] [<script>]`. Flags of one letter can be
written together behind one dash. `-f` and `-e` take the rest of their argument, or else the next
one; but a bare `-f` leaves an argument with a dash alone and means that no settings are read. After
`--` everything is a script, and so is a lone dash anywhere.

Arguments are read from left to right by a machine that knows what the argument before is waiting
for.
-/

namespace HostScript

/-- Where the settings are read from. -/
inductive SettingsSource where
  /-- The settings file of the user, if there is one. -/
  | user
  | nowhere
  | file (path : String)
deriving Repr, DecidableEq

/-- What a command line asks for. -/
structure Options where
  settings : SettingsSource
  /-- An expression to evaluate. -/
  expression : Option String
  /-- Whether to list the names that scripts can use. -/
  listNames : Bool
  /-- Whether to show the type of the expression's value. -/
  typed : Bool
  debug : Bool
  /-- A script to run. -/
  script : Option String
deriving Repr, DecidableEq

/-- What is wrong with a command line. -/
inductive UsageError where
  | unknownOption (flag : Char)
  | noExpression
  | manyScripts (count : Nat)
deriving Repr, DecidableEq

def UsageError.message : UsageError → String
  | .unknownOption flag => "unknown option: -" ++ flag.toString
  | .noExpression => "-e requires an expression"
  | .manyScripts count => "expected one script, got " ++ toString count

namespace Options

def none : Options := ⟨.user, .none, false, false, false, .none⟩

instance : Inhabited Options := ⟨none⟩

def usage : String := "Usage: sf [-dlt] [-f[<file>]] [-e <expr>] [<script>]"

/-- What the next argument is taken for. -/
inductive Expected where
  | any
  /-- A settings file, unless it starts with a dash. -/
  | file
  | expression
  | script
deriving Repr, DecidableEq

/-- What the arguments so far have asked for. -/
structure Progress where
  options : Options
  /-- The scripts, the last one first. -/
  scripts : List String
  expected : Expected
deriving Repr, DecidableEq

namespace Progress

def start : Progress := ⟨Options.none, [], .any⟩

def addScript (p : Progress) (path : String) : Progress := { p with scripts := path :: p.scripts }

def setExpression (p : Progress) (text : String) : Progress :=
  { p with options := { p.options with expression := some text }, expected := .any }

def setSource (p : Progress) (source : SettingsSource) (expected : Expected) : Progress :=
  { p with options := { p.options with settings := source }, expected := expected }

/-- Reads the flags behind a dash. -/
def readFlags (p : Progress) : List Char → Except UsageError Progress
  | [] => .ok p
  | 'd' :: flags => { p with options := { p.options with debug := true } }.readFlags flags
  | 'l' :: flags => { p with options := { p.options with listNames := true } }.readFlags flags
  | 't' :: flags => { p with options := { p.options with typed := true } }.readFlags flags
  | ['f'] => .ok (p.setSource .nowhere .file)
  | 'f' :: path => .ok (p.setSource (.file (String.ofList path)) .any)
  | ['e'] => .ok { p with expected := .expression }
  | 'e' :: text => .ok (p.setExpression (String.ofList text))
  | flag :: _ => .error (.unknownOption flag)

/-- Reads an argument that nothing waits for. -/
def readAny (p : Progress) (arg : String) : Except UsageError Progress :=
  match arg.toList with
  | ['-', '-'] => .ok { p with expected := .script }
  | '-' :: flag :: flags => p.readFlags (flag :: flags)
  | _ => .ok (p.addScript arg)

/-- Reads the next argument. -/
def read (p : Progress) (arg : String) : Except UsageError Progress :=
  match p.expected with
  | .any => p.readAny arg
  | .file =>
    if arg.toList.head? = some '-' then { p with expected := .any }.readAny arg
    else .ok (p.setSource (.file arg) .any)
  | .expression => .ok (p.setExpression arg)
  | .script => .ok (p.addScript arg)

/-- What has been asked for when the arguments end. -/
def finish (p : Progress) : Except UsageError Options :=
  if p.expected = .expression then .error .noExpression
  else
    match p.scripts with
    | [] => .ok p.options
    | [path] => .ok { p.options with script := some path }
    | paths => .error (.manyScripts paths.length)

end Progress

/-- Reads the arguments of a command line. -/
def parse (args : List String) : Except UsageError Options := do
  (← args.foldlM Progress.read Progress.start).finish

end Options

end HostScript
