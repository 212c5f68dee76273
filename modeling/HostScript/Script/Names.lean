import HostScript.Compiler.Declarations
import HostScript.Script.State
/-!
# The names of a script

Besides the builtins a script knows functions and keywords of its own, its variables, and its labels,
which are constants. A script that is bound to a host also knows functions, keywords, bound names and
parameters that come with the host, and these come first.
-/

set_option autoImplicit false

namespace HostScript

/-- The functions that need the state of the script. -/
inductive ScriptFunction where
  | exit
  | print
  | writelog
  | clock
  | sleep
  | settimeout
  | getenv
  | trace
  | create
  | time
  | date
deriving Repr, DecidableEq

/-- The functions that need the host. -/
inductive HostFunction where
  | time
  | date
  | setFlags
  | setFlag
  | unsetFlag
  | createVar
  | variable
  | resultData
deriving Repr, DecidableEq

/-- The statements that the compiler leaves to others. -/
inductive ExternalWord where
  | extern_
  | onChange
  | import_
  | export_
deriving Repr, DecidableEq

/-- What a name of a script stands for. -/
inductive ScriptId (μ : Type) where
  | function (f : ScriptFunction)
  | hostFunction (f : HostFunction)
  | keyword (k : Keyword)
  | external (x : ExternalWord)
  | variable (index : Nat)
  | label (index : Nat)
  | bound (index : Nat)
  | parameter (index : Nat)
  | member (h : Handle) (m : ObjectMember μ)
deriving Repr

namespace ScriptId

variable {μ : Type}

def ofKeyword (k : Keyword) : Identifier (ScriptId μ) := ⟨.keyword, k.name, k.code, .keyword k⟩

def ofExternal (name : String) (x : ExternalWord) : Identifier (ScriptId μ) :=
  ⟨.keyword, name, Keyword.external.code, .external x⟩

/-- The names that every script has. -/
def table : List (Identifier (ScriptId μ)) :=
  [⟨.function, "exit", 1, .function .exit⟩,
    ⟨.function, "print", unlimited, .function .print⟩,
    ⟨.function, "writelog", unlimited, .function .writelog⟩,
    ⟨.function, "clock", 1, .function .clock⟩,
    ⟨.function, "sleep", 1, .function .sleep⟩,
    ⟨.function, "settimeout", 1, .function .settimeout⟩,
    ⟨.function, "getenv", 1, .function .getenv⟩,
    ⟨.function, "trace", 1, .function .trace⟩,
    ⟨.function, "Create", -1, .function .create⟩,
    ⟨.function, "Time", 0, .function .time⟩,
    ⟨.function, "Date", 0, .function .date⟩,
    ofKeyword .if_, ofKeyword .else_, ofKeyword .while_, ofKeyword .break_, ofKeyword .continue_,
    ofKeyword .goto, ofKeyword .gosub, ofKeyword .return_,
    ofExternal "extern" .extern_]

/-- The names that come with the host. -/
def hostTable : List (Identifier (ScriptId μ)) :=
  [⟨.function, "Time", 0, .hostFunction .time⟩,
    ⟨.function, "Date", 0, .hostFunction .date⟩,
    ⟨.function, "SetFlags", 2, .hostFunction .setFlags⟩,
    ⟨.function, "SetFlag", 2, .hostFunction .setFlag⟩,
    ⟨.function, "UnsetFlag", 2, .hostFunction .unsetFlag⟩,
    ⟨.function, "CreateVar", 2, .hostFunction .createVar⟩,
    ⟨.function, "Variable", 1, .hostFunction .variable⟩,
    ⟨.function, "ResultData", 1, .hostFunction .resultData⟩,
    ofExternal "on_change" .onChange,
    ofExternal "import" .import_,
    ofExternal "export" .export_]

/-- Bindings are numbered up to here; beyond, their numbers are those of parameters. -/
def bindingLimit : Nat := 1000

def ofBinding (index : Nat) : ScriptId μ :=
  if index < bindingLimit then .bound index else .parameter (index - bindingLimit)

end ScriptId

namespace ScriptState

variable {κ μ : Type}

/-- The position of the first entry with a name. -/
def indexOf? {α : Type} (nameOf : α → Option String) (name : String) (entries : List α) : Option Nat :=
  entries.findIdx? fun a => nameOf a == some name

/-- Looks up a name that comes with the host. -/
def findHostName? (s : ScriptState κ) (name : String) : Option (Identifier (ScriptId μ)) :=
  Identifier.find? ScriptId.hostTable name
    <|> ((indexOf? (·.name) name s.binding.vars).map fun i =>
      ⟨.variable, name, 0, ScriptId.ofBinding i⟩)
    <|> ((indexOf? (some ·.name) name s.binding.parameters).map fun i =>
      ⟨.constant, name, 0, .parameter i⟩)

/-- Looks up a name that the script has without a host. -/
def findOwnName? (s : ScriptState κ) (name : String) : Option (Identifier (ScriptId μ)) :=
  Identifier.find? ScriptId.table name
    <|> ((indexOf? (some ·.name) name s.vars).map fun i => ⟨.variable, name, 0, .variable i⟩)
    <|> ((indexOf? (some ·.name) name s.program.labels).map fun i => ⟨.constant, name, 0, .label i⟩)

def findName? (s : ScriptState κ) (name : String) : Option (Identifier (ScriptId μ)) :=
  (if s.bound then s.findHostName? name else none) <|> s.findOwnName? name

/-! ## Listing -/

def ownNames (s : ScriptState κ) : List String :=
  Identifier.names (@ScriptId.table Empty) ++ s.vars.map (·.name)
    ++ s.program.labels.map (·.name)

/-- Members of stand-ins are listed under the type they belong to. -/
def memberNames {α : Type} (type : String) (members : List (Identifier α)) : List String :=
  members.map fun m => "<" ++ type ++ ">." ++ m.name

def hostNames (s : ScriptState κ) : List String :=
  Identifier.names (@ScriptId.hostTable Empty) ++ s.binding.boundNames
    ++ s.binding.parameters.map (·.name)
    ++ memberNames "VarParam" parameterMembers
    ++ memberNames "Variable" variableMembers
    ++ memberNames "ResultData" resultMembers

def names (s : ScriptState κ) : List String :=
  s.ownNames ++ (if s.bound then s.hostNames else [])

end ScriptState

end HostScript
