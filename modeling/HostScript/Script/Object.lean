import HostScript.Hook
import HostScript.Object.Native
/-!
# Script objects

Scripts reach three kinds of objects: those of the application, and stand-ins for a variable or a
result of the host, which know the link they go through. Parameters of the application are variables
without hooks.
-/

namespace HostScript

/-- The members of a stand-in for a variable. -/
inductive VariableMember where
  | setup
  | id
  | name
  | unit
  | cur
  | curStr
  | rnd
  | default
  | min
  | max
  | flags
  | isFlags
  | setFlags
  | unsetFlags
  | on (hook : Hook)
  | skipEvent
deriving Repr, DecidableEq

/-- The members of a stand-in for a result. -/
inductive ResultMember where
  | id
  | name
  | flags
  | offset
  | range
  | data
  | blockCount
  | request
  | on (hook : Hook)
deriving Repr, DecidableEq

/-- The members that parameters have, too. -/
def parameterMembers : List (Identifier VariableMember) :=
  [⟨.function, "Setup", 1, .setup⟩,
    ⟨.constant, "Id", 0, .id⟩,
    ⟨.function, "Name", 1, .name⟩,
    ⟨.constant, "Unit", 0, .unit⟩,
    ⟨.variable, "Cur", 0, .cur⟩,
    ⟨.constant, "CurStr", 0, .curStr⟩,
    ⟨.constant, "Rnd", 0, .rnd⟩,
    ⟨.constant, "Def", 0, .default⟩,
    ⟨.constant, "Min", 0, .min⟩,
    ⟨.constant, "Max", 0, .max⟩,
    ⟨.variable, "Flags", 0, .flags⟩,
    ⟨.function, "IsFlags", 1, .isFlags⟩,
    ⟨.function, "SetFlags", 1, .setFlags⟩,
    ⟨.function, "UnsetFlags", 1, .unsetFlags⟩]

/-- The members that only variables have. -/
def variableMembers : List (Identifier VariableMember) :=
  [⟨.variable, "OnValue", 0, .on .value⟩,
    ⟨.variable, "OnFlags", 0, .on .flags⟩,
    ⟨.variable, "OnId", 0, .on .id⟩,
    ⟨.variable, "SkipEvent", 0, .skipEvent⟩]

def resultMembers : List (Identifier ResultMember) :=
  [⟨.constant, "Id", 0, .id⟩,
    ⟨.function, "Name", 1, .name⟩,
    ⟨.constant, "Flags", 0, .flags⟩,
    ⟨.constant, "Offset", 0, .offset⟩,
    ⟨.constant, "Range", 0, .range⟩,
    ⟨.function, "Data", 1, .data⟩,
    ⟨.variable, "BlockCount", 0, .blockCount⟩,
    ⟨.function, "Request", 2, .request⟩,
    ⟨.variable, "OnId", 0, .on .id⟩,
    ⟨.variable, "OnAccess", 0, .on .access⟩,
    ⟨.variable, "OnClear", 0, .on .clear⟩,
    ⟨.variable, "OnGotRange", 0, .on .gotRange⟩]

/-- What a stand-in for a variable stands for. -/
inductive VariableKind where
  | parameter
  | variable
deriving Repr, DecidableEq

/-- An object that a script can hold. -/
inductive ScriptObject (κ : Type) where
  | native (o : κ)
  | variable (link : Nat) (kind : VariableKind)
  | result (link : Nat)
deriving Repr

/-- A member of any object. -/
inductive ObjectMember (μ : Type) where
  | native (m : μ)
  | variable (m : VariableMember)
  | result (m : ResultMember)
deriving Repr

namespace ScriptObject

variable {κ μ : Type} [NativeObject κ μ]

def typeName : ScriptObject κ → String
  | .native o => NativeObject.typeName o
  | .variable _ .parameter => "VarParam"
  | .variable _ .variable => "Variable"
  | .result _ => "ResultData"

/-- The members in the order in which they are listed. -/
def members : ScriptObject κ → List (Identifier (ObjectMember μ))
  | .native o => (NativeObject.members o).map (·.map .native)
  | .variable _ .parameter => parameterMembers.map (·.map .variable)
  | .variable _ .variable => (parameterMembers ++ variableMembers).map (·.map .variable)
  | .result _ => resultMembers.map (·.map .result)

/-- Stand-ins stay as long as the script is bound to what they stand for. -/
def mayGo : ScriptObject κ → Bool
  | .native o => NativeObject.mayGo o
  | _ => false

end ScriptObject

end HostScript
