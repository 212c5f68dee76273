import HostScript.Builtin
import HostScript.Object.Handle
import HostScript.Registry
import HostScript.Value.Reference
/-!
# Where expressions find their names

A name is looked up in the scope of the caller first, then among the builtins, then in the registry
of the application. A scope is a bundle of functions on a state `σ`; it knows its identifiers,
members of objects included, by an identity `ι` of its own choice.

An evaluation works on a `Session`: the state of the scope and the place for errors. Both survive a
failure, so that a script may have done something before it failed.
-/

set_option autoImplicit false

namespace HostScript

/-- What an evaluation works on. -/
structure Session (σ : Type) where
  state : σ
  errors : ErrorState
deriving Repr

/-- Actions on a session. -/
abbrev Action (σ α : Type) := StateM (Session σ) α

/-- Actions that may fail. -/
abbrev Eval (σ α : Type) := ExceptT ScriptError (StateM (Session σ)) α

/-- Evaluates a text in the running session; nothing means that it failed and reported an error. -/
abbrev Evaluation (σ : Type) := String → Action σ (Option Value)

/-- The identifiers that a caller brings into an evaluation. -/
structure Scope (ι σ : Type) where
  /-- Looks a name up. -/
  find? : σ → String → Option (Identifier ι)
  /-- Reads, writes or calls an identifier. A function may evaluate a text itself. -/
  access : Evaluation σ → ι → Access → Action σ (Answer Operand)
  /-- Whether a handle names an object. -/
  isObject : σ → Handle → Bool
  /-- Looks up a member of an object. -/
  member? : σ → Handle → String → Option (Identifier ι)
  /-- Told when an object that a function returned is no longer needed by the expression. -/
  release : Handle → σ → σ
  /-- The names, in the order in which they are listed. -/
  names : σ → List String
  /-- The cells that references lead to. -/
  cells : σ → Cells
  setCells : Cells → σ → σ

namespace Scope

/-- A scope without identifiers of its own. -/
def none : Scope Empty Unit where
  find? _ _ := .none
  access _ i _ := i.elim
  isObject _ _ := false
  member? _ _ _ := .none
  release _ s := s
  names _ := []
  cells _ := .empty
  setCells _ s := s

end Scope

/-- An identifier together with the layer it was found in. -/
inductive Symbol (ι : Type) where
  | builtin (b : Builtin)
  | registered (index : Nat)
  | scoped (i : ι)
deriving Repr

/-- A scope over the builtins and a registry. -/
structure Engine (κ ι σ : Type) where
  registry : Registry κ
  scope : Scope ι σ

namespace Engine

variable {κ ι σ : Type} (engine : Engine κ ι σ)

/-- Looks a name up in all layers. -/
def find? (state : σ) (name : String) : Option (Identifier (Symbol ι)) :=
  ((engine.scope.find? state name).map (·.map .scoped))
    <|> ((Builtin.find? name).map (·.map .builtin))
    <|> ((engine.registry.find? name).map (·.map .registered))

/-- All names, the innermost layer first. -/
def names (state : σ) : List String :=
  engine.scope.names state ++ Builtin.names ++ engine.registry.names

/-- Hands an access to the layer that knows the identifier. -/
def dispatch (nested : Evaluation σ) (symbol : Symbol ι) (a : Access) : Action σ (Answer Operand) :=
  match symbol with
  | .builtin b =>
    let answer :=
      match a with
      | .read => b.read .undefined []
      | .write _ => b.write []
      | .call args => b.read .undefined args
    return answer.map fun v => some (.value v)
  | .registered index =>
    match a with
    | .call args => return (engine.registry.call index args).map fun v => some (.value v)
    | _ => return .ok .none
  | .scoped i => engine.scope.access nested i a

/-- Reads, writes or calls an identifier. Whatever goes wrong inside of a function shows as an
error in that function. -/
def access (nested : Evaluation σ) (i : Identifier (Symbol ι)) (a : Access) : Eval σ Operand := do
  match ← (engine.dispatch nested i.id a : StateM (Session σ) (Answer Operand)) with
  | .ok (some operand) => return operand
  | .ok .none => throw ⟨.compilerImplementationError, i.name⟩
  | .error kind => throw ⟨if i.kind = .function then .functionError else kind, i.name⟩

end Engine

end HostScript
