import HostScript.Script.StandIn
/-!
# Binding a script to its host

`import` and `export` statements bind a name to a host variable, `Variable` and `ResultData` bind an
object without a name, and `on_change` asks for a label to be called. What a script has bound is
undone when the script is cleared.
-/

set_option autoImplicit false

namespace HostScript

open HostScript.Text HostScript.Number
open ScriptFunction (give)
open ScriptState

namespace Binding

variable {κ : Type}

/-! ## Making bindings -/

/-- Stores an object that the binding itself refers to. -/
def keepObject (o : ScriptObject κ) : ScriptAction κ Handle :=
  modifyGet fun s =>
    let (arena, h) := s.arena.insert o
    (h, { s with arena := arena.retain h })

/-- Binds a variable that a link is attached to, under a name or without one. -/
def bindVariable (name : Option String) (link : Nat) : ScriptAction κ Handle := do
  let h ← keepObject (.variable link .variable)
  modify fun s => s.modifyBinding fun b =>
    { b with vars := b.vars ++ [⟨name, link, h, .disarmed, true, none⟩] }
  return h

/-- Binds the result of an id. -/
def bindResult (id : Int64) : ScriptAction κ Handle := do
  let link ← onHost fun host => host.linkResult id
  let h ← keepObject (.result link)
  modify fun s => s.modifyBinding fun b => { b with results := b.results ++ [⟨link, h, .disarmed⟩] }
  return h

/-- A link to a new variable; one to nothing if the definition is refused. -/
def linkDefined (csv : String) : ScriptAction κ Nat :=
  onHost fun host =>
    match host.exportVariable csv with
    | (host, .ok link) => (host, link)
    | (host, .error _) => host.importVariable 0

/-! ## Functions -/

/-- The flag functions work on a bound name. -/
def changeNamedFlags (f : HostFunction) (name : String) (flags : VariableFlags) :
    ScriptAction κ Bool := do
  match (← get).binding.named? name with
  | none => return false
  | some v =>
    changeFlags v.link fun current =>
      match f with
      | .setFlag => current.union flags
      | .unsetFlag => current.diff flags
      | _ => flags

/-- Defines the variable of a bound name anew. -/
def redefineNamed (name csv : String) : ScriptAction κ Bool := do
  match (← get).binding.named? name with
  | none => return false
  | some v =>
    onHost fun host =>
      let (host, r) := host.redefineVariable v.link csv
      (host, r.isOk)

/-- Calls a function. The number of arguments has been checked. -/
def call (f : HostFunction) (args : List Value) : ScriptAction κ (Answer Value) := do
  let first := args.getD 0 .undefined
  let second := args.getD 1 .undefined
  match f with
  | .time => return give (.str (timeText (← get).clock))
  | .date => return give (.str (dateText (← get).clock))
  | .setFlags | .setFlag | .unsetFlag =>
    return give (.ofBool (← changeNamedFlags f first.text (.ofLetters second.text)))
  | .createVar => return give (.ofBool (← redefineNamed first.text second.text))
  | .variable =>
    let id := first.coerceInt
    let link ← if id.clean then onHost fun host => host.importVariable id.value else linkDefined first.text
    return give (← bindVariable none link).toValue
  | .resultData => return give (← bindResult first.toInt).toValue

/-- Reads or writes a bound name. -/
def accessBound (index : Nat) (a : Access) : ScriptAction κ (Answer Value) := do
  match (← get).binding.vars[index]?, a with
  | none, _ => return .ok none
  | some v, .write x => do
    putValue v.link x
    return give x
  | some v, _ => return give (← ofVariable v.link (·.current) .invalid)

/-- Reads a parameter, which is an object. -/
def accessParameter (index : Nat) (a : Access) : ScriptAction κ (Answer Value) := do
  match (← get).binding.parameters[index]?, a with
  | none, _ => return .ok none
  | some _, .write _ => return .error .assignConstant
  | some p, _ => return give ((p.handle.map Handle.toValue).getD .undefined)

/-! ## Statements -/

/-- `import name,id`: the name must be new. -/
def importStatement (text : String) : ScriptAction κ Bool := do
  match cut ',' text with
  | none => return false
  | some (name, id) =>
    let name := trim name
    if name = "" ∨ ((← get).binding.named? name).isSome then return false
    let link ← onHost fun host => host.importVariable (readInteger (trim id).toList).value
    let _ ← bindVariable (some name) link
    return true

/-- `export name,definition`: the definition must be a good one, too. -/
def exportStatement (text : String) : ScriptAction κ Bool := do
  let (name, csv) := (cut ',' text).getD (text, "")
  let name := trim name
  let csv := trim csv
  if name = "" ∨ csv = "" ∨ ((← get).binding.named? name).isSome then return false
  match ← onHost fun host => host.exportVariable csv with
  | .error _ => return false
  | .ok link =>
    let _ ← bindVariable (some name) link
    return true

/-- The name and the label of an `on_change` statement: what stands before and after the first
blanks, if all of it stands in one line. -/
def readOnChange (text : String) : Option (String × String) :=
  let cs := (trim text).toList
  let name := cs.takeWhile fun c => !isBlank c
  let label := (cs.drop name.length).dropWhile isBlank
  if name.isEmpty || label.isEmpty || label.contains '\n' then none
  else some (String.ofList name, trim (String.ofList label))

/-- Stores a label in the first binding of a name. -/
def setChangeLabel (name label : String) : List VariableBinding → List VariableBinding
  | [] => []
  | v :: vs =>
    if v.name == some name then { v with changeLabel := some label } :: vs
    else v :: setChangeLabel name label vs

/-- `on_change name label`: nothing is said about a name that is not bound. -/
def onChangeStatement (text : String) : ScriptAction κ Unit :=
  match readOnChange text with
  | none => return
  | some (name, label) =>
    modify fun s => s.modifyBinding fun b => { b with vars := setChangeLabel name label b.vars }

/-- Handles an external statement, or refuses it. -/
def statement (x : ExternalWord) (text : String) : ScriptAction κ Bool := do
  match x with
  | .extern_ => return true
  | .onChange =>
    onChangeStatement text
    return true
  | .import_ => importStatement text
  | .export_ => exportStatement text

/-! ## Linking and clearing -/

/-- Makes the objects of the parameters. -/
def linkParameters : List Parameter → ScriptAction κ (List Parameter)
  | [] => return []
  | p :: ps => do
    let h ← keepObject (.variable p.link .parameter)
    return { p with handle := some h } :: (← linkParameters ps)

/-- The binding with its value hook set to the label it asks for; disarmed if there is none. -/
def linkLabel (program : Program) (v : VariableBinding) : VariableBinding :=
  match v.changeLabel with
  | none => v
  | some label => { v with hooks := v.hooks.set .value ((program.labelIp? label).getD (-1)) }

/-- The labels asked for that the program does not have. -/
def missingLabels (program : Program) (b : Binding) : List String :=
  (b.vars.filterMap (·.changeLabel)).filter fun label => (program.labelIp? label).isNone

/-- Settles what statements asked for, once the program is compiled. Labels that are missing are
written to the output, and the first of them is the error. -/
def link : ScriptAction κ (Except ScriptError Unit) := do
  let parameters ← linkParameters (← get).binding.parameters
  let s ← get
  let missing := missingLabels s.program s.binding
  set ((s.modifyBinding fun b =>
    { b with parameters := parameters, vars := b.vars.map (linkLabel s.program) }).printAll
      (missing.map fun label => "Label '" ++ label ++ "' NOT found!"))
  match missing with
  | [] => return .ok ()
  | label :: _ => return .error ⟨.labelNotFound, label⟩

/-- Unlinks everything the script has bound. -/
def clear (b : Binding) : Binding :=
  let links := b.vars.map (·.link) ++ b.results.map (·.link)
  { b with
    host := links.foldl Host.unlink b.host
    vars := []
    results := []
    parameters := b.parameters.map fun p => { p with handle := none } }

/-- Hands a host variable to the scripts compiled from now on. -/
def addParameter (b : Binding) (name : String) (id : Int64) : Binding :=
  let (host, link) := b.host.importVariable id
  { b with host := host, parameters := b.parameters ++ [⟨name, link, none⟩] }

end Binding

end HostScript
