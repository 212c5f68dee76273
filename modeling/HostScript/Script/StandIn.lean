import HostScript.Script.Functions
/-!
# Objects that stand for host entities

A script works on variables and results of the host through objects. Reading a member gives what
is linked at the moment, or a value that says that there is nothing; writing a member that cannot
be written does nothing. Setting a hook stores the position of a label.
-/

set_option autoImplicit false

namespace HostScript

open ScriptFunction (give)

namespace ScriptState

variable {κ : Type}

/-- Does something to the host. -/
def onHost {α : Type} (f : Host → Host × α) : ScriptAction κ α :=
  modifyGet fun s =>
    let (host, a) := f s.host
    (a, s.setHost host)

/-- What is read of the linked variable, or something else if there is none. -/
def ofVariable {α : Type} (link : Nat) (f : Variable → α) (missing : α) : ScriptAction κ α := do
  match (← get).host.linkedVariable? link with
  | some v => return f v
  | none => return missing

def ofResult {α : Type} (link : Nat) (f : Result → α) (missing : α) : ScriptAction κ α := do
  match (← get).host.linkedResult? link with
  | some r => return f r
  | none => return missing

/-- Whether a link may be pointed elsewhere or given other flags: one that owns nothing. -/
def isGlobal (s : ScriptState κ) (link : Nat) : Bool := !s.host.isOwner link

def skipsEvent (s : ScriptState κ) (link : Nat) : Bool := s.binding.skipsEvent link

/-- Replaces the flags of the linked variable. -/
def putFlags (link : Nat) (flags : VariableFlags) : ScriptAction κ Bool := do
  let skip := (← get).skipsEvent link
  onHost fun host => host.updateFlags link flags skip

/-- Changes the flags of the linked variable. -/
def changeFlags (link : Nat) (f : VariableFlags → VariableFlags) : ScriptAction κ Bool := do
  match (← get).host.linkedVariable? link with
  | some v => putFlags link (f v.flags)
  | none => return false

/-- Writes the linked variable; a value that is refused is forgotten. -/
def putValue (link : Nat) (v : Value) : ScriptAction κ Unit := do
  let skip := (← get).skipsEvent link
  let _ ← onHost fun host => host.setVariable link v skip

end ScriptState

open ScriptState

/-- A position stored in a hook. -/
def hookPosition (v : Value) : Int := v.toInt.toInt

def hookValue (ip : Int) : Value := .int (Int64.ofInt ip)

/-! ## Variables -/

namespace VariableMember

variable {κ : Type}

/-- The variable is pointed to another id by a number, and defined anew by a text. -/
def setUp (link : Nat) (v : Value) : ScriptAction κ Bool :=
  if v.isNumber then onHost fun host => host.relinkVariable link v.toInt
  else
    onHost fun host =>
      let (host, r) := host.redefineVariable link v.text
      (host, r.isOk)

/-- Calls a member that is a function. -/
def call (link : Nat) (m : VariableMember) (arg : Value) : ScriptAction κ (Answer Value) := do
  let flags : VariableFlags := .ofLetters arg.text
  match m with
  | .setup => return give (.ofBool (← setUp link arg))
  | .name => return give (.ofString (← ofVariable link (·.name arg.toInt.toInt) ""))
  | .isFlags => return give (.ofBool (← ofVariable link (·.flags.contains flags) false))
  | .setFlags => return give (.ofBool (← changeFlags link (·.union flags)))
  | .unsetFlags => return give (.ofBool (← changeFlags link (·.diff flags)))
  | _ => return .ok none

/-- Reads a member. -/
def read (link : Nat) (m : VariableMember) : ScriptAction κ (Answer Value) := do
  let b := (← get).binding
  let bound := b.vars.find? (·.link = link)
  match m with
  | .id => return give (.int (← ofVariable link (·.id) 0))
  | .unit => return give (.ofString (← ofVariable link (·.definition.unit) ""))
  | .cur => return give (← ofVariable link (·.current) .invalid)
  | .curStr => return give (.ofString (← ofVariable link (·.currentText) ""))
  | .rnd => return give (← ofVariable link (·.definition.round) .invalid)
  | .default => return give (← ofVariable link (·.definition.default) .invalid)
  | .min => return give (← ofVariable link (·.definition.min) .invalid)
  | .max => return give (← ofVariable link (·.definition.max) .invalid)
  | .flags => return give (.ofString (← ofVariable link (·.flags.letters) ""))
  | .on hook => return give (hookValue ((bound.map (·.hooks.get hook)).getD 0))
  | .skipEvent => return give (.ofBool (b.skipsEvent link))
  | _ => return .ok none

/-- Writes a member. Most of them take no notice of that. -/
def write (link : Nat) (m : VariableMember) (v : Value) : ScriptAction κ Unit := do
  match m with
  | .id =>
    if (← get).isGlobal link then
      let _ ← onHost fun host => host.relinkVariable link v.toInt
  | .cur => putValue link v
  | .flags =>
    if (← get).isGlobal link then
      let _ ← putFlags link (.ofLetters v.text)
  | .on hook =>
    modify fun s => s.modifyBinding fun b =>
      b.modifyVariable link fun x => { x with hooks := x.hooks.set hook (hookPosition v) }
  | .skipEvent =>
    modify fun s => s.modifyBinding fun b =>
      b.modifyVariable link fun x => { x with skipEvent := 0 < v.toInt }
  | _ => return

def access (link : Nat) (m : VariableMember) : Access → ScriptAction κ (Answer Value)
  | .read => read link m
  | .call args => call link m (args.headD .undefined)
  | .write v => do
    write link m v
    return give v

end VariableMember

/-! ## Results -/

namespace ResultMember

variable {κ : Type}

/-- The sample at an index; a negative index means the last one. -/
def sampleAt (r : Result) (index : Int64) : Int64 :=
  let i := if index < 0 then r.count - 1 else index.toInt.toNat
  (r.sample? i).getD 0

/-- The size of a range that is asked for; a negative one means up to the last sample. -/
def rangeSize (count offset size : Int64) : Int64 := if size < 0 then count - offset else size

def call (link : Nat) (m : ResultMember) (args : List Value) : ScriptAction κ (Answer Value) := do
  let first := (args.getD 0 .undefined).toInt
  let second := (args.getD 1 .undefined).toInt
  match m with
  | .name => return give (.ofString (← ofResult link (·.name first.toInt) ""))
  | .data => return give (.int (← ofResult link (sampleAt · first) 0))
  | .request =>
    let count ← ofResult link (fun r => Int64.ofNat r.count) 0
    return give (.ofBool (← onHost fun host => host.requestRange link first (rangeSize count first second)))
  | _ => return .ok none

def read (link : Nat) (m : ResultMember) : ScriptAction κ (Answer Value) := do
  let bound := (← get).binding.results.find? (·.link = link)
  match m with
  | .id => return give (.int (← ofResult link (·.id) 0))
  | .flags => return give (.ofString (← ofResult link (·.definition.flags.letters) ""))
  | .offset => return give (.int (← ofResult link (·.definition.offset) 0))
  | .range => return give (.int (← ofResult link (·.valueRange) 0))
  | .blockCount => return give (.int (← ofResult link (fun r => Int64.ofNat r.count) 0))
  | .on hook => return give (hookValue ((bound.map (·.hooks.get hook)).getD 0))
  | _ => return .ok none

def write (link : Nat) (m : ResultMember) (v : Value) : ScriptAction κ Unit := do
  match m with
  | .id =>
    let _ ← onHost fun host => host.relinkResult link v.toInt
  | .on hook =>
    modify fun s => s.modifyBinding fun b =>
      b.modifyResult link fun x => { x with hooks := x.hooks.set hook (hookPosition v) }
  | _ => return

def access (link : Nat) (m : ResultMember) : Access → ScriptAction κ (Answer Value)
  | .read => read link m
  | .call args => call link m args
  | .write v => do
    write link m v
    return give v

end ResultMember

/-! ## Any object -/

namespace ScriptObject

variable {κ μ : Type} [NativeObject κ μ]

/-- Reads, writes or calls a member of the object that a handle names. -/
def access (h : Handle) (m : ObjectMember μ) (a : Access) : ScriptAction κ (Answer Value) := do
  match (← get).arena.get? h, m with
  | none, _ => return .error .notObject
  | some (.native o), .native m =>
    match NativeObject.access o m a with
    | .error kind => return .error kind
    | .ok none => return .ok none
    | .ok (some (o, v)) =>
      modify fun s => { s with arena := s.arena.set h (.native o) }
      return give v
  | some (.variable link _), .variable m => m.access link a
  | some (.result link), .result m => m.access link a
  | some _, _ => return .ok none

end ScriptObject

end HostScript
