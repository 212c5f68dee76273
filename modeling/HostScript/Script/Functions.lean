import HostScript.Registry
import HostScript.Script.Names
/-!
# Functions of a script

What `print`, `exit`, `Create` and the others do to the state of the script. A function that is
called for what it does gives zero or nothing.
-/

set_option autoImplicit false

namespace HostScript

/-- Actions on the state of a script. -/
abbrev ScriptAction (κ α : Type) := StateM (ScriptState κ) α

namespace ScriptFunction

variable {κ μ : Type} [NativeObject κ μ]

/-- An answer that gives a value. -/
def give (v : Value) : Answer Value := .ok (some v)

/-- How an argument is printed: an object by its type and handle. -/
def printed (s : ScriptState κ) (v : Value) : String :=
  match (Handle.ofValue? v).bind fun h => (s.arena.get? h).map fun o => (h, o) with
  | some (h, o) => o.typeName ++ "(:" ++ h.text ++ ")"
  | none => v.text

/-- Ends the script; the expression goes on to its end. -/
def leave (s : ScriptState κ) : ScriptState κ :=
  { ({ s with exitCode := .script }).setPhase .ready with ip := -1 }

/-- In step mode a script sleeps between its steps, otherwise within its call. -/
def pause (s : ScriptState κ) (t : Micros) : ScriptState κ :=
  if s.stepMode then { s with sleepUntil := some (s.clock + t) } else { s with clock := s.clock + t }

/-- Calls a function. The number of arguments has been checked. -/
def call (registry : Registry κ) (f : ScriptFunction) (args : List Value) :
    ScriptAction κ (Answer Value) := do
  let first := args.headD .undefined
  match f with
  | .exit =>
    modify leave
    return give (.int 0)
  | .print =>
    modify fun s => s.print (String.intercalate " " (args.map (printed s)))
    return give .undefined
  | .writelog =>
    modify fun s => s.print (s.name ++ ": " ++ String.intercalate " " (args.map (·.text)))
    return give (.int 0)
  | .clock =>
    let now := secondsOf (← get).clock
    return give (.float (if first.isZero then now else now - first.toFloat))
  | .sleep =>
    modify fun s => pause s (microsOfSeconds first.toFloat)
    return give (.int 0)
  | .settimeout =>
    let t := first.toInt.toInt.toNat
    modify fun s => { s with maxLoopTime := if t = 0 then none else some t }
    return give (.int 0)
  | .getenv => return give (.ofString ((← get).environmentText first.text))
  | .trace =>
    let n := first.toInt
    modify fun s => { s with trace := n != 0 }
    return give (.int n)
  | .create =>
    match registry.create first.text args.tail with
    | .error kind => return .error kind
    | .ok o =>
      let s ← get
      let (arena, h) := s.arena.insert (.native o)
      set { s with arena := arena }
      return give h.toValue
  | .time => return give (.str (timeText (← get).clock))
  | .date => return give (.str (dateText (← get).clock))

end ScriptFunction

end HostScript
