import HostScript.Command.Transcript
import Std.Time.DateTime.Timestamp
/-!
# The command `sf`

Asks for the transcript of a command, reading the files it needs, and prints that.
-/

namespace HostScript.Main

/-- More instructions than any script gets to run. -/
def instructionLimit : Nat := 0x4000000000000000

/-! ## The system -/

/-- The number and the text of a system error. -/
def describe : IO.Error → UInt32 × String
  | .alreadyExists _ code text | .interrupted _ code text | .noFileOrDirectory _ code text
  | .invalidArgument _ code text | .permissionDenied _ code text | .resourceExhausted _ code text
  | .inappropriateType _ code text | .noSuchThing _ code text
  | .otherError code text | .resourceBusy code text | .resourceVanished code text
  | .unsupportedOperation code text | .hardwareFault code text | .unsatisfiedConstraints code text
  | .illegalOperation code text | .protocolError code text | .timeExpired code text => (code, text)
  | .unexpectedEof => (0, "unexpected end of file")
  | .userError text => (0, text)

def errorText (e : IO.Error) : String :=
  let (code, text) := describe e
  text ++ " (os error " ++ toString code ++ ")"

/-- Whether a path cannot be followed to its end. -/
def isMissing : IO.Error → Bool
  | .noFileOrDirectory .. => true
  | _ => false

/-- Reads a file that should hold text. -/
def readText (path : String) : IO FileRead := do
  try
    match String.fromUTF8? (← IO.FS.readBinFile path) with
    | some text => return .ok text
    | none => return .error ⟨false, "stream did not contain valid UTF-8"⟩
  catch e => return .error ⟨isMissing e, errorText e⟩

/-- The variables in a block of `name=value` texts that each end in a zero byte. -/
def readBlock (bytes : List UInt8) : List (String × String) :=
  match String.fromUTF8? ⟨bytes.toArray⟩ with
  | some text => (Text.fields '\x00' text).filterMap (Text.cut '=')
  | none => []

def environment : IO (List (String × String)) := do
  try
    return readBlock (← IO.FS.readBinFile "/proc/self/environ").toList
  catch _ => return []

def now : IO Micros := do
  return (← Std.Time.Timestamp.now).toNanosecondsSinceUnixEpoch.val.toNat / 1000

end HostScript.Main

open HostScript HostScript.Main in
def main (args : List String) : IO UInt32 := do
  match ← Command.perform readText instructionLimit ⟨← environment, ← now⟩ args with
  | none => return 1
  | some t =>
    t.out.forM fun line => IO.println line
    t.err.forM fun line => IO.eprintln line
    return if t.ok then 0 else 1
