/-!
# Phases of a script

A script is compiled, initialised and then run, as often as wanted; an error ends all that until it
is compiled again.
-/

namespace HostScript

/-- Where a script stands. -/
inductive Phase where
  | error
  | empty
  | compiled
  | running
  | ready
deriving Repr, DecidableEq, Inhabited

def Phase.name : Phase → String
  | .error => "Error"
  | .empty => "Empty"
  | .compiled => "Compiled"
  | .running => "Running"
  | .ready => "Ready"

/-- What an application asks of a script. -/
inductive Mode where
  /-- Run what comes before `main` once, after compiling. -/
  | init
  /-- Run `main`, or everything, to the end. -/
  | run
  /-- Get ready to run one instruction at a time. -/
  | start
  /-- Run one instruction. -/
  | step
  | abort
deriving Repr, DecidableEq, Inhabited

/-- How the script came to its end. -/
inductive ExitCode where
  | normal
  | error
  /-- The script called `exit`. -/
  | script
  /-- The application stopped it. -/
  | application
deriving Repr, DecidableEq, Inhabited

def ExitCode.name : ExitCode → String
  | .normal => "Normal"
  | .error => "Error"
  | .script => "Script"
  | .application => "Application"

end HostScript
