import HostScript.Hook
import HostScript.Host.Directory
import HostScript.Host.Result
import HostScript.Host.Variable
/-!
# The host

A host owns variables and results by number. Its clients hold links: a link is attached to a number,
whether there is something of that number or not. A link that defined its variable owns it, and
takes it along when it is removed. Whatever changes queues an event for every link attached there;
the link that made the change may be left out.
-/

namespace HostScript

/-- What a link is attached to. -/
inductive LinkTarget where
  | variable (id : Int64)
  | result (id : Int64)
deriving Repr, DecidableEq

structure HostLink where
  target : LinkTarget
  owner : Bool
deriving Repr, DecidableEq

/-- An event for one link. -/
structure LinkEvent where
  link : Nat
  event : Event
deriving Repr, DecidableEq

structure Host where
  vars : Directory Int64 Variable
  results : Directory Int64 Result
  links : Directory Nat HostLink
  /-- The number of the link made last. -/
  lastLink : Nat
  /-- The events nobody has taken yet, oldest first. -/
  queue : List LinkEvent
deriving Repr

namespace Host

def empty : Host := ⟨.empty, .empty, .empty, 0, []⟩

instance : Inhabited Host := ⟨empty⟩

/-! ## Events -/

/-- Queues an event for the links attached to a target, but for one that is left out. -/
def emit (host : Host) (target : LinkTarget) (event : Event) (except : Option Nat) : Host :=
  let links := host.links.entries.filter fun (link, l) => l.target = target && some link ≠ except
  { host with queue := host.queue ++ links.map fun (link, _) => ⟨link, event⟩ }

def emitTo (host : Host) (link : Nat) (event : Event) : Host :=
  { host with queue := host.queue ++ [⟨link, event⟩] }

/-- The link that is left out when it wants to hear nothing of its own changes. -/
def skipped (link : Nat) (skipSelf : Bool) : Option Nat := if skipSelf then some link else none

/-- Takes all events out of the queue. -/
def takeEvents (host : Host) : Host × List LinkEvent := ({ host with queue := [] }, host.queue)

/-! ## Links -/

def addLink (host : Host) (target : LinkTarget) (owner : Bool) : Host × Nat :=
  let link := host.lastLink + 1
  ({ host with links := host.links.insert link ⟨target, owner⟩, lastLink := link }, link)

def target? (host : Host) (link : Nat) : Option LinkTarget := (host.links.find? link).map (·.target)

def isOwner (host : Host) (link : Nat) : Bool := (host.links.find? link).any (·.owner)

def linkCount (host : Host) : Nat := host.links.size

/-- Attaches a new link to a variable, defined or not. -/
def importVariable (host : Host) (id : Int64) : Host × Nat := host.addLink (.variable id) false

/-- Attaches a new link to a result, defined or not. -/
def linkResult (host : Host) (id : Int64) : Host × Nat := host.addLink (.result id) false

def linkedVariable? (host : Host) (link : Nat) : Option Variable :=
  match host.target? link with
  | some (.variable id) => host.vars.find? id
  | _ => none

def linkedResult? (host : Host) (link : Nat) : Option Result :=
  match host.target? link with
  | some (.result id) => host.results.find? id
  | _ => none

/-! ## Variables -/

/-- Adds a variable, which the links that wait for it are told. -/
def insertVariable (host : Host) (d : VariableDefinition) : Host × Except DefinitionError Int64 :=
  if host.vars.contains d.id then (host, .error (.duplicate d.id))
  else
    let host := { host with vars := host.vars.insert d.id (.ofDefinition d) }
    (host.emit (.variable d.id) .idChanged none, .ok d.id)

def defineVariable (host : Host) (csv : String) : Host × Except DefinitionError Int64 :=
  match VariableDefinition.parse csv with
  | .error e => (host, .error e)
  | .ok d => host.insertVariable d

/-- Removes a variable; its links stay attached to the number. -/
def removeVariable (host : Host) (id : Int64) : Host × Bool :=
  if host.vars.contains id then
    let host := { host with vars := host.vars.erase id }
    (host.emit (.variable id) .idChanged none, true)
  else (host, false)

/-- Defines a variable and attaches a new link to it that owns it. -/
def exportVariable (host : Host) (csv : String) : Host × Except DefinitionError Nat :=
  match host.defineVariable csv with
  | (host, .error e) => (host, .error e)
  | (host, .ok id) =>
    let (host, link) := host.addLink (.variable id) true
    (host, .ok link)

/-- Attaches a link to another variable. The variable it owned is removed, unless it is the same. -/
def relinkVariable (host : Host) (link : Nat) (id : Int64) : Host × Bool :=
  match host.links.find? link with
  | none => (host, false)
  | some old =>
    let host :=
      match old.target with
      | .variable previous =>
        if old.owner && previous ≠ id then
          { host with vars := host.vars.erase previous }.emit (.variable previous) .idChanged
            (some link)
        else host
      | .result _ => host
    let host := { host with links := host.links.insert link ⟨.variable id, false⟩ }
    (host.emitTo link .idChanged, true)

/-- Gives a link a variable of its own, in place of the one it owned. -/
def redefineVariable (host : Host) (link : Nat) (csv : String) : Host × Except DefinitionError Int64 :=
  match VariableDefinition.parse csv with
  | .error e => (host, .error e)
  | .ok d =>
    match host.links.find? link with
    | none => (host, .error (.badId ("link " ++ toString link)))
    | some old =>
      let host :=
        match old.target with
        | .variable previous =>
          if old.owner then { host with vars := host.vars.erase previous } else host
        | .result _ => host
      if host.vars.contains d.id then (host, .error (.duplicate d.id))
      else
        let host :=
          { host with
            vars := host.vars.insert d.id (.ofDefinition d)
            links := host.links.insert link ⟨.variable d.id, true⟩ }
        (host.emit (.variable d.id) .idChanged none, .ok d.id)

/-- Removes a link, with the variable it owns or the requests it made. -/
def unlink (host : Host) (link : Nat) : Host :=
  match host.links.find? link with
  | none => host
  | some l =>
    let host := { host with links := host.links.erase link }
    match l.target with
    | .variable id => if l.owner then (host.removeVariable id).1 else host
    | .result id => { host with results := host.results.modify id (·.forget link) }

/-- Stores a value in a variable and tells its links if it changed. Gives whether it changed, and
nothing if there is no such variable or the value does not convert. -/
def storeVariable (host : Host) (id : Int64) (v : Value) (except : Option Nat) : Host × Option Bool :=
  match (host.vars.find? id).bind (·.store? v) with
  | none => (host, none)
  | some (stored, changed) =>
    let host := { host with vars := host.vars.insert id stored }
    (if changed then host.emit (.variable id) .valueChange except else host, some changed)

/-- Whether a link may not write a variable: it is read only, and the link does not own it. -/
def isProtected (l : HostLink) (v : Variable) : Bool :=
  !l.owner && v.flags.contains VariableFlags.readOnly && !v.flags.contains VariableFlags.writeable

/-- Writes a variable through a link. -/
def setVariable (host : Host) (link : Nat) (v : Value) (skipSelf : Bool) : Host × Option Bool :=
  match host.links.find? link with
  | some l =>
    match l.target with
    | .variable id =>
      if (host.vars.find? id).any (isProtected l) then (host, none)
      else host.storeVariable id v (skipped link skipSelf)
    | .result _ => (host, none)
  | none => (host, none)

/-- Writes a variable for the application; every link is told. -/
def setVariableValue (host : Host) (id : Int64) (v : Value) : Host × Option Bool :=
  host.storeVariable id v none

/-- Replaces the flags of a variable and tells its links if they changed. -/
def storeFlags (host : Host) (id : Int64) (flags : VariableFlags) (except : Option Nat) : Host × Bool :=
  match host.vars.find? id with
  | none => (host, false)
  | some v =>
    if v.flags = flags then (host, false)
    else
      let host := { host with vars := host.vars.insert id { v with flags := flags } }
      (host.emit (.variable id) .flagsChange except, true)

def updateFlags (host : Host) (link : Nat) (flags : VariableFlags) (skipSelf : Bool) : Host × Bool :=
  match host.target? link with
  | some (.variable id) => host.storeFlags id flags (skipped link skipSelf)
  | _ => (host, false)

def setVariableFlags (host : Host) (id : Int64) (flags : VariableFlags) : Host × Bool :=
  host.storeFlags id flags none

/-! ## Results -/

def defineResult (host : Host) (csv : String) : Host × Except DefinitionError Int64 :=
  match ResultDefinition.parse csv with
  | .error e => (host, .error e)
  | .ok d =>
    if host.results.contains d.id then (host, .error (.duplicate d.id))
    else
      let host := { host with results := host.results.insert d.id (.ofDefinition d) }
      (host.emit (.result d.id) .idChanged none, .ok d.id)

/-- Attaches a link to another result; its requests to the one before are dropped. -/
def relinkResult (host : Host) (link : Nat) (id : Int64) : Host × Bool :=
  match host.links.find? link with
  | none => (host, false)
  | some l =>
    let results :=
      match l.target with
      | .result previous => host.results.modify previous (·.forget link)
      | .variable _ => host.results
    let links := host.links.insert link { l with target := .result id }
    ({ host with results := results, links := links }.emitTo link .idChanged, true)

/-- Adds samples. The links are told, and then those whose requests are covered now. -/
def commitResult (host : Host) (id : Int64) (samples : List Int64) : Host × Bool :=
  match host.results.find? id with
  | none => (host, false)
  | some r =>
    let (r, done) := r.append samples
    let host := { host with results := host.results.insert id r }
    let host := host.emit (.result id) .accessChange none
    (done.foldl (fun host q => host.emitTo q.link .gotRange) host, true)

/-- Drops the samples, after the links are told. -/
def clearResult (host : Host) (id : Int64) : Host × Bool :=
  match host.results.find? id with
  | none => (host, false)
  | some r =>
    let host := host.emit (.result id) .clear none
    ({ host with results := host.results.insert id r.clear }, true)

/-- Asks for a range of samples. There is nothing to ask for if the range is empty or there
already. -/
def requestRange (host : Host) (link : Nat) (offset size : Int64) : Host × Bool :=
  if offset < 0 ∨ size ≤ 0 then (host, false)
  else
    match host.target? link with
    | some (.result id) =>
      match host.results.find? id with
      | none => (host, false)
      | some r =>
        let offset := offset.toInt.toNat
        let size := size.toInt.toNat
        if r.covers offset size then (host, false)
        else ({ host with results := host.results.insert id (r.ask ⟨link, offset, size⟩) }, true)
    | _ => (host, false)

end Host

end HostScript
