/-!
# Events and hooks

The host tells of a change to something a script is attached to by an event. A script sets a hook
by storing the position of a label there, and the event that fires the hook calls that label.
Positions that are not positive disarm a hook.
-/

namespace HostScript

/-- Something that happened to a host variable or result. -/
inductive Event where
  /-- The value of a variable changed. -/
  | valueChange
  /-- The flags of a variable changed. -/
  | flagsChange
  /-- A variable or result was defined or removed, or the link was attached to another one. -/
  | idChanged
  /-- Samples of a result arrived. -/
  | accessChange
  /-- The samples of a result are dropped. -/
  | clear
  /-- A range of samples that was asked for has arrived. -/
  | gotRange
deriving Repr, DecidableEq, Inhabited

/-- What a label can be set for. -/
inductive Hook where
  | value
  | flags
  | id
  | access
  | clear
  | gotRange
deriving Repr, DecidableEq, Inhabited

namespace Event

def name : Event → String
  | .valueChange => "ValueChange"
  | .flagsChange => "FlagsChange"
  | .idChanged => "IdChanged"
  | .accessChange => "AccessChange"
  | .clear => "Clear"
  | .gotRange => "GotRange"

/-- The hook that an event fires on a variable. -/
def variableHook? : Event → Option Hook
  | .valueChange => some .value
  | .flagsChange => some .flags
  | .idChanged => some .id
  | _ => none

/-- The hook that an event fires on a result. -/
def resultHook? : Event → Option Hook
  | .idChanged => some .id
  | .accessChange => some .access
  | .clear => some .clear
  | .gotRange => some .gotRange
  | _ => none

end Event

/-- The positions stored in the hooks. -/
structure HookSlots where
  value : Int
  flags : Int
  id : Int
  access : Int
  clear : Int
  gotRange : Int
deriving Repr, DecidableEq

namespace HookSlots

/-- All hooks disarmed. -/
def disarmed : HookSlots := ⟨0, 0, 0, 0, 0, 0⟩

def get (slots : HookSlots) : Hook → Int
  | .value => slots.value
  | .flags => slots.flags
  | .id => slots.id
  | .access => slots.access
  | .clear => slots.clear
  | .gotRange => slots.gotRange

def set (slots : HookSlots) (hook : Hook) (ip : Int) : HookSlots :=
  match hook with
  | .value => { slots with value := ip }
  | .flags => { slots with flags := ip }
  | .id => { slots with id := ip }
  | .access => { slots with access := ip }
  | .clear => { slots with clear := ip }
  | .gotRange => { slots with gotRange := ip }

/-- The position a hook calls, if it is armed. -/
def armed? (slots : HookSlots) (hook : Hook) : Option Int :=
  let ip := slots.get hook
  if 0 < ip then some ip else none

end HookSlots

end HostScript
