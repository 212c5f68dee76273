import HostScript.Object.Handle
/-!
# The arena of script objects

An arena owns the objects that scripts reach, and counts for each how many references there are.
A slot that was emptied is used again with the next generation, the slot emptied last first, so that
a handle to what was there before finds nothing. When the last reference goes an object is asked
whether it may go too.
-/

namespace HostScript

/-- A place for an object. -/
structure Slot (ω : Type) where
  generation : UInt32
  refs : Nat
  object : Option ω
deriving Repr

/-- The slots of all objects, and the numbers of the empty ones in the order they are used again. -/
structure Arena (ω : Type) where
  slots : List (Slot ω)
  free : List Nat
deriving Repr

namespace Arena

variable {ω : Type}

def empty : Arena ω := ⟨[], []⟩

instance : Inhabited (Arena ω) := ⟨empty⟩

/-! ## Looking objects up -/

/-- The slot a handle names, if the object it was made for is still there. -/
def slot? (arena : Arena ω) (h : Handle) : Option (Slot ω) :=
  match arena.slots[h.index.toNat]? with
  | some slot => if slot.generation = h.generation ∧ slot.object.isSome then some slot else none
  | none => none

def get? (arena : Arena ω) (h : Handle) : Option ω := (arena.slot? h).bind (·.object)

def contains (arena : Arena ω) (h : Handle) : Bool := (arena.slot? h).isSome

def refs (arena : Arena ω) (h : Handle) : Nat := ((arena.slot? h).map (·.refs)).getD 0

/-- The handles of the objects, in the order of their slots. -/
def handles (arena : Arena ω) : List Handle :=
  (arena.slots.zipIdx.filter fun (slot, _) => slot.object.isSome).map fun (slot, i) =>
    ⟨UInt32.ofNat i, slot.generation⟩

def size (arena : Arena ω) : Nat := (arena.slots.filter (·.object.isSome)).length

def isEmpty (arena : Arena ω) : Bool := arena.size == 0

/-! ## Changing the arena -/

/-- Changes the slot a handle names; a handle to nothing changes nothing. -/
def modifySlot (arena : Arena ω) (h : Handle) (f : Slot ω → Slot ω) : Arena ω :=
  match arena.slot? h with
  | some slot => { arena with slots := arena.slots.set h.index.toNat (f slot) }
  | none => arena

/-- Replaces an object by a later state of it. -/
def set (arena : Arena ω) (h : Handle) (object : ω) : Arena ω :=
  arena.modifySlot h fun slot => { slot with object := some object }

/-- Stores an object that nothing refers to yet. -/
def insert (arena : Arena ω) (object : ω) : Arena ω × Handle :=
  match arena.free with
  | [] => (⟨arena.slots ++ [⟨0, 0, some object⟩], []⟩, ⟨UInt32.ofNat arena.slots.length, 0⟩)
  | index :: free =>
    let generation := ((arena.slots[index]?.map (·.generation)).getD 0) + 1
    (⟨arena.slots.set index ⟨generation, 0, some object⟩, free⟩, ⟨UInt32.ofNat index, generation⟩)

/-- Counts one reference more. -/
def retain (arena : Arena ω) (h : Handle) : Arena ω :=
  arena.modifySlot h fun slot => { slot with refs := slot.refs + 1 }

/-- Empties the slot of an object, whatever refers to it. -/
def remove (arena : Arena ω) (h : Handle) : Arena ω × Option ω :=
  match arena.slot? h with
  | none => (arena, none)
  | some slot =>
    (⟨arena.slots.set h.index.toNat ⟨slot.generation, 0, none⟩, h.index.toNat :: arena.free⟩, slot.object)

/-- Removes an object that nothing refers to, if it agrees. -/
def collect (agrees : ω → Bool) (arena : Arena ω) (h : Handle) : Arena ω × Bool :=
  match arena.slot? h with
  | none => (arena, false)
  | some slot =>
    if slot.refs = 0 ∧ slot.object.any agrees then ((arena.remove h).1, true) else (arena, false)

/-- Counts one reference less, and collects the object when it was the last. -/
def release (agrees : ω → Bool) (arena : Arena ω) (h : Handle) : Arena ω × Bool :=
  collect agrees (arena.modifySlot h fun slot => { slot with refs := slot.refs - 1 }) h

end Arena

end HostScript
