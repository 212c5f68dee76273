import HostScript.Value.Arithmetic
import HostScript.Value.Order
/-!
# References to shared values

Besides a value of its own, an operand may be a reference to a cell that others share. Every
operation on a reference is done on what the cell holds, which may be a reference again, and
writing through it changes the cell. A cell that was taken away leaves its references dangling:
they read as `invalid`, and writing through them does nothing.

One step of copying follows one reference only, so that the copy of a reference to a reference is
a reference.
-/

namespace HostScript

/-- A value, or a reference to a cell. -/
inductive Operand where
  | value (v : Value)
  | ref (cell : Nat)
deriving Repr, Inhabited

namespace Operand

def isRef : Operand → Bool
  | .ref _ => true
  | .value _ => false

end Operand

/-- The shared cells by number; a cell that was taken away holds nothing. -/
structure Cells where
  contents : List (Option Operand)
deriving Repr, Inhabited

namespace Cells

def empty : Cells := ⟨[]⟩

/-- What a cell holds. -/
def get? (cells : Cells) (cell : Nat) : Option Operand := cells.contents[cell]?.join

def set (cells : Cells) (cell : Nat) (a : Operand) : Cells := ⟨cells.contents.set cell (some a)⟩

/-- A new cell, with its number. -/
def alloc (cells : Cells) (a : Operand) : Cells × Nat :=
  (⟨cells.contents ++ [some a]⟩, cells.contents.length)

/-- Takes a cell away. -/
def free (cells : Cells) (cell : Nat) : Cells := ⟨cells.contents.set cell none⟩

/-! ## Reading -/

/-- The value at the end of a chain of at most `n` references, unless the chain dangles. -/
def targetWithin (cells : Cells) : Nat → Operand → Option Value
  | _, .value v => some v
  | 0, .ref _ => none
  | n + 1, .ref cell => (cells.get? cell).bind (cells.targetWithin n)

/-- A chain without a cycle is no longer than there are cells, so this many steps reach its end. -/
def reach (cells : Cells) : Nat := cells.contents.length + 1

/-- The value at the end of a chain. -/
def target? (cells : Cells) (a : Operand) : Option Value := cells.targetWithin cells.reach a

/-- The value an operand stands for. -/
def resolve (cells : Cells) (a : Operand) : Value := (cells.target? a).getD .invalid

/-- A copy of what an operand refers to. -/
def copy (cells : Cells) : Operand → Operand
  | .value v => .value v
  | .ref cell => (cells.get? cell).getD (.value .invalid)

/-- The cells that a chain of at most `n` references passes. -/
def chainWithin (cells : Cells) : Nat → Operand → List Nat
  | _, .value _ => []
  | 0, .ref _ => []
  | n + 1, .ref cell =>
    match cells.get? cell with
    | none => []
    | some held => cell :: cells.chainWithin n held

/-- The cells that a chain passes, up to the one that holds the value. -/
def chain (cells : Cells) (a : Operand) : List Nat := cells.chainWithin cells.reach a

/-! ## Writing -/

/-- Changes the value at the end of a chain of at most `n` references. -/
def modifyWithin (f : Value → Value) : Nat → Cells → Operand → Cells × Operand
  | _, cells, .value v => (cells, .value (f v))
  | 0, cells, .ref cell => (cells, .ref cell)
  | n + 1, cells, .ref cell =>
    match cells.get? cell with
    | none => (cells, .ref cell)
    | some held =>
      let (cells, held) := modifyWithin f n cells held
      (cells.set cell held, .ref cell)

/-- Changes the value an operand stands for; a reference changes its cell and stays a reference. -/
def modify (cells : Cells) (a : Operand) (f : Value → Value) : Cells × Operand :=
  modifyWithin f cells.reach cells a

/-- Converts the value an operand stands for. -/
def setType (cells : Cells) (a : Operand) (ty : ValueType) : Cells × Operand :=
  cells.modify a fun v => (v.convert ty).1

/-- Whether converting loses nothing; there is nothing to convert behind a dangling reference. -/
def converts (cells : Cells) (a : Operand) (ty : ValueType) : Bool :=
  match cells.target? a with
  | some v => (v.convert ty).2
  | none => false

/-- The place that held `v` takes over a copy of the incoming operand, in the type it keeps. A
copy that still is a reference is converted where it leads. -/
def replace (cells : Cells) (v : Value) (incoming : Operand) : Cells × Operand :=
  let taken := cells.copy incoming
  if v.keepsType then cells.setType taken v.type else (cells, taken)

/-- Assigns along a chain of at most `n` references. Each reference that is followed on the left
also follows one on the right. -/
def assignWithin : Nat → Cells → Operand → Operand → Cells × Operand
  | _, cells, .value v, incoming => cells.replace v incoming
  | 0, cells, .ref cell, _ => (cells, .ref cell)
  | n + 1, cells, .ref cell, incoming =>
    match cells.get? cell with
    | none => (cells, .ref cell)
    | some held =>
      let (cells, held) := assignWithin n cells held (cells.copy incoming)
      (cells.set cell held, .ref cell)

/-- Assigns an operand to another one. -/
def assign (cells : Cells) (a incoming : Operand) : Cells × Operand :=
  assignWithin cells.reach cells a incoming

/-! ## Cells in use

A cell is in use from when a write through it begins until that write is done. Whoever comes back to it in the meantime,
to read it or to write it, breaks everything off. A plain value is always assigned; a reference may lead back.
-/

/-- A copy of what an operand refers to, while cells are in use. -/
def copyBeside? (cells : Cells) (used : List Nat) : Operand → Option Operand
  | .value v => some (.value v)
  | .ref cell => if cell ∈ used then none else some (cells.copy (.ref cell))

/-- Changes the value at the end of a chain of at most `n` references, while cells are in use. -/
def modifyBeside? (f : Value → Value) : Nat → Cells → List Nat → Operand → Option (Cells × Operand)
  | _, cells, _, .value v => some (cells, .value (f v))
  | 0, cells, _, .ref cell => some (cells, .ref cell)
  | n + 1, cells, used, .ref cell =>
    match cells.get? cell with
    | none => some (cells, .ref cell)
    | some held =>
      if cell ∈ used then none
      else do
        let (cells, held) ← modifyBeside? f n cells (cell :: used) held
        return (cells.set cell held, .ref cell)

/-- Assigns along a chain of at most `n` references, while cells are in use. -/
def assignBeside? : Nat → Cells → List Nat → Operand → Operand → Option (Cells × Operand)
  | _, cells, used, .value v, incoming => do
    let taken ← cells.copyBeside? used incoming
    if v.keepsType then modifyBeside? (fun x => (x.convert v.type).1) cells.reach cells used taken
    else return (cells, taken)
  | 0, cells, _, .ref cell, _ => some (cells, .ref cell)
  | n + 1, cells, used, .ref cell, incoming => do
    let taken ← cells.copyBeside? used incoming
    match cells.get? cell with
    | none => return (cells, .ref cell)
    | some held =>
      if cell ∈ used then none
      else
        let (cells, held) ← assignBeside? n cells (cell :: used) held taken
        return (cells.set cell held, .ref cell)

/-- Assigns an operand to another one, unless it comes back to a cell in use. -/
def assign? (cells : Cells) (a incoming : Operand) : Option (Cells × Operand) :=
  assignBeside? cells.reach cells [] a incoming

/-! ## Operators -/

/-- A binary operator on what two operands stand for. -/
def apply (cells : Cells) (op : Value → Value → Value) (a b : Operand) : Operand :=
  .value (op (cells.resolve a) (cells.resolve b))

/-- The sum; a missing left operand gives a copy of the right one. -/
def add (cells : Cells) (a b : Operand) : Operand :=
  if (cells.resolve a).keepsType then cells.apply Value.add a b else cells.copy b

/-- Rounds in place. -/
def round (cells : Cells) (a step : Operand) : Cells × Operand :=
  let step := cells.resolve step
  cells.modify a fun v => v.round step

/-- Rounds in place, unless the step is read from a cell in use. A zero step is read before and leaves it at that. -/
def round? (cells : Cells) (a step : Operand) : Option (Cells × Operand) :=
  if (cells.resolve step).isZero then some (cells, a)
  else if (cells.chain a).any (cells.chain step).contains then none
  else some (cells.round a step)

end Cells

end HostScript
