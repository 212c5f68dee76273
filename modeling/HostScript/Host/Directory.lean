/-!
# Directories

What a host holds is found by number and listed in the order of the numbers. A directory is a list
of entries with increasing keys.
-/

namespace HostScript

structure Directory (κ α : Type) where
  entries : List (κ × α)
deriving Repr

namespace Directory

variable {κ α : Type}

def empty : Directory κ α := ⟨[]⟩

instance : Inhabited (Directory κ α) := ⟨empty⟩

def values (d : Directory κ α) : List α := d.entries.map (·.2)

def size (d : Directory κ α) : Nat := d.entries.length

variable [DecidableEq κ]

def find? (d : Directory κ α) (key : κ) : Option α := (d.entries.find? (·.1 = key)).map (·.2)

def contains (d : Directory κ α) (key : κ) : Bool := (d.find? key).isSome

def erase (d : Directory κ α) (key : κ) : Directory κ α := ⟨d.entries.filter (·.1 ≠ key)⟩

/-- Changes the value of a key that is there. -/
def modify (d : Directory κ α) (key : κ) (f : α → α) : Directory κ α :=
  ⟨d.entries.map fun (k, a) => (k, if k = key then f a else a)⟩

variable [LT κ] [DecidableLT κ]

/-- Puts a value where its key belongs, in the place of the value that was there. -/
def insertEntry (key : κ) (a : α) : List (κ × α) → List (κ × α)
  | [] => [(key, a)]
  | (k, b) :: rest =>
    if key < k then (key, a) :: (k, b) :: rest
    else if key = k then (key, a) :: rest
    else (k, b) :: insertEntry key a rest

def insert (d : Directory κ α) (key : κ) (a : α) : Directory κ α := ⟨insertEntry key a d.entries⟩

end Directory

end HostScript
