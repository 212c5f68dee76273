import HostScript.Value.Basic
/-!
# Object handles

Scripts hold objects by handle: the number of a slot, and the generation of what the slot held when
the handle was made. In a script value a handle is a custom blob of eight bytes, both numbers with
the lowest byte first.
-/

namespace HostScript

/-- Names an object in an arena. -/
structure Handle where
  index : UInt32
  generation : UInt32
deriving Repr, DecidableEq, Inhabited

namespace Handle

/-- The four bytes of a number, lowest first. -/
def bytesOf (n : UInt32) : List UInt8 :=
  [n.toUInt8, (n >>> 8).toUInt8, (n >>> 16).toUInt8, (n >>> 24).toUInt8]

def numberOf (a b c d : UInt8) : UInt32 :=
  a.toUInt32 ||| (b.toUInt32 <<< 8) ||| (c.toUInt32 <<< 16) ||| (d.toUInt32 <<< 24)

def toValue (h : Handle) : Value := .custom (bytesOf h.index ++ bytesOf h.generation)

/-- The handle a blob of exactly eight bytes holds. -/
def ofValue? (v : Value) : Option Handle :=
  match v.blob? with
  | some [a, b, c, d, e, f, g, h] => some ⟨numberOf a b c d, numberOf e f g h⟩
  | _ => none

def text (h : Handle) : String := toString h.index.toNat ++ "." ++ toString h.generation.toNat

end Handle

end HostScript
