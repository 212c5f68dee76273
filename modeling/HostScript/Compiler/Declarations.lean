import HostScript.Value.Basic
/-!
# What the compiler asks about names

The compiler does not look into expressions, but it has to know of the first name of a statement
whether it starts a declaration, a statement of its own kind or an expression. It also has variables
declared and statements handled that are not its own.
-/

namespace HostScript

/-- The keywords of statements. -/
inductive Keyword where
  | if_
  | else_
  | while_
  | break_
  | continue_
  | goto
  | gosub
  | return_
  /-- Announces a statement that is handled outside of the compiler. -/
  | external
deriving Repr, DecidableEq, Inhabited

namespace Keyword

def all : List Keyword :=
  [.if_, .else_, .while_, .break_, .continue_, .goto, .gosub, .return_, .external]

def name : Keyword → String
  | .if_ => "if"
  | .else_ => "else"
  | .while_ => "while"
  | .break_ => "break"
  | .continue_ => "continue"
  | .goto => "goto"
  | .gosub => "gosub"
  | .return_ => "return"
  | .external => "extern"

/-- The keywords are numbered from one. -/
def code (k : Keyword) : Nat := k.ctorIdx + 1

def ofCode? (code : Int) : Option Keyword := if code < 1 then none else all[code.toNat - 1]?

end Keyword

/-- What a name means at the start of a statement. External statements are told apart by `ξ`. -/
inductive Meaning (ξ : Type) where
  | unknown
  | keyword (k : Keyword)
  | external (x : ξ)
  /-- A keyword that starts no statement. -/
  | reserved
  | typedef (ty : ValueType)
  | expression
deriving Repr

/-- What is known about names, in a state `δ` that compiling adds to. -/
structure Declarations (ξ δ : Type) where
  meaning : δ → String → Meaning ξ
  declare : String → ValueType → δ → δ
  /-- Handles an external statement, or refuses it. -/
  external : ξ → String → δ → δ × Bool

end HostScript
