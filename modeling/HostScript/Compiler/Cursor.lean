import HostScript.Program.Instruction
import HostScript.Text.Ascii
import HostScript.Text.Utf8
/-!
# Reading source text

The statement compiler reads the bytes of the source and shows each as the character of that code,
which is all it needs: everything it looks for is ASCII. A cursor knows the line it is in. Lines are
counted where the cursor advances over a line feed, and not where it is moved.
-/

namespace HostScript

open HostScript.Text

/-- A place in the source, with the bytes from there on. -/
structure Cursor where
  rest : List UInt8
  offset : Nat
  line : Nat
deriving Repr, Inhabited

namespace Cursor

def ofSource (source : String) : Cursor := ⟨utf8 source, 0, 0⟩

def pos (c : Cursor) : SourcePos := ⟨c.line, c.offset⟩

def atEnd (c : Cursor) : Bool := c.rest.isEmpty

/-- The character some bytes ahead, NUL beyond the end. -/
def peekAt (c : Cursor) (ahead : Nat) : Char := Char.ofNat (c.rest.getD ahead 0).toNat

def peek (c : Cursor) : Char := c.peekAt 0

/-- Moves over some bytes, even over the end. -/
def skip (c : Cursor) (n : Nat) : Cursor := ⟨c.rest.drop n, c.offset + n, c.line⟩

/-- Moves over one byte and counts it if it is a line feed. -/
def advance (c : Cursor) : Cursor :=
  ⟨c.rest.tail, c.offset + 1, if c.peek == '\n' then c.line + 1 else c.line⟩

/-- The source between two cursors. -/
def textTo (start stop : Cursor) : String := decode (start.rest.take (stop.offset - start.offset))

/-! ## White space -/

/-- Advances over at most `n` bytes of a line comment. -/
def lineComment : Nat → Cursor → Cursor
  | 0, c => c
  | n + 1, c => if c.atEnd || c.peek == '\n' then c else lineComment n c.advance

/-- Advances over at most `n` bytes of a block comment, and over what closes it. -/
def blockComment : Nat → Cursor → Cursor
  | 0, c => c
  | n + 1, c =>
    if c.atEnd then c
    else if c.peek == '*' && c.peekAt 1 == '/' then c.skip 2
    else blockComment n c.advance

/-- Skips at most `n` white characters and comments. -/
def skipWhiteWithin : Nat → Cursor → Cursor
  | 0, c => c
  | n + 1, c =>
    if isWhite c.peek then skipWhiteWithin n c.advance
    else if c.peek == '/' && c.peekAt 1 == '/' then skipWhiteWithin n (lineComment c.rest.length c)
    else if c.peek == '/' && c.peekAt 1 == '*' then
      skipWhiteWithin n (blockComment c.rest.length (c.skip 2))
    else c

/-- Skips white space; comments count as white space. -/
def skipWhite (c : Cursor) : Cursor := skipWhiteWithin (c.rest.length + 1) c

/-! ## Names and stretches of text -/

/-- The bytes of the name at the cursor. -/
def nameLength (c : Cursor) : Nat := (c.rest.takeWhile fun b => isNameChar (Char.ofNat b.toNat)).length

/-- Moves to the end of an expression: the character that ends it outside of quotes and
parentheses. Tells what stands in the way, if anything does. -/
def toExpressionEnd (ending : Char) : Nat → Nat → Bool → Cursor → Cursor × Option ScriptError
  | 0, _, _, c => (c, some ⟨.unexpectedEnd, "end-of-script"⟩)
  | n + 1, depth, quoted, c =>
    if c.atEnd then (c, some ⟨.unexpectedEnd, "end-of-script"⟩)
    else
      let b := c.peek
      if quoted then
        if b == '\\' && c.peekAt 1 != '\x00' then toExpressionEnd ending n depth true (c.skip 1).advance
        else toExpressionEnd ending n depth (b != '"') c.advance
      else if b == '"' then toExpressionEnd ending n depth true c.advance
      else if b == '(' then toExpressionEnd ending n (depth + 1) false c.advance
      else if b == ')' then
        if depth = 0 then
          if ending == ')' then (c, none) else (c, some ⟨.unexpectedCharacter, ")"⟩)
        else toExpressionEnd ending n (depth - 1) false c.advance
      else if b == ';' && depth == 0 && ending == ';' then (c, none)
      else toExpressionEnd ending n depth false c.advance

/-- Advances over at most `n` bytes up to a delimiter or the end. -/
def toDelimiter (delimiter : Char) : Nat → Cursor → Cursor
  | 0, c => c
  | n + 1, c => if c.atEnd || c.peek == delimiter then c else toDelimiter delimiter n c.advance

end Cursor

end HostScript
