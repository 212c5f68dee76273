import HostScript.Compiler.Cursor
import HostScript.Compiler.Declarations
/-!
# Compiling statements

    statement := ';' | '{' { statement } '}' | ':' label ';'
               | typedef name [ '=' expression ] ';'
               | 'if' '(' expression ')' statement [ 'else' statement ]
               | 'while' '(' expression ')' statement
               | ('goto' | 'gosub') label ';' | 'return' ';' | 'break' ';' | 'continue' ';'
               | external text ';'
               | expression ';'

Statements are compiled one after the other into a flat program. A loop claims the `break` and
`continue` instructions of its body. Compiling stops at the first error, and what was declared until
then stays declared. Statements contain statements; `statementAt n` reads them nested up to `n`
deep, which is enough when the source is no longer than that.
-/

set_option autoImplicit false

namespace HostScript

open HostScript.Text

/-- An error with the place where compiling stopped. -/
structure CompileError where
  error : ScriptError
  pos : SourcePos
deriving Repr, DecidableEq

/-- Lines are shown counted from one. -/
def CompileError.message (e : CompileError) : String :=
  e.error.message ++ " at line " ++ toString (e.pos.line + 1)

/-- Why compiling stopped. -/
inductive Stop where
  | error (e : ScriptError)
  /-- An external keyword with nothing after it: its text would start beyond the source. -/
  | beyondSource
deriving Repr, DecidableEq

/-- The state of compiling. -/
structure Compilation (δ : Type) where
  cursor : Cursor
  program : Program
  declared : δ

/-- A step of compiling. -/
abbrev Compile (δ α : Type) := ExceptT Stop (StateM (Compilation δ)) α

namespace Compiler

variable {ξ δ : Type} (decls : Declarations ξ δ) (statement : Compile δ Unit)

/-! ## Reading -/

def fail {α : Type} (kind : ErrorKind) (reason : String) : Compile δ α := throw (.error ⟨kind, reason⟩)

def getCursor : Compile δ Cursor := return (← get).cursor

def setCursor (c : Cursor) : Compile δ Unit := modify fun s => { s with cursor := c }

def moveCursor (f : Cursor → Cursor) : Compile δ Unit := modify fun s => { s with cursor := f s.cursor }

def skipWhite : Compile δ Unit := moveCursor Cursor.skipWhite

/-- The name at the cursor. -/
def name : Compile δ String := do
  skipWhite
  let c ← getCursor
  let n := c.nameLength
  if n = 0 then fail .expectedIdentifier (excerpt c.rest)
  setCursor (c.skip n)
  return c.textTo (c.skip n)

/-- Takes the given character. -/
def expect (wanted : Char) (kind : ErrorKind) : Compile δ Unit := do
  skipWhite
  if (← getCursor).peek != wanted then fail kind wanted.toString
  moveCursor (·.skip 1)

def expectDelimiter : Compile δ Unit := expect ';' .expectedDelimiter

/-- The expression up to the character that ends it, where the cursor stays. -/
def expression (ending : Char) : Compile δ String := do
  skipWhite
  let start ← getCursor
  let (stop, obstacle) := start.toExpressionEnd ending (start.rest.length + 1) 0 false
  setCursor stop
  match obstacle with
  | some e => throw (.error e)
  | none => return trimEnd (start.textTo stop)

/-- At most `n` segments of the text of an external statement, the last one up to the semicolon.
A segment that starts with a letter or digit runs to the semicolon, any other one to where its first
character stands again. -/
def segments : Nat → String → Compile δ String
  | 0, text => return text
  | n + 1, text => do
    let c ← getCursor
    if c.atEnd then
      setCursor c.advance
      throw .beyondSource
    let plain := c.peek.isAlphanum || c.peek == ';'
    let delimiter := if plain then ';' else c.peek
    let start := if plain then c else c.advance
    let stop := start.toDelimiter delimiter (start.rest.length + 1)
    setCursor (if !plain && stop.peek == delimiter then stop.skip 1 else stop)
    skipWhite
    let text := text ++ start.textTo stop
    let c ← getCursor
    if c.atEnd || c.peek == ';' then return text else segments n text

/-- The text of an external statement. -/
def externalText : Compile δ String := do
  skipWhite
  let text ← segments ((← getCursor).rest.length + 1) ""
  if (← getCursor).atEnd then fail .unexpectedEnd "end-of-script"
  moveCursor (·.skip 1)
  return trimEnd text

/-! ## Emitting -/

/-- The position of the next instruction. -/
def nextIp : Compile δ Nat := return (← get).program.size

/-- Adds an instruction and gives its position. Without a target it goes on to the next one. -/
def emit (opcode : Opcode) (target : Option Int) (text : String) (pos : SourcePos) : Compile δ Nat := do
  let ip ← nextIp
  modify fun s =>
    let i : Instruction := ⟨opcode, target.getD (ip + 1), text, pos⟩
    { s with program := { s.program with instructions := s.program.instructions ++ [i] } }
  return ip

/-- Changes the instructions from `start` on. -/
def patchFrom (start : Nat) (f : Instruction → Instruction) : Compile δ Unit :=
  modify fun s =>
    let code := s.program.instructions
    { s with program := { s.program with instructions := code.take start ++ (code.drop start).map f } }

/-- Sets the target of one instruction. -/
def setTarget (ip : Nat) (target : Nat) : Compile δ Unit :=
  modify fun s =>
    let code := s.program.instructions.modify ip fun i => { i with target := target }
    { s with program := { s.program with instructions := code } }

/-- What a loop from `start` to `stop` makes of an instruction in its body. -/
def claim (start stop : Nat) (i : Instruction) : Instruction :=
  match i.opcode with
  | .leave => { i with opcode := .jump, target := stop }
  | .again => { i with opcode := .jump, target := start }
  | _ => i

/-! ## Statements -/

/-- An expression statement that starts at `pos`. -/
def expressionStatement (pos : SourcePos) : Compile δ Unit := do
  let text ← expression ';'
  expectDelimiter
  let _ ← emit .calc none text pos

/-- A name that is taken cannot be declared. -/
def checkFree (name : String) : Compile δ Unit := do
  let s ← get
  let known := match decls.meaning s.declared name with
    | .unknown => false
    | _ => true
  if (s.program.labelIp? name).isSome || known then fail .multipleDeclaration name

def label : Compile δ Unit := do
  let name ← name
  checkFree decls name
  expectDelimiter
  modify fun s =>
    { s with program := { s.program with labels := s.program.labels ++ [⟨name, s.program.size⟩] } }

/-- A declaration after its type. The assignment of a first value is read again from the name on,
as an expression; the lines up to its sign are counted twice then. -/
def declaration (ty : ValueType) : Compile δ Unit := do
  skipWhite
  let start ← getCursor
  let name ← name
  checkFree decls name
  modify fun s => { s with declared := decls.declare name ty s.declared }
  skipWhite
  if (← getCursor).peek == '=' then
    moveCursor fun c => { start with line := c.line }
    expressionStatement start.pos
  else expectDelimiter

/-- The condition of an `if` or `while`, and the test compiled for it. -/
def condition (pos : SourcePos) : Compile δ Nat := do
  expect '(' .expectedLeftParenthesis
  let text ← expression ')'
  moveCursor (·.skip 1)
  emit .jumpIfZero none text pos

/-- Whether an `else` follows, which is taken then. -/
def elseFollows : Compile δ Bool := do
  skipWhite
  let c ← getCursor
  let n := c.nameLength
  if n = 0 then return false
  match decls.meaning (← get).declared (c.textTo (c.skip n)) with
  | .keyword .else_ =>
    setCursor (c.skip n)
    return true
  | _ => return false

def ifStatement (pos : SourcePos) : Compile δ Unit := do
  let test ← condition pos
  statement
  setTarget test (← nextIp)
  let skip ← emit .jump none "" (← getCursor).pos
  if ← elseFollows decls then
    statement
    setTarget test (skip + 1)
    setTarget skip (← nextIp)

def whileStatement (pos : SourcePos) : Compile δ Unit := do
  let test ← condition pos
  statement
  let _ ← emit .jump (some test) "" (← getCursor).pos
  let stop ← nextIp
  setTarget test stop
  patchFrom (test + 1) (claim test stop)

def keyword (k : Keyword) (pos : SourcePos) : Compile δ Unit := do
  match k with
  | .if_ => ifStatement decls statement pos
  | .while_ => whileStatement statement pos
  | .break_ | .continue_ =>
    expectDelimiter
    let _ ← emit (if k = .break_ then .leave else .again) (some (-1)) "" pos
  | .goto | .gosub =>
    let target ← name
    expectDelimiter
    let _ ← emit (if k = .goto then .goto else .call) (some (-1)) target pos
  | .return_ =>
    expectDelimiter
    let _ ← emit .ret none "" pos
  | .else_ | .external => fail .unexpectedKeyword k.name

/-- A statement that is handled elsewhere. -/
def externalStatement (x : ξ) : Compile δ Unit := do
  let text ← externalText
  let s ← get
  let (declared, accepted) := decls.external x text s.declared
  set { s with declared := declared }
  if !accepted then fail .externalKeyword text

/-- At most `n` statements up to a closing brace. -/
def block : Nat → Compile δ Unit
  | 0 => fail .unexpectedEnd "end-of-script"
  | n + 1 => do
    skipWhite
    let c ← getCursor
    if c.atEnd then fail .unexpectedEnd "end-of-script"
    if c.peek == '\x7d' then setCursor (c.skip 1)
    else
      statement
      block n

/-- A statement, given how to compile the statements inside of it. -/
def statementWith : Compile δ Unit := do
  skipWhite
  let c ← getCursor
  if c.atEnd then return
  if c.peek == ';' then setCursor (c.skip 1)
  else if c.peek == '\x7b' then
    setCursor (c.skip 1)
    block statement (c.rest.length + 1)
  else if c.peek == ':' then
    setCursor (c.skip 1)
    label decls
  else if isNameStart c.peek then
    let first ← name
    match decls.meaning (← get).declared first with
    | .unknown => fail .unknownIdentifier first
    | .keyword k => keyword decls statement k c.pos
    | .external x => externalStatement decls x
    | .reserved => fail .unexpectedKeyword first
    | .typedef ty => declaration decls ty
    | .expression =>
      setCursor c
      expressionStatement c.pos
  else fail .unexpectedCharacter c.peek.toString

/-- Statements nested up to `n` deep. -/
def statementAt : Nat → Compile δ Unit
  | 0 => fail .compilerImplementationError ""
  | n + 1 => statementWith decls (statementAt n)

/-- At most `n` statements up to the end. -/
def statements : Nat → Compile δ Unit
  | 0 => return
  | n + 1 => do
    statement
    skipWhite
    if (← getCursor).atEnd then return
    statements n

/-- What compiling ends in. -/
inductive Outcome where
  | compiled (p : Program)
  | rejected (e : CompileError)
  /-- See `Stop.beyondSource`. -/
  | beyondSource
deriving Repr

/-- Compiles a source into a program that is not linked yet, and gives what was declared. -/
def compile (source : String) (declared : δ) : Outcome × δ :=
  let start : Cursor := .ofSource source
  let depth := start.rest.length + 1
  let (result, s) := (statements (statementAt decls depth) depth).run ⟨start, .empty, declared⟩
  match result with
  | .ok () => (.compiled s.program, s.declared)
  | .error (.error e) => (.rejected ⟨e, s.cursor.pos⟩, s.declared)
  | .error .beyondSource => (.beyondSource, s.declared)

end Compiler

end HostScript
