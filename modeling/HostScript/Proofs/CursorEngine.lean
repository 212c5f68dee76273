import HostScript.Expression.Evaluate
/-!
# An engine with a cursor

The readers of expressions give the text that is left. An engine at work has the text and a cursor in it
instead, next to the place for errors and the state of the scope. Here the same expressions are evaluated with
a cursor. Loops go around until their tests stop them, routines call each other as deep as the text has them to,
and functions of the scope find the engine as it is in the middle of an evaluation. Only the number of steps
that is given bounds all of this: without enough of them there is no result.
-/

set_option autoImplicit false

namespace HostScript

open HostScript.Text HostScript.Token HostScript.Number

/-- An engine at work. -/
structure Desk (σ : Type) where
  text : List Char
  pos : Nat
  errors : ErrorState
  state : σ

/-- What an engine does, if there are enough steps. -/
abbrev Steps (σ α : Type) := StateT (Desk σ) Option α

/-- What an engine does that may fail. -/
abbrev Routine (σ α : Type) := ExceptT ScriptError (Steps σ) α

namespace Desk

variable {σ : Type}

def rest (d : Desk σ) : List Char := d.text.drop d.pos

/-- The character at the cursor, NUL at the end. -/
def peek (d : Desk σ) : Char := (d.text[d.pos]?).getD '\x00'

def atEnd (d : Desk σ) : Bool := decide (d.text.length ≤ d.pos)

/-- What stands between a place and the cursor. -/
def since (start : Nat) (d : Desk σ) : List Char := (d.text.drop start).take (d.pos - start)

/-- The text at the cursor, cut as in the reasons of errors. -/
def location (d : Desk σ) : String := excerptOfChars d.rest

end Desk

/-! ## Tokens -/

namespace Routine

variable {σ α : Type}

/-- Does something to the state of the scope and the place for errors. -/
def ofAction (m : Action σ α) : Steps σ α := fun d =>
  let (a, s) := m ⟨d.state, d.errors⟩
  some (a, { d with state := s.state, errors := s.errors })

def ofEval (m : Eval σ α) : Routine σ α := ExceptT.mk (ofAction m.run)

/-- Looks at the desk. -/
def look (f : Desk σ → α) : Routine σ α := return f (← get)

/-- There are no steps left. -/
def stuck : Routine σ α := ExceptT.mk fun _ => none

def skip (n : Nat) : Routine σ Unit := modify fun d => { d with pos := d.pos + n }

def eatWhite : Nat → Routine σ Unit
  | 0 => stuck
  | n + 1 => do
    if isWhite (← look Desk.peek) then
      skip 1
      eatWhite n

/-- Moves over the characters of a name that starts at a place. -/
def toNameEnd (start : Nat) : Nat → Routine σ Unit
  | 0 => stuck
  | n + 1 => do
    if isNameChar (← look Desk.peek) then
      skip 1
      let word ← look (Desk.since start)
      if maxNameLength < word.length then throw ⟨.maxIdentifierLength, String.ofList word⟩
      toNameEnd start n

def name (n : Nat) : Routine σ String := do
  let start ← look Desk.pos
  toNameEnd start n
  let word ← look (Desk.since start)
  if word.isEmpty then throw ⟨.expectedIdentifier, ← look Desk.location⟩
  eatWhite n
  return String.ofList word

def number : Routine σ Value := do
  let cs ← look Desk.rest
  let int := readInteger cs
  let float := readFloat cs
  if int.used < float.used then
    skip float.used
    return .float float.value
  else
    skip (max int.used 1)
    return .int int.value

/-- Moves to the closing quote, over whatever stands behind a backslash. -/
def toQuote : Nat → Routine σ Unit
  | 0 => stuck
  | n + 1 => do
    let c ← look Desk.peek
    if !(← look Desk.atEnd) && c != '"' then
      if c == '\\' then skip 1
      skip 1
      toQuote n

/-- The quoted segments at the cursor, behind others. -/
def segments : Nat → List Char → Routine σ (List Char)
  | 0, _ => stuck
  | n + 1, text => do
    if (← look Desk.peek) == '"' then
      skip 1
      let start ← look Desk.pos
      toQuote n
      if ← look Desk.atEnd then throw ⟨.unexpectedEnd, "end-of-string"⟩
      let segment ← look (Desk.since start)
      skip 1
      eatWhite n
      segments n (text ++ segment)
    else return text

def stringLiteral (n : Nat) : Routine σ Value := do
  let text := String.ofList (← segments n [])
  if maxLiteralSize < text.utf8ByteSize then throw ⟨.stringTooLong, fit maxLiteralSize text⟩
  return .ofString (unescape text)

end Routine

open Routine

/-! ## Terms -/

/-- An engine, and what the functions of its scope do with some steps while it is at work. -/
structure CursorEngine (κ ι σ : Type) extends Engine κ ι σ where
  access : Nat → ι → Access → Steps σ (Answer Operand)

/-- What a part of a chain gives. -/
inductive Hop (ι : Type) where
  /-- The chain ends here, with an operand and the identifier that it is the value of. -/
  | last (a : Operand) (target : Option (Identifier (Symbol ι)))
  /-- A member of the holder follows. -/
  | dot (holder : Value) (temporary : Option Handle)

namespace CursorEngine

variable {κ ι σ : Type} (en : CursorEngine κ ι σ)

/-- The engine, for what it does to the state without accessing the scope. -/
def quiet : Evaluator κ ι σ := { en.toEngine with nested := fun _ => pure none }

def valueOf (a : Operand) : Routine σ Value := ofEval (en.quiet.valueOf a)

/-- Hands an access to the layer that knows the identifier. -/
def dispatch (n : Nat) (symbol : Symbol ι) (a : Access) : Steps σ (Answer Operand) :=
  match symbol with
  | .scoped i => en.access n i a
  | symbol => ofAction (en.toEngine.dispatch (fun _ => pure none) symbol a)

def accessTo (n : Nat) (i : Identifier (Symbol ι)) (a : Access) : Routine σ Operand := do
  match ← (en.dispatch n i.id a : Steps σ (Answer Operand)) with
  | .ok (some operand) => return operand
  | .ok .none => throw ⟨.compilerImplementationError, i.name⟩
  | .error kind => throw ⟨if i.kind = .function then .functionError else kind, i.name⟩

/-- Applies an operator to operands that were read. -/
def operate (n : Nat) (op : Written) (target : Option (Identifier (Symbol ι))) (a : Operand) (b : Value) :
    Routine σ Operand := do
  let rest ← look Desk.rest
  match target with
  | none => ofEval (en.quiet.operate op none a b rest)
  | some i =>
    if op.operator = .assign then
      let (a, b) ← ofEval (en.quiet.promote op a b)
      let _ ← en.accessTo n i (.write b)
      ofEval (do en.quiet.putCells ((← en.quiet.getCells).assign a (.value b)))
    else ofEval (en.quiet.operate op target a b rest)

/-- Looks up the member named at the cursor in the object that a value is the handle of. -/
def member (n : Nat) (holder : Value) (owner : String) : Routine σ (Identifier (Symbol ι)) := do
  match Handle.ofValue? holder with
  | none => throw ⟨.notObject, owner⟩
  | some h =>
    if !en.scope.isObject (← look Desk.state) h then throw ⟨.notObject, owner⟩
    let name ← name n
    match en.scope.member? (← look Desk.state) h name with
    | none => throw ⟨.unknownObjectMember, name⟩
    | some i => return i.map .scoped

def readVariable (n : Nat) (i : Identifier (Symbol ι)) : Routine σ (Hop ι) := do
  let c ← look Desk.peek
  if c == '\x00' || endsName c then
    let a ← en.accessTo n i .read
    eatWhite n
    return .last a (some i)
  else if c == '.' then
    skip 1
    eatWhite n
    let holder ← en.accessTo n i .read
    return .dot (← en.valueOf holder) none
  else throw ⟨.unexpectedCharacter, (leadByte c).toString⟩

/-- Releases the object that a chain came by last. -/
def release (temporary : Option Handle) : Steps σ Unit :=
  match temporary with
  | some h => modify fun d => { d with state := en.scope.release h d.state }
  | none => pure ()

mutual

/-- A term: an operand and the operators behind it. -/
def term : Nat → Routine σ Value
  | 0 => stuck
  | n + 1 => do
    let (a, target) ← arith n
    let a ← operators n target a
    en.valueOf a

def operators : Nat → Option (Identifier (Symbol ι)) → Operand → Routine σ Operand
  | 0, _, _ => stuck
  | n + 1, target, a => do
    match ← operator? n target a with
    | none => return a
    | some a => operators n none a

/-- The operator at the cursor, applied to an operand; nothing if there is no operator. -/
def operator? : Nat → Option (Identifier (Symbol ι)) → Operand → Routine σ (Option Operand)
  | 0, _, _ => stuck
  | n + 1, target, a => do
    let first ← look Desk.peek
    if first == '\x00' || !startsOperator first then return none
    else
      skip 1
      let second ← look Desk.peek
      if second != '\x00' && extendsOperator second then
        skip 1
        let b ← sum n .undefined
        return some (← en.operate n ⟨first, some second⟩ target a b)
      else
        let b ← sum n .undefined
        return some (← en.operate n ⟨first, none⟩ target a b)

/-- Terms added up, as long as they start with a sign. -/
def sum : Nat → Value → Routine σ Value
  | 0, _ => stuck
  | n + 1, acc => do
    let acc := acc.addAssign (← term n)
    let c ← look Desk.peek
    if c == '+' || c == '-' then sum n acc else return acc

/-- An operand with its signs, and the identifier that it is the value of. -/
def arith : Nat → Routine σ (Operand × Option (Identifier (Symbol ι)))
  | 0 => stuck
  | n + 1 => do
    eatWhite n
    let c ← look Desk.peek
    if c == '\x00' && (← look Desk.atEnd) then throw ⟨.unexpectedEnd, "end-of-script"⟩
    else
      match signOf? c with
      | some sign =>
        skip 1
        let (a, _) ← arith n
        return (.value (Evaluator.applySign sign (← en.valueOf a)), none)
      | none => atom n c

/-- An operand without signs, at which stands the given character. -/
def atom : Nat → Char → Routine σ (Operand × Option (Identifier (Symbol ι)))
  | 0, _ => stuck
  | n + 1, c => do
    if c == '(' then
      skip 1
      let v ← group n .undefined
      skip 1
      eatWhite n
      return (.value v, none)
    else if c.isDigit then
      let v ← number
      eatWhite n
      match ← operator? n none (.value v) with
      | none => return (.value v, none)
      | some a => return (a, none)
    else if isNameStart c then identifier n
    else if c == '"' then return (.value (← stringLiteral n), none)
    else throw ⟨.unexpectedCharacter, (leadByte c).toString⟩

/-- Terms added up, until the closing parenthesis. A text that ends before it lacks the parenthesis. -/
def group : Nat → Value → Routine σ Value
  | 0, _ => stuck
  | n + 1, acc => do
    if (← look Desk.peek) == ')' then return acc
    else
      let v ← tryCatch (term n) fun e => throw (Evaluator.unclosed e)
      group n (acc.addAssign v)

/-- Terms added up, until the argument ends. -/
def argument : Nat → Value → Routine σ Value
  | 0, _ => stuck
  | n + 1, acc => do
    let acc := acc.addAssign (← term n)
    let c ← look Desk.peek
    if c == ')' || c == ',' then return acc
    else if ← look Desk.atEnd then throw ⟨.unexpectedEnd, "end-of-script"⟩
    else argument n acc

/-- The arguments up to the closing parenthesis, behind others, of which there is one at least. -/
def arguments : Nat → List Value → Routine σ (List Value)
  | 0, _ => stuck
  | n + 1, values => do
    let values := values ++ [← argument n .undefined]
    let c ← look Desk.peek
    skip 1
    if c == ')' then return values else arguments n values

/-- The arguments after an opening parenthesis. -/
def argumentList : Nat → Routine σ (List Value)
  | 0 => stuck
  | n + 1 => do
    eatWhite n
    if (← look Desk.peek) == ')' then
      skip 1
      return []
    else arguments n []

def callFunction : Nat → Identifier (Symbol ι) → Routine σ (Hop ι)
  | 0, _ => stuck
  | n + 1, i => do
    if (← look Desk.peek) != '(' then throw ⟨.expectedFunction, i.name⟩
    else
      skip 1
      let args ← argumentList n
      match checkParams i.params args.length with
      | .error kind => throw ⟨kind, i.name⟩
      | .ok () =>
        let result ← en.accessTo n i (.call args)
        if (← look Desk.peek) == '.' then
          skip 1
          eatWhite n
          let holder ← en.valueOf result
          return .dot holder (Handle.ofValue? holder)
        else
          eatWhite n
          return .last result none

def hop : Nat → Identifier (Symbol ι) → Routine σ (Hop ι)
  | 0, _ => stuck
  | n + 1, i =>
    match i.kind with
    | .constant | .variable => en.readVariable n i
    | .function => callFunction n i
    | .typedef | .keyword => throw ⟨.unexpectedIdentifier, i.name⟩

/-- Follows a chain, and tells which temporary object it came by last, whether it succeeds or not. -/
def chain : Nat → Option Handle → Identifier (Symbol ι) →
    Steps σ (Option Handle × Except ScriptError (Operand × Option (Identifier (Symbol ι))))
  | 0, _, _ => fun _ => none
  | n + 1, temporary, i => do
    match ← (hop n i).run with
    | .error e => return (temporary, .error e)
    | .ok (.last a target) => return (temporary, .ok (a, target))
    | .ok (.dot holder made) =>
      let temporary := made <|> temporary
      match ← (en.member n holder i.name).run with
      | .error e => return (temporary, .error e)
      | .ok i => chain n temporary i

/-- The chain that starts with the name at the cursor. -/
def identifier : Nat → Routine σ (Operand × Option (Identifier (Symbol ι)))
  | 0 => stuck
  | n + 1 => do
    let name ← name n
    match en.toEngine.find? (← look Desk.state) name with
    | none => throw ⟨.unknownSymbol, name⟩
    | some i =>
      let (temporary, outcome) ← (chain n none i : StateT (Desk σ) Option _)
      en.release temporary
      liftExcept outcome

end

/-! ## Expressions -/

/-- Terms added up, until the text ends. -/
def run : Nat → Value → Routine σ Value
  | 0, _ => stuck
  | n + 1, acc => do
    eatWhite n
    if ← look Desk.atEnd then return acc
    else
      let acc := acc.addAssign (← en.term n)
      if !(← look Desk.atEnd) && !isDelimiter (← look Desk.peek) then
        throw ⟨.expectedDelimiter, ← look Desk.location⟩
      else run n acc

/-- Evaluates a text into a place. The text and the cursor of an evaluation that is under way are put back, and
what fails leaves the place alone and is reported. -/
def calculate (n : Nat) (text : String) (result : Value) : Steps σ (Bool × Value) := do
  let before ← get
  set { before with text := text.toList, pos := 0, errors := .clear }
  let outcome ← (en.run n .undefined).run
  modify fun d => { d with text := before.text, pos := before.pos }
  match outcome with
  | .ok v => return (true, v)
  | .error e =>
    modify fun d => { d with errors := d.errors.report e }
    return (false, result)

end CursorEngine

end HostScript
