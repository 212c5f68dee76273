import HostScript.Expression.Scope
import HostScript.Expression.Token
/-!
# Evaluating expressions

An expression is a sum of terms, each but the first starting with a sign. A term is an operand
and any number of operators, and the right side of an operator is a sum of terms again:

    expression := term { term }
    term       := operand { operator sum }
    sum        := term { term that starts with a sign }
    operand    := { sign } atom
    atom       := '(' { term } ')' | number [ operator sum ] | chain | text
    chain      := name [ '(' arguments ')' ] { '.' name [ '(' arguments ')' ] }

There is no precedence: the right side of an operator takes everything up to the end of the group,
so that `2*3+4` is `2*(3+4)`. Adding keeps the type of what is there already.

Terms contain terms. `termAt n` reads terms nested up to `n` deep, and since every level takes at
least one character, a text is never nested deeper than it is long.
-/

set_option autoImplicit false

namespace HostScript

open HostScript.Text HostScript.Token

/-- An engine, and how a function of its scope evaluates a text itself. -/
structure Evaluator (κ ι σ : Type) extends Engine κ ι σ where
  nested : Evaluation σ

/-- Reads a term and evaluates it. -/
abbrev TermReader (σ : Type) := List Char → Eval σ (Value × List Char)

/-- An operand that was read, and the identifier it is the value of. -/
structure Atom (ι : Type) where
  operand : Operand
  target : Option (Identifier (Symbol ι))
  rest : List Char

/-- What one link of a chain gives. -/
inductive Link (ι : Type) where
  /-- The chain ends here. -/
  | last (atom : Atom ι)
  /-- A member of the holder follows. A handle that a function returned is temporary. -/
  | dot (holder : Value) (temporary : Option Handle) (rest : List Char)

namespace Evaluator

variable {κ ι σ : Type} (ev : Evaluator κ ι σ) (term : TermReader σ)

/-! ## The session -/

def liftExcept {α : Type} (r : Except ScriptError α) : Eval σ α :=
  match r with
  | .ok a => return a
  | .error e => throw e

def getState : Eval σ σ := return (← get).state

def getCells : Eval σ Cells := return ev.scope.cells (← get).state

/-- Stores changed cells and gives the operand that was changed with them. -/
def putCells (changed : Cells × Operand) : Eval σ Operand := do
  modify fun s => { s with state := ev.scope.setCells changed.1 s.state }
  return changed.2

/-- The value an operand stands for now. -/
def valueOf (a : Operand) : Eval σ Value := return (← ev.getCells).resolve a

def accessTo (i : Identifier (Symbol ι)) (a : Access) : Eval σ Operand :=
  ev.toEngine.access ev.nested i a

/-! ## Operators -/

/-- Makes both operands floats if one of them is and the operator asks for it. -/
def promote (op : Written) (a : Operand) (b : Value) : Eval σ (Operand × Value) := do
  if op.promotes && ((← ev.valueOf a).type == .float || b.type == .float) then
    let a ← ev.putCells ((← ev.getCells).setType a .float)
    return (a, (b.convert .float).1)
  else return (a, b)

/-- Applies an operator. The right operand has been evaluated, and `rest` follows it. Products and
quotients are assigned to the left operand, so that it keeps its type; assigning to an identifier
writes it first. -/
def operate (op : Written) (target : Option (Identifier (Symbol ι))) (a : Operand) (b : Value)
    (rest : List Char) : Eval σ Operand := do
  let (a, b) ← ev.promote op a b
  let x ← ev.valueOf a
  match op.operator with
  | .relation r => return .value (.ofBool (r.holds (x.compare b)))
  | .logical c => return .value (.ofBool (c.onBool (!x.isZero) (!b.isZero)))
  | .bitwise c => return .value (.int (c.onInt x.toInt b.toInt))
  | .mul => ev.putCells ((← ev.getCells).assign a (.value (x.mul b)))
  | .div =>
    if b.equals (.float 0.0) then throw ⟨.divisionByZero, excerptOfChars rest⟩
    ev.putCells ((← ev.getCells).assign a (.value (x.div b)))
  | .mod =>
    if b.equals (.float 0.0) then throw ⟨.divisionByZero, excerptOfChars rest⟩
    ev.putCells ((← ev.getCells).assign a (.value (x.mod b)))
  | .assign =>
    match target with
    | none => throw ⟨.notLValue, excerptOfChars rest⟩
    | some i =>
      let _ ← ev.accessTo i (.write b)
      ev.putCells ((← ev.getCells).assign a (.value b))
  | .stray c => throw ⟨.unexpectedCharacter, c.toString⟩

/-- At most `n` terms added up, as long as they start with a sign. -/
def sum : Nat → Value → TermReader σ
  | 0, acc, cs => return (acc, cs)
  | n + 1, acc, cs => do
    let (v, rest) ← term cs
    let acc := acc.addAssign v
    if startsSigned rest then sum n acc rest else return (acc, rest)

/-- The operator at the front applied to an operand; nothing if there is no operator. -/
def operator? (target : Option (Identifier (Symbol ι))) (a : Operand) (cs : List Char) :
    Eval σ (Option (Operand × List Char)) := do
  match readOperator? cs with
  | none => return none
  | some (op, rest) =>
    let (b, rest) ← sum term (rest.length + 1) .undefined rest
    let a ← ev.operate op target a b rest
    return some (a, rest)

/-- At most `n` operators, the first of which may assign to the target. -/
def operators : Nat → Option (Identifier (Symbol ι)) → Operand → List Char →
    Eval σ (Operand × List Char)
  | 0, _, a, cs => return (a, cs)
  | n + 1, target, a, cs => do
    match ← ev.operator? term target a cs with
    | none => return (a, cs)
    | some (a, rest) => operators n none a rest

/-! ## Arguments -/

/-- At most `n` terms added up, until the argument ends. -/
def argument : Nat → Value → TermReader σ
  | 0, acc, cs => return (acc, cs)
  | n + 1, acc, cs => do
    let (v, rest) ← term cs
    let acc := acc.addAssign v
    match rest with
    | [] => throw ⟨.unexpectedEnd, "end-of-script"⟩
    | c :: _ => if c == ')' || c == ',' then return (acc, rest) else argument n acc rest

/-- At most `n` arguments, up to the closing parenthesis. -/
def arguments : Nat → List Char → Eval σ (List Value × List Char)
  | 0, cs => return ([], cs)
  | n + 1, cs => do
    let (v, rest) ← argument term (cs.length + 1) .undefined cs
    match rest with
    | [] => return ([v], [])
    | c :: rest =>
      if c == ')' then return ([v], rest)
      else
        let (vs, rest) ← arguments n rest
        return (v :: vs, rest)

/-- The arguments after an opening parenthesis. -/
def argumentList (cs : List Char) : Eval σ (List Value × List Char) :=
  match skipWhite cs with
  | ')' :: rest => return ([], rest)
  | cs => arguments term (cs.length + 1) cs

/-! ## Chains -/

/-- Reads a variable or constant, either for its value or for a member of the object it holds. -/
def readVariable (i : Identifier (Symbol ι)) (cs : List Char) : Eval σ (Link ι) := do
  match cs with
  | [] => return .last ⟨← ev.accessTo i .read, some i, []⟩
  | c :: rest =>
    if endsName c then return .last ⟨← ev.accessTo i .read, some i, skipWhite cs⟩
    else if c == '.' then
      let holder ← ev.accessTo i .read
      return .dot (← ev.valueOf holder) none (skipWhite rest)
    else throw ⟨.unexpectedCharacter, (leadByte c).toString⟩

/-- Calls a function; its result may be an object a member of which follows at once. -/
def callFunction (i : Identifier (Symbol ι)) (cs : List Char) : Eval σ (Link ι) := do
  match cs with
  | '(' :: rest =>
    let (args, rest) ← argumentList term rest
    match checkParams i.params args.length with
    | .error kind => throw ⟨kind, i.name⟩
    | .ok () =>
      let result ← ev.accessTo i (.call args)
      match rest with
      | '.' :: rest =>
        let holder ← ev.valueOf result
        return .dot holder (Handle.ofValue? holder) (skipWhite rest)
      | _ => return .last ⟨result, none, skipWhite rest⟩
  | _ => throw ⟨.expectedFunction, i.name⟩

def link (i : Identifier (Symbol ι)) (cs : List Char) : Eval σ (Link ι) :=
  match i.kind with
  | .constant | .variable => ev.readVariable i cs
  | .function => ev.callFunction term i cs
  | .typedef | .keyword => throw ⟨.unexpectedIdentifier, i.name⟩

/-- Looks up the member named at the front in the object that a value is the handle of. -/
def member (holder : Value) (owner : String) (cs : List Char) :
    Eval σ (Identifier (Symbol ι) × List Char) := do
  match Handle.ofValue? holder with
  | none => throw ⟨.notObject, owner⟩
  | some h =>
    if !ev.scope.isObject (← getState) h then throw ⟨.notObject, owner⟩
    let (name, rest) ← liftExcept (readName cs)
    match ev.scope.member? (← getState) h name with
    | none => throw ⟨.unknownObjectMember, name⟩
    | some i => return (i.map .scoped, rest)

/-- Follows a chain over at most `n` links, and tells which temporary object it came by last,
whether it succeeds or not. -/
def chain : Nat → Option Handle → Identifier (Symbol ι) → List Char →
    Action σ (Option Handle × Except ScriptError (Atom ι))
  | 0, temporary, i, _ => return (temporary, .error ⟨.compilerImplementationError, i.name⟩)
  | n + 1, temporary, i, cs => do
    match ← (ev.link term i cs).run with
    | .error e => return (temporary, .error e)
    | .ok (.last atom) => return (temporary, .ok atom)
    | .ok (.dot holder made rest) =>
      let temporary := made <|> temporary
      match ← (ev.member holder i.name rest).run with
      | .error e => return (temporary, .error e)
      | .ok (i, rest) => chain n temporary i rest

/-- The chain that starts with the name at the front. The object that was made for it last is
released at its end. -/
def identifier (cs : List Char) : Eval σ (Atom ι) := do
  let (name, rest) ← liftExcept (readName cs)
  match ev.toEngine.find? (← getState) name with
  | none => throw ⟨.unknownSymbol, name⟩
  | some i =>
    let (temporary, outcome) ← (ev.chain term (rest.length + 1) none i rest : StateM (Session σ) _)
    match temporary with
    | some h => modify fun s => { s with state := ev.scope.release h s.state }
    | none => pure ()
    liftExcept outcome

/-! ## Terms -/

/-- A text that ends inside of a group lacks the parenthesis. -/
def unclosed (e : ScriptError) : ScriptError :=
  if e.kind = .unexpectedEnd then ⟨.expectedRightParenthesis, e.reason⟩ else e

/-- At most `n` terms added up, until the closing parenthesis. -/
def group : Nat → Value → TermReader σ
  | 0, acc, cs => return (acc, cs)
  | n + 1, acc, cs =>
    match cs with
    | ')' :: rest => return (acc, skipWhite rest)
    | cs => do
      let (v, rest) ← tryCatch (term cs) fun e => throw (unclosed e)
      group n (acc.addAssign v) rest

/-- An operand without its signs. A number takes the operator that follows it. -/
def atom (cs : List Char) : Eval σ (Atom ι) := do
  match cs with
  | [] => throw ⟨.unexpectedEnd, "end-of-script"⟩
  | c :: rest =>
    if c == '(' then
      let (v, rest) ← group term (cs.length + 1) .undefined rest
      return ⟨.value v, none, rest⟩
    else if c.isDigit then
      let (v, rest) := readNumber cs
      match ← ev.operator? term none (.value v) rest with
      | none => return ⟨.value v, none, rest⟩
      | some (a, rest) => return ⟨a, none, rest⟩
    else if isNameStart c then ev.identifier term cs
    else if c == '"' then
      let (v, rest) ← liftExcept (readText cs)
      return ⟨.value v, none, rest⟩
    else throw ⟨.unexpectedCharacter, (leadByte c).toString⟩

/-- What a sign makes of an operand. -/
def applySign (sign : Sign) (v : Value) : Value :=
  match sign with
  | .not => .ofBool v.isZero
  | .plus => v.mul (.float 1.0)
  | .minus => v.mul (.float (-1.0))

/-- An operand with its signs; with signs it is a value and nothing that can be assigned to. -/
def operand (cs : List Char) : Eval σ (Atom ι) := do
  let (signs, rest) := readSigns cs
  let a ← ev.atom term rest
  match signs with
  | [] => return a
  | signs =>
    let v ← ev.valueOf a.operand
    return ⟨.value (signs.foldr applySign v), none, a.rest⟩

/-- A term, given how to read the terms inside of it. -/
def termWith : TermReader σ := fun cs => do
  let a ← ev.operand term cs
  let (result, rest) ← ev.operators term (a.rest.length + 1) a.target a.operand a.rest
  return (← ev.valueOf result, rest)

/-- Terms nested up to `n` deep. -/
def termAt : Nat → TermReader σ
  | 0 => fun _ => throw ⟨.compilerImplementationError, ""⟩
  | n + 1 => ev.termWith (termAt n)

/-! ## Expressions -/

/-- At most `n` terms added up, until the text ends. -/
def terms : Nat → Value → List Char → Eval σ Value
  | 0, acc, _ => return acc
  | n + 1, acc, cs => do
    match skipWhite cs with
    | [] => return acc
    | cs =>
      let (v, rest) ← term cs
      match rest with
      | [] => return acc.addAssign v
      | c :: _ =>
        if isDelimiter c then terms n (acc.addAssign v) rest
        else throw ⟨.expectedDelimiter, excerptOfChars rest⟩

/-- The value of an expression. -/
def expression (cs : List Char) : Eval σ Value :=
  terms (ev.termAt (cs.length + 1)) (cs.length + 1) .undefined cs

end Evaluator

namespace Engine

variable {κ ι σ : Type} (engine : Engine κ ι σ)

/-- Evaluates a text whose functions may evaluate texts themselves, up to `depth` deep. The error
is cleared first, and a failure reports its own. -/
def calculate : Nat → Evaluation σ
  | 0 => fun _ => do
    modify fun s => { s with errors := s.errors.report ⟨.compilerImplementationError, ""⟩ }
    return none
  | depth + 1 => fun text => do
    modify fun s => { s with errors := .clear }
    let ev : Evaluator κ ι σ := { engine with nested := calculate depth }
    match ← (ev.expression text.toList).run with
    | .ok v => return some v
    | .error e =>
      modify fun s => { s with errors := s.errors.report e }
      return none

end Engine

end HostScript
