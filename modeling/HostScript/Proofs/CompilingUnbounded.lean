import HostScript.Proofs.CompiledCode
import HostScript.Proofs.EnoughSteps
/-!
# Compiling without bounds

The compiler goes around its loops as often as the source is long, and no deeper into statements than that. Here
only the steps bound it: a loop goes around until its test stops it, and a statement compiles the statements inside
of it by itself. With enough steps it comes to an end on every source, with what the compiler gives.
-/

set_option autoImplicit false

namespace HostScript

open HostScript.Text

/-! ## Moving a cursor -/

namespace Cursor

def toLineEnd : Nat → Cursor → Option Cursor
  | 0, _ => none
  | n + 1, c => if c.atEnd || c.peek == '\n' then some c else toLineEnd n c.advance

/-- Moves behind what closes a block comment, or to the end. -/
def toCommentEnd : Nat → Cursor → Option Cursor
  | 0, _ => none
  | n + 1, c =>
    if c.atEnd then some c
    else if c.peek == '*' && c.peekAt 1 == '/' then some (c.skip 2)
    else toCommentEnd n c.advance

/-- Moves over white space and comments. -/
def toSolid : Nat → Cursor → Option Cursor
  | 0, _ => none
  | n + 1, c =>
    if isWhite c.peek then toSolid n c.advance
    else if c.peek == '/' && c.peekAt 1 == '/' then (toLineEnd n c).bind (toSolid n)
    else if c.peek == '/' && c.peekAt 1 == '*' then (toCommentEnd n (c.skip 2)).bind (toSolid n)
    else some c

/-- Moves to the character that ends an expression outside of quotes and parentheses, or to what stands in the
way. -/
def toEnding (ending : Char) : Nat → Nat → Bool → Cursor → Option (Cursor × Option ScriptError)
  | 0, _, _, _ => none
  | n + 1, depth, quoted, c =>
    if c.atEnd then some (c, some ⟨.unexpectedEnd, "end-of-script"⟩)
    else
      let b := c.peek
      if quoted then
        if b == '\\' && c.peekAt 1 != '\x00' then toEnding ending n depth true (c.skip 1).advance
        else toEnding ending n depth (b != '"') c.advance
      else if b == '"' then toEnding ending n depth true c.advance
      else if b == '(' then toEnding ending n (depth + 1) false c.advance
      else if b == ')' then
        if depth = 0 then
          if ending == ')' then some (c, none) else some (c, some ⟨.unexpectedCharacter, ")"⟩)
        else toEnding ending n (depth - 1) false c.advance
      else if b == ';' && depth == 0 && ending == ';' then some (c, none)
      else toEnding ending n depth false c.advance

def toNext (delimiter : Char) : Nat → Cursor → Option Cursor
  | 0, _ => none
  | n + 1, c => if c.atEnd || c.peek == delimiter then some c else toNext delimiter n c.advance

variable {c d : Cursor}

theorem length_advance (h : c.atEnd = false) : c.advance.rest.length < c.rest.length :=
  (advance_before c).rest_lt h

/-- Beyond the end there is NUL. -/
theorem not_atEnd_of_peek (h : c.peek ≠ '\x00') : c.atEnd = false := by
  refine Bool.eq_false_iff.mpr fun hend => h ?_
  rw [peek, peekAt, List.isEmpty_iff.mp hend]
  rfl

theorem toNext_comes {delimiter : Char} {n : Nat} (hn : c.rest.length ≤ n) :
    Comes (fun k => toNext delimiter k c) (toDelimiter delimiter n c) := by
  induction n generalizing c with
  | zero =>
    have hend : c.atEnd = true := List.isEmpty_iff_length_eq_zero.mpr (Nat.le_zero.mp hn)
    refine .step ?_
    simp only [toNext, hend, Bool.true_or, if_true]
    exact .const c
  | succ n ih =>
    refine .step ?_
    simp only [toNext, toDelimiter]
    split
    · exact .const c
    · rename_i hgo
      have hend : c.atEnd = false := by simp_all
      exact ih (Nat.le_of_lt_succ (Nat.lt_of_lt_of_le (length_advance hend) hn))

theorem toLineEnd_eq_toNext (n : Nat) (c : Cursor) : toLineEnd n c = toNext '\n' n c := by
  induction n generalizing c with
  | zero => rfl
  | succ n ih => rw [toLineEnd, toNext, ih]

theorem toLineEnd_comes {n : Nat} (hn : c.rest.length ≤ n) : Comes (fun k => toLineEnd k c) (lineComment n c) := by
  simp only [toLineEnd_eq_toNext, lineComment_eq_toDelimiter]
  exact toNext_comes hn

theorem toCommentEnd_comes {n : Nat} (hn : c.rest.length ≤ n) :
    Comes (fun k => toCommentEnd k c) (blockComment n c) := by
  induction n generalizing c with
  | zero =>
    have hend : c.atEnd = true := List.isEmpty_iff_length_eq_zero.mpr (Nat.le_zero.mp hn)
    refine .step ?_
    simp only [toCommentEnd, hend, if_true]
    exact .const c
  | succ n ih =>
    refine .step ?_
    simp only [toCommentEnd, blockComment]
    split
    · exact .const c
    · rename_i hend
      split
      · exact .const _
      · exact ih (Nat.le_of_lt_succ (Nat.lt_of_lt_of_le (length_advance (Bool.eq_false_iff.mpr hend)) hn))

theorem toSolid_comes {n : Nat} (hn : c.rest.length < n) : Comes (fun k => toSolid k c) (skipWhiteWithin n c) := by
  induction n generalizing c with
  | zero => cases hn
  | succ n ih =>
    refine .step ?_
    simp only [toSolid, skipWhiteWithin]
    split
    · rename_i hwhite
      have hend : c.atEnd = false := not_atEnd_of_peek fun hnul => absurd (hnul ▸ hwhite) (by decide)
      exact ih (Nat.lt_of_lt_of_le (length_advance hend) (Nat.le_of_lt_succ hn))
    split
    · rename_i hslashes
      have hslash : c.peek = '/' := by simp_all
      have hend : c.atEnd = false := not_atEnd_of_peek (by rw [hslash]; decide)
      -- the slash is no line feed, so the comment takes it
      have hbehind : c.advance.Upto (lineComment c.rest.length c) := by
        obtain ⟨m, hm⟩ := Nat.exists_eq_succ_of_ne_zero (Nat.ne_zero_of_lt (length_advance hend))
        rw [hm, lineComment, if_neg (by rw [hend, hslash]; decide)]
        exact lineComment_upto m c.advance
      refine (toLineEnd_comes (Nat.le_refl _)).bind (ih ?_)
      exact Nat.lt_of_lt_of_le (Nat.lt_of_le_of_lt hbehind.rest_le (length_advance hend)) (Nat.le_of_lt_succ hn)
    split
    · rename_i hstar
      have hslash : c.peek = '/' := by simp_all
      have hend : c.atEnd = false := not_atEnd_of_peek (by rw [hslash]; decide)
      have hskip := (skip_before c (n := 2) (by decide)).rest_lt hend
      refine (toCommentEnd_comes (Nat.le_of_lt hskip)).bind (ih ?_)
      have hbehind := (blockComment_upto c.rest.length (c.skip 2)).rest_le
      exact Nat.lt_of_lt_of_le (Nat.lt_of_le_of_lt hbehind hskip) (Nat.le_of_lt_succ hn)
    · exact .const c

theorem toEnding_comes {ending : Char} {n depth : Nat} {quoted : Bool} (hn : c.rest.length < n) :
    Comes (fun k => toEnding ending k depth quoted c) (toExpressionEnd ending n depth quoted c) := by
  induction n generalizing depth quoted c with
  | zero => cases hn
  | succ n ih =>
    refine .step ?_
    simp only [toEnding, toExpressionEnd]
    split
    · exact .const _
    rename_i hend
    have hadvance : c.advance.rest.length < n :=
      Nat.lt_of_lt_of_le (length_advance (Bool.eq_false_iff.mpr hend)) (Nat.le_of_lt_succ hn)
    split
    · split
      · have hskip := ((skip_before c Nat.one_pos).trans (advance_before (c.skip 1)).upto).rest_lt
          (Bool.eq_false_iff.mpr hend)
        exact ih (Nat.lt_of_lt_of_le hskip (Nat.le_of_lt_succ hn))
      · exact ih hadvance
    split
    · exact ih hadvance
    split
    · exact ih hadvance
    split
    · split
      · split <;> exact .const _
      · exact ih hadvance
    split
    · exact .const _
    · exact ih hadvance

end Cursor

/-! ## Compiling -/

/-- A step of compiling that may not come to an end. -/
abbrev Compiling (δ α : Type) := ExceptT Stop (StateT (Compilation δ) Option) α

namespace Compiling

variable {ξ δ α : Type} (decls : Declarations ξ δ)

/-- There are no steps left. -/
def stuck : Compiling δ α := ExceptT.mk fun _ => none

/-- Does what takes no loop. -/
def ofCompile (m : Compile δ α) : Compiling δ α := ExceptT.mk fun s => some (m.run.run s)

def fail (kind : ErrorKind) (reason : String) : Compiling δ α := ofCompile (Compiler.fail kind reason)

def getCursor : Compiling δ Cursor := ofCompile Compiler.getCursor

def setCursor (c : Cursor) : Compiling δ Unit := ofCompile (Compiler.setCursor c)

def moveCursor (f : Cursor → Cursor) : Compiling δ Unit := ofCompile (Compiler.moveCursor f)

/-- What a loop over the source comes to. -/
def ofCursor (a : Option α) : Compiling δ α := ExceptT.mk fun s => a.map fun a => (.ok a, s)

def skipWhite (n : Nat) : Compiling δ Unit := do
  setCursor (← ofCursor ((← getCursor).toSolid n))

def name (n : Nat) : Compiling δ String := do
  skipWhite n
  let c ← getCursor
  let length := c.nameLength
  if length = 0 then fail .expectedIdentifier (excerpt c.rest)
  setCursor (c.skip length)
  return c.textTo (c.skip length)

def expect (n : Nat) (wanted : Char) (kind : ErrorKind) : Compiling δ Unit := do
  skipWhite n
  if (← getCursor).peek != wanted then fail kind wanted.toString
  moveCursor (·.skip 1)

def expectDelimiter (n : Nat) : Compiling δ Unit := expect n ';' .expectedDelimiter

def expression (n : Nat) (ending : Char) : Compiling δ String := do
  skipWhite n
  let start ← getCursor
  let (stop, obstacle) ← ofCursor (start.toEnding ending n 0 false)
  setCursor stop
  match obstacle with
  | some e => throw (.error e)
  | none => return trimEnd (start.textTo stop)

/-- The segments of the text of an external statement, behind others. -/
def segments : Nat → String → Compiling δ String
  | 0, _ => stuck
  | n + 1, text => do
    let c ← getCursor
    if c.atEnd then
      setCursor c.advance
      throw .beyondSource
    let plain := c.peek.isAlphanum || c.peek == ';'
    let delimiter := if plain then ';' else c.peek
    let start := if plain then c else c.advance
    let stop ← ofCursor (start.toNext delimiter n)
    setCursor (if !plain && stop.peek == delimiter then stop.skip 1 else stop)
    skipWhite n
    let text := text ++ start.textTo stop
    let c ← getCursor
    if c.atEnd || c.peek == ';' then return text else segments n text

def externalText (n : Nat) : Compiling δ String := do
  skipWhite n
  let text ← segments n ""
  if (← getCursor).atEnd then fail .unexpectedEnd "end-of-script"
  moveCursor (·.skip 1)
  return trimEnd text

def expressionStatement (n : Nat) (pos : SourcePos) : Compiling δ Unit := do
  let text ← expression n ';'
  expectDelimiter n
  let _ ← ofCompile (Compiler.emit .calc none text pos)

def label (n : Nat) : Compiling δ Unit := do
  let name ← name n
  ofCompile (Compiler.checkFree decls name)
  expectDelimiter n
  modify fun s =>
    { s with program := { s.program with labels := s.program.labels ++ [⟨name, s.program.size⟩] } }

def declaration (n : Nat) (ty : ValueType) : Compiling δ Unit := do
  skipWhite n
  let start ← getCursor
  let name ← name n
  ofCompile (Compiler.checkFree decls name)
  modify fun s => { s with declared := decls.declare name ty s.declared }
  skipWhite n
  if (← getCursor).peek == '=' then
    moveCursor fun c => { start with line := c.line }
    expressionStatement n start.pos
  else expectDelimiter n

def condition (n : Nat) (pos : SourcePos) : Compiling δ Nat := do
  expect n '(' .expectedLeftParenthesis
  let text ← expression n ')'
  moveCursor (·.skip 1)
  ofCompile (Compiler.emit .jumpIfZero none text pos)

def elseFollows (n : Nat) : Compiling δ Bool := do
  skipWhite n
  let c ← getCursor
  let length := c.nameLength
  if length = 0 then return false
  match decls.meaning (← get).declared (c.textTo (c.skip length)) with
  | .keyword .else_ =>
    setCursor (c.skip length)
    return true
  | _ => return false

def externalStatement (n : Nat) (x : ξ) : Compiling δ Unit := do
  let text ← externalText n
  let s ← get
  let (declared, accepted) := decls.external x text s.declared
  set { s with declared := declared }
  if !accepted then fail .externalKeyword text

mutual

def statement : Nat → Compiling δ Unit
  | 0 => stuck
  | n + 1 => do
    skipWhite n
    let c ← getCursor
    if c.atEnd then return
    if c.peek == ';' then setCursor (c.skip 1)
    else if c.peek == '\x7b' then
      setCursor (c.skip 1)
      block n
    else if c.peek == ':' then
      setCursor (c.skip 1)
      label decls n
    else if isNameStart c.peek then
      let first ← name n
      match decls.meaning (← get).declared first with
      | .unknown => fail .unknownIdentifier first
      | .keyword k => keyword n k c.pos
      | .external x => externalStatement decls n x
      | .reserved => fail .unexpectedKeyword first
      | .typedef ty => declaration decls n ty
      | .expression =>
        setCursor c
        expressionStatement n c.pos
    else fail .unexpectedCharacter c.peek.toString

/-- Statements up to a closing brace. -/
def block : Nat → Compiling δ Unit
  | 0 => stuck
  | n + 1 => do
    skipWhite n
    let c ← getCursor
    if c.atEnd then fail .unexpectedEnd "end-of-script"
    if c.peek == '\x7d' then setCursor (c.skip 1)
    else
      statement n
      block n

def keyword : Nat → Keyword → SourcePos → Compiling δ Unit
  | 0, _, _ => stuck
  | n + 1, k, pos =>
    match k with
    | .if_ => ifStatement n pos
    | .while_ => whileStatement n pos
    | .break_ | .continue_ => do
      expectDelimiter n
      let _ ← ofCompile (Compiler.emit (if k = .break_ then .leave else .again) (some (-1)) "" pos)
    | .goto | .gosub => do
      let target ← name n
      expectDelimiter n
      let _ ← ofCompile (Compiler.emit (if k = .goto then .goto else .call) (some (-1)) target pos)
    | .return_ => do
      expectDelimiter n
      let _ ← ofCompile (Compiler.emit .ret none "" pos)
    | .else_ | .external => fail .unexpectedKeyword k.name

def ifStatement : Nat → SourcePos → Compiling δ Unit
  | 0, _ => stuck
  | n + 1, pos => do
    let test ← condition n pos
    statement n
    ofCompile (Compiler.setTarget test (← ofCompile Compiler.nextIp))
    let skip ← ofCompile (Compiler.emit .jump none "" (← getCursor).pos)
    if ← elseFollows decls n then
      statement n
      ofCompile (Compiler.setTarget test (skip + 1))
      ofCompile (Compiler.setTarget skip (← ofCompile Compiler.nextIp))

def whileStatement : Nat → SourcePos → Compiling δ Unit
  | 0, _ => stuck
  | n + 1, pos => do
    let test ← condition n pos
    statement n
    let _ ← ofCompile (Compiler.emit .jump (some test) "" (← getCursor).pos)
    let stop ← ofCompile Compiler.nextIp
    ofCompile (Compiler.setTarget test stop)
    ofCompile (Compiler.patchFrom (test + 1) (Compiler.claim test stop))

end

/-- Statements up to the end. -/
def statements : Nat → Compiling δ Unit
  | 0 => stuck
  | n + 1 => do
    statement decls n
    skipWhite n
    if (← getCursor).atEnd then return
    statements n

/-- Compiles a source, if there are enough steps. -/
def compile (n : Nat) (source : String) (declared : δ) : Option (Compiler.Outcome × δ) := do
  let (result, s) ← (statements decls n).run.run ⟨.ofSource source, .empty, declared⟩
  match result with
  | .ok () => return (.compiled s.program, s.declared)
  | .error (.error e) => return (.rejected ⟨e, s.cursor.pos⟩, s.declared)
  | .error .beyondSource => return (.beyondSource, s.declared)

end Compiling

end HostScript
