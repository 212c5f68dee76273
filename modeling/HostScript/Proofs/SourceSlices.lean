import HostScript.Proofs.CompilingEnds
/-!
# Slices of the source

The compiler takes its texts from what a cursor has before it, which is always there. Here they are taken out of the
source by the offsets where they start and stop, and compiling stops at the first slice that does not lie within the
source. It comes to the same, as all cursors stand within the source: whoever advances has looked at what it advances
over. There is one way out, which is the text of an external statement that starts at the end, and that is where the
compiler itself stops.
-/

set_option autoImplicit false

namespace HostScript

open HostScript.Text

/-! ## Compiling by offsets -/

namespace Slicing

variable {ξ δ : Type} (decls : Declarations ξ δ) (source : List UInt8) (statement : Compile δ Unit)

open Compiler (getCursor setCursor moveCursor skipWhite fail checkFree expect expectDelimiter emit nextIp setTarget
  patchFrom claim)

/-- The text between two offsets, if they are in order and within the source. -/
def slice (start stop : Nat) : Compile δ String :=
  if start ≤ stop ∧ stop ≤ source.length then return decode ((source.drop start).take (stop - start))
  else throw .beyondSource

/-- The text ahead, as an error shows it. -/
def excerptAt (start : Nat) : Compile δ String := slice source start (min (start + excerptSize) source.length)

def name : Compile δ String := do
  skipWhite
  let c ← getCursor
  let n := c.nameLength
  if n = 0 then
    let text ← excerptAt source c.offset
    fail .expectedIdentifier text
  setCursor (c.skip n)
  slice source c.offset (c.skip n).offset

def expression (ending : Char) : Compile δ String := do
  skipWhite
  let start ← getCursor
  let (stop, obstacle) := start.toExpressionEnd ending (start.rest.length + 1) 0 false
  setCursor stop
  match obstacle with
  | some e => throw (.error e)
  | none => return trimEnd (← slice source start.offset stop.offset)

/-- The end is no case of its own here. -/
def segments : Nat → String → Compile δ String
  | 0, text => return text
  | n + 1, text => do
    let c ← getCursor
    let plain := c.peek.isAlphanum || c.peek == ';'
    let delimiter := if plain then ';' else c.peek
    let start := if plain then c else c.advance
    let stop := start.toDelimiter delimiter (start.rest.length + 1)
    setCursor stop
    let segment ← slice source start.offset stop.offset
    setCursor (if !plain && stop.peek == delimiter then stop.skip 1 else stop)
    skipWhite
    let text := text ++ segment
    let c ← getCursor
    if c.atEnd || c.peek == ';' then return text else segments n text

def externalText : Compile δ String := do
  skipWhite
  let text ← segments source ((← getCursor).rest.length + 1) ""
  if (← getCursor).atEnd then fail .unexpectedEnd "end-of-script"
  moveCursor (·.skip 1)
  return trimEnd text

def expressionStatement (pos : SourcePos) : Compile δ Unit := do
  let text ← expression source ';'
  expectDelimiter
  let _ ← emit .calc none text pos

def label : Compile δ Unit := do
  let name ← name source
  checkFree decls name
  expectDelimiter
  modify fun s =>
    { s with program := { s.program with labels := s.program.labels ++ [⟨name, s.program.size⟩] } }

def declaration (ty : ValueType) : Compile δ Unit := do
  skipWhite
  let start ← getCursor
  let name ← name source
  checkFree decls name
  modify fun s => { s with declared := decls.declare name ty s.declared }
  skipWhite
  if (← getCursor).peek == '=' then
    moveCursor fun c => { start with line := c.line }
    expressionStatement source start.pos
  else expectDelimiter

def condition (pos : SourcePos) : Compile δ Nat := do
  expect '(' .expectedLeftParenthesis
  let text ← expression source ')'
  moveCursor (·.skip 1)
  emit .jumpIfZero none text pos

/-- What stands in the place of a name is sliced for an error, though nobody gets to see it. -/
def elseFollows : Compile δ Bool := do
  skipWhite
  let c ← getCursor
  let n := c.nameLength
  if n = 0 then
    let _ ← excerptAt source c.offset
    return false
  let name ← slice source c.offset (c.skip n).offset
  match decls.meaning (← get).declared name with
  | .keyword .else_ =>
    setCursor (c.skip n)
    return true
  | _ => return false

def ifStatement (pos : SourcePos) : Compile δ Unit := do
  let test ← condition source pos
  statement
  setTarget test (← nextIp)
  let skip ← emit .jump none "" (← getCursor).pos
  if ← elseFollows decls source then
    statement
    setTarget test (skip + 1)
    setTarget skip (← nextIp)

def whileStatement (pos : SourcePos) : Compile δ Unit := do
  let test ← condition source pos
  statement
  let _ ← emit .jump (some test) "" (← getCursor).pos
  let stop ← nextIp
  setTarget test stop
  patchFrom (test + 1) (claim test stop)

def keyword (k : Keyword) (pos : SourcePos) : Compile δ Unit := do
  match k with
  | .if_ => ifStatement decls source statement pos
  | .while_ => whileStatement source statement pos
  | .break_ | .continue_ =>
    expectDelimiter
    let _ ← emit (if k = .break_ then .leave else .again) (some (-1)) "" pos
  | .goto | .gosub =>
    let target ← name source
    expectDelimiter
    let _ ← emit (if k = .goto then .goto else .call) (some (-1)) target pos
  | .return_ =>
    expectDelimiter
    let _ ← emit .ret none "" pos
  | .else_ | .external => fail .unexpectedKeyword k.name

def externalStatement (x : ξ) : Compile δ Unit := do
  let text ← externalText source
  let s ← get
  let (declared, accepted) := decls.external x text s.declared
  set { s with declared := declared }
  if !accepted then fail .externalKeyword text

def statementWith : Compile δ Unit := do
  skipWhite
  let c ← getCursor
  if c.atEnd then return
  if c.peek == ';' then setCursor (c.skip 1)
  else if c.peek == '\x7b' then
    setCursor (c.skip 1)
    Compiler.block statement (c.rest.length + 1)
  else if c.peek == ':' then
    setCursor (c.skip 1)
    label decls source
  else if isNameStart c.peek then
    let first ← name source
    match decls.meaning (← get).declared first with
    | .unknown => fail .unknownIdentifier first
    | .keyword k => keyword decls source statement k c.pos
    | .external x => externalStatement decls source x
    | .reserved => fail .unexpectedKeyword first
    | .typedef ty => declaration decls source ty
    | .expression =>
      setCursor c
      expressionStatement source c.pos
  else fail .unexpectedCharacter c.peek.toString

def statementAt : Nat → Compile δ Unit
  | 0 => fail .compilerImplementationError ""
  | n + 1 => statementWith decls source (statementAt n)

/-- Compiles a source, as long as what is taken out of it lies within it. -/
def compile (text : String) (declared : δ) : Compiler.Outcome × δ :=
  let start : Cursor := .ofSource text
  let depth := start.rest.length + 1
  let (result, s) :=
    (Compiler.statements (statementAt decls start.rest depth) depth).run ⟨start, .empty, declared⟩
  match result with
  | .ok () => (.compiled s.program, s.declared)
  | .error (.error e) => (.rejected ⟨e, s.cursor.pos⟩, s.declared)
  | .error .beyondSource => (.beyondSource, s.declared)

end Slicing

/-! ## Cursors within the source -/

namespace Cursor

/-- The cursor stands in the source or at its end, and has what follows before it. -/
structure Within (source : List UInt8) (c : Cursor) : Prop where
  rest : c.rest = source.drop c.offset
  offset : c.offset ≤ source.length

variable {source : List UInt8} {c d : Cursor}

theorem ofSource_within (text : String) : (ofSource text).Within (ofSource text).rest :=
  ⟨List.drop_zero.symm, Nat.zero_le _⟩

/-- Beyond the end there is NUL. -/
theorem lt_of_peekAt {n : Nat} (h : c.peekAt n ≠ '\x00') : n < c.rest.length := by
  refine Nat.lt_of_not_le fun hle => h ?_
  rw [peekAt, List.getD_eq_getElem?_getD, List.getElem?_eq_none hle]
  rfl

theorem peek_of_atEnd (h : c.atEnd = true) : c.peek = '\x00' := by
  rw [peek, peekAt, List.isEmpty_iff.mp h]
  rfl

theorem advance_atEnd (h : c.atEnd = true) : c.advance.atEnd = true := by
  rw [atEnd, advance, List.isEmpty_iff.mp h]
  rfl

namespace Within

theorem skip (h : c.Within source) {n : Nat} (hn : n ≤ c.rest.length) : (c.skip n).Within source where
  rest := (congrArg (List.drop n) h.rest).trans (List.drop_drop ..)
  offset := by
    rw [h.rest, List.length_drop] at hn
    exact Nat.add_le_of_le_sub' h.offset hn

/-- Where something is left there was something to skip. -/
theorem skip_more (h : c.Within source) {n : Nat} (hmore : (c.skip n).atEnd = false) : (c.skip n).Within source := by
  refine h.skip (Nat.le_of_lt (Nat.lt_of_not_le fun hle => ?_))
  rw [atEnd, List.isEmpty_eq_false_iff] at hmore
  exact hmore (List.drop_eq_nil_of_le hle)

theorem skip_if (h : c.Within source) (p : Prop) [Decidable p] (hmore : (if p then c.skip 1 else c).atEnd = false) :
    (if p then c.skip 1 else c).Within source := by
  split at hmore
  · rw [if_pos ‹p›]
    exact h.skip_more hmore
  · rw [if_neg ‹¬p›]
    exact h

theorem skip_one (h : c.Within source) (hend : c.atEnd = false) : (c.skip 1).Within source :=
  h.skip (List.length_pos_iff.mpr (List.isEmpty_eq_false_iff.mp hend))

theorem advance (h : c.Within source) (hend : c.atEnd = false) : c.advance.Within source where
  rest := List.drop_one.symm.trans (h.skip_one hend).rest
  offset := (h.skip_one hend).offset

theorem offset_of_atEnd (h : c.Within source) (hend : c.atEnd = true) : c.offset = source.length := by
  have hdrop : source.drop c.offset = [] := h.rest ▸ List.isEmpty_iff.mp hend
  exact Nat.le_antisymm h.offset (List.drop_eq_nil_iff.mp hdrop)

/-- What stands before the cursor can be taken. -/
theorem take (h : c.Within source) (hpeek : c.peek ≠ '\x00') : (c.skip 1).Within source := h.skip (lt_of_peekAt hpeek)

theorem line (h : c.Within source) (line : Nat) : ({ c with line := line } : Cursor).Within source := ⟨h.rest, h.offset⟩

theorem toDelimiter (h : c.Within source) (delimiter : Char) (n : Nat) : (toDelimiter delimiter n c).Within source := by
  induction n generalizing c with
  | zero => exact h
  | succ n ih =>
    rw [Cursor.toDelimiter]
    split
    · exact h
    · rename_i hgo
      exact ih (h.advance (by simp_all))

theorem lineComment (h : c.Within source) (n : Nat) : (lineComment n c).Within source := by
  rw [lineComment_eq_toDelimiter]
  exact h.toDelimiter '\n' n

theorem blockComment (h : c.Within source) (n : Nat) : (blockComment n c).Within source := by
  induction n generalizing c with
  | zero => exact h
  | succ n ih =>
    rw [Cursor.blockComment]
    split
    · exact h
    rename_i hend
    split
    · rename_i hclose
      have hslash : c.peekAt 1 = '/' := by simp_all
      exact h.skip (lt_of_peekAt (by rw [hslash]; decide))
    · exact ih (h.advance (Bool.eq_false_iff.mpr hend))

theorem skipWhiteWithin (h : c.Within source) (n : Nat) : (skipWhiteWithin n c).Within source := by
  induction n generalizing c with
  | zero => exact h
  | succ n ih =>
    rw [Cursor.skipWhiteWithin]
    split
    · rename_i hwhite
      exact ih (h.advance (not_atEnd_of_peek fun hnul => absurd (hnul ▸ hwhite) (by decide)))
    split
    · exact ih (h.lineComment _)
    split
    · rename_i hopen
      have hstar : c.peekAt 1 = '*' := by simp_all
      exact ih ((h.skip (lt_of_peekAt (by rw [hstar]; decide))).blockComment _)
    · exact h

theorem skipWhite (h : c.Within source) : c.skipWhite.Within source := h.skipWhiteWithin _

theorem skip_name (h : c.Within source) : (c.skip c.nameLength).Within source :=
  h.skip (List.takeWhile_sublist _).length_le

/-- If nothing stands in the way, the cursor stands before the character that ends the expression. -/
theorem toExpressionEnd (h : c.Within source) (ending : Char) (n depth : Nat) (quoted : Bool) :
    let outcome := toExpressionEnd ending n depth quoted c
    outcome.1.Within source ∧ (outcome.2 = none → outcome.1.peek = ending) := by
  have hblocked {d : Cursor} (hd : d.Within source) (e : ScriptError) :
      d.Within source ∧ (some e = none → d.peek = ending) := ⟨hd, fun h => absurd h (Option.some_ne_none e)⟩
  induction n generalizing depth quoted c with
  | zero => exact hblocked h _
  | succ n ih =>
    rw [Cursor.toExpressionEnd]
    split
    · exact hblocked h _
    rename_i hend
    have hadvance := h.advance (Bool.eq_false_iff.mpr hend)
    dsimp only
    split
    · split
      · rename_i hescape
        have htwo : 1 < c.rest.length := lt_of_peekAt (by simp_all)
        have hend : (c.skip 1).atEnd = false := by
          rw [atEnd, List.isEmpty_eq_false_iff, Cursor.skip, ne_eq, List.drop_eq_nil_iff]
          exact Nat.not_le_of_lt htwo
        exact ih ((h.skip (Nat.le_of_lt htwo)).advance hend) _ _
      · exact ih hadvance _ _
    split
    · exact ih hadvance _ _
    split
    · exact ih hadvance _ _
    split
    · rename_i hclose
      split
      · split
        · rename_i hending
          exact ⟨h, fun _ => (beq_iff_eq.mp hclose).trans (beq_iff_eq.mp hending).symm⟩
        · exact hblocked h _
      · exact ih hadvance _ _
    split
    · exact ⟨h, fun _ => by simp_all⟩
    · exact ih hadvance _ _

end Within

end Cursor

/-! ## The same steps -/

namespace Slicing

open Compiler (Does move getCursor setCursor skipWhite fail emit not_does_fail not_does_throw skipWhite_does
  getCursor_does setCursor_does move_cursor checkFree_done)
open Compiling (nextIp_does emit_does setTarget_does not_atEnd_of_upto)

variable {ξ δ α β γ : Type} {decls : Declarations ξ δ} {source : List UInt8} {s t : Compilation δ} {c d : Cursor}
  {P Q : Compilation δ → Prop}

/-- From a state the two do the same, and when they succeed, the state that they leave has a property. -/
structure Agrees (m m' : Compile δ α) (s : Compilation δ) (Q : Compilation δ → Prop) : Prop where
  same : m.run.run s = m'.run.run s
  leaves : ∀ {a t}, Does m' s a t → Q t

/-- The cursor stands within the source. -/
def Inside (source : List UInt8) (s : Compilation δ) : Prop := s.cursor.Within source

namespace Agrees

theorem pure (a : α) (h : Q s) : Agrees (pure a) (pure a) s Q :=
  ⟨rfl, fun h' => h'.of_pure.2 ▸ h⟩

theorem throw (e : Stop) : Agrees (throw e : Compile δ α) (throw e) s Q := ⟨rfl, fun h => absurd h not_does_throw⟩

theorem fail (kind : ErrorKind) (reason : String) :
    Agrees (Compiler.fail kind reason : Compile δ α) (Compiler.fail kind reason) s Q := .throw _

theorem bind {m m' : Compile δ α} {f f' : α → Compile δ β} (hm : Agrees m m' s P)
    (hf : ∀ a t, Does m' s a t → P t → Agrees (f a) (f' a) t Q) : Agrees (m >>= f) (m' >>= f') s Q := by
  constructor
  · rw [ExceptT.run_bind, StateT.run_bind, ExceptT.run_bind, StateT.run_bind, hm.same]
    rcases hr : m'.run.run s with ⟨e | a, t⟩
    · rfl
    · exact (hf a t hr (hm.leaves hr)).same
  · intro b u h
    obtain ⟨a, t, hm', h⟩ := h.of_bind
    exact (hf a t hm' (hm.leaves hm')).leaves h

/-- The same comes first, and it is known what it does. -/
theorem after {m : Compile δ α} {f f' : α → Compile δ β} {a : α} (h : Does m s a t) (hf : Agrees (f a) (f' a) t Q) :
    Agrees (m >>= f) (m >>= f') s Q := by
  refine bind (P := fun u => u = t) ⟨rfl, fun hu => (hu.unique h).2⟩ ?_
  rintro b u hu rfl
  obtain ⟨rfl, -⟩ := hu.unique h
  exact hf

theorem ite {p : Prop} [Decidable p] {m m' n n' : Compile δ α} (h : p → Agrees m m' s Q) (h' : ¬p → Agrees n n' s Q) :
    Agrees (if p then m else n) (if p then m' else n') s Q := by
  split
  · exact h ‹_›
  · exact h' ‹_›

/-- A stop comes first, whatever would have come after it. -/
theorem throwing {e : Stop} {f : α → Compile δ β} {f' : γ → Compile δ β} :
    Agrees (MonadExcept.throw e >>= f) (MonadExcept.throw e >>= f') s Q where
  same := Eq.refl _
  leaves := by
    intro b t h
    obtain ⟨_, _, hthrow, -⟩ := h.of_bind
    exact absurd hthrow not_does_throw

theorem failing {kind : ErrorKind} {reason : String} {f f' : α → Compile δ β} :
    Agrees (Compiler.fail kind reason >>= f) (Compiler.fail kind reason >>= f') s Q := .throwing

/-- White space comes first. -/
theorem white {f f' : Unit → Compile δ β} (hs : s.cursor.Within source)
    (hf : s.cursor.skipWhite.Within source → Agrees (f ()) (f' ()) (move s s.cursor.skipWhite) Q) :
    Agrees (skipWhite >>= f) (skipWhite >>= f') s Q :=
  .after (skipWhite_does s) (hf hs.skipWhite)

theorem look {f f' : Cursor → Compile δ β} (hf : Agrees (f s.cursor) (f' s.cursor) s Q) :
    Agrees (getCursor >>= f) (getCursor >>= f') s Q :=
  .after (getCursor_does s) hf

theorem goTo {f f' : Unit → Compile δ β} (hf : Agrees (f ()) (f' ()) (move s c) Q) :
    Agrees (setCursor c >>= f) (setCursor c >>= f') s Q :=
  .after (setCursor_does s c) hf

theorem arrive (h : c.Within source) : Agrees (setCursor c) (setCursor c) s (Inside source) :=
  ⟨Eq.refl _, fun h' => ((setCursor_does s c).unique h').2 ▸ h⟩

/-- A step of the compiler that takes no slice. -/
theorem rfl {m : Compile δ α} (h : ∀ {a t}, Does m s a t → Q t) : Agrees m m s Q := ⟨Eq.refl _, h⟩

end Agrees

/-! ## Slices -/

/-- What lies between two cursors within the source is a slice of it. -/
theorem slice_eq (hc : c.Within source) (hd : d.Within source) (h : c.Upto d) :
    (slice source c.offset d.offset : Compile δ String) = pure (c.textTo d) := by
  rw [slice, if_pos ⟨h.offset, hd.offset⟩, Cursor.textTo, hc.rest]

/-- There is nothing beyond the source. -/
theorem slice_beyond {start : Nat} (h : source.length < start) (stop : Nat) :
    (slice source start stop : Compile δ String) = throw .beyondSource :=
  if_neg fun ⟨hle, hstop⟩ => Nat.not_le_of_lt h (Nat.le_trans hle hstop)

theorem excerptAt_eq (hc : c.Within source) :
    (excerptAt source c.offset : Compile δ String) = pure (excerpt c.rest) := by
  have htake : (source.drop c.offset).take (min (c.offset + excerptSize) source.length - c.offset) =
      c.rest.take excerptSize := by
    rw [hc.rest, List.take_eq_take_iff, List.length_drop]
    omega
  rw [excerptAt, slice, if_pos ⟨by have := hc.offset; omega, Nat.min_le_right _ _⟩, htake, excerpt]

theorem name_agrees (hs : s.cursor.Within source) : Agrees (name source) Compiler.name s (Inside source) := by
  refine .white hs fun hc => .look ?_
  dsimp only [move_cursor]
  rw [excerptAt_eq hc, slice_eq hc hc.skip_name (Cursor.skip_upto _ _), pure_bind]
  exact .ite (fun _ => .failing) fun _ => .goTo (.pure _ hc.skip_name)

@[simp]
theorem setCursor_setCursor (f : Unit → Compile δ α) :
    (setCursor c >>= fun _ => setCursor d >>= f) = setCursor d >>= f := rfl

theorem expect_agrees (hs : s.cursor.Within source) {wanted : Char} (hnul : wanted ≠ '\x00') (kind : ErrorKind) :
    Agrees (Compiler.expect wanted kind) (Compiler.expect wanted kind) s (Inside source) := by
  refine .rfl fun h => ?_
  obtain ⟨hpeek, rfl⟩ := Compiler.expect_done h
  exact hs.skipWhite.take (hpeek.trans_ne hnul)

/-- The cursor stays before the character that ends the expression. -/
theorem expression_agrees (hs : s.cursor.Within source) (ending : Char) :
    Agrees (expression source ending) (Compiler.expression ending) s fun t =>
      Inside source t ∧ t.cursor.peek = ending := by
  refine .white hs fun hc => .look ?_
  dsimp only [move_cursor]
  have hupto := Cursor.toExpressionEnd_upto ending (s.cursor.skipWhite.rest.length + 1) 0 false s.cursor.skipWhite
  have hend := hc.toExpressionEnd ending (s.cursor.skipWhite.rest.length + 1) 0 false
  generalize Cursor.toExpressionEnd _ _ _ _ _ = outcome at hupto hend ⊢
  obtain ⟨stop, _ | e⟩ := outcome
  · dsimp only
    rw [slice_eq hc hend.1 hupto, pure_bind]
    exact .goTo (.pure _ ⟨hend.1, hend.2 rfl⟩)
  · exact .goTo (.throw _)

/-- Behind the segments the cursor stands within the source, or there is nothing left to read. -/
theorem segments_agree (hs : s.cursor.Within source) (n : Nat) (text : String) :
    Agrees (segments source n text) (Compiler.segments n text) s fun t => t.cursor.atEnd = false → Inside source t := by
  induction n generalizing s text with
  | zero => exact .pure _ fun _ => hs
  | succ n ih =>
    refine .look ?_
    extract_lets plain delimiter start stop _ behindEnd
    by_cases hend : s.cursor.atEnd
    · -- the NUL at the end counts as a delimiter, so the segment starts beyond it and is none
      have hplain : plain = false := by
        unfold plain
        rw [Cursor.peek_of_atEnd hend]
        rfl
      have hstart : start = s.cursor.advance := by
        unfold start
        rw [hplain]
        rfl
      have hstop : stop = s.cursor.advance := by
        unfold stop
        rw [hstart, Cursor.toDelimiter_stops (by rw [Cursor.advance_atEnd hend, Bool.true_or])]
      have hbeyond : source.length < s.cursor.advance.offset := by
        rw [← hs.offset_of_atEnd hend]
        exact Nat.lt_succ_self _
      rw [if_pos hend, hstop, hstart, slice_beyond hbeyond]
      exact .goTo .throwing
    · rw [if_neg hend]
      unfold behindEnd
      have hstart : start.Within source := by
        unfold start
        split
        · exact hs
        · exact hs.advance (Bool.eq_false_iff.mpr hend)
      have hstop : stop.Within source := hstart.toDelimiter _ _
      rw [slice_eq hstart hstop (Cursor.toDelimiter_upto _ _ _), pure_bind, setCursor_setCursor]
      -- a delimiter NUL is taken at the end too, and then nothing is left
      generalize hbehind : (if !plain && stop.peek == delimiter then stop.skip 1 else stop) = behind
      have hinside : behind.skipWhite.atEnd = false → behind.skipWhite.Within source := by
        intro hgo
        have hmore : behind.atEnd = false := not_atEnd_of_upto (Cursor.skipWhite_upto _) hgo
        exact (hbehind ▸ hstop.skip_if _ (hbehind ▸ hmore) : behind.Within source).skipWhite
      refine .goTo ?_
      refine .after (skipWhite_does _) (.look (.ite (fun _ => .pure _ hinside) fun hgo => ?_))
      refine ih (hinside ?_) _
      exact Bool.eq_false_iff.mpr fun hend => hgo (by simp [hend])

theorem externalText_agrees (hs : s.cursor.Within source) :
    Agrees (externalText source) Compiler.externalText s (Inside source) := by
  refine .white hs fun hc => .look ((segments_agree hc _ "").bind fun text t _ ht => .look ?_)
  refine .ite (fun _ => .failing) fun hend => ?_
  have hend : t.cursor.atEnd = false := Bool.eq_false_iff.mpr hend
  exact .after (.modify _ _) (.pure _ ((ht hend).skip_one hend))

/-! ## Statements -/

theorem expressionStatement_agrees (hs : s.cursor.Within source) (pos : SourcePos) :
    Agrees (expressionStatement source pos) (Compiler.expressionStatement pos) s (Inside source) := by
  refine (expression_agrees hs ';').bind fun text t _ ht => (expect_agrees ht.1 (by decide) _).bind fun _ u _ hu => ?_
  exact .after (emit_does _ _ _ _ _) (.pure _ hu)

theorem checkFree_agrees (hs : s.cursor.Within source) (name : String) :
    Agrees (Compiler.checkFree decls name) (Compiler.checkFree decls name) s (Inside source) :=
  .rfl fun h => (checkFree_done h).1 ▸ hs

theorem label_agrees (hs : s.cursor.Within source) :
    Agrees (label decls source) (Compiler.label decls) s (Inside source) := by
  refine (name_agrees hs).bind fun name t _ ht => (checkFree_agrees ht name).bind fun _ u _ hu => ?_
  refine (expect_agrees hu (by decide) _).bind fun _ v _ hv => .rfl fun h => ?_
  obtain ⟨-, rfl⟩ := (Does.modify _ _).unique h
  exact hv

theorem declaration_agrees (hs : s.cursor.Within source) (ty : ValueType) :
    Agrees (declaration decls source ty) (Compiler.declaration decls ty) s (Inside source) := by
  refine .white hs fun hc => .look ((name_agrees hc).bind fun name t _ ht => ?_)
  refine (checkFree_agrees ht name).bind fun _ u _ hu => .after (.modify _ _) ?_
  refine .white hu fun hd => .look (.ite (fun _ => ?_) fun _ => ?_)
  · exact .after (.modify _ _) (expressionStatement_agrees (hc.line _) _)
  · exact expect_agrees hd (by decide) _

theorem condition_agrees (hs : s.cursor.Within source) (pos : SourcePos) :
    Agrees (condition source pos) (Compiler.condition pos) s (Inside source) := by
  refine (expect_agrees hs (by decide) _).bind fun _ t _ ht => (expression_agrees ht ')').bind fun text u _ hu => ?_
  obtain ⟨hu, hpeek⟩ := hu
  refine .after (.modify _ _) (.rfl fun h => ?_)
  obtain ⟨-, rfl⟩ := Compiler.emit_done h
  exact hu.take (hpeek.trans_ne (by decide))

theorem elseFollows_agrees (hs : s.cursor.Within source) :
    Agrees (elseFollows decls source) (Compiler.elseFollows decls) s (Inside source) := by
  refine .white hs fun hc => .look ?_
  dsimp only [move_cursor]
  rw [excerptAt_eq hc, slice_eq hc hc.skip_name (Cursor.skip_upto _ _), pure_bind, pure_bind]
  refine .ite (fun _ => .pure _ hc) fun _ => .after (.get _) ?_
  generalize decls.meaning _ _ = meaning
  cases meaning with
  | keyword k =>
    cases k with
    | else_ => exact .goTo (.pure _ hc.skip_name)
    | _ => exact .pure _ hc
  | _ => exact .pure _ hc

theorem externalStatement_agrees (hs : s.cursor.Within source) (x : ξ) :
    Agrees (externalStatement decls source x) (Compiler.externalStatement decls x) s (Inside source) := by
  refine (externalText_agrees hs).bind fun text t _ ht => .after (.get _) (.after (.modify _ _) ?_)
  exact .ite (fun _ => .fail _ _) fun _ => .pure _ ht

/-! ## Nested statements -/

section Nested

variable {statement statement' : Compile δ Unit}
  (hstatement : ∀ s, s.cursor.Within source → Agrees statement statement' s (Inside source))

include hstatement

theorem block_agrees (hs : s.cursor.Within source) (n : Nat) :
    Agrees (Compiler.block statement n) (Compiler.block statement' n) s (Inside source) := by
  induction n generalizing s with
  | zero => exact .fail _ _
  | succ n ih =>
    refine .white hs fun hc => .look (.ite (fun _ => .failing) fun _ => .ite (fun hclose => ?_) fun _ => ?_)
    · exact .arrive (hc.take ((beq_iff_eq.mp hclose).trans_ne (by decide)))
    · exact (hstatement _ hc).bind fun _ t _ ht => ih ht

theorem ifStatement_agrees (hs : s.cursor.Within source) (pos : SourcePos) :
    Agrees (ifStatement decls source statement pos) (Compiler.ifStatement decls statement' pos) s (Inside source) := by
  refine (condition_agrees hs pos).bind fun test t _ ht => (hstatement t ht).bind fun _ u _ hu => ?_
  refine .after (nextIp_does u) (.after (setTarget_does _ _ _) (.look (.after (emit_does _ _ _ _ _) ?_)))
  refine (elseFollows_agrees (by exact hu)).bind fun follows v _ hv => ?_
  cases follows with
  | false => exact .pure _ hv
  | true =>
    refine (hstatement v hv).bind fun _ w _ hw => .after (setTarget_does _ _ _) (.after (nextIp_does _) (.rfl fun h => ?_))
    obtain ⟨-, rfl⟩ := (setTarget_does _ _ _).unique h
    exact hw

theorem whileStatement_agrees (hs : s.cursor.Within source) (pos : SourcePos) :
    Agrees (whileStatement source statement pos) (Compiler.whileStatement statement' pos) s (Inside source) := by
  refine (condition_agrees hs pos).bind fun test t _ ht => (hstatement t ht).bind fun _ u _ hu => .look ?_
  refine .after (emit_does _ _ _ _ _) (.after (nextIp_does _) (.after (setTarget_does _ _ _) (.rfl fun h => ?_)))
  obtain ⟨-, rfl⟩ := (Does.modify _ _).unique h
  exact hu

theorem keyword_agrees (hs : s.cursor.Within source) (k : Keyword) (pos : SourcePos) :
    Agrees (keyword decls source statement k pos) (Compiler.keyword decls statement' k pos) s (Inside source) := by
  cases k with
  | if_ => exact ifStatement_agrees hstatement hs pos
  | while_ => exact whileStatement_agrees hstatement hs pos
  | break_ | continue_ | return_ =>
    exact (expect_agrees hs (by decide) _).bind fun _ t _ ht => .after (emit_does _ _ _ _ _) (.pure _ ht)
  | goto | gosub =>
    refine (name_agrees hs).bind fun target t _ ht => (expect_agrees ht (by decide) _).bind fun _ u _ hu => ?_
    exact .after (emit_does _ _ _ _ _) (.pure _ hu)
  | else_ | external => exact .fail _ _

theorem statementWith_agrees (hs : s.cursor.Within source) :
    Agrees (statementWith decls source statement) (Compiler.statementWith decls statement') s (Inside source) := by
  refine .white hs fun hc => .look (.ite (fun _ => .pure _ hc) fun _ => ?_)
  have htake {a : Char} (hpeek : (move s s.cursor.skipWhite).cursor.peek == a) (ha : a ≠ '\x00') :
      (s.cursor.skipWhite.skip 1).Within source := hc.take ((beq_iff_eq.mp hpeek).trans_ne ha)
  refine .ite (fun hpeek => .arrive (htake hpeek (by decide))) fun _ => ?_
  refine .ite (fun hpeek => .goTo (block_agrees hstatement (htake hpeek (by decide)) _)) fun _ => ?_
  refine .ite (fun hpeek => .goTo (label_agrees (htake hpeek (by decide)))) fun _ => ?_
  refine .ite (fun _ => (name_agrees hc).bind fun first t _ ht => .after (.get _) ?_) fun _ => .fail _ _
  generalize decls.meaning _ _ = meaning
  cases meaning with
  | unknown => exact .fail _ _
  | keyword k => exact keyword_agrees hstatement ht k _
  | external x => exact externalStatement_agrees ht x
  | reserved => exact .fail _ _
  | typedef ty => exact declaration_agrees ht ty
  | expression => exact .goTo (expressionStatement_agrees hc _)

theorem statements_agree (hs : s.cursor.Within source) (n : Nat) :
    Agrees (Compiler.statements statement n) (Compiler.statements statement' n) s (Inside source) := by
  induction n generalizing s with
  | zero => exact .pure _ hs
  | succ n ih =>
    refine (hstatement s hs).bind fun _ t _ ht => .white ht fun hc => .look ?_
    exact .ite (fun _ => .pure _ hc) fun _ => ih hc

end Nested

theorem statementAt_agrees (hs : s.cursor.Within source) (n : Nat) :
    Agrees (statementAt decls source n) (Compiler.statementAt decls n) s (Inside source) := by
  induction n generalizing s with
  | zero => exact .fail _ _
  | succ n ih => exact statementWith_agrees (fun _ ht => ih ht) hs

/-- Taken out by offsets or not, the texts of a source are the same, and so is what becomes of it. -/
theorem compile_eq (decls : Declarations ξ δ) (text : String) (declared : δ) :
    compile decls text declared = Compiler.compile decls text declared := by
  let start : Compilation δ := ⟨.ofSource text, .empty, declared⟩
  let depth := start.cursor.rest.length + 1
  have hstart : start.cursor.Within start.cursor.rest := Cursor.ofSource_within text
  have hstatement (s : Compilation δ) (hs : s.cursor.Within start.cursor.rest) :
      Agrees (statementAt decls start.cursor.rest depth) (Compiler.statementAt decls depth) s
        (Inside start.cursor.rest) := statementAt_agrees hs depth
  have hsame := (statements_agree hstatement hstart depth).same
  unfold compile Compiler.compile
  dsimp only
  rw [show (Compiler.statements _ _).run _ = _ from hsame]
  rfl

end Slicing

end HostScript
