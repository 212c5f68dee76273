import HostScript.Proofs.Comments
import HostScript.Proofs.EscapedText
/-!
# Sources with white space in the place of a comment

Comments count as white space where white space is skipped. The texts of expressions and of external statements are
copied with the comments in them. So the compiler makes the same of a source when white characters take the place of a
comment, unless the comment starts inside of something that is read at once: a text that is copied, or another comment.
What is read at once is told statement by statement; names are left out, as there is no comment in them.
-/

set_option autoImplicit false

namespace HostScript

open HostScript.Text

/-! ## What a statement reads -/

/-- The cursor, said to be in another line. -/
def Cursor.inLine (c : Cursor) (line : Nat) : Cursor := { c with line := line }

theorem Cursor.behindPiece_inLine {c : Cursor} (h : c.behindPiece? = none) (line : Nat) :
    (c.inLine line).behindPiece? = none := by
  unfold behindPiece? at h ⊢
  split at h
  · cases h
  rename_i hwhite
  split at h
  · cases h
  rename_i hline
  split at h
  · cases h
  rename_i hblock
  exact (if_neg hwhite).trans ((if_neg hline).trans (if_neg hblock))

theorem Blank.Beside.inLine {b : Blank} {c c' : Cursor} {line line' : Nat} (h : b.Beside c c') (hline : line = line') :
    b.Beside (c.inLine line) (c'.inLine line') := by
  subst hline
  cases h with
  | before h => exact .before h
  | @behind c h => exact .behind (c := c.inLine line) h

namespace Compiler

variable {ξ δ α β α' β' : Type} (decls : Declarations ξ δ)

/-- The places where the segments of an external text start, from the first one on. -/
inductive Segment : Cursor → Cursor → Prop
  | first (c : Cursor) : Segment c c
  | next {c d : Cursor} : c.atEnd = false →
    ¬((Compiling.behindSegment c).skipWhite.atEnd || (Compiling.behindSegment c).skipWhite.peek == ';') = true →
    Segment (Compiling.behindSegment c).skipWhite d → Segment c d

/-- The places from which the statement at the cursor skips white space, and the one behind the statement. -/
inductive Pauses (s : Compilation δ) : Cursor → Prop
  | start : Pauses s s.cursor
  | sign : s.cursor.skipWhite.peek = '\x7b' ∨ s.cursor.skipWhite.peek = ':' → Pauses s (s.cursor.skipWhite.skip 1)
  | label {first : String} {t : Compilation δ} : s.cursor.skipWhite.peek = ':' →
    Does name (move s (s.cursor.skipWhite.skip 1)) first t → Does (checkFree decls first) t () t → Pauses s t.cursor
  | keyword {k : Keyword} {t : Compilation δ} : Starts decls s (.keyword k) t → k ≠ .else_ → k ≠ .external →
    Pauses s t.cursor
  | target {k : Keyword} {first : String} {t u : Compilation δ} : Starts decls s (.keyword k) t →
    k = .goto ∨ k = .gosub → Does name t first u → Pauses s u.cursor
  | condition {k : Keyword} {t u : Compilation δ} : Starts decls s (.keyword k) t → k = .if_ ∨ k = .while_ →
    Does (expect '(' .expectedLeftParenthesis) t () u → Pauses s u.cursor
  | typedef {ty : ValueType} {t : Compilation δ} : Starts decls s (.typedef ty) t → Pauses s t.cursor
  | declared {ty : ValueType} {first : String} {t u : Compilation δ} : Starts decls s (.typedef ty) t →
    Does name (move t t.cursor.skipWhite) first u → Does (checkFree decls first) u () u → Pauses s u.cursor
  | external {x : ξ} {t : Compilation δ} : Starts decls s (.external x) t → Pauses s t.cursor
  | segment {x : ξ} {t : Compilation δ} {c : Cursor} : Starts decls s (.external x) t →
    Segment t.cursor.skipWhite c → c.atEnd = false → Pauses s (Compiling.behindSegment c)
  | done {t : Compilation δ} : Does (statementHere decls) s () t → Pauses s t.cursor

/-- The stretches that the statement at the cursor reads at once: a piece of white space, the text of an expression, or
a segment of an external text. The first value of a declaration is read from the name on, in the line of its sign. -/
inductive Reads (s : Compilation δ) : Cursor → Cursor → Prop
  | white {c d e : Cursor} : Pauses decls s c → c.Skips d → d.behindPiece? = some e → Reads s d e
  | expression {t : Compilation δ} : Starts decls s .expression t →
    Reads s s.cursor.skipWhite (s.cursor.skipWhite.expressionEnd ';')
  | condition {k : Keyword} {t u : Compilation δ} : Starts decls s (.keyword k) t → k = .if_ ∨ k = .while_ →
    Does (expect '(' .expectedLeftParenthesis) t () u →
    Reads s u.cursor.skipWhite (u.cursor.skipWhite.expressionEnd ')')
  | firstValue {ty : ValueType} {first : String} {t u : Compilation δ} : Starts decls s (.typedef ty) t →
    Does name (move t t.cursor.skipWhite) first u → Does (checkFree decls first) u () u →
    u.cursor.skipWhite.peek = '=' → Reads s (t.cursor.skipWhite.inLine u.cursor.skipWhite.line)
      ((t.cursor.skipWhite.inLine u.cursor.skipWhite.line).expressionEnd ';')
  | segment {x : ξ} {t : Compilation δ} {c : Cursor} : Starts decls s (.external x) t →
    Segment t.cursor.skipWhite c → c.atEnd = false → Reads s c (Compiling.behindSegment c)

end Compiler

/-! ## Compiling side by side -/

/-- The instruction, of whose position only the line is told. -/
def Instruction.withoutOffset (i : Instruction) : Instruction := { i with pos := ⟨i.pos.line, 0⟩ }

/-- The program without the offsets in its source. -/
def Program.withoutOffsets (p : Program) : Program :=
  { p with instructions := p.instructions.map Instruction.withoutOffset }

namespace Compiler

/-- Compiling stops for the same reason. What the error shows of the source may differ. -/
inductive Stop.Alike : Stop → Stop → Prop
  | error {e e' : ScriptError} : e.kind = e'.kind → Stop.Alike (.error e) (.error e')
  | beyondSource : Stop.Alike .beyondSource .beyondSource

/-- Compiling ends in the same program, apart from offsets, or with an error of the same kind in the same line. -/
inductive Outcome.Alike : Outcome → Outcome → Prop
  | compiled {p p' : Program} : p.withoutOffsets = p'.withoutOffsets → Outcome.Alike (.compiled p) (.compiled p')
  | rejected {e e' : CompileError} : e.error.kind = e'.error.kind → e.pos.line = e'.pos.line →
    Outcome.Alike (.rejected e) (.rejected e')
  | beyondSource : Outcome.Alike .beyondSource .beyondSource

end Compiler

namespace Blank

open Compiler
open Compiling (behindSegment behindSegment_semicolon behindSegment_before)

variable {ξ δ α β α' β' : Type} {decls : Declarations ξ δ} {b : Blank} {s s' t t' : Compilation δ} {c c' : Cursor}

/-- The two have done the same, and are beside each other. -/
structure Abreast (b : Blank) (s s' : Compilation δ) : Prop where
  cursor : b.Beside s.cursor s'.cursor
  program : s.program.withoutOffsets = s'.program.withoutOffsets
  declared : s.declared = s'.declared

/-- The white space from a cursor on has the comment as a piece of its own, if at all. -/
def SparedFrom (b : Blank) (c : Cursor) : Prop := ∀ d e, c.Skips d → d.behindPiece? = some e → b.Spared d e

/-- Two steps end abreast, with related results, or for the same reason. -/
inductive Ends (b : Blank) (Q : α → β → Prop) : Except Stop α × Compilation δ → Except Stop β × Compilation δ → Prop
  | ok {a : α} {a' : β} {t t' : Compilation δ} : Q a a' → b.Abreast t t' → Ends b Q (.ok a, t) (.ok a', t')
  | error {e e' : Stop} {t t' : Compilation δ} : Stop.Alike e e' → b.Abreast t t' →
    Ends b Q (.error e, t) (.error e', t')

/-- From two states two steps end abreast. -/
def InStep (b : Blank) (Q : α → β → Prop) (m : Compile δ α) (m' : Compile δ β) (s s' : Compilation δ) : Prop :=
  Ends b Q (m.run.run s) (m'.run.run s')

theorem Abreast.move (h : b.Abreast s s') (hc : b.Beside c c') : b.Abreast (move s c) (move s' c') :=
  ⟨hc, h.program, h.declared⟩

theorem Abreast.size (h : b.Abreast s s') : s.program.size = s'.program.size := by
  have hlength := congrArg (fun p : Program => p.instructions.length) h.program
  simpa [Program.withoutOffsets, Program.size] using hlength

theorem Abreast.labels (h : b.Abreast s s') : s.program.labels = s'.program.labels := by
  have hlabels := congrArg Program.labels h.program
  exact hlabels

theorem Abreast.with_declared {known known' : δ} (h : b.Abreast s s') (hknown : known = known') :
    b.Abreast { s with declared := known } { s' with declared := known' } := ⟨h.cursor, h.program, hknown⟩

theorem sparedFrom_of_none (h : c.behindPiece? = none) : b.SparedFrom c := by
  intro d e hskips hpiece
  cases hskips with
  | here => exact absurd (h.symm.trans hpiece) nofun
  | next hfirst => exact absurd (h.symm.trans hfirst) nofun

namespace InStep

variable {P : α → β → Prop} {Q : α' → β' → Prop} {m : Compile δ α} {m' : Compile δ β} {f : α → Compile δ α'}
  {f' : β → Compile δ β'}

theorem pure {a : α'} {a' : β'} (hs : b.Abreast s s') (h : Q a a') : InStep b Q (Pure.pure a) (Pure.pure a') s s' :=
  .ok h hs

theorem throw {e e' : Stop} (hs : b.Abreast s s') (h : Stop.Alike e e') :
    InStep b Q (MonadExcept.throw e : Compile δ α') (MonadExcept.throw e' : Compile δ β') s s' :=
  .error h hs

theorem fail {kind : ErrorKind} {reason reason' : String} (hs : b.Abreast s s') :
    InStep b Q (Compiler.fail kind reason : Compile δ α') (Compiler.fail kind reason' : Compile δ β') s s' :=
  throw hs (.error rfl)

theorem bind (hm : InStep b P m m' s s')
    (hf : ∀ a a' t t', Does m s a t → Does m' s' a' t' → P a a' → b.Abreast t t' → InStep b Q (f a) (f' a') t t') :
    InStep b Q (m >>= f) (m' >>= f') s s' := by
  unfold InStep at hm ⊢
  rw [ExceptT.run_bind, StateT.run_bind, ExceptT.run_bind, StateT.run_bind]
  generalize hr : m.run.run s = r, hr' : m'.run.run s' = r' at hm
  cases hm with
  | ok h ht => exact hf _ _ _ _ hr hr' h ht
  | error h ht => exact .error h ht

/-- Steps come first of which it is known what they do. -/
theorem after {a : α} {a' : β} (h : Does m s a t) (h' : Does m' s' a' t') (hf : InStep b Q (f a) (f' a') t t') :
    InStep b Q (m >>= f) (m' >>= f') s s' := by
  unfold InStep at hf ⊢
  rw [ExceptT.run_bind, StateT.run_bind, ExceptT.run_bind, StateT.run_bind, show m.run.run s = _ from h,
    show m'.run.run s' = _ from h']
  exact hf

/-- A failure comes first, whatever would have come after it. -/
theorem failing {kind : ErrorKind} {reason reason' : String} (hs : b.Abreast s s') :
    InStep b Q (Compiler.fail kind reason >>= f) (Compiler.fail kind reason' >>= f') s s' :=
  .error (.error rfl) hs

theorem ite {p : Prop} [Decidable p] {m n : Compile δ α'} {m' n' : Compile δ β'} (hm : p → InStep b Q m m' s s')
    (hn : ¬p → InStep b Q n n' s s') : InStep b Q (if p then m else n) (if p then m' else n') s s' := by
  split
  · exact hm ‹p›
  · exact hn ‹¬p›

theorem look {f : Cursor → Compile δ α'} {f' : Cursor → Compile δ β'}
    (hf : InStep b Q (f s.cursor) (f' s'.cursor) s s') :
    InStep b Q (getCursor >>= f) (getCursor >>= f') s s' :=
  after (getCursor_does s) (getCursor_does s') hf

theorem goTo {f : Unit → Compile δ α'} {f' : Unit → Compile δ β'}
    (hf : InStep b Q (f ()) (f' ()) (move s c) (move s' c')) :
    InStep b Q (setCursor c >>= f) (setCursor c' >>= f') s s' :=
  after (setCursor_does s c) (setCursor_does s' c') hf

/-- White space is skipped before the compiler looks where it is. -/
theorem ahead {f : Cursor → Compile δ α'} {f' : Cursor → Compile δ β'} (hs : b.Abreast s s')
    (hspared : b.SparedFrom s.cursor)
    (hf : ∀ c c', c = s.cursor.skipWhite → c' = s'.cursor.skipWhite → b.Level c c' →
      b.Abreast (move s c) (move s' c') → InStep b Q (f c) (f' c') (move s c) (move s' c')) :
    InStep b Q (skipWhite >>= fun _ => getCursor >>= f) (skipWhite >>= fun _ => getCursor >>= f') s s' := by
  have hlevel := hs.cursor.skipWhite hspared
  exact after (skipWhite_does s) (skipWhite_does s') (look (hf _ _ rfl rfl hlevel (hs.move hlevel.beside)))

end InStep

/-! ## Reading -/

theorem name_inStep (hs : b.Abreast s s') (hspared : b.SparedFrom s.cursor) : InStep b Eq name name s s' := by
  refine .ahead hs hspared fun c c' _ _ hlevel hs => ?_
  obtain ⟨hskip, htext⟩ := hlevel.skip_name
  dsimp only
  rw [← hlevel.nameLength.1] at hskip htext ⊢
  exact .ite (fun _ => .failing hs) fun _ => .goTo (.pure (hs.move hskip) htext)

theorem expect_inStep (wanted : Char) (kind : ErrorKind) (hs : b.Abreast s s') (hspared : b.SparedFrom s.cursor) :
    InStep b Eq (expect wanted kind) (expect wanted kind) s s' := by
  refine .ahead hs hspared fun c c' _ _ hlevel hs => ?_
  rw [← hlevel.peek]
  exact .ite (fun _ => .failing hs) fun _ => .ok rfl (hs.move hlevel.skip_one)

theorem expression_inStep {ending : Char} (hs : b.Abreast s s') (hwhite : b.SparedFrom s.cursor)
    (htext : b.Spared s.cursor.skipWhite (s.cursor.skipWhite.expressionEnd ending)) :
    InStep b Eq (expression ending) (expression ending) s s' := by
  refine .ahead hs hwhite fun c c' hc _ hlevel hs => ?_
  rw [← hc] at htext
  have hstops := hlevel.expression htext
  dsimp only at hstops ⊢
  generalize Cursor.toExpressionEnd _ _ _ _ c = r at hstops ⊢
  generalize Cursor.toExpressionEnd _ _ _ _ c' = r' at hstops ⊢
  obtain ⟨stop, obstacle⟩ := r
  obtain ⟨stop', obstacle'⟩ := r'
  obtain ⟨hstop, hobstacle, htext⟩ := hstops
  obtain rfl : obstacle = obstacle' := hobstacle
  refine .goTo ?_
  cases obstacle with
  | none => exact .pure (hs.move hstop) (congrArg trimEnd htext)
  | some e => exact .throw (hs.move hstop) (.error rfl)

/-- Behind the segments no white space is left. -/
theorem segments_stop {s : Compilation δ} (hs : s.cursor.behindPiece? = none) (n : Nat) (text : String) :
    (stateAfter (segments n text) s).cursor.behindPiece? = none := by
  induction n generalizing s text with
  | zero => exact hs
  | succ n ih =>
    by_cases hend : s.cursor.atEnd = true
    · have hnil : s.cursor.rest = [] := List.isEmpty_iff.mp hend
      rw [segments, stateAfter_look]
      dsimp only
      rw [if_pos hend, stateAfter_goTo]
      change Cursor.behindPiece? ⟨s.cursor.rest.tail, _, _⟩ = none
      rw [hnil]
      rfl
    obtain ⟨text', heq⟩ := segments_stateAfter hend n text
    have hstop := Cursor.behindPiece_skipWhite (behindSegment s.cursor)
    rw [heq]
    generalize (behindSegment s.cursor).skipWhite = c at hstop ⊢
    split
    · exact hstop
    · exact ih (s := move s c) hstop text'

/-- Segments are the same texts, whatever the number of them that was allowed for. -/
theorem segments_inStep {n n' : Nat} (hs : b.Abreast s s') (hlevel : b.Level s.cursor s'.cursor)
    (hn : s.cursor.rest.length < n) (hn' : s'.cursor.rest.length < n')
    (htext : ∀ c, Segment s.cursor c → c.atEnd = false → b.Spared c (behindSegment c))
    (hwhite : ∀ c, Segment s.cursor c → c.atEnd = false → b.SparedFrom (behindSegment c)) (text : String) :
    InStep b Eq (segments n text) (segments n' text) s s' := by
  induction n generalizing s s' n' text with
  | zero => cases hn
  | succ n ih =>
    obtain ⟨n', rfl⟩ := Nat.exists_eq_succ_of_ne_zero (Nat.ne_zero_of_lt hn')
    rw [segments, segments]
    refine .look ?_
    rw [← hlevel.atEnd]
    by_cases hend : s.cursor.atEnd = true
    · rw [if_pos hend, if_pos hend]
      exact .goTo (.throw (hs.move hlevel.advance) .beyondSource)
    rw [if_neg hend, if_neg hend]
    have hend := Bool.eq_false_iff.mpr hend
    have hend' := hlevel.atEnd ▸ hend
    obtain ⟨hbehind, hsegment⟩ := hlevel.segment (htext _ (.first _) hend)
    change InStep b Eq (do
        setCursor (behindSegment s.cursor)
        skipWhite
        let c ← getCursor
        if c.atEnd || c.peek == ';' then return text ++ s.cursor.segmentText
        else segments n (text ++ s.cursor.segmentText)) (do
        setCursor (behindSegment s'.cursor)
        skipWhite
        let c ← getCursor
        if c.atEnd || c.peek == ';' then return text ++ s'.cursor.segmentText
        else segments n' (text ++ s'.cursor.segmentText)) s s'
    rw [← hsegment]
    refine .goTo (.ahead (hs.move hbehind) (hwhite _ (.first _) hend) fun c c' hc hc' hlevel' hs => ?_)
    rw [move_cursor] at hc hc'
    rw [← hlevel'.atEnd, ← hlevel'.peek]
    refine .ite (fun _ => .pure hs rfl) fun hgo => ?_
    -- a segment that takes nothing is at the semicolon, and the last one
    have hsemi : s.cursor.peek ≠ ';' := fun h => hgo (by simp [hc, behindSegment_semicolon h, h])
    have hshort := ((behindSegment_before hend hsemi).trans (Cursor.skipWhite_upto _)).rest_lt hend
    have hshort' := ((behindSegment_before hend' (hlevel.peek ▸ hsemi)).trans (Cursor.skipWhite_upto _)).rest_lt hend'
    have hmore (d : Cursor) (hd : Segment c d) : Segment s.cursor d := by
      rw [hc] at hd hgo
      exact .next hend hgo hd
    rw [← hc] at hshort
    rw [← hc'] at hshort'
    exact ih hs hlevel' (by rw [move_cursor]; omega) (by rw [move_cursor]; omega)
      (fun c hc => htext c (hmore c hc)) (fun c hc => hwhite c (hmore c hc)) _

theorem externalText_inStep (hs : b.Abreast s s') (hstart : b.SparedFrom s.cursor)
    (htext : ∀ c, Segment s.cursor.skipWhite c → c.atEnd = false → b.Spared c (behindSegment c))
    (hwhite : ∀ c, Segment s.cursor.skipWhite c → c.atEnd = false → b.SparedFrom (behindSegment c)) :
    InStep b Eq externalText externalText s s' := by
  refine .ahead hs hstart fun c c' hc _ hlevel hs => ?_
  rw [← hc] at htext hwhite
  refine (segments_inStep hs hlevel (Nat.lt_succ_self _) (Nat.lt_succ_self _) htext hwhite "").bind ?_
  rintro text _ t t' hdone - rfl ht
  have hsolid : (move s c).cursor.behindPiece? = none := by
    rw [move_cursor, hc]
    exact Cursor.behindPiece_skipWhite _
  have hlevel : b.Level t.cursor t'.cursor := ht.cursor.level_of_none <| by
    rw [← hdone.stateAfter]
    exact segments_stop hsolid _ _
  refine .look ?_
  rw [← hlevel.atEnd]
  refine .ite (fun _ => .failing ht) fun _ => ?_
  exact .ok rfl (ht.move hlevel.skip_one)

theorem checkFree_inStep (name : String) (hs : b.Abreast s s') :
    InStep b Eq (checkFree decls name) (checkFree decls name) s s' := by
  refine .after (Does.get s) (Does.get s') ?_
  have hlabel : s.program.labelIp? name = s'.program.labelIp? name := by
    unfold Program.labelIp?
    rw [hs.labels]
  rw [← hs.declared, ← hlabel]
  exact .ite (fun _ => .fail hs) fun _ => .pure hs rfl

/-- A name comes first that is free. -/
theorem newName_inStep {Q : α' → β' → Prop} {f : String → Compile δ α'} {f' : String → Compile δ β'}
    (hs : b.Abreast s s') (hspared : b.SparedFrom s.cursor)
    (hf : ∀ first t t', Does name s first t → Does (checkFree decls first) t () t → b.Abreast t t' →
      InStep b Q (f first) (f' first) t t') :
    InStep b Q (name >>= fun first => checkFree decls first >>= fun _ => f first)
      (name >>= fun first => checkFree decls first >>= fun _ => f' first) s s' := by
  refine (name_inStep hs hspared).bind ?_
  rintro first _ t t' hname - rfl ht
  refine (checkFree_inStep first ht).bind ?_
  rintro _ _ u u' hfree - - hu
  obtain ⟨rfl, -⟩ := checkFree_done hfree
  exact hf first u u' hname hfree hu

theorem elseFollows_inStep (hs : b.Abreast s s') (hwhite : b.SparedFrom s.cursor) :
    InStep b Eq (elseFollows decls) (elseFollows decls) s s' := by
  refine .ahead hs hwhite fun c c' _ _ hlevel hs => ?_
  obtain ⟨hskip, htext⟩ := hlevel.skip_name
  dsimp only
  rw [← hlevel.nameLength.1] at hskip htext ⊢
  refine .ite (fun _ => .pure hs rfl) fun _ => .after (Does.get _) (Does.get _) ?_
  rw [← htext, ← hs.declared]
  generalize decls.meaning _ _ = meaning
  cases meaning with
  | keyword k =>
    cases k with
    | else_ => exact .goTo (.pure (hs.move hskip) rfl)
    | _ => exact .pure hs rfl
  | _ => exact .pure hs rfl

/-! ## Emitting -/

theorem Abreast.instructions (h : b.Abreast s s') :
    s.program.instructions.map Instruction.withoutOffset = s'.program.instructions.map Instruction.withoutOffset := by
  have hinstructions := congrArg Program.instructions h.program
  exact hinstructions

theorem Abreast.with_instructions {code code' : List Instruction} (h : b.Abreast s s')
    (hcode : code.map Instruction.withoutOffset = code'.map Instruction.withoutOffset) :
    b.Abreast { s with program := ⟨code, s.program.labels⟩ } { s' with program := ⟨code', s'.program.labels⟩ } :=
  ⟨h.cursor, congrArg₂ Program.mk hcode h.labels, h.declared⟩

theorem emit_inStep {pos pos' : SourcePos} (opcode : Opcode) (target : Option Int) (text : String)
    (hs : b.Abreast s s') (hpos : pos.line = pos'.line) :
    InStep b Eq (emit opcode target text pos) (emit opcode target text pos') s s' := by
  refine .ok hs.size (hs.with_instructions ?_)
  rw [List.map_append, List.map_append, hs.instructions, hs.size]
  simp [Instruction.withoutOffset, hpos]

/-- What is done to one instruction is not seen apart from the offsets, if nothing of it is an offset. -/
theorem map_modify {l : List Instruction} (f : Instruction → Instruction)
    (hf : ∀ i, (f i).withoutOffset = f i.withoutOffset) (n : Nat) :
    (l.modify n f).map Instruction.withoutOffset = (l.map Instruction.withoutOffset).modify n f := by
  refine List.ext_getElem? fun i => ?_
  rw [List.getElem?_map, List.getElem?_modify, List.getElem?_modify, List.getElem?_map]
  cases l[i]? with
  | none => rfl
  | some x =>
    by_cases hi : n = i
    · simp [hi, hf]
    · simp [hi]

theorem setTarget_inStep {ip ip' target target' : Nat} (hs : b.Abreast s s') (hip : ip = ip')
    (htarget : target = target') : InStep b Eq (setTarget ip target) (setTarget ip' target') s s' := by
  subst hip htarget
  refine .ok rfl (hs.with_instructions ?_)
  rw [map_modify (fun i => { i with target := target }) fun _ => rfl,
    map_modify (fun i => { i with target := target }) fun _ => rfl, hs.instructions]

theorem patchFrom_inStep {start start' : Nat} {f f' : Instruction → Instruction} (hs : b.Abreast s s')
    (hstart : start = start') (hff : f = f') (hf : ∀ i, (f i).withoutOffset = f i.withoutOffset) :
    InStep b Eq (patchFrom start f) (patchFrom start' f') s s' := by
  subst hstart hff
  have hcomm : Instruction.withoutOffset ∘ f = f ∘ Instruction.withoutOffset := funext hf
  refine .ok rfl (hs.with_instructions ?_)
  simp only [List.map_append, List.map_take, List.map_map, hcomm]
  simp only [← List.map_map, List.map_drop, hs.instructions]

theorem claim_withoutOffset (start stop : Nat) (i : Instruction) :
    (claim start stop i).withoutOffset = claim start stop i.withoutOffset := by
  obtain ⟨opcode, target, text, pos⟩ := i
  cases opcode <;> rfl

/-! ## Statements side by side -/

variable (b decls) in
/-- The comment does not start inside of what is read from a statement on. -/
def Clears (s : Compilation δ) : Prop := ∀ t c d, Reaches decls s t → Reads decls t c d → b.Spared c d

variable (b decls) in
/-- Statements with less than some bytes before them are compiled side by side. -/
def StatementsInStep (size : Nat) : Prop :=
  ∀ s s' : Compilation δ, s.cursor.rest.length < size → b.Abreast s s' → b.Clears decls s →
    InStep b Eq (statementHere decls) (statementHere decls) s s'

theorem Clears.white (h : b.Clears decls s) (hpause : Pauses decls s c) : b.SparedFrom c :=
  fun _ _ hskips hpiece => h _ _ _ (.here s) (.white hpause hskips hpiece)

theorem Clears.text {d : Cursor} (h : b.Clears decls s) (hreads : Reads decls s c d) : b.Spared c d :=
  h _ _ _ (.here s) hreads

/-- Many statements end with a delimiter, and then add an instruction. -/
theorem delimited_inStep {pos pos' : SourcePos} (opcode : Opcode) (target : Option Int) (text : String)
    (hs : b.Abreast s s') (hpos : pos.line = pos'.line) (hwhite : b.SparedFrom s.cursor) :
    InStep b Eq
      (do
        expectDelimiter
        let _ ← emit opcode target text pos)
      (do
        expectDelimiter
        let _ ← emit opcode target text pos') s s' := by
  refine (expect_inStep ';' .expectedDelimiter hs hwhite).bind ?_
  rintro _ _ t t' - - - ht
  refine (emit_inStep opcode target text ht hpos).bind ?_
  exact fun _ _ u u' _ _ _ hu => .pure hu rfl

theorem expressionStatement_inStep {pos pos' : SourcePos} (hs : b.Abreast s s') (hpos : pos.line = pos'.line)
    (hwhite : b.SparedFrom s.cursor) (htext : b.Spared s.cursor.skipWhite (s.cursor.skipWhite.expressionEnd ';')) :
    InStep b Eq (expressionStatement pos) (expressionStatement pos') s s' := by
  refine (expression_inStep hs hwhite htext).bind ?_
  rintro text _ t t' htext - rfl ht
  have hsolid := Cursor.behindPiece_of_peek (expression_stops htext) (by decide) (by decide)
  exact delimited_inStep .calc none text ht hpos (sparedFrom_of_none hsolid)

theorem condition_inStep {pos pos' : SourcePos} (hs : b.Abreast s s') (hpos : pos.line = pos'.line)
    (hstart : b.SparedFrom s.cursor)
    (hinner : ∀ t, Does (expect '(' .expectedLeftParenthesis) s () t →
      b.SparedFrom t.cursor ∧ b.Spared t.cursor.skipWhite (t.cursor.skipWhite.expressionEnd ')')) :
    InStep b Eq (condition pos) (condition pos') s s' := by
  refine (expect_inStep '(' .expectedLeftParenthesis hs hstart).bind ?_
  rintro _ _ t t' hparen - - ht
  obtain ⟨hwhite, htext⟩ := hinner t hparen
  refine (expression_inStep ht hwhite htext).bind ?_
  rintro text _ u u' htext - rfl hu
  have hsolid := Cursor.behindPiece_of_peek (expression_stops htext) (by decide) (by decide)
  have hlevel := hu.cursor.level_of_none hsolid
  refine .after (.modify _ _) (.modify _ _) ?_
  exact emit_inStep .jumpIfZero none text (hu.move hlevel.skip_one) hpos

theorem label_inStep (hs : b.Abreast s s') (hstart : b.SparedFrom s.cursor)
    (hbehind : ∀ first t, Does name s first t → Does (checkFree decls first) t () t → b.SparedFrom t.cursor) :
    InStep b Eq (label decls) (label decls) s s' := by
  refine newName_inStep hs hstart fun first t t' hname hfree ht => ?_
  refine (expect_inStep ';' .expectedDelimiter ht (hbehind first t hname hfree)).bind ?_
  rintro _ _ u u' - - - hu
  have hlabels := congrArg₂ (fun (labels : List Label) (size : Nat) => labels ++ [⟨first, size⟩]) hu.labels hu.size
  exact .ok rfl ⟨hu.cursor, congrArg₂ Program.mk hu.instructions hlabels, hu.declared⟩

/-- The first value is read again from the name on. -/
theorem declaration_inStep (ty : ValueType) (hs : b.Abreast s s') (hstart : b.SparedFrom s.cursor)
    (hbehind : ∀ first t, Does name (move s s.cursor.skipWhite) first t → Does (checkFree decls first) t () t →
      b.SparedFrom t.cursor ∧ (t.cursor.skipWhite.peek = '=' →
        let c := s.cursor.skipWhite.inLine t.cursor.skipWhite.line
        b.Spared c (c.expressionEnd ';'))) :
    InStep b Eq (declaration decls ty) (declaration decls ty) s s' := by
  have hsolid := Cursor.behindPiece_skipWhite s.cursor
  refine .ahead hs hstart fun c c' hc _ hlevel hs => ?_
  rw [← hc] at hbehind hsolid
  refine newName_inStep hs (sparedFrom_of_none hsolid) fun first t t' hname hfree ht => ?_
  obtain ⟨hwhite, hvalue⟩ := hbehind first t hname hfree
  have ht := ht.with_declared (congrArg (decls.declare first ty) ht.declared)
  refine .after (.modify _ _) (.modify _ _) (.ahead ht hwhite fun d d' hd _ hlevel' ht => ?_)
  dsimp only at hd
  rw [← hlevel'.peek]
  refine .ite (fun hsign => ?_) fun _ => ?_
  · rw [beq_iff_eq, hd] at hsign
    -- back at the name the cursor has the line of the sign, which is the same on either side
    have hvalue := hvalue hsign
    rw [← hd] at hvalue
    have hsolid := Cursor.behindPiece_inLine hsolid d.line
    refine .after (.modify _ _) (.modify _ _) (expressionStatement_inStep ?_ hlevel.beside.line ?_ ?_)
    · exact ht.move (hlevel.beside.inLine hlevel'.beside.line)
    · exact sparedFrom_of_none hsolid
    · change b.Spared (c.inLine d.line).skipWhite ((c.inLine d.line).skipWhite.expressionEnd ';')
      rw [Cursor.skipWhite_of_none hsolid]
      exact hvalue
  · refine expect_inStep ';' .expectedDelimiter ht (sparedFrom_of_none ?_)
    rw [move_cursor, hd]
    exact Cursor.behindPiece_skipWhite _

theorem externalStatement_inStep (x : ξ) (hs : b.Abreast s s') (hstart : b.SparedFrom s.cursor)
    (htext : ∀ c, Segment s.cursor.skipWhite c → c.atEnd = false → b.Spared c (behindSegment c))
    (hwhite : ∀ c, Segment s.cursor.skipWhite c → c.atEnd = false → b.SparedFrom (behindSegment c)) :
    InStep b Eq (externalStatement decls x) (externalStatement decls x) s s' := by
  refine (externalText_inStep hs hstart htext hwhite).bind ?_
  rintro text _ t t' - - rfl ht
  refine .after (Does.get t) (Does.get t') ?_
  rw [← ht.declared]
  generalize decls.external x text t.declared = outcome
  obtain ⟨declared, accepted⟩ := outcome
  have hu := ht.with_declared (Eq.refl declared)
  exact .after (.modify _ _) (.modify _ _) (.ite (fun _ => .fail hu) fun _ => .pure hu rfl)

/-! ## Statements inside of others -/

section Nested

variable {r : Compilation δ} {size : Nat} {pos' : SourcePos}

theorem guard_inStep {k : Keyword} (hstarts : Starts decls r (.keyword k) s) (hk : k = .if_ ∨ k = .while_)
    (hclears : b.Clears decls r) (hs : b.Abreast s s') (hpos : r.cursor.skipWhite.line = pos'.line) :
    InStep b Eq (condition r.cursor.skipWhite.pos) (condition pos') s s' := by
  have hplain : k ≠ .else_ ∧ k ≠ .external := by
    rcases hk with rfl | rfl <;> decide
  refine condition_inStep hs hpos (hclears.white (.keyword hstarts hplain.1 hplain.2)) fun t hparen => ?_
  exact ⟨hclears.white (.condition hstarts hk hparen), hclears.text (.condition hstarts hk hparen)⟩

theorem whileStatement_inStep (hinside : b.StatementsInStep decls size) (hsize : s.cursor.rest.length < size)
    (hstarts : Starts decls r (.keyword .while_) s) (hclears : b.Clears decls r) (hs : b.Abreast s s')
    (hpos : r.cursor.skipWhite.line = pos'.line) :
    InStep b Eq (whileStatement (statementHere decls) r.cursor.skipWhite.pos)
      (whileStatement (statementHere decls) pos') s s' := by
  refine (guard_inStep hstarts (.inr rfl) hclears hs hpos).bind ?_
  rintro test _ t t' hcond - rfl ht
  have hbody : b.Clears decls t := fun v c d hv => hclears v c d (.body hstarts (.inr rfl) hcond hv)
  have hless := Nat.lt_of_le_of_lt (Compiling.condition_upto hcond).rest_le hsize
  refine (hinside t t' hless ht hbody).bind ?_
  rintro _ _ u u' - - - hu
  refine .look ((emit_inStep .jump (some test) "" hu hu.cursor.line).bind ?_)
  rintro _ _ v v' - - - hv
  refine .after (Compiling.nextIp_does v) (Compiling.nextIp_does v') ((setTarget_inStep hv rfl hv.size).bind ?_)
  rintro _ _ w w' - - - hw
  exact patchFrom_inStep hw rfl (by rw [hv.size]) (claim_withoutOffset test _)

theorem ifStatement_inStep (hinside : b.StatementsInStep decls size) (hsize : s.cursor.rest.length < size)
    (hstarts : Starts decls r (.keyword .if_) s) (hclears : b.Clears decls r) (hs : b.Abreast s s')
    (hpos : r.cursor.skipWhite.line = pos'.line) :
    InStep b Eq (ifStatement decls (statementHere decls) r.cursor.skipWhite.pos)
      (ifStatement decls (statementHere decls) pos') s s' := by
  refine (guard_inStep hstarts (.inl rfl) hclears hs hpos).bind ?_
  rintro test _ t t' hcond - rfl ht
  have hbody : b.Clears decls t := fun v c d hv => hclears v c d (.body hstarts (.inl rfl) hcond hv)
  have hless := Nat.lt_of_le_of_lt (Compiling.condition_upto hcond).rest_le hsize
  refine (hinside t t' hless ht hbody).bind ?_
  rintro _ _ u u' hthen - - hu
  refine .after (Compiling.nextIp_does u) (Compiling.nextIp_does u') ((setTarget_inStep hu rfl hu.size).bind ?_)
  rintro _ _ v v' hset - - hv
  refine .look ((emit_inStep .jump none "" hv hv.cursor.line).bind ?_)
  rintro skip _ w w' hemit - rfl hw
  -- the white space before an `else` is that behind the first statement
  have hcursor : w.cursor = u.cursor := by
    obtain ⟨-, rfl⟩ := (Compiling.setTarget_does _ _ u).unique hset
    obtain ⟨-, rfl⟩ := (Compiling.emit_does _ _ _ _ _).unique hemit
    rfl
  refine (elseFollows_inStep hw (hcursor ▸ hbody.white (.done hthen))).bind ?_
  rintro follows _ x x' helse - rfl hx
  refine .ite (fun hfollows => ?_) fun _ => .pure hx rfl
  have hupTo : Does (upToElse decls r.cursor.skipWhite.pos) s true x := by
    rw [hfollows] at helse
    refine hcond.bind (hthen.bind ((Compiling.nextIp_does u).bind ?_))
    exact hset.bind ((getCursor_does v).bind (hemit.bind helse))
  have hother : b.Clears decls x := fun v c d hv => hclears v c d (.other hstarts hupTo hv)
  have hless := Nat.lt_of_le_of_lt (upToElse_upto hupTo).rest_le hsize
  refine (hinside x x' hless hx hother).bind ?_
  rintro _ _ y y' - - - hy
  refine (setTarget_inStep hy rfl rfl).bind ?_
  rintro _ _ z z' - - - hz
  exact .after (Compiling.nextIp_does z) (Compiling.nextIp_does z') (setTarget_inStep hz rfl hz.size)

theorem keyword_inStep {k : Keyword} (hinside : b.StatementsInStep decls size) (hsize : s.cursor.rest.length < size)
    (hstarts : Starts decls r (.keyword k) s) (hclears : b.Clears decls r) (hs : b.Abreast s s')
    (hpos : r.cursor.skipWhite.line = pos'.line) :
    InStep b Eq (keyword decls (statementHere decls) k r.cursor.skipWhite.pos)
      (keyword decls (statementHere decls) k pos') s s' := by
  have hwhite (helse : k ≠ .else_) (hexternal : k ≠ .external) : b.SparedFrom s.cursor :=
    hclears.white (.keyword hstarts helse hexternal)
  have hjump (opcode : Opcode) (hk : k = .goto ∨ k = .gosub) (hname : b.SparedFrom s.cursor) :
      InStep b Eq
        (do
          let target ← name
          expectDelimiter
          let _ ← emit opcode (some (-1)) target r.cursor.skipWhite.pos)
        (do
          let target ← name
          expectDelimiter
          let _ ← emit opcode (some (-1)) target pos') s s' := by
    refine (name_inStep hs hname).bind ?_
    rintro target _ t t' htarget - rfl ht
    exact delimited_inStep opcode (some (-1)) target ht hpos (hclears.white (.target hstarts hk htarget))
  cases k with
  | if_ => exact ifStatement_inStep hinside hsize hstarts hclears hs hpos
  | while_ => exact whileStatement_inStep hinside hsize hstarts hclears hs hpos
  | break_ => exact delimited_inStep .leave (some (-1)) "" hs hpos (hwhite nofun nofun)
  | continue_ => exact delimited_inStep .again (some (-1)) "" hs hpos (hwhite nofun nofun)
  | goto => exact hjump .goto (.inl rfl) (hwhite nofun nofun)
  | gosub => exact hjump .call (.inr rfl) (hwhite nofun nofun)
  | return_ => exact delimited_inStep .ret none "" hs hpos (hwhite nofun nofun)
  | else_ | external => exact .fail hs

theorem block_inStep {n n' : Nat} (hinside : b.StatementsInStep decls size) (hsize : s.cursor.rest.length < size)
    (hn : s.cursor.rest.length < n) (hn' : s'.cursor.rest.length < n') (hs : b.Abreast s s')
    (hwhite : b.SparedFrom s.cursor) (hclears : inBlock s.cursor.skipWhite = true →
      ∀ t, Sequel decls inBlock (move s s.cursor.skipWhite) t → b.Clears decls t) :
    InStep b Eq (block (statementHere decls) n) (block (statementHere decls) n') s s' := by
  induction n generalizing s s' n' with
  | zero => cases hn
  | succ n ih =>
    obtain ⟨n', rfl⟩ := Nat.exists_eq_succ_of_ne_zero (Nat.ne_zero_of_lt hn')
    rw [block, block]
    refine .ahead hs hwhite fun c c' hc hc' hlevel hs => ?_
    have hle : c.rest.length ≤ s.cursor.rest.length := hc ▸ (Cursor.skipWhite_upto _).rest_le
    have hle' : c'.rest.length ≤ s'.cursor.rest.length := hc' ▸ (Cursor.skipWhite_upto _).rest_le
    rw [← hc] at hclears
    rw [← hlevel.atEnd, ← hlevel.peek]
    refine .ite (fun _ => .failing hs) fun hend => .ite (fun _ => .ok rfl (hs.move hlevel.skip_one)) fun hclose => ?_
    -- the sources differ in length, so each has its own number of steps, and on either side one statement takes some
    have hclears := hclears (by simp_all [inBlock])
    have hfirst := hclears _ (.first _)
    refine (hinside (move s c) (move s' c') (Nat.lt_of_le_of_lt hle hsize) hs hfirst).bind ?_
    rintro _ _ t t' hdone hdone' - ht
    have hend := Bool.eq_false_iff.mpr hend
    have hend' := hlevel.atEnd ▸ hend
    have hshort : t.cursor.rest.length < c.rest.length :=
      ((statementHere_forward decls).before hdone hend).rest_lt hend
    have hshort' : t'.cursor.rest.length < c'.rest.length :=
      ((statementHere_forward decls).before hdone' hend').rest_lt hend'
    exact ih (by omega) (by omega) (by omega) ht (hfirst.white (.done hdone))
      fun hmore u hu => hclears u (.next hdone hmore hu)

theorem statementWith_inStep (hinside : b.StatementsInStep decls s.cursor.rest.length) (hs : b.Abreast s s')
    (hclears : b.Clears decls s) :
    InStep b Eq (statementWith decls (statementHere decls)) (statementWith decls (statementHere decls)) s s' := by
  have hsolid := Cursor.behindPiece_skipWhite s.cursor
  refine .ahead hs (hclears.white .start) fun c c' hc hc' hlevel hs => ?_
  rw [← hc] at hsolid
  have hle : c.rest.length ≤ s.cursor.rest.length := hc ▸ (Cursor.skipWhite_upto _).rest_le
  have hsign (hpeek : c.peek = '\x7b' ∨ c.peek = ':') : b.SparedFrom (c.skip 1) := by
    rw [hc] at hpeek ⊢
    exact hclears.white (.sign hpeek)
  rw [← hlevel.atEnd, ← hlevel.peek]
  refine .ite (fun _ => .pure hs rfl) fun hend => .ite (fun _ => .ok rfl (hs.move hlevel.skip_one)) fun _ => ?_
  have hshort := (Cursor.skip_before c Nat.one_pos).rest_lt (Bool.eq_false_iff.mpr hend)
  have hshort' := (Cursor.skip_upto c' 1).rest_le
  refine .ite (fun hbrace => ?_) fun _ => .ite (fun hcolon => ?_) fun _ => .ite (fun hstart => ?_) fun _ => .fail hs
  · have hbrace := beq_iff_eq.mp hbrace
    refine .goTo (block_inStep hinside ?_ ?_ ?_ (hs.move hlevel.skip_one) (hsign (.inl hbrace)) ?_)
    · exact Nat.lt_of_lt_of_le hshort hle
    · exact Nat.lt_succ_of_lt hshort
    · exact Nat.lt_succ_of_le hshort'
    · intro hgo t ht v d e hv
      rw [move_cursor, hc] at hgo ht
      exact hclears v d e (.block (hc ▸ hbrace) hgo ht hv)
  · have hcolon := beq_iff_eq.mp hcolon
    refine .goTo (label_inStep (hs.move hlevel.skip_one) (hsign (.inr hcolon)) fun first t hname hfree => ?_)
    rw [hc] at hname hcolon
    exact hclears.white (.label hcolon hname hfree)
  refine (name_inStep hs (sparedFrom_of_none hsolid)).bind ?_
  rintro first _ t t' hname - rfl ht
  refine .after (Does.get t) (Does.get t') ?_
  rw [← ht.declared]
  generalize hm : decls.meaning t.declared first = m
  rw [hc] at hstart hname
  have hstarts : Starts decls s m t := ⟨hstart, first, hname, hm⟩
  cases m with
  | unknown | reserved => exact .fail ht
  | keyword k =>
    dsimp only
    rw [hc]
    refine keyword_inStep hinside hstarts.rest_lt hstarts hclears ht ?_
    rw [← hc]
    exact hlevel.beside.line
  | external x =>
    refine externalStatement_inStep x ht (hclears.white (.external hstarts)) (fun d hd hend => ?_) fun d hd hend => ?_
    · exact hclears.text (.segment hstarts hd hend)
    · exact hclears.white (.segment hstarts hd hend)
  | typedef ty =>
    refine declaration_inStep ty ht (hclears.white (.typedef hstarts)) fun first u hname hfree => ?_
    exact ⟨hclears.white (.declared hstarts hname hfree),
      fun hsign => hclears.text (.firstValue hstarts hname hfree hsign)⟩
  | expression =>
    have htext : b.Spared c.skipWhite (c.skipWhite.expressionEnd ';') := by
      rw [Cursor.skipWhite_of_none hsolid, hc]
      exact hclears.text (.expression hstarts)
    have hbehind := ht.move hlevel.beside
    exact .goTo (expressionStatement_inStep hbehind hlevel.beside.line (sparedFrom_of_none hsolid) htext)

end Nested

/-- By induction on what is left of the source with the comment. -/
theorem statementsInStep (b : Blank) (decls : Declarations ξ δ) (size : Nat) : b.StatementsInStep decls size := by
  induction size with
  | zero => exact nofun
  | succ size ih =>
    intro s s' hsize hs hclears
    unfold InStep
    rw [statementHere_eq, statementHere_eq]
    refine statementWith_inStep (fun t t' hless => ih t t' ?_) hs hclears
    omega

theorem statements_inStep {n n' : Nat} (hn : s.cursor.rest.length < n) (hn' : s'.cursor.rest.length < n')
    (hs : b.Abreast s s') (hclears : ∀ t, Sequel decls inSource s t → b.Clears decls t) :
    InStep b Eq (statements (statementHere decls) n) (statements (statementHere decls) n') s s' := by
  induction n generalizing s s' n' with
  | zero => cases hn
  | succ n ih =>
    obtain ⟨n', rfl⟩ := Nat.exists_eq_succ_of_ne_zero (Nat.ne_zero_of_lt hn')
    rw [statements, statements]
    have hfirst := hclears s (.first s)
    refine (statementsInStep b decls _ s s' (Nat.lt_succ_self _) hs hfirst).bind ?_
    rintro _ _ t t' hdone hdone' - ht
    refine .ahead ht (hfirst.white (.done hdone)) fun c c' hc hc' hlevel ht => ?_
    rw [← hlevel.atEnd]
    refine .ite (fun _ => .pure ht rfl) fun hend => ?_
    have hupto : t.cursor.Upto c := hc ▸ Cursor.skipWhite_upto _
    have hupto' : t'.cursor.Upto c' := hc' ▸ Cursor.skipWhite_upto _
    have hend := Bool.eq_false_iff.mpr hend
    have hstart := Compiling.not_atEnd_of_upto (((statementHere_forward decls).upto hdone).trans hupto) hend
    have hstart' := Compiling.not_atEnd_of_upto (((statementHere_forward decls).upto hdone').trans hupto')
      (hlevel.atEnd ▸ hend)
    have hshort := (((statementHere_forward decls).before hdone hstart).trans hupto).rest_lt hstart
    have hshort' := (((statementHere_forward decls).before hdone' hstart').trans hupto').rest_lt hstart'
    refine ih (by rw [move_cursor]; omega) (by rw [move_cursor]; omega) ht ?_
    intro u hu
    refine hclears u (.next hdone ?_ ?_)
    · rw [← hc, inSource, hend]
      rfl
    · rwa [← hc]

end Blank

namespace Compiler

variable {ξ δ : Type} {decls : Declarations ξ δ} {s t : Compilation δ} {c d : Cursor}

/-! ## Where statements read -/

theorem Starts.upto {m : Meaning ξ} (h : Starts decls s m t) : s.cursor.Upto t.cursor := by
  obtain ⟨-, first, hname, -⟩ := h
  exact (Cursor.skipWhite_upto s.cursor).trans (name_taken hname).1.upto

theorem behindSegment_upto (hend : c.atEnd = false) : c.Upto (Compiling.behindSegment c) := by
  by_cases hsemi : c.peek = ';'
  · rw [show Compiling.behindSegment c = c by simp [Compiling.behindSegment, Cursor.toDelimiter, hsemi]]
    exact .rfl
  · exact (Compiling.behindSegment_before hend hsemi).upto

theorem Segment.upto (h : Segment c d) : c.Upto d := by
  induction h with
  | first => exact .rfl
  | next hend _ _ ih => exact (behindSegment_upto hend).trans ((Cursor.skipWhite_upto _).trans ih)

theorem Pauses.upto (h : Pauses decls s c) : s.cursor.Upto c := by
  cases h with
  | start => exact .rfl
  | sign => exact (Cursor.skipWhite_upto _).trans (Cursor.skip_upto _ 1)
  | label _ hname => exact (Cursor.skipWhite_upto _).trans ((Cursor.skip_upto _ 1).trans (name_taken hname).1.upto)
  | keyword hstarts | typedef hstarts | external hstarts => exact hstarts.upto
  | target hstarts _ hname => exact hstarts.upto.trans (name_taken hname).1.upto
  | condition hstarts _ hparen => exact hstarts.upto.trans (expect_taken hparen).1.upto
  | declared hstarts hname =>
    exact hstarts.upto.trans ((Cursor.skipWhite_upto _).trans (name_taken hname).1.upto)
  | segment hstarts hsegment hend =>
    exact hstarts.upto.trans ((Cursor.skipWhite_upto _).trans (hsegment.upto.trans (behindSegment_upto hend)))
  | done hdone => exact (statementHere_forward decls).upto hdone

/-- What a statement reads is not before it. -/
theorem Reads.offset_le (h : Reads decls s c d) : s.cursor.offset ≤ c.offset := by
  cases h with
  | white hpause hskips => exact (hpause.upto.trans hskips.upto).offset
  | expression => exact (Cursor.skipWhite_upto _).offset
  | condition hstarts hk hparen =>
    exact (hstarts.upto.trans ((expect_taken hparen).1.upto.trans (Cursor.skipWhite_upto _))).offset
  | @firstValue ty first t u hstarts => exact (hstarts.upto.trans (Cursor.skipWhite_upto t.cursor)).offset
  | segment hstarts hsegment => exact (hstarts.upto.trans ((Cursor.skipWhite_upto _).trans hsegment.upto)).offset

/-- Nor is a statement inside of it before it. -/
theorem Reaches.upto (h : Reaches decls s t) : s.cursor.Upto t.cursor := by
  induction h with
  | here => exact .rfl
  | block _ _ hsequel _ ih =>
    have hblock := hsequel.upto
    rw [move_cursor] at hblock
    refine (Cursor.skipWhite_upto _).trans ((Cursor.skip_upto _ 1).trans ?_)
    exact (Cursor.skipWhite_upto _).trans (hblock.trans ih)
  | body hstarts _ hcond _ ih => exact hstarts.upto.trans ((Compiling.condition_upto hcond).trans ih)
  | other hstarts hupTo _ ih => exact hstarts.upto.trans ((upToElse_upto hupTo).trans ih)

/-- A source that starts with a delimiter reads nothing else at once with it. -/
theorem Reads.behind_delimiter {start : Compilation δ} (hpeek : start.cursor.peek = ';')
    (hs : Sequel decls inSource start s) (ht : Reaches decls s t) (h : Reads decls t c d) :
    start.cursor.offset < c.offset := by
  have hend : start.cursor.atEnd = false := Cursor.not_atEnd_of_peek (by rw [hpeek]; decide)
  have hdone {u : Compilation δ} (hu : Does (statementHere decls) start () u) :
      start.cursor.offset < u.cursor.offset := ((statementHere_forward decls).before hu hend).offset
  cases hs with
  | @next _ u _ hu hmore hsequel =>
    have hrest := ((Cursor.skipWhite_upto u.cursor).trans hsequel.upto).trans ht.upto
    exact Nat.lt_of_lt_of_le (hdone hu) (Nat.le_trans hrest.offset h.offset_le)
  | first =>
    have hnone := Cursor.behindPiece_of_peek hpeek (by decide) (by decide)
    have hwhite := Cursor.skipWhite_of_none hnone
    have hno {m : Meaning ξ} {u : Compilation δ} (hstarts : Starts decls s m u) : False := by
      have hstart := hstarts.1
      rw [hwhite, hpeek] at hstart
      exact absurd hstart (by decide)
    have hother {a : Char} (ha : ';' ≠ a) (hsign : s.cursor.skipWhite.peek = a) : False := by
      rw [hwhite, hpeek] at hsign
      exact ha hsign
    cases ht with
    | block hbrace => exact (hother (by decide) hbrace).elim
    | body hstarts | other hstarts => exact (hno hstarts).elim
    | here =>
      cases h with
      | white hpause hskips hpiece =>
        cases hpause with
        | start =>
          cases hskips with
          | here => exact absurd (hnone.symm.trans hpiece) nofun
          | next hfirst => exact absurd (hnone.symm.trans hfirst) nofun
        | sign hsign => exact (hsign.elim (hother (by decide)) (hother (by decide))).elim
        | label hcolon => exact (hother (by decide) hcolon).elim
        | done hu => exact Nat.lt_of_lt_of_le (hdone hu) hskips.upto.offset
        | keyword hstarts | target hstarts | condition hstarts | typedef hstarts | declared hstarts | external hstarts
        | segment hstarts => exact (hno hstarts).elim
      | expression hstarts | condition hstarts | firstValue hstarts | segment hstarts => exact (hno hstarts).elim

/-- White characters in the place of a comment make no difference but to offsets, if the comment does not start inside
of what is read at once. -/
theorem compile_blanked (decls : Declarations ξ δ) {before comment white after : String} (declared : δ)
    (hcomment : WholeComment comment.toList after.toList) (hwhite : ∀ c ∈ white.toList, isWhite c = true)
    (hne : white.toList ≠ []) (hlines : white.toList.count '\n' = comment.toList.count '\n')
    (hread : ∀ s t c d, Sequel decls inSource ⟨.ofSource (before ++ comment ++ after), .empty, declared⟩ s →
      Reaches decls s t → Reads decls t c d → ¬(c.offset < before.utf8ByteSize ∧ before.utf8ByteSize < d.offset)) :
    let commented := compile decls (before ++ comment ++ after) declared
    let blanked := compile decls (before ++ white ++ after) declared
    Outcome.Alike commented.1 blanked.1 ∧ commented.2 = blanked.2 := by
  let b := Blank.ofComment before.toList hcomment hwhite hne hlines
  have hplace : before.utf8ByteSize = b.place := utf8ByteSize_eq before
  have hsource (middle : String) : Cursor.ofSource (before ++ middle ++ after) =
      ⟨bytes before.toList ++ (bytes middle.toList ++ bytes after.toList), 0, 0⟩ := by
    rw [Cursor.ofSource, utf8_eq_bytes, String.toList_append, String.toList_append, bytes_append, bytes_append,
      List.append_assoc]
  let start : Compilation δ := ⟨.ofSource (before ++ comment ++ after), .empty, declared⟩
  let start' : Compilation δ := ⟨.ofSource (before ++ white ++ after), .empty, declared⟩
  have hstart : b.Abreast start start' := by
    refine ⟨?_, rfl, rfl⟩
    dsimp only [start, start']
    rw [hsource, hsource]
    exact .before (Nat.zero_add _)
  have hclears (s : Compilation δ) (hs : Sequel decls inSource start s) : b.Clears decls s := by
    intro t c d ht hr
    rw [Blank.Spared, ← hplace]
    exact hread s t c d hs ht hr
  have hends := Blank.statements_inStep (Nat.lt_succ_self _) (Nat.lt_succ_self _) hstart hclears
  rw [Blank.InStep, ← statements_eq (Nat.lt_succ_self _), ← statements_eq (Nat.lt_succ_self _)] at hends
  unfold compile
  rw [StateT.run, StateT.run] at hends
  dsimp only [start, start'] at hends ⊢
  generalize (ExceptT.run _ : StateM (Compilation δ) _) _ = outcome at hends ⊢
  generalize (ExceptT.run _ : StateM (Compilation δ) _) _ = outcome' at hends ⊢
  cases hends with
  | ok _ h => exact ⟨.compiled h.program, h.declared⟩
  | error hstop h =>
    cases hstop with
    | error hkind => exact ⟨.rejected hkind h.cursor.line, h.declared⟩
    | beyondSource => exact ⟨.beyondSource, h.declared⟩

/-- A comment between two statements. -/
theorem compile_blanked_between :
    let decls : Declarations Unit Unit :=
      { meaning := fun _ name => if name = "return" then .keyword .return_ else .unknown
        declare := fun _ _ _ => ()
        external := fun _ _ _ => ((), true) }
    WholeComment "/* back; */".toList "return;".toList ∧
      let commented := compile decls (";" ++ "/* back; */" ++ "return;") ()
      let blanked := compile decls (";" ++ " " ++ "return;") ()
      Outcome.Alike commented.1 blanked.1 ∧ commented.2 = blanked.2 := by
  intro decls
  have hcomment : WholeComment "/* back; */".toList "return;".toList :=
    .block [' ', 'b', 'a', 'c', 'k', ';', ' '] _ (by decide)
  have hwhite : ∀ c ∈ " ".toList, isWhite c = true := List.all_eq_true.mp (by decide)
  refine ⟨hcomment, compile_blanked decls () hcomment hwhite (by decide) (by decide) ?_⟩
  intro s t c d hs ht hr hover
  exact Nat.not_lt.mpr (hr.behind_delimiter rfl hs ht) hover.1

/-- A comment in an expression is a part of its text, and the delimiter in it is one. -/
example :
    let decls : Declarations Unit Unit :=
      { meaning := fun _ name => if name = "a" then .expression else .unknown
        declare := fun _ _ _ => ()
        external := fun _ _ _ => ((), true) }
    (compile decls "a = 1 /* one */;" ()).1 matches .compiled ⟨[⟨.calc, 1, "a = 1 /* one */", ⟨0, 0⟩⟩], []⟩ ∧
      (compile decls "a = 1 /* one; */;" ()).1 matches .rejected _ := by
  decide +kernel

end Compiler

end HostScript
