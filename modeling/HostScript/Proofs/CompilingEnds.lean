import HostScript.Proofs.CompilingUnbounded
/-!
# Compiling comes to an end

With enough steps each step of the compiler does without bounds what it does with them. A loop over the source takes
something of it in each round, because what it goes around for stands before the end. The statements inside of a
statement are compiled with less of the source before them, because a brace or a condition was taken before, so that
no statement is nested deeper than the source is long.
-/

set_option autoImplicit false

namespace HostScript

open HostScript.Compiler

namespace Compiling

variable {ξ δ α β : Type} {decls : Declarations ξ δ} {inner : Compile δ Unit} {s t u : Compilation δ} {c : Cursor}
  {n size : Nat}

/-! ## Steps that come to an end -/

/-- From a state the one comes to an end with what the other does. -/
def Ends (m : Nat → Compiling δ α) (m' : Compile δ α) (s : Compilation δ) : Prop :=
  Comes (fun k => (m k).run.run s) (m'.run.run s)

namespace Ends

theorem ofCompile (m : Compile δ α) (s : Compilation δ) : Ends (fun _ => Compiling.ofCompile m) m s := .const _

theorem pure (a : α) (s : Compilation δ) : Ends (fun _ => pure a) (pure a) s := .const _

theorem step {m : Nat → Compiling δ α} {m' : Compile δ α} (h : Ends (fun k => m (k + 1)) m' s) : Ends m m' s :=
  Comes.step h

theorem bind {m : Nat → Compiling δ α} {f : Nat → α → Compiling δ β} {m' : Compile δ α} {f' : α → Compile δ β}
    (hm : Ends m m' s) (hf : ∀ a t, Does m' s a t → Ends (fun k => f k a) (f' a) t) :
    Ends (fun k => m k >>= f k) (m' >>= f') s := by
  rw [Ends, ExceptT.run_bind, StateT.run_bind]
  refine Comes.bind hm ?_
  rcases hr : m'.run.run s with ⟨e | a, t⟩
  · exact .const _
  · exact hf a t hr

/-- A step comes first of which it is known what it does. -/
theorem after {m : Compile δ α} {f : Nat → α → Compiling δ β} {f' : α → Compile δ β} {a : α} (h : Does m s a t)
    (hf : Ends (fun k => f k a) (f' a) t) : Ends (fun k => Compiling.ofCompile m >>= f k) (m >>= f') s := by
  refine (ofCompile m s).bind fun b u hu => ?_
  obtain ⟨rfl, rfl⟩ := h.unique hu
  exact hf

theorem failing {kind : ErrorKind} {reason : String} {f : Nat → α → Compiling δ β} {f' : α → Compile δ β} :
    Ends (fun k => Compiling.fail kind reason >>= f k) (Compiler.fail kind reason >>= f') s :=
  (ofCompile _ s).bind fun _ _ h => absurd h not_does_fail

theorem ite {p : Prop} [Decidable p] {m m₁ : Nat → Compiling δ α} {m' m₁' : Compile δ α} (h : p → Ends m m' s)
    (h' : ¬p → Ends m₁ m₁' s) : Ends (fun k => if p then m k else m₁ k) (if p then m' else m₁') s := by
  by_cases hp : p
  · simpa only [if_pos hp] using h hp
  · simpa only [if_neg hp] using h' hp

/-- A loop over the source comes first. -/
theorem loop {f : Nat → Option α} {g : Nat → α → Compiling δ β} {m : Compile δ β} {a : α} (hf : Comes f a)
    (hg : Ends (fun k => g k a) m s) : Ends (fun k => ofCursor (f k) >>= g k) m s := by
  exact Comes.bind (hf.map fun a => (Except.ok a, s)) hg

/-- White space comes first. -/
theorem white {f : Nat → Unit → Compiling δ β} {f' : Unit → Compile δ β}
    (hf : Ends (fun k => f k ()) (f' ()) (move s s.cursor.skipWhite)) :
    Ends (fun k => skipWhite k >>= f k) (Compiler.skipWhite >>= f') s := by
  have hskip : Ends skipWhite Compiler.skipWhite s :=
    loop (g := fun _ => setCursor) (Cursor.toSolid_comes (Nat.lt_succ_self _)) (.const _)
  refine hskip.bind fun _ t ht => ?_
  obtain ⟨-, rfl⟩ := (skipWhite_does s).unique ht
  exact hf

theorem modify (f : Compilation δ → Compilation δ) {g : Nat → PUnit → Compiling δ β} {g' : PUnit → Compile δ β}
    (h : Ends (fun k => g k ⟨⟩) (g' ⟨⟩) (f s)) : Ends (fun k => modify f >>= g k) (modify f >>= g') s :=
  Comes.bind (.const _) h

/-- Looking at the cursor changes nothing. -/
theorem look {m : Nat → Compiling δ α} {f : Cursor → Compile δ α} (h : Ends m (f s.cursor) s) :
    Ends m (Compiler.getCursor >>= f) s := h

end Ends

theorem nextIp_does (s : Compilation δ) : Does nextIp s s.program.size s := rfl

theorem emit_does (opcode : Opcode) (target : Option Int) (text : String) (pos : SourcePos) (s : Compilation δ) :
    Does (emit opcode target text pos) s s.program.size
      { s with program := ⟨s.program.instructions ++ [⟨opcode, target.getD (s.program.size + 1), text, pos⟩],
        s.program.labels⟩ } := rfl

theorem setTarget_does (ip target : Nat) (s : Compilation δ) :
    Does (setTarget ip target) s ()
      { s with program := ⟨s.program.instructions.modify ip fun i => { i with target := target },
        s.program.labels⟩ } := rfl

/-! ## Reading -/

theorem name_ends (s : Compilation δ) : Ends name Compiler.name s := by
  refine .white (.after (getCursor_does _) (.ite (fun _ => .failing) fun _ => ?_))
  exact .after (setCursor_does _ _) (.pure _ _)

theorem expect_ends (wanted : Char) (kind : ErrorKind) (s : Compilation δ) :
    Ends (fun k => expect k wanted kind) (Compiler.expect wanted kind) s :=
  .white (.after (getCursor_does _) (.ite (fun _ => .failing) fun _ => .const _))

theorem expression_ends (ending : Char) (s : Compilation δ) :
    Ends (fun k => expression k ending) (Compiler.expression ending) s := by
  have hend : Comes (fun k => s.cursor.skipWhite.toEnding ending k 0 false)
      (s.cursor.skipWhite.toExpressionEnd ending (s.cursor.skipWhite.rest.length + 1) 0 false) :=
    Cursor.toEnding_comes (Nat.lt_succ_self _)
  refine .white (.after (getCursor_does _) ?_)
  dsimp only [move_cursor]
  generalize Cursor.toExpressionEnd _ _ _ _ _ = outcome at hend ⊢
  refine .loop hend ?_
  obtain ⟨stop, _ | e⟩ := outcome
  · exact .after (setCursor_does _ _) (.pure _ _)
  · exact .after (setCursor_does _ _) (.const _)

/-- Where the cursor stands behind a segment of an external statement. -/
def behindSegment (c : Cursor) : Cursor :=
  let plain := c.peek.isAlphanum || c.peek == ';'
  let delimiter := if plain then ';' else c.peek
  let start := if plain then c else c.advance
  let stop := start.toDelimiter delimiter (start.rest.length + 1)
  if !plain && stop.peek == delimiter then stop.skip 1 else stop

/-- A segment takes something, unless a semicolon stands in its place. -/
theorem behindSegment_before (hend : c.atEnd = false) (hsemi : c.peek ≠ ';') : c.Before (behindSegment c) := by
  unfold behindSegment
  cases hplain : c.peek.isAlphanum || c.peek == ';' with
  | true =>
    simp only [Bool.not_true, Bool.false_and, Bool.false_eq_true, if_false, if_true]
    rw [Cursor.toDelimiter, if_neg (by simp [hend, hsemi])]
    exact (Cursor.advance_before c).trans (Cursor.toDelimiter_upto _ _ _)
  | false =>
    simp only [Bool.false_eq_true, if_false]
    have hstop := (Cursor.advance_before c).trans (Cursor.toDelimiter_upto c.peek (c.advance.rest.length + 1) _)
    split
    · exact hstop.trans (Cursor.skip_upto _ _)
    · exact hstop

theorem behindSegment_semicolon (h : c.peek = ';') : (behindSegment c).skipWhite = c := by
  have hstop : behindSegment c = c := by
    simp [behindSegment, Cursor.toDelimiter, h]
  rw [hstop, Cursor.skipWhite, Cursor.skipWhiteWithin, h]
  rfl

/-- Behind a segment and white space the text is over, or goes on with another segment. -/
theorem goOn_ends {text : String} (h : ¬(c.skipWhite.atEnd || c.skipWhite.peek == ';') = true →
    Ends (fun k => segments k text) (Compiler.segments n text) (move s c.skipWhite)) :
    Ends (fun k => do
        setCursor c
        skipWhite k
        let c ← getCursor
        if c.atEnd || c.peek == ';' then return text else segments k text)
      (do
        Compiler.setCursor c
        Compiler.skipWhite
        let c ← Compiler.getCursor
        if c.atEnd || c.peek == ';' then return text else Compiler.segments n text) s :=
  .after (setCursor_does _ _) (.white (.after (getCursor_does _) (.ite (fun _ => .pure _ _) h)))

theorem segments_ends (hn : s.cursor.rest.length < n) (text : String) :
    Ends (fun k => segments k text) (Compiler.segments n text) s := by
  induction n generalizing s text with
  | zero => cases hn
  | succ n ih =>
    refine .step (.after (getCursor_does _) (.ite (fun _ => ?_) fun hend => ?_))
    · refine .after (setCursor_does _ _) ?_
      exact (Ends.ofCompile (throw .beyondSource) _).bind fun _ _ h => absurd h not_does_throw
    · refine .loop (Cursor.toNext_comes (Nat.le_succ _)) (goOn_ends (c := behindSegment s.cursor) fun hgo => ?_)
      refine ih ?_ _
      have hsemi : s.cursor.peek ≠ ';' := fun h => hgo (by simp [behindSegment_semicolon h, h])
      have hend : s.cursor.atEnd = false := Bool.eq_false_iff.mpr hend
      have htaken := (behindSegment_before hend hsemi).trans (Cursor.skipWhite_upto _)
      exact Nat.lt_of_lt_of_le (htaken.rest_lt hend) (Nat.le_of_lt_succ hn)

theorem externalText_ends (s : Compilation δ) : Ends externalText Compiler.externalText s := by
  refine .white (.look ((segments_ends (Nat.lt_succ_self _) "").bind fun text t _ => ?_))
  exact .after (getCursor_does _) (.ite (fun _ => .failing) fun _ => .const _)

/-! ## Statements -/

theorem expressionStatement_ends (pos : SourcePos) (s : Compilation δ) :
    Ends (fun k => expressionStatement k pos) (Compiler.expressionStatement pos) s :=
  (expression_ends ';' s).bind fun _ _ _ => (expect_ends _ _ _).bind fun _ _ _ => .ofCompile (do let _ ← emit _ _ _ _) _

theorem label_ends (s : Compilation δ) : Ends (label decls) (Compiler.label decls) s :=
  (name_ends s).bind fun _ _ _ => (Ends.ofCompile _ _).bind fun _ _ _ => (expect_ends _ _ _).bind fun _ _ _ => .const _

theorem declaration_ends (ty : ValueType) (s : Compilation δ) :
    Ends (fun k => declaration decls k ty) (Compiler.declaration decls ty) s := by
  refine .white (.after (getCursor_does _) ((name_ends _).bind fun _ _ _ => (Ends.ofCompile _ _).bind fun _ t _ => ?_))
  refine .modify _ (.white (.after (getCursor_does _) (.ite (fun _ => ?_) fun _ => expect_ends _ _ _)))
  exact .after (.modify _ _) (expressionStatement_ends _ _)

theorem condition_ends (pos : SourcePos) (s : Compilation δ) :
    Ends (fun k => condition k pos) (Compiler.condition pos) s := by
  refine (expect_ends _ _ s).bind fun _ _ _ => (expression_ends _ _).bind fun _ _ _ => ?_
  exact .after (.modify _ _) (.ofCompile _ _)

theorem elseFollows_ends (s : Compilation δ) : Ends (elseFollows decls) (Compiler.elseFollows decls) s := by
  refine .white (.after (getCursor_does _) (.ite (fun _ => .pure _ _) fun _ => .after (.get _) ?_))
  generalize decls.meaning _ _ = first
  cases first with
  | keyword k =>
    cases k with
    | else_ => exact .after (setCursor_does _ _) (.pure _ _)
    | _ => exact .pure _ _
  | _ => exact .pure _ _

theorem externalStatement_ends (x : ξ) (s : Compilation δ) :
    Ends (fun k => externalStatement decls k x) (Compiler.externalStatement decls x) s := by
  refine (externalText_ends s).bind fun text t _ => .after (.get _) ?_
  exact .after (.modify _ _) (.ite (fun _ => .const _) fun _ => .pure _ _)

/-! ## Nested statements -/

/-- Before the end a statement takes something. -/
structure Forward (inner : Compile δ Unit) : Prop where
  upto : ∀ {s t}, Does inner s () t → s.cursor.Upto t.cursor
  before : ∀ {s t}, Does inner s () t → s.cursor.atEnd = false → s.cursor.Before t.cursor

theorem upto_before {d : Cursor} (h : c.Upto d) (hlt : d.rest.length < c.rest.length) : c.Before d := by
  obtain ⟨n, h⟩ := h
  cases n with
  | zero => exact absurd hlt (by rw [h.rest, List.drop_zero]; exact Nat.lt_irrefl _)
  | succ n => exact ⟨n, h⟩

theorem not_atEnd_of_upto {d : Cursor} (h : c.Upto d) (hd : d.atEnd = false) : c.atEnd = false := by
  obtain ⟨n, h⟩ := h
  rw [Cursor.atEnd, List.isEmpty_eq_false_iff] at hd ⊢
  rintro hnil
  exact hd (by rw [h.rest, hnil, List.drop_nil])

/-- Even if it is only white space. -/
theorem statementWith_before (hextends : ∀ s t, Does inner s () t → Extends s t)
    (h : Does (statementWith decls inner) s () t) (hend : s.cursor.atEnd = false) : s.cursor.Before t.cursor := by
  rcases statementWith_done hextends h with ⟨hwhite, -⟩ | ⟨hbefore, -⟩
  · have h := (getCursor_does _).after ((skipWhite_does s).after h)
    rw [move_cursor, if_pos hwhite] at h
    obtain ⟨-, rfl⟩ := h.of_pure
    refine upto_before (Cursor.skipWhite_upto _) ?_
    rw [move_cursor, List.isEmpty_iff_length_eq_zero.mp hwhite]
    exact List.length_pos_iff.mpr fun hnil => by simp [Cursor.atEnd, hnil] at hend
  · exact hbefore

theorem statementAt_forward (decls : Declarations ξ δ) (n : Nat) : Forward (statementAt decls n) where
  upto h := (statementAt_extends n h).upto
  before h hend := by
    cases n with
    | zero => exact absurd h not_does_fail
    | succ n => exact statementWith_before (fun _ _ => statementAt_extends n) h hend

/-- With less of the source before it than some size, a statement is compiled as the given one is. -/
def StatementsBelow (decls : Declarations ξ δ) (size : Nat) (inner : Compile δ Unit) : Prop :=
  ∀ s : Compilation δ, s.cursor.rest.length < size → Ends (statement decls) inner s

theorem condition_upto {pos : SourcePos} {ip : Nat} (h : Does (Compiler.condition pos) s ip t) :
    s.cursor.Upto t.cursor := by
  obtain ⟨_, s₁, hparen, h⟩ := h.of_bind
  obtain ⟨text, s₂, hexpr, h⟩ := h.of_bind
  have hemit := Does.after (.modify _ _) h
  obtain ⟨-, rfl⟩ := emit_done hemit
  exact ((expect_taken hparen).trans (expression_read hexpr)).1.upto.trans (Cursor.skip_upto _ 1)

section Nested

variable (hinner : StatementsBelow decls size inner) (hforward : Forward inner)

include hinner hforward

theorem block_ends (hsize : s.cursor.rest.length < size) (hn : s.cursor.rest.length < n) :
    Ends (block decls) (Compiler.block inner n) s := by
  induction n generalizing s with
  | zero => cases hn
  | succ n ih =>
    have hwhite := (Cursor.skipWhite_upto s.cursor).rest_le
    refine .step (.white (.after (getCursor_does _) (.ite (fun _ => .failing) fun hend => ?_)))
    refine .ite (fun _ => .const _) fun _ => ?_
    refine (hinner _ (Nat.lt_of_le_of_lt hwhite hsize)).bind fun _ t hdone => ?_
    have htaken := (hforward.before hdone (Bool.eq_false_iff.mpr hend)).rest_lt (Bool.eq_false_iff.mpr hend)
    rw [move_cursor] at htaken
    exact ih (by omega) (by omega)

theorem ifStatement_ends (hsize : s.cursor.rest.length < size) (pos : SourcePos) :
    Ends (fun k => ifStatement decls k pos) (Compiler.ifStatement decls inner pos) s := by
  refine .step ((condition_ends pos s).bind fun test t hcond => ?_)
  have ht := Nat.lt_of_le_of_lt (condition_upto hcond).rest_le hsize
  refine (hinner t ht).bind fun _ u hthen => ?_
  have hu := Nat.lt_of_le_of_lt (hforward.upto hthen).rest_le ht
  refine .after (nextIp_does u) (.after (setTarget_does _ _ _) (.after (getCursor_does _) ?_))
  refine .after (emit_does _ _ _ _ _) ?_
  refine (elseFollows_ends _).bind fun follows v helse => ?_
  cases follows with
  | false => exact .pure _ _
  | true =>
    have hv := Nat.lt_of_le_of_lt (elseFollows_read helse).1.rest_le hu
    refine (hinner v hv).bind fun _ w _ => ?_
    exact .after (setTarget_does _ _ _) (.after (nextIp_does _) (.ofCompile _ _))

omit hforward in
theorem whileStatement_ends (hsize : s.cursor.rest.length < size) (pos : SourcePos) :
    Ends (fun k => whileStatement decls k pos) (Compiler.whileStatement inner pos) s := by
  refine .step ((condition_ends pos s).bind fun test t hcond => ?_)
  refine (hinner t (Nat.lt_of_le_of_lt (condition_upto hcond).rest_le hsize)).bind fun _ u _ => ?_
  refine .after (getCursor_does _) (.after (emit_does _ _ _ _ _) (.after (nextIp_does _) ?_))
  exact .after (setTarget_does _ _ _) (.ofCompile _ _)

theorem keyword_ends (hsize : s.cursor.rest.length < size) (k : Keyword) (pos : SourcePos) :
    Ends (fun n => keyword decls n k pos) (Compiler.keyword decls inner k pos) s := by
  refine .step ?_
  cases k with
  | if_ => exact ifStatement_ends hinner hforward hsize pos
  | while_ => exact whileStatement_ends hinner hsize pos
  | break_ | continue_ | return_ => exact (expect_ends _ _ s).bind fun _ _ _ => .after (emit_does _ _ _ _ _) (.pure _ _)
  | goto | gosub =>
    refine (name_ends s).bind fun target t _ => (expect_ends _ _ t).bind fun _ _ _ => ?_
    exact .after (emit_does _ _ _ _ _) (.pure _ _)
  | else_ | external => exact .ofCompile _ _

theorem statementWith_ends (hsize : s.cursor.rest.length ≤ size) :
    Ends (statement decls) (statementWith decls inner) s := by
  refine .step (.white (.after (getCursor_does _) (.ite (fun _ => .pure _ _) fun hend => ?_)))
  have hend : s.cursor.skipWhite.atEnd = false := Bool.eq_false_iff.mpr hend
  have hwhite := (Cursor.skipWhite_upto s.cursor).rest_le
  refine .ite (fun _ => .ofCompile _ _) fun _ => .ite (fun _ => ?_) fun _ => .ite (fun _ => ?_) fun _ =>
    .ite (fun _ => ?_) fun _ => .ofCompile _ _
  · have hbrace := (Cursor.skip_before s.cursor.skipWhite Nat.one_pos).rest_lt hend
    refine .after (setCursor_does _ _) (block_ends hinner hforward ?_ ?_)
    · exact Nat.lt_of_lt_of_le hbrace (Nat.le_trans hwhite hsize)
    · exact Nat.lt_succ_of_lt hbrace
  · exact .after (setCursor_does _ _) (label_ends _)
  · refine (name_ends _).bind fun first t hname => .after (.get _) ?_
    have ht := (name_taken hname).1.rest_lt hend
    generalize decls.meaning _ _ = meaning
    cases meaning with
    | unknown => exact .ofCompile _ _
    | keyword k => exact keyword_ends hinner hforward (Nat.lt_of_lt_of_le ht (Nat.le_trans hwhite hsize)) k _
    | external x => exact externalStatement_ends x t
    | reserved => exact .ofCompile _ _
    | typedef ty => exact declaration_ends ty t
    | expression => exact .after (setCursor_does _ _) (expressionStatement_ends _ _)

theorem statements_ends (hsize : s.cursor.rest.length < size) (hn : s.cursor.rest.length < n) :
    Ends (statements decls) (Compiler.statements inner n) s := by
  induction n generalizing s with
  | zero => cases hn
  | succ n ih =>
    refine .step ((hinner s hsize).bind fun _ t hdone => ?_)
    refine .white (.after (getCursor_does _) (.ite (fun _ => .pure _ _) fun hend => ?_))
    have hwhite := Cursor.skipWhite_upto t.cursor
    have hstart := not_atEnd_of_upto ((hforward.upto hdone).trans hwhite) (Bool.eq_false_iff.mpr hend)
    have htaken := ((hforward.before hdone hstart).trans hwhite).rest_lt hstart
    exact ih (Nat.lt_trans htaken hsize) (Nat.lt_of_lt_of_le htaken (Nat.le_of_lt_succ hn))

end Nested

theorem statementsBelow (decls : Declarations ξ δ) (n : Nat) : StatementsBelow decls n (statementAt decls n) := by
  induction n with
  | zero => exact fun _ h => nomatch h
  | succ n ih => exact fun s h => statementWith_ends ih (statementAt_forward decls n) (Nat.le_of_lt_succ h)

/-- Every source is compiled with enough steps, as the compiler does it. -/
theorem compile_comes (decls : Declarations ξ δ) (source : String) (declared : δ) :
    Comes (fun k => compile decls k source declared) (Compiler.compile decls source declared) := by
  unfold Compiler.compile
  dsimp only
  have hruns := statements_ends (s := ⟨.ofSource source, .empty, declared⟩)
    (statementsBelow decls ((Cursor.ofSource source).rest.length + 1)) (statementAt_forward _ _) (Nat.lt_succ_self _)
    (Nat.lt_succ_self _)
  rw [Ends, StateT.run] at hruns
  refine Comes.bind hruns ?_
  generalize (Compiler.statements _ _).run _ = outcome
  obtain ⟨(e | _) | _, t⟩ := outcome
  · exact .const _
  · exact .const _
  · exact .const _

end Compiling

end HostScript
