import HostScript.Compiler.Statement
/-!
# Compiling for two states side by side

The compiler reaches what is declared through its declarations only. So two compilations of a source, whose
declarations give the same answers and keep a relation between the two states, come to the same program or the
same error, and to related states. A property that declaring keeps is the case of a relation between equal
states.
-/

set_option autoImplicit false

namespace HostScript

/-! ## Steps of the compiler -/

/-- The two are at the same place with the same program, and what they declared is related. -/
structure Compilation.Alike {δ δ' : Type} (R : δ → δ' → Prop) (s : Compilation δ) (s' : Compilation δ') : Prop where
  cursor : s.cursor = s'.cursor
  program : s.program = s'.program
  declared : R s.declared s'.declared

/-- The two steps give the same, and leave what was alike alike. -/
def Compile.Alike {δ δ' α : Type} (R : δ → δ' → Prop) (m : Compile δ α) (m' : Compile δ' α) : Prop :=
  ∀ s s', Compilation.Alike R s s' →
    (m.run.run s).1 = (m'.run.run s').1 ∧ Compilation.Alike R (m.run.run s).2 (m'.run.run s').2

namespace Compile.Alike

variable {δ δ' α β : Type} {R : δ → δ' → Prop}

theorem pure (a : α) : Alike R (pure a) (pure a) := fun _ _ h => ⟨rfl, h⟩

theorem throw (e : Stop) : Alike R (throw e : Compile δ α) (throw e) := fun _ _ h => ⟨rfl, h⟩

theorem bind {m : Compile δ α} {m' : Compile δ' α} {f : α → Compile δ β} {f' : α → Compile δ' β}
    (hm : Alike R m m') (hf : ∀ a, Alike R (f a) (f' a)) : Alike R (m >>= f) (m' >>= f') := by
  intro s s' hs
  obtain ⟨hresult, hstate⟩ := hm s s' hs
  rw [ExceptT.run_bind, ExceptT.run_bind, StateT.run_bind, StateT.run_bind]
  rcases hr : m.run.run s with ⟨r, t⟩
  rcases hr' : m'.run.run s' with ⟨r', t'⟩
  rw [hr, hr'] at hresult hstate
  obtain rfl : r = r' := hresult
  cases r with
  | error e => exact ⟨rfl, hstate⟩
  | ok a => exact hf a t t' hstate

theorem get {f : Compilation δ → Compile δ α} {f' : Compilation δ' → Compile δ' α}
    (hf : ∀ s s', Compilation.Alike R s s' → Alike R (f s) (f' s')) : Alike R (get >>= f) (get >>= f') :=
  fun s s' hs => hf s s' hs s s' hs

theorem modify {f : Compilation δ → Compilation δ} {f' : Compilation δ' → Compilation δ'}
    (h : ∀ s s', Compilation.Alike R s s' → Compilation.Alike R (f s) (f' s')) : Alike R (modify f) (modify f') :=
  fun s s' hs => ⟨rfl, h s s' hs⟩

theorem ite {c : Prop} [Decidable c] {m n : Compile δ α} {m' n' : Compile δ' α} (hm : Alike R m m')
    (hn : Alike R n n') : Alike R (if c then m else n) (if c then m' else n') := by
  split
  · exact hm
  · exact hn

end Compile.Alike

namespace Compiler

open Compile (Alike)

variable {ξ δ δ' : Type} {R : δ → δ' → Prop}

/-! ## Reading and emitting -/

theorem getCursor_alike : Alike R getCursor getCursor := .get fun _ _ h => h.cursor ▸ .pure _

theorem moveCursor_alike (f : Cursor → Cursor) : Alike R (moveCursor f) (moveCursor f) :=
  .modify fun _ _ h => ⟨congrArg f h.cursor, h.program, h.declared⟩

theorem setCursor_alike (c : Cursor) : Alike R (setCursor c) (setCursor c) :=
  .modify fun _ _ h => ⟨rfl, h.program, h.declared⟩

theorem name_alike : Alike R name name := by
  refine .bind (moveCursor_alike _) fun _ => .bind getCursor_alike fun c => ?_
  exact .ite (.throw _) (.bind (setCursor_alike _) fun _ => .pure _)

theorem expect_alike (wanted : Char) (kind : ErrorKind) : Alike R (expect wanted kind) (expect wanted kind) := by
  refine .bind (moveCursor_alike _) fun _ => .bind getCursor_alike fun c => ?_
  exact .ite (.throw _) (moveCursor_alike _)

theorem expression_alike (ending : Char) : Alike R (expression ending) (expression ending) := by
  refine .bind (moveCursor_alike _) fun _ => .bind getCursor_alike fun start => ?_
  dsimp only
  refine .bind (setCursor_alike _) fun _ => ?_
  split
  · exact .throw _
  · exact .pure _

theorem segments_alike (n : Nat) (text : String) : Alike R (segments n text) (segments n text) := by
  induction n generalizing text with
  | zero => exact .pure _
  | succ n ih =>
    refine .bind getCursor_alike fun c => .ite (.bind (setCursor_alike _) fun _ => .throw _) ?_
    refine .bind (setCursor_alike _) fun _ => .bind (moveCursor_alike _) fun _ => .bind getCursor_alike fun _ => ?_
    exact .ite (.pure _) (ih _)

theorem externalText_alike : Alike R externalText externalText := by
  refine .bind (moveCursor_alike _) fun _ => .bind getCursor_alike fun c =>
    .bind (segments_alike _ _) fun text => .bind getCursor_alike fun c => ?_
  exact .ite (.throw _) (.bind (moveCursor_alike _) fun _ => .pure _)

theorem nextIp_alike : Alike R nextIp nextIp := .get fun _ _ h => by
  rw [h.program]
  exact .pure _

theorem emit_alike (opcode : Opcode) (target : Option Int) (text : String) (pos : SourcePos) :
    Alike R (emit opcode target text pos) (emit opcode target text pos) :=
  .bind nextIp_alike fun _ =>
    .bind (.modify fun _ _ h => ⟨h.cursor, by simp only [h.program], h.declared⟩) fun _ => .pure _

theorem setTarget_alike (ip target : Nat) : Alike R (setTarget ip target) (setTarget ip target) :=
  .modify fun _ _ h => ⟨h.cursor, by simp only [h.program], h.declared⟩

theorem patchFrom_alike (start : Nat) (f : Instruction → Instruction) :
    Alike R (patchFrom start f) (patchFrom start f) :=
  .modify fun _ _ h => ⟨h.cursor, by simp only [h.program], h.declared⟩

theorem expressionStatement_alike (pos : SourcePos) : Alike R (expressionStatement pos) (expressionStatement pos) :=
  .bind (expression_alike _) fun _ => .bind (expect_alike _ _) fun _ => .bind (emit_alike _ _ _ _) fun _ => .pure _

theorem condition_alike (pos : SourcePos) : Alike R (condition pos) (condition pos) :=
  .bind (expect_alike _ _) fun _ => .bind (expression_alike _) fun _ => .bind (moveCursor_alike _) fun _ =>
    emit_alike _ _ _ _

/-! ## Statements -/

/-- The declarations give the same answers in related states, and keep them related. External statements are
compared where they are known. -/
structure Alike (decls : Declarations ξ δ) (decls' : Declarations ξ δ') (R : δ → δ' → Prop) : Prop where
  meaning {s : δ} {s' : δ'} (name : String) : R s s' → decls.meaning s name = decls'.meaning s' name
  declare {s : δ} {s' : δ'} (name : String) (ty : ValueType) : R s s' →
    R (decls.declare name ty s) (decls'.declare name ty s')
  external {s t : δ} {s' t' : δ'} {x : ξ} {name : String} (text : String) : R s s' →
    decls.meaning s name = .external x → R t t' →
    (decls.external x text t).2 = (decls'.external x text t').2 ∧
      R (decls.external x text t).1 (decls'.external x text t').1

section Statements

variable {decls : Declarations ξ δ} {decls' : Declarations ξ δ'} (hd : Compiler.Alike decls decls' R)

include hd

theorem checkFree_alike (name : String) : Compile.Alike R (checkFree decls name) (checkFree decls' name) := by
  refine .get fun s s' hs => ?_
  rw [hd.meaning name hs.declared, hs.program]
  exact .ite (.throw _) (.pure _)

theorem label_alike : Compile.Alike R (label decls) (label decls') :=
  .bind name_alike fun _ => .bind (checkFree_alike hd _) fun _ => .bind (expect_alike _ _) fun _ =>
    .modify fun _ _ h => ⟨h.cursor, by simp only [h.program], h.declared⟩

theorem elseFollows_alike : Compile.Alike R (elseFollows decls) (elseFollows decls') := by
  refine .bind (moveCursor_alike _) fun _ => .bind getCursor_alike fun c => .ite (.pure _) (.get fun s s' hs => ?_)
  rw [hd.meaning _ hs.declared]
  split
  · exact .bind (setCursor_alike _) fun _ => .pure _
  · exact .pure _

theorem declaration_alike (ty : ValueType) : Compile.Alike R (declaration decls ty) (declaration decls' ty) := by
  refine .bind (moveCursor_alike _) fun _ => .bind getCursor_alike fun start => .bind name_alike fun name =>
    .bind (checkFree_alike hd _) fun _ => .bind ?_ fun _ => .bind (moveCursor_alike _) fun _ =>
      .bind getCursor_alike fun c => ?_
  · exact .modify fun _ _ h => ⟨h.cursor, h.program, hd.declare name ty h.declared⟩
  · exact .ite (.bind (moveCursor_alike _) fun _ => expressionStatement_alike _) (expect_alike _ _)

omit hd in
theorem externalStatement_alike {x : ξ}
    (hx : ∀ text t t', R t t' → (decls.external x text t).2 = (decls'.external x text t').2 ∧
      R (decls.external x text t).1 (decls'.external x text t').1) :
    Compile.Alike R (externalStatement decls x) (externalStatement decls' x) := by
  refine .bind externalText_alike fun text => .get fun s s' hs => ?_
  obtain ⟨hanswer, hrelated⟩ := hx text _ _ hs.declared
  dsimp only
  rw [hanswer]
  refine .bind (fun t t' _ => ⟨rfl, hs.cursor, hs.program, hrelated⟩) fun _ => ?_
  exact .ite (.throw _) (.pure _)

section Nested

variable {statement : Compile δ Unit} {statement' : Compile δ' Unit} (hst : Compile.Alike R statement statement')

include hst

theorem ifStatement_alike (pos : SourcePos) :
    Compile.Alike R (ifStatement decls statement pos) (ifStatement decls' statement' pos) := by
  refine .bind (condition_alike _) fun test => .bind hst fun _ => .bind nextIp_alike fun _ =>
    .bind (setTarget_alike _ _) fun _ => .bind getCursor_alike fun _ => .bind (emit_alike _ _ _ _)
      fun skip => .bind (elseFollows_alike hd) fun follows => .ite ?_ (.pure _)
  exact .bind hst fun _ => .bind (setTarget_alike _ _) fun _ => .bind nextIp_alike fun _ => setTarget_alike _ _

omit hd in
theorem whileStatement_alike (pos : SourcePos) :
    Compile.Alike R (whileStatement statement pos) (whileStatement statement' pos) :=
  .bind (condition_alike _) fun _ => .bind hst fun _ => .bind getCursor_alike fun _ =>
    .bind (emit_alike _ _ _ _) fun _ => .bind nextIp_alike fun _ =>
      .bind (setTarget_alike _ _) fun _ => patchFrom_alike _ _

theorem keyword_alike (k : Keyword) (pos : SourcePos) :
    Compile.Alike R (keyword decls statement k pos) (keyword decls' statement' k pos) := by
  have hemit : ∀ opcode target text,
      Compile.Alike R (do let _ ← emit opcode target text pos) (do let _ ← emit opcode target text pos) :=
    fun _ _ _ => .bind (emit_alike _ _ _ _) fun _ => .pure _
  cases k with
  | if_ => exact ifStatement_alike hd hst pos
  | while_ => exact whileStatement_alike hst pos
  | break_ => exact .bind (expect_alike _ _) fun _ => hemit _ _ _
  | continue_ => exact .bind (expect_alike _ _) fun _ => hemit _ _ _
  | goto => exact .bind name_alike fun _ => .bind (expect_alike _ _) fun _ => hemit _ _ _
  | gosub => exact .bind name_alike fun _ => .bind (expect_alike _ _) fun _ => hemit _ _ _
  | return_ => exact .bind (expect_alike _ _) fun _ => hemit _ _ _
  | else_ => exact .throw _
  | external => exact .throw _

omit hd in
theorem block_alike (n : Nat) : Compile.Alike R (block statement n) (block statement' n) := by
  induction n with
  | zero => exact .throw _
  | succ n ih =>
    refine .bind (moveCursor_alike _) fun _ => .bind getCursor_alike fun c => .ite (.throw _) ?_
    exact .ite (setCursor_alike _) (.bind hst fun _ => ih)

theorem statementWith_alike :
    Compile.Alike R (statementWith decls statement) (statementWith decls' statement') := by
  refine .bind (moveCursor_alike _) fun _ => .bind getCursor_alike fun c => .ite (.pure _) ?_
  refine .ite (setCursor_alike _) (.ite (.bind (setCursor_alike _) fun _ => block_alike hst _) ?_)
  refine .ite (.bind (setCursor_alike _) fun _ => label_alike hd) (.ite ?_ (.throw _))
  refine .bind name_alike fun first => .get fun s s' hs => ?_
  rw [← hd.meaning first hs.declared]
  split
  · exact .throw _
  · exact keyword_alike hd hst _ _
  · rename_i x hx
    exact externalStatement_alike fun text t t' ht => hd.external text hs.declared hx ht
  · exact .throw _
  · exact declaration_alike hd _
  · exact .bind (setCursor_alike _) fun _ => expressionStatement_alike _

omit hd in
theorem statements_alike (n : Nat) : Compile.Alike R (statements statement n) (statements statement' n) := by
  induction n with
  | zero => exact .pure _
  | succ n ih =>
    exact .bind hst fun _ => .bind (moveCursor_alike _) fun _ => .bind getCursor_alike fun c => .ite (.pure _) ih

end Nested

theorem statementAt_alike (n : Nat) : Compile.Alike R (statementAt decls n) (statementAt decls' n) := by
  induction n with
  | zero => exact .throw _
  | succ n ih => exact statementWith_alike hd ih

/-- Compiling for related states comes to the same, and leaves related states. -/
theorem compile_alike (source : String) {declared : δ} {declared' : δ'} (h : R declared declared') :
    (compile decls source declared).1 = (compile decls' source declared').1 ∧
      R (compile decls source declared).2 (compile decls' source declared').2 := by
  have hs := fun depth => statements_alike (statementAt_alike hd depth) depth ⟨.ofSource source, .empty, declared⟩
    ⟨.ofSource source, .empty, declared'⟩ ⟨rfl, rfl, h⟩
  unfold compile
  dsimp only
  generalize (Cursor.ofSource source).rest.length + 1 = depth
  obtain ⟨hresult, hstate⟩ := hs depth
  rcases hr : (statements (statementAt decls depth) depth).run ⟨.ofSource source, .empty, declared⟩ with ⟨r, t⟩
  rcases hr' : (statements (statementAt decls' depth) depth).run ⟨.ofSource source, .empty, declared'⟩ with ⟨r', t'⟩
  rw [StateT.run, StateT.run, hr, hr'] at hresult hstate
  obtain rfl : r = r' := hresult
  obtain (e | _) | _ := r
  · exact ⟨congrArg (fun c : Cursor => Outcome.rejected ⟨e, c.pos⟩) hstate.cursor, hstate.declared⟩
  · exact ⟨rfl, hstate.declared⟩
  · exact ⟨congrArg Outcome.compiled hstate.program, hstate.declared⟩

end Statements

end Compiler

end HostScript
