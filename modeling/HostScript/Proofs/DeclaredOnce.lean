import HostScript.Proofs.CompiledCode
/-!
# What is declared is new

A variable is declared, and a label set, only under a name that means nothing at that place of the source and is not
the name of a label. External statements are handled whatever names are there. What holds of the labels and of what is
declared when compiling starts, and is kept by each of these, holds of what a source is compiled to.
-/

set_option autoImplicit false

namespace HostScript.Compiler

variable {ξ δ : Type} {decls : Declarations ξ δ} {statement : Compile δ Unit} {s t u : Compilation δ}
  {I : List Label → δ → Prop}

/-- A name for which nothing is declared. -/
structure Free (decls : Declarations ξ δ) (labels : List Label) (declared : δ) (name : String) : Prop where
  label : name ∉ labels.map Label.name
  unknown : decls.meaning declared name = .unknown

/-- New labels and variables keep this of all labels and of what is declared, and so do external statements that are
accepted. -/
structure KeptByNew (decls : Declarations ξ δ) (I : List Label → δ → Prop) : Prop where
  label {labels : List Label} {declared : δ} {name : String} (ip : Int) : I labels declared →
    Free decls labels declared name → I (labels ++ [⟨name, ip⟩]) declared
  declare {labels : List Label} {declared : δ} {name : String} (ty : ValueType) : I labels declared →
    Free decls labels declared name → I labels (decls.declare name ty declared)
  external {labels : List Label} {declared : δ} {x : ξ} {text : String} : I labels declared →
    (decls.external x text declared).2 = true → I labels (decls.external x text declared).1

/-- Something is kept from one state to another. -/
def Kept (I : List Label → δ → Prop) (s t : Compilation δ) : Prop :=
  I s.program.labels s.declared → I t.program.labels t.declared

theorem Kept.trans (h : Kept I s t) (h' : Kept I t u) : Kept I s u := h' ∘ h

theorem kept_of_eq (hlabels : t.program.labels = s.program.labels) (hdeclared : t.declared = s.declared) :
    Kept I s t := by
  unfold Kept
  rw [hlabels, hdeclared]
  exact id

theorem Read.kept (h : Read s t) : Kept I s t := by
  rw [h.2]
  exact kept_of_eq rfl rfl

theorem Taken.kept (h : Taken s t) : Kept I s t := h.read.kept

theorem kept_chained : Chained (Kept (δ := δ) I) := ⟨Read.kept, Kept.trans⟩

/-! ## Instructions -/

theorem emit_kept {opcode : Opcode} {target : Option Int} {text : String} {pos : SourcePos} {ip : Nat}
    (h : Does (emit opcode target text pos) s ip t) : Kept I s t := by
  obtain ⟨-, rfl⟩ := emit_done h
  exact kept_of_eq rfl rfl

theorem setTarget_kept {ip target : Nat} (h : Does (setTarget ip target) s () t) : Kept I s t := by
  obtain ⟨-, rfl⟩ := (Does.modify _ _).unique h
  exact kept_of_eq rfl rfl

theorem patchFrom_kept {start : Nat} {f : Instruction → Instruction} (h : Does (patchFrom start f) s () t) :
    Kept I s t := by
  obtain ⟨-, rfl⟩ := (Does.modify _ _).unique h
  exact kept_of_eq rfl rfl

theorem expressionStatement_kept {pos : SourcePos} (h : Does (expressionStatement pos) s () t) : Kept I s t := by
  obtain ⟨text, s₁, hexpr, h⟩ := h.of_bind
  obtain ⟨_, s₂, hdelim, h⟩ := h.of_bind
  obtain ⟨ip, s₃, hemit, h⟩ := h.of_bind
  obtain ⟨-, rfl⟩ := h.of_pure
  exact ((expression_read hexpr).kept.trans (expect_taken hdelim).kept).trans (emit_kept hemit)

theorem condition_kept {pos : SourcePos} {ip : Nat} (h : Does (condition pos) s ip t) : Kept I s t := by
  obtain ⟨_, s₁, hparen, h⟩ := h.of_bind
  obtain ⟨text, s₂, hexpr, h⟩ := h.of_bind
  have hread : Kept I s s₂ := (expect_taken hparen).kept.trans (expression_read hexpr).kept
  have hemit := Does.after (.modify _ _) h
  refine hread.trans (Kept.trans ?_ (emit_kept hemit))
  exact kept_of_eq rfl rfl

/-! ## Declarations -/

theorem checkFree_free {name : String} (h : Does (checkFree decls name) s () t) :
    t = s ∧ Free decls s.program.labels s.declared name := by
  obtain ⟨hsame, hlabel⟩ := checkFree_done h
  have h := (Does.get s).after h
  extract_lets known at h
  refine ⟨hsame, not_mem_of_labelIp hlabel, ?_⟩
  cases hmeaning : decls.meaning s.declared name with
  | unknown => rfl
  | _ =>
    have hknown : known = true := by simp [known, hmeaning]
    rw [if_pos (by simp [hknown])] at h
    exact absurd h not_does_fail

section Statements

variable (hI : KeptByNew decls I)

include hI

theorem label_kept (h : Does (label decls) s () t) : Kept I s t := by
  obtain ⟨name, s₁, hname, h⟩ := h.of_bind
  obtain ⟨_, s₂, hcheck, h⟩ := h.of_bind
  obtain ⟨_, s₃, hdelim, h⟩ := h.of_bind
  obtain ⟨hsame, hfree⟩ := checkFree_free hcheck
  rw [hsame] at hdelim
  obtain ⟨-, hs₃⟩ := expect_done hdelim
  obtain ⟨-, rfl⟩ := (Does.modify _ _).unique h
  refine (name_taken hname).kept.trans fun hs => ?_
  rw [hs₃]
  exact hI.label _ hs hfree

theorem declaration_kept {ty : ValueType} (h : Does (declaration decls ty) s () t) : Kept I s t := by
  have h := (getCursor_does _).after ((skipWhite_does s).after h)
  obtain ⟨name, s₁, hname, h⟩ := h.of_bind
  obtain ⟨_, s₂, hcheck, h⟩ := h.of_bind
  obtain ⟨hsame, hfree⟩ := checkFree_free hcheck
  rw [hsame] at h
  have h := Does.after (.modify _ _) h
  have h := (skipWhite_does _).after h
  have h := (getCursor_does _).after h
  have hnew : Kept I s { s₁ with declared := decls.declare name ty s₁.declared } :=
    ((read_skipWhite s).kept.trans (name_taken hname).kept).trans fun hs => hI.declare ty hs hfree
  refine hnew.trans ?_
  dsimp only at h
  split at h
  · have hexpr := Does.after (.modify _ _) h
    refine Kept.trans ?_ (expressionStatement_kept hexpr)
    exact kept_of_eq rfl rfl
  · refine Kept.trans ?_ (expect_taken h).kept
    exact kept_of_eq rfl rfl

theorem externalStatement_kept {x : ξ} (h : Does (externalStatement decls x) s () t) : Kept I s t := by
  obtain ⟨text, s₁, htext, h⟩ := h.of_bind
  have h := Does.after (.modify _ _) ((Does.get _).after h)
  refine (externalText_taken htext).kept.trans ?_
  split at h
  · exact absurd h not_does_fail
  · rename_i haccepted
    obtain ⟨-, rfl⟩ := h.of_pure
    exact fun hs => hI.external hs (by simpa using haccepted)

/-! ## Statements -/

section Nested

variable (hstatement : ∀ s t, Does statement s () t → Kept I s t)

include hstatement

omit hI in
theorem ifStatement_kept {pos : SourcePos} (h : Does (ifStatement decls statement pos) s () t) : Kept I s t := by
  obtain ⟨test, s₁, hcond, h⟩ := h.of_bind
  obtain ⟨_, s₂, hthen, h⟩ := h.of_bind
  have h := Does.after (show Does nextIp s₂ s₂.program.size s₂ from rfl) h
  obtain ⟨_, s₃, hset, h⟩ := h.of_bind
  have h := (getCursor_does s₃).after h
  obtain ⟨skip, s₄, hemit, h⟩ := h.of_bind
  obtain ⟨follows, s₅, helse, h⟩ := h.of_bind
  have hthen : Kept I s s₃ := ((condition_kept hcond).trans (hstatement _ _ hthen)).trans (setTarget_kept hset)
  have hread : Kept I s s₅ := (hthen.trans (emit_kept hemit)).trans (elseFollows_read helse).kept
  cases follows with
  | false =>
    obtain ⟨-, rfl⟩ := Does.of_pure h
    exact hread
  | true =>
    obtain ⟨_, s₆, hother, h⟩ := Does.of_bind h
    obtain ⟨_, s₇, hset₇, h⟩ := h.of_bind
    have h := Does.after (show Does nextIp s₇ s₇.program.size s₇ from rfl) h
    exact ((hread.trans (hstatement _ _ hother)).trans (setTarget_kept hset₇)).trans (setTarget_kept h)

omit hI in
theorem whileStatement_kept {pos : SourcePos} (h : Does (whileStatement statement pos) s () t) : Kept I s t := by
  obtain ⟨test, s₁, hcond, h⟩ := h.of_bind
  obtain ⟨_, s₂, hbody, h⟩ := h.of_bind
  have h := (getCursor_does s₂).after h
  obtain ⟨_, s₃, hemit, h⟩ := h.of_bind
  have h := Does.after (show Does nextIp s₃ s₃.program.size s₃ from rfl) h
  obtain ⟨_, s₄, hset, h⟩ := h.of_bind
  have hbody : Kept I s s₂ := (condition_kept hcond).trans (hstatement _ _ hbody)
  exact ((hbody.trans (emit_kept hemit)).trans (setTarget_kept hset)).trans (patchFrom_kept h)

omit hI in
theorem keyword_kept {k : Keyword} {pos : SourcePos} (h : Does (keyword decls statement k pos) s () t) :
    Kept I s t := by
  have hemits : ∀ {u : Compilation δ} {opcode : Opcode} {target : Option Int} {text : String}, Kept I s u →
      Does (do let _ ← emit opcode target text pos) u () t → Kept I s t := by
    intro u opcode target text hread h
    obtain ⟨ip, w, hemit, h⟩ := h.of_bind
    obtain ⟨-, rfl⟩ := h.of_pure
    exact hread.trans (emit_kept hemit)
  cases k with
  | if_ => exact ifStatement_kept hstatement h
  | while_ => exact whileStatement_kept hstatement h
  | break_ | continue_ | return_ =>
    obtain ⟨_, s₁, hdelim, h⟩ := h.of_bind
    exact hemits (expect_taken hdelim).kept h
  | goto | gosub =>
    obtain ⟨_, s₁, hname, h⟩ := h.of_bind
    obtain ⟨_, s₂, hdelim, h⟩ := h.of_bind
    exact hemits ((name_taken hname).kept.trans (expect_taken hdelim).kept) h
  | else_ => exact absurd h not_does_fail
  | external => exact absurd h not_does_fail

theorem statementWith_kept (h : Does (statementWith decls statement) s () t) : Kept I s t := by
  have h := (getCursor_does _).after ((skipWhite_does s).after h)
  refine (read_skipWhite s).kept.trans ?_
  generalize move s s.cursor.skipWhite = s at h
  generalize s.cursor = c at h
  have hmoved : ∀ d, Kept I s (move s d) := fun d => kept_of_eq rfl rfl
  split at h
  · obtain ⟨-, rfl⟩ := h.of_pure
    exact id
  split at h
  · obtain ⟨-, rfl⟩ := (setCursor_does _ _).unique h
    exact hmoved _
  split at h
  · exact (hmoved _).trans (kept_chained.of_block hstatement ((setCursor_does _ _).after h))
  split at h
  · exact (hmoved _).trans (label_kept hI ((setCursor_does _ _).after h))
  split at h
  · obtain ⟨first, s₁, hname, h⟩ := Does.of_bind h
    refine (name_taken hname).kept.trans ?_
    have h := (Does.get _).after h
    split at h
    · exact absurd h not_does_fail
    · exact keyword_kept hstatement h
    · exact externalStatement_kept hI h
    · exact absurd h not_does_fail
    · exact declaration_kept hI h
    · have hexpr := expressionStatement_kept (I := I) ((setCursor_does s₁ c).after h)
      exact (kept_of_eq rfl rfl).trans hexpr
  · exact absurd h not_does_fail

end Nested

theorem statementAt_kept (n : Nat) {s t : Compilation δ} (h : Does (statementAt decls n) s () t) : Kept I s t := by
  induction n generalizing s t with
  | zero => exact absurd h not_does_fail
  | succ n ih => exact statementWith_kept hI (fun _ _ => ih) h

/-- What is kept by everything new holds of the labels and declarations of a source. -/
theorem compile_kept {source : String} {declared declared' : δ} {p : Program}
    (h : compile decls source declared = (.compiled p, declared')) (hs : I [] declared) : I p.labels declared' := by
  obtain ⟨n, t, hdoes, rfl, rfl⟩ := compile_does h
  exact kept_chained.of_statements (fun _ _ => statementAt_kept hI n) hdoes hs

end Statements

end HostScript.Compiler
