import HostScript.Proofs.EnclosedTexts
import HostScript.Proofs.Progress
import Mathlib.Data.List.TakeWhile
/-!
# Expressions in parentheses

An expression that can be evaluated comes to the same value between parentheses, and does the same to the scope.
At the end of a text its terms are added up until there is nothing left, in a group until the parenthesis that
closes it. So it is enough that a term is read up to the parenthesis as it is read up to the end: nested terms
by the depth, and the rounds of each loop by what is left of the text, since every term takes some of it.
-/

set_option autoImplicit false

namespace HostScript

open HostScript.Text HostScript.Token

variable {κ ι σ α α' β β' : Type}

/-! ## One step after the other -/

theorem run_bind_ok {m : Eval σ α} {s t : Session σ} {a : α} (h : m.run.run s = (.ok a, t)) (f : α → Eval σ β) :
    (m >>= f).run.run s = (f a).run.run t := by
  rw [ExceptT.run_bind, StateT.run_bind, h]
  rfl

theorem run_bind_error {m : Eval σ α} {s t : Session σ} {e : ScriptError} (h : m.run.run s = (.error e, t))
    (f : α → Eval σ β) : (m >>= f).run.run s = (.error e, t) := by
  rw [ExceptT.run_bind, StateT.run_bind, h]
  rfl

/-- What succeeds has done so step by step. -/
theorem exists_of_run_bind {m : Eval σ α} {f : α → Eval σ β} {s t : Session σ} {b : β}
    (h : (m >>= f).run.run s = (.ok b, t)) :
    ∃ a u, m.run.run s = (.ok a, u) ∧ (f a).run.run u = (.ok b, t) := by
  rw [ExceptT.run_bind, StateT.run_bind] at h
  rcases hm : m.run.run s with ⟨e | a, u⟩
  · rw [hm] at h
    cases h
  · rw [hm] at h
    exact ⟨a, u, rfl, h⟩

/-! ## Evaluations that succeed where others do -/

/-- Where the first evaluation succeeds, the second one succeeds as well and leaves the same session, and the relation
holds of what they give. -/
def SucceedsAs (Q : α → β → Prop) (m : Eval σ α) (m' : Eval σ β) : Prop :=
  ∀ s a t, m.run.run s = (.ok a, t) → ∃ b, m'.run.run s = (.ok b, t) ∧ Q a b

namespace SucceedsAs

variable {Q : α → β → Prop} {Q' : α' → β' → Prop}

theorem pure {a : α} {b : β} (h : Q a b) : SucceedsAs (σ := σ) Q (pure a) (pure b) := by
  rintro s _ _ ⟨⟩
  exact ⟨b, rfl, h⟩

theorem throw (e : ScriptError) (m' : Eval σ β) : SucceedsAs Q (throw e) m' := by
  intro s a t h
  cases h

/-- The same is done first on both sides. -/
theorem same (m : Eval σ α) {f : α → Eval σ α'} {f' : α → Eval σ β'} (hf : ∀ a, SucceedsAs Q' (f a) (f' a)) :
    SucceedsAs Q' (m >>= f) (m >>= f') := by
  intro s a' t h
  obtain ⟨a, u, hm, hrest⟩ := exists_of_run_bind h
  obtain ⟨b', hb', hab'⟩ := hf a u a' t hrest
  exact ⟨b', (run_bind_ok hm f').trans hb', hab'⟩

theorem bind {m : Eval σ α} {m' : Eval σ β} {f : α → Eval σ α'} {f' : β → Eval σ β'} (hm : SucceedsAs Q m m')
    (hf : ∀ a b, Q a b → SucceedsAs Q' (f a) (f' b)) : SucceedsAs Q' (m >>= f) (m' >>= f') := by
  intro s a' t h
  obtain ⟨a, u, hrun, hrest⟩ := exists_of_run_bind h
  obtain ⟨b, hb, hab⟩ := hm s a u hrun
  obtain ⟨b', hb', hab'⟩ := hf a b hab u a' t hrest
  exact ⟨b', (run_bind_ok hb f').trans hb', hab'⟩

theorem imp {R : α → β → Prop} {m : Eval σ α} {m' : Eval σ β} (hm : SucceedsAs Q m m')
    (h : ∀ a b, Q a b → R a b) : SucceedsAs R m m' := by
  intro s a t hr
  obtain ⟨b, hb, hab⟩ := hm s a t hr
  exact ⟨b, hb, h a b hab⟩

/-- What is done about errors does not matter to the second one. -/
theorem catching {m : Eval σ α} {m' : Eval σ β} (hm : SucceedsAs Q m m') (f : ScriptError → Eval σ β) :
    SucceedsAs Q m (tryCatch m' f) := by
  intro s a t h
  obtain ⟨b, hb, hab⟩ := hm s a t h
  refine ⟨b, ?_, hab⟩
  rw [ExceptT.run_tryCatch, StateT.run_bind, hb]
  rfl

/-- The first one fails still when its errors are changed. -/
theorem mapError {f : ScriptError → ScriptError} {m : Eval σ α} {m' : Eval σ β} (hm : SucceedsAs Q m m') :
    SucceedsAs Q (tryCatch m fun e => MonadExcept.throw (f e)) m' := by
  intro s a t h
  rw [ExceptT.run_tryCatch, StateT.run_bind] at h
  rcases hr : m.run.run s with ⟨e | a', s₁⟩
  · rw [hr] at h
    cases h
  · rw [hr] at h
    cases h
    exact hm s _ _ hr

theorem ite {c : Prop} [Decidable c] {m n : Eval σ α} {m' n' : Eval σ β} (hm : SucceedsAs Q m m')
    (hn : SucceedsAs Q n n') : SucceedsAs Q (if c then m else n) (if c then m' else n') := by
  split
  · exact hm
  · exact hn

theorem liftExcept {r : Except ScriptError α} {r' : Except ScriptError β}
    (h : ∀ a, r = .ok a → ∃ b, r' = .ok b ∧ Q a b) :
    SucceedsAs (σ := σ) Q (Evaluator.liftExcept r) (Evaluator.liftExcept r') := by
  cases r with
  | error e => exact .throw e _
  | ok a =>
    obtain ⟨b, rfl, hab⟩ := h a rfl
    exact .pure hab

end SucceedsAs

/-- The evaluation fails in every session. -/
def NeverGives (m : Eval σ α) : Prop := ∀ s a t, m.run.run s ≠ (.ok a, t)

theorem NeverGives.throw (e : ScriptError) : NeverGives (throw e : Eval σ α) := by
  intro s a t h
  cases h

theorem NeverGives.bind {m : Eval σ α} (hm : NeverGives m) (f : α → Eval σ α') : NeverGives (m >>= f) := by
  intro s a t h
  obtain ⟨a', u, hrun, -⟩ := exists_of_run_bind h
  exact hm s a' u hrun

theorem NeverGives.succeeds {m : Eval σ α} (hm : NeverGives m) (Q : α → β → Prop) (m' : Eval σ β) :
    SucceedsAs Q m m' :=
  fun s a t h => absurd h (hm s a t)

/-- Actions that cannot fail are followed by what fails, or they do the same on both sides. -/
theorem SucceedsAs.lifted {Q : α' → β' → Prop} {m : Action σ α} {m' : Action σ β} {f : α → Eval σ α'}
    {f' : β → Eval σ β'} (h : ∀ s a t, m.run s = (a, t) →
      NeverGives (f a) ∨ ∃ b, m'.run s = (b, t) ∧ SucceedsAs Q (f a) (f' b)) :
    SucceedsAs Q ((m : Eval σ α) >>= f) ((m' : Eval σ β) >>= f') := by
  intro s a t hrun
  obtain hfails | ⟨b, hm', hf⟩ := h s (m.run s).1 (m.run s).2 rfl
  · exact absurd hrun (hfails _ a t)
  · obtain ⟨c, hc, hac⟩ := hf _ a t hrun
    refine ⟨c, ?_, hac⟩
    change (f' (m'.run s).1).run.run (m'.run s).2 = _
    rw [hm']
    exact hc

theorem skipWhite_ne_nil {cs : List Char} (h : ∃ c ∈ cs, isWhite c = false) : skipWhite cs ≠ [] := by
  intro hnil
  obtain ⟨c, hc, hblack⟩ := h
  have hwhite := List.dropWhile_eq_nil_iff.mp hnil c hc
  rw [hblack] at hwhite
  cases hwhite

/-! ## What is left inside of a group -/

/-- The same was read, and of the enclosed text what is left of the other one; that is shorter than something. -/
def LeavesEnclosed (tail : List Char) (size : Nat) (r r' : α × List Char) : Prop :=
  r' = (r.1, enclosed tail r.2) ∧ r.2.length < size

theorem LeavesEnclosed.mono {tail : List Char} {size size' : Nat} (h : size ≤ size') {r r' : α × List Char}
    (hr : LeavesEnclosed tail size r r') : LeavesEnclosed tail size' r r' :=
  ⟨hr.1, Nat.lt_of_lt_of_le hr.2 h⟩

/-- The second reader reads the terms of enclosed texts that the first one reads of the texts themselves. -/
def ReadsEnclosed (tail : List Char) (term term' : TermReader σ) : Prop :=
  ∀ cs, SucceedsAs (LeavesEnclosed tail cs.length) (term cs) (term' (enclosed tail cs))

/-- The same operand, with what is left of the enclosed text. -/
def Atom.enclosed (tail : List Char) (a : Atom ι) : Atom ι := { a with rest := Token.enclosed tail a.rest }

/-- What is left behind a link of a chain. -/
def Link.rest : Link ι → List Char
  | .last atom => atom.rest
  | .dot _ _ rest => rest

/-- The same link, with what is left of the enclosed text. -/
def Link.enclosed (tail : List Char) : Link ι → Link ι
  | .last atom => .last (atom.enclosed tail)
  | .dot holder made rest => .dot holder made (Token.enclosed tail rest)

namespace Evaluator

variable (ev : Evaluator κ ι σ) {term term' : TermReader σ} {tail : List Char} (hterm : ReadsEnclosed tail term term')

/-! ## Operators -/

/-- The text behind an operator only shows in errors. -/
theorem operate_succeeds (op : Written) (target : Option (Identifier (Symbol ι))) (a : Operand) (b : Value)
    (rest rest' : List Char) :
    SucceedsAs Eq (ev.operate op target a b rest) (ev.operate op target a b rest') := by
  have hsame : ∀ m : Eval σ Operand, SucceedsAs Eq m m := fun m _ a _ h => ⟨a, h, rfl⟩
  refine .same _ fun (a, b) => .same _ fun x => ?_
  dsimp only
  split
  · exact hsame _
  · exact hsame _
  · exact hsame _
  · exact hsame _
  · exact .ite (.throw _ _) (hsame _)
  · exact .ite (.throw _ _) (hsame _)
  · cases target with
    | none => exact .throw _ _
    | some i => exact hsame _
  · exact .throw _ _

include hterm

/-- A term takes something of a text, so there is none where nothing is left. -/
theorem term_nil : NeverGives (term []) := by
  intro s a t h
  obtain ⟨-, -, -, hlt⟩ := hterm [] s a t h
  exact Nat.not_lt_zero _ hlt

theorem sum_succeeds {cs : List Char} {n m : Nat} (hn : cs.length < n) (hm : n ≤ m) (acc : Value) :
    SucceedsAs (LeavesEnclosed tail cs.length) (sum term n acc cs) (sum term' m acc (enclosed tail cs)) := by
  -- on the rounds of the sum: a term leaves less of the text, so that they last for both texts
  induction n generalizing m cs acc with
  | zero => omega
  | succ n ih =>
    obtain ⟨m, rfl⟩ := Nat.exists_eq_add_of_le' (Nat.lt_of_lt_of_le (Nat.succ_pos n) hm)
    apply (hterm cs).bind
    rintro ⟨v, rest⟩ _ ⟨rfl, hlt⟩
    dsimp only at hlt ⊢
    rw [startsSigned_enclosed]
    refine .ite ((ih (by omega) (by omega) _).imp fun _ _ => ?_) (.pure ⟨rfl, hlt⟩)
    exact LeavesEnclosed.mono (Nat.le_of_lt hlt)

/-- Either text has an operator when the other one has. -/
def OperatorEnclosed (tail : List Char) (size : Nat) (r r' : Option (Operand × List Char)) : Prop :=
  r' = r.map (fun r => (r.1, enclosed tail r.2)) ∧ ∀ x ∈ r, x.2.length < size

theorem operator_succeeds (target : Option (Identifier (Symbol ι))) (a : Operand) (cs : List Char) :
    SucceedsAs (OperatorEnclosed tail cs.length) (ev.operator? term target a cs)
      (ev.operator? term' target a (enclosed tail cs)) := by
  unfold operator?
  rw [readOperator_enclosed]
  cases hop : readOperator? cs with
  | none => exact .pure ⟨rfl, nofun⟩
  | some r =>
    obtain ⟨op, rest⟩ := r
    obtain ⟨-, -, behind, rfl, hbehind⟩ := readOperator_first hop
    have hlt := hbehind.length_le
    have hlength := length_enclosed tail rest
    apply (sum_succeeds hterm (Nat.lt_succ_self _) (by dsimp only; omega) _).bind
    rintro ⟨b, rest'⟩ _ ⟨rfl, hlt'⟩
    apply (operate_succeeds ev op target a b _ _).bind
    rintro o _ rfl
    refine .pure ⟨rfl, ?_⟩
    rintro _ ⟨⟩
    simp only [List.length_cons] at hlt' ⊢
    omega

theorem operators_succeeds {cs : List Char} {n m : Nat} (hn : cs.length < n) (hm : n ≤ m)
    (target : Option (Identifier (Symbol ι))) (a : Operand) :
    SucceedsAs (LeavesEnclosed tail (cs.length + 1)) (ev.operators term n target a cs)
      (ev.operators term' m target a (enclosed tail cs)) := by
  induction n generalizing m target a cs with
  | zero => omega
  | succ n ih =>
    obtain ⟨m, rfl⟩ := Nat.exists_eq_add_of_le' (Nat.lt_of_lt_of_le (Nat.succ_pos n) hm)
    apply (operator_succeeds ev hterm target a cs).bind
    rintro r _ ⟨rfl, hlt⟩
    cases r with
    | none => exact .pure ⟨rfl, Nat.lt_succ_self _⟩
    | some r =>
      have hlt := hlt r rfl
      exact (ih (by omega) (by omega) none r.1).imp fun _ _ => LeavesEnclosed.mono (by omega)

/-! ## Arguments -/

/-- An argument ends before something. -/
theorem argument_succeeds {cs : List Char} {n m : Nat} (hn : cs.length < n) (hm : n ≤ m) (acc : Value) :
    SucceedsAs (fun r r' => LeavesEnclosed tail cs.length r r' ∧ r.2 ≠ []) (argument term n acc cs)
      (argument term' m acc (enclosed tail cs)) := by
  induction n generalizing m cs acc with
  | zero => omega
  | succ n ih =>
    obtain ⟨m, rfl⟩ := Nat.exists_eq_add_of_le' (Nat.lt_of_lt_of_le (Nat.succ_pos n) hm)
    apply (hterm cs).bind
    rintro ⟨v, rest⟩ _ ⟨rfl, hlt⟩
    dsimp only at hlt ⊢
    cases rest with
    | nil => exact .throw _ _
    | cons c rest =>
      refine .ite (.pure ⟨⟨rfl, hlt⟩, List.cons_ne_nil c rest⟩) ?_
      refine (ih (by omega) (by omega) _).imp ?_
      rintro r r' ⟨hr, hne⟩
      exact ⟨hr.mono (Nat.le_of_lt hlt), hne⟩

theorem arguments_succeeds {cs : List Char} {n m : Nat} (hn : cs.length < n) (hm : n ≤ m) :
    SucceedsAs (LeavesEnclosed tail cs.length) (arguments term n cs) (arguments term' m (enclosed tail cs)) := by
  induction n generalizing m cs with
  | zero => omega
  | succ n ih =>
    obtain ⟨m, rfl⟩ := Nat.exists_eq_add_of_le' (Nat.lt_of_lt_of_le (Nat.succ_pos n) hm)
    have hlength := length_enclosed tail cs
    apply (argument_succeeds hterm (Nat.lt_succ_self _) (by omega) _).bind
    rintro ⟨v, rest⟩ _ ⟨⟨rfl, hlt⟩, hne⟩
    cases rest with
    | nil => exact absurd rfl hne
    | cons c rest =>
      rw [List.length_cons] at hlt
      dsimp only [enclosed_cons]
      refine .ite (.pure ⟨rfl, by dsimp only; omega⟩) ((ih (by omega) (by omega)).bind ?_)
      rintro ⟨vs, rest'⟩ _ ⟨rfl, hlt'⟩
      exact .pure ⟨rfl, by dsimp only at hlt' ⊢; omega⟩

theorem argumentList_succeeds (cs : List Char) :
    SucceedsAs (LeavesEnclosed tail (cs.length + 1)) (argumentList term cs)
      (argumentList term' (enclosed tail cs)) := by
  have hwhite := skipWhite_length cs
  unfold argumentList
  rw [skipWhite_enclosed]
  generalize skipWhite cs = ws at hwhite ⊢
  cases ws with
  -- an open list may be the rest of a text, where the enclosed one has an empty list
  | nil => exact NeverGives.succeeds (((term_nil hterm).bind _).bind _) _ _
  | cons c ws =>
    by_cases hc : c = ')'
    · subst hc
      exact .pure ⟨rfl, by dsimp only; simp only [List.length_cons] at hwhite; omega⟩
    · have hlength := length_enclosed tail (c :: ws)
      have harguments := (arguments_succeeds hterm (m := (enclosed tail (c :: ws)).length + 1)
        (Nat.lt_succ_self _) (by omega)).imp fun _ _ => LeavesEnclosed.mono (Nat.le_succ_of_le hwhite)
      simpa [hc] using harguments

/-! ## Chains -/

/-- The same operand, with what is left of the enclosed text, and less than something. -/
def AtomEnclosed (tail : List Char) (size : Nat) (a a' : Atom ι) : Prop := a' = a.enclosed tail ∧ a.rest.length < size

/-- The same link, with what is left of the enclosed text, and less than something. -/
def LinkEnclosed (tail : List Char) (size : Nat) (l l' : Link ι) : Prop := l' = l.enclosed tail ∧ l.rest.length < size

omit hterm

/-- A name ends at the parenthesis as at the end. -/
theorem readVariable_succeeds (i : Identifier (Symbol ι)) (cs : List Char) :
    SucceedsAs (LinkEnclosed tail (cs.length + 1)) (ev.readVariable i cs) (ev.readVariable i (enclosed tail cs)) := by
  have hends : endsName ')' = true := by decide
  have hwhite : isWhite ')' = false := by decide
  cases cs with
  | nil =>
    refine .same _ fun o => .pure ⟨?_, Nat.one_pos⟩
    simp [Link.enclosed, Atom.enclosed, skipWhite, hwhite]
  | cons c cs =>
    have hskip := skipWhite_length (c :: cs)
    unfold readVariable
    dsimp only [enclosed_cons]
    refine .ite (.same _ fun o => .pure ⟨?_, Nat.lt_succ_of_le hskip⟩) (.ite ?_ (.throw _ _))
    · rw [← enclosed_cons, skipWhite_enclosed]
      rfl
    · refine .same _ fun o => .same _ fun holder => .pure ⟨?_, ?_⟩
      · rw [skipWhite_enclosed]
        rfl
      · have hskip := skipWhite_length cs
        simp only [Link.rest, List.length_cons]
        omega

/-- What becomes of the result of a call, by what stands behind it. -/
def returned (rest : List Char) (result : Operand) : Eval σ (Link ι) := do
  match rest with
  | '.' :: rest =>
    let holder ← ev.valueOf result
    return .dot holder (Handle.ofValue? holder) (skipWhite rest)
  | _ => return .last ⟨result, none, skipWhite rest⟩

theorem callFunction_cons (term : TermReader σ) (i : Identifier (Symbol ι)) (cs : List Char) :
    ev.callFunction term i ('(' :: cs) = (do
      let r ← argumentList term cs
      match checkParams i.params r.1.length with
      | .error kind => throw ⟨kind, i.name⟩
      | .ok () => ev.accessTo i (.call r.1) >>= ev.returned r.2) := rfl

theorem returned_succeeds {rest : List Char} {size : Nat} (hlt : rest.length < size) (result : Operand) :
    SucceedsAs (LinkEnclosed tail size) (ev.returned rest result) (ev.returned (enclosed tail rest) result) := by
  cases rest with
  | nil =>
    have hwhite : isWhite ')' = false := by decide
    refine .pure ⟨?_, hlt⟩
    simp [Link.enclosed, Atom.enclosed, skipWhite, hwhite]
  | cons d rest =>
    rw [List.length_cons] at hlt
    by_cases hd : d = '.'
    · subst hd
      have hskip := skipWhite_length rest
      refine .same _ fun holder => .pure ⟨?_, by dsimp only [Link.rest]; omega⟩
      exact congrArg (Link.dot holder _) (skipWhite_enclosed tail rest)
    · have hskip := skipWhite_length (d :: rest)
      rw [List.length_cons] at hskip
      have hlast : SucceedsAs (σ := σ) (LinkEnclosed tail size)
          (Pure.pure (.last ⟨result, none, skipWhite (d :: rest)⟩) : Eval σ (Link ι))
          (Pure.pure (.last ⟨result, none, skipWhite (enclosed tail (d :: rest))⟩)) := by
        refine .pure ⟨?_, by dsimp only [Link.rest]; omega⟩
        rw [skipWhite_enclosed]
        rfl
      simpa [returned, hd] using hlast

include hterm

theorem callFunction_succeeds (i : Identifier (Symbol ι)) (cs : List Char) :
    SucceedsAs (LinkEnclosed tail (cs.length + 1)) (ev.callFunction term i cs)
      (ev.callFunction term' i (enclosed tail cs)) := by
  cases cs with
  | nil => exact .throw _ _
  | cons c cs =>
    by_cases hc : c = '('
    · subst hc
      rw [enclosed_cons, callFunction_cons, callFunction_cons]
      apply (argumentList_succeeds hterm cs).bind
      rintro ⟨args, rest⟩ _ ⟨rfl, hlt⟩
      dsimp only at hlt ⊢
      split
      · exact .throw _ _
      · exact .same _ (returned_succeeds ev (Nat.lt_succ_of_lt hlt))
    · have hthrow : SucceedsAs (σ := σ) (LinkEnclosed (ι := ι) tail ((c :: cs).length + 1))
        (throw ⟨.expectedFunction, i.name⟩) (throw ⟨.expectedFunction, i.name⟩) := .throw _ _
      simpa [callFunction, hc] using hthrow

theorem link_succeeds (i : Identifier (Symbol ι)) (cs : List Char) :
    SucceedsAs (LinkEnclosed tail (cs.length + 1)) (ev.link term i cs) (ev.link term' i (enclosed tail cs)) := by
  unfold link
  split
  · exact readVariable_succeeds ev i cs
  · exact readVariable_succeeds ev i cs
  · exact callFunction_succeeds ev hterm i cs
  · exact .throw _ _
  · exact .throw _ _

omit hterm

variable (tail) in
theorem readName_succeeds (cs : List Char) :
    SucceedsAs (σ := σ) (LeavesEnclosed tail cs.length) (liftExcept (readName cs))
      (liftExcept (readName (enclosed tail cs))) := by
  apply SucceedsAs.liftExcept
  intro r hr
  exact ⟨(r.1, enclosed tail r.2), readName_enclosed tail hr, rfl, readName_length hr⟩

variable (tail) in
theorem member_succeeds (holder : Value) (owner : String) (cs : List Char) :
    SucceedsAs (LeavesEnclosed tail cs.length) (ev.member holder owner cs)
      (ev.member holder owner (enclosed tail cs)) := by
  unfold member
  split
  · exact .throw _ _
  · refine .same _ fun s => ?_
    split
    · exact .throw _ _
    · apply (readName_succeeds tail cs).bind
      rintro ⟨name, rest⟩ _ ⟨rfl, hlt⟩
      refine .same _ fun s => ?_
      dsimp only
      split
      · exact .throw _ _
      · exact .pure ⟨rfl, hlt⟩

/-- What following a chain over one link comes to. -/
theorem chain_succ (term : TermReader σ) (n : Nat) (temporary : Option Handle) (i : Identifier (Symbol ι))
    (cs : List Char) (s : Session σ) :
    ev.chain term (n + 1) temporary i cs s =
      match (ev.link term i cs).run.run s with
      | (.error e, t) => ((temporary, .error e), t)
      | (.ok (.last atom), t) => ((temporary, .ok atom), t)
      | (.ok (.dot holder made rest), t) =>
        match (ev.member holder i.name rest).run.run t with
        | (.error e, u) => ((made <|> temporary, .error e), u)
        | (.ok (j, rest), u) => ev.chain term n (made <|> temporary) j rest u := by
  have hbind : ∀ {α β : Type} (m : Action σ α) (f : α → Action σ β) (s : Session σ),
      (m >>= f) s = f (m.run s).1 (m.run s).2 := fun _ _ _ => rfl
  rw [chain, hbind]
  rcases (ev.link term i cs).run.run s with ⟨e | atom | ⟨holder, made, rest⟩, t⟩
  · rfl
  · rfl
  · dsimp only
    rw [hbind]
    rcases (ev.member holder i.name rest).run.run t with ⟨e | ⟨j, rest⟩, u⟩
    · rfl
    · rfl

include hterm

theorem chain_succeeds {cs : List Char} {n m : Nat} (hn : cs.length < n) (hm : n ≤ m)
    {temporary temporary' : Option Handle} {i : Identifier (Symbol ι)} {s t : Session σ} {atom : Atom ι}
    (h : ev.chain term n temporary i cs s = ((temporary', .ok atom), t)) :
    ev.chain term' m temporary i (enclosed tail cs) s = ((temporary', .ok (atom.enclosed tail)), t) ∧
      atom.rest.length ≤ cs.length := by
  induction n generalizing m cs temporary i s with
  | zero => omega
  | succ n ih =>
    obtain ⟨m, rfl⟩ := Nat.exists_eq_add_of_le' (Nat.lt_of_lt_of_le (Nat.succ_pos n) hm)
    rw [chain_succ] at h ⊢
    rcases hlink : (ev.link term i cs).run.run s with ⟨e | l, s₁⟩
    · rw [hlink] at h
      cases h
    obtain ⟨_, hlink', rfl, hlt⟩ := link_succeeds ev hterm i cs s l s₁ hlink
    rw [hlink] at h
    rw [hlink']
    cases l with
    | last a =>
      cases h
      exact ⟨rfl, Nat.le_of_lt_succ hlt⟩
    | dot holder made rest =>
      dsimp only [Link.enclosed, Link.rest] at h hlt ⊢
      rcases hmember : (ev.member holder i.name rest).run.run s₁ with ⟨e | ⟨j, rest'⟩, s₂⟩
      · rw [hmember] at h
        cases h
      obtain ⟨_, hmember', rfl, hlt'⟩ := member_succeeds ev tail holder i.name rest s₁ _ s₂ hmember
      rw [hmember] at h
      rw [hmember']
      dsimp only at h hlt' ⊢
      obtain ⟨hchain, hle⟩ := ih (m := m) (by omega) (by omega) h
      exact ⟨hchain, by omega⟩

/-- The object made for a chain is let go at its end on both sides. -/
theorem identifier_succeeds (cs : List Char) :
    SucceedsAs (AtomEnclosed tail cs.length) (ev.identifier term cs) (ev.identifier term' (enclosed tail cs)) := by
  unfold identifier
  apply (readName_succeeds tail cs).bind
  rintro ⟨name, rest⟩ _ ⟨rfl, hlt⟩
  refine .same _ fun state => ?_
  dsimp only at hlt ⊢
  split
  · exact .throw _ _
  · rename_i i _
    have hlength := length_enclosed tail rest
    apply SucceedsAs.lifted
    rintro s ⟨temporary, outcome⟩ t hchain
    -- whatever the outcome is, the object is let go before it shows
    cases outcome with
    | error e =>
      left
      intro s a t h
      cases temporary <;> cases h
    | ok a =>
      right
      obtain ⟨hchain', hle⟩ := chain_succeeds ev hterm (Nat.lt_succ_self _) (m := (enclosed tail rest).length + 1)
        (by omega) hchain
      have hatom : SucceedsAs (σ := σ) (AtomEnclosed tail cs.length)
        (liftExcept (.ok a)) (liftExcept (.ok (a.enclosed tail))) := .pure ⟨rfl, by omega⟩
      refine ⟨_, hchain', ?_⟩
      cases temporary with
      | none => exact hatom
      | some made => exact .same _ fun _ => hatom

/-! ## Groups and operands -/

theorem group_succeeds {cs : List Char} {n m : Nat} (hn : cs.length < n) (hm : n ≤ m) (acc : Value) :
    SucceedsAs (LeavesEnclosed tail cs.length) (group term n acc cs) (group term' m acc (enclosed tail cs)) := by
  induction n generalizing m cs acc with
  | zero => omega
  | succ n ih =>
    obtain ⟨m, rfl⟩ := Nat.exists_eq_add_of_le' (Nat.lt_of_lt_of_le (Nat.succ_pos n) hm)
    -- a group that the text closes is closed before the parenthesis that encloses it
    have hmore : SucceedsAs (LeavesEnclosed tail cs.length)
        (tryCatch (term cs) (fun e => throw (unclosed e)) >>= fun r => group term n (acc.addAssign r.1) r.2)
        (tryCatch (term' (enclosed tail cs)) (fun e => throw (unclosed e)) >>= fun r =>
          group term' m (acc.addAssign r.1) r.2) := by
      apply ((hterm cs).mapError.catching _).bind
      rintro ⟨v, rest⟩ _ ⟨rfl, hlt⟩
      dsimp only at hlt ⊢
      exact (ih (by omega) (by omega) _).imp fun _ _ => LeavesEnclosed.mono (Nat.le_of_lt hlt)
    cases cs with
    | nil =>
      refine NeverGives.succeeds (NeverGives.bind ?_ _) _ _
      intro s a t h
      obtain ⟨-, -, -, hlt⟩ := (hterm []).mapError s a t h
      exact Nat.not_lt_zero _ hlt
    | cons c cs =>
      by_cases hc : c = ')'
      · subst hc
        refine .pure ⟨?_, Nat.lt_succ_of_le (skipWhite_length cs)⟩
        exact congrArg (Prod.mk acc) (skipWhite_enclosed tail cs)
      · simpa [group, hc] using hmore

theorem atom_succeeds (cs : List Char) :
    SucceedsAs (AtomEnclosed tail cs.length) (ev.atom term cs) (ev.atom term' (enclosed tail cs)) := by
  cases cs with
  | nil => exact .throw _ _
  | cons c cs =>
    unfold atom
    dsimp only [enclosed_cons]
    refine .ite ?_ (.ite ?_ (.ite (identifier_succeeds ev hterm _) ?_))
    · have hrounds : (c :: cs).length + 1 ≤ (c :: enclosed tail cs).length + 1 := by
        simp only [List.length_cons, length_enclosed]
        omega
      apply (group_succeeds hterm (Nat.lt_succ_of_lt (Nat.lt_succ_self _)) hrounds _).bind
      rintro ⟨v, rest⟩ _ ⟨rfl, hlt⟩
      exact .pure ⟨rfl, Nat.lt_succ_of_lt hlt⟩
    · have hnumber := readNumber_enclosed tail (List.cons_ne_nil c cs)
      have hlt := readNumber_length (List.cons_ne_nil c cs)
      rw [enclosed_cons] at hnumber
      rw [hnumber]
      apply (operator_succeeds ev hterm none _ _).bind
      rintro r _ ⟨rfl, hlt'⟩
      cases r with
      | none => exact .pure ⟨rfl, hlt⟩
      | some r => exact .pure ⟨rfl, Nat.lt_trans (hlt' r rfl) hlt⟩
    · by_cases hc : c = '"'
      · subst hc
        have htext : ∀ r, readText ('"' :: cs) = .ok r → ∃ r', readText (enclosed tail ('"' :: cs)) = .ok r' ∧
            LeavesEnclosed tail ('"' :: cs).length r r' :=
          fun r hr => ⟨(r.1, enclosed tail r.2), readText_enclosed tail hr, rfl, readText_length hr⟩
        change SucceedsAs _ (liftExcept (readText ('"' :: cs)) >>= _) _
        apply (SucceedsAs.liftExcept htext).bind
        rintro ⟨v, rest⟩ _ ⟨rfl, hlt⟩
        exact .pure ⟨rfl, hlt⟩
      · have hquote : ¬ (c == '"') = true := by simpa using hc
        rw [if_neg hquote, if_neg hquote]
        exact .throw _ _

theorem operand_succeeds (cs : List Char) :
    SucceedsAs (AtomEnclosed tail cs.length) (ev.operand term cs) (ev.operand term' (enclosed tail cs)) := by
  have hlength := readSigns_length cs
  unfold operand
  rw [readSigns_enclosed]
  generalize readSigns cs = r at hlength ⊢
  obtain ⟨signs, rest⟩ := r
  apply (atom_succeeds ev hterm rest).bind
  rintro a _ ⟨rfl, hlt⟩
  dsimp only at hlength
  cases signs with
  | nil => exact .pure ⟨rfl, by omega⟩
  | cons sign signs => exact .same _ fun v => .pure ⟨rfl, by dsimp only; omega⟩

/-! ## Terms -/

theorem termWith_succeeds : ReadsEnclosed tail (ev.termWith term) (ev.termWith term') := by
  intro cs
  apply (operand_succeeds ev hterm cs).bind
  rintro a _ ⟨rfl, hlt⟩
  have hlength := length_enclosed tail a.rest
  have hrounds : a.rest.length + 1 ≤ (a.enclosed tail).rest.length + 1 := by
    dsimp only [Atom.enclosed]
    omega
  apply (operators_succeeds ev hterm (Nat.lt_succ_self _) hrounds a.target a.operand).bind
  rintro ⟨result, rest⟩ _ ⟨rfl, hlt'⟩
  exact .same _ fun v => .pure ⟨rfl, by dsimp only at hlt' ⊢; omega⟩

omit hterm

variable (tail) in
/-- Terms that are nested less deep than they might be are read as those that are nested that deep. -/
theorem termAt_succeeds {n m : Nat} (hm : n ≤ m) : ReadsEnclosed tail (ev.termAt n) (ev.termAt m) := by
  induction n generalizing m with
  | zero => exact fun cs => .throw _ _
  | succ n ih =>
    obtain ⟨m, rfl⟩ := Nat.exists_eq_add_of_le' (Nat.lt_of_lt_of_le (Nat.succ_pos n) hm)
    exact termWith_succeeds ev (ih (Nat.le_of_succ_le_succ hm))

/-- White space does not come before a term, but is part of it. -/
theorem termAt_skipWhite (n : Nat) (cs : List Char) : ev.termAt n (skipWhite cs) = ev.termAt n cs := by
  cases n with
  | zero => rfl
  | succ n =>
    unfold termAt termWith
    rw [operand_skipWhite]

theorem isWhite_delimiter {c : Char} (hc : isDelimiter c = true) : isWhite c = false := by
  have hdelimiters : "+-/*&|^=<>!%".toList.all (fun c => !isWhite c) = true := by decide
  simpa using List.all_eq_true.mp hdelimiters c (List.contains_iff_mem.mp hc)

/-- No term starts with the parenthesis that closes a group. -/
theorem termAt_closing (n : Nat) (cs : List Char) : NeverGives (ev.termAt n (')' :: cs)) := by
  cases n with
  | zero => exact .throw _
  | succ n =>
    have hwhite : isWhite ')' = false := by decide
    have hsign : signOf? ')' = none := by decide
    have hatom : ev.operand (ev.termAt n) (')' :: cs) = throw ⟨.unexpectedCharacter, (leadByte ')').toString⟩ := by
      rw [operand_atom ev _ hwhite hsign]
      rfl
    refine NeverGives.bind ?_ _
    rw [hatom]
    exact .throw _

/-! ## Expressions -/

/-- What is added up to the end of a text is added up to the parenthesis. -/
theorem terms_succeeds {cs : List Char} {d d' n m : Nat} (hblank : skipWhite cs ≠ []) (hd : d ≤ d') (hn : cs.length < n)
    (hm : n ≤ m) (acc : Value) :
    SucceedsAs (fun v r => r = (v, skipWhite tail)) (terms (ev.termAt d) n acc cs)
      (group (ev.termAt d') m acc (enclosed tail cs)) := by
  induction n generalizing m cs acc with
  | zero => omega
  | succ n ih =>
    obtain ⟨m, rfl⟩ := Nat.exists_eq_add_of_le' (Nat.lt_of_lt_of_le (Nat.succ_pos n) hm)
    have hterm := termAt_succeeds ev tail hd (skipWhite cs)
    rw [termAt_skipWhite, ← skipWhite_enclosed, termAt_skipWhite] at hterm
    have hlength := skipWhite_length cs
    -- behind a term the text ends, where the group does, or a delimiter stands, which is no parenthesis
    have hmore : SucceedsAs (fun v r => r = (v, skipWhite tail)) (terms (ev.termAt d) (n + 1) acc cs)
        (tryCatch (ev.termAt d' (enclosed tail cs)) (fun e => throw (unclosed e)) >>= fun r =>
          group (ev.termAt d') m (acc.addAssign r.1) r.2) := by
      unfold terms
      split
      · contradiction
      · rw [termAt_skipWhite]
        apply (hterm.catching _).bind
        rintro ⟨v, rest⟩ _ ⟨rfl, hlt⟩
        dsimp only at hlt ⊢
        obtain ⟨m, rfl⟩ := Nat.exists_eq_add_of_le' (show 0 < m by omega)
        cases rest with
        | nil => exact .pure rfl
        | cons c rest =>
          dsimp only
          by_cases hc : isDelimiter c = true
          · rw [if_pos hc]
            have hrest : skipWhite (c :: rest) ≠ [] := by
              rw [skipWhite, List.dropWhile_cons_of_neg (by simp [isWhite_delimiter hc])]
              exact List.cons_ne_nil c rest
            exact ih hrest (by omega) (by omega) _
          · rw [if_neg hc]
            exact .throw _ _
    cases cs with
    | nil => exact absurd rfl hblank
    | cons c cs =>
      by_cases hc : c = ')'
      · subst hc
        refine NeverGives.succeeds ?_ _ _
        exact NeverGives.bind (termAt_closing ev d cs) _
      · simpa [group, hc] using hmore

variable (tail) in
/-- In parentheses an expression is an operand. -/
theorem operand_parenthesized {cs : List Char} {d : Nat} (hblank : skipWhite cs ≠ []) (hd : cs.length < d) :
    SucceedsAs (fun v a => a = ⟨.value v, none, skipWhite tail⟩) (ev.expression cs)
      (ev.operand (ev.termAt d) ('(' :: enclosed tail cs)) := by
  have hwhite : isWhite '(' = false := by decide
  have hsign : signOf? '(' = none := by decide
  have hlength := length_enclosed tail cs
  rw [operand_atom ev _ hwhite hsign]
  have hgroup : SucceedsAs (fun v r => r = (v, skipWhite tail)) (ev.expression cs)
      (group (ev.termAt d) (('(' :: enclosed tail cs).length + 1) .undefined (enclosed tail cs)) :=
    terms_succeeds ev hblank hd (Nat.lt_succ_self _) (by simp only [List.length_cons]; omega) .undefined
  rw [← bind_pure (ev.expression cs)]
  apply hgroup.bind
  rintro v _ rfl
  exact .pure rfl

/-! ## Terms that take a whole text -/

/-- An operand with nothing behind it is a term. -/
theorem termAt_of_operand {cs : List Char} {d : Nat} {r : Except ScriptError Value} {s t : Session σ}
    (h : (ev.operand (ev.termAt d) cs).run.run s = (r.map fun v => ⟨.value v, none, []⟩, t)) :
    (ev.termAt (d + 1) cs).run.run s = (r.map fun v => (v, []), t) := by
  rw [termAt, termWith]
  cases r with
  | error e => exact run_bind_error h _
  | ok v => exact run_bind_ok h _

/-- A term with nothing behind it is an expression. -/
theorem expression_of_term {cs : List Char} {r : Except ScriptError Value} {s t : Session σ}
    (hblank : skipWhite cs ≠ []) (h : (ev.termAt (cs.length + 1) cs).run.run s = (r.map fun v => (v, []), t)) :
    (ev.expression cs).run.run s = (r, t) := by
  rw [← termAt_skipWhite] at h
  unfold expression terms
  split
  · contradiction
  · cases r with
    | error e => exact run_bind_error h _
    | ok v => exact run_bind_ok h _

theorem term_parenthesized {cs : List Char} {d : Nat} (hblank : skipWhite cs ≠ []) (hd : cs.length < d) :
    SucceedsAs (fun v r => r = (v, [])) (ev.expression cs) (ev.termAt (d + 1) ('(' :: enclosed [] cs)) := by
  intro s v t h
  obtain ⟨_, hoperand, rfl⟩ := operand_parenthesized ev [] hblank hd s v t h
  exact ⟨(v, []), termAt_of_operand ev (r := .ok v) hoperand, rfl⟩

/-- An expression in parentheses comes to what it comes to without them. -/
theorem expression_parenthesized {cs : List Char} (hblank : skipWhite cs ≠ []) :
    SucceedsAs Eq (ev.expression cs) (ev.expression ('(' :: enclosed [] cs)) := by
  have hlength : cs.length < ('(' :: enclosed [] cs).length := by
    rw [List.length_cons, length_enclosed]
    omega
  intro s v t h
  obtain ⟨_, hterm, rfl⟩ := term_parenthesized ev hblank hlength s v t h
  exact ⟨v, expression_of_term ev (r := .ok v) (List.cons_ne_nil _ _) hterm, rfl⟩

end Evaluator

/-- What an evaluation answers when its expression has come to something. -/
theorem Engine.calculate_of_expression (engine : Engine κ ι σ) {depth : Nat} {text : String} {s t : Session σ}
    {r : Except ScriptError Value}
    (h : ((engine.evaluator depth).expression text.toList).run.run ⟨s.state, .clear⟩ = (r, t)) :
    engine.calculate (depth + 1) text s =
      match r with
      | .ok v => (some v, t)
      | .error e => (none, { t with errors := t.errors.report e }) := by
  rw [StateT.run, evaluator] at h
  rw [calculate_eq, h]
  cases r <;> rfl

/-- Whatever the scope, a text with an expression that can be evaluated comes to the same value in parentheses, and
leaves the same session: the same state of the scope, and no error. So it does without a scope, for the calculator
and for a script. -/
theorem Engine.calculate_parenthesized (engine : Engine κ ι σ) (depth : Nat) {text : String} {s : Session σ}
    (hblank : ∃ c ∈ text.toList, isWhite c = false) (h : (engine.calculate depth text s).1.isSome) :
    engine.calculate depth ("(" ++ text ++ ")") s = engine.calculate depth text s := by
  cases depth with
  | zero => cases h
  | succ depth =>
    have htext : ("(" ++ text ++ ")").toList = '(' :: enclosed [] text.toList := by
      simp [enclosed]
    rcases hexpression : ((engine.evaluator depth).expression text.toList).run.run ⟨s.state, .clear⟩ with ⟨e | v, t⟩
    · rw [engine.calculate_of_expression hexpression] at h
      cases h
    · have hblank := skipWhite_ne_nil hblank
      obtain ⟨_, hparenthesized, rfl⟩ := (engine.evaluator depth).expression_parenthesized hblank _ _ _ hexpression
      rw [← htext] at hparenthesized
      rw [engine.calculate_of_expression hexpression, engine.calculate_of_expression hparenthesized]

/-- A script assigns a text with a parenthesis in it, and assigns again in a group on the way. -/
theorem ScriptState.calculate_assignments_parenthesized :
    let i := ((Interpreter.new (Registry.empty : Registry Empty) true 0).compile "int a; string b;").1
    let calculate := fun text => (ScriptState.engine i.registry).calculate 2 text ⟨i.script, .clear⟩
    ((calculate "b = \")\" + 2*(a = 4)").1.map Value.text = some ")8") ∧
      calculate ("(" ++ "b = \")\" + 2*(a = 4)" ++ ")") = calculate "b = \")\" + 2*(a = 4)" := by
  intro i calculate
  have hvalue : (calculate "b = \")\" + 2*(a = 4)").1.map Value.text = some ")8" := by decide +kernel
  refine ⟨hvalue, (ScriptState.engine i.registry).calculate_parenthesized 2 ⟨'b', by decide, by decide⟩ ?_⟩
  rw [← Option.isSome_map (f := Value.text)]
  exact Option.isSome_of_eq_some hvalue

end HostScript
