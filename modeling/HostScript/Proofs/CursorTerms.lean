import HostScript.Proofs.CursorReading
/-!
# What is evaluated at a cursor

An engine with a cursor does to the session what the evaluator does on the text that is left, with the same value
or the same error, and the cursor gets as far as the evaluator does. No loop of it goes on for ever, because each
round takes something of the text, and so does every call of a routine from within itself. The functions of the
scope have to come to an end, and to leave the cursor and the text as they are.
-/

set_option autoImplicit false

namespace HostScript

open HostScript.Text HostScript.Token

variable {σ α α' β β' : Type} {text : List Char} {p p' : Nat} {cs : List Char}

theorem exists_of_headD {c d : Char} (h : cs.headD d = c) (hc : c ≠ d) : ∃ rest, cs = c :: rest := by
  cases cs with
  | nil => exact absurd h.symm hc
  | cons c' cs => exact ⟨cs, by rw [← h, List.headD_cons]⟩

/-! ## Steps beside actions -/

/-- At a place of the text, the steps come to an end and do to the session what the action does; of what both give
and of the place where the cursor stands then, the relation holds. -/
def RunsAs (text : List Char) (p : Nat) (Q : α → β → Nat → Prop) (m : Nat → Steps σ α) (r : Action σ β) : Prop :=
  ∀ s, ∃ a p', Comes (fun k => m k (Desk.on text p s)) (a, Desk.on text p' (r s).2) ∧ Q a (r s).1 p'

/-- The relation holds of values, and errors are the same. -/
inductive Both (Q : α → β → Nat → Prop) : Except ScriptError α → Except ScriptError β → Nat → Prop
  | ok {a b p} : Q a b p → Both Q (.ok a) (.ok b) p
  | error (e p) : Both Q (.error e) (.error e) p

theorem Both.imp {Q R : α → β → Nat → Prop} {a : Except ScriptError α} {b : Except ScriptError β}
    (h : Both Q a b p) (hQ : ∀ a b p, Q a b p → R a b p) : Both R a b p := by
  cases h with
  | ok h => exact .ok (hQ _ _ _ h)
  | error e => exact .error e p

/-- The same for what may fail. -/
def EvaluatesAs (text : List Char) (p : Nat) (Q : α → β → Nat → Prop) (m : Nat → Routine σ α) (r : Eval σ β) : Prop :=
  RunsAs text p (Both Q) (fun k => (m k).run) r.run

/-- The same value, and the cursor stands where it stood. -/
def StaysAt (p : Nat) (a b : α) (p' : Nat) : Prop := a = b ∧ p' = p

/-- The same value, and the cursor stands before what is left, which is shorter than something. -/
def Takes (text : List Char) (size : Nat) (a : α) (b : α × List Char) (p' : Nat) : Prop :=
  a = b.1 ∧ LeftAt text p' b.2 ∧ b.2.length < size

namespace RunsAs

variable {Q : α → β → Nat → Prop} {Q' : α' → β' → Nat → Prop}

theorem pure {a : α} {b : β} (h : Q a b p) : RunsAs (σ := σ) text p Q (fun _ => pure a) (pure b) :=
  fun _ => ⟨a, p, .const _, h⟩

theorem bind {m : Nat → Steps σ α} {r : Action σ β} {f : Nat → α → Steps σ α'} {g : β → Action σ β'}
    (hm : RunsAs text p Q m r) (hf : ∀ a b p', Q a b p' → RunsAs text p' Q' (fun k => f k a) (g b)) :
    RunsAs text p Q' (fun k => m k >>= f k) (r >>= g) := by
  intro s
  obtain ⟨a, p', hrun, ha⟩ := hm s
  obtain ⟨a', p'', hrun', ha'⟩ := hf a _ p' ha (r s).2
  exact ⟨a', p'', Comes.bind hrun hrun', ha'⟩

theorem step {m : Nat → Steps σ α} {r : Action σ β} (hm : RunsAs text p Q (fun k => m (k + 1)) r) :
    RunsAs text p Q m r := by
  intro s
  obtain ⟨a, p', hrun, ha⟩ := hm s
  exact ⟨a, p', .step hrun, ha⟩

theorem imp {R : α → β → Nat → Prop} {m : Nat → Steps σ α} {r : Action σ β} (hm : RunsAs text p Q m r)
    (h : ∀ a b p', Q a b p' → R a b p') : RunsAs text p R m r := by
  intro s
  obtain ⟨a, p', hrun, ha⟩ := hm s
  exact ⟨a, p', hrun, h _ _ _ ha⟩

theorem ofAction (m : Action σ α) : RunsAs text p (StaysAt p) (fun _ => Routine.ofAction m) m :=
  fun _ => ⟨_, p, .const _, rfl, rfl⟩

end RunsAs

namespace EvaluatesAs

variable {Q : α → β → Nat → Prop} {Q' : α' → β' → Nat → Prop}

theorem pure {a : α} {b : β} (h : Q a b p) : EvaluatesAs (σ := σ) text p Q (fun _ => pure a) (pure b) :=
  RunsAs.pure (.ok h)

theorem throw (e : ScriptError) : EvaluatesAs (σ := σ) text p Q (fun _ => throw e) (throw e) := RunsAs.pure (.error e p)

theorem bind {m : Nat → Routine σ α} {r : Eval σ β} {f : Nat → α → Routine σ α'} {g : β → Eval σ β'}
    (hm : EvaluatesAs text p Q m r) (hf : ∀ a b p', Q a b p' → EvaluatesAs text p' Q' (fun k => f k a) (g b)) :
    EvaluatesAs text p Q' (fun k => m k >>= f k) (r >>= g) := by
  change RunsAs text p _ (fun k => (m k).run >>= ExceptT.bindCont (f k)) (r.run >>= ExceptT.bindCont g)
  refine RunsAs.bind hm fun a b p' hab => ?_
  cases hab with
  | ok h => exact hf _ _ _ h
  | error e => exact RunsAs.pure (.error e p')

theorem step {m : Nat → Routine σ α} {r : Eval σ β} (hm : EvaluatesAs text p Q (fun k => m (k + 1)) r) :
    EvaluatesAs text p Q m r :=
  RunsAs.step (m := fun k => (m k).run) hm

theorem imp {R : α → β → Nat → Prop} {m : Nat → Routine σ α} {r : Eval σ β} (hm : EvaluatesAs text p Q m r)
    (h : ∀ a b p', Q a b p' → R a b p') : EvaluatesAs text p R m r :=
  RunsAs.imp hm fun _ _ _ hab => hab.imp h

/-- Both fail, whatever comes next. -/
theorem fail (e : ScriptError) {γ γ' : Type} {f : Nat → γ → Routine σ α} {g : γ' → Eval σ β} :
    EvaluatesAs text p Q (fun k => MonadExcept.throw e >>= f k) (MonadExcept.throw e >>= g) :=
  RunsAs.pure (.error e p)

/-- What the reader gives is changed at the end. -/
theorem map {Q' : α → β' → Nat → Prop} {m : Nat → Routine σ α} {r : Eval σ β} {g : β → β'}
    (hm : EvaluatesAs text p Q m r) (hg : ∀ a b p', Q a b p' → Q' a (g b) p') :
    EvaluatesAs text p Q' m (r >>= fun b => Pure.pure (g b)) := by
  have hbind := EvaluatesAs.bind (f := fun _ a => (Pure.pure a : Routine σ α)) hm fun a b p' hab =>
    EvaluatesAs.pure (Q := Q') (hg a b p' hab)
  simpa only [bind_pure] using hbind

theorem ofEval (m : Eval σ α) : EvaluatesAs text p (StaysAt p) (fun _ => Routine.ofEval m) m := by
  refine RunsAs.imp (RunsAs.ofAction m.run) fun a b p' hab => ?_
  obtain ⟨rfl, rfl⟩ := hab
  cases a with
  | ok a => exact .ok ⟨rfl, rfl⟩
  | error e => exact .error e _

/-- What only reads comes first. -/
theorem reads {m : Nat → Routine σ α'} {a : α'} {f : Nat → α' → Routine σ α} {r : Eval σ β}
    (hm : Reads text p m (.ok a) p') (hf : EvaluatesAs text p' Q (fun k => f k a) r) :
    EvaluatesAs text p Q (fun k => m k >>= f k) r := by
  intro s
  obtain ⟨b, p'', hrun, hb⟩ := hf s
  exact ⟨b, p'', Comes.bind (hm s) hrun, hb⟩

/-- White space comes first. -/
theorem eatWhite {f : Nat → Unit → Routine σ α} {r : Eval σ β} (h : LeftAt text p cs)
    (hf : ∀ p', LeftAt text p' (skipWhite cs) → EvaluatesAs text p' Q (fun k => f k ()) r) :
    EvaluatesAs text p Q (fun k => Routine.eatWhite k >>= f k) r := by
  obtain ⟨p', hwhite, hleft⟩ := Reads.eatWhite (σ := σ) h
  exact .reads hwhite (hf p' hleft)

/-- An action that cannot fail comes first. -/
theorem lift {m : Nat → Steps σ α'} {f : Nat → α' → Routine σ α} {r : Action σ β'} {g : β' → Eval σ β}
    (hm : RunsAs text p Q' m r) (hf : ∀ a b p', Q' a b p' → EvaluatesAs text p' Q (fun k => f k a) (g b)) :
    EvaluatesAs text p Q (fun k => (m k : Routine σ α') >>= f k) ((r : Eval σ β') >>= g) := by
  refine EvaluatesAs.bind (Q := Q') ?_ hf
  exact RunsAs.bind hm fun _ _ _ h => RunsAs.pure (.ok h)

/-- An error is passed on as another one. -/
theorem mapError {f : ScriptError → ScriptError} {m : Nat → Routine σ α} {r : Eval σ β}
    (hm : EvaluatesAs text p Q m r) :
    EvaluatesAs text p Q (fun k => tryCatch (m k) fun e => MonadExcept.throw (f e))
      (tryCatch r fun e => MonadExcept.throw (f e)) := by
  rw [EvaluatesAs]
  simp only [ExceptT.run_tryCatch]
  refine RunsAs.bind hm fun a b p' hab => ?_
  cases hab with
  | ok h => exact RunsAs.pure (.ok h)
  | error e => exact RunsAs.pure (.error (f e) p')

theorem ifPos {c : Prop} [Decidable c] {m m' : Nat → Routine σ α} {r : Eval σ β} (hc : c)
    (hm : EvaluatesAs text p Q m r) : EvaluatesAs text p Q (fun k => if c then m k else m' k) r := by
  simpa only [if_pos hc] using hm

theorem ifNeg {c : Prop} [Decidable c] {m m' : Nat → Routine σ α} {r : Eval σ β} (hc : ¬c)
    (hm : EvaluatesAs text p Q m' r) : EvaluatesAs text p Q (fun k => if c then m k else m' k) r := by
  simpa only [if_neg hc] using hm

theorem ite {c : Prop} [Decidable c] {m m' : Nat → Routine σ α} {r r' : Eval σ β} (hm : c → EvaluatesAs text p Q m r)
    (hm' : ¬c → EvaluatesAs text p Q m' r') :
    EvaluatesAs text p Q (fun k => if c then m k else m' k) (if c then r else r') := by
  by_cases hc : c
  · rw [if_pos hc]
    exact .ifPos hc (hm hc)
  · rw [if_neg hc]
    exact .ifNeg hc (hm' hc)

/-- The state of the scope is the same on both sides. -/
theorem state {f : Nat → σ → Routine σ α} {g : σ → Eval σ β} (hf : ∀ s, EvaluatesAs text p Q (fun k => f k s) (g s)) :
    EvaluatesAs text p Q (fun k => Routine.look Desk.state >>= f k) (Evaluator.getState >>= g) :=
  fun s => hf s.state s

theorem token {m : Nat → Routine σ α} {r : Except ScriptError (α × List Char)} {size : Nat} (hm : ReadsAs text p m r)
    (hsize : ∀ a rest, r = .ok (a, rest) → rest.length < size) :
    EvaluatesAs text p (Takes text size) m (Evaluator.liftExcept r) := by
  intro s
  obtain ⟨p', hreads, hleft⟩ := hm
  rcases r with e | ⟨a, rest⟩
  · exact ⟨_, p', hreads s, .error e p'⟩
  · exact ⟨_, p', hreads s, .ok ⟨rfl, hleft _ _ rfl, hsize _ _ rfl⟩⟩

/-- Looking a value up changes nothing. -/
theorem value {κ ι : Type} {ev : Evaluator κ ι σ} {o : Operand} {m : Nat → Routine σ α} {f : Value → Eval σ β}
    (hf : ∀ x, EvaluatesAs text p Q m (f x)) : EvaluatesAs text p Q m (ev.valueOf o >>= f) :=
  fun s => hf _ s

end EvaluatesAs

namespace CursorEngine

variable {κ ι : Type} {en : CursorEngine κ ι σ} {access : Evaluation σ → ι → Access → Action σ (Answer Operand)}
  {nested : Evaluation σ}

/-- The evaluator over the scope of the engine, with other functions. -/
def evaluator (en : CursorEngine κ ι σ) (access : Evaluation σ → ι → Access → Action σ (Answer Operand))
    (nested : Evaluation σ) : Evaluator κ ι σ :=
  { registry := en.registry, scope := { en.scope with access := access }, nested := nested }

/-- The functions of the scope come to an end wherever they are called, do what these do, and leave the text and
the cursor as they are. -/
def Answers (en : CursorEngine κ ι σ) (access : Evaluation σ → ι → Access → Action σ (Answer Operand))
    (nested : Evaluation σ) : Prop :=
  ∀ i a text p, RunsAs text p (StaysAt p) (fun k => en.access k i a) (access nested i a)

/-! ## Operands -/

theorem valueOf_evaluates (a : Operand) :
    EvaluatesAs text p (StaysAt p) (fun _ => en.valueOf a) ((en.evaluator access nested).valueOf a) := .ofEval _

theorem accessTo_evaluates (hen : Answers en access nested) (i : Identifier (Symbol ι)) (a : Access) :
    EvaluatesAs text p (StaysAt p) (fun k => en.accessTo k i a) ((en.evaluator access nested).accessTo i a) := by
  have hdispatch : RunsAs text p (StaysAt p) (fun k => en.dispatch k i.id a)
      ((en.evaluator access nested).dispatch (en.evaluator access nested).nested i.id a) := by
    rcases i.id with b | index | j
    · exact RunsAs.ofAction (en.toEngine.dispatch (fun _ => pure none) (.builtin b) a)
    · exact RunsAs.ofAction (en.toEngine.dispatch (fun _ => pure none) (.registered index) a)
    · exact hen j a text p
  refine EvaluatesAs.bind (Q := StaysAt p) ?_ fun answer _ p' h => ?_
  · exact RunsAs.bind hdispatch fun _ _ _ h => .pure (.ok h)
  · obtain ⟨rfl, rfl⟩ := h
    rcases answer with kind | _ | operand
    · exact .throw _
    · exact .throw _
    · exact .pure ⟨rfl, rfl⟩

/-- Only an assignment accesses the scope. -/
theorem operate_quiet {op : Written} {target : Option (Identifier (Symbol ι))}
    (h : op.operator = .assign → target = none) (a : Operand) (b : Value) (rest : List Char) :
    en.quiet.operate op target a b rest = (en.evaluator access nested).operate op target a b rest := by
  unfold Evaluator.operate
  cases hop : op.operator with
  | assign =>
    rw [h hop]
    rfl
  | _ => rfl

theorem operate_evaluates (hen : Answers en access nested) (h : LeftAt text p cs) (op : Written)
    (target : Option (Identifier (Symbol ι))) (a : Operand) (b : Value) :
    EvaluatesAs text p (StaysAt p) (fun k => en.operate k op target a b)
      ((en.evaluator access nested).operate op target a b cs) := by
  refine .reads (.look fun _ => h.rest) ?_
  cases target with
  | none =>
    rw [operate_quiet fun _ => rfl]
    exact .ofEval _
  | some i =>
    by_cases hop : op.operator = .assign
    · refine .ifPos hop ?_
      unfold Evaluator.operate
      rw [hop]
      refine .bind (.ofEval _) ?_
      rintro ⟨a, b⟩ _ _ ⟨rfl, rfl⟩
      refine .value fun x => .bind (accessTo_evaluates hen i _) ?_
      rintro _ _ _ ⟨rfl, rfl⟩
      exact .ofEval _
    · refine .ifNeg hop ?_
      rw [operate_quiet fun h => absurd h hop]
      exact .ofEval _

/-! ## Sums and operators -/

/-- At every place with less than some size left, the engine evaluates the term that the reader reads there. -/
def TermsBelow (en : CursorEngine κ ι σ) (size : Nat) (term : TermReader σ) : Prop :=
  ∀ {text p cs}, LeftAt text p cs → cs.length < size → EvaluatesAs text p (Takes text cs.length) en.term (term cs)

variable {size n : Nat} {term : TermReader σ}

theorem sum_evaluates (hterm : TermsBelow en size term) (h : LeftAt text p cs) (hsize : cs.length < size)
    (hn : cs.length < n) (acc : Value) :
    EvaluatesAs text p (Takes text cs.length) (fun k => en.sum k acc) (Evaluator.sum term n acc cs) := by
  induction n generalizing p cs acc with
  | zero => cases hn
  | succ n ih =>
    rw [Evaluator.sum]
    refine .step ?_
    refine (hterm h hsize).bind ?_
    rintro v ⟨_, rest⟩ p' ⟨rfl, hleft, hlt⟩
    refine .reads (.peek hleft) ?_
    dsimp only at hleft hlt ⊢
    have hsigned : startsSigned rest = (rest.headD '\x00' == '+' || rest.headD '\x00' == '-') := by cases rest <;> rfl
    rw [hsigned]
    refine .ite (fun _ => ?_) fun _ => .pure ⟨rfl, hleft, hlt⟩
    refine (ih hleft (by omega) (by omega) _).imp ?_
    rintro a b p'' ⟨ha, hleft', hlt'⟩
    exact ⟨ha, hleft', by omega⟩

/-- An operator was applied and took something, or there was none. -/
def TakesOperator (text : List Char) (p size : Nat) (a : Option Operand) (b : Option (Operand × List Char)) (p' : Nat) :
    Prop :=
  match b with
  | none => a = none ∧ p' = p
  | some b => ∃ o, a = some o ∧ Takes text size o b p'

/-- The right operand of an operator, and what the operator makes of both. -/
theorem rightOperand_evaluates (hen : Answers en access nested) (hterm : TermsBelow en size term)
    (h : LeftAt text p cs) (hsize : cs.length < size) {k : Nat} (hk : cs.length < k) (op : Written)
    (target : Option (Identifier (Symbol ι))) (a : Operand) :
    EvaluatesAs text p (TakesOperator text p' k)
      (fun k => do return some (← en.operate k op target a (← en.sum k .undefined)))
      (do
        let (b, rest) ← Evaluator.sum term (cs.length + 1) .undefined cs
        let a ← (en.evaluator access nested).operate op target a b rest
        return some (a, rest)) := by
  refine (sum_evaluates hterm h hsize (Nat.lt_succ_self _) _).bind ?_
  rintro b ⟨_, rest⟩ p'' ⟨rfl, hleft, hlt⟩
  refine (operate_evaluates hen hleft op target a b).bind ?_
  rintro o _ _ ⟨rfl, rfl⟩
  exact .pure ⟨o, rfl, rfl, hleft, Nat.lt_trans hlt hk⟩

theorem operator_evaluates (hen : Answers en access nested) (hterm : TermsBelow en size term) (h : LeftAt text p cs)
    (hsize : cs.length ≤ size) (target : Option (Identifier (Symbol ι))) (a : Operand) :
    EvaluatesAs text p (TakesOperator text p cs.length) (fun k => en.operator? k target a)
      ((en.evaluator access nested).operator? term target a cs) := by
  rw [Evaluator.operator?]
  refine .step ?_
  refine .reads (.peek h) ?_
  cases cs with
  | nil => exact .ifPos (by decide) (.pure ⟨rfl, rfl⟩)
  | cons c cs =>
    rw [List.length_cons] at hsize
    rw [List.headD_cons]
    by_cases hc : startsOperator c = true
    · have hnul : c ≠ '\x00' := by
        rintro rfl
        exact absurd hc (by decide)
      refine .ifNeg (by simp [hnul, hc]) (.reads (.skip 1) (.reads (.peek h.tail) ?_))
      cases cs with
      | nil =>
        have hread : readOperator? [c] = some (⟨c, none⟩, []) := by simp [readOperator?, hc]
        rw [hread]
        exact .ifNeg (by decide) (rightOperand_evaluates hen hterm h.tail hsize (by simp) _ _ _)
      | cons d rest =>
        rw [List.length_cons] at hsize
        rw [List.headD_cons]
        by_cases hd : extendsOperator d = true
        · have hread : readOperator? (c :: d :: rest) = some (⟨c, some d⟩, rest) := by simp [readOperator?, hc, hd]
          have hnul : d ≠ '\x00' := by
            rintro rfl
            exact absurd hd (by decide)
          rw [hread]
          refine .ifPos (by simp [hnul, hd]) (.reads (.skip 1) ?_)
          exact rightOperand_evaluates hen hterm h.tail.tail (by omega) (by simp only [List.length_cons]; omega) _ _ _
        · have hread : readOperator? (c :: d :: rest) = some (⟨c, none⟩, d :: rest) := by
            simp [readOperator?, hc, hd]
          rw [hread]
          refine .ifNeg (by simp [hd]) ?_
          exact rightOperand_evaluates hen hterm h.tail (by simp only [List.length_cons]; omega) (by simp) _ _ _
    · have hread : readOperator? (c :: cs) = none := by simp [readOperator?, hc]
      rw [hread]
      exact .ifPos (by simp [hc]) (.pure ⟨rfl, rfl⟩)

theorem operators_evaluates (hen : Answers en access nested) (hterm : TermsBelow en size term) (h : LeftAt text p cs)
    (hsize : cs.length ≤ size) (hn : cs.length < n) (target : Option (Identifier (Symbol ι))) (a : Operand) :
    EvaluatesAs text p (Takes text (cs.length + 1)) (fun k => en.operators k target a)
      ((en.evaluator access nested).operators term n target a cs) := by
  induction n generalizing p cs target a with
  | zero => cases hn
  | succ n ih =>
    rw [Evaluator.operators]
    refine .step ?_
    refine (operator_evaluates hen hterm h hsize target a).bind ?_
    intro o r p' hr
    cases r with
    | none =>
      obtain ⟨rfl, rfl⟩ := hr
      exact .pure ⟨rfl, h, Nat.lt_succ_self _⟩
    | some r =>
      obtain ⟨o, rfl, rfl, hleft, hlt⟩ := hr
      refine (ih hleft (by omega) (by omega) none r.1).imp ?_
      rintro a b p'' ⟨ha, hleft', hlt'⟩
      exact ⟨ha, hleft', by omega⟩

/-! ## Arguments -/

/-- An argument ends before a comma or a parenthesis. -/
def TakesArgument (text : List Char) (size : Nat) (v : Value) (b : Value × List Char) (p' : Nat) : Prop :=
  Takes text size v b p' ∧ b.2 ≠ []

theorem argument_evaluates (hterm : TermsBelow en size term) (h : LeftAt text p cs) (hsize : cs.length < size)
    (hn : cs.length < n) (acc : Value) :
    EvaluatesAs text p (TakesArgument text cs.length) (fun k => en.argument k acc)
      (Evaluator.argument term n acc cs) := by
  induction n generalizing p cs acc with
  | zero => cases hn
  | succ n ih =>
    rw [Evaluator.argument]
    refine .step ?_
    refine (hterm h hsize).bind ?_
    rintro v ⟨_, rest⟩ p' ⟨rfl, hleft, hlt⟩
    refine .reads (.peek hleft) ?_
    dsimp only at hleft hlt ⊢
    cases rest with
    | nil => exact .ifNeg (by decide) (.reads (.atEnd hleft) (.ifPos rfl (.throw _)))
    | cons c rest =>
      refine .ite (fun _ => .pure ⟨⟨rfl, hleft, hlt⟩, List.cons_ne_nil _ _⟩) fun _ => ?_
      refine .reads (.atEnd hleft) (.ifNeg Bool.false_ne_true ?_)
      refine (ih hleft (by omega) (by omega) _).imp ?_
      rintro a b p'' ⟨⟨ha, hleft', hlt'⟩, hne⟩
      exact ⟨⟨ha, hleft', by omega⟩, hne⟩

theorem arguments_evaluates (hterm : TermsBelow en size term) (h : LeftAt text p cs) (hsize : cs.length < size)
    (hn : cs.length < n) (values : List Value) :
    EvaluatesAs text p (fun vs b => Takes text cs.length vs (values ++ b.1, b.2)) (fun k => en.arguments k values)
      (Evaluator.arguments term n cs) := by
  induction n generalizing p cs values with
  | zero => cases hn
  | succ n ih =>
    rw [Evaluator.arguments]
    refine .step ?_
    refine (argument_evaluates hterm h hsize (Nat.lt_succ_self _) _).bind ?_
    rintro v ⟨_, rest⟩ p' ⟨⟨rfl, hleft, hlt⟩, hne⟩
    refine .reads (.peek hleft) (.reads (.skip 1) ?_)
    dsimp only at hleft hlt hne ⊢
    cases rest with
    | nil => exact absurd rfl hne
    | cons c rest =>
      rw [List.length_cons] at hlt
      refine .ite (fun _ => .pure ⟨rfl, hleft.tail, Nat.lt_of_succ_lt hlt⟩) fun _ => ?_
      refine (ih hleft.tail (by omega) (by omega) (values ++ [v])).map ?_
      rintro vs ⟨more, rest'⟩ p'' ⟨rfl, hleft', hlt'⟩
      exact ⟨by simp, hleft', Nat.lt_trans hlt' (by omega)⟩

theorem argumentList_evaluates (hterm : TermsBelow en size term) (h : LeftAt text p cs) (hsize : cs.length < size) :
    EvaluatesAs text p (Takes text (cs.length + 1)) en.argumentList (Evaluator.argumentList term cs) := by
  have hwhite := skipWhite_length cs
  rw [Evaluator.argumentList]
  refine .step ?_
  refine .eatWhite h fun p' hleft => .reads (.peek hleft) ?_
  generalize skipWhite cs = rest at hwhite hleft ⊢
  have hmore : EvaluatesAs text p' (Takes text (cs.length + 1)) (fun k => en.arguments k [])
      (Evaluator.arguments term (rest.length + 1) rest) := by
    refine (arguments_evaluates hterm hleft (by omega) (by omega) []).imp ?_
    rintro vs ⟨_, rest'⟩ p'' ⟨rfl, hleft', hlt⟩
    exact ⟨rfl, hleft', Nat.lt_of_lt_of_le hlt (by omega)⟩
  by_cases hclose : rest.headD '\x00' = ')'
  · obtain ⟨rest, rfl⟩ := exists_of_headD hclose (by decide)
    refine .ifPos rfl (.reads (.skip 1) (.pure ⟨rfl, hleft.tail, ?_⟩))
    rw [List.length_cons] at hwhite
    exact Nat.lt_succ_of_lt hwhite
  · refine .ifNeg (by simpa using hclose) ?_
    split
    · simp at hclose
    · exact hmore

/-! ## Chains -/

/-- A part of a chain that is the last one takes what is not longer, and one with a member behind it takes
something. -/
def TakesHop (text : List Char) (size : Nat) (hop : Hop ι) (link : Link ι) (p' : Nat) : Prop :=
  match hop, link with
  | .last a target, .last atom => a = atom.operand ∧ target = atom.target ∧ LeftAt text p' atom.rest ∧
      atom.rest.length ≤ size
  | .dot holder temporary, .dot holder' temporary' rest => holder = holder' ∧ temporary = temporary' ∧
      LeftAt text p' rest ∧ rest.length < size
  | _, _ => False

theorem readVariable_evaluates (hen : Answers en access nested) (h : LeftAt text p cs) (i : Identifier (Symbol ι)) :
    EvaluatesAs text p (TakesHop text cs.length) (fun k => en.readVariable k i)
      ((en.evaluator access nested).readVariable i cs) := by
  refine .reads (.peek h) ?_
  cases cs with
  | nil =>
    refine .ifPos (by decide) ((accessTo_evaluates hen i .read).bind ?_)
    rintro a _ _ ⟨rfl, rfl⟩
    exact .eatWhite h fun p' hleft => .pure ⟨rfl, rfl, hleft, Nat.le_refl _⟩
  | cons c rest =>
    have hwhite := skipWhite_length (c :: rest)
    have hnul : (c == '\x00' || endsName c) = endsName c := by
      by_cases hc : c = '\x00'
      · subst hc
        rfl
      · simp [hc]
    rw [List.headD_cons, hnul]
    refine .ite (fun _ => (accessTo_evaluates hen i .read).bind ?_) fun _ => ?_
    · rintro a _ _ ⟨rfl, rfl⟩
      exact .eatWhite h fun p' hleft => .pure ⟨rfl, rfl, hleft, hwhite⟩
    · refine .ite (fun _ => .reads (.skip 1) (.eatWhite h.tail fun p' hleft => ?_)) fun _ => .throw _
      refine (accessTo_evaluates hen i .read).bind ?_
      rintro a _ _ ⟨rfl, rfl⟩
      refine (valueOf_evaluates a).bind ?_
      rintro v _ _ ⟨rfl, rfl⟩
      exact .pure ⟨rfl, rfl, hleft, Nat.lt_succ_of_le (skipWhite_length rest)⟩

theorem callFunction_evaluates (hen : Answers en access nested) (hterm : TermsBelow en size term)
    (h : LeftAt text p cs) (hsize : cs.length ≤ size) (i : Identifier (Symbol ι)) :
    EvaluatesAs text p (TakesHop text cs.length) (fun k => en.callFunction k i)
      ((en.evaluator access nested).callFunction term i cs) := by
  refine .step ?_
  unfold Evaluator.callFunction
  refine .reads (.peek h) ?_
  by_cases hopen : cs.headD '\x00' = '('
  · obtain ⟨rest, rfl⟩ := exists_of_headD hopen (by decide)
    refine .ifNeg (by simp) (.reads (.skip 1) ((argumentList_evaluates hterm h.tail hsize).bind ?_))
    rintro args ⟨_, rest'⟩ p' ⟨rfl, hleft, hlt⟩
    dsimp only at hleft hlt ⊢
    cases checkParams i.params args.length with
    | error kind => exact .throw _
    | ok =>
      refine (accessTo_evaluates hen i _).bind ?_
      rintro result _ _ ⟨rfl, rfl⟩
      refine .reads (.peek hleft) ?_
      by_cases hdot : rest'.headD '\x00' = '.'
      · obtain ⟨rest', rfl⟩ := exists_of_headD hdot (by decide)
        refine .ifPos rfl (.reads (.skip 1) (.eatWhite hleft.tail fun p' hleft' => (valueOf_evaluates result).bind ?_))
        rintro v _ _ ⟨rfl, rfl⟩
        have hwhite := skipWhite_length rest'
        rw [List.length_cons] at hlt
        exact .pure ⟨rfl, rfl, hleft', Nat.lt_of_le_of_lt hwhite (Nat.lt_of_succ_lt hlt)⟩
      · refine .ifNeg (by simpa using hdot) ?_
        split
        · simp at hdot
        · refine .eatWhite hleft fun p' hleft' => .pure ⟨rfl, rfl, hleft', ?_⟩
          exact Nat.le_trans (skipWhite_length rest') (Nat.le_of_lt hlt)
  · refine .ifPos (by simpa using hopen) ?_
    split
    · simp at hopen
    · exact .throw _

theorem hop_evaluates (hen : Answers en access nested) (hterm : TermsBelow en size term) (h : LeftAt text p cs)
    (hsize : cs.length ≤ size) (i : Identifier (Symbol ι)) :
    EvaluatesAs text p (TakesHop text cs.length) (fun k => en.hop k i)
      ((en.evaluator access nested).link term i cs) := by
  rw [Evaluator.link]
  refine .step ?_
  simp only [hop]
  cases i.kind with
  | constant => exact readVariable_evaluates hen h i
  | «variable» => exact readVariable_evaluates hen h i
  | function => exact callFunction_evaluates hen hterm h hsize i
  | typedef => exact .throw _
  | keyword => exact .throw _

theorem member_evaluates (h : LeftAt text p cs) (holder : Value) (owner : String) :
    EvaluatesAs text p (Takes text cs.length) (fun k => en.member k holder owner)
      ((en.evaluator access nested).member holder owner cs) := by
  unfold member Evaluator.member
  cases Handle.ofValue? holder with
  | none => exact .throw _
  | some handle =>
    refine .state fun s => .ite (fun _ => .fail _) fun _ => ?_
    refine (EvaluatesAs.token (.name h) fun _ _ => readName_length).bind ?_
    rintro name ⟨_, rest⟩ p' ⟨rfl, hleft, hlt⟩
    refine .state fun s => ?_
    dsimp only [evaluator]
    cases en.scope.member? s handle name with
    | none => exact .throw _
    | some i => exact .pure ⟨rfl, hleft, hlt⟩

/-- An operand takes something, and has the same identifier. -/
def TakesAtom (text : List Char) (size : Nat) (a : Operand × Option (Identifier (Symbol ι))) (atom : Atom ι)
    (p' : Nat) : Prop :=
  a = (atom.operand, atom.target) ∧ LeftAt text p' atom.rest ∧ atom.rest.length < size

theorem chain_runs (hen : Answers en access nested) (hterm : TermsBelow en size term) (h : LeftAt text p cs)
    (hsize : cs.length ≤ size) (hn : cs.length < n) (temporary : Option Handle) (i : Identifier (Symbol ι)) :
    RunsAs text p (fun a b p' => a.1 = b.1 ∧ Both (TakesAtom text (cs.length + 1)) a.2 b.2 p')
      (fun k => en.chain k temporary i) ((en.evaluator access nested).chain term n temporary i cs) := by
  induction n generalizing p cs temporary i with
  | zero => cases hn
  | succ n ih =>
    rw [Evaluator.chain]
    refine .step ?_
    refine RunsAs.bind (hop_evaluates hen hterm h hsize i) fun a b p' hab => ?_
    cases hab with
    | error e => exact .pure ⟨rfl, .error e p'⟩
    | @ok a b _ hab =>
      cases a with
      | last a target =>
        cases b with
        | last atom =>
          obtain ⟨rfl, rfl, hleft, hle⟩ := hab
          exact .pure ⟨rfl, .ok ⟨rfl, hleft, Nat.lt_succ_of_le hle⟩⟩
        | dot _ _ _ => exact hab.elim
      | dot holder made =>
        cases b with
        | last _ => exact hab.elim
        | dot _ _ rest =>
          obtain ⟨rfl, rfl, hleft, hlt⟩ := hab
          refine RunsAs.bind (member_evaluates hleft holder i.name) fun a b p' hab => ?_
          cases hab with
          | error e => exact .pure ⟨rfl, .error e p'⟩
          | @ok j b _ hab =>
            obtain ⟨rfl, hleft', hlt'⟩ := hab
            refine (ih hleft' (by omega) (by omega) _ _).imp ?_
            rintro x y p'' ⟨htemporary, hboth⟩
            refine ⟨htemporary, hboth.imp ?_⟩
            rintro _ atom p'' ⟨hatom, hleft'', hlt''⟩
            exact ⟨hatom, hleft'', by omega⟩

theorem identifier_evaluates (hen : Answers en access nested) (hterm : TermsBelow en size term) (h : LeftAt text p cs)
    (hsize : cs.length ≤ size) :
    EvaluatesAs text p (TakesAtom text cs.length) en.identifier
      ((en.evaluator access nested).identifier term cs) := by
  rw [Evaluator.identifier]
  refine .step ?_
  refine (EvaluatesAs.token (.name h) fun _ _ => readName_length).bind ?_
  rintro name ⟨_, rest⟩ p' ⟨rfl, hleft, hlt⟩
  refine .state fun s => ?_
  have hfind : (en.evaluator access nested).toEngine.find? s name = en.toEngine.find? s name := rfl
  rw [hfind]
  cases en.toEngine.find? s name with
  | none => exact .throw _
  | some i =>
    have hrest : rest.length < cs.length := hlt
    refine EvaluatesAs.lift (chain_runs hen hterm hleft (by omega) (Nat.lt_succ_self _) none i) ?_
    rintro ⟨temporary, outcome⟩ ⟨_, outcome'⟩ p'' ⟨rfl, hboth⟩
    have hlast : EvaluatesAs text p'' (TakesAtom text cs.length) (fun _ => liftExcept outcome)
        (Evaluator.liftExcept outcome' : Eval σ (Atom ι)) := by
      cases hboth with
      | error e => exact .throw e
      | ok h => exact .pure ⟨h.1, h.2.1, Nat.lt_of_lt_of_le h.2.2 hrest⟩
    cases temporary with
    | none => exact hlast
    | some h => exact fun s => hlast { s with state := en.scope.release h s.state }

/-! ## Terms -/

/-- A group ends at its closing parenthesis, behind which the evaluator goes on. -/
def TakesGroup (text : List Char) (size : Nat) (v : Value) (b : Value × List Char) (p' : Nat) : Prop :=
  v = b.1 ∧ ∃ rest, LeftAt text p' (')' :: rest) ∧ b.2 = skipWhite rest ∧ rest.length < size

theorem group_evaluates (hterm : TermsBelow en size term) (h : LeftAt text p cs) (hsize : cs.length < size)
    (hn : cs.length < n) (acc : Value) :
    EvaluatesAs text p (TakesGroup text cs.length) (fun k => en.group k acc) (Evaluator.group term n acc cs) := by
  induction n generalizing p cs acc with
  | zero => cases hn
  | succ n ih =>
    refine .step ?_
    unfold Evaluator.group
    refine .reads (.peek h) ?_
    by_cases hclose : cs.headD '\x00' = ')'
    · obtain ⟨rest, rfl⟩ := exists_of_headD hclose (by decide)
      exact .ifPos rfl (.pure ⟨rfl, rest, h, rfl, Nat.lt_succ_self _⟩)
    · refine .ifNeg (by simpa using hclose) ?_
      split
      · simp at hclose
      · refine (EvaluatesAs.mapError (hterm h hsize)).bind ?_
        rintro v ⟨_, rest⟩ p' ⟨rfl, hleft, hlt⟩
        have hrest : rest.length < cs.length := hlt
        refine (ih hleft (by omega) (by omega) _).imp ?_
        rintro a b p'' ⟨ha, rest', hleft', hrest, hlt'⟩
        exact ⟨ha, rest', hleft', hrest, Nat.lt_trans hlt' hlt⟩

end CursorEngine

namespace Evaluator

variable {κ ι : Type} (ev : Evaluator κ ι σ) (term : TermReader σ)

/-! ## Signs one at a time -/

theorem valueOf_value (v : Value) : ev.valueOf (.value v) = pure v := rfl

theorem operand_white {c : Char} (hc : isWhite c = true) : ev.operand term (c :: cs) = ev.operand term cs := by
  unfold operand
  rw [readSigns, if_pos hc]

theorem operand_skipWhite (cs : List Char) : ev.operand term (skipWhite cs) = ev.operand term cs := by
  induction cs with
  | nil => rfl
  | cons c cs ih =>
    rw [skipWhite, List.dropWhile_cons]
    split
    · rename_i hc
      rw [operand_white ev term hc]
      exact ih
    · rfl

/-- A sign is applied to the operand behind it. -/
theorem operand_sign {c : Char} (hc : isWhite c = false) {sign : Sign} (hsign : signOf? c = some sign) :
    ev.operand term (c :: cs) = (do
      let a ← ev.operand term cs
      let v ← ev.valueOf a.operand
      return ⟨.value (applySign sign v), none, a.rest⟩) := by
  unfold operand
  rw [readSigns, hc, hsign]
  dsimp only
  rcases readSigns cs with ⟨signs, rest⟩
  cases signs with
  | nil => simp
  | cons s signs => simp [valueOf_value]

/-- Without a sign, an operand is what stands at the front. -/
theorem operand_atom {c : Char} (hc : isWhite c = false) (hsign : signOf? c = none) :
    ev.operand term (c :: cs) = ev.atom term (c :: cs) := by
  unfold operand
  rw [readSigns, hc, hsign]
  simp

/-! ## Results -/

/-- Evaluates a text, and reports what it fails with. -/
def calculate : Evaluation σ := fun text s =>
  match (ev.expression text.toList).run ⟨s.state, .clear⟩ with
  | (.ok v, t) => (some v, t)
  | (.error e, t) => (none, { t with errors := t.errors.report e })

end Evaluator

namespace Desk

/-- What an evaluation works on at a desk. -/
def session (d : Desk σ) : Session σ := ⟨d.state, d.errors⟩

/-- The desk with what an evaluation has made of its session. Without a value the place for it keeps what it had. -/
def answered (d : Desk σ) (result : Value) (r : Option Value × Session σ) : (Bool × Value) × Desk σ :=
  ((r.1.isSome, r.1.getD result), { d with errors := r.2.errors, state := r.2.state })

end Desk

namespace CursorEngine

variable {κ ι : Type} {en : CursorEngine κ ι σ} {access : Evaluation σ → ι → Access → Action σ (Answer Operand)}
  {nested : Evaluation σ} {size n : Nat} {term : TermReader σ}

/-- What stands at the front of an operand that has no sign. -/
theorem atom_evaluates (hen : Answers en access nested) (hterm : TermsBelow en size term) {c : Char}
    (h : LeftAt text p (c :: cs)) (hsize : (c :: cs).length ≤ size) :
    EvaluatesAs text p (TakesAtom text (c :: cs).length) (fun k => en.atom k c)
      ((en.evaluator access nested).atom term (c :: cs)) := by
  refine .step ?_
  unfold Evaluator.atom
  refine .ite (fun hopen => ?_) fun _ => .ite (fun hdigit => ?_) fun _ => .ite (fun _ => ?_) fun _ =>
    .ite (fun hquote => ?_) fun _ => .throw _
  · refine .reads (.skip 1) ((group_evaluates hterm h.tail hsize (by simp only [List.length_cons]; omega) _).bind ?_)
    rintro v ⟨_, _⟩ p' ⟨rfl, rest, hleft, rfl, hlt⟩
    refine .reads (.skip 1) (.eatWhite hleft.tail fun p'' hleft' => .pure ⟨rfl, hleft', ?_⟩)
    exact Nat.lt_succ_of_lt (Nat.lt_of_le_of_lt (skipWhite_length rest) hlt)
  · obtain ⟨p', rest, hnumber, hleft, hrest, hlt⟩ := Reads.number (σ := σ) h (List.cons_ne_nil c cs)
    have hwhite := skipWhite_length rest
    refine .reads hnumber (.eatWhite hleft fun p'' hleft' => ?_)
    generalize readNumber (c :: cs) = number at hrest ⊢
    obtain ⟨v, _⟩ := number
    obtain rfl : _ = skipWhite rest := hrest
    refine (operator_evaluates hen hterm hleft' (by omega) none _).bind ?_
    intro o r q hr
    cases r with
    | none =>
      obtain ⟨rfl, rfl⟩ := hr
      exact .pure ⟨rfl, hleft', Nat.lt_of_le_of_lt hwhite hlt⟩
    | some r =>
      obtain ⟨o, rfl, rfl, hleft'', hlt'⟩ := hr
      exact .pure ⟨rfl, hleft'', by dsimp only; omega⟩
  · exact identifier_evaluates hen hterm h hsize
  · obtain rfl : c = '"' := eq_of_beq hquote
    refine (EvaluatesAs.token (.stringLiteral h) fun _ _ => readText_length).bind ?_
    rintro v ⟨_, rest⟩ p' ⟨rfl, hleft, hlt⟩
    exact .pure ⟨rfl, hleft, hlt⟩

theorem arith_evaluates (hen : Answers en access nested) (hterm : TermsBelow en size term) (h : LeftAt text p cs)
    (hsize : cs.length ≤ size) :
    EvaluatesAs text p (TakesAtom text cs.length) en.arith
      ((en.evaluator access nested).operand term cs) := by
  induction hn : cs.length using Nat.strongRecOn generalizing p cs with
  | ind n ih =>
  subst hn
  rw [← Evaluator.operand_skipWhite]
  refine .step ?_
  have hwhite := skipWhite_length cs
  refine .eatWhite h fun p' hleft => .reads (.peek hleft) (.reads (.atEnd hleft) ?_)
  cases hrest : skipWhite cs with
  | nil => exact .ifPos rfl (.throw _)
  | cons c rest =>
    rw [hrest] at hleft hwhite
    have hc : isWhite c = false := by
      have hhead := List.head?_dropWhile_not isWhite cs
      rwa [show cs.dropWhile isWhite = c :: rest from hrest] at hhead
    refine .ifNeg (by simp) ?_
    rw [List.headD_cons]
    cases hsign : signOf? c with
    | none =>
      rw [Evaluator.operand_atom _ _ hc hsign]
      refine (atom_evaluates hen hterm hleft (by omega)).imp ?_
      rintro a atom p'' ⟨ha, hleft', hlt⟩
      exact ⟨ha, hleft', by omega⟩
    | some sign =>
      rw [List.length_cons] at hwhite
      rw [Evaluator.operand_sign _ _ hc hsign]
      refine .reads (.skip 1) ((ih rest.length (by omega) hleft.tail (by omega) rfl).bind ?_)
      rintro _ atom p'' ⟨rfl, hleft', hlt⟩
      refine (valueOf_evaluates atom.operand).bind ?_
      rintro v _ _ ⟨rfl, rfl⟩
      exact .pure ⟨rfl, hleft', by dsimp only; omega⟩

theorem term_evaluates (hen : Answers en access nested) (hterm : TermsBelow en size term) (h : LeftAt text p cs)
    (hsize : cs.length ≤ size) :
    EvaluatesAs text p (Takes text cs.length) en.term ((en.evaluator access nested).termWith term cs) := by
  rw [Evaluator.termWith]
  refine .step ?_
  refine (arith_evaluates hen hterm h hsize).bind ?_
  rintro _ atom p' ⟨rfl, hleft, hlt⟩
  refine (operators_evaluates hen hterm hleft (by omega) (Nat.lt_succ_self _) _ _).bind ?_
  rintro a ⟨_, rest⟩ p'' ⟨rfl, hleft', hlt'⟩
  refine (valueOf_evaluates a).map ?_
  rintro v _ _ ⟨rfl, rfl⟩
  exact ⟨rfl, hleft', Nat.lt_of_lt_of_le hlt' hlt⟩

/-- A text is never nested deeper than it is long. -/
theorem termsBelow (hen : Answers en access nested) (n : Nat) :
    TermsBelow en n ((en.evaluator access nested).termAt n) := by
  induction n with
  | zero => exact fun _ h => nomatch h
  | succ n ih => exact fun h hsize => term_evaluates hen ih h (Nat.le_of_lt_succ hsize)

/-! ## Expressions -/

theorem run_evaluates (hterm : TermsBelow en size term) (h : LeftAt text p cs) (hsize : cs.length < size)
    (hn : cs.length < n) (acc : Value) :
    EvaluatesAs text p (fun v v' _ => v = v') (fun k => en.run k acc) (Evaluator.terms term n acc cs) := by
  induction n generalizing p cs acc with
  | zero => cases hn
  | succ n ih =>
    refine .step ?_
    unfold Evaluator.terms
    have hwhite := skipWhite_length cs
    refine .eatWhite h fun p' hleft => .reads (.atEnd hleft) ?_
    generalize skipWhite cs = rest at hwhite hleft ⊢
    cases rest with
    | nil => exact .ifPos rfl (.pure rfl)
    | cons c rest =>
      refine .ifNeg Bool.false_ne_true ((hterm hleft (by omega)).bind ?_)
      rintro v ⟨_, rest'⟩ p'' ⟨rfl, hleft', hlt⟩
      have hrest : rest'.length < (c :: rest).length := hlt
      refine .reads (.atEnd hleft') (.reads (.peek hleft') ?_)
      cases rest' with
      | nil =>
        -- one more round finds the end
        refine .ifNeg (by simp) ?_
        refine .step ?_
        exact .eatWhite hleft' fun _ hend => .reads (.atEnd hend) (.ifPos rfl (.pure rfl))
      | cons d rest' =>
        dsimp only
        by_cases hd : isDelimiter d = true
        · rw [if_pos hd]
          exact .ifNeg (by simp [hd]) (ih hleft' (by omega) (by omega) _)
        · rw [if_neg hd]
          exact .ifPos (by simp [hd]) (.reads (.location hleft') (.throw _))

/-- A text is evaluated as the evaluator evaluates it, wherever the engine is at work, and the text and the cursor
there are put back. -/
theorem calculate_comes (hen : Answers en access nested) (text : String) (result : Value) (d : Desk σ) :
    Comes (fun k => en.calculate k text result d)
      (d.answered result ((en.evaluator access nested).calculate text d.session)) := by
  have hrun : EvaluatesAs text.toList 0 (fun v v' _ => v = v') (fun k => en.run k .undefined)
      ((en.evaluator access nested).expression text.toList) :=
    run_evaluates (termsBelow hen (text.toList.length + 1)) .start (Nat.lt_succ_self _) (Nat.lt_succ_self _) .undefined
  obtain ⟨outcome, p', hrun, hboth⟩ := hrun ⟨d.state, .clear⟩
  unfold Evaluator.calculate
  dsimp only [Desk.session]
  generalize ((en.evaluator access nested).expression text.toList).run ⟨d.state, .clear⟩ = r at hrun hboth ⊢
  obtain ⟨outcome', t⟩ := r
  refine Comes.bind hrun ?_
  cases hboth with
  | ok h =>
    rw [h]
    exact .const _
  | error e => exact .const _

end CursorEngine

end HostScript
