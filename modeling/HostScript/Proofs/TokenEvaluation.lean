import HostScript.Proofs.Parentheses
import HostScript.Proofs.Tokens
/-!
# Evaluation goes by the tokens

Two texts with the same tokens come to the same: to the same value, or to errors of one kind, and to the same session
before an error is reported. Only the reason of an error may differ, where it shows some of the text ahead. Every
routine of the evaluator leaves both texts where the same tokens follow; how deep terms are nested and how often a loop
goes round is bounded by the length of each text on its own.
-/

set_option autoImplicit false

namespace HostScript

open HostScript.Text HostScript.Token

variable {κ ι σ α α' β β' : Type}

/-! ## Evaluations that end alike -/

/-- Two outcomes in the same session: results that the relation holds of, or errors of one kind. -/
inductive EndsAs (Q : α → β → Prop) : Except ScriptError α × Session σ → Except ScriptError β × Session σ → Prop
  | ok {a : α} {b : β} {t : Session σ} : Q a b → EndsAs Q (.ok a, t) (.ok b, t)
  | error {e e' : ScriptError} {t : Session σ} : e.kind = e'.kind → EndsAs Q (.error e, t) (.error e', t)

/-- From every session both evaluations end alike. -/
def EndsAlike (Q : α → β → Prop) (m : Eval σ α) (m' : Eval σ β) : Prop :=
  ∀ s, EndsAs Q (m.run.run s) (m'.run.run s)

namespace EndsAlike

variable {Q R : α → β → Prop} {Q' : α' → β' → Prop} {m : Eval σ α} {m' : Eval σ β}

theorem pure {a : α} {b : β} (h : Q a b) : EndsAlike (σ := σ) Q (pure a) (pure b) := fun _ => .ok h

theorem throw {e e' : ScriptError} (h : e.kind = e'.kind) :
    EndsAlike (σ := σ) Q (throw e : Eval σ α) (throw e' : Eval σ β) :=
  fun _ => .error h

theorem refl (m : Eval σ α) : EndsAlike Eq m m := by
  intro s
  rcases hr : m.run.run s with ⟨e | a, t⟩
  · exact .error rfl
  · exact .ok rfl

theorem bind {f : α → Eval σ α'} {f' : β → Eval σ β'} (hm : EndsAlike Q m m')
    (hf : ∀ a b, Q a b → EndsAlike Q' (f a) (f' b)) : EndsAlike Q' (m >>= f) (m' >>= f') := by
  intro s
  have h := hm s
  generalize hr : m.run.run s = r at h
  generalize hr' : m'.run.run s = r' at h
  cases h with
  | ok hab =>
    rw [run_bind_ok hr, run_bind_ok hr']
    exact hf _ _ hab _
  | error he =>
    rw [run_bind_error hr, run_bind_error hr']
    exact .error he

/-- The same is done first on both sides. -/
theorem same (m : Eval σ α) {f : α → Eval σ α'} {f' : α → Eval σ β'} (hf : ∀ a, EndsAlike Q' (f a) (f' a)) :
    EndsAlike Q' (m >>= f) (m >>= f') := by
  refine (refl m).bind ?_
  rintro a _ rfl
  exact hf a

theorem imp (hm : EndsAlike Q m m') (h : ∀ a b, Q a b → R a b) : EndsAlike R m m' := by
  intro s
  have hs := hm s
  generalize m.run.run s = r at hs ⊢
  generalize m'.run.run s = r' at hs ⊢
  cases hs with
  | ok hab => exact .ok (h _ _ hab)
  | error he => exact .error he

theorem ite {c : Prop} [Decidable c] {n : Eval σ α} {n' : Eval σ β} (hm : EndsAlike Q m m') (hn : EndsAlike Q n n') :
    EndsAlike Q (if c then m else n) (if c then m' else n') := by
  split
  · exact hm
  · exact hn

/-- The same on both sides decides which evaluations are to end alike. -/
theorem decided {c : Prop} [Decidable c] {n : Eval σ α} {n' : Eval σ β} (hm : c → EndsAlike Q m m')
    (hn : ¬c → EndsAlike Q n n') : EndsAlike Q (if c then m else n) (if c then m' else n') := by
  split
  · exact hm ‹_›
  · exact hn ‹_›

/-- Errors of one kind stay so when they are changed in the same way. -/
theorem mapError {f : ScriptError → ScriptError} (hm : EndsAlike Q m m')
    (hf : ∀ e e' : ScriptError, e.kind = e'.kind → (f e).kind = (f e').kind) :
    EndsAlike Q (tryCatch m fun e => MonadExcept.throw (f e)) (tryCatch m' fun e => MonadExcept.throw (f e)) := by
  intro s
  have h := hm s
  rw [ExceptT.run_tryCatch, StateT.run_bind, ExceptT.run_tryCatch, StateT.run_bind]
  generalize m.run.run s = r at h ⊢
  generalize m'.run.run s = r' at h ⊢
  cases h with
  | ok hab => exact .ok hab
  | error he => exact .error (hf _ _ he)

/-- Actions that give the same are followed by what ends alike. -/
theorem lifted {Q : α → β → Prop} {Q' : α' → β' → Prop} {m : Action σ α} {m' : Action σ β} {f : α → Eval σ α'}
    {f' : β → Eval σ β'} (hm : ∀ s, (m.run s).2 = (m'.run s).2 ∧ Q (m.run s).1 (m'.run s).1)
    (hf : ∀ a b, Q a b → EndsAlike Q' (f a) (f' b)) :
    EndsAlike Q' ((m : Eval σ α) >>= f) ((m' : Eval σ β) >>= f') := by
  intro s
  obtain ⟨hsession, hab⟩ := hm s
  change EndsAs Q' ((f (m.run s).1).run.run (m.run s).2) ((f' (m'.run s).1).run.run (m'.run s).2)
  rw [← hsession]
  exact hf _ _ hab _

end EndsAlike

/-! ## What is left of both texts -/

/-- The same tokens are left of both texts, and both have come to a token or to the end. -/
structure Ahead (k : Context) (rest rest' : List Char) : Prop where
  same : SameTokens k rest rest'
  led : Led rest
  led' : Led rest'

namespace Ahead

variable {k : Context} {rest rest' : List Char}

theorem of_skipWhite (h : SameTokens k rest rest') : Ahead k.apart (skipWhite rest) (skipWhite rest') :=
  ⟨h.skipWhite, led_skipWhite rest, led_skipWhite rest'⟩

theorem cases (h : Ahead k rest rest') :
    rest = [] ∧ rest' = [] ∨ ∃ c cs ds, rest = c :: cs ∧ rest' = c :: ds ∧ isWhite c = false ∧
      (readItem k c cs).1 = (readItem k c ds).1 ∧
      SameTokens (k.after (readItem k c cs).1) (readItem k c cs).2 (readItem k c ds).2 :=
  h.same.cases h.led h.led'

theorem startsSigned_eq (h : Ahead k rest rest') : startsSigned rest = startsSigned rest' := by
  rcases h.cases with ⟨rfl, rfl⟩ | ⟨c, cs, ds, rfl, rfl, -⟩ <;> rfl

end Ahead

/-- The same was read, the same tokens are left of both texts, and each is shorter than something. -/
structure Left (calls : List Bool) (p q : Nat) (r r' : α × List Char) : Prop where
  eq : r.1 = r'.1
  ahead : Ahead ⟨.other, calls⟩ r.2 r'.2
  lt : r.2.length < p
  lt' : r'.2.length < q

theorem Left.mono {calls : List Bool} {p q p' q' : Nat} (hp : p ≤ p') (hq : q ≤ q') {r r' : α × List Char}
    (h : Left calls p q r r') : Left calls p' q' r r' :=
  ⟨h.eq, h.ahead, Nat.lt_of_lt_of_le h.lt hp, Nat.lt_of_lt_of_le h.lt' hq⟩

/-- Of texts up to some length both readers read terms by the tokens. -/
def ReadsTokens (N M : Nat) (term term' : TermReader σ) : Prop :=
  ∀ calls cs ds, cs.length < N → ds.length < M → SameTokens ⟨.other, calls⟩ cs ds →
    EndsAlike (Left calls cs.length ds.length) (term cs) (term' ds)

namespace Evaluator

variable (ev : Evaluator κ ι σ) {term term' : TermReader σ} {N M n m : Nat} {calls : List Bool} {cs ds : List Char}
  {acc : Value}

/-! ## Operators -/

/-- The text behind an operator only shows in the reasons of errors. -/
theorem operate_byTokens (op : Written) (target : Option (Identifier (Symbol ι))) (a : Operand) (b : Value)
    (rest rest' : List Char) : EndsAlike Eq (ev.operate op target a b rest) (ev.operate op target a b rest') := by
  refine .same _ fun (a, b) => .same _ fun x => ?_
  dsimp only
  split
  · exact .refl _
  · exact .refl _
  · exact .refl _
  · exact .refl _
  · exact .ite (.throw rfl) (.refl _)
  · exact .ite (.throw rfl) (.refl _)
  · cases target with
    | none => exact .throw rfl
    | some i => exact .refl _
  · exact .throw rfl

section Terms

variable (hterm : ReadsTokens N M term term')

include hterm

theorem sum_byTokens (hcs : cs.length < N) (hds : ds.length < M) (hn : cs.length < n) (hm : ds.length < m)
    (h : SameTokens ⟨.other, calls⟩ cs ds) :
    EndsAlike (Left calls cs.length ds.length) (sum term n acc cs) (sum term' m acc ds) := by
  -- on the rounds of the first sum: a term leaves less of both texts
  induction n generalizing m cs ds acc with
  | zero => omega
  | succ n ih =>
    obtain ⟨m, rfl⟩ := Nat.exists_eq_add_of_le' (Nat.lt_of_le_of_lt (Nat.zero_le _) hm)
    apply (hterm calls cs ds hcs hds h).bind
    rintro ⟨v, rest⟩ ⟨_, rest'⟩ ⟨rfl, hahead, hlt, hlt'⟩
    dsimp only at hahead hlt hlt' ⊢
    rw [← hahead.startsSigned_eq]
    refine .ite ((ih (by omega) (by omega) (by omega) (by omega) hahead.same).imp fun _ _ => ?_)
      (.pure ⟨rfl, hahead, hlt, hlt'⟩)
    exact Left.mono (Nat.le_of_lt hlt) (Nat.le_of_lt hlt')

/-- Both texts have an operator, or neither has one. -/
inductive OperatorLeft (calls : List Bool) (p q : Nat) :
    Option (Operand × List Char) → Option (Operand × List Char) → Prop
  | none : OperatorLeft calls p q none none
  | some {r r' : Operand × List Char} : Left calls p q r r' → OperatorLeft calls p q (some r) (some r')

theorem operator_byTokens (hcs : cs.length < N) (hds : ds.length < M) (h : Ahead ⟨.other, calls⟩ cs ds)
    (target : Option (Identifier (Symbol ι))) (a : Operand) :
    EndsAlike (OperatorLeft calls cs.length ds.length) (ev.operator? term target a cs)
      (ev.operator? term' target a ds) := by
  rcases h.cases with ⟨rfl, rfl⟩ | ⟨c, cs', ds', rfl, rfl, -, hitem, hrest⟩
  · exact .pure .none
  unfold operator?
  by_cases hop : startsOperator c = true
  · obtain ⟨op, rest, hread, hop'⟩ := readItem_operator hop cs'
    obtain ⟨_, rest', hread', hop''⟩ := readItem_operator hop ds'
    have hle := readItem_length ⟨.other, calls⟩ c cs'
    have hle' := readItem_length ⟨.other, calls⟩ c ds'
    rw [hop'] at hle hitem hrest
    rw [hop''] at hle' hitem hrest
    cases hitem
    rw [hread, hread']
    rw [List.length_cons] at hcs hds
    dsimp only at hle hle' hrest
    apply (sum_byTokens hterm (by omega) (by omega) (Nat.lt_succ_self _) (Nat.lt_succ_self _) hrest).bind
    rintro ⟨b, rest₁⟩ ⟨_, rest₁'⟩ ⟨rfl, hahead, hlt, hlt'⟩
    dsimp only at hahead hlt hlt' ⊢
    apply (operate_byTokens ev op target a _ _ _).bind
    rintro o _ rfl
    exact .pure (.some ⟨rfl, hahead, Nat.lt_of_lt_of_le hlt (Nat.le_succ_of_le hle),
      Nat.lt_of_lt_of_le hlt' (Nat.le_succ_of_le hle')⟩)
  · rw [readOperator_none (eq_false_of_ne_true hop), readOperator_none (eq_false_of_ne_true hop)]
    exact .pure .none

theorem operators_byTokens (hcs : cs.length < N) (hds : ds.length < M) (hn : cs.length < n) (hm : ds.length < m)
    (h : Ahead ⟨.other, calls⟩ cs ds) (target : Option (Identifier (Symbol ι))) (a : Operand) :
    EndsAlike (Left calls (cs.length + 1) (ds.length + 1)) (ev.operators term n target a cs)
      (ev.operators term' m target a ds) := by
  induction n generalizing m cs ds target a with
  | zero => omega
  | succ n ih =>
    obtain ⟨m, rfl⟩ := Nat.exists_eq_add_of_le' (Nat.lt_of_le_of_lt (Nat.zero_le _) hm)
    apply (operator_byTokens ev hterm hcs hds h target a).bind
    intro r r' hr
    cases hr with
    | none => exact .pure ⟨rfl, h, Nat.lt_succ_self _, Nat.lt_succ_self _⟩
    | @some r r' hleft =>
      obtain ⟨o, rest⟩ := r
      obtain ⟨_, rest'⟩ := r'
      obtain ⟨rfl, hahead, hlt, hlt'⟩ := hleft
      dsimp only at hahead hlt hlt' ⊢
      refine (ih (by omega) (by omega) (by omega) (by omega) hahead none o).imp fun _ _ => ?_
      exact Left.mono (by omega) (by omega)

/-! ## Arguments -/

/-- An argument ends before the comma or the parenthesis behind it. -/
theorem argument_byTokens (hcs : cs.length < N) (hds : ds.length < M) (hn : cs.length < n) (hm : ds.length < m)
    (h : SameTokens ⟨.other, calls⟩ cs ds) :
    EndsAlike (fun r r' => Left calls cs.length ds.length r r' ∧ ∃ c rest, r.2 = c :: rest ∧ (c = ')' ∨ c = ','))
      (argument term n acc cs) (argument term' m acc ds) := by
  induction n generalizing m cs ds acc with
  | zero => omega
  | succ n ih =>
    obtain ⟨m, rfl⟩ := Nat.exists_eq_add_of_le' (Nat.lt_of_le_of_lt (Nat.zero_le _) hm)
    apply (hterm calls cs ds hcs hds h).bind
    rintro ⟨v, rest⟩ ⟨_, rest'⟩ ⟨rfl, hahead, hlt, hlt'⟩
    dsimp only at hahead hlt hlt' ⊢
    rcases hahead.cases with ⟨rfl, rfl⟩ | ⟨c, cs', ds', rfl, rfl, -⟩
    · exact .throw rfl
    · dsimp only
      by_cases hc : (c == ')' || c == ',') = true
      · rw [if_pos hc, if_pos hc]
        exact .pure ⟨⟨rfl, hahead, hlt, hlt'⟩, c, cs', rfl, by simpa using hc⟩
      · rw [if_neg hc, if_neg hc]
        refine (ih (by omega) (by omega) (by omega) (by omega) hahead.same).imp fun _ _ => ?_
        exact And.imp_left (Left.mono (Nat.le_of_lt hlt) (Nat.le_of_lt hlt'))

/-- The same arguments were read, and what is left stands behind the parenthesis that closes them. -/
structure CallLeft (calls : List Bool) (p q : Nat) (r r' : List Value × List Char) : Prop where
  eq : r.1 = r'.1
  same : SameTokens ⟨.callEnd, calls⟩ r.2 r'.2
  lt : r.2.length < p
  lt' : r'.2.length < q

omit hterm in
theorem CallLeft.mono {p q p' q' : Nat} (hp : p ≤ p') (hq : q ≤ q') {r r' : List Value × List Char}
    (h : CallLeft calls p q r r') : CallLeft calls p' q' r r' :=
  ⟨h.eq, h.same, Nat.lt_of_lt_of_le h.lt hp, Nat.lt_of_lt_of_le h.lt' hq⟩

theorem arguments_byTokens (hcs : cs.length < N) (hds : ds.length < M) (hn : cs.length < n) (hm : ds.length < m)
    (h : SameTokens ⟨.other, true :: calls⟩ cs ds) :
    EndsAlike (CallLeft calls cs.length ds.length) (arguments term n cs) (arguments term' m ds) := by
  induction n generalizing m cs ds with
  | zero => omega
  | succ n ih =>
    obtain ⟨m, rfl⟩ := Nat.exists_eq_add_of_le' (Nat.lt_of_le_of_lt (Nat.zero_le _) hm)
    apply (argument_byTokens hterm hcs hds (Nat.lt_succ_self _) (Nat.lt_succ_self _) h).bind
    rintro ⟨v, _⟩ ⟨_, rest'⟩ ⟨⟨rfl, hahead, hlt, hlt'⟩, c, cs', rfl, hc⟩
    dsimp only at hahead hlt hlt' ⊢
    rcases hahead.cases with ⟨hnil, -⟩ | ⟨c, cs', ds', heq, rfl, -⟩
    · cases hnil
    cases heq
    rw [List.length_cons] at hlt hlt'
    rcases hc with rfl | rfl
    · exact .pure ⟨rfl, hahead.same.mark (by decide) (by decide) (by decide), by dsimp only; omega,
        by dsimp only; omega⟩
    · apply (ih (by omega) (by omega) (by omega) (by omega)
        (hahead.same.mark (by decide) (by decide) (by decide))).bind
      rintro ⟨vs, rest⟩ ⟨_, rest'⟩ ⟨rfl, hsame, hlt₁, hlt₁'⟩
      exact .pure ⟨rfl, hsame, by dsimp only at hlt₁ ⊢; omega, by dsimp only at hlt₁' ⊢; omega⟩

theorem argumentList_byTokens (hcs : cs.length < N) (hds : ds.length < M)
    (h : SameTokens ⟨.other, true :: calls⟩ cs ds) :
    EndsAlike (CallLeft calls (cs.length + 1) (ds.length + 1)) (argumentList term cs) (argumentList term' ds) := by
  have hle := skipWhite_length cs
  have hle' := skipWhite_length ds
  have hahead : Ahead ⟨.other, true :: calls⟩ _ _ := .of_skipWhite h
  have hmore := (arguments_byTokens hterm (Nat.lt_of_le_of_lt hle hcs) (Nat.lt_of_le_of_lt hle' hds)
    (Nat.lt_succ_self _) (Nat.lt_succ_self _) hahead.same).imp fun _ _ =>
      CallLeft.mono (Nat.le_succ_of_le hle) (Nat.le_succ_of_le hle')
  unfold argumentList
  generalize skipWhite cs = ws at hle hahead hmore ⊢
  generalize skipWhite ds = ws' at hle' hahead hmore ⊢
  rcases hahead.cases with ⟨rfl, rfl⟩ | ⟨c, ws, ws', rfl, rfl, -⟩
  · exact hmore
  · by_cases hc : c = ')'
    · subst hc
      rw [List.length_cons] at hle hle'
      exact .pure ⟨rfl, hahead.same.mark (by decide) (by decide) (by decide), by dsimp only; omega,
        by dsimp only; omega⟩
    · simpa [hc] using hmore

omit hterm

/-! ## Chains -/

/-- The same name was read, and what is left stands behind it. -/
structure NameLeft (calls : List Bool) (p q : Nat) (r r' : α × List Char) : Prop where
  eq : r.1 = r'.1
  ahead : Ahead ⟨.word, calls⟩ r.2 r'.2
  lt : r.2.length < p
  lt' : r'.2.length < q

/-- A name is read where one may start, or nothing is on both sides. -/
theorem readName_byTokens {k : Context} (h : Ahead k cs ds)
    (hstart : k.last = .dot ∨ ∀ c ∈ cs.head?, isNameStart c = true) :
    EndsAlike (σ := σ) (NameLeft k.calls cs.length ds.length) (liftExcept (readName cs))
      (liftExcept (readName ds)) := by
  rcases h.cases with ⟨rfl, rfl⟩ | ⟨c, cs', ds', rfl, rfl, -, hitem, hrest⟩
  · exact .throw rfl
  by_cases hname : isNameChar c = true
  · have hword : isNameStart c = true ∨ k.last = .dot ∧ isNameChar c = true :=
      hstart.symm.imp (fun h => h c rfl) fun h => ⟨h, hname⟩
    rw [readItem_word hword, readItem_word hword] at hitem hrest
    have hsame : (c :: cs').takeWhile isNameChar = (c :: ds').takeWhile isNameChar := Item.word.inj hitem
    have hpos : 0 < ((c :: ds').takeWhile isNameChar).length := by
      rw [List.takeWhile_cons_of_pos hname]
      exact Nat.succ_pos _
    have hlength : ∀ es : List Char, (skipWhite ((c :: es).drop ((c :: ds').takeWhile isNameChar).length)).length <
        (c :: es).length := by
      intro es
      have hle := skipWhite_length ((c :: es).drop ((c :: ds').takeWhile isNameChar).length)
      rw [List.length_drop, List.length_cons] at hle
      rw [List.length_cons]
      omega
    unfold readName
    rw [hsame] at hrest ⊢
    dsimp only at hrest ⊢
    split
    · exact .throw rfl
    split
    · exact .throw rfl
    · exact .pure ⟨rfl, .of_skipWhite hrest, hlength cs', hlength ds'⟩
  · have hnone : ∀ es : List Char, readName (c :: es) = .error ⟨.expectedIdentifier, excerptOfChars (c :: es)⟩ := by
      intro es
      unfold readName
      rw [List.takeWhile_cons_of_neg hname]
      rfl
    rw [hnone, hnone]
    exact .throw rfl

/-- The same operand was read, and the same tokens are left behind it. -/
structure AtomLeft (calls : List Bool) (p q : Nat) (a a' : Atom ι) : Prop where
  operand : a.operand = a'.operand
  target : a.target = a'.target
  ahead : Ahead ⟨.other, calls⟩ a.rest a'.rest
  lt : a.rest.length < p
  lt' : a'.rest.length < q

theorem AtomLeft.mono {p q p' q' : Nat} (hp : p ≤ p') (hq : q ≤ q') {a a' : Atom ι} (h : AtomLeft calls p q a a') :
    AtomLeft calls p' q' a a' :=
  ⟨h.operand, h.target, h.ahead, Nat.lt_of_lt_of_le h.lt hp, Nat.lt_of_lt_of_le h.lt' hq⟩

/-- The same link was read, and the same tokens are left behind it. -/
inductive LinkLeft (calls : List Bool) (p q : Nat) : Link ι → Link ι → Prop
  | last {a a' : Atom ι} : AtomLeft calls p q a a' → LinkLeft calls p q (.last a) (.last a')
  | dot {holder : Value} {made : Option Handle} {rest rest' : List Char} :
    Ahead ⟨.dot, calls⟩ rest rest' → rest.length < p → rest'.length < q →
      LinkLeft calls p q (.dot holder made rest) (.dot holder made rest')

theorem readVariable_byTokens (i : Identifier (Symbol ι)) (h : Ahead ⟨.word, calls⟩ cs ds) :
    EndsAlike (LinkLeft calls (cs.length + 1) (ds.length + 1)) (ev.readVariable i cs) (ev.readVariable i ds) := by
  rcases h.cases with ⟨rfl, rfl⟩ | ⟨c, cs', ds', rfl, rfl, -⟩
  · exact .same _ fun o => .pure (.last ⟨rfl, rfl, ⟨rfl, h.led, h.led⟩, Nat.one_pos, Nat.one_pos⟩)
  unfold readVariable
  dsimp only
  by_cases hends : endsName c = true
  · have hne : c ≠ '(' := by
      rintro rfl
      exact absurd hends (by decide)
    rw [if_pos hends, if_pos hends, h.led.skipWhite_eq, h.led'.skipWhite_eq]
    have hsame := h.same.of_word h.led h.led' fun hhead => hne (Option.some.inj hhead)
    exact .same _ fun o => .pure (.last ⟨rfl, rfl, ⟨hsame, h.led, h.led'⟩, Nat.lt_succ_self _, Nat.lt_succ_self _⟩)
  rw [if_neg hends, if_neg hends]
  by_cases hdot : c = '.'
  · subst hdot
    have hsame := h.same.mark (by decide) (by decide) (by decide)
    have hle := skipWhite_length cs'
    have hle' := skipWhite_length ds'
    refine .same _ fun o => .same _ fun holder => .pure (.dot (.of_skipWhite hsame) ?_ ?_)
    · rw [List.length_cons]
      omega
    · rw [List.length_cons]
      omega
  · rw [if_neg (by simpa using hdot), if_neg (by simpa using hdot)]
    exact .throw rfl

/-- Behind a call the dot has to follow at once, so what is there without white space is the same for both. -/
theorem returned_byTokens {p q : Nat} (h : SameTokens ⟨.callEnd, calls⟩ cs ds) (hp : cs.length < p)
    (hq : ds.length < q) (result : Operand) :
    EndsAlike (LinkLeft calls p q) (ev.returned cs result) (ev.returned ds result) := by
  have hle := skipWhite_length cs
  have hle' := skipWhite_length ds
  by_cases hdot : ∃ cs', cs = '.' :: cs'
  · obtain ⟨cs', rfl⟩ := hdot
    obtain ⟨ds', rfl⟩ := h.joined rfl
    have hsame := h.mark (by decide) (by decide) (by decide)
    have hle := skipWhite_length cs'
    have hle' := skipWhite_length ds'
    rw [List.length_cons] at hp hq
    exact .same _ fun holder => .pure (.dot (.of_skipWhite hsame) (by omega) (by omega))
  · have hdot' : ¬∃ ds', ds = '.' :: ds' := by
      rintro ⟨ds', rfl⟩
      exact hdot (h.symm.joined rfl)
    have hlast : ∀ es : List Char, (¬∃ es', es = '.' :: es') →
        ev.returned es result = (pure (.last ⟨result, none, skipWhite es⟩) : Eval σ (Link ι)) := by
      intro es hes
      unfold returned
      split
      · exact absurd ⟨_, rfl⟩ hes
      · rfl
    rw [hlast _ hdot, hlast _ hdot']
    exact .pure (.last ⟨rfl, rfl, .of_skipWhite h, by dsimp only; omega, by dsimp only; omega⟩)

include hterm

theorem callFunction_byTokens (i : Identifier (Symbol ι)) (hcs : cs.length < N) (hds : ds.length < M)
    (h : Ahead ⟨.word, calls⟩ cs ds) :
    EndsAlike (LinkLeft calls (cs.length + 1) (ds.length + 1)) (ev.callFunction term i cs)
      (ev.callFunction term' i ds) := by
  rcases h.cases with ⟨rfl, rfl⟩ | ⟨c, cs', ds', rfl, rfl, -⟩
  · exact .throw rfl
  by_cases hc : c = '('
  · subst hc
    have hsame := h.same.mark (by decide) (by decide) (by decide)
    rw [List.length_cons] at hcs hds
    rw [callFunction_cons, callFunction_cons]
    apply (argumentList_byTokens hterm (by omega) (by omega) hsame).bind
    rintro ⟨args, rest⟩ ⟨_, rest'⟩ ⟨rfl, hcall, hlt, hlt'⟩
    dsimp only at hcall hlt hlt' ⊢
    split
    · exact .throw rfl
    · exact .same _ (returned_byTokens ev hcall (Nat.lt_succ_of_lt hlt) (Nat.lt_succ_of_lt hlt'))
  · have hnone : ∀ (term : TermReader σ) (es : List Char),
        ev.callFunction term i (c :: es) = (throw ⟨.expectedFunction, i.name⟩ : Eval σ (Link ι)) := by
      intro term es
      simp [callFunction, hc]
    rw [hnone, hnone]
    exact .throw rfl

theorem link_byTokens (i : Identifier (Symbol ι)) (hcs : cs.length < N) (hds : ds.length < M)
    (h : Ahead ⟨.word, calls⟩ cs ds) :
    EndsAlike (LinkLeft calls (cs.length + 1) (ds.length + 1)) (ev.link term i cs) (ev.link term' i ds) := by
  unfold link
  split
  · exact readVariable_byTokens ev i h
  · exact readVariable_byTokens ev i h
  · exact callFunction_byTokens ev hterm i hcs hds h
  · exact .throw rfl
  · exact .throw rfl

omit hterm

theorem member_byTokens (holder : Value) (owner : String) (h : Ahead ⟨.dot, calls⟩ cs ds) :
    EndsAlike (NameLeft calls cs.length ds.length) (ev.member holder owner cs) (ev.member holder owner ds) := by
  unfold member
  split
  · exact .throw rfl
  refine .same _ fun s => ?_
  split
  · exact .throw rfl
  apply (readName_byTokens h (.inl rfl)).bind
  rintro ⟨name, rest⟩ ⟨_, rest'⟩ ⟨rfl, hahead, hlt, hlt'⟩
  refine .same _ fun s => ?_
  dsimp only
  split
  · exact .throw rfl
  · exact .pure ⟨rfl, hahead, hlt, hlt'⟩

/-- Both chains came to the same operand or to errors of one kind, by the same temporary object. -/
inductive ChainLeft (calls : List Bool) (p q : Nat) :
    Option Handle × Except ScriptError (Atom ι) → Option Handle × Except ScriptError (Atom ι) → Prop
  | ok {temporary : Option Handle} {a a' : Atom ι} :
    AtomLeft calls p q a a' → ChainLeft calls p q (temporary, .ok a) (temporary, .ok a')
  | error {temporary : Option Handle} {e e' : ScriptError} :
    e.kind = e'.kind → ChainLeft calls p q (temporary, .error e) (temporary, .error e')

theorem ChainLeft.mono {p q p' q' : Nat} (hp : p ≤ p') (hq : q ≤ q')
    {r r' : Option Handle × Except ScriptError (Atom ι)} (h : ChainLeft calls p q r r') :
    ChainLeft calls p' q' r r' := by
  cases h with
  | ok h => exact .ok (h.mono hp hq)
  | error h => exact .error h

include hterm

theorem chain_byTokens (hcs : cs.length < N) (hds : ds.length < M) (hn : cs.length < n) (hm : ds.length < m)
    (h : Ahead ⟨.word, calls⟩ cs ds) (temporary : Option Handle) (i : Identifier (Symbol ι)) (s : Session σ) :
    (ev.chain term n temporary i cs s).2 = (ev.chain term' m temporary i ds s).2 ∧
      ChainLeft calls (cs.length + 1) (ds.length + 1) (ev.chain term n temporary i cs s).1
        (ev.chain term' m temporary i ds s).1 := by
  induction n generalizing m cs ds temporary i s with
  | zero => omega
  | succ n ih =>
    obtain ⟨m, rfl⟩ := Nat.exists_eq_add_of_le' (Nat.lt_of_le_of_lt (Nat.zero_le _) hm)
    have hlink := link_byTokens ev hterm i hcs hds h s
    rw [chain_succ, chain_succ]
    generalize (ev.link term i cs).run.run s = r at hlink ⊢
    generalize (ev.link term' i ds).run.run s = r' at hlink ⊢
    cases hlink with
    | error he => exact ⟨rfl, .error he⟩
    | @ok l l' t hlink =>
    cases hlink with
    | last hatom => exact ⟨rfl, .ok hatom⟩
    | @dot holder made rest rest' hahead hlt hlt' =>
    dsimp only
    have hmember := member_byTokens ev holder i.name hahead t
    generalize (ev.member holder i.name rest).run.run t = r at hmember ⊢
    generalize (ev.member holder i.name rest').run.run t = r' at hmember ⊢
    cases hmember with
    | error he => exact ⟨rfl, .error he⟩
    | @ok r r' u hname =>
      obtain ⟨j, rest₁⟩ := r
      obtain ⟨_, rest₁'⟩ := r'
      obtain ⟨rfl, hahead₁, hlt₁, hlt₁'⟩ := hname
      dsimp only at hahead₁ hlt₁ hlt₁' ⊢
      obtain ⟨hsession, hchain⟩ :=
        ih (m := m) (by omega) (by omega) (by omega) (by omega) hahead₁ (made <|> temporary) j u
      exact ⟨hsession, hchain.mono (by omega) (by omega)⟩

/-- The object made for a chain is let go at its end on both sides. -/
theorem identifier_byTokens (hcs : cs.length ≤ N) (hds : ds.length ≤ M) (h : Ahead ⟨.other, calls⟩ cs ds)
    (hstart : ∀ c ∈ cs.head?, isNameStart c = true) :
    EndsAlike (AtomLeft calls cs.length ds.length) (ev.identifier term cs) (ev.identifier term' ds) := by
  unfold identifier
  apply (readName_byTokens h (.inr hstart)).bind
  rintro ⟨name, rest⟩ ⟨_, rest'⟩ ⟨rfl, hahead, hlt, hlt'⟩
  dsimp only at hahead hlt hlt' ⊢
  refine .same _ fun state => ?_
  split
  · exact .throw rfl
  rename_i i _
  refine EndsAlike.lifted (Q := ChainLeft calls (rest.length + 1) (rest'.length + 1)) (fun s => ?_) ?_
  · exact chain_byTokens ev hterm (by omega) (by omega) (Nat.lt_succ_self _) (Nat.lt_succ_self _) hahead none i s
  rintro _ _ (@⟨temporary, a, a', hatom⟩ | @⟨temporary, e, e', he⟩)
  · have hatom : EndsAlike (σ := σ) (AtomLeft calls cs.length ds.length) (liftExcept (.ok a)) (liftExcept (.ok a')) :=
      .pure (hatom.mono hlt hlt')
    cases temporary with
    | none => exact hatom
    | some made => exact .same _ fun _ => hatom
  · have herror : EndsAlike (σ := σ) (AtomLeft (ι := ι) calls cs.length ds.length) (liftExcept (.error e))
      (liftExcept (.error e')) := .throw he
    cases temporary with
    | none => exact herror
    | some made => exact .same _ fun _ => herror

/-! ## Groups -/

omit hterm in
theorem group_more {cs : List Char} (h : ¬∃ rest, cs = ')' :: rest) (term : TermReader σ) (n : Nat) (acc : Value) :
    group term (n + 1) acc cs = (tryCatch (term cs) (fun e => throw (unclosed e)) >>= fun r =>
      group term n (acc.addAssign r.1) r.2) := by
  rw [group]
  exact fun rest hrest => h ⟨rest, hrest⟩

omit hterm in
theorem unclosed_kind (e e' : ScriptError) (h : e.kind = e'.kind) : (unclosed e).kind = (unclosed e').kind := by
  unfold unclosed
  rw [h]
  split
  · rfl
  · exact h

/-- A group goes by the tokens if it is closed at once in both texts or in neither. -/
theorem group_byTokens (hcs : cs.length < N) (hds : ds.length < M) (hn : cs.length < n) (hm : ds.length < m)
    (h : SameTokens ⟨.other, false :: calls⟩ cs ds) (hclose : (∃ rest, cs = ')' :: rest) ↔ ∃ rest, ds = ')' :: rest) :
    EndsAlike (Left calls cs.length ds.length) (group term n acc cs) (group term' m acc ds) := by
  induction n generalizing m cs ds acc with
  | zero => omega
  | succ n ih =>
    obtain ⟨m, rfl⟩ := Nat.exists_eq_add_of_le' (Nat.lt_of_le_of_lt (Nat.zero_le _) hm)
    by_cases hc : ∃ rest, cs = ')' :: rest
    · obtain ⟨rest', rfl⟩ := hclose.mp hc
      obtain ⟨rest, rfl⟩ := hc
      have hsame := h.mark (by decide) (by decide) (by decide)
      exact .pure ⟨rfl, .of_skipWhite hsame, Nat.lt_succ_of_le (skipWhite_length rest),
        Nat.lt_succ_of_le (skipWhite_length rest')⟩
    · rw [group_more hc, group_more (mt hclose.mpr hc)]
      apply ((hterm (false :: calls) cs ds hcs hds h).mapError unclosed_kind).bind
      rintro ⟨v, rest⟩ ⟨_, rest'⟩ ⟨rfl, hahead, hlt, hlt'⟩
      dsimp only at hahead hlt hlt' ⊢
      refine (ih (by omega) (by omega) (by omega) (by omega) hahead.same ?_).imp fun _ _ =>
        Left.mono (Nat.le_of_lt hlt) (Nat.le_of_lt hlt')
      rcases hahead.cases with ⟨rfl, rfl⟩ | ⟨c, cs', ds', rfl, rfl, -⟩ <;> simp

/-! ## Texts -/

omit hterm

/-- Where the same token is read at two quotes, both are closed behind the same text, or neither is closed. -/
theorem untilQuote_alike {k : Context} (h : (readItem k '"' cs).1 = (readItem k '"' ds).1) :
    untilQuote cs = none ∧ untilQuote ds = none ∨ ∃ raw, (readItem k '"' cs).1 = .text raw ∧
      untilQuote cs = some (raw, (readItem k '"' cs).2) ∧ untilQuote ds = some (raw, (readItem k '"' ds).2) := by
  rw [readItem_text, readItem_text] at h ⊢
  cases hcs : untilQuote cs with
  | none =>
    cases hds : untilQuote ds with
    | none => exact .inl ⟨rfl, rfl⟩
    | some r =>
      rw [hcs, hds] at h
      cases h
  | some r =>
    cases hds : untilQuote ds with
    | none =>
      rw [hcs, hds] at h
      cases h
    | some r' =>
      rw [hcs, hds] at h
      obtain ⟨raw, rest⟩ := r
      obtain ⟨raw', rest'⟩ := r'
      cases h
      exact .inr ⟨raw, rfl, rfl, rfl⟩

/-- The same segments are read, or one is not closed on either side. -/
theorem segments_byTokens (hn : cs.length ≤ n) (hm : ds.length ≤ m) (h : Ahead ⟨.other, calls⟩ cs ds) :
    segments n cs = none ∧ segments m ds = none ∨ ∃ raw rest rest', segments n cs = some (raw, rest) ∧
      segments m ds = some (raw, rest') ∧ Ahead ⟨.other, calls⟩ rest rest' := by
  induction n generalizing m cs ds with
  | zero =>
    obtain rfl := List.eq_nil_of_length_eq_zero (Nat.le_zero.mp hn)
    rcases h.cases with ⟨-, rfl⟩ | ⟨c, cs', ds', heq, -⟩
    · exact .inr ⟨[], [], [], segments_end (by decide), segments_end (by decide), h⟩
    · cases heq
  | succ n ih =>
    rcases h.cases with ⟨rfl, rfl⟩ | ⟨c, cs', ds', rfl, rfl, -, hitem, hrest⟩
    · exact .inr ⟨[], [], [], segments_end (by decide), segments_end (by decide), h⟩
    by_cases hc : c = '"'
    · subst hc
      obtain ⟨m, rfl⟩ := Nat.exists_eq_add_of_le' (Nat.lt_of_lt_of_le (Nat.succ_pos _) hm)
      rw [List.length_cons] at hn hm
      rcases untilQuote_alike hitem with ⟨hquote, hquote'⟩ | ⟨raw, hraw, hquote, hquote'⟩
      · exact .inl ⟨by simp [segments, hquote], by simp [segments, hquote']⟩
      have hlt := untilQuote_length hquote
      have hlt' := untilQuote_length hquote'
      rw [hraw] at hrest
      generalize (readItem _ '"' cs').2 = rest at hquote hlt hrest
      generalize (readItem _ '"' ds').2 = rest' at hquote' hlt' hrest
      have hle := skipWhite_length rest
      have hle' := skipWhite_length rest'
      have hleft : (skipWhite rest).length ≤ n := by omega
      have hleft' : (skipWhite rest').length ≤ m := by omega
      rcases ih hleft hleft' (.of_skipWhite hrest) with
        ⟨hnone, hnone'⟩ | ⟨more, last, last', hsome, hsome', hlast⟩
      · exact .inl ⟨by simp [segments, hquote, hnone], by simp [segments, hquote', hnone']⟩
      · exact .inr ⟨raw ++ more, last, last', by simp [segments, hquote, hsome],
          by simp [segments, hquote', hsome'], hlast⟩
    · exact .inr ⟨[], _, _, segments_end hc, segments_end hc, h⟩

theorem readText_byTokens (h : Ahead ⟨.other, calls⟩ ('"' :: cs) ('"' :: ds)) :
    EndsAlike (σ := σ) (Left calls ('"' :: cs).length ('"' :: ds).length) (liftExcept (readText ('"' :: cs)))
      (liftExcept (readText ('"' :: ds))) := by
  have hlength : ∀ v rest, readText ('"' :: cs) = .ok (v, rest) → rest.length < ('"' :: cs).length :=
    fun _ _ => readText_length
  have hlength' : ∀ v rest, readText ('"' :: ds) = .ok (v, rest) → rest.length < ('"' :: ds).length :=
    fun _ _ => readText_length
  unfold readText at hlength hlength' ⊢
  rcases segments_byTokens (Nat.le_refl _) (Nat.le_refl _) h with
    ⟨hnone, hnone'⟩ | ⟨raw, rest, rest', hsome, hsome', hlast⟩
  · rw [hnone, hnone']
    exact .throw rfl
  · rw [hsome] at hlength ⊢
    rw [hsome'] at hlength' ⊢
    dsimp only at hlength hlength' ⊢
    split
    · exact .throw rfl
    · rename_i hsize
      rw [if_neg hsize] at hlength hlength'
      exact .pure ⟨rfl, hlast, hlength _ _ rfl, hlength' _ _ rfl⟩

include hterm

/-! ## Operands -/

theorem atom_byTokens (hcs : cs.length ≤ N) (hds : ds.length ≤ M) (h : Ahead ⟨.other, calls⟩ cs ds) :
    EndsAlike (AtomLeft calls cs.length ds.length) (ev.atom term cs) (ev.atom term' ds) := by
  rcases h.cases with ⟨rfl, rfl⟩ | ⟨c, cs', ds', rfl, rfl, -, hitem, hrest⟩
  · exact .throw rfl
  unfold atom
  refine .decided (fun hopen => ?_) fun _ => .decided (fun hdigit => ?_) fun _ => .decided (fun hname => ?_) fun _ =>
    .decided (fun hquote => ?_) fun _ => .throw rfl
  · obtain rfl := beq_iff_eq.mp hopen
    have hsame : SameTokens ⟨.groupStart, false :: calls⟩ cs' ds' :=
      h.same.mark (by decide) (by decide) (by decide)
    have hclose : (∃ rest, cs' = ')' :: rest) ↔ ∃ rest, ds' = ')' :: rest := by
      constructor
      · rintro ⟨rest, rfl⟩
        exact hsame.joined rfl
      · rintro ⟨rest, rfl⟩
        exact hsame.symm.joined rfl
    rw [List.length_cons] at hcs hds
    apply (group_byTokens hterm hcs hds (Nat.lt_succ_of_lt (Nat.lt_succ_self _))
      (Nat.lt_succ_of_lt (Nat.lt_succ_self _)) hsame.apart hclose).bind
    rintro ⟨v, rest⟩ ⟨_, rest'⟩ ⟨rfl, hahead, hlt, hlt'⟩
    exact .pure ⟨rfl, rfl, hahead, Nat.lt_succ_of_lt hlt, Nat.lt_succ_of_lt hlt'⟩
  · have hdot : (Context.mk .other calls).last ≠ .dot := by simp
    rw [readItem_number hdigit hdot, readItem_number hdigit hdot] at hitem hrest
    have hlt := readNumber_length (List.cons_ne_nil c cs')
    have hlt' := readNumber_length (List.cons_ne_nil c ds')
    have hahead : Ahead ⟨.other, calls⟩ (readNumber (c :: cs')).2 (readNumber (c :: ds')).2 := by
      rw [readNumber_eq (c :: cs'), readNumber_eq (c :: ds')]
      dsimp only at hrest ⊢
      exact .of_skipWhite hrest
    dsimp only
    rw [(Item.number.inj hitem).2]
    apply (operator_byTokens ev hterm (Nat.lt_of_lt_of_le hlt hcs) (Nat.lt_of_lt_of_le hlt' hds) hahead none _).bind
    intro r r' hr
    cases hr with
    | none => exact .pure ⟨rfl, rfl, hahead, hlt, hlt'⟩
    | some hleft => exact .pure ⟨hleft.eq, rfl, hleft.ahead, hleft.lt.trans hlt, hleft.lt'.trans hlt'⟩
  · exact identifier_byTokens ev hterm hcs hds h fun d hd => Option.some.inj hd ▸ hname
  · obtain rfl := beq_iff_eq.mp hquote
    apply (readText_byTokens h).bind
    rintro ⟨v, rest⟩ ⟨_, rest'⟩ ⟨rfl, hahead, hlt, hlt'⟩
    exact .pure ⟨rfl, rfl, hahead, hlt, hlt'⟩

omit hterm in
/-- What extends an operator is no operand. -/
theorem operand_extending {d : Char} (hd : extendsOperator d = true) (term : TermReader σ) (es : List Char) :
    ev.operand term (d :: es) =
      (throw ⟨.unexpectedCharacter, (leadByte d).toString⟩ : Eval σ (Atom ι)) := by
  have hall : ">=|^&".toList.all (fun d => !isWhite d && (signOf? d).isNone && d != '(' && !d.isDigit &&
    !isNameStart d && d != '"') = true := by decide
  have hd := List.all_eq_true.mp hall d (List.contains_iff_mem.mp hd)
  simp only [Bool.and_eq_true, Bool.not_eq_true', Option.isNone_iff_eq_none, bne_iff_ne] at hd
  obtain ⟨⟨⟨⟨⟨hwhite, hsign⟩, hopen⟩, hdigit⟩, hname⟩, hquote⟩ := hd
  rw [operand_atom ev term hwhite hsign]
  simp [atom, hopen, hdigit, hname, hquote]

omit hterm in
/-- An exclamation mark is a sign, unless it is a part of an operator. -/
theorem not_byTokens (h : Ahead ⟨.other, calls⟩ ('!' :: cs) ('!' :: ds)) :
    SameTokens ⟨.other, calls⟩ cs ds ∨
      ∃ d cs' ds', cs = d :: cs' ∧ ds = d :: ds' ∧ extendsOperator d = true := by
  have hread : ∀ es : List Char, (∃ rest, readOperator? ('!' :: es) = some (⟨'!', none⟩, rest) ∧ rest = es) ∨
      ∃ d rest, readOperator? ('!' :: es) = some (⟨'!', some d⟩, rest) ∧ es = d :: rest ∧ extendsOperator d = true := by
    have hstarts : startsOperator '!' = true := by decide
    intro es
    match es with
    | [] => exact .inl ⟨[], by simp [readOperator?, hstarts], rfl⟩
    | d :: rest =>
      by_cases hd : extendsOperator d = true
      · exact .inr ⟨d, rest, by simp [readOperator?, hstarts, hd], rfl, hd⟩
      · exact .inl ⟨d :: rest, by simp [readOperator?, hstarts, hd], rfl⟩
  have hplain : isPlain '!' = true := by decide
  rcases h.cases with ⟨hnil, -⟩ | ⟨_, _, _, hcs, hds, -, hitem, hrest⟩
  · cases hnil
  cases hcs
  cases hds
  rw [readItem_plain hplain, readItem_plain hplain] at hitem hrest
  rcases hread cs with ⟨_, hcs, rfl⟩ | ⟨d, rest, hcs, rfl, hd⟩
  · rcases hread ds with ⟨_, hds, rfl⟩ | ⟨d', rest', hds, -, -⟩
    · rw [hcs, hds] at hrest
      exact .inl hrest
    · rw [hcs, hds] at hitem
      cases hitem
  · rcases hread ds with ⟨_, hds, -⟩ | ⟨d', rest', hds, rfl, -⟩
    · rw [hcs, hds] at hitem
      cases hitem
    · rw [hcs, hds] at hitem
      cases hitem
      exact .inr ⟨d, rest, rest', rfl, rfl, hd⟩

theorem operand_byTokens (hcs : cs.length ≤ N) (hds : ds.length ≤ M) (h : SameTokens ⟨.other, calls⟩ cs ds) :
    EndsAlike (AtomLeft calls cs.length ds.length) (ev.operand term cs) (ev.operand term' ds) := by
  -- on the length of the first text, as white space is left out before each sign
  induction hlen : cs.length using Nat.strong_induction_on generalizing cs ds with
  | _ len ih =>
  subst hlen
  have hle := skipWhite_length cs
  have hle' := skipWhite_length ds
  have hahead : Ahead ⟨.other, calls⟩ _ _ := .of_skipWhite h
  rw [← operand_skipWhite ev term cs, ← operand_skipWhite ev term' ds]
  generalize skipWhite cs = ws at hle hahead ⊢
  generalize skipWhite ds = ws' at hle' hahead ⊢
  refine EndsAlike.imp (Q := AtomLeft calls ws.length ws'.length) ?_ fun _ _ => AtomLeft.mono hle hle'
  rcases hahead.cases with ⟨rfl, rfl⟩ | ⟨c, cs', ds', rfl, rfl, hwhite, -⟩
  · exact .throw rfl
  cases hsign : signOf? c with
  | none =>
    rw [operand_atom ev term hwhite hsign, operand_atom ev term' hwhite hsign]
    exact atom_byTokens ev hterm (hle.trans hcs) (hle'.trans hds) hahead
  | some sign =>
    rw [operand_sign ev term hwhite hsign, operand_sign ev term' hwhite hsign]
    rw [List.length_cons] at hle hle'
    -- the sign is a token by itself, or the mark of an operator, behind which neither text has an operand
    have hmore : SameTokens ⟨.other, calls⟩ cs' ds' ∨
        ∃ d es es', cs' = d :: es ∧ ds' = d :: es' ∧ extendsOperator d = true := by
      unfold signOf? at hsign
      split at hsign
      · obtain rfl := beq_iff_eq.mp ‹_›
        exact not_byTokens hahead
      split at hsign
      · obtain rfl := beq_iff_eq.mp ‹_›
        exact .inl (hahead.same.mark (by decide) (by decide) (by decide))
      split at hsign
      · obtain rfl := beq_iff_eq.mp ‹_›
        exact .inl (hahead.same.mark (by decide) (by decide) (by decide))
      · cases hsign
    rcases hmore with hsame | ⟨d, es, es', rfl, rfl, hd⟩
    · apply (ih cs'.length (by omega) (by omega) (by omega) hsame rfl).bind
      rintro ⟨a, target, rest⟩ ⟨_, _, rest'⟩ ⟨rfl, rfl, hrest, hlt, hlt'⟩
      exact .same _ fun v => .pure ⟨rfl, rfl, hrest, Nat.lt_succ_of_lt hlt, Nat.lt_succ_of_lt hlt'⟩
    · rw [operand_extending ev hd, operand_extending ev hd]
      exact .throw rfl

/-! ## Terms -/

theorem termWith_byTokens : ReadsTokens (N + 1) (M + 1) (ev.termWith term) (ev.termWith term') := by
  intro calls cs ds hcs hds h
  apply (operand_byTokens ev hterm (Nat.le_of_lt_succ hcs) (Nat.le_of_lt_succ hds) h).bind
  rintro ⟨a, target, rest⟩ ⟨_, _, rest'⟩ ⟨rfl, rfl, hahead, hlt, hlt'⟩
  dsimp only at hahead hlt hlt' ⊢
  apply (operators_byTokens ev hterm (by omega) (by omega) (Nat.lt_succ_self _) (Nat.lt_succ_self _) hahead target
    a).bind
  rintro ⟨result, rest₁⟩ ⟨_, rest₁'⟩ ⟨rfl, hahead₁, hlt₁, hlt₁'⟩
  dsimp only at hahead₁ hlt₁ hlt₁' ⊢
  exact .same _ fun v => .pure ⟨rfl, hahead₁, by dsimp only; omega, by dsimp only; omega⟩

omit hterm

/-- Terms nested as deep as their texts are long go by the tokens. -/
theorem termAt_byTokens (n m : Nat) : ReadsTokens n m (ev.termAt n) (ev.termAt m) := by
  induction n generalizing m with
  | zero => exact fun _ _ _ hcs => absurd hcs (Nat.not_lt_zero _)
  | succ n ih =>
    cases m with
    | zero => exact fun _ _ _ _ hds => absurd hds (Nat.not_lt_zero _)
    | succ m => exact termWith_byTokens ev (ih m)

/-! ## Expressions -/

include hterm in
theorem terms_byTokens (hcs : cs.length < N) (hds : ds.length < M) (hn : cs.length < n) (hm : ds.length < m)
    (h : SameTokens ⟨.other, calls⟩ cs ds) : EndsAlike Eq (terms term n acc cs) (terms term' m acc ds) := by
  induction n generalizing m cs ds acc with
  | zero => omega
  | succ n ih =>
    obtain ⟨m, rfl⟩ := Nat.exists_eq_add_of_le' (Nat.lt_of_le_of_lt (Nat.zero_le _) hm)
    have hle := skipWhite_length cs
    have hle' := skipWhite_length ds
    have hahead : Ahead ⟨.other, calls⟩ _ _ := .of_skipWhite h
    unfold terms
    generalize skipWhite cs = ws at hle hahead ⊢
    generalize skipWhite ds = ws' at hle' hahead ⊢
    rcases hahead.cases with ⟨rfl, rfl⟩ | ⟨c, cs', ds', rfl, rfl, -⟩
    · exact .pure rfl
    dsimp only
    apply (hterm calls _ _ (by omega) (by omega) hahead.same).bind
    rintro ⟨v, rest⟩ ⟨_, rest'⟩ ⟨rfl, hrest, hlt, hlt'⟩
    dsimp only at hrest hlt hlt' ⊢
    rcases hrest.cases with ⟨rfl, rfl⟩ | ⟨d, _, _, rfl, rfl, -⟩
    · exact .pure rfl
    · exact .ite (ih (by omega) (by omega) (by omega) (by omega) hrest.same) (.throw rfl)

/-- Expressions with the same tokens come to the same. -/
theorem expression_byTokens (h : SameTokens .start cs ds) : EndsAlike Eq (ev.expression cs) (ev.expression ds) :=
  terms_byTokens (termAt_byTokens ev _ _) (Nat.lt_succ_self _) (Nat.lt_succ_self _) (Nat.lt_succ_self _)
    (Nat.lt_succ_self _) h

end Terms

end Evaluator

end HostScript
