import HostScript.Proofs.Compiling
import HostScript.Proofs.Divisions
import Mathlib.Data.List.DropRight
/-!
# Reading and assigning a name

An expression that is the name of a variable comes to what the variable holds. An assignment takes all that stands
behind its sign for the right side: it is evaluated as it would be for itself, and then the variable is written. A
value that is no float is made one before it is written to a variable that holds a float.
-/

set_option autoImplicit false

namespace HostScript

open HostScript.Text HostScript.Token HostScript.Structured

variable {κ ι σ : Type}

/-! ## Names in a text -/

namespace Token

/-- A name that expressions take. -/
structure IsName (name : List Char) : Prop where
  start : name.head?.any isNameStart = true
  chars : ∀ a ∈ name, isNameChar a = true
  short : name.length ≤ maxNameLength

theorem skipWhite_skipWhite (cs : List Char) : skipWhite (skipWhite cs) = skipWhite cs :=
  List.dropWhile_idempotent isWhite cs

/-- A name is read up to where it ends, and the white space behind it goes. -/
theorem readName_name {name cs : List Char} (hname : IsName name) (hcs : Apart cs) :
    readName (name ++ cs) = .ok (String.ofList name, skipWhite cs) := by
  have hword := Compiler.takeWhile_word hname.chars hcs
  have hne : name ≠ [] := by
    rintro rfl
    exact nomatch hname.start
  unfold readName
  rw [hword, if_neg (Nat.not_lt.mpr hname.short), if_neg (by simpa using hne), List.drop_left]

end Token

/-! ## Depth -/

/-- The text that is left at a place is one only. -/
theorem LeftAt.unique {text rest rest' : List Char} {p : Nat} (h : LeftAt text p rest) (h' : LeftAt text p rest') :
    rest = rest' := h.drop.symm.trans h'.drop

/-- What both of two readers take of a text is the same. -/
theorem Both.unique {α : Type} {text : List Char} {size p : Nat} {a : Except ScriptError α}
    {b b' : Except ScriptError (α × List Char)} (h : Both (Takes text size) a b p)
    (h' : Both (Takes text size) a b' p) : b = b' := by
  cases h with
  | ok h =>
    cases h' with
    | ok h' => exact congrArg Except.ok (Prod.ext (h.1.symm.trans h'.1) (h.2.1.unique h'.2.1))
  | error e p =>
    cases h' with
    | error e p => rfl

namespace Evaluator

variable (ev : Evaluator κ ι σ)

/-- How deep terms may be nested does not matter, if it is deeper than the text is long. -/
theorem termAt_eq {cs : List Char} {n m : Nat} (hn : cs.length < n) (hm : cs.length < m) :
    ev.termAt n cs = ev.termAt m cs := by
  refine funext fun s => ?_
  -- both do what one engine at a desk does, which knows of no depth
  obtain ⟨a, p, hcomes, hboth⟩ := CursorEngine.termsBelow ev.onDesk_answers n .start hn s
  obtain ⟨a', p', hcomes', hboth'⟩ := CursorEngine.termsBelow ev.onDesk_answers m .start hm s
  obtain ⟨rfl, hdesk⟩ := Prod.mk.inj (hcomes.unique hcomes')
  obtain ⟨-, rfl, herrors, hstate⟩ := Desk.mk.inj hdesk
  exact Prod.ext (hboth.unique hboth') (congrArg₂ Session.mk hstate herrors)

/-! ## The right side of an operator -/

/-- A term takes something of the text. -/
theorem termAt_shorter {cs rest : List Char} {n : Nat} {v : Value} {s t : Session σ}
    (h : (ev.termAt n cs).run.run s = (.ok (v, rest), t)) : rest.length < cs.length := by
  obtain ⟨_, _, -, hlt⟩ := termAt_succeeds ev [] (Nat.le_refl n) cs s _ t h
  exact hlt

/-- The operators behind an operand end where no operator stands. -/
theorem operators_stop {d n : Nat} {cs rest : List Char} {target : Option (Identifier (Symbol ι))} {a b : Operand}
    {s t : Session σ} (hn : cs.length < n)
    (h : (ev.operators (ev.termAt d) n target a cs).run.run s = (.ok (b, rest), t)) : readOperator? rest = none := by
  induction n generalizing cs target a s with
  | zero => cases hn
  | succ n ih =>
    obtain ⟨r, u, hoperator, hmore⟩ := exists_of_run_bind h
    obtain ⟨_, -, -, hlt⟩ :=
      operator_succeeds ev (termAt_succeeds ev [] (Nat.le_refl d)) target a cs s r u hoperator
    cases r with
    | none =>
      cases hmore
      by_contra hsome
      obtain ⟨⟨op, behind⟩, hop⟩ := Option.ne_none_iff_exists'.mp hsome
      unfold operator? at hoperator
      rw [hop] at hoperator
      obtain ⟨⟨right, rest'⟩, u₁, -, hoperate⟩ := exists_of_run_bind hoperator
      obtain ⟨o, u₂, -, hsome⟩ := exists_of_run_bind hoperate
      cases hsome
    | some r => exact ih (Nat.lt_of_lt_of_le (hlt r rfl) (Nat.le_of_lt_succ hn)) hmore

theorem termAt_stops {cs rest : List Char} {n : Nat} {v : Value} {s t : Session σ}
    (h : (ev.termAt n cs).run.run s = (.ok (v, rest), t)) : readOperator? rest = none := by
  cases n with
  | zero => cases h
  | succ n =>
    obtain ⟨a, u, -, hmore⟩ := exists_of_run_bind h
    obtain ⟨⟨result, rest'⟩, u', hoperators, hvalue⟩ := exists_of_run_bind hmore
    obtain ⟨v', u'', -, hpure⟩ := exists_of_run_bind hvalue
    cases hpure
    exact ev.operators_stop (Nat.lt_succ_self _) hoperators

/-- A delimiter that does not start an operator is a sign. -/
theorem startsSigned_of_delimiter {c : Char} {cs : List Char} (hc : isDelimiter c = true)
    (h : readOperator? (c :: cs) = none) : startsSigned (c :: cs) = true := by
  have hnone : startsOperator c = false := by
    by_contra hstarts
    rw [Bool.not_eq_false] at hstarts
    cases cs with
    | nil => simp [readOperator?, hstarts] at h
    | cons d cs =>
      simp only [readOperator?, hstarts, Bool.not_true, Bool.false_eq_true, if_false] at h
      split at h <;> cases h
  have hkinds : "+-/*&|^=<>!%".toList.all (fun c => startsOperator c || (c == '+' || c == '-')) = true := by decide
  have hkind := List.all_eq_true.mp hkinds c (List.contains_iff_mem.mp hc)
  rwa [hnone, Bool.false_or] at hkind

/-- What an expression adds up to is the right side of an operator. -/
theorem sum_of_terms {cs : List Char} {d d' n m : Nat} (hblank : skipWhite cs ≠ []) (hd : cs.length < d)
    (hd' : cs.length < d') (hm : cs.length < m) {acc v : Value} {s t : Session σ}
    (h : (terms (ev.termAt d) n acc cs).run.run s = (.ok v, t)) (hn : cs.length < n) :
    (sum (ev.termAt d') m acc cs).run.run s = (.ok (v, []), t) := by
  induction n generalizing cs acc m s with
  | zero => cases hn
  | succ n ih =>
    obtain ⟨m, rfl⟩ := Nat.exists_eq_add_of_le' (Nat.zero_lt_of_lt hm)
    unfold terms at h
    split at h
    · contradiction
    rw [termAt_skipWhite, ev.termAt_eq hd hd'] at h
    obtain ⟨⟨w, rest⟩, u, hterm, hmore⟩ := exists_of_run_bind h
    have hlt := ev.termAt_shorter hterm
    have hstop := ev.termAt_stops hterm
    unfold sum
    rw [run_bind_ok hterm]
    cases rest with
    | nil =>
      cases hmore
      rfl
    | cons c rest =>
      dsimp only at hmore ⊢
      split at hmore
      · rename_i hc
        rw [startsSigned_of_delimiter hc hstop, if_pos rfl]
        have hrest : skipWhite (c :: rest) ≠ [] := by
          rw [skipWhite, List.dropWhile_cons_of_neg (by simp [isWhite_delimiter hc])]
          exact List.cons_ne_nil c rest
        exact ih hrest (by omega) (by omega) (by omega) hmore (by omega)
      · cases hmore

/-! ## Names -/

variable {ev} {name cs : List Char} {i : Identifier (Symbol ι)} {a : Operand} {s t : Session σ}

/-- A variable is read where its name ends. -/
theorem readVariable_ends (hends : ∀ c ∈ cs.head?, endsName c = true)
    (hread : (ev.accessTo i .read).run.run s = (.ok a, t)) :
    (ev.readVariable i cs).run.run s = (.ok (.last ⟨a, some i, skipWhite cs⟩), t) := by
  cases cs with
  | nil => exact run_bind_ok hread _
  | cons c cs =>
    unfold readVariable
    dsimp only
    rw [if_pos (hends c rfl)]
    exact run_bind_ok hread _

theorem identifier_name (term : TermReader σ) (hname : IsName name) (hcs : Apart cs)
    (hends : ∀ c ∈ (skipWhite cs).head?, endsName c = true)
    (hfind : ev.toEngine.find? s.state (String.ofList name) = some i) (hkind : i.kind = .variable)
    (hread : (ev.accessTo i .read).run.run s = (.ok a, t)) :
    (ev.identifier term (name ++ cs)).run.run s = (.ok ⟨a, some i, skipWhite cs⟩, t) := by
  have hlink : (ev.link term i (skipWhite cs)).run.run s = (.ok (.last ⟨a, some i, skipWhite cs⟩), t) := by
    unfold link
    rw [hkind]
    rw [readVariable_ends hends hread, skipWhite_skipWhite]
  have hchain : ((ev.chain term ((skipWhite cs).length + 1) none i (skipWhite cs) : StateM (Session σ) _) :
      Eval σ (Option Handle × Except ScriptError (Atom ι))).run.run s =
        (.ok (none, .ok ⟨a, some i, skipWhite cs⟩), t) := by
    change (Except.ok (ev.chain term ((skipWhite cs).length + 1) none i (skipWhite cs) s).1,
      (ev.chain term ((skipWhite cs).length + 1) none i (skipWhite cs) s).2) = _
    rw [chain_succ, hlink]
  unfold identifier
  have hread : (liftExcept (readName (name ++ cs)) : Eval σ _) = pure (String.ofList name, skipWhite cs) := by
    rw [readName_name hname hcs]
    rfl
  rw [hread, pure_bind]
  dsimp only
  rw [run_bind_ok (m := getState) (a := s.state) (t := s) rfl, hfind]
  dsimp only
  rw [run_bind_ok hchain]
  rfl

/-- At the front of a text a name stands for its variable. -/
theorem operand_name (term : TermReader σ) (hname : IsName name) (hcs : Apart cs)
    (hends : ∀ c ∈ (skipWhite cs).head?, endsName c = true)
    (hfind : ev.toEngine.find? s.state (String.ofList name) = some i) (hkind : i.kind = .variable)
    (hread : (ev.accessTo i .read).run.run s = (.ok a, t)) :
    (ev.operand term (name ++ cs)).run.run s = (.ok ⟨a, some i, skipWhite cs⟩, t) := by
  have hidentifier := identifier_name term hname hcs hends hfind hkind hread
  obtain ⟨c, name, rfl⟩ : ∃ c name', name = c :: name' := by
    cases name with
    | nil => exact nomatch hname.start
    | cons c name => exact ⟨c, name, rfl⟩
  have hstart : isNameStart c = true := hname.start
  have hother : ∀ x : Char, isNameStart x = false → c ≠ x := by
    rintro x hx rfl
    exact absurd (hstart.symm.trans hx) (by decide)
  have hwhite : isWhite c = false := by
    simp [isWhite, hother ' ' rfl, hother '\t' rfl, hother '\n' rfl, hother '\r' rfl]
  have hsign : signOf? c = none := by simp [signOf?, hother '!' rfl, hother '+' rfl, hother '-' rfl]
  have hdigit : c.isDigit = false := isDigit_of_start hstart
  rw [List.cons_append, operand_atom ev term hwhite hsign]
  unfold atom
  simp only [beq_eq_false_iff_ne.mpr (hother '(' rfl), hdigit, hstart, Bool.false_eq_true, if_false, if_true]
  exact hidentifier

theorem skipWhite_name (hname : IsName name) (cs : List Char) : skipWhite (name ++ cs) ≠ [] := by
  cases name with
  | nil => exact nomatch hname.start
  | cons c name =>
    refine skipWhite_ne_nil ⟨c, List.mem_cons_self .., Bool.eq_false_iff.mpr fun hwhite => ?_⟩
    have hnot := isNameChar_of_isWhite hwhite
    rw [hname.chars c (List.mem_cons_self ..)] at hnot
    cases hnot

/-- A text that is a name comes to what its variable holds. -/
theorem expression_name (hname : IsName name) (hfind : ev.toEngine.find? s.state (String.ofList name) = some i)
    (hkind : i.kind = .variable) {x : Value} (hread : (ev.accessTo i .read).run.run s = (.ok (.value x), t)) :
    (ev.expression name).run.run s = (.ok x, t) := by
  have hend : Apart [] := nofun
  have hoperand := operand_name (ev.termAt name.length) hname hend nofun hfind hkind hread
  rw [List.append_nil] at hoperand
  have hblank := skipWhite_name hname []
  rw [List.append_nil] at hblank
  refine expression_of_term ev (r := .ok x) hblank ?_
  rw [termAt, termWith, run_bind_ok hoperand]
  rfl

end Evaluator

/-! ## Assignments -/

/-- What an operator works on: both values are made floats if one of them is. -/
def Value.promoted (x v : Value) : Value × Value :=
  if x.type = .float ∨ v.type = .float then ((x.convert .float).1, (v.convert .float).1) else (x, v)

/-- What is no reference is assigned as a value. -/
theorem Cells.assign_value (cells : Cells) (a b : Value) :
    cells.assign (.value a) (.value b) = (cells, .value (a.assign b)) := by
  unfold assign assignWithin replace Value.assign
  dsimp only
  split <;> rfl

/-- No value of the scope is a reference. -/
structure Scope.Unshared (S : Scope ι σ) : Prop where
  cells (s : σ) : S.cells s = .empty
  setCells (cells : Cells) (s : σ) : S.setCells cells s = s

namespace Evaluator

variable {ev : Evaluator κ ι σ} {name cs : List Char} {i : Identifier (Symbol ι)} {s t u w : Session σ} {x v : Value}

theorem putCells_unshared (hshared : ev.scope.Unshared) (cells : Cells) (a : Operand) (s : Session σ) :
    (ev.putCells (cells, a)).run.run s = (.ok a, s) := by
  change (Except.ok a, ({ s with state := ev.scope.setCells cells s.state } : Session σ)) = _
  rw [hshared.setCells]

theorem promote_promoted (hshared : ev.scope.Unshared) {op : Written} (hop : op.promotes = true) (x v : Value)
    (s : Session σ) :
    (ev.promote op (.value x) v).run.run s = (.ok (.value (x.promoted v).1, (x.promoted v).2), s) := by
  unfold promote Value.promoted
  rw [valueOf_value, pure_bind, hop, Bool.true_and]
  by_cases hfloat : x.type = .float ∨ v.type = .float
  · have hpromotes : (x.type == .float || v.type == .float) = true := by simpa using hfloat
    rw [if_pos hpromotes, if_pos hfloat, run_bind_ok (m := ev.getCells) (a := ev.scope.cells s.state) (t := s) rfl]
    exact run_bind_ok (putCells_unshared hshared _ _ s) _
  · have hstays : ¬(x.type == .float || v.type == .float) = true := by simpa using hfloat
    rw [if_neg hstays, if_neg hfloat]
    rfl

/-- Assigning to a name writes its variable. -/
theorem operate_assign (hshared : ev.scope.Unshared) {o : Operand} (rest : List Char)
    (hwrite : (ev.accessTo i (.write (x.promoted v).2)).run.run s = (.ok o, t)) :
    (ev.operate ⟨'=', none⟩ (some i) (.value x) v rest).run.run s =
      (.ok (.value ((x.promoted v).1.assign (x.promoted v).2)), t) := by
  have hoperator : Written.operator ⟨'=', none⟩ = .assign := rfl
  unfold operate
  rw [run_bind_ok (promote_promoted hshared rfl x v s)]
  dsimp only
  rw [valueOf_value, pure_bind, hoperator]
  dsimp only
  rw [run_bind_ok hwrite, run_bind_ok (m := ev.getCells) (a := ev.scope.cells t.state) (t := t) rfl]
  rw [Cells.assign_value]
  exact putCells_unshared hshared _ _ t

/-- What stands behind the sign is evaluated in between. -/
theorem operator_assign (hshared : ev.scope.Unshared) {d : Nat} {o : Operand} (hblank : skipWhite cs ≠ [])
    (hd : cs.length < d) (hcs : (ev.expression cs).run.run s = (.ok v, t))
    (hwrite : (ev.accessTo i (.write (x.promoted v).2)).run.run t = (.ok o, u)) :
    (ev.operator? (ev.termAt d) (some i) (.value x) ('=' :: ' ' :: cs)).run.run s =
      (.ok (some (.value ((x.promoted v).1.assign (x.promoted v).2), [])), u) := by
  have hread : readOperator? ('=' :: ' ' :: cs) = some (⟨'=', none⟩, ' ' :: cs) := rfl
  have hsum : (sum (ev.termAt d) ((' ' :: cs).length + 1) .undefined (' ' :: cs)).run.run s = (.ok (v, []), t) := by
    have hright := ev.sum_of_terms (m := (' ' :: cs).length + 1) hblank (Nat.lt_succ_self _) hd
      (Nat.lt_succ_of_lt (Nat.lt_succ_self _)) hcs (Nat.lt_succ_self _)
    have hwhite : skipWhite (' ' :: cs) = skipWhite cs := rfl
    unfold sum at hright ⊢
    rwa [← termAt_skipWhite, hwhite, termAt_skipWhite]
  unfold operator?
  rw [hread]
  dsimp only
  rw [run_bind_ok hsum]
  exact run_bind_ok (operate_assign hshared [] hwrite) _

/-- A name, a sign and an expression behind it: the variable is read, the expression is evaluated and the variable is
written. -/
theorem expression_assignment (hshared : ev.scope.Unshared) (hname : IsName name)
    (hfind : ev.toEngine.find? s.state (String.ofList name) = some i) (hkind : i.kind = .variable)
    (hread : (ev.accessTo i .read).run.run s = (.ok (.value x), t)) (hblank : skipWhite cs ≠ [])
    (hcs : (ev.expression cs).run.run t = (.ok v, u)) {o : Operand}
    (hwrite : (ev.accessTo i (.write (x.promoted v).2)).run.run u = (.ok o, w)) :
    (ev.expression (name ++ " = ".toList ++ cs)).run.run s =
      (.ok ((x.promoted v).1.assign (x.promoted v).2), w) := by
  have htext : name ++ " = ".toList ++ cs = name ++ ' ' :: '=' :: ' ' :: cs := by simp
  rw [htext]
  have hapart : Apart (' ' :: '=' :: ' ' :: cs) := Compiler.apart_cons rfl
  have hends : ∀ c ∈ (skipWhite (' ' :: '=' :: ' ' :: cs)).head?, endsName c = true := by
    rintro c ⟨⟩
    decide
  have hoperand :=
    operand_name (ev.termAt (name ++ ' ' :: '=' :: ' ' :: cs).length) hname hapart hends hfind hkind hread
  have hlength : cs.length < (name ++ ' ' :: '=' :: ' ' :: cs).length := by
    simp only [List.length_append, List.length_cons]
    omega
  have hoperator := operator_assign hshared hblank hlength hcs hwrite
  refine expression_of_term ev (r := .ok _) (skipWhite_name hname _) ?_
  rw [termAt, termWith, run_bind_ok hoperand]
  -- nothing is left behind the right side, so that the assignment is the whole term
  have hoperators : ∀ rounds, (ev.operators (ev.termAt (name ++ ' ' :: '=' :: ' ' :: cs).length) (rounds + 1) (some i)
      (.value x) ('=' :: ' ' :: cs)).run.run t =
        (.ok (.value ((x.promoted v).1.assign (x.promoted v).2), []), w) := by
    intro rounds
    unfold operators
    rw [run_bind_ok hoperator]
    cases rounds <;> rfl
  exact run_bind_ok (hoperators _) _

end Evaluator

/-! ## Evaluations -/

namespace Engine

variable (engine : Engine κ ι σ) {depth : Nat} {name text : String} {i : Identifier (Symbol ι)} {s t u w : Session σ}
  {x v : Value}

/-- What an evaluation answers with a value, its expression has come to. -/
theorem yields_of_calculate (h : engine.calculate (depth + 1) text s = (some v, t)) :
    engine.Yields depth text ⟨s.state, .clear⟩ v t := by
  rcases hexpression : ((engine.evaluator depth).expression text.toList).run.run ⟨s.state, .clear⟩ with ⟨e | v', t'⟩
  · rw [engine.calculate_of_expression hexpression] at h
    cases h
  · rw [engine.calculate_of_expression hexpression] at h
    cases h
    exact hexpression

/-- The name of a variable is evaluated to what is read of it. -/
theorem calculate_name (hname : IsName name.toList) (hfind : engine.find? s.state name = some i)
    (hkind : i.kind = .variable)
    (hread : (engine.access (engine.calculate depth) i .read).run.run ⟨s.state, .clear⟩ = (.ok (.value x), t)) :
    engine.calculate (depth + 1) name s = (some x, t) := by
  have hexpression : ((engine.evaluator depth).expression name.toList).run.run ⟨s.state, .clear⟩ = (.ok x, t) :=
    Evaluator.expression_name hname (by rwa [String.ofList_toList]) hkind hread
  exact engine.calculate_of_expression hexpression

/-- An assignment to the name of a variable is evaluated by reading it, evaluating the right side and writing it. -/
theorem calculate_assignment (hshared : engine.scope.Unshared) (hname : IsName name.toList)
    (hfind : engine.find? s.state name = some i) (hkind : i.kind = .variable)
    (hread : (engine.access (engine.calculate depth) i .read).run.run ⟨s.state, .clear⟩ = (.ok (.value x), t))
    (hblank : ∃ c ∈ text.toList, isWhite c = false) (htext : engine.Yields depth text t v u) {o : Operand}
    (hwrite : (engine.access (engine.calculate depth) i (.write (x.promoted v).2)).run.run u = (.ok o, w)) :
    engine.calculate (depth + 1) (name ++ " = " ++ text) s = (some ((x.promoted v).1.assign (x.promoted v).2), w) := by
  have hexpression : ((engine.evaluator depth).expression (name ++ " = " ++ text).toList).run.run ⟨s.state, .clear⟩ =
      (.ok ((x.promoted v).1.assign (x.promoted v).2), w) := by
    rw [String.toList_append, String.toList_append]
    exact Evaluator.expression_assignment hshared hname (by rwa [String.ofList_toList]) hkind hread
      (skipWhite_ne_nil hblank) htext hwrite
  exact engine.calculate_of_expression hexpression

end Engine

end HostScript
