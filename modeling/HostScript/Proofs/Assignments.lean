import HostScript.Proofs.CursorReading
import HostScript.Proofs.Effects
import HostScript.Proofs.Utf8
/-!
# What assigns to variables

An expression writes an identifier where it has an assignment, and an assignment is read off an equals sign.
Whatever is evaluated of a text is a rest of it, so a text without the sign only reads and calls: what reading,
calling and letting objects go keep of a state is kept by evaluating it, whether it succeeds or fails. Variables
of a script are kept so, for a script with or without a host.
-/

set_option autoImplicit false

namespace HostScript

open HostScript.Text HostScript.Token

/-! ## Rests of a text -/

namespace Token

variable {cs rest : List Char}

theorem skipWhite_suffix (cs : List Char) : skipWhite cs <:+ cs := List.dropWhile_suffix _

theorem readName_suffix {name : String} (h : readName cs = .ok (name, rest)) : rest <:+ cs := by
  unfold readName at h
  dsimp only at h
  split at h
  · cases h
  · split at h
    · cases h
    · cases h
      exact (skipWhite_suffix _).trans (List.drop_suffix _ _)

theorem readNumber_suffix (cs : List Char) : (readNumber cs).2 <:+ cs := by
  unfold readNumber
  dsimp only
  split
  · exact (skipWhite_suffix _).trans (List.drop_suffix _ _)
  · exact (skipWhite_suffix _).trans (List.drop_suffix _ _)

theorem untilQuote_suffix {w : List Char} (h : untilQuote cs = some (w, rest)) : rest <:+ cs := by
  rw [untilQuote_eq h]
  exact (List.suffix_cons _ _).trans (List.suffix_append _ _)

theorem segments_suffix {n : Nat} {w : List Char} (h : segments n cs = some (w, rest)) : rest <:+ cs := by
  fun_induction segments n cs generalizing w with
  | case1 n cs ih =>
    simp only [Option.bind_eq_bind, Option.bind_eq_some_iff] at h
    obtain ⟨⟨text, rest'⟩, htext, ⟨more, rest''⟩, hmore, heq⟩ := h
    cases heq
    have hclosed := untilQuote_suffix htext
    exact (ih _ hmore).trans ((skipWhite_suffix _).trans (hclosed.trans (List.suffix_cons _ _)))
  | case2 =>
    cases h
    exact List.suffix_refl _

theorem readText_suffix {v : Value} (h : readText cs = .ok (v, rest)) : rest <:+ cs := by
  unfold readText at h
  split at h
  · cases h
  · rename_i hsegments
    dsimp only at h
    split at h
    · cases h
    · cases h
      exact segments_suffix hsegments

theorem readSigns_suffix (cs : List Char) : (readSigns cs).2 <:+ cs := by
  fun_induction readSigns cs with
  | case1 => exact List.suffix_refl _
  | case2 c cs hwhite ih => exact ih.trans (List.suffix_cons _ _)
  | case3 c cs hwhite sign hsign signs rest hrest ih =>
    rw [hrest] at ih
    exact ih.trans (List.suffix_cons _ _)
  | case4 c cs hwhite hsign => exact List.suffix_refl _

/-- Every operator has a first character that may start one, and perhaps a second one that may follow. -/
theorem readOperator_first {op : Written} (h : readOperator? cs = some (op, rest)) :
    startsOperator op.first = true ∧ (∀ d ∈ op.second, extendsOperator d = true) ∧
      ∃ tail, cs = op.first :: tail ∧ rest <:+ tail := by
  unfold readOperator? at h
  split at h
  · cases h
  · split at h
    · cases h
    · rename_i c cs hstarts
      have hstarts : startsOperator c = true := by simpa using hstarts
      split at h
      · cases h
        exact ⟨hstarts, nofun, _, rfl, List.suffix_refl _⟩
      · split at h
        · rename_i hextends
          cases h
          exact ⟨hstarts, fun d hd => Option.mem_some.mp hd ▸ hextends, _, rfl, List.suffix_cons _ _⟩
        · cases h
          exact ⟨hstarts, nofun, _, rfl, List.suffix_refl _⟩

theorem readOperator_suffix {op : Written} (h : readOperator? cs = some (op, rest)) : rest <:+ cs := by
  obtain ⟨-, -, tail, rfl, htail⟩ := readOperator_first h
  exact htail.trans (List.suffix_cons _ _)

/-- Of the characters that operators are written with, only an equals sign assigns. -/
theorem first_of_assign {op : Written} (hfirst : startsOperator op.first = true)
    (hsecond : ∀ d ∈ op.second, extendsOperator d = true) (hop : op.operator = .assign) : op.first = '=' := by
  have hall : ("<>=&|^/*!%".toList.all fun a => (none :: ">=|^&".toList.map some).all fun b =>
      (⟨a, b⟩ : Written).operator != .assign || a == '=') = true := by decide
  obtain ⟨a, b⟩ := op
  have hb : b ∈ none :: ">=|^&".toList.map some := by
    cases b with
    | none => exact List.mem_cons_self
    | some d => exact List.mem_cons_of_mem _ (List.mem_map_of_mem (List.contains_iff_mem.mp (hsecond d rfl)))
  have hwritten := List.all_eq_true.mp (List.all_eq_true.mp hall a (List.contains_iff_mem.mp hfirst)) b hb
  rw [hop] at hwritten
  simpa using hwritten

/-- An assignment is written by an equals sign. -/
theorem readOperator_assign {op : Written} (h : readOperator? cs = some (op, rest)) (hop : op.operator = .assign) :
    '=' ∈ cs := by
  obtain ⟨hfirst, hsecond, tail, rfl, -⟩ := readOperator_first h
  rw [first_of_assign hfirst hsecond hop]
  exact List.mem_cons_self

end Token

/-- The text has no equals sign. -/
def NoEquals (cs : List Char) : Prop := '=' ∉ cs

theorem NoEquals.suffix {cs rest : List Char} (hcs : NoEquals cs) (h : rest <:+ cs) : NoEquals rest :=
  fun hequals => hcs (h.subset hequals)

theorem NoEquals.tail {c : Char} {cs : List Char} (hcs : NoEquals (c :: cs)) : NoEquals cs :=
  hcs.suffix (List.suffix_cons _ _)

theorem NoEquals.skipWhite {cs : List Char} (hcs : NoEquals cs) : NoEquals (skipWhite cs) :=
  hcs.suffix (skipWhite_suffix _)

/-! ## What evaluating keeps -/

section Maintains

variable {ι σ α β : Type}

/-- Sessions compared with themselves, as long as this holds of the state. -/
abbrev Likeness.same (P : σ → Prop) : Likeness σ σ := .total fun s t => s = t ∧ P s

/-- The evaluation keeps this of the state; `Q` holds of what it gives. -/
abbrev Maintains (P : σ → Prop) (Q : α → Prop) (m : Eval σ α) : Prop := EvalAlike (.same P) Q m m

variable {P : σ → Prop} {Q : α → Prop}

theorem Alike.same {m : Action σ α} (h : ∀ s, P s.state → P (m s).2.state) :
    Alike (.same P) (fun _ => True) m m := by
  refine .of_total ?_
  rintro s _ errors ⟨rfl, hs⟩
  exact ⟨rfl, trivial, ⟨rfl, h ⟨s, errors⟩ hs⟩, rfl⟩

theorem Maintains.bindState {f : σ → Eval σ α} (h : ∀ s, P s → Maintains P Q (f s)) :
    Maintains P Q (Evaluator.getState >>= f) := by
  refine EvalAlike.bindState ?_
  rintro s (⟨t, ⟨-, hs⟩, -⟩ | hparted)
  · refine ⟨f s.state, ?_, h s.state hs⟩
    rintro t ⟨⟨hst, -⟩, -⟩
    rw [← hst]
  · exact hparted.elim

/-- What reading and calling the identifiers of a scope keeps, and letting objects of it go. -/
structure KeptUnwritten (S : Scope ι σ) (P : σ → Prop) : Prop where
  access {nested : Evaluation σ} {i : ι} {a : Access} (s : Session σ) :
    (∀ v, a ≠ .write v) → P s.state → P (S.access nested i a s).2.state
  release (h : Handle) (s : σ) : P s → P (S.release h s)
  setCells (cells : Cells) (s : σ) : P s → P (S.setCells cells s)

end Maintains

namespace Evaluator

variable {κ ι σ : Type} {ev : Evaluator κ ι σ} {P : σ → Prop} (hkept : KeptUnwritten ev.scope P)
  {term : TermReader σ}

/-! ## Operands -/

theorem liftExcept_maintains {α : Type} {Q : α → Prop} {r : Except ScriptError α} (h : ∀ a, r = .ok a → Q a) :
    Maintains P Q (liftExcept r : Eval σ α) := liftExcept_alike h

theorem getCells_maintains : Maintains P (fun _ => True) ev.getCells := by
  refine .of_total ?_
  rintro s _ errors ⟨rfl, hs⟩
  exact ⟨rfl, fun _ _ => trivial, ⟨rfl, hs⟩, rfl⟩

theorem valueOf_maintains (a : Operand) : Maintains P (fun _ => True) (ev.valueOf a) :=
  getCells_maintains.bind fun _ _ => .pure trivial

include hkept

theorem putCells_maintains (changed : Cells × Operand) : Maintains P (fun _ => True) (ev.putCells changed) := by
  have hset : Alike (.same P) (fun _ => True)
      (modify fun s : Session σ => { s with state := ev.scope.setCells changed.1 s.state }) _ :=
    Alike.same fun s hs => hkept.setCells changed.1 s.state hs
  exact EvalAlike.bind (EvalAlike.lift hset) fun _ _ => .pure trivial

theorem accessTo_maintains (i : Identifier (Symbol ι)) {a : Access} (ha : ∀ v, a ≠ .write v) :
    Maintains P (fun _ => True) (ev.accessTo i a) := by
  have hdispatch : Alike (.same P) (fun _ => True) (ev.dispatch ev.nested i.id a) (ev.dispatch ev.nested i.id a) := by
    unfold Engine.dispatch
    -- builtins and functions of the registry do not reach the state at all
    rcases i.id with b | index | j
    · exact .pure trivial
    · cases a
      · exact .pure trivial
      · exact .pure trivial
      · exact .pure trivial
    · exact Alike.same fun s hs => hkept.access s ha hs
  refine EvalAlike.bind (EvalAlike.lift hdispatch) fun answer _ => ?_
  rcases answer with kind | _ | operand
  · exact .throw _ _
  · exact .throw _ _
  · exact .pure trivial

/-! ## Operators -/

theorem promote_maintains (op : Written) (a : Operand) (b : Value) :
    Maintains P (fun _ => True) (ev.promote op a b) := by
  refine (valueOf_maintains a).bind fun v _ => ?_
  split
  · exact getCells_maintains.bind fun cells _ => (putCells_maintains hkept _).bind fun _ _ => .pure trivial
  · exact .pure trivial

/-- An operator other than the assignment accesses nothing. -/
theorem operate_maintains {op : Written} (hop : op.operator ≠ .assign) (target : Option (Identifier (Symbol ι)))
    (a : Operand) (b : Value) (rest : List Char) :
    Maintains P (fun _ => True) (ev.operate op target a b rest) := by
  have hstore : ∀ (a : Operand) (v : Value),
      Maintains P (fun _ => True) (do ev.putCells ((← ev.getCells).assign a (.value v))) :=
    fun a v => getCells_maintains.bind fun _ _ => putCells_maintains hkept _
  refine (promote_maintains hkept op a b).bind fun (a, b) _ => (valueOf_maintains a).bind fun x _ => ?_
  dsimp only
  split
  · exact .pure trivial
  · exact .pure trivial
  · exact .pure trivial
  · exact hstore a _
  · split
    · exact .throw _ _
    · exact hstore a _
  · split
    · exact .throw _ _
    · exact hstore a _
  · -- only here the target is written
    rename_i hassign
    exact absurd hassign hop
  · exact .throw _ _

/-! ## Terms of texts without an equals sign -/

omit hkept

/-- Terms of texts without an equals sign are read up to such texts, and the state is kept. -/
def ReadsNoEquals (P : σ → Prop) (term : TermReader σ) : Prop :=
  ∀ cs, NoEquals cs → Maintains P (fun r => NoEquals r.2) (term cs)

variable (hterm : ReadsNoEquals P term)

include hterm

theorem sum_maintains (n : Nat) (acc : Value) : ReadsNoEquals P (sum term n acc) := by
  induction n generalizing acc with
  | zero =>
    intro cs hcs
    exact .pure hcs
  | succ n ih =>
    intro cs hcs
    refine (hterm cs hcs).bind fun (v, rest) hrest => ?_
    dsimp only
    split
    · exact ih _ rest hrest
    · exact .pure hrest

include hkept

theorem operator_maintains (target : Option (Identifier (Symbol ι))) (a : Operand) {cs : List Char}
    (hcs : NoEquals cs) :
    Maintains P (fun r => ∀ x ∈ r, NoEquals x.2) (ev.operator? term target a cs) := by
  unfold operator?
  split
  · exact .pure fun _ h => nomatch h
  · rename_i op rest hop
    have hassign : op.operator ≠ .assign := fun h => hcs (readOperator_assign hop h)
    have hrest : NoEquals rest := hcs.suffix (readOperator_suffix hop)
    refine (sum_maintains hterm _ _ _ hrest).bind fun (b, rest) hrest => ?_
    refine (operate_maintains hkept hassign _ _ _ _).bind fun a _ => .pure ?_
    rintro _ ⟨⟩
    exact hrest

theorem operators_maintains (n : Nat) (target : Option (Identifier (Symbol ι))) (a : Operand) {cs : List Char}
    (hcs : NoEquals cs) : Maintains P (fun r => NoEquals r.2) (ev.operators term n target a cs) := by
  induction n generalizing target a cs with
  | zero => exact .pure hcs
  | succ n ih =>
    refine (operator_maintains hkept hterm target a hcs).bind fun r hr => ?_
    cases r with
    | none => exact .pure hcs
    | some r => exact ih none r.1 (hr r rfl)

/-! ## Arguments -/

omit hkept

theorem argument_maintains (n : Nat) (acc : Value) : ReadsNoEquals P (argument term n acc) := by
  induction n generalizing acc with
  | zero =>
    intro cs hcs
    exact .pure hcs
  | succ n ih =>
    intro cs hcs
    refine (hterm cs hcs).bind fun (v, rest) hrest => ?_
    cases rest with
    | nil => exact .throw _ _
    | cons c rest =>
      dsimp only
      split
      · exact .pure hrest
      · exact ih _ _ hrest

theorem arguments_maintains (n : Nat) {cs : List Char} (hcs : NoEquals cs) :
    Maintains P (fun r => NoEquals r.2) (arguments term n cs) := by
  induction n generalizing cs with
  | zero => exact .pure hcs
  | succ n ih =>
    refine (argument_maintains hterm _ _ cs hcs).bind fun (v, rest) hrest => ?_
    cases rest with
    | nil => exact .pure hrest
    | cons c rest =>
      dsimp only
      split
      · exact .pure hrest.tail
      · exact (ih hrest.tail).bind fun _ hrest => .pure hrest

theorem argumentList_maintains {cs : List Char} (hcs : NoEquals cs) :
    Maintains P (fun r => NoEquals r.2) (argumentList term cs) := by
  have hwhite := hcs.skipWhite
  unfold argumentList
  split
  · rename_i heq
    rw [heq] at hwhite
    exact .pure hwhite.tail
  · exact arguments_maintains hterm _ hwhite

/-! ## Chains -/

/-- What a link of a chain leaves has no equals sign. -/
def LinkNoEquals : Link ι → Prop
  | .last atom => NoEquals atom.rest
  | .dot _ _ rest => NoEquals rest

omit hterm

include hkept

theorem readVariable_maintains (i : Identifier (Symbol ι)) {cs : List Char} (hcs : NoEquals cs) :
    Maintains P LinkNoEquals (ev.readVariable i cs) := by
  have hread : Maintains P (fun _ => True) (ev.accessTo i .read) := accessTo_maintains hkept i fun _ h => nomatch h
  cases cs with
  | nil => exact hread.bind fun _ _ => .pure hcs
  | cons c rest =>
    unfold readVariable
    dsimp only
    split
    · exact hread.bind fun _ _ => .pure hcs.skipWhite
    · split
      · exact hread.bind fun _ _ => (valueOf_maintains _).bind fun _ _ => .pure hcs.tail.skipWhite
      · exact .throw _ _

include hterm

theorem callFunction_maintains (i : Identifier (Symbol ι)) {cs : List Char} (hcs : NoEquals cs) :
    Maintains P LinkNoEquals (ev.callFunction term i cs) := by
  unfold callFunction
  split
  · refine (argumentList_maintains hterm hcs.tail).bind fun (args, rest) hrest => ?_
    dsimp only
    split
    · exact .throw _ _
    · have hcall := accessTo_maintains hkept i (a := .call args) fun _ h => nomatch h
      refine hcall.bind fun result _ => ?_
      split
      · exact (valueOf_maintains _).bind fun _ _ => .pure hrest.tail.skipWhite
      · exact .pure hrest.skipWhite
  · exact .throw _ _

theorem link_maintains (i : Identifier (Symbol ι)) {cs : List Char} (hcs : NoEquals cs) :
    Maintains P LinkNoEquals (ev.link term i cs) := by
  unfold link
  split
  · exact readVariable_maintains hkept i hcs
  · exact readVariable_maintains hkept i hcs
  · exact callFunction_maintains hkept hterm i hcs
  · exact .throw _ _
  · exact .throw _ _

omit hkept hterm

theorem member_maintains (holder : Value) (owner : String) {cs : List Char} (hcs : NoEquals cs) :
    Maintains P (fun r => NoEquals r.2) (ev.member holder owner cs) := by
  unfold member
  split
  · exact .throw _ _
  · refine Maintains.bindState fun s _ => ?_
    split
    · exact .throw _ _
    · refine (liftExcept_maintains fun r hr => hcs.suffix (readName_suffix hr)).bind fun (name, rest) hrest => ?_
      refine Maintains.bindState fun s _ => ?_
      split
      · exact .throw _ _
      · exact .pure hrest

include hkept hterm

theorem chain_maintains (n : Nat) (temporary : Option Handle) (i : Identifier (Symbol ι)) {cs : List Char}
    (hcs : NoEquals cs) :
    Alike (.same P) (fun r => ∀ a, r.2 = .ok a → NoEquals a.rest) (ev.chain term n temporary i cs)
      (ev.chain term n temporary i cs) := by
  induction n generalizing temporary i cs with
  | zero => exact .pure fun _ h => nomatch h
  | succ n ih =>
    refine Alike.bind (link_maintains hkept hterm i hcs) fun r hr => ?_
    rcases r with e | atom | ⟨holder, made, rest⟩
    · exact .pure fun _ h => nomatch h
    · refine .pure ?_
      rintro _ ⟨⟩
      exact hr _ rfl
    · refine Alike.bind (member_maintains holder i.name (hr _ rfl)) fun r hr => ?_
      rcases r with e | ⟨j, rest⟩
      · exact .pure fun _ h => nomatch h
      · exact ih _ j (hr _ rfl)

theorem identifier_maintains {cs : List Char} (hcs : NoEquals cs) :
    Maintains P (fun a => NoEquals a.rest) (ev.identifier term cs) := by
  unfold identifier
  refine (liftExcept_maintains fun r hr => hcs.suffix (readName_suffix hr)).bind fun (name, rest) hrest => ?_
  refine Maintains.bindState fun s _ => ?_
  split
  · exact .throw _ _
  · refine (EvalAlike.lift (chain_maintains hkept hterm _ none _ hrest)).bind fun (temporary, outcome) ha => ?_
    have hout : Maintains P (fun a : Atom ι => NoEquals a.rest) (liftExcept outcome) := liftExcept_maintains ha
    -- the temporary object goes whether the chain has failed or not
    cases temporary with
    | none => exact hout
    | some h =>
      refine (EvalAlike.lift (Alike.same fun s hs => ?_)).bind fun _ _ => hout
      exact hkept.release h s.state hs

/-! ## Terms -/

omit hkept

theorem group_maintains (n : Nat) (acc : Value) : ReadsNoEquals P (group term n acc) := by
  induction n generalizing acc with
  | zero =>
    intro cs hcs
    exact .pure hcs
  | succ n ih =>
    intro cs hcs
    unfold group
    split
    · exact .pure hcs.tail.skipWhite
    · exact ((hterm cs hcs).tryCatch fun e => .throw _ _).bind fun _ hrest => ih _ _ hrest

include hkept

theorem atom_maintains {cs : List Char} (hcs : NoEquals cs) :
    Maintains P (fun a => NoEquals a.rest) (ev.atom term cs) := by
  cases cs with
  | nil => exact .throw _ _
  | cons c rest =>
    unfold atom
    dsimp only
    split
    · exact (group_maintains hterm _ _ _ hcs.tail).bind fun _ hrest => .pure hrest
    · split
      · have hrest := hcs.suffix (readNumber_suffix _)
        refine (operator_maintains hkept hterm none _ hrest).bind fun r hr => ?_
        cases r with
        | none => exact .pure hrest
        | some r => exact .pure (hr r rfl)
      · split
        · exact identifier_maintains hkept hterm hcs
        · split
          · have htext : Maintains P (fun r => NoEquals r.2) (liftExcept (readText (c :: rest))) :=
              liftExcept_maintains fun r hr => hcs.suffix (readText_suffix hr)
            exact htext.bind fun _ hrest => .pure hrest
          · exact .throw _ _

theorem operand_maintains {cs : List Char} (hcs : NoEquals cs) :
    Maintains P (fun a => NoEquals a.rest) (ev.operand term cs) := by
  unfold operand
  refine (atom_maintains hkept hterm (hcs.suffix (readSigns_suffix cs))).bind fun a ha => ?_
  split
  · exact .pure ha
  · exact (valueOf_maintains _).bind fun _ _ => .pure ha

theorem termWith_maintains : ReadsNoEquals P (ev.termWith term) := by
  intro cs hcs
  refine (operand_maintains hkept hterm hcs).bind fun a ha => ?_
  refine (operators_maintains hkept hterm _ _ _ ha).bind fun (result, rest) hrest => ?_
  exact (valueOf_maintains _).bind fun _ _ => .pure hrest

omit hterm

theorem termAt_maintains (n : Nat) : ReadsNoEquals P (ev.termAt n) := by
  induction n with
  | zero =>
    intro cs _
    exact .throw _ _
  | succ n ih => exact termWith_maintains hkept ih

/-! ## Expressions -/

omit hkept

include hterm in
theorem terms_maintains (n : Nat) (acc : Value) {cs : List Char} (hcs : NoEquals cs) :
    Maintains P (fun _ => True) (terms term n acc cs) := by
  induction n generalizing acc cs with
  | zero => exact .pure trivial
  | succ n ih =>
    unfold terms
    split
    · exact .pure trivial
    · refine (hterm _ hcs.skipWhite).bind fun (v, rest) hrest => ?_
      cases rest with
      | nil => exact .pure trivial
      | cons c rest =>
        dsimp only
        split
        · exact ih _ hrest
        · exact .throw _ _

include hkept in
theorem expression_maintains {cs : List Char} (hcs : NoEquals cs) : Maintains P (fun _ => True) (ev.expression cs) :=
  terms_maintains (termAt_maintains hkept _) _ _ hcs

end Evaluator

/-- What reading and calling keep of a state is kept by evaluating a text without an equals sign. -/
theorem Engine.calculate_maintains {κ ι σ : Type} {P : σ → Prop} (engine : Engine κ ι σ)
    (hkept : KeptUnwritten engine.scope P) (depth : Nat) {text : String} (htext : NoEquals text.toList)
    (s : Session σ) (hs : P s.state) : P (engine.calculate depth text s).2.state := by
  suffices halike : Alike (.same P) (fun _ => True) (engine.calculate depth text) (engine.calculate depth text) from
    (halike.total ⟨rfl, hs⟩ s.errors).2.1.2
  cases depth with
  | zero =>
    refine (Alike.modifyErrors fun e => e.report ⟨.compilerImplementationError, ""⟩).bind fun _ _ => ?_
    exact .pure trivial
  | succ depth =>
    refine (Alike.modifyErrors fun _ => .clear).bind fun _ _ => ?_
    refine Alike.bind (Evaluator.expression_maintains hkept htext) fun r _ => ?_
    cases r with
    | ok v => exact .pure trivial
    | error e => exact (Alike.modifyErrors fun x => x.report e).bind fun _ _ => .pure trivial

/-! ## Variables of a script -/

section Variables

variable {κ μ : Type} [NativeObject κ μ]

/-- Reading and calling the names of a script leaves its variables alone. -/
theorem ScriptState.scope_keptUnwritten (registry : Registry κ) (vars : List ScriptVariable) :
    KeptUnwritten (scope (μ := μ) registry) fun s => s.vars = vars where
  access {nested i a} s ha hs := by
    have hassign : assignment? s.state i a = none := by
      unfold assignment?
      split
      · exact absurd rfl (ha _)
      · rfl
    exact (access_vars registry hassign).1.trans hs
  release _ _ hs := hs
  setCells _ _ hs := hs

/-- A text has an equals sign where its bytes have one. -/
theorem noEquals_of_bytes {text : String} (h : 0x3D ∉ utf8 text) : NoEquals text.toList := by
  intro hequals
  obtain ⟨before, after, hsplit⟩ := List.append_of_mem hequals
  apply h
  rw [utf8_eq_bytes, hsplit, bytes_append, bytes_cons_ascii (by decide)]
  exact List.mem_append_right _ List.mem_cons_self

/-- Evaluating a text without the byte of an equals sign leaves the variables of a script as they are, whether it
succeeds or fails. -/
theorem Interpreter.calculate_noEquals (i : Interpreter κ) (text : String) (h : 0x3D ∉ utf8 text) :
    (i.calculate text).1.script.vars = i.script.vars := by
  have hkept := ScriptState.scope_keptUnwritten i.registry i.script.vars
  exact (ScriptState.engine i.registry).calculate_maintains hkept 1 (noEquals_of_bytes h) ⟨i.script, i.errors⟩ rfl

/-- An evaluation that multiplies a variable and calls a function before it fails. -/
theorem Interpreter.calculate_noEquals_failing :
    let i := ((new (Registry.empty : Registry Empty) true 0).compile "int a; string b;").1
    0x3D ∉ utf8 "a * 7 + print(b) + 1 / 0" ∧ (i.calculate "a * 7 + print(b) + 1 / 0").2.isNone ∧
      i.script.vars.map (·.name) = ["a", "b"] ∧
      (i.calculate "a * 7 + print(b) + 1 / 0").1.script.vars = i.script.vars := by
  intro i
  have htext : 0x3D ∉ utf8 "a * 7 + print(b) + 1 / 0" := by decide +kernel
  exact ⟨htext, by decide +kernel, by decide +kernel, i.calculate_noEquals _ htext⟩

end Variables

end HostScript
