import HostScript.Proofs.Parentheses
/-!
# Parameter counts

A function declares how many parameters it takes, and is called with no other number. A positive count is exact; any
other one is a least number, so that a function that declares none takes as many as there are. Once its arguments
have been evaluated, a call is one of two things: what the function does with them, or an error. Wherever in an
expression such an error comes up, the expression fails with it. And since functions are called nowhere else, it does
not matter what they would do with a number of arguments that they do not take.
-/

set_option autoImplicit false

namespace HostScript

open HostScript.Text HostScript.Token

variable {κ ι σ α β : Type}

/-! ## Counts -/

/-- A function that declares so many parameters takes that number of arguments. -/
def AcceptsCount (params : Int) (count : Nat) : Prop := if 0 < params then (count : Int) = params else -params ≤ count

instance (params : Int) (count : Nat) : Decidable (AcceptsCount params count) :=
  inferInstanceAs (Decidable (if 0 < params then (count : Int) = params else -params ≤ count))

/-- What is wrong with a number of arguments that is not taken. -/
def refusal (params : Int) (count : Nat) : ErrorKind :=
  if 0 < params ∧ params < count then .tooManyParameters else .tooFewParameters

theorem checkParams_accepted {params : Int} {count : Nat} (h : params = unlimited ∨ AcceptsCount params count) :
    checkParams params count = .ok () := by
  unfold checkParams
  split
  · rfl
  · rename_i hlimited
    have hcount := h.resolve_left hlimited
    unfold AcceptsCount at hcount
    rw [if_neg (by split at hcount <;> omega), if_neg (by split at hcount <;> omega)]

theorem checkParams_refused {params : Int} {count : Nat} (hlimited : params ≠ unlimited)
    (h : ¬AcceptsCount params count) : checkParams params count = .error (refusal params count) := by
  unfold AcceptsCount at h
  unfold checkParams refusal
  rw [if_neg hlimited]
  by_cases hmany : 0 < params ∧ params < count
  · rw [if_pos hmany, if_pos (by omega)]
  · rw [if_neg hmany, if_neg (by omega), if_pos (by split at h <;> omega)]

theorem checkParams_ok_iff {params : Int} {count : Nat} :
    checkParams params count = .ok () ↔ params = unlimited ∨ AcceptsCount params count := by
  refine ⟨fun h => ?_, checkParams_accepted⟩
  by_contra hrefused
  rw [not_or] at hrefused
  rw [checkParams_refused hrefused.1 hrefused.2] at h
  cases h

/-! ## Calls -/

namespace Evaluator

variable (ev : Evaluator κ ι σ) (term : TermReader σ)

/-- A call whose arguments have been evaluated. -/
theorem link_call {i : Identifier (Symbol ι)} (hi : i.kind = .function) {cs rest : List Char} {args : List Value}
    {s t : Session σ} (hargs : (argumentList term cs).run.run s = (.ok (args, rest), t)) :
    (ev.link term i ('(' :: cs)).run.run s =
      match checkParams i.params args.length with
      | .ok () => (ev.accessTo i (.call args) >>= ev.returned rest).run.run t
      | .error kind => (.error ⟨kind, i.name⟩, t) := by
  unfold link
  rw [hi]
  dsimp only
  rw [callFunction_cons, run_bind_ok hargs]
  dsimp only
  cases checkParams i.params args.length with
  | ok u => rfl
  | error kind => rfl

end Evaluator

/-! ## Evaluations in the course of others -/

/-- Where a chain has got to: the identifier, what stands behind it, and the object that was made last on the way. -/
structure ChainPlace (ι σ : Type) where
  identifier : Identifier (Symbol ι)
  rest : List Char
  temporary : Option Handle
  session : Session σ

/-- A chain leads from one place to another one, by members of objects. -/
inductive ChainLeads (ev : Evaluator κ ι σ) (term : TermReader σ) : ChainPlace ι σ → ChainPlace ι σ → Prop
  | here (p : ChainPlace ι σ) : ChainLeads ev term p p
  | member {p q : ChainPlace ι σ} {holder : Value} {made : Option Handle} {rest rest' : List Char} {t u : Session σ}
      {j : Identifier (Symbol ι)} :
      (ev.link term p.identifier p.rest).run.run p.session = (.ok (.dot holder made rest), t) →
      (ev.member holder p.identifier.name rest).run.run t = (.ok (j, rest'), u) →
      ChainLeads ev term ⟨j, rest', made <|> p.temporary, u⟩ q → ChainLeads ev term p q

/-- In the course of an evaluation from a session another one is run, from the session given. -/
inductive Runs (ev : Evaluator κ ι σ) (inner : Eval σ β) (s : Session σ) : {α : Type} → Eval σ α → Session σ → Prop
  | here : Runs ev inner s inner s
  /-- It is run in what is done first. -/
  | first {α α' : Type} {m : Eval σ α} {f : α → Eval σ α'} {t : Session σ} :
      Runs ev inner s m t → Runs ev inner s (m >>= f) t
  /-- It is run in what is done then. -/
  | later {α α' : Type} {m : Eval σ α} {f : α → Eval σ α'} {a : α} {t u : Session σ} :
      m.run.run t = (.ok a, u) → Runs ev inner s (f a) u → Runs ev inner s (m >>= f) t
  /-- It is run inside of a group. -/
  | group {α : Type} {m : Eval σ α} {t : Session σ} :
      Runs ev inner s m t → Runs ev inner s (tryCatch m fun e => throw (Evaluator.unclosed e)) t
  /-- It is run at some link of a chain. -/
  | link {n : Nat} {cs rest : List Char} {name : String} {i : Identifier (Symbol ι)} {q : ChainPlace ι σ}
      {t : Session σ} :
      readName cs = .ok (name, rest) → ev.toEngine.find? t.state name = some i →
      ChainLeads ev (ev.termAt n) ⟨i, rest, none, t⟩ q →
      Runs ev inner s (ev.link (ev.termAt n) q.identifier q.rest) q.session →
      Runs ev inner s (ev.identifier (ev.termAt n) cs) t

namespace Evaluator

variable {ev : Evaluator κ ι σ}

/-- Following a chain comes to every place that the chain leads to, with rounds left for the links that follow. -/
theorem chain_leads {n : Nat} {p q : ChainPlace ι σ} (h : ChainLeads ev (ev.termAt n) p q) {k : Nat}
    (hk : p.rest.length < k) :
    ∃ l, q.rest.length < l ∧ ev.chain (ev.termAt n) k p.temporary p.identifier p.rest p.session =
      ev.chain (ev.termAt n) l q.temporary q.identifier q.rest q.session := by
  induction h generalizing k with
  | here p => exact ⟨k, hk, rfl⟩
  | @member p q holder made rest rest' t u j hlink hmember _ ih =>
    obtain ⟨k, rfl⟩ := Nat.exists_eq_add_of_le' (Nat.lt_of_le_of_lt (Nat.zero_le _) hk)
    -- a term takes something of the text, and so does a link, so that the rounds last
    have hterm := termAt_succeeds ev [] (Nat.le_refl n)
    obtain ⟨-, -, -, hshorter⟩ := link_succeeds ev hterm p.identifier p.rest p.session _ t hlink
    obtain ⟨-, -, -, hshorter'⟩ := member_succeeds ev [] holder p.identifier.name rest t _ u hmember
    dsimp only [Link.rest] at hshorter hshorter'
    obtain ⟨l, hl, hchain⟩ := ih (k := k) (by dsimp only; omega)
    refine ⟨l, hl, ?_⟩
    rw [chain_succ, hlink]
    dsimp only
    rw [hmember]
    exact hchain

/-- What the chain comes to, once the object that was made for it is let go. -/
theorem identifier_of_chain {term : TermReader σ} {cs rest : List Char} {name : String} {i : Identifier (Symbol ι)}
    {temporary : Option Handle} {outcome : Except ScriptError (Atom ι)} {t u : Session σ}
    (hname : readName cs = .ok (name, rest)) (hfind : ev.toEngine.find? t.state name = some i)
    (hchain : ev.chain term (rest.length + 1) none i rest t = ((temporary, outcome), u)) :
    (ev.identifier term cs).run.run t =
      (outcome, temporary.elim u fun h => { u with state := ev.scope.release h u.state }) := by
  have hread : (liftExcept (readName cs) : Eval σ _).run.run t = (.ok (name, rest), t) := by
    rw [hname]
    rfl
  have hstate : (getState : Eval σ σ).run.run t = (.ok t.state, t) := rfl
  unfold identifier
  rw [run_bind_ok hread]
  dsimp only
  rw [run_bind_ok hstate, hfind]
  refine (run_bind_ok (t := u) (a := (temporary, outcome)) ?_ _).trans ?_
  · exact congrArg (fun r => (Except.ok r.1, r.2)) hchain
  · cases temporary with
    | none => cases outcome <;> rfl
    | some h => cases outcome <;> rfl

end Evaluator

/-- An evaluation fails with the error that comes up in its course, unless that tells of the end of the text. -/
theorem Runs.fails {ev : Evaluator κ ι σ} {inner : Eval σ β} {s s' : Session σ} {m : Eval σ α} {t : Session σ}
    (h : Runs ev inner s m t) {e : ScriptError} (hinner : inner.run.run s = (.error e, s'))
    (he : e.kind ≠ .unexpectedEnd) : ∃ t', m.run.run t = (.error e, t') ∧ t'.errors = s'.errors := by
  induction h with
  | here => exact ⟨s', hinner, rfl⟩
  | first _ ih =>
    obtain ⟨t', hfails, herrors⟩ := ih
    exact ⟨t', run_bind_error hfails _, herrors⟩
  | later hm _ ih =>
    obtain ⟨t', hfails, herrors⟩ := ih
    exact ⟨t', (run_bind_ok hm _).trans hfails, herrors⟩
  | group _ ih =>
    obtain ⟨t', hfails, herrors⟩ := ih
    refine ⟨t', ?_, herrors⟩
    have hunclosed : Evaluator.unclosed e = e := if_neg he
    rw [ExceptT.run_tryCatch, StateT.run_bind, hfails]
    change (throw (Evaluator.unclosed e) : Eval σ _).run.run t' = _
    rw [hunclosed]
    rfl
  | @link n cs rest name i q t hname hfind hleads _ ih =>
    obtain ⟨t', hfails, herrors⟩ := ih
    obtain ⟨l, hl, hchain⟩ := Evaluator.chain_leads hleads (Nat.lt_succ_self _)
    obtain ⟨l, rfl⟩ := Nat.exists_eq_add_of_le' (Nat.lt_of_le_of_lt (Nat.zero_le _) hl)
    have hstops : ev.chain (ev.termAt n) (l + 1) q.temporary q.identifier q.rest q.session =
        ((q.temporary, .error e), t') := by
      rw [Evaluator.chain_succ, hfails]
    rw [hstops] at hchain
    refine ⟨_, Evaluator.identifier_of_chain hname hfind hchain, ?_⟩
    cases q.temporary <;> exact herrors

/-! ## Bodies that are not consulted -/

/-- An identifier that some lookup gives, of a name or of a member of an object. -/
def Engine.Known (engine : Engine κ ι σ) (i : Identifier (Symbol ι)) : Prop :=
  (∃ state name, engine.find? state name = some i) ∨
    ∃ state h name j, engine.scope.member? state h name = some j ∧ i = j.map .scoped

/-- The same lookups, with other functions of the application and another way to access what the scope finds. -/
def Engine.withBodies (engine : Engine κ ι σ) (registry : Registry κ)
    (access : Evaluation σ → ι → Access → Action σ (Answer Operand)) : Engine κ ι σ :=
  ⟨registry, { engine.scope with access }⟩

/-- The other engine finds the same and does the same, but for calls with a number of arguments that is not taken. -/
structure Engine.SameWithinCounts (engine other : Engine κ ι σ) : Prop where
  find (state : σ) (name : String) : other.find? state name = engine.find? state name
  read (nested : Evaluation σ) (id : Symbol ι) : other.dispatch nested id .read = engine.dispatch nested id .read
  write (nested : Evaluation σ) (id : Symbol ι) (v : Value) :
    other.dispatch nested id (.write v) = engine.dispatch nested id (.write v)
  call (nested : Evaluation σ) {i : Identifier (Symbol ι)} {args : List Value} :
    engine.Known i → i.params = unlimited ∨ AcceptsCount i.params args.length →
      other.dispatch nested i.id (.call args) = engine.dispatch nested i.id (.call args)

/-- The evaluator of the engine with other bodies. -/
def Evaluator.withBodies (ev : Evaluator κ ι σ) (registry : Registry κ)
    (access : Evaluation σ → ι → Access → Action σ (Answer Operand)) : Evaluator κ ι σ :=
  { ev.toEngine.withBodies registry access with nested := ev.nested }

namespace Evaluator

variable {ev : Evaluator κ ι σ} {registry : Registry κ}
  {access : Evaluation σ → ι → Access → Action σ (Answer Operand)} (term : TermReader σ)

theorem accessTo_within {i : Identifier (Symbol ι)} {a : Access}
    (h : (ev.toEngine.withBodies registry access).dispatch ev.nested i.id a = ev.toEngine.dispatch ev.nested i.id a) :
    (ev.withBodies registry access).accessTo i a = ev.accessTo i a := by
  change (ev.toEngine.withBodies registry access).access ev.nested i a = ev.toEngine.access ev.nested i a
  unfold Engine.access
  rw [h]

variable (hsame : ev.toEngine.SameWithinCounts (ev.toEngine.withBodies registry access))

include hsame

/-! ### Operators -/

theorem operate_within (op : Written) (target : Option (Identifier (Symbol ι))) (a : Operand) (b : Value)
    (rest : List Char) :
    (ev.withBodies registry access).operate op target a b rest = ev.operate op target a b rest := by
  have hwrite : ∀ i b, (ev.withBodies registry access).accessTo i (.write b) = ev.accessTo i (.write b) :=
    fun i b => accessTo_within (hsame.write ev.nested i.id b)
  unfold operate
  simp only [hwrite]
  rfl

theorem operator_within (target : Option (Identifier (Symbol ι))) (a : Operand) (cs : List Char) :
    (ev.withBodies registry access).operator? term target a cs = ev.operator? term target a cs := by
  unfold operator?
  simp only [operate_within hsame]

theorem operators_within (n : Nat) (target : Option (Identifier (Symbol ι))) (a : Operand) (cs : List Char) :
    (ev.withBodies registry access).operators term n target a cs = ev.operators term n target a cs := by
  induction n generalizing target a cs with
  | zero => rfl
  | succ n ih =>
    unfold operators
    simp only [operator_within term hsame, ih]

/-! ### Chains -/

theorem readVariable_within (i : Identifier (Symbol ι)) (cs : List Char) :
    (ev.withBodies registry access).readVariable i cs = ev.readVariable i cs := by
  have hread : (ev.withBodies registry access).accessTo i .read = ev.accessTo i .read :=
    accessTo_within (hsame.read ev.nested i.id)
  unfold readVariable
  simp only [hread]
  rfl

/-- A call that is not refused is the same. -/
theorem callFunction_within {i : Identifier (Symbol ι)} (hi : ev.toEngine.Known i) (cs : List Char) :
    (ev.withBodies registry access).callFunction term i cs = ev.callFunction term i cs := by
  unfold callFunction
  split
  · refine bind_congr fun r => ?_
    dsimp only
    cases hcheck : checkParams i.params r.1.length with
    | error kind => rfl
    | ok u =>
      -- only a call that passes the check comes to the body, and those are the same
      have haccess : (ev.withBodies registry access).accessTo i (.call r.1) = ev.accessTo i (.call r.1) :=
        accessTo_within (hsame.call ev.nested hi (checkParams_ok_iff.mp hcheck))
      dsimp only
      rw [haccess]
      rfl
  · rfl

theorem link_within {i : Identifier (Symbol ι)} (hi : ev.toEngine.Known i) (cs : List Char) :
    (ev.withBodies registry access).link term i cs = ev.link term i cs := by
  unfold link
  rw [readVariable_within hsame, callFunction_within term hsame hi]

omit hsame in
/-- Looking up a member has no body. -/
theorem member_within (holder : Value) (owner : String) (cs : List Char) :
    (ev.withBodies registry access).member holder owner cs = ev.member holder owner cs := rfl

omit hsame in
/-- A member that is found is known. -/
theorem member_known {holder : Value} {owner : String} {cs rest : List Char} {j : Identifier (Symbol ι)}
    {s t : Session σ} (h : (ev.member holder owner cs).run.run s = (.ok (j, rest), t)) : ev.toEngine.Known j := by
  unfold member at h
  split at h
  · cases h
  · rename_i handle _
    obtain ⟨state, u, -, h⟩ := exists_of_run_bind h
    split at h
    · cases h
    · obtain ⟨⟨name, more⟩, u, -, h⟩ := exists_of_run_bind h
      obtain ⟨state, u, -, h⟩ := exists_of_run_bind h
      split at h
      · cases h
      · rename_i found hfound
        cases h
        exact .inr ⟨state, handle, name, found, hfound, rfl⟩

theorem chain_within {n : Nat} {temporary : Option Handle} {i : Identifier (Symbol ι)} (hi : ev.toEngine.Known i)
    (cs : List Char) (s : Session σ) :
    (ev.withBodies registry access).chain term n temporary i cs s = ev.chain term n temporary i cs s := by
  induction n generalizing temporary i cs s with
  | zero => rfl
  | succ n ih =>
    rw [chain_succ, chain_succ, link_within term hsame hi]
    rcases (ev.link term i cs).run.run s with ⟨e | atom | ⟨holder, made, rest⟩, t⟩
    · rfl
    · rfl
    · dsimp only
      rw [member_within]
      rcases hmember : (ev.member holder i.name rest).run.run t with ⟨e | ⟨j, rest⟩, u⟩
      · rfl
      · exact ih (member_known hmember) rest u

theorem identifier_within (cs : List Char) :
    (ev.withBodies registry access).identifier term cs = ev.identifier term cs := by
  have hfind : ∀ state name, (ev.withBodies registry access).toEngine.find? state name =
      ev.toEngine.find? state name := hsame.find
  unfold identifier
  refine bind_congr fun r => bind_congr fun state => ?_
  dsimp only
  rw [hfind]
  cases hi : ev.toEngine.find? state r.1 with
  | none => rfl
  | some i =>
    have hchain : (ev.withBodies registry access).chain term (r.2.length + 1) none i r.2 =
        ev.chain term (r.2.length + 1) none i r.2 :=
      funext (chain_within term hsame (.inl ⟨state, r.1, hi⟩) r.2)
    dsimp only
    rw [hchain]
    rfl

/-! ### Terms -/

theorem atom_within (cs : List Char) : (ev.withBodies registry access).atom term cs = ev.atom term cs := by
  unfold atom
  simp only [operator_within term hsame, identifier_within term hsame]

theorem termWith_within : (ev.withBodies registry access).termWith term = ev.termWith term := by
  funext cs
  unfold termWith operand
  simp only [operators_within term hsame, atom_within term hsame]
  rfl

theorem termAt_within (n : Nat) : (ev.withBodies registry access).termAt n = ev.termAt n := by
  induction n with
  | zero => rfl
  | succ n ih =>
    unfold termAt
    rw [ih, termWith_within _ hsame]

end Evaluator

/-- Whatever functions would do with numbers of arguments that they do not take, every text evaluates the same. -/
theorem Engine.calculate_withBodies {engine : Engine κ ι σ} {registry : Registry κ}
    {access : Evaluation σ → ι → Access → Action σ (Answer Operand)}
    (hsame : engine.SameWithinCounts (engine.withBodies registry access)) (depth : Nat) :
    (engine.withBodies registry access).calculate depth = engine.calculate depth := by
  induction depth with
  | zero => rfl
  | succ depth ih =>
    unfold calculate
    rw [ih]
    have hexpression : ∀ cs, ({ engine.withBodies registry access with nested := engine.calculate depth } :
        Evaluator κ ι σ).expression cs =
          ({ engine with nested := engine.calculate depth } : Evaluator κ ι σ).expression cs := by
      intro cs
      have hterm : ((engine.evaluator depth).withBodies registry access).termAt (cs.length + 1) =
          (engine.evaluator depth).termAt (cs.length + 1) := Evaluator.termAt_within hsame _
      unfold Evaluator.expression
      exact congrArg (fun term => Evaluator.terms term _ _ _) hterm
    simp only [hexpression]

/-! ## Functions of the application -/

/-- The same functions, by their names and by what they take, that do something else. -/
def Registry.withCalls (registry : Registry κ) (call : NativeFunction → List Value → Except ErrorKind Value) :
    Registry κ :=
  { registry with functions := registry.functions.map fun f => { f with call := call f } }

theorem Registry.find_withCalls (registry : Registry κ)
    (call : NativeFunction → List Value → Except ErrorKind Value) (name : String) :
    (registry.withCalls call).find? name = registry.find? name := by
  unfold find? withCalls
  simp only [List.findIdx?_map, Function.comp_def, List.getElem?_map, Option.bind_eq_bind]
  refine Option.bind_congr fun index _ => ?_
  cases registry.functions[index]? <;> rfl

/-- What a registry finds is one of its functions. -/
theorem Registry.of_find {registry : Registry κ} {name : String} {i : Identifier Nat}
    (h : registry.find? name = some i) : ∃ f, registry.functions[i.id]? = some f ∧ i.params = f.params := by
  obtain ⟨index, -, h⟩ := Option.bind_eq_some_iff.mp h
  obtain ⟨f, hf, h⟩ := Option.bind_eq_some_iff.mp h
  cases h
  exact ⟨f, hf, rfl⟩

theorem Engine.known_registered {engine : Engine κ ι σ} {i : Identifier (Symbol ι)} (hi : engine.Known i) {index : Nat}
    (hid : i.id = .registered index) : ∃ f, engine.registry.functions[index]? = some f ∧ i.params = f.params := by
  obtain ⟨state, name, hfind⟩ | ⟨_, _, _, j, -, rfl⟩ := hi
  · unfold Engine.find? at hfind
    rcases (Option.orElse_eq_some _ _ _).mp hfind with h | ⟨-, h⟩
    · obtain ⟨j, -, rfl⟩ := Option.map_eq_some_iff.mp h
      cases hid
    · rcases (Option.orElse_eq_some _ _ _).mp h with h | ⟨-, h⟩
      · obtain ⟨j, -, rfl⟩ := Option.map_eq_some_iff.mp h
        cases hid
      · obtain ⟨j, hj, rfl⟩ := Option.map_eq_some_iff.mp h
        cases hid
        exact Registry.of_find hj
  · cases hid

/-- Functions of the application that do the same with as many arguments as they take. -/
theorem Engine.sameWithinCounts_withCalls (engine : Engine κ ι σ)
    {call : NativeFunction → List Value → Except ErrorKind Value}
    (h : ∀ f args, f.params = unlimited ∨ AcceptsCount f.params args.length → call f args = f.call args) :
    engine.SameWithinCounts (engine.withBodies (engine.registry.withCalls call) engine.scope.access) where
  find state name := by
    unfold Engine.find? withBodies
    rw [Registry.find_withCalls]
  read nested id := by cases id <;> rfl
  write nested id v := by cases id <;> rfl
  call nested {i args} hknown hcount := by
    rcases hid : i.id with b | index | j
    · rfl
    · obtain ⟨f, hf, hparams⟩ := known_registered hknown hid
      have hcall := h f args (hparams ▸ hcount)
      simp [dispatch, withBodies, Registry.withCalls, Registry.call, hf, hcall]
    · rfl

/-! ## Where calls come up -/

namespace Runs

variable {ev : Evaluator κ ι σ} {inner : Eval σ β} {s t : Session σ} {cs : List Char} {n : Nat}

theorem expression (hblank : skipWhite cs ≠ []) (h : Runs ev inner s (ev.termAt (cs.length + 1) cs) t) :
    Runs ev inner s (ev.expression cs) t := by
  rw [← Evaluator.termAt_skipWhite] at h
  unfold Evaluator.expression Evaluator.terms
  split
  · contradiction
  · exact h.first

/-- What is run for a name is run for the term that starts with it, be there signs in front or not. -/
theorem term {signs : List Sign} {c : Char} {rest : List Char} (hsigns : readSigns cs = (signs, c :: rest))
    (hc : isNameStart c = true) (h : Runs ev inner s (ev.identifier (ev.termAt n) (c :: rest)) t) :
    Runs ev inner s (ev.termAt (n + 1) cs) t := by
  have hdigit := isDigit_of_start hc
  have hgroup : (c == '(') = false := by
    rw [beq_eq_false_iff_ne]
    rintro rfl
    cases hc
  have hatom : ev.atom (ev.termAt n) (c :: rest) = ev.identifier (ev.termAt n) (c :: rest) := by
    simp [Evaluator.atom, hgroup, hdigit, hc]
  have hoperand : Runs ev inner s (ev.operand (ev.termAt n) cs) t := by
    unfold Evaluator.operand
    rw [hsigns]
    dsimp only
    rw [hatom]
    exact h.first
  exact hoperand.first

end Runs

/-! ## Calls in expressions -/

/-- A call of an identifier behind whose opening parenthesis the text is left. -/
def Evaluator.call (ev : Evaluator κ ι σ) (n : Nat) (i : Identifier (Symbol ι)) (cs : List Char) : Eval σ (Link ι) :=
  ev.link (ev.termAt n) i ('(' :: cs)

theorem refusal_ne_unexpectedEnd (params : Int) (count : Nat) : refusal params count ≠ .unexpectedEnd := by
  unfold refusal
  split <;> exact nofun

/-- A call of a function that declares how many parameters it takes, in whatever way it was found: once its arguments
have been evaluated, the function is called with them if it takes that number. If it does not, every evaluation in
whose course the call comes up fails with too many or too few parameters. And functions are called in no other way:
what they would do with numbers of arguments that they do not take makes no difference to any evaluation. -/
theorem Engine.calls_gated (engine : Engine κ ι σ) (depth : Nat) :
    let ev := engine.evaluator depth
    (∀ (n : Nat) (i : Identifier (Symbol ι)) (cs rest : List Char) (args : List Value) (s t : Session σ),
      i.kind = .function → i.params ≠ unlimited →
      (Evaluator.argumentList (ev.termAt n) cs).run.run s = (.ok (args, rest), t) →
      (AcceptsCount i.params args.length →
        (ev.call n i cs).run.run s = (ev.accessTo i (.call args) >>= ev.returned rest).run.run t) ∧
      (¬AcceptsCount i.params args.length →
        (ev.call n i cs).run.run s = (.error ⟨refusal i.params args.length, i.name⟩, t) ∧
        ∀ (text : String) (start : Session σ),
          Runs ev (ev.call n i cs) s (ev.expression text.toList) ⟨start.state, .clear⟩ →
          (engine.calculate (depth + 1) text start).1 = none ∧ (engine.calculate (depth + 1) text start).2.errors =
            t.errors.report ⟨refusal i.params args.length, i.name⟩)) ∧
    ∀ registry access, engine.SameWithinCounts (engine.withBodies registry access) →
      (engine.withBodies registry access).calculate depth = engine.calculate depth := by
  intro ev
  refine ⟨?_, fun registry access hsame => engine.calculate_withBodies hsame depth⟩
  intro n i cs rest args s t hi hlimited hargs
  have hcall := ev.link_call (ev.termAt n) hi hargs
  constructor
  · intro haccepted
    rw [checkParams_accepted (.inr haccepted)] at hcall
    exact hcall
  · intro hrefused
    rw [checkParams_refused hlimited hrefused] at hcall
    refine ⟨hcall, ?_⟩
    intro text start hruns
    obtain ⟨u, hfails, herrors⟩ := hruns.fails hcall (refusal_ne_unexpectedEnd _ _)
    rw [engine.calculate_of_expression hfails, ← herrors]
    exact ⟨rfl, rfl⟩

/-- A function that declares no parameters is called with one. -/
theorem Engine.call_beyond_none :
    let engine : Engine Empty Empty Unit := ⟨⟨[⟨"now", 0, fun args => .ok (.int (.ofNat args.length))⟩], []⟩, .none⟩
    engine.find? () "now" = some ⟨.function, "now", 0, .registered 0⟩ ∧
      engine.calculate 1 "now(8)" ⟨(), .clear⟩ = (some (.int 1), ⟨(), .clear⟩) :=
  ⟨rfl, rfl⟩

/-- A function of one parameter is called with one argument, and not with none, behind a sign. It may as well fail when
it is called with any other number. -/
theorem Engine.twice_gated :
    let twice : NativeFunction := ⟨"twice", 1, fun args => .ok ((args.headD .undefined).mul (.int 2))⟩
    let engine : Engine Empty Empty Unit := ⟨⟨[twice], []⟩, .none⟩
    let ev := engine.evaluator 0
    let i : Identifier (Symbol Empty) := ⟨.function, "twice", 1, .registered 0⟩
    let s : Session Unit := ⟨(), .clear⟩
    (ev.call 1 i "7)".toList).run.run s = (ev.accessTo i (.call [.int 7]) >>= ev.returned []).run.run s ∧
      engine.calculate 1 "- twice()" s = (none, ⟨(), ⟨.tooFewParameters, "twice"⟩⟩) ∧
      (engine.withBodies (engine.registry.withCalls fun f args =>
        if f.params = unlimited ∨ AcceptsCount f.params args.length then f.call args else .error .functionError)
        engine.scope.access).calculate 1 = engine.calculate 1 := by
  intro twice engine ev i s
  have hsigns : readSigns "- twice()".toList = ([.minus], "twice()".toList) := rfl
  have hname : readName "twice()".toList = .ok ("twice", "()".toList) := rfl
  have hfind : engine.find? () "twice" = some i := rfl
  have hruns : Runs ev (ev.call 9 i ")".toList) s (ev.expression "- twice()".toList) s := by
    refine .expression (by decide) ?_
    rw [show "- twice()".toList.length + 1 = 10 by decide]
    exact .term hsigns (by decide) (.link (q := ⟨i, "()".toList, none, s⟩) hname hfind (.here _) .here)
  obtain ⟨hcalls, -⟩ := engine.calls_gated 0
  obtain ⟨-, hbodies⟩ := engine.calls_gated 1
  have hone := hcalls 1 i "7)".toList [] [.int 7] s s rfl (by decide) rfl
  have hnone := hcalls 9 i ")".toList [] [] s s rfl (by decide) rfl
  obtain ⟨-, hfails⟩ := hnone.2 (by decide)
  obtain ⟨hrefused, herrors⟩ := hfails "- twice()" s hruns
  refine ⟨hone.1 (by decide), ?_, hbodies _ _ (engine.sameWithinCounts_withCalls ?_)⟩
  · exact Prod.ext hrefused (congrArg (Session.mk ()) herrors)
  · intro f args haccepted
    exact if_pos haccepted

end HostScript
