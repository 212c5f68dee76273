import HostScript.Expression.Evaluate
/-!
# Scopes that behave alike

The engine knows nothing of a scope but its functions. So when two scopes answer alike, on sessions that
are related, an expression evaluates alike in both: with the same result, and related sessions afterwards.
The first evaluation may part from the second one, by something that the scopes do not do alike; then nothing
is said of the results any more, but that it has parted. Identifiers are only accessed that a lookup gave
before, which is why a scope has to answer alike for those alone.
-/

set_option autoImplicit false

namespace HostScript

open HostScript.Token

/-! ## Actions on related sessions -/

/-- How the sessions of two evaluations compare. -/
structure Likeness (σ σ' : Type) where
  related : Session σ → Session σ' → Prop
  /-- The first evaluation has done something that the second one did not do. -/
  parted : Session σ → Prop

/-- The sessions that the first evaluation comes by. -/
def Likeness.Reaches {σ σ' : Type} (R : Likeness σ σ') (s : Session σ) : Prop := (∃ t, R.related s t) ∨ R.parted s

/-- Sessions with related states and the same error, where the state tells when they have parted. -/
def Likeness.ofStates {σ σ' : Type} (R : σ → σ' → Prop) (P : σ → Prop) : Likeness σ σ' where
  related s t := R s.state t.state ∧ s.errors = t.errors
  parted s := P s.state

/-- Sessions that never part. -/
abbrev Likeness.total {σ σ' : Type} (R : σ → σ' → Prop) : Likeness σ σ' := .ofStates R fun _ => False

section Alike

variable {σ σ' α β : Type} (R : Likeness σ σ')

/-- From related sessions both actions give the same result and related sessions, unless the first one
parts. The result is one of which `Q` holds, in any case. -/
structure Alike (Q : α → Prop) (m : Action σ α) (m' : Action σ' α) : Prop where
  related {s t} : R.related s t →
    Q (m s).1 ∧ (R.parted (m s).2 ∨ (m s).1 = (m' t).1 ∧ R.related (m s).2 (m' t).2)
  parted {s} : R.parted s → Q (m s).1 ∧ R.parted (m s).2

/-- The same for evaluations; `Q` holds of what they give when they succeed. -/
def EvalAlike (Q : α → Prop) (m : Eval σ α) (m' : Eval σ' α) : Prop :=
  Alike R (fun r => ∀ a, r = .ok a → Q a) m.run m'.run

variable {R}

theorem Alike.pure {Q : α → Prop} {a : α} (h : Q a) : Alike R Q (pure a) (pure a) :=
  ⟨fun hst => ⟨h, .inr ⟨rfl, hst⟩⟩, fun hs => ⟨h, hs⟩⟩

theorem Alike.bind {Q : α → Prop} {Q' : β → Prop} {m : Action σ α} {m' : Action σ' α} {f : α → Action σ β}
    {f' : α → Action σ' β} (hm : Alike R Q m m') (hf : ∀ a, Q a → Alike R Q' (f a) (f' a)) :
    Alike R Q' (m >>= f) (m' >>= f') where
  related {s t} hst := by
    obtain ⟨hq, hparted | ⟨he, hst⟩⟩ := hm.related hst
    · exact ((hf _ hq).parted hparted).imp_right .inl
    · have h := (hf _ hq).related hst
      change Q' (f (m s).1 (m s).2).1 ∧ (R.parted (f (m s).1 (m s).2).2 ∨
        (f (m s).1 (m s).2).1 = (f' (m' t).1 (m' t).2).1 ∧ R.related (f (m s).1 (m s).2).2 (f' (m' t).1 (m' t).2).2)
      rwa [← he]
  parted hs := (hf _ (hm.parted hs).1).parted (hm.parted hs).2

/-- Changing both sessions. -/
theorem Alike.change {f : Session σ → Session σ} {f' : Session σ' → Session σ'}
    (h : ∀ s t, R.related s t → R.related (f s) (f' t)) (hp : ∀ s, R.parted s → R.parted (f s)) :
    Alike R (fun _ => True) (modify f) (modify f') :=
  ⟨fun hst => ⟨trivial, .inr ⟨rfl, h _ _ hst⟩⟩, fun hs => ⟨trivial, hp _ hs⟩⟩

/-- Reporting an error in both sessions. -/
theorem Alike.modifyErrors {R : σ → σ' → Prop} {P : σ → Prop} (f : ErrorState → ErrorState) :
    Alike (.ofStates R P) (fun _ => True) (modify fun s => { s with errors := f s.errors })
      (modify fun s => { s with errors := f s.errors }) :=
  .change (fun _ _ h => ⟨h.1, congrArg f h.2⟩) fun _ h => h

theorem Alike.of_total {R : σ → σ' → Prop} {Q : α → Prop} {m : Action σ α} {m' : Action σ' α}
    (h : ∀ s t errors, R s t → (m ⟨s, errors⟩).1 = (m' ⟨t, errors⟩).1 ∧ Q (m ⟨s, errors⟩).1 ∧
      R (m ⟨s, errors⟩).2.state (m' ⟨t, errors⟩).2.state ∧ (m ⟨s, errors⟩).2.errors = (m' ⟨t, errors⟩).2.errors) :
    Alike (.total R) Q m m' := by
  refine ⟨?_, fun hs => hs.elim⟩
  rintro ⟨s, errors⟩ ⟨t, _⟩ ⟨hst, rfl⟩
  obtain ⟨he, hq, hr⟩ := h s t errors hst
  exact ⟨hq, .inr ⟨he, hr⟩⟩

/-- Where nothing parts, the results are the same. -/
theorem Alike.total {R : σ → σ' → Prop} {Q : α → Prop} {m : Action σ α} {m' : Action σ' α}
    (h : Alike (.total R) Q m m') {s : σ} {t : σ'} (hst : R s t) (errors : ErrorState) :
    (m ⟨s, errors⟩).1 = (m' ⟨t, errors⟩).1 ∧ R (m ⟨s, errors⟩).2.state (m' ⟨t, errors⟩).2.state ∧
      (m ⟨s, errors⟩).2.errors = (m' ⟨t, errors⟩).2.errors :=
  (h.related (s := ⟨s, errors⟩) (t := ⟨t, errors⟩) ⟨hst, rfl⟩).2.resolve_left id

theorem EvalAlike.pure {Q : α → Prop} {a : α} (h : Q a) : EvalAlike R Q (pure a) (pure a) :=
  Alike.pure fun _ ha => Except.ok.inj ha ▸ h

theorem EvalAlike.throw (Q : α → Prop) (e : ScriptError) : EvalAlike R Q (throw e) (throw e) :=
  Alike.pure fun _ ha => nomatch ha

theorem EvalAlike.bind {Q : α → Prop} {Q' : β → Prop} {m : Eval σ α} {m' : Eval σ' α} {f : α → Eval σ β}
    {f' : α → Eval σ' β} (hm : EvalAlike R Q m m') (hf : ∀ a, Q a → EvalAlike R Q' (f a) (f' a)) :
    EvalAlike R Q' (m >>= f) (m' >>= f') := by
  change Alike R _ (m.run >>= ExceptT.bindCont f) (m'.run >>= ExceptT.bindCont f')
  refine Alike.bind hm fun r hr => ?_
  cases r with
  | ok a => exact hf a (hr a rfl)
  | error e => exact .pure fun _ ha => nomatch ha

/-- An action that cannot fail. -/
theorem EvalAlike.lift {Q : α → Prop} {m : Action σ α} {m' : Action σ' α} (hm : Alike R Q m m') :
    EvalAlike R Q (m : Eval σ α) (m' : Eval σ' α) :=
  Alike.bind hm fun _ ha => .pure fun _ h => Except.ok.inj h ▸ ha

/-- Going on from the states: from all that are related to one, the second evaluation goes on the same way. -/
theorem EvalAlike.bindState {Q : α → Prop} {f : σ → Eval σ α} {f' : σ' → Eval σ' α}
    (h : ∀ s, R.Reaches s → ∃ m', (∀ t, R.related s t → f' t.state = m') ∧ EvalAlike R Q (f s.state) m') :
    EvalAlike R Q (Evaluator.getState >>= f) (Evaluator.getState >>= f') where
  related {s t} hst := by
    obtain ⟨m', hm', hf⟩ := h s (.inl ⟨t, hst⟩)
    have hr := hf.related hst
    rw [← hm' t hst] at hr
    exact hr
  parted {s} hs := by
    obtain ⟨m', -, hf⟩ := h s (.inr hs)
    exact hf.parted hs

theorem EvalAlike.tryCatch {Q : α → Prop} {m : Eval σ α} {m' : Eval σ' α} {f : ScriptError → Eval σ α}
    {f' : ScriptError → Eval σ' α} (hm : EvalAlike R Q m m') (hf : ∀ e, EvalAlike R Q (f e) (f' e)) :
    EvalAlike R Q (tryCatch m f) (tryCatch m' f') := by
  rw [EvalAlike, ExceptT.run_tryCatch, ExceptT.run_tryCatch]
  refine Alike.bind hm fun r hr => ?_
  cases r with
  | ok a => exact .pure hr
  | error e => exact hf e

end Alike

/-! ## Scopes and engines -/

/-- On related sessions both scopes find the same. -/
structure LookupsAlike {ι σ σ' : Type} (R : Likeness σ σ') (Found : ι → Prop) (S : Scope ι σ) (S' : Scope ι σ') :
    Prop where
  find {s t} (name : String) : R.related s t → S.find? s.state name = S'.find? t.state name
  found {s} {name : String} : R.Reaches s → ∀ i ∈ S.find? s.state name, Found i.id
  isObject {s t} (h : Handle) : R.related s t → S.isObject s.state h = S'.isObject t.state h
  member {s t} (h : Handle) (name : String) :
    R.related s t → S.member? s.state h name = S'.member? t.state h name
  memberFound {s} {h : Handle} {name : String} : R.Reaches s → ∀ i ∈ S.member? s.state h name, Found i.id
  release (h : Handle) : Alike R (fun _ => True) (modify fun s => { s with state := S.release h s.state })
    (modify fun s => { s with state := S'.release h s.state })
  cells {s t} : R.related s t → S.cells s.state = S'.cells t.state
  setCells (cells : Cells) : Alike R (fun _ => True) (modify fun s => { s with state := S.setCells cells s.state })
    (modify fun s => { s with state := S'.setCells cells s.state })

/-- Both scopes find the same, and accessing what was found is alike where evaluating texts is. -/
structure ScopesAlike {ι σ σ' : Type} (R : Likeness σ σ') (Found : ι → Prop) (S : Scope ι σ) (S' : Scope ι σ') :
    Prop extends LookupsAlike R Found S S' where
  access {nested nested'} {i} (a : Access) :
    (∀ text, Alike R (fun _ => True) (nested text) (nested' text)) → Found i →
      Alike R (fun _ => True) (S.access nested i a) (S'.access nested' i a)

/-- What the scopes have to answer alike: what the engine knows itself needs no scope. -/
def SymbolFound {ι : Type} (Found : ι → Prop) (i : Identifier (Symbol ι)) : Prop :=
  ∀ j, i.id = .scoped j → Found j

/-- Two evaluators over alike scopes, with the same registry. -/
structure EvaluatorsAlike {κ ι σ σ' : Type} (R : Likeness σ σ') (Found : ι → Prop) (ev : Evaluator κ ι σ)
    (ev' : Evaluator κ ι σ') : Prop where
  registry : ev.registry = ev'.registry
  scope : LookupsAlike R Found ev.scope ev'.scope
  access {i} (a : Access) :
    Found i → Alike R (fun _ => True) (ev.scope.access ev.nested i a) (ev'.scope.access ev'.nested i a)

/-- What the scope knows comes before all else. -/
theorem Engine.find_of_scope {κ ι σ : Type} {engine : Engine κ ι σ} {s : σ} {name : String} {i : Identifier ι}
    (hi : engine.scope.find? s name = some i) : engine.find? s name = some (i.map .scoped) := by
  rw [Engine.find?, hi]
  rfl

/-- An identifier of the scope is one that the scope found. -/
theorem Engine.find_scoped {κ ι σ : Type} {engine : Engine κ ι σ} {s : σ} {name : String}
    {i : Identifier (Symbol ι)} (hi : engine.find? s name = some i) {j : ι} (hj : i.id = .scoped j) :
    ∃ k, engine.scope.find? s name = some k ∧ k.id = j := by
  unfold Engine.find? at hi
  cases hs : engine.scope.find? s name with
  | some k =>
    obtain rfl : k.map .scoped = i := by simpa [hs] using hi
    exact ⟨k, rfl, Symbol.scoped.inj hj⟩
  | none =>
    cases hb : Builtin.find? name with
    | some b =>
      obtain rfl : b.map .builtin = i := by simpa [hs, hb] using hi
      cases hj
    | none =>
      obtain ⟨n, -, rfl⟩ : ∃ n, engine.registry.find? name = some n ∧ n.map .registered = i := by
        simpa [hs, hb] using hi
      cases hj

/-- Both engines find the same under a name. -/
theorem EvaluatorsAlike.find {κ ι σ σ' : Type} {R : Likeness σ σ'} {Found : ι → Prop} {ev : Evaluator κ ι σ}
    {ev' : Evaluator κ ι σ'} (hev : EvaluatorsAlike R Found ev ev') (name : String) {s : Session σ} {t : Session σ'}
    (hst : R.related s t) : ev.toEngine.find? s.state name = ev'.toEngine.find? t.state name := by
  rw [Engine.find?, Engine.find?, hev.scope.find name hst, hev.registry]

theorem EvaluatorsAlike.found {κ ι σ σ' : Type} {R : Likeness σ σ'} {Found : ι → Prop} {ev : Evaluator κ ι σ}
    {ev' : Evaluator κ ι σ'} (hev : EvaluatorsAlike R Found ev ev') {name : String} {s : Session σ}
    (hs : R.Reaches s) : ∀ i ∈ ev.toEngine.find? s.state name, SymbolFound Found i := by
  intro i hi j hj
  obtain ⟨k, hk, rfl⟩ := Engine.find_scoped hi hj
  exact hev.scope.found hs k hk

namespace Evaluator

variable {κ ι σ σ' : Type} {R : Likeness σ σ'} {Found : ι → Prop} {ev : Evaluator κ ι σ} {ev' : Evaluator κ ι σ'}
  (hev : EvaluatorsAlike R Found ev ev') {term : TermReader σ} {term' : TermReader σ'}

/-! ## Operands -/

theorem liftExcept_alike {α : Type} {Q : α → Prop} {r : Except ScriptError α} (h : ∀ a, r = .ok a → Q a) :
    EvalAlike R Q (liftExcept r : Eval σ α) (liftExcept r) := by
  cases r with
  | ok a => exact .pure (h a rfl)
  | error e => exact .throw Q e

include hev

theorem getCells_alike : EvalAlike R (fun _ => True) ev.getCells ev'.getCells :=
  ⟨fun h => ⟨fun _ _ => trivial, .inr ⟨congrArg Except.ok (hev.scope.cells h), h⟩⟩, fun h => ⟨fun _ _ => trivial, h⟩⟩

theorem putCells_alike (changed : Cells × Operand) :
    EvalAlike R (fun _ => True) (ev.putCells changed) (ev'.putCells changed) :=
  .bind (.lift (hev.scope.setCells changed.1)) fun _ _ => .pure trivial

theorem valueOf_alike (a : Operand) : EvalAlike R (fun _ => True) (ev.valueOf a) (ev'.valueOf a) :=
  (getCells_alike hev).bind fun _ _ => .pure trivial

theorem accessTo_alike {i : Identifier (Symbol ι)} (hi : SymbolFound Found i) (a : Access) :
    EvalAlike R (fun _ => True) (ev.accessTo i a) (ev'.accessTo i a) := by
  have hd : Alike R (fun _ => True) (ev.dispatch ev.nested i.id a) (ev'.dispatch ev'.nested i.id a) := by
    unfold Engine.dispatch
    rcases hid : i.id with b | index | j
    · cases a <;> exact .pure trivial
    · rw [hev.registry]
      cases a <;> exact .pure trivial
    · exact hev.access a (hi j hid)
  refine EvalAlike.bind (EvalAlike.lift hd) fun answer _ => ?_
  rcases answer with kind | _ | operand
  · exact .throw _ _
  · exact .throw _ _
  · exact .pure trivial

/-! ## Operators -/

theorem promote_alike (op : Written) (a : Operand) (b : Value) :
    EvalAlike R (fun _ => True) (ev.promote op a b) (ev'.promote op a b) := by
  refine (valueOf_alike hev a).bind fun v _ => ?_
  split
  · exact (getCells_alike hev).bind fun cells _ => (putCells_alike hev _).bind fun _ _ => .pure trivial
  · exact .pure trivial

/-- Assigning to a place. -/
theorem assign_alike (a : Operand) (v : Value) :
    EvalAlike R (fun _ => True) (do ev.putCells ((← ev.getCells).assign a (.value v)))
      (do ev'.putCells ((← ev'.getCells).assign a (.value v))) :=
  (getCells_alike hev).bind fun _ _ => putCells_alike hev _

theorem operate_alike (op : Written) {target : Option (Identifier (Symbol ι))}
    (ht : ∀ i ∈ target, SymbolFound Found i) (a : Operand) (b : Value) (rest : List Char) :
    EvalAlike R (fun _ => True) (ev.operate op target a b rest) (ev'.operate op target a b rest) := by
  refine (promote_alike hev op a b).bind fun (a, b) _ => (valueOf_alike hev a).bind fun x _ => ?_
  dsimp only
  split
  · exact .pure trivial
  · exact .pure trivial
  · exact .pure trivial
  · exact assign_alike hev a _
  · split
    · exact .throw _ _
    · exact assign_alike hev a _
  · split
    · exact .throw _ _
    · exact assign_alike hev a _
  · cases target with
    | none => exact .throw _ _
    | some i => exact (accessTo_alike hev (ht i rfl) _).bind fun _ _ => assign_alike hev a b
  · exact .throw _ _

/-- Readers of terms that read alike. -/
def ReadersAlike (R : Likeness σ σ') (term : TermReader σ) (term' : TermReader σ') : Prop :=
  ∀ cs, EvalAlike R (fun _ => True) (term cs) (term' cs)

omit hev

variable (hterm : ReadersAlike R term term')

include hterm

theorem sum_alike (n : Nat) (acc : Value) : ReadersAlike R (sum term n acc) (sum term' n acc) := by
  induction n generalizing acc with
  | zero => exact fun cs => .pure trivial
  | succ n ih =>
    refine fun cs => (hterm cs).bind fun (v, rest) _ => ?_
    dsimp only
    split
    · exact ih _ rest
    · exact .pure trivial

include hev

theorem operator_alike {target : Option (Identifier (Symbol ι))} (ht : ∀ i ∈ target, SymbolFound Found i)
    (a : Operand) (cs : List Char) :
    EvalAlike R (fun _ => True) (ev.operator? term target a cs) (ev'.operator? term' target a cs) := by
  unfold operator?
  split
  · exact .pure trivial
  · exact (sum_alike hterm _ _ _).bind fun _ _ => (operate_alike hev _ ht _ _ _).bind fun _ _ => .pure trivial

theorem operators_alike (n : Nat) {target : Option (Identifier (Symbol ι))} (ht : ∀ i ∈ target, SymbolFound Found i)
    (a : Operand) (cs : List Char) :
    EvalAlike R (fun _ => True) (ev.operators term n target a cs) (ev'.operators term' n target a cs) := by
  induction n generalizing target a cs with
  | zero => exact .pure trivial
  | succ n ih =>
    refine (operator_alike hev hterm ht a cs).bind fun r _ => ?_
    cases r with
    | none => exact .pure trivial
    | some r => exact ih (by simp) r.1 r.2

/-! ## Arguments -/

omit hev

theorem argument_alike (n : Nat) (acc : Value) : ReadersAlike R (argument term n acc) (argument term' n acc) := by
  induction n generalizing acc with
  | zero => exact fun cs => .pure trivial
  | succ n ih =>
    refine fun cs => (hterm cs).bind fun (v, rest) _ => ?_
    cases rest with
    | nil => exact .throw _ _
    | cons c rest =>
      dsimp only
      split
      · exact .pure trivial
      · exact ih _ _

theorem arguments_alike (n : Nat) (cs : List Char) :
    EvalAlike R (fun _ => True) (arguments term n cs) (arguments term' n cs) := by
  induction n generalizing cs with
  | zero => exact .pure trivial
  | succ n ih =>
    refine (argument_alike hterm _ _ cs).bind fun (v, rest) _ => ?_
    cases rest with
    | nil => exact .pure trivial
    | cons c rest =>
      dsimp only
      split
      · exact .pure trivial
      · exact (ih rest).bind fun _ _ => .pure trivial

theorem argumentList_alike (cs : List Char) :
    EvalAlike R (fun _ => True) (argumentList term cs) (argumentList term' cs) := by
  unfold argumentList
  split
  · exact .pure trivial
  · exact arguments_alike hterm _ _

/-! ## Chains -/

omit hterm

/-- An operand that was read knows its identifier from a lookup. -/
def AtomFound (Found : ι → Prop) (a : Atom ι) : Prop := ∀ i ∈ a.target, SymbolFound Found i

def LinkFound (Found : ι → Prop) (l : Link ι) : Prop := ∀ a, l = .last a → AtomFound Found a

include hev

theorem readVariable_alike {i : Identifier (Symbol ι)} (hi : SymbolFound Found i) (cs : List Char) :
    EvalAlike R (LinkFound Found) (ev.readVariable i cs) (ev'.readVariable i cs) := by
  have hlast : ∀ a rest, LinkFound Found (.last ⟨a, some i, rest⟩) := by
    rintro a rest _ ⟨⟩ j ⟨⟩
    exact hi
  cases cs with
  | nil => exact (accessTo_alike hev hi _).bind fun _ _ => .pure (hlast _ _)
  | cons c rest =>
    unfold readVariable
    dsimp only
    split
    · exact (accessTo_alike hev hi _).bind fun _ _ => .pure (hlast _ _)
    · split
      · exact (accessTo_alike hev hi _).bind fun _ _ => (valueOf_alike hev _).bind fun _ _ =>
          .pure fun _ h => nomatch h
      · exact .throw _ _

include hterm

theorem callFunction_alike {i : Identifier (Symbol ι)} (hi : SymbolFound Found i) (cs : List Char) :
    EvalAlike R (LinkFound Found) (ev.callFunction term i cs) (ev'.callFunction term' i cs) := by
  unfold callFunction
  split
  · refine (argumentList_alike hterm _).bind fun (args, rest) _ => ?_
    dsimp only
    split
    · exact .throw _ _
    · refine (accessTo_alike hev hi _).bind fun result _ => ?_
      split
      · exact (valueOf_alike hev _).bind fun _ _ => .pure fun _ h => nomatch h
      · refine .pure ?_
        rintro _ ⟨⟩ j ⟨⟩
  · exact .throw _ _

theorem link_alike {i : Identifier (Symbol ι)} (hi : SymbolFound Found i) (cs : List Char) :
    EvalAlike R (LinkFound Found) (ev.link term i cs) (ev'.link term' i cs) := by
  unfold link
  split
  · exact readVariable_alike hev hi cs
  · exact readVariable_alike hev hi cs
  · exact callFunction_alike hev hterm hi cs
  · exact .throw _ _
  · exact .throw _ _

omit hterm

theorem member_alike (holder : Value) (owner : String) (cs : List Char) :
    EvalAlike R (fun r => SymbolFound Found r.1) (ev.member holder owner cs) (ev'.member holder owner cs) := by
  unfold member
  split
  · exact .throw _ _
  · rename_i h _
    refine .bindState fun s hs => ⟨_, fun t hst => by rw [← hev.scope.isObject h hst], ?_⟩
    split
    · exact .throw _ _
    · refine (liftExcept_alike (fun _ _ => trivial)).bind fun (name, rest) _ => ?_
      refine .bindState fun s hs => ⟨_, fun t hst => by rw [← hev.scope.member h name hst], ?_⟩
      cases hi : ev.scope.member? s.state h name with
      | none => exact .throw _ _
      | some i =>
        refine .pure ?_
        rintro _ ⟨⟩
        exact hev.scope.memberFound hs i hi

include hterm

theorem chain_alike (n : Nat) (temporary : Option Handle) {i : Identifier (Symbol ι)} (hi : SymbolFound Found i)
    (cs : List Char) :
    Alike R (fun r => ∀ a, r.2 = .ok a → AtomFound Found a) (ev.chain term n temporary i cs)
      (ev'.chain term' n temporary i cs) := by
  induction n generalizing temporary i cs with
  | zero => exact .pure fun _ h => nomatch h
  | succ n ih =>
    refine Alike.bind (link_alike hev hterm hi cs) fun r hr => ?_
    rcases r with e | atom | ⟨holder, made, rest⟩
    · exact .pure fun _ h => nomatch h
    · exact .pure fun a h => hr _ rfl a (congrArg Link.last (Except.ok.inj h))
    · refine Alike.bind (member_alike hev holder i.name rest) fun r hr => ?_
      rcases r with e | ⟨j, rest⟩
      · exact .pure fun _ h => nomatch h
      · exact ih _ (hr _ rfl) rest

theorem identifier_alike (cs : List Char) :
    EvalAlike R (AtomFound Found) (ev.identifier term cs) (ev'.identifier term' cs) := by
  unfold identifier
  refine (liftExcept_alike (fun _ _ => trivial)).bind fun (name, rest) _ => ?_
  refine .bindState fun s hs => ⟨_, fun t hst => by rw [← hev.find name hst], ?_⟩
  cases hi : ev.toEngine.find? s.state name with
  | none => exact .throw _ _
  | some i =>
    refine (EvalAlike.lift (chain_alike hev hterm _ none (hev.found hs i hi) rest)).bind fun (temporary, outcome) ha => ?_
    have hout : EvalAlike R (AtomFound Found) (liftExcept outcome) (liftExcept outcome) := liftExcept_alike ha
    cases temporary with
    | none => exact hout
    | some h =>
      exact (EvalAlike.lift (hev.scope.release h)).bind fun _ _ => hout

/-! ## Terms -/

omit hev

theorem group_alike (n : Nat) (acc : Value) : ReadersAlike R (group term n acc) (group term' n acc) := by
  induction n generalizing acc with
  | zero => exact fun cs => .pure trivial
  | succ n ih =>
    intro cs
    unfold group
    split
    · exact .pure trivial
    · exact ((hterm _).tryCatch fun e => .throw _ _).bind fun _ _ => ih _ _

include hev

theorem atom_alike (cs : List Char) : EvalAlike R (AtomFound Found) (ev.atom term cs) (ev'.atom term' cs) := by
  have hnone : ∀ a rest, AtomFound Found ⟨a, none, rest⟩ := fun a rest i hi => by simp at hi
  unfold atom
  split
  · exact .throw _ _
  · split
    · exact (group_alike hterm _ _ _).bind fun _ _ => .pure (hnone _ _)
    · split
      · refine (operator_alike hev hterm (by simp) _ _).bind fun r _ => ?_
        cases r with
        | none => exact .pure (hnone _ _)
        | some r => exact .pure (hnone _ _)
      · split
        · exact identifier_alike hev hterm _
        · split
          · exact (liftExcept_alike (Q := fun _ => True) fun _ _ => trivial).bind fun _ _ => .pure (hnone _ _)
          · exact .throw _ _

theorem operand_alike (cs : List Char) :
    EvalAlike R (AtomFound Found) (ev.operand term cs) (ev'.operand term' cs) := by
  unfold operand
  refine (atom_alike hev hterm _).bind fun a ha => ?_
  split
  · exact .pure ha
  · exact (valueOf_alike hev _).bind fun _ _ => .pure fun i hi => by simp at hi

theorem termWith_alike : ReadersAlike R (ev.termWith term) (ev'.termWith term') :=
  fun cs => (operand_alike hev hterm cs).bind fun _ ha => (operators_alike hev hterm _ ha _ _).bind fun _ _ =>
    (valueOf_alike hev _).bind fun _ _ => .pure trivial

omit hterm

theorem termAt_alike (n : Nat) : ReadersAlike R (ev.termAt n) (ev'.termAt n) := by
  induction n with
  | zero => exact fun cs => .throw _ _
  | succ n ih => exact termWith_alike hev ih

/-! ## Expressions -/

omit hev

include hterm in
theorem terms_alike (n : Nat) (acc : Value) (cs : List Char) :
    EvalAlike R (fun _ => True) (terms term n acc cs) (terms term' n acc cs) := by
  induction n generalizing acc cs with
  | zero => exact .pure trivial
  | succ n ih =>
    unfold terms
    split
    · exact .pure trivial
    · refine (hterm _).bind fun (v, rest) _ => ?_
      cases rest with
      | nil => exact .pure trivial
      | cons c rest =>
        dsimp only
        split
        · exact ih _ _
        · exact .throw _ _

include hev in
theorem expression_alike (cs : List Char) : EvalAlike R (fun _ => True) (ev.expression cs) (ev'.expression cs) :=
  terms_alike (termAt_alike hev _) _ _ _

end Evaluator

/-- Over alike scopes a text has the same value and the same error, and leaves related states, unless the
evaluations part. -/
theorem Engine.calculate_alike {κ ι σ σ' : Type} {R : σ → σ' → Prop} {P : σ → Prop} {Found : ι → Prop}
    {engine : Engine κ ι σ} {engine' : Engine κ ι σ'} (hregistry : engine.registry = engine'.registry)
    (hscope : ScopesAlike (.ofStates R P) Found engine.scope engine'.scope) (depth : Nat) (text : String) :
    Alike (.ofStates R P) (fun _ => True) (engine.calculate depth text) (engine'.calculate depth text) := by
  induction depth generalizing text with
  | zero =>
    refine (Alike.modifyErrors fun e => e.report ⟨.compilerImplementationError, ""⟩).bind fun _ _ => ?_
    exact .pure trivial
  | succ depth ih =>
    refine (Alike.modifyErrors fun _ => .clear).bind fun _ _ => ?_
    have hev : EvaluatorsAlike (.ofStates R P) Found { engine with nested := engine.calculate depth }
        { engine' with nested := engine'.calculate depth } := ⟨hregistry, hscope.toLookupsAlike, fun a hi => hscope.access a ih hi⟩
    refine Alike.bind (Evaluator.expression_alike hev text.toList) fun r _ => ?_
    cases r with
    | ok v => exact .pure trivial
    | error e => exact (Alike.modifyErrors fun x => x.report e).bind fun _ _ => .pure trivial

end HostScript
