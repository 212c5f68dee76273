import HostScript.Script.Scope
/-!
# What script functions leave alone

Most of what a script reaches works on the host and the objects, and on nothing else: it reads no other part
of the state, and changes none. The stand-ins of host entities work on the binding only; making a binding
also stores an object. So they leave alone every part of a state that says nothing of these.
-/

set_option autoImplicit false

namespace HostScript

/-- The action leaves a part of the state as it is. -/
def Keeps {κ α β : Type} (f : ScriptState κ → β) (m : ScriptAction κ α) : Prop := ∀ s, f (m s).2 = f s

/-- The part says nothing of the binding. -/
def IgnoresBinding {κ β : Type} (f : ScriptState κ → β) : Prop := ∀ s b, f { s with binding := b } = f s

/-- The part says nothing of the objects. -/
def IgnoresArena {κ β : Type} (f : ScriptState κ → β) : Prop := ∀ s a, f { s with arena := a } = f s

/-- The part says nothing of the variables. -/
def IgnoresVariables {κ β : Type} (f : ScriptState κ → β) : Prop := ∀ s vars, f { s with vars := vars } = f s

/-- The action works on what is carried over from one state to another: it does the same there. -/
def Carries {κ α : Type} (carry : ScriptState κ → ScriptState κ → ScriptState κ) (m : ScriptAction κ α) : Prop :=
  ∀ s u, m (carry s u) = ((m s).1, carry (m s).2 u)

/-- The second state, with the binding of the first one. -/
def overBinding {κ : Type} (s u : ScriptState κ) : ScriptState κ := { u with binding := s.binding }

/-- The second state, with the binding and the objects of the first one. -/
def overObjects {κ : Type} (s u : ScriptState κ) : ScriptState κ :=
  { u with binding := s.binding, arena := s.arena }

/-- The second state, with everything of the first one that identifiers other than the functions of the script
work on. -/
def overScript {κ : Type} (s u : ScriptState κ) : ScriptState κ :=
  { u with program := s.program, vars := s.vars, binding := s.binding, arena := s.arena, clock := s.clock }

namespace Keeps

variable {κ α γ β : Type} {f : ScriptState κ → β}

theorem pure (a : α) : Keeps f (pure a) := fun _ => rfl

theorem bind {m : ScriptAction κ α} {k : α → ScriptAction κ γ} (hm : Keeps f m) (hk : ∀ a, Keeps f (k a)) :
    Keeps f (m >>= k) := fun s => (hk (m s).1 (m s).2).trans (hm s)

theorem get : Keeps f (get : ScriptAction κ (ScriptState κ)) := fun _ => rfl

theorem modify {g : ScriptState κ → ScriptState κ} (h : ∀ s, f (g s) = f s) : Keeps f (modify g) := h

end Keeps

namespace Carries

variable {κ α γ β : Type} {carry : ScriptState κ → ScriptState κ → ScriptState κ} {f : ScriptState κ → β}
  {m : ScriptAction κ α}

theorem pure (a : α) : Carries carry (pure a) := fun _ _ => rfl

theorem bind {k : α → ScriptAction κ γ} (hm : Carries carry m) (hk : ∀ a, Carries carry (k a)) :
    Carries carry (m >>= k) := by
  intro s u
  change k (m (carry s u)).1 (m (carry s u)).2 = _
  rw [hm s u]
  exact hk (m s).1 (m s).2 u

/-- Going on from what is carried over. -/
theorem look {k : ScriptState κ → ScriptAction κ α} (h : ∀ s u, k (carry s u) = k s) (hk : ∀ s, Carries carry (k s)) :
    Carries carry (get >>= k) := by
  intro s u
  change k (carry s u) (carry s u) = _
  rw [h s u]
  exact hk s s u

theorem modify {g : ScriptState κ → ScriptState κ} (h : ∀ s u, g (carry s u) = carry (g s) u) :
    Carries carry (modify g) := fun s u => Prod.ext rfl (h s u)

theorem modifyGet {g : ScriptState κ → α × ScriptState κ} (h : ∀ s u, g (carry s u) = ((g s).1, carry (g s).2 u)) :
    Carries carry (modifyGet g) := h

theorem keeps (h : Carries overBinding m) (hf : IgnoresBinding f) : Keeps f m := by
  intro s
  have hs : (m s).2 = overBinding (m s).2 s := congrArg Prod.snd (h s s)
  rw [hs]
  exact hf s (m s).2.binding

theorem keeps_objects (h : Carries overObjects m) (hf : IgnoresBinding f) (ha : IgnoresArena f) : Keeps f m := by
  intro s
  have hs : (m s).2 = overObjects (m s).2 s := congrArg Prod.snd (h s s)
  rw [hs]
  exact (ha { s with binding := (m s).2.binding } (m s).2.arena).trans (hf s (m s).2.binding)

/-- What works on the binding does not mind objects. -/
theorem objects (h : Carries overBinding m) : Carries overObjects m := by
  intro s u
  have harena : (m s).2.arena = s.arena := h.keeps (fun _ _ => rfl) s
  have hs := h s { u with arena := s.arena }
  rw [← harena] at hs
  rw [overObjects, overObjects, ← harena]
  exact hs

/-- What works on binding and objects does not mind the rest of a script. -/
theorem script (h : Carries overObjects m) : Carries overScript m := by
  intro s u
  have hs : (m s).2 = overObjects (m s).2 s := congrArg Prod.snd (h s s)
  have hu : m (overScript s u) = ((m s).1, overObjects (m s).2 (overScript s u)) := h s (overScript s u)
  rw [hu, hs]
  rfl

end Carries

open ScriptState

variable {κ μ β : Type} {f : ScriptState κ → β}

/-! ## The host -/

theorem modifyBinding_carries (g : Binding → Binding) :
    Carries overBinding (modify fun s : ScriptState κ => s.modifyBinding g) := .modify fun _ _ => rfl

theorem onHost_carries {α : Type} (g : Host → Host × α) : Carries (κ := κ) overBinding (onHost g) :=
  .modifyGet fun _ _ => rfl

theorem putFlags_carries (link : Nat) (flags : VariableFlags) : Carries (κ := κ) overBinding (putFlags link flags) :=
  .look (fun _ _ => rfl) fun _ => onHost_carries _

theorem ofVariable_carries {α : Type} (link : Nat) (g : Variable → α) (missing : α) :
    Carries (κ := κ) overBinding (ofVariable link g missing) := by
  refine .look (fun _ _ => rfl) fun s => ?_
  split <;> exact .pure _

theorem ofResult_carries {α : Type} (link : Nat) (g : Result → α) (missing : α) :
    Carries (κ := κ) overBinding (ofResult link g missing) := by
  refine .look (fun _ _ => rfl) fun s => ?_
  split <;> exact .pure _

theorem changeFlags_carries (link : Nat) (g : VariableFlags → VariableFlags) :
    Carries (κ := κ) overBinding (changeFlags link g) := by
  refine .look (fun _ _ => rfl) fun s => ?_
  split
  · exact putFlags_carries _ _
  · exact .pure _

theorem putValue_carries (link : Nat) (v : Value) : Carries (κ := κ) overBinding (putValue link v) :=
  .look (fun _ _ => rfl) fun _ => .bind (onHost_carries _) fun _ => .pure _

/-! ## Stand-ins -/

theorem setUp_carries (link : Nat) (v : Value) : Carries (κ := κ) overBinding (VariableMember.setUp link v) := by
  unfold VariableMember.setUp
  split <;> exact onHost_carries _

theorem variableCall_carries (link : Nat) (m : VariableMember) (arg : Value) :
    Carries (κ := κ) overBinding (m.call link arg) := by
  cases m with
  | setup => exact .bind (setUp_carries _ _) fun _ => .pure _
  | name => exact .bind (ofVariable_carries _ _ _) fun _ => .pure _
  | isFlags => exact .bind (ofVariable_carries _ _ _) fun _ => .pure _
  | setFlags => exact .bind (changeFlags_carries _ _) fun _ => .pure _
  | unsetFlags => exact .bind (changeFlags_carries _ _) fun _ => .pure _
  | _ => exact .pure _

theorem variableRead_carries (link : Nat) (m : VariableMember) : Carries (κ := κ) overBinding (m.read link) := by
  refine .look (fun _ _ => rfl) fun s => ?_
  cases m <;> first | exact .pure _ | exact .bind (ofVariable_carries _ _ _) fun _ => .pure _

theorem variableWrite_carries (link : Nat) (m : VariableMember) (v : Value) :
    Carries (κ := κ) overBinding (m.write link v) := by
  cases m with
  | id =>
    refine .look (fun _ _ => rfl) fun s => ?_
    split
    · exact .bind (onHost_carries _) fun _ => .pure _
    · exact .pure _
  | cur => exact putValue_carries _ _
  | flags =>
    refine .look (fun _ _ => rfl) fun s => ?_
    split
    · exact .bind (putFlags_carries _ _) fun _ => .pure _
    · exact .pure _
  | on hook => exact modifyBinding_carries _
  | skipEvent => exact modifyBinding_carries _
  | _ => exact .pure _

theorem variableAccess_carries (link : Nat) (m : VariableMember) (a : Access) :
    Carries (κ := κ) overBinding (m.access link a) := by
  cases a with
  | read => exact variableRead_carries _ _
  | call args => exact variableCall_carries _ _ _
  | write v => exact .bind (variableWrite_carries _ _ _) fun _ => .pure _

theorem resultAccess_carries (link : Nat) (m : ResultMember) (a : Access) :
    Carries (κ := κ) overBinding (m.access link a) := by
  cases a with
  | read =>
    refine .look (fun _ _ => rfl) fun s => ?_
    cases m <;> first | exact .pure _ | exact .bind (ofResult_carries _ _ _) fun _ => .pure _
  | call args =>
    cases m with
    | name => exact .bind (ofResult_carries _ _ _) fun _ => .pure _
    | data => exact .bind (ofResult_carries _ _ _) fun _ => .pure _
    | request => exact .bind (ofResult_carries _ _ _) fun _ => .bind (onHost_carries _) fun _ => .pure _
    | _ => exact .pure _
  | write v =>
    refine .bind ?_ fun _ => .pure _
    cases m with
    | id => exact .bind (onHost_carries _) fun _ => .pure _
    | on hook => exact modifyBinding_carries _
    | _ => exact .pure _

theorem accessBound_carries (index : Nat) (a : Access) : Carries (κ := κ) overBinding (Binding.accessBound index a) := by
  refine .look (fun _ _ => rfl) fun s => ?_
  split
  · exact .pure _
  · exact .bind (putValue_carries _ _) fun _ => .pure _
  · exact .bind (ofVariable_carries _ _ _) fun _ => .pure _

theorem accessParameter_carries (index : Nat) (a : Access) :
    Carries (κ := κ) overBinding (Binding.accessParameter index a) := by
  refine .look (fun _ _ => rfl) fun s => ?_
  split <;> exact .pure _

theorem accessLabel_keeps (index : Nat) (a : Access) : Keeps f (accessLabel index a) := by
  refine .bind .get fun s => ?_
  split <;> exact .pure _

/-! ## Bindings and objects -/

theorem keepObject_carries (o : ScriptObject κ) : Carries overObjects (Binding.keepObject o) := .modifyGet fun _ _ => rfl

theorem bindVariable_carries (name : Option String) (link : Nat) :
    Carries (κ := κ) overObjects (Binding.bindVariable name link) :=
  .bind (keepObject_carries _) fun _ => .bind (modifyBinding_carries _).objects fun _ => .pure _

theorem bindResult_carries (id : Int64) : Carries (κ := κ) overObjects (Binding.bindResult id) :=
  .bind (onHost_carries _).objects fun _ => .bind (keepObject_carries _) fun _ =>
    .bind (modifyBinding_carries _).objects fun _ => .pure _

/-- The functions of the host, but for those that tell the time. -/
theorem hostCall_carries {g : HostFunction} (htime : g ≠ .time) (hdate : g ≠ .date) (args : List Value) :
    Carries (κ := κ) overObjects (Binding.call g args) := by
  have hflags : ∀ name flags, Carries (κ := κ) overObjects (Binding.changeNamedFlags g name flags) := by
    intro name flags
    refine .look (fun _ _ => rfl) fun s => ?_
    split
    · exact .pure _
    · exact (changeFlags_carries _ _).objects
  have hlink : ∀ link, Carries (κ := κ) overObjects
      (do return ScriptFunction.give (← Binding.bindVariable none link).toValue) :=
    fun link => .bind (bindVariable_carries _ _) fun _ => .pure _
  rcases g with _ | _ | _ | _ | _ | _ | _ | _
  · exact absurd rfl htime
  · exact absurd rfl hdate
  · exact .bind (hflags _ _) fun _ => .pure _
  · exact .bind (hflags _ _) fun _ => .pure _
  · exact .bind (hflags _ _) fun _ => .pure _
  · refine .bind (.look (fun _ _ => rfl) fun s => ?_) fun _ => .pure _
    split
    · exact .pure _
    · exact (onHost_carries _).objects
  · unfold Binding.call
    dsimp only
    split
    · exact .bind (onHost_carries _).objects hlink
    · exact .bind (onHost_carries _).objects hlink
  · exact .bind (bindResult_carries _) fun _ => .pure _

theorem hostCall_keeps (hf : IgnoresBinding f) (ha : IgnoresArena f) (g : HostFunction) (args : List Value) :
    Keeps f (Binding.call g args) := by
  by_cases htime : g = .time
  · rw [htime]
    exact .bind .get fun _ => .pure _
  by_cases hdate : g = .date
  · rw [hdate]
    exact .bind .get fun _ => .pure _
  exact (hostCall_carries htime hdate args).keeps_objects hf ha

theorem objectAccess_carries [NativeObject κ μ] (h : Handle) (m : ObjectMember μ) (a : Access) :
    Carries overObjects (ScriptObject.access (κ := κ) h m a) := by
  refine .look (fun _ _ => rfl) fun s => ?_
  split
  · exact .pure _
  · split
    · exact .pure _
    · exact .pure _
    · exact .bind (.modify fun _ _ => rfl) fun _ => .pure _
  · exact (variableAccess_carries _ _ _).objects
  · exact (resultAccess_carries _ _ _).objects
  · exact .pure _

/-- What accessing an object does to the objects: a native one may be replaced by a later state of it. -/
theorem objectAccess_arena [NativeObject κ μ] (h : Handle) (m : ObjectMember μ) (a : Access) (s : ScriptState κ) :
    (ScriptObject.access h m a s).2.arena = s.arena ∨
      ∃ o, (ScriptObject.access h m a s).2.arena = s.arena.set h (.native o) := by
  have hig : IgnoresBinding fun s : ScriptState κ => s.arena := fun _ _ => rfl
  simp only [ScriptObject.access, bind, StateT.bind, get, getThe, MonadStateOf.get, StateT.get, pure]
  generalize s.arena.get? h = found
  rcases found with _ | (o | ⟨link, role⟩ | link)
  · exact .inl rfl
  · rcases m with m | m | m
    · dsimp only
      rcases NativeObject.access o m a with kind | _ | ⟨o', v⟩
      · exact .inl rfl
      · exact .inl rfl
      · exact .inr ⟨_, rfl⟩
    · exact .inl rfl
    · exact .inl rfl
  · rcases m with m | m | m
    · exact .inl rfl
    · exact .inl ((variableAccess_carries _ _ _).keeps hig s)
    · exact .inl rfl
  · rcases m with m | m | m
    · exact .inl rfl
    · exact .inl rfl
    · exact .inl ((resultAccess_carries _ _ _).keeps hig s)

/-! ## Functions -/

theorem scriptCall_keeps [NativeObject κ μ] (registry : Registry κ) (g : ScriptFunction) (args : List Value) :
    Keeps (fun s => (s.vars, s.bound, s.binding)) (g.call registry args) := by
  cases g with
  | exit => exact .bind (.modify fun s => rfl) fun _ => .pure _
  | print => exact .bind (.modify fun s => rfl) fun _ => .pure _
  | writelog => exact .bind (.modify fun s => rfl) fun _ => .pure _
  | clock => exact .bind .get fun _ => .pure _
  | sleep =>
    refine .bind (.modify fun s => ?_) fun _ => .pure _
    unfold ScriptFunction.pause
    split <;> rfl
  | settimeout => exact .bind (.modify fun s => rfl) fun _ => .pure _
  | getenv => exact .bind .get fun _ => .pure _
  | trace => exact .bind (.modify fun s => rfl) fun _ => .pure _
  | create =>
    unfold ScriptFunction.call
    dsimp only
    split
    · exact .pure _
    · exact fun s => rfl
  | time => exact .bind .get fun _ => .pure _
  | date => exact .bind .get fun _ => .pure _

/-- Only `Create` makes an object, a native one. -/
theorem scriptCall_arena [NativeObject κ μ] (registry : Registry κ) (g : ScriptFunction) (args : List Value)
    (s : ScriptState κ) :
    (g.call registry args s).2.arena = s.arena ∨
      g = .create ∧ ∃ o, (g.call registry args s).2.arena = (s.arena.insert (.native o)).1 := by
  cases g with
  | sleep =>
    left
    change (ScriptFunction.pause s _).arena = s.arena
    unfold ScriptFunction.pause
    split <;> rfl
  | create =>
    unfold ScriptFunction.call
    dsimp only
    rcases registry.create (args.headD .undefined).text args.tail with kind | o
    · exact .inl rfl
    · exact .inr ⟨rfl, _, rfl⟩
  | _ => exact .inl rfl

/-! ## Any identifier -/

/-- The identifiers that a script has without a host. -/
def ScriptId.Own : ScriptId μ → Prop
  | .hostFunction _ | .bound _ | .parameter _ => False
  | _ => True

/-- The variable that an access assigns to, with what it is given. -/
def assignment? (s : ScriptState κ) : ScriptId μ → Access → Option (Nat × ScriptVariable × Value)
  | .variable index, .write v => s.vars[index]?.map fun x => (index, x, v)
  | _, _ => none

theorem assignment_eq {s : ScriptState κ} {i : ScriptId μ} {a : Access} {index : Nat} {x : ScriptVariable} {v : Value}
    (h : assignment? s i a = some (index, x, v)) :
    i = .variable index ∧ a = .write v ∧ s.vars[index]? = some x := by
  unfold assignment? at h
  split at h
  · obtain ⟨y, hy, he⟩ := Option.map_eq_some_iff.mp h
    obtain ⟨rfl, rfl, rfl⟩ : _ = index ∧ y = x ∧ _ = v := by simpa using he
    exact ⟨rfl, rfl, hy⟩
  · cases h

variable [NativeObject κ μ]

/-- An assignment is all that its access does. -/
theorem access_assignment (registry : Registry κ) {i : ScriptId μ} {a : Access} {s : ScriptState κ} {index : Nat}
    {x : ScriptVariable} {v : Value} (h : assignment? s i a = some (index, x, v)) :
    (access registry i a s).2 = s.assignVariable index x v := by
  obtain ⟨rfl, rfl, hx⟩ := assignment_eq h
  simp only [access, accessVariable, bind, StateT.bind, get, getThe, MonadStateOf.get, StateT.get, pure, hx]
  rfl

theorem accessVariable_keeps {β : Type} (f : ScriptState κ → β) {index : Nat} {a : Access} {s : ScriptState κ}
    (h : assignment? (μ := μ) s (.variable index) a = none) : f (accessVariable index a s).2 = f s := by
  simp only [accessVariable, bind, StateT.bind, get, getThe, MonadStateOf.get, StateT.get, pure]
  rcases hx : s.vars[index]? with _ | x
  · rfl
  · cases a with
    | write v => simp [assignment?, hx] at h
    | read => rfl
    | call args => rfl

theorem accessVariable_carries (index : Nat) (a : Access) : Carries (κ := κ) overScript (accessVariable index a) := by
  intro s u
  simp only [accessVariable, bind, StateT.bind, get, getThe, MonadStateOf.get, StateT.get, pure]
  rcases hx : s.vars[index]? with _ | x
  · simp only [overScript, hx]
    rfl
  · cases a <;> simp only [overScript, hx] <;> rfl

theorem accessLabel_carries (index : Nat) (a : Access) : Carries (κ := κ) overScript (accessLabel index a) := by
  refine .look (fun _ _ => rfl) fun s => ?_
  split <;> exact .pure _

/-- Only the functions of the script reach for the rest of it. -/
theorem access_carries (registry : Registry κ) {i : ScriptId μ} (hi : ∀ g, i ≠ .function g) (a : Access) :
    Carries overScript (access registry i a) := by
  rcases i with g | g | k | x | index | index | index | index | ⟨o, m⟩
  · exact absurd rfl (hi g)
  · cases a with
    | call args =>
      by_cases htime : g = .time
      · rw [htime]
        exact .look (fun _ _ => rfl) fun _ => .pure _
      by_cases hdate : g = .date
      · rw [hdate]
        exact .look (fun _ _ => rfl) fun _ => .pure _
      exact (hostCall_carries htime hdate args).script
    | _ => exact .pure _
  · exact .pure _
  · exact .pure _
  · exact accessVariable_carries index a
  · exact accessLabel_carries index a
  · exact (accessBound_carries index a).objects.script
  · exact (accessParameter_carries index a).objects.script
  · exact (objectAccess_carries o m a).script

/-- What says nothing of variables, objects and the binding is kept if the functions of the script keep it. -/
theorem access_keeps (registry : Registry κ) {i : ScriptId μ} {a : Access} (hb : IgnoresBinding f)
    (ha : IgnoresArena f) (hv : IgnoresVariables f)
    (hcall : ∀ g args, i = .function g → a = .call args → Keeps f (g.call registry args)) :
    Keeps f (access registry i a) := by
  intro s
  rcases i with g | g | k | x | index | index | index | index | ⟨o, m⟩
  · cases a with
    | call args => exact hcall g args rfl rfl s
    | _ => rfl
  · cases a with
    | call args => exact hostCall_keeps hb ha g args s
    | _ => rfl
  · rfl
  · rfl
  · cases h : assignment? (μ := μ) s (.variable index) a with
    | none => exact accessVariable_keeps f h
    | some r =>
      obtain ⟨index, x, v⟩ := r
      rw [access_assignment registry h]
      exact (ha { s with vars := s.vars.set index { x with value := x.value.assign v } } _).trans (hv s _)
  · exact accessLabel_keeps index a s
  · exact (accessBound_carries index a).keeps hb s
  · exact (accessParameter_carries index a).keeps hb s
  · exact (objectAccess_carries o m a).keeps_objects hb ha s

/-- Nothing but an assignment changes a variable. -/
theorem access_vars (registry : Registry κ) {i : ScriptId μ} {a : Access} {s : ScriptState κ}
    (h : assignment? s i a = none) :
    (access registry i a s).2.vars = s.vars ∧ (access registry i a s).2.bound = s.bound := by
  let f : ScriptState κ → List ScriptVariable × Bool := fun s => (s.vars, s.bound)
  have hb : IgnoresBinding f := fun _ _ => rfl
  have ha : IgnoresArena f := fun _ _ => rfl
  suffices hf : f (access registry i a s).2 = f s from ⟨congrArg Prod.fst hf, congrArg Prod.snd hf⟩
  rcases i with g | g | k | x | index | index | index | index | ⟨o, m⟩
  · cases a with
    | call args =>
      have hs := scriptCall_keeps registry g args s
      exact Prod.ext (congrArg (·.1) hs) (congrArg (·.2.1) hs)
    | _ => rfl
  · cases a with
    | call args => exact hostCall_keeps hb ha g args s
    | _ => rfl
  · rfl
  · rfl
  · exact accessVariable_keeps f h
  · exact accessLabel_keeps index a s
  · exact (accessBound_carries index a).keeps hb s
  · exact (accessParameter_carries index a).keeps hb s
  · exact (objectAccess_carries o m a).keeps_objects hb ha s

/-- What an access that assigns nothing does to the objects of a script without a host: it creates one,
or changes the state of one. -/
theorem access_arena (registry : Registry κ) {i : ScriptId μ} {a : Access} {s : ScriptState κ} (hi : i.Own)
    (h : assignment? s i a = none) :
    (access registry i a s).2.arena = s.arena ∨ (∃ o, (access registry i a s).2.arena = (s.arena.insert o).1) ∨
      ∃ o state, (access registry i a s).2.arena = s.arena.set o state := by
  rcases i with g | g | k | x | index | index | index | index | ⟨o, m⟩
  · cases a with
    | call args => exact (scriptCall_arena registry g args s).imp_right fun ⟨_, o, h⟩ => .inl ⟨.native o, h⟩
    | _ => exact .inl rfl
  · exact hi.elim
  · exact .inl rfl
  · exact .inl rfl
  · exact .inl (accessVariable_keeps (·.arena) h)
  · exact .inl (accessLabel_keeps (f := fun s => s.arena) index a s)
  · exact hi.elim
  · exact hi.elim
  · exact (objectAccess_arena o m a s).imp_right fun ⟨state, h⟩ => .inr ⟨o, .native state, h⟩

theorem table_own : ∀ i ∈ (ScriptId.table : List (Identifier (ScriptId μ))), i.id.Own := by
  simp [ScriptId.table, ScriptId.Own, ScriptId.ofKeyword, ScriptId.ofExternal]

omit [NativeObject κ μ] in
/-- What a name can stand for in a script that is not bound. -/
theorem findName_cases {s : ScriptState κ} (hs : s.bound = false) {name : String} {i : Identifier (ScriptId μ)}
    (hi : i ∈ findName? s name) :
    i ∈ ScriptId.table ∨ (∃ k, i.id = .variable k) ∨ ∃ k, i.id = .label k := by
  have hi : s.findOwnName? name = some i := by simpa [findName?, hs] using hi
  simp only [findOwnName?, Option.orElse_eq_orElse, Option.orElse_eq_or, Option.or_eq_some_iff,
    Option.map_eq_some_iff] at hi
  rcases hi with hi | ⟨-, ⟨k, -, rfl⟩ | ⟨-, k, -, rfl⟩⟩
  · exact .inl (List.mem_of_find?_eq_some hi)
  · exact .inr (.inl ⟨k, rfl⟩)
  · exact .inr (.inr ⟨k, rfl⟩)

omit [NativeObject κ μ] in
/-- The identifiers found in a script that is not bound are its own. -/
theorem findName_own {s : ScriptState κ} (hs : s.bound = false) {name : String} {i : Identifier (ScriptId μ)}
    (hi : i ∈ findName? s name) : i.id.Own := by
  rcases findName_cases hs hi with hi | ⟨k, hk⟩ | ⟨k, hk⟩
  · exact table_own i hi
  · rw [hk]
    trivial
  · rw [hk]
    trivial

theorem member_own {s : ScriptState κ} {h : Handle} {name : String} {i : Identifier (ScriptId μ)}
    (hi : i ∈ member? s h name) : i.id.Own := by
  unfold member? at hi
  cases ho : s.arena.get? h with
  | none => simp [ho] at hi
  | some o =>
    cases hm : Identifier.find? o.members name with
    | none => simp [ho, hm] at hi
    | some j =>
      simp only [ho, hm, bind, Option.bind_some, pure, Option.mem_def, Option.some.injEq] at hi
      exact hi ▸ trivial

end HostScript
