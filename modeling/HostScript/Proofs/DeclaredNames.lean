import HostScript.Proofs.ChangeLabels
import HostScript.Proofs.DeclaredOnce
import Mathlib.Data.List.Nodup
/-!
# What declared names lead to

A script that is bound to a host looks a name up among those that come with the host: functions, then bound names,
then parameters. Its own names come behind them: functions, then variables, then labels. A name is declared only if
it leads nowhere, and it is bound only if it is not bound already, which says nothing of variables and labels. So a
name that was declared leads to its variable or its label whatever the script does, unless the same source binds it
as well, or the application hands a parameter of that name to the script.
-/

set_option autoImplicit false

namespace HostScript

/-! ## Tables and lists of names -/

/-- The names that a script has before it is compiled. -/
def ScriptId.reservedNames : List String :=
  Identifier.names (@ScriptId.hostTable Empty) ++ Identifier.names (@ScriptId.table Empty)

theorem Identifier.find_eq_none_iff {ι : Type} {table : List (Identifier ι)} {name : String} :
    find? table name = none ↔ name ∉ names table := by
  simp [find?, names]

/-- Whatever members objects have, a script has the same names. -/
theorem ScriptId.unreserved_iff {μ : Type} {name : String} :
    name ∉ reservedNames ↔ Identifier.find? (hostTable : List (Identifier (ScriptId μ))) name = none ∧
      Identifier.find? (table : List (Identifier (ScriptId μ))) name = none := by
  rw [Identifier.find_eq_none_iff, Identifier.find_eq_none_iff, reservedNames, List.mem_append, not_or]
  rfl

/-- No name is there twice, and none of them is taken before. -/
structure Unambiguous (names : List String) : Prop where
  distinct : names.Nodup
  unreserved : ∀ name ∈ names, name ∉ ScriptId.reservedNames

theorem Unambiguous.insert {front back : List String} {name : String} (h : Unambiguous (front ++ back))
    (hnew : name ∉ front ++ back) (hname : name ∉ ScriptId.reservedNames) : Unambiguous (front ++ name :: back) where
  distinct := List.nodup_middle.mpr (List.nodup_cons.mpr ⟨hnew, h.distinct⟩)
  unreserved := by
    intro other hother
    rcases List.mem_cons.mp (List.perm_middle.mem_iff.mp hother) with rfl | hold
    · exact hname
    · exact h.unreserved other hold

namespace ScriptState

theorem indexOf_eq_none_iff {α : Type} {nameOf : α → Option String} {name : String} {entries : List α} :
    indexOf? nameOf name entries = none ↔ some name ∉ entries.map nameOf := by
  simp [indexOf?]

/-- A name that is there once is found at its position. -/
theorem indexOf_distinct {α : Type} {nameOf : α → String} {name : String} {entries : List α}
    (h : (entries.map nameOf).Nodup) {k : Nat} (hk : (entries.map nameOf)[k]? = some name) :
    indexOf? (some <| nameOf ·) name entries = some k := by
  obtain ⟨hlt, hname⟩ := List.getElem?_eq_some_iff.mp hk
  rw [List.length_map] at hlt
  rw [List.getElem_map] at hname
  rw [indexOf?, List.findIdx?_eq_some_iff_getElem]
  refine ⟨hlt, by simp [hname], fun j hj hfound => ?_⟩
  have hsame : (entries.map nameOf)[j]? = (entries.map nameOf)[k]? := by
    rw [hk, List.getElem?_map, List.getElem?_eq_getElem (Nat.lt_trans hj hlt)]
    simpa using hfound
  have hjlt : j < (entries.map nameOf).length := by simpa using Nat.lt_trans hj hlt
  exact Nat.ne_of_lt hj ((List.getElem?_inj hjlt h).mp hsame)

end ScriptState

/-! ## What a source names -/

/-- The names that a source gives to a script. -/
structure Lexicon where
  bound : Bool
  vars : List String
  labels : List String
  bindings : List String

def ScriptState.lexicon {κ : Type} (s : ScriptState κ) : Lexicon where
  bound := s.bound
  vars := s.vars.map (·.name)
  labels := s.program.labels.map (·.name)
  bindings := s.binding.boundNames

/-- What is declared under a name: a variable or a label. -/
inductive Lexicon.Declares {μ : Type} (l : Lexicon) : Identifier (ScriptId μ) → Prop
  | ofVariable {name : String} {k : Nat} : l.vars[k]? = some name → Declares l ⟨.variable, name, 0, .variable k⟩
  | ofLabel {name : String} {k : Nat} : l.labels[k]? = some name → Declares l ⟨.constant, name, 0, .label k⟩

theorem Lexicon.Declares.mem {μ : Type} {l : Lexicon} {d : Identifier (ScriptId μ)} (h : l.Declares d) :
    d.name ∈ l.vars ++ l.labels := by
  cases h with
  | ofVariable hk => exact List.mem_append_left _ (List.mem_of_getElem? hk)
  | ofLabel hk => exact List.mem_append_right _ (List.mem_of_getElem? hk)

namespace ScriptState

variable {κ μ : Type} {s t : ScriptState κ} {name : String} {d : Identifier (ScriptId μ)}

/-- The names that come with the host are those of a table, those that are bound, and those of parameters. -/
theorem findHostName_eq_none_iff :
    (s.findHostName? name : Option (Identifier (ScriptId μ))) = none ↔
      Identifier.find? (ScriptId.hostTable : List (Identifier (ScriptId μ))) name = none ∧
        name ∉ s.binding.boundNames ∧ name ∉ s.binding.parameters.map (·.name) := by
  simp [findHostName?, Option.or_eq_none_iff, indexOf_eq_none_iff, Binding.boundNames]

/-- A name that comes with the host leads to no variable and to no label. -/
theorem findHostName_foreign {i : Identifier (ScriptId μ)} (hi : s.findHostName? name = some i)
    (hd : s.lexicon.Declares d) : i.id ≠ d.id := by
  have hforeign : (∀ k, i.id ≠ .variable k) ∧ ∀ k, i.id ≠ .label k := by
    have htable : ∀ i ∈ (ScriptId.hostTable : List (Identifier (ScriptId μ))),
        (∀ k, i.id ≠ .variable k) ∧ ∀ k, i.id ≠ .label k := by
      simp [ScriptId.hostTable, ScriptId.ofExternal]
    simp only [findHostName?, Option.orElse_eq_orElse, Option.orElse_eq_or, Option.or_eq_some_iff,
      Option.map_eq_some_iff] at hi
    rcases hi with hi | ⟨-, ⟨k, -, rfl⟩ | ⟨-, k, -, rfl⟩⟩
    · exact htable i (List.mem_of_find?_eq_some hi)
    · unfold ScriptId.ofBinding
      split <;> simp
    · simp
  cases hd with
  | ofVariable => exact hforeign.1 _
  | ofLabel => exact hforeign.2 _

/-- A script finds what was declared under a name that scripts do not have of their own. -/
theorem findOwnName_declared (h : Unambiguous (s.lexicon.vars ++ s.lexicon.labels)) (hd : s.lexicon.Declares d) :
    s.findOwnName? d.name = some d := by
  obtain ⟨hvariables, hlabels, hapart⟩ := List.nodup_append.mp h.distinct
  have htable : ∀ name ∈ s.lexicon.vars ++ s.lexicon.labels,
      Identifier.find? (ScriptId.table : List (Identifier (ScriptId μ))) name = none :=
    fun name hname => (ScriptId.unreserved_iff.mp (h.unreserved name hname)).2
  cases hd with
  | @ofVariable name k hk =>
    have hfound := indexOf_distinct hvariables hk
    rw [findOwnName?, htable name (List.mem_append_left _ (List.mem_of_getElem? hk)), hfound]
    rfl
  | @ofLabel name k hk =>
    have hmem := List.mem_of_getElem? hk
    have hfound := indexOf_distinct hlabels hk
    have hnone : indexOf? (some <| ScriptVariable.name ·) name s.vars = none := by
      rw [indexOf_eq_none_iff]
      intro hvariable
      obtain ⟨x, hx, hname⟩ := List.mem_map.mp hvariable
      exact hapart _ (List.mem_map_of_mem hx) name hmem (Option.some_inj.mp hname)
    rw [findOwnName?, htable name (List.mem_append_right _ hmem), hnone, hfound]
    rfl

/-- A script that is bound finds what was declared under a name if its host knows no such name. -/
theorem find_declared_iff [NativeObject κ μ] (registry : Registry κ) (hbound : s.bound = true)
    (h : Unambiguous (s.lexicon.vars ++ s.lexicon.labels)) (hd : s.lexicon.Declares d) :
    (engine registry).find? s d.name = some (d.map .scoped) ↔
      d.name ∉ s.binding.boundNames ∧ d.name ∉ s.binding.parameters.map (·.name) := by
  have hfind : findName? s d.name = (s.findHostName? d.name <|> some d) := by
    rw [findName?, if_pos hbound, findOwnName_declared h hd]
  constructor
  · intro hdeclared
    obtain ⟨i, hi, hid⟩ := Engine.find_scoped hdeclared rfl
    cases hhost : (s.findHostName? d.name : Option (Identifier (ScriptId μ))) with
    | none => exact (findHostName_eq_none_iff.mp hhost).2
    | some j =>
      rw [hhost] at hfind
      obtain rfl : j = i := Option.some_inj.mp (hfind.symm.trans hi)
      exact absurd hid (findHostName_foreign hhost hd)
  · intro hunknown
    have htable := (ScriptId.unreserved_iff (μ := μ)).mp (h.unreserved d.name hd.mem)
    have hhost := findHostName_eq_none_iff.mpr ⟨htable.1, hunknown⟩
    rw [hhost] at hfind
    exact Engine.find_of_scope hfind

/-! ## Uses -/

/-- The action binds no name. -/
abbrev NamesNothing {α : Type} (m : ScriptAction κ α) : Prop := Keeps (fun s => s.binding.boundNames) m

theorem onHost_names {α : Type} (f : Host → Host × α) : NamesNothing (κ := κ) (onHost f) := fun _ => rfl

theorem modifyVariable_names (link : Nat) {f : VariableBinding → VariableBinding} (hf : ∀ v, (f v).name = v.name) :
    NamesNothing (modify fun s : ScriptState κ => s.modifyBinding fun b => b.modifyVariable link f) := by
  intro s
  have hnames := s.binding.modifyVariable_map link hf
  exact (Binding.boundNames_eq _).trans (hnames ▸ (Binding.boundNames_eq _).symm)

theorem putFlags_names (link : Nat) (flags : VariableFlags) : NamesNothing (κ := κ) (putFlags link flags) :=
  .bind .get fun _ => onHost_names _

theorem changeFlags_names (link : Nat) (f : VariableFlags → VariableFlags) :
    NamesNothing (κ := κ) (changeFlags link f) := by
  refine .bind .get fun s => ?_
  split
  · exact putFlags_names _ _
  · exact .pure _

theorem putValue_names (link : Nat) (v : Value) : NamesNothing (κ := κ) (putValue link v) :=
  .bind .get fun _ => .bind (onHost_names _) fun _ => .pure _

theorem variableCall_names (link : Nat) (m : VariableMember) (arg : Value) :
    NamesNothing (κ := κ) (m.call link arg) := by
  cases m with
  | setup =>
    refine .bind ?_ fun _ => .pure _
    unfold VariableMember.setUp
    split <;> exact onHost_names _
  | name => exact .bind (ofVariable_keeps _ _ _ _) fun _ => .pure _
  | isFlags => exact .bind (ofVariable_keeps _ _ _ _) fun _ => .pure _
  | setFlags => exact .bind (changeFlags_names _ _) fun _ => .pure _
  | unsetFlags => exact .bind (changeFlags_names _ _) fun _ => .pure _
  | _ => exact .pure _

theorem variableWrite_names (link : Nat) (m : VariableMember) (v : Value) :
    NamesNothing (κ := κ) (m.write link v) := by
  cases m with
  | id =>
    refine .bind .get fun s => ?_
    split
    · exact .bind (onHost_names _) fun _ => .pure _
    · exact .pure _
  | cur => exact putValue_names link v
  | flags =>
    refine .bind .get fun s => ?_
    split
    · exact .bind (putFlags_names _ _) fun _ => .pure _
    · exact .pure _
  | on hook => exact modifyVariable_names link fun _ => rfl
  | skipEvent => exact modifyVariable_names link fun _ => rfl
  | _ => exact .pure _

theorem variableAccess_names (link : Nat) (m : VariableMember) (a : Access) :
    NamesNothing (κ := κ) (m.access link a) := by
  cases a with
  | read => exact variableRead_keeps _ _ _
  | call args => exact variableCall_names _ _ _
  | write v => exact .bind (variableWrite_names _ _ _) fun _ => .pure _

theorem resultAccess_names (link : Nat) (m : ResultMember) (a : Access) :
    NamesNothing (κ := κ) (m.access link a) := by
  cases a with
  | read => exact resultRead_keeps _ _ _
  | call args =>
    cases m with
    | name => exact .bind (ofResult_keeps _ _ _ _) fun _ => .pure _
    | data => exact .bind (ofResult_keeps _ _ _ _) fun _ => .pure _
    | request => exact .bind (ofResult_keeps _ _ _ _) fun _ => .bind (onHost_names _) fun _ => .pure _
    | _ => exact .pure _
  | write v =>
    refine .bind ?_ fun _ => .pure _
    cases m with
    | id => exact .bind (onHost_names _) fun _ => .pure _
    | on hook => exact .modify fun _ => rfl
    | _ => exact .pure _

/-- A variable is bound without a name. -/
theorem bindVariable_names (link : Nat) : NamesNothing (κ := κ) (Binding.bindVariable none link) := by
  intro s
  have hvars : (Binding.bindVariable none link s).2.binding.boundNames = s.binding.boundNames ++ [] :=
    List.filterMap_append
  exact hvars.trans (List.append_nil _)

theorem hostCall_names (g : HostFunction) (args : List Value) : NamesNothing (κ := κ) (Binding.call g args) := by
  have hflags : ∀ f name flags, NamesNothing (κ := κ) (Binding.changeNamedFlags f name flags) := by
    intro f name flags
    refine .bind .get fun s => ?_
    split
    · exact .pure _
    · exact changeFlags_names _ _
  have hbinds : ∀ link, NamesNothing (κ := κ)
      (do return ScriptFunction.give (← Binding.bindVariable none link).toValue) :=
    fun link => .bind (bindVariable_names link) fun _ => .pure _
  rcases g with _ | _ | _ | _ | _ | _ | _ | _
  · exact .bind .get fun _ => .pure _
  · exact .bind .get fun _ => .pure _
  · exact .bind (hflags _ _ _) fun _ => .pure _
  · exact .bind (hflags _ _ _) fun _ => .pure _
  · exact .bind (hflags _ _ _) fun _ => .pure _
  · refine .bind (.bind .get fun s => ?_) fun _ => .pure _
    split
    · exact .pure _
    · exact onHost_names _
  · unfold Binding.call
    dsimp only
    split
    · exact .bind (onHost_names _) hbinds
    · exact .bind (onHost_names _) hbinds
  · exact .bind (fun _ => rfl) fun _ => .pure _

theorem accessBound_names (index : Nat) (a : Access) : NamesNothing (κ := κ) (Binding.accessBound index a) := by
  refine .bind .get fun s => ?_
  split
  · exact .pure _
  · exact .bind (putValue_names _ _) fun _ => .pure _
  · exact .bind (ofVariable_keeps _ _ _ _) fun _ => .pure _

variable [NativeObject κ μ]

theorem objectAccess_names (h : Handle) (m : ObjectMember μ) (a : Access) :
    NamesNothing (κ := κ) (ScriptObject.access h m a) := by
  refine .bind .get fun s => ?_
  split
  · exact .pure _
  · split
    · exact .pure _
    · exact .pure _
    · exact .bind (.modify fun _ => rfl) fun _ => .pure _
  · exact variableAccess_names _ _ _
  · exact resultAccess_names _ _ _
  · exact .pure _

/-- Names are bound by statements only. -/
theorem access_names (registry : Registry κ) (i : ScriptId μ) (a : Access) : NamesNothing (access registry i a) := by
  rcases i with g | g | k | x | index | index | index | index | ⟨h, m⟩
  · cases a with
    | call args => exact fun s => congrArg (·.2.2.boundNames) (scriptCall_keeps registry g args s)
    | _ => exact .pure _
  · cases a with
    | call args => exact hostCall_names g args
    | _ => exact .pure _
  · exact .pure _
  · exact .pure _
  · intro s
    cases h : assignment? (μ := μ) s (.variable index) a with
    | none => exact accessVariable_keeps (fun s => s.binding.boundNames) h
    | some r =>
      rw [access_assignment registry h]
      rfl
  · exact accessLabel_keeps index a
  · exact accessBound_names index a
  · refine .bind .get fun s => ?_
    split <;> exact .pure _
  · exact objectAccess_names h m a

/-- An access leaves all names as they are. -/
theorem access_lexicon (registry : Registry κ) (i : ScriptId μ) (a : Access) (s : ScriptState κ) :
    (access registry i a s).2.lexicon = s.lexicon := by
  have hvars : (access registry i a s).2.vars.map (·.name) = s.vars.map (·.name) := by
    cases h : assignment? s i a with
    | none => rw [(access_vars registry h).1]
    | some r =>
      obtain ⟨index, x, v⟩ := r
      obtain ⟨-, -, hx⟩ := assignment_eq h
      obtain ⟨hlt, rfl⟩ := List.getElem?_eq_some_iff.mp hx
      have hlt' : index < (s.vars.map (·.name)).length := by simpa using hlt
      have hself := List.set_getElem_self hlt'
      rw [List.getElem_map] at hself
      rw [access_assignment registry h, assignVariable, List.map_set]
      exact hself
  have hnames : (access registry i a s).2.binding.boundNames = s.binding.boundNames := access_names registry i a s
  rw [lexicon, lexicon, access_bound, hvars, (access_stays registry i a s).program, hnames]

/-! ## Compiling -/

/-- A name that is free is none that scripts have, and none of a variable or a label. -/
theorem free_unambiguous {registry : Registry κ} {labels : List Label} (hbound : s.bound = true)
    (h : Compiler.Free (declarations registry) labels s name) :
    name ∉ s.vars.map (·.name) ++ labels.map Label.name ∧ name ∉ ScriptId.reservedNames := by
  have hnone : (engine registry).find? s name = none := by
    have hunknown := h.unknown
    cases hi : (engine registry).find? s name with
    | none => rfl
    | some i =>
      simp only [declarations, hi, meaningOf] at hunknown
      split at hunknown <;> cases hunknown
  have hfind : (findName? s name : Option (Identifier (ScriptId μ))) = none := by
    cases hi : (findName? s name : Option (Identifier (ScriptId μ))) with
    | none => rfl
    | some i =>
      rw [Engine.find_of_scope hi] at hnone
      cases hnone
  obtain ⟨hhost, hown⟩ : (s.findHostName? name : Option (Identifier (ScriptId μ))) = none ∧
      (s.findOwnName? name : Option (Identifier (ScriptId μ))) = none := by
    simpa [findName?, hbound] using hfind
  obtain ⟨htable, hvars, -⟩ : Identifier.find? (ScriptId.table : List (Identifier (ScriptId μ))) name = none ∧
      name ∉ s.vars.map (·.name) ∧ name ∉ s.program.labels.map (·.name) := by
    simpa [findOwnName?, Option.or_eq_none_iff, indexOf_eq_none_iff] using hown
  rw [List.mem_append, not_or]
  exact ⟨⟨hvars, h.label⟩, ScriptId.unreserved_iff.mpr ⟨(findHostName_eq_none_iff.mp hhost).1, htable⟩⟩

omit [NativeObject κ μ] in
theorem statement_heap (x : ExternalWord) (text : String) :
    Keeps (fun s : ScriptState κ => (s.vars, s.bound)) (Binding.statement x text) :=
  (statement_carries x text).keeps_objects (fun _ _ => rfl) fun _ _ => rfl

/-- In a script that is bound, labels and variables get names of their own. -/
theorem names_kept (registry : Registry κ) :
    Compiler.KeptByNew (declarations registry) fun labels (s : ScriptState κ) =>
      s.bound = true ∧ Unambiguous (s.vars.map (·.name) ++ labels.map Label.name) where
  label := by
    rintro labels s name ip ⟨hbound, hs⟩ hfree
    obtain ⟨hnew, hreserved⟩ := free_unambiguous hbound hfree
    rw [← List.append_nil (s.vars.map _ ++ _)] at hs hnew
    have hinsert := hs.insert hnew hreserved
    rw [List.append_assoc] at hinsert
    rw [List.map_append]
    exact ⟨hbound, hinsert⟩
  declare := by
    rintro labels s name ty ⟨hbound, hs⟩ hfree
    obtain ⟨hnew, hreserved⟩ := free_unambiguous hbound hfree
    have hinsert := hs.insert hnew hreserved
    refine ⟨hbound, ?_⟩
    change Unambiguous ((s.vars ++ [(⟨name, .zero ty⟩ : ScriptVariable)]).map (·.name) ++ _)
    rw [List.map_append, List.append_assoc]
    exact hinsert
  external := by
    rintro labels s x text ⟨hbound, hs⟩ -
    have hkept : ((Binding.statement x text s).2.vars, (Binding.statement x text s).2.bound) = (s.vars, s.bound) :=
      statement_heap x text s
    obtain ⟨hvars, hsame⟩ := Prod.mk.inj hkept
    change (Binding.statement x text s).2.bound = true ∧ Unambiguous ((Binding.statement x text s).2.vars.map _ ++ _)
    rw [hvars, hsame]
    exact ⟨hbound, hs⟩

/-- The names that a bound script declares are apart from each other and from those that it has anyway. -/
theorem compile_unambiguous {i : Interpreter κ} {source : String} (hbound : i.script.bound = true)
    (h : (i.compile source).2 = .done) :
    (i.compile source).1.script.bound = true ∧
      Unambiguous ((i.compile source).1.script.lexicon.vars ++ (i.compile source).1.script.lexicon.labels) := by
  obtain ⟨program, s, t, linked, hdeclared, hlink, hlinked, hbegun⟩ := compile_done_stages h
  have hstart : Unambiguous (i.clear.script.vars.map (·.name) ++ ([] : List Label).map Label.name) :=
    ⟨List.nodup_nil, nofun⟩
  have hcompiled := Compiler.compile_kept (names_kept i.registry) hdeclared ⟨hbound, hstart⟩
  -- linking and beginning leave variables and labels as they are
  have hheap : (t.vars, t.bound) = (s.vars, s.bound) := by
    obtain ⟨output, heq⟩ := link_eq { s with program := program }
    rw [hlink] at heq
    have hk : Keeps (fun s : ScriptState κ => (s.vars, s.bound)) (Binding.linkParameters s.binding.parameters) :=
      (linkParameters_carries _).keeps_objects (fun _ _ => rfl) fun _ _ => rfl
    exact (congrArg (fun t => (t.vars, t.bound)) heq).trans (hk _)
  obtain ⟨hvars, hsame⟩ := Prod.mk.inj hheap
  have hlabels : linked.labels = program.labels :=
    (congrArg (·.1.labels) hlinked).symm.trans (congrArg (·.labels) (Binding.link_labelled hlink).2)
  obtain ⟨main, output, hbegin⟩ := begin_eq { i.clear with script := { t with program := linked } }
  rw [hbegun, hbegin]
  change t.bound = true ∧ Unambiguous (t.vars.map _ ++ linked.labels.map _)
  rw [hvars, hsame, hlabels]
  exact hcompiled

/-- The names that are bound are those of the statements that were accepted. -/
theorem compile_boundNames {i : Interpreter κ} {source : String} (h : (i.compile source).2 = .done) :
    (i.compile source).1.script.binding.boundNames = ExternalWord.boundNames (i.statements source) := by
  obtain ⟨b, hfollows, hlabelled⟩ := Interpreter.compile_labelled h
  rw [Binding.boundNames_eq, hlabelled.vars, linkLabel_map fun _ _ => rfl, ← Binding.boundNames_eq, hfollows.names]

end ScriptState

/-! ## Running -/

open ScriptState

variable {κ μ : Type} [NativeObject κ μ]

/-- The states that expressions see while the application does something: the first and the last one, and those
before and after each use. -/
def Operation.states (i : Interpreter κ) (ops : List Operation) : List (ScriptState κ) :=
  i.script :: (Operation.runEffects i ops).flatMap (fun e => [e.before, e.after]) ++
    ((Operation.run i ops).map (·.script)).toList

/-- A script and the effects up to there have these names all along. -/
structure Lexicon.Stays (l : Lexicon) (s : ScriptState κ) (es : List (Effect κ μ)) : Prop where
  now : s.lexicon = l
  before : ∀ e ∈ es, e.before.lexicon = l ∧ e.after.lexicon = l

namespace Lexicon.Stays

variable {l : Lexicon} {s t : ScriptState κ} {es : List (Effect κ μ)}

omit [NativeObject κ μ] in
theorem effect (h : Stays l s es) (use : Use μ) (ht : t.lexicon = s.lexicon) : Stays l t (es ++ [⟨s, use, t⟩]) := by
  have hnow : t.lexicon = l := ht.trans h.now
  refine ⟨hnow, ?_⟩
  rw [List.forall_mem_append, List.forall_mem_singleton]
  exact ⟨h.before, h.now, hnow⟩

theorem lasting (l : Lexicon) (registry : Registry κ) : Interpreter.Lasting (μ := μ) registry (Stays l) where
  access s _ i a h _ := h.effect (.access i a) (access_lexicon registry i a s)
  release s _ o h := h.effect (.release o) rfl
  world s t es hworld hprogram h := by
    have hnames : s.binding.boundNames = t.binding.boundNames := congrArg (·.boundNames) hworld.binding
    refine ⟨?_, h.before⟩
    rw [← h.now, lexicon, lexicon, ← hworld.vars, ← hworld.bound, hprogram, hnames]

omit [NativeObject κ μ] in
theorem keeps {op : Operation} (hop : op.LeavesBinding) : op.Keeps (Stays (κ := κ) (μ := μ) l) := by
  cases op with
  | changeBinding f =>
    intro s es h
    obtain ⟨host, more, hf⟩ := hop s.binding
    have hnames : (f s.binding).boundNames = s.binding.boundNames := congrArg (·.boundNames) hf
    refine ⟨?_, h.before⟩
    rw [← h.now, lexicon, lexicon]
    exact congrArg (Lexicon.mk s.bound (s.vars.map (·.name)) (s.program.labels.map (·.name))) hnames
  | _ => trivial

end Lexicon.Stays

/-- No name is added or lost. -/
theorem Operation.states_lexicon {i : Interpreter κ} {ops : List Operation} (hops : ∀ op ∈ ops, op.LeavesBinding) :
    ∀ s ∈ states i ops, s.lexicon = i.script.lexicon := by
  have hlasts := run_lasts (Lexicon.Stays.lasting i.script.lexicon i.registry) (i := i)
    ⟨rfl, rfl, List.forall_mem_nil _⟩ ops fun op hop => Lexicon.Stays.keeps (hops op hop)
  rw [List.nil_append] at hlasts
  intro s hs
  have heffects : ∀ e ∈ runEffects i ops, e.before.lexicon = i.script.lexicon ∧ e.after.lexicon = i.script.lexicon := by
    revert hlasts
    cases run i ops with
    | none => exact fun ⟨_, h⟩ => h.before
    | some j => exact fun ⟨_, h⟩ => h.before
  rw [states, List.cons_append, List.mem_cons, List.mem_append] at hs
  rcases hs with rfl | hs | hs
  · rfl
  · obtain ⟨e, he, hse⟩ := List.mem_flatMap.mp hs
    obtain ⟨hbefore, hafter⟩ := heffects e he
    rcases List.mem_cons.mp hse with rfl | hse
    · exact hbefore
    · rwa [List.mem_singleton.mp hse]
  · obtain ⟨j, hj, rfl⟩ := Option.map_eq_some_iff.mp (Option.mem_toList.mp hs)
    rw [hj] at hlasts
    exact hlasts.2.now

/-- Whatever a source declares in an interpreter that is bound to a host, in any state of the script afterwards the
name leads to it exactly if no statement of the source binds this name, and no parameter has got it. -/
theorem declared_names_kept_iff {i : Interpreter κ} {source : String} (hbound : i.script.bound = true)
    (h : (i.compile source).2 = .done) {d : Identifier (ScriptId μ)}
    (hd : (i.compile source).1.script.lexicon.Declares d) {ops : List Operation}
    (hops : ∀ op ∈ ops, op.LeavesBinding) {s : ScriptState κ} (hs : s ∈ Operation.states (i.compile source).1 ops) :
    (engine i.registry).find? s d.name = some (d.map .scoped) ↔
      d.name ∉ ExternalWord.boundNames (i.statements source) ∧ d.name ∉ s.binding.parameters.map (·.name) := by
  obtain ⟨hstill, hnames⟩ := compile_unambiguous hbound h
  have hlexicon := Operation.states_lexicon hops s hs
  have hbindings : s.binding.boundNames = ExternalWord.boundNames (i.statements source) :=
    (congrArg Lexicon.bindings hlexicon).trans (compile_boundNames h)
  rw [← hlexicon] at hnames hd
  rw [← hbindings]
  exact find_declared_iff i.registry ((congrArg Lexicon.bound hlexicon).trans hstill) hnames hd

/-- Two variables are declared, and the name of one of them is imported. -/
theorem imported_name_taken :
    let i : Interpreter Empty := .new .empty true 0
    let source := "int x; int y; import x,5; y = 2; return;"
    let ops := [Operation.execute 100 .init, .execute 100 .run]
    let x : Identifier (ScriptId Empty) := ⟨.variable, "x", 0, .variable 0⟩
    let y : Identifier (ScriptId Empty) := ⟨.variable, "y", 0, .variable 1⟩
    (i.compile source).2 = .done ∧ (i.compile source).1.script.lexicon.Declares x ∧
      (i.compile source).1.script.lexicon.Declares y ∧ (Operation.states (i.compile source).1 ops).length = 6 ∧
      ∀ s ∈ Operation.states (i.compile source).1 ops,
        (engine .empty).find? s "x" ≠ some (x.map .scoped) ∧ (engine .empty).find? s "y" = some (y.map .scoped) := by
  intro i source ops x y
  obtain ⟨hdone, hvars, hstatements, hstates, hparameters⟩ : (i.compile source).2 = .done ∧
      (i.compile source).1.script.lexicon.vars = ["x", "y"] ∧ i.statements source = [(.import_, "x,5")] ∧
      (Operation.states (i.compile source).1 ops).length = 6 ∧
      ((Operation.states (i.compile source).1 ops).all (·.binding.parameters.isEmpty)) = true := by decide +kernel
  have hx : (i.compile source).1.script.lexicon.Declares x := .ofVariable (by rw [hvars]; rfl)
  have hy : (i.compile source).1.script.lexicon.Declares y := .ofVariable (by rw [hvars]; rfl)
  have hleaves : ∀ op ∈ ops, op.LeavesBinding := by simp [ops, Operation.LeavesBinding]
  refine ⟨hdone, hx, hy, hstates, fun s hs => ⟨fun hfound => ?_, ?_⟩⟩
  · refine ((declared_names_kept_iff rfl hdone hx hleaves hs).mp hfound).1 ?_
    rw [hstatements]
    decide
  · refine (declared_names_kept_iff rfl hdone hy hleaves hs).mpr ⟨?_, ?_⟩
    · rw [hstatements]
      decide
    · rw [List.isEmpty_iff.mp (List.all_eq_true.mp hparameters s hs)]
      exact List.not_mem_nil

end HostScript
