import HostScript.Proofs.Bindings
import HostScript.Proofs.Executions
import HostScript.Proofs.Runs
/-!
# Labels that are called on changes

A source asks by `on_change` for a label to be called when a variable changes. It is heard if it names a label for a
name that is bound by then, and only the last of those for a name counts. Compiling makes sure that the label is
there, and stores its position. An event of the variable calls it from then on, unless the position is zero or the
script sets another one.

Which statements a source has is recorded while it is compiled, by declarations that write down what they accept.
-/

set_option autoImplicit false

namespace HostScript

/-! ## Recording statements -/

/-- The declarations, with a record of the external statements that they accept. -/
def Declarations.recorded {ξ δ : Type} (decls : Declarations ξ δ) : Declarations ξ (δ × List (ξ × String)) where
  meaning s := decls.meaning s.1
  declare name ty s := (decls.declare name ty s.1, s.2)
  external x text s :=
    let (t, accepted) := decls.external x text s.1
    ((t, if accepted then s.2 ++ [(x, text)] else s.2), accepted)

namespace Compiler

variable {ξ δ : Type} {decls : Declarations ξ δ} {Inv : δ → List (ξ × String) → Prop}

/-- Declaring a variable keeps this of a state and its record, and so does an external statement, whether it is
accepted or not. -/
structure Records (decls : Declarations ξ δ) (Inv : δ → List (ξ × String) → Prop) : Prop where
  declare {s : δ} {record : List (ξ × String)} (name : String) (ty : ValueType) : Inv s record →
    Inv (decls.declare name ty s) record
  accepted {s : δ} {record : List (ξ × String)} {x : ξ} {text : String} : Inv s record →
    (decls.external x text s).2 = true → Inv (decls.external x text s).1 (record ++ [(x, text)])
  refused {s : δ} {record : List (ξ × String)} {x : ξ} {text : String} : Inv s record →
    (decls.external x text s).2 = false → Inv (decls.external x text s).1 record

/-- Compiling is not disturbed by the record, and keeps what its steps keep. -/
theorem compile_records (hinv : Records decls Inv) (source : String) {s : δ} (hs : Inv s []) :
    (compile decls source s).1 = (compile decls.recorded source (s, [])).1 ∧
      Inv (compile decls source s).2 (compile decls.recorded source (s, [])).2.2 := by
  -- the two runs are related: their states are the same, and the record fits them
  have halike : Compiler.Alike decls decls.recorded fun s r => s = r.1 ∧ Inv s r.2 :=
    { meaning := by
        rintro _ ⟨s, record⟩ name ⟨rfl, -⟩
        rfl
      declare := by
        rintro _ ⟨s, record⟩ name ty ⟨rfl, hs⟩
        exact ⟨rfl, hinv.declare name ty hs⟩
      external := by
        rintro _ t _ ⟨t', record⟩ x _ text - - ⟨ht', ht⟩
        obtain rfl : t = t' := ht'
        refine ⟨rfl, rfl, ?_⟩
        change Inv (decls.external x text t).1
          (if (decls.external x text t).2 = true then record ++ [(x, text)] else record)
        split
        · exact hinv.accepted ht ‹_›
        · exact hinv.refused ht (Bool.eq_false_iff.mpr ‹_›) }
  have hstart : s = ((s, []) : δ × List (ξ × String)).1 ∧ Inv s [] := ⟨rfl, hs⟩
  obtain ⟨houtcome, -, hs⟩ := compile_alike halike source hstart
  exact ⟨houtcome, hs⟩

end Compiler

/-- The external statements of a source that are accepted, in order. -/
def Interpreter.statements {κ μ : Type} [NativeObject κ μ] (i : Interpreter κ) (source : String) :
    List (ExternalWord × String) :=
  (Compiler.compile (ScriptState.declarations i.registry).recorded source (i.clear.script, [])).2.2

/-! ## What statements ask for -/

namespace ExternalWord

/-- The name that a statement binds. -/
def boundName? : ExternalWord × String → Option String
  | (.import_, text) => (Text.cut ',' text).map fun parts => Text.trim parts.1
  | (.export_, text) => some (Text.trim ((Text.cut ',' text).getD (text, "")).1)
  | _ => none

/-- The name and the label of an `on_change` statement, if it is well-formed. -/
def asked? : ExternalWord × String → Option (String × String)
  | (.onChange, text) => Binding.readOnChange text
  | _ => none

def boundNames (record : List (ExternalWord × String)) : List String := record.filterMap boundName?

/-- The last statement that asks for a label for a name, after the name is bound. -/
def AsksLast (record : List (ExternalWord × String)) (name label : String) : Prop :=
  ∃ early x late, record = early ++ x :: late ∧ asked? x = some (name, label) ∧ name ∈ boundNames early ∧
    ∀ y ∈ late, ∀ other, asked? y ≠ some (name, other)

theorem asksLast_append_iff {record : List (ExternalWord × String)} {x : ExternalWord × String} {name label : String} :
    AsksLast (record ++ [x]) name label ↔ asked? x = some (name, label) ∧ name ∈ boundNames record ∨
      (∀ other, asked? x ≠ some (name, other)) ∧ AsksLast record name label := by
  constructor
  · rintro ⟨early, y, late, he, hy, hname, hlate⟩
    -- either the new statement is the one that asks last, or it comes after it
    rcases List.eq_nil_or_concat late with rfl | ⟨late, z, rfl⟩
    · obtain ⟨rfl, hx⟩ := List.append_inj' he rfl
      obtain rfl : x = y := List.singleton_inj.mp hx
      exact .inl ⟨hy, hname⟩
    · rw [List.concat_eq_append, ← List.cons_append, ← List.append_assoc] at he
      obtain ⟨rfl, hx⟩ := List.append_inj' he rfl
      obtain rfl : x = z := List.singleton_inj.mp hx
      refine .inr ⟨hlate x (by simp), early, y, late, rfl, hy, hname, fun z hz => hlate z (by simp [hz])⟩
  · rintro (⟨hx, hname⟩ | ⟨hx, early, y, late, rfl, hy, hname, hlate⟩)
    · exact ⟨record, x, [], rfl, hx, hname, nofun⟩
    · refine ⟨early, y, late ++ [x], by simp, hy, hname, fun z hz => ?_⟩
      rcases List.mem_append.mp hz with hz | hz
      · exact hlate z hz
      · exact List.mem_singleton.mp hz ▸ hx

theorem not_asksLast_nil (name label : String) : ¬AsksLast [] name label := by
  rintro ⟨early, x, late, he, -⟩
  cases early <;> cases he

end ExternalWord

open ExternalWord

/-! ## What becomes of them -/

namespace Binding

variable {b b' : Binding} {record : List (ExternalWord × String)} {x : ExternalWord × String} {name : String}

/-- What an accepted statement does to the binding. -/
inductive StatementStep (b : Binding) (x : ExternalWord × String) : Binding → Prop
  | nothing : boundName? x = none → asked? x = none → StatementStep b x b
  | asks (name label : String) : boundName? x = none → asked? x = some (name, label) →
    StatementStep b x { b with vars := setChangeLabel name label b.vars }
  | binds (name : String) (host : Host) (handle : Handle) : boundName? x = some name → asked? x = none →
    host.lastLink = b.host.lastLink + 1 →
    StatementStep b x
      { b with host := host, vars := b.vars ++ [⟨some name, b.host.lastLink + 1, handle, .disarmed, true, none⟩] }

/-- The binding is what the statements asked for. -/
structure Follows (b : Binding) (record : List (ExternalWord × String)) : Prop where
  names : b.boundNames = ExternalWord.boundNames record
  labels : ∀ name label, (b.named? name).bind (·.changeLabel) = some label ↔ AsksLast record name label
  links : b.variableLinks.Nodup
  known : ∀ link ∈ b.variableLinks, link ≤ b.host.lastLink
  disarmed : ∀ hooks ∈ b.vars.map (·.hooks), hooks = .disarmed

/-- Only the names of the variables matter. -/
theorem boundNames_eq (b : Binding) : b.boundNames = (b.vars.map (·.name)).filterMap id := by simp [boundNames]

theorem named_isSome (b : Binding) (name : String) : (b.named? name).isSome ↔ name ∈ b.boundNames := by
  simp [named?, boundNames, List.mem_filterMap]

theorem named_setChangeLabel (b : Binding) (name label other : String) :
    ({ b with vars := setChangeLabel name label b.vars } : Binding).named? other =
      if other = name then (b.named? name).map ({ · with changeLabel := some label }) else b.named? other := by
  unfold named?
  dsimp only
  induction b.vars with
  | nil => simp [setChangeLabel]
  | cons v vars ih =>
    unfold setChangeLabel
    by_cases hv : v.name = some name
    · by_cases he : other = name
      · simp [hv, he]
      · have hne : ¬name = other := fun h => he h.symm
        simp [hv, he, hne]
    · by_cases ho : v.name = some other
      · have hne : ¬other = name := fun h => hv (h ▸ ho)
        simp [ho, hne]
      · simpa [List.find?_cons, hv, ho] using ih

theorem Follows.nothing (h : Follows b record) (hbound : boundName? x = none) (hasked : asked? x = none) :
    Follows b (record ++ [x]) where
  names := by simp [h.names, ExternalWord.boundNames, hbound]
  labels := by
    intro name label
    rw [h.labels, asksLast_append_iff, hasked]
    simp
  links := h.links
  known := h.known
  disarmed := h.disarmed

theorem Follows.asks (h : Follows b record) {label : String} (hbound : boundName? x = none)
    (hasked : asked? x = some (name, label)) :
    Follows { b with vars := setChangeLabel name label b.vars } (record ++ [x]) where
  names := by
    have hnames : (setChangeLabel name label b.vars).map (·.name) = b.vars.map (·.name) :=
      ScriptState.setChangeLabel_map (fun _ _ => rfl) name label b.vars
    rw [boundNames_eq, hnames, ← boundNames_eq]
    simp only [ExternalWord.boundNames, List.filterMap_append, List.filterMap_cons, hbound, List.filterMap_nil,
      List.append_nil]
    exact h.names
  labels := by
    intro other wanted
    rw [named_setChangeLabel, asksLast_append_iff, hasked]
    split
    · rename_i he
      subst he
      rw [← h.names, ← named_isSome]
      cases b.named? other <;> simp
    · rename_i hne
      have hother : ¬name = other := fun he => hne he.symm
      simp [h.labels, hother]
  links := by
    rw [variableLinks, ScriptState.setChangeLabel_map fun _ _ => rfl]
    exact h.links
  known := by
    rw [variableLinks, ScriptState.setChangeLabel_map fun _ _ => rfl]
    exact h.known
  disarmed := by
    rw [ScriptState.setChangeLabel_map fun _ _ => rfl]
    exact h.disarmed

theorem Follows.binds (h : Follows b record) {host : Host} {handle : Handle} (hbound : boundName? x = some name)
    (hasked : asked? x = none) (hlast : host.lastLink = b.host.lastLink + 1) :
    Follows
      { b with host := host, vars := b.vars ++ [⟨some name, b.host.lastLink + 1, handle, .disarmed, true, none⟩] }
      (record ++ [x]) where
  names := by
    simp only [Binding.boundNames, ExternalWord.boundNames, List.filterMap_append, List.filterMap_cons, hbound,
      List.filterMap_nil]
    exact congrArg (· ++ [name]) h.names
  labels := by
    intro other wanted
    -- the new variable asks for nothing, and it comes behind all others
    have hnamed : ∀ v : VariableBinding, v.changeLabel = none →
        ((b.vars ++ [v]).find? (·.name == some other)).bind (·.changeLabel) =
          (b.named? other).bind (·.changeLabel) := by
      intro v hv
      rw [List.find?_append, named?]
      cases b.vars.find? (·.name == some other) with
      | some _ => rfl
      | none =>
        rw [Option.none_or, List.find?_singleton]
        split <;> simp [hv]
    rw [named?, hnamed _ rfl, h.labels, asksLast_append_iff, hasked]
    simp
  links := by
    rw [variableLinks, List.map_append]
    refine List.nodup_append.mpr ⟨h.links, by simp, fun link hlink other hother => ?_⟩
    have hold : link ≤ b.host.lastLink := h.known link hlink
    have hnew : other = b.host.lastLink + 1 := List.mem_singleton.mp hother
    omega
  known := by
    intro link hlink
    rw [variableLinks, List.map_append] at hlink
    rcases List.mem_append.mp hlink with hlink | hlink
    · have hold : link ≤ b.host.lastLink := h.known link hlink
      exact Nat.le_trans (Nat.le_succ_of_le hold) (Nat.le_of_eq hlast.symm)
    · exact Nat.le_of_eq ((List.mem_singleton.mp hlink).trans hlast.symm)
  disarmed := by
    intro hooks hhooks
    rw [List.map_append] at hhooks
    rcases List.mem_append.mp hhooks with hhooks | hhooks
    · exact h.disarmed hooks hhooks
    · exact List.mem_singleton.mp hhooks

theorem Follows.step (h : Follows b record) (hx : StatementStep b x b') : Follows b' (record ++ [x]) := by
  cases hx with
  | nothing hbound hasked => exact h.nothing hbound hasked
  | asks name label hbound hasked => exact h.asks hbound hasked
  | binds name host handle hbound hasked hlast => exact h.binds hbound hasked hlast

theorem follows_empty (h : b.vars = []) : Follows b [] where
  names := by simp [Binding.boundNames, h, ExternalWord.boundNames]
  labels := by
    intro name label
    simp [named?, h, not_asksLast_nil]
  links := by simp [variableLinks, h]
  known := by simp [variableLinks, h]
  disarmed := by simp [h]

end Binding

namespace ScriptState

open Binding (StatementStep)

variable {κ μ : Type} {s : ScriptState κ}

/-- An action handles a statement: one that it accepts binds its name, asks for its label or does nothing, and one
that it refuses does nothing. -/
structure Handles (s : ScriptState κ) (x : ExternalWord × String) (m : ScriptAction κ Bool) : Prop where
  accepted : (m s).1 = true → StatementStep s.binding x (m s).2.binding
  refused : (m s).1 = false → (m s).2.binding = s.binding

theorem Handles.refuse (x : ExternalWord × String) : s.Handles x (pure false) := ⟨nofun, fun _ => rfl⟩

theorem Handles.accept {x : ExternalWord × String} {α : Type} {m : ScriptAction κ α}
    (h : StatementStep s.binding x (m s).2.binding) : s.Handles x (do let _ ← m; return true) := ⟨fun _ => h, nofun⟩

theorem Handles.look {x : ExternalWord × String} {k : ScriptState κ → ScriptAction κ Bool} (h : s.Handles x (k s)) :
    s.Handles x (get >>= k) := ⟨h.accepted, h.refused⟩

/-- Binding a name to the next link is what a statement that binds it does. -/
theorem bindVariable_step {x : ExternalWord × String} {name : String} {host : Host}
    (hname : ExternalWord.boundName? x = some name) (hasked : ExternalWord.asked? x = none)
    (hlast : host.lastLink = s.host.lastLink + 1) :
    StatementStep s.binding x
      (Binding.bindVariable (some name) (s.host.lastLink + 1) (s.setHost host)).2.binding :=
  .binds name host _ hname hasked hlast

theorem importStatement_handles (text : String) : s.Handles (.import_, text) (Binding.importStatement text) := by
  unfold Binding.importStatement
  split
  · exact .refuse _
  · rename_i name id hcut
    refine .look ?_
    split
    · exact .refuse _
    · have hname : ExternalWord.boundName? (.import_, text) = some (Text.trim name) := by
        rw [ExternalWord.boundName?, hcut]
        rfl
      exact ⟨fun _ => .binds (Text.trim name) _ _ hname rfl rfl, nofun⟩

theorem exportStatement_handles (text : String) : s.Handles (.export_, text) (Binding.exportStatement text) := by
  have hname : ExternalWord.boundName? (.export_, text) =
      some (Text.trim ((Text.cut ',' text).getD (text, "")).1) := rfl
  unfold Binding.exportStatement
  revert hname
  generalize (Text.cut ',' text).getD (text, "") = parts
  obtain ⟨name, csv⟩ := parts
  intro hname
  dsimp only at hname ⊢
  generalize Text.trim csv = csv
  refine .look ?_
  split
  · exact .refuse _
  · cases hr : (s.host.exportVariable csv).2 with
    | error e =>
      constructor <;> rw [onHost_bind, hr, Host.exportVariable_fails hr]
      · exact nofun
      · exact fun _ => rfl
    | ok link =>
      obtain ⟨rfl, hlast, -⟩ := Host.exportVariable_ok hr
      have hbinds := bindVariable_step hname rfl hlast
      constructor <;> rw [onHost_bind, hr]
      · exact fun _ => hbinds
      · exact nofun

theorem onChangeStatement_step (text : String) :
    StatementStep s.binding (.onChange, text) (Binding.onChangeStatement text s).2.binding := by
  have hasked : ExternalWord.asked? (.onChange, text) = Binding.readOnChange text := rfl
  unfold Binding.onChangeStatement
  cases hread : Binding.readOnChange text with
  | none => exact .nothing rfl (hasked.trans hread)
  | some asked => exact .asks asked.1 asked.2 rfl (hasked.trans hread)

/-- Every statement is handled. -/
theorem statement_handles (x : ExternalWord) (text : String) : s.Handles (x, text) (Binding.statement x text) := by
  cases x with
  | extern_ => exact ⟨fun _ => .nothing rfl rfl, nofun⟩
  | import_ => exact importStatement_handles text
  | export_ => exact exportStatement_handles text
  | onChange => exact .accept (onChangeStatement_step text)

theorem records_follow [NativeObject κ μ] (registry : Registry κ) :
    Compiler.Records (declarations registry) fun s : ScriptState κ => s.binding.Follows where
  declare _ _ hs := hs
  accepted {s} _ x text hs hx := hs.step ((statement_handles x text).accepted hx)
  refused {s} record x text hs hx := by
    have hkept : (Binding.statement x text s).2.binding = s.binding := (statement_handles x text).refused hx
    exact hkept ▸ hs

end ScriptState

/-! ## Linking -/

namespace Binding

/-- The bindings call the labels that they ask for, and all of these exist. -/
structure Labelled (program : Program) (b b' : Binding) : Prop where
  vars : b'.vars = b.vars.map (linkLabel program)
  labels : ∀ v ∈ b.vars, ∀ label, v.changeLabel = some label → (program.labelIp? label).isSome

theorem Labelled.named {program : Program} {b b' : Binding} (h : Labelled program b b') (name : String) :
    b'.named? name = (b.named? name).map (linkLabel program) := by
  have hname : ∀ v, (linkLabel program v).name = v.name := ScriptState.linkLabel_same (fun _ _ => rfl) program
  simp only [named?, h.vars, List.find?_map, Function.comp_def, hname]

theorem Labelled.links {program : Program} {b b' : Binding} (h : Labelled program b b') :
    b'.variableLinks = b.variableLinks := by
  rw [variableLinks, h.vars]
  exact ScriptState.linkLabel_links program b.vars

/-- A name that asks for a label calls it. -/
theorem Labelled.asked {program : Program} {b b' : Binding} (h : Labelled program b b') {name label : String}
    (hasked : (b.named? name).bind (·.changeLabel) = some label) :
    ∃ v ip, b'.named? name = some v ∧ program.labelIp? label = some ip ∧ v.hooks.get .value = ip := by
  obtain ⟨v, hv, hlabel⟩ := Option.bind_eq_some_iff.mp hasked
  obtain ⟨ip, hip⟩ := Option.isSome_iff_exists.mp (h.labels v (List.mem_of_find?_eq_some hv) label hlabel)
  refine ⟨linkLabel program v, ip, by rw [h.named, hv]; rfl, hip, ?_⟩
  rw [linkLabel, hlabel]
  simp only [hip]
  rfl

/-- A name that asks for nothing keeps its hooks. -/
theorem Labelled.unasked {program : Program} {b b' : Binding} (h : Labelled program b b') {name : String}
    (hnone : (b.named? name).bind (·.changeLabel) = none) {v : VariableBinding} (hv : b'.named? name = some v) :
    v ∈ b.vars := by
  rw [h.named] at hv
  obtain ⟨w, hw, rfl⟩ := Option.map_eq_some_iff.mp hv
  rw [hw] at hnone
  have hkept : linkLabel program w = w := by
    rw [linkLabel, show w.changeLabel = none from hnone]
  exact hkept.symm ▸ List.mem_of_find?_eq_some hw

/-- Only the labels of the program matter. -/
theorem Labelled.of_labels {program program' : Program} {b b' : Binding} (h : Labelled program b b')
    (hlabels : program'.labels = program.labels) : Labelled program' b b' := by
  have hip : program'.labelIp? = program.labelIp? :=
    funext fun label => by rw [Program.labelIp?, hlabels, Program.labelIp?]
  refine ⟨h.vars.trans (List.map_congr_left fun v _ => ?_), fun v hv label hlabel => hip ▸ h.labels v hv label hlabel⟩
  rw [linkLabel, linkLabel, hip]

theorem link_labelled {κ : Type} {s t : ScriptState κ} (h : Binding.link s = (.ok (), t)) :
    Labelled s.program s.binding t.binding ∧ t.program = s.program := by
  have hbinding : (linkParameters s.binding.parameters s).2.binding = s.binding :=
    ScriptState.linkParameters_binding _
  have hprogram : (linkParameters s.binding.parameters s).2.program = s.program :=
    (linkParameters_carries _).keeps_objects (fun _ _ => rfl) (fun _ _ => rfl) s
  have hfound := link_found.mp (congrArg Prod.fst h)
  obtain ⟨output, hlink⟩ := link_eq s
  rw [h] at hlink
  have hvars : t.binding.vars = (linkParameters s.binding.parameters s).2.binding.vars.map
      (linkLabel (linkParameters s.binding.parameters s).2.program) := congrArg (·.binding.vars) hlink
  rw [hbinding, hprogram] at hvars hfound
  refine ⟨⟨hvars, fun v hv label hlabel => ?_⟩, (congrArg (·.program) hlink).trans hprogram⟩
  have hkept := List.filter_eq_nil_iff.mp hfound label (List.mem_filterMap.mpr ⟨v, hv, hlabel⟩)
  simpa [Option.isSome_iff_ne_none] using hkept

end Binding

/-- A compiled script calls what its statements ask for, and the labels are those of its program. -/
theorem Interpreter.compile_labelled {κ μ : Type} [NativeObject κ μ] {i : Interpreter κ} {source : String}
    (h : (i.compile source).2 = .done) :
    ∃ b, b.Follows (i.statements source) ∧
      Binding.Labelled (i.compile source).1.script.program b (i.compile source).1.script.binding := by
  obtain ⟨program, s, t, linked, hdeclared, hbound, hlinked, hbegun⟩ := compile_done_stages h
  have hclear : i.clear.script.binding.Follows [] := Binding.follows_empty rfl
  have hfollows := (Compiler.compile_records (ScriptState.records_follow i.registry) source hclear).2
  rw [hdeclared] at hfollows
  obtain ⟨hlabelled, hprogram⟩ := Binding.link_labelled hbound
  have hlabels : linked.labels = program.labels :=
    (congrArg (·.1.labels) hlinked).symm.trans (congrArg (·.labels) hprogram)
  obtain ⟨main, output, hbegin⟩ := begin_eq { i.clear with script := { t with program := linked } }
  rw [hbegun, hbegin]
  exact ⟨s.binding, hfollows, hlabelled.of_labels hlabels⟩

/-! ## Calling -/

namespace Binding

theorem valueHook_of_mem {b : Binding} (hlinks : b.variableLinks.Nodup) {v : VariableBinding} (hv : v ∈ b.vars) :
    b.valueHook? v.link = some (v.hooks.get .value) := by
  unfold variableLinks at hlinks
  unfold valueHook? valueHooks
  revert hlinks hv
  generalize b.vars = vars
  intro hlinks hv
  induction vars with
  | nil => cases hv
  | cons w vars ih =>
    obtain ⟨hw, hlinks⟩ := List.nodup_cons.mp hlinks
    rcases List.mem_cons.mp hv with rfl | hv
    · simp
    · have hne : w.link ≠ v.link := fun he => hw (List.mem_map.mpr ⟨v, hv, he.symm⟩)
      simpa [hne] using ih hlinks hv

/-- A change of the variable is answered at the position that its link calls. -/
theorem hookFor_valueHook {b : Binding} {link : Nat} {ip : Int} (h : b.valueHook? link = some ip) (hip : 0 < ip) :
    b.hookFor? ⟨link, .valueChange⟩ = some ip := by
  rw [valueHook?, valueHooks, List.find?_map, Option.map_map] at h
  obtain ⟨v, hv, hvalue⟩ := Option.map_eq_some_iff.mp h
  have hfound : b.vars.find? (·.link = link) = some v := hv
  have harmed : v.hooks.armed? .value = some ip := by
    rw [HookSlots.armed?, show v.hooks.get .value = ip from hvalue]
    exact if_pos hip
  rw [hookFor?, hfound]
  exact harmed

end Binding

open ScriptState

variable {κ μ : Type} [NativeObject κ μ]

/-- What the application does to the host, and the parameters that it adds, leave the rest of the binding alone. -/
def Operation.LeavesBinding : Operation → Prop
  | .changeBinding f => ∀ b, ∃ host more, f b = { b with host := host, parameters := b.parameters ++ more }
  | _ => True

omit [NativeObject κ μ] in
/-- No use sets what statements asked for. -/
theorem ScriptState.deed_ne_settles (s : ScriptState κ) (x : ScriptId μ) (a : Access) :
    s.deed? x a ≠ some .settles := by
  have hmember : ∀ link m, s.memberDeed? link m a ≠ some .settles := by
    intro link m
    unfold memberDeed?
    split
    · nofun
    · split <;> nofun
    · split <;> nofun
    · nofun
  unfold deed?
  split
  · intro h
    obtain ⟨v, -, hv⟩ := Option.map_eq_some_iff.mp h
    cases hv
  · split
    · exact hmember _ _
    · nofun
  · nofun

/-- A script with its program, after some effects: unless one of them sets another one, the position that a link calls
is still the same. -/
structure StillCalls (program : Program) (link : Nat) (ip : Int) (s : ScriptState κ) (es : List (Effect κ μ)) :
    Prop where
  program : s.program = program
  known : s.arena.All s.binding.Knows
  hook : (∀ e ∈ es, e.deed? ≠ some (.hooks link)) → s.binding.valueHook? link = some ip

namespace StillCalls

variable {program : Program} {link : Nat} {ip : Int} {s t : ScriptState κ} {es : List (Effect κ μ)}

omit [NativeObject κ μ] in
theorem quiet (h : StillCalls program link ip s es) (hc : s.Changes none t) (hp : t.program = s.program) :
    StillCalls program link ip t es :=
  ⟨hp.trans h.program, hc.known h.known, fun hnone => hc.step.valueHook (h.hook hnone) nofun nofun⟩

omit [NativeObject κ μ] in
theorem effect (h : StillCalls program link ip s es) (use : Use μ) (hc : s.Changes (Effect.mk s use t).deed? t)
    (hp : t.program = s.program) (hsettles : (Effect.mk s use t).deed? ≠ some .settles) :
    StillCalls program link ip t (es ++ [⟨s, use, t⟩]) := by
  refine ⟨hp.trans h.program, hc.known h.known, fun hnone => ?_⟩
  rw [List.forall_mem_append, List.forall_mem_singleton] at hnone
  exact hc.step.valueHook (h.hook hnone.1) hnone.2 hsettles

theorem lasting (program : Program) (link : Nat) (ip : Int) (registry : Registry κ) :
    Interpreter.Lasting (μ := μ) registry (StillCalls program link ip) where
  access s _ i a h _ :=
    h.effect (.access i a) (access_does registry h.known i a) (access_stays registry i a s).program
      (deed_ne_settles s i a)
  release _ _ o h := h.effect (.release o) (release_changes registry o) rfl nofun
  world _ _ _ hst hp h := h.quiet (.of_world hst) hp

omit [NativeObject κ μ] in
theorem keeps {op : Operation} (hop : op.LeavesBinding) : op.Keeps (StillCalls (μ := μ) (κ := κ) program link ip) := by
  cases op with
  | changeBinding f =>
    intro s es h
    obtain ⟨host, more, hf⟩ := hop s.binding
    have hbinding : (s.modifyBinding f).binding =
        { s.binding with host := host, parameters := s.binding.parameters ++ more } := hf
    refine ⟨h.program, ?_, fun hnone => ?_⟩
    · rw [hbinding]
      exact h.known.mono (Binding.knows_grown host more)
    · rw [hbinding]
      exact h.hook hnone
  | _ => trivial

/-- What any operations leave of a script that was just compiled. -/
theorem run {j k : Interpreter κ} (h : StillCalls program link ip j.script ([] : List (Effect κ μ)))
    {ops : List Operation} (hops : ∀ op ∈ ops, op.LeavesBinding) (hrun : Operation.run j ops = some k) :
    StillCalls program link ip k.script (Operation.runEffects (μ := μ) j ops) := by
  have hlasts := Operation.run_lasts (lasting program link ip j.registry) ⟨rfl, h⟩ ops fun op hop => keeps (hops op hop)
  rw [hrun] at hlasts
  exact hlasts.2

/-- An event of the link calls the label at the position. -/
theorem deliver {k : Interpreter κ} (h : StillCalls program link ip k.script es)
    (hnone : ∀ e ∈ es, e.deed? ≠ some (.hooks link)) {label : String} (hlabel : program.labelIp? label = some ip)
    (hip : 0 < ip) (hready : k.script.phase = .ready) (limit : Nat) :
    k.deliver limit ⟨link, .valueChange⟩ = k.callLabel limit label k.script.stepMode := by
  unfold Interpreter.deliver Interpreter.callLabel
  rw [hready, if_neg nofun, Binding.hookFor_valueHook (h.hook hnone) hip, h.program, hlabel]

end StillCalls

/-- The last label that a source asks for, for a name that it has bound, is there when the source compiles, and the
binding keeps its position. If that is positive, a change of the variable calls the label from then on whenever
the script is ready, unless the script itself sets another position. A name that no label is asked for is told of no
change. -/
theorem change_labels_called {i : Interpreter κ} {source : String} (h : (i.compile source).2 = .done) :
    (∀ name label, AsksLast (i.statements source) name label →
      ∃ v ip, (i.compile source).1.script.binding.named? name = some v ∧
        (i.compile source).1.script.program.labelIp? label = some ip ∧ v.hooks.get .value = ip ∧
        (0 < ip → ∀ ops k, (∀ op ∈ ops, op.LeavesBinding) → Operation.run (i.compile source).1 ops = some k →
          (∀ e ∈ Operation.runEffects (i.compile source).1 ops, e.deed? ≠ some (.hooks v.link)) →
            k.script.phase = .ready → ∀ limit,
              k.deliver limit ⟨v.link, .valueChange⟩ = k.callLabel limit label k.script.stepMode)) ∧
      ∀ name v, (i.compile source).1.script.binding.named? name = some v →
        (∀ label, ¬AsksLast (i.statements source) name label) → v.hooks.armed? .value = none := by
  obtain ⟨b, hfollows, hlabelled⟩ := Interpreter.compile_labelled h
  refine ⟨fun name label hlast => ?_, fun name v hnamed hnone => ?_⟩
  · obtain ⟨v, ip, hnamed, hlabel, hhook⟩ := hlabelled.asked ((hfollows.labels name label).mpr hlast)
    have hlinks : (i.compile source).1.script.binding.variableLinks.Nodup := hlabelled.links ▸ hfollows.links
    have hvalue : (i.compile source).1.script.binding.valueHook? v.link = some ip :=
      hhook ▸ Binding.valueHook_of_mem hlinks (List.mem_of_find?_eq_some hnamed)
    have hstarts : StillCalls (i.compile source).1.script.program v.link ip (i.compile source).1.script
        ([] : List (Effect κ μ)) :=
      ⟨rfl, compile_known i source (not_running_of_compiled h), fun _ => hvalue⟩
    refine ⟨v, ip, hnamed, hlabel, hhook, fun hip ops k hops hrun hkept hready limit => ?_⟩
    exact (hstarts.run hops hrun).deliver hkept hlabel hip hready limit
  · -- it was disarmed when it was bound, and linking changes the hooks of those that ask only
    have hunasked : (b.named? name).bind (·.changeLabel) = none :=
      Option.eq_none_iff_forall_ne_some.mpr fun label hasked => hnone label ((hfollows.labels name label).mp hasked)
    rw [hfollows.disarmed v.hooks (List.mem_map_of_mem (hlabelled.unasked hunasked hnamed))]
    rfl

/-- A script that is told of the changes of an imported variable. -/
theorem imported_change_called :
    let i : Interpreter Empty := .new .empty true 0
    let source := "import X,1; on_change X L; int n; return; :main; return; :L; n = n + 1; return;"
    let ops := [Operation.execute 100 .init]
    (i.compile source).2 = .done ∧ AsksLast (i.statements source) "X" "L" ∧
      ∃ v k, (i.compile source).1.script.binding.named? "X" = some v ∧
        Operation.run (i.compile source).1 ops = some k ∧ k.script.phase = .ready ∧
        k.deliver 100 ⟨v.link, .valueChange⟩ = k.callLabel 100 "L" k.script.stepMode := by
  intro i source ops
  -- evaluated at once, for the source is compiled only once then
  obtain ⟨hdone, hstatements, hposition, hready, hnone⟩ : (i.compile source).2 = .done ∧
      i.statements source = [(.import_, "X,1"), (.onChange, "X L")] ∧
      (i.compile source).1.script.program.labelIp? "L" = some 2 ∧
      (Operation.run (i.compile source).1 ops).map (·.script.phase) = some .ready ∧
      (Operation.runEffects (i.compile source).1 ops).length = 0 := by decide +kernel
  have hlast : AsksLast (i.statements source) "X" "L" :=
    ⟨[(.import_, "X,1")], (.onChange, "X L"), [], hstatements, by decide, by decide, nofun⟩
  obtain ⟨v, ip, hv, hlabel, -, hcalls⟩ := (change_labels_called hdone).1 "X" "L" hlast
  obtain ⟨k, hk, hphase⟩ := Option.map_eq_some_iff.mp hready
  have hip : 0 < ip := by
    rw [← Option.some_inj.mp (hposition.symm.trans hlabel)]
    decide
  have hleaves : ∀ op ∈ ops, op.LeavesBinding := by simp [ops, Operation.LeavesBinding]
  refine ⟨hdone, hlast, v, k, hv, hk, hphase, hcalls hip ops k hleaves hk (fun e he => ?_) hphase 100⟩
  rw [List.length_eq_zero_iff.mp hnone] at he
  cases he

/-- A statement is passed over if it asks for a label for a name that is not bound. A label in the very first position
is asked for, but it is not called. -/
theorem unbound_change_compiles :
    let i : Interpreter Empty := .new .empty true 0
    let source := "on_change X L; return;"
    let first := "import X,1; on_change X L; :L; return;"
    ((i.compile source).2 = .done ∧ i.statements source = [(.onChange, "X L")] ∧
        ((i.compile source).1.script.binding.named? "X").isNone ∧
        (i.compile source).1.script.program.labelIp? "L" = none) ∧
      (i.compile first).2 = .done ∧ i.statements first = [(.import_, "X,1"), (.onChange, "X L")] ∧
        (i.compile first).1.script.program.labelIp? "L" = some 0 ∧
        (Operation.run (i.compile first).1 [.execute 100 .init]).map (fun k =>
          (k.script.phase, (k.deliver 100 ⟨1, .valueChange⟩).map (·.2))) = some (.ready, some false) := by
  decide +kernel

end HostScript
