import HostScript.Proofs.Effects
import HostScript.Proofs.Parametricity
/-!
# What compiling does to a script

The compiler reaches the script it compiles for through its declarations only. So whatever declaring a
variable and handling an external statement preserve, compiling a source preserves. Two things follow: every
variable of a script that was just compiled holds the zero of its declared type, and a script that is not
bound to a host has no objects then.
-/

set_option autoImplicit false

namespace HostScript

namespace Compiler

variable {ξ δ : Type} {decls : Declarations ξ δ} {P : δ → Prop}

/-- Declaring a variable preserves the property, and so does an external statement where it is known. -/
structure Preserves (decls : Declarations ξ δ) (P : δ → Prop) : Prop where
  declare {s : δ} (name : String) (ty : ValueType) : P s → P (decls.declare name ty s)
  external {s t : δ} {x : ξ} {name : String} (text : String) :
    P s → decls.meaning s name = .external x → P t → P (decls.external x text t).1

theorem Preserves.alike (hP : Preserves decls P) : Compiler.Alike decls decls fun s s' => s = s' ∧ P s where
  meaning := by
    rintro s _ name ⟨rfl, -⟩
    rfl
  declare := by
    rintro s _ name ty ⟨rfl, hs⟩
    exact ⟨rfl, hP.declare name ty hs⟩
  external := by
    rintro s t _ _ x name text ⟨rfl, hs⟩ hx ⟨rfl, ht⟩
    exact ⟨rfl, rfl, hP.external text hs hx ht⟩

/-- Compiling preserves what declaring a variable and handling an external statement preserve. -/
theorem compile_declares (hP : Preserves decls P) (source : String) {declared : δ} (h : P declared) :
    P (compile decls source declared).2 := (compile_alike hP.alike source ⟨rfl, h⟩).2.2

end Compiler

open ScriptState

variable {κ μ : Type} [NativeObject κ μ]

/-! ## External statements -/

theorem onChangeStatement_carries (text : String) : Carries (κ := κ) overBinding (Binding.onChangeStatement text) := by
  unfold Binding.onChangeStatement
  split
  · exact .pure _
  · exact modifyBinding_carries _

theorem importStatement_carries (text : String) : Carries (κ := κ) overObjects (Binding.importStatement text) := by
  unfold Binding.importStatement
  split
  · exact .pure _
  · refine .look (fun _ _ => rfl) fun s => ?_
    split
    · exact .pure _
    · exact .bind (onHost_carries _).objects fun _ => .bind (bindVariable_carries _ _) fun _ => .pure _

theorem exportStatement_carries (text : String) : Carries (κ := κ) overObjects (Binding.exportStatement text) := by
  unfold Binding.exportStatement
  generalize (Text.cut ',' text).getD (text, "") = parts
  refine .look (fun _ _ => rfl) fun s => ?_
  split
  · exact .pure _
  · refine .bind (onHost_carries _).objects fun r => ?_
    split
    · exact .pure _
    · exact .bind (bindVariable_carries _ _) fun _ => .pure _

/-- A statement works on the binding, and makes the objects of what it binds. -/
theorem statement_carries (x : ExternalWord) (text : String) :
    Carries (κ := κ) overObjects (Binding.statement x text) := by
  cases x with
  | extern_ => exact .pure _
  | onChange => exact .bind (onChangeStatement_carries text).objects fun _ => .pure _
  | import_ => exact importStatement_carries text
  | export_ => exact exportStatement_carries text

theorem linkParameters_carries (ps : List Parameter) :
    Carries (κ := κ) overObjects (Binding.linkParameters ps) := by
  induction ps with
  | nil => exact .pure _
  | cons p ps ih => exact .bind (keepObject_carries _) fun _ => .bind ih fun _ => .pure _

/-! ## The stages of compiling -/

/-- Writing lines changes the output only. -/
theorem printAll_eq (s : ScriptState κ) (lines : List String) :
    ∃ output, s.printAll lines = { s with output := output } := by
  unfold printAll
  induction lines generalizing s with
  | nil => exact ⟨s.output, rfl⟩
  | cons line lines ih => exact ih (s.print line)

/-- Linking makes the objects of the parameters and sets the hooks that labels were asked for. -/
theorem link_eq (s : ScriptState κ) :
    ∃ output, (Binding.link s).2 =
      { (Binding.linkParameters s.binding.parameters s).2.modifyBinding fun b =>
          { b with
            parameters := (Binding.linkParameters s.binding.parameters s).1
            vars := b.vars.map (Binding.linkLabel (Binding.linkParameters s.binding.parameters s).2.program) } with
        output := output } := by
  unfold Binding.link
  simp only [bind, StateT.bind, get, getThe, MonadStateOf.get, StateT.get, pure, set]
  obtain ⟨ps, t⟩ := Binding.linkParameters s.binding.parameters s
  dsimp only
  cases Binding.missingLabels t.program t.binding <;> exact printAll_eq _ _

/-- Linking succeeds if the program has all labels that were asked for. -/
theorem link_found {s : ScriptState κ} :
    (Binding.link s).1 = .ok () ↔
      Binding.missingLabels (Binding.linkParameters s.binding.parameters s).2.program
        (Binding.linkParameters s.binding.parameters s).2.binding = [] := by
  unfold Binding.link
  simp only [bind, StateT.bind, get, getThe, MonadStateOf.get, StateT.get, pure, set]
  obtain ⟨ps, t⟩ := Binding.linkParameters s.binding.parameters s
  dsimp only
  cases Binding.missingLabels t.program t.binding with
  | nil => exact ⟨fun _ => rfl, fun _ => rfl⟩
  | cons label labels => constructor <;> exact fun h => by cases h

/-- A script begins where it stands before its first instruction. -/
theorem begin_eq (i : Interpreter κ) :
    ∃ main output, i.begin.script =
      { { i.script with main := main, output := output }.setPhase .compiled with ip := -1 } := by
  unfold Interpreter.begin Interpreter.modifyScript
  dsimp only
  split
  · obtain ⟨output, h⟩ := printAll_eq { i.script with main := (i.script.program.labelIp? "main").getD (-1) } _
    exact ⟨_, output, congrArg (fun s => { s.setPhase .compiled with ip := -1 }) h⟩
  · exact ⟨_, _, rfl⟩

theorem compile_eq {i : Interpreter κ} (hi : i.script.phase ≠ .running) (source : String) :
    i.compile source =
      match Compiler.compile (declarations i.registry) source i.clear.script with
      | (.beyondSource, s) => ({ i.clear with script := s }, .beyondSource)
      | (.rejected e, s) =>
        ({ i.clear with script := { s with compilePos := e.pos } }.report e.error, .failed)
      | (.compiled program, s) =>
        match { i.clear with script := s }.link program with
        | (i, some e) => (i.report e, .failed)
        | (i, none) => (i.begin, .done) := by
  unfold Interpreter.compile
  rw [if_neg hi]
  rfl

/-- A running script is not compiled. -/
theorem not_running_of_compiled {i : Interpreter κ} {source : String} (h : (i.compile source).2 = .done) :
    i.script.phase ≠ .running := by
  intro hrunning
  simp [Interpreter.compile, hrunning] at h

/-- The stages of a compiled script: it was declared, bound and linked, and then it began. -/
theorem compile_done_stages {i : Interpreter κ} {source : String} (h : (i.compile source).2 = .done) :
    ∃ program s t linked,
      Compiler.compile (declarations i.registry) source i.clear.script = (.compiled program, s) ∧
        Binding.link { s with program := program } = (.ok (), t) ∧ t.program.link = (linked, none) ∧
        (i.compile source).1 = { i.clear with script := { t with program := linked } }.begin := by
  have hi := not_running_of_compiled h
  rw [compile_eq hi] at h ⊢
  rcases hc : Compiler.compile (declarations i.registry) source i.clear.script with ⟨program | e | _, s⟩
  · simp only [hc, Interpreter.link] at h ⊢
    rcases hl : Binding.link { s with program := program } with ⟨e | _, t⟩
    · simp [hl] at h
    · rcases hp : t.program.link with ⟨linked, _ | e⟩
      · exact ⟨program, s, t, linked, rfl, hl, hp, by simp only [hp]⟩
      · simp [hl, hp] at h
  · simp [hc] at h
  · simp [hc] at h

/-- What declaring and linking keep holds of a compiled script, if it says something of variables, objects, the
binding and the stack only. -/
theorem compile_keeps {P : ScriptState κ → Prop} (i : Interpreter κ) (source : String) (hi : i.script.phase ≠ .running)
    (hP : Compiler.Preserves (declarations i.registry) P) (hlink : ∀ s, P s → P (Binding.link s).2)
    (hquiet : ∀ s t, SameWorld s t → s.stack = t.stack → P s → P t) (h : P i.clear.script) :
    P (i.compile source).1.script := by
  have hdeclared := Compiler.compile_declares hP source h
  rw [compile_eq hi]
  revert hdeclared
  obtain ⟨program | e | _, s⟩ := Compiler.compile (declarations i.registry) source i.clear.script
  · intro hs
    have hlinked : P (Binding.link { s with program := program }).2 :=
      hlink _ (hquiet s _ ⟨⟨rfl, rfl, rfl⟩, rfl⟩ rfl hs)
    unfold Interpreter.link
    revert hlinked
    dsimp only
    obtain ⟨e | _, t⟩ := Binding.link { s with program := program }
    · exact id
    · intro ht
      dsimp only
      obtain ⟨linked, _ | e⟩ := t.program.link
      · obtain ⟨main, output, hbegin⟩ := begin_eq { i.clear with script := { t with program := linked } }
        refine hquiet t _ ?_ ?_ ht <;> rw [hbegin]
        · exact ⟨⟨rfl, rfl, rfl⟩, rfl⟩
        · rfl
      · exact hquiet t _ ⟨⟨rfl, rfl, rfl⟩, rfl⟩ rfl ht
  · exact hquiet s _ ⟨⟨rfl, rfl, rfl⟩, rfl⟩ rfl
  · exact id

/-! ## Variables of a compiled script -/

/-- Every variable holds the zero of a type. -/
def Zeroed (s : ScriptState κ) : Prop := ∀ x ∈ s.vars, ∃ ty, x.value = .zero ty

theorem preserves_zeroed (registry : Registry κ) : Compiler.Preserves (declarations registry) Zeroed where
  declare := by
    intro s name ty h x hx
    rcases List.mem_append.mp hx with hx | hx
    · exact h x hx
    · rw [List.mem_singleton.mp hx]
      exact ⟨ty, rfl⟩
  external := by
    intro s t x name text _ _ h
    have hk : Keeps (fun s : ScriptState κ => s.vars) (Binding.statement x text) :=
      (statement_carries x text).keeps_objects (fun _ _ => rfl) fun _ _ => rfl
    change Zeroed (Binding.statement x text t).2
    rwa [Zeroed, show (Binding.statement x text t).2.vars = t.vars from hk t]

/-- The variables of a script that was just compiled hold the zeros of their declared types. -/
theorem compile_zeroed (i : Interpreter κ) (source : String) (hi : i.script.phase ≠ .running) :
    Zeroed (i.compile source).1.script := by
  refine compile_keeps i source hi (preserves_zeroed _) (fun s hs => ?_) (fun s t hst _ hs => ?_) fun x hx => nomatch hx
  · obtain ⟨output, hlink⟩ := link_eq s
    have hvars : (Binding.linkParameters s.binding.parameters s).2.vars = s.vars :=
      (linkParameters_carries _).keeps_objects (fun _ _ => rfl) (fun _ _ => rfl) s
    rw [hlink]
    exact fun x hx => hs x (hvars ▸ hx)
  · rwa [Zeroed, ← hst.vars]

/-! ## Scripts without a host -/

/-- The script cannot reach a host, has no parameters and no objects. -/
structure Bare (s : ScriptState κ) : Prop where
  bound : s.bound = false
  parameters : s.binding.parameters = []
  arena : s.arena = .empty

/-- The only external statement of a script that is not bound is one that does nothing. -/
theorem external_eq {registry : Registry κ} {s : ScriptState κ} (hs : s.bound = false) {name : String}
    {x : ExternalWord} (h : (declarations registry).meaning s name = .external x) : x = .extern_ := by
  cases hi : (engine registry).find? s name with
  | none => simp [declarations, hi] at h
  | some i =>
    have hx : i.id = .scoped (.external x) := by
      simp only [declarations, hi, meaningOf] at h
      split at h <;> simp_all
    obtain ⟨k, hk, hkx⟩ := Engine.find_scoped hi hx
    rcases findName_cases hs hk with ht | ⟨n, hn⟩ | ⟨n, hn⟩
    · have htable : ∀ k ∈ (ScriptId.table : List (Identifier (ScriptId μ))),
          ∀ x, k.id = .external x → x = .extern_ := by
        simp [ScriptId.table, ScriptId.ofKeyword, ScriptId.ofExternal]
      exact htable k ht x hkx
    · rw [hn] at hkx
      cases hkx
    · rw [hn] at hkx
      cases hkx

theorem preserves_bare (registry : Registry κ) : Compiler.Preserves (declarations registry) Bare where
  declare := fun _ _ h => ⟨h.bound, h.parameters, h.arena⟩
  external := by
    intro s t x name text hs hx ht
    rw [external_eq hs.bound hx]
    exact ht

theorem link_bare {s : ScriptState κ} (hs : Bare s) : Bare (Binding.link s).2 := by
  obtain ⟨output, hlink⟩ := link_eq s
  rw [hlink, hs.parameters]
  exact ⟨hs.bound, rfl, hs.arena⟩

/-- A script that was just compiled has no objects, unless it is bound to a host or has parameters. -/
theorem compile_bare (i : Interpreter κ) (source : String) (hi : i.script.phase ≠ .running)
    (hbound : i.script.bound = false) (hparams : i.script.binding.parameters = []) :
    (i.compile source).1.script.bound = false ∧ (i.compile source).1.script.arena = .empty := by
  have hclear : Bare i.clear.script := ⟨hbound, by simp [Interpreter.clear, Binding.clear, hparams], rfl⟩
  have hworld : ∀ s t : ScriptState κ, SameWorld s t → Bare s → Bare t := fun s t hst hs =>
    have hparams : s.binding.settled.parameters = t.binding.settled.parameters :=
      congrArg Binding.parameters hst.binding
    ⟨hst.bound ▸ hs.bound, hparams.symm.trans hs.parameters, hst.arena ▸ hs.arena⟩
  have hcompiled : Bare (i.compile source).1.script :=
    compile_keeps i source hi (preserves_bare _) (fun _ => link_bare) (fun s t hst _ => hworld s t hst) hclear
  exact ⟨hcompiled.bound, hcompiled.arena⟩

/-! ## The stack of a compiled script -/

theorem preserves_stack (registry : Registry κ) :
    Compiler.Preserves (declarations registry) fun s : ScriptState κ => s.stack = [] where
  declare := fun _ _ hs => hs
  external := by
    intro s t x name text _ _ ht
    have hk : Keeps (fun s : ScriptState κ => s.stack) (Binding.statement x text) :=
      (statement_carries x text).keeps_objects (fun _ _ => rfl) fun _ _ => rfl
    exact (hk t).trans ht

/-- A source is compiled for a script that has nothing to go back to, whatever comes of it. -/
theorem compile_stack (i : Interpreter κ) (source : String) (hi : i.script.phase ≠ .running) :
    (i.compile source).1.script.stack = [] := by
  refine compile_keeps i source hi (preserves_stack _) (fun s hs => ?_) (fun s t _ hstack hs => hstack.symm.trans hs) rfl
  obtain ⟨output, hlink⟩ := link_eq s
  have hk : Keeps (fun s : ScriptState κ => s.stack) (Binding.linkParameters s.binding.parameters) :=
    (linkParameters_carries _).keeps_objects (fun _ _ => rfl) fun _ _ => rfl
  exact (congrArg (·.stack) hlink).trans ((hk s).trans hs)

/-- A script that was compiled has nothing to go back to. -/
theorem compile_done {i : Interpreter κ} {source : String} (h : (i.compile source).2 = .done) :
    (i.compile source).1.script.phase = .compiled ∧ (i.compile source).1.script.stack = [] := by
  refine ⟨?_, compile_stack i source (not_running_of_compiled h)⟩
  obtain ⟨program, s, t, linked, -, -, -, hbegun⟩ := compile_done_stages h
  obtain ⟨main, output, hbegin⟩ := begin_eq { i.clear with script := { t with program := linked } }
  rw [hbegun, hbegin]
  rfl

end HostScript
