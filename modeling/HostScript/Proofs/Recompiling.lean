import HostScript.Proofs.Bindings
/-!
# Compiling forgets what was before

Clearing a script leaves some of what it was: the time, the output, the environment, the host with what
it holds. Of these the compiler sees which host variables are defined, since a variable is exported only
once, and the names of the parameters. So a source compiles in an interpreter that has done anything before
as it does in a new one, on a host that defines the same variables: it gives the same program with the same
variables, or fails with the same error at the same place.
-/

set_option autoImplicit false

namespace HostScript

open ScriptState

/-! ## What the compiler sees -/

/-- Both hosts define the variables of the same ids. -/
def Host.DefinesAlike (host host' : Host) : Prop := ∀ id, host.vars.contains id = host'.vars.contains id

/-- The name that a variable of the host is bound under, and the label that is called when it changes. -/
def VariableBinding.asks (v : VariableBinding) : Option String × Option String := (v.name, v.changeLabel)

/-- What compiling has to do with in a script, its host apart. -/
structure ScriptView where
  program : Program
  vars : List ScriptVariable
  bound : Bool
  listing : Bool
  phase : Phase
  compilePos : SourcePos
  asked : List (Option String × Option String)
  parameters : List String

def ScriptState.view {κ : Type} (s : ScriptState κ) : ScriptView where
  program := s.program
  vars := s.vars
  bound := s.bound
  listing := s.listing
  phase := s.phase
  compilePos := s.compilePos
  asked := s.binding.vars.map VariableBinding.asks
  parameters := s.binding.parameters.map (·.name)

/-- The scripts look the same to the compiler. They may have written something before, and have written the same
since. -/
structure SameView {κ : Type} (before before' : Array String) (s t : ScriptState κ) : Prop where
  view : s.view = t.view
  defined : s.host.DefinesAlike t.host
  written : ∃ lines : List String, s.output = before ++ lines.toArray ∧ t.output = before' ++ lines.toArray

theorem Directory.contains_keys {κ α : Type} [DecidableEq κ] {d d' : Directory κ α}
    (h : d.entries.map (·.1) = d'.entries.map (·.1)) (key : κ) : d.contains key = d'.contains key := by
  have hkeys (d : Directory κ α) : d.contains key = (d.entries.map (·.1)).any (· = key) := by
    rw [contains, find?, Option.isSome_map, List.isSome_find?, List.any_map]
    rfl
  rw [hkeys, hkeys, h]

namespace Host

variable {host host' : Host}

theorem DefinesAlike.defineVariable (h : host.DefinesAlike host') (csv : String) :
    (host.defineVariable csv).2 = (host'.defineVariable csv).2 ∧
      (host.defineVariable csv).1.DefinesAlike (host'.defineVariable csv).1 := by
  have hresult : (host.defineVariable csv).2 = (host'.defineVariable csv).2 := by
    unfold Host.defineVariable
    cases VariableDefinition.parse csv with
    | error e => rfl
    | ok d =>
      dsimp only
      unfold Host.insertVariable
      rw [h d.id]
      split
      · rfl
      · rfl
  refine ⟨hresult, fun x => ?_⟩
  rw [Bool.eq_iff_iff, defineVariable_contains, defineVariable_contains, hresult, h x]

/-- A definition is refused by both hosts, or by none. -/
theorem DefinesAlike.exportVariable (h : host.DefinesAlike host') (csv : String) :
    (host.exportVariable csv).2.isOk = (host'.exportVariable csv).2.isOk ∧
      (host.exportVariable csv).1.DefinesAlike (host'.exportVariable csv).1 := by
  obtain ⟨hresult, hdefined⟩ := h.defineVariable csv
  constructor
  · unfold Host.exportVariable
    revert hresult
    rcases host.defineVariable csv with ⟨_, e | id⟩ <;> rcases host'.defineVariable csv with ⟨_, e' | id'⟩
    · exact fun _ => rfl
    · exact nofun
    · exact nofun
    · exact fun _ => rfl
  · intro x
    rw [exportVariable_vars, exportVariable_vars]
    exact hdefined x

end Host

namespace SameView

variable {κ μ : Type} {before before' : Array String} {s t : ScriptState κ}

/-! ## Names -/

theorem indexOf_map {α : Type} (nameOf : α → Option String) (name : String) (entries : List α) :
    indexOf? nameOf name entries = (entries.map nameOf).findIdx? (· == some name) := by
  rw [indexOf?, List.findIdx?_map]
  rfl

theorem findName (h : SameView before before' s t) (name : String) :
    (findName? s name : Option (Identifier (ScriptId μ))) = findName? t name := by
  have hnames : s.binding.vars.map (·.name) = t.binding.vars.map (·.name) := by
    have hasked := congrArg (fun view => view.asked.map Prod.fst) h.view
    rwa [ScriptState.view, ScriptState.view, List.map_map, List.map_map] at hasked
  have hparameters : s.binding.parameters.map (some ·.name) = t.binding.parameters.map (some ·.name) := by
    have hnames := congrArg (fun view => view.parameters.map some) h.view
    rwa [ScriptState.view, ScriptState.view, List.map_map, List.map_map] at hnames
  have hbound : s.bound = t.bound := congrArg ScriptView.bound h.view
  have hvars : s.vars = t.vars := congrArg ScriptView.vars h.view
  have hprogram : s.program = t.program := congrArg ScriptView.program h.view
  unfold findName? findHostName? findOwnName?
  rw [hbound, hvars, hprogram, indexOf_map _ _ s.binding.vars, indexOf_map _ _ t.binding.vars, hnames,
    indexOf_map _ _ s.binding.parameters, indexOf_map _ _ t.binding.parameters, hparameters]

theorem meaning [NativeObject κ μ] (h : SameView before before' s t) (registry : Registry κ) (name : String) :
    (declarations registry).meaning s name = (declarations registry).meaning t name := by
  have hfind : (engine registry).find? s name = (engine registry).find? t name := by
    have hscope : (scope registry).find? s name = (scope registry).find? t name := h.findName name
    unfold Engine.find? engine
    dsimp only
    rw [hscope]
  unfold declarations
  dsimp only
  rw [hfind]

theorem named (h : SameView before before' s t) (name : String) :
    (s.binding.named? name).isSome = (t.binding.named? name).isSome := by
  have hasked (s : ScriptState κ) : (s.binding.named? name).isSome = s.view.asked.any (·.1 == some name) := by
    rw [Binding.named?, List.isSome_find?, ScriptState.view, List.any_map]
    rfl
  rw [hasked, hasked, h.view]

/-! ## Statements -/

/-- A variable is bound, on hosts that may have got another one. -/
theorem bindVariable (h : SameView before before' s t) {host host' : Host} (hhosts : host.DefinesAlike host')
    (name : Option String) (link link' : Nat) :
    SameView before before' (Binding.bindVariable name link (s.setHost host)).2
      (Binding.bindVariable name link' (t.setHost host')).2 := by
  have hview (s : ScriptState κ) (host : Host) (link : Nat) :
      (Binding.bindVariable name link (s.setHost host)).2.view =
        { s.view with asked := s.view.asked ++ [(name, none)] } := by
    have hvars : (Binding.bindVariable name link (s.setHost host)).2.binding.vars.map VariableBinding.asks =
        s.binding.vars.map VariableBinding.asks ++ [(name, none)] := List.map_append
    exact congrArg (fun asked => { s.view with asked := asked }) hvars
  refine ⟨?_, hhosts, h.written⟩
  rw [hview, hview, h.view]

/-- The two actions give the same here, and leave scripts with the same view. -/
def Agrees {α : Type} (before before' : Array String) (s t : ScriptState κ) (m m' : ScriptAction κ α) : Prop :=
  (m s).1 = (m' t).1 ∧ SameView before before' (m s).2 (m' t).2

namespace Agrees

variable {α : Type} {m m' n n' : ScriptAction κ α} {k k' : ScriptState κ → ScriptAction κ α}

theorem pure (h : SameView before before' s t) (a : α) : Agrees before before' s t (pure a) (pure a) := ⟨rfl, h⟩

theorem bind {β : Type} {k k' : α → ScriptAction κ β} (hm : Agrees before before' s t m m')
    (hk : ∀ a s t, SameView before before' s t → Agrees before before' s t (k a) (k' a)) :
    Agrees before before' s t (m >>= k) (m' >>= k') := by
  obtain ⟨hanswer, hview⟩ := hm
  change (k (m s).1 (m s).2).1 = (k' (m' t).1 (m' t).2).1 ∧
    SameView before before' (k (m s).1 (m s).2).2 (k' (m' t).1 (m' t).2).2
  rw [← hanswer]
  exact hk _ _ _ hview

theorem look (h : Agrees before before' s t (k s) (k' t)) : Agrees before before' s t (get >>= k) (get >>= k') := h

theorem ite {c : Prop} [Decidable c] (hm : Agrees before before' s t m m') (hn : Agrees before before' s t n n') :
    Agrees before before' s t (if c then m else n) (if c then m' else n') := by
  split
  · exact hm
  · exact hn

end Agrees

theorem importStatement (h : SameView before before' s t) (text : String) :
    Agrees before before' s t (Binding.importStatement text) (Binding.importStatement text) := by
  unfold Binding.importStatement
  split
  · exact .pure h false
  · refine .look ?_
    rw [h.named]
    refine .ite (.pure h false) ?_
    -- a link is made on both hosts, which says nothing of the variables that are defined
    have hdefined (id : Int64) : (s.host.importVariable id).1.DefinesAlike (t.host.importVariable id).1 := h.defined
    exact ⟨rfl, h.bindVariable (hdefined _) _ _ _⟩

theorem exportStatement (h : SameView before before' s t) (text : String) :
    Agrees before before' s t (Binding.exportStatement text) (Binding.exportStatement text) := by
  unfold Binding.exportStatement
  generalize (Text.cut ',' text).getD (text, "") = parts
  obtain ⟨name, csv⟩ := parts
  dsimp only
  generalize Text.trim csv = csv
  refine .look ?_
  rw [h.named]
  refine .ite (.pure h false) ?_
  unfold Agrees
  rw [onHost_bind, onHost_bind]
  obtain ⟨hanswer, hdefined⟩ := h.defined.exportVariable csv
  have hsame := @Host.exportVariable_fails s.host csv
  have hsame' := @Host.exportVariable_fails t.host csv
  revert hanswer hdefined hsame hsame'
  rcases s.host.exportVariable csv with ⟨host, e | link⟩ <;> rcases t.host.exportVariable csv with ⟨host', e' | link'⟩
  · -- both refuse the definition, and stay as they are
    intro _ _ hsame hsame'
    obtain rfl : host = s.host := hsame rfl
    obtain rfl : host' = t.host := hsame' rfl
    exact ⟨rfl, h⟩
  · intro hanswer
    cases hanswer
  · intro hanswer
    cases hanswer
  · intro _ hdefined _ _
    exact ⟨rfl, h.bindVariable hdefined _ _ _⟩

/-- Labels are stored with the same names. -/
theorem setChangeLabel_asks (name label : String) {vars vars' : List VariableBinding}
    (h : vars.map VariableBinding.asks = vars'.map VariableBinding.asks) :
    (Binding.setChangeLabel name label vars).map VariableBinding.asks =
      (Binding.setChangeLabel name label vars').map VariableBinding.asks := by
  induction vars generalizing vars' with
  | nil =>
    obtain rfl := List.map_eq_nil_iff.mp h.symm
    rfl
  | cons v vars ih =>
    cases vars' with
    | nil => cases h
    | cons v' vars' =>
      obtain ⟨hv, hrest⟩ := List.cons.inj h
      have hname : v.name = v'.name := congrArg Prod.fst hv
      unfold Binding.setChangeLabel
      rw [hname]
      split
      · exact congrArg ((v'.name, some label) :: ·) hrest
      · exact List.cons_eq_cons.mpr ⟨hv, ih hrest⟩

theorem onChangeStatement (h : SameView before before' s t) (text : String) :
    Agrees before before' s t (Binding.onChangeStatement text) (Binding.onChangeStatement text) := by
  unfold Binding.onChangeStatement
  split
  · exact .pure h ()
  · rename_i name label _
    refine ⟨rfl, ?_, h.defined, h.written⟩
    have hvars := setChangeLabel_asks name label (congrArg ScriptView.asked h.view)
    have hview (s : ScriptState κ) : (s.modifyBinding fun b =>
        { b with vars := Binding.setChangeLabel name label b.vars }).view =
          { s.view with asked := (Binding.setChangeLabel name label s.binding.vars).map VariableBinding.asks } := rfl
    change (s.modifyBinding _).view = (t.modifyBinding _).view
    rw [hview, hview, hvars, h.view]

theorem statement (h : SameView before before' s t) (x : ExternalWord) (text : String) :
    Agrees before before' s t (Binding.statement x text) (Binding.statement x text) := by
  cases x with
  | extern_ => exact .pure h true
  | onChange => exact .bind (h.onChangeStatement text) fun _ _ _ h => .pure h true
  | import_ => exact h.importStatement text
  | export_ => exact h.exportStatement text

/-- In scripts with the same view names mean the same, and go on doing so. -/
theorem declarations_alike [NativeObject κ μ] (registry : Registry κ) (before before' : Array String) :
    Compiler.Alike (declarations registry) (declarations registry)
      (SameView (κ := κ) before before') where
  meaning name h := h.meaning registry name
  declare name ty h :=
    have hview := congrArg (fun view => { view with vars := view.vars ++ [ScriptVariable.mk name (.zero ty)] }) h.view
    ⟨hview, h.defined, h.written⟩
  external {_ _ _ _ x _} text _ _ h := h.statement x text

/-! ## Linking -/

theorem print (h : SameView before before' s t) (line : String) : SameView before before' (s.print line) (t.print line) := by
  obtain ⟨lines, hs, ht⟩ := h.written
  have hpush (before : Array String) : (before ++ lines.toArray).push line = before ++ (lines ++ [line]).toArray := by
    simp
  refine ⟨h.view, h.defined, lines ++ [line], ?_, ?_⟩
  · rw [ScriptState.print, hs, hpush]
  · rw [ScriptState.print, ht, hpush]

theorem printAll (h : SameView before before' s t) (lines : List String) :
    SameView before before' (s.printAll lines) (t.printAll lines) := by
  unfold ScriptState.printAll
  induction lines generalizing s t with
  | nil => exact h
  | cons line lines ih => exact ih (h.print line)

/-- Making the objects of the parameters changes nothing in view. -/
theorem linkParameters (h : SameView before before' s t) {ps ps' : List Parameter}
    (hps : ps.map (·.name) = ps'.map (·.name)) :
    (Binding.linkParameters ps s).1.map (·.name) = (Binding.linkParameters ps' t).1.map (·.name) ∧
      SameView before before' (Binding.linkParameters ps s).2 (Binding.linkParameters ps' t).2 := by
  induction ps generalizing s t ps' with
  | nil =>
    obtain rfl := List.map_eq_nil_iff.mp hps.symm
    exact ⟨rfl, h⟩
  | cons p ps ih =>
    cases ps' with
    | nil => cases hps
    | cons p' ps' =>
      obtain ⟨hp, hps⟩ := List.cons.inj hps
      have hkept : SameView before before' (Binding.keepObject (.variable p.link .parameter) s).2
          (Binding.keepObject (.variable p'.link .parameter) t).2 := ⟨h.view, h.defined, h.written⟩
      obtain ⟨hnames, hview⟩ := ih hkept hps
      exact ⟨List.cons_eq_cons.mpr ⟨hp, hnames⟩, hview⟩

theorem missingLabels_view (s : ScriptState κ) :
    Binding.missingLabels s.program s.binding =
      (s.view.asked.filterMap (·.2)).filter fun label => (s.view.program.labelIp? label).isNone := by
  rw [Binding.missingLabels, ScriptState.view, List.filterMap_map]
  rfl

/-- Arming hooks changes no name and no label that is asked for. -/
theorem linkLabel_view (s : ScriptState κ) (ps : List Parameter) :
    (s.modifyBinding fun b => { b with parameters := ps, vars := b.vars.map (Binding.linkLabel s.program) }).view =
      { s.view with parameters := ps.map Parameter.name } := by
  have hvars : (s.binding.vars.map (Binding.linkLabel s.program)).map VariableBinding.asks =
      s.binding.vars.map VariableBinding.asks := linkLabel_map (fun _ _ => rfl) s.program s.binding.vars
  exact congrArg (fun asked => { s.view with asked := asked, parameters := ps.map Parameter.name }) hvars

theorem link (h : SameView before before' s t) : Agrees before before' s t Binding.link Binding.link := by
  have hparameters := h.linkParameters (congrArg ScriptView.parameters h.view)
  unfold Agrees Binding.link
  simp only [bind, StateT.bind, get, getThe, MonadStateOf.get, StateT.get, pure, set]
  revert hparameters
  rcases Binding.linkParameters s.binding.parameters s with ⟨ps, s'⟩
  rcases Binding.linkParameters t.binding.parameters t with ⟨ps', t'⟩
  rintro ⟨hnames, hview⟩
  dsimp only at hnames hview ⊢
  have hmissing : Binding.missingLabels s'.program s'.binding = Binding.missingLabels t'.program t'.binding := by
    rw [missingLabels_view, missingLabels_view, hview.view]
  rw [hmissing]
  have hlinked : SameView before before'
      (s'.modifyBinding fun b => { b with parameters := ps, vars := b.vars.map (Binding.linkLabel s'.program) })
      (t'.modifyBinding fun b => { b with parameters := ps', vars := b.vars.map (Binding.linkLabel t'.program) }) := by
    refine ⟨?_, hview.defined, hview.written⟩
    rw [linkLabel_view, linkLabel_view, hview.view, hnames]
  generalize Binding.missingLabels t'.program t'.binding = missing
  have hwritten := hlinked.printAll (missing.map fun label => "Label '" ++ label ++ "' NOT found!")
  cases missing with
  | nil => exact ⟨rfl, hwritten⟩
  | cons label labels => exact ⟨rfl, hwritten⟩

end SameView

/-! ## Interpreters -/

namespace Interpreter

variable {κ μ : Type}

/-- The scripts of both interpreters look the same to the compiler, and there is the same error. -/
structure Beside (before before' : Array String) (i j : Interpreter κ) : Prop where
  view : SameView before before' i.script j.script
  errors : i.errors = j.errors

namespace Beside

variable {before before' : Array String} {i j : Interpreter κ}

theorem report (h : Beside before before' i j) (e : ScriptError) : Beside before before' (i.report e) (j.report e) :=
  ⟨h.view, congrArg (·.report e) h.errors⟩

theorem begun (h : Beside before before' i j) : Beside before before' i.begin j.begin := by
  have hbegin (i : Interpreter κ) : i.begin.script =
      let s := { i.script with main := (i.script.program.labelIp? "main").getD (-1) }
      { (if i.script.listing then s.printAll i.script.listingLines else s).setPhase .compiled with ip := -1 } := rfl
  have hlisting : i.script.listing = j.script.listing := congrArg ScriptView.listing h.view.view
  have hlines : i.script.listingLines = j.script.listingLines :=
    congrArg (fun view => (view.vars.map fun v => "VARIABLES: " ++ v.name ++ " " ++ v.value.toStream) ++
      (view.program.labels.map fun l => "LABELS: " ++ l.name ++ " " ++ toString l.ip) ++ view.program.listing) h.view.view
  have hmain : SameView before before' { i.script with main := (i.script.program.labelIp? "main").getD (-1) }
      { j.script with main := (j.script.program.labelIp? "main").getD (-1) } :=
    ⟨h.view.view, h.view.defined, h.view.written⟩
  have hcompiled {s t : ScriptState κ} (h : SameView before before' s t) :
      SameView before before' { s.setPhase .compiled with ip := -1 } { t.setPhase .compiled with ip := -1 } :=
    ⟨congrArg (fun view => { view with phase := .compiled }) h.view, h.defined, h.written⟩
  refine ⟨?_, h.errors⟩
  rw [hbegin, hbegin, hlisting, hlines]
  dsimp only
  split
  · exact hcompiled (hmain.printAll _)
  · exact hcompiled hmain

/-- Both link the program they have compiled, or fail over the same. -/
theorem linked (h : Beside before before' i j) (program : Program) :
    (i.link program).2 = (j.link program).2 ∧ Beside before before' (i.link program).1 (j.link program).1 := by
  have hprogram : SameView before before' { i.script with program := program } { j.script with program := program } :=
    ⟨congrArg (fun view => { view with program := program }) h.view.view, h.view.defined, h.view.written⟩
  obtain ⟨hanswer, hview⟩ := hprogram.link
  unfold Interpreter.link
  revert hanswer hview
  rcases Binding.link { i.script with program := program } with ⟨r, s⟩
  rcases Binding.link { j.script with program := program } with ⟨r', t⟩
  rintro (rfl : r = r') hview
  cases r with
  | error e => exact ⟨rfl, hview, h.errors⟩
  | ok =>
    dsimp only at hview ⊢
    have hst : s.program = t.program := congrArg ScriptView.program hview.view
    rw [hst]
    refine ⟨rfl, ⟨?_, hview.defined, hview.written⟩, h.errors⟩
    exact congrArg (fun view => { view with program := t.program.link.1 }) hview.view

end Beside

variable [NativeObject κ μ] {before before' : Array String} {i j : Interpreter κ}

/-- A source compiles alike for scripts that look the same to the compiler. -/
theorem compile_beside (hi : i.script.phase ≠ .running) (hj : j.script.phase ≠ .running)
    (hregistry : i.registry = j.registry) (h : Beside before before' i.clear j.clear) (source : String) :
    (i.compile source).2 = (j.compile source).2 ∧ Beside before before' (i.compile source).1 (j.compile source).1 := by
  have hdeclared := Compiler.compile_alike (SameView.declarations_alike i.registry before before') source h.view
  rw [compile_eq hi, compile_eq hj, ← hregistry]
  revert hdeclared
  rcases Compiler.compile (declarations i.registry) source i.clear.script with ⟨outcome, s⟩
  rcases Compiler.compile (declarations i.registry) source j.clear.script with ⟨outcome', t⟩
  rintro ⟨(rfl : outcome = outcome'), hview⟩
  dsimp only at hview
  have hdeclared : Beside before before' { i.clear with script := s } { j.clear with script := t } :=
    ⟨hview, h.errors⟩
  cases outcome with
  | beyondSource => exact ⟨rfl, hdeclared⟩
  | rejected e =>
    have hpos := congrArg (fun view => { view with compilePos := e.pos }) hview.view
    have hrejected : Beside before before' { i.clear with script := { s with compilePos := e.pos } }
        { j.clear with script := { t with compilePos := e.pos } } := ⟨⟨hpos, hview.defined, hview.written⟩, h.errors⟩
    exact ⟨rfl, hrejected.report e.error⟩
  | compiled program =>
    obtain ⟨hanswer, hlinked⟩ := hdeclared.linked program
    revert hanswer hlinked
    dsimp only
    rcases Interpreter.link { i.clear with script := s } program with ⟨i', e⟩
    rcases Interpreter.link { j.clear with script := t } program with ⟨j', e'⟩
    rintro (rfl : e = e') hlinked
    cases e with
    | none => exact ⟨rfl, hlinked.begun⟩
    | some e => exact ⟨rfl, hlinked.report e⟩

/-! ## New interpreters -/

/-- A new interpreter on a host, with the host variables that it hands to its scripts. -/
def newOn (registry : Registry κ) (bound listing : Bool) (clock : Micros) (host : Host)
    (parameters : List (String × Int64)) : Interpreter κ :=
  (new registry bound clock).modifyScript fun s =>
    { s with
      listing := listing
      binding := parameters.foldl (fun b (name, id) => b.addParameter name id) { s.binding with host := host } }

theorem addParameters_eq (parameters : List (String × Int64)) (b : Binding) :
    ∃ links lastLink ps, parameters.foldl (fun b (name, id) => b.addParameter name id) b =
      { b with host := { b.host with links := links, lastLink := lastLink }, parameters := b.parameters ++ ps } ∧
        ps.map (·.name) = parameters.map (·.1) := by
  induction parameters generalizing b with
  | nil => exact ⟨b.host.links, b.host.lastLink, [], by rw [List.append_nil]; rfl, rfl⟩
  | cons p parameters ih =>
    obtain ⟨links, lastLink, ps, heq, hnames⟩ := ih (b.addParameter p.1 p.2)
    refine ⟨links, lastLink, ⟨p.1, b.host.lastLink + 1, none⟩ :: ps, ?_, congrArg (p.1 :: ·) hnames⟩
    rw [List.foldl_cons, heq]
    simp [Binding.addParameter, Host.importVariable, Host.addLink]

/-- A source compiles after anything else as it does in a new interpreter with the same registry and parameters of
the same names, on a host that defines variables of the same ids as the host does when the script is cleared. It
compiles or it is refused in both, for the same reason and at the same place; the program, the variables, the bound
names and the phase are the same afterwards, and the same lines have been written. -/
theorem compile_forgets (i : Interpreter κ) (source : String) (clock : Micros) (host : Host)
    (parameters : List (String × Int64)) (hi : i.script.phase ≠ .running)
    (hparameters : parameters.map (·.1) = i.script.binding.parameters.map (·.name))
    (hhost : ∀ id, host.vars.contains id = i.clear.script.host.vars.contains id) :
    let j := newOn i.registry i.script.bound i.script.listing clock host parameters
    (i.compile source).2 = (j.compile source).2 ∧
      (i.compile source).1.errors = (j.compile source).1.errors ∧
      (i.compile source).1.script.compilePos = (j.compile source).1.script.compilePos ∧
      (i.compile source).1.script.program = (j.compile source).1.script.program ∧
      (i.compile source).1.script.vars = (j.compile source).1.script.vars ∧
      (i.compile source).1.script.binding.boundNames = (j.compile source).1.script.binding.boundNames ∧
      (i.compile source).1.script.phase = (j.compile source).1.script.phase ∧
      ∃ lines : List String, (i.compile source).1.script.output = i.script.output ++ lines.toArray ∧
        (j.compile source).1.script.output = lines.toArray := by
  intro j
  obtain ⟨links, lastLink, ps, heq, hnames⟩ :=
    addParameters_eq parameters { (initial i.script.bound clock : ScriptState κ).binding with host := host }
  have hbinding : j.script.binding =
      { host := { host with links := links, lastLink := lastLink }, vars := [], results := [], parameters := ps } := heq
  have hj : j.script.phase ≠ .running := by
    change Phase.empty ≠ _
    decide
  have hcleared : Beside i.script.output #[] i.clear j.clear := by
    have hnames' : i.clear.script.view.parameters = j.clear.script.view.parameters := by
      change (i.script.binding.parameters.map _).map _ = (j.script.binding.parameters.map _).map _
      rw [List.map_map, List.map_map, hbinding]
      exact hparameters.symm.trans hnames.symm
    have hhosts : i.clear.script.host.DefinesAlike j.clear.script.host := by
      intro id
      change _ = j.script.binding.clear.host.vars.contains id
      rw [hbinding]
      exact (hhost id).symm
    refine ⟨⟨?_, hhosts, [], Array.append_empty.symm, rfl⟩, rfl⟩
    exact congrArg (fun names => ScriptView.mk .empty [] i.script.bound i.script.listing .empty ⟨0, 0⟩ [] names) hnames'
  obtain ⟨hcompiled, hview, herrors⟩ := compile_beside hi hj rfl hcleared source
  have hnamed (s : ScriptState κ) : s.binding.boundNames = s.view.asked.filterMap (·.1) := by
    rw [ScriptState.view, List.filterMap_map]
    rfl
  obtain ⟨lines, hlines, hlines'⟩ := hview.written
  refine ⟨hcompiled, herrors, congrArg ScriptView.compilePos hview.view, congrArg ScriptView.program hview.view,
    congrArg ScriptView.vars hview.view, ?_, congrArg ScriptView.phase hview.view, lines, hlines, ?_⟩
  · rw [hnamed, hnamed, hview.view]
  · rw [hlines', Array.empty_append]

/-- A script exports a variable and fails while it runs; another script exports the same one afterwards, as if the
first had never been there. -/
theorem failed_run_forgotten :
    let pump := (Host.empty.defineVariable "0x30,Pump,rpm,,,INTEGER").1
    let first := (newOn (Registry.empty : Registry Empty) true false 0 pump [("P", 0x30)]).compile
      "int a; export V,0x60,Level,,,,INTEGER; V = 7; a = 1 / 0;"
    let source := "string b; export V,0x60,Level,,,,INTEGER; on_change V L; return; :L; b = V; return;"
    ∃ i, (first.1.execute 100 .init).bind (·.execute 100 .run) = some i ∧ i.script.phase = .error ∧
      i.script.host.vars.contains 0x60 ∧ (∀ id, pump.vars.contains id = i.clear.script.host.vars.contains id) ∧
      (i.compile source).2 = .done ∧
      ((newOn i.registry i.script.bound i.script.listing 5 pump [("P", 0x30)]).compile source).2 = .done ∧
      (i.compile source).1.script.program =
        ((newOn i.registry i.script.bound i.script.listing 5 pump [("P", 0x30)]).compile source).1.script.program := by
  intro pump first source
  obtain ⟨i, hrun, hphase, hthere, hkeys, hnames, hdone⟩ :
      ∃ i, (first.1.execute 100 .init).bind (·.execute 100 .run) = some i ∧ i.script.phase = .error ∧
        i.script.host.vars.contains 0x60 ∧
        pump.vars.entries.map (·.1) = i.clear.script.host.vars.entries.map (·.1) ∧
        ["P"] = i.script.binding.parameters.map (·.name) ∧ (i.compile source).2 = .done := by
    have hend : ((first.1.execute 100 .init).bind (·.execute 100 .run)).isSome := by decide +kernel
    refine ⟨((first.1.execute 100 .init).bind (·.execute 100 .run)).getD first.1, ?_, by decide +kernel⟩
    exact (Option.some_get hend).symm.trans (congrArg some (Option.get_eq_getD _))
  have hrunning : i.script.phase ≠ .running := by
    rw [hphase]
    decide
  have hhost := Directory.contains_keys hkeys
  have hforgets := compile_forgets i source 5 pump [("P", 0x30)] hrunning hnames hhost
  exact ⟨i, hrun, hphase, hthere, hhost, hdone, hforgets.1.symm.trans hdone, hforgets.2.2.2.1⟩

end Interpreter

end HostScript
