import HostScript.Proofs.Stepping
/-!
# What a script only tells

A script tells what it has written, where it failed and why, and how it ended. Nothing that it does depends on
any of this. So two scripts that are the same but for what they tell stay the same, whatever the application does
with them.
-/

set_option autoImplicit false

namespace HostScript

open ScriptState

namespace ScriptState

variable {κ μ α : Type}

/-- The script without what it only tells, and without its instructions being told. -/
def muted (s : ScriptState κ) : ScriptState κ :=
  { s with output := #[], trace := false, errorIp := -1, exitCode := .normal }

/-- The action gives the same for a muted script, and does the same to it. -/
def Unheeding (m : ScriptAction κ α) : Prop :=
  ∀ s, (m s.muted).1 = (m s).1 ∧ (m s.muted).2.muted = (m s).2.muted

theorem Unheeding.eq {m : ScriptAction κ α} (h : Unheeding m) {s t : ScriptState κ} (hst : s.muted = t.muted) :
    (m s).1 = (m t).1 ∧ (m s).2.muted = (m t).2.muted := by
  obtain ⟨hs, hs'⟩ := h s
  obtain ⟨ht, ht'⟩ := h t
  rw [hst] at hs hs'
  exact ⟨hs.symm.trans ht, hs'.symm.trans ht'⟩

theorem Unheeding.bind {β : Type} {m : ScriptAction κ α} {k : α → ScriptAction κ β} (hm : Unheeding m)
    (hk : ∀ a, Unheeding (k a)) : Unheeding (m >>= k) := by
  intro s
  obtain ⟨hresult, hstate⟩ := hm s
  change (k (m s.muted).1 (m s.muted).2).1 = (k (m s).1 (m s).2).1 ∧
    (k (m s.muted).1 (m s.muted).2).2.muted = (k (m s).1 (m s).2).2.muted
  rw [hresult]
  exact (hk (m s).1).eq hstate

/-- Going on from what a script does not tell. -/
theorem Unheeding.look {k : ScriptState κ → ScriptAction κ α} (h : ∀ s, k s.muted = k s) (hk : ∀ s, Unheeding (k s)) :
    Unheeding (get >>= k) := by
  intro s
  change (k s.muted s.muted).1 = (k s s).1 ∧ (k s.muted s.muted).2.muted = (k s s).2.muted
  rw [h s]
  exact hk s s

/-! ## Accesses -/

/-- What works on what a script has is nothing to what it tells. -/
theorem unheeding_of_carries {m : ScriptAction κ α} (h : Carries overScript m) : Unheeding m := by
  intro s
  have hs : (m s).2 = overScript (m s).2 s := congrArg Prod.snd (h s s)
  have hm : m s.muted = ((m s).1, overScript (m s).2 s.muted) := h s s.muted
  rw [hm, hs]
  exact ⟨rfl, rfl⟩

theorem printAll_muted (s : ScriptState κ) (lines : List String) : (s.printAll lines).muted = s.muted := by
  obtain ⟨output, h⟩ := printAll_eq s lines
  rw [h]
  rfl

variable [NativeObject κ μ]

theorem scriptCall_unheeding (registry : Registry κ) (g : ScriptFunction) (args : List Value) :
    Unheeding (g.call registry args) := by
  intro s
  cases g with
  | sleep =>
    refine ⟨rfl, ?_⟩
    change (if s.stepMode then _ else _ : ScriptState κ).muted = (if s.stepMode then _ else _ : ScriptState κ).muted
    split <;> rfl
  | create =>
    unfold ScriptFunction.call
    dsimp only
    rcases registry.create (args.headD .undefined).text args.tail with kind | o <;> exact ⟨rfl, rfl⟩
  | _ => exact ⟨rfl, rfl⟩

theorem access_unheeding (registry : Registry κ) (i : ScriptId μ) (a : Access) : Unheeding (access registry i a) := by
  by_cases hi : ∃ g, i = .function g
  · obtain ⟨g, rfl⟩ := hi
    cases a with
    | call args => exact scriptCall_unheeding registry g args
    | _ => exact fun _ => ⟨rfl, rfl⟩
  · exact unheeding_of_carries (access_carries registry (not_exists.mp hi) a)

/-! ## Evaluating -/

theorem muted_alike (registry : Registry κ) :
    ScopesAlike (.total fun s t : ScriptState κ => s.muted = t.muted) (fun _ : ScriptId μ => True) (scope registry)
      (scope registry) where
  find := by
    rintro ⟨s, _⟩ ⟨t, _⟩ name ⟨hst, -⟩
    have hfind := congrArg (fun u => (findName? u name : Option (Identifier (ScriptId μ)))) hst
    exact hfind
  found _ _ _ := trivial
  access {_ _ i} a _ _ := by
    refine .of_total fun s t errors hst => ?_
    obtain ⟨hanswer, hstate⟩ := (access_unheeding registry i a).eq hst
    have hoperand := congrArg (fun answer => (answer.map (·.map .value) : Answer Operand)) hanswer
    exact ⟨hoperand, trivial, hstate, rfl⟩
  isObject := by
    rintro ⟨s, _⟩ ⟨t, _⟩ h ⟨hst, -⟩
    have hobject := congrArg (fun u => u.arena.contains h) hst
    exact hobject
  member := by
    rintro ⟨s, _⟩ ⟨t, _⟩ h name ⟨hst, -⟩
    have hmember := congrArg (fun u => member? u h name) hst
    exact hmember
  memberFound _ _ _ := trivial
  release h := .of_total fun _ _ _ hst => ⟨rfl, trivial, congrArg ((scope registry).release h) hst, rfl⟩
  cells _ := rfl
  setCells _ := .of_total fun _ _ _ hst => ⟨rfl, trivial, hst, rfl⟩

theorem calculate_muted (registry : Registry κ) (text : String) {s t : ScriptState κ} (hst : s.muted = t.muted)
    (errors errors' : ErrorState) :
    ((engine registry).calculate 1 text ⟨s, errors⟩).1 = ((engine registry).calculate 1 text ⟨t, errors'⟩).1 ∧
      ((engine registry).calculate 1 text ⟨s, errors⟩).2.state.muted =
        ((engine registry).calculate 1 text ⟨t, errors'⟩).2.state.muted ∧
      ((engine registry).calculate 1 text ⟨s, errors⟩).2.errors =
        ((engine registry).calculate 1 text ⟨t, errors'⟩).2.errors := by
  rw [calculate_errors _ _ s, calculate_errors _ _ t]
  have halike : Alike (.total fun s t : ScriptState κ => s.muted = t.muted) (fun _ => True)
      ((engine registry).calculate 1 text) ((engine registry).calculate 1 text) :=
    Engine.calculate_alike rfl (muted_alike registry) 1 text
  exact halike.total hst .clear

/-! ## Compiling -/

theorem declarations_alike (registry : Registry κ) :
    Compiler.Alike (declarations registry) (declarations registry) fun s t : ScriptState κ => s.muted = t.muted where
  meaning name hst := by
    have hmeaning := congrArg (fun u => (declarations registry).meaning u name) hst
    exact hmeaning
  declare name ty hst := congrArg ((declarations registry).declare name ty) hst
  external {_ _ _ _ x _} text _ _ ht := (unheeding_of_carries (statement_carries x text).script).eq ht

/-- Linking writes down which labels are missing, and nothing else. -/
theorem link_unheeding : Unheeding (κ := κ) Binding.link := by
  refine .look (fun _ => rfl) fun s => .bind (unheeding_of_carries (linkParameters_carries _).script) fun _ s => ?_
  have hwritten (lines : List String) (f : Binding → Binding) :
      ((s.muted.modifyBinding f).printAll lines).muted = ((s.modifyBinding f).printAll lines).muted := by
    rw [printAll_muted, printAll_muted]
    rfl
  have hmissing : Binding.missingLabels s.muted.program s.muted.binding = Binding.missingLabels s.program s.binding := rfl
  simp only [bind, StateT.bind, get, getThe, MonadStateOf.get, StateT.get, pure, set, hmissing]
  cases Binding.missingLabels s.program s.binding <;> exact ⟨rfl, hwritten _ _⟩

end ScriptState

namespace Interpreter

variable {κ μ : Type} {i j : Interpreter κ}

/-- The interpreter without what its script only tells, and without the reason of its error. -/
def muted (i : Interpreter κ) : Interpreter κ :=
  { i with script := i.script.muted, errors := ⟨i.errors.kind, ""⟩ }

/-- What becomes of an interpreter is the same if it is muted before. -/
def Heedless (f : Interpreter κ → Option (Interpreter κ)) : Prop := ∀ i, (f i.muted).map muted = (f i).map muted

namespace Heedless

variable {f g : Interpreter κ → Option (Interpreter κ)}

theorem eq (hf : Heedless f) (hij : i.muted = j.muted) : (f i).map muted = (f j).map muted := by
  rw [← hf i, hij, hf j]

theorem always {f : Interpreter κ → Interpreter κ} (h : ∀ i, (f i.muted).muted = (f i).muted) :
    Heedless fun i => some (f i) := fun i => congrArg some (h i)

theorem of_always {f : Interpreter κ → Interpreter κ} (h : Heedless fun i => some (f i)) (hij : i.muted = j.muted) :
    (f i).muted = (f j).muted := Option.some_inj.mp (h.eq hij)

theorem bind (hf : Heedless f) (hg : Heedless g) : Heedless fun i => (f i).bind g := by
  intro i
  have hi := hf i
  dsimp only
  cases hm : f i.muted with
  | none =>
    rw [hm] at hi
    rw [Option.map_eq_none_iff.mp hi.symm]
  | some j =>
    rw [hm] at hi
    obtain ⟨k, hk, hkj⟩ := Option.map_eq_some_iff.mp hi.symm
    rw [hk]
    exact hg.eq hkj.symm

theorem ite {c : Interpreter κ → Prop} [∀ i, Decidable (c i)] (hc : ∀ i, c i.muted ↔ c i) (hf : Heedless f)
    (hg : Heedless g) : Heedless fun i => if c i then f i else g i := by
  intro i
  dsimp only
  by_cases h : c i
  · rw [if_pos h, if_pos ((hc i).mpr h)]
    exact hf i
  · rw [if_neg h, if_neg fun hm => h ((hc i).mp hm)]
    exact hg i

end Heedless

theorem setPhase_heedless (phase : Phase) : Heedless fun i : Interpreter κ => some (i.setPhase phase) :=
  .always fun _ => rfl

/-- Whether an error is there already decides over its reason, and not over its kind. -/
theorem report_heedless (e : ScriptError) : Heedless fun i : Interpreter κ => some (i.report e) := by
  refine .always fun i => ?_
  have hkind : (i.muted.errors.report e).kind = (i.errors.report e).kind := by
    rw [ErrorState.report_kind, ErrorState.report_kind]
  exact congrArg (fun kind => { i with script := i.script.muted, errors := ⟨kind, ""⟩ }) hkind

variable [NativeObject κ μ]

/-! ## Instructions -/

theorem calculate_muted (i : Interpreter κ) (text : String) :
    (i.muted.calculate text).2 = (i.calculate text).2 ∧
      (i.muted.calculate text).1.muted = (i.calculate text).1.muted := by
  have hsame (s t : Session (ScriptState κ)) (hst : s.state.muted = t.state.muted) (he : s.errors = t.errors) :
      ({ i.muted with script := s.state, errors := s.errors } : Interpreter κ).muted =
        ({ i with script := t.state, errors := t.errors } : Interpreter κ).muted := by
    unfold muted
    dsimp only
    rw [hst, he]
  have hscript : i.script.muted.muted = i.script.muted := rfl
  obtain ⟨hvalue, hstate, herrors⟩ := ScriptState.calculate_muted i.registry text hscript i.muted.errors i.errors
  exact ⟨hvalue, hsame _ _ hstate herrors⟩

theorem goOn_heedless (depth : Nat) (instruction : Instruction) (v : Option Value) :
    Heedless fun i : Interpreter κ => some (goOn depth instruction i v) := by
  refine .always fun i => ?_
  unfold goOn
  dsimp only [muted, ScriptState.muted]
  split
  · rfl
  · split
    · rfl
    · split
      · rfl
      · split <;> rfl

theorem evaluate_heedless (instruction : Instruction) :
    Heedless fun i : Interpreter κ => some (i.evaluate instruction) := by
  refine .always fun i => ?_
  obtain ⟨hvalue, hstate⟩ := i.calculate_muted instruction.text
  change (goOn i.script.stack.length instruction (i.muted.calculate instruction.text).1
    (i.muted.calculate instruction.text).2).muted = _
  rw [hvalue]
  exact (goOn_heedless i.script.stack.length instruction _).of_always hstate

theorem perform_heedless (instruction : Instruction) :
    Heedless fun i : Interpreter κ => some (i.perform instruction) := by
  have hfail (e : ScriptError) : Heedless fun i : Interpreter κ => some ((i.report e).setPhase .error) :=
    (report_heedless e).bind (setPhase_heedless .error)
  unfold perform
  cases instruction.opcode with
  | nop => exact .always fun _ => rfl
  | «calc» => exact evaluate_heedless instruction
  | jumpIfZero => exact evaluate_heedless instruction
  | jump => exact .always fun _ => rfl
  | call => exact .always fun _ => rfl
  | ret =>
    refine .always fun i => ?_
    have hstack : i.muted.script.stack = i.script.stack := rfl
    dsimp only
    rw [hstack]
    cases i.script.stack with
    | nil => exact (hfail _).of_always rfl
    | cons ip stack => rfl
  | goto => exact hfail _
  | leave => exact hfail _
  | again => exact hfail _

theorem settle_heedless : Heedless fun i : Interpreter κ => some i.settle := by
  refine .always fun i => ?_
  change (if i.script.phase = .error then _ else _ : Interpreter κ).muted = (if i.script.phase = .error then _ else _ :
    Interpreter κ).muted
  split <;> rfl

theorem trace_muted (i : Interpreter κ) : (i.modifyScript traceInstruction).muted = i.muted := by
  unfold traceInstruction modifyScript
  dsimp only
  split <;> rfl

/-- The next instruction does not depend on what was told before. -/
theorem step_heedless : Heedless fun i : Interpreter κ => some i.step := by
  refine .always fun i => ?_
  by_cases hrunning : i.script.phase = .running
  · have hmuted : i.muted.script.phase = .running := hrunning
    cases hnext : i.next? with
    | none =>
      have hnone : i.muted.next? = none := hnext
      rw [step_behindCode hrunning hnext, step_behindCode hmuted hnone]
      rfl
    | some instruction =>
      have hsome : i.muted.next? = some instruction := hnext
      rw [step_next hnext, step_next hsome]
      -- the muted script does not write down the instruction, and that is told as well
      have htrace : (i.muted.modifyScript traceInstruction).muted = (i.modifyScript traceInstruction).muted := by
        rw [trace_muted, trace_muted]
        rfl
      exact settle_heedless.of_always ((perform_heedless instruction).of_always htrace)
  · have hmuted : i.muted.script.phase ≠ .running := hrunning
    rw [step, step, if_pos hrunning, if_pos hmuted]
    rfl

/-! ## Calls -/

theorem timeOut_heedless (call : Call) : Heedless fun i : Interpreter κ => some (i.timeOut call) := by
  refine .always fun i => ?_
  have herror : (i.muted.setPhase .error).muted = (i.setPhase .error).muted := rfl
  exact (report_heedless ⟨.scriptTimeout, secondsText (i.script.clock - call.started)⟩).of_always herror

theorem runCall_heedless (call : Call) (n : Nat) : Heedless fun i : Interpreter κ => runCall call n i := by
  induction n with
  | zero => exact fun _ => rfl
  | succ n ih =>
    unfold runCall
    refine .ite (fun _ => Iff.rfl) (.always fun _ => rfl) ?_
    -- after the step the call is over, or late, or goes on
    have hrest : Heedless fun i : Interpreter κ =>
        if i.script.stack.length ≤ call.depth then some (i.setPhase call.phase)
        else if isLate i.script call then some (i.timeOut call)
        else runCall call n i :=
      .ite (fun _ => Iff.rfl) (setPhase_heedless call.phase) (.ite (fun _ => Iff.rfl) (timeOut_heedless call) ih)
    exact step_heedless.bind hrest

/-- A choice that nothing told has a part in. -/
theorem ite_muted {c : Prop} [Decidable c] {i i' j j' : Interpreter κ} (hi : i.muted = i'.muted)
    (hj : j.muted = j'.muted) : (if c then i else j).muted = (if c then i' else j').muted := by
  split
  · exact hi
  · exact hj

theorem callAt_heedless (limit : Nat) (ip : Int) (stepMode : Bool) :
    Heedless fun i : Interpreter κ => callAt limit i ip stepMode := by
  unfold callAt
  dsimp only
  refine .ite (fun _ => Iff.rfl) (.always fun _ => rfl) ?_
  cases stepMode with
  | true => exact .always fun _ => ite_muted rfl rfl
  | false =>
    intro i
    -- the call of a muted script is the same one: it has the depth, the phase and the start of the other
    have hbegun : (i.muted.begun ip).muted = (i.begun ip).muted := rfl
    exact (runCall_heedless ⟨i.script.stack.length, i.script.phase, i.script.clock⟩ limit).eq hbegun

theorem callLabel_heedless (limit : Nat) (name : String) (stepMode : Bool) :
    Heedless fun i : Interpreter κ => (callLabel limit i name stepMode).map Prod.fst := by
  intro i
  have hlabel : i.muted.script.program.labelIp? name = i.script.program.labelIp? name := rfl
  unfold callLabel
  dsimp only
  rw [hlabel]
  cases i.script.program.labelIp? name with
  | none => rfl
  | some ip => simpa [Function.comp_def] using callAt_heedless limit ip stepMode i

/-! ## Modes -/

theorem startStepping_heedless : Heedless fun i : Interpreter κ => some i.startStepping := by
  refine .always fun i => ite_muted rfl ?_
  unfold modifyScript
  dsimp only [muted, ScriptState.muted]
  split <;> rfl

theorem takeStep_heedless : Heedless fun i : Interpreter κ => some i.takeStep := by
  refine .always fun i => ite_muted ?_ rfl
  have hsleep : i.muted.script.sleepUntil = i.script.sleepUntil := rfl
  rw [hsleep]
  cases i.script.sleepUntil with
  | none => exact step_heedless.of_always rfl
  | some time => exact ite_muted rfl rfl

theorem initialise_heedless (limit : Nat) : Heedless fun i : Interpreter κ => i.initialise limit := by
  have hready : Heedless fun i : Interpreter κ => some (if i.script.phase = .error then i else i.setPhase .ready) :=
    .always fun _ => ite_muted rfl rfl
  unfold initialise
  refine .ite (fun _ => Iff.rfl) (.always fun _ => rfl) ?_
  exact .ite (fun _ => Iff.rfl) ((callAt_heedless limit 0 false).bind hready) hready

theorem runMain_heedless (limit : Nat) : Heedless fun i : Interpreter κ => i.runMain limit := by
  have hfinished : Heedless fun i : Interpreter κ => some i.finished := by
    refine .always fun i => ?_
    have hphase : i.muted.script.phase = i.script.phase := rfl
    unfold finished
    rw [hphase]
    cases i.script.phase <;> rfl
  unfold runMain
  refine .ite (fun _ => Iff.rfl) (.always fun _ => rfl) fun i => ?_
  have hcaller : i.muted.caller.muted = i.caller.muted := rfl
  exact ((callAt_heedless limit i.entry false).bind hfinished).eq hcaller

theorem abort_heedless : Heedless fun i : Interpreter κ => some i.abort :=
  .always fun _ => ite_muted rfl rfl

/-- Whatever mode is executed, what was told before has no part in it. -/
theorem execute_heedless (limit : Nat) (mode : Mode) : Heedless fun i : Interpreter κ => i.execute limit mode := by
  have hshown : Heedless fun i : Interpreter κ => some i.shown :=
    .always fun _ => ite_muted rfl rfl
  unfold execute
  cases mode with
  | start => exact startStepping_heedless.bind hshown
  | step => exact takeStep_heedless.bind hshown
  | init => exact (initialise_heedless limit).bind hshown
  | run => exact (runMain_heedless limit).bind hshown
  | abort => exact abort_heedless.bind hshown

/-! ## Events -/

theorem deliver_heedless (limit : Nat) (e : LinkEvent) :
    Heedless fun i : Interpreter κ => (i.deliver limit e).map Prod.fst := by
  intro i
  have hhook : i.muted.script.binding.hookFor? e = i.script.binding.hookFor? e := rfl
  have hmode : i.muted.script.stepMode = i.script.stepMode := rfl
  unfold deliver
  dsimp only
  by_cases hmissed : i.script.phase = .error ∨ i.script.phase = .compiled
  · have hmuted : i.muted.script.phase = .error ∨ i.muted.script.phase = .compiled := hmissed
    rw [if_pos hmissed, if_pos hmuted]
    rfl
  · have hmuted : ¬(i.muted.script.phase = .error ∨ i.muted.script.phase = .compiled) := hmissed
    rw [if_neg hmissed, if_neg hmuted, hhook, hmode]
    cases i.script.binding.hookFor? e with
    | none => rfl
    | some ip => simpa [Function.comp_def] using callAt_heedless limit ip i.script.stepMode i

theorem deliverAll_heedless (limit : Nat) (events : List LinkEvent) :
    Heedless fun i : Interpreter κ => (deliverAll limit i events).map Prod.fst := by
  induction events with
  | nil => exact fun _ => rfl
  | cons e events ih =>
    have hfirst (i : Interpreter κ) : (deliverAll limit i (e :: events)).map Prod.fst =
        ((i.deliver limit e).map Prod.fst).bind fun j => (deliverAll limit j events).map Prod.fst := by
      rw [deliverAll]
      cases i.deliver limit e with
      | none => rfl
      | some r => cases hrest : deliverAll limit r.1 events <;> simp [hrest]
    simp only [hfirst]
    exact (deliver_heedless limit e).bind ih

theorem dispatchEvents_heedless (limit : Nat) :
    Heedless fun i : Interpreter κ => (i.dispatchEvents limit).map Prod.fst := by
  intro i
  have htaken : (i.muted.modifyScript (·.setHost i.script.host.takeEvents.1)).muted =
      (i.modifyScript (·.setHost i.script.host.takeEvents.1)).muted := rfl
  exact (deliverAll_heedless limit i.script.host.takeEvents.2).eq htaken

/-! ## Compiling -/

theorem clear_heedless : Heedless fun i : Interpreter κ => some i.clear := .always fun _ => rfl

theorem script_muted {s t : ScriptState κ} (hij : i.muted = j.muted) (hst : s.muted = t.muted) :
    ({ i with script := s } : Interpreter κ).muted = ({ j with script := t } : Interpreter κ).muted := by
  have h := congr (congrArg (fun (k : Interpreter κ) u => ({ k with script := u } : Interpreter κ)) hij) hst
  exact h

theorem link_muted (program : Program) (hij : i.muted = j.muted) :
    (i.link program).2 = (j.link program).2 ∧ (i.link program).1.muted = (j.link program).1.muted := by
  have hscript : ({ i.script with program := program } : ScriptState κ).muted =
      ({ j.script with program := program } : ScriptState κ).muted :=
    congrArg (fun k : Interpreter κ => { k.script with program := program }) hij
  obtain ⟨hbound, hstate⟩ := link_unheeding.eq hscript
  unfold link
  generalize Binding.link { i.script with program := program } = r at hbound hstate ⊢
  generalize Binding.link { j.script with program := program } = r' at hbound hstate ⊢
  obtain ⟨bound, s⟩ := r
  obtain ⟨_, t⟩ := r'
  obtain rfl : bound = _ := hbound
  cases bound with
  | error e => exact ⟨rfl, script_muted hij hstate⟩
  | ok _ =>
    have hprogram : s.program = t.program := congrArg (·.program) hstate
    have hlinked : ({ s with program := t.program.link.1 } : ScriptState κ).muted =
        ({ t with program := t.program.link.1 } : ScriptState κ).muted :=
      congrArg (fun u : ScriptState κ => { u with program := t.program.link.1 }) hstate
    dsimp only
    rw [hprogram]
    exact ⟨rfl, script_muted hij hlinked⟩

theorem begin_heedless : Heedless fun i : Interpreter κ => some i.begin := by
  have hbegun (i : Interpreter κ) : i.begin.script.muted =
      ({ ({ i.script with main := (i.script.program.labelIp? "main").getD (-1) } : ScriptState κ).setPhase .compiled with
        ip := -1 } : ScriptState κ).muted := by
    unfold begin modifyScript
    dsimp only
    split
    · obtain ⟨output, h⟩ := printAll_eq { i.script with main := (i.script.program.labelIp? "main").getD (-1) } _
      rw [h]
      rfl
    · rfl
  refine .always fun i => ?_
  have hsame : i.muted.begin.script.muted = i.begin.script.muted := by
    rw [hbegun, hbegun]
    rfl
  exact @script_muted κ i.muted i _ _ rfl hsame

theorem compile_heedless (source : String) : Heedless fun i : Interpreter κ => some (i.compile source).1 := by
  refine .always fun i => ?_
  by_cases hrunning : i.script.phase = .running
  · have hmuted : i.muted.script.phase = .running := hrunning
    unfold compile
    rw [if_pos hrunning, if_pos hmuted]
    rfl
  have hmuted : i.muted.script.phase ≠ .running := hrunning
  rw [compile_eq hrunning, compile_eq hmuted]
  -- what was told before is cleared, and the two compile alike: up to an error, or up to what is linked
  have hclear : i.muted.clear.muted = i.clear.muted := rfl
  have hscript : i.muted.clear.script.muted = i.clear.script.muted := rfl
  obtain ⟨houtcome, hstate⟩ := Compiler.compile_alike (declarations_alike i.registry) source hscript
  have hregistry : i.muted.registry = i.registry := rfl
  rw [hregistry]
  generalize Compiler.compile (declarations i.registry) source i.muted.clear.script = r at houtcome hstate ⊢
  generalize Compiler.compile (declarations i.registry) source i.clear.script = r' at houtcome hstate ⊢
  obtain ⟨outcome, s⟩ := r
  obtain ⟨_, t⟩ := r'
  obtain rfl : outcome = _ := houtcome
  have hst := script_muted hclear hstate
  cases outcome with
  | beyondSource => exact hst
  | rejected e =>
    have hplace : ({ s with compilePos := e.pos } : ScriptState κ).muted =
        ({ t with compilePos := e.pos } : ScriptState κ).muted :=
      congrArg (fun u : ScriptState κ => { u with compilePos := e.pos }) hstate
    exact (report_heedless e.error).of_always (script_muted hclear hplace)
  | compiled program =>
    obtain ⟨hfailed, hlinked⟩ := link_muted program hst
    dsimp only
    generalize ({ i.muted.clear with script := s } : Interpreter κ).link program = r at hfailed hlinked ⊢
    generalize ({ i.clear with script := t } : Interpreter κ).link program = r' at hfailed hlinked ⊢
    obtain ⟨j, failed⟩ := r
    obtain ⟨k, _⟩ := r'
    obtain rfl : failed = _ := hfailed
    cases failed with
    | none => exact begin_heedless.of_always hlinked
    | some e => exact (report_heedless e).of_always hlinked

end Interpreter

/-! ## Whatever the application does -/

/-- What an application does with an interpreter: it compiles a source or drops the script that there is, and works
with a script that it has compiled. -/
inductive Deed where
  | compile (source : String)
  | clear
  | operate (op : Operation)

open Interpreter (Heedless)

variable {κ μ : Type} [NativeObject κ μ]

theorem Operation.apply_heedless (op : Operation) : Heedless fun i : Interpreter κ => op.apply i := by
  cases op with
  | execute limit mode => exact Interpreter.execute_heedless limit mode
  | callAt limit ip stepMode => exact Interpreter.callAt_heedless limit ip stepMode
  | callLabel limit name stepMode => exact Interpreter.callLabel_heedless limit name stepMode
  | calculate text => exact .always fun i => (i.calculate_muted text).2
  | dispatchEvents limit => exact Interpreter.dispatchEvents_heedless limit
  | _ => exact .always fun _ => rfl

namespace Deed

/-- The interpreter after a deed; nothing if it does not end within its limit. -/
def apply (i : Interpreter κ) : Deed → Option (Interpreter κ)
  | compile source => some (i.compile source).1
  | clear => some i.clear
  | operate op => op.apply i

/-- The interpreter after some deeds. -/
def run (i : Interpreter κ) : List Deed → Option (Interpreter κ)
  | [] => some i
  | d :: deeds => (d.apply i).bind fun j => run j deeds

theorem apply_heedless (d : Deed) : Heedless fun i : Interpreter κ => d.apply i := by
  cases d with
  | compile source => exact Interpreter.compile_heedless source
  | clear => exact Interpreter.clear_heedless
  | operate op => exact op.apply_heedless

/-- Interpreters that are the same but for what they tell stay the same, whatever the application does. -/
theorem run_heedless (deeds : List Deed) : Heedless fun i : Interpreter κ => run i deeds := by
  induction deeds with
  | nil => exact .always fun _ => rfl
  | cons d deeds ih => exact (apply_heedless d).bind ih

end Deed

end HostScript
