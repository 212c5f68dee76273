import HostScript.Proofs.Muted
/-!
# Evaluations beside a script

An application may evaluate expressions of its own with the names of a script, also between two steps of it. The
script stays where it stands then, unless it is told to exit. And if such an evaluation gives a value and changes
nothing that the script goes by, the script does not notice that there was one, whatever is done with it afterwards.
-/

set_option autoImplicit false

namespace HostScript

open ScriptState

/-! ## Uses that change nothing -/

/-- The use changes no variable, no object and nothing of the host. -/
def Use.spares {μ : Type} : Use μ → Bool
  | .access (.function g) _ => g != .create
  | .access (.hostFunction g) _ => g == .time || g == .date
  | .access (.variable _) (.write _) | .access (.bound _) (.write _) => false
  | .access (.member _ _) _ | .release _ => false
  | .access _ _ => true

namespace ScriptState

variable {κ μ : Type} {s t u : ScriptState κ}

/-- The states have the same variables and objects, and the same host with all that is bound to it. -/
structure Spared (s t : ScriptState κ) : Prop where
  vars : t.vars = s.vars
  arena : t.arena = s.arena
  binding : t.binding = s.binding

theorem Spared.trans (h : Spared s t) (h' : Spared t u) : Spared s u :=
  ⟨h'.vars.trans h.vars, h'.arena.trans h.arena, h'.binding.trans h.binding⟩

/-- The states have the same of all that a script goes by and that an expression may change: where it stands, what it
has and is bound to, and its time. -/
structure Untouched (s t : ScriptState κ) : Prop extends Spared s t where
  phase : t.phase = s.phase
  ip : t.ip = s.ip
  clock : t.clock = s.clock
  sleepUntil : t.sleepUntil = s.sleepUntil
  maxLoopTime : t.maxLoopTime = s.maxLoopTime

/-- What no expression changes. -/
def fixed (s : ScriptState κ) : ScriptState κ :=
  { s.muted with
    vars := []
    arena := .empty
    binding := .empty
    phase := .empty
    ip := -1
    clock := 0
    sleepUntil := none
    maxLoopTime := none }

theorem Untouched.muted (h : Untouched s t) (hf : t.fixed = s.fixed) : t.muted = s.muted := by
  have hsplit (s : ScriptState κ) : s.muted =
      { s.fixed with
        vars := s.vars, arena := s.arena, binding := s.binding, phase := s.phase, ip := s.ip, clock := s.clock
        sleepUntil := s.sleepUntil, maxLoopTime := s.maxLoopTime } := rfl
  rw [hsplit t, hsplit s, hf, h.vars, h.arena, h.binding, h.phase, h.ip, h.clock, h.sleepUntil, h.maxLoopTime]

variable [NativeObject κ μ]

theorem access_fixed (registry : Registry κ) (i : ScriptId μ) (a : Access) (s : ScriptState κ) :
    (access registry i a s).2.fixed = s.fixed := by
  refine access_keeps registry (fun _ _ => rfl) (fun _ _ => rfl) (fun _ _ => rfl) (fun g args _ _ s => ?_) s
  cases g with
  | sleep =>
    change (ScriptFunction.pause s _).fixed = s.fixed
    unfold ScriptFunction.pause
    split <;> rfl
  | create =>
    unfold ScriptFunction.call
    dsimp only
    rcases registry.create (args.headD .undefined).text args.tail with kind | o <;> rfl
  | _ => rfl

theorem scriptCall_spared (registry : Registry κ) {g : ScriptFunction} (hg : g ≠ .create) (args : List Value)
    (s : ScriptState κ) : Spared s (g.call registry args s).2 where
  vars := congrArg (·.1) (scriptCall_keeps registry g args s)
  arena := (scriptCall_arena registry g args s).resolve_right fun h => hg h.1
  binding := congrArg (·.2.2) (scriptCall_keeps registry g args s)

/-- Reading a bound name does nothing at all. -/
theorem accessBound_same (index : Nat) {a : Access} (h : ∀ v, a ≠ .write v) :
    Keeps (κ := κ) id (Binding.accessBound index a) := by
  refine .bind .get fun s => ?_
  split
  · exact .pure _
  · exact absurd rfl (h _)
  · refine .bind (.bind .get fun s => ?_) fun _ => .pure _
    split <;> exact .pure _

theorem accessParameter_same (index : Nat) (a : Access) : Keeps (κ := κ) id (Binding.accessParameter index a) := by
  refine .bind .get fun s => ?_
  split <;> exact .pure _

theorem access_spared (registry : Registry κ) {i : ScriptId μ} {a : Access} (h : (Use.access i a).spares)
    (s : ScriptState κ) : Spared s (access registry i a s).2 := by
  have hsame {t : ScriptState κ} (h : t = s) : Spared s t := ⟨h ▸ rfl, h ▸ rfl, h ▸ rfl⟩
  rcases i with g | g | k | x | index | index | index | index | ⟨o, m⟩
  · cases a with
    | call args =>
      have hg : g ≠ .create := by simpa [Use.spares] using h
      exact scriptCall_spared registry hg args s
    | _ => exact hsame rfl
  · cases a with
    | call args =>
      have hg : g = .time ∨ g = .date := by simpa [Use.spares] using h
      rcases hg with rfl | rfl <;> exact hsame rfl
    | _ => exact hsame rfl
  · exact hsame rfl
  · exact hsame rfl
  · refine hsame (accessVariable_keeps (μ := μ) id ?_)
    cases a with
    | write v => cases h
    | _ => rfl
  · exact hsame (accessLabel_keeps (f := id) index a s)
  · refine hsame (accessBound_same index ?_ s)
    rintro v rfl
    cases h
  · exact hsame (accessParameter_same index a s)
  · cases h

end ScriptState

namespace Interpreter

variable {κ μ : Type} [NativeObject κ μ]

/-! ## What an evaluation does to a script -/

theorem calculate_fixed (i : Interpreter κ) (text : String) :
    (i.calculate text).1.script.fixed = i.script.fixed := by
  have hinv : KeptByUses (μ := μ) i.registry fun t _ => t.fixed = i.script.fixed :=
    ⟨fun t _ j a ht _ => (access_fixed i.registry j a t).trans ht, fun _ _ _ ht => ht⟩
  exact calculate_invariant hinv text i.script i.errors rfl

/-- An expression that makes no other uses changes no variable, no object and nothing of the host. -/
theorem calculate_spared (i : Interpreter κ) (text : String)
    (h : ∀ e ∈ effectsOf i.registry text i.script, e.use.spares) : Spared i.script (i.calculate text).1.script := by
  have hinv : KeptByUses (μ := μ) i.registry fun t es => (∀ e ∈ es, e.use.spares) → Spared i.script t := by
    refine ⟨fun t es j a ht _ hes => ?_, fun t es o ht hes => ?_⟩
    · have hlast := hes _ (List.mem_append_right _ (List.mem_singleton_self _))
      exact (ht fun e he => hes e (List.mem_append_left _ he)).trans (access_spared i.registry hlast t)
    · -- letting an object go may take it out of the arena, so it counts as a change
      cases hes _ (List.mem_append_right _ (List.mem_singleton_self _))
  exact calculate_invariant hinv text i.script i.errors (fun _ => ⟨rfl, rfl, rfl⟩) h

/-- An expression leaves the stack of a script as it is, and where the script stands, too, unless it ends it. -/
theorem calculate_place (i : Interpreter κ) (text : String) :
    (i.calculate text).1.script.stack = i.script.stack ∧
      ((i.calculate text).1.script.phase = i.script.phase ∧ (i.calculate text).1.script.ip = i.script.ip ∨
        (∃ e ∈ effectsOf i.registry text i.script, e.use.Calls .exit) ∧
          (i.calculate text).1.script.phase = .ready ∧ (i.calculate text).1.script.ip = -1) := by
  have hstays := i.calculate_stays text
  refine ⟨hstays.stack, ?_⟩
  by_cases hexit : ∃ e ∈ effectsOf i.registry text i.script, e.use.Calls .exit
  · rcases hstays.place with ⟨hphase, hip, -⟩ | ⟨hphase, hip, -⟩
    · exact .inr ⟨hexit, hphase, hip⟩
    · exact .inl ⟨hphase, hip⟩
  · have hstanding := i.calculate_standing text hexit
    exact .inl ⟨congrArg (·.2.2.1) hstanding, congrArg (·.2.2.2) hstanding⟩

/-- An evaluation that gives a value and leaves the script untouched shows in nothing but what the script tells. -/
theorem calculate_unnoticed {i : Interpreter κ} {text : String} (herrors : i.errors.isError = false)
    (hvalue : (i.calculate text).2.isSome) (htouched : Untouched i.script (i.calculate text).1.script) :
    (i.calculate text).1.muted = i.muted := by
  have hscript := htouched.muted (i.calculate_fixed text)
  have hclear : (i.calculate text).1.errors = .clear := by
    rcases i.calculate_clean text with hnone | hclear
    · simp [hnone] at hvalue
    · exact hclear
  -- the evaluation clears the errors, of which there were none
  have hkind : i.errors.kind = .success := by simpa [ErrorState.isError] using herrors
  have hresult : (i.calculate text).1.muted =
      { i with
        script := (i.calculate text).1.script.muted, errors := ⟨(i.calculate text).1.errors.kind, ""⟩ } := rfl
  rw [hresult, hscript, hclear, muted, hkind]
  rfl

/-! ## Evaluations beside a script -/

/-- An evaluation beside a script leaves the stack as it is, and where the script stands as well unless it ends it. If
there is no error before it, it gives a value and it leaves the script untouched, then every mode that is executed
afterwards, whatever the application does in between, leads to the same phase as without it. -/
theorem evaluation_aside (i : Interpreter κ) (text : String) :
    ((i.calculate text).1.script.stack = i.script.stack ∧
      ((i.calculate text).1.script.phase = i.script.phase ∧ (i.calculate text).1.script.ip = i.script.ip ∨
        (∃ e ∈ effectsOf i.registry text i.script, e.use.Calls .exit) ∧
          (i.calculate text).1.script.phase = .ready ∧ (i.calculate text).1.script.ip = -1)) ∧
    (i.errors.isError = false → (i.calculate text).2.isSome → Untouched i.script (i.calculate text).1.script →
      ∀ (deeds : List Deed) (limit : Nat) (mode : Mode),
        ((Deed.run (i.calculate text).1 deeds).bind (·.execute limit mode)).map (·.script.phase) =
          ((Deed.run i deeds).bind (·.execute limit mode)).map (·.script.phase)) := by
  refine ⟨i.calculate_place text, fun herrors hvalue htouched deeds limit mode => ?_⟩
  have hrun := ((Deed.run_heedless deeds).bind (execute_heedless limit mode)).eq
    (calculate_unnoticed herrors hvalue htouched)
  have hphase := congrArg (Option.map (·.script.phase)) hrun
  rwa [Option.map_map, Option.map_map] at hphase

/-- Between two steps of a script its variable is read. -/
theorem reading_aside :
    let script := ((new (Registry.empty : Registry Empty) false 0).compile
      "int a; return; :main; a = 1; a = 2; return;").1
    ∃ s, (script.execute 9 .init).bind (·.execute 9 .start) = some s ∧ s.script.phase = .running ∧
      s.errors.isError = false ∧ (s.calculate "a + 1").2.isSome ∧ Untouched s.script (s.calculate "a + 1").1.script ∧
      ∀ (deeds : List Deed) (limit : Nat) (mode : Mode),
        ((Deed.run (s.calculate "a + 1").1 deeds).bind (·.execute limit mode)).map (·.script.phase) =
          ((Deed.run s deeds).bind (·.execute limit mode)).map (·.script.phase) := by
  intro script
  have hend : ((script.execute 9 .init).bind (·.execute 9 .start)).isSome := by decide +kernel
  obtain ⟨s, hs, hrunning, herrors, hvalue, hspares, hplace⟩ :
      ∃ s, (script.execute 9 .init).bind (·.execute 9 .start) = some s ∧ s.script.phase = .running ∧
        s.errors.isError = false ∧ (s.calculate "a + 1").2.isSome ∧
        (∀ e ∈ effectsOf s.registry "a + 1" s.script, e.use.spares) ∧
        (s.calculate "a + 1").1.script.phase = s.script.phase ∧ (s.calculate "a + 1").1.script.ip = s.script.ip ∧
        (s.calculate "a + 1").1.script.clock = s.script.clock ∧
        (s.calculate "a + 1").1.script.sleepUntil = s.script.sleepUntil ∧
        (s.calculate "a + 1").1.script.maxLoopTime = s.script.maxLoopTime := by
    refine ⟨((script.execute 9 .init).bind (·.execute 9 .start)).getD script, ?_, by decide +kernel⟩
    exact (Option.some_get hend).symm.trans (congrArg some (Option.get_eq_getD _))
  obtain ⟨hphase, hip, hclock, hsleep, htime⟩ := hplace
  have htouched : Untouched s.script (s.calculate "a + 1").1.script :=
    ⟨calculate_spared s _ hspares, hphase, hip, hclock, hsleep, htime⟩
  exact ⟨s, hs, hrunning, herrors, hvalue, htouched, (evaluation_aside s "a + 1").2 herrors hvalue htouched⟩

/-- A script that sleeps, or wakes up, takes no other step. -/
theorem execute_sleeping {i : Interpreter κ} (limit : Nat) (hrunning : i.script.phase = .running)
    (hmode : i.script.stepMode) (hsleep : i.script.sleepUntil.isSome) (herrors : i.errors.isError = false) :
    (i.execute limit .step).map (·.script.phase) = some .running := by
  obtain ⟨time, htime⟩ := Option.isSome_iff_exists.mp hsleep
  have htake : i.takeStep.script.phase = .running ∧ i.takeStep.errors.isError = false := by
    rw [takeStep, if_pos ⟨hrunning, hmode⟩, htime]
    dsimp only
    split
    · exact ⟨hrunning, herrors⟩
    · exact ⟨hrunning, herrors⟩
  change some i.takeStep.shown.script.phase = _
  rw [shown_eq (.inr htake.2), htake.1]

/-- An evaluation beside a script may end the script. And what changes no variable, no object and nothing of the host
may still make the script go on in another way: it may set the time limit of calls, put the script to sleep, or fail. -/
theorem disturbed_aside :
    let script := ((new (Registry.empty : Registry Empty) false 0).compile
      "int a; return; :main; a = 1; a = 2; return;").1
    let step : Deed := .operate (.execute 9 .step)
    ∃ r s, script.execute 9 .init = some r ∧ r.script.phase = .ready ∧ r.errors.isError = false ∧
      Deed.run r [.operate (.execute 9 .start), step, step, step] = some s ∧ s.script.phase = .running ∧
      s.script.stepMode ∧ s.errors.isError = false ∧
      (s.calculate "exit(0)").1.script.phase ≠ s.script.phase ∧
      (Spared r.script (r.calculate "settimeout(1)").1.script ∧
        ((r.calculate "settimeout(1)").1.execute 9 .run).map (·.script.phase) = some .error ∧
        (r.execute 9 .run).map (·.script.phase) = some .ready) ∧
      (Spared r.script (r.calculate "1 / 0").1.script ∧
        ((r.calculate "1 / 0").1.execute 9 .start).map (·.script.phase) = some .error ∧
        (r.execute 9 .start).map (·.script.phase) = some .running) ∧
      (Spared s.script (s.calculate "sleep(1)").1.script ∧
        ((s.calculate "sleep(1)").1.execute 9 .step).map (·.script.phase) = some .running ∧
        (s.execute 9 .step).map (·.script.phase) = some .ready) := by
  intro script step
  let r := (script.execute 9 .init).getD script
  let s := (Deed.run r [.operate (.execute 9 .start), step, step, step]).getD script
  have hinit : script.execute 9 .init = some r := by
    have hend : (script.execute 9 .init).isSome := by decide +kernel
    exact (Option.some_get hend).symm.trans (congrArg some (Option.get_eq_getD _))
  have hsteps : Deed.run r [.operate (.execute 9 .start), step, step, step] = some s := by
    have hend : (Deed.run r [.operate (.execute 9 .start), step, step, step]).isSome := by decide +kernel
    exact (Option.some_get hend).symm.trans (congrArg some (Option.get_eq_getD _))
  obtain ⟨⟨hready, herrors⟩, ⟨hlimit, hlimited⟩, hfail, hfailed⟩ :
      (r.script.phase = .ready ∧ r.errors.isError = false) ∧
      ((∀ e ∈ effectsOf r.registry "settimeout(1)" r.script, e.use.spares) ∧
        ((r.calculate "settimeout(1)").1.execute 9 .run).map (·.script.phase) = some .error ∧
        (r.execute 9 .run).map (·.script.phase) = some .ready) ∧
      (∀ e ∈ effectsOf r.registry "1 / 0" r.script, e.use.spares) ∧
      ((r.calculate "1 / 0").1.execute 9 .start).map (·.script.phase) = some .error ∧
      (r.execute 9 .start).map (·.script.phase) = some .running := by decide +kernel
  obtain ⟨⟨hrunning, hmode, herrors', hexit⟩, hstep, hsleep, hrunning', hmode', hasleep, hclear⟩ :
      (s.script.phase = .running ∧ s.script.stepMode ∧ s.errors.isError = false ∧
        (s.calculate "exit(0)").1.script.phase ≠ s.script.phase) ∧
      (s.execute 9 .step).map (·.script.phase) = some .ready ∧
      (∀ e ∈ effectsOf s.registry "sleep(1)" s.script, e.use.spares) ∧
      (s.calculate "sleep(1)").1.script.phase = .running ∧ (s.calculate "sleep(1)").1.script.stepMode ∧
      (s.calculate "sleep(1)").1.script.sleepUntil.isSome ∧ (s.calculate "sleep(1)").1.errors.isError = false := by
    decide +kernel
  exact ⟨r, s, hinit, hready, herrors, hsteps, hrunning, hmode, herrors', hexit,
    ⟨calculate_spared r _ hlimit, hlimited⟩, ⟨calculate_spared r _ hfail, hfailed⟩,
    calculate_spared s _ hsleep, execute_sleeping 9 hrunning' hmode' hasleep hclear, hstep⟩

end Interpreter

end HostScript
