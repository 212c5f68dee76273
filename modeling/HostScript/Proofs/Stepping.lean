import HostScript.Proofs.Beside
import HostScript.Proofs.Declaring
import HostScript.Proofs.Outcomes
/-!
# Stepping and running

A ready script is run at once, which calls its beginning, or it is started and stepped to its end. The steps
do what the run does, with another bottom of the stack: a run goes back to no instruction, and so do the steps
of a script with a label `main`, but those of a script without one have nowhere to go back to. So both come to
the same end, unless a script without that label returns, where stepping fails.
-/

set_option autoImplicit false

namespace HostScript

open ScriptState

namespace Interpreter

variable {κ μ : Type} [NativeObject κ μ] {i j k s : Interpreter κ} {limit : Nat}

/-! ## Modes -/

/-- An error that was left shows in the phase. -/
def shown (i : Interpreter κ) : Interpreter κ := if i.errors.isError then i.setPhase .error else i

theorem shown_eq (h : i.script.phase = .error ∨ i.errors.isError = false) : i.shown = i := by
  unfold shown
  split
  · rename_i herrors
    have hphase : i.script.phase = .error := h.resolve_right (by simp [herrors])
    have hscript : i.script.setPhase .error = i.script := by
      rw [ScriptState.setPhase, if_pos rfl, if_pos hphase, ← hphase]
    exact congrArg (fun t => ({ i with script := t } : Interpreter κ)) hscript
  · rfl

theorem shown_of_phase (h : i.shown.script.phase ≠ .error) : i.errors.isError = false ∧ i.shown = i := by
  unfold shown at h ⊢
  split at h
  · exact absurd rfl h
  · rename_i herrors
    exact ⟨by simpa using herrors, if_neg herrors⟩

/-- A script on its way into a run. -/
def caller (i : Interpreter κ) : Interpreter κ := i.modifyScript fun s => { s with ip := -1, stepMode := false }

/-- Where running begins. -/
def entry (i : Interpreter κ) : Int := max i.script.main 0

/-- What single steps have to go back to. -/
def bottom (i : Interpreter κ) : List Int := if 0 ≤ i.script.main then [-1] else []

/-- Where single steps start. -/
def started (i : Interpreter κ) (bottom : List Int) : Interpreter κ := (i.caller.begun i.entry).beside bottom true

/-- What is done when the call of a run is over. -/
def finished (i : Interpreter κ) : Interpreter κ :=
  match i.script.phase with
  | .running => ((i.exitWith .normal).setPhase .ready).jumpTo (-1)
  | .error => i.exitWith .error
  | _ => i

theorem execute_run (hready : i.script.phase = .ready) :
    i.execute limit .run = (callAt limit i.caller i.entry false).map fun j => j.finished.shown := by
  unfold execute
  dsimp only
  unfold runMain
  rw [if_neg (by simp [hready])]
  change (((callAt limit i.caller i.entry false).bind fun j => some j.finished).bind fun j => some j.shown) = _
  cases callAt limit i.caller i.entry false <;> rfl

theorem execute_start (hready : i.script.phase = .ready) (hstack : i.script.stack = [])
    (herrors : i.errors.isError = false) :
    i.execute limit .start = some (i.started i.bottom) := by
  have hstart : i.startStepping = i.started i.bottom := by
    rw [startStepping, if_neg (by simp [hready])]
    by_cases hmain : 0 ≤ i.script.main
    · rw [bottom, if_pos hmain, started, entry, Int.max_eq_left hmain]
      simp only [modifyScript, if_pos hmain, hstack]
      rfl
    · rw [bottom, if_neg hmain, started, entry, Int.max_eq_right (by omega), ← hstack]
      simp only [modifyScript, if_neg hmain]
      rfl
  change some i.startStepping.shown = _
  rw [hstart]
  exact congrArg some (shown_eq (.inr herrors))

/-- One step, as long as the script does not sleep. -/
theorem execute_step (hrunning : i.script.phase = .running) (hmode : i.script.stepMode = true)
    (hawake : i.script.sleepUntil = none) (herrors : i.step.script.phase = .error ∨ i.step.errors.isError = false) :
    i.execute limit .step = some i.step := by
  have htake : i.takeStep = i.step := by rw [takeStep, if_pos ⟨hrunning, hmode⟩, hawake]
  change some i.takeStep.shown = some i.step
  rw [htake, shown_eq herrors]

/-- A script with a `main` is initialised by a call from its start. -/
theorem execute_init (hphase : i.script.phase = .compiled) (hmain : 0 ≤ i.script.main) :
    i.execute limit .init =
      (callAt limit i 0 false).map fun k => (if k.script.phase = .error then k else k.setPhase .ready).shown := by
  unfold execute
  dsimp only
  unfold initialise
  rw [if_neg (by simp [hphase]), if_pos hmain]
  cases callAt limit i 0 false <;> rfl

/-- A script that is ready after compiling has nothing to go back to, and no error. -/
theorem initialised {source : String} (hcompiled : (i.compile source).2 = .done)
    (hinit : (i.compile source).1.execute limit .init = some j) (hready : j.script.phase = .ready) :
    j.script.stack = [] ∧ j.errors.isError = false := by
  obtain ⟨hphase, hstack⟩ := compile_done hcompiled
  generalize (i.compile source).1 = c at hinit hphase hstack
  obtain ⟨k, hk, rfl⟩ : ∃ k : Interpreter κ, (k.script.phase = .error ∨ k.script.stack = []) ∧
      j = (if k.script.phase = .error then k else k.setPhase .ready).shown := by
    by_cases hmain : 0 ≤ c.script.main
    · rw [execute_init hphase hmain] at hinit
      obtain ⟨k, hcall, rfl⟩ := Option.map_eq_some_iff.mp hinit
      exact ⟨k, hstack ▸ callAt_stack (by simp [hphase]) (by simp [hphase]) (Int.le_refl 0) hcall, rfl⟩
    · unfold execute at hinit
      dsimp only at hinit
      unfold initialise at hinit
      rw [if_neg (by simp [hphase]), if_neg hmain] at hinit
      exact ⟨c, .inr hstack, (Option.some_inj.mp hinit).symm⟩
  -- an error would show in the phase
  obtain ⟨herrors, hshown⟩ := shown_of_phase fun herror => nomatch hready.symm.trans herror
  rw [hshown] at hready ⊢
  have hgoing : k.script.phase ≠ .error := by
    intro hfailed
    rw [if_pos hfailed] at hready
    cases hfailed.symm.trans hready
  rw [if_neg hgoing] at herrors ⊢
  exact ⟨hk.resolve_left hgoing, herrors⟩

/-! ## Walks -/

/-- Single steps lead from one interpreter to another one. -/
inductive Walks (limit : Nat) : Interpreter κ → Interpreter κ → Prop
  | last {i j : Interpreter κ} : i.execute limit .step = some j → Walks limit i j
  | next {i j k : Interpreter κ} : i.execute limit .step = some j → j.script.phase = .running → Walks limit j k →
    Walks limit i k

theorem Walks.step (h : Walks limit i j) (hrunning : j.script.phase = .running) (hk : j.execute limit .step = some k) :
    Walks limit i k := by
  induction h with
  | last hj => exact .next hj hrunning (.last hk)
  | next hj hgoing _ ih => exact .next hj hgoing (ih hrunning hk)

theorem Walks.getLast (h : Walks limit i j) : ∃ n, (i.walk limit n).getLast? = some j := by
  induction h with
  | last hj =>
    refine ⟨1, ?_⟩
    rw [walk, hj]
    simp [walk]
  | next hj hgoing _ ih =>
    obtain ⟨n, hn⟩ := ih
    refine ⟨n + 1, ?_⟩
    rw [walk, hj]
    dsimp only
    rw [if_pos hgoing, List.getLast?_cons, hn]
    rfl

/-! ## What is told -/

/-- The variables of a script and what it has written. -/
def told (i : Interpreter κ) : List ScriptVariable × Array String := (i.script.vars, i.script.output)

theorem settle_told (i : Interpreter κ) : i.settle.told = i.told := by
  unfold settle
  dsimp only
  split <;> rfl

/-- A run leaves the script as its call does, once that is over. -/
theorem shown_finished (hover : i.script.phase ≠ .running)
    (herrors : i.script.phase = .error ∨ i.errors.isError = false) :
    i.finished.shown.told = i.told ∧ i.finished.shown.script.phase = i.script.phase ∧
      i.finished.shown.errors = i.errors := by
  have hfinished : i.finished.told = i.told ∧ i.finished.script.phase = i.script.phase ∧
      i.finished.errors = i.errors := by
    unfold finished
    split
    · exact absurd ‹_› hover
    · exact ⟨rfl, rfl, rfl⟩
    · exact ⟨rfl, rfl, rfl⟩
  have hshown : i.finished.shown = i.finished := by
    apply shown_eq
    rw [hfinished.2.1, hfinished.2.2]
    exact herrors
  rwa [hshown]

/-- A return tells nothing but its own trace. -/
theorem returned_told {instruction : Instruction} (hnext : k.next? = some instruction) (hret : instruction.opcode = .ret)
    {ip : Int} {stack : List Int} (hstack : k.script.stack = ip :: stack) :
    k.step.told = (k.modifyScript traceInstruction).told ∧ k.step.errors = k.errors ∧
      k.step.script.phase = .running ∧ k.step.script.ip = ip := by
  have htrace : (traceInstruction k.script).phase = k.script.phase := congrArg (·.1.2.2.1) (trace_posture k.script)
  rw [step_returns hnext hret hstack]
  exact ⟨settle_told _, congrArg Prod.fst (settle_remains _),
    (settle_phase _).trans (htrace.trans (next_eq hnext).1), settle_ip _⟩

/-! ## Steps beside a run -/

/-- The interpreters that a run goes through. -/
def DuringRun (i k : Interpreter κ) : Prop := During i.caller i.entry k

/-- The run comes to the return that belongs to it. -/
def RunReturns (i : Interpreter κ) : Prop := i.caller.Returns i.entry

/-- A ready script with nothing left over from what it did before. -/
structure Rested (i : Interpreter κ) : Prop where
  ready : i.script.phase = .ready
  stack : i.script.stack = []
  errors : i.errors.isError = false
  awake : i.script.sleepUntil = none

/-- What single steps from `s` have come to beside a run, over their own bottom of the stack. -/
structure Follows (limit : Nat) (bottom : List Int) (s k : Interpreter κ) (frames : List Int) : Prop where
  stack : k.script.stack = frames ++ [-1]
  walks : k.beside (frames ++ bottom) true = s ∨ s.Walks limit (k.beside (frames ++ bottom) true)
  errors : k.script.phase = .error ∨ k.errors.isError = false
  awake : k.remains.2 = (false, none)

variable {bottom frames : List Int}

/-- While the script runs there is a step to take beside it. -/
theorem Follows.next (h : Follows limit bottom s k frames) (hrunning : k.script.phase = .running) :
    s.Walks limit (k.beside (frames ++ bottom) true).step := by
  have herrors : k.errors.isError = false := h.errors.resolve_left (by simp [hrunning])
  have hstep : (k.beside (frames ++ bottom) true).execute limit .step = some (k.beside (frames ++ bottom) true).step :=
    execute_step hrunning rfl (congrArg Prod.snd h.awake) (step_errors hrunning herrors)
  rcases h.walks with rfl | hs
  · exact .last hstep
  · exact hs.step hrunning hstep

section Sleepless

variable (limit : Nat) (hi : i.Rested) (hsleep : ∀ k, i.DuringRun k → ¬k.CallsNext .sleep)

include hi hsleep

/-- Single steps follow a run, as long as its call is not over. -/
theorem DuringRun.follows (bottom : List Int) (hk : i.DuringRun k) :
    ∃ frames, Follows limit bottom (i.started bottom) k frames := by
  induction hk with
  | start =>
    have hstack : (i.caller.begun i.entry).script.stack = [-1] := congrArg (-1 :: ·) hi.stack
    exact ⟨[], hstack, .inl rfl, .inr hi.errors, Prod.ext rfl hi.awake⟩
  | @step k hk hrunning hdepth ih =>
    obtain ⟨frames, hf⟩ := ih
    -- the bottom is not reached, since the call is not over after the step either
    obtain ⟨frames', hstack, hbeside⟩ := step_beside hrunning (hsleep k hk) hf.stack
      (List.cons_ne_nil _ _) (Nat.lt_of_le_of_lt (Nat.zero_le _) hdepth) bottom
    have herrors : k.errors.isError = false := hf.errors.resolve_left (by simp [hrunning])
    exact ⟨frames', hstack, .inr (hbeside ▸ hf.next hrunning), step_errors hrunning herrors,
      (step_awake (congrArg Prod.fst hf.awake)).trans hf.awake⟩

/-! ## How stepping and running end -/

/-- A script that ends or fails in a run does so as well when it is stepped. -/
theorem stopped_agrees (hk : i.DuringRun k) (hstopped : k.script.phase ≠ .running) (bottom : List Int) :
    (k.script.phase = .error ∨ k.errors.isError = false) ∧
      ∃ k', (i.started bottom).Walks limit k' ∧ k'.told = k.told ∧ k'.script.phase = k.script.phase ∧
        k'.errors = k.errors := by
  obtain ⟨frames, hf⟩ := hk.follows limit hi hsleep bottom
  refine ⟨hf.errors, k.beside (frames ++ bottom) true, ?_, rfl, rfl, rfl⟩
  -- the script runs when it is started
  refine hf.walks.resolve_left fun hstart => hstopped ?_
  exact congrArg (·.script.phase) hstart

variable {instruction : Instruction} (hnext : k.next? = some instruction) (hret : instruction.opcode = .ret)

include hnext hret

/-- Where a run returns, single steps return, too, and then find that the script is at its end. -/
theorem returned_ready (hk : i.DuringRun k) (hstack : k.script.stack = [-1]) :
    ∃ k', (i.started [-1]).Walks limit k' ∧ k'.told = k.step.told ∧ k'.script.phase = .ready ∧
      k'.errors = k.errors := by
  obtain ⟨frames, hf⟩ := hk.follows limit hi hsleep [-1]
  obtain rfl : frames = [] := by simpa [hstack] using hf.stack
  have hrunning := (next_eq hnext).1
  have herrors : k.errors.isError = false := hf.errors.resolve_left (by simp [hrunning])
  obtain ⟨-, hkept, hgoing, hip⟩ := returned_told hnext hret hstack
  have hstep : (k.beside [-1] true).step = k.step.beside [] true := by
    have hbeside : (k.beside [-1] true).next? = some instruction := hnext
    rw [step_returns hbeside hret rfl, step_returns hnext hret hstack, ← settle_beside, trace_beside]
    rfl
  have hwalks : (i.started [-1]).Walks limit (k.step.beside [] true) := hstep ▸ hf.next hrunning
  -- it has returned to where there is no instruction
  have hphase : (k.step.beside [] true).script.phase = .running := hgoing
  have hend : (k.step.beside [] true).next? = none := by
    have hplace : (k.step.beside [] true).script.ip = -1 := hip
    rw [next?, if_pos hphase, hplace]
    rfl
  have hawake : (k.step.beside [] true).script.sleepUntil = none :=
    congrArg Prod.snd ((step_awake (congrArg Prod.fst hf.awake)).trans hf.awake)
  have hready := hwalks.step hphase (execute_step hphase rfl hawake
    (step_errors hphase ((congrArg ErrorState.isError hkept).trans herrors)))
  rw [step_behindCode hphase hend] at hready
  exact ⟨_, hready, rfl, rfl, hkept⟩

/-- Stepping fails where a run returns, if there is nothing to go back to. -/
theorem returned_nowhere (hk : i.DuringRun k) (hstack : k.script.stack = [-1]) :
    ∃ k', (i.started []).Walks limit k' ∧ k'.told = k.step.told ∧ k'.script.phase = .error := by
  obtain ⟨frames, hf⟩ := hk.follows limit hi hsleep []
  obtain rfl : frames = [] := by simpa [hstack] using hf.stack
  have hbeside : (k.beside [] true).next? = some instruction := hnext
  refine ⟨(k.beside [] true).step, hf.next (next_eq hnext).1, ?_, ?_⟩
  · rw [(returned_told hnext hret hstack).1, step_returnsNowhere hbeside hret rfl, trace_beside]
    exact settle_told _
  · rw [step_returnsNowhere hbeside hret rfl]
    exact settle_phase _

/-- Where a run returns, single steps come to the same values and lines; they only end in the same way if they
have something to go back to. -/
theorem returned_agrees (hk : i.DuringRun k) (hstack : k.script.stack = [-1]) :
    ∃ k', (i.started i.bottom).Walks limit k' ∧ k'.script.phase ≠ .running ∧ k'.told = k.step.told ∧
      (k'.script.phase = .ready ∧ k'.errors.kind = k.step.errors.kind ↔ 0 ≤ i.script.main) := by
  obtain ⟨-, hkept, -⟩ := returned_told hnext hret hstack
  by_cases hmain : 0 ≤ i.script.main
  · obtain ⟨k', hwalks, htold, hphase, herrors⟩ := returned_ready limit hi hsleep hnext hret hk hstack
    rw [bottom, if_pos hmain]
    refine ⟨k', hwalks, by simp [hphase], htold, iff_of_true ?_ hmain⟩
    exact ⟨hphase, congrArg ErrorState.kind (herrors.trans hkept.symm)⟩
  · obtain ⟨k', hwalks, htold, hphase⟩ := returned_nowhere limit hi hsleep hnext hret hk hstack
    rw [bottom, if_neg hmain]
    refine ⟨k', hwalks, by simp [hphase], htold, iff_of_false ?_ hmain⟩
    rintro ⟨hready, -⟩
    cases hphase.symm.trans hready

omit hnext hret

/-- Single steps come to the same values and lines as a run, and to the same phase and the same kind of error
unless they have nowhere to go back to where the run returns. -/
theorem steps_end (hoff : ∀ k, i.DuringRun k → k.script.maxLoopTime = none) (hrun : i.execute limit .run = some j) :
    ∃ k, (i.started i.bottom).Walks limit k ∧ k.script.phase ≠ .running ∧ k.told = j.told ∧
      (k.script.phase = j.script.phase ∧ k.errors.kind = j.errors.kind ↔ 0 ≤ i.script.main ∨ ¬i.RunReturns) := by
  rw [execute_run hi.ready] at hrun
  obtain ⟨called, hcall, rfl⟩ := Option.map_eq_some_iff.mp hrun
  have hready : i.caller.script.phase = .ready := hi.ready
  have hentry : 0 ≤ i.entry := Int.le_max_right _ _
  rw [callAt_eq (by simp [hready]) (by simp [hready]) hentry] at hcall
  rcases runCall_ends rfl .start hcall with
    ⟨k, hk, hrunning, hback, rfl⟩ | ⟨k, hk, hstopped, rfl⟩ | ⟨k, hk, hlate, rfl⟩
  · -- the run returns
    obtain ⟨instruction, hnext, hret, hframe⟩ := During.back hk hrunning hback
    have hreturns : i.RunReturns := ⟨k, instruction, hk, hnext, hret, by simp [hframe]⟩
    have hstack : k.script.stack = [-1] := hframe.trans (congrArg (-1 :: ·) hi.stack)
    obtain ⟨frames, hf⟩ := DuringRun.follows limit hi hsleep [] hk
    have herrors : k.errors.isError = false := hf.errors.resolve_left (by simp [hrunning])
    obtain ⟨-, hkept, -⟩ := returned_told hnext hret hstack
    obtain ⟨k', hwalks, hstopped, htold, hagree⟩ := returned_agrees limit hi hsleep hnext hret hk hstack
    rw [hready]
    have hover : (k.step.setPhase .ready).script.phase ≠ .running := fun h => nomatch h
    obtain ⟨hsame, hphase, hkind⟩ := shown_finished hover
      (.inr ((congrArg ErrorState.isError hkept).trans herrors))
    rw [hsame, hphase, hkind]
    refine ⟨k', hwalks, hstopped, htold, hagree.trans ?_⟩
    simp [hreturns]
  · -- the script ends or fails
    obtain ⟨herrors, k', hwalks, htold, hphase', herrors'⟩ := stopped_agrees limit hi hsleep hk hstopped i.bottom
    obtain ⟨hsame, hphase, hkind⟩ := shown_finished
      (i := k.modifyScript (·.truncateStack i.caller.script.stack.length)) hstopped herrors
    rw [hsame, hphase, hkind]
    refine ⟨k', hwalks, hphase' ▸ hstopped, htold, iff_of_true ?_ (.inr (During.stopped hk hstopped))⟩
    exact ⟨hphase', congrArg ErrorState.kind herrors'⟩
  · -- no call takes too long
    rw [isLate, hoff k hk] at hlate
    cases hlate

end Sleepless

/-- Stepping a script that was compiled and initialised agrees with running it, as long as the time of calls is
not limited and nothing sleeps. It comes to an end if the run does, with the same values of the variables and the
same output; and it ends in the same phase with the same kind of error unless a script without a label `main`
comes to the return of its run. -/
theorem stepping_agrees_iff (i : Interpreter κ) (source : String) (limit limit' : Nat) (r j : Interpreter κ)
    (hcompiled : (i.compile source).2 = .done) (hinit : (i.compile source).1.execute limit .init = some r)
    (hready : r.script.phase = .ready) (hawake : r.script.sleepUntil = none)
    (hoff : ∀ k, r.DuringRun k → k.script.maxLoopTime = none)
    (hsleep : ∀ k, r.DuringRun k → ¬k.CallsNext .sleep) (hrun : r.execute limit' .run = some j) :
    ∃ s n k, r.execute limit' .start = some s ∧ (s.walk limit' n).getLast? = some k ∧ k.script.phase ≠ .running ∧
      k.script.vars = j.script.vars ∧ k.script.output = j.script.output ∧
      (k.script.phase = j.script.phase ∧ k.errors.kind = j.errors.kind ↔ 0 ≤ r.script.main ∨ ¬r.RunReturns) := by
  obtain ⟨hstack, herrors⟩ := initialised hcompiled hinit hready
  obtain ⟨k, hwalks, hover, htold, hagree⟩ := steps_end limit' ⟨hready, hstack, herrors, hawake⟩ hsleep hoff hrun
  obtain ⟨n, hn⟩ := hwalks.getLast
  exact ⟨_, n, k, execute_start hready hstack herrors, hn, hover, congrArg Prod.fst htold, congrArg Prod.snd htold,
    hagree⟩

/-- A script that prints and returns, without a label `main`: stepping it prints the same, and fails. -/
theorem stepped_return_fails :
    let script := ((new (Registry.empty : Registry Empty) false 0).compile "print(1); return;").1
    ∃ r j s n k, script.execute 9 .init = some r ∧ r.execute 9 .run = some j ∧ r.execute 9 .start = some s ∧
      (s.walk 9 n).getLast? = some k ∧ k.script.phase ≠ .running ∧ k.script.vars = j.script.vars ∧
      k.script.output = j.script.output ∧ j.script.phase = .ready ∧
      ¬(k.script.phase = j.script.phase ∧ k.errors.kind = j.errors.kind) := by
  intro script
  obtain ⟨r, hinit, ⟨hready, hawake, hmain⟩, hran, hsteps, hback, hret, hdeeper⟩ :
      ∃ r, script.execute 9 .init = some r ∧
        (r.script.phase = .ready ∧ r.script.sleepUntil = none ∧ ¬0 ≤ r.script.main) ∧
        (r.execute 9 .run).map (·.script.phase) = some .ready ∧
        (∀ m ≤ 1, (Nat.repeat step m (r.caller.begun r.entry)).script.maxLoopTime = none ∧
          ¬(Nat.repeat step m (r.caller.begun r.entry)).CallsNext .sleep) ∧
        (Nat.repeat step (1 + 1) (r.caller.begun r.entry)).script.stack.length ≤ r.caller.script.stack.length ∧
        (r.caller.begun r.entry).step.next?.map (·.opcode) = some .ret ∧
        (r.caller.begun r.entry).step.script.stack.length = r.caller.script.stack.length + 1 := by
    have hend : (script.execute 9 .init).isSome := by decide +kernel
    refine ⟨(script.execute 9 .init).getD script, ?_, by decide +kernel⟩
    exact (Option.some_get hend).symm.trans (congrArg some (Option.get_eq_getD _))
  obtain ⟨j, hrun, hjready⟩ := Option.map_eq_some_iff.mp hran
  have hduring : ∀ k, r.DuringRun k → k.script.maxLoopTime = none ∧ ¬k.CallsNext .sleep := by
    intro k hk
    exact During.of_steps (P := fun k => k.script.maxLoopTime = none ∧ ¬k.CallsNext .sleep) hsteps (.inr hback) hk
  have hreturns : r.RunReturns := by
    obtain ⟨instruction, hnext, hop⟩ := Option.map_eq_some_iff.mp hret
    have hprinted : r.DuringRun (r.caller.begun r.entry).step := by
      apply During.step .start rfl
      rw [hdeeper]
      exact Nat.lt_succ_self _
    exact ⟨_, instruction, hprinted, hnext, hop, hdeeper⟩
  have hcompiled : ((new (Registry.empty : Registry Empty) false 0).compile "print(1); return;").2 = .done := by
    decide +kernel
  obtain ⟨s, n, k, hstart, hlast, hover, hvars, houtput, hagree⟩ :=
    stepping_agrees_iff _ _ 9 9 r j hcompiled hinit hready hawake (fun k hk => (hduring k hk).1)
      (fun k hk => (hduring k hk).2) hrun
  refine ⟨r, j, s, n, k, hinit, hrun, hstart, hlast, hover, hvars, houtput, hjready, ?_⟩
  intro hsame
  rcases hagree.mp hsame with hlabel | hno
  · exact hmain hlabel
  · exact hno hreturns

end Interpreter

end HostScript
