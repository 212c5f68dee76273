import HostScript.Proofs.CallsInTime
import HostScript.Proofs.Stepping
/-!
# Exit codes

An exit code is written where a script fails, where it calls `exit` and where it comes to the end of its code. A
run that comes back writes none, so that the code of an earlier run stays. And an error that was left before a run
shows in the phase afterwards, but not in the code.
-/

set_option autoImplicit false

namespace HostScript

open Structured ScriptState

namespace Interpreter

variable {κ μ : Type} [NativeObject κ μ] {i j k : Interpreter κ} {instruction : Instruction} {ip : Int} {limit : Nat}

/-! ## Steps -/

/-- An instruction after which the script keeps running writes no exit code. -/
theorem step_exitCode (hrunning : i.script.phase = .running) (hgoing : i.step.script.phase = .running) :
    i.step.script.exitCode = i.script.exitCode := by
  have hsettle : ∀ j : Interpreter κ, j.settle.script.phase = .running →
      j.settle.script.exitCode = j.script.exitCode := by
    intro j hj
    rw [settle_phase] at hj
    exact settle_exitCode (by simp [hj])
  cases hnext : i.next? with
  | none =>
    rw [step_behindCode hrunning hnext] at hgoing
    cases hgoing
  | some instruction =>
    by_cases he : Evaluates instruction
    · obtain ⟨k, v, hk, hcode, hstep⟩ := step_undisturbed hnext he hgoing
      rw [hstep] at hgoing ⊢
      rw [stepWith, hsettle _ hgoing, ← hcode]
      unfold goOn
      dsimp only
      split
      · rfl
      split
      · rfl
      split
      · rfl
      split <;> rfl
    have htrace : (traceInstruction i.script).exitCode = i.script.exitCode :=
      congrArg (·.2.1) (trace_posture i.script)
    rw [step_next hnext] at hgoing ⊢
    rw [hsettle _ hgoing, ← htrace, perform]
    split
    · rfl
    · exact absurd (.inl ‹_›) he
    · exact absurd (.inr ‹_›) he
    · rfl
    · rfl
    · split <;> rfl
    all_goals rfl

/-- Only an instruction that evaluates calls functions. -/
theorem CallsNext.evaluates {g : ScriptFunction} (h : i.CallsNext g) :
    ∃ instruction, i.next? = some instruction ∧ Evaluates instruction := by
  obtain ⟨e, he, -⟩ := h
  unfold stepEffects at he
  split at he
  · cases he
  rename_i hrunning
  split at he
  · rename_i instruction hget
    refine ⟨instruction, by rw [next?, if_pos (Classical.not_not.mp hrunning), hget], ?_⟩
    unfold performEffects at he
    split at he
    · exact .inl ‹_›
    · exact .inr ‹_›
    · cases he
  · cases he

theorem CallsNext.opcode {g : ScriptFunction} (h : i.CallsNext g) (hnext : i.next? = some instruction) :
    instruction.opcode ≠ .ret := by
  obtain ⟨instruction', hnext', he⟩ := h.evaluates
  obtain rfl := Option.some_inj.mp (hnext.symm.trans hnext')
  rcases he with he | he <;> simp [he]

/-- An expression that calls `exit` ends the script. -/
theorem calculate_exits (i : Interpreter κ) (text : String)
    (h : ∃ e ∈ effectsOf i.registry text i.script, e.use.Calls .exit) :
    (i.calculate text).1.script.phase = .ready := by
  have hinv : KeptByUses (μ := μ) i.registry fun t es => (∃ e ∈ es, e.use.Calls .exit) → t.phase = .ready := by
    refine ⟨fun t es x a ht _ => ?_, fun t es o ht => ?_⟩
    · rintro ⟨e, he, hc⟩
      rcases List.mem_append.mp he with he | he
      · -- what has ended stays so
        rcases (access_stays i.registry x a t).place with ⟨hready, -⟩ | ⟨hsame, -⟩
        · exact hready
        · exact hsame.trans (ht ⟨e, he, hc⟩)
      · obtain rfl := List.mem_singleton.mp he
        obtain ⟨args, hcall⟩ := hc
        cases hcall
        rfl
    · rintro ⟨e, he, hc⟩
      rcases List.mem_append.mp he with he | he
      · exact ht ⟨e, he, hc⟩
      · obtain rfl := List.mem_singleton.mp he
        obtain ⟨args, hcall⟩ := hc
        cases hcall
  exact calculate_invariant hinv text i.script i.errors (fun ⟨_, he, _⟩ => absurd he List.not_mem_nil) h

/-- With an instruction that calls `exit` the script ends, or fails. -/
theorem CallsNext.stops (h : i.CallsNext .exit) : i.step.script.phase ≠ .running := by
  obtain ⟨instruction, hnext, he⟩ := h.evaluates
  intro hgoing
  have hready : ((i.modifyScript traceInstruction).calculate instruction.text).1.script.phase = .ready := by
    rw [CallsNext, stepEffects_evaluates hnext he] at h
    exact calculate_exits _ _ h
  have hstack := ((stays_of_posture (trace_posture i.script)).trans
    (calculate_stays (i.modifyScript traceInstruction) instruction.text)).stack
  rw [step_evaluates hnext he, stepWith, settle_phase] at hgoing
  generalize (i.modifyScript traceInstruction).calculate instruction.text = outcome at hready hstack hgoing
  obtain ⟨k, v⟩ := outcome
  have hdepth : ¬k.script.stack.length < i.script.stack.length :=
    Nat.not_lt.mpr (Nat.le_of_eq (congrArg List.length hstack.symm))
  cases v with
  | none =>
    rw [goOn_none hdepth] at hgoing
    cases hgoing
  | some v =>
    have hended : k.script.phase ≠ .running := by
      rw [show k.script.phase = .ready from hready]
      decide
    rw [goOn_ended hdepth hended] at hgoing
    exact hended hgoing

/-! ## Calls -/

theorem During.exitCode (h : During i ip k) (hrunning : k.script.phase = .running) :
    k.script.exitCode = i.script.exitCode := by
  induction h with
  | start => rfl
  | step _ hgoing _ ih => exact (step_exitCode hgoing hrunning).trans (ih hgoing)

theorem During.errors (h : During i ip k) (hrunning : k.script.phase = .running) (herrors : i.errors.isError = false) :
    k.errors.isError = false := by
  induction h with
  | start => exact herrors
  | step _ hgoing _ ih =>
    refine (step_errors hgoing (ih hgoing)).resolve_left fun hfailed => ?_
    cases hfailed.symm.trans hrunning

theorem returned_depth {n : Nat} (hnext : k.next? = some instruction) (hret : instruction.opcode = .ret)
    (hdepth : k.script.stack.length = n + 1) : k.step.script.stack.length = n := by
  obtain ⟨ip, stack, hstack⟩ := List.exists_cons_of_length_eq_add_one hdepth
  rw [step_returns hnext hret hstack, settle_stack]
  exact Nat.succ.inj ((congrArg List.length hstack).symm.trans hdepth)

/-- A call comes to the return that belongs to it. -/
def ComesBack (i : Interpreter κ) (ip : Int) : Prop :=
  ∃ k instruction, i.ComesTo ip k ∧ k.next? = some instruction ∧ instruction.opcode = .ret ∧
    k.script.stack.length = i.script.stack.length + 1

/-- An instruction of a call calls `exit`. -/
def Exits (i : Interpreter κ) (ip : Int) : Prop := ∃ k, i.ComesTo ip k ∧ k.CallsNext .exit

/-- A call comes back with its last instruction. -/
theorem Last.comesBack_iff (hk : i.Last ip k) :
    i.ComesBack ip ↔ ∃ instruction, k.next? = some instruction ∧ instruction.opcode = .ret ∧
      k.script.stack.length = i.script.stack.length + 1 := by
  refine ⟨?_, fun ⟨instruction, hnext, hret, hdepth⟩ => ⟨k, instruction, hk.comes, hnext, hret, hdepth⟩⟩
  rintro ⟨k', instruction, hk', hnext, hret, hdepth⟩
  have hback := returned_depth hnext hret hdepth
  obtain rfl : k' = k := Last.unique ⟨hk', (next_eq hnext).1, .inl (Nat.le_of_eq hback)⟩ hk
  exact ⟨instruction, hnext, hret, hdepth⟩

/-- A call that calls `exit` does so with its last instruction. -/
theorem Last.exits_iff (hk : i.Last ip k) : i.Exits ip ↔ k.CallsNext .exit := by
  refine ⟨?_, fun hexit => ⟨k, hk.comes, hexit⟩⟩
  rintro ⟨k', hk', hexit⟩
  obtain ⟨instruction, hnext, -⟩ := hexit.evaluates
  obtain rfl : k' = k := Last.unique ⟨hk', (next_eq hnext).1, .inr (.inl hexit.stops)⟩ hk
  exact hexit

/-- What the last instruction of a call leaves of a ready script. -/
inductive Outcome (i k j : Interpreter κ) : Prop
  | back (instruction : Instruction) : k.next? = some instruction → instruction.opcode = .ret →
    k.script.stack.length = i.script.stack.length + 1 → j.script.phase = .ready →
    j.script.exitCode = i.script.exitCode → j.errors = k.errors → Outcome i k j
  | behindCode : k.next? = none → j.script.phase = .ready → j.script.exitCode = .normal → j.errors = k.errors →
    Outcome i k j
  | exits : k.CallsNext .exit → j.script.phase = .ready → j.script.exitCode = .script → j.errors.isError = false →
    Outcome i k j
  | fails : i.script.stack.length < k.step.script.stack.length → j.script.phase = .error → Outcome i k j

theorem call_outcome (hready : i.script.phase = .ready) (hip : 0 ≤ ip) (h : callAt limit i ip false = some j) :
    ∃ k, i.Last ip k ∧ Outcome i k j := by
  obtain ⟨k, hk, hout⟩ := callAt_last (by simp [hready]) (by simp [hready]) hip h
  refine ⟨k, hk, ?_⟩
  cases hout with
  | back hback hj =>
    obtain ⟨instruction, hnext, hret, hframe⟩ := hk.comes.during.back hk.running hback
    obtain ⟨-, herrors, hgoing, -⟩ := returned_told hnext hret hframe
    subst hj
    exact .back instruction hnext hret (by simp [hframe]) hready
      ((step_exitCode hk.running hgoing).trans (hk.comes.during.exitCode hk.running)) herrors
  | stopped hdepth hstopped hj =>
    subst hj
    cases step_moves hk.running with
    | goes hgoing => exact absurd hgoing hstopped
    | calls _ hgoing => exact absurd hgoing hstopped
    | returns _ _ _ _ _ hgoing => exact absurd hgoing hstopped
    | fails herror => exact .fails hdepth herror
    | ends hends hended =>
      generalize hcode : k.step.script.exitCode = code at hends
      cases hends with
      | behindCode hrunning hnext =>
        have herrors : k.step.errors = k.errors := by rw [step_behindCode hrunning hnext]; rfl
        exact .behindCode hnext hended hcode herrors
      | exit hexit =>
        obtain ⟨instruction, hnext, he⟩ := hexit.evaluates
        have hclean := (evaluated_errors hnext he).resolve_left fun hfailed => nomatch hended.symm.trans hfailed
        exact .exits hexit hended hcode hclean
  | late hdepth _ hj =>
    subst hj
    exact .fails hdepth rfl

/-! ## Runs -/

/-- The exit code tells how a run has come out: whether it has failed, and whether it has called `exit`. -/
structure Tells (i j : Interpreter κ) : Prop where
  failed : j.script.phase = .error → j.script.exitCode = .error
  exited : j.script.phase ≠ .error → i.caller.Exits i.entry → j.script.exitCode = .script
  ended : j.script.phase ≠ .error → ¬i.caller.Exits i.entry → j.script.exitCode = .normal

/-- An error is left when the call of a run has come to its end without failing. -/
def LeavesError (limit : Nat) (i : Interpreter κ) : Prop :=
  ∃ c, callAt limit i.caller i.entry false = some c ∧ c.script.phase ≠ .error ∧ c.errors.isError = true

/-- Such an error was there before. -/
theorem LeavesError.before (hready : i.script.phase = .ready) (h : i.LeavesError limit) : i.errors.isError = true := by
  obtain ⟨c, hcall, hphase, hleft⟩ := h
  have hcaller : i.caller.script.phase = .ready := hready
  obtain ⟨k, hk, hout⟩ := call_outcome hcaller (Int.le_max_right _ _) hcall
  refine Classical.byContradiction fun hno => ?_
  have hclean := hk.comes.during.errors hk.running (Bool.eq_false_iff.mpr hno)
  cases hout with
  | back _ _ _ _ _ _ herrors | behindCode _ _ _ herrors =>
    rw [herrors, hclean] at hleft
    cases hleft
  | exits _ _ _ herrors =>
    rw [herrors] at hleft
    cases hleft
  | fails _ herror => exact hphase herror

/-- An error that the call has left shows, and then the code is to be `Error`. -/
theorem tells_iff (hphase : j.script.phase = .ready) : i.Tells j.finished.shown ↔
    if j.errors.isError then j.script.exitCode = .error
    else (i.caller.Exits i.entry → j.script.exitCode = .script) ∧
      (¬i.caller.Exits i.entry → j.script.exitCode = .normal) := by
  have hfinished : j.finished = j := by
    unfold finished
    rw [hphase]
  rw [hfinished]
  unfold shown
  split
  · exact ⟨fun h => h.failed rfl, fun h => ⟨fun _ => h, fun hno => absurd rfl hno, fun hno => absurd rfl hno⟩⟩
  · have hno : j.script.phase ≠ .error := by simp [hphase]
    exact ⟨fun h => ⟨h.exited hno, h.ended hno⟩, fun h => ⟨fun herror => absurd herror hno, fun _ => h.1, fun _ => h.2⟩⟩

theorem tells_failed (hphase : j.script.phase = .error) : i.Tells j.finished.shown := by
  have hfinished : j.finished = j.exitWith .error := by
    unfold finished
    rw [hphase]
  rw [hfinished, shown_eq (i := j.exitWith .error) (.inl hphase)]
  exact ⟨fun _ => rfl, fun hno => absurd hphase hno, fun hno => absurd hphase hno⟩

/-- The exit code tells how the last run has come out, unless it is left over from before: a run that comes back has
the code from before it, which is right if that is `Normal`. An error that was there before and is left by the run
shows in the phase; then the code is right only if it was `Error` before, and the run has come back. -/
theorem exit_code_latest_iff (i j : Interpreter κ) (limit : Nat) (hready : i.script.phase = .ready)
    (hrun : i.execute limit .run = some j) :
    (¬i.LeavesError limit → (i.Tells j ↔ (i.caller.ComesBack i.entry → i.script.exitCode = .normal))) ∧
      (i.LeavesError limit → (i.Tells j ↔ i.caller.ComesBack i.entry ∧ i.script.exitCode = .error)) := by
  rw [execute_run hready] at hrun
  obtain ⟨c, hcall, rfl⟩ := Option.map_eq_some_iff.mp hrun
  have hcaller : i.caller.script.phase = .ready := hready
  have hentry : 0 ≤ i.entry := Int.le_max_right _ _
  obtain ⟨k, hk, hout⟩ := call_outcome hcaller hentry hcall
  have hleaves : i.LeavesError limit ↔ c.script.phase ≠ .error ∧ c.errors.isError = true := by
    refine ⟨?_, fun h => ⟨c, hcall, h⟩⟩
    rintro ⟨c', hcall', h⟩
    obtain rfl := Option.some_inj.mp (hcall.symm.trans hcall')
    exact h
  rw [hleaves, hk.comesBack_iff]
  cases hout with
  | back instruction hnext hret hdepth hphase hcode _ =>
    have hcode : c.script.exitCode = i.script.exitCode := hcode
    have hback : ∃ instruction, k.next? = some instruction ∧ instruction.opcode = .ret ∧
        k.script.stack.length = i.caller.script.stack.length + 1 := ⟨instruction, hnext, hret, hdepth⟩
    have hexits : ¬i.caller.Exits i.entry := fun hexits => (hk.exits_iff.mp hexits).opcode hnext hret
    rw [tells_iff hphase, hcode]
    cases c.errors.isError <;> simp [hphase, hback, hexits]
  | behindCode hnext hphase hcode _ =>
    have hback : ¬∃ instruction, k.next? = some instruction ∧ instruction.opcode = .ret ∧
        k.script.stack.length = i.caller.script.stack.length + 1 := by simp [hnext]
    have hexits : ¬i.caller.Exits i.entry := by
      rw [hk.exits_iff]
      intro hexit
      obtain ⟨instruction, hnext', -⟩ := hexit.evaluates
      cases hnext.symm.trans hnext'
    rw [tells_iff hphase, hcode]
    cases c.errors.isError <;> simp [hphase, hback, hexits]
  | exits hexit hphase hcode herrors =>
    have hback : ¬∃ instruction, k.next? = some instruction ∧ instruction.opcode = .ret ∧
        k.script.stack.length = i.caller.script.stack.length + 1 := by
      rintro ⟨instruction, hnext, hret, -⟩
      exact hexit.opcode hnext hret
    rw [tells_iff hphase, hcode]
    simp [herrors, hback, hk.exits_iff.mpr hexit]
  | fails hdeeper hphase =>
    have hback : ¬∃ instruction, k.next? = some instruction ∧ instruction.opcode = .ret ∧
        k.script.stack.length = i.caller.script.stack.length + 1 := by
      rintro ⟨instruction, hnext, hret, hdepth⟩
      rw [returned_depth hnext hret hdepth] at hdeeper
      exact Nat.lt_irrefl _ hdeeper
    have htells : i.Tells c.finished.shown := tells_failed hphase
    simp [hphase, htells, hback]

/-- A script that calls `exit` in its first run and returns from its second one, which shows the code of the first. -/
theorem exit_code_stays :
    let script := ((new (Registry.empty : Registry Empty) false 0).compile
      "int n; return; :main; if (n) return; n = 1; exit(0);").1
    ∃ r i j, script.execute 9 .init = some r ∧ r.execute 9 .run = some i ∧ i.execute 9 .run = some j ∧
      i.script.phase = .ready ∧ ¬i.LeavesError 9 ∧ i.caller.ComesBack i.entry ∧ j.script.phase = .ready ∧
      j.script.exitCode = .script ∧ ¬i.Tells j := by
  intro script
  have hruns : (script.execute 9 .init).any (fun r => (r.execute 9 .run).any fun i =>
      i.script.phase = .ready ∧ i.script.exitCode = .script ∧ i.errors.isError = false ∧
      (i.caller.begun i.entry).step.next?.any (fun l => l.opcode = .ret) ∧
      i.caller.script.stack.length < (i.caller.begun i.entry).step.script.stack.length ∧
      isLate (i.caller.begun i.entry).step.script i.caller.callNow = false ∧
      (i.caller.begun i.entry).step.script.stack.length = i.caller.script.stack.length + 1 ∧
      (i.execute 9 .run).any fun j => j.script.phase = .ready ∧ j.script.exitCode = .script) = true := by
    decide +kernel
  obtain ⟨r, hinit, hr⟩ := (Option.any_eq_true _ _).mp hruns
  obtain ⟨i, hfirst, hi⟩ := (Option.any_eq_true _ _).mp hr
  obtain ⟨hready, hcode, herrors, hret, hdeeper, hlate, hdepth, hran⟩ := of_decide_eq_true hi
  obtain ⟨j, hsecond, hj⟩ := (Option.any_eq_true _ _).mp hran
  obtain ⟨hended, hcode'⟩ := of_decide_eq_true hj
  obtain ⟨instruction, hnext, hop⟩ := (Option.any_eq_true _ _).mp hret
  have hback : i.caller.ComesBack i.entry :=
    ⟨_, instruction, .step .start rfl hdeeper hlate, hnext, of_decide_eq_true hop, hdepth⟩
  have hclean : ¬i.LeavesError 9 := fun h => by
    rw [h.before hready] at herrors
    cases herrors
  refine ⟨r, i, j, hinit, hfirst, hsecond, hready, hclean, hback, hended, hcode', fun htells => ?_⟩
  have hnormal := ((exit_code_latest_iff i j 9 hready hsecond).1 hclean).mp htells hback
  cases hcode.symm.trans hnormal

end Interpreter

end HostScript
