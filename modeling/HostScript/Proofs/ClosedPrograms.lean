import HostScript.Proofs.LinkedPrograms
import HostScript.Proofs.Stepping
/-!
# Running closed programs

A script that runs a closed program never leaves it: wherever it is called, initialised, run or started, it stands
at an instruction, right behind the last one or nowhere, and so does everything it goes back to. So whenever it
takes a step there is an instruction to carry out that linking has settled, or the script is at its end.
-/

set_option autoImplicit false

namespace HostScript

open ScriptState

/-- Where a script that runs the program may stand, or go back to: within the program, or nowhere. -/
def Program.Place (p : Program) (ip : Int) : Prop := ip = -1 ∨ p.Within ip

namespace ScriptState

variable {κ μ : Type} [NativeObject κ μ] {registry : Registry κ} {p : Program} {s t : ScriptState κ}

/-- The script runs the program and stands within it, and so does everything it goes back to. -/
structure Inside (p : Program) (s : ScriptState κ) : Prop where
  program : s.program = p
  ip : p.Place s.ip
  stack : ∀ ip ∈ s.stack, p.Place ip
  main : p.Place s.main

/-- The script stands where it stood, whatever else may have changed. -/
structure Unmoved (s t : ScriptState κ) : Prop where
  program : t.program = s.program
  ip : t.ip = s.ip
  stack : t.stack = s.stack
  main : t.main = s.main

theorem Inside.unmoved (h : Inside p s) (hst : Unmoved s t) : Inside p t where
  program := hst.program.trans h.program
  ip := hst.ip ▸ h.ip
  stack := hst.stack ▸ h.stack
  main := hst.main ▸ h.main

/-! ## Evaluating -/

/-- No use of a script changes where `main` is. -/
theorem access_main (registry : Registry κ) (i : ScriptId μ) (a : Access) (s : ScriptState κ) :
    (access registry i a s).2.main = s.main := by
  refine @access_keeps κ μ Int (·.main) _ registry i a (fun _ _ => rfl) (fun _ _ => rfl) (fun _ _ => rfl) ?_ s
  rintro g args - - s
  cases g with
  | sleep =>
    change (ScriptFunction.pause s _).main = s.main
    unfold ScriptFunction.pause
    split <;> rfl
  | create =>
    unfold ScriptFunction.call
    dsimp only
    rcases registry.create (args.headD .undefined).text args.tail with kind | o <;> rfl
  | _ => rfl

theorem Stays.inside (h : Stays s t) (hmain : t.main = s.main) (hs : Inside p s) : Inside p t where
  program := h.program.trans hs.program
  ip := by
    rcases h.place with ⟨-, hip, -⟩ | ⟨-, hip, -⟩
    · exact .inl hip
    · exact hip ▸ hs.ip
  stack := h.stack ▸ hs.stack
  main := hmain ▸ hs.main

end ScriptState

namespace Interpreter

variable {κ μ : Type} [NativeObject κ μ] {p : Program} {i j k : Interpreter κ} {instruction : Instruction} {ip : Int}
  {limit : Nat}

theorem calculate_main (i : Interpreter κ) (text : String) : (i.calculate text).1.script.main = i.script.main := by
  have hinv : KeptByUses (μ := μ) i.registry fun t _ => t.main = i.script.main :=
    ⟨fun t _ x a ht _ => (access_main i.registry x a t).trans ht, fun _ _ _ ht => ht⟩
  exact calculate_invariant hinv text i.script i.errors rfl

/-- An expression leaves a script inside of its program. -/
theorem calculate_inside (h : Inside p i.script) (text : String) : Inside p (i.calculate text).1.script :=
  (calculate_stays i text).inside (calculate_main i text) h

/-! ## Steps -/

theorem inside_jumpTo (h : Inside p i.script) (hip : p.Place ip) : Inside p (i.jumpTo ip).script :=
  ⟨h.program, hip, h.stack, h.main⟩

theorem inside_setPhase (h : Inside p i.script) (phase : Phase) : Inside p (i.setPhase phase).script :=
  ⟨h.program, h.ip, h.stack, h.main⟩

theorem settle_inside (h : Inside p i.script) : Inside p i.settle.script := by
  unfold settle
  dsimp only
  split <;> exact ⟨h.program, h.ip, h.stack, h.main⟩

/-- At an instruction, the next position is within the program, too. -/
theorem within_of_get (h : p.get? ip = some instruction) : 0 ≤ ip ∧ ip < p.size := by
  unfold Program.get? at h
  split at h
  · cases h
  · obtain ⟨hlt, -⟩ := List.getElem?_eq_some_iff.mp h
    rw [Program.size]
    omega

/-- An instruction that evaluates goes on behind it or to its target, or leaves the script where it ended. -/
theorem evaluate_inside (hp : p.Closed) (h : Inside p i.script) (hget : p.get? i.script.ip = some instruction) :
    Inside p (i.evaluate instruction).script := by
  have hinside := calculate_inside h instruction.text
  have hplace := (calculate_stays i instruction.text).place
  unfold evaluate
  generalize i.calculate instruction.text = outcome at hinside hplace
  obtain ⟨k, v⟩ := outcome
  dsimp only at hinside hplace ⊢
  split
  · exact hinside
  split
  · exact inside_setPhase hinside .error
  split
  · exact hinside
  rename_i hrunning
  split
  · rename_i htest
    exact inside_jumpTo hinside (.inr (hp.targets _ (Program.mem_of_get hget) (.inl (.inr htest.1))))
  · -- it still stands at the instruction
    have hip : k.script.ip = i.script.ip := by
      rcases hplace with ⟨hready, -⟩ | ⟨-, hip, -⟩
      · exact absurd (fun hr => nomatch hready.symm.trans hr) hrunning
      · exact hip
    have hsize := within_of_get hget
    refine inside_jumpTo hinside (.inr ?_)
    rw [hip]
    exact ⟨by omega, by omega⟩

/-- An instruction leaves the script inside of a closed program. -/
theorem perform_inside (hp : p.Closed) (h : Inside p i.script) (hget : p.get? i.script.ip = some instruction) :
    Inside p (i.perform instruction).script := by
  have hsize := within_of_get hget
  have hbehind : p.Place (i.script.ip + 1) := .inr ⟨by omega, by omega⟩
  have htarget : instruction.Jumps ∨ instruction.opcode = .call → p.Place instruction.target :=
    fun hgoes => .inr (hp.targets _ (Program.mem_of_get hget) hgoes)
  unfold perform
  split
  · exact inside_jumpTo h hbehind
  · exact evaluate_inside hp h hget
  · exact evaluate_inside hp h hget
  · exact inside_jumpTo h (htarget (.inl (.inl ‹_›)))
  · refine ⟨h.program, htarget (.inr ‹_›), fun ip hip => ?_, h.main⟩
    rcases List.mem_cons.mp hip with rfl | hip
    · exact hbehind
    · exact h.stack ip hip
  · split
    · rename_i ip stack hpop
      have hmem : ∀ ip' ∈ ip :: stack, p.Place ip' := hpop ▸ h.stack
      exact ⟨h.program, hmem ip (List.mem_cons_self ..), fun ip' hip => hmem ip' (List.mem_cons_of_mem _ hip), h.main⟩
    · exact inside_setPhase (i := i.report _) h .error
  all_goals exact inside_setPhase (i := i.report _) h .error

/-- One step leaves the script inside of a closed program. -/
theorem step_inside (hp : p.Closed) (h : Inside p i.script) : Inside p i.step.script := by
  by_cases hrunning : i.script.phase = .running
  · cases hnext : i.next? with
    | none =>
      rw [step_behindCode hrunning hnext]
      exact ⟨h.program, .inl rfl, h.stack, h.main⟩
    | some instruction =>
      have htrace : Inside p (i.modifyScript traceInstruction).script := by
        refine h.unmoved ?_
        unfold modifyScript traceInstruction
        dsimp only
        split <;> exact ⟨rfl, rfl, rfl, rfl⟩
      have hget : p.get? (i.modifyScript traceInstruction).script.ip = some instruction := by
        have hstanding : standing (traceInstruction i.script) = standing i.script := trace_standing i.script
        have hip : (traceInstruction i.script).ip = i.script.ip := congrArg (·.2.2.2) hstanding
        rw [← h.program, modifyScript, hip]
        exact (next_eq hnext).2
      rw [step_next hnext]
      exact settle_inside (perform_inside hp htrace hget)
  · rw [step, if_pos hrunning]
    exact h

/-! ## Calls -/

theorem enter_inside (h : Inside p i.script) (hip : p.Within ip) : Inside p (i.enter ip).script := by
  refine ⟨h.program, .inr hip, fun ip' hmem => ?_, h.main⟩
  rcases List.mem_cons.mp hmem with rfl | hmem
  · exact h.ip
  · exact h.stack ip' hmem

theorem begun_inside (h : Inside p i.script) (hip : p.Within ip) : Inside p (i.begun ip).script :=
  inside_setPhase (enter_inside h hip) .running

/-- What a call goes through is inside of the program, if that is where the call leads. -/
theorem During.inside (hp : p.Closed) (h : Inside p i.script) (hip : p.Within ip) (hk : During i ip k) :
    Inside p k.script := by
  induction hk with
  | start => exact begun_inside h hip
  | step _ _ _ ih => exact step_inside hp ih

theorem callAt_inside (hp : p.Closed) (h : Inside p i.script) (hip : p.Within ip) {stepMode : Bool}
    (hcall : callAt limit i ip stepMode = some j) : Inside p j.script := by
  cases stepMode with
  | true =>
    by_cases hskip : i.script.phase = .empty ∨ i.script.phase = .error ∨ ip < 0
    · exact callAt_skipped hskip hcall ▸ h
    have hentered : Inside p (i.enter ip).script := enter_inside h hip
    unfold callAt at hcall
    dsimp only at hcall
    rw [if_neg hskip, if_pos rfl] at hcall
    obtain rfl := Option.some_inj.mp hcall
    split
    · exact inside_setPhase (i := i.enter ip) hentered .running
    · exact hentered
  | false =>
    rcases callAt_ends hcall with rfl | ⟨k, hk, rfl | rfl | rfl⟩
    · exact h
    · exact inside_setPhase (step_inside hp (hk.inside hp h hip)) _
    · have hk := hk.inside hp h hip
      exact ⟨hk.program, hk.ip, fun ip' hmem => hk.stack ip' (List.mem_of_mem_drop hmem), hk.main⟩
    · exact inside_setPhase (i := k) (hk.inside hp h hip) .error

/-! ## Modes -/

theorem caller_inside (h : Inside p i.script) : Inside p i.caller.script := ⟨h.program, .inl rfl, h.stack, h.main⟩

theorem within_zero (p : Program) : p.Within 0 := ⟨Int.le_refl 0, Int.natCast_nonneg _⟩

/-- A run begins inside of the program. -/
theorem entry_within (h : Inside p i.script) : p.Within i.entry := by
  unfold entry
  rcases h.main with hmain | hmain
  · rw [hmain]
    exact within_zero p
  · rwa [Int.max_eq_left hmain.1]

theorem shown_inside (h : Inside p i.script) : Inside p i.shown.script := by
  unfold shown
  split
  · exact inside_setPhase h .error
  · exact h

theorem initialise_inside (hp : p.Closed) (h : Inside p i.script) (hinit : i.initialise limit = some j) :
    Inside p j.script := by
  have hdone : ∀ k : Interpreter κ, Inside p k.script →
      Inside p (if k.script.phase = .error then k else k.setPhase .ready).script := by
    intro k hk
    split
    · exact hk
    · exact inside_setPhase hk .ready
  unfold initialise at hinit
  split at hinit
  · obtain rfl := Option.some_inj.mp hinit
    exact h
  · dsimp only at hinit
    split at hinit
    · obtain ⟨k, hcall, hj⟩ := Option.bind_eq_some_iff.mp hinit
      obtain rfl := Option.some_inj.mp hj
      exact hdone k (callAt_inside hp h (within_zero p) hcall)
    · obtain rfl := Option.some_inj.mp hinit
      exact hdone i h

theorem finished_inside (h : Inside p i.script) : Inside p i.finished.script := by
  unfold finished
  split
  · exact ⟨h.program, .inl rfl, h.stack, h.main⟩
  · exact ⟨h.program, h.ip, h.stack, h.main⟩
  · exact h

theorem started_inside (h : Inside p i.script) : Inside p i.startStepping.script := by
  unfold startStepping
  split
  · exact h
  unfold modifyScript
  dsimp only
  split
  · rename_i hmain
    refine ⟨h.program, h.main, fun ip hip => ?_, h.main⟩
    rcases List.mem_cons.mp hip with rfl | hip
    · exact .inl rfl
    · exact h.stack ip hip
  · exact ⟨h.program, .inr (within_zero p), h.stack, h.main⟩

theorem takeStep_inside (hp : p.Closed) (h : Inside p i.script) : Inside p i.takeStep.script := by
  unfold takeStep
  split
  · split
    · exact step_inside hp h
    · split
      · exact h
      · exact h.unmoved ⟨rfl, rfl, rfl, rfl⟩
  · exact h

theorem abort_inside (h : Inside p i.script) : Inside p i.abort.script := by
  unfold abort
  split
  · exact h
  · exact ⟨h.program, .inl rfl, fun _ hip => absurd hip List.not_mem_nil, h.main⟩

theorem runMain_inside (hp : p.Closed) (h : Inside p i.script) (hrun : i.runMain limit = some j) :
    Inside p j.script := by
  unfold runMain at hrun
  split at hrun
  · obtain rfl := Option.some_inj.mp hrun
    exact h
  · obtain ⟨called, hcall, hj⟩ := Option.bind_eq_some_iff.mp hrun
    obtain rfl : called.finished = j := Option.some_inj.mp hj
    exact finished_inside (callAt_inside hp (caller_inside h) (entry_within h) hcall)

/-- Every mode leaves the script inside of a closed program. -/
theorem execute_inside (hp : p.Closed) (h : Inside p i.script) {mode : Mode} (hexec : i.execute limit mode = some j) :
    Inside p j.script := by
  cases mode with
  | start =>
    obtain rfl : i.startStepping.shown = j := Option.some_inj.mp hexec
    exact shown_inside (started_inside h)
  | step =>
    obtain rfl : i.takeStep.shown = j := Option.some_inj.mp hexec
    exact shown_inside (takeStep_inside hp h)
  | init =>
    obtain ⟨k, hinit, hj⟩ := Option.bind_eq_some_iff.mp hexec
    obtain rfl : k.shown = j := Option.some_inj.mp hj
    exact shown_inside (initialise_inside hp h hinit)
  | run =>
    obtain ⟨k, hrun, hj⟩ := Option.bind_eq_some_iff.mp hexec
    obtain rfl : k.shown = j := Option.some_inj.mp hj
    exact shown_inside (runMain_inside hp h hrun)
  | abort =>
    obtain rfl : i.abort.shown = j := Option.some_inj.mp hexec
    exact shown_inside (abort_inside h)

/-! ## Everything that a script goes through -/

/-- What comes of an interpreter while it is driven: by calls within the program, by modes, by evaluating texts of
the application and by whatever leaves the script where it stands. Calls and runs are told step by step. -/
inductive Visits (p : Program) (i : Interpreter κ) : Interpreter κ → Prop
  | here : Visits p i i
  | aside {j k : Interpreter κ} : Visits p i j → Unmoved j.script k.script → Visits p i k
  | evaluated {j : Interpreter κ} (text : String) : Visits p i j → Visits p i (j.calculate text).1
  | calling {j k : Interpreter κ} {ip : Int} : Visits p i j → p.Within ip → During j ip k → Visits p i k
  | called {j k : Interpreter κ} {ip : Int} {limit : Nat} {stepMode : Bool} : Visits p i j → p.Within ip →
    callAt limit j ip stepMode = some k → Visits p i k
  | running {j k : Interpreter κ} : Visits p i j → j.script.phase = .ready → j.DuringRun k → Visits p i k
  | executed {j k : Interpreter κ} {limit : Nat} {mode : Mode} : Visits p i j → j.execute limit mode = some k →
    Visits p i k

theorem Visits.inside (hp : p.Closed) (h : Inside p i.script) (hj : i.Visits p j) : Inside p j.script := by
  induction hj with
  | here => exact h
  | aside _ hunmoved ih => exact ih.unmoved hunmoved
  | evaluated text _ ih => exact calculate_inside ih text
  | calling _ hip hk ih => exact hk.inside hp ih hip
  | called _ hip hcall ih => exact callAt_inside hp ih hip hcall
  | running _ _ hk ih => exact During.inside hp (caller_inside ih) (entry_within ih) hk
  | executed _ hexec ih => exact execute_inside hp ih hexec

/-- A step has a settled instruction to carry out, or the script stands nowhere or right behind its code. -/
def Guarded (p : Program) (i : Interpreter κ) : Prop :=
  i.script.phase = .running →
    (∃ instruction, i.next? = some instruction ∧ instruction.opcode.isPending = false) ∨
      i.next? = none ∧ (i.script.ip = -1 ∨ i.script.ip = p.size)

theorem guarded_of_inside (hp : p.Closed) (h : Inside p i.script) : i.Guarded p := by
  intro hrunning
  rw [next?, if_pos hrunning, h.program]
  cases hget : p.get? i.script.ip with
  | some instruction => exact .inl ⟨instruction, rfl, hp.settled _ (Program.mem_of_get hget)⟩
  | none =>
    refine .inr ⟨rfl, ?_⟩
    rcases h.ip with hnowhere | hwithin
    · exact .inl hnowhere
    · -- a position with no instruction is not before the end
      rw [Program.get?, if_neg (by have := hwithin.1; omega), List.getElem?_eq_none_iff] at hget
      have hsize := hwithin.2
      rw [Program.size] at hsize ⊢
      have := hwithin.1
      omega

/-! ## Compiled scripts -/

theorem begin_main (i : Interpreter κ) : i.begin.script.main = (i.script.program.labelIp? "main").getD (-1) := by
  unfold Interpreter.begin modifyScript
  dsimp only
  split
  · obtain ⟨output, h⟩ := printAll_eq { i.script with main := (i.script.program.labelIp? "main").getD (-1) } _
    exact congrArg (·.main) h
  · rfl

/-- A script begins inside of a closed program. -/
theorem begin_inside (hp : i.script.program.Closed) (hstack : i.script.stack = []) :
    Inside i.script.program i.begin.script := by
  obtain ⟨main, output, hbegin⟩ := begin_eq i
  refine ⟨congrArg (·.program) hbegin, .inl (congrArg (·.ip) hbegin), fun ip hip => ?_, ?_⟩
  · rw [congrArg (·.stack) hbegin] at hip
    exact absurd (hstack ▸ hip) List.not_mem_nil
  · rw [begin_main]
    cases hmain : i.script.program.labelIp? "main" with
    | none => exact .inl rfl
    | some ip =>
      obtain ⟨l, hl, -, rfl⟩ := Program.mem_of_labelIp hmain
      exact .inr (hp.labels l hl)

/-- A script that was just compiled stands before a closed program. -/
theorem compile_inside {source : String} (h : (i.compile source).2 = .done) :
    (i.compile source).1.script.program.Closed ∧
      Inside (i.compile source).1.script.program (i.compile source).1.script := by
  obtain ⟨program, s, t, linked, hdeclared, hbound, hlink, hbegun⟩ := compile_done_stages h
  have htprogram : t.program = program := by
    obtain ⟨output, heq⟩ := link_eq { s with program := program }
    rw [hbound] at heq
    have hk : Keeps (fun s : ScriptState κ => s.program) (Binding.linkParameters s.binding.parameters) :=
      (linkParameters_carries _).keeps_objects (fun _ _ => rfl) fun _ _ => rfl
    exact (congrArg (·.program) heq).trans (hk _)
  rw [htprogram] at hlink
  have hclosed : linked.Closed := linked_closed hdeclared hlink
  have hstack := (compile_done h).2
  rw [hbegun] at hstack ⊢
  obtain ⟨main, output, hbegin⟩ := begin_eq { i.clear with script := { t with program := linked } }
  have hempty : t.stack = [] := (congrArg (·.stack) hbegin).symm.trans hstack
  have hinside := begin_inside (i := { i.clear with script := { t with program := linked } }) hclosed hempty
  rw [hinside.program]
  exact ⟨hclosed, hinside⟩

/-! ## Closed programs -/

variable {ξ δ : Type} (decls : Declarations ξ δ) (source : String) (declared declared' : δ) (p q : Program)

/-- Linking a compiled program closes it: nothing is pending, every target and label is a position within the
program, and calls and jumps to labels go to where the statements of their labels stand. A script that stands inside
of such a program, as one does that was just compiled, stays inside of it wherever it is called, initialised, run or
started: so does everything it goes back to, and whenever it takes a step there is a settled instruction to carry
out, or the script is at its end. -/
theorem linked_program_closed (hcompile : Compiler.compile decls source declared = (.compiled p, declared'))
    (hlink : p.link = (q, none)) :
    q.Closed ∧ p.Settles source q ∧
      (∀ i j : Interpreter κ, Inside q i.script → i.Visits q j → Inside q j.script ∧ j.Guarded q) ∧
      ∀ i : Interpreter κ, (i.compile source).2 = .done →
        (i.compile source).1.script.program.Closed ∧
          Inside (i.compile source).1.script.program (i.compile source).1.script := by
  have hclosed := linked_closed hcompile hlink
  refine ⟨hclosed, linked_settles hcompile hlink, fun i j hi hj => ?_, fun i h => compile_inside h⟩
  have hinside := hj.inside hclosed hi
  exact ⟨hinside, guarded_of_inside hclosed hinside⟩

/-- A program with labels before and behind their use, a subroutine and a loop that is left, which is initialised
and run. -/
theorem linked_labels_closed :
    let source := "int n; goto skip; :back; gosub inner; return; :skip; while(1) { n = n + 1; if (n > 2) break; } " ++
      "goto back; :main; n = 0; goto skip; :inner; n = n + 7; return;"
    let script := new (Registry.empty : Registry Empty) false 0
    ∃ p declared q i j, Compiler.compile (declarations script.registry) source script.clear.script =
        (.compiled p, declared) ∧ p.link = (q, none) ∧ (script.compile source).1.execute 99 .init = some i ∧
      i.execute 99 .run = some j ∧ j.script.phase = .ready ∧ q.Closed ∧ p.Settles source q ∧ Inside q j.script := by
  intro source script
  have hdone : (script.compile source).2 = .done := by decide +kernel
  have hlinks : (match (Compiler.compile (declarations script.registry) source script.clear.script).1 with
      | .compiled p => decide (p.link.2 = none ∧ (script.compile source).1.script.program = p.link.1)
      | _ => false) = true := by decide +kernel
  have hran : ((script.compile source).1.execute 99 .init).any (fun i =>
      (i.execute 99 .run).any fun j => j.script.phase = .ready) = true := by decide +kernel
  obtain ⟨i, hinit, hi⟩ := (Option.any_eq_true _ _).mp hran
  obtain ⟨j, hrun, hready⟩ := (Option.any_eq_true _ _).mp hi
  rcases hcompile : Compiler.compile (declarations script.registry) source script.clear.script with ⟨p | e | _, s⟩
  · rw [hcompile] at hlinks
    obtain ⟨hnone, hprogram⟩ := of_decide_eq_true hlinks
    have hlink : p.link = (p.link.1, none) := Prod.ext rfl hnone
    obtain ⟨hclosed, hsettles, hvisits, hcompiled⟩ :=
      linked_program_closed (κ := Empty) _ source _ s p p.link.1 hcompile hlink
    have hstart := (hcompiled script hdone).2
    rw [hprogram] at hstart
    obtain ⟨hinside, -⟩ := hvisits _ j hstart (.executed (.executed .here hinit) hrun)
    exact ⟨p, s, p.link.1, i, j, rfl, hlink, hinit, hrun, of_decide_eq_true hready, hclosed, hsettles, hinside⟩
  · rw [hcompile] at hlinks
    cases hlinks
  · rw [hcompile] at hlinks
    cases hlinks

end Interpreter

end HostScript
