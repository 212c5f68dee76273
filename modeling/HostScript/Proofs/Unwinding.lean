import HostScript.Proofs.EventDelivery
import HostScript.Proofs.Muted
/-!
# Frames that nobody takes back

What a script goes back to is remembered on its stack, and a script that is ready has nothing to go back to. A call
drops what was remembered in it, however it ends, and so does whoever aborts a script. But a script that comes to its
end in single steps, or in a call made while it was running, leaves what it had remembered before. That is the only
way for a script to become ready with something on its stack.
-/

set_option autoImplicit false

namespace HostScript

open Structured ScriptState

namespace Interpreter

variable {κ : Type} {i j k : Interpreter κ} {ip : Int} {limit : Nat}

/-- Where something takes a script, and what becomes of its stack. A running script that rests afterwards has come to
its end, with the stack that it had; only whoever aborts it clears the stack. -/
inductive Passage (aborts : Prop) (i j : Interpreter κ) : Prop
  | runs : j.script.phase = .running → Passage aborts i j
  | fails : j.script.phase = .error → Passage aborts i j
  | rests : j.script.stack = i.script.stack → i.script.phase ≠ .error →
    (i.script.phase = .running → j.script.phase = .ready ∧ ¬aborts) → Passage aborts i j
  | unwinds : j.script.stack = [] → (i.script.phase = .running → j.script.phase = .ready → aborts) →
    Passage aborts i j

/-- A script that neither runs nor has failed has nothing to go back to. -/
def Unwound (i : Interpreter κ) : Prop :=
  i.script.phase = .running ∨ i.script.phase = .error ∨ i.script.stack = []

namespace Passage

variable {aborts : Prop}

/-- What leaves phase and stack as they are takes a script nowhere. -/
theorem same (hphase : j.script.phase = i.script.phase) (hstack : j.script.stack = i.script.stack) :
    Passage aborts i j := by
  by_cases hrunning : i.script.phase = .running
  · exact .runs (hphase.trans hrunning)
  by_cases herror : i.script.phase = .error
  · exact .fails (hphase.trans herror)
  exact .rests hstack herror fun h => absurd h hrunning

theorem nowhere : Passage aborts i i := .same rfl rfl

/-- An error that was left shows in the phase, and nothing else changes. -/
theorem shown (h : Passage aborts i j) : Passage aborts i j.shown := by
  unfold Interpreter.shown
  split
  · exact .fails rfl
  · exact h

/-- The script is unwound afterwards, unless it has come to its end with something to go back to. -/
theorem unwound (hi : i.Unwound) (h : Passage aborts i j) :
    j.Unwound ∧ ¬(i.script.phase = .running ∧ i.script.stack ≠ [] ∧ j.script.phase = .ready ∧ ¬aborts) ∨
      (j.script.phase = .ready ∧ j.script.stack ≠ []) ∧
        i.script.phase = .running ∧ i.script.stack ≠ [] ∧ j.script.phase = .ready ∧ ¬aborts := by
  cases h with
  | runs hphase => exact .inl ⟨.inl hphase, by simp [hphase]⟩
  | fails hphase => exact .inl ⟨.inr (.inl hphase), by simp [hphase]⟩
  | unwinds hstack haborts =>
    refine .inl ⟨.inr (.inr hstack), ?_⟩
    rintro ⟨hrunning, -, hready, hno⟩
    exact hno (haborts hrunning hready)
  | rests hstack herror hended =>
    by_cases hempty : i.script.stack = []
    · exact .inl ⟨.inr (.inr (hstack.trans hempty)), fun h => h.2.1 hempty⟩
    · have hrunning : i.script.phase = .running := hi.resolve_right (not_or.mpr ⟨herror, hempty⟩)
      obtain ⟨hready, hno⟩ := hended hrunning
      exact .inr ⟨⟨hready, hstack ▸ hempty⟩, hrunning, hempty, hready, hno⟩

end Passage

variable {μ : Type} [NativeObject κ μ]

/-! ## Steps and calls -/

/-- An instruction leaves the stack as it is when the script ends with it. -/
theorem step_passes (hrunning : i.script.phase = .running) : Passage False i i.step := by
  cases step_moves hrunning with
  | goes hphase => exact .runs hphase
  | calls _ hphase => exact .runs hphase
  | returns _ _ _ _ _ hphase => exact .runs hphase
  | ends _ hready _ hstack => exact .rests hstack (by simp [hrunning]) fun _ => ⟨hready, id⟩
  | fails herror => exact .fails herror

/-- A call that is carried out leaves the stack as it was. The script is where it was, or it has ended. -/
theorem callAt_over (h : callAt limit i ip false = some j) :
    j.script.phase = .error ∨ i.script.phase ≠ .error ∧ j.script.stack = i.script.stack ∧
      (j.script.phase = i.script.phase ∨ j.script.phase = .ready) := by
  by_cases herror : i.script.phase = .error
  · rw [callAt_skipped (.inr (.inl herror)) h]
    exact .inl herror
  by_cases hskipped : i.script.phase = .empty ∨ i.script.phase = .error ∨ ip < 0
  · rw [callAt_skipped hskipped h]
    exact .inr ⟨herror, rfl, .inl rfl⟩
  obtain ⟨hempty, -, hip⟩ : i.script.phase ≠ .empty ∧ i.script.phase ≠ .error ∧ ¬ip < 0 := by
    simpa only [not_or] using hskipped
  have hip : 0 ≤ ip := Int.not_lt.mp hip
  rcases callAt_stack hempty herror hip h with hfailed | hstack
  · exact .inl hfailed
  rw [callAt_eq hempty herror hip] at h
  rcases runCall_ends rfl .start h with ⟨k, -, -, -, rfl⟩ | ⟨k, hk, hstopped, rfl⟩ | ⟨k, -, -, rfl⟩
  · exact .inr ⟨herror, hstack, .inl rfl⟩
  · rcases hk.phase with hrunning | ⟨-, hready, -⟩ | hfailed
    · exact absurd hrunning hstopped
    · exact .inr ⟨herror, hstack, .inr hready⟩
    · exact .inl hfailed
  · exact .inl rfl

theorem callAt_unstepped (hmode : i.script.stepMode = false) (h : callAt limit i ip false = some j) :
    j.script.stepMode = false := by
  rcases callAt_ends h with rfl | ⟨k, hk, rfl | rfl | rfl⟩
  · exact hmode
  · exact (congrArg Prod.fst (step_awake (hk.unstepped hmode))).trans (hk.unstepped hmode)
  · exact hk.unstepped hmode
  · exact hk.unstepped hmode

/-- A call that is only set up makes the script run, if anything is called at all. -/
theorem callAt_setUp (hcompiled : i.script.phase ≠ .compiled) (h : callAt limit i ip true = some j) :
    j = i ∨ j.script.phase = .running ∧ j.script.stepMode = i.script.stepMode := by
  by_cases hskipped : i.script.phase = .empty ∨ i.script.phase = .error ∨ ip < 0
  · exact .inl (callAt_skipped hskipped h)
  right
  unfold callAt at h
  dsimp only at h
  rw [if_neg hskipped, if_pos rfl] at h
  obtain rfl := Option.some_inj.mp h
  split
  · exact ⟨rfl, rfl⟩
  · rename_i hready
    refine ⟨?_, rfl⟩
    change i.script.phase = .running
    cases hphase : i.script.phase <;> simp_all

theorem callAt_passes (hphase : i.script.phase = .ready ∨ i.script.phase = .running) {stepMode : Bool}
    (h : callAt limit i ip stepMode = some j) : Passage False i j := by
  cases stepMode with
  | true =>
    rcases callAt_setUp (by rcases hphase with hp | hp <;> simp [hp]) h with rfl | ⟨hrunning, -⟩
    · exact .nowhere
    · exact .runs hrunning
  | false =>
    rcases callAt_over h with hfailed | ⟨herror, hstack, hsame | hready⟩
    · exact .fails hfailed
    · exact .same hsame hstack
    · exact .rests hstack herror fun _ => ⟨hready, id⟩

theorem callLabel_passes (hphase : i.script.phase = .ready ∨ i.script.phase = .running) {name : String}
    {stepMode : Bool} (h : (callLabel limit i name stepMode).map Prod.fst = some j) : Passage False i j := by
  unfold callLabel at h
  cases hip : i.script.program.labelIp? name with
  | none =>
    rw [hip] at h
    obtain rfl := Option.some_inj.mp h
    exact .nowhere
  | some ip =>
    rw [hip, Option.map_map] at h
    obtain ⟨k, hk, rfl⟩ := Option.map_eq_some_iff.mp h
    exact callAt_passes hphase hk

/-! ## Events -/

/-- An event that is delivered calls a position, or nothing happens. -/
theorem deliver_calls {e : LinkEvent} {called : Bool} (h : i.deliver limit e = some (j, called)) :
    j = i ∨ ∃ ip, i.script.phase ≠ .compiled ∧ callAt limit i ip i.script.stepMode = some j := by
  unfold deliver at h
  split at h
  · exact .inl (Prod.mk.inj (Option.some_inj.mp h)).1.symm
  · rename_i hmet
    split at h
    · exact .inl (Prod.mk.inj (Option.some_inj.mp h)).1.symm
    · rename_i ip _
      obtain ⟨k, hk, heq⟩ := Option.map_eq_some_iff.mp h
      obtain ⟨rfl, -⟩ := Prod.mk.inj heq
      exact .inr ⟨ip, fun hcompiled => hmet (.inr hcompiled), hk⟩

/-- In step mode the hooks are only set up, one on top of the other. -/
theorem deliverAll_setUp {es : List LinkEvent} {n : Nat} (hmode : i.script.stepMode = true)
    (h : deliverAll limit i es = some (j, n)) :
    j.script.phase = .running ∨ j.script.phase = i.script.phase ∧ j.script.stack = i.script.stack := by
  induction es generalizing i n with
  | nil =>
    obtain ⟨rfl, -⟩ := Prod.mk.inj (Option.some_inj.mp h)
    exact .inr ⟨rfl, rfl⟩
  | cons e es ih =>
    obtain ⟨k, called, n', hk, hrest⟩ := deliverAll_cons_inv h
    rcases deliver_calls hk with rfl | ⟨ip, hcompiled, hcall⟩
    · exact ih hmode hrest
    · rw [hmode] at hcall
      rcases callAt_setUp hcompiled hcall with rfl | ⟨hrunning, hkept⟩
      · exact ih hmode hrest
      · rcases ih (hkept.trans hmode) hrest with hj | ⟨hj, -⟩
        · exact .inl hj
        · exact .inl (hj.trans hrunning)

/-- Out of step mode the hooks are carried out, one after the other. -/
theorem deliverAll_over {es : List LinkEvent} {n : Nat} (hmode : i.script.stepMode = false)
    (h : deliverAll limit i es = some (j, n)) :
    j.script.phase = .error ∨ i.script.phase ≠ .error ∧ j.script.stack = i.script.stack ∧
      (j.script.phase = i.script.phase ∨ j.script.phase = .ready) := by
  induction es generalizing i n with
  | nil =>
    obtain ⟨rfl, -⟩ := Prod.mk.inj (Option.some_inj.mp h)
    by_cases herror : i.script.phase = .error
    · exact .inl herror
    · exact .inr ⟨herror, rfl, .inl rfl⟩
  | cons e es ih =>
    obtain ⟨k, called, n', hk, hrest⟩ := deliverAll_cons_inv h
    rcases deliver_calls hk with rfl | ⟨ip, -, hcall⟩
    · exact ih hmode hrest
    · rw [hmode] at hcall
      rcases ih (callAt_unstepped hmode hcall) hrest with hj | ⟨hk', hstack, hphase⟩
      · exact .inl hj
      · obtain ⟨herror, hkept, hplace⟩ := (callAt_over hcall).resolve_left hk'
        refine .inr ⟨herror, hstack.trans hkept, ?_⟩
        rcases hphase with hsame | hready
        · rwa [hsame]
        · exact .inr hready

theorem dispatchEvents_passes (h : (i.dispatchEvents limit).map Prod.fst = some j) : Passage False i j := by
  obtain ⟨⟨k, n⟩, hk, rfl⟩ := Option.map_eq_some_iff.mp h
  unfold dispatchEvents at hk
  -- taking the events out of the queue changes neither phase nor stack
  cases hmode : i.script.stepMode with
  | true =>
    have hmode' : (i.modifyScript (·.setHost i.script.host.takeEvents.1)).script.stepMode = true := hmode
    rcases deliverAll_setUp hmode' hk with hrunning | ⟨hphase, hstack⟩
    · exact .runs hrunning
    · exact .same hphase hstack
  | false =>
    have hmode' : (i.modifyScript (·.setHost i.script.host.takeEvents.1)).script.stepMode = false := hmode
    rcases deliverAll_over hmode' hk with herror | ⟨herror, hstack, hsame | hready⟩
    · exact .fails herror
    · exact .same hsame hstack
    · exact .rests hstack herror fun _ => ⟨hready, id⟩

/-! ## Modes -/

theorem startStepping_passes (i : Interpreter κ) : Passage False i i.startStepping := by
  unfold startStepping
  split
  · exact .nowhere
  · exact .runs rfl

theorem takeStep_passes (i : Interpreter κ) : Passage False i i.takeStep := by
  unfold takeStep
  split
  · rename_i hrunning
    split
    · exact step_passes hrunning.1
    · split
      · exact .nowhere
      · exact .runs hrunning.1
  · exact .nowhere

theorem initialise_passes (h : i.initialise limit = some j) : Passage False i j := by
  unfold initialise at h
  split at h
  · obtain rfl := Option.some_inj.mp h
    exact .nowhere
  · rename_i hcompiled
    have hcompiled : i.script.phase = .compiled := Decidable.not_not.mp hcompiled
    have hready {k : Interpreter κ} (hk : k.script.phase = .error ∨ k.script.stack = i.script.stack) :
        Passage False i (if k.script.phase = .error then k else k.setPhase .ready) := by
      split
      · exact .fails ‹_›
      · exact .rests (hk.resolve_left ‹_›) (by simp [hcompiled]) (by simp [hcompiled])
    dsimp only at h
    split at h
    · obtain ⟨k, hk, hj⟩ := Option.bind_eq_some_iff.mp h
      obtain rfl := Option.some_inj.mp hj
      exact hready ((callAt_over hk).imp_right fun hover => hover.2.1)
    · obtain rfl := Option.some_inj.mp h
      exact hready (.inr rfl)

theorem runMain_passes (h : i.runMain limit = some j) : Passage False i j := by
  unfold runMain at h
  split at h
  · obtain rfl := Option.some_inj.mp h
    exact .nowhere
  · rename_i hready
    have hready : i.script.phase = .ready := Decidable.not_not.mp hready
    obtain ⟨k, hk, hj⟩ := Option.bind_eq_some_iff.mp h
    have hover : k.script.phase = .error ∨ k.script.stack = i.script.stack :=
      (callAt_over hk).imp_right fun hover => hover.2.1
    have hstack : k.script.phase ≠ .error → k.script.stack = i.script.stack := fun hne => hover.resolve_left hne
    have hrests {j : Interpreter κ} (hj : j.script.stack = i.script.stack) : Passage False i j :=
      .rests hj (by simp [hready]) (by simp [hready])
    split at hj
    · rename_i hrunning
      obtain rfl := Option.some_inj.mp hj
      exact hrests (hstack (by simp [hrunning]))
    · rename_i herror
      obtain rfl := Option.some_inj.mp hj
      exact .fails herror
    · rename_i herror
      obtain rfl := Option.some_inj.mp hj
      exact hrests (hstack herror)

theorem abort_passes (i : Interpreter κ) : Passage True i i.abort := by
  unfold abort
  split
  · exact .nowhere
  · exact .unwinds rfl fun _ _ => trivial

theorem execute_passes {mode : Mode} (h : i.execute limit mode = some j) : Passage (mode = .abort) i j := by
  have hother {k : Interpreter κ} (hk : Passage False i k) {aborts : Prop} (hmode : ¬aborts) :
      Passage aborts i k.shown := by
    rw [eq_false hmode]
    exact hk.shown
  unfold execute at h
  cases mode with
  | start =>
    obtain rfl := Option.some_inj.mp h
    exact hother i.startStepping_passes (by simp)
  | step =>
    obtain rfl := Option.some_inj.mp h
    exact hother i.takeStep_passes (by simp)
  | init =>
    obtain ⟨k, hk, hj⟩ := Option.bind_eq_some_iff.mp h
    obtain rfl := Option.some_inj.mp hj
    exact hother (initialise_passes hk) (by simp)
  | run =>
    obtain ⟨k, hk, hj⟩ := Option.bind_eq_some_iff.mp h
    obtain rfl := Option.some_inj.mp hj
    exact hother (runMain_passes hk) (by simp)
  | abort =>
    obtain rfl := Option.some_inj.mp h
    rw [eq_true (rfl : Mode.abort = .abort)]
    exact i.abort_passes.shown

/-! ## Compiling -/

theorem compile_passes (i : Interpreter κ) (source : String) : Passage False i (i.compile source).1 := by
  by_cases hrunning : i.script.phase = .running
  · rw [compile, if_pos hrunning]
    exact .nowhere
  · exact .unwinds (compile_stack i source hrunning) fun h => absurd h hrunning

end Interpreter

/-! ## Courses of deeds -/

namespace Deed

open Interpreter (Passage)

/-- The application aborts the script. -/
def Aborts : Deed → Prop
  | .operate (.execute _ mode) => mode = .abort
  | _ => False

variable {κ : Type}

/-- Scripts are called while they are ready or run, and nothing is evaluated beside them. -/
def Admitted (i : Interpreter κ) : Deed → Prop
  | .operate (.callAt _ _ _) | .operate (.callLabel _ _ _) => i.script.phase = .ready ∨ i.script.phase = .running
  | .operate (.calculate _) => False
  | _ => True

instance (d : Deed) : Decidable d.Aborts := by
  unfold Aborts
  split <;> infer_instance

instance (i : Interpreter κ) (d : Deed) : Decidable (d.Admitted i) := by
  unfold Admitted
  split <;> infer_instance

variable {μ : Type} [NativeObject κ μ] {i j : Interpreter κ}

theorem apply_passes {d : Deed} (hd : d.Admitted i) (h : d.apply i = some j) : Passage d.Aborts i j := by
  cases d with
  | compile source =>
    obtain rfl := Option.some_inj.mp h
    exact i.compile_passes source
  | clear =>
    obtain rfl := Option.some_inj.mp h
    exact .unwinds rfl nofun
  | operate op =>
    cases op with
    | execute limit mode => exact Interpreter.execute_passes h
    | callAt limit ip stepMode => exact Interpreter.callAt_passes hd h
    | callLabel limit name stepMode => exact Interpreter.callLabel_passes hd h
    | calculate text => exact hd.elim
    | dispatchEvents limit => exact Interpreter.dispatchEvents_passes h
    | _ =>
      obtain rfl := Option.some_inj.mp h
      exact .same rfl rfl

/-- A deed, with the interpreter before and after it. -/
structure Step (κ : Type) where
  before : Interpreter κ
  deed : Deed
  after : Interpreter κ

/-- What the application does, one thing after the other, up to the first that does not end within its limit. -/
def steps (i : Interpreter κ) : List Deed → List (Step κ)
  | [] => []
  | d :: deeds =>
    match d.apply i with
    | none => []
    | some j => ⟨i, d, j⟩ :: steps j deeds

/-- A script that was running and had something to go back to is ready now, and nobody has aborted it: it has come to
its end. -/
def Step.EndsAmidst (s : Step κ) : Prop :=
  s.before.script.phase = .running ∧ s.before.script.stack ≠ [] ∧ s.after.script.phase = .ready ∧ ¬s.deed.Aborts

instance (s : Step κ) : Decidable s.EndsAmidst := by
  unfold Step.EndsAmidst
  infer_instance

@[simp] theorem steps_nil (i : Interpreter κ) : steps i [] = [] := rfl

theorem steps_stopped {d : Deed} (h : d.apply i = none) (deeds : List Deed) : steps i (d :: deeds) = [] := by
  rw [steps, h]

theorem steps_cons {d : Deed} (h : d.apply i = some j) (deeds : List Deed) :
    steps i (d :: deeds) = ⟨i, d, j⟩ :: steps j deeds := by
  rw [steps, h]

theorem steps_unwound (hi : i.Unwound) (deeds : List Deed) (hdeeds : ∀ s ∈ steps i deeds, s.deed.Admitted s.before) :
    (∀ s ∈ steps i deeds, s.after.script.phase = .ready → s.after.script.stack = []) ↔
      ∀ s ∈ steps i deeds, ¬s.EndsAmidst := by
  induction deeds generalizing i with
  | nil => simp
  | cons d deeds ih =>
    cases hd : d.apply i with
    | none => simp [steps_stopped hd]
    | some j =>
      rw [steps_cons hd, List.forall_mem_cons] at hdeeds
      obtain ⟨hadmitted, hdeeds⟩ := hdeeds
      rw [steps_cons hd, List.forall_mem_cons, List.forall_mem_cons]
      rcases (apply_passes hadmitted hd).unwound hi with ⟨hj, hno⟩ | ⟨⟨hready, hleft⟩, hends⟩
      · -- the frames are gone, and it depends on the deeds that follow
        have hempty : j.script.phase = .ready → j.script.stack = [] := by
          intro hready
          rcases hj with hrunning | herror | hstack
          · cases hready.symm.trans hrunning
          · cases hready.symm.trans herror
          · exact hstack
        exact and_congr (iff_of_true hempty hno) (ih hj hdeeds)
      · exact iff_of_false (fun h => hleft (h.1 hready)) fun h => h.1 hends

/-- From a new interpreter on, a script that is ready never has anything on its stack, exactly if no script that has
something to go back to comes to its end, be it in a step or in a call that is made while it runs. -/
theorem frames_left_iff (registry : Registry κ) (bound : Bool) (clock : Micros) (deeds : List Deed)
    (hdeeds : ∀ s ∈ steps (Interpreter.new registry bound clock) deeds, s.deed.Admitted s.before) :
    (∀ s ∈ steps (Interpreter.new registry bound clock) deeds,
        s.after.script.phase = .ready → s.after.script.stack = []) ↔
      ∀ s ∈ steps (Interpreter.new registry bound clock) deeds, ¬s.EndsAmidst :=
  steps_unwound (.inr (.inr rfl)) deeds hdeeds

/-- A subroutine ends the script, and leaves where it was to go back to. -/
theorem exit_leaves_frame :
    let source := "int n; n = n + 1; if (n > 1) return; gosub f; print(\"resumed\"); return; :f; exit(0);"
    let step := operate (.execute 9 .step)
    let deeds := [compile source, operate (.execute 9 .init), operate (.execute 9 .start), step, step, step, step,
      step]
    (∀ s ∈ steps (Interpreter.new (Registry.empty : Registry Empty) false 0) deeds, s.deed.Admitted s.before) ∧
      (∃ s ∈ steps (Interpreter.new (Registry.empty : Registry Empty) false 0) deeds, s.EndsAmidst) ∧
      ¬∀ s ∈ steps (Interpreter.new (Registry.empty : Registry Empty) false 0) deeds,
        s.after.script.phase = .ready → s.after.script.stack = [] := by
  intro source step deeds
  obtain ⟨hadmitted, hends⟩ :
      (∀ s ∈ steps (Interpreter.new (Registry.empty : Registry Empty) false 0) deeds, s.deed.Admitted s.before) ∧
        ∃ s ∈ steps (Interpreter.new (Registry.empty : Registry Empty) false 0) deeds, s.EndsAmidst := by
    decide +kernel
  refine ⟨hadmitted, hends, fun hempty => ?_⟩
  obtain ⟨s, hs, hends⟩ := hends
  exact (frames_left_iff _ _ _ deeds hadmitted).mp hempty s hs hends

end Deed

end HostScript
