import HostScript.Proofs.Calls
/-!
# How far a call comes

A call carries out one instruction after the other until it is over: because it has come back, because the script
has stopped, or because it has taken too long. So there is one instruction that is its last, and how the call comes
out is what becomes of that.
-/

set_option autoImplicit false

namespace HostScript

open ScriptState

namespace Interpreter

variable {κ μ : Type} [NativeObject κ μ] {i j k k' : Interpreter κ} {ip : Int} {limit : Nat}

/-- What a call keeps in mind. -/
def callNow (i : Interpreter κ) : Call := ⟨i.script.stack.length, i.script.phase, i.script.clock⟩

/-- The interpreters that a call comes to. It is not over by then, and has not taken too long. -/
inductive ComesTo (i : Interpreter κ) (ip : Int) : Interpreter κ → Prop
  | start : ComesTo i ip (i.begun ip)
  | step {k : Interpreter κ} : ComesTo i ip k → k.script.phase = .running →
    i.script.stack.length < k.step.script.stack.length → isLate k.step.script i.callNow = false → ComesTo i ip k.step

theorem ComesTo.during (h : i.ComesTo ip k) : During i ip k := by
  induction h with
  | start => exact .start
  | step _ hrunning hdepth _ ih => exact ih.step hrunning hdepth

/-! ## The last instruction -/

/-- A call goes on with its next instruction: it is not over with the one that it carries out now. -/
def GoesOn (i k : Interpreter κ) : Prop :=
  k.script.phase = .running ∧ i.script.stack.length < k.step.script.stack.length ∧
    isLate k.step.script i.callNow = false

/-- A call carries out its last instruction. -/
structure Last (i : Interpreter κ) (ip : Int) (k : Interpreter κ) : Prop where
  comes : i.ComesTo ip k
  running : k.script.phase = .running
  ends : k.step.script.stack.length ≤ i.script.stack.length ∨ k.step.script.phase ≠ .running ∨
    isLate k.step.script i.callNow = true

theorem ComesTo.steps (h : i.ComesTo ip k) :
    ∃ n, k = Nat.repeat Interpreter.step n (i.begun ip) ∧
      ∀ m < n, i.GoesOn (Nat.repeat Interpreter.step m (i.begun ip)) := by
  induction h with
  | start => exact ⟨0, rfl, fun m hm => absurd hm (Nat.not_lt_zero m)⟩
  | @step k _ hrunning hdepth hlate ih =>
    obtain ⟨n, rfl, hn⟩ := ih
    exact ⟨n + 1, rfl, Nat.forall_lt_succ_right.mpr ⟨hn, hrunning, hdepth, hlate⟩⟩

/-- There is only one last instruction. -/
theorem Last.unique (h : i.Last ip k) (h' : i.Last ip k') : k = k' := by
  have hnot : ∀ {n n' : Nat}, n < n' → i.Last ip (Nat.repeat Interpreter.step n (i.begun ip)) →
      (∀ m < n', i.GoesOn (Nat.repeat Interpreter.step m (i.begun ip))) →
      (Nat.repeat Interpreter.step n' (i.begun ip)).script.phase = .running → False := by
    intro n n' hlt hlast hgoes hrunning
    obtain ⟨-, hdepth, hlate⟩ := hgoes n hlt
    rcases hlast.ends with hback | hstopped | hlate'
    · exact absurd hdepth (Nat.not_lt.mpr hback)
    · -- the next interpreter still runs
      rcases Nat.lt_or_eq_of_le hlt with hlt' | rfl
      · exact hstopped (hgoes (n + 1) hlt').1
      · exact hstopped hrunning
    · cases hlate.symm.trans hlate'
  obtain ⟨n, rfl, hn⟩ := h.comes.steps
  obtain ⟨n', rfl, hn'⟩ := h'.comes.steps
  rcases Nat.lt_trichotomy n n' with hlt | rfl | hgt
  · exact (hnot hlt h hn' h'.running).elim
  · rfl
  · exact (hnot hgt h' hn h.running).elim

/-- How the last instruction of a call comes out is how the call comes out. -/
inductive ComesOut (i k j : Interpreter κ) : Prop
  | back : k.step.script.stack.length ≤ i.script.stack.length → j = k.step.setPhase i.script.phase → ComesOut i k j
  | stopped : i.script.stack.length < k.step.script.stack.length → k.step.script.phase ≠ .running →
    j = k.step.modifyScript (·.truncateStack i.script.stack.length) → ComesOut i k j
  | late : i.script.stack.length < k.step.script.stack.length → isLate k.step.script i.callNow = true →
    j = k.step.timeOut i.callNow → ComesOut i k j

theorem runCall_last {n : Nat} (hk : i.ComesTo ip k) (hrunning : k.script.phase = .running)
    (h : runCall i.callNow n k = some j) : ∃ k, i.Last ip k ∧ ComesOut i k j := by
  induction n generalizing k with
  | zero => cases h
  | succ n ih =>
    rw [runCall, if_neg (by simp [hrunning])] at h
    dsimp only at h
    split at h
    · rename_i hback
      exact ⟨k, ⟨hk, hrunning, .inl hback⟩, .back hback (Option.some_inj.mp h).symm⟩
    rename_i hdeeper
    have hdepth : i.script.stack.length < k.step.script.stack.length := Nat.not_le.mp hdeeper
    split at h
    · rename_i hlate
      exact ⟨k, ⟨hk, hrunning, .inr (.inr hlate)⟩, .late hdepth hlate (Option.some_inj.mp h).symm⟩
    rename_i hlate
    have hstep : i.ComesTo ip k.step := hk.step hrunning hdepth (by simpa using hlate)
    by_cases hgoing : k.step.script.phase = .running
    · exact ih hstep hgoing h
    · -- the script has stopped, which the call finds before its next instruction
      cases n with
      | zero => cases h
      | succ n =>
        have hended : k.step.script.phase = .error ∨ k.step.script.phase = .ready := by
          rcases hstep.during.phase with hrunning | ⟨-, hready, -⟩ | herror
          · exact absurd hrunning hgoing
          · exact .inr hready
          · exact .inl herror
        rw [runCall, if_pos hended] at h
        exact ⟨k, ⟨hk, hrunning, .inr (.inl hgoing)⟩, .stopped hdepth hgoing (Option.some_inj.mp h).symm⟩

/-- A call that is carried out has a last instruction, and comes out as that does. -/
theorem callAt_last (hempty : i.script.phase ≠ .empty) (herror : i.script.phase ≠ .error) (hip : 0 ≤ ip)
    (h : callAt limit i ip false = some j) : ∃ k, i.Last ip k ∧ ComesOut i k j := by
  rw [callAt_eq hempty herror hip] at h
  exact runCall_last .start rfl h

end Interpreter

end HostScript
