import HostScript.Proofs.CallsInTime
import HostScript.Proofs.ClosedPrograms
/-!
# Initialising scripts

Initialising calls the beginning of a script, and nothing keeps this call from going on behind the preamble, into
`main`. As long as no jump or call of the preamble leads there, the only way in is from its last instruction, by
going on behind it or by coming back from a call. So a preamble that ends with a return or a jump stays by itself.
-/

set_option autoImplicit false

namespace HostScript

open Structured ScriptState

/-- No jump or call before a position leads to it or behind it. -/
def Program.ClosedBefore (p : Program) (m : Int) : Prop :=
  ∀ instruction ∈ p.instructions.take m.toNat,
    instruction.Jumps ∨ instruction.opcode = .call → instruction.target < m

instance (p : Program) (m : Int) : Decidable (p.ClosedBefore m) :=
  inferInstanceAs (Decidable (∀ _ ∈ _, (_ ∨ _) ∨ _ → _))

theorem Program.ClosedBefore.target {p : Program} {m ip : Int} {instruction : Instruction} (h : p.ClosedBefore m)
    (hget : p.get? ip = some instruction) (hip : ip < m) (hgoes : instruction.Jumps ∨ instruction.opcode = .call) :
    instruction.target < m := by
  unfold Program.get? at hget
  split at hget
  · cases hget
  · refine h _ ?_ hgoes
    rw [List.mem_iff_getElem?]
    exact ⟨ip.toNat, by rw [List.getElem?_take_of_lt (by omega), hget]⟩

theorem Program.exists_get {p : Program} {ip : Int} (h : 0 ≤ ip) (hlt : ip < p.size) :
    ∃ instruction, p.get? ip = some instruction := by
  have hsize : ip.toNat < p.instructions.length := by
    rw [Program.size] at hlt
    omega
  exact ⟨p.instructions[ip.toNat], by rw [Program.get?, if_neg (by omega), List.getElem?_eq_getElem hsize]⟩

namespace Interpreter

variable {κ μ : Type} [NativeObject κ μ] {i j k : Interpreter κ} {instruction : Instruction} {ip m : Int} {limit : Nat}

/-! ## Where an instruction leads -/

/-- Where a script stands after an instruction, and what it goes back to then. -/
inductive Proceeds (instruction : Instruction) (i j : Interpreter κ) : Prop
  | stops : j.script.phase ≠ .running → Proceeds instruction i j
  | goesOn : instruction.opcode ≠ .ret → instruction.opcode ≠ .jump → instruction.opcode ≠ .call →
    j.script.stack = i.script.stack → j.script.ip = i.script.ip + 1 → Proceeds instruction i j
  | jumps : instruction.Jumps → j.script.stack = i.script.stack → j.script.ip = instruction.target →
    Proceeds instruction i j
  | calls : instruction.opcode = .call → j.script.stack = (i.script.ip + 1) :: i.script.stack →
    j.script.ip = instruction.target → Proceeds instruction i j
  | returns : instruction.opcode = .ret → i.script.stack = j.script.ip :: j.script.stack → Proceeds instruction i j

/-- What an instruction does depends on its opcode, and on its expression. -/
theorem step_proceeds (hnext : i.next? = some instruction) : Proceeds instruction i i.step := by
  by_cases hrunning : i.step.script.phase = .running
  swap
  · exact .stops hrunning
  by_cases he : Evaluates instruction
  · obtain ⟨k, v, hk, -, hstep⟩ := step_undisturbed hnext he hrunning
    obtain ⟨-, hstack, -, hip⟩ : _ ∧ _ ∧ _ ∧ _ := by
      simpa only [standing, Prod.mk.injEq] using stepWith_standing hk instruction v
    rw [hstep]
    unfold after at hip
    split at hip
    · rename_i htest
      exact .jumps (.inr htest.1) hstack hip
    · refine .goesOn ?_ ?_ ?_ hstack hip <;> rcases he with he | he <;> simp [he]
  by_cases hret : instruction.opcode = .ret
  · cases hpop : i.script.stack with
    | nil =>
      rw [step_returnsNowhere hnext hret hpop, settle_phase] at hrunning
      cases hrunning
    | cons ip stack =>
      refine .returns hret ?_
      rw [step_returns hnext hret hpop, settle_ip, settle_stack]
      exact hpop
  obtain ⟨-, hstack, -, hip⟩ : _ ∧ _ ∧ _ ∧ _ := by
    simpa only [standing, Prod.mk.injEq] using trace_standing i.script
  rw [step_next hnext, settle_phase] at hrunning
  rw [step_next hnext]
  unfold perform at hrunning ⊢
  split at hrunning
  · rename_i hop
    refine .goesOn hret (by simp [hop]) (by simp [hop]) ((settle_stack _).trans hstack) ((settle_ip _).trans ?_)
    exact congrArg (· + 1) hip
  · exact absurd (.inl ‹_›) he
  · exact absurd (.inr ‹_›) he
  · exact .jumps (.inl ‹_›) ((settle_stack _).trans hstack) (settle_ip _)
  · refine .calls ‹_› ((settle_stack _).trans ?_) (settle_ip _)
    exact congrArg₂ (fun ip stack => (ip + 1) :: stack) hip hstack
  · exact absurd ‹_› hret
  all_goals cases hrunning

/-- The program of a script, and where `main` is in it. -/
def layout (i : Interpreter κ) : Program × Int := (i.script.program, i.script.main)

theorem evaluate_layout (i : Interpreter κ) (instruction : Instruction) :
    (i.evaluate instruction).layout = i.layout := by
  have hcalculate : (i.calculate instruction.text).1.layout = i.layout :=
    Prod.ext (calculate_stays i instruction.text).program (calculate_main i instruction.text)
  rw [← hcalculate]
  unfold evaluate
  dsimp only
  split
  · rfl
  split
  · rfl
  split
  · rfl
  split <;> rfl

/-- No instruction changes the program. -/
theorem step_layout (i : Interpreter κ) : i.step.layout = i.layout := by
  by_cases hrunning : i.script.phase = .running
  · cases hnext : i.next? with
    | none =>
      rw [step_behindCode hrunning hnext]
      rfl
    | some instruction =>
      have hsettle : ∀ j : Interpreter κ, j.settle.layout = j.layout := by
        intro j
        unfold settle
        dsimp only
        split <;> rfl
      have htrace : (i.modifyScript traceInstruction).layout = i.layout := by
        unfold modifyScript traceInstruction
        split <;> rfl
      rw [step_next hnext, hsettle, ← htrace, perform]
      split
      · rfl
      · exact evaluate_layout _ _
      · exact evaluate_layout _ _
      · rfl
      · rfl
      · split <;> rfl
      all_goals rfl
  · rw [step, if_pos hrunning]

theorem During.layout (h : During i ip k) : k.layout = i.layout := by
  induction h with
  | start => rfl
  | @step k _ _ _ ih => exact (step_layout k).trans ih

/-! ## Before `main` -/

/-- Initialising carries out an instruction. -/
structure Carries (i k : Interpreter κ) (instruction : Instruction) : Prop where
  comes : i.ComesTo 0 k
  next : k.next? = some instruction

/-- Initialising goes on from the preamble to `main`: there is no preamble, or it goes on behind the last
instruction of the preamble, or the call which that is comes back. -/
inductive Enters (i : Interpreter κ) (m : Int) : Interpreter κ → Prop
  | atOnce : m = 0 → Enters i m (i.begun 0)
  | behind {k : Interpreter κ} {instruction : Instruction} : i.Carries k instruction → k.script.ip + 1 = m →
    instruction.opcode ≠ .ret → instruction.opcode ≠ .jump → instruction.opcode ≠ .call → Enters i m k.step
  | back {k k' : Interpreter κ} {call ret : Instruction} : i.Carries k call → k.script.ip + 1 = m →
    call.opcode = .call → i.Carries k' ret → ret.opcode = .ret → k'.script.stack = m :: k.script.stack →
    Enters i m k'.step

/-- The call that is the last instruction of the preamble was made over this stack. -/
def CallsOver (i : Interpreter κ) (m : Int) (stack : List Int) : Prop :=
  ∃ k instruction, i.Carries k instruction ∧ k.script.ip + 1 = m ∧ instruction.opcode = .call ∧
    k.script.stack = stack

/-- Initialising has not come to `main` so far, and goes back to there only from the last instruction before it. -/
structure Before (i : Interpreter κ) (m : Int) (k : Interpreter κ) : Prop where
  ip : k.script.ip < m
  back (ip : Int) (stack : List Int) : ip :: stack <:+ k.script.stack → i.script.stack.length < stack.length →
    ip ≤ m ∧ (ip = m → i.CallsOver m stack)

/-- An instruction of the preamble stays before `main`, or enters it. -/
theorem Before.step (hclosed : i.script.program.ClosedBefore m) (h : i.Before m k) (hk : i.Carries k instruction)
    (hdepth : i.script.stack.length < k.step.script.stack.length) (hgoing : k.step.script.phase = .running) :
    i.Before m k.step ∨ i.Enters m k.step ∧ k.step.script.ip = m := by
  have hget : i.script.program.get? k.script.ip = some instruction := by
    rw [← show k.script.program = i.script.program from congrArg Prod.fst hk.comes.during.layout]
    exact (next_eq hk.next).2
  have hip := h.ip
  cases step_proceeds hk.next with
  | stops hstopped => exact absurd hgoing hstopped
  | goesOn hret hjump hcall hsame hbehind =>
    by_cases hlast : k.script.ip + 1 = m
    · exact .inr ⟨.behind hk hlast hret hjump hcall, hbehind.trans hlast⟩
    · exact .inl ⟨by omega, fun ip stack hmem => h.back ip stack (hsame ▸ hmem)⟩
  | jumps hjumps hsame htarget =>
    have hbefore := hclosed.target hget hip (.inl hjumps)
    exact .inl ⟨by omega, fun ip stack hmem => h.back ip stack (hsame ▸ hmem)⟩
  | calls hcall hpush htarget =>
    have hbefore := hclosed.target hget hip (.inr hcall)
    refine .inl ⟨by omega, fun ip stack hmem hlength => ?_⟩
    rw [hpush, List.suffix_cons_iff] at hmem
    rcases hmem with heq | hmem
    · obtain ⟨rfl, rfl⟩ := List.cons.inj heq
      exact ⟨by omega, fun hm => ⟨k, instruction, hk, hm, hcall, rfl⟩⟩
    · exact h.back ip stack hmem hlength
  | returns hret hpop =>
    have hmem : k.step.script.ip :: k.step.script.stack <:+ k.script.stack := hpop ▸ List.suffix_rfl
    obtain ⟨hle, hcalled⟩ := h.back _ _ hmem hdepth
    by_cases hlast : k.step.script.ip = m
    · obtain ⟨k', instruction', hk', hm, hcall, hstack⟩ := hcalled hlast
      rw [hlast, ← hstack] at hpop
      exact .inr ⟨.back hk' hm hcall hk hret hpop, hlast⟩
    · refine .inl ⟨by omega, fun ip stack hmem => h.back ip stack ?_⟩
      exact hpop ▸ hmem.trans (List.suffix_cons _ _)

/-- Whatever initialising comes to is before `main`, unless it has entered `main` already. -/
theorem ComesTo.before (hm : 0 ≤ m) (hclosed : i.script.program.ClosedBefore m) (hk : i.ComesTo 0 k)
    (hrunning : k.script.phase = .running) :
    i.Before m k ∨ ∃ k, i.Enters m k ∧ i.ComesTo 0 k ∧ k.script.phase = .running ∧ k.script.ip = m := by
  induction hk with
  | start =>
    rcases Int.le_iff_eq_or_lt.mp hm with h0 | hlt
    · exact .inr ⟨_, .atOnce h0.symm, .start, rfl, h0⟩
    · refine .inl ⟨hlt, fun ip stack hmem hlength => ?_⟩
      -- nothing is remembered yet but where the call goes back to
      have hle : (ip :: stack).length ≤ (i.script.ip :: i.script.stack).length := hmem.length_le
      simp only [List.length_cons] at hle
      omega
  | @step k hk hrunning' hdepth hlate ih =>
    refine (ih hrunning').elim (fun hbefore => ?_) .inr
    cases hnext : k.next? with
    | none =>
      rw [step_behindCode hrunning' hnext] at hrunning
      cases hrunning
    | some instruction =>
      refine (hbefore.step hclosed ⟨hk, hnext⟩ hdepth hrunning).imp_right fun hentered => ?_
      exact ⟨_, hentered.1, hk.step hrunning' hdepth hlate, hrunning, hentered.2⟩

/-- Initialising carries out an instruction from `main` on only if it enters `main`. -/
theorem Carries.enters (hm : 0 ≤ m) (hclosed : i.script.program.ClosedBefore m) (h : i.Carries k instruction)
    (hip : m ≤ k.script.ip) : ∃ k instruction, i.Enters m k ∧ i.Carries k instruction ∧ k.script.ip = m := by
  obtain ⟨hrunning, hget⟩ := next_eq h.next
  rcases h.comes.before hm hclosed hrunning with hbefore | ⟨k', henters, hk', hrunning', hthere⟩
  · have := hbefore.ip
    omega
  -- there is an instruction at `main`, since there is one behind it
  have hprogram : ∀ {j : Interpreter κ}, i.ComesTo 0 j → j.script.program = i.script.program :=
    fun hj => congrArg Prod.fst hj.during.layout
  have hsize : k.script.ip < i.script.program.size := by
    rw [← hprogram h.comes]
    exact (within_of_get hget).2
  obtain ⟨instruction, hinstruction⟩ := Program.exists_get hm (Int.lt_of_le_of_lt hip hsize)
  refine ⟨k', instruction, henters, ⟨hk', ?_⟩, hthere⟩
  rw [next?, if_pos hrunning', hprogram hk', hthere, hinstruction]

/-- A preamble that ends with a return or a jump does not enter `main`. -/
theorem not_enters (hm : 0 < m) (hlast : i.script.program.get? (m - 1) = some instruction)
    (hends : instruction.opcode = .ret ∨ instruction.opcode = .jump) : ¬i.Enters m k := by
  have hsame : ∀ {k : Interpreter κ} {last : Instruction}, i.Carries k last → k.script.ip + 1 = m →
      last = instruction := by
    intro k last hk hip
    have hget := (next_eq hk.next).2
    rw [show k.script.program = i.script.program from congrArg Prod.fst hk.comes.during.layout,
      show k.script.ip = m - 1 by omega, hlast] at hget
    exact (Option.some_inj.mp hget).symm
  intro henters
  cases henters with
  | atOnce h0 => omega
  | behind hk hip hret hjump =>
    obtain rfl := hsame hk hip
    exact hends.elim hret hjump
  | back hk hip hcall =>
    obtain rfl := hsame hk hip
    simp [hcall] at hends

/-! ## What initialising leaves -/

theorem callAt_layout (h : callAt limit i ip false = some j) : j.layout = i.layout := by
  rcases callAt_ends h with rfl | ⟨k, hk, rfl | rfl | rfl⟩
  · rfl
  · exact (step_layout k).trans hk.layout
  · exact hk.layout
  · exact hk.layout

theorem shown_layout (i : Interpreter κ) : i.shown.layout = i.layout := by
  unfold shown
  split <;> rfl

/-- Initialising leaves the program as it is, and `main` where it is. -/
theorem init_layout (hphase : i.script.phase = .compiled) (hmain : 0 ≤ i.script.main)
    (hinit : i.execute limit .init = some j) : j.layout = i.layout := by
  rw [execute_init hphase hmain] at hinit
  obtain ⟨k, hcall, rfl⟩ := Option.map_eq_some_iff.mp hinit
  rw [shown_layout, ← callAt_layout hcall]
  split <;> rfl

theorem begin_label (i : Interpreter κ) :
    i.begin.script.main = (i.begin.script.program.labelIp? "main").getD (-1) := by
  obtain ⟨main, output, hbegin⟩ := begin_eq i
  rw [begin_main, show i.begin.script.program = i.script.program from congrArg (·.program) hbegin]

/-- A compiled script has found `main` where its label is. -/
theorem compile_main {source : String} (h : (i.compile source).2 = .done) :
    (i.compile source).1.script.main = ((i.compile source).1.script.program.labelIp? "main").getD (-1) := by
  obtain ⟨program, s, t, linked, -, -, -, hbegun⟩ := compile_done_stages h
  rw [hbegun]
  exact begin_label _

/-- Initialising runs the preamble only, or it runs into `main`: let no jump or call before `main` lead there or
behind it. Then initialising carries out no instruction from `main` on if and only if it does not enter `main` from
the preamble, which it never does if the preamble ends with a return or a jump. Afterwards the script runs by
calling `main`, in the same program. -/
theorem init_before_main_iff (i : Interpreter κ) (m : Int) (hphase : i.script.phase = .compiled)
    (hmain : i.script.main = m) (hm : 0 ≤ m) (hclosed : i.script.program.ClosedBefore m) :
    ((∀ k instruction, i.Carries k instruction → k.script.ip < m) ↔
        ¬∃ k instruction, i.Enters m k ∧ i.Carries k instruction ∧ k.script.ip = m) ∧
      (∀ last k, 0 < m → i.script.program.get? (m - 1) = some last → last.opcode = .ret ∨ last.opcode = .jump →
        ¬i.Enters m k) ∧
      ∀ limit j, i.execute limit .init = some j → j.script.phase = .ready →
        j.script.program = i.script.program ∧
          ∀ limit', j.execute limit' .run = (callAt limit' j.caller m false).map fun k => k.finished.shown := by
  refine ⟨⟨?_, fun h k instruction hk => ?_⟩, fun last k hpos hlast hends => not_enters hpos hlast hends,
    fun limit j hinit hready => ?_⟩
  · rintro h ⟨k, instruction, -, hk, hthere⟩
    have := h k instruction hk
    omega
  · exact Int.not_le.mp fun hip => h (hk.enters hm hclosed hip)
  · have hlayout := init_layout hphase (hmain ▸ hm) hinit
    have hentry : j.entry = m := by
      rw [entry, show j.script.main = m from (congrArg Prod.snd hlayout).trans hmain, Int.max_eq_left hm]
    exact ⟨congrArg Prod.fst hlayout, fun limit' => hentry ▸ execute_run hready⟩

/-- A preamble without a return: initialising prints what `main` prints, too, and running prints it again. -/
theorem open_preamble_enters_main :
    let script := ((new (Registry.empty : Registry Empty) false 0).compile "print(1); :main; print(2);").1
    script.script.program.labelIp? "main" = some 1 ∧ script.script.program.ClosedBefore 1 ∧
      ¬(∀ k instruction, script.Carries k instruction → k.script.ip < 1) ∧
      ∃ j r, script.execute 9 .init = some j ∧ j.script.output = #["1", "2"] ∧
        (callAt 9 j.caller 1 false).map (fun k => k.finished.shown) = some r ∧ r.script.output = #["1", "2", "2"] := by
  intro script
  have hlabel : script.script.program.labelIp? "main" = some 1 := by decide +kernel
  have hmain : script.script.main = 1 := by
    rw [compile_main (by decide +kernel), hlabel]
    rfl
  have hclosed : script.script.program.ClosedBefore 1 := by decide +kernel
  have hinit : (script.execute 9 .init).any (fun j => j.script.phase = .ready ∧ j.script.output = #["1", "2"] ∧
      (j.execute 9 .run).any fun r => r.script.output = #["1", "2", "2"]) = true := by decide +kernel
  obtain ⟨j, hinit, hj⟩ := (Option.any_eq_true _ _).mp hinit
  obtain ⟨hready, hprinted, hran⟩ := of_decide_eq_true hj
  obtain ⟨r, hrun, hr⟩ := (Option.any_eq_true _ _).mp hran
  obtain ⟨hbefore, -, hafter⟩ :=
    init_before_main_iff script 1 (by decide +kernel) hmain (by decide) hclosed
  refine ⟨hlabel, hclosed, fun h => hbefore.mp h ?_, j, r, hinit, hprinted, ?_, of_decide_eq_true hr⟩
  · -- it goes on behind the only instruction before `main`
    have hfirst : (script.begun 0).next?.any (fun l => l.opcode = .calc) = true := by decide +kernel
    have hsecond : (script.begun 0).step.next?.isSome := by decide +kernel
    obtain ⟨first, hfirst, hcalc⟩ := (Option.any_eq_true _ _).mp hfirst
    obtain ⟨second, hsecond⟩ := Option.isSome_iff_exists.mp hsecond
    have hop : first.opcode = .calc := of_decide_eq_true hcalc
    have hcomes : script.ComesTo 0 (script.begun 0).step :=
      .step .start rfl (by decide +kernel) (by decide +kernel)
    have henters : script.Enters 1 (script.begun 0).step :=
      .behind ⟨.start, hfirst⟩ rfl (by simp [hop]) (by simp [hop]) (by simp [hop])
    exact ⟨_, second, henters, ⟨hcomes, hsecond⟩, by decide +kernel⟩
  · rw [← (hafter 9 j hinit hready).2 9]
    exact hrun

end Interpreter

end HostScript
