import HostScript.Proofs.Executions
import HostScript.Proofs.StructuredPrograms
/-!
# Structured programs are executed as they read

Compiled and linked, a structured program evaluates the expressions that its structured reading tells, in
the same order, however they come out: an execution comes to the end of the program where the structured
reading is done, and to an expression where the structured reading awaits it.
-/

set_option autoImplicit false

namespace HostScript.Structured

open HostScript.Text

variable {ξ δ κ μ : Type} [NativeObject κ μ] {decls : Declarations ξ δ} {d : δ} {p : Part .block} {program : Program}

/-! ## Linked code -/

theorem claim_settled {i : Instruction} (h : i.opcode = .calc ∨ i.opcode = .jumpIfZero ∨ i.opcode = .jump)
    (start stop : Nat) : Compiler.claim start stop i = i := by
  rcases h with h | h | h <;> rw [Compiler.claim, h]

/-- Nothing in the code of a whole program waits for a loop. -/
theorem program_settled (hloop : p.Looped False) (hcode : program.instructions.map erase = p.code 0) :
    ∀ i ∈ program.instructions, i.opcode = .calc ∨ i.opcode = .jumpIfZero ∨ i.opcode = .jump := by
  intro i hi
  have hmem : erase i ∈ p.code 0 := hcode ▸ List.mem_map_of_mem hi
  rcases Part.code_settled hloop 0 _ hmem with h | h | h | ⟨h, -⟩
  · exact .inl h
  · exact .inr (.inl h)
  · exact .inr (.inr h)
  · exact h.elim

theorem get_nat (program : Program) (k : Nat) : program.get? k = program.instructions[k]? := by
  rw [Program.get?, if_neg (by omega), Int.toNat_natCast]

theorem program_placed (hloop : p.Looped False) (hcode : program.instructions.map erase = p.code 0) :
    Placed program 0 0 0 (p.code 0) := by
  intro k i hi
  rw [← hcode, List.getElem?_map] at hi
  obtain ⟨j, hj, rfl⟩ := Option.map_eq_some_iff.mp hi
  have hsettled : (erase j).opcode = .calc ∨ (erase j).opcode = .jumpIfZero ∨ (erase j).opcode = .jump :=
    program_settled hloop hcode j (List.mem_of_getElem? hj)
  rw [claim_settled hsettled, Nat.zero_add, get_nat]
  exact hi

theorem program_size (hcode : program.instructions.map erase = p.code 0) : program.size = p.size :=
  length_of_erase hcode

theorem get_size (program : Program) : program.get? program.size = none := by
  rw [get_nat]
  exact List.getElem?_eq_none (Nat.le_refl _)

/-! ## Programs and paths -/

/-- Where a path through the code of a program ends, the structured reading is done or awaits what is there. -/
theorem Path.ends {n : Nat} {log : Log} {ip : Int} (hloop : p.Looped False)
    (hcode : program.instructions.map erase = p.code 0) (h : Path program n 0 log ip) :
    p.Run log .done ∧ ip = program.size ∨
      ip < program.size ∧ ∀ i, program.get? ip = some i → Evaluates i → p.Awaits log i.text := by
  rw [program_size hcode]
  rcases Path.cases p (program_placed hloop hcode) h with ⟨m, -, done, rest, x, hrun, rfl, h'⟩ | ⟨-, hend, hawaits⟩
  · obtain rfl := hrun.exit_eq_done hloop
    have hend : program.get? (Exit.done.position 0 0 (0 + p.size) : Nat) = none := by
      rw [Exit.position, Nat.zero_add, ← program_size hcode, get_size]
    obtain ⟨rfl, hip⟩ := h'.eq_of_none hend
    rw [List.append_nil, hip, Exit.position, Nat.zero_add]
    exact .inl ⟨hrun, rfl⟩
  · rw [Nat.zero_add] at hend
    exact .inr ⟨hend, hawaits⟩

/-! ## Execution -/

/-- The steps of an interpreter, for as long as it keeps running, are an execution. Executions come to the
end of a program when its structured reading is done, and to an expression when it is awaited, in
whatever way the expressions before it came out. -/
theorem structured_program_executed {source : String} (hloop : p.Looped False) (hwords : Keywords decls d)
    (hp : p.Meant decls d) (hsource : Source p source) :
    ∃ program, Compiler.compile decls source d = (.compiled program, d) ∧ program.link = (program, none) ∧
      ∀ i : Interpreter κ, i.script.program = program → i.script.ip = 0 → i.script.phase = .running →
        (∀ n, (∀ m ≤ n, (Nat.repeat Interpreter.step m i).script.phase = .running) →
          ∃ log, i.Execution log (Nat.repeat Interpreter.step n i)) ∧
        (∀ log, p.Run log .done ↔ ∃ j, i.Execution log j ∧ j.script.ip = program.size) ∧
        ∀ log text, p.Awaits log text ↔
          ∃ j instruction, i.Execution log j ∧ j.next? = some instruction ∧ Evaluates instruction ∧
            instruction.text = text := by
  obtain ⟨code, hcompile, hcode⟩ := Compiler.compile_structured hwords hp hsource
  let program : Program := ⟨code, []⟩
  have hcode : program.instructions.map erase = p.code 0 := hcode
  have hsettled := program_settled hloop hcode
  have hplaced := program_placed hloop hcode
  refine ⟨program, hcompile, program.link_settled hsettled, fun i hprogram hip hphase => ?_⟩
  have hstart : Interpreter.Runs program 0 i := ⟨hprogram, hphase, hip⟩
  refine ⟨Interpreter.Execution.steps i, fun log => ⟨fun hrun => ?_, ?_⟩, fun log text => ⟨fun hawaits => ?_, ?_⟩⟩
  · obtain ⟨n, hn⟩ := hrun.path hplaced
    obtain ⟨k, hk, hend⟩ := Interpreter.execution_of_path hn .start hstart
    refine ⟨k, hk, hend.ip.trans ?_⟩
    rw [Exit.position, Nat.zero_add, program_size hcode]
  · rintro ⟨j, hj, hend⟩
    obtain ⟨-, n, hn⟩ := hj.path hstart hsettled
    rcases hn.ends hloop hcode with ⟨hrun, -⟩ | ⟨hlt, -⟩
    · exact hrun
    · omega
  · obtain ⟨n, ip, instruction, hn, hget, he, htext⟩ := hawaits.path hplaced
    obtain ⟨k, hk, hthere⟩ := Interpreter.execution_of_path hn .start hstart
    exact ⟨k, instruction, hk, hthere.next.trans hget, he, htext⟩
  · rintro ⟨j, instruction, hj, hnext, he, rfl⟩
    obtain ⟨hruns, n, hn⟩ := hj.path hstart hsettled
    have hget := hruns.next.symm.trans hnext
    rcases hn.ends hloop hcode with ⟨-, hend⟩ | ⟨-, hawaits⟩
    · rw [hend, get_size] at hget
      cases hget
    · exact hawaits instruction hget he

/-! ## The programs of scripts -/

/-- The words of structured programs mean their statements in a script, unless its host knows names for them. -/
theorem keywords_of_host {registry : Registry κ} {s : ScriptState κ}
    (h : s.bound = true → ∀ k ∈ [Keyword.if_, .else_, .while_, .break_, .continue_],
      (s.findHostName? k.name : Option (Identifier (ScriptId μ))) = none) :
    Keywords (ScriptState.declarations registry) s := by
  intro k hk
  have hhost : (if s.bound then s.findHostName? k.name else none : Option (Identifier (ScriptId μ))) = none := by
    split
    · exact h ‹_› k hk
    · rfl
  have hfind : (ScriptState.findName? s k.name : Option (Identifier (ScriptId μ))) = some (ScriptId.ofKeyword k) := by
    rw [ScriptState.findName?, hhost]
    simp only [List.mem_cons, List.not_mem_nil, or_false] at hk
    rcases hk with rfl | rfl | rfl | rfl | rfl <;> rfl
  simp only [ScriptState.declarations, Engine.find?, ScriptState.engine, ScriptState.scope, hfind]
  rfl

/-- A call without arguments can stand in a structured program. -/
theorem proper_call {name : List Char} (hne : name ≠ []) (hname : name.all isNameChar = true) :
    Proper (name ++ ['(', ')']) := by
  have h := List.all_eq_true.mp hname
  have hplain : ∀ a, isNameChar a = true → a ∉ ['"', '(', ')', ';'] := by
    intro a ha hmem
    simp only [List.mem_cons, List.not_mem_nil, or_false] at hmem
    rcases hmem with rfl | rfl | rfl | rfl <;> revert ha <;> decide
  constructor
  · clear hne hname
    induction name with
    | nil => exact .group (.nil _) (.nil _)
    | cons a name ih =>
      exact .plain (hplain a (h a (List.mem_cons_self ..))) (ih fun b hb => h b (List.mem_cons_of_mem _ hb))
  · obtain ⟨a, name, rfl⟩ := List.exists_cons_of_ne_nil hne
    exact Compiler.solid_of_nameChar (h a (List.mem_cons_self ..))
  · rw [List.getLast?_append]
    rintro _ ⟨⟩
    decide

/-- A loop that is left from the branch of a condition. -/
def polling : Part .block := .cons (.while_ "Time()" (.ifElse "Date()" .break_ (.expression "Time()"))) .nil

theorem polling_source : Source polling "while (Time()) if (Date()) break; else Time();" := by
  have hspace : Gap [' '] := .white rfl .nil
  have hblank : White [] := by simp [White]
  refine ⟨[], _, ?_, .nil, .cons (.while_ (.intro hspace .nil hblank hspace) (.ifElse (.intro hspace .nil hblank hspace)
    (.break_ .nil) hspace hspace (Compiler.apart_cons (by decide)) (.expression hblank))) .nil .nil⟩
  rfl

theorem polling_executed :
    ∃ program, Compiler.compile (ScriptState.declarations (Registry.empty : Registry Empty))
        "while (Time()) if (Date()) break; else Time();" (.initial false 0) = (.compiled program, .initial false 0) ∧
      program.link = (program, none) ∧
      ∀ i : Interpreter Empty, i.script.program = program → i.script.ip = 0 → i.script.phase = .running →
        ∃ j, i.Execution
            [("Time()", false), ("Date()", true), ("Time()", true), ("Time()", false), ("Date()", false)] j ∧
          j.script.ip = program.size := by
  have htime : Proper "Time()".toList := proper_call (show "Time".toList ≠ [] by decide) rfl
  have hdate : Proper "Date()".toList := proper_call (show "Date".toList ≠ [] by decide) rfl
  have hmeant : polling.Meant (ScriptState.declarations (Registry.empty : Registry Empty)) (.initial false 0) :=
    ⟨⟨htime, hdate, trivial, id, htime, rfl, rfl⟩, trivial⟩
  have hloop : polling.Looped False := ⟨⟨trivial, trivial⟩, trivial⟩
  obtain ⟨program, hcompile, hlink, hexec⟩ := structured_program_executed (κ := Empty) hloop
    (keywords_of_host (by simp [ScriptState.initial])) hmeant polling_source
  have hend : (Part.while_ "Time()" (.ifElse "Date()" .break_ (.expression "Time()"))).Run
      [("Time()", false), ("Date()", false)] .done := .whileLeft (.ifElseTrue .break_)
  have hround := Part.Run.whileNext (.ifElseFalse (.expression "Time()" true)) (by simp) hend
  have hrun : polling.Run _ .done := .consNext hround .nil
  exact ⟨program, hcompile, hlink, fun i hp hip hphase => ((hexec i hp hip hphase).2.1 _).mp hrun⟩

end HostScript.Structured
