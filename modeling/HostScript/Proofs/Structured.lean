import HostScript.Compiler.Statement
/-!
# Structured programs

A structured program is built from expressions, blocks, conditions and loops. It is read as it stands: a
run tells the expressions that are evaluated in order, each with whether it came out as zero, and how the
part was left. The code of a part is a list of instructions that starts at some position; a `break` or
`continue` in it waits for the loop that claims it.
-/

set_option autoImplicit false

namespace HostScript.Structured

/-! ## Parts of programs -/

/-- A part is a statement, or the statements of a block or program. -/
inductive Kind where
  | statement
  | block

/-- The parts of structured programs. Expressions are texts. -/
inductive Part : Kind → Type where
  | expression (text : String) : Part .statement
  | block (b : Part .block) : Part .statement
  | ifThen (c : String) (s : Part .statement) : Part .statement
  | ifElse (c : String) (s t : Part .statement) : Part .statement
  | while_ (c : String) (s : Part .statement) : Part .statement
  | break_ : Part .statement
  | continue_ : Part .statement
  | nil : Part .block
  | cons (s : Part .statement) (b : Part .block) : Part .block

/-- The expressions that were evaluated, each with whether it came out as zero. -/
abbrev Log := List (String × Bool)

/-- How a part is left: at its end, by `break` or by `continue`. -/
inductive Exit where
  | done
  | left
  | again
deriving DecidableEq

namespace Part

/-! ## The structured reading -/

/-- The part evaluates the expressions of a log, if they come out as it tells, and is left then. -/
inductive Run : {k : Kind} → Part k → Log → Exit → Prop
  | expression (text : String) (zero : Bool) : Run (.expression text) [(text, zero)] .done
  | block {b : Part .block} {log : Log} {x : Exit} : Run b log x → Run (.block b) log x
  | ifTrue {c : String} {s : Part .statement} {log : Log} {x : Exit} :
    Run s log x → Run (.ifThen c s) ((c, false) :: log) x
  | ifFalse (c : String) (s : Part .statement) : Run (.ifThen c s) [(c, true)] .done
  | ifElseTrue {c : String} {s t : Part .statement} {log : Log} {x : Exit} :
    Run s log x → Run (.ifElse c s t) ((c, false) :: log) x
  | ifElseFalse {c : String} {s t : Part .statement} {log : Log} {x : Exit} :
    Run t log x → Run (.ifElse c s t) ((c, true) :: log) x
  | whileEnd (c : String) (s : Part .statement) : Run (.while_ c s) [(c, true)] .done
  | whileLeft {c : String} {s : Part .statement} {log : Log} :
    Run s log .left → Run (.while_ c s) ((c, false) :: log) .done
  | whileNext {c : String} {s : Part .statement} {log log' : Log} {x y : Exit} :
    Run s log x → x ≠ .left → Run (.while_ c s) log' y → Run (.while_ c s) ((c, false) :: (log ++ log')) y
  | break_ : Run .break_ [] .left
  | continue_ : Run .continue_ [] .again
  | nil : Run .nil [] .done
  | consNext {s : Part .statement} {b : Part .block} {log log' : Log} {x : Exit} :
    Run s log .done → Run b log' x → Run (.cons s b) (log ++ log') x
  | consExit {s : Part .statement} {b : Part .block} {log : Log} {x : Exit} :
    Run s log x → x ≠ .done → Run (.cons s b) log x

/-- After the expressions of a log, if they come out as it tells, the part evaluates a text next. -/
inductive Awaits : {k : Kind} → Part k → Log → String → Prop
  | expression (text : String) : Awaits (.expression text) [] text
  | block {b : Part .block} {log : Log} {text : String} : Awaits b log text → Awaits (.block b) log text
  | ifTest (c : String) (s : Part .statement) : Awaits (.ifThen c s) [] c
  | ifTrue {c : String} {s : Part .statement} {log : Log} {text : String} :
    Awaits s log text → Awaits (.ifThen c s) ((c, false) :: log) text
  | ifElseTest (c : String) (s t : Part .statement) : Awaits (.ifElse c s t) [] c
  | ifElseTrue {c : String} {s t : Part .statement} {log : Log} {text : String} :
    Awaits s log text → Awaits (.ifElse c s t) ((c, false) :: log) text
  | ifElseFalse {c : String} {s t : Part .statement} {log : Log} {text : String} :
    Awaits t log text → Awaits (.ifElse c s t) ((c, true) :: log) text
  | whileTest (c : String) (s : Part .statement) : Awaits (.while_ c s) [] c
  | whileBody {c : String} {s : Part .statement} {log : Log} {text : String} :
    Awaits s log text → Awaits (.while_ c s) ((c, false) :: log) text
  | whileNext {c : String} {s : Part .statement} {log log' : Log} {x : Exit} {text : String} :
    Run s log x → x ≠ .left → Awaits (.while_ c s) log' text → Awaits (.while_ c s) ((c, false) :: (log ++ log')) text
  | consHere {s : Part .statement} {b : Part .block} {log : Log} {text : String} :
    Awaits s log text → Awaits (.cons s b) log text
  | consNext {s : Part .statement} {b : Part .block} {log log' : Log} {text : String} :
    Run s log .done → Awaits b log' text → Awaits (.cons s b) (log ++ log') text

/-- Every `break` and `continue` of the part is in a loop, of the part or around it. -/
def Looped (inLoop : Prop) : {k : Kind} → Part k → Prop
  | _, .expression _ => True
  | _, .block b => b.Looped inLoop
  | _, .ifThen _ s => s.Looped inLoop
  | _, .ifElse _ s t => s.Looped inLoop ∧ t.Looped inLoop
  | _, .while_ _ s => s.Looped True
  | _, .break_ => inLoop
  | _, .continue_ => inLoop
  | _, .nil => True
  | _, .cons s b => s.Looped inLoop ∧ b.Looped inLoop

/-- A part with no loop around it is left at its end. -/
theorem Run.exit_eq_done {k : Kind} {p : Part k} {log : Log} {x : Exit} (h : Run p log x) (hp : p.Looped False) :
    x = .done := by
  induction h with
  | expression => rfl
  | block _ ih => exact ih hp
  | ifTrue _ ih => exact ih hp
  | ifFalse => rfl
  | ifElseTrue _ ih => exact ih hp.1
  | ifElseFalse _ ih => exact ih hp.2
  | whileEnd => rfl
  | whileLeft => rfl
  | whileNext _ _ _ _ ih => exact ih hp
  | break_ => exact hp.elim
  | continue_ => exact hp.elim
  | nil => rfl
  | consNext _ _ _ ih => exact ih hp.2
  | consExit _ hx ih => exact absurd (ih hp.1) hx

/-! ## Code -/

/-- How many instructions a part is compiled to. -/
def size : {k : Kind} → Part k → Nat
  | _, .expression _ => 1
  | _, .block b => b.size
  | _, .ifThen _ s => s.size + 2
  | _, .ifElse _ s t => s.size + t.size + 2
  | _, .while_ _ s => s.size + 2
  | _, .break_ => 1
  | _, .continue_ => 1
  | _, .nil => 0
  | _, .cons s b => s.size + b.size

/-- The instructions of a part from a position on, but for where they stand in the source. -/
def code : {k : Kind} → Part k → Nat → List Instruction
  | _, .expression text, base => [⟨.calc, base + 1, text, default⟩]
  | _, .block b, base => b.code base
  | _, .ifThen c s, base =>
    ⟨.jumpIfZero, (base + 1 + s.size : Nat), c, default⟩ :: s.code (base + 1) ++
      [⟨.jump, (base + s.size + 2 : Nat), "", default⟩]
  | _, .ifElse c s t, base =>
    ⟨.jumpIfZero, (base + s.size + 2 : Nat), c, default⟩ :: s.code (base + 1) ++
      ⟨.jump, (base + s.size + 2 + t.size : Nat), "", default⟩ :: t.code (base + s.size + 2)
  | _, .while_ c s, base =>
    ⟨.jumpIfZero, (base + s.size + 2 : Nat), c, default⟩ ::
      (s.code (base + 1)).map (Compiler.claim base (base + s.size + 2)) ++ [⟨.jump, base, "", default⟩]
  | _, .break_, _ => [⟨.leave, -1, "", default⟩]
  | _, .continue_, _ => [⟨.again, -1, "", default⟩]
  | _, .nil, _ => []
  | _, .cons s b, base => s.code base ++ b.code (base + s.size)

theorem length_code {k : Kind} (p : Part k) (base : Nat) : (p.code base).length = p.size := by
  induction p generalizing base with
  | expression => rfl
  | block b ih => exact ih base
  | ifThen c s ih => simp [code, size, ih]
  | ifElse c s t ihs iht =>
    simp only [code, size, List.length_append, List.length_cons, ihs, iht]
    omega
  | while_ c s ih => simp [code, size, ih]
  | break_ => rfl
  | continue_ => rfl
  | nil => rfl
  | cons s b ihs ihb => simp [code, size, ihs, ihb]

/-- The code of a part that is not in a loop has nothing to claim. -/
theorem code_settled {k : Kind} {p : Part k} {inLoop : Prop} (hp : p.Looped inLoop) (base : Nat) :
    ∀ i ∈ p.code base, i.opcode = .calc ∨ i.opcode = .jumpIfZero ∨ i.opcode = .jump ∨
      inLoop ∧ (i.opcode = .leave ∨ i.opcode = .again) := by
  induction p generalizing base inLoop with
  | expression => simp [code]
  | block b ih => exact ih hp base
  | ifThen c s ih =>
    have := ih hp (base + 1)
    simp only [code, List.cons_append, List.forall_mem_cons, List.forall_mem_append]
    simpa using this
  | ifElse c s t ihs iht =>
    have hs := ihs hp.1 (base + 1)
    have ht := iht hp.2 (base + s.size + 2)
    simp only [code, List.cons_append, List.forall_mem_cons, List.forall_mem_append]
    exact ⟨by simp, hs, by simp, ht⟩
  | while_ c s ih =>
    have hs := ih hp (base + 1)
    simp only [code, List.cons_append, List.forall_mem_cons, List.forall_mem_append]
    -- what waits in the body is claimed, whether there is a loop around or not
    refine ⟨by simp, fun i hi => ?_, by simp⟩
    obtain ⟨j, hj, rfl⟩ := List.mem_map.mp hi
    rcases hs j hj with h | h | h | ⟨-, h | h⟩ <;> simp [Compiler.claim, h]
  | break_ => exact fun i hi => by simp_all [code, Looped]
  | continue_ => exact fun i hi => by simp_all [code, Looped]
  | nil => simp [code]
  | cons s b ihs ihb =>
    simp only [code, List.forall_mem_append]
    exact ⟨ihs hp.1 base, ihb hp.2 _⟩

end Part

end HostScript.Structured
