import HostScript.Error
/-!
# Programs

A program is a list of instructions and the labels set in it. Expressions are kept as text and
evaluated when their instruction runs. Jumps to labels, and `break` and `continue`, are compiled
before their target is known; `link` settles the labels, and a `break` or `continue` that no loop has
claimed by then is an error.
-/

namespace HostScript

/-- Line, counted from zero, and byte offset of a place in the source. -/
structure SourcePos where
  line : Nat
  offset : Nat
deriving Repr, DecidableEq, Inhabited

/-- What an instruction does. The last three only occur before linking. -/
inductive Opcode where
  | nop
  /-- Evaluate an expression. -/
  | calc
  /-- Evaluate an expression and jump if it is zero. -/
  | jumpIfZero
  | jump
  /-- Remember the next instruction and jump to a label. -/
  | call
  /-- Go back to what was remembered last. -/
  | ret
  /-- Jump to a label. -/
  | goto
  | leave
  | again
deriving Repr, DecidableEq, Inhabited

namespace Opcode

def mnemonic : Opcode → String
  | .nop => "NONE"
  | .calc => "CALC"
  | .jumpIfZero => "ZJMP"
  | .jump | .goto | .leave | .again => "JMP "
  | .call => "CALL"
  | .ret => "RETF"

/-- Whether linking replaces the instruction. -/
def isPending : Opcode → Bool
  | .goto | .leave | .again => true
  | _ => false

end Opcode

structure Instruction where
  opcode : Opcode
  /-- The instruction to go to. -/
  target : Int
  /-- The expression, or the name of a label. -/
  text : String
  pos : SourcePos
deriving Repr, DecidableEq, Inhabited

structure Label where
  name : String
  ip : Int
deriving Repr, DecidableEq, Inhabited

structure Program where
  instructions : List Instruction
  labels : List Label
deriving Repr, DecidableEq

namespace Program

def empty : Program := ⟨[], []⟩

instance : Inhabited Program := ⟨empty⟩

def size (p : Program) : Nat := p.instructions.length

/-- The instruction at a position, which may be negative. -/
def get? (p : Program) (ip : Int) : Option Instruction :=
  if ip < 0 then none else p.instructions[ip.toNat]?

/-- Where a label was set first. -/
def labelIp? (p : Program) (name : String) : Option Int := (p.labels.find? (·.name == name)).map (·.ip)

/-! ## Listing -/

/-- A number set to the right in a column. -/
def column (width : Nat) (n : Int) : String :=
  let text := toString n
  String.ofList (List.replicate (width - text.length) ' ') ++ text

/-- The line of an instruction in a listing. -/
def lineOf (ip : Int) (i : Instruction) : String :=
  column 3 ip ++ ": " ++ i.opcode.mnemonic ++ " " ++ column 2 i.target ++ ": " ++ i.text

def line? (p : Program) (ip : Int) : Option String := (p.get? ip).map (lineOf ip)

def listing (p : Program) : List String :=
  p.instructions.zipIdx.map fun (i, ip) => lineOf ip i

/-! ## Linking -/

/-- Settles one instruction. -/
def linkOne (p : Program) (i : Instruction) : Except ScriptError Instruction :=
  match i.opcode with
  | .call | .goto =>
    match p.labelIp? i.text with
    | none => .error ⟨.labelNotFound, i.text⟩
    | some ip => .ok { i with target := ip, opcode := if i.opcode = .goto then .jump else i.opcode }
  | .leave => .error ⟨.unexpectedKeyword, "break"⟩
  | .again => .error ⟨.unexpectedKeyword, "continue"⟩
  | _ => .ok i

/-- Settles instructions up to the first that cannot be. -/
def linkAll (p : Program) : List Instruction → List Instruction × Option ScriptError
  | [] => ([], none)
  | i :: rest =>
    match p.linkOne i with
    | .error e => (i :: rest, some e)
    | .ok i =>
      let (rest, e) := p.linkAll rest
      (i :: rest, e)

/-- The linked program; if an instruction cannot be settled, those before it are. -/
def link (p : Program) : Program × Option ScriptError :=
  let (instructions, e) := p.linkAll p.instructions
  ({ p with instructions := instructions }, e)

end Program

end HostScript
