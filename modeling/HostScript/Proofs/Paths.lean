import HostScript.Proofs.Structured
/-!
# Paths through code

A path follows the instructions of a program from one position to another, and tells the expressions on
its way. Where the code of a structured part is placed in a program, the runs of the part and the paths
from its start are the same: each run has a path to the position where it is left, and each path is a run
of the part that goes on from there, or it ends inside of the part, at the expression that is awaited.
-/

set_option autoImplicit false

namespace HostScript.Structured

/-! ## Paths -/

/-- The instruction evaluates an expression. -/
def Evaluates (i : Instruction) : Prop := i.opcode = .calc ∨ i.opcode = .jumpIfZero

/-- Where an evaluated expression leads to. -/
def after (i : Instruction) (ip : Int) (zero : Bool) : Int :=
  if i.opcode = .jumpIfZero ∧ zero = true then i.target else ip + 1

/-- A path of some length. The expressions may come out in any way. -/
inductive Path (p : Program) : Nat → Int → Log → Int → Prop
  | stay (ip : Int) : Path p 0 ip [] ip
  | jump {n : Nat} {ip ip' : Int} {log : Log} {i : Instruction} :
    p.get? ip = some i → i.opcode = .jump → Path p n i.target log ip' → Path p (n + 1) ip log ip'
  | evaluate {n : Nat} {ip ip' : Int} {log : Log} {i : Instruction} (zero : Bool) :
    p.get? ip = some i → Evaluates i → Path p n (after i ip zero) log ip' →
      Path p (n + 1) ip ((i.text, zero) :: log) ip'

variable {p : Program} {n m : Nat} {a b c : Int} {log log' : Log}

theorem Path.trans (h : Path p n a log b) (h' : Path p m b log' c) : Path p (n + m) a (log ++ log') c := by
  induction h with
  | stay => simpa using h'
  | jump hi hj _ ih =>
    rw [Nat.add_right_comm]
    exact .jump hi hj (ih h')
  | evaluate zero hi he _ ih =>
    rw [Nat.add_right_comm]
    exact .evaluate zero hi he (ih h')

/-- There is no way on from where there is no instruction. -/
theorem Path.eq_of_none (ha : p.get? a = none) (h : Path p n a log b) : log = [] ∧ b = a := by
  cases h with
  | stay => exact ⟨rfl, rfl⟩
  | jump hi => simp [ha] at hi
  | evaluate _ hi => simp [ha] at hi

/-- A path from a jump stays there or follows it. -/
theorem Path.of_jump {i : Instruction} (hi : p.get? a = some i) (hj : i.opcode = .jump) (h : Path p n a log b) :
    (log = [] ∧ b = a) ∨ ∃ m < n, Path p m i.target log b := by
  cases h with
  | stay => exact .inl ⟨rfl, rfl⟩
  | jump hi' _ h =>
    cases hi.symm.trans hi'
    exact .inr ⟨_, Nat.lt_succ_self _, h⟩
  | evaluate _ hi' he =>
    cases hi.symm.trans hi'
    simp [Evaluates, hj] at he

/-- A path from an expression stays there or evaluates it. -/
theorem Path.of_evaluates {i : Instruction} (hi : p.get? a = some i) (he : Evaluates i) (h : Path p n a log b) :
    (log = [] ∧ b = a) ∨ ∃ m < n, ∃ zero log', log = (i.text, zero) :: log' ∧ Path p m (after i a zero) log' b := by
  cases h with
  | stay => exact .inl ⟨rfl, rfl⟩
  | jump hi' hj =>
    cases hi.symm.trans hi'
    simp [Evaluates, hj] at he
  | evaluate zero hi' _ h =>
    cases hi.symm.trans hi'
    exact .inr ⟨_, Nat.lt_succ_self _, zero, _, rfl, h⟩

/-! ## Placed code -/

/-- The instruction but for where it stands in the source. -/
def erase (i : Instruction) : Instruction := { i with pos := default }

theorem length_of_erase {k : Kind} {t : Part k} {base : Nat} {code : List Instruction}
    (h : code.map erase = t.code base) : code.length = t.size := by
  rw [← Part.length_code t base, ← h, List.length_map]

/-- The code stands in a program from a position on, inside of a loop from `start` to `stop`. -/
def Placed (p : Program) (start stop base : Nat) (code : List Instruction) : Prop :=
  ∀ k i, code[k]? = some i → (p.get? (base + k : Nat)).map erase = some (Compiler.claim start stop i)

variable {start stop base : Nat} {code code' : List Instruction}

theorem placed_cons {i : Instruction} :
    Placed p start stop base (i :: code) ↔
      (p.get? base).map erase = some (Compiler.claim start stop i) ∧ Placed p start stop (base + 1) code := by
  constructor
  · refine fun h => ⟨h 0 i rfl, fun k j hj => ?_⟩
    rw [Nat.add_right_comm]
    exact h (k + 1) j hj
  · rintro ⟨hi, h⟩ k j hj
    cases k with
    | zero =>
      cases hj
      exact hi
    | succ k =>
      rw [← Nat.add_assoc, Nat.add_right_comm]
      exact h k j hj

theorem placed_append :
    Placed p start stop base (code ++ code') ↔
      Placed p start stop base code ∧ Placed p start stop (base + code.length) code' := by
  induction code generalizing base with
  | nil => simp [Placed]
  | cons i code ih =>
    rw [List.cons_append, placed_cons, placed_cons, ih, and_assoc, List.length_cons]
    rw [show base + 1 + code.length = base + (code.length + 1) by omega]

theorem claim_claim (i : Instruction) (start' stop' : Nat) :
    Compiler.claim start stop (Compiler.claim start' stop' i) = Compiler.claim start' stop' i := by
  obtain ⟨opcode, target, text, pos⟩ := i
  cases opcode <;> rfl

/-- The body of a loop stands in this loop, whatever is around. -/
theorem Placed.of_claimed {start' stop' : Nat}
    (h : Placed p start stop base (code.map (Compiler.claim start' stop'))) : Placed p start' stop' base code := by
  intro k i hi
  rw [h k (Compiler.claim start' stop' i) (by rw [List.getElem?_map, hi]; rfl), claim_claim]

/-- The instruction of the program at a position, but for where it stands in the source. -/
def Stands (p : Program) (base : Nat) (opcode : Opcode) (target : Nat) (text : String) : Prop :=
  ∃ i, p.get? base = some i ∧ i.opcode = opcode ∧ i.target = target ∧ i.text = text

theorem stands_of_placed {opcode : Opcode} {target : Nat} {text : String}
    (h : (p.get? base).map erase = some ⟨opcode, target, text, default⟩) : Stands p base opcode target text := by
  obtain ⟨i, hi, he⟩ := Option.map_eq_some_iff.mp h
  simp only [erase, Instruction.mk.injEq] at he
  exact ⟨i, hi, he.1, he.2.1, he.2.2.1⟩

theorem placed_expression {text : String} (h : Placed p start stop base ((Part.expression text).code base)) :
    Stands p base .calc (base + 1) text := stands_of_placed (placed_cons.mp h).1

theorem placed_break (h : Placed p start stop base (Part.break_.code base)) : Stands p base .jump stop "" :=
  stands_of_placed (placed_cons.mp h).1

theorem placed_continue (h : Placed p start stop base (Part.continue_.code base)) : Stands p base .jump start "" :=
  stands_of_placed (placed_cons.mp h).1

section Placed

variable {text : String} {s t : Part .statement}

theorem placed_ifThen (h : Placed p start stop base ((Part.ifThen text s).code base)) :
    Stands p base .jumpIfZero (base + 1 + s.size) text ∧ Placed p start stop (base + 1) (s.code (base + 1)) ∧
      Stands p (base + 1 + s.size) .jump (base + s.size + 2) "" := by
  obtain ⟨htest, h⟩ := placed_cons.mp h
  obtain ⟨hs, hjump⟩ := placed_append.mp h
  rw [Part.length_code] at hjump
  exact ⟨stands_of_placed htest, hs, stands_of_placed (placed_cons.mp hjump).1⟩

theorem placed_ifElse (h : Placed p start stop base ((Part.ifElse text s t).code base)) :
    Stands p base .jumpIfZero (base + s.size + 2) text ∧ Placed p start stop (base + 1) (s.code (base + 1)) ∧
      Stands p (base + 1 + s.size) .jump (base + s.size + 2 + t.size) "" ∧
      Placed p start stop (base + s.size + 2) (t.code (base + s.size + 2)) := by
  obtain ⟨htest, h⟩ := placed_cons.mp h
  obtain ⟨hs, h⟩ := placed_append.mp h
  rw [Part.length_code] at h
  obtain ⟨hjump, ht⟩ := placed_cons.mp h
  rw [show base + 1 + s.size + 1 = base + s.size + 2 by omega] at ht
  exact ⟨stands_of_placed htest, hs, stands_of_placed hjump, ht⟩

theorem end_ifElse : base + (Part.ifElse text s t).size = base + s.size + 2 + t.size := by
  rw [Part.size]
  omega

theorem placed_while (h : Placed p start stop base ((Part.while_ text s).code base)) :
    Stands p base .jumpIfZero (base + s.size + 2) text ∧
      Placed p base (base + s.size + 2) (base + 1) (s.code (base + 1)) ∧ Stands p (base + 1 + s.size) .jump base "" := by
  obtain ⟨htest, h⟩ := placed_cons.mp h
  obtain ⟨hs, hjump⟩ := placed_append.mp h
  rw [List.length_map, Part.length_code] at hjump
  exact ⟨stands_of_placed htest, hs.of_claimed, stands_of_placed (placed_cons.mp hjump).1⟩

theorem placed_seq {b : Part .block} (h : Placed p start stop base ((Part.cons s b).code base)) :
    Placed p start stop base (s.code base) ∧ Placed p start stop (base + s.size) (b.code (base + s.size)) := by
  obtain ⟨hs, hb⟩ := placed_append.mp h
  rw [Part.length_code] at hb
  exact ⟨hs, hb⟩

end Placed

/-! ## Runs have paths -/

section Steps

variable {target : Nat} {text : String}

theorem Stands.path_jump (h : Stands p base .jump target text) (hb : Path p n target log b) :
    Path p (n + 1) base log b := by
  obtain ⟨i, hi, hop, htarget, -⟩ := h
  exact .jump hi hop (htarget ▸ hb)

theorem Path.then_jump (h : Path p n a log base) (hj : Stands p base .jump target text) :
    Path p (n + 1) a log target := by
  simpa using h.trans (hj.path_jump (.stay _))

theorem Stands.path_calc (h : Stands p base .calc target text) (zero : Bool)
    (hb : Path p n (base + 1 : Nat) log b) : Path p (n + 1) base ((text, zero) :: log) b := by
  obtain ⟨i, hi, hop, -, rfl⟩ := h
  refine .evaluate zero hi (.inl hop) ?_
  rwa [after, if_neg (by simp [hop])]

theorem Stands.path_zero (h : Stands p base .jumpIfZero target text) (hb : Path p n target log b) :
    Path p (n + 1) base ((text, true) :: log) b := by
  obtain ⟨i, hi, hop, htarget, rfl⟩ := h
  refine .evaluate true hi (.inr hop) ?_
  rwa [after, if_pos ⟨hop, rfl⟩, htarget]

theorem Stands.path_nonzero (h : Stands p base .jumpIfZero target text) (hb : Path p n (base + 1 : Nat) log b) :
    Path p (n + 1) base ((text, false) :: log) b := by
  obtain ⟨i, hi, hop, -, rfl⟩ := h
  refine .evaluate false hi (.inr hop) ?_
  rwa [after, if_neg (by simp)]

end Steps

/-- Where a part goes on after an exit, if `rest` is the end of the part. -/
def Exit.position (start stop rest : Nat) : Exit → Nat
  | .done => rest
  | .left => stop
  | .again => start

/-- Every run of a part has a path, to where the part is left. -/
theorem Part.Run.path {k : Kind} {t : Part k} {log : Log} {x : Exit} (h : t.Run log x) {start stop base : Nat}
    (hp : Placed p start stop base (t.code base)) :
    ∃ n, Path p n base log (x.position start stop (base + t.size)) := by
  induction h generalizing start stop base with
  | expression text zero => exact ⟨1, (placed_expression hp).path_calc zero (.stay _)⟩
  | block _ ih => exact ih hp
  | @ifTrue c s log x _ ih =>
    obtain ⟨htest, hs, hjump⟩ := placed_ifThen hp
    obtain ⟨n, hn⟩ := ih hs
    -- only at its end the branch runs into the jump
    cases x with
    | done => exact ⟨_, (htest.path_nonzero hn).then_jump hjump⟩
    | left => exact ⟨_, htest.path_nonzero hn⟩
    | again => exact ⟨_, htest.path_nonzero hn⟩
  | ifFalse c s =>
    obtain ⟨htest, -, hjump⟩ := placed_ifThen hp
    exact ⟨_, htest.path_zero (hjump.path_jump (.stay _))⟩
  | @ifElseTrue c s t log x _ ih =>
    obtain ⟨htest, hs, hjump, -⟩ := placed_ifElse hp
    obtain ⟨n, hn⟩ := ih hs
    cases x with
    | done =>
      rw [Exit.position, end_ifElse]
      exact ⟨_, (htest.path_nonzero hn).then_jump hjump⟩
    | left => exact ⟨_, htest.path_nonzero hn⟩
    | again => exact ⟨_, htest.path_nonzero hn⟩
  | @ifElseFalse c s t log x _ ih =>
    obtain ⟨htest, -, -, ht⟩ := placed_ifElse hp
    obtain ⟨n, hn⟩ := ih ht
    rw [end_ifElse]
    exact ⟨_, htest.path_zero hn⟩
  | whileEnd c s =>
    obtain ⟨htest, -⟩ := placed_while hp
    exact ⟨_, htest.path_zero (.stay _)⟩
  | whileLeft _ ih =>
    obtain ⟨htest, hs, -⟩ := placed_while hp
    obtain ⟨n, hn⟩ := ih hs
    exact ⟨_, htest.path_nonzero hn⟩
  | @whileNext c s log log' x y _ hx _ ihs ih =>
    obtain ⟨htest, hs, hjump⟩ := placed_while hp
    obtain ⟨n, hn⟩ := ihs hs
    obtain ⟨m, hm⟩ := ih hp
    -- after `continue` the path is at the test already, otherwise at the jump back to it
    cases x with
    | done => exact ⟨_, (htest.path_nonzero hn).trans (hjump.path_jump hm)⟩
    | left => exact absurd rfl hx
    | again => exact ⟨_, (htest.path_nonzero hn).trans hm⟩
  | break_ => exact ⟨_, (placed_break hp).path_jump (.stay _)⟩
  | continue_ => exact ⟨_, (placed_continue hp).path_jump (.stay _)⟩
  | nil => exact ⟨0, .stay _⟩
  | consNext _ _ ihs ihb =>
    obtain ⟨hs, hb⟩ := placed_seq hp
    obtain ⟨n, hn⟩ := ihs hs
    obtain ⟨m, hm⟩ := ihb hb
    rw [Nat.add_assoc] at hm
    exact ⟨_, hn.trans hm⟩
  | @consExit s b log x _ hx ih =>
    obtain ⟨n, hn⟩ := ih (placed_seq hp).1
    cases x with
    | done => exact absurd rfl hx
    | left => exact ⟨n, hn⟩
    | again => exact ⟨n, hn⟩

/-- Where a part awaits an expression there is a path to it. -/
theorem Part.Awaits.path {k : Kind} {t : Part k} {log : Log} {text : String} (h : t.Awaits log text)
    {start stop base : Nat} (hp : Placed p start stop base (t.code base)) :
    ∃ n ip i, Path p n base log ip ∧ p.get? ip = some i ∧ Evaluates i ∧ i.text = text := by
  induction h generalizing start stop base with
  | expression text =>
    obtain ⟨i, hi, hop, -, ht⟩ := placed_expression hp
    exact ⟨0, _, i, .stay _, hi, .inl hop, ht⟩
  | block _ ih => exact ih hp
  | ifTest c s =>
    obtain ⟨⟨i, hi, hop, -, ht⟩, -⟩ := placed_ifThen hp
    exact ⟨0, _, i, .stay _, hi, .inr hop, ht⟩
  | ifTrue _ ih =>
    obtain ⟨htest, hs, -⟩ := placed_ifThen hp
    obtain ⟨n, ip, i, hn, hi⟩ := ih hs
    exact ⟨_, ip, i, htest.path_nonzero hn, hi⟩
  | ifElseTest c s t =>
    obtain ⟨⟨i, hi, hop, -, ht⟩, -⟩ := placed_ifElse hp
    exact ⟨0, _, i, .stay _, hi, .inr hop, ht⟩
  | ifElseTrue _ ih =>
    obtain ⟨htest, hs, -⟩ := placed_ifElse hp
    obtain ⟨n, ip, i, hn, hi⟩ := ih hs
    exact ⟨_, ip, i, htest.path_nonzero hn, hi⟩
  | ifElseFalse _ ih =>
    obtain ⟨htest, -, -, ht⟩ := placed_ifElse hp
    obtain ⟨n, ip, i, hn, hi⟩ := ih ht
    exact ⟨_, ip, i, htest.path_zero hn, hi⟩
  | whileTest c s =>
    obtain ⟨⟨i, hi, hop, -, ht⟩, -⟩ := placed_while hp
    exact ⟨0, _, i, .stay _, hi, .inr hop, ht⟩
  | whileBody _ ih =>
    obtain ⟨htest, hs, -⟩ := placed_while hp
    obtain ⟨n, ip, i, hn, hi⟩ := ih hs
    exact ⟨_, ip, i, htest.path_nonzero hn, hi⟩
  | @whileNext c s log log' x text hrun hx _ ih =>
    obtain ⟨htest, hs, hjump⟩ := placed_while hp
    obtain ⟨n, hn⟩ := hrun.path hs
    obtain ⟨m, ip, i, hm, hi⟩ := ih hp
    cases x with
    | done => exact ⟨_, ip, i, (htest.path_nonzero hn).trans (hjump.path_jump hm), hi⟩
    | left => exact absurd rfl hx
    | again => exact ⟨_, ip, i, (htest.path_nonzero hn).trans hm, hi⟩
  | consHere _ ih => exact ih (placed_seq hp).1
  | consNext hrun _ ih =>
    obtain ⟨hs, hb⟩ := placed_seq hp
    obtain ⟨n, hn⟩ := hrun.path hs
    obtain ⟨m, ip, i, hm, hi⟩ := ih hb
    exact ⟨_, ip, i, hn.trans hm, hi⟩

/-! ## Paths are runs -/

section Inversion

variable {target : Nat} {text : String}

theorem Stands.of_jump (h : Stands p base .jump target text) (hp : Path p n base log b) :
    (log = [] ∧ b = base) ∨ ∃ m < n, Path p m target log b := by
  obtain ⟨i, hi, hop, htarget, -⟩ := h
  rw [← htarget]
  exact hp.of_jump hi hop

theorem Stands.of_calc (h : Stands p base .calc target text) (hp : Path p n base log b) :
    (log = [] ∧ b = base) ∨ ∃ m < n, ∃ zero log', log = (text, zero) :: log' ∧ Path p m (base + 1 : Nat) log' b := by
  obtain ⟨i, hi, hop, -, rfl⟩ := h
  have hafter : ∀ zero, after i base zero = (base + 1 : Nat) := fun zero => if_neg (by simp [hop])
  simpa only [hafter] using hp.of_evaluates hi (.inl hop)

theorem Stands.of_test (h : Stands p base .jumpIfZero target text) (hp : Path p n base log b) :
    (log = [] ∧ b = base) ∨ (∃ m < n, ∃ log', log = (text, true) :: log' ∧ Path p m target log' b) ∨
      ∃ m < n, ∃ log', log = (text, false) :: log' ∧ Path p m (base + 1 : Nat) log' b := by
  obtain ⟨i, hi, hop, htarget, rfl⟩ := h
  rcases hp.of_evaluates hi (.inr hop) with hstay | ⟨m, hm, zero, log', rfl, hp'⟩
  · exact .inl hstay
  · cases zero with
    | true =>
      have hafter : after i base true = target := (if_pos ⟨hop, rfl⟩).trans htarget
      exact .inr (.inl ⟨m, hm, log', rfl, hafter ▸ hp'⟩)
    | false =>
      have hafter : after i base false = (base + 1 : Nat) := if_neg (by simp)
      exact .inr (.inr ⟨m, hm, log', rfl, hafter ▸ hp'⟩)

end Inversion

/-- The part runs, and a path of at most `n` instructions goes on from where it is left. -/
def Leaves (p : Program) (start stop base n : Nat) {k : Kind} (t : Part k) (log : Log) (ip : Int) : Prop :=
  ∃ m ≤ n, ∃ done rest x, t.Run done x ∧ log = done ++ rest ∧ Path p m (x.position start stop (base + t.size)) rest ip

/-- The position is inside of the code of a part. If an expression stands there, the part awaits it. -/
def Stops (p : Program) (base : Nat) {k : Kind} (t : Part k) (log : Log) (ip : Int) : Prop :=
  base ≤ ip ∧ ip < (base + t.size : Nat) ∧ ∀ i, p.get? ip = some i → Evaluates i → t.Awaits log i.text

/-- A path that ends at a jump awaits nothing. -/
theorem Stands.stops {target : Nat} {text : String} {k : Kind} {t : Part k} {here : Nat}
    (h : Stands p here .jump target text) (hbase : base ≤ here) (hend : here < base + t.size) :
    Stops p base t log here := by
  refine ⟨by omega, by omega, fun i hi he => ?_⟩
  obtain ⟨j, hj, hop, -⟩ := h
  cases hj.symm.trans hi
  simp [Evaluates, hop] at he

/-- A path that ends at the first expression of a part awaits it. -/
theorem Stands.stops_first {opcode : Opcode} {target : Nat} {text : String} {k : Kind} {t : Part k}
    (h : Stands p base opcode target text) (ht : t.Awaits [] text) (hsize : 0 < t.size) : Stops p base t [] base := by
  refine ⟨by omega, by omega, fun i hi _ => ?_⟩
  obtain ⟨j, hj, -, -, rfl⟩ := h
  cases hj.symm.trans hi
  exact ht

/-- A path from the end of a branch, where a jump leads to the end of the part. -/
theorem leaves_of_jump {k : Kind} {t : Part k} {here : Nat} {done rest : Log} {ip : Int}
    (hj : Stands p here .jump (base + t.size) "") (hbase : base ≤ here) (hend : here < base + t.size) (hmn : m ≤ n)
    (hrun : t.Run done .done) (h : Path p m here rest ip) :
    Leaves p start stop base n t (done ++ rest) ip ∨ Stops p base t (done ++ rest) ip := by
  rcases hj.of_jump h with ⟨rfl, rfl⟩ | ⟨m', hm', h'⟩
  · exact .inr (hj.stops hbase hend)
  · exact .inl ⟨m', by omega, done, rest, .done, hrun, rfl, h'⟩

/-- A loop whose body is left as it runs: every path from its test goes around it, or it ends inside of it. -/
theorem Path.cases_while {c : String} {s : Part .statement} {log : Log} {ip : Int}
    (htest : Stands p base .jumpIfZero (base + s.size + 2) c) (hjump : Stands p (base + 1 + s.size) .jump base "")
    (hbody : ∀ {m : Nat} {log : Log}, Path p m (base + 1 : Nat) log ip →
      Leaves p base (base + s.size + 2) (base + 1) m s log ip ∨ Stops p (base + 1) s log ip)
    (h : Path p n base log ip) :
    Leaves p start stop base n (.while_ c s) log ip ∨ Stops p base (.while_ c s) log ip := by
  have hsize : base + (Part.while_ c s).size = base + s.size + 2 := rfl
  -- every round takes a step, so the path gets shorter from round to round
  induction n using Nat.strongRecOn generalizing log with
  | ind n ihn =>
    have round {m : Nat} {done rest : Log} {x : Exit} (hm : m < n) (hrun : s.Run done x) (hx : x ≠ .left)
        (h : Path p m base rest ip) : Leaves p start stop base n (.while_ c s) ((c, false) :: (done ++ rest)) ip ∨
          Stops p base (.while_ c s) ((c, false) :: (done ++ rest)) ip := by
      rcases ihn m hm h with ⟨m', hm', done', rest, y, hrun', rfl, h'⟩ | ⟨hbase, hend, hawaits⟩
      · refine .inl ⟨m', by omega, (c, false) :: (done ++ done'), rest, y, .whileNext hrun hx hrun', ?_, h'⟩
        simp
      · exact .inr ⟨hbase, hend, fun i hi he => .whileNext hrun hx (hawaits i hi he)⟩
    rcases htest.of_test h with ⟨rfl, rfl⟩ | ⟨m, hm, rest, rfl, h'⟩ | ⟨m, hm, rest, rfl, h'⟩
    · exact .inr (htest.stops_first (.whileTest c s) (Nat.succ_pos _))
    · exact .inl ⟨m, Nat.le_of_lt hm, _, rest, .done, .whileEnd c s, rfl, h'⟩
    · rcases hbody h' with ⟨m', hm', done, rest, x, hrun, rfl, h''⟩ | ⟨hbase, hend, hawaits⟩
      · cases x with
        | done =>
          rcases hjump.of_jump h'' with ⟨rfl, rfl⟩ | ⟨k, hk, h''⟩
          · exact .inr (hjump.stops (by omega) (by omega))
          · exact round (by omega) hrun (by simp) h''
        | left => exact .inl ⟨m', by omega, _, rest, .done, .whileLeft hrun, rfl, h''⟩
        | again => exact round (by omega) hrun (by simp) h''
      · exact .inr ⟨by omega, by omega, fun i hi he => .whileBody (hawaits i hi he)⟩

/-- Every path from the start of a part is a run of the part that goes on, or it ends inside of the part. -/
theorem Path.cases {k : Kind} (t : Part k) {start stop base n : Nat} {log : Log} {ip : Int}
    (hp : Placed p start stop base (t.code base)) (h : Path p n base log ip) :
    Leaves p start stop base n t log ip ∨ Stops p base t log ip := by
  induction t generalizing start stop base n log ip with
  | expression text =>
    have hcalc := placed_expression hp
    rcases hcalc.of_calc h with ⟨rfl, rfl⟩ | ⟨m, hm, zero, rest, rfl, h'⟩
    · exact .inr (hcalc.stops_first (.expression _) Nat.one_pos)
    · exact .inl ⟨m, Nat.le_of_lt hm, _, rest, .done, .expression text zero, rfl, h'⟩
  | block b ih =>
    rcases ih hp h with ⟨m, hm, done, rest, x, hrun, hlog, h'⟩ | ⟨hbase, hend, hawaits⟩
    · exact .inl ⟨m, hm, done, rest, x, .block hrun, hlog, h'⟩
    · exact .inr ⟨hbase, hend, fun i hi he => .block (hawaits i hi he)⟩
  | ifThen c s ih =>
    obtain ⟨htest, hs, hjump⟩ := placed_ifThen hp
    have hbefore : base + 1 + s.size < base + (Part.ifThen c s).size := by
      rw [Part.size]
      omega
    rcases htest.of_test h with ⟨rfl, rfl⟩ | ⟨m, hm, rest, rfl, h'⟩ | ⟨m, hm, rest, rfl, h'⟩
    · exact .inr (htest.stops_first (.ifTest c s) (Nat.succ_pos _))
    · exact leaves_of_jump hjump (by omega) hbefore (Nat.le_of_lt hm) (.ifFalse c s) h'
    · rcases ih hs h' with ⟨m', hm', done, rest, x, hrun, rfl, h''⟩ | ⟨hbase, hend, hawaits⟩
      · cases x with
        | done => exact leaves_of_jump hjump (by omega) hbefore (by omega) (.ifTrue hrun) h''
        | left => exact .inl ⟨m', by omega, _, rest, _, .ifTrue hrun, rfl, h''⟩
        | again => exact .inl ⟨m', by omega, _, rest, _, .ifTrue hrun, rfl, h''⟩
      · exact .inr ⟨by omega, by omega, fun i hi he => .ifTrue (hawaits i hi he)⟩
  | ifElse c s t ihs iht =>
    obtain ⟨htest, hs, hjump, ht⟩ := placed_ifElse hp
    have hsize : base + (Part.ifElse c s t).size = base + s.size + 2 + t.size := end_ifElse
    rw [← hsize] at hjump
    rcases htest.of_test h with ⟨rfl, rfl⟩ | ⟨m, hm, rest, rfl, h'⟩ | ⟨m, hm, rest, rfl, h'⟩
    · exact .inr (htest.stops_first (.ifElseTest c s t) (Nat.succ_pos _))
    · rcases iht ht h' with ⟨m', hm', done, rest, x, hrun, rfl, h''⟩ | ⟨hbase, hend, hawaits⟩
      · exact .inl ⟨m', by omega, _, rest, x, .ifElseFalse hrun, rfl, hsize ▸ h''⟩
      · exact .inr ⟨by omega, by omega, fun i hi he => .ifElseFalse (hawaits i hi he)⟩
    · rcases ihs hs h' with ⟨m', hm', done, rest, x, hrun, rfl, h''⟩ | ⟨hbase, hend, hawaits⟩
      · cases x with
        | done => exact leaves_of_jump hjump (by omega) (by omega) (by omega) (.ifElseTrue hrun) h''
        | left => exact .inl ⟨m', by omega, _, rest, _, .ifElseTrue hrun, rfl, h''⟩
        | again => exact .inl ⟨m', by omega, _, rest, _, .ifElseTrue hrun, rfl, h''⟩
      · exact .inr ⟨by omega, by omega, fun i hi he => .ifElseTrue (hawaits i hi he)⟩
  | while_ c s ih =>
    obtain ⟨htest, hs, hjump⟩ := placed_while hp
    exact Path.cases_while htest hjump (fun h => ih hs h) h
  | break_ =>
    have hjump := placed_break hp
    rcases hjump.of_jump h with ⟨rfl, rfl⟩ | ⟨m, hm, h'⟩
    · exact .inr (hjump.stops (Nat.le_refl _) (Nat.lt_succ_self _))
    · exact .inl ⟨m, Nat.le_of_lt hm, [], log, .left, .break_, rfl, h'⟩
  | continue_ =>
    have hjump := placed_continue hp
    rcases hjump.of_jump h with ⟨rfl, rfl⟩ | ⟨m, hm, h'⟩
    · exact .inr (hjump.stops (Nat.le_refl _) (Nat.lt_succ_self _))
    · exact .inl ⟨m, Nat.le_of_lt hm, [], log, .again, .continue_, rfl, h'⟩
  | nil => exact .inl ⟨n, Nat.le_refl _, [], log, .done, .nil, rfl, h⟩
  | cons s b ihs ihb =>
    obtain ⟨hs, hb⟩ := placed_seq hp
    have hsize : base + (Part.cons s b).size = base + s.size + b.size := (Nat.add_assoc ..).symm
    rcases ihs hs h with ⟨m, hm, done, rest, x, hrun, rfl, h'⟩ | ⟨hbase, hend, hawaits⟩
    · cases x with
      | done =>
        rcases ihb hb h' with ⟨m', hm', done', rest, y, hrun', rfl, h''⟩ | ⟨hbase, hend, hawaits⟩
        · exact .inl ⟨m', by omega, _, rest, y, .consNext hrun hrun', (List.append_assoc ..).symm, hsize ▸ h''⟩
        · exact .inr ⟨by omega, by omega, fun i hi he => .consNext hrun (hawaits i hi he)⟩
      | left => exact .inl ⟨m, hm, done, rest, .left, .consExit hrun (by simp), rfl, h'⟩
      | again => exact .inl ⟨m, hm, done, rest, .again, .consExit hrun (by simp), rfl, h'⟩
    · exact .inr ⟨hbase, by omega, fun i hi he => .consHere (hawaits i hi he)⟩

end HostScript.Structured
