import HostScript.Proofs.Progress
/-!
# Evaluating within an evaluation

A function of a scope may have texts evaluated while the engine that calls it is in the middle of a text, and functions
that are called there may do the same. It learns of each text whether it has a value, of what kind the error is if it
has none, and what stands in the place for the value then. The engine puts its text and its cursor back after each of
them, and leaves that place alone where it fails. So the evaluation that the functions are called from cannot tell
whether they use the engine that calls them or a new one each time.

The reason of an error is not among what a function learns. A kind that is reported again keeps its first reason, and
which one that is depends on what else was evaluated on the engine.
-/

set_option autoImplicit false

namespace HostScript

variable {κ ι σ α : Type}

/-! ## Functions that evaluate texts -/

/-- What a function of a scope does: it is done with an answer and a state of the scope, or wants a text evaluated into
a place, in a state, and goes on from what it is told and the state that it finds then. -/
inductive Conversation (σ α : Type) where
  | done (a : α) (s : σ)
  | ask (text : String) (place : Value) (s : σ) (next : Option ErrorKind → Value → σ → Conversation σ α)

/-- Where a function of a scope has its texts evaluated. -/
inductive Workplace where
  /-- On the engine that calls the function. -/
  | here
  /-- On a new engine with the same registry. -/
  | apart

/-- What a function is told of an evaluation at a desk: of what kind the error is if it fails, and what stands in the
place for the value. -/
def Desk.told (r : (Bool × Value) × Desk σ) : Option ErrorKind × Value :=
  (if r.1.1 then none else some r.2.errors.kind, r.1.2)

/-- The same of an evaluation in a session. -/
def Session.told (place : Value) (r : Option Value × Session σ) : Option ErrorKind × Value :=
  (if r.1.isSome then none else some r.2.errors.kind, r.1.getD place)

namespace Workplace

/-- Evaluates on the desk, or on a new one with the state of the scope. -/
def atDesk (m : Steps σ (Bool × Value)) : Workplace → Steps σ (Option ErrorKind × Value)
  | .here => fun d => (m d).map fun r => (Desk.told r, r.2)
  | .apart => fun d => (m ⟨[], 0, .clear, d.state⟩).map fun r => (Desk.told r, { d with state := r.2.state })

def inSession (m : Action σ (Option Value)) (place : Value) : Workplace → Action σ (Option ErrorKind × Value)
  | .here => fun s => (Session.told place (m s), (m s).2)
  | .apart => fun s => (Session.told place (m ⟨s.state, .clear⟩), { s with state := (m ⟨s.state, .clear⟩).2.state })

end Workplace

namespace Conversation

/-- A function at work that is called from a desk. -/
def atDesk (evaluate : String → Value → Steps σ (Option ErrorKind × Value)) : Conversation σ α → Steps σ α
  | .done a s => fun d => some (a, { d with state := s })
  | .ask text place s next => fun d =>
    (evaluate text place { d with state := s }).bind fun r => (next r.1.1 r.1.2 r.2.state).atDesk evaluate r.2

def inSession (evaluate : String → Value → Action σ (Option ErrorKind × Value)) : Conversation σ α → Action σ α
  | .done a s => fun t => (a, { t with state := s })
  | .ask text place s next => fun t =>
    let r := evaluate text place { t with state := s }
    (next r.1.1 r.1.2 r.2.state).inSession evaluate r.2

end Conversation

/-- The functions of a scope. -/
abbrev Talk (ι σ : Type) := ι → Access → σ → Conversation σ (Answer Operand)

namespace Engine

variable (engine : Engine κ ι σ) (talk : Talk ι σ) (w : Workplace)

/-- The engine at a desk, over the scope with these functions. -/
def talkingAt (calculate : Nat → String → Value → Steps σ (Bool × Value)) : CursorEngine κ ι σ :=
  { engine with
    access := fun n i a d => (talk i a d.state).atDesk (fun text place => w.atDesk (calculate n text place)) d }

/-- Evaluates a text at a desk, where functions have texts evaluated nested up to a depth. -/
def calculateAt : Nat → Nat → String → Value → Steps σ (Bool × Value)
  | 0, _, _, result => fun d =>
    some ((false, result), { d with errors := d.errors.report ⟨.compilerImplementationError, ""⟩ })
  | depth + 1, n, text, result => (engine.talkingAt talk w (calculateAt depth)).calculate n text result

/-- The engine over the scope with these functions. -/
def talking : Engine κ ι σ :=
  { engine with scope := { engine.scope with
      access := fun nested i a s =>
        (talk i a s.state).inSession (fun text place => w.inSession (nested text) place) s } }

end Engine

/-! ## At a desk and in a session -/

variable {engine : Engine κ ι σ} {talk : Talk ι σ} {w : Workplace}

/-- What is evaluated wherever, a function is told the same, and the text and the cursor are left as they are. -/
theorem Workplace.runs {m : Nat → Steps σ (Bool × Value)} {r : Action σ (Option Value)} {place : Value}
    (h : ∀ d : Desk σ, Comes (fun k => m k d) (d.answered place (r d.session))) (text : List Char) (p : Nat) :
    RunsAs text p (StaysAt p) (fun k => w.atDesk (m k)) (w.inSession r place) := by
  intro s
  cases w with
  | here => exact ⟨_, p, (h (.on text p s)).map fun r => (Desk.told r, r.2), rfl, rfl⟩
  | apart =>
    have hnew := (h ⟨[], 0, .clear, s.state⟩).map fun r =>
      (Desk.told r, { Desk.on text p s with state := r.2.state })
    exact ⟨_, p, hnew, rfl, rfl⟩

theorem Conversation.runs {evaluate : Nat → String → Value → Steps σ (Option ErrorKind × Value)}
    {evaluate' : String → Value → Action σ (Option ErrorKind × Value)} {text : List Char} {p : Nat}
    (h : ∀ t place, RunsAs text p (StaysAt p) (fun k => evaluate k t place) (evaluate' t place))
    (c : Conversation σ α) : RunsAs text p (StaysAt p) (fun k => c.atDesk (evaluate k)) (c.inSession evaluate') := by
  induction c with
  | done a s => exact fun t => ⟨a, p, .const _, rfl, rfl⟩
  | ask t place s next ih =>
    intro u
    obtain ⟨r, _, hrun, rfl, rfl⟩ := h t place { u with state := s }
    obtain ⟨a, _, hrest, rfl, rfl⟩ := ih _ _ _ _
    exact ⟨_, _, Comes.bind hrun hrest, rfl, rfl⟩

/-- What is evaluated at a desk comes to an end with what the engine gives. -/
theorem Engine.calculateAt_comes (depth : Nat) (text : String) (result : Value) (d : Desk σ) :
    Comes (fun k => engine.calculateAt talk w depth k text result d)
      (d.answered result ((engine.talking talk w).calculate depth text d.session)) := by
  induction depth generalizing text result d with
  | zero => exact .const _
  | succ depth ih =>
    rw [calculate_succ]
    have hanswers : (engine.talkingAt talk w (engine.calculateAt talk w depth)).Answers
        (engine.talking talk w).scope.access ((engine.talking talk w).calculate depth) :=
      fun i a text p s => Conversation.runs (fun t place => Workplace.runs (ih t place) text p) _ s
    exact CursorEngine.calculate_comes hanswers text result d

/-! ## Here and apart -/

/-- Sessions with the same state. Where texts were evaluated shows in the errors alone. -/
def Likeness.sameState : Likeness σ σ := ⟨fun s t => s.state = t.state, fun _ => False⟩

/-- A function is told the same of both evaluations, and finds the same state afterwards. -/
def TellsAlike (m m' : Action σ (Option Value)) : Prop :=
  ∀ (place : Value) (s t : Session σ), s.state = t.state →
    Session.told place (m s) = Session.told place (m' t) ∧ (m s).2.state = (m' t).2.state

theorem TellsAlike.inSession {m m' : Action σ (Option Value)} (h : TellsAlike m m') (w w' : Workplace) (place : Value) :
    Alike .sameState (fun _ => True) (w.inSession m place) (w'.inSession m' place) := by
  refine ⟨fun {s t} hst => ⟨trivial, .inr ?_⟩, fun hparted => hparted.elim⟩
  cases w <;> cases w'
  · exact h place s t hst
  · exact h place s ⟨t.state, .clear⟩ hst
  · exact h place ⟨s.state, .clear⟩ t hst
  · exact h place ⟨s.state, .clear⟩ ⟨t.state, .clear⟩ hst

theorem Conversation.inSession_alike {evaluate evaluate' : String → Value → Action σ (Option ErrorKind × Value)}
    (h : ∀ text place, Alike .sameState (fun _ => True) (evaluate text place) (evaluate' text place))
    (c : Conversation σ α) : Alike .sameState (fun _ => True) (c.inSession evaluate) (c.inSession evaluate') := by
  induction c with
  | done a s => exact ⟨fun _ => ⟨trivial, .inr ⟨rfl, rfl⟩⟩, fun hparted => hparted.elim⟩
  | ask text place s next ih =>
    refine ⟨fun {t u} _ => ⟨trivial, ?_⟩, fun hparted => hparted.elim⟩
    obtain ⟨-, hparted | ⟨htold, hstate⟩⟩ :=
      (h text place).related (s := { t with state := s }) (t := { u with state := s }) rfl
    · exact hparted.elim
    · have hrest := ((ih (evaluate text place { t with state := s }).1.1 (evaluate text place { t with state := s }).1.2
        (evaluate text place { t with state := s }).2.state).related hstate).2
      rw [inSession, inSession]
      dsimp only
      rw [← htold, ← (show _ = _ from hstate)]
      exact hrest

/-- The scopes differ in their functions alone. -/
theorem Engine.talking_lookups (engine : Engine κ ι σ) (talk : Talk ι σ) (w w' : Workplace) :
    LookupsAlike .sameState (fun _ => True) (engine.talking talk w).scope (engine.talking talk w').scope where
  find name h := congrArg (engine.scope.find? · name) h
  found _ _ _ := trivial
  isObject h hst := congrArg (engine.scope.isObject · h) hst
  member h name hst := congrArg (engine.scope.member? · h name) hst
  memberFound _ _ _ := trivial
  release h := .change (fun _ _ hst => congrArg (engine.scope.release h) hst) fun _ hparted => hparted
  cells hst := congrArg engine.scope.cells hst
  setCells cells := .change (fun _ _ hst => congrArg (engine.scope.setCells cells) hst) fun _ hparted => hparted

/-- What a function is told gives the value away. -/
theorem Session.value_of_told {place : Value} {r r' : Option Value × Session σ}
    (h : Session.told place r = Session.told place r') : r.1 = r'.1 := by
  obtain ⟨_ | v, s⟩ := r <;> obtain ⟨_ | v', s'⟩ := r'
  · rfl
  · cases congrArg Prod.fst h
  · cases congrArg Prod.fst h
  · exact congrArg some (congrArg Prod.snd h)

/-- Wherever functions have texts evaluated, they are told the same of them. -/
theorem Engine.calculate_tellsAlike (engine : Engine κ ι σ) (talk : Talk ι σ) (w w' : Workplace) (depth : Nat)
    (text : String) :
    TellsAlike ((engine.talking talk w).calculate depth text) ((engine.talking talk w').calculate depth text) := by
  induction depth generalizing text with
  | zero =>
    refine fun place s t hst => ⟨?_, hst⟩
    exact Prod.ext (congrArg some ((s.errors.report_kind _).trans (t.errors.report_kind _).symm)) rfl
  | succ depth ih =>
    intro place s t hst
    have hev : EvaluatorsAlike .sameState (fun _ => True) ((engine.talking talk w).evaluator depth)
        ((engine.talking talk w').evaluator depth) := by
      refine ⟨rfl, engine.talking_lookups talk w w', fun {i} a _ => ⟨?_, fun hparted => hparted.elim⟩⟩
      rintro ⟨s, _⟩ ⟨_, _⟩ rfl
      exact ((talk i a s).inSession_alike fun text place => (ih text).inSession w w' place).related rfl
    have hresult := ((Evaluator.expression_alike hev text.toList).related (s := ⟨s.state, .clear⟩)
      (t := ⟨t.state, .clear⟩) hst).2.resolve_left id
    rw [calculate_succ, calculate_succ]
    unfold Evaluator.calculate
    generalize (((engine.talking talk w).evaluator depth).expression text.toList).run ⟨s.state, .clear⟩ = r at hresult ⊢
    generalize (((engine.talking talk w').evaluator depth).expression text.toList).run ⟨t.state, .clear⟩ = r'
      at hresult ⊢
    obtain ⟨outcome, s'⟩ := r
    obtain ⟨_, t'⟩ := r'
    obtain ⟨rfl, hst'⟩ := hresult
    cases outcome with
    | ok v => exact ⟨rfl, hst'⟩
    | error e =>
      refine ⟨Prod.ext (congrArg some ?_) rfl, hst'⟩
      exact (s'.errors.report_kind e).trans (t'.errors.report_kind e).symm

/-- Wherever an engine is at work, and however deep functions have texts evaluated within texts, evaluating a text
leaves the text and the cursor of the engine as they are, and without a value the place for it, too. And it makes no
difference for the value and for the scope whether the functions have their texts evaluated on the engine that calls
them, or on a new one. -/
theorem calculate_reentrant (engine : Engine κ ι σ) (talk : Talk ι σ) (depth : Nat) (text : String) (result : Value)
    (d : Desk σ) :
    ∃ value state, ∀ w, ∃ errors,
      Comes (fun k => engine.calculateAt talk w depth k text result d)
        ((Option.isSome value, value.getD result), ⟨d.text, d.pos, errors, state⟩) ∧
      (engine.talking talk w).calculate depth text d.session = (value, ⟨state, errors⟩) := by
  rcases hhere : (engine.talking talk .here).calculate depth text d.session with ⟨value, s⟩
  refine ⟨value, s.state, fun w => ?_⟩
  obtain ⟨htold, hstate⟩ := engine.calculate_tellsAlike talk .here w depth text result d.session d.session rfl
  have hvalue := Session.value_of_told htold
  have hcomes : Comes (fun k => engine.calculateAt talk w depth k text result d)
      (d.answered result ((engine.talking talk w).calculate depth text d.session)) :=
    engine.calculateAt_comes depth text result d
  rcases hw : (engine.talking talk w).calculate depth text d.session with ⟨value', state, errors⟩
  rw [hhere, hw] at hvalue hstate
  rw [hw] at hcomes
  obtain rfl : value = value' := hvalue
  obtain rfl : s.state = state := hstate
  exact ⟨errors, hcomes, rfl⟩

end HostScript
