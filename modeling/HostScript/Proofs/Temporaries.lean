import HostScript.Proofs.Handles
import HostScript.Proofs.ParameterCounts
/-!
# Objects made in the course of a chain

A call may give the handle of an object that nothing refers to yet. If a member of the object follows, the handle is
gone once the member has been found, and so the scope is told at the end of the chain that the expression needs the
object no longer. The chain remembers one handle: of several calls that a member follows it is the last one whose
object is released. And a call with white space behind it ends the chain, so that the member that stands behind the
white space is never looked up, and the object is not released either.
-/

set_option autoImplicit false

namespace HostScript

open HostScript.Text HostScript.Token

variable {κ ι σ ω : Type} {ev : Evaluator κ ι σ} {term : TermReader σ} {i j : Identifier (Symbol ι)}
  {cs rest : List Char} {s t u : Session σ} {holder : Value} {made : Option Handle}

/-! ## What the scope is told -/

namespace Arena

/-- An object that nothing refers to is still there, though it agrees to go. -/
def Abandoned (agrees : ω → Bool) (arena : Arena ω) (h : Handle) : Prop :=
  ∃ slot, arena.slot? h = some slot ∧ slot.refs = 0 ∧ slot.object.any agrees = true

theorem not_abandoned_collect (agrees : ω → Bool) (arena : Arena ω) (h : Handle) :
    ¬(collect agrees arena h).1.Abandoned agrees h := by
  rintro ⟨slot, hslot, hrefs, hagrees⟩
  unfold collect at hslot
  cases hs : arena.slot? h with
  | none =>
    rw [hs] at hslot
    dsimp only at hslot
    cases hs.symm.trans hslot
  | some found =>
    rw [hs] at hslot
    dsimp only at hslot
    split at hslot
    · rw [remove_eq hs] at hslot
      obtain ⟨hget, -, hsome⟩ := slot_eq_some.mp hslot
      have hi := (List.getElem?_eq_some_iff.mp (slot_eq_some.mp hs).1).1
      rw [List.getElem?_set_self hi] at hget
      cases hget
      cases hsome
    · rename_i hkept
      obtain rfl := Option.some.inj (hs.symm.trans hslot)
      exact hkept ⟨hrefs, hagrees⟩

end Arena

namespace Evaluator

/-- The scope is told of objects, one after the other. -/
def releaseAll (ev : Evaluator κ ι σ) (hs : List Handle) (s : Session σ) : Session σ :=
  hs.foldl (fun s h => { s with state := ev.scope.release h s.state }) s

/-! ## Links -/

/-- The object that the result of a call is the handle of. -/
def calledFor (i : Identifier (Symbol ι)) (result : Value) : Option Handle :=
  if i.kind = .function then Handle.ofValue? result else none

/-- The object that the last call of a chain gave, if a member stands behind the white space that follows the call. -/
def parted (ev : Evaluator κ ι σ) (i : Identifier (Symbol ι)) (atom : Atom ι) (s : Session σ) : Option Handle :=
  if atom.rest.head? = some '.' then calledFor i ((ev.scope.cells s.state).resolve atom.operand) else none

/-- A link that a member follows remembers the object that it was called for. -/
def Remembers (i : Identifier (Symbol ι)) : Link ι → Prop
  | .last _ => True
  | .dot holder made _ => made = calledFor i holder

theorem readVariable_remembers (hi : i.kind ≠ .function) (cs : List Char) :
    SucceedsAs (fun l (_ : Link ι) => Remembers i l) (ev.readVariable i cs) (ev.readVariable i cs) := by
  cases cs with
  | nil => exact .same _ fun o => .pure trivial
  | cons c cs =>
    unfold readVariable
    refine .ite (.same _ fun o => .pure trivial) (.ite ?_ (.throw _ _))
    exact .same _ fun o => .same _ fun holder => .pure (if_neg hi).symm

theorem returned_remembers (hi : i.kind = .function) (rest : List Char) (result : Operand) :
    SucceedsAs (fun l (_ : Link ι) => Remembers i l) (ev.returned rest result) (ev.returned rest result) := by
  unfold returned
  split
  · exact .same _ fun holder => .pure (if_pos hi).symm
  · exact .pure trivial

theorem link_remembers (i : Identifier (Symbol ι)) (cs : List Char) :
    SucceedsAs (fun l (_ : Link ι) => Remembers i l) (ev.link term i cs) (ev.link term i cs) := by
  unfold link
  match hi : i.kind with
  | .constant => exact readVariable_remembers (by simp [hi]) cs
  | .variable => exact readVariable_remembers (by simp [hi]) cs
  | .typedef => exact .throw _ _
  | .keyword => exact .throw _ _
  | .function =>
    dsimp only
    cases cs with
    | nil => exact .throw _ _
    | cons c cs =>
      by_cases hc : c = '('
      · subst hc
        rw [callFunction_cons]
        refine .same _ fun r => ?_
        split
        · exact .throw _ _
        · exact .same _ (returned_remembers hi r.2)
      · have hthrow : SucceedsAs (σ := σ) (fun l (_ : Link ι) => Remembers i l)
          (throw ⟨.expectedFunction, i.name⟩) (throw ⟨.expectedFunction, i.name⟩) := .throw _ _
        simpa [callFunction, hc] using hthrow

/-! ## Chains -/

/-- How following a chain went. -/
structure ChainRun (ι σ : Type) where
  /-- The objects that calls were made for and a member followed at once, in this order. -/
  joined : List Handle
  /-- The object that the last call was made for, where a member stands behind white space. -/
  parted : Option Handle
  outcome : Except ScriptError (Atom ι)
  session : Session σ

/-- All objects that calls of the chain were made for and a `.` follows. -/
def ChainRun.due (r : ChainRun ι σ) : List Handle := r.joined ++ r.parted.toList

/-- A chain is followed link by link, and member by member, up to its end or to the first failure. -/
inductive Follows (ev : Evaluator κ ι σ) (term : TermReader σ) :
    Identifier (Symbol ι) → List Char → Session σ → ChainRun ι σ → Prop
  | fails {i : Identifier (Symbol ι)} {cs : List Char} {s t : Session σ} {e : ScriptError} :
    (ev.link term i cs).run.run s = (.error e, t) → Follows ev term i cs s ⟨[], none, .error e, t⟩
  | ends {i : Identifier (Symbol ι)} {cs : List Char} {s t : Session σ} {atom : Atom ι} :
    (ev.link term i cs).run.run s = (.ok (.last atom), t) →
    Follows ev term i cs s ⟨[], ev.parted i atom t, .ok atom, t⟩
  | strays {i : Identifier (Symbol ι)} {cs rest : List Char} {s t u : Session σ} {holder : Value} {made : Option Handle}
      {e : ScriptError} :
    (ev.link term i cs).run.run s = (.ok (.dot holder made rest), t) →
    (ev.member holder i.name rest).run.run t = (.error e, u) →
    Follows ev term i cs s ⟨(calledFor i holder).toList, none, .error e, u⟩
  | goesOn {i j : Identifier (Symbol ι)} {cs rest rest' : List Char} {s t u : Session σ} {holder : Value}
      {made : Option Handle} {r : ChainRun ι σ} :
    (ev.link term i cs).run.run s = (.ok (.dot holder made rest), t) →
    (ev.member holder i.name rest).run.run t = (.ok (j, rest'), u) → Follows ev term j rest' u r →
    Follows ev term i cs s { r with joined := (calledFor i holder).toList ++ r.joined }

/-- A chain is followed in one way only. -/
theorem Follows.unique {r r' : ChainRun ι σ} (h : Follows ev term i cs s r) (h' : Follows ev term i cs s r') : r = r' := by
  induction h generalizing r' with
  | fails hlink =>
    cases h' with
    | fails hlink' =>
      cases hlink.symm.trans hlink'
      rfl
    | ends hlink' => cases hlink.symm.trans hlink'
    | strays hlink' => cases hlink.symm.trans hlink'
    | goesOn hlink' => cases hlink.symm.trans hlink'
  | ends hlink =>
    cases h' with
    | fails hlink' => cases hlink.symm.trans hlink'
    | ends hlink' =>
      cases hlink.symm.trans hlink'
      rfl
    | strays hlink' => cases hlink.symm.trans hlink'
    | goesOn hlink' => cases hlink.symm.trans hlink'
  | strays hlink hmember =>
    cases h' with
    | fails hlink' => cases hlink.symm.trans hlink'
    | ends hlink' => cases hlink.symm.trans hlink'
    | strays hlink' hmember' =>
      cases hlink.symm.trans hlink'
      cases hmember.symm.trans hmember'
      rfl
    | goesOn hlink' hmember' =>
      cases hlink.symm.trans hlink'
      cases hmember.symm.trans hmember'
  | goesOn hlink hmember _ ih =>
    cases h' with
    | fails hlink' => cases hlink.symm.trans hlink'
    | ends hlink' => cases hlink.symm.trans hlink'
    | strays hlink' hmember' =>
      cases hlink.symm.trans hlink'
      cases hmember.symm.trans hmember'
    | goesOn hlink' hmember' hrest =>
      cases hlink.symm.trans hlink'
      cases hmember.symm.trans hmember'
      rw [ih hrest]

variable (ev) in
/-- Following a chain remembers the object that was met last. -/
theorem chain_follows (n : Nat) {k : Nat} (hk : cs.length < k) (temporary : Option Handle) (i : Identifier (Symbol ι))
    (s : Session σ) :
    ∃ r, Follows ev (ev.termAt n) i cs s r ∧
      ev.chain (ev.termAt n) k temporary i cs s = ((r.joined.getLast?.or temporary, r.outcome), r.session) := by
  induction k generalizing cs temporary i s with
  | zero => exact absurd hk (Nat.not_lt_zero _)
  | succ k ih =>
    rw [chain_succ]
    rcases hlink : (ev.link (ev.termAt n) i cs).run.run s with ⟨e | atom | ⟨holder, made, rest⟩, t⟩
    · exact ⟨_, .fails hlink, rfl⟩
    · exact ⟨_, .ends hlink, rfl⟩
    · obtain ⟨_, -, hmade⟩ := link_remembers i cs s _ t hlink
      dsimp only [Remembers] at hmade ⊢
      have hmet : (made <|> temporary) = (calledFor i holder).toList.getLast?.or temporary := by
        rw [hmade]
        cases calledFor i holder <;> rfl
      rcases hmember : (ev.member holder i.name rest).run.run t with ⟨e | ⟨j, rest'⟩, u⟩
      · exact ⟨_, .strays hlink hmember, by rw [hmet]⟩
      · -- a link takes something of the text, and so does a member
        have hterm := termAt_succeeds ev [] (Nat.le_refl n)
        obtain ⟨-, -, -, hshorter⟩ := link_succeeds ev hterm i cs s _ t hlink
        obtain ⟨-, -, -, hshorter'⟩ := member_succeeds ev [] holder i.name rest t _ u hmember
        dsimp only [Link.rest] at hshorter hshorter'
        have hrounds : rest'.length < k := by omega
        obtain ⟨r, hr, hchain⟩ := ih hrounds (made <|> temporary) j u
        refine ⟨_, .goesOn hlink hmember hr, ?_⟩
        dsimp only
        rw [hchain, hmet, List.getLast?_append, Option.or_assoc]

/-- Releasing the object that was met last releases all that are due iff no other one is. -/
theorem ChainRun.last_due_iff (r : ChainRun ι σ) :
    r.joined.getLast?.toList.Perm r.due ↔ r.joined.length ≤ 1 ∧ r.parted = none := by
  constructor
  · intro h
    have hlength := h.length_eq
    rw [due, List.length_append] at hlength
    have hlast : r.joined.getLast?.toList.length = min 1 r.joined.length := by
      cases r.joined with
      | nil => rfl
      | cons h hs => simp [List.getLast?_cons]
    have hparted : r.parted.toList.length = 0 := by omega
    refine ⟨by omega, ?_⟩
    simpa using hparted
  · rintro ⟨hjoined, hparted⟩
    rw [due, hparted]
    match hr : r.joined with
    | [] => exact .nil
    | [h] => exact .refl _
    | _ :: _ :: _ => simp [hr] at hjoined

/-- The chain of an identifier has one course, and the scope is told at its end of the object that was met last on it:
whether it succeeds or not, and of no other one. So every object that a call was made for and a `.` follows is released
exactly once iff there is at most one of them, and no white space stands before the `.` that follows it. What the scope
was told of is not left in an arena with nothing that refers to it, unless it refuses to go. -/
theorem temporaries_released_iff (ev : Evaluator κ ι σ) (n : Nat) {cs rest : List Char} {name : String}
    {i : Identifier (Symbol ι)} {s : Session σ} (hname : readName cs = .ok (name, rest))
    (hfind : ev.toEngine.find? s.state name = some i) :
    ∃ r, Follows ev (ev.termAt n) i rest s r ∧
      (ev.identifier (ev.termAt n) cs).run.run s = (r.outcome, ev.releaseAll r.joined.getLast?.toList r.session) ∧
      (r.joined.getLast?.toList.Perm r.due ↔ r.joined.length ≤ 1 ∧ r.parted = none) ∧
      ∀ (ω : Type) (agrees : ω → Bool) (arena : σ → Arena ω),
        (∀ h x, arena (ev.scope.release h x) = (Arena.collect agrees (arena x) h).1) →
        ∀ h ∈ r.joined.getLast?,
          ¬(arena ((ev.identifier (ev.termAt n) cs).run.run s).2.state).Abandoned agrees h := by
  obtain ⟨r, hr, hchain⟩ := chain_follows ev n (Nat.lt_succ_self rest.length) none i s
  rw [Option.or_none] at hchain
  have hrun : (ev.identifier (ev.termAt n) cs).run.run s =
      (r.outcome, ev.releaseAll r.joined.getLast?.toList r.session) := by
    rw [identifier_of_chain hname hfind hchain]
    cases r.joined.getLast? <;> rfl
  refine ⟨r, hr, hrun, r.last_due_iff, ?_⟩
  intro ω agrees arena hrelease h hh
  rw [hrun, Option.mem_def.mp hh]
  change ¬(arena (ev.scope.release h r.session.state)).Abandoned agrees h
  rw [hrelease]
  exact Arena.not_abandoned_collect agrees _ h

/-! ## A relay -/

/-- How many objects a relay has given, and those it was told of. -/
structure Relay where
  given : UInt32
  released : List Handle

/-- One function, which gives another object each time. The function is a member of every object, too. -/
def relay : Evaluator Empty Unit Relay where
  registry := .empty
  scope :=
    { Scope.none with
      find? := fun _ name => if name = "next" then some ⟨.function, "next", 0, ()⟩ else none
      access := fun _ _ _ => modifyGet fun s =>
        (.ok (some (.value (Handle.toValue ⟨s.state.given, 0⟩))),
          { s with state := { s.state with given := s.state.given + 1 } })
      isObject := fun _ _ => true
      member? := fun _ _ name => if name = "next" then some ⟨.function, "next", 0, ()⟩ else none
      release := fun h s => { s with released := s.released ++ [h] }
      names := fun _ => ["next"]
      cells := fun _ => .empty
      setCells := fun _ s => s }
  nested := fun _ => pure none

/-- Of two objects that a member follows the relay is told of the second one only. -/
theorem earlier_object_kept :
    ∃ r, Follows relay (relay.termAt 1) ⟨.function, "next", 0, .scoped ()⟩ "().next().x".toList ⟨⟨0, []⟩, .clear⟩ r ∧
      r.due = [⟨0, 0⟩, ⟨1, 0⟩] ∧
      ((relay.identifier (relay.termAt 1) "next().next().x".toList).run.run ⟨⟨0, []⟩, .clear⟩).2.state.released =
        [⟨1, 0⟩] := by
  have hname : readName "next().next().x".toList = .ok ("next", "().next().x".toList) := rfl
  have hfind : relay.toEngine.find? (⟨0, []⟩ : Relay) "next" = some ⟨.function, "next", 0, .scoped ()⟩ := rfl
  obtain ⟨r, hr, hrun, -⟩ := temporaries_released_iff relay 1 (s := ⟨⟨0, []⟩, .clear⟩) hname hfind
  have hcourse : Follows relay (relay.termAt 1) ⟨.function, "next", 0, .scoped ()⟩ "().next().x".toList
      ⟨⟨0, []⟩, .clear⟩ _ := .goesOn rfl rfl (.strays rfl rfl)
  obtain rfl := hr.unique hcourse
  refine ⟨_, hr, rfl, ?_⟩
  rw [hrun]
  rfl

end Evaluator

end HostScript
