import HostScript.Proofs.Correspondence
import HostScript.Proofs.Frames
import HostScript.Script.Interpreter
/-!
# What evaluating does to a script

An expression changes its script by the accesses it makes and by the temporary objects it lets go. They
are recorded by evaluating it over a scope that answers like the script and writes each of them down, with
the script before and after. The record is exact: the recorded evaluation gives the same as the real one,
and its effects follow one another from the script before to the script after.
-/

set_option autoImplicit false

namespace HostScript

/-- What an expression does at once. -/
inductive Use (μ : Type) where
  | access (i : ScriptId μ) (a : Access)
  | release (h : Handle)

/-- The function of the script that is called. -/
def Use.called? {μ : Type} : Use μ → Option ScriptFunction
  | .access (.function g) (.call _) => some g
  | _ => none

/-- A function of the script is called. -/
def Use.Calls {μ : Type} (g : ScriptFunction) (u : Use μ) : Prop := ∃ args, u = .access (.function g) (.call args)

theorem Use.called_eq {μ : Type} {g : ScriptFunction} {u : Use μ} : u.called? = some g ↔ u.Calls g := by
  constructor
  · intro h
    unfold called? at h
    split at h
    · rename_i args
      exact ⟨args, by rw [Option.some_inj.mp h]⟩
    · cases h
  · rintro ⟨args, rfl⟩
    rfl

instance {μ : Type} (g : ScriptFunction) (u : Use μ) : Decidable (u.Calls g) := decidable_of_iff _ Use.called_eq

/-- A use of a script, which was in one state before and is in another one after it. -/
structure Effect (κ μ : Type) where
  before : ScriptState κ
  use : Use μ
  after : ScriptState κ

theorem not_calls_append {κ μ : Type} {g : ScriptFunction} {es : List (Effect κ μ)} {e : Effect κ μ}
    (hes : ¬∃ e ∈ es, e.use.Calls g) (he : ¬e.use.Calls g) : ¬∃ e' ∈ es ++ [e], e'.use.Calls g := by
  rintro ⟨e', hmem, hc⟩
  rcases List.mem_append.mp hmem with hmem | hmem
  · exact hes ⟨e', hmem, hc⟩
  · exact he (List.mem_singleton.mp hmem ▸ hc)

/-- The binding, when its host has no more events queued. -/
def Binding.settled (b : Binding) : Binding := { b with host := { b.host with queue := [] } }

namespace ScriptState

variable {κ μ : Type} [NativeObject κ μ]

/-! ## Recording -/

/-- The scope of a script that keeps a record of its uses beside the script. -/
def recordedScope (registry : Registry κ) : Scope (ScriptId μ) (ScriptState κ × List (Effect κ μ)) where
  find? s := findName? s.1
  access _ i a := do
    let s ← get
    let (answer, state) := access registry i a s.state.1
    set { s with state := (state, s.state.2 ++ [Effect.mk s.state.1 (.access i a) state]) }
    return answer.map (·.map .value)
  isObject s h := s.1.arena.contains h
  member? s := member? s.1
  release h s :=
    let state := (scope registry).release h s.1
    (state, s.2 ++ [Effect.mk s.1 (.release h) state])
  names s := names s.1
  cells _ := .empty
  setCells _ s := s

def recordedEngine (registry : Registry κ) : Engine κ (ScriptId μ) (ScriptState κ × List (Effect κ μ)) :=
  ⟨registry, recordedScope registry⟩

/-- What evaluating a text does to a script, in order. -/
def effectsOf (registry : Registry κ) (text : String) (s : ScriptState κ) : List (Effect κ μ) :=
  ((recordedEngine registry).calculate 1 text ⟨(s, []), .clear⟩).2.state.2

/-! ## Chains of effects -/

/-- The states have the same variables and objects, and both are bound or not. -/
structure SameHeap (s t : ScriptState κ) : Prop where
  vars : s.vars = t.vars
  arena : s.arena = t.arena
  bound : s.bound = t.bound

theorem SameHeap.rfl {s : ScriptState κ} : SameHeap s s := ⟨Eq.refl _, Eq.refl _, Eq.refl _⟩

theorem SameHeap.trans {s t u : ScriptState κ} (h : SameHeap s t) (h' : SameHeap t u) : SameHeap s u :=
  ⟨h.vars.trans h'.vars, h.arena.trans h'.arena, h.bound.trans h'.bound⟩

/-- The states also have the same binding, but for the events that the host has queued. -/
structure SameWorld (s t : ScriptState κ) : Prop extends SameHeap s t where
  binding : s.binding.settled = t.binding.settled

theorem SameWorld.rfl {s : ScriptState κ} : SameWorld s s := ⟨.rfl, Eq.refl _⟩

/-- The effect is what its use does. A script that is not bound uses its own identifiers. -/
inductive Happens (registry : Registry κ) : Effect κ μ → Prop
  | access (s : ScriptState κ) (i : ScriptId μ) (a : Access) :
    (s.bound = false → i.Own) → Happens registry ⟨s, .access i a, (access registry i a s).2⟩
  | release (s : ScriptState κ) (h : Handle) : Happens registry ⟨s, .release h, (scope registry).release h s⟩

/-- The effects lead from one script to another; nothing else changes a variable or an object. -/
inductive Chain (registry : Registry κ) : ScriptState κ → List (Effect κ μ) → ScriptState κ → Prop
  | quiet {s t : ScriptState κ} : SameHeap s t → Chain registry s [] t
  | effect {s t : ScriptState κ} {e : Effect κ μ} {es : List (Effect κ μ)} :
    SameHeap s e.before → Happens registry e → Chain registry e.after es t → Chain registry s (e :: es) t

variable {registry : Registry κ} {s t u : ScriptState κ} {es es' : List (Effect κ μ)}

theorem Chain.before (hs : SameHeap s t) (h : Chain registry t es u) : Chain registry s es u := by
  cases h with
  | quiet h => exact .quiet (hs.trans h)
  | effect he hh h => exact .effect (hs.trans he) hh h

theorem Chain.append (h : Chain registry s es t) (h' : Chain registry t es' u) : Chain registry s (es ++ es') u := by
  induction h with
  | quiet hs => exact h'.before hs
  | effect hs hh _ ih => exact .effect hs hh (ih h')

theorem Chain.single {e : Effect κ μ} (hs : SameHeap s e.before) (h : Happens registry e) :
    Chain registry s [e] e.after := .effect hs h (.quiet .rfl)

/-! ## The record is exact -/

theorem access_bound (i : ScriptId μ) (a : Access) (s : ScriptState κ) : (access registry i a s).2.bound = s.bound := by
  cases h : assignment? s i a with
  | none => exact (access_vars registry h).2
  | some r => rw [access_assignment registry h]; rfl

/-- The recorded script is the script, and something is kept of it and its record. -/
def Recorded (start : ScriptState κ) (Inv : ScriptState κ → List (Effect κ μ) → Prop) (s : ScriptState κ)
    (t : ScriptState κ × List (Effect κ μ)) : Prop :=
  t.1 = s ∧ s.bound = start.bound ∧ Inv s t.2

/-- Every use of a script keeps this of it and its record. -/
structure KeptByUses (registry : Registry κ) (Inv : ScriptState κ → List (Effect κ μ) → Prop) : Prop where
  access (s : ScriptState κ) (es : List (Effect κ μ)) (i : ScriptId μ) (a : Access) :
    Inv s es → (s.bound = false → i.Own) →
      Inv (access registry i a s).2 (es ++ [⟨s, .access i a, (access registry i a s).2⟩])
  release (s : ScriptState κ) (es : List (Effect κ μ)) (h : Handle) : Inv s es →
    Inv ((scope registry).release h s) (es ++ [⟨s, .release h, (scope registry).release h s⟩])

variable {Inv : ScriptState κ → List (Effect κ μ) → Prop}

theorem recorded_alike (hinv : KeptByUses registry Inv) (start : ScriptState κ) :
    ScopesAlike (.total (Recorded start Inv)) (fun i : ScriptId μ => start.bound = false → i.Own)
      (scope registry) (recordedScope registry) where
  find := by
    rintro ⟨s, _⟩ ⟨⟨_, es⟩, _⟩ name ⟨⟨rfl, -⟩, -⟩
    rfl
  found := by
    rintro ⟨s, _⟩ name (⟨⟨⟨_, es⟩, _⟩, ⟨rfl, hb, -⟩, -⟩ | hparted) i hi hs
    · exact findName_own (hb.trans hs) hi
    · exact hparted.elim
  access := by
    rintro _ _ i a - hi
    refine .of_total ?_
    rintro s ⟨_, es⟩ errors ⟨rfl, hb, hs⟩
    have hown : _ = false → i.Own := fun h => hi (hb.symm.trans h)
    exact ⟨rfl, trivial, ⟨rfl, (access_bound i a _).trans hb, hinv.access _ es i a hs hown⟩, rfl⟩
  isObject := by
    rintro ⟨s, _⟩ ⟨⟨_, es⟩, _⟩ h ⟨⟨rfl, -⟩, -⟩
    rfl
  member := by
    rintro ⟨s, _⟩ ⟨⟨_, es⟩, _⟩ h name ⟨⟨rfl, -⟩, -⟩
    rfl
  memberFound := fun _ i hi _ => member_own hi
  release := by
    refine fun h => .of_total ?_
    rintro s ⟨_, es⟩ errors ⟨rfl, hb, hs⟩
    exact ⟨rfl, trivial, ⟨rfl, hb, hinv.release _ es h hs⟩, rfl⟩
  cells := fun _ => rfl
  setCells := fun _ => .of_total fun _ _ _ h => ⟨rfl, trivial, h, rfl⟩

theorem calculate_errors {ι σ : Type} (engine : Engine κ ι σ) (text : String) (s : σ) (errors : ErrorState) :
    engine.calculate 1 text ⟨s, errors⟩ = engine.calculate 1 text ⟨s, .clear⟩ := rfl

/-- The recorded evaluation is the real one, and what the uses keep holds afterwards. -/
theorem calculate_recorded (hinv : KeptByUses registry Inv) (text : String) (s : ScriptState κ) (hs : Inv s []) :
    ((engine registry).calculate 1 text ⟨s, .clear⟩).1 =
        ((recordedEngine registry).calculate 1 text ⟨(s, []), .clear⟩).1 ∧
      Recorded s Inv ((engine registry).calculate 1 text ⟨s, .clear⟩).2.state
        ((recordedEngine registry).calculate 1 text ⟨(s, []), .clear⟩).2.state ∧
      ((engine registry).calculate 1 text ⟨s, .clear⟩).2.errors =
        ((recordedEngine registry).calculate 1 text ⟨(s, []), .clear⟩).2.errors := by
  have hregistry : (engine (κ := κ) registry).registry = (recordedEngine registry).registry := rfl
  have halike : Alike (.total (Recorded s Inv)) (fun _ => True) ((engine registry).calculate 1 text)
      ((recordedEngine registry).calculate 1 text) :=
    Engine.calculate_alike hregistry (recorded_alike hinv s) 1 text
  have hstart : Recorded s Inv s (s, []) := ⟨rfl, rfl, hs⟩
  exact halike.total hstart .clear

/-- What holds of a script and is kept by every use of it holds after evaluating, with the effects that
evaluating had. -/
theorem calculate_invariant (hinv : KeptByUses registry Inv) (text : String) (s : ScriptState κ) (errors : ErrorState)
    (hs : Inv s []) :
    Inv ((engine registry).calculate 1 text ⟨s, errors⟩).2.state (effectsOf registry text s) :=
  (calculate_recorded hinv text s hs).2.1.2.2

/-- The effects of evaluating lead to the script that evaluating leaves. -/
theorem calculate_chain (text : String) (s : ScriptState κ) (errors : ErrorState) :
    Chain registry s (effectsOf registry text s) ((engine registry).calculate 1 text ⟨s, errors⟩).2.state := by
  have hinv : KeptByUses (μ := μ) registry fun t es => Chain registry s es t :=
    ⟨fun _ _ i a hc hi => hc.append (.single .rfl (.access _ i a hi)),
      fun _ _ h hc => hc.append (.single .rfl (.release _ h))⟩
  exact calculate_invariant hinv text s errors (.quiet .rfl)

end ScriptState

end HostScript
