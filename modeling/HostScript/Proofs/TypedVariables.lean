import HostScript.Proofs.DeclaredTypes
import HostScript.Proofs.HostOperations
import HostScript.Proofs.TotalOrders
/-!
# Types of host variables

A host variable has the type it was defined with: its default and its limits are read in that type, and
whatever is stored in it is converted first. Of one type, other than floats, values that compare as equal are
the same, so that a store that counts as no change is none.
-/

set_option autoImplicit false

namespace HostScript

open HostScript.Text

/-! ## Equal values -/

namespace Value

/-- Values of one type that compare as equal are the same, but for floats, which may differ a little. -/
theorem eq_of_equals {a b : Value} (ht : a.type = b.type) (hf : a.type ≠ .float) (h : a.equals b = true) : a = b := by
  replace h : a.compare b = .eq := by simpa [equals] using h
  cases a with
  | invalid => cases h
  | undefined => cases h
  | float x => exact absurd rfl hf
  | int n => cases b <;> first | exact congrArg int (orderInts_eq_eq.mp h) | cases ht
  | str s => cases b <;> first | exact congrArg str (utf8_injective (orderBytes_eq_eq.mp h)) | cases ht
  | binary bytes => cases b <;> first | exact congrArg binary (orderBlobs_eq_eq.mp h) | cases ht
  | custom bytes => cases b <;> first | exact congrArg custom (orderBlobs_eq_eq.mp h) | cases ht

/-! ## Conversion -/

/-- A value that converts has the type it was converted to. -/
theorem type_convert_clean {v : Value} {ty : ValueType} (h : (v.convert ty).2 = true) : (v.convert ty).1.type = ty := by
  by_cases hv : v = .invalid
  · subst hv
    cases ty <;> first | rfl | cases h
  · exact type_convert hv ty

theorem type_round (v step : Value) : (v.round step).type = v.type := by
  unfold round
  split
  · rfl
  · cases v with
    | int n =>
      dsimp only
      split <;> rfl
    | _ => rfl

end Value

/-! ## Definitions -/

theorem readValue_type {field text : String} {ty : ValueType} {v : Value} (h : readValue field text ty = .ok v) :
    v.type = ty := by
  unfold readValue at h
  dsimp only at h
  split at h
  · rename_i hclean
    rw [← Except.ok.inj h]
    exact Value.type_convert_clean hclean
  · cases h

theorem Except.of_bind_ok {ε α β : Type} {x : Except ε α} {f : α → Except ε β} {b : β} (h : x >>= f = .ok b) :
    ∃ a, x = .ok a ∧ f a = .ok b := by
  cases x with
  | error e => cases h
  | ok a => exact ⟨a, rfl, h⟩

/-- The default and the limits of a definition have its type. -/
structure VariableDefinition.Typed (d : VariableDefinition) : Prop where
  default : d.default.type = d.type
  min : d.min.type = d.type
  max : d.max.type = d.type

theorem VariableDefinition.parse_typed {csv : String} {d : VariableDefinition} (h : parse csv = .ok d) : d.Typed := by
  unfold parse at h
  dsimp only at h
  obtain ⟨id, -, h⟩ := Except.of_bind_ok h
  generalize readType _ = ty at h
  obtain ⟨states, -, h⟩ := Except.of_bind_ok h
  obtain ⟨round, -, h⟩ := Except.of_bind_ok h
  obtain ⟨default, hdefault, h⟩ := Except.of_bind_ok h
  obtain ⟨min, hmin, h⟩ := Except.of_bind_ok h
  obtain ⟨max, hmax, h⟩ := Except.of_bind_ok h
  cases h
  exact ⟨readValue_type hdefault, readValue_type hmin, readValue_type hmax⟩

/-! ## Variables -/

namespace Variable

/-- A variable holds a value of its type. -/
structure Typed (v : Variable) : Prop where
  definition : v.definition.Typed
  current : v.current.type = v.definition.type

theorem ofDefinition_typed {d : VariableDefinition} (h : d.Typed) : (ofDefinition d).Typed := ⟨h, h.default⟩

theorem type_clamp {d : VariableDefinition} (hd : d.Typed) {x : Value} (hx : x.type = d.type) :
    (clamp d x).type = d.type := by
  have hchoice : ∀ {c : Prop} [Decidable c] {a b : Value}, a.type = d.type → b.type = d.type →
      (if c then a else b).type = d.type := by
    intro c _ a b ha hb
    split <;> assumption
  exact hchoice hx (hchoice hd.min (hchoice hd.max hx))

theorem type_adjust {d : VariableDefinition} (hd : d.Typed) {x : Value} (hx : x.type = d.type) :
    (adjust d x).type = d.type := by
  unfold adjust
  split
  · rw [Value.type_round, type_clamp hd hx]
  · exact hx

/-- What storing a value leaves of a variable, and when it counts as a change. -/
theorem store_eq_some {v w : Variable} {incoming : Value} {changed : Bool}
    (h : v.store? incoming = some (w, changed)) :
    w.definition = v.definition ∧ w.flags = v.flags ∧
      (v.definition.Typed → w.current.type = v.definition.type) ∧
      (changed = false → v.current.type = w.current.type ∧ v.current.equals w.current = true) := by
  unfold store? at h
  split at h
  · cases h
  · rename_i x hconvert
    obtain ⟨rfl, rfl⟩ := Prod.mk.inj (Option.some.inj h)
    have hx : x.type = v.definition.type := by
      have hclean : (incoming.convert v.definition.type).2 = true := by rw [hconvert]
      have htype := Value.type_convert_clean hclean
      rwa [hconvert] at htype
    exact ⟨rfl, rfl, fun hd => type_adjust hd hx, fun hsame => by simpa using hsame⟩

theorem Typed.store {v w : Variable} {incoming : Value} {changed : Bool} (hv : v.Typed)
    (h : v.store? incoming = some (w, changed)) : w.Typed := by
  obtain ⟨hdef, -, htype, -⟩ := store_eq_some h
  rw [← hdef] at htype
  exact ⟨hdef ▸ hv.definition, htype (hdef ▸ hv.definition)⟩

end Variable

end HostScript
