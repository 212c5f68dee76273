import HostScript.Proofs.Runs
/-!
# Declared types

A variable declared with a type is meant to keep it, and every value that is assigned is converted for
that. One value is not: `invalid` stays what it is, and takes its place in the variable with its own type,
after which the variable takes the type of whatever comes next. So a variable keeps its type throughout a
run exactly if `invalid` is never assigned to it, and nothing else can cost it its type.
-/

set_option autoImplicit false

namespace HostScript

/-! ## Assigning -/

theorem Value.type_eq_invalid {v : Value} : v.type = .invalid ↔ v = .invalid := by
  cases v <;> simp [Value.type]

/-- Everything but `invalid` has the type it is converted to. -/
theorem Value.type_convert {v : Value} (hv : v ≠ .invalid) (ty : ValueType) : (v.convert ty).1.type = ty := by
  have hi : v.type ≠ .invalid := fun h => hv (type_eq_invalid.mp h)
  simp only [convert, beq_iff_eq, hi, if_false]
  split
  · assumption
  · cases ty <;> rfl

theorem Value.convert_invalid {ty : ValueType} (hty : ty ≠ .invalid) : (convert .invalid ty).1 = .invalid := by
  simp [convert, type, Ne.symm hty]

/-- A place that keeps its type loses it to `invalid` and to nothing else. -/
theorem Value.type_assign {x : Value} (hx : x.keepsType = true) (v : Value) :
    (x.assign v).type = x.type ↔ v ≠ .invalid := by
  have hi : x.type ≠ .invalid := by
    rintro h
    simp [keepsType, h] at hx
  simp only [assign, hx, if_true]
  constructor
  · rintro h rfl
    rw [convert_invalid hi] at h
    exact hi h.symm
  · exact fun hv => type_convert hv x.type

/-! ## Effects -/

namespace ScriptState

variable {κ μ : Type} [NativeObject κ μ] {registry : Registry κ}

/-- The type of the value that a variable holds. -/
def typeAt? (s : ScriptState κ) (k : Nat) : Option ValueType := s.vars[k]?.map (·.value.type)

theorem SameHeap.typeAt {s t : ScriptState κ} (h : SameHeap s t) (k : Nat) : s.typeAt? k = t.typeAt? k := by
  rw [typeAt?, typeAt?, h.vars]

theorem typeAt_assign_ne {s : ScriptState κ} {j k : Nat} (hjk : j ≠ k) (x : ScriptVariable) (v : Value) :
    (s.assignVariable j x v).typeAt? k = s.typeAt? k := by
  simp [typeAt?, assignVariable, List.getElem?_set_ne hjk]

theorem typeAt_assign_self {s : ScriptState κ} {k : Nat} {x : ScriptVariable} (hx : s.vars[k]? = some x) (v : Value) :
    (s.assignVariable k x v).typeAt? k = some (x.value.assign v).type := by
  have hk : k < s.vars.length := (List.getElem?_eq_some_iff.mp hx).1
  simp [typeAt?, assignVariable, List.getElem?_set_self hk]

/-- The effect assigns `invalid` to a variable. -/
def Invalidates (k : Nat) (e : Effect κ μ) : Prop := e.use = .access (.variable k) (.write .invalid)

/-- A single effect costs a variable its type exactly if it assigns `invalid` to it. -/
theorem effect_typeAt {e : Effect κ μ} (he : Happens registry e) {k : Nat} {ty : ValueType}
    (hty : ty ≠ .undefined ∧ ty ≠ .invalid) (ht : e.before.typeAt? k = some ty) :
    e.after.typeAt? k = some ty ↔ ¬Invalidates k e := by
  cases he with
  | release s h => exact iff_of_true ht (by simp [Invalidates])
  | access s i a hown =>
    cases hassign : assignment? s i a with
    | none =>
      refine iff_of_true ?_ fun hinv => ?_
      · rw [typeAt?, (access_vars registry hassign).1]
        exact ht
      · obtain ⟨rfl, rfl⟩ : i = .variable k ∧ a = .write .invalid := by simpa [Invalidates] using hinv
        cases hk : s.vars[k]? with
        | none => simp [typeAt?, hk] at ht
        | some x => simp [assignment?, hk] at hassign
    | some r =>
      obtain ⟨index, x, v⟩ := r
      rw [access_assignment registry hassign]
      obtain ⟨rfl, rfl, hx⟩ := assignment_eq hassign
      by_cases hk : index = k
      · subst hk
        have hxt : x.value.type = ty := by simpa [typeAt?, hx] using ht
        have hkeep : x.value.keepsType = true := by simp [Value.keepsType, hxt, hty]
        rw [typeAt_assign_self hx, Option.some_inj, ← hxt, Value.type_assign hkeep]
        simp [Invalidates]
      · refine iff_of_true ((typeAt_assign_ne hk x v).trans ht) fun hinv => hk ?_
        obtain ⟨h, -⟩ : index = k ∧ v = .invalid := by simpa [Invalidates] using hinv
        exact h

/-- All along a chain a variable keeps its type exactly if no effect assigns `invalid` to it. -/
theorem chain_typeAt {s t : ScriptState κ} {es : List (Effect κ μ)} (h : Chain registry s es t) {k : Nat}
    {ty : ValueType} (hty : ty ≠ .undefined ∧ ty ≠ .invalid) (hs : s.typeAt? k = some ty) :
    ((∀ e ∈ es, e.after.typeAt? k = some ty) ↔ ∀ e ∈ es, ¬Invalidates k e) ∧
      ((∀ e ∈ es, ¬Invalidates k e) → t.typeAt? k = some ty) := by
  induction h with
  | quiet hq => simpa using (hq.typeAt k).symm.trans hs
  | @effect s t e es hq he _ ih =>
    have hstep := effect_typeAt he hty ((hq.typeAt k).symm.trans hs)
    simp only [List.forall_mem_cons, hstep]
    refine ⟨and_congr_right fun hinv => (ih (hstep.mpr hinv)).1, ?_⟩
    rintro ⟨hinv, h⟩
    exact (ih (hstep.mpr hinv)).2 h

end ScriptState

/-! ## Runs -/

open ScriptState

variable {κ μ : Type} [NativeObject κ μ]

/-- A variable of a compiled script keeps its declared type, after every effect and every operation of
whatever is done with the script, exactly if `invalid` is never assigned to it. -/
theorem declared_type_kept_iff (i : Interpreter κ) (source : String) {k : Nat} {x : ScriptVariable}
    (hx : (i.compile source).1.script.vars[k]? = some x) (hkeep : x.value.keepsType = true) (ops : List Operation) :
    ((∀ e ∈ Operation.runEffects (i.compile source).1 ops, e.after.typeAt? k = some x.value.type) ∧
        ∀ j ∈ Operation.run (i.compile source).1 ops, j.script.typeAt? k = some x.value.type) ↔
      ∀ e ∈ Operation.runEffects (i.compile source).1 ops, ¬Invalidates k e := by
  obtain ⟨t, hchain, hend⟩ := Operation.run_leads ops (i.compile source).1
  have hty : x.value.type ≠ .undefined ∧ x.value.type ≠ .invalid := by simpa [Value.keepsType] using hkeep
  obtain ⟨hiff, hlast⟩ := chain_typeAt hchain hty (by rw [typeAt?, hx]; rfl)
  rw [hiff]
  refine and_iff_left_of_imp fun hinv j hj => ?_
  rw [← (hend j hj).2.typeAt]
  exact hlast hinv

/-- The application has a function that gives `invalid`. -/
def invalidRegistry : Registry Empty := Registry.empty.register ⟨"invalid", 0, fun _ => .ok .invalid⟩

/-- An integer that is given the result of the function has no integer any more. -/
theorem declared_type_lost :
    let j := ((Interpreter.new invalidRegistry false 0).compile "int x; x = invalid();").1
    let ops := [Operation.execute 100 .init, Operation.execute 100 .run]
    (∃ x, j.script.vars[0]? = some x ∧ x.value.keepsType = true) ∧ j.script.typeAt? 0 = some .integer ∧
      (Operation.run j ops).map (·.script.typeAt? 0) = some (some .invalid) ∧
      ∃ e ∈ Operation.runEffects j ops, Invalidates 0 e := by
  intro j ops
  have hvalue : j.script.vars[0]?.map (·.value.keepsType) = some true := by decide +kernel
  have hstart : j.script.typeAt? 0 = some .integer := by decide +kernel
  have hend : (Operation.run j ops).map (·.script.typeAt? 0) = some (some .invalid) := by decide +kernel
  obtain ⟨x, hx, hkeep⟩ := Option.map_eq_some_iff.mp hvalue
  refine ⟨⟨x, hx, hkeep⟩, hstart, hend, Classical.byContradiction fun hnone => ?_⟩
  have hkept : ∀ e ∈ Operation.runEffects j ops, ¬Invalidates 0 e := fun e he hinv => hnone ⟨e, he, hinv⟩
  obtain ⟨k, hk, htype⟩ := Option.map_eq_some_iff.mp hend
  have hint := ((declared_type_kept_iff _ _ hx hkeep ops).mpr hkept).2 k hk
  have hx' : x.value.type = .integer := by simpa [typeAt?, hx] using hstart
  rw [htype, hx'] at hint
  cases hint

end HostScript
