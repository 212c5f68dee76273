import HostScript.Value.Reference
import Mathlib.Data.List.Nodup
import Mathlib.Logic.Relation
import Mathlib.Order.WellFoundedSet
/-!
# Where references lead

In a store whose references make no cycle, every operand leads through finitely many cells to a value, or to a cell
that was taken away. Copying follows one reference, and assigning copies once for each cell it writes through and once
more at the end. So an incoming chain that is longer than that arrives as a reference, and what it still refers to is
converted in its place. An incoming chain that comes back to a cell the assignment is writing through breaks it off.
-/

set_option autoImplicit false

namespace HostScript.Cells

variable {cells : Cells} {a v held : Operand} {c d : Nat} {cs ds used : List Nat} {w x : Option Value}
  {f : Value → Value} {n : Nat} {r : Cells × Operand}

/-! ## The store -/

theorem lt_of_get? (h : cells.get? c = some a) : c < cells.contents.length := by
  rw [get?, Option.join_eq_some_iff] at h
  exact (List.getElem?_eq_some_iff.mp h).1

theorem get?_set_self (h : c < cells.contents.length) : (cells.set c a).get? c = some a := by
  simp [get?, set, h]

theorem get?_set_ne (h : c ≠ d) : (cells.set c a).get? d = cells.get? d := by
  simp [get?, set, h]

/-- Putting back what a cell holds changes nothing. -/
theorem set_get? (h : cells.get? c = some a) : cells.set c a = cells := by
  rw [get?, Option.join_eq_some_iff] at h
  obtain ⟨hlt, hget⟩ := List.getElem?_eq_some_iff.mp h
  rw [set, ← hget, List.set_getElem_self]

/-! ## Chains -/

/-- The first cell holds a reference to the second one. -/
def Refers (cells : Cells) (c d : Nat) : Prop := cells.get? c = some (.ref d)

/-- No cell leads back to itself. -/
def Acyclic (cells : Cells) : Prop := ∀ c, ¬Relation.TransGen cells.Refers c c

/-- The cells that an operand leads through, and the value at the end unless the last reference dangles. -/
inductive Leads (cells : Cells) : Operand → List Nat → Option Value → Prop
  | value (v : Value) : Leads cells (.value v) [] (some v)
  | lost {c : Nat} : cells.get? c = none → Leads cells (.ref c) [] none
  | next {c : Nat} {held : Operand} {cs : List Nat} {w : Option Value} :
    cells.get? c = some held → Leads cells held cs w → Leads cells (.ref c) (c :: cs) w

/-- References to cells of smaller numbers make no cycle. -/
theorem acyclic_of_lt (h : ∀ c d, cells.Refers c d → d < c) : cells.Acyclic := by
  have hlt : ∀ c d, Relation.TransGen cells.Refers c d → d < c := by
    intro c d hcd
    induction hcd with
    | single hcd => exact h c _ hcd
    | tail _ hde ih => exact (h _ _ hde).trans ih
  exact fun c hc => lt_irrefl c (hlt c c hc)

theorem Acyclic.wellFoundedOn (h : cells.Acyclic) :
    (Set.Iio cells.contents.length).WellFoundedOn fun d c => Relation.TransGen cells.Refers c d := by
  have horder : IsStrictOrder Nat fun d c => Relation.TransGen cells.Refers c d :=
    { irrefl := h, trans := fun _ _ _ hab hbc => hbc.trans hab }
  exact (Set.finite_Iio _).wellFoundedOn

/-- Without cycles every operand leads somewhere. -/
theorem Acyclic.leads (h : cells.Acyclic) (a : Operand) : ∃ cs w, cells.Leads a cs w := by
  have hcell : ∀ c, ∃ cs w, cells.Leads (.ref c) cs w := by
    intro c
    by_cases hc : c < cells.contents.length
    · refine h.wellFoundedOn.induction (P := fun c => ∃ cs w, cells.Leads (.ref c) cs w) (Set.mem_Iio.mpr hc) ?_
      intro c _ ih
      match hget : cells.get? c with
      | none => exact ⟨[], none, .lost hget⟩
      | some (.value v) => exact ⟨[c], some v, .next hget (.value v)⟩
      | some (.ref d) =>
        by_cases hd : d < cells.contents.length
        · obtain ⟨cs, w, hleads⟩ := ih d hd (.single hget)
          exact ⟨c :: cs, w, .next hget hleads⟩
        · have hlost : cells.get? d = none := Option.eq_none_iff_forall_ne_some.mpr fun a ha => hd (lt_of_get? ha)
          exact ⟨[c], none, .next hget (.lost hlost)⟩
    · exact ⟨[], none, .lost (Option.eq_none_iff_forall_ne_some.mpr fun a ha => hc (lt_of_get? ha))⟩
  cases a with
  | value v => exact ⟨[], some v, .value v⟩
  | ref c => exact hcell c

namespace Leads

theorem lt_length (h : cells.Leads a cs w) : ∀ c ∈ cs, c < cells.contents.length := by
  induction h with
  | value v => simp
  | lost hget => simp
  | next hget _ ih => exact List.forall_mem_cons.mpr ⟨lt_of_get? hget, ih⟩

/-- A cell leads to all the cells that its content leads through. -/
theorem reached (h : cells.Leads a cs w) (hc : cells.get? c = some a) :
    ∀ d ∈ cs, Relation.TransGen cells.Refers c d := by
  induction h generalizing c with
  | value v => simp
  | lost hget => simp
  | next hget _ ih =>
    exact List.forall_mem_cons.mpr ⟨.single hc, fun d hd => .head hc (ih hget d hd)⟩

theorem nodup (h : cells.Leads a cs w) (hacyclic : cells.Acyclic) : cs.Nodup := by
  induction h with
  | value v => exact .nil
  | lost hget => exact .nil
  | next hget hleads ih =>
    exact List.nodup_cons.mpr ⟨fun hmem => hacyclic _ (hleads.reached hget _ hmem), ih⟩

theorem length_le (h : cells.Leads a cs w) (hacyclic : cells.Acyclic) : cs.length ≤ cells.contents.length := by
  have hsubset : cs ⊆ List.range cells.contents.length := fun c hc => List.mem_range.mpr (h.lt_length c hc)
  simpa using (List.subperm_of_subset (h.nodup hacyclic) hsubset).length_le

theorem chainWithin_eq (h : cells.Leads a cs w) (hn : cs.length ≤ n) : cells.chainWithin n a = cs := by
  induction h generalizing n with
  | value v => cases n <;> rfl
  | lost hget => cases n <;> simp [chainWithin, hget]
  | next hget _ ih =>
    obtain ⟨n, rfl⟩ := Nat.exists_eq_add_of_le' hn
    simp [chainWithin, hget, ih]

theorem targetWithin_eq (h : cells.Leads a cs w) (hn : cs.length ≤ n) : cells.targetWithin n a = w := by
  induction h generalizing n with
  | value v => cases n <;> rfl
  | lost hget => cases n <;> simp [targetWithin, hget]
  | next hget _ ih =>
    obtain ⟨n, rfl⟩ := Nat.exists_eq_add_of_le' hn
    simp [targetWithin, hget, ih]

theorem isRef_of_none (h : cells.Leads a cs none) : a.isRef = true := by
  cases h <;> rfl

/-- An operand that leads nowhere through cells is a value or dangles. -/
theorem isRef_of_nil (h : cells.Leads a [] w) : a.isRef = w.isNone := by
  cases h <;> rfl

end Leads

/-- Without cycles the chain and the target are read to the end. -/
theorem Acyclic.leads_chain (h : cells.Acyclic) (a : Operand) : cells.Leads a (cells.chain a) (cells.target? a) := by
  obtain ⟨cs, w, hleads⟩ := h.leads a
  have hn : cs.length ≤ cells.reach := (hleads.length_le h).trans (Nat.le_succ _)
  rwa [chain, target?, hleads.chainWithin_eq hn, hleads.targetWithin_eq hn]

theorem Acyclic.length_chain_lt (h : cells.Acyclic) (a : Operand) : (cells.chain a).length < cells.reach :=
  Nat.lt_succ_of_le ((h.leads_chain a).length_le h)

/-! ## Copies -/

/-- How often an operand has to be copied until a value is left. -/
def depth (cells : Cells) (a : Operand) : Nat := (cells.chain a).length + (cells.target? a).isNone.toNat

theorem copies_value (y : Value) (j : Nat) : cells.copy^[j] (.value y) = .value y := Function.iterate_fixed rfl j

/-- Copies are references until the chain is at its end, and each leads on where the one before has led. -/
theorem Leads.copies (h : cells.Leads a cs w) (j : Nat) :
    (j < cs.length + w.isNone.toNat → (cells.copy^[j] a).isRef = true ∧ cells.Leads (cells.copy^[j] a) (cs.drop j) w) ∧
      (cs.length + w.isNone.toNat ≤ j → ∃ y, cells.copy^[j] a = .value y) := by
  induction h generalizing j with
  | value v => exact ⟨fun hj => absurd hj (Nat.not_lt_zero j), fun _ => ⟨v, copies_value v j⟩⟩
  | lost hget =>
    cases j with
    | zero => exact ⟨fun _ => ⟨rfl, .lost hget⟩, fun hj => absurd hj (by simp)⟩
    | succ j =>
      refine ⟨fun hj => absurd hj (by simp), fun _ => ⟨.invalid, ?_⟩⟩
      rw [Function.iterate_succ_apply, copy, hget]
      exact copies_value _ j
  | @next c held cs w hget hleads ih =>
    cases j with
    | zero => exact ⟨fun _ => ⟨rfl, .next hget hleads⟩, fun hj => absurd hj (by simp)⟩
    | succ j =>
      have hstep : cells.copy^[j + 1] (.ref c) = cells.copy^[j] held := by
        rw [Function.iterate_succ_apply, copy, hget, Option.getD_some]
      rw [hstep, List.length_cons, List.drop_succ_cons]
      exact ⟨fun hj => (ih j).1 (by omega), fun hj => (ih j).2 (by omega)⟩

/-- A copy leads through all cells but the first one. -/
theorem Leads.copy (h : cells.Leads a cs w) : ∃ x, cells.Leads (cells.copy a) cs.tail x := by
  cases h with
  | value v => exact ⟨_, .value v⟩
  | lost hget =>
    rw [Cells.copy, hget]
    exact ⟨_, .value .invalid⟩
  | next hget hleads =>
    rw [Cells.copy, hget]
    exact ⟨_, hleads⟩

theorem Acyclic.isRef_copies (h : cells.Acyclic) (a : Operand) (j : Nat) :
    (cells.copy^[j] a).isRef = true ↔ j < cells.depth a := by
  obtain ⟨hbelow, habove⟩ := (h.leads_chain a).copies j
  refine ⟨fun href => lt_of_not_ge fun hj => ?_, fun hj => (hbelow hj).1⟩
  obtain ⟨y, hy⟩ := habove hj
  rw [hy] at href
  exact Bool.false_ne_true href

/-! ## Writing beside cells in use -/

theorem copyBeside?_eq_some (h : cells.copyBeside? used v = some a) : a = cells.copy v := by
  cases v with
  | value y => exact (Option.some.inj h).symm
  | ref c =>
    rw [copyBeside?] at h
    split at h
    · cases h
    · exact (Option.some.inj h).symm

/-- Copying breaks off at the first cell that the operand leads through. -/
theorem Leads.copyBeside?_eq_none (h : cells.Leads v ds x) (hused : ∀ c ∈ used, (cells.get? c).isSome) :
    cells.copyBeside? used v = none ↔ ∃ c, ds[0]? = some c ∧ c ∈ used := by
  cases h with
  | value y => simp [copyBeside?]
  | @lost c hget =>
    have hfree : c ∉ used := by
      intro hc
      simpa [hget] using hused c hc
    simp [copyBeside?, hfree]
  | next hget => simp [copyBeside?]

/-- What changing a live cell comes to. -/
theorem modifyBeside?_next (hget : cells.get? c = some held) :
    modifyBeside? f (n + 1) cells used (.ref c) =
      if c ∈ used then none
      else (modifyBeside? f n cells (c :: used) held).map fun r => (r.1.set c r.2, .ref c) := by
  rw [modifyBeside?, hget]
  simp only [Option.map_eq_bind]
  rfl

theorem modifyWithin_next (hget : cells.get? c = some held) :
    modifyWithin f (n + 1) cells (.ref c) =
      ((modifyWithin f n cells held).1.set c (modifyWithin f n cells held).2, .ref c) := by
  rw [modifyWithin, hget]

theorem modifyBeside?_lost (hget : cells.get? c = none) :
    modifyBeside? f n cells used (.ref c) = some (cells, .ref c) := by
  cases n with
  | zero => rfl
  | succ n => rw [modifyBeside?, hget]

/-- What assigning to a value comes to. -/
theorem assignBeside?_value (y : Value) :
    assignBeside? n cells used (.value y) v =
      (cells.copyBeside? used v).bind fun taken =>
        if y.keepsType then modifyBeside? (fun z => (z.convert y.type).1) cells.reach cells used taken
        else some (cells, taken) := by
  cases n <;> rfl

theorem assignBeside?_next (hget : cells.get? c = some held) :
    assignBeside? (n + 1) cells used (.ref c) v =
      (cells.copyBeside? used v).bind fun taken =>
        if c ∈ used then none
        else (assignBeside? n cells (c :: used) held taken).map fun r => (r.1.set c r.2, .ref c) := by
  rw [assignBeside?, hget]
  simp only [Option.map_eq_bind]
  rfl

theorem assignWithin_next (hget : cells.get? c = some held) :
    assignWithin (n + 1) cells (.ref c) v =
      ((assignWithin n cells held (cells.copy v)).1.set c (assignWithin n cells held (cells.copy v)).2, .ref c) := by
  rw [assignWithin, hget]

theorem assignBeside?_lost (hget : cells.get? c = none) :
    assignBeside? (n + 1) cells used (.ref c) v = (cells.copyBeside? used v).map fun _ => (cells, .ref c) := by
  rw [assignBeside?, hget, Option.map_eq_bind]
  rfl

/-- Changing through a reference that is not broken off finds nothing to change, or changes a cell not in use. -/
theorem modifyBeside?_cases (h : modifyBeside? f (n + 1) cells used (.ref c) = some r) :
    (cells.get? c = none ∧ r = (cells, .ref c)) ∨
      ∃ held inner, cells.get? c = some held ∧ c ∉ used ∧ modifyBeside? f n cells (c :: used) held = some inner ∧
        r = (inner.1.set c inner.2, .ref c) := by
  cases hget : cells.get? c with
  | none =>
    rw [modifyBeside?_lost hget] at h
    exact .inl ⟨rfl, (Option.some.inj h).symm⟩
  | some held =>
    rw [modifyBeside?_next hget, Option.ite_none_left_eq_some, Option.map_eq_some_iff] at h
    obtain ⟨hc, inner, hinner, rfl⟩ := h
    exact .inr ⟨held, inner, rfl, hc, hinner, rfl⟩

/-- Assigning through a reference that is not broken off finds no cell, or assigns a copy to a cell not in use. -/
theorem assignBeside?_cases (h : assignBeside? (n + 1) cells used (.ref c) v = some r) :
    (cells.get? c = none ∧ r = (cells, .ref c)) ∨
      ∃ held inner, cells.get? c = some held ∧ c ∉ used ∧
        assignBeside? n cells (c :: used) held (cells.copy v) = some inner ∧ r = (inner.1.set c inner.2, .ref c) := by
  cases hget : cells.get? c with
  | none =>
    rw [assignBeside?_lost hget, Option.map_eq_some_iff] at h
    obtain ⟨_, -, rfl⟩ := h
    exact .inl ⟨rfl, rfl⟩
  | some held =>
    rw [assignBeside?_next hget, Option.bind_eq_some_iff] at h
    obtain ⟨taken, htaken, h⟩ := h
    rw [Option.ite_none_left_eq_some, Option.map_eq_some_iff] at h
    obtain ⟨hc, inner, hinner, rfl⟩ := h
    exact .inr ⟨held, inner, rfl, hc, copyBeside?_eq_some htaken ▸ hinner, rfl⟩

/-- Changing that is not broken off changes as if no cell were in use. -/
theorem modifyBeside?_eq (h : modifyBeside? f n cells used a = some r) : modifyWithin f n cells a = r := by
  induction n generalizing cells used a r with
  | zero => cases a <;> exact Option.some.inj h
  | succ n ih =>
    cases a with
    | value y => exact Option.some.inj h
    | ref c =>
      obtain ⟨hget, rfl⟩ | ⟨held, inner, hget, -, hinner, rfl⟩ := modifyBeside?_cases h
      · rw [modifyWithin, hget]
      · rw [modifyWithin_next hget, ih hinner]

/-- Assigning to a value takes over a copy, converted if the value keeps its type. -/
theorem assignBeside?_value_cases {y : Value} (h : assignBeside? n cells used (.value y) v = some r) :
    (y.keepsType = true ∧
        modifyBeside? (fun z => (z.convert y.type).1) cells.reach cells used (cells.copy v) = some r) ∨
      (y.keepsType = false ∧ r = (cells, cells.copy v)) := by
  rw [assignBeside?_value, Option.bind_eq_some_iff] at h
  obtain ⟨taken, htaken, h⟩ := h
  rw [← copyBeside?_eq_some htaken]
  split at h
  · exact .inl ⟨‹_›, h⟩
  · exact .inr ⟨eq_false_of_ne_true ‹_›, (Option.some.inj h).symm⟩

theorem assignBeside?_value_eq {y : Value} (h : assignBeside? n cells used (.value y) v = some r) :
    cells.replace y v = r := by
  obtain ⟨hkeeps, h⟩ | ⟨hkeeps, rfl⟩ := assignBeside?_value_cases h
  · rw [replace, if_pos hkeeps]
    exact modifyBeside?_eq h
  · simp [replace, hkeeps]

/-- Assigning that is not broken off assigns as if no cell were in use. -/
theorem assignBeside?_eq (h : assignBeside? n cells used a v = some r) : assignWithin n cells a v = r := by
  induction n generalizing cells used a v r with
  | zero =>
    cases a with
    | value y => exact assignBeside?_value_eq h
    | ref c => exact Option.some.inj h
  | succ n ih =>
    cases a with
    | value y => exact assignBeside?_value_eq h
    | ref c =>
      obtain ⟨hget, rfl⟩ | ⟨held, inner, hget, -, hinner, rfl⟩ := assignBeside?_cases h
      · rw [assignWithin, hget]
      · rw [assignWithin_next hget, ih hinner]

/-- Where assigning does not break off, it does what it does without looking at what is in use. -/
theorem assign_of_assign? (h : cells.assign? a v = some r) : cells.assign a v = r := assignBeside?_eq h

/-- Writing to a cell that is not in use keeps what cells in use hold. -/
theorem get?_set_used (hc : c ∉ used) (hd : d ∈ used) : (cells.set c a).get? d = cells.get? d :=
  get?_set_ne (ne_of_mem_of_not_mem hd hc).symm

theorem modifyBeside?_used (h : modifyBeside? f n cells used a = some r) : ∀ d ∈ used, r.1.get? d = cells.get? d := by
  induction n generalizing cells used a r with
  | zero =>
    intro d _
    cases a <;> cases h <;> rfl
  | succ n ih =>
    intro d hd
    cases a with
    | value y =>
      cases h
      rfl
    | ref c =>
      obtain ⟨-, rfl⟩ | ⟨held, inner, -, hc, hinner, rfl⟩ := modifyBeside?_cases h
      · rfl
      · rw [get?_set_used hc hd, ih hinner d (List.mem_cons_of_mem c hd)]

theorem modifyBeside?_ref (h : modifyBeside? f n cells used (.ref c) = some r) : r.2 = .ref c := by
  cases n with
  | zero =>
    cases h
    rfl
  | succ n => obtain ⟨-, rfl⟩ | ⟨held, inner, -, -, -, rfl⟩ := modifyBeside?_cases h <;> rfl

theorem assignBeside?_value_used {y : Value} (h : assignBeside? n cells used (.value y) v = some r) :
    ∀ d ∈ used, r.1.get? d = cells.get? d := by
  obtain ⟨-, h⟩ | ⟨-, rfl⟩ := assignBeside?_value_cases h
  · exact modifyBeside?_used h
  · exact fun _ _ => rfl

/-- Cells in use keep what they hold. -/
theorem assignBeside?_used (h : assignBeside? n cells used a v = some r) : ∀ d ∈ used, r.1.get? d = cells.get? d := by
  induction n generalizing cells used a v r with
  | zero =>
    cases a with
    | value y => exact assignBeside?_value_used h
    | ref c =>
      cases h
      exact fun _ _ => rfl
  | succ n ih =>
    intro d hd
    cases a with
    | value y => exact assignBeside?_value_used h d hd
    | ref c =>
      obtain ⟨-, rfl⟩ | ⟨held, inner, -, hc, hinner, rfl⟩ := assignBeside?_cases h
      · rfl
      · rw [get?_set_used hc hd, ih hinner d (List.mem_cons_of_mem c hd)]

/-! ## What a write comes to -/

/-- The cell at the end of a chain takes over an operand; without a chain the operand is taken over itself. -/
def settle (a : Operand) (cs : List Nat) (r : Cells × Operand) : Cells × Operand :=
  match cs.getLast? with
  | none => r
  | some c => (r.1.set c r.2, a)

theorem settle_next (hkept : (settle held cs r).1.get? c = some held) :
    ((settle held cs r).1.set c (settle held cs r).2, .ref c) = settle (.ref c) (c :: cs) r := by
  cases cs with
  | nil => rfl
  | cons d ds =>
    obtain ⟨e, he⟩ : ∃ e, (d :: ds).getLast? = some e := ⟨_, List.getLast?_eq_some_getLast (List.cons_ne_nil d ds)⟩
    simp only [settle, List.getLast?_cons_cons, he] at hkept ⊢
    rw [set_get? hkept]

namespace Leads

theorem modifyBeside?_gone (h : cells.Leads a cs none) (hr : modifyBeside? f n cells used a = some r) :
    r = (cells, a) := by
  generalize hw : (none : Option Value) = w at h
  induction h generalizing n used r with
  | value y => cases hw
  | lost hget =>
    rw [modifyBeside?_lost hget] at hr
    exact (Option.some.inj hr).symm
  | @next c held cs w hget hleads ih =>
    cases n with
    | zero => exact (Option.some.inj hr).symm
    | succ n =>
      obtain ⟨-, rfl⟩ | ⟨held', inner, hget', -, hinner, rfl⟩ := modifyBeside?_cases hr
      · rfl
      · obtain rfl := Option.some.inj (hget.symm.trans hget')
        rw [ih hinner hw, set_get? hget]

theorem modifyBeside?_live {y : Value} (h : cells.Leads a cs (some y)) (hn : cs.length ≤ n)
    (hr : modifyBeside? f n cells used a = some r) : r = settle a cs (cells, .value (f y)) := by
  generalize hw : some y = w at h
  induction h generalizing n used r with
  | value z =>
    cases hw
    cases n <;> exact (Option.some.inj hr).symm
  | lost hget => cases hw
  | @next c held cs w hget hleads ih =>
    obtain ⟨n, rfl⟩ := Nat.exists_eq_add_of_le' hn
    obtain ⟨hlost, -⟩ | ⟨held', inner, hget', -, hinner, rfl⟩ := modifyBeside?_cases hr
    · cases hlost.symm.trans hget
    · obtain rfl := Option.some.inj (hget.symm.trans hget')
      have hkept := modifyBeside?_used hinner c List.mem_cons_self
      have hinner := ih (Nat.le_add_left ..) hinner hw
      subst hinner
      exact settle_next (hkept.trans hget)

theorem assignBeside?_gone (h : cells.Leads a cs none) (hr : assignBeside? n cells used a v = some r) :
    r = (cells, a) := by
  generalize hw : (none : Option Value) = w at h
  induction h generalizing n used v r with
  | value y => cases hw
  | lost hget =>
    cases n with
    | zero => exact (Option.some.inj hr).symm
    | succ n =>
      obtain ⟨-, rfl⟩ | ⟨held, inner, hget', -⟩ := assignBeside?_cases hr
      · rfl
      · cases hget.symm.trans hget'
  | @next c held cs w hget hleads ih =>
    cases n with
    | zero => exact (Option.some.inj hr).symm
    | succ n =>
      obtain ⟨-, rfl⟩ | ⟨held', inner, hget', -, hinner, rfl⟩ := assignBeside?_cases hr
      · rfl
      · obtain rfl := Option.some.inj (hget.symm.trans hget')
        rw [ih hinner hw, set_get? hget]

/-- What arrives at the end of a chain was copied once for each of its cells. -/
theorem assignBeside?_live {y : Value} (h : cells.Leads a cs (some y)) (hn : cs.length ≤ n)
    (hr : assignBeside? n cells used a v = some r) :
    ∃ m inner, assignBeside? m cells (cs.reverse ++ used) (.value y) (cells.copy^[cs.length] v) = some inner ∧
      r = settle a cs inner := by
  generalize hw : some y = w at h
  induction h generalizing n used v r with
  | value z =>
    cases hw
    exact ⟨n, r, hr, rfl⟩
  | lost hget => cases hw
  | @next c held cs w hget hleads ih =>
    obtain ⟨n, rfl⟩ := Nat.exists_eq_add_of_le' hn
    obtain ⟨hlost, -⟩ | ⟨held', inner, hget', -, hinner, rfl⟩ := assignBeside?_cases hr
    · cases hlost.symm.trans hget
    · obtain rfl := Option.some.inj (hget.symm.trans hget')
      have hkept := assignBeside?_used hinner c List.mem_cons_self
      obtain ⟨m, last, hlast, rfl⟩ := ih (Nat.le_add_left ..) hinner hw
      refine ⟨m, last, ?_, settle_next (hkept.trans hget)⟩
      simpa using hlast

end Leads

/-! ## Coming back to a cell in use -/

/-- Some cell of a list, by its place: the first one or one of the others. -/
theorem exists_getElem?_iff {p : Nat → Nat → Prop} :
    (∃ j c, ds[j]? = some c ∧ p j c) ↔ (∃ c, ds[0]? = some c ∧ p 0 c) ∨ ∃ j c, ds.tail[j]? = some c ∧ p (j + 1) c := by
  simp only [List.getElem?_tail]
  constructor
  · rintro ⟨j, c, hc, hp⟩
    cases j with
    | zero => exact .inl ⟨c, hc, hp⟩
    | succ j => exact .inr ⟨j, c, hc, hp⟩
  · rintro (⟨c, hc, hp⟩ | ⟨j, c, hc, hp⟩)
    · exact ⟨0, c, hc, hp⟩
    · exact ⟨j + 1, c, hc, hp⟩

theorem exists_mem_iff_getElem? {p : Nat → Prop} : (∃ c ∈ ds, p c) ↔ ∃ (j c : Nat), ds[j]? = some c ∧ p c := by
  simp only [List.mem_iff_getElem?, ← exists_and_right]
  exact exists_comm

theorem copyBeside?_bind {g : Operand → Option (Cells × Operand)} :
    (cells.copyBeside? used v).bind g = none ↔ cells.copyBeside? used v = none ∨ g (cells.copy v) = none := by
  cases h : cells.copyBeside? used v with
  | none => simp
  | some taken => simp [copyBeside?_eq_some h]

namespace Leads

theorem modifyBeside?_eq_none (h : cells.Leads a cs w) (hnodup : cs.Nodup) (hn : cs.length ≤ n) :
    modifyBeside? f n cells used a = none ↔ ∃ c ∈ cs, c ∈ used := by
  induction h generalizing n used with
  | value y => cases n <;> simp [modifyBeside?]
  | lost hget => simp [modifyBeside?_lost hget]
  | @next c held cs w hget hleads ih =>
    cases n with
    | zero => exact absurd hn (Nat.not_succ_le_zero _)
    | succ n =>
      obtain ⟨hc, hnodup⟩ := List.nodup_cons.mp hnodup
      have hrest : (∃ d ∈ cs, d ∈ c :: used) ↔ ∃ d ∈ cs, d ∈ used := by
        refine exists_congr fun d => and_congr_right fun hd => ?_
        rw [List.mem_cons, or_iff_right (ne_of_mem_of_not_mem hd hc)]
      rw [modifyBeside?_next hget, List.exists_mem_cons_iff, ← hrest, ← ih hnodup (Nat.le_of_succ_le_succ hn)]
      by_cases hused : c ∈ used <;> simp [hused]

/-- Assigning breaks off iff a cell of the incoming chain is in use when it is read, or when what is left of the chain
is converted. -/
theorem assignBeside?_eq_none (ha : cells.Leads a cs w) (hv : cells.Leads v ds x) (hds : ds.Nodup)
    (hreach : ds.length ≤ cells.reach) (hn : cs.length < n) (hfree : ∀ c ∈ cs, c ∉ used) (hcs : cs.Nodup)
    (hlive : ∀ c ∈ used, (cells.get? c).isSome = true) :
    assignBeside? n cells used a v = none ↔
      ∃ j c, ds[j]? = some c ∧ (j ≤ cs.length ∨ ∃ y, w = some y ∧ y.keepsType = true) ∧
        (c ∈ used ∨ ∃ i < j, cs[i]? = some c) := by
  induction ha generalizing n used v ds x with
  | value y =>
    obtain ⟨x', hv'⟩ := hv.copy
    have htail : ds.tail.Nodup := hds.sublist (List.tail_sublist ds)
    have hshort : ds.tail.length ≤ cells.reach := (List.tail_sublist ds).length_le.trans hreach
    rw [assignBeside?_value, copyBeside?_bind, hv.copyBeside?_eq_none hlive, exists_getElem?_iff]
    by_cases hkeeps : y.keepsType = true
    · rw [if_pos hkeeps, hv'.modifyBeside?_eq_none htail hshort, exists_mem_iff_getElem?]
      simp [hkeeps]
    · simp [hkeeps]
  | @lost c hget =>
    cases n with
    | zero => exact absurd hn (Nat.not_lt_zero _)
    | succ n =>
      rw [assignBeside?_lost hget, Option.map_eq_none_iff, hv.copyBeside?_eq_none hlive, exists_getElem?_iff]
      simp
  | @next c held cs w hget hleads ih =>
    cases n with
    | zero => exact absurd hn (Nat.not_lt_zero _)
    | succ n =>
      obtain ⟨x', hv'⟩ := hv.copy
      obtain ⟨hc, hcs⟩ := List.nodup_cons.mp hcs
      obtain ⟨hunused, hfree⟩ := List.forall_mem_cons.mp hfree
      have htail : ds.tail.Nodup := hds.sublist (List.tail_sublist ds)
      have hshort : ds.tail.length ≤ cells.reach := (List.tail_sublist ds).length_le.trans hreach
      have hfree : ∀ d ∈ cs, d ∉ c :: used := fun d hd =>
        List.not_mem_cons_of_ne_of_not_mem (ne_of_mem_of_not_mem hd hc) (hfree d hd)
      have hused : ∀ d ∈ c :: used, (cells.get? d).isSome = true :=
        List.forall_mem_cons.mpr ⟨by rw [hget, Option.isSome_some], hlive⟩
      have hpassed : ∀ j e, (e ∈ used ∨ ∃ i < j + 1, (c :: cs)[i]? = some e) ↔
          (e ∈ c :: used ∨ ∃ i < j, cs[i]? = some e) := by
        intro j e
        rw [Nat.exists_lt_succ_left, List.getElem?_cons_zero, Option.some_inj, List.mem_cons, eq_comm, ← or_assoc,
          or_comm (a := e ∈ used)]
        simp only [List.getElem?_cons_succ]
      rw [assignBeside?_next hget, copyBeside?_bind, hv.copyBeside?_eq_none hlive, exists_getElem?_iff, if_neg hunused,
        Option.map_eq_none_iff, ih hv' htail hshort (Nat.lt_of_succ_lt_succ hn) hfree hcs hused]
      simp only [hpassed, List.length_cons, Nat.add_le_add_iff_right, Nat.zero_le, true_or, true_and, Nat.not_lt_zero,
        false_and, exists_false, or_false]

end Leads

/-! ## Assigning -/

/-- The cell that assigning through an operand is to write; there is none for a value or behind a dangling reference. -/
def place? (cells : Cells) (a : Operand) : Option Nat :=
  if (cells.target? a).isSome then (cells.chain a).getLast? else none

/-- Assigning wrote one place only: where the operand leads, or the operand itself if it was no reference. -/
structure WroteOnePlace (cells : Cells) (a : Operand) (r : Cells × Operand) : Prop where
  reference : a.isRef = true → r.2 = a
  value : a.isRef = false → r.2.isRef = false
  others : ∀ c, cells.place? a ≠ some c → r.1.get? c = cells.get? c

/-- The incoming chain comes back to a cell that is written through before it is read, be it to copy it or to convert
what is left of it. -/
def Clashes (cells : Cells) (a v : Operand) : Prop :=
  ∃ j c, (cells.chain v)[j]? = some c ∧
    (j ≤ (cells.chain a).length ∨ ∃ y, cells.target? a = some y ∧ y.keepsType = true) ∧
      ∃ i < j, (cells.chain a)[i]? = some c

/-- Converting what is assigned to the type that the receiver keeps changes nothing. -/
def Suits (cells : Cells) (a v : Operand) : Prop :=
  ∀ y z, cells.target? a = some y → y.keepsType = true → cells.target? v = some z → (z.convert y.type).1 = z

theorem assign?_eq_none (h : cells.Acyclic) (a v : Operand) : cells.assign? a v = none ↔ cells.Clashes a v := by
  have ha := h.leads_chain a
  have hv := h.leads_chain v
  have hclash : assignBeside? cells.reach cells [] a v = none ↔ _ :=
    ha.assignBeside?_eq_none hv (hv.nodup h) (h.length_chain_lt v).le (h.length_chain_lt a) (by simp) (ha.nodup h)
      (by simp)
  simpa [assign?, Clashes] using hclash

/-- The last cell of a chain holds the value. -/
theorem Leads.get?_getLast {y : Value} (h : cells.Leads a cs (some y)) (hc : cs.getLast? = some c) :
    cells.get? c = some (.value y) := by
  generalize hw : some y = w at h
  induction h with
  | value z => cases hc
  | lost hget => cases hw
  | @next d held cs w hget hleads ih =>
    cases hleads with
    | value z =>
      cases hw
      cases hc
      exact hget
    | lost hlost => cases hw
    | next hget' hleads' =>
      rw [List.getLast?_cons_cons] at hc
      exact ih hc hw

theorem wroteOnePlace_settle {y : Value} (h : cells.Acyclic) (hy : cells.target? a = some y) :
    cells.WroteOnePlace a (settle a (cells.chain a) r) ↔
      (a.isRef = true ∨ r.2.isRef = false) ∧ ∀ c, (cells.chain a).getLast? ≠ some c → r.1.get? c = cells.get? c := by
  have ha := h.leads_chain a
  have hplace : cells.place? a = (cells.chain a).getLast? := by simp [place?, hy]
  rw [hy] at ha
  generalize cells.chain a = cs at ha hplace
  cases ha with
  | value z =>
    constructor
    · intro hone
      refine ⟨.inr (hone.value rfl), fun c hc => hone.others c ?_⟩
      rwa [hplace]
    · rintro ⟨hvalue, hothers⟩
      exact ⟨fun href => absurd href Bool.false_ne_true, fun _ => hvalue.resolve_left Bool.false_ne_true,
        fun c hc => hothers c (hplace ▸ hc)⟩
  | @next d held cs w hget hleads =>
    obtain ⟨e, he⟩ : ∃ e, (d :: cs).getLast? = some e := ⟨_, List.getLast?_eq_some_getLast (List.cons_ne_nil d cs)⟩
    have hsettle : settle (.ref d) (d :: cs) r = (r.1.set e r.2, .ref d) := by
      simp only [settle, he]
    have hbeside : ∀ c, (d :: cs).getLast? ≠ some c → (r.1.set e r.2).get? c = r.1.get? c := by
      intro c hc
      exact get?_set_ne fun hec => hc (he.trans (congrArg some hec))
    rw [hsettle]
    constructor
    · intro hone
      refine ⟨.inl rfl, fun c hc => ?_⟩
      rw [← hbeside c hc]
      exact hone.others c (hplace ▸ hc)
    · rintro ⟨-, hothers⟩
      refine ⟨fun _ => rfl, fun href => absurd href (Bool.noConfusion), fun c hc => ?_⟩
      rw [hplace] at hc
      exact (hbeside c hc).trans (hothers c hc)

/-- Changing behind a reference leaves the store as it was iff it leaves the value. -/
theorem Leads.modifyBeside?_unchanged_iff {z : Value} (h : cells.Leads a cs (some z)) (href : a.isRef = true)
    (hn : cs.length ≤ n) (hr : modifyBeside? f n cells used a = some r) :
    (∀ c, r.1.get? c = cells.get? c) ↔ f z = z := by
  have hne : cs ≠ [] := by
    rintro rfl
    rw [h.isRef_of_nil] at href
    exact Bool.false_ne_true href
  have hlast : cs.getLast? = some (cs.getLast hne) := List.getLast?_eq_some_getLast hne
  have hget := h.get?_getLast hlast
  rw [h.modifyBeside?_live hn hr]
  simp only [settle, hlast]
  constructor
  · intro hall
    have hsame := hall (cs.getLast hne)
    rw [get?_set_self (lt_of_get? hget), hget] at hsame
    exact Operand.value.inj (Option.some.inj hsame)
  · intro hfix c
    rw [hfix, set_get? hget]

/-- A reference that arrives at a value takes its place, and the rest of the store stays as it was unless the value
keeps a type that the reference has to be converted to. -/
theorem Leads.arrives {y : Value} (h : cells.Leads (cells.copy v) ds x) (href : (cells.copy v).isRef = true)
    (hreach : ds.length ≤ cells.reach) (hr : assignBeside? n cells used (.value y) v = some r) :
    r.2.isRef = true ∧
      ((∀ c, r.1.get? c = cells.get? c) ↔ ∀ z, y.keepsType = true → x = some z → (z.convert y.type).1 = z) := by
  obtain ⟨hkeeps, hr⟩ | ⟨hkeeps, rfl⟩ := assignBeside?_value_cases hr
  · generalize cells.copy v = taken at h href hr
    cases taken with
    | value z => exact absurd href Bool.false_ne_true
    | ref c =>
      refine ⟨congrArg Operand.isRef (modifyBeside?_ref hr), ?_⟩
      cases x with
      | none =>
        rw [h.modifyBeside?_gone hr]
        simp
      | some z =>
        rw [h.modifyBeside?_unchanged_iff href hreach hr]
        simp [hkeeps]
  · simp [href, hkeeps]

/-- A value that arrives at a value takes its place, perhaps converted, and the rest of the store stays as it was. -/
theorem arrives_value {y z : Value} (hcopy : cells.copy v = .value z)
    (hr : assignBeside? n cells used (.value y) v = some r) : r.2.isRef = false ∧ r.1 = cells := by
  rw [← assignBeside?_value_eq hr, replace, hcopy]
  split <;> exact ⟨rfl, rfl⟩

/-- Assigning that is not broken off writes one place only iff the incoming chain ends with the copies, or nothing is
written, or what is left of the chain is taken over behind a reference and need not be converted. -/
theorem wroteOnePlace_iff (h : cells.Acyclic) (hr : cells.assign? a v = some r) :
    cells.WroteOnePlace a r ↔
      cells.depth v ≤ cells.depth a + 1 ∨ cells.target? a = none ∨ a.isRef = true ∧ cells.Suits a v := by
  have ha := h.leads_chain a
  have hv := h.leads_chain v
  cases hy : cells.target? a with
  | none =>
    rw [hy] at ha
    have href := ha.isRef_of_none
    rw [ha.assignBeside?_gone hr]
    refine iff_of_true ⟨fun _ => rfl, fun hvalue => ?_, fun _ _ => rfl⟩ (.inr (.inl rfl))
    exact absurd (hvalue.symm.trans href) Bool.false_ne_true
  | some y =>
    rw [hy] at ha
    obtain ⟨m, inner, hinner, rfl⟩ := ha.assignBeside?_live (h.length_chain_lt a).le hr
    have hstep : cells.copy (cells.copy^[(cells.chain a).length] v) = cells.copy^[(cells.chain a).length + 1] v :=
      (Function.iterate_succ_apply' ..).symm
    have hdepth : cells.depth a + 1 = (cells.chain a).length + 1 := by simp [depth, hy]
    -- the last cell of the chain is in use while the value is written
    have hothers : (∀ c, (cells.chain a).getLast? ≠ some c → inner.1.get? c = cells.get? c) ↔
        ∀ c, inner.1.get? c = cells.get? c := by
      refine ⟨fun hall c => ?_, fun hall c _ => hall c⟩
      by_cases hc : (cells.chain a).getLast? = some c
      · refine assignBeside?_value_used hinner c ?_
        simpa using List.mem_of_getLast? hc
      · exact hall c hc
    rw [wroteOnePlace_settle h hy, hothers, hdepth]
    obtain ⟨hbelow, habove⟩ := hv.copies ((cells.chain a).length + 1)
    by_cases hlong : (cells.chain a).length + 1 < cells.depth v
    · obtain ⟨href, hleads⟩ := hbelow hlong
      rw [← hstep] at href hleads
      have hreach : ((cells.chain v).drop ((cells.chain a).length + 1)).length ≤ cells.reach :=
        (List.drop_sublist ..).length_le.trans (h.length_chain_lt v).le
      obtain ⟨htaken, hsame⟩ := hleads.arrives href hreach hinner
      have hsuits : cells.Suits a v ↔
          ∀ z, y.keepsType = true → cells.target? v = some z → (z.convert y.type).1 = z := by
        refine ⟨fun hall z => hall y z hy, fun hall y' z hy' => ?_⟩
        obtain rfl := Option.some.inj (hy.symm.trans hy')
        exact hall z
      rw [hsame, ← hsuits]
      simp [htaken, not_le.mpr hlong]
    · obtain ⟨z, hz⟩ := habove (not_lt.mp hlong)
      obtain ⟨htaken, hsame⟩ := arrives_value (hstep.trans hz) hinner
      rw [hsame]
      exact iff_of_true ⟨.inr htaken, fun _ => rfl⟩ (.inl (not_lt.mp hlong))

/-- In a store without cycles a copy is a value iff it was copied from a value, from a reference to one or from a
dangling reference. Assigning breaks off iff the incoming chain comes back to a cell that is written through, and it
writes one place only under the conditions that `wroteOnePlace_iff` gives. -/
theorem references_followed_iff (h : cells.Acyclic) (a v : Operand) :
    ((cells.copy v).isRef = false ↔ cells.depth v ≤ 1) ∧
      (cells.assign? a v = none ↔ cells.Clashes a v) ∧
      ((∃ r, cells.assign? a v = some r ∧ cells.WroteOnePlace a r) ↔
        ¬cells.Clashes a v ∧
          (cells.depth v ≤ cells.depth a + 1 ∨ cells.target? a = none ∨ a.isRef = true ∧ cells.Suits a v)) := by
  refine ⟨?_, assign?_eq_none h a v, ?_⟩
  · rw [← not_lt, ← h.isRef_copies v 1, Bool.not_eq_true]
    rfl
  · rw [← assign?_eq_none h a v]
    cases hr : cells.assign? a v with
    | none => simp
    | some r => simp [wroteOnePlace_iff h hr]

/-- An integer and a reference to it. -/
def referredInteger : Cells := ⟨[some (.value (.int 5)), some (.ref 0)]⟩

theorem referredInteger_acyclic : referredInteger.Acyclic := by
  apply acyclic_of_lt
  intro c d h
  match c with
  | 0 => cases h
  | 1 =>
    cases h
    exact Nat.zero_lt_one
  | c + 2 => simp [Refers, referredInteger, get?] at h

/-- The copy of a reference to a reference is a reference, and assigned to what holds nothing it arrives as one. -/
theorem reference_to_reference_copied :
    (referredInteger.copy (.ref 1)).isRef = true ∧ ¬referredInteger.Clashes (.value .undefined) (.ref 1) ∧
      ¬∃ r, referredInteger.assign? (.value .undefined) (.ref 1) = some r ∧
        referredInteger.WroteOnePlace (.value .undefined) r := by
  obtain ⟨-, hbreaks, hone⟩ := references_followed_iff referredInteger_acyclic (.value .undefined) (.ref 1)
  have hdepth : referredInteger.depth (.ref 1) = 2 ∧ referredInteger.depth (.value .undefined) = 0 := ⟨rfl, rfl⟩
  refine ⟨rfl, fun hclash => ?_, ?_⟩
  · cases hbreaks.mpr hclash
  · rw [hone, hdepth.1, hdepth.2]
    rintro ⟨-, hshort | hlost | ⟨href, -⟩⟩
    · exact absurd hshort (by decide)
    · cases hlost
    · cases href

end HostScript.Cells
