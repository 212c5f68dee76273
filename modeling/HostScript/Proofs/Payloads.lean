import HostScript.Proofs.Fields
import HostScript.Proofs.References
import HostScript.Proofs.Streams
/-!
# Payloads within their limit

What is computed from values within the limit is within the limit, and has the type of the left operand unless this
is missing. A text that would get too long is cut, at the last place between characters that fits; nothing else makes
a text or blob longer than what it was made from.
-/

set_option autoImplicit false

namespace HostScript

open HostScript.Text

namespace Text

variable {limit : Nat} {s t : String} {cs ds : List Char}

/-! ## Cut texts -/

/-- Whether `t` is what is left of `s` when it is cut at the last place between characters that fits. -/
structure IsCut (limit : Nat) (s t : String) : Prop where
  isPrefix : t.toList <+: s.toList
  fits : t.utf8ByteSize ≤ limit
  longest : ∀ u : String, u.toList <+: s.toList → u.utf8ByteSize ≤ limit → u.toList <+: t.toList

/-- Of the characters at the front, no more fit than those that are kept. -/
theorem isPrefix_fitChars_of_le (h : ds <+: cs) (hle : (bytes ds).length ≤ limit) : ds <+: fitChars limit cs := by
  fun_induction fitChars limit cs generalizing ds with
  | case1 => exact h
  | case2 limit c cs hc ih =>
    cases ds with
    | nil => exact List.nil_prefix
    | cons d ds =>
      obtain ⟨rfl, hds⟩ := List.cons_prefix_cons.mp h
      rw [bytes_cons, List.length_append, String.length_utf8EncodeChar] at hle
      exact (List.prefix_cons_inj d).mpr (ih hds (by omega))
  | case3 limit c cs hc =>
    cases ds with
    | nil => exact List.nil_prefix
    | cons d ds =>
      obtain ⟨rfl, -⟩ := List.cons_prefix_cons.mp h
      rw [bytes_cons, List.length_append, String.length_utf8EncodeChar] at hle
      omega

theorem isCut_fit (limit : Nat) (s : String) : IsCut limit s (fit limit s) := by
  refine ⟨isPrefix_fit limit s, utf8ByteSize_fit_le limit s, fun u hu hle => ?_⟩
  unfold fit
  split
  · exact hu
  · rw [String.toList_ofList]
    exact isPrefix_fitChars_of_le hu (by rwa [← utf8ByteSize_eq])

end Text

/-! ## Values made and converted -/

namespace Value

variable {v a b : Value}

/-- Whether the payload of a value is within the limit. -/
def WithinLimit (v : Value) : Prop := v.payloadSize ≤ payloadLimit

theorem withinLimit_ofString (s : String) : (ofString s).WithinLimit := utf8ByteSize_fit_le payloadLimit s

theorem withinLimit_ofBytes (bytes : List UInt8) : (ofBytes bytes).WithinLimit := List.length_take_le _ _

theorem withinLimit_ofCustom (bytes : List UInt8) : (ofCustom bytes).WithinLimit := List.length_take_le _ _

theorem WithinLimit.convert (h : v.WithinLimit) (ty : ValueType) : (v.convert ty).1.WithinLimit := by
  unfold Value.convert
  split
  · exact h
  split
  · exact h
  cases ty with
  | string => exact withinLimit_ofString _
  | binary => exact withinLimit_ofBytes _
  | custom => exact withinLimit_ofCustom _
  | _ => exact Nat.zero_le _

/-- A value that is not a text already is one after the conversion, cut to the limit. -/
theorem convert_string (h : v.type ≠ .string) (hv : v.type ≠ .invalid) : (v.convert .string).1 = ofString v.text := by
  simp [Value.convert, h, hv]

/-- What is read from a stream is within the limit, whatever the stream is. -/
theorem withinLimit_ofStream {s : String} (h : ofStream? s = some v) : v.WithinLimit := by
  simp only [ofStream?, Option.bind_eq_bind, Option.bind_eq_some_iff] at h
  obtain ⟨inner, -, ⟨name, rest⟩, -, content, -, h⟩ := h
  split at h <;> obtain rfl := Option.some.inj h
  · exact Nat.zero_le _
  · exact withinLimit_ofString _
  · exact (withinLimit_ofString _).convert _

end Value

/-! ## Copies -/

namespace Cells

variable {cells : Cells} {a held : Operand} {c n : Nat} {cs : List Nat} {w : Option Value} {v : Value}

/-- Each cell on a chain leads along the rest of it. -/
theorem Leads.of_mem (h : cells.Leads a cs w) (hc : c ∈ cs) : ∃ ds, cells.Leads (.ref c) ds w ∧ ds <:+ cs := by
  induction h with
  | value v => exact absurd hc List.not_mem_nil
  | lost hget => exact absurd hc List.not_mem_nil
  | @next d held cs w hget hleads ih =>
    rcases List.mem_cons.mp hc with rfl | hc
    · exact ⟨_, .next hget hleads, List.suffix_rfl⟩
    · obtain ⟨ds, hds, hsuffix⟩ := ih hc
      exact ⟨ds, hds, hsuffix.trans (List.suffix_cons _ _)⟩

theorem Leads.unique {ds : List Nat} {x : Option Value} (h : cells.Leads a cs w) (h' : cells.Leads a ds x) :
    cs = ds := by
  induction h generalizing ds with
  | value v => cases h' ; rfl
  | lost hget =>
    cases h' with
    | lost => rfl
    | next hget' => rw [hget] at hget'; cases hget'
  | next hget _ ih =>
    cases h' with
    | lost hget' => rw [hget] at hget'; cases hget'
    | next hget' hleads' =>
      rw [hget] at hget'
      cases hget'
      rw [ih hleads']

/-- A chain that ends passes no cell twice, as it would go round from there. -/
theorem Leads.nodup_of_ends (h : cells.Leads a cs w) : cs.Nodup := by
  induction h with
  | value v => exact .nil
  | lost hget => exact .nil
  | next hget hleads ih =>
    refine List.nodup_cons.mpr ⟨fun hmem => ?_, ih⟩
    obtain ⟨ds, hds, hsuffix⟩ := hleads.of_mem hmem
    have hlen := hsuffix.length_le
    rw [← (Leads.next hget hleads).unique hds, List.length_cons] at hlen
    omega

theorem Leads.length_le_of_ends (h : cells.Leads a cs w) : cs.length ≤ cells.contents.length := by
  have hsubset : cs ⊆ List.range cells.contents.length := fun c hc => List.mem_range.mpr (h.lt_length c hc)
  simpa using (List.subperm_of_subset h.nodup_of_ends hsubset).length_le

/-- A value is found at the end of a chain. -/
theorem leads_of_targetWithin (h : cells.targetWithin n a = some v) : ∃ cs, cells.Leads a cs (some v) := by
  induction n generalizing a with
  | zero =>
    cases a with
    | value w =>
      cases h
      exact ⟨[], .value _⟩
    | ref c => cases h
  | succ n ih =>
    cases a with
    | value w =>
      cases h
      exact ⟨[], .value _⟩
    | ref c =>
      obtain ⟨held, hget, hheld⟩ := Option.bind_eq_some_iff.mp h
      obtain ⟨cs, hleads⟩ := ih hheld
      exact ⟨c :: cs, .next hget hleads⟩

/-- What a value is found in by any number of steps. -/
theorem target?_eq_some_iff : cells.target? a = some v ↔ ∃ cs, cells.Leads a cs (some v) := by
  refine ⟨leads_of_targetWithin, fun ⟨cs, hleads⟩ => ?_⟩
  exact hleads.targetWithin_eq (hleads.length_le_of_ends.trans (Nat.le_succ _))

/-- A copy stands for the same value. -/
theorem resolve_copy (cells : Cells) (a : Operand) : cells.resolve (cells.copy a) = cells.resolve a := by
  match a with
  | .value v => rfl
  | .ref c =>
    match hget : cells.get? c with
    | none =>
      have htarget : cells.target? (.ref c) = none := by rw [target?, reach, targetWithin, hget, Option.bind_none]
      rw [copy, hget, resolve, resolve, htarget]
      rfl
    | some held =>
      have htarget : cells.target? held = cells.target? (.ref c) := by
        refine Option.ext fun v => ?_
        rw [target?_eq_some_iff, target?_eq_some_iff]
        constructor
        · rintro ⟨cs, hleads⟩
          exact ⟨c :: cs, .next hget hleads⟩
        · rintro ⟨_, ⟨⟩ | ⟨⟩ | ⟨hget', hleads⟩⟩
          rw [hget] at hget'
          cases hget'
          exact ⟨_, hleads⟩
      rw [copy, hget, Option.getD_some, resolve, resolve, htarget]

/-! ## Cells within the limit -/

/-- Whether all values in cells are within the limit. -/
def WithinLimit (cells : Cells) : Prop := ∀ c v, cells.get? c = some (.value v) → v.WithinLimit

/-- The same of a cell's content: what a reference leads to is in cells. -/
def ContentWithinLimit (a : Operand) : Prop := ∀ v, a = .value v → v.WithinLimit

theorem WithinLimit.content (h : cells.WithinLimit) (hget : cells.get? c = some held) : ContentWithinLimit held :=
  fun v hv => h c v (hv ▸ hget)

theorem WithinLimit.set (h : cells.WithinLimit) (ha : ContentWithinLimit a) (c : Nat) :
    (cells.set c a).WithinLimit := by
  intro d v hget
  by_cases hd : c = d
  · subst hd
    have hlt := lt_of_get? hget
    rw [Cells.set, List.length_set] at hlt
    rw [get?_set_self hlt] at hget
    exact ha v (Option.some.inj hget)
  · exact h d v (by rwa [get?_set_ne hd] at hget)

theorem contentWithinLimit_ref (c : Nat) : ContentWithinLimit (.ref c) := fun _ h => nomatch h

/-- Changing what an operand stands for keeps the limit if the change does. -/
theorem WithinLimit.modifyWithin {f : Value → Value} (hf : ∀ v, v.WithinLimit → (f v).WithinLimit)
    (h : cells.WithinLimit) (ha : ContentWithinLimit a) :
    (modifyWithin f n cells a).1.WithinLimit ∧ ContentWithinLimit (Cells.modifyWithin f n cells a).2 := by
  induction n generalizing cells a with
  | zero =>
    cases a with
    | value v => exact ⟨h, fun w hw => by cases hw; exact hf v (ha v rfl)⟩
    | ref c => exact ⟨h, ha⟩
  | succ n ih =>
    cases a with
    | value v => exact ⟨h, fun w hw => by cases hw; exact hf v (ha v rfl)⟩
    | ref c =>
      rw [Cells.modifyWithin]
      split
      · exact ⟨h, contentWithinLimit_ref c⟩
      · rename_i held hget
        obtain ⟨hcells, hheld⟩ := ih h (h.content hget)
        exact ⟨hcells.set hheld c, contentWithinLimit_ref c⟩

/-- Converting keeps the limit, also where it changes a cell. -/
theorem WithinLimit.setType (h : cells.WithinLimit) (ha : ContentWithinLimit a) (ty : ValueType) :
    (cells.setType a ty).1.WithinLimit ∧ ContentWithinLimit (cells.setType a ty).2 :=
  h.modifyWithin (fun _ hv => hv.convert ty) ha

end Cells

/-! ## Arithmetic -/

/-- The arithmetic operators. -/
inductive Arithmetic where
  | add
  | sub
  | mul
  | div
  | mod
deriving Repr, DecidableEq

namespace Arithmetic

variable {a b : Value} {cells : Cells}

/-- The operator on values. -/
def onValues : Arithmetic → Value → Value → Value
  | .add => Value.add
  | .sub => Value.sub
  | .mul => Value.mul
  | .div => Value.div
  | .mod => Value.mod

/-- The operator on operands. -/
def onOperands (op : Arithmetic) (cells : Cells) (a b : Operand) : Operand :=
  match op with
  | .add => cells.add a b
  | op => cells.apply op.onValues a b

/-- The left operand gives its type to the result. -/
theorem onValues_type (op : Arithmetic) (h : a.keepsType = true) (b : Value) : (op.onValues a b).type = a.type := by
  cases op <;> cases a <;> first | rfl | exact absurd h (by decide)

/-- A result is one of the operands, a number, or a text that was cut. -/
theorem onValues_withinLimit (op : Arithmetic) (ha : a.WithinLimit) (hb : b.WithinLimit) :
    (op.onValues a b).WithinLimit := by
  cases op with
  | add =>
    cases a with
    | invalid | undefined => exact hb
    | int n | float x => exact Nat.zero_le _
    | str s => exact Value.withinLimit_ofString _
    | binary bytes | custom bytes => exact ha
  | sub | mul | div | mod => cases a <;> exact ha

/-- What an operator makes of a value: a value within the limit that has the type of the left operand, unless this is
missing. -/
structure Yields (cells : Cells) (a : Value) (r : Operand) : Prop where
  withinLimit : (cells.resolve r).WithinLimit
  type_eq : a.keepsType = true → (cells.resolve r).type = a.type

theorem add_eq (cells : Cells) (a : Value) (b : Operand) :
    cells.resolve (cells.add (.value a) b) = a.add (cells.resolve b) := by
  have ha : cells.resolve (.value a) = a := rfl
  rw [Cells.add, Cells.apply, ha]
  split
  · rfl
  · rename_i hkeeps
    rw [Cells.resolve_copy]
    cases a <;> first | rfl | exact absurd rfl hkeeps

/-- On operands an operator does what it does on the values they stand for. -/
theorem resolve_onOperands (op : Arithmetic) (cells : Cells) (a : Value) (b : Operand) :
    cells.resolve (op.onOperands cells (.value a) b) = op.onValues a (cells.resolve b) := by
  cases op with
  | add => exact add_eq cells a b
  | sub | mul | div | mod => rfl

/-- A result that is no value is the copy of a right operand whose left one is missing. -/
theorem onOperands_eq_value (op : Arithmetic) (h : a.keepsType = true) (cells : Cells) (b : Operand) :
    op.onOperands cells (.value a) b = .value (op.onValues a (cells.resolve b)) := by
  cases op with
  | add => exact if_pos h
  | sub | mul | div | mod => rfl

theorem yields_onOperands (op : Arithmetic) (ha : a.WithinLimit) {b : Operand}
    (hb : (cells.resolve b).WithinLimit) : Yields cells a (op.onOperands cells (.value a) b) := by
  refine ⟨?_, fun h => ?_⟩
  · rw [resolve_onOperands]
    exact op.onValues_withinLimit ha hb
  · rw [resolve_onOperands]
    exact op.onValues_type h _

theorem convert_type_self {v : Value} {ty : ValueType} (h : v.type = ty) : v.convert ty = (v, true) := by
  simp [Value.convert, h]

theorem copyBeside?_nil (cells : Cells) (b : Operand) : cells.copyBeside? [] b = some (cells.copy b) := by
  cases b <;> rfl

/-- Assigning a result to the left operand changes no cell, and what it leaves stands for the result: this already has
the type to keep, and copies stand for the same value. -/
theorem assign?_result (op : Arithmetic) (cells : Cells) (a : Value) (b : Operand) :
    ∃ c, cells.assign? (.value a) (op.onOperands cells (.value a) b) = some (cells, c) ∧
      cells.resolve c = op.onValues a (cells.resolve b) := by
  simp only [Cells.assign?, Cells.assignBeside?_value, copyBeside?_nil, Option.bind_some]
  by_cases h : a.keepsType = true
  · refine ⟨.value (op.onValues a (cells.resolve b)), ?_, rfl⟩
    rw [op.onOperands_eq_value h, if_pos h]
    change some (cells, Operand.value (Value.convert _ _).1) = _
    rw [convert_type_self (op.onValues_type h _)]
  · refine ⟨_, if_neg h, ?_⟩
    rw [Cells.resolve_copy, resolve_onOperands]

/-- **Types and limits**: for every operator, every plain value and every operand, both within the limit, the result is
within the limit and has the type of the left operand unless this is missing, and so has what is left after assigning it
back, which always goes through. Converting keeps the limit, for a value and for all cells that it may change; whatever
is read from a stream or made of a text or of bytes is within the limit. A text that is made, joined, converted to or
read is the longest part from the front, of whole characters, that fits. -/
theorem payloads_within_limit :
    (∀ (op : Arithmetic) (cells : Cells) (a : Value) (b : Operand), a.WithinLimit → (cells.resolve b).WithinLimit →
      Yields cells a (op.onOperands cells (.value a) b) ∧
        ∃ c, cells.assign? (.value a) (op.onOperands cells (.value a) b) = some (cells, c) ∧ Yields cells a c) ∧
    (∀ (v : Value) (ty : ValueType), v.WithinLimit → (v.convert ty).1.WithinLimit) ∧
    (∀ (cells : Cells) (a : Operand) (ty : ValueType), cells.WithinLimit → Cells.ContentWithinLimit a →
      (cells.setType a ty).1.WithinLimit ∧ Cells.ContentWithinLimit (cells.setType a ty).2) ∧
    (∀ (s : String) (v : Value), Value.ofStream? s = some v → v.WithinLimit) ∧
    (∀ bytes : List UInt8, (Value.ofBytes bytes).WithinLimit ∧ (Value.ofCustom bytes).WithinLimit) ∧
    (∀ s : String, ∃ t, Value.ofString s = .str t ∧ IsCut Value.payloadLimit s t) ∧
    (∀ (cells : Cells) (s : String) (b : Operand), ∃ t,
      cells.add (.value (.str s)) b = .value (.str t) ∧
        IsCut Value.payloadLimit (s ++ (cells.resolve b).text) t) ∧
    (∀ v : Value, v.type ≠ .string → v.type ≠ .invalid →
      ∃ t, (v.convert .string).1 = .str t ∧ IsCut Value.payloadLimit v.text t) ∧
    (∀ content : String, ∃ t,
      Value.ofStream? ("(" ++ ValueType.string.name ++ ",\"" ++ content ++ "\")") = some (.str t) ∧
        IsCut Value.payloadLimit (unescape content) t) := by
  refine ⟨fun op cells a b ha hb => ⟨op.yields_onOperands ha hb, ?_⟩, fun v ty h => h.convert ty,
    fun cells a ty h ha => h.setType ha ty, fun s v h => Value.withinLimit_ofStream h,
    fun bytes => ⟨Value.withinLimit_ofBytes bytes, Value.withinLimit_ofCustom bytes⟩,
    fun s => ⟨_, rfl, isCut_fit _ s⟩, fun cells s b => ⟨_, rfl, isCut_fit _ _⟩,
    fun v h hv => ⟨_, Value.convert_string h hv, isCut_fit _ _⟩,
    fun content => ⟨_, Value.ofStream_framed .string content, isCut_fit _ _⟩⟩
  obtain ⟨c, hassign, hc⟩ := op.assign?_result cells a b
  obtain ⟨hlimit, htype⟩ := op.yields_onOperands ha hb
  rw [op.resolve_onOperands] at hlimit htype
  exact ⟨c, hassign, hc ▸ hlimit, hc ▸ htype⟩

/-- A number joined to a text. -/
theorem joined_text_within_limit :
    Value.WithinLimit (.str "é") ∧ (Cells.empty.resolve (.value (.int 5))).WithinLimit ∧
      ((Cells.empty.resolve (Arithmetic.add.onOperands .empty (.value (.str "é")) (.value (.int 5)))).type = .string) :=
  have hs : Value.WithinLimit (.str "é") := by unfold Value.WithinLimit; decide
  have hn : (Cells.empty.resolve (.value (.int 5))).WithinLimit := Nat.zero_le _
  ⟨hs, hn, (payloads_within_limit.1 .add .empty _ _ hs hn).1.type_eq rfl⟩

end Arithmetic

end HostScript
