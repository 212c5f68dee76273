import HostScript.Proofs.FieldValues
/-!
# Definitions read back from a line

A definition says of each field of a line what it was read from. The line that a definition is written as is read
as the same definition unless writing loses something: the description is read unescaped, and so is the default of
some texts, but both are written as they are; a negative id is written as the code of its 64 bits, which is read as a
number; and what ends a line is dropped, even if it belongs to the last field.
-/

set_option autoImplicit false

namespace HostScript

open HostScript.Text HostScript.Number

theorem Except.mapM_eq_ok_iff {ε α β : Type} {f : α → Except ε β} {as : List α} {bs : List β} :
    as.mapM f = .ok bs ↔ List.Forall₂ (fun a b => f a = .ok b) as bs := by
  induction as generalizing bs with
  | nil =>
    rw [List.mapM_nil, List.forall₂_nil_left_iff]
    exact ⟨fun h => (Except.ok.inj h).symm, fun h => h ▸ rfl⟩
  | cons a as ih =>
    rw [List.mapM_cons, List.forall₂_cons_left_iff]
    constructor
    · intro h
      obtain ⟨b, hb, h⟩ := Except.of_bind_ok h
      obtain ⟨more, hmore, h⟩ := Except.of_bind_ok h
      exact ⟨b, more, hb, ih.mp hmore, (Except.ok.inj h).symm⟩
    · rintro ⟨b, more, hb, hmore, rfl⟩
      simp only [hb, ih.mpr hmore]
      rfl

theorem Except.exists_of_any {ε α : Type} {r : Except ε α} {p : α → Bool} (h : r.toOption.any p = true) :
    ∃ a, r = .ok a ∧ p a = true := by
  cases r with
  | error e => cases h
  | ok a => exact ⟨a, rfl, h⟩

namespace VariableDefinition

/-! ## What a definition is read from -/

/-- The text that a default is read from. -/
def defaultText (ty : ValueType) (unit text : String) : String :=
  if ty = .string ∧ unit.toList.contains 'M' then unescape text else text

/-- What the fields of a line say of the definition that is read from them. -/
structure ReadFrom (fields : List String) (d : VariableDefinition) : Prop where
  id : readOwnId (fields.getD 0 "") = .ok d.id
  name : fields.getD 1 "" = d.name
  unit : fields.getD 2 "" = d.unit
  flags : .ofLetters (fields.getD 3 "") = d.flags
  description : unescape (fields.getD 4 "") = d.description
  type : readType (fields.getD 5 "") = d.type
  conversion : fields.getD 6 "" = d.conversion
  states : List.Forall₂ (fun field state => readState d.type field = .ok state)
    ((fields.drop 11).takeWhile (· ≠ "")) d.states
  round : readValue "round" (fields.getD 7 "") d.type = .ok d.round
  default : readValue "default" (defaultText d.type d.unit (fields.getD 8 "")) d.type = .ok d.default
  min : readValue "min" (fields.getD 9 "") d.type = .ok d.min
  max : readValue "max" (fields.getD 10 "") d.type = .ok d.max

theorem parse_eq_ok_iff {csv : String} {d : VariableDefinition} :
    parse csv = .ok d ↔ ReadFrom (definitionFields csv) d := by
  unfold parse
  generalize definitionFields csv = fields
  dsimp only
  constructor
  · intro h
    obtain ⟨id, hid, h⟩ := Except.of_bind_ok h
    obtain ⟨states, hstates, h⟩ := Except.of_bind_ok h
    obtain ⟨round, hround, h⟩ := Except.of_bind_ok h
    obtain ⟨default, hdefault, h⟩ := Except.of_bind_ok h
    obtain ⟨min, hmin, h⟩ := Except.of_bind_ok h
    obtain ⟨max, hmax, h⟩ := Except.of_bind_ok h
    cases h
    exact ⟨hid, rfl, rfl, rfl, rfl, rfl, rfl, Except.mapM_eq_ok_iff.mp hstates, hround, hdefault, hmin, hmax⟩
  · obtain ⟨id, name, unit, flags, description, type, conversion, round, default, min, max, states⟩ := d
    rintro ⟨hid, rfl, rfl, rfl, rfl, rfl, rfl, hstates, hround, hdefault, hmin, hmax⟩
    rw [defaultText] at hdefault
    simp only [hid, Except.mapM_eq_ok_iff.mpr hstates, hround, hdefault, hmin, hmax]
    rfl

/-! ## What a definition is written as -/

theorem readType_kept (field : String) : readType (readType field).name = readType field := by
  unfold readType
  cases ValueType.ofName field <;> rfl

/-- The fields of a definition before its limits. -/
def front (d : VariableDefinition) : List String :=
  ["0x" ++ hexText d.id.toUInt64.toNat, d.name, d.unit, d.flags.letters, d.description, d.type.name, d.conversion,
    d.round.text, d.default.text, d.min.text]

/-- All fields of a definition. -/
def parts (d : VariableDefinition) : List String := d.front ++ d.max.text :: d.states.map NamedValue.field

theorem render_eq (d : VariableDefinition) : d.render = ",".intercalate d.parts := rfl

theorem definitionFields_render (d : VariableDefinition) :
    definitionFields d.render = (endTrimmed isLineEnd d.parts).flatMap (fields ',') := by
  have hne : endTrimmed isLineEnd d.parts ≠ [] := by
    rw [parts, endTrimmed_append isLineEnd d.front (by simp), front]
    simp
  rw [← fields_intercalate hne, ← withoutEnd_intercalate rfl, ← render_eq]
  rfl

/-- What every definition is that was read from fields: its values are told, and what was not unescaped has no
comma. -/
structure Plain (d : VariableDefinition) : Prop where
  type : readType d.type.name = d.type
  flags : .ofLetters d.flags.letters = d.flags
  name : ',' ∉ d.name.toList
  unit : ',' ∉ d.unit.toList
  conversion : ',' ∉ d.conversion.toList
  round : d.round.Plain d.type
  default : d.default.type = d.type ∧ d.default.Told
  escaped : ¬ (d.type = .string ∧ 'M' ∈ d.unit.toList) → ',' ∉ d.default.text.toList
  min : d.min.Plain d.type
  max : d.max.Plain d.type
  states : ∀ state ∈ d.states, state.Plain d.type

theorem plain_of_parse {csv : String} {d : VariableDefinition} (h : parse csv = .ok d) (hfloat : d.type ≠ .float) :
    d.Plain := by
  have hread := parse_eq_ok_iff.mp h
  have hkept : readType d.type.name = d.type := hread.type ▸ readType_kept _
  have hcomma : ∀ i, ',' ∉ ((definitionFields csv).getD i "").toList := not_mem_fields_getD ',' _
  constructor
  case type => exact hkept
  case flags => exact hread.flags ▸ VariableFlags.ofLetters_letters _
  case name => exact hread.name ▸ hcomma 1
  case unit => exact hread.unit ▸ hcomma 2
  case conversion => exact hread.conversion ▸ hcomma 6
  case round => exact Value.plain_of_readValue hread.round hkept hfloat (hcomma 7)
  case min => exact Value.plain_of_readValue hread.min hkept hfloat (hcomma 9)
  case max => exact Value.plain_of_readValue hread.max hkept hfloat (hcomma 10)
  case default => exact ⟨readValue_type hread.default, Value.told_of_readValue hread.default hkept hfloat⟩
  case escaped =>
    intro hplain
    have hdefault := hread.default
    rw [defaultText, if_neg (by simpa using hplain)] at hdefault
    exact (Value.plain_of_readValue hdefault hkept hfloat (hcomma 8)).comma
  case states =>
    refine NamedValue.plain_of_readStates hread.states hkept hfloat fun field hfield => ?_
    exact not_mem_of_mem_fields (List.mem_of_mem_drop ((List.takeWhile_sublist _).subset hfield))

theorem Plain.comma_front {d : VariableDefinition} (h : d.Plain) (hdescription : Verbatim d.description)
    (hdefault : ',' ∉ d.default.text.toList) : ∀ part ∈ d.front, ',' ∉ part.toList := by
  simp only [front, List.forall_mem_cons]
  exact ⟨fun hmem => (hexText_digits _ _ hmem).2 rfl, h.name, h.unit, d.flags.comma_letters, hdescription.1,
    d.type.comma_not_mem, h.conversion, h.round.comma, hdefault, h.min.comma, by simp⟩

theorem Plain.comma_parts {d : VariableDefinition} (h : d.Plain) (hdescription : Verbatim d.description)
    (hdefault : ',' ∉ d.default.text.toList) : ∀ part ∈ d.parts, ',' ∉ part.toList := by
  intro part hpart
  rw [parts, List.mem_append, List.mem_cons, List.mem_map] at hpart
  rcases hpart with hfront | rfl | ⟨state, hstate, rfl⟩
  · exact h.comma_front hdescription hdefault part hfront
  · exact h.max.comma
  · exact (h.states state hstate).comma_field

theorem defaultText_of_verbatim {d : VariableDefinition}
    (h : d.type = .string → 'M' ∈ d.unit.toList → Verbatim d.default.text) :
    defaultText d.type d.unit d.default.text = d.default.text := by
  rw [defaultText]
  split
  · rename_i hmulti
    exact (h hmulti.1 (by simpa using hmulti.2)).unescape
  · rfl

theorem takeWhile_fields (states : List NamedValue) :
    (states.map NamedValue.field).takeWhile (· ≠ "") = states.map NamedValue.field := by
  rw [List.takeWhile_eq_self_iff]
  simpa using fun state _ => state.field_ne

/-- The fields that a definition is written as say what it is, if each is read by itself. -/
theorem Plain.readFrom_parts {d : VariableDefinition} (h : d.Plain) (hid : 0 < d.id)
    (hdescription : Verbatim d.description)
    (hdefault : d.type = .string → 'M' ∈ d.unit.toList → Verbatim d.default.text) : ReadFrom d.parts d := by
  constructor
  case id => exact readOwnId_hexText.mpr hid
  case name => rfl
  case unit => rfl
  case flags => exact h.flags
  case description => exact hdescription.unescape
  case type => exact h.type
  case conversion => rfl
  case round => exact h.round.readValue _
  case min => exact h.min.readValue _
  case max => exact h.max.readValue _
  case default =>
    change readValue "default" (defaultText d.type d.unit d.default.text) d.type = .ok d.default
    rw [defaultText_of_verbatim hdefault, ← h.default.1]
    exact h.default.2.readValue _
  case states =>
    change List.Forall₂ _ ((d.states.map NamedValue.field).takeWhile (· ≠ "")) d.states
    rw [takeWhile_fields, List.forall₂_map_left_iff, List.forall₂_same]
    exact fun state hstate => (h.states state hstate).readState

/-! ## What is lost -/

/-- Behind fields without commas, what is read of a field is what stands before its first comma. -/
theorem getD_definitionFields {d : VariableDefinition} {i : Nat} (hi : i < 10)
    (hcomma : ∀ part ∈ d.front.take i, ',' ∉ part.toList) :
    (definitionFields d.render).getD i "" = String.ofList ((d.front.getD i "").toList.takeWhile (· != ',')) := by
  have hlength : i < d.front.length := hi
  have hparts : d.parts =
      (d.front.take i ++ d.front.getD i "" :: d.front.drop (i + 1)) ++ d.max.text :: d.states.map NamedValue.field := by
    rw [← List.getElem_eq_getD (h := hlength), ← List.drop_eq_getElem_cons hlength, List.take_append_drop, parts]
  have hfield := getD_flatMap_fields hcomma (d.front.getD i "")
    (d.front.drop (i + 1) ++ endTrimmed isLineEnd (d.max.text :: d.states.map NamedValue.field))
  rw [List.length_take_of_le hlength.le] at hfield
  rw [definitionFields_render, hparts, endTrimmed_append _ _ (by simp), List.append_assoc]
  exact hfield

/-- A text that its field is unescaped to stands for itself. -/
theorem verbatim_of_unescape {s : String}
    (h : s.toList.length ≤ (unescape (String.ofList (s.toList.takeWhile (· != ',')))).toList.length) : Verbatim s := by
  rw [unescape, String.toList_ofList, String.toList_ofList] at h
  exact verbatim_of_length_le h

theorem id_pos_of_readFrom_render {d : VariableDefinition} (hagain : ReadFrom (definitionFields d.render) d) :
    0 < d.id := by
  have hall : ("0x" ++ hexText d.id.toUInt64.toNat).toList.takeWhile (· != ',') = _ :=
    List.takeWhile_eq_self_iff.mpr fun c hc => bne_iff_ne.mpr (hexText_digits _ c hc).2
  have hcode : d.front.getD 0 "" = "0x" ++ hexText d.id.toUInt64.toNat := rfl
  have hid := hagain.id
  rw [getD_definitionFields (by decide) (by simp), hcode, hall, String.ofList_toList] at hid
  exact readOwnId_hexText.mp hid

theorem Plain.description_of_readFrom_render {d : VariableDefinition} (h : d.Plain)
    (hagain : ReadFrom (definitionFields d.render) d) : Verbatim d.description := by
  have hbefore : ∀ part ∈ d.front.take 4, ',' ∉ part.toList := by
    simp only [front, List.take_succ_cons, List.take_zero, List.forall_mem_cons]
    exact ⟨fun hmem => (hexText_digits _ _ hmem).2 rfl, h.name, h.unit, d.flags.comma_letters, by simp⟩
  have hdescription := hagain.description
  rw [getD_definitionFields (by decide) hbefore] at hdescription
  exact verbatim_of_unescape (congrArg (·.toList.length) hdescription).ge

theorem Plain.default_of_readFrom_render {d : VariableDefinition} (h : d.Plain)
    (hagain : ReadFrom (definitionFields d.render) d) (hstring : d.type = .string) (hmulti : 'M' ∈ d.unit.toList) :
    Verbatim d.default.text := by
  have hbefore : ∀ part ∈ d.front.take 8, ',' ∉ part.toList := by
    simp only [front, List.take_succ_cons, List.take_zero, List.forall_mem_cons]
    exact ⟨fun hmem => (hexText_digits _ _ hmem).2 rfl, h.name, h.unit, d.flags.comma_letters,
      (h.description_of_readFrom_render hagain).1, d.type.comma_not_mem, h.conversion, h.round.comma, by simp⟩
  have htext : d.front.getD 8 "" = d.default.text := rfl
  have hdefault := hagain.default
  rw [getD_definitionFields (by decide) hbefore, htext, defaultText, if_pos ⟨hstring, by simpa using hmulti⟩,
    hstring] at hdefault
  have hcut := isPrefix_fit Value.payloadLimit (unescape (String.ofList (d.default.text.toList.takeWhile (· != ','))))
  rw [← Value.text_of_readText hdefault] at hcut
  exact verbatim_of_unescape hcut.length_le

theorem Plain.comma_default {d : VariableDefinition} (h : d.Plain)
    (hdefault : d.type = .string → 'M' ∈ d.unit.toList → Verbatim d.default.text) : ',' ∉ d.default.text.toList := by
  by_cases hmulti : d.type = .string ∧ 'M' ∈ d.unit.toList
  · exact (hdefault hmulti.1 hmulti.2).1
  · exact h.escaped hmulti

/-- What ends the line is no loss if the fields say the same without it. -/
theorem Plain.end_of_readFrom {d : VariableDefinition} (h : d.Plain)
    (hagain : ReadFrom (endTrimmed isLineEnd d.parts) d) :
    endTrimmed isLineEnd d.parts = d.parts := by
  cases hstates : d.states using List.reverseRecOn with
  | nil =>
    have hparts : d.parts = d.front ++ [d.max.text] := by rw [parts, hstates, List.map_nil]
    have htrimmed : endTrimmed isLineEnd d.parts = d.front ++ [withoutEnd isLineEnd d.max.text] := by
      rw [hparts]
      exact endTrimmed_append _ _ (by simp)
    have hmax := hagain.max
    rw [htrimmed, ← h.max.type] at hmax
    rw [htrimmed, hparts, h.max.told.withoutEnd_text hmax]
  | append_singleton states state =>
    have hplain := h.states state (by simp [hstates])
    have hparts : d.parts = (d.front ++ d.max.text :: states.map NamedValue.field) ++ [state.field] := by
      simp [parts, hstates]
    have htrimmed : endTrimmed isLineEnd d.parts =
        (d.front ++ d.max.text :: states.map NamedValue.field) ++ [withoutEnd isLineEnd state.field] := by
      rw [hparts]
      exact endTrimmed_append _ _ (by simp)
    have hread : List.Forall₂ (fun field state => readState d.type field = .ok state)
        ((states.map NamedValue.field ++ [withoutEnd isLineEnd state.field]).takeWhile (· ≠ "")) d.states :=
      (htrimmed ▸ hagain.states :)
    have hends : withoutEnd isLineEnd state.field ≠ "" := by simp [NamedValue.withoutEnd_field]
    rw [List.takeWhile_append_of_pos (by simpa using fun state _ => state.field_ne),
      List.takeWhile_cons_of_pos (by simpa), hstates] at hread
    have hlast := List.forall₂_drop_append _ states [state] hread
    rw [List.drop_left' (by simp)] at hlast
    obtain ⟨_, _, hstate, -, heq⟩ := List.forall₂_cons_left_iff.mp hlast
    rw [← (List.cons.inj heq).1] at hstate
    rw [htrimmed, hparts, hplain.withoutEnd_field hstate]

/-- A definition is read back from the line that it is written as just if its id is positive, nothing that was
unescaped has to be escaped, and its last field does not end as lines do. -/
theorem parse_render_iff {csv : String} {d : VariableDefinition} (h : parse csv = .ok d) (hfloat : d.type ≠ .float) :
    parse d.render = .ok d ↔
      0 < d.id ∧ Verbatim d.description ∧
        (d.type = .string → 'M' ∈ d.unit.toList → Verbatim d.default.text) ∧
        ∀ c ∈ d.render.toList.getLast?, isLineEnd c = false := by
  have hplain := plain_of_parse h hfloat
  rw [parse_eq_ok_iff, ← withoutEnd_eq_self_iff]
  constructor
  · intro hagain
    have hdescription := hplain.description_of_readFrom_render hagain
    have hdefault := hplain.default_of_readFrom_render hagain
    have hcomma := hplain.comma_parts hdescription (hplain.comma_default hdefault)
    refine ⟨id_pos_of_readFrom_render hagain, hdescription, hdefault, ?_⟩
    rw [definitionFields_render, flatMap_fields (not_mem_endTrimmed hcomma)] at hagain
    rw [render_eq, withoutEnd_intercalate rfl, hplain.end_of_readFrom hagain]
  · rintro ⟨hid, hdescription, hdefault, hend⟩
    have hcomma := hplain.comma_parts hdescription (hplain.comma_default hdefault)
    have hfields : definitionFields d.render = d.parts := by
      rw [← flatMap_fields hcomma, ← fields_intercalate (by simp [parts, front]), ← render_eq]
      exact congrArg (fields ',') hend
    rw [hfields]
    exact hplain.readFrom_parts hid hdescription hdefault

/-- A description that is left with a backslash loses it when it is read again. -/
theorem backslash_lost :
    ∃ d, parse "1,a,,,x\\\\y,INTEGER" = .ok d ∧ d.type ≠ .float ∧ d.description = "x\\y" ∧ parse d.render ≠ .ok d := by
  have hread : (parse "1,a,,,x\\\\y,INTEGER").toOption.any
      (fun d => d.type == .integer && d.description == "x\\y") = true := by decide +kernel
  obtain ⟨d, h, hd⟩ := Except.exists_of_any hread
  obtain ⟨htype, hdescription⟩ : d.type = .integer ∧ d.description = "x\\y" := by simpa using hd
  have hfloat : d.type ≠ .float := by rw [htype]; decide
  refine ⟨d, h, hfloat, hdescription, fun hagain => ?_⟩
  obtain ⟨-, hverbatim, -⟩ := (parse_render_iff h hfloat).mp hagain
  exact absurd (hdescription ▸ hverbatim.2) (by decide)

end VariableDefinition

end HostScript
