import HostScript.Proofs.Fields
import HostScript.Proofs.Streams
import HostScript.Proofs.TypedVariables
import Mathlib.Data.List.Forall2
/-!
# What fields tell

Numbers, values, named values and flags are written as the texts of fields. A value that was read of a field is told
by its text: it is read back from it, but for floats. The number of a definition is written as the code of its 64 bits,
which is the number itself only if it is positive, and flags are written as the letters of those that have one.
-/

set_option autoImplicit false

namespace HostScript

open HostScript.Text HostScript.Number

namespace Number

/-! ## Hexadecimal numerals -/

theorem digitValue_digitChar {d : Nat} (h : d < 16) : digitValue? 16 d.digitChar = some d :=
  (by decide : ∀ d < 16, digitValue? 16 d.digitChar = some d) d h

theorem leadingDigits_digitChars {ds : List Nat} (h : ∀ d ∈ ds, d < 16) :
    leadingDigits 16 (ds.map Nat.digitChar) = ds := by
  induction ds with
  | nil => rfl
  | cons d ds ih =>
    rw [List.map_cons, leadingDigits, digitValue_digitChar (h d List.mem_cons_self)]
    exact congrArg (d :: ·) (ih fun e he => h e (List.mem_cons_of_mem _ he))

/-- The digits of a number, and their values. -/
theorem toDigits_hexadecimal (n : Nat) :
    ∃ ds, Nat.toDigits 16 n = ds.map Nat.digitChar ∧ (∀ d ∈ ds, d < 16) ∧ ofDigits 16 ds = n := by
  induction n using Nat.strongRecOn with
  | _ n ih =>
    rw [Nat.toDigits_eq_if (by decide)]
    split
    · rename_i hn
      exact ⟨[n], rfl, by simpa using hn, by simp [ofDigits]⟩
    · obtain ⟨ds, hds, hlt, hvalue⟩ := ih (n / 16) (by omega)
      refine ⟨ds ++ [n % 16], by simp [hds], ?_, ?_⟩
      · intro d hd
        rcases List.mem_append.mp hd with hd | hd
        · exact hlt d hd
        · rw [List.mem_singleton.mp hd]
          exact Nat.mod_lt _ (by decide)
      · rw [ofDigits, List.foldl_append, ← ofDigits, hvalue]
        simp only [List.foldl_cons, List.foldl_nil]
        omega

/-- The hexadecimal text of a number is read to its end, as this number held at the largest magnitude. -/
theorem readInteger_hexText (n : Nat) :
    readInteger ("0x" ++ hexText n).toList =
      ⟨Int64.ofInt (min (n : Int) maxMagnitude), ("0x" ++ hexText n).toList.length⟩ := by
  obtain ⟨ds, hds, hlt, hvalue⟩ := toDigits_hexadecimal n
  have hne : Nat.toDigits 16 n ≠ [] := Nat.toDigits_ne_nil
  have htext : ("0x" ++ hexText n).toList = '0' :: 'x' :: ds.map Nat.digitChar := by
    simp [hexText, hds]
  rw [hds] at hne
  cases ds with
  | nil => exact absurd rfl hne
  | cons d ds =>
    have hdigit : isHexDigit d.digitChar = true := by
      rw [isHexDigit, digitValue_digitChar (hlt d List.mem_cons_self)]
      rfl
    have hspace : isSpace '0' = false := rfl
    have hdigits := leadingDigits_digitChars hlt
    rw [List.map_cons] at hdigits
    simp [htext, readInteger, hspace, signOf, detectBase, hdigit, hdigits, hvalue]
    omega

/-- What is read of a text is never the smallest integer. -/
theorem readInteger_ne_min (text : List Char) : (readInteger text).value ≠ Int64.minValue := by
  unfold readInteger
  dsimp only
  split
  · decide
  · intro h
    have hmin := congrArg Int64.toInt h
    have hvalue : Int64.minValue.toInt = -2 ^ 63 := rfl
    rw [Int64.toInt_ofInt_of_le (by simp only [maxMagnitude]; split <;> omega)
      (by simp only [maxMagnitude]; split <;> omega), hvalue] at hmin
    simp only [maxMagnitude] at hmin
    split at hmin <;> omega

end Number

/-! ## Numbers of definitions -/

theorem hexText_digits (n : Nat) : ∀ c ∈ ("0x" ++ hexText n).toList, isBlank c = false ∧ c ≠ ',' := by
  obtain ⟨ds, hds, hlt, -⟩ := toDigits_hexadecimal n
  have hdigit : ∀ d < 16, isBlank d.digitChar = false ∧ d.digitChar ≠ ',' := by decide
  have htext : ("0x" ++ hexText n).toList = '0' :: 'x' :: ds.map Nat.digitChar := by
    simp [hexText, hds]
  intro c hc
  rw [htext, List.mem_cons, List.mem_cons, List.mem_map] at hc
  rcases hc with rfl | rfl | ⟨d, hd, rfl⟩
  · decide
  · decide
  · exact hdigit d (hlt d hd)

theorem readId_hexText (n : Nat) : readId ("0x" ++ hexText n) = .ok (Int64.ofInt (min (n : Int) maxMagnitude)) := by
  have htrim : trim ("0x" ++ hexText n) = "0x" ++ hexText n := trim_unblank fun c hc => (hexText_digits n c hc).1
  have hne : "0x" ++ hexText n ≠ "" := by simp
  unfold readId
  simp only [htrim, readInteger_hexText, String.length_toList]
  exact if_pos ⟨trivial, hne⟩

/-- The code of a number is read as the number itself only if it is positive. -/
theorem readOwnId_hexText {id : Int64} : readOwnId ("0x" ++ hexText id.toUInt64.toNat) = .ok id ↔ 0 < id := by
  have hcode : (id.toUInt64.toNat : Int) = if id.toInt < 0 then id.toInt + 2 ^ 64 else id.toInt := by
    have hcode : id.toInt = if 2 * id.toUInt64.toNat < 2 ^ 64 then (id.toUInt64.toNat : Int)
        else id.toUInt64.toNat - 2 ^ 64 := BitVec.toInt_eq_toNat_cond id.toBitVec
    have hlt : id.toUInt64.toNat < 2 ^ 64 := id.toBitVec.isLt
    split at hcode <;> split <;> omega
  have hlow := id.le_toInt
  have hhigh := id.toInt_lt
  have hread : min (id.toUInt64.toNat : Int) maxMagnitude =
      if id.toInt < 0 then (maxMagnitude : Int) else id.toInt := by
    rw [hcode]
    simp only [maxMagnitude]
    split <;> omega
  rw [readOwnId, readId_hexText, hread, Int64.lt_iff_toInt_lt]
  change (if Int64.ofInt _ = 0 then _ else _) = _ ↔ (0 : Int) < id.toInt
  by_cases hneg : id.toInt < 0
  · rw [if_pos hneg, if_neg (by decide)]
    refine iff_of_false (fun h => ?_) (by omega)
    rw [← Except.ok.inj h] at hneg
    exact absurd hneg (by decide)
  · rw [if_neg hneg, Int64.ofInt_toInt]
    by_cases hzero : id = 0
    · rw [if_pos hzero, hzero]
      exact iff_of_false (by simp) (by decide)
    · have hne : id.toInt ≠ 0 := fun h => hzero (Int64.toInt_inj.mp h)
      rw [if_neg hzero]
      exact iff_of_true rfl (by omega)

/-! ## Values in fields -/

namespace Text

/-- What ends a line. -/
def isLineEnd (c : Char) : Bool := c == '\r' || c == '\n'

theorem fromHexChars_length {cs : List Char} {blob : List UInt8} (h : fromHexChars cs = some blob) :
    2 * blob.length ≤ cs.length := by
  induction cs using fromHexChars.induct generalizing blob with
  | case1 hi lo rest ih =>
    rw [fromHexChars] at h
    obtain ⟨high, -, h⟩ := Option.bind_eq_some_iff.mp h
    obtain ⟨low, -, h⟩ := Option.bind_eq_some_iff.mp h
    obtain ⟨bytes, hbytes, h⟩ := Option.bind_eq_some_iff.mp h
    obtain rfl := Option.some.inj h
    have hrest := ih hbytes
    simp only [List.length_cons]
    omega
  | case2 cs hshort =>
    rw [fromHexChars] at h
    · obtain rfl := Option.some.inj h
      exact Nat.zero_le _
    · exact hshort

end Text

namespace Value

/-- A value that its text says all of: an integer with a magnitude, a text within the limit, and a blob whose
digits fit a text. -/
inductive Told : Value → Prop
  | int {n : Int64} : n ≠ Int64.minValue → Told (int n)
  | str {s : String} : s.utf8ByteSize ≤ payloadLimit → Told (str s)
  | binary {blob : List UInt8} : blob.length ≤ writtenLimit → Told (binary blob)
  | custom {blob : List UInt8} : blob.length ≤ writtenLimit → Told (custom blob)

theorem readValue_eq_ok_iff {field text : String} {ty : ValueType} {v : Value} :
    HostScript.readValue field text ty = .ok v ↔
      ((ofString text).convert ty).1 = v ∧ ((ofString text).convert ty).2 = true := by
  unfold HostScript.readValue
  dsimp only
  split <;> simp_all

/-! What a text is in each of the types. -/

theorem convert_str_integer (s : String) :
    (str s).convert .integer = (.int (readInteger s.toList).value, (readInteger s.toList).used == s.length) := rfl

theorem convert_ofString_string (text : String) :
    (ofString text).convert .string = (.str (fit payloadLimit text), true) := rfl

theorem convert_ofString_binary (text : String) :
    (ofString text).convert .binary = (ofBytes (ofString text).coerceBytes.value, (ofString text).coerceBytes.clean) :=
  rfl

theorem convert_ofString_custom (text : String) :
    (ofString text).convert .custom =
      (ofCustom (ofString text).coerceBytes.value, (ofString text).coerceBytes.clean) := rfl

theorem text_of_readText {field text : String} {v : Value} (h : HostScript.readValue field text .string = .ok v) :
    v.text = fit payloadLimit text := by
  obtain ⟨rfl, -⟩ := readValue_eq_ok_iff.mp h
  rw [convert_ofString_string, Value.text]

/-- A text that names bytes names no more than have digits that fit a text. -/
theorem length_coerceBytes {text : String} (h : (ofString text).coerceBytes.clean = true) :
    (ofString text).coerceBytes.value.length ≤ writtenLimit := by
  have hsize : (utf8 (fit payloadLimit text)).length ≤ payloadLimit := by
    rw [utf8_eq_bytes, ← utf8ByteSize_eq]
    exact utf8ByteSize_fit_le _ _
  simp only [coerceBytes, ofString, blob?, Value.text] at h ⊢
  split
  · rename_i blob hblob
    have hlength := fromHexChars_length hblob
    rw [List.length_map] at hlength
    simp only [writtenLimit]
    omega
  · simp_all

/-- What is read of a field is told by its text, unless it is a float. -/
theorem told_of_readValue {field text : String} {ty : ValueType} {v : Value} (h : readValue field text ty = .ok v)
    (hkept : VariableDefinition.readType ty.name = ty) (hfloat : ty ≠ .float) : v.Told := by
  obtain ⟨rfl, hclean⟩ := readValue_eq_ok_iff.mp h
  cases ty with
  | invalid => exact absurd hkept (by decide)
  | undefined => exact absurd hkept (by decide)
  | float => exact absurd rfl hfloat
  | integer =>
    rw [ofString, convert_str_integer]
    exact .int (readInteger_ne_min _)
  | string =>
    rw [convert_ofString_string]
    exact .str (utf8ByteSize_fit_le _ _)
  | binary =>
    rw [convert_ofString_binary] at hclean ⊢
    exact .binary ((List.length_take_le' _ _).trans (length_coerceBytes hclean))
  | custom =>
    rw [convert_ofString_custom] at hclean ⊢
    exact .custom ((List.length_take_le' _ _).trans (length_coerceBytes hclean))

theorem coerceBytes_of_le {blob : List UInt8} (h : blob.length ≤ writtenLimit) :
    (ofString (toHex blob)).coerceBytes = ⟨blob, true⟩ := by
  rw [coerceBytes_toHex, List.take_of_length_le h]

theorem take_payloadLimit {blob : List UInt8} (h : blob.length ≤ writtenLimit) : blob.take payloadLimit = blob :=
  List.take_of_length_le (h.trans (by decide))

/-- A value is read back from what it is told by. -/
theorem Told.readValue {v : Value} (h : v.Told) (field : String) : readValue field v.text v.type = .ok v := by
  rw [readValue_eq_ok_iff]
  cases h with
  | @int n hn =>
    have hread := readInteger_decimal n.toInt
    rw [ofInt_held, if_neg hn] at hread
    rw [show (Value.int n).text = toString n.toInt from rfl, ofString_toString, Value.type, convert_str_integer, hread,
      String.length_toList]
    exact ⟨rfl, beq_self_eq_true _⟩
  | @str s hs => exact ⟨congrArg Value.str (fit_of_le hs), rfl⟩
  | @binary blob hblob =>
    rw [show (Value.binary blob).text = toHex blob from rfl]
    simp [Value.type, convert_ofString_binary, coerceBytes_of_le hblob, ofBytes, take_payloadLimit hblob]
  | @custom blob hblob =>
    rw [show (Value.custom blob).text = toHex blob from rfl]
    simp [Value.type, convert_ofString_custom, coerceBytes_of_le hblob, ofCustom, take_payloadLimit hblob]

theorem hexChars_gt {blob : List UInt8} : ∀ c ∈ hexChars blob, ','.toNat < c.toNat := by
  intro c hc
  obtain ⟨b, -, hc⟩ := List.mem_flatMap.mp hc
  have hb := b.toNat_lt
  have hdigit : ∀ n < 16, ','.toNat < (hexDigit n).toNat := by decide
  simp only [hexPair, List.mem_cons, List.not_mem_nil, or_false] at hc
  rcases hc with rfl | rfl
  · exact hdigit _ (by omega)
  · exact hdigit _ (by omega)

/-- The text of a number or blob has only characters that come after the comma. -/
theorem Told.text_gt {v : Value} (h : v.Told) (hstr : v.type ≠ .string) : ∀ c ∈ v.text.toList, ','.toNat < c.toNat := by
  cases h with
  | @str s hs => exact absurd rfl hstr
  | @int n hn =>
    intro c hc
    rw [show (Value.int n).text = toString n.toInt from rfl, toList_toString, List.mem_append] at hc
    rcases hc with hsign | hdigit
    · obtain rfl : c = '-' := by
        split at hsign <;> simp_all
      decide
    · exact Nat.lt_of_lt_of_le (by decide) (isDigit_iff.mp (isDigit_of_toDigits hdigit)).1
  | @binary blob hblob => exact toList_toHex blob ▸ hexChars_gt
  | @custom blob hblob => exact toList_toHex blob ▸ hexChars_gt

/-- What is read of a field without a comma has no comma in its text. -/
theorem Told.comma_not_mem {field text : String} {v : Value} (hv : v.Told)
    (h : HostScript.readValue field text v.type = .ok v) (hcomma : ',' ∉ text.toList) : ',' ∉ v.text.toList := by
  by_cases hstr : v.type = .string
  · rw [hstr] at h
    obtain ⟨rfl, -⟩ := readValue_eq_ok_iff.mp h
    exact fun hmem => hcomma ((isPrefix_fit _ _).subset hmem)
  · exact fun hmem => Nat.lt_irrefl _ (hv.text_gt hstr ',' hmem)

/-- A value of a type that a field can hold. -/
structure Plain (ty : ValueType) (v : Value) : Prop where
  type : v.type = ty
  told : v.Told
  comma : ',' ∉ v.text.toList

theorem plain_of_readValue {field text : String} {ty : ValueType} {v : Value}
    (h : HostScript.readValue field text ty = .ok v) (hkept : VariableDefinition.readType ty.name = ty)
    (hfloat : ty ≠ .float) (hcomma : ',' ∉ text.toList) : v.Plain ty := by
  have htold := told_of_readValue h hkept hfloat
  obtain rfl := readValue_type h
  exact ⟨rfl, htold, htold.comma_not_mem h hcomma⟩

theorem Plain.readValue {ty : ValueType} {v : Value} (h : v.Plain ty) (field : String) :
    HostScript.readValue field v.text ty = .ok v := h.type ▸ h.told.readValue field

/-- A value that is read back without the line ends behind it has none. -/
theorem Told.withoutEnd_text {field : String} {v : Value} (hv : v.Told)
    (h : HostScript.readValue field (withoutEnd isLineEnd v.text) v.type = .ok v) :
    withoutEnd isLineEnd v.text = v.text := by
  by_cases hstr : v.type = .string
  · have hkept := isPrefix_withoutEnd isLineEnd v.text
    have hcut := isPrefix_fit payloadLimit (withoutEnd isLineEnd v.text)
    rw [← text_of_readText (hstr ▸ h)] at hcut
    exact String.toList_inj.mp (hkept.eq_of_length_le hcut.length_le)
  · refine withoutEnd_of_forall fun c hc => ?_
    have hgt := hv.text_gt hstr c hc
    by_contra hend
    rw [Bool.not_eq_false, isLineEnd, Bool.or_eq_true, beq_iff_eq, beq_iff_eq] at hend
    rcases hend with rfl | rfl <;> exact absurd hgt (by decide)

end Value

namespace NamedValue

/-- A named value as a field. -/
def field (state : NamedValue) : String := state.name ++ "=" ++ state.value.text

theorem field_ne (state : NamedValue) : state.field ≠ "" := by simp [field]

/-- A named value of a type that a field can hold. -/
structure Plain (ty : ValueType) (state : NamedValue) : Prop where
  value : state.value.Plain ty
  comma : ',' ∉ state.name.toList
  sign : '=' ∉ state.name.toList

theorem readState_eq_ok_iff {ty : ValueType} {field : String} {state : NamedValue} :
    readState ty field = .ok state ↔
      ((cut '=' field).getD (field, "")).1 = state.name ∧
        readValue "state" ((cut '=' field).getD (field, "")).2 ty = .ok state.value := by
  unfold readState
  cases (cut '=' field).getD (field, "") with
  | mk name text =>
    constructor
    · intro h
      obtain ⟨value, hvalue, h⟩ := Except.of_bind_ok h
      obtain rfl := Except.ok.inj h
      exact ⟨rfl, hvalue⟩
    · rintro ⟨rfl, hvalue⟩
      simp only [hvalue]
      rfl

theorem plain_of_readState {ty : ValueType} {field : String} {state : NamedValue} (h : readState ty field = .ok state)
    (hkept : VariableDefinition.readType ty.name = ty) (hfloat : ty ≠ .float) (hcomma : ',' ∉ field.toList) :
    state.Plain ty := by
  obtain ⟨hname, hvalue⟩ := readState_eq_ok_iff.mp h
  rw [cut] at hname hvalue
  cases hcut : cutChars '=' field.toList with
  | none =>
    rw [hcut] at hname hvalue
    refine ⟨Value.plain_of_readValue hvalue hkept hfloat (by simp), ?_, ?_⟩
    · exact hname ▸ hcomma
    · exact hname ▸ not_mem_of_cutChars_eq_none hcut
  | some halves =>
    obtain ⟨name, text⟩ := halves
    obtain ⟨hsign, hfield⟩ := cutChars_eq_some hcut
    rw [hcut] at hname hvalue
    rw [hfield] at hcomma
    have hname : name = state.name.toList := by
      rw [← hname]
      exact String.toList_ofList.symm
    have hvalue : readValue "state" (String.ofList text) ty = .ok state.value := hvalue
    refine ⟨Value.plain_of_readValue hvalue hkept hfloat ?_, ?_, hname ▸ hsign⟩
    · rw [String.toList_ofList]
      exact fun hmem => hcomma (List.mem_append_right _ (List.mem_cons_of_mem _ hmem))
    · exact hname ▸ fun hmem => hcomma (List.mem_append_left _ hmem)

theorem plain_of_readStates {ty : ValueType} {fields : List String} {states : List NamedValue}
    (h : List.Forall₂ (fun field state => readState ty field = .ok state) fields states)
    (hkept : VariableDefinition.readType ty.name = ty) (hfloat : ty ≠ .float)
    (hcomma : ∀ field ∈ fields, ',' ∉ field.toList) : ∀ state ∈ states, state.Plain ty := by
  induction h with
  | nil =>
    intro state hstate
    cases hstate
  | cons hread _ ih =>
    intro state hstate
    rcases List.mem_cons.mp hstate with rfl | hstate
    · exact plain_of_readState hread hkept hfloat (hcomma _ List.mem_cons_self)
    · exact ih (fun field hfield => hcomma field (List.mem_cons_of_mem _ hfield)) state hstate

theorem cut_field {name text : String} (h : '=' ∉ name.toList) : cut '=' (name ++ "=" ++ text) = some (name, text) := by
  have hfield : (name ++ "=" ++ text).toList = name.toList ++ '=' :: text.toList := by simp
  rw [cut, hfield, cutChars_append h]
  simp

theorem Plain.comma_field {ty : ValueType} {state : NamedValue} (h : state.Plain ty) : ',' ∉ state.field.toList := by
  rw [field, String.toList_append, String.toList_append]
  simp [h.comma, h.value.comma]

theorem withoutEnd_field (state : NamedValue) :
    withoutEnd isLineEnd state.field = state.name ++ "=" ++ withoutEnd isLineEnd state.value.text := by
  refine String.toList_inj.mp ?_
  have hfield : state.field.toList = state.name.toList ++ '=' :: state.value.text.toList := by simp [field]
  rw [withoutEnd, String.toList_ofList, hfield, dropEndWhile_separated rfl]
  simp [withoutEnd]

/-- A named value that is read back without the line ends behind it has none. -/
theorem Plain.withoutEnd_field {ty : ValueType} {state : NamedValue} (h : state.Plain ty)
    (hread : readState ty (withoutEnd isLineEnd state.field) = .ok state) :
    withoutEnd isLineEnd state.field = state.field := by
  rw [NamedValue.withoutEnd_field, readState_eq_ok_iff, cut_field h.sign, ← h.value.type] at hread
  rw [NamedValue.withoutEnd_field, h.value.told.withoutEnd_text hread.2, field]

theorem Plain.readState {ty : ValueType} {state : NamedValue} (h : state.Plain ty) :
    readState ty state.field = .ok state := by
  rw [readState_eq_ok_iff, field, cut_field h.sign]
  exact ⟨rfl, h.value.readValue _⟩

end NamedValue

/-! ## Flags -/

namespace VariableFlags

/-- The bit of a letter. -/
abbrev bit (c : Char) : UInt16 := FlagSet.bitOf "RASLFPHEW" c

/-- All bits that have a letter. -/
def lettered : UInt16 := 0x1ff

theorem and_or_left (a b c : UInt16) : a &&& (b ||| c) = a &&& b ||| a &&& c :=
  UInt16.toBitVec_inj.mp (BitVec.and_or_distrib_left ..)

/-- A character has one bit or none. -/
theorem bit_cases (c : Char) : bit c = 0 ∨ ∃ i < 9, (bit c).toBitVec = BitVec.twoPow 16 i := by
  unfold bit FlagSet.bitOf
  split
  · rename_i i hi
    have hlt : i < 9 := (List.findIdx?_eq_some_iff_findIdx_eq.mp hi).1
    exact .inr ⟨i, hlt, (by decide : ∀ i < 9, (1 <<< UInt16.ofNat i : UInt16).toBitVec = BitVec.twoPow 16 i) i hlt⟩
  · exact .inl rfl

theorem and_bit (mask : UInt16) (c : Char) : mask &&& bit c = if mask &&& bit c != 0 then bit c else 0 := by
  rcases bit_cases c with hzero | ⟨i, -, hbit⟩
  · simp [hzero]
  · have hand : (mask &&& bit c).toBitVec = if mask.toBitVec.getLsbD i then (bit c).toBitVec else 0 := by
      rw [UInt16.toBitVec_and, hbit, BitVec.and_twoPow]
      rfl
    split at hand
    · have heq : mask &&& bit c = bit c := UInt16.toBitVec_inj.mp hand
      simp [heq]
    · have heq : mask &&& bit c = 0 := UInt16.toBitVec_inj.mp hand
      simp [heq]

theorem bit_and_lettered (c : Char) : bit c &&& lettered = bit c := by
  rcases bit_cases c with hzero | ⟨i, hi, hbit⟩
  · rw [hzero, UInt16.zero_and]
  · refine UInt16.toBitVec_inj.mp ?_
    rw [UInt16.toBitVec_and, hbit]
    exact (by decide : ∀ i < 9, BitVec.twoPow 16 i &&& lettered.toBitVec = BitVec.twoPow 16 i) i hi

/-- The bits of some letters beside those there are already. -/
theorem foldl_or (cs : List Char) (mask : UInt16) :
    cs.foldl (fun mask c => mask ||| bit c) mask = mask ||| cs.foldl (fun mask c => mask ||| bit c) 0 := by
  induction cs generalizing mask with
  | nil => simp
  | cons c cs ih =>
    rw [List.foldl_cons, List.foldl_cons, ih (mask ||| bit c), ih (0 ||| bit c), UInt16.zero_or, UInt16.or_assoc]

theorem foldl_and_lettered (cs : List Char) :
    cs.foldl (fun mask c => mask ||| bit c) 0 &&& lettered = cs.foldl (fun mask c => mask ||| bit c) 0 := by
  induction cs with
  | nil => rfl
  | cons c cs ih =>
    rw [List.foldl_cons, UInt16.zero_or, foldl_or, UInt16.and_comm, and_or_left, UInt16.and_comm, bit_and_lettered,
      UInt16.and_comm, ih]

/-- The letters whose bits a set has write the bits that they have in common. -/
theorem foldl_filter (mask : UInt16) (cs : List Char) :
    (cs.filter fun c => mask &&& bit c != 0).foldl (fun mask c => mask ||| bit c) 0 =
      mask &&& cs.foldl (fun mask c => mask ||| bit c) 0 := by
  induction cs with
  | nil => simp
  | cons c cs ih =>
    rw [List.foldl_cons, UInt16.zero_or, foldl_or cs, and_or_left, and_bit mask c, ← ih, List.filter_cons]
    split
    · rw [List.foldl_cons, UInt16.zero_or, foldl_or]
    · rw [UInt16.zero_or]

theorem comma_letters (flags : VariableFlags) : ',' ∉ flags.letters.toList := by
  rw [FlagSet.letters, String.toList_ofList]
  exact fun hmem => absurd (List.mem_of_mem_filter hmem) (by decide)

/-- A set of flags is the one that its letters write. -/
theorem ofLetters_letters (text : String) :
    (.ofLetters (FlagSet.ofLetters text : VariableFlags).letters : VariableFlags) = .ofLetters text := by
  refine congrArg FlagSet.mk ?_
  rw [FlagSet.letters, String.toList_ofList, foldl_filter]
  exact foldl_and_lettered _

end VariableFlags

end HostScript
