import HostScript.Value.Stream
import HostScript.Proofs.EscapedText
import HostScript.Proofs.Numerals
import Mathlib.Data.List.TakeDrop
import Mathlib.Data.Nat.Digits.Defs
/-!
# Values read back from a stream

The written form of a value is read as one of its type, and but for two kinds of values as the value
itself. The smallest integer has no magnitude that fits and comes back as its neighbour; a blob is read
through a text that is held to the limit of all texts, and its digits take twice its size, so that
of a blob larger than half the limit only the first half of the limit comes back. What a float is read
as depends on its decimal form and is left out here.
-/

set_option autoImplicit false

namespace HostScript

open HostScript.Text HostScript.Number

namespace Number

/-! ## Integers -/

/-- An integer held at the largest magnitude. -/
def held (n : Int) : Int := max (-maxMagnitude) (min n maxMagnitude)

/-- The decimal text of an integer. -/
theorem toList_toString (n : Int) :
    (toString n).toList = (if n < 0 then ['-'] else []) ++ Nat.toDigits 10 n.natAbs := by
  cases n with
  | ofNat n => exact String.toList_ofList
  | negSucc n =>
    have htext : toString (Int.negSucc n) = "-" ++ String.ofList (Nat.toDigits 10 (n + 1)) := rfl
    rw [htext, String.toList_append, if_pos (Int.negSucc_lt_zero n)]
    exact congrArg ('-' :: ·) String.toList_ofList

/-- It is read to its end, as this integer held at the largest magnitude. -/
theorem readInteger_decimal (n : Int) :
    readInteger (toString n).toList = ⟨Int64.ofInt (held n), (toString n).toList.length⟩ := by
  rw [toList_toString, ← List.append_nil (_ ++ _), List.append_assoc]
  split
  · have hheld : held n = -min (n.natAbs : Int) maxMagnitude := by
      simp only [held, maxMagnitude]
      omega
    rw [List.singleton_append, readInteger_neg_numeral n.natAbs ended_nil, hheld]
    simp [Nat.add_comm]
  · have hheld : held n = min (n.natAbs : Int) maxMagnitude := by
      simp only [held, maxMagnitude]
      omega
    rw [List.nil_append, readInteger_numeral n.natAbs ended_nil, hheld]
    simp

theorem readInteger_toString (n : Int) : (readInteger (toString n).toList).value = Int64.ofInt (held n) :=
  congrArg Reading.value (readInteger_decimal n)

/-- Of the 64-bit integers only the smallest is not read as itself. -/
theorem ofInt_held (n : Int64) :
    Int64.ofInt (held n.toInt) = if n = Int64.minValue then Int64.minValue + 1 else n := by
  have hlt := n.toInt_lt
  have hge := n.le_toInt
  split
  · subst_vars
    rfl
  · rename_i hmin
    have hne : n.toInt ≠ -2 ^ 63 := fun h => hmin (Int64.toInt_inj.mp h)
    have hheld : held n.toInt = n.toInt := by
      simp only [held, maxMagnitude]
      omega
    rw [hheld, Int64.ofInt_toInt]

/-- All characters of the decimal text are ASCII ones. -/
theorem toString_ascii (n : Int) : ∀ c ∈ (toString n).toList, c.toNat < 128 := by
  intro c hc
  rw [toList_toString, List.mem_append] at hc
  rcases hc with hsign | hdigit
  · have : c = '-' := by
      split at hsign <;> simp_all
    subst this
    decide
  · have := isDigit_iff.mp (isDigit_of_toDigits hdigit)
    omega

/-- A 64-bit integer is written with at most twenty characters. -/
theorem toString_length (n : Int64) : (toString n.toInt).toList.length ≤ 20 := by
  have hlt := n.toInt_lt
  have hge := n.le_toInt
  have hdigits := Nat.toDigits_length 10 n.toInt.natAbs 19 (by decide) (by omega)
  rw [toList_toString, List.length_append]
  split
  · rw [List.length_singleton]
    omega
  · rw [List.length_nil]
    omega

end Number

namespace Text

/-! ## The frame -/

theorem dropEndWhile_append {p : Char → Bool} {c : Char} (hc : p c = false) (cs : List Char) :
    dropEndWhile p (cs ++ [c]) = cs ++ [c] := by
  simp [dropEndWhile, hc]

/-- Text between two characters that are not blank has nothing to trim. -/
theorem trim_framed {first last : Char} (hf : isBlank first = false) (hl : isBlank last = false) (cs : List Char) :
    trim (String.ofList (first :: cs ++ [last])) = String.ofList (first :: cs ++ [last]) := by
  have hdrop : (first :: cs ++ [last]).dropWhile isBlank = first :: cs ++ [last] := by simp [hf]
  rw [trim, String.toList_ofList, hdrop, dropEndWhile_append hl]

/-- A text without blanks has nothing to trim. -/
theorem trim_unblank {s : String} (h : ∀ c ∈ s.toList, isBlank c = false) : trim s = s := by
  have hdrop : ∀ cs : List Char, (∀ c ∈ cs, isBlank c = false) → cs.dropWhile isBlank = cs := by
    rintro (_ | ⟨c, cs⟩) h
    · rfl
    · exact List.dropWhile_cons_of_neg (by simp [h c (List.mem_cons_self ..)])
  rw [trim, hdrop _ h, dropEndWhile, hdrop _ (by simpa using h), List.reverse_reverse, String.ofList_toList]

theorem cutChars_append {sep : Char} {before : List Char} (h : sep ∉ before) (after : List Char) :
    cutChars sep (before ++ sep :: after) = some (before, after) := by
  induction before with
  | nil => simp [cutChars]
  | cons c before ih =>
    obtain ⟨hc, hbefore⟩ := not_or.mp (mt List.mem_cons.mpr h)
    simp [cutChars, Ne.symm hc, ih hbefore]

end Text

namespace ValueType

theorem comma_not_mem (ty : ValueType) : ',' ∉ ty.name.toList := by cases ty <;> decide

/-- The name of a type is read as this type. -/
theorem ofName_name (ty : ValueType) : ofName (trim ty.name) = ty := by cases ty <;> decide

end ValueType

namespace Value

theorem between_framed (first last : Char) (cs : List Char) :
    between? first last (first :: cs ++ [last]) = some cs := by simp [between?]

/-- What the written form of a type and some content is read as: the content alone decides. -/
def ofContent (ty : ValueType) (content : String) : Value :=
  match ty with
  | .invalid => .invalid
  | .string => ofString (unescape content)
  | ty => ((ofString content).convert ty).1

theorem ofStream_framed (ty : ValueType) (content : String) :
    ofStream? ("(" ++ ty.name ++ ",\"" ++ content ++ "\")") = some (ofContent ty content) := by
  have htext : "(" ++ ty.name ++ ",\"" ++ content ++ "\")" =
      String.ofList ('(' :: (ty.name.toList ++ ',' :: ('"' :: content.toList ++ ['"'])) ++ [')']) := by
    apply String.toList_inj.mp
    simp
  rw [htext, ofStream?, trim_framed rfl rfl, String.toList_ofList, between_framed]
  simp only [Option.bind_eq_bind, Option.bind_some, cutChars_append ty.comma_not_mem, between_framed,
    String.ofList_toList, ty.ofName_name]
  cases ty <;> rfl

/-! ## Contents by type -/

/-- The size of a text or blob in bytes, which is what is limited of a value. -/
def payloadSize : Value → Nat
  | .str s => s.utf8ByteSize
  | .binary bytes | .custom bytes => bytes.length
  | _ => 0

/-- The largest blob whose digits fit a text. -/
def writtenLimit : Nat := payloadLimit / 2

/-- What is left of a value that was written and read again. -/
def streamed : Value → Value
  | .int n => .int (if n = Int64.minValue then Int64.minValue + 1 else n)
  | .str s => ofString s
  | .binary bytes => .binary (bytes.take writtenLimit)
  | .custom bytes => .custom (bytes.take writtenLimit)
  | v => v

/-- The text of an integer fits. -/
theorem ofString_toString (n : Int64) : ofString (toString n.toInt) = .str (toString n.toInt) := by
  refine congrArg Value.str (fit_of_le ?_)
  rw [utf8ByteSize_eq, bytes_ascii (toString_ascii _), List.length_map]
  exact (toString_length n).trans (by decide)

theorem ofContent_integer (n : Int64) :
    ofContent .integer (toString n.toInt) = .int (if n = Int64.minValue then Int64.minValue + 1 else n) := by
  simp only [ofContent, ofString_toString, convert, type, coerceInt, readInteger_toString, ofInt_held]
  rfl

/-- The bytes that a text of digits stands for, of which a text holds no more than the limit. -/
theorem coerceBytes_toHex (blob : List UInt8) :
    (ofString (toHex blob)).coerceBytes = ⟨blob.take writtenLimit, true⟩ := by
  have hascii : ∀ c ∈ (fit payloadLimit (toHex blob)).toList, c.toNat < 128 := by
    intro c hc
    rw [toList_fit_ascii (fun c hc => hexChars_ascii (toList_toHex blob ▸ hc)), toList_toHex] at hc
    exact hexChars_ascii (List.mem_of_mem_take hc)
  have hchars : (utf8 (fit payloadLimit (toHex blob))).map (fun b => Char.ofNat b.toNat) =
      (hexChars blob).take payloadLimit := by
    rw [utf8_eq_bytes]
    refine (map_shown_ascii hascii).trans ?_
    rw [toList_fit_ascii (fun c hc => hexChars_ascii (toList_toHex blob ▸ hc)), toList_toHex]
  simp only [coerceBytes, ofString, blob?, text, hchars, fromHexChars_take]
  rfl

theorem take_writtenLimit (blob : List UInt8) :
    (blob.take writtenLimit).take payloadLimit = blob.take writtenLimit :=
  List.take_of_length_le ((List.length_take_le _ _).trans (by decide))

/-- Every value but a float is read as what is left of it. -/
theorem ofStream_toStream {v : Value} (hv : v.type ≠ .float) : ofStream? v.toStream = some v.streamed := by
  rw [toStream, ofStream_framed]
  refine congrArg some ?_
  cases v with
  | invalid => rfl
  | undefined => rfl
  | float x => exact absurd rfl hv
  | int n => exact ofContent_integer n
  | str s => exact congrArg ofString (unescape_escape (by simp) s)
  | binary blob =>
    have hblob : ofContent .binary (toHex blob) = ofBytes (ofString (toHex blob)).coerceBytes.value := rfl
    rw [coerceBytes_toHex] at hblob
    exact hblob.trans (congrArg Value.binary (take_writtenLimit blob))
  | custom blob =>
    have hblob : ofContent .custom (toHex blob) = ofCustom (ofString (toHex blob)).coerceBytes.value := rfl
    rw [coerceBytes_toHex] at hblob
    exact hblob.trans (congrArg Value.custom (take_writtenLimit blob))

theorem streamed_type (v : Value) : v.streamed.type = v.type := by cases v <;> rfl

/-- Which values within the limit nothing is lost of. -/
theorem streamed_eq_iff {v : Value} (hsize : v.payloadSize ≤ payloadLimit) :
    v.streamed = v ↔
      v ≠ .int Int64.minValue ∧ ∀ blob, v.blob? = some blob → blob.length ≤ writtenLimit := by
  cases v with
  | invalid => simp [streamed, blob?]
  | undefined => simp [streamed, blob?]
  | float x => simp [streamed, blob?]
  | int n =>
    by_cases hn : n = Int64.minValue
    · subst hn
      simp [streamed]
    · simp [streamed, blob?, hn]
  | str s =>
    have hfit : fit payloadLimit s = s := fit_of_le hsize
    simp [streamed, ofString, hfit, blob?]
  | binary blob => simp [streamed, blob?, List.take_eq_self_iff]
  | custom blob => simp [streamed, blob?, List.take_eq_self_iff]

/-- A value within the limits is read back as one of its type, and as itself unless it is the smallest
integer or a blob whose digits do not fit a text. -/
theorem stream_round_trip_iff {v : Value} (hv : v.type ≠ .float) (hsize : v.payloadSize ≤ payloadLimit) :
    (∃ w, ofStream? v.toStream = some w ∧ w.type = v.type) ∧
      (ofStream? v.toStream = some v ↔
        v ≠ .int Int64.minValue ∧ ∀ blob, v.blob? = some blob → blob.length ≤ writtenLimit) := by
  refine ⟨⟨v.streamed, ofStream_toStream hv, v.streamed_type⟩, ?_⟩
  rw [ofStream_toStream hv, Option.some_inj, streamed_eq_iff hsize]

/-- Both kinds of values that are lost in a stream. -/
theorem extreme_values_lost :
    ofStream? (Value.int Int64.minValue).toStream ≠ some (.int Int64.minValue) ∧
      ofStream? (Value.binary (List.replicate 65535 0)).toStream ≠ some (.binary (List.replicate 65535 0)) := by
  constructor
  · intro h
    exact ((stream_round_trip_iff (by decide) (by decide)).2.mp h).1 rfl
  · intro h
    have hsize : (Value.binary (List.replicate 65535 0)).payloadSize ≤ payloadLimit :=
      List.length_replicate.le
    have hfits := ((stream_round_trip_iff (by decide) hsize).2.mp h).2 _ rfl
    rw [List.length_replicate] at hfits
    exact absurd hfits (by decide)

end Value

end HostScript
