import HostScript.Expression.Token
import Mathlib.Tactic.IntervalCases
/-!
# Decimal numerals

A number written in decimal digits, with nothing after it that could belong to it, is read back as
the integer it was written from. The engine reads every numeral twice, as an integer and as a float;
on decimal digits both readings take the same characters, and the integer wins.
-/

namespace HostScript

/-! ## Characters by code -/

namespace Text

theorem le_iff_toNat {c d : Char} : c ≤ d ↔ c.toNat ≤ d.toNat := UInt32.le_iff_toNat_le

theorem isDigit_iff {c : Char} : c.isDigit = true ↔ 48 ≤ c.toNat ∧ c.toNat ≤ 57 := by
  simp only [Char.isDigit, Bool.and_eq_true, decide_eq_true_eq, ge_iff_le, UInt32.le_iff_toNat_le]
  rfl

theorem isAlpha_iff {c : Char} :
    c.isAlpha = true ↔ (65 ≤ c.toNat ∧ c.toNat ≤ 90) ∨ (97 ≤ c.toNat ∧ c.toNat ≤ 122) := by
  have hrange : c.isAlpha = (decide (c.val ≥ 65 ∧ c.val ≤ 90) || decide (c.val ≥ 97) && decide (c.val ≤ 122)) := rfl
  simp only [hrange, Bool.or_eq_true, Bool.and_eq_true, decide_eq_true_eq, ge_iff_le, UInt32.le_iff_toNat_le]
  rfl

theorem isNameChar_iff {c : Char} : isNameChar c = true ↔ c.isAlpha = true ∨ c = '_' ∨ c.isDigit = true := by
  simp [isNameChar, isNameStart, or_assoc]

theorem isBlank_of_isNameChar {c : Char} (hc : isNameChar c = true) : isBlank c = false := by
  have hcode : (65 ≤ c.toNat ∧ c.toNat ≤ 90) ∨ (97 ≤ c.toNat ∧ c.toNat ≤ 122) ∨ c.toNat = 95 ∨
      (48 ≤ c.toNat ∧ c.toNat ≤ 57) := by
    rcases isNameChar_iff.mp hc with hc | rfl | hc
    · have := isAlpha_iff.mp hc
      omega
    · decide
    · have := isDigit_iff.mp hc
      omega
  simp only [isBlank, Bool.or_eq_false_iff, Bool.and_eq_false_iff, decide_eq_false_iff_not, beq_eq_false_iff_ne]
  omega

/-- No digit starts a name. -/
theorem isDigit_of_start {c : Char} (hc : isNameStart c = true) : c.isDigit = false := by
  refine Bool.eq_false_iff.mpr fun hdigit => ?_
  have hcode := isDigit_iff.mp hdigit
  rcases Bool.or_eq_true_iff.mp hc with halpha | hunderscore
  · have hletter := isAlpha_iff.mp halpha
    omega
  · rw [eq_of_beq hunderscore] at hcode
    exact absurd hcode (by decide)

/-- What holds of the four white characters holds of every white one. -/
theorem of_isWhite {P : Char → Bool} (hP : [' ', '\t', '\n', '\r'].all P = true) {c : Char} (hc : isWhite c = true) :
    P c = true := by
  refine List.all_eq_true.mp hP c ?_
  simpa [isWhite, or_assoc] using hc

theorem isNameChar_of_isWhite {c : Char} (hc : isWhite c = true) : isNameChar c = false := by
  have h := of_isWhite (P := fun c => !isNameChar c) rfl hc
  simpa using h

/-- A digit is not white and not one of the characters that announce something else. -/
theorem isDigit_ne {c d : Char} (h : c.isDigit = true) (hd : d.isDigit = false) : c ≠ d := by
  rintro rfl
  simp [h] at hd

theorem isSpace_of_isDigit {c : Char} (h : c.isDigit = true) : isSpace c = false := by
  simp [isSpace, isWhite, isDigit_ne h (d := ' ') rfl, isDigit_ne h (d := '\t') rfl,
    isDigit_ne h (d := '\n') rfl, isDigit_ne h (d := '\r') rfl, isDigit_ne h (d := '\x0c') rfl]

theorem toLower_of_isDigit {c : Char} (h : c.isDigit = true) : c.toLower = c := by
  rw [isDigit_iff] at h
  have hu : ¬(c.val ≥ 'A'.val ∧ c.val ≤ 'Z'.val) := by
    simp only [ge_iff_le, UInt32.le_iff_toNat_le]
    exact fun hu => absurd (hu.1.trans h.2) (by decide)
  exact dif_neg hu

end Text

theorem Token.skipWhite_length (cs : List Char) : (skipWhite cs).length ≤ cs.length :=
  (List.dropWhile_sublist _).length_le

namespace Number

open HostScript.Text HostScript.Token

/-- What follows a numeral does not go on with it. -/
def Ended (rest : List Char) : Prop := ∀ c ∈ rest.head?, isNameChar c = false ∧ c ≠ '.'

theorem ended_nil : Ended [] := by simp [Ended]

theorem ended_cons {c : Char} {rest : List Char} (hn : isNameChar c = false) (hd : c ≠ '.') :
    Ended (c :: rest) := by
  simp [Ended, hn, hd]

theorem ended_ne {c d : Char} {rest : List Char} (h : Ended (c :: rest)) (hd : isNameChar d = true) : c ≠ d := by
  rintro rfl
  simp [(h c rfl).1] at hd

/-! ## Digits -/

theorem digitValue_ten {c : Char} (h : c.isDigit) : digitValue? 10 c = some (c.toNat - 48) := by
  have hlt : c.toNat - 48 < 10 := by
    rw [isDigit_iff] at h
    omega
  simp [digitValue?, h, Option.filter, hlt]

theorem digitValue_none (base : Nat) {c : Char} (h : isNameChar c = false) : digitValue? base c = none := by
  have hn : ¬(c.isAlpha = true ∨ c = '_' ∨ c.isDigit = true) := by simp [← isNameChar_iff, h]
  simp only [not_or, isAlpha_iff, Bool.not_eq_true] at hn
  obtain ⟨ha, -, hd⟩ := hn
  have hl : ¬('a' ≤ c ∧ c ≤ 'f') := by
    simp only [le_iff_toNat, Char.reduceToNat]
    omega
  have hu : ¬('A' ≤ c ∧ c ≤ 'F') := by
    simp only [le_iff_toNat, Char.reduceToNat]
    omega
  simp [digitValue?, hd, hl, hu]

theorem leadingDigits_ended (base : Nat) {rest : List Char} (h : Ended rest) : leadingDigits base rest = [] := by
  cases rest with
  | nil => rfl
  | cons c rest => simp [leadingDigits, digitValue_none base (h c rfl).1]

theorem leadingDigits_append {ds rest : List Char} (hd : ∀ c ∈ ds, c.isDigit) (hr : Ended rest) :
    leadingDigits 10 (ds ++ rest) = ds.map (·.toNat - 48) := by
  induction ds with
  | nil => simpa using leadingDigits_ended 10 hr
  | cons c ds ih =>
    simp [leadingDigits, digitValue_ten (hd c (by simp)), ih fun c hc => hd c (by simp [hc])]

theorem ofDigits_map (ds : List Char) (init : Nat) :
    (ds.map (·.toNat - 48)).foldl (fun n d => n * 10 + d) init = Nat.ofDigitChars 10 ds init := by
  induction ds generalizing init with
  | nil => simp
  | cons c ds ih => simp [Nat.ofDigitChars_cons, ih, Nat.mul_comm]

/-- The digits of a number write it. -/
theorem ofDigits_toDigits (n : Nat) : ofDigits 10 ((Nat.toDigits 10 n).map (·.toNat - 48)) = n := by
  rw [ofDigits, ofDigits_map, Nat.ofDigitChars_ten_toDigits]

theorem isDigit_of_toDigits {n : Nat} {c : Char} (h : c ∈ Nat.toDigits 10 n) : c.isDigit = true :=
  Nat.isDigit_of_mem_toDigits (by decide) (by decide) h

/-- Only zero is written with a leading zero, and it has no other digit. -/
theorem toDigits_cases (n : Nat) :
    (n = 0 ∧ Nat.toDigits 10 n = ['0']) ∨
      ∃ c ds, Nat.toDigits 10 n = c :: ds ∧ c.isDigit ∧ c ≠ '0' := by
  induction n using Nat.strongRecOn with
  | _ n ih =>
    rw [Nat.toDigits_eq_if (by decide)]
    split
    · rename_i hn
      interval_cases n
      · exact .inl ⟨rfl, rfl⟩
      all_goals exact .inr ⟨_, [], rfl, by decide, by decide⟩
    · rename_i hn
      rcases ih (n / 10) (by omega) with ⟨h0, -⟩ | ⟨c, ds, he, hc, h0⟩
      · omega
      · exact .inr ⟨c, _, by rw [he]; rfl, hc, h0⟩

/-! ## Numerals -/

theorem detectBase_of_ne_zero {c : Char} (rest : List Char) (h : c ≠ '0') : detectBase (c :: rest) = (10, 0) := by
  unfold detectBase
  split <;> simp_all

theorem detectBase_zero {rest : List Char} (h : Ended rest) : detectBase ('0' :: rest) = (8, 0) := by
  cases rest with
  | nil => rfl
  | cons x rest =>
    have hx : x ≠ 'x' ∧ x ≠ 'X' := ⟨ended_ne h rfl, ended_ne h rfl⟩
    cases rest <;> simp [detectBase, hx]

/-- Digits are no sign. -/
theorem signOf_of_isDigit {c : Char} (h : c.isDigit = true) (rest : List Char) : signOf (c :: rest) = (false, 0) := by
  have hsign : c ≠ '-' ∧ c ≠ '+' := ⟨isDigit_ne h rfl, isDigit_ne h rfl⟩
  unfold signOf
  split <;> simp_all

/-- The digits of a number are all that is read of it, and in whatever base its first digit announces they
write this number. -/
theorem leadingDigits_toDigits (n : Nat) {rest : List Char} (hr : Ended rest) :
    ∃ base digits, detectBase (Nat.toDigits 10 n ++ rest) = (base, 0) ∧
      leadingDigits base (Nat.toDigits 10 n ++ rest) = digits ∧ ofDigits base digits = n ∧
      digits.length = (Nat.toDigits 10 n).length := by
  rcases toDigits_cases n with ⟨rfl, hz⟩ | ⟨c, ds, he, hc, h0⟩
  · refine ⟨8, [0], ?_, ?_, rfl, by rw [hz]; rfl⟩
    · rw [hz, List.singleton_append, detectBase_zero hr]
    · simp [hz, leadingDigits, leadingDigits_ended 8 hr, show digitValue? 8 '0' = some 0 from rfl]
  · refine ⟨10, _, ?_, leadingDigits_append (fun c => isDigit_of_toDigits) hr, ofDigits_toDigits n, List.length_map _⟩
    rw [he, List.cons_append, detectBase_of_ne_zero _ h0]

/-- The digits of a number start with a digit. -/
theorem toDigits_head (n : Nat) : ∃ c ds, Nat.toDigits 10 n = c :: ds ∧ c.isDigit = true := by
  rcases toDigits_cases n with ⟨-, hz⟩ | ⟨c, ds, he, hc, -⟩
  · exact ⟨_, _, hz, rfl⟩
  · exact ⟨c, ds, he, hc⟩

/-- A numeral is read as the integer it writes, held at the largest magnitude. -/
theorem readInteger_numeral (n : Nat) {rest : List Char} (hr : Ended rest) :
    readInteger (Nat.toDigits 10 n ++ rest) =
      ⟨Int64.ofInt (min (n : Int) maxMagnitude), (Nat.toDigits 10 n).length⟩ := by
  obtain ⟨base, digits, hbase, hdigits, hvalue, hlength⟩ := leadingDigits_toDigits n hr
  obtain ⟨c, ds, he, hc⟩ := toDigits_head n
  rw [he, List.cons_append] at hbase hdigits
  rw [he] at hlength ⊢
  have hne : digits ≠ [] := List.ne_nil_of_length_pos (by simp [hlength])
  simp [readInteger, isSpace_of_isDigit hc, signOf_of_isDigit hc, hbase, hdigits, hne, hvalue, hlength]

/-- The same for a numeral after a minus sign. -/
theorem readInteger_neg_numeral (n : Nat) {rest : List Char} (hr : Ended rest) :
    readInteger ('-' :: (Nat.toDigits 10 n ++ rest)) =
      ⟨Int64.ofInt (-min (n : Int) maxMagnitude), 1 + (Nat.toDigits 10 n).length⟩ := by
  obtain ⟨base, digits, hbase, hdigits, hvalue, hlength⟩ := leadingDigits_toDigits n hr
  have hne : digits ≠ [] :=
    List.ne_nil_of_length_pos (hlength ▸ List.length_pos_iff.mpr Nat.toDigits_ne_nil)
  have hspace : isSpace '-' = false := rfl
  simp [readInteger, hspace, signOf, hbase, hdigits, hne, hvalue, hlength]

/-- A numeral up to the largest magnitude is read as the integer it writes. -/
theorem readInteger_toDigits {n : Nat} {rest : List Char} (hn : n ≤ maxMagnitude) (hr : Ended rest) :
    readInteger (Nat.toDigits 10 n ++ rest) = ⟨Int64.ofNat n, (Nat.toDigits 10 n).length⟩ := by
  have hm : min (n : Int) maxMagnitude = n := by omega
  rw [readInteger_numeral n hr, hm, Int64.ofInt_eq_ofNat]

theorem startsWithWord_of_ne {w : String} {c d : Char} {ds : List Char} (rest : List Char)
    (hw : w.toList = d :: ds) (hc : c.toLower ≠ d) : startsWithWord w (c :: rest) = false := by
  have hl : w.length = ds.length + 1 := by rw [← String.length_toList, hw, List.length_cons]
  simp [startsWithWord, hw, hl, hc]

theorem floatWords_none {c : Char} (hc : c.isDigit = true) (rest : List Char) :
    (floatWords.find? fun w => startsWithWord w.1 (c :: rest)) = none := by
  have hi : c.toLower ≠ 'i' := by
    rw [toLower_of_isDigit hc]
    exact isDigit_ne hc rfl
  have hn : c.toLower ≠ 'n' := by
    rw [toLower_of_isDigit hc]
    exact isDigit_ne hc rfl
  simp [floatWords, startsWithWord_of_ne rest (w := "infinity") rfl hi,
    startsWithWord_of_ne rest (w := "inf") rfl hi, startsWithWord_of_ne rest (w := "nan") rfl hn]

theorem readExponent_ended {rest : List Char} (h : Ended rest) : readExponent rest = ⟨0, 0⟩ := by
  cases rest with
  | nil => rfl
  | cons e rest =>
    have he : e ≠ 'e' ∧ e ≠ 'E' := ⟨ended_ne h rfl, ended_ne h rfl⟩
    simp [readExponent, he]

/-- Reading a float takes no more of a numeral than reading an integer. -/
theorem readFloat_used (n : Nat) {rest : List Char} (hr : Ended rest) :
    (readFloat (Nat.toDigits 10 n ++ rest)).used = (Nat.toDigits 10 n).length := by
  have hd : leadingDigits 10 (Nat.toDigits 10 n ++ rest) = (Nat.toDigits 10 n).map (·.toNat - 48) :=
    leadingDigits_append (fun c => isDigit_of_toDigits) hr
  obtain ⟨c, ds, he, hc⟩ := toDigits_head n
  have hs : signOf (c :: (ds ++ rest)) = (false, 0) := signOf_of_isDigit hc _
  have hp : rest.head? ≠ some '.' := fun hp => (hr _ hp).2 rfl
  rw [he] at hd ⊢
  simp only [List.cons_append] at hd
  simp [readFloat, isSpace_of_isDigit hc, hs, floatWords_none hc, readDecimal, hd, hp, readExponent_ended hr]

/-- A numeral is read as an integer, and the white space after it goes. -/
theorem readNumber_toDigits {n : Nat} {rest : List Char} (hn : n ≤ maxMagnitude) (hr : Ended rest) :
    readNumber (Nat.toDigits 10 n ++ rest) = (.int (Int64.ofNat n), Token.skipWhite rest) := by
  have hpos : 0 < (Nat.toDigits 10 n).length := List.length_pos_iff.mpr Nat.toDigits_ne_nil
  have hmax : max (Nat.toDigits 10 n).length 1 = (Nat.toDigits 10 n).length := by omega
  simp [readNumber, readInteger_toDigits hn hr, readFloat_used n hr, hmax]

end Number

end HostScript
