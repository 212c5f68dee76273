import HostScript.Proofs.Assignments
import HostScript.Proofs.CursorTerms
import HostScript.Proofs.Numerals
/-!
# Texts inside of a group

Whatever reads a name, a number, a quoted text, signs or an operator stops at a closing parenthesis where it
would have stopped at the end of the text. So from a text that goes on behind such a parenthesis the same is read
as from the text alone, and what is left is followed by the same. Only a text that ends too early is different,
which is why the readers that can fail are compared where they succeed.
-/

set_option autoImplicit false

namespace HostScript

open HostScript.Text HostScript.Token HostScript.Number

/-- A text up to a closing parenthesis, and what stands behind it. -/
def Token.enclosed (tail cs : List Char) : List Char := cs ++ ')' :: tail

variable (tail : List Char) {cs : List Char}

namespace Token

@[simp]
theorem enclosed_nil : enclosed tail [] = ')' :: tail := rfl

@[simp]
theorem enclosed_cons (c : Char) (cs : List Char) : enclosed tail (c :: cs) = c :: enclosed tail cs := rfl

theorem length_enclosed (cs : List Char) : (enclosed tail cs).length = cs.length + (tail.length + 1) := by
  simp [enclosed]

theorem drop_enclosed {n : Nat} (hn : n ≤ cs.length) : (enclosed tail cs).drop n = enclosed tail (cs.drop n) :=
  List.drop_append_of_le_length hn

/-- What does not hold of the parenthesis holds of no more characters at the front. -/
theorem takeWhile_enclosed {p : Char → Bool} (hp : p ')' = false) (cs : List Char) :
    (enclosed tail cs).takeWhile p = cs.takeWhile p := by
  induction cs with
  | nil => simp [hp]
  | cons c cs ih => simp [List.takeWhile_cons, ih]

theorem dropWhile_enclosed {p : Char → Bool} (hp : p ')' = false) (cs : List Char) :
    (enclosed tail cs).dropWhile p = enclosed tail (cs.dropWhile p) := by
  induction cs with
  | nil => simp [hp]
  | cons c cs ih =>
    rw [enclosed_cons, List.dropWhile_cons, List.dropWhile_cons, ih]
    split <;> rfl

theorem skipWhite_enclosed (cs : List Char) : skipWhite (enclosed tail cs) = enclosed tail (skipWhite cs) :=
  dropWhile_enclosed tail (by decide) cs

/-! ## Names -/

theorem readName_enclosed {name : String} {rest : List Char} (h : readName cs = .ok (name, rest)) :
    readName (enclosed tail cs) = .ok (name, enclosed tail rest) := by
  have hword := takeWhile_enclosed tail (p := isNameChar) (by decide) cs
  have hfits : (cs.takeWhile isNameChar).length ≤ cs.length := (List.takeWhile_sublist _).length_le
  unfold readName at h ⊢
  rw [hword]
  dsimp only at h ⊢
  split at h
  · cases h
  · split at h
    · cases h
    · rename_i hshort hnonempty
      cases h
      rw [if_neg hshort, if_neg hnonempty, drop_enclosed tail hfits, skipWhite_enclosed]

end Token

/-! ## Numbers -/

namespace Number

theorem signOf_enclosed (cs : List Char) : signOf (enclosed tail cs) = signOf cs := by
  cases cs with
  | nil => rfl
  | cons c cs => rw [enclosed_cons]; unfold signOf; split <;> simp_all

theorem leadingDigits_enclosed (base : Nat) (cs : List Char) :
    leadingDigits base (enclosed tail cs) = leadingDigits base cs := by
  induction cs with
  | nil =>
    rw [enclosed_nil]
    exact leadingDigits_ended base (ended_cons (by decide) (by decide))
  | cons c cs ih => simp only [enclosed_cons, leadingDigits, ih]

/-- The parenthesis is no hexadecimal digit, so that a lone `0x` stays one. -/
theorem detectBase_enclosed (cs : List Char) : detectBase (enclosed tail cs) = detectBase cs := by
  match cs with
  | [] => rfl
  | [c] =>
    by_cases hc : c = '0'
    · subst hc
      exact detectBase_zero (ended_cons (by decide) (by decide))
    · rw [enclosed_cons, detectBase_of_ne_zero _ hc, detectBase_of_ne_zero _ hc]
  | [c, x] =>
    by_cases hc : c = '0'
    · subst hc
      have hdigit : isHexDigit ')' = false := by decide
      simp [detectBase, hdigit]
    · rw [enclosed_cons, detectBase_of_ne_zero _ hc, detectBase_of_ne_zero _ hc]
  | c :: x :: d :: cs =>
    by_cases hc : c = '0'
    · subst hc
      rfl
    · rw [enclosed_cons, detectBase_of_ne_zero _ hc, detectBase_of_ne_zero _ hc]

theorem readInteger_enclosed (cs : List Char) : readInteger (enclosed tail cs) = readInteger cs := by
  have hspaces := takeWhile_enclosed tail (p := isSpace) (by decide) cs
  have hfits : (cs.takeWhile isSpace).length ≤ cs.length := (List.takeWhile_sublist _).length_le
  unfold readInteger
  dsimp only
  rw [hspaces, drop_enclosed tail hfits, signOf_enclosed]
  have hsign := signOf_le (cs.drop (cs.takeWhile isSpace).length)
  generalize signOf (cs.drop (cs.takeWhile isSpace).length) = sign at hsign ⊢
  obtain ⟨negative, sign⟩ := sign
  rw [List.length_drop] at hsign
  dsimp only
  rw [drop_enclosed tail (by omega), detectBase_enclosed]
  have hmark := detectBase_le (cs.drop ((cs.takeWhile isSpace).length + sign))
  generalize detectBase (cs.drop ((cs.takeWhile isSpace).length + sign)) = mark at hmark ⊢
  obtain ⟨base, mark⟩ := mark
  dsimp only at hmark ⊢
  rw [drop_enclosed tail hmark, leadingDigits_enclosed]

/-- No word that is read as a float has a parenthesis in it. -/
theorem startsWithWord_enclosed {word : String} (hword : ')' ∉ word.toList) (cs : List Char) :
    startsWithWord word (enclosed tail cs) = startsWithWord word cs := by
  unfold startsWithWord
  by_cases hfits : word.length ≤ cs.length
  · rw [enclosed, List.take_append_of_le_length hfits]
  · -- a text that is too short does not start with the word, whatever follows the parenthesis
    have hshort : ((cs.take word.length).map Char.toLower == word.toList) = false := by
      rw [beq_eq_false_iff_ne]
      intro heq
      have hlength := congrArg List.length heq
      rw [List.length_map, List.length_take, String.length_toList] at hlength
      omega
    rw [hshort, beq_eq_false_iff_ne]
    intro heq
    apply hword
    rw [← heq]
    refine List.mem_map.mpr ⟨')', ?_, by decide⟩
    rw [enclosed, List.take_append, List.mem_append]
    right
    obtain ⟨n, hn⟩ := Nat.exists_eq_add_of_lt (Nat.not_le.mp hfits)
    rw [show word.length - cs.length = n + 1 by omega, List.take_succ_cons]
    exact List.mem_cons_self

theorem readExponent_enclosed (cs : List Char) : readExponent (enclosed tail cs) = readExponent cs := by
  cases cs with
  | nil => exact readExponent_ended (ended_cons (by decide) (by decide))
  | cons e cs =>
    rw [enclosed_cons]
    unfold readExponent
    dsimp only
    rw [signOf_enclosed]
    have hsign := signOf_le cs
    generalize signOf cs = sign at hsign ⊢
    obtain ⟨negative, sign⟩ := sign
    dsimp only at hsign ⊢
    rw [drop_enclosed tail hsign, leadingDigits_enclosed]

theorem head_enclosed {c : Char} (hc : c ≠ ')') (cs : List Char) :
    ((enclosed tail cs).head? == some c) = (cs.head? == some c) := by
  cases cs with
  | nil => simpa using Ne.symm hc
  | cons d cs => rfl

theorem readDecimal_enclosed (negative : Bool) (before : Nat) (cs : List Char) :
    readDecimal negative before (enclosed tail cs) = readDecimal negative before cs := by
  have hwhole := leadingDigits_length 10 cs
  unfold readDecimal
  rw [leadingDigits_enclosed]
  generalize leadingDigits 10 cs = whole at hwhole ⊢
  dsimp only
  rw [drop_enclosed tail hwhole, head_enclosed tail (by decide)]
  have hfraction := fraction_le (cs.drop whole.length)
  by_cases hpoint : (cs.drop whole.length).head? == some '.'
  · obtain ⟨rest, hrest⟩ : ∃ rest, cs.drop whole.length = '.' :: rest := by
      cases hdrop : cs.drop whole.length with
      | nil => simp [hdrop] at hpoint
      | cons c rest =>
        rw [hdrop] at hpoint
        obtain rfl : c = '.' := by simpa using hpoint
        exact ⟨rest, rfl⟩
    simp only [hpoint, if_true] at hfraction ⊢
    rw [hrest, enclosed_cons, List.tail_cons, List.tail_cons, leadingDigits_enclosed, ← enclosed_cons]
    rw [hrest, List.tail_cons] at hfraction
    rw [drop_enclosed tail hfraction, readExponent_enclosed]
  · simp only [hpoint, Bool.false_eq_true, if_false] at hfraction ⊢
    rw [drop_enclosed tail hfraction, readExponent_enclosed]

theorem readFloat_enclosed (cs : List Char) : readFloat (enclosed tail cs) = readFloat cs := by
  have hspaces := takeWhile_enclosed tail (p := isSpace) (by decide) cs
  have hfits : (cs.takeWhile isSpace).length ≤ cs.length := (List.takeWhile_sublist _).length_le
  unfold readFloat
  dsimp only
  rw [hspaces, drop_enclosed tail hfits, signOf_enclosed]
  have hsign := signOf_le (cs.drop (cs.takeWhile isSpace).length)
  generalize signOf (cs.drop (cs.takeWhile isSpace).length) = sign at hsign ⊢
  obtain ⟨negative, sign⟩ := sign
  rw [List.length_drop] at hsign
  dsimp only
  rw [drop_enclosed tail (by omega)]
  generalize cs.drop ((cs.takeWhile isSpace).length + sign) = number
  have hwords : (floatWords.find? fun w => startsWithWord w.1 (enclosed tail number)) =
      floatWords.find? fun w => startsWithWord w.1 number := by
    simp only [floatWords, List.find?_cons, List.find?_nil]
    rw [startsWithWord_enclosed tail (by decide), startsWithWord_enclosed tail (by decide),
      startsWithWord_enclosed tail (by decide)]
  rw [hwords, readDecimal_enclosed]

end Number

namespace Token

/-- Where there is nothing, a number would take the parenthesis. -/
theorem readNumber_enclosed (hcs : cs ≠ []) :
    readNumber (enclosed tail cs) = ((readNumber cs).1, enclosed tail (readNumber cs).2) := by
  have hint := readInteger_used_le cs
  have hfloat := readFloat_used_le cs
  have hpos := List.length_pos_iff.mpr hcs
  unfold readNumber
  rw [readInteger_enclosed, readFloat_enclosed]
  dsimp only
  split
  · rw [drop_enclosed tail hfloat, skipWhite_enclosed]
  · rw [drop_enclosed tail (by omega), skipWhite_enclosed]

/-- A number takes a character even where none of it can be read. -/
theorem readNumber_length (hcs : cs ≠ []) : (readNumber cs).2.length < cs.length := by
  have hpos := List.length_pos_iff.mpr hcs
  unfold readNumber
  dsimp only
  split
  · have hrest := skipWhite_length (cs.drop (readFloat cs).used)
    rw [List.length_drop] at hrest
    dsimp only
    omega
  · have hrest := skipWhite_length (cs.drop (max (readInteger cs).used 1))
    rw [List.length_drop] at hrest
    dsimp only
    omega

/-! ## Quoted texts -/

theorem untilQuote_enclosed {w rest : List Char} (h : untilQuote cs = some (w, rest)) :
    untilQuote (enclosed tail cs) = some (w, enclosed tail rest) := by
  have hcs : enclosed tail cs = w ++ '"' :: enclosed tail rest := by
    rw [untilQuote_eq h, enclosed, List.append_assoc]
    rfl
  rw [hcs]
  exact untilQuote_closed h _

/-- There are enough rounds for all the segments of a text that is not longer. -/
theorem segments_enclosed {n m : Nat} {w rest : List Char} (h : segments n cs = some (w, rest)) (hn : cs.length ≤ n)
    (hm : n ≤ m) : segments m (enclosed tail cs) = some (w, enclosed tail rest) := by
  induction n generalizing m cs w with
  | zero =>
    obtain rfl := List.eq_nil_of_length_eq_zero (Nat.le_zero.mp hn)
    cases h
    exact segments_end (by simp)
  | succ n ih =>
    obtain ⟨m, rfl⟩ := Nat.exists_eq_add_of_le' (Nat.lt_of_lt_of_le (Nat.succ_pos n) hm)
    by_cases hcs : cs.headD '\x00' = '"'
    · obtain ⟨cs, rfl⟩ := exists_of_headD hcs (by decide)
      rw [segments] at h
      obtain ⟨⟨w', rest'⟩, hquote, h⟩ := Option.bind_eq_some_iff.mp h
      obtain ⟨⟨more, rest''⟩, hmore, heq⟩ := Option.bind_eq_some_iff.mp h
      cases heq
      have hlength := untilQuote_length hquote
      have hwhite := skipWhite_length rest'
      rw [List.length_cons] at hn
      have hsegments := ih hmore (by omega) (Nat.le_of_succ_le_succ hm)
      rw [← skipWhite_enclosed] at hsegments
      simp [segments, untilQuote_enclosed tail hquote, hsegments]
    · have hend : (enclosed tail cs).headD '\x00' ≠ '"' := by
        cases cs with
        | nil => simp
        | cons c cs => exact hcs
      rw [segments_end hcs] at h
      cases h
      exact segments_end hend

theorem readText_enclosed {v : Value} {rest : List Char} (h : readText cs = .ok (v, rest)) :
    readText (enclosed tail cs) = .ok (v, enclosed tail rest) := by
  unfold readText at h ⊢
  cases hsegments : segments cs.length cs with
  | none =>
    rw [hsegments] at h
    cases h
  | some r =>
    obtain ⟨raw, rest'⟩ := r
    rw [hsegments] at h
    have hlength : cs.length ≤ (enclosed tail cs).length := by simp [length_enclosed]
    rw [segments_enclosed tail hsegments (Nat.le_refl _) hlength]
    dsimp only at h ⊢
    split at h
    · cases h
    · rename_i hsize
      cases h
      rw [if_neg hsize]

/-! ## Signs and operators -/

theorem readSigns_enclosed (cs : List Char) :
    readSigns (enclosed tail cs) = ((readSigns cs).1, enclosed tail (readSigns cs).2) := by
  induction cs with
  | nil =>
    have hwhite : isWhite ')' = false := by decide
    have hsign : signOf? ')' = none := by decide
    simp [readSigns, hwhite, hsign]
  | cons c cs ih =>
    rw [enclosed_cons, readSigns, readSigns]
    split
    · exact ih
    · split
      · rw [ih]
      · rfl

theorem readSigns_length (cs : List Char) : (readSigns cs).2.length ≤ cs.length := by
  induction cs with
  | nil => exact Nat.le_refl _
  | cons c cs ih =>
    rw [readSigns]
    split
    · exact Nat.le_succ_of_le ih
    · split
      · exact Nat.le_succ_of_le ih
      · exact Nat.le_refl _

theorem readOperator_enclosed (cs : List Char) :
    readOperator? (enclosed tail cs) = (readOperator? cs).map fun r => (r.1, enclosed tail r.2) := by
  have hstarts : startsOperator ')' = false := by decide
  have hextends : extendsOperator ')' = false := by decide
  match cs with
  | [] => simp [readOperator?, hstarts]
  | [c] =>
    rw [enclosed_cons, enclosed_nil, readOperator?, readOperator?, hextends]
    split <;> rfl
  | c :: d :: cs =>
    rw [enclosed_cons, enclosed_cons, readOperator?, readOperator?]
    split
    · rfl
    · split <;> rfl

theorem startsSigned_enclosed (cs : List Char) : startsSigned (enclosed tail cs) = startsSigned cs := by
  cases cs <;> rfl

end Token

end HostScript
