import HostScript.Proofs.EscapedText
import HostScript.Proofs.Parentheses
/-!
# String literals

A text that was escaped for the double quote can be written between double quotes, and several of these one after
the other are one literal. Its value is the texts put together: an escaped character never ends at a quote that
closes a segment, and what was escaped reads back the same whatever follows it. So it does not matter that the
segments are put together first and read back then. Only the bytes between the quotes are limited.
-/

set_option autoImplicit false

namespace HostScript

open HostScript.Text HostScript.Token

variable {κ ι σ : Type}

/-! ## Escaped texts between quotes -/

/-- A text escaped for the double quote. -/
def Token.segmentChars (cs : List Char) : List Char := cs.flatMap (escapeChar (some '"'))

theorem toList_escape_quote (s : String) : (escape (some '"') s).toList = segmentChars s.toList :=
  String.toList_ofList

namespace Token

theorem untilQuote_plain {c : Char} (hquote : c ≠ '"') (hescape : c ≠ '\\') (cs : List Char) :
    untilQuote (c :: cs) = (untilQuote cs).map fun r => (c :: r.1, r.2) := by
  rw [untilQuote]
  · exact hquote
  · intro _ _ h _
    exact hescape h

theorem hexDigit_plain {n : Nat} (h : n < 16) : hexDigit n ≠ '"' ∧ hexDigit n ≠ '\\' :=
  (by decide : ∀ n < 16, hexDigit n ≠ '"' ∧ hexDigit n ≠ '\\') n h

theorem untilQuote_code {c : Char} (hc : c.toNat < 256) (cs : List Char) :
    untilQuote (escapeByCode c ++ cs) = (untilQuote cs).map fun r => (escapeByCode c ++ r.1, r.2) := by
  have hhigh := hexDigit_plain (n := c.toNat / 16) (by omega)
  have hlow := hexDigit_plain (n := c.toNat % 16) (by omega)
  simp only [escapeByCode, if_pos hc, hexPair, List.cons_append, List.nil_append]
  rw [untilQuote, untilQuote_plain hhigh.1 hhigh.2, untilQuote_plain hlow.1 hlow.2, Option.map_map, Option.map_map]
  rfl

/-- The quote that ends a segment is not looked for within an escaped character. -/
theorem untilQuote_escapeChar (c : Char) (cs : List Char) :
    untilQuote (escapeChar (some '"') c ++ cs) =
      (untilQuote cs).map fun r => (escapeChar (some '"') c ++ r.1, r.2) := by
  rw [escapeChar]
  split
  · rename_i h
    obtain rfl : c = '"' := by simpa using h
    exact untilQuote_code (by decide) cs
  · rename_i h
    cases hletter : escapeLetter? c with
    | some letter =>
      rw [List.cons_append, List.cons_append, untilQuote]
      rfl
    | none =>
      dsimp only
      split
      · exact untilQuote_code (by omega) cs
      · have hescape : c ≠ '\\' := by
          rintro rfl
          simp [escapeLetter?, escapes] at hletter
        exact untilQuote_plain (by simpa using h) hescape cs

theorem untilQuote_segment (cs rest : List Char) :
    untilQuote (segmentChars cs ++ '"' :: rest) = some (segmentChars cs, rest) := by
  induction cs with
  | nil => rfl
  | cons c cs ih =>
    rw [segmentChars, List.flatMap_cons, List.append_assoc, untilQuote_escapeChar, ← segmentChars, ih]
    rfl

end Token

namespace Text

/-- Escaping a character makes it no shorter. -/
theorem bytes_escapeChar (c : Char) : (bytes [c]).length ≤ (bytes (escapeChar (some '"') c)).length := by
  have hsize : (bytes [c]).length = c.utf8Size := by simp [bytes]
  have hcode : c.toNat < 256 → c.utf8Size ≤ (bytes (escapeByCode c)).length := by
    intro hc
    refine c.utf8Size_le_four.trans (Nat.le_trans ?_ (length_le_bytes _))
    rw [escapeByCode, if_pos hc]
    exact Nat.le_refl 4
  rw [hsize, escapeChar]
  split
  · rename_i h
    obtain rfl : c = '"' := by simpa using h
    exact hcode (by decide)
  · cases hletter : escapeLetter? c with
    | some letter =>
      obtain ⟨pair, hpair, -⟩ := Option.map_eq_some_iff.mp hletter
      have hshort : ∀ p ∈ escapes, p.1.utf8Size ≤ 2 := by decide
      have hc : pair.1 = c := by simpa using List.find?_some hpair
      rw [← hc]
      exact (hshort pair (List.mem_of_find?_eq_some hpair)).trans (length_le_bytes ['\\', letter])
    | none =>
      dsimp only
      split
      · exact hcode (by omega)
      · exact hsize.ge

theorem utf8ByteSize_le_escape (s : String) : s.utf8ByteSize ≤ (escape (some '"') s).utf8ByteSize := by
  rw [utf8ByteSize_eq, utf8ByteSize_eq, toList_escape_quote]
  induction s.toList with
  | nil => exact Nat.le_refl _
  | cons c cs ih =>
    have hc := bytes_escapeChar c
    rw [segmentChars, List.flatMap_cons, bytes_append, ← segmentChars, ← List.singleton_append, bytes_append]
    simp only [List.length_append]
    omega

end Text

/-! ## Literals -/

/-- White space. -/
abbrev WhiteSpace := { w : String // w.toList.all isWhite = true }

theorem WhiteSpace.skipWhite (w : WhiteSpace) (cs : List Char) : skipWhite (w.val.toList ++ cs) = skipWhite cs :=
  List.dropWhile_append_of_pos (List.all_eq_true.mp w.property)

/-- A text that is written in double quotes, and the white space that is left behind it. -/
structure Quotation where
  text : String
  gap : WhiteSpace

namespace Quotation

/-- What stands between the quotes. -/
def segment (q : Quotation) : String := escape (some '"') q.text

def written (q : Quotation) : String := "\"" ++ q.segment ++ "\"" ++ q.gap.val

theorem toList_written (q : Quotation) :
    q.written.toList = '"' :: (segmentChars q.text.toList ++ '"' :: q.gap.val.toList) := by
  simp [written, segment, toList_escape_quote]

/-- The texts of some quotations put together. -/
def texts (qs : List Quotation) : String := String.join (qs.map text)

/-- All the segments put together. -/
def raw (qs : List Quotation) : String := String.join (qs.map segment)

/-- Quotations one after the other, with white space in front. -/
def literal (front : WhiteSpace) (qs : List Quotation) : String := front.val ++ String.join (qs.map written)

theorem raw_eq_escape (qs : List Quotation) : raw qs = escape (some '"') (texts qs) := by
  apply String.toList_injective
  rw [toList_escape_quote, raw, texts, String.toList_join, String.toList_join]
  induction qs with
  | nil => rfl
  | cons q qs ih =>
    rw [List.map_cons, List.flatMap_cons, List.map_cons, List.flatMap_cons, segmentChars, List.flatMap_append, ih]
    exact congrArg (· ++ _) (toList_escape_quote q.text)

theorem utf8ByteSize_raw (qs : List Quotation) :
    (raw qs).utf8ByteSize = (qs.map fun q => q.segment.utf8ByteSize).sum := by
  induction qs with
  | nil => rfl
  | cons q qs ih =>
    rw [raw, List.map_cons, String.join_cons, String.utf8ByteSize_append, List.map_cons, List.sum_cons, ← ih]
    rfl

/-- Nothing but quotations is skipped over. -/
theorem skipWhite_written (qs : List Quotation) :
    skipWhite (String.join (qs.map written)).toList = (String.join (qs.map written)).toList := by
  have hquote : isWhite '"' = false := by decide
  cases qs with
  | nil => rfl
  | cons q qs =>
    -- the next quotation starts with its quote
    rw [List.map_cons, String.join_cons, String.toList_append, toList_written, List.cons_append, skipWhite,
      List.dropWhile_cons_of_neg (by simp [hquote])]

/-- Quotations are read to their end, one in each round. -/
theorem segments_written {n : Nat} (qs : List Quotation) (hn : qs.length ≤ n) :
    segments n (String.join (qs.map written)).toList = some ((raw qs).toList, []) := by
  induction qs generalizing n with
  | nil => exact segments_end (by decide)
  | cons q qs ih =>
    obtain ⟨n, rfl⟩ := Nat.exists_eq_add_of_le' (Nat.lt_of_lt_of_le (Nat.succ_pos _) hn)
    -- white space behind the quote is skipped up to the next quotation, where the induction goes on
    have hrest := ih (Nat.le_of_succ_le_succ hn)
    have hraw : (raw (q :: qs)).toList = segmentChars q.text.toList ++ (raw qs).toList := by
      simp [raw, segment, toList_escape_quote]
    rw [List.map_cons, String.join_cons, String.toList_append, toList_written, List.cons_append, List.append_assoc,
      List.cons_append, segments, untilQuote_segment]
    rw [← skipWhite_written, ← q.gap.skipWhite] at hrest
    simp only [Option.bind_eq_bind, Option.bind_some, hrest, hraw]
    rfl

theorem length_written (qs : List Quotation) : qs.length ≤ (String.join (qs.map written)).toList.length := by
  induction qs with
  | nil => exact Nat.le_refl _
  | cons q qs ih =>
    rw [List.map_cons, String.join_cons, String.toList_append, toList_written]
    simp only [List.length_cons, List.length_append]
    omega

/-- The value of some quotations, or what they are refused with when there are too many bytes in them. -/
def value? (qs : List Quotation) : Except ScriptError Value :=
  if (qs.map fun q => q.segment.utf8ByteSize).sum ≤ maxLiteralSize then .ok (.str (texts qs))
  else .error ⟨.stringTooLong, fit maxLiteralSize (raw qs)⟩

theorem readText_written (qs : List Quotation) :
    readText (String.join (qs.map written)).toList = (value? qs).map fun v => (v, []) := by
  have hdelimiter : ∀ d ∈ some '"', d.toNat < 256 := by
    rintro _ ⟨⟩
    decide
  unfold readText value?
  rw [segments_written qs (length_written qs), ← utf8ByteSize_raw]
  dsimp only
  rw [String.ofList_toList]
  split
  · rename_i hlong
    rw [if_neg (Nat.not_le.mpr hlong)]
    rfl
  · rename_i hshort
    have hfits : (raw qs).utf8ByteSize ≤ maxLiteralSize := Nat.not_lt.mp hshort
    -- the value is cut at a limit that a literal is far from
    have htexts : (texts qs).utf8ByteSize ≤ Value.payloadLimit := by
      refine (utf8ByteSize_le_escape _).trans ?_
      rw [← raw_eq_escape]
      exact hfits.trans (by decide)
    rw [if_pos hfits, raw_eq_escape, unescape_escape hdelimiter, Value.ofString, fit_of_le htexts]
    rfl

end Quotation

namespace Evaluator

variable (ev : Evaluator κ ι σ)

/-- An expression of nothing but a text has its value. -/
theorem expression_text {cs more : List Char} {r : Except ScriptError Value} (hcs : skipWhite cs = '"' :: more)
    (hr : readText ('"' :: more) = r.map fun v => (v, [])) (s : Session σ) :
    (ev.expression cs).run.run s = (r, s) := by
  have hwhite : isWhite '"' = false := by decide
  have hsign : signOf? '"' = none := by decide
  have hblank : skipWhite cs ≠ [] := by
    rw [hcs]
    exact List.cons_ne_nil _ _
  refine expression_of_term ev hblank (termAt_of_operand ev ?_)
  rw [← operand_skipWhite, hcs, operand_atom ev _ hwhite hsign]
  change (liftExcept (readText ('"' :: more)) >>= fun x => pure ⟨.value x.1, none, x.2⟩ : Eval σ (Atom ι)).run.run s = _
  rw [hr]
  cases r with
  | error e => rfl
  | ok v => rfl

end Evaluator

/-- Whatever the scope, a literal of one or more quotations comes to their texts put together, unless there are more
bytes between the quotes than a literal may have. The scope is left as it is. -/
theorem Engine.calculate_literal (engine : Engine κ ι σ) (depth : Nat) (s : Session σ) (front : WhiteSpace)
    (q : Quotation) (qs : List Quotation) :
    engine.calculate (depth + 1) (Quotation.literal front (q :: qs)) s =
      if ((q :: qs).map fun q => (escape (some '"') q.text).utf8ByteSize).sum ≤ 4096 then
        (some (.str (String.join ((q :: qs).map Quotation.text))), ⟨s.state, .clear⟩)
      else (none, ⟨s.state, ⟨.stringTooLong, fit 4096 (Quotation.raw (q :: qs))⟩⟩) := by
  have hread := Quotation.readText_written (q :: qs)
  have hskip : skipWhite (Quotation.literal front (q :: qs)).toList =
      (String.join ((q :: qs).map Quotation.written)).toList := by
    rw [Quotation.literal, String.toList_append, front.skipWhite, Quotation.skipWhite_written]
  have hquote : ∃ more, (String.join ((q :: qs).map Quotation.written)).toList = '"' :: more := by
    rw [List.map_cons, String.join_cons, String.toList_append, q.toList_written]
    exact ⟨_, rfl⟩
  obtain ⟨more, hmore⟩ := hquote
  rw [hmore] at hread hskip
  have hexpression := Evaluator.expression_text (engine.evaluator depth) hskip hread ⟨s.state, .clear⟩
  by_cases hfits : ((q :: qs).map fun q => q.segment.utf8ByteSize).sum ≤ maxLiteralSize
  · rw [Quotation.value?, if_pos hfits] at hexpression
    exact (engine.calculate_of_expression hexpression).trans (if_pos hfits).symm
  · rw [Quotation.value?, if_neg hfits] at hexpression
    exact (engine.calculate_of_expression hexpression).trans (if_neg hfits).symm

/-- A quote and a backslash in two quotations, with white space around them, as they are written. -/
example : Quotation.literal ⟨" ", by decide⟩
    [⟨"a\"", ⟨"\n", by decide⟩⟩, ⟨"\\", ⟨"", by decide⟩⟩] = " \"a\\x22\"\n\"\\\\\"" := by
  decide

end HostScript
