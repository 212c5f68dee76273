import HostScript.Proofs.Compiling
/-!
# Texts of external statements

What the compiler takes as the text of an external statement. Behind the keyword a text that starts with a letter or a
digit goes up to the semicolon, and it is taken as it stands. Any other character is taken for a delimiter, so that
nothing that starts with an underscore can be said without one.
-/

set_option autoImplicit false

namespace HostScript

open HostScript.Text HostScript.Structured

namespace Compiler

variable {ξ δ : Type} {decls : Declarations ξ δ} {statement : Compile δ Unit} {s : Compilation δ} {cs text : List Char}

/-- The text starts with a letter or a digit, and it has neither a semicolon nor white space at its end. -/
structure Undelimited (text : List Char) : Prop where
  start : text.head?.any Char.isAlphanum = true
  plain : ';' ∉ text
  trimmed : ∀ a ∈ text.getLast?, isBlank a = false

/-- Such a text is one segment. -/
theorem segments_does (htext : Undelimited text) {n : Nat} (before : String) (h : s.cursor.Reads (text ++ ';' :: cs)) :
    ∃ c, c.Reads (';' :: cs) ∧ Does (segments (n + 1) before) s (before ++ String.ofList text) (move s c) := by
  obtain ⟨a, text, rfl⟩ : ∃ a text', text = a :: text' := by
    cases text with
    | nil => exact nomatch htext.start
    | cons a text => exact ⟨a, text, rfl⟩
  have hstart : a.isAlphanum = true := htext.start
  have hpeek : s.cursor.peek.isAlphanum = true := by
    rw [h.peek_class fun x => Cursor.isAlphanum_ascii, hstart]
  have hpass := Cursor.passes_toDelimiter (by decide) htext.plain (by simp) (Nat.le_succ s.cursor.rest.length) h
  have hread := (hpass.reads h).at.skipWhite (solid_cons rfl (by decide))
  have hsemicolon := hread.peek_ascii (by decide)
  refine ⟨_, hread, (getCursor_does s).bind ?_⟩
  rw [← hpass.textTo]
  simp only [h.not_atEnd, hpeek, Bool.true_or, Bool.not_true, Bool.false_and, Bool.false_eq_true, if_false, if_true]
  refine (setCursor_does s _).bind ((skipWhite_does _).bind ((getCursor_does _).bind ?_))
  simp only [move_cursor, hsemicolon, beq_self_eq_true, Bool.or_true, if_true]
  exact .pure _ _

/-- It is the text of the statement, and its semicolon is taken. -/
theorem externalText_does (htext : Undelimited text) (h : s.cursor.At (text ++ ';' :: cs)) :
    ∃ c, c.Reads cs ∧ Does externalText s (String.ofList text) (move s c) := by
  have hsolid : Solid (text ++ ';' :: cs) := by
    cases text with
    | nil => exact nomatch htext.start
    | cons a text =>
      refine solid_of_nameChar (isNameChar_iff.mpr ?_)
      rcases Bool.or_eq_true_iff.mp htext.start with ha | ha
      · exact .inl ha
      · exact .inr (.inr ha)
  have hread := h.skipWhite hsolid
  obtain ⟨c, hc, hsegments⟩ :=
    segments_does (s := move s s.cursor.skipWhite) (n := s.cursor.skipWhite.rest.length) htext "" hread
  have htrim : trimEnd (String.ofList text) = String.ofList text := by
    have hwhite := trimEnd_white htext.trimmed (w := []) (by simp [White])
    rwa [List.append_nil] at hwhite
  refine ⟨_, (Cursor.passes_skip [';'] rfl hc).reads hc, (skipWhite_does s).bind ((getCursor_does _).bind ?_)⟩
  refine hsegments.bind ((getCursor_does _).bind ?_)
  simp only [move_cursor, hc.not_atEnd, Bool.false_eq_true, if_false]
  refine (Does.modify _ _).bind ?_
  rw [String.empty_append, htrim]
  exact .pure _ _

/-- An external statement is compiled to nothing. What it declares is declared if it is accepted. -/
theorem statementWith_external {name : List Char} {x : ξ} (hstart : name.head?.any isNameStart = true)
    (hname : ∀ a ∈ name, isNameChar a = true) (hmeaning : decls.meaning s.declared (String.ofList name) = .external x)
    {g : List Char} (hg : Gap g) (htext : Undelimited text) (hafter : Apart (g ++ (text ++ ';' :: cs)))
    (haccepted : (decls.external x (String.ofList text) s.declared).2 = true)
    (h : s.cursor.At (name ++ (g ++ (text ++ ';' :: cs)))) :
    ∃ c, c.Reads cs ∧ Does (statementWith decls statement) s ()
      { move s c with declared := (decls.external x (String.ofList text) s.declared).1 } := by
  obtain ⟨c, pos, hc, hgoes⟩ := statementWith_name decls hstart hname hafter h
  obtain ⟨c', hc', hdoes⟩ := externalText_does (s := move s c) htext (hc.at.of_gap hg)
  refine ⟨c', hc', hgoes _ ?_⟩
  rw [Goes, hmeaning]
  refine hdoes.bind ((Does.get _).bind ?_)
  simp only [move_move, move_declared, haccepted]
  rfl

end Compiler

end HostScript
