import HostScript.Proofs.Numerals
import HostScript.Proofs.Structured
/-!
# The text of structured programs

A structured program can be written in many ways: between its tokens there may be white space and
comments. The texts of its expressions are taken as they stand, so they must be such that the statements
around them can be told from them.
-/

set_option autoImplicit false

namespace HostScript.Structured

open HostScript.Text

/-! ## Gaps -/

/-- White space and comments. -/
inductive Gap : List Char → Prop
  | nil : Gap []
  | white {c : Char} {g : List Char} : isWhite c = true → Gap g → Gap (c :: g)
  | line {body g : List Char} : '\n' ∉ body → Gap g → Gap ('/' :: '/' :: (body ++ '\n' :: g))
  | block {body g : List Char} : ¬['*', '/'] <:+: body → Gap g → Gap ('/' :: '*' :: (body ++ '*' :: '/' :: g))

/-- The text starts neither with white space nor with a comment. -/
def Solid (cs : List Char) : Prop :=
  (∀ c ∈ cs.head?, isWhite c = false) ∧ ¬['/', '/'] <+: cs ∧ ¬['/', '*'] <+: cs

/-- No name goes on here. -/
def Apart (cs : List Char) : Prop := ∀ c ∈ cs.head?, isNameChar c = false

theorem Apart.append {text rest : List Char} (h : Apart text) (hne : text ≠ []) : Apart (text ++ rest) := by
  obtain ⟨a, text, rfl⟩ := List.exists_cons_of_ne_nil hne
  exact h

theorem solid_cons {a : Char} {cs : List Char} (hwhite : isWhite a = false) (hslash : a ≠ '/') : Solid (a :: cs) := by
  refine ⟨?_, fun h => hslash (List.cons_prefix_cons.mp h).1.symm, fun h => hslash (List.cons_prefix_cons.mp h).1.symm⟩
  rintro _ ⟨⟩
  exact hwhite

def White (cs : List Char) : Prop := ∀ c ∈ cs, isWhite c = true

theorem White.gap {w : List Char} (hw : White w) : Gap w := by
  induction w with
  | nil => exact .nil
  | cons a w ih => exact .white (hw a (List.mem_cons_self ..)) (ih fun b hb => hw b (List.mem_cons_of_mem _ hb))

theorem Gap.append {g g' : List Char} (hg : Gap g) (hg' : Gap g') : Gap (g ++ g') := by
  induction hg with
  | nil => exact hg'
  | white ha _ ih => exact .white ha ih
  | line hbody _ ih =>
    rw [List.cons_append, List.cons_append, List.append_assoc]
    exact .line hbody ih
  | block hbody _ ih =>
    rw [List.cons_append, List.cons_append, List.append_assoc]
    exact .block hbody ih

/-- A text stays solid before anything that makes no comment of its end. -/
theorem Solid.append {text rest : List Char} (h : Solid text) (hne : text ≠ [])
    (hrest : ∀ a ∈ rest.head?, a ≠ '/' ∧ a ≠ '*') : Solid (text ++ rest) := by
  obtain ⟨hwhite, hline, hblock⟩ := h
  obtain ⟨a, text, rfl⟩ := List.exists_cons_of_ne_nil hne
  have hpair : ∀ x : Char, ¬['/', x] <+: a :: text → (∀ b ∈ rest.head?, b ≠ x) → ¬['/', x] <+: a :: text ++ rest := by
    intro x hno hx hpre
    rw [List.cons_append, List.cons_prefix_cons] at hpre
    obtain ⟨ha, hpre⟩ := hpre
    cases text with
    | nil =>
      cases rest with
      | nil => cases List.prefix_nil.mp hpre
      | cons b rest => exact hx b rfl (List.cons_prefix_cons.mp hpre).1.symm
    | cons b text =>
      rw [List.cons_append, List.cons_prefix_cons] at hpre
      exact hno ⟨text, by rw [ha, hpre.1]; rfl⟩
  exact ⟨hwhite, hpair _ hline fun b hb => (hrest b hb).1, hpair _ hblock fun b hb => (hrest b hb).2⟩

/-! ## Expressions -/

/-- The rest of a quoted text, up to and with the closing quote. A backslash quotes any character. -/
inductive Quoted : List Char → Prop
  | close : Quoted ['"']
  | plain {c : Char} {cs : List Char} : c ≠ '"' → c ≠ '\\' → Quoted cs → Quoted (c :: cs)
  | escape (c : Char) {cs : List Char} : Quoted cs → Quoted ('\\' :: c :: cs)

/-- Parentheses are balanced and quotes are closed. There are no semicolons, except in quotes and inside of
parentheses. -/
inductive Balanced : (inside : Bool) → List Char → Prop
  | nil (inside : Bool) : Balanced inside []
  | plain {inside : Bool} {c : Char} {cs : List Char} :
    c ∉ ['"', '(', ')', ';'] → Balanced inside cs → Balanced inside (c :: cs)
  | semicolon {cs : List Char} : Balanced true cs → Balanced true (';' :: cs)
  | quoted {inside : Bool} {q cs : List Char} : Quoted q → Balanced inside cs → Balanced inside ('"' :: (q ++ cs))
  | group {inside : Bool} {g cs : List Char} :
    Balanced true g → Balanced inside cs → Balanced inside ('(' :: (g ++ ')' :: cs))

theorem Balanced.append {inside : Bool} {text text' : List Char} (h : Balanced inside text)
    (h' : Balanced inside text') : Balanced inside (text ++ text') := by
  induction h with
  | nil => exact h'
  | plain ha _ ih => exact .plain ha (ih h')
  | semicolon _ ih => exact .semicolon (ih h')
  | quoted hq _ ih =>
    rw [List.cons_append, List.append_assoc]
    exact .quoted hq (ih h')
  | group hg _ _ ih =>
    rw [List.cons_append, List.append_assoc]
    exact .group hg (ih h')

theorem White.balanced {w : List Char} (hw : White w) : Balanced false w := by
  induction w with
  | nil => exact .nil _
  | cons a w ih =>
    have hplain := of_isWhite (P := fun a => a ∉ ['"', '(', ')', ';']) rfl (hw a (List.mem_cons_self ..))
    exact .plain (of_decide_eq_true hplain) (ih fun b hb => hw b (List.mem_cons_of_mem _ hb))

/-- An expression that can stand in a structured program. -/
structure Proper (text : List Char) : Prop where
  balanced : Balanced false text
  solid : Solid text
  trimmed : ∀ c ∈ text.getLast?, isBlank c = false

/-- The name that a text starts with. -/
def firstName (text : List Char) : String := String.ofList (text.takeWhile isNameChar)

/-! ## Programs -/

namespace Part

/-- A following `else` would belong to the part. -/
def Open : {k : Kind} → Part k → Prop
  | _, .ifThen _ _ => True
  | _, .ifElse _ _ t => t.Open
  | _, .while_ _ s => s.Open
  | _, _ => False

/-- The expressions of the part can be told from its statements, and each `else` belongs to its own
condition. -/
def Meant {ξ δ : Type} (decls : Declarations ξ δ) (d : δ) : {k : Kind} → Part k → Prop
  | _, .expression text =>
    Proper text.toList ∧ text.toList.head?.any isNameStart = true ∧
      decls.meaning d (firstName text.toList) = .expression
  | _, .block b => b.Meant decls d
  | _, .ifThen c s => Proper c.toList ∧ s.Meant decls d
  | _, .ifElse c s t => Proper c.toList ∧ s.Meant decls d ∧ ¬s.Open ∧ t.Meant decls d
  | _, .while_ c s => Proper c.toList ∧ s.Meant decls d
  | _, .break_ => True
  | _, .continue_ => True
  | _, .nil => True
  | _, .cons s b => s.Meant decls d ∧ b.Meant decls d

end Part

/-- A keyword with a condition in parentheses, and the gap after it. -/
inductive Head (k : Keyword) (c : String) : List Char → Prop
  | intro {g g' w g'' : List Char} :
    Gap g → Gap g' → White w → Gap g'' →
      Head k c (k.name.toList ++ g ++ '(' :: (g' ++ c.toList ++ w ++ ')' :: g''))

/-- The ways to write a part, the statements of a block with what closes it. -/
inductive Written : (close : List Char) → {k : Kind} → Part k → List Char → Prop
  | expression {close : List Char} {text : String} {w : List Char} :
    White w → Written close (.expression text) (text.toList ++ w ++ [';'])
  | block {close : List Char} {b : Part .block} {g cs : List Char} :
    Gap g → Written ['\x7d'] b cs → Written close (.block b) ('\x7b' :: (g ++ cs))
  | ifThen {close : List Char} {c : String} {s : Part .statement} {h cs : List Char} :
    Head .if_ c h → Written close s cs → Written close (.ifThen c s) (h ++ cs)
  | ifElse {close : List Char} {c : String} {s t : Part .statement} {h cs g g' cs' : List Char} :
    Head .if_ c h → Written close s cs → Gap g → Gap g' → Apart (g' ++ cs') → Written close t cs' →
      Written close (.ifElse c s t) (h ++ cs ++ g ++ Keyword.else_.name.toList ++ g' ++ cs')
  | while_ {close : List Char} {c : String} {s : Part .statement} {h cs : List Char} :
    Head .while_ c h → Written close s cs → Written close (.while_ c s) (h ++ cs)
  | break_ {close g : List Char} : Gap g → Written close .break_ (Keyword.break_.name.toList ++ g ++ [';'])
  | continue_ {close g : List Char} : Gap g → Written close .continue_ (Keyword.continue_.name.toList ++ g ++ [';'])
  | nil {close : List Char} : Written close .nil close
  | cons {close : List Char} {s : Part .statement} {b : Part .block} {cs g cs' : List Char} :
    Written close s cs → Gap g → Written close b cs' → Written close (.cons s b) (cs ++ g ++ cs')

/-- Everything can be written. -/
theorem exists_written {k : Kind} (close : List Char) (p : Part k) : ∃ cs, Written close p cs := by
  have hblank : White [] := by simp [White]
  have hspace : Gap [' '] := .white rfl .nil
  have hhead : ∀ k c, Head k c _ := fun k c => .intro .nil .nil hblank .nil
  induction p generalizing close with
  | expression text => exact ⟨_, .expression hblank⟩
  | block b ih =>
    obtain ⟨cs, h⟩ := ih ['\x7d']
    exact ⟨_, .block .nil h⟩
  | ifThen c s ih =>
    obtain ⟨cs, h⟩ := ih close
    exact ⟨_, .ifThen (hhead .if_ c) h⟩
  | ifElse c s t ihs iht =>
    obtain ⟨cs, h⟩ := ihs close
    obtain ⟨cs', h'⟩ := iht close
    exact ⟨_, .ifElse (hhead .if_ c) h hspace hspace (fun a ha => by cases ha; rfl) h'⟩
  | while_ c s ih =>
    obtain ⟨cs, h⟩ := ih close
    exact ⟨_, .while_ (hhead .while_ c) h⟩
  | break_ => exact ⟨_, .break_ .nil⟩
  | continue_ => exact ⟨_, .continue_ .nil⟩
  | nil => exact ⟨_, .nil⟩
  | cons s b ihs ihb =>
    obtain ⟨cs, h⟩ := ihs close
    obtain ⟨cs', h'⟩ := ihb close
    exact ⟨_, .cons h .nil h'⟩

/-- The source is a way to write a program. -/
def Source (p : Part .block) (source : String) : Prop :=
  ∃ g cs, source.toList = g ++ cs ∧ Gap g ∧ Written [] p cs

/-- The words of structured programs mean their statements. -/
def Keywords {ξ δ : Type} (decls : Declarations ξ δ) (d : δ) : Prop :=
  ∀ k ∈ [Keyword.if_, .else_, .while_, .break_, .continue_], decls.meaning d k.name = .keyword k

end HostScript.Structured
