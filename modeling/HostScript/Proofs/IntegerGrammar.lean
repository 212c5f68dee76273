import HostScript.Proofs.Numerals
/-!
# Integer expressions as they are written and as they are read

A tree of numerals, signs, sums, products and parentheses is written token by token, with any white
space between the tokens. Reading pays no attention to how the tree was built: it goes from left to
right, and the right side of a product is everything up to the end of the group. A `Reading` is what
that gives, and a tree and its reading are the same tokens.
-/

set_option autoImplicit false

namespace HostScript.IntegerExpression

open HostScript.Text HostScript.Token HostScript.Number

inductive Sign where
  | plus
  | minus
deriving Repr, DecidableEq

def Sign.char : Sign → Char
  | .plus => '+'
  | .minus => '-'

def Sign.factor : Sign → Int
  | .plus => 1
  | .minus => -1

/-! ## Trees -/

/-- The numerals that fit a signed integer. -/
abbrev Literal := Fin (maxMagnitude + 1)

/-- An expression as it is built. Nothing but a group puts parentheses around a part of it. -/
inductive Tree where
  | literal (n : Literal)
  | signed (s : Sign) (t : Tree)
  | sum (a : Tree) (s : Sign) (b : Tree)
  | product (a b : Tree)
  | group (t : Tree)

/-- What is written in one piece. -/
inductive Lexeme where
  | sign (s : Sign)
  | times
  | opening
  | closing
  | literal (n : Literal)

/-- A numeral is written in decimal, without zeros before it. -/
def Lexeme.chars : Lexeme → List Char
  | .sign s => [s.char]
  | .times => ['*']
  | .opening => ['(']
  | .closing => [')']
  | .literal n => Nat.toDigits 10 n

/-- The tree as it is written. -/
def Tree.lexemes : Tree → List Lexeme
  | .literal n => [.literal n]
  | .signed s t => .sign s :: t.lexemes
  | .sum a s b => a.lexemes ++ .sign s :: b.lexemes
  | .product a b => a.lexemes ++ .times :: b.lexemes
  | .group t => .opening :: t.lexemes ++ [.closing]

/-! ## Readings -/

mutual

/-- An expression read from left to right: its first operand after the signs, and what follows. -/
inductive Reading where
  | mk (signs : List Sign) (primary : Primary) (tail : Tail)

inductive Primary where
  | literal (n : Literal)
  | group (r : Reading)

/-- What follows an operand: nothing, another term, or the right side of a product. -/
inductive Tail where
  | done
  | plus (s : Sign) (next : Reading)
  | times (next : Reading)

end

/-- What signs make of an integer. -/
def signFactor (signs : List Sign) : Int := signs.foldr (fun s n => s.factor * n) 1

mutual

/-- The value of an expression with a sign of the given factor before it, which belongs to its first
term. -/
def Reading.value (factor : Int) : Reading → Int
  | .mk signs a tail => tail.value (factor * (signFactor signs * a.value))

def Primary.value : Primary → Int
  | .literal n => n.val
  | .group r => r.value 1

/-- The value of what begins with an operand of value `n` and goes on with the tail: further terms are
added, and a product has everything that follows as its right side. -/
def Tail.value (n : Int) : Tail → Int
  | .done => n
  | .plus s next => n + next.value s.factor
  | .times next => n * next.value 1

end

mutual

def Reading.lexemes : Reading → List Lexeme
  | .mk signs a tail => signs.map .sign ++ a.lexemes ++ tail.lexemes

def Primary.lexemes : Primary → List Lexeme
  | .literal n => [.literal n]
  | .group r => .opening :: r.lexemes ++ [.closing]

def Tail.lexemes : Tail → List Lexeme
  | .done => []
  | .plus s next => .sign s :: next.lexemes
  | .times next => .times :: next.lexemes

end

/-! ## Reading a tree -/

/-- How a tree is read after some signs and before a tail. -/
def Tree.readingWith : Tree → List Sign → Tail → Reading
  | .literal n, signs, tail => .mk signs (.literal n) tail
  | .signed s t, signs, tail => t.readingWith (signs ++ [s]) tail
  | .sum a s b, signs, tail => a.readingWith signs (.plus s (b.readingWith [] tail))
  | .product a b, signs, tail => a.readingWith signs (.times (b.readingWith [] tail))
  | .group t, signs, tail => .mk signs (.group (t.readingWith [] .done)) tail

def Tree.reading (t : Tree) : Reading := t.readingWith [] .done

theorem lexemes_readingWith (t : Tree) (signs : List Sign) (tail : Tail) :
    (t.readingWith signs tail).lexemes = signs.map .sign ++ t.lexemes ++ tail.lexemes := by
  induction t generalizing signs tail with
  | literal n => simp [Tree.readingWith, Reading.lexemes, Primary.lexemes, Tree.lexemes]
  | signed s t ih => simp [Tree.readingWith, Tree.lexemes, ih]
  | sum a s b iha ihb => simp [Tree.readingWith, Tree.lexemes, Tail.lexemes, iha, ihb]
  | product a b iha ihb => simp [Tree.readingWith, Tree.lexemes, Tail.lexemes, iha, ihb]
  | group t ih => simp [Tree.readingWith, Reading.lexemes, Primary.lexemes, Tail.lexemes, Tree.lexemes, ih]

/-- A tree is written as its reading is. -/
theorem lexemes_reading (t : Tree) : t.reading.lexemes = t.lexemes := by
  simp [Tree.reading, lexemes_readingWith, Tail.lexemes]

/-! ## Terms of a reading -/

/-- The reading with one more sign before it. -/
def Reading.signed (s : Sign) : Reading → Reading
  | .mk signs a tail => .mk (s :: signs) a tail

theorem value_signed (s : Sign) (r : Reading) : (r.signed s).value 1 = r.value s.factor := by
  cases r
  simp [Reading.signed, Reading.value, signFactor, Int.mul_assoc]

theorem lexemes_signed (s : Sign) (r : Reading) : (r.signed s).lexemes = .sign s :: r.lexemes := by
  cases r
  simp [Reading.signed, Reading.lexemes]

/-- The value of the term that begins with an operand of value `n`: a term ends before the next sign. -/
def Tail.term (n : Int) : Tail → Int
  | .times next => n * next.value 1
  | _ => n

/-- What is left after the term, if anything is. -/
def Tail.next? : Tail → Option Reading
  | .plus s next => some (next.signed s)
  | _ => none

def Tail.left (tail : Tail) : List Lexeme := (tail.next?.map Reading.lexemes).getD []

/-- The value of the first term. -/
def Reading.term : Reading → Int
  | .mk signs a tail => tail.term (signFactor signs * a.value)

def Reading.tail : Reading → Tail
  | .mk _ _ tail => tail

/-- An expression is the sum of its terms. -/
theorem value_eq_term (r : Reading) :
    r.value 1 = r.term + (r.tail.next?.map (Reading.value 1)).getD 0 := by
  obtain ⟨signs, a, tail⟩ := r
  cases tail <;> simp [Reading.value, Reading.term, Reading.tail, Tail.value, Tail.term, Tail.next?, value_signed]

/-! ## White space between lexemes -/

/-- All of the characters are white. -/
def White (w : List Char) : Prop := ∀ c ∈ w, isWhite c = true

/-- The lexemes with any white space before, between and after them. -/
inductive Spaced : List Lexeme → List Char → Prop
  | done {w : List Char} : White w → Spaced [] w
  | lexeme {w cs : List Char} {l : Lexeme} {ls : List Lexeme} :
    White w → Spaced ls cs → Spaced (l :: ls) (w ++ l.chars ++ cs)

/-- There is no white space in front. -/
def Trimmed (cs : List Char) : Prop := Token.skipWhite cs = cs

theorem skipWhite_append {w : List Char} (hw : White w) (cs : List Char) :
    Token.skipWhite (w ++ cs) = Token.skipWhite cs := List.dropWhile_append_of_pos hw

theorem skipWhite_white {w : List Char} (hw : White w) : Token.skipWhite w = [] := by
  have h := skipWhite_append hw []
  rwa [List.append_nil] at h

theorem trimmed_skipWhite (cs : List Char) : Trimmed (Token.skipWhite cs) := by
  unfold Trimmed Token.skipWhite
  induction cs with
  | nil => rfl
  | cons c cs ih =>
    rw [List.dropWhile_cons]
    split
    · exact ih
    · rename_i h
      simp [h]

theorem literal_chars (n : Literal) : ∃ c ds, (Lexeme.literal n).chars = c :: ds ∧ c.isDigit = true := by
  rcases toDigits_cases n.val with ⟨-, hz⟩ | ⟨c, ds, he, hc, -⟩
  · exact ⟨_, _, hz, rfl⟩
  · exact ⟨c, ds, he, hc⟩

theorem extendsOperator_digit {c : Char} (h : c.isDigit = true) : extendsOperator c = false := by
  simp [extendsOperator, isDigit_ne h (d := '>') rfl, isDigit_ne h (d := '=') rfl, isDigit_ne h (d := '|') rfl,
    isDigit_ne h (d := '^') rfl, isDigit_ne h (d := '&') rfl]

/-- No lexeme starts with white space or goes on with an operator. -/
theorem chars_cons (l : Lexeme) :
    ∃ c ds, l.chars = c :: ds ∧ isWhite c = false ∧ extendsOperator c = false := by
  rcases l with (_ | _) | _ | _ | _ | n
  case literal =>
    obtain ⟨c, ds, he, hc⟩ := literal_chars n
    have hs := isSpace_of_isDigit hc
    rw [isSpace, Bool.or_eq_false_iff] at hs
    exact ⟨c, ds, he, hs.1, extendsOperator_digit hc⟩
  all_goals exact ⟨_, _, rfl, rfl, rfl⟩

theorem skipWhite_chars (l : Lexeme) (cs : List Char) : Token.skipWhite (l.chars ++ cs) = l.chars ++ cs := by
  obtain ⟨c, ds, he, hc, -⟩ := chars_cons l
  simp [he, Token.skipWhite, hc]

/-- Skipping the white space in front leads to the first lexeme. -/
theorem Spaced.front {l : Lexeme} {ls : List Lexeme} {cs : List Char} (h : Spaced (l :: ls) cs) :
    ∃ rest, Token.skipWhite cs = l.chars ++ rest ∧ Spaced ls rest ∧ rest.length < cs.length := by
  cases h with
  | @lexeme w rest _ _ hw h =>
    obtain ⟨c, ds, he, -⟩ := chars_cons l
    refine ⟨rest, ?_, h, ?_⟩
    · rw [List.append_assoc, skipWhite_append hw, skipWhite_chars]
    · simp only [he, List.length_append, List.length_cons]
      omega

theorem Spaced.end {cs : List Char} (h : Spaced [] cs) : Token.skipWhite cs = [] := by
  cases h with
  | done hw => exact skipWhite_white hw

/-- A text without white space in front starts with its first lexeme. -/
theorem Spaced.first {l : Lexeme} {ls : List Lexeme} {cs : List Char} (h : Spaced (l :: ls) cs) (ht : Trimmed cs) :
    ∃ rest, cs = l.chars ++ rest ∧ Spaced ls rest ∧ rest.length < cs.length := by
  obtain ⟨rest, he, h⟩ := h.front
  exact ⟨rest, ht.symm.trans he, h⟩

/-- White space in front does not matter. -/
theorem Spaced.skipWhite {ls : List Lexeme} {cs : List Char} (h : Spaced ls cs) :
    Spaced ls (Token.skipWhite cs) := by
  cases ls with
  | nil =>
    rw [h.end]
    exact .done (by simp [White])
  | cons l ls =>
    obtain ⟨rest, he, h, -⟩ := h.front
    rw [he]
    exact .lexeme (w := []) (by simp [White]) h

theorem extendsOperator_white {c : Char} (h : isWhite c = true) : extendsOperator c = false := by
  have hx := of_isWhite (P := fun c => !extendsOperator c) rfl h
  simpa using hx

/-- An operator ends before whatever comes next. -/
theorem Spaced.extends_false {ls : List Lexeme} {cs : List Char} (h : Spaced ls cs) :
    ∀ c ∈ cs.head?, extendsOperator c = false := by
  cases h with
  | done hw => exact fun c hc => extendsOperator_white (hw c (List.mem_of_mem_head? hc))
  | @lexeme w rest l ls hw h =>
    cases w with
    | nil =>
      obtain ⟨c, ds, he, -, hx⟩ := chars_cons l
      simpa [he] using hx
    | cons c w => simpa using extendsOperator_white (hw c (by simp))

theorem ended_white {c : Char} (h : isWhite c = true) (cs : List Char) : Ended (c :: cs) := by
  have hdot := of_isWhite (P := fun c => c != '.') rfl h
  exact ended_cons (isNameChar_of_isWhite h) (by simpa using hdot)

/-- A numeral ends before every other lexeme. -/
theorem Spaced.ended {ls : List Lexeme} {cs : List Char} (h : Spaced ls cs)
    (hl : ∀ n, ls.head? ≠ some (.literal n)) : Ended cs := by
  cases h with
  | done hw =>
    cases cs with
    | nil => exact ended_nil
    | cons c w => exact ended_white (hw c (by simp)) w
  | @lexeme w rest l ls hw h =>
    cases w with
    | nil =>
      rcases l with (_ | _) | _ | _ | _ | n
      case literal => exact absurd rfl (hl n)
      all_goals exact ended_cons rfl (by decide)
    | cons c w => exact ended_white (hw c (by simp)) _

end HostScript.IntegerExpression
