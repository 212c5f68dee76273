import HostScript.Proofs.EnclosedTexts
/-!
# The tokens of an expression

An expression is read without a separate pass, but it has tokens all the same: numbers, names, quoted texts, operators
and single characters, with white space between them. They are listed here as the evaluator comes to them. What a
character starts depends on what stands before it, in two ways. Behind a dot a name may start with a digit. And there
are two places where the evaluator looks before it has skipped white space: for a parenthesis that closes a group at
once, and for a dot behind the parenthesis that closes a call. What it finds there without white space is noted as
joined to what stands before.
-/

set_option autoImplicit false

namespace HostScript.Token

open HostScript.Text HostScript.Number

/-! ## Tokens -/

/-- A token: what is written, and the value of a number. -/
inductive Item where
  | number (digits : List Char) (value : Value)
  | word (name : List Char)
  | text (raw : List Char)
  /-- A quote with no other one behind it. -/
  | unclosed
  | operator (op : Written)
  /-- A sign, parenthesis, comma, dot, or a character that means nothing. -/
  | mark (c : Char) (joined : Bool)

/-- What stands before a place, as far as it makes a difference. -/
inductive Last where
  | other
  | word
  | dot
  /-- The parenthesis that opens a group, with nothing behind it. -/
  | groupStart
  /-- The parenthesis that closes the arguments of a call, with nothing behind it. -/
  | callEnd
deriving Repr, DecidableEq

/-- A place in a text: what stands before it, and for each parenthesis that is open, the innermost one first, whether
it stands behind a name. -/
structure Context where
  last : Last
  calls : List Bool
deriving Repr, DecidableEq

namespace Context

/-- Where a text starts. -/
def start : Context := ⟨.other, []⟩

/-- The place behind white space. -/
def apart (k : Context) : Context :=
  match k.last with
  | .groupStart | .callEnd => { k with last := .other }
  | _ => k

/-- Whether a character is taken for one that follows directly. -/
def joins (k : Context) (c : Char) : Bool := (k.last == .groupStart && c == ')') || (k.last == .callEnd && c == '.')

/-- The place behind a token. -/
def after (k : Context) : Item → Context
  | .word _ => { k with last := .word }
  | .mark c _ =>
    if c = '(' then if k.last = .word then ⟨.other, true :: k.calls⟩ else ⟨.groupStart, false :: k.calls⟩
    else if c = ')' then ⟨if k.calls.head? = some true then .callEnd else .other, k.calls.tail⟩
    else if c = '.' then { k with last := .dot }
    else { k with last := .other }
  | _ => { k with last := .other }

end Context

/-- The size of the number at the front. -/
def numberSize (cs : List Char) : Nat :=
  if (readInteger cs).used < (readFloat cs).used then (readFloat cs).used else max (readInteger cs).used 1

/-- The token at the front of `c :: cs`, where `c` is not white, and what is left. -/
def readItem (k : Context) (c : Char) (cs : List Char) : Item × List Char :=
  if isNameStart c || (k.last == .dot && isNameChar c) then
    let word := (c :: cs).takeWhile isNameChar
    (.word word, (c :: cs).drop word.length)
  else if c.isDigit then
    let size := numberSize (c :: cs)
    (.number ((c :: cs).take size) (readNumber (c :: cs)).1, (c :: cs).drop size)
  else if c == '"' then
    match untilQuote cs with
    | some (raw, rest) => (.text raw, rest)
    | none => (.unclosed, [])
  else
    match readOperator? (c :: cs) with
    | some (op, rest) => (.operator op, rest)
    | none => (.mark c (k.joins c), cs)

section

variable {k : Context} {c : Char} {cs ds : List Char}

/-! ## What a character starts -/

theorem readNumber_eq (cs : List Char) : readNumber cs = ((readNumber cs).1, skipWhite (cs.drop (numberSize cs))) := by
  unfold readNumber numberSize
  dsimp only
  split <;> rfl

theorem numberSize_pos (cs : List Char) : 0 < numberSize cs := by
  unfold numberSize
  split <;> omega

theorem readItem_word (h : isNameStart c = true ∨ k.last = .dot ∧ isNameChar c = true) (cs : List Char) :
    readItem k c cs = (.word ((c :: cs).takeWhile isNameChar),
      (c :: cs).drop ((c :: cs).takeWhile isNameChar).length) :=
  if_pos (by simpa using h)

theorem readItem_number (hc : c.isDigit = true) (hk : k.last ≠ .dot) (cs : List Char) :
    readItem k c cs = (.number ((c :: cs).take (numberSize (c :: cs))) (readNumber (c :: cs)).1,
      (c :: cs).drop (numberSize (c :: cs))) := by
  have hstart : isNameStart c = false := eq_false_of_ne_true fun h => by simp [isDigit_of_start h] at hc
  unfold readItem
  rw [if_neg (by simp [hstart, hk]), if_pos hc]

theorem readItem_text (k : Context) (cs : List Char) :
    readItem k '"' cs = match untilQuote cs with
      | some (raw, rest) => (.text raw, rest)
      | none => (.unclosed, []) := by
  have hstart : isNameStart '"' = false := by decide
  have hchar : isNameChar '"' = false := by decide
  have hdigit : '"'.isDigit = false := by decide
  simp [readItem, hstart, hchar, hdigit]

/-- The characters that are neither in a name nor a quote. -/
def isPlain (c : Char) : Bool := !isNameChar c && c != '"'

theorem readItem_plain (hc : isPlain c = true) (k : Context) (cs : List Char) :
    readItem k c cs = match readOperator? (c :: cs) with
      | some (op, rest) => (.operator op, rest)
      | none => (.mark c (k.joins c), cs) := by
  simp only [isPlain, Bool.and_eq_true, Bool.not_eq_true', bne_iff_ne] at hc
  obtain ⟨hname, hquote⟩ := hc
  have hstart : isNameStart c = false := by simp_all [isNameChar]
  have hdigit : c.isDigit = false := by simp_all [isNameChar]
  simp [readItem, hstart, hname, hdigit, hquote]

theorem readOperator_none (hop : startsOperator c = false) (cs : List Char) : readOperator? (c :: cs) = none := by
  simp [readOperator?, hop]

theorem readItem_mark (hc : isPlain c = true) (hop : startsOperator c = false) (k : Context) (cs : List Char) :
    readItem k c cs = (.mark c (k.joins c), cs) := by
  rw [readItem_plain hc, readOperator_none hop]

theorem isPlain_of_startsOperator (h : startsOperator c = true) : isPlain c = true := by
  have hall : "<>=&|^/*!%".toList.all isPlain = true := by decide
  exact List.all_eq_true.mp hall c (List.contains_iff_mem.mp h)

theorem readItem_operator (hop : startsOperator c = true) (cs : List Char) :
    ∃ op rest, readOperator? (c :: cs) = some (op, rest) ∧ ∀ k, readItem k c cs = (.operator op, rest) := by
  have hsome : ∃ r, readOperator? (c :: cs) = some r := by
    match cs with
    | [] => simp [readOperator?, hop]
    | d :: cs => by_cases hd : extendsOperator d = true <;> simp [readOperator?, hop, hd]
  obtain ⟨⟨op, rest⟩, hread⟩ := hsome
  refine ⟨op, rest, hread, fun k => ?_⟩
  rw [readItem_plain (isPlain_of_startsOperator hop), hread]

/-- The four kinds of characters. -/
theorem item_cases (k : Context) (c : Char) :
    (isNameStart c = true ∨ k.last = .dot ∧ isNameChar c = true) ∨ (c.isDigit = true ∧ k.last ≠ .dot) ∨ c = '"' ∨
      isPlain c = true := by
  by_cases hstart : isNameStart c = true
  · exact .inl (.inl hstart)
  by_cases hdigit : c.isDigit = true
  · by_cases hk : k.last = .dot
    · exact .inl (.inr ⟨hk, by simp [isNameChar, hdigit]⟩)
    · exact .inr (.inl ⟨hdigit, hk⟩)
  by_cases hquote : c = '"'
  · exact .inr (.inr (.inl hquote))
  · exact .inr (.inr (.inr (by simp [isPlain, isNameChar, hstart, hdigit, hquote])))

theorem isNameChar_of_word {k : Context} {c : Char}
    (h : isNameStart c = true ∨ k.last = .dot ∧ isNameChar c = true) : isNameChar c = true := by
  rcases h with h | ⟨-, h⟩
  · simp [isNameChar, h]
  · exact h

/-- A token takes at least its first character. -/
theorem readItem_suffix (k : Context) (c : Char) (cs : List Char) : (readItem k c cs).2 <:+ cs := by
  rcases item_cases k c with hword | ⟨hdigit, hk⟩ | rfl | hplain
  · rw [readItem_word hword, List.takeWhile_cons_of_pos (isNameChar_of_word hword), List.length_cons,
      List.drop_succ_cons]
    exact List.drop_suffix _ _
  · obtain ⟨n, hn⟩ := Nat.exists_eq_add_of_le' (numberSize_pos (c :: cs))
    rw [readItem_number hdigit hk, hn, List.drop_succ_cons]
    exact List.drop_suffix _ _
  · rw [readItem_text]
    split
    · exact untilQuote_suffix ‹_›
    · exact List.nil_suffix
  · rw [readItem_plain hplain]
    split
    · rename_i op rest hop
      obtain ⟨-, -, behind, hcs, hbehind⟩ := readOperator_first hop
      cases hcs
      exact hbehind
    · exact List.suffix_rfl

theorem readItem_length (k : Context) (c : Char) (cs : List Char) : (readItem k c cs).2.length ≤ cs.length :=
  (readItem_suffix k c cs).length_le

end

/-- The tokens of a text, from a place on. -/
def tokens (k : Context) : List Char → List Item
  | [] => []
  | c :: cs =>
    if isWhite c then tokens k.apart cs
    else (readItem k c cs).1 :: tokens (k.after (readItem k c cs).1) (readItem k c cs).2
termination_by cs => cs.length
decreasing_by
  · exact Nat.lt_succ_self _
  · exact Nat.lt_succ_of_le (readItem_length k c cs)

section

variable {k : Context} {c : Char} {cs ds : List Char}

theorem tokens_nil (k : Context) : tokens k [] = [] := by rw [tokens]

theorem tokens_white (hc : isWhite c = true) (k : Context) (cs : List Char) :
    tokens k (c :: cs) = tokens k.apart cs := by
  rw [tokens, if_pos hc]

theorem tokens_cons (hc : isWhite c = false) (k : Context) (cs : List Char) :
    tokens k (c :: cs) =
      (readItem k c cs).1 :: tokens (k.after (readItem k c cs).1) (readItem k c cs).2 := by
  rw [tokens, if_neg (Bool.eq_false_iff.mp hc)]

/-! ## Places behind white space -/

@[simp]
theorem apart_apart (k : Context) : k.apart.apart = k.apart := by
  obtain ⟨last, calls⟩ := k
  cases last <;> rfl

theorem last_apart_iff {last : Last} (h : last = .word ∨ last = .dot) : k.apart.last = last ↔ k.last = last := by
  obtain ⟨last', calls⟩ := k
  rcases h with rfl | rfl <;> cases last' <;> simp [Context.apart]

theorem joins_apart (k : Context) (c : Char) : k.apart.joins c = false := by
  obtain ⟨last, calls⟩ := k
  cases last <;> simp [Context.apart, Context.joins]

/-- A token that is not joined to what stands before it. -/
def Item.loosened : Item → Item
  | .mark c _ => .mark c false
  | l => l

/-- Tokens that are not joined to what stands before them. -/
def loosened : List Item → List Item
  | [] => []
  | l :: ls => l.loosened :: ls

/-- White space in front makes a token one that is not joined, and nothing else. -/
theorem readItem_apart (k : Context) (c : Char) (cs : List Char) :
    readItem k.apart c cs = ((readItem k c cs).1.loosened, (readItem k c cs).2) := by
  have hdot := last_apart_iff (k := k) (.inr rfl)
  rcases item_cases k c with hword | ⟨hdigit, hk⟩ | rfl | hplain
  · rw [readItem_word hword, readItem_word (by rwa [hdot])]
    rfl
  · rw [readItem_number hdigit hk, readItem_number hdigit (by rwa [Ne, hdot])]
    rfl
  · rw [readItem_text, readItem_text]
    split <;> rfl
  · rw [readItem_plain hplain, readItem_plain hplain, joins_apart]
    split <;> rfl

theorem after_loosened (k : Context) (l : Item) : k.apart.after l.loosened = k.after l := by
  obtain ⟨last, calls⟩ := k
  cases l <;> cases last <;> rfl

theorem tokens_apart (k : Context) (cs : List Char) : tokens k.apart cs = loosened (tokens k cs) := by
  induction cs generalizing k with
  | nil => rw [tokens_nil, tokens_nil, loosened]
  | cons c cs ih =>
    by_cases hc : isWhite c = true
    · rw [tokens_white hc, tokens_white hc, ih k.apart]
    · have hc := eq_false_of_ne_true hc
      rw [tokens_cons hc, tokens_cons hc, readItem_apart, after_loosened, loosened]

theorem tokens_skipWhite (k : Context) (cs : List Char) : tokens k.apart (skipWhite cs) = tokens k.apart cs := by
  induction cs with
  | nil => rfl
  | cons c cs ih =>
    by_cases hc : isWhite c = true
    · rw [tokens_white hc, apart_apart, ← ih, skipWhite, List.dropWhile_cons_of_pos hc, skipWhite]
    · rw [skipWhite, List.dropWhile_cons_of_neg hc]

/-! ## Texts with the same tokens -/

/-- Whether two texts have the same tokens from a place on. -/
def SameTokens (k : Context) (cs ds : List Char) : Prop := tokens k cs = tokens k ds

/-- The first character of a token. -/
def Item.first? : Item → Option Char
  | .number digits _ => digits.head?
  | .word name => name.head?
  | .text _ | .unclosed => some '"'
  | .operator op => some op.first
  | .mark c _ => some c

theorem first_readItem (k : Context) (c : Char) (cs : List Char) : (readItem k c cs).1.first? = some c := by
  rcases item_cases k c with hword | ⟨hdigit, hk⟩ | rfl | hplain
  · rw [readItem_word hword, List.takeWhile_cons_of_pos (isNameChar_of_word hword)]
    rfl
  · obtain ⟨n, hn⟩ := Nat.exists_eq_add_of_le' (numberSize_pos (c :: cs))
    rw [readItem_number hdigit hk, hn]
    rfl
  · rw [readItem_text]
    split <;> rfl
  · rw [readItem_plain hplain]
    split
    · rename_i op rest hop
      obtain ⟨-, -, behind, hcs, -⟩ := readOperator_first hop
      cases hcs
      rfl
    · rfl

/-- Whether a text starts with a token, or is at its end. -/
def Led (cs : List Char) : Prop := ∀ c ∈ cs.head?, isWhite c = false

theorem led_skipWhite (cs : List Char) : Led (skipWhite cs) := by
  intro c hc
  have hhead := List.head?_dropWhile_not isWhite cs
  rwa [show (cs.dropWhile isWhite).head? = some c from hc] at hhead

theorem Led.cons (h : Led (c :: cs)) : isWhite c = false := h c rfl

theorem Led.skipWhite_eq (h : Led cs) : skipWhite cs = cs := by
  cases cs with
  | nil => rfl
  | cons c cs => exact List.dropWhile_cons_of_neg (Bool.eq_false_iff.mp h.cons)

namespace SameTokens

theorem symm (h : SameTokens k cs ds) : SameTokens k ds cs := Eq.symm h

theorem apart (h : SameTokens k cs ds) : SameTokens k.apart cs ds := by
  rw [SameTokens, tokens_apart, tokens_apart, h]

theorem skipWhite (h : SameTokens k cs ds) : SameTokens k.apart (Token.skipWhite cs) (Token.skipWhite ds) := by
  rw [SameTokens, tokens_skipWhite, tokens_skipWhite]
  exact h.apart

/-- Texts that start with a token start with the same one, and go on with the same tokens. -/
theorem cases (h : SameTokens k cs ds) (hcs : Led cs) (hds : Led ds) :
    cs = [] ∧ ds = [] ∨ ∃ c cs' ds', cs = c :: cs' ∧ ds = c :: ds' ∧ isWhite c = false ∧
      (readItem k c cs').1 = (readItem k c ds').1 ∧
      SameTokens (k.after (readItem k c cs').1) (readItem k c cs').2 (readItem k c ds').2 := by
  match cs, ds with
  | [], [] => exact .inl ⟨rfl, rfl⟩
  | [], d :: ds =>
    rw [SameTokens, tokens_nil, tokens_cons hds.cons] at h
    cases h
  | c :: cs, [] =>
    rw [SameTokens, tokens_nil, tokens_cons hcs.cons] at h
    cases h
  | c :: cs, d :: ds =>
    rw [SameTokens, tokens_cons hcs.cons, tokens_cons hds.cons] at h
    obtain ⟨hfirst, hrest⟩ := List.cons.inj h
    have hcd := congrArg Item.first? hfirst
    rw [first_readItem, first_readItem] at hcd
    obtain rfl := Option.some.inj hcd
    exact .inr ⟨c, cs, ds, rfl, rfl, hcs.cons, hfirst, by rwa [← hfirst] at hrest⟩

/-- A character that is a token by itself. -/
theorem mark (h : SameTokens k (c :: cs) (c :: ds)) (hc : isPlain c = true) (hop : startsOperator c = false)
    (hwhite : isWhite c = false) : SameTokens (k.after (.mark c (k.joins c))) cs ds := by
  rw [SameTokens, tokens_cons hwhite, tokens_cons hwhite, readItem_mark hc hop, readItem_mark hc hop] at h
  exact (List.cons.inj h).2

/-- What is joined to what stands before it is so in both texts. -/
theorem joined (h : SameTokens k (c :: cs) ds) (hc : k.joins c = true) : ∃ ds', ds = c :: ds' := by
  have hplain : isPlain c = true ∧ startsOperator c = false ∧ isWhite c = false := by
    simp only [Context.joins, Bool.or_eq_true, Bool.and_eq_true, beq_iff_eq] at hc
    rcases hc with ⟨-, rfl⟩ | ⟨-, rfl⟩ <;> decide
  obtain ⟨hplain, hop, hwhite⟩ := hplain
  rw [SameTokens, tokens_cons hwhite, readItem_mark hplain hop, hc] at h
  match ds with
  | [] =>
    rw [tokens_nil] at h
    cases h
  | d :: ds =>
    by_cases hd : isWhite d = true
    · -- behind white space nothing is joined
      rw [tokens_white hd, tokens_apart] at h
      cases hds : tokens k ds with
      | nil =>
        rw [hds] at h
        cases h
      | cons l ls =>
        rw [hds] at h
        cases l <;> cases (List.cons.inj h).1
    · rw [tokens_cons (eq_false_of_ne_true hd)] at h
      have hfirst := congrArg Item.first? (List.cons.inj h).1
      rw [first_readItem] at hfirst
      cases hfirst
      exact ⟨ds, rfl⟩

end SameTokens

/-- That a name stands before it makes a difference to an opening parenthesis only. -/
theorem tokens_word {calls : List Bool} (hc : isWhite c = false) (hne : c ≠ '(') (cs : List Char) :
    tokens ⟨.word, calls⟩ (c :: cs) = tokens ⟨.other, calls⟩ (c :: cs) := by
  have hsame : readItem ⟨.word, calls⟩ c cs = readItem ⟨.other, calls⟩ c cs := rfl
  have hafter : ∀ l : Item, l.first? = some c → Context.after ⟨.word, calls⟩ l = Context.after ⟨.other, calls⟩ l := by
    intro l hl
    cases l with
    | mark d joined =>
      cases hl
      simp [Context.after, hne]
    | _ => rfl
  rw [tokens_cons hc, tokens_cons hc, hsame, hafter _ (first_readItem _ c cs)]

theorem SameTokens.of_word {calls : List Bool} (h : SameTokens ⟨.word, calls⟩ cs ds) (hcs : Led cs) (hds : Led ds)
    (hne : cs.head? ≠ some '(') : SameTokens ⟨.other, calls⟩ cs ds := by
  rcases h.cases hcs hds with ⟨rfl, rfl⟩ | ⟨c, cs', ds', rfl, rfl, hwhite, -⟩
  · rfl
  · have hne : c ≠ '(' := fun hc => hne (congrArg some hc)
    rwa [SameTokens, tokens_word hwhite hne, tokens_word hwhite hne] at h

end

end HostScript.Token
