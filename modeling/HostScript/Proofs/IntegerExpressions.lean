import HostScript.Calculator
import HostScript.Proofs.IntegerGrammar
/-!
# The value of integer expressions

Reading an expression and adding it up are one thing to the engine: sums, groups and whole texts each
have a loop of their own around the terms, and an operator starts another sum. On integer expressions
they all do what the right-nested reading says, whatever the scope of the engine is. A term is read
within a depth that its length bounds, so the induction is on the depth.
-/

set_option autoImplicit false

namespace HostScript.IntegerExpression

open HostScript.Text HostScript.Token HostScript.Number

/-! ## Evaluations that succeed -/

section Gives

variable {σ α β : Type}

/-- The evaluation gives a value in every session. -/
def Gives (m : Eval σ α) (a : α) : Prop := ∀ s, ∃ s', m.run.run s = (.ok a, s')

theorem Gives.pure (a : α) : Gives (pure a : Eval σ α) a := fun s => ⟨s, rfl⟩

theorem Gives.bind {m : Eval σ α} {f : α → Eval σ β} {a : α} {b : β} (hm : Gives m a) (hf : Gives (f a) b) :
    Gives (m >>= f) b := by
  intro s
  obtain ⟨s₁, h₁⟩ := hm s
  obtain ⟨s₂, h₂⟩ := hf s₁
  refine ⟨s₂, ?_⟩
  simp only [ExceptT.run_bind, StateT.run_bind, h₁]
  exact h₂

theorem Gives.tryCatch {m : Eval σ α} {a : α} (hm : Gives m a) (f : ScriptError → Eval σ α) :
    Gives (tryCatch m f) a := by
  intro s
  obtain ⟨s₁, h₁⟩ := hm s
  refine ⟨s₁, ?_⟩
  simp only [ExceptT.run_tryCatch, StateT.run_bind, h₁]
  rfl

end Gives

/-! ## Integers modulo 2^64 -/

/-- The value of an integer, of which the last 64 bits are kept. -/
def wrapped (n : Int) : Value := .int (Int64.ofInt n)

/-- An accumulator that holds a sum; it is undefined before the first term. -/
def Holds (acc : Value) (n : Int) : Prop := acc = .undefined ∧ n = 0 ∨ acc = wrapped n

theorem Holds.addAssign {acc : Value} {n : Int} (h : Holds acc n) (k : Int) :
    acc.addAssign (wrapped k) = wrapped (n + k) := by
  rcases h with ⟨rfl, rfl⟩ | rfl
  · simp [Value.addAssign, Value.add, Value.assign, Value.keepsType, Value.type]
  · simp [wrapped, Value.addAssign, Value.add, Value.assign, Value.keepsType, Value.type, Value.convert,
      Value.toInt, Value.coerceInt]

theorem holds_undefined : Holds .undefined 0 := .inl ⟨rfl, rfl⟩

theorem holds_wrapped (n : Int) : Holds (wrapped n) n := .inr rfl

theorem applySign_plus (n : Int) : Evaluator.applySign .plus (wrapped n) = wrapped n := by
  have h : roundToInt64 1.0 = 1 := by decide +kernel
  simp [Evaluator.applySign, wrapped, Value.mul, Value.toInt, Value.coerceInt, h]

theorem applySign_minus (n : Int) : Evaluator.applySign .minus (wrapped n) = wrapped (-n) := by
  have h : roundToInt64 (-1.0) = -1 := by decide +kernel
  simp [Evaluator.applySign, wrapped, Value.mul, Value.toInt, Value.coerceInt, h, Int64.mul_neg]

/-- The sign as the engine knows it. -/
def Sign.read : Sign → Token.Sign
  | .plus => .plus
  | .minus => .minus

theorem applySign_wrapped (s : Sign) (n : Int) : Evaluator.applySign s.read (wrapped n) = wrapped (s.factor * n) := by
  cases s
  · simp [Sign.read, applySign_plus, Sign.factor]
  · simp [Sign.read, applySign_minus, Sign.factor]

theorem foldr_applySign (signs : List Sign) (n : Int) :
    (signs.map Sign.read).foldr Evaluator.applySign (wrapped n) = wrapped (signFactor signs * n) := by
  induction signs with
  | nil => simp [signFactor]
  | cons s signs ih => simp [ih, applySign_wrapped, signFactor, Int.mul_assoc]

/-! ## Signs in the text -/

theorem readSigns_skipWhite (cs : List Char) : readSigns cs = readSigns (Token.skipWhite cs) := by
  induction cs with
  | nil => rfl
  | cons c cs ih =>
    cases h : isWhite c
    · simp [Token.skipWhite, h]
    · simpa [readSigns, Token.skipWhite, h] using ih

theorem readSigns_sign (s : Sign) (cs : List Char) :
    readSigns (s.char :: cs) = (s.read :: (readSigns cs).1, (readSigns cs).2) := by
  cases s <;> rfl

theorem readSigns_digit {c : Char} (cs : List Char) (h : c.isDigit = true) : readSigns (c :: cs) = ([], c :: cs) := by
  have hs := isSpace_of_isDigit h
  rw [isSpace, Bool.or_eq_false_iff] at hs
  have hx : signOf? c = none := by
    simp [signOf?, isDigit_ne h (d := '!') rfl, isDigit_ne h (d := '+') rfl, isDigit_ne h (d := '-') rfl]
  simp [readSigns, hs.1, hx]

/-- All signs before an operand are read, and the white space before it. -/
theorem Spaced.readSigns {signs : List Sign} {a : Primary} {ls : List Lexeme} {cs : List Char}
    (h : Spaced (signs.map .sign ++ (a.lexemes ++ ls)) cs) :
    ∃ rest, Token.readSigns cs = (signs.map Sign.read, rest) ∧ Trimmed rest ∧ Spaced (a.lexemes ++ ls) rest ∧
      rest.length ≤ cs.length := by
  induction signs generalizing cs with
  | nil =>
    refine ⟨Token.skipWhite cs, ?_, trimmed_skipWhite cs, h.skipWhite, skipWhite_length cs⟩
    rw [readSigns_skipWhite]
    cases a with
    | literal n =>
      obtain ⟨rest, he, -⟩ := h.front
      obtain ⟨c, ds, hc, hd⟩ := literal_chars n
      rw [he, hc]
      exact readSigns_digit _ hd
    | group r =>
      obtain ⟨rest, he, -⟩ := h.front
      rw [he]
      rfl
  | cons s signs ih =>
    obtain ⟨rest, he, h, hl⟩ := h.front
    obtain ⟨rest', hr, ht, h', hl'⟩ := ih h
    refine ⟨rest', ?_, ht, h', by omega⟩
    rw [readSigns_skipWhite, he]
    simp [Lexeme.chars, readSigns_sign, hr]

/-! ## Operators in the text -/

/-- An expression ends with the text or before a closing parenthesis. -/
def Closing (ls : List Lexeme) : Prop := ls = [] ∨ ∃ more, ls = .closing :: more

/-- The lexemes that may follow a complete term: a sign, and whatever may follow the expression. -/
inductive AfterTerm : List Lexeme → Prop
  | sign (s : Sign) (ls : List Lexeme) : AfterTerm (.sign s :: ls)
  | closing (ls : List Lexeme) : AfterTerm (.closing :: ls)
  | done : AfterTerm []

theorem Closing.afterTerm {ls : List Lexeme} (h : Closing ls) : AfterTerm ls := by
  rcases h with rfl | ⟨more, rfl⟩
  · exact .done
  · exact .closing more

theorem readOperator_none {ls : List Lexeme} {cs : List Char} (hls : AfterTerm ls) (h : Spaced ls cs)
    (ht : Trimmed cs) : readOperator? cs = none := by
  cases hls with
  | sign s ls =>
    obtain ⟨rest, rfl, -⟩ := h.first ht
    cases s <;> rfl
  | closing ls =>
    obtain ⟨rest, rfl, -⟩ := h.first ht
    rfl
  | done =>
    rw [← ht, h.end]
    rfl

theorem readOperator_times {ls : List Lexeme} {cs : List Char} (h : Spaced (.times :: ls) cs) (ht : Trimmed cs) :
    ∃ rest, readOperator? cs = some (⟨'*', none⟩, rest) ∧ Spaced ls rest ∧ rest.length < cs.length := by
  obtain ⟨rest, rfl, h, hl⟩ := h.first ht
  refine ⟨rest, ?_, h, hl⟩
  cases rest with
  | nil => rfl
  | cons c rest => simp [Lexeme.chars, readOperator?, startsOperator, h.extends_false c rfl]

theorem startsSigned_sign {s : Sign} {ls : List Lexeme} {cs : List Char} (h : Spaced (.sign s :: ls) cs)
    (ht : Trimmed cs) : startsSigned cs = true := by
  obtain ⟨rest, rfl, -⟩ := h.first ht
  cases s <;> rfl

theorem startsSigned_closing {ls : List Lexeme} {cs : List Char} (hls : Closing ls) (h : Spaced ls cs)
    (ht : Trimmed cs) : startsSigned cs = false := by
  rcases hls with rfl | ⟨more, rfl⟩
  · rw [← ht, h.end]
    rfl
  · obtain ⟨rest, rfl, -⟩ := h.first ht
    rfl

/-! ## Terms -/

variable {κ ι σ : Type} (ev : Evaluator κ ι σ) {term : TermReader σ}

/-- The reader gives the first term of every expression that is shorter than some depth, and leaves what
follows it without white space in front. -/
def ReadsTerms (term : TermReader σ) (depth : Nat) : Prop :=
  ∀ {r : Reading} {ls : List Lexeme} {cs : List Char},
    Closing ls → Spaced (r.lexemes ++ ls) cs → cs.length < depth →
      ∃ rest, Gives (term cs) (wrapped r.term, rest) ∧ Trimmed rest ∧ Spaced (r.tail.left ++ ls) rest ∧
        rest.length < cs.length

/-- After the first term of an expression there is nothing left of it, or another expression that starts
with a sign. -/
theorem left_cases (r : Reading) :
    (r.tail.left = [] ∧ r.value 1 = r.term) ∨
      ∃ (s : Sign) (next : Reading), r.tail.left = .sign s :: next.lexemes ∧
        r.value 1 = r.term + (next.signed s).value 1 := by
  obtain ⟨signs, a, tail⟩ := r
  have hv := value_eq_term (.mk signs a tail)
  cases tail with
  | done => exact .inl ⟨rfl, by simpa [Reading.tail, Tail.next?] using hv⟩
  | times next => exact .inl ⟨rfl, by simpa [Reading.tail, Tail.next?] using hv⟩
  | plus s next =>
    refine .inr ⟨s, next, ?_, by simpa [Reading.tail, Tail.next?] using hv⟩
    simp [Reading.tail, Tail.left, Tail.next?, lexemes_signed]

/-- The right side of an operator is a whole expression. -/
theorem sum_gives {depth : Nat} (hterm : ReadsTerms term depth) (n : Nat) {r : Reading} {ls : List Lexeme}
    {cs : List Char} {acc : Value} {k : Int} (hls : Closing ls) (h : Spaced (r.lexemes ++ ls) cs)
    (hd : cs.length < depth) (hn : cs.length < n) (hacc : Holds acc k) :
    ∃ rest, Gives (Evaluator.sum term n acc cs) (wrapped (k + r.value 1), rest) ∧ Trimmed rest ∧ Spaced ls rest ∧
      rest.length < cs.length := by
  induction n generalizing r cs acc k with
  | zero => omega
  | succ n ih =>
    obtain ⟨rest, hg, ht, h, hl⟩ := hterm hls h hd
    rcases left_cases r with ⟨he, hv⟩ | ⟨s, next, he, hv⟩
    · rw [he] at h
      refine ⟨rest, hg.bind ?_, ht, h, hl⟩
      simp only [hacc.addAssign, startsSigned_closing hls h ht, hv]
      exact .pure _
    · rw [he] at h
      obtain ⟨rest', hg', ht', h', hl'⟩ := ih (r := next.signed s) (by simpa [lexemes_signed] using h) (by omega)
        (by omega) (holds_wrapped (k + r.term))
      refine ⟨rest', hg.bind ?_, ht', h', by omega⟩
      simp only [hacc.addAssign, startsSigned_sign h ht, hv, if_true, ← Int.add_assoc]
      exact hg'

theorem not_closing {r : Reading} {ls : List Lexeme} {cs : List Char} (h : Spaced (r.lexemes ++ ls) cs) :
    ∀ ds, cs ≠ ')' :: ds := by
  rintro ds rfl
  obtain ⟨l, more, he, hl⟩ : ∃ l more, r.lexemes = l :: more ∧ ')' ∉ l.chars := by
    obtain ⟨_ | ⟨s, signs⟩, a, tail⟩ := r
    · cases a with
      | literal n =>
        exact ⟨_, _, rfl, fun h => by simpa using isDigit_of_toDigits h⟩
      | group r => exact ⟨_, _, rfl, by decide⟩
    · exact ⟨_, _, rfl, by cases s <;> decide⟩
  rw [he] at h
  obtain ⟨rest, hr, -⟩ := h.first rfl
  obtain ⟨c, es, hc, -⟩ := chars_cons l
  rw [hc] at hr hl
  simp only [List.cons_append, List.cons.injEq] at hr
  exact hl (hr.1 ▸ List.mem_cons_self)

/-- A group is read through its closing parenthesis. -/
theorem group_gives {depth : Nat} (hterm : ReadsTerms term depth) (n : Nat) {r : Reading} {ls : List Lexeme}
    {cs : List Char} {acc : Value} {k : Int} (h : Spaced (r.lexemes ++ .closing :: ls) cs)
    (hd : cs.length < depth) (hn : cs.length < n) (hacc : Holds acc k) :
    ∃ rest, Gives (Evaluator.group term n acc cs) (wrapped (k + r.value 1), rest) ∧ Trimmed rest ∧
      Spaced ls rest ∧ rest.length < cs.length := by
  induction n generalizing r cs acc k with
  | zero => omega
  | succ n ih =>
    obtain ⟨rest, hg, ht, h', hl⟩ := hterm (.inr ⟨ls, rfl⟩) h hd
    have hstep : ∀ {v : Value} {left : List Char}, Gives (Evaluator.group term n (wrapped (k + r.term)) rest) (v, left) →
        Gives (Evaluator.group term (n + 1) acc cs) (v, left) := by
      intro v left hv
      rw [Evaluator.group.eq_3 _ _ _ _ (not_closing h)]
      refine (hg.tryCatch _).bind ?_
      simpa only [hacc.addAssign] using hv
    rcases left_cases r with ⟨he, hv⟩ | ⟨s, next, he, hv⟩
    · rw [he] at h'
      obtain ⟨more, rfl, h', hl'⟩ := h'.first ht
      obtain ⟨n, rfl⟩ : ∃ m, n = m + 1 := ⟨n - 1, by omega⟩
      refine ⟨Token.skipWhite more, hstep ?_, trimmed_skipWhite more, h'.skipWhite, ?_⟩
      · rw [hv]
        exact .pure _
      · have := skipWhite_length more
        omega
    · rw [he] at h'
      obtain ⟨rest', hg', ht', h', hl'⟩ := ih (r := next.signed s) (by simpa [lexemes_signed] using h') (by omega)
        (by omega) (holds_wrapped (k + r.term))
      refine ⟨rest', hstep ?_, ht', h', by omega⟩
      rwa [hv, ← Int.add_assoc]

/-! ## Operators -/

theorem valueOf_gives (v : Value) : Gives (ev.valueOf (.value v)) v := fun s => ⟨s, rfl⟩

theorem operate_times (m k : Int) (rest : List Char) :
    Gives (ev.operate ⟨'*', none⟩ none (.value (wrapped m)) (wrapped k) rest) (.value (wrapped (m * k))) := by
  have hmul : (wrapped m).mul (wrapped k) = wrapped (m * k) := by
    simp [wrapped, Value.mul, Value.toInt, Value.coerceInt]
  have hp : Gives (ev.promote ⟨'*', none⟩ (.value (wrapped m)) (wrapped k)) (.value (wrapped m), wrapped k) :=
    (valueOf_gives ev _).bind (.pure _)
  refine hp.bind ((valueOf_gives ev _).bind ?_)
  intro s
  refine ⟨{ s with state := ev.scope.setCells (ev.scope.cells s.state) s.state }, ?_⟩
  rw [hmul]
  rfl

theorem operator_none {ls : List Lexeme} {cs : List Char} (a : Operand) (hls : AfterTerm ls) (h : Spaced ls cs)
    (ht : Trimmed cs) : Gives (ev.operator? term none a cs) none := by
  simp only [Evaluator.operator?, readOperator_none hls h ht]
  exact .pure _

/-- A product takes all that follows as its right side. -/
theorem operator_times {depth : Nat} (hterm : ReadsTerms term depth) {r : Reading} {ls : List Lexeme}
    {cs : List Char} (m : Int) (hls : Closing ls) (h : Spaced (.times :: r.lexemes ++ ls) cs) (ht : Trimmed cs)
    (hd : cs.length < depth + 1) :
    ∃ rest, Gives (ev.operator? term none (.value (wrapped m)) cs) (some (.value (wrapped (m * r.value 1)), rest)) ∧
      Trimmed rest ∧ Spaced ls rest ∧ rest.length < cs.length := by
  obtain ⟨right, hr, h, hl⟩ := readOperator_times h ht
  obtain ⟨rest, hg, ht', h', hl'⟩ := sum_gives hterm (right.length + 1) hls h (by omega) (by omega) holds_undefined
  rw [Int.zero_add] at hg
  refine ⟨rest, ?_, ht', h', by omega⟩
  simp only [Evaluator.operator?, hr]
  exact hg.bind ((operate_times ev m _ rest).bind (.pure _))

theorem operators_none {ls : List Lexeme} {cs : List Char} (n : Nat) (a : Operand) (hls : AfterTerm ls)
    (h : Spaced ls cs) (ht : Trimmed cs) : Gives (ev.operators term n none a cs) (a, cs) := by
  cases n with
  | zero => exact .pure _
  | succ n => exact (operator_none ev a hls h ht).bind (.pure _)

theorem left_afterTerm (tail : Tail) {ls : List Lexeme} (hls : Closing ls) : AfterTerm (tail.left ++ ls) := by
  cases tail with
  | plus s next =>
    simp only [Tail.left, Tail.next?, Option.map_some, Option.getD_some, lexemes_signed]
    exact .sign s _
  | done => exact hls.afterTerm
  | times next => exact hls.afterTerm

theorem lexemes_eq_left (tail : Tail) (h : ∀ next, tail ≠ .times next) : tail.lexemes = tail.left := by
  cases tail with
  | done => rfl
  | plus s next => simp [Tail.lexemes, Tail.left, Tail.next?, lexemes_signed]
  | times next => exact absurd rfl (h next)

theorem term_eq_self (tail : Tail) (h : ∀ next, tail ≠ .times next) (m : Int) : tail.term m = m := by
  cases tail with
  | times next => exact absurd rfl (h next)
  | done => rfl
  | plus s next => rfl

/-- The operators after an operand complete its term. -/
theorem operators_gives {depth : Nat} (hterm : ReadsTerms term depth) (tail : Tail) {ls : List Lexeme}
    {cs : List Char} (m : Int) (hls : Closing ls) (h : Spaced (tail.lexemes ++ ls) cs) (ht : Trimmed cs)
    (hd : cs.length < depth + 1) :
    ∃ rest, Gives (ev.operators term (cs.length + 1) none (.value (wrapped m)) cs)
        (.value (wrapped (tail.term m)), rest) ∧
      Trimmed rest ∧ Spaced (tail.left ++ ls) rest ∧ rest.length ≤ cs.length := by
  by_cases hx : ∃ next, tail = .times next
  · obtain ⟨next, rfl⟩ := hx
    obtain ⟨rest, hg, ht', h', hl⟩ := operator_times ev hterm m hls h ht hd
    exact ⟨rest, hg.bind (operators_none ev _ _ hls.afterTerm h' ht'), ht', h', by omega⟩
  · rw [not_exists] at hx
    rw [lexemes_eq_left tail hx] at h
    refine ⟨cs, ?_, ht, h, Nat.le_refl _⟩
    rw [term_eq_self tail hx]
    exact operators_none ev _ _ (left_afterTerm tail hls) h ht

/-! ## Operands -/

theorem tail_not_literal (tail : Tail) {ls : List Lexeme} (hls : Closing ls) (n : Literal) :
    (tail.lexemes ++ ls).head? ≠ some (.literal n) := by
  cases tail with
  | done => rcases hls with rfl | ⟨more, rfl⟩ <;> simp [Tail.lexemes]
  | plus s next => simp [Tail.lexemes]
  | times next => simp [Tail.lexemes]

/-- A numeral is read, and then the operator after it. -/
theorem atom_literal {n : Literal} {more : List Char} (hend : Ended more) {r : Option (Operand × List Char)}
    (hg : Gives (ev.operator? term none (.value (wrapped n.val)) (Token.skipWhite more)) r) :
    Gives (ev.atom term ((Lexeme.literal n).chars ++ more))
      ⟨(r.map Prod.fst).getD (.value (wrapped n.val)), none, (r.map Prod.snd).getD (Token.skipWhite more)⟩ := by
  have hr : readNumber ((Lexeme.literal n).chars ++ more) = (wrapped n.val, Token.skipWhite more) := by
    rw [Lexeme.chars, readNumber_toDigits (Nat.le_of_lt_succ n.isLt) hend]
    rfl
  obtain ⟨c, ds, hc, hdig⟩ := literal_chars n
  have hp : c ≠ '(' := isDigit_ne hdig rfl
  rw [hc, List.cons_append] at hr ⊢
  simp only [Evaluator.atom, beq_iff_eq, hp, hdig, if_true, if_false, hr]
  refine hg.bind ?_
  cases r <;> exact .pure _

/-- A numeral takes the product it stands in along with it, a group does not; the term is the same. -/
theorem atom_gives {depth : Nat} (hterm : ReadsTerms term depth) (a : Primary) (tail : Tail) {ls : List Lexeme}
    {cs : List Char} (hls : Closing ls) (h : Spaced (a.lexemes ++ (tail.lexemes ++ ls)) cs) (ht : Trimmed cs)
    (hd : cs.length < depth + 1) :
    ∃ m tail' rest, Gives (ev.atom term cs) ⟨.value (wrapped m), none, rest⟩ ∧ Trimmed rest ∧
      Spaced (Tail.lexemes tail' ++ ls) rest ∧ rest.length < cs.length ∧ tail'.left = tail.left ∧
      ∀ f : Int, tail'.term (f * m) = tail.term (f * a.value) := by
  cases a with
  | literal n =>
    obtain ⟨more, rfl, h, hl⟩ := h.first ht
    have hlen := skipWhite_length more
    have hend : Ended more := h.ended (tail_not_literal tail hls)
    by_cases hx : ∃ next, tail = .times next
    · obtain ⟨next, rfl⟩ := hx
      obtain ⟨rest, hg, ht', h', hl'⟩ :=
        operator_times ev hterm n.val hls h.skipWhite (trimmed_skipWhite more) (by omega)
      exact ⟨_, .done, rest, atom_literal ev hend hg, ht', h', by omega, rfl,
        fun f => (Int.mul_assoc f _ _).symm⟩
    · rw [not_exists] at hx
      have hafter : AfterTerm (tail.lexemes ++ ls) := by
        rw [lexemes_eq_left tail hx]
        exact left_afterTerm tail hls
      have hg : Gives (ev.operator? term none (.value (wrapped n.val)) (Token.skipWhite more)) none :=
        operator_none ev _ hafter h.skipWhite (trimmed_skipWhite more)
      exact ⟨_, tail, _, atom_literal ev hend hg, trimmed_skipWhite more, h.skipWhite,
        Nat.lt_of_le_of_lt hlen hl, rfl, fun f => rfl⟩
  | group r =>
    have hls' : (Primary.group r).lexemes ++ (tail.lexemes ++ ls) =
        .opening :: (r.lexemes ++ .closing :: (tail.lexemes ++ ls)) := by
      simp [Primary.lexemes]
    rw [hls'] at h
    obtain ⟨more, rfl, h, hl⟩ := h.first ht
    obtain ⟨rest, hg, ht', h', hl'⟩ :=
      group_gives hterm (('(' :: more).length + 1) h (by omega) (by rw [List.length_cons]; omega) holds_undefined
    rw [Int.zero_add] at hg
    exact ⟨_, tail, rest, hg.bind (.pure _), ht', h', by omega, rfl, fun f => rfl⟩

theorem operand_gives {signs : List Sign} {cs rest left : List Char} {m : Int}
    (hs : Token.readSigns cs = (signs.map Sign.read, rest))
    (ha : Gives (ev.atom term rest) ⟨.value (wrapped m), none, left⟩) :
    Gives (ev.operand term cs) ⟨.value (wrapped (signFactor signs * m)), none, left⟩ := by
  simp only [Evaluator.operand, hs]
  refine ha.bind ?_
  cases signs with
  | nil =>
    rw [signFactor, List.foldr_nil, Int.one_mul]
    exact .pure _
  | cons s signs =>
    refine (valueOf_gives ev _).bind ?_
    rw [← foldr_applySign]
    exact .pure _

/-! ## Depth -/

theorem termWith_readsTerms {depth : Nat} (hterm : ReadsTerms term depth) :
    ReadsTerms (ev.termWith term) (depth + 1) := by
  intro r ls cs hls h hd
  obtain ⟨signs, a, tail⟩ := r
  simp only [Reading.lexemes, List.append_assoc] at h
  obtain ⟨front, hs, ht, h, hl⟩ := h.readSigns
  obtain ⟨m, tail', left, ha, ht, h, hl', hleft, hvalue⟩ := atom_gives ev hterm a tail hls h ht (by omega)
  obtain ⟨rest, ho, ht, h, hl''⟩ := operators_gives ev hterm tail' (signFactor signs * m) hls h ht (by omega)
  refine ⟨rest, ?_, ht, hleft ▸ h, by omega⟩
  rw [hvalue] at ho
  exact (operand_gives ev hs ha).bind (ho.bind ((valueOf_gives ev _).bind (.pure _)))

/-- Terms nested up to some depth are read in every text that is shorter. -/
theorem termAt_readsTerms (depth : Nat) : ReadsTerms (ev.termAt depth) depth := by
  induction depth with
  | zero => exact fun _ _ hd => absurd hd (Nat.not_lt_zero _)
  | succ depth ih => exact termWith_readsTerms ev ih

/-! ## Whole texts -/

theorem terms_gives {depth : Nat} (hterm : ReadsTerms term depth) (n : Nat) {r : Reading} {cs : List Char}
    {acc : Value} {k : Int} (h : Spaced r.lexemes cs) (hd : cs.length < depth) (hn : cs.length < n)
    (hacc : Holds acc k) : Gives (Evaluator.terms term n acc cs) (wrapped (k + r.value 1)) := by
  induction n generalizing r cs acc k with
  | zero => omega
  | succ n ih =>
    have hlen := skipWhite_length cs
    have hspaced : Spaced (r.lexemes ++ []) (Token.skipWhite cs) := by simpa using h.skipWhite
    obtain ⟨rest, hg, ht, h', hl⟩ := hterm (.inl rfl) hspaced (by omega)
    rw [List.append_nil] at h'
    obtain ⟨c, ds, hcs⟩ := List.exists_cons_of_length_pos (Nat.zero_lt_of_lt hl)
    rw [hcs] at hg
    simp only [Evaluator.terms, hcs]
    refine hg.bind ?_
    rcases left_cases r with ⟨he, hv⟩ | ⟨s, next, he, hv⟩
    · rw [he] at h'
      have hrest : rest = [] := ht.symm.trans h'.end
      simp only [hrest, hacc.addAssign, hv]
      exact .pure _
    · rw [he] at h'
      have hnext := ih (r := next.signed s) (by rwa [lexemes_signed]) (by omega) (by omega)
        (holds_wrapped (k + r.term))
      rw [Int.add_assoc, ← hv] at hnext
      obtain ⟨more, rfl, -⟩ := h'.first ht
      have hdelim : isDelimiter s.char = true := by cases s <;> rfl
      simpa [Lexeme.chars, hdelim, hacc.addAssign] using hnext

/-- An engine gives an integer expression the value of its reading. -/
theorem expression_gives {r : Reading} {cs : List Char} (h : Spaced r.lexemes cs) :
    Gives (ev.expression cs) (wrapped (r.value 1)) := by
  have hg := terms_gives (termAt_readsTerms ev (cs.length + 1)) (cs.length + 1) h (by omega) (by omega) holds_undefined
  rwa [Int.zero_add] at hg

/-- However a tree is built and spaced, evaluating its text succeeds and gives the value of its
right-nested reading, of which the last 64 bits are kept. -/
theorem calculate_reading (engine : Engine κ ι σ) (depth : Nat) (session : Session σ) (t : Tree) (text : String)
    (h : Spaced t.lexemes text.toList) :
    t.reading.lexemes = t.lexemes ∧
      (engine.calculate (depth + 1) text session).1 = some (.int (Int64.ofInt (t.reading.value 1))) := by
  refine ⟨lexemes_reading t, ?_⟩
  rw [← lexemes_reading] at h
  obtain ⟨s', hs⟩ := expression_gives { engine with nested := engine.calculate depth } h { session with errors := .clear }
  have hrun : (engine.calculate (depth + 1) text).run session = (some (wrapped (t.reading.value 1)), s') := by
    simp only [Engine.calculate, StateT.run_bind, StateT.run_modify, pure_bind, hs]
    rfl
  exact congrArg Prod.fst hrun

theorem white_nil : White [] := by simp [White]

theorem white_blank : White [' '] := by simp [White, isWhite]

/-- The product takes the sum after it as its right side. -/
theorem calculate_reading_product :
    let t : Tree := .sum (.product (.literal 2) (.literal 3)) .plus (.literal 4)
    Spaced t.lexemes " 2 * 3+4".toList ∧ Calculator.evaluate? .zero " 2 * 3+4" = some (.int 14) := by
  intro t
  have h : Spaced t.lexemes " 2 * 3+4".toList :=
    .lexeme white_blank (l := .literal 2) <| .lexeme white_blank (l := .times) <|
    .lexeme white_blank (l := .literal 3) <| .lexeme white_nil (l := .sign .plus) <|
    .lexeme white_nil (l := .literal 4) (.done white_nil)
  exact ⟨h, (calculate_reading Calculator.engine 0 ⟨.zero, .clear⟩ t _ h).2⟩

end HostScript.IntegerExpression
