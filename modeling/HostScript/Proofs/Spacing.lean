import HostScript.Proofs.LongestNumerals
import HostScript.Proofs.TokenEvaluation
/-!
# White space between tokens

White space may be put at any place between two tokens, and an expression comes to the same. The tokens stay what they
are, because none of them is longer than what was read of it, whatever takes the place of what follows. There are two
places where this fails: between the parentheses of an empty group, and between a call and the dot behind it.
-/

set_option autoImplicit false

namespace HostScript

open HostScript.Text HostScript.Token HostScript.Number

namespace Token

/-- Whether a text starts with white space, or is at its end. -/
def StartsWhite (cs : List Char) : Prop := ∀ c ∈ cs.head?, isWhite c = true

theorem StartsWhite.ne {c d : Char} {cs : List Char} (h : StartsWhite (c :: cs)) (hd : isWhite d = false) :
    c ≠ d := by
  rintro rfl
  rw [h c rfl] at hd
  cases hd

theorem StartsWhite.ended {cs : List Char} (h : StartsWhite cs) : Ended cs := by
  intro c hc
  have hwhite := h c hc
  refine ⟨isNameChar_of_isWhite hwhite, ?_⟩
  rintro rfl
  exact absurd hwhite (by decide)

theorem StartsWhite.extends_false {cs : List Char} (h : StartsWhite cs) :
    ∀ d ∈ cs.head?, extendsOperator d = false := by
  intro d hd
  simpa using of_isWhite (P := fun d => !extendsOperator d) (by decide) (h d hd)

end Token

/-! ## Numbers with something else behind them -/

namespace Number

variable {q y : List Char}

/-- Digits that do not go beyond a place are read the same if they cannot go on there. -/
theorem leadingDigits_cut {base : Nat} (hy : Ended y) (x : List Char)
    (h : (leadingDigits base (q ++ x)).length ≤ q.length) :
    leadingDigits base (q ++ y) = leadingDigits base (q ++ x) := by
  induction q with
  | nil =>
    rw [List.nil_append, List.nil_append, leadingDigits_ended base hy]
    exact (List.eq_nil_of_length_eq_zero (Nat.le_zero.mp h)).symm
  | cons c q ih =>
    rw [List.cons_append, List.cons_append, leadingDigits, leadingDigits]
    cases hd : digitValue? base c with
    | none => rfl
    | some d =>
      rw [List.cons_append, leadingDigits, hd] at h
      exact congrArg (d :: ·) (ih (Nat.le_of_succ_le_succ h))

theorem signOf_append {c : Char} (q x : List Char) : signOf (c :: q ++ x) = signOf (c :: q) := by
  unfold signOf
  split <;> simp_all

theorem signOf_startsWhite (hy : StartsWhite y) : signOf y = (false, 0) := by
  unfold signOf
  split
  · exact absurd rfl (hy.ne (d := '-') (by decide))
  · exact absurd rfl (hy.ne (d := '+') (by decide))
  · rfl

/-- What a sign and the digits behind it make of an exponent. -/
def exponentOf (sign : Bool × Nat) (digits : List Nat) : Reading Int :=
  if digits.isEmpty then ⟨0, 0⟩
  else ⟨if sign.1 then -(exponentOfDigits digits : Int) else exponentOfDigits digits, 1 + sign.2 + digits.length⟩

theorem readExponent_cons (e : Char) (cs : List Char) :
    readExponent (e :: cs) = if e == 'e' || e == 'E' then
      exponentOf (signOf cs) (leadingDigits 10 (cs.drop (signOf cs).2)) else ⟨0, 0⟩ := rfl

theorem exponentOf_nothing {sign : Bool × Nat} {digits : List Nat} (h : (exponentOf sign digits).used ≤ 1) :
    exponentOf sign digits = ⟨0, 0⟩ := by
  unfold exponentOf at h ⊢
  split
  · rfl
  · rename_i hdigits
    have hpos := List.length_pos_iff.mpr (mt List.isEmpty_iff.mpr hdigits)
    rw [if_neg hdigits] at h
    dsimp only at h
    omega

theorem readExponent_nothing {cs : List Char} (h : (readExponent cs).used ≤ 1) : readExponent cs = ⟨0, 0⟩ := by
  cases cs with
  | nil => rfl
  | cons e cs =>
    rw [readExponent_cons] at h ⊢
    split
    · rw [if_pos ‹_›] at h
      exact exponentOf_nothing h
    · rfl

theorem length_le_exponentOf (sign : Bool × Nat) (digits : List Nat) :
    digits.length ≤ (exponentOf sign digits).used - (1 + sign.2) := by
  unfold exponentOf
  split
  · rename_i hdigits
    rw [List.isEmpty_iff.mp hdigits]
    exact Nat.zero_le _
  · dsimp only
    omega

theorem readExponent_cut (hy : StartsWhite y) (x : List Char) (h : (readExponent (q ++ x)).used ≤ q.length) :
    readExponent (q ++ y) = readExponent (q ++ x) := by
  match q with
  | [] => exact (readExponent_ended hy.ended).trans (readExponent_nothing (h.trans (Nat.zero_le 1))).symm
  | [e] =>
    -- neither the letter alone is an exponent, nor a sign without digits
    refine Eq.trans ?_ (readExponent_nothing h).symm
    simp [readExponent_cons, signOf_startsWhite hy, leadingDigits_ended 10 hy.ended, exponentOf]
  | e :: c :: q =>
    have hsign : (signOf (c :: q)).2 ≤ (c :: q).length := signOf_le _
    have hread : ∀ z : List Char, readExponent (e :: c :: q ++ z) = if e == 'e' || e == 'E' then
        exponentOf (signOf (c :: q)) (leadingDigits 10 ((c :: q).drop (signOf (c :: q)).2 ++ z)) else ⟨0, 0⟩ := by
      intro z
      rw [List.cons_append, readExponent_cons, signOf_append, List.drop_append_of_le_length hsign]
    rw [hread] at h
    rw [hread, hread]
    split
    · rw [if_pos ‹_›] at h
      have hle := length_le_exponentOf (signOf (c :: q)) (leadingDigits 10 ((c :: q).drop (signOf (c :: q)).2 ++ x))
      simp only [List.length_cons] at h hsign
      rw [leadingDigits_cut hy.ended x (by rw [List.length_drop, List.length_cons]; omega)]
    · rfl

/-! ## Decimal numbers -/

/-- The point at the front, and the digits behind it. -/
def fractionOf (cs : List Char) : Nat × List Nat :=
  if cs.head? == some '.' then (1, leadingDigits 10 cs.tail) else (0, [])

/-- What the digits of a decimal number make, with the exponent behind them. -/
def decimalOf (negative : Bool) (before : Nat) (whole fraction : List Nat) (point : Nat) (exponent : Reading Int) :
    Reading Float :=
  if (whole ++ fraction).isEmpty then ⟨0.0, 0⟩
  else
    ⟨floatOfDecimal negative (ofDigits 10 (whole ++ fraction)) (whole ++ fraction).length
        (exponent.value - fraction.length),
      before + whole.length + point + fraction.length + exponent.used⟩

theorem readDecimal_eq (negative : Bool) (before : Nat) (cs : List Char) :
    readDecimal negative before cs =
      let whole := leadingDigits 10 cs
      let fraction := fractionOf (cs.drop whole.length)
      decimalOf negative before whole fraction.2 fraction.1
        (readExponent ((cs.drop whole.length).drop (fraction.1 + fraction.2.length))) := by
  unfold readDecimal fractionOf decimalOf
  dsimp only
  by_cases hpoint : ((cs.drop (leadingDigits 10 cs).length).head? == some '.') = true
  · simp only [if_pos hpoint]
  · simp only [if_neg hpoint]

theorem fractionOf_cut (hy : StartsWhite y) (x : List Char)
    (h : (fractionOf (q ++ x)).1 + (fractionOf (q ++ x)).2.length ≤ q.length) :
    fractionOf (q ++ y) = fractionOf (q ++ x) := by
  unfold fractionOf at h ⊢
  cases q with
  | nil =>
    have hx : ¬(x.head? == some '.') = true := by
      intro hx
      rw [List.nil_append, if_pos hx, List.length_nil] at h
      dsimp only at h
      omega
    have hy : ¬(y.head? == some '.') = true := by
      intro hpoint
      exact absurd (hy '.' (beq_iff_eq.mp hpoint)) (by decide)
    rw [List.nil_append, List.nil_append, if_neg hx, if_neg hy]
  | cons c q =>
    rw [List.cons_append, List.head?_cons, List.tail_cons] at h ⊢
    rw [List.cons_append, List.head?_cons, List.tail_cons]
    split
    · rw [if_pos ‹_›, List.length_cons] at h
      dsimp only at h
      rw [leadingDigits_cut hy.ended x (by omega)]
    · rfl

/-- A decimal number that does not go beyond a place is read the same if white space stands there. -/
theorem readDecimal_cut (negative : Bool) (before : Nat) (hy : StartsWhite y) (x : List Char)
    (hwhole : leadingDigits 10 (q ++ x) ≠ []) (h : (readDecimal negative before (q ++ x)).used ≤ before + q.length) :
    readDecimal negative before (q ++ y) = readDecimal negative before (q ++ x) := by
  have hsome : ∀ (point : Nat) (fraction : List Nat) (exponent : Reading Int),
      (decimalOf negative before (leadingDigits 10 (q ++ x)) fraction point exponent).used =
        before + (leadingDigits 10 (q ++ x)).length + point + fraction.length + exponent.used := by
    intro point fraction exponent
    unfold decimalOf
    rw [if_neg (by simp [hwhole])]
  rw [readDecimal_eq] at h
  rw [readDecimal_eq, readDecimal_eq]
  dsimp only at h ⊢
  rw [hsome] at h
  rw [leadingDigits_cut hy.ended x (by omega)]
  generalize (leadingDigits 10 (q ++ x)).length = size at h ⊢
  have hdrop : ∀ z : List Char, (q ++ z).drop size = q.drop size ++ z :=
    fun z => List.drop_append_of_le_length (by omega)
  have hlength : (q.drop size).length = q.length - size := List.length_drop
  rw [hdrop] at h
  rw [hdrop, hdrop, fractionOf_cut hy x (by omega)]
  generalize fractionOf (q.drop size ++ x) = fraction at h ⊢
  have hdrop' : ∀ z : List Char, (q.drop size ++ z).drop (fraction.1 + fraction.2.length) =
      (q.drop size).drop (fraction.1 + fraction.2.length) ++ z :=
    fun z => List.drop_append_of_le_length (by omega)
  rw [hdrop'] at h
  rw [hdrop', hdrop', readExponent_cut hy x (by rw [List.length_drop]; omega)]

/-! ## Numbers that start with a digit -/

/-- A number without a sign that does not go beyond a place is read the same if white space stands there. -/
theorem readUnsigned_cut {c : Char} (hy : StartsWhite y) (x : List Char)
    (h : (readUnsigned (c :: (q ++ x))).used ≤ (c :: q).length) :
    readUnsigned (c :: (q ++ y)) = readUnsigned (c :: (q ++ x)) := by
  by_cases hzero : c = '0'
  · subst hzero
    rcases detectBase_zero_cases (q ++ x) with ⟨m, d, rest, hrest, hm, hd⟩ | hbase
    · -- the digits of a hexadecimal number are behind its mark
      obtain ⟨n, hn⟩ := Option.isSome_iff_exists.mp hd
      rw [hrest, readUnsigned_hexadecimal rest hm hd, leadingDigits, hn] at h
      simp only [List.length_cons] at h
      have hlong : 2 ≤ q.length := by omega
      obtain ⟨m', q, rfl⟩ := List.exists_cons_of_length_pos (Nat.lt_of_lt_of_le Nat.two_pos hlong)
      obtain ⟨d', q, rfl⟩ := List.exists_cons_of_length_pos (Nat.le_of_succ_le_succ hlong)
      simp only [List.cons_append, List.cons.injEq] at hrest
      obtain ⟨rfl, rfl, rfl⟩ := hrest
      have hlen : (leadingDigits 16 (d' :: q ++ x)).length ≤ (d' :: q).length := by
        rw [List.cons_append, leadingDigits, hn]
        simp only [List.length_cons] at h ⊢
        omega
      have hcut := leadingDigits_cut hy.ended x hlen
      simp only [List.cons_append] at hcut ⊢
      rw [readUnsigned_hexadecimal _ hm hd, readUnsigned_hexadecimal _ hm hd, hcut]
    · have hbase' : detectBase ('0' :: (q ++ y)) = (8, 0) := by
        -- what would be the mark and a digit behind it was there before
        rcases q with - | ⟨m, - | ⟨d, q⟩⟩
        · exact detectBase_zero hy.ended
        · have hdigit : ∀ d ∈ y.head?, isHexDigit d = false := by
            intro d hd
            rw [isHexDigit, digitValue_none 16 (isNameChar_of_isWhite (hy d hd))]
            rfl
          cases y with
          | nil => rfl
          | cons d y => simp [detectBase, hdigit d rfl]
        · exact hbase
      rw [readUnsigned_octal hbase] at h ⊢
      rw [readUnsigned_octal hbase', leadingDigits_cut hy.ended x]
      rw [List.length_cons] at h
      dsimp only at h
      omega
  · rw [readUnsigned_decimal _ hzero] at h ⊢
    rw [readUnsigned_decimal _ hzero]
    have hcut := leadingDigits_cut (q := c :: q) hy.ended x h
    rw [List.cons_append, List.cons_append] at hcut
    rw [hcut]

theorem readInteger_of_isDigit {c : Char} (hc : c.isDigit = true) (cs : List Char) :
    readInteger (c :: cs) =
      ⟨Int64.ofInt (min ((readUnsigned (c :: cs)).value : Int) maxMagnitude), (readUnsigned (c :: cs)).used⟩ := by
  have hspace : (c :: cs).takeWhile isSpace = [] := List.takeWhile_cons_of_neg (by simp [isSpace_of_isDigit hc])
  have hbehind : behindSpace (c :: cs) = c :: cs := List.dropWhile_cons_of_neg (by simp [isSpace_of_isDigit hc])
  have hpos := (readUnsigned_unsigned hc cs).2
  rw [readInteger_eq, hbehind, behindSign_of_isDigit hc, signOf_of_isDigit hc, hspace]
  dsimp only
  rw [if_neg (Nat.pos_iff_ne_zero.mp hpos), if_neg (by decide), List.length_nil, Nat.zero_add]

theorem readFloat_of_isDigit {c : Char} (hc : c.isDigit = true) (cs : List Char) :
    readFloat (c :: cs) = readDecimal false 0 (c :: cs) := by
  simp [readFloat, isSpace_of_isDigit hc, signOf_of_isDigit hc, floatWords_none hc]

end Number

namespace Token

variable {k k' : Context} {c : Char} {cs q x y : List Char}

theorem readInteger_used_le_size (cs : List Char) : (readInteger cs).used ≤ numberSize cs := by
  unfold numberSize
  split <;> omega

theorem readFloat_used_le_size (cs : List Char) : (readFloat cs).used ≤ numberSize cs := by
  unfold numberSize
  split <;> omega

/-- A number that does not go beyond a place is read the same if white space stands there. -/
theorem readNumber_cut (hc : c.isDigit = true) (hy : StartsWhite y) (h : numberSize (c :: (q ++ x)) ≤ (c :: q).length) :
    numberSize (c :: (q ++ y)) = numberSize (c :: (q ++ x)) ∧
      (readNumber (c :: (q ++ y))).1 = (readNumber (c :: (q ++ x))).1 := by
  have hint : readInteger (c :: (q ++ y)) = readInteger (c :: (q ++ x)) := by
    have hle := (readInteger_used_le_size _).trans h
    rw [readInteger_of_isDigit hc] at hle
    rw [readInteger_of_isDigit hc, readInteger_of_isDigit hc, readUnsigned_cut hy x hle]
  have hfloat : readFloat (c :: (q ++ y)) = readFloat (c :: (q ++ x)) := by
    have hle := (readFloat_used_le_size _).trans h
    have hwhole : leadingDigits 10 (c :: q ++ x) ≠ [] := by
      simp [leadingDigits, digitValue_ten hc]
    rw [readFloat_of_isDigit hc] at hle
    rw [readFloat_of_isDigit hc, readFloat_of_isDigit hc]
    exact readDecimal_cut false 0 hy x hwhole (hle.trans_eq (Nat.zero_add _).symm)
  unfold numberSize readNumber
  rw [hint, hfloat]
  refine ⟨rfl, ?_⟩
  dsimp only
  split <;> rfl

/-! ## Other tokens with something else behind them -/

theorem takeWhile_cut {p : Char → Bool} (hy : ∀ c ∈ y.head?, p c = false)
    (h : ((q ++ x).takeWhile p).length ≤ q.length) : (q ++ y).takeWhile p = (q ++ x).takeWhile p := by
  induction q with
  | nil =>
    rw [List.eq_nil_of_length_eq_zero (Nat.le_zero.mp h), List.nil_append]
    cases y with
    | nil => rfl
    | cons c y => exact List.takeWhile_cons_of_neg (by simp [hy c rfl])
  | cons c q ih =>
    rw [List.cons_append] at h
    rw [List.cons_append, List.cons_append]
    by_cases hc : p c = true
    · rw [List.takeWhile_cons_of_pos hc, List.length_cons] at h
      rw [List.takeWhile_cons_of_pos hc, List.takeWhile_cons_of_pos hc, ih (Nat.le_of_succ_le_succ h)]
    · rw [List.takeWhile_cons_of_neg hc, List.takeWhile_cons_of_neg hc]

theorem untilQuote_cut {raw rest : List Char} (h : untilQuote (q ++ x) = some (raw, rest ++ x)) (y : List Char) :
    untilQuote (q ++ y) = some (raw, rest ++ y) := by
  have hq := untilQuote_eq h
  rw [← List.cons_append, ← List.append_assoc] at hq
  obtain rfl := List.append_cancel_right hq
  rw [List.append_assoc]
  exact untilQuote_closed h (rest ++ y)

theorem readOperator_alone (hc : startsOperator c = true) (h : ∀ d ∈ cs.head?, extendsOperator d = false) :
    readOperator? (c :: cs) = some (⟨c, none⟩, cs) := by
  cases cs with
  | nil => simp [readOperator?, hc]
  | cons d cs => simp [readOperator?, hc, h d rfl]

theorem readOperator_pair {d : Char} (hc : startsOperator c = true) (hd : extendsOperator d = true) (cs : List Char) :
    readOperator? (c :: d :: cs) = some (⟨c, some d⟩, cs) := by
  simp [readOperator?, hc, hd]

theorem readOperator_cut {op : Written} {rest : List Char} (hy : StartsWhite y)
    (h : readOperator? (c :: (q ++ x)) = some (op, rest ++ x)) :
    readOperator? (c :: (q ++ y)) = some (op, rest ++ y) := by
  have hc : startsOperator c = true := by
    by_contra hc
    rw [readOperator_none (eq_false_of_ne_true hc)] at h
    cases h
  cases q with
  | nil =>
    rw [List.nil_append] at h ⊢
    -- if the operator took what stands behind the place, less than that would be left
    have hx : ∀ d ∈ x.head?, extendsOperator d = false := by
      intro d hd
      by_contra he
      obtain ⟨x, rfl⟩ : ∃ x', x = d :: x' := ⟨x.tail, (List.cons_head?_tail hd).symm⟩
      rw [readOperator_pair hc (eq_true_of_ne_false he)] at h
      have hlength := congrArg List.length (Prod.mk.inj (Option.some.inj h)).2
      rw [List.length_append, List.length_cons] at hlength
      omega
    rw [readOperator_alone hc hx] at h
    obtain ⟨rfl, hrest⟩ := Prod.mk.inj (Option.some.inj h)
    rw [readOperator_alone hc hy.extends_false, List.self_eq_append_left.mp hrest, List.nil_append]
  | cons d q =>
    by_cases hd : extendsOperator d = true
    · rw [List.cons_append, readOperator_pair hc hd] at h
      obtain ⟨rfl, hrest⟩ := Prod.mk.inj (Option.some.inj h)
      rw [List.cons_append, readOperator_pair hc hd, List.append_cancel_right hrest]
    · have halone : ∀ z : List Char, readOperator? (c :: (d :: q ++ z)) = some (⟨c, none⟩, d :: q ++ z) :=
        fun z => readOperator_alone hc fun e he => Option.some.inj he ▸ eq_false_of_ne_true hd
      rw [halone] at h
      obtain ⟨rfl, hrest⟩ := Prod.mk.inj (Option.some.inj h)
      rw [halone, List.append_cancel_right hrest]

theorem drop_cut {n : Nat} {rest : List Char} (hn : n ≤ (c :: (q ++ x)).length)
    (h : (c :: (q ++ x)).drop n = rest ++ x) (y : List Char) :
    n ≤ (c :: q).length ∧ (c :: (q ++ y)).drop n = rest ++ y := by
  have hlength := congrArg List.length h
  simp only [List.length_drop, List.length_append, List.length_cons] at hlength hn
  have hle : n ≤ (c :: q).length := by
    rw [List.length_cons]
    omega
  rw [← List.cons_append, List.drop_append_of_le_length hle] at h ⊢
  exact ⟨hle, congrArg (· ++ y) (List.append_cancel_right h)⟩

theorem numberSize_le (hcs : cs ≠ []) : numberSize cs ≤ cs.length := by
  have hint := readInteger_used_le cs
  have hfloat := readFloat_used_le cs
  have hpos := List.length_pos_iff.mpr hcs
  unfold numberSize
  split <;> omega

/-- A token that ends before a place stays what it is if white space is put there. -/
theorem readItem_cut {rest : List Char} (hy : StartsWhite y) (hrest : (readItem k c (q ++ x)).2 = rest ++ x)
    (hclosed : (readItem k c (q ++ x)).1 ≠ .unclosed) :
    readItem k c (q ++ y) = ((readItem k c (q ++ x)).1, rest ++ y) := by
  rcases item_cases k c with hword | ⟨hdigit, hk⟩ | rfl | hplain
  · rw [readItem_word hword] at hrest ⊢
    rw [readItem_word hword]
    obtain ⟨hle, hdrop⟩ := drop_cut (List.takeWhile_sublist _).length_le hrest y
    have hsame : (c :: (q ++ y)).takeWhile isNameChar = (c :: (q ++ x)).takeWhile isNameChar :=
      takeWhile_cut (q := c :: q) (fun d hd => isNameChar_of_isWhite (hy d hd)) hle
    rw [hsame, hdrop]
  · rw [readItem_number hdigit hk] at hrest ⊢
    rw [readItem_number hdigit hk]
    obtain ⟨hle, hdrop⟩ := drop_cut (numberSize_le (List.cons_ne_nil _ _)) hrest y
    obtain ⟨hsize, hvalue⟩ := readNumber_cut hdigit hy hle
    have htake : ∀ z : List Char, (c :: (q ++ z)).take (numberSize (c :: (q ++ x))) =
        (c :: q).take (numberSize (c :: (q ++ x))) :=
      fun z => (congrArg (List.take _) (List.cons_append.symm)).trans (List.take_append_of_le_length hle)
    rw [hsize, hvalue, hdrop, htake, htake]
  · rw [readItem_text] at hrest hclosed ⊢
    rw [readItem_text]
    cases hquote : untilQuote (q ++ x) with
    | none =>
      rw [hquote] at hclosed
      exact absurd rfl hclosed
    | some r =>
      obtain ⟨raw, rest'⟩ := r
      rw [hquote] at hrest
      obtain rfl : rest' = rest ++ x := hrest
      rw [untilQuote_cut hquote y]
  · rw [readItem_plain hplain] at hrest ⊢
    rw [readItem_plain hplain]
    cases hop : readOperator? (c :: (q ++ x)) with
    | none =>
      have hc : startsOperator c = false := by
        by_contra hc
        obtain ⟨op, rest', hread, -⟩ := readItem_operator (eq_true_of_ne_false hc) (q ++ x)
        rw [hread] at hop
        cases hop
      rw [hop] at hrest
      rw [readOperator_none hc, List.append_cancel_right hrest]
    | some r =>
      obtain ⟨op, rest'⟩ := r
      rw [hop] at hrest
      obtain rfl : rest' = rest ++ x := hrest
      rw [readOperator_cut hy hop]

/-! ## Places between tokens -/

/-- The places of a text behind its tokens and behind each white character, with what is left there. A quote that is
not closed is no token. -/
inductive Reached : Context → List Char → Context → List Char → Prop
  | here (k : Context) (cs : List Char) : Reached k cs k cs
  | white {k k' : Context} {c : Char} {cs rest : List Char} :
    isWhite c = true → Reached k.apart cs k' rest → Reached k (c :: cs) k' rest
  | token {k k' : Context} {c : Char} {cs rest : List Char} : isWhite c = false → (readItem k c cs).1 ≠ .unclosed →
    Reached (k.after (readItem k c cs).1) (readItem k c cs).2 k' rest → Reached k (c :: cs) k' rest

theorem Reached.suffix {after : List Char} (h : Reached k cs k' after) : after <:+ cs := by
  induction h with
  | here => exact List.suffix_rfl
  | white _ _ ih => exact ih.trans (List.suffix_cons _ _)
  | token _ _ _ ih => exact ih.trans ((readItem_suffix _ _ _).trans (List.suffix_cons _ _))

/-- White space makes no difference but to a character that is joined to what stands before it. -/
theorem tokens_apart_eq (h : ∀ c ∈ cs.head?, k.joins c = false) : tokens k.apart cs = tokens k cs := by
  cases cs with
  | nil => rw [tokens_nil, tokens_nil]
  | cons c cs =>
    by_cases hc : isWhite c = true
    · rw [tokens_white hc, tokens_white hc, apart_apart]
    · have hc := eq_false_of_ne_true hc
      have hloose : ∀ l ls, tokens k (c :: cs) = l :: ls → l.loosened = l := by
        intro l ls hl
        rw [tokens_cons hc] at hl
        obtain ⟨rfl, -⟩ := List.cons.inj hl
        rcases item_cases k c with hword | ⟨hdigit, hk⟩ | rfl | hplain
        · rw [readItem_word hword]
          rfl
        · rw [readItem_number hdigit hk]
          rfl
        · rw [readItem_text]
          split <;> rfl
        · rw [readItem_plain hplain, h c rfl]
          split <;> rfl
      rw [tokens_apart]
      cases htokens : tokens k (c :: cs) with
      | nil => rfl
      | cons l ls => rw [loosened, hloose l ls htokens]

theorem tokens_white_append {white : List Char} (hwhite : ∀ c ∈ white, isWhite c = true) (hne : white ≠ [])
    (k : Context) (cs : List Char) : tokens k (white ++ cs) = tokens k.apart cs := by
  induction white generalizing k with
  | nil => exact absurd rfl hne
  | cons w white ih =>
    obtain ⟨hw, hwhite⟩ := List.forall_mem_cons.mp hwhite
    rw [List.cons_append, tokens_white hw]
    by_cases hlast : white = []
    · rw [hlast, List.nil_append]
    · rw [ih hwhite hlast, apart_apart]

/-- A place that is behind a character is behind it in the text up to there. -/
theorem exists_before {before after : List Char} (h : before ++ after = c :: cs) (hafter : after <:+ cs) :
    ∃ more, before = c :: more ∧ more ++ after = cs := by
  cases before with
  | nil =>
    have hle := hafter.length_le
    rw [← List.nil_append after, h, List.length_cons] at hle
    omega
  | cons d more =>
    obtain ⟨rfl, hmore⟩ := List.cons.inj h
    exact ⟨more, rfl, hmore⟩

/-- White space put at a place between tokens changes none of them. -/
theorem Reached.tokens_spaced {before white after : List Char} (h : Reached k (before ++ after) k' after)
    (hwhite : ∀ c ∈ white, isWhite c = true) (hapart : ∀ c ∈ after.head?, k'.joins c = false) :
    tokens k (before ++ white ++ after) = tokens k (before ++ after) := by
  by_cases hne : white = []
  · rw [hne, List.append_nil]
  have hstarts : StartsWhite (white ++ after) := by
    obtain ⟨w, ws, rfl⟩ := List.exists_cons_of_ne_nil hne
    exact fun c hc => Option.some.inj hc ▸ hwhite w List.mem_cons_self
  -- on the way to the place: what stands before it is read as it was
  generalize hcs : before ++ after = cs at h
  induction h generalizing before with
  | here k cs =>
    obtain rfl : before = [] := List.append_left_eq_self.mp hcs
    rw [List.nil_append, tokens_white_append hwhite hne, tokens_apart_eq hapart]
  | @white k k' c cs after hc hrest ih =>
    obtain ⟨more, rfl, hmore⟩ := exists_before hcs hrest.suffix
    rw [List.cons_append, List.cons_append, tokens_white hc, tokens_white hc]
    exact ih hapart hstarts hmore
  | @token k k' c cs after hc hclosed hrest ih =>
    obtain ⟨more, rfl, rfl⟩ := exists_before hcs (hrest.suffix.trans (readItem_suffix _ _ _))
    obtain ⟨more', hmore'⟩ := hrest.suffix
    rw [List.cons_append, List.cons_append, tokens_cons hc, tokens_cons hc, List.append_assoc,
      readItem_cut hstarts hmore'.symm hclosed, ← List.append_assoc]
    exact congrArg _ (ih hapart hstarts hmore')

end Token

/-! ## Evaluation -/

variable {κ ι σ : Type}

/-- Whether two evaluations of texts end alike: with the same value or none at all, the same state of the scope, and an
error of the same kind. -/
structure SameOutcome (r r' : Option Value × Session σ) : Prop where
  value : r.1 = r'.1
  state : r.2.state = r'.2.state
  kind : r.2.errors.kind = r'.2.errors.kind

namespace Engine

variable (engine : Engine κ ι σ)

/-- Texts with the same tokens come to the same, whatever the scope is. -/
theorem calculate_byTokens (depth : Nat) {text text' : String} (h : SameTokens .start text.toList text'.toList)
    (s : Session σ) : SameOutcome (engine.calculate depth text s) (engine.calculate depth text' s) := by
  cases depth with
  | zero => exact ⟨rfl, rfl, rfl⟩
  | succ depth =>
    have hends := (engine.evaluator depth).expression_byTokens h ⟨s.state, .clear⟩
    generalize hr : ((engine.evaluator depth).expression text.toList).run.run ⟨s.state, .clear⟩ = r at hends
    generalize hr' : ((engine.evaluator depth).expression text'.toList).run.run ⟨s.state, .clear⟩ = r' at hends
    rw [engine.calculate_of_expression hr, engine.calculate_of_expression hr']
    cases hends with
    | ok hvalue => exact ⟨congrArg some hvalue, rfl, rfl⟩
    | error hkind => exact ⟨rfl, rfl, by rw [ErrorState.report_kind, ErrorState.report_kind, hkind]⟩

/-- **White space between tokens**: for every text, every place between two tokens of it, every scope and every
session, white space put there changes neither whether the text can be evaluated nor what it comes to nor what it
does to the scope, unless the place is one of two: directly behind the parenthesis that opens a group and before the
one that closes it, or directly behind the parenthesis that closes a call and before a dot. -/
theorem calculate_spaced (depth : Nat) {before white after : List Char} {k : Context}
    (hplace : Reached .start (before ++ after) k after) (hwhite : ∀ c ∈ white, isWhite c = true)
    (hapart : ∀ c ∈ after.head?, k.joins c = false) (s : Session σ) :
    SameOutcome (engine.calculate depth (String.ofList (before ++ white ++ after)) s)
      (engine.calculate depth (String.ofList (before ++ after)) s) := by
  apply engine.calculate_byTokens depth
  rw [String.toList_ofList, String.toList_ofList]
  exact hplace.tokens_spaced hwhite hapart

end Engine

/-- A tab and a line end in front of the sign of an assignment: the variable is assigned the same. -/
theorem ScriptState.calculate_assignment_spaced :
    let i := ((Interpreter.new (Registry.empty : Registry Empty) true 0).compile "int a;").1
    let calculate := fun text => (ScriptState.engine i.registry).calculate 1 text ⟨i.script, .clear⟩
    (calculate "a=4").1.map Value.text = some "4" ∧ SameOutcome (calculate "a\t\n=4") (calculate "a=4") := by
  intro i calculate
  refine ⟨by decide +kernel, ?_⟩
  have hplace : Reached .start ("a".toList ++ "=4".toList) ⟨.word, []⟩ "=4".toList :=
    .token (by decide) nofun (.here _ _)
  have hwhite : ∀ c ∈ "\t\n".toList, isWhite c = true := List.all_eq_true.mp (by decide)
  have hapart : ∀ c ∈ "=4".toList.head?, Context.joins ⟨.word, []⟩ c = false := fun _ _ => rfl
  exact (ScriptState.engine i.registry).calculate_spaced 1 hplace hwhite hapart _

namespace Engine

/-- A group with nothing in it is nothing, and with white space in it, an error. -/
example :
    let calculate := fun text => (⟨.empty, .none⟩ : Engine Empty Empty Unit).calculate 1 text ⟨(), .clear⟩
    (calculate "()").1 = some .undefined ∧ (calculate "( )").2.errors.kind = .unexpectedCharacter :=
  ⟨rfl, rfl⟩

end Engine

end HostScript
