import HostScript.Proofs.Streams
import Mathlib.Data.List.Forall2
/-!
# The longest numeral

A numeral is white space, perhaps a sign, and digits in the base that their front announces. Reading an integer takes
the longest numeral a text starts with, and nothing where no digit follows the white space and the sign. The number is
held within 64 bits, but the smallest of them is out of reach: the magnitude is held before the sign is put to it.
-/

set_option autoImplicit false

namespace HostScript.Number

open HostScript.Text

/-! ## Numerals -/

/-- The characters are digits of the base, with these values. -/
def Digits (base : Nat) (cs : List Char) (ds : List Nat) : Prop :=
  List.Forall₂ (fun c d => digitValue? base c = some d) cs ds

/-- A number without a sign. A lone zero is octal. -/
inductive Unsigned : List Char → Nat → Prop
  | hexadecimal {x : Char} {cs : List Char} {ds : List Nat} : x = 'x' ∨ x = 'X' → cs ≠ [] → Digits 16 cs ds →
    Unsigned ('0' :: x :: cs) (ofDigits 16 ds)
  | octal {cs : List Char} {ds : List Nat} : Digits 8 cs ds → Unsigned ('0' :: cs) (ofDigits 8 ds)
  | decimal {c : Char} {cs : List Char} {ds : List Nat} : c ≠ '0' → Digits 10 (c :: cs) ds →
    Unsigned (c :: cs) (ofDigits 10 ds)

/-- White space, perhaps a sign, and a number. -/
inductive Numeral : List Char → Int → Prop
  | plain {space body : List Char} {n : Nat} : (∀ c ∈ space, isSpace c = true) → Unsigned body n →
    Numeral (space ++ body) n
  | plus {space body : List Char} {n : Nat} : (∀ c ∈ space, isSpace c = true) → Unsigned body n →
    Numeral (space ++ '+' :: body) n
  | minus {space body : List Char} {n : Nat} : (∀ c ∈ space, isSpace c = true) → Unsigned body n →
    Numeral (space ++ '-' :: body) (-n)

/-- The numeral a text starts with that no other one is longer than. -/
structure LongestNumeral (text p : List Char) (n : Int) : Prop where
  front : p <+: text
  numeral : Numeral p n
  longest : ∀ q m, q <+: text → Numeral q m → q.length ≤ p.length

/-- What is left of a text behind the white space at its front. -/
def behindSpace (text : List Char) : List Char := text.dropWhile isSpace

/-- What is left of a text behind a sign at its front. -/
def behindSign : List Char → List Char
  | '-' :: cs | '+' :: cs => cs
  | cs => cs

/-- A digit follows the white space at the front and a sign. -/
def DigitFollows (text : List Char) : Prop :=
  ∃ c cs, behindSign (behindSpace text) = c :: cs ∧ c.isDigit = true

/-- A number held within the range of 64 bits. -/
def clamp (n : Int) : Int := max (-2 ^ 63) (min n (2 ^ 63 - 1))

/-- The longest numeral at the front with its number, and where it ends in bytes; nothing at all if no digit follows
the white space and the sign. -/
def ReadsLongest (text : List Char) (r : Reading Int64) : Prop :=
  (¬DigitFollows text ∧ r = ⟨0, 0⟩) ∨
    (DigitFollows text ∧ ∃ p n, LongestNumeral text p n ∧ r = ⟨Int64.ofInt (clamp n), (bytes p).length⟩)

/-! ## Digits -/

theorem digitValue_some {base : Nat} {c : Char} {d : Nat} (h : digitValue? base c = some d) :
    c.isDigit = true ∨ ('a' ≤ c ∧ c ≤ 'f') ∨ ('A' ≤ c ∧ c ≤ 'F') := by
  by_cases hd : c.isDigit = true
  · exact .inl hd
  by_cases hl : 'a' ≤ c ∧ c ≤ 'f'
  · exact .inr (.inl hl)
  by_cases hu : 'A' ≤ c ∧ c ≤ 'F'
  · exact .inr (.inr hu)
  · simp [digitValue?, hd, hl, hu] at h

theorem digitValue_ascii {base : Nat} {c : Char} {d : Nat} (h : digitValue? base c = some d) : c.toNat < 128 := by
  rcases digitValue_some h with hd | hl | hu
  · have := isDigit_iff.mp hd
    omega
  · have : c.toNat ≤ 102 := le_iff_toNat.mp hl.2
    omega
  · have : c.toNat ≤ 70 := le_iff_toNat.mp hu.2
    omega

/-- In bases up to ten only the decimal digits count. -/
theorem isDigit_of_digitValue {base : Nat} (hbase : base ≤ 10) {c : Char} {d : Nat} (h : digitValue? base c = some d) :
    c.isDigit = true := by
  by_contra hd
  rw [digitValue?, Option.filter_eq_some_iff, if_neg hd] at h
  obtain ⟨hvalue, hlt⟩ := h
  have hlt : d < base := by simpa using hlt
  -- the letters stand for more than nine
  split at hvalue
  · have := Option.some.inj hvalue
    omega
  · split at hvalue
    · have := Option.some.inj hvalue
      omega
    · cases hvalue

theorem Digits.length_eq {base : Nat} {cs : List Char} {ds : List Nat} (h : Digits base cs ds) :
    cs.length = ds.length := List.Forall₂.length_eq h

theorem Digits.ascii {base : Nat} {cs : List Char} {ds : List Nat} (h : Digits base cs ds) :
    ∀ c ∈ cs, c.toNat < 128 := by
  induction h with
  | nil => exact nofun
  | cons hc _ ih => exact List.forall_mem_cons.mpr ⟨digitValue_ascii hc, ih⟩

/-- The digits at the front are digits. -/
theorem leadingDigits_digits (base : Nat) (cs : List Char) :
    Digits base (cs.take (leadingDigits base cs).length) (leadingDigits base cs) := by
  induction cs with
  | nil => exact .nil
  | cons c cs ih =>
    cases hd : digitValue? base c with
    | none =>
      rw [leadingDigits, hd]
      exact .nil
    | some d =>
      rw [leadingDigits, hd]
      exact .cons hd ih

/-- They are as many as there are. -/
theorem Digits.prefix_leadingDigits {base : Nat} {q cs : List Char} {ds : List Nat} (h : Digits base q ds)
    (hq : q <+: cs) : ds <+: leadingDigits base cs := by
  induction h generalizing cs with
  | nil => exact List.nil_prefix
  | @cons c d q ds hc _ ih =>
    obtain ⟨rest, rfl⟩ := hq
    have htail := ih (List.prefix_append q rest)
    simpa [leadingDigits, hc] using htail

/-! ## Numbers without a sign -/

/-- The number at the front that has no sign. -/
def readUnsigned (number : List Char) : Reading Nat :=
  let (base, mark) := detectBase number
  let digits := leadingDigits base (number.drop mark)
  if digits.isEmpty then ⟨0, 0⟩ else ⟨ofDigits base digits, mark + digits.length⟩

theorem readUnsigned_hexadecimal {x d : Char} (cs : List Char) (hx : x = 'x' ∨ x = 'X') (hd : isHexDigit d = true) :
    readUnsigned ('0' :: x :: d :: cs) =
      ⟨ofDigits 16 (leadingDigits 16 (d :: cs)), 2 + (leadingDigits 16 (d :: cs)).length⟩ := by
  have hbase : detectBase ('0' :: x :: d :: cs) = (16, 2) := by
    rcases hx with rfl | rfl <;> simp [detectBase, hd]
  obtain ⟨n, hn⟩ := Option.isSome_iff_exists.mp hd
  simp [readUnsigned, hbase, leadingDigits, hn]

theorem readUnsigned_octal {cs : List Char} (hbase : detectBase ('0' :: cs) = (8, 0)) :
    readUnsigned ('0' :: cs) = ⟨ofDigits 8 (leadingDigits 8 cs), 1 + (leadingDigits 8 cs).length⟩ := by
  have hdigits : leadingDigits 8 ('0' :: cs) = 0 :: leadingDigits 8 cs := rfl
  simp [readUnsigned, hbase, hdigits, ofDigits, Nat.add_comm]

theorem readUnsigned_decimal {c : Char} (cs : List Char) (hc : c ≠ '0') :
    readUnsigned (c :: cs) = ⟨ofDigits 10 (leadingDigits 10 (c :: cs)), (leadingDigits 10 (c :: cs)).length⟩ := by
  cases hdigits : leadingDigits 10 (c :: cs) with
  | nil => simp [readUnsigned, detectBase_of_ne_zero cs hc, hdigits, ofDigits]
  | cons d ds => simp [readUnsigned, detectBase_of_ne_zero cs hc, hdigits]

/-- A zero announces hexadecimal digits, or octal ones. -/
theorem detectBase_zero_cases (cs : List Char) :
    (∃ x d rest, cs = x :: d :: rest ∧ (x = 'x' ∨ x = 'X') ∧ isHexDigit d = true) ∨
      detectBase ('0' :: cs) = (8, 0) := by
  rcases cs with _ | ⟨x, _ | ⟨d, rest⟩⟩
  · exact .inr rfl
  · exact .inr rfl
  · by_cases h : (x = 'x' ∨ x = 'X') ∧ isHexDigit d = true
    · exact .inl ⟨x, d, rest, rfl, h⟩
    · refine .inr (if_neg ?_)
      simpa using h

/-- Where a digit stands at the front, a number is read. -/
theorem readUnsigned_unsigned {c : Char} (hc : c.isDigit = true) (cs : List Char) :
    Unsigned ((c :: cs).take (readUnsigned (c :: cs)).used) (readUnsigned (c :: cs)).value ∧
      0 < (readUnsigned (c :: cs)).used := by
  by_cases hzero : c = '0'
  · subst hzero
    rcases detectBase_zero_cases cs with ⟨x, d, rest, rfl, hx, hd⟩ | hbase
    · have hdigits := leadingDigits_digits 16 (d :: rest)
      obtain ⟨n, hn⟩ := Option.isSome_iff_exists.mp hd
      have hsome : leadingDigits 16 (d :: rest) = n :: leadingDigits 16 rest := by simp [leadingDigits, hn]
      rw [readUnsigned_hexadecimal rest hx hd, Nat.add_comm 2]
      refine ⟨.hexadecimal hx ?_ hdigits, Nat.succ_pos _⟩
      rw [hsome]
      exact List.cons_ne_nil _ _
    · rw [readUnsigned_octal hbase, Nat.add_comm 1]
      exact ⟨.octal (leadingDigits_digits 8 cs), Nat.succ_pos _⟩
  · have hsome : leadingDigits 10 (c :: cs) = (c.toNat - 48) :: leadingDigits 10 cs := by
      simp [leadingDigits, digitValue_ten hc]
    have hdigits := leadingDigits_digits 10 (c :: cs)
    rw [readUnsigned_decimal cs hzero]
    rw [hsome] at hdigits ⊢
    exact ⟨.decimal hzero hdigits, Nat.succ_pos _⟩

theorem readUnsigned_used_le (number : List Char) : (readUnsigned number).used ≤ number.length := by
  have hle (base : Nat) (cs : List Char) : (leadingDigits base cs).length ≤ cs.length := by
    have := (leadingDigits_digits base cs).length_eq
    rw [List.length_take] at this
    omega
  rcases number with _ | ⟨c, cs⟩
  · exact Nat.le_refl 0
  by_cases hzero : c = '0'
  · subst hzero
    rcases detectBase_zero_cases cs with ⟨x, d, rest, rfl, hx, hd⟩ | hbase
    · have := hle 16 (d :: rest)
      rw [readUnsigned_hexadecimal rest hx hd]
      simp only [List.length_cons] at this ⊢
      omega
    · have := hle 8 cs
      rw [readUnsigned_octal hbase]
      simp only [List.length_cons]
      omega
  · rw [readUnsigned_decimal cs hzero]
    exact hle 10 _

theorem readUnsigned_none {number : List Char} (h : ¬∃ c cs, number = c :: cs ∧ c.isDigit = true) :
    (readUnsigned number).used = 0 := by
  cases number with
  | nil => rfl
  | cons c cs =>
    have hc : ¬c.isDigit = true := fun hc => h ⟨c, cs, rfl, hc⟩
    have hzero : c ≠ '0' := fun h => hc (h ▸ rfl)
    have hnone : digitValue? 10 c = none := by
      cases hd : digitValue? 10 c with
      | none => rfl
      | some d => exact absurd (isDigit_of_digitValue (Nat.le_refl 10) hd) hc
    rw [readUnsigned_decimal cs hzero, leadingDigits, hnone]
    rfl

theorem Unsigned.head {q : List Char} {n : Nat} (h : Unsigned q n) : ∃ c cs, q = c :: cs ∧ c.isDigit = true := by
  cases h with
  | hexadecimal => exact ⟨_, _, rfl, rfl⟩
  | octal => exact ⟨_, _, rfl, rfl⟩
  | decimal hc hdigits =>
    cases hdigits with
    | cons hd _ => exact ⟨_, _, rfl, isDigit_of_digitValue (Nat.le_refl 10) hd⟩

theorem Unsigned.ascii {q : List Char} {n : Nat} (h : Unsigned q n) : ∀ c ∈ q, c.toNat < 128 := by
  cases h with
  | hexadecimal hx _ hdigits =>
    refine List.forall_mem_cons.mpr ⟨by decide, List.forall_mem_cons.mpr ⟨?_, hdigits.ascii⟩⟩
    rcases hx with rfl | rfl <;> decide
  | octal hdigits => exact List.forall_mem_cons.mpr ⟨by decide, hdigits.ascii⟩
  | decimal _ hdigits => exact hdigits.ascii

/-- No number at the front is longer than the one that is read, and none but that one is as long. -/
theorem Unsigned.le_read {q number : List Char} {n : Nat} (h : Unsigned q n) (hq : q <+: number) :
    q.length ≤ (readUnsigned number).used ∧
      (q.length = (readUnsigned number).used → n = (readUnsigned number).value) := by
  -- the digits of the number are among those that are read
  have hsame {base : Nat} {cs rest : List Char} {ds : List Nat} (hdigits : Digits base cs ds) (hcs : cs <+: rest) :
      cs.length ≤ (leadingDigits base rest).length ∧
        (cs.length = (leadingDigits base rest).length → ofDigits base ds = ofDigits base (leadingDigits base rest)) := by
    have hstart := hdigits.prefix_leadingDigits hcs
    rw [hdigits.length_eq]
    exact ⟨hstart.length_le, fun hlen => congrArg _ (hstart.eq_of_length hlen)⟩
  obtain ⟨more, rfl⟩ := hq
  cases h with
  | @hexadecimal x cs ds hx hne hdigits =>
    obtain ⟨d, rest, rfl⟩ := List.exists_cons_of_ne_nil hne
    have hd : isHexDigit d = true := by
      cases hdigits with
      | cons hd _ => simp [isHexDigit, hd]
    obtain ⟨hle, hvalue⟩ := hsame hdigits (List.prefix_append (d :: rest) more)
    simp only [List.cons_append, readUnsigned_hexadecimal (rest ++ more) hx hd, List.length_cons] at hle hvalue ⊢
    exact ⟨by omega, fun hlen => hvalue (by omega)⟩
  | @octal cs ds hdigits =>
    rw [List.cons_append]
    rcases detectBase_zero_cases (cs ++ more) with ⟨x, d, rest, hcs, hx, hd⟩ | hbase
    · -- the mark of hexadecimal digits is no octal digit
      have hnil : cs = [] := by
        cases hdigits with
        | nil => rfl
        | @cons c v cs ds hv _ =>
          obtain ⟨rfl, -⟩ := List.cons_eq_cons.mp hcs
          have hdigit := isDigit_of_digitValue (by decide) hv
          rcases hx with rfl | rfl <;> exact absurd hdigit (by decide)
      rw [hcs, readUnsigned_hexadecimal rest hx hd, hnil]
      simp only [List.length_singleton]
      exact ⟨by omega, fun hlen => by omega⟩
    · obtain ⟨hle, hvalue⟩ := hsame hdigits (List.prefix_append cs more)
      rw [readUnsigned_octal hbase]
      simp only [List.length_cons]
      exact ⟨by omega, fun hlen => hvalue (by omega)⟩
  | @decimal c cs ds hc hdigits =>
    have hread := hsame hdigits (List.prefix_append (c :: cs) more)
    rw [List.cons_append] at hread ⊢
    rw [readUnsigned_decimal _ hc]
    exact hread

/-! ## White space and signs -/

variable {text p q : List Char} {n m : Int}

/-- White space in front of something else is all there is at the front. -/
theorem behindSpace_append {space : List Char} (rest : List Char) {c : Char} (hspace : ∀ c ∈ space, isSpace c = true)
    (hc : isSpace c = false) :
    (space ++ c :: rest).takeWhile isSpace = space ∧ behindSpace (space ++ c :: rest) = c :: rest := by
  rw [behindSpace, List.takeWhile_append_of_pos hspace, List.dropWhile_append_of_pos hspace]
  simp [hc]

theorem drop_signOf (cs : List Char) : cs.drop (signOf cs).2 = behindSign cs := by
  unfold signOf behindSign
  split <;> simp_all

theorem behindSign_of_isDigit {c : Char} (hc : c.isDigit = true) (cs : List Char) : behindSign (c :: cs) = c :: cs := by
  rw [← drop_signOf, signOf_of_isDigit hc]
  rfl

/-- The number is read behind the white space and the sign. -/
theorem readInteger_eq (text : List Char) :
    readInteger text =
      let r := readUnsigned (behindSign (behindSpace text))
      let magnitude : Int := min r.value maxMagnitude
      if r.used = 0 then ⟨0, 0⟩
      else ⟨Int64.ofInt (if (signOf (behindSpace text)).1 then -magnitude else magnitude),
        (text.takeWhile isSpace).length + (signOf (behindSpace text)).2 + r.used⟩ := by
  have hspace : text.drop (text.takeWhile isSpace).length = behindSpace text := by
    have hdrop : (text.takeWhile isSpace ++ text.dropWhile isSpace).drop (text.takeWhile isSpace).length =
        text.dropWhile isSpace := List.drop_left
    rwa [List.takeWhile_append_dropWhile] at hdrop
  rw [← drop_signOf, ← hspace, List.drop_drop]
  simp only [readInteger, readUnsigned]
  split <;> simp_all [Nat.add_assoc]

/-- A numeral at the front starts with all the white space and with the sign. -/
theorem Numeral.signed (h : Numeral q m) (hq : q <+: text) :
    ∃ body k, Unsigned body k ∧ body <+: behindSign (behindSpace text) ∧
      q.length = (text.takeWhile isSpace).length + (signOf (behindSpace text)).2 + body.length ∧
      m = if (signOf (behindSpace text)).1 then -(k : Int) else k := by
  obtain ⟨more, rfl⟩ := hq
  cases h with
  | @plain space body k hspace hbody =>
    obtain ⟨c, cs, rfl, hc⟩ := hbody.head
    obtain ⟨hfront, hbehind⟩ := behindSpace_append (cs ++ more) hspace (isSpace_of_isDigit hc)
    refine ⟨c :: cs, k, hbody, ?_⟩
    rw [List.append_assoc, List.cons_append, hfront, hbehind, signOf_of_isDigit hc, behindSign_of_isDigit hc]
    exact ⟨⟨more, rfl⟩, by simp, rfl⟩
  | @plus space body k hspace hbody =>
    obtain ⟨hfront, hbehind⟩ := behindSpace_append (c := '+') (body ++ more) hspace rfl
    refine ⟨body, k, hbody, ?_⟩
    rw [List.append_assoc, List.cons_append, hfront, hbehind]
    exact ⟨⟨more, rfl⟩, by simp [signOf]; omega, rfl⟩
  | @minus space body k hspace hbody =>
    obtain ⟨hfront, hbehind⟩ := behindSpace_append (c := '-') (body ++ more) hspace rfl
    refine ⟨body, k, hbody, ?_⟩
    rw [List.append_assoc, List.cons_append, hfront, hbehind]
    exact ⟨⟨more, rfl⟩, by simp [signOf]; omega, rfl⟩

/-- What stands behind the sign makes a numeral with what stands before it. -/
theorem numeral_of_unsigned {body : List Char} {k : Nat} (h : Unsigned body k)
    (hbody : body <+: behindSign (behindSpace text)) :
    ∃ p, p <+: text ∧
      p.length = (text.takeWhile isSpace).length + (signOf (behindSpace text)).2 + body.length ∧
      Numeral p (if (signOf (behindSpace text)).1 then -(k : Int) else k) := by
  have hspace : ∀ c ∈ text.takeWhile isSpace, isSpace c = true := List.all_eq_true.mp List.all_takeWhile
  have htext : text.takeWhile isSpace ++ behindSpace text = text := List.takeWhile_append_dropWhile
  have hfront {front : List Char} (hf : front <+: behindSpace text) : text.takeWhile isSpace ++ front <+: text := by
    conv_rhs => rw [← htext]
    exact (List.prefix_append_right_inj _).mpr hf
  generalize behindSpace text = t at *
  unfold behindSign at hbody
  split at hbody
  · exact ⟨_, hfront (List.cons_prefix_cons.mpr ⟨rfl, hbody⟩), by simp [signOf]; omega, .minus hspace h⟩
  · exact ⟨_, hfront (List.cons_prefix_cons.mpr ⟨rfl, hbody⟩), by simp [signOf]; omega, .plus hspace h⟩
  · have hsign : signOf t = (false, 0) := by
      unfold signOf
      split <;> simp_all
    rw [hsign]
    exact ⟨_, hfront hbody, by simp, .plain hspace h⟩

theorem Numeral.ascii (h : Numeral p n) : ∀ c ∈ p, c.toNat < 128 := by
  have hspace {c : Char} (hc : isSpace c = true) : c.toNat < 128 := by
    rcases Bool.or_eq_true_iff.mp hc with hwhite | hfeed
    · exact of_decide_eq_true (of_isWhite (P := fun c => decide (c.toNat < 128)) rfl hwhite)
    · rw [eq_of_beq hfeed]
      decide
  cases h with
  | plain hs hbody => exact List.forall_mem_append.mpr ⟨fun c hc => hspace (hs c hc), hbody.ascii⟩
  | plus hs hbody | minus hs hbody =>
    refine List.forall_mem_append.mpr ⟨fun c hc => hspace (hs c hc), ?_⟩
    exact List.forall_mem_cons.mpr ⟨by decide, hbody.ascii⟩

/-! ## The longest numeral -/

/-- A text starts with a numeral exactly if a digit follows. -/
theorem digitFollows_of_numeral (h : Numeral q m) (hq : q <+: text) : DigitFollows text := by
  obtain ⟨body, k, hbody, ⟨more, hmore⟩, -, -⟩ := h.signed hq
  obtain ⟨c, cs, rfl, hc⟩ := hbody.head
  exact ⟨c, cs ++ more, hmore.symm, hc⟩

/-- Reading takes a numeral that no other one is longer than. -/
theorem exists_longest (h : DigitFollows text) : ∃ p n, LongestNumeral text p n := by
  obtain ⟨c, cs, hcs, hc⟩ := h
  obtain ⟨hbody, -⟩ := readUnsigned_unsigned hc cs
  have hlength := readUnsigned_used_le (c :: cs)
  rw [← hcs] at hbody hlength
  obtain ⟨p, hfront, hp, hnumeral⟩ := numeral_of_unsigned hbody (List.take_prefix _ _)
  refine ⟨p, _, hfront, hnumeral, fun q m hq hm => ?_⟩
  obtain ⟨other, k, hother, hinside, hlen, -⟩ := hm.signed hq
  have hle := (hother.le_read hinside).1
  rw [hp, hlen, List.length_take]
  omega

/-- The longest numeral is the one that is read. -/
theorem LongestNumeral.eq_read (h : LongestNumeral text p n) :
    let r := readUnsigned (behindSign (behindSpace text))
    0 < r.used ∧ p.length = (text.takeWhile isSpace).length + (signOf (behindSpace text)).2 + r.used ∧
      n = if (signOf (behindSpace text)).1 then -(r.value : Int) else r.value := by
  obtain ⟨body, k, hbody, hinside, hlen, rfl⟩ := h.numeral.signed h.front
  obtain ⟨hle, hvalue⟩ := hbody.le_read hinside
  -- what is read is a numeral too, and so it is no longer
  obtain ⟨c, cs, hcs, hc⟩ := digitFollows_of_numeral h.numeral h.front
  obtain ⟨hread, hpos⟩ := readUnsigned_unsigned hc cs
  have hlength := readUnsigned_used_le (c :: cs)
  rw [← hcs] at hread hpos hlength
  obtain ⟨q, hfront, hq, hnumeral⟩ := numeral_of_unsigned hread (List.take_prefix _ _)
  have hlongest := h.longest q _ hfront hnumeral
  rw [hq, hlen, List.length_take] at hlongest
  have hused : body.length = (readUnsigned (behindSign (behindSpace text))).used := by omega
  exact ⟨hpos, by rw [hlen, hused], by rw [hvalue hused]⟩

/-- Its number is held at the largest magnitude. -/
theorem LongestNumeral.read (h : LongestNumeral text p n) :
    readInteger text = ⟨Int64.ofInt (held n), p.length⟩ := by
  obtain ⟨hpos, hlen, rfl⟩ := h.eq_read
  rw [readInteger_eq, hlen]
  dsimp only
  rw [if_neg (Nat.ne_of_gt hpos)]
  congr 2
  split
  · simp only [held, maxMagnitude]
    omega
  · simp only [held, maxMagnitude]
    omega

/-- Where no digit follows nothing is read. -/
theorem readInteger_nothing (h : ¬DigitFollows text) : readInteger text = ⟨0, 0⟩ := by
  rw [readInteger_eq]
  exact if_pos (readUnsigned_none h)

/-- Holding the magnitude moves the numbers at the lower end of the range and beyond it, and no others. -/
theorem ofInt_held_eq_iff (n : Int) : Int64.ofInt (held n) = Int64.ofInt (clamp n) ↔ -2 ^ 63 < n := by
  have hheld : -2 ^ 63 ≤ held n ∧ held n < 2 ^ 63 := by
    simp only [held, maxMagnitude]
    omega
  have hclamp : -2 ^ 63 ≤ clamp n ∧ clamp n < 2 ^ 63 := by
    simp only [clamp]
    omega
  rw [← Int64.toInt_inj, Int64.toInt_ofInt_of_le hheld.1 hheld.2, Int64.toInt_ofInt_of_le hclamp.1 hclamp.2]
  simp only [held, clamp, maxMagnitude]
  omega

/-- The number of the longest numeral is read right unless it lies at the lower end of the range or beyond it. -/
theorem LongestNumeral.readsLongest_iff (h : LongestNumeral text p n) :
    ReadsLongest text (readInteger text) ↔ -2 ^ 63 < n := by
  have hdigit := digitFollows_of_numeral h.numeral h.front
  rw [ReadsLongest, and_iff_right hdigit, or_iff_right fun hnone => hnone.1 hdigit, ← ofInt_held_eq_iff]
  constructor
  · rintro ⟨q, m, hq, hread⟩
    have hnumber : m = n := hq.eq_read.2.2.trans h.eq_read.2.2.symm
    rw [h.read, hnumber] at hread
    exact congrArg Reading.value hread
  · intro hvalue
    refine ⟨p, n, h, ?_⟩
    rw [h.read, hvalue, bytes_ascii h.numeral.ascii, List.length_map]

/-- A text is read as its longest numeral says, unless its number lies at the lower end of the range or beyond it; and
of the 64-bit integers all but the smallest are read back from their decimal text, to its end. -/
theorem readInteger_longest_iff (text : List Char) (k : Int64) :
    (ReadsLongest text (readInteger text) ↔ ∀ p n, LongestNumeral text p n → -2 ^ 63 < n) ∧
      (readInteger (toString k.toInt).toList = ⟨k, (bytes (toString k.toInt).toList).length⟩ ↔
        k ≠ Int64.minValue) := by
  constructor
  · by_cases hdigit : DigitFollows text
    · obtain ⟨p, n, hlongest⟩ := exists_longest hdigit
      constructor
      · intro hread q m hq
        exact hq.readsLongest_iff.mp hread
      · intro hall
        exact hlongest.readsLongest_iff.mpr (hall p n hlongest)
    · refine iff_of_true (.inl ⟨hdigit, readInteger_nothing hdigit⟩) ?_
      intro p n h
      exact absurd (digitFollows_of_numeral h.numeral h.front) hdigit
  · rw [readInteger_decimal, ofInt_held, bytes_ascii (toString_ascii _), List.length_map]
    split
    · subst_vars
      exact iff_of_false (fun h => absurd (congrArg Reading.value h) (by decide)) (not_not_intro rfl)
    · exact iff_of_true rfl ‹_›

/-- The smallest integer is not read back from its decimal text. -/
theorem smallest_numeral_moved :
    ¬ReadsLongest "-9223372036854775808".toList (readInteger "-9223372036854775808".toList) := by
  intro h
  have hdigit : DigitFollows "-9223372036854775808".toList := ⟨'9', _, rfl, rfl⟩
  obtain ⟨p, n, hlongest⟩ := exists_longest hdigit
  have hnumber : n = -9223372036854775808 := hlongest.eq_read.2.2
  have hinside := (readInteger_longest_iff _ 0).1.mp h p n hlongest
  omega

end HostScript.Number
