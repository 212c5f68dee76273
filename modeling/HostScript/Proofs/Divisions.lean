import HostScript.Proofs.Parentheses
import HostScript.Proofs.Streams
import HostScript.Proofs.TypedVariables
/-!
# Divisors that count as zero

A division is refused when the divisor equals the float zero. The divisor decides how it is compared: an integer as
an integer, a text as the text of zero, and nothing else equals a number at all. What divides is the integer that the
divisor stands for. So every divisor that is refused stands for zero, but a text may stand for zero without being
`0`, and so do blobs and values that are missing. These get past the check and divide as one.
-/

set_option autoImplicit false

namespace HostScript

open HostScript.Text HostScript.Token HostScript.Number

variable {κ ι σ : Type}

/-! ## Divisors -/

namespace Value

theorem text_zero : (Value.float 0.0).text = "0" := by decide +kernel

theorem toInt_zero : (Value.float 0.0).toInt = 0 := by decide +kernel

/-- The text of a blob has an even number of digits. -/
theorem toHex_ne_zero (blob : List UInt8) : toHex blob ≠ "0" := by
  intro h
  have htext := congrArg String.toList h
  rw [toList_toHex] at htext
  cases blob with
  | nil => cases htext
  | cons b blob =>
    rw [hexChars_cons] at htext
    exact absurd (congrArg List.length htext) (by simp)

/-- The text of a divisor says that it is zero only if it is. -/
theorem toInt_of_text {b : Value} (hb : b.type ≠ .float) (h : b.text = "0") : b.toInt = 0 := by
  cases b with
  | invalid => rfl
  | undefined => rfl
  | float x => exact absurd rfl hb
  | str s =>
    obtain rfl : s = "0" := h
    decide
  | binary blob => rfl
  | custom blob => rfl
  | int n =>
    have hread := readInteger_toString n.toInt
    rw [show toString n.toInt = "0" from h, ofInt_held] at hread
    have hzero : (readInteger "0".toList).value = 0 := by decide
    rw [hzero] at hread
    split at hread
    · cases hread
    · exact hread.symm

/-- A divisor that is no float equals the float zero just if its text does. -/
theorem equals_zero_iff {b : Value} (hb : b.type ≠ .float) : b.equals (.float 0.0) = true ↔ b.text = "0" := by
  constructor
  · intro h
    replace h : b.compare (.float 0.0) = .eq := by simpa [equals] using h
    cases b with
    | invalid => cases h
    | undefined => cases h
    | float x => exact absurd rfl hb
    | binary blob => cases h
    | custom blob => cases h
    | int n =>
      have hn := orderInts_eq_eq.mp h
      rw [toInt_zero] at hn
      subst hn
      rfl
    | str s =>
      have hs := utf8_injective (orderBytes_eq_eq.mp h)
      exact hs.trans text_zero
  · intro h
    suffices hcompare : b.compare (.float 0.0) = .eq by simp [equals, hcompare]
    have hzero := toInt_of_text hb h
    cases b with
    | invalid => exact absurd h (by decide)
    | undefined => exact absurd h (by decide)
    | float x => exact absurd rfl hb
    | binary blob => exact absurd h (toHex_ne_zero blob)
    | custom blob => exact absurd h (toHex_ne_zero blob)
    | int n =>
      obtain rfl : n = 0 := hzero
      rw [compare, toInt_zero]
      rfl
    | str s =>
      obtain rfl : s = "0" := h
      rw [compare, text_zero, orderBytes_eq_eq]

end Value

/-! ## The two operators -/

/-- The operators that divide. -/
inductive Division where
  | quotient
  | remainder
deriving Repr, DecidableEq

namespace Division

def char : Division → Char
  | .quotient => '/'
  | .remainder => '%'

/-- What the operator does with integers. -/
def onInts : Division → Int64 → Int64 → Int64
  | .quotient => (· / ·)
  | .remainder => Value.intModulo

/-- The operator as it is written. -/
def written (d : Division) : Written := ⟨d.char, none⟩

end Division

namespace Evaluator

variable (ev : Evaluator κ ι σ)

/-- Nothing is made a float where there is none. -/
theorem promote_int (op : Written) (n : Int64) {b : Value} (hb : b.type ≠ .float) :
    ev.promote op (.value (.int n)) b = pure (.value (.int n), b) := by
  have hint : (Value.int n).type ≠ .float := nofun
  simp [promote, valueOf_value, hint, hb]

/-- An integer divided by what is no float: refused, or the quotient by what the divisor stands for, or by one. -/
theorem operate_division (d : Division) (target : Option (Identifier (Symbol ι))) (n : Int64) {b : Value}
    (hb : b.type ≠ .float) (rest : List Char) (s : Session σ) :
    ∃ t, (ev.operate d.written target (.value (.int n)) b rest).run.run s =
      if b.text = "0" then (.error ⟨.divisionByZero, excerptOfChars rest⟩, s)
      else (.ok (.value (.int (d.onInts n (Value.intDivisor b.toInt)))), t) := by
  have hequals := Value.equals_zero_iff hb
  refine ⟨{ s with state := ev.scope.setCells (ev.scope.cells s.state) s.state }, ?_⟩
  rw [← if_congr hequals rfl rfl]
  unfold operate
  rw [promote_int ev _ n hb, pure_bind]
  dsimp only
  rw [valueOf_value, pure_bind]
  cases d with
  | quotient =>
    change ((if b.equals (.float 0.0) then _ else _ : Eval σ Operand)).run.run s = _
    split <;> rfl
  | remainder =>
    change ((if b.equals (.float 0.0) then _ else _ : Eval σ Operand)).run.run s = _
    split <;> rfl

/-! ## Divisions of groups -/

/-- The right side of an operator is a single term where nothing is left behind that. -/
theorem sum_of_term {term : TermReader σ} {cs : List Char} {v : Value} {s t : Session σ}
    (h : (term cs).run.run s = (.ok (v, []), t)) (k : Nat) :
    (sum term (k + 1) .undefined cs).run.run s = (.ok (v, []), t) := by
  unfold sum
  rw [run_bind_ok h]
  rfl

theorem readOperator_division (d : Division) (cs : List Char) :
    readOperator? (d.char :: '(' :: cs) = some (d.written, '(' :: cs) := by
  have hextends : extendsOperator '(' = false := by decide
  have hstarts : startsOperator d.char = true := by cases d <;> decide
  simp [readOperator?, hextends, hstarts, Division.written]

/-- The operator and the group behind it. -/
theorem operator_division (d : Division) (n : Int64) {ds : List Char} {b : Value} {t u : Session σ}
    (hds : (ev.expression ds).run.run t = (.ok b, u)) (hblank : skipWhite ds ≠ []) (hb : b.type ≠ .float) {k : Nat}
    (hk : ds.length < k) :
    ∃ w, (ev.operator? (ev.termAt (k + 1)) none (.value (.int n)) (d.char :: '(' :: enclosed [] ds)).run.run t =
      if b.text = "0" then (.error ⟨.divisionByZero, ""⟩, u)
      else (.ok (some (.value (.int (d.onInts n (Value.intDivisor b.toInt))), [])), w) := by
  obtain ⟨_, hright, rfl⟩ := term_parenthesized ev hblank hk t _ u hds
  obtain ⟨w, hoperate⟩ := operate_division ev d none n hb [] u
  refine ⟨w, ?_⟩
  unfold operator?
  rw [readOperator_division]
  dsimp only
  rw [run_bind_ok (sum_of_term hright _)]
  by_cases hzero : b.text = "0"
  · rw [if_pos hzero] at hoperate ⊢
    exact run_bind_error hoperate _
  · rw [if_neg hzero] at hoperate ⊢
    exact run_bind_ok hoperate _

/-- One group divided by another one. -/
theorem term_division (d : Division) {cs ds : List Char} {n : Int64} {b : Value} {s t u : Session σ}
    (hcs : (ev.expression cs).run.run s = (.ok (.int n), t)) (hds : (ev.expression ds).run.run t = (.ok b, u))
    (hblank : skipWhite cs ≠ []) (hblank' : skipWhite ds ≠ []) (hb : b.type ≠ .float) {k : Nat} (hk : cs.length < k + 1)
    (hk' : ds.length < k) :
    ∃ w, (ev.termAt (k + 2) ('(' :: enclosed (d.char :: '(' :: enclosed [] ds) cs)).run.run s =
      if b.text = "0" then (.error ⟨.divisionByZero, ""⟩, u)
      else (.ok (.int (d.onInts n (Value.intDivisor b.toInt)), []), w) := by
  have hwhite : isWhite d.char = false := by cases d <;> decide
  obtain ⟨_, hleft, rfl⟩ := operand_parenthesized ev (d.char :: '(' :: enclosed [] ds) hblank hk s _ t hcs
  obtain ⟨w, hoperator⟩ := operator_division ev d n hds hblank' hb hk'
  refine ⟨w, ?_⟩
  rw [termAt, termWith, run_bind_ok hleft]
  dsimp only
  rw [skipWhite, List.dropWhile_cons_of_neg (by simp [hwhite])]
  by_cases hzero : b.text = "0"
  · rw [if_pos hzero] at hoperator ⊢
    exact run_bind_error (run_bind_error hoperator _) _
  · rw [if_neg hzero] at hoperator ⊢
    -- nothing is left behind the second group, so that the quotient is the term
    have hquotient : ∀ rounds, (ev.operators (ev.termAt (k + 1)) (rounds + 1) none (.value (.int n))
        (d.char :: '(' :: enclosed [] ds)).run.run t =
          (.ok (.value (.int (d.onInts n (Value.intDivisor b.toInt))), []), w) := by
      intro rounds
      unfold operators
      rw [run_bind_ok hoperator]
      cases rounds <;> rfl
    exact run_bind_ok (hquotient _) _

theorem expression_blank {cs : List Char} (h : skipWhite cs = []) : ev.expression cs = pure .undefined := by
  unfold expression terms
  rw [h]

end Evaluator

/-- In a session the text comes to the value, and leaves the other session. -/
def Engine.Yields (engine : Engine κ ι σ) (depth : Nat) (text : String) (s : Session σ) (v : Value) (t : Session σ) :
    Prop :=
  ((engine.evaluator depth).expression text.toList).run.run s = (.ok v, t)

namespace Engine

variable (engine : Engine κ ι σ) {depth : Nat} {dividend divisor : String} {n : Int64} {b : Value} {t u : Session σ}

/-- Whatever the scope, an integer is divided by a value that is no float. The division is refused if and only if the
text of the divisor is that of zero, and it stands for zero then. Any other divisor that stands for zero divides
as one. -/
theorem division_by_zero_iff (d : Division) (s : Session σ)
    (hdividend : engine.Yields depth dividend ⟨s.state, .clear⟩ (.int n) t)
    (hdivisor : engine.Yields depth divisor t b u) (hblank : ∃ c ∈ divisor.toList, isWhite c = false)
    (hb : b.type ≠ .float) :
    let answer := engine.calculate (depth + 1) ("(" ++ dividend ++ ")" ++ d.char.toString ++ "(" ++ divisor ++ ")") s
    (answer = (none, { u with errors := u.errors.report ⟨.divisionByZero, ""⟩ }) ↔ b.text = "0") ∧
      (b.text = "0" → b.toInt = 0) ∧
      (b.text ≠ "0" → answer.1 = some (.int (d.onInts n (if b.toInt = 0 then 1 else b.toInt)))) := by
  intro answer
  have htext : ("(" ++ dividend ++ ")" ++ d.char.toString ++ "(" ++ divisor ++ ")").toList =
      '(' :: enclosed (d.char :: '(' :: enclosed [] divisor.toList) dividend.toList := by
    simp [enclosed]
  have hdividend' : skipWhite dividend.toList ≠ [] := by
    intro hnil
    rw [Yields, Evaluator.expression_blank _ hnil] at hdividend
    cases hdividend
  have hdepth : ("(" ++ dividend ++ ")" ++ d.char.toString ++ "(" ++ divisor ++ ")").toList.length + 1 =
      dividend.toList.length + divisor.toList.length + 4 + 2 := by
    rw [htext]
    simp only [List.length_cons, length_enclosed, List.length_nil]
    omega
  obtain ⟨w, hterm⟩ := (engine.evaluator depth).term_division d hdividend hdivisor hdividend'
    (skipWhite_ne_nil hblank) hb (k := dividend.toList.length + divisor.toList.length + 4) (by omega) (by omega)
  have hblank' : skipWhite ("(" ++ dividend ++ ")" ++ d.char.toString ++ "(" ++ divisor ++ ")").toList ≠ [] := by
    rw [htext]
    exact List.cons_ne_nil _ _
  rw [← htext, ← hdepth] at hterm
  by_cases hzero : b.text = "0"
  · rw [if_pos hzero] at hterm
    have hanswer := engine.calculate_of_expression
      (Evaluator.expression_of_term _ (r := .error ⟨.divisionByZero, ""⟩) hblank' hterm)
    exact ⟨iff_of_true hanswer hzero, Value.toInt_of_text hb, fun hne => absurd hzero hne⟩
  · rw [if_neg hzero] at hterm
    have hanswer := engine.calculate_of_expression
      (Evaluator.expression_of_term _ (r := .ok (.int (d.onInts n (Value.intDivisor b.toInt)))) hblank' hterm)
    refine ⟨iff_of_false ?_ hzero, Value.toInt_of_text hb, fun _ => ?_⟩
    · intro hrefused
      cases hanswer.symm.trans hrefused
    · rw [show answer = _ from hanswer]
      simp [Value.intDivisor]

/-- A text that is no number stands for zero, and five divided by it is five; divided by the text of zero it is
refused. -/
theorem text_divides_as_one :
    let engine : Engine Empty Empty Unit := ⟨.empty, .none⟩
    let s : Session Unit := ⟨(), .clear⟩
    (Value.str "abc").toInt = 0 ∧ (engine.calculate 1 "(5)/(\"abc\")" s).1 = some (.int 5) ∧
      engine.calculate 1 "(5)/(\"0\")" s = (none, ⟨(), ⟨.divisionByZero, ""⟩⟩) := by
  intro engine s
  have hfive : engine.Yields 0 "5" s (.int 5) s := rfl
  have hletters : engine.Yields 0 "\"abc\"" s (.str "abc") s := rfl
  have hzero : engine.Yields 0 "\"0\"" s (.str "0") s := rfl
  obtain ⟨-, -, hdivides⟩ :=
    engine.division_by_zero_iff .quotient s hfive hletters ⟨'a', by decide, by decide⟩ nofun
  obtain ⟨hrefuses, -, -⟩ :=
    engine.division_by_zero_iff .quotient s hfive hzero ⟨'0', by decide, by decide⟩ nofun
  exact ⟨by decide, hdivides (by decide), hrefuses.mpr rfl⟩

end Engine

end HostScript
