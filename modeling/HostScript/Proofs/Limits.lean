import HostScript.Proofs.DefinitionLines
import HostScript.Proofs.Rounding
/-!
# Limits of variables

A variable of integers brings what is written between its limits first, and to its step afterwards. So what it holds
is within the limits if the step is zero. Where rounding comes to a nearest multiple, it passes them by half a step at
most, and a limit that is a multiple itself not at all.
-/

set_option autoImplicit false

namespace HostScript

namespace Number

variable {s r x limit : Int}

/-! ## Nearest multiples -/

/-- A nearest multiple does not fall below a multiple that the number is not below. -/
theorem le_of_nearest (_ : 0 < s) (hr : s ∣ r) (hnear : 2 * (r - x).natAbs ≤ s) (hlimit : s ∣ limit)
    (h : limit ≤ x) : limit ≤ r := by
  by_contra hbelow
  have hstep : s ≤ limit - r := Int.le_of_dvd (by omega) (Int.dvd_sub hlimit hr)
  omega

theorem nearest_le (_ : 0 < s) (hr : s ∣ r) (hnear : 2 * (r - x).natAbs ≤ s) (hlimit : s ∣ limit)
    (h : x ≤ limit) : r ≤ limit := by
  by_contra habove
  have hstep : s ≤ r - limit := Int.le_of_dvd (by omega) (Int.dvd_sub hr hlimit)
  omega

end Number

namespace Value

variable {a b : Int64}

/-! ## Integers in order -/

theorem less_int : (int a).less (int b) = true ↔ a < b := by
  rw [less, beq_iff_eq]
  exact orderInts_eq_lt

theorem greater_int : (int a).greater (int b) = true ↔ b < a := by
  rw [greater, beq_iff_eq]
  exact orderInts_eq_gt

theorem equals_int : (int a).equals (int b) = true ↔ a = b := by
  rw [equals, beq_iff_eq]
  exact orderInts_eq_eq

end Value

/-! ## Definitions of integers -/

/-- The limits and the step of a definition of integers. -/
structure VariableDefinition.Integers (d : VariableDefinition) (lo hi s : Int64) : Prop where
  type : d.type = .integer
  min : d.min = .int lo
  max : d.max = .int hi
  round : d.round = .int s

theorem Value.eq_int_of_type {v : Value} (h : v.type = .integer) : ∃ n, v = .int n := by
  cases v with
  | int n => exact ⟨n, rfl⟩
  | _ => cases h

theorem VariableDefinition.integers_of_parse {csv : String} {d : VariableDefinition} (h : parse csv = .ok d)
    (htype : d.type = .integer) : ∃ lo hi s, d.Integers lo hi s := by
  have hread := parse_eq_ok_iff.mp h
  obtain ⟨lo, hlo⟩ := Value.eq_int_of_type ((readValue_type hread.min).trans htype)
  obtain ⟨hi, hhi⟩ := Value.eq_int_of_type ((readValue_type hread.max).trans htype)
  obtain ⟨s, hs⟩ := Value.eq_int_of_type ((readValue_type hread.round).trans htype)
  exact ⟨lo, hi, s, htype, hlo, hhi, hs⟩

namespace Variable

open HostScript.Number

/-! ## Writing -/

/-- A variable after some writes; one that does not convert changes nothing. -/
def written (v : Variable) (writes : List Value) : Variable :=
  writes.foldl (fun v incoming => ((v.store? incoming).map (·.1)).getD v) v

theorem definition_written (v : Variable) (writes : List Value) : (v.written writes).definition = v.definition := by
  induction writes generalizing v with
  | nil => rfl
  | cons incoming writes ih =>
    rw [written, List.foldl_cons, ← written, ih]
    cases h : v.store? incoming with
    | none => rfl
    | some stored => exact (store_eq_some h).1

/-- An integer is brought between the limits. -/
theorem clamp_int {d : VariableDefinition} {lo hi s : Int64} (hd : d.Integers lo hi s) (hlimits : lo < hi) (n : Int64) :
    ∃ x : Int64, clamp d (.int n) = .int x ∧ x.toInt = max lo.toInt (min n.toInt hi.toInt) := by
  have hlt := Int64.lt_iff_toInt_lt.mp hlimits
  have hdiffer : (Value.int hi).equals (.int lo) = false := by
    rw [← Bool.not_eq_true, Value.equals_int]
    rintro rfl
    omega
  have hordered : (Value.int hi).less (.int lo) = false := by
    rw [← Bool.not_eq_true, Value.less_int, Int64.lt_iff_toInt_lt]
    omega
  simp only [clamp, hd.min, hd.max, hdiffer]
  by_cases habove : (Value.int n).greater (.int hi)
  · have hgt := Int64.lt_iff_toInt_lt.mp (Value.greater_int.mp habove)
    exact ⟨hi, by simp [habove, hordered], by omega⟩
  by_cases hbelow : (Value.int n).less (.int lo)
  · have hlow := Int64.lt_iff_toInt_lt.mp (Value.less_int.mp hbelow)
    exact ⟨lo, by simp [habove, hbelow], by omega⟩
  · have hle := mt (Value.greater_int.mpr ∘ Int64.lt_iff_toInt_lt.mpr) habove
    have hge := mt (Value.less_int.mpr ∘ Int64.lt_iff_toInt_lt.mpr) hbelow
    exact ⟨n, by simp [habove, hbelow], by omega⟩

/-- Rounding a number between the limits. -/
theorem round_within (lo hi s x : Int64) (hlo : lo.toInt ≤ x.toInt) (hhi : x.toInt ≤ hi.toInt) :
    ∃ r : Int64, (Value.int x).round (.int s) = .int r ∧ (s = 0 → lo ≤ r ∧ r ≤ hi) ∧
      (0 < s.toInt → x.toInt + s.toInt / 2 < 2 ^ 63 →
        0 ≤ x.toInt + s.toInt / 2 ∨ s.toInt ∣ x.toInt + s.toInt / 2 →
          s.toInt ∣ r.toInt ∧ 2 * (r.toInt - x.toInt).natAbs ≤ s.toInt ∧
            (s.toInt ∣ lo.toInt → lo ≤ r) ∧ (s.toInt ∣ hi.toInt → r ≤ hi)) := by
  by_cases hs : s = 0
  · subst hs
    exact ⟨x, rfl, fun _ => ⟨Int64.le_iff_toInt_le.mpr hlo, Int64.le_iff_toInt_le.mpr hhi⟩,
      fun hpos => absurd hpos (by decide)⟩
  refine ⟨(x + s / 2) / s * s, Value.round_int hs, fun h => absurd h hs, fun hpos hhigh hreached => ?_⟩
  have hhalf : s.toInt.tdiv 2 = s.toInt / 2 := Int.tdiv_eq_ediv_of_nonneg (Int.le_of_lt hpos)
  have hlow := x.le_toInt
  have hrounded := Value.toInt_rounded (x := x) (s := s) (by omega) (by omega)
  have hdvd := dvd_roundedTo s.toInt x.toInt
  have hnear := (roundedTo_nearest_iff hpos).mpr hreached
  rw [Int64.le_iff_toInt_le, Int64.le_iff_toInt_le, hrounded]
  exact ⟨hdvd, hnear, fun h => le_of_nearest hpos hdvd hnear h hlo, fun h => nearest_le hpos hdvd hnear h hhi⟩

/-- What a variable of integers holds after a write that converts, whatever was written before. -/
theorem store_limits {csv : String} {d : VariableDefinition} (hparse : VariableDefinition.parse csv = .ok d)
    (htype : d.type = .integer) (hlimits : d.min.less d.max = true) (writes : List Value) {incoming : Value}
    {w : Variable} {changed : Bool} (h : ((ofDefinition d).written writes).store? incoming = some (w, changed)) :
    w.definition = d ∧ w.current.type = d.type ∧
      ∃ lo hi s n x r : Int64, d.Integers lo hi s ∧ incoming.convert .integer = (.int n, true) ∧
        x.toInt = max lo.toInt (min n.toInt hi.toInt) ∧ (Value.int x).round (.int s) = .int r ∧ w.current = .int r ∧
        (s = 0 → lo ≤ r ∧ r ≤ hi) ∧
        (0 < s.toInt → x.toInt + s.toInt / 2 < 2 ^ 63 →
          0 ≤ x.toInt + s.toInt / 2 ∨ s.toInt ∣ x.toInt + s.toInt / 2 →
            s.toInt ∣ r.toInt ∧ 2 * (r.toInt - x.toInt).natAbs ≤ s.toInt ∧
              (s.toInt ∣ lo.toInt → lo ≤ r) ∧ (s.toInt ∣ hi.toInt → r ≤ hi)) := by
  obtain ⟨lo, hi, s, hd⟩ := VariableDefinition.integers_of_parse hparse htype
  rw [hd.min, hd.max, Value.less_int] at hlimits
  have hdefinition : ((ofDefinition d).written writes).definition = d := definition_written _ writes
  obtain ⟨hsame, -⟩ := store_eq_some h
  unfold store? at h
  rw [hdefinition, htype] at h
  split at h
  · cases h
  · rename_i v hconvert
    obtain ⟨rfl, -⟩ := Prod.mk.inj (Option.some.inj h)
    have hclean : (incoming.convert .integer).2 = true := by rw [hconvert]
    obtain ⟨n, hn⟩ := Value.eq_int_of_type (Value.type_convert_clean hclean)
    rw [hconvert] at hn
    obtain rfl : v = .int n := hn
    obtain ⟨x, hclamp, hx⟩ := clamp_int hd hlimits n
    have hlt := Int64.lt_iff_toInt_lt.mp hlimits
    obtain ⟨r, hround, hwithin⟩ := round_within lo hi s x (by omega) (by omega)
    have hcurrent : adjust d (.int n) = .int r := by
      rw [adjust, if_pos (by simp [htype]), hclamp, hd.round, hround]
    refine ⟨hsame.trans hdefinition, ?_, lo, hi, s, n, x, r, hd, hconvert, hx, hround, hcurrent, hwithin⟩
    rw [hcurrent, htype]
    rfl

/-- Limits that are multiples of the step are kept. -/
theorem multiple_kept :
    ∃ d w changed, VariableDefinition.parse "1,a,,,,INTEGER,,5,0,0,10" = .ok d ∧ d.max = .int 10 ∧
      ((ofDefinition d).written [.str "7"]).store? (.int 99) = some (w, changed) ∧
        w.current.greater (.int 10) = false := by
  have hread : (VariableDefinition.parse "1,a,,,,INTEGER,,5,0,0,10").toOption.any (fun d =>
      d.type == .integer && d.min.less d.max && d.round.equals (.int 5) && d.max.equals (.int 10) &&
        (((ofDefinition d).written [.str "7"]).store? (.int 99)).isSome) = true := by decide +kernel
  obtain ⟨d, hparse, hd⟩ := Except.exists_of_any hread
  simp only [Bool.and_eq_true, beq_iff_eq, Option.isSome_iff_exists] at hd
  obtain ⟨⟨⟨⟨htype, hlimits⟩, hround⟩, hmax⟩, ⟨w, changed⟩, hstore⟩ := hd
  obtain ⟨-, -, lo, hi, s, n, x, r, hd, hconvert, hx, -, hcurrent, -, hwithin⟩ :=
    store_limits hparse htype hlimits [.str "7"] hstore
  rw [hd.max, Value.equals_int] at hmax
  rw [hd.round, Value.equals_int] at hround
  rw [hd.min, hd.max, Value.less_int, Int64.lt_iff_toInt_lt] at hlimits
  subst hmax hround
  refine ⟨d, w, changed, hparse, hd.max, hstore, ?_⟩
  obtain rfl : 99 = n := Value.int.inj (congrArg Prod.fst hconvert)
  have hten : x.toInt = 10 := by
    have hlow : lo.toInt < 10 := hlimits
    have hbetween : x.toInt = max lo.toInt (min 99 10) := hx
    omega
  rw [hten] at hwithin
  have hkept := (hwithin (by decide) (by decide) (by decide)).2.2.2 (by decide)
  rw [hcurrent, ← Bool.not_eq_true, Value.greater_int, Int64.not_lt]
  exact hkept

/-- Rounding passes a limit that is not a multiple of the step. -/
theorem limit_passed :
    ∃ d w changed, VariableDefinition.parse "1,a,,,,INTEGER,,3,0,0,11" = .ok d ∧ d.type = .integer ∧
      d.min.less d.max = true ∧ (ofDefinition d).store? (.int 11) = some (w, changed) ∧
      w.current.greater d.max = true := by
  have hread : (VariableDefinition.parse "1,a,,,,INTEGER,,3,0,0,11").toOption.any (fun d =>
      d.type == .integer && d.min.less d.max &&
        ((ofDefinition d).store? (.int 11)).any fun stored => stored.1.current.greater d.max) = true := by
    decide +kernel
  obtain ⟨d, hparse, hd⟩ := Except.exists_of_any hread
  simp only [Bool.and_eq_true, beq_iff_eq, Option.any_eq_true] at hd
  obtain ⟨⟨htype, hlimits⟩, ⟨w, changed⟩, hstore, hgreater⟩ := hd
  exact ⟨d, w, changed, hparse, htype, hlimits, hstore, hgreater⟩

end Variable
end HostScript
