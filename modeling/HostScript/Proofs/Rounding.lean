import HostScript.Value.Arithmetic
import Mathlib.Algebra.Ring.Int.Defs
/-!
# Rounding integers to a step

Half a step is added, and the sum is cut to a multiple of the step by a division that goes toward zero. A sum
that is not negative is cut to the multiple below, and this is a nearest one to the value. A negative sum is cut
to the multiple above it, which is too high but for the sums that are multiples themselves: so negative
multiples of a step other than one are moved up by a step, and again each time they are rounded.
-/

set_option autoImplicit false

namespace HostScript

namespace Number

variable {s x y : Int}

/-! ## Cutting to a multiple -/

/-- The multiple of a step that a number is cut to, toward zero. -/
def cutTo (s y : Int) : Int := y.tdiv s * s

theorem dvd_cutTo (s y : Int) : s ∣ cutTo s y := Int.dvd_mul_left _ _

theorem cutTo_of_nonneg (hy : 0 ≤ y) : cutTo s y = y - y % s := by
  have hdiv := Int.mul_ediv_add_emod y s
  rw [cutTo, Int.tdiv_eq_ediv_of_nonneg hy, Int.mul_comm]
  omega

theorem cutTo_of_nonpos (hy : y ≤ 0) : cutTo s y = y + -y % s := by
  have hneg : cutTo s (-y) = -cutTo s y := by rw [cutTo, Int.neg_tdiv, Int.neg_mul, cutTo]
  have hcut : cutTo s (-y) = -y - -y % s := cutTo_of_nonneg (Int.neg_nonneg_of_nonpos hy)
  omega

/-- Cutting goes toward zero, and not beyond it. -/
theorem cutTo_between (s y : Int) : min 0 y ≤ cutTo s y ∧ cutTo s y ≤ max 0 y := by
  have hle : (y.tmod s).natAbs ≤ y.natAbs := by
    rw [Int.natAbs_tmod]
    exact Nat.mod_le _ _
  have hcut := Int.tdiv_mul_add_tmod y s
  rw [← cutTo] at hcut
  rcases Int.le_total 0 y with hy | hy
  · have hnonneg := Int.tmod_nonneg s hy
    omega
  · have hnonpos := Int.tmod_nonneg s (Int.neg_nonneg_of_nonpos hy)
    rw [Int.neg_tmod] at hnonpos
    omega

/-! ## Half a step more -/

/-- What rounding makes of an integer of any size. -/
def roundedTo (s x : Int) : Int := cutTo s (x + s.tdiv 2)

theorem dvd_roundedTo (s x : Int) : s ∣ roundedTo s x := dvd_cutTo _ _

theorem roundedTo_eq (hs : 0 < s) : roundedTo s x = cutTo s (x + s / 2) := by
  rw [roundedTo, Int.tdiv_eq_ediv_of_nonneg (Int.le_of_lt hs)]

/-- A sum that is not negative comes to a multiple within half a step. -/
theorem roundedTo_of_nonneg (hs : 0 < s) (h : 0 ≤ x + s / 2) :
    x - (s - 1) / 2 ≤ roundedTo s x ∧ roundedTo s x ≤ x + s / 2 := by
  have hnonneg := Int.emod_nonneg (x + s / 2) (Int.ne_of_gt hs)
  have hlt := Int.emod_lt_of_pos (x + s / 2) hs
  rw [roundedTo_eq hs, cutTo_of_nonneg h]
  omega

/-- A negative sum comes to the multiple that is not below it. -/
theorem roundedTo_of_neg (hs : 0 < s) (h : x + s / 2 < 0) :
    x + s / 2 ≤ roundedTo s x ∧ (roundedTo s x = x + s / 2 ↔ s ∣ x + s / 2) := by
  have hnonneg := Int.emod_nonneg (-(x + s / 2)) (Int.ne_of_gt hs)
  rw [roundedTo_eq hs, cutTo_of_nonpos (Int.le_of_lt h), ← Int.dvd_neg, Int.dvd_iff_emod_eq_zero]
  omega

/-- Which integers come to a nearest multiple. -/
theorem roundedTo_nearest_iff (hs : 0 < s) :
    2 * (roundedTo s x - x).natAbs ≤ s ↔ 0 ≤ x + s / 2 ∨ s ∣ x + s / 2 := by
  by_cases h : 0 ≤ x + s / 2
  · have hclose := roundedTo_of_nonneg hs h
    refine iff_of_true ?_ (.inl h)
    omega
  · -- half a step is all that is allowed, and the sum is that much higher already
    obtain ⟨hge, heq⟩ := roundedTo_of_neg hs (Int.not_le.mp h)
    rw [or_iff_right h, ← heq]
    omega

/-- A multiple stays where it is unless it is negative; then it moves up by a step. -/
theorem roundedTo_multiple (hs : 0 < s) (hx : s ∣ x) :
    roundedTo s x = if 0 ≤ x ∨ s = 1 then x else x + s := by
  have hmod : ∀ z b, s ∣ z → (z + b) % s = b % s := by
    rintro z b ⟨k, rfl⟩
    exact Int.mul_add_emod_self_left s k b
  rw [roundedTo_eq hs]
  split
  · rename_i h
    rcases h with hnonneg | rfl
    · have hhalf : s / 2 % s = s / 2 := Int.emod_eq_of_lt (by omega) (by omega)
      rw [cutTo_of_nonneg (by omega), hmod x _ hx, hhalf]
      omega
    · simp [cutTo]
  · rename_i h
    have hle : s ≤ -x := Int.le_of_dvd (by omega) (Int.dvd_neg.mpr hx)
    have hhalf : (s - s / 2) % s = s - s / 2 := Int.emod_eq_of_lt (by omega) (by omega)
    have hsum : -(x + s / 2) = -(x + s) + (s - s / 2) := by omega
    rw [cutTo_of_nonpos (by omega), hsum, hmod _ _ (Int.dvd_neg.mpr (Int.dvd_add hx (Int.dvd_refl s))), hhalf]
    omega

end Number

namespace Value

open HostScript.Number

/-! ## 64-bit integers -/

theorem round_int {x s : Int64} (hs : s ≠ 0) : (int x).round (int s) = int ((x + s / 2) / s * s) := by
  have hzero : (s == 0) = false := beq_false_of_ne hs
  simp only [round, isZero, hzero, toInt, coerceInt]
  rfl

/-- Nothing but the sum with half a step can leave the 64 bits. -/
theorem toInt_rounded {x s : Int64} (hlow : -2 ^ 63 ≤ x.toInt + s.toInt.tdiv 2)
    (hhigh : x.toInt + s.toInt.tdiv 2 < 2 ^ 63) :
    ((x + s / 2) / s * s).toInt = roundedTo s.toInt x.toInt := by
  have hbounds := s.le_toInt
  have hlt := s.toInt_lt
  have hhalf : (s / 2).toInt = s.toInt.tdiv 2 := Int64.toInt_div_of_ne_right s 2 (by decide)
  have hsum : (x + s / 2).toInt = x.toInt + s.toInt.tdiv 2 := by
    rw [Int64.toInt_add, hhalf, Int.bmod_eq_of_le (by omega) (by omega)]
  have hcut := cutTo_between s.toInt (x.toInt + s.toInt.tdiv 2)
  rw [Int64.toInt_mul, Int64.toInt_div, Int.bmod_mul_bmod, hsum, roundedTo, ← cutTo]
  exact Int.bmod_eq_of_le (by omega) (by omega)

/-- A multiple with room for half a step on top is left as it is unless it is negative. -/
theorem round_multiple_iff {x s : Int64} (hs : 0 < s.toInt) (hx : s.toInt ∣ x.toInt)
    (hhigh : x.toInt + s.toInt.tdiv 2 < 2 ^ 63) :
    (int x).round (int s) = int x ↔ 0 ≤ x.toInt ∨ s.toInt = 1 := by
  have hne : s ≠ 0 := ne_of_apply_ne Int64.toInt (Int.ne_of_gt hs)
  have hlow : -2 ^ 63 ≤ x.toInt + s.toInt.tdiv 2 :=
    Int.le_trans x.le_toInt (Int.le_add_of_nonneg_right (Int.tdiv_nonneg (Int.le_of_lt hs) (by decide)))
  rw [round_int hne, Value.int.injEq, ← Int64.toInt_inj, toInt_rounded hlow hhigh, roundedTo_multiple hs hx]
  split <;> omega

/-- Rounding to a positive step comes to a multiple of it. This is a nearest one just if the value with half a
step added is not negative or a multiple itself. Multiples are left as they are, and what comes out is left as
it is when it is rounded again, just if they are not negative or the step is one. -/
theorem round_nearest_iff {x s : Int64} (hs : 0 < s.toInt) (hlow : -2 ^ 63 ≤ x.toInt - s.toInt)
    (hhigh : x.toInt + s.toInt < 2 ^ 63) :
    ∃ r : Int64, (int x).round (int s) = int r ∧ s.toInt ∣ r.toInt ∧
      (2 * (r.toInt - x.toInt).natAbs ≤ s.toInt ↔ 0 ≤ x.toInt + s.toInt / 2 ∨ s.toInt ∣ x.toInt + s.toInt / 2) ∧
      (s.toInt ∣ x.toInt → (r = x ↔ 0 ≤ x.toInt ∨ s.toInt = 1)) ∧
      ((int r).round (int s) = int r ↔ 0 ≤ r.toInt ∨ s.toInt = 1) := by
  have hne : s ≠ 0 := ne_of_apply_ne Int64.toInt (Int.ne_of_gt hs)
  have hhalf : s.toInt.tdiv 2 = s.toInt / 2 := Int.tdiv_eq_ediv_of_nonneg (Int.le_of_lt hs)
  obtain ⟨r, hr⟩ : ∃ r, r = (x + s / 2) / s * s := ⟨_, rfl⟩
  have hrounded : r.toInt = roundedTo s.toInt x.toInt := hr ▸ toInt_rounded (by omega) (by omega)
  have hdvd : s.toInt ∣ r.toInt := hrounded ▸ dvd_roundedTo _ _
  have hround : (int x).round (int s) = int r := hr ▸ round_int hne
  have hroom : r.toInt + s.toInt.tdiv 2 < 2 ^ 63 := by
    have hbetween := cutTo_between s.toInt (x.toInt + s.toInt.tdiv 2)
    rw [← roundedTo, ← hrounded] at hbetween
    omega
  refine ⟨r, hround, hdvd, hrounded ▸ roundedTo_nearest_iff hs, fun hx => ?_, round_multiple_iff hs hdvd hroom⟩
  rw [← Value.int.injEq, ← hround]
  exact round_multiple_iff hs hx (by omega)

/-- A negative multiple is moved a whole step, and would be moved again. -/
theorem negative_multiple_moved :
    (int (-10)).round (int 5) = int (-5) ∧
      ¬ 2 * ((-5 : Int64).toInt - (-10 : Int64).toInt).natAbs ≤ (5 : Int64).toInt ∧
      (int (-5)).round (int 5) ≠ int (-5) := by
  obtain ⟨r, hround, -, hnearest, -, hagain⟩ :=
    round_nearest_iff (x := -10) (s := 5) (by decide) (by decide) (by decide)
  obtain rfl : (-5 : Int64) = r := Value.int.inj hround
  refine ⟨hround, ?_, ?_⟩
  · rw [hnearest]
    decide
  · rw [Ne, hagain]
    decide

end Value

end HostScript
