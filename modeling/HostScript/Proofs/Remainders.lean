import HostScript.Proofs.WordRange
/-!
# Remainders with the sign of the divisor

A division that goes toward zero leaves a remainder with the sign of the dividend. Where this is not the sign of the
divisor, the divisor is added. The two are on different sides of zero then, and their sum lies between them: it is
smaller than the divisor, on the side of the divisor, and it never leaves the 64 bits.
-/

set_option autoImplicit false

namespace HostScript

namespace Number

variable {k m r : Int}

/-- What is left of `k` by a division by `m` whose quotient is rounded down. -/
structure FlooredRemainder (k m r : Int) : Prop where
  dvd : m ∣ k - r
  smaller : r.natAbs < m.natAbs
  sign : r = 0 ∨ r.sign = m.sign

/-- A remainder that is not zero is on the side of the divisor. -/
theorem FlooredRemainder.between (h : FlooredRemainder k m r) : 0 ≤ r ∧ r < m ∨ m < r ∧ r ≤ 0 := by
  obtain ⟨-, hsmaller, rfl | hsign⟩ := h
  · omega
  · rcases Int.lt_trichotomy m 0 with hm | hm | hm
    · rw [Int.sign_eq_neg_one_of_neg hm, Int.sign_eq_neg_one_iff_neg] at hsign
      omega
    · omega
    · rw [Int.sign_eq_one_of_pos hm, Int.sign_eq_one_iff_pos] at hsign
      omega

/-- There is only one such remainder. -/
theorem FlooredRemainder.eq_fmod (h : FlooredRemainder k m r) : r = k.fmod m := by
  obtain ⟨q, hq⟩ := h.dvd
  have hk : r + m * q = k := by omega
  rcases h.between with ⟨hr, hm⟩ | ⟨hm, hr⟩
  · exact ((Int.fdiv_fmod_unique (Int.lt_of_le_of_lt hr hm)).mpr ⟨hk, hr, hm⟩).2.symm
  · exact ((Int.fdiv_fmod_unique' (Int.lt_of_lt_of_le hm hr)).mpr ⟨hk, hm, hr⟩).2.symm

/-! ## From the remainder toward zero -/

/-- Two numbers on different sides of zero. -/
def Opposed (r m : Int) : Prop := 0 < m ∧ r < 0 ∨ m < 0 ∧ 0 < r

instance (r m : Int) : Decidable (Opposed r m) := inferInstanceAs (Decidable (0 < m ∧ r < 0 ∨ m < 0 ∧ 0 < r))

/-- Their sum lies between them, and so in the range. -/
theorem Opposed.inWord_add (h : Opposed r m) (hr : InWord r) (hm : InWord m) : InWord (r + m) := by
  unfold Opposed InWord at *
  omega

theorem natAbs_tmod_lt (k : Int) (hm : m ≠ 0) : (k.tmod m).natAbs < m.natAbs := by
  rw [Int.natAbs_tmod]
  exact Nat.mod_lt _ (Int.natAbs_pos.mpr hm)

theorem flooredRemainder_tmod (hm : m ≠ 0) (h : ¬Opposed (k.tmod m) m) : FlooredRemainder k m (k.tmod m) := by
  refine ⟨Int.dvd_self_sub_tmod, natAbs_tmod_lt k hm, ?_⟩
  unfold Opposed at h
  rcases Int.lt_trichotomy (k.tmod m) 0 with hr | hr | hr
  · have hneg : m < 0 := by omega
    exact .inr (by rw [Int.sign_eq_neg_one_of_neg hr, Int.sign_eq_neg_one_of_neg hneg])
  · exact .inl hr
  · have hpos : 0 < m := by omega
    exact .inr (by rw [Int.sign_eq_one_of_pos hr, Int.sign_eq_one_of_pos hpos])

theorem flooredRemainder_tmod_add (hm : m ≠ 0) (h : Opposed (k.tmod m) m) :
    FlooredRemainder k m (k.tmod m + m) := by
  have hsmaller := natAbs_tmod_lt k hm
  have hdvd : m ∣ k - (k.tmod m + m) := by
    rw [← Int.sub_sub]
    exact Int.dvd_sub Int.dvd_self_sub_tmod (Int.dvd_refl m)
  rcases h with ⟨hm, hr⟩ | ⟨hm, hr⟩
  · have hsum : 0 < k.tmod m + m := by omega
    exact ⟨hdvd, by omega, .inr (by rw [Int.sign_eq_one_of_pos hsum, Int.sign_eq_one_of_pos hm])⟩
  · have hsum : k.tmod m + m < 0 := by omega
    exact ⟨hdvd, by omega, .inr (by rw [Int.sign_eq_neg_one_of_neg hsum, Int.sign_eq_neg_one_of_neg hm])⟩

end Number

namespace Value

open HostScript.Number

theorem intDivisor_eq (n : Int64) : intDivisor n = if n = 0 then 1 else n := by
  by_cases hn : n = 0 <;> simp [intDivisor, hn]

theorem intDivisor_ne_zero (n : Int64) : (intDivisor n).toInt ≠ 0 := by
  rw [intDivisor_eq]
  split
  · decide
  · rename_i hn
    exact fun h => hn (Int64.toInt_inj.mp h)

theorem intModulo_eq (k n : Int64) : intModulo k n = if Opposed (k % n).toInt n.toInt then k % n + n else k % n := by
  refine if_congr ?_ rfl rfl
  simp only [Opposed, Int64.lt_iff_toInt_lt, Int64.toInt_zero, Bool.or_eq_true, Bool.and_eq_true, decide_eq_true_iff]

theorem flooredRemainder_intModulo (k : Int64) {n : Int64} (hn : n.toInt ≠ 0) :
    FlooredRemainder k.toInt n.toInt (intModulo k n).toInt := by
  rw [intModulo_eq]
  split
  · rename_i h
    rw [(toInt_add_iff _ _).mpr (h.inWord_add (inWord_toInt _) (inWord_toInt n))]
    rw [Int64.toInt_mod] at h ⊢
    exact flooredRemainder_tmod_add hn h
  · rename_i h
    rw [Int64.toInt_mod] at h ⊢
    exact flooredRemainder_tmod hn h

/-- **Modulo rounds down.** For all 64-bit `k` and `n`, with one in the place of a divisor that is zero, modulo gives
the remainder of the division whose quotient is rounded down: it differs from `k` by a multiple of the divisor, is
smaller than the divisor, and has its sign unless it is zero. It is the remainder toward zero, or the sum of that and
the divisor, and where this sum is made it does not leave the 64 bits. -/
theorem mod_floored (k n : Int64) :
    ∃ m r : Int64, m = (if n = 0 then 1 else n) ∧ (int k).mod (int n) = int r ∧ r.toInt = k.toInt.fmod m.toInt ∧
      FlooredRemainder k.toInt m.toInt r.toInt ∧
      (r = k % m ∨ r = k % m + m ∧ InWord ((k % m).toInt + m.toInt)) := by
  have hfloored := flooredRemainder_intModulo k (intDivisor_ne_zero n)
  refine ⟨intDivisor n, intModulo k (intDivisor n), intDivisor_eq n, rfl, hfloored.eq_fmod, hfloored, ?_⟩
  rw [intModulo_eq]
  split
  · rename_i h
    exact .inr ⟨rfl, h.inWord_add (inWord_toInt _) (inWord_toInt _)⟩
  · exact .inl rfl

example : (int Int64.minValue).mod (int (-1)) = int 0 := rfl

end Value

end HostScript
