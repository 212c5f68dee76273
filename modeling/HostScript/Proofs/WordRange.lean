import HostScript.Value.Arithmetic
import Mathlib.Algebra.Ring.Int.Defs
import Mathlib.Algebra.Ring.Nat
/-!
# The range of 64-bit integers

Sums and differences of 64-bit integers wrap around. They are those of the integers just if these stay in the
range.
-/

set_option autoImplicit false

namespace HostScript.Number

/-- The integers that 64 bits hold. -/
def InWord (n : Int) : Prop := -2 ^ 63 ≤ n ∧ n < 2 ^ 63

instance : DecidablePred InWord := fun n => inferInstanceAs (Decidable (-2 ^ 63 ≤ n ∧ n < 2 ^ 63))

theorem inWord_toInt (n : Int64) : InWord n.toInt := ⟨n.le_toInt, n.toInt_lt⟩

/-- Wrapping around leaves alone what is in the range, and nothing else. -/
theorem bmod_eq_self_iff (n : Int) : n.bmod (2 ^ 64) = n ↔ InWord n := by
  rw [Int.bmod_eq_iff (by decide), InWord]
  simp

theorem toInt_add_iff (a b : Int64) : (a + b).toInt = a.toInt + b.toInt ↔ InWord (a.toInt + b.toInt) := by
  rw [Int64.toInt_add, bmod_eq_self_iff]

end HostScript.Number
