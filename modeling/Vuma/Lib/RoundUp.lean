import Mathlib

/-!
# Rounding up

The next multiple of a positive number.
-/

namespace Vuma.Lib

/-- The least multiple of `a` from `n` on. -/
def roundUp (n a : ℕ) : ℕ := (n + a - 1) / a * a

variable {n m a : ℕ}

theorem le_roundUp (ha : 0 < a) (n : ℕ) : n ≤ roundUp n a := by
  have h₁ := Nat.div_add_mod (n + a - 1) a
  have h₂ := Nat.mod_lt (n + a - 1) ha
  rw [Nat.mul_comm] at h₁
  rw [roundUp]
  omega

theorem dvd_roundUp (n a : ℕ) : a ∣ roundUp n a := Nat.dvd_mul_left a _

theorem roundUp_lt (ha : 0 < a) (n : ℕ) : roundUp n a < n + a := by
  have h := Nat.div_mul_le_self (n + a - 1) a
  rw [roundUp]
  omega

theorem roundUp_of_dvd (ha : 0 < a) (h : a ∣ n) : roundUp n a = n := by
  obtain ⟨k, rfl⟩ := h
  rw [roundUp, Nat.add_sub_assoc ha, Nat.mul_add_div ha, Nat.div_eq_of_lt (by omega), Nat.add_zero,
    Nat.mul_comm]

theorem roundUp_zero (ha : 0 < a) : roundUp 0 a = 0 := roundUp_of_dvd ha (Nat.dvd_zero a)

/-- A number that is no multiple is rounded to the multiple after it. -/
theorem roundUp_of_not_dvd (h : ¬ a ∣ n) : roundUp n a = (n / a + 1) * a := by
  rcases Nat.eq_zero_or_pos a with rfl | ha
  · rw [roundUp, Nat.mul_zero, Nat.mul_zero]
  have hmod : 0 < n % a := Nat.pos_of_ne_zero fun h0 => h (Nat.dvd_of_mod_eq_zero h0)
  have hdiv := Nat.div_add_mod n a
  have hlt := Nat.mod_lt n ha
  have hsum : n + a - 1 = a * (n / a + 1) + (n % a - 1) := by
    rw [Nat.mul_add, Nat.mul_one]
    omega
  have hrest : (n % a - 1) / a = 0 := Nat.div_eq_of_lt (by omega)
  rw [roundUp, hsum, Nat.mul_add_div ha, hrest, Nat.add_zero]

end Vuma.Lib
