import Mathlib.Tactic

/-!
# Integers of 64 bits

Signed arithmetic that wraps around, on the integers.
-/

namespace AndyEnv

/-- The value of an `int64` expression whose exact value is given. -/
def wrap (x : ℤ) : ℤ := Int.bmod x (2 ^ 64)

theorem wrap_of_mem {x : ℤ} (hlo : -2 ^ 63 ≤ x) (hhi : x < 2 ^ 63) : wrap x = x := by
  apply Int.bmod_eq_of_le <;> norm_num <;> omega

/-- An exact value that is too large by less than `2 ^ 64` becomes negative. -/
theorem wrap_of_ge {x : ℤ} (hlo : 2 ^ 63 ≤ x) (hhi : x < 2 ^ 64) : wrap x = x - 2 ^ 64 := by
  have hmod : x % ((2 ^ 64 : ℕ) : ℤ) = x := Int.emod_eq_of_lt (by omega) (by norm_num; omega)
  unfold wrap Int.bmod
  simp only [hmod]
  rw [if_neg (by norm_num; omega)]
  norm_num

variable (x y : ℤ)

/-- What is added or subtracted before wrapping may have been wrapped itself. -/
theorem wrap_wrap_add : wrap (wrap x + y) = wrap (x + y) := Int.bmod_add_bmod

theorem wrap_add_wrap : wrap (x + wrap y) = wrap (x + y) := Int.add_bmod_bmod

theorem wrap_wrap_sub : wrap (wrap x - y) = wrap (x - y) := Int.bmod_sub_bmod

end AndyEnv
