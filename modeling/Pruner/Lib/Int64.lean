import Mathlib.Algebra.Order.Ring.Int
import Mathlib.Tactic.Ring

/-!
# Arithmetic on 64 bits

Signed integers that wrap around, as integers in the range of the type.

## Main definitions

* `int64` — what is left of the exact result of an operation.
-/

namespace Pruner.Lib

/-- What an `int64_t` holds after an operation with the exact result `n`. -/
def int64 (n : ℤ) : ℤ := n.bmod (2 ^ 64)

variable {m n : ℤ}

theorem int64_eq_self (h : n.natAbs < 2 ^ 63) : int64 n = n :=
  Int.bmod_eq_of_le (by omega) (by omega)

theorem natAbs_int64_le (n : ℤ) : (int64 n).natAbs ≤ n.natAbs := by
  by_cases h : n.natAbs < 2 ^ 63
  · rw [int64_eq_self h]
  · have hge : -2 ^ 63 ≤ int64 n := Int.le_bmod (m := 2 ^ 64) (by decide)
    have hlt : int64 n < 2 ^ 63 := Int.bmod_lt (m := 2 ^ 64) (by decide)
    omega

/-- Intermediate results may wrap around. -/
theorem int64_sub_mul (k : ℤ) : int64 (m - int64 (int64 n * k)) = int64 (m - n * k) := by
  rw [int64, int64, int64, Int.sub_bmod_bmod, ← Int.sub_bmod_bmod, Int.bmod_mul_bmod,
    Int.sub_bmod_bmod]
  rfl

end Pruner.Lib
