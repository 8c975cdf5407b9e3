import Mathlib.Algebra.Group.Nat.Defs

/-!
# Three bytes in four groups of six bits

Shifts and bitwise operations cut three bytes into four groups of six bits, and put them together
again.  All of it is division and remainder by powers of two, once a bitwise or of disjoint bits is
an addition.

## Main definitions

* `sextet₁`, `sextet₂`, `sextet₃`, `sextet₄` — the groups of three bytes.
* `byte₁_of_sextets`, `byte₂_of_sextets`, `byte₃_of_sextets` — the bytes again.
-/

namespace Pruner.Lib

/-- The high six bits of the first byte. -/
def sextet₁ (a : ℕ) : ℕ := a >>> 2

/-- The low two bits of the first byte and the high four of the second. -/
def sextet₂ (a b : ℕ) : ℕ := (a <<< 4 ||| b >>> 4) &&& 0x3F

/-- The low four bits of the second byte and the high two of the third. -/
def sextet₃ (b c : ℕ) : ℕ := (b <<< 2 ||| c >>> 6) &&& 0x3F

/-- The low six bits of the third byte. -/
def sextet₄ (c : ℕ) : ℕ := c &&& 0x3F

theorem and_63 (n : ℕ) : n &&& 0x3F = n % 64 := Nat.and_two_pow_sub_one_eq_mod n 6

theorem and_255 (n : ℕ) : n &&& 0xFF = n % 256 := Nat.and_two_pow_sub_one_eq_mod n 8

/-- A bitwise or of disjoint bits is an addition. -/
theorem shiftLeft_or_eq_add {n k : ℕ} (m : ℕ) (h : n < 2 ^ k) : m <<< k ||| n = m * 2 ^ k + n := by
  rw [← Nat.shiftLeft_add_eq_or_of_lt h, Nat.shiftLeft_eq]

variable {a b c : ℕ}

theorem sextet₁_eq (a : ℕ) : sextet₁ a = a / 4 := Nat.shiftRight_eq_div_pow a 2

theorem sextet₂_eq (a : ℕ) (hb : b < 256) : sextet₂ a b = (a * 16 + b / 16) % 64 := by
  rw [sextet₂, and_63, shiftLeft_or_eq_add a (by omega)]
  omega

theorem sextet₃_eq (b : ℕ) (hc : c < 256) : sextet₃ b c = (b * 4 + c / 64) % 64 := by
  rw [sextet₃, and_63, shiftLeft_or_eq_add b (by omega)]
  omega

theorem sextet₄_eq (c : ℕ) : sextet₄ c = c % 64 := and_63 c

theorem sextet₁_lt (ha : a < 256) : sextet₁ a < 64 := by
  rw [sextet₁_eq]
  omega

theorem sextet₂_lt (a b : ℕ) : sextet₂ a b < 64 := by
  rw [sextet₂, and_63]
  omega

theorem sextet₃_lt (b c : ℕ) : sextet₃ b c < 64 := by
  rw [sextet₃, and_63]
  omega

theorem sextet₄_lt (c : ℕ) : sextet₄ c < 64 := by
  rw [sextet₄_eq]
  omega

/-- Two groups put together. -/
theorem join₂ (v w : ℕ) (hw : w < 64) : v <<< 18 ||| w <<< 12 = v * 2 ^ 18 + w * 2 ^ 12 := by
  rw [Nat.shiftLeft_eq w, shiftLeft_or_eq_add v (by omega)]

/-- Three groups put together. -/
theorem join₃ (v w x : ℕ) (hw : w < 64) (hx : x < 64) :
    v <<< 18 ||| w <<< 12 ||| x <<< 6 = v * 2 ^ 18 + w * 2 ^ 12 + x * 2 ^ 6 := by
  have h := shiftLeft_or_eq_add (n := x <<< 6) (k := 12) (v * 2 ^ 6 + w) (by
    omega)
  rw [join₂ v w hw, ← Nat.shiftLeft_eq x 6]
  rw [Nat.shiftLeft_eq] at h
  rw [show v * 2 ^ 18 + w * 2 ^ 12 = (v * 2 ^ 6 + w) * 2 ^ 12 by omega]
  exact h

/-- Four groups put together. -/
theorem join₄ (v w x y : ℕ) (hw : w < 64) (hx : x < 64) (hy : y < 64) :
    v <<< 18 ||| w <<< 12 ||| x <<< 6 ||| y = v * 2 ^ 18 + w * 2 ^ 12 + x * 2 ^ 6 + y := by
  have h := shiftLeft_or_eq_add (k := 6) (v * 2 ^ 12 + w * 2 ^ 6 + x) (by omega)
  rw [Nat.shiftLeft_eq] at h
  rw [join₃ v w x hw hx,
    show v * 2 ^ 18 + w * 2 ^ 12 + x * 2 ^ 6 = (v * 2 ^ 12 + w * 2 ^ 6 + x) * 2 ^ 6 by omega]
  exact h

theorem byte₁_of_sextets (ha : a < 256) (hb : b < 256) :
    (sextet₁ a <<< 18 ||| sextet₂ a b <<< 12) >>> 16 &&& 0xFF = a := by
  rw [join₂ _ _ (sextet₂_lt a b), and_255, sextet₁_eq, sextet₂_eq a hb]
  omega

theorem byte₂_of_sextets (a : ℕ) (hb : b < 256) (hc : c < 256) :
    (sextet₁ a <<< 18 ||| sextet₂ a b <<< 12 ||| sextet₃ b c <<< 6) >>> 8 &&& 0xFF = b := by
  rw [join₃ _ _ _ (sextet₂_lt a b) (sextet₃_lt b c), and_255, sextet₂_eq a hb, sextet₃_eq b hc]
  omega

theorem byte₃_of_sextets (a : ℕ) (hb : b < 256) (hc : c < 256) :
    (sextet₁ a <<< 18 ||| sextet₂ a b <<< 12 ||| sextet₃ b c <<< 6 ||| sextet₄ c) &&& 0xFF = c := by
  rw [join₄ _ _ _ _ (sextet₂_lt a b) (sextet₃_lt b c) (sextet₄_lt c), and_255,
    sextet₂_eq a hb, sextet₃_eq b hc, sextet₄_eq]
  omega

end Pruner.Lib
