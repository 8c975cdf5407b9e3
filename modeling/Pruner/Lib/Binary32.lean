import Pruner.Lib.Packed

/-!
# Counts as single precision numbers

The conversion of a count to a `float`, rounded to the nearest number and to the even one
between two, and the value of a `float`.  A word has a sign bit, eight bits of exponent and
23 bits of fraction.

## Main definitions

* `Binary32.ofNat`, `Binary32.value` — the conversion, and the value of a word.
* `Binary32.value_ofNat` — a count with at most 24 significant bits is not changed.
-/

namespace Pruner.Lib.Binary32

/-- `n / 2 ^ k`, rounded to the nearest number and to the even one between two. -/
def roundShift (n k : ℕ) : ℕ :=
  let q := n / 2 ^ k
  let r := n % 2 ^ k
  if 2 ^ k < 2 * r ∨ 2 * r = 2 ^ k ∧ q % 2 = 1 then q + 1 else q

/-- The significand of a count with leading bit `e`, of 24 bits (or `2 ^ 24`, if it was
rounded up). -/
def significand (n e : ℕ) : ℕ :=
  if e ≤ 23 then n * 2 ^ (23 - e) else roundShift n (e - 23)

/-- The conversion of a count.  A significand of `2 ^ 24` carries into the exponent, and a
count that is too large is infinite. -/
def ofNat (n : ℕ) : Word :=
  if n = 0 then 0
  else .ofNat 32 (min ((n.log2 + 126) * 2 ^ 23 + significand n n.log2) (255 * 2 ^ 23))

/-- The value of a word, if it is a number. -/
def value (w : Word) : Option ℚ :=
  let s : ℕ := w.toNat / 2 ^ 31
  let e : ℕ := w.toNat / 2 ^ 23 % 2 ^ 8
  let f : ℕ := w.toNat % 2 ^ 23
  if e = 255 then none
  else
    some ((-1) ^ s *
      if e = 0 then f * (2 : ℚ) ^ (-149 : ℤ)
      else ((2 ^ 23 + f : ℕ) : ℚ) * 2 ^ ((e : ℤ) - 150))

theorem roundShift_mul (q k : ℕ) : roundShift (q * 2 ^ k) k = q := by
  have hpos : 0 < 2 ^ k := Nat.two_pow_pos k
  rw [roundShift, Nat.mul_mod_left, Nat.mul_div_cancel q hpos, if_neg (by omega)]

variable {n m k : ℕ}

/-- A count with at most 24 significant bits keeps them. -/
theorem significand_mul (hn : n = m * 2 ^ k) (hm : m < 2 ^ 24) (hpos : n ≠ 0) :
    significand n n.log2 * 2 ^ n.log2 = n * 2 ^ 23 := by
  unfold significand
  split_ifs with he
  · rw [mul_assoc, ← pow_add, Nat.sub_add_cancel he]
  · have hlog : 2 ^ n.log2 < 2 ^ (24 + k) := by
      calc 2 ^ n.log2 ≤ n := Nat.log2_self_le hpos
        _ = m * 2 ^ k := hn
        _ < 2 ^ 24 * 2 ^ k := mul_lt_mul_of_pos_right hm (Nat.two_pow_pos k)
        _ = 2 ^ (24 + k) := (pow_add 2 24 k).symm
    have hlt : n.log2 < 24 + k := (Nat.pow_lt_pow_iff_right (by decide)).mp hlog
    -- So the bits that are shifted out are zero.
    obtain ⟨q, hq⟩ : 2 ^ (n.log2 - 23) ∣ n :=
      (pow_dvd_pow 2 (by omega)).trans ⟨m, hn.trans (mul_comm m _)⟩
    have hshift := roundShift_mul q (n.log2 - 23)
    rw [mul_comm, ← hq] at hshift
    calc roundShift n (n.log2 - 23) * 2 ^ n.log2 = q * 2 ^ (n.log2 - 23 + 23) := by
          rw [hshift, Nat.sub_add_cancel (by omega)]
      _ = 2 ^ (n.log2 - 23) * q * 2 ^ 23 := by ring
      _ = n * 2 ^ 23 := by rw [← hq]

/-- The value of a word with a given exponent and significand. -/
theorem value_ofNat_parts {e sig : ℕ} (he : e ≤ 127) (hle : 2 ^ 23 ≤ sig) (hlt : sig < 2 ^ 24) :
    value (.ofNat 32 ((e + 126) * 2 ^ 23 + sig)) = some (sig * (2 : ℚ) ^ ((e : ℤ) - 23)) := by
  have hnat : (BitVec.ofNat 32 ((e + 126) * 2 ^ 23 + sig)).toNat =
      (e + 127) * 2 ^ 23 + (sig - 2 ^ 23) := by
    rw [BitVec.toNat_ofNat]
    omega
  have hs : ((e + 127) * 2 ^ 23 + (sig - 2 ^ 23)) / 2 ^ 31 = 0 := by omega
  have hexp : ((e + 127) * 2 ^ 23 + (sig - 2 ^ 23)) / 2 ^ 23 % 2 ^ 8 = e + 127 := by omega
  have hfrac : ((e + 127) * 2 ^ 23 + (sig - 2 ^ 23)) % 2 ^ 23 = sig - 2 ^ 23 := by omega
  simp only [value, hnat, hs, hexp, hfrac]
  rw [if_neg (by omega), if_neg (by omega), pow_zero, one_mul, Nat.add_sub_cancel' hle]
  have hsub : ((e + 127 : ℕ) : ℤ) - 150 = (e : ℤ) - 23 := by omega
  rw [hsub]

/-- **Exact counts.**  A count with at most 24 significant bits is the value of its
conversion. -/
theorem value_ofNat (hn : n = m * 2 ^ k) (hm : m < 2 ^ 24) (hlt : n < 2 ^ 128) :
    value (ofNat n) = some n := by
  by_cases hzero : n = 0
  · subst hzero
    decide +kernel
  · have hsig := significand_mul hn hm hzero
    have hlow := Nat.log2_self_le hzero
    have hhigh := Nat.lt_log2_self (n := n)
    have he : n.log2 ≤ 127 := by
      have := (Nat.log2_lt hzero).mpr hlt
      omega
    have hpow := Nat.two_pow_pos n.log2
    -- The leading bit of the count is the leading bit of its significand.
    have hle : 2 ^ 23 ≤ significand n n.log2 := by
      refine le_of_mul_le_mul_right ?_ hpow
      rw [hsig, mul_comm]
      exact Nat.mul_le_mul_right _ hlow
    have hlt24 : significand n n.log2 < 2 ^ 24 := by
      refine Nat.lt_of_mul_lt_mul_right (a := 2 ^ n.log2) ?_
      rw [hsig]
      calc n * 2 ^ 23 < 2 ^ (n.log2 + 1) * 2 ^ 23 := mul_lt_mul_of_pos_right hhigh (by decide)
        _ = 2 ^ 24 * 2 ^ n.log2 := by rw [pow_succ]; ring
    have hfits : (n.log2 + 126) * 2 ^ 23 + significand n n.log2 ≤ 255 * 2 ^ 23 := by omega
    rw [ofNat, if_neg hzero, min_eq_left hfits, value_ofNat_parts he hle hlt24]
    congr 1
    rw [zpow_sub₀ two_ne_zero, mul_div_assoc', div_eq_iff (by positivity)]
    exact_mod_cast hsig

end Pruner.Lib.Binary32
