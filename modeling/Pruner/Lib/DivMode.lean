import Mathlib.Algebra.Order.Ring.Int
import Mathlib.Data.Int.DivMod
import Mathlib.Tactic.Ring

/-!
# Truncated and floor division

Both ways to divide integers, with the remainder that belongs to each, under one name.
Most laws hold for both; for truncated division they follow from the case of a dividend
that is not negative, since the sign of the dividend can be taken out.

## Main definitions

* `DivMode`, `DivMode.div`, `DivMode.mod` — the two modes.
* `DivMode.div_div`, `mod_div` — a quotient is divided again.
* `DivMode.div_mul_add_div_mod` — two parts of a quotient make up the quotient.
-/

namespace Pruner.Lib

open Int

variable {a c s : ℤ}

/-- Rounding towards zero, or towards minus infinity. -/
inductive DivMode where
  | truncDiv
  | floorDiv
  deriving DecidableEq, Repr, Inhabited

variable (m : DivMode)

namespace DivMode

/-- The quotient. -/
def div : DivMode → ℤ → ℤ → ℤ
  | truncDiv => tdiv
  | floorDiv => fdiv

/-- The remainder. -/
def mod : DivMode → ℤ → ℤ → ℤ
  | truncDiv => tmod
  | floorDiv => fmod

@[simp] theorem div_one (a : ℤ) : m.div a 1 = a := by
  cases m <;> simp [div]

@[simp] theorem mod_one (a : ℤ) : m.mod a 1 = 0 := by
  cases m <;> simp [mod]

theorem mul_div_of_dvd (a : ℤ) (hc : c ≠ 0) (h : c ∣ s) : m.div (a * s) c = a * s.tdiv c := by
  obtain ⟨k, rfl⟩ := h
  rw [mul_tdiv_cancel_left k hc, mul_left_comm]
  cases m with
  | truncDiv => exact mul_tdiv_cancel_left _ hc
  | floorDiv => exact mul_fdiv_cancel_left _ hc

theorem mul_mod_of_dvd (a : ℤ) (h : c ∣ s) : m.mod (a * s) c = 0 := by
  obtain ⟨k, rfl⟩ := h
  rw [mul_left_comm, mul_comm]
  cases m with
  | truncDiv => exact mul_tmod_left _ _
  | floorDiv => exact mul_fmod_left _ _

theorem mul_div_mul_of_pos (a c : ℤ) (hs : 0 < s) : m.div (a * s) (c * s) = m.div a c := by
  rw [mul_comm a, mul_comm c]
  cases m with
  | truncDiv => exact mul_tdiv_mul_of_pos _ _ hs
  | floorDiv => exact mul_fdiv_mul_of_pos _ _ hs

theorem mod_def (a c : ℤ) : m.mod a c = a - c * m.div a c := by
  cases m with
  | truncDiv => exact tmod_def a c
  | floorDiv => exact fmod_def a c

theorem neg_div_neg (a c : ℤ) : m.div (-a) (-c) = m.div a c := by
  cases m with
  | truncDiv => simp [div, Int.neg_tdiv, Int.tdiv_neg]
  | floorDiv => exact Int.neg_fdiv_neg a c

/-- A common factor is cancelled. -/
theorem mul_div_mul (a c : ℤ) (hs : s ≠ 0) : m.div (a * s) (c * s) = m.div a c := by
  rcases lt_or_gt_of_ne hs with hneg | hpos
  · rw [← neg_div_neg, ← mul_neg, ← mul_neg]
    exact mul_div_mul_of_pos m a c (neg_pos.mpr hneg)
  · exact mul_div_mul_of_pos m a c hpos

theorem mul_mod_mul (a c : ℤ) (hs : s ≠ 0) : m.mod (a * s) (c * s) = m.mod a c * s := by
  rw [mod_def, mod_def, mul_div_mul m a c hs]
  ring

/-! ## Dividing by positive numbers -/

variable {l u : ℤ}

/-- For truncated division it is enough to look at dividends that are not negative, when
both sides change sign with the dividend. -/
theorem trunc_wlog {f g : ℤ → ℤ} (hf : ∀ a, f (-a) = -f a) (hg : ∀ a, g (-a) = -g a)
    (h : ∀ a, 0 ≤ a → f a = g a) (a : ℤ) : f a = g a := by
  rcases le_total 0 a with ha | ha
  · exact h a ha
  · have := h (-a) (by omega)
    rw [hf, hg] at this
    omega

/-- A quotient is divided again. -/
theorem div_div (a : ℤ) (hl : 0 < l) (hc : 0 < c) : m.div (m.div a l) c = m.div a (l * c) := by
  cases m with
  | truncDiv =>
    refine trunc_wlog (f := fun a => (a.tdiv l).tdiv c) (g := fun a => a.tdiv (l * c))
      (by simp [Int.neg_tdiv]) (by simp [Int.neg_tdiv]) (fun a ha => ?_) a
    rw [tdiv_eq_ediv_of_nonneg ha, tdiv_eq_ediv_of_nonneg ha,
      tdiv_eq_ediv_of_nonneg (ediv_nonneg ha hl.le), ediv_ediv_of_nonneg hl.le]
  | floorDiv => exact fdiv_fdiv_eq_fdiv_mul a hl.le hc.le

/-- A remainder is below a larger divisor. -/
theorem div_mod_eq_zero (a : ℤ) (hu : 0 < u) (h : u ≤ c) : m.div (m.mod a u) c = 0 := by
  cases m with
  | truncDiv =>
    refine trunc_wlog (f := fun a => (a.tmod u).tdiv c) (g := fun _ => 0)
      (by simp [Int.neg_tdiv, neg_tmod]) (by simp) (fun a ha => ?_) a
    exact tdiv_eq_zero_of_lt (tmod_nonneg _ ha)
      ((tmod_lt_of_pos a hu).trans_le h)
  | floorDiv =>
    exact fdiv_eq_zero_of_lt (fmod_nonneg_of_pos a hu)
      ((fmod_lt_of_pos a hu).trans_le h)

theorem mod_mod_of_le (a : ℤ) (hu : 0 < u) (h : u ≤ c) : m.mod (m.mod a u) c = m.mod a u := by
  rw [mod_def, div_mod_eq_zero m a hu h, mul_zero, sub_zero]

theorem div_eq_zero_of_lt (h0 : 0 ≤ a) (h : a < c) : m.div a c = 0 := by
  cases m with
  | truncDiv => exact tdiv_eq_zero_of_lt h0 h
  | floorDiv => exact fdiv_eq_zero_of_lt h0 h

theorem mod_eq_of_lt (h0 : 0 ≤ a) (h : a < c) : m.mod a c = a := by
  rw [mod_def, div_eq_zero_of_lt m h0 h, mul_zero, sub_zero]

theorem div_nonneg (h0 : 0 ≤ a) (hc : 0 < c) : 0 ≤ m.div a c := by
  cases m with
  | truncDiv => exact Int.tdiv_nonneg h0 hc.le
  | floorDiv => exact fdiv_nonneg h0 hc.le

theorem mod_nonneg (h0 : 0 ≤ a) (hc : 0 < c) : 0 ≤ m.mod a c := by
  cases m with
  | truncDiv => exact tmod_nonneg _ h0
  | floorDiv => exact fmod_nonneg_of_pos a hc

theorem dvd_mod_sub (a c : ℤ) : c ∣ m.mod a c - a := by
  refine ⟨-m.div a c, ?_⟩
  rw [mod_def]
  ring

theorem mod_mod_of_dvd (a : ℤ) {u : ℤ} (h : c ∣ u) : m.mod (m.mod a u) c = m.mod a c := by
  cases m with
  | truncDiv => exact tmod_tmod_of_dvd a h
  | floorDiv => exact fmod_fmod_of_dvd a h

/-- Two parts of a quotient make up the quotient. -/
theorem div_mul_add_div_mod (a : ℤ) {k l : ℤ} (hk : k ≠ 0) (hl : l ≠ 0) :
    m.div a (k * l) * k + m.div (m.mod a (k * l)) l = m.div a l := by
  have hfloor : ∀ a k l : ℤ, l ≠ 0 →
      a.fdiv (k * l) * k + (a.fmod (k * l)).fdiv l = a.fdiv l := by
    intro a k l hl
    have hsplit : a = a.fmod (k * l) + a.fdiv (k * l) * k * l := by
      conv_lhs => rw [← fmod_add_mul_fdiv a (k * l)]
      ring
    conv_rhs => rw [hsplit, add_mul_fdiv_right _ _ hl]
    ring
  cases m with
  | truncDiv =>
    -- The signs of `k`, `l` and `a` are taken out one by one.
    have hpos : ∀ k l a : ℤ, 0 < k → 0 < l → 0 ≤ a →
        a.tdiv (k * l) * k + (a.tmod (k * l)).tdiv l = a.tdiv l := by
      intro k l a hk hl ha
      have hkl := (mul_pos hk hl).le
      rw [← fdiv_eq_tdiv_of_nonneg ha hkl, ← fdiv_eq_tdiv_of_nonneg ha hl.le,
        ← fmod_eq_tmod_of_nonneg ha hkl,
        ← fdiv_eq_tdiv_of_nonneg (fmod_nonneg_of_pos a (mul_pos hk hl)) hl.le]
      exact hfloor a k l hl.ne'
    have ha : ∀ k l : ℤ, 0 < k → 0 < l →
        a.tdiv (k * l) * k + (a.tmod (k * l)).tdiv l = a.tdiv l := fun k l hk hl =>
      trunc_wlog (f := fun a => a.tdiv (k * l) * k + (a.tmod (k * l)).tdiv l)
        (fun a => by simp only [Int.neg_tdiv, neg_tmod]; ring)
        (by simp [Int.neg_tdiv]) (fun a => hpos k l a hk hl) a
    have hk' : ∀ l : ℤ, 0 < l → a.tdiv (k * l) * k + (a.tmod (k * l)).tdiv l = a.tdiv l := by
      intro l hl
      rcases lt_or_gt_of_ne hk with hneg | hpos
      · have := ha (-k) l (neg_pos.mpr hneg) hl
        simpa [neg_mul, Int.tdiv_neg, tmod_neg] using this
      · exact ha k l hpos hl
    rcases lt_or_gt_of_ne hl with hneg | hpos
    · have := hk' (-l) (neg_pos.mpr hneg)
      simp only [mul_neg, Int.tdiv_neg, tmod_neg, neg_mul] at this
      simp only [div, mod]
      omega
    · exact hk' l hpos
  | floorDiv => exact hfloor a k l hl

/-- The remainder of a quotient. -/
theorem mod_div (a : ℤ) {l : ℤ} (hl : 0 < l) (hc : 0 < c) :
    m.mod (m.div a l) c = m.div (m.mod a (l * c)) l := by
  have h := m.div_mul_add_div_mod a hc.ne' hl.ne'
  rw [mod_def, div_div m a hl hc, ← h]
  ring_nf

/-! ## Dividing sums -/

variable {x y : ℤ}

theorem floor_add_mod (h : c ∣ x) : (x + y).fmod c = y.fmod c := by
  obtain ⟨k, rfl⟩ := h
  rw [add_comm, add_mul_fmod_self_left]

/-- One term of a sum is reduced first. -/
theorem floor_sub_add_mod (a b c : ℤ) : (a - b + b.fmod c).fmod c = a.fmod c := by
  rw [show a - b + b.fmod c = (b.fmod c - b) + a by ring]
  exact floor_add_mod (dvd_mod_sub .floorDiv b c)

theorem trunc_add_div (hx : 0 ≤ x) (hy : 0 ≤ y) (h : c ∣ x) :
    (x + y).tdiv c = x.tdiv c + y.tdiv c := by
  rw [tdiv_eq_ediv_of_nonneg (add_nonneg hx hy), tdiv_eq_ediv_of_nonneg hx,
    tdiv_eq_ediv_of_nonneg hy, add_ediv_of_dvd_left h]

/-- Dividends that are not negative and differ by a multiple have the same remainder. -/
theorem trunc_mod_congr (hx : 0 ≤ x) (hy : 0 ≤ y) (h : c ∣ x - y) : x.tmod c = y.tmod c := by
  rw [tmod_eq_emod_of_nonneg hx, tmod_eq_emod_of_nonneg hy]
  exact emod_eq_emod_iff_emod_sub_eq_zero.mpr (emod_eq_zero_of_dvd h)

end DivMode

end Pruner.Lib
