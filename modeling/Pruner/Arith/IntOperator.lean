import Mathlib.Data.Int.GCD
import Pruner.Lib.Int64

/-!
# Greatest common divisors

`ExtendedEuclidean` and `ZeroAwareGCD` (`int_operator.h`).  The first keeps one coefficient
only, that of the absolute value of `a`, and computes the other with one division.  The operands
are of type `int64_t`: the coefficients that the loop keeps never leave its range, but the product
with which the other one is computed can.

## Main definitions

* `EuclidState.loop` — the loop of `ExtendedEuclidean`.
* `EuclidState.Bounded` — why nothing wraps around in the loop.
* `extendedEuclidean`, `zeroAwareGCD` — the two functions.
-/

namespace Pruner.Arith

open Lib

theorem natAbs_tmod_lt (a : ℤ) {b : ℤ} (hb : b ≠ 0) : (a.tmod b).natAbs < b.natAbs := by
  rw [Int.natAbs_tmod]
  exact Nat.mod_lt _ (Int.natAbs_pos.mpr hb)

/-- The variables of the loop of `ExtendedEuclidean`. -/
structure EuclidState where
  oldR : ℤ
  r : ℤ
  oldS : ℤ
  s : ℤ

namespace EuclidState

variable {e : EuclidState} {a b : ℤ}

/-- One round of the loop. -/
def step (e : EuclidState) : EuclidState :=
  let q := int64 (e.oldR.tdiv e.r)
  ⟨e.r, int64 (e.oldR - int64 (q * e.r)), e.s, int64 (e.oldS - int64 (q * e.s))⟩

theorem step_r (e : EuclidState) : e.step.r = int64 (e.oldR.tmod e.r) := by
  rw [Int.tmod_def, mul_comm]
  exact int64_sub_mul e.r

/-- `while (r != 0)`. -/
def loop (e : EuclidState) : EuclidState :=
  if e.r = 0 then e else e.step.loop
termination_by e.r.natAbs
decreasing_by
  rw [step_r]
  exact (natAbs_int64_le _).trans_lt (natAbs_tmod_lt _ ‹_›)

/-- The remainders are operands, and the coefficients are at most `|b|`: a coefficient times the
other remainder is. -/
structure Bounded (b : ℤ) (e : EuclidState) : Prop where
  oldR : e.oldR.natAbs < 2 ^ 63
  r : e.r.natAbs ≤ b.natAbs
  oldS : e.oldS.natAbs ≤ b.natAbs
  s : e.s.natAbs ≤ b.natAbs
  cross : e.s.natAbs * e.oldR.natAbs + e.oldS.natAbs * e.r.natAbs ≤ b.natAbs

/-- The next coefficient, times the remainder. -/
theorem Bounded.next (h : e.Bounded b) :
    (e.oldS - e.oldR.tdiv e.r * e.s).natAbs * e.r.natAbs + e.s.natAbs * (e.oldR.tmod e.r).natAbs ≤
      b.natAbs := by
  have htri : (e.oldS - e.oldR.tdiv e.r * e.s).natAbs ≤
      e.oldS.natAbs + e.oldR.natAbs / e.r.natAbs * e.s.natAbs := by
    refine (Int.natAbs_sub_le _ _).trans_eq ?_
    rw [Int.natAbs_mul, Int.natAbs_tdiv]
    rfl
  calc _ ≤ (e.oldS.natAbs + e.oldR.natAbs / e.r.natAbs * e.s.natAbs) * e.r.natAbs +
        e.s.natAbs * (e.oldR.natAbs % e.r.natAbs) := by
        rw [Int.natAbs_tmod]
        gcongr
    _ = e.s.natAbs * (e.r.natAbs * (e.oldR.natAbs / e.r.natAbs) + e.oldR.natAbs % e.r.natAbs) +
        e.oldS.natAbs * e.r.natAbs := by ring
    _ ≤ b.natAbs := by
      rw [Nat.div_add_mod]
      exact h.cross

/-- **Nothing wraps around in a round.** -/
theorem Bounded.step_eq (h : e.Bounded b) (hb : b.natAbs < 2 ^ 63) (hr : e.r ≠ 0) :
    e.step = ⟨e.r, e.oldR.tmod e.r, e.s, e.oldS - e.oldR.tdiv e.r * e.s⟩ := by
  have hmod := natAbs_tmod_lt e.oldR hr
  have hpos := Int.natAbs_pos.mpr hr
  have hnext := (Nat.le_mul_of_pos_right _ hpos).trans ((Nat.le_add_right _ _).trans h.next)
  rw [← int64_eq_self (n := e.oldR.tmod e.r) (by have := h.r; omega), ← step_r,
    ← int64_eq_self (n := e.oldS - _) (by omega), ← int64_sub_mul]
  rfl

theorem Bounded.step (h : e.Bounded b) (hb : b.natAbs < 2 ^ 63) (hr : e.r ≠ 0) :
    e.step.Bounded b := by
  have hmod := natAbs_tmod_lt e.oldR hr
  have hpos := Int.natAbs_pos.mpr hr
  rw [h.step_eq hb hr]
  exact ⟨h.r.trans_lt hb, hmod.le.trans h.r, h.s,
    (Nat.le_mul_of_pos_right _ hpos).trans ((Nat.le_add_right _ _).trans h.next), h.next⟩

/-- **The loop keeps the divisor, and that `b` divides what the coefficients leave over.** -/
theorem Bounded.loop_spec (h : e.Bounded b) (hb : b.natAbs < 2 ^ 63)
    (hold : b ∣ e.oldR - e.oldS * a) (hr : b ∣ e.r - e.s * a) :
    e.loop.oldR.natAbs = Int.gcd e.oldR e.r ∧ b ∣ e.loop.oldR - e.loop.oldS * a ∧
      e.loop.oldS.natAbs ≤ b.natAbs := by
  fun_induction loop e with
  | case1 e hzero => exact ⟨by rw [hzero, Int.gcd_zero_right], hold, h.oldS⟩
  | case2 e hne ih =>
    have ih := ih (h.step hb hne)
    rw [h.step_eq hb hne] at ih ⊢
    have hgcd : Int.gcd e.r (e.oldR.tmod e.r) = Int.gcd e.oldR e.r := by
      rw [Int.tmod_def, mul_comm, Int.gcd_comm e.oldR]
      exact Int.gcd_sub_mul_right_right _ _ _
    rw [← hgcd]
    refine ih hr ?_
    have hstep : e.oldR.tmod e.r - (e.oldS - e.oldR.tdiv e.r * e.s) * a =
        e.oldR - e.oldS * a - e.oldR.tdiv e.r * (e.r - e.s * a) := by
      rw [Int.tmod_def]
      ring
    rw [hstep]
    exact Int.dvd_sub hold (hr.mul_left _)

end EuclidState

/-- `ExtendedEuclidean`: the result, and the coefficients `*x` and `*y`. -/
def extendedEuclidean (a b : ℤ) : ℤ × ℤ × ℤ :=
  let e := EuclidState.loop ⟨if a ≥ 0 then a else int64 (-a), b, 1, 0⟩
  let x := if a ≥ 0 then e.oldS else int64 (-e.oldS)
  (e.oldR, x, if b ≠ 0 then int64 ((int64 (e.oldR - int64 (x * a))).tdiv b) else 1)

/-- `while (a % b != 0)`. -/
def gcdLoop (a b : ℤ) (_hb : b ≠ 0) : ℤ :=
  if h : a.tmod b = 0 then b else gcdLoop b (a.tmod b) h
termination_by b.natAbs
decreasing_by exact natAbs_tmod_lt a _hb

def zeroAwareGCD (a b : ℤ) : ℤ :=
  let a := if a < 0 then int64 (-a) else a
  let b := if b < 0 then int64 (-b) else b
  let (a, b) := if a < b then (b, a) else (a, b)
  if h : b = 0 then a else gcdLoop a b h

theorem gcdLoop_eq {a b : ℤ} (hb : b ≠ 0) (ha : 0 ≤ a) (hpos : 0 < b) :
    gcdLoop a b hb = Int.gcd a b := by
  fun_induction gcdLoop a b hb with
  | case1 a b hb h =>
    rw [Int.gcd_eq_right hpos.le (Int.dvd_of_tmod_eq_zero h)]
  | case2 a b hb h ih =>
    have hmod := (Int.tmod_nonneg b ha).lt_of_ne' h
    rw [ih hpos.le hmod, Int.tmod_eq_emod_of_nonneg ha, Int.gcd_comm, Int.gcd_emod]

theorem zeroAwareGCD_eq {a b : ℤ} (ha : a.natAbs < 2 ^ 63) (hb : b.natAbs < 2 ^ 63) :
    zeroAwareGCD a b = Int.gcd a b := by
  have habs : ∀ c : ℤ, c.natAbs < 2 ^ 63 → (if c < 0 then int64 (-c) else c) = c.natAbs := by
    intro c hc
    rw [int64_eq_self (by rwa [Int.natAbs_neg])]
    split <;> omega
  rw [zeroAwareGCD, habs a ha, habs b hb]
  -- The larger of the two absolute values comes first.
  split
  next a' b' hsorted =>
    have hgcd : Int.gcd a' b' = Int.gcd a b ∧ 0 ≤ a' ∧ 0 ≤ b' := by
      split at hsorted <;> obtain ⟨rfl, rfl⟩ := Prod.mk.inj hsorted
      · exact ⟨Int.gcd_comm _ _, by simp⟩
      · exact ⟨rfl, by simp⟩
    rw [← hgcd.1]
    split
    · next h => rw [h, Int.gcd_zero_right, Int.natAbs_of_nonneg hgcd.2.1]
    · next h => exact gcdLoop_eq h hgcd.2.1 (hgcd.2.2.lt_of_ne' h)

/-- **What the loop hands over**, from operands that are no least value of their type. -/
theorem loop_start {a b : ℤ} (ha : a.natAbs < 2 ^ 63) (hb : b.natAbs < 2 ^ 63) {e : EuclidState}
    (he : EuclidState.loop ⟨if a ≥ 0 then a else int64 (-a), b, 1, 0⟩ = e) {x : ℤ}
    (hx : (if a ≥ 0 then e.oldS else int64 (-e.oldS)) = x) :
    e.oldR.natAbs = Int.gcd a b ∧ b ∣ e.oldR - x * a ∧ (b ≠ 0 → x.natAbs ≤ b.natAbs) := by
  have hneg : int64 (-a) = -a := int64_eq_self (by rwa [Int.natAbs_neg])
  have habs : (if a ≥ 0 then a else int64 (-a)) = a.natAbs := by
    rw [hneg]
    split <;> omega
  rw [habs] at he
  by_cases hzero : b = 0
  · subst hzero
    rw [EuclidState.loop, if_pos rfl] at he
    subst he hx
    refine ⟨by rw [Int.natAbs_natCast, Int.gcd_zero_right], Int.zero_dvd.mpr ?_, absurd rfl⟩
    dsimp only
    rw [int64_eq_self (by decide)]
    split <;> omega
  · have hpos := Int.natAbs_pos.mpr hzero
    have hstart : EuclidState.Bounded b ⟨a.natAbs, b, 1, 0⟩ :=
      ⟨ha, le_rfl, hpos, Nat.zero_le _, by simp⟩
    obtain ⟨hgcd, hdvd, hle⟩ := hstart.loop_spec (a := a.natAbs) hb (by simp) (by simp)
    rw [he] at hgcd hdvd hle
    rw [int64_eq_self (by rw [Int.natAbs_neg]; omega)] at hx
    refine ⟨hgcd, ?_, fun _ => ?_⟩
    · have hprod : x * a = e.oldS * a.natAbs := by
        rw [← hx]
        split
        · rw [Int.natAbs_of_nonneg ‹_›]
        · rw [Int.ofNat_natAbs_of_nonpos (by omega), Int.neg_mul_comm]
      rwa [hprod]
    · rw [← hx]
      split
      · exact hle
      · rwa [Int.natAbs_neg]

end Pruner.Arith
