import Pruner.Arith.CanonicalSum
import Pruner.Lib.Int64

/-!
# Sums of splits on 64 bits

Scales, factors and the base of a `SumExpr` are of type `int64_t`.  As long as they stay in its
range, a sum is what the calls of `AddToSelf` and `MulToSelf` have put into it.  The test by which
`SimplifySplitExprs` merges two splits multiplies the quotient of their scales by a lower factor.
The product can wrap around for scales and factors that are in range, and then splits are merged
that do not make up one.

## Main definitions

* `SumExpr.Built` — sums and the weighted sums that they stand for.
* `SumExpr.Small` — the sums for which no such product wraps around.
* `mergeSplits_int64` — the splits of such a sum are merged as over unbounded integers.
-/

namespace Pruner.Arith.SumExpr

open SplitExpr List Lib

/-- The base and the scales are in the range of `int64_t`. -/
def Fits (e : SumExpr) : Prop :=
  e.base.natAbs < 2 ^ 63 ∧ ∀ arg ∈ e.args, arg.scale.natAbs < 2 ^ 63

instance (e : SumExpr) : Decidable e.Fits := inferInstanceAs (Decidable (_ ∧ _))

/-- The sums that calls of `AddToSelf` and `MulToSelf` make without leaving the range of
`int64_t`, each with the weighted sum of the splits and constants that it was given. -/
inductive Built : ((String → ℤ) → ℤ) → SumExpr → Prop where
  | start : Built (fun _ => 0) ⟨[], 0⟩
  | addSplit {x a s} (ha : Built x a) (hlower : 0 < s.lowerFactor)
      (hupper : ∀ u, s.upperFactor = some u → 0 < u ∧ s.lowerFactor ∣ u) (scale : ℤ)
      (hfits : (a.addSplit s scale).Fits) :
      Built (fun ρ => x ρ + s.eval ρ * scale) (a.addSplit s scale)
  | addConst {x a} (ha : Built x a) (value : ℤ) (hfits : (a.addConst value).Fits) :
      Built (fun ρ => x ρ + value) (a.addConst value)
  | addSum {x a y b} (ha : Built x a) (hb : Built y b) (scale : ℤ)
      (hfits : (a.addSum b scale).Fits) : Built (fun ρ => x ρ + y ρ * scale) (a.addSum b scale)
  | mulToSelf {x a} (ha : Built x a) (scale : ℤ) (hfits : (a.mulToSelf scale).Fits) :
      Built (fun ρ => x ρ * scale) (a.mulToSelf scale)

variable {e : SumExpr} {v : (String → ℤ) → ℤ} {n : ℕ} {args : List SplitExpr} {lhs rhs : SplitExpr}

theorem Built.has (h : Built v e) : ∃ n, Has .anything n v e := by
  induction h with
  | start => exact ⟨0, by simp, nofun, le_rfl, fun ρ => rfl⟩
  | addSplit _ hlower hupper _ _ ih =>
    obtain ⟨n, hn⟩ := ih
    exact ⟨_, hn.addSplit ⟨trivial, hlower.ne', fun u hu => (hupper u hu).imp_left LT.lt.ne',
      fun _ => nofun, fun _ _ => nofun, nofun⟩ nofun⟩
  | addConst _ _ _ ih =>
    obtain ⟨n, hn⟩ := ih
    exact ⟨n, hn.addConst nofun⟩
  | addSum _ _ _ _ ih ih' =>
    obtain ⟨n, hn⟩ := ih
    obtain ⟨k, hk⟩ := ih'
    exact ⟨_, hn.addSum hk nofun⟩
  | mulToSelf _ _ _ ih =>
    obtain ⟨n, hn⟩ := ih
    exact ⟨n, hn.mulToSelf nofun⟩

/-! ## Merging splits -/

/-- The sum of the absolute values of the scales. -/
def scaleSum (args : List SplitExpr) : ℕ := (args.map (·.scale.natAbs)).sum

@[simp] theorem scaleSum_cons (arg : SplitExpr) (args : List SplitExpr) :
    scaleSum (arg :: args) = arg.scale.natAbs + scaleSum args := by
  simp [scaleSum]

/-- Any scale up to `n` can be multiplied by the lower factor. -/
def Room (n : ℕ) (arg : SplitExpr) : Prop :=
  arg.lowerFactor ≠ 0 ∧ n * arg.lowerFactor.natAbs < 2 ^ 63

instance (n : ℕ) (arg : SplitExpr) : Decidable (Room n arg) := inferInstanceAs (Decidable (_ ∧ _))

/-- The scales, added up, can be multiplied by every lower factor. -/
def Small (e : SumExpr) : Prop := ∀ arg ∈ e.args, Room (scaleSum e.args) arg

instance (e : SumExpr) : Decidable e.Small := inferInstanceAs (Decidable (∀ arg ∈ e.args, _))

theorem Room.lt (h : Room n rhs) : n < 2 ^ 63 :=
  (Nat.le_mul_of_pos_right _ (Int.natAbs_pos.mpr h.1)).trans_lt h.2

theorem mergeable_int64 (h : Room n rhs) (hl : lhs.scale.natAbs ≤ n) :
    mergeable int64 lhs rhs = mergeable id lhs rhs := by
  have hprod : (lhs.scale.tdiv rhs.scale * rhs.lowerFactor).natAbs < 2 ^ 63 := by
    rw [Int.natAbs_mul, Int.natAbs_tdiv]
    exact (Nat.mul_le_mul_right _ ((Nat.div_le_self _ _).trans hl)).trans_lt h.2
  simp only [mergeable, int64_eq_self hprod, id]

/-- **One split is merged as over unbounded integers**, and the scales do not grow. -/
theorem mergeSplit_int64 (hsum : lhs.scale.natAbs + scaleSum args ≤ n)
    (hargs : ∀ arg ∈ args, Room n arg) :
    mergeSplit int64 lhs args = mergeSplit id lhs args ∧
      (mergeSplit id lhs args).1.scale.natAbs + scaleSum (mergeSplit id lhs args).2 ≤
        lhs.scale.natAbs + scaleSum args ∧ ∀ arg ∈ (mergeSplit id lhs args).2, Room n arg := by
  induction args generalizing lhs with
  | nil => exact ⟨rfl, le_rfl, hargs⟩
  | cons rhs args ih =>
    obtain ⟨hr, hrest⟩ := forall_mem_cons.mp hargs
    rw [scaleSum_cons] at hsum
    have hle : (rhs.scale + lhs.scale).natAbs ≤ rhs.scale.natAbs + lhs.scale.natAbs :=
      Int.natAbs_add_le _ _
    have hmerge : mergeable int64 lhs rhs = mergeable id lhs rhs := mergeable_int64 hr (by omega)
    have hadd : int64 (rhs.scale + lhs.scale) = rhs.scale + lhs.scale :=
      int64_eq_self (by have := hr.lt; omega)
    simp only [mergeSplit, hmerge, hadd, id]
    split_ifs
    · exact ⟨rfl, le_rfl, hargs⟩
    · exact ⟨rfl, le_rfl, hargs⟩
    · obtain ⟨heq, hscale, hroom⟩ := @ih { lhs with scale := 0 } (by simp; omega) hrest
      refine ⟨by rw [heq], ?_, forall_mem_cons.mpr ⟨hr, hroom⟩⟩
      simp only [scaleSum_cons, Int.natAbs_zero] at hscale ⊢
      omega
    · refine ⟨rfl, ?_, forall_mem_cons.mpr ⟨hr, hrest⟩⟩
      simp
    · obtain ⟨heq, hscale, hroom⟩ := @ih lhs (by omega) hrest
      refine ⟨by rw [heq], ?_, forall_mem_cons.mpr ⟨hr, hroom⟩⟩
      simp only [scaleSum_cons]
      omega

/-- **All splits are.** -/
theorem mergeSplits_int64 (k : ℕ) (hsum : scaleSum args ≤ n) (hargs : ∀ arg ∈ args, Room n arg) :
    mergeSplits int64 k args = mergeSplits id k args := by
  induction k generalizing args with
  | zero => rfl
  | succ k ih =>
    cases args with
    | nil => rfl
    | cons lhs args =>
      have hrest := (forall_mem_cons.mp hargs).2
      rw [scaleSum_cons] at hsum
      rw [mergeSplits, mergeSplits]
      split
      · rw [ih (by omega) hrest]
      · obtain ⟨heq, hscale, hroom⟩ := mergeSplit_int64 hsum hrest
        simp only [heq]
        rw [ih (by omega) hroom]

end Pruner.Arith.SumExpr
