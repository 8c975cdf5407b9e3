import Pruner.Arith.CanonicalNormal

/-!
# Sums of splits keep values

Adding to a sum, merging the splits of a sum, dividing a sum by a common factor and turning
a sum back into an expression keep the value and the grade.

## Main definitions

* `Grade.HasArgs`, `SumExpr.Has` — splits and sums of a grade with a given value.
* `SumExpr.normalize_spec` — sums can be turned back into expressions.
* `CanonicalExpr.Has` — normal forms of a grade with a given value.
* `CanonicalExpr.normalize_spec` — normal forms can be turned back into expressions.
-/

namespace Pruner.Arith

open SplitExpr List Int

open Lib (DivMode)

variable {c : ℤ} {k : ℕ} {res : IntExpr}

/-! ## Sums -/

variable (ρ : String → ℤ)

def argsEval (args : List SplitExpr) : ℤ := (args.map (·.eval ρ)).sum

/-- The number of divisions in the splits of a sum. -/
def argsWeight (args : List SplitExpr) : ℕ := (args.map (·.weight)).sum

@[simp] theorem argsEval_nil : argsEval ρ [] = 0 := rfl

@[simp] theorem argsEval_cons (arg : SplitExpr) (args : List SplitExpr) :
    argsEval ρ (arg :: args) = arg.eval ρ + argsEval ρ args := by
  simp [argsEval]

@[simp] theorem argsWeight_nil : argsWeight [] = 0 := rfl

@[simp] theorem argsWeight_cons (arg : SplitExpr) (args : List SplitExpr) :
    argsWeight (arg :: args) = arg.weight + argsWeight args := by
  simp [argsWeight]

/-- Splits of a grade with a given value, and at most `n` divisions. -/
structure Grade.HasArgs (g : Grade) (n : ℕ) (v : (String → ℤ) → ℤ) (args : List SplitExpr) :
    Prop where
  ok : ∀ arg ∈ args, arg.Ok g
  weight_le : argsWeight args ≤ n
  eval_eq : ∀ ρ, argsEval ρ args = v ρ

variable {g : Grade} {n : ℕ} {v w : (String → ℤ) → ℤ} {args : List SplitExpr}
  {arg other lhs rhs : SplitExpr}

theorem hasArgs_self (h : ∀ arg ∈ args, arg.Ok g) :
    g.HasArgs (argsWeight args) (argsEval · args) args :=
  ⟨h, le_rfl, fun _ => rfl⟩

theorem Grade.HasArgs.congr (h : g.HasArgs n v args) (hv : ∀ ρ, v ρ = w ρ) : g.HasArgs n w args :=
  ⟨h.ok, h.weight_le, fun ρ => (h.eval_eq ρ).trans (hv ρ)⟩

theorem Grade.HasArgs.mono (h : g.HasArgs n v args) (hn : n ≤ k) : g.HasArgs k v args :=
  ⟨h.ok, h.weight_le.trans hn, h.eval_eq⟩

theorem Grade.HasArgs.cons (h : g.HasArgs n v args) (harg : arg.Ok g) :
    g.HasArgs (arg.weight + n) (fun ρ => arg.eval ρ + v ρ) (arg :: args) := by
  refine ⟨?_, ?_, fun ρ => ?_⟩
  · exact forall_mem_cons.mpr ⟨harg, h.ok⟩
  · exact Nat.add_le_add_left h.weight_le _
  · rw [argsEval_cons, h.eval_eq]

theorem Grade.HasArgs.insert (h : g.HasArgs n v (other :: args)) (harg : arg.Ok g) :
    g.HasArgs (arg.weight + n) (fun ρ => arg.eval ρ + v ρ) (other :: arg :: args) := by
  have hswap := h.cons harg
  refine ⟨fun a ha => hswap.ok a ?_, ?_, fun ρ => ?_⟩
  · simpa only [mem_cons, or_left_comm] using ha
  · simpa only [argsWeight_cons, add_left_comm] using hswap.weight_le
  · rw [← hswap.eval_eq]
    simp only [argsEval_cons]
    ring

/-- Splits of one index with the same factors have the same digit. -/
theorem digit_of_sameSplit {ρ : String → ℤ} (hidx : lhs.index = rhs.index)
    (h : SumExpr.sameSplit lhs rhs = true) : lhs.digit ρ = rhs.digit ρ := by
  simp only [SumExpr.sameSplit, Bool.and_eq_true, decide_eq_true_eq] at h
  rw [digit_of_compatible h.2]
  simp [digit, hidx, h.1.1, h.1.2]

namespace SumExpr

/-- Adding a multiple of a split within the segment of its index adds its value. -/
theorem addToSegment_spec (hargs : ∀ arg ∈ args, arg.Ok g) (ho : other.Ok g) {k : ℤ}
    (hk : g.signed = false → 0 ≤ k) :
    g.HasArgs (argsWeight args + other.weight)
      (fun ρ => argsEval ρ args + other.eval ρ * k) (addToSegment other k args) := by
  have hnew : (other.mulToSelf k).Ok g := ho.mulToSelf hk
  have hweight : (other.mulToSelf k).weight = other.weight := rfl
  induction args with
  | nil =>
    refine (((hasArgs_self (by simp)).cons hnew).mono (by simp [hweight])).congr fun ρ => ?_
    simp [eval_mulToSelf]
  | cons arg args ih =>
    have harg := hargs arg mem_cons_self
    have hrest : ∀ arg' ∈ args, arg'.Ok g := (forall_mem_cons.mp hargs).2
    rw [addToSegment]
    split
    · refine (((hasArgs_self hargs).cons hnew).mono ?_).congr fun ρ => ?_
      · omega
      · rw [eval_mulToSelf, add_comm]
    · next hidx =>
        have hindex : other.index = arg.index := by
          simp only [indexEqual, Bool.or_eq_true, Bool.not_eq_true',
            decide_eq_false_iff_not, not_or, not_not] at hidx
          exact hidx.1.symm
        split
        · next hsame =>
            have hok := harg.withScale (k := arg.scale + other.scale * k) fun hg =>
              add_nonneg (harg.scale_nonneg hg)
                (mul_nonneg (ho.scale_nonneg hg) (hk hg))
            refine (((hasArgs_self hrest).cons hok).mono ?_).congr fun ρ => ?_
            · simp only [argsWeight_cons, weight]
              omega
            · rw [eval_withScale, argsEval_cons, eval, eval, digit_of_sameSplit hindex hsame]
              ring
        · refine (((ih hrest).cons harg).mono ?_).congr fun ρ => ?_
          · simp only [argsWeight_cons]
            omega
          · simp only [argsEval_cons]
            ring

/-- `SumExpr::AddToSelf` of a split finds the segment of its index and adds there. -/
theorem addToArgs_spec (hargs : ∀ arg ∈ args, arg.Ok g) (ho : other.Ok g) {k : ℤ}
    (hk : g.signed = false → 0 ≤ k) :
    g.HasArgs (argsWeight args + other.weight)
      (fun ρ => argsEval ρ args + other.eval ρ * k) (addToArgs other k args) := by
  induction args with
  | nil => exact addToSegment_spec hargs ho hk
  | cons arg args ih =>
    rw [addToArgs]
    split
    · exact addToSegment_spec hargs ho hk
    · have hrest := ih (forall_mem_cons.mp hargs).2
      refine ((hrest.cons (hargs arg mem_cons_self)).mono ?_).congr fun ρ => ?_
      · simp only [argsWeight_cons]
        omega
      · simp only [argsEval_cons]
        ring

/-- The value of a sum. -/
def eval (e : SumExpr) : ℤ := argsEval ρ e.args + e.base

/-- A sum of a grade with a given value, and at most `n` divisions. -/
structure Has (g : Grade) (n : ℕ) (v : (String → ℤ) → ℤ) (e : SumExpr) : Prop where
  ok : ∀ arg ∈ e.args, arg.Ok g
  base_nonneg : g.positive = true → 0 ≤ e.base
  weight_le : argsWeight e.args ≤ n
  eval_eq : ∀ ρ, e.eval ρ = v ρ

variable {e e' : SumExpr}

section

variable (h : Has g n v e)
include h

theorem Has.congr (hv : ∀ ρ, v ρ = w ρ) : Has g n w e :=
  ⟨h.ok, h.base_nonneg, h.weight_le, fun ρ => (h.eval_eq ρ).trans (hv ρ)⟩

theorem Has.mono (hn : n ≤ k) : Has g k v e :=
  ⟨h.ok, h.base_nonneg, h.weight_le.trans hn, h.eval_eq⟩

/-- `AddToSelf(SplitExpr, scale)` adds `scale` times the split. -/
theorem Has.addSplit (ho : other.Ok g) {k : ℤ} (hk : g.signed = false → 0 ≤ k) :
    Has g (n + other.weight) (fun ρ => v ρ + other.eval ρ * k) (e.addSplit other k) := by
  unfold SumExpr.addSplit
  split
  · next h0 =>
      refine (h.mono (Nat.le_add_right _ _)).congr fun ρ => ?_
      simp [SplitExpr.eval, h0]
  · have hargs := addToArgs_spec h.ok ho hk
    refine ⟨hargs.ok, h.base_nonneg,
      hargs.weight_le.trans (Nat.add_le_add_right h.weight_le _), fun ρ => ?_⟩
    rw [← h.eval_eq, eval, hargs.eval_eq, eval]
    ring

theorem Has.addConst (hc : g.positive = true → 0 ≤ c) :
    Has g n (fun ρ => v ρ + c) (e.addConst c) := by
  refine ⟨h.ok, fun hg => add_nonneg (h.base_nonneg hg) (hc hg), h.weight_le, fun ρ => ?_⟩
  rw [← h.eval_eq, eval, eval, SumExpr.addConst]
  ring

theorem Has.foldl_addSplit (hargs : ∀ arg ∈ args, arg.Ok g) {k : ℤ}
    (hk : g.signed = false → 0 ≤ k) :
    Has g (n + argsWeight args) (fun ρ => v ρ + argsEval ρ args * k)
      (args.foldl (fun e arg => e.addSplit arg k) e) := by
  induction args generalizing e n v with
  | nil => exact h.congr fun ρ => by simp
  | cons arg args ih =>
    have hstep := h.addSplit (hargs arg mem_cons_self) hk
    refine ((ih hstep (forall_mem_cons.mp hargs).2).mono ?_).congr fun ρ => ?_
    · simp only [argsWeight_cons]
      omega
    · simp only [argsEval_cons]
      ring

/-- `AddToSelf(SumExpr, scale)` adds the arguments one by one and the base. -/
theorem Has.addSum (h' : Has g k w e') (hc : g.signed = false → 0 ≤ c) :
    Has g (n + k) (fun ρ => v ρ + w ρ * c) (e.addSum e' c) := by
  refine (((h.foldl_addSplit h'.ok hc).addConst fun hg =>
    mul_nonneg (h'.base_nonneg hg) (hc (Grade.signed_of_positive hg))).mono
      (Nat.add_le_add_left h'.weight_le _)).congr fun ρ => ?_
  rw [← h'.eval_eq, eval]
  ring

/-- `MulToSelf` multiplies every argument and the base. -/
theorem Has.mulToSelf (hc : g.signed = false → 0 ≤ c) :
    Has g n (fun ρ => v ρ * c) (e.mulToSelf c) := by
  have hmul : ∀ args : List SplitExpr, argsWeight (args.map (·.mulToSelf c)) = argsWeight args ∧
      ∀ ρ, argsEval ρ (args.map (·.mulToSelf c)) = argsEval ρ args * c := by
    intro args
    induction args with
    | nil => simp
    | cons arg args ih =>
      refine ⟨?_, fun ρ => ?_⟩
      · rw [map_cons, argsWeight_cons, ih.1]
        rfl
      · rw [map_cons, argsEval_cons, ih.2, argsEval_cons, eval_mulToSelf]
        ring
  refine ⟨fun arg harg => ?_, fun hg => mul_nonneg (h.base_nonneg hg)
    (hc (Grade.signed_of_positive hg)), ?_, fun ρ => ?_⟩
  · obtain ⟨a, ha, rfl⟩ := mem_map.mp harg
    exact (h.ok a ha).mulToSelf hc
  · rw [SumExpr.mulToSelf, (hmul e.args).1]
    exact h.weight_le
  · rw [← h.eval_eq, eval, SumExpr.mulToSelf, (hmul e.args).2, eval]
    ring

end

/-! ## Merging splits -/

/-- **Two splits that make up one.** -/
theorem merge_spec (hl : lhs.Ok g) (hr : rhs.Ok g) (hidx : lhs.index = rhs.index)
    (h : mergeable id lhs rhs = true) :
    Ok g { rhs with upperFactor := lhs.upperFactor } ∧
      weight { rhs with upperFactor := lhs.upperFactor } ≤ rhs.weight ∧ ∀ ρ,
        SplitExpr.eval ρ { rhs with upperFactor := lhs.upperFactor } = lhs.eval ρ + rhs.eval ρ := by
  simp only [mergeable, id, Bool.and_eq_true, decide_eq_true_eq, ne_eq] at h
  obtain ⟨⟨⟨⟨hupper, hscale⟩, hdvd⟩, hlower⟩, hmode⟩ := h
  obtain ⟨k, hk⟩ := dvd_of_tmod_eq_zero hdvd
  rw [hk, mul_tdiv_cancel_left k hscale] at hlower
  have hk0 : k ≠ 0 := by
    rintro rfl
    exact hl.lower_ne (by rw [hlower, zero_mul])
  refine ⟨⟨hr.index, hr.lower_ne, fun u hu => ?_, hr.lower_allowed, fun u hu => ?_,
    hr.scale_nonneg⟩, ?_, fun ρ => ?_⟩
  · obtain ⟨hu0, hdvd⟩ := hl.upper u hu
    exact ⟨hu0, (Dvd.intro_left k hlower.symm).trans hdvd⟩
  · exact hidx ▸ hl.upper_allowed u hu
  · rw [weight, weight, ← hupper]
    split <;> simp
  · -- With `t` the index modulo the upper factor, `t / (k * l) * k + (t % (k * l)) / l = t / l`.
    have hdigit : rhs.digit ρ =
        rhs.divMode.div (rhs.divMode.mod (rhs.index.eval ρ) lhs.lowerFactor) rhs.lowerFactor := by
      simp [digit, ← hupper]
    have hmain := fun t => rhs.divMode.div_mul_add_div_mod t hk0 hr.lower_ne
    simp only [SplitExpr.eval, digit_of_compatible hmode, hdigit, hk]
    cases hu : lhs.upperFactor with
    | none =>
      simp only [digit, hidx, hlower, ← hmain (rhs.index.eval ρ)]
      ring
    | some u =>
      have hsame : rhs.divMode.mod (rhs.index.eval ρ) lhs.lowerFactor =
          rhs.divMode.mod (rhs.divMode.mod (rhs.index.eval ρ) u) lhs.lowerFactor :=
        (rhs.divMode.mod_mod_of_dvd _ (hl.upper u hu).2).symm
      rw [hsame]
      simp only [digit, hidx, hlower, ← hmain (rhs.divMode.mod (rhs.index.eval ρ) u)]
      ring

/-- Merging a split with the splits behind it, where `(x / c) * c + x % c` becomes `x`, keeps the value. -/
theorem mergeSplit_spec (hl : lhs.Ok g) (hargs : ∀ arg ∈ args, arg.Ok g) :
    (mergeSplit id lhs args).2.length = args.length ∧
      g.HasArgs (lhs.weight + argsWeight args) (fun ρ => lhs.eval ρ + argsEval ρ args)
        ((mergeSplit id lhs args).1 :: (mergeSplit id lhs args).2) := by
  induction args generalizing lhs with
  | nil => exact ⟨rfl, (hasArgs_self (by simp)).cons hl⟩
  | cons rhs args ih =>
    have hr := hargs rhs mem_cons_self
    have hrest : ∀ arg ∈ args, arg.Ok g := (forall_mem_cons.mp hargs).2
    have hsame := (hasArgs_self hargs).cons hl
    rw [mergeSplit]
    split
    · exact ⟨rfl, hsame⟩
    · next hidx =>
        have hindex : lhs.index = rhs.index := by simpa [indexEqual] using hidx
        split
        · exact ⟨rfl, hsame⟩
        · split
          · next hsplit =>
              obtain ⟨hlen, hih⟩ := ih (hl.withScale fun _ => le_rfl) hrest
              have hr' := hr.withScale (k := rhs.scale + lhs.scale) fun hg =>
                add_nonneg (hr.scale_nonneg hg) (hl.scale_nonneg hg)
              refine ⟨congrArg (· + 1) hlen, ((hih.insert hr').mono ?_).congr fun ρ => ?_⟩
              · simp only [argsWeight_cons, weight]
                omega
              · rw [argsEval_cons, eval_withScale, eval_withScale,
                  SplitExpr.eval, SplitExpr.eval, digit_of_sameSplit hindex hsplit]
                ring
          · split
            · next hmerge =>
                obtain ⟨hok, hweight, heval⟩ := merge_spec hl hr hindex hmerge
                have hl0 := hl.withScale fun _ => le_rfl
                refine ⟨rfl, ((((hasArgs_self hrest).cons hok).cons hl0).mono ?_).congr
                  fun ρ => ?_⟩
                · exact Nat.add_le_add_left (Nat.add_le_add_right hweight _) _
                · rw [heval, eval_withScale, argsEval_cons]
                  ring
            · obtain ⟨hlen, hih⟩ := ih hl hrest
              refine ⟨congrArg (· + 1) hlen, ((hih.insert hr).mono ?_).congr fun ρ => ?_⟩
              · simp only [argsWeight_cons]
                omega
              · rw [argsEval_cons]
                ring

theorem mergeSplits_spec (hargs : ∀ arg ∈ args, arg.Ok g) (n : ℕ) :
    g.HasArgs (argsWeight args) (argsEval · args) (mergeSplits id n args) := by
  induction n generalizing args with
  | zero => exact hasArgs_self hargs
  | succ n ih =>
    cases args with
    | nil => exact hasArgs_self hargs
    | cons lhs args =>
      have hl := hargs lhs mem_cons_self
      have hrest : ∀ arg ∈ args, arg.Ok g := (forall_mem_cons.mp hargs).2
      rw [mergeSplits]
      split
      · refine (((ih hrest).cons hl).mono ?_).congr fun ρ => ?_
        · rw [argsWeight_cons]
        · rw [argsEval_cons]
      · have hmerge := (mergeSplit_spec hl hrest).2
        have hl' := hmerge.ok _ mem_cons_self
        have hrest' := (forall_mem_cons.mp hmerge.ok).2
        refine (((ih hrest').cons hl').mono ?_).congr fun ρ => ?_
        · simpa only [argsWeight_cons] using hmerge.weight_le
        · simpa only [argsEval_cons] using hmerge.eval_eq ρ

theorem simplifySplitExprs_spec (hargs : ∀ arg ∈ args, arg.Ok g) :
    g.HasArgs (argsWeight args) (argsEval · args) (simplifySplitExprs id args) := by
  have hmerge := mergeSplits_spec hargs args.length
  have hperm := perm_insertionSort (fun lhs rhs : SplitExpr => rhs.before lhs = false)
    (mergeSplits id args.length args)
  refine ⟨fun arg harg => hmerge.ok arg (hperm.mem_iff.mp harg), ?_, fun ρ => ?_⟩
  · exact (hperm.map _).sum_eq.trans_le hmerge.weight_le
  · rw [← hmerge.eval_eq ρ]
    exact (hperm.map _).sum_eq

/-! ## Turning sums back into expressions -/

/-- One pass of `Normalize_` over the arguments of one sign, for any way to emit a term. -/
theorem foldlM_pass_spec {p : SplitExpr → Prop} [DecidablePred p] {f : SplitExpr → Option IntExpr}
    {op : IntExpr → IntExpr → IntExpr}
    (hstep : ∀ arg ∈ args, p arg → ∃ e, f arg = some e ∧ ∀ {n v res}, g.Has n v res →
      g.Has (n + arg.weight) (fun ρ => v ρ + arg.eval ρ) (op res e)) (hres : g.Has n v res) :
    ∃ e, args.foldlM (fun res arg => if p arg then (f arg).map (op res) else some res) res =
      some e ∧ g.Has (n + argsWeight (args.filter (p ·)))
        (fun ρ => v ρ + argsEval ρ (args.filter (p ·))) e := by
  induction args generalizing n v res with
  | nil => exact ⟨res, rfl, hres.congr fun ρ => (add_zero _).symm⟩
  | cons arg args ih =>
    have hrest := (forall_mem_cons.mp hstep).2
    by_cases hp : p arg
    · obtain ⟨e, he, hop⟩ := hstep arg mem_cons_self hp
      obtain ⟨e', he', hhas⟩ := ih hrest (hop hres)
      refine ⟨e', ?_, (hhas.mono ?_).congr fun ρ => ?_⟩
      · rw [foldlM_cons, if_pos hp, he]
        exact he'
      · simp [hp, add_assoc]
      · simp [hp, add_assoc]
    · obtain ⟨e', he', hhas⟩ := ih hrest hres
      refine ⟨e', ?_, (hhas.mono ?_).congr fun ρ => ?_⟩
      · rw [foldlM_cons, if_neg hp]
        exact he'
      · simp [hp]
      · simp [hp]

/-- The terms of positive scale and those of negative scale make up the sum. -/
theorem argsEval_filter_scale (args : List SplitExpr) :
    argsEval ρ (args.filter (·.scale > 0)) + argsEval ρ (args.filter (·.scale < 0)) =
      argsEval ρ args := by
  induction args with
  | nil => rfl
  | cons arg args ih =>
    by_cases h : arg.scale = 0
    · simpa [h, SplitExpr.eval] using ih
    · rcases lt_or_gt_of_ne h with h | h <;>
        simp only [gt_iff_lt, not_lt_of_gt h, h, decide_false, decide_true, filter_cons, if_true,
          Bool.false_eq_true, if_false, argsEval_cons, ← ih] <;>
        ring

theorem argsWeight_filter_scale (args : List SplitExpr) :
    argsWeight (args.filter (·.scale > 0)) + argsWeight (args.filter (·.scale < 0)) ≤
      argsWeight args := by
  induction args with
  | nil => exact le_rfl
  | cons arg args ih =>
    simp only [filter_cons, decide_eq_true_eq]
    split <;> split <;> simp only [argsWeight_cons] <;> omega

theorem has_addBase (h : g.Has n v res) (base : ℤ) : g.Has n (fun ρ => v ρ + max base 0)
      (if base > 0 then res.addOp (.intImm base) else res) := by
  split
  · next hpos =>
      exact (h.add (Grade.has_intImm (n := 0) fun _ => hpos.le)).congr
        fun ρ => by rw [max_eq_left hpos.le]
  · next hpos => exact h.congr fun ρ => by rw [max_eq_right (not_lt.mp hpos), add_zero]

theorem has_subBase (h : g.Has n v res) {base : ℤ} (hbase : g.positive = true → 0 ≤ base) :
    g.Has n (fun ρ => v ρ + min base 0)
      (if base < 0 then res.subOp (.intImm (-base)) else res) := by
  split
  · next hneg =>
      have hg : g.positive = false := by
        by_contra hg
        exact absurd (hbase (Bool.eq_true_of_not_eq_false hg)) (not_le.mpr hneg)
      exact (h.sub (Grade.has_intImm (n := 0) fun _ => (neg_pos.mpr hneg).le)
        fun _ => ⟨hg, _, rfl⟩).congr fun ρ => by rw [min_eq_left hneg.le, sub_neg_eq_add]
  · next hneg => exact h.congr fun ρ => by rw [min_eq_right (not_lt.mp hneg), add_zero]

/-- The passes for positive scales, the base and negative scales, one after another. -/
theorem normalizeArgs_spec (hargs : ∀ arg ∈ args, arg.Ok g) {base : ℤ}
    (hbase : g.positive = true → 0 ≤ base) :
    ∃ e, normalizeArgs args base = some e ∧
      g.Has (argsWeight args) (fun ρ => argsEval ρ args + base) e := by
  have hadd : ∀ arg ∈ args, arg.scale > 0 → ∃ e, arg.normalize = some e ∧ ∀ {n v res},
      g.Has n v res → g.Has (n + arg.weight) (fun ρ => v ρ + arg.eval ρ) (res.addOp e) := by
    intro arg harg _
    obtain ⟨e, he, hhas⟩ := normalize_spec (hargs arg harg)
    exact ⟨e, he, fun h => h.add hhas⟩
  have hsub : ∀ arg ∈ args, arg.scale < 0 → ∃ e, arg.normalizeWithScale (-1) = some e ∧
      ∀ {n v res}, g.Has n v res →
        g.Has (n + arg.weight) (fun ρ => v ρ + arg.eval ρ) (res.subOp e) := by
    intro arg harg hneg
    -- Only signed grades have splits of negative scale.
    have hg : g.signed = true := by
      by_contra hg
      exact absurd ((hargs arg harg).scale_nonneg (Bool.eq_false_iff.mpr hg)) (not_le.mpr hneg)
    obtain ⟨e, he, hhas⟩ := normalizeWithScale_spec (hargs arg harg)
      fun hg' => absurd (hg.symm.trans hg') (by decide)
    exact ⟨e, he, fun h => (h.sub hhas fun hf => absurd (hg.symm.trans hf) (by decide)).congr
      fun ρ => by ring⟩
  obtain ⟨e₁, he₁, h₁⟩ := foldlM_pass_spec hadd
    (Grade.has_intImm fun _ => le_rfl)
  obtain ⟨e₂, he₂, h₂⟩ := foldlM_pass_spec hsub (has_addBase h₁ base)
  refine ⟨_,
    by rw [normalizeArgs, he₁, Option.bind_eq_bind, Option.bind_some]; simp only [he₂]; rfl,
    ((has_subBase h₂ hbase).mono ?_).congr fun ρ => ?_⟩
  · rw [zero_add]
    exact argsWeight_filter_scale args
  · have hargs := argsEval_filter_scale ρ args
    omega

/-- `SumExpr::Normalize` gives an expression of the same value. -/
theorem normalize_spec {e : SumExpr} (h : Has g n v e) :
    ∃ r, e.normalize = some r ∧ g.Has n v r := by
  rw [normalize, normalizeOn]
  split
  · next hlen =>
      refine ⟨_, rfl, (Grade.has_intImm h.base_nonneg).congr fun ρ => ?_⟩
      rw [← h.eval_eq, eval, length_eq_zero_iff.mp hlen, argsEval_nil, zero_add]
  · have hmerged := simplifySplitExprs_spec h.ok
    obtain ⟨r, hr, hhas⟩ := normalizeArgs_spec hmerged.ok h.base_nonneg
    refine ⟨r, hr, (hhas.mono (hmerged.weight_le.trans h.weight_le)).congr fun ρ => ?_⟩
    rw [hmerged.eval_eq, ← h.eval_eq, eval]

/-! ## Multiples of the divisor -/

/-- The divisor divides the base and every scale. -/
def DivisibleBy (c : ℤ) (e : SumExpr) : Prop :=
  e.base.tmod c = 0 ∧ ∀ arg ∈ e.args, arg.scale.tmod c = 0

theorem argsEval_filter_add (p : SplitExpr → Bool) (args : List SplitExpr) :
    argsEval ρ (args.filter p) + argsEval ρ (args.filter (!p ·)) = argsEval ρ args := by
  simpa only [argsEval, map_append, sum_append] using
    ((filter_append_perm p args).map (·.eval ρ)).sum_eq

theorem argsWeight_filter_add (p : SplitExpr → Bool) (args : List SplitExpr) :
    argsWeight (args.filter p) + argsWeight (args.filter (!p ·)) = argsWeight args := by
  simpa only [argsWeight, map_append, sum_append] using
    ((filter_append_perm p args).map (·.weight)).sum_eq

/-- **A sum is separated into the multiples of the divisor and the rest.** -/
theorem Has.separateDivisibleParts (h : Has g n v e) (c : ℤ) :
    ∃ n₁ n₂ v₁ v₂, n₁ + n₂ ≤ n ∧ (∀ ρ, v₁ ρ + v₂ ρ = v ρ) ∧
      Has g n₁ v₁ (e.separateDivisibleParts c).1 ∧
      DivisibleBy c (e.separateDivisibleParts c).1 ∧
      Has g n₂ v₂ (e.separateDivisibleParts c).2 := by
  have hnot : (fun arg : SplitExpr => decide (arg.scale.tmod c ≠ 0)) =
      fun arg => !decide (arg.scale.tmod c = 0) := funext fun arg => decide_not
  refine ⟨_, _, _, _, ?_, fun ρ => ?_, ⟨?_, ?_, le_rfl, fun _ => rfl⟩, ⟨?_, ?_⟩,
    ⟨?_, ?_, le_rfl, fun _ => rfl⟩⟩
  · simp only [SumExpr.separateDivisibleParts, hnot]
    exact (argsWeight_filter_add _ _).trans_le h.weight_le
  · have hargs := argsEval_filter_add ρ (fun arg => decide (arg.scale.tmod c = 0)) e.args
    rw [← h.eval_eq, eval, eval, eval, ← hargs]
    simp only [SumExpr.separateDivisibleParts, hnot]
    split <;> ring
  · exact fun arg harg => h.ok arg (mem_filter.mp harg).1
  · intro hg
    simp only [SumExpr.separateDivisibleParts]
    split
    · exact h.base_nonneg hg
    · exact le_rfl
  · simp only [SumExpr.separateDivisibleParts]
    split
    · assumption
    · exact zero_tmod c
  · exact fun arg harg => of_decide_eq_true (mem_filter.mp harg).2
  · exact fun arg harg => h.ok arg (mem_filter.mp harg).1
  · intro hg
    simp only [SumExpr.separateDivisibleParts]
    split
    · exact le_rfl
    · exact h.base_nonneg hg

/-- A sum is divided by a divisor of the base and of every scale. -/
theorem Has.divideBy (h : Has g n v e) (hc : 0 < c) (hd : DivisibleBy c e) :
    ∃ e' w, e.divideBy c = some e' ∧ Has g n w e' ∧ ∀ ρ, v ρ = w ρ * c := by
  refine ⟨_, _, if_pos hd, ⟨fun arg harg => ?_, fun hg => ?_, ?_, fun _ => rfl⟩, fun ρ => ?_⟩
  · obtain ⟨a, ha, rfl⟩ := mem_map.mp harg
    exact (h.ok a ha).withScale fun hg => Int.tdiv_nonneg ((h.ok a ha).scale_nonneg hg) hc.le
  · exact Int.tdiv_nonneg (h.base_nonneg hg) hc.le
  · refine le_trans (le_of_eq ?_) h.weight_le
    simp only [argsWeight, map_map]
    rfl
  · have hargs : ∀ args : List SplitExpr, (∀ arg ∈ args, arg.scale.tmod c = 0) →
        argsEval ρ args =
          argsEval ρ (args.map fun arg => { arg with scale := arg.scale.tdiv c }) * c := by
      intro args hargs
      induction args with
      | nil => simp
      | cons arg args ih =>
        have hscale := Int.tdiv_mul_cancel (dvd_of_tmod_eq_zero (hargs arg mem_cons_self))
        rw [map_cons, argsEval_cons, argsEval_cons, eval_withScale (arg.scale.tdiv c), add_mul,
          ← ih (forall_mem_cons.mp hargs).2, mul_assoc, hscale]
        rfl
    rw [← h.eval_eq, eval, eval, add_mul, ← hargs e.args hd.2,
      Int.tdiv_mul_cancel (dvd_of_tmod_eq_zero hd.1)]

theorem Has.eq_zero (h : Has g n v e) (hzero : e.isZero = true) (ρ : String → ℤ) : v ρ = 0 := by
  simp only [isZero, Bool.and_eq_true, decide_eq_true_eq, length_eq_zero_iff] at hzero
  rw [← h.eval_eq, eval, hzero.1, hzero.2, argsEval_nil, add_zero]

/-- The quotient of the multiples, and the rest as an expression. -/
theorem Has.parts (h : Has g n v e) (hc : 0 < c) :
    ∃ n₁ n₂ w t q temp, n₁ + n₂ ≤ n ∧ (∀ ρ, w ρ * c + t ρ = v ρ) ∧
      Has g n₁ (fun ρ => w ρ * c) (e.separateDivisibleParts c).1 ∧
      (e.separateDivisibleParts c).1.divideBy c = some q ∧ Has g n₁ w q ∧
      Has g n₂ t (e.separateDivisibleParts c).2 ∧
      (e.separateDivisibleParts c).2.normalize = some temp ∧ g.Has n₂ t temp := by
  obtain ⟨n₁, n₂, v₁, v₂, hle, hv, hlhs, hdvd, hextra⟩ := h.separateDivisibleParts c
  obtain ⟨q, w, hq, hqHas, hw⟩ := hlhs.divideBy hc hdvd
  obtain ⟨temp, htemp, htempHas⟩ := normalize_spec hextra
  obtain rfl := funext hw
  exact ⟨n₁, n₂, w, v₂, q, temp, hle, hv, hlhs, hq, hqHas, hextra, htemp, htempHas⟩

end SumExpr

/-! ## Normal forms -/

namespace CanonicalExpr

/-- The value of a normal form. -/
def eval : CanonicalExpr → ℤ
  | .expr e => e.eval ρ
  | .split e => e.eval ρ
  | .sum e => e.eval ρ

/-- A normal form of a grade with a given value, and at most `n` divisions. -/
def Has (g : Grade) (n : ℕ) (v : (String → ℤ) → ℤ) : CanonicalExpr → Prop
  | .expr e => g.Has n v e
  | .split e => e.Ok g ∧ e.weight ≤ n ∧ ∀ ρ, e.eval ρ = v ρ
  | .sum e => SumExpr.Has g n v e

variable {a b : CanonicalExpr}

theorem Has.eval_eq (h : Has g n v a) (ρ : String → ℤ) : a.eval ρ = v ρ := by
  cases a with
  | expr e => exact Grade.Has.eval_eq h ρ
  | split e => exact h.2.2 ρ
  | sum e => exact SumExpr.Has.eval_eq h ρ

theorem Has.mono (h : Has g n v a) (hn : n ≤ k) : Has g k v a := by
  cases a with
  | expr e => exact Grade.Has.mono h hn
  | split e => exact ⟨h.1, h.2.1.trans hn, h.2.2⟩
  | sum e => exact SumExpr.Has.mono h hn

theorem Has.congr (h : Has g n v a) (hv : ∀ ρ, v ρ = w ρ) : Has g n w a := by
  cases a with
  | expr e => exact Grade.Has.congr h hv
  | split e => exact ⟨h.1, h.2.1, fun ρ => (h.2.2 ρ).trans (hv ρ)⟩
  | sum e => exact SumExpr.Has.congr h hv

theorem eval_of_asIntImm {ρ : String → ℤ} {x : ℤ} (h : a.asIntImm = some x) : a.eval ρ = x := by
  cases a with
  | expr e => exact IntExpr.eval_of_asIntImm h
  | split e | sum e => simp [asIntImm] at h

@[simp] theorem eval_intImm (c : ℤ) : (intImm c).eval ρ = c := rfl

theorem Has.nonneg_of_asIntImm {x : ℤ} (ha : Has g n v a) (h : a.asIntImm = some x)
    (hg : g.positive = true) : 0 ≤ x := by
  cases a with
  | expr e => exact Grade.nonneg_of_asIntImm (Grade.Has.expr ha) h hg
  | split e | sum e => simp [asIntImm] at h

theorem has_intImm (h : g.positive = true → 0 ≤ c) : Has g n (fun _ => c) (intImm c) :=
  Grade.has_intImm h

/-- **Normal forms can be turned back into expressions.** -/
theorem normalize_spec (h : Has g n v a) : ∃ e, a.normalize = some e ∧ g.Has n v e := by
  cases a with
  | expr e => exact ⟨e, rfl, h⟩
  | split s =>
    obtain ⟨e, he, hhas⟩ := normalize_spec h.1
    exact ⟨e, he, (hhas.mono h.2.1).congr h.2.2⟩
  | sum s => exact SumExpr.normalize_spec h

theorem has_ofIndex {e : IntExpr} (h : g.Has n v e) : Has g n v (.split (.ofIndex e)) :=
  ⟨ok_ofIndex h.expr, (weight_ofIndex e).trans_le h.divisions_le,
    fun ρ => (eval_ofIndex ρ e).trans (h.eval_eq ρ)⟩

/-- `ToSplitExpr` keeps the value: what is not a split becomes the index of one. -/
theorem toSplitExpr_spec (h : Has g n v a) :
    ∃ s, a.toSplitExpr = some s ∧ Has g n v (.split s) := by
  unfold toSplitExpr
  split
  · exact ⟨_, rfl, has_ofIndex h⟩
  · exact ⟨_, rfl, h⟩
  · next arg =>
      refine ⟨arg, rfl, h.ok arg mem_cons_self, ?_, fun ρ => ?_⟩
      · simpa using h.weight_le
      · simpa [eval, SumExpr.eval] using h.eval_eq ρ
  · obtain ⟨r, hr, hhas⟩ := SumExpr.normalize_spec h
    exact ⟨_, by rw [hr]; rfl, has_ofIndex hhas⟩

theorem has_singleton {s : SplitExpr} (h : Has g n v (.split s)) : SumExpr.Has g n v ⟨[s], 0⟩ :=
  ⟨by simpa using h.1, fun _ => le_rfl, by simpa using h.2.1,
    fun ρ => by simpa [SumExpr.eval] using h.2.2 ρ⟩

theorem toSumExpr_spec (h : Has g n v a) : SumExpr.Has g n v a.toSumExpr := by
  unfold toSumExpr
  split
  · next c =>
      exact ⟨by simp, fun hg => Has.nonneg_of_asIntImm h rfl hg,
        Nat.zero_le _, fun ρ => by simpa [SumExpr.eval, IntExpr.eval] using Grade.Has.eval_eq h ρ⟩
  · exact has_singleton (has_ofIndex h)
  · exact has_singleton h
  · exact h

/-- The three ways to add an operand to a sum: a constant, a sum and a split. -/
theorem addTo_spec {ret : SumExpr} (hret : SumExpr.Has g n v ret) (ha : Has g k w a)
    (hc : g.signed = false → 0 ≤ c) :
    SumExpr.Has g (n + k) (fun ρ => v ρ + w ρ * c) (addTo ret c a) := by
  have hsplit : ∀ {s : SplitExpr}, Has g k w (.split s) →
      SumExpr.Has g (n + k) (fun ρ => v ρ + w ρ * c) (ret.addSplit s c) := by
    intro s hs
    refine ((hret.addSplit hs.1 hc).mono (Nat.add_le_add_left hs.2.1 n)).congr fun ρ => ?_
    rw [hs.2.2]
  unfold addTo
  split
  · next x =>
      refine ((hret.addConst fun hg =>
        mul_nonneg (ha.nonneg_of_asIntImm rfl hg) (hc (Grade.signed_of_positive hg))).mono
          (Nat.le_add_right n k)).congr fun ρ => ?_
      rw [← Grade.Has.eval_eq ha ρ]
      rfl
  · exact hsplit (has_ofIndex ha)
  · exact hsplit ha
  · exact hret.addSum ha hc

variable (ha : Has g n v a)
include ha

/-- What constant folding returns is of the same grade. -/
theorem Has.of_folded (hb : Has g k w b) {r : CanonicalExpr} {op : ℤ → ℤ → ℤ}
    (h : ∀ ρ, r.eval ρ = op (a.eval ρ) (b.eval ρ) ∧ (r = a ∨ r = b ∨
      ∃ x y, a.asIntImm = some x ∧ b.asIntImm = some y ∧ r = intImm (op x y)))
    (hop : g.positive = true → ∀ x y, 0 ≤ x → 0 ≤ y → 0 ≤ op x y) :
    Has g (n + k) (fun ρ => op (v ρ) (w ρ)) r := by
  have hval : ∀ ρ, r.eval ρ = op (v ρ) (w ρ) := fun ρ => by rw [(h ρ).1, ha.eval_eq, hb.eval_eq]
  rcases (h fun _ => 0).2 with rfl | rfl | ⟨x, y, hx, hy, rfl⟩
  · exact (ha.mono (Nat.le_add_right n k)).congr fun ρ => (ha.eval_eq ρ).symm.trans (hval ρ)
  · exact (hb.mono (Nat.le_add_left k n)).congr fun ρ => (hb.eval_eq ρ).symm.trans (hval ρ)
  · exact (has_intImm fun hg => hop hg x y (ha.nonneg_of_asIntImm hx hg)
      (hb.nonneg_of_asIntImm hy hg)).congr hval

theorem Has.add (hb : Has g k w b) :
    Has g (n + k) (fun ρ => v ρ + w ρ) (a.add b) := by
  unfold CanonicalExpr.add
  cases h : tryConstFoldAdd asIntImm intImm a b with
  | none =>
    exact (addTo_spec (toSumExpr_spec ha) hb fun _ => zero_le_one).congr
      fun ρ => by rw [mul_one]
  | some r =>
    exact ha.of_folded hb (fun ρ => tryConstFoldAdd_spec (eval ρ) eval_of_asIntImm
      (eval_intImm ρ) h) fun _ _ _ => add_nonneg

/-- The simplifier's case for `a - b`; where negative multiples are not allowed, `b` is a
constant. -/
theorem Has.sub (hb : Has g k w b)
    (hg : g.signed = false → g.positive = false ∧ ∃ c, b = intImm c) :
    Has g (n + k) (fun ρ => v ρ - w ρ) (a.sub b) := by
  unfold CanonicalExpr.sub
  cases h : tryConstFoldSub asIntImm intImm a b with
  | none =>
    by_cases hs : g.signed = false
    · obtain ⟨hp, c, rfl⟩ := hg hs
      have hsum := (toSumExpr_spec ha).addConst (c := c * -1) fun hf =>
        absurd (hp.symm.trans hf) (by decide)
      refine SumExpr.Has.congr (hsum.mono (Nat.le_add_right n k)) fun ρ => ?_
      rw [← hb.eval_eq, eval_intImm]
      ring
    · exact (addTo_spec (toSumExpr_spec ha) hb fun hf => absurd hf hs).congr
        fun ρ => by ring
  | some r =>
    exact ha.of_folded hb (fun ρ => tryConstFoldSub_spec (eval ρ) eval_of_asIntImm
      (eval_intImm ρ) h) fun hf =>
        absurd ((hg (Grade.signed_of_positive hf)).1.symm.trans hf) (by decide)

/-- Multiplication by a constant, on whichever form the operand has. -/
theorem Has.mulConst (hc : g.signed = false → 0 ≤ c) :
    Has g n (fun ρ => v ρ * c) (a.mulConst c) := by
  have hsplit : ∀ {s : SplitExpr}, Has g n v (.split s) →
      Has g n (fun ρ => v ρ * c) (.split (s.mulToSelf c)) := fun hs =>
    ⟨hs.1.mulToSelf hc, hs.2.1, fun ρ => by rw [eval_mulToSelf, hs.2.2]⟩
  cases a with
  | expr e => exact hsplit (has_ofIndex ha)
  | split e => exact hsplit ha
  | sum e => exact SumExpr.Has.mulToSelf ha hc

/-- The simplifier's case for `a * b`; where negative multiples are not allowed, no constant is
negative or one operand is a constant that is not. -/
theorem Has.mul (hb : Has g k w b) (hg : g.signed = false → g.positive = true ∨
      (∃ c, a = intImm c ∧ 0 ≤ c) ∨ ∃ c, b = intImm c ∧ 0 ≤ c) :
    ∃ r, a.mul b = some r ∧ Has g (n + k) (fun ρ => v ρ * w ρ) r := by
  unfold CanonicalExpr.mul
  cases h : tryConstFoldMul asIntImm intImm a b with
  | some r =>
    exact ⟨r, rfl, ha.of_folded hb (fun ρ => tryConstFoldMul_spec (eval ρ) eval_of_asIntImm
      (eval_intImm ρ) h) fun _ _ _ => mul_nonneg⟩
  | none =>
    cases hx : a.asIntImm with
    | some x =>
      refine ⟨_, rfl, ((hb.mulConst fun hs => ?_).mono (Nat.le_add_left k n)).congr fun ρ => ?_⟩
      · rcases hg hs with hp | ⟨c, rfl, hc⟩ | ⟨c, rfl, hc⟩
        · exact ha.nonneg_of_asIntImm hx hp
        · cases hx
          exact hc
        · -- two constants are folded
          have hy : (intImm c).asIntImm = some c := rfl
          simp [tryConstFoldMul, hx, hy] at h
      · rw [← ha.eval_eq, eval_of_asIntImm hx, mul_comm]
    | none =>
      cases hy : b.asIntImm with
      | some y =>
        refine ⟨_, rfl, ((ha.mulConst fun hs => ?_).mono (Nat.le_add_right n k)).congr
          fun ρ => ?_⟩
        · rcases hg hs with hp | ⟨c, rfl, -⟩ | ⟨c, rfl, hc⟩
          · exact hb.nonneg_of_asIntImm hy hp
          · cases hx
          · cases hy
            exact hc
        · rw [← hb.eval_eq, eval_of_asIntImm hy]
      | none =>
        obtain ⟨ea, hea, hhasa⟩ := normalize_spec ha
        obtain ⟨eb, heb, hhasb⟩ := normalize_spec hb
        refine ⟨.expr (.mul ea eb), by simp [hea, heb], ?_, ?_, fun ρ => ?_⟩
        · cases g with
          | anything => trivial
          | dividend d m p =>
            refine ⟨hhasa.expr, hhasb.expr, fun hs => ?_⟩
            rcases hg (Grade.signed_dividend_eq_false.mpr hs) with hp | ⟨c, rfl, -⟩ | ⟨c, rfl, -⟩
            · obtain rfl : p = true := hp
              exact .inr (.inr ⟨hhasa.expr, hhasb.expr⟩)
            · cases hx
            · cases hy
        · exact add_le_add hhasa.divisions_le hhasb.divisions_le
        · rw [IntExpr.eval, hhasa.eval_eq, hhasb.eval_eq]

end CanonicalExpr

end Pruner.Arith
