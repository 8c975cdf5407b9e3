import Pruner.Lib.PartialRun
import Pruner.Arith.CanonicalSplit

/-!
# The canonical simplifier keeps values

Every visit of the simplifier keeps the value for the assignments that agree with the bounds
of the analyzer, and makes no more divisions than it was given; so its recursive calls end.
Simplifying an expression therefore gives an expression with the same value.  That is not so
for dividends with negative multiples of divisions or modulos, and for a modulo of both divisions
and modulos.

## Main definitions

* `BoundQueries.Sound` — the bounds hold for the consistent assignments.
* `Yields` — a normal form that has a value for the consistent assignments.
* `canonicalMutate_spec` — what one visit does.
* `canonicalSimplify_eval` — simplifying keeps the value.
-/

namespace Pruner.Arith

open CanonicalExpr Option

open Lib (DivMode some_bind_eq)

/-- The answers of the analyzer hold for every consistent assignment. -/
structure BoundQueries.Sound (analyzer : BoundQueries) (Consistent : (String → ℤ) → Prop) :
    Prop where
  min_le : ∀ e m, (analyzer.constIntBound e).minValue = some m → ∀ ρ, Consistent ρ → m ≤ e.eval ρ
  le_max : ∀ e m, (analyzer.constIntBound e).maxValue = some m → ∀ ρ, Consistent ρ → e.eval ρ ≤ m
  greaterEqual : ∀ e c, analyzer.canProveGreaterEqual e c = true → ∀ ρ, Consistent ρ → c ≤ e.eval ρ

/-- A normal form of a grade, with a value for the consistent assignments. -/
def Yields (Consistent : (String → ℤ) → Prop) (g : Grade) (n : ℕ) (v : (String → ℤ) → ℤ)
    (o : Option CanonicalExpr) : Prop :=
  ∃ r w, o = some r ∧ CanonicalExpr.Has g n w r ∧ ∀ ρ, Consistent ρ → w ρ = v ρ

section

variable {analyzer : BoundQueries} {visitExpr : IntExpr → Option IntExpr}
  {Consistent : (String → ℤ) → Prop} {g g' : Grade} {n k : ℕ} {v w : (String → ℤ) → ℤ} {c : ℤ}
  {a : CanonicalExpr} {e : SumExpr} {x : IntExpr}

theorem Yields.of_has {r : CanonicalExpr} (h : CanonicalExpr.Has g n w r)
    (hw : ∀ ρ, Consistent ρ → w ρ = v ρ) : Yields Consistent g n v (some r) :=
  ⟨r, w, rfl, h, hw⟩

/-! ## The answers of the analyzer -/

theorem below_spec (hsound : analyzer.Sound Consistent) (hx : g.Has n v x)
    (h : (analyzer.constIntBound x).below c = true) {ρ : String → ℤ} (hρ : Consistent ρ) :
    0 ≤ v ρ ∧ v ρ < c := by
  simp only [ConstIntBound.below, Bool.and_eq_true, any_eq_true, decide_eq_true_eq] at h
  obtain ⟨⟨lo, hlo, hlo0⟩, hi, hhi, hhic⟩ := h
  rw [← hx.eval_eq]
  exact ⟨le_trans hlo0 (hsound.min_le x lo hlo ρ hρ),
    lt_of_le_of_lt (hsound.le_max x hi hhi ρ hρ) hhic⟩

theorem greaterEqual_spec (hsound : analyzer.Sound Consistent) (hx : g.Has n v x)
    (h : analyzer.canProveGreaterEqual x c = true) (ρ : String → ℤ) (hρ : Consistent ρ) :
    c ≤ v ρ := by
  rw [← hx.eval_eq]
  exact hsound.greaterEqual x c h ρ hρ

/-- An expression of a grade of dividends can be simplified. -/
theorem simplifiable_of_isDividend {d m p : Bool} (h : IsDividend d m p x) : Simplifiable x := by
  induction x generalizing d m p with
  | intImm c | var x => trivial
  | add a b iha ihb => exact ⟨iha h.1, ihb h.2⟩
  | sub a b iha ihb | mul a b iha ihb => exact ⟨iha h.1, ihb h.2.1⟩
  | div mode a b iha ihb =>
    refine ⟨h.2.2, .inr (h.2.1.mono (fun _ => rfl) (fun _ => rfl) (by simp) ?_)⟩
    rw [h.1, Bool.true_or, Bool.true_or]
  | mod mode a b iha ihb =>
    exact ⟨h.2.1, .inr (h.2.2.imp (IsDividend.mono id id (by simp) rfl) fun h =>
      h.2.mono id id (by simp) rfl)⟩

/-- **What `TryCompare` finds to be smaller is smaller.** -/
theorem tryCompare_spec (hsound : analyzer.Sound Consistent)
    (hvisit : Simplifies Consistent k visitExpr) (hx : g.Has n v x) (hs : Simplifiable x)
    (hn : n < k) :
    ∃ res, tryCompare analyzer visitExpr x c = some res ∧
      (res = .lt → ∀ ρ, Consistent ρ → v ρ < c) := by
  obtain ⟨diff, w, hdiff, hhas, hw⟩ := hvisit .anything x hs
    (lt_of_le_of_lt hx.divisions_le hn)
  have hv : ∀ ρ, Consistent ρ → v ρ = diff.eval ρ := fun ρ hρ => by
    rw [hhas.eval_eq, hw ρ hρ, hx.eval_eq]
  rw [tryCompare, hdiff, some_bind_eq]
  cases hconst : diff.asIntImm with
  | some q =>
    refine ⟨_, rfl, fun hlt ρ hρ => ?_⟩
    rw [hv ρ hρ, IntExpr.eval_of_asIntImm hconst]
    by_contra hge
    by_cases hq : q = c
    · simp [hq] at hlt
    · have hgt : q > c := by omega
      simp [hq, hgt] at hlt
  | none =>
    refine ⟨_, rfl, fun hlt ρ hρ => ?_⟩
    rw [hv ρ hρ]
    by_cases hmin : (analyzer.constIntBound diff).minValue.any (· > c) = true
    · simp [hmin] at hlt
    · by_cases hmax : (analyzer.constIntBound diff).maxValue.any (· < c) = true
      · obtain ⟨q, hq, hqc⟩ := (any_eq_true _ _).mp hmax
        exact lt_of_le_of_lt (hsound.le_max diff q hq ρ hρ) (of_decide_eq_true hqc)
      · rw [if_neg hmin, if_neg hmax] at hlt
        split at hlt
        · cases hlt
        · split at hlt <;> cases hlt

/-! ## Divisions -/

theorem DivStep.simplifiable (h : DivStep g g') (hx : g.Expr x) : Simplifiable x := by
  cases h with
  | plain | positive hdm hle allowed => exact simplifiable_of_isDividend hx

theorem split_div_spec (hstep : DivStep g g') (ha : CanonicalExpr.Has g n v a) (hc : 0 < c)
    (mode : DivMode) :
    Yields Consistent g' (n + 1) (fun ρ => mode.div (v ρ) c) (do
      let split ← a.toSplitExpr
      (splitDivConst split c mode).map .split) := by
  obtain ⟨s, hs, hsHas⟩ := toSplitExpr_spec ha
  obtain ⟨r, hr, hrHas⟩ := splitDivConst_spec hstep hsHas hc mode
  rw [hs, some_bind_eq, hr]
  exact .of_has hrHas fun _ _ => rfl

theorem divTerm_spec (hsound : analyzer.Sound Consistent) (hstep : DivStep g g')
    (ha : CanonicalExpr.Has g n v a) (hc : 0 < c) (mode : DivMode) :
    Yields Consistent g' (n + 1) (fun ρ => mode.div (v ρ) c) (divTerm analyzer mode a c) := by
  obtain ⟨e, he, hhas⟩ := normalize_spec ha
  rw [divTerm, he, some_bind_eq]
  split_ifs with hbelow
  · refine .of_has (has_intImm fun _ => le_rfl) fun ρ hρ => ?_
    obtain ⟨h0, hlt⟩ := below_spec hsound hhas hbelow hρ
    rw [mode.div_eq_zero_of_lt h0 hlt]
  · exact split_div_spec hstep ha hc mode

/-- The divisor of a visited division. -/
theorem asIntImm_intImm (c : ℤ) : (intImm c).asIntImm = some c := rfl

/-- A division or a modulo by a constant, whose constants are folded first. -/
theorem visitDivision_spec {fold : Option (Option CanonicalExpr)} {op : ℤ → ℤ → ℤ}
    {node : IntExpr → IntExpr → IntExpr} {divConst : CanonicalExpr → ℤ → Option CanonicalExpr}
    (hfold : ∀ ρ, FoldsTo asIntImm .intImm (eval ρ) op a c fold)
    (hle : g.Le g') (ha : CanonicalExpr.Has g n v a) (hc : 0 < c) (hop : ∀ x, 0 ≤ x → 0 ≤ op x c)
    (hdiv : Yields Consistent g' (n + 1) (fun ρ => op (v ρ) c) (divConst a c)) :
    Yields Consistent g' (n + 1) (fun ρ => op (v ρ) c)
      (visitDivision fold node divConst a (.intImm c)) := by
  obtain ⟨o, rfl, hshape⟩ := hfold fun _ => 0
  cases o with
  | none =>
    have hfilter : (intImm c).asIntImm.filter (· > 0) = some c := by
      simp [asIntImm_intImm, hc]
    simpa [visitDivision, hfilter] using hdiv
  | some r =>
    have hval : ∀ ρ, r.eval ρ = op (v ρ) c := fun ρ => by
      obtain ⟨_, ⟨⟩, hshape'⟩ := hfold ρ
      rw [(hshape' r rfl).1, ha.eval_eq]
    rcases (hshape r rfl).2 with rfl | rfl | ⟨x, hx, rfl⟩
    · exact .of_has (hle.hasCanonical (ha.mono (Nat.le_succ n)))
        fun ρ _ => (ha.eval_eq ρ).symm.trans (hval ρ)
    · exact .of_has (has_intImm fun _ => le_rfl) fun ρ _ => hval ρ
    · exact .of_has (has_intImm fun hg => hop x
        (ha.nonneg_of_asIntImm hx (hle.positive hg))) fun ρ _ => hval ρ

section

variable (hsound : analyzer.Sound Consistent) (hvisit : Simplifies Consistent k visitExpr)
  (hstep : DivStep g g') (ha : CanonicalExpr.Has g n v a) (hn : n < k) (hc : 0 < c)

include hsound hvisit hstep ha hn hc

omit ha in
/-- The quotient of the rest is added to the quotient of the multiples. -/
theorem divRest_spec {n₁ n₂ : ℕ} {u t : (String → ℤ) → ℤ} (he : SumExpr.Has g n₁ u e)
    (hx : g.Has n₂ t x) (hle : n₁ + n₂ ≤ n) (mode : DivMode)
    (hdiv : ∀ ρ, Consistent ρ → u ρ + mode.div (t ρ) c = mode.div (v ρ) c)
    {P : CompareResult → Prop} [DecidablePred P]
    (hP : ∀ res, P res → res = .lt ∧ ∀ ρ, Consistent ρ → 0 ≤ t ρ) :
    Yields Consistent g' (n + 1) (fun ρ => mode.div (v ρ) c) (match x.asIntImm with
      | some b => some (.sum (e.addConst (mode.div b c)))
      | none => do
        if P (← tryCompare analyzer visitExpr x c) then some (.sum e)
        else do
          let split ← splitDivConst (.ofIndex x) c mode
          some (.sum (e.addSplit split 1))) := by
  cases hconst : x.asIntImm with
  | some b =>
    have hsum := he.addConst (c := mode.div b c) fun hg =>
      mode.div_nonneg (Grade.nonneg_of_asIntImm hx.expr hconst hg) hc
    refine .of_has (hstep.le.hasSum (hsum.mono (by omega : n₁ ≤ n + 1))) fun ρ hρ => ?_
    rw [← hdiv ρ hρ, ← hx.eval_eq, IntExpr.eval_of_asIntImm hconst]
  | none =>
    obtain ⟨res, hres, hlt⟩ := tryCompare_spec hsound hvisit hx
      (hstep.simplifiable hx.expr) (by omega : n₂ < k) (c := c)
    obtain ⟨s, hs, hok, hweight, heval⟩ := splitDivConst_spec hstep (has_ofIndex hx) hc mode
    simp only [hres, hs, some_bind_eq]
    split_ifs with hcmp
    · obtain ⟨heq, h0⟩ := hP res hcmp
      refine .of_has (hstep.le.hasSum (he.mono (by omega : n₁ ≤ n + 1))) fun ρ hρ => ?_
      rw [← hdiv ρ hρ, mode.div_eq_zero_of_lt (h0 ρ hρ) (hlt heq ρ hρ), add_zero]
    · have hsum := (hstep.le.hasSum he).addSplit hok (k := 1) fun _ => zero_le_one
      refine .of_has (hsum.mono (by omega)) fun ρ hρ => ?_
      rw [← hdiv ρ hρ, heval, mul_one]

theorem truncDivConst_spec : Yields Consistent g' (n + 1) (fun ρ => (v ρ).tdiv c)
      (truncDivConst analyzer visitExpr a c) := by
  unfold truncDivConst
  split
  · next psum =>
      obtain ⟨n₁, n₂, w, t, q, temp, hle, hv, hlhs, hq, hqHas, hextra, htemp, htempHas⟩ :=
        SumExpr.Has.parts ha hc
      obtain ⟨low, hlow, hlowHas⟩ := SumExpr.normalize_spec hlhs
      simp only [hq, hlow, htemp, some_bind_eq]
      by_cases hzero : (psum.separateDivisibleParts c).2.isZero = true
      · rw [if_pos hzero]
        refine .of_has (hstep.le.hasSum (hqHas.mono (by omega : n₁ ≤ n + 1))) fun ρ _ => ?_
        rw [← hv, hextra.eq_zero hzero, add_zero, Int.mul_tdiv_cancel _ hc.ne']
      split_ifs with hge
      · rw [Bool.and_eq_true] at hge
        have hnonneg := greaterEqual_spec hsound htempHas hge.2
        refine divRest_spec hsound hvisit hstep hn hc hqHas htempHas hle .truncDiv
          (fun ρ hρ => ?_) fun res h => ⟨h, hnonneg⟩
        have h₁ := greaterEqual_spec hsound hlowHas hge.1 ρ hρ
        rw [← hv]
        exact ((DivMode.trunc_add_div h₁ (hnonneg ρ hρ) (Dvd.intro_left _ rfl)).trans
          (by rw [Int.mul_tdiv_cancel _ hc.ne']; rfl)).symm
      · exact split_div_spec hstep ha hc .truncDiv
  · exact divTerm_spec hsound hstep ha hc .truncDiv

theorem floorDivConst_spec : Yields Consistent g' (n + 1) (fun ρ => (v ρ).fdiv c)
      (floorDivConst analyzer visitExpr a c) := by
  unfold floorDivConst
  split
  · next psum =>
      obtain ⟨n₁, n₂, w, t, q, temp, hle, hv, -, hq, hqHas, hextra, htemp, htempHas⟩ :=
        SumExpr.Has.parts ha hc
      have hdiv : ∀ ρ, w ρ + (t ρ).fdiv c = (v ρ).fdiv c := fun ρ => by
        rw [← hv, Int.add_fdiv_of_dvd_left (Dvd.intro_left _ rfl), Int.mul_fdiv_cancel _ hc.ne']
      simp only [hq, htemp, some_bind_eq]
      by_cases hzero : (psum.separateDivisibleParts c).2.isZero = true
      · rw [if_pos hzero]
        refine .of_has (hstep.le.hasSum (hqHas.mono (by omega : n₁ ≤ n + 1))) fun ρ _ => ?_
        rw [← hdiv, hextra.eq_zero hzero, Int.zero_fdiv, add_zero]
      rw [if_neg hzero]
      refine divRest_spec hsound hvisit hstep hn hc hqHas htempHas hle .floorDiv
        (fun ρ _ => hdiv ρ) fun res h => ?_
      rw [Bool.and_eq_true, decide_eq_true_eq] at h
      exact ⟨h.1, greaterEqual_spec hsound htempHas h.2⟩
  · exact divTerm_spec hsound hstep ha hc .floorDiv

theorem visitDiv_spec (mode : DivMode) : Yields Consistent g' (n + 1) (fun ρ => mode.div (v ρ) c)
      (visitDiv analyzer visitExpr mode a (.intImm c)) := by
  refine visitDivision_spec (fun ρ => tryConstFoldDiv_spec (eval ρ)
    eval_of_asIntImm (eval_intImm ρ) mode (asIntImm_intImm c) hc.ne')
    hstep.le ha hc (fun _ hx => mode.div_nonneg hx hc) ?_
  cases mode with
  | truncDiv => exact truncDivConst_spec hsound hvisit hstep ha hn hc
  | floorDiv => exact floorDivConst_spec hsound hvisit hstep ha hn hc

end

/-! ## Modulos -/

theorem ModStep.simplifiable (h : ModStep g g') (hx : g.Expr x) : Simplifiable x := by
  cases h with
  | plain | mods hle allowed | divs hle allowed => exact simplifiable_of_isDividend hx

theorem split_mod_spec (hvisit : Simplifies Consistent k visitExpr) (hstep : ModStep g g')
    (ha : CanonicalExpr.Has g n v a) (hn : n < k) (hc : 0 < c) (mode : DivMode) :
    Yields Consistent g' (n + 1) (fun ρ => mode.mod (v ρ) c) (do
      let split ← a.toSplitExpr
      (splitModConst visitExpr split c mode).map .split) := by
  obtain ⟨s, hs, hsHas⟩ := toSplitExpr_spec ha
  obtain ⟨r, w, hr, hrHas, hw⟩ := splitModConst_spec hstep hvisit hsHas hn hc mode
  rw [hs, some_bind_eq, hr]
  exact .of_has hrHas hw

variable {o : Option CanonicalExpr} {p q : IntExpr} {mode : DivMode}

theorem Yields.congr (h : Yields Consistent g n v o)
    (hv : ∀ ρ, Consistent ρ → v ρ = w ρ) : Yields Consistent g n w o := by
  obtain ⟨r, u, hr, hhas, hu⟩ := h
  exact ⟨r, u, hr, hhas, fun ρ hρ => (hu ρ hρ).trans (hv ρ hρ)⟩

theorem Yields.mono (h : Yields Consistent g n v o) (hn : n ≤ k) :
    Yields Consistent g k v o := by
  obtain ⟨r, u, hr, hhas, hu⟩ := h
  exact ⟨r, u, hr, hhas.mono hn, hu⟩

theorem has_withBase (h : SumExpr.Has g n v e) {b : ℤ} (hb : g.positive = true → 0 ≤ b) :
    SumExpr.Has g n (fun ρ => v ρ - e.base + b) { e with base := b } :=
  ⟨h.ok, hb, h.weight_le, fun ρ => by rw [← h.eval_eq, SumExpr.eval, SumExpr.eval]; ring⟩

theorem truncModSum_spec (hsound : analyzer.Sound Consistent)
    (hvisit : Simplifies Consistent k visitExpr) (hstep : ModStep g g')
    (he : SumExpr.Has g n v e) (hn : n < k) (hc : 0 < c) :
    Yields Consistent g' (n + 1) (fun ρ => (v ρ).tmod c)
      (truncModSum analyzer visitExpr e c) := by
  obtain ⟨x, hx, hhas⟩ := SumExpr.normalize_spec he
  rw [truncModSum, hx, some_bind_eq]
  simp only
  split
  · next hany =>
      obtain ⟨lo, hlo, hlo0⟩ := (any_eq_true _ _).mp hany
      simp only [Bool.and_eq_true, decide_eq_true_eq] at hlo0
      have hbase := has_withBase he (b := e.base.tmod c) fun hg =>
        Int.tmod_nonneg _ (he.base_nonneg hg)
      refine (split_mod_spec (a := .sum _) hvisit hstep hbase hn hc .truncDiv).congr
        fun ρ hρ => ?_
      have hmin := hsound.min_le x lo hlo ρ hρ
      rw [hhas.eval_eq] at hmin
      refine DivMode.trunc_mod_congr (by omega) (by omega) ?_
      rw [show v ρ - e.base + e.base.tmod c - v ρ = e.base.tmod c - e.base by ring]
      exact DivMode.truncDiv.dvd_mod_sub e.base c
  · exact split_mod_spec (a := .sum e) hvisit hstep he hn hc .truncDiv

section

variable (hsound : analyzer.Sound Consistent) (hvisit : Simplifies Consistent k visitExpr)
  (hstep : ModStep g g') (ha : CanonicalExpr.Has g n v a) (hn : n < k) (hc : 0 < c)

include hsound hvisit hstep ha hn hc

theorem modTerm_spec (mode : DivMode) : Yields Consistent g' (n + 1) (fun ρ => mode.mod (v ρ) c)
      (modTerm analyzer visitExpr mode a c) := by
  obtain ⟨e, he, hhas⟩ := normalize_spec ha
  rw [modTerm, he, some_bind_eq]
  split_ifs with hbelow
  · refine .of_has (hstep.le.hasCanonical (ha.mono (Nat.le_succ n))) fun ρ hρ => ?_
    obtain ⟨h0, hlt⟩ := below_spec hsound hhas hbelow hρ
    rw [mode.mod_eq_of_lt h0 hlt]
  · exact split_mod_spec hvisit hstep ha hn hc mode

omit ha hn hc in
/-- The remainder of the rest is the remainder of the sum. -/
theorem modRest_spec {t : (String → ℤ) → ℤ} (hx : g.Has n t x) (hn : n < k) (mode : DivMode)
    {P : CompareResult → Prop} [DecidablePred P]
    (hP : ∀ res, P res → res = .lt ∧ ∀ ρ, Consistent ρ → 0 ≤ t ρ)
    (ho : Yields Consistent g' (n + 1) (fun ρ => mode.mod (t ρ) c) o)
    (hconst : ∀ b, x.asIntImm = some b → g'.positive = true → 0 ≤ mode.mod b c) :
    Yields Consistent g' (n + 1) (fun ρ => mode.mod (t ρ) c) (match x.asIntImm with
      | some b => some (.intImm (mode.mod b c))
      | none => do
        if P (← tryCompare analyzer visitExpr x c) then some (.expr x) else o) := by
  cases hb : x.asIntImm with
  | some b =>
    refine .of_has (has_intImm (hconst b hb)) fun ρ hρ => ?_
    rw [← hx.eval_eq, IntExpr.eval_of_asIntImm hb]
  | none =>
    obtain ⟨res, hres, hlt⟩ := tryCompare_spec hsound hvisit hx
      (hstep.simplifiable hx.expr) hn (c := c)
    simp only [hres, some_bind_eq]
    split_ifs with hcmp
    · obtain ⟨heq, h0⟩ := hP res hcmp
      refine .of_has (r := .expr x) (hstep.le.has (hx.mono (Nat.le_succ n))) fun ρ hρ => ?_
      rw [mode.mod_eq_of_lt (h0 ρ hρ) (hlt heq ρ hρ)]
    · exact ho

theorem truncModConst_spec : Yields Consistent g' (n + 1) (fun ρ => (v ρ).tmod c)
      (truncModConst analyzer visitExpr a c) := by
  unfold truncModConst
  split
  · next psum =>
      obtain ⟨n₁, n₂, w, t, -, temp, hle, hv, hlhs, -, -, hextra, htemp, htempHas⟩ :=
        SumExpr.Has.parts ha hc
      obtain ⟨low, hlow, hlowHas⟩ := SumExpr.normalize_spec hlhs
      simp only [hlow, htemp, some_bind_eq]
      by_cases hzero : (psum.separateDivisibleParts c).2.isZero = true
      · rw [if_pos hzero]
        refine .of_has (has_intImm fun _ => le_rfl) fun ρ _ => ?_
        rw [← hv, hextra.eq_zero hzero, add_zero, Int.mul_tmod_left]
      split_ifs with hge
      · rw [Bool.and_eq_true] at hge
        have hnonneg := greaterEqual_spec hsound htempHas hge.2
        refine ((modRest_spec hsound hvisit hstep htempHas (by omega) .truncDiv
          (fun res h => ⟨h, hnonneg⟩) (truncModSum_spec hsound hvisit hstep hextra (by omega) hc)
          fun b hb hg => Int.tmod_nonneg _
            (Grade.nonneg_of_asIntImm (hstep.le.expr htempHas.expr) hb hg)).mono
          (by omega)).congr fun ρ hρ => ?_
        have h₁ := greaterEqual_spec hsound hlowHas hge.1 ρ hρ
        have h₂ := hnonneg ρ hρ
        refine DivMode.trunc_mod_congr h₂ (by rw [← hv]; omega) ⟨-w ρ, ?_⟩
        rw [← hv]
        ring
      · exact truncModSum_spec hsound hvisit hstep ha hn hc
  · exact modTerm_spec hsound hvisit hstep ha hn hc .truncDiv

theorem floorModConst_spec : Yields Consistent g' (n + 1) (fun ρ => (v ρ).fmod c)
      (floorModConst analyzer visitExpr a c) := by
  unfold floorModConst
  split
  · next psum =>
      obtain ⟨n₁, n₂, w, t, -, temp, hle, hv, -, -, -, hextra, htemp, htempHas⟩ :=
        SumExpr.Has.parts ha hc
      simp only [htemp, some_bind_eq]
      have hbase := has_withBase hextra (b := (psum.separateDivisibleParts c).2.base.fmod c)
        fun _ => Int.fmod_nonneg_of_pos _ hc
      have hsplit := split_mod_spec (a := .sum _) hvisit hstep hbase (by omega) hc .floorDiv
      refine ((modRest_spec hsound hvisit hstep htempHas (by omega) .floorDiv (fun res h => ?_)
        (hsplit.congr fun ρ _ => DivMode.floor_sub_add_mod _ _ c)
        fun b _ _ => Int.fmod_nonneg_of_pos b hc).mono (by omega)).congr fun ρ _ => ?_
      · rw [Bool.and_eq_true, decide_eq_true_eq] at h
        exact ⟨h.1, greaterEqual_spec hsound htempHas h.2⟩
      · rw [← hv]
        exact (DivMode.floor_add_mod (Dvd.intro_left _ rfl)).symm
  · exact modTerm_spec hsound hvisit hstep ha hn hc .floorDiv

theorem visitMod_spec (mode : DivMode) : Yields Consistent g' (n + 1) (fun ρ => mode.mod (v ρ) c)
      (visitMod analyzer visitExpr mode a (.intImm c)) := by
  refine visitDivision_spec (fun ρ => tryConstFoldMod_spec (eval ρ)
    eval_of_asIntImm (eval_intImm ρ) mode (asIntImm_intImm c) hc.ne')
    hstep.le ha hc (fun _ hx => mode.mod_nonneg hx hc) ?_
  cases mode with
  | truncDiv => exact truncModConst_spec hsound hvisit hstep ha hn hc
  | floorDiv => exact floorModConst_spec hsound hvisit hstep ha hn hc

end

/-! ## Visiting an expression -/

theorem exists_divStep (h : g.Simplifiable (.div mode p q)) :
    ∃ g₀, DivStep g₀ g ∧ g₀.Simplifiable p ∧ IsPosConst q := by
  cases g with
  | anything =>
    rcases h.2 with hp | hp
    · exact ⟨_, .plain, hp, h.1⟩
    · exact ⟨_, .positive rfl (.anything _) fun _ _ _ _ _ h => Grade.noConfusion h, hp, h.1⟩
  | dividend d m p =>
    obtain ⟨rfl, hp, hq⟩ := h
    refine ⟨_, .positive rfl (.dividend id id id rfl) fun l hl d m p h => ?_, hp, hq⟩
    cases h
    exact ⟨rfl, hl⟩

theorem exists_modStep (h : g.Simplifiable (.mod mode p q)) :
    ∃ g₀, ModStep g₀ g ∧ g₀.Simplifiable p ∧ IsPosConst q := by
  cases g with
  | anything =>
    rcases h.2 with hp | hp | hp
    · exact ⟨_, .plain, hp, h.1⟩
    · exact ⟨_, .mods (.anything _) fun _ _ _ _ _ _ _ h => Grade.noConfusion h, hp, h.1⟩
    · exact ⟨_, .divs (.anything _) fun _ _ _ _ _ _ _ h => Grade.noConfusion h, hp, h.1⟩
  | dividend d m p =>
    obtain ⟨rfl, hq, hp | ⟨rfl, hp⟩⟩ := h
    · refine ⟨_, .mods (.dividend (fun h => absurd h Bool.false_ne_true) id id rfl)
        fun e u he hu d m p h => ?_, hp, hq⟩
      cases h
      exact ⟨rfl, hu, .inl he⟩
    · refine ⟨_, .divs (.dividend id (fun h => absurd h Bool.false_ne_true) id rfl)
        fun e u he hu d m p h => ?_, hp, hq⟩
      cases h
      exact ⟨rfl, hu, .inr ⟨rfl, he⟩⟩

/-- **One visit of the simplifier keeps the value.** -/
theorem canonicalMutate_spec (hsound : analyzer.Sound Consistent)
    (hvisit : Simplifies Consistent k visitExpr) {e : IntExpr} (he : g.Simplifiable e)
    (hk : divisions e ≤ k) :
    Yields Consistent g (divisions e) (e.eval ·) (canonicalMutate analyzer visitExpr e) := by
  induction e generalizing g with
  | intImm c =>
    refine .of_has (has_intImm fun hg => ?_) fun _ _ => rfl
    cases g with
    | anything => cases hg
    | dividend d m p => exact he hg
  | var y =>
    refine .of_has ⟨?_, le_rfl, fun _ => rfl⟩
      fun _ _ => rfl
    cases g <;> trivial
  | add p q ihp ihq =>
    obtain ⟨hp, hq⟩ : g.Simplifiable p ∧ g.Simplifiable q := by cases g <;> exact he
    simp only [divisions] at hk
    obtain ⟨a, v, ha, haHas, hv⟩ := ihp hp (by omega)
    obtain ⟨b, w, hb, hbHas, hw⟩ := ihq hq (by omega)
    rw [canonicalMutate, ha, hb]
    refine .of_has (haHas.add hbHas) fun ρ hρ => ?_
    rw [hv ρ hρ, hw ρ hρ, IntExpr.eval]
  | sub p q ihp ihq =>
    obtain ⟨hp, hq, hconst⟩ : g.Simplifiable p ∧ g.Simplifiable q ∧
        (g.signed = false → g.positive = false ∧ ∃ c, q = .intImm c) := by
      cases g with
      | anything => exact ⟨he.1, he.2, by simp [Grade.signed]⟩
      | dividend d m p => exact ⟨he.1, he.2.1, fun h =>
          he.2.2 (Grade.signed_dividend_eq_false.mp h)⟩
    simp only [divisions] at hk
    obtain ⟨a, v, ha, haHas, hv⟩ := ihp hp (by omega)
    obtain ⟨b, w, hb, hbHas, hw⟩ := ihq hq (by omega)
    rw [canonicalMutate, ha, hb]
    refine .of_has (haHas.sub hbHas fun hs => ?_) fun ρ hρ => ?_
    · obtain ⟨hpos, c, rfl⟩ := hconst hs
      exact ⟨hpos, c, (some.inj hb).symm⟩
    · rw [hv ρ hρ, hw ρ hρ, IntExpr.eval]
  | mul p q ihp ihq =>
    simp only [divisions] at hk
    -- the product in a grade in which one can be taken
    suffices hmul : ∀ g₀ : Grade, g₀.Simplifiable p → g₀.Simplifiable q →
        (g₀.signed = false → g₀.positive = true ∨ IsNonnegConst p ∨ IsNonnegConst q) →
        Yields Consistent g₀ (divisions p + divisions q) ((IntExpr.mul p q).eval ·)
          (canonicalMutate analyzer visitExpr (.mul p q)) by
      cases g with
      | anything => exact hmul _ he.1 he.2 (by simp [Grade.signed])
      | dividend d m pos =>
        by_cases hs : (d || m || pos) = true
        · rcases he.2.2 hs with h | h | h
          · exact hmul _ he.1 he.2.1 fun _ => .inr (.inl h)
          · exact hmul _ he.1 he.2.1 fun _ => .inr (.inr h)
          · obtain ⟨r, w, hr, hrHas, hw⟩ := hmul (.dividend d m true) h.1 h.2
              fun _ => .inl rfl
            exact ⟨r, w, hr, (Grade.Le.dividend id id (fun _ => rfl)
              (Bool.or_true _)).hasCanonical hrHas, hw⟩
        · exact hmul _ he.1 he.2.1 fun hf => absurd (Grade.signed_dividend_eq_false.mp hf) hs
    intro g₀ hp hq hpos
    obtain ⟨a, v, ha, haHas, hv⟩ := ihp hp (by omega)
    obtain ⟨b, w, hb, hbHas, hw⟩ := ihq hq (by omega)
    have hconst : g₀.signed = false → g₀.positive = true ∨
        (∃ c, a = .intImm c ∧ 0 ≤ c) ∨ ∃ c, b = .intImm c ∧ 0 ≤ c := by
      intro hs
      rcases hpos hs with h | ⟨c, rfl, h0⟩ | ⟨c, rfl, h0⟩
      · exact .inl h
      · exact .inr (.inl ⟨c, (some.inj ha).symm, h0⟩)
      · exact .inr (.inr ⟨c, (some.inj hb).symm, h0⟩)
    obtain ⟨r, hr, hrHas⟩ := haHas.mul hbHas hconst
    rw [canonicalMutate, ha, hb, some_bind_eq, some_bind_eq, hr]
    refine .of_has hrHas fun ρ hρ => ?_
    rw [hv ρ hρ, hw ρ hρ, IntExpr.eval]
  | div mode p q ihp ihq =>
    obtain ⟨g₀, hstep, hp, c, rfl, hc⟩ := exists_divStep he
    simp only [divisions, add_zero] at hk ⊢
    obtain ⟨a, v, ha, haHas, hv⟩ := ihp hp (by omega)
    rw [canonicalMutate, ha]
    refine (visitDiv_spec hsound hvisit hstep haHas hk hc mode).congr fun ρ hρ => ?_
    rw [hv ρ hρ, IntExpr.eval, IntExpr.eval]
  | mod mode p q ihp ihq =>
    obtain ⟨g₀, hstep, hp, c, rfl, hc⟩ := exists_modStep he
    simp only [divisions, add_zero] at hk ⊢
    obtain ⟨a, v, ha, haHas, hv⟩ := ihp hp (by omega)
    rw [canonicalMutate, ha]
    refine (visitMod_spec hsound hvisit hstep haHas hk hc mode).congr fun ρ hρ => ?_
    rw [hv ρ hρ, IntExpr.eval, IntExpr.eval]

/-- The recursive calls end, since every one of them has fewer divisions. -/
theorem canonicalSimplify_simplifies (hsound : analyzer.Sound Consistent) (fuel : ℕ) :
    Simplifies Consistent fuel (canonicalSimplify analyzer fuel) := by
  induction fuel with
  | zero => exact fun g e _ h => absurd h (Nat.not_lt_zero _)
  | succ fuel ih =>
    intro g e he hlt
    obtain ⟨r, w, hr, hrHas, hw⟩ := canonicalMutate_spec hsound ih he (Nat.le_of_lt_succ hlt)
    obtain ⟨e', he', hhas⟩ := normalize_spec hrHas
    refine ⟨e', w, ?_, hhas, hw⟩
    rw [canonicalSimplify, hr, some_bind_eq, he']

end

/-- The result has no more divisions than the expression. -/
theorem divisions_canonicalSimplify_le {analyzer : BoundQueries} {Consistent : (String → ℤ) → Prop}
    (hsound : analyzer.Sound Consistent) {e e' : IntExpr} (he : Simplifiable e) {fuel : ℕ}
    (hfuel : divisions e < fuel) (h : canonicalSimplify analyzer fuel e = some e') :
    divisions e' ≤ divisions e := by
  obtain ⟨r, w, hr, hhas, -⟩ := canonicalSimplify_simplifies hsound fuel .anything e he hfuel
  cases h.symm.trans hr
  exact hhas.divisions_le

/-- The bounds of a loop variable below 16. -/
def loopBounds : BoundQueries where
  constIntBound e := if e = .var "x" then ⟨some 0, some 15⟩ else ⟨none, none⟩
  canProveGreaterEqual e c := e = .var "x" && c ≤ 0

theorem loopBounds_sound : loopBounds.Sound fun ρ => 0 ≤ ρ "x" ∧ ρ "x" ≤ 15 := by
  refine ⟨fun e m hm ρ hρ => ?_, fun e m hm ρ hρ => ?_, fun e c hc ρ hρ => ?_⟩
  · by_cases he : e = .var "x"
    · have hm : 0 = m := by simpa [loopBounds, he] using hm
      rw [he, ← hm]
      exact hρ.1
    · simp [loopBounds, he] at hm
  · by_cases he : e = .var "x"
    · have hm : 15 = m := by simpa [loopBounds, he] using hm
      rw [he, ← hm]
      exact hρ.2
    · simp [loopBounds, he] at hm
  · simp only [loopBounds, Bool.and_eq_true, decide_eq_true_eq] at hc
    rw [hc.1]
    exact le_trans hc.2 hρ.1

/-- An analyzer that knows no bounds. -/
def noBounds : BoundQueries where
  constIntBound _ := ⟨none, none⟩
  canProveGreaterEqual _ _ := false

theorem noBounds_sound : noBounds.Sound fun _ => True :=
  ⟨by simp [noBounds], by simp [noBounds], by simp [noBounds]⟩

/-- `floormod(floormod(x, 2) * -1, 4)`. -/
def negatedModulo : IntExpr :=
  .mod .floorDiv (.mul (.mod .floorDiv (.var "x") (.intImm 2)) (.intImm (-1))) (.intImm 4)

/-- `floormod(floordiv(floormod(x, 16), 2) * 2, 4)`. -/
def dividedModulo : IntExpr :=
  .mod .floorDiv (.mul (.div .floorDiv (.mod .floorDiv (.var "x") (.intImm 16)) (.intImm 2))
    (.intImm 2)) (.intImm 4)

end Pruner.Arith
