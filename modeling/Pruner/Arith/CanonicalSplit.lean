import Pruner.Arith.CanonicalSum

/-!
# Dividing splits

`SplitDivConst` and `SplitModConst` divide a split.  They keep the value when the split has
no factors yet, so that only the scale can be negative; and when all of its factors are
positive, with a modulo or a division only in the case of `SplitModConst`.

## Main definitions

* `Grade.Le` — a grade that says less.
* `DivStep`, `ModStep` — the grades of a dividend, and of what it is divided into.
* `Simplifies` — what the recursive calls of the simplifier do.
* `splitDivConst_spec`, `splitModConst_spec` — dividing splits keeps the value.
-/

namespace Pruner.Arith

open SplitExpr Grade

open Lib (DivMode)

variable {e : IntExpr} {u : ℤ} {g g' : Grade} {n : ℕ} {v : (String → ℤ) → ℤ}

/-! ## Grades that say less -/

theorem IsDividend.mono {d m p d' m' p' : Bool} (hd : d = true → d' = true)
    (hm : m = true → m' = true) (hp : p' = true → p = true) (hdm : (d || m || p) = true)
    (h : IsDividend d m p e) : IsDividend d' m' p' e := by
  induction e generalizing d m p d' m' p' with
  | intImm c => exact fun hp' => h (hp hp')
  | var x => trivial
  | add a b iha ihb => exact ⟨iha hd hm hp hdm h.1, ihb hd hm hp hdm h.2⟩
  | mul a b iha ihb =>
    have hstrict : (d || m || true) = true := Bool.or_true _
    exact ⟨iha hd hm hp hdm h.1, ihb hd hm hp hdm h.2.1, fun _ => (h.2.2 hdm).imp_right <|
      Or.imp_right fun h => ⟨iha hd hm id hstrict h.1, ihb hd hm id hstrict h.2⟩⟩
  | sub a b iha ihb =>
    obtain ⟨rfl, hb⟩ := h.2.2 hdm
    exact ⟨iha hd hm hp hdm h.1, ihb hd hm hp hdm h.2.1, fun _ =>
      ⟨Bool.eq_false_iff.mpr fun h => Bool.false_ne_true (hp h), hb⟩⟩
  | div mode a b iha ihb => exact ⟨hd h.1, iha hd hm hp hdm h.2.1, h.2.2⟩
  | mod mode a b iha ihb =>
    refine ⟨hm h.1, h.2.1, h.2.2.imp (iha id id hp rfl) fun h => ⟨hd h.1, iha id id hp rfl h.2⟩⟩

namespace Grade

/-- The second grade says less. -/
inductive Le : Grade → Grade → Prop where
  | anything (g : Grade) : Le g anything
  | dividend {d m p d' m' p' : Bool} (hd : d = true → d' = true) (hm : m = true → m' = true)
      (hp : p' = true → p = true) (hdm : (d || m || p) = true) :
      Le (dividend d m p) (dividend d' m' p')

variable (h : Le g g')
include h

theorem Le.expr (he : g.Expr e) : g'.Expr e := by
  cases h with
  | anything => trivial
  | dividend hd hm hp hdm => exact IsDividend.mono hd hm hp hdm he

theorem Le.signed (hg : g'.signed = false) : g.signed = false := by
  cases h with
  | anything => simp [signed] at hg
  | dividend hd hm hp hdm => exact signed_dividend_eq_false.mpr hdm

theorem Le.positive (hg : g'.positive = true) : g.positive = true := by
  cases h with
  | anything => cases hg
  | dividend hd hm hp hdm => exact hp hg

theorem Le.allowsDiv {l : ℤ} (hl : g.AllowsDiv l) : g'.AllowsDiv l := by
  rintro d' m' p' rfl
  cases h with
  | dividend hd hm hp hdm => exact (hl _ _ _ rfl).imp_left hd

theorem Le.allowsMod (hu : g.AllowsMod e u) : g'.AllowsMod e u := by
  rintro d' m' p' rfl
  cases h with
  | dividend hd hm hp hdm =>
    obtain ⟨h1, h2, h3⟩ := hu _ _ _ rfl
    exact ⟨hm h1, h2, h3.imp (IsDividend.mono id id hp rfl) fun h =>
      ⟨hd h.1, h.2.mono id id hp rfl⟩⟩

theorem Le.has (he : g.Has n v e) : g'.Has n v e := ⟨h.expr he.expr, he.divisions_le, he.eval_eq⟩

theorem Le.ok {s : SplitExpr} (hs : s.Ok g) : s.Ok g' :=
  ⟨h.expr hs.index, hs.lower_ne, hs.upper, fun hl => h.allowsDiv (hs.lower_allowed hl),
    fun u hu => h.allowsMod (hs.upper_allowed u hu), fun hg => hs.scale_nonneg (h.signed hg)⟩

theorem Le.hasSum {e : SumExpr} (he : SumExpr.Has g n v e) : SumExpr.Has g' n v e :=
  ⟨fun arg harg => h.ok (he.ok arg harg), fun hg => he.base_nonneg (h.positive hg), he.weight_le,
    he.eval_eq⟩

theorem Le.hasCanonical {a : CanonicalExpr} (ha : a.Has g n v) : a.Has g' n v := by
  cases a with
  | expr e => exact h.has ha
  | split s => exact ⟨h.ok ha.1, ha.2⟩
  | sum e => exact h.hasSum ha

end Grade

/-! ## Changing the division mode -/

variable {s : SplitExpr} {c : ℤ}

theorem has_ofIndex_withMode (h : g.Has n v e) (mode : DivMode) :
    CanonicalExpr.Has g n v (.split { ofIndex e with divMode := mode }) := by
  obtain ⟨hok, hweight, -⟩ := CanonicalExpr.has_ofIndex h
  refine ⟨⟨hok.index, hok.lower_ne, hok.upper, hok.lower_allowed, hok.upper_allowed,
    hok.scale_nonneg⟩, hweight, fun ρ => ?_⟩
  simp [eval, digit, ofIndex, h.eval_eq]

theorem convertDivMode_spec (h : CanonicalExpr.Has g n v (.split s)) (mode : DivMode) :
    ∃ r, convertDivMode s mode = some r ∧ r.divMode = mode ∧
      CanonicalExpr.Has g n v (.split r) := by
  unfold convertDivMode
  split
  · next hmode => exact ⟨s, rfl, hmode, h⟩
  · split
    · next hcomp =>
        refine ⟨_, rfl, rfl, ⟨h.1.index, h.1.lower_ne, h.1.upper, h.1.lower_allowed,
          h.1.upper_allowed, h.1.scale_nonneg⟩, h.2.1, fun ρ => ?_⟩
        rw [← h.2.2 ρ, eval, eval, digit_of_compatible hcomp]
    · obtain ⟨e, he, hhas⟩ := CanonicalExpr.normalize_spec h
      refine ⟨_, by rw [show s.normalize = some e from he]; rfl, rfl,
        has_ofIndex_withMode hhas mode⟩

/-! ## Divisions -/

/-- The grade of a dividend, and of what it is divided into. -/
inductive DivStep : Grade → Grade → Prop where
  | plain : DivStep (.dividend false false false) .anything
  | positive {d m p : Bool} {g' : Grade} (hdm : (d || m || p) = true)
      (hle : (dividend d m p).Le g') (allowed : ∀ l, 0 < l → g'.AllowsDiv l) :
      DivStep (.dividend d m p) g'

theorem DivStep.le (h : DivStep g g') : g.Le g' := by
  cases h with
  | plain => exact .anything _
  | positive hdm hle allowed => exact hle

theorem SplitExpr.Ok.lowerFactor_eq {m p : Bool} (hs : s.Ok (.dividend false m p)) :
    s.lowerFactor = 1 := by
  by_contra hl
  exact absurd (hs.lower_allowed hl _ _ _ rfl).1 Bool.false_ne_true

theorem SplitExpr.Ok.upperFactor_eq {d p : Bool} (hs : s.Ok (.dividend d false p)) :
    s.upperFactor = none := by
  cases hu : s.upperFactor with
  | none => rfl
  | some u => exact absurd (hs.upper_allowed u hu _ _ _ rfl).1 Bool.false_ne_true

theorem SplitExpr.Ok.lowerFactor_pos (hs : s.Ok g) (hg : g.signed = false) : 0 < s.lowerFactor := by
  by_cases hl : s.lowerFactor = 1
  · rw [hl]
    exact one_pos
  · exact (hs.lower_allowed hl).pos hg

theorem DivStep.factors (h : DivStep g g') (hs : s.Ok g) :
    (g' = .anything ∧ s.lowerFactor = 1 ∧ s.upperFactor = none) ∨
      ((∀ l, 0 < l → g'.AllowsDiv l) ∧ 0 ≤ s.scale ∧ 0 < s.lowerFactor ∧
        ∀ u, s.upperFactor = some u → 0 < u) := by
  cases h with
  | plain => exact .inl ⟨rfl, hs.lowerFactor_eq, hs.upperFactor_eq⟩
  | positive hdm hle allowed =>
    have hg := signed_dividend_eq_false.mpr hdm
    exact .inr ⟨allowed, hs.scale_nonneg hg, hs.lowerFactor_pos hg,
      fun u hu => (hs.upper_allowed u hu).pos hg⟩

theorem DivStep.allowsDiv (h : DivStep g g') {l : ℤ} (hl : 0 < l) : g'.AllowsDiv l := by
  cases h with
  | plain => exact fun d m p h => Grade.noConfusion h
  | positive hdm hle allowed => exact allowed l hl

theorem has_withLower (hs : s.Ok g) (hn : s.weight ≤ n) {lower : ℤ} (hne : lower ≠ 0)
    (hallowed : g.AllowsDiv lower) {upper : Option ℤ} (hupper : s.upperFactor = upper)
    (hdvd : ∀ u, upper = some u → lower ∣ u) :
    CanonicalExpr.Has g (n + 1) (digit · { s with lowerFactor := lower })
      (.split { s with scale := 1, lowerFactor := lower, upperFactor := upper }) := by
  subst hupper
  refine ⟨⟨hs.index, hne, fun u hu => ⟨(hs.upper u hu).1, hdvd u hu⟩, fun _ => hallowed,
    hs.upper_allowed, fun _ => zero_le_one⟩, ?_, fun ρ => mul_one _⟩
  refine le_trans ?_ (Nat.succ_le_succ hn)
  simp only [weight]
  split <;> split <;> omega

/-- An expression that is divided as a whole. -/
theorem has_dividedIndex (h : g.Has n v e) (hc : 0 < c) (hallowed : g.AllowsDiv c)
    (mode : DivMode) : CanonicalExpr.Has g (n + 1) (fun ρ => mode.div (v ρ) c)
      (.split { ofIndex e with lowerFactor := c, divMode := mode }) := by
  obtain ⟨hok, hweight, -⟩ := has_ofIndex_withMode h mode
  refine (has_withLower hok hweight hc.ne' hallowed rfl nofun).congr fun ρ => ?_
  simp [digit, ofIndex, h.eval_eq]

/-- **Dividing a split keeps the value.** -/
theorem splitDivConst_spec (hstep : DivStep g g') (h : CanonicalExpr.Has g n v (.split s))
    (hc : 0 < c) (mode : DivMode) :
    ∃ r, splitDivConst s c mode = some r ∧
      CanonicalExpr.Has g' (n + 1) (fun ρ => mode.div (v ρ) c) (.split r) := by
  obtain ⟨lhs, hlhs, hmode, hok, hweight, heval⟩ := convertDivMode_spec h mode
  rw [splitDivConst, if_neg (not_le.mpr hc), hlhs]
  simp only [Option.bind_eq_bind, Option.bind_some]
  by_cases hsc : lhs.scale.tmod c = 0
  · rw [if_pos hsc]
    refine ⟨_, rfl, (hstep.le.ok hok).withScale fun hg => ?_, hweight.trans (Nat.le_succ n),
      fun ρ => ?_⟩
    · exact Int.tdiv_nonneg (hok.scale_nonneg (hstep.le.signed hg)) hc.le
    · show _ = mode.div (v ρ) c
      rw [eval_withScale (lhs.scale.tdiv c), ← heval, eval,
        mode.mul_div_of_dvd _ hc.ne' (Int.dvd_of_tmod_eq_zero hsc)]
  rw [if_neg hsc]
  have hs0 : lhs.scale ≠ 0 := fun h0 => hsc (by rw [h0, Int.zero_tmod])
  by_cases hcs : c.tmod lhs.scale = 0
  · rw [if_pos hcs]
    obtain ⟨k, hk⟩ := Int.dvd_of_tmod_eq_zero hcs
    have hquot : c.tdiv lhs.scale = k := by rw [hk, Int.mul_tdiv_cancel_left k hs0]
    have hk0 : k ≠ 0 := fun h0 => hc.ne' (by rw [hk, h0, mul_zero])
    have hcancel : ∀ t, mode.div (t * lhs.scale) c = mode.div t k := fun t => by
      rw [hk, mul_comm lhs.scale, mode.mul_div_mul _ _ hs0]
    simp only [hquot]
    rcases hstep.factors hok with ⟨rfl, hl, hu⟩ | ⟨hallowed, hs, hl, hu⟩
    · have hne : lhs.lowerFactor * k ≠ 0 := by rwa [hl, one_mul]
      rw [hu]
      refine ⟨_, rfl, (has_withLower (hstep.le.ok hok) hweight hne
        (fun d m p h => Grade.noConfusion h) hu (by simp)).congr fun ρ => ?_⟩
      rw [← heval, eval, hcancel]
      simp [digit, hl, hu, hmode]
    · have hk : 0 < k := Int.pos_of_mul_pos_right (hk ▸ hc) (lt_of_le_of_ne hs hs0.symm)
      have hlk := mul_pos hl hk
      have hdigit : ∀ t, mode.div (mode.div t lhs.lowerFactor * lhs.scale) c =
          mode.div t (lhs.lowerFactor * k) := fun t => by rw [hcancel, mode.div_div t hl hk]
      have hlower := fun {upper} (h : lhs.upperFactor = upper) =>
        has_withLower (hstep.le.ok hok) hweight hlk.ne' (hallowed _ hlk) h
      cases hup : lhs.upperFactor with
      | none =>
        refine ⟨_, rfl, (hlower hup (by simp)).congr fun ρ => ?_⟩
        rw [← heval, eval, digit, digit, hmode, hup, ← hdigit]
      | some u =>
        have hv : ∀ ρ, mode.div (v ρ) c =
            mode.div (mode.mod (lhs.index.eval ρ) u) (lhs.lowerFactor * k) := fun ρ => by
          rw [← heval, eval, digit, hmode, hup, ← hdigit]
        by_cases hdvd : u.tmod (lhs.lowerFactor * k) = 0
        · simp only [hdvd, if_true, verify, decide_true]
          refine ⟨_, rfl, (hlower hup fun u' hu' => ?_).congr fun ρ => ?_⟩
          · cases hu'
            exact Int.dvd_of_tmod_eq_zero hdvd
          · rw [hv, digit, hmode, hup]
        simp only [hdvd, if_false]
        by_cases hle : u ≤ lhs.lowerFactor * k
        · rw [if_pos hle]
          refine ⟨_, rfl, (CanonicalExpr.has_ofIndex (Grade.has_intImm
            fun _ => le_rfl)).congr fun ρ => ?_⟩
          rw [hv, mode.div_mod_eq_zero _ (hu u hup) hle]
        · rw [if_neg hle]
          have hindex : g'.Has (divisions lhs.index) (lhs.index.eval ·) lhs.index :=
            ⟨hstep.le.expr hok.index, le_rfl, fun _ => rfl⟩
          obtain ⟨r, hr, hhas⟩ := hindex.mod mode (hok.upper u hup).1
            (hstep.le.allowsMod (hok.upper_allowed u hup))
          have hle : divisions lhs.index + 1 ≤ n := by
            simp only [weight, hup, Option.isSome_some, if_true] at hweight
            omega
          rw [hr]
          exact ⟨_, rfl, (has_dividedIndex (hhas.mono hle) hlk (hallowed _ hlk) mode).congr
            fun ρ => (hv ρ).symm⟩
  · rw [if_neg hcs]
    have hlhsHas : CanonicalExpr.Has g n v (.split lhs) := ⟨hok, hweight, heval⟩
    obtain ⟨e, he, hhas⟩ := CanonicalExpr.normalize_spec hlhsHas
    exact ⟨_, by rw [show lhs.normalize = some e from he]; rfl,
      has_dividedIndex (hstep.le.has hhas) hc (hstep.allowsDiv hc) mode⟩

/-! ## Modulos -/

/-- The expressions that are simplified.  Every dividend without divisions is; one with
divisions has no negative multiples, and in a modulo it has divisions only or modulos only. -/
def Simplifiable : IntExpr → Prop
  | .intImm _ => True
  | .var _ => True
  | .add a b => Simplifiable a ∧ Simplifiable b
  | .sub a b => Simplifiable a ∧ Simplifiable b
  | .mul a b => Simplifiable a ∧ Simplifiable b
  | .div _ a b => IsPosConst b ∧ (IsDividend false false false a ∨ IsDividend true true false a)
  | .mod _ a b => IsPosConst b ∧ (IsDividend false false false a ∨
    IsDividend false true false a ∨ IsDividend true false false a)

/-- The expressions that are simplified within a grade. -/
def Grade.Simplifiable : Grade → IntExpr → Prop
  | anything, e => Arith.Simplifiable e
  | dividend d m p, e => IsDividend d m p e

/-- What the recursive calls of the simplifier do: expressions with fewer than `k` divisions
keep their value, their grade and their number of divisions. -/
def Simplifies (Consistent : (String → ℤ) → Prop) (k : ℕ) (visitExpr : IntExpr → Option IntExpr) :
    Prop :=
  ∀ (g : Grade) (e : IntExpr), g.Simplifiable e → divisions e < k →
    ∃ e' w, visitExpr e = some e' ∧ g.Has (divisions e) w e' ∧ ∀ ρ, Consistent ρ → w ρ = e.eval ρ

/-- The grade of the dividend of a modulo, and of the result. -/
inductive ModStep : Grade → Grade → Prop where
  | plain : ModStep (.dividend false false false) .anything
  | mods {p : Bool} {g' : Grade} (hle : (dividend false true p).Le g')
      (allowed : ∀ e u, IsDividend false true p e → 0 < u → g'.AllowsMod e u) :
      ModStep (.dividend false true p) g'
  | divs {p : Bool} {g' : Grade} (hle : (dividend true false p).Le g')
      (allowed : ∀ e u, IsDividend true false p e → 0 < u → g'.AllowsMod e u) :
      ModStep (.dividend true false p) g'

theorem ModStep.le (h : ModStep g g') : g.Le g' := by
  cases h with
  | plain => exact .anything _
  | mods hle allowed | divs hle allowed => exact hle

theorem ModStep.allowsMod (h : ModStep g g') (he : g.Expr e) (hu : 0 < u) : g'.AllowsMod e u := by
  cases h with
  | plain => exact fun d m p h => Grade.noConfusion h
  | mods hle allowed | divs hle allowed => exact allowed e u he hu

/-- The factors of a split whose remainder is taken. -/
theorem ModStep.factors (h : ModStep g g') (hs : s.Ok g) :
    (g' = .anything ∧ s.lowerFactor = 1 ∧ s.upperFactor = none) ∨
      (0 ≤ s.scale ∧ 0 < s.lowerFactor ∧ s.upperFactor = none) ∨
      (∃ p, g = .dividend false true p ∧ 0 ≤ s.scale ∧ s.lowerFactor = 1 ∧
        ∃ u, s.upperFactor = some u ∧ 0 < u) := by
  cases h with
  | plain => exact .inl ⟨rfl, hs.lowerFactor_eq, hs.upperFactor_eq⟩
  | mods hle allowed =>
    refine .inr ?_
    cases hu : s.upperFactor with
    | none => exact .inl ⟨hs.scale_nonneg rfl, hs.lowerFactor_pos rfl, rfl⟩
    | some u =>
      exact .inr ⟨_, rfl, hs.scale_nonneg rfl, hs.lowerFactor_eq, u, rfl,
        (hs.upper_allowed u hu).pos rfl⟩
  | divs hle allowed =>
    exact .inr (.inl ⟨hs.scale_nonneg rfl, hs.lowerFactor_pos rfl, hs.upperFactor_eq⟩)

theorem has_withUpper (hs : s.Ok g) (hn : s.weight ≤ n) (hu : u ≠ 0) (hdvd : s.lowerFactor ∣ u)
    (hallowed : g.AllowsMod s.index u) :
    CanonicalExpr.Has g (n + 1)
      (fun ρ => s.divMode.div (s.divMode.mod (s.index.eval ρ) u) s.lowerFactor * s.scale)
      (.split { s with upperFactor := some u }) := by
  refine ⟨⟨hs.index, hs.lower_ne, fun u' hu' => ?_, hs.lower_allowed, fun u' hu' => ?_,
    hs.scale_nonneg⟩, ?_, fun ρ => rfl⟩
  · cases hu'
    exact ⟨hu, hdvd⟩
  · cases hu'
    exact hallowed
  · refine le_trans ?_ (Nat.succ_le_succ hn)
    simp only [weight]
    split <;> split <;> simp <;> omega

variable {Consistent : (String → ℤ) → Prop} {visitExpr : IntExpr → Option IntExpr} {k : ℕ}

/-- The remainder of the split turned back into an expression. -/
theorem normalizedMod_spec (hstep : ModStep g g') (h : CanonicalExpr.Has g n v (.split s))
    (hc : 0 < c) (mode : DivMode) :
    ∃ r, (do
      let e ← s.normalize
      some { ofIndex e with upperFactor := some c, divMode := mode }) = some r ∧
      CanonicalExpr.Has g' (n + 1) (fun ρ => mode.mod (v ρ) c) (.split r) := by
  obtain ⟨e, he, hhas⟩ := CanonicalExpr.normalize_spec h
  obtain ⟨hok, hweight, -⟩ := has_ofIndex_withMode (hstep.le.has hhas) mode
  refine ⟨_, by rw [show s.normalize = some e from he]; rfl,
    (has_withUpper hok hweight hc.ne' (one_dvd c) (hstep.allowsMod hhas.expr hc)).congr
      fun ρ => ?_⟩
  simp [ofIndex, hhas.eval_eq]

/-- **The remainder of a split keeps the value.** -/
theorem splitModConst_spec (hstep : ModStep g g') (hvisit : Simplifies Consistent k visitExpr)
    (h : CanonicalExpr.Has g n v (.split s)) (hn : n < k) (hc : 0 < c) (mode : DivMode) :
    ∃ r w, splitModConst visitExpr s c mode = some r ∧ CanonicalExpr.Has g' (n + 1) w (.split r) ∧
      ∀ ρ, Consistent ρ → w ρ = mode.mod (v ρ) c := by
  obtain ⟨lhs, hlhs, hmode, hhas⟩ := convertDivMode_spec h mode
  obtain ⟨rest, hrest, hrestHas⟩ := normalizedMod_spec hstep hhas hc mode
  obtain ⟨hok, hweight, heval⟩ := hhas
  rw [splitModConst, if_neg (not_le.mpr hc), hlhs]
  simp only [Option.bind_eq_bind, Option.bind_some] at hrest ⊢
  rw [hrest]
  by_cases hsc : lhs.scale.tmod c = 0
  · rw [if_pos hsc]
    refine ⟨_, fun _ => 0, rfl, ⟨(hstep.le.ok hok).withScale fun _ => le_rfl,
      hweight.trans (Nat.le_succ n), fun ρ => mul_zero _⟩, fun ρ _ => ?_⟩
    rw [← heval, eval, mode.mul_mod_of_dvd _ (Int.dvd_of_tmod_eq_zero hsc)]
  rw [if_neg hsc]
  have hs0 : lhs.scale ≠ 0 := fun h0 => hsc (by rw [h0, Int.zero_tmod])
  by_cases hcs : c.tmod lhs.scale = 0
  · rw [if_pos hcs]
    obtain ⟨q, hq⟩ := Int.dvd_of_tmod_eq_zero hcs
    have hquot : c.tdiv lhs.scale = q := by rw [hq, Int.mul_tdiv_cancel_left q hs0]
    have hq0 : q ≠ 0 := fun h0 => hc.ne' (by rw [hq, h0, mul_zero])
    have hcancel : ∀ t, mode.mod (t * lhs.scale) c = mode.mod t q * lhs.scale := fun t => by
      rw [hq, mul_comm lhs.scale q, mode.mul_mod_mul _ _ hs0]
    have hqpos : 0 ≤ lhs.scale → 0 < q := fun hs =>
      Int.pos_of_mul_pos_right (hq ▸ hc) (lt_of_le_of_ne hs hs0.symm)
    simp only [hquot]
    rcases hstep.factors hok with ⟨rfl, hl, hu⟩ | ⟨hs, hl, hu⟩ | ⟨p, rfl, hs, hl, u, hu, hupos⟩
    · rw [hu]
      refine ⟨_, _, rfl, has_withUpper (hstep.le.ok hok) hweight
        (by rwa [hl, one_mul]) (Dvd.intro q rfl) (fun d m p h => Grade.noConfusion h),
        fun ρ _ => ?_⟩
      rw [← heval, eval, hcancel]
      simp [digit, hl, hu, hmode]
    · rw [hu]
      have hlq := mul_pos hl (hqpos hs)
      refine ⟨_, _, rfl, has_withUpper (hstep.le.ok hok) hweight hlq.ne' (Dvd.intro q rfl)
        (hstep.allowsMod hok.index hlq), fun ρ _ => ?_⟩
      rw [← heval, eval, hcancel, digit, hu, hmode, mode.mod_div _ hl (hqpos hs)]
    · have hv : ∀ ρ, mode.mod (v ρ) c =
          mode.mod (mode.mod (lhs.index.eval ρ) u) q * lhs.scale := fun ρ => by
        rw [← heval, eval, hcancel, digit, hu, hmode, hl, mode.div_one]
      have hq := hqpos hs
      have hindex : divisions lhs.index + 1 ≤ n := by
        refine le_trans ?_ hweight
        simp [weight, hu, hl]
      have hnew : lhs.lowerFactor * q = q := by rw [hl, one_mul]
      rw [hu]
      simp only [hnew]
      by_cases huq : u.tmod q = 0
      · rw [if_pos huq]
        by_cases hlt : q < u
        · -- The index is simplified again, with the smaller upper factor.
          rw [if_pos hlt]
          have hself : (Grade.dividend false true p).Has (divisions lhs.index) (lhs.index.eval ·)
              lhs.index := ⟨hok.index, le_rfl, fun _ => rfl⟩
          obtain ⟨r, hr, hrHas⟩ := hself.mod mode hq.ne' fun d m p' h => by
            cases h
            exact ⟨rfl, hq, .inl hok.index⟩
          obtain ⟨e, w, he, heHas, hw⟩ := hvisit (.dividend false true p) r hrHas.expr
            (lt_of_le_of_lt (hrHas.divisions_le.trans hindex) hn)
          simp only [hr, he, hl, Option.bind_some, ne_eq, not_true_eq_false, if_false]
          refine ⟨_, fun ρ => w ρ * lhs.scale, rfl, ⟨?_, ?_, fun ρ => ?_⟩, fun ρ hρ => ?_⟩
          · exact (ok_ofIndex (hstep.le.expr heHas.expr)).withScale fun _ => hs
          · have hdiv := heHas.divisions_le.trans (hrHas.divisions_le.trans hindex)
            exact (weight_ofIndex e).trans_le (hdiv.trans (Nat.le_succ n))
          · simp [eval, digit, ofIndex, heHas.eval_eq]
          · show w ρ * lhs.scale = mode.mod (v ρ) c
            rw [hw ρ hρ, hrHas.eval_eq, hv, mode.mod_mod_of_dvd _ (Int.dvd_of_tmod_eq_zero huq)]
        · rw [if_neg hlt]
          refine ⟨_, _, rfl, has_withUpper (hstep.le.ok hok) hweight hq.ne' ?_
            (hstep.allowsMod hok.index hq), fun ρ _ => ?_⟩
          · rw [hl]
            exact one_dvd q
          · rw [hv, hmode, hl, mode.div_one, mode.mod_mod_of_dvd _ (Int.dvd_of_tmod_eq_zero huq)]
      rw [if_neg huq]
      by_cases hqu : q.tmod u = 0
      · rw [if_pos hqu]
        refine ⟨lhs, v, rfl, ⟨hstep.le.ok hok, hweight.trans (Nat.le_succ n), heval⟩, fun ρ _ => ?_⟩
        rw [hv, mode.mod_mod_of_le _ hupos (Int.le_of_dvd hq (Int.dvd_of_tmod_eq_zero hqu)),
          ← heval, eval, digit, hu, hmode, hl, mode.div_one]
      · rw [if_neg hqu]
        exact ⟨rest, _, rfl, hrestHas, fun _ _ => rfl⟩
  · rw [if_neg hcs]
    exact ⟨rest, _, rfl, hrestHas, fun _ _ => rfl⟩

end Pruner.Arith
