import Pruner.Arith.CanonicalSimplify

/-!
# Folding constants and splitting indices keep values

Folding constants and turning a split back into an expression keep the value.  They also
keep the kind of expression: a normal form of a dividend without divisions, or without
negative multiples, is again of that kind.  And they never make more divisions than the
expression had.

## Main definitions

* `IsDividend` — division-free expressions, and expressions without negative multiples.
* `Grade` — what is known of an expression: nothing, or that it is such a dividend.
* `divisions`, `SplitExpr.weight` — how many divisions there are.
* `SplitExpr.Ok` — well-formed splits of a grade.
* `SplitExpr.normalize_spec` — splits can be turned back into expressions.
-/

namespace Pruner.Arith

open IntExpr Option

open Lib (DivMode)

variable {c k x : ℤ} {ρ : String → ℤ} {g : Grade}

/-! ## Kinds of expressions -/

/-- A positive constant. -/
def IsPosConst (e : IntExpr) : Prop := ∃ c, e = .intImm c ∧ 0 < c

/-- A constant that is not negative. -/
def IsNonnegConst (e : IntExpr) : Prop := ∃ c, e = .intImm c ∧ 0 ≤ c

/-- The expressions that are divided.  Without divisions anything goes.  With divisions
(`hasDiv`) or modulos (`hasMod`) inside, only constants are subtracted, and nothing is multiplied
by a negative constant; `positive` expressions have no negative constants at all.  Inside of a
modulo there are modulos only, or divisions only. -/
def IsDividend : Bool → Bool → Bool → IntExpr → Prop
  | _, _, positive, .intImm c => positive = true → 0 ≤ c
  | _, _, _, .var _ => True
  | hasDiv, hasMod, positive, .add a b =>
    IsDividend hasDiv hasMod positive a ∧ IsDividend hasDiv hasMod positive b
  | hasDiv, hasMod, positive, .sub a b =>
    IsDividend hasDiv hasMod positive a ∧ IsDividend hasDiv hasMod positive b ∧
      ((hasDiv || hasMod || positive) = true → positive = false ∧ ∃ c, b = .intImm c)
  | hasDiv, hasMod, positive, .mul a b =>
    IsDividend hasDiv hasMod positive a ∧ IsDividend hasDiv hasMod positive b ∧
      ((hasDiv || hasMod || positive) = true → IsNonnegConst a ∨ IsNonnegConst b ∨
        (IsDividend hasDiv hasMod true a ∧ IsDividend hasDiv hasMod true b))
  | hasDiv, hasMod, positive, .div _ a b =>
    hasDiv = true ∧ IsDividend hasDiv hasMod positive a ∧ IsPosConst b
  | hasDiv, hasMod, positive, .mod _ a b => hasMod = true ∧ IsPosConst b ∧
    (IsDividend false true positive a ∨ (hasDiv = true ∧ IsDividend true false positive a))

/-- What is known of an expression. -/
inductive Grade where
  | anything
  | dividend (hasDiv hasMod positive : Bool)
  deriving DecidableEq

namespace Grade

/-- The expressions of a grade. -/
def Expr : Grade → IntExpr → Prop
  | anything, _ => True
  | dividend d m p, e => IsDividend d m p e

/-- Negative multiples are allowed. -/
def signed : Grade → Bool
  | anything => true
  | dividend d m p => !(d || m || p)

/-- Negative constants are not allowed. -/
def positive : Grade → Bool
  | anything => false
  | dividend _ _ p => p

end Grade

/-- The number of divisions and modulos. -/
def divisions : IntExpr → ℕ
  | .intImm _ => 0
  | .var _ => 0
  | .add a b => divisions a + divisions b
  | .sub a b => divisions a + divisions b
  | .mul a b => divisions a + divisions b
  | .div _ a b => divisions a + divisions b + 1
  | .mod _ a b => divisions a + divisions b + 1

/-! ## Constant folding -/

/-- What folding a division or a modulo of `a` by a constant returns: nothing, `a`, zero, or the
result for a constant. -/
def FoldsTo {α : Type} (asIntImm : α → Option ℤ) (intImm : ℤ → α) (eval : α → ℤ) (op : ℤ → ℤ → ℤ)
    (a : α) (c : ℤ) (fold : Option (Option α)) : Prop :=
  ∃ o, fold = some o ∧ ∀ r, o = some r → eval r = op (eval a) c ∧ (r = a ∨ r = intImm 0 ∨
    ∃ x, asIntImm a = some x ∧ r = intImm (op x c))

section

variable {α : Type} {asIntImm : α → Option ℤ} {intImm : ℤ → α} {a b r : α} (eval : α → ℤ)
  (hconst : ∀ {a x}, asIntImm a = some x → eval a = x) (himm : ∀ x, eval (intImm x) = x)

include hconst himm

theorem tryConstFoldAdd_spec (h : tryConstFoldAdd asIntImm intImm a b = some r) :
    eval r = eval a + eval b ∧ (r = a ∨ r = b ∨
      ∃ x y, asIntImm a = some x ∧ asIntImm b = some y ∧ r = intImm (x + y)) := by
  unfold tryConstFoldAdd at h
  split at h
  · next x y ha hb =>
      rw [← some.inj h, himm, hconst ha, hconst hb]
      exact ⟨rfl, .inr (.inr ⟨x, y, ha, hb, rfl⟩)⟩
  · next x ha hb =>
      split_ifs at h with h0
      simp [← some.inj h, hconst ha, h0]
  · next y ha hb =>
      split_ifs at h with h0
      simp [← some.inj h, hconst hb, h0]
  · simp at h

theorem tryConstFoldSub_spec (h : tryConstFoldSub asIntImm intImm a b = some r) :
    eval r = eval a - eval b ∧ (r = a ∨ r = b ∨
      ∃ x y, asIntImm a = some x ∧ asIntImm b = some y ∧ r = intImm (x - y)) := by
  unfold tryConstFoldSub at h
  split at h
  · next x y ha hb =>
      rw [← some.inj h, himm, hconst ha, hconst hb]
      exact ⟨rfl, .inr (.inr ⟨x, y, ha, hb, rfl⟩)⟩
  · next y ha hb =>
      split_ifs at h with h0
      simp [← some.inj h, hconst hb, h0]
  · simp at h

theorem tryConstFoldMul_spec (h : tryConstFoldMul asIntImm intImm a b = some r) :
    eval r = eval a * eval b ∧ (r = a ∨ r = b ∨
      ∃ x y, asIntImm a = some x ∧ asIntImm b = some y ∧ r = intImm (x * y)) := by
  unfold tryConstFoldMul at h
  split at h
  · next x y ha hb =>
      rw [← some.inj h, himm, hconst ha, hconst hb]
      exact ⟨rfl, .inr (.inr ⟨x, y, ha, hb, rfl⟩)⟩
  · next x ha hb =>
      split at h
      · next h1 => simp [← some.inj h, hconst ha, h1]
      · split_ifs at h with h0
        simp [← some.inj h, hconst ha, h0]
  · next y ha hb =>
      split at h
      · next h1 => simp [← some.inj h, hconst hb, h1]
      · split_ifs at h with h0
        simp [← some.inj h, hconst hb, h0]
  · simp at h

/-- A division or a modulo by a constant: by 1 it gives `one`. -/
theorem foldsTo_of_const {op : ℤ → ℤ → ℤ} {one : α} {fold : Option (Option α)}
    (hfold : fold = match asIntImm a with
      | some x => some (some (intImm (op x c)))
      | none => some (if c = 1 then some one else none))
    (hone : eval one = op (eval a) 1) (hshape : one = a ∨ one = intImm 0) :
    FoldsTo asIntImm intImm eval op a c fold := by
  cases ha : asIntImm a with
  | some x =>
    rw [ha] at hfold
    refine ⟨_, hfold, ?_⟩
    rintro _ ⟨⟩
    rw [himm, hconst ha]
    exact ⟨rfl, .inr (.inr ⟨x, ha, rfl⟩)⟩
  | none =>
    rw [ha] at hfold
    refine ⟨_, hfold, fun r hr => ?_⟩
    split_ifs at hr with h1
    cases hr
    exact ⟨h1 ▸ hone, hshape.imp_right .inl⟩

theorem tryConstFoldDiv_spec (mode : DivMode) (hb : asIntImm b = some c) (hc : c ≠ 0) :
    FoldsTo asIntImm intImm eval mode.div a c (tryConstFoldDiv asIntImm intImm mode a b) := by
  refine foldsTo_of_const eval hconst himm ?_ (mode.div_one _).symm (.inl rfl)
  rw [tryConstFoldDiv, hb]
  cases asIntImm a with
  | some x => exact if_neg hc
  | none => split_ifs with h1 <;> simp [hc, h1]

theorem tryConstFoldMod_spec (mode : DivMode) (hb : asIntImm b = some c) (hc : c ≠ 0) :
    FoldsTo asIntImm intImm eval mode.mod a c (tryConstFoldMod asIntImm intImm mode a b) := by
  refine foldsTo_of_const eval hconst himm ?_ ((himm 0).trans (mode.mod_one _).symm) (.inr rfl)
  rw [tryConstFoldMod, hb]
  cases asIntImm a with
  | some x => exact if_neg hc
  | none => split_ifs with h1 <;> simp [hc, h1]

end

/-! ## Building expressions -/

namespace IntExpr

variable {a : IntExpr}

theorem eq_of_asIntImm (h : a.asIntImm = some x) : a = .intImm x := by
  cases a <;> simp_all [asIntImm]

theorem eval_intImm (x : ℤ) : (intImm x).eval ρ = x := rfl

theorem eval_of_asIntImm (h : a.asIntImm = some x) :
    a.eval ρ = x := by
  rw [eq_of_asIntImm h]
  rfl

end IntExpr

/-- An expression of a grade, with at most `n` divisions and a given value. -/
structure Grade.Has (g : Grade) (n : ℕ) (v : (String → ℤ) → ℤ) (e : IntExpr) : Prop where
  expr : g.Expr e
  divisions_le : divisions e ≤ n
  eval_eq : ∀ ρ, e.eval ρ = v ρ

namespace Grade

variable {n k : ℕ} {v w : (String → ℤ) → ℤ} {a b : IntExpr}

theorem signed_dividend_eq_false {d m p : Bool} :
    (dividend d m p).signed = false ↔ (d || m || p) = true := by
  rw [signed, Bool.not_eq_false']

theorem signed_of_positive (h : g.positive = true) : g.signed = false := by
  cases g with
  | anything => cases h
  | dividend d m p => simp [signed, show p = true from h]

theorem expr_intImm (h : g.positive = true → 0 ≤ c) : g.Expr (.intImm c) := by
  cases g with
  | anything => trivial
  | dividend d m p => exact h

theorem nonneg_of_asIntImm (he : g.Expr a) (h : a.asIntImm = some x)
    (hg : g.positive = true) : 0 ≤ x := by
  rw [eq_of_asIntImm h] at he
  cases g with
  | anything => cases hg
  | dividend d m p => exact he hg

theorem has_intImm (h : g.positive = true → 0 ≤ c) : g.Has n (fun _ => c) (.intImm c) :=
  ⟨expr_intImm h, Nat.zero_le _, fun _ => rfl⟩

theorem Has.mono (h : g.Has n v a) (hn : n ≤ k) : g.Has k v a :=
  ⟨h.expr, h.divisions_le.trans hn, h.eval_eq⟩

theorem Has.congr (h : g.Has n v a) (hv : ∀ ρ, v ρ = w ρ) : g.Has n w a :=
  ⟨h.expr, h.divisions_le, fun ρ => (h.eval_eq ρ).trans (hv ρ)⟩

variable {op : ℤ → ℤ → ℤ} {node : IntExpr} {l u : ℤ}

section

variable (ha : g.Has n v a) (hb : g.Has k w b)
include ha hb

/-- An operation whose constants are folded first. -/
theorem Has.binary
    {fold : Option IntExpr} (hfold : ∀ r, fold = some r → ∀ ρ, r.eval ρ = op (a.eval ρ) (b.eval ρ) ∧
      (r = a ∨ r = b ∨ ∃ x y, a.asIntImm = some x ∧ b.asIntImm = some y ∧ r = .intImm (op x y)))
    (hnode : g.Expr node) (hle : divisions node ≤ divisions a + divisions b)
    (heval : ∀ ρ, node.eval ρ = op (a.eval ρ) (b.eval ρ))
    (hop : g.positive = true → ∀ x y, 0 ≤ x → 0 ≤ y → 0 ≤ op x y) :
    g.Has (n + k) (fun ρ => op (v ρ) (w ρ)) (fold.getD node) := by
  cases hf : fold with
  | none =>
    refine ⟨hnode, hle.trans (add_le_add ha.divisions_le hb.divisions_le), fun ρ => ?_⟩
    rw [getD_none, heval, ha.eval_eq, hb.eval_eq]
  | some r =>
    have hval : ∀ ρ, r.eval ρ = op (v ρ) (w ρ) := fun ρ => by
      rw [(hfold r hf ρ).1, ha.eval_eq, hb.eval_eq]
    rcases (hfold r hf fun _ => 0).2 with rfl | rfl | ⟨x, y, hx, hy, rfl⟩
    · exact ⟨ha.expr, ha.divisions_le.trans (Nat.le_add_right _ _), hval⟩
    · exact ⟨hb.expr, hb.divisions_le.trans (Nat.le_add_left _ _), hval⟩
    · exact ⟨expr_intImm fun hg => hop hg x y (nonneg_of_asIntImm ha.expr hx hg)
        (nonneg_of_asIntImm hb.expr hy hg), Nat.zero_le _, hval⟩

theorem Has.add :
    g.Has (n + k) (fun ρ => v ρ + w ρ) (a.addOp b) := by
  refine ha.binary hb (fun r h ρ => tryConstFoldAdd_spec (eval ρ) eval_of_asIntImm
    eval_intImm h) ?_ le_rfl (fun _ => rfl) fun _ _ _ => add_nonneg
  cases g with
  | anything => trivial
  | dividend d m p => exact ⟨ha.expr, hb.expr⟩

/-- Where negative multiples are not allowed, only constants are subtracted. -/
theorem Has.sub (hg : g.signed = false → g.positive = false ∧ ∃ c, b = .intImm c) :
    g.Has (n + k) (fun ρ => v ρ - w ρ) (a.subOp b) := by
  refine ha.binary hb (fun r h ρ => tryConstFoldSub_spec (eval ρ) eval_of_asIntImm
    eval_intImm h) ?_ le_rfl (fun _ => rfl) fun hf => ?_
  · cases g with
    | anything => trivial
    | dividend d m p =>
      exact ⟨ha.expr, hb.expr, fun h => hg (signed_dividend_eq_false.mpr h)⟩
  · simp [(hg (signed_of_positive hf)).1] at hf

end

theorem Has.mulConst (ha : g.Has n v a) (hc : g.signed = false → 0 ≤ c) :
    g.Has n (fun ρ => v ρ * c) (a.mulOp (.intImm c)) := by
  have hb : g.Has 0 (fun _ => c) (.intImm c) := has_intImm fun hg => hc (signed_of_positive hg)
  refine ha.binary hb (fun r h ρ => tryConstFoldMul_spec (eval ρ) eval_of_asIntImm
    eval_intImm h) ?_ le_rfl (fun _ => rfl) fun _ _ _ => mul_nonneg
  cases g with
  | anything => trivial
  | dividend d m p =>
    exact ⟨ha.expr, hb.expr, fun h =>
      .inr (.inl ⟨c, rfl, hc (signed_dividend_eq_false.mpr h)⟩)⟩

/-- Divisions by `l` are allowed in the grade. -/
def AllowsDiv (g : Grade) (l : ℤ) : Prop := ∀ d m p, g = dividend d m p → d = true ∧ 0 < l

/-- Modulos of `e` by `u` are allowed in the grade. -/
def AllowsMod (g : Grade) (e : IntExpr) (u : ℤ) : Prop :=
  ∀ d m p, g = dividend d m p → m = true ∧ 0 < u ∧
    (IsDividend false true p e ∨ (d = true ∧ IsDividend true false p e))

theorem AllowsDiv.pos (h : g.AllowsDiv l) (hg : g.signed = false) : 0 < l := by
  cases g with
  | anything => simp [signed] at hg
  | dividend d m p => exact (h d m p rfl).2

theorem AllowsMod.pos (h : g.AllowsMod a u) (hg : g.signed = false) : 0 < u := by
  cases g with
  | anything => simp [signed] at hg
  | dividend d m p => exact (h d m p rfl).2.1

/-- A division or a modulo whose constants are folded first. -/
theorem Has.folded (ha : g.Has n v a)
    {fold : Option (Option IntExpr)} (hfold : ∀ ρ, FoldsTo asIntImm .intImm (eval ρ) op a l fold)
    (hnode : g.Expr node) (hle : divisions node ≤ divisions a + 1)
    (heval : ∀ ρ, node.eval ρ = op (a.eval ρ) l)
    (hop : g.positive = true → ∀ x, 0 ≤ x → 0 ≤ op x l) :
    ∃ r, fold.map (·.getD node) = some r ∧ g.Has (n + 1) (fun ρ => op (v ρ) l) r := by
  obtain ⟨o, rfl, hshape⟩ := hfold fun _ => 0
  refine ⟨_, rfl, ?_⟩
  cases o with
  | none =>
    refine ⟨hnode, hle.trans (Nat.succ_le_succ ha.divisions_le), fun ρ => ?_⟩
    exact (heval ρ).trans (by rw [ha.eval_eq])
  | some r =>
    have hval : ∀ ρ, r.eval ρ = op (v ρ) l := fun ρ => by
      obtain ⟨_, ⟨⟩, hshape'⟩ := hfold ρ
      rw [(hshape' r rfl).1, ha.eval_eq]
    rcases (hshape r rfl).2 with rfl | rfl | ⟨x, hx, rfl⟩
    · exact ⟨ha.expr, ha.divisions_le.trans (Nat.le_succ _), hval⟩
    · exact ⟨expr_intImm fun _ => le_rfl, Nat.zero_le _, hval⟩
    · exact ⟨expr_intImm fun hg => hop hg x (nonneg_of_asIntImm ha.expr hx hg), Nat.zero_le _, hval⟩

theorem Has.div (ha : g.Has n v a) (mode : DivMode) (hl : l ≠ 0) (hg : g.AllowsDiv l) :
    ∃ r, a.divImpl mode (.intImm l) = some r ∧ g.Has (n + 1) (fun ρ => mode.div (v ρ) l) r := by
  refine ha.folded (fun ρ => tryConstFoldDiv_spec (eval ρ) eval_of_asIntImm
    eval_intImm mode rfl hl) ?_ le_rfl (fun _ => rfl)
    fun hs _ hx => mode.div_nonneg hx (hg.pos (signed_of_positive hs))
  cases g with
  | anything => trivial
  | dividend d m p => exact ⟨(hg d m p rfl).1, ha.expr, l, rfl, (hg d m p rfl).2⟩

theorem Has.mod (ha : g.Has n v a) (mode : DivMode) (hu : u ≠ 0) (hg : g.AllowsMod a u) :
    ∃ r, a.modImpl mode (.intImm u) = some r ∧ g.Has (n + 1) (fun ρ => mode.mod (v ρ) u) r := by
  refine ha.folded (fun ρ => tryConstFoldMod_spec (eval ρ) eval_of_asIntImm
    eval_intImm mode rfl hu) ?_ le_rfl (fun _ => rfl)
    fun hs _ hx => mode.mod_nonneg hx (hg.pos (signed_of_positive hs))
  cases g with
  | anything => trivial
  | dividend d m p => exact ⟨(hg d m p rfl).1, ⟨u, rfl, (hg d m p rfl).2.1⟩, (hg d m p rfl).2.2⟩

end Grade

/-! ## Splits -/

namespace SplitExpr

variable {s : SplitExpr}

/-- The part of the index that a split takes. -/
def digit (ρ : String → ℤ) (s : SplitExpr) : ℤ :=
  s.divMode.div (match s.upperFactor with
    | none => s.index.eval ρ
    | some u => s.divMode.mod (s.index.eval ρ) u) s.lowerFactor

/-- The value of a split. -/
def eval (ρ : String → ℤ) (s : SplitExpr) : ℤ := s.digit ρ * s.scale

def weight (s : SplitExpr) : ℕ :=
  divisions s.index + (if s.upperFactor.isSome then 1 else 0) + (if s.lowerFactor = 1 then 0 else 1)

structure Ok (g : Grade) (s : SplitExpr) : Prop where
  index : g.Expr s.index
  lower_ne : s.lowerFactor ≠ 0
  upper : ∀ u, s.upperFactor = some u → u ≠ 0 ∧ s.lowerFactor ∣ u
  lower_allowed : s.lowerFactor ≠ 1 → g.AllowsDiv s.lowerFactor
  upper_allowed : ∀ u, s.upperFactor = some u → g.AllowsMod s.index u
  scale_nonneg : g.signed = false → 0 ≤ s.scale

theorem ok_ofIndex {e : IntExpr} (h : g.Expr e) : (ofIndex e).Ok g :=
  ⟨h, one_ne_zero, by simp [ofIndex], fun h => absurd rfl h, by simp [ofIndex],
    fun _ => zero_le_one⟩

@[simp] theorem eval_ofIndex (ρ : String → ℤ) (e : IntExpr) : (ofIndex e).eval ρ = e.eval ρ := by
  simp [eval, digit, ofIndex]

@[simp] theorem weight_ofIndex (e : IntExpr) : (ofIndex e).weight = divisions e := by
  simp [weight, ofIndex]

/-- A split with another scale. -/
theorem Ok.withScale (h : s.Ok g) (hk : g.signed = false → 0 ≤ k) : Ok g { s with scale := k } :=
  ⟨h.index, h.lower_ne, h.upper, h.lower_allowed, h.upper_allowed, hk⟩

theorem eval_withScale (k : ℤ) : eval ρ { s with scale := k } = s.digit ρ * k := rfl

theorem Ok.mulToSelf (h : s.Ok g) (hk : g.signed = false → 0 ≤ k) : (s.mulToSelf k).Ok g :=
  h.withScale fun hg => mul_nonneg (h.scale_nonneg hg) (hk hg)

theorem eval_mulToSelf (k : ℤ) : (s.mulToSelf k).eval ρ = s.eval ρ * k := by
  simp only [eval, SplitExpr.mulToSelf, digit]
  ring

/-- **Splits can be turned back into expressions.** -/
theorem normalizeWithScale_spec (h : s.Ok g) (hk : g.signed = false → 0 ≤ k) :
    ∃ e, s.normalizeWithScale k = some e ∧ g.Has s.weight (fun ρ => s.eval ρ * k) e := by
  unfold normalizeWithScale
  split
  · next h0 => exact ⟨_, rfl, (Grade.has_intImm fun _ => le_rfl).congr (by simp [eval, h0])⟩
  · have hindex : g.Has (divisions s.index) (s.index.eval ·) s.index :=
      ⟨h.index, le_rfl, fun _ => rfl⟩
    obtain ⟨res, hres, hmod⟩ : ∃ res, s.applyUpper = some res ∧
        g.Has (divisions s.index + if s.upperFactor.isSome then 1 else 0)
          (fun ρ => match s.upperFactor with
            | none => s.index.eval ρ
            | some u => s.divMode.mod (s.index.eval ρ) u) res := by
      unfold applyUpper
      cases hu : s.upperFactor with
      | none => exact ⟨_, rfl, hindex⟩
      | some u => exact hindex.mod s.divMode (h.upper u hu).1 (h.upper_allowed u hu)
    obtain ⟨res', hres', hdiv⟩ : ∃ res', s.applyLower res = some res' ∧
        g.Has s.weight (s.digit ·) res' := by
      unfold applyLower
      by_cases hl : s.lowerFactor = 1
      · refine ⟨res, by simp [hl], (hmod.mono (by simp [weight, hl])).congr fun ρ => ?_⟩
        simp [digit, hl]
      · obtain ⟨r, hr, hhas⟩ := hmod.div s.divMode h.lower_ne (h.lower_allowed hl)
        exact ⟨r, by rw [if_pos hl, hr], hhas.mono (by simp [weight, hl])⟩
    refine ⟨_, by rw [hres, bind_eq_bind, bind_some, hres']; rfl, ?_⟩
    by_cases hone : k * s.scale = 1
    · simp only [hone, ne_eq, not_true_eq_false, if_false]
      exact hdiv.congr fun ρ => by rw [eval, mul_assoc, mul_comm s.scale, hone, mul_one]
    · simp only [ne_eq, hone, not_false_eq_true, if_true]
      refine (hdiv.mulConst fun hg => ?_).congr fun ρ => ?_
      · exact mul_nonneg (hk hg) (h.scale_nonneg hg)
      · rw [eval]
        ring

theorem normalize_spec (h : s.Ok g) : ∃ e, s.normalize = some e ∧ g.Has s.weight (s.eval ·) e := by
  obtain ⟨e, he, hhas⟩ := normalizeWithScale_spec h fun _ => zero_le_one
  exact ⟨e, he, hhas.congr fun ρ => mul_one _⟩

theorem digit_of_compatible {mode : DivMode} (h : s.divModeCompatibleTo mode = true) :
    s.digit ρ = SplitExpr.digit ρ { s with divMode := mode } := by
  simp only [divModeCompatibleTo, Bool.or_eq_true, decide_eq_true_eq, Bool.and_eq_true] at h
  rcases h with rfl | ⟨hl, hu⟩
  · rfl
  · simp [digit, hl, hu]

end SplitExpr

end Pruner.Arith
