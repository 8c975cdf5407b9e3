import Mathlib.Algebra.Ring.Int.Defs
import Mathlib.Data.Int.DivMod

/-!
# Integer expressions and ranges

The fragment of `tvm::PrimExpr` that loop extents and tensor indices are made of.
The operators build a node only after `TryConstFold` has failed, as
`src/tir/op/op.cc` and `src/arith/const_fold.h` do it: constants are folded, the
units of addition and multiplication disappear, and a division by the constant
zero is an error.

Values are unbounded integers; the width of the C++ constants is not modelled.

## Main definitions

* `PrimExpr` — constants, variables and the five integer operators.
* `PrimExpr.add`, `sub`, `mul`, `floordiv`, `floormod` — the folding constructors.
* `PrimExpr.eval` — the value under an environment; every constructor is sound for it.
* `Range` — `min` and `extent` of a loop; `ConstRange` with constant bounds.
-/

namespace Pruner.Tir

open Option

/-- Integer expressions. -/
inductive PrimExpr where
  | intImm (value : ℤ)
  | var (name : String)
  | addNode (a b : PrimExpr)
  | subNode (a b : PrimExpr)
  | mulNode (a b : PrimExpr)
  | floorDivNode (a b : PrimExpr)
  | floorModNode (a b : PrimExpr)
  deriving DecidableEq, Repr, Inhabited

namespace PrimExpr

/-- The constant an expression is, if it is one (`as<IntImmNode>`). -/
def asIntImm : PrimExpr → Option ℤ
  | .intImm v => some v
  | _ => none

@[simp] theorem asIntImm_intImm (v : ℤ) : (intImm v).asIntImm = some v := rfl

/-- The value of an expression, with division rounding towards minus infinity. -/
def eval (ρ : String → ℤ) : PrimExpr → ℤ
  | .intImm v => v
  | .var x => ρ x
  | .addNode a b => a.eval ρ + b.eval ρ
  | .subNode a b => a.eval ρ - b.eval ρ
  | .mulNode a b => a.eval ρ * b.eval ρ
  | .floorDivNode a b => (a.eval ρ).fdiv (b.eval ρ)
  | .floorModNode a b => (a.eval ρ).fmod (b.eval ρ)

@[simp] theorem eval_intImm (ρ : String → ℤ) (v : ℤ) : (intImm v).eval ρ = v := rfl

@[simp] theorem eval_var (ρ : String → ℤ) (x : String) : (var x).eval ρ = ρ x := rfl

theorem eval_of_asIntImm {a : PrimExpr} {v : ℤ} (h : a.asIntImm = some v) (ρ : String → ℤ) :
    a.eval ρ = v := by
  cases a with
  | intImm w => exact some.inj h
  | _ => simp [asIntImm] at h

/-- `operator+`. -/
def add (a b : PrimExpr) : PrimExpr :=
  match a.asIntImm, b.asIntImm with
  | some x, some y => .intImm (x + y)
  | some x, none => if x = 0 then b else .addNode a b
  | none, some y => if y = 0 then a else .addNode a b
  | none, none => .addNode a b

/-- `operator-`. -/
def sub (a b : PrimExpr) : PrimExpr :=
  match a.asIntImm, b.asIntImm with
  | some x, some y => .intImm (x - y)
  | _, some y => if y = 0 then a else .subNode a b
  | _, none => .subNode a b

/-- `operator*`. -/
def mul (a b : PrimExpr) : PrimExpr :=
  match a.asIntImm, b.asIntImm with
  | some x, some y => .intImm (x * y)
  | some x, none => if x = 1 then b else if x = 0 then a else .mulNode a b
  | none, some y => if y = 1 then a else if y = 0 then b else .mulNode a b
  | none, none => .mulNode a b

/-- `floordiv`, which is also `indexdiv`; a constant zero divisor is an error. -/
def floordiv (a b : PrimExpr) : Option PrimExpr :=
  match a.asIntImm, b.asIntImm with
  | some x, some y => if y = 0 then none else some (.intImm (x.fdiv y))
  | some x, none => some (if x = 0 then a else .floorDivNode a b)
  | none, some y => if y = 1 then some a else if y = 0 then none else some (.floorDivNode a b)
  | none, none => some (.floorDivNode a b)

/-- `floormod`, which is also `indexmod`. -/
def floormod (a b : PrimExpr) : Option PrimExpr :=
  match a.asIntImm, b.asIntImm with
  | some x, some y => if y = 0 then none else some (.intImm (x.fmod y))
  | some x, none => some (if x = 0 then a else .floorModNode a b)
  | none, some y =>
    if y = 1 then some (.intImm 0) else if y = 0 then none else some (.floorModNode a b)
  | none, none => some (.floorModNode a b)

/-- `indexdiv(extent + l - 1, l)`: the number of pieces of length `l`. -/
def ceilDiv (extent l : PrimExpr) : Option PrimExpr := floordiv ((extent.add l).sub (.intImm 1)) l

def isZero (a : PrimExpr) : Bool := a.asIntImm = some 0

/-! ## Folding is sound -/

variable (ρ : String → ℤ) (a b : PrimExpr)

@[simp] theorem eval_add : (a.add b).eval ρ = a.eval ρ + b.eval ρ := by
  unfold add
  split
  · next x y ha hb => simp [eval_of_asIntImm ha, eval_of_asIntImm hb]
  · next x ha hb =>
      split
      · next h => simp [eval_of_asIntImm ha, h]
      · rfl
  · next y ha hb =>
      split
      · next h => simp [eval_of_asIntImm hb, h]
      · rfl
  · rfl

@[simp] theorem eval_sub : (a.sub b).eval ρ = a.eval ρ - b.eval ρ := by
  unfold sub
  split
  · next x y ha hb => simp [eval_of_asIntImm ha, eval_of_asIntImm hb]
  · next y hb _ =>
      split
      · next h => simp [eval_of_asIntImm hb, h]
      · rfl
  · rfl

@[simp] theorem eval_mul : (a.mul b).eval ρ = a.eval ρ * b.eval ρ := by
  unfold mul
  split
  · next x y ha hb => simp [eval_of_asIntImm ha, eval_of_asIntImm hb]
  · next x ha hb =>
      split
      · next h => simp [eval_of_asIntImm ha, h]
      · split
        · next h => simp [eval_of_asIntImm ha, h]
        · rfl
  · next y ha hb =>
      split
      · next h => simp [eval_of_asIntImm hb, h]
      · split
        · next h => simp [eval_of_asIntImm hb, h]
        · rfl
  · rfl

variable {a b} {c : PrimExpr} {y : ℤ}

theorem eval_floordiv (h : floordiv a b = some c) :
    c.eval ρ = (a.eval ρ).fdiv (b.eval ρ) := by
  unfold floordiv at h
  split at h
  · next x y ha hb =>
      split_ifs at h
      rw [← some.inj h, eval_of_asIntImm ha, eval_of_asIntImm hb]; rfl
  · next x ha hb =>
      rw [← some.inj h]
      split
      · next h0 => simp [eval_of_asIntImm ha, h0]
      · rfl
  · next y ha hb =>
      split at h
      · next h1 =>
          rw [← some.inj h, eval_of_asIntImm hb, h1, Int.fdiv_one]
      · split_ifs at h
        rw [← some.inj h]; rfl
  · rw [← some.inj h]; rfl

theorem eval_floormod (h : floormod a b = some c) :
    c.eval ρ = (a.eval ρ).fmod (b.eval ρ) := by
  unfold floormod at h
  split at h
  · next x y ha hb =>
      split_ifs at h
      rw [← some.inj h, eval_of_asIntImm ha, eval_of_asIntImm hb]; rfl
  · next x ha hb =>
      rw [← some.inj h]
      split
      · next h0 => simp [eval_of_asIntImm ha, h0]
      · rfl
  · next y ha hb =>
      split at h
      · next h1 =>
          rw [← some.inj h, eval_of_asIntImm hb, h1, Int.fmod_one]; rfl
      · split_ifs at h
        rw [← some.inj h]; rfl
  · rw [← some.inj h]; rfl

/-- Division by a constant other than zero succeeds. -/
theorem exists_floordiv_intImm (a : PrimExpr) (hy : y ≠ 0) :
    ∃ c, a.floordiv (.intImm y) = some c := by
  unfold floordiv
  cases a.asIntImm with
  | none => by_cases h1 : y = 1 <;> simp [h1, hy]
  | some x => simp [hy]

theorem exists_floormod_intImm (a : PrimExpr) (hy : y ≠ 0) :
    ∃ c, a.floormod (.intImm y) = some c := by
  unfold floormod
  cases a.asIntImm with
  | none => by_cases h1 : y = 1 <;> simp [h1, hy]
  | some x => simp [hy]

end PrimExpr

/-- A half-open range, given by its first value and its size. -/
structure Range where
  min : PrimExpr
  extent : PrimExpr
  deriving DecidableEq, Repr, Inhabited

/-- `Range::FromMinExtent(0, n)` for a constant `n`. -/
def Range.upTo (n : ℤ) : Range := ⟨.intImm 0, .intImm n⟩

structure ConstRange where
  min : ℤ
  extent : ℤ
  deriving DecidableEq, Repr, Inhabited

/-- The values of a range. -/
def ConstRange.Has (r : ConstRange) (x : ℤ) : Prop := r.min ≤ x ∧ x < r.min + r.extent

instance (r : ConstRange) (x : ℤ) : Decidable (r.Has x) :=
  inferInstanceAs (Decidable (r.min ≤ x ∧ x < r.min + r.extent))

end Pruner.Tir
