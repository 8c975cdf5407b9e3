import Mathlib.Algebra.BigOperators.Group.List.Basic
import Mathlib.Data.List.Sort
import Pruner.Lib.DivMode

/-!
# The canonical simplifier

`CanonicalSimplifier` rewrites an integer expression into a sum of splits
`((index % upper_factor) / lower_factor) * scale` and back into an expression.  Divisions
are folded into the splits; a modulo with a smaller factor than the one already there is
simplified once more, from the start.

Integers are unbounded, and an infinite `upper_factor` is `none`.  What a merge of splits computes
goes through a function `w`, the identity here; `CanonicalSum` also takes 64 bits.  What the analyzer knows
about the bounds of an expression is a parameter; the other simplifiers and the values that
variables may be bound to are left out.  A failed check is `none`, and so is a run that
simplifies again more often than its fuel allows.

## Main definitions

* `IntExpr` — integer expressions with both kinds of division.
* `SplitExpr`, `SumExpr`, `CanonicalExpr` — the normal forms.
* `SumExpr.simplifySplitExprs`, `SumExpr.normalize` — merging splits, and back to an
  expression.
* `splitDivConst`, `splitModConst` — dividing a split by a constant.
* `canonicalMutate`, `canonicalSimplify` — the simplifier.
-/

namespace Pruner.Arith

open Lib (DivMode)

/-- Integer expressions. -/
inductive IntExpr where
  | intImm (value : ℤ)
  | var (name : String)
  | add (a b : IntExpr)
  | sub (a b : IntExpr)
  | mul (a b : IntExpr)
  | div (mode : DivMode) (a b : IntExpr)
  | mod (mode : DivMode) (a b : IntExpr)
  deriving DecidableEq, Repr, Inhabited

/-- The value of an expression. -/
def IntExpr.eval (ρ : String → ℤ) : IntExpr → ℤ
  | .intImm v => v
  | .var x => ρ x
  | .add a b => a.eval ρ + b.eval ρ
  | .sub a b => a.eval ρ - b.eval ρ
  | .mul a b => a.eval ρ * b.eval ρ
  | .div mode a b => mode.div (a.eval ρ) (b.eval ρ)
  | .mod mode a b => mode.mod (a.eval ρ) (b.eval ρ)

/-- The constant an expression is, if it is one (`as<IntImmNode>`). -/
def IntExpr.asIntImm : IntExpr → Option ℤ
  | .intImm v => some v
  | _ => none

/-! ## Constant folding

The rules of `TryConstFold`, for expressions and for normal forms. -/

section

variable {α : Type} (asIntImm : α → Option ℤ) (intImm : ℤ → α) (a b : α)

def tryConstFoldAdd : Option α :=
  match asIntImm a, asIntImm b with
  | some x, some y => some (intImm (x + y))
  | some x, none => if x = 0 then some b else none
  | none, some y => if y = 0 then some a else none
  | none, none => none

def tryConstFoldSub : Option α :=
  match asIntImm a, asIntImm b with
  | some x, some y => some (intImm (x - y))
  | none, some y => if y = 0 then some a else none
  | _, none => none

def tryConstFoldMul : Option α :=
  match asIntImm a, asIntImm b with
  | some x, some y => some (intImm (x * y))
  | some x, none => if x = 1 then some b else if x = 0 then some a else none
  | none, some y => if y = 1 then some a else if y = 0 then some b else none
  | none, none => none

/-- `TryConstFold<Div>` and `TryConstFold<FloorDiv>`.  A division by zero fails, and
`some none` means that nothing was folded. -/
def tryConstFoldDiv (mode : DivMode) (a b : α) : Option (Option α) :=
  match asIntImm a, asIntImm b with
  | some x, some y => if y = 0 then none else some (some (intImm (mode.div x y)))
  | some x, none => some (if x = 0 then some a else none)
  | none, some y => if y = 1 then some (some a) else if y = 0 then none else some none
  | none, none => some none

/-- `TryConstFold<Mod>` and `TryConstFold<FloorMod>`. -/
def tryConstFoldMod (mode : DivMode) (a b : α) : Option (Option α) :=
  match asIntImm a, asIntImm b with
  | some x, some y => if y = 0 then none else some (some (intImm (mode.mod x y)))
  | some x, none => some (if x = 0 then some a else none)
  | none, some y => if y = 1 then some (some (intImm 0)) else if y = 0 then none else some none
  | none, none => some none

end

namespace IntExpr

variable (a b : IntExpr)

/-- `operator+`. -/
def addOp : IntExpr := (tryConstFoldAdd asIntImm intImm a b).getD (.add a b)

/-- `operator-`. -/
def subOp : IntExpr := (tryConstFoldSub asIntImm intImm a b).getD (.sub a b)

/-- `operator*`. -/
def mulOp : IntExpr := (tryConstFoldMul asIntImm intImm a b).getD (.mul a b)

def divImpl (mode : DivMode) (a b : IntExpr) : Option IntExpr :=
  (tryConstFoldDiv asIntImm intImm mode a b).map (·.getD (.div mode a b))

def modImpl (mode : DivMode) (a b : IntExpr) : Option IntExpr :=
  (tryConstFoldMod asIntImm intImm mode a b).map (·.getD (.mod mode a b))

end IntExpr

/-! ## Splits -/

/-- `((index % upper_factor) / lower_factor) * scale`. -/
structure SplitExpr where
  index : IntExpr
  lowerFactor : ℤ
  upperFactor : Option ℤ
  scale : ℤ
  divMode : DivMode
  deriving DecidableEq, Repr, Inhabited

namespace SplitExpr

/-- The split that is an expression itself. -/
def ofIndex (e : IntExpr) : SplitExpr := ⟨e, 1, none, 1, .truncDiv⟩

variable (e : SplitExpr)

/-- The condition of `Verify`. -/
def verify : Bool :=
  match e.upperFactor with
  | none => true
  | some u => u.tmod e.lowerFactor = 0

/-- The index modulo the `upper_factor`. -/
def applyUpper : Option IntExpr :=
  match e.upperFactor with
  | none => some e.index
  | some u => e.index.modImpl e.divMode (.intImm u)

/-- An expression divided by the `lower_factor`. -/
def applyLower (res : IntExpr) : Option IntExpr :=
  if e.lowerFactor ≠ 1 then res.divImpl e.divMode (.intImm e.lowerFactor) else some res

def normalizeWithScale (sscale : ℤ) : Option IntExpr :=
  if e.scale = 0 then some (.intImm 0)
  else do
    let res ← e.applyUpper
    let res ← e.applyLower res
    some (if sscale * e.scale ≠ 1 then res.mulOp (.intImm (sscale * e.scale)) else res)

def normalize : Option IntExpr := e.normalizeWithScale 1

def mulToSelf (scale : ℤ) : SplitExpr := { e with scale := e.scale * scale }

def indexEqual (other : SplitExpr) : Bool := e.index = other.index

def divModeCompatibleTo (mode : DivMode) : Bool :=
  e.divMode = mode || (e.lowerFactor = 1 && e.upperFactor = none)

/-- The comparison of `upper_factor`s, where `none` is the largest. -/
def upperLt : Option ℤ → Option ℤ → Bool
  | none, _ => false
  | some _, none => true
  | some u, some v => u < v

/-- The order of the splits in a normalized sum (`fcompare`). -/
def before (lhs rhs : SplitExpr) : Bool :=
  if lhs.scale ≠ rhs.scale then lhs.scale > rhs.scale
  else if lhs.lowerFactor ≠ rhs.lowerFactor then lhs.lowerFactor > rhs.lowerFactor
  else if lhs.upperFactor ≠ rhs.upperFactor then upperLt rhs.upperFactor lhs.upperFactor
  else lhs.divMode = .floorDiv && rhs.divMode = .truncDiv

end SplitExpr

/-! ## Sums -/

structure SumExpr where
  args : List SplitExpr
  base : ℤ
  deriving DecidableEq, Repr, Inhabited

namespace SumExpr

variable (e : SumExpr) (scale : ℤ)

def isZero : Bool := e.base = 0 && e.args.length = 0

def divideBy : Option SumExpr :=
  if e.base.tmod scale = 0 ∧ ∀ arg ∈ e.args, arg.scale.tmod scale = 0 then
    some { args := e.args.map fun arg => { arg with scale := arg.scale.tdiv scale }
           base := e.base.tdiv scale }
  else none

def mulToSelf : SumExpr := { args := e.args.map (·.mulToSelf scale), base := e.base * scale }

/-- Both splits are the same part of the index, in the same way. -/
def sameSplit (other arg : SplitExpr) : Bool :=
  other.lowerFactor = arg.lowerFactor && other.upperFactor = arg.upperFactor &&
    other.divModeCompatibleTo arg.divMode

/-- The second loop of `AddToSelf`, over the segment of splits with the same index. -/
def addToSegment (other : SplitExpr) (scale : ℤ) : List SplitExpr → List SplitExpr
  | [] => [other.mulToSelf scale]
  | arg :: args =>
    if !arg.indexEqual other || other.lowerFactor > arg.lowerFactor then
      other.mulToSelf scale :: arg :: args
    else if sameSplit other arg then
      { arg with scale := arg.scale + other.scale * scale } :: args
    else arg :: addToSegment other scale args

/-- The first loop of `AddToSelf`, up to the segment. -/
def addToArgs (other : SplitExpr) (scale : ℤ) : List SplitExpr → List SplitExpr
  | [] => [other.mulToSelf scale]
  | arg :: args =>
    if arg.indexEqual other then addToSegment other scale (arg :: args)
    else arg :: addToArgs other scale args

/-- `AddToSelf`, for a split. -/
def addSplit (other : SplitExpr) (scale : ℤ) : SumExpr :=
  if other.scale = 0 then e else { e with args := addToArgs other scale e.args }

/-- `AddToSelf`, for a constant. -/
def addConst (value : ℤ) : SumExpr := { e with base := e.base + value }

/-- `AddToSelf`, for a sum. -/
def addSum (other : SumExpr) (scale : ℤ) : SumExpr :=
  (other.args.foldl (fun e arg => e.addSplit arg scale) e).addConst (other.base * scale)

/-- Two splits that make up one: `(x / (c * s)) * s + (x % (c * s)) / c` is `x / c`. -/
def mergeable (w : ℤ → ℤ) (lhs rhs : SplitExpr) : Bool :=
  some lhs.lowerFactor = rhs.upperFactor && rhs.scale ≠ 0 &&
    lhs.scale.tmod rhs.scale = 0 &&
    lhs.lowerFactor = w (lhs.scale.tdiv rhs.scale * rhs.lowerFactor) &&
    lhs.divModeCompatibleTo rhs.divMode

/-- The inner loop of `SimplifySplitExprs`: merge a split into the ones that follow. -/
def mergeSplit (w : ℤ → ℤ) (lhs : SplitExpr) : List SplitExpr → SplitExpr × List SplitExpr
  | [] => (lhs, [])
  | rhs :: args =>
    if !lhs.indexEqual rhs then (lhs, rhs :: args)
    else if SplitExpr.upperLt lhs.upperFactor (some rhs.lowerFactor) then (lhs, rhs :: args)
    else if sameSplit lhs rhs then
      let (lhs', args') := mergeSplit w { lhs with scale := 0 } args
      (lhs', { rhs with scale := w (rhs.scale + lhs.scale) } :: args')
    else if mergeable w lhs rhs then
      ({ lhs with scale := 0 }, { rhs with upperFactor := lhs.upperFactor } :: args)
    else
      let (lhs', args') := mergeSplit w lhs args
      (lhs', rhs :: args')

/-- The outer loop of `SimplifySplitExprs`. -/
def mergeSplits (w : ℤ → ℤ) : ℕ → List SplitExpr → List SplitExpr
  | 0, args => args
  | _ + 1, [] => []
  | n + 1, lhs :: args =>
    if lhs.scale = 0 then lhs :: mergeSplits w n args
    else
      let (lhs', args') := mergeSplit w lhs args
      lhs' :: mergeSplits w n args'

def simplifySplitExprs (w : ℤ → ℤ) (args : List SplitExpr) : List SplitExpr :=
  (mergeSplits w args.length args).insertionSort fun lhs rhs => rhs.before lhs = false

/-- `Normalize_`: positive terms are added first, then negative ones are subtracted. -/
def normalizeArgs (args : List SplitExpr) (base : ℤ) : Option IntExpr := do
  let res ← args.foldlM (fun res arg =>
    if arg.scale > 0 then arg.normalize.map res.addOp else some res) (.intImm 0)
  let res := if base > 0 then res.addOp (.intImm base) else res
  let res ← args.foldlM (fun res arg =>
    if arg.scale < 0 then (arg.normalizeWithScale (-1)).map res.subOp else some res) res
  some (if base < 0 then res.subOp (.intImm (-base)) else res)

def normalizeOn (w : ℤ → ℤ) : Option IntExpr :=
  if e.args.length = 0 then some (.intImm e.base)
  else normalizeArgs (simplifySplitExprs w e.args) e.base

/-- `Normalize`, over unbounded integers. -/
def normalize : Option IntExpr := e.normalizeOn id

def separateDivisibleParts (psum : SumExpr) (coeff : ℤ) : SumExpr × SumExpr :=
  (⟨psum.args.filter (·.scale.tmod coeff = 0), if psum.base.tmod coeff = 0 then psum.base else 0⟩,
    ⟨psum.args.filter (·.scale.tmod coeff ≠ 0), if psum.base.tmod coeff = 0 then 0 else psum.base⟩)

end SumExpr

/-! ## Normal forms -/

/-- An expression, or one of the two normal forms. -/
inductive CanonicalExpr where
  | expr (e : IntExpr)
  | split (e : SplitExpr)
  | sum (e : SumExpr)
  deriving DecidableEq, Repr, Inhabited

namespace CanonicalExpr

/-- The constant an expression is (`as<IntImmNode>`). -/
def asIntImm : CanonicalExpr → Option ℤ
  | .expr e => e.asIntImm
  | _ => none

/-- A constant. -/
def intImm (c : ℤ) : CanonicalExpr := .expr (.intImm c)

def normalize : CanonicalExpr → Option IntExpr
  | .expr e => some e
  | .split e => e.normalize
  | .sum e => e.normalize

def toSplitExpr : CanonicalExpr → Option SplitExpr
  | .expr e => some (.ofIndex e)
  | .split e => some e
  | .sum ⟨[arg], 0⟩ => some arg
  | .sum e => e.normalize.map .ofIndex

def toSumExpr : CanonicalExpr → SumExpr
  | .expr (.intImm c) => ⟨[], c⟩
  | .expr e => ⟨[.ofIndex e], 0⟩
  | .split e => ⟨[e], 0⟩
  | .sum e => e

/-- Add a normal form to a sum, `scale` times. -/
def addTo (ret : SumExpr) (scale : ℤ) : CanonicalExpr → SumExpr
  | .expr (.intImm c) => ret.addConst (c * scale)
  | .expr e => ret.addSplit (.ofIndex e) scale
  | .split e => ret.addSplit e scale
  | .sum e => ret.addSum e scale

variable (a b : CanonicalExpr)

/-- `VisitExpr_` of an addition, for operands in normal form. -/
def add : CanonicalExpr := (tryConstFoldAdd asIntImm intImm a b).getD (.sum (addTo a.toSumExpr 1 b))

/-- `VisitExpr_` of a subtraction, for operands in normal form. -/
def sub : CanonicalExpr :=
  (tryConstFoldSub asIntImm intImm a b).getD (.sum (addTo a.toSumExpr (-1) b))

/-- A normal form times a constant. -/
def mulConst (c : ℤ) : CanonicalExpr :=
  match a with
  | .expr e => .split ((SplitExpr.ofIndex e).mulToSelf c)
  | .split e => .split (e.mulToSelf c)
  | .sum e => .sum (e.mulToSelf c)

/-- `VisitExpr_` of a multiplication, for operands in normal form. -/
def mul : Option CanonicalExpr :=
  match tryConstFoldMul asIntImm intImm a b with
  | some r => some r
  | none =>
    match a.asIntImm, b.asIntImm with
    | some x, _ => some (b.mulConst x)
    | none, some y => some (a.mulConst y)
    | none, none => do
      let a ← a.normalize
      let b ← b.normalize
      some (.expr (.mul a b))

end CanonicalExpr

/-! ## What the simplifier asks the analyzer -/

/-- Bounds of an expression; `none` is infinite. -/
structure ConstIntBound where
  minValue : Option ℤ
  maxValue : Option ℤ
  deriving DecidableEq, Repr, Inhabited

/-- The queries of the analyzer. -/
structure BoundQueries where
  constIntBound : IntExpr → ConstIntBound
  canProveGreaterEqual : IntExpr → ℤ → Bool

/-- The results of `TryCompare`. -/
inductive CompareResult where
  | unknown
  | eq
  | gt
  | ge
  | lt
  | le
  deriving DecidableEq, Repr, Inhabited

/-- The bounds say that `0 <= e < cval`. -/
def ConstIntBound.below (b : ConstIntBound) (cval : ℤ) : Bool :=
  b.minValue.any (· ≥ 0) && b.maxValue.any (· < cval)

variable (analyzer : BoundQueries) (visitExpr : IntExpr → Option IntExpr)

/-- `TryCompare`, for a `val` that is not zero. -/
def tryCompare (x : IntExpr) (val : ℤ) : Option CompareResult := do
  let diff ← visitExpr x
  match diff.asIntImm with
  | some c => some (if c = val then .eq else if c > val then .gt else .lt)
  | none =>
    let dbound := analyzer.constIntBound diff
    some (if dbound.minValue.any (· > val) then .gt
      else if dbound.maxValue.any (· < val) then .lt
      else if dbound.minValue.any (· ≥ val) then .ge
      else if dbound.maxValue.any (· ≤ val) then .le
      else .unknown)

/-! ## Dividing splits -/

def convertDivMode (expr : SplitExpr) (divMode : DivMode) : Option SplitExpr :=
  if expr.divMode = divMode then some expr
  else if expr.divModeCompatibleTo divMode then some { expr with divMode := divMode }
  else do
    let e ← expr.normalize
    some { SplitExpr.ofIndex e with divMode := divMode }

def splitDivConst (lhs : SplitExpr) (cval : ℤ) (divMode : DivMode) : Option SplitExpr := do
  if cval ≤ 0 then none
  else
    let lhs ← convertDivMode lhs divMode
    if lhs.scale.tmod cval = 0 then some { lhs with scale := lhs.scale.tdiv cval }
    else if cval.tmod lhs.scale = 0 then
      let lower := lhs.lowerFactor * cval.tdiv lhs.scale
      match lhs.upperFactor with
      | none => some { lhs with scale := 1, lowerFactor := lower }
      | some u =>
        if u.tmod lower = 0 then
          let ret := { lhs with scale := 1, lowerFactor := lower }
          if ret.verify then some ret else none
        else if u ≤ lower then some (.ofIndex (.intImm 0))
        else do
          -- The modulo is moved into the index.
          let index ← lhs.index.modImpl divMode (.intImm u)
          some { index := index, upperFactor := none, scale := 1, lowerFactor := lower,
                 divMode := divMode }
    else do
      let e ← lhs.normalize
      some { SplitExpr.ofIndex e with lowerFactor := cval, divMode := divMode }

def splitModConst (lhs : SplitExpr) (cval : ℤ) (divMode : DivMode) : Option SplitExpr := do
  if cval ≤ 0 then none
  else
    let lhs ← convertDivMode lhs divMode
    -- The value is normalized when nothing else applies.
    let normalizedMod : Option SplitExpr := do
      let e ← lhs.normalize
      some { SplitExpr.ofIndex e with upperFactor := some cval, divMode := divMode }
    if lhs.scale.tmod cval = 0 then some { lhs with scale := 0 }
    else if cval.tmod lhs.scale = 0 then
      let newUpper := lhs.lowerFactor * cval.tdiv lhs.scale
      match lhs.upperFactor with
      | none => some { lhs with upperFactor := some newUpper }
      | some u =>
        if u.tmod newUpper = 0 then
          if newUpper < u then do
            let index ← lhs.index.modImpl divMode (.intImm newUpper)
            let e ← visitExpr index
            let updated := { SplitExpr.ofIndex e with scale := lhs.scale }
            if lhs.lowerFactor ≠ 1 then splitDivConst updated lhs.lowerFactor divMode
            else some updated
          else some { lhs with upperFactor := some newUpper }
        else if newUpper.tmod u = 0 then some lhs
        else normalizedMod
    else normalizedMod

/-! ## Divisions -/

variable (divMode : DivMode) (a : CanonicalExpr)

/-- A division of a term that is not a sum: it is zero when the bounds say so. -/
def divTerm (cval : ℤ) : Option CanonicalExpr := do
  let e ← a.normalize
  if (analyzer.constIntBound e).below cval then some (.intImm 0)
  else do
    let split ← a.toSplitExpr
    (splitDivConst split cval divMode).map .split

/-- `VisitExpr_` of a truncated division by a positive constant. -/
def truncDivConst (cval : ℤ) : Option CanonicalExpr :=
  match a with
  | .sum psum => do
    let (lhs, extra) := psum.separateDivisibleParts cval
    if extra.isZero then (lhs.divideBy cval).map .sum
    else do
      let low ← lhs.normalize
      let temp ← extra.normalize
      if analyzer.canProveGreaterEqual low 0 && analyzer.canProveGreaterEqual temp 0 then do
        let lhs ← lhs.divideBy cval
        match temp.asIntImm with
        | some c => some (.sum (lhs.addConst (c.tdiv cval)))
        | none => do
          if (← tryCompare analyzer visitExpr temp cval) = .lt then some (.sum lhs)
          else do
            let split ← splitDivConst (.ofIndex temp) cval .truncDiv
            some (.sum (lhs.addSplit split 1))
      else do
        let split ← a.toSplitExpr
        (splitDivConst split cval .truncDiv).map .split
  | a => divTerm analyzer .truncDiv a cval

/-- `VisitExpr_` of a floor division by a positive constant. -/
def floorDivConst (cval : ℤ) : Option CanonicalExpr :=
  match a with
  | .sum psum => do
    let (lhs, extra) := psum.separateDivisibleParts cval
    if extra.isZero then (lhs.divideBy cval).map .sum
    else do
      let lhs ← lhs.divideBy cval
      let temp ← extra.normalize
      match temp.asIntImm with
      | some c => some (.sum (lhs.addConst (c.fdiv cval)))
      | none => do
        if (← tryCompare analyzer visitExpr temp cval) = .lt &&
            analyzer.canProveGreaterEqual temp 0 then some (.sum lhs)
        else do
          let split ← splitDivConst (.ofIndex temp) cval .floorDiv
          some (.sum (lhs.addSplit split 1))
  | a => divTerm analyzer .floorDiv a cval

/-- A modulo of a term that is not a sum: it is the term when the bounds say so. -/
def modTerm (cval : ℤ) : Option CanonicalExpr := do
  let e ← a.normalize
  if (analyzer.constIntBound e).below cval then some a
  else do
    let split ← a.toSplitExpr
    (splitModConst visitExpr split cval divMode).map .split

/-- The modulo of a sum whose multiples of the divisor have been dropped. -/
def modSum (a : SumExpr) (cval : ℤ) : Option CanonicalExpr := do
  let split ← (CanonicalExpr.sum a).toSplitExpr
  (splitModConst visitExpr split cval divMode).map .split

/-- The end of `VisitExpr_` of a truncated modulo: the base is reduced when neither the sum
before nor the one after that is negative. -/
def truncModSum (a : SumExpr) (cval : ℤ) : Option CanonicalExpr := do
  let e ← a.normalize
  let newBase := a.base.tmod cval
  if (analyzer.constIntBound e).minValue.any fun m => m ≥ 0 && m - a.base + newBase ≥ 0 then
    modSum visitExpr .truncDiv { a with base := newBase } cval
  else modSum visitExpr .truncDiv a cval

/-- `VisitExpr_` of a truncated modulo by a positive constant. -/
def truncModConst (cval : ℤ) : Option CanonicalExpr :=
  match a with
  | .sum psum => do
    let (lhs, extra) := psum.separateDivisibleParts cval
    if extra.isZero then some (.intImm 0)
    else do
      let low ← lhs.normalize
      let temp ← extra.normalize
      if analyzer.canProveGreaterEqual low 0 && analyzer.canProveGreaterEqual temp 0 then
        match temp.asIntImm with
        | some c => some (.intImm (c.tmod cval))
        | none => do
          if (← tryCompare analyzer visitExpr temp cval) = .lt then some (.expr temp)
          else truncModSum analyzer visitExpr extra cval
      else truncModSum analyzer visitExpr psum cval
  | a => modTerm analyzer visitExpr .truncDiv a cval

/-- `VisitExpr_` of a floor modulo by a positive constant. -/
def floorModConst (cval : ℤ) : Option CanonicalExpr :=
  match a with
  | .sum psum => do
    let extra := (psum.separateDivisibleParts cval).2
    let temp ← extra.normalize
    match temp.asIntImm with
    | some c => some (.intImm (c.fmod cval))
    | none => do
      if (← tryCompare analyzer visitExpr temp cval) = .lt &&
          analyzer.canProveGreaterEqual temp 0 then some (.expr temp)
      else modSum visitExpr .floorDiv { extra with base := extra.base.fmod cval } cval
  | a => modTerm analyzer visitExpr .floorDiv a cval

/-- `VisitExpr_` of a division or a modulo, for operands in normal form: constants are folded
first, and a divisor that is not a positive constant is left alone. -/
def visitDivision (fold : Option (Option CanonicalExpr)) (node : IntExpr → IntExpr → IntExpr)
    (divConst : CanonicalExpr → ℤ → Option CanonicalExpr) (a b : CanonicalExpr) :
    Option CanonicalExpr := do
  match ← fold with
  | some r => some r
  | none =>
    match b.asIntImm.filter (· > 0) with
    | some cval => divConst a cval
    | none => do
      let a ← a.normalize
      let b ← b.normalize
      some (.expr (node a b))

/-- `VisitExpr_` of a division. -/
def visitDiv (mode : DivMode) (a b : CanonicalExpr) : Option CanonicalExpr :=
  visitDivision (tryConstFoldDiv CanonicalExpr.asIntImm .intImm mode a b) (.div mode)
    (match mode with
      | .truncDiv => truncDivConst analyzer visitExpr
      | .floorDiv => floorDivConst analyzer visitExpr) a b

/-- `VisitExpr_` of a modulo. -/
def visitMod (mode : DivMode) (a b : CanonicalExpr) : Option CanonicalExpr :=
  visitDivision (tryConstFoldMod CanonicalExpr.asIntImm .intImm mode a b) (.mod mode)
    (match mode with
      | .truncDiv => truncModConst analyzer visitExpr
      | .floorDiv => floorModConst analyzer visitExpr) a b

def canonicalMutate : IntExpr → Option CanonicalExpr
  | .intImm c => some (.intImm c)
  | .var x => some (.expr (.var x))
  | .add a b => do
    let a ← canonicalMutate a
    let b ← canonicalMutate b
    some (a.add b)
  | .sub a b => do
    let a ← canonicalMutate a
    let b ← canonicalMutate b
    some (a.sub b)
  | .mul a b => do
    let a ← canonicalMutate a
    let b ← canonicalMutate b
    a.mul b
  | .div mode a b => do
    let a ← canonicalMutate a
    let b ← canonicalMutate b
    visitDiv analyzer visitExpr mode a b
  | .mod mode a b => do
    let a ← canonicalMutate a
    let b ← canonicalMutate b
    visitMod analyzer visitExpr mode a b

/-- `VisitExpr` of the simplifier, which is also `CanonicalSimplify`. -/
def canonicalSimplify (analyzer : BoundQueries) : ℕ → IntExpr → Option IntExpr
  | 0, _ => none
  | fuel + 1, e => do
    let r ← canonicalMutate analyzer (canonicalSimplify analyzer fuel) e
    r.normalize

end Pruner.Arith
