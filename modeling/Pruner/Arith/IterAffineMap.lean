import Mathlib.Algebra.BigOperators.Group.List.Basic
import Pruner.Lib.NodeTable
import Pruner.Tir.Expr

/-!
# Detecting iterator maps

`DetectIterMap` rewrites index expressions over iterators with constant ranges into sums
of splits of iterator marks.  A mark is an iterator, or a sum of splits that has been fused
into one iterator; fused marks are shared between the indices through `sum_fuse_map_`.  The
indices are accepted when the splits of every mark tile its extent and every iterator
is used.

All extents, factors and scales are constants here, so nothing is left to the analyzer.
Marks are compared by pointer in the source; here they are kept in a table and referred to
by their position.  An expression that cannot be rewritten, and a check of the source that
fails, both end in `none`.

## Main definitions

* `IterSplitExpr`, `IterSumExpr`, `IterMark` — the expressions of an iterator map.
* `IterMapRewriter.tryFuseIters` — fusing the splits of a sum into one mark.
* `IterMapRewriter.visitExpr` — rewriting one expression.
* `IterMapRewriter.checkBijective` — the check that splits tile the marks.
* `detectIterMap` — the detection, for all indices.
* `markValues` — the values of the marks, for given values of the iterators.
-/

namespace Pruner.Arith

open Tir

/-- `floormod(floordiv(source, lower_factor), extent) * scale`. -/
structure IterSplitExpr where
  source : ℕ
  lowerFactor : ℤ
  extent : ℤ
  scale : ℤ
  deriving DecidableEq, Repr, Inhabited

structure IterSumExpr where
  args : List IterSplitExpr
  base : ℤ
  deriving DecidableEq, Repr, Inhabited

/-- What a mark stands for: the distance of an iterator from its first value, or a sum. -/
inductive MarkSource where
  | iter (var : String) (min : ℤ)
  | sum (expr : IterSumExpr)
  deriving DecidableEq, Repr, Inhabited

/-- An iterator from zero to its extent. -/
structure IterMark where
  source : MarkSource
  extent : ℤ
  deriving DecidableEq, Repr, Inhabited

/-- What an expression is rewritten to: a constant, or an iterator map expression. -/
inductive IterMapExpr where
  | intImm (value : ℤ)
  | split (expr : IterSplitExpr)
  | sum (expr : IterSumExpr)
  deriving DecidableEq, Repr, Inhabited

variable (mark : ℕ) (lhs : IterSumExpr) (iters : InputIters) (σ : IterMapRewriter) (vals : List ℤ)
  (ρ : String → ℤ)

/-- The split that covers a whole mark. -/
def IterSplitExpr.ofMark (extent scale : ℤ) : IterSplitExpr := ⟨mark, 1, extent, scale⟩

/-- `CanProveDivisible`, for constants. -/
def canProveDivisible (lhs rhs : ℤ) : Bool := lhs.tmod rhs = 0

/-! ## Sums of splits -/

namespace IterSumExpr

/-- `AddToLhs`, for one split: a split of the same part of the same mark is merged. -/
def addToArgs (rhs : IterSplitExpr) (sign : ℤ) : List IterSplitExpr → List IterSplitExpr
  | [] => [if sign > 0 then rhs else { rhs with scale := 0 - rhs.scale }]
  | lvalue :: args =>
    if lvalue.source = rhs.source ∧ lvalue.lowerFactor = rhs.lowerFactor ∧
        lvalue.extent = rhs.extent then
      { rhs with scale :=
          if sign > 0 then lvalue.scale + rhs.scale else lvalue.scale - rhs.scale } :: args
    else lvalue :: addToArgs rhs sign args

/-- `AddToLhs`, for a split. -/
def addSplit (rhs : IterSplitExpr) (sign : ℤ) : IterSumExpr :=
  { lhs with args := addToArgs rhs sign lhs.args }

/-- `AddToLhs`, for a sum. -/
def addSum (rhs : IterSumExpr) (sign : ℤ) : IterSumExpr :=
  let ret := rhs.args.foldl (fun ret arg => ret.addSplit arg sign) lhs
  { ret with base := if sign > 0 then ret.base + rhs.base else ret.base - rhs.base }

def mulToLhs (rhs : ℤ) : IterSumExpr :=
  { args := lhs.args.map fun lvalue => { lvalue with scale := lvalue.scale * rhs }
    base := lhs.base * rhs }

/-- The canonical form of a sum: the splits, outermost first, with their scales divided by
the one of the innermost. -/
def canonical (baseScale : ℤ) (iters : List IterSplitExpr) : IterSumExpr :=
  { args := iters.reverse.map fun arg => { arg with scale := arg.scale.tdiv baseScale }
    base := 0 }

/-- Add or subtract a rewritten expression. -/
def addExpr (sign : ℤ) : IterMapExpr → IterSumExpr
  | .intImm c => { lhs with base := if sign > 0 then lhs.base + c else lhs.base - c }
  | .split rhs => lhs.addSplit rhs sign
  | .sum rhs => lhs.addSum rhs sign

end IterSumExpr

namespace IterMapExpr

def toIterSumExpr : IterMapExpr → IterSumExpr
  | .intImm c => ⟨[], c⟩
  | .split e => ⟨[e], 0⟩
  | .sum e => e

/-- `VisitExpr_` of an addition, for rewritten operands. -/
def add : IterMapExpr → IterMapExpr → IterMapExpr
  | .intImm x, .intImm y => .intImm (x + y)
  | a, b =>
    if a = .intImm 0 then b
    else if b = .intImm 0 then a
    else .sum (a.toIterSumExpr.addExpr 1 b)

/-- `VisitExpr_` of a subtraction, for rewritten operands. -/
def sub : IterMapExpr → IterMapExpr → IterMapExpr
  | .intImm x, .intImm y => .intImm (x - y)
  | a, b => if b = .intImm 0 then a else .sum (a.toIterSumExpr.addExpr (-1) b)

/-- An iterator map expression times a constant. -/
def scaleBy (c : ℤ) : IterMapExpr → IterMapExpr
  | .intImm x => .intImm (x * c)
  | .split e => if c = 1 then .split e else if c = 0 then .intImm 0
      else .split { e with scale := e.scale * c }
  | .sum e => if c = 1 then .sum e else if c = 0 then .intImm 0 else .sum (e.mulToLhs c)

/-- `VisitExpr_` of a multiplication, for rewritten operands: two iterators cannot be
multiplied. -/
def mul : IterMapExpr → IterMapExpr → Option IterMapExpr
  | .intImm x, b => some (b.scaleBy x)
  | a, .intImm y => some (a.scaleBy y)
  | _, _ => none

end IterMapExpr

/-! ## Splitting -/

namespace IterSplitExpr

def splitFloorDivConst (lhs : IterSplitExpr) (rhs : ℤ) : Option IterMapExpr :=
  if rhs = 1 then some (.split lhs)
  else if lhs.scale ≠ 1 ∧ canProveDivisible lhs.scale rhs then
    some (.split { lhs with scale := lhs.scale.fdiv rhs })
  else if lhs.scale ≠ 1 ∧ !canProveDivisible rhs lhs.scale then none
  else
    let rhs := if lhs.scale ≠ 1 then rhs.fdiv lhs.scale else rhs
    if canProveDivisible lhs.extent rhs then
      some (.split ⟨lhs.source, lhs.lowerFactor * rhs, lhs.extent.fdiv rhs, 1⟩)
    else none

def splitFloorModConst (lhs : IterSplitExpr) (rhs : ℤ) : Option IterMapExpr :=
  if rhs = 1 then some (.intImm 0)
  else if lhs.scale ≠ 1 ∧ canProveDivisible lhs.scale rhs then some (.intImm 0)
  else if lhs.scale ≠ 1 ∧ !canProveDivisible rhs lhs.scale then none
  else
    let rhs := if lhs.scale ≠ 1 then rhs.fdiv lhs.scale else rhs
    if canProveDivisible lhs.extent rhs then some (.split { lhs with extent := rhs })
    else none

end IterSplitExpr

/-! ## Choosing splits in order -/

/-- The loop that `TryNormalizeSplits` and `TryFuseIters` share: `n` times, take the first
remaining split whose key is the product of the extents taken before it. -/
def takeChain (key : IterSplitExpr → ℤ) :
    ℕ → ℤ → List IterSplitExpr → Option (List IterSplitExpr × ℤ)
  | 0, expected, _ => some ([], expected)
  | n + 1, expected, splits => do
    let split ← splits.find? fun split => key split = expected
    let (iters, total) ← takeChain key n (expected * split.extent) (splits.erase split)
    some (split :: iters, total)

/-- `TryNormalizeSplits`: the splits from the outermost to the innermost, or nothing. -/
def tryNormalizeSplits (extent : ℤ) (splits : List IterSplitExpr) : List IterSplitExpr :=
  match takeChain (·.lowerFactor) splits.length 1 splits with
  | none => []
  | some (iters, total) => if total = extent then iters.reverse else []

/-! ## The rewriter -/

/-- The state of the rewriter. -/
structure IterMapRewriter where
  marks : List IterMark
  varMap : List (String × IterMapExpr)
  inputMarks : List ℕ
  sumFuseMap : List (IterSumExpr × IterSplitExpr)
  deriving DecidableEq, Repr, Inhabited

/-- The iterators and their ranges, at most one for each variable. -/
structure InputIters where
  ranges : List (String × ConstRange)
  nodup : (ranges.map Prod.fst).Nodup

namespace IterMapRewriter

/-- The expression of an iterator: a base is left over when it does not start at zero. -/
def iterExpr (r : ConstRange) : IterMapExpr :=
  if r.min = 0 then .split (.ofMark mark r.extent 1)
  else .sum ⟨[.ofMark mark r.extent 1], r.min⟩

/-- The constructor: a mark for every iterator. -/
def ofInputIters : IterMapRewriter :=
  { marks := iters.ranges.map fun it => ⟨.iter it.1 it.2.min, it.2.extent⟩
    varMap := iters.ranges.zipIdx.map fun it => (it.1.1, iterExpr it.2 it.1.2)
    inputMarks := List.range iters.ranges.length
    sumFuseMap := [] }

/-- `TryFuseIters`.  The smallest scale is that of the innermost split.  The search for it
starts at its index, which is the first one where it can be found. -/
def tryFuseIters (expr : IterSumExpr) : Option (IterSplitExpr × IterMapRewriter) :=
  if expr.base ≠ 0 then none
  else match expr.args with
    | [arg] => some (arg, σ)
    | args => do
      let baseScale ← (args.map (·.scale)).min?
      let (iters, total) ← takeChain (·.scale) args.length baseScale args
      -- `div` by a constant zero fails.
      if baseScale = 0 then none
      else
        let fused := IterSumExpr.canonical baseScale iters
        match σ.sumFuseMap.lookup fused with
        | some split => some (split, σ)
        | none =>
          let extent := total.tdiv baseScale
          let split := IterSplitExpr.ofMark σ.marks.length extent baseScale
          some (split, { σ with
            marks := σ.marks ++ [⟨.sum fused, extent⟩]
            sumFuseMap := σ.sumFuseMap ++ [(fused, split)] })

def normalizeToIterWithOffset (expr : IterSumExpr) : Option (IterSumExpr × IterMapRewriter) :=
  if expr.args.length ≤ 1 then some (expr, σ)
  else do
    let (split, σ) ← σ.tryFuseIters { expr with base := 0 }
    some (⟨[split], expr.base⟩, σ)

/-- The split that is divided by a constant. -/
def toSplit : IterMapExpr → Option (IterSplitExpr × IterMapRewriter)
  | .intImm _ => none
  | .split e => some (e, σ)
  | .sum e => σ.tryFuseIters e

/-- `VisitExpr_` of a division or a modulo, for rewritten operands: what is computed for two
constants, for the divisor one, and for a split and a constant. -/
def divide (op : ℤ → ℤ → ℤ) (byOne : IterMapExpr → IterMapExpr)
    (splitConst : IterSplitExpr → ℤ → Option IterMapExpr) :
    IterMapExpr → IterMapExpr → Option (IterMapExpr × IterMapRewriter)
  | .intImm x, .intImm y => if y = 0 then none else some (.intImm (op x y), σ)
  | .intImm x, _ => if x = 0 then some (.intImm 0, σ) else none
  | a, .intImm y =>
    if y = 1 then some (byOne a, σ)
    else if y = 0 then none
    else do
      let (split, σ) ← σ.toSplit a
      let ret ← splitConst split y
      some (ret, σ)
  | _, _ => none

/-- `VisitExpr_` of a floor division, for rewritten operands. -/
def floorDiv (a b : IterMapExpr) : Option (IterMapExpr × IterMapRewriter) :=
  σ.divide Int.fdiv id IterSplitExpr.splitFloorDivConst a b

/-- `VisitExpr_` of a floor modulo, for rewritten operands. -/
def floorMod (a b : IterMapExpr) : Option (IterMapExpr × IterMapRewriter) :=
  σ.divide Int.fmod (fun _ => .intImm 0) IterSplitExpr.splitFloorModConst a b

/-- `DirectMutate`. -/
def visitExpr : PrimExpr → IterMapRewriter → Option (IterMapExpr × IterMapRewriter)
  | .intImm c, σ => some (.intImm c, σ)
  | .var x, σ => (σ.varMap.lookup x).map fun e => (e, σ)
  | .addNode a b, σ => do
    let (a, σ) ← visitExpr a σ
    let (b, σ) ← visitExpr b σ
    some (a.add b, σ)
  | .subNode a b, σ => do
    let (a, σ) ← visitExpr a σ
    let (b, σ) ← visitExpr b σ
    some (a.sub b, σ)
  | .mulNode a b, σ => do
    let (a, σ) ← visitExpr a σ
    let (b, σ) ← visitExpr b σ
    let ret ← a.mul b
    some (ret, σ)
  | .floorDivNode a b, σ => do
    let (a, σ) ← visitExpr a σ
    let (b, σ) ← visitExpr b σ
    σ.floorDiv a b
  | .floorModNode a b, σ => do
    let (a, σ) ← visitExpr a σ
    let (b, σ) ← visitExpr b σ
    σ.floorMod a b

def rewrite (expr : PrimExpr) : Option (IterSumExpr × IterMapRewriter) := do
  let (e, σ) ← visitExpr expr σ
  σ.normalizeToIterWithOffset e.toIterSumExpr

end IterMapRewriter

/-! ## The check -/

/-- The marks that have been visited, and the splits that refer to a mark, in the order they
were found. -/
structure IterMarkSplitCollector where
  visited : List ℕ
  mark2splits : List IterSplitExpr
  deriving DecidableEq, Repr, Inhabited

namespace IterMarkSplitCollector

def splitsOf (c : IterMarkSplitCollector) (mark : ℕ) : List IterSplitExpr :=
  c.mark2splits.filter fun split => split.source = mark

def push (c : IterMarkSplitCollector) (split : IterSplitExpr) : IterMarkSplitCollector :=
  { c with mark2splits := c.mark2splits ++ [split] }

/-- `CollectInternal`.  A mark refers to marks before it only, so a fuel above the mark
is enough. -/
def collectInternal (marks : List IterMark) :
    ℕ → IterMarkSplitCollector → ℕ → IterMarkSplitCollector
  | 0, c, _ => c
  | fuel + 1, c, mark =>
    if mark ∈ c.visited then c
    else
      let c := { c with visited := mark :: c.visited }
      match marks[mark]? with
      | some ⟨.sum expr, _⟩ => expr.args.foldl
          (fun c split => (collectInternal marks fuel c split.source).push split) c
      | _ => c

def collect (marks : List IterMark) (indices : List IterSumExpr) : IterMarkSplitCollector :=
  indices.foldl (fun c sumExpr => sumExpr.args.foldl
    (fun c split => (collectInternal marks marks.length c split.source).push split) c) ⟨[], []⟩

end IterMarkSplitCollector

def IterMapRewriter.checkBijective (indices : List IterSumExpr) : Bool :=
  let collector := IterMarkSplitCollector.collect σ.marks indices
  collector.visited.all (fun mark => match σ.marks[mark]? with
    | some m => !(tryNormalizeSplits m.extent (collector.splitsOf mark)).isEmpty
    | none => false) &&
  σ.inputMarks.all fun mark => mark ∈ collector.visited

def rewriteAll : List PrimExpr → IterMapRewriter → Option (List IterSumExpr × IterMapRewriter)
  | [], σ => some ([], σ)
  | value :: indices, σ => do
    let (result, σ) ← σ.rewrite value
    let (results, σ) ← rewriteAll indices σ
    some (result :: results, σ)

/-- `DetectIterMap`.  The marks that the results refer to are returned with them. -/
def detectIterMap (indices : List PrimExpr) (iters : InputIters) :
    Option (List IterSumExpr × List IterMark) := do
  let (results, σ) ← rewriteAll indices (.ofInputIters iters)
  if σ.checkBijective results then some (results, σ.marks) else none

/-! ## Values -/

/-- The part of a mark that a split takes. -/
def IterSplitExpr.digit (e : IterSplitExpr) : ℤ :=
  ((vals.getD e.source 0).fdiv e.lowerFactor).fmod e.extent

/-- The value of a split. -/
def IterSplitExpr.eval (e : IterSplitExpr) : ℤ := e.digit vals * e.scale

/-- The value of a sum. -/
def IterSumExpr.eval (e : IterSumExpr) : ℤ := (e.args.map (·.eval vals)).sum + e.base

/-- The value of what a mark stands for. -/
def MarkSource.eval (vals : List ℤ) : MarkSource → ℤ
  | .iter x min => ρ x - min
  | .sum e => e.eval vals

def markValues (marks : List IterMark) : List ℤ :=
  Lib.nodeValues (fun vals m => m.source.eval ρ vals) marks

/-- The points of the iteration domain. -/
def InDomain : Prop := ∀ it ∈ iters.ranges, it.2.Has (ρ it.1)

end Pruner.Arith
