import Pruner.Tir.Expr

/-!
# Iteration variables and operations of the tensor expression language

The objects `te::Schedule` works on: iteration variables, the relations that splits
and fuses record between them, and operations.

C++ compares these objects by address.  An address is modelled by a reference that
is part of the value: an `IterVar` carries an `IterVarRef`, and an `Operation` a
number.  A variable that the computation declares has a `declared` reference, which
two operations may share (one `te.reduce_axis` can be used in two reductions); a
variable that a split or a fuse makes has the number of the operation whose stage it is
made in, and its position among the variables of that stage.

The arithmetic inside an operation is kept as a `Body`: where the expression comes
from, and the loop structure it was rewritten along.  Names and tags of operations
are left out.

## Main definitions

* `IterVar`, `Relation` — loop variables and the `Split`/`Fuse`/`Singleton` nodes.
* `Operation` — placeholders and computations.
* `Operation.rootIterVars` — the loops of an unscheduled operation.
-/

namespace Pruner.Te

open Tir

/-- `IterVarType`, in the order of the enumeration. -/
inductive IterVarType where
  | kDataPar
  | kThreadIndex
  | kCommReduce
  | kOrdered
  | kOpaque
  | kUnrolled
  | kVectorized
  | kParallelized
  | kTensorized
  deriving DecidableEq, Repr, Inhabited

/-- The number of the enumerator. -/
def IterVarType.toNat : IterVarType → ℕ
  | .kDataPar => 0
  | .kThreadIndex => 1
  | .kCommReduce => 2
  | .kOrdered => 3
  | .kOpaque => 4
  | .kUnrolled => 5
  | .kVectorized => 6
  | .kParallelized => 7
  | .kTensorized => 8

/-- Which object an iteration variable is. -/
inductive IterVarRef where
  | declared (n : ℕ)
  | made (op k : ℕ)
  deriving DecidableEq, Repr, Inhabited

/-- A variable of the computation itself, not one made while scheduling. -/
def IterVarRef.isDeclared : IterVarRef → Bool
  | .declared _ => true
  | .made _ _ => false

/-- An iteration variable.  The domain is defined for the axes of an operation and
absent for the results of splits and fuses. -/
structure IterVar where
  ref : IterVarRef
  name : String
  iterType : IterVarType
  dom : Option Range
  deriving DecidableEq, Repr, Inhabited

/-- An axis as `te.compute` declares it. -/
def IterVar.dataPar (n : ℕ) (name : String) (extent : ℤ) : IterVar :=
  ⟨.declared n, name, .kDataPar, some (.upTo extent)⟩

/-- An axis as `te.reduce_axis` declares it. -/
def IterVar.commReduce (n : ℕ) (name : String) (extent : ℤ) : IterVar :=
  ⟨.declared n, name, .kCommReduce, some (.upTo extent)⟩

/-- The relations between the iteration variables of a stage.  `factor` and `nparts`
of a split are exclusive. -/
inductive Relation where
  | split (parent outer inner : IterVar) (factor nparts : Option ℤ)
  | fuse (outer inner fused : IterVar)
  | singleton (iter : IterVar)
  deriving DecidableEq, Repr, Inhabited

/-- One output of an operation. -/
structure Tensor where
  op : ℕ
  valueIndex : ℕ
  deriving DecidableEq, Repr, Inhabited

/-- What an operation computes from its inputs: the expression the computation was
written with, or the rewriting that produced it. -/
inductive Body where
  /-- The expression of operation `n` of the computation. -/
  | source (n : ℕ)
  /-- A copy of the only input, made by `cache_read`. -/
  | copy
  /-- `body` over the leaves of the loop nest it was written to, made by `cache_write`. -/
  | relayout (body : Body) (relations : List Relation) (leaf : List IterVar)
  /-- Reads the cache back at the indices of the leaves. -/
  | readBack (relations : List Relation) (leaf : List IterVar)
  /-- The partial reductions of `body` over all but one reduction loop. -/
  | partialReduce (body : Body) (relations : List Relation) (leaf : List IterVar)
      (axis : IterVar) (factorAxis : ℕ)
  /-- Reduces the partial results. -/
  | finalReduce (body : Body) (factorAxis : ℕ)
  deriving DecidableEq, Repr, Inhabited

/-- `ComputeOpNode`.  `layoutFreePlaceholders` is the attribute of that name. -/
structure ComputeOp where
  axis : List IterVar
  reduceAxis : List IterVar
  inputs : List Tensor
  numOutputs : ℕ
  body : Body
  layoutFreePlaceholders : Option (List Tensor)
  deriving DecidableEq, Repr, Inhabited

/-- The two kinds of operation a computation of the auto-scheduler may have. -/
inductive OpNode where
  | placeholder (shape : List PrimExpr)
  | compute (c : ComputeOp)
  deriving DecidableEq, Repr, Inhabited

structure Operation where
  id : ℕ
  node : OpNode
  deriving DecidableEq, Repr, Inhabited

namespace Operation

def declare (id : ℕ) (axis reduceAxis : List IterVar) (inputs : List ℕ) : Operation :=
  ⟨id, .compute
    { axis := axis
      reduceAxis := reduceAxis
      inputs := inputs.map fun i => ⟨i, 0⟩
      numOutputs := 1
      body := .source id
      layoutFreePlaceholders := none }⟩

variable (op : Operation)

/-- `op.as<ComputeOpNode>()`. -/
def asCompute : Option ComputeOp :=
  match op.node with
  | .placeholder _ => none
  | .compute c => some c

/-- `root_iter_vars`: the axes, then the reduction axes. -/
def rootIterVars : List IterVar :=
  match op.node with
  | .placeholder _ => []
  | .compute c => c.axis ++ c.reduceAxis

def numOutputs : ℕ :=
  match op.node with
  | .placeholder _ => 1
  | .compute c => c.numOutputs

def outputShape : List PrimExpr :=
  match op.node with
  | .placeholder shape => shape
  | .compute c => c.axis.map fun iv => (iv.dom.map Range.extent).getD (.intImm 0)

/-- `op.output(i)`. -/
def output (i : ℕ) : Tensor := ⟨op.id, i⟩

/-- `ReplaceInputs`: the operation reading other tensors, or `none` if none of its
inputs is replaced.  The new operation is a new object. -/
def replaceInputs (rmap : Tensor → Option Tensor) (newId : ℕ) : Option Operation :=
  match op.node with
  | .placeholder _ => none
  | .compute c =>
    if c.inputs.any fun t => (rmap t).isSome then
      some ⟨newId, .compute { c with inputs := c.inputs.map fun t => (rmap t).getD t }⟩
    else none

end Operation

end Pruner.Te
