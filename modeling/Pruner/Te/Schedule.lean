import Pruner.Te.MessagePassing

/-!
# Schedules and their dataflow rewrites

A schedule is the list of its stages.  `cache_read`, `cache_write` and `rfactor` of
`src/te/schedule/schedule_dataflow_rewrite.cc` add a stage and replace operations:
a replaced operation is a new object, so the readers of its outputs are replaced in
turn.

Stages are addressed by position.  The operation a stage was created for never
changes, and the position at which `Schedule::operator[]` finds it is the position
the caller holds.

## Main definitions

* `Schedule` — the stages, and the number the next operation gets.
* `replaceDataFlow` — replace the readers of replaced tensors, stage by stage.
* `Schedule.cacheRead`, `Schedule.cacheWrite`, `Schedule.rfactor` — the rewrites.
-/

namespace Pruner.Te

open Tir

/-- A schedule.  `nextOp` is the number of the next operation object. -/
structure Schedule where
  stages : List Stage
  nextOp : ℕ
  deriving DecidableEq, Repr, Inhabited

/-! ## Replacing data flow -/

/-- The tables of `ReplaceDataFlow`: replaced tensors, and the original of each
replacement. -/
structure FlowMap where
  vmap : Tensor → Option Tensor
  rvmap : Tensor → Option Tensor

namespace FlowMap

def empty : FlowMap := ⟨fun _ => none, fun _ => none⟩

/-- Replace the tensor `old` by `new`. -/
def replace (m : FlowMap) (old new : Tensor) : FlowMap where
  vmap := Function.update m.vmap old (some new)
  rvmap := Function.update m.rvmap new (some old)

/-- Record that output `i` of an operation is now that of another one.  If the old
output is a replacement itself, its original is redirected. -/
def follow (m : FlowMap) (op op' : Operation) (i : ℕ) : FlowMap :=
  match m.rvmap (op.output i) with
  | some t => { m with vmap := Function.update m.vmap t (some (op'.output i)) }
  | none => m.replace (op.output i) (op'.output i)

end FlowMap

def replaceDataFlow : List Stage → FlowMap → ℕ → List Stage × ℕ
  | [], _, next => ([], next)
  | s :: rest, m, next =>
    match s.op.replaceInputs m.vmap next with
    | none =>
      let r := replaceDataFlow rest m next
      (s :: r.1, r.2)
    | some op' =>
      let m' := (List.range op'.numOutputs).foldl (fun m i => m.follow s.op op' i) m
      let r := replaceDataFlow rest m' (next + 1)
      ({ s with op := op' } :: r.1, r.2)

/-! ## Operations the rewrites make -/

/-- Axes of a new operation over a shape, named `ax0`, `ax1`, … -/
def freshAxes (op : ℕ) (shape : List PrimExpr) : List IterVar :=
  shape.mapIdx fun i e => ⟨.made op i, "ax" ++ toString i, .kDataPar, some ⟨.intImm 0, e⟩⟩

/-- The axes of the operation that `cache_write` caches in: one for each leaf that is
no reduction axis, with its domain. -/
def relayoutAxes (op : ℕ) (dom : DomMap) (leaf : List IterVar) : List IterVar :=
  leaf.mapIdx fun i iv => ⟨.made op i, iv.name ++ ".c", iv.iterType, dom iv⟩

/-- Give the stage the loops of a new operation. -/
def Stage.reset (s : Stage) (op : Operation) : Stage :=
  { s with
    op := op
    allIterVars := op.rootIterVars
    leafIterVars := op.rootIterVars
    relations := [] }

namespace Schedule

/-- `create_schedule`: one stage for each operation, in the given order. -/
def ofOps (ops : List Operation) (nextOp : ℕ) : Schedule := ⟨ops.map Stage.ofOp, nextOp⟩

/-! ## `cache_read` -/

/-- Let the readers read the cache, one after the other. -/
def redirectReaders (vsub : Tensor → Option Tensor) :
    List ℕ → List Stage → FlowMap → ℕ → Option (List Stage × FlowMap × ℕ)
  | [], stages, m, next => some (stages, m, next)
  | r :: rest, stages, m, next => do
    let s ← stages[r]?
    let op' ← s.op.replaceInputs vsub next
    redirectReaders vsub rest (stages.set r { s with op := op' })
      (m.replace (s.op.output 0) (op'.output 0)) (next + 1)

/-- The operation that copies the first output of `op`. -/
def cacheReadOp (op : Operation) (id : ℕ) : Operation :=
  ⟨id, .compute
    { axis := freshAxes id op.outputShape
      reduceAxis := []
      inputs := [op.output 0]
      numOutputs := 1
      body := .copy
      layoutFreePlaceholders := none }⟩

/-- `Schedule::cache_read` of the first output of stage `i`. -/
def cacheRead (sch : Schedule) (i : ℕ) (scope : String) (readers : List ℕ) : Option Schedule := do
  let s ← sch.stages[i]?
  let cacheOp := cacheReadOp s.op sch.nextOp
  let vsub : Tensor → Option Tensor :=
    Function.update (fun _ => none) (s.op.output 0) (some (cacheOp.output 0))
  let (stages, m, next) ←
    redirectReaders vsub readers sch.stages FlowMap.empty (sch.nextOp + 1)
  let (stages, next) := replaceDataFlow stages m next
  some ⟨stages.insertIdx (i + 1) { Stage.ofOp cacheOp with scope := scope }, next⟩

/-! ## `cache_write` -/

/-- The leaves that `cache_write` makes axes of. -/
def relayoutLeaf (s : Stage) (c : ComputeOp) : List IterVar :=
  s.leafIterVars.filter fun iv => iv ∉ c.reduceAxis

/-- The two operations of `CacheWriteWithReLayout`: the one that computes into the
cache, with number `id`, and the one that reads it back, with number `id + 1`. -/
def cacheWriteOps (s : Stage) (c : ComputeOp) (id : ℕ) : Option (Operation × Operation) := do
  let dom ← passDownDomain s fun iv => if iv ∈ c.axis then iv.dom else none
  let leaf := relayoutLeaf s c
  if ∀ iv ∈ leaf, iv.iterType = .kDataPar ∧ (dom iv).isSome then
    let known ← passUpIndex s dom leaf
    if boundCheckDefined s dom known c.reduceAxis then
      let cacheOp : Operation :=
        ⟨id, .compute
          { c with
            axis := relayoutAxes id dom leaf
            body := .relayout c.body s.relations leaf }⟩
      let origNewOp : Operation :=
        ⟨id + 1, .compute
          { c with
            reduceAxis := []
            inputs := (List.range c.numOutputs).map cacheOp.output
            body := .readBack s.relations leaf }⟩
      some (cacheOp, origNewOp)
    else none
  else none

/-- `Schedule::cache_write` of all outputs of stage `i`. -/
def cacheWrite (sch : Schedule) (i : ℕ) (scope : String) : Option Schedule := do
  let s ← sch.stages[i]?
  let origin ← s.originOp.asCompute
  let c ← s.op.asCompute
  if c.numOutputs > 0 ∧ origin.numOutputs = c.numOutputs then
    let (cacheOp, origNewOp) ← cacheWriteOps s c sch.nextOp
    let m := FlowMap.empty.replace (s.op.output 0) (origNewOp.output 0)
    let (stages, next) := replaceDataFlow sch.stages m (sch.nextOp + 2)
    let s' ← stages[i]?
    some ⟨(stages.set i (s'.reset origNewOp)).insertIdx i
      { Stage.ofOp cacheOp with scope := scope }, next⟩
  else none

/-! ## `rfactor` -/

/-- The variables of a stage that depend on `axis`, or that it depends on. -/
def touchedBy (s : Stage) (axis : IterVar) : List IterVar :=
  passDownBitMaskOr s (passUpBitMaskOr s [axis])

/-- The place of the factored loop among the axes; negative places count from the end. -/
def factorAxisPos (factorAxis : ℤ) (numAxis : ℕ) : Option ℕ :=
  let pos := if 0 ≤ factorAxis then factorAxis else (numAxis : ℤ) + 1 + factorAxis
  if 0 ≤ pos ∧ pos ≤ numAxis then some pos.toNat else none

/-- A relation `rfactor` keeps, as it has nothing to do with the factored loop.
A `Singleton` is an unknown relation there. -/
def keepsRelation (touched : List IterVar) : Relation → Option Bool
  | .split parent _ _ _ _ => some (parent ∉ touched)
  | .fuse _ _ fused => some (fused ∉ touched)
  | .singleton _ => none

/-- The reduction axes of the factored operation: the untouched ones, then a copy of
each touched leaf other than `axis`.  `base` is the number of its data parallel axes. -/
def factorReduceAxis (s : Stage) (c : ComputeOp) (dom : DomMap) (touched : List IterVar)
    (axis : IterVar) (id base : ℕ) : List IterVar :=
  let kept := c.reduceAxis.filter fun iv => iv ∉ touched
  let rest := s.leafIterVars.filter fun iv => iv ∈ touched ∧ iv ≠ axis
  kept ++ rest.mapIdx fun i iv =>
    { iv with ref := .made id (base + kept.length + i), dom := dom iv }

/-- The domains, starting from the touched reduction axes. -/
def factorDomain (s : Stage) (c : ComputeOp) (touched : List IterVar) : Option DomMap :=
  passDownDomain s fun iv => if iv ∈ c.reduceAxis ∧ iv ∈ touched then iv.dom else none

/-- The checks of `rfactor` before it builds anything. -/
def canFactor (s : Stage) (c : ComputeOp) (dom : DomMap) (touched : List IterVar)
    (axis : IterVar) : Bool :=
  let leaf := s.leafIterVars.filter fun iv => iv ∈ touched
  decide (∀ iv ∈ c.axis, iv ∉ touched) &&
  (leaf.all fun iv => (dom iv).isSome && (iv = axis || iv.iterType = .kCommReduce)) &&
  match passUpIndex s dom leaf with
  | none => false
  | some known =>
    boundCheckDefined s dom known (c.axis ++ c.reduceAxis.filter fun iv => iv ∉ touched) &&
    decide (∀ iv ∈ c.reduceAxis, iv ∈ touched → iv ∈ known)

/-- The operation of the partial reductions, numbered `id`. -/
def factorOp (s : Stage) (c : ComputeOp) (dom : DomMap) (range : Range)
    (touched : List IterVar) (axis : IterVar) (pos id : ℕ) : Operation :=
  ⟨id, .compute
    { axis := c.axis.insertIdx pos ⟨.made id pos, axis.name, .kDataPar, some range⟩
      reduceAxis := factorReduceAxis s c dom touched axis id (c.axis.length + 1)
      inputs := c.inputs
      numOutputs := c.numOutputs
      body := .partialReduce c.body s.relations s.leafIterVars axis pos
      layoutFreePlaceholders := none }⟩

/-- The operation that reduces the partial results, numbered `id`. -/
def replOp (op : Operation) (c : ComputeOp) (factor : Operation) (range : Range)
    (axis : IterVar) (pos id : ℕ) : Operation :=
  ⟨id, .compute
    { axis := freshAxes id op.outputShape
      reduceAxis := [⟨.made id op.outputShape.length, axis.name ++ ".v", .kCommReduce, some range⟩]
      inputs := (List.range c.numOutputs).map factor.output
      numOutputs := c.numOutputs
      body := .finalReduce c.body pos
      layoutFreePlaceholders := none }⟩

/-- `Schedule::rfactor` of the loop `axis` of stage `i`. -/
def rfactor (sch : Schedule) (i : ℕ) (axis : IterVar) (factorAxis : ℤ) : Option Schedule := do
  let s ← sch.stages[i]?
  let c ← s.op.asCompute
  if axis.iterType = .kCommReduce ∧ axis ∈ s.leafIterVars then
    let touched := touchedBy s axis
    let dom ← factorDomain s c touched
    let range ← dom axis
    let pos ← factorAxisPos factorAxis c.axis.length
    let keep ← s.relations.mapM (keepsRelation touched)
    if canFactor s c dom touched axis ∧ range.min.isZero then
      let factor := factorOp s c dom range touched axis pos sch.nextOp
      let repl := replOp s.op c factor range axis pos (sch.nextOp + 1)
      let rels := ((s.relations.zip keep).filter fun p => p.2).map Prod.fst
      let stages := sch.stages.insertIdx i { Stage.ofOp factor with relations := rels }
      let m := (List.range c.numOutputs).foldl
        (fun m k => m.replace (s.op.output k) (repl.output k)) FlowMap.empty
      let (stages, next) := replaceDataFlow stages m (sch.nextOp + 2)
      let s' ← stages[i + 1]?
      some ⟨stages.set (i + 1) (s'.reset repl), next⟩
    else none
  else none

end Schedule

end Pruner.Te
