import Pruner.AutoScheduler.AttachMap
import Pruner.AutoScheduler.Lower

/-!
# Search states

A search state describes a schedule by the loops of its stages, without building the
schedule.  Each transform step has an `ApplyToState` method (`transform_step.cc`), which
edits the loops by slicing lists of iterators and keeps the attach map up to date.
A step that adds a stage takes the new operations from a replay of the history.

## Main definitions

* `State`, `Stage` — a state and its stages.
* `fuseToState`, `applySplitToState`, … — the effect of each kind of step.
* `stepApplyToState` — the effect of a step at its place in the history.
-/

namespace Pruner.AutoScheduler

open Tir Te

inductive StageKind where
  | kPlaceholder
  | kCompute
  deriving DecidableEq, Repr, Inhabited

inductive ComputeAtKind where
  | kRoot
  | kInlined
  | kIter
  deriving DecidableEq, Repr, Inhabited

structure StageAttributes where
  autoUnrollMaxStep : ℤ
  storageOffset : ℤ
  deriving DecidableEq, Repr, Inhabited

/-- `StageNode` of `loop_state.h`. -/
structure Stage where
  op : Operation
  opType : StageKind
  iters : List Iterator
  computeAt : ComputeAtKind
  attrs : StageAttributes
  deriving Repr, Inhabited

/-- The iterator of an axis of an operation. -/
def Iterator.ofAxis (kind : IteratorKind) (axis : IterVar) : Iterator :=
  ⟨cleanName axis.name, axis.dom, kind, .kNone, []⟩

/-- The stage of an operation that no step has touched. -/
def Stage.ofOp (op : Operation) : Stage :=
  match op.node with
  | .compute c =>
    { op := op
      opType := .kCompute
      iters := c.axis.map (Iterator.ofAxis .kSpatial) ++
        c.reduceAxis.map (Iterator.ofAxis .kReduction)
      computeAt := .kRoot
      attrs := ⟨0, 0⟩ }
  | .placeholder _ =>
    { op := op, opType := .kPlaceholder, iters := [], computeAt := .kRoot, attrs := ⟨0, 0⟩ }

/-- `StateNode`. -/
structure State where
  stages : List Stage
  transformSteps : List Step
  attachMap : AttachMap
  currentComputeDag : Option ComputeDAG
  concrete : Bool

def ComputeDAG.initState (dag : ComputeDAG) : State where
  stages := dag.ops.map Stage.ofOp
  transformSteps := []
  attachMap := Lib.TwoWayMap.empty
  currentComputeDag := none
  concrete := true

variable (st : State) (i : ℕ)

/-- Replace stage `i`. -/
def State.setStage (stage : Stage) : State := { st with stages := st.stages.set i stage }

/-! ## Steps on one stage -/

/-- `AnnotationStepNode::ApplyToState`. -/
def annotationToState (iterId : ℤ) (ann : IteratorAnnotation) : Option State := do
  let stage ← st.stages[i]?
  let it ← atIndex stage.iters iterId
  if it.ann = .kNone then
    some (st.setStage i { stage with iters := stage.iters.set iterId.toNat { it with ann := ann } })
  else none

/-- Each number is one more than the number before it. -/
def consecutive : List ℤ → Bool
  | a :: b :: rest => b = a + 1 && consecutive (b :: rest)
  | _ => true

/-- The extent of the fused loop, unknown if one of the extents is. -/
def fusedExtent (its : List Iterator) : Option PrimExpr :=
  its.foldl (fun acc it => acc.bind fun e => it.range.map fun r => e.mul r.extent)
    (some (.intImm 1))

def fusedKind : List Iterator → IteratorKind
  | [] => .kSpecial
  | it :: rest => rest.foldl (fun k x => if k = x.iterKind then k else .kMixed) it.iterKind

/-- The loop that replaces fused loops. -/
def fusedIterator (its : List Iterator) : Iterator where
  name := its.foldl (fun acc it => acc ++ it.name ++ "@") ""
  range := (fusedExtent its).map fun e => ⟨.intImm 0, e⟩
  iterKind := fusedKind its
  ann := .kNone
  origIters := its

/-- The positions behind the first fused loop, before and after fusing the loops from
`front` to `back`: those of fused loops move to the fused loop, the others move up. -/
def fuseKeys (front back size : ℕ) : List (IterKey × IterKey) :=
  ((List.range size).filter (front < ·)).map fun (j : ℕ) =>
    ((↑i, ↑j), (↑i, if back < j then ↑(j - back + front) else ↑front))

/-- `FuseStepNode::ApplyToState`. -/
def fuseToState (fusedIds : List ℤ) : Option State := do
  let stage ← st.stages[i]?
  let its ← fusedIds.mapM (atIndex stage.iters)
  if consecutive fusedIds ∧
      ∀ id ∈ fusedIds.dropLast, st.attachMap.iterToAttachedStages (↑i, id) = none then
    match fusedIds with
    | [] => some (st.setStage i { stage with iters := [fusedIterator its] })
    | front :: rest =>
      let back := (front :: rest).getLast (List.cons_ne_nil _ _)
      let st' := st.setStage i
        { stage with
          iters := replaceSlice stage.iters front.toNat back.toNat [fusedIterator its] }
      let keys := fuseKeys i front.toNat back.toNat stage.iters.length
      let attachMap ← st.attachMap.updateIters (keys.map Prod.fst) (keys.map Prod.snd)
      some { st' with attachMap := attachMap }
  else none

/-- `PragmaStepNode::ApplyToState`. -/
def pragmaToState (stageId : ℤ) (pragmaType : String) : Option State :=
  if pragmaType = "debug_skip_region" then
    some { st with attachMap := st.attachMap.deleteStage stageId }
  else if strStartsWith pragmaType "auto_unroll_max_step" then do
    let stage ← atIndex st.stages stageId
    let value ← pragmaValue pragmaType
    some (st.setStage stageId.toNat
      { stage with attrs := { stage.attrs with autoUnrollMaxStep := value } })
  else none

/-- `ReorderStepNode::ApplyToState`.  The attach map stays as it is. -/
def reorderToState (afterIds : List ℤ) : Option State := do
  let stage ← st.stages[i]?
  let iters ← afterIds.mapM (atIndex stage.iters)
  some (st.setStage i { stage with iters := iters })

/-- The loop of `ApplySplitToState`: one iterator for each length, in the order in which
the lengths are taken, and the range that remains. -/
def splitLoop (it : Iterator) :
    Option Range → List (Option ℤ × String) → Option (List Iterator × Option Range)
  | range, [] => some ([], range)
  | range, (l, name) :: rest =>
    match l, range with
    | some l, some range => do
      let extent ← range.extent.ceilDiv (.intImm l)
      let (outs, remaining) ← splitLoop it (some ⟨.intImm 0, extent⟩) rest
      some (⟨name, some ⟨range.min, .intImm l⟩, it.iterKind, .kNone, []⟩ :: outs, remaining)
    | _, _ => do
      let (outs, remaining) ← splitLoop it none rest
      some (⟨name, none, it.iterKind, .kNone, []⟩ :: outs, remaining)

/-- The iterators a split makes, from the outermost to the innermost. -/
def splitIterators (it : Iterator) (lengths : List (Option ℤ)) (innerToOuter : Bool) :
    Option (List Iterator) := do
  let n := lengths.length
  if innerToOuter then
    let named := lengths.reverse.mapIdx fun i l => (l, it.name ++ "." ++ toString (n - i))
    let (outs, range) ← splitLoop it it.range named
    some (⟨it.name ++ ".0", range, it.iterKind, .kNone, []⟩ :: outs.reverse)
  else
    let named := lengths.mapIdx fun i l => (l, it.name ++ "." ++ toString i)
    let (outs, range) ← splitLoop it it.range named
    some (outs ++ [⟨it.name ++ "." ++ toString n, range, it.iterKind, .kNone, []⟩])

/-- The positions from the split loop on, before and after splitting it into `n + 1`. -/
def splitKeys (i iterId n size : ℕ) : List (IterKey × IterKey) :=
  ((List.range size).filter (iterId ≤ ·)).map fun (j : ℕ) => ((↑i, ↑j), (↑i, ↑(j + n)))

def applySplitToState (iterId : ℤ) (lengths : List (Option ℤ))
    (innerToOuter : Bool) : Option State := do
  let stage ← st.stages[i]?
  let it ← atIndex stage.iters iterId
  let outs ← splitIterators it lengths innerToOuter
  let st' := st.setStage i
    { stage with iters := replaceSlice stage.iters iterId.toNat iterId.toNat outs }
  let keys := splitKeys i iterId.toNat lengths.length stage.iters.length
  let attachMap ← st.attachMap.updateIters (keys.map Prod.fst) (keys.map Prod.snd)
  some { st' with
    attachMap := attachMap
    concrete := st.concrete && lengths.all Option.isSome }

/-- `StorageAlignStepNode::ApplyToState`. -/
def storageAlignToState (offset : ℤ) : Option State := do
  let stage ← st.stages[i]?
  some (st.setStage i { stage with attrs := { stage.attrs with storageOffset := offset } })

/-! ## Placement -/

/-- An iterator whose range is not known any more. -/
def Iterator.clearRange (it : Iterator) : Iterator := { it with range := none }

/-- `ComputeAtStepNode::ApplyToState`. -/
def computeAtToState (targetStageId targetIterId : ℤ) : Option State := do
  let stage ← st.stages[i]?
  let st' := st.setStage i
    { stage with iters := stage.iters.map Iterator.clearRange, computeAt := .kIter }
  some { st' with
    attachMap := st.attachMap.setComputeAtIter i targetStageId targetIterId }

/-- `ComputeInlineStepNode::ApplyToState`: nothing may be attached to the stage. -/
def computeInlineToState : Option State := do
  let stage ← st.stages[i]?
  if ∀ j < stage.iters.length, st.attachMap.iterToAttachedStages (↑i, ↑j) = none then
    let st' := st.setStage i { stage with computeAt := .kInlined }
    some { st' with attachMap := st.attachMap.deleteStage i }
  else none

/-- `ComputeRootStepNode::ApplyToState`. -/
def computeRootToState : Option State := do
  let stage ← st.stages[i]?
  let st' := st.setStage i
    { stage with iters := stage.iters.map Iterator.clearRange, computeAt := .kRoot }
  some { st' with attachMap := st.attachMap.deleteStage i }

/-! ## Steps that add a stage -/

/-- The computation after the operations-changing steps up to position `pos`. -/
def formerDAG (dag : ComputeDAG) (pos : ℕ) (steps : List Step) : Option ComputeDAG := do
  let kept ← getFormerStageModifiableSteps pos steps
  dag.replayAndGetDAG kept

/-- Give stage `j` operation `j`. -/
def updateOp (ops : List Operation) (stages : List Stage) (j : ℕ) : Option (List Stage) := do
  let stage ← stages[j]?
  let op ← ops[j]?
  some (stages.set j { stage with op := op })

/-- Give the stages from `start` to `stop` their new operations. -/
def updateOps (ops : List Operation) (start stop : ℕ) (stages : List Stage) : Option (List Stage) :=
  (List.range' start (stop - start)).foldlM (updateOp ops) stages

/-- `CacheReadStepNode::ApplyToState`. -/
def cacheReadToState (dag : ComputeDAG) (pos : ℕ) (st : State) (i : ℕ) : Option State := do
  let current ← formerDAG dag pos st.transformSteps
  let stages ← updateOp current.ops st.stages i
  let added ← current.ops[i + 1]?
  let stages := stages.insertIdx (i + 1) (Stage.ofOp added)
  let stages ← updateOps current.ops (i + 2) stages.length stages
  some { st with
    stages := stages
    attachMap := st.attachMap.applyStageIdOffset (i + 1) 1
    currentComputeDag := some current }

/-- `CacheWriteStepNode::ApplyToState`.  Two added operations are handled as well, and
more than two are only logged. -/
def cacheWriteToState (dag : ComputeDAG) (pos : ℕ) (st : State) (i : ℕ) : Option State := do
  let lastDagOpSize := (st.currentComputeDag.getD dag).ops.length
  let current ← formerDAG dag pos st.transformSteps
  let addedOps := current.ops.length - lastDagOpSize
  if 1 ≤ addedOps ∧ i < st.stages.length then
    let cache ← current.ops[i]?
    let target ← current.ops[i + 1]?
    let stages := (st.stages.set i (Stage.ofOp target)).insertIdx i (Stage.ofOp cache)
    if addedOps = 2 then
      let extra ← current.ops[i + 2]?
      let stages := stages.insertIdx (i + 2) (Stage.ofOp extra)
      let stages ← updateOps current.ops (i + 3) current.ops.length stages
      some { st with
        stages := stages
        attachMap := st.attachMap.applyStageIdOffset i addedOps
        currentComputeDag := some current }
    else
      let stages ← updateOps current.ops (i + 2) current.ops.length stages
      some { st with
        stages := stages
        attachMap := st.attachMap.applyStageIdOffset i addedOps
        currentComputeDag := some current }
  else none

/-- `RfactorStepNode::ApplyToState`.  The target keeps where it is computed. -/
def rfactorToState (dag : ComputeDAG) (pos : ℕ) (st : State) (i : ℕ) : Option State := do
  let stage ← st.stages[i]?
  let current ← formerDAG dag pos st.transformSteps
  let factor ← current.ops[i]?
  let target ← current.ops[i + 1]?
  let targetStage := { Stage.ofOp target with computeAt := stage.computeAt }
  let stages := (st.stages.set i targetStage).insertIdx i (Stage.ofOp factor)
  let stages ← updateOps current.ops (i + 2) stages.length stages
  some { st with
    stages := stages
    attachMap := st.attachMap.applyStageIdOffset i 1
    currentComputeDag := some current }

/-! ## Applying a step -/

/-- `StepApplyToState` for the step at position `pos` of the history of the state. -/
def stepApplyToState (dag : ComputeDAG) (pos : ℕ) (st : State) (step : Step) : Option State :=
  match step with
  | .pragmaStep stageId _ pragmaType => pragmaToState st stageId pragmaType
  | .annotationStep stageId iterId ann => do
    annotationToState st (← stageId.toNat?) iterId ann
  | .fuseStep stageId fusedIds => do fuseToState st (← stageId.toNat?) fusedIds
  | .reorderStep stageId afterIds => do reorderToState st (← stageId.toNat?) afterIds
  | .splitStep stageId iterId _ lengths innerToOuter => do
    applySplitToState st (← stageId.toNat?) iterId lengths innerToOuter
  | .followSplitStep stageId iterId srcStepId nSplit => do
    let lengths ← extractSplitLengths st.transformSteps srcStepId nSplit
    applySplitToState st (← stageId.toNat?) iterId lengths true
  | .followFusedSplitStep stageId iterId srcStepIds level factorOrNparts => do
    let length ← extractSplitLength st.transformSteps level 1 srcStepIds
    applySplitToState st (← stageId.toNat?) iterId [length] factorOrNparts
  | .storageAlignStep stageId _ _ offset => do
    storageAlignToState st (← stageId.toNat?) offset
  | .computeAtStep stageId target targetIter => do
    computeAtToState st (← stageId.toNat?) target targetIter
  | .computeInlineStep stageId => do computeInlineToState st (← stageId.toNat?)
  | .computeRootStep stageId => do computeRootToState st (← stageId.toNat?)
  | .cacheReadStep stageId _ _ => do cacheReadToState dag pos st (← stageId.toNat?)
  | .cacheWriteStep stageId _ => do cacheWriteToState dag pos st (← stageId.toNat?)
  | .rfactorStep stageId _ _ => do rfactorToState dag pos st (← stageId.toNat?)

end Pruner.AutoScheduler
