import Pruner.AutoScheduler.Step
import Pruner.Te.Schedule

/-!
# Applying steps to a schedule

Each transform step has an `ApplyToSchedule` method (`transform_step.cc`).  It works on
the schedule and on a table from stages to their current loops, `stage_to_axes`,
which is kept next to the list of stages: entry `i` belongs to stage `i`, and a
placeholder has none.  `ComputeDAG::ApplySteps` replays a whole history.

The array of stages that the methods are handed and the stages of the schedule
itself hold the same stages in the same order: both start in the order of the
operations, and a rewrite inserts its new stage at the same place in both.

## Main definitions

* `InputDAG` — a computation as the user hands it in.
* `Lowering` — a schedule with its `stage_to_axes`.
* `stepApplyToSchedule`, `ComputeDAG.applySteps` — one step, and a history.
* `getFormerStageModifiableSteps` — the steps kept when only operations matter.
* `ComputeDAG.replayAndGetDAG` — the computation after a replay.
-/

namespace Pruner.AutoScheduler

open Te

/-- The operations of a computation, in the order of the stages of its schedule. -/
structure ComputeDAG where
  ops : List Operation
  deriving DecidableEq, Repr, Inhabited

/-- A number that no operation of the computation has. -/
def ComputeDAG.nextOp (dag : ComputeDAG) : ℕ := (dag.ops.map fun op => op.id + 1).foldr max 0

/-- A computation as the user hands it in.  Axes are declared by `te.compute` and
`te.reduce_axis`, and `CheckComputeValidity` has found their names different. -/
structure InputDAG extends ComputeDAG where
  ids_nodup : (ops.map (·.id)).Nodup
  names_nodup : ∀ op ∈ ops, (op.rootIterVars.map (·.name)).Nodup
  declared : ∀ op ∈ ops, ∀ v ∈ op.rootIterVars, v.ref.isDeclared
  axis_type : ∀ op ∈ ops, ∀ c ∈ op.asCompute, ∀ v ∈ c.axis, v.iterType = .kDataPar
  reduce_type : ∀ op ∈ ops, ∀ c ∈ op.asCompute, ∀ v ∈ c.reduceAxis, v.iterType = .kCommReduce

/-- A schedule and the current loops of each stage. -/
structure Lowering where
  sch : Schedule
  stageToAxes : List (Option (List IterVar))
  deriving DecidableEq, Repr, Inhabited

/-- `Array::operator[]`, with its bounds check. -/
def atIndex {α : Type*} (l : List α) (i : ℤ) : Option α := i.toNat?.bind fun n => l[n]?

theorem atIndex_eq_some_iff {α : Type*} {l : List α} {i : ℤ} {a : α} :
    atIndex l i = some a ↔ ∃ n : ℕ, i = n ∧ l[n]? = some a := by
  simp [atIndex, Option.bind_eq_some_iff, Int.mem_toNat?]

@[simp] theorem atIndex_natCast {α : Type*} (l : List α) (n : ℕ) : atIndex l n = l[n]? := rfl

/-- `UpdateStageToAxesMap` for the stage of an operation. -/
def axesOf (op : Operation) : Option (List IterVar) :=
  op.asCompute.map fun c => c.axis ++ c.reduceAxis

namespace Lowering

/-- Stage `i` of a lowering. -/
def stage (lw : Lowering) (i : ℕ) : Option Te.Stage := lw.sch.stages[i]?

/-- The loops of stage `i`; a stage without entry is an error. -/
def axes (lw : Lowering) (i : ℕ) : Option (List IterVar) := (lw.stageToAxes[i]?).join

/-- Replace stage `i`. -/
def setStage (lw : Lowering) (i : ℕ) (s : Te.Stage) : Lowering :=
  { lw with sch := { lw.sch with stages := lw.sch.stages.set i s } }

/-- Replace the loops of stage `i`. -/
def setAxes (lw : Lowering) (i : ℕ) (axes : List IterVar) : Lowering :=
  { lw with stageToAxes := lw.stageToAxes.set i (some axes) }

end Lowering

/-! ## Loop transformations -/

/-- The tag of the thread that an annotation binds a loop to. -/
def threadTag : IteratorAnnotation → Option String
  | .kVThread => some "vthread"
  | .kBlockX => some "blockIdx.x"
  | .kThreadX => some "threadIdx.x"
  | .kBlockY => some "blockIdx.y"
  | .kThreadY => some "threadIdx.y"
  | .kBlockZ => some "blockIdx.z"
  | .kThreadZ => some "threadIdx.z"
  | _ => none

/-- The change an annotation makes to a stage. -/
def annotateStage (s : Te.Stage) (v : IterVar) (ann : IteratorAnnotation) : Option Te.Stage :=
  match ann with
  | .kUnroll => s.unroll v
  | .kVectorize => s.vectorize v
  | .kParallel => s.parallel v
  | .kTensorize => none
  | ann =>
    match threadTag ann with
    | some tag => s.bind v tag
    | none => none

variable (lw : Lowering) (i : ℕ)

/-- `AnnotationStepNode::ApplyToSchedule`.  The loop is looked up only where it is used. -/
def annotationToSchedule (iterId : ℤ) (ann : IteratorAnnotation) : Option Lowering := do
  let s ← lw.stage i
  let axes ← lw.axes i
  if ann = .kNone then some lw
  else
    let v ← atIndex axes iterId
    let s' ← annotateStage s v ann
    some (lw.setStage i s')

/-- Replace the loops from `front` to `back` by the given ones. -/
def replaceSlice {α : Type*} (l : List α) (front back : ℕ) (new : List α) : List α :=
  l.take front ++ new ++ l.drop (back + 1)

/-- `FuseStepNode::ApplyToSchedule`. -/
def fuseToSchedule (fusedIds : List ℤ) : Option Lowering := do
  let s ← lw.stage i
  let axes ← lw.axes i
  let toFuse ← fusedIds.mapM (atIndex axes)
  let (s', fused) ← s.fuse toFuse
  match fusedIds with
  | [] => some ((lw.setStage i s').setAxes i [fused])
  | front :: rest =>
    let back := (front :: rest).getLast (List.cons_ne_nil _ _)
    some ((lw.setStage i s').setAxes i (replaceSlice axes front.toNat back.toNat [fused]))

/-- The text behind the first `$` of a pragma. -/
def pragmaValue (pragmaType : String) : Option ℤ :=
  match pragmaType.toList.dropWhile (· ≠ '$') with
  | [] => none
  | _ :: value => some (atoi value)

/-- `PragmaStepNode::ApplyToSchedule`. -/
def pragmaToSchedule (iterId : ℤ) (pragmaType : String) : Option Lowering := do
  let s ← lw.stage i
  let axes ← lw.axes i
  if strStartsWith pragmaType "auto_unroll_max_step" then
    let value ← pragmaValue pragmaType
    if iterId < axes.length then
      let v ← atIndex axes iterId
      let s ← s.pragma v "auto_unroll_max_step" (some value)
      let s ← s.pragma v "unroll_explicit" (some 1)
      some (lw.setStage i s)
    else some lw
  else
    let v ← atIndex axes iterId
    let s ← s.pragma v pragmaType none
    some (lw.setStage i s)

/-- `ReorderStepNode::ApplyToSchedule`. -/
def reorderToSchedule (afterIds : List ℤ) : Option Lowering := do
  let s ← lw.stage i
  let axes ← lw.axes i
  if afterIds.length = axes.length then
    let newAxes ← afterIds.mapM (atIndex axes)
    let s' ← s.reorder newAxes
    some ((lw.setStage i s').setAxes i newAxes)
  else none

/-- Split off inner loops.  The lengths are given from the innermost loop outwards,
and so are the resulting loops. -/
def splitInnerToOuter (s : Te.Stage) (outer : IterVar) :
    List (Option ℤ) → Option (Te.Stage × List IterVar)
  | [] => some (s, [outer])
  | l :: rest => do
    let factor ← l
    let (s', outer', inner) ← s.split outer factor
    let (s'', outs) ← splitInnerToOuter s' outer' rest
    some (s'', inner :: outs)

/-- Split off outer loops, from the outermost inwards. -/
def splitOuterToInner (s : Te.Stage) (inner : IterVar) :
    List (Option ℤ) → Option (Te.Stage × List IterVar)
  | [] => some (s, [inner])
  | l :: rest => do
    let nparts ← l
    let (s', outer, inner') ← s.splitByNparts inner nparts
    let (s'', outs) ← splitOuterToInner s' inner' rest
    some (s'', outer :: outs)

/-- The loops a split makes, from the outermost to the innermost. -/
def splitStage (s : Te.Stage) (v : IterVar) (lengths : List (Option ℤ)) (innerToOuter : Bool) :
    Option (Te.Stage × List IterVar) :=
  if innerToOuter then
    (splitInnerToOuter s v lengths.reverse).map fun r => (r.1, r.2.reverse)
  else splitOuterToInner s v lengths

def applySplitToSchedule (iterId : ℤ) (lengths : List (Option ℤ))
    (innerToOuter : Bool) : Option Lowering := do
  let s ← lw.stage i
  let axes ← lw.axes i
  let v ← atIndex axes iterId
  let (s', outs) ← splitStage s v lengths innerToOuter
  some ((lw.setStage i s').setAxes i (replaceSlice axes iterId.toNat iterId.toNat outs))

/-- `StorageAlignStepNode::ApplyToSchedule`. -/
def storageAlignToSchedule (iterId factor offset : ℤ) : Option Lowering := do
  let s ← lw.stage i
  let axes ← lw.axes i
  let v ← atIndex axes iterId
  some (lw.setStage i (s.storageAlign v factor offset))

/-! ## Placement -/

/-- `ComputeAtStepNode::ApplyToSchedule`. -/
def computeAtToSchedule (targetStageId targetIterId : ℤ) : Option Lowering := do
  let s ← lw.stage i
  let t ← targetStageId.toNat?
  let target ← lw.stage t
  let axes ← lw.axes t
  let v ← atIndex axes targetIterId
  let s' ← s.computeAt target v
  some (lw.setStage i s')

/-! ## Steps that add a stage -/

/-- `CacheReadStepNode::ApplyToSchedule`. -/
def cacheReadToSchedule (scopeName : String) (readerStageIds : List ℤ) : Option Lowering := do
  let readers ← readerStageIds.mapM Int.toNat?
  let sch ← lw.sch.cacheRead i scopeName readers
  let added ← sch.stages[i + 1]?
  some ⟨sch, lw.stageToAxes.insertIdx (i + 1) (axesOf added.op)⟩

/-- The table after a step that put a new stage before stage `i`. -/
def insertAxesBefore (sch : Schedule) (axes : List (Option (List IterVar))) (i : ℕ) :
    Option Lowering := do
  let added ← sch.stages[i]?
  let target ← sch.stages[i + 1]?
  some ⟨sch, (axes.set i (axesOf target.op)).insertIdx i (axesOf added.op)⟩

/-- `CacheWriteStepNode::ApplyToSchedule`. -/
def cacheWriteToSchedule (scopeName : String) : Option Lowering := do
  let sch ← lw.sch.cacheWrite i scopeName
  insertAxesBefore sch lw.stageToAxes i

/-- `RfactorStepNode::ApplyToSchedule`. -/
def rfactorToSchedule (iterId factorIterId : ℤ) : Option Lowering := do
  let axes ← lw.axes i
  let v ← atIndex axes iterId
  let sch ← lw.sch.rfactor i v factorIterId
  insertAxesBefore sch lw.stageToAxes i

/-! ## Histories -/

/-- `StepApplyToSchedule`; `steps` is the whole history. -/
def stepApplyToSchedule (steps : List Step) (lw : Lowering) (step : Step) : Option Lowering := do
  let i ← step.stageId.toNat?
  match step with
  | .annotationStep _ iterId ann => annotationToSchedule lw i iterId ann
  | .fuseStep _ fusedIds => fuseToSchedule lw i fusedIds
  | .pragmaStep _ iterId pragmaType => pragmaToSchedule lw i iterId pragmaType
  | .reorderStep _ afterIds => reorderToSchedule lw i afterIds
  | .splitStep _ iterId _ lengths innerToOuter =>
    applySplitToSchedule lw i iterId lengths innerToOuter
  | .followSplitStep _ iterId srcStepId nSplit => do
    let lengths ← extractSplitLengths steps srcStepId nSplit
    applySplitToSchedule lw i iterId lengths true
  | .followFusedSplitStep _ iterId srcStepIds level factorOrNparts => do
    let length ← extractSplitLength steps level 1 srcStepIds
    applySplitToSchedule lw i iterId [length] factorOrNparts
  | .storageAlignStep _ iterId factor offset => storageAlignToSchedule lw i iterId factor offset
  | .computeAtStep _ target targetIter => computeAtToSchedule lw i target targetIter
  | .computeInlineStep _ => (lw.stage i).map fun s => lw.setStage i s.computeInline
  | .computeRootStep _ => (lw.stage i).map fun s => lw.setStage i s.computeRoot
  | .cacheReadStep _ scopeName readers => cacheReadToSchedule lw i scopeName readers
  | .cacheWriteStep _ scopeName => cacheWriteToSchedule lw i scopeName
  | .rfactorStep _ iterId factorIterId => rfactorToSchedule lw i iterId factorIterId

/-- The schedule a replay starts from. -/
def ComputeDAG.initLowering (dag : ComputeDAG) : Lowering :=
  ⟨Schedule.ofOps dag.ops dag.nextOp, dag.ops.map axesOf⟩

/-- `ComputeDAG::ApplySteps` without layout rewriting. -/
def ComputeDAG.applySteps (dag : ComputeDAG) (steps : List Step) : Option Lowering :=
  steps.foldlM (stepApplyToSchedule steps) dag.initLowering

/-- What `GetFormerStageModifiableSteps` keeps for position `i` of a history: a cache
step itself, an `rfactor` with the split before it and, if it is on the same stage,
the fuse before that. -/
def modifiableStepsAt (steps : List Step) (i : ℕ) : Option (List Step) :=
  match steps[i]? with
  | some (.cacheWriteStep stageId scopeName) => some [.cacheWriteStep stageId scopeName]
  | some (.cacheReadStep stageId scopeName readers) =>
    some [.cacheReadStep stageId scopeName readers]
  | some (.rfactorStep stageId iterId factorIterId) =>
    let fuse : List Step :=
      match (if 2 ≤ i then steps[i - 2]? else none) with
      | some (.fuseStep s ids) => if s = stageId then [.fuseStep s ids] else []
      | _ => []
    match (if 1 ≤ i then steps[i - 1]? else none) with
    | some (.splitStep s iter extent lengths innerToOuter) =>
      if s = stageId then
        some (fuse ++ [.splitStep s iter extent lengths innerToOuter,
          .rfactorStep stageId iterId factorIterId])
      else none
    | _ => none
  | _ => some []

/-- `GetFormerStageModifiableSteps`, up to and including the step at position
`current`.  The C++ stops at the step object itself; an object occurs once in a
history, so its position stands for it. -/
def getFormerStageModifiableSteps (current : ℕ) (steps : List Step) : Option (List Step) := do
  let kept ← (List.range (current + 1)).mapM (modifiableStepsAt steps)
  some kept.flatten

/-- `CheckComputeValidity`: within a stage, loops have different names. -/
def checkComputeValidity (sch : Schedule) : Bool :=
  sch.stages.all fun s => s.op.asCompute.isNone || decide (s.leafIterVars.map (·.name)).Nodup

/-- The computation of a schedule, `ComputeDAG(sch)`. -/
def ComputeDAG.ofSchedule (sch : Schedule) : Option ComputeDAG :=
  if checkComputeValidity sch then some ⟨sch.stages.map (·.op)⟩ else none

def ComputeDAG.replayAndGetDAG (dag : ComputeDAG) (steps : List Step) : Option ComputeDAG := do
  let lw ← dag.applySteps steps
  ComputeDAG.ofSchedule lw.sch

end Pruner.AutoScheduler
