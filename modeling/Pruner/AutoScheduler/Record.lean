import Pruner.AutoScheduler.State
import Pruner.Lib.Json
import Pruner.Target.Target

/-!
# Measure records

A measured program is logged as one line of JSON, which carries the task, the transform
steps of the state, and the result (`measure_record.cc`, and a writer and a reader per kind
of step in `transform_step.cc`).  The two sides are written by hand, item by item.

The line is a JSON value here: tokens are not modelled.  The computation of a task is not
in the record.

## Main definitions

* `Step.writeToRecord`, `stepReadFromRecord` — one step.
* `SearchTask`, `MeasureInput`, `MeasureResult` — what is logged.
* `writeMeasureRecord`, `readMeasureRecord` — one line.
* `readMeasureRecord_writeMeasureRecord` — reading a line gives back what was written.
-/

namespace Pruner.AutoScheduler

open Lib Lib.Json List

variable {β : Type}

/-! ## Steps -/

/-- `static_cast<int>` of an annotation. -/
def IteratorAnnotation.toInt : IteratorAnnotation → ℤ
  | .kNone => 0
  | .kUnroll => 1
  | .kVectorize => 2
  | .kParallel => 3
  | .kVThread => 4
  | .kBlockX => 5
  | .kThreadX => 6
  | .kBlockY => 7
  | .kThreadY => 8
  | .kBlockZ => 9
  | .kThreadZ => 10
  | .kTensorize => 11

/-- `IteratorAnnotation(int_val)`, for the value of an enumerator. -/
def IteratorAnnotation.ofInt : ℤ → Option IteratorAnnotation
  | 0 => some .kNone
  | 1 => some .kUnroll
  | 2 => some .kVectorize
  | 3 => some .kParallel
  | 4 => some .kVThread
  | 5 => some .kBlockX
  | 6 => some .kThreadX
  | 7 => some .kBlockY
  | 8 => some .kThreadY
  | 9 => some .kBlockZ
  | 10 => some .kThreadZ
  | 11 => some .kTensorize
  | _ => none

/-- `record_prefix_str` of each kind of step. -/
def Step.recordPrefixStr : Step → String
  | .annotationStep .. => "AN"
  | .fuseStep .. => "FU"
  | .pragmaStep .. => "PR"
  | .reorderStep .. => "RE"
  | .splitStep .. => "SP"
  | .followSplitStep .. => "FSP"
  | .followFusedSplitStep .. => "FFSP"
  | .storageAlignStep .. => "SA"
  | .computeAtStep .. => "CA"
  | .computeInlineStep .. => "CI"
  | .computeRootStep .. => "CR"
  | .cacheReadStep .. => "CHR"
  | .cacheWriteStep .. => "CHW"
  | .rfactorStep .. => "RF"

/-- `Array<Integer>`. -/
def writeInts (l : List ℤ) : Json := .array (l.map .int)

/-- The items that `WriteToRecord` adds after the prefix.  A split length has to be defined;
an extent that is not known is written as zero. -/
def Step.recordItems : Step → Option (List Json)
  | .annotationStep stageId iterId ann => some [.int stageId, .int iterId, .int ann.toInt]
  | .fuseStep stageId fusedIds => some [.int stageId, writeInts fusedIds]
  | .pragmaStep stageId iterId pragmaType => some [.int stageId, .int iterId, .str pragmaType]
  | .reorderStep stageId afterIds => some [.int stageId, writeInts afterIds]
  | .splitStep stageId iterId extent lengths innerToOuter => do
    let lengths ← lengths.mapM id
    some [.int stageId, .int iterId, .int (extent.getD 0), writeInts lengths,
      .int innerToOuter.toInt]
  | .followSplitStep stageId iterId srcStepId nSplit =>
    some [.int stageId, .int iterId, .int srcStepId, .int nSplit]
  | .followFusedSplitStep stageId iterId srcStepIds level factorOrNparts =>
    some [.int stageId, .int iterId, writeInts srcStepIds, .int level, .int factorOrNparts.toInt]
  | .storageAlignStep stageId iterId factor offset =>
    some [.int stageId, .int iterId, .int factor, .int offset]
  | .computeAtStep stageId targetStageId targetIterId =>
    some [.int stageId, .int targetStageId, .int targetIterId]
  | .computeInlineStep stageId => some [.int stageId]
  | .computeRootStep stageId => some [.int stageId]
  | .cacheReadStep stageId scopeName readerStageIds =>
    some [.int stageId, .str scopeName, writeInts readerStageIds]
  | .cacheWriteStep stageId scopeName => some [.int stageId, .str scopeName]
  | .rfactorStep stageId iterId factorIterId =>
    some [.int stageId, .int iterId, .int factorIterId]

/-- `WriteToRecord`: the prefix and then the items; a length that is still open cannot be written. -/
def Step.writeToRecord (step : Step) : Option (List Json) :=
  step.recordItems.map fun items => .str step.recordPrefixStr :: items

/-- `Array<Integer>`, read into 32-bit numbers. -/
def readInts : Json → Option (List ℤ) := readList readInt

/-- `AnnotationStep(reader)`; the annotation is written as its number. -/
def readAnnotationStep : Items Step := do
  let stageId ← item readInt
  let iterId ← item readInt
  let ann ← item fun j => (readInt j).bind IteratorAnnotation.ofInt
  return .annotationStep stageId iterId ann

/-- `FuseStep(reader)`. -/
def readFuseStep : Items Step := do
  let stageId ← item readInt
  let fusedIds ← item readInts
  return .fuseStep stageId fusedIds

/-- `PragmaStep(reader)`. -/
def readPragmaStep : Items Step := do
  let stageId ← item readInt
  let iterId ← item readInt
  let pragmaType ← item readString
  return .pragmaStep stageId iterId pragmaType

/-- `ReorderStep(reader)`. -/
def readReorderStep : Items Step := do
  let stageId ← item readInt
  let afterIds ← item readInts
  return .reorderStep stageId afterIds

/-- Zero stands for an extent that is not known. -/
def readSplitStep : Items Step := do
  let stageId ← item readInt
  let iterId ← item readInt
  let intVal ← item readInt
  let lengths ← item readInts
  let innerToOuter ← item readBool
  return .splitStep stageId iterId (if intVal ≠ 0 then some intVal else none)
    (lengths.map some) innerToOuter

/-- `FollowSplitStep(reader)`. -/
def readFollowSplitStep : Items Step := do
  let stageId ← item readInt
  let iterId ← item readInt
  let srcStepId ← item readInt
  let nSplit ← item readInt
  return .followSplitStep stageId iterId srcStepId nSplit

/-- `FollowFusedSplitStep(reader)`. -/
def readFollowFusedSplitStep : Items Step := do
  let stageId ← item readInt
  let iterId ← item readInt
  let srcStepIds ← item readInts
  let level ← item readInt
  let factorOrNparts ← item readBool
  return .followFusedSplitStep stageId iterId srcStepIds level factorOrNparts

/-- `StorageAlignStep(reader)`. -/
def readStorageAlignStep : Items Step := do
  let stageId ← item readInt
  let iterId ← item readInt
  let factor ← item readInt
  let offset ← item readInt
  return .storageAlignStep stageId iterId factor offset

/-- `ComputeAtStep(reader)`. -/
def readComputeAtStep : Items Step := do
  let stageId ← item readInt
  let targetStageId ← item readInt
  let targetIterId ← item readInt
  return .computeAtStep stageId targetStageId targetIterId

/-- `ComputeInlineStep(reader)`. -/
def readComputeInlineStep : Items Step := do
  let stageId ← item readInt
  return .computeInlineStep stageId

/-- `ComputeRootStep(reader)`. -/
def readComputeRootStep : Items Step := do
  let stageId ← item readInt
  return .computeRootStep stageId

/-- `CacheReadStep(reader)`. -/
def readCacheReadStep : Items Step := do
  let stageId ← item readInt
  let scopeName ← item readString
  let readerStageIds ← item readInts
  return .cacheReadStep stageId scopeName readerStageIds

/-- `CacheWriteStep(reader)`. -/
def readCacheWriteStep : Items Step := do
  let stageId ← item readInt
  let scopeName ← item readString
  return .cacheWriteStep stageId scopeName

/-- `RfactorStep(reader)`. -/
def readRfactorStep : Items Step := do
  let stageId ← item readInt
  let iterId ← item readInt
  let factorIterId ← item readInt
  return .rfactorStep stageId iterId factorIterId

/-- The reader of a prefix. -/
def stepReader (name : String) : Items Step :=
  if name = "AN" then readAnnotationStep
  else if name = "FU" then readFuseStep
  else if name = "PR" then readPragmaStep
  else if name = "RE" then readReorderStep
  else if name = "SP" then readSplitStep
  else if name = "FSP" then readFollowSplitStep
  else if name = "FFSP" then readFollowFusedSplitStep
  else if name = "SA" then readStorageAlignStep
  else if name = "CA" then readComputeAtStep
  else if name = "CI" then readComputeInlineStep
  else if name = "CR" then readComputeRootStep
  else if name = "CHR" then readCacheReadStep
  else if name = "CHW" then readCacheWriteStep
  else if name = "RF" then readRfactorStep
  else fun _ => none

/-- `StepReadFromRecord`: the prefix decides which step is read. -/
def stepReadFromRecord : Items Step := do
  let name ← item readString
  stepReader name

/-- `Handler<Array<Step>>::Write`. -/
def writeSteps (steps : List Step) : Option Json := do
  let records ← steps.mapM fun step => step.writeToRecord.map .array
  some (.array records)

/-- `Handler<Array<Step>>::Read`: after a step its array has to end. -/
def readSteps : Json → Option (List Step) :=
  readList (readArray do
    let step ← stepReadFromRecord
    endOfItems
    return step)

/-! ## Tasks, inputs and results -/

/-- `LayoutRewriteOption`. -/
inductive LayoutRewriteOption where
  | noRewrite
  | insertTransformStage
  | rewriteForPreTransformed
  deriving DecidableEq, Repr

/-- The number of an enumerator, as it is written. -/
def LayoutRewriteOption.toInt : LayoutRewriteOption → ℤ
  | .noRewrite => 0
  | .insertTransformStage => 1
  | .rewriteForPreTransformed => 2

/-- `LayoutRewriteOption(int_value)`, for the value of an enumerator. -/
def LayoutRewriteOption.ofInt : ℤ → Option LayoutRewriteOption
  | 0 => some .noRewrite
  | 1 => some .insertTransformStage
  | 2 => some .rewriteForPreTransformed
  | _ => none

/-- `HardwareParamsNode`. -/
structure HardwareParams where
  numCores : CInt
  vectorUnitBytes : CInt
  cacheLineBytes : CInt
  maxSharedMemoryPerBlock : CInt
  maxLocalMemoryPerBlock : CInt
  maxThreadsPerBlock : CInt
  maxVthreadExtent : CInt
  warpSize : CInt
  deriving DecidableEq

/-- `Handler<HardwareParamsNode>::Write`. -/
def HardwareParams.write (data : HardwareParams) : Json :=
  .array [.int data.numCores, .int data.vectorUnitBytes, .int data.cacheLineBytes,
    .int data.maxSharedMemoryPerBlock, .int data.maxLocalMemoryPerBlock,
    .int data.maxThreadsPerBlock, .int data.maxVthreadExtent, .int data.warpSize]

/-- `Handler<HardwareParamsNode>::Read`: eight numbers, and nothing behind them. -/
def HardwareParams.read : Json → Option HardwareParams := readArray do
  let numCores ← item readCInt
  let vectorUnitBytes ← item readCInt
  let cacheLineBytes ← item readCInt
  let maxSharedMemoryPerBlock ← item readCInt
  let maxLocalMemoryPerBlock ← item readCInt
  let maxThreadsPerBlock ← item readCInt
  let maxVthreadExtent ← item readCInt
  let warpSize ← item readCInt
  endOfItems
  return ⟨numCores, vectorUnitBytes, cacheLineBytes, maxSharedMemoryPerBlock,
    maxLocalMemoryPerBlock, maxThreadsPerBlock, maxVthreadExtent, warpSize⟩

/-- `SearchTaskNode`, without its computation. -/
structure SearchTask where
  workloadKey : String
  target : Target
  targetHost : Option Target
  hardwareParams : Option HardwareParams
  layoutRewriteOption : LayoutRewriteOption
  taskInputNames : List String

/-- `Handler<SearchTaskNode>::Write`.  The hardware parameters have to be defined; a host
that is not is written as an empty text. -/
def SearchTask.write (data : SearchTask) : Option Json := do
  let hardwareParams ← data.hardwareParams
  some (.array [.str data.workloadKey, .str data.target.str, hardwareParams.write,
    .str (data.targetHost.elim "" Target.str), .int data.layoutRewriteOption.toInt,
    .array (data.taskInputNames.map .str)])

variable (reg : TargetRegistry)

/-- The host, if its text is not empty. -/
def readHost (j : Json) : Option (Option Target) := do
  let strValue ← readString j
  if strValue = "" then some none else (reg.fromString strValue).map some

/-- `Handler<SearchTaskNode>::Read`.  Older records end earlier: after the target, after
the hardware parameters, or after the layout option. -/
def SearchTask.read : Json → Option SearchTask := readArray do
  let workloadKey ← item readString
  let target ← item fun j => (readString j).bind reg.fromString
  let some hardwareParams ← tryItem HardwareParams.read
    | return ⟨workloadKey, target, none, none, .noRewrite, []⟩
  let some targetHost ← tryItem (readHost reg)
    | return ⟨workloadKey, target, none, some hardwareParams, .noRewrite, []⟩
  let layoutRewriteOption ← item fun j => (readInt j).bind LayoutRewriteOption.ofInt
  let taskInputNames ← tryItem (readList readString)
  if taskInputNames.isSome then endOfItems
  return ⟨workloadKey, target, targetHost, some hardwareParams, layoutRewriteOption,
    taskInputNames.getD []⟩

/-- `MeasureInputNode`. -/
structure MeasureInput where
  task : SearchTask
  state : State

/-- `Handler<StateNode>::Write`: no stages, and the steps. -/
def State.write (data : State) : Option Json := do
  let transformSteps ← writeSteps data.transformSteps
  some (.array [.array [], transformSteps])

/-- `Handler<StateNode>::Read`, into a state that is concrete. -/
def State.read : Json → Option State := readArray do
  item (readArray endOfItems)
  let transformSteps ← item readSteps
  endOfItems
  return ⟨[], transformSteps, Lib.TwoWayMap.empty, none, true⟩

/-- `Handler<MeasureInputNode>::Write`. -/
def MeasureInput.write (data : MeasureInput) : Option Json := do
  let task ← data.task.write
  let state ← data.state.write
  some (.array [task, state])

/-- `Handler<MeasureInputNode>::Read`. -/
def MeasureInput.read : Json → Option MeasureInput := readArray do
  let task ← item (SearchTask.read reg)
  let state ← item State.read
  endOfItems
  return ⟨task, state⟩

/-- `MeasureResultNode`, without its error message. -/
structure MeasureResult where
  costs : List ℚ
  errorNo : CInt
  allCost : ℚ
  timestamp : ℚ

/-- `Handler<MeasureResultNode>::Write`; the time stamp is truncated to an integer. -/
def MeasureResult.write (data : MeasureResult) : Json :=
  .array [.array (data.costs.map .double), .int data.errorNo, .double data.allCost,
    .int (if 0 ≤ data.timestamp then ⌊data.timestamp⌋ else ⌈data.timestamp⌉)]

/-- `Handler<MeasureResultNode>::Read`. -/
def MeasureResult.read : Json → Option MeasureResult := readArray do
  let costs ← item (readList readDouble)
  let errorNo ← item readCInt
  let allCost ← item readDouble
  let timestamp ← item readDouble
  endOfItems
  return ⟨costs, errorNo, allCost, timestamp⟩

/-! ## Lines -/

/-- One line of `WriteMeasureRecords`. -/
def writeMeasureRecord (input : MeasureInput) (result : MeasureResult) (logVersion : String) :
    Option Json := do
  let i ← input.write
  some (.object [("i", i), ("r", result.write), ("v", .str logVersion)])

/-- What `ReadMeasureRecord` has assigned. -/
structure MeasureRecord where
  inp : Option MeasureInput
  res : Option MeasureResult
  logVersion : Option String

/-- The loop of `ReadMeasureRecord` over the members of the object. -/
def readMembers (reg : TargetRegistry) : MeasureRecord → List (String × Json) → Option MeasureRecord
  | record, [] => some record
  | record, (key, value) :: rest =>
    if key = "i" then do
      let inp ← MeasureInput.read reg value
      readMembers reg { record with inp := some inp } rest
    else if key = "r" then do
      let res ← MeasureResult.read value
      readMembers reg { record with res := some res } rest
    else if key = "v" then do
      let logVersion ← readString value
      readMembers reg { record with logVersion := some logVersion } rest
    else none

/-- `ReadMeasureRecord`. -/
def readMeasureRecord : Json → Option MeasureRecord
  | .object members => readMembers reg ⟨none, none, none⟩ members
  | _ => none

/-! ## Reading what was written -/

/-- The integers of a step. -/
def Step.ints : Step → List ℤ
  | .annotationStep stageId iterId _ => [stageId, iterId]
  | .fuseStep stageId fusedIds => stageId :: fusedIds
  | .pragmaStep stageId iterId _ => [stageId, iterId]
  | .reorderStep stageId afterIds => stageId :: afterIds
  | .splitStep stageId iterId extent lengths _ =>
    stageId :: iterId :: (extent.toList ++ lengths.filterMap id)
  | .followSplitStep stageId iterId srcStepId nSplit => [stageId, iterId, srcStepId, nSplit]
  | .followFusedSplitStep stageId iterId srcStepIds level _ =>
    stageId :: iterId :: level :: srcStepIds
  | .storageAlignStep stageId iterId factor offset => [stageId, iterId, factor, offset]
  | .computeAtStep stageId targetStageId targetIterId => [stageId, targetStageId, targetIterId]
  | .computeInlineStep stageId => [stageId]
  | .computeRootStep stageId => [stageId]
  | .cacheReadStep stageId _ readerStageIds => stageId :: readerStageIds
  | .cacheWriteStep stageId _ => [stageId]
  | .rfactorStep stageId iterId factorIterId => [stageId, iterId, factorIterId]

/-- A split step whose extent is positive, if it has one. -/
def Step.ExtentPos : Step → Prop
  | .splitStep _ _ extent _ _ => ∀ e ∈ extent, 0 < e
  | _ => True

/-- The steps of a concrete state: all lengths are given, the integers are those of an
`int`, and an extent is positive. -/
structure Step.Recordable (step : Step) : Prop where
  filled : step.Filled
  fits : ∀ z ∈ step.ints, FitsInt z
  extent : step.ExtentPos

/-- Zero is no extent, and an extent that is known is not zero. -/
theorem extent_of_getD {extent : Option ℤ} (h : ∀ e ∈ extent, 0 < e) :
    (if extent.getD 0 ≠ 0 then some (extent.getD 0) else none) = extent := by
  cases extent with
  | none => rfl
  | some e => exact if_pos (h e rfl).ne'

theorem item_int_bind {z : ℤ} (h : FitsInt z) (rest : List Json)
    (f : ℤ → Items β) : (item readInt >>= f) (.int z :: rest) = f z rest :=
  item_bind (readInt_int h) f

theorem item_ints_bind {l : List ℤ} (h : ∀ z ∈ l, FitsInt z) (rest : List Json)
    (f : List ℤ → Items β) : (item readInts >>= f) (writeInts l :: rest) = f l rest :=
  item_bind (readList_map fun z hz => readInt_int (h z hz)) f

theorem item_bool_bind (b : Bool) (rest : List Json) (f : Bool → Items β) :
    (item readBool >>= f) (.int b.toInt :: rest) = f b rest :=
  item_bind (readBool_toInt b) f

theorem item_string_bind (s : String) (rest : List Json) (f : String → Items β) :
    (item readString >>= f) (.str s :: rest) = f s rest :=
  item_bind (readString_str s) f

theorem stepReader_recordItems {step : Step} (h : step.Recordable) :
    ∃ items, step.recordItems = some items ∧
      stepReader step.recordPrefixStr items = some (step, []) := by
  obtain ⟨hfilled, hfits, hextent⟩ := h
  cases step
  all_goals simp only [Step.ints, forall_mem_cons, forall_mem_append] at hfits
  case annotationStep stageId iterId ann =>
    refine ⟨_, rfl, ?_⟩
    show readAnnotationStep _ = _
    have hread : (readInt (.int ann.toInt)).bind IteratorAnnotation.ofInt = some ann := by
      cases ann <;> rfl
    rw [readAnnotationStep, item_int_bind hfits.1, item_int_bind hfits.2.1, item_bind hread]
    rfl
  case fuseStep stageId fusedIds =>
    refine ⟨_, rfl, ?_⟩
    show readFuseStep _ = _
    rw [readFuseStep, item_int_bind hfits.1, item_ints_bind hfits.2]
    rfl
  case pragmaStep stageId iterId pragmaType =>
    refine ⟨_, rfl, ?_⟩
    show readPragmaStep _ = _
    rw [readPragmaStep, item_int_bind hfits.1, item_int_bind hfits.2.1]
    rfl
  case reorderStep stageId afterIds =>
    refine ⟨_, rfl, ?_⟩
    show readReorderStep _ = _
    rw [readReorderStep, item_int_bind hfits.1, item_ints_bind hfits.2]
    rfl
  case splitStep stageId iterId extent lengths innerToOuter =>
    obtain ⟨ls, rfl⟩ := exists_eq_map_some hfilled
    obtain ⟨hstage, hiter, hext, hls⟩ := hfits
    rw [filterMap_map, Function.id_comp, filterMap_some] at hls
    have hext' : FitsInt (extent.getD 0) := by
      cases extent with
      | none => decide
      | some e => exact hext e (by simp)
    refine ⟨[.int stageId, .int iterId, .int (extent.getD 0), writeInts ls,
      .int innerToOuter.toInt], ?_, ?_⟩
    · rw [Step.recordItems, mapM_id_map_some]
      rfl
    show readSplitStep _ = _
    rw [readSplitStep, item_int_bind hstage, item_int_bind hiter, item_int_bind hext',
      item_ints_bind hls, item_bool_bind, extent_of_getD hextent]
    rfl
  case followSplitStep stageId iterId srcStepId nSplit =>
    refine ⟨_, rfl, ?_⟩
    show readFollowSplitStep _ = _
    rw [readFollowSplitStep, item_int_bind hfits.1, item_int_bind hfits.2.1,
      item_int_bind hfits.2.2.1, item_int_bind hfits.2.2.2.1]
    rfl
  case followFusedSplitStep stageId iterId srcStepIds level factorOrNparts =>
    obtain ⟨hstage, hiter, hlevel, hids⟩ := hfits
    refine ⟨_, rfl, ?_⟩
    show readFollowFusedSplitStep _ = _
    rw [readFollowFusedSplitStep, item_int_bind hstage, item_int_bind hiter,
      item_ints_bind hids, item_int_bind hlevel, item_bool_bind]
    rfl
  case storageAlignStep stageId iterId factor offset =>
    refine ⟨_, rfl, ?_⟩
    show readStorageAlignStep _ = _
    rw [readStorageAlignStep, item_int_bind hfits.1, item_int_bind hfits.2.1,
      item_int_bind hfits.2.2.1, item_int_bind hfits.2.2.2.1]
    rfl
  case computeAtStep stageId targetStageId targetIterId =>
    refine ⟨_, rfl, ?_⟩
    show readComputeAtStep _ = _
    rw [readComputeAtStep, item_int_bind hfits.1, item_int_bind hfits.2.1,
      item_int_bind hfits.2.2.1]
    rfl
  case computeInlineStep stageId =>
    refine ⟨_, rfl, ?_⟩
    show readComputeInlineStep _ = _
    rw [readComputeInlineStep, item_int_bind hfits.1]
    rfl
  case computeRootStep stageId =>
    refine ⟨_, rfl, ?_⟩
    show readComputeRootStep _ = _
    rw [readComputeRootStep, item_int_bind hfits.1]
    rfl
  case cacheReadStep stageId scopeName readerStageIds =>
    refine ⟨_, rfl, ?_⟩
    show readCacheReadStep _ = _
    rw [readCacheReadStep, item_int_bind hfits.1, item_string_bind, item_ints_bind hfits.2]
    rfl
  case cacheWriteStep stageId scopeName =>
    refine ⟨_, rfl, ?_⟩
    show readCacheWriteStep _ = _
    rw [readCacheWriteStep, item_int_bind hfits.1]
    rfl
  case rfactorStep stageId iterId factorIterId =>
    refine ⟨_, rfl, ?_⟩
    show readRfactorStep _ = _
    rw [readRfactorStep, item_int_bind hfits.1, item_int_bind hfits.2.1, item_int_bind hfits.2.2.1]
    rfl

theorem readSteps_writeSteps {steps : List Step} (h : ∀ step ∈ steps, step.Recordable) :
    ∃ j, writeSteps steps = some j ∧ readSteps j = some steps := by
  suffices H : ∃ records, steps.mapM (fun step => step.writeToRecord.map .array) = some records ∧
      readSteps (.array records) = some steps by
    obtain ⟨records, hwrite, hread⟩ := H
    exact ⟨.array records, by simp only [writeSteps, hwrite, some_bind_eq], hread⟩
  induction steps with
  | nil => exact ⟨[], rfl, rfl⟩
  | cons step steps ih =>
    obtain ⟨records, hwrite, hread⟩ := ih (forall_mem_cons.mp h).2
    obtain ⟨items, hitems, hstep⟩ := stepReader_recordItems (h step mem_cons_self)
    refine ⟨.array (.str step.recordPrefixStr :: items) :: records, ?_, ?_⟩
    · have hone : step.writeToRecord = some (.str step.recordPrefixStr :: items) := by
        rw [Step.writeToRecord, hitems, Option.map_some]
      rw [mapM_cons, hone, hwrite]
      rfl
    · have hone : readArray (do
          let step ← stepReadFromRecord
          endOfItems
          return step) (.array (.str step.recordPrefixStr :: items)) = some step := by
        simp only [readArray, stepReadFromRecord, bind_assoc, item_string_bind]
        simp only [bind, StateT.bind, hstep, Option.bind_some]
        rfl
      simp only [readSteps, readList] at hread ⊢
      rw [mapM_cons, hone, hread]
      rfl

theorem HardwareParams.read_write (data : HardwareParams) :
    HardwareParams.read data.write = some data := by
  simp only [HardwareParams.read, HardwareParams.write, readArray]
  repeat rw [item_bind (readCInt_int _)]
  rfl

theorem MeasureResult.exists_read_write (data : MeasureResult) :
    ∃ res, MeasureResult.read data.write = some res := by
  refine ⟨⟨data.costs, data.errorNo, data.allCost, ((if 0 ≤ data.timestamp then
    ⌊data.timestamp⌋ else ⌈data.timestamp⌉ : ℤ) : ℚ)⟩, ?_⟩
  simp only [MeasureResult.read, MeasureResult.write, readArray]
  rw [item_bind (readList_map fun x _ => readDouble_double x), item_bind (readCInt_int _),
    item_bind (readDouble_double _)]
  rfl

theorem State.read_write {data : State} (h : ∀ step ∈ data.transformSteps, step.Recordable) :
    ∃ j st, data.write = some j ∧ State.read j = some st ∧
      st.transformSteps = data.transformSteps := by
  obtain ⟨steps, hwrite, hread⟩ := readSteps_writeSteps h
  refine ⟨.array [.array [], steps], ⟨[], data.transformSteps, TwoWayMap.empty, none, true⟩,
    ?_, ?_, rfl⟩
  · simp [State.write, hwrite, some_bind_eq]
  · simp only [State.read, readArray]
    rw [item_bind (a := ()) rfl, item_bind hread]
    rfl

theorem readHost_text {reg : TargetRegistry} {host : Option Target}
    (h : ∀ t ∈ host, reg.Rereads t) :
    ∃ host', readHost reg (.str (host.elim "" Target.str)) = some host' ∧
      host'.map Target.str = host.map Target.str := by
  cases host with
  | none => exact ⟨none, rfl, rfl⟩
  | some t =>
    obtain ⟨t', hread, hstr⟩ := h t rfl
    refine ⟨some t', ?_, congrArg some hstr⟩
    simp [readHost, readString_str, if_neg t.str_ne, hread]

theorem SearchTask.read_write {reg : TargetRegistry} {data : SearchTask}
    (hhw : data.hardwareParams.isSome) (htarget : reg.Rereads data.target)
    (hhost : ∀ t ∈ data.targetHost, reg.Rereads t) :
    ∃ j task, data.write = some j ∧ SearchTask.read reg j = some task ∧
      task.workloadKey = data.workloadKey ∧ task.target.str = data.target.str ∧
      task.targetHost.map Target.str = data.targetHost.map Target.str ∧
      task.hardwareParams = data.hardwareParams ∧
      task.layoutRewriteOption = data.layoutRewriteOption ∧
      task.taskInputNames = data.taskInputNames := by
  obtain ⟨hw, hhw⟩ := Option.isSome_iff_exists.mp hhw
  obtain ⟨target, htarget, hstr⟩ := htarget
  obtain ⟨host, hhost, hhoststr⟩ := readHost_text hhost
  refine ⟨.array [.str data.workloadKey, .str data.target.str, hw.write,
      .str (data.targetHost.elim "" Target.str), .int data.layoutRewriteOption.toInt,
      .array (data.taskInputNames.map .str)],
    ⟨data.workloadKey, target, host, some hw, data.layoutRewriteOption, data.taskInputNames⟩,
    ?_, ?_, rfl, hstr, hhoststr, hhw.symm, rfl, rfl⟩
  · simp [SearchTask.write, hhw, some_bind_eq]
  · simp only [SearchTask.read, readArray]
    rw [item_string_bind, item_bind (show (readString (.str data.target.str)).bind
        reg.fromString = some target from htarget),
      tryItem_bind hw.read_write]
    dsimp only
    rw [tryItem_bind hhost]
    dsimp only
    have hread : (readInt (.int data.layoutRewriteOption.toInt)).bind LayoutRewriteOption.ofInt =
        some data.layoutRewriteOption := by
      cases data.layoutRewriteOption <;> rfl
    rw [item_bind hread, tryItem_bind (readList_map fun s _ => readString_str s)]
    rfl

/-- **Reading a line gives back what was written**: the steps, and the task up to what is
not in the record, for tasks whose target texts can be read. -/
theorem readMeasureRecord_writeMeasureRecord {reg : TargetRegistry} {input : MeasureInput}
    (result : MeasureResult) (logVersion : String) (hhw : input.task.hardwareParams.isSome)
    (hsteps : ∀ step ∈ input.state.transformSteps, step.Recordable)
    (htarget : reg.Rereads input.task.target) (hhost : ∀ t ∈ input.task.targetHost, reg.Rereads t) :
    ∃ line record inp, writeMeasureRecord input result logVersion = some line ∧
      readMeasureRecord reg line = some record ∧ record.inp = some inp ∧
      inp.task.workloadKey = input.task.workloadKey ∧
      inp.task.target.str = input.task.target.str ∧
      inp.task.targetHost.map Target.str = input.task.targetHost.map Target.str ∧
      inp.task.hardwareParams = input.task.hardwareParams ∧
      inp.task.layoutRewriteOption = input.task.layoutRewriteOption ∧
      inp.task.taskInputNames = input.task.taskInputNames ∧
      inp.state.transformSteps = input.state.transformSteps := by
  obtain ⟨jt, task, htw, htr, hkey, htarget, hhost, hhw, hlayout, hnames⟩ :=
    SearchTask.read_write hhw htarget hhost
  obtain ⟨js, state, hsw, hsr, hsteps⟩ := State.read_write hsteps
  obtain ⟨res, hres⟩ := result.exists_read_write
  have hin : MeasureInput.read reg (.array [jt, js]) = some ⟨task, state⟩ := by
    simp only [MeasureInput.read, readArray]
    rw [item_bind htr, item_bind hsr]
    rfl
  refine ⟨.object [("i", .array [jt, js]), ("r", result.write), ("v", .str logVersion)],
    ⟨some ⟨task, state⟩, some res, some logVersion⟩, ⟨task, state⟩, ?_, ?_, rfl,
    hkey, htarget, hhost, hhw, hlayout, hnames, hsteps⟩
  · simp [writeMeasureRecord, MeasureInput.write, htw, hsw]
  · simp [readMeasureRecord, readMembers, hin, hres]

/-- A task for the given target, with one step of some kinds. -/
def llvmInput (target : Target) : MeasureInput where
  task :=
    { workloadKey := "matmul"
      target := target
      targetHost := none
      hardwareParams := some ⟨⟨4, by decide⟩, ⟨64, by decide⟩, ⟨64, by decide⟩, ⟨0, by decide⟩,
        ⟨0, by decide⟩, ⟨0, by decide⟩, ⟨0, by decide⟩, ⟨0, by decide⟩⟩
      layoutRewriteOption := .insertTransformStage
      taskInputNames := ["A"] }
  state :=
    { stages := []
      transformSteps := [.splitStep 2 0 (some 512) [some 8, some 4] true,
        .cacheReadStep 0 "shared" [2], .annotationStep 3 0 .kParallel]
      attachMap := Lib.TwoWayMap.empty
      currentComputeDag := none
      concrete := true }

/-- The target of the configuration `kind: llvm, mcpu: skylake`. -/
def skylakeTarget : Target := llvmTarget "skylake"

/-- The target of the configuration `kind: llvm`, with an empty text for `mcpu`. -/
def emptyMcpuTarget : Target := llvmTarget ""

theorem readMeasureRecord_skylake : ∃ line record inp,
      writeMeasureRecord (llvmInput skylakeTarget) ⟨[1/8], ⟨0, by decide⟩, 1, 2⟩ "v0.6" =
        some line ∧
      readMeasureRecord llvmRegistry line = some record ∧ record.inp = some inp ∧
      inp.state.transformSteps = (llvmInput skylakeTarget).state.transformSteps := by
  have htarget : llvmRegistry.Rereads (llvmInput skylakeTarget).task.target :=
    rereads_llvmTarget (by decide) (by simp [isSpace])
  have hrec : ∀ step ∈ (llvmInput skylakeTarget).state.transformSteps, step.Recordable := by
    intro step hstep
    simp only [llvmInput, mem_cons, not_mem_nil, or_false] at hstep
    rcases hstep with rfl | rfl | rfl
    · exact ⟨by simp [Step.Filled], by decide, by simp [Step.ExtentPos]⟩
    · exact ⟨trivial, by decide, trivial⟩
    · exact ⟨trivial, by decide, trivial⟩
  obtain ⟨line, record, inp, hw, hr, hi, -, -, -, -, -, -, hsteps⟩ :=
    readMeasureRecord_writeMeasureRecord ⟨[1/8], ⟨0, by decide⟩, 1, 2⟩ "v0.6" rfl hrec htarget
      (by simp [llvmInput])
  exact ⟨line, record, inp, hw, hr, hi, hsteps⟩

/-- **A target text can be unreadable.**  The configuration with an empty `mcpu` is a
target, its record is written, and the record cannot be read. -/
theorem readMeasureRecord_rejects_empty_attribute :
    llvmRegistry.fromConfig llvmKind [("mcpu", .str "")] = some emptyMcpuTarget ∧
    ∃ line, writeMeasureRecord (llvmInput emptyMcpuTarget) ⟨[1/8], ⟨0, by decide⟩, 1, 2⟩ "v0.6" =
        some line ∧
      (readMeasureRecord llvmRegistry line).isNone := by
  refine ⟨rfl, _, rfl, ?_⟩
  decide +kernel

end Pruner.AutoScheduler
