import Pruner.AutoScheduler.Dataset

/-!
# Making datasets from log files

`make_dataset_from_log_file` reads the records of each log file, computes their features,
and loads them into a dataset.  The features of a file are kept in a cache file, whose name
is made from the name of the log file.  An exception skips the rest of a file, and what has
been done up to then stays.  There are two kinds of datasets; for the kind `pam` the buffer
features are loaded too, but they are not kept in the cache file.

## Main definitions

* `PamDataset.loadTaskData` — load a batch into a dataset of kind `pam`.
* `DatasetMode`, `ansorMode`, `pamMode` — the two kinds of datasets.
* `LogFiles` — the log files, and how their features are computed.
* `LoopState`, `processFile` — the loop over the log files.
* `makeDatasetFromLogFile` — the dataset that is made.
-/

namespace Pruner.AutoScheduler

open Lib (EntryMap)

/-! ## Datasets with buffer features -/

structure ArrayRow (α : Type) where
  shape : List ℕ
  data : α
  deriving DecidableEq

/-- An array.  The shape is the one of its rows, and `[]` for an array of objects. -/
structure NdArray (α : Type) where
  shape : List ℕ
  rows : List (ArrayRow α)
  deriving DecidableEq

namespace NdArray

variable {α : Type}

/-- `np.concatenate`, which raises a `ValueError` when the shapes do not agree. -/
def concatenate (a b : NdArray α) : Option (NdArray α) :=
  if a.shape = b.shape then some ⟨a.shape, a.rows ++ b.rows⟩ else none

/-- `np.array(rows, dtype=object)`: rows of one shape are stacked, and others become objects,
unless their first dimensions agree, which raises a `ValueError`. -/
def ofRows (rows : List (ArrayRow α)) : Option (NdArray α) :=
  match rows with
  | [] => some ⟨[], []⟩
  | row :: rest =>
    if rest.all (·.shape = row.shape) then some ⟨row.shape, rows⟩
    else if row.shape ≠ [] ∧ rest.all (·.shape.head? = row.shape.head?) then none
    else some ⟨[], rows⟩

end NdArray

/-- The arrays of one task, in the order in which `load_task_data` extends them. -/
structure PamTaskArrays (α : Type) where
  features : NdArray α
  bufFeatures : NdArray α
  featuresSizes : NdArray α
  kmpIndexs : NdArray α
  deriving DecidableEq

namespace PamTaskArrays

variable {α : Type}

/-- Replace the arrays one after the other, up to the first exception.  The flag is `false` after
one. -/
def replaceAll (join : NdArray α → NdArray α → Option (NdArray α)) (old new : PamTaskArrays α) :
    PamTaskArrays α × Bool :=
  match join old.features new.features with
  | none => (old, false)
  | some features =>
    let old := { old with features := features }
    match join old.bufFeatures new.bufFeatures with
    | none => (old, false)
    | some bufFeatures =>
      let old := { old with bufFeatures := bufFeatures }
      match join old.featuresSizes new.featuresSizes with
      | none => (old, false)
      | some featuresSizes =>
        let old := { old with featuresSizes := featuresSizes }
        match join old.kmpIndexs new.kmpIndexs with
        | none => (old, false)
        | some kmpIndexs => ({ old with kmpIndexs := kmpIndexs }, true)

/-- The `try` block of `load_task_data`. -/
def concatenate (old new : PamTaskArrays α) : PamTaskArrays α × Bool :=
  replaceAll NdArray.concatenate old new

/-- The `except` block: rows are appended to all arrays, also to those that have been extended
already. -/
def extendRows (old new : PamTaskArrays α) : PamTaskArrays α × Bool :=
  replaceAll (fun a b => NdArray.ofRows (a.rows ++ b.rows)) old new

/-- The arrays of both batches. -/
def extend (old new : PamTaskArrays α) : PamTaskArrays α × Bool :=
  match old.concatenate new with
  | (arrays, true) => (arrays, true)
  | (arrays, false) => arrays.extendRows new

end PamTaskArrays

/-- The entries of one task of a `PAMDataset`. -/
structure PamTaskData (α : Type) where
  arrays : PamTaskArrays α
  throughputs : List ℚ
  minLatency : ℚ
  deriving DecidableEq

structure PamDataset (α : Type) where
  tasks : EntryMap LearningTask (PamTaskData α)

/-- The arrays and the throughputs of both batches.  After an exception only arrays have been
replaced. -/
def PamTaskData.extend {α : Type} (old new : PamTaskData α) : PamTaskData α × Bool :=
  match old.arrays.extend new.arrays with
  | (arrays, false) => ({ old with arrays := arrays }, false)
  | (arrays, true) =>
    let combined := min old.minLatency new.minLatency
    ({ arrays := arrays
       throughputs := old.throughputs.map (· * (combined / old.minLatency)) ++
         new.throughputs.map (· * (combined / new.minLatency))
       minLatency := combined }, true)

/-- `PAMDataset.load_task_data`, with a latency. -/
def PamDataset.loadTaskData {α : Type} (d : PamDataset α) (task : LearningTask)
    (new : PamTaskData α) : PamDataset α × Bool :=
  match d.tasks.get? task with
  | none => (⟨d.tasks.update task fun _ => new⟩, true)
  | some old => (⟨d.tasks.update task fun _ => (old.extend new).1⟩, (old.extend new).2)

/-! ## The two kinds of datasets -/

/-- A kind of dataset.  `φ` is what is kept in a cache file for a task, besides its latency,
and `β` are its buffer features. -/
structure DatasetMode (φ β D : Type) where
  name : String
  empty : D
  /-- `load_task_data`, with the buffer features if there are any.  The flag is `false` after an
  exception. -/
  load : D → LearningTask → φ → Option β → ℚ → D × Bool
  /-- Delete the tasks with too few samples. -/
  deleteSmall : ℤ → D → D

/-- What a cache file of mode `ansor` holds of a task. -/
structure AnsorFeatures (ρ : Type) where
  features : List ρ
  throughputs : List ℚ
  deriving DecidableEq

/-- The mode `ansor`. -/
def ansorMode (ρ : Type) : DatasetMode (AnsorFeatures ρ) Unit (Dataset ρ) where
  name := "ansor"
  empty := .empty
  load d task data _ minLatency :=
    match d.loadTaskData task ⟨data.features, data.throughputs, some minLatency⟩ with
    | none => (d, false)
    | some d' => (d', true)
  deleteSmall minSampleSize d := ⟨d.tasks.filter fun _ data => minSampleSize ≤ data.features.length⟩

/-- What a cache file of mode `pam` holds of a task. -/
structure PamFeatures (α : Type) where
  features : NdArray α
  featuresSizes : NdArray α
  kmpIndexs : NdArray α
  throughputs : List ℚ
  deriving DecidableEq

/-- The mode `pam`.  Missing buffer features raise an exception. -/
def pamMode (α : Type) : DatasetMode (PamFeatures α) (NdArray α) (PamDataset α) where
  name := "pam"
  empty := ⟨.empty⟩
  load d task data bufFeatures minLatency :=
    match bufFeatures with
    | none => (d, false)
    | some bufFeatures => d.loadTaskData task
        ⟨⟨data.features, bufFeatures, data.featuresSizes, data.kmpIndexs⟩, data.throughputs,
          minLatency⟩
  deleteSmall minSampleSize d :=
    ⟨d.tasks.filter fun _ data => minSampleSize ≤ data.arrays.features.rows.length⟩

/-! ## The loop over the log files -/

/-- What the functions that compute features return for the records of a task. -/
structure Featurized (φ β : Type) where
  data : φ
  bufFeatures : β
  taskIds : List ℕ
  minLatency : List ℚ

/-- The log files.  `none` is an exception. -/
structure LogFiles (μ φ β : Type) where
  pathExists : String → Bool
  readRecords : String → Option (List μ)
  inputToLearningTask : μ → LearningTask
  perStoreFeatures : List μ → Option (Featurized φ β)

abbrev CacheFile (φ : Type) := EntryMap LearningTask (φ × ℚ)

/-- The variables of `make_dataset_from_log_file` that outlive a file, and the cache folder.
`buf_features` is `none` before it is first assigned. -/
structure LoopState (φ β D : Type) where
  dataset : D
  cache : String → Option (CacheFile φ)
  bufFeatures : Option (EntryMap LearningTask β)

variable {μ φ β D : Type} (mode : DatasetMode φ β D) (logs : LogFiles μ φ β)

/-- `filename.replace('/', '_')`. -/
def replaceSlashes (filename : String) : String :=
  String.ofList (filename.toList.map fun c => if c = '/' then '_' else c)

def cacheFile (filename : String) : String :=
  ".dataset_cache/" ++ replaceSlashes filename ++ "_" ++ mode.name ++ ".feature_cache"

/-- `measure_records`: the records of a file by task. -/
def measureRecords (records : List μ) : EntryMap LearningTask (List μ) :=
  records.foldl (fun m record =>
    m.update (logs.inputToLearningTask record) fun l => l.getD [] ++ [record]) .empty

/-- Compute the features of the tasks of a file.  The flag is `false` after an exception. -/
def featurize : List (LearningTask × List μ) →
    CacheFile φ × EntryMap LearningTask β → (CacheFile φ × EntryMap LearningTask β) × Bool
  | [], acc => (acc, true)
  | (task, records) :: rest, acc =>
    match logs.perStoreFeatures records with
    | none => (acc, false)
    | some res =>
      if res.taskIds.any (· ≠ 0) then (acc, false)
      else match res.minLatency with
        | [] => featurize rest acc
        | [minLatency] =>
          featurize rest (acc.1.update task fun _ => (res.data, minLatency),
            acc.2.update task fun _ => res.bufFeatures)
        | _ => (acc, false)

/-- Load the tasks of a file, up to the first exception. -/
def loadTasks (bufFeatures : Option (EntryMap LearningTask β)) : List (LearningTask × φ × ℚ) → D → D
  | [], d => d
  | (task, data, minLatency) :: rest, d =>
    match mode.load d task data (bufFeatures.bind (·.get? task)) minLatency with
    | (d', false) => d'
    | (d', true) => loadTasks bufFeatures rest d'

/-- The loop body. -/
def processFile (state : LoopState φ β D) (filename : String) : LoopState φ β D :=
  if !logs.pathExists filename then state
  else match state.cache (cacheFile mode filename) with
    | some features =>
      { state with dataset := loadTasks mode state.bufFeatures features.entries state.dataset }
    | none =>
      match logs.readRecords filename with
      | none => state
      | some records =>
        let res := featurize logs (measureRecords logs records).entries (.empty, .empty)
        if !res.2 then { state with bufFeatures := some res.1.2 }
        else
          { dataset := loadTasks mode (some res.1.2) res.1.1.entries state.dataset
            cache := Function.update state.cache (cacheFile mode filename) (some res.1.1)
            bufFeatures := some res.1.2 }

/-- The loop over the log files, with a cache folder to start with. -/
def processFiles (cache : String → Option (CacheFile φ)) (logFiles : List String) :
    LoopState φ β D :=
  logFiles.foldl (processFile mode logs) ⟨mode.empty, cache, none⟩

def makeDatasetFromLogFile (cache : String → Option (CacheFile φ)) (logFiles : List String)
    (minSampleSize : ℤ) : D :=
  mode.deleteSmall minSampleSize (processFiles mode logs cache logFiles).dataset

end Pruner.AutoScheduler
