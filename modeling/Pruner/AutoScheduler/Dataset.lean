import Mathlib.Data.Rat.Floor
import Pruner.Lib.Ext
import Pruner.Lib.UnorderedMap

/-!
# Datasets of measured programs

A dataset keeps, for every learning task, the features of its measured programs, their
throughputs relative to the best one, and the latency of that best one.  Datasets are
merged batch by batch and split in several ways.  Latencies and throughputs are exact
rational numbers, and an exception is `none`.

## Main definitions

* `TaskData`, `Dataset` — the data of a task, and of all tasks.
* `Dataset.loadTaskData` — load a batch.
* `Dataset.randomSplitWithinTask`, `Dataset.randomSplitByTask`, `Dataset.randomSplitByTarget`,
  `Dataset.extractSubset` — the ways to split a dataset.
* `DatasetCall`, `DatasetCall.run` — programs that build datasets.
-/

namespace Pruner.AutoScheduler

open Lib (EntryMap Enumeration truncToInt)

structure LearningTask where
  workloadKey : String
  target : String
  deriving DecidableEq, Repr, Inhabited

/-- The entries of one task in `features`, `throughputs` and `min_latency`. -/
structure TaskData (ρ : Type) where
  features : List ρ
  throughputs : List ℚ
  minLatency : Option ℚ
  deriving DecidableEq, Repr, Inhabited

/-- `Dataset`.  Its dictionaries have the same keys, in the same order. -/
structure Dataset (ρ : Type) where
  tasks : EntryMap LearningTask (TaskData ρ)

namespace Dataset

variable {ρ : Type}

/-- `Dataset()`. -/
def empty : Dataset ρ := ⟨.empty⟩

variable (d : Dataset ρ) (task : LearningTask)

/-- `__len__`. -/
def length : ℕ := (d.tasks.entries.map fun p => p.2.throughputs.length).sum

/-- The `else` branch of `load_task_data`.  The rows are appended whether or not the shapes of
the arrays agree. -/
def extend (old new : TaskData ρ) : Option (TaskData ρ) := do
  let minLatency ← new.minLatency
  let oldMinLatency ← old.minLatency
  let combined := min oldMinLatency minLatency
  some {
    features := old.features ++ new.features
    throughputs := old.throughputs.map (· * (combined / oldMinLatency)) ++
      new.throughputs.map (· * (combined / minLatency))
    minLatency := some combined }

def loadTaskData (new : TaskData ρ) : Option (Dataset ρ) :=
  match d.tasks.get? task with
  | none => some ⟨d.tasks.update task fun _ => new⟩
  | some old => (extend old new).map fun data => ⟨d.tasks.update task fun _ => data⟩

def updateFromDataset (other : Dataset ρ) : Dataset ρ :=
  other.tasks.entries.foldl (fun d p =>
    if (d.tasks.get? p.1).isSome then d else ⟨d.tasks.update p.1 fun _ => p.2⟩) d

/-! ## Splits -/

/-- Elements of an array at a list of indices. -/
def takeIndices {α : Type} (l : List α) (indices : List ℕ) : Option (List α) := indices.mapM (l[·]?)

/-- The position where `l[:k]` ends and `l[k:]` begins, for a list of length `n`. -/
def slicePosition (k : ℤ) (n : ℕ) : ℕ := if k < 0 then (n + k).toNat else k.toNat

/-- What `np.random.permutation` returns for every task. -/
structure Permutations where
  order : LearningTask → ℕ → List ℕ
  perm : ∀ task n, (order task n).Perm (List.range n)

/-- The indices of the training set and of the test set of a task. -/
def splitIndices (shuffle : Option Permutations) (task : LearningTask) (split : ℤ) (n : ℕ) :
    List ℕ × List ℕ :=
  let order := match shuffle with
    | some perms => perms.order task n
    | none => (List.range n).reverse
  (order.take (slicePosition split n), order.drop (slicePosition split n))

/-- Load some of the records of a task, if there are any. -/
def loadIndices (set : Dataset ρ) (task : LearningTask) (data : TaskData ρ) (indices : List ℕ) :
    Option (Dataset ρ) :=
  if indices.length = 0 then some set
  else do
    let throughputs ← takeIndices data.throughputs indices
    let minLatency ← data.minLatency
    let best ← throughputs.max?
    let features ← takeIndices data.features indices
    set.loadTaskData task ⟨features, throughputs, some (minLatency / best)⟩

/-- The number of records of the training set. -/
def splitSize (trainSetRatio : Option ℚ) (trainSetNum : Option ℤ) (n : ℕ) : Option ℤ :=
  match trainSetNum with
  | some num => some num
  | none => trainSetRatio.map fun ratio => truncToInt (ratio * (n : ℚ))

def randomSplitWithinTask (trainSetRatio : Option ℚ) (trainSetNum : Option ℤ)
    (shuffle : Option Permutations) : Option (Dataset ρ × Dataset ρ) :=
  if trainSetRatio.isNone && trainSetNum.isNone then none
  else d.tasks.entries.foldlM (fun sets p => do
    let split ← splitSize trainSetRatio trainSetNum p.2.features.length
    let indices := splitIndices shuffle p.1 split p.2.features.length
    let trainSet ← sets.1.loadIndices p.1 p.2 indices.1
    let testSet ← sets.2.loadIndices p.1 p.2 indices.2
    some (trainSet, testSet)) (empty, empty)

/-- Load a task into the training set or into the test set. -/
def loadInto (sets : Dataset ρ × Dataset ρ) (train : Bool) (task : LearningTask)
    (data : TaskData ρ) : Option (Dataset ρ × Dataset ρ) :=
  if train then (sets.1.loadTaskData task data).map (·, sets.2)
  else (sets.2.loadTaskData task data).map (sets.1, ·)

/-- The loop body of `random_split_by_task`: the sets, and the number of records so far. -/
def splitTask (trainRecords : ℤ) (state : (Dataset ρ × Dataset ρ) × ℕ)
    (task : LearningTask) : Option ((Dataset ρ × Dataset ρ) × ℕ) := do
  let data ← d.tasks.get? task
  let ct := state.2 + data.features.length
  let sets ← loadInto state.1 ((ct : ℤ) ≤ trainRecords) task data
  some (sets, ct)

def randomSplitByTask (trainSetRatio : ℚ) (shuffle : Enumeration LearningTask) :
    Option (Dataset ρ × Dataset ρ) :=
  let tasks := shuffle.order 0 (d.tasks.entries.map Prod.fst)
  let trainRecords := truncToInt ((d.length : ℚ) * trainSetRatio)
  (tasks.foldlM (d.splitTask trainRecords) ((empty, empty), 0)).map Prod.fst

/-- `target_to_task` of `random_split_by_target`. -/
def targetToTask : EntryMap String (List LearningTask) :=
  (d.tasks.entries.map Prod.fst).foldl (fun m task =>
    m.update task.target fun tasks => tasks.getD [] ++ [task]) .empty

/-- The inner loop body of `random_split_by_target`: the latency is not passed on. -/
def splitTargetTask (train : Bool) (inner : (Dataset ρ × Dataset ρ) × ℕ)
    (task : LearningTask) : Option ((Dataset ρ × Dataset ρ) × ℕ) := do
  let data ← d.tasks.get? task
  let sets ← loadInto inner.1 train task { data with minLatency := none }
  some (sets, inner.2 + data.features.length)

def randomSplitByTarget (trainSetRatio : ℚ) : Option (Dataset ρ × Dataset ρ) :=
  let trainRecords := truncToInt ((d.length : ℚ) * trainSetRatio)
  (d.targetToTask.entries.reverse.foldlM
    (fun (state : (Dataset ρ × Dataset ρ) × ℕ) (target : String × List LearningTask) => do
      let train := decide ((state.2 : ℤ) ≤ trainRecords)
      let res ← target.2.foldlM (d.splitTargetTask train) (state.1, 0)
      some (res.1, state.2 + res.2)) ((empty, empty), 0)).map Prod.fst

def extractSubset (tasks : List LearningTask) : Option (Dataset ρ) :=
  tasks.foldlM (fun ret task =>
    match d.tasks.get? task with
    | none => some ret
    | some data => ret.loadTaskData task data) empty

end Dataset

/-! ## Programs that build datasets -/

/-- A call.  Datasets are numbered in the order in which they are made. -/
inductive DatasetCall (ρ : Type) where
  | create
  | loadTaskData (i : ℕ) (task : LearningTask) (data : TaskData ρ)
  | updateFromDataset (i j : ℕ)
  | randomSplitWithinTask (i : ℕ) (trainSetRatio : Option ℚ) (trainSetNum : Option ℤ)
      (shuffle : Option Dataset.Permutations)
  | randomSplitByTask (i : ℕ) (trainSetRatio : ℚ) (shuffle : Enumeration LearningTask)
  | randomSplitByTarget (i : ℕ) (trainSetRatio : ℚ)
  | extractSubset (i : ℕ) (tasks : List LearningTask)

def DatasetCall.run {ρ : Type} (pool : List (Dataset ρ)) : DatasetCall ρ → Option (List (Dataset ρ))
  | .create => some (pool ++ [.empty])
  | .loadTaskData i task data => do
    let d ← pool[i]?
    let d' ← d.loadTaskData task data
    some (pool.set i d')
  | .updateFromDataset i j => do
    let d ← pool[i]?
    let other ← pool[j]?
    some (pool.set i (d.updateFromDataset other))
  | .randomSplitWithinTask i trainSetRatio trainSetNum shuffle => do
    let d ← pool[i]?
    let sets ← d.randomSplitWithinTask trainSetRatio trainSetNum shuffle
    some (pool ++ [sets.1, sets.2])
  | .randomSplitByTask i trainSetRatio shuffle => do
    let d ← pool[i]?
    let sets ← d.randomSplitByTask trainSetRatio shuffle
    some (pool ++ [sets.1, sets.2])
  | .randomSplitByTarget i trainSetRatio => do
    let d ← pool[i]?
    let sets ← d.randomSplitByTarget trainSetRatio
    some (pool ++ [sets.1, sets.2])
  | .extractSubset i tasks => do
    let d ← pool[i]?
    let d' ← d.extractSubset tasks
    some (pool ++ [d'])

end Pruner.AutoScheduler
