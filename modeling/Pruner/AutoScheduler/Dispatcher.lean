import Pruner.AutoScheduler.Dataset

/-!
# The best schedules of tuning logs

`ApplyHistoryBest` keeps the best schedule of every workload that it has loaded records of,
once for each key of the target of the record and once for the model of the target.  A
workload is looked up by its decoded key: the name, and the arguments as a flat list.  A cost is
what `np.mean`, a parameter, makes of the costs of a record, or NaN; an exception is `none`.

## Main definitions

* `JsonValue`, `decodeWorkloadKey` — workload keys.
* `BestRecords` — the three nested dictionaries of the best schedules.
* `HistoryBest.load` — load records.
* `HistoryBest.queryInside` — look up a schedule.
-/

namespace Pruner.AutoScheduler

open Lib (EntryMap)

/-! ## Workload keys -/

/-- What `json.loads` returns. -/
inductive JsonValue where
  | null
  | bool (b : Bool)
  | int (v : ℤ)
  | float (v : ℚ)
  | str (s : String)
  | list (items : List JsonValue)
  | dict (members : List (String × JsonValue))

mutual

def flattenList : List JsonValue → List JsonValue
  | [] => []
  | elt :: rest => flattenElt elt ++ flattenList rest

/-- One element of `flatten_list`. -/
def flattenElt : JsonValue → List JsonValue
  | .list items => flattenList items
  | v => [v]

end

/-- Values that are keys of a dictionary.  Numbers are equal when their values are, whatever
their types. -/
inductive PyKey where
  | none
  | num (v : ℚ)
  | str (s : String)
  deriving DecidableEq, Repr

/-- The key of a value.  Lists and dictionaries cannot be hashed. -/
def JsonValue.pyKey : JsonValue → Option PyKey
  | .null => some .none
  | .bool b => some (.num (if b then 1 else 0))
  | .int v => some (.num v)
  | .float v => some (.num v)
  | .str s => some (.str s)
  | .list _ => none
  | .dict _ => none

variable (jsonLoads : String → Option JsonValue)

/-- `decode_workload_key`, where `jsonLoads` is `none` for a `JSONDecodeError`. -/
def decodeWorkloadKey (workloadKey : String) : JsonValue × Option (List JsonValue) :=
  match jsonLoads workloadKey with
  | some (.list (head :: rest)) => (head, some (flattenList rest))
  | _ => (.str workloadKey, none)

/-- A decoded workload key, with the keys it has in dictionaries. -/
structure DecodedKey where
  name : PyKey
  args : Option (List PyKey)
  argValues : Option (List JsonValue)

/-- The keys of a decoded workload key, unless it cannot be hashed. -/
def decodeHashable (workloadKey : String) : Option DecodedKey := do
  let (head, args) := decodeWorkloadKey jsonLoads workloadKey
  let name ← head.pyKey
  match args with
  | none => some ⟨name, none, none⟩
  | some args =>
    let keys ← args.mapM (·.pyKey)
    some ⟨name, some keys, some args⟩

/-! ## The dictionaries -/

/-- A schedule with its cost; `none` is NaN.  The arguments are those of the first record. -/
structure BestEntry (σ : Type) where
  argValues : Option (List JsonValue)
  state : σ
  cost : Option ℚ

/-- The best schedules by arguments. -/
abbrev WorkloadEntry (σ : Type) := EntryMap (Option (List PyKey)) (BestEntry σ)

/-- The best schedules by target key, name and arguments of the workload. -/
abbrev BestRecords (σ : Type) := EntryMap String (EntryMap PyKey (WorkloadEntry σ))

namespace BestRecords

variable {σ : Type}

/-- The entry of `get_workload_entry`. -/
def entry (best : BestRecords σ) (targetKey : String) (key : DecodedKey) : WorkloadEntry σ :=
  ((best.get? targetKey).bind (·.get? key.name)).getD .empty

/-- Change the entry of `get_workload_entry`, which is created if it is missing. -/
def modifyEntry (best : BestRecords σ) (targetKey : String) (key : DecodedKey)
    (f : WorkloadEntry σ → WorkloadEntry σ) : BestRecords σ :=
  best.update targetKey fun byName => (byName.getD .empty).update key.name fun e =>
    f (e.getD .empty)

/-- `other_cost > cost`, which is false for NaN. -/
def costGreater : Option ℚ → Option ℚ → Bool
  | some other, some cost => other > cost
  | _, _ => false

/-- Keep the better one of the schedule in the entry and another one.  A new schedule is only
stored if it may be. -/
def keepBetter (key : DecodedKey) (state : σ) (cost : Option ℚ) (storeNew : Bool)
    (entry : WorkloadEntry σ) : WorkloadEntry σ :=
  match entry.get? key.args with
  | none =>
    if storeNew then entry.update key.args fun _ => ⟨key.argValues, state, cost⟩ else entry
  | some other =>
    if costGreater other.cost cost then
      entry.update key.args fun _ => { other with state := state, cost := cost }
    else entry

end BestRecords

/-! ## Loading records -/

/-- The target of a task. -/
structure TargetInfo where
  text : String
  keys : List String
  model : String

/-- A record: an input and its result.  Costs that are not a `FloatImm` are `none`. -/
structure MeasuredRecord (σ : Type) where
  workloadKey : String
  target : TargetInfo
  state : σ
  errorNo : ℤ
  costs : List (Option ℚ)

namespace MeasuredRecord

variable {σ : Type}

/-- `input_to_learning_task`. -/
def learningTask (r : MeasuredRecord σ) : LearningTask := ⟨r.workloadKey, r.target.text⟩

/-- The costs that are a `FloatImm`. -/
def floatCosts (r : MeasuredRecord σ) : List ℚ := r.costs.filterMap id

/-- `np.mean(costs)`, which is NaN without costs. -/
def cost (mean : List ℚ → ℚ) (r : MeasuredRecord σ) : Option ℚ :=
  if r.floatCosts = [] then none else some (mean r.floatCosts)

end MeasuredRecord

/-- `ApplyHistoryBest`. -/
structure HistoryBest (σ : Type) where
  includeCompatible : Bool
  bestByTargetkey : BestRecords σ
  bestByModel : BestRecords σ
  bestUserDefined : BestRecords σ

/-- The counters of a call of `load`. -/
structure LoadCounters where
  counter : ℤ
  perTask : EntryMap LearningTask ℤ

/-- The loop of `calc_workload_dis_factor` over scalars, which are equal when their keys are;
`none` is infinite.  A `TypeError` is an exception. -/
def disFactorLoop : List JsonValue → List JsonValue → ℚ → Option (Option ℚ)
  | targetArg :: targetArgs, arg :: args, disF =>
    let intValue := match targetArg with
      | .int v => some (v : ℚ)
      | .bool b => some (if b then 1 else 0)
      | _ => none
    match intValue with
    | some v =>
      match arg.pyKey with
      | some (.num a) =>
        if v = 0 ∨ a = 0 then
          if v ≠ a then some none else disFactorLoop targetArgs args disF
        else if v - a * ⌊v / a⌋ ≠ 0 then some none
        else disFactorLoop targetArgs args (disF * (v / a))
      | _ => if v = 0 then some none else none
    | none =>
      if targetArg.pyKey ≠ arg.pyKey then some none else disFactorLoop targetArgs args disF
  | _, _, disF => some (some disF)

/-- `calc_workload_dis_factor` of two workloads with the same name. -/
def calcWorkloadDisFactor (targetArgs args : Option (List JsonValue)) : Option (Option ℚ) :=
  let targetArgs := targetArgs.getD []
  let args := args.getD []
  if targetArgs.length ≠ args.length then some none else disFactorLoop targetArgs args 1

namespace HistoryBest

variable {σ : Type}

/-- `ApplyHistoryBest` without records. -/
def new (includeCompatible : Bool) : HistoryBest σ := ⟨includeCompatible, .empty, .empty, .empty⟩

variable (mean : List ℚ → ℚ) (ctx : HistoryBest σ)

/-- The loop body of `load` for a record without error. -/
def loadRecord (r : MeasuredRecord σ) : Option (HistoryBest σ) := do
  let key ← decodeHashable jsonLoads r.workloadKey
  let byTargetkey := r.target.keys.foldl (fun best k =>
    best.modifyEntry k key (BestRecords.keepBetter key r.state (r.cost mean) true)) ctx.bestByTargetkey
  let byModel := ctx.bestByModel.modifyEntry r.target.model key
    (BestRecords.keepBetter key r.state (r.cost mean) (r.target.model ≠ "unknown"))
  some { ctx with bestByTargetkey := byTargetkey, bestByModel := byModel }

def reached (limit : Option ℤ) (count : ℤ) : Bool := limit.any (count ≥ ·)

/-- The loop of `load`. -/
def loadLoop (nLines nLinesPerTask : Option ℤ) :
    List (MeasuredRecord σ) → LoadCounters → HistoryBest σ → Option (HistoryBest σ)
  | [], _, ctx => some ctx
  | r :: rest, counters, ctx =>
    if reached nLines counters.counter then some ctx
    else
      let count := (counters.perTask.get? r.learningTask).getD 0
      if reached nLinesPerTask count then
        loadLoop nLines nLinesPerTask rest
          { counters with perTask := counters.perTask.update r.learningTask fun _ => count } ctx
      else
        let counters := ⟨counters.counter + 1,
          counters.perTask.update r.learningTask fun _ => count + 1⟩
        if r.errorNo ≠ 0 then loadLoop nLines nLinesPerTask rest counters ctx
        else (loadRecord jsonLoads mean ctx r).bind (loadLoop nLines nLinesPerTask rest counters)

def load (records : List (MeasuredRecord σ))
    (nLines nLinesPerTask : Option ℤ) : Option (HistoryBest σ) :=
  loadLoop jsonLoads mean nLines nLinesPerTask records ⟨0, .empty⟩ ctx

def update (target : TargetInfo) (workloadKey : String) (state : σ) : Option (HistoryBest σ) := do
  let key ← decodeHashable jsonLoads workloadKey
  let store (entry : WorkloadEntry σ) : WorkloadEntry σ := entry.update key.args fun
    | none => ⟨key.argValues, state, some 1⟩
    | some other => { other with state := state, cost := some 1 }
  some { ctx with
    bestUserDefined := (target.model :: target.keys).foldl (fun best k =>
      best.modifyEntry k key store) ctx.bestUserDefined }

/-! ## Queries -/

/-- One candidate of the compatible records: the best one so far, with its cost. -/
def compatibleStep (key : DecodedKey) (best : Option (σ × Option ℚ)) (e : BestEntry σ) :
    Option (Option (σ × Option ℚ)) := do
  let disF ← calcWorkloadDisFactor key.argValues e.argValues
  match disF with
  | none => some best
  | some disF =>
    let cost := e.cost.map (· * disF)
    some (match best with
      | none => some (e.state, cost)
      | some (state, bestCost) =>
        if BestRecords.costGreater bestCost cost then some (e.state, cost)
        else some (state, bestCost))

def matchRecord (best : BestRecords σ) (targetKey : String)
    (workloadKey : String) : Option (Option σ) := do
  let key ← decodeHashable jsonLoads workloadKey
  let entry := best.entry targetKey key
  match entry.get? key.args with
  | some e => some (some e.state)
  | none =>
    if ctx.includeCompatible then do
      let best ← entry.entries.foldlM (fun best p => compatibleStep key best p.2) none
      some (best.map Prod.fst)
    else some none

/-- The first match in a list of dictionaries with target keys. -/
def firstMatch (ctx : HistoryBest σ) (workloadKey : String) :
    List (BestRecords σ × String) → Option (Option σ)
  | [] => some none
  | (best, targetKey) :: rest => do
    match ← matchRecord jsonLoads ctx best targetKey workloadKey with
    | some state => some (some state)
    | none => firstMatch ctx workloadKey rest

/-- `_query_inside`.  The empty entries that it creates are not seen by later calls. -/
def queryInside (target : Option TargetInfo) (workloadKey : String) : Option (Option σ) := do
  let target ← target
  firstMatch jsonLoads ctx workloadKey
    ((ctx.bestUserDefined, target.model) :: (ctx.bestByModel, target.model) ::
      target.keys.flatMap fun k => [(ctx.bestUserDefined, k), (ctx.bestByTargetkey, k)])

end HistoryBest

end Pruner.AutoScheduler
