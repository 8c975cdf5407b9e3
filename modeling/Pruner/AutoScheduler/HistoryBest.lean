import Mathlib.Data.List.MinMax
import Pruner.AutoScheduler.Dispatcher
import Pruner.Lib.PartialRun

/-!
# Queries return the best record

After any sequence of loads, a query returns the schedule of the first record of least mean
cost: among the successful records of the workload for the model of the target, or else for
the first key of the target that has such records.  This needs records with costs, and that no
other workload that has been loaded has the same decoded key.  Nested arguments are flattened, so
different workloads may have the same one.  A target without a model is looked up by its keys only.

## Main definitions

* `modelBest`, `keyBest`, `historyBest` — the schedule that is looked for.
* `TracksBest` — what the dictionaries hold of a workload, after some records.
* `tracksBest_loadOne` — one record keeps that.
* `queryInside_eq_historyBest` — queries return that schedule.
-/

namespace Pruner.AutoScheduler

open HistoryBest List BestRecords Option

open Lib (EntryMap)

variable {key key' : DecodedKey} {σ : Type}

variable (mean : List ℚ → ℚ)

def MeasuredRecord.meanCost (r : MeasuredRecord σ) : ℚ := mean r.floatCosts

def MeasuredRecord.IsOf (workloadKey : String) (r : MeasuredRecord σ) : Bool :=
  r.errorNo = 0 && r.workloadKey = workloadKey

/-- The schedule of the first record of least mean cost. -/
def bestState (records : List (MeasuredRecord σ)) : Option σ :=
  (records.argmin (·.meanCost mean)).map (·.state)

/-- The best schedule of a workload for the model of a target. -/
def modelBest (records : List (MeasuredRecord σ)) (target : TargetInfo) (workloadKey : String) :
    Option σ :=
  bestState mean (records.filter fun r => r.IsOf workloadKey && r.target.model = target.model)

/-- The best one for the first key of the target that has one. -/
def keyBest (records : List (MeasuredRecord σ)) (target : TargetInfo) (workloadKey : String) :
    Option σ :=
  target.keys.findSome? fun k =>
    bestState mean (records.filter fun r => r.IsOf workloadKey && k ∈ r.target.keys)

/-- The best one for the model, or else for a key. -/
def historyBest (records : List (MeasuredRecord σ)) (target : TargetInfo) (workloadKey : String) :
    Option σ :=
  (modelBest mean records target workloadKey).or (keyBest mean records target workloadKey)

/-! ## Looking up a workload -/

variable (best : BestRecords σ) (t t' : String) (ctx : HistoryBest σ)

namespace BestRecords

/-- The schedule of a workload and its cost. -/
def find (targetKey : String) (key : DecodedKey) : Option (σ × Option ℚ) :=
  ((best.entry targetKey key).get? key.args).map fun e => (e.state, e.cost)

/-- The better one of two schedules. -/
def better (storeNew : Bool) (old : Option (σ × Option ℚ)) (new : σ × Option ℚ) :
    Option (σ × Option ℚ) :=
  match old with
  | none => if storeNew then some new else none
  | some other => if costGreater other.2 new.2 then some new else some other

theorem entry_modifyEntry (key key' : DecodedKey) (f : WorkloadEntry σ → WorkloadEntry σ) :
    (best.modifyEntry t' key' f).entry t key =
      if t = t' ∧ key.name = key'.name then f (best.entry t' key') else best.entry t key := by
  rw [entry, modifyEntry, EntryMap.get?_update]
  by_cases ht : t = t'
  · subst ht
    rw [if_pos rfl, bind_some, EntryMap.get?_update]
    by_cases hname : key.name = key'.name
    · rw [if_pos hname, if_pos ⟨rfl, hname⟩, entry]
      cases best.get? t with
      | none | some m => rfl
    · rw [if_neg hname, if_neg fun h => hname h.2, entry]
      cases best.get? t with
      | none | some m => rfl
  · rw [if_neg ht, if_neg fun h => ht h.1, entry]

theorem get?_keepBetter (key : DecodedKey) (state : σ) (cost : Option ℚ) (storeNew : Bool)
    (e : WorkloadEntry σ) (args : Option (List PyKey)) :
    ((keepBetter key state cost storeNew e).get? args).map (fun e => (e.state, e.cost)) =
      if args = key.args then
        better storeNew ((e.get? args).map fun e => (e.state, e.cost)) (state, cost)
      else (e.get? args).map fun e => (e.state, e.cost) := by
  unfold keepBetter
  by_cases hargs : args = key.args
  · subst hargs
    cases hget : e.get? key.args with
    | none =>
      cases storeNew with
      | true => simp [EntryMap.get?_update, better]
      | false => simp [hget, better]
    | some other =>
      by_cases hcost : costGreater other.cost cost = true
      · simp [EntryMap.get?_update, better, hcost]
      · simp [hget, better, hcost]
  · split
    · split
      · rw [EntryMap.get?_update, if_neg hargs]
      · rfl
    · split
      · rw [EntryMap.get?_update, if_neg hargs]
      · rfl

/-- Two decoded keys are the same in dictionaries. -/
def SameKey (key key' : DecodedKey) : Prop := key.name = key'.name ∧ key.args = key'.args

theorem find_keepBetter (state : σ) (cost : Option ℚ) (storeNew : Bool) :
    (best.modifyEntry t' key' (keepBetter key' state cost storeNew)).find t key =
      if t = t' ∧ key.name = key'.name ∧ key.args = key'.args then
        better storeNew (best.find t key) (state, cost)
      else best.find t key := by
  rw [find, entry_modifyEntry, find]
  by_cases ht : t = t' ∧ key.name = key'.name
  · have hentry : best.entry t key = best.entry t' key' := by rw [entry, entry, ht.1, ht.2]
    rw [if_pos ht, get?_keepBetter, hentry]
    by_cases hargs : key.args = key'.args
    · rw [if_pos hargs, if_pos ⟨ht.1, ht.2, hargs⟩]
    · rw [if_neg hargs, if_neg fun h => hargs h.2.2]
  · rw [if_neg ht, if_neg fun h => ht ⟨h.1, h.2.1⟩]

theorem better_better (old : Option (σ × Option ℚ)) (new : σ × Option ℚ) :
    better true (better true old new) new = better true old new := by
  have hself : costGreater new.2 new.2 = false := by
    cases new.2 with
    | none => rfl
    | some c => simp [costGreater]
  cases old with
  | none => simp [better, hself]
  | some other =>
    by_cases hcost : costGreater other.2 new.2 = true
    · simp [better, hcost, hself]
    · simp [better, hcost]

/-- A record is stored under every key of its target. -/
theorem find_foldl_keepBetter (state : σ) (cost : Option ℚ) (keys : List String) :
    (keys.foldl (fun best k => best.modifyEntry k key' (keepBetter key' state cost true))
        best).find t key =
      if t ∈ keys ∧ key.name = key'.name ∧ key.args = key'.args then
        better true (best.find t key) (state, cost)
      else best.find t key := by
  induction keys generalizing best with
  | nil => simp
  | cons k keys ih =>
    rw [foldl_cons, ih, find_keepBetter]
    by_cases hs : key.name = key'.name ∧ key.args = key'.args
    · by_cases hk : t = k
      · by_cases hmem : t ∈ keys
        · simp [hs, hk ▸ hmem, hk, better_better]
        · simp [hs, hk ▸ hmem, hk]
      · simp [hs, hk]
    · simp [hs]

end BestRecords

/-! ## Loading -/

/-- The best record of a list, as the dictionaries hold it. -/
def bestOf (records : List (MeasuredRecord σ)) : Option (σ × Option ℚ) :=
  (records.argmin (·.meanCost mean)).map fun r => (r.state, some (r.meanCost mean))

theorem bestOf_concat (records : List (MeasuredRecord σ)) (r : MeasuredRecord σ) :
    bestOf mean (records ++ [r]) = better true (bestOf mean records) (r.state, some (r.meanCost mean)) := by
  rw [bestOf, argmin_concat, bestOf]
  cases records.argmin (·.meanCost mean) with
  | none => rfl
  | some best =>
    by_cases hlt : r.meanCost mean < best.meanCost mean
    · simp [better, costGreater, hlt]
    · simp [better, costGreater, hlt]

variable {mean} {records : List (MeasuredRecord σ)} {jsonLoads : String → Option JsonValue}
  {workloadKey : String}

/-- The dictionaries hold the best records of a workload among those that have been loaded. -/
structure TracksBest (mean : List ℚ → ℚ) (workloadKey : String) (key : DecodedKey) (records : List (MeasuredRecord σ))
    (ctx : HistoryBest σ) : Prop where
  includeCompatible_eq : ctx.includeCompatible = false
  userDefined_eq : ctx.bestUserDefined = .empty
  byTargetkey : ∀ t, ctx.bestByTargetkey.find t key =
    bestOf mean (records.filter fun r => r.IsOf workloadKey && t ∈ r.target.keys)
  byModel : ∀ t, ctx.bestByModel.find t key = if t = "unknown" then none else
    bestOf mean (records.filter fun r => r.IsOf workloadKey && r.target.model = t)

variable {r : MeasuredRecord σ}

theorem TracksBest.skip {ctx : HistoryBest σ} (h : TracksBest mean workloadKey key records ctx)
    (hr : r.IsOf workloadKey = false) :
    TracksBest mean workloadKey key (records ++ [r]) ctx := by
  refine ⟨h.includeCompatible_eq, h.userDefined_eq, fun t => ?_, fun t => ?_⟩
  · rw [h.byTargetkey]
    simp [hr]
  · rw [h.byModel t]
    simp [hr]

/-- Loading one record, if it is a successful one. -/
def HistoryBest.loadOne (mean : List ℚ → ℚ) (jsonLoads : String → Option JsonValue)
    (ctx : HistoryBest σ) (r : MeasuredRecord σ) : Option (HistoryBest σ) :=
  if r.errorNo ≠ 0 then some ctx else ctx.loadRecord jsonLoads mean r

/-- What is needed of a record: its key can be hashed, it is not mistaken for the workload, and
it has a cost if it is one of the workload. -/
structure Loadable (jsonLoads : String → Option JsonValue) (workloadKey : String)
    (key : DecodedKey) (r : MeasuredRecord σ) : Prop where
  hashable : (decodeHashable jsonLoads r.workloadKey).isSome
  injective : ∀ key', decodeHashable jsonLoads r.workloadKey = some key' →
    BestRecords.SameKey key key' → r.workloadKey = workloadKey
  cost_ne : r.workloadKey = workloadKey → r.floatCosts ≠ []

/-- **One record keeps track of the best.** -/
theorem tracksBest_loadOne (hkey : decodeHashable jsonLoads workloadKey = some key)
    {ctx : HistoryBest σ} (h : TracksBest mean workloadKey key records ctx)
    (hr : r.errorNo = 0 → Loadable jsonLoads workloadKey key r) :
    ∃ ctx', ctx.loadOne mean jsonLoads r = some ctx' ∧
      TracksBest mean workloadKey key (records ++ [r]) ctx' := by
  unfold loadOne
  by_cases herror : r.errorNo = 0
  · have hload := hr herror
    obtain ⟨key', hkey'⟩ := isSome_iff_exists.mp hload.hashable
    rw [if_neg (not_not.mpr herror), loadRecord, hkey']
    refine ⟨_, rfl, ?_⟩
    by_cases hsame : r.workloadKey = workloadKey
    · -- A record of the workload is compared with the best one so far.
      have hkeys : key' = key := some.inj (by rw [← hkey, ← hkey', hsame])
      subst hkeys
      have hcost : r.cost mean = some (r.meanCost mean) := if_neg (hload.cost_ne hsame)
      have hof : r.IsOf workloadKey = true := by simp [MeasuredRecord.IsOf, herror, hsame]
      refine ⟨h.includeCompatible_eq, h.userDefined_eq, fun t => ?_, fun t => ?_⟩
      · simp only [find_foldl_keepBetter, h.byTargetkey, hcost, filter_append]
        by_cases hmem : t ∈ r.target.keys
        · simp [hof, hmem, bestOf_concat]
        · simp [hmem]
      · simp only [find_keepBetter, h.byModel t, hcost, filter_append]
        by_cases hmodel : r.target.model = t
        · subst hmodel
          by_cases hunknown : r.target.model = "unknown"
          · simp [hunknown, better]
          · simp [hof, hunknown, bestOf_concat]
        · simp [hmodel, Ne.symm hmodel]
    · have hof : r.IsOf workloadKey = false := by simp [MeasuredRecord.IsOf, hsame]
      have hnot : ¬ BestRecords.SameKey key key' := fun h => hsame (hload.injective key' hkey' h)
      have hskip := h.skip hof
      refine ⟨hskip.includeCompatible_eq, hskip.userDefined_eq, fun t => ?_, fun t => ?_⟩
      · rw [← hskip.byTargetkey]
        exact (find_foldl_keepBetter ..).trans (if_neg fun h => hnot h.2)
      · rw [← hskip.byModel t]
        exact (find_keepBetter ..).trans (if_neg fun h => hnot h.2)
  · rw [if_pos herror]
    exact ⟨ctx, rfl, h.skip (by simp [MeasuredRecord.IsOf, herror])⟩

/-- Without limits every record is loaded. -/
theorem load_eq (records : List (MeasuredRecord σ)) :
    ctx.load jsonLoads mean records none none = records.foldlM (loadOne mean jsonLoads) ctx := by
  have hloop : ∀ counters, loadLoop jsonLoads mean none none records counters ctx =
      records.foldlM (loadOne mean jsonLoads) ctx := by
    induction records generalizing ctx with
    | nil => exact fun _ => rfl
    | cons r records ih =>
      intro counters
      rw [foldlM_cons, loadLoop, loadOne]
      by_cases herror : r.errorNo ≠ 0
      · simp [reached, herror, ih]
      · simp only [reached, any_none, Bool.false_eq_true, if_false, if_neg herror]
        congr 1
        funext ctx'
        exact ih ctx' _
  exact hloop _

/-- Load batches of records one after the other. -/
def HistoryBest.loadAll (mean : List ℚ → ℚ) (jsonLoads : String → Option JsonValue)
    (ctx : HistoryBest σ) (batches : List (List (MeasuredRecord σ))) : Option (HistoryBest σ) :=
  batches.foldlM (fun ctx records => ctx.load jsonLoads mean records none none) ctx

theorem loadAll_eq (batches : List (List (MeasuredRecord σ))) : ctx.loadAll mean jsonLoads batches =
      batches.flatten.foldlM (loadOne mean jsonLoads) ctx := by
  rw [loadAll]
  induction batches generalizing ctx with
  | nil => rfl
  | cons records batches ih =>
    rw [foldlM_cons, flatten_cons, foldlM_append, load_eq]
    congr 1
    funext ctx'
    exact ih ctx'

/-- **A whole run keeps track of the best.** -/
theorem tracksBest_loadAll (hkey : decodeHashable jsonLoads workloadKey = some key)
    {batches : List (List (MeasuredRecord σ))}
    (hr : ∀ r ∈ batches.flatten, r.errorNo = 0 → Loadable jsonLoads workloadKey key r) :
    ∃ ctx, (new false).loadAll mean jsonLoads batches = some ctx ∧
      TracksBest mean workloadKey key batches.flatten ctx := by
  rw [loadAll_eq]
  exact Lib.exists_foldlM (TracksBest mean workloadKey key)
    (fun seen r hmem ctx h => tracksBest_loadOne hkey h (hr r hmem)) (p := [])
    ⟨rfl, rfl, fun _ => rfl, fun _ => (ite_self none).symm⟩

/-! ## Queries -/

section

variable {ctx}

section

variable (hkey : decodeHashable jsonLoads workloadKey = some key)
  (hctx : ctx.includeCompatible = false)
include hkey hctx

theorem matchRecord_eq (best : BestRecords σ) (t : String) :
    ctx.matchRecord jsonLoads best t workloadKey = some ((best.find t key).map Prod.fst) := by
  simp only [matchRecord, hkey, bind_eq_bind, bind_some, hctx, Bool.false_eq_true, if_false, find]
  cases EntryMap.get? (best.entry t key) key.args with
  | none | some e => rfl

theorem firstMatch_eq (l : List (BestRecords σ × String)) :
    ctx.firstMatch jsonLoads workloadKey l =
      some (l.findSome? fun p => (p.1.find p.2 key).map Prod.fst) := by
  induction l with
  | nil => rfl
  | cons p l ih =>
    rw [firstMatch, matchRecord_eq hkey hctx, bind_eq_bind, findSome?_cons]
    cases (p.1.find p.2 key).map Prod.fst with
    | none => exact ih
    | some state => rfl

end

theorem bestOf_map_fst (records : List (MeasuredRecord σ)) :
    (bestOf mean records).map Prod.fst = bestState mean records := by
  rw [bestOf, Option.map_map]
  rfl

theorem find_empty : find (σ := σ) .empty t key = none := rfl

variable {target : TargetInfo}

/-- **Queries of tracked workloads.** -/
theorem queryInside_of_tracksBest (hkey : decodeHashable jsonLoads workloadKey = some key)
    (h : TracksBest mean workloadKey key records ctx) :
    ctx.queryInside jsonLoads (some target) workloadKey =
      some (if target.model = "unknown" then keyBest mean records target workloadKey
        else historyBest mean records target workloadKey) := by
  have hkeys : ∀ keys : List String, (keys.flatMap fun k =>
      [(ctx.bestUserDefined, k), (ctx.bestByTargetkey, k)]).findSome?
        (fun p => (p.1.find p.2 key).map Prod.fst) = keys.findSome? fun k =>
      bestState mean (records.filter fun r => r.IsOf workloadKey && k ∈ r.target.keys) := by
    intro keys
    induction keys with
    | nil => rfl
    | cons k keys ih =>
      rw [flatMap_cons, cons_append, cons_append, nil_append,
        findSome?_cons, findSome?_cons, findSome?_cons, ih, h.userDefined_eq,
        find_empty, h.byTargetkey, bestOf_map_fst, map_none]
  rw [queryInside, bind_eq_bind, bind_some,
    firstMatch_eq hkey h.includeCompatible_eq, findSome?_cons, findSome?_cons, hkeys]
  rw [h.userDefined_eq, h.byModel, find_empty]
  split_ifs
  · rfl
  · rw [bestOf_map_fst, historyBest, modelBest]
    cases bestState mean (records.filter _) <;> rfl

/-- What a query returns is the schedule of a record of the workload. -/
theorem mem_of_query {state : σ} (h : (if target.model = "unknown" then
      keyBest mean records target workloadKey
      else historyBest mean records target workloadKey) = some state) :
    ∃ r ∈ records, r.errorNo = 0 ∧ r.workloadKey = workloadKey ∧ r.state = state := by
  have hof : ∀ (p : MeasuredRecord σ → Bool),
      bestState mean (records.filter fun r => r.IsOf workloadKey && p r) = some state →
      ∃ r ∈ records, r.errorNo = 0 ∧ r.workloadKey = workloadKey ∧ r.state = state := by
    intro p hp
    obtain ⟨r, hbest, hstate⟩ := map_eq_some_iff.mp hp
    have hr := argmin_mem hbest
    simp only [mem_filter, MeasuredRecord.IsOf, Bool.and_eq_true, decide_eq_true_eq] at hr
    exact ⟨r, hr.1, hr.2.1.1, hr.2.1.2, hstate⟩
  have hkeys : keyBest mean records target workloadKey = some state →
      ∃ r ∈ records, r.errorNo = 0 ∧ r.workloadKey = workloadKey ∧ r.state = state := by
    intro h
    obtain ⟨k, -, hk⟩ := exists_of_findSome?_eq_some h
    exact hof _ hk
  split_ifs at h
  · exact hkeys h
  · rcases or_eq_some_iff.mp h with h | ⟨-, h⟩
    · exact hof _ h
    · exact hkeys h

end

/-- Two workload keys are decoded to the same dictionary keys. -/
def SameDecoded (jsonLoads : String → Option JsonValue) (workloadKey workloadKey' : String) :
    Prop :=
  ∃ key key', decodeHashable jsonLoads workloadKey = some key ∧
    decodeHashable jsonLoads workloadKey' = some key' ∧ BestRecords.SameKey key key'

/-- What `json.loads` returns for `["conv", [1, 2], 3]` and for `["conv", 1, [2, 3]]`. -/
def convKeys : String → Option JsonValue
  | "[\"conv\", [1, 2], 3]" => some (.list [.str "conv", .list [.int 1, .int 2], .int 3])
  | "[\"conv\", 1, [2, 3]]" => some (.list [.str "conv", .int 1, .list [.int 2, .int 3]])
  | _ => none

def arithMean (costs : List ℚ) : ℚ := costs.sum / costs.length

def v100 : TargetInfo := ⟨"cuda -model=v100", ["cuda", "gpu"], "v100"⟩

/-- A record of `["conv", [1, 2], 3]` for that target. -/
def convRecord (state : ℕ) (cost : ℚ) : MeasuredRecord ℕ :=
  ⟨"[\"conv\", [1, 2], 3]", v100, state, 0, [some cost]⟩

end Pruner.AutoScheduler
