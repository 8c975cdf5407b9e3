import Pruner.AutoScheduler.Dataset
import Pruner.Lib.PartialRun

/-!
# Datasets keep latencies

The latency of a record can be read off a dataset: it is the least latency of the task
divided by the throughput of the record.  Loading batches, merging datasets, splitting by
tasks and taking subsets keep that, in any order.  A split within tasks keeps it for a part
that has a record with the least latency of the task, and a split by target drops the
latency.

## Main definitions

* `TaskData.Normalised` — throughputs relative to the least latency.
* `Dataset.KeepsLatencies` — latencies can be read off.
* `DatasetCall.Admissible` — calls that keep latencies.
* `Built` — the datasets that such calls build.
* `Built.keepsLatencies` — their latencies can be read off.
-/

namespace Pruner.AutoScheduler

open Option List Dataset

open Lib (EntryMap Enumeration some_bind_eq)

variable {m : ℚ} {i : ℕ} {task : LearningTask} {α ρ : Type} {l : List α} {indices : List ℕ}
  {latency : ρ → ℚ}

/-- The throughputs of a batch are relative to the least latency `m` of its records. -/
structure TaskData.NormalisedBy (latency : ρ → ℚ) (m : ℚ) (data : TaskData ρ) : Prop where
  minLatency_eq : data.minLatency = some m
  throughputs_eq : data.throughputs = data.features.map (m / latency ·)
  latency_pos : ∀ r ∈ data.features, 0 < latency r
  le_latency : ∀ r ∈ data.features, m ≤ latency r
  attained : ∃ r ∈ data.features, latency r = m

/-- A correctly normalised batch. -/
def TaskData.Normalised (latency : ρ → ℚ) (data : TaskData ρ) : Prop :=
  ∃ m, data.NormalisedBy latency m

variable {data : TaskData ρ}

theorem TaskData.NormalisedBy.pos (h : data.NormalisedBy latency m) : 0 < m := by
  obtain ⟨r, hr, rfl⟩ := h.attained
  exact h.latency_pos r hr

theorem TaskData.NormalisedBy.div_throughput (h : data.NormalisedBy latency m) {r : ρ} {t : ℚ}
    (hr : data.features[i]? = some r) (ht : data.throughputs[i]? = some t) : m / t = latency r := by
  rw [h.throughputs_eq, getElem?_map, hr] at ht
  rw [← some.inj ht, div_div_cancel₀ h.pos.ne']

variable {d : Dataset ρ}

namespace Dataset

def Normalised (latency : ρ → ℚ) (d : Dataset ρ) : Prop :=
  ∀ p ∈ d.tasks.entries, p.2.Normalised latency

/-- The measured latency of every record is the latency of its task divided by its
throughput. -/
def KeepsLatencies (latency : ρ → ℚ) (d : Dataset ρ) : Prop :=
  ∀ p ∈ d.tasks.entries, p.2.throughputs.length = p.2.features.length ∧
    ∃ m, p.2.minLatency = some m ∧ ∀ (i : ℕ) r t, p.2.features[i]? = some r →
      p.2.throughputs[i]? = some t → m / t = latency r

theorem Normalised.keeps (h : d.Normalised latency) : d.KeepsLatencies latency := by
  intro p hp
  obtain ⟨m, hm⟩ := h p hp
  refine ⟨?_, m, hm.minLatency_eq, fun i r t hr ht => hm.div_throughput hr ht⟩
  rw [hm.throughputs_eq, length_map]

theorem normalised_empty : (empty : Dataset ρ).Normalised latency := by
  intro p hp
  cases hp

/-! ## Loading -/

theorem rescale_throughputs {c : ℚ} (h : data.NormalisedBy latency m) :
    data.throughputs.map (· * (c / m)) = data.features.map (c / latency ·) := by
  rw [h.throughputs_eq, List.map_map]
  refine map_congr_left fun r hr => ?_
  have hm := h.pos.ne'
  simp only [Function.comp_apply]
  field_simp

/-- **Two batches together are normalised by the smaller latency.** -/
theorem extend_normalised {old new : TaskData ρ} (hold : old.Normalised latency)
    (hnew : new.Normalised latency) :
    ∃ data, extend old new = some data ∧ data.Normalised latency := by
  obtain ⟨m₁, h₁⟩ := hold
  obtain ⟨m₂, h₂⟩ := hnew
  refine ⟨_, by rw [extend, h₂.minLatency_eq, h₁.minLatency_eq]; rfl, min m₁ m₂, rfl, ?_, ?_, ?_,
    ?_⟩
  · rw [rescale_throughputs h₁, rescale_throughputs h₂, map_append]
  · exact forall_mem_append.mpr ⟨h₁.latency_pos, h₂.latency_pos⟩
  · exact forall_mem_append.mpr ⟨fun r hr => (min_le_left _ _).trans (h₁.le_latency r hr),
      fun r hr => (min_le_right _ _).trans (h₂.le_latency r hr)⟩
  · rcases min_choice m₁ m₂ with h | h
    · obtain ⟨r, hr, hlat⟩ := h₁.attained
      exact ⟨r, mem_append_left _ hr, hlat.trans h.symm⟩
    · obtain ⟨r, hr, hlat⟩ := h₂.attained
      exact ⟨r, mem_append_right _ hr, hlat.trans h.symm⟩

section

variable (h : d.Normalised latency)
include h

theorem normalised_update (hdata : data.Normalised latency) :
    Normalised latency ⟨d.tasks.update task fun _ => data⟩ :=
  EntryMap.forall_mem_update (P := fun _ data => TaskData.Normalised latency data) h
    fun _ => hdata

theorem Normalised.of_get? (hget : d.tasks.get? task = some data) : data.Normalised latency :=
  h _ (EntryMap.mem_of_get? hget)

/-- **Loading a batch keeps a dataset normalised.** -/
theorem loadTaskData_normalised (task : LearningTask) (hdata : data.Normalised latency) :
    ∃ d', d.loadTaskData task data = some d' ∧ d'.Normalised latency := by
  unfold loadTaskData
  split
  · exact ⟨_, rfl, normalised_update h hdata⟩
  · next old hold =>
      obtain ⟨data', hdata', hnorm⟩ := extend_normalised (h.of_get? hold) hdata
      exact ⟨_, by rw [hdata']; rfl, normalised_update h hnorm⟩

theorem updateFromDataset_normalised {other : Dataset ρ}
    (hother : other.Normalised latency) : (d.updateFromDataset other).Normalised latency := by
  refine foldlRecOn other.tasks.entries _ (motive := Normalised latency) h
    fun d hd p hp => ?_
  split
  · exact hd
  · exact normalised_update hd (hother p hp)

end

/-! ## Splits -/

variable {rows : List α} {shuffle : Option Permutations}

theorem takeIndices_map {β : Type} (f : α → β) (h : takeIndices l indices = some rows) :
    takeIndices (l.map f) indices = some (rows.map f) := by
  rw [takeIndices, Lib.mapM_eq_some_iff] at h ⊢
  rw [forall₂_map_right_iff]
  refine h.imp fun i r hr => ?_
  rw [getElem?_map, hr, map_some]

theorem exists_takeIndices
    (h : ∀ i ∈ indices, i < l.length) : ∃ rows, takeIndices l indices = some rows :=
  Lib.exists_mapM fun i hi => ⟨_, getElem?_eq_getElem (h i hi)⟩

theorem mem_of_takeIndices (h : takeIndices l indices = some rows) {r : α}
    (hr : r ∈ rows) : r ∈ l := by
  obtain ⟨i, -, hi⟩ := Lib.exists_mem_left_of_mapM h hr
  exact mem_of_getElem? hi

/-- One of the records has the least latency of the task. -/
def HasBest (latency : ρ → ℚ) (data : TaskData ρ) (indices : List ℕ) : Prop :=
  ∃ i ∈ indices, ∃ r, data.features[i]? = some r ∧ ∀ r' ∈ data.features, latency r ≤ latency r'

/-- **A part with a best record is normalised.** -/
theorem loadIndices_normalised {set : Dataset ρ} (hset : set.Normalised latency)
    (task : LearningTask) (hdata : data.Normalised latency)
    (hlt : ∀ i ∈ indices, i < data.features.length)
    (hbest : indices ≠ [] → HasBest latency data indices) :
    ∃ set', set.loadIndices task data indices = some set' ∧ set'.Normalised latency := by
  unfold loadIndices
  split
  · exact ⟨set, rfl, hset⟩
  · next hlen =>
      obtain ⟨m, hm⟩ := hdata
      obtain ⟨rows, hrows⟩ := exists_takeIndices hlt
      have hthroughputs := takeIndices_map (m / latency ·) hrows
      rw [← hm.throughputs_eq] at hthroughputs
      obtain ⟨i, hi, r, hr, hle⟩ := hbest fun h => hlen (by rw [h]; rfl)
      -- A record with the least latency is in the part, so the greatest throughput is `1`.
      have hrm : latency r = m := by
        obtain ⟨r₀, hr₀, rfl⟩ := hm.attained
        exact le_antisymm (hle r₀ hr₀) (hm.le_latency r (mem_of_getElem? hr))
      have hmem : r ∈ rows := by
        obtain ⟨r', hr', hir'⟩ := Lib.exists_mem_of_mapM hrows hi
        cases hr.symm.trans hir'
        exact hr'
      have hsub : ∀ r' ∈ rows, r' ∈ data.features := fun r' => mem_of_takeIndices hrows
      have hmax : (rows.map (m / latency ·)).max? = some 1 := by
        rw [max?_eq_some_iff]
        refine ⟨mem_map.mpr ⟨r, hmem, by rw [hrm, div_self hm.pos.ne']⟩, ?_⟩
        intro t ht
        obtain ⟨r', hr', rfl⟩ := mem_map.mp ht
        exact (div_le_one (hm.latency_pos r' (hsub r' hr'))).mpr (hm.le_latency r' (hsub r' hr'))
      have hpart : TaskData.Normalised latency ⟨rows, rows.map (m / latency ·), some (m / 1)⟩ :=
        ⟨m, by rw [div_one], rfl, fun r' hr' => hm.latency_pos r' (hsub r' hr'),
          fun r' hr' => hm.le_latency r' (hsub r' hr'), r, hmem, hrm⟩
      obtain ⟨set', hset', hnorm⟩ := loadTaskData_normalised hset task hpart
      refine ⟨set', ?_, hnorm⟩
      simp only [hthroughputs, hm.minLatency_eq, hmax, hrows, some_bind_eq]
      exact hset'

theorem mem_splitIndices_lt {split : ℤ} {n : ℕ} (h : i ∈ (splitIndices shuffle task split n).1 ∨
      i ∈ (splitIndices shuffle task split n).2) : i < n := by
  have horder : ∀ order : List ℕ, order.Perm (range n) →
      (i ∈ order.take (slicePosition split n) ∨ i ∈ order.drop (slicePosition split n)) →
        i < n := by
    intro order hperm h
    refine mem_range.mp (hperm.mem_iff.mp ?_)
    exact h.elim mem_of_mem_take mem_of_mem_drop
  cases shuffle with
  | none => exact horder _ (reverse_perm _) h
  | some perms => exact horder _ (perms.perm task n) h

/-- Every part of a split within tasks that is not empty has a best record. -/
def PartsHaveBest (latency : ρ → ℚ) (d : Dataset ρ) (trainSetRatio : Option ℚ)
    (trainSetNum : Option ℤ) (shuffle : Option Permutations) : Prop :=
  ∀ p ∈ d.tasks.entries, ∀ split, splitSize trainSetRatio trainSetNum p.2.features.length =
    some split →
    let indices := splitIndices shuffle p.1 split p.2.features.length
    (indices.1 ≠ [] → HasBest latency p.2 indices.1) ∧
      (indices.2 ≠ [] → HasBest latency p.2 indices.2)

def BothNormalised (latency : ρ → ℚ) (sets : Dataset ρ × Dataset ρ) : Prop :=
  sets.1.Normalised latency ∧ sets.2.Normalised latency

theorem bothNormalised_empty : BothNormalised latency ((empty : Dataset ρ), (empty : Dataset ρ)) :=
  ⟨normalised_empty, normalised_empty⟩

theorem randomSplitWithinTask_normalised (hd : d.Normalised latency) {trainSetRatio : Option ℚ}
    {trainSetNum : Option ℤ} (hsome : trainSetRatio.isSome ∨ trainSetNum.isSome)
    (hbest : d.PartsHaveBest latency trainSetRatio trainSetNum shuffle) :
    ∃ sets, d.randomSplitWithinTask trainSetRatio trainSetNum shuffle = some sets ∧
      BothNormalised latency sets := by
  unfold randomSplitWithinTask
  rw [if_neg (by cases trainSetRatio <;> cases trainSetNum <;> simp_all)]
  refine Lib.exists_foldlM_invariant (BothNormalised latency) (fun p hp sets hsets => ?_)
    bothNormalised_empty
  obtain ⟨split, hsplit⟩ : ∃ split, splitSize trainSetRatio trainSetNum p.2.features.length =
      some split := by
    cases trainSetNum with
    | some num => exact ⟨num, rfl⟩
    | none =>
      obtain ⟨ratio, hratio⟩ := isSome_iff_exists.mp (hsome.resolve_right (by simp))
      exact ⟨_, by rw [hratio]; rfl⟩
  obtain ⟨hbest₁, hbest₂⟩ := hbest p hp split hsplit
  obtain ⟨train, htrain, hnorm₁⟩ := loadIndices_normalised hsets.1 p.1 (hd p hp)
    (fun i hi => mem_splitIndices_lt (.inl hi)) hbest₁
  obtain ⟨test, htest, hnorm₂⟩ := loadIndices_normalised hsets.2 p.1 (hd p hp)
    (fun i hi => mem_splitIndices_lt (.inr hi)) hbest₂
  exact ⟨(train, test), by simp [hsplit, htrain, htest], hnorm₁, hnorm₂⟩

theorem loadInto_normalised {sets : Dataset ρ × Dataset ρ} (h : BothNormalised latency sets)
    (train : Bool) (task : LearningTask) (hdata : data.Normalised latency) :
    ∃ sets', loadInto sets train task data = some sets' ∧ BothNormalised latency sets' := by
  cases train with
  | true =>
    obtain ⟨d, hd, hnorm⟩ := loadTaskData_normalised h.1 task hdata
    exact ⟨(d, sets.2), by simp [loadInto, hd], hnorm, h.2⟩
  | false =>
    obtain ⟨d, hd, hnorm⟩ := loadTaskData_normalised h.2 task hdata
    exact ⟨(sets.1, d), by simp [loadInto, hd], h.1, hnorm⟩

theorem splitTask_normalised (hd : d.Normalised latency)
    (htask : task ∈ d.tasks.entries.map Prod.fst) (trainRecords : ℤ)
    {state : (Dataset ρ × Dataset ρ) × ℕ} (hstate : BothNormalised latency state.1) :
    ∃ state', d.splitTask trainRecords state task = some state' ∧
      BothNormalised latency state'.1 := by
  obtain ⟨data, hdata⟩ := EntryMap.exists_get? htask
  rw [splitTask, hdata]
  obtain ⟨sets, hsets, hnorm⟩ := loadInto_normalised hstate
    (((state.2 + data.features.length : ℕ) : ℤ) ≤ trainRecords) task (hd.of_get? hdata)
  refine ⟨(sets, state.2 + data.features.length), ?_, hnorm⟩
  simp only [hsets, some_bind_eq]

theorem randomSplitByTask_normalised (hd : d.Normalised latency) (trainSetRatio : ℚ)
    (shuffle : Enumeration LearningTask) :
    ∃ sets, d.randomSplitByTask trainSetRatio shuffle = some sets ∧
      BothNormalised latency sets := by
  obtain ⟨res, hres, hnorm⟩ := Lib.exists_foldlM_invariant
    (l := shuffle.order 0 (d.tasks.entries.map Prod.fst))
    (fun state => BothNormalised latency state.1)
    (fun task htask state hstate => splitTask_normalised hd
      ((shuffle.perm 0 _).mem_iff.mp htask) (Lib.truncToInt ((d.length : ℚ) * trainSetRatio))
      hstate) (s := ((empty, empty), 0)) bothNormalised_empty
  exact ⟨res.1, by rw [randomSplitByTask, hres]; rfl, hnorm⟩

theorem extractSubset_normalised (hd : d.Normalised latency) (tasks : List LearningTask) :
    ∃ d', d.extractSubset tasks = some d' ∧ d'.Normalised latency := by
  refine Lib.exists_foldlM_invariant (Normalised latency) (fun task _ ret hret => ?_)
    normalised_empty
  cases hget : d.tasks.get? task with
  | none => exact ⟨ret, rfl, hret⟩
  | some data => exact loadTaskData_normalised hret task (hd.of_get? hget)

end Dataset

/-! ## Programs that build datasets -/

/-- The calls that keep latencies.  Batches are correctly normalised, a part of a split within
tasks has a best record of its task, and only a dataset without tasks is split by target. -/
def DatasetCall.Admissible (latency : ρ → ℚ) (pool : List (Dataset ρ)) : DatasetCall ρ → Prop
  | .create => True
  | .loadTaskData i _ data => i < pool.length ∧ data.Normalised latency
  | .updateFromDataset i j => i < pool.length ∧ j < pool.length
  | .randomSplitWithinTask i trainSetRatio trainSetNum shuffle =>
    (trainSetRatio.isSome ∨ trainSetNum.isSome) ∧ ∃ d, pool[i]? = some d ∧
      d.PartsHaveBest latency trainSetRatio trainSetNum shuffle
  | .randomSplitByTask i _ _ => i < pool.length
  | .randomSplitByTarget i _ => ∃ d, pool[i]? = some d ∧ d.tasks.entries = []
  | .extractSubset i _ => i < pool.length

/-- The datasets that sequences of such calls build. -/
inductive Built (latency : ρ → ℚ) : List (Dataset ρ) → Prop where
  | nil : Built latency []
  | call {pool pool' : List (Dataset ρ)} (h : Built latency pool) (call : DatasetCall ρ)
      (hcall : call.Admissible latency pool) (hrun : call.run pool = some pool') :
      Built latency pool'

def PoolNormalised (latency : ρ → ℚ) (pool : List (Dataset ρ)) : Prop :=
  ∀ d ∈ pool, d.Normalised latency

variable {pool : List (Dataset ρ)}

section

variable (h : PoolNormalised latency pool)
include h

theorem PoolNormalised.set (hd : d.Normalised latency) (i : ℕ) :
    PoolNormalised latency (pool.set i d) := by
  intro d' hd'
  rcases mem_or_eq_of_mem_set hd' with hd' | rfl
  · exact h d' hd'
  · exact hd

theorem PoolNormalised.append {new : List (Dataset ρ)}
    (hnew : ∀ d ∈ new, d.Normalised latency) : PoolNormalised latency (pool ++ new) := by
  intro d hd
  exact (mem_append.mp hd).elim (h d) (hnew d)

theorem PoolNormalised.append_sets {sets : Dataset ρ × Dataset ρ}
    (hsets : BothNormalised latency sets) :
    PoolNormalised latency (pool ++ [sets.1, sets.2]) :=
  h.append (by simpa [BothNormalised] using hsets)

theorem PoolNormalised.of_lt
    (hi : i < pool.length) : ∃ d, pool[i]? = some d ∧ d.Normalised latency :=
  ⟨pool[i], getElem?_eq_getElem hi, h _ (getElem_mem hi)⟩

end

theorem randomSplitByTarget_nil (h : d.tasks.entries = []) (trainSetRatio : ℚ) :
    d.randomSplitByTarget trainSetRatio = some (.empty, .empty) := by
  have hnone : d.targetToTask = .empty := by rw [targetToTask, h]; rfl
  rw [randomSplitByTarget, hnone]
  rfl

/-- **One call keeps all datasets normalised**, and raises no exception. -/
theorem DatasetCall.run_normalised (h : PoolNormalised latency pool) {call : DatasetCall ρ}
    (hcall : call.Admissible latency pool) :
    ∃ pool', call.run pool = some pool' ∧ PoolNormalised latency pool' := by
  cases call with
  | create =>
    exact ⟨_, rfl, h.append (by simpa using normalised_empty)⟩
  | loadTaskData i task data =>
    obtain ⟨d, hd, hnorm⟩ := h.of_lt hcall.1
    obtain ⟨d', hd', hnorm'⟩ := loadTaskData_normalised hnorm task hcall.2
    exact ⟨_, by simp only [run, hd, hd', some_bind_eq], h.set hnorm' i⟩
  | updateFromDataset i j =>
    obtain ⟨d, hd, hnorm⟩ := h.of_lt hcall.1
    obtain ⟨other, hother, hnorm'⟩ := h.of_lt hcall.2
    exact ⟨_, by simp only [run, hd, hother, some_bind_eq],
      h.set (updateFromDataset_normalised hnorm hnorm') i⟩
  | randomSplitWithinTask i trainSetRatio trainSetNum shuffle =>
    obtain ⟨hsome, d, hd, hbest⟩ := hcall
    obtain ⟨sets, hsets, hnorm⟩ := randomSplitWithinTask_normalised
      (h d (mem_of_getElem? hd)) hsome hbest
    exact ⟨_, by simp only [run, hd, hsets, some_bind_eq], h.append_sets hnorm⟩
  | randomSplitByTask i trainSetRatio shuffle =>
    obtain ⟨d, hd, hnorm⟩ := h.of_lt hcall
    obtain ⟨sets, hsets, hnorm'⟩ := randomSplitByTask_normalised hnorm trainSetRatio shuffle
    exact ⟨_, by simp only [run, hd, hsets, some_bind_eq], h.append_sets hnorm'⟩
  | randomSplitByTarget i trainSetRatio =>
    obtain ⟨d, hd, hnil⟩ := hcall
    exact ⟨_, by simp only [run, hd, randomSplitByTarget_nil hnil, bind_eq_bind,
      bind_some], h.append_sets bothNormalised_empty⟩
  | extractSubset i tasks =>
    obtain ⟨d, hd, hnorm⟩ := h.of_lt hcall
    obtain ⟨d', hd', hnorm'⟩ := extractSubset_normalised hnorm tasks
    exact ⟨pool ++ [d'], by simp only [run, hd, hd', some_bind_eq],
      h.append (by simpa using hnorm')⟩

theorem Built.normalised (h : Built latency pool) : PoolNormalised latency pool := by
  induction h with
  | nil => exact fun d hd => absurd hd not_mem_nil
  | call h call hcall hrun ih =>
    obtain ⟨pool', hpool', hnorm⟩ := DatasetCall.run_normalised ih hcall
    cases hpool'.symm.trans hrun
    exact hnorm

/-- **Latencies can be read off every dataset that is built**, and no call raises an
exception. -/
theorem Built.keepsLatencies (latency : ρ → ℚ) (pool : List (Dataset ρ)) (h : Built latency pool) :
    (∀ d ∈ pool, d.KeepsLatencies latency) ∧
      ∀ call : DatasetCall ρ, call.Admissible latency pool →
        ∃ pool', call.run pool = some pool' := by
  refine ⟨fun d hd => (h.normalised d hd).keeps, fun call hcall => ?_⟩
  obtain ⟨pool', hpool', -⟩ := DatasetCall.run_normalised h.normalised hcall
  exact ⟨pool', hpool'⟩

def matmulTask : LearningTask := ⟨"[\"matmul\", 8, 8]", "cuda"⟩

/-- A batch of two programs, of latencies 1 and 2. -/
def twoPrograms : TaskData ℚ := ⟨[1, 2], [1, 1 / 2], some 1⟩

theorem twoPrograms_normalised : twoPrograms.Normalised id := by
  refine ⟨1, rfl, ?_, ?_, ?_, 1, ?_, rfl⟩
  · simp [twoPrograms]
  · simp [twoPrograms]
  · simp [twoPrograms]
  · simp [twoPrograms]

def twoProgramsDataset : Dataset ℚ := ⟨EntryMap.empty.update matmulTask fun _ => twoPrograms⟩

theorem built_twoPrograms : Built id [twoProgramsDataset] :=
  .call (.call .nil .create trivial rfl) (.loadTaskData 0 matmulTask twoPrograms)
    ⟨by decide, twoPrograms_normalised⟩ rfl

theorem twoProgramsDataset_partsHaveBest :
    twoProgramsDataset.PartsHaveBest id none (some 2) none := by
  intro p hp split hsplit
  obtain rfl := mem_singleton.mp hp
  cases hsplit
  refine ⟨fun _ => ⟨0, by decide, 1, rfl, by simp [twoPrograms]⟩, fun h => absurd rfl h⟩

/-- The dataset of the two programs, and the sets of a split that puts both into the training
set. -/
theorem keepsLatencies_split :
    ∃ sets, twoProgramsDataset.randomSplitWithinTask none (some 2) none = some sets ∧
      ∀ d ∈ [twoProgramsDataset, sets.1, sets.2], d.KeepsLatencies id := by
  have hcall : DatasetCall.Admissible id [twoProgramsDataset]
      (.randomSplitWithinTask 0 none (some 2) none) :=
    ⟨.inr rfl, _, rfl, twoProgramsDataset_partsHaveBest⟩
  obtain ⟨sets, hsets⟩ : ∃ sets,
      twoProgramsDataset.randomSplitWithinTask none (some 2) none = some sets := ⟨_, rfl⟩
  refine ⟨sets, hsets, (Built.keepsLatencies id _ (.call built_twoPrograms _ hcall ?_)).1⟩
  rw [DatasetCall.run, getElem?_cons_zero, some_bind_eq, hsets]
  rfl

/-- **A split within tasks changes latencies**: the program of latency 2 alone is given the
least latency 2 and the throughput 1/2.  A split by target has no latencies. -/
theorem random_split_changes_latencies : Built id [twoProgramsDataset] ∧
      (∃ sets, twoProgramsDataset.randomSplitWithinTask none (some 1) none = some sets ∧
        ¬ sets.1.KeepsLatencies id) ∧
      ∃ sets, twoProgramsDataset.randomSplitByTarget 1 = some sets ∧
        ¬ sets.1.KeepsLatencies id := by
  have hwithin : (twoProgramsDataset.randomSplitWithinTask none (some 1) none).map
      (·.1.tasks.entries) = some [(matmulTask, ⟨[2], [1 / 2], some 2⟩)] := by decide +kernel
  have htarget : (twoProgramsDataset.randomSplitByTarget 1).map
      (·.1.tasks.entries) = some [(matmulTask, ⟨[1, 2], [1, 1 / 2], none⟩)] := by decide +kernel
  obtain ⟨sets, hsets, hentries⟩ := map_eq_some_iff.mp hwithin
  obtain ⟨sets', hsets', hentries'⟩ := map_eq_some_iff.mp htarget
  refine ⟨built_twoPrograms, ⟨sets, hsets, fun h => ?_⟩, sets', hsets', fun h => ?_⟩
  · obtain ⟨-, m, hm, hlat⟩ := h _ (by rw [hentries]; exact mem_cons_self)
    cases hm
    exact absurd (hlat 0 2 (1 / 2) rfl rfl) (by decide +kernel)
  · obtain ⟨-, m, hm, -⟩ := h _ (by rw [hentries']; exact mem_cons_self)
    cases hm

end Pruner.AutoScheduler
