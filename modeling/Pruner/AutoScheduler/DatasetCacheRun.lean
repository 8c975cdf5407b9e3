import Mathlib.Data.List.Induction
import Pruner.AutoScheduler.DatasetCache
import Pruner.Lib.PartialRun

/-!
# Cached features

With the features of some log files in the cache folder, from an earlier run, the same
dataset is made as without them, and every file is loaded with its own features.  This needs that
no file is found in the cache file of another one.  Buffer features are not cached: in mode `pam`
a file that is found in the cache has to be the last one that has been read, or has no tasks.
Otherwise the buffer features of another file, or none, are used instead.

## Main definitions

* `ownTasks`, `loadOwn` — the features of a file, and how they are meant to be loaded.
* `Cached`, `LastRead` — which files are in the cache, and which file has been read last.
* `CacheOk`, `RunOk` — what the cache folder and the variables of the loop hold.
* `runOk_processFile` — what one file does.
* `makeDatasetFromLogFile_cached` — the dataset does not depend on the cache.
-/

namespace Pruner.AutoScheduler

open List

open Lib (EntryMap)

variable {μ φ β D : Type} {mode : DatasetMode φ β D} {logs : LogFiles μ φ β}

/-! ## How the features of a file are meant to be loaded -/

/-- The features of a task, its buffer features and its latency. -/
structure TaskFeatures (φ β : Type) where
  task : LearningTask
  data : φ
  bufFeatures : β
  minLatency : ℚ

/-- The features of one task, if it has valid records. -/
def ownTask (logs : LogFiles μ φ β) (p : LearningTask × List μ) :
    Option (Option (TaskFeatures φ β)) :=
  match logs.perStoreFeatures p.2 with
  | none => none
  | some res =>
    if res.taskIds.any (· ≠ 0) then none
    else match res.minLatency with
      | [] => some none
      | [minLatency] => some (some ⟨p.1, res.data, res.bufFeatures, minLatency⟩)
      | _ => none

def ownTasks (logs : LogFiles μ φ β) (filename : String) : Option (List (TaskFeatures φ β)) :=
  if !logs.pathExists filename then none
  else do
    let records ← logs.readRecords filename
    let tasks ← (measureRecords logs records).entries.mapM (ownTask logs)
    some (tasks.filterMap id)

/-- Load tasks, each with its own buffer features. -/
def loadOwnTasks (mode : DatasetMode φ β D) : List (TaskFeatures φ β) → D → D
  | [], d => d
  | t :: rest, d =>
    match mode.load d t.task t.data (some t.bufFeatures) t.minLatency with
    | (d', false) => d'
    | (d', true) => loadOwnTasks mode rest d'

/-- Load a file with its own features. -/
def loadOwn (mode : DatasetMode φ β D) (logs : LogFiles μ φ β) (d : D) (filename : String) : D :=
  match ownTasks logs filename with
  | none => d
  | some tasks => loadOwnTasks mode tasks d

/-- What a cache file holds of a task. -/
def TaskFeatures.cached (t : TaskFeatures φ β) : LearningTask × φ × ℚ :=
  (t.task, t.data, t.minLatency)

def TaskFeatures.buffered (t : TaskFeatures φ β) : LearningTask × β := (t.task, t.bufFeatures)

/-! ## The dictionaries of a file -/

/-- The dictionaries hold these tasks. -/
def Holds (acc : CacheFile φ × EntryMap LearningTask β) (tasks : List (TaskFeatures φ β)) : Prop :=
  acc.1.entries = tasks.map (·.cached) ∧ acc.2.entries = tasks.map (·.buffered)

variable {tasks : List (TaskFeatures φ β)} {acc : CacheFile φ × EntryMap LearningTask β}
  {t : TaskFeatures φ β} {cache : String → Option (CacheFile φ)}

theorem Holds.update (h : Holds acc tasks) (ht : t.task ∉ tasks.map (·.task)) :
    Holds (acc.1.update t.task fun _ => (t.data, t.minLatency),
      acc.2.update t.task fun _ => t.bufFeatures) (tasks ++ [t]) := by
  have h₁ : acc.1.entries.map Prod.fst = tasks.map (·.task) := by
    rw [h.1, map_map]
    rfl
  have h₂ : acc.2.entries.map Prod.fst = tasks.map (·.task) := by
    rw [h.2, map_map]
    rfl
  refine ⟨?_, ?_⟩
  · rw [EntryMap.entries_update_of_notMem (h₁ ▸ ht), h.1, map_append]
    rfl
  · rw [EntryMap.entries_update_of_notMem (h₂ ▸ ht), h.2, map_append]
    rfl

theorem featurize_cons (p : LearningTask × List μ) (l : List (LearningTask × List μ))
    (acc : CacheFile φ × EntryMap LearningTask β) :
    featurize logs (p :: l) acc = match ownTask logs p with
      | none => (acc, false)
      | some none => featurize logs l acc
      | some (some t) => featurize logs l (acc.1.update t.task fun _ => (t.data, t.minLatency),
          acc.2.update t.task fun _ => t.bufFeatures) := by
  obtain ⟨task, records⟩ := p
  rw [featurize, ownTask]
  cases logs.perStoreFeatures records with
  | none => rfl
  | some res =>
    by_cases hids : res.taskIds.any (· ≠ 0) = true
    · simp only [hids, if_true]
    · simp only [hids]
      rcases res.minLatency with - | ⟨m, - | ⟨m', l⟩⟩ <;> rfl

theorem task_of_ownTask {p : LearningTask × List μ}
    (h : ownTask logs p = some (some t)) : t.task = p.1 := by
  unfold ownTask at h
  split at h
  · simp at h
  · split at h
    · simp at h
    · split at h
      · simp at h
      · rw [← Option.some.inj (Option.some.inj h)]
      · simp at h

/-- **Computing features fills both dictionaries**, or raises an exception. -/
theorem featurize_spec {l : List (LearningTask × List μ)} (hacc : Holds acc tasks)
    (hnodup : (tasks.map (·.task) ++ l.map Prod.fst).Nodup) :
    match l.mapM (ownTask logs) with
    | none => (featurize logs l acc).2 = false
    | some new => (featurize logs l acc).2 = true ∧
      Holds (featurize logs l acc).1 (tasks ++ new.filterMap id) := by
  induction l generalizing acc tasks with
  | nil => simpa [featurize] using hacc
  | cons p l ih =>
    have hrest : (tasks.map (·.task) ++ l.map Prod.fst).Nodup :=
      hnodup.sublist (Sublist.append_left (sublist_cons_self _ _) _)
    rw [mapM_cons, featurize_cons]
    cases hown : ownTask logs p with
    | none => rfl
    | some o =>
      cases o with
      | none =>
        have hih := ih hacc hrest
        cases hmap : l.mapM (ownTask logs) with
        | none | some new => simpa [hmap] using hih
      | some t =>
        have htask := task_of_ownTask hown
        have hnotMem : t.task ∉ tasks.map (·.task) := by
          rw [htask]
          intro hmem
          exact (nodup_append.mp hnodup).2.2 _ hmem _ mem_cons_self rfl
        have hnext : ((tasks ++ [t]).map (·.task) ++ l.map Prod.fst).Nodup := by
          rwa [map_append, append_assoc, map_singleton, htask]
        have hih := ih (hacc.update hnotMem) hnext
        cases hmap : l.mapM (ownTask logs) with
        | none | some new => simpa [hmap] using hih

theorem featurize_file (logs : LogFiles μ φ β) (records : List μ) :
    match (measureRecords logs records).entries.mapM (ownTask logs) with
    | none => (featurize logs (measureRecords logs records).entries (.empty, .empty)).2 = false
    | some new => (featurize logs (measureRecords logs records).entries (.empty, .empty)).2 = true ∧
      Holds (featurize logs (measureRecords logs records).entries (.empty, .empty)).1
        (new.filterMap id) := by
  have hempty : Holds (.empty, .empty) ([] : List (TaskFeatures φ β)) := ⟨rfl, rfl⟩
  exact featurize_spec hempty (measureRecords logs records).nodup

/-! ## Loading a file -/

/-- The mode does not look at buffer features. -/
def DatasetMode.IgnoresBuf (mode : DatasetMode φ β D) : Prop :=
  ∀ d task data bufFeatures bufFeatures' minLatency,
    mode.load d task data bufFeatures minLatency = mode.load d task data bufFeatures' minLatency

/-- Without a look at buffer features, or with each task's own, a file is loaded as it is meant
to be. -/
theorem loadTasks_eq {bufFeatures : Option (EntryMap LearningTask β)} (h : mode.IgnoresBuf ∨
      ∀ t ∈ tasks, bufFeatures.bind (·.get? t.task) = some t.bufFeatures) (d : D) :
    loadTasks mode bufFeatures (tasks.map (·.cached)) d = loadOwnTasks mode tasks d := by
  induction tasks generalizing d with
  | nil => rfl
  | cons t tasks ih =>
    have ih := ih (h.imp_right fun h => (forall_mem_cons.mp h).2)
    have hload : mode.load d t.task t.data (bufFeatures.bind (·.get? t.task)) t.minLatency =
        mode.load d t.task t.data (some t.bufFeatures) t.minLatency := by
      rcases h with hmode | h
      · exact hmode _ _ _ _ _ _
      · rw [h t mem_cons_self]
    rw [map_cons, TaskFeatures.cached, loadTasks, loadOwnTasks, hload]
    rcases mode.load d t.task t.data (some t.bufFeatures) t.minLatency with ⟨d', - | -⟩
    · rfl
    · exact ih d'

/-! ## The cache folder -/

/-- After the files `seen`, the cache file of a log file is there. -/
def Cached (mode : DatasetMode φ β D) (logs : LogFiles μ φ β) (seen : List String)
    (filename : String) : Prop :=
  ∃ g ∈ seen, (ownTasks logs g).isSome ∧ cacheFile mode g = cacheFile mode filename

/-- The cache files are those of the files `seen`, each with the features of such a file. -/
structure CacheOk (mode : DatasetMode φ β D) (logs : LogFiles μ φ β) (seen : List String)
    (cache : String → Option (CacheFile φ)) : Prop where
  sound : ∀ name features, cache name = some features → ∃ g ∈ seen, cacheFile mode g = name ∧
    ∃ tasks, ownTasks logs g = some tasks ∧ features.entries = tasks.map (·.cached)
  complete : ∀ g ∈ seen, (ownTasks logs g).isSome → (cache (cacheFile mode g)).isSome

/-- The file has no task with valid records. -/
def NoTasks (logs : LogFiles μ φ β) (filename : String) : Prop :=
  ∀ tasks, ownTasks logs filename = some tasks → tasks = []

variable {seen earlier pre files : List String} {state : LoopState φ β D} {f filename : String}

theorem CacheOk.isSome_iff (h : CacheOk mode logs seen cache) :
    (cache (cacheFile mode filename)).isSome ↔ Cached mode logs seen filename := by
  constructor
  · intro hsome
    obtain ⟨features, hfeatures⟩ := Option.isSome_iff_exists.mp hsome
    obtain ⟨g, hg, hname, tasks, htasks, -⟩ := h.sound _ _ hfeatures
    exact ⟨g, hg, by simp [htasks], hname⟩
  · rintro ⟨g, hg, htasks, hname⟩
    exact hname ▸ h.complete g hg htasks

/-- A file that is not new, or has no features, leaves the cache as it is. -/
theorem CacheOk.append (h : CacheOk mode logs seen cache)
    (hf : (ownTasks logs filename).isSome → (cache (cacheFile mode filename)).isSome) :
    CacheOk mode logs (seen ++ [filename]) cache where
  sound name features hname := by
    obtain ⟨g, hg, hrest⟩ := h.sound name features hname
    exact ⟨g, mem_append_left _ hg, hrest⟩
  complete := by
    exact forall_mem_append.mpr ⟨h.complete, forall_mem_singleton.mpr hf⟩

theorem CacheOk.update (h : CacheOk mode logs seen cache)
    (htasks : ownTasks logs filename = some tasks) {features : CacheFile φ}
    (hfeatures : features.entries = tasks.map (·.cached)) :
    CacheOk mode logs (seen ++ [filename])
      (Function.update cache (cacheFile mode filename) (some features)) where
  sound name features' hname := by
    rcases Lib.update_eq_cases hname with ⟨rfl, ⟨⟩⟩ | ⟨-, hname⟩
    · exact ⟨filename, by simp, rfl, tasks, htasks, hfeatures⟩
    · obtain ⟨g, hg, hrest⟩ := h.sound name features' hname
      exact ⟨g, mem_append_left _ hg, hrest⟩
  complete g hg hsome := by
    by_cases hname : cacheFile mode g = cacheFile mode filename
    · simp [hname]
    · rw [Function.update_of_ne hname]
      rcases mem_append.mp hg with hg | hg
      · exact h.complete g hg hsome
      · exact (hname (by rw [mem_singleton.mp hg])).elim

/-! ## One file -/

/-- After an earlier run and the files `pre`, a log file is read, and its buffer features are
assigned. -/
def Reads (mode : DatasetMode φ β D) (logs : LogFiles μ φ β) (earlier pre : List String)
    (filename : String) : Prop :=
  logs.pathExists filename = true ∧ (logs.readRecords filename).isSome ∧
    ¬ Cached mode logs (earlier ++ pre) filename

/-- The log file is the last one that the run has read. -/
inductive LastRead (mode : DatasetMode φ β D) (logs : LogFiles μ φ β) (earlier : List String) :
    List String → String → Prop where
  | read {pre : List String} {f : String} (h : Reads mode logs earlier pre f) :
    LastRead mode logs earlier (pre ++ [f]) f
  | keep {pre : List String} {f g : String} (h : LastRead mode logs earlier pre f)
    (hg : ¬ Reads mode logs earlier pre g) : LastRead mode logs earlier (pre ++ [g]) f

theorem lastRead_concat (h : LastRead mode logs earlier (pre ++ [filename]) f) :
    f = filename ∧ Reads mode logs earlier pre filename ∨
      LastRead mode logs earlier pre f ∧ ¬ Reads mode logs earlier pre filename := by
  generalize hpre : pre ++ [filename] = pre' at h
  cases h with
  | read h =>
    obtain ⟨rfl, hf⟩ := append_inj' hpre rfl
    obtain rfl := (cons.inj hf).1
    exact .inl ⟨rfl, h⟩
  | keep h hg =>
    obtain ⟨rfl, hf⟩ := append_inj' hpre rfl
    obtain rfl := (cons.inj hf).1
    exact .inr ⟨h, hg⟩

/-- The buffer features are those of the tasks of a file. -/
def OwnBuffers (logs : LogFiles μ φ β) (bufFeatures : Option (EntryMap LearningTask β))
    (filename : String) : Prop :=
  ∀ tasks, ownTasks logs filename = some tasks → ∀ t ∈ tasks,
    bufFeatures.bind (·.get? t.task) = some t.bufFeatures

/-- After an earlier run and the files `pre`: the cache, and the buffer features of the file that
has been read last. -/
structure RunOk (mode : DatasetMode φ β D) (logs : LogFiles μ φ β) (earlier pre : List String)
    (state : LoopState φ β D) : Prop where
  cache : CacheOk mode logs (earlier ++ pre) state.cache
  buffers : ∀ f, LastRead mode logs earlier pre f → OwnBuffers logs state.bufFeatures f

/-- A file is found in its own cache file only, and then with its own buffer features. -/
structure LoadsOwn (mode : DatasetMode φ β D) (logs : LogFiles μ φ β) (earlier pre : List String)
    (filename : String) : Prop where
  distinct : ∀ g ∈ earlier ++ pre, (ownTasks logs g).isSome →
    cacheFile mode g = cacheFile mode filename → g = filename
  buffers : mode.IgnoresBuf ∨ (Cached mode logs (earlier ++ pre) filename →
    NoTasks logs filename ∨ LastRead mode logs earlier pre filename)

section

variable (h : RunOk mode logs earlier pre state)
include h

/-- The state stays after a file that is not read. -/
theorem RunOk.skip (hread : ¬ Reads mode logs earlier pre filename)
    (hf : (ownTasks logs filename).isSome → (state.cache (cacheFile mode filename)).isSome)
    (d : D) : RunOk mode logs earlier (pre ++ [filename]) { state with dataset := d } where
  cache := by
    rw [← append_assoc]
    exact h.cache.append hf
  buffers f hf := by
    rcases lastRead_concat hf with ⟨-, hr⟩ | ⟨hlast, -⟩
    · exact (hread hr).elim
    · exact h.buffers f hlast

/-- A file that is found in the cache. -/
theorem RunOk.load_cached {features : CacheFile φ}
    (hcache : state.cache (cacheFile mode filename) = some features)
    (hown : LoadsOwn mode logs earlier pre filename) :
    loadTasks mode state.bufFeatures features.entries state.dataset =
      loadOwn mode logs state.dataset filename := by
  obtain ⟨g, hg, hname, tasks, htasks, hentries⟩ := h.cache.sound _ _ hcache
  obtain rfl := hown.distinct g hg (by simp [htasks]) hname
  rw [loadOwn, htasks, hentries]
  refine loadTasks_eq ?_ _
  refine hown.buffers.imp_right fun hbuf t ht => ?_
  rcases hbuf ⟨g, hg, by simp [htasks], rfl⟩ with hnone | hlast
  · rw [hnone tasks htasks] at ht
    cases ht
  · exact h.buffers g hlast tasks htasks t ht

/-- **One file is loaded with its own features**, if they are not found in the cache file of
another file, and no other buffer features are used. -/
theorem runOk_processFile :
    RunOk mode logs earlier (pre ++ [filename]) (processFile mode logs state filename) ∧
      ((logs.pathExists filename = true → LoadsOwn mode logs earlier pre filename) →
        (processFile mode logs state filename).dataset =
          loadOwn mode logs state.dataset filename) := by
  unfold processFile
  split
  · next hexists =>
      have hnone : ownTasks logs filename = none := by rw [ownTasks, if_pos hexists]
      refine ⟨h.skip (fun hr => by simp [hr.1] at hexists) (by simp [hnone]) _, fun _ => ?_⟩
      rw [loadOwn, hnone]
  · next hexists =>
      have hexists' : logs.pathExists filename = true := by simpa using hexists
      split
      · next features hcache =>
          refine ⟨h.skip (fun hr => hr.2.2 ?_) (by simp [hcache]) _,
            fun hown => h.load_cached hcache (hown hexists')⟩
          exact h.cache.isSome_iff.mp (by simp [hcache])
      · next hcache =>
          have hnot : ¬ Cached mode logs (earlier ++ pre) filename :=
            fun hc => by simpa [hcache] using h.cache.isSome_iff.mpr hc
          split
          · next hread =>
              have hnone : ownTasks logs filename = none := by
                rw [ownTasks, if_neg hexists, hread]
                rfl
              refine ⟨h.skip (fun hr => by simpa [hread] using hr.2.1) (by simp [hnone]) _,
                fun _ => ?_⟩
              rw [loadOwn, hnone]
          · next records hread =>
              have hreads : Reads mode logs earlier pre filename :=
                ⟨hexists', by simp [hread], hnot⟩
              have hfile := featurize_file logs records
              cases hmap : (measureRecords logs records).entries.mapM (ownTask logs) with
              | none =>
                have hnone : ownTasks logs filename = none := by
                  rw [ownTasks, if_neg hexists, hread]
                  simp [hmap]
                simp only [hmap] at hfile
                simp only [hfile, Bool.not_false, if_true, loadOwn, hnone]
                refine ⟨⟨?_, fun f hf => ?_⟩, fun _ => trivial⟩
                · rw [← append_assoc]
                  exact h.cache.append (by simp [hnone])
                · rcases lastRead_concat hf with ⟨rfl, -⟩ | ⟨-, hr⟩
                  · intro tasks htasks
                    simp [hnone] at htasks
                  · exact (hr hreads).elim
              | some new =>
                have hown : ownTasks logs filename = some (new.filterMap id) := by
                  rw [ownTasks, if_neg hexists, hread]
                  simp [hmap]
                simp only [hmap] at hfile
                obtain ⟨hok, hholds⟩ := hfile
                have hbuf : ∀ t ∈ new.filterMap id, Option.bind (some (featurize logs
                    (measureRecords logs records).entries (.empty, .empty)).1.2)
                    (·.get? t.task) = some t.bufFeatures := by
                  intro t ht
                  refine (Option.bind_some ..).trans (EntryMap.get?_of_mem ?_)
                  rw [hholds.2]
                  exact mem_map_of_mem ht
                simp only [hok, Bool.not_true, Bool.false_eq_true, if_false]
                refine ⟨⟨?_, fun f hf => ?_⟩, fun _ => ?_⟩
                · rw [← append_assoc]
                  exact h.cache.update hown hholds.1
                · rcases lastRead_concat hf with ⟨rfl, -⟩ | ⟨-, hr⟩
                  · intro tasks htasks
                    obtain rfl := Option.some.inj (hown.symm.trans htasks)
                    exact hbuf
                  · exact (hr hreads).elim
                · rw [loadOwn, hown, hholds.1]
                  exact loadTasks_eq (.inr hbuf) _

end

/-! ## Whole runs -/

/-- Every file of the list that exists is loaded with its own features. -/
def AllLoadOwn (mode : DatasetMode φ β D) (logs : LogFiles μ φ β) (earlier files : List String) :
    Prop :=
  ∀ pre f post, files = pre ++ f :: post → logs.pathExists f = true →
    LoadsOwn mode logs earlier pre f

theorem runOk_foldl (h : RunOk mode logs earlier [] state) (files : List String) :
    RunOk mode logs earlier files (files.foldl (processFile mode logs) state) := by
  induction files using reverseRecOn with
  | nil => exact h
  | append_singleton files f ih =>
    rw [foldl_append]
    exact (runOk_processFile ih).1

/-- **Every file of a run is loaded with its own features.** -/
theorem foldl_processFile_dataset (h : RunOk mode logs earlier [] state)
    (hown : AllLoadOwn mode logs earlier files) :
    (files.foldl (processFile mode logs) state).dataset =
      files.foldl (loadOwn mode logs) state.dataset := by
  induction files using reverseRecOn with
  | nil => rfl
  | append_singleton files f ih =>
    have hfile : (processFile mode logs (files.foldl (processFile mode logs) state) f).dataset =
        loadOwn mode logs (files.foldl (processFile mode logs) state).dataset f :=
      (runOk_processFile (runOk_foldl h files)).2 (hown files f [] rfl)
    have ih := ih fun pre g post hfiles =>
      hown pre g (post ++ [f]) (by rw [hfiles, append_assoc, cons_append])
    rw [foldl_append, foldl_append, foldl_cons, foldl_nil, foldl_cons, foldl_nil, hfile, ih]

theorem runOk_empty (h : CacheOk mode logs earlier cache) (d : D) :
    RunOk mode logs earlier [] ⟨d, cache, none⟩ where
  cache := by rwa [append_nil]
  buffers f hf := by
    generalize hpre : ([] : List String) = pre at hf
    cases hf <;> simp at hpre

theorem makeDatasetFromLogFile_eq (logs : LogFiles μ φ β) (earlier files : List String)
    (minSampleSize : ℤ) (hown : AllLoadOwn mode logs earlier files) :
    makeDatasetFromLogFile mode logs (processFiles mode logs (fun _ => none) earlier).cache files
        minSampleSize =
      mode.deleteSmall minSampleSize (files.foldl (loadOwn mode logs) mode.empty) := by
  have hempty : CacheOk mode logs [] fun _ => none := ⟨fun _ _ => nofun, by simp⟩
  have hcache := (runOk_foldl (runOk_empty hempty mode.empty) earlier).cache
  rw [makeDatasetFromLogFile]
  exact congrArg _ (foldl_processFile_dataset (runOk_empty hcache _) hown)

theorem ansorMode_ignoresBuf (ρ : Type) : (ansorMode ρ).IgnoresBuf :=
  fun _ _ _ _ _ _ => rfl

/-- The same dataset is made with the cache of an earlier run as without it, and every file is
loaded with its own features. -/
def MakesOwn (mode : DatasetMode φ β D) (logs : LogFiles μ φ β) (earlier files : List String)
    (minSampleSize : ℤ) : Prop :=
  let cache := (processFiles mode logs (fun _ => none) earlier).cache
  let made := makeDatasetFromLogFile mode logs (fun _ => none) files minSampleSize
  makeDatasetFromLogFile mode logs cache files minSampleSize = made ∧
    made = mode.deleteSmall minSampleSize (files.foldl (loadOwn mode logs) mode.empty)

theorem makesOwn_of_allLoadOwn (minSampleSize : ℤ) (hown : AllLoadOwn mode logs earlier files)
    (hown' : AllLoadOwn mode logs [] files) : MakesOwn mode logs earlier files minSampleSize := by
  have hfiles := makeDatasetFromLogFile_eq logs [] files minSampleSize hown'
  exact ⟨(makeDatasetFromLogFile_eq logs earlier files minSampleSize hown).trans hfiles.symm, hfiles⟩

def oneRow : NdArray Unit := ⟨[], [⟨[], ()⟩]⟩

def oneLog : LogFiles Unit (PamFeatures Unit) (NdArray Unit) where
  pathExists _ := true
  readRecords _ := some [()]
  inputToLearningTask _ := ⟨"conv2d", "cuda"⟩
  perStoreFeatures _ := some ⟨⟨oneRow, oneRow, oneRow, [1]⟩, oneRow, [0], [2]⟩

/-- A file that stands in the list twice is found in the cache the second time, with its own
buffer features. -/
theorem allLoadOwn_twice : AllLoadOwn (pamMode Unit) oneLog [] ["a.json", "a.json"] := by
  rintro pre f post hfiles -
  have hall : ∀ g ∈ pre ++ f :: post, g = "a.json" := by
    rw [← hfiles]
    simp
  obtain rfl := hall f (by simp)
  refine ⟨fun g hg _ _ => hall g (mem_append_left _ hg), .inr fun hcached => .inr ?_⟩
  match pre with
  | [] =>
    obtain ⟨g, hg, -⟩ := hcached
    cases hg
  | [g] =>
    obtain rfl := hall g (by simp)
    exact @LastRead.read _ _ _ _ _ _ _ [] _ ⟨rfl, rfl, fun ⟨g, hg, _⟩ => by cases hg⟩
  | g :: g' :: pre =>
    have hlen := congrArg length hfiles
    simp at hlen

end Pruner.AutoScheduler
