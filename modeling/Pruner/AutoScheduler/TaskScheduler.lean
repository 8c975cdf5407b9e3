import Mathlib.Algebra.BigOperators.Fin
import Pruner.Lib.Ext
import Pruner.Lib.PartialRun

/-!
# The task scheduler

`TaskScheduler` (`task_scheduler.py`) tunes several tasks together.  A call of `tune`
restores the status from a log, tunes every task once and then chooses a task for each
round, in turn or by a gradient of the objective.  A task is dead when its search space is
exhausted or it has not improved for a long time.

There are `n` tasks, and the arrays that are indexed by tasks are functions on `Fin n`.
Costs are numbers of an ordered field, with the infinities of floating point arithmetic
where the code divides.  What a search round returns, and the random choice of a round, are
inputs of the machine.

## Main definitions

* `TaskScheduler` — the state, with `init`, `restoreStatus`, `tuneTask`,
  `adjustSimilarityGroup` and `gradient`.
* `Tuner`, `Tuner.startTune`, `Tuner.round` — calls of `tune`, round by round.
* `adjustSimilarityGroup_cases`, `restoreRecord_cases`, `warmUp_cases`, `finishRound_cases`,
  `round_cases` — what each part of a call can do.
-/

namespace Pruner.AutoScheduler

open Lib Option Function Ext

/-- The results of a measurement; there is at least one. -/
abbrev Costs (K : Type) := { l : List K // l ≠ [] }

def arrayMean {K : Type} [Field K] (arr : Costs K) : K := arr.1.sum / arr.1.length

inductive Strategy where
  | roundRobin
  | gradient
  deriving DecidableEq

/-- What the scheduler reads of a task.  `opTags` are the tags that the operations have. -/
structure TuningTask where
  opTags : List String
  flopCt : ℤ
  workloadKey : String
  target : String

/-- `derive_similarity_tag`.  `logFlop` is the integer part of the logarithm, which is an
error for a number that is not positive. -/
def deriveSimilarityTag (logFlop : ℤ → ℤ) (task : TuningTask) : Option String :=
  let ret := String.join ((task.opTags.filter (· ≠ "")).map (· ++ "_"))
  if ret = "" then some ""
  else if 0 < task.flopCt + 1 then some (ret ++ toString (logFlop (task.flopCt + 1)))
  else none

/-- The arguments of the constructor. -/
structure SchedulerConfig (n : ℕ) (K : Type) where
  tasks : Fin n → TuningTask
  objectiveFunc : (Fin n → K) → K
  strategy : Strategy
  alpha : K
  beta : K
  backwardWindowSize : ℕ

/-- The members of a `TaskScheduler`.  `groupTags` are the keys of `tag_to_group_id`, which
maps each one to its position. -/
structure TaskScheduler (n : ℕ) (K : Type) where
  taskCts : Fin n → ℕ
  taskBestCts : Fin n → ℕ
  taskCostsHistory : Fin n → List K
  bestCosts : Fin n → K
  curScore : K
  ct : ℕ
  bestCt : ℕ
  bestScore : K
  deadTasks : Finset (Fin n)
  taskTags : Fin n → Option String
  groupTags : List String
  groupTaskIds : List (List (Fin n))

/-- The similarity groups in the constructor. -/
structure Groups (n : ℕ) where
  tags : List String
  taskIds : List (List (Fin n))

/-- Put a task into the group of its tag. -/
def Groups.add {n : ℕ} (tags : Fin n → String) (groups : Groups n) (i : Fin n) : Groups n :=
  if tags i = "" then groups
  else if tags i ∈ groups.tags then
    { groups with
      taskIds := groups.taskIds.modify (groups.tags.idxOf (tags i)) (· ++ [i]) }
  else { tags := groups.tags ++ [tags i], taskIds := groups.taskIds ++ [[i]] }

/-- The arguments of a call of `tune`. -/
structure TuneOption where
  numMeasureTrials : ℤ
  numMeasuresPerRound : ℤ
  earlyStopping : ℤ
  perTaskEarlyStopping : Option ℤ

/-- The limits of a call: every task can be tuned once. -/
structure TuneParams (n : ℕ) where
  numMeasureTrials : ℤ
  numMeasuresPerRound : ℕ
  earlyStoppingAll : ℤ
  earlyStoppingTask : ℤ
  perRound_pos : 0 < numMeasuresPerRound
  warmUp_le : (n * numMeasuresPerRound : ℤ) ≤ numMeasureTrials

/-- The limits that `tune` derives from its arguments. -/
def TuneParams.ofOption (n : ℕ) [NeZero n] (option : TuneOption) : Option (TuneParams n) :=
  let trials := if option.numMeasureTrials < 0 then (n : ℤ) else option.numMeasureTrials
  let perRound := min option.numMeasuresPerRound (trials / n)
  if h : perRound ≤ 0 then none
  else
    some
      { numMeasureTrials := trials
        numMeasuresPerRound := perRound.toNat
        earlyStoppingAll := if option.earlyStopping < 0 then 10 ^ 20 else option.earlyStopping
        earlyStoppingTask := option.perTaskEarlyStopping.getD (10 ^ 20)
        perRound_pos := by omega
        warmUp_le := by
          have hn : (0 : ℤ) < n := by exact_mod_cast Nat.pos_of_neZero n
          have hle : perRound ≤ trials / n := min_le_right _ _
          calc (n * perRound.toNat : ℤ) = n * perRound := by rw [Int.toNat_of_nonneg (by omega)]
            _ ≤ n * (trials / n) := mul_le_mul_of_nonneg_left hle hn.le
            _ ≤ trials := Int.mul_ediv_self_le hn.ne' }

/-- A record of a log file. -/
structure TuningRecord (K : Type) where
  target : String
  workloadKey : String
  errorNo : ℤ
  costs : Costs K

/-- What a search round returns, and the task that a random choice would take. -/
structure Round (n : ℕ) (K : Type) where
  choice : Fin n
  numInputs : ℕ
  results : List (Costs K)

variable {n : ℕ} {K : Type} [Field K] [LinearOrder K]

namespace TaskScheduler

/-- The constructor. -/
def init (logFlop : ℤ → ℤ) (cfg : SchedulerConfig n K) : Option (TaskScheduler n K) :=
  if h : ∀ i, (deriveSimilarityTag logFlop (cfg.tasks i)).isSome then
    let tags := fun i => (deriveSimilarityTag logFlop (cfg.tasks i)).get (h i)
    let groups := (List.finRange n).foldl (Groups.add tags) ⟨[], []⟩
    let bestCosts := fun _ => 10 ^ 10
    some
      { taskCts := fun _ => 0
        taskBestCts := fun _ => 0
        taskCostsHistory := fun _ => []
        bestCosts
        curScore := cfg.objectiveFunc bestCosts
        ct := 0
        bestCt := 0
        bestScore := cfg.objectiveFunc bestCosts
        deadTasks := ∅
        taskTags := fun i => some (tags i)
        groupTags := groups.tags
        groupTaskIds := groups.taskIds }
  else none

/-! ### Restoring the status -/

variable (cfg : SchedulerConfig n K) (s : TaskScheduler n K) (i : Fin n)

/-- `workload_key_to_task_id`: of several tasks with one key, the last one. -/
def taskOfKey (key : String) : Option (Fin n) :=
  (List.finRange n).reverse.find? fun i => (cfg.tasks i).workloadKey = key

/-- The body of the first loop of `_restore_status`. -/
def restoreRecord [NeZero n] (cfg : SchedulerConfig n K) (s : TaskScheduler n K)
    (record : TuningRecord K) : TaskScheduler n K :=
  if record.target ≠ (cfg.tasks 0).target then s
  else
    match taskOfKey cfg record.workloadKey with
    | none => s
    | some i =>
      let cts := s.taskCts i + 1
      let s := { s with taskCts := update s.taskCts i cts }
      if record.errorNo = 0 ∧ arrayMean record.costs < s.bestCosts i then
        { s with
          bestCosts := update s.bestCosts i (arrayMean record.costs)
          taskBestCts := update s.taskBestCts i cts }
      else s

/-- `int(count / num_measures_per_round + 0.5)`. -/
def estimateRounds (count perRound : ℕ) : ℕ := (2 * count + perRound) / (2 * perRound)

def restoreStatus [NeZero n] (cfg : SchedulerConfig n K) (params : TuneParams n)
    (s : TaskScheduler n K) (log : List (TuningRecord K)) : TaskScheduler n K :=
  let s := log.foldl (restoreRecord cfg) s
  { s with
    deadTasks := s.deadTasks ∪ Finset.univ.filter fun i =>
      params.earlyStoppingTask < (s.taskCts i : ℤ) - s.taskBestCts i
    taskCts := fun i => estimateRounds (s.taskCts i) params.numMeasuresPerRound
    taskBestCts := fun i => estimateRounds (s.taskBestCts i) params.numMeasuresPerRound
    taskCostsHistory := fun i => s.taskCostsHistory i ++ [s.bestCosts i]
    curScore := cfg.objectiveFunc s.bestCosts }

/-! ### One round -/

/-- The best cost of a task and the round that found it, with the results of a round. -/
def bestOfResults (cts : ℕ) (best : K × ℕ) (results : List (Costs K)) : K × ℕ :=
  results.foldl (fun best res => if arrayMean res < best.1 then (arrayMean res, cts) else best)
    best

def tuneTask (params : TuneParams n) (s : TaskScheduler n K) (i : Fin n)
    (r : Round n K) : TaskScheduler n K :=
  let cts := s.taskCts i + 1
  let best := bestOfResults cts (s.bestCosts i, s.taskBestCts i) r.results
  let noChangeTrials := ((cts : ℤ) - best.2) * params.numMeasuresPerRound
  let bestCosts := update s.bestCosts i best.1
  { s with
    taskCts := update s.taskCts i cts
    taskBestCts := update s.taskBestCts i best.2
    bestCosts
    deadTasks :=
      if r.numInputs = 0 ∨ params.earlyStoppingTask < noChangeTrials then insert i s.deadTasks
      else s.deadTasks
    taskCostsHistory := update s.taskCostsHistory i (s.taskCostsHistory i ++ [best.1])
    ct := s.ct + r.numInputs
    curScore := cfg.objectiveFunc bestCosts }

/-- `self.tag_to_group_id.get(self.task_tags[i], None)`. -/
def groupOf : Option ℕ :=
  (s.taskTags i).bind fun tag =>
    if tag ∈ s.groupTags then some (s.groupTags.idxOf tag) else none

/-- The throughput of a task. -/
def flops : Ext K := div (.fin (cfg.tasks i).flopCt) (.fin (s.bestCosts i))

/-- The highest throughput of a group; an empty list has no maximum. -/
def maxFlops : List (Fin n) → Option (Ext K)
  | [] => none
  | i :: ids => some (s.flops cfg (argMax (s.flops cfg) i ids))

def adjustSimilarityGroup : Option (TaskScheduler n K) :=
  match s.groupOf i with
  | none => some s
  | some group => do
    let ids ← s.groupTaskIds[group]?
    if ids.length ≤ 1 then some s
    else do
      let bestGroupFlops ← s.maxFlops cfg ids
      if lt (s.flops cfg i) (div bestGroupFlops (.fin cfg.beta)) then do
        let others ← ((ids.filter (· ≠ i)).map s.taskCts).max?
        if 5 + others < s.taskCts i then
          if i ∈ ids then
            some
              { s with
                taskTags := update s.taskTags i none
                groupTaskIds := s.groupTaskIds.set group (ids.erase i) }
          else none
        else some s
      else some s

/-! ### The gradient -/

/-- How the objective changes with the cost of a task. -/
def chainGrad : K :=
  let delta : K := 1 / 10 ^ 4
  (cfg.objectiveFunc s.bestCosts -
    cfg.objectiveFunc (update s.bestCosts i (s.bestCosts i - delta))) / delta

/-- How the cost of a task has changed, if its history is long enough. -/
def backwardGrad : Option (Ext K) :=
  let last : ℤ := s.taskCts i - 1
  if last < (s.taskCostsHistory i).length ∧ 0 ≤ last - cfg.backwardWindowSize then do
    let cost ← (s.taskCostsHistory i)[last.toNat]?
    let before ← (s.taskCostsHistory i)[(last - cfg.backwardWindowSize).toNat]?
    some (div (.fin (cost - before)) (.fin cfg.backwardWindowSize))
  else some (.fin 0)

/-- The cost of a task if it were as fast as the best one of its group. -/
def groupCost : Option (Ext K) :=
  match s.groupOf i with
  | none => some (.fin (cfg.beta * 10 ^ 30))
  | some group => do
    let ids ← s.groupTaskIds[group]?
    if 1 < ids.length then do
      let bestFlops ← s.maxFlops cfg ids
      some (div (.fin (cfg.beta * (cfg.tasks i).flopCt)) bestFlops)
    else some (.fin (cfg.beta * 10 ^ 30))

/-- The gradient of a task, before its assertion. -/
def gradient : Option (Ext K) := do
  let backward ← s.backwardGrad cfg i
  let best : Ext K := .fin (s.bestCosts i)
  let next₁ := sub best (div best (.fin (s.taskCts i)))
  let next₂ ← s.groupCost cfg i
  let forward := sub (min next₁ next₂) best
  some (mul (.fin (s.chainGrad cfg i))
    (add (mul (.fin cfg.alpha) backward)
      (mul (.fin (1 - cfg.alpha)) forward)))

/-- An entry of `gradients`: zero for a dead task, and asserted not to be positive. -/
def gradientOf : Option (Ext K) :=
  if i ∈ s.deadTasks then some (.fin 0)
  else (s.gradient cfg i).filter fun grad => le grad (.fin 0)

def gradients : Option (Fin n → Ext K) :=
  if h : ∀ i, (s.gradientOf cfg i).isSome then some fun i => (s.gradientOf cfg i).get (h i)
  else none

/-! ### Choosing a task -/

/-- The first task from `i` on, in turn, that is not dead. -/
def nextLive [NeZero n] (dead : Finset (Fin n)) : ℕ → Fin n → Fin n
  | 0, i => i
  | fuel + 1, i => if i ∈ dead then nextLive dead fuel (i + 1) else i

/-- A random task if all gradients are equal, the first one with the lowest otherwise. -/
def chooseByGradient [NeZero n] (grads : Fin n → Ext K) (choice : Fin n) : Fin n :=
  if grads (argMax grads 0 (List.finRange n)) = grads (argMin grads 0 (List.finRange n))
  then choice
  else argMin grads 0 (List.finRange n)

def chooseTask [NeZero n] (cfg : SchedulerConfig n K) (s : TaskScheduler n K)
    (last : Option (Fin n)) (choice : Fin n) : Option (Fin n) :=
  match cfg.strategy with
  | .roundRobin => some (nextLive s.deadTasks n (last.elim 0 (· + 1)))
  | .gradient => (s.gradients cfg).map (chooseByGradient · choice)

end TaskScheduler

/-! ## Calls of `tune` -/

/-- Where a call of `tune` is: before the warm-up of a task, or in the loop after a task. -/
inductive Phase (n : ℕ) where
  | warmUp (i : Fin n)
  | loop (last : Option (Fin n))
  deriving DecidableEq

/-- A scheduler, with the call of `tune` if one is running. -/
structure Tuner (n : ℕ) (K : Type) where
  scheduler : TaskScheduler n K
  running : Option (TuneParams n × Phase n)

namespace Tuner

variable (params : TuneParams n) (s : TaskScheduler n K)

def loopTest (last : Option (Fin n)) : Tuner n K where
  scheduler := s
  running :=
    if s.ct < params.numMeasureTrials ∧ s.deadTasks.card < n then some (params, .loop last)
    else none

/-- The warm-up from a task on: the next task that has not been tuned, or else the loop. -/
def warmUp (start : ℕ) : Tuner n K :=
  match (List.finRange n).find? fun i => start ≤ i.val ∧ s.taskCts i = 0 with
  | some i => ⟨s, some (params, .warmUp i)⟩
  | none => loopTest params { s with bestCt := s.ct, bestScore := s.curScore } none

/-- The first part of `tune`, with the records of the log file if there is one. -/
def startTune [NeZero n] (cfg : SchedulerConfig n K) (s : TaskScheduler n K)
    (option : TuneOption) (log : Option (List (TuningRecord K))) : Option (Tuner n K) :=
  (TuneParams.ofOption n option).map fun params =>
    let s := { s with ct := 0, bestCt := 0 }
    warmUp params (log.elim s (s.restoreStatus cfg params)) 0

/-- The end of an iteration: the test for early stopping. -/
def finishRound (i : Fin n) : Tuner n K :=
  if s.curScore < s.bestScore then
    loopTest params { s with bestScore := s.curScore, bestCt := s.ct } (some i)
  else if params.earlyStoppingAll ≤ (s.ct : ℤ) - s.bestCt ∧ ∀ j, s.bestCosts j < 10 ^ 9 then
    ⟨s, none⟩
  else loopTest params s (some i)

/-- The task that a round tunes. -/
def target [NeZero n] (cfg : SchedulerConfig n K) (m : Tuner n K) (choice : Fin n) :
    Option (Fin n) :=
  m.running.bind fun
    | (_, .warmUp i) => some i
    | (_, .loop last) => m.scheduler.chooseTask cfg last choice

/-- A round of `tune`. -/
def round [NeZero n] (cfg : SchedulerConfig n K) (m : Tuner n K) (r : Round n K) :
    Option (Tuner n K) :=
  m.running.bind fun
    | (params, .warmUp i) => some (warmUp params (m.scheduler.tuneTask cfg params i r) (i + 1))
    | (params, .loop last) => do
      let i ← m.scheduler.chooseTask cfg last r.choice
      let s ← (m.scheduler.tuneTask cfg params i r).adjustSimilarityGroup cfg i
      some (finishRound params s i)

end Tuner

/-! ## What a step does -/

variable {cfg : SchedulerConfig n K} {params : TuneParams n} {s s' : TaskScheduler n K}
  {m m' : Tuner n K} {r : Round n K} {i : Fin n}

theorem adjustSimilarityGroup_cases (h : s.adjustSimilarityGroup cfg i = some s') :
    s' = s ∨ ∃ group ids, s.groupOf i = some group ∧ s.groupTaskIds[group]? = some ids ∧
      s' = { s with
        taskTags := update s.taskTags i none
        groupTaskIds := s.groupTaskIds.set group (ids.erase i) } := by
  unfold TaskScheduler.adjustSimilarityGroup at h
  split at h
  · exact .inl (some.inj h).symm
  · rename_i group hgroup
    obtain ⟨ids, hids, h⟩ := bind_eq_some_iff.mp h
    split at h
    · exact .inl (some.inj h).symm
    · obtain ⟨best, -, h⟩ := bind_eq_some_iff.mp h
      split at h
      · obtain ⟨others, -, h⟩ := bind_eq_some_iff.mp h
        split_ifs at h
        · exact .inr ⟨group, ids, hgroup, hids, (some.inj h).symm⟩
        · exact .inl (some.inj h).symm
      · exact .inl (some.inj h).symm

/-- What an adjustment leaves alone. -/
theorem adjustSimilarityGroup_frame (h : s.adjustSimilarityGroup cfg i = some s') :
    s'.taskCts = s.taskCts ∧ s'.ct = s.ct ∧ s'.deadTasks = s.deadTasks ∧
      s'.bestCosts = s.bestCosts ∧ s'.taskCostsHistory = s.taskCostsHistory := by
  rcases adjustSimilarityGroup_cases h with rfl | ⟨group, ids, -, -, rfl⟩ <;>
    exact ⟨rfl, rfl, rfl, rfl, rfl⟩

theorem restoreRecord_cases [NeZero n] (cfg : SchedulerConfig n K) (s : TaskScheduler n K)
    (record : TuningRecord K) :
    s.restoreRecord cfg record = s ∨ ∃ taskCts taskBestCts i cost, s.restoreRecord cfg record =
      { s with
        taskCts := taskCts
        taskBestCts := taskBestCts
        bestCosts := update s.bestCosts i cost } ∧
      (cost = s.bestCosts i ∨ cost = arrayMean record.costs ∧ cost < s.bestCosts i) := by
  unfold TaskScheduler.restoreRecord
  split_ifs
  · exact .inl rfl
  · split
    · exact .inl rfl
    · rename_i i _
      dsimp only
      split_ifs with hcost
      · exact .inr ⟨_, _, i, _, rfl, .inr ⟨rfl, hcost.2⟩⟩
      · refine .inr ⟨update s.taskCts i (s.taskCts i + 1), s.taskBestCts, i,
          s.bestCosts i, ?_, .inl rfl⟩
        rw [update_eq_self]

theorem foldl_restoreRecord_frame [NeZero n] (cfg : SchedulerConfig n K)
    (s : TaskScheduler n K) (log : List (TuningRecord K)) :
    let s' := log.foldl (TaskScheduler.restoreRecord cfg) s
    s'.ct = s.ct ∧ s'.taskCostsHistory = s.taskCostsHistory ∧ s'.taskTags = s.taskTags ∧
      s'.groupTags = s.groupTags ∧ s'.groupTaskIds = s.groupTaskIds := by
  induction log generalizing s with
  | nil => exact ⟨rfl, rfl, rfl, rfl, rfl⟩
  | cons record log ih =>
    rw [List.foldl_cons]
    have hframe := ih (s.restoreRecord cfg record)
    rcases restoreRecord_cases cfg s record with heq | ⟨_, _, _, _, heq, -⟩ <;>
      rw [heq] at hframe ⊢ <;> exact hframe

/-- The end of an iteration stops, or goes to the test of the loop; of the scheduler it
only changes the best score. -/
theorem finishRound_cases (params : TuneParams n) (s : TaskScheduler n K) (i : Fin n) :
    Tuner.finishRound params s i = ⟨s, none⟩ ∨ ∃ bestScore bestCt,
      Tuner.finishRound params s i =
        Tuner.loopTest params { s with bestScore := bestScore, bestCt := bestCt } (some i) := by
  unfold Tuner.finishRound
  split_ifs
  · exact .inr ⟨_, _, rfl⟩
  · exact .inl rfl
  · exact .inr ⟨s.bestScore, s.bestCt, rfl⟩

omit [Field K] [LinearOrder K] in
theorem warmUp_cases (params : TuneParams n) (s : TaskScheduler n K) (start : ℕ) :
    (∃ i, Tuner.warmUp params s start = ⟨s, some (params, .warmUp i)⟩ ∧ start ≤ i.val ∧
      s.taskCts i = 0 ∧ ∀ j : Fin n, start ≤ j.val → j < i → 1 ≤ s.taskCts j) ∨
    (Tuner.warmUp params s start =
        Tuner.loopTest params { s with bestCt := s.ct, bestScore := s.curScore } none ∧
      ∀ j : Fin n, start ≤ j.val → 1 ≤ s.taskCts j) := by
  unfold Tuner.warmUp
  split
  · rename_i i hfind
    obtain ⟨hi, k, hk, hget, hfirst⟩ := List.find?_eq_some_iff_getElem.mp hfind
    rw [List.getElem_finRange] at hget
    simp only [decide_eq_true_iff] at hi
    refine .inl ⟨i, rfl, hi.1, hi.2, fun j hstart hji => ?_⟩
    have hj := hfirst j.val (by rw [← hget] at hji; exact hji)
    simp only [List.getElem_finRange, Bool.not_eq_true', decide_eq_false_iff_not] at hj
    exact Nat.one_le_iff_ne_zero.mpr fun hzero => hj ⟨hstart, hzero⟩
  · rename_i hfind
    refine .inr ⟨rfl, fun j hstart => ?_⟩
    have hj := List.find?_eq_none.mp hfind j (List.mem_finRange j)
    simp only [decide_eq_true_iff] at hj
    exact Nat.one_le_iff_ne_zero.mpr fun hzero => hj ⟨hstart, hzero⟩

theorem round_cases [NeZero n] (h : m.round cfg r = some m') :
    (∃ params i, m.running = some (params, .warmUp i) ∧
      m' = Tuner.warmUp params (m.scheduler.tuneTask cfg params i r) (i + 1)) ∨
    ∃ params last i s, m.running = some (params, .loop last) ∧
      m.scheduler.chooseTask cfg last r.choice = some i ∧
      (m.scheduler.tuneTask cfg params i r).adjustSimilarityGroup cfg i = some s ∧
      m' = Tuner.finishRound params s i := by
  obtain ⟨⟨params, phase⟩, hrunning, h⟩ := bind_eq_some_iff.mp h
  cases phase with
  | warmUp i => exact .inl ⟨params, i, hrunning, (some.inj h).symm⟩
  | loop last =>
    obtain ⟨i, hi, s, hs, h⟩ := bind₂_eq_some.mp h
    exact .inr ⟨params, last, i, s, hrunning, hi, hs, (some.inj h).symm⟩

end Pruner.AutoScheduler
