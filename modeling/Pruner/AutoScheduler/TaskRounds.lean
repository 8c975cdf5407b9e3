import Pruner.AutoScheduler.TaskScheduler

/-!
# Rounds of a task scheduler

What holds in every call of `tune`, from any state of the scheduler: how many programs are
measured and how often each task is tuned, and whether a task that is dead can be tuned
again.  With the gradient strategy a dead task has gradient zero, and if all gradients are
zero, the next task is chosen at random among all tasks.

## Main definitions

* `Tuner.Tuned`, `Tuner.Counted` — the tasks that have been tuned and the number of
  measurements in each phase.
* `tune_counts` — the bounds hold in every call.
* `Tuner.Guarded` — no choice can take a dead task, by `guarded_iff`.
* `dead_never_tuned` — calls in which dead tasks are not tuned.
-/

namespace Pruner.AutoScheduler

open Lib List Option TaskScheduler Tuner Nat

variable {option : TuneOption} {n : ℕ} {K : Type}

/-! ## Counting measurements and rounds -/

variable {log : Option (List (TuningRecord K))} {cfg : SchedulerConfig n K} {s : TaskScheduler n K}
  {m m' : Tuner n K} {r : Round n K} {params : TuneParams n}

/-- Before the warm-up of a task the tasks before it have been tuned, and in the loop all of
them. -/
def Tuner.Tuned (m : Tuner n K) : Prop :=
  match m.running with
  | none => True
  | some (_, .warmUp i) => ∀ j < i, 1 ≤ m.scheduler.taskCts j
  | some (_, .loop _) => ∀ j, 1 ≤ m.scheduler.taskCts j

/-- Before the warm-up of task `i` at most `i` rounds have been measured; in the loop there
are trials left; at the end the last round may have exceeded them. -/
def Tuner.Counted (params : TuneParams n) (m : Tuner n K) : Prop :=
  match m.running with
  | none => (m.scheduler.ct : ℤ) ≤ params.numMeasureTrials + params.numMeasuresPerRound - 1
  | some (p, .warmUp i) => p = params ∧ m.scheduler.ct ≤ i * params.numMeasuresPerRound
  | some (p, .loop _) => p = params ∧ (m.scheduler.ct : ℤ) < params.numMeasureTrials

theorem tuned_loopTest {last : Option (Fin n)} (hcts : ∀ j, 1 ≤ s.taskCts j) :
    (loopTest params s last).Tuned := by
  unfold Tuned loopTest
  split_ifs with h
  · exact hcts
  · trivial

theorem tuned_warmUp {start : ℕ} (hcts : ∀ j : Fin n, j.val < start → 1 ≤ s.taskCts j) :
    (warmUp params s start).Tuned := by
  rcases warmUp_cases params s start with ⟨i, heq, -, -, hbefore⟩ | ⟨heq, hall⟩ <;> rw [heq]
  · intro j hj
    by_cases hjs : j.val < start
    · exact hcts j hjs
    · exact hbefore j (not_lt.mp hjs) hj
  · refine tuned_loopTest fun j => ?_
    by_cases hjs : j.val < start
    · exact hcts j hjs
    · exact hall j (not_lt.mp hjs)

theorem counted_loopTest {last : Option (Fin n)}
    (hct : (s.ct : ℤ) ≤ params.numMeasureTrials + params.numMeasuresPerRound - 1) :
    (loopTest params s last).Counted params := by
  unfold Counted loopTest
  split_ifs with h
  · exact ⟨rfl, h.1⟩
  · exact hct

/-- The warm-up of the tasks from `start` on, after at most as many rounds. -/
theorem counted_warmUp {start : ℕ} (hstart : start ≤ n)
    (hct : s.ct ≤ start * params.numMeasuresPerRound) :
    (warmUp params s start).Counted params ∧ (s.ct : ℤ) ≤ params.numMeasureTrials := by
  have htrials : (s.ct : ℤ) ≤ params.numMeasureTrials := by
    have hle := hct.trans (mul_le_mul_right params.numMeasuresPerRound hstart)
    have hwarm := params.warmUp_le
    have hcast : (s.ct : ℤ) ≤ n * params.numMeasuresPerRound := by exact_mod_cast hle
    exact hcast.trans hwarm
  refine ⟨?_, htrials⟩
  rcases warmUp_cases params s start with ⟨i, heq, hi, -⟩ | ⟨heq, -⟩ <;> rw [heq]
  · exact ⟨rfl, hct.trans (mul_le_mul_right _ hi)⟩
  · have hpos := params.perRound_pos
    exact counted_loopTest (by simp only; omega)

theorem ct_warmUp (params : TuneParams n) (s : TaskScheduler n K) (start : ℕ) :
    (warmUp params s start).scheduler.ct = s.ct := by
  rcases warmUp_cases params s start with ⟨_, heq, -⟩ | ⟨heq, -⟩
  · rw [heq]
  · rw [heq]
    rfl

theorem Tuner.Counted.ct_le (h : m.Counted params) :
    (m.scheduler.ct : ℤ) ≤ params.numMeasureTrials + params.numMeasuresPerRound - 1 := by
  have hpos := params.perRound_pos
  unfold Counted at h
  split at h
  · exact h
  · rename_i i _
    have hle := (counted_warmUp (s := m.scheduler) i.isLt.le h.2).2
    omega
  · omega

variable [Field K] [LinearOrder K]

theorem taskCts_le_tuneTask (cfg : SchedulerConfig n K) (params : TuneParams n)
    (s : TaskScheduler n K) (i j : Fin n) (r : Round n K) :
    s.taskCts j ≤ (s.tuneTask cfg params i r).taskCts j := by
  by_cases h : j = i
  · subst h
    simp [tuneTask]
  · simp [tuneTask, h]

theorem ct_tuneTask (cfg : SchedulerConfig n K) (params : TuneParams n)
    (s : TaskScheduler n K) (i : Fin n) (r : Round n K) :
    (s.tuneTask cfg params i r).ct = s.ct + r.numInputs := rfl

theorem tuned_startTune [NeZero n] (h : startTune cfg s option log = some m) : m.Tuned := by
  obtain ⟨p, -, rfl⟩ := map_eq_some_iff.mp h
  exact tuned_warmUp fun j hj => absurd hj (not_lt_zero _)

theorem Tuner.Tuned.round [NeZero n] (h : m.Tuned) (hround : m.round cfg r = some m') :
    m'.Tuned := by
  rcases round_cases hround with ⟨p, i, hrunning, rfl⟩ | ⟨p, last, i, s, hrunning, -, hs, rfl⟩
  · simp only [Tuned, hrunning] at h
    refine tuned_warmUp fun j hj => ?_
    rcases (Nat.lt_succ_iff.mp hj).lt_or_eq with hlt | heq
    · exact (h j hlt).trans (taskCts_le_tuneTask cfg p _ i j r)
    · rw [Fin.ext heq]
      simp [tuneTask]
  · simp only [Tuned, hrunning] at h
    have hcts : ∀ j, 1 ≤ s.taskCts j := by
      intro j
      rw [(adjustSimilarityGroup_frame hs).1]
      exact (h j).trans (taskCts_le_tuneTask cfg p _ i j r)
    rcases finishRound_cases p s i with heq | ⟨bestScore, bestCt, heq⟩ <;> rw [heq]
    · trivial
    · exact tuned_loopTest hcts

theorem Tuner.Counted.round [NeZero n] (h : m.Counted params)
    (hr : r.numInputs ≤ params.numMeasuresPerRound) (hround : m.round cfg r = some m') :
    m'.Counted params ∧ m'.scheduler.ct = m.scheduler.ct + r.numInputs ∧
      ∀ p i, m.running = some (p, .warmUp i) → (m'.scheduler.ct : ℤ) ≤ params.numMeasureTrials := by
  rcases round_cases hround with ⟨p, i, hrunning, rfl⟩ | ⟨p, last, i, s, hrunning, hi, hs, rfl⟩
  · simp only [Counted, hrunning] at h
    obtain ⟨rfl, hct⟩ := h
    have hct' : (m.scheduler.tuneTask cfg p i r).ct ≤ (i + 1) * p.numMeasuresPerRound := by
      rw [ct_tuneTask, succ_mul]
      omega
    obtain ⟨hcounted, hle⟩ := counted_warmUp i.isLt hct'
    rw [ct_warmUp]
    exact ⟨hcounted, rfl, fun _ _ _ => hle⟩
  · simp only [Counted, hrunning] at h
    obtain ⟨rfl, hct⟩ := h
    have hctEq := (adjustSimilarityGroup_frame hs).2.1
    rw [ct_tuneTask] at hctEq
    have hct' : (s.ct : ℤ) ≤ p.numMeasureTrials + p.numMeasuresPerRound - 1 := by omega
    have hloop : ∀ q j, m.running = some (q, .warmUp j) → False := by
      intro q j hq
      rw [hrunning] at hq
      simp at hq
    rcases finishRound_cases p s i with heq | ⟨bestScore, bestCt, heq⟩ <;> rw [heq]
    · exact ⟨hct', hctEq, fun q j hq => (hloop q j hq).elim⟩
    · exact ⟨counted_loopTest hct', hctEq, fun q j hq => (hloop q j hq).elim⟩

theorem counted_startTune [NeZero n] (hparams : TuneParams.ofOption n option = some params)
    (h : startTune cfg s option log = some m) :
    m.Counted params ∧ m.scheduler.ct = 0 := by
  obtain ⟨p, hp, rfl⟩ := map_eq_some_iff.mp h
  obtain rfl : p = params := some.inj (hp.symm.trans hparams)
  have hct : ∀ s' : TaskScheduler n K, s'.ct = 0 →
      (warmUp p s' 0).Counted p ∧ (warmUp p s' 0).scheduler.ct = 0 := by
    intro s' hzero
    refine ⟨(counted_warmUp (zero_le n) (by omega)).1, ?_⟩
    rw [ct_warmUp, hzero]
  cases log with
  | none => exact hct _ rfl
  | some log => exact hct _ (foldl_restoreRecord_frame cfg _ log).1

theorem Tuner.Counted.run [NeZero n] {rounds : List (Round n K)} (h : m.Counted params)
    (hrounds : ∀ r ∈ rounds, r.numInputs ≤ params.numMeasuresPerRound)
    (hrun : rounds.foldlM (Tuner.round cfg) m = some m') :
    m'.Counted params ∧ m'.scheduler.ct = m.scheduler.ct + (rounds.map (·.numInputs)).sum := by
  refine foldlM_run (p := []) (fun pre (m' : Tuner n K) => m'.Counted params ∧
    m'.scheduler.ct = m.scheduler.ct + (pre.map (·.numInputs)).sum)
    (fun pre r hr m₁ m₂ h₁ hround => ?_) ⟨h, rfl⟩ hrun
  obtain ⟨h₂, hct, -⟩ := h₁.1.round (hrounds r hr) hround
  refine ⟨h₂, ?_⟩
  rw [hct, h₁.2, map_append, List.sum_append, map_singleton, sum_singleton, add_assoc]

/-- **Measurements and rounds.**  In a call of `tune` whose search rounds return at most
`num_measures_per_round` inputs, from any state of the scheduler and with any log: `ct` is
the number of measured inputs and exceeds the trials by less than a round, the warm-up does
not exceed them, and in the loop every task has been tuned. -/
theorem tune_counts [NeZero n] {option : TuneOption} {log : Option (List (TuningRecord K))}
    {rounds : List (Round n K)} (hparams : TuneParams.ofOption n option = some params)
    (hstart : Tuner.startTune cfg s option log = some m)
    (hrounds : ∀ r ∈ rounds, r.numInputs ≤ params.numMeasuresPerRound)
    (hrun : rounds.foldlM (Tuner.round cfg) m = some m') :
    m'.scheduler.ct = (rounds.map (·.numInputs)).sum ∧
      (m'.scheduler.ct : ℤ) ≤ params.numMeasureTrials + params.numMeasuresPerRound - 1 ∧
      (∀ p i, m'.running = some (p, .warmUp i) → ∀ r m'',
        r.numInputs ≤ params.numMeasuresPerRound → m'.round cfg r = some m'' →
          (m''.scheduler.ct : ℤ) ≤ params.numMeasureTrials) ∧
      ∀ p last, m'.running = some (p, .loop last) → ∀ i, 1 ≤ m'.scheduler.taskCts i := by
  obtain ⟨hcounted, hzero⟩ := counted_startTune hparams hstart
  obtain ⟨hcounted', hct⟩ := hcounted.run hrounds hrun
  rw [hzero, zero_add] at hct
  have htuned : m'.Tuned :=
    foldlM_invariant Tuner.Tuned (fun _ _ _ _ h hround => h.round hround)
      (tuned_startTune hstart) hrun
  refine ⟨hct, hcounted'.ct_le, fun p i hi r m'' hr hround => ?_, fun p last hlast => ?_⟩
  · exact (hcounted'.round hr hround).2.2 p i hi
  · simpa only [Tuner.Tuned, hlast] using htuned

/-! ## Two tasks -/

/-- Two tasks without similarity tags, tuned by the gradient of an objective. -/
def twoTasks (objectiveFunc : (Fin 2 → ℚ) → ℚ) : SchedulerConfig 2 ℚ where
  tasks := fun i => ⟨[], 100, toString i, "cuda"⟩
  objectiveFunc := objectiveFunc
  strategy := .gradient
  alpha := 1 / 5
  beta := 2
  backwardWindowSize := 3

def newScheduler (cfg : SchedulerConfig 2 ℚ) : TaskScheduler 2 ℚ where
  taskCts := fun _ => 0
  taskBestCts := fun _ => 0
  taskCostsHistory := fun _ => []
  bestCosts := fun _ => 10 ^ 10
  curScore := cfg.objectiveFunc fun _ => 10 ^ 10
  ct := 0
  bestCt := 0
  bestScore := cfg.objectiveFunc fun _ => 10 ^ 10
  deadTasks := ∅
  taskTags := fun _ => some ""
  groupTags := []
  groupTaskIds := []

example (objectiveFunc : (Fin 2 → ℚ) → ℚ) : TaskScheduler.init id (twoTasks objectiveFunc) =
      some (newScheduler (twoTasks objectiveFunc)) := rfl

/-- Four trials, one program a round. -/
def fourTrials : TuneOption := ⟨4, 1, -1, none⟩

/-- A round that measures one program, and one that finds no new program. -/
def measuredRound (choice : Fin 2) (cost : ℚ) : Round 2 ℚ := ⟨choice, 1, [⟨[cost], by simp⟩]⟩

def emptyRound (choice : Fin 2) : Round 2 ℚ := ⟨choice, 0, []⟩

/-- Two tasks tuned by their total cost: the second one is exhausted after the warm-up. -/
def totalCost : SchedulerConfig 2 ℚ := twoTasks fun costs => costs 0 + costs 1

theorem tune_counts_totalCost : ∃ params m m',
    TuneParams.ofOption 2 fourTrials = some params ∧
      startTune totalCost (newScheduler totalCost) fourTrials none = some m ∧
      [measuredRound 0 5, emptyRound 0, measuredRound 0 4].foldlM (Tuner.round totalCost) m =
        some m' ∧
      m'.scheduler.ct = 2 ∧
      (m'.scheduler.ct : ℤ) ≤ params.numMeasureTrials + params.numMeasuresPerRound - 1 := by
  obtain ⟨params, hparams, hone⟩ := map_eq_some_iff.mp
    (show (TuneParams.ofOption 2 fourTrials).map (·.numMeasuresPerRound) = some 1 from rfl)
  have hrun : ((startTune totalCost (newScheduler totalCost) fourTrials none).bind
      ([measuredRound 0 5, emptyRound 0, measuredRound 0 4].foldlM
        (Tuner.round totalCost))).isSome := by decide +kernel
  obtain ⟨m', hrun⟩ := isSome_iff_exists.mp hrun
  obtain ⟨m, hstart, hrun⟩ := bind_eq_some_iff.mp hrun
  have hrounds : ∀ r ∈ [measuredRound 0 5, emptyRound 0, measuredRound 0 4],
      r.numInputs ≤ params.numMeasuresPerRound := by
    rw [hone]
    decide
  obtain ⟨hct, hle, -⟩ := tune_counts hparams hstart hrounds hrun
  exact ⟨params, m, m', hparams, hstart, hrun, hct, hle⟩

/-! ## Dead tasks -/

variable [NeZero n] {dead : Finset (Fin n)}

theorem val_iterate_add_one (i : Fin n) (k : ℕ) : ((· + 1)^[k] i).val = (i.val + k) % n := by
  induction k with
  | zero => simp [mod_eq_of_lt i.isLt]
  | succ k ih =>
    rw [Function.iterate_succ_apply', Fin.val_add, ih, Fin.val_one', ← add_mod, add_assoc]

theorem mem_of_nextLive_mem {fuel : ℕ} {i : Fin n} (h : TaskScheduler.nextLive dead fuel i ∈ dead) :
    ∀ k ≤ fuel, (· + 1)^[k] i ∈ dead := by
  induction fuel generalizing i with
  | zero =>
    intro k hk
    rw [le_zero.mp hk]
    exact h
  | succ fuel ih =>
    intro k hk
    rw [nextLive] at h
    split_ifs at h with hi
    · cases k with
      | zero => exact hi
      | succ k =>
        exact ih h k (le_of_succ_le_succ hk)
    · exact absurd h hi

theorem nextLive_notMem (hcard : dead.card < n) (i : Fin n) :
    TaskScheduler.nextLive dead n i ∉ dead := by
  intro hmem
  have hall : ∀ j, j ∈ dead := by
    intro j
    have hn : 0 < n := pos_of_neZero n
    have hj := mem_of_nextLive_mem hmem ((j.val + n - i.val) % n) (mod_lt _ hn).le
    convert hj
    ext
    rw [val_iterate_add_one, add_mod_mod, Nat.add_sub_cancel' (by omega),
      add_mod_right, mod_eq_of_lt j.isLt]
  rw [Finset.eq_univ_of_forall hall, Finset.card_univ, Fintype.card_fin] at hcard
  exact hcard.false

omit [NeZero n] in
theorem gradients_apply {grads : Fin n → Ext K} (h : s.gradients cfg = some grads) (i : Fin n) :
    (i ∈ s.deadTasks → grads i = .fin 0) ∧ (i ∉ s.deadTasks → s.gradient cfg i = some (grads i)) ∧
      Ext.le (grads i) (.fin 0) = true := by
  have hi : s.gradientOf cfg i = some (grads i) := by
    unfold gradients at h
    split_ifs at h with hall
    rw [← some.inj h, some_get]
  unfold gradientOf at hi
  split_ifs at hi with hdead
  · have hzero := (some.inj hi).symm
    refine ⟨fun _ => hzero, fun hlive => absurd hdead hlive, ?_⟩
    rw [hzero, Ext.le_fin, decide_eq_true_iff]
  · obtain ⟨hgrad, hle⟩ := filter_eq_some_iff.mp hi
    exact ⟨fun h => absurd h hdead, fun _ => hgrad, hle⟩

theorem eq_zero_of_chooseByGradient {grads : Fin n → Ext K} {choice : Fin n}
    (hle : ∀ i, Ext.le (grads i) (.fin 0) = true)
    (hzero : grads (TaskScheduler.chooseByGradient grads choice) = .fin 0) (j : Fin n) :
    grads j = .fin 0 := by
  have hnan : ∀ i, grads i ≠ .nan := fun i => Ext.ne_nan_of_le (hle i)
  have hmem : ∀ i, i ∈ 0 :: finRange n := fun i =>
    mem_cons_of_mem _ (mem_finRange i)
  have hmin : ∀ i, Ext.lt (grads i) (grads (Ext.argMin grads 0 (finRange n))) = false :=
    fun i => Ext.not_lt_argMin (fun x _ => hnan x) i (hmem i)
  have hmax : ∀ i, Ext.lt (grads (Ext.argMax grads 0 (finRange n))) (grads i) = false :=
    fun i => Ext.not_argMax_lt (fun x _ => hnan x) i (hmem i)
  unfold chooseByGradient at hzero
  split_ifs at hzero with heq
  · have hall : ∀ i, grads i = grads (Ext.argMin grads 0 (finRange n)) := fun i =>
      Ext.eq_of_not_lt (hnan i) (hnan _) (hmin i) (heq ▸ hmax i)
    rw [hall j, ← hall choice, hzero]
  · exact Ext.eq_of_le_of_not_lt (hle j) (hzero ▸ hmin j)

/-- No dead task can be tuned next: the task to warm up is not dead, and in the loop the
tasks are taken in turn, or none is dead, or one that is not has a gradient other than
zero. -/
def Phase.Guarded (cfg : SchedulerConfig n K) (s : TaskScheduler n K) : Phase n → Prop
  | .warmUp i => i ∉ s.deadTasks
  | .loop _ => cfg.strategy = .roundRobin ∨ s.deadTasks = ∅ ∨
      ∃ i, i ∉ s.deadTasks ∧ s.gradient cfg i ≠ some (.fin 0)

instance (cfg : SchedulerConfig n K) (s : TaskScheduler n K) :
    (phase : Phase n) → Decidable (phase.Guarded cfg s)
  | .warmUp i => inferInstanceAs (Decidable (i ∉ s.deadTasks))
  | .loop _ => inferInstanceAs (Decidable (_ ∨ _ ∨ _))

def Tuner.Guarded (cfg : SchedulerConfig n K) (m : Tuner n K) : Prop :=
  ∀ x ∈ m.running, x.2.Guarded cfg m.scheduler

instance (cfg : SchedulerConfig n K) (m : Tuner n K) : Decidable (m.Guarded cfg) :=
  inferInstanceAs (Decidable (∀ x ∈ m.running, _))

def Tuner.Open (m : Tuner n K) : Prop :=
  ∀ p last, m.running = some (p, .loop last) → m.scheduler.deadTasks.card < n

theorem guarded_iff (hopen : m.Open) :
    m.Guarded cfg ↔ ∀ choice i, m.target cfg choice = some i → i ∉ m.scheduler.deadTasks := by
  rcases hrunning : m.running with _ | ⟨p, i | last⟩
  · simp [Guarded, target, hrunning]
  · simp [Guarded, Phase.Guarded, target, hrunning]
  · have htarget : ∀ choice, m.target cfg choice = m.scheduler.chooseTask cfg last choice := by
      intro choice
      rw [target, hrunning, bind_some]
    simp only [Guarded, hrunning, mem_some_iff, forall_eq', Phase.Guarded]
    simp only [htarget, chooseTask]
    cases hstrategy : cfg.strategy with
    | roundRobin =>
      simp only [true_or, some.injEq, true_iff]
      rintro choice i rfl
      exact nextLive_notMem (hopen p last hrunning) _
    | gradient =>
      simp only [reduceCtorEq, false_or]
      constructor
      · rintro hguard choice i hi hdead
        obtain ⟨grads, hgrads, rfl⟩ := map_eq_some_iff.mp hi
        have hentry := gradients_apply hgrads
        rcases hguard with hempty | ⟨j, hj, hgrad⟩
        · rw [hempty] at hdead
          exact absurd hdead (Finset.notMem_empty _)
        · have hzero := eq_zero_of_chooseByGradient (fun i => (hentry i).2.2)
            ((hentry _).1 hdead) j
          exact hgrad (by rw [(hentry j).2.1 hj, hzero])
      · intro hlive
        by_contra hguard
        simp only [not_or, not_exists, not_and, not_not] at hguard
        obtain ⟨hne, hzero⟩ := hguard
        obtain ⟨i, hi⟩ := Finset.nonempty_iff_ne_empty.mpr hne
        have hentry : ∀ j, m.scheduler.gradientOf cfg j = some (.fin 0) := by
          intro j
          unfold gradientOf
          split_ifs with hj
          · rfl
          · rw [hzero j hj]
            simp [Option.filter]
        have hgrads : m.scheduler.gradients cfg = some fun _ => .fin 0 := by
          unfold gradients
          simp [hentry]
        refine hlive i i ?_ hi
        rw [hgrads, map_some, chooseByGradient, if_pos rfl]

omit [NeZero n] [Field K] [LinearOrder K] in
theorem open_loopTest (params : TuneParams n) (s : TaskScheduler n K) (last : Option (Fin n)) :
    (loopTest params s last).Open := by
  intro p last' h
  simp only [loopTest] at h
  split_ifs at h with hloop
  exact hloop.2

omit [NeZero n] [Field K] [LinearOrder K] in
theorem open_warmUp (params : TuneParams n) (s : TaskScheduler n K) (start : ℕ) :
    (warmUp params s start).Open := by
  rcases warmUp_cases params s start with ⟨i, heq, -⟩ | ⟨heq, -⟩ <;> rw [heq]
  · intro p last h
    simp at h
  · exact open_loopTest _ _ _

theorem open_startTune (h : startTune cfg s option log = some m) : m.Open := by
  obtain ⟨p, -, rfl⟩ := map_eq_some_iff.mp h
  exact open_warmUp _ _ _

theorem open_round (h : m.round cfg r = some m') : m'.Open := by
  rcases round_cases h with ⟨p, i, -, rfl⟩ | ⟨p, last, i, s, -, -, -, rfl⟩
  · exact open_warmUp _ _ _
  · rcases finishRound_cases p s i with heq | ⟨_, _, heq⟩ <;> rw [heq]
    · intro p last h
      simp at h
    · exact open_loopTest _ _ _

omit [NeZero n] in
theorem deadTasks_subset_tuneTask (cfg : SchedulerConfig n K) (params : TuneParams n)
    (s : TaskScheduler n K) (i : Fin n) (r : Round n K) :
    s.deadTasks ⊆ (s.tuneTask cfg params i r).deadTasks := by
  unfold tuneTask
  dsimp only
  split_ifs
  · exact Finset.subset_insert _ _
  · exact Finset.Subset.refl _

theorem deadTasks_subset_round (h : m.round cfg r = some m') :
    m.scheduler.deadTasks ⊆ m'.scheduler.deadTasks := by
  rcases round_cases h with ⟨p, i, -, rfl⟩ | ⟨p, last, i, s, -, -, hs, rfl⟩
  · have hsub := deadTasks_subset_tuneTask cfg p m.scheduler i r
    rcases warmUp_cases p (m.scheduler.tuneTask cfg p i r) (i + 1) with ⟨_, heq, -⟩ | ⟨heq, -⟩ <;>
      rw [heq] <;> exact hsub
  · have hsub := deadTasks_subset_tuneTask cfg p m.scheduler i r
    rw [← (adjustSimilarityGroup_frame hs).2.2.1] at hsub
    rcases finishRound_cases p s i with heq | ⟨_, _, heq⟩ <;> rw [heq] <;> exact hsub

/-- **Dead tasks.**  In a call of `tune` in which the guard holds before every round, a
task that is dead is never tuned again. -/
theorem dead_never_tuned {option : TuneOption} {log : Option (List (TuningRecord K))}
    {m₀ m₁ m₂ : Tuner n K} {rounds₁ rounds₂ : List (Round n K)}
    (hstart : startTune cfg s option log = some m₀)
    (h₁ : rounds₁.foldlM (Tuner.round cfg) m₀ = some m₁)
    (h₂ : rounds₂.foldlM (Tuner.round cfg) m₁ = some m₂)
    (hguard : ∀ rounds m, rounds <+: rounds₁ ++ rounds₂ →
      rounds.foldlM (Tuner.round cfg) m₀ = some m → m.Guarded cfg)
    {i : Fin n} (hi : i ∈ m₁.scheduler.deadTasks) (choice : Fin n) :
    m₂.target cfg choice ≠ some i := by
  intro htarget
  have hrun : (rounds₁ ++ rounds₂).foldlM (Tuner.round cfg) m₀ = some m₂ :=
    foldlM_append_eq_some.mpr ⟨m₁, h₁, h₂⟩
  have hopen : m₂.Open :=
    foldlM_invariant Open (fun _ _ _ _ _ h => open_round h) (open_startTune hstart) hrun
  have hdead : i ∈ m₂.scheduler.deadTasks :=
    foldlM_invariant (fun m : Tuner n K => i ∈ m.scheduler.deadTasks)
      (fun _ _ _ _ hs h => deadTasks_subset_round h hs) hi h₂
  have hlive := (guarded_iff hopen).mp (hguard _ m₂ (prefix_refl _) hrun)
  exact hlive choice i htarget hdead

/-- The first task is exhausted in the warm-up, and the second one is tuned from then on. -/
theorem dead_never_tuned_totalCost : ∃ m₀ m₁ m₂,
    startTune totalCost (newScheduler totalCost) fourTrials none = some m₀ ∧
      [emptyRound 0, measuredRound 0 5].foldlM (Tuner.round totalCost) m₀ = some m₁ ∧
      [measuredRound 0 4].foldlM (Tuner.round totalCost) m₁ = some m₂ ∧
      0 ∈ m₁.scheduler.deadTasks ∧ m₂.target totalCost 0 ≠ some 0 := by
  have hguard : ∀ m₀ ∈ startTune totalCost (newScheduler totalCost) fourTrials none,
      ∀ rounds ∈ [emptyRound 0, measuredRound 0 5, measuredRound 0 4].inits,
        ∀ m ∈ rounds.foldlM (Tuner.round totalCost) m₀, m.Guarded totalCost := by
    decide +kernel
  have hrun : ∃ m₀ ∈ startTune totalCost (newScheduler totalCost) fourTrials none,
      ∃ m₁ ∈ [emptyRound 0, measuredRound 0 5].foldlM (Tuner.round totalCost) m₀,
        0 ∈ m₁.scheduler.deadTasks ∧
          ([measuredRound 0 4].foldlM (Tuner.round totalCost) m₁).isSome := by
    decide +kernel
  obtain ⟨m₀, hstart, m₁, h₁, hdead, hrun⟩ := hrun
  obtain ⟨m₂, h₂⟩ := isSome_iff_exists.mp hrun
  refine ⟨m₀, m₁, m₂, hstart, h₁, h₂, hdead, ?_⟩
  refine dead_never_tuned hstart h₁ h₂ (fun rounds m hrounds hm => ?_) hdead 0
  exact hguard m₀ hstart rounds ((mem_inits _ _).mpr hrounds) m hm

/-- Two tasks of which only the first one counts. -/
def firstCost : SchedulerConfig 2 ℚ := twoTasks fun costs => costs 0

/-- When the task that counts is exhausted, all gradients are zero and it can be chosen
again. -/
theorem dead_tuned_firstCost : ∃ m₀ m₁,
    startTune firstCost (newScheduler firstCost) fourTrials none = some m₀ ∧
      [emptyRound 0, measuredRound 0 5].foldlM (round firstCost) m₀ = some m₁ ∧
      0 ∈ m₁.scheduler.deadTasks ∧ m₁.target firstCost 0 = some 0 ∧
      (m₁.round firstCost (measuredRound 0 4)).isSome := by
  have hrun : ∃ m₀ ∈ startTune firstCost (newScheduler firstCost) fourTrials none,
      ∃ m₁ ∈ [emptyRound 0, measuredRound 0 5].foldlM (round firstCost) m₀,
        0 ∈ m₁.scheduler.deadTasks ∧ m₁.target firstCost 0 = some 0 ∧
          (m₁.round firstCost (measuredRound 0 4)).isSome := by
    decide +kernel
  obtain ⟨m₀, hstart, m₁, h₁, hrest⟩ := hrun
  exact ⟨m₀, m₁, hstart, h₁, hrest⟩

end Pruner.AutoScheduler
