import Mathlib.Tactic.Positivity
import Pruner.AutoScheduler.TaskRounds

/-!
# The gradients of a task scheduler

With the gradient strategy every iteration computes a gradient for each task that is not
dead, and asserts that it is not positive.  It never is: best costs only decrease, so the
history of a task does not increase, and the predicted cost of a task is below its best
cost.  A run here is any sequence of calls of `tune` on one scheduler.

## Main definitions

* `TaskScheduler.Healthy` — best costs, histories and similarity groups of a scheduler.
* `gradient_nonpos` — the assertion holds and no list is read out of range.
-/

namespace Pruner.AutoScheduler

open Lib List Option TaskScheduler Tuner

variable {logFlop : ℤ → ℤ} {n : ℕ} {K : Type} [Field K] [LinearOrder K] {i : Fin n}
  {cfg : SchedulerConfig n K} {s s' : TaskScheduler n K}

/-! ## Similarity groups -/

/-- The groups after the tasks `seen`: each of them is in the group of its tag. -/
structure Groups.Inv (tags : Fin n → String) (seen : List (Fin n)) (groups : Groups n) : Prop where
  length_eq : groups.taskIds.length = groups.tags.length
  ne_empty : "" ∉ groups.tags
  covered : ∀ i ∈ seen, tags i ≠ "" → tags i ∈ groups.tags
  mem : ∀ i ∈ seen, ∀ ids, tags i ∈ groups.tags →
    groups.taskIds[groups.tags.idxOf (tags i)]? = some ids → i ∈ ids
  nodup : ∀ ids ∈ groups.taskIds, ids.Nodup
  seen : ∀ ids ∈ groups.taskIds, ∀ j ∈ ids, j ∈ seen

theorem Groups.Inv.nil (tags : Fin n → String) : (⟨[], []⟩ : Groups n).Inv tags [] where
  length_eq := rfl
  ne_empty := not_mem_nil
  covered := by simp
  mem := by simp
  nodup := by simp
  seen := by simp

section

variable {tags : Fin n → String} {seen : List (Fin n)} {groups : Groups n}
  (h : groups.Inv tags seen)
include h

theorem Groups.Inv.skip (htag : tags i = "") : groups.Inv tags (seen ++ [i]) where
  length_eq := h.length_eq
  ne_empty := h.ne_empty
  covered := forall_mem_append.mpr ⟨h.covered, forall_mem_singleton.mpr fun hne => absurd htag hne⟩
  mem := by
    refine forall_mem_append.mpr ⟨h.mem, forall_mem_singleton.mpr fun ids hmem => ?_⟩
    rw [htag] at hmem
    exact absurd hmem h.ne_empty
  nodup := h.nodup
  seen := fun ids hids j hj => mem_append_left _ (h.seen ids hids j hj)

theorem Groups.Inv.join (hi : i ∉ seen) (htag : tags i ∈ groups.tags) :
    Groups.Inv tags (seen ++ [i]) { groups with
      taskIds := groups.taskIds.modify (groups.tags.idxOf (tags i)) (· ++ [i]) } where
  length_eq := by rw [length_modify, h.length_eq]
  ne_empty := h.ne_empty
  covered := forall_mem_append.mpr ⟨h.covered, forall_mem_singleton.mpr fun _ => htag⟩
  mem := by
    intro j hj ids hmem hids
    rw [getElem?_modify] at hids
    obtain ⟨old, hold, rfl⟩ := map_eq_some_iff.mp hids
    rcases mem_append.mp hj with hj | hj
    · have hj' := h.mem j hj old hmem hold
      split_ifs
      · exact mem_append_left _ hj'
      · exact hj'
    · rw [mem_singleton.mp hj, if_pos rfl]
      exact mem_append_right _ (mem_singleton_self i)
  nodup := by
    intro ids hids
    obtain ⟨k, hk⟩ := mem_iff_getElem?.mp hids
    rw [getElem?_modify] at hk
    obtain ⟨old, hold, rfl⟩ := map_eq_some_iff.mp hk
    have hmem := mem_of_getElem? hold
    split_ifs
    · refine Nodup.append (h.nodup old hmem) (nodup_singleton i) ?_
      exact disjoint_singleton.mpr fun hi' => hi (h.seen old hmem i hi')
    · exact h.nodup old hmem
  seen := by
    intro ids hids j hj
    obtain ⟨k, hk⟩ := mem_iff_getElem?.mp hids
    rw [getElem?_modify] at hk
    obtain ⟨old, hold, rfl⟩ := map_eq_some_iff.mp hk
    have hold' := h.seen old (mem_of_getElem? hold)
    split_ifs at hj
    · exact (mem_append.mp hj).elim (fun hj => mem_append_left _ (hold' j hj)) (mem_append_right _)
    · exact mem_append_left _ (hold' j hj)

/-- A task with a new tag. -/
theorem Groups.Inv.open (hne : tags i ≠ "") (htag : tags i ∉ groups.tags) :
    Groups.Inv tags (seen ++ [i])
      { tags := groups.tags ++ [tags i], taskIds := groups.taskIds ++ [[i]] } where
  length_eq := by simp [h.length_eq]
  ne_empty := by simp [h.ne_empty, hne.symm]
  covered := by
    refine forall_mem_append.mpr ⟨fun j hj hne => ?_, forall_mem_singleton.mpr fun _ => by simp⟩
    exact mem_append_left _ (h.covered j hj hne)
  mem := by
    intro j hj ids hmem hids
    rcases mem_append.mp hj with hj | hj
    · -- The tag of a task seen before is an old one.
      have hjne : tags j ≠ "" := by
        intro hempty
        rw [hempty] at hmem
        simp [h.ne_empty, hne.symm] at hmem
      have hold := h.covered j hj hjne
      have hlt := idxOf_lt_length_iff.mpr hold
      rw [idxOf_append_of_mem hold, getElem?_append_left (h.length_eq ▸ hlt)] at hids
      exact h.mem j hj ids hold hids
    · rw [mem_singleton.mp hj, idxOf_append_of_notMem htag, idxOf_cons_self,
        add_zero, ← h.length_eq, getElem?_concat_length] at hids
      rw [mem_singleton.mp hj, ← some.inj hids]
      exact mem_singleton_self i
  nodup := forall_mem_append.mpr ⟨h.nodup, forall_mem_singleton.mpr (nodup_singleton i)⟩
  seen := forall_mem_append.mpr ⟨fun ids hids j hj => mem_append_left _ (h.seen ids hids j hj),
    forall_mem_singleton.mpr fun j hj => mem_append_right _ hj⟩

theorem Groups.Inv.add (hi : i ∉ seen) : (groups.add tags i).Inv tags (seen ++ [i]) := by
  unfold Groups.add
  split_ifs with hempty hmem
  · exact h.skip hempty
  · exact h.join hi hmem
  · exact h.open hempty hmem

theorem Groups.Inv.foldl {l : List (Fin n)}
    (hl : (seen ++ l).Nodup) : (l.foldl (Groups.add tags) groups).Inv tags (seen ++ l) := by
  induction l generalizing seen groups with
  | nil => rwa [append_nil]
  | cons i l ih =>
    have hi : i ∉ seen := fun hmem => disjoint_of_nodup_append hl hmem mem_cons_self
    rw [append_cons] at hl ⊢
    exact ih (h.add hi) hl

end

/-- Each task is in the group of its tag, and tasks in groups have a number of operations. -/
structure TaskScheduler.GroupsOk (cfg : SchedulerConfig n K) (s : TaskScheduler n K) : Prop where
  length_eq : s.groupTaskIds.length = s.groupTags.length
  mem_group : ∀ i group ids, s.groupOf i = some group → s.groupTaskIds[group]? = some ids → i ∈ ids
  nodup : ∀ ids ∈ s.groupTaskIds, ids.Nodup
  flop_nonneg : ∀ i, (s.groupOf i).isSome → 0 ≤ (cfg.tasks i).flopCt

variable {group : ℕ}

omit [Field K] [LinearOrder K] in
theorem groupOf_eq_some : s.groupOf i = some group ↔
    ∃ tag, s.taskTags i = some tag ∧ tag ∈ s.groupTags ∧ s.groupTags.idxOf tag = group := by
  simp [groupOf, bind_eq_some_iff]

omit [Field K] [LinearOrder K] in
/-- The group of a task can be looked up. -/
theorem TaskScheduler.GroupsOk.exists_ids (h : s.GroupsOk cfg) (hgroup : s.groupOf i = some group) :
    ∃ ids, s.groupTaskIds[group]? = some ids ∧ i ∈ ids ∧ ids.Nodup := by
  obtain ⟨tag, -, hmem, rfl⟩ := groupOf_eq_some.mp hgroup
  have hlt : s.groupTags.idxOf tag < s.groupTaskIds.length :=
    h.length_eq ▸ idxOf_lt_length_iff.mpr hmem
  have hids := getElem?_eq_getElem hlt
  exact ⟨_, hids, h.mem_group i _ _ hgroup hids, h.nodup _ (getElem_mem hlt)⟩

/-- A tag comes with a number of operations. -/
theorem flopCt_nonneg_of_tag {task : TuningTask} {tag : String}
    (h : deriveSimilarityTag logFlop task = some tag) (hne : tag ≠ "") : 0 ≤ task.flopCt := by
  dsimp only [deriveSimilarityTag] at h
  split_ifs at h with hempty hpos
  · exact absurd (some.inj h).symm hne
  · omega

omit [LinearOrder K] in
theorem groupsOk_init (h : init logFlop cfg = some s) : s.GroupsOk cfg := by
  unfold init at h
  split_ifs at h with htags
  cases h
  have hinv := (Groups.Inv.nil fun i =>
    (deriveSimilarityTag logFlop (cfg.tasks i)).get (htags i)).foldl
      (l := List.finRange n) (nodup_finRange n)
  refine ⟨hinv.length_eq, fun i group ids hgroup hids => ?_, hinv.nodup, fun i hsome => ?_⟩
  · obtain ⟨tag, htag, hmem, rfl⟩ := groupOf_eq_some.mp hgroup
    cases htag
    exact hinv.mem i (mem_finRange i) ids hmem hids
  · obtain ⟨group, hgroup⟩ := isSome_iff_exists.mp hsome
    obtain ⟨tag, htag, hmem, -⟩ := groupOf_eq_some.mp hgroup
    exact flopCt_nonneg_of_tag ((some_get (htags i)).symm.trans htag)
      fun hempty => hinv.ne_empty (hempty ▸ hmem)

theorem TaskScheduler.GroupsOk.tuneTask (h : s.GroupsOk cfg) (params : TuneParams n) (i : Fin n)
    (r : Round n K) : (s.tuneTask cfg params i r).GroupsOk cfg :=
  ⟨h.length_eq, h.mem_group, h.nodup, h.flop_nonneg⟩

theorem TaskScheduler.GroupsOk.adjust (h : s.GroupsOk cfg)
    (hadjust : s.adjustSimilarityGroup cfg i = some s') : s'.GroupsOk cfg := by
  rcases adjustSimilarityGroup_cases hadjust with rfl | ⟨group, ids, hgroup, hids, rfl⟩
  · exact h
  · set s' : TaskScheduler n K := { s with
      taskTags := Function.update s.taskTags i none
      groupTaskIds := s.groupTaskIds.set group (ids.erase i) } with hs'
    -- The task itself has no group any more, and the others keep theirs.
    have hself : s'.groupOf i = none := by simp [hs', groupOf]
    have hothers : ∀ j, j ≠ i → s'.groupOf j = s.groupOf j := by
      intro j hj
      simp [hs', groupOf, hj]
    have hne : ∀ j group', s'.groupOf j = some group' → j ≠ i := by
      rintro j group' hj rfl
      rw [hself] at hj
      exact absurd hj (by simp)
    refine ⟨by simp [hs', h.length_eq], fun j group' ids' hj hids' => ?_, fun ids' hids' => ?_,
      fun j hj => ?_⟩
    · have hji := hne j group' hj
      rw [hothers j hji] at hj
      simp only [hs', getElem?_set] at hids'
      split_ifs at hids' with hsame hlt
      · subst hsame
        rw [← some.inj hids']
        exact (mem_erase_of_ne hji).mpr (h.mem_group j group ids hj hids)
      · exact h.mem_group j group' ids' hj hids'
    · rcases mem_or_eq_of_mem_set hids' with hmem | rfl
      · exact h.nodup ids' hmem
      · exact (h.nodup ids (mem_of_getElem? hids)).erase i
    · obtain ⟨group', hgroup'⟩ := isSome_iff_exists.mp hj
      rw [hothers j (hne j group' hgroup')] at hj
      exact h.flop_nonneg j hj

/-- The highest throughput of a group with members. -/
theorem exists_maxFlops (cfg : SchedulerConfig n K) (s : TaskScheduler n K)
    {ids : List (Fin n)} (h : ids ≠ []) :
    ∃ best, s.maxFlops cfg ids = some best := by
  cases ids with
  | nil => exact absurd rfl h
  | cons j ids => exact ⟨_, rfl⟩

theorem TaskScheduler.GroupsOk.exists_adjust (h : s.GroupsOk cfg) (i : Fin n) :
    ∃ s', s.adjustSimilarityGroup cfg i = some s' := by
  unfold adjustSimilarityGroup
  cases hgroup : s.groupOf i with
  | none => exact ⟨s, rfl⟩
  | some group =>
    obtain ⟨ids, hids, hmem, hnodup⟩ := h.exists_ids hgroup
    simp only [hids, bind_eq_bind, bind_some]
    by_cases hlength : ids.length ≤ 1
    · exact ⟨s, if_pos hlength⟩
    · obtain ⟨best, hbest⟩ := exists_maxFlops cfg s (ne_nil_of_mem hmem)
      -- There is another task in the group.
      have hothers : (ids.filter (· ≠ i)).map s.taskCts ≠ [] := by
        intro hnil
        rw [map_eq_nil_iff, filter_eq_nil_iff] at hnil
        have hall : ∀ j ∈ ids, j = i := fun j hj => by simpa using hnil j hj
        have hreplicate := eq_replicate_of_mem hall
        rw [hreplicate] at hnodup
        exact hlength (nodup_replicate.mp hnodup)
      obtain ⟨others, hmax⟩ := isSome_iff_exists.mp
        (isSome_max?_of_ne_nil hothers)
      rw [hbest, bind_some, hmax, bind_some]
      split_ifs <;> exact ⟨_, rfl⟩

/-! ## Best costs and histories -/

/-- Best costs are not negative, histories do not increase and end above the best costs,
and groups are as they should be. -/
structure TaskScheduler.Healthy (cfg : SchedulerConfig n K) (s : TaskScheduler n K) : Prop where
  best_nonneg : ∀ i, 0 ≤ s.bestCosts i
  history_sorted : ∀ i, (s.taskCostsHistory i).Pairwise (· ≥ ·)
  best_le : ∀ i, ∀ cost ∈ s.taskCostsHistory i, s.bestCosts i ≤ cost
  groups : s.GroupsOk cfg

/-- Results that are not negative. -/
def NonnegResults (results : List (Costs K)) : Prop := ∀ res ∈ results, ∀ c ∈ res.1, 0 ≤ c

instance (results : List (Costs K)) : Decidable (NonnegResults results) :=
  inferInstanceAs (Decidable (∀ res ∈ results, _))

theorem TaskScheduler.Healthy.lower (h : s.Healthy cfg)
    (hbest : ∀ j, 0 ≤ s'.bestCosts j ∧ s'.bestCosts j ≤ s.bestCosts j)
    (hhistory : ∀ j, s'.taskCostsHistory j = s.taskCostsHistory j ∨
      s'.taskCostsHistory j = s.taskCostsHistory j ++ [s'.bestCosts j])
    (hgroups : s'.GroupsOk cfg) : s'.Healthy cfg := by
  have hle : ∀ j, ∀ cost ∈ s.taskCostsHistory j, s'.bestCosts j ≤ cost := fun j cost hcost =>
    (hbest j).2.trans (h.best_le j cost hcost)
  refine ⟨fun j => (hbest j).1, fun j => ?_, fun j => ?_, hgroups⟩
  · rcases hhistory j with heq | heq <;> rw [heq]
    · exact h.history_sorted j
    · refine pairwise_append.mpr ⟨h.history_sorted j, pairwise_singleton _ _, ?_⟩
      intro cost hcost last hlast
      rw [mem_singleton.mp hlast]
      exact hle j cost hcost
  · rcases hhistory j with heq | heq <;> rw [heq]
    · exact hle j
    · exact forall_mem_append.mpr ⟨hle j, forall_mem_singleton.mpr le_rfl⟩

theorem TaskScheduler.Healthy.adjust (h : s.Healthy cfg)
    (hadjust : s.adjustSimilarityGroup cfg i = some s') : s'.Healthy cfg := by
  obtain ⟨-, -, -, hbest, hhistory⟩ := adjustSimilarityGroup_frame hadjust
  refine h.lower (fun j => ?_) (fun j => .inl (by rw [hhistory])) (h.groups.adjust hadjust)
  rw [hbest]
  exact ⟨h.best_nonneg j, le_rfl⟩

section

variable [IsStrictOrderedRing K] {params : TuneParams n} {r : Round n K}

theorem arrayMean_nonneg {costs : Costs K} (h : ∀ c ∈ costs.1, 0 ≤ c) : 0 ≤ arrayMean costs :=
  div_nonneg (sum_nonneg h) (Nat.cast_nonneg _)

theorem bestOfResults_spec {cts : ℕ} {best : K × ℕ} {results : List (Costs K)}
    (h : NonnegResults results) (hbest : 0 ≤ best.1) :
    0 ≤ (bestOfResults cts best results).1 ∧ (bestOfResults cts best results).1 ≤ best.1 := by
  induction results generalizing best with
  | nil => exact ⟨hbest, le_rfl⟩
  | cons res results ih =>
    rw [bestOfResults, foldl_cons]
    have hrest : NonnegResults results := (forall_mem_cons.mp h).2
    split_ifs with hlt
    · have hres := arrayMean_nonneg (h res mem_cons_self)
      have hbest' : 0 ≤ (arrayMean res, cts).1 := hres
      obtain ⟨hnonneg, hle⟩ := ih hrest hbest'
      exact ⟨hnonneg, hle.trans hlt.le⟩
    · exact ih hrest hbest

theorem TaskScheduler.Healthy.tuneTask (h : s.Healthy cfg) (hr : NonnegResults r.results) :
    (s.tuneTask cfg params i r).Healthy cfg := by
  have hbest : ∀ cts, 0 ≤ (bestOfResults cts (s.bestCosts i, s.taskBestCts i)
      r.results).1 ∧ (bestOfResults cts (s.bestCosts i, s.taskBestCts i)
        r.results).1 ≤ s.bestCosts i := fun cts => bestOfResults_spec hr (h.best_nonneg i)
  refine h.lower (fun j => ?_) (fun j => ?_) (h.groups.tuneTask params i r)
  · by_cases hj : j = i
    · subst hj
      simpa [TaskScheduler.tuneTask] using hbest _
    · simpa [TaskScheduler.tuneTask, hj] using h.best_nonneg j
  · by_cases hj : j = i
    · subst hj
      exact .inr (by simp [TaskScheduler.tuneTask])
    · exact .inl (by simp [TaskScheduler.tuneTask, hj])

theorem foldl_restoreRecord_best [NeZero n] {log : List (TuningRecord K)}
    (hlog : NonnegResults (log.map (·.costs))) (hbest : ∀ j, 0 ≤ s.bestCosts j) (j : Fin n) :
    0 ≤ (log.foldl (restoreRecord cfg) s).bestCosts j ∧
      (log.foldl (restoreRecord cfg) s).bestCosts j ≤ s.bestCosts j := by
  induction log generalizing s with
  | nil => exact ⟨hbest j, le_rfl⟩
  | cons record log ih =>
    have hmean : 0 ≤ arrayMean record.costs := arrayMean_nonneg (hlog _ mem_cons_self)
    have hone : ∀ k, 0 ≤ (s.restoreRecord cfg record).bestCosts k ∧
        (s.restoreRecord cfg record).bestCosts k ≤ s.bestCosts k := by
      intro k
      rcases restoreRecord_cases cfg s record with heq | ⟨_, _, i, cost, heq, hcost⟩ <;>
        rw [heq]
      · exact ⟨hbest k, le_rfl⟩
      · dsimp only
        by_cases hk : k = i
        · subst hk
          rw [Function.update_self]
          rcases hcost with rfl | ⟨rfl, hlt⟩
          · exact ⟨hbest k, le_rfl⟩
          · exact ⟨hmean, hlt.le⟩
        · rw [Function.update_of_ne hk]
          exact ⟨hbest k, le_rfl⟩
    have hrest := ih (forall_mem_cons.mp hlog).2 fun k => (hone k).1
    exact ⟨hrest.1, hrest.2.trans (hone j).2⟩

theorem TaskScheduler.Healthy.restoreStatus [NeZero n] {log : List (TuningRecord K)}
    (h : s.Healthy cfg) (hlog : NonnegResults (log.map (·.costs))) :
    (s.restoreStatus cfg params log).Healthy cfg := by
  obtain ⟨-, hhistory, htags, hgroupTags, hids⟩ := foldl_restoreRecord_frame cfg s log
  refine h.lower (fun j => foldl_restoreRecord_best hlog h.best_nonneg j) (fun j => .inr ?_) ?_
  · simp [TaskScheduler.restoreStatus, hhistory]
  · have hgroupOf : ∀ j, (s.restoreStatus cfg params log).groupOf j = s.groupOf j := by
      intro j
      simp [groupOf, TaskScheduler.restoreStatus, htags, hgroupTags]
    refine ⟨?_, fun j group ids hj hids' => ?_, fun ids hids' => ?_, fun j hj => ?_⟩
    · simpa only [TaskScheduler.restoreStatus, hids, hgroupTags] using h.groups.length_eq
    · rw [hgroupOf] at hj
      simp only [TaskScheduler.restoreStatus, hids] at hids'
      exact h.groups.mem_group j group ids hj hids'
    · simp only [TaskScheduler.restoreStatus, hids] at hids'
      exact h.groups.nodup ids hids'
    · rw [hgroupOf] at hj
      exact h.groups.flop_nonneg j hj

theorem healthy_init (h : init logFlop cfg = some s) : s.Healthy cfg := by
  have hgroups := groupsOk_init h
  unfold init at h
  split_ifs at h
  cases h
  exact ⟨fun i => by positivity, fun i => Pairwise.nil, fun i cost hcost =>
    absurd hcost not_mem_nil, hgroups⟩

/-! ## The gradient -/

/-- A lower cost does not raise the objective. -/
theorem chainGrad_nonneg (hobj : Monotone cfg.objectiveFunc) : 0 ≤ s.chainGrad cfg i := by
  have hdelta : (0 : K) < 1 / 10 ^ 4 := by positivity
  refine div_nonneg (sub_nonneg.mpr (hobj ?_)) hdelta.le
  exact update_le_self_iff.mpr (sub_le_self _ hdelta.le)

/-- The history is read in range, and it does not increase. -/
theorem exists_backwardGrad (h : s.Healthy cfg) (hwindow : 1 ≤ cfg.backwardWindowSize) :
    ∃ b : K, s.backwardGrad cfg i = some (.fin b) ∧ b ≤ 0 := by
  unfold backwardGrad
  dsimp only
  split_ifs with hrange
  · have hlt : ((s.taskCts i : ℤ) - 1).toNat < (s.taskCostsHistory i).length := by omega
    have hlt' : ((s.taskCts i : ℤ) - 1 - cfg.backwardWindowSize).toNat <
        (s.taskCostsHistory i).length := by omega
    have hwindow' : (0 : K) < cfg.backwardWindowSize := by exact_mod_cast hwindow
    have hle := pairwise_iff_getElem.mp (h.history_sorted i) _ _ hlt' hlt (by omega)
    refine ⟨_, ?_, div_nonpos_of_nonpos_of_nonneg (sub_nonpos.mpr hle) hwindow'.le⟩
    rw [getElem?_eq_getElem hlt, getElem?_eq_getElem hlt']
    exact congrArg some (Ext.div_fin_of_ne_zero _ hwindow'.ne')
  · exact ⟨0, rfl, le_rfl⟩

theorem exists_groupCost (h : s.Healthy cfg) (hbeta : 0 < cfg.beta) :
    ∃ g, s.groupCost cfg i = some g ∧ g ≠ .negInf := by
  unfold groupCost
  cases hgroup : s.groupOf i with
  | none => exact ⟨_, rfl, by simp⟩
  | some group =>
    obtain ⟨ids, hids, hmem, -⟩ := h.groups.exists_ids hgroup
    obtain ⟨best, hbest⟩ := exists_maxFlops cfg s (ne_nil_of_mem hmem)
    have hflop : (0 : K) ≤ cfg.beta * (cfg.tasks i).flopCt := by
      have hnonneg := h.groups.flop_nonneg i (by rw [hgroup]; rfl)
      exact mul_nonneg hbeta.le (by exact_mod_cast hnonneg)
    simp only [hids, some_bind_eq, hbest]
    split_ifs
    · refine ⟨_, rfl, ?_⟩
      cases best with
      | fin y => exact Ext.div_fin_ne_negInf hflop
      | nan | negInf | posInf => simp [Ext.div]
    · exact ⟨_, rfl, by simp⟩

/-- **The gradient of one task.**  It can be computed and is not positive. -/
theorem exists_gradient (h : s.Healthy cfg) (hobj : Monotone cfg.objectiveFunc)
    (halpha : 0 ≤ cfg.alpha) (halpha' : cfg.alpha ≤ 1) (hbeta : 0 < cfg.beta)
    (hwindow : 1 ≤ cfg.backwardWindowSize) (hcts : 1 ≤ s.taskCts i) :
    ∃ g, s.gradient cfg i = some g ∧ Ext.le g (.fin 0) = true := by
  obtain ⟨b, hb, hb0⟩ := exists_backwardGrad (i := i) h hwindow
  obtain ⟨g, hg, hgne⟩ := exists_groupCost (i := i) h hbeta
  have hdiv : Ext.div (.fin (s.bestCosts i)) (.fin (s.taskCts i : K)) =
      .fin (s.bestCosts i / s.taskCts i) := Ext.div_fin_of_ne_zero _ (by positivity)
  -- The predicted cost is a number that is at most the best cost.
  obtain ⟨y, hy, hyle⟩ : ∃ y, Ext.min (.fin (s.bestCosts i - s.bestCosts i / s.taskCts i)) g =
      .fin y ∧ y ≤ s.bestCosts i := by
    have hquot : 0 ≤ s.bestCosts i / s.taskCts i := div_nonneg (h.best_nonneg i) (by positivity)
    unfold Ext.min
    split_ifs with hlt
    · cases g with
      | fin y =>
        rw [Ext.lt_fin, decide_eq_true_iff] at hlt
        exact ⟨y, rfl, by linarith⟩
      | nan | posInf => simp [Ext.lt] at hlt
      | negInf => exact absurd rfl hgne
    · exact ⟨_, rfl, by linarith⟩
  refine ⟨.fin (s.chainGrad cfg i * (cfg.alpha * b + (1 - cfg.alpha) * (y - s.bestCosts i))),
    ?_, ?_⟩
  · simp [TaskScheduler.gradient, hb, hg, some_bind_eq, hdiv, Ext.sub_fin, hy, Ext.mul_fin,
      Ext.add_fin]
  · rw [Ext.le_fin, decide_eq_true_iff]
    have hback : cfg.alpha * b ≤ 0 := mul_nonpos_of_nonneg_of_nonpos halpha hb0
    have hforward : (1 - cfg.alpha) * (y - s.bestCosts i) ≤ 0 :=
      mul_nonpos_of_nonneg_of_nonpos (sub_nonneg.mpr halpha') (sub_nonpos.mpr hyle)
    exact mul_nonpos_of_nonneg_of_nonpos (chainGrad_nonneg hobj) (by linarith)

end

/-- All assertions hold if each one does. -/
theorem exists_gradients (h : ∀ i, ∃ g, s.gradient cfg i = some g ∧ Ext.le g (.fin 0) = true) :
    ∃ grads, s.gradients cfg = some grads := by
  have hsome : ∀ i, (s.gradientOf cfg i).isSome := by
    intro i
    unfold gradientOf
    split_ifs
    · rfl
    · obtain ⟨g, hg, hle⟩ := h i
      rw [hg, filter_some, if_pos hle]
      rfl
  exact ⟨_, dif_pos hsome⟩

/-! ## Any calls of `tune` -/

/-- A call of `tune`, with the records of the log file if there is one, or a round of the
call that is running. -/
inductive TuneEvent (n : ℕ) (K : Type) where
  | tune (option : TuneOption) (log : Option (List (TuningRecord K)))
  | round (r : Round n K)

/-- No cost is negative. -/
def TuneEvent.Nonneg : TuneEvent n K → Prop
  | .tune _ log => ∀ records ∈ log, NonnegResults (records.map (·.costs))
  | .round r => NonnegResults r.results

instance : (event : TuneEvent n K) → Decidable event.Nonneg
  | .tune _ log => inferInstanceAs (Decidable (∀ records ∈ log, _))
  | .round r => inferInstanceAs (Decidable (NonnegResults r.results))

def Tuner.step [NeZero n] (cfg : SchedulerConfig n K) (m : Tuner n K) :
    TuneEvent n K → Option (Tuner n K)
  | .tune option log =>
    if m.running.isNone then startTune cfg m.scheduler option log else none
  | .round r => m.round cfg r

theorem TaskScheduler.Healthy.congr (h : s.Healthy cfg) (ct bestCt : ℕ) (bestScore : K) :
    { s with ct := ct, bestCt := bestCt, bestScore := bestScore }.Healthy cfg :=
  ⟨h.best_nonneg, h.history_sorted, h.best_le,
    ⟨h.groups.length_eq, h.groups.mem_group, h.groups.nodup, h.groups.flop_nonneg⟩⟩

theorem healthy_warmUp {params : TuneParams n} {start : ℕ} (h : s.Healthy cfg) :
    (warmUp params s start).scheduler.Healthy cfg := by
  rcases warmUp_cases params s start with ⟨i, heq, -⟩ | ⟨heq, -⟩ <;> rw [heq]
  · exact h
  · exact h.congr s.ct s.ct s.curScore

theorem healthy_finishRound {params : TuneParams n} {i : Fin n} (h : s.Healthy cfg) :
    (finishRound params s i).scheduler.Healthy cfg := by
  rcases finishRound_cases params s i with heq | ⟨bestScore, bestCt, heq⟩ <;> rw [heq]
  · exact h
  · exact h.congr s.ct bestCt bestScore

variable [NeZero n] [IsStrictOrderedRing K] {m m' : Tuner n K} {event : TuneEvent n K}

/-- A call or a round keeps the scheduler healthy. -/
theorem healthy_step (h : m.scheduler.Healthy cfg) (hevent : event.Nonneg)
    (hstep : m.step cfg event = some m') : m'.scheduler.Healthy cfg := by
  cases event with
  | tune option log =>
    simp only [step, ite_none_right_eq_some] at hstep
    obtain ⟨params, -, rfl⟩ := map_eq_some_iff.mp hstep.2
    refine healthy_warmUp ?_
    cases log with
    | none => exact h.congr 0 0 m.scheduler.bestScore
    | some records =>
      exact (h.congr 0 0 m.scheduler.bestScore).restoreStatus (hevent records rfl)
  | round r =>
    rcases round_cases hstep with ⟨p, i, -, rfl⟩ | ⟨p, last, i, s, -, -, hs, rfl⟩
    · exact healthy_warmUp (h.tuneTask hevent)
    · exact healthy_finishRound ((h.tuneTask hevent).adjust hs)

omit [IsStrictOrderedRing K] in
theorem tuned_step (h : m.Tuned) (hstep : m.step cfg event = some m') : m'.Tuned := by
  cases event with
  | tune option log =>
    simp only [step, ite_none_right_eq_some] at hstep
    exact tuned_startTune hstep.2
  | round r => exact h.round hstep

/-- **The assertion on gradients.**  For a monotone objective and costs that are not
negative, in every iteration of the loop of any calls of `tune`, restored from a log or not,
the gradient of each task can be computed and is not positive, and the round does not
fail. -/
theorem gradient_nonpos {logFlop : ℤ → ℤ} {events : List (TuneEvent n K)}
    {params : TuneParams n} {last : Option (Fin n)} (hobj : Monotone cfg.objectiveFunc)
    (halpha : 0 ≤ cfg.alpha) (halpha' : cfg.alpha ≤ 1) (hbeta : 0 < cfg.beta)
    (hwindow : 1 ≤ cfg.backwardWindowSize) (hinit : init logFlop cfg = some s)
    (hevents : ∀ event ∈ events, event.Nonneg) (hrun : events.foldlM (step cfg) ⟨s, none⟩ = some m)
    (hloop : m.running = some (params, .loop last)) :
    (∀ i, ∃ g, m.scheduler.gradient cfg i = some g ∧ Ext.le g (.fin 0) = true) ∧
      ∀ r, ∃ m', m.round cfg r = some m' := by
  have hhealthy : m.scheduler.Healthy cfg :=
    foldlM_invariant (fun m : Tuner n K => m.scheduler.Healthy cfg)
      (fun e he _ _ h hs => healthy_step h (hevents e he) hs) (healthy_init hinit) hrun
  have htuned : m.Tuned :=
    foldlM_invariant Tuned (fun _ _ _ _ h hs => tuned_step h hs)
      (show (⟨s, none⟩ : Tuner n K).Tuned from trivial) hrun
  simp only [Tuned, hloop] at htuned
  have hgrad : ∀ i, ∃ g, m.scheduler.gradient cfg i = some g ∧ Ext.le g (.fin 0) = true :=
    fun i => exists_gradient hhealthy hobj halpha halpha' hbeta hwindow (htuned i)
  refine ⟨hgrad, fun r => ?_⟩
  obtain ⟨i, hi⟩ : ∃ i, m.scheduler.chooseTask cfg last r.choice = some i := by
    unfold chooseTask
    cases cfg.strategy with
    | roundRobin => exact ⟨_, rfl⟩
    | gradient =>
      obtain ⟨grads, hgrads⟩ := exists_gradients hgrad
      exact ⟨_, by rw [hgrads]; rfl⟩
  obtain ⟨s', hs'⟩ := (hhealthy.groups.tuneTask params i r).exists_adjust i
  refine ⟨finishRound params s' i, ?_⟩
  rw [Tuner.round, hloop, bind_some]
  simp [hi, hs', some_bind_eq]

/-- The first cost is restored from a log, and then both tasks are tuned. -/
def restoredEvents : List (TuneEvent 2 ℚ) :=
  [.tune fourTrials (some [⟨"cuda", "0", 0, ⟨[3], by simp⟩⟩]),
    .round (measuredRound ⟨0, Nat.zero_lt_two⟩ 5),
    .round (measuredRound ⟨0, Nat.zero_lt_two⟩ 4)]

theorem gradient_nonpos_totalCost : ∃ m params last,
    restoredEvents.foldlM (step totalCost) ⟨newScheduler totalCost, none⟩ = some m ∧
      m.running = some (params, .loop last) ∧
      (∀ i, ∃ g, m.scheduler.gradient totalCost i = some g ∧ Ext.le g (.fin 0) = true) ∧
      ∀ r, ∃ m', m.round totalCost r = some m' := by
  have hrun : ∃ m ∈ restoredEvents.foldlM (step totalCost) ⟨newScheduler totalCost, none⟩,
      ∃ x ∈ m.running, x.2 = .loop (some 1) := by decide +kernel
  obtain ⟨m, hm, ⟨params, _⟩, hrunning, rfl⟩ := hrun
  have hobj : Monotone totalCost.objectiveFunc := fun _ _ h => add_le_add (h 0) (h 1)
  have hinit : init id totalCost = some (newScheduler totalCost) := rfl
  exact ⟨m, params, some 1, hm, hrunning, gradient_nonpos hobj (by decide +kernel)
    (by decide +kernel) (by decide +kernel) (by decide) hinit (by decide +kernel) hm hrunning⟩

/-- **The costs of a task never rise.**  Whatever the calls of `tune` and their rounds are, if no cost
is negative, the history of a task does not increase and stays above its best cost. -/
theorem history_sorted_of_tune {logFlop : ℤ → ℤ} {events : List (TuneEvent n K)}
    (hinit : init logFlop cfg = some s) (hevents : ∀ event ∈ events, event.Nonneg)
    (hrun : events.foldlM (step cfg) ⟨s, none⟩ = some m) (i : Fin n) :
    (m.scheduler.taskCostsHistory i).Pairwise (· ≥ ·) ∧ 0 ≤ m.scheduler.bestCosts i ∧
      ∀ cost ∈ m.scheduler.taskCostsHistory i, m.scheduler.bestCosts i ≤ cost := by
  have hhealthy : m.scheduler.Healthy cfg :=
    foldlM_invariant (fun m : Tuner n K => m.scheduler.Healthy cfg)
      (fun e he _ _ h hs => healthy_step h (hevents e he) hs) (healthy_init hinit) hrun
  exact ⟨hhealthy.history_sorted i, hhealthy.best_nonneg i, hhealthy.best_le i⟩

theorem history_sorted_restored :
    ∃ m, restoredEvents.foldlM (step totalCost) ⟨newScheduler totalCost, none⟩ = some m ∧
      (m.scheduler.taskCostsHistory 0).Pairwise (· ≥ ·) := by
  obtain ⟨m, hm⟩ := isSome_iff_exists.mp (show (restoredEvents.foldlM (step totalCost)
    ⟨newScheduler totalCost, none⟩).isSome from by decide +kernel)
  have hinit : init id totalCost = some (newScheduler totalCost) := rfl
  exact ⟨m, hm, (history_sorted_of_tune hinit (by decide +kernel) hm 0).1⟩

end Pruner.AutoScheduler
