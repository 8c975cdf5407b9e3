import Pruner.AutoScheduler.FilteredReplay

/-!
# Following a stage through a history

A step that adds a stage moves the ids of the stages behind it: `cache_read` puts the new
stage behind its target, `cache_write` and `rfactor` put it before.  The search policies of
`search_policy/utils.h` find out from a history which id a stage has now, or which steps
were applied to it.

## Main definitions

* `Step.newId`, `followId` — the id of a stage after a step, and after some steps.
* `getTargetStageIDInState` — the id now of the stage that a step acted on.
* `getSplitStepIds`, `hasCacheReadStage`, `hasCacheWriteStage`, `hasRfactorStage` — the
  queries that walk a history backwards.
-/

namespace Pruner.AutoScheduler

open List Step

namespace Step

/-- Where a step that adds one stage moves the stage `id`. -/
def newId (id : ℤ) : Step → ℤ
  | .cacheReadStep t _ _ => if t < id then id + 1 else id
  | .cacheWriteStep t _ | .rfactorStep t _ _ => if t ≤ id then id + 1 else id
  | _ => id

def isSplit : Step → Bool
  | .splitStep .. => true
  | _ => false

def isCacheRead : Step → Bool
  | .cacheReadStep .. => true
  | _ => false

def isCacheWrite : Step → Bool
  | .cacheWriteStep .. => true
  | _ => false

def isRfactor : Step → Bool
  | .rfactorStep .. => true
  | _ => false

theorem atIndex_insertIdx {α : Type*} (l : List α) (k i : ℕ) (a : α) :
    atIndex (l.insertIdx k a) (if (k : ℤ) ≤ i then i + 1 else i) = l[i]? := by
  split_ifs with h
  · show (l.insertIdx k a)[i + 1]? = l[i]?
    rw [getElem?_insertIdx_of_gt (by omega), Nat.add_sub_cancel]
  · exact getElem?_insertIdx_of_lt (by omega)

theorem atIndex_insertIdx_set {α : Type*} (l : List α) {k i : ℕ} (h : (i : ℤ) ≠ k) (a b : α) :
    atIndex ((l.set k b).insertIdx k a) (if (k : ℤ) ≤ i then i + 1 else i) = l[i]? :=
  (atIndex_insertIdx _ k i a).trans (getElem?_set_ne (by omega))

end Step

/-- The id of a stage after some steps. -/
def followId (steps : List Step) (id : ℤ) : ℤ := steps.foldl (fun id step => step.newId id) id

/-! ## The stages of a state -/

open Option Lib

variable {dag : ComputeDAG} {pos i j : ℕ} {st st' : State} {ops : List Te.Operation}
  {stages stages' : List Stage}

theorem updateOp_iters (h : updateOp ops stages j = some stages') :
    stages'.map (·.iters) = stages.map (·.iters) := by
  obtain ⟨stage, hstage, op, -, h⟩ := bind₂_eq_some.mp h
  cases h
  exact Te.map_set_of_getElem? hstage rfl

theorem updateOps_iters {start stop : ℕ} (h : updateOps ops start stop stages = some stages') :
    stages'.map (·.iters) = stages.map (·.iters) :=
  foldlM_invariant (fun s : List Stage => s.map (·.iters) = stages.map (·.iters))
    (fun _ _ _ _ hP h => (updateOp_iters h).trans hP) rfl h

theorem cacheReadToState_iters (h : cacheReadToState dag pos st i = some st') :
    ∃ new, st'.stages.map (·.iters) = (st.stages.map (·.iters)).insertIdx (i + 1) new := by
  obtain ⟨current, -, stages, hstages, added, -, h⟩ := bind₃_eq_some.mp h
  obtain ⟨stages', hstages', h⟩ := bind_eq_some_iff.mp h
  cases h
  rw [updateOps_iters hstages', map_insertIdx, updateOp_iters hstages]
  exact ⟨_, rfl⟩

/-- A `cache_write` gives its target new iterators as well. -/
theorem cacheWriteToState_iters (h : cacheWriteToState dag pos st i = some st')
    (hone : st'.stages.length = st.stages.length + 1) : ∃ cache target,
    st'.stages.map (·.iters) = ((st.stages.map (·.iters)).set i target).insertIdx i cache := by
  obtain ⟨current, -, h⟩ := bind_eq_some_iff.mp h
  obtain ⟨⟨-, hi⟩, h⟩ := ite_none_right_eq_some.mp h
  obtain ⟨cache, -, target, -, h⟩ := bind₂_eq_some.mp h
  split_ifs at h with htwo
  · obtain ⟨extra, -, stages, hstages, h⟩ := bind₂_eq_some.mp h
    cases h
    have hone : stages.length = st.stages.length + 1 := hone
    have hlen := congrArg length (updateOps_iters hstages)
    simp only [length_map, length_insertIdx, length_set] at hlen
    split_ifs at hlen <;> omega
  · obtain ⟨stages, hstages, h⟩ := bind_eq_some_iff.mp h
    cases h
    rw [updateOps_iters hstages, map_insertIdx, map_set]
    exact ⟨_, _, rfl⟩

theorem rfactorToState_iters (h : rfactorToState dag pos st i = some st') : ∃ factor target,
    st'.stages.map (·.iters) = ((st.stages.map (·.iters)).set i target).insertIdx i factor := by
  obtain ⟨stage, -, current, -, factor, -, h⟩ := bind₃_eq_some.mp h
  obtain ⟨target, -, stages, hstages, h⟩ := bind₂_eq_some.mp h
  cases h
  rw [updateOps_iters hstages, map_insertIdx, map_set]
  exact ⟨_, _, rfl⟩

/-- **The loops of a stage that a stage-adding step does not act on are found under its new
id**, when the step adds one stage. -/
theorem stepApplyToState_iters_newId {step : Step} (hadds : step.AddsStage)
    (h : stepApplyToState dag pos st step = some st')
    (hone : st'.stages.length = st.stages.length + 1) (hj : (j : ℤ) ≠ step.stageId) :
    atIndex (st'.stages.map (·.iters)) (step.newId j) = (st.stages.map (·.iters))[j]? := by
  cases step with
  | cacheReadStep t scope readers =>
    obtain ⟨i, hi, h⟩ := bind_eq_some_iff.mp h
    cases Int.mem_toNat?.mp hi
    obtain ⟨new, hnew⟩ := cacheReadToState_iters h
    rw [hnew]
    exact atIndex_insertIdx _ (i + 1) j new
  | cacheWriteStep t scope =>
    obtain ⟨i, hi, h⟩ := bind_eq_some_iff.mp h
    cases Int.mem_toNat?.mp hi
    obtain ⟨cache, target, hnew⟩ := cacheWriteToState_iters h hone
    rw [hnew]
    exact atIndex_insertIdx_set _ hj cache target
  | rfactorStep t iter factor =>
    obtain ⟨i, hi, h⟩ := bind_eq_some_iff.mp h
    cases Int.mem_toNat?.mp hi
    obtain ⟨new, target, hnew⟩ := rfactorToState_iters h
    rw [hnew]
    exact atIndex_insertIdx_set _ hj new target
  | _ => exact hadds.elim

/-- The stage behind the one that is read through a cache. -/
theorem iters_newId_rowSum : ∃ st', rowSumDAG.replay [.cacheReadStep 0 "shared" [1]] = some st' ∧
    atIndex (st'.stages.map (·.iters)) 2 = (rowSumDAG.initState.stages.map (·.iters))[1]? := by
  obtain ⟨st', hrun, hone⟩ := map_eq_some_iff.mp (show (rowSumDAG.replay
    [.cacheReadStep 0 "shared" [1]]).map (·.stages.length) = some 4 from by decide +kernel)
  have h := hrun
  rw [ComputeDAG.replay, replayFrom] at h
  obtain ⟨_, h, hnil⟩ := bind_eq_some_iff.mp h
  cases hnil
  have hadds : (cacheReadStep 0 "shared" [1]).AddsStage := trivial
  have hiters := stepApplyToState_iters_newId (j := 1) hadds h hone (by decide)
  exact ⟨st', hrun, hiters⟩

/-! ## The stage that a step acted on -/

/-- `stage_inc` of `GetTargetStageIDInState` after one more step, for a stage `id` at first. -/
def stageInc (id inc : ℤ) (step : Step) : ℤ :=
  if step.AddsStage ∧ step.stageId ≤ id + inc then inc + 1 else inc

/-- `GetTargetStageIDInState`. -/
def getTargetStageIDInState (steps : List Step) (stepId : ℕ) : Option ℤ :=
  steps[stepId]?.map fun step =>
    step.stageId + (steps.drop (stepId + 1)).foldl (stageInc step.stageId) 0

variable {step : Step} {rest : List Step} {id inc r : ℤ}

/-- The id that is computed and an id of a stage stay apart once they are. -/
theorem stageInc_lt (h : id + inc < r) : id + stageInc id inc step < step.newId r := by
  cases step <;> simp only [stageInc, newId, Step.AddsStage, stageId] <;> grind

theorem lt_stageInc (h : r < id + inc) : step.newId r < id + stageInc id inc step := by
  cases step <;> simp only [stageInc, newId, Step.AddsStage, stageId] <;> grind

theorem stageInc_eq_iff : id + stageInc id inc step = step.newId (id + inc) ↔
    ¬ (step.isCacheRead = true ∧ step.stageId = id + inc) := by
  cases step <;>
    simp only [stageInc, newId, Step.AddsStage, stageId, isCacheRead] <;> grind

theorem foldl_stageInc_lt (h : id + inc < r) :
    id + rest.foldl (stageInc id) inc < followId rest r := by
  induction rest generalizing inc r with
  | nil => exact h
  | cons step rest ih => exact ih (stageInc_lt h)

theorem lt_foldl_stageInc (h : r < id + inc) :
    followId rest r < id + rest.foldl (stageInc id) inc := by
  induction rest generalizing inc r with
  | nil => exact h
  | cons step rest ih => exact ih (lt_stageInc h)

/-- No step of a history is a `cache_read` of the stage that is `id` at first. -/
def NeverRead (id : ℤ) (steps : List Step) : Prop :=
  ∀ (i : ℕ) step, steps[i]? = some step → step.isCacheRead = true →
    step.stageId ≠ followId (steps.take i) id

theorem neverRead_cons : NeverRead id (step :: rest) ↔
    ¬ (step.isCacheRead = true ∧ step.stageId = id) ∧ NeverRead (step.newId id) rest := by
  constructor
  · intro h
    refine ⟨fun hread => h 0 step rfl hread.1 hread.2, fun i s hs => ?_⟩
    exact h (i + 1) s hs
  · rintro ⟨hhead, htail⟩ (_ | i) s hs hread
    · cases hs
      exact fun heq => hhead ⟨hread, heq⟩
    · exact htail i s hs hread

theorem foldl_stageInc_eq_iff :
    id + rest.foldl (stageInc id) inc = followId rest (id + inc) ↔ NeverRead (id + inc) rest := by
  induction rest generalizing inc with
  | nil => exact iff_of_true rfl fun i step h => by simp at h
  | cons step rest ih =>
    rw [neverRead_cons, ← stageInc_eq_iff]
    show id + rest.foldl (stageInc id) (stageInc id inc step) =
      followId rest (step.newId (id + inc)) ↔ _
    rcases lt_trichotomy (id + stageInc id inc step) (step.newId (id + inc)) with h | h | h
    · exact iff_of_false (foldl_stageInc_lt h).ne fun hand => h.ne hand.1
    · rw [← h, ih]
      exact (and_iff_right rfl).symm
    · exact iff_of_false (lt_foldl_stageInc h).ne' fun hand => h.ne' hand.1

/-- **When the computed id is that of the stage a step acted on**: the step itself does not put
a stage before it, and no later step is a `cache_read` of this stage. -/
theorem getTargetStageIDInState_iff (hist : List Step) (step : Step) (rest : List Step) :
    getTargetStageIDInState (hist ++ step :: rest) hist.length =
        some (followId (step :: rest) step.stageId) ↔
      (step.isCacheWrite = false ∧ step.isRfactor = false) ∧ NeverRead step.stageId rest := by
  have htarget : getTargetStageIDInState (hist ++ step :: rest) hist.length =
      some (step.stageId + rest.foldl (stageInc step.stageId) 0) := by
    simp [getTargetStageIDInState, drop_append, drop_eq_nil_of_le (Nat.le_succ hist.length)]
  rw [htarget, Option.some.injEq]
  show _ = followId rest (step.newId step.stageId) ↔ _
  by_cases hbefore : step.isCacheWrite = false ∧ step.isRfactor = false
  · have hid : step.newId step.stageId = step.stageId + 0 := by
      cases step <;> simp_all [newId, stageId, isCacheWrite, isRfactor]
    rw [hid, foldl_stageInc_eq_iff, add_zero, and_iff_right hbefore]
  · have hid : step.stageId + 0 < step.newId step.stageId := by
      have hlt : ∀ a : ℤ, a < a + 1 := Int.lt_succ
      cases step <;> simp_all [newId, stageId, isCacheWrite, isRfactor]
    exact iff_of_false (foldl_stageInc_lt hid).ne fun hand => hbefore hand.1

theorem getTargetStageIDInState_read :
    getTargetStageIDInState [.splitStep 1 0 (some 8) [some 2] true,
        .cacheReadStep 1 "shared" [2]] 0 = some 2 ∧
      followId [.splitStep 1 0 (some 8) [some 2] true, .cacheReadStep 1 "shared" [2]] 1 = 1 := by
  decide

/-! ## Walking backwards -/

/-- The id after walking back over a step. -/
def walkBack (id : ℤ) (step : Step) : ℤ :=
  if step.AddsStage ∧ step.stageId < id then id - 1 else id

/-- The loop of the queries: whether a step of a kind names the stage.  The steps are in reverse
order. -/
def hasStageStep (kind : Step → Bool) : List Step → ℤ → Bool
  | [], _ => false
  | step :: earlier, id =>
    if kind step ∧ id = step.stageId then true
    else hasStageStep kind earlier (walkBack id step)

def hasCacheReadStage (st : State) (stageId : ℤ) : Bool :=
  hasStageStep isCacheRead st.transformSteps.reverse stageId

def hasCacheWriteStage (st : State) (stageId : ℤ) : Bool :=
  hasStageStep isCacheWrite st.transformSteps.reverse stageId

def hasRfactorStage (st : State) (stageId : ℤ) : Bool :=
  hasStageStep isRfactor st.transformSteps.reverse stageId

/-- The loop of `GetSplitStepIds`. -/
def splitStepIds : List Step → ℤ → List ℕ
  | [], _ => []
  | step :: earlier, id =>
    let rest := splitStepIds earlier (walkBack id step)
    if step.isSplit ∧ id = step.stageId then earlier.length :: rest else rest

def getSplitStepIds (st : State) (stageId : ℤ) : List ℕ :=
  splitStepIds st.transformSteps.reverse stageId

/-- The step at a position of a history is of a kind, and was applied to the stage that is
`id` at first. -/
def AppliedAt (kind : Step → Bool) (steps : List Step) (id : ℤ) (i : ℕ) : Prop :=
  ∃ step, steps[i]? = some step ∧ kind step = true ∧ step.stageId = followId (steps.take i) id

variable {kind : Step → Bool} {steps : List Step}

/-- **Walking back over a step undoes its move.** -/
theorem walkBack_newId (step : Step) (id : ℤ) : walkBack (step.newId id) step = id := by
  cases step <;> simp only [walkBack, newId, Step.AddsStage, stageId] <;> grind

theorem followId_concat : followId (steps ++ [step]) id = step.newId (followId steps id) := by
  simp [followId]

theorem appliedAt_concat : AppliedAt kind (steps ++ [step]) id i ↔
    AppliedAt kind steps id i ∨
      i = steps.length ∧ kind step = true ∧ step.stageId = followId steps id := by
  rcases lt_trichotomy i steps.length with h | rfl | h
  · simp [AppliedAt, getElem?_append_left h, take_append_of_le_length h.le, h.ne]
  · simp [AppliedAt]
  · have hnone : ∀ l : List Step, l.length ≤ steps.length + 1 → l[i]? = none := fun l hl =>
      getElem?_eq_none (by omega)
    simp [AppliedAt, hnone, h.ne']

/-- A query reports the steps that name the id which the stage has after them. -/
theorem hasStageStep_iff (hkind : ∀ step id, kind step = true →
      (step.newId id = step.stageId ↔ step.stageId = id)) :
    hasStageStep kind steps.reverse (followId steps id) = true ↔
      ∃ i, AppliedAt kind steps id i := by
  induction steps using reverseRecOn with
  | nil => simp [hasStageStep, AppliedAt]
  | append_singleton steps step ih =>
    rw [reverse_concat, followId_concat, hasStageStep, walkBack_newId]
    simp only [appliedAt_concat, exists_or, ← ih]
    by_cases hk : kind step = true
    · simp [hk, hkind step _ hk, or_comm]
    · simp [hk]

theorem mem_splitStepIds_iff :
    i ∈ splitStepIds steps.reverse (followId steps id) ↔ AppliedAt isSplit steps id i := by
  induction steps using reverseRecOn generalizing i with
  | nil => simp [splitStepIds, AppliedAt]
  | append_singleton steps step ih =>
    have hsplit : step.isSplit = true → step.newId (followId steps id) = followId steps id := by
      cases step <;> simp [isSplit, newId]
    rw [reverse_concat, followId_concat, splitStepIds, walkBack_newId, appliedAt_concat, ← ih]
    by_cases hk : step.isSplit = true
    · rw [hsplit hk]
      split_ifs with h
      · simp [h.2, hk, or_comm]
      · have hne : step.stageId ≠ followId steps id := fun heq => h ⟨hk, heq.symm⟩
        simp [hne]
    · simp [hk]

/-- A stage that is put before its target gets an id that no stage from before has. -/
theorem hasStageStep_eq_false (hkind : ∀ step, kind step = true →
      step.isCacheWrite = true ∨ step.isRfactor = true) :
    hasStageStep kind steps.reverse (followId steps id) = false := by
  induction steps using reverseRecOn with
  | nil => rfl
  | append_singleton steps step ih =>
    have hne : kind step = true → step.newId (followId steps id) ≠ step.stageId := by
      intro hk
      cases step <;> simp_all [isCacheWrite, isRfactor, newId, stageId] <;>
        grind
    rw [reverse_concat, followId_concat, hasStageStep, walkBack_newId, ih, if_neg]
    exact fun h => hne h.1 h.2

end Pruner.AutoScheduler
