import Mathlib.Data.Finset.Union
import Pruner.AutoScheduler.Measure

/-!
# The sketch policy between its rounds

A policy (`search_policy.cc`, `sketch_policy.cc`) keeps the states it has measured: their
strings in a set, the states in a vector and their throughputs in another vector.  States
are picked into the first two, and their throughputs follow after the measurement.  At the
start of a round the best measured states join the initial population: `SearchOneRound`
sorts the positions of the throughputs and takes the states at these positions.

What a round finds is not modelled here: the states that `SearchOneRound` and `InferBound`
return and the results of a measurement are inputs of the machine.

## Main definitions

* `pickStatesWithEpsGreedy` — the states to measure next.
* `SketchPolicy`, `SketchPolicy.step` — the calls of a policy, with each iteration of the
  loop in `Search` as a step of its own.
* `Aligned` — each throughput is the one of the state at its position.
* `aligned_iff` — when this is so at the start of a round.
-/

namespace Pruner.AutoScheduler

open Lib List Option

variable {fuel : ℕ}

universe u

variable {σ : Type u} {toStr : σ → String}

/-- The members of `SearchPolicyNode` that describe the measured states. -/
structure SearchPolicy (σ : Type u) where
  measuredStatesSet : Finset String
  measuredStatesVector : List σ
  measuredStatesThroughputs : List (Ext ℚ)

/-! ## Picking states -/

/-- The policy and the inputs in the loop of `PickStatesWithEpsGreedy`. -/
structure Picked (σ : Type u) where
  policy : SearchPolicy σ
  inputs : List σ

/-- Take a state, unless it has already been measured. -/
def Picked.offer (toStr : σ → String) (p : Picked σ) (state : σ) : Picked σ :=
  if toStr state ∈ p.policy.measuredStatesSet then p
  else
    { policy :=
        { p.policy with
          measuredStatesSet := insert (toStr state) p.policy.measuredStatesSet
          measuredStatesVector := p.policy.measuredStatesVector ++ [state] }
      inputs := p.inputs ++ [state] }

/-- The next state, from the preferred list if it has one, and what is left. -/
def nextState (preferBest : Bool) : List σ → List σ → Option (σ × List σ × List σ)
  | [], [] => none
  | [], state :: random => some (state, [], random)
  | state :: best, [] => some (state, best, [])
  | b :: best, r :: random =>
    if preferBest then some (b, best, r :: random) else some (r, b :: best, random)

/-- The loop of `PickStatesWithEpsGreedy`.  Every iteration takes a state from one of the
lists, so as many iterations as there are states are enough. -/
def pickLoop (toStr : σ → String) (numGood limit : ℤ) : ℕ → List σ → List σ → Picked σ → Picked σ
  | 0, _, _, p => p
  | fuel + 1, best, random, p =>
    if (p.inputs.length : ℤ) < limit then
      match nextState (decide ((p.inputs.length : ℤ) < numGood)) best random with
      | none => p
      | some (state, best, random) =>
        pickLoop toStr numGood limit fuel best random (p.offer toStr state)
    else p

def pickStatesWithEpsGreedy (toStr : σ → String) (epsGreedy : ℚ) (numMeasurePerIter : ℤ)
    (policy : SearchPolicy σ) (bestStates randomStates : List σ) (remainingNTrials : ℤ) :
    Picked σ :=
  let numRandom := truncToInt (epsGreedy * numMeasurePerIter)
  let numGood := numMeasurePerIter - numRandom
  pickLoop toStr numGood (min numMeasurePerIter remainingNTrials)
    (bestStates.length + randomStates.length) bestStates randomStates ⟨policy, []⟩

variable {policy : SearchPolicy σ} {p : Picked σ} {state s : σ} {best random : List σ}
  {preferBest : Bool}

theorem nextState_eq_none (h : nextState preferBest best random = none) :
    best = [] ∧ random = [] := by
  cases best <;> cases random <;> cases preferBest <;> simp_all [nextState]

/-- What is taken and what is left are what was there. -/
theorem nextState_eq_some {best' random' : List σ}
    (h : nextState preferBest best random = some (state, best', random')) :
    best.length + random.length = best'.length + random'.length + 1 ∧
      ∀ s ∈ best ++ random, s = state ∨ s ∈ best' ++ random' := by
  cases best <;> cases random <;> cases preferBest <;> simp only [nextState, reduceCtorEq,
    if_true, Bool.false_eq_true, if_false, some.injEq, Prod.mk.injEq] at h
  all_goals
    obtain ⟨rfl, rfl, rfl⟩ := h
    refine ⟨by grind, fun s hs => ?_⟩
    simp only [mem_append, mem_cons, not_mem_nil] at hs ⊢
    tauto

/-- The picked states are new ones, and exactly these were added to the policy. -/
structure Picked.Sound (toStr : σ → String) (policy : SearchPolicy σ) (p : Picked σ) : Prop where
  nodup : (p.inputs.map toStr).Nodup
  fresh : ∀ s ∈ p.inputs, toStr s ∉ policy.measuredStatesSet
  set_eq : p.policy.measuredStatesSet = policy.measuredStatesSet ∪ (p.inputs.map toStr).toFinset
  vector_eq : p.policy.measuredStatesVector = policy.measuredStatesVector ++ p.inputs
  throughputs_eq : p.policy.measuredStatesThroughputs = policy.measuredStatesThroughputs

theorem Picked.Sound.start (policy : SearchPolicy σ) :
    (⟨policy, []⟩ : Picked σ).Sound toStr policy where
  nodup := nodup_nil
  fresh := by simp
  set_eq := by simp
  vector_eq := (append_nil _).symm
  throughputs_eq := rfl

theorem Picked.Sound.offer (h : p.Sound toStr policy) (state : σ) :
    (p.offer toStr state).Sound toStr policy := by
  unfold Picked.offer
  split_ifs with hmem
  · exact h
  · rw [h.set_eq, Finset.mem_union, List.mem_toFinset, not_or] at hmem
    exact
      { nodup := by
          rw [map_append]
          exact nodup_append.mpr ⟨h.nodup, nodup_singleton _, fun a ha b hb hab =>
            hmem.2 (mem_singleton.mp hb ▸ hab ▸ ha)⟩
        fresh := by
          exact forall_mem_append.mpr ⟨h.fresh, forall_mem_singleton.mpr hmem.1⟩
        set_eq := by
          rw [h.set_eq]
          ext x
          simp only [Finset.mem_insert, Finset.mem_union, map_append, List.mem_toFinset,
            mem_append, map_cons, map_nil, mem_singleton]
          tauto
        vector_eq := by rw [h.vector_eq, append_assoc]
        throughputs_eq := h.throughputs_eq }

theorem mem_offer_set (p : Picked σ) (state : σ) :
    toStr state ∈ (p.offer toStr state).policy.measuredStatesSet := by
  unfold Picked.offer
  split_ifs with hmem
  · exact hmem
  · exact Finset.mem_insert_self _ _

theorem subset_offer_set (p : Picked σ) (state : σ) :
    p.policy.measuredStatesSet ⊆ (p.offer toStr state).policy.measuredStatesSet := by
  unfold Picked.offer
  split_ifs with hmem
  · exact Finset.Subset.refl _
  · exact Finset.subset_insert _ _

theorem length_offer_le (toStr : σ → String) (p : Picked σ) (state : σ) :
    (p.offer toStr state).inputs.length ≤ p.inputs.length + 1 := by
  unfold Picked.offer
  split_ifs with hmem
  · exact Nat.le_succ _
  · simp

variable {numGood limit : ℤ}

theorem Picked.Sound.pickLoop (h : p.Sound toStr policy) :
    (pickLoop toStr numGood limit fuel best random p).Sound toStr policy := by
  induction fuel generalizing best random p with
  | zero => exact h
  | succ fuel ih =>
    rw [AutoScheduler.pickLoop]
    split_ifs
    · split
      · exact h
      · exact ih (h.offer _)
    · exact h

theorem length_pickLoop_le (h : p.inputs.length ≤ limit.toNat) :
    (pickLoop toStr numGood limit fuel best random p).inputs.length ≤ limit.toNat := by
  induction fuel generalizing best random p with
  | zero => exact h
  | succ fuel ih =>
    rw [pickLoop]
    split_ifs with hlt
    · split
      · exact h
      · refine ih ((length_offer_le toStr p _).trans ?_)
        omega
    · exact h

theorem subset_pickLoop_set : p.policy.measuredStatesSet ⊆
    (pickLoop toStr numGood limit fuel best random p).policy.measuredStatesSet := by
  induction fuel generalizing best random p with
  | zero => exact Finset.Subset.refl _
  | succ fuel ih =>
    rw [pickLoop]
    split_ifs
    · split
      · exact Finset.Subset.refl _
      · exact (subset_offer_set p _).trans ih
    · exact Finset.Subset.refl _

theorem mem_pickLoop_set (hfuel : best.length + random.length ≤ fuel)
    (hlt : (pickLoop toStr numGood limit fuel best random p).inputs.length < limit.toNat)
    (hs : s ∈ best ++ random) : toStr s ∈
      (pickLoop toStr numGood limit fuel best random p).policy.measuredStatesSet := by
  induction fuel generalizing best random p with
  | zero =>
    have hnil : (best ++ random).length = 0 := by rw [length_append]; omega
    rw [length_eq_zero_iff.mp hnil] at hs
    exact absurd hs not_mem_nil
  | succ fuel ih =>
    rw [pickLoop] at hlt ⊢
    split_ifs at hlt ⊢ with hlimit
    · cases hnext : nextState (decide ((p.inputs.length : ℤ) < numGood)) best random with
      | none =>
        obtain ⟨rfl, rfl⟩ := nextState_eq_none hnext
        exact absurd hs not_mem_nil
      | some next =>
        obtain ⟨state, best', random'⟩ := next
        obtain ⟨hlength, hmem⟩ := nextState_eq_some hnext
        simp only [hnext] at hlt ⊢
        rcases hmem s hs with rfl | hs'
        · exact subset_pickLoop_set (mem_offer_set p s)
        · exact ih (by omega) hlt hs'
    · omega

/-- **Picking states.**  The picked states have pairwise different strings that are new to
the policy, and there are at most as many as allowed (none, if that number is negative); if
there are fewer, then every offered state is measured now.  The set grows by exactly their
strings and the vector by exactly these states. -/
theorem pickStatesWithEpsGreedy_spec (toStr : σ → String) (epsGreedy : ℚ)
    (numMeasurePerIter : ℤ) (policy : SearchPolicy σ) (bestStates randomStates : List σ)
    (remainingNTrials : ℤ) :
    let picked := pickStatesWithEpsGreedy toStr epsGreedy numMeasurePerIter policy bestStates
      randomStates remainingNTrials
    (picked.inputs.map toStr).Nodup ∧ (∀ s ∈ picked.inputs, toStr s ∉ policy.measuredStatesSet) ∧
      picked.inputs.length ≤ (min numMeasurePerIter remainingNTrials).toNat ∧
      (picked.inputs.length < (min numMeasurePerIter remainingNTrials).toNat →
        ∀ s ∈ bestStates ++ randomStates, toStr s ∈ picked.policy.measuredStatesSet) ∧
      picked.policy.measuredStatesSet =
        policy.measuredStatesSet ∪ (picked.inputs.map toStr).toFinset ∧
      picked.policy.measuredStatesVector = policy.measuredStatesVector ++ picked.inputs := by
  intro picked
  have h : picked.Sound toStr policy := (Picked.Sound.start policy).pickLoop
  refine ⟨h.nodup, h.fresh, length_pickLoop_le (Nat.zero_le _), fun hlt s hs => ?_,
    h.set_eq, h.vector_eq⟩
  exact mem_pickLoop_set le_rfl hlt hs

/-! ## The calls of a policy -/

/-- The task and the parameters of a policy.  `useMeasured` is the product of
`use_measured_ratio` and `population`. -/
structure SketchParams where
  workloadKey : String
  targetKind : String
  flopCt : ℚ
  epsGreedy : ℚ
  emptyRetryCount : ℤ
  useMeasured : ℚ

/-- A line of a log: the replayed state and its result. -/
structure LogRecord (σ : Type u) where
  workloadKey : String
  targetKind : String
  state : σ
  result : MeasureResult

def throughput (result : MeasureResult) : Ext ℚ :=
  Ext.div (.fin 1) (.fin (floatArrayMean result.costs))

variable (record : LogRecord σ) (params : SketchParams) (p : SearchPolicy σ)
  (measured : List (Measured σ))

def LogRecord.throughput : Ext ℚ :=
  if record.result.errorNo.1 = 0 then AutoScheduler.throughput record.result else .fin 0

/-- The records of the task. -/
def LogRecord.Matches (record : LogRecord σ) : Bool :=
  record.workloadKey = params.workloadKey ∧ record.targetKind = params.targetKind

namespace SearchPolicy

/-- The body of the second loop of `PreloadMeasuredStates`. -/
def preload (toStr : σ → String) (p : SearchPolicy σ) (record : LogRecord σ) : SearchPolicy σ :=
  if toStr record.state ∈ p.measuredStatesSet then p
  else if record.throughput = .fin 0 then
    { p with measuredStatesSet := insert (toStr record.state) p.measuredStatesSet }
  else
    { measuredStatesSet := insert (toStr record.state) p.measuredStatesSet
      measuredStatesVector := p.measuredStatesVector ++ [record.state]
      measuredStatesThroughputs := p.measuredStatesThroughputs ++ [record.throughput] }

def preloadMeasuredStates (toStr : σ → String) (params : SketchParams) (p : SearchPolicy σ)
    (records : List (LogRecord σ)) : SearchPolicy σ :=
  (records.filter (·.Matches params)).foldl (preload toStr) p

/-- Add the throughputs of measured programs. -/
def pushThroughputs : SearchPolicy σ :=
  { p with
    measuredStatesThroughputs :=
      p.measuredStatesThroughputs ++ measured.map fun x => throughput x.result }

/-- The number of measured states that `SearchOneRound` uses. -/
def numUseMeasured : ℤ := min p.measuredStatesVector.length (truncToInt params.useMeasured)

end SearchPolicy

/-- The variables of the loop in `Search`. -/
structure SearchLoop (σ : Type u) where
  nTrials : ℤ
  earlyStopping : ℤ
  ct : ℤ
  emptyRetryCount : ℤ
  batchSize : ℕ+
  measurer : ProgramMeasurer σ
  ct_lt : ct < nTrials

/-- A policy, with the loop of `Search` if it is running. -/
structure SketchPolicy (σ : Type u) where
  policy : SearchPolicy σ
  numMeasurePerIter : ℤ
  loop : Option (SearchLoop σ)

def measuredInputs (inputs : List σ) (results : ℕ → MeasureResult) : List (Measured σ) :=
  inputs.mapIdx fun j state => ⟨⟨params.workloadKey, state⟩, results j⟩

/-- The measurer after one more call of `Measure`. -/
def SearchLoop.measure (l : SearchLoop σ) (measured : List (Measured σ)) : ProgramMeasurer σ :=
  MeasureCall.apply l.measurer ⟨params.flopCt, l.batchSize, l.batchSize.pos, measured⟩

/-- The early stopping test, after `inputs` have been measured. -/
def SearchLoop.stopsEarly (l : SearchLoop σ) (measured : List (Measured σ)) : Bool :=
  let measurer := l.measure params measured
  l.earlyStopping < l.ct + measured.length - measurer.bestCt params.workloadKey ∧
    params.workloadKey ∈ measurer.hasValid

/-- The calls of a policy.  The states of a round are those after `InferBound`, and
`results j` is the result of the `j`-th input. -/
inductive Call (σ : Type u) where
  | preloadMeasuredStates (records : List (LogRecord σ))
  | search (nTrials earlyStopping numMeasurePerIter : ℤ) (batchSize : ℕ+)
  | searchRound (bestStates randomStates : List σ) (results : ℕ → MeasureResult)
  | continueSearchOneRound (numMeasure : ℤ) (bestStates randomStates : List σ)
      (results : ℕ → MeasureResult)

namespace SketchPolicy

variable (toStr) (params : SketchParams) (m : SketchPolicy σ)

/-- The states picked in an iteration of the loop. -/
def pickInLoop (l : SearchLoop σ) (bestStates randomStates : List σ) : Picked σ :=
  pickStatesWithEpsGreedy toStr params.epsGreedy m.numMeasurePerIter m.policy bestStates
    randomStates (l.nTrials - l.ct)

/-- The states picked by `ContinueSearchOneRound`. -/
def pickOnce (numMeasure : ℤ) (bestStates randomStates : List σ) : Picked σ :=
  pickStatesWithEpsGreedy toStr params.epsGreedy numMeasure m.policy bestStates randomStates
    numMeasure

/-- An iteration of the loop in `Search`. -/
def searchRound (l : SearchLoop σ) (bestStates randomStates : List σ)
    (results : ℕ → MeasureResult) : SketchPolicy σ :=
  let picked := m.pickInLoop toStr params l bestStates randomStates
  let measured := measuredInputs params picked.inputs results
  if picked.inputs.isEmpty then
    { m with
      policy := picked.policy
      loop :=
        if 0 < l.emptyRetryCount then some { l with emptyRetryCount := l.emptyRetryCount - 1 }
        else none }
  else if l.stopsEarly params measured then { m with policy := picked.policy, loop := none }
  else
    { m with
      policy := picked.policy.pushThroughputs measured
      loop :=
        if h : l.ct + picked.inputs.length < l.nTrials then
          some
            { l with
              ct := l.ct + picked.inputs.length
              emptyRetryCount := params.emptyRetryCount
              measurer := l.measure params measured
              ct_lt := h }
        else none }

/-- A call, or an iteration of the loop in a call of `Search`.  A call of `Search` that
allows no measurement ends after its only round. -/
def step : Call σ → Option (SketchPolicy σ)
  | .preloadMeasuredStates records =>
    if m.loop.isNone then
      some { m with policy := m.policy.preloadMeasuredStates toStr params records }
    else none
  | .search nTrials earlyStopping numMeasurePerIter batchSize =>
    if m.loop.isNone then
      some
        { m with
          numMeasurePerIter := numMeasurePerIter
          loop :=
            if h : nTrials ≤ 1 then none
            else
              some
                { nTrials
                  earlyStopping := if earlyStopping < 0 then 2 ^ 30 - 1 else earlyStopping
                  ct := 0
                  emptyRetryCount := params.emptyRetryCount
                  batchSize
                  measurer := ProgramMeasurer.reset σ
                  ct_lt := by omega } }
    else none
  | .searchRound bestStates randomStates results =>
    m.loop.map fun l => m.searchRound toStr params l bestStates randomStates results
  | .continueSearchOneRound numMeasure bestStates randomStates results =>
    if m.loop.isNone then
      let picked := m.pickOnce toStr params numMeasure bestStates randomStates
      some
        { m with
          numMeasurePerIter := numMeasure
          policy := picked.policy.pushThroughputs (measuredInputs params picked.inputs results) }
    else none

/-- The states that a call measures or loads, with their throughputs. -/
def measurements : Call σ → List (σ × Ext ℚ)
  | .preloadMeasuredStates records =>
    (records.filter (·.Matches params)).map fun r => (r.state, r.throughput)
  | .search _ _ _ _ => []
  | .searchRound bestStates randomStates results =>
    m.loop.elim [] fun l =>
      (measuredInputs params (m.pickInLoop toStr params l bestStates randomStates).inputs
        results).map fun x => (x.input.state, throughput x.result)
  | .continueSearchOneRound numMeasure bestStates randomStates results =>
    (measuredInputs params (m.pickOnce toStr params numMeasure bestStates randomStates).inputs
      results).map fun x => (x.input.state, throughput x.result)

/-- The call is an iteration of `Search` that has measured programs and stops early. -/
def endsEarly : Call σ → Bool
  | .searchRound bestStates randomStates results =>
    m.loop.elim false fun l =>
      let picked := m.pickInLoop toStr params l bestStates randomStates
      !picked.inputs.isEmpty &&
        l.stopsEarly params (measuredInputs params picked.inputs results)
  | _ => false

end SketchPolicy

/-- A policy with its history: what has been measured so far, and whether a call of
`Search` has been stopped early. -/
structure PolicyRun (σ : Type u) where
  policy : SketchPolicy σ
  log : List (σ × Ext ℚ)
  endedEarly : Bool

namespace PolicyRun

variable (toStr) (params : SketchParams)

/-- A new policy. -/
def start : PolicyRun σ := ⟨⟨⟨∅, [], []⟩, 0, none⟩, [], false⟩

def step (t : PolicyRun σ) (call : Call σ) : Option (PolicyRun σ) :=
  (t.policy.step toStr params call).map fun m =>
    { policy := m
      log := t.log ++ t.policy.measurements toStr params call
      endedEarly := t.endedEarly || t.policy.endsEarly toStr params call }

/-- A sequence of calls on a new policy. -/
def run (calls : List (Call σ)) : Option (PolicyRun σ) := calls.foldlM (step toStr params) start

end PolicyRun

/-! ## States and throughputs -/

/-- What `Argsort` returns: the positions of the scores, from the largest to the smallest
one.  The order of equal scores is left open. -/
structure IsArgsort (scores : List (Ext ℚ)) (indices : List ℕ) : Prop where
  perm : indices.Perm (range scores.length)
  sorted : indices.Pairwise fun i j => ∀ a b, scores[i]? = some a → scores[j]? = some b →
    Ext.lt a b = false

/-- Each state has the throughput at its position, so the states that `SearchOneRound`
takes are in range and are the ones that it ranks. -/
structure Aligned (params : SketchParams) (log : List (σ × Ext ℚ)) (p : SearchPolicy σ) : Prop where
  belongs : Forall₂ (fun s t => (s, t) ∈ log) p.measuredStatesVector
    p.measuredStatesThroughputs
  ranked : ∀ indices, IsArgsort p.measuredStatesThroughputs indices →
    ∀ i : ℕ, (i : ℤ) < p.numUseMeasured params →
      ∃ k s t, indices[i]? = some k ∧ p.measuredStatesVector[k]? = some s ∧
        p.measuredStatesThroughputs[k]? = some t ∧ (s, t) ∈ log

variable {p params} {p' : SearchPolicy σ} {log log' : List (σ × Ext ℚ)}

theorem aligned_of_belongs (h : Forall₂ (fun s t => (s, t) ∈ log) p.measuredStatesVector
    p.measuredStatesThroughputs) : Aligned params log p where
  belongs := h
  ranked := by
    intro indices hsort i hi
    have hlength := h.length_eq
    have hi' : i < indices.length := by
      rw [hsort.perm.length_eq, length_range, ← hlength]
      have := lt_of_lt_of_le hi (min_le_left _ _)
      exact_mod_cast this
    have hk : indices[i] < p.measuredStatesThroughputs.length :=
      mem_range.mp (hsort.perm.mem_iff.mp (getElem_mem hi'))
    refine ⟨indices[i], p.measuredStatesVector[indices[i]],
      p.measuredStatesThroughputs[indices[i]], getElem?_eq_getElem hi',
      getElem?_eq_getElem (hlength ▸ hk), getElem?_eq_getElem hk, ?_⟩
    exact h.get (hlength ▸ hk) hk

/-- A policy that has got the same number of states and throughputs, all of them from
measurements. -/
def Grows (log : List (σ × Ext ℚ)) (p p' : SearchPolicy σ) : Prop :=
  ∃ rows : List (σ × Ext ℚ), (∀ row ∈ rows, row ∈ log) ∧
    p'.measuredStatesVector = p.measuredStatesVector ++ rows.map Prod.fst ∧
    p'.measuredStatesThroughputs = p.measuredStatesThroughputs ++ rows.map Prod.snd

theorem Grows.refl (log : List (σ × Ext ℚ)) (p : SearchPolicy σ) : Grows log p p := ⟨[], by simp⟩

theorem Grows.trans {p'' : SearchPolicy σ} (h : Grows log p p') (h' : Grows log' p' p'') :
    Grows (log ++ log') p p'' := by
  obtain ⟨rows, hrows, hvector, hthroughputs⟩ := h
  obtain ⟨rows', hrows', hvector', hthroughputs'⟩ := h'
  refine ⟨rows ++ rows', ?_, ?_, ?_⟩
  · exact forall_mem_append.mpr ⟨fun row hrow => mem_append_left _ (hrows row hrow),
      fun row hrow => mem_append_right _ (hrows' row hrow)⟩
  · rw [hvector', hvector, append_assoc, map_append]
  · rw [hthroughputs', hthroughputs, append_assoc, map_append]

theorem Grows.belongs (h : Grows log' p p')
    (hp : Forall₂ (fun s t => (s, t) ∈ log) p.measuredStatesVector p.measuredStatesThroughputs) :
    Forall₂ (fun s t => (s, t) ∈ log ++ log') p'.measuredStatesVector
      p'.measuredStatesThroughputs := by
  obtain ⟨rows, hrows, hvector, hthroughputs⟩ := h
  rw [hvector, hthroughputs]
  refine rel_append (hp.imp fun s t hst => mem_append_left _ hst) ?_
  rw [forall₂_map_left_iff, forall₂_map_right_iff, forall₂_same]
  exact fun row hrow => mem_append_right _ (hrows row hrow)

theorem Grows.length_lt (h : Grows log p p')
    (hp : p.measuredStatesThroughputs.length < p.measuredStatesVector.length) :
    p'.measuredStatesThroughputs.length < p'.measuredStatesVector.length := by
  obtain ⟨rows, -, hvector, hthroughputs⟩ := h
  rw [hvector, hthroughputs, length_append, length_append, length_map, length_map]
  omega

theorem grows_preload : Grows [(record.state, record.throughput)] p (p.preload toStr record) := by
  unfold SearchPolicy.preload
  split_ifs
  · exact .refl _ p
  · exact ⟨[], by simp⟩
  · exact ⟨[(record.state, record.throughput)], by simp⟩

theorem grows_preloadMeasuredStates (records : List (LogRecord σ)) :
    Grows (records.map fun r => (r.state, r.throughput)) p
      (records.foldl (SearchPolicy.preload toStr) p) := by
  induction records generalizing p with
  | nil => exact .refl _ p
  | cons record records ih => exact (grows_preload record).trans ih

theorem map_state_measuredInputs (inputs : List σ) (results : ℕ → MeasureResult) :
    (measuredInputs params inputs results).map (·.input.state) = inputs := by
  refine ext_getElem? fun i => ?_
  rw [measuredInputs, getElem?_map, getElem?_mapIdx, Option.map_map]
  exact map_id'

theorem Picked.Sound.grows {picked : Picked σ} (h : picked.Sound toStr p)
    (results : ℕ → MeasureResult) :
    Grows ((measuredInputs params picked.inputs results).map fun x =>
        (x.input.state, throughput x.result)) p
      (picked.policy.pushThroughputs (measuredInputs params picked.inputs results)) := by
  refine ⟨_, fun row hrow => hrow, ?_, ?_⟩
  · rw [List.map_map, SearchPolicy.pushThroughputs, h.vector_eq]
    exact congrArg _ (map_state_measuredInputs _ _).symm
  · rw [List.map_map, SearchPolicy.pushThroughputs, h.throughputs_eq]
    rfl

variable {m m' : SketchPolicy σ} {call : Call σ}

theorem sound_pickInLoop (toStr : σ → String) (params : SketchParams) (m : SketchPolicy σ)
    (l : SearchLoop σ) (best random : List σ) :
    (m.pickInLoop toStr params l best random).Sound toStr m.policy :=
  (Picked.Sound.start _).pickLoop

/-- The policy after an iteration: the throughputs are missing if it was the last one. -/
theorem SketchPolicy.searchRound_policy (m : SketchPolicy σ) (l : SearchLoop σ)
    (best random : List σ) (results : ℕ → MeasureResult) :
    let picked := m.pickInLoop toStr params l best random
    let measured := measuredInputs params picked.inputs results
    (m.searchRound toStr params l best random results).policy =
      if picked.inputs.isEmpty then picked.policy
      else if l.stopsEarly params measured then picked.policy
      else picked.policy.pushThroughputs measured := by
  simp [searchRound, apply_ite SketchPolicy.policy]

/-- A call that does not stop a search early adds complete rows. -/
theorem SketchPolicy.grows_step (h : m.step toStr params call = some m')
    (hearly : m.endsEarly toStr params call = false) :
    Grows (m.measurements toStr params call) m.policy m'.policy := by
  cases call with
  | preloadMeasuredStates records =>
    simp only [step, ite_none_right_eq_some, some.injEq] at h
    rw [← h.2]
    exact grows_preloadMeasuredStates _
  | search nTrials earlyStopping numMeasurePerIter batchSize =>
    simp only [step, ite_none_right_eq_some, some.injEq] at h
    rw [← h.2]
    exact .refl _ _
  | continueSearchOneRound numMeasure best random results =>
    simp only [step, ite_none_right_eq_some, some.injEq] at h
    rw [← h.2]
    exact (Picked.Sound.start _).pickLoop.grows results
  | searchRound best random results =>
    obtain ⟨l, hl, rfl⟩ := map_eq_some_iff.mp h
    have hsound := sound_pickInLoop toStr params m l best random
    simp only [endsEarly, hl, elim_some] at hearly
    simp only [measurements, hl, elim_some, searchRound_policy]
    split_ifs with hempty hstop
    · have hinputs := isEmpty_iff.mp hempty
      refine ⟨[], by simp, ?_, ?_⟩
      · rw [hsound.vector_eq, hinputs, map_nil]
      · rw [hsound.throughputs_eq, map_nil, append_nil]
    · rw [hstop, Bool.and_true, Bool.not_eq_false'] at hearly
      exact absurd hearly hempty
    · exact hsound.grows results

theorem SketchPolicy.step_of_endsEarly (h : m.step toStr params call = some m')
    (hearly : m.endsEarly toStr params call = true) :
    m'.policy.measuredStatesThroughputs = m.policy.measuredStatesThroughputs ∧
      m.policy.measuredStatesVector.length < m'.policy.measuredStatesVector.length := by
  cases call with
  | preloadMeasuredStates | search | continueSearchOneRound =>
    exact absurd hearly Bool.false_ne_true
  | searchRound best random results =>
    obtain ⟨l, hl, rfl⟩ := map_eq_some_iff.mp h
    have hsound := sound_pickInLoop toStr params m l best random
    simp only [endsEarly, hl, elim_some, Bool.and_eq_true, Bool.not_eq_true']
      at hearly
    simp only [searchRound_policy, hearly.1, hearly.2, Bool.false_eq_true, if_false, if_true]
    refine ⟨hsound.throughputs_eq, ?_⟩
    rw [hsound.vector_eq, length_append]
    have hpos := length_pos_iff.mpr (isEmpty_eq_false_iff.mp hearly.1)
    omega

/-- The rows of a policy whose searches have all run to their end, and the missing
throughputs of one with a search that was stopped early. -/
structure PolicyRun.Inv (t : PolicyRun σ) : Prop where
  belongs : t.endedEarly = false → Forall₂ (fun s x => (s, x) ∈ t.log)
    t.policy.policy.measuredStatesVector t.policy.policy.measuredStatesThroughputs
  missing : t.endedEarly = true → t.policy.policy.measuredStatesThroughputs.length <
    t.policy.policy.measuredStatesVector.length

theorem PolicyRun.Inv.start : (PolicyRun.start : PolicyRun σ).Inv :=
  ⟨fun _ => .nil, fun h => absurd h Bool.false_ne_true⟩

theorem PolicyRun.Inv.step {t t' : PolicyRun σ} (h : t.Inv)
    (hstep : t.step toStr params call = some t') : t'.Inv := by
  obtain ⟨m, hm, rfl⟩ := map_eq_some_iff.mp hstep
  cases hearly : t.policy.endsEarly toStr params call with
  | true =>
    obtain ⟨hthroughputs, hvector⟩ := SketchPolicy.step_of_endsEarly hm hearly
    refine ⟨fun hf => ?_, fun _ => ?_⟩
    · simp at hf
    · -- Before this call there were at most as many throughputs as states.
      have hle : t.policy.policy.measuredStatesThroughputs.length ≤
          t.policy.policy.measuredStatesVector.length := by
        cases hended : t.endedEarly with
        | true => exact (h.missing hended).le
        | false => exact (h.belongs hended).length_eq.ge
      exact hthroughputs ▸ hle.trans_lt hvector
  | false =>
    have hgrows := SketchPolicy.grows_step hm hearly
    refine ⟨fun hf => hgrows.belongs (h.belongs ?_), fun ht => hgrows.length_lt (h.missing ?_)⟩
    · simpa [hearly] using hf
    · simpa [hearly] using ht

/-- **Measured states and their throughputs.**  After any calls, and so at the start of
every round, each throughput is the one of the state at its position exactly when no call
of `Search` has been stopped early. -/
theorem aligned_iff {calls : List (Call σ)} {t : PolicyRun σ}
    (hrun : PolicyRun.run toStr params calls = some t) :
    Aligned params t.log t.policy.policy ↔ t.endedEarly = false := by
  have h : t.Inv := foldlM_invariant PolicyRun.Inv (fun _ _ _ _ hs hstep => hs.step hstep)
    .start hrun
  constructor
  · intro haligned
    refine Bool.eq_false_of_not_eq_true fun hended => ?_
    exact (h.missing hended).ne haligned.belongs.length_eq.symm
  · intro hended
    exact aligned_of_belongs (h.belongs hended)

/-- A policy for the runs below: no random states, one retry. -/
def matmulParams : SketchParams where
  workloadKey := "matmul"
  targetKind := "cuda"
  flopCt := 8
  epsGreedy := 0
  emptyRetryCount := 1
  useMeasured := 4

/-- A loaded state, a search that measures two more and one that measures the last. -/
def completeCalls : List (Call String) :=
  [.preloadMeasuredStates [⟨"matmul", "cuda", "a", timed [4]⟩], .search 2 (-1) 2 1,
    .searchRound ["a", "b"] ["c"] fun _ => timed [2],
    .continueSearchOneRound 1 ["c", "d"] [] fun _ => timed [1]]

theorem aligned_completeCalls : ∃ t, PolicyRun.run id matmulParams completeCalls = some t ∧
    t.policy.policy.measuredStatesVector = ["a", "b", "c", "d"] ∧
    Aligned matmulParams t.log t.policy.policy := by
  have hvalue : (PolicyRun.run id matmulParams completeCalls).map
      (fun t => (t.policy.policy.measuredStatesVector, t.endedEarly)) =
        some (["a", "b", "c", "d"], false) := by
    decide +kernel
  obtain ⟨t, ht, hvalue⟩ := map_eq_some_iff.mp hvalue
  exact ⟨t, ht, congrArg Prod.fst hvalue, (aligned_iff ht).mpr (congrArg Prod.snd hvalue)⟩

/-- A search that stops after its first round. -/
def stoppedCalls : List (Call String) := [.search 4 0 1 1, .searchRound ["a"] [] fun _ => timed [2]]

theorem not_aligned_stoppedCalls : ∃ t,
    PolicyRun.run id matmulParams stoppedCalls = some t ∧
      (t.policy.step id matmulParams
        (.continueSearchOneRound 1 ["b"] [] fun _ => timed [1])).isSome ∧
      t.policy.policy.numUseMeasured matmulParams = 1 ∧
      t.policy.policy.measuredStatesThroughputs = [] ∧
      ¬ Aligned matmulParams t.log t.policy.policy := by
  have hvalue : (PolicyRun.run id matmulParams stoppedCalls).map
      (fun t => (t.policy.policy.measuredStatesVector,
        t.policy.policy.measuredStatesThroughputs, t.policy.loop.isNone)) =
        some (["a"], [], true) := by
    decide +kernel
  obtain ⟨t, ht, hvalue⟩ := map_eq_some_iff.mp hvalue
  simp only [Prod.mk.injEq] at hvalue
  obtain ⟨hvector, hthroughputs, hloop⟩ := hvalue
  refine ⟨t, ht, ?_, ?_, hthroughputs, fun haligned => ?_⟩
  · simp [SketchPolicy.step, hloop]
  · rw [SearchPolicy.numUseMeasured, hvector]
    decide +kernel
  · have hlength := haligned.belongs.length_eq
    rw [hvector, hthroughputs] at hlength
    exact absurd hlength (by decide)

end Pruner.AutoScheduler
