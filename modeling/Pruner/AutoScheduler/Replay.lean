import Pruner.AutoScheduler.Primitives

/-!
# Replaying a recorded history

`InferBound` and the readers of log files rebuild a state from its history: the
initial state is given the whole list of steps, then the steps are applied one after
the other.  While a state was built call by call, each step saw only the steps before
it.  The replay gives the same state, since a step looks only at earlier ones: a
follow-split step at split steps with a smaller number, and a step that adds a stage
at the history up to itself.

## Main definitions

* `State.withHistory` — the state with another history.
* `stepApplyToState_withHistory` — a step does the same under a longer history.
* `replayFrom_run` — the replay keeps pace with the run.
-/

namespace Pruner.AutoScheduler

open Lib Te List Option

variable {lengths : List (Option ℤ)} {pos : ℕ} {dag : ComputeDAG} {st st' : State}

def State.withHistory (st : State) (steps : List Step) : State :=
  { st with transformSteps := steps }

/-! ## Lookups in the history -/

variable {steps tail : List Step}

theorem splitLengthsAt_append {id : ℤ} (h : splitLengthsAt steps id = some lengths) :
    splitLengthsAt (steps ++ tail) id = some lengths := by
  simp only [splitLengthsAt, do_eq_some] at h ⊢
  obtain ⟨i, hi, h⟩ := h
  refine ⟨i, hi, ?_⟩
  split at h
  · next hs =>
      obtain ⟨hlt, -⟩ := List.getElem?_eq_some_iff.mp hs
      rw [getElem?_append_left hlt, hs]
      exact h
  · cases h

theorem extractSplitLengths_append {src nSplit : ℤ}
    (h : extractSplitLengths steps src nSplit = some lengths) :
    extractSplitLengths (steps ++ tail) src nSplit = some lengths := by
  simp only [extractSplitLengths, do_eq_some] at h ⊢
  obtain ⟨ls, hls, h⟩ := h
  exact ⟨ls, splitLengthsAt_append hls, h⟩

theorem extractSplitLength_append {level : ℤ} {ids : List ℤ} : ∀ {acc : ℤ} {r : Option ℤ},
    extractSplitLength steps level acc ids = some r →
    extractSplitLength (steps ++ tail) level acc ids = some r := by
  induction ids with
  | nil => intro acc r h; exact h
  | cons id ids ih =>
    intro acc r h
    simp only [extractSplitLength, do_eq_some] at h ⊢
    obtain ⟨ls, hls, j, hj, l, hl, h⟩ := h
    refine ⟨ls, splitLengthsAt_append hls, j, hj, l, hl, ?_⟩
    cases l with
    | none => exact h
    | some x => exact ih h

theorem modifiableStepsAt_append {i : ℕ} (hi : i < steps.length) :
    modifiableStepsAt (steps ++ tail) i = modifiableStepsAt steps i := by
  have h0 : (steps ++ tail)[i]? = steps[i]? := getElem?_append_left hi
  have h1 : (steps ++ tail)[i - 1]? = steps[i - 1]? := getElem?_append_left (by omega)
  have h2 : (steps ++ tail)[i - 2]? = steps[i - 2]? := getElem?_append_left (by omega)
  simp [modifiableStepsAt, h0, h1, h2]

/-- The steps kept for a step are among those up to it. -/
theorem getFormerStageModifiableSteps_append (hpos : pos < steps.length) :
    getFormerStageModifiableSteps pos (steps ++ tail) =
      getFormerStageModifiableSteps pos steps := by
  have hmap : (range (pos + 1)).mapM (modifiableStepsAt (steps ++ tail)) =
      (range (pos + 1)).mapM (modifiableStepsAt steps) := by
    refine mapM_congr fun i hi => modifiableStepsAt_append ?_
    rw [mem_range] at hi
    omega
  simp [getFormerStageModifiableSteps, hmap]

/-! ## Steps under a longer history -/

variable {α : Type} {x : Option α} {f : α → Option State} {w : State → State}

theorem bind_eq_map (h : ∀ a, f a = (g a).map w) : x.bind f = (x.bind g).map w := by
  cases x with
  | none => rfl
  | some a => exact h a

theorem ite_eq_map {p : Prop} [Decidable p] {a a' b b' : Option State} (ha : a = a'.map w)
    (hb : b = b'.map w) : (if p then a else b) = (if p then a' else b').map w := by
  split_ifs
  · exact ha
  · exact hb

theorem applySplitToState_withHistory (st : State) (i : ℕ) (steps : List Step) (iterId : ℤ)
    (lengths : List (Option ℤ)) (io : Bool) :
    applySplitToState (st.withHistory steps) i iterId lengths io =
      (applySplitToState st i iterId lengths io).map (·.withHistory steps) :=
  bind_eq_map fun _ => bind_eq_map fun _ => bind_eq_map fun _ => bind_eq_map fun _ => rfl

/-- **A step does the same under a longer history.** -/
theorem stepApplyToState_withHistory {step : Step} (hpos : pos < st.transformSteps.length)
    (tail : List Step) (h : stepApplyToState dag pos st step = some st') :
    stepApplyToState dag pos (st.withHistory (st.transformSteps ++ tail)) step =
      some (st'.withHistory (st.transformSteps ++ tail)) := by
  have hdag : formerDAG dag pos (st.transformSteps ++ tail) =
      formerDAG dag pos st.transformSteps := by
    simp [formerDAG, getFormerStageModifiableSteps_append hpos]
  have hmap : ∀ {y : Option State}, y = (stepApplyToState dag pos st step).map
      (·.withHistory (st.transformSteps ++ tail)) →
      y = some (st'.withHistory (st.transformSteps ++ tail)) := by
    intro y hy
    rw [hy, h, map_some]
  cases step with
  | pragmaStep =>
    exact hmap (ite_eq_map rfl (ite_eq_map (bind_eq_map fun _ => bind_eq_map fun _ => rfl) rfl))
  | annotationStep =>
    refine hmap (bind_eq_map fun i => ?_)
    exact bind_eq_map fun stage => bind_eq_map fun it => ite_eq_map rfl rfl
  | fuseStep stageId fusedIds =>
    refine hmap (bind_eq_map fun i => ?_)
    refine bind_eq_map fun stage => bind_eq_map fun its => ite_eq_map ?_ rfl
    cases fusedIds with
    | nil => rfl
    | cons front rest => exact bind_eq_map fun m => rfl
  | reorderStep =>
    exact hmap (bind_eq_map fun i => bind_eq_map fun stage => bind_eq_map fun iters => rfl)
  | splitStep =>
    exact hmap (bind_eq_map fun i => applySplitToState_withHistory st i _ _ _ _)
  | followSplitStep =>
    obtain ⟨lengths, hlen, i, hi, h⟩ := bind₂_eq_some.mp h
    refine bind₂_eq_some.mpr ⟨lengths, extractSplitLengths_append hlen, i, hi, ?_⟩
    rw [applySplitToState_withHistory, h, map_some]
  | followFusedSplitStep =>
    obtain ⟨length, hlen, i, hi, h⟩ := bind₂_eq_some.mp h
    refine bind₂_eq_some.mpr ⟨length, extractSplitLength_append hlen, i, hi, ?_⟩
    rw [applySplitToState_withHistory, h, map_some]
  | storageAlignStep | computeAtStep | computeRootStep =>
    exact hmap (bind_eq_map fun i => bind_eq_map fun stage => rfl)
  | computeInlineStep =>
    exact hmap (bind_eq_map fun i => bind_eq_map fun stage => ite_eq_map rfl rfl)
  | cacheReadStep =>
    refine hmap (bind_eq_map fun i => ?_)
    simp only [cacheReadToState, State.withHistory, hdag]
    exact bind_eq_map fun current => bind_eq_map fun stages => bind_eq_map fun added =>
      bind_eq_map fun stages' => rfl
  | cacheWriteStep =>
    refine hmap (bind_eq_map fun i => ?_)
    simp only [cacheWriteToState, State.withHistory, hdag]
    refine bind_eq_map fun current => ite_eq_map ?_ rfl
    refine bind_eq_map fun cache => bind_eq_map fun target => ite_eq_map ?_ ?_
    · exact bind_eq_map fun extra => bind_eq_map fun stages => rfl
    · exact bind_eq_map fun stages => rfl
  | rfactorStep =>
    refine hmap (bind_eq_map fun i => ?_)
    simp only [rfactorToState, State.withHistory, hdag]
    exact bind_eq_map fun stage => bind_eq_map fun current => bind_eq_map fun factor =>
      bind_eq_map fun target => bind_eq_map fun stages => rfl

@[simp] theorem State.withHistory_self (st : State) : st.withHistory st.transformSteps = st := rfl

/-- A step leaves the history alone. -/
theorem stepApplyToState_transformSteps {step : Step} (hpos : pos < st.transformSteps.length)
    (h : stepApplyToState dag pos st step = some st') :
    st'.transformSteps = st.transformSteps := by
  have hsame := stepApplyToState_withHistory hpos [] h
  rw [append_nil, State.withHistory_self, h] at hsame
  have heq : st' = st'.withHistory st.transformSteps := some.inj hsame
  rw [heq]
  rfl

/-! ## Runs -/

/-- What a call records: nothing, or one step that it then applies. -/
theorem apply_cases {p : Primitive} (h : p.apply dag st = some st') :
    st' = st ∨ ∃ step, p.step st = some (some step) ∧ st.record dag step = some st' ∧
      st'.transformSteps = st.transformSteps ++ [step] := by
  obtain ⟨step?, hstep, h⟩ := bind_eq_some_iff.mp h
  cases step? with
  | none => exact .inl (some.inj h).symm
  | some step =>
    refine .inr ⟨step, hstep, h, ?_⟩
    exact stepApplyToState_transformSteps (by simp) h

theorem replayFrom_append {l₁ l₂ : List Step} : ∀ {pos : ℕ} {st : State},
    replayFrom dag pos st (l₁ ++ l₂) =
      (replayFrom dag pos st l₁).bind fun st' => replayFrom dag (pos + l₁.length) st' l₂ := by
  induction l₁ with
  | nil => intro pos st; rfl
  | cons step l₁ ih =>
    intro pos st
    simp [replayFrom, bind_assoc, ih, Nat.add_assoc, Nat.add_comm 1]

/-- The replay keeps pace with the run, whatever steps come after it. -/
theorem replayFrom_run {ps : List Primitive} : ∀ {st : State},
    dag.run ps = some st → ∀ tail,
      replayFrom dag 0 (dag.initState.withHistory (st.transformSteps ++ tail))
        st.transformSteps = some (st.withHistory (st.transformSteps ++ tail)) := by
  induction ps using reverseRecOn with
  | nil =>
    intro st h tail
    cases h
    rfl
  | append_singleton ps p ih =>
    intro st h tail
    obtain ⟨m, hm, hp⟩ := foldlM_concat_eq_some.mp h
    rcases apply_cases hp with rfl | ⟨step, -, hrec, hsteps⟩
    · exact ih hm tail
    · have hpace := ih hm (step :: tail)
      have happly := stepApplyToState_withHistory (by simp) tail hrec
      simp only [State.withHistory, append_assoc, singleton_append] at happly
      rw [hsteps, replayFrom_append, append_assoc, singleton_append, hpace]
      simp [replayFrom, State.withHistory, happly]

/-- **Replaying the history that a run has recorded rebuilds the state**: the same
stages, attach map and current computation. -/
theorem replay_run {dag : ComputeDAG} {ps : List Primitive} {st : State}
    (h : dag.run ps = some st) : dag.replay st.transformSteps = some st := by
  have hpace := replayFrom_run h []
  rwa [append_nil] at hpace

theorem replay_run_rowSumDAG : ∃ st,
    rowSumDAG.run [.split 2 1 [some 4] true, .rfactor 2 1 1, .followSplit 1 1 0 2] = some st ∧
      rowSumDAG.replay st.transformSteps = some st := by
  have hsome : (rowSumDAG.run
      [.split 2 1 [some 4] true, .rfactor 2 1 1, .followSplit 1 1 0 2]).isSome := by decide
  obtain ⟨st, hst⟩ := isSome_iff_exists.mp hsome
  exact ⟨st, hst, replay_run hst⟩

end Pruner.AutoScheduler
