import Mathlib.Tactic.FinCases
import Pruner.AutoScheduler.State

/-!
# The schedule primitives of a state

The methods of `State` in `loop_state.cc` each check their arguments, record a step
at the end of the history and apply it.

An iterator argument is given by its position.  The C++ is handed the iterator object
and finds its position in the stage (`GetIndex`), so a position that is out of range
stands for an iterator that is not there.

## Main definitions

* `Primitive` — a call of a method; `Primitive.step` the step it records.
* `Primitive.apply`, `ComputeDAG.run` — the effect of a call, and of a sequence of
  calls on the initial state.
* `Along` — every call of a run meets a condition.
* `ComputeDAG.replay` — the replay of a recorded history, as in `InferBound`.
* `rowSumDAG` — a small computation that later modules run calls on.
-/

namespace Pruner.AutoScheduler

open Te

/-- A call of a method of `State`. -/
inductive Primitive where
  | bind (stageId : ℤ) (it : ℕ) (threadType : IteratorAnnotation)
  | parallel (stageId : ℤ) (it : ℕ)
  | unroll (stageId : ℤ) (it : ℕ) (maxUnroll : ℤ)
  | vectorize (stageId : ℤ) (it : ℕ)
  | fuse (stageId : ℤ) (iters : List ℕ)
  | pragma (stageId : ℤ) (it : ℕ) (pragmaType : String)
  | reorder (stageId : ℤ) (order : List ℕ)
  | split (stageId : ℤ) (it : ℕ) (lengths : List (Option ℤ)) (innerToOuter : Bool)
  | followSplit (stageId : ℤ) (it : ℕ) (srcStepId nSplit : ℤ)
  | followFusedSplit (stageId : ℤ) (it : ℕ) (srcStepIds : List ℤ) (level : ℤ)
      (factorOrNparts : Bool)
  | storageAlign (stageId : ℤ) (it : ℕ) (factor offset : ℤ)
  | computeAt (stageId targetStageId : ℤ) (targetIter : ℕ)
  | computeInline (stageId : ℤ)
  | computeRoot (stageId : ℤ)
  | cacheRead (stageId : ℤ) (scopeName : String) (readerStageIds : List ℤ)
  | cacheWrite (stageId : ℤ) (scopeName : String)
  | rfactor (stageId : ℤ) (it : ℕ) (factorIterId : ℤ)
  deriving DecidableEq, Repr, Inhabited

/-- The iterator at a position of a stage. -/
def State.iterAt (st : State) (stageId : ℤ) (it : ℕ) : Option Iterator := do
  let stage ← atIndex st.stages stageId
  stage.iters[it]?

/-- The annotations that bind a loop to a thread, `kVThread` to `kThreadZ`. -/
def IteratorAnnotation.isThread (a : IteratorAnnotation) : Bool := (threadTag a).isSome

def Iterator.constExtent (it : Iterator) : Option ℤ := it.range.bind fun r => r.extent.asIntImm

/-- `unroll` leaves a loop alone that is longer than the limit; `-1` is no limit. -/
def exceedsMaxUnroll (it : Iterator) (maxUnroll : ℤ) : Bool :=
  maxUnroll ≠ -1 && match it.constExtent with
    | some extent => decide (maxUnroll < extent)
    | none => false

namespace Primitive

/-- The step a call records.  `some none` is a call that does nothing, `none` an
error. -/
def step (st : State) : Primitive → Option (Option Step)
  | .bind stageId it threadType => do
    let _ ← st.iterAt stageId it
    if threadType.isThread then some (some (.annotationStep stageId it threadType)) else none
  | .parallel stageId it => do
    let _ ← st.iterAt stageId it
    some (some (.annotationStep stageId it .kParallel))
  | .unroll stageId it maxUnroll => do
    let iter ← st.iterAt stageId it
    if exceedsMaxUnroll iter maxUnroll then some none
    else some (some (.annotationStep stageId it .kUnroll))
  | .vectorize stageId it => do
    let _ ← st.iterAt stageId it
    some (some (.annotationStep stageId it .kVectorize))
  | .fuse stageId iters => do
    let stage ← atIndex st.stages stageId
    if ∀ it ∈ iters, it < stage.iters.length then
      some (some (.fuseStep stageId (iters.map Nat.cast)))
    else none
  | .pragma stageId it pragmaType => do
    let _ ← st.iterAt stageId it
    some (some (.pragmaStep stageId it pragmaType))
  | .reorder stageId order => do
    let stage ← atIndex st.stages stageId
    if order.length = stage.iters.length ∧ ∀ it ∈ order, it < stage.iters.length then
      some (some (.reorderStep stageId (order.map Nat.cast)))
    else none
  | .split stageId it lengths innerToOuter => do
    let iter ← st.iterAt stageId it
    some (some (.splitStep stageId it iter.constExtent lengths innerToOuter))
  | .followSplit stageId it srcStepId nSplit => do
    let _ ← st.iterAt stageId it
    some (some (.followSplitStep stageId it srcStepId nSplit))
  | .followFusedSplit stageId it srcStepIds level factorOrNparts => do
    let _ ← st.iterAt stageId it
    some (some (.followFusedSplitStep stageId it srcStepIds level factorOrNparts))
  | .storageAlign stageId it factor offset => do
    let _ ← st.iterAt stageId it
    some (some (.storageAlignStep stageId it factor offset))
  | .computeAt stageId targetStageId targetIter => do
    let _ ← st.iterAt targetStageId targetIter
    some (some (.computeAtStep stageId targetStageId targetIter))
  | .computeInline stageId => some (some (.computeInlineStep stageId))
  | .computeRoot stageId => some (some (.computeRootStep stageId))
  | .cacheRead stageId scopeName readers =>
    some (some (.cacheReadStep stageId scopeName readers))
  | .cacheWrite stageId scopeName => some (some (.cacheWriteStep stageId scopeName))
  | .rfactor stageId it factorIterId => do
    let _ ← st.iterAt stageId it
    some (some (.rfactorStep stageId it factorIterId))

end Primitive

variable (dag : ComputeDAG)

/-- Record a step at the end of the history and apply it. -/
def State.record (st : State) (step : Step) : Option State :=
  stepApplyToState dag st.transformSteps.length
    { st with transformSteps := st.transformSteps ++ [step] } step

/-- The effect of a call. -/
def Primitive.apply (st : State) (p : Primitive) : Option State :=
  (p.step st).bind fun step =>
    match step with
    | none => some st
    | some step => st.record dag step

/-- A sequence of calls. -/
def runFrom (st : State) (ps : List Primitive) : Option State := ps.foldlM (Primitive.apply dag) st

/-- A sequence of calls on the initial state. -/
def ComputeDAG.run (ps : List Primitive) : Option State := runFrom dag dag.initState ps

/-- Every call of a run meets a condition in the state it is made in. -/
def Along (dag : ComputeDAG) (C : State → Primitive → Prop) : State → List Primitive → Prop
  | _, [] => True
  | st, p :: ps => C st p ∧ ∀ st', p.apply dag st = some st' → Along dag C st' ps

variable {C : State → Primitive → Prop} {ps : List Primitive}

theorem along_of_forall {dag : ComputeDAG}
    (h : ∀ p ∈ ps, ∀ st, C st p) : ∀ st, Along dag C st ps := by
  induction ps with
  | nil => exact fun _ => trivial
  | cons p ps ih =>
    intro st
    refine ⟨h p List.mem_cons_self st, fun st' _ => ?_⟩
    exact ih (List.forall_mem_cons.mp h).2 st'

theorem along_concat {dag : ComputeDAG}
    {p : Primitive} : ∀ {st : State}, Along dag C st (ps ++ [p]) →
      Along dag C st ps ∧ ∀ m, runFrom dag st ps = some m → C m p := by
  induction ps with
  | nil =>
    intro st h
    refine ⟨trivial, fun m hm => ?_⟩
    cases hm
    exact h.1
  | cons q ps ih =>
    intro st h
    refine ⟨⟨h.1, fun st' hst' => (ih (h.2 st' hst')).1⟩, fun m hm => ?_⟩
    obtain ⟨st', hst', hrest⟩ := Lib.foldlM_cons_eq_some.mp hm
    exact (ih (h.2 st' hst')).2 m hrest

/-- Apply the steps of a history from position `pos` on. -/
def replayFrom (dag : ComputeDAG) : ℕ → State → List Step → Option State
  | _, st, [] => some st
  | pos, st, step :: rest =>
    (stepApplyToState dag pos st step).bind fun st' => replayFrom dag (pos + 1) st' rest

/-- Replay a recorded history: the initial state is given the whole history, then the
steps are applied one after the other. -/
def ComputeDAG.replay (steps : List Step) : Option State :=
  replayFrom dag 0 { dag.initState with transformSteps := steps } steps

/-- `B[i, j] = f(A[i, j])` and `C[x] = sum(B[x, k], k)`. -/
def rowSumDAG : ComputeDAG :=
  ⟨[⟨0, .placeholder [.intImm 4, .intImm 8]⟩,
    Operation.declare 1 [.dataPar 0 "i" 4, .dataPar 1 "j" 8] [] [0],
    Operation.declare 2 [.dataPar 2 "x" 4] [.commReduce 3 "k" 8] [1]]⟩

/-- The same as a computation that the user hands in. -/
def rowSumInput : InputDAG where
  toComputeDAG := rowSumDAG
  ids_nodup := by decide
  names_nodup := by decide
  declared := by decide
  axis_type := by
    intro op hop c hc v hv
    fin_cases hop <;> cases hc <;> fin_cases hv <;> rfl
  reduce_type := by
    intro op hop c hc v hv
    fin_cases hop <;> cases hc <;> fin_cases hv
    rfl

end Pruner.AutoScheduler
