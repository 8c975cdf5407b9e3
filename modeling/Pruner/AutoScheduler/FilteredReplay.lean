import Pruner.AutoScheduler.Replay
import Pruner.Te.Agreement

/-!
# Replaying only the steps that change operations

A step that adds a stage asks for the operations of the computation at its place in the
history.  `GetFormerStageModifiableSteps` selects the steps that change operations, and
`ReplayAndGetDAG` replays only these.  A `cache_write` makes its new operation from the
loops of the stage it is applied to, and an `rfactor` finds the loop it factors by
position: where a dropped step has transformed these loops, the selected steps do
something else than the complete history.

Marks follow the history: a stage is marked while it has loop transformations that the
selection drops.  A replay of the selected steps and a replay of the complete history
have the same operations, and the same loops at every unmarked stage.

## Main definitions

* `markStep`, `transformed` — the marks along a history.
* `Undisturbed` — no step that reads loops reads those of a marked stage.
* `Tracks` — two lowerings that agree at unmarked stages.
* `tracks_of_undisturbed` — the two replays track each other along the history.
-/

namespace Pruner.AutoScheduler

open Lib Te List Option Te.Stage

variable {factorIterId iterId stageId : ℤ} {lengths : List (Option ℤ)} {io : Bool}
  {hist : List Step} {step : Step}

/-! ## Marks -/

def Step.AddsStage : Step → Prop
  | .cacheReadStep .. | .cacheWriteStep .. | .rfactorStep .. => True
  | _ => False

instance : DecidablePred Step.AddsStage := fun step => by
  cases step <;> unfold Step.AddsStage <;> infer_instance

/-- Mark the stage whose loops a step transforms.  A new stage is unmarked, and so is a
stage that gets a new operation. -/
def markStep (marks : List Bool) (step : Step) : List Bool :=
  let i := step.stageId.toNat
  match step with
  | .fuseStep .. | .reorderStep .. | .splitStep .. | .followSplitStep ..
  | .followFusedSplitStep .. => marks.set i true
  | .cacheReadStep .. => marks.insertIdx (i + 1) false
  | .cacheWriteStep .. | .rfactorStep .. => (marks.set i false).insertIdx i false
  | _ => marks

variable (dag : ComputeDAG) (steps : List Step)

/-- The stages with transformed loops, after a history. -/
def transformed : List Bool := steps.foldl markStep (replicate dag.ops.length false)

/-- The first step that is selected together with the `rfactor` at position `i`. -/
def firstKept (i : ℕ) (stageId : ℤ) : ℕ :=
  match (if 2 ≤ i then steps[i - 2]? else none) with
  | some (.fuseStep s _) => if s = stageId then i - 2 else i - 1
  | _ => i - 1

/-- The step at position `i` finds the loops that the selected steps make: its stage is
unmarked, for an `rfactor` before the steps that are selected together with it. -/
def undisturbedAt (i : ℕ) : Bool :=
  match steps[i]? with
  | some (.cacheWriteStep stageId _) =>
    (transformed dag (steps.take i))[stageId.toNat]? = some false
  | some (.rfactorStep stageId _ _) =>
    (transformed dag (steps.take (firstKept steps i stageId)))[stageId.toNat]? = some false
  | _ => true

/-- No step of the history reads loops that a dropped step has transformed. -/
def Undisturbed : Prop := ∀ i < steps.length, undisturbedAt dag steps i = true

instance (dag : ComputeDAG) (steps : List Step) : Decidable (Undisturbed dag steps) :=
  inferInstanceAs (Decidable (∀ i < steps.length, _))

/-! ## Lowerings that agree at unmarked stages -/

/-- The same operations, and at every unmarked stage the same loops. -/
structure Tracks (marks : List Bool) (F G : Lowering) : Prop where
  sch : Schedule.Agree marks F.sch G.sch
  axes : AgreeOn Eq marks F.stageToAxes G.stageToAxes

variable {s t : Te.Stage} {marks : List Bool} {F G : Lowering} {i : ℕ} {lw lw' : Lowering}

namespace Tracks

/-- Two replays start from the same schedule. -/
theorem init : Tracks (replicate dag.ops.length false) dag.initLowering dag.initLowering where
  sch :=
    { nextOp := rfl
      ops := rfl
      nests := by
        have h := AgreeOn.refl (l := dag.initLowering.sch.stages) fun s _ =>
          Te.Stage.SameNest.refl s
        simpa [ComputeDAG.initLowering, Schedule.ofOps] using h }
  axes := by
    have h := AgreeOn.refl (l := dag.initLowering.stageToAxes) fun axes _ => rfl
    simpa [ComputeDAG.initLowering] using h

section

variable (h : Tracks marks F G)
include h

theorem strip_eq (hi : marks[i]? = some false) (hs : F.stage i = some s)
    (ht : G.stage i = some t) : s.strip = t.strip :=
  strip_eq_iff.mpr ⟨h.sch.op_eq hs ht, h.sch.nests.get hi hs ht⟩

theorem axes_eq (hi : marks[i]? = some false) {l l' : List IterVar} (hl : F.axes i = some l)
    (hl' : G.axes i = some l') : l = l' := by
  have hsome := h.axes.get hi (join_eq_some_iff.mp hl) (join_eq_some_iff.mp hl')
  exact some.inj hsome

/-! ### Steps that the selection drops -/

theorem touch {s' : Te.Stage} (hs : G.stage i = some s) (hop : s'.op = s.op) (axes : List IterVar) :
    Tracks (marks.set i true) F ((G.setStage i s').setAxes i axes) where
  sch :=
    { nextOp := h.sch.nextOp
      ops := h.sch.ops.trans (map_set_of_getElem? hs hop).symm
      nests := h.sch.nests.mark s' i }
  axes := h.axes.mark (some axes) i

/-- Attributes and placement of a stage do not matter. -/
theorem quiet {s' : Te.Stage} (hs : G.stage i = some s)
    (hcore : s'.core = s.core) : Tracks marks F (G.setStage i s') := by
  obtain ⟨hop, hnest⟩ := strip_eq_iff.mp (strip_eq_of_core hcore.symm)
  exact
    { sch :=
        { nextOp := h.sch.nextOp
          ops := h.sch.ops.trans (map_set_of_getElem? hs hop.symm).symm
          nests := h.sch.nests.set_right hs fun _ hsame => hsame.trans hnest }
      axes := h.axes }

end

end Tracks

/-- The loops of a stage after a fuse that made the loop `v`. -/
def fusedAxes (axes : List IterVar) (v : IterVar) : List ℤ → List IterVar
  | [] => [v]
  | front :: rest =>
    replaceSlice axes front.toNat ((front :: rest).getLast (cons_ne_nil _ _)).toNat [v]

theorem fuseToSchedule_cases {ids : List ℤ} (h : fuseToSchedule lw i ids = some lw') :
    ∃ s axes vs r, lw.stage i = some s ∧ lw.axes i = some axes ∧
      ids.mapM (atIndex axes) = some vs ∧ s.fuse vs = some r ∧
      lw' = (lw.setStage i r.1).setAxes i (fusedAxes axes r.2 ids) := by
  obtain ⟨s, hs, axes, haxes, h⟩ := bind₂_eq_some.mp h
  obtain ⟨vs, hvs, r, hr, h⟩ := bind₂_eq_some.mp h
  refine ⟨s, axes, vs, r, hs, haxes, hvs, hr, ?_⟩
  cases ids with
  | nil | cons front rest => exact (some.inj h).symm

theorem applySplitToSchedule_cases (h : applySplitToSchedule lw i iterId lengths io = some lw') :
    ∃ s axes v r, lw.stage i = some s ∧ lw.axes i = some axes ∧
      atIndex axes iterId = some v ∧ splitStage s v lengths io = some r ∧
      lw' = (lw.setStage i r.1).setAxes i
        (replaceSlice axes iterId.toNat iterId.toNat r.2) := by
  obtain ⟨s, hs, axes, haxes, h⟩ := bind₂_eq_some.mp h
  obtain ⟨v, hv, r, hr, h⟩ := bind₂_eq_some.mp h
  exact ⟨s, axes, v, r, hs, haxes, hv, hr, (some.inj h).symm⟩

theorem reorderToSchedule_cases {afterIds : List ℤ}
    (h : reorderToSchedule lw i afterIds = some lw') :
    ∃ s axes axes' s', lw.stage i = some s ∧ lw.axes i = some axes ∧
      afterIds.mapM (atIndex axes) = some axes' ∧ s.reorder axes' = some s' ∧
      lw' = (lw.setStage i s').setAxes i axes' := by
  obtain ⟨s, hs, axes, haxes, h⟩ := bind₂_eq_some.mp h
  split_ifs at h
  obtain ⟨axes', haxes', s', hs', h⟩ := bind₂_eq_some.mp h
  exact ⟨s, axes, axes', s', hs, haxes, haxes', hs', (some.inj h).symm⟩

theorem rfactorToSchedule_cases (h : rfactorToSchedule lw i iterId factorIterId = some lw') :
    ∃ axes v sch, lw.axes i = some axes ∧ atIndex axes iterId = some v ∧
      lw.sch.rfactor i v factorIterId = some sch ∧
      insertAxesBefore sch lw.stageToAxes i = some lw' := by
  obtain ⟨axes, haxes, v, hv, sch, hsch, h⟩ := bind₃_eq_some.mp h
  exact ⟨axes, v, sch, haxes, hv, hsch, h⟩

/-! ### Splits, as loop transformations of a stage -/

variable {r : Te.Stage × List IterVar} {v : IterVar}

variable {s : Te.Stage}

section

variable (s : Te.Stage) (v : IterVar) (lengths : List (Option ℤ))

theorem splitInnerToOuter_strip :
    splitInnerToOuter s.strip v lengths =
      (splitInnerToOuter s v lengths).map fun r => (r.1.strip, r.2) := by
  induction lengths generalizing s v with
  | nil => rfl
  | cons l lengths ih =>
    cases l with
    | none => rfl
    | some factor =>
      simp only [splitInnerToOuter, bind_eq_bind, bind_some, split, splitHelper_strip]
      cases s.splitHelper v (some factor) none with
      | none => rfl
      | some r =>
        simp only [map_some, bind_some, ih]
        cases splitInnerToOuter r.1 r.2.1 lengths <;> rfl

theorem splitOuterToInner_strip :
    splitOuterToInner s.strip v lengths =
      (splitOuterToInner s v lengths).map fun r => (r.1.strip, r.2) := by
  induction lengths generalizing s v with
  | nil => rfl
  | cons l lengths ih =>
    cases l with
    | none => rfl
    | some nparts =>
      simp only [splitOuterToInner, bind_eq_bind, bind_some, splitByNparts, splitHelper_strip]
      cases s.splitHelper v none (some nparts) with
      | none => rfl
      | some r =>
        simp only [map_some, bind_some, ih]
        cases splitOuterToInner r.1 r.2.2 lengths <;> rfl

theorem splitStage_strip (io : Bool) :
    splitStage s.strip v lengths io =
      (splitStage s v lengths io).map fun r => (r.1.strip, r.2) := by
  cases io with
  | false => exact splitOuterToInner_strip s v lengths
  | true =>
    simp only [splitStage, if_true, splitInnerToOuter_strip, Option.map_map]
    rfl

end

theorem header_splits (h : splitInnerToOuter s v lengths = some r ∨
    splitOuterToInner s v lengths = some r) : r.1.header = s.header := by
  induction lengths generalizing s v r with
  | nil => rcases h with ⟨⟨⟩⟩ | ⟨⟨⟩⟩ <;> rfl
  | cons l lengths ih =>
    rcases h with h | h
    all_goals
      obtain ⟨_, -, r₁, h₁, r₂, h₂, h⟩ := bind₃_eq_some.mp h
      cases h
    · exact (ih (.inl h₂)).trans (header_splitHelper h₁)
    · exact (ih (.inr h₂)).trans (header_splitHelper h₁)

theorem header_splitStage (h : splitStage s v lengths io = some r) : r.1.header = s.header := by
  cases io with
  | false => exact header_splits (.inr h)
  | true =>
    obtain ⟨r₁, h₁, rfl⟩ := map_eq_some_iff.mp h
    have hr := header_splits (.inl h₁)
    exact hr

/-! ### Attributes and placement -/

variable {s s' : Te.Stage}

theorem core_updateLeafAttr {f : IterVarAttr → IterVarAttr}
    (h : s.updateLeafAttr v f = some s') : s'.core = s.core := by
  obtain ⟨pos, -, h⟩ := bind_eq_some_iff.mp h
  cases h
  rfl

theorem core_vectorize (h : s.vectorize v = some s') : s'.core = s.core := by
  rw [vectorize] at h
  split_ifs at h
  exact core_updateLeafAttr h

theorem core_bind {tag : String} (h : s.bind v tag = some s') : s'.core = s.core := by
  rw [Te.Stage.bind] at h
  split_ifs at h
  exact core_updateLeafAttr h

theorem core_pragma {pragmaType : String} {value : Option ℤ}
    (h : s.pragma v pragmaType value = some s') : s'.core = s.core := by
  rw [pragma] at h
  split_ifs at h
  · exact core_updateLeafAttr h
  · exact core_vectorize h
  · exact core_updateLeafAttr h

theorem core_computeAt {parent : Te.Stage} (h : s.computeAt parent v = some s') :
    s'.core = s.core := by
  rw [computeAt] at h
  split_ifs at h
  cases h
  rfl

theorem core_annotateStage {ann : IteratorAnnotation}
    (h : annotateStage s v ann = some s') : s'.core = s.core := by
  cases ann with
  | kUnroll | kParallel => exact core_updateLeafAttr h
  | kVectorize => exact core_vectorize h
  | kNone | kTensorize => cases h
  | _ => exact core_bind h

theorem setStage_self (hs : lw.stage i = some s) : lw.setStage i s = lw := by
  obtain ⟨hlt, rfl⟩ := List.getElem?_eq_some_iff.mp hs
  simp [Lowering.setStage]

/-- The step changes attributes or the placement of one stage. -/
def QuietAt (i : ℕ) (lw lw' : Lowering) : Prop :=
  ∃ s s', lw.stage i = some s ∧ s'.core = s.core ∧ lw' = lw.setStage i s'

theorem annotationToSchedule_quiet {ann : IteratorAnnotation}
    (h : annotationToSchedule lw i iterId ann = some lw') : QuietAt i lw lw' := by
  obtain ⟨s, hs, axes, -, h⟩ := bind₂_eq_some.mp h
  split_ifs at h
  · cases h
    exact ⟨s, s, hs, rfl, (setStage_self hs).symm⟩
  · obtain ⟨v, -, s', hs', h⟩ := bind₂_eq_some.mp h
    exact ⟨s, s', hs, core_annotateStage hs', (some.inj h).symm⟩

theorem pragmaToSchedule_quiet {pragmaType : String}
    (h : pragmaToSchedule lw i iterId pragmaType = some lw') : QuietAt i lw lw' := by
  obtain ⟨s, hs, axes, -, h⟩ := bind₂_eq_some.mp h
  split_ifs at h
  · obtain ⟨value, -, v, -, h⟩ := bind₂_eq_some.mp h
    obtain ⟨s₁, hs₁, s₂, hs₂, h⟩ := bind₂_eq_some.mp h
    exact ⟨s, s₂, hs, (core_pragma hs₂).trans (core_pragma hs₁), (some.inj h).symm⟩
  · obtain ⟨value, -, h⟩ := bind_eq_some_iff.mp h
    cases h
    exact ⟨s, s, hs, rfl, (setStage_self hs).symm⟩
  · obtain ⟨v, -, s', hs', h⟩ := bind₂_eq_some.mp h
    exact ⟨s, s', hs, core_pragma hs', (some.inj h).symm⟩

theorem computeAtToSchedule_quiet {target targetIter : ℤ}
    (h : computeAtToSchedule lw i target targetIter = some lw') :
    QuietAt i lw lw' ∧ ∃ parent, atIndex lw.sch.stages target = some parent := by
  obtain ⟨s, hs, t, ht, parent, hparent, h⟩ := bind₃_eq_some.mp h
  obtain ⟨axes, -, v, -, s', hs', h⟩ := bind₃_eq_some.mp h
  refine ⟨⟨s, s', hs, core_computeAt hs', (some.inj h).symm⟩, parent, ?_⟩
  exact atIndex_eq_some_iff.mpr ⟨t, Int.mem_toNat?.mp ht, hparent⟩

theorem storageAlignToSchedule_quiet {factor offset : ℤ}
    (h : storageAlignToSchedule lw i iterId factor offset = some lw') : QuietAt i lw lw' := by
  obtain ⟨s, hs, axes, -, v, -, h⟩ := bind₃_eq_some.mp h
  exact ⟨s, s.storageAlign v factor offset, hs, rfl, (some.inj h).symm⟩

theorem placeStage_quiet {f : Te.Stage → Te.Stage} (hf : ∀ s, (f s).core = s.core)
    (h : (lw.stage i).map (fun s => lw.setStage i (f s)) = some lw') : QuietAt i lw lw' := by
  obtain ⟨s, hs, rfl⟩ := map_eq_some_iff.mp h
  exact ⟨s, f s, hs, hf s, rfl⟩

/-- A step that adds no stage changes attributes or placement of its stage, or gives it other
loops and marks it. -/
theorem stepApplyToSchedule_cases (hstep : ¬ step.AddsStage)
    (h : stepApplyToSchedule hist lw step = some lw') :
    ∃ i : ℕ, step.stageId = i ∧
      (QuietAt i lw lw' ∧ (∀ marks, markStep marks step = marks) ∨
        (∃ s s' axes, lw.stage i = some s ∧ s'.header = s.header ∧
          lw' = (lw.setStage i s').setAxes i axes) ∧
        ∀ marks, markStep marks step = marks.set i true) := by
  obtain ⟨i, hi, h⟩ := bind_eq_some_iff.mp h
  have hid := Int.mem_toNat?.mp hi
  refine ⟨i, hid, ?_⟩
  have hmark : step.stageId.toNat = i := by rw [hid, Int.toNat_natCast]
  have hsplit {iterId lengths io} (h : applySplitToSchedule lw i iterId lengths io = some lw') :
      ∃ s s' axes, lw.stage i = some s ∧ s'.header = s.header ∧
        lw' = (lw.setStage i s').setAxes i axes := by
    obtain ⟨s, axes, v, r, hs, -, -, hr, rfl⟩ := applySplitToSchedule_cases h
    exact ⟨s, _, _, hs, header_splitStage hr, rfl⟩
  cases step with
  | annotationStep => exact .inl ⟨annotationToSchedule_quiet h, fun _ => rfl⟩
  | pragmaStep => exact .inl ⟨pragmaToSchedule_quiet h, fun _ => rfl⟩
  | storageAlignStep => exact .inl ⟨storageAlignToSchedule_quiet h, fun _ => rfl⟩
  | computeAtStep => exact .inl ⟨(computeAtToSchedule_quiet h).1, fun _ => rfl⟩
  | computeInlineStep =>
    exact .inl ⟨placeStage_quiet (f := computeInline) (fun _ => rfl) h, fun _ => rfl⟩
  | computeRootStep =>
    exact .inl ⟨placeStage_quiet (f := computeRoot) (fun _ => rfl) h, fun _ => rfl⟩
  | fuseStep =>
    obtain ⟨s, axes, vs, r, hs, -, -, hr, rfl⟩ := fuseToSchedule_cases h
    exact .inr ⟨⟨s, _, _, hs, header_fuse hr, rfl⟩, fun _ => by simp only [markStep, hmark]⟩
  | reorderStep =>
    obtain ⟨s, -, axes, s', hs, -, -, hs', rfl⟩ := reorderToSchedule_cases h
    exact .inr ⟨⟨s, _, _, hs, header_reorder hs', rfl⟩, fun _ => by simp only [markStep, hmark]⟩
  | splitStep => exact .inr ⟨hsplit h, fun _ => by simp only [markStep, hmark]⟩
  | followSplitStep | followFusedSplitStep =>
    obtain ⟨_, -, h⟩ := bind_eq_some_iff.mp h
    exact .inr ⟨hsplit h, fun _ => by simp only [markStep, hmark]⟩
  | cacheReadStep | cacheWriteStep | rfactorStep => exact absurd trivial hstep

namespace Tracks

variable {F G F' G' : Lowering}

section

variable (h : Tracks marks F G)
include h

/-- **A step that the selection drops** is applied to the complete schedule only. -/
theorem dropped (hstep : ¬ step.AddsStage) (hG : stepApplyToSchedule hist G step = some G') :
    Tracks (markStep marks step) F G' := by
  obtain ⟨i, -, ⟨⟨s, s', hs, hcore, rfl⟩, hmark⟩ | ⟨⟨s, s', axes, hs, hheader, rfl⟩, hmark⟩⟩ :=
    stepApplyToSchedule_cases hstep hG
  · rw [hmark]
    exact h.quiet hs hcore
  · rw [hmark]
    exact h.touch hs (op_eq_of_header hheader) axes

/-! ### Steps that the selection keeps -/

theorem setBoth (hst : s.strip = t.strip) (axes : List IterVar) :
    Tracks marks ((F.setStage i s).setAxes i axes) ((G.setStage i t).setAxes i axes) where
  sch :=
    { nextOp := h.sch.nextOp
      ops := by
        have hop : s.op = t.op := (strip_eq_iff.mp hst).1
        simp [Lowering.setAxes, Lowering.setStage, h.sch.ops, hop]
      nests := h.sch.nests.set_both (strip_eq_iff.mp hst).2 i }
  axes := h.axes.set_both rfl i

theorem fuse (hi : marks[i]? = some false) {ids : List ℤ} (hF : fuseToSchedule F i ids = some F')
    (hG : fuseToSchedule G i ids = some G') :
    Tracks marks F' G' := by
  obtain ⟨s, axes, vs, r, hs, haxes, hvs, hr, rfl⟩ := fuseToSchedule_cases hF
  obtain ⟨t, axes', vs', r', ht, haxes', hvs', hr', rfl⟩ := fuseToSchedule_cases hG
  obtain rfl := h.axes_eq hi haxes haxes'
  obtain rfl : vs = vs' := some.inj (hvs.symm.trans hvs')
  have hfuse := fuse_strip s vs
  rw [h.strip_eq hi hs ht, fuse_strip, hr, hr'] at hfuse
  obtain ⟨hstrip, hv⟩ := Prod.mk.inj (some.inj hfuse)
  rw [hv]
  exact h.setBoth hstrip.symm _

theorem split (hi : marks[i]? = some false)
    (hF : applySplitToSchedule F i iterId lengths io = some F')
    (hG : applySplitToSchedule G i iterId lengths io = some G') : Tracks marks F' G' := by
  obtain ⟨s, axes, v, r, hs, haxes, hv, hr, rfl⟩ := applySplitToSchedule_cases hF
  obtain ⟨t, axes', v', r', ht, haxes', hv', hr', rfl⟩ := applySplitToSchedule_cases hG
  obtain rfl := h.axes_eq hi haxes haxes'
  obtain rfl : v = v' := some.inj (hv.symm.trans hv')
  have hsplit := splitStage_strip s v lengths io
  rw [h.strip_eq hi hs ht, splitStage_strip, hr, hr'] at hsplit
  obtain ⟨hstrip, hout⟩ := Prod.mk.inj (some.inj hsplit)
  rw [hout]
  exact h.setBoth hstrip.symm _

theorem cacheRead {scope : String} {readers : List ℤ}
    (hF : cacheReadToSchedule F i scope readers = some F')
    (hG : cacheReadToSchedule G i scope readers = some G') :
    Tracks (marks.insertIdx (i + 1) false) F' G' := by
  obtain ⟨rs, hrs, a, ha, s, hs, hF⟩ := bind₃_eq_some.mp hF
  obtain ⟨rs', hrs', b, hb, t, ht, hG⟩ := bind₃_eq_some.mp hG
  cases hF
  cases hG
  cases hrs.symm.trans hrs'
  have hsch := h.sch.cacheRead ha hb
  exact ⟨hsch, h.axes.insertIdx (congrArg axesOf (hsch.op_eq hs ht)) (i + 1)⟩

end

/-- The tables follow a rewrite that put a stage before stage `i`. -/
theorem insertAxesBefore {m : List Bool} {a b : Schedule}
    {axes axes' : List (Option (List IterVar))}
    (hsch : Schedule.Agree (m.insertIdx i false) a b) (haxes : AgreeOn Eq m axes axes')
    (hF : insertAxesBefore a axes i = some F') (hG : insertAxesBefore b axes' i = some G') :
    Tracks (m.insertIdx i false) F' G' := by
  obtain ⟨s, hs, s₁, hs₁, hF⟩ := bind₂_eq_some.mp hF
  obtain ⟨t, ht, t₁, ht₁, hG⟩ := bind₂_eq_some.mp hG
  cases hF
  cases hG
  exact ⟨hsch, (haxes.set_both (congrArg axesOf (hsch.op_eq hs₁ ht₁)) i).insertIdx
    (congrArg axesOf (hsch.op_eq hs ht)) i⟩

theorem cacheWrite (h : Tracks marks F G) (hi : marks[i]? = some false) {scope : String}
    (hF : cacheWriteToSchedule F i scope = some F')
    (hG : cacheWriteToSchedule G i scope = some G') :
    Tracks (marks.insertIdx i false) F' G' := by
  obtain ⟨a, ha, hF⟩ := bind_eq_some_iff.mp hF
  obtain ⟨b, hb, hG⟩ := bind_eq_some_iff.mp hG
  exact insertAxesBefore (h.sch.cacheWrite hi ha hb) h.axes hF hG

theorem rfactor (h : Tracks marks F G) (hi : marks[i]? = some false)
    (hF : rfactorToSchedule F i iterId factorIterId = some F')
    (hG : rfactorToSchedule G i iterId factorIterId = some G') :
    Tracks (marks.insertIdx i false) F' G' := by
  obtain ⟨axes, v, a, haxes, hv, ha, hF⟩ := rfactorToSchedule_cases hF
  obtain ⟨axes', v', b, haxes', hv', hb, hG⟩ := rfactorToSchedule_cases hG
  obtain rfl := h.axes_eq hi haxes haxes'
  obtain rfl : v = v' := some.inj (hv.symm.trans hv')
  exact insertAxesBefore (h.sch.rfactor hi ha hb) h.axes hF hG

end Tracks

/-! ## The two replays -/

/-- The steps selected from the first `n` positions take the schedule to `F`. -/
def KeptRun (hist steps : List Step) (n : ℕ) (F : Lowering) : Prop :=
  ∃ kept, (range n).mapM (modifiableStepsAt steps) = some kept ∧
    kept.flatten.foldlM (stepApplyToSchedule hist) dag.initLowering = some F

/-- The first `n` steps take the schedule to `G`. -/
def FullRun (hist steps : List Step) (n : ℕ) (G : Lowering) : Prop :=
  (steps.take n).foldlM (stepApplyToSchedule hist) dag.initLowering = some G

section

variable {dag : ComputeDAG} {hist histG steps : List Step} {n : ℕ}

theorem keptRun_succ : KeptRun dag hist steps (n + 1) F ↔ ∃ F₀ kept, KeptRun dag hist steps n F₀ ∧
      modifiableStepsAt steps n = some kept ∧
      kept.foldlM (stepApplyToSchedule hist) F₀ = some F := by
  constructor
  · rintro ⟨kept, hkept, hF⟩
    rw [range_succ, mapM_concat_eq_some] at hkept
    obtain ⟨front, last, hfront, hlast, rfl⟩ := hkept
    rw [flatten_append, foldlM_append_eq_some] at hF
    obtain ⟨F₀, hF₀, hF⟩ := hF
    rw [flatten_singleton] at hF
    exact ⟨F₀, last, ⟨front, hfront, hF₀⟩, hlast, hF⟩
  · rintro ⟨F₀, last, ⟨front, hfront, hF₀⟩, hlast, hF⟩
    refine ⟨front ++ [last], ?_, ?_⟩
    · rw [range_succ, mapM_concat_eq_some]
      exact ⟨front, last, hfront, hlast, rfl⟩
    · rw [flatten_append, foldlM_append_eq_some, flatten_singleton]
      exact ⟨F₀, hF₀, hF⟩

section

variable (hstep : steps[n]? = some step)
include hstep

theorem fullRun_succ : FullRun dag hist steps (n + 1) G ↔
      ∃ G₀, FullRun dag hist steps n G₀ ∧ stepApplyToSchedule hist G₀ step = some G := by
  rw [FullRun, take_add_one, hstep]
  exact foldlM_concat_eq_some

theorem transformed_take_succ :
    transformed dag (steps.take (n + 1)) = markStep (transformed dag (steps.take n)) step := by
  rw [take_add_one, hstep]
  simp [transformed]

theorem KeptRun.of_succ (hadds : ¬ step.AddsStage) (hF : KeptRun dag hist steps (n + 1) F) :
    KeptRun dag hist steps n F := by
  obtain ⟨F₀, kept, hF₀, hkept, hF⟩ := keptRun_succ.mp hF
  have hnil : modifiableStepsAt steps n = some [] := by
    rw [modifiableStepsAt, hstep]
    cases step <;> first | rfl | exact absurd trivial hadds
  cases hkept.symm.trans hnil
  cases hF
  exact hF₀

end

/-- The step `k` places before position `n`. -/
theorem exists_of_getElem?_sub {α : Type*} {l : List α} {k : ℕ} {a : α}
    (h : (if k ≤ n then l[n - k]? else none) = some a) : ∃ q, n = q + k ∧ l[q]? = some a := by
  split_ifs at h with hk
  exact ⟨n - k, (Nat.sub_add_cancel hk).symm, h⟩

theorem modifiableStepsAt_rfactor {kept : List Step}
    (hstep : steps[n]? = some (.rfactorStep stageId iterId factorIterId))
    (hkept : modifiableStepsAt steps n = some kept) :
    ∃ iter extent lengths io, let split : Step := .splitStep stageId iter extent lengths io
      let rfactor : Step := .rfactorStep stageId iterId factorIterId
      (∃ q, n = q + 1 ∧ firstKept steps n stageId = q ∧ steps[q]? = some split ∧
        kept = [split, rfactor]) ∨
      ∃ q ids, n = q + 2 ∧ firstKept steps n stageId = q ∧
        steps[q]? = some (.fuseStep stageId ids) ∧ steps[q + 1]? = some split ∧
        kept = [.fuseStep stageId ids, split, rfactor] := by
  simp only [modifiableStepsAt, hstep] at hkept
  simp only [firstKept]
  generalize hfuse : (if 2 ≤ n then steps[n - 2]? else none) = prev at hkept ⊢
  split at hkept
  next s iter extent lengths io hsplit =>
    obtain ⟨q, rfl, hsplit⟩ := exists_of_getElem?_sub hsplit
    by_cases hs : s = stageId
    · subst hs
      rw [if_pos rfl] at hkept
      cases hkept
      refine ⟨iter, extent, lengths, io, ?_⟩
      split
      next s' ids =>
        by_cases hs' : s' = s
        · subst hs'
          obtain ⟨p, hp, hfuse⟩ := exists_of_getElem?_sub hfuse
          obtain rfl : q = p + 1 := Nat.succ.inj hp
          exact .inr ⟨p, ids, rfl, by simp, hfuse, hsplit, by simp⟩
        · exact .inl ⟨q, rfl, by simp [hs'], hsplit, by simp [hs']⟩
      next => exact .inl ⟨q, rfl, by simp, hsplit, by simp⟩
    · rw [if_neg hs] at hkept
      cases hkept
  next => cases hkept

theorem stageId_eq_natCast {lw lw' : Lowering}
    (h : stepApplyToSchedule hist lw step = some lw') : ∃ i : ℕ, step.stageId = i := by
  obtain ⟨i, hi, -⟩ := bind_eq_some_iff.mp h
  exact ⟨i, Int.mem_toNat?.mp hi⟩

/-- **Before an `rfactor`** the selected split, with the fuse before it, has made the loops
of the stage that the complete history has. -/
theorem rfactor_ready {kept : List Step}
    (ih : ∀ m ≤ n, ∀ F G, KeptRun dag hist steps m F → FullRun dag histG steps m G →
      Tracks (transformed dag (steps.take m)) F G)
    (hstep : steps[n]? = some (.rfactorStep stageId iterId factorIterId))
    (hclean : undisturbedAt dag steps n = true) (hkept : modifiableStepsAt steps n = some kept)
    (hF : KeptRun dag hist steps n F) (hG : FullRun dag histG steps n G) :
    ∃ pre, kept = pre ++ [.rfactorStep stageId iterId factorIterId] ∧
      ∀ F₁, pre.foldlM (stepApplyToSchedule hist) F = some F₁ →
        ∃ marks, Tracks marks F₁ G ∧ marks[stageId.toNat]? = some false ∧
          transformed dag (steps.take (n + 1)) = marks.insertIdx stageId.toNat false := by
  have hclean' : (transformed dag
      (steps.take (firstKept steps n stageId)))[stageId.toNat]? = some false := by
    simpa [undisturbedAt, hstep] using hclean
  obtain ⟨iter, extent, lengths, io, hcases⟩ := modifiableStepsAt_rfactor hstep hkept
  rcases hcases with ⟨q, rfl, hfirst, hsplit, rfl⟩ | ⟨q, ids, rfl, hfirst, hfuse, hsplit, rfl⟩
  · rw [hfirst] at hclean'
    refine ⟨[.splitStep stageId iter extent lengths io], rfl, fun F₁ hF₁ => ?_⟩
    have hF₀ := hF.of_succ hsplit not_false
    obtain ⟨G₀, hG₀, hsG⟩ := (fullRun_succ hsplit).mp hG
    obtain ⟨F', hsF, hF'⟩ := foldlM_cons_eq_some.mp hF₁
    cases hF'
    obtain ⟨i, rfl⟩ := stageId_eq_natCast hsG
    have hT := ih q (by omega) F G₀ hF₀ hG₀
    refine ⟨_, hT.split hclean' hsF hsG, hclean', ?_⟩
    rw [transformed_take_succ hstep, transformed_take_succ hsplit]
    simp only [markStep, Step.stageId, set_set, set_of_getElem? hclean']
  · rw [hfirst] at hclean'
    refine ⟨[.fuseStep stageId ids, .splitStep stageId iter extent lengths io], rfl,
      fun F₁ hF₁ => ?_⟩
    have hF₀ := (hF.of_succ hsplit not_false).of_succ hfuse not_false
    obtain ⟨G₁, hG₁, hsG⟩ := (fullRun_succ hsplit).mp hG
    obtain ⟨G₀, hG₀, hfG⟩ := (fullRun_succ hfuse).mp hG₁
    obtain ⟨F', hfF, hF'⟩ := foldlM_cons_eq_some.mp hF₁
    obtain ⟨F'', hsF, hF''⟩ := foldlM_cons_eq_some.mp hF'
    cases hF''
    obtain ⟨i, rfl⟩ := stageId_eq_natCast hsG
    have hT := ih q (by omega) F G₀ hF₀ hG₀
    refine ⟨_, (hT.fuse hclean' hfF hfG).split hclean' hsF hsG, hclean', ?_⟩
    rw [transformed_take_succ hstep, transformed_take_succ hsplit, transformed_take_succ hfuse]
    simp only [markStep, Step.stageId, set_set, set_of_getElem? hclean']

theorem tracks_succ (hstep : steps[n]? = some step) (hclean : undisturbedAt dag steps n = true)
    (ih : ∀ m ≤ n, ∀ F G, KeptRun dag hist steps m F → FullRun dag histG steps m G →
      Tracks (transformed dag (steps.take m)) F G) (hF : KeptRun dag hist steps (n + 1) F)
    (hG : FullRun dag histG steps (n + 1) G) :
    Tracks (transformed dag (steps.take (n + 1))) F G := by
  obtain ⟨G₀, hG₀, hsG⟩ := (fullRun_succ hstep).mp hG
  by_cases hadds : step.AddsStage
  · obtain ⟨F₀, kept, hF₀, hkept, hsF⟩ := keptRun_succ.mp hF
    have hT := ih n le_rfl F₀ G₀ hF₀ hG₀
    obtain ⟨i, hi⟩ := stageId_eq_natCast hsG
    cases step with
    | cacheReadStep stageId scopeName readers =>
      obtain rfl : stageId = (i : ℤ) := hi
      obtain rfl : kept = [.cacheReadStep i scopeName readers] := by
        simpa [modifiableStepsAt, hstep] using hkept.symm
      rw [foldlM_singleton] at hsF
      rw [transformed_take_succ hstep]
      exact hT.cacheRead hsF hsG
    | cacheWriteStep stageId scopeName =>
      obtain rfl : stageId = (i : ℤ) := hi
      obtain rfl : kept = [.cacheWriteStep i scopeName] := by
        simpa [modifiableStepsAt, hstep] using hkept.symm
      rw [foldlM_singleton] at hsF
      have hi' : (transformed dag (steps.take n))[i]? = some false := by
        simpa [undisturbedAt, hstep] using hclean
      rw [transformed_take_succ hstep]
      simp only [markStep, Step.stageId, Int.toNat_natCast, set_of_getElem? hi']
      exact hT.cacheWrite hi' hsF hsG
    | rfactorStep stageId iterId factorIterId =>
      obtain rfl : stageId = (i : ℤ) := hi
      obtain ⟨pre, rfl, hready⟩ := rfactor_ready ih hstep hclean hkept hF₀ hG₀
      obtain ⟨F₁, hF₁, hsF⟩ := foldlM_concat_eq_some.mp hsF
      obtain ⟨marks, hT₁, hi', hmarks⟩ := hready F₁ hF₁
      rw [hmarks]
      exact hT₁.rfactor hi' hsF hsG
    | _ => exact absurd hadds not_false
  · have hT := ih n le_rfl F G₀ (hF.of_succ hstep hadds) hG₀
    rw [transformed_take_succ hstep]
    exact hT.dropped hadds hsG

/-- **The two replays track each other** along an undisturbed history. -/
theorem tracks_of_undisturbed (hclean : Undisturbed dag steps) (hn : n ≤ steps.length)
    (hF : KeptRun dag hist steps n F) (hG : FullRun dag histG steps n G) :
    Tracks (transformed dag (steps.take n)) F G := by
  -- An `rfactor` looks back two or three steps, so all earlier positions are needed.
  induction n using Nat.strong_induction_on generalizing F G with
  | _ n ih =>
    cases n with
    | zero =>
      obtain ⟨kept, hkept, hF⟩ := hF
      obtain rfl : kept = [] := (some.inj hkept).symm
      obtain rfl : _ = F := some.inj hF
      cases hG
      exact Tracks.init dag
    | succ n =>
      refine tracks_succ (getElem?_eq_getElem hn) (hclean n hn) ?_ hF hG
      exact fun m hm F G hF hG => ih m (by omega) (by omega) hF hG

end

/-! ## Histories of a state -/

theorem Step.AddsStage.formerDAG {dag : ComputeDAG} {pos : ℕ} {st st' : State}
    (hadds : step.AddsStage) (h : stepApplyToState dag pos st step = some st') :
    ∃ current, formerDAG dag pos st.transformSteps = some current := by
  cases step with
  | cacheReadStep | cacheWriteStep =>
    obtain ⟨i, -, current, hcurrent, -⟩ := bind₂_eq_some.mp h
    exact ⟨current, hcurrent⟩
  | rfactorStep =>
    obtain ⟨i, -, stage, -, current, hcurrent, -⟩ := bind₃_eq_some.mp h
    exact ⟨current, hcurrent⟩
  | _ => exact absurd hadds not_false

theorem formerDAG_of_run {dag : ComputeDAG} {ps : List Primitive} {st : State}
    (hrun : dag.run ps = some st) {rest : List Step}
    (hsteps : st.transformSteps = hist ++ step :: rest) (hadds : step.AddsStage) :
    ∃ current, formerDAG dag hist.length (hist ++ [step]) = some current := by
  induction ps using reverseRecOn generalizing st rest with
  | nil =>
    cases hrun
    simp [ComputeDAG.initState] at hsteps
  | append_singleton ps p ih =>
    obtain ⟨m, hm, hp⟩ := foldlM_concat_eq_some.mp hrun
    rcases apply_cases hp with rfl | ⟨last, -, hrec, hlast⟩
    · exact ih hm hsteps
    · rcases eq_nil_or_concat rest with rfl | ⟨rest', last', rfl⟩
      · obtain ⟨rfl, rfl⟩ : m.transformSteps = hist ∧ last = step := by
          rw [hlast] at hsteps
          exact append_singleton_inj.mp hsteps
        exact hadds.formerDAG hrec
      · have hprefix : m.transformSteps = hist ++ step :: rest' := by
          rw [hlast, concat_eq_append, ← cons_append, ← append_assoc] at hsteps
          exact (append_singleton_inj.mp hsteps).1
        exact ih hm hprefix

/-- The loop that an `rfactor` of a schedule factors. -/
def factoredLoop (lw : Lowering) : Step → Option IterVar
  | .rfactorStep stageId iterId _ => do
    let i ← stageId.toNat?
    let axes ← lw.axes i
    atIndex axes iterId
  | _ => none

theorem Tracks.factoredLoop_eq {marks : List Bool} {F G G' : Lowering} (h : Tracks marks F G)
    (hclean : marks[stageId.toNat]? = some false)
    (hG : stepApplyToSchedule hist G (.rfactorStep stageId iterId factorIterId) = some G')
    {F' : Lowering} {histF : List Step}
    (hF : stepApplyToSchedule histF F (.rfactorStep stageId iterId factorIterId) = some F') :
    ∃ v, factoredLoop F (.rfactorStep stageId iterId factorIterId) = some v ∧
      factoredLoop G (.rfactorStep stageId iterId factorIterId) = some v := by
  obtain ⟨i, hi⟩ := stageId_eq_natCast hG
  obtain rfl : stageId = (i : ℤ) := hi
  obtain ⟨axes, v, -, haxes, hv, -, -⟩ := rfactorToSchedule_cases hF
  obtain ⟨axes', v', -, haxes', hv', -, -⟩ := rfactorToSchedule_cases hG
  obtain rfl := h.axes_eq hclean haxes haxes'
  have hfind : ∀ lw : Lowering, factoredLoop lw (.rfactorStep i iterId factorIterId) =
      (lw.axes i).bind fun axes => atIndex axes iterId := fun _ => rfl
  rw [hfind, hfind, haxes, haxes']
  exact ⟨v, hv, hv⟩

/-- **The selected steps do what the complete history does**, as long as no step that
reads loops reads those of a stage that a dropped step has transformed: for every step of
a run that adds a stage, the replay of the selected steps has the operations that the
replay of the complete history has, and an `rfactor` factors the same loop in both. -/
theorem filteredReplay_of_undisturbed {dag : ComputeDAG} {ps : List Primitive} {st : State}
    (hrun : dag.run ps = some st) {hist rest : List Step} {step : Step}
    (hsteps : st.transformSteps = hist ++ step :: rest) (hadds : step.AddsStage)
    (hclean : Undisturbed dag (hist ++ [step])) {full : Lowering}
    (hfull : dag.applySteps (hist ++ [step]) = some full) :
    ∃ kept current, getFormerStageModifiableSteps hist.length st.transformSteps = some kept ∧
      dag.replayAndGetDAG kept = some current ∧
      current.ops = full.sch.stages.map (·.op) ∧
      ∀ stageId iterId factorIterId, step = .rfactorStep stageId iterId factorIterId →
        ∃ former before before' v, kept = former ++ [step] ∧
          former.foldlM (stepApplyToSchedule kept) dag.initLowering = some before ∧
          hist.foldlM (stepApplyToSchedule (hist ++ [step])) dag.initLowering = some before' ∧
          factoredLoop before step = some v ∧ factoredLoop before' step = some v := by
  obtain ⟨current, hcurrent⟩ := formerDAG_of_run hrun hsteps hadds
  obtain ⟨kept, hkept, hreplay⟩ := bind_eq_some_iff.mp hcurrent
  obtain ⟨filtered, hfiltered, hvalid⟩ := bind_eq_some_iff.mp hreplay
  obtain ⟨sel, hsel, hflat⟩ := bind_eq_some_iff.mp hkept
  cases hflat
  have hstep : (hist ++ [step])[hist.length]? = some step := by simp
  have htake : (hist ++ [step]).take (hist.length + 1) = hist ++ [step] :=
    take_of_length_le (by simp)
  have hF : KeptRun dag sel.flatten (hist ++ [step]) (hist.length + 1) filtered :=
    ⟨sel, hsel, hfiltered⟩
  have hG : FullRun dag (hist ++ [step]) (hist ++ [step]) (hist.length + 1) full := by
    rw [FullRun, htake]
    exact hfull
  refine ⟨sel.flatten, current, ?_, hreplay, ?_, ?_⟩
  · have hall : st.transformSteps = (hist ++ [step]) ++ rest := by simp [hsteps]
    have hlt : hist.length < (hist ++ [step]).length := by simp
    rw [hall, getFormerStageModifiableSteps_append hlt]
    exact hkept
  · have hops := (tracks_of_undisturbed hclean (by simp) hF hG).sch.ops
    rw [ComputeDAG.ofSchedule] at hvalid
    split_ifs at hvalid
    cases hvalid
    exact hops
  · rintro stageId iterId factorIterId rfl
    rw [range_succ, mapM_concat_eq_some] at hsel
    obtain ⟨front, last, hfront, hlast, rfl⟩ := hsel
    rw [flatten_append, flatten_singleton] at hfiltered ⊢
    obtain ⟨F₀, hF₀, hsF⟩ := foldlM_append_eq_some.mp hfiltered
    obtain ⟨G₀, hG₀, hsG⟩ := (fullRun_succ hstep).mp hG
    obtain ⟨pre, rfl, hready⟩ := rfactor_ready
      (fun m hm F G hF hG => tracks_of_undisturbed hclean (by simp; omega) hF hG)
      hstep (hclean hist.length (by simp)) hlast ⟨front, hfront, hF₀⟩ hG₀
    obtain ⟨F₁, hF₁, hsF⟩ := foldlM_concat_eq_some.mp hsF
    obtain ⟨marks, hT, hmark, -⟩ := hready F₁ hF₁
    obtain ⟨v, hvF, hvG⟩ := hT.factoredLoop_eq hmark hsG hsF
    refine ⟨front.flatten ++ pre, F₁, G₀, v, (append_assoc ..).symm, ?_, ?_, hvF, hvG⟩
    · exact foldlM_append_eq_some.mpr ⟨F₀, hF₀, hF₁⟩
    · rw [FullRun, take_left] at hG₀
      exact hG₀

theorem filteredReplay_rowSumDAG : ∃ st full kept current,
    rowSumDAG.run [.split 1 0 [some 2] true, .split 2 1 [some 4] true, .rfactor 2 1 1] = some st ∧
    rowSumDAG.applySteps st.transformSteps = some full ∧
    getFormerStageModifiableSteps 2 st.transformSteps = some kept ∧
    rowSumDAG.replayAndGetDAG kept = some current ∧
    current.ops = full.sch.stages.map (·.op) := by
  have hsome : (rowSumDAG.run
      [.split 1 0 [some 2] true, .split 2 1 [some 4] true, .rfactor 2 1 1]).isSome := by
    decide +kernel
  obtain ⟨st, hst⟩ := isSome_iff_exists.mp hsome
  have hsteps : (rowSumDAG.run
      [.split 1 0 [some 2] true, .split 2 1 [some 4] true, .rfactor 2 1 1]).map
      (·.transformSteps) = some ([.splitStep 1 0 (some 4) [some 2] true,
        .splitStep 2 1 (some 8) [some 4] true] ++ .rfactorStep 2 1 1 :: []) := by
    decide +kernel
  rw [hst] at hsteps
  replace hsteps : st.transformSteps = _ := some.inj hsteps
  have hfull : (rowSumDAG.applySteps ([.splitStep 1 0 (some 4) [some 2] true,
      .splitStep 2 1 (some 8) [some 4] true] ++ [.rfactorStep 2 1 1])).isSome := by
    decide +kernel
  obtain ⟨full, hfull⟩ := isSome_iff_exists.mp hfull
  obtain ⟨kept, current, hkept, hcurrent, hops, -⟩ :=
    filteredReplay_of_undisturbed hst hsteps trivial (by decide +kernel) hfull
  refine ⟨st, full, kept, current, hst, ?_, hkept, hcurrent, hops⟩
  rw [hsteps]
  exact hfull

/-- `C[x] = sum(A[x, r0, r1], r0, r1)`. -/
def twoSumDAG : ComputeDAG :=
  ⟨[⟨0, .placeholder [.intImm 4, .intImm 8, .intImm 16]⟩,
    Operation.declare 1 [.dataPar 0 "x" 4] [.commReduce 1 "r0" 8, .commReduce 2 "r1" 16] [0]]⟩

/-- The operations that the last step of a run asks for, and the operations of the
complete replay. -/
def replayedOps (ps : List Primitive) : Option (List Operation × List Operation) := do
  let st ← dag.run ps
  let current ← formerDAG dag (st.transformSteps.length - 1) st.transformSteps
  let full ← dag.applySteps st.transformSteps
  some (current.ops, full.sch.stages.map (·.op))

/-- A reorder before the split of an `rfactor` is dropped, and the filtered replay splits
and factors `r0` where the history does it with `r1`.  A split before a `cache_write` is
dropped, and the filtered replay makes an operation with one axis instead of two. -/
theorem filteredReplay_disturbed :
    ((replayedOps twoSumDAG [.reorder 1 [0, 2, 1], .split 1 1 [some 4] true,
      .rfactor 1 2 1]).map fun r => decide (r.1 = r.2)) = some false ∧
    ((replayedOps twoSumDAG [.split 1 0 [some 2] true, .cacheWrite 1 "local"]).map
      fun r => decide (r.1 = r.2)) = some false := by
  decide +kernel

end Pruner.AutoScheduler
