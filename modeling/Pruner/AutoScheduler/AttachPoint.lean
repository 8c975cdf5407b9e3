import Mathlib.Data.Fintype.EquivFin
import Pruner.AutoScheduler.AttachInvariant
import Pruner.AutoScheduler.FilteredReplay
import Pruner.AutoScheduler.LockStep
import Pruner.Te.Legalize

/-!
# Attach points of state and schedule

A state says where a stage is attached by the position of an iterator, and moves the
entries when loops are split or fused.  A schedule keeps the loop variable the stage
was attached to, and looks for the loop it has become when the schedule is lowered
(`LegalizeInvalidAttach`).  As long as loops are only split and fused, both agree.

A reorder keeps the loop variables of the schedule, but moves the iterators of the
state under entries that stay where they are.

## Main definitions

* `AttachSim` — the attach map of a state and the attach points of a schedule agree.
* `AttachSim.sliceEdit`, `AttachSim.placed` — splits, fuses and `compute_at` keep it.
* `legalized_attach_of_run` — after a run, legalization attaches every stage to the loop
  that the state says.
* `reorder_keeps_attach_iff` — when a reorder keeps the attach points.
-/

namespace Pruner.AutoScheduler

open Lib Te List Option TwoWayMap Primitive Te.Stage

variable {order : List ℕ} {j k t : ℕ} {stage : Stage} {axes : List IterVar} {key : IterKey}
  {closed : Prop} {stages : List Stage}

/-! ## Reorder -/

theorem exists_mapM_atIndex {α : Type} {l : List α}
    (h : ∀ j ∈ order, j < l.length) : ∃ r, (order.map Nat.cast).mapM (atIndex l) = some r := by
  refine exists_mapM fun x hx => ?_
  obtain ⟨j, hj, rfl⟩ := mem_map.mp hx
  exact ⟨_, getElem?_eq_getElem (h j hj)⟩

theorem apply_reorder_of_perm (dag : ComputeDAG) {st : State} (hstage : st.stages[t]? = some stage)
    (hperm : order.Perm (range stage.iters.length)) :
    ∃ st', (reorder t order).apply dag st = some st' ∧ st'.attachMap = st.attachMap := by
  have hlen : order.length = stage.iters.length := by simpa using hperm.length_eq
  have hlt : ∀ j ∈ order, j < stage.iters.length := by
    intro j hj
    exact mem_range.mp (hperm.mem_iff.mp hj)
  obtain ⟨its, hits⟩ := exists_mapM_atIndex hlt
  have hstep : (reorder t order).step st = some (some (.reorderStep t (order.map Nat.cast))) := by
    simp only [step, atIndex_natCast, hstage, some_bind_eq]
    rw [if_pos ⟨hlen, hlt⟩]
  have hnat : (t : ℤ).toNat? = some t := rfl
  refine ⟨(st.withHistory (st.transformSteps ++
    [.reorderStep t (order.map Nat.cast)])).setStage t { stage with iters := its }, ?_, rfl⟩
  simp only [apply, hstep, bind_some, State.record, stepApplyToState, hnat,
    reorderToState, hstage, hits, bind_eq_bind, State.withHistory]

/-- **Reorder and attach points.**  A reorder never fails on a permutation.  It keeps the
stages attached to the iterators of stage `t` where they were exactly when no such
iterator moves, since the attach map is not told about the new positions.  The schedule
keeps every attach variable, and the variable at position `k` moves to the position
`k'` that the order sends there. -/
theorem reorder_keeps_attach_iff (dag : ComputeDAG) {st : State} {t : ℕ} {stage : Stage}
    {order : List ℕ} (hstage : st.stages[t]? = some stage)
    (hperm : order.Perm (range stage.iters.length)) :
    (∃ st', (reorder t order).apply dag st = some st' ∧
      ((∀ (s : ℤ) (k : ℕ), st.attachMap.stageToAttachIter s = some (↑t, ↑k) →
          k < stage.iters.length →
          ∃ k' : ℕ, st'.attachMap.stageToAttachIter s = some (↑t, ↑k') ∧ order[k']? = some k) ↔
        ∀ (s : ℤ) (k : ℕ), st.attachMap.stageToAttachIter s = some (↑t, ↑k) →
          k < stage.iters.length → order[k]? = some k)) ∧
    ∀ lw lw', reorderToSchedule lw t (order.map Nat.cast) = some lw' →
      (∀ i te, lw.stage i = some te → ∃ te', lw'.stage i = some te' ∧
        te'.attachType = te.attachType ∧ te'.attachIvar = te.attachIvar ∧
        te'.attachStage = te.attachStage) ∧
      ∃ axes axes', lw.axes t = some axes ∧ lw'.axes t = some axes' ∧
        ∀ k' k : ℕ, order[k']? = some k → axes'[k']? = axes[k]? := by
  constructor
  · obtain ⟨st', hst', hmap⟩ := apply_reorder_of_perm dag hstage hperm
    refine ⟨st', hst', ?_⟩
    rw [hmap]
    constructor
    · intro hkeep s k hs hk
      obtain ⟨k', hk', horder⟩ := hkeep s k hs hk
      have hpos : k' = k := by
        simpa using congrArg Prod.snd (some.inj (hk'.symm.trans hs))
      rwa [hpos] at horder
    · intro hfix s k hs hk
      exact ⟨k, hs, hfix s k hs hk⟩
  · intro lw lw' h
    obtain ⟨s, axes, axes', s', hs, haxes, haxes', hs', rfl⟩ := reorderToSchedule_cases h
    refine ⟨fun i te hi => ?_, axes, axes', haxes, ?_, fun k' k hk => ?_⟩
    · obtain ⟨te', hte', hheader⟩ := exists_getElem?_set _ hs (header_reorder hs') hi
      exact ⟨te', hte', attach_eq_of_header hheader⟩
    · have hlt := lt_of_getElem? (join_eq_some_iff.mp haxes)
      simp [Lowering.axes, Lowering.setAxes, Lowering.setStage, getElem?_set_self hlt]
    · have hmap := congrArg (fun l : List (Option IterVar) => l[k']?)
        (map_some_of_mapM_atIndex haxes')
      simp only [getElem?_map, hk, map_some] at hmap
      obtain ⟨v, hv, hv'⟩ := map_eq_some_iff.mp hmap
      rw [hv, hv']

/-- A stage attached to the outermost loop stays there when the two inner loops are
exchanged. -/
theorem reorder_keeps_attach_rowSumDAG : ∃ st stage,
    rowSumDAG.run [.split 2 1 [some 2] true, .computeAt 1 2 0] = some st ∧
      st.stages[2]? = some stage ∧ st.attachMap.stageToAttachIter 1 = some (2, 0) ∧
      ∃ st', (reorder 2 [0, 2, 1]).apply rowSumDAG st = some st' ∧
        ∃ k' : ℕ, st'.attachMap.stageToAttachIter 1 = some (2, ↑k') ∧ [0, 2, 1][k']? = some 0 := by
  refine ⟨_, _, rfl, rfl, rfl, ?_⟩
  refine (reorder_keeps_attach_iff rowSumDAG rfl (by decide : ([0, 2, 1] : List ℕ).Perm (range 3))).1.imp
    fun st' h => ⟨h.1, h.2.mpr (fun s k hs _ => ?_) 1 0 rfl (by decide)⟩
  -- only stage 1 is attached
  by_cases h1 : s = 1
  · subst h1
    have hk : k = 0 := by simpa using (congrArg Prod.snd (some.inj hs)).symm
    rw [hk]
    rfl
  · have hnone := (Function.update_of_ne h1 _ _).symm.trans hs
    cases hnone

/-- A stage attached to the outer loop `x` of the reduction.  After the loops are
exchanged the state has it at `k`, and the schedule at `x`. -/
theorem reorder_moves_attach_point : ((rowSumDAG.run [.computeAt 1 2 0]).map fun st =>
      (st.attachMap.stageToAttachIter 1, (st.iterAt 2 0).map (·.name))) =
        some (some (2, 0), some "x") ∧
    ((rowSumDAG.run [.computeAt 1 2 0, .reorder 2 [1, 0]]).map fun st =>
      (st.attachMap.stageToAttachIter 1, (st.iterAt 2 0).map (·.name))) =
        some (some (2, 0), some "k") ∧
    ((rowSumDAG.applySteps [.computeAtStep 1 2 0, .reorderStep 2 [1, 0]]).map fun lw =>
      (((lw.stage 1).bind (·.attachIvar)).map (·.name),
        (lw.axes 2).map fun axes => axes.map (·.name))) =
        some (some "x", some ["k", "x"]) := by
  decide

/-! ## Attach points that agree -/

/-- The attach point of a stage of the schedule is the loop at the given position. -/
def Attached (lw : Lowering) (te : Te.Stage) (key : IterKey) : Prop :=
  te.attachType = .kScope ∧ ∃ (t k : ℕ) (target : Te.Stage) (axes : List IterVar) (v : IterVar),
    key = (↑t, ↑k) ∧ te.attachIvar = some v ∧ te.attachStage = some target.originOp.id ∧
    lw.sch.stages[t]? = some target ∧ v ∈ target.allIterVars ∧
    lw.stageToAxes[t]? = some (some axes) ∧ axes[k]? = some (follow target.relations v)

/-- The attach map of a state and the attach points of a schedule agree. -/
structure AttachSim (m : AttachMap) (lw : Lowering) : Prop where
  exact : m.Exact
  root : ∀ (i : ℕ) te, lw.sch.stages[i]? = some te → m.target i = none → te.attachType ≠ .kScope
  attached : ∀ s key, m.target s = some key → ∃ (i : ℕ) (te : Te.Stage), s = i ∧
    lw.sch.stages[i]? = some te ∧ Attached lw te key

/-- Every variable of a stage is an axis of its operation, or was made by the stage. -/
def Owned (dag : ComputeDAG) (lw : Lowering) : Prop :=
  ∀ (i : ℕ) te op, lw.sch.stages[i]? = some te → dag.ops[i]? = some op → te.op = op ∧
    ∀ v ∈ te.allIterVars, v ∈ op.rootIterVars ∨ ∃ k, v.ref = .made op.id k

variable {te te' : Te.Stage} {dag : ComputeDAG} {lw lw' : Lowering}

section

variable {m m' : AttachMap} {i front back n : ℕ}

/-- The position a loop moves to when the loops from `front` to `back` are replaced by
`n` loops: the loop at `back` becomes the last of them. -/
def slicePos (front back n j : ℕ) : ℕ := if j < front then j else j - back + (front + (n - 1))

/-- The loop at a position after an edit is what the loop before it has become. -/
theorem follow_slicePos {rels : List Relation} {olds dead news : List IterVar} (hfb : front ≤ back)
    (hslice : axes = axes.take front ++ olds ++ axes.drop (back + 1))
    (hedit : Edit te te' rels (axes.take front) olds (axes.drop (back + 1) ++ dead) news)
    (hlen : news.length = n) (hn : 0 < n) {w : IterVar} (hw : axes[j]? = some w)
    (hj : j < front ∨ back ≤ j) :
    (replaceSlice axes front back news)[slicePos front back n j]? = some (follow rels w) := by
  have hjlt := lt_of_getElem? hw
  rcases hj with hj | hj
  · -- before the slice
    have hmem : w ∈ axes.take front := by
      refine mem_of_getElem? (i := j) ?_
      rw [getElem?_take_of_lt hj, hw]
    rw [hedit.keep w (mem_append_left _ hmem), slicePos, if_pos hj, replaceSlice,
      append_assoc, getElem?_append_left (by simp; omega),
      getElem?_take_of_lt hj, hw]
  · have htake : (axes.take front).length = front := by simp; omega
    have holds : olds.length = back + 1 - front := by
      have := congrArg length hslice
      simp only [length_append, htake, length_drop] at this
      omega
    rw [slicePos, if_neg (by omega), replaceSlice]
    by_cases hjb : j = back
    · -- the last loop of the slice becomes the last new loop
      subst hjb
      have hlast : olds.getLast? = some w := by
        rw [getLast?_eq_getElem?, ← hw]
        conv_rhs => rw [hslice]
        rw [append_assoc, getElem?_append_right (by omega), getElem?_append_left (by omega)]
        congr 1
        omega
      have hinner := hedit.inner
      rw [hlast, map_some, getLast?_eq_getElem?] at hinner
      rw [hinner, Nat.sub_self, append_assoc,
        getElem?_append_right (by omega), getElem?_append_left (by omega)]
      congr 1
      omega
    · -- behind the slice
      have hmem : w ∈ axes.drop (back + 1) := by
        refine mem_of_getElem? (i := j - (back + 1)) ?_
        rw [getElem?_drop, ← hw]
        congr 1
        omega
      rw [hedit.keep w (mem_append_right _ (mem_append_left _ hmem)),
        getElem?_append_right (by simp only [length_append, htake, hlen]; omega),
        getElem?_drop, ← hw]
      congr 1
      simp only [length_append, htake, hlen]
      omega

/-- The attach point of a stage does not depend on its loops. -/
theorem Attached.congr (h : Attached lw te key)
    (hheader : te'.header = te.header) : Attached lw te' key := by
  obtain ⟨htype, t, k, target, axes, v, hkey, hv, hstage, hrest⟩ := h
  obtain ⟨h₁, h₂, h₃⟩ := attach_eq_of_header hheader
  exact ⟨h₁.trans htype, t, k, target, axes, v, hkey, h₂.trans hv, h₃.trans hstage, hrest⟩

/-- An edit changes loops only. -/
theorem SliceEdit.stage_forth (h : SliceEdit lw i front back n lw')
    (hj : lw.sch.stages[j]? = some te) :
    ∃ te', lw'.sch.stages[j]? = some te' ∧ te'.header = te.header := by
  cases h with
  | intro hte _ _ hedit _ => exact exists_getElem?_set _ hte hedit.header hj

theorem SliceEdit.stage_back (h : SliceEdit lw i front back n lw')
    (hj : lw'.sch.stages[j]? = some te') :
    ∃ te, lw.sch.stages[j]? = some te ∧ te'.header = te.header := by
  have hlen : lw'.sch.stages.length = lw.sch.stages.length := by
    cases h
    exact length_set
  obtain ⟨te, hte⟩ := exists_of_length_eq hlen hj
  obtain ⟨te₁, hte₁, hheader⟩ := h.stage_forth hte
  cases hj.symm.trans hte₁
  exact ⟨te, hte, hheader⟩

variable {f : IterKey → IterKey} {te₀ : Te.Stage}

theorem Attached.sliceEdit (h : Attached lw te₀ key)
    (hedit : SliceEdit lw i front back n lw') (hfb : front ≤ back) (hn : 0 < n)
    (hother : key.1 ≠ i → f key = key)
    (hmoved : ∀ (k : ℕ) axes, key = (↑i, ↑k) → lw.stageToAxes[i]? = some (some axes) →
      k < axes.length → (k < front ∨ back ≤ k) ∧ f (↑i, ↑k) = (↑i, ↑(slicePos front back n k))) :
    Attached lw' te₀ (f key) := by
  obtain ⟨htype, t, k, target, axes, v, rfl, hv, hstage, htarget, hall, haxes, hk⟩ := h
  cases hedit with
  | intro hte hax hslice hedit hlen =>
    rename_i te te' axes₀ olds dead news rels
    have hti := lt_of_getElem? hte
    have hai := lt_of_getElem? hax
    by_cases ht : t = i
    · subst ht
      cases hte.symm.trans htarget
      obtain rfl : axes₀ = axes := by
        simpa using hax.symm.trans haxes
      obtain ⟨hpos, hf⟩ := hmoved k axes₀ rfl hax (lt_of_getElem? hk)
      obtain ⟨vs, hvs, -⟩ := hedit.all
      refine ⟨htype, t, slicePos front back n k, te', replaceSlice axes₀ front back news, v, hf,
        hv, ?_, getElem?_set_self hti, ?_, getElem?_set_self hai, ?_⟩
      · rw [hstage, originOp_eq_of_header hedit.header]
      · rw [hvs]
        exact mem_append_left _ hall
      · rw [hedit.relations, follow_append]
        exact follow_slicePos hfb hslice hedit hlen hn hk hpos
    · have hne : ((t : ℤ), (k : ℤ)).1 ≠ i := by simpa using ht
      rw [hother hne]
      exact ⟨htype, t, k, target, axes, v, rfl, hv, hstage,
        (getElem?_set_ne (Ne.symm ht)).trans htarget, hall,
        (getElem?_set_ne (Ne.symm ht)).trans haxes, hk⟩

/-- **Splits and fuses keep the attach points in agreement**, if the attach map renames
the positions as the edit moves the loops. -/
theorem AttachSim.sliceEdit (H : AttachSim m lw)
    (hedit : SliceEdit lw i front back n lw') (hfb : front ≤ back) (hn : 0 < n)
    (hexact : m'.Exact) (htarget : ∀ s, m'.target s = (m.target s).map f)
    (hother : ∀ key : IterKey, key.1 ≠ i → f key = key)
    (hmoved : ∀ s (k : ℕ) axes, m.target s = some (↑i, ↑k) →
      lw.stageToAxes[i]? = some (some axes) → k < axes.length →
      (k < front ∨ back ≤ k) ∧ f (↑i, ↑k) = (↑i, ↑(slicePos front back n k))) :
    AttachSim m' lw' where
  exact := hexact
  root := by
    intro j te₀ hj hnone
    have hnone' : m.target j = none := by simpa [htarget] using hnone
    obtain ⟨te₁, hte₁, hheader⟩ := hedit.stage_back hj
    rw [(attach_eq_of_header hheader).1]
    exact H.root j te₁ hte₁ hnone'
  attached := by
    intro s key' hs
    rw [htarget, map_eq_some_iff] at hs
    obtain ⟨key, hs, rfl⟩ := hs
    obtain ⟨j, te₀, rfl, hj, hatt⟩ := H.attached s key hs
    obtain ⟨te₁, hte₁, hheader⟩ := hedit.stage_forth hj
    refine ⟨j, te₁, rfl, hte₁, ?_⟩
    refine (hatt.sliceEdit hedit hfb hn (hother key) ?_).congr hheader
    intro k axes hkey
    exact hmoved j k axes (hkey ▸ hs)

/-- Changing a stage but not its loops keeps the attach points at it. -/
theorem Attached.setStage (h : Attached lw te₀ key)
    (hte : lw.sch.stages[i]? = some te) (horigin : te'.originOp = te.originOp)
    (hall : te'.allIterVars = te.allIterVars) (hrels : te'.relations = te.relations) :
    Attached (lw.setStage i te') te₀ key := by
  obtain ⟨htype, t, k, target, axes, v, rfl, hv, hstage, htarget, hmem, haxes, hk⟩ := h
  by_cases ht : i = t
  · subst ht
    cases hte.symm.trans htarget
    have hlt := lt_of_getElem? hte
    exact ⟨htype, i, k, te', axes, v, rfl, hv, horigin ▸ hstage, getElem?_set_self hlt,
      hall ▸ hmem, haxes, hrels ▸ hk⟩
  · exact ⟨htype, t, k, target, axes, v, rfl, hv, hstage,
      (getElem?_set_ne ht).trans htarget, hmem, haxes, hk⟩

/-- **`compute_at` keeps the attach points in agreement.** -/
theorem AttachSim.placed (H : AttachSim m lw) (hsim : Simulates closed dag stages lw)
    (hplaced : Placed lw i t k lw') :
    AttachSim (m.setComputeAtIter i t k) lw' := by
  cases hplaced with
  | intro hte htarget haxes hv =>
    rename_i te target axes v
    have hlt := lt_of_getElem? hte
    obtain ⟨stage, axes', -, haxes', htsim⟩ := hsim.get_te htarget
    cases haxes.symm.trans haxes'
    have hleaf : v ∈ target.leafIterVars := by
      obtain ⟨dead, hleaf, -⟩ := htsim.leaf
      rw [hleaf]
      exact mem_append_left _ (mem_of_getElem? hv)
    -- the loop has just been a leaf, so following it leads nowhere else
    have hfollow : follow target.relations v = v :=
      follow_of_notMem fun r hr hmem => htsim.ok.leaf_unused r hr v hmem hleaf
    refine ⟨exact_insert H.exact _ _, ?_, ?_⟩
    · intro j te₀ hj hnone
      by_cases hji : i = j
      · rw [hji, AttachMap.setComputeAtIter, target_insert_self] at hnone
        cases hnone
      · have hne : (j : ℤ) ≠ i := by omega
        rw [AttachMap.setComputeAtIter, target_insert_of_ne _ hne] at hnone
        exact H.root j te₀ ((getElem?_set_ne hji).symm.trans hj) hnone
    · intro s key hs
      by_cases hsi : s = i
      · subst hsi
        rw [AttachMap.setComputeAtIter, target_insert_self] at hs
        cases hs
        refine ⟨i, _, rfl, getElem?_set_self hlt, ?_⟩
        refine Attached.setStage ⟨rfl, t, k, target, axes, v, rfl, rfl, rfl, htarget,
          htsim.ok.leaf_all v hleaf, haxes, ?_⟩ hte rfl rfl rfl
        rw [hv, hfollow]
      · rw [AttachMap.setComputeAtIter, target_insert_of_ne _ hsi] at hs
        obtain ⟨j, te₀, rfl, hj, hatt⟩ := H.attached s key hs
        have hji : i ≠ j := by omega
        exact ⟨j, te₀, rfl, (getElem?_set_ne hji).trans hj, hatt.setStage hte rfl rfl rfl⟩

/-- A fuse of no loop keeps the attach points, if there are none at the stage. -/
theorem AttachSim.fuseEmpty (H : AttachSim m lw) (hfree : ∀ s k, m.target s ≠ some (↑i, k))
    (hte : lw.sch.stages[i]? = some te) :
    AttachSim m ((lw.setStage i te.fuseEmpty.1).setAxes i [te.fuseEmpty.2]) where
  exact := H.exact
  root := by
    intro j te₀ hj hnone
    rcases getElem?_set_cases hj with ⟨rfl, -, rfl⟩ | ⟨-, hj⟩
    · exact H.root i te hte hnone
    · exact H.root j te₀ hj hnone
  attached := by
    intro s key hs
    obtain ⟨j, te₀, rfl, hj, hatt⟩ := H.attached s key hs
    obtain ⟨te₁, hte₁, hheader⟩ := exists_getElem?_set _ hte
      (show te.fuseEmpty.1.header = te.header from rfl) hj
    refine ⟨j, te₁, rfl, hte₁, Attached.congr ?_ hheader⟩
    obtain ⟨htype, t, k, target, axes, v, rfl, hv, hstage, htarget, hmem, haxes, hk⟩ := hatt
    have hti : i ≠ t := by
      rintro rfl
      exact hfree j k hs
    exact ⟨htype, t, k, target, axes, v, rfl, hv, hstage, (getElem?_set_ne hti).trans htarget, hmem,
      (getElem?_set_ne hti).trans haxes, hk⟩

/-! ### Variables of a stage -/

variable (H : Owned dag lw)
include H

theorem Owned.set {axes : List (Option (List IterVar))}
    (hte : lw.sch.stages[i]? = some te) (hop : te'.op = te.op)
    (hall : ∃ vs, te'.allIterVars = te.allIterVars ++ vs ∧
      ∀ v ∈ vs, ∃ k, v.ref = .made te.op.id k) :
    Owned dag ⟨{ lw.sch with stages := lw.sch.stages.set i te' }, axes⟩ := by
  intro j te₀ op hj hopj
  rcases getElem?_set_cases hj with ⟨rfl, -, rfl⟩ | ⟨-, hj⟩
  · obtain ⟨hteop, hvars⟩ := H i te op hte hopj
    obtain ⟨vs, hvs, hnew⟩ := hall
    rw [hvs]
    exact ⟨hop.trans hteop,
      forall_mem_append.mpr ⟨hvars, fun v hv => .inr (hteop ▸ hnew v hv)⟩⟩
  · exact H j te₀ op hj hopj

theorem Owned.sliceEdit (h : SliceEdit lw i front back n lw') :
    Owned dag lw' := by
  cases h with
  | intro hte _ _ hedit _ => exact H.set hte (op_eq_of_header hedit.header) hedit.all

theorem Owned.placed (h : Placed lw i t k lw') : Owned dag lw' := by
  cases h with
  | intro hte _ _ _ => exact H.set hte rfl ⟨[], by simp, by simp⟩

theorem Owned.fuseEmpty (hte : lw.sch.stages[i]? = some te) :
    Owned dag ((lw.setStage i te.fuseEmpty.1).setAxes i [te.fuseEmpty.2]) := by
  refine H.set hte rfl ⟨[te.fuseEmpty.2], rfl, fun v hv => ?_⟩
  rw [mem_singleton.mp hv]
  exact ⟨_, rfl⟩

end

/-! ## Calls -/

/-- State and schedule agree on loops and attach points. -/
structure AttachRel (dag : ComputeDAG) (st : State) (lw : Lowering) : Prop where
  sim : Simulates False dag st.stages lw
  filled : ∀ s ∈ st.transformSteps, s.Filled
  attach : AttachSim st.attachMap lw
  owned : Owned dag lw

section

variable {st st' : State} {i : ℕ}

/-- Attach points are at loops that exist. -/
theorem AttachSim.lt_length {m : AttachMap} (H : AttachSim m lw) {s : ℤ}
    (hs : m.target s = some (↑i, ↑k))
    (haxes : lw.stageToAxes[i]? = some (some axes)) : k < axes.length := by
  obtain ⟨j, te, -, -, -, t, k', target, axes', v, hkey, -, -, -, -, haxes', hk⟩ :=
    H.attached s _ hs
  obtain ⟨rfl, rfl⟩ := hkey
  have : axes = axes' := by simpa using haxes.symm.trans haxes'
  rw [this]
  exact lt_of_getElem? hk

theorem Simulates.length_axes (H : Simulates closed dag stages lw)
    (hstage : stages[i]? = some stage) (haxes : lw.stageToAxes[i]? = some (some axes)) :
    axes.length = stage.iters.length := by
  obtain ⟨te, axes', -, haxes', hsim⟩ := H.get hstage
  cases haxes.symm.trans haxes'
  obtain ⟨nest, hrealises, hdenotes⟩ := hsim.nest
  exact hrealises.length_eq.symm.trans hdenotes.length_eq

theorem SliceEdit.exists_axes {front back n : ℕ} (h : SliceEdit lw i front back n lw') :
    ∃ axes, lw.stageToAxes[i]? = some (some axes) := by
  cases h with
  | intro _ hax _ _ _ => exact ⟨_, hax⟩

section

variable (H : AttachSim st.attachMap lw) (hsim : Simulates False dag st.stages lw)
include H hsim

/-- An edit of the loops of a stage, when the attach map moves its keys to the positions
that the loops get. -/
theorem AttachSim.rekey {front back n : ℕ} {moved : ℕ → Bool} {f : ℕ → ℤ}
    (hstage : st.stages[i]? = some stage) (hedit : SliceEdit lw i front back n lw')
    (hfb : front ≤ back) (hn : 0 < n)
    (hmap : st'.attachMap = st.attachMap.rekey (moveKeys i moved f stage.iters.length))
    (hexact : st'.attachMap.Exact)
    (hpos : ∀ (s : ℤ) (k : ℕ), st.attachMap.target s = some (↑i, ↑k) →
      (k < front ∨ back ≤ k) ∧ (if moved k then f k else ↑k) = (↑(slicePos front back n k) : ℤ)) :
    AttachSim st'.attachMap lw' := by
  refine H.sliceEdit hedit hfb hn hexact
    (f := rename (moveKeys i moved f stage.iters.length)) ?_ ?_ ?_
  · intro s
    rw [hmap]
    exact target_rekey H.exact (nodup_moveKeys i moved f stage.iters.length) s
  · intro key hkey
    refine rename_moveKeys_of_not fun j _ _ hj => hkey ?_
    rw [hj]
  · intro s k axes' hs haxes' hk
    obtain ⟨hout, hto⟩ := hpos s k hs
    refine ⟨hout, ?_⟩
    rw [hsim.length_axes hstage haxes'] at hk
    rw [← hto]
    split_ifs with hmoved
    · exact rename_moveKeys hk hmoved
    · refine rename_moveKeys_of_not fun j _ hj heq => hmoved ?_
      have hkj : (k : ℤ) = j := congrArg Prod.snd heq
      rwa [Nat.cast_inj.mp hkj]

theorem AttachSim.split {iterId : ℤ} {lengths : List (Option ℤ)} {io : Bool}
    (happly : applySplitToState st i iterId lengths io = some st')
    (hedit : SliceEdit lw i iterId.toNat iterId.toNat (lengths.length + 1) lw') :
    AttachSim st'.attachMap lw' := by
  obtain ⟨stage, hstage, hmap⟩ := applySplitToState_attachMap happly
  have hexact : st'.attachMap.Exact := by
    obtain ⟨axes, haxes⟩ := hedit.exists_axes
    have hsize := hsim.length_axes hstage haxes
    rw [hmap, exact_splitKeys_iff H.exact]
    intro j _ _ hover _ hocc
    obtain ⟨s, hs⟩ := H.exact.exists_target hocc
    have := H.lt_length hs haxes
    omega
  refine H.rekey hsim hstage hedit le_rfl (by omega) hmap hexact fun s k _ => ⟨by omega, ?_⟩
  rw [slicePos]
  simp only [decide_eq_true_eq]
  split_ifs <;> omega

theorem AttachSim.fuse {front : ℤ} {rest : List ℤ}
    (happly : fuseToState st i (front :: rest) = some st')
    (hedit : SliceEdit lw i front.toNat ((front :: rest).getLast (cons_ne_nil _ _)).toNat 1 lw') :
    AttachSim st'.attachMap lw' := by
  obtain ⟨stage, hstage, hfb, hfree, hmap⟩ := fuseToState_cons_attachMap happly
  have hexact := exact_fuseToState H.exact happly
  generalize ((front :: rest).getLast (cons_ne_nil _ _)).toNat = back at *
  rw [fuseKeys_eq_moveKeys] at hmap
  refine H.rekey hsim hstage hedit hfb (by omega) hmap hexact fun s k hs => ?_
  -- nothing is attached to a merged loop other than the last one
  have hout : k < front.toNat ∨ back ≤ k := by
    by_contra hcon
    obtain ⟨l, hl, -⟩ := (H.exact.mem_iff s _).mp hs
    rw [hfree k (by omega) (by omega)] at hl
    cases hl
  refine ⟨hout, ?_⟩
  rw [slicePos]
  simp only [decide_eq_true_eq]
  split_ifs <;> omega

end

/-- The calls that keep state and schedule in agreement: `compute_at`, splits that give
their lengths, and fuses.  A fuse of no loop gives the stage a new loop nest, so nothing
may be attached to it. -/
def AttachCall (dag : ComputeDAG) (st : State) : Primitive → Prop
  | .computeAt _ _ _ => True
  | .fuse stageId iters => iters = [] → IsComputed dag stageId ∧
      ∀ s k, st.attachMap.stageToAttachIter s ≠ some (stageId, k)
  | p => p.FilledSplit

theorem attachRel_call {p : Primitive} {step : Step} (hp : AttachCall dag st p)
    (H : AttachRel dag st lw) (hs : p.step st = some (some step))
    (hrec : st.record dag step = some st') (tail : List Step) :
    ∃ lw', stepApplyToSchedule (st.transformSteps ++ step :: tail) lw step = some lw' ∧
      AttachRel dag st' lw' := by
  have hsim : Simulates False dag (st.withHistory (st.transformSteps ++ [step])).stages lw := H.sim
  have hatt : AttachSim (st.withHistory (st.transformSteps ++ [step])).attachMap lw := H.attach
  have hhist : step.Filled → ∀ s ∈ st'.transformSteps, s.Filled :=
    fun h => record_filled H.filled h hrec
  have hsplit : p.FilledSplit → ∃ lw',
      stepApplyToSchedule (st.transformSteps ++ step :: tail) lw step = some lw' ∧
        AttachRel dag st' lw' := by
    intro hp
    obtain ⟨hfilled, i, iterId, ls, io, happly, hlower⟩ := record_filledSplit hp H.filled hs hrec
    obtain ⟨lw', hlw', hsim', hedit⟩ := hsim.split happly
    refine ⟨lw', (hlower tail lw).trans hlw', hsim', hhist hfilled, ?_, H.owned.sliceEdit hedit⟩
    exact hatt.split hsim happly (by simpa using hedit)
  cases p
  case computeAt stageId target k =>
    obtain ⟨i, it, rfl, rfl, hit, happly⟩ := record_computeAt hs hrec
    obtain ⟨lw', hlw', hsim', hplaced⟩ := hsim.computeAt not_false hit happly
    refine ⟨lw', hlw', hsim', hhist trivial, ?_, H.owned.placed hplaced⟩
    have htarget : ((target.toNat : ℕ) : ℤ) = target := by
      obtain ⟨stage, hstage, -⟩ := bind_eq_some_iff.mp hit
      obtain ⟨t, rfl, -⟩ := atIndex_eq_some_iff.mp hstage
      rfl
    have := hatt.placed hsim hplaced
    rw [htarget] at this
    rw [computeAtToState_attachMap happly]
    exact this
  case fuse stageId iters =>
    obtain ⟨i, rfl, rfl, happly⟩ := record_fuse hs hrec
    cases iters with
    | nil =>
      obtain ⟨hcomp, hfree⟩ := hp rfl
      obtain ⟨op, hop⟩ : ∃ op, dag.ops[i]? = some op := by
        simp only [fuseToState, do_eq_some, map_nil] at happly
        obtain ⟨stage, hstage, -⟩ := happly
        exact exists_of_length_eq H.sim.length hstage
      obtain ⟨te, lw', hte, rfl, hlw', hsim'⟩ := hsim.fuseEmpty id hop (hcomp op hop) happly
      refine ⟨_, hlw', hsim', hhist trivial, ?_, H.owned.fuseEmpty hte⟩
      rw [fuseToState_nil_attachMap happly]
      exact hatt.fuseEmpty hfree hte
    | cons a rest =>
      obtain ⟨lw', hlw', hsim', hedit⟩ := hsim.fuse happly
      exact ⟨lw', hlw', hsim', hhist trivial, hatt.fuse hsim happly hedit, H.owned.sliceEdit hedit⟩
  all_goals exact hsplit hp

end

theorem InputDAG.attachRel_init (dag : InputDAG) :
    AttachRel dag.toComputeDAG dag.initState dag.initLowering where
  sim := dag.simulates_init False
  filled := fun s hs => absurd hs not_mem_nil
  attach :=
    { exact := TwoWayMap.exact_empty
      root := by
        intro i te hte _
        simp only [ComputeDAG.initLowering, Schedule.ofOps, getElem?_map, map_eq_some_iff] at hte
        obtain ⟨op, -, rfl⟩ := hte
        simp [ofOp]
      attached := fun s key hs => by cases hs }
  owned := by
    intro i te op hte hop
    simp only [ComputeDAG.initLowering, Schedule.ofOps, getElem?_map, hop,
      map_some, some.injEq] at hte
    subst hte
    exact ⟨rfl, fun v hv => .inl hv⟩

/-! ## Legalization -/

/-- The attach points lead to a root. -/
def AttachAcyclic (m : AttachMap) : Prop :=
  ∀ s, ¬ Relation.TransGen (fun s t : ℤ => ∃ k, m.stageToAttachIter s = some (t, k)) s s

/-- Two stages that carry attached stages have no axis in common. -/
def AxesApart (dag : ComputeDAG) (m : AttachMap) : Prop :=
  ∀ s₁ s₂ t₁ t₂ k₁ k₂, m.stageToAttachIter s₁ = some (t₁, k₁) →
    m.stageToAttachIter s₂ = some (t₂, k₂) → t₁ ≠ t₂ →
    ∀ op₁ op₂, atIndex dag.ops t₁ = some op₁ → atIndex dag.ops t₂ = some op₂ →
      ∀ v ∈ op₁.rootIterVars, v ∉ op₂.rootIterVars

section

variable {dag : InputDAG} {st : State}

/-- A stage is found by the operation it was made for. -/
theorem Simulates.parentOf_eq {target : Te.Stage} (H : Simulates closed dag.toComputeDAG stages lw)
    (htarget : lw.sch.stages[t]? = some target)
    (hstage : te.attachStage = some target.originOp.id) :
    parentOf lw.sch.stages te = some target := by
  have hnodup : (lw.sch.stages.map fun s => s.originOp.id).Nodup := H.origins ▸ dag.ids_nodup
  have hmem := mem_of_getElem? htarget
  have hsome : (lw.sch.stages.find? fun s => s.originOp.id = target.originOp.id).isSome := by
    rw [find?_isSome]
    exact ⟨target, hmem, by simp⟩
  obtain ⟨found, hfound⟩ := isSome_iff_exists.mp hsome
  have hid : found.originOp.id = target.originOp.id := by
    simpa using find?_some hfound
  have heq := inj_on_of_nodup_map hnodup (mem_of_find?_eq_some hfound) hmem hid
  simp [parentOf, hstage, hfound, heq]

variable (H : AttachRel dag.toComputeDAG st lw)
include H

theorem AttachRel.attached_of_scope {i : ℕ} (hi : lw.sch.stages[i]? = some te)
    (hk : te.attachType = .kScope) :
    ∃ (t k : ℕ) (target : Te.Stage) (axes : List IterVar) (v : IterVar),
      st.attachMap.target i = some (↑t, ↑k) ∧ te.attachIvar = some v ∧
      parentOf lw.sch.stages te = some target ∧ lw.sch.stages[t]? = some target ∧
      v ∈ target.allIterVars ∧ lw.stageToAxes[t]? = some (some axes) ∧
      axes[k]? = some (follow target.relations v) := by
  cases hm : st.attachMap.target i with
  | none => exact absurd hk (H.attach.root i te hi hm)
  | some key =>
    obtain ⟨j, te', hij, hj, -, t, k, target, axes, v, rfl, hv, hstage, htarget, hrest⟩ :=
      H.attach.attached i key hm
    obtain rfl : i = j := by omega
    obtain rfl : te = te' := some.inj (hi.symm.trans hj)
    exact ⟨t, k, target, axes, v, rfl, hv, H.sim.parentOf_eq htarget hstage, htarget, hrest⟩

theorem AttachRel.apart (hapart : AxesApart dag.toComputeDAG st.attachMap) {s₁ s₂ : ℤ}
    {t₁ t₂ k₁ k₂ : ℕ} {te₁ te₂ : Te.Stage} (h₁ : st.attachMap.target s₁ = some (↑t₁, ↑k₁))
    (h₂ : st.attachMap.target s₂ = some (↑t₂, ↑k₂)) (hne : t₁ ≠ t₂)
    (ht₁ : lw.sch.stages[t₁]? = some te₁) (ht₂ : lw.sch.stages[t₂]? = some te₂) {v : IterVar}
    (hv₁ : v ∈ te₁.allIterVars) (hv₂ : v ∈ te₂.allIterVars) : False := by
  obtain ⟨op₁, hop₁⟩ := exists_of_length_eq H.sim.length_sch ht₁
  obtain ⟨op₂, hop₂⟩ := exists_of_length_eq H.sim.length_sch ht₂
  have hdecl : ∀ op ∈ dag.ops, ∀ o k, v.ref = .made o k → v ∉ op.rootIterVars := by
    intro op hop o k href hmem
    have := dag.declared op hop v hmem
    rw [href] at this
    cases this
  have hcases₁ := (H.owned t₁ te₁ _ ht₁ hop₁).2 v hv₁
  have hcases₂ := (H.owned t₂ te₂ _ ht₂ hop₂).2 v hv₂
  rcases hcases₁ with hroot₁ | ⟨k₁', href₁⟩
  · rcases hcases₂ with hroot₂ | ⟨k₂', href₂⟩
    · exact hapart s₁ s₂ t₁ t₂ k₁ k₂ h₁ h₂ (by omega) _ _ hop₁ hop₂ v hroot₁ hroot₂
    · exact hdecl _ (mem_of_getElem? hop₁) _ _ href₂ hroot₁
  · rcases hcases₂ with hroot₂ | ⟨k₂', href₂⟩
    · exact hdecl _ (mem_of_getElem? hop₂) _ _ href₁ hroot₂
    · rw [href₁] at href₂
      injection href₂ with hid _
      refine hne ((getElem?_inj ?_ dag.ids_nodup).mp ?_)
      · simpa using lt_of_getElem? hop₁
      · simpa [hop₁, hop₂] using hid

/-- Finitely many attach points without a cycle lead to a root. -/
theorem AttachRel.wf_parent (hacyclic : AttachAcyclic st.attachMap) :
    WellFounded fun p s => s ∈ lw.sch.stages ∧ s.attachType = .kScope ∧
      parentOf lw.sch.stages s = some p := by
  let attachedTo : Fin lw.sch.stages.length → Fin lw.sch.stages.length → Prop :=
    fun b a => ∃ k : ℤ, st.attachMap.stageToAttachIter (a : ℕ) = some (((b : ℕ) : ℤ), k)
  have hirrefl : ∀ a, ¬ Relation.TransGen attachedTo a a := by
    intro a ha
    refine hacyclic (a : ℕ) ?_
    have := Relation.transGen_swap.mp ha
    exact this.lift (fun x : Fin lw.sch.stages.length => ((x : ℕ) : ℤ)) fun x y hxy => hxy
  have hwf : WellFounded attachedTo := by
    have : Std.Irrefl (Relation.TransGen attachedTo) := ⟨hirrefl⟩
    exact Subrelation.wf (fun h => Relation.TransGen.single h)
      (Finite.wellFounded_of_trans_of_irrefl (Relation.TransGen attachedTo))
  have hacc : ∀ a : Fin lw.sch.stages.length, Acc (fun p s => s ∈ lw.sch.stages ∧
      s.attachType = .kScope ∧ parentOf lw.sch.stages s = some p) lw.sch.stages[a] := by
    intro a
    induction a using hwf.induction with
    | h a ih =>
      refine ⟨_, fun p hp => ?_⟩
      obtain ⟨-, hk, hparent⟩ := hp
      have ha : lw.sch.stages[(a : ℕ)]? = some lw.sch.stages[a] := by simp
      obtain ⟨t, k, target, axes, v, hm, -, htarget, ht, -⟩ := H.attached_of_scope ha hk
      cases hparent.symm.trans htarget
      obtain ⟨hlt, rfl⟩ := List.getElem?_eq_some_iff.mp ht
      exact ih ⟨t, hlt⟩ ⟨k, hm⟩
  refine ⟨fun s => ?_⟩
  by_cases hs : s ∈ lw.sch.stages
  · obtain ⟨i, hi, rfl⟩ := getElem_of_mem hs
    exact hacc ⟨i, hi⟩
  · exact ⟨_, fun p hp => absurd hp.1 hs⟩

theorem AttachRel.attachOk (hacyclic : AttachAcyclic st.attachMap)
    (hapart : AxesApart dag.toComputeDAG st.attachMap) : AttachOk lw.sch.stages where
  parent := by
    intro s hs hk
    obtain ⟨i, hi⟩ := getElem?_of_mem hs
    obtain ⟨t, k, target, axes, v, -, hv, hp, -⟩ := H.attached_of_scope hi hk
    exact ⟨v, target, hv, hp⟩
  rest := by
    intro s hs hk v p hv hp r hr hmem
    obtain ⟨i, hi⟩ := getElem?_of_mem hs
    obtain ⟨t, k, target, axes, v', -, hv', hp', ht, -, haxes, hleaf⟩ := H.attached_of_scope hi hk
    cases hv.symm.trans hv'
    cases hp.symm.trans hp'
    obtain ⟨stage, axes', -, haxes', hsim⟩ := H.sim.get_te ht
    cases haxes.symm.trans haxes'
    obtain ⟨dead, hdead, -⟩ := hsim.leaf
    refine hsim.ok.leaf_unused r hr _ hmem ?_
    rw [hdead]
    exact mem_append_left _ (mem_of_getElem? hleaf)
  leaf := by
    intro p hp v hv r hr hmem
    obtain ⟨i, hi⟩ := getElem?_of_mem hp
    obtain ⟨stage, axes, -, -, hsim⟩ := H.sim.get_te hi
    exact hsim.ok.leaf_unused r hr v hmem hv
  same := by
    intro s hs s' hs' hk hk' hvv
    obtain ⟨i, hi⟩ := getElem?_of_mem hs
    obtain ⟨i', hi'⟩ := getElem?_of_mem hs'
    obtain ⟨t, k, target, axes, v, hm, hv, hp, ht, hall, -⟩ := H.attached_of_scope hi hk
    obtain ⟨t', k', target', axes', v', hm', hv', hp', ht', hall', -⟩ := H.attached_of_scope hi' hk'
    obtain rfl : v = v' := by
      rw [hv, hv'] at hvv
      exact some.inj hvv
    rw [hp, hp']
    by_cases htt : t = t'
    · subst htt
      rw [← ht, ← ht']
    · exfalso
      exact H.apart hapart hm hm' htt ht ht' hall hall'
  wf := H.wf_parent hacyclic

end

/-- **State and schedule attach every stage to the same loop.**  After any sequence of
`compute_at`, splits and fuses, the replay on the schedule succeeds and legalization
ends.  A stage that the state attaches to position `k` of stage `t` is then attached to
the loop at position `k` of `stage_to_axes[t]`, and a stage that it does not attach is
not attached. -/
theorem legalized_attach_of_run (dag : InputDAG) {ps : List Primitive}
    (hcalls : Along dag.toComputeDAG (AttachCall dag.toComputeDAG) dag.initState ps) {st : State}
    (hrun : dag.run ps = some st) (hacyclic : AttachAcyclic st.attachMap)
    (hapart : AxesApart dag.toComputeDAG st.attachMap) :
    ∃ lw sch', dag.applySteps st.transformSteps = some lw ∧ LegalizesTo lw.sch sch' ∧
      (∀ (i : ℕ) te, sch'.stages[i]? = some te → st.attachMap.stageToAttachIter i = none →
        te.attachType ≠ .kScope) ∧
      ∀ s key, st.attachMap.stageToAttachIter s = some key →
        ∃ (i t k : ℕ) (te target : Te.Stage) (axes : List IterVar) (v : IterVar),
          s = i ∧ key = (↑t, ↑k) ∧ sch'.stages[i]? = some te ∧ te.attachType = .kScope ∧
          lw.stage t = some target ∧ te.attachStage = some target.originOp.id ∧
          lw.axes t = some axes ∧ axes[k]? = some v ∧ te.attachIvar = some v := by
  obtain ⟨lw, hlw, H⟩ := applySteps_simulation (R := AttachRel dag.toComputeDAG)
    dag.attachRel_init
    (fun p st lw st' step tail hp H hs hrec => attachRel_call hp H hs hrec tail) hcalls hrun
  obtain ⟨sch', hlegal, hstages⟩ := exists_legalizesTo (H.attachOk hacyclic hapart)
  refine ⟨lw, sch', hlw, hlegal, ?_, ?_⟩
  · intro i te hte hnone
    obtain ⟨te₀, hi⟩ := exists_of_length_eq hlegal.length_stages hte
    obtain ⟨te', hte', hkeep, -⟩ := hstages i te₀ hi
    have hroot := H.attach.root i te₀ hi hnone
    cases hte.symm.trans hte'
    rw [hkeep hroot]
    exact hroot
  · intro s key hs
    obtain ⟨i, te, rfl, hi, hatt⟩ := H.attach.attached s key hs
    obtain ⟨hk, t, k, target, axes, v, rfl, hv, hstage, htarget, -, haxes, hleaf⟩ := hatt
    obtain ⟨te', hte', -, hmoved⟩ := hstages i te hi
    have := hmoved hk v target hv (H.sim.parentOf_eq htarget hstage)
    subst this
    exact ⟨i, t, k, _, target, axes, follow target.relations v, rfl, rfl, hte', hk, htarget,
      hstage, by simp [Lowering.axes, haxes], hleaf, rfl⟩

/-- One stage that is attached to another one makes no cycle, and shares no axis. -/
theorem attach_single {dag : ComputeDAG} {m : AttachMap} {a b k : ℤ} (hab : a ≠ b)
    (h : ∀ s key, m.target s = some key → s = a ∧ key = (b, k)) :
    AttachAcyclic m ∧ AxesApart dag m := by
  refine ⟨fun s hs => ?_, fun s₁ s₂ t₁ t₂ k₁ k₂ h₁ h₂ hne => ?_⟩
  · obtain ⟨x, ⟨k₁, hx⟩, -⟩ := Relation.TransGen.head'_iff.mp hs
    obtain ⟨y, -, ⟨k₂, hy⟩⟩ := Relation.TransGen.tail'_iff.mp hs
    have hsa := (h s _ hx).1
    have hsb := congrArg Prod.fst (h y _ hy).2
    exact hab (hsa.symm.trans hsb)
  · have e₁ := congrArg Prod.fst (h s₁ _ h₁).2
    have e₂ := congrArg Prod.fst (h s₂ _ h₂).2
    exact absurd (e₁.trans e₂.symm) hne

/-- The producer attached to the reduction loop, which is then split. -/
theorem legalized_attach_rowSumInput : ∃ st lw sch',
    rowSumInput.run [.computeAt 1 2 1, .split 2 1 [some 4] true] = some st ∧
      rowSumInput.applySteps st.transformSteps = some lw ∧ LegalizesTo lw.sch sch' := by
  obtain ⟨st, hst, hmap⟩ : ∃ st,
      rowSumInput.run [.computeAt 1 2 1, .split 2 1 [some 4] true] = some st ∧
        st.attachMap = (empty.insert 1 (2, 1)).rekey (splitKeys 2 1 1 2) :=
    ⟨_, rfl, rfl⟩
  have hone : ∀ s key, st.attachMap.target s = some key → s = 1 ∧ key = (2, 2) := by
    intro s key hs
    have hexact := exact_insert exact_empty (1 : ℤ) ((2, 1) : IterKey)
    rw [hmap, splitKeys_eq_moveKeys, target_rekey hexact (nodup_moveKeys _ _ _ _),
      map_eq_some_iff] at hs
    obtain ⟨key, hs, rfl⟩ := hs
    by_cases h1 : s = 1
    · subst h1
      cases hs
      exact ⟨rfl, by decide⟩
    · rw [target_insert_of_ne _ h1] at hs
      cases hs
  obtain ⟨hacyclic, hapart⟩ := attach_single (by decide) hone
  have hcalls : Along rowSumInput.toComputeDAG (AttachCall rowSumInput.toComputeDAG)
      rowSumInput.initState [.computeAt 1 2 1, .split 2 1 [some 4] true] := by
    refine along_of_forall ?_ _
    simp [AttachCall, FilledSplit]
  obtain ⟨lw, sch', hlw, hlegal, -⟩ :=
    legalized_attach_of_run rowSumInput hcalls hst hacyclic hapart
  exact ⟨st, lw, sch', hst, hlw, hlegal⟩

/-- `B[x] = sum(D[x, k], k)` and `C[y] = sum(E[y, k] * B[y], k)` over one axis `k`. -/
def sharedAxisDAG : ComputeDAG :=
  ⟨[⟨0, .placeholder [.intImm 4, .intImm 8]⟩,
    Operation.declare 1 [.dataPar 0 "i" 4, .dataPar 1 "j" 8] [] [0],
    Operation.declare 2 [.dataPar 2 "i" 4, .dataPar 3 "j" 8] [] [0],
    Operation.declare 3 [.dataPar 4 "x" 4] [.commReduce 5 "k" 8] [1],
    Operation.declare 4 [.dataPar 6 "y" 4] [.commReduce 5 "k" 8] [2, 3]]⟩

/-- Runs after which the schedule does not attach as the state says: a split without
length, a stage attached to itself, two stages attached to one axis of two reductions,
and a fuse of no loop under an attached stage. -/
theorem legalized_attach_differs :
    ((rowSumDAG.run [.computeAt 1 2 1, .split 2 1 [none] true]).map fun st =>
      (rowSumDAG.applySteps st.transformSteps).isSome) = some false ∧
    ((rowSumDAG.run [.computeAt 1 1 0]).map (·.transformSteps) = some [.computeAtStep 1 1 0] ∧
      ∀ fuel, ((rowSumDAG.applySteps [.computeAtStep 1 1 0]).bind fun lw =>
        lw.sch.legalizeInvalidAttach fuel) = none) ∧
    ((sharedAxisDAG.run [.computeAt 1 3 1, .computeAt 2 4 1, .split 3 1 [some 4] true,
        .split 4 1 [some 2] true]).bind fun st =>
      (sharedAxisDAG.applySteps st.transformSteps).bind fun lw =>
        (lw.sch.legalizeInvalidAttach 10).map fun sch =>
          (st.attachMap.stageToAttachIter 1, decide ((sch.stages[1]?.bind (·.attachIvar)) =
            (lw.axes 3).bind (·[2]?)))) = some (some (3, 2), false) ∧
    ((rowSumDAG.run [.computeAt 1 2 1, .fuse 2 []]).bind fun st =>
      (rowSumDAG.applySteps st.transformSteps).map fun lw =>
        (st.attachMap.stageToAttachIter 1, (lw.axes 2).map length)) =
      some (some (2, 1), some 1) := by
  refine ⟨by decide, ⟨by decide, fun fuel => ?_⟩, by decide, by decide⟩
  have hself : ((rowSumDAG.applySteps [.computeAtStep 1 1 0]).bind fun lw =>
      lw.sch.stages[1]?.bind fun s => s.attachIvar.map fun v =>
        decide (s.attachType = .kScope ∧ parentOf lw.sch.stages s = some s ∧
          v ∈ s.leafIterVars)) = some true := by decide
  obtain ⟨lw, hlw, s, hs, hself⟩ := bind₂_eq_some.mp hself
  obtain ⟨v, hv, hself⟩ := map_eq_some_iff.mp hself
  obtain ⟨hk, hp, hleaf⟩ := of_decide_eq_true hself
  rw [hlw]
  exact legalizeInvalidAttach_self (mem_of_getElem? hs) hk hv hp hleaf fuel

end Pruner.AutoScheduler
