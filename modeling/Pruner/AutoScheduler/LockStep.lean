import Pruner.AutoScheduler.LoopNest
import Pruner.AutoScheduler.Replay

/-!
# State and schedule in lock-step

The loop transformations of a history are applied twice: to the state, which edits
lists of iterators, and to the schedule, which edits leaves and relations.  Both sides
keep the same loop nest, position by position.

## Main definitions

* `StageSim`, `Simulates` — a stage, and all stages, of a state and a schedule describe
  the same loop nests.
* `applySteps_simulation` — a relation that every call keeps holds after a run and the
  replay of its history on a schedule.
* `simulates_step` — every loop transformation and `compute_at` keeps `Simulates`.
-/

namespace Pruner.AutoScheduler

open Lib Te List Option Te.Stage

variable {dag : ComputeDAG} {st st' : State} {k i : ℕ} {order : List ℕ} {op : Operation}
  {its : List Iterator} {it : Iterator} {closed : Prop} {lw : Lowering} {te te' : Te.Stage}

/-! ## Histories on a schedule -/

/-- **Simulation along a run.**  If the schedule can follow each step that a run
records, then it can follow the whole history.  The history a step is applied with
already holds the later steps. -/
theorem applySteps_simulation {C : State → Primitive → Prop} {R : State → Lowering → Prop}
    {ps : List Primitive} (hinit : R dag.initState dag.initLowering)
    (hstep : ∀ p st lw st' step tail, C st p → R st lw → p.step st = some (some step) →
      st.record dag step = some st' →
      ∃ lw', stepApplyToSchedule (st.transformSteps ++ step :: tail) lw step = some lw' ∧
        R st' lw') (hps : Along dag C dag.initState ps) (hrun : dag.run ps = some st) :
    ∃ lw, dag.applySteps st.transformSteps = some lw ∧ R st lw := by
  suffices hgen : ∀ tail, ∃ lw,
      st.transformSteps.foldlM (stepApplyToSchedule (st.transformSteps ++ tail))
        dag.initLowering = some lw ∧ R st lw by
    simpa [ComputeDAG.applySteps] using hgen []
  induction ps using reverseRecOn generalizing st with
  | nil =>
    intro tail
    cases hrun
    exact ⟨_, rfl, hinit⟩
  | append_singleton ps p ih =>
    intro tail
    obtain ⟨m, hm, hp⟩ := foldlM_concat_eq_some.mp hrun
    obtain ⟨hps', hC⟩ := along_concat hps
    rcases apply_cases hp with rfl | ⟨step, hs, hrec, hsteps⟩
    · exact ih hps' hm tail
    · obtain ⟨lw, hlw, hR⟩ := ih hps' hm (step :: tail)
      obtain ⟨lw', hlw', hR'⟩ := hstep p m lw st step tail (hC m hm) hR hs hrec
      refine ⟨lw', ?_, hR'⟩
      rw [hsteps, append_assoc]
      exact foldlM_concat_eq_some.mpr ⟨lw, hlw, hlw'⟩

/-! ## Lists in step -/

variable {α β : Type} {R : α → β → Prop} {l : List α} {l' : List β}

theorem forall₂_replaceSlice (h : Forall₂ R l l') {new : List α} {new' : List β}
    (hnew : Forall₂ R new new') (front back : ℕ) :
    Forall₂ R (replaceSlice l front back new) (replaceSlice l' front back new') :=
  rel_append (rel_append (forall₂_take front h) hnew)
    (forall₂_drop (back + 1) h)

variable {a : α}

theorem forall₂_getElem? (h : Forall₂ R l l')
    (ha : l[k]? = some a) : ∃ b, l'[k]? = some b ∧ R a b := by
  obtain ⟨hlt, rfl⟩ := List.getElem?_eq_some_iff.mp ha
  exact ⟨_, getElem?_eq_getElem (h.length_eq ▸ hlt), h.get hlt (h.length_eq ▸ hlt)⟩

variable {r : List α}

/-- Looking up the same positions in two lists in step. -/
theorem forall₂_mapM_atIndex (h : Forall₂ R l l') {ids : List ℤ}
    (hr : ids.mapM (atIndex l) = some r) :
    ∃ r', ids.mapM (atIndex l') = some r' ∧ Forall₂ R r r' := by
  simp only [mapM_eq_some_iff] at hr ⊢
  induction hr with
  | nil => exact ⟨[], .nil, .nil⟩
  | cons ha _ ih =>
    obtain ⟨n, rfl, ha⟩ := atIndex_eq_some_iff.mp ha
    obtain ⟨b, hb, hR⟩ := forall₂_getElem? h ha
    obtain ⟨r', hr', hRs⟩ := ih
    exact ⟨b :: r', .cons (atIndex_eq_some_iff.mpr ⟨n, rfl, hb⟩) hr', .cons hR hRs⟩

theorem append_getElem?_split (h : l[k]? = some a) : l = l.take k ++ a :: l.drop (k + 1) := by
  obtain ⟨hlt, rfl⟩ := List.getElem?_eq_some_iff.mp h
  rw [← drop_eq_getElem_cons hlt, take_append_drop]

theorem slice_of_consecutive : ∀ {rest : List ℤ} {front : ℤ} {r : List α},
    consecutive (front :: rest) → (front :: rest).mapM (atIndex l) = some r →
    l = l.take front.toNat ++ r ++
      l.drop (((front :: rest).getLast (cons_ne_nil _ _)).toNat + 1) := by
  intro rest
  induction rest with
  | nil =>
    intro front r _ hr
    rw [mapM_eq_some_iff] at hr
    cases hr with
    | cons ha hnil =>
      cases hnil
      obtain ⟨n, rfl, ha⟩ := atIndex_eq_some_iff.mp ha
      simpa using append_getElem?_split ha
  | cons next rest ih =>
    intro front r hcons hr
    simp only [consecutive, Bool.and_eq_true, decide_eq_true_eq] at hcons
    rw [mapM_eq_some_iff] at hr
    cases hr with
    | cons ha hrest =>
      obtain ⟨n, hn, hget⟩ := atIndex_eq_some_iff.mp ha
      have hslice := ih hcons.2 (mapM_eq_some_iff.mpr hrest)
      have hnext : next.toNat = n + 1 := by omega
      have hfront : front.toNat = n := by omega
      rw [hnext] at hslice
      conv_lhs => rw [hslice, take_add_one, hget]
      simp [hfront]

theorem map_some_of_mapM_atIndex (hr : (order.map Nat.cast).mapM (atIndex l) = some r) :
    r.map some = order.map fun j => l[j]? := by
  rw [mapM_eq_some_iff, forall₂_map_left_iff] at hr
  induction hr with
  | nil => rfl
  | cons ha _ ih => rw [map_cons, map_cons, ih, ← ha, atIndex_natCast]

theorem perm_of_mapM_atIndex (hnd : order.Nodup) (hlen : order.length = l.length)
    (hlt : ∀ j ∈ order, j < l.length)
    (hr : (order.map Nat.cast).mapM (atIndex l) = some r) : r.Perm l := by
  have hperm : order.Perm (range l.length) := by
    refine (subperm_of_subset hnd fun j hj => ?_).perm_of_length_le (by simp [hlen])
    exact mem_range.mpr (hlt j hj)
  have hsome := map_some_of_mapM_atIndex hr
  have hself : (range l.length).map (fun j => l[j]?) = l.map some := by
    refine ext_getElem (by simp) fun i h₁ _ => ?_
    have : i < l.length := by simpa using h₁
    simp [this]
  have := hperm.map fun j => l[j]?
  rw [← hsome, hself] at this
  exact (map_perm_map_iff (some_injective α)).mp this

/-! ## The same loop nests -/

/-- A stage of a state and one of a schedule describe the same loop nest.  Behind the
loops of `stage_to_axes` the schedule may have further leaves, which a fuse of no loop
leaves there; a `closed` nest has none, and all its extents are known. -/
structure StageSim (closed : Prop) (stage : Stage) (te : Te.Stage)
    (axes : Option (List IterVar)) : Prop where
  ok : te.LoopsOk
  leaf : ∃ dead, te.leafIterVars = axes.getD [] ++ dead ∧ (closed → dead = [])
  nest : ∃ nest, Forall₂ (Realises te.relations) nest (axes.getD []) ∧
    Forall₂ (Denotes closed) nest stage.iters

/-- All stages of a state and a schedule describe the same loop nests. -/
structure Simulates (closed : Prop) (dag : ComputeDAG) (stages : List Stage) (lw : Lowering) :
    Prop where
  length : stages.length = dag.ops.length
  origins : lw.sch.stages.map (fun s => s.originOp.id) = dag.ops.map (·.id)
  compute : lw.stageToAxes.map Option.isSome = dag.ops.map fun op => op.asCompute.isSome
  stage : ∀ (i : ℕ) stage te axes, stages[i]? = some stage → lw.sch.stages[i]? = some te →
    lw.stageToAxes[i]? = some axes → StageSim closed stage te axes

section

variable {stages : List Stage} {stage stage' : Stage} {axes axes' : Option (List IterVar)}
  (H : Simulates closed dag stages lw)
include H

theorem Simulates.length_sch : lw.sch.stages.length = dag.ops.length := by
  simpa using congrArg List.length H.origins

theorem Simulates.get (hi : stages[i]? = some stage) :
    ∃ te axes, lw.sch.stages[i]? = some te ∧ lw.stageToAxes[i]? = some axes ∧
      StageSim closed stage te axes := by
  have hlen : lw.stageToAxes.length = dag.ops.length := by
    simpa using congrArg List.length H.compute
  obtain ⟨te, hte⟩ := exists_of_length_eq (H.length.trans H.length_sch.symm) hi
  obtain ⟨axes, hax⟩ := exists_of_length_eq (H.length.trans hlen.symm) hi
  exact ⟨te, axes, hte, hax, H.stage i stage te axes hi hte hax⟩

theorem Simulates.get_te (hte : lw.sch.stages[i]? = some te) :
    ∃ stage axes, stages[i]? = some stage ∧ lw.stageToAxes[i]? = some axes ∧
      StageSim closed stage te axes := by
  obtain ⟨stage, hstage⟩ := exists_of_length_eq (H.length_sch.trans H.length.symm) hte
  obtain ⟨te', axes, hte', haxes, hsim⟩ := H.get hstage
  cases hte.symm.trans hte'
  exact ⟨stage, axes, hstage, haxes, hsim⟩

theorem Simulates.axes_isSome (hop : dag.ops[i]? = some op) (hcomp : op.asCompute.isSome)
    (haxes : lw.stageToAxes[i]? = some axes) : ∃ as, axes = some as := by
  have := congrArg (fun l : List Bool => l[i]?) H.compute
  simp only [getElem?_map, haxes, hop, map_some, some.injEq, hcomp] at this
  exact isSome_iff_exists.mp this

variable (hte : lw.sch.stages[i]? = some te) (haxes : lw.stageToAxes[i]? = some axes)
  (horigin : te'.originOp = te.originOp)
include hte haxes horigin

/-- Changing one stage on both sides. -/
theorem Simulates.set (hsome : axes'.isSome = axes.isSome)
    (hsim : StageSim closed stage' te' axes') :
    Simulates closed dag (stages.set i stage')
      ⟨{ lw.sch with stages := lw.sch.stages.set i te' }, lw.stageToAxes.set i axes'⟩ where
  length := by rw [length_set, H.length]
  origins := by
    rw [← H.origins, map_set]
    exact set_of_getElem? (by simp [hte, horigin])
  compute := by
    rw [← H.compute, map_set]
    exact set_of_getElem? (by simp [haxes, hsome])
  stage := by
    intro j s t a hs ht ha
    rcases getElem?_set_cases hs with ⟨rfl, -, rfl⟩ | ⟨hij, hs⟩
    · rw [getElem?_set_self (lt_of_getElem? hte)] at ht
      rw [getElem?_set_self (lt_of_getElem? haxes)] at ha
      cases ht
      cases ha
      exact hsim
    · rw [getElem?_set_ne hij] at ht ha
      exact H.stage j s t a hs ht ha

/-- Changing one stage but not its loops. -/
theorem Simulates.setStage (hsim : StageSim closed stage' te' axes) :
    Simulates closed dag (stages.set i stage') (lw.setStage i te') := by
  have := H.set hte haxes horigin rfl hsim
  rwa [set_of_getElem? haxes] at this

end

/-! ## One step on one stage -/

section

variable {stage : Stage} {axes dead : List IterVar} {nest : List Part}

/-- Editing a slice of the loops on both sides. -/
theorem StageSim.edit {front back : ℕ} {rels : List Relation} {olds news : List IterVar}
    {parts : List Part} (hdead : closed → dead = [])
    (hrealises : Forall₂ (Realises te.relations) nest axes)
    (hdenotes : Forall₂ (Denotes closed) nest stage.iters)
    (hedit : Te.Stage.Edit te te' rels (axes.take front) olds (axes.drop (back + 1) ++ dead) news)
    (hnews : Forall₂ (Realises te'.relations) parts news)
    (hits : Forall₂ (Denotes closed) parts its) :
    StageSim closed { stage with iters := replaceSlice stage.iters front back its } te'
      (some (replaceSlice axes front back news)) where
  ok := hedit.ok
  leaf := ⟨dead, by simp [hedit.leaf, replaceSlice], hdead⟩
  nest := by
    have hsub : te.relations ⊆ te'.relations := by simp [hedit.relations]
    have hkeep := hrealises.imp fun _ _ h => Realises.mono hsub h
    exact ⟨replaceSlice nest front back parts, forall₂_replaceSlice hkeep hnews front back,
      forall₂_replaceSlice hdenotes hits front back⟩

variable (H : StageSim closed stage te (some axes))
include H

theorem StageSim.split {v : IterVar} {ls : List ℤ} {io : Bool} {outs : List Iterator}
    (hv : axes[k]? = some v) (hit : stage.iters[k]? = some it)
    (houts : splitIterators it (ls.map some) io = some outs) :
    ∃ te' news rels dead, splitStage te v (ls.map some) io = some (te', news) ∧
      Te.Stage.Edit te te' rels (axes.take k) [v] (axes.drop (k + 1) ++ dead) news ∧
      news.length = ls.length + 1 ∧
      StageSim closed { stage with iters := replaceSlice stage.iters k k outs } te'
        (some (replaceSlice axes k k news)) := by
  obtain ⟨dead, hleaf, hdead⟩ := H.leaf
  obtain ⟨nest, hrealises, hdenotes⟩ := H.nest
  obtain ⟨p, hp, hpit⟩ := forall₂_getElem? hdenotes.flip hit
  obtain ⟨v', hv', hpv⟩ := forall₂_getElem? hrealises hp
  obtain rfl : v' = v := some.inj (hv'.symm.trans hv)
  have hleaf' : te.leafIterVars = axes.take k ++ v' :: (axes.drop (k + 1) ++ dead) := by
    rw [hleaf]
    conv_lhs => rw [append_getElem?_split hv]
    simp
  obtain ⟨te', news, rels, hrun, hedit, hsplit⟩ := splitStage_spec H.ok hleaf' ls io
  refine ⟨te', news, rels, dead, hrun, hedit, hsplit.length_eq, ?_⟩
  have hsub : te.relations ⊆ te'.relations := by simp [hedit.relations]
  have hnew : rels ⊆ te'.relations := by simp [hedit.relations]
  exact StageSim.edit hdead hrealises hdenotes hedit
    (realises_pieces (hpv.mono hsub) (hsplit.mono hnew)) (denotes_splitIterators hpit houts)

theorem StageSim.fuse {front : ℤ} {rest : List ℤ} (hcons : consecutive (front :: rest))
    (hits : (front :: rest).mapM (atIndex stage.iters) = some its) :
    let back := (front :: rest).getLast (cons_ne_nil _ _)
    ∃ vs te' fused rels dead, (front :: rest).mapM (atIndex axes) = some vs ∧
      te.fuse vs = some (te', fused) ∧
      Te.Stage.Edit te te' rels (axes.take front.toNat) vs
        (axes.drop (back.toNat + 1) ++ dead) [fused] ∧
      StageSim closed
        { stage with
          iters := replaceSlice stage.iters front.toNat back.toNat [fusedIterator its] } te'
        (some (replaceSlice axes front.toNat back.toNat [fused])) := by
  obtain ⟨dead, hleaf, hdead⟩ := H.leaf
  obtain ⟨nest, hrealises, hdenotes⟩ := H.nest
  rw [getD_some] at hleaf hrealises
  obtain ⟨ps, hps, hpits⟩ := forall₂_mapM_atIndex hdenotes.flip hits
  obtain ⟨vs, hvs, hpvs⟩ := forall₂_mapM_atIndex hrealises hps
  have hne : vs ≠ [] := by
    intro h
    have := (mapM_eq_some_iff.mp hvs).length_eq
    simp [h] at this
  have hleaf' : te.leafIterVars = axes.take front.toNat ++ vs ++
      (axes.drop (((front :: rest).getLast (cons_ne_nil _ _)).toNat + 1) ++ dead) := by
    rw [hleaf, ← append_assoc, ← slice_of_consecutive hcons hvs]
  obtain ⟨te', fused, rels, hrun, hedit, hfuse⟩ := fuse_spec H.ok hne hleaf'
  refine ⟨vs, te', fused, rels, dead, hvs, hrun, hedit, ?_⟩
  have hsub : te.relations ⊆ te'.relations := by simp [hedit.relations]
  have hnew : rels ⊆ te'.relations := by simp [hedit.relations]
  have hparts : Realises te'.relations (.fuse ps) fused :=
    ⟨vs, realisesAll_iff.mpr (hpvs.imp fun _ _ h => Realises.mono hsub h), hfuse.mono hnew⟩
  exact StageSim.edit hdead hrealises hdenotes hedit (.cons hparts .nil)
    (.cons (denotes_fusedIterator hpits.flip) .nil)

theorem StageSim.fuseEmpty (hopen : ¬ closed) :
    StageSim closed { stage with iters := [fusedIterator []] } te.fuseEmpty.1
      (some [te.fuseEmpty.2]) where
  ok := H.ok.fuseEmpty
  leaf := ⟨te.leafIterVars, rfl, fun h => absurd h hopen⟩
  nest := by
    have hparts : Realises te.fuseEmpty.1.relations (.fuse []) te.fuseEmpty.2 :=
      ⟨[], rfl, by simp [FuseInto, Te.Stage.fuseEmpty]⟩
    exact ⟨[.fuse []], .cons hparts .nil, .cons (denotes_fusedIterator .nil) .nil⟩

theorem StageSim.reorder (hnd : order.Nodup) (hlen : order.length = stage.iters.length)
    (hlt : ∀ j ∈ order, j < stage.iters.length)
    (hits : (order.map Nat.cast).mapM (atIndex stage.iters) = some its) :
    ∃ vs te', (order.map Nat.cast).mapM (atIndex axes) = some vs ∧ vs.Perm axes ∧
      te.reorder vs = some te' ∧ te' = { te with leafIterVars := te'.leafIterVars } ∧
      StageSim closed { stage with iters := its } te' (some vs) := by
  obtain ⟨dead, hleaf, hdead⟩ := H.leaf
  obtain ⟨nest, hrealises, hdenotes⟩ := H.nest
  rw [getD_some] at hleaf hrealises
  obtain ⟨ps, hps, hpits⟩ := forall₂_mapM_atIndex hdenotes.flip hits
  obtain ⟨vs, hvs, hpvs⟩ := forall₂_mapM_atIndex hrealises hps
  have hsize : stage.iters.length = axes.length := hdenotes.length_eq.symm.trans hrealises.length_eq
  have hperm : vs.Perm axes :=
    perm_of_mapM_atIndex hnd (hlen.trans hsize) (fun j hj => hsize ▸ hlt j hj) hvs
  refine ⟨vs, _, hvs, hperm, H.ok.reorder_spec hleaf hperm, rfl, ?_⟩
  exact
    { ok := H.ok.permute (by rw [hleaf]; exact hperm.append_right dead)
      leaf := ⟨dead, rfl, hdead⟩
      nest := ⟨ps, hpvs, hpits.flip⟩ }

end

/-! ## One step on a schedule -/

/-- What a split or a fuse does to a schedule: in one stage the loops from `front` to
`back` are replaced by `n` new ones. -/
inductive SliceEdit (lw : Lowering) (i front back n : ℕ) : Lowering → Prop
  | intro {te te' : Te.Stage} {axes olds dead news : List IterVar} {rels : List Relation}
      (hte : lw.sch.stages[i]? = some te) (haxes : lw.stageToAxes[i]? = some (some axes))
      (hslice : axes = axes.take front ++ olds ++ axes.drop (back + 1))
      (hedit : Te.Stage.Edit te te' rels (axes.take front) olds
        (axes.drop (back + 1) ++ dead) news) (hlen : news.length = n) :
      SliceEdit lw i front back n
        ((lw.setStage i te').setAxes i (replaceSlice axes front back news))

/-- What `compute_at` does to a schedule. -/
inductive Placed (lw : Lowering) (i t k : ℕ) : Lowering → Prop
  | intro {te target : Te.Stage} {axes : List IterVar} {v : IterVar}
      (hte : lw.sch.stages[i]? = some te) (htarget : lw.sch.stages[t]? = some target)
      (haxes : lw.stageToAxes[t]? = some (some axes)) (hv : axes[k]? = some v) :
      Placed lw i t k (lw.setStage i
        { te with
          attachType := .kScope
          attachIvar := some v
          attachStage := some target.originOp.id })

section

theorem StageSim.axes_of_iters {stage : Stage} {te : Te.Stage} {axes : Option (List IterVar)}
    (H : StageSim closed stage te axes)
    (hit : stage.iters[k]? = some it) : ∃ as v, axes = some as ∧ as[k]? = some v := by
  obtain ⟨nest, hrealises, hdenotes⟩ := H.nest
  obtain ⟨p, hp, -⟩ := forall₂_getElem? hdenotes.flip hit
  obtain ⟨v, hv, -⟩ := forall₂_getElem? hrealises hp
  cases axes with
  | none => simp at hv
  | some as => exact ⟨as, v, rfl, hv⟩

variable (H : Simulates closed dag st.stages lw)
include H

theorem Simulates.split {iterId : ℤ} {ls : List ℤ} {io : Bool}
    (h : applySplitToState st i iterId (ls.map some) io = some st') :
    ∃ lw', applySplitToSchedule lw i iterId (ls.map some) io = some lw' ∧
      Simulates closed dag st'.stages lw' ∧
      SliceEdit lw i iterId.toNat iterId.toNat (ls.length + 1) lw' := by
  simp only [applySplitToState, do_eq_some] at h
  obtain ⟨stage, hstage, it, hit, outs, houts, m, -, h⟩ := h
  cases h
  obtain ⟨k, rfl, hk⟩ := atIndex_eq_some_iff.mp hit
  obtain ⟨te, axes, hte, haxes, hsim⟩ := H.get hstage
  obtain ⟨as, v, rfl, hv⟩ := hsim.axes_of_iters hk
  obtain ⟨te', news, rels, dead, hrun, hedit, hlen, hsim'⟩ := hsim.split hv hk houts
  refine ⟨(lw.setStage i te').setAxes i (replaceSlice as k k news), ?_, ?_, ?_⟩
  · simp [applySplitToSchedule, Lowering.stage, Lowering.axes, hte, haxes, hv, hrun]
  · exact H.set hte haxes (originOp_eq_of_header hedit.header) rfl hsim'
  · exact .intro hte haxes (by simpa using append_getElem?_split hv) hedit hlen

theorem Simulates.fuse {front : ℤ} {rest : List ℤ}
    (h : fuseToState st i (front :: rest) = some st') :
    ∃ lw', fuseToSchedule lw i (front :: rest) = some lw' ∧ Simulates closed dag st'.stages lw' ∧
      SliceEdit lw i front.toNat ((front :: rest).getLast (cons_ne_nil _ _)).toNat 1
        lw' := by
  simp only [fuseToState, bind_eq_bind, bind_eq_some_iff] at h
  obtain ⟨stage, hstage, its, hits, h⟩ := h
  split at h
  case isFalse => cases h
  case isTrue hcond =>
    simp only [bind_eq_some_iff] at h
    obtain ⟨m, -, h⟩ := h
    cases h
    obtain ⟨te, axes, hte, haxes, hsim⟩ := H.get hstage
    have hfirst : ∃ (k : ℕ) (it : Iterator), stage.iters[k]? = some it := by
      cases mapM_eq_some_iff.mp hits with
      | cons ha _ =>
        obtain ⟨k, -, hk⟩ := atIndex_eq_some_iff.mp ha
        exact ⟨k, _, hk⟩
    obtain ⟨k, it, hk⟩ := hfirst
    obtain ⟨as, -, rfl, -⟩ := hsim.axes_of_iters hk
    obtain ⟨vs, te', fused, rels, dead, hvs, hrun, hedit, hsim'⟩ := hsim.fuse hcond.1 hits
    refine ⟨_, ?_, ?_, .intro hte haxes (slice_of_consecutive hcond.1 hvs) hedit rfl⟩
    · simp only [fuseToSchedule, Lowering.stage, Lowering.axes, hte, haxes, hvs, hrun,
        some_bind_eq, join_some]
    · exact H.set hte haxes (originOp_eq_of_header hedit.header) rfl hsim'

theorem Simulates.fuseEmpty (hopen : ¬ closed) (hop : dag.ops[i]? = some op)
    (hcomp : op.asCompute.isSome) (h : fuseToState st i [] = some st') :
    ∃ te lw', lw.sch.stages[i]? = some te ∧
      lw' = (lw.setStage i te.fuseEmpty.1).setAxes i [te.fuseEmpty.2] ∧
      fuseToSchedule lw i [] = some lw' ∧ Simulates closed dag st'.stages lw' := by
  obtain ⟨stage, hstage, its, hits, h⟩ := bind₂_eq_some.mp h
  obtain rfl : its = [] := (some.inj hits).symm
  split at h
  case isFalse => cases h
  case isTrue =>
    cases h
    obtain ⟨te, axes, hte, haxes, hsim⟩ := H.get hstage
    obtain ⟨as, rfl⟩ := H.axes_isSome hop hcomp haxes
    refine ⟨te, _, hte, rfl, ?_, ?_⟩
    · simp [fuseToSchedule, Lowering.stage, Lowering.axes, hte, haxes, Te.Stage.fuse]
    · exact H.set hte haxes rfl rfl (hsim.fuseEmpty hopen)

theorem Simulates.reorder (hnd : order.Nodup)
    (hlt : ∀ stage ∈ st.stages[i]?, order.length = stage.iters.length ∧
      ∀ j ∈ order, j < stage.iters.length) (hop : dag.ops[i]? = some op)
    (hcomp : op.asCompute.isSome) (h : reorderToState st i (order.map Nat.cast) = some st') :
    ∃ lw', reorderToSchedule lw i (order.map Nat.cast) = some lw' ∧
      Simulates closed dag st'.stages lw' := by
  obtain ⟨stage, hstage, its, hits, h⟩ := bind₂_eq_some.mp h
  cases h
  obtain ⟨te, axes, hte, haxes, hsim⟩ := H.get hstage
  obtain ⟨as, rfl⟩ := H.axes_isSome hop hcomp haxes
  obtain ⟨hlen, hlt⟩ := hlt stage hstage
  obtain ⟨vs, te', hvs, hperm, hrun, hte', hsim'⟩ := hsim.reorder hnd hlen hlt hits
  have hsize : order.length = as.length := by
    have := (mapM_eq_some_iff.mp hvs).length_eq
    rw [← hperm.length_eq, ← this, length_map]
  refine ⟨(lw.setStage i te').setAxes i vs, ?_, ?_⟩
  · simp only [reorderToSchedule, Lowering.stage, Lowering.axes, hte, haxes, hvs, hrun,
      some_bind_eq, join_some, length_map, hsize, if_true]
  · exact H.set hte haxes (by rw [hte']) rfl hsim'

/-- Placing a stage at a loop of another one. -/
theorem Simulates.computeAt {t : ℤ} (hopen : ¬ closed) (hit : st.iterAt t k = some it)
    (h : computeAtToState st i t k = some st') :
    ∃ lw', computeAtToSchedule lw i t k = some lw' ∧ Simulates closed dag st'.stages lw' ∧
      Placed lw i t.toNat k lw' := by
  obtain ⟨stage, hstage, h⟩ := bind_eq_some_iff.mp h
  cases h
  obtain ⟨target, htarget, hk⟩ := bind_eq_some_iff.mp hit
  obtain ⟨t, rfl, ht⟩ := atIndex_eq_some_iff.mp htarget
  obtain ⟨te, axes, hte, haxes, hsim⟩ := H.get hstage
  obtain ⟨tt, taxes, htt, htaxes, htsim⟩ := H.get ht
  obtain ⟨as, v, rfl, hv⟩ := htsim.axes_of_iters hk
  have hleaf : v ∈ tt.leafIterVars := by
    obtain ⟨dead, hleaf, -⟩ := htsim.leaf
    rw [hleaf]
    exact mem_append_left _ (mem_of_getElem? hv)
  refine ⟨_, ?_, ?_, .intro hte htt htaxes hv⟩
  · have hnat : (t : ℤ).toNat? = some t := rfl
    simp [computeAtToSchedule, Lowering.stage, Lowering.axes, hte, hnat, htt, htaxes, hv,
      computeAt, hleaf]
  · refine H.setStage hte haxes rfl ⟨hsim.ok.attach _ _ _, hsim.leaf, ?_⟩
    obtain ⟨nest, hrealises, hdenotes⟩ := hsim.nest
    refine ⟨nest, hrealises, ?_⟩
    rw [forall₂_map_right_iff]
    refine hdenotes.imp fun p it hd => ?_
    exact hd.clearRange hopen

end

/-! ## Lengths of followed splits -/

theorem lengthProd_map_some (ls : List ℤ) : ∃ x, lengthProd (ls.map some) = some x := by
  suffices h : ∀ acc, ∃ x, (ls.map some).foldlM (fun acc l => l.map (acc * ·)) acc = some x from h 1
  induction ls with
  | nil => exact fun acc => ⟨acc, rfl⟩
  | cons l ls ih => exact fun acc => ih (acc * l)

section

variable {steps : List Step} (hfill : ∀ s ∈ steps, s.Filled)
include hfill

variable {lengths : List (Option ℤ)}

theorem splitLengthsAt_filled {id : ℤ}
    (h : splitLengthsAt steps id = some lengths) : ∃ ls : List ℤ, lengths = ls.map some := by
  obtain ⟨i, -, h⟩ := bind_eq_some_iff.mp h
  split at h
  · next hs =>
      cases h
      exact exists_eq_map_some (hfill _ (mem_of_getElem? hs))
  · cases h

theorem extractSplitLengths_filled {src nSplit : ℤ}
    (h : extractSplitLengths steps src nSplit = some lengths) :
    ∃ ls : List ℤ, lengths = ls.map some := by
  obtain ⟨ls, hls, h⟩ := bind_eq_some_iff.mp h
  obtain ⟨ls, rfl⟩ := splitLengthsAt_filled hfill hls
  split_ifs at h
  cases h
  rw [← map_take, ← map_drop]
  obtain ⟨x, hx⟩ := lengthProd_map_some (ls.drop (nSplit - 1).toNat)
  exact ⟨ls.take (nSplit - 1).toNat ++ [x], by rw [hx, map_append]; rfl⟩

theorem extractSplitLength_filled {level : ℤ} {ids : List ℤ} : ∀ {acc : ℤ} {r : Option ℤ},
    extractSplitLength steps level acc ids = some r → ∃ x, r = some x := by
  induction ids with
  | nil =>
    intro acc r h
    exact ⟨acc, (some.inj h).symm⟩
  | cons id ids ih =>
    intro acc r h
    obtain ⟨ls, hls, j, -, l, hl, h⟩ := bind₃_eq_some.mp h
    obtain ⟨ls, rfl⟩ := splitLengthsAt_filled hfill hls
    rw [getElem?_map, map_eq_some_iff] at hl
    obtain ⟨x, -, rfl⟩ := hl
    exact ih h

end

/-- A split whose lengths are given, or that follows an earlier one. -/
def Primitive.FilledSplit : Primitive → Prop
  | .split _ _ lengths _ => ∀ l ∈ lengths, l.isSome
  | .followSplit _ _ _ _ => True
  | .followFusedSplit _ _ _ _ _ => True
  | _ => False

variable {p : Primitive}

/-- The three split steps are one: they differ in where the lengths come from, and the
lengths are the same while the state is built and when the history is replayed. -/
theorem record_filledSplit {st' : State} {step : Step} (hp : p.FilledSplit)
    (hfill : ∀ s ∈ st.transformSteps, s.Filled) (hs : p.step st = some (some step))
    (hrec : st.record dag step = some st') :
    step.Filled ∧ ∃ (i : ℕ) (iterId : ℤ) (ls : List ℤ) (io : Bool),
      applySplitToState { st with transformSteps := st.transformSteps ++ [step] } i iterId
        (ls.map some) io = some st' ∧
      ∀ tail lw, stepApplyToSchedule (st.transformSteps ++ step :: tail) lw step =
        applySplitToSchedule lw i iterId (ls.map some) io := by
  have hsteps : ∀ step : Step, step.Filled → ∀ s ∈ st.transformSteps ++ [step], s.Filled :=
    fun step hstep => forall_mem_append.mpr ⟨hfill, forall_mem_singleton.mpr hstep⟩
  cases p
  case split stageId it lengths io =>
    simp only [Primitive.step, do_eq_some, some.injEq] at hs
    obtain ⟨iter, -, rfl⟩ := hs
    obtain ⟨i, hi, hrec⟩ := bind_eq_some_iff.mp hrec
    obtain ⟨ls, rfl⟩ := exists_eq_map_some hp
    exact ⟨hp, i, it, ls, io, hrec, fun tail lw => by simp [stepApplyToSchedule, Step.stageId, hi]⟩
  case followSplit stageId it src nSplit =>
    simp only [Primitive.step, do_eq_some, some.injEq] at hs
    obtain ⟨iter, -, rfl⟩ := hs
    obtain ⟨lengths, hlen, i, hi, hrec⟩ := bind₂_eq_some.mp hrec
    have hfilled : Step.Filled (.followSplitStep stageId it src nSplit) := trivial
    obtain ⟨ls, rfl⟩ := extractSplitLengths_filled (hsteps _ hfilled) hlen
    refine ⟨trivial, i, it, ls, true, hrec, fun tail lw => ?_⟩
    have hlen' : extractSplitLengths (st.transformSteps ++ [_] ++ tail) src nSplit = _ :=
      extractSplitLengths_append hlen
    rw [append_assoc, singleton_append] at hlen'
    simp [stepApplyToSchedule, Step.stageId, hi, hlen']
  case followFusedSplit stageId it src level factorOrNparts =>
    simp only [Primitive.step, do_eq_some, some.injEq] at hs
    obtain ⟨iter, -, rfl⟩ := hs
    obtain ⟨length, hlen, i, hi, hrec⟩ := bind₂_eq_some.mp hrec
    have hfilled : Step.Filled (.followFusedSplitStep stageId it src level factorOrNparts) :=
      trivial
    obtain ⟨l, rfl⟩ := extractSplitLength_filled (hsteps _ hfilled) hlen
    refine ⟨trivial, i, it, [l], factorOrNparts, hrec, fun tail lw => ?_⟩
    have hlen' : extractSplitLength (st.transformSteps ++ [_] ++ tail) level 1 src = _ :=
      extractSplitLength_append hlen
    rw [append_assoc, singleton_append] at hlen'
    simp [stepApplyToSchedule, Step.stageId, hi, hlen']
  all_goals exact absurd hp id

/-! ## What calls record -/

variable {step : Step} {stageId : ℤ}

/-- A call adds its step to the history. -/
theorem record_filled (hfill : ∀ s ∈ st.transformSteps, s.Filled) (hstep : step.Filled)
    (hrec : st.record dag step = some st') : ∀ s ∈ st'.transformSteps, s.Filled := by
  rw [stepApplyToState_transformSteps (by simp) hrec]
  exact forall_mem_append.mpr ⟨hfill, forall_mem_singleton.mpr hstep⟩

theorem record_fuse {iters : List ℕ}
    (hs : (Primitive.fuse stageId iters).step st = some (some step))
    (hrec : st.record dag step = some st') :
    ∃ i : ℕ, stageId = i ∧ step = .fuseStep i (iters.map Nat.cast) ∧
      fuseToState { st with transformSteps := st.transformSteps ++ [step] } i
        (iters.map Nat.cast) = some st' := by
  obtain ⟨stage, hstage, hs⟩ := bind_eq_some_iff.mp hs
  obtain ⟨i, rfl, hstage⟩ := atIndex_eq_some_iff.mp hstage
  split_ifs at hs
  cases hs
  exact ⟨i, rfl, rfl, hrec⟩

theorem record_reorder (hs : (Primitive.reorder stageId order).step st = some (some step))
    (hrec : st.record dag step = some st') :
    ∃ (i : ℕ) (stage : Stage), stageId = i ∧ step = .reorderStep i (order.map Nat.cast) ∧
      st.stages[i]? = some stage ∧ order.length = stage.iters.length ∧
      (∀ j ∈ order, j < stage.iters.length) ∧
      reorderToState { st with transformSteps := st.transformSteps ++ [step] } i
        (order.map Nat.cast) = some st' := by
  obtain ⟨stage, hstage, hs⟩ := bind_eq_some_iff.mp hs
  obtain ⟨i, rfl, hstage⟩ := atIndex_eq_some_iff.mp hstage
  split_ifs at hs with hcond
  cases hs
  exact ⟨i, stage, rfl, rfl, hstage, hcond.1, hcond.2, hrec⟩

theorem record_computeAt {target : ℤ}
    (hs : (Primitive.computeAt stageId target k).step st = some (some step))
    (hrec : st.record dag step = some st') :
    ∃ (i : ℕ) (it : Iterator), stageId = i ∧ step = .computeAtStep i target k ∧
      st.iterAt target k = some it ∧
      computeAtToState { st with transformSteps := st.transformSteps ++ [step] } i target k =
        some st' := by
  simp only [Primitive.step, do_eq_some, some.injEq] at hs
  obtain ⟨it, hit, rfl⟩ := hs
  simp only [State.record, stepApplyToState, do_eq_some, Int.mem_toNat?] at hrec
  obtain ⟨i, rfl, hrec⟩ := hrec
  exact ⟨i, it, rfl, rfl, hit, hrec⟩

/-! ## The initial state -/

section

variable (dag : InputDAG) (hop : op ∈ dag.ops)
include hop

theorem InputDAG.root_type {v : IterVar}
    (hv : v ∈ op.rootIterVars) : v.iterType = .kDataPar ∨ v.iterType = .kCommReduce := by
  have hc : ∃ c, op.asCompute = some c ∧ op.rootIterVars = c.axis ++ c.reduceAxis := by
    unfold Operation.rootIterVars Operation.asCompute at *
    split at hv
    · simp at hv
    · exact ⟨_, rfl, rfl⟩
  obtain ⟨c, hc, hroot⟩ := hc
  rw [hroot] at hv
  rcases mem_append.mp hv with hv | hv
  · exact .inl (dag.axis_type op hop c hc v hv)
  · exact .inr (dag.reduce_type op hop c hc v hv)

theorem InputDAG.loopsOk : (ofOp op).LoopsOk := by
  refine loopsOk_ofOp (dag.names_nodup op hop).of_map ?_ ?_
  · intro v hv o k href
    have := dag.declared op hop v hv
    rw [href] at this
    cases this
  · intro v hv
    exact dag.root_type hop hv

/-- No axis of a computation is opaque. -/
theorem InputDAG.leafIterVars_ofOp : (ofOp op).leafIterVars = op.rootIterVars := by
  refine filter_eq_self.mpr fun v hv => ?_
  rcases dag.root_type hop hv with h | h <;> simp [h]

theorem InputDAG.denotes_ofOp :
    Forall₂ (Denotes closed) (op.rootIterVars.map .root) (Stage.ofOp op).iters := by
  obtain ⟨id, node⟩ := op
  cases node with
  | placeholder shape => exact .nil
  | compute c =>
    have haxis := dag.axis_type _ hop c rfl
    have hreduce := dag.reduce_type _ hop c rfl
    simp only [Operation.rootIterVars, Stage.ofOp, map_append]
    refine rel_append ?_ ?_
    · rw [forall₂_map_left_iff, forall₂_map_right_iff, forall₂_same]
      intro v hv
      exact ⟨rfl, by simp [Iterator.ofAxis, haxis v hv], .inl rfl⟩
    · rw [forall₂_map_left_iff, forall₂_map_right_iff, forall₂_same]
      intro v hv
      exact ⟨rfl, by simp [Iterator.ofAxis, hreduce v hv], .inl rfl⟩

end

theorem axesOf_getD (op : Operation) : (axesOf op).getD [] = op.rootIterVars := by
  unfold axesOf Operation.asCompute Operation.rootIterVars
  cases op.node <;> rfl

/-- State and schedule start with the axes of the operations. -/
theorem InputDAG.simulates_init (dag : InputDAG) (closed : Prop) :
    Simulates closed dag.toComputeDAG dag.initState.stages dag.initLowering where
  length := by simp [ComputeDAG.initState]
  origins := by
    simp [ComputeDAG.initLowering, Schedule.ofOps, ofOp, Function.comp_def]
  compute := by
    simp [ComputeDAG.initLowering, axesOf, Function.comp_def]
  stage := by
    intro i stage te axes hstage hte haxes
    simp only [ComputeDAG.initState, ComputeDAG.initLowering, Schedule.ofOps,
      getElem?_map, map_eq_some_iff] at hstage hte haxes
    obtain ⟨op, hop, rfl⟩ := hstage
    obtain ⟨op₁, hop₁, rfl⟩ := hte
    obtain ⟨op₂, hop₂, rfl⟩ := haxes
    cases hop.symm.trans hop₁
    cases hop.symm.trans hop₂
    have hmem := mem_of_getElem? hop
    refine ⟨dag.loopsOk hmem, ⟨[], ?_, fun _ => rfl⟩, op.rootIterVars.map .root, ?_,
      dag.denotes_ofOp hmem⟩
    · rw [dag.leafIterVars_ofOp hmem, axesOf_getD, append_nil]
    · rw [axesOf_getD, forall₂_map_left_iff, forall₂_same]
      exact fun v _ => rfl

/-! ## Loop transformations -/

/-- The stage is computed, not a placeholder. -/
def IsComputed (dag : ComputeDAG) (stageId : ℤ) : Prop :=
  ∀ op, atIndex dag.ops stageId = some op → op.asCompute.isSome

/-- The loop transformations that a schedule can follow: all lengths of a split are
given, at least one loop is fused, and a reorder permutes the loops of a computed
stage. -/
def LoopCall (dag : ComputeDAG) : Primitive → Prop
  | .fuse _ iters => iters ≠ []
  | .reorder stageId order => order.Nodup ∧ IsComputed dag stageId
  | p => p.FilledSplit

theorem simulates_loopCall {st' : State} {lw : Lowering} {step : Step}
    (hp : LoopCall dag p) (H : Simulates True dag st.stages lw ∧ ∀ s ∈ st.transformSteps, s.Filled)
    (hs : p.step st = some (some step)) (hrec : st.record dag step = some st') (tail : List Step) :
    ∃ lw', stepApplyToSchedule (st.transformSteps ++ step :: tail) lw step = some lw' ∧
      Simulates True dag st'.stages lw' ∧ ∀ s ∈ st'.transformSteps, s.Filled := by
  obtain ⟨H, hfill⟩ := H
  have H' : Simulates True dag (st.withHistory (st.transformSteps ++ [step])).stages lw := H
  have hhist : step.Filled → ∀ s ∈ st'.transformSteps, s.Filled :=
    fun h => record_filled hfill h hrec
  have hsplit : p.FilledSplit →
      ∃ lw', stepApplyToSchedule (st.transformSteps ++ step :: tail) lw step = some lw' ∧
        Simulates True dag st'.stages lw' ∧ ∀ s ∈ st'.transformSteps, s.Filled := by
    intro hp
    obtain ⟨hfilled, i, iterId, ls, io, happly, hlower⟩ := record_filledSplit hp hfill hs hrec
    obtain ⟨lw', hlw', hsim, -⟩ := H'.split happly
    exact ⟨lw', (hlower tail lw).trans hlw', hsim, hhist hfilled⟩
  cases p
  case fuse stageId iters =>
    obtain ⟨i, rfl, rfl, happly⟩ := record_fuse hs hrec
    obtain ⟨a, rest, rfl⟩ := exists_cons_of_ne_nil hp
    obtain ⟨lw', hlw', hsim, -⟩ := H'.fuse happly
    exact ⟨lw', hlw', hsim, hhist trivial⟩
  case reorder stageId order =>
    obtain ⟨i, stage, rfl, rfl, hstage, hlen, hlt, happly⟩ := record_reorder hs hrec
    obtain ⟨op, hop⟩ := exists_of_length_eq H.length hstage
    have hloops : ∀ stage' ∈ st.stages[i]?, order.length = stage'.iters.length ∧
        ∀ j ∈ order, j < stage'.iters.length := by
      intro stage' hstage'
      cases hstage.symm.trans hstage'
      exact ⟨hlen, hlt⟩
    obtain ⟨lw', hlw', hsim⟩ := H'.reorder hp.1 hloops hop (hp.2 op hop) happly
    exact ⟨lw', hlw', hsim, hhist trivial⟩
  all_goals exact hsplit hp

/-- **Lock-step.**  After any loop transformations that a schedule can follow, the replay
on the schedule succeeds, `stage_to_axes` holds the leaves of each stage, and each
position stands for the same part of the same axes on both sides: the same piece, with
the same length, of the same split, or the same fused group. -/
theorem lockStep_of_run (dag : InputDAG) {ps : List Primitive}
    (hps : ∀ p ∈ ps, LoopCall dag.toComputeDAG p) {st : State} (hrun : dag.run ps = some st) :
    ∃ lw, dag.applySteps st.transformSteps = some lw ∧ lw.sch.stages.length = st.stages.length ∧
      ∀ i stage, st.stages[i]? = some stage → ∃ te, lw.stage i = some te ∧
        (IsComputed dag.toComputeDAG i → lw.axes i = some te.leafIterVars) ∧
        te.leafIterVars.length = stage.iters.length ∧
        ∃ nest, Forall₂ (Realises te.relations) nest te.leafIterVars ∧
          Forall₂ (Denotes True) nest stage.iters := by
  obtain ⟨lw, hlw, hsim, -⟩ := applySteps_simulation
    (C := fun _ p => LoopCall dag.toComputeDAG p)
    (R := fun st lw => Simulates True dag.toComputeDAG st.stages lw ∧
      ∀ s ∈ st.transformSteps, s.Filled)
    ⟨dag.simulates_init True, fun s hs => absurd hs not_mem_nil⟩
    (fun p st lw st' step tail hp H hs hrec => simulates_loopCall hp H hs hrec tail)
    (along_of_forall (fun p hp _ => hps p hp) _) hrun
  refine ⟨lw, hlw, hsim.length_sch.trans hsim.length.symm, fun i stage hstage => ?_⟩
  obtain ⟨te, axes, hte, haxes, hsim'⟩ := hsim.get hstage
  obtain ⟨dead, hleaf, hdead⟩ := hsim'.leaf
  obtain ⟨nest, hrealises, hdenotes⟩ := hsim'.nest
  rw [hdead trivial, append_nil] at hleaf
  rw [← hleaf] at hrealises
  refine ⟨te, hte, fun hcomp => ?_, hrealises.length_eq.symm.trans hdenotes.length_eq, nest,
    hrealises, hdenotes⟩
  obtain ⟨op, hop⟩ := exists_of_length_eq hsim.length hstage
  obtain ⟨as, rfl⟩ := hsim.axes_isSome hop (hcomp op hop) haxes
  simp [Lowering.axes, haxes, hleaf]

theorem lockStep_rowSumInput : ∃ st lw,
    rowSumInput.run [.split 2 1 [some 4] true, .fuse 2 [0, 1], .followSplit 1 1 0 2,
      .followFusedSplit 1 0 [0] 0 false, .reorder 1 [4, 1, 2, 0, 3]] = some st ∧
      rowSumInput.applySteps st.transformSteps = some lw ∧
      lw.sch.stages.length = st.stages.length := by
  have hsome : (rowSumInput.run [.split 2 1 [some 4] true, .fuse 2 [0, 1], .followSplit 1 1 0 2,
      .followFusedSplit 1 0 [0] 0 false, .reorder 1 [4, 1, 2, 0, 3]]).isSome := by decide
  obtain ⟨st, hst⟩ := isSome_iff_exists.mp hsome
  obtain ⟨lw, hlw, hlen, -⟩ := lockStep_of_run rowSumInput (by
    have hcomp : IsComputed rowSumInput.toComputeDAG 1 := by
      intro op hop
      cases hop
      rfl
    simp [LoopCall, Primitive.FilledSplit, hcomp]) hst
  exact ⟨st, lw, hst, hlw, hlen⟩

/-- Calls that the state accepts and the schedule does not: an unknown split length, a
loop that takes two places, and a reorder of a placeholder. -/
theorem applySteps_rejects_accepted_calls : ((rowSumDAG.run [.split 1 0 [none] true]).map fun st =>
      (rowSumDAG.applySteps st.transformSteps).isSome) = some false ∧
    ((rowSumDAG.run [.reorder 1 [0, 0]]).map fun st =>
      (rowSumDAG.applySteps st.transformSteps).isSome) = some false ∧
    ((rowSumDAG.run [.reorder 0 []]).map fun st =>
      (rowSumDAG.applySteps st.transformSteps).isSome) = some false := by
  decide

end Pruner.AutoScheduler
