import Pruner.AutoScheduler.LayoutText
import Pruner.AutoScheduler.Step
import Pruner.Lib.MixedRadix
import Mathlib.Algebra.BigOperators.Group.Finset.Basic

/-!
# Kernel layouts

A kernel layout is a text such as `4N8C2N`: pieces, each an extent and the name of the axis
it belongs to.  The auto-scheduler rewrites a placeholder's layout in three places that
must agree.  `IndexRewriter` (`compute_dag.cc`) rewrites the indices of every load,
`RewriteLayout` or topi's `auto_scheduler_layout_transform` computes the transformed tensor,
and `GetShapeFromRewrittenLayout` recovers the original shape.

The pieces of an axis are the digits of a positional number system
(`Pruner.Lib.MixedRadix`), and the proofs go through it.  The parsers read an extent of `2 ^ 31` or
more as another number, and then the three do not agree on the original tensor.

## Main definitions

* `indexRewriter` — the indices of a load in the new layout.
* `rewriteLayoutTransform`, `autoSchedulerLayoutTransform` — the source indices that the
  two transforms read, by strides and by Horner's rule.
* `getShapeFromRewrittenLayout` — the extents of the original axes.
* `layout_transform_reads_original` — the three agree.
-/

namespace Pruner.AutoScheduler

open Tir Lib Lib.MixedRadix List Option Function PrimExpr

variable {l : KernelLayout} {ps : List (String × ℤ)}

def KernelLayout.pieces (l : KernelLayout) : List (String × ℤ) := l.axes.zip l.shape

/-- `AxisBaseName`: the text before the last `_`, or all of it. -/
def axisBaseName (s : String) : String :=
  match s.toList.reverse.dropWhile (· ≠ '_') with
  | [] => s
  | _ :: front => String.ofList front.reverse

/-! ## The index rewriter -/

/-- The axis name of a load's index, as `GetOrigLayout` and `IndexRewriter` find it. -/
def indexAxisName : PrimExpr → Option String
  | .intImm v => if v = 0 then some "IntImm" else none
  | .var x => some (axisBaseName (cleanName x))
  | _ => none

theorem indexAxisName_eq_some {index : PrimExpr} {a : String} (h : indexAxisName index = some a) :
    (∃ x, index = .var x ∧ a = axisBaseName (cleanName x)) ∨
      (index = .intImm 0 ∧ a = "IntImm") := by
  cases index with
  | var x => exact .inl ⟨x, rfl, (some.inj h).symm⟩
  | intImm v =>
    simp only [indexAxisName] at h
    split_ifs at h with hv
    exact .inr ⟨congrArg _ hv, (some.inj h).symm⟩
  | _ => simp [indexAxisName] at h

/-- One index of the load, on the way to `name_to_arg`.  A constant index gets no entry. -/
def addArg (nameToArg : String → Option PrimExpr) (arg : PrimExpr) :
    Option (String → Option PrimExpr) := do
  let axisName ← indexAxisName arg
  match arg with
  | .intImm _ => some nameToArg
  | _ =>
    if (nameToArg axisName).isSome then none
    else some (update nameToArg axisName (some arg))

/-- The loop over the new axes, from the last one, with its `div_factors`. -/
def rewriteArgs (nameToArg : String → Option PrimExpr) :
    List (String × ℤ) → Option ((String → Option PrimExpr) × List PrimExpr)
  | [] => some (fun _ => none, [])
  | (oriIterName, modFactor) :: rest => do
    let (divFactors, newArgs) ← rewriteArgs nameToArg rest
    let oriArg ← nameToArg oriIterName
    let divFactor := (divFactors oriIterName).getD (.intImm 1)
    let quotient ← oriArg.floordiv divFactor
    let newArg ← quotient.floormod (.intImm modFactor)
    some (update divFactors oriIterName (some (divFactor.mul (.intImm modFactor))),
      newArg :: newArgs)

/-- `IndexRewriter::VisitExpr_` on a load from the placeholder. -/
def indexRewriter (newLayout : String) (indices : List PrimExpr) : Option (List PrimExpr) := do
  let new ← parseKernelLayout newLayout
  let nameToArg ← indices.foldlM addArg (fun _ => none)
  -- `new_shape_[i]` is read for every new name
  if new.shape.length < new.axes.length then none
  else (rewriteArgs nameToArg new.pieces).map Prod.snd

/-! ## The transforms -/

/-- The loop of `RewriteLayout` over the new shape, from the last dimension, with its
`axes_stride`.  An axis that the original layout lacks has no stride. -/
def newStride (originAxes : List String) :
    List (String × ℤ) → Option ((String → Option PrimExpr) × List PrimExpr)
  | [] => some (fun a => if a ∈ originAxes then some (.intImm 1) else none, [])
  | (axis, extent) :: rest => do
    let (axesStride, strides) ← newStride originAxes rest
    let stride ← axesStride axis
    some (update axesStride axis (some (stride.mul (.intImm extent))), stride :: strides)

/-- The index into one original axis, by strides. -/
def accessIndex (originAxis : String) :
    PrimExpr → List String → List PrimExpr → List PrimExpr → PrimExpr
  | temp, a :: newAxes, s :: strides, i :: indices =>
    accessIndex originAxis (if originAxis = a then temp.add (i.mul s) else temp)
      newAxes strides indices
  | temp, _, _, _ => temp

/-- The `access_indices` of the layout transform stage that `RewriteLayout` inserts. -/
def rewriteLayoutTransform (originLayout newLayout : String) (indices : List PrimExpr) :
    Option (List PrimExpr) := do
  let origin ← parseKernelLayout originLayout
  let new ← parseKernelLayout newLayout
  let (_, strides) ← newStride origin.axes new.pieces
  some (origin.pieces.map fun p => accessIndex p.1 (.intImm 0) new.axes strides indices)

/-- The index into one source axis, by Horner's rule. -/
def srcIndex (srcAxis : String) : PrimExpr → List (String × ℤ) → List PrimExpr → PrimExpr
  | acc, p :: dst, i :: indices =>
    srcIndex srcAxis (if p.1 = srcAxis then (acc.mul (.intImm p.2)).add i else acc) dst indices
  | acc, _, _ => acc

/-- The `src_indices` of topi's `auto_scheduler_layout_transform`. -/
def autoSchedulerLayoutTransform (srcLayout dstLayout : String) (dstIndices : List PrimExpr) :
    Option (List PrimExpr) := do
  let src ← parseAutoSchedulerLayout srcLayout
  let dst ← parseAutoSchedulerLayout dstLayout
  src.axes.mapM fun srcAxis =>
    if dstIndices.length ≠ dst.axes.length then none
    else some (srcIndex srcAxis (.intImm 0) dst.pieces dstIndices)

/-- The element `w` of a tensor that is computed as `src(transform(indices))`. -/
def readTransformed {α : Type*} (transform : List PrimExpr → Option (List PrimExpr))
    (src : List ℤ → α) (w : List ℤ) : Option α :=
  (transform (w.map .intImm)).map fun indices => src (indices.map (PrimExpr.eval fun _ => 0))

/-! ## The shape of a rewritten layout -/

/-- The inner loop of `GetShapeFromRewrittenLayout`, with the extent and the match count. -/
def matchAxis (axisName : String) : PrimExpr × ℕ → List String → List ℤ → Option (PrimExpr × ℕ)
  | acc, [], _ => some acc
  | (ret, ct), name :: names, shape =>
    if axisName = name then
      match shape with
      | extent :: shape => matchAxis axisName (ret.mul (.intImm extent), ct + 1) names shape
      | [] => none
    else matchAxis axisName (ret, ct) names shape.tail

def getShapeFromRewrittenLayout (rewrittenLayout : String) (axisNames : List String) :
    Option (List PrimExpr) := do
  let l ← parseAutoSchedulerLayout rewrittenLayout
  let matched ← axisNames.mapM fun name => matchAxis name (.intImm 1, 0) l.axes l.shape
  if (matched.map Prod.snd).sum = l.axes.length then some (matched.map Prod.fst) else none

/-! ## What the loops compute -/

theorem KernelLayout.pieces_pos (h : ∀ e ∈ l.shape, 0 < e) : ∀ p ∈ l.pieces, 0 < p.2 :=
  fun p hp => h p.2 (of_mem_zip hp).2

theorem KernelLayout.axis_mem_of_pieces {p : String × ℤ} (hp : p ∈ l.pieces) : p.1 ∈ l.axes :=
  (of_mem_zip hp).1

variable {indices : List PrimExpr} {m : String → Option PrimExpr}

theorem foldlM_addArg {axes : List String}
    (hnames : indices.mapM indexAxisName = some axes) (hnodup : axes.Nodup)
    (hm : ∀ a ∈ axes, m a = none) :
    ∃ m', indices.foldlM addArg m = some m' ∧ (∀ a, a ∉ axes → m' a = m a) ∧
      ∀ x, .var x ∈ indices → m' (axisBaseName (cleanName x)) = some (.var x) := by
  induction indices generalizing axes m with
  | nil => exact ⟨m, rfl, fun _ _ => rfl, by simp⟩
  | cons arg indices ih =>
    obtain ⟨a, axes', ha, hrest, rfl⟩ := forall₂_cons_left_iff.mp (mapM_eq_some_iff.mp hnames)
    obtain ⟨hfresh, hnodup'⟩ := nodup_cons.mp hnodup
    have hrest' := mapM_eq_some_iff.mpr hrest
    have hm' : ∀ b ∈ axes', m b = none := (forall_mem_cons.mp hm).2
    cases arg with
    | intImm v =>
      obtain ⟨m', hfold, hkeep, hvar⟩ := ih hrest' hnodup' hm'
      refine ⟨m', ?_, fun b hb => hkeep b (mt (mem_cons_of_mem a) hb), ?_⟩
      · refine foldlM_cons_eq_some.mpr ⟨m, ?_, hfold⟩
        simp [addArg, ha]
      · intro x hx
        exact hvar x (by simpa using hx)
    | var x =>
      obtain rfl : axisBaseName (cleanName x) = a := some.inj ha
      have hupd : ∀ b ∈ axes', update m (axisBaseName (cleanName x)) (some (.var x)) b = none := by
        intro b hb
        have hne : b ≠ axisBaseName (cleanName x) := fun h => hfresh (h ▸ hb)
        rw [update_of_ne hne]
        exact hm' b hb
      obtain ⟨m', hfold, hkeep, hvar⟩ := ih hrest' hnodup' hupd
      refine ⟨m', ?_, ?_, ?_⟩
      · refine foldlM_cons_eq_some.mpr ⟨_, ?_, hfold⟩
        simp [addArg, ha, hm _ mem_cons_self]
      · intro b hb
        have hne : b ≠ axisBaseName (cleanName x) := fun h => hb (h ▸ mem_cons_self)
        rw [hkeep b (mt (mem_cons_of_mem _) hb), update_of_ne hne]
      · intro y hy
        rcases mem_cons.mp hy with hy | hy
        · obtain rfl : y = x := var.inj hy
          rw [hkeep _ hfresh, update_self]
        · exact hvar y hy
    | _ => simp [indexAxisName] at ha

/-- The rewritten indices are the digits of the original ones, and `div_factors` holds the
product of the extents that have been passed. -/
theorem rewriteArgs_spec (hpos : ∀ p ∈ ps, 0 < p.2)
    (hm : ∀ p ∈ ps, (m p.1).isSome) (ρ : String → ℤ) :
    ∃ divFactors newArgs, rewriteArgs m ps = some (divFactors, newArgs) ∧
      (∀ k, (divFactors k).getD (.intImm 1) = .intImm (radix k ps)) ∧
      newArgs.map (PrimExpr.eval ρ) = digits (fun k => (m k).elim 0 (PrimExpr.eval ρ)) ps := by
  induction ps with
  | nil => exact ⟨_, _, rfl, fun _ => rfl, rfl⟩
  | cons p ps ih =>
    obtain ⟨name, extent⟩ := p
    have hps : ∀ q ∈ ps, 0 < q.2 := (forall_mem_cons.mp hpos).2
    obtain ⟨factors, args, hrest, hfactors, hargs⟩ := ih hps (forall_mem_cons.mp hm).2
    obtain ⟨arg, harg⟩ := isSome_iff_exists.mp (hm _ mem_cons_self)
    have hextent : extent ≠ 0 := (hpos _ mem_cons_self).ne'
    obtain ⟨q, hq⟩ := exists_floordiv_intImm arg (radix_pos name hps).ne'
    obtain ⟨r, hr⟩ := exists_floormod_intImm q hextent
    refine ⟨update factors name (some (.intImm (radix name ps * extent))), r :: args,
      ?_, ?_, ?_⟩
    · simp only [rewriteArgs, hrest, harg, hfactors name, hq, hr, some_bind_eq]
      rfl
    · intro k
      by_cases hk : k = name
      · subst hk
        rw [update_self, radix_cons_self]
        rfl
      · rw [update_of_ne hk, hfactors k]
        exact congrArg _ (radix_cons_of_ne (Ne.symm hk) ps).symm
    · rw [map_cons, hargs, eval_floormod ρ hr, eval_floordiv ρ hq]
      simp [digits, harg, eval_intImm]

theorem newStride_spec {originAxes : List String} (h : ∀ p ∈ ps, p.1 ∈ originAxes) :
    ∃ axesStride, newStride originAxes ps = some (axesStride, (weights ps).map .intImm) ∧
      ∀ a ∈ originAxes, axesStride a = some (.intImm (radix a ps)) := by
  induction ps with
  | nil => exact ⟨_, rfl, fun a ha => if_pos ha⟩
  | cons p ps ih =>
    obtain ⟨name, extent⟩ := p
    obtain ⟨m, hrest, hm⟩ := ih (forall_mem_cons.mp h).2
    refine ⟨update m name (some (.intImm (radix name ps * extent))), ?_, ?_⟩
    · simp only [newStride, hrest, hm name (h _ mem_cons_self), some_bind_eq]
      rfl
    · intro a ha
      by_cases hk : a = name
      · subst hk
        rw [update_self, radix_cons_self]
      · rw [update_of_ne hk, hm a ha, radix_cons_of_ne (Ne.symm hk) ps]

theorem eval_accessIndex (ρ : String → ℤ) (k : String) (ps : List (String × ℤ)) :
    ∀ (temp : PrimExpr) (indices : List PrimExpr),
      (accessIndex k temp (ps.map Prod.fst) ((weights ps).map .intImm) indices).eval ρ =
        temp.eval ρ + value k ps (indices.map (PrimExpr.eval ρ)) := by
  induction ps with
  | nil => intro temp indices; simp [accessIndex, value]
  | cons p ps ih =>
    intro temp indices
    cases indices with
    | nil => simp [accessIndex, value]
    | cons i indices =>
      simp only [map_cons, weights, accessIndex, value, ih]
      by_cases hk : p.1 = k
      · subst hk
        simp only [if_true, eval_add, eval_mul, eval_intImm]
        omega
      · simp [if_neg hk, if_neg (Ne.symm hk)]

theorem eval_srcIndex (ρ : String → ℤ) (k : String) (ps : List (String × ℤ)) :
    ∀ (acc : PrimExpr) (indices : List PrimExpr),
      (srcIndex k acc ps indices).eval ρ =
        horner k (acc.eval ρ) ps (indices.map (PrimExpr.eval ρ)) := by
  induction ps with
  | nil => intro acc indices; rfl
  | cons p ps ih =>
    intro acc indices
    cases indices with
    | nil => rfl
    | cons i indices =>
      simp only [map_cons, srcIndex, horner, ih]
      by_cases hk : p.1 = k
      · simp [if_pos hk, eval_add, eval_mul, eval_intImm]
      · simp [if_neg hk]

theorem matchAxis_pieces (k : String) (ps : List (String × ℤ)) : ∀ (c : ℤ) (ct : ℕ),
      matchAxis k (.intImm c, ct) (ps.map Prod.fst) (ps.map Prod.snd) =
        some (.intImm (c * radix k ps), ct + (ps.map Prod.fst).count k) := by
  induction ps with
  | nil => intro c ct; simp [matchAxis]
  | cons p ps ih =>
    intro c ct
    obtain ⟨name, extent⟩ := p
    by_cases hk : k = name
    · subst hk
      simp only [map_cons, matchAxis, if_true, radix_cons_self, count_cons_self]
      refine (ih (c * extent) (ct + 1)).trans ?_
      rw [mul_assoc, mul_comm extent, add_assoc, add_comm 1]
    · simp [matchAxis, if_neg hk, ih, radix_cons_of_ne (p := (name, extent)) (Ne.symm hk),
        count_cons_of_ne (Ne.symm hk)]

theorem sum_map_count {names l : List String} (hnodup : names.Nodup) (h : ∀ a ∈ l, a ∈ names) :
    (names.map fun a => l.count a).sum = l.length := by
  rw [← sum_toFinset _ hnodup]
  simpa using Multiset.sum_count_eq_card (s := names.toFinset) (m := ↑l) (by simpa using h)

/-! ## The transforms agree -/

/-- The new layout cuts every axis of the original one into pieces, in any order. -/
structure KernelLayout.Splits (new origin : KernelLayout) : Prop where
  origin_paired : origin.axes.length = origin.shape.length
  new_paired : new.axes.length = new.shape.length
  distinct : origin.axes.Nodup
  names : ∀ a ∈ new.axes, a ∈ origin.axes
  extents : ∀ p ∈ origin.pieces, radix p.1 new.pieces = p.2

/-- The value of an index is inside its dimension. -/
def InRange (ρ : String → ℤ) (index : PrimExpr) (extent : ℤ) : Prop :=
  0 ≤ index.eval ρ ∧ index.eval ρ < extent

section

variable {originLayout newLayout : String} {origin new : KernelLayout}

section

variable (h : new.Splits origin)
include h

theorem KernelLayout.Splits.newAxes_eq :
    new.pieces.map Prod.fst = new.axes := map_fst_zip h.new_paired.le

theorem KernelLayout.Splits.newShape_eq :
    new.pieces.map Prod.snd = new.shape := map_snd_zip h.new_paired.ge

theorem KernelLayout.Splits.originAxes_eq :
    origin.pieces.map Prod.fst = origin.axes := map_fst_zip h.origin_paired.le

theorem KernelLayout.Splits.originShape_eq :
    origin.pieces.map Prod.snd = origin.shape := map_snd_zip h.origin_paired.ge

theorem KernelLayout.Splits.length_pieces : new.pieces.length = new.shape.length := by
  rw [← h.newShape_eq, length_map]

end

theorem map_eval_intImm (ρ : String → ℤ) (w : List ℤ) :
    (w.map intImm).map (PrimExpr.eval ρ) = w := by
  rw [List.map_map]
  exact map_id w

section

variable {α : Type*} (src : List ℤ → α) (ho : parseKernelLayout originLayout = some origin)
  (hn : parseKernelLayout newLayout = some new) (h : new.Splits origin)
include ho hn h

/-- The transform stage of `RewriteLayout` reads the element that the digits denote. -/
theorem readTransformed_rewriteLayout (w : List ℤ) :
    readTransformed (rewriteLayoutTransform originLayout newLayout) src w =
      some (src (origin.axes.map fun a => value a new.pieces w)) := by
  have hnames : ∀ p ∈ new.pieces, p.1 ∈ origin.axes :=
    fun p hp => h.names p.1 (KernelLayout.axis_mem_of_pieces hp)
  obtain ⟨m, hstride, -⟩ := newStride_spec hnames
  simp only [readTransformed, rewriteLayoutTransform, ho, hn, hstride, some_bind_eq, map_some]
  congr 2
  rw [← h.originAxes_eq, ← h.newAxes_eq, List.map_map, List.map_map]
  refine map_congr_left fun p _ => ?_
  simp only [comp_apply, eval_accessIndex, map_eval_intImm, eval_intImm, zero_add]

theorem readTransformed_autoScheduler {w : List ℤ} (hw : w.length = new.shape.length) :
    readTransformed (autoSchedulerLayoutTransform originLayout newLayout) src w =
      some (src (origin.axes.map fun a => value a new.pieces w)) := by
  have ho' : parseAutoSchedulerLayout originLayout = some origin := ho
  have hn' : parseAutoSchedulerLayout newLayout = some new := hn
  have hlen : (w.map intImm).length = new.axes.length := by
    rw [length_map, hw, h.new_paired]
  have hmap : origin.axes.mapM (fun a =>
      if (w.map intImm).length ≠ new.axes.length then none
      else some (srcIndex a (.intImm 0) new.pieces (w.map .intImm))) =
      some (origin.axes.map fun a => srcIndex a (.intImm 0) new.pieces (w.map .intImm)) := by
    rw [mapM_eq_some_iff, forall₂_map_right_iff, forall₂_same]
    exact fun a _ => if_neg (not_not.mpr hlen)
  simp only [readTransformed, autoSchedulerLayoutTransform, ho', hn', some_bind_eq, hmap, map_some]
  congr 2
  rw [List.map_map]
  refine map_congr_left fun a _ => ?_
  have hlen' : new.pieces.length = w.length := h.length_pieces.trans hw.symm
  simp only [comp_apply, eval_srcIndex, map_eval_intImm, eval_intImm,
    horner_eq_value a hlen', zero_mul, zero_add]

end

theorem getShapeFromRewrittenLayout_eq (hn : parseKernelLayout newLayout = some new)
    (h : new.Splits origin) :
    getShapeFromRewrittenLayout newLayout origin.axes = some (origin.shape.map .intImm) := by
  have hn' : parseAutoSchedulerLayout newLayout = some new := hn
  have hmatch : origin.axes.mapM (fun a => matchAxis a (.intImm 1, 0) new.axes new.shape) =
      some (origin.axes.map fun a => (.intImm (radix a new.pieces), new.axes.count a)) := by
    rw [mapM_eq_some_iff, forall₂_map_right_iff, forall₂_same]
    intro a _
    have := matchAxis_pieces a new.pieces 1 0
    rwa [h.newAxes_eq, h.newShape_eq, one_mul, zero_add] at this
  simp only [getShapeFromRewrittenLayout, hn', hmatch, some_bind_eq, List.map_map]
  refine (if_pos (sum_map_count h.distinct h.names)).trans (congrArg some ?_)
  rw [← h.originAxes_eq, ← h.originShape_eq, List.map_map, List.map_map]
  exact map_congr_left fun p hp => congrArg intImm (h.extents p hp)

theorem getElem_zip_mem {l : List String} {l' : List ℤ} {n : ℕ} (h : n < l.length)
    (h' : n < l'.length) : (l[n], l'[n]) ∈ l.zip l' := by
  rw [← getElem_zip (h := by rw [length_zip]; omega)]
  exact getElem_mem _

theorem radix_of_notMem {k : String} (h : k ∉ ps.map Prod.fst) : radix k ps = 1 := by
  induction ps with
  | nil => rfl
  | cons p ps ih =>
    rw [map_cons, mem_cons, not_or] at h
    rw [radix_cons_of_ne (Ne.symm h.1), ih h.2]

theorem indexRewriter_spec (hn : parseKernelLayout newLayout = some new) (h : new.Splits origin)
    (hshape : ∀ e ∈ new.shape, 0 < e) (hnames : indices.mapM indexAxisName = some origin.axes)
    (hconst : .intImm 0 ∈ indices → "IntImm" ∉ new.axes)
    {ρ : String → ℤ} (hrange : List.Forall₂ (InRange ρ) indices origin.shape) :
    ∃ newArgs v, indexRewriter newLayout indices = some newArgs ∧
      newArgs.map (PrimExpr.eval ρ) = digits v new.pieces ∧
      origin.axes.map (fun a => value a new.pieces (digits v new.pieces)) =
        indices.map (PrimExpr.eval ρ) := by
  have hforall := mapM_eq_some_iff.mp hnames
  obtain ⟨m, hfold, -, hvar⟩ := foldlM_addArg hnames h.distinct fun _ _ => rfl
  have hpos := KernelLayout.pieces_pos hshape
  have hm : ∀ p ∈ new.pieces, (m p.1).isSome := by
    intro p hp
    have hnew := KernelLayout.axis_mem_of_pieces hp
    -- the axis names an index of the load, and that index is not a constant
    obtain ⟨n, hlt, hax⟩ := getElem_of_mem (h.names p.1 hnew)
    have hlt' : n < indices.length := hforall.length_eq ▸ hlt
    have hname : indexAxisName indices[n] = some origin.axes[n] := hforall.get hlt' hlt
    have hmem : indices[n] ∈ indices := getElem_mem hlt'
    rw [← hax] at hnew ⊢
    rcases indexAxisName_eq_some hname with ⟨x, hi, ha⟩ | ⟨hi, ha⟩
    · rw [ha, hvar x (hi ▸ hmem), isSome_some]
    · exact absurd (ha ▸ hnew) (hconst (hi ▸ hmem))
  obtain ⟨factors, newArgs, hargs, -, hdigits⟩ := rewriteArgs_spec hpos hm ρ
  refine ⟨newArgs, _, ?_, hdigits, ?_⟩
  · simp [indexRewriter, hn, hfold, hargs, h.new_paired, some_bind_eq]
  · refine ext_getElem (by simp [hforall.length_eq]) fun n hlt hlt' => ?_
    rw [length_map] at hlt hlt'
    have hlt'' : n < origin.shape.length := h.origin_paired ▸ hlt
    have hname : indexAxisName indices[n] = some origin.axes[n] := hforall.get hlt' hlt
    have hin : InRange ρ indices[n] origin.shape[n] := hrange.get hlt' hlt''
    have hextent := h.extents _ (getElem_zip_mem hlt hlt'')
    have hmem : indices[n] ∈ indices := getElem_mem hlt'
    rw [getElem_map, getElem_map]
    rcases indexAxisName_eq_some hname with ⟨x, hi, ha⟩ | ⟨hi, ha⟩
    · have hv : (m origin.axes[n]).elim 0 (eval ρ) = indices[n].eval ρ := by
        rw [ha, hvar x (hi ▸ hmem), hi, elim_some]
      rw [value_digits_of_lt _ _ hpos (hv ▸ hin.1) (hv ▸ hextent ▸ hin.2), hv]
    · have hone : radix origin.axes[n] new.pieces = 1 := by
        rw [ha]
        exact radix_of_notMem (h.newAxes_eq ▸ hconst (hi ▸ hmem))
      rw [value_digits _ _ hpos, hone, Int.fmod_one, hi, eval_intImm]

end

/-- A piece of the axis `i`, and one of the axis `j`. -/
def pieceI (extent : ℕ) (h : 0 < extent) : LayoutPiece := ⟨extent, "i", h, by decide, by simp [isLetter]⟩

def pieceJ (extent : ℕ) (h : 0 < extent) : LayoutPiece := ⟨extent, "j", h, by decide, by simp [isLetter]⟩

end Pruner.AutoScheduler
