import Pruner.Te.LoopIndex

/-!
# The points that a loop nest visits

Every point of the ranges of the axes is visited exactly once, and no other point is: the
domains that are passed down cover the ranges, and the bound checks keep the points whose
indices are all in their domains.  The analyzer may fail to prove a fact, which leaves a
domain wider or a check in place; it may not prove anything false.

## Main definitions

* `LoopStage.Built.exists_domains` — the domains are computed, and they cover.
* `LoopStage.visits_once` — every point of the ranges is visited exactly once.
-/

namespace Pruner.Te

open Tir List Option Function IterVarRelation

open Lib

namespace LoopStage

/-! ## The domains that are passed down -/

variable {ν : Type} [DecidableEq ν] {canProve : CanProve ν} {s : LoopStage ν}

theorem ceilDiv_spec (hc : canProve.Sound) {a b : ℤ} (ha : 0 < a) (hb : 0 < b) :
    0 < ceilDiv canProve a b ∧ a ≤ b * ceilDiv canProve a b := by
  unfold ceilDiv
  split
  · next hprove =>
      have hmod : a.fmod b = 0 := hc _ hprove
      have heq := Int.mul_fdiv_add_fmod a b
      rw [hmod, add_zero] at heq
      exact ⟨pos_of_mul_pos_right (ha.trans_eq heq.symm) hb.le, heq.ge⟩
  · rw [Int.fdiv_eq_ediv_of_nonneg _ hb.le]
    have hdiv := Int.emod_add_mul_ediv (a + (b - 1)) b
    have hlt := Int.emod_lt_of_pos (a + (b - 1)) hb
    have hle : a ≤ b * ((a + (b - 1)) / b) := by linarith
    exact ⟨pos_of_mul_pos_right (ha.trans_le hle) hb.le, hle⟩

omit [DecidableEq ν] in
/-- Tightening never goes below the extent of the parent. -/
theorem resolveMinExtent_spec (canProve : CanProve ν) {e n : ℤ} (he : 0 < e) (hn : 0 < n) :
    0 < resolveMinExtent canProve e n ∧
      ∀ c, 0 < c → e ≤ n * c → e ≤ resolveMinExtent canProve e n * c := by
  rw [resolveMinExtent, if_neg he.ne', minimumOrLater]
  split
  · exact ⟨he, fun c hpos _ => le_mul_of_one_le_right he.le hpos⟩
  · exact ⟨hn, fun c _ h => h⟩

variable {dom : ConstDomMap ν} {D : ν → ConstRange} {r : IterVarRelation ν}

theorem update_of_none {iv : ν} (h : dom iv = none) (r : ConstRange) :
    update canProve dom iv r = some (Function.update dom iv (some r)) := by
  rw [update, h]

theorem exists_passDownDomainRel (hc : canProve.Sound)
        (huses : ∀ v ∈ r.uses, dom v = some (D v) ∧ 0 < (D v).extent)
    (hnew : ∀ v ∈ r.makes, dom v = none) (hnodup : r.makes.Nodup) (hpos : r.Positive) :
    ∃ dom' D', passDownDomainRel canProve dom r = some dom' ∧
      (∀ v ∉ r.makes, dom' v = dom v ∧ D' v = D v) ∧
      (∀ v ∈ r.makes, dom' v = some (D' v) ∧ 0 < (D' v).extent) ∧ Covers D' r := by
  cases r with
  | split parent outer inner size =>
    obtain ⟨hdom, hext⟩ := huses parent (by simp [uses])
    have ho : dom outer = none := hnew outer (by simp [makes])
    have hi : dom inner = none := hnew inner (by simp [makes])
    have hne : outer ≠ inner := by simpa [makes] using hnodup
    have hpo : parent ≠ outer := fun h => by simp [← h, hdom] at ho
    have hpi : parent ≠ inner := fun h => by simp [← h, hdom] at hi
    obtain ⟨c, t, hrun, hct, hc₀, ht₀⟩ : ∃ c t : ℤ,
        passDownDomainRel canProve dom (.split parent outer inner size) =
          some (Function.update (Function.update dom inner (some ⟨0, c⟩)) outer
            (some ⟨0, t⟩)) ∧ (D parent).extent ≤ c * t ∧ 0 < c ∧ 0 < t := by
      cases size with
      | factor n =>
        obtain ⟨hc₀, hle⟩ := ceilDiv_spec hc hext hpos
        obtain ⟨ht₀, htight⟩ := resolveMinExtent_spec canProve hext hpos
        refine ⟨_, _, ?_, htight _ hc₀ hle, ht₀, hc₀⟩
        simp only [passDownDomainRel, hdom, hi, some_bind_eq,
          isSome_none, Bool.false_eq_true, if_false, update_of_none hi]
        exact update_of_none ((update_of_ne hne _ _).trans ho) _
      | nparts n =>
        obtain ⟨hc₀, hle⟩ := ceilDiv_spec hc hext hpos
        obtain ⟨ht₀, htight⟩ := resolveMinExtent_spec canProve hext hpos
        refine ⟨_, _, ?_, (htight _ hc₀ hle).trans_eq (mul_comm _ _), hc₀, ht₀⟩
        simp only [passDownDomainRel, hdom, hi, some_bind_eq,
          isSome_none, Bool.false_eq_true, if_false, update_of_none ho]
        rw [update_of_none ((update_of_ne hne.symm _ _).trans hi), update_comm hne]
        rfl
    refine ⟨_, Function.update (Function.update D inner ⟨0, c⟩) outer ⟨0, t⟩, hrun, ?_, ?_, ?_⟩
    · intro v hv
      simp only [makes, mem_cons, not_mem_nil, or_false, not_or] at hv
      simp [update_of_ne hv.1, update_of_ne hv.2]
    · simp only [makes, mem_cons, not_mem_nil, or_false]
      rintro v (rfl | rfl)
      · simp [ht₀]
      · simp [update_of_ne hne.symm, hc₀]
    · simp [Covers, update_of_ne hne.symm, update_of_ne hpo, update_of_ne hpi, hc₀, hct]
  | fuse outer inner fused =>
    obtain ⟨hdo, heo⟩ := huses outer (by simp [uses])
    obtain ⟨hdi, hei⟩ := huses inner (by simp [uses])
    have hf : dom fused = none := hnew fused (by simp [makes])
    have hof : outer ≠ fused := fun h => by simp [← h, hdo] at hf
    have hif : inner ≠ fused := fun h => by simp [← h, hdi] at hf
    refine ⟨Function.update dom fused (some ⟨0, (D outer).extent * (D inner).extent⟩),
      Function.update D fused ⟨0, (D outer).extent * (D inner).extent⟩, ?_, ?_, ?_, ?_⟩
    · simp [passDownDomainRel, hdo, hdi, some_bind_eq]
    · intro v hv
      have hv' : v ≠ fused := by simpa [makes] using hv
      simp [update_of_ne hv']
    · simp [makes, mul_pos heo hei]
    · simp [Covers, update_of_ne hof, update_of_ne hif, hei]
  | rebase parent rebased =>
    obtain ⟨hdom, hext⟩ := huses parent (by simp [uses])
    have hr : dom rebased = none := hnew rebased (by simp [makes])
    have hpr : parent ≠ rebased := fun h => by simp [← h, hdom] at hr
    refine ⟨Function.update dom rebased (some ⟨0, (D parent).extent⟩),
      Function.update D rebased ⟨0, (D parent).extent⟩, ?_, ?_, ?_, ?_⟩
    · simp only [passDownDomainRel, hdom, some_bind_eq]
      exact update_of_none hr _
    · intro v hv
      have hv' : v ≠ rebased := by simpa [makes] using hv
      simp [update_of_ne hv']
    · simp [makes, hext]
    · simp [Covers, update_of_ne hpr]

omit [DecidableEq ν] in
theorem Covers.congr {D' : ν → ConstRange} (h : Covers D r)
    (huses : ∀ v ∈ r.uses, D' v = D v) (hmakes : ∀ v ∈ r.makes, D' v = D v) : Covers D' r := by
  cases r <;> simp_all [Covers, uses, makes]

/-- **`PassDownDomain` succeeds**, and the domains cover. -/
theorem Built.exists_domains (h : s.Built) (hc : canProve.Sound) {range : ν → ConstRange}
    (hext : ∀ v ∈ s.rootIterVars, 0 < (range v).extent) :
    ∃ dom D, s.passDownDomain canProve range = some dom ∧
      (∀ v ∈ s.vars, dom v = some (D v) ∧ 0 < (D v).extent) ∧ (∀ v ∉ s.vars, dom v = none) ∧
      (∀ v ∈ s.rootIterVars, D v = range v) ∧ ∀ r ∈ s.relations, Covers D r := by
  induction h with
  | @ofRoot vs h =>
    refine ⟨_, range, rfl, fun v hv => ?_, fun v hv => ?_, fun _ _ => rfl, by simp⟩
    · have hv' : v ∈ vs := by simpa [vars] using hv
      exact ⟨if_pos hv', hext v hv'⟩
    · exact if_neg (by simpa [vars] using hv)
  | @push s r l₁ l₂ hs hsl hnew hnodup hpos ih =>
    have ok := hs.varsOk
    obtain ⟨dom, D, hrun, hvars, hother, hroot, hD⟩ := ih hext
    have huses : ∀ v ∈ r.uses, v ∈ s.vars := fun v hv =>
      ok.leaf_vars v (by rw [hsl]; simp [hv])
    obtain ⟨dom', D', hstep, hkeep, hmade, hcov⟩ := exists_passDownDomainRel hc
      (fun v hv => hvars v (huses v hv)) (fun v hv => hother v (hnew v hv)) hnodup hpos
    have hD' : ∀ v ∈ s.vars, D' v = D v := fun v hv => (hkeep v fun hm => hnew v hm hv).2
    refine ⟨dom', D', ?_, ?_, ?_, ?_, ?_⟩
    · rw [passDownDomain, relations_push, foldlM_concat_eq_some]
      exact ⟨dom, hrun, hstep⟩
    · rw [vars_push]
      refine forall_mem_append.mpr ⟨fun v hv => ?_, hmade⟩
      rw [(hkeep v fun hm => hnew v hm hv).1, hD' v hv]
      exact hvars v hv
    · intro v hv
      rw [vars_push, mem_append, not_or] at hv
      rw [(hkeep v hv.2).1]
      exact hother v hv.1
    · intro v hv
      rw [hD' v (mem_append_left _ hv)]
      exact hroot v hv
    · refine forall_mem_append.mpr ⟨fun r' hr' => ?_, forall_mem_singleton.mpr hcov⟩
      exact (hD r' hr').congr (fun v hv => hD' v (ok.uses_vars r' hr' v hv))
        fun v hv => hD' v (ok.makes_vars r' hr' v hv)
  | @reorder s leaf hs hperm ih => exact ih hext

/-! ## The visited points -/

section

variable (huses : ∀ v ∈ r.uses, dom v = some (D v)) (hmakes : ∀ v ∈ r.makes, dom v = some (D v))
include huses hmakes

theorem computes_indexOf :
    Computes (passUpIndexRel dom) (indexOf D) r := by
  intro state val hval
  cases r with
  | split parent outer inner size =>
    simp only [uses, makes, mem_cons, not_mem_nil,
      or_false, forall_eq_or_imp, forall_eq] at huses hmakes hval
    simp only [passUpIndexRel, huses, hmakes, hval, some_bind_eq]
    congr 1
    funext v
    by_cases h : v = parent <;> simp [h, update_of_ne, uses, indexOf]
  | fuse outer inner fused =>
    simp only [uses, makes, mem_cons, not_mem_nil,
      or_false, forall_eq_or_imp, forall_eq] at huses hmakes hval
    simp only [passUpIndexRel, huses, hval, some_bind_eq]
    congr 1
    funext v
    by_cases hi : v = inner
    · simp [hi, uses, indexOf]
    · by_cases ho : v = outer
      · subst ho
        simp [hi, uses, indexOf]
      · simp [hi, ho, uses]
  | rebase parent rebased =>
    simp only [uses, makes, mem_cons, not_mem_nil, or_false, forall_eq] at huses hmakes hval
    simp only [passUpIndexRel, huses, hval, some_bind_eq]
    congr 1
    funext v
    by_cases h : v = parent <;> simp [h, update_of_ne, uses, indexOf]

theorem computes_flagOf :
    Computes (passUpBoundCheckRel canProve dom) (flagOf canProve D) r := by
  intro state val hval
  cases r with
  | split parent outer inner size =>
    simp only [uses, makes, mem_cons, not_mem_nil,
      or_false, forall_eq_or_imp, forall_eq] at huses hmakes hval
    simp only [passUpBoundCheckRel, huses, hmakes, hval, some_bind_eq]
    congr 1
    funext v
    by_cases h : v = parent <;> simp [h, update_of_ne, uses, flagOf]
  | fuse outer inner fused =>
    simp only [makes, mem_singleton, forall_eq] at hval
    simp only [passUpBoundCheckRel, hval, some_bind_eq]
    congr 1
    funext v
    by_cases hi : v = inner
    · simp [hi, uses, flagOf]
    · by_cases ho : v = outer
      · subst ho
        simp [hi, uses, flagOf]
      · simp [hi, ho, uses]
  | rebase parent rebased =>
    simp only [makes, mem_singleton, forall_eq] at hval
    simp only [passUpBoundCheckRel, hval, some_bind_eq]
    congr 1
    funext v
    by_cases h : v = parent <;> simp [h, update_of_ne, uses, flagOf]

end

/-- The values of the leaves at a point. -/
def extend (s : LoopStage ν) (p : s.LeafPoint) : ν → ℤ :=
  fun v => if h : v ∈ s.leafIterVars then p ⟨v, h⟩ else 0

theorem Built.exists_passUpIndex (h : s.Built) (hdom : ∀ v ∈ s.vars, dom v = some (D v))
    (p : s.LeafPoint) : ∃ value, s.passUpIndex dom p = some value ∧
      ∀ v ∈ s.vars, value v = some (s.index D (s.extend p) v) := by
  have ok := h.varsOk
  obtain ⟨value, hrun, hvars, -⟩ := h.foldlM_reverse
    (fun r hr => computes_indexOf (fun v hv => hdom v (ok.uses_vars r hr v hv))
      fun v hv => hdom v (ok.makes_vars r hr v hv))
    (fun v => if h : v ∈ s.leafIterVars then some (p ⟨v, h⟩) else none) (s.extend p)
    fun v hv => by simp [extend, hv]
  exact ⟨value, hrun, hvars⟩

/-- The marks that a stage computes. -/
def flags (s : LoopStage ν) (canProve : CanProve ν) (D : ν → ConstRange) : ν → Bool :=
  passUp (flagOf canProve D) s.relations fun _ => false

theorem Built.exists_boundState (h : s.Built) (canProve : CanProve ν)
    (hdom : ∀ v ∈ s.vars, dom v = some (D v)) :
    ∃ boundState, s.relations.reverse.foldlM (passUpBoundCheckRel canProve dom)
        (fun v => if v ∈ s.leafIterVars then some false else none) = some boundState ∧
      ∀ v ∈ s.vars, boundState v = some (s.flags canProve D v) := by
  have ok := h.varsOk
  obtain ⟨value, hrun, hvars, -⟩ := h.foldlM_reverse
    (fun r hr => computes_flagOf (fun v hv => hdom v (ok.uses_vars r hr v hv))
      fun v hv => hdom v (ok.makes_vars r hr v hv))
    (fun v => if v ∈ s.leafIterVars then some false else none) (fun _ => false)
    fun v hv => if_pos hv
  exact ⟨value, hrun, hvars⟩

/-- The check of one variable, once marks and domains are known. -/
def markedCheck (s : LoopStage ν) (canProve : CanProve ν) (dom : ConstDomMap ν)
    (D : ν → ConstRange) (iv : ν) : List (BoundPred ν) :=
  if s.flags canProve D iv then s.guard canProve dom (.lt iv (D iv)) else []

/-- The checks of one axis, once domains are known. -/
def declaredCheck (s : LoopStage ν) (canProve : CanProve ν) (dom : ConstDomMap ν)
    (D declared : ν → ConstRange) (skipIvarDomain : Bool) (iv : ν) : List (BoundPred ν) :=
  if skipIvarDomain || (canProve (.equal (declared iv).min (D iv).min) &&
      canProve (.equal (declared iv).extent (D iv).extent)) then []
  else s.guard canProve dom (.ge iv (declared iv)) ++ s.guard canProve dom (.lt iv (declared iv))

theorem Built.makeBoundCheck_eq (h : s.Built) (canProve : CanProve ν)
    (hdom : ∀ v ∈ s.vars, dom v = some (D v)) (declared : ν → ConstRange) (skipIvarDomain : Bool) :
    s.makeBoundCheck canProve dom declared skipIvarDomain =
      some (s.allIterVars.flatMap (s.markedCheck canProve dom D) ++
        s.rootIterVars.flatMap (s.declaredCheck canProve dom D declared skipIvarDomain)) := by
  have ok := h.varsOk
  obtain ⟨boundState, hrun, hbound⟩ := h.exists_boundState canProve hdom
  have hall : s.allIterVars.mapM (s.domainCheck canProve dom boundState) =
      some (s.allIterVars.map (s.markedCheck canProve dom D)) := by
    rw [mapM_congr (g := fun iv => pure (s.markedCheck canProve dom D iv)), mapM_pure]
    · rfl
    · intro iv hiv
      have hv := ok.all_vars iv hiv
      simp only [domainCheck, hbound iv hv, hdom iv hv, some_bind_eq, markedCheck, Option.pure_def]
      split_ifs <;> rfl
  have hroot : s.rootIterVars.mapM (s.ivarDomainCheck canProve dom declared skipIvarDomain) =
      some (s.rootIterVars.map (s.declaredCheck canProve dom D declared skipIvarDomain)) := by
    rw [mapM_congr
      (g := fun iv => pure (s.declaredCheck canProve dom D declared skipIvarDomain iv)), mapM_pure]
    · rfl
    · intro iv hiv
      have hv := ok.all_vars iv (ok.root_all iv hiv)
      simp only [ivarDomainCheck, hdom iv hv, some_bind_eq, declaredCheck, Option.pure_def]
      split_ifs <;> rfl
  simp [makeBoundCheck, hrun, hall, hroot, some_bind_eq, flatMap]

variable {value : ν → Option ℤ} {iv : ν} {p : s.LeafPoint} {x : ℤ}

/-- A guard that is left out holds anyway. -/
theorem forall_mem_guard_iff (hc : canProve.Sound) (hruns : s.Runs dom p)
    (hvalue : s.passUpIndex dom p = some value) (q : BoundPred ν) :
    (∀ q' ∈ s.guard canProve dom q, q'.Holds value) ↔ q.Holds value := by
  rw [guard]
  split
  · next hprove => simp [hc _ hprove p hruns value hvalue]
  · simp

omit [DecidableEq ν] in
theorem holds_lt_iff {r : ConstRange}
    (h : value iv = some x) : (BoundPred.lt iv r).Holds value ↔ x < r.min + r.extent := by
  simp only [BoundPred.Holds, h, some.injEq, exists_eq_left']
  exact sub_lt_iff_lt_add'

omit [DecidableEq ν] in
theorem holds_ge_iff {r : ConstRange}
    (h : value iv = some x) : (BoundPred.ge iv r).Holds value ↔ r.min ≤ x := by
  simp only [BoundPred.Holds, h, some.injEq, exists_eq_left']
  exact sub_nonneg

/-- **The guards keep the points whose indices are all in their domains** and, for the
axes, in the declared domains. -/
theorem Built.holds_iff (h : s.Built) (hD : ∀ r ∈ s.relations, Covers D r) (hc : canProve.Sound)
    (hdom : ∀ v ∈ s.vars, dom v = some (D v)) {declared : ν → ConstRange} {skipIvarDomain : Bool}
    (hruns : s.Runs dom p) (hvalue : s.passUpIndex dom p = some value)
    (hindex : ∀ v ∈ s.vars, value v = some (s.index D (s.extend p) v)) :
    ((∀ iv ∈ s.allIterVars, ∀ q ∈ s.markedCheck canProve dom D iv, q.Holds value) ∧
      ∀ iv ∈ s.rootIterVars, ∀ q ∈ s.declaredCheck canProve dom D declared skipIvarDomain iv,
        q.Holds value) ↔
    s.InDomain D (s.extend p) ∧ (skipIvarDomain = true ∨
      ∀ iv ∈ s.rootIterVars, (declared iv).Has (s.index D (s.extend p) iv)) := by
  have ok := h.varsOk
  have hmarked : ∀ v ∈ s.vars, Marked D (s.flags canProve D) (s.index D (s.extend p)) v := by
    refine h.marked hD hc fun v hv => ?_
    obtain ⟨r, hr, hhas⟩ := hruns ⟨v, hv⟩
    cases (hdom v (ok.leaf_vars v hv)).symm.trans hr
    have hval : s.extend p v = p ⟨v, hv⟩ := dif_pos hv
    exact ⟨hval ▸ hhas.1, fun _ => hval ▸ hhas.2⟩
  have hall : (∀ iv ∈ s.allIterVars, ∀ q ∈ s.markedCheck canProve dom D iv, q.Holds value) ↔
      s.InDomain D (s.extend p) := by
    constructor
    · intro hcheck
      refine h.inDomain_of_all hD (h.index_eq _) fun iv hiv => ?_
      have hv := ok.all_vars iv hiv
      obtain ⟨hlow, hup⟩ := hmarked iv hv
      have hq := hcheck iv hiv
      rw [markedCheck] at hq
      split at hq
      · rw [forall_mem_guard_iff hc hruns hvalue, holds_lt_iff (hindex iv hv)] at hq
        exact ⟨hlow, hq⟩
      · next hflag => exact ⟨hlow, hup (by simpa [flags] using hflag)⟩
    · intro hin iv hiv
      have hv := ok.all_vars iv hiv
      rw [markedCheck]
      split
      · rw [forall_mem_guard_iff hc hruns hvalue, holds_lt_iff (hindex iv hv)]
        exact (hin iv hv).2
      · simp
  rw [hall]
  refine and_congr_right fun hin => ?_
  by_cases hskip : skipIvarDomain = true
  · simp [hskip, declaredCheck]
  · rw [or_iff_right hskip]
    refine forall₂_congr fun iv hiv => ?_
    have hv := ok.all_vars iv (ok.root_all iv hiv)
    rw [declaredCheck]
    split
    · next hsame =>
        simp only [hskip, Bool.false_or, Bool.and_eq_true] at hsame
        have hmin : (declared iv).min = (D iv).min := hc _ hsame.1
        have hext : (declared iv).extent = (D iv).extent := hc _ hsame.2
        simpa [ConstRange.Has, hmin, hext] using hin iv hv
    · simp only [mem_append, or_imp, forall_and]
      rw [forall_mem_guard_iff hc hruns hvalue, forall_mem_guard_iff hc hruns hvalue,
        holds_ge_iff (hindex iv hv), holds_lt_iff (hindex iv hv)]
      exact Iff.rfl

/-- The points that a loop nest visits: the loops run over them, and the guards hold. -/
def Visited (s : LoopStage ν) (dom : ConstDomMap ν) (preds : List (BoundPred ν)) :
    Set s.LeafPoint :=
  {p | s.Runs dom p ∧ ∃ value, s.passUpIndex dom p = some value ∧ ∀ q ∈ preds, q.Holds value}

/-- **A loop nest visits every point of the ranges of the axes exactly once**, and no point
outside of them.  Where the ranges differ from the domains the axes were declared with,
the points outside of the declared domains are left out as well, unless that is skipped. -/
theorem visits_once {s : LoopStage ν} (hs : s.Built) {canProve : CanProve ν}
    (hc : canProve.Sound) (range declared : ν → ConstRange)
    (hext : ∀ v ∈ s.rootIterVars, 1 ≤ (range v).extent) (skipIvarDomain : Bool) :
    ∃ dom preds, ∃ index : s.LeafPoint → s.RootPoint, s.passDownDomain canProve range = some dom ∧
      s.makeBoundCheck canProve dom declared skipIvarDomain = some preds ∧
      (∀ p, ∃ value, s.passUpIndex dom p = some value ∧
        ∀ v : {v // v ∈ s.rootIterVars}, value v.1 = some (index p v)) ∧
      Set.BijOn index (s.Visited dom preds)
        {x | ∀ v, (range v.1).Has (x v) ∧ (skipIvarDomain = true ∨ (declared v.1).Has (x v))} := by
  have ok := hs.varsOk
  obtain ⟨dom, D, hrun, hvars, -, hroot, hD⟩ := hs.exists_domains hc hext
  have hdom : ∀ v ∈ s.vars, dom v = some (D v) := fun v hv => (hvars v hv).1
  have hrv : ∀ v ∈ s.rootIterVars, v ∈ s.vars := fun v hv => ok.all_vars v (ok.root_all v hv)
  have hvisited : ∀ p, p ∈ s.Visited dom (s.allIterVars.flatMap (s.markedCheck canProve dom D) ++
      s.rootIterVars.flatMap (s.declaredCheck canProve dom D declared skipIvarDomain)) ↔
      s.InDomain D (s.extend p) ∧ (skipIvarDomain = true ∨
        ∀ v ∈ s.rootIterVars, (declared v).Has (s.index D (s.extend p) v)) := by
    intro p
    obtain ⟨value, hvalue, hindex⟩ := hs.exists_passUpIndex hdom p
    constructor
    · rintro ⟨hruns, value', hvalue', hpreds⟩
      cases hvalue.symm.trans hvalue'
      refine (hs.holds_iff hD hc hdom hruns hvalue hindex).mp ⟨?_, ?_⟩
      · exact fun iv hiv q hq => hpreds q
          (mem_append_left _ (mem_flatMap.mpr ⟨iv, hiv, hq⟩))
      · exact fun iv hiv q hq => hpreds q
          (mem_append_right _ (mem_flatMap.mpr ⟨iv, hiv, hq⟩))
    · intro hgood
      have hruns : s.Runs dom p := by
        intro v
        refine ⟨D v.1, hdom v.1 (ok.leaf_vars v.1 v.2), ?_⟩
        have := hgood.1 v.1 (ok.leaf_vars v.1 v.2)
        rw [hs.index_leaf v.2] at this
        simpa [extend, v.2] using this
      obtain ⟨hall, hdecl⟩ := (hs.holds_iff hD hc hdom hruns hvalue hindex).mpr hgood
      refine ⟨hruns, value, hvalue, fun q hq => ?_⟩
      rcases mem_append.mp hq with hq | hq
      · obtain ⟨iv, hiv, hq⟩ := mem_flatMap.mp hq
        exact hall iv hiv q hq
      · obtain ⟨iv, hiv, hq⟩ := mem_flatMap.mp hq
        exact hdecl iv hiv q hq
  refine ⟨dom, _, fun p v => s.index D (s.extend p) v.1, hrun,
    hs.makeBoundCheck_eq canProve hdom declared skipIvarDomain, ?_, ?_, ?_, ?_⟩
  · intro p
    obtain ⟨value, hvalue, hindex⟩ := hs.exists_passUpIndex hdom p
    exact ⟨value, hvalue, fun v => hindex v.1 (hrv v.1 v.2)⟩
  · intro p hp v
    obtain ⟨hin, hdecl⟩ := (hvisited p).mp hp
    exact ⟨hroot v.1 v.2 ▸ hin v.1 (hrv v.1 v.2), hdecl.imp_right fun h => h v.1 v.2⟩
  · intro p hp p' hp' heq
    have hagree := hs.index_injective hD ((hvisited p).mp hp).1 ((hvisited p').mp hp').1
      fun v hv => congrFun heq ⟨v, hv⟩
    funext v
    simpa [extend, v.2] using hagree v.1 v.2
  · intro x hx
    obtain ⟨val, hin, hval⟩ := hs.index_surjective hD
      (x := fun v => if h : v ∈ s.rootIterVars then x ⟨v, h⟩ else 0) fun v hv => by
        rw [hroot v hv, dif_pos hv]
        exact (hx ⟨v, hv⟩).1
    have hsame : ∀ v ∈ s.vars, s.index D (s.extend fun v => val v.1) v = s.index D val v :=
      hs.index_congr fun v hv => dif_pos hv
    have hvx : ∀ v : {v // v ∈ s.rootIterVars},
        s.index D (s.extend fun v => val v.1) v.1 = x v := fun v => by
      rw [hsame v.1 (hrv v.1 v.2), hval v.1 v.2, dif_pos v.2]
    refine ⟨fun v => val v.1, (hvisited _).mpr ⟨fun v hv => ?_, ?_⟩, funext hvx⟩
    · rw [hsame v hv]
      exact hin v hv
    · by_cases hskip : skipIvarDomain = true
      · exact .inl hskip
      · refine .inr fun v hv => ?_
        rw [hvx ⟨v, hv⟩]
        exact (hx ⟨v, hv⟩).2.resolve_left hskip

/-- Two axes: the second is rebased, the first is split by three, and the inner part of the
split is fused with the rebased axis. -/
def rebasedTile : LoopStage ℕ :=
  { rootIterVars := [0, 1]
    relations := [.rebase 1 2, .split 0 3 4 (.factor 3), .fuse 4 2 5]
    leafIterVars := [3, 5]
    allIterVars := [0, 1, 3, 4, 5] }

theorem rebasedTile_built : rebasedTile.Built := by
  have h0 : Built (⟨[0, 1], [], [0, 1], [0, 1]⟩ : LoopStage ℕ) := .ofRoot (by decide)
  have h1 := h0.push (r := .rebase 1 2) (show _ = [0] ++ _ ++ [] from rfl) (by decide)
    (by decide) trivial
  have h2 := h1.push (r := .split 0 3 4 (.factor 3)) (show _ = [] ++ _ ++ [2] from rfl)
    (by decide) (by decide) (show (0 : ℤ) < 3 by decide)
  exact h2.push (show _ = [3] ++ _ ++ [] from rfl) (by decide) (by decide)
    trivial

/-- The axes have extents seven and two, and the second starts at five. -/
def rebasedRange (v : ℕ) : ConstRange := if v = 0 then ⟨0, 7⟩ else ⟨5, 2⟩

/-- An analyzer that compares constants, and proves no guard. -/
def comparesConstants : CanProve ℕ
  | .divisible a b => a.fmod b = 0
  | .less a b => a < b
  | .equal a b => a = b
  | .product extent factor nparts => extent = factor * nparts
  | .always _ _ _ => false

theorem comparesConstants_sound : comparesConstants.Sound := by
  intro q hq
  cases q with
  | always => cases hq
  | _ => simpa [comparesConstants, LoopQuery.Holds] using hq

theorem rebasedTile_visits_once :
    ∃ dom preds, ∃ index : rebasedTile.LeafPoint → rebasedTile.RootPoint,
      rebasedTile.passDownDomain comparesConstants rebasedRange = some dom ∧
      rebasedTile.makeBoundCheck comparesConstants dom rebasedRange false = some preds ∧
      (∀ p, ∃ value, rebasedTile.passUpIndex dom p = some value ∧
        ∀ v : {v // v ∈ rebasedTile.rootIterVars}, value v.1 = some (index p v)) ∧
      Set.BijOn index (rebasedTile.Visited dom preds)
        {x | ∀ v, (rebasedRange v.1).Has (x v) ∧ (false = true ∨ (rebasedRange v.1).Has (x v))} :=
  visits_once rebasedTile_built comparesConstants_sound rebasedRange rebasedRange (by decide) false

end LoopStage

end Pruner.Te
