import Mathlib.Tactic.Linarith
import Pruner.Te.LoopDomain

/-!
# Indices of a loop nest

The indices of the axes are computed from the loop variables, relation by relation.  When
the domains of every relation cover the domains of the loops it replaces, the indices of
the axes determine the loop variables, and every point of the domains of the axes is
reached.

## Main definitions

* `LoopStage.passUp` — a pass from the leaves to the axes.
* `LoopStage.Covers` — what the domains of a relation have to satisfy.
* `LoopStage.Built.index_injective`, `index_surjective` — the indices of a loop nest.
* `LoopStage.Built.marked` — an index leaves its domain only with a mark.
-/

namespace Pruner.Te

open Tir List IterVarRelation Int

namespace LoopStage

/-! ## Passes from the leaves to the axes

Both passes give values to the loops that a relation replaces, computed from the values
of the loops it makes. -/

variable {ν α : Type} [DecidableEq ν] {s : LoopStage ν} (f : IterVarRelation ν → (ν → α) → ν → α)
  (r : IterVarRelation ν) (val : ν → α)

/-- One relation of an upward pass that computes values by `f`. -/
def upRel : ν → α :=
  fun v => if v ∈ r.uses then f r val v else val v

/-- An upward pass over all relations, the last one first. -/
def passUp (rels : List (IterVarRelation ν)) (val : ν → α) : ν → α := rels.foldr (upRel f) val

variable {f}

theorem passUp_append_singleton (rels : List (IterVarRelation ν)) (r : IterVarRelation ν)
    (val : ν → α) : passUp f (rels ++ [r]) val = passUp f rels (upRel f r val) := by
  simp [passUp]

variable {v : ν} {x : ν → ℤ} {flag : ν → Bool}

theorem passUp_of_unused {rels : List (IterVarRelation ν)}
    (h : ∀ r ∈ rels, v ∉ r.uses) (val : ν → α) : passUp f rels val v = val v := by
  induction rels with
  | nil => rfl
  | cons r rels ih =>
    have hr : v ∉ r.uses := h r mem_cons_self
    rw [passUp, foldr_cons, upRel, if_neg hr]
    exact ih (forall_mem_cons.mp h).2

theorem Built.passUp_makes {r : IterVarRelation ν} {l₁ l₂ : List ν} (h : s.Built)
    (hleaf : s.leafIterVars = l₁ ++ r.uses ++ l₂) (hnew : ∀ v ∈ r.makes, v ∉ s.vars)
    (val : ν → α) (hv : v ∈ r.makes) :
    passUp f s.relations (upRel f r val) v = val v := by
  have ok := h.varsOk
  have hold : v ∉ s.vars := hnew v hv
  have hu : v ∉ r.uses := fun hu => hold (ok.leaf_vars v (by rw [hleaf]; simp [hu]))
  rw [passUp_of_unused fun r' hr' hv' => hold (ok.uses_vars r' hr' v hv'), upRel, if_neg hu]

/-- A step of the pass in the model computes the values `f`. -/
def Computes (step : (ν → Option α) → IterVarRelation ν → Option (ν → Option α))
    (f : IterVarRelation ν → (ν → α) → ν → α) (r : IterVarRelation ν) : Prop :=
  ∀ (state : ν → Option α) (val : ν → α), (∀ v ∈ r.makes, state v = some (val v)) →
    step state r = some fun v => if v ∈ r.uses then some (f r val v) else state v

/-- **A pass of the model computes an upward pass**, when all its steps do. -/
theorem Built.foldlM_reverse {step : (ν → Option α) → IterVarRelation ν → Option (ν → Option α)}
    (h : s.Built) (hstep : ∀ r ∈ s.relations, Computes step f r) (state : ν → Option α)
    (val : ν → α) (hleaf : ∀ v ∈ s.leafIterVars, state v = some (val v)) :
    ∃ state', s.relations.reverse.foldlM step state = some state' ∧
      (∀ v ∈ s.vars, state' v = some (passUp f s.relations val v)) ∧
      ∀ v ∉ s.vars, state' v = state v := by
  induction h generalizing state val with
  | ofRoot h =>
    refine ⟨state, rfl, fun v hv => hleaf v ?_, fun _ _ => rfl⟩
    simpa [vars] using hv
  | @push s r l₁ l₂ hs hsl hnew hnodup hpos ih =>
    have ok := hs.varsOk
    have hmakes : ∀ v ∈ r.makes, state v = some (val v) := fun v hv =>
      hleaf v (by simp [hv])
    have hr := hstep r (by simp) state val hmakes
    have hleaf' : ∀ v ∈ s.leafIterVars,
        (if v ∈ r.uses then some (f r val v) else state v) = some (upRel f r val v) := by
      intro v hv
      by_cases hu : v ∈ r.uses
      · simp [upRel, if_pos hu]
      · simp only [upRel, if_neg hu]
        exact hleaf v (mem_pushed_leaf hsl hv hu)
    obtain ⟨state', hrun, hvars, hother⟩ :=
      ih (fun r' hr' => hstep r' (by simp [hr'])) _ (upRel f r val) hleaf'
    refine ⟨state', ?_, ?_, ?_⟩
    · rw [relations_push, reverse_append, reverse_singleton, singleton_append, foldlM_cons, hr]
      exact hrun
    · rw [relations_push, passUp_append_singleton, vars_push]
      refine forall_mem_append.mpr ⟨hvars, fun v hv => ?_⟩
      have hold : v ∉ s.vars := hnew v hv
      have hu : v ∉ r.uses := fun hu => hold (ok.leaf_vars v (by rw [hsl]; simp [hu]))
      rw [hother v hold, if_neg hu, hmakes v hv, hs.passUp_makes hsl hnew val hv]
    · intro v hv
      rw [vars_push, mem_append, not_or] at hv
      have hu : v ∉ r.uses := fun hu => hv.1 (ok.leaf_vars v (by rw [hsl]; simp [hu]))
      rw [hother v hv.1, if_neg hu]
  | @reorder s leaf hs hperm ih =>
    exact ih hstep state val fun v hv => hleaf v (hperm.mem_iff.mpr hv)

/-- Two passes are related at all variables if they are at the leaves, when a step only reads
what its relation makes. -/
theorem Built.passUp_rel {β : Type} {g : IterVarRelation ν → (ν → β) → ν → β} (h : s.Built)
    {R : ν → α → β → Prop} (hread : ∀ r ∈ s.relations, ∀ (val : ν → α) (val' : ν → β),
      (∀ v ∈ r.makes, R v (val v) (val' v)) → ∀ v ∈ r.uses, R v (f r val v) (g r val' v))
    {val : ν → α} {val' : ν → β} (hleaf : ∀ v ∈ s.leafIterVars, R v (val v) (val' v)) :
    ∀ v ∈ s.vars, R v (passUp f s.relations val v) (passUp g s.relations val' v) := by
  induction h generalizing val val' with
  | ofRoot h => exact fun v hv => hleaf v (by simpa [vars] using hv)
  | @push s r l₁ l₂ hs hsl hnew hnodup hpos ih =>
    intro v hv
    rw [relations_push, passUp_append_singleton, passUp_append_singleton]
    rw [vars_push, mem_append] at hv
    have hmakes : ∀ v ∈ r.makes, R v (val v) (val' v) := fun v hv => hleaf v (by simp [hv])
    rcases hv with hv | hv
    · refine ih (fun r' hr' => hread r' (by simp [hr'])) (fun w hw => ?_) v hv
      by_cases hu : w ∈ r.uses
      · simp only [upRel, if_pos hu]
        exact hread r (by simp) val val' hmakes w hu
      · simp only [upRel, if_neg hu]
        exact hleaf w (mem_pushed_leaf hsl hw hu)
    · rw [hs.passUp_makes hsl hnew val hv, hs.passUp_makes hsl hnew val' hv]
      exact hmakes v hv
  | @reorder s leaf hs hperm ih =>
    exact ih hread fun v hv => hleaf v (hperm.mem_iff.mpr hv)

/-! ## Indices and domains of one relation -/

variable {canProve : CanProve ν}

/-- The index of a replaced loop, from the indices of the loops made of it. -/
def indexOf (D : ν → ConstRange) : IterVarRelation ν → (ν → ℤ) → ν → ℤ
  | .split parent outer inner _, val, _ =>
    val inner + val outer * (D inner).extent + (D parent).min
  | .fuse outer inner fused, val, v =>
    if v = inner then (val fused).fmod (D inner).extent + (D inner).min
    else (val fused).fdiv (D inner).extent + (D outer).min
  | .rebase parent rebased, val, _ => val rebased + (D parent).min

/-- Whether a replaced loop may leave its domain. -/
def flagOf (canProve : CanProve ν) (D : ν → ConstRange) : IterVarRelation ν → (ν → Bool) → ν → Bool
  | .split parent outer inner _, flag, _ => flag outer || flag inner ||
      !canProve (.product (D parent).extent (D inner).extent (D outer).extent)
  | .fuse _ _ fused, flag, _ => flag fused
  | .rebase _ rebased, flag, _ => flag rebased

theorem indexOf_congr (D : ν → ConstRange) (r : IterVarRelation ν) (val val' : ν → ℤ)
    (h : ∀ v ∈ r.makes, val v = val' v) : ∀ v ∈ r.uses, indexOf D r val v = indexOf D r val' v := by
  intro v _
  cases r <;> simp_all [indexOf, makes]

/-- The loops that a relation makes run over enough points: their domains start at zero
and cover the domains of the loops they replace. -/
def Covers (D : ν → ConstRange) : IterVarRelation ν → Prop
  | .split parent outer inner _ =>
    (D outer).min = 0 ∧ (D inner).min = 0 ∧ 0 < (D inner).extent ∧
      (D parent).extent ≤ (D inner).extent * (D outer).extent
  | .fuse outer inner fused =>
    D fused = ⟨0, (D outer).extent * (D inner).extent⟩ ∧ 0 < (D inner).extent
  | .rebase parent rebased => D rebased = ⟨0, (D parent).extent⟩

variable {r} {D : ν → ConstRange}

/-- Different values of the new loops stand for different indices. -/
theorem Covers.injective (h : Covers D r) (hu : r.uses.Nodup) {val val' : ν → ℤ}
    (hval : ∀ v ∈ r.makes, (D v).Has (val v)) (hval' : ∀ v ∈ r.makes, (D v).Has (val' v))
    (heq : ∀ v ∈ r.uses, indexOf D r val v = indexOf D r val' v) :
    ∀ v ∈ r.makes, val v = val' v := by
  cases r with
  | split parent outer inner size =>
    obtain ⟨-, hmin, hF, -⟩ := h
    have hin := hval inner (by simp [makes])
    have hin' := hval' inner (by simp [makes])
    simp only [ConstRange.Has, hmin, zero_add] at hin hin'
    have hsum := heq parent (by simp [uses])
    simp only [indexOf, add_left_inj] at hsum
    have houter : val outer = val' outer := by
      have := congrArg (· / (D inner).extent) hsum
      simpa [add_mul_ediv_right _ _ hF.ne', ediv_eq_zero_of_lt hin.1 hin.2,
        ediv_eq_zero_of_lt hin'.1 hin'.2] using this
    rw [houter, add_left_inj] at hsum
    simp [makes, houter, hsum]
  | fuse outer inner fused =>
    have hne : outer ≠ inner := by simpa [uses] using hu
    have ho := heq outer (by simp [uses])
    have hi := heq inner (by simp [uses])
    simp only [indexOf, if_neg hne, if_true, add_left_inj] at ho hi
    have hv := mul_fdiv_add_fmod (val fused) (D inner).extent
    rw [ho, hi, mul_fdiv_add_fmod] at hv
    simp [makes, hv]
  | rebase parent rebased =>
    have := heq parent (by simp [uses])
    simp only [indexOf, add_left_inj] at this
    simp [makes, this]

/-- Every index in the domain of a replaced loop is reached. -/
theorem Covers.surjective (h : Covers D r) (hu : r.uses.Nodup) (hm : r.makes.Nodup)
    (hx : ∀ v ∈ r.uses, (D v).Has (x v)) :
    ∃ y : ν → ℤ, (∀ v ∈ r.makes, (D v).Has (y v)) ∧ ∀ v ∈ r.uses, indexOf D r y v = x v := by
  cases r with
  | split parent outer inner size =>
    obtain ⟨hmo, hmi, hF, hle⟩ := h
    have hne : outer ≠ inner := by simpa [makes] using hm
    have hp := hx parent (by simp [uses])
    have hnn : 0 ≤ x parent - (D parent).min := by linarith [hp.1]
    have hlt : x parent - (D parent).min < (D outer).extent * (D inner).extent := by
      linarith [hp.2, mul_comm (D inner).extent (D outer).extent]
    refine ⟨fun v => if v = outer then (x parent - (D parent).min) / (D inner).extent
      else (x parent - (D parent).min) % (D inner).extent, ?_, ?_⟩
    · simp only [makes, mem_cons, not_mem_nil, or_false]
      rintro v (rfl | rfl)
      · simp only [ConstRange.Has, hmo, if_true, zero_add]
        exact ⟨ediv_nonneg hnn hF.le, Int.ediv_lt_of_lt_mul hF hlt⟩
      · simp only [ConstRange.Has, hmi, if_neg hne.symm, zero_add]
        exact ⟨emod_nonneg _ hF.ne', emod_lt_of_pos _ hF⟩
    · simp only [uses, mem_singleton, forall_eq, indexOf, if_true, if_neg hne.symm]
      linarith [emod_add_ediv_mul (x parent - (D parent).min) (D inner).extent]
  | fuse outer inner fused =>
    obtain ⟨hfused, hI⟩ := h
    have hne : outer ≠ inner := by simpa [uses] using hu
    have ho := hx outer (by simp [uses])
    have hi := hx inner (by simp [uses])
    have hi₀ : 0 ≤ x inner - (D inner).min := by linarith [hi.1]
    have hi₁ : x inner - (D inner).min < (D inner).extent := by linarith [hi.2]
    have ho₀ : 0 ≤ x outer - (D outer).min := by linarith [ho.1]
    have ho₁ : x outer - (D outer).min + 1 ≤ (D outer).extent := by linarith [ho.2]
    refine ⟨fun _ => (x inner - (D inner).min) + (x outer - (D outer).min) * (D inner).extent,
      ?_, ?_⟩
    · simp only [makes, mem_singleton, forall_eq, ConstRange.Has, hfused, zero_add]
      refine ⟨add_nonneg hi₀ (Int.mul_nonneg ho₀ hI.le), ?_⟩
      calc x inner - (D inner).min + (x outer - (D outer).min) * (D inner).extent
          < (x outer - (D outer).min + 1) * (D inner).extent := by linarith
        _ ≤ (D outer).extent * (D inner).extent := mul_le_mul_of_nonneg_right ho₁ hI.le
    · simp only [uses, mem_cons, not_mem_nil, or_false, indexOf]
      rintro v (rfl | rfl)
      · rw [if_neg hne, Int.add_mul_fdiv_right _ _ hI.ne', fdiv_eq_zero_of_lt hi₀ hi₁]
        omega
      · rw [if_pos rfl, Int.add_mul_fmod_self_right, Int.fmod_eq_of_lt hi₀ hi₁]
        omega
  | rebase parent rebased =>
    have hp := hx parent (by simp [uses])
    refine ⟨fun _ => x parent - (D parent).min, ?_, ?_⟩
    · simp only [makes, mem_singleton, forall_eq, ConstRange.Has,
        show D rebased = ⟨0, (D parent).extent⟩ from h]
      exact ⟨by linarith [hp.1], by linarith [hp.2]⟩
    · simp [uses, indexOf]

/-- A value that does not fall below its domain, and leaves it only with a mark. -/
def Marked (D : ν → ConstRange) (flag : ν → Bool) (val : ν → ℤ) (v : ν) : Prop :=
  (D v).min ≤ val v ∧ (flag v = false → val v < (D v).min + (D v).extent)

/-- Marks are passed up soundly. -/
theorem Covers.marked (h : Covers D r) (hc : canProve.Sound) {val : ν → ℤ}
    (hm : ∀ v ∈ r.makes, Marked D flag val v) :
    ∀ v ∈ r.uses, (D v).min ≤ indexOf D r val v ∧
      (flagOf canProve D r flag v = false → indexOf D r val v < (D v).min + (D v).extent) := by
  cases r with
  | split parent outer inner size =>
    obtain ⟨hmo, hmi, hF, -⟩ := h
    obtain ⟨ho₀, ho₁⟩ := hm outer (by simp [makes])
    obtain ⟨hi₀, hi₁⟩ := hm inner (by simp [makes])
    rw [hmo] at ho₀ ho₁
    simp only [uses, mem_singleton, forall_eq, indexOf, flagOf,
      Bool.or_eq_false_iff, Bool.not_eq_false', and_imp]
    refine ⟨by linarith [mul_nonneg ho₀ hF.le], fun hfo hfi hprove => ?_⟩
    have hext : (D parent).extent = (D inner).extent * (D outer).extent := hc _ hprove
    have hle : (val outer + 1) * (D inner).extent ≤ (D outer).extent * (D inner).extent :=
      mul_le_mul_of_nonneg_right (by linarith [ho₁ hfo]) hF.le
    have := hi₁ hfi
    linarith [mul_comm (D inner).extent (D outer).extent]
  | fuse outer inner fused =>
    obtain ⟨hfused, hI⟩ := h
    obtain ⟨hf₀, hf₁⟩ := hm fused (by simp [makes])
    simp only [hfused, zero_add] at hf₀ hf₁
    intro v hv
    simp only [uses, mem_cons, not_mem_nil, or_false] at hv
    simp only [indexOf, flagOf]
    split
    · next hvi =>
        subst hvi
        have h₀ := fmod_nonneg_of_pos (val fused) hI
        have h₁ := fmod_lt_of_pos (val fused) hI
        exact ⟨by linarith, fun _ => by linarith⟩
    · next hvi =>
        obtain rfl : v = outer := hv.resolve_right hvi
        rw [fdiv_eq_ediv_of_nonneg _ hI.le]
        have h₀ := ediv_nonneg hf₀ hI.le
        refine ⟨by linarith, fun hflag => ?_⟩
        have h₁ := Int.ediv_lt_of_lt_mul hI (hf₁ hflag)
        linarith
  | rebase parent rebased =>
    have hr : D rebased = ⟨0, (D parent).extent⟩ := h
    obtain ⟨h₀, h₁⟩ := hm rebased (by simp [makes])
    simp only [hr, zero_add] at h₀ h₁
    simp only [uses, mem_singleton, forall_eq, indexOf, flagOf]
    exact ⟨by linarith, fun hflag => by linarith [h₁ hflag]⟩

/-! ## Indices and domains of a loop nest -/

/-- The indices of all variables, from the values of the leaves. -/
def index (s : LoopStage ν) (D : ν → ConstRange) (val : ν → ℤ) : ν → ℤ :=
  passUp (indexOf D) s.relations val

/-- The indices of all variables are in their domains. -/
def InDomain (s : LoopStage ν) (D : ν → ConstRange) (val : ν → ℤ) : Prop :=
  ∀ v ∈ s.vars, (D v).Has (s.index D val v)

theorem index_push (r : IterVarRelation ν) (leaf : List ν) (val : ν → ℤ) :
    (s.push r leaf).index D val = s.index D (upRel (indexOf D) r val) := by
  rw [index, relations_push, passUp_append_singleton, index]

variable (h : s.Built)
include h

variable {val val' : ν → ℤ}

theorem Built.index_congr (hleaf : ∀ v ∈ s.leafIterVars, val v = val' v) :
    ∀ v ∈ s.vars, s.index D val v = s.index D val' v :=
  h.passUp_rel (fun r _ => indexOf_congr D r) hleaf

theorem Built.index_leaf (hv : v ∈ s.leafIterVars) (val : ν → ℤ) :
    s.index D val v = val v :=
  passUp_of_unused (fun r hr hu => h.varsOk.leaf_unused r hr v hu hv) val

section

variable (hD : ∀ r ∈ s.relations, Covers D r)
include hD

/-- **No point is visited twice**: values of the leaves with all indices in their domains
are determined by the indices of the axes. -/
theorem Built.index_injective (hval : s.InDomain D val)
    (hval' : s.InDomain D val') (heq : ∀ v ∈ s.rootIterVars, s.index D val v = s.index D val' v) :
    ∀ v ∈ s.leafIterVars, val v = val' v := by
  induction h generalizing val val' with
  | ofRoot h => exact heq
  | @push s r l₁ l₂ hs hsl hnew hnodup hpos ih =>
    have ok := hs.varsOk
    have hu := ok.nodup_uses hsl
    simp only [InDomain, index_push, vars_push, mem_append] at hval hval'
    simp only [index_push] at heq
    have hagree := ih (fun r' hr' => hD r' (by simp [hr'])) (fun v hv => hval v (.inl hv))
      (fun v hv => hval' v (.inl hv)) heq
    have hmakes : ∀ v ∈ r.makes, val v = val' v := by
      refine (hD r (by simp)).injective hu (fun v hv => ?_) (fun v hv => ?_) fun v hv => ?_
      · rw [← hs.passUp_makes hsl hnew val hv]
        exact hval v (.inr hv)
      · rw [← hs.passUp_makes hsl hnew val' hv]
        exact hval' v (.inr hv)
      · simpa [upRel, hv] using hagree v (by rw [hsl]; simp [hv])
    intro v hv
    by_cases hm : v ∈ r.makes
    · exact hmakes v hm
    · have hold : v ∈ s.leafIterVars := by
        rw [leafIterVars_push, append_assoc] at hv
        simp only [mem_append, hm, false_or] at hv
        rw [hsl]
        rcases hv with hv | hv <;> simp [hv]
      have hun : v ∉ r.uses := fun hv' =>
        (hs.push hsl hnew hnodup hpos).varsOk.leaf_unused r (by simp) v hv' hv
      simpa [upRel, hun] using hagree v hold
  | @reorder s leaf hs hperm ih =>
    exact fun v hv => ih hD hval hval' heq v (hperm.mem_iff.mp hv)

/-- **Every point is visited**: indices of the axes in their domains come from values of
the leaves with all indices in their domains. -/
theorem Built.index_surjective (hx : ∀ v ∈ s.rootIterVars, (D v).Has (x v)) :
    ∃ val, s.InDomain D val ∧ ∀ v ∈ s.rootIterVars, s.index D val v = x v := by
  induction h with
  | ofRoot h => exact ⟨x, fun v hv => hx v (by simpa [vars] using hv), fun _ _ => rfl⟩
  | @push s r l₁ l₂ hs hsl hnew hnodup hpos ih =>
    have ok := hs.varsOk
    have hleaf : ∀ v ∈ r.uses, v ∈ s.leafIterVars := fun v hv => by rw [hsl]; simp [hv]
    have hu := ok.nodup_uses hsl
    obtain ⟨val, hval, hroot⟩ := ih (fun r' hr' => hD r' (by simp [hr'])) hx
    obtain ⟨y, hy, hindex⟩ := (hD r (by simp)).surjective hu hnodup fun v hv => by
      have := hval v (ok.leaf_vars v (hleaf v hv))
      rwa [hs.index_leaf (hleaf v hv)] at this
    -- the new loops get the values of the relation, the others keep theirs
    let val' : ν → ℤ := fun v => if v ∈ r.makes then y v else val v
    have hval' : ∀ v ∈ r.makes, val' v = y v := fun v hv => if_pos hv
    have hsame : ∀ v ∈ s.vars, s.index D (upRel (indexOf D) r val') v = s.index D val v := by
      refine hs.index_congr fun v hv => ?_
      by_cases hv' : v ∈ r.uses
      · rw [upRel, if_pos hv', indexOf_congr D r val' y hval' v hv', hindex v hv']
      · rw [upRel, if_neg hv']
        exact if_neg fun hm => hnew v hm (ok.leaf_vars v hv)
    refine ⟨val', ?_, fun v hv => ?_⟩
    · rw [InDomain, index_push, vars_push]
      refine forall_mem_append.mpr ⟨fun v hv => ?_, fun v hv => ?_⟩
      · rw [hsame v hv]
        exact hval v hv
      · rw [index, hs.passUp_makes hsl hnew val' hv, hval' v hv]
        exact hy v hv
    · rw [index_push, hsame v (mem_append_left _ hv)]
      exact hroot v hv
  | @reorder s leaf hs hperm ih => exact ih hD hx

/-- Indices only leave their domains with a mark. -/
theorem Built.marked (hc : canProve.Sound) (hleaf : ∀ v ∈ s.leafIterVars, Marked D flag val v) :
    ∀ v ∈ s.vars, Marked D (passUp (flagOf canProve D) s.relations flag) (s.index D val) v :=
  h.passUp_rel (R := fun v b x => (D v).min ≤ x ∧ (b = false → x < (D v).min + (D v).extent))
    (fun r hr _ _ hm => (hD r hr).marked hc hm) hleaf

end

/-- The indices satisfy every relation. -/
theorem Built.index_eq (val : ν → ℤ) :
    ∀ r ∈ s.relations, ∀ v ∈ r.uses, s.index D val v = indexOf D r (s.index D val) v := by
  induction h generalizing val with
  | ofRoot h => simp
  | @push s r l₁ l₂ hs hsl hnew hnodup hpos ih =>
    rw [index_push]
    refine forall_mem_append.mpr ⟨ih _, forall_mem_singleton.mpr fun v hv => ?_⟩
    rw [hs.index_leaf (by rw [hsl]; simp [hv]), upRel, if_pos hv]
    exact indexOf_congr D r _ _ (fun w hw => (hs.passUp_makes hsl hnew val hw).symm) v hv
  | @reorder s leaf hs hperm ih => exact ih val

/-- A rebased loop is in its domain when its parent is, so the variables in
`all_iter_vars` speak for all. -/
theorem Built.inDomain_of_all (hD : ∀ r ∈ s.relations, Covers D r) {w : ν → ℤ}
    (hw : ∀ r ∈ s.relations, ∀ v ∈ r.uses, w v = indexOf D r w v)
    (hall : ∀ v ∈ s.allIterVars, (D v).Has (w v)) : ∀ v ∈ s.vars, (D v).Has (w v) := by
  induction h with
  | ofRoot h => exact fun v hv => hall v (by simpa [vars] using hv)
  | @push s r l₁ l₂ hs hsl hnew hnodup hpos ih =>
    have hold := ih (fun r' hr' => hD r' (by simp [hr'])) (fun r' hr' => hw r' (by simp [hr']))
      fun v hv => hall v (by simp [hv])
    rw [vars_push]
    refine forall_mem_append.mpr ⟨hold, fun v hv => ?_⟩
    cases r with
    | split parent outer inner size | fuse outer inner fused =>
      exact hall v (mem_append_right _ hv)
    | rebase parent rebased =>
      obtain rfl : v = rebased := by simpa [makes] using hv
      have hparent := hold parent (hs.varsOk.leaf_vars parent (by rw [hsl]; simp [uses]))
      have hrange : D v = ⟨0, (D parent).extent⟩ := hD (.rebase parent v) (by simp)
      rw [hw (.rebase parent v) (by simp) parent (by simp [uses]), indexOf] at hparent
      rw [hrange]
      exact ⟨by linarith [hparent.1], by linarith [hparent.2]⟩
  | @reorder s leaf hs hperm ih => exact ih hD hw hall

end LoopStage

end Pruner.Te
