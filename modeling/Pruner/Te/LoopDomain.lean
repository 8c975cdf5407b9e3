import Mathlib.Algebra.Order.Ring.Int
import Mathlib.Data.List.Nodup
import Pruner.Lib.PartialRun
import Pruner.Tir.Expr

/-!
# Passing domains and indices through a loop nest

The loops of a stage run over the domains that `PassDownDomain` computes from the ranges
of the axes, and `PassUpIndex` turns the loop variables back into indices of the axes.
Domains are rounded up, so a loop nest also runs over points outside of the ranges of
the axes; the predicates of `MakeBoundCheck` sort them out.

This is the final pass over a stage (`allow_missing` is false, no loop is bound to a
thread) with constant ranges, and with the `Rebase` relations that `Schedule::normalize`
inserts.  What the analyzer answers to each query is a parameter.

## Main definitions

* `LoopStage` — the variables of a stage and the relations between them.
* `LoopQuery`, `CanProve` — what the passes ask the analyzer, and its answers.
* `LoopStage.passDownDomain`, `passUpIndex`, `makeBoundCheck` — the three passes.
* `LoopStage.Built` — the stages that splits, fuses, rebases and reorders make.
* `LoopStage.VarsOk` — leaves are variables that no relation has replaced.
-/

namespace Pruner.Te

open Tir List

/-- The one of `factor` and `nparts` that a split defines. -/
inductive SplitSize where
  | factor (n : ℤ)
  | nparts (n : ℤ)
  deriving DecidableEq, Repr, Inhabited

/-- The number that a split gives. -/
def SplitSize.value : SplitSize → ℤ
  | .factor n => n
  | .nparts n => n

/-- The relations of a normalized stage. -/
inductive IterVarRelation (ν : Type) where
  | split (parent outer inner : ν) (size : SplitSize)
  | fuse (outer inner fused : ν)
  | rebase (parent rebased : ν)
  deriving DecidableEq, Repr, Inhabited

namespace IterVarRelation

/-- The loops that a relation replaces. -/
def uses {ν : Type} : IterVarRelation ν → List ν
  | .split parent _ _ _ => [parent]
  | .fuse outer inner _ => [outer, inner]
  | .rebase parent _ => [parent]

def makes {ν : Type} : IterVarRelation ν → List ν
  | .split _ outer inner _ => [outer, inner]
  | .fuse _ _ fused => [fused]
  | .rebase _ rebased => [rebased]

/-- The new loops that a stage lists in `all_iter_vars`: `RebaseNonZeroMinLoop` does not
add the ones it makes. -/
def listed {ν : Type} : IterVarRelation ν → List ν
  | .split _ outer inner _ => [outer, inner]
  | .fuse _ _ fused => [fused]
  | .rebase _ _ => []

def Positive {ν : Type} : IterVarRelation ν → Prop
  | .split _ _ _ size => 0 < size.value
  | .fuse _ _ _ => True
  | .rebase _ _ => True

end IterVarRelation

/-- What a pass reads of a stage. -/
structure LoopStage (ν : Type) where
  rootIterVars : List ν
  relations : List (IterVarRelation ν)
  leafIterVars : List ν
  allIterVars : List ν
  deriving DecidableEq, Repr, Inhabited

/-- A predicate that guards the body of a loop nest: the distance of an index from the
start of a range is not negative, or is below the extent. -/
inductive BoundPred (ν : Type) where
  | ge (iv : ν) (r : ConstRange)
  | lt (iv : ν) (r : ConstRange)
  deriving DecidableEq, Repr

/-- A guard holds for the values of the variables. -/
def BoundPred.Holds {ν : Type} (value : ν → Option ℤ) : BoundPred ν → Prop
  | .ge iv r => ∃ x, value iv = some x ∧ x - r.min ≥ 0
  | .lt iv r => ∃ x, value iv = some x ∧ x - r.min < r.extent

/-- The domains known so far. -/
abbrev ConstDomMap (ν : Type) := ν → Option ConstRange

namespace LoopStage

variable {ν : Type} [DecidableEq ν] (dom : ConstDomMap ν) (s : LoopStage ν)

/-- One relation of `PassUpIndex`. -/
def passUpIndexRel (state : ν → Option ℤ) : IterVarRelation ν → Option (ν → Option ℤ)
  | .split parent outer inner _ => do
    let o ← state outer
    let i ← state inner
    let rangeInner ← dom inner
    let rangeParent ← dom parent
    some (Function.update state parent (some (i + o * rangeInner.extent + rangeParent.min)))
  | .fuse outer inner fused => do
    let value ← state fused
    let rangeInner ← dom inner
    let rangeOuter ← dom outer
    some (Function.update
      (Function.update state outer (some (value.fdiv rangeInner.extent + rangeOuter.min)))
      inner (some (value.fmod rangeInner.extent + rangeInner.min)))
  | .rebase parent rebased => do
    let value ← state rebased
    let rangeParent ← dom parent
    some (Function.update state parent (some (value + rangeParent.min)))

/-- The values of the loop variables. -/
abbrev LeafPoint := {v // v ∈ s.leafIterVars} → ℤ

/-- The indices of the axes. -/
abbrev RootPoint := {v // v ∈ s.rootIterVars} → ℤ

/-- `PassUpIndex`, from the last relation to the first. -/
def passUpIndex (p : s.LeafPoint) : Option (ν → Option ℤ) :=
  s.relations.reverse.foldlM (passUpIndexRel dom)
    (fun v => if h : v ∈ s.leafIterVars then some (p ⟨v, h⟩) else none)

/-- The loops of a stage run over a point. -/
def Runs (p : s.LeafPoint) : Prop :=
  ∀ v : {v // v ∈ s.leafIterVars}, ∃ r, dom v.1 = some r ∧ r.Has (p v)

/-- A guard holds at every point that the loops run over.  This is what the bounds of
`int_set` stand for. -/
def Always (q : BoundPred ν) : Prop :=
  ∀ p : s.LeafPoint, s.Runs dom p → ∀ value, s.passUpIndex dom p = some value → q.Holds value

end LoopStage

/-- What the passes ask the analyzer: comparisons of constants, and whether a guard always
holds. -/
inductive LoopQuery (ν : Type) where
  | divisible (a b : ℤ)
  | less (a b : ℤ)
  | equal (a b : ℤ)
  | product (extent factor nparts : ℤ)
  | always (s : LoopStage ν) (dom : ConstDomMap ν) (q : BoundPred ν)

/-- The answer that is right. -/
def LoopQuery.Holds {ν : Type} [DecidableEq ν] : LoopQuery ν → Prop
  | .divisible a b => a.fmod b = 0
  | .less a b => a < b
  | .equal a b => a = b
  | .product extent factor nparts => extent = factor * nparts
  | .always s dom q => s.Always dom q

/-- The queries that an analyzer proves. -/
abbrev CanProve (ν : Type) := LoopQuery ν → Bool

/-- Only true facts are proved. -/
def CanProve.Sound {ν : Type} [DecidableEq ν] (canProve : CanProve ν) : Prop :=
  ∀ q, canProve q = true → q.Holds

namespace LoopStage

variable {ν : Type} [DecidableEq ν] (canProve : CanProve ν) (dom : ConstDomMap ν) (iv : ν)
  (s : LoopStage ν)

/-- The local `ceil_div` of `PassDownDomain`. -/
def ceilDiv (a b : ℤ) : ℤ :=
  if canProve (.divisible a b) then a.fdiv b else (a + (b - 1)).fdiv b

/-- The local `minimum_or_later`. -/
def minimumOrLater (a b : ℤ) : ℤ := if canProve (.less a b) then a else b

/-- `Update`: a new entry is stored, an old one has to agree with it. -/
def update (r : ConstRange) : Option (ConstDomMap ν) :=
  match dom iv with
  | none => some (Function.update dom iv (some r))
  | some old => if old.min = 0 ∧ canProve (.equal (r.extent - old.extent) 0) then some dom else none

/-- The extent of the loop that gets the number of a split.  It is tightened to the extent
of the parent, except for an empty parent. -/
def resolveMinExtent (extent n : ℤ) : ℤ :=
  if extent = 0 then n else minimumOrLater canProve extent n

/-- One relation of `PassDownDomain`. -/
def passDownDomainRel : IterVarRelation ν → Option (ConstDomMap ν)
  | .split parent outer inner size => do
    let range ← dom parent
    if (dom inner).isSome then none
    else match size with
      | .factor n => do
        let dom ← update canProve dom inner ⟨0, resolveMinExtent canProve range.extent n⟩
        update canProve dom outer ⟨0, ceilDiv canProve range.extent n⟩
      | .nparts n => do
        let dom ← update canProve dom outer ⟨0, resolveMinExtent canProve range.extent n⟩
        update canProve dom inner ⟨0, ceilDiv canProve range.extent n⟩
  | .fuse outer inner fused => do
    let rangeOuter ← dom outer
    let rangeInner ← dom inner
    some (Function.update dom fused (some ⟨0, rangeOuter.extent * rangeInner.extent⟩))
  | .rebase parent rebased => do
    let range ← dom parent
    update canProve dom rebased ⟨0, range.extent⟩

/-- One relation of `PassUpBoundCheck`: whether a variable may leave its domain. -/
def passUpBoundCheckRel (state : ν → Option Bool) : IterVarRelation ν → Option (ν → Option Bool)
  | .split parent outer inner _ => do
    let o ← state outer
    let i ← state inner
    match dom inner, dom outer with
    | some rangeInner, some rangeOuter =>
      let rangeParent ← dom parent
      some (Function.update state parent (some (o || i ||
        !canProve (.product rangeParent.extent rangeInner.extent rangeOuter.extent))))
    | _, _ => some (Function.update state parent (some true))
  | .fuse outer inner fused => do
    let f ← state fused
    some (Function.update (Function.update state outer (some f)) inner (some f))
  | .rebase parent rebased => do
    let f ← state rebased
    some (Function.update state parent (some f))

/-- `PassDownDomain`, starting from the ranges of the axes. -/
def passDownDomain (range : ν → ConstRange) : Option (ConstDomMap ν) :=
  s.relations.foldlM (passDownDomainRel canProve)
    (fun v => if v ∈ s.rootIterVars then some (range v) else none)

/-- A guard is left out when the analyzer proves that it always holds. -/
def guard (q : BoundPred ν) : List (BoundPred ν) :=
  if canProve (.always s dom q) then [] else [q]

/-- The check that one variable stays below the end of its domain. -/
def domainCheck (boundState : ν → Option Bool) (iv : ν) : Option (List (BoundPred ν)) := do
  let check ← boundState iv
  if check then do
    let r ← dom iv
    some (s.guard canProve dom (.lt iv r))
  else some []

/-- The checks that an axis stays in the domain it was declared with. -/
def ivarDomainCheck (declared : ν → ConstRange) (skipIvarDomain : Bool) (iv : ν) :
    Option (List (BoundPred ν)) := do
  let r ← dom iv
  let d := declared iv
  if skipIvarDomain || (canProve (.equal d.min r.min) && canProve (.equal d.extent r.extent)) then some []
  else some (s.guard canProve dom (.ge iv d) ++ s.guard canProve dom (.lt iv d))

/-- `MakeBoundCheck`, without variables to skip. -/
def makeBoundCheck (declared : ν → ConstRange)
    (skipIvarDomain : Bool) : Option (List (BoundPred ν)) := do
  let boundState ← s.relations.reverse.foldlM (passUpBoundCheckRel canProve dom)
    (fun v => if v ∈ s.leafIterVars then some false else none)
  let preds ← s.allIterVars.mapM (s.domainCheck canProve dom boundState)
  let domPreds ← s.rootIterVars.mapM (s.ivarDomainCheck canProve dom declared skipIvarDomain)
  some (preds.flatten ++ domPreds.flatten)

variable {ν : Type} (s : LoopStage ν) (r : IterVarRelation ν) (leaf : List ν)

/-- All variables of a stage. -/
def vars : List ν := s.rootIterVars ++ s.relations.flatMap IterVarRelation.makes

/-- Record a relation and replace the leaves. -/
def push : LoopStage ν :=
  { s with
    relations := s.relations ++ [r]
    leafIterVars := leaf
    allIterVars := s.allIterVars ++ r.listed }

/-- The stages that the loop transformations build from the axes of an operation: a
relation replaces neighbouring leaves by new loops. -/
inductive Built : LoopStage ν → Prop where
  | ofRoot {vs : List ν} (h : vs.Nodup) : Built ⟨vs, [], vs, vs⟩
  | push {s : LoopStage ν} {r : IterVarRelation ν} {l₁ l₂ : List ν} (hs : Built s)
      (hleaf : s.leafIterVars = l₁ ++ r.uses ++ l₂) (hnew : ∀ v ∈ r.makes, v ∉ s.vars)
      (hnodup : r.makes.Nodup) (hpos : r.Positive) : Built (s.push r (l₁ ++ r.makes ++ l₂))
  | reorder {s : LoopStage ν} {leaf : List ν} (hs : Built s) (h : leaf.Perm s.leafIterVars) :
      Built { s with leafIterVars := leaf }

/-! ## Variables of a stage -/

@[simp] theorem relations_push : (s.push r leaf).relations = s.relations ++ [r] := rfl

@[simp] theorem leafIterVars_push : (s.push r leaf).leafIterVars = leaf := rfl

@[simp] theorem allIterVars_push : (s.push r leaf).allIterVars = s.allIterVars ++ r.listed := rfl

@[simp] theorem vars_push : (s.push r leaf).vars = s.vars ++ r.makes := by
  simp [vars, push]

variable {s}

theorem mem_pushed_leaf {r : IterVarRelation ν} {l₁ l₂ : List ν} {v : ν}
    (hleaf : s.leafIterVars = l₁ ++ r.uses ++ l₂) (hv : v ∈ s.leafIterVars) (hu : v ∉ r.uses) :
    v ∈ (s.push r (l₁ ++ r.makes ++ l₂)).leafIterVars := by
  rw [hleaf] at hv
  simp only [mem_append, hu, or_false, leafIterVars_push] at hv ⊢
  rcases hv with hv | hv <;> simp [hv]

/-- Leaves are variables that no relation has replaced yet. -/
structure VarsOk (s : LoopStage ν) : Prop where
  nodup : s.leafIterVars.Nodup
  leaf_vars : ∀ v ∈ s.leafIterVars, v ∈ s.vars
  uses_vars : ∀ r ∈ s.relations, ∀ v ∈ r.uses, v ∈ s.vars
  makes_vars : ∀ r ∈ s.relations, ∀ v ∈ r.makes, v ∈ s.vars
  leaf_unused : ∀ r ∈ s.relations, ∀ v ∈ r.uses, v ∉ s.leafIterVars
  all_vars : ∀ v ∈ s.allIterVars, v ∈ s.vars
  root_all : ∀ v ∈ s.rootIterVars, v ∈ s.allIterVars

theorem Built.varsOk (h : s.Built) : s.VarsOk := by
  induction h with
  | ofRoot h => constructor <;> simp [vars, h]
  | @push s r l₁ l₂ hs hleaf hnew hnodup hpos ih =>
    have hsplit := ih.nodup
    rw [hleaf] at hsplit
    have hin : ∀ v, v ∈ l₁ ∨ v ∈ l₂ → v ∈ s.leafIterVars := by
      intro v hv
      rw [hleaf]
      rcases hv with hv | hv <;> simp [hv]
    have huses : ∀ v ∈ r.uses, v ∈ s.vars := fun v hv =>
      ih.leaf_vars v (by rw [hleaf]; simp [hv])
    have hcases : ∀ v ∈ l₁ ++ r.makes ++ l₂, v ∈ r.makes ∨ v ∈ l₁ ∨ v ∈ l₂ := by
      intro v hv
      simp only [mem_append] at hv
      tauto
    refine ⟨?_, ?_, ?_, ?_, ?_, ?_, fun v hv => mem_append_left _ (ih.root_all v hv)⟩
    · exact Lib.nodup_replace hsplit hnodup fun a ha => not_or.mp fun h =>
        hnew a ha (ih.leaf_vars a (hin a h))
    · intro v hv
      rw [vars_push]
      rcases hcases v hv with h | h
      · exact mem_append_right _ h
      · exact mem_append_left _ (ih.leaf_vars v (hin v h))
    · rw [vars_push]
      exact forall_mem_append.mpr
        ⟨fun r' hr' v hv => mem_append_left _ (ih.uses_vars r' hr' v hv),
          forall_mem_singleton.mpr fun v hv => mem_append_left _ (huses v hv)⟩
    · rw [vars_push]
      exact forall_mem_append.mpr
        ⟨fun r' hr' v hv => mem_append_left _ (ih.makes_vars r' hr' v hv),
          forall_mem_singleton.mpr fun v hv => mem_append_right _ hv⟩
    · refine forall_mem_append.mpr ⟨fun r' hr' v hv hl => ?_,
        forall_mem_singleton.mpr fun v hv hl => ?_⟩
      · rcases hcases v hl with h | h
        · exact hnew v h (ih.uses_vars r' hr' v hv)
        · exact ih.leaf_unused r' hr' v hv (hin v h)
      · rw [append_assoc, nodup_append, nodup_append] at hsplit
        rcases hcases v hl with h | h | h
        · exact hnew v h (huses v hv)
        · exact hsplit.2.2 v h v (mem_append_left _ hv) rfl
        · exact hsplit.2.1.2.2 v hv v h rfl
    · rw [vars_push]
      refine forall_mem_append.mpr ⟨fun v hv => mem_append_left _ (ih.all_vars v hv), ?_⟩
      intro v hv
      refine mem_append_right _ ?_
      cases r <;> simp_all [IterVarRelation.listed, IterVarRelation.makes]
  | @reorder s leaf hs h ih =>
    exact { ih with
      nodup := h.nodup_iff.mpr ih.nodup
      leaf_vars := fun v hv => ih.leaf_vars v (h.mem_iff.mp hv)
      leaf_unused := fun r hr v hv hl => ih.leaf_unused r hr v hv (h.mem_iff.mp hl) }

theorem VarsOk.nodup_uses {r : IterVarRelation ν} {l₁ l₂ : List ν} (h : s.VarsOk)
    (hleaf : s.leafIterVars = l₁ ++ r.uses ++ l₂) : r.uses.Nodup := by
  have := h.nodup
  rw [hleaf, append_assoc] at this
  exact (nodup_append.mp (nodup_append.mp this).2.1).1

end LoopStage

end Pruner.Te
