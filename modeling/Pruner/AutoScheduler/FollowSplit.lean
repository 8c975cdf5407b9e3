import Mathlib.Tactic.Ring
import Pruner.AutoScheduler.State

/-!
# The loops of a split that follows another

`follow_split` takes the first `n_split - 1` lengths of a split step and the product of the
others, and always splits from the inner side to the outer side.  The extents of a split are
described by two functions on optional numbers, so that lengths and ranges that are not known
yet are covered.  These are constants of fixed width in the source, so the model is exact as long
as the product of the lengths, and every extent plus a length, are in the range of their type.

## Main definitions

* `pieces` — how many pieces of a length cover an extent.
* `levelExtents`, `restExtent` — the extents that `splitLoop` gives and the one it leaves.
* `Follows` — the split that follows has the levels of its source.
-/

namespace Pruner.AutoScheduler

open List Option Int
open Tir (Range PrimExpr)

/-- The number of pieces of length `l` that cover an extent. -/
def pieces (e l : ℤ) : ℤ := (e + l - 1).fdiv l

theorem pieces_pieces {a b : ℤ} (ha : 0 < a) (hb : 0 < b) (e : ℤ) :
    pieces (pieces e a) b = pieces e (b * a) := by
  have hsum : e + b * a - 1 = e + a - 1 + (b - 1) * a := by ring
  simp only [pieces]
  rw [hsum, mul_comm b a, ← fdiv_fdiv_eq_fdiv_mul _ ha.le hb.le,
    add_mul_fdiv_right _ _ ha.ne', add_sub_assoc]

theorem pieces_mul {p : ℤ} (hp : 0 < p) (x : ℤ) : pieces (x * p) p = x := by
  rw [pieces, add_sub_assoc, add_comm, add_mul_fdiv_right _ _ hp.ne',
    fdiv_eq_zero_of_lt (by omega) (by omega), zero_add]

/-! ## Extents -/

/-- The extent that remains after one length. -/
def cutExtent (e l : Option ℤ) : Option ℤ := e.bind fun e => l.map (pieces e)

def restExtent (e : Option ℤ) (lengths : List (Option ℤ)) : Option ℤ := lengths.foldl cutExtent e

def levelExtents : Option ℤ → List (Option ℤ) → List (Option ℤ)
  | _, [] => []
  | e, l :: lengths => (e.bind fun _ => l) :: levelExtents (cutExtent e l) lengths

/-- The value of the extent of a range, under an assignment. -/
def extentOf (ρ : String → ℤ) (range : Option Range) : Option ℤ :=
  range.map fun r => r.extent.eval ρ

def extents (ρ : String → ℤ) (its : List Iterator) : List (Option ℤ) :=
  its.map fun it => extentOf ρ it.range

/-- The known lengths of a split are positive. -/
def Positive (lengths : List (Option ℤ)) : Prop := ∀ l, some l ∈ lengths → 0 < l

variable {lengths more : List (Option ℤ)} {e l : Option ℤ} (it : Iterator) {x : ℤ}
  {named : List (Option ℤ × String)}

theorem Positive.tail (h : Positive (l :: lengths)) : Positive lengths :=
  fun x hx => h x (mem_cons_of_mem l hx)

@[simp] theorem length_levelExtents : (levelExtents e lengths).length = lengths.length := by
  induction lengths generalizing e with
  | nil => rfl
  | cons l lengths ih => simp [levelExtents, ih]

theorem levelExtents_append : levelExtents e (lengths ++ more) =
    levelExtents e lengths ++ levelExtents (restExtent e lengths) more := by
  induction lengths generalizing e with
  | nil => rfl
  | cons l lengths ih => simp [levelExtents, restExtent, ih]

theorem restExtent_append :
    restExtent e (lengths ++ more) = restExtent (restExtent e lengths) more :=
  foldl_append

theorem foldlM_lengthProd (acc : ℤ) :
    lengths.foldlM (fun acc l => l.map (acc * ·)) acc = (lengthProd lengths).map (acc * ·) := by
  induction lengths generalizing acc with
  | nil => simp [lengthProd]
  | cons l lengths ih =>
    cases l with
    | none => rfl
    | some x =>
      show lengths.foldlM _ (acc * x) = Option.map (acc * ·) (lengths.foldlM _ (1 * x))
      rw [ih, ih, Option.map_map]
      congr 1
      funext p
      simp [mul_assoc]

theorem lengthProd_cons (l : Option ℤ) :
    lengthProd (l :: lengths) = l.bind fun x => (lengthProd lengths).map (x * ·) := by
  cases l with
  | none => rfl
  | some x => simp [lengthProd, foldlM_lengthProd x]

/-- **What a split from the inner side leaves** are the pieces of the product. -/
theorem restExtent_reverse (h : Positive lengths) (v : ℤ) :
    restExtent (some v) lengths.reverse = (lengthProd lengths).map (pieces v) ∧
      ∀ p, lengthProd lengths = some p → 0 < p := by
  induction lengths with
  | nil => simp [restExtent, lengthProd, pieces]
  | cons l lengths ih =>
    obtain ⟨hrest, hprod⟩ := ih h.tail
    rw [reverse_cons, restExtent_append, hrest, lengthProd_cons]
    cases l with
    | none => cases lengthProd lengths <;> simp [restExtent, cutExtent]
    | some x =>
      have hx : 0 < x := h x mem_cons_self
      cases hp : lengthProd lengths with
      | none => simp [restExtent, cutExtent]
      | some p =>
        have hp₀ := hprod p hp
        simp [restExtent, cutExtent, pieces_pieces hp₀ hx, Int.mul_pos hx hp₀]

theorem lengthProd_levelExtents (h : Positive lengths) (v : ℤ) :
    lengthProd (levelExtents (some v) lengths.reverse).reverse = lengthProd lengths := by
  induction lengths with
  | nil => rfl
  | cons l lengths ih =>
    rw [reverse_cons, levelExtents_append, (restExtent_reverse h.tail v).1]
    simp only [levelExtents, reverse_append, reverse_cons, reverse_nil, nil_append, cons_append,
      lengthProd_cons, ih h.tail]
    cases lengthProd lengths <;> simp

theorem exists_ceilDiv (extent : PrimExpr) (hx : x ≠ 0) :
    ∃ c, extent.ceilDiv (.intImm x) = some c := by
  simp only [PrimExpr.ceilDiv, PrimExpr.floordiv, PrimExpr.asIntImm_intImm]
  cases ((extent.add (.intImm x)).sub (.intImm 1)).asIntImm with
  | some y => exact ⟨_, if_neg hx⟩
  | none =>
    simp only [if_neg hx]
    split_ifs <;> exact ⟨_, rfl⟩

theorem eval_ceilDiv {extent c : PrimExpr} (h : extent.ceilDiv (.intImm x) = some c)
    (ρ : String → ℤ) : c.eval ρ = pieces (extent.eval ρ) x := by
  simp [PrimExpr.eval_floordiv ρ h, pieces]

theorem splitLoop_unknown {name : String} {range : Option Range} (h : l = none ∨ range = none) :
    splitLoop it range ((l, name) :: named) = (splitLoop it none named).map fun r =>
      (⟨name, none, it.iterKind, .kNone, []⟩ :: r.1, r.2) := by
  cases hl : l <;> cases hr : range <;> simp_all [splitLoop, map_eq_bind]

theorem splitLoop_extents {ls : List (Option ℤ)}
    (range : Option Range) (hls : named.map Prod.fst = ls) (h : Positive ls) :
    ∃ outs rest, splitLoop it range named = some (outs, rest) ∧
      ∀ ρ, extents ρ outs = levelExtents (extentOf ρ range) ls ∧
        extentOf ρ rest = restExtent (extentOf ρ range) ls := by
  subst hls
  induction named generalizing range with
  | nil => exact ⟨[], range, rfl, fun ρ => ⟨rfl, rfl⟩⟩
  | cons head named ih =>
    obtain ⟨l, name⟩ := head
    by_cases hunknown : l = none ∨ range = none
    · obtain ⟨outs, rest, hloop, hext⟩ := ih none h.tail
      refine ⟨_, rest, by rw [splitLoop_unknown it hunknown, hloop]; rfl, fun ρ => ?_⟩
      have hcut : cutExtent (extentOf ρ range) l = extentOf ρ none := by
        rcases hunknown with rfl | rfl <;> simp [cutExtent, extentOf]
      have hlevel : ((extentOf ρ range).bind fun _ => l) = none := by
        rcases hunknown with rfl | rfl <;> simp [extentOf]
      refine ⟨?_, (hext ρ).2.trans (congrArg (restExtent · _) hcut.symm)⟩
      simp only [map_cons, levelExtents, hcut, hlevel, ← (hext ρ).1]
      rfl
    · obtain ⟨x, rfl⟩ := ne_none_iff_exists'.mp fun hl => hunknown (.inl hl)
      obtain ⟨r, rfl⟩ := ne_none_iff_exists'.mp fun hr => hunknown (.inr hr)
      obtain ⟨c, hc⟩ := exists_ceilDiv r.extent (h x mem_cons_self).ne'
      obtain ⟨outs, rest, hloop, hext⟩ := ih (some ⟨.intImm 0, c⟩) h.tail
      refine ⟨⟨name, some ⟨r.min, .intImm x⟩, it.iterKind, .kNone, []⟩ :: outs, rest,
        by simp [splitLoop, hc, hloop], fun ρ => ?_⟩
      have hcut : cutExtent (extentOf ρ (some r)) (some x) = extentOf ρ (some ⟨.intImm 0, c⟩) := by
        simp [cutExtent, extentOf, eval_ceilDiv hc]
      refine ⟨?_, (hext ρ).2.trans (congrArg (restExtent · _) hcut.symm)⟩
      simp only [map_cons, levelExtents, hcut, ← (hext ρ).1]
      rfl

/-- **The extents of the iterators of a split**, from the outermost to the innermost. -/
theorem splitIterators_extents (h : Positive lengths) (innerToOuter : Bool) :
    ∃ outs, splitIterators it lengths innerToOuter = some outs ∧ ∀ ρ, extents ρ outs =
      if innerToOuter then
        restExtent (extentOf ρ it.range) lengths.reverse ::
          (levelExtents (extentOf ρ it.range) lengths.reverse).reverse
      else levelExtents (extentOf ρ it.range) lengths ++
        [restExtent (extentOf ρ it.range) lengths] := by
  have hfst : ∀ (ls : List (Option ℤ)) (name : ℕ → String),
      (ls.mapIdx fun i l => (l, name i)).map Prod.fst = ls := by
    intro ls name
    rw [mapIdx_eq_zipIdx_map, List.map_map]
    exact zipIdx_map_fst 0 ls
  cases innerToOuter with
  | true =>
    obtain ⟨outs, rest, houts, hext⟩ := splitLoop_extents it it.range (hfst lengths.reverse
      fun i => it.name ++ "." ++ toString (lengths.length - i)) fun l hl => h l (mem_reverse.mp hl)
    refine ⟨_, by simp only [splitIterators, reduceIte, houts]; rfl, fun ρ => ?_⟩
    simp [extents, ← (hext ρ).1, ← (hext ρ).2]
  | false =>
    obtain ⟨outs, rest, houts, hext⟩ := splitLoop_extents it it.range
      (hfst lengths fun i => it.name ++ "." ++ toString i) h
    refine ⟨_, by simp only [splitIterators, Bool.false_eq_true, reduceIte, houts]; rfl,
      fun ρ => ?_⟩
    simp [extents, ← (hext ρ).1, ← (hext ρ).2]

/-! ## The split that follows -/

/-- A state with one stage, which has one loop, and a history. -/
def oneLoop (steps : List Step) (it : Iterator) : State where
  stages := [{ (Stage.ofOp default) with iters := [it] }]
  transformSteps := steps
  attachMap := Lib.TwoWayMap.empty
  currentComputeDag := none
  concrete := true

/-- The loops that a step makes of one loop. -/
def loopsOf (dag : ComputeDAG) (steps : List Step) (it : Iterator) (step : Step) :
    Option (List Iterator) :=
  (stepApplyToState dag 0 (oneLoop steps it) step).map fun st => st.stages.flatMap Stage.iters

/-- A `follow_split` of `n` levels on an iterator gives the first `n` extents that the split at
a position of the history gives on an iterator with an equal extent, and one that covers the
product of the others. -/
def Follows (dag : ComputeDAG) (steps : List Step) (src : ℤ) (lengths : List (Option ℤ)) (innerToOuter : Bool)
    (n : ℕ) : Prop :=
  ∀ (it it' : Iterator) (r r' : Range), it.range = some r → it'.range = some r' →
    (∀ ρ, r.extent.eval ρ = r'.extent.eval ρ) → ∃ levels followed,
      loopsOf dag steps it (.splitStep 0 0 none lengths innerToOuter) = some levels ∧
      loopsOf dag steps it' (.followSplitStep 0 0 src n) = some followed ∧
      ∀ ρ, extents ρ followed =
        (extents ρ levels).take n ++ [lengthProd ((extents ρ levels).drop n)]

variable {steps : List Step} {i : ℕ} {s iter : ℤ} {extent : Option ℤ} {innerToOuter : Bool}

theorem applySplit_oneLoop (steps : List Step) (it : Iterator) (lengths : List (Option ℤ))
    (io : Bool) :
    ((applySplitToState (oneLoop steps it) 0 0 lengths io).map fun st =>
      st.stages.flatMap Stage.iters) = splitIterators it lengths io := by
  have hat : atIndex [it] (0 : ℤ) = some it := rfl
  obtain ⟨m, hm⟩ : ∃ m, AttachMap.updateIters Lib.TwoWayMap.empty
      ((splitKeys 0 0 lengths.length 1).map Prod.fst)
      ((splitKeys 0 0 lengths.length 1).map Prod.snd) = some m := ⟨_, rfl⟩
  cases h : splitIterators it lengths io with
  | none => simp [applySplitToState, oneLoop, hat, h]
  | some outs => simp [applySplitToState, oneLoop, hat, h, hm, State.setStage, replaceSlice]

variable (dag : ComputeDAG)

theorem loopsOf_splitStep :
    loopsOf dag steps it (.splitStep 0 0 extent lengths innerToOuter) =
      splitIterators it lengths innerToOuter :=
  applySplit_oneLoop steps it lengths innerToOuter

/-- The split that follows goes from the inner to the outer side. -/
theorem loopsOf_followSplitStep (src n : ℤ) : loopsOf dag steps it (.followSplitStep 0 0 src n) =
      (extractSplitLengths steps src n).bind fun ls => splitIterators it ls true := by
  have hsteps : (oneLoop steps it).transformSteps = steps := rfl
  cases h : extractSplitLengths steps src n with
  | none => simp [loopsOf, stepApplyToState, hsteps, h]
  | some ls =>
    simp only [loopsOf, stepApplyToState, hsteps, h, bind_eq_bind, bind_some]
    exact applySplit_oneLoop steps it ls true

theorem reverse_eq_drop_take (l : List (Option ℤ)) (j : ℕ) :
    l.reverse = (l.drop j).reverse ++ (l.take j).reverse := by
  rw [← reverse_append, take_append_drop]

theorem extractSplitLengths_split
    (hsrc : steps[i]? = some (.splitStep s iter extent lengths innerToOuter))
    (hj : j ≤ lengths.length) : extractSplitLengths steps i (j + 1 : ℕ) =
      some (lengths.take j ++ [lengthProd (lengths.drop j)]) := by
  have hat : splitLengthsAt steps i = some lengths := by
    unfold splitLengthsAt
    exact bind_eq_some_iff.mpr ⟨i, mem_toNat?.mpr rfl, by rw [hsrc]⟩
  have hle : (0 : ℤ) ≤ (j + 1 : ℕ) ∧ ((j + 1 : ℕ) : ℤ) ≤ lengths.length + 1 := by omega
  simp only [extractSplitLengths, hat, bind_eq_bind, bind_some, if_pos hle]
  simp

theorem followed_extents (h : Positive lengths)
    (hsrc : steps[i]? = some (.splitStep s iter extent lengths innerToOuter))
    (hj : j ≤ lengths.length) {it : Iterator} {r : Range} (hr : it.range = some r) :
    ∃ followed, ((extractSplitLengths steps i (j + 1 : ℕ)).bind fun ls =>
        splitIterators it ls true) = some followed ∧
      ∀ ρ, extents ρ followed = restExtent (some (r.extent.eval ρ)) lengths.reverse ::
        (levelExtents (restExtent (some (r.extent.eval ρ)) (lengths.drop j).reverse)
          (lengths.take j).reverse).reverse ++ [lengthProd (lengths.drop j)] := by
  have hdrop : Positive (lengths.drop j) := fun l hl => h l (mem_of_mem_drop hl)
  have hpos : Positive (lengths.take j ++ [lengthProd (lengths.drop j)]) := by
    intro l hl
    rcases mem_append.mp hl with hl | hl
    · exact h l (mem_of_mem_take hl)
    · exact (restExtent_reverse hdrop 0).2 l (mem_singleton.mp hl).symm
  obtain ⟨followed, hsplit, hext⟩ := splitIterators_extents it hpos true
  refine ⟨followed, by rw [extractSplitLengths_split hsrc hj]; exact hsplit, fun ρ => ?_⟩
  have hcut : cutExtent (some (r.extent.eval ρ)) (lengthProd (lengths.drop j)) =
      restExtent (some (r.extent.eval ρ)) (lengths.drop j).reverse := by
    rw [(restExtent_reverse hdrop _).1]
    rfl
  rw [hext ρ, if_pos rfl, hr, reverse_eq_drop_take lengths j, restExtent_append, ← hcut]
  simp [extentOf, restExtent, levelExtents]

/-- **When a split that follows has the levels of its source**: the source splits from the inner
to the outer side, or has no length at all. -/
theorem follows_iff {dag : ComputeDAG} {steps : List Step} {lengths : List (Option ℤ)} {i n : ℕ} {s iter : ℤ}
    {extent : Option ℤ} {innerToOuter : Bool}
    (hsrc : steps[i]? = some (.splitStep s iter extent lengths innerToOuter))
    (hpos : Positive lengths) (hn : 1 ≤ n) (hn' : n ≤ lengths.length + 1)
    (hfirst : innerToOuter = true ∨ lengths.head? ≠ some none) :
    Follows dag steps i lengths innerToOuter n ↔ innerToOuter = true ∨ lengths = [] := by
  obtain ⟨j, rfl⟩ : ∃ j, n = j + 1 := ⟨n - 1, by omega⟩
  have hj : j ≤ lengths.length := by omega
  simp only [Follows, loopsOf_splitStep, loopsOf_followSplitStep]
  constructor
  · intro hfollow
    by_contra hnot
    obtain ⟨hfalse, hne⟩ := not_or.mp hnot
    have hdir : innerToOuter = false := Bool.eq_false_of_not_eq_true hfalse
    obtain ⟨l, rest, rfl⟩ := exists_cons_of_ne_nil hne
    cases l with
    | none => exact hfirst.elim hfalse (· rfl)
    | some x =>
      -- the source has `x` outside, and the split that follows the pieces of the product
      let v := (x + 1) * (lengthProd (some x :: rest)).getD 1
      let it : Iterator := ⟨"", some ⟨.intImm 0, .intImm v⟩, .kSpatial, .kNone, []⟩
      obtain ⟨levels, followed, hlevels, hfollowed, heq⟩ := hfollow it it _ _ rfl rfl fun _ => rfl
      obtain ⟨levels', hlevels', hext⟩ := splitIterators_extents it hpos innerToOuter
      obtain ⟨followed', hfollowed', hext'⟩ :=
        followed_extents hpos hsrc hj (show it.range = some ⟨.intImm 0, .intImm v⟩ from rfl)
      cases hlevels'.symm.trans hlevels
      cases hfollowed'.symm.trans hfollowed
      have hhead := congrArg head? (heq fun _ => 0)
      rw [hext, hext', hdir, (restExtent_reverse hpos _).1] at hhead
      cases hp : lengthProd (some x :: rest) with
      | none => simp [hp, levelExtents, extentOf, it] at hhead
      | some p =>
        have hp₀ := (restExtent_reverse hpos 0).2 p hp
        simp [hp, levelExtents, extentOf, it, v, pieces_mul hp₀] at hhead
  · intro hcond it it' r r' hr hr' hval
    obtain ⟨levels, hlevels, hext⟩ := splitIterators_extents it hpos innerToOuter
    obtain ⟨followed, hfollowed, hext'⟩ := followed_extents hpos hsrc hj hr'
    refine ⟨levels, followed, hlevels, hfollowed, fun ρ => ?_⟩
    rw [hext, hext', ← hval ρ, hr]
    rcases hcond with rfl | rfl
    · have hprod := lengthProd_levelExtents (fun l hl => hpos l (mem_of_mem_drop hl) :
        Positive (lengths.drop j)) (r.extent.eval ρ)
      rw [if_pos rfl, ← hprod]
      simp only [extentOf, map_some]
      generalize restExtent (some (r.extent.eval ρ)) lengths.reverse = outer
      rw [reverse_eq_drop_take lengths j, levelExtents_append, reverse_append, ← cons_append,
        take_left']
      · simp [hj]
      · simp [hj]
    · have hzero : j = 0 := by simpa using hj
      cases innerToOuter <;> simp [hzero, levelExtents, restExtent, extentOf, lengthProd]

theorem follows_inner : Follows default [.splitStep 0 0 (some 24) [some 2, some 3] true] (0 : ℕ)
    [some 2, some 3] true 2 :=
  (@follows_iff _ _ _ 0 2 0 0 (some 24) true rfl (by simp [Positive]) (by decide) (by decide)
    (.inl rfl)).mpr (.inl rfl)

/-- A loop of extent 8 that is split into 2 and 4 from the outer side, and one that follows. -/
theorem follows_outer :
    let it : Iterator := ⟨"i", some ⟨.intImm 0, .intImm 8⟩, .kSpatial, .kNone, []⟩
    let source := Step.splitStep 0 0 (some 8) [some 2] false
    (loopsOf default [] it source).map (extents fun _ => 0) = some [some 2, some 4] ∧
      (loopsOf default [source] it (.followSplitStep 0 0 0 1)).map (extents fun _ => 0) =
        some [some 4, some 2] := by
  decide +kernel

end Pruner.AutoScheduler
