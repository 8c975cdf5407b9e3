import Mathlib.Algebra.BigOperators.Ring.List
import Mathlib.Data.List.GetD
import Mathlib.Data.List.Nodup
import Pruner.Arith.IterAffineMap
import Pruner.Lib.MixedRadix
import Pruner.Lib.RadixChain

/-!
# Values of iterator marks and of sums of splits

Rewriting only adds marks, so what has been rewritten keeps its value.  The value of a
fused mark is the number that its splits denote, as digits.  Every operator on sums of
splits keeps the value.

## Main definitions

* `MarksOk` — fused marks are sums of digits over earlier marks.
* `markValue_lt` — the value of a mark is below its extent.
* `startPoint` — the first point of the iteration domain, where all marks are zero.
* `ArgsOk`, `IterMapExpr.Ok` — the splits of a rewritten expression are well formed.
-/

namespace Pruner.Arith

open Tir Lib List IterSplitExpr IterMapExpr IterSumExpr

variable {e : IterSplitExpr} {i : ℕ} {m : IterMark} {iters : InputIters}
  {args : List IterSplitExpr} {sign : ℤ} {lhs : IterSumExpr} {a b : IterMapExpr}

/-! ## Values of marks -/

section

variable {ρ : String → ℤ} {marks marks' : List IterMark}

/-- A split is made of a mark in the table, with positive factors. -/
structure SplitOk (n : ℕ) (e : IterSplitExpr) : Prop where
  source_lt : e.source < n
  lowerFactor_pos : 0 < e.lowerFactor
  extent_pos : 0 < e.extent

theorem SplitOk.mono {n n' : ℕ} (h : SplitOk n e) (hn : n ≤ n') : SplitOk n' e :=
  ⟨h.source_lt.trans_le hn, h.lowerFactor_pos, h.extent_pos⟩

/-- A split takes the values `0 ≤ v < extent`, whatever its mark is worth. -/
theorem SplitOk.digit_bounds {n : ℕ} (h : SplitOk n e) (vals : List ℤ) :
    0 ≤ e.digit vals ∧ e.digit vals < e.extent :=
  ⟨Int.fmod_nonneg_of_pos _ h.extent_pos, Int.fmod_lt_of_pos _ h.extent_pos⟩

/-- A longer table keeps the values of the marks. -/
theorem getD_markValues_extend (h : marks <+: marks') (hi : i < marks.length) :
    (markValues ρ marks').getD i 0 = (markValues ρ marks).getD i 0 := by
  obtain ⟨more, rfl⟩ := h
  obtain ⟨rest, hrest⟩ := nodeValues_append (fun vals (m : IterMark) => m.source.eval ρ vals)
    marks more
  rw [markValues, ← hrest]
  exact getD_append _ _ _ _ (by simpa using hi)

/-- Marks added later do not change the value of a split. -/
theorem digit_extend (h : marks <+: marks') (he : SplitOk marks.length e) :
    e.digit (markValues ρ marks') = e.digit (markValues ρ marks) := by
  rw [digit, getD_markValues_extend h he.source_lt, digit]

/-- What has been rewritten keeps its value. -/
theorem eval_extend (h : marks <+: marks') {e : IterSumExpr}
    (he : ∀ s ∈ e.args, SplitOk marks.length s) :
    e.eval (markValues ρ marks') = e.eval (markValues ρ marks) := by
  have hargs : e.args.map (·.eval (markValues ρ marks')) =
      e.args.map (·.eval (markValues ρ marks)) := by
    refine map_congr_left fun s hs => ?_
    simp [IterSplitExpr.eval, digit_extend h (he s hs)]
  rw [IterSumExpr.eval, hargs, IterSumExpr.eval]

theorem IterSumExpr.eval_eq_weighted (e : IterSumExpr) (vals : List ℤ) :
    e.eval vals = weighted (·.scale) (·.digit vals) e.args + e.base := rfl

/-- A mark is an iterator with its range, or a sum whose splits are digits. -/
def MarkOk (iters : InputIters) (i : ℕ) (m : IterMark) : Prop :=
  match m.source with
  | .iter x min => (x, ⟨min, m.extent⟩) ∈ iters.ranges
  | .sum e => e.base = 0 ∧ (∀ s ∈ e.args, SplitOk i s) ∧
      IsChain (·.scale) (·.extent) 1 e.args.reverse m.extent

/-- All marks of a table are well formed. -/
def MarksOk (iters : InputIters) (marks : List IterMark) : Prop :=
  ∀ i m, marks[i]? = some m → MarkOk iters i m

theorem length_take_of_getElem? (h : marks[i]? = some m) : (marks.take i).length = i := by
  have := (List.getElem?_eq_some_iff.mp h).1
  simp only [length_take]
  omega

/-- A mark is worth the value of its source, computed from the marks before it. -/
theorem getD_markValues (h : marks[i]? = some m) :
    (markValues ρ marks).getD i 0 = m.source.eval ρ (markValues ρ (marks.take i)) := by
  rw [getD_eq_getElem?_getD, markValues, getElem?_nodeValues _ h]
  rfl

theorem getD_markValues_sum (hm : MarksOk iters marks) {e : IterSumExpr} {extent : ℤ}
    (h : marks[i]? = some ⟨.sum e, extent⟩) :
    (markValues ρ marks).getD i 0 = e.eval (markValues ρ marks) := by
  have hok : MarkOk iters i ⟨.sum e, extent⟩ := hm i _ h
  rw [getD_markValues h]
  refine (eval_extend ( take_prefix i marks) ?_).symm
  rw [length_take_of_getElem? h]
  exact hok.2.1

variable (hm : MarksOk iters marks) (hρ : InDomain iters ρ) (h : marks[i]? = some m)
include hm hρ h

/-- **The value of a mark is below its extent.** -/
theorem markValue_lt :
    0 ≤ (markValues ρ marks).getD i 0 ∧ (markValues ρ marks).getD i 0 < m.extent := by
  obtain ⟨source, extent⟩ := m
  cases source with
  | iter x min =>
    have hrange := hρ _ (hm i _ h)
    simp only [ConstRange.Has] at hrange
    rw [getD_markValues h]
    simp only [MarkSource.eval]
    omega
  | sum e =>
    obtain ⟨hbase, hargs, hchain⟩ := hm i _ h
    have hbound := hchain.weighted_lt one_pos (d := (·.digit (markValues ρ marks)))
      fun s hs => (hargs s (mem_reverse.mp hs)).digit_bounds _
    rw [weighted_eq_of_perm _ _ (reverse_perm e.args)] at hbound
    rw [getD_markValues_sum hm h, eval_eq_weighted]
    exact ⟨by omega, by omega⟩

theorem digit_ofMark (scale : ℤ) :
    (ofMark i m.extent scale).digit (markValues ρ marks) = (markValues ρ marks).getD i 0 := by
  have hlt := markValue_lt hm hρ h
  simp only [ofMark, digit, Int.fdiv_one]
  exact Int.fmod_eq_of_lt hlt.1 hlt.2

end

/-! ## The first point of the domain -/

/-- The point where all iterators have their first value. -/
def startPoint (iters : InputIters) (x : String) : ℤ :=
  match iters.ranges.find? fun it => it.1 = x with
  | some it => it.2.min
  | none => 0

theorem startPoint_of_mem {x : String} {r : ConstRange} (h : (x, r) ∈ iters.ranges) :
    startPoint iters x = r.min := by
  unfold startPoint
  cases hfind : iters.ranges.find? fun it => it.1 = x with
  | none => simpa using find?_eq_none.mp hfind _ h
  | some it =>
    have hx : it.1 = x := by simpa using find?_some hfind
    have hsame : it = (x, r) := inj_on_of_nodup_map iters.nodup (mem_of_find?_eq_some hfind) h hx
    rw [hsame]

/-- The point where each iterator has its least value lies in the domain. -/
theorem startPoint_inDomain (hpos : ∀ it ∈ iters.ranges, 0 < it.2.extent) :
    InDomain iters (startPoint iters) := by
  intro it hit
  have := hpos it hit
  rw [startPoint_of_mem hit]
  exact ⟨le_rfl, by omega⟩

theorem extent_pos_of_inDomain {ρ : String → ℤ} (hρ : InDomain iters ρ) :
    ∀ it ∈ iters.ranges, 0 < it.2.extent := by
  intro it hit
  have := hρ it hit
  simp only [ConstRange.Has] at this
  omega

theorem IterSumExpr.eval_eq_zero {e : IterSumExpr} {vals : List ℤ} (hbase : e.base = 0)
    (h : ∀ s ∈ e.args, vals.getD s.source 0 = 0) : e.eval vals = 0 := by
  have hzero : ∀ s ∈ e.args, s.eval vals = 0 := by
    intro s hs
    simp only [IterSplitExpr.eval, digit, h s hs, Int.zero_fdiv, Int.zero_fmod, zero_mul]
  rw [IterSumExpr.eval, hbase, map_congr_left hzero]
  simp

/-- Every mark is worth `0` at the least point. -/
theorem getD_markValues_start {marks : List IterMark} (hm : MarksOk iters marks) (i : ℕ) :
    (markValues (startPoint iters) marks).getD i 0 = 0 := by
  induction i using Nat.strongRecOn with
  | ind i ih =>
    cases h : marks[i]? with
    | none =>
      have hlen : marks.length ≤ i := getElem?_eq_none_iff.mp h
      exact getD_eq_default _ _ (by simpa [markValues] using hlen)
    | some m =>
      obtain ⟨source, extent⟩ := m
      cases source with
      | iter x min =>
        rw [getD_markValues h]
        simp [MarkSource.eval, startPoint_of_mem (hm i _ h)]
      | sum e =>
        obtain ⟨hbase, hargs, -⟩ := hm i _ h
        rw [getD_markValues_sum hm h]
        exact eval_eq_zero hbase fun s hs => ih _ (hargs s hs).source_lt

/-! ## Operators on sums of splits -/

variable (c : ℤ) {n : ℕ} {pos : Bool} {vals : List ℤ}

/-- The splits of a rewritten expression are well formed; with `pos`, they have positive
scales. -/
def ArgsOk (n : ℕ) (pos : Bool) (args : List IterSplitExpr) : Prop :=
  ∀ s ∈ args, SplitOk n s ∧ (pos = true → 0 < s.scale)

theorem ArgsOk.mono {n' : ℕ} (h : ArgsOk n pos args) (hn : n ≤ n') : ArgsOk n' pos args :=
  fun s hs => ⟨(h s hs).1.mono hn, (h s hs).2⟩

namespace IterSumExpr

/-- Adding a split to the arguments adds its value, also where it merges with an equal split. -/
theorem sum_eval_addToArgs (rhs : IterSplitExpr) (sign : ℤ) (args : List IterSplitExpr) :
    ((addToArgs rhs sign args).map (·.eval vals)).sum =
      (args.map (·.eval vals)).sum + if sign > 0 then rhs.eval vals else -rhs.eval vals := by
  induction args with
  | nil =>
    by_cases hs : sign > 0 <;>
      simp [addToArgs, hs, IterSplitExpr.eval, digit]
  | cons lvalue args ih =>
    rw [addToArgs]
    split
    · next h =>
        have hdigit : lvalue.digit vals = rhs.digit vals := by
          simp [digit, h.1, h.2.1, h.2.2]
        by_cases hs : sign > 0
        · simp only [hs, if_true, map_cons, sum_cons, IterSplitExpr.eval, hdigit]
          simp only [digit]
          ring
        · simp only [hs, if_false, map_cons, sum_cons, IterSplitExpr.eval, hdigit]
          simp only [digit]
          ring
    · simp only [map_cons, sum_cons, ih]
      ring

theorem eval_addSplit (lhs : IterSumExpr) (rhs : IterSplitExpr) (sign : ℤ) :
    (lhs.addSplit rhs sign).eval vals =
      lhs.eval vals + if sign > 0 then rhs.eval vals else -rhs.eval vals := by
  simp only [eval, addSplit, sum_eval_addToArgs]
  ring

theorem eval_foldl_addSplit (vals : List ℤ) (lhs : IterSumExpr) (args : List IterSplitExpr)
    (sign : ℤ) :
    (args.foldl (fun ret arg => ret.addSplit arg sign) lhs).eval vals =
      lhs.eval vals + if sign > 0 then (args.map (·.eval vals)).sum
        else -(args.map (·.eval vals)).sum := by
  induction args generalizing lhs with
  | nil => simp
  | cons arg args ih =>
    rw [foldl_cons, ih, eval_addSplit, map_cons, sum_cons]
    split <;> ring

/-- `AddToLhs` adds the value of the other expression, times the sign. -/
theorem eval_addExpr (lhs : IterSumExpr) (sign : ℤ) (b : IterMapExpr) :
    (lhs.addExpr sign b).eval vals = lhs.eval vals +
      if sign > 0 then b.toIterSumExpr.eval vals else -b.toIterSumExpr.eval vals := by
  cases b with
  | intImm c =>
    simp only [addExpr, toIterSumExpr, eval, map_nil, sum_nil]
    split <;> ring
  | split rhs =>
    have hsplit : (split rhs).toIterSumExpr.eval vals = rhs.eval vals := by
      simp [toIterSumExpr, eval]
    rw [addExpr, eval_addSplit, hsplit]
  | sum rhs =>
    have hfold := eval_foldl_addSplit vals lhs rhs.args sign
    simp only [eval] at hfold
    simp only [addExpr, addSum, toIterSumExpr, eval]
    split <;> simp_all <;> linarith

/-- Adding a split keeps the arguments well formed; scales stay positive where nothing is subtracted. -/
theorem argsOk_addToArgs {rhs : IterSplitExpr} (hargs : ArgsOk n pos args) (hrhs : SplitOk n rhs)
    (hpos : pos = true → sign > 0 ∧ 0 < rhs.scale) : ArgsOk n pos (addToArgs rhs sign args) := by
  induction args with
  | nil =>
    intro s hs
    simp only [addToArgs, mem_singleton] at hs
    subst hs
    constructor
    · split
      · exact hrhs
      · exact ⟨hrhs.source_lt, hrhs.lowerFactor_pos, hrhs.extent_pos⟩
    · intro hp
      rw [if_pos (hpos hp).1]
      exact (hpos hp).2
  | cons lvalue args ih =>
    have hl := hargs lvalue mem_cons_self
    have hrest : ArgsOk n pos args := (forall_mem_cons.mp hargs).2
    rw [addToArgs]
    split
    · intro s hs
      rcases mem_cons.mp hs with rfl | hs
      · refine ⟨⟨hrhs.source_lt, hrhs.lowerFactor_pos, hrhs.extent_pos⟩, fun hp => ?_⟩
        have := hl.2 hp
        have := hpos hp
        simp only [this.1, if_true]
        omega
      · exact hrest s hs
    · exact forall_mem_cons.mpr ⟨hl, ih hrest⟩

theorem argsOk_foldl_addSplit (hlhs : ArgsOk n pos lhs.args) (hargs : ArgsOk n pos args)
    (hpos : pos = true → sign > 0) :
    ArgsOk n pos (args.foldl (fun ret arg => ret.addSplit arg sign) lhs).args := by
  induction args generalizing lhs with
  | nil => exact hlhs
  | cons arg args ih =>
    have harg := hargs arg mem_cons_self
    refine ih ?_ (forall_mem_cons.mp hargs).2
    exact argsOk_addToArgs hlhs harg.1 fun hp => ⟨hpos hp, harg.2 hp⟩

theorem argsOk_addExpr (hlhs : ArgsOk n pos lhs.args) (hb : ArgsOk n pos b.toIterSumExpr.args)
    (hpos : pos = true → sign > 0 ∨ b.toIterSumExpr.args = []) :
    ArgsOk n pos (lhs.addExpr sign b).args := by
  cases b with
  | intImm c => exact hlhs
  | split rhs =>
    have hrhs := hb rhs (by simp [toIterSumExpr])
    exact argsOk_addToArgs hlhs hrhs.1 fun hp =>
      ⟨(hpos hp).resolve_right (by simp [toIterSumExpr]), hrhs.2 hp⟩
  | sum rhs =>
    by_cases hnil : rhs.args = []
    · simpa [addExpr, addSum, hnil] using hlhs
    · exact argsOk_foldl_addSplit hlhs hb fun hp => (hpos hp).resolve_right hnil

theorem eval_mulToLhs (lhs : IterSumExpr) (c : ℤ) :
    (lhs.mulToLhs c).eval vals = lhs.eval vals * c := by
  have hsum : ((lhs.mulToLhs c).args.map (·.eval vals)).sum =
      (lhs.args.map (·.eval vals)).sum * c := by
    rw [← sum_map_mul_right]
    simp only [mulToLhs, map_map]
    congr 1
    refine map_congr_left fun s _ => ?_
    simp only [Function.comp, IterSplitExpr.eval, digit]
    ring
  rw [eval, hsum, eval]
  simp only [mulToLhs]
  ring

/-- `MulToLhs` keeps the arguments well formed, and positive scales positive for a positive factor. -/
theorem argsOk_mulToLhs {c : ℤ} (h : ArgsOk n pos lhs.args)
    (hc : pos = true → 0 < c) : ArgsOk n pos (lhs.mulToLhs c).args := by
  intro s hs
  simp only [mulToLhs, mem_map] at hs
  obtain ⟨e, he, rfl⟩ := hs
  have hok := h e he
  exact ⟨⟨hok.1.source_lt, hok.1.lowerFactor_pos, hok.1.extent_pos⟩, fun hp =>
    mul_pos (hok.2 hp) (hc hp)⟩

end IterSumExpr

/-- The value of a rewritten expression. -/
def IterMapExpr.eval (vals : List ℤ) (e : IterMapExpr) : ℤ := e.toIterSumExpr.eval vals

@[simp] theorem IterMapExpr.eval_intImm : (IterMapExpr.intImm c).eval vals = c := by
  simp [eval, toIterSumExpr, IterSumExpr.eval]

@[simp] theorem IterMapExpr.eval_split (e : IterSplitExpr) :
    (IterMapExpr.split e).eval vals = e.eval vals := by
  simp [eval, toIterSumExpr, IterSumExpr.eval]

/-- The splits of a rewritten expression are well formed. -/
def IterMapExpr.Ok (n : ℕ) (pos : Bool) (e : IterMapExpr) : Prop :=
  ArgsOk n pos e.toIterSumExpr.args

theorem IterMapExpr.Ok.intImm : (IterMapExpr.intImm c).Ok n pos := by
  intro s hs
  simp [toIterSumExpr] at hs

theorem IterMapExpr.Ok.split (h : SplitOk n e)
    (hpos : pos = true → 0 < e.scale) : (IterMapExpr.split e).Ok n pos := by
  intro s hs
  simp only [toIterSumExpr, mem_singleton] at hs
  exact hs ▸ ⟨h, hpos⟩

namespace IterMapExpr

theorem eval_add (a b : IterMapExpr) : (a.add b).eval vals = a.eval vals + b.eval vals := by
  unfold add
  split
  · simp
  · split
    · next h => simp [h]
    · split
      · next h => simp [h]
      · simp [eval, toIterSumExpr, eval_addExpr]

theorem eval_sub (a b : IterMapExpr) : (a.sub b).eval vals = a.eval vals - b.eval vals := by
  unfold sub
  split
  · simp
  · split
    · next h => simp [h]
    · simp only [eval, toIterSumExpr, eval_addExpr]
      simp [sub_eq_add_neg]

theorem eval_scaleBy (a : IterMapExpr) : (a.scaleBy c).eval vals = a.eval vals * c := by
  cases a with
  | intImm x => simp [scaleBy]
  | split e =>
    by_cases h1 : c = 1
    · simp [scaleBy, h1]
    · by_cases h0 : c = 0
      · simp [scaleBy, h0]
      · simp only [scaleBy, h1, h0, if_false, eval_split, IterSplitExpr.eval, digit]
        ring
  | sum e =>
    by_cases h1 : c = 1
    · simp [scaleBy, h1]
    · by_cases h0 : c = 0
      · simp [scaleBy, h0]
      · simp only [scaleBy, h1, h0, if_false]
        exact eval_mulToLhs e c

theorem mul_intImm (a : IterMapExpr) (c : ℤ) : a.mul (.intImm c) = some (a.scaleBy c) := by
  cases a with
  | intImm x => simp [mul, scaleBy, mul_comm]
  | split e | sum e => rfl

theorem Ok.add (ha : a.Ok n pos) (hb : b.Ok n pos) : (a.add b).Ok n pos := by
  unfold IterMapExpr.add
  split
  · exact .intImm _
  · split
    · exact hb
    · split
      · exact ha
      · exact argsOk_addExpr ha hb fun _ => .inl one_pos

theorem Ok.sub (ha : a.Ok n pos) (hb : b.Ok n pos)
    (hpos : pos = true → ∃ c, b = .intImm c) : (a.sub b).Ok n pos := by
  unfold IterMapExpr.sub
  split
  · exact .intImm _
  · split
    · exact ha
    · refine argsOk_addExpr ha hb fun hp => .inr ?_
      obtain ⟨c, rfl⟩ := hpos hp
      rfl

theorem Ok.scaleBy {c : ℤ} (ha : a.Ok n pos) (hc : pos = true → 0 < c) :
    (a.scaleBy c).Ok n pos := by
  by_cases h1 : c = 1
  · cases a <;> simpa [scaleBy, h1] using ha
  by_cases h0 : c = 0
  · cases a <;> simpa [scaleBy, h0] using Ok.intImm 0
  cases a with
  | intImm x => exact .intImm _
  | split e =>
    have he := ha e (by simp [toIterSumExpr])
    simp only [scaleBy, h1, h0, if_false]
    exact .split ⟨he.1.source_lt, he.1.lowerFactor_pos, he.1.extent_pos⟩ fun hp =>
      mul_pos (he.2 hp) (hc hp)
  | sum e =>
    simp only [scaleBy, h1, h0, if_false]
    exact argsOk_mulToLhs ha hc

end IterMapExpr

end Pruner.Arith
