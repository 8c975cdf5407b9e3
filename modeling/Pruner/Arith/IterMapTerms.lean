import Pruner.Arith.IterMapValue
import Pruner.Lib.PartialRun

/-!
# The terms of an index

An index expression is a linear combination of terms: iterators, divisions and modulos.
Rewriting a term again gives what it gave before, because every sum that has been fused is
found in `sum_fuse_map_`; so the splits of equal terms are merged.  Only an expression with
two different terms is rewritten to more than one split, and has to be fused.

## Main definitions

* `IsIndex pos` — the index expressions; with `pos`, all factors are positive.
* `terms`, `isSum` — the terms of an expression, and whether there are two different ones.
* `visitExpr_again` — rewriting an expression again changes nothing.
* `length_args_le_one` — what is not a sum has at most one split.
-/

namespace Pruner.Arith

open Tir Lib List IterMapRewriter IterMapExpr

variable {s : IterSplitExpr} {e : PrimExpr} {pos : Bool} {r ra rb : IterMapExpr}
  {σ σ' τ : IterMapRewriter}

/-! ## Index expressions -/

/-- A constant; with `pos`, a positive one. -/
def IsConst (pos : Bool) (e : PrimExpr) : Prop := ∃ c, e = .intImm c ∧ (pos = true → 0 < c)

/-- Index expressions: sums, differences, multiples by constants, and divisions of sums with
positive factors by positive constants.  With `pos`, only constants are subtracted and all
factors are positive. -/
def IsIndex : Bool → PrimExpr → Prop
  | _, .intImm _ => True
  | _, .var _ => True
  | pos, .addNode a b => IsIndex pos a ∧ IsIndex pos b
  | pos, .subNode a b => IsIndex pos a ∧ IsIndex pos b ∧ (pos = true → ∃ c, b = .intImm c)
  | pos, .mulNode a b => (IsConst pos a ∧ IsIndex pos b) ∨ (IsIndex pos a ∧ IsConst pos b)
  | _, .floorDivNode a b => IsIndex true a ∧ IsConst true b
  | _, .floorModNode a b => IsIndex true a ∧ IsConst true b

/-- The different terms of an expression; a division by one is not seen. -/
def terms : PrimExpr → List PrimExpr
  | .intImm _ => []
  | .var x => [.var x]
  | .addNode a b => terms a ∪ terms b
  | .subNode a b => terms a ∪ terms b
  | .mulNode a b => terms a ∪ terms b
  | .floorDivNode a b => if b = .intImm 1 then terms a else [.floorDivNode a b]
  | .floorModNode a b => [.floorModNode a b]

/-- The expression has two different terms. -/
def isSum (e : PrimExpr) : Bool := 1 < (terms e).length

/-! ## Rewriting again -/

/-- The rewriter has gone on. -/
structure Later (σ σ' : IterMapRewriter) : Prop where
  varMap : σ'.varMap = σ.varMap
  sums : σ.sumFuseMap <+: σ'.sumFuseMap

theorem Later.refl (σ : IterMapRewriter) : Later σ σ := ⟨rfl, prefix_refl _⟩

theorem Later.trans (h : Later σ σ') (h' : Later σ' τ) : Later σ τ :=
  ⟨h'.varMap.trans h.varMap, h.sums.trans h'.sums⟩

theorem Later.lookup {fused : IterSumExpr} (h : Later σ σ')
    (hk : σ.sumFuseMap.lookup fused = some s) : σ'.sumFuseMap.lookup fused = some s := by
  obtain ⟨more, hmore⟩ := h.sums
  rw [← hmore, lookup_append, hk, Option.some_or]

/-- A sum that has been fused is found again. -/
theorem tryFuseIters_again {e : IterSumExpr} (h : σ.tryFuseIters e = some (s, σ')) :
    Later σ σ' ∧ ∀ τ, Later σ' τ → τ.tryFuseIters e = some (s, τ) := by
  by_cases hbase : e.base = 0
  swap
  · simp [tryFuseIters, hbase] at h
  rcases hargs : e.args with _ | ⟨x, _ | ⟨y, l⟩⟩
  · simp [tryFuseIters, hbase, hargs] at h
  · simp only [tryFuseIters, hbase, hargs, ne_eq, not_true_eq_false, if_false, Option.some.injEq,
      Prod.mk.injEq] at h ⊢
    obtain ⟨rfl, rfl⟩ := h
    exact ⟨.refl σ, fun τ _ => by simp⟩
  · simp only [tryFuseIters, hbase, hargs, ne_eq, not_true_eq_false, if_false, do_eq_some] at h ⊢
    obtain ⟨b, hmin, ⟨picked, t⟩, htake, h⟩ := h
    split_ifs at h with hb
    cases hfound : σ.sumFuseMap.lookup (IterSumExpr.canonical b picked) with
    | some split =>
      simp only [hfound, Option.some.injEq, Prod.mk.injEq] at h
      obtain ⟨rfl, rfl⟩ := h
      refine ⟨.refl σ, fun τ hτ => ⟨b, hmin, (picked, t), htake, ?_⟩⟩
      simp only [if_neg hb, hτ.lookup hfound]
    | none =>
      simp only [hfound, Option.some.injEq, Prod.mk.injEq] at h
      obtain ⟨rfl, rfl⟩ := h
      refine ⟨⟨rfl, prefix_append _ _⟩, fun τ hτ => ⟨b, hmin, (picked, t), htake, ?_⟩⟩
      have hnew : τ.sumFuseMap.lookup (IterSumExpr.canonical b picked) = _ :=
        hτ.lookup (by rw [lookup_append, hfound, lookup_cons_self]; rfl)
      simp only [if_neg hb, hnew]

section

variable {op : ℤ → ℤ → ℤ} {byOne : IterMapExpr → IterMapExpr}
  {splitConst : IterSplitExpr → ℤ → Option IterMapExpr} {c : ℤ}

/-- Dividing what is not a constant by a constant. -/
theorem divide_intImm (hra : ∀ x, ra ≠ .intImm x) (σ : IterMapRewriter) :
    σ.divide op byOne splitConst ra (.intImm c) =
      if c = 1 then some (byOne ra, σ) else if c = 0 then none else
        (σ.toSplit ra).bind fun p => (splitConst p.1 c).bind fun ret => some (ret, p.2) := by
  cases ra with
  | intImm x => exact absurd rfl (hra x)
  | split e | sum e => rfl

theorem toSplit_again (h : σ.toSplit ra = some (s, σ')) :
    Later σ σ' ∧ ∀ τ, Later σ' τ → τ.toSplit ra = some (s, τ) := by
  cases ra with
  | intImm x => cases h
  | split e =>
    obtain ⟨rfl, rfl⟩ := h
    exact ⟨.refl σ, fun τ _ => rfl⟩
  | sum e => exact tryFuseIters_again h

theorem divide_again (h : σ.divide op byOne splitConst ra rb = some (r, σ')) :
    Later σ σ' ∧ ∀ τ, Later σ' τ → τ.divide op byOne splitConst ra rb = some (r, τ) := by
  cases rb with
  | split f | sum f =>
    cases ra with
    | intImm x =>
      simp only [divide, Option.ite_none_right_eq_some, Option.some.injEq, Prod.mk.injEq] at h ⊢
      obtain ⟨hx, rfl, rfl⟩ := h
      exact ⟨.refl σ, fun τ _ => by simp [hx]⟩
    | split e | sum e => cases h
  | intImm y =>
    by_cases hconst : ∃ x, ra = .intImm x
    · obtain ⟨x, rfl⟩ := hconst
      simp only [divide, Option.ite_none_left_eq_some, Option.some.injEq, Prod.mk.injEq] at h ⊢
      obtain ⟨hy, rfl, rfl⟩ := h
      exact ⟨.refl σ, fun τ _ => by simp [hy]⟩
    · simp only [divide_intImm (not_exists.mp hconst)] at h ⊢
      split_ifs at h ⊢ with h1 h0
      · cases h
        exact ⟨.refl σ, fun τ _ => rfl⟩
      · simp only [Option.bind_eq_some_iff] at h
        obtain ⟨⟨s, σ₁⟩, hp, ret, hret, hout⟩ := h
        cases hout
        obtain ⟨hlater, hagain⟩ := toSplit_again hp
        exact ⟨hlater, fun τ hτ => by simp [hagain τ hτ, hret]⟩

/-- Dividing by a constant gives a constant or one split, if dividing by one does. -/
theorem divide_one_split (hone : c = 1 → byOne ra = .intImm 0)
    (hsplit : ∀ s ret, splitConst s c = some ret → (∃ x, ret = .intImm x) ∨ ∃ s, ret = .split s)
    (h : σ.divide op byOne splitConst ra (.intImm c) = some (r, σ')) :
    (∃ x, r = .intImm x) ∨ ∃ s, r = .split s := by
  by_cases hconst : ∃ x, ra = .intImm x
  · obtain ⟨x, rfl⟩ := hconst
    simp only [divide, Option.ite_none_left_eq_some, Option.some.injEq, Prod.mk.injEq] at h
    exact .inl ⟨_, h.2.1.symm⟩
  · rw [divide_intImm (not_exists.mp hconst)] at h
    split_ifs at h with h1 h0
    · cases h
      exact .inl ⟨0, hone h1⟩
    · simp only [Option.bind_eq_some_iff] at h
      obtain ⟨⟨s, σ₁⟩, -, ret, hret, hout⟩ := h
      cases hout
      exact hsplit s _ hret

end

/-- **Rewriting an expression again** gives what it gave before, and leaves the rewriter as it
is. -/
theorem visitExpr_again (h : IterMapRewriter.visitExpr e σ = some (r, σ')) :
    Later σ σ' ∧ ∀ τ, Later σ' τ → IterMapRewriter.visitExpr e τ = some (r, τ) := by
  induction e generalizing σ σ' r with
  | intImm c =>
    obtain ⟨rfl, rfl⟩ := h
    exact ⟨.refl σ, fun τ _ => rfl⟩
  | var x =>
    simp only [visitExpr, Option.map_eq_some_iff, Prod.mk.injEq] at h ⊢
    obtain ⟨r', hr, rfl, rfl⟩ := h
    exact ⟨.refl σ, fun τ hτ => ⟨r', hτ.varMap ▸ hr, by simp⟩⟩
  | addNode a b iha ihb | subNode a b iha ihb =>
    obtain ⟨⟨ra, σ₁⟩, ha, ⟨rb, σ₂⟩, hb, hout⟩ := bind₂_eq_some.mp h
    cases hout
    obtain ⟨hla, haa⟩ := iha ha
    obtain ⟨hlb, hab⟩ := ihb hb
    refine ⟨hla.trans hlb, fun τ hτ => ?_⟩
    simp [visitExpr, haa τ (hlb.trans hτ), hab τ hτ]
  | mulNode a b iha ihb =>
    obtain ⟨⟨ra, σ₁⟩, ha, ⟨rb, σ₂⟩, hb, ret, hret, hout⟩ := bind₃_eq_some.mp h
    cases hout
    obtain ⟨hla, haa⟩ := iha ha
    obtain ⟨hlb, hab⟩ := ihb hb
    refine ⟨hla.trans hlb, fun τ hτ => ?_⟩
    simp [visitExpr, haa τ (hlb.trans hτ), hab τ hτ, hret]
  | floorDivNode a b iha ihb | floorModNode a b iha ihb =>
    obtain ⟨⟨ra, σ₁⟩, ha, ⟨rb, σ₂⟩, hb, hout⟩ := bind₂_eq_some.mp h
    obtain ⟨hla, haa⟩ := iha ha
    obtain ⟨hlb, hab⟩ := ihb hb
    obtain ⟨hld, hdd⟩ := divide_again hout
    refine ⟨hla.trans (hlb.trans hld), fun τ hτ => ?_⟩
    simp only [visitExpr, haa τ (hlb.trans (hld.trans hτ)), hab τ (hld.trans hτ), some_bind_eq]
    exact hdd τ hτ

/-! ## The splits of the terms -/

/-- The part of a mark that a split takes. -/
def IterSplitExpr.part (s : IterSplitExpr) : ℕ × ℤ × ℤ := (s.source, s.lowerFactor, s.extent)

/-- The splits take different parts, of a certain kind. -/
def Merged (P : ℕ × ℤ × ℤ → Prop) (e : IterSumExpr) : Prop :=
  (e.args.map (·.part)).Nodup ∧ ∀ s ∈ e.args, P s.part

variable {P Q : ℕ × ℤ × ℤ → Prop} {lhs rhs : IterSumExpr} {sign : ℤ}

theorem map_part_addToArgs (sign : ℤ) (s : IterSplitExpr) (args : List IterSplitExpr) :
    (IterSumExpr.addToArgs s sign args).map (·.part) =
      if s.part ∈ args.map (·.part) then args.map (·.part) else args.map (·.part) ++ [s.part] := by
  induction args with
  | nil =>
    simp only [IterSumExpr.addToArgs, map_cons, map_nil, not_mem_nil, if_false, nil_append]
    split <;> rfl
  | cons x args ih =>
    rw [IterSumExpr.addToArgs]
    by_cases hx : x.source = s.source ∧ x.lowerFactor = s.lowerFactor ∧ x.extent = s.extent
    · have hpart : s.part = x.part := by simp [IterSplitExpr.part, hx]
      have hin : s.part ∈ x.part :: args.map (·.part) := hpart ▸ mem_cons_self
      rw [if_pos hx, map_cons, map_cons, if_pos hin, ← hpart]
      rfl
    · have hpart : s.part ≠ x.part := by
        simpa [IterSplitExpr.part, eq_comm] using hx
      rw [if_neg hx, map_cons, ih, map_cons]
      simp only [mem_cons, hpart, false_or]
      split <;> rfl

theorem Merged.addSplit (h : Merged P lhs) (hs : P s.part) : Merged P (lhs.addSplit s sign) := by
  have hmem : ∀ p ∈ lhs.args.map (·.part), P p := by simpa using h.2
  have hparts := map_part_addToArgs sign s lhs.args
  refine ⟨?_, fun s' hs' => ?_⟩
  · rw [IterSumExpr.addSplit, hparts]
    split_ifs with hin
    · exact h.1
    · exact h.1.append (nodup_singleton _) (by simpa using hin)
  · have hin := mem_map_of_mem (f := IterSplitExpr.part) hs'
    rw [IterSumExpr.addSplit, hparts] at hin
    split_ifs at hin
    · exact hmem _ hin
    · exact (mem_append.mp hin).elim (hmem _) fun heq => mem_singleton.mp heq ▸ hs

theorem Merged.addSum (h : Merged P lhs) (hr : ∀ s ∈ rhs.args, P s.part) :
    Merged P (lhs.addSum rhs sign) := by
  suffices hfold : ∀ args : List IterSplitExpr, (∀ s ∈ args, P s.part) →
      Merged P (args.foldl (fun ret arg => ret.addSplit arg sign) lhs) from hfold rhs.args hr
  intro args hargs
  induction args generalizing lhs with
  | nil => exact h
  | cons s args ih =>
    exact ih (h.addSplit (hargs s mem_cons_self)) (forall_mem_cons.mp hargs).2

theorem Merged.addExpr (h : Merged P lhs) (hr : ∀ s ∈ rb.toIterSumExpr.args, P s.part) :
    Merged P (lhs.addExpr sign rb) := by
  cases rb with
  | intImm c => exact h
  | split s => exact h.addSplit (hr s (by simp [toIterSumExpr]))
  | sum e => exact h.addSum hr

theorem Merged.mono (h : Merged P lhs) (hPQ : ∀ p, P p → Q p) : Merged Q lhs :=
  ⟨h.1, fun s hs => hPQ _ (h.2 s hs)⟩

theorem merged_intImm (c : ℤ) : Merged P (IterMapExpr.intImm c).toIterSumExpr :=
  ⟨nodup_nil, nofun⟩

theorem merged_split (hs : P s.part) : Merged P (IterMapExpr.split s).toIterSumExpr :=
  ⟨nodup_singleton _, fun _ h => mem_singleton.mp h ▸ hs⟩

section

variable (ha : Merged P ra.toIterSumExpr) (hb : Merged P rb.toIterSumExpr)
include ha

theorem Merged.scaleBy (c : ℤ) : Merged P (ra.scaleBy c).toIterSumExpr := by
  cases ra with
  | intImm x => exact merged_intImm _
  | split e =>
    simp only [IterMapExpr.scaleBy]
    split_ifs
    · exact ha
    · exact merged_intImm 0
    · exact merged_split (ha.2 e (by simp [toIterSumExpr]))
  | sum e =>
    simp only [IterMapExpr.scaleBy]
    split_ifs
    · exact ha
    · exact merged_intImm 0
    · refine ⟨?_, fun s hs => ?_⟩
      · simpa [toIterSumExpr, IterSumExpr.mulToLhs, Function.comp_def, IterSplitExpr.part]
          using ha.1
      · obtain ⟨s', hs', rfl⟩ := mem_map.mp hs
        exact ha.2 s' hs'

include hb

theorem Merged.add : Merged P (ra.add rb).toIterSumExpr := by
  unfold IterMapExpr.add
  split
  · exact merged_intImm _
  · split_ifs
    · exact hb
    · exact ha
    · exact ha.addExpr hb.2

theorem Merged.sub : Merged P (ra.sub rb).toIterSumExpr := by
  unfold IterMapExpr.sub
  split
  · exact merged_intImm _
  · split_ifs
    · exact ha
    · exact ha.addExpr hb.2

end

/-- The part is that of the split of a term. -/
def FromTerm (ts : List PrimExpr) (σ : IterMapRewriter) (p : ℕ × ℤ × ℤ) : Prop :=
  ∃ t ∈ ts, ∃ r s, IterMapRewriter.visitExpr t σ = some (r, σ) ∧ r.toIterSumExpr.args = [s] ∧
    s.part = p

theorem FromTerm.mono {ts ts' : List PrimExpr} (hsub : ts ⊆ ts') (hlater : Later σ σ')
    (p : ℕ × ℤ × ℤ) (h : FromTerm ts σ p) : FromTerm ts' σ' p := by
  obtain ⟨t, ht, r, s, hvisit, hargs, hp⟩ := h
  exact ⟨t, hsub ht, r, s, (visitExpr_again hvisit).2 σ' hlater, hargs, hp⟩

/-- A term has one split at most, which is then found again. -/
theorem merged_term (h : IterMapRewriter.visitExpr e σ = some (r, σ'))
    (hr : (∃ x, r = .intImm x) ∨ ∃ s, r = .split s) :
    Merged (FromTerm [e] σ') r.toIterSumExpr := by
  rcases hr with ⟨x, rfl⟩ | ⟨s, rfl⟩
  · exact merged_intImm x
  · have hagain := (visitExpr_again h).2 σ' (.refl σ')
    exact merged_split ⟨e, mem_singleton_self e, .split s, s, hagain, rfl, rfl⟩

/-- What the operands of a node are rewritten to. -/
theorem merged_operands {a b : PrimExpr} {σ₁ : IterMapRewriter}
    (hb : IterMapRewriter.visitExpr b σ₁ = some (rb, σ'))
    (hma : Merged (FromTerm (terms a) σ₁) ra.toIterSumExpr)
    (hmb : Merged (FromTerm (terms b) σ') rb.toIterSumExpr) :
    Merged (FromTerm (terms a ∪ terms b) σ') ra.toIterSumExpr ∧
      Merged (FromTerm (terms a ∪ terms b) σ') rb.toIterSumExpr :=
  ⟨hma.mono (FromTerm.mono (fun _ ht => mem_union_iff.mpr (.inl ht)) (visitExpr_again hb).1),
    hmb.mono (FromTerm.mono (fun _ ht => mem_union_iff.mpr (.inr ht)) (.refl _))⟩

theorem splitFloorDivConst_one {c : ℤ} (s : IterSplitExpr) (ret : IterMapExpr)
    (h : s.splitFloorDivConst c = some ret) : (∃ x, ret = .intImm x) ∨ ∃ s, ret = .split s := by
  unfold IterSplitExpr.splitFloorDivConst at h
  dsimp only at h
  split_ifs at h <;> exact .inr ⟨_, (Option.some.inj h).symm⟩

theorem splitFloorModConst_one {c : ℤ} (s : IterSplitExpr) (ret : IterMapExpr)
    (h : s.splitFloorModConst c = some ret) : (∃ x, ret = .intImm x) ∨ ∃ s, ret = .split s := by
  unfold IterSplitExpr.splitFloorModConst at h
  dsimp only at h
  split_ifs at h
  · exact .inl ⟨_, (Option.some.inj h).symm⟩
  · exact .inl ⟨_, (Option.some.inj h).symm⟩
  all_goals exact .inr ⟨_, (Option.some.inj h).symm⟩

theorem mul_eq_scaleBy (h : ra.mul rb = some r) :
    (∃ c, r = rb.scaleBy c) ∨ ∃ c, r = ra.scaleBy c := by
  unfold IterMapExpr.mul at h
  split at h
  · exact .inl ⟨_, (Option.some.inj h).symm⟩
  · exact .inr ⟨_, (Option.some.inj h).symm⟩
  · cases h

/-- Every iterator is rewritten to one split. -/
def OneSplitEach (σ : IterMapRewriter) : Prop :=
  ∀ x r, σ.varMap.lookup x = some r → ∃ s, r.toIterSumExpr.args = [s]

theorem OneSplitEach.later (hσ : OneSplitEach σ) (h : Later σ σ') : OneSplitEach σ' :=
  fun x r hr => hσ x r (h.varMap ▸ hr)

/-- **The splits of a rewritten expression** take different parts, which are parts of its terms. -/
theorem visitExpr_merged (he : IsIndex pos e) (hσ : OneSplitEach σ)
    (h : IterMapRewriter.visitExpr e σ = some (r, σ')) :
    Merged (FromTerm (terms e) σ') r.toIterSumExpr := by
  induction e generalizing pos σ σ' r with
  | intImm c =>
    obtain ⟨rfl, rfl⟩ := h
    exact merged_intImm c
  | var x =>
    have hagain := (visitExpr_again h).2 σ' (.refl σ')
    simp only [visitExpr, Option.map_eq_some_iff, Prod.mk.injEq] at h
    obtain ⟨r', hr, rfl, rfl⟩ := h
    obtain ⟨s, hs⟩ := hσ x r' hr
    refine ⟨by simp [hs], fun s' hs' => ⟨.var x, mem_singleton_self _, r', s, hagain, hs, ?_⟩⟩
    rw [hs, mem_singleton] at hs'
    rw [hs']
  | addNode a b iha ihb =>
    obtain ⟨⟨ra, σ₁⟩, ha, ⟨rb, σ₂⟩, hb, hout⟩ := bind₂_eq_some.mp h
    cases hout
    obtain ⟨hma, hmb⟩ := merged_operands hb (iha he.1 hσ ha)
      (ihb he.2 (hσ.later (visitExpr_again ha).1) hb)
    exact hma.add hmb
  | subNode a b iha ihb =>
    obtain ⟨⟨ra, σ₁⟩, ha, ⟨rb, σ₂⟩, hb, hout⟩ := bind₂_eq_some.mp h
    cases hout
    obtain ⟨hma, hmb⟩ := merged_operands hb (iha he.1 hσ ha)
      (ihb he.2.1 (hσ.later (visitExpr_again ha).1) hb)
    exact hma.sub hmb
  | mulNode a b iha ihb =>
    obtain ⟨⟨ra, σ₁⟩, ha, ⟨rb, σ₂⟩, hb, ret, hret, hout⟩ := bind₃_eq_some.mp h
    cases hout
    have hconst : ∀ {q}, IsConst pos q → IsIndex pos q := by
      rintro q ⟨c, rfl, -⟩
      trivial
    obtain ⟨hia, hib⟩ : IsIndex pos a ∧ IsIndex pos b :=
      he.elim (fun h => ⟨hconst h.1, h.2⟩) fun h => ⟨h.1, hconst h.2⟩
    obtain ⟨hma, hmb⟩ := merged_operands hb (iha hia hσ ha)
      (ihb hib (hσ.later (visitExpr_again ha).1) hb)
    rcases mul_eq_scaleBy hret with ⟨c, rfl⟩ | ⟨c, rfl⟩
    · exact hmb.scaleBy c
    · exact hma.scaleBy c
  | floorDivNode a b iha ihb =>
    obtain ⟨⟨ra, σ₁⟩, ha, ⟨rb, σ₂⟩, hb, hout⟩ := bind₂_eq_some.mp h
    obtain ⟨hia, c, rfl, -⟩ := he
    obtain ⟨rfl, rfl⟩ := hb
    by_cases hc : c = 1
    · subst hc
      have hm := iha hia hσ ha
      rw [terms, if_pos rfl]
      by_cases hconst : ∃ x, ra = .intImm x
      · obtain ⟨x, rfl⟩ := hconst
        obtain ⟨rfl, rfl⟩ : r = _ ∧ σ' = σ₁ := by simpa [IterMapRewriter.floorDiv, divide, eq_comm] using hout
        exact merged_intImm _
      · have hsame := (divide_intImm (not_exists.mp hconst) σ₁).symm.trans hout
        rw [if_pos rfl] at hsame
        cases hsame
        exact hm
    · have hterms : terms (.floorDivNode a (.intImm c)) = [.floorDivNode a (.intImm c)] := by
        simp [terms, hc]
      rw [hterms]
      exact merged_term h (divide_one_split (fun h1 => absurd h1 hc) splitFloorDivConst_one hout)
  | floorModNode a b iha ihb =>
    obtain ⟨⟨ra, σ₁⟩, ha, ⟨rb, σ₂⟩, hb, hout⟩ := bind₂_eq_some.mp h
    obtain ⟨hia, c, rfl, -⟩ := he
    obtain ⟨rfl, rfl⟩ := hb
    exact merged_term h (divide_one_split (fun _ => rfl) splitFloorModConst_one hout)

/-- **An expression that is no sum has one split at most.** -/
theorem length_args_le_one (he : IsIndex pos e) (hσ : OneSplitEach σ)
    (h : IterMapRewriter.visitExpr e σ = some (r, σ')) (hsum : isSum e = false) :
    r.toIterSumExpr.args.length ≤ 1 := by
  obtain ⟨hnodup, hparts⟩ := visitExpr_merged he hσ h
  match hargs : r.toIterSumExpr.args with
  | [] => simp
  | [_] => simp
  | x :: y :: l =>
    rw [hargs] at hnodup hparts
    obtain ⟨t, ht, rx, sx, hvx, hax, hpx⟩ := hparts x (by simp)
    obtain ⟨t', ht', ry, sy, hvy, hay, hpy⟩ := hparts y (by simp)
    -- both come from the only term
    obtain rfl : t = t' := by
      match hts : terms e with
      | [] => simp [hts] at ht
      | [_] => simp_all
      | _ :: _ :: _ => simp [isSum, hts] at hsum
    cases hvx.symm.trans hvy
    cases hax.symm.trans hay
    simp [← hpx, ← hpy] at hnodup

end Pruner.Arith
