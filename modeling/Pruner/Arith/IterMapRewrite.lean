import Pruner.Arith.IterMapTerms

/-!
# Iterator maps keep the values of the indices

A sum that is found in `sum_fuse_map_` is replaced by the split that was stored for another
sum with the same splits up to a common factor.  The value is kept when both sums have
the same factor, which is the case when no two of the sums that are fused are different
multiples of each other.

## Main definitions

* `NoRescaledSums` — no two sums are different multiples of each other.
* `RewriterOk` — the invariant of the rewriter.
* `detectIterMap_eval` — the detected map has the values of the indices.
-/

namespace Pruner.Arith

open Tir Lib List IterMapRewriter IterMapExpr Int

variable {b c : ℤ} {s : IterSplitExpr} {marks : List IterMark} {a e : PrimExpr} {pos : Bool}
  {r ra : IterMapExpr} {indices sums : List PrimExpr} {n : ℕ} {iters : InputIters}
  {σ σ' : IterMapRewriter}

/-! ## Fused sums -/

/-- The dividends in an expression. -/
def dividends : PrimExpr → List PrimExpr
  | .intImm _ => []
  | .var _ => []
  | .addNode a b => dividends a ++ dividends b
  | .subNode a b => dividends a ++ dividends b
  | .mulNode a b => dividends a ++ dividends b
  | .floorDivNode a b => a :: (dividends a ++ dividends b)
  | .floorModNode a b => a :: (dividends a ++ dividends b)

/-- The sums that are fused: the dividends and the indices themselves, if they have two
different terms. -/
def fusedSums (indices : List PrimExpr) : List PrimExpr :=
  (indices.flatMap fun e => e :: dividends e).filter isSum

/-- When multiples of two of the sums differ by a constant on the iteration domain, then the
sums themselves differ by a constant. -/
def NoRescaledSums (iters : InputIters) (sums : List PrimExpr) : Prop :=
  ∀ a ∈ sums, ∀ b ∈ sums, ∀ k l c : ℤ, k ≠ 0 → l ≠ 0 →
    (∀ ρ, InDomain iters ρ → k * a.eval ρ = l * b.eval ρ + c) →
      ∃ d, ∀ ρ, InDomain iters ρ → a.eval ρ = b.eval ρ + d

/-- The value is the same at all points of the iteration domain. -/
def ConstantOn (iters : InputIters) (f : (String → ℤ) → ℤ) : Prop :=
  ∃ c, ∀ ρ, InDomain iters ρ → f ρ = c

/-! ## Splitting -/

section

variable {lhs : IterSplitExpr} {rhs : ℤ}

theorem canProveDivisible_iff {a : ℤ} : canProveDivisible a b = true ↔ b ∣ a := by
  rw [canProveDivisible, decide_eq_true_iff, dvd_iff_tmod_eq_zero]

theorem fdiv_pos_of_dvd {a : ℤ} (ha : 0 < a) (hb : 0 < b) (h : b ∣ a) : 0 < a.fdiv b := by
  rw [← mul_pos_iff_of_pos_left hb, Int.mul_fdiv_cancel' h]
  exact ha

/-- Dividing a digit takes the upper part of it. -/
theorem fdiv_digit (v : ℤ) {lower extent : ℤ} (hl : 0 < lower) (he : 0 < extent) (hc : 0 < c)
    (h : c ∣ extent) :
    ((v.fdiv lower).fmod extent).fdiv c = (v.fdiv (lower * c)).fmod (extent.fdiv c) := by
  have hk := fdiv_pos_of_dvd he hc h
  have hmod := DivMode.floorDiv.mod_div (v.fdiv lower) hc hk
  rw [Int.mul_fdiv_cancel' h] at hmod
  rw [← fdiv_fdiv_eq_fdiv_mul v hl.le hc.le]
  exact hmod.symm

/-- The result takes the quotient or the remainder of the values of a split. -/
def TakesPart (op : ℤ → ℤ → ℤ) (n : ℕ) (lhs : IterSplitExpr) (rhs : ℤ) (r : IterMapExpr) : Prop :=
  r.Ok n true ∧ ∀ vals, r.eval vals = op (lhs.eval vals) rhs

variable (hl : SplitOk n lhs) (hs : 0 < lhs.scale) (hrhs : 0 < rhs)

include hs hrhs in
/-- When the scale is divided out of the divisor, nothing is lost, and what is left divides the
extent. -/
theorem exists_divisor {f : ℤ → IterMapExpr}
    (h : (if lhs.scale ≠ 1 ∧ (!canProveDivisible rhs lhs.scale) = true then none
      else if canProveDivisible lhs.extent (if lhs.scale ≠ 1 then rhs.fdiv lhs.scale else rhs) then
        some (f (if lhs.scale ≠ 1 then rhs.fdiv lhs.scale else rhs)) else none) = some r) :
    ∃ c, rhs = lhs.scale * c ∧ 0 < c ∧ c ∣ lhs.extent ∧ r = f c := by
  rw [Option.ite_none_left_eq_some, Option.ite_none_right_eq_some, canProveDivisible_iff] at h
  obtain ⟨h, hdvd, hr⟩ := h
  have hmul : lhs.scale * (if lhs.scale ≠ 1 then rhs.fdiv lhs.scale else rhs) = rhs := by
    by_cases h1 : lhs.scale = 1
    · simp [h1]
    · have hdvd : lhs.scale ∣ rhs := by
        rw [← canProveDivisible_iff]
        simpa [h1] using h
      rw [if_pos h1, Int.mul_fdiv_cancel' hdvd]
  exact ⟨_, hmul.symm, (mul_pos_iff_of_pos_left hs).mp (hrhs.trans_eq hmul.symm), hdvd,
    (Option.some.inj hr).symm⟩

include hl hs hrhs

/-- **`SplitFloorDivConst` divides.** -/
theorem splitFloorDivConst_spec (h : lhs.splitFloorDivConst rhs = some r) :
    TakesPart Int.fdiv n lhs rhs r := by
  unfold IterSplitExpr.splitFloorDivConst at h
  split at h
  · next h1 =>
      rw [← Option.some.inj h]
      exact ⟨.split hl fun _ => hs, fun vals => by simp [h1]⟩
  · split at h
    · next hdvd =>
        obtain ⟨k, hk⟩ := canProveDivisible_iff.mp hdvd.2
        rw [← Option.some.inj h, hk, mul_fdiv_cancel_left k hrhs.ne']
        refine ⟨.split ⟨hl.source_lt, hl.lowerFactor_pos, hl.extent_pos⟩ fun _ => ?_,
          fun vals => ?_⟩
        · rw [hk] at hs
          exact (mul_pos_iff_of_pos_left hrhs).mp hs
        · simp only [eval_split, IterSplitExpr.eval, IterSplitExpr.digit, hk]
          rw [mul_left_comm, mul_fdiv_cancel_left _ hrhs.ne']
    · obtain ⟨c, rfl, hc, hdvd, rfl⟩ := exists_divisor hs hrhs (f := fun c => .split
        ⟨lhs.source, lhs.lowerFactor * c, lhs.extent.fdiv c, 1⟩) h
      refine ⟨.split ⟨hl.source_lt, mul_pos hl.lowerFactor_pos hc,
        fdiv_pos_of_dvd hl.extent_pos hc hdvd⟩ fun _ => one_pos, fun vals => ?_⟩
      simp only [eval_split, IterSplitExpr.eval, IterSplitExpr.digit, mul_one]
      rw [mul_comm _ lhs.scale, mul_fdiv_mul_of_pos _ _ hs,
        fdiv_digit _ hl.lowerFactor_pos hl.extent_pos hc hdvd]

/-- **`SplitFloorModConst` takes the remainder.** -/
theorem splitFloorModConst_spec (h : lhs.splitFloorModConst rhs = some r) :
    TakesPart Int.fmod n lhs rhs r := by
  unfold IterSplitExpr.splitFloorModConst at h
  split at h
  · next h1 =>
      rw [← Option.some.inj h]
      exact ⟨.intImm _, fun vals => by simp [h1]⟩
  · split at h
    · next hdvd =>
        obtain ⟨k, hk⟩ := canProveDivisible_iff.mp hdvd.2
        rw [← Option.some.inj h]
        refine ⟨.intImm _, fun vals => ?_⟩
        rw [eval_intImm, IterSplitExpr.eval, hk, mul_left_comm, mul_comm, mul_fmod_left]
    · obtain ⟨c, rfl, hc, hdvd, rfl⟩ := exists_divisor hs hrhs
        (f := fun c => .split { lhs with extent := c }) h
      refine ⟨.split ⟨hl.source_lt, hl.lowerFactor_pos, hc⟩ fun _ => hs, fun vals => ?_⟩
      simp only [eval_split, IterSplitExpr.eval, IterSplitExpr.digit]
      rw [mul_comm _ lhs.scale, mul_comm _ lhs.scale, mul_fmod_mul_of_pos _ _ hs,
        fmod_fmod_of_dvd _ hdvd]

end

/-! ## Fusing -/

section

variable (hno : NoRescaledSums iters sums) (hpos : ∀ it ∈ iters.ranges, 0 < it.2.extent)
  {extent t : ℤ} {picked : List IterSplitExpr} {fused : IterSumExpr}

theorem takeChain_spec {key : IterSplitExpr → ℤ}
    {splits : List IterSplitExpr} (hn : splits.length = n)
    (h : takeChain key n b splits = some (picked, t)) :
    picked.Perm splits ∧ IsChain key (·.extent) b picked t := by
  induction n generalizing b splits picked with
  | zero =>
    obtain ⟨rfl, rfl⟩ := h
    rw [length_eq_zero_iff.mp hn]
    exact ⟨.refl _, rfl⟩
  | succ n ih =>
    obtain ⟨split, hfind, ⟨rest, total⟩, hrest, hout⟩ := bind₂_eq_some.mp h
    cases hout
    have hmem := mem_of_find?_eq_some hfind
    have hkey : key split = b := by simpa using find?_some hfind
    have hlen : (splits.erase split).length = n := by
      rw [length_erase_of_mem hmem]
      omega
    obtain ⟨hperm, hchain⟩ := ih hlen hrest
    exact ⟨(hperm.cons split).trans (perm_cons_erase hmem).symm, hkey, hchain⟩

theorem canonical_spec {args : List IterSplitExpr} (hb : b ≠ 0) (hargs : ∀ s ∈ args, SplitOk n s)
    (h : takeChain (·.scale) args.length b args = some (picked, t)) :
    (∀ s ∈ (IterSumExpr.canonical b picked).args, SplitOk n s) ∧
      IsChain (·.scale) (·.extent) 1 (IterSumExpr.canonical b picked).args.reverse (t.tdiv b) ∧
      ∀ vals, (IterSumExpr.canonical b picked).eval vals * b =
        weighted (·.scale) (·.digit vals) args := by
  obtain ⟨hperm, hchain⟩ := takeChain_spec rfl h
  rw [← mul_one b] at hchain
  refine ⟨fun s hs => ?_, ?_, fun vals => ?_⟩
  · simp only [IterSumExpr.canonical, mem_map, mem_reverse] at hs
    obtain ⟨e, he, rfl⟩ := hs
    have hok := hargs e (hperm.subset he)
    exact ⟨hok.source_lt, hok.lowerFactor_pos, hok.extent_pos⟩
  · rw [IterSumExpr.canonical, ← map_reverse, reverse_reverse, Lib.isChain_map]
    exact hchain.div hb
  · have hval : (IterSumExpr.canonical b picked).eval vals =
        weighted (fun s => s.scale.tdiv b) (·.digit vals) picked := by
      rw [← weighted_eq_of_perm _ _ (reverse_perm picked)]
      simp only [IterSumExpr.eval, IterSumExpr.canonical, weighted, map_map, add_zero]
      rfl
    rw [hval, hchain.weighted_div hb, weighted_eq_of_perm _ _ hperm]

/-- An entry of `sum_fuse_map_`: the mark of a canonical sum, with the scale that it had in
one of the sums. -/
def FusedOk (iters : InputIters) (sums : List PrimExpr) (marks : List IterMark)
    (fused : IterSumExpr) (split : IterSplitExpr) : Prop :=
  ∃ i extent b, split = .ofMark i extent b ∧ marks[i]? = some ⟨.sum fused, extent⟩ ∧
    b ≠ 0 ∧ (0 < b ∨ ¬ConstantOn iters fun ρ => fused.eval (markValues ρ marks)) ∧
    ∃ a ∈ sums, ∃ c, ∀ ρ, InDomain iters ρ → a.eval ρ = fused.eval (markValues ρ marks) * b + c

/-- The invariant of the rewriter. -/
structure RewriterOk (iters : InputIters) (sums : List PrimExpr) (σ : IterMapRewriter) : Prop where
  varMap : σ.varMap = (IterMapRewriter.ofInputIters iters).varMap
  inputMarks : σ.inputMarks = (IterMapRewriter.ofInputIters iters).inputMarks
  inputs : (IterMapRewriter.ofInputIters iters).marks <+: σ.marks
  marks : MarksOk iters σ.marks
  fused : ∀ p ∈ σ.sumFuseMap, FusedOk iters sums σ.marks p.1 p.2

theorem RewriterOk.oneSplitEach (hσ : RewriterOk iters sums σ) : OneSplitEach σ := by
  intro x r h
  rw [hσ.varMap] at h
  obtain ⟨l₁, l₂, hl, -⟩ := lookup_eq_some_iff.mp h
  have hmem : (x, r) ∈ (ofInputIters iters).varMap := by
    rw [hl]
    simp
  simp only [ofInputIters, List.mem_map, Prod.mk.injEq] at hmem
  obtain ⟨⟨⟨x', range⟩, i⟩, -, rfl, rfl⟩ := hmem
  unfold iterExpr
  split <;> exact ⟨_, rfl⟩

theorem tryFuseIters_cases {e : IterSumExpr} (h : σ.tryFuseIters e = some (s, σ')) :
    e.base = 0 ∧ ((e.args = [s] ∧ σ' = σ) ∨ (2 ≤ e.args.length ∧
      ∃ b ∈ e.args.map (·.scale), ∃ picked t, b ≠ 0 ∧
        takeChain (·.scale) e.args.length b e.args = some (picked, t) ∧
        (((IterSumExpr.canonical b picked, s) ∈ σ.sumFuseMap ∧ σ' = σ) ∨
          (s = .ofMark σ.marks.length (t.tdiv b) b ∧ σ' = { σ with
            marks := σ.marks ++ [⟨.sum (.canonical b picked), t.tdiv b⟩]
            sumFuseMap := σ.sumFuseMap ++ [(.canonical b picked, s)] })))) := by
  unfold tryFuseIters at h
  split_ifs at h with hbase
  refine ⟨not_not.mp hbase, ?_⟩
  split at h
  · next arg hargs =>
      simp only [Option.some.injEq, Prod.mk.injEq] at h
      exact .inl ⟨by rw [hargs, h.1], h.2.symm⟩
  · next hargs =>
      simp only [do_eq_some] at h
      obtain ⟨b, hmin, ⟨picked, t⟩, htake, h⟩ := h
      have hmem := (min?_eq_some_iff.mp hmin).1
      have hlen : 2 ≤ e.args.length := by
        rcases hl : e.args with _ | ⟨x, _ | ⟨y, rest⟩⟩
        · simp [hl] at hmem
        · exact absurd hl (hargs x)
        · simp
      refine .inr ⟨hlen, b, hmem, picked, t, ?_⟩
      split at h
      · simp at h
      · next hb =>
          refine ⟨hb, htake, ?_⟩
          split at h
          · next split hlookup =>
              simp only [Option.some.injEq, Prod.mk.injEq] at h
              obtain ⟨l₁, l₂, hsplit, -⟩ := lookup_eq_some_iff.mp hlookup
              refine .inl ⟨?_, h.2.symm⟩
              rw [hsplit, h.1]
              simp
          · cases h
            exact .inr ⟨rfl, rfl⟩

/-- A longer table keeps the entries. -/
theorem FusedOk.extend {marks' : List IterMark} {split : IterSplitExpr}
    (h : FusedOk iters sums marks fused split) (hm : MarksOk iters marks)
    (hext : marks <+: marks') :
    FusedOk iters sums marks' fused split := by
  obtain ⟨i, extent, b, hsplit, hmark, hb, hsign, a, ha, c, hval⟩ := h
  have hi := lt_of_getElem? hmark
  have hok : MarkOk iters i ⟨.sum fused, extent⟩ := hm i _ hmark
  have hsame : ∀ ρ, fused.eval (markValues ρ marks') = fused.eval (markValues ρ marks) :=
    fun ρ => eval_extend hext fun s hs => (hok.2.1 s hs).mono hi.le
  refine ⟨i, extent, b, hsplit, ?_, hb, ?_, a, ha, c, ?_⟩
  · obtain ⟨more, rfl⟩ := hext
    rw [getElem?_append_left hi, hmark]
  · simpa only [hsame] using hsign
  · simpa only [hsame] using hval

/-- The value that `TryFuseIters` is asked for is that of one of the sums, up to a
constant. -/
def FusesSum (iters : InputIters) (sums : List PrimExpr) (pos : Bool) (marks : List IterMark)
    (e : IterSumExpr) : Prop :=
  ∃ a ∈ sums, (∃ c, ∀ ρ, InDomain iters ρ → a.eval ρ = e.eval (markValues ρ marks) + c) ∧
    (pos = true ∨ ¬ConstantOn iters a.eval)

include hno hpos in
/-- A stored split has the scale of every sum with the same canonical form, as far as it
matters: no two of the sums are different multiples of each other. -/
theorem FusedOk.scale_eq (hm : MarksOk iters marks) (hbase : fused.base = 0)
    {a' : PrimExpr} (ha : a ∈ sums) (ha' : a' ∈ sums) {b' c' : ℤ} (hb : b ≠ 0) (hb' : b' ≠ 0)
    (hval : ∀ ρ, InDomain iters ρ → a.eval ρ = fused.eval (markValues ρ marks) * b + c)
    (hval' : ∀ ρ, InDomain iters ρ → a'.eval ρ = fused.eval (markValues ρ marks) * b' + c') :
    ∀ ρ, InDomain iters ρ →
      fused.eval (markValues ρ marks) * b = fused.eval (markValues ρ marks) * b' := by
  obtain ⟨d, hd⟩ := hno a ha a' ha' b' b (b' * c - b * c') hb' hb fun ρ hρ => by
    rw [hval ρ hρ, hval' ρ hρ]
    ring
  -- At the start of the domain the canonical sum is zero, so the constants agree.
  have hstart : c = c' + d := by
    have hin := startPoint_inDomain hpos
    have h0 := hd _ hin
    rw [hval _ hin, hval' _ hin, IterSumExpr.eval_eq_zero hbase fun s _ =>
      getD_markValues_start hm s.source] at h0
    omega
  intro ρ hρ
  have h := hd ρ hρ
  rw [hval ρ hρ, hval' ρ hρ] at h
  linarith

theorem marksOk_concat {m : IterMark} (hm : MarksOk iters marks)
    (h : MarkOk iters marks.length m) : MarksOk iters (marks ++ [m]) := by
  intro i m' hi
  rcases lt_trichotomy i marks.length with hlt | rfl | hgt
  · rw [getElem?_append_left hlt] at hi
    exact hm i m' hi
  · simp only [getElem?_concat_length, Option.some.injEq] at hi
    exact hi ▸ h
  · have hlen := lt_of_getElem? hi
    simp only [length_append, length_singleton] at hlen
    omega

structure Fuses (iters : InputIters) (sums : List PrimExpr) (pos : Bool) (σ : IterMapRewriter)
    (e : IterSumExpr) (s : IterSplitExpr) (σ' : IterMapRewriter) : Prop where
  ok : RewriterOk iters sums σ'
  grows : σ.marks <+: σ'.marks
  split : SplitOk σ'.marks.length s
  scale_pos : pos = true → 0 < s.scale
  scale_ne : 2 ≤ e.args.length → s.scale ≠ 0
  eval_eq : ∀ ρ, InDomain iters ρ → s.eval (markValues ρ σ'.marks) = e.eval (markValues ρ σ.marks)

variable {e : IterSumExpr}

section

variable (hσ : RewriterOk iters sums σ) (hbase : fused.base = 0) (hb : b ≠ 0)
  (hbpos : pos = true → 0 < b)
  (heval : ∀ ρ, e.eval (markValues ρ σ.marks) = fused.eval (markValues ρ σ.marks) * b)
  (hsum : FusesSum iters sums pos σ.marks e)
include hσ hbase hb hbpos heval hsum

include hno hpos in
/-- A sum whose canonical form was fused before gets the stored split. -/
theorem fuses_of_stored (hmem : (fused, s) ∈ σ.sumFuseMap) : Fuses iters sums pos σ e s σ := by
  obtain ⟨i, extent, b', rfl, hmark, hb', hsign, a', ha', c', hval'⟩ := hσ.fused _ hmem
  obtain ⟨a, ha, ⟨c, hval⟩, -⟩ := hsum
  simp only [heval] at hval
  have hscale := FusedOk.scale_eq hno hpos hσ.marks hbase ha' ha hb' hb hval' hval
  have hmok : MarkOk iters i ⟨.sum fused, extent⟩ := hσ.marks i _ hmark
  refine ⟨hσ, prefix_refl _, ⟨(lt_of_getElem? hmark), one_pos, ?_⟩, ?_,
    fun _ => hb', fun ρ hρ => ?_⟩
  · exact hmok.2.2.end_pos one_pos fun s hs =>
      (hmok.2.1 s (mem_reverse.mp hs)).extent_pos
  · intro hp
    rcases hsign with hsign | hsign
    · exact hsign
    · have hsame : b' = b := by
        by_contra hne
        refine hsign ⟨0, fun ρ hρ => ?_⟩
        have hmul : fused.eval (markValues ρ σ.marks) * (b' - b) = 0 := by
          rw [mul_sub, hscale ρ hρ, sub_self]
        exact (mul_eq_zero.mp hmul).resolve_right (sub_ne_zero.mpr hne)
      exact hsame ▸ hbpos hp
  · rw [heval, ← hscale ρ hρ, IterSplitExpr.eval, digit_ofMark hσ.marks hρ hmark,
      getD_markValues_sum hσ.marks hmark]
    rfl

theorem fuses_of_new (hok : ∀ s ∈ fused.args, SplitOk σ.marks.length s)
    (hchain : IsChain (·.scale) (·.extent) 1 fused.args.reverse extent) :
    Fuses iters sums pos σ e (.ofMark σ.marks.length extent b) { σ with
      marks := σ.marks ++ [⟨.sum fused, extent⟩]
      sumFuseMap := σ.sumFuseMap ++ [(fused, .ofMark σ.marks.length extent b)] } := by
  obtain ⟨a, ha, ⟨c, hval⟩, hconst⟩ := hsum
  simp only [heval] at hval
  have hext : σ.marks <+: σ.marks ++ [⟨.sum fused, extent⟩] := prefix_append _ _
  have hmark : (σ.marks ++ [(⟨.sum fused, extent⟩ : IterMark)])[σ.marks.length]? =
      some ⟨.sum fused, extent⟩ := getElem?_concat_length
  have hmarks := marksOk_concat hσ.marks (m := ⟨.sum fused, extent⟩) ⟨hbase, hok, hchain⟩
  have hsame : ∀ ρ, fused.eval (markValues ρ (σ.marks ++ [⟨.sum fused, extent⟩])) =
      fused.eval (markValues ρ σ.marks) := fun ρ => eval_extend hext hok
  refine ⟨⟨hσ.varMap, hσ.inputMarks, hσ.inputs.trans hext, hmarks, ?_⟩, hext,
    ⟨?_, one_pos, ?_⟩, hbpos, fun _ => hb, fun ρ hρ => ?_⟩
  · intro p hp
    rcases mem_append.mp hp with hp | hp
    · exact (hσ.fused p hp).extend hσ.marks hext
    · obtain rfl := mem_singleton.mp hp
      refine ⟨_, _, _, rfl, hmark, hb, ?_, a, ha, c, ?_⟩
      · refine hconst.imp hbpos fun hnot hfused => hnot ?_
        obtain ⟨k, hk⟩ := hfused
        refine ⟨k * b + c, fun ρ hρ => ?_⟩
        have hkρ := hk ρ hρ
        simp only [hsame] at hkρ
        exact (hval ρ hρ).trans (by rw [hkρ])
      · simpa only [hsame] using hval
  · simp [IterSplitExpr.ofMark]
  · exact hchain.end_pos one_pos fun s hs => (hok s (mem_reverse.mp hs)).extent_pos
  · rw [heval, ← hsame, IterSplitExpr.eval, digit_ofMark hmarks hρ hmark,
      getD_markValues_sum hmarks hmark]
    rfl

end

include hno hpos in
/-- **`TryFuseIters` keeps the value of a sum.** -/
theorem tryFuseIters_spec (hσ : RewriterOk iters sums σ) (hargs : ArgsOk σ.marks.length pos e.args)
    (hsum : 2 ≤ e.args.length → FusesSum iters sums pos σ.marks e)
    (h : σ.tryFuseIters e = some (s, σ')) : Fuses iters sums pos σ e s σ' := by
  obtain ⟨hbase, ⟨hone, rfl⟩ | ⟨hlen, b, hbmem, picked, t, hb, htake, hcase⟩⟩ :=
    tryFuseIters_cases h
  · have hs := hargs s (by simp [hone])
    refine ⟨hσ, prefix_refl _, hs.1, hs.2, fun hlen => ?_, fun ρ _ => ?_⟩
    · simp [hone] at hlen
    · simp [IterSumExpr.eval, hone, hbase]
  · obtain ⟨hok, hchain, hdiv⟩ := canonical_spec hb (fun s hs => (hargs s hs).1) htake
    have heval : ∀ ρ, e.eval (markValues ρ σ.marks) =
        (IterSumExpr.canonical b picked).eval (markValues ρ σ.marks) * b := fun ρ => by
      rw [IterSumExpr.eval_eq_weighted, hbase, add_zero, hdiv]
    have hbpos : pos = true → 0 < b := by
      intro hp
      obtain ⟨s, hs, rfl⟩ := List.mem_map.mp hbmem
      exact (hargs s hs).2 hp
    rcases hcase with ⟨hmem, rfl⟩ | ⟨rfl, rfl⟩
    · exact fuses_of_stored hno hpos hσ rfl hb hbpos heval (hsum hlen) hmem
    · exact fuses_of_new hσ rfl hb hbpos heval (hsum hlen) hok hchain

end

/-! ## Rewriting -/

section

variable (hno : NoRescaledSums iters sums) (hpos : ∀ it ∈ iters.ranges, 0 < it.2.extent)

/-- What rewriting an expression keeps. -/
structure Rewrites (iters : InputIters) (sums : List PrimExpr) (pos : Bool)
    (σ : IterMapRewriter) (e : PrimExpr) (r : IterMapExpr) (σ' : IterMapRewriter) : Prop where
  ok : RewriterOk iters sums σ'
  grows : σ.marks <+: σ'.marks
  expr : r.Ok σ'.marks.length pos
  eval_eq : ∀ ρ, InDomain iters ρ → r.eval (markValues ρ σ'.marks) = e.eval ρ

theorem IsIndex.of_pos (h : IsIndex true e) (pos : Bool) : IsIndex pos e := by
  cases pos with
  | true => exact h
  | false =>
    induction e with
    | intImm c | var x => trivial
    | addNode a b iha ihb => exact ⟨iha h.1, ihb h.2⟩
    | subNode a b iha ihb => exact ⟨iha h.1, ihb h.2.1, fun hf => absurd hf Bool.false_ne_true⟩
    | mulNode a b iha ihb =>
      have hc : ∀ {c}, IsConst true c → IsConst false c := fun ⟨v, hv, _⟩ =>
        ⟨v, hv, fun hf => absurd hf Bool.false_ne_true⟩
      exact h.imp (fun h => ⟨hc h.1, ihb h.2⟩) fun h => ⟨iha h.1, hc h.2⟩
    | floorDivNode a b _ _ | floorModNode a b _ _ => exact h

/-- What has been rewritten stays well formed and keeps its value. -/
theorem Rewrites.extend {σ'' : IterMapRewriter} (h : Rewrites iters sums pos σ e r σ')
    (hok : RewriterOk iters sums σ'')
    (hgrow : σ'.marks <+: σ''.marks) : Rewrites iters sums pos σ e r σ'' :=
  ⟨hok, h.grows.trans hgrow, h.expr.mono hgrow.length_le, fun ρ hρ =>
    (eval_extend hgrow fun s hs => (h.expr s hs).1).trans (h.eval_eq ρ hρ)⟩

include hpos in
/-- An iterator is rewritten to the split of its mark. -/
theorem rewrites_var (hσ : RewriterOk iters sums σ) (pos : Bool) {x : String}
    (h : σ.varMap.lookup x = some r) : Rewrites iters sums pos σ (.var x) r σ := by
  rw [hσ.varMap] at h
  obtain ⟨l₁, l₂, hl, -⟩ := lookup_eq_some_iff.mp h
  have hmem : (x, r) ∈ (ofInputIters iters).varMap := by
    rw [hl]
    simp
  simp only [ofInputIters, List.mem_map, Prod.mk.injEq] at hmem
  obtain ⟨⟨⟨x', range⟩, i⟩, hi, rfl, rfl⟩ := hmem
  have hiter : iters.ranges[i]? = some (x', range) := mk_mem_zipIdx_iff_getElem?.mp hi
  have hmark : σ.marks[i]? = some ⟨.iter x' range.min, range.extent⟩ := by
    obtain ⟨more, hmore⟩ := hσ.inputs
    have hlt : i < (ofInputIters iters).marks.length := by
      simpa [ofInputIters] using (lt_of_getElem? hiter)
    rw [← hmore, getElem?_append_left hlt]
    simp [ofInputIters, hiter]
  have hsplit : SplitOk σ.marks.length (.ofMark i range.extent 1) :=
    ⟨(lt_of_getElem? hmark), one_pos, hpos _ (mem_of_getElem? hiter)⟩
  have hdigit : ∀ ρ, InDomain iters ρ →
      (IterSplitExpr.ofMark i range.extent 1).eval (markValues ρ σ.marks) = ρ x' - range.min :=
    fun ρ hρ => by
      rw [IterSplitExpr.eval, digit_ofMark hσ.marks hρ hmark, getD_markValues hmark]
      simp [MarkSource.eval, IterSplitExpr.ofMark]
  unfold iterExpr
  split
  · next hmin =>
      refine ⟨hσ, prefix_refl _, .split hsplit fun _ => one_pos, fun ρ hρ => ?_⟩
      rw [eval_split, hdigit ρ hρ, hmin, sub_zero, PrimExpr.eval_var]
  · refine ⟨hσ, prefix_refl _, fun s hs => ?_, fun ρ hρ => ?_⟩
    · simp only [toIterSumExpr, mem_singleton] at hs
      exact hs ▸ ⟨hsplit, fun _ => one_pos⟩
    · simp [eval, toIterSumExpr, IterSumExpr.eval, hdigit ρ hρ]

variable {σ₁ : IterMapRewriter} (ha : Rewrites iters sums true σ a ra σ₁)
  (hone : isSum a = false → ra.toIterSumExpr.args.length ≤ 1) (hsums : isSum a = true → a ∈ sums)

include hno hpos ha hone hsums

theorem toSplit_spec (h : σ₁.toSplit ra = some (s, σ')) :
    Fuses iters sums true σ₁ ra.toIterSumExpr s σ' := by
  have hsum : 2 ≤ ra.toIterSumExpr.args.length →
      FusesSum iters sums true σ₁.marks ra.toIterSumExpr := by
    intro hlen
    have hs : isSum a = true := by
      by_contra hnot
      have := hone (by simpa using hnot)
      omega
    exact ⟨a, hsums hs, ⟨0, fun ρ hρ => by rw [add_zero]; exact (ha.eval_eq ρ hρ).symm⟩, .inl rfl⟩
  cases ra with
  | intImm c => simp [toSplit] at h
  | split e =>
    have he := ha.expr e (by simp [toIterSumExpr])
    obtain ⟨rfl, rfl⟩ := h
    refine ⟨ha.ok, prefix_refl _, he.1, he.2, fun hlen => ?_, fun ρ _ => ?_⟩
    · simp [toIterSumExpr] at hlen
    · simp [toIterSumExpr, IterSumExpr.eval]
  | sum e => exact tryFuseIters_spec hno hpos ha.ok ha.expr hsum h

variable {node : PrimExpr}

theorem divide_spec (hc : 0 < c) {op : ℤ → ℤ → ℤ}
    {byOne : IterMapExpr → IterMapExpr} {splitConst : IterSplitExpr → ℤ → Option IterMapExpr}
    (hnode : ∀ ρ, node.eval ρ = op (a.eval ρ) c)
    (hbyOne : c = 1 → Rewrites iters sums true σ node (byOne ra) σ₁)
    (hsplit : ∀ {n s ret}, SplitOk n s → 0 < s.scale → splitConst s c = some ret →
      TakesPart op n s c ret) (h : σ₁.divide op byOne splitConst ra (.intImm c) = some (r, σ')) :
    Rewrites iters sums true σ node r σ' := by
  by_cases hconst : ∃ x, ra = .intImm x
  · obtain ⟨x, rfl⟩ := hconst
    simp only [divide, hc.ne', if_false, Option.some.injEq, Prod.mk.injEq] at h
    obtain ⟨rfl, rfl⟩ := h
    refine ⟨ha.ok, ha.grows, .intImm _, fun ρ hρ => ?_⟩
    have hx := ha.eval_eq ρ hρ
    simp only [eval_intImm] at hx ⊢
    rw [hx, hnode]
  · have hiter : (if c = 1 then some (byOne ra, σ₁) else (σ₁.toSplit ra).bind fun p =>
        (splitConst p.1 c).bind fun ret => some (ret, p.2)) = some (r, σ') := by
      cases ra with
      | intImm x => exact absurd ⟨x, rfl⟩ hconst
      | split e | sum e => simpa [divide, hc.ne'] using h
    split at hiter
    · next h1 =>
        cases hiter
        exact hbyOne h1
    · simp only [Option.bind_eq_some_iff] at hiter
      obtain ⟨⟨s, σ₂⟩, hs, ret, hret, hout⟩ := hiter
      cases hout
      have hf := toSplit_spec hno hpos ha hone hsums hs
      obtain ⟨hok, heval⟩ := hsplit hf.split (hf.scale_pos rfl) hret
      refine ⟨hf.ok, ha.grows.trans hf.grows, hok, fun ρ hρ => ?_⟩
      rw [heval, hf.eval_eq ρ hρ, hnode]
      exact congrArg (op · c) (ha.eval_eq ρ hρ)

omit hno hpos ha hone hsums

/-- With positive scales, the weaker form holds as well. -/
theorem Rewrites.of_pos (h : Rewrites iters sums true σ e r σ')
    (pos : Bool) : Rewrites iters sums pos σ e r σ' :=
  ⟨h.ok, h.grows, fun s hs => ⟨(h.expr s hs).1, fun _ => (h.expr s hs).2 rfl⟩, h.eval_eq⟩

theorem Rewrites.scaleBy (h : Rewrites iters sums pos σ a ra σ')
    (hc : pos = true → 0 < c) (hnode : ∀ ρ, node.eval ρ = a.eval ρ * c) :
    Rewrites iters sums pos σ node (ra.scaleBy c) σ' :=
  ⟨h.ok, h.grows, h.expr.scaleBy hc, fun ρ hρ => by rw [eval_scaleBy, h.eval_eq ρ hρ, hnode]⟩

include hno hpos

/-- **Rewriting keeps the value of an index expression.** -/
theorem visitExpr_spec (he : IsIndex pos e) (hsums : ∀ a ∈ dividends e, isSum a = true → a ∈ sums)
    (hσ : RewriterOk iters sums σ) (h : IterMapRewriter.visitExpr e σ = some (r, σ')) :
    Rewrites iters sums pos σ e r σ' := by
  induction e generalizing pos σ σ' r with
  | intImm c =>
    obtain ⟨rfl, rfl⟩ := h
    exact ⟨hσ, prefix_refl _, .intImm _, fun ρ _ => by simp⟩
  | var x =>
    simp only [visitExpr, Option.map_eq_some_iff, Prod.mk.injEq] at h
    obtain ⟨r', hr, rfl, rfl⟩ := h
    exact rewrites_var hpos hσ pos hr
  | addNode a b iha ihb =>
    obtain ⟨⟨ra, σ₁⟩, ha, ⟨rb, σ₂⟩, hb, hout⟩ := bind₂_eq_some.mp h
    cases hout
    obtain ⟨hsa, hsb⟩ := forall_mem_append.mp hsums
    have hra := iha he.1 hsa hσ ha
    have hrb := ihb he.2 hsb hra.ok hb
    have hra' := hra.extend hrb.ok hrb.grows
    refine ⟨hrb.ok, hra'.grows, hra'.expr.add hrb.expr, fun ρ hρ => ?_⟩
    rw [eval_add, hra'.eval_eq ρ hρ, hrb.eval_eq ρ hρ]
    rfl
  | subNode a b iha ihb =>
    obtain ⟨⟨ra, σ₁⟩, ha, ⟨rb, σ₂⟩, hb, hout⟩ := bind₂_eq_some.mp h
    cases hout
    obtain ⟨hsa, hsb⟩ := forall_mem_append.mp hsums
    have hra := iha he.1 hsa hσ ha
    have hrb := ihb he.2.1 hsb hra.ok hb
    have hra' := hra.extend hrb.ok hrb.grows
    have hconst : pos = true → ∃ c, rb = .intImm c := by
      intro hp
      obtain ⟨c, rfl⟩ := he.2.2 hp
      simp only [visitExpr, Option.some.injEq, Prod.mk.injEq] at hb
      exact ⟨c, hb.1.symm⟩
    refine ⟨hrb.ok, hra'.grows, hra'.expr.sub hrb.expr hconst, fun ρ hρ => ?_⟩
    rw [eval_sub, hra'.eval_eq ρ hρ, hrb.eval_eq ρ hρ]
    rfl
  | mulNode a b iha ihb =>
    obtain ⟨⟨ra, σ₁⟩, ha, ⟨rb, σ₂⟩, hb, ret, hret, hout⟩ := bind₃_eq_some.mp h
    simp only [Option.some.injEq, Prod.mk.injEq] at hout
    obtain ⟨rfl, rfl⟩ := hout
    obtain ⟨hsa, hsb⟩ := forall_mem_append.mp hsums
    rcases he with ⟨⟨c, rfl, hc⟩, hib⟩ | ⟨hia, c, rfl, hc⟩
    · obtain ⟨rfl, rfl⟩ := ha
      have hrb := ihb hib hsb hσ hb
      obtain rfl : rb.scaleBy c = ret := by simpa [mul] using hret
      exact hrb.scaleBy hc fun ρ => mul_comm _ _
    · have hra := iha hia hsa hσ ha
      obtain ⟨rfl, rfl⟩ := hb
      cases (mul_intImm ra c).symm.trans hret
      exact hra.scaleBy hc fun ρ => rfl
  | floorDivNode a b iha ihb =>
    obtain ⟨⟨ra, σ₁⟩, ha, ⟨rb, σ₂⟩, hb, hout⟩ := bind₂_eq_some.mp h
    obtain ⟨hia, c, rfl, hc⟩ := he
    obtain ⟨rfl, rfl⟩ := hb
    obtain ⟨hsa, hrest⟩ := forall_mem_cons.mp hsums
    have hra := iha hia (forall_mem_append.mp hrest).1 hσ ha
    refine (divide_spec hno hpos hra (length_args_le_one hia hσ.oneSplitEach ha) hsa (hc rfl) (fun ρ => rfl)
      (fun h1 => ?_) (fun hs hscale hret => splitFloorDivConst_spec hs hscale (hc rfl) hret)
      hout).of_pos pos
    subst h1
    exact ⟨hra.ok, hra.grows, hra.expr, fun ρ hρ => (hra.eval_eq ρ hρ).trans (fdiv_one _).symm⟩
  | floorModNode a b iha ihb =>
    obtain ⟨⟨ra, σ₁⟩, ha, ⟨rb, σ₂⟩, hb, hout⟩ := bind₂_eq_some.mp h
    obtain ⟨hia, c, rfl, hc⟩ := he
    obtain ⟨rfl, rfl⟩ := hb
    obtain ⟨hsa, hrest⟩ := forall_mem_cons.mp hsums
    have hra := iha hia (forall_mem_append.mp hrest).1 hσ ha
    refine (divide_spec hno hpos hra (length_args_le_one hia hσ.oneSplitEach ha) hsa (hc rfl) (fun ρ => rfl)
      (fun h1 => ?_) (fun hs hscale hret => splitFloorModConst_spec hs hscale (hc rfl) hret)
      hout).of_pos pos
    subst h1
    exact ⟨hra.ok, hra.grows, .intImm _, fun ρ _ => (fmod_one _).symm⟩

omit hno hpos in
/-- The invariant holds at the beginning. -/
theorem rewriterOk_ofInputIters (iters : InputIters) (sums : List PrimExpr) :
    RewriterOk iters sums (.ofInputIters iters) := by
  refine ⟨rfl, rfl, prefix_refl _, fun i m h => ?_, fun p hp => ?_⟩
  · simp only [ofInputIters, getElem?_map, Option.map_eq_some_iff] at h
    obtain ⟨it, hit, rfl⟩ := h
    exact mem_of_getElem? hit
  · simp [ofInputIters] at hp

/-- What rewriting one index keeps: the result has one split at most, with a scale that is
not zero. -/
structure RewritesIndex (iters : InputIters) (sums : List PrimExpr) (σ : IterMapRewriter)
    (e : PrimExpr) (r : IterSumExpr) (σ' : IterMapRewriter) : Prop where
  ok : RewriterOk iters sums σ'
  grows : σ.marks <+: σ'.marks
  args : ∀ s ∈ r.args, SplitOk σ'.marks.length s ∧ s.scale ≠ 0
  one_arg : r.args.length ≤ 1
  eval_eq : ∀ ρ, InDomain iters ρ → r.eval (markValues ρ σ'.marks) = e.eval ρ

theorem rewrite_spec (he : IsIndex false e) (hconst : ConstantOn iters e.eval → IsIndex true e)
    (hsums : ∀ a ∈ e :: dividends e, isSum a = true → a ∈ sums) (hσ : RewriterOk iters sums σ)
    {r : IterSumExpr} (h : σ.rewrite e = some (r, σ')) : RewritesIndex iters sums σ e r σ' := by
  simp only [rewrite, do_eq_some] at h
  obtain ⟨⟨r', σ₁⟩, hvisit, hnorm⟩ := h
  -- An index that is constant has positive factors.
  obtain ⟨pos, hidx, hsign⟩ : ∃ pos, IsIndex pos e ∧ (pos = true ∨ ¬ConstantOn iters e.eval) := by
    by_cases hc : ConstantOn iters e.eval
    · exact ⟨true, hconst hc, .inl rfl⟩
    · exact ⟨false, he, .inr hc⟩
  have hr := visitExpr_spec hno hpos hidx
    (forall_mem_cons.mp hsums).2 hσ hvisit
  unfold normalizeToIterWithOffset at hnorm
  split at hnorm
  · next hlen =>
      cases hnorm
      refine ⟨hr.ok, hr.grows, fun s hs => ⟨(hr.expr s hs).1, fun hzero => ?_⟩, hlen, hr.eval_eq⟩
      -- The only split has scale zero, so the index is constant.
      have hargs : r'.toIterSumExpr.args = [s] := by
        obtain ⟨x, hx⟩ := length_eq_one_iff.mp
          (le_antisymm hlen (length_pos_of_mem hs))
        rw [hx] at hs ⊢
        rw [mem_singleton.mp hs]
      rcases hsign with rfl | hsign
      · have := (hr.expr s hs).2 rfl
        omega
      · refine hsign ⟨r'.toIterSumExpr.base, fun ρ hρ => ?_⟩
        have hval := hr.eval_eq ρ hρ
        simp only [eval, IterSumExpr.eval, hargs, map_cons, map_nil,
          sum_cons, sum_nil, IterSplitExpr.eval, hzero, mul_zero, zero_add] at hval
        exact hval.symm
  · next hlen =>
      simp only [do_eq_some] at hnorm
      obtain ⟨⟨s, σ₂⟩, hfuse, hout⟩ := hnorm
      cases hout
      have hlen2 : 2 ≤ r'.toIterSumExpr.args.length := Nat.lt_of_not_le hlen
      have hsum : isSum e = true := by
        by_contra hnot
        exact hlen (length_args_le_one hidx hσ.oneSplitEach hvisit (by simpa using hnot))
      have hval : ∀ vals, r'.eval vals =
          IterSumExpr.eval vals ⟨r'.toIterSumExpr.args, 0⟩ + r'.toIterSumExpr.base := by
        intro vals
        simp [eval, IterSumExpr.eval]
      have hfuses : FusesSum iters sums pos σ₁.marks ⟨r'.toIterSumExpr.args, 0⟩ :=
        ⟨e, hsums e mem_cons_self hsum, ⟨r'.toIterSumExpr.base, fun ρ hρ => by
          rw [← hr.eval_eq ρ hρ, hval]⟩, hsign⟩
      have hf := tryFuseIters_spec (e := ⟨r'.toIterSumExpr.args, 0⟩) hno hpos hr.ok hr.expr
        (fun _ => hfuses) hfuse
      refine ⟨hf.ok, hr.grows.trans hf.grows, fun s' hs' => ?_, le_rfl, fun ρ hρ => ?_⟩
      · rw [mem_singleton.mp hs']
        exact ⟨hf.split, hf.scale_ne hlen2⟩
      · rw [← hr.eval_eq ρ hρ, hval, ← hf.eval_eq ρ hρ]
        simp [IterSumExpr.eval]

theorem rewriteAll_spec (he : ∀ e ∈ indices, IsIndex false e)
    (hconst : ∀ e ∈ indices, ConstantOn iters e.eval → IsIndex true e)
    (hsums : ∀ a ∈ indices.flatMap (fun e => e :: dividends e), isSum a = true → a ∈ sums)
    (hσ : RewriterOk iters sums σ) {results : List IterSumExpr}
    (h : rewriteAll indices σ = some (results, σ')) :
    RewriterOk iters sums σ' ∧ σ.marks <+: σ'.marks ∧
      (∀ r ∈ results, r.args.length ≤ 1 ∧ ∀ s ∈ r.args, SplitOk σ'.marks.length s ∧ s.scale ≠ 0) ∧
      ∀ ρ, InDomain iters ρ →
        results.map (·.eval (markValues ρ σ'.marks)) = indices.map (·.eval ρ) := by
  induction indices generalizing σ results with
  | nil =>
    obtain ⟨rfl, rfl⟩ := h
    exact ⟨hσ, prefix_refl _, by simp, by simp⟩
  | cons e indices ih =>
    obtain ⟨⟨r, σ₁⟩, hr, ⟨rs, σ₂⟩, hrs, hout⟩ := bind₂_eq_some.mp h
    cases hout
    simp only [flatMap_cons, mem_append] at hsums
    have hone := rewrite_spec hno hpos (he e mem_cons_self) (hconst e mem_cons_self)
      (fun a ha => hsums a (.inl ha)) hσ hr
    obtain ⟨hok, hgrow, hargs, heval⟩ := ih (forall_mem_cons.mp he).2
      (forall_mem_cons.mp hconst).2
      (fun a ha => hsums a (.inr ha)) hone.ok hrs
    refine ⟨hok, hone.grows.trans hgrow, fun r' hr' => ?_, fun ρ hρ => ?_⟩
    · rcases mem_cons.mp hr' with rfl | hr'
      · exact ⟨hone.one_arg, fun s hs =>
          ⟨(hone.args s hs).1.mono hgrow.length_le, (hone.args s hs).2⟩⟩
      · exact hargs r' hr'
    · rw [map_cons, map_cons, heval ρ hρ,
        eval_extend hgrow fun s hs => (hone.args s hs).1, hone.eval_eq ρ hρ]

end

theorem detectIterMap_cases {iters : InputIters} {results : List IterSumExpr}
    (h : detectIterMap indices iters = some (results, marks)) :
    ∃ σ, rewriteAll indices (.ofInputIters iters) = some (results, σ) ∧
      σ.checkBijective results = true ∧ σ.marks = marks := by
  simp only [detectIterMap, do_eq_some] at h
  obtain ⟨⟨results', σ⟩, hrun, hout⟩ := h
  split_ifs at hout with hcheck
  cases hout
  exact ⟨σ, hrun, hcheck, rfl⟩

theorem mem_fusedSums :
    ∀ a ∈ indices.flatMap (fun e => e :: dividends e), isSum a = true → a ∈ fusedSums indices :=
  fun _ ha hs => mem_filter.mpr ⟨ha, hs⟩

/-- Two iterators from zero to three. -/
def fourByFour : InputIters := ⟨[("x", ⟨0, 4⟩), ("y", ⟨0, 4⟩)], by decide⟩

/-- `x * (4 * k) + y * k`. -/
def flattened (k : ℤ) : PrimExpr :=
  .addNode (.mulNode (.var "x") (.intImm (4 * k))) (.mulNode (.var "y") (.intImm k))

/-- The iterators, and the mark that `flattened` is fused into. -/
def flattenedMarks : List IterMark :=
  [⟨.iter "x" 0, 4⟩, ⟨.iter "y" 0, 4⟩, ⟨.sum ⟨[⟨0, 1, 4, 4⟩, ⟨1, 1, 4, 1⟩], 0⟩, 16⟩]

/-- The indices of the two parts of a flattened sum. -/
def dividedBy8 (k l : ℤ) : List PrimExpr :=
  [.floorDivNode (flattened k) (.intImm 8), .floorModNode (flattened l) (.intImm 8)]

theorem inDomain_fourByFour {ρ : String → ℤ} (hx : 0 ≤ ρ "x" ∧ ρ "x" < 4)
    (hy : 0 ≤ ρ "y" ∧ ρ "y" < 4) : InDomain fourByFour ρ := by
  intro it hit
  simp only [fourByFour, mem_cons, not_mem_nil, or_false] at hit
  rcases hit with rfl | rfl
  · simpa [ConstRange.Has] using hx
  · simpa [ConstRange.Has] using hy

end Pruner.Arith
