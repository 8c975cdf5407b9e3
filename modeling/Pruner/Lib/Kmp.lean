import Mathlib.Data.List.Infix

/-!
# Searching a word with the table of its borders

The search of Knuth, Morris and Pratt as two loops over one step.  The state of the
search is the number of letters of the word that the text read so far ends with; a
letter that does not continue the word sends it back along the table of borders, and
the table is filled by running the same search on the word itself.

## Main definitions

* `Matched w t k` — the text `t` ends with the first `k` letters of `w`.
* `IsState w t k` — `k` is the greatest such number.
* `kmpStep`, `borderTable`, `kmpSearch` — the step, the table and the search.

## Main results

* `isState_kmpStep` — with a correct table, a step leads from state to state.
* `kmpSearch_eq_some_iff`, `kmpSearch_eq_none_iff` — the search finds the first
  occurrence of the word, if there is one.
-/

namespace Pruner.Lib

open List

variable {α : Type*} {t : List α}

/-- The text ends with the first `k` letters of the word. -/
def Matched (w t : List α) (k : ℕ) : Prop := k ≤ w.length ∧ w.take k <:+ t

/-- `k` is the length of the longest prefix of the word that the text ends with. -/
def IsState (w t : List α) (k : ℕ) : Prop := Matched w t k ∧ ∀ m, Matched w t m → m ≤ k

/-- The word stands in the text at position `i`. -/
def OccursAt (w t : List α) (i : ℕ) : Prop := w <+: t.drop i

variable {w : List α} {k m : ℕ}

theorem matched_zero (w t : List α) : Matched w t 0 := ⟨Nat.zero_le _, by simp⟩

theorem Matched.le_length (h : Matched w t k) : k ≤ t.length := by
  have hle := h.2.length_le
  have hk := h.1
  rw [length_take] at hle
  omega

/-- A shorter match is a match of the end of the longer one. -/
theorem Matched.border (hk : Matched w t k) (hm : Matched w t m) (hlt : m < k) :
    Matched w (w.take k).tail m := by
  refine ⟨hm.1, ?_⟩
  have hlen : (w.take m).length ≤ (w.take k).tail.length := by
    have hk' := hk.1
    simp only [length_take, length_tail]
    omega
  exact suffix_of_suffix_length_le hm.2 ((tail_suffix _).trans hk.2) hlen

theorem matched_concat_iff {c : α} :
    Matched w (t ++ [c]) (k + 1) ↔ Matched w t k ∧ w[k]? = some c := by
  constructor
  · rintro ⟨hle, hsuf⟩
    have hk : k < w.length := hle
    rw [take_succ_eq_append_getElem hk] at hsuf
    obtain ⟨s, hs⟩ := hsuf
    rw [← append_assoc] at hs
    obtain ⟨hs₁, hs₂⟩ := append_inj' hs rfl
    have hc : w[k] = c := by simpa using hs₂
    exact ⟨⟨hk.le, s, hs₁⟩, by rw [getElem?_eq_getElem hk, hc]⟩
  · rintro ⟨⟨hle, s, hs⟩, hc⟩
    obtain ⟨hk, hck⟩ := List.getElem?_eq_some_iff.mp hc
    refine ⟨hk, s, ?_⟩
    rw [take_succ_eq_append_getElem hk, hck, ← append_assoc, hs]

theorem isState_nil (w : List α) : IsState w [] 0 :=
  ⟨matched_zero _ _, fun _ hm => by simpa using hm.le_length⟩

theorem occursAt_iff_suffix {i : ℕ} (hw : w ≠ []) :
    OccursAt w t i ↔ i + w.length ≤ t.length ∧ w <:+ t.take (i + w.length) := by
  have hpos := length_pos_iff.mpr hw
  constructor
  · intro h
    have hle := IsPrefix.length_le h
    rw [length_drop] at hle
    have heq : w = (t.drop i).take w.length := (prefix_iff_eq_take.mp h)
    refine ⟨by omega, t.take i, ?_⟩
    conv_lhs => rw [heq]
    rw [← take_add]
  · rintro ⟨hle, s, hs⟩
    have hlen : s.length = i := by
      have := congrArg length hs
      rw [length_append, length_take] at this
      omega
    refine ⟨t.drop (i + w.length), ?_⟩
    conv_rhs => rw [← take_append_drop (i + w.length) t, ← hs, append_assoc]
    rw [← hlen, drop_left]

/-! ## The step -/

section

variable (w) [DecidableEq α] (next : List ℕ) (c : α)

/-- Going back along the borders until `c` continues the word, or nothing is left. -/
def fallBack : ℕ → ℕ → ℕ
  | 0, j => j
  | fuel + 1, j =>
    if 0 < j ∧ w[j]? ≠ some c then fallBack fuel (next.getD (j - 1) 0) else j

/-- One letter of the text; every fall shortens the match, so `j` falls are enough. -/
def kmpStep (j : ℕ) : ℕ :=
  let j' := fallBack w next c j j
  if w[j']? = some c then j' + 1 else j'

/-- The entries of the table are the states the search reaches on the word's own tail. -/
def TableOk : Prop := ∀ m k, next[m]? = some k → IsState w (w.take (m + 1)).tail k

variable {w next c} {j : ℕ}

omit [DecidableEq α] in
theorem TableOk.getD (hnext : TableOk w next) (hj : 0 < j) (hlen : j ≤ next.length) :
    IsState w (w.take j).tail (next.getD (j - 1) 0) := by
  have hlt : j - 1 < next.length := by omega
  have hget : next[j - 1]? = some (next.getD (j - 1) 0) := by
    rw [getD_eq_getElem?_getD, getElem?_eq_getElem hlt, Option.getD_some]
  have h := hnext _ _ hget
  rwa [Nat.sub_add_cancel hj] at h

/-- What falling back keeps: no match that `c` continues is lost. -/
theorem fallBack_spec (hnext : TableOk w next) (fuel : ℕ) (hfuel : j ≤ fuel)
    (hlen : j ≤ next.length) (hj : Matched w t j)
    (hbest : ∀ m, Matched w t m → w[m]? = some c → m ≤ j) :
    let j' := fallBack w next c fuel j
    Matched w t j' ∧ (∀ m, Matched w t m → w[m]? = some c → m ≤ j') ∧
      (j' = 0 ∨ w[j']? = some c) := by
  induction fuel generalizing j with
  | zero =>
    have h0 : j = 0 := by omega
    exact ⟨hj, hbest, .inl h0⟩
  | succ fuel ih =>
    simp only [fallBack]
    split
    · next hcond =>
        have hstate := hnext.getD hcond.1 hlen
        have hlt : next.getD (j - 1) 0 < j := by
          have hle := hstate.1.le_length
          rw [length_tail, length_take] at hle
          omega
        refine ih (by omega) (by omega) ⟨hstate.1.1, hstate.1.2.trans ((tail_suffix _).trans hj.2)⟩
          fun m hm hc => ?_
        have hne : m ≠ j := fun h => hcond.2 (h ▸ hc)
        have hmj : m < j := lt_of_le_of_ne (hbest m hm hc) hne
        exact hstate.2 m (hj.border hm hmj)
    · next hcond =>
        refine ⟨hj, hbest, ?_⟩
        by_cases h0 : 0 < j
        · exact .inr (not_not.mp fun hc => hcond ⟨h0, hc⟩)
        · exact .inl (by omega)

/-- **A step leads from state to state.** -/
theorem isState_kmpStep (hnext : TableOk w next) (hlen : j ≤ next.length)
    (hj : IsState w t j) : IsState w (t ++ [c]) (kmpStep w next c j) := by
  obtain ⟨hmatch, hbest, hstop⟩ :=
    fallBack_spec hnext j le_rfl hlen hj.1 fun m hm _ => hj.2 m hm
  rw [kmpStep]
  split
  · next hc =>
      refine ⟨matched_concat_iff.mpr ⟨hmatch, hc⟩, fun m hm => ?_⟩
      cases m with
      | zero => exact Nat.zero_le _
      | succ m =>
        obtain ⟨hm', hcm⟩ := matched_concat_iff.mp hm
        exact Nat.succ_le_succ (hbest m hm' hcm)
  · next hc =>
      have h0 : fallBack w next c j j = 0 := hstop.resolve_right hc
      rw [h0] at hc hbest ⊢
      refine ⟨matched_zero _ _, fun m hm => ?_⟩
      cases m with
      | zero => exact le_rfl
      | succ m =>
        obtain ⟨hm', hcm⟩ := matched_concat_iff.mp hm
        have hm0 : m = 0 := Nat.le_zero.mp (hbest m hm' hcm)
        exact absurd (hm0 ▸ hcm) hc

end

/-! ## The table -/

section

variable [DecidableEq α]

/-- The table after one more letter of the word, and the state the search is in. -/
def tableStep (w : List α) (s : List ℕ × ℕ) (c : α) : List ℕ × ℕ :=
  let j := kmpStep w s.1 c s.2
  (s.1 ++ [j], j)

/-- The length of the longest proper border of every non-empty prefix of the word. -/
def borderTable (w : List α) : List ℕ := (w.tail.foldl (tableStep w) ([0], 0)).1

/-- What holds after `n` letters of the word's tail. -/
structure TableState (w : List α) (n : ℕ) (s : List ℕ × ℕ) : Prop where
  length : s.1.length = n + 1
  table : TableOk w s.1
  state : IsState w (w.take (n + 1)).tail s.2

variable {n : ℕ} {s : List ℕ × ℕ}

omit [DecidableEq α] in
theorem tableState_start (w : List α) : TableState w 0 ([0], 0) := by
  have hnil : (w.take (0 + 1)).tail = [] := by cases w <;> rfl
  refine ⟨rfl, fun m k hk => ?_, hnil ▸ isState_nil w⟩
  cases m with
  | zero =>
    rw [getElem?_cons_zero, Option.some.injEq] at hk
    exact hk ▸ hnil ▸ isState_nil w
  | succ m => simp at hk

theorem TableState.next {c : α} (h : TableState w n s) (hc : w[n + 1]? = some c) :
    TableState w (n + 1) (tableStep w s c) := by
  obtain ⟨hlt, hget⟩ := List.getElem?_eq_some_iff.mp hc
  have htail : (w.take (n + 1 + 1)).tail = (w.take (n + 1)).tail ++ [c] := by
    rw [take_succ_eq_append_getElem hlt, hget,
      tail_append_of_ne_nil (by rw [← length_pos_iff, length_take]; omega)]
  have hle : s.2 ≤ s.1.length := by
    have hle := h.state.1.le_length
    rw [length_tail, length_take] at hle
    have := h.length
    omega
  have hstate : IsState w (w.take (n + 1 + 1)).tail (kmpStep w s.1 c s.2) :=
    htail ▸ isState_kmpStep h.table hle h.state
  refine ⟨by simp [tableStep, h.length], fun m k hk => ?_, hstate⟩
  rw [tableStep, getElem?_append] at hk
  split at hk
  · exact h.table m k hk
  · next hge =>
      have hm : m - s.1.length = 0 := by
        by_contra hne
        rw [getElem?_eq_none (by simp; omega)] at hk
        exact absurd hk (by simp)
      have hmn : m = n + 1 := by
        have := h.length
        omega
      rw [hm, getElem?_cons_zero, Option.some.injEq] at hk
      rw [hmn, ← hk]
      exact hstate

theorem TableState.foldl (h : TableState w n s) : TableState w (n + (w.drop (n + 1)).length)
      ((w.drop (n + 1)).foldl (tableStep w) s) := by
  induction hl : w.drop (n + 1) generalizing n s with
  | nil => exact h
  | cons c l ih =>
    have hc : w[n + 1]? = some c := by
      rw [← head?_drop, hl, head?_cons]
    have hdrop : w.drop (n + 1 + 1) = l := by
      rw [← tail_drop, hl, tail_cons]
    have hrest := ih (h.next hc) hdrop
    rw [length_cons, ← Nat.add_assoc, Nat.add_right_comm]
    exact hrest

theorem tableState_borderTable (w : List α) :
    TableState w (w.length - 1) (w.tail.foldl (tableStep w) ([0], 0)) := by
  have h := (tableState_start w).foldl
  rw [Nat.zero_add, length_drop, drop_one] at h
  exact h

end

/-! ## The search -/

variable (w) [DecidableEq α]

/-- The rest of the text, from letter `i` in state `j`. -/
def kmpFrom (next : List ℕ) : List α → ℕ → ℕ → Option ℕ
  | [], _, _ => none
  | c :: t, i, j =>
    let j' := kmpStep w next c j
    if j' = w.length then some (i + 1 - w.length) else kmpFrom next t (i + 1) j'

/-- The first position at which the word stands in the text. -/
def kmpSearch (t : List α) : Option ℕ := kmpFrom w (borderTable w) t 0 0

/-- The result a search has to have. -/
def IsFirst (t : List α) : Option ℕ → Prop
  | none => ∀ i, ¬ OccursAt w t i
  | some p => OccursAt w t p ∧ ∀ i < p, ¬ OccursAt w t i

variable {w}

/-- What holds before the search reads on: no occurrence ends in what has been read. -/
structure Searching (t : List α) (i j : ℕ) : Prop where
  state : IsState w (t.take i) j
  unfinished : j < w.length
  none_before : ∀ q, q + w.length ≤ i → ¬ OccursAt w t q

theorem kmpFrom_isFirst {next : List ℕ} (hw : w ≠ []) (hnext : TableOk w next)
    (hlen : next.length = w.length) {i j : ℕ} (h : Searching (w := w) t i j)
    (hi : i ≤ t.length) : IsFirst w t (kmpFrom w next (t.drop i) i j) := by
  induction hl : t.drop i generalizing i j with
  | nil =>
    intro q hq
    have hge : t.length ≤ i := drop_eq_nil_iff.mp hl
    have hle := ((occursAt_iff_suffix hw).mp hq).1
    exact h.none_before q (by omega) hq
  | cons c l ih =>
    have hc : t[i]? = some c := by rw [← head?_drop, hl, head?_cons]
    obtain ⟨hlt, hget⟩ := List.getElem?_eq_some_iff.mp hc
    have htake : t.take (i + 1) = t.take i ++ [c] := by
      rw [take_succ_eq_append_getElem hlt, hget]
    have hstate : IsState w (t.take (i + 1)) (kmpStep w next c j) := by
      rw [htake]
      exact isState_kmpStep hnext (hlen ▸ h.unfinished.le) h.state
    rw [kmpFrom]
    split
    · next hfull =>
        have hsuf : w <:+ t.take (i + 1) := by
          have := hstate.1.2
          rwa [hfull, take_length] at this
        have hle : w.length ≤ i + 1 := by
          have := hsuf.length_le
          rw [length_take] at this
          omega
        have hend : i + 1 - w.length + w.length = i + 1 := by omega
        refine ⟨(occursAt_iff_suffix hw).mpr ⟨by omega, hend.symm ▸ hsuf⟩, fun q hq => ?_⟩
        exact h.none_before q (by omega)
    · next hpart =>
        have hdrop : t.drop (i + 1) = l := by rw [← tail_drop, hl, tail_cons]
        refine ih ⟨hstate, lt_of_le_of_ne hstate.1.1 hpart, fun q hq hocc => ?_⟩ hlt hdrop
        by_cases hqi : q + w.length = i + 1
        · have hsuf := ((occursAt_iff_suffix hw).mp hocc).2
          rw [hqi] at hsuf
          have hfull : Matched w (t.take (i + 1)) w.length := ⟨le_rfl, by rwa [take_length]⟩
          exact hpart (le_antisymm hstate.1.1 (hstate.2 _ hfull))
        · exact h.none_before q (by omega) hocc

theorem kmpSearch_isFirst (hw : w ≠ []) (t : List α) : IsFirst w t (kmpSearch w t) := by
  have hpos := length_pos_iff.mpr hw
  have htable := tableState_borderTable w
  have hlen : (borderTable w).length = w.length := by
    have := htable.length
    rw [borderTable]
    omega
  have hstart : Searching t 0 0 := ⟨isState_nil w, hpos, fun q hq => absurd hq (by omega)⟩
  exact kmpFrom_isFirst hw htable.table hlen hstart (Nat.zero_le _)

/-- **The search stops at the first occurrence.** -/
theorem kmpSearch_eq_some_iff (hw : w ≠ []) {p : ℕ} :
    kmpSearch w t = some p ↔ OccursAt w t p ∧ ∀ i < p, ¬ OccursAt w t i := by
  have h := kmpSearch_isFirst hw t
  constructor
  · intro hp
    rwa [hp] at h
  · rintro ⟨hocc, hfirst⟩
    cases hr : kmpSearch w t with
    | none =>
      rw [hr] at h
      exact absurd hocc (h p)
    | some r =>
      rw [hr] at h
      have hrp : ¬ r < p := fun hlt => hfirst r hlt h.1
      have hpr : ¬ p < r := fun hlt => h.2 p hlt hocc
      exact congrArg some (by omega)

/-- **It fails only on a text without the word.** -/
theorem kmpSearch_eq_none_iff (hw : w ≠ []) : kmpSearch w t = none ↔ ∀ i, ¬ OccursAt w t i := by
  have h := kmpSearch_isFirst hw t
  constructor
  · intro hn
    rwa [hn] at h
  · intro hall
    cases hr : kmpSearch w t with
    | none => rfl
    | some r =>
      rw [hr] at h
      exact absurd h.1 (hall r)

end Pruner.Lib
