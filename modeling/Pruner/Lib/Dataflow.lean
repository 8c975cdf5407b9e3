import Mathlib.Order.Lattice.Nat
import Pruner.Lib.PartialRun

/-!
# Regions of a dataflow graph

The nodes of an acyclic graph are numbered so that edges lead to larger numbers.  A node
covers another one if every way on from the other one reaches it before any value escapes,
that is, if it post-dominates it.  A map of nodes to groups has single exits if only the
node that a group is named after is used outside of the group; merging all groups of a
region into the group that the region flows into keeps that.

## Main definitions

* `walkFrom` — a walk that enters every node once, and what it enters.
* `Covers` — post-dominance.
* `SingleExit` — every group has one exit.
* `SingleExit.merge` — merging the groups of a region.
* `SingleExit.acyclic` — contracting the groups leaves no cycle.
-/

namespace Pruner.Lib

open List

variable {d n x : ℕ} {succ : ℕ → List ℕ} {escapes : ℕ → Prop}

/-- Edges lead to larger nodes, below `n`. -/
def Upward (n : ℕ) (succ : ℕ → List ℕ) : Prop := ∀ x, ∀ y ∈ succ x, x < y ∧ y < n

/-- Induction against the edges. -/
theorem Upward.induction {succ : ℕ → List ℕ} (h : Upward n succ) {P : ℕ → Prop}
    (step : ∀ x, (∀ y ∈ succ x, P y) → P x) (x : ℕ) : P x := by
  induction hk : n - x using Nat.strong_induction_on generalizing x with
  | h k ih =>
    apply step
    intro y hy
    have hlt := h x y hy
    exact ih (n - y) (by omega) y rfl

/-! ## Walks -/

variable (succ) {σ : Type} (skip leaf : ℕ → Bool) (f : σ → ℕ → Option σ)

/-- Walk on from a node, with a state and the nodes that have been entered.  Nodes to skip are
not entered, and a walk does not go on from a leaf. -/
def walkFrom : ℕ → ℕ → σ × List ℕ → Option (σ × List ℕ)
  | 0, _, _ => none
  | fuel + 1, x, st =>
    if skip x then some st
    else if x ∈ st.2 then some st
    else
      (f st.1 x).bind fun s =>
        if leaf x then some (s, x :: st.2)
        else (succ x).foldlM (fun st y => walkFrom fuel y st) (s, x :: st.2)

/-- What a walk inside of `P` has done: the new nodes are closed under edges. -/
structure Walked (P : ℕ → Prop) (st st' : σ × List ℕ) (new : List ℕ) : Prop where
  entered : st'.2 = new.reverse ++ st.2
  run : new.foldlM f st.1 = some st'.1
  inside : ∀ y ∈ new, skip y = false ∧ P y
  closed : ∀ y ∈ new, leaf y = false → ∀ z ∈ succ y, skip z = true ∨ z ∈ st'.2

variable {succ skip leaf f} {P : ℕ → Prop}

theorem Walked.refl (st : σ × List ℕ) : Walked succ skip leaf f P st st [] :=
  ⟨rfl, rfl, by simp, by simp⟩

variable {st st' : σ × List ℕ}

theorem Walked.mem {new : List ℕ} (h : Walked succ skip leaf f P st st' new)
    {y : ℕ} : y ∈ st'.2 ↔ y ∈ new ∨ y ∈ st.2 := by
  simp [h.entered]

theorem Walked.trans {m : σ × List ℕ} {new₁ new₂ : List ℕ}
    (h₁ : Walked succ skip leaf f P st m new₁) (h₂ : Walked succ skip leaf f P m st' new₂) :
    Walked succ skip leaf f P st st' (new₁ ++ new₂) where
  entered := by simp [h₁.entered, h₂.entered]
  run := foldlM_append_eq_some.mpr ⟨m.1, h₁.run, h₂.run⟩
  inside := fun y hy => (mem_append.mp hy).elim (h₁.inside y) (h₂.inside y)
  closed := fun y hy hleaf z hz => by
    rcases mem_append.mp hy with hy | hy
    · exact (h₁.closed y hy hleaf z hz).imp_right fun hz => h₂.mem.mpr (.inr hz)
    · exact h₂.closed y hy hleaf z hz

theorem walked_of_foldlM {walk : ℕ → σ × List ℕ → Option (σ × List ℕ)} {l : List ℕ}
    (hwalk : ∀ z ∈ l, ∀ st st', walk z st = some st' →
      ∃ new, Walked succ skip leaf f P st st' new ∧ (skip z = true ∨ z ∈ st'.2))
    (h : l.foldlM (fun st y => walk y st) st = some st') :
    ∃ new, Walked succ skip leaf f P st st' new ∧ ∀ z ∈ l, skip z = true ∨ z ∈ st'.2 := by
  refine foldlM_run (p := []) (fun pre m => ∃ new, Walked succ skip leaf f P st m new ∧
    ∀ z ∈ pre, skip z = true ∨ z ∈ m.2) ?_ ⟨[], Walked.refl st, by simp⟩ h
  rintro pre z hz m m' ⟨new₁, h₁, hpre⟩ hm
  obtain ⟨new₂, h₂, hdone⟩ := hwalk z hz m m' hm
  refine ⟨new₁ ++ new₂, h₁.trans h₂, forall_mem_append.mpr ⟨fun y hy => ?_, by simpa⟩⟩
  exact (hpre y hy).imp_right fun hy => h₂.mem.mpr (.inr hy)

/-- **A walk enters a region that is closed under edges.** -/
theorem walkFrom_spec (hP : ∀ y, P y → skip y = false → leaf y = false → ∀ z ∈ succ y, P z)
    {fuel : ℕ} (hx : P x) (h : walkFrom succ skip leaf f fuel x st = some st') :
    ∃ new, Walked succ skip leaf f P st st' new ∧ (skip x = true ∨ x ∈ st'.2) := by
  induction fuel generalizing x st st' with
  | zero => cases h
  | succ fuel ih =>
    rw [walkFrom] at h
    split at h
    · next hskip =>
        cases h
        exact ⟨[], Walked.refl st, .inl hskip⟩
    · next hskip =>
        have hskip : skip x = false := by simpa using hskip
        split at h
        · next hmem =>
            cases h
            exact ⟨[], Walked.refl st, .inr hmem⟩
        · obtain ⟨s, hs, h⟩ := Option.bind_eq_some_iff.mp h
          split at h
          · next hleaf =>
              cases h
              refine ⟨[x], ⟨rfl, by simpa using hs, by simp [hskip, hx], ?_⟩, .inr ?_⟩
              · simp [hleaf]
              · simp
          · next hleaf =>
              have hleaf : leaf x = false := by simpa using hleaf
              obtain ⟨new, hw, hclosed⟩ :=
                walked_of_foldlM (fun z hz _ _ => ih (hP x hx hskip hleaf z hz)) h
              refine ⟨x :: new, ⟨?_, ?_, ?_, ?_⟩, .inr (hw.mem.mpr (.inr (by simp)))⟩
              · simp [hw.entered]
              · exact foldlM_cons_eq_some.mpr ⟨s, hs, hw.run⟩
              · exact forall_mem_cons.mpr ⟨⟨hskip, hx⟩, hw.inside⟩
              · intro y hy hy' z hz
                rcases mem_cons.mp hy with rfl | hy
                · exact hclosed z hz
                · exact hw.closed y hy hy' z hz

theorem exists_walkFrom (hup : Upward n succ)
    (hP : ∀ y, P y → skip y = false → leaf y = false → ∀ z ∈ succ y, P z) {I : σ → Prop}
    (hf : ∀ s y, I s → P y → skip y = false → ∃ s', f s y = some s' ∧ I s') {fuel : ℕ} (hn : x < n)
    (hfuel : n ≤ fuel + x) (hx : P x) (hI : I st.1) :
    ∃ st', walkFrom succ skip leaf f fuel x st = some st' ∧ I st'.1 := by
  induction fuel generalizing x st with
  | zero => omega
  | succ fuel ih =>
    rw [walkFrom]
    split
    · exact ⟨st, rfl, hI⟩
    · next hskip =>
        have hskip : skip x = false := by simpa using hskip
        split
        · exact ⟨st, rfl, hI⟩
        · obtain ⟨s, hs, hIs⟩ := hf st.1 x hI hx hskip
          rw [hs]
          split
          · exact ⟨_, rfl, hIs⟩
          · next hleaf =>
              have hleaf : leaf x = false := by simpa using hleaf
              refine exists_foldlM_invariant (fun st : σ × List ℕ => I st.1) ?_ hIs
              intro y hy st hst
              have hlt := hup x y hy
              exact ih hlt.2 (by omega) (hP x hx hskip hleaf y hy) hst

/-! ## Post-dominance -/

/-- Every way on from a node leads to `d`, and no value escapes before. -/
inductive Covers (succ : ℕ → List ℕ) (escapes : ℕ → Prop) (d : ℕ) : ℕ → Prop where
  | self : Covers succ escapes d d
  | step {x : ℕ} : ¬ escapes x → succ x ≠ [] → (∀ y ∈ succ x, Covers succ escapes d y) →
      Covers succ escapes d x

theorem Covers.trans {a : ℕ} (ha : Covers succ escapes a d) (hd : Covers succ escapes d x) :
    Covers succ escapes a x := by
  induction hd with
  | self => exact ha
  | step hesc hne _ ih => exact .step hesc hne ih

theorem Covers.inner (h : Covers succ escapes d x) (hne : x ≠ d) :
    ¬ escapes x ∧ succ x ≠ [] ∧ ∀ y ∈ succ x, Covers succ escapes d y := by
  cases h with
  | self => exact absurd rfl hne
  | step hesc hsucc hall => exact ⟨hesc, hsucc, hall⟩

/-- A cover is not below what it covers, and is a node of the graph. -/
theorem Covers.le (hup : Upward n succ) (h : Covers succ escapes d x) :
    x ≤ d ∧ (x < n → d < n) := by
  induction h with
  | self => exact ⟨le_refl d, id⟩
  | step _ hne _ ih =>
    obtain ⟨y, hy⟩ := exists_mem_of_ne_nil _ hne
    have hlt := hup _ y hy
    have hle := (ih y hy).1
    exact ⟨by omega, fun _ => (ih y hy).2 hlt.2⟩

/-! ## Groups with a single exit -/

/-- Groups of nodes, named after members: a node that its group is not named after has
consumers, all of them in the group, and does not escape. -/
structure SingleExit (n : ℕ) (succ : ℕ → List ℕ) (escapes : ℕ → Prop) (group : ℕ → ℕ) : Prop where
  idem : ∀ x, group (group x) = group x
  le : ∀ x, x ≤ group x
  inner : ∀ x < n, group x ≠ x → ¬ escapes x ∧ succ x ≠ [] ∧ ∀ y ∈ succ x, group y = group x

variable {group : ℕ → ℕ}

/-- Every node is a group of its own. -/
theorem singleExit_id : SingleExit n succ escapes fun x => x where
  idem _ := rfl
  le _ := le_refl _
  inner _ _ h := absurd rfl h

variable {region : ℕ → Prop} {sink : ℕ} (h : SingleExit n succ escapes group) (hup : Upward n succ)
include h hup

/-- The node that a group of a region is named after is in the region, unless the group is the
one that the region flows into. -/
theorem SingleExit.name_mem_region (hregion : ∀ x, region x → x < n ∧ ∀ y ∈ succ x, y = sink ∨ region y)
    (hx : region x) : region (group x) ∨ group x = group sink := by
  refine hup.induction (P := fun x => region x → region (group x) ∨ group x = group sink)
    (fun x ih hx => ?_) x hx
  by_cases hself : group x = x
  · exact .inl (by rwa [hself])
  · obtain ⟨-, hne, hall⟩ := h.inner x (hregion x hx).1 hself
    obtain ⟨y, hy⟩ := exists_mem_of_ne_nil _ hne
    rcases (hregion x hx).2 y hy with rfl | hy'
    · exact .inr (hall y hy).symm
    · rw [← hall y hy]
      exact ih y hy hy'

open Classical in
/-- **Merging the groups of a region** into the group that the region flows into. -/
theorem SingleExit.merge (hregion : ∀ x, region x → x < n ∧ ¬ escapes x ∧ succ x ≠ [] ∧
      ∀ y ∈ succ x, y = sink ∨ region y) (hle : ∀ x, region x → group x ≤ group sink) :
    SingleExit n succ escapes fun x =>
      if ∃ y, region y ∧ group x = group y then group sink else group x := by
  have hsink : (if ∃ y, region y ∧ group sink = group y then group sink else group sink) =
      group sink := ite_self _
  refine ⟨fun x => ?_, fun x => ?_, fun x hx hne => ?_⟩
  · by_cases hm : ∃ y, region y ∧ group x = group y
    · simp [if_pos hm, h.idem]
    · simp [if_neg hm, h.idem]
  · by_cases hm : ∃ y, region y ∧ group x = group y
    · obtain ⟨y, hy, hxy⟩ := hm
      rw [if_pos ⟨y, hy, hxy⟩]
      exact (h.le x).trans (hxy ▸ hle y hy)
    · rw [if_neg hm]
      exact h.le x
  · by_cases hm : ∃ y, region y ∧ group x = group y
    · rw [if_pos hm] at hne ⊢
      obtain ⟨y, hy, hxy⟩ := hm
      by_cases hself : group x = x
      · -- The exit of a merged group flows into the region, or into the sink.
        have hname := h.name_mem_region hup
          (fun x hx => ⟨(hregion x hx).1, (hregion x hx).2.2.2⟩) hy
        rw [← hxy, hself] at hname
        rcases hname with hmem | hsame
        · obtain ⟨-, hesc, hsucc, hall⟩ := hregion x hmem
          refine ⟨hesc, hsucc, fun z hz => ?_⟩
          rcases hall z hz with rfl | hz'
          · exact hsink
          · exact if_pos ⟨z, hz', rfl⟩
        · exact absurd hsame.symm hne
      · obtain ⟨hesc, hsucc, hall⟩ := h.inner x hx hself
        exact ⟨hesc, hsucc, fun z hz => if_pos ⟨y, hy, (hall z hz).trans hxy⟩⟩
    · rw [if_neg hm] at hne ⊢
      obtain ⟨hesc, hsucc, hall⟩ := h.inner x hx hne
      refine ⟨hesc, hsucc, fun z hz => ?_⟩
      rw [if_neg (by rwa [hall z hz]), hall z hz]

/-- A value that is used outside of the group, escapes, or has no use at all. -/
def IsExit (succ : ℕ → List ℕ) (escapes : ℕ → Prop) (group : ℕ → ℕ) (x : ℕ) : Prop :=
  escapes x ∨ succ x = [] ∨ ∃ y ∈ succ x, group y ≠ group x

/-- **The exits are the nodes that groups are named after.** -/
theorem SingleExit.isExit_iff (hx : x < n) : IsExit succ escapes group x ↔ group x = x := by
  constructor
  · intro hexit
    by_contra hne
    obtain ⟨hesc, hsucc, hall⟩ := h.inner x hx hne
    rcases hexit with hexit | hexit | ⟨y, hy, hy'⟩
    · exact hesc hexit
    · exact hsucc hexit
    · exact hy' (hall y hy)
  · intro hself
    by_cases hsucc : succ x = []
    · exact .inr (.inl hsucc)
    · obtain ⟨y, hy⟩ := exists_mem_of_ne_nil _ hsucc
      refine .inr (.inr ⟨y, hy, ?_⟩)
      have hlt := (hup x y hy).1
      have hle := h.le y
      omega

/-- An edge between different groups. -/
def GroupEdge (n : ℕ) (succ : ℕ → List ℕ) (group : ℕ → ℕ) (g g' : ℕ) : Prop :=
  g ≠ g' ∧ ∃ x < n, ∃ y ∈ succ x, group x = g ∧ group y = g'

/-- **Contracting the groups leaves no cycle.** -/
theorem SingleExit.acyclic (g : ℕ) :
    ¬ Relation.TransGen (GroupEdge n succ group) g g := by
  -- An edge leaves a group at the node it is named after, so the names increase.
  have hlt : ∀ g g', GroupEdge n succ group g g' → g < g' := by
    rintro g g' ⟨hne, x, hx, y, hy, rfl, rfl⟩
    have hself : group x = x := by
      by_contra hx'
      exact hne ((h.inner x hx hx').2.2 y hy).symm
    have hxy := (hup x y hy).1
    have hle := h.le y
    omega
  intro hcycle
  have hless : ∀ g', Relation.TransGen (GroupEdge n succ group) g g' → g < g' := by
    intro g' hg'
    induction hg' with
    | single hedge => exact hlt _ _ hedge
    | tail _ hedge ih => exact ih.trans (hlt _ _ hedge)
  exact lt_irrefl g (hless g hcycle)

end Pruner.Lib
