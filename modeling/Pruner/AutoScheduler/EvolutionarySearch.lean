import Pruner.Lib.BestOf
import Pruner.Lib.Heap
import Pruner.Lib.PartialRun
import Mathlib.Data.Finset.Card

/-!
# The best states of an evolutionary search

`SketchPolicyNode::EvolutionarySearch` scores one population after the other and keeps the
best states in a heap with its worst state in front.  A set of strings says which states
are in the heap; it starts as the set of measured states, so those never enter.

Two states are equal when their strings are (`std::equal_to<State>`).  The search uses a
state only through its string and its score, so the model is over any type of states.
The populations are arbitrary: they stand for what bound inference, pruning, selection and
mutation have left of every generation.

## Main definitions

* `SearchHeap` — the heap and the set `in_heap`.
* `SearchHeap.maintain` — what the search does with one scored state.
* `evolutionarySearch` — the states that the search returns.
* `evolutionarySearch_best` — they are the best unmeasured states that were scored.
-/

namespace Pruner.AutoScheduler

open Lib List Prod

universe u v

variable {σ 𝕜 : Type u} [LinearOrder 𝕜]

abbrev StateHeapItem (σ 𝕜 : Type u) := σ × 𝕜

/-- The comparison of the heap. -/
def heapCmp (left right : StateHeapItem σ 𝕜) : Prop := left.2 > right.2

/-- The heap and the strings of the states that may not enter it. -/
structure SearchHeap (σ 𝕜 : Type u) where
  heap : List (StateHeapItem σ 𝕜)
  inHeap : Finset String

variable (std : HeapAlgorithms (heapCmp : StateHeapItem σ 𝕜 → StateHeapItem σ 𝕜 → Prop))
  (toStr : σ → String) (outSize : ℤ)

/-- The loop body over a population.  The front of an empty heap does not exist. -/
def SearchHeap.maintain (h : SearchHeap σ 𝕜) (item : StateHeapItem σ 𝕜) : Option (SearchHeap σ 𝕜) :=
  let stateStr := toStr item.1
  if stateStr ∈ h.inHeap then some h
  else if (h.heap.length : ℤ) < outSize then
    some ⟨std.pushHeap (h.heap ++ [item]), insert stateStr h.inHeap⟩
  else
    match h.heap with
    | [] => none
    | front :: _ =>
      if item.2 > front.2 then
        some ⟨std.pushHeap ((std.popHeap h.heap).dropLast ++ [item]),
          insert stateStr (h.inHeap.erase (toStr front.1))⟩
      else some h

/-- `EvolutionarySearch`, for the populations of its generations. -/
def evolutionarySearch (score : σ → 𝕜) (measuredStatesSet : Finset String)
    (populations : List (List σ)) : Option (List σ) := do
  let h ← populations.foldlM
    (fun h pnow => (pnow.map fun state => (state, score state)).foldlM
      (SearchHeap.maintain std toStr outSize) h)
    ⟨[], measuredStatesSet⟩
  some ((std.sort h.heap).map fst)

/-! ## What the heap holds -/

/-- The heap after the states `seen`: it holds the best unmeasured ones, and the set of
strings says which. -/
structure SearchHeap.Maintained (toStr : σ → String) (outSize : ℤ) (score : σ → 𝕜)
    (measured : Finset String) (seen : List σ) (h : SearchHeap σ 𝕜) : Prop where
  isHeap : IsHeap heapCmp h.heap
  scored : ∀ item ∈ h.heap, item.2 = score item.1
  inHeap : ∀ str, str ∈ h.inHeap ↔ str ∈ measured ∨ str ∈ (h.heap.map fst).map toStr
  unmeasured : ∀ str ∈ (h.heap.map fst).map toStr, str ∉ measured
  best : BestOf toStr score outSize.toNat (seen.filter (toStr · ∉ measured)) (h.heap.map fst)

variable {front : StateHeapItem σ 𝕜} {rest : List (StateHeapItem σ 𝕜)}

section

variable {std toStr outSize} {score : σ → 𝕜} {measured : Finset String} {seen : List σ}
  {h : SearchHeap σ 𝕜} {s : σ}

theorem heapCmp_front (h : IsHeap heapCmp (front :: rest)) {item : StateHeapItem σ 𝕜}
    (hi : item ∈ front :: rest) :
    front.2 ≤ item.2 := by
  refine not_lt.mp (h.front (fun a => lt_irrefl a.2) ?_ hi)
  intro a b c hab hbc
  exact not_lt.mpr ((not_lt.mp hab).trans (not_lt.mp hbc))

theorem filter_concat_of_unmeasured (seen : List σ) (hs : toStr s ∉ measured) :
    (seen ++ [s]).filter (toStr · ∉ measured) = seen.filter (toStr · ∉ measured) ++ [s] := by
  simp [hs]

/-- A state whose string is known changes nothing. -/
theorem SearchHeap.Maintained.known (H : h.Maintained toStr outSize score measured seen)
    (hs : toStr s ∈ h.inHeap) : h.Maintained toStr outSize score measured (seen ++ [s]) := by
  refine { H with best := ?_ }
  rcases (H.inHeap _).mp hs with hm | hin
  · simpa [hm] using H.best
  · rw [filter_concat_of_unmeasured seen (H.unmeasured _ hin)]
    exact H.best.skip (absurd hin)

/-- A heap with room takes a new state. -/
theorem SearchHeap.Maintained.room (H : h.Maintained toStr outSize score measured seen)
    (hs : toStr s ∉ h.inHeap) (hroom : (h.heap.length : ℤ) < outSize) :
    SearchHeap.Maintained toStr outSize score measured (seen ++ [s])
      ⟨std.pushHeap (h.heap ++ [(s, score s)]), insert (toStr s) h.inHeap⟩ := by
  rw [H.inHeap, not_or] at hs
  obtain ⟨hheap, hperm⟩ := std.push H.isHeap
  have hstates := hperm.map fst
  have hstrs := hstates.map toStr
  refine ⟨hheap, ?_, ?_, ?_, ?_⟩
  · intro item hi
    rcases mem_cons.mp (hperm.mem_iff.mp hi) with rfl | hi
    · rfl
    · exact H.scored item hi
  · intro str
    rw [hstrs.mem_iff, Finset.mem_insert, H.inHeap, map_cons, map_cons, mem_cons]
    tauto
  · intro str hstr
    rcases mem_cons.mp (hstrs.mem_iff.mp hstr) with rfl | hstr
    · exact hs.1
    · exact H.unmeasured str hstr
  · rw [filter_concat_of_unmeasured seen hs.1]
    refine (H.best.push hs.2 ?_).perm hstates
    rw [length_map]
    omega

variable {inHeap : Finset String}

section

variable (H : SearchHeap.Maintained toStr outSize score measured seen ⟨front :: rest, inHeap⟩)
include H

/-- A full heap gives up its front for a better state. -/
theorem SearchHeap.Maintained.evict
    (hscore : ∀ s t, toStr s = toStr t → score s = score t) (hs : toStr s ∉ inHeap)
    (hfull : outSize ≤ (front :: rest).length) (hlt : front.2 < score s) :
    SearchHeap.Maintained toStr outSize score measured (seen ++ [s])
      ⟨std.pushHeap ((std.popHeap (front :: rest)).dropLast ++ [(s, score s)]),
        insert (toStr s) (inHeap.erase (toStr front.1))⟩ := by
  have hnew : toStr s ∉ measured ∧ toStr s ∉ ((front :: rest).map fst).map toStr := by
    rw [← not_or]
    exact mt (H.inHeap _).mpr hs
  obtain ⟨r, hpop, hr, hrest⟩ := std.pop H.isHeap
  rw [hpop, dropLast_concat]
  obtain ⟨hheap, hperm⟩ := std.push hr
  have hperm' := hperm.trans (hrest.cons (s, score s))
  have hstates := hperm'.map fst
  have hstrs := hstates.map toStr
  have hnodup : toStr front.1 ∉ (rest.map fst).map toStr := (nodup_cons.mp H.best.nodup).1
  have hfront : toStr front.1 ∉ measured := H.unmeasured _ mem_cons_self
  refine ⟨hheap, ?_, ?_, ?_, ?_⟩
  · intro item hi
    rcases mem_cons.mp (hperm'.mem_iff.mp hi) with rfl | hi
    · rfl
    · exact H.scored item (mem_cons_of_mem _ hi)
  · intro str
    rw [hstrs.mem_iff, Finset.mem_insert, Finset.mem_erase, H.inHeap]
    simp only [map_cons, mem_cons]
    constructor
    · rintro (rfl | ⟨hne, hm | rfl | hr⟩)
      · exact .inr (.inl rfl)
      · exact .inl hm
      · exact absurd rfl hne
      · exact .inr (.inr hr)
    · rintro (hm | rfl | hr)
      · exact .inr ⟨fun h => hfront (h ▸ hm), .inl hm⟩
      · exact .inl rfl
      · exact .inr ⟨fun h => hnodup (h ▸ hr), .inr (.inr hr)⟩
  · intro str hstr
    rcases mem_cons.mp (hstrs.mem_iff.mp hstr) with rfl | hstr
    · exact hnew.1
    · exact H.unmeasured str (mem_cons_of_mem _ hstr)
  · rw [filter_concat_of_unmeasured seen hnew.1]
    have hfs : score front.1 = front.2 := (H.scored front mem_cons_self).symm
    refine (H.best.replace hscore ?_ ?_ (hfs ▸ hlt) hnew.2).perm hstates
    · rw [← map_cons, length_map]
      omega
    · intro b hb
      obtain ⟨item, hi, rfl⟩ := mem_map.mp hb
      rw [hfs, ← H.scored item (mem_cons_of_mem _ hi)]
      exact heapCmp_front H.isHeap (mem_cons_of_mem _ hi)

/-- A full heap turns away a state that is no better than its front. -/
theorem SearchHeap.Maintained.reject
    (hs : toStr s ∉ inHeap) (hfull : outSize ≤ (front :: rest).length) (hle : score s ≤ front.2) :
    SearchHeap.Maintained toStr outSize score measured (seen ++ [s])
      ⟨front :: rest, inHeap⟩ := by
  refine { H with best := ?_ }
  have hm : toStr s ∉ measured := fun hm => hs ((H.inHeap _).mpr (.inl hm))
  rw [filter_concat_of_unmeasured seen hm]
  refine H.best.skip fun _ => ⟨?_, ?_⟩
  · rw [length_map]
    exact Int.toNat_le.mpr hfull
  · intro b hb
    obtain ⟨item, hi, rfl⟩ := mem_map.mp hb
    rw [← H.scored item hi]
    exact hle.trans (heapCmp_front H.isHeap hi)

end

variable (hscore : ∀ s t, toStr s = toStr t → score s = score t)
include hscore

section

variable (hout : 1 ≤ outSize) (H : h.Maintained toStr outSize score measured seen)
include hout H

/-- **One state.**  The body succeeds and keeps the invariant. -/
theorem exists_maintain (s : σ) :
    ∃ h', h.maintain std toStr outSize (s, score s) = some h' ∧
      h'.Maintained toStr outSize score measured (seen ++ [s]) := by
  unfold SearchHeap.maintain
  by_cases hin : toStr s ∈ h.inHeap
  · exact ⟨h, if_pos hin, H.known hin⟩
  by_cases hroom : (h.heap.length : ℤ) < outSize
  · exact ⟨_, (if_neg hin).trans (if_pos hroom), H.room hin hroom⟩
  simp only [if_neg hin, if_neg hroom]
  obtain ⟨heap, inHeap⟩ := h
  cases heap with
  | nil =>
    rw [length_nil] at hroom
    omega
  | cons front rest =>
    have hfull : outSize ≤ (front :: rest).length := not_lt.mp hroom
    by_cases hlt : front.2 < score s
    · exact ⟨_, if_pos hlt, H.evict hscore hin hfull hlt⟩
    · exact ⟨_, if_neg hlt, H.reject hin hfull (not_lt.mp hlt)⟩

/-- **One population.** -/
theorem exists_maintain_population (pnow : List σ) :
    ∃ h', (pnow.map fun state => (state, score state)).foldlM
        (SearchHeap.maintain std toStr outSize) h = some h' ∧
      h'.Maintained toStr outSize score measured (seen ++ pnow) := by
  rw [foldlM_map]
  exact exists_foldlM
    (fun seen (h : SearchHeap σ 𝕜) => h.Maintained toStr outSize score measured seen)
    (fun pre s _ h H => exists_maintain hscore hout H s) H

end

variable (std measured)
/-- **All generations.** -/
theorem exists_maintain_generations (hout : 1 ≤ outSize) (populations : List (List σ)) :
    ∃ h', populations.foldlM
        (fun h pnow => (pnow.map fun state => (state, score state)).foldlM
          (SearchHeap.maintain std toStr outSize) h) ⟨[], measured⟩ = some h' ∧
      h'.Maintained toStr outSize score measured populations.flatten := by
  have hinit : SearchHeap.Maintained toStr outSize score measured [].flatten ⟨[], measured⟩ := by
    refine ⟨isHeap_nil _, ?_, ?_, ?_, BestOf.nil toStr score _⟩
    · exact fun item hi => absurd hi not_mem_nil
    · intro str
      simp
    · exact fun str hi => absurd hi not_mem_nil
  refine exists_foldlM
    (fun pops (h : SearchHeap σ 𝕜) => h.Maintained toStr outSize score measured pops.flatten)
    (fun pops pnow _ h H => ?_) hinit
  rw [flatten_concat]
  exact exists_maintain_population hscore hout H pnow

end

/-- **The search returns the best unmeasured states that it scored**, for every sequence of
populations and every implementation of the standard library. -/
theorem evolutionarySearch_best (score : σ → 𝕜) (measured : Finset String)
    (populations : List (List σ)) (hscore : ∀ s t, toStr s = toStr t → score s = score t)
    (hout : 1 ≤ outSize) :
    ∃ best, evolutionarySearch std toStr outSize score measured populations = some best ∧
      (best.length : ℤ) ≤ outSize ∧
      (best.map toStr).Nodup ∧
      (∀ b ∈ best, b ∈ populations.flatten ∧ toStr b ∉ measured) ∧
      best.Pairwise (fun a b => score a ≥ score b) ∧
      (∀ s ∈ populations.flatten, toStr s ∉ measured → toStr s ∉ best.map toStr →
        ∀ b ∈ best, score s ≤ score b) ∧
      ((((populations.flatten.map toStr).toFinset \ measured).card : ℤ) < outSize →
        ∀ s ∈ populations.flatten, toStr s ∉ measured → toStr s ∈ best.map toStr) := by
  obtain ⟨h, hrun, H⟩ := exists_maintain_generations std measured hscore hout populations
  obtain ⟨hsorted, hperm⟩ := std.sorted h.heap
  have B := H.best.perm (hperm.map fst)
  have hunm : ∀ b ∈ (std.sort h.heap).map fst, toStr b ∉ measured := by
    intro b hb
    have hb' := (hperm.map fst).mem_iff.mp hb
    exact H.unmeasured _ (mem_map_of_mem hb')
  have hmem : ∀ s ∈ populations.flatten, toStr s ∉ measured →
      s ∈ populations.flatten.filter (toStr · ∉ measured) := by
    intro s hs hm
    exact mem_filter.mpr ⟨hs, decide_eq_true hm⟩
  refine ⟨(std.sort h.heap).map fst, ?_, ?_, B.nodup, ?_, ?_, ?_, ?_⟩
  · simp [evolutionarySearch, hrun, some_bind_eq]
  · have := B.length_le
    omega
  · exact fun b hb => ⟨(mem_filter.mp (B.subset b hb)).1, hunm b hb⟩
  · rw [pairwise_map]
    refine hsorted.imp_of_mem fun ha hb hab => ?_
    rw [← H.scored _ (hperm.mem_iff.mp ha), ← H.scored _ (hperm.mem_iff.mp hb)]
    exact not_lt.mp hab
  · exact fun s hs hm hkey => (B.best s (hmem s hs hm) hkey).2
  · intro hcard s hs hm
    refine B.all_kept ?_ s (hmem s hs hm)
    -- the kept strings are different unmeasured strings
    have hsub : (((std.sort h.heap).map fst).map toStr).toFinset ⊆
        (populations.flatten.map toStr).toFinset \ measured := by
      intro str hstr
      obtain ⟨b, hb, rfl⟩ := mem_map.mp (mem_toFinset.mp hstr)
      have hseen := (mem_filter.mp (B.subset b hb)).1
      exact Finset.mem_sdiff.mpr
        ⟨mem_toFinset.mpr (mem_map_of_mem hseen), hunm b hb⟩
    have hle := Finset.card_le_card hsub
    rw [toFinset_card_of_nodup B.nodup, length_map] at hle
    omega

/-- Two generations, with a state that was measured and one that is seen twice. -/
theorem evolutionarySearch_two_generations :
    ∃ best, evolutionarySearch (HeapAlgorithms.bySorting snd) id 2 String.length {"ddddd"}
        [["a", "bbb"], ["bbb", "ddddd", "cc"]] = some best ∧
      (∀ s ∈ ["a", "bbb", "bbb", "ddddd", "cc"], s ∉ ({"ddddd"} : Finset String) →
        s ∉ best.map id → ∀ b ∈ best, s.length ≤ b.length) := by
  obtain ⟨best, hrun, -, -, -, -, hbest, -⟩ :=
    evolutionarySearch_best (HeapAlgorithms.bySorting snd) id 2 String.length {"ddddd"}
      [["a", "bbb"], ["bbb", "ddddd", "cc"]] (fun s t h => congrArg String.length h) (by decide)
  exact ⟨best, hrun, hbest⟩

end Pruner.AutoScheduler
