import Mathlib.Data.List.Sort

/-!
# Heaps, by the contract of the C++ standard library

`std::push_heap`, `std::pop_heap` and `std::sort` are specified by what they leave in the
range, not by how they get there, and which of several equal elements is at the front of a
heap is not specified.  `HeapAlgorithms` is that contract, so a result proved for every
value of it holds for every implementation.

## Main definitions

* `IsHeap comp l` — `std::is_heap`.
* `IsHeap.front` — the front of a heap precedes nothing in it.
* `HeapAlgorithms` — the contract.
* `HeapAlgorithms.bySorting` — an implementation that keeps heaps sorted.
-/

namespace Pruner.Lib

open List

universe u v

variable {α : Type u}

/-- `std::is_heap`: no element is ordered before a child of its. -/
def IsHeap (comp : α → α → Prop) (l : List α) : Prop :=
  ∀ (i : ℕ) (h : i < l.length), 0 < i → ¬ comp l[(i - 1) / 2] l[i]

theorem isHeap_nil (comp : α → α → Prop) : IsHeap comp ([] : List α) :=
  fun _ h _ => absurd h (Nat.not_lt_zero _)

theorem IsHeap.front {comp : α → α → Prop} (hirrefl : ∀ a, ¬ comp a a)
    (htrans : ∀ a b c, ¬ comp a b → ¬ comp b c → ¬ comp a c) {x : α} {l : List α}
    (h : IsHeap comp (x :: l)) {y : α} (hy : y ∈ x :: l) : ¬ comp x y := by
  obtain ⟨i, hi, rfl⟩ := getElem_of_mem hy
  clear hy
  -- along the parents of position `i`
  induction i using Nat.strongRecOn with
  | ind i ih =>
    by_cases h0 : i = 0
    · subst h0
      exact hirrefl x
    · have hparent : (i - 1) / 2 < i := by omega
      exact htrans _ _ _ (ih _ hparent (by omega)) (h i hi (by omega))

/-- What the standard requires of the heap operations and of `std::sort`. -/
structure HeapAlgorithms (comp : α → α → Prop) where
  pushHeap : List α → List α
  popHeap : List α → List α
  sort : List α → List α
  /-- The last element joins the heap before it. -/
  push {l : List α} {x : α} : IsHeap comp l →
    IsHeap comp (pushHeap (l ++ [x])) ∧ (pushHeap (l ++ [x])).Perm (x :: l)
  /-- The front goes to the end, and what is before it is a heap. -/
  pop {x : α} {l : List α} : IsHeap comp (x :: l) →
    ∃ r, popHeap (x :: l) = r ++ [x] ∧ IsHeap comp r ∧ r.Perm l
  sorted (l : List α) : (sort l).Pairwise (fun a b => ¬ comp b a) ∧ (sort l).Perm l

variable {𝕜 : Type v} [LinearOrder 𝕜] (key : α → 𝕜)

/-- Keys in increasing order make a heap for the comparison of a min-heap. -/
theorem isHeap_of_pairwise {l : List α} (h : l.Pairwise fun a b => key a ≤ key b) :
    IsHeap (fun a b => key b < key a) l := by
  intro i hi h0
  rw [not_lt]
  exact pairwise_iff_getElem.mp h _ i (by omega) hi (by omega)

theorem pairwise_insertionSort_key (l : List α) :
    (l.insertionSort fun a b => key a ≤ key b).Pairwise fun a b => key a ≤ key b :=
  pairwise_insertionSort _ l

/-- An implementation for min-heaps on a key. -/
def HeapAlgorithms.bySorting : HeapAlgorithms (fun a b : α => key b < key a) where
  pushHeap l := l.insertionSort fun a b => key a ≤ key b
  popHeap
    | [] => []
    | x :: l => (l.insertionSort fun a b => key a ≤ key b) ++ [x]
  sort l := l.insertionSort fun a b => key b ≤ key a
  push {l x} _ := by
    refine ⟨isHeap_of_pairwise key (pairwise_insertionSort_key key _), ?_⟩
    exact (perm_insertionSort _ _).trans (perm_append_singleton x l)
  pop _ := ⟨_, rfl, isHeap_of_pairwise key (pairwise_insertionSort_key key _),
    perm_insertionSort _ _⟩
  sorted l := by
    refine ⟨?_, perm_insertionSort _ _⟩
    simp only [not_lt]
    exact pairwise_insertionSort (fun a b => key b ≤ key a) l

end Pruner.Lib
