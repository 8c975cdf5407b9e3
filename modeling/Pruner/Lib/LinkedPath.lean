import Mathlib.Data.List.Chain
import Mathlib.Data.List.Perm.Subperm

/-!
# Paths of links

Elements of an array that point to the next one form paths.  A path is the list of its
elements, each linked to the following one, where the last one is linked to nothing; it is
determined by its first element, and meets no element twice.  The loops along a path are bounded
by fuel, and any bound on the elements is enough of it.

## Main definitions

* `Linked`, `Path` — linked lists.
* `Path.unique`, `Path.nodup` — a path is determined by its start.
* `scan` — the first element with a property, or the last element.
* `prevOf` — the element before another one.
* `lastTwo` — the last two elements.
-/

namespace Pruner.Lib

open List

variable {fuel w : ℕ}

/-- Every element is linked to the following one. -/
def Linked (next : ℕ → Option ℕ) (l : List ℕ) : Prop := l.IsChain fun x y => next x = some y

/-- A linked list whose last element is linked to nothing. -/
structure Path (next : ℕ → Option ℕ) (l : List ℕ) : Prop where
  linked : Linked next l
  ends : ∀ x, l.getLast? = some x → next x = none

variable {next next' : ℕ → Option ℕ} {x y : ℕ} {l a b : List ℕ}

theorem Linked.congr (h : Linked next l) (hnext : ∀ x ∈ l, next' x = next x) : Linked next' l := by
  induction l with
  | nil => exact .nil
  | cons x l ih =>
    cases l with
    | nil => exact .singleton x
    | cons y l =>
      obtain ⟨hxy, hrest⟩ := isChain_cons_cons.mp h
      refine isChain_cons_cons.mpr ⟨?_, ih hrest fun z hz => hnext z (by simp [hz])⟩
      rw [hnext x mem_cons_self, hxy]

theorem Path.congr (h : Path next l) (hnext : ∀ x ∈ l, next' x = next x) : Path next' l := by
  refine ⟨h.linked.congr hnext, fun x hx => ?_⟩
  rw [hnext x (mem_of_getLast? hx)]
  exact h.ends x hx

theorem path_nil : Path next [] := ⟨.nil, by simp⟩

theorem path_singleton : Path next [x] ↔ next x = none := by
  constructor
  · intro h
    exact h.ends x rfl
  · intro h
    exact ⟨.singleton x, by simpa using h⟩

theorem path_cons_cons : Path next (x :: y :: l) ↔ next x = some y ∧ Path next (y :: l) := by
  constructor
  · intro h
    obtain ⟨hxy, hrest⟩ := isChain_cons_cons.mp h.linked
    exact ⟨hxy, hrest, fun z hz => h.ends z (by simpa using hz)⟩
  · rintro ⟨hxy, h⟩
    exact ⟨isChain_cons_cons.mpr ⟨hxy, h.linked⟩, fun z hz => h.ends z (by simpa using hz)⟩

theorem Path.of_append (h : Path next (a ++ b)) : Path next b := by
  cases b with
  | nil => exact path_nil
  | cons y b =>
    refine ⟨(isChain_append.mp h.linked).2.1, fun x hx => h.ends x ?_⟩
    rw [getLast?_append, hx, Option.some_or]

/-- A path is determined by its first element. -/
theorem Path.unique (h : Path next (x :: a)) (h' : Path next (x :: b)) : a = b := by
  induction a generalizing x b with
  | nil =>
    cases b with
    | nil => rfl
    | cons y b =>
      rw [path_singleton] at h
      rw [path_cons_cons, h] at h'
      cases h'.1
  | cons y a ih =>
    obtain ⟨hxy, ha⟩ := path_cons_cons.mp h
    cases b with
    | nil =>
      rw [path_singleton, hxy] at h'
      cases h'
    | cons z b =>
      obtain ⟨hxz, hb⟩ := path_cons_cons.mp h'
      cases hxy.symm.trans hxz
      rw [ih ha hb]

/-- **A path meets no element twice.** -/
theorem Path.nodup (h : Path next l) : l.Nodup := by
  induction l with
  | nil => exact nodup_nil
  | cons x l ih =>
    have hl : Path next l := Path.of_append (a := [x]) h
    refine nodup_cons.mpr ⟨fun hx => ?_, ih hl⟩
    obtain ⟨u, v, rfl⟩ := append_of_mem hx
    have heq := h.unique hl.of_append
    have hlen := congrArg length heq
    simp at hlen
    omega

/-- A path below a bound is not longer than the bound. -/
theorem Path.length_le (h : Path next l) {m : ℕ} (hm : ∀ x ∈ l, x ≤ m) : l.length ≤ m + 1 := by
  have hsub : l ⊆ range (m + 1) := fun x hx => mem_range.mpr (by
    have hle := hm x hx
    omega)
  simpa using (h.nodup.subperm hsub).length_le

/-- A new last element. -/
theorem Linked.concat {e : ℕ} (h : Linked next (a ++ [w])) (hkeep : ∀ x ∈ a, next' x = next x)
    (hw : next' w = some e) : Linked next' (a ++ [w] ++ [e]) := by
  have hlinked : Linked next' (a ++ [w]) := by
    rw [Linked, isChain_append] at h ⊢
    refine ⟨Linked.congr h.1 hkeep, .singleton w, fun x hx y hy => ?_⟩
    rw [hkeep x (mem_of_getLast? hx)]
    exact h.2.2 x hx y hy
  rw [Linked, isChain_append]
  refine ⟨hlinked, .singleton e, fun x hx y hy => ?_⟩
  obtain rfl : w = x := by simpa using hx
  obtain rfl : e = y := by simpa using hy
  exact hw

/-- The last element is cut off. -/
theorem Path.dropLast {z : ℕ} (h : Path next (a ++ [w, z])) (hkeep : ∀ x ∈ a, next' x = next x)
    (hw : next' w = none) : Path next' (a ++ [w]) := by
  refine ⟨?_, fun x hx => ?_⟩
  · have hlinked := h.linked
    rw [Linked, isChain_append] at hlinked ⊢
    refine ⟨Linked.congr hlinked.1 hkeep, .singleton w, fun x hx y hy => ?_⟩
    rw [hkeep x (mem_of_getLast? hx)]
    exact hlinked.2.2 x hx y (by simpa using hy)
  · obtain rfl : w = x := by simpa using hx
    exact hw

/-! ## Loops -/

variable (next)

/-- The first element with a property, or else the last element. -/
def scan (p : ℕ → Bool) : ℕ → ℕ → Option (ℕ ⊕ ℕ)
  | 0, _ => none
  | fuel + 1, x =>
    if p x then some (.inl x)
    else
      match next x with
      | none => some (.inr x)
      | some y => scan p fuel y

/-- The element before `target`. -/
def prevOf (target : ℕ) : ℕ → ℕ → Option ℕ
  | 0, _ => none
  | fuel + 1, x =>
    match next x with
    | none => none
    | some y => if y = target then some x else prevOf target fuel y

/-- The last two elements, where `prev` comes before the first one. -/
def lastTwo : ℕ → ℕ → ℕ → Option (ℕ × ℕ)
  | 0, _, _ => none
  | fuel + 1, prev, x =>
    match next x with
    | none => some (prev, x)
    | some y => lastTwo fuel x y

variable {next}

/-- **A scan finds an element** with the property, if there is one on the path. -/
theorem scan_spec (h : Path next (x :: l)) {p : ℕ → Bool} (hfuel : l.length < fuel) :
    (∃ y ∈ x :: l, p y = true ∧ scan next p fuel x = some (.inl y)) ∨
      ((∀ y ∈ x :: l, p y = false) ∧
        ∃ y, (x :: l).getLast? = some y ∧ scan next p fuel x = some (.inr y)) := by
  induction fuel generalizing x l with
  | zero => omega
  | succ fuel ih =>
    rw [scan]
    by_cases hx : p x = true
    · exact .inl ⟨x, mem_cons_self, hx, by rw [if_pos hx]⟩
    · rw [if_neg hx]
      have hx' : p x = false := by simpa using hx
      cases l with
      | nil =>
        rw [path_singleton.mp h]
        exact .inr ⟨by simpa using hx', x, rfl, rfl⟩
      | cons y l =>
        obtain ⟨hxy, hl⟩ := path_cons_cons.mp h
        rw [hxy]
        have hlen : l.length < fuel := by
          simp only [length_cons] at hfuel
          omega
        rcases ih hl hlen with ⟨z, hz, hpz, hscan⟩ | ⟨hnone, z, hlast, hscan⟩
        · exact .inl ⟨z, mem_cons_of_mem x hz, hpz, hscan⟩
        · exact .inr ⟨forall_mem_cons.mpr ⟨hx', hnone⟩, z, by simpa using hlast, hscan⟩

/-- **The element before another one** on a path. -/
theorem prevOf_spec {a b : List ℕ} {target : ℕ} (h : Path next (a ++ w :: target :: b))
    (hfuel : a.length < fuel) (hx : (a ++ [w]).head? = some x) :
    prevOf next target fuel x = some w := by
  induction fuel generalizing a x with
  | zero => omega
  | succ fuel ih =>
    rw [prevOf]
    cases a with
    | nil =>
      obtain rfl : w = x := by simpa using hx
      rw [(path_cons_cons.mp h).1]
      simp
    | cons z a =>
      obtain rfl : z = x := by simpa using hx
      obtain ⟨y, hy⟩ : ∃ y, (a ++ [w]).head? = some y := by cases a <;> simp
      obtain ⟨m, hm⟩ : ∃ m, a ++ w :: target :: b = y :: m := by
        cases a with
        | nil => exact ⟨target :: b, by simpa using hy⟩
        | cons u a => exact ⟨a ++ w :: target :: b, by simpa using hy⟩
      rw [cons_append, hm] at h
      obtain ⟨hzy, hrest⟩ := path_cons_cons.mp h
      rw [hzy]
      rw [← hm] at hrest
      have hne : y ≠ target := by
        rintro rfl
        have hdup := hrest.nodup
        cases a with
        | nil =>
          obtain rfl : w = y := by simpa using hy
          simp at hdup
        | cons u a =>
          obtain rfl : u = y := by simpa using hy
          simp at hdup
      simp only [length_cons, if_neg hne] at hfuel ⊢
      exact ih hrest (by omega) hy

/-- **The last two elements** of a path. -/
theorem lastTwo_spec {prev : ℕ} (h : Path next (x :: l)) (hfuel : l.length < fuel) :
    ∃ a w z, prev :: x :: l = a ++ [w, z] ∧ lastTwo next fuel prev x = some (w, z) := by
  induction fuel generalizing prev x l with
  | zero => omega
  | succ fuel ih =>
    rw [lastTwo]
    cases l with
    | nil =>
      rw [path_singleton.mp h]
      exact ⟨[], prev, x, rfl, rfl⟩
    | cons y l =>
      obtain ⟨hxy, hl⟩ := path_cons_cons.mp h
      rw [hxy]
      simp only [length_cons] at hfuel
      obtain ⟨a, w, z, heq, hlast⟩ :
          ∃ a w z, x :: y :: l = a ++ [w, z] ∧ lastTwo next fuel x y = some (w, z) :=
        ih hl (by omega)
      exact ⟨prev :: a, w, z, by rw [heq, cons_append], hlast⟩

end Pruner.Lib
