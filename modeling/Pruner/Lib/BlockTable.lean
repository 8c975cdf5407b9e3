import Mathlib.Algebra.GroupWithZero.Nat
import Mathlib.Data.List.Perm.Basic
import Mathlib.Data.List.Range

/-!
# Tables of slots, and blocks that tile an interval

A table of slots is an array in memory together with the number of slots in use; what stands in the
slots behind them is left over.  A sequence of blocks tiles an interval when each of them starts
where the one before it ends; no two of them overlap then.

## Main definitions

* `Slots` — an array and the number of slots in use, with `push`, `setAt` and `erase`.
* `Slots.toList` — the slots in use, with a lemma for each operation.
* `Tiles start size a l b` — the blocks `l` tile the interval from `a` to `b`.
-/

namespace Pruner.Lib

open List

variable {α : Type*}

/-! ## Tables of slots -/

/-- An array and the number of slots in use. -/
structure Slots (α : Type*) where
  entry : ℕ → α
  num : ℕ

namespace Slots

variable {t : Slots α} {p : α → Bool} {i : ℕ} {a : α}

/-- The slots in use. -/
def toList (t : Slots α) : List α := (List.range t.num).map t.entry

/-- The first slot in use with a property. -/
def findSlot (t : Slots α) (p : α → Bool) : Option ℕ :=
  (List.range t.num).find? fun i => p (t.entry i)

/-- A further slot is used. -/
def push (t : Slots α) (a : α) : Slots α := ⟨Function.update t.entry t.num a, t.num + 1⟩

/-- A slot is written. -/
def setAt (t : Slots α) (i : ℕ) (a : α) : Slots α := ⟨Function.update t.entry i a, t.num⟩

/-- The slots behind one move to the front by one. -/
def erase (t : Slots α) (i : ℕ) : Slots α :=
  ⟨fun j => if i ≤ j ∧ j + 1 < t.num then t.entry (j + 1) else t.entry j, t.num - 1⟩

@[simp] theorem length_toList (t : Slots α) : t.toList.length = t.num := by
  rw [toList, length_map, length_range]

theorem getElem?_toList (t : Slots α) (i : ℕ) :
    t.toList[i]? = if i < t.num then some (t.entry i) else none := by
  rw [toList, getElem?_map]
  split_ifs with h
  · rw [getElem?_range h]
    rfl
  · rw [getElem?_eq_none (by rw [length_range]; omega)]
    rfl

theorem entry_mem_toList (h : i < t.num) : t.entry i ∈ t.toList := mem_map_of_mem (mem_range.mpr h)

@[simp] theorem toList_push (t : Slots α) (a : α) : (t.push a).toList = t.toList ++ [a] := by
  simp only [push, toList, range_succ, map_append, map_cons, map_nil, Function.update_self]
  congr 1
  apply map_congr_left
  intro i hi
  exact Function.update_of_ne (mem_range.mp hi).ne _ _

theorem toList_erase (hi : i < t.num) : (t.erase i).toList = t.toList.eraseIdx i := by
  apply ext_getElem?
  intro j
  have hnum : (t.erase i).num = t.num - 1 := rfl
  have hentry : (t.erase i).entry j =
      if i ≤ j ∧ j + 1 < t.num then t.entry (j + 1) else t.entry j := rfl
  rw [getElem?_eraseIdx, getElem?_toList, getElem?_toList, getElem?_toList, hentry]
  by_cases hj : j < i
  · rw [if_pos hj, if_neg (show ¬ (i ≤ j ∧ j + 1 < t.num) by omega), if_pos (by omega),
      if_pos (by omega)]
  · rw [if_neg hj]
    by_cases hlt : j + 1 < t.num
    · rw [if_pos (show i ≤ j ∧ j + 1 < t.num by omega), if_pos hlt, if_pos (by omega)]
    · rw [if_neg (by omega), if_neg hlt]

/-- Erasing a slot takes its entry out of the table. -/
theorem perm_erase (hi : i < t.num) : t.toList.Perm (t.entry i :: (t.erase i).toList) := by
  have hlen : i < t.toList.length := by rwa [length_toList]
  have hget : t.toList[i] = t.entry i := by simp [toList]
  rw [toList_erase hi, ← hget]
  exact (getElem_cons_eraseIdx_perm hlen).symm

theorem findSlot_eq_some (h : t.findSlot p = some i) : i < t.num ∧ p (t.entry i) = true :=
  ⟨mem_range.mp (mem_of_find?_eq_some h), find?_some (p := fun i => p (t.entry i)) h⟩

theorem findSlot_eq_none (h : t.findSlot p = none) (ha : a ∈ t.toList) : p a = false := by
  obtain ⟨i, hi, rfl⟩ := mem_map.mp ha
  exact Bool.eq_false_iff.mpr (find?_eq_none.mp h i hi)

/-- A slot with the property is found where there is one. -/
theorem exists_findSlot (ha : a ∈ t.toList) (hp : p a = true) : ∃ i, t.findSlot p = some i := by
  cases h : t.findSlot p with
  | none => exact absurd (findSlot_eq_none h ha) (by simp [hp])
  | some i => exact ⟨i, rfl⟩

end Slots

/-! ## Blocks that tile an interval -/

/-- The blocks tile the interval from `a` to `b`: each starts where the one before it ends, and
none is empty. -/
def Tiles (start size : α → ℕ) (a : ℕ) : List α → ℕ → Prop
  | [], b => a = b
  | x :: l, b => start x = a ∧ 0 < size x ∧ Tiles start size (a + size x) l b

namespace Tiles

variable {start size : α → ℕ} {a b : ℕ} {l : List α} {x : α} (h : Tiles start size a l b)
include h

/-- A block at the end. -/
theorem concat (hx : start x = b) (hpos : 0 < size x) :
    Tiles start size a (l ++ [x]) (b + size x) := by
  induction l generalizing a with
  | nil =>
    obtain rfl : a = b := h
    exact ⟨hx, hpos, rfl⟩
  | cons y l ih => exact ⟨h.1, h.2.1, ih h.2.2⟩

theorem le : a ≤ b := by
  induction l generalizing a with
  | nil => exact le_of_eq h
  | cons y l ih =>
    have := ih h.2.2
    omega

/-- The blocks lie in the interval. -/
theorem mem (hx : x ∈ l) : a ≤ start x ∧ 0 < size x ∧ start x + size x ≤ b := by
  induction l generalizing a with
  | nil => exact absurd hx not_mem_nil
  | cons y l ih =>
    rcases mem_cons.mp hx with rfl | hx
    · have := h.2.2.le
      have := h.1
      exact ⟨by omega, h.2.1, by omega⟩
    · have := ih h.2.2 hx
      exact ⟨by omega, this.2⟩

/-- There are no more blocks than places. -/
theorem length_le : a + l.length ≤ b := by
  induction l generalizing a with
  | nil => exact le_of_eq h
  | cons y l ih =>
    have := ih h.2.2
    have := h.2.1
    rw [length_cons]
    omega

/-- In units of any size, the blocks fill the interval. -/
theorem sum_size (unit : ℕ) : a * unit + (l.map fun x => size x * unit).sum = b * unit := by
  induction l generalizing a with
  | nil => exact congrArg (· * unit) h
  | cons y l ih =>
    rw [map_cons, sum_cons, ← Nat.add_assoc, ← Nat.add_mul]
    exact ih h.2.2

/-- Each block ends before the later ones start. -/
theorem pairwise : l.Pairwise fun x y => start x + size x ≤ start y := by
  induction l generalizing a with
  | nil => exact Pairwise.nil
  | cons x l ih =>
    refine Pairwise.cons (fun y hy => ?_) (ih h.2.2)
    have := (h.2.2.mem hy).1
    have := h.1
    omega

/-- Two different blocks do not overlap. -/
theorem disjoint {y : α} (hx : x ∈ l) (hy : y ∈ l)
    (hne : x ≠ y) : start x + size x ≤ start y ∨ start y + size y ≤ start x := by
  have : Std.Symm fun x y => start x + size x ≤ start y ∨ start y + size y ≤ start x :=
    ⟨fun _ _ => Or.symm⟩
  have hpair : l.Pairwise fun x y => start x + size x ≤ start y ∨ start y + size y ≤ start x :=
    h.pairwise.imp .inl
  exact hpair.forall hx hy hne

/-- No two blocks start at one place. -/
theorem eq_of_start_eq {y : α} (hx : x ∈ l) (hy : y ∈ l) (hstart : start x = start y) : x = y := by
  by_contra hne
  have := h.disjoint hx hy hne
  have := (h.mem hx).2.1
  have := (h.mem hy).2.1
  omega

end Tiles

end Pruner.Lib
