import Mathlib.Order.Lattice.Nat
import Pruner.Lib.PartialRun

/-!
# Forests of parent pointers

The disjoint sets of a union-find structure, as a partial map from every member to its
parent.  Parents are larger than their children and stay below a bound, so that following
them ends at a root within that many steps.

## Main definitions

* `Ascending` — parents are larger than their children.
* `forestRoot` — the root of a member.
* `compressPath`, `forestRoot_compressPath` — path compression keeps all roots.
* `forestRoot_link` — linking a root below another one merges two sets.
-/

namespace Pruner.Lib

open Function

variable {i q : ℕ}

/-- Follow the parents, at most `fuel` times. -/
def followParents (parent : ℕ → Option ℕ) : ℕ → ℕ → ℕ
  | 0, i => i
  | fuel + 1, i =>
    match parent i with
    | none => i
    | some p => followParents parent fuel p

/-- The root of a member of a forest below `n`. -/
def forestRoot (n : ℕ) (parent : ℕ → Option ℕ) (i : ℕ) : ℕ := followParents parent n i

/-- Parents are larger than their children, and smaller than `n`. -/
def Ascending (n : ℕ) (parent : ℕ → Option ℕ) : Prop := ∀ i p, parent i = some p → i < p ∧ p < n

section

variable {n : ℕ} {parent : ℕ → Option ℕ}

theorem Ascending.induction (h : Ascending n parent) {P : ℕ → Prop}
    (step : ∀ i, (∀ p, parent i = some p → P p) → P i) (i : ℕ) : P i := by
  induction hk : n - i using Nat.strong_induction_on generalizing i with
  | h k ih =>
    apply step
    intro p hp
    have hlt := h i p hp
    exact ih (n - p) (by omega) p rfl

theorem followParents_of_none (h : parent i = none) (fuel : ℕ) :
    followParents parent fuel i = i := by
  cases fuel with
  | zero => rfl
  | succ fuel => simp [followParents, h]

/-- More fuel than there are larger members does not matter. -/
theorem Ascending.followParents_eq (h : Ascending n parent) {fuel fuel' : ℕ} (hfuel : n ≤ fuel + i)
    (hfuel' : n ≤ fuel' + i) :
    followParents parent fuel i = followParents parent fuel' i := by
  induction fuel generalizing fuel' i with
  | zero =>
    have hnone : parent i = none := by
      cases hp : parent i with
      | none => rfl
      | some p =>
        have hlt := h i p hp
        omega
    rw [followParents_of_none hnone, followParents_of_none hnone]
  | succ fuel ih =>
    cases hp : parent i with
    | none => rw [followParents_of_none hp, followParents_of_none hp]
    | some p =>
      have hlt := h i p hp
      cases fuel' with
      | zero => omega
      | succ fuel' =>
        simp only [followParents, hp]
        exact ih (by omega) (by omega)

theorem forestRoot_of_none (h : parent i = none) : forestRoot n parent i = i :=
  followParents_of_none h n

variable (h : Ascending n parent)
include h

theorem Ascending.forestRoot_of_some {p : ℕ} (hp : parent i = some p) :
    forestRoot n parent i = forestRoot n parent p := by
  have hstep : forestRoot n parent i = followParents parent (n + 1) i :=
    h.followParents_eq (by omega) (by omega)
  rw [hstep, followParents, hp]
  rfl

theorem Ascending.parent_forestRoot (i : ℕ) : parent (forestRoot n parent i) = none := by
  refine h.induction (P := fun i => parent (forestRoot n parent i) = none) (fun i ih => ?_) i
  cases hp : parent i with
  | none => rwa [forestRoot_of_none hp]
  | some p =>
    rw [h.forestRoot_of_some hp]
    exact ih p hp

/-- A root is the largest member on the way to it. -/
theorem Ascending.le_forestRoot (i : ℕ) : i ≤ forestRoot n parent i := by
  refine h.induction (P := fun i => i ≤ forestRoot n parent i) (fun i ih => ?_) i
  cases hp : parent i with
  | none => rw [forestRoot_of_none hp]
  | some p =>
    have hlt := h i p hp
    have hle := ih p hp
    rw [h.forestRoot_of_some hp]
    omega

theorem Ascending.forestRoot_lt (hi : i < n) : forestRoot n parent i < n := by
  refine h.induction (P := fun i => i < n → forestRoot n parent i < n) (fun i ih hi => ?_) i hi
  cases hp : parent i with
  | none => rwa [forestRoot_of_none hp]
  | some p =>
    rw [h.forestRoot_of_some hp]
    exact ih p hp (h i p hp).2

theorem Ascending.update (hi : i < q) (hq : q < n) : Ascending n (update parent i (some q)) := by
  intro j p hp
  rcases update_eq_cases hp with ⟨rfl, ⟨⟩⟩ | ⟨-, hp⟩
  · exact ⟨hi, hq⟩
  · exact h j p hp

/-- Hanging a member somewhere else renames the roots of its tree. -/
theorem Ascending.forestRoot_graft (hi : i < q) (hq : q < n) (name : ℕ → ℕ)
    (hroot : name (forestRoot n parent q) = name (forestRoot n parent i))
    (hname : ∀ j, j ≠ i → parent j = none → name j = j) (j : ℕ) :
    forestRoot n (Function.update parent i (some q)) j = name (forestRoot n parent j) := by
  have h' := h.update hi hq
  refine h'.induction (P := fun j => forestRoot n (Function.update parent i (some q)) j =
    name (forestRoot n parent j)) (fun j ih => ?_) j
  by_cases hj : j = i
  · subst hj
    have hself : Function.update parent j (some q) j = some q := update_self ..
    rw [h'.forestRoot_of_some hself, ih q hself, hroot]
  · have hne : Function.update parent i (some q) j = parent j := update_of_ne hj ..
    cases hp : parent j with
    | none => rw [forestRoot_of_none (hne.trans hp), forestRoot_of_none hp, hname j hj hp]
    | some p =>
      rw [h'.forestRoot_of_some (hne.trans hp), h.forestRoot_of_some hp, ih p (hne.trans hp)]

/-- **Linking a root below another one** gives its whole tree the other root. -/
theorem Ascending.forestRoot_link {c : ℕ} (hc : parent c = none) (hq : parent q = none)
    (hlt : c < q) (hqn : q < n) (j : ℕ) :
    forestRoot n (Function.update parent c (some q)) j =
      if forestRoot n parent j = c then q else forestRoot n parent j := by
  refine h.forestRoot_graft hlt hqn (fun r => if r = c then q else r) ?_
    (fun j hj _ => if_neg hj) j
  simp [forestRoot_of_none hq, forestRoot_of_none hc]

end

/-! ## Path compression -/

/-- Let every member on the way from `i` point to the root directly. -/
def compressPath (root : ℕ) : ℕ → ℕ → (ℕ → Option ℕ) → ℕ → Option ℕ
  | 0, _, parent => parent
  | fuel + 1, i, parent =>
    match parent i with
    | none => parent
    | some p =>
      if i = root then parent
      else compressPath root fuel p (update parent i (some root))

/-- **Path compression keeps all roots**, and the order of parents. -/
theorem Ascending.compressPath {n : ℕ} {parent : ℕ → Option ℕ} (h : Ascending n parent) {root : ℕ}
    (hroot : forestRoot n parent i = root) (fuel : ℕ) :
    Ascending n (compressPath root fuel i parent) ∧
      ∀ j, forestRoot n (Lib.compressPath root fuel i parent) j = forestRoot n parent j := by
  induction fuel generalizing i parent with
  | zero => exact ⟨h, fun _ => rfl⟩
  | succ fuel ih =>
    rw [compressPath]
    cases hp : parent i with
    | none => exact ⟨h, fun _ => rfl⟩
    | some p =>
      split_ifs with hi
      · exact ⟨h, fun _ => rfl⟩
      · have hlt := h i p hp
        have hle : p ≤ root := by
          rw [← hroot, h.forestRoot_of_some hp]
          exact h.le_forestRoot p
        have hroot' : root < n := by
          rw [← hroot, h.forestRoot_of_some hp]
          exact h.forestRoot_lt hlt.2
        have hself : forestRoot n parent root = forestRoot n parent i := by
          rw [← hroot, forestRoot_of_none (h.parent_forestRoot i)]
        have hupdate := h.update (show i < root by omega) hroot'
        have hkeep := h.forestRoot_graft (show i < root by omega) hroot' id hself fun _ _ _ => rfl
        obtain ⟨hasc, hroots⟩ := ih hupdate
          (show forestRoot n (Function.update parent i (some root)) p = root by
            rw [hkeep, ← h.forestRoot_of_some hp, hroot, id])
        exact ⟨hasc, fun j => (hroots j).trans (hkeep j)⟩

end Pruner.Lib
