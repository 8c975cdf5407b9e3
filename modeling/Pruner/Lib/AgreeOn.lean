import Mathlib.Data.List.Basic

/-!
# Lists that agree at unmarked positions

Two machines that are run side by side may drift apart at some places and stay together at
others.  `AgreeOn R marks l l'` says that `l` and `l'` are as long as the list of marks and
are related by `R` wherever the mark is `false`; the lemmas follow the relation through the
edits of the three lists.

## Main definitions

* `AgreeOn` — the relation.
* `AgreeOn.get` — what it says about an unmarked position.
* `AgreeOn.insertIdx`, `AgreeOn.set_both`, `AgreeOn.mark`, `AgreeOn.set_right` — edits.
-/

namespace Pruner.Lib

universe u v

variable {α : Type u} {β : Type v} {R : α → β → Prop}

/-- Related wherever the mark is `false`. -/
inductive AgreeOn (R : α → β → Prop) : List Bool → List α → List β → Prop
  | nil : AgreeOn R [] [] []
  | cons {m : Bool} {ms : List Bool} {a : α} {l : List α} {b : β} {l' : List β}
      (h : m = false → R a b) (rest : AgreeOn R ms l l') :
      AgreeOn R (m :: ms) (a :: l) (b :: l')

variable {a : α} {b : β}

namespace AgreeOn

variable {ms : List Bool} {l : List α} {l' : List β}

section

variable (h : AgreeOn R ms l l')
include h

/-- At an unmarked position the two lists are related. -/
theorem get {i : ℕ} (hm : ms[i]? = some false) (ha : l[i]? = some a)
    (hb : l'[i]? = some b) : R a b := by
  induction h generalizing i with
  | nil => simp at hm
  | cons h _ ih =>
    cases i with
    | zero =>
      simp only [List.getElem?_cons_zero, Option.some.injEq] at hm ha hb
      exact ha ▸ hb ▸ h hm
    | succ i => exact ih hm ha hb

/-- A new pair of related elements, unmarked. -/
theorem insertIdx (hab : R a b) (i : ℕ) :
    AgreeOn R (ms.insertIdx i false) (l.insertIdx i a) (l'.insertIdx i b) := by
  induction h generalizing i with
  | nil =>
    cases i with
    | zero => exact .cons (fun _ => hab) .nil
    | succ i => exact .nil
  | cons h rest ih =>
    cases i with
    | zero => exact .cons (fun _ => hab) (.cons h rest)
    | succ i => exact .cons h (ih i)

/-- Related elements in place of others. -/
theorem set_both (hab : R a b) (i : ℕ) : AgreeOn R ms (l.set i a) (l'.set i b) := by
  induction h generalizing i with
  | nil => exact .nil
  | cons h rest ih =>
    cases i with
    | zero => exact .cons (fun _ => hab) rest
    | succ i => exact .cons h (ih i)

/-- The second list may change where a mark is set. -/
theorem mark (b : β) (i : ℕ) : AgreeOn R (ms.set i true) l (l'.set i b) := by
  induction h generalizing i with
  | nil => exact .nil
  | cons h rest ih =>
    cases i with
    | zero => exact .cons (fun hm => Bool.noConfusion hm) rest
    | succ i => exact .cons h (ih i)

/-- The second list may change to what is related to the same elements. -/
theorem set_right {b' : β} {i : ℕ} (hb : l'[i]? = some b)
    (hR : ∀ a, R a b → R a b') : AgreeOn R ms l (l'.set i b') := by
  induction h generalizing i with
  | nil => exact .nil
  | cons h rest ih =>
    cases i with
    | zero =>
      cases hb
      exact .cons (fun hm => hR _ (h hm)) rest
    | succ i => exact .cons h (ih hb)

end

/-- The relation only sees a part of the elements, and that part stays. -/
theorem of_map_eq {γ δ : Type*} {f : α → γ} {g : β → δ} {k : List α} {k' : List β}
    (hR : ∀ {a a₁ b b₁}, f a₁ = f a → g b₁ = g b → R a b → R a₁ b₁)
    (h : AgreeOn R ms l l') (hk : k.map f = l.map f) (hk' : k'.map g = l'.map g) :
    AgreeOn R ms k k' := by
  induction h generalizing k k' with
  | nil =>
    obtain rfl := List.map_eq_nil_iff.mp hk
    obtain rfl := List.map_eq_nil_iff.mp hk'
    exact .nil
  | cons h _ ih =>
    obtain ⟨a, k, rfl, ha, hk⟩ := List.map_eq_cons_iff.mp hk
    obtain ⟨b, k', rfl, hb, hk'⟩ := List.map_eq_cons_iff.mp hk'
    exact .cons (fun hm => hR ha hb (h hm)) (ih hk hk')

theorem refl {R : α → α → Prop} {l : List α} (h : ∀ a ∈ l, R a a) :
    AgreeOn R (List.replicate l.length false) l l := by
  induction l with
  | nil => exact .nil
  | cons a l ih =>
    exact .cons (fun _ => h a List.mem_cons_self)
      (ih (List.forall_mem_cons.mp h).2)

end AgreeOn

end Pruner.Lib
