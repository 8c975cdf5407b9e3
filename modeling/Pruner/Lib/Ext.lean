import Mathlib.Algebra.Order.Floor.Ring

/-!
# Floating point arithmetic without rounding

The values of floating point arithmetic over an ordered field: the numbers of the field,
two infinities and NaN.  Operations on numbers are exact; a division by zero and the
operations on infinities follow the floating point standard, with a zero that has no sign.
A comparison with NaN is false.

## Main definitions

* `Ext` — the values.
* `Ext.add`, `Ext.sub`, `Ext.mul`, `Ext.div` — arithmetic.
* `Ext.lt`, `Ext.le` — comparisons, as tests.
* `truncToInt` — the integer part of a number.
* `Ext.argMin`, `Ext.argMax` — the first minimum and maximum of a function on a list.
* `Ext.FirstMax` — the first maximum of a list, and how it moves when the list grows.
-/

namespace Pruner.Lib

open List

universe u

/-- The integer part of a number, toward zero. -/
def truncToInt {K : Type u} [Ring K] [LinearOrder K] [FloorRing K] (x : K) : ℤ :=
  if 0 ≤ x then ⌊x⌋ else ⌈x⌉

/-- Numbers, infinities and NaN. -/
inductive Ext (K : Type u) where
  | nan
  | negInf
  | fin (x : K)
  | posInf
  deriving DecidableEq, Repr

namespace Ext

variable {K : Type u} {a b c : Ext K}

section

variable [LinearOrder K]

/-- `<`, which is false as soon as an operand is NaN. -/
def lt : Ext K → Ext K → Bool
  | nan, _ => false
  | _, nan => false
  | _, negInf => false
  | negInf, _ => true
  | posInf, _ => false
  | _, posInf => true
  | fin x, fin y => decide (x < y)

/-- `<=`, which is false as soon as an operand is NaN. -/
def le : Ext K → Ext K → Bool
  | nan, _ => false
  | _, nan => false
  | negInf, _ => true
  | _, posInf => true
  | posInf, _ => false
  | _, negInf => false
  | fin x, fin y => decide (x ≤ y)

/-- The smaller one of two values, the first one if they cannot be compared. -/
def min (a b : Ext K) : Ext K := if lt b a then b else a

@[simp] theorem lt_fin (x y : K) : lt (fin x) (fin y) = decide (x < y) := rfl

@[simp] theorem le_fin (x y : K) : le (fin x) (fin y) = decide (x ≤ y) := rfl

@[simp] theorem lt_nan (a : Ext K) : lt a nan = false := by cases a <;> rfl

/-- What is at most a value that is less than another one is less than that one. -/
theorem lt_of_not_lt_of_lt (hab : lt b a = false) (hbc : lt b c = true)
    (ha : a ≠ nan) : lt a c = true := by
  cases a <;> cases b <;> cases c <;> simp_all [lt]
  exact lt_of_le_of_lt hab hbc

/-- Values that can be compared are in one order or the other. -/
theorem le_eq_not_lt (ha : a ≠ nan) (hb : b ≠ nan) : le a b = !lt b a := by
  cases a <;> cases b <;> simp_all [lt, le]
  simp [← decide_not]

theorem lt_trans (hab : lt a b = true) (hbc : lt b c = true) : lt a c = true := by
  cases a <;> cases b <;> cases c <;> simp_all [lt]
  exact hab.trans hbc

theorem ne_nan_of_le (h : le a b = true) : a ≠ nan := by
  rintro rfl
  simp [le] at h

theorem ne_nan_of_lt (h : lt a b = true) : b ≠ nan := by
  rintro rfl
  simp at h

/-! ### The first maximum of a list -/

variable {α : Type*} {score : α → Ext K} {P : α → Prop} {log : List α} {i : ℕ} {x y : α}

/-- Position `i` of a list holds `x`, the first one of the elements with a property that no
other one exceeds. -/
structure FirstMax (score : α → Ext K) (P : α → Prop) (log : List α) (i : ℕ) (x : α) : Prop where
  at_pos : log[i]? = some x
  prop : P x
  max : ∀ y ∈ log, P y → lt (score x) (score y) = false
  first : ∀ j < i, ∀ y, log[j]? = some y → P y → le (score x) (score y) = false

/-- A new element that does not exceed the maximum. -/
theorem FirstMax.keep (h : FirstMax score P log i x)
    (hy : P y → lt (score x) (score y) = false) : FirstMax score P (log ++ [y]) i x where
  at_pos := getElem?_append_left (List.getElem?_eq_some_iff.mp h.at_pos).1 ▸ h.at_pos
  prop := h.prop
  max := by
    exact forall_mem_append.mpr ⟨h.max, fun z hz => mem_singleton.mp hz ▸ hy⟩
  first := by
    intro j hj z hz
    have hi : i < log.length := (List.getElem?_eq_some_iff.mp h.at_pos).1
    rw [getElem?_append_left (hj.trans hi)] at hz
    exact h.first j hj z hz

/-- A new element that exceeds what nothing before it exceeded. -/
theorem FirstMax.new (hmax : ∀ z ∈ log, P z → lt b (score z) = false) (hP : P y)
    (hy : lt b (score y) = true) : FirstMax score P (log ++ [y]) log.length y where
  at_pos := by simp
  prop := hP
  max := by
    intro z hz hPz
    rcases mem_append.mp hz with hz | hz
    · by_contra hlt
      have hbz := lt_trans hy (Bool.eq_true_of_not_eq_false hlt)
      rw [hmax z hz hPz] at hbz
      exact Bool.noConfusion hbz
    · rw [mem_singleton.mp hz]
      cases score y <;> simp [lt]
  first := by
    intro j hj z hz hPz
    rw [getElem?_append_left hj] at hz
    by_cases hnan : score z = nan
    · rw [hnan]
      cases score y <;> rfl
    · have hbz := hmax z (mem_of_getElem? hz) hPz
      rw [le_eq_not_lt (ne_nan_of_lt hy) hnan, lt_of_not_lt_of_lt hbz hy hnan]
      rfl

/-! ### Extrema of a function on a list -/

/-- The first element that no other one beats, as a running comparison finds it. -/
def argBy (beats : α → α → Bool) (a : α) (l : List α) : α :=
  l.foldl (fun m x => if beats x m then x else m) a

def argMin (score : α → Ext K) : α → List α → α := argBy fun x m => lt (score x) (score m)

def argMax (score : α → Ext K) : α → List α → α := argBy fun x m => lt (score m) (score x)

theorem lt_asymm (h : lt a b = true) : lt b a = false := by
  cases a <;> cases b <;> simp_all [lt]
  exact h.le

theorem not_lt_trans (hb : b ≠ nan) (hab : lt a b = false)
    (hbc : lt b c = false) : lt a c = false := by
  cases a <;> cases b <;> cases c <;> simp_all [lt]
  exact hbc.trans hab

theorem eq_of_le_of_not_lt (hle : le a b = true) (hlt : lt a b = false) : a = b := by
  cases a <;> cases b <;> simp_all [le, lt]
  exact le_antisymm hle hlt

/-- Values that are in no order are equal. -/
theorem eq_of_not_lt (ha : a ≠ nan) (hb : b ≠ nan) (hab : lt a b = false)
    (hba : lt b a = false) : a = b := by
  cases a <;> cases b <;> simp_all [lt]
  exact le_antisymm hba hab

variable {a : α} {l : List α}

/-- Nothing beats the element that is found, if the comparison is an order on the list. -/
theorem argBy_spec (beats : α → α → Bool) (S : α → Prop)
    (hasymm : ∀ x y, beats x y = true → beats y x = false)
    (htrans : ∀ x y z, S y → beats x y = false → beats y z = false → beats x z = false)
    (hS : ∀ x ∈ a :: l, S x) :
    ∀ x ∈ a :: l, beats x (argBy beats a l) = false := by
  have hrefl : ∀ x, beats x x = false := fun x =>
    Bool.eq_false_of_not_eq_true fun h => Bool.noConfusion (h.symm.trans (hasymm x x h))
  induction l generalizing a with
  | nil =>
    intro x hx
    rw [mem_singleton.mp hx]
    exact hrefl a
  | cons y l ih =>
    -- Both candidates are not better than the one that is kept.
    have hkeep : ∀ m ∈ [a, y], (∀ x ∈ [a, y], beats x m = false) →
        ∀ x ∈ a :: y :: l, beats x (argBy beats m l) = false := by
      intro m hm hbeats x hx
      have hSm : ∀ x ∈ m :: l, S x := by
        intro x hx
        rcases mem_cons.mp hx with rfl | hx
        · exact hS _ (mem_append_left l hm)
        · exact hS x (mem_append_right [a, y] hx)
      have hm' := ih hSm
      rcases mem_append.mp (show x ∈ [a, y] ++ l from hx) with hx | hx
      · exact htrans _ m _ (hSm m mem_cons_self) (hbeats x hx) (hm' m mem_cons_self)
      · exact hm' x (mem_cons_of_mem m hx)
    rw [argBy, foldl_cons]
    split_ifs with h
    · exact hkeep y (by simp) (by simp [hasymm y a h, hrefl y])
    · exact hkeep a (by simp) (by simp [hrefl a, Bool.eq_false_of_not_eq_true h])

theorem not_lt_argMin (h : ∀ x ∈ a :: l, score x ≠ nan) :
    ∀ x ∈ a :: l, lt (score x) (score (argMin score a l)) = false :=
  argBy_spec (fun x m => lt (score x) (score m)) (fun x => score x ≠ nan)
    (fun _ _ => lt_asymm) (fun _ _ _ hy => not_lt_trans hy) h

theorem not_argMax_lt (h : ∀ x ∈ a :: l, score x ≠ nan) :
    ∀ x ∈ a :: l, lt (score (argMax score a l)) (score x) = false :=
  argBy_spec (fun x m => lt (score m) (score x)) (fun x => score x ≠ nan)
    (fun _ _ => lt_asymm) (fun _ _ _ hy hxy hyz => not_lt_trans hy hyz hxy) h

end

variable [Field K]

def neg : Ext K → Ext K
  | nan => nan
  | negInf => posInf
  | fin x => fin (-x)
  | posInf => negInf

def add : Ext K → Ext K → Ext K
  | nan, _ => nan
  | _, nan => nan
  | posInf, negInf => nan
  | negInf, posInf => nan
  | posInf, _ => posInf
  | _, posInf => posInf
  | negInf, _ => negInf
  | _, negInf => negInf
  | fin x, fin y => fin (x + y)

def sub (a b : Ext K) : Ext K := add a (neg b)

@[simp] theorem add_fin (x y : K) : add (fin x) (fin y) = fin (x + y) := rfl

@[simp] theorem sub_fin (x y : K) : sub (fin x) (fin y) = fin (x - y) := by
  simp [sub, neg, sub_eq_add_neg]

variable [LinearOrder K]

/-- The infinity with the sign of a number, or NaN for zero. -/
def infOfSign (x : K) : Ext K :=
  if 0 < x then posInf else if x < 0 then negInf else nan

def mul : Ext K → Ext K → Ext K
  | nan, _ => nan
  | _, nan => nan
  | posInf, posInf => posInf
  | negInf, negInf => posInf
  | posInf, negInf => negInf
  | negInf, posInf => negInf
  | posInf, fin y => infOfSign y
  | negInf, fin y => infOfSign (-y)
  | fin x, posInf => infOfSign x
  | fin x, negInf => infOfSign (-x)
  | fin x, fin y => fin (x * y)

def div : Ext K → Ext K → Ext K
  | nan, _ => nan
  | _, nan => nan
  | fin x, fin y => if y = 0 then infOfSign x else fin (x / y)
  | fin _, _ => fin 0
  | posInf, fin y => if y < 0 then negInf else posInf
  | negInf, fin y => if y < 0 then posInf else negInf
  | _, _ => nan

@[simp] theorem mul_fin (x y : K) : mul (fin x) (fin y) = fin (x * y) := rfl

theorem div_fin_of_ne_zero (x : K) {y : K} (hy : y ≠ 0) :
    div (fin x) (fin y) = fin (x / y) := if_neg hy

theorem div_fin_zero (x : K) : div (fin x) (fin (0 : K)) = infOfSign x := if_pos rfl

theorem div_fin_ne_negInf {x y : K} (hx : 0 ≤ x) : div (fin x) (fin y) ≠ negInf := by
  simp only [div, infOfSign]
  split_ifs with hy hpos hneg
  · simp
  · exact absurd hneg (not_lt.mpr hx)
  · simp
  · simp

end Ext

end Pruner.Lib
