import Mathlib.Algebra.BigOperators.Group.List.Basic
import Mathlib.Data.Int.DivMod
import Mathlib.Tactic.LinearCombination
import Mathlib.Tactic.Linarith
import Mathlib.Tactic.Ring

/-!
# Chains of weights

Elements with a weight and an extent each form a chain when every weight is the product of
the extents before it.  Such elements are the digits of a mixed-radix number, the least
significant one first: sums of digits times weights are different for different digits, and
a number is determined by its digits.

## Main definitions

* `IsChain w e b l t` — the weights of `l` start at `b` and end at `t`.
* `weighted w d l` — the sum of the digits `d`, each times its weight.
* `IsChain.weighted_lt`, `IsChain.digits_eq`, `IsChain.eq_of_digits_eq` — bounds,
  uniqueness of the digits, and uniqueness of the number.
-/

namespace Pruner.Lib

open List Int

variable {α : Type*} {w e : α → ℤ} {b t : ℤ} {l : List α}

/-- The first weight is `b`, every other weight is the one before it times its extent, and
the product of all extents leads to `t`. -/
def IsChain (w e : α → ℤ) : ℤ → List α → ℤ → Prop
  | b, [], t => b = t
  | b, a :: l, t => w a = b ∧ IsChain w e (b * e a) l t

/-- The sum of the digits, each times its weight. -/
def weighted (w d : α → ℤ) (l : List α) : ℤ := (l.map fun a => d a * w a).sum

@[simp] theorem weighted_nil (w d : α → ℤ) : weighted w d [] = 0 := rfl

@[simp] theorem weighted_cons (w d : α → ℤ) (a : α) (l : List α) :
    weighted w d (a :: l) = d a * w a + weighted w d l := by
  simp [weighted]

theorem weighted_eq_of_perm (w d : α → ℤ) {l l' : List α} (h : l.Perm l') :
    weighted w d l = weighted w d l' :=
  (h.map _).sum_eq

theorem IsChain.end_pos (h : IsChain w e b l t) (hb : 0 < b) (he : ∀ a ∈ l, 0 < e a) : 0 < t := by
  induction l generalizing b with
  | nil => exact h ▸ hb
  | cons a l ih =>
    exact ih h.2 (mul_pos hb (he a mem_cons_self)) fun a' ha' =>
      he a' (mem_cons_of_mem a ha')

/-- A common factor of all weights is divided out. -/
theorem IsChain.div {c : ℤ} (h : IsChain w e (c * b) l t) (hc : c ≠ 0) :
    IsChain (fun a => (w a).tdiv c) e b l (t.tdiv c) := by
  induction l generalizing b with
  | nil =>
    obtain rfl : c * b = t := h
    exact (mul_tdiv_cancel_left b hc).symm
  | cons a l ih =>
    refine ⟨?_, ih ?_⟩
    · simp [h.1, mul_tdiv_cancel_left b hc]
    · rw [← mul_assoc]
      exact h.2

theorem IsChain.weighted_div {c : ℤ} (h : IsChain w e (c * b) l t) (hc : c ≠ 0) (d : α → ℤ) :
    weighted (fun a => (w a).tdiv c) d l * c = weighted w d l := by
  induction l generalizing b with
  | nil => simp
  | cons a l ih =>
    have hrest := ih (by rw [← mul_assoc]; exact h.2)
    rw [weighted_cons, weighted_cons, ← hrest, h.1, mul_tdiv_cancel_left b hc]
    ring

theorem isChain_map {β : Type*} {f : β → α} {l : List β} :
    IsChain w e b (l.map f) t ↔ IsChain (fun x => w (f x)) (fun x => e (f x)) b l t := by
  induction l generalizing b with
  | nil => rfl
  | cons x l ih => exact and_congr_right fun _ => ih

variable (h : IsChain w e b l t)
include h

/-- Digits below the extents of a chain make a number below its end. -/
theorem IsChain.weighted_lt (hb : 0 < b) {d : α → ℤ}
    (hd : ∀ a ∈ l, 0 ≤ d a ∧ d a < e a) : 0 ≤ weighted w d l ∧ weighted w d l + b ≤ t := by
  induction l generalizing b with
  | nil => simpa [IsChain] using h.le
  | cons a l ih =>
    obtain ⟨rfl, h⟩ := h
    obtain ⟨h0, h1⟩ := hd a mem_cons_self
    obtain ⟨ih0, ih1⟩ := ih h (mul_pos hb (by omega)) fun a' ha' =>
      hd a' (mem_cons_of_mem a ha')
    have hlow : 0 ≤ d a * w a := mul_nonneg h0 hb.le
    have hup : d a * w a + w a ≤ w a * e a := by nlinarith
    rw [weighted_cons]
    exact ⟨by omega, by omega⟩

/-- The number that a chain denotes is a multiple of its first weight. -/
theorem IsChain.dvd_weighted (d : α → ℤ) : b ∣ weighted w d l := by
  induction l generalizing b with
  | nil => simp
  | cons a l ih =>
    obtain ⟨rfl, h⟩ := h
    exact Int.dvd_add (dvd_mul_left _ _) (dvd_trans (dvd_mul_right _ _) (ih h))

/-- **The digits are determined by the number.** -/
theorem IsChain.digits_eq (hb : 0 < b) {d d' : α → ℤ}
    (hd : ∀ a ∈ l, 0 ≤ d a ∧ d a < e a) (hd' : ∀ a ∈ l, 0 ≤ d' a ∧ d' a < e a)
    (heq : weighted w d l = weighted w d' l) : ∀ a ∈ l, d a = d' a := by
  induction l generalizing b with
  | nil => simp
  | cons a l ih =>
    obtain ⟨rfl, h⟩ := h
    obtain ⟨h0, h1⟩ := hd a mem_cons_self
    obtain ⟨h0', h1'⟩ := hd' a mem_cons_self
    rw [weighted_cons, weighted_cons] at heq
    have hfirst : d a = d' a := by
      -- The rest of both numbers is a multiple of `w a * e a`.
      obtain ⟨x, hx⟩ := h.dvd_weighted d
      obtain ⟨y, hy⟩ := h.dvd_weighted d'
      have hdvd : w a * (d a - d' a) = w a * (e a * (y - x)) := by
        rw [hx, hy] at heq
        linear_combination heq
      have hdiff : d a - d' a = e a * (y - x) := Int.eq_of_mul_eq_mul_left hb.ne' hdvd
      have hzero : d a - d' a = 0 :=
        eq_zero_of_abs_lt_dvd ⟨y - x, hdiff⟩ (abs_lt.mpr ⟨by omega, by omega⟩)
      omega
    have hrest := ih h (mul_pos hb (by omega)) (fun a' ha' => hd a' (by simp [ha']))
      (fun a' ha' => hd' a' (by simp [ha'])) (by rw [hfirst] at heq; omega)
    exact forall_mem_cons.mpr ⟨hfirst, hrest⟩

/-- **A number is determined by its digits.** -/
theorem IsChain.eq_of_digits_eq (hb : 0 < b) (he : ∀ a ∈ l, 0 < e a)
    {v v' : ℤ} (hv : 0 ≤ v ∧ v < t) (hv' : 0 ≤ v' ∧ v' < t)
    (heq : ∀ a ∈ l, (v.fdiv (w a)).fmod (e a) = (v'.fdiv (w a)).fmod (e a)) :
    v.fdiv b = v'.fdiv b := by
  induction l generalizing b with
  | nil =>
    obtain rfl : b = t := h
    rw [fdiv_eq_zero_of_lt hv.1 hv.2, fdiv_eq_zero_of_lt hv'.1 hv'.2]
  | cons a l ih =>
    obtain ⟨rfl, h⟩ := h
    have hea := he a mem_cons_self
    have hrest := ih h (mul_pos hb hea) (fun a' ha' => he a' (by simp [ha']))
      fun a' ha' => heq a' (by simp [ha'])
    rw [← fdiv_fdiv_eq_fdiv_mul v hb.le hea.le, ← fdiv_fdiv_eq_fdiv_mul v' hb.le hea.le] at hrest
    rw [← fmod_add_mul_fdiv (v.fdiv (w a)) (e a),
      ← fmod_add_mul_fdiv (v'.fdiv (w a)) (e a), heq a mem_cons_self, hrest]

end Pruner.Lib
