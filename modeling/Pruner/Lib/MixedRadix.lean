import Pruner.Lib.DivMode

/-!
# Interleaved mixed-radix numbers

A list of pieces, each an axis and an extent, interleaves one positional number system
per axis: the pieces of an axis are its digits, most significant first, and the weight of
a digit is the product of the extents of the later pieces of the same axis.

## Main definitions

* `radix k ps` — the product of the extents of the pieces of axis `k`.
* `weights ps` — the weight of every piece.
* `digits v ps` — the digits of the values `v`, one for each piece.
* `value k ps ds` — the number that the digits of axis `k` denote.
* `horner` — the same number, accumulated from the most significant digit.
* `value_digits` — the digits of a number denote it.
-/

namespace Pruner.Lib.MixedRadix

open List

variable {κ : Type*} [DecidableEq κ]

/-- The product of the extents of the pieces of an axis. -/
def radix (k : κ) : List (κ × ℤ) → ℤ
  | [] => 1
  | p :: ps => if p.1 = k then radix k ps * p.2 else radix k ps

/-- The weights of the pieces. -/
def weights : List (κ × ℤ) → List ℤ
  | [] => []
  | p :: ps => radix p.1 ps :: weights ps

/-- The digits of the values `v`. -/
def digits (v : κ → ℤ) : List (κ × ℤ) → List ℤ
  | [] => []
  | p :: ps => ((v p.1).fdiv (radix p.1 ps)).fmod p.2 :: digits v ps

/-- The number that the digits of axis `k` denote. -/
def value (k : κ) : List (κ × ℤ) → List ℤ → ℤ
  | p :: ps, d :: ds => if p.1 = k then d * radix k ps + value k ps ds else value k ps ds
  | _, _ => 0

/-- One pass over the digits, from the most significant one. -/
def horner (k : κ) : ℤ → List (κ × ℤ) → List ℤ → ℤ
  | acc, p :: ps, d :: ds => horner k (if p.1 = k then acc * p.2 + d else acc) ps ds
  | acc, _, _ => acc

@[simp] theorem radix_nil (k : κ) : radix k [] = 1 := rfl

theorem radix_cons_self (k : κ) (e : ℤ) (ps : List (κ × ℤ)) :
    radix k ((k, e) :: ps) = radix k ps * e := if_pos rfl

theorem radix_cons_of_ne {k : κ} {p : κ × ℤ} (h : p.1 ≠ k) (ps : List (κ × ℤ)) :
    radix k (p :: ps) = radix k ps := if_neg h

variable {ps : List (κ × ℤ)}

theorem radix_pos (k : κ) (h : ∀ p ∈ ps, 0 < p.2) : 0 < radix k ps := by
  induction ps with
  | nil => exact one_pos
  | cons p ps ih =>
    have hps := ih (forall_mem_cons.mp h).2
    unfold radix
    split
    · exact mul_pos hps (h p mem_cons_self)
    · exact hps

@[simp] theorem length_digits (v : κ → ℤ) (ps : List (κ × ℤ)) :
    (digits v ps).length = ps.length := by
  induction ps with
  | nil => rfl
  | cons p ps ih => simp [digits, ih]

/-- Every digit is below the extent of its piece. -/
theorem digits_inRange (v : κ → ℤ) (h : ∀ p ∈ ps, 0 < p.2) :
    List.Forall₂ (fun (p : κ × ℤ) d => 0 ≤ d ∧ d < p.2) ps (digits v ps) := by
  induction ps with
  | nil => exact Forall₂.nil
  | cons p ps ih =>
    have hp : 0 < p.2 := h p mem_cons_self
    refine Forall₂.cons ⟨?_, ?_⟩ (ih (forall_mem_cons.mp h).2)
    · exact Int.fmod_nonneg_of_pos _ hp
    · exact Int.fmod_lt_of_pos _ hp

/-- Splitting off the most significant digit: `v mod (r * e)` is the digit `v / r mod e`
over the rest `v mod r`. -/
theorem fmod_mul (v : ℤ) {r e : ℤ} (hr : 0 < r) (he : 0 < e) :
    v.fmod (r * e) = (v.fdiv r).fmod e * r + v.fmod r := by
  rw [Int.fmod_def, Int.fmod_def, Int.fmod_def, Int.fdiv_fdiv_eq_fdiv_mul v hr.le he.le]
  ring

/-- **The digits of a number denote it**, modulo the product of the extents. -/
theorem value_digits (v : κ → ℤ) (k : κ) (h : ∀ p ∈ ps, 0 < p.2) :
    value k ps (digits v ps) = (v k).fmod (radix k ps) := by
  induction ps with
  | nil => simp [value]
  | cons p ps ih =>
    obtain ⟨j, e⟩ := p
    have hps : ∀ q ∈ ps, 0 < q.2 := (forall_mem_cons.mp h).2
    have he : 0 < e := h (j, e) mem_cons_self
    by_cases hj : j = k
    · subst hj
      rw [radix_cons_self, fmod_mul (v j) (radix_pos j hps) he, ← ih hps]
      exact if_pos rfl
    · rw [radix_cons_of_ne hj, ← ih hps]
      exact if_neg hj

theorem value_digits_of_lt (v : κ → ℤ) (k : κ) (h : ∀ p ∈ ps, 0 < p.2) (h0 : 0 ≤ v k)
    (hlt : v k < radix k ps) : value k ps (digits v ps) = v k := by
  rw [value_digits v k h, Int.fmod_eq_of_lt h0 hlt]

/-- The accumulation from the most significant digit denotes the same number. -/
theorem horner_eq_value (k : κ) {ds : List ℤ} (hlen : ps.length = ds.length) (acc : ℤ) :
    horner k acc ps ds = acc * radix k ps + value k ps ds := by
  induction ps generalizing ds acc with
  | nil =>
    obtain rfl := length_eq_zero_iff.mp hlen.symm
    simp [horner, value]
  | cons p ps ih =>
    obtain ⟨d, ds, rfl⟩ := exists_cons_of_length_eq_add_one hlen.symm
    have hlen' : ps.length = ds.length := Nat.succ.inj hlen
    obtain ⟨j, e⟩ := p
    simp only [horner, value, ih hlen']
    by_cases hj : j = k
    · subst hj
      simp only [if_pos, radix_cons_self]
      ring
    · simp [if_neg hj, radix_cons_of_ne (p := (j, e)) hj]

end Pruner.Lib.MixedRadix
