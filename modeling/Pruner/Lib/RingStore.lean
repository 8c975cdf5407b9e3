import Mathlib.Data.List.Basic

/-!
# Block copies, and lists read as rings

A block of memory is a list.  Copying out of it and into it succeeds only inside its bounds.
A list read from a position on and continued at its front is a ring; a queue lies on a ring when
the ring shows it from the head on.  One write at the end of the queue appends to it as long as
there is room, and a read at its front takes a part of it away.

## Main definitions

* `slice`, `overwrite` — copying a block out of a list, and into one, within bounds.
* `resize` — a list cut or filled up to a length.
* `OnRing ring head q` — the queue `q` lies on the ring from `head` on.
* `OnRing.push`, `OnRing.take_eq`, `OnRing.drop` — writing at the end, reading at the front.
* `OnRing.grow`, `OnRing.unwrap` — a longer ring, without and with a part that wraps around.
-/

namespace Pruner.Lib

open List

variable {n pos : ℕ} {α : Type*}

/-! ## Block copies -/

/-- The `n` elements from `pos` on, where there are so many. -/
def slice (l : List α) (pos n : ℕ) : Option (List α) :=
  if pos + n ≤ l.length then some ((l.drop pos).take n) else none

/-- The block `d` copied to `pos`, where it fits. -/
def overwrite (l : List α) (pos : ℕ) (d : List α) : Option (List α) :=
  if pos + d.length ≤ l.length then some (l.take pos ++ d ++ l.drop (pos + d.length)) else none

/-- The list cut to `n` elements, or filled up to them. -/
def resize (l : List α) (n : ℕ) (fill : α) : List α :=
  l.take n ++ List.replicate (n - l.length) fill

@[simp] theorem length_resize (l : List α) (n : ℕ) (fill : α) : (resize l n fill).length = n := by
  simp only [resize, length_append, length_take, length_replicate]
  omega

variable {l d : List α} {i : ℕ}

/-- What stood in the list before stays in it. -/
theorem getElem?_resize (fill : α) (hi : i < l.length) (hn : i < n) :
    (resize l n fill)[i]? = l[i]? := by
  rw [resize, getElem?_append_left (by rw [length_take]; omega), getElem?_take_of_lt hn]

/-- A block that fits is copied. -/
theorem exists_overwrite (h : pos + d.length ≤ l.length) :
    ∃ l', overwrite l pos d = some l' ∧ l'.length = l.length ∧
      (∀ i, i < d.length → l'[pos + i]? = d[i]?) ∧
      (∀ i, (i < pos ∨ pos + d.length ≤ i) → l'[i]? = l[i]?) := by
  refine ⟨_, if_pos h, ?_, ?_, ?_⟩
  · simp only [length_append, length_take, length_drop]
    omega
  · intro i hi
    rw [append_assoc, getElem?_append_right (by rw [length_take]; omega),
      length_take, getElem?_append_left (by omega)]
    congr 1
    omega
  · intro i hi
    rw [append_assoc]
    rcases hi with hi | hi
    · rw [getElem?_append_left (by rw [length_take]; omega), getElem?_take_of_lt hi]
    · rw [getElem?_append_right (by rw [length_take]; omega), length_take,
        getElem?_append_right (by omega), getElem?_drop]
      congr 1
      omega

/-- A block that does not fit is not. -/
theorem overwrite_eq_none (h : l.length < pos + d.length) : overwrite l pos d = none :=
  if_neg (by omega)

theorem slice_eq_some (h : pos + n ≤ l.length) : slice l pos n = some ((l.drop pos).take n) :=
  if_pos h

theorem length_of_slice_eq_some {s : List α} (h : slice l pos n = some s) : s.length = n := by
  rw [slice] at h
  split_ifs at h with hle
  rw [← Option.some.inj h, length_take, length_drop]
  omega

/-! ## Queues on rings -/

/-- The place `i` steps after `head` on a ring of `n` places. -/
theorem mod_eq_ite {head : ℕ} (hhead : head < n) (hi : i ≤ n) :
    (head + i) % n = if head + i < n then head + i else head + i - n := by
  split_ifs with h
  · exact Nat.mod_eq_of_lt h
  · rw [Nat.mod_eq_sub_mod (by omega), Nat.mod_eq_of_lt (by omega)]

/-- The queue `q` lies on the ring from `head` on. -/
structure OnRing (ring : List α) (head : ℕ) (q : List α) : Prop where
  head_lt : head < ring.length
  fits : q.length ≤ ring.length
  at_eq : ∀ i, i < q.length → ring[(head + i) % ring.length]? = q[i]?

namespace OnRing

variable {ring q d : List α} {head : ℕ}

/-- The empty queue lies on any ring. -/
theorem nil (h : head < ring.length) : OnRing ring head [] where
  head_lt := h
  fits := Nat.zero_le _
  at_eq := fun _ hi => absurd hi (Nat.not_lt_zero _)

variable (h : OnRing ring head q)
include h

/-- A block written at the end of the queue is appended to it. -/
theorem push (hpos : pos = (head + q.length) % ring.length) (hend : pos + d.length ≤ ring.length)
    (hroom : q.length + d.length ≤ ring.length) :
    ∃ ring', overwrite ring pos d = some ring' ∧ ring'.length = ring.length ∧
      OnRing ring' head (q ++ d) := by
  have hhead := h.head_lt
  obtain ⟨ring', hring', hlen, hin, hout⟩ := exists_overwrite hend
  rw [mod_eq_ite hhead h.fits] at hpos
  refine ⟨ring', hring', hlen, hlen ▸ hhead, by rw [length_append, hlen]; exact hroom, ?_⟩
  intro i hi
  rw [length_append] at hi
  rw [hlen, mod_eq_ite hhead (by omega)]
  by_cases hq : i < q.length
  · rw [getElem?_append_left hq, ← h.at_eq i hq, mod_eq_ite hhead (by omega)]
    apply hout
    split_ifs at hpos ⊢ <;> omega
  · rw [getElem?_append_right (by omega), ← hin _ (by omega)]
    congr 1
    split_ifs at hpos ⊢ <;> omega

/-- What is read from the head to the end of the ring, and then from its front on, is the front of
the queue. -/
theorem take_eq {k : ℕ} (hn : n ≤ q.length) (hk : k = min n (ring.length - head)) :
    (ring.drop head).take k ++ ring.take (n - k) = q.take n := by
  have hhead := h.head_lt
  have hfits := h.fits
  apply ext_getElem?
  intro i
  by_cases hi : i < n
  · rw [getElem?_take_of_lt hi, ← h.at_eq i (by omega), mod_eq_ite hhead (by omega)]
    by_cases hik : i < k
    · rw [getElem?_append_left (by rw [length_take, length_drop]; omega),
        getElem?_take_of_lt hik, getElem?_drop, if_pos (by omega)]
    · rw [getElem?_append_right (by rw [length_take]; omega),
        length_take, length_drop, getElem?_take_of_lt (by omega),
        if_neg (by omega)]
      congr 1
      omega
  · rw [getElem?_eq_none, getElem?_eq_none]
    · rw [length_take]
      omega
    · simp only [length_append, length_take, length_drop]
      omega

/-- The queue without its front lies from the moved head on. -/
theorem drop (n : ℕ) : OnRing ring ((head + n) % ring.length) (q.drop n) where
  head_lt := Nat.mod_lt _ (Nat.zero_lt_of_lt h.head_lt)
  fits := by
    have := h.fits
    rw [length_drop]
    omega
  at_eq := by
    intro i hi
    rw [length_drop] at hi
    rw [Nat.mod_add_mod, Nat.add_assoc, h.at_eq _ (by omega), getElem?_drop]

/-- The front of the queue lies from the same head on. -/
theorem take (n : ℕ) : OnRing ring head (q.take n) where
  head_lt := h.head_lt
  fits := by
    have := h.fits
    rw [length_take]
    omega
  at_eq := by
    intro i hi
    rw [length_take] at hi
    rw [h.at_eq i (by omega), getElem?_take_of_lt (by omega)]

variable {ring' : List α}

/-- A queue that does not wrap around lies on every ring that starts with its places. -/
theorem grow (hlen : head + q.length ≤ ring'.length) (hhead : head < ring'.length)
    (hwrap : head + q.length ≤ ring.length)
    (hsame : ∀ i, head ≤ i → i < head + q.length → ring'[i]? = ring[i]?) :
    OnRing ring' head q where
  head_lt := hhead
  fits := by omega
  at_eq := by
    intro i hi
    rw [Nat.mod_eq_of_lt (by omega), hsame _ (by omega) (by omega), ← h.at_eq i hi,
      Nat.mod_eq_of_lt (by omega)]

/-- A longer ring with the part that wraps around copied behind the old end. -/
theorem unwrap (hn : n = head + q.length - ring.length)
    (hlen : ring.length + n ≤ ring'.length) (hwrap : ring.length < head + q.length)
    (hsame : ∀ i, i < ring.length → ring'[i]? = ring[i]?)
    (hcopy : ∀ i, i < n → ring'[ring.length + i]? = ring[i]?) : OnRing ring' head q where
  head_lt := by
    have := h.head_lt
    omega
  fits := by
    omega
  at_eq := by
    intro i hi
    have hhead := h.head_lt
    have hfits := h.fits
    rw [Nat.mod_eq_of_lt (by omega), ← h.at_eq i hi, mod_eq_ite hhead (by omega)]
    split_ifs with hlt
    · rw [hsame _ hlt]
    · rw [← hcopy _ (by omega)]
      congr 1
      omega

end OnRing

end Pruner.Lib
