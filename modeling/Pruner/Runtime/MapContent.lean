import Pruner.Lib.MapListing
import Pruner.Lib.PartialRun
import Pruner.Runtime.Map

/-!
# The content of the hash table

The bytes of the slots, and the entries that a table holds, whatever its lists are.  The content
survives where an entry moves to a free slot, so that it is also that of a table whose lists are
broken because moving one of them failed half-way.

## Main definitions

* `jumpOf` — the jump in a byte.
* `Holds` — the entries of the table are those of a finite map.
* `Holds.lists` — the loop over the slots meets each of them once.
* `Holds.relocate`, `Holds.insert`, `Holds.setVal`, `Holds.remove` — one change of the content.
-/

namespace Pruner.Runtime

open Pruner.Lib List Option Function

variable {jump : ℕ}

/-! ## Bytes -/

/-- The seven bits of a byte that say how to reach the next entry. -/
def jumpOf (byte : UInt8) : ℕ := (byte &&& 0b01111111).toNat

theorem headBit_cases (byte : UInt8) :
    byte &&& 0b10000000 = 0 ∨ byte &&& 0b10000000 = 0b10000000 := by
  have h : ∀ n : Fin 256, UInt8.ofFin n &&& 0b10000000 = 0 ∨
      UInt8.ofFin n &&& 0b10000000 = 0b10000000 := by decide +kernel
  simpa using h byte.toFin

theorem jumpOf_or_aux : ∀ jump < kNumJumpDists,
    jumpOf (0 ||| UInt8.ofNat jump) = jump ∧ jumpOf (0b10000000 ||| UInt8.ofNat jump) = jump := by
  decide +kernel

theorem headBit_or_aux : ∀ jump < kNumJumpDists,
    (0 ||| UInt8.ofNat jump) &&& 0b10000000 = 0 ∧
      (0b10000000 ||| UInt8.ofNat jump) &&& 0b10000000 = 0b10000000 := by
  decide +kernel

theorem jumpOf_or (byte : UInt8) (h : jump < kNumJumpDists) :
    jumpOf (byte &&& 0b10000000 ||| UInt8.ofNat jump) = jump := by
  rcases headBit_cases byte with hbyte | hbyte
  · rw [hbyte, (jumpOf_or_aux jump h).1]
  · rw [hbyte, (jumpOf_or_aux jump h).2]

theorem headBit_or (byte : UInt8) (h : jump < kNumJumpDists) :
    (byte &&& 0b10000000 ||| UInt8.ofNat jump) &&& 0b10000000 = byte &&& 0b10000000 := by
  rcases headBit_cases byte with hbyte | hbyte
  · rw [hbyte, (headBit_or_aux jump h).1]
  · rw [hbyte, (headBit_or_aux jump h).2]

theorem probe_pos : ∀ jump < kNumJumpDists, 1 ≤ jump → probe jump ≠ 0 := by
  decide +kernel

namespace DenseMapNode

variable {κ ν : Type} {t t' : DenseMapNode κ ν} {i : ℕ}

theorem next_eq : t.next i = if probe (jumpOf (t.bytes i)) = 0 then none
    else some ((i + probe (jumpOf (t.bytes i))) &&& t.slots) := rfl

theorem next_congr (hslots : t'.slots = t.slots) (hbyte : t'.bytes i = t.bytes i) :
    t'.next i = t.next i := by
  rw [next_eq, next_eq, hslots, hbyte]

theorem next_of_jumpOf_eq_zero (h : jumpOf (t.bytes i) = 0) : t.next i = none := by
  rw [next_eq, h]
  rfl

theorem isHead_congr (hbyte : t'.bytes i = t.bytes i) : t'.isHead i = t.isHead i := by
  rw [isHead, isHead, hbyte]

theorem isHead_of_headBit (hbyte : t'.bytes i &&& 0b10000000 = t.bytes i &&& 0b10000000) :
    t'.isHead i = t.isHead i := by
  rw [isHead, isHead, hbyte]

theorem not_isHead_of_isEmpty (h : t.isEmpty i = true) : t.isHead i = false := by
  rw [isEmpty, beq_iff_eq] at h
  rw [isHead, h]
  decide

theorem getNextEmpty_eq_some {e : ℕ} (h : t.getNextEmpty i = some (jump, e)) :
    1 ≤ jump ∧ jump < kNumJumpDists ∧ e = (i + probe jump) &&& t.slots ∧ t.isEmpty e = true := by
  rw [getNextEmpty, map_eq_some_iff] at h
  obtain ⟨idx, hfind, heq⟩ := h
  cases heq
  have hmem := mem_of_find?_eq_some hfind
  rw [mem_range'_1] at hmem
  have hempty := find?_some hfind
  exact ⟨hmem.1, by omega, rfl, hempty⟩

theorem getNextEmpty_eq_none (h : t.getNextEmpty i = none) (hpos : 1 ≤ jump)
    (hlt : jump < kNumJumpDists) : t.isEmpty ((i + probe jump) &&& t.slots) = false := by
  rw [getNextEmpty, map_eq_none_iff, find?_eq_none] at h
  have hmem : jump ∈ range' 1 (kNumJumpDists - 1) := by
    rw [mem_range'_1]
    omega
  simpa using h jump hmem

end DenseMapNode

/-! ## The content of a table -/

/-- The entries of the table are those of the map, each in one slot. -/
structure Holds {κ ν : Type} (t : DenseMapNode κ ν) (M : κ → Option ν) : Prop where
  bound : ∀ i kv, t.data i = some kv → i ≤ t.slots
  sound : ∀ i kv, t.data i = some kv → M kv.1 = some kv.2
  complete : ∀ k v, M k = some v → ∃ i, t.data i = some (k, v)
  inj : ∀ i j kv, t.data i = some kv → t.data j = some kv → i = j
  used : ∀ i kv, t.data i = some kv → jumpOf (t.bytes i) < kNumJumpDists

namespace Holds

variable {κ ν : Type} {t t' : DenseMapNode κ ν} {M : κ → Option ν} {i j : ℕ} (h : Holds t M)
include h

/-- A key stands in one slot. -/
theorem slot_unique {k : κ} {v w : ν} (hi : t.data i = some (k, v))
    (hj : t.data j = some (k, w)) : i = j := by
  have hv : some v = some w := (h.sound i (k, v) hi).symm.trans (h.sound j (k, w) hj)
  cases hv
  exact h.inj i j (k, v) hi hj

/-- An empty slot has no entry. -/
theorem data_of_isEmpty (hempty : t.isEmpty i = true) : t.data i = none := by
  cases hdata : t.data i with
  | none => rfl
  | some kv =>
    have hused := h.used i kv hdata
    rw [DenseMapNode.isEmpty, beq_iff_eq] at hempty
    rw [hempty] at hused
    exact absurd hused (by decide)

theorem not_isProtected {kv : κ × ν} (hdata : t.data i = some kv) :
    (t.isProtected i || t.isEmpty i) = false := by
  have hused := h.used i kv hdata
  rw [Bool.or_eq_false_iff]
  constructor
  · rw [DenseMapNode.isProtected, beq_eq_false_iff_ne]
    intro hbyte
    rw [hbyte] at hused
    exact absurd hused (by decide)
  · rw [Bool.eq_false_iff]
    intro hempty
    rw [h.data_of_isEmpty hempty] at hdata
    cases hdata

theorem entries_eq : t.entries = (List.range (t.slots + 1)).filterMap t.data := by
  refine filterMap_congr fun i _ => ?_
  cases hdata : t.data i with
  | none => simp
  | some kv => rw [h.not_isProtected hdata]; rfl

/-- **The entries list the map.** -/
theorem lists : Lists t.entries M := by
  rw [h.entries_eq]
  constructor
  · rw [map_filterMap]
    refine nodup_range.filterMap fun i j k hi hj => ?_
    simp only [mem_def, map_eq_some_iff] at hi hj
    obtain ⟨⟨k, v⟩, hi, rfl⟩ := hi
    obtain ⟨⟨k', v'⟩, hj, heq⟩ := hj
    subst heq
    exact h.slot_unique hi hj
  · intro kv
    rw [mem_filterMap]
    constructor
    · rintro ⟨i, -, hi⟩
      exact h.sound i kv hi
    · intro hM
      obtain ⟨i, hi⟩ := h.complete kv.1 kv.2 hM
      exact ⟨i, mem_range.mpr (Nat.lt_succ_of_le (h.bound i _ hi)), hi⟩

section

variable (hused : ∀ i kv, t'.data i = some kv → jumpOf (t'.bytes i) < kNumJumpDists)
include hused

/-- The entry of `r` takes the place of that of `e`, if there is one. -/
theorem relocate {r e : ℕ} {M' : κ → Option ν} (hbound : e ≤ t.slots)
    (hM : ∀ k v, M' k = some v ↔ M k = some v ∧ t.data e ≠ some (k, v))
    (hslots : t'.slots = t.slots)
    (hdata : ∀ i, t'.data i = if i = r then none else if i = e then t.data r else t.data i) :
    Holds t' M' := by
  -- every entry of the new table is one of the old table
  have hold : ∀ i kv, t'.data i = some kv → i ≠ r ∧ t.data (if i = e then r else i) = some kv := by
    intro i kv hi
    rw [hdata] at hi
    by_cases hir : i = r
    · rw [if_pos hir] at hi
      cases hi
    · refine ⟨hir, ?_⟩
      split_ifs at hi ⊢ <;> exact hi
  refine ⟨fun i kv hi => ?_, fun i kv hi => ?_, fun k v hk => ?_, fun i j kv hi hj => ?_, hused⟩
  · have hi := (hold i kv hi).2
    split_ifs at hi with hie
    · omega
    · exact hslots ▸ h.bound i kv hi
  · obtain ⟨hir, hi⟩ := hold i kv hi
    refine (hM kv.1 kv.2).mpr ⟨h.sound _ kv hi, fun he => ?_⟩
    have heq := h.inj _ _ kv hi he
    split_ifs at heq with hie
    · exact hir (hie.trans heq.symm)
    · exact hie heq
  · obtain ⟨hk, he⟩ := (hM k v).mp hk
    obtain ⟨i, hi⟩ := h.complete k v hk
    have hie : i ≠ e := by
      rintro rfl
      exact he hi
    by_cases hir : i = r
    · exact ⟨e, by rw [hdata, if_neg (hir ▸ hie.symm), if_pos rfl, ← hir, hi]⟩
    · exact ⟨i, by rw [hdata, if_neg hir, if_neg hie, hi]⟩
  · obtain ⟨hir, hi⟩ := hold i kv hi
    obtain ⟨hjr, hj⟩ := hold j kv hj
    have heq := h.inj _ _ kv hi hj
    split_ifs at heq with hie hje hje
    · rw [hie, hje]
    · exact absurd heq.symm hjr
    · exact absurd heq hir
    · exact heq

variable [DecidableEq κ] {k : κ} {v : ν}

/-- The slot of a key is written. -/
theorem write (hkey : ∀ j kv, t.data j = some kv → (kv.1 = k ↔ j = i)) (hbound : i ≤ t.slots)
    (hslots : t'.slots = t.slots) (hdata : t'.data = update t.data i (some (k, v))) :
    Holds t' (update M k (some v)) := by
  have hother : ∀ j kv, t'.data j = some kv →
      (j = i ∧ kv = (k, v)) ∨ (kv.1 ≠ k ∧ t.data j = some kv) := by
    intro j kv hj
    rw [hdata] at hj
    rcases update_eq_cases hj with ⟨hji, hj⟩ | ⟨hji, hj⟩
    · exact .inl ⟨hji, (some.inj hj).symm⟩
    · exact .inr ⟨fun hk => hji ((hkey j kv hj).mp hk), hj⟩
  refine ⟨fun j kv hj => ?_, fun j kv hj => ?_, fun k' v' hM => ?_, fun j j' kv hj hj' => ?_, hused⟩
  · rcases hother j kv hj with ⟨rfl, -⟩ | ⟨-, hj⟩
    · omega
    · exact hslots ▸ h.bound j kv hj
  · rcases hother j kv hj with ⟨-, rfl⟩ | ⟨hne, hj⟩
    · exact update_self ..
    · rw [update_of_ne hne]
      exact h.sound j kv hj
  · rcases update_eq_cases hM with ⟨rfl, ⟨⟩⟩ | ⟨hkk, hM⟩
    · exact ⟨i, by rw [hdata, update_self]⟩
    · obtain ⟨j, hj⟩ := h.complete k' v' hM
      exact ⟨j, by rw [hdata, update_of_ne fun hji => hkk ((hkey j _ hj).mpr hji), hj]⟩
  · rcases hother j kv hj with ⟨hji, heq⟩ | ⟨hne, hold⟩ <;>
      rcases hother j' kv hj' with ⟨hji', heq'⟩ | ⟨hne', hold'⟩
    · rw [hji, hji']
    · exact absurd (congrArg Prod.fst heq) hne'
    · exact absurd (congrArg Prod.fst heq') hne
    · exact h.inj _ _ kv hold hold'

/-- A new entry in a free slot. -/
theorem insert (hk : M k = none) (hi : t.data i = none) (hbound : i ≤ t.slots)
    (hslots : t'.slots = t.slots) (hdata : t'.data = update t.data i (some (k, v))) :
    Holds t' (update M k (some v)) := by
  refine h.write hused (fun j kv hj => ⟨?_, ?_⟩) hbound hslots hdata
  · rintro rfl
    cases hk.symm.trans (h.sound j kv hj)
  · rintro rfl
    cases hi.symm.trans hj

/-- An entry is removed, and the entry of another slot may take its place. -/
theorem remove {z : ℕ} (hi : t.data i = some (k, v)) (hslots : t'.slots = t.slots)
    (hdata : ∀ j, t'.data j = if j = z then none else if j = i then t.data z else t.data j) :
    Holds t' (update M k none) := by
  refine h.relocate hused (h.bound i _ hi) (fun k' v' => ?_) hslots hdata
  by_cases hk : k' = k
  · subst hk
    simp [hi, show M k' = some v from h.sound i _ hi]
  · simp [hi, hk, Ne.symm hk]

end

variable [DecidableEq κ] {k : κ} {v : ν}

/-- The value of an entry is written. -/
theorem setVal {w : ν} (hi : t.data i = some (k, w)) :
    Holds (t.setVal i v) (update M k (some v)) := by
  have hdata : (t.setVal i v).data = update t.data i (some (k, v)) := by
    rw [DenseMapNode.setVal, hi]
    rfl
  refine h.write (fun j kv hj => ?_) (fun j kv hj => ⟨?_, ?_⟩) (h.bound i _ hi) rfl hdata
  · by_cases hji : j = i
    · exact hji ▸ h.used i _ hi
    · rw [hdata, update_of_ne hji] at hj
      exact h.used j kv hj
  · rintro rfl
    exact h.slot_unique hj hi
  · rintro rfl
    cases hj.symm.trans hi
    rfl

end Holds

end Pruner.Runtime
