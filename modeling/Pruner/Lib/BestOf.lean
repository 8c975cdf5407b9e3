import Mathlib.Data.List.Nodup
import Mathlib.Data.List.Perm.Basic
import Mathlib.Order.Lattice

/-!
# The best few of a stream

A selection that reads a stream once and keeps at most `k` elements, no two with the same
key.  `BestOf` says what it has to have kept after a part of the stream, and the lemmas
are the moves that such a selection can make with the next element.

## Main definitions

* `BestOf key score k seen kept` — `kept` is a best selection from `seen`.
* `BestOf.skip`, `BestOf.push`, `BestOf.replace` — the moves.
* `BestOf.all_kept` — with fewer than `k` kept, nothing has been turned away.
-/

namespace Pruner.Lib

open List

universe u v w

variable {α : Type u} {κ : Type v} {𝕜 : Type w} [LinearOrder 𝕜] {key : α → κ} {score : α → 𝕜}
  {k : ℕ} {seen kept : List α} {a : α}

/-- `kept` has at most `k` elements of `seen`, with different keys, and every key that is
missing was turned away for better elements. -/
structure BestOf (key : α → κ) (score : α → 𝕜) (k : ℕ) (seen kept : List α) : Prop where
  nodup : (kept.map key).Nodup
  length_le : kept.length ≤ k
  subset : ∀ b ∈ kept, b ∈ seen
  best : ∀ s ∈ seen, key s ∉ kept.map key → k ≤ kept.length ∧ ∀ b ∈ kept, score s ≤ score b

namespace BestOf

theorem nil (key : α → κ) (score : α → 𝕜) (k : ℕ) : BestOf key score k [] [] where
  nodup := nodup_nil
  length_le := Nat.zero_le k
  subset _ h := h
  best _ h := absurd h not_mem_nil

section

variable (h : BestOf key score k seen kept)
include h

theorem perm {kept' : List α} (hp : kept'.Perm kept) : BestOf key score k seen kept' where
  nodup := (hp.map key).nodup_iff.mpr h.nodup
  length_le := hp.length_eq ▸ h.length_le
  subset b hb := h.subset b (hp.mem_iff.mp hb)
  best s hs hkey := by
    obtain ⟨hk, hle⟩ := h.best s hs (mt (hp.map key).mem_iff.mpr hkey)
    exact ⟨hp.length_eq ▸ hk, fun b hb => hle b (hp.mem_iff.mp hb)⟩

/-- An element adds nothing whose key has been kept, or that is better than none of a full
selection. -/
theorem skip (ha : key a ∉ kept.map key → k ≤ kept.length ∧ ∀ b ∈ kept, score a ≤ score b) :
    BestOf key score k (seen ++ [a]) kept where
  nodup := h.nodup
  length_le := h.length_le
  subset b hb := mem_append_left _ (h.subset b hb)
  best := forall_mem_append.mpr ⟨h.best, forall_mem_singleton.mpr ha⟩

/-- While there is room, a new key is kept. -/
theorem push (ha : key a ∉ kept.map key)
    (hroom : kept.length < k) : BestOf key score k (seen ++ [a]) (a :: kept) where
  nodup := by
    exact nodup_cons.mpr ⟨ha, h.nodup⟩
  length_le := by
    exact hroom
  subset := forall_mem_cons.mpr
    ⟨mem_append_right _ mem_cons_self, fun b hb => mem_append_left _ (h.subset b hb)⟩
  best s hs hkey := by
    rw [map_cons, mem_cons, not_or] at hkey
    rcases mem_append.mp hs with hs | hs
    · have := (h.best s hs hkey.2).1
      omega
    · exact absurd (congrArg key (mem_singleton.mp hs)) hkey.1

end

/-- A full selection gives up its worst element for a better one.  The score has to be a
function of the key: the element that leaves speaks for all with its key. -/
theorem replace {worst : α} (h : BestOf key score k seen (worst :: kept))
    (hscore : ∀ s t, key s = key t → score s = score t)
    (hfull : k ≤ (worst :: kept).length) (hworst : ∀ b ∈ kept, score worst ≤ score b)
    (hlt : score worst < score a) (ha : key a ∉ (worst :: kept).map key) :
    BestOf key score k (seen ++ [a]) (a :: kept) where
  nodup := by
    rw [map_cons, mem_cons, not_or] at ha
    exact nodup_cons.mpr ⟨ha.2, (nodup_cons.mp h.nodup).2⟩
  length_le := h.length_le
  subset b hb := by
    rcases mem_cons.mp hb with rfl | hb
    · exact mem_append_right _ mem_cons_self
    · exact mem_append_left _ (h.subset b (mem_cons_of_mem _ hb))
  best s hs hkey := by
    rw [map_cons, mem_cons, not_or] at hkey
    refine ⟨hfull, ?_⟩
    -- whatever has the key of the element that leaves has its score
    have hle : score s ≤ score worst := by
      rcases mem_append.mp hs with hs | hs
      · by_cases hkw : key s = key worst
        · exact (hscore s worst hkw).le
        · have hnot : key s ∉ (worst :: kept).map key := by
            rw [map_cons, mem_cons, not_or]
            exact ⟨hkw, hkey.2⟩
          exact (h.best s hs hnot).2 worst mem_cons_self
      · exact absurd (congrArg key (mem_singleton.mp hs)) hkey.1
    exact forall_mem_cons.mpr ⟨hle.trans hlt.le, fun b hb => hle.trans (hworst b hb)⟩

/-- A selection that is not full has kept every key. -/
theorem all_kept (h : BestOf key score k seen kept) (hlt : kept.length < k) :
    ∀ s ∈ seen, key s ∈ kept.map key := by
  intro s hs
  by_contra hkey
  have := (h.best s hs hkey).1
  omega

end BestOf

end Pruner.Lib
