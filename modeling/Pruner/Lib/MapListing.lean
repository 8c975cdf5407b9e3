import Mathlib.Data.List.Perm.Basic
import Mathlib.Data.List.Nodup

/-!
# Listings of finite maps

A list of entries lists a finite map when no key stands in it twice and its entries are those of
the map.  Two listings of a map differ by the order only, so the number of entries belongs to
the map, and changes with it in the expected way.

## Main definitions

* `Lists` — the list holds every entry of the map, once.
* `Lists.perm` — a listing is determined up to the order.
* `setAll`, `Lists.setAll_eq` — the entries of a listing are set one by one.
* `Lists.length_insert`, `Lists.length_set`, `Lists.length_erase` — the number of entries.
-/

namespace Pruner.Lib

open List Function

variable {κ ν : Type} {l l' : List (κ × ν)} {M : κ → Option ν} {k : κ} {v : ν}

/-- The list holds every entry of the map, and every key once. -/
structure Lists (l : List (κ × ν)) (M : κ → Option ν) : Prop where
  nodup : (l.map Prod.fst).Nodup
  mem_iff : ∀ kv, kv ∈ l ↔ M kv.1 = some kv.2

theorem Lists.nil : Lists [] (fun _ : κ => (none : Option ν)) := ⟨nodup_nil, by simp⟩

/-- **A listing is determined** up to the order. -/
theorem Lists.perm (h : Lists l M) (h' : Lists l' M) : l.Perm l' :=
  (perm_ext_iff_of_nodup h.nodup.of_map h'.nodup.of_map).mpr fun kv => by
    rw [h.mem_iff, h'.mem_iff]

/-- Every order of a listing is one. -/
theorem Lists.of_perm (h : Lists l M) (hperm : l'.Perm l) : Lists l' M :=
  ⟨(hperm.map Prod.fst).nodup_iff.mpr h.nodup, fun kv => by rw [hperm.mem_iff, h.mem_iff]⟩

theorem Lists.notMem (h : Lists l M) (hk : M k = none) : k ∉ l.map Prod.fst := by
  intro hmem
  obtain ⟨⟨k', v⟩, hkv, rfl⟩ := mem_map.mp hmem
  have hsome := (h.mem_iff _).mp hkv
  rw [hk] at hsome
  cases hsome

variable [DecidableEq κ]

theorem Lists.cons (h : Lists l M) (hk : M k = none) :
    Lists ((k, v) :: l) (update M k (some v)) := by
  refine ⟨nodup_cons.mpr ⟨h.notMem hk, h.nodup⟩, fun kv => ?_⟩
  obtain ⟨k', v'⟩ := kv
  rw [mem_cons, h.mem_iff]
  by_cases hkk : k' = k
  · subst hkk
    simp [hk, eq_comm]
  · simp [hkk]

theorem Lists.filter (h : Lists l M) (k : κ) :
    Lists (l.filter fun kv => kv.1 ≠ k) (update M k none) := by
  refine ⟨(filter_sublist.map Prod.fst).nodup h.nodup, fun kv => ?_⟩
  obtain ⟨k', v'⟩ := kv
  rw [mem_filter, h.mem_iff]
  by_cases hkk : k' = k
  · subst hkk
    simp
  · simp [hkk]

variable {a b : List (κ × ν)} {w : ν} {N : κ → Option ν}

/-- An entry in the middle is removed. -/
theorem Lists.middle (h : Lists (a ++ (k, v) :: b) M) :
    Lists (a ++ b) (update M k none) := by
  have hcons := h.of_perm perm_middle.symm
  have hnodup := nodup_cons.mp hcons.nodup
  refine ⟨hnodup.2, fun kv => ?_⟩
  obtain ⟨k', v'⟩ := kv
  by_cases hkk : k' = k
  · subst hkk
    rw [update_self]
    exact iff_of_false (fun hmem => hnodup.1 (mem_map.mpr ⟨_, hmem, rfl⟩)) nofun
  · rw [update_of_ne hkk, ← hcons.mem_iff (k', v'), mem_cons]
    refine ⟨.inr, fun hmem => hmem.resolve_left fun heq => hkk (congrArg Prod.fst heq)⟩

/-- The value of an entry in the middle is written. -/
theorem Lists.set_middle (h : Lists (a ++ (k, v) :: b) M) :
    Lists (a ++ (k, w) :: b) (update M k (some w)) := by
  have hcons := h.middle.cons (v := w) (update_self k none M)
  rw [update_idem] at hcons
  exact hcons.of_perm perm_middle

theorem Lists.concat (h : Lists l M) (hk : M k = none) :
    Lists (l ++ [(k, v)]) (update M k (some v)) :=
  (h.cons hk).of_perm (perm_append_singleton (k, v) l)

/-- A new key makes the listing one longer. -/
theorem Lists.length_insert (h : Lists l M) (hk : M k = none)
    (h' : Lists l' (update M k (some v))) : l'.length = l.length + 1 :=
  (h'.perm (h.cons hk)).length_eq

/-- Without a key that was there the listing is one shorter. -/
theorem Lists.length_erase (h : Lists l M) (hk : M k = some v)
    (h' : Lists l' (update M k none)) : l.length = l'.length + 1 := by
  refine h'.length_insert (v := v) (update_self k none M) ?_
  rw [update_idem, ← hk, update_eq_self]
  exact h

/-- Another value at a key that was there keeps the length. -/
theorem Lists.length_set (h : Lists l M) (hk : M k = some w)
    (h' : Lists l' (update M k (some v))) : l'.length = l.length := by
  have hinsert := (h.filter k).length_insert (update_self k none M)
    (by rwa [update_idem])
  have herase := h.length_erase hk (h.filter k)
  omega

/-- The entries of a list are set one after the other. -/
def setAll (N : κ → Option ν) (l : List (κ × ν)) : κ → Option ν :=
  l.foldl (fun N kv => update N kv.1 (some kv.2)) N

theorem setAll_notMem (hk : k ∉ l.map Prod.fst) : setAll N l k = N k := by
  induction l generalizing N with
  | nil => rfl
  | cons kv l ih =>
    rw [map_cons, mem_cons, not_or] at hk
    exact (ih hk.2).trans (update_of_ne hk.1 _ _)

theorem setAll_mem (hl : (l.map Prod.fst).Nodup) (hk : (k, v) ∈ l) :
    setAll N l k = some v := by
  induction l generalizing N with
  | nil => cases hk
  | cons kv l ih =>
    rw [map_cons, nodup_cons] at hl
    rcases mem_cons.mp hk with rfl | hk
    · exact (setAll_notMem hl.1).trans (update_self ..)
    · exact ih hl.2 hk

/-- **Setting the entries of a listing** makes its map take precedence. -/
theorem Lists.setAll_eq (h : Lists l M) (N : κ → Option ν) :
    setAll N l = fun k => (M k).or (N k) := by
  funext k
  cases hM : M k with
  | none => rw [setAll_notMem (h.notMem hM), Option.none_or]
  | some v => rw [setAll_mem h.nodup ((h.mem_iff (k, v)).mpr hM), Option.some_or]

end Pruner.Lib
