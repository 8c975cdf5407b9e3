import Mathlib.Data.List.Perm.Basic
import Mathlib.Data.List.Nodup

/-!
# Maps that are enumerated in an unspecified order

A hash map gives its entries in an order that depends on the addresses of its keys.  A
map is kept here as the list of its entries in the order of insertion, and a program
that enumerates maps one after another is run with an `Enumeration`: for each map, some
permutation of its entries.  What the program can see of all its enumerations are then
the arrangements of the list of its maps, and every arrangement is seen in some run.

## Main definitions

* `EntryMap` — the entries of a map, with distinct keys.
* `EntryMap.update` — `m[k]`, created when it is missing, and then changed.
* `Enumeration` — the orders in which the maps of a run are enumerated.
* `Arranged` — two lists of blocks that differ in the order inside the blocks only.

## Main results

* `Enumeration.arranged_views` and `exists_enumeration_views` — the enumerations of the
  maps of a program, read through a function for each map, are exactly the arrangements.
-/

namespace Pruner.Lib

open List

/-- The entries of a map, in the order of insertion. -/
structure EntryMap (κ α : Type*) where
  entries : List (κ × α)
  nodup : (entries.map Prod.fst).Nodup

namespace EntryMap

variable {κ α : Type*}

def empty : EntryMap κ α := ⟨[], nodup_nil⟩

/-- The entries with the one of `k` changed, or added at the end. -/
def updateEntries [DecidableEq κ] (k : κ) (f : Option α → α) : List (κ × α) → List (κ × α)
  | [] => [(k, f none)]
  | (k', a) :: m =>
    if k' = k then (k', f (some a)) :: m else (k', a) :: updateEntries k f m

variable [DecidableEq κ] {k x : κ} {f : Option α → α} {m : List (κ × α)} {a : α} {P : κ → α → Prop}

theorem mem_keys_updateEntries :
    x ∈ (updateEntries k f m).map Prod.fst ↔ x = k ∨ x ∈ m.map Prod.fst := by
  induction m with
  | nil => simp [updateEntries]
  | cons p m ih =>
    obtain ⟨k', a⟩ := p
    rw [updateEntries]
    split
    · next h => simp [h]
    · rw [map_cons, mem_cons, map_cons, mem_cons]
      tauto

theorem nodup_updateEntries
    (h : (m.map Prod.fst).Nodup) : ((updateEntries k f m).map Prod.fst).Nodup := by
  induction m with
  | nil => simp [updateEntries]
  | cons p m ih =>
    obtain ⟨k', a⟩ := p
    rw [map_cons, nodup_cons] at h
    rw [updateEntries]
    split
    · exact nodup_cons.mpr h
    · next hne =>
        refine nodup_cons.mpr ⟨fun hmem => ?_, ih h.2⟩
        rcases mem_keys_updateEntries.mp hmem with heq | hmem
        · exact hne heq
        · exact h.1 hmem

/-- `f` applied to `m[k]`, where a missing entry is `none`. -/
def update (m : EntryMap κ α) (k : κ) (f : Option α → α) : EntryMap κ α :=
  ⟨updateEntries k f m.entries, nodup_updateEntries m.nodup⟩

/-- The value of a key. -/
def get? (m : EntryMap κ α) (k : κ) : Option α := m.entries.lookup k

theorem mem_keys_update {m : EntryMap κ α} :
    x ∈ (m.update k f).entries.map Prod.fst ↔ x = k ∨ x ∈ m.entries.map Prod.fst :=
  mem_keys_updateEntries

/-- The entries with a property. -/
def filter (m : EntryMap κ α) (p : κ → α → Bool) : EntryMap κ α :=
  ⟨m.entries.filter fun e => p e.1 e.2, m.nodup.sublist (filter_sublist.map Prod.fst)⟩

theorem entries_update_of_notMem {m : EntryMap κ α} (h : k ∉ m.entries.map Prod.fst) :
    (m.update k f).entries = m.entries ++ [(k, f none)] := by
  have hgo : ∀ l : List (κ × α), k ∉ l.map Prod.fst → updateEntries k f l = l ++ [(k, f none)] := by
    intro l hl
    induction l with
    | nil => rfl
    | cons p l ih =>
      obtain ⟨k', a⟩ := p
      rw [map_cons, mem_cons, not_or] at hl
      rw [updateEntries, if_neg (Ne.symm hl.1), ih hl.2, cons_append]
  exact hgo m.entries h

theorem get?_of_mem {m : EntryMap κ α} (h : (k, a) ∈ m.entries) : m.get? k = some a := by
  obtain ⟨l₁, l₂, heq⟩ := append_of_mem h
  refine lookup_eq_some_iff.mpr ⟨l₁, l₂, heq, fun p hp => bne_iff_ne.mpr ?_⟩
  have hnodup := m.nodup
  rw [heq, map_append] at hnodup
  rintro rfl
  exact disjoint_of_nodup_append hnodup (mem_map_of_mem hp) mem_cons_self

theorem lookup_updateEntries {k' : κ} {l : List (κ × α)} :
    (updateEntries k f l).lookup k' = if k' = k then some (f (l.lookup k)) else l.lookup k' := by
  induction l with
  | nil =>
    by_cases h : k' = k
    · simp [updateEntries, h]
    · rw [updateEntries, lookup_cons, beq_false_of_ne h, if_neg h]
  | cons p l ih =>
    obtain ⟨k₀, a⟩ := p
    rw [updateEntries]
    by_cases h₀ : k₀ = k
    · subst h₀
      by_cases h : k' = k₀
      · simp [h]
      · rw [if_pos rfl, lookup_cons, if_neg h, lookup_cons, beq_false_of_ne h]
    · rw [if_neg h₀]
      by_cases h : k' = k₀
      · subst h
        simp [h₀]
      · have hk : (k == k₀) = false := beq_false_of_ne (Ne.symm h₀)
        have hk' : (k' == k₀) = false := beq_false_of_ne h
        rw [lookup_cons, lookup_cons, hk, lookup_cons, hk']
        exact ih

theorem get?_update (m : EntryMap κ α) (k k' : κ) (f : Option α → α) :
    (m.update k f).get? k' = if k' = k then some (f (m.get? k)) else m.get? k' :=
  lookup_updateEntries

theorem mem_of_get? {m : EntryMap κ α} (h : m.get? k = some a) : (k, a) ∈ m.entries := by
  obtain ⟨l₁, l₂, hl, -⟩ := lookup_eq_some_iff.mp h
  rw [hl]
  exact mem_append_right _ mem_cons_self

theorem exists_get? {m : EntryMap κ α} (h : k ∈ m.entries.map Prod.fst) :
    ∃ a, m.get? k = some a := by
  cases hget : m.get? k with
  | some a => exact ⟨a, rfl⟩
  | none =>
    obtain ⟨p, hp, rfl⟩ := mem_map.mp h
    simpa using lookup_eq_none_iff.mp hget p hp

theorem forall_mem_updateEntries (h : ∀ p ∈ m, P p.1 p.2) (hk : ∀ o, P k (f o)) :
    ∀ p ∈ updateEntries k f m, P p.1 p.2 := by
  induction m with
  | nil => simpa [updateEntries] using hk none
  | cons q m ih =>
    have ih := ih (forall_mem_cons.mp h).2
    obtain ⟨k', a⟩ := q
    rw [updateEntries]
    split
    · next heq =>
        exact forall_mem_cons.mpr ⟨heq ▸ hk (some a), fun p hp => h p (mem_cons_of_mem _ hp)⟩
    · exact forall_mem_cons.mpr ⟨h _ mem_cons_self, ih⟩

/-- What holds of every entry holds after an update of one of them. -/
theorem forall_mem_update {m : EntryMap κ α} (h : ∀ p ∈ m.entries, P p.1 p.2)
    (hk : ∀ o, P k (f o)) :
    ∀ p ∈ (m.update k f).entries, P p.1 p.2 :=
  forall_mem_updateEntries h hk

end EntryMap

/-! ## Enumerations -/

/-- The order in which the `n`-th map of a run is enumerated. -/
structure Enumeration (α : Type*) where
  order : ℕ → List α → List α
  perm : ∀ n l, (order n l).Perm l

/-- Blocks that differ in the order inside the blocks only. -/
def Arranged {β : Type*} : List (List β) → List (List β) → Prop := List.Forall₂ List.Perm

variable {β : Type*}

theorem Arranged.refl (bs : List (List β)) : Arranged bs bs := forall₂_same.mpr fun b _ => .refl b

/-- A map of a run, and what the run reads from each of its entries. -/
abbrev View (α β : Type*) := List α × (α → β)

/-- What is read when the map is enumerated in the order of insertion. -/
def View.read {α β : Type*} (v : View α β) : List β := v.1.map v.2

namespace Enumeration

variable {α : Type*}

/-- Every map in the order of insertion. -/
def inserted : Enumeration α := ⟨fun _ l => l, fun _ l => List.Perm.refl l⟩

/-- Every map in the reverse order, as one that puts new entries in front gives them. -/
def reversed : Enumeration α := ⟨fun _ l => l.reverse, fun _ l => l.reverse_perm⟩

/-- What a run reads from its maps, the first of which is its `n`-th. -/
def views (e : Enumeration α) : ℕ → List (View α β) → List (List β)
  | _, [] => []
  | n, v :: vs => (e.order n v.1).map v.2 :: e.views (n + 1) vs

variable (e : Enumeration α) (n : ℕ) (vs : List (View α β))

theorem length_views : (e.views n vs).length = vs.length := by
  induction vs generalizing n with
  | nil => rfl
  | cons v vs ih => rw [views, length_cons, ih, length_cons]

theorem views_append (us : List (View α β)) :
    e.views n (vs ++ us) = e.views n vs ++ e.views (n + vs.length) us := by
  induction vs generalizing n with
  | nil => simp [views]
  | cons v vs ih =>
    rw [cons_append, views, views, ih, cons_append, length_cons,
      Nat.add_right_comm, ← Nat.add_assoc]

theorem arranged_views : Arranged (e.views n vs) (vs.map View.read) := by
  induction vs generalizing n with
  | nil => exact .nil
  | cons v vs ih => exact .cons ((e.perm n v.1).map v.2) (ih (n + 1))

/-- One order changed. -/
def set (e : Enumeration α) (n : ℕ) (f : List α → List α) (hf : ∀ l, (f l).Perm l) :
    Enumeration α where
  order m l := if m = n then f l else e.order m l
  perm m l := by
    split
    · exact hf l
    · exact e.perm m l

theorem views_set_of_lt {n m : ℕ} (h : m < n) {f : List α → List α} (hf : ∀ l, (f l).Perm l)
    (vs : List (View α β)) :
    (e.set m f hf).views n vs = e.views n vs := by
  induction vs generalizing n with
  | nil => rfl
  | cons v vs ih =>
    rw [views, views, ih (Nat.lt_succ_of_lt h)]
    simp [set, Nat.ne_of_gt h]

end Enumeration

/-- A permutation of the values is read from a permutation of the entries. -/
theorem exists_perm_map {α β : Type*} {f : α → β} {l : List α} {b : List β}
    (h : b.Perm (l.map f)) : ∃ l' : List α, l'.Perm l ∧ l'.map f = b := by
  have hrel : Forall₂ (fun y x => y = f x) (l.map f) l := by
    rw [forall₂_map_left_iff]
    exact forall₂_same.mpr fun _ _ => rfl
  obtain ⟨l', hb, hperm⟩ := perm_comp_forall₂ h hrel
  refine ⟨l', hperm, ?_⟩
  have hbl : Forall₂ Eq b (l'.map f) := by rwa [forall₂_map_right_iff]
  exact (forall₂_eq_eq_eq ▸ hbl).symm

/-- **Every arrangement is seen in some run.** -/
theorem exists_enumeration_views {α β : Type*} (n : ℕ) (vs : List (View α β))
    {bs : List (List β)} (h : Arranged bs (vs.map View.read)) :
    ∃ e : Enumeration α, e.views n vs = bs := by
  classical
  induction vs generalizing n bs with
  | nil =>
    cases h
    exact ⟨Enumeration.inserted, rfl⟩
  | cons v vs ih =>
    cases h with
    | cons hb hbs =>
      obtain ⟨e, he⟩ := ih (n + 1) hbs
      obtain ⟨l', hperm, hread⟩ := exists_perm_map hb
      have hf : ∀ l, (if l = v.1 then l' else l).Perm l := by
        intro l
        split
        · next hl => exact hl ▸ hperm
        · exact .refl l
      refine ⟨e.set n (fun l => if l = v.1 then l' else l) hf, ?_⟩
      rw [Enumeration.views, Enumeration.views_set_of_lt e (Nat.lt_succ_self n) hf, he]
      simp [Enumeration.set, hread]

end Pruner.Lib
