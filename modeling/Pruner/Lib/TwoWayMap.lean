import Mathlib.Data.List.Induction
import Mathlib.Data.List.Nodup
import Mathlib.Data.Set.Function
import Pruner.Lib.PartialRun

/-!
# Two-way maps

A two-way map keeps a relation between sources and targets twice: once as the
target each source points at, and once as the list of the sources that point at
each target.  The two tables are updated by separate code, so their agreement is
an invariant, `TwoWayMap.Exact`, and not a fact about the type.

A table is represented by its lookup function; `none` is an absent entry.  The
operations are the four a client needs: forget a source, point a source at a
target, move targets to other targets, and renumber both sides.

## Main definitions

* `TwoWayMap.Exact` — the two tables are inverse to each other.
* `TwoWayMap.erase`, `TwoWayMap.insert` — forget or redirect one source.
* `TwoWayMap.rekey` — move whole target entries, one pair at a time.
* `TwoWayMap.relabel` — renumber sources and targets along injections.
* `TwoWayMap.exact_rekey_iff` — moving entries keeps the tables inverse exactly
  when no two occupied targets end at the same place.
-/

namespace Pruner.Lib

open List Option Function

universe u v

/-- The target of each source, and the sources of each target. -/
structure TwoWayMap (σ : Type u) (κ : Type v) where
  target : σ → Option κ
  sources : κ → Option (List σ)

namespace TwoWayMap

variable {σ : Type u} {κ : Type v}

/-- The map without entries. -/
def empty : TwoWayMap σ κ := ⟨fun _ => none, fun _ => none⟩

/-- The two tables are inverse to each other: a source points at a target exactly
when the target lists it, it is listed once, and no list is empty. -/
structure Exact (m : TwoWayMap σ κ) : Prop where
  mem_iff : ∀ s k, m.target s = some k ↔ ∃ l, m.sources k = some l ∧ s ∈ l
  nodup : ∀ k l, m.sources k = some l → l.Nodup
  ne_nil : ∀ k, m.sources k ≠ some []

/-- A target some source points at. -/
def Occupied (m : TwoWayMap σ κ) (k : κ) : Prop := ∃ l, m.sources k = some l

theorem exact_empty : (empty : TwoWayMap σ κ).Exact where
  mem_iff := by intro s k; simp [empty]
  nodup := by intro k l h; simp [empty] at h
  ne_nil := by intro k; simp [empty]

variable {s : σ} {k : κ} {l : List σ} {m : TwoWayMap σ κ}

theorem Exact.target_of_mem (H : m.Exact) (hk : m.sources k = some l)
    (hs : s ∈ l) : m.target s = some k :=
  (H.mem_iff s k).mpr ⟨l, hk, hs⟩

theorem Exact.exists_mem (H : m.Exact) (hk : m.sources k = some l) : ∃ s, s ∈ l := by
  cases l with
  | nil => exact absurd hk (H.ne_nil k)
  | cons s l => exact ⟨s, mem_cons_self⟩

theorem Exact.exists_target (H : m.Exact) (hk : m.Occupied k) : ∃ s, m.target s = some k := by
  obtain ⟨l, hl⟩ := hk
  obtain ⟨s, hs⟩ := H.exists_mem hl
  exact ⟨s, H.target_of_mem hl hs⟩

/-- A source determines its target, so the lists of two targets are disjoint. -/
theorem Exact.key_unique (H : m.Exact) {k₁ k₂ : κ} {l₁ l₂ : List σ} (h₁ : m.sources k₁ = some l₁)
    (h₂ : m.sources k₂ = some l₂) (hs₁ : s ∈ l₁) (hs₂ : s ∈ l₂) : k₁ = k₂ := by
  have ht₁ := H.target_of_mem h₁ hs₁
  have ht₂ := H.target_of_mem h₂ hs₂
  exact some.inj (ht₁.symm.trans ht₂)

/-! ## Forgetting and redirecting a source -/

variable [DecidableEq σ]

/-- A list of sources without `s`; the entry goes with its last source. -/
def dropSource (s : σ) (l : List σ) : Option (List σ) :=
  if (l.erase s).isEmpty then none else some (l.erase s)

variable {l' : List σ} {t : σ}

theorem dropSource_eq_some_iff :
    dropSource s l = some l' ↔ l.erase s = l' ∧ l' ≠ [] := by
  rw [dropSource, ite_none_left_eq_some, some.injEq, List.isEmpty_iff]
  constructor
  · rintro ⟨hne, rfl⟩
    exact ⟨rfl, hne⟩
  · rintro ⟨rfl, hne⟩
    exact ⟨hne, rfl⟩

/-- A list that does not have the source stays as it is. -/
theorem Exact.dropSource_of_notMem (H : m.Exact) (hk : m.sources k = some l)
    (hs : s ∉ l) : dropSource s l = some l := by
  rw [dropSource_eq_some_iff]
  refine ⟨erase_of_not_mem hs, ?_⟩
  rintro rfl
  exact H.ne_nil k hk

variable [DecidableEq κ]

/-- Forget a source.  Its target loses it; a source that points nowhere leaves the
map alone. -/
def erase (m : TwoWayMap σ κ) (s : σ) : TwoWayMap σ κ :=
  match m.target s with
  | none => m
  | some k =>
    { target := update m.target s none
      sources := update m.sources k ((m.sources k).bind (dropSource s)) }

/-- Point a source at a target, forgetting where it pointed before. -/
def insert (m : TwoWayMap σ κ) (s : σ) (k : κ) : TwoWayMap σ κ :=
  { target := update (m.erase s).target s (some k)
    sources := update (m.erase s).sources k
      (some (((m.erase s).sources k).getD [] ++ [s])) }

theorem target_erase_self (m : TwoWayMap σ κ) (s : σ) : (m.erase s).target s = none := by
  unfold erase
  split
  · assumption
  · simp

theorem target_erase_of_ne (m : TwoWayMap σ κ) (h : t ≠ s) :
    (m.erase s).target t = m.target t := by
  unfold erase
  split
  · rfl
  · simp [update_of_ne h]

@[simp] theorem target_insert_self (m : TwoWayMap σ κ) (s : σ) (k : κ) :
    (m.insert s k).target s = some k :=
  update_self ..

theorem target_insert_of_ne (m : TwoWayMap σ κ) (h : t ≠ s) (k : κ) :
    (m.insert s k).target t = m.target t :=
  (update_of_ne h ..).trans (target_erase_of_ne m h)

/-- What a target lists after a source is forgotten. -/
theorem Exact.sources_erase (H : m.Exact) (s : σ) (k : κ) :
    (m.erase s).sources k = (m.sources k).bind (dropSource s) := by
  have hkeep : (∀ l, m.sources k = some l → s ∉ l) →
      m.sources k = (m.sources k).bind (dropSource s) := by
    intro hs
    cases hk : m.sources k with
    | none => rfl
    | some l => exact (H.dropSource_of_notMem hk (hs l hk)).symm
  unfold erase
  cases ht : m.target s with
  | none =>
    refine hkeep fun l hk hs => ?_
    simp [H.target_of_mem hk hs] at ht
  | some k₀ =>
    by_cases hkk : k = k₀
    · subst hkk
      exact update_self ..
    · simp only [update_of_ne hkk]
      refine hkeep fun l hk hs => hkk ?_
      have h := H.target_of_mem hk hs
      rw [ht] at h
      exact (some.inj h).symm

/-- The entries after a source is forgotten, read backwards. -/
theorem Exact.sources_erase_eq_some (H : m.Exact) (h : (m.erase s).sources k = some l') :
    ∃ l, m.sources k = some l ∧ l.erase s = l' ∧ l' ≠ [] := by
  rw [H.sources_erase] at h
  obtain ⟨l, hk, hl⟩ := bind_eq_some_iff.mp h
  exact ⟨l, hk, dropSource_eq_some_iff.mp hl⟩

/-- Forgetting a source keeps the tables inverse. -/
theorem exact_erase (H : m.Exact) (s : σ) : (m.erase s).Exact where
  mem_iff := by
    intro t k
    by_cases hts : t = s
    · subst hts
      rw [target_erase_self]
      constructor
      · intro h; simp at h
      · rintro ⟨l', hl', ht⟩
        obtain ⟨l, hk, rfl, -⟩ := H.sources_erase_eq_some hl'
        exact absurd ht (Nodup.not_mem_erase (H.nodup k l hk))
    · rw [target_erase_of_ne m hts, H.mem_iff]
      constructor
      · rintro ⟨l, hk, ht⟩
        have hmem : t ∈ l.erase s := (mem_erase_of_ne hts).mpr ht
        refine ⟨l.erase s, ?_, hmem⟩
        rw [H.sources_erase, hk]
        exact dropSource_eq_some_iff.mpr ⟨rfl, ne_nil_of_mem hmem⟩
      · rintro ⟨l', hl', ht⟩
        obtain ⟨l, hk, rfl, -⟩ := H.sources_erase_eq_some hl'
        exact ⟨l, hk, mem_of_mem_erase ht⟩
  nodup := by
    intro k l' h
    obtain ⟨l, hk, rfl, -⟩ := H.sources_erase_eq_some h
    exact (H.nodup k l hk).erase s
  ne_nil := by
    intro k h
    obtain ⟨l, -, -, hne⟩ := H.sources_erase_eq_some h
    exact hne rfl

/-- A forgotten source is listed nowhere. -/
theorem Exact.notMem_erase (H : m.Exact) (h : (m.erase s).sources k = some l) : s ∉ l := by
  intro hs
  have := (exact_erase H s).target_of_mem h hs
  rw [target_erase_self] at this
  simp at this

/-- Redirecting a source keeps the tables inverse. -/
theorem exact_insert (H : m.Exact) (s : σ) (k : κ) : (m.insert s k).Exact := by
  have He := exact_erase H s
  -- the list at `k` before `s` is appended
  have hold : ∀ t, t ∈ ((m.erase s).sources k).getD [] ↔ (m.erase s).target t = some k := by
    intro t
    rw [He.mem_iff]
    cases hk : (m.erase s).sources k <;> simp
  refine ⟨?_, ?_, ?_⟩
  · intro t k'
    simp only [insert]
    by_cases hts : t = s
    · subst hts
      rw [update_self]
      by_cases hkk : k' = k
      · subst hkk; simp
      · rw [update_of_ne hkk]
        constructor
        · intro h; exact absurd (some.inj h).symm hkk
        · rintro ⟨l, hl, ht⟩
          exact absurd ht (H.notMem_erase hl)
    · rw [update_of_ne hts]
      by_cases hkk : k' = k
      · subst hkk
        rw [← hold t]
        simp [hts]
      · rw [update_of_ne hkk]
        exact He.mem_iff t k'
  · intro k' l hl
    simp only [insert] at hl
    rcases update_eq_cases hl with ⟨rfl, hl⟩ | ⟨-, hl⟩
    · have hs : s ∉ ((m.erase s).sources k').getD [] := by
        rw [hold, target_erase_self]; simp
      have hn : (((m.erase s).sources k').getD []).Nodup := by
        cases hk : (m.erase s).sources k' with
        | none => simp
        | some l₀ => exact He.nodup k' l₀ hk
      rw [← some.inj hl, ← concat_eq_append]
      exact hn.concat hs
    · exact He.nodup k' l hl
  · intro k' h
    simp only [insert] at h
    rcases update_eq_cases h with ⟨-, h⟩ | ⟨-, h⟩
    · simp at h
    · exact He.ne_nil k' h

/-! ## Moving entries to other targets -/

/-- Where the pairs send a target; the ones they do not mention stay. -/
def rename (ps : List (κ × κ)) (k : κ) : κ := (ps.lookup k).getD k

/-- One pair of the move: redirect the sources listed at its first component, take
the entry out, and keep it aside under the second component. -/
def rekeyStep (acc : TwoWayMap σ κ × (κ → Option (List σ))) (p : κ × κ) :
    TwoWayMap σ κ × (κ → Option (List σ)) :=
  match acc.1.sources p.1 with
  | none => acc
  | some l =>
    ({ target := fun s => if s ∈ l then some p.2 else acc.1.target s
       sources := update acc.1.sources p.1 none },
     update acc.2 p.2 (some l))

variable {acc : TwoWayMap σ κ × (κ → Option (List σ))} {p : κ × κ}

/-- Move the entries of the first components to the second components.  Entries are
taken out one pair after the other, and put back at the end, on top of whatever
still stands there. -/
def rekey (m : TwoWayMap σ κ) (ps : List (κ × κ)) : TwoWayMap σ κ :=
  let r := ps.foldl rekeyStep (m, fun _ => none)
  { target := r.1.target
    sources := fun k => (r.2 k).or (r.1.sources k) }

variable {ps : List (κ × κ)}

/-- A key that no pair names keeps its entry. -/
theorem sources_rekey_of_forall_ne (m : TwoWayMap σ κ)
    (h : ∀ p ∈ ps, k ≠ p.1 ∧ k ≠ p.2) : (m.rekey ps).sources k = m.sources k := by
  have hfold : ∀ acc : TwoWayMap σ κ × (κ → Option (List σ)),
      (ps.foldl rekeyStep acc).1.sources k = acc.1.sources k ∧
        (ps.foldl rekeyStep acc).2 k = acc.2 k := by
    induction ps with
    | nil => exact fun _ => ⟨rfl, rfl⟩
    | cons p ps ih =>
      intro acc
      obtain ⟨h₁, h₂⟩ := h p mem_cons_self
      refine (ih (forall_mem_cons.mp h).2 _).imp (·.trans ?_) (·.trans ?_) <;>
        cases hp : acc.1.sources p.1 <;> simp [rekeyStep, hp, h₁, h₂]
  simp [rekey, hfold]

section

omit [DecidableEq σ]

theorem lookup_of_notMem (h : k ∉ ps.map Prod.fst) : ps.lookup k = none := by
  rw [lookup_eq_none_iff]
  intro p hp
  simp only [bne_iff_ne, ne_eq]
  rintro rfl
  exact h (mem_map_of_mem hp)

theorem rename_of_notMem (h : k ∉ ps.map Prod.fst) : rename ps k = k := by
  simp [rename, lookup_of_notMem h]

theorem mem_rename (h : k ∈ ps.map Prod.fst) : (k, rename ps k) ∈ ps := by
  obtain ⟨p, hp, rfl⟩ := mem_map.mp h
  have hsome : (ps.lookup p.1).isSome := lookup_isSome_iff.mpr ⟨p, hp, by simp⟩
  obtain ⟨v, hv⟩ := isSome_iff_exists.mp hsome
  obtain ⟨l₁, l₂, hps, -⟩ := lookup_eq_some_iff.mp hv
  have hr : rename ps p.1 = v := by simp [rename, hv]
  rw [hr, hps]
  simp

theorem rename_append_of_ne (h : k ≠ p.1) : rename (ps ++ [p]) k = rename ps k := by
  have hp : lookup k [p] = none := lookup_of_notMem (by simpa using h)
  simp [rename, lookup_append, hp]

theorem rename_append_self (h : p.1 ∉ ps.map Prod.fst) : rename (ps ++ [p]) p.1 = p.2 := by
  have hself : lookup p.1 [p] = some p.2 := lookup_cons_self
  simp [rename, lookup_append, lookup_of_notMem h, hself]

end

/-- What holds after the pairs `ps` of a move: the sources are redirected, the first
components are vacant, and what is kept aside are old entries of first components. -/
structure RekeyInv (m : TwoWayMap σ κ) (ps : List (κ × κ))
    (acc : TwoWayMap σ κ × (κ → Option (List σ))) : Prop where
  target_eq : ∀ s, acc.1.target s = (m.target s).map (rename ps)
  sources_eq : ∀ k, acc.1.sources k = if k ∈ ps.map Prod.fst then none else m.sources k
  aside_old : ∀ k l, acc.2 k = some l → ∃ f, (f, k) ∈ ps ∧ m.sources f = some l
  old_aside : ∀ f k, (f, k) ∈ ps → m.Occupied f → ∃ l, acc.2 k = some l

omit [DecidableEq σ] in
theorem rekeyInv_nil (m : TwoWayMap σ κ) : RekeyInv m [] (m, fun _ => none) where
  target_eq := by intro s; cases m.target s <;> simp [rename]
  sources_eq := by simp
  aside_old := by simp
  old_aside := by simp

/-- One pair keeps the description of a move. -/
theorem rekeyInv_append (H : m.Exact) (h : RekeyInv m ps acc)
    (hp : p.1 ∉ ps.map Prod.fst) : RekeyInv m (ps ++ [p]) (rekeyStep acc p) := by
  have hsrc : acc.1.sources p.1 = m.sources p.1 := by rw [h.sources_eq, if_neg hp]
  -- a source that does not point at the moved target is renamed as before
  have hkeep : ∀ s, m.target s ≠ some p.1 →
      acc.1.target s = (m.target s).map (rename (ps ++ [p])) := by
    intro s hs
    rw [h.target_eq]
    cases ht : m.target s with
    | none => rfl
    | some k =>
      have hk : k ≠ p.1 := by rintro rfl; exact hs ht
      simp [rename_append_of_ne hk]
  have hfst : ∀ k, k ≠ p.1 → (k ∈ (ps ++ [p]).map Prod.fst ↔ k ∈ ps.map Prod.fst) := by
    intro k hk
    simp [hk]
  have haside : ∀ k l, acc.2 k = some l → ∃ f, (f, k) ∈ ps ++ [p] ∧ m.sources f = some l := by
    intro k l hk
    obtain ⟨f, hf, hfl⟩ := h.aside_old k l hk
    exact ⟨f, mem_append_left _ hf, hfl⟩
  cases hl : m.sources p.1 with
  | none =>
    simp only [rekeyStep, hsrc.trans hl]
    have hvac : ∀ s, m.target s ≠ some p.1 := by
      intro s hs
      obtain ⟨l, hl', -⟩ := (H.mem_iff s p.1).mp hs
      simp [hl] at hl'
    refine ⟨fun s => hkeep s (hvac s), ?_, haside, ?_⟩
    · intro k
      rw [h.sources_eq]
      by_cases hk : k = p.1
      · subst hk; simp [hl]
      · rw [if_congr (hfst k hk) rfl rfl]
    · intro f k hf hocc
      rcases mem_append.mp hf with hf | hf
      · exact h.old_aside f k hf hocc
      · rw [← mem_singleton.mp hf] at hl
        obtain ⟨l, hfl⟩ := hocc
        simp [hl] at hfl
  | some l =>
    simp only [rekeyStep, hsrc.trans hl]
    refine ⟨?_, ?_, ?_, ?_⟩
    · intro s
      by_cases hs : s ∈ l
      · simp [hs, H.target_of_mem hl hs, rename_append_self hp]
      · have hs' : m.target s ≠ some p.1 := by
          intro ht
          obtain ⟨l', hl', hsl⟩ := (H.mem_iff s p.1).mp ht
          rw [hl] at hl'
          exact hs (some.inj hl' ▸ hsl)
        simp only [hs, if_false]
        exact hkeep s hs'
    · intro k
      by_cases hk : k = p.1
      · subst hk; simp
      · dsimp only
        rw [update_of_ne hk, h.sources_eq, if_congr (hfst k hk) rfl rfl]
    · intro k l' hk
      rcases update_eq_cases hk with ⟨rfl, ⟨⟩⟩ | ⟨-, hk⟩
      · exact ⟨p.1, by simp, hl⟩
      · exact haside k l' hk
    · intro f k hf hocc
      by_cases hkp : k = p.2
      · subst hkp; exact ⟨l, update_self ..⟩
      · rcases mem_append.mp hf with hf | hf
        · obtain ⟨l', hl'⟩ := h.old_aside f k hf hocc
          exact ⟨l', (update_of_ne hkp ..).trans hl'⟩
        · exact absurd (congrArg Prod.snd (mem_singleton.mp hf)) hkp

theorem rekeyInv_foldl (H : m.Exact) (ps : List (κ × κ))
    (hps : (ps.map Prod.fst).Nodup) : RekeyInv m ps (ps.foldl rekeyStep (m, fun _ => none)) := by
  induction ps using reverseRecOn with
  | nil => exact rekeyInv_nil m
  | append_singleton ps p ih =>
    rw [map_append, nodup_append] at hps
    obtain ⟨hnd, -, hdisj⟩ := hps
    rw [foldl_append]
    refine rekeyInv_append H (ih hnd) fun hmem => ?_
    exact hdisj _ hmem p.1 (by simp) rfl

section

variable (H : m.Exact) (hps : (ps.map Prod.fst).Nodup)
include H hps

/-- Every source follows its target. -/
theorem target_rekey (s : σ) : (m.rekey ps).target s = (m.target s).map (rename ps) :=
  (rekeyInv_foldl H ps hps).target_eq s

/-- Every entry after a move is an entry from before it, at its new place. -/
theorem sources_rekey_eq_some (h : (m.rekey ps).sources k = some l) :
    ∃ f, m.sources f = some l ∧ rename ps f = k := by
  have I := rekeyInv_foldl H ps hps
  rcases or_eq_some_iff.mp h with h | ⟨-, h⟩
  · obtain ⟨f, hf, hfl⟩ := I.aside_old k l h
    have hmem := mem_rename (mem_map_of_mem hf)
    have hinj := inj_on_of_nodup_map hps hmem hf rfl
    exact ⟨f, hfl, congrArg Prod.snd hinj⟩
  · rw [I.sources_eq] at h
    split_ifs at h with hk
    exact ⟨k, h, rename_of_notMem hk⟩

/-- The new place of an occupied target is occupied. -/
theorem occupied_rekey {f : κ} (h : m.Occupied f) : (m.rekey ps).Occupied (rename ps f) := by
  have I := rekeyInv_foldl H ps hps
  by_cases hf : f ∈ ps.map Prod.fst
  · obtain ⟨l, hl⟩ := I.old_aside f _ (mem_rename hf) h
    exact ⟨l, by simp [rekey, hl]⟩
  · rw [rename_of_notMem hf]
    obtain ⟨l, hl⟩ := h
    have hstay : (ps.foldl rekeyStep (m, fun _ => none)).1.sources f = some l := by
      rw [I.sources_eq, if_neg hf, hl]
    cases ha : (ps.foldl rekeyStep (m, fun _ => none)).2 f with
    | none => exact ⟨l, by simp [rekey, ha, hstay]⟩
    | some l' => exact ⟨l', by simp [rekey, ha]⟩

/-- **Moving entries keeps the tables inverse exactly when no two occupied targets
end at the same place.** -/
theorem exact_rekey_iff : (m.rekey ps).Exact ↔ Set.InjOn (rename ps) {k | m.Occupied k} := by
  constructor
  · intro H' f₁ ⟨l₁, h₁⟩ f₂ ⟨l₂, h₂⟩ heq
    -- one list survives at the common place, and it names the sources of both
    obtain ⟨l, hl⟩ := occupied_rekey H hps ⟨l₁, h₁⟩
    obtain ⟨f, hf, -⟩ := sources_rekey_eq_some H hps hl
    have hkey : ∀ f' l', m.sources f' = some l' → rename ps f' = rename ps f₁ → f' = f := by
      intro f' l' h' hr
      obtain ⟨s, hs⟩ := H.exists_mem h'
      have ht : (m.rekey ps).target s = some (rename ps f₁) := by
        rw [target_rekey H hps, H.target_of_mem h' hs, map_some, hr]
      obtain ⟨l'', hl'', hsl⟩ := (H'.mem_iff s _).mp ht
      rw [hl] at hl''
      exact H.key_unique h' hf hs (some.inj hl'' ▸ hsl)
    exact (hkey f₁ l₁ h₁ rfl).trans (hkey f₂ l₂ h₂ heq.symm).symm
  · intro hinj
    refine ⟨?_, ?_, ?_⟩
    · intro s k
      rw [target_rekey H hps, map_eq_some_iff]
      constructor
      · rintro ⟨f, hf, rfl⟩
        obtain ⟨l, hl, hs⟩ := (H.mem_iff s f).mp hf
        obtain ⟨l', hl'⟩ := occupied_rekey H hps ⟨l, hl⟩
        obtain ⟨f', hf', hr⟩ := sources_rekey_eq_some H hps hl'
        have hff : f' = f := hinj ⟨l', hf'⟩ ⟨l, hl⟩ hr
        subst hff
        rw [hl] at hf'
        exact ⟨l', hl', some.inj hf' ▸ hs⟩
      · rintro ⟨l, hl, hs⟩
        obtain ⟨f, hf, hr⟩ := sources_rekey_eq_some H hps hl
        exact ⟨f, H.target_of_mem hf hs, hr⟩
    · intro k l hl
      obtain ⟨f, hf, -⟩ := sources_rekey_eq_some H hps hl
      exact H.nodup f l hf
    · intro k hk
      obtain ⟨f, hf, -⟩ := sources_rekey_eq_some H hps hk
      exact H.ne_nil f hf

end

/-! ## Renumbering -/

omit [DecidableEq σ] [DecidableEq κ] in
/-- Rename sources by `f` and targets by `g`, given partial inverses of both. -/
def relabel (f : σ → σ) (f' : σ → Option σ) (g : κ → κ) (g' : κ → Option κ)
    (m : TwoWayMap σ κ) : TwoWayMap σ κ :=
  { target := fun s => (f' s).bind fun s₀ => (m.target s₀).map g
    sources := fun k => (g' k).bind fun k₀ => (m.sources k₀).map (map f) }

omit [DecidableEq σ] [DecidableEq κ]

variable {f : σ → σ} {f' : σ → Option σ} {g : κ → κ} {g' : κ → Option κ} (hf : IsPartialInv f f')
  (hg : IsPartialInv g g')

include hf in
theorem target_relabel_eq_some : (m.relabel f f' g g').target s = some k ↔
      ∃ s₀ k₀, f s₀ = s ∧ g k₀ = k ∧ m.target s₀ = some k₀ := by
  simp only [relabel, bind_eq_some_iff, map_eq_some_iff]
  constructor
  · rintro ⟨s₀, hs₀, k₀, hk₀, rfl⟩
    exact ⟨s₀, k₀, (hf s₀ s).mp hs₀, rfl, hk₀⟩
  · rintro ⟨s₀, k₀, hs₀, rfl, hk₀⟩
    exact ⟨s₀, (hf s₀ s).mpr hs₀, k₀, hk₀, rfl⟩

include hg in
theorem sources_relabel_eq_some : (m.relabel f f' g g').sources k = some l ↔
      ∃ k₀ l₀, g k₀ = k ∧ l₀.map f = l ∧ m.sources k₀ = some l₀ := by
  simp only [relabel, bind_eq_some_iff, map_eq_some_iff]
  constructor
  · rintro ⟨k₀, hk₀, l₀, hl₀, rfl⟩
    exact ⟨k₀, l₀, (hg k₀ k).mp hk₀, rfl, hl₀⟩
  · rintro ⟨k₀, l₀, hk₀, rfl, hl₀⟩
    exact ⟨k₀, (hg k₀ k).mpr hk₀, l₀, hl₀, rfl⟩

include hf hg in
/-- Renumbering along injections keeps the tables inverse. -/
theorem exact_relabel (H : m.Exact) : (m.relabel f f' g g').Exact := by
  have hfi := IsPartialInv.injective hf
  refine ⟨?_, ?_, ?_⟩
  · intro s k
    rw [target_relabel_eq_some hf]
    constructor
    · rintro ⟨s₀, k₀, rfl, rfl, h⟩
      obtain ⟨l, hl, hs⟩ := (H.mem_iff s₀ k₀).mp h
      exact ⟨l.map f, (sources_relabel_eq_some hg).mpr ⟨k₀, l, rfl, rfl, hl⟩,
        mem_map_of_mem hs⟩
    · rintro ⟨l, hl, hs⟩
      obtain ⟨k₀, l₀, rfl, rfl, hl₀⟩ := (sources_relabel_eq_some hg).mp hl
      obtain ⟨s₀, hs₀, rfl⟩ := mem_map.mp hs
      exact ⟨s₀, k₀, rfl, rfl, H.target_of_mem hl₀ hs₀⟩
  · intro k l hl
    obtain ⟨k₀, l₀, -, rfl, hl₀⟩ := (sources_relabel_eq_some hg).mp hl
    exact (H.nodup k₀ l₀ hl₀).map hfi
  · intro k hk
    obtain ⟨k₀, l₀, -, hnil, hl₀⟩ := (sources_relabel_eq_some hg).mp hk
    rw [map_eq_nil_iff] at hnil
    exact H.ne_nil k₀ (hnil ▸ hl₀)

end TwoWayMap

end Pruner.Lib
