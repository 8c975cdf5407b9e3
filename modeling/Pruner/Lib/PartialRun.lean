import Mathlib.Data.List.Forall2

/-!
# Runs of partial step functions

A step that may fail is a function `σ → α → Option σ`, and a run is its monadic fold
over a list of inputs.  These are the rules a proof about runs goes through: taking a
run apart, and carrying an invariant along it.

## Main definitions

* `foldlM_cons_eq_some`, `foldlM_append_eq_some` — taking a run apart.
* `foldlM_run`, `foldlM_invariant` — what every step preserves, a run preserves.
* `exists_foldlM`, `exists_foldlM_invariant` — a run whose every step succeeds succeeds.
* `mapM_eq_some_iff`, `mapM_congr` — maps that may fail, element by element.
-/

namespace Pruner.Lib

open List Option

universe u

variable {σ α β : Type u} {ι κ : Type*} {l : List ι} {i : ℕ} {a : ι}

/-- A position that holds something lies in the list. -/
theorem lt_of_getElem? (h : l[i]? = some a) :
    i < l.length :=
  (List.getElem?_eq_some_iff.mp h).1

theorem exists_of_length_eq {l' : List κ}
    (hlen : l.length = l'.length) (h : l[i]? = some a) : ∃ b, l'[i]? = some b :=
  ⟨_, getElem?_eq_getElem (hlen ▸ lt_of_getElem? h)⟩

/-- What a function has somewhere after it has been updated at one place. -/
theorem update_eq_cases {ν : Type*} [DecidableEq κ] {g : κ → ν} {i j : κ} {v w : ν}
    (h : Function.update g i v j = w) : j = i ∧ v = w ∨ j ≠ i ∧ g j = w := by
  rw [Function.update_apply] at h
  split_ifs at h with hj
  · exact .inl ⟨hj, h⟩
  · exact .inr ⟨hj, h⟩

variable {j : ℕ} {a' b : ι}

/-- What stands in a list after one position has been set. -/
theorem getElem?_set_cases (h : (l.set i a)[j]? = some b) :
    i = j ∧ i < l.length ∧ b = a ∨ i ≠ j ∧ l[j]? = some b := by
  rw [getElem?_set] at h
  split_ifs at h with hij hlt
  · exact .inl ⟨hij, hlt, (some.inj h).symm⟩
  · exact .inr ⟨hij, h⟩

theorem set_of_getElem? (h : l[i]? = some a) : l.set i a = l := by
  obtain ⟨hlt, rfl⟩ := List.getElem?_eq_some_iff.mp h
  exact set_getElem_self hlt

/-- What the new element has in common with the old one, all positions have. -/
theorem exists_getElem?_set (f : ι → κ) (hi : l[i]? = some a) (ha : f a' = f a)
    (hj : l[j]? = some b) : ∃ b', (l.set i a')[j]? = some b' ∧ f b' = f b := by
  by_cases hij : i = j
  · subst hij
    cases hi.symm.trans hj
    exact ⟨a', getElem?_set_self (lt_of_getElem? hi), ha⟩
  · exact ⟨b, (getElem?_set_ne hij).trans hj, rfl⟩

/-- Replace a part of a list by new elements. -/
theorem nodup_replace {ι : Type*} {l₁ l₂ old new : List ι} (h : (l₁ ++ old ++ l₂).Nodup)
    (hnew : new.Nodup) (hout : ∀ a ∈ new, a ∉ l₁ ∧ a ∉ l₂) : (l₁ ++ new ++ l₂).Nodup := by
  simp only [nodup_append, mem_append] at h ⊢
  refine ⟨⟨h.1.1, hnew, ?_⟩, h.2.1, ?_⟩
  · rintro a ha _ hb rfl
    exact (hout a hb).1 ha
  · rintro a (ha | ha) _ hb rfl
    · exact h.2.2 a (.inl ha) a hb rfl
    · exact (hout a ha).2 hb

variable {τ υ : Type*} {x : Option ι} {y : ι → Option κ} {z : ι → κ → Option τ} {r : υ}

theorem some_bind_eq {ι κ : Type u} (a : ι) (f : ι → Option κ) : (some a >>= f) = f a := rfl

theorem do_eq_some {ι κ : Type u} {x : Option ι} {f : ι → Option κ} {b : κ} :
    (x >>= f) = some b ↔ ∃ a, x = some a ∧ f a = some b :=
  bind_eq_some_iff

/-- Two steps of a computation that succeeds. -/
theorem bind₂_eq_some {f : ι → κ → Option υ} : (x.bind fun a => (y a).bind (f a)) = some r ↔
      ∃ a, x = some a ∧ ∃ b, y a = some b ∧ f a b = some r := by
  simp [bind_eq_some_iff]

theorem bind₃_eq_some {f : ι → κ → τ → Option υ} :
    (x.bind fun a => (y a).bind fun b => (z a b).bind (f a b)) = some r ↔
      ∃ a, x = some a ∧ ∃ b, y a = some b ∧ ∃ c, z a b = some c ∧ f a b c = some r := by
  simp [bind_eq_some_iff]

variable {a : α} {l : List α} {s' s : σ} {f : σ → α → Option σ}

theorem foldlM_cons_eq_some :
    (a :: l).foldlM f s = some s' ↔ ∃ m, f s a = some m ∧ l.foldlM f m = some s' := by
  rw [foldlM_cons, bind_eq_bind, bind_eq_some_iff]

theorem foldlM_append_eq_some {l₁ l₂ : List α} : (l₁ ++ l₂).foldlM f s = some s' ↔
      ∃ m, l₁.foldlM f s = some m ∧ l₂.foldlM f m = some s' := by
  rw [foldlM_append, bind_eq_bind, bind_eq_some_iff]

theorem foldlM_singleton : [a].foldlM f s = f s a := by
  simp

theorem foldlM_concat_eq_some :
    (l ++ [a]).foldlM f s = some s' ↔ ∃ m, l.foldlM f s = some m ∧ f m a = some s' := by
  simp only [foldlM_append_eq_some, foldlM_singleton]

/-- What every step of a run preserves holds at its end.  The predicate may speak of the inputs
read so far. -/
theorem foldlM_run (P : List α → σ → Prop)
    (hstep : ∀ pre, ∀ a ∈ l, ∀ s s', P pre s → f s a = some s' → P (pre ++ [a]) s') :
    ∀ {p : List α} {s s' : σ}, P p s → l.foldlM f s = some s' → P (p ++ l) s' := by
  induction l with
  | nil =>
    intro pre s s' h hrun
    cases hrun
    rwa [append_nil]
  | cons a l ih =>
    intro pre s s' h hrun
    obtain ⟨m, hm, hrun⟩ := foldlM_cons_eq_some.mp hrun
    have hP := hstep pre a mem_cons_self s m h hm
    rw [append_cons]
    exact ih (fun pre b hb => hstep pre b (mem_cons_of_mem a hb)) hP hrun

theorem foldlM_invariant (P : σ → Prop) (hstep : ∀ a ∈ l, ∀ s s', P s → f s a = some s' → P s')
    {s' : σ} (h : P s) (hrun : l.foldlM f s = some s') : P s' :=
  foldlM_run (fun _ => P) (fun _ => hstep) (p := []) h hrun

/-- A machine that can take every step from a good state takes the whole run.  The
predicate may speak of the inputs read so far. -/
theorem exists_foldlM (P : List α → σ → Prop)
    (hstep : ∀ pre, ∀ a ∈ l, ∀ s, P pre s → ∃ s', f s a = some s' ∧ P (pre ++ [a]) s') :
    ∀ {p : List α} {s : σ}, P p s → ∃ s', l.foldlM f s = some s' ∧ P (p ++ l) s' := by
  induction l with
  | nil =>
    intro pre s h
    exact ⟨s, rfl, by rwa [append_nil]⟩
  | cons a l ih =>
    intro pre s h
    obtain ⟨m, hm, hP⟩ := hstep pre a mem_cons_self s h
    obtain ⟨s', hs', hP'⟩ := ih (fun pre b hb => hstep pre b (mem_cons_of_mem a hb)) hP
    refine ⟨s', foldlM_cons_eq_some.mpr ⟨m, hm, hs'⟩, ?_⟩
    rwa [append_assoc] at hP'

/-- A machine whose every step from a good state succeeds and leads to a good state. -/
theorem exists_foldlM_invariant (P : σ → Prop)
    (hstep : ∀ a ∈ l, ∀ s, P s → ∃ s', f s a = some s' ∧ P s') (h : P s) :
    ∃ s', l.foldlM f s = some s' ∧ P s' :=
  exists_foldlM (fun _ => P) (fun _ => hstep) (p := []) h

/-- A machine whose every step another one can follow. -/
theorem foldlM_simulation {τ : Type u} {g : τ → α → Option τ} (R : σ → τ → Prop)
    (hstep : ∀ a ∈ l, ∀ s t, R s t → ∀ s', f s a = some s' → ∃ t', g t a = some t' ∧ R s' t') :
    ∀ {s s' : σ} {t : τ}, R s t → l.foldlM f s = some s' →
      ∃ t', l.foldlM g t = some t' ∧ R s' t' := by
  induction l with
  | nil =>
    intro s s' t h hrun
    cases hrun
    exact ⟨t, rfl, h⟩
  | cons a l ih =>
    intro s s' t h hrun
    obtain ⟨m, hm, hrun⟩ := foldlM_cons_eq_some.mp hrun
    obtain ⟨t₁, ht₁, h₁⟩ := hstep a mem_cons_self s t h m hm
    obtain ⟨t', ht', h'⟩ := ih (forall_mem_cons.mp hstep).2 h₁ hrun
    exact ⟨t', foldlM_cons_eq_some.mpr ⟨t₁, ht₁, ht'⟩, h'⟩

/-- Two machines that agree on the good states make the same runs from them. -/
theorem foldlM_congr_of_invariant {g : σ → α → Option σ} (P : σ → Prop)
    (heq : ∀ a s, P s → g s a = f s a) (hstep : ∀ a s s', P s → f s a = some s' → P s')
    (l : List α) (hs : P s) : l.foldlM g s = l.foldlM f s := by
  induction l generalizing s with
  | nil => rfl
  | cons a l ih =>
    rw [foldlM_cons, foldlM_cons, heq a s hs]
    cases hfa : f s a with
    | none => rfl
    | some m => exact ih (hstep a s m hs hfa)

/-- A loop over the numbers below a bound, with an invariant that counts the rounds. -/
theorem exists_foldlM_range {σ : Type} {f : σ → ℕ → Option σ} (P : ℕ → σ → Prop) {n : ℕ} {s : σ}
    (hstep : ∀ k < n, ∀ s, P k s → ∃ s', f s k = some s' ∧ P (k + 1) s') (h : P 0 s) :
    ∃ s', (List.range n).foldlM f s = some s' ∧ P n s' := by
  induction n with
  | zero => exact ⟨s, rfl, h⟩
  | succ n ih =>
    obtain ⟨m, hm, hP⟩ := ih fun k hk => hstep k (Nat.lt_succ_of_lt hk)
    obtain ⟨s', hs', hP'⟩ := hstep n (Nat.lt_succ_self n) m hP
    exact ⟨s', by rw [range_succ]; exact foldlM_concat_eq_some.mpr ⟨m, hm, hs'⟩, hP'⟩

variable {f : α → Option β} {r : List β}

/-- A map that succeeds, element by element. -/
theorem mapM_eq_some_iff : l.mapM f = some r ↔ List.Forall₂ (fun a b => f a = some b) l r := by
  induction l generalizing r with
  | nil =>
    rw [forall₂_nil_left_iff]
    exact ⟨fun h => (some.inj h).symm, fun h => h ▸ rfl⟩
  | cons a l ih =>
    rw [mapM_cons, forall₂_cons_left_iff]
    simp only [bind_eq_bind, bind_eq_some_iff, Option.pure_def, some.injEq]
    constructor
    · intro h
      obtain ⟨b, hb, bs, hbs, rfl⟩ := h
      exact ⟨b, bs, hb, ih.mp hbs, rfl⟩
    · intro h
      obtain ⟨b, bs, hb, hbs, rfl⟩ := h
      exact ⟨b, hb, bs, ih.mpr hbs, rfl⟩

theorem exists_mem_of_forall₂ {R : α → β → Prop} (h : List.Forall₂ R l r) (ha : a ∈ l) :
    ∃ b ∈ r, R a b := by
  induction h with
  | nil => cases ha
  | cons hab _ ih =>
    rcases mem_cons.mp ha with rfl | ha
    · exact ⟨_, mem_cons_self, hab⟩
    · obtain ⟨b, hb, hR⟩ := ih ha
      exact ⟨b, mem_cons_of_mem _ hb, hR⟩

theorem exists_mem_of_mapM (h : l.mapM f = some r) (ha : a ∈ l) : ∃ b ∈ r, f a = some b :=
  exists_mem_of_forall₂ (mapM_eq_some_iff.mp h) ha

theorem exists_mem_left_of_mapM (h : l.mapM f = some r) {b : β} (hb : b ∈ r) :
    ∃ a ∈ l, f a = some b :=
  exists_mem_of_forall₂ (mapM_eq_some_iff.mp h).flip hb

/-- A map whose every application succeeds succeeds. -/
theorem exists_mapM (h : ∀ a ∈ l, ∃ b, f a = some b) : ∃ r, l.mapM f = some r := by
  induction l with
  | nil => exact ⟨[], rfl⟩
  | cons a l ih =>
    obtain ⟨b, hb⟩ := h a mem_cons_self
    obtain ⟨r, hr⟩ := ih (forall_mem_cons.mp h).2
    exact ⟨b :: r, mapM_eq_some_iff.mpr (.cons hb (mapM_eq_some_iff.mp hr))⟩

theorem mapM_concat_eq_some : (l ++ [a]).mapM f = some r ↔
      ∃ r₀ b, l.mapM f = some r₀ ∧ f a = some b ∧ r = r₀ ++ [b] := by
  rw [mapM_append]
  simp only [mapM_cons, mapM_nil, bind_eq_bind, Option.pure_def, bind_eq_some_iff, some.injEq]
  constructor
  · rintro ⟨r₀, hr₀, _, ⟨b, hb, _, rfl, rfl⟩, rfl⟩
    exact ⟨r₀, b, hr₀, hb, rfl⟩
  · rintro ⟨r₀, b, hr₀, hb, rfl⟩
    exact ⟨r₀, hr₀, [b], ⟨b, hb, [], rfl, rfl⟩, rfl⟩

theorem mapM_congr {g : α → Option β} (h : ∀ a ∈ l, f a = g a) : l.mapM f = l.mapM g := by
  induction l with
  | nil => rfl
  | cons a l ih =>
    rw [mapM_cons, mapM_cons, h a mem_cons_self, ih (forall_mem_cons.mp h).2]

end Pruner.Lib
