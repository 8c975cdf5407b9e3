import Pruner.Te.Loops
import Pruner.Te.Schedule

/-!
# Legalizing attach points

A stage is attached to a loop variable of another stage.  If that loop is split or
fused later, the variable is no leaf any more.  `LegalizeInvalidAttach` of
`src/te/schedule/schedule_dataflow_rewrite.cc` moves such attach points: it walks from
every stage along the attach points, follows each stale variable along the relations
of the stage it belongs to, and at the end replaces the variables in all stages.

The two loops of the C++ that need not end take `fuel`: the walk, which follows attach
points until it meets a stage that is not attached, and the passes over the relations,
which go on as long as a pass moves the variable.  Without fuel the result is `none`.

## Main definitions

* `chase`, `legalizeWalk`, `Schedule.legalizeInvalidAttach` — the pass.
* `LegalizesTo` — the pass returns, with any fuel that is large enough.
* `AttachOk` — what the pass needs to be told about a schedule.
* `exists_legalizesTo` — every stale attach point is moved to the loop it became.
-/

namespace Pruner.Te

open List Option Function

variable {sch : Schedule} {v : IterVar} {p s : Stage}

/-- Where a variable is after a relation, and whether it has moved. -/
def chaseStep (p : IterVar × Bool) : Relation → IterVar × Bool
  | .fuse _ inner fused => if p.1 = inner then (fused, true) else p
  | .split parent _ inner _ _ => if p.1 = parent then (inner, true) else p
  | .singleton _ => p

def chasePass (rels : List Relation) (v : IterVar) : IterVar × Bool :=
  rels.foldl chaseStep (v, false)

/-- Passes over the relations until one does not move the variable. -/
def chase (rels : List Relation) : ℕ → IterVar → Option IterVar
  | 0, _ => none
  | fuel + 1, v =>
    let r := chasePass rels v
    if r.2 then chase rels fuel r.1 else some r.1

def parentOf (stages : List Stage) (s : Stage) : Option Stage :=
  s.attachStage.bind fun p => stages.find? fun t => t.originOp.id = p

/-- The walk from a stage along the attach points, filling `replace_map`. -/
def legalizeWalk (stages : List Stage) :
    ℕ → (IterVar → Option IterVar) → Stage → Option (IterVar → Option IterVar)
  | 0, _, _ => none
  | fuel + 1, replaceMap, s =>
    if s.attachType ≠ .kScope then some replaceMap
    else do
      let v ← s.attachIvar
      let parent ← parentOf stages s
      if v ∈ parent.leafIterVars then legalizeWalk stages fuel replaceMap parent
      else
        let v' ← chase parent.relations fuel v
        legalizeWalk stages fuel (update replaceMap v (some v')) parent

/-- Replace the attach variable of a stage. -/
def Stage.remapAttach (replaceMap : IterVar → Option IterVar) (s : Stage) : Stage :=
  if s.attachType = .kScope then
    { s with attachIvar := s.attachIvar.map fun v => (replaceMap v).getD v }
  else s

def Schedule.legalizeInvalidAttach (fuel : ℕ) (sch : Schedule) : Option Schedule := do
  let replaceMap ← sch.stages.foldlM (legalizeWalk sch.stages fuel) fun _ => none
  some { sch with stages := sch.stages.map (Stage.remapAttach replaceMap) }

/-- The pass returns, and this is its result. -/
def LegalizesTo (sch sch' : Schedule) : Prop :=
  ∃ n, ∀ fuel, n ≤ fuel → sch.legalizeInvalidAttach fuel = some sch'

theorem LegalizesTo.length_stages {sch' : Schedule} (h : LegalizesTo sch sch') :
    sch'.stages.length = sch.stages.length := by
  obtain ⟨n, hn⟩ := h
  have hrun := hn n le_rfl
  simp only [Schedule.legalizeInvalidAttach, Lib.do_eq_some, some.injEq] at hrun
  obtain ⟨m, -, rfl⟩ := hrun
  exact length_map ..

/-! ## Passes over the relations -/

theorem chaseStep_fst (p : IterVar × Bool) (r : Relation) : (chaseStep p r).1 = r.advance p.1 := by
  cases r with
  | split parent outer inner factor nparts | fuse outer inner fused =>
    simp only [chaseStep, Relation.advance]
    split <;> rfl
  | singleton iter => rfl

theorem foldl_chaseStep_fst (rels : List Relation) (p : IterVar × Bool) :
    (rels.foldl chaseStep p).1 = follow rels p.1 := by
  induction rels generalizing p with
  | nil => rfl
  | cons r rels ih => rw [foldl_cons, ih, chaseStep_fst, follow_cons]

theorem chaseStep_of_notMem {p : IterVar × Bool} {r : Relation} (h : p.1 ∉ r.uses) :
    chaseStep p r = p := by
  cases r with
  | split parent outer inner factor nparts =>
    have hne : p.1 ≠ parent := by simpa [Relation.uses] using h
    simp [chaseStep, hne]
  | fuse outer inner fused =>
    have hne : p.1 ≠ outer ∧ p.1 ≠ inner := by simpa [Relation.uses] using h
    simp [chaseStep, hne]
  | singleton iter => rfl

variable {rels : List Relation}

/-- A variable that no relation replaces is not moved. -/
theorem chasePass_of_unused (h : ∀ r ∈ rels, v ∉ r.uses) : chasePass rels v = (v, false) := by
  unfold chasePass
  induction rels with
  | nil => rfl
  | cons r rels ih =>
    rw [foldl_cons, chaseStep_of_notMem (h r mem_cons_self)]
    exact ih (forall_mem_cons.mp h).2

/-- Two passes are enough if the variable has come to rest after one. -/
theorem chase_eq_follow (h : ∀ r ∈ rels, follow rels v ∉ r.uses) {fuel : ℕ} (hfuel : 2 ≤ fuel) :
    chase rels fuel v = some (follow rels v) := by
  obtain ⟨fuel, rfl⟩ := Nat.exists_eq_add_of_le' hfuel
  have hfst : (chasePass rels v).1 = follow rels v := foldl_chaseStep_fst rels (v, false)
  have hrest := chasePass_of_unused h
  simp only [chase, hfst]
  by_cases hmoved : (chasePass rels v).2
  · simp [hmoved, hrest]
  · simp [hmoved]

/-! ## The walk -/

/-- What the pass needs: every attached stage has a parent, an attach variable comes to
rest after one pass, leaves have not been replaced, an attach variable belongs to one
parent, and the attach points lead to a root. -/
structure AttachOk (stages : List Stage) : Prop where
  parent : ∀ s ∈ stages, s.attachType = .kScope →
    ∃ v p, s.attachIvar = some v ∧ parentOf stages s = some p
  rest : ∀ s ∈ stages, s.attachType = .kScope → ∀ v p, s.attachIvar = some v →
    parentOf stages s = some p → ∀ r ∈ p.relations, follow p.relations v ∉ r.uses
  leaf : ∀ p ∈ stages, ∀ v ∈ p.leafIterVars, ∀ r ∈ p.relations, v ∉ r.uses
  same : ∀ s ∈ stages, ∀ s' ∈ stages, s.attachType = .kScope → s'.attachType = .kScope →
    s.attachIvar = s'.attachIvar → parentOf stages s = parentOf stages s'
  wf : WellFounded fun p s => s ∈ stages ∧ s.attachType = .kScope ∧ parentOf stages s = some p

variable {stages : List Stage}

theorem parentOf_mem (h : parentOf stages s = some p) : p ∈ stages := by
  obtain ⟨id, -, hfind⟩ := bind_eq_some_iff.mp h
  exact mem_of_find?_eq_some hfind

/-- The attach variable `v` of some stage has become `w`. -/
def MovedTo (stages : List Stage) (v w : IterVar) : Prop :=
  ∃ s ∈ stages, s.attachType = .kScope ∧ s.attachIvar = some v ∧
    ∃ p, parentOf stages s = some p ∧ w = follow p.relations v

/-- The table knows where the attach variable of the stage is, unless it is a leaf. -/
def Covers (stages : List Stage) (m : IterVar → Option IterVar) (s : Stage) : Prop :=
  s.attachType = .kScope → ∀ v p, s.attachIvar = some v → parentOf stages s = some p →
    v ∉ p.leafIterVars → (m v).isSome

/-- What a walk, or several, do to the table. -/
structure Fills (stages : List Stage) (l : List Stage)
    (g : (IterVar → Option IterVar) → IterVar → Option IterVar) : Prop where
  moved : ∀ m, (∀ v w, m v = some w → MovedTo stages v w) →
    ∀ v w, g m v = some w → MovedTo stages v w
  keep : ∀ m v, (m v).isSome → (g m v).isSome
  covers : ∀ m, ∀ s ∈ l, Covers stages (g m) s

variable {l₁ l₂ : List Stage}

theorem Fills.trans {g₁ g₂ : (IterVar → Option IterVar) → IterVar → Option IterVar}
    (h₁ : Fills stages l₁ g₁) (h₂ : Fills stages l₂ g₂) :
    Fills stages (l₁ ++ l₂) (g₂ ∘ g₁) where
  moved m hm := h₂.moved _ (h₁.moved m hm)
  keep m v hv := h₂.keep _ v (h₁.keep m v hv)
  covers m s hs := by
    rcases mem_append.mp hs with hs | hs
    · intro hk v p hv hp hleaf
      exact h₂.keep _ v (h₁.covers m s hs hk v p hv hp hleaf)
    · exact h₂.covers _ s hs

theorem Fills.subset {g : (IterVar → Option IterVar) → IterVar → Option IterVar}
    (h : Fills stages l₂ g) (hsub : l₁ ⊆ l₂) : Fills stages l₁ g :=
  ⟨h.moved, h.keep, fun m s hs => h.covers m s (hsub hs)⟩

theorem fills_update (hs : s ∈ stages) (hk : s.attachType = .kScope) (hv : s.attachIvar = some v)
    (hp : parentOf stages s = some p) :
    Fills stages [s] fun m => update m v (some (follow p.relations v)) where
  moved m hm w w' hw := by
    rcases Lib.update_eq_cases hw with ⟨rfl, hw⟩ | ⟨-, hw⟩
    · exact ⟨s, hs, hk, hv, p, hp, (some.inj hw).symm⟩
    · exact hm w w' hw
  keep m w hw := by
    by_cases hwv : w = v
    · rw [hwv, update_self]
      rfl
    · rwa [update_of_ne hwv]
  covers m s' hs' _ w p' hw _ _ := by
    rw [mem_singleton.mp hs', hv] at hw
    rw [← some.inj hw, update_self]
    rfl

theorem AttachOk.exists_walk (H : AttachOk stages) (hs : s ∈ stages) :
    ∃ n g, (∀ fuel, n ≤ fuel → ∀ m, legalizeWalk stages fuel m s = some (g m)) ∧
      Fills stages [s] g := by
  induction s using H.wf.induction with
  | h s ih =>
    by_cases hk : s.attachType = .kScope
    · obtain ⟨v, p, hv, hp⟩ := H.parent s hs hk
      obtain ⟨n, g, hwalk, hfills⟩ := ih p ⟨hs, hk, hp⟩ (parentOf_mem hp)
      by_cases hleaf : v ∈ p.leafIterVars
      · refine ⟨n + 1, g, ?_, hfills.moved, hfills.keep, ?_⟩
        · intro fuel hfuel m
          obtain ⟨fuel, rfl⟩ := Nat.exists_eq_add_of_le' (Nat.le_of_add_left_le hfuel)
          simpa [legalizeWalk, hk, hv, hp, hleaf] using hwalk fuel (by omega) m
        · intro m s' hs' _ w p' hw hp' hnot
          rw [mem_singleton.mp hs'] at hw hp'
          rw [hv] at hw
          rw [hp] at hp'
          cases hw
          cases hp'
          exact absurd hleaf hnot
      · have hall := (fills_update hs hk hv hp).trans hfills
        refine ⟨max n 2 + 1, _, ?_, hall.subset (subset_append_left _ _)⟩
        intro fuel hfuel m
        obtain ⟨fuel, rfl⟩ := Nat.exists_eq_add_of_le' (Nat.le_of_add_left_le hfuel)
        have hchase := chase_eq_follow (H.rest s hs hk v p hv hp) (show 2 ≤ fuel by omega)
        simpa [legalizeWalk, hk, hv, hp, hleaf, hchase] using hwalk fuel (by omega) _
    · refine ⟨1, id, ?_, ⟨fun m hm => hm, fun m v hv => hv, ?_⟩⟩
      · intro fuel hfuel m
        obtain ⟨fuel, rfl⟩ := Nat.exists_eq_add_of_le' hfuel
        simp [legalizeWalk, hk]
      · intro m s' hs' hk'
        rw [mem_singleton.mp hs'] at hk'
        exact absurd hk' hk

theorem AttachOk.exists_walks (H : AttachOk stages) {l : List Stage} (hl : l ⊆ stages) :
    ∃ n g, (∀ fuel, n ≤ fuel → ∀ m, l.foldlM (legalizeWalk stages fuel) m = some (g m)) ∧
      Fills stages l g := by
  induction l with
  | nil =>
    refine ⟨0, id, fun fuel _ m => rfl, fun m hm => hm, fun m v hv => hv, ?_⟩
    intro m s hs
    exact absurd hs not_mem_nil
  | cons s l ih =>
    obtain ⟨n₁, g₁, hwalk, hfills₁⟩ := H.exists_walk (hl mem_cons_self)
    obtain ⟨n₂, g₂, hwalks, hfills₂⟩ := ih fun x hx => hl (mem_cons_of_mem s hx)
    refine ⟨max n₁ n₂, g₂ ∘ g₁, ?_, hfills₁.trans hfills₂⟩
    intro fuel hfuel m
    rw [foldlM_cons, hwalk fuel (by omega) m]
    exact hwalks fuel (by omega) (g₁ m)

/-- What the filled table says about the attach variable of a stage. -/
theorem AttachOk.getD_eq_follow (H : AttachOk stages) {m : IterVar → Option IterVar}
    (hmoved : ∀ v w, m v = some w → MovedTo stages v w) (hcovers : Covers stages m s)
    (hs : s ∈ stages) (hk : s.attachType = .kScope) (hv : s.attachIvar = some v)
    (hp : parentOf stages s = some p) :
    (m v).getD v = follow p.relations v := by
  cases hm : m v with
  | some w =>
    obtain ⟨s', hs', hk', hv', p', hp', rfl⟩ := hmoved v w hm
    have hsame := H.same s hs s' hs' hk hk' (hv.trans hv'.symm)
    rw [hp, hp'] at hsame
    rw [getD_some, some.inj hsame]
  | none =>
    have hleaf : v ∈ p.leafIterVars := by
      by_contra hnot
      have := hcovers hk v p hv hp hnot
      simp [hm] at this
    rw [getD_none, follow_of_notMem (H.leaf p (parentOf_mem hp) v hleaf)]

/-- **Legalization.**  The pass ends, and every attach variable is replaced by the loop
that its relations lead to. -/
theorem exists_legalizesTo (H : AttachOk sch.stages) :
    ∃ sch', LegalizesTo sch sch' ∧ ∀ (i : ℕ) s, sch.stages[i]? = some s →
      ∃ s', sch'.stages[i]? = some s' ∧ (s.attachType ≠ .kScope → s' = s) ∧
        (s.attachType = .kScope → ∀ v p, s.attachIvar = some v → parentOf sch.stages s = some p →
          s' = { s with attachIvar := some (follow p.relations v) }) := by
  obtain ⟨n, g, hwalks, hfills⟩ := H.exists_walks (Subset.refl _)
  have hmoved := hfills.moved (fun _ => none) fun v w h => absurd h (by simp)
  refine ⟨{ sch with stages := sch.stages.map (Stage.remapAttach (g fun _ => none)) },
    ⟨n, fun fuel hfuel => ?_⟩, fun i s hi => ?_⟩
  · simp [Schedule.legalizeInvalidAttach, hwalks fuel hfuel]
  · have hs := mem_of_getElem? hi
    refine ⟨s.remapAttach (g fun _ => none), by simp [hi], fun hk => ?_, fun hk v p hv hp => ?_⟩
    · simp [Stage.remapAttach, hk]
    · have hget := H.getD_eq_follow hmoved (hfills.covers _ s hs) hs hk hv hp
      simp [Stage.remapAttach, hk, hv, hget]

/-! ## Stages attached to themselves -/

theorem legalizeWalk_self {stages : List Stage} (hk : s.attachType = .kScope)
    (hv : s.attachIvar = some v) (hp : parentOf stages s = some s) (hleaf : v ∈ s.leafIterVars)
    (fuel : ℕ) (m : IterVar → Option IterVar) : legalizeWalk stages fuel m s = none := by
  induction fuel with
  | zero => rfl
  | succ fuel ih => simpa [legalizeWalk, hk, hv, hp, hleaf] using ih

/-- The walk from a stage that is attached to itself does not end. -/
theorem legalizeInvalidAttach_self (hs : s ∈ sch.stages) (hk : s.attachType = .kScope)
    (hv : s.attachIvar = some v) (hp : parentOf sch.stages s = some s) (hleaf : v ∈ s.leafIterVars)
    (fuel : ℕ) :
    sch.legalizeInvalidAttach fuel = none := by
  have hfold : ∀ l : List Stage, s ∈ l → ∀ m, l.foldlM (legalizeWalk sch.stages fuel) m = none := by
    intro l hl m
    obtain ⟨l₁, l₂, rfl⟩ := append_of_mem hl
    rw [foldlM_append]
    cases l₁.foldlM (legalizeWalk sch.stages fuel) m with
    | none => rfl
    | some m' =>
      rw [Lib.some_bind_eq, foldlM_cons, legalizeWalk_self hk hv hp hleaf]
      rfl
  simp [Schedule.legalizeInvalidAttach, hfold sch.stages hs]

end Pruner.Te
