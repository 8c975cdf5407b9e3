import Pruner.Lib.PartialRun
import Pruner.Te.Stage

/-!
# The loop nest of a stage

A split and a fuse replace neighbouring leaves by new variables and record a relation
between them.  Both are instances of one operation, `Stage.push`, and the invariant of
a loop nest is followed through that operation once.

Following a variable from relation to relation leads to the loop that stands for it
now: a split variable is followed to its inner part, and the inner operand of a fuse
to the fused loop.  This is what the legalization of attach points does.

## Main definitions

* `Relation.uses`, `Relation.makes` — the variables a relation replaces, and the new ones.
* `Stage.LoopsOk` — the invariant of a loop nest.
* `Stage.LoopsOk.push` — it is kept by every loop transformation.
* `Relation.advance`, `follow` — following a variable along the relations.
* `Stage.Edit` — what a loop transformation changes, and what it keeps.
-/

namespace Pruner.Te

open List

variable {r : Relation} {v : IterVar} {s s' : Stage} {l₁ l₂ : List IterVar}

/-- The variables a relation replaces. -/
def Relation.uses : Relation → List IterVar
  | .split parent _ _ _ _ => [parent]
  | .fuse outer inner _ => [outer, inner]
  | .singleton _ => []

/-- The variables a relation introduces, from the outermost to the innermost. -/
def Relation.makes : Relation → List IterVar
  | .split _ outer inner _ _ => [outer, inner]
  | .fuse _ _ fused => [fused]
  | .singleton iter => [iter]

/-- One step from a variable to the loop that stands for it after a relation. -/
def Relation.advance (v : IterVar) : Relation → IterVar
  | .split parent _ inner _ _ => if v = parent then inner else v
  | .fuse _ inner fused => if v = inner then fused else v
  | .singleton _ => v

/-- Follow a variable along relations. -/
def follow (rels : List Relation) (v : IterVar) : IterVar := rels.foldl Relation.advance v

@[simp] theorem follow_nil (v : IterVar) : follow [] v = v := rfl

@[simp] theorem follow_cons (r : Relation) (rels : List Relation) (v : IterVar) :
    follow (r :: rels) v = follow rels (r.advance v) := rfl

theorem follow_append (rels rels' : List Relation) (v : IterVar) :
    follow (rels ++ rels') v = follow rels' (follow rels v) := by
  simp [follow, foldl_append]

theorem Relation.advance_of_notMem (h : v ∉ r.uses) : r.advance v = v := by
  cases r with
  | split parent outer inner factor nparts =>
    have : v ≠ parent := by simpa [uses] using h
    simp [advance, this]
  | fuse outer inner fused =>
    have : v ≠ outer ∧ v ≠ inner := by simpa [uses] using h
    simp [advance, this]
  | singleton iter => rfl

theorem follow_of_notMem {rels : List Relation}
    (h : ∀ r ∈ rels, v ∉ r.uses) : follow rels v = v := by
  induction rels with
  | nil => rfl
  | cons r rels ih =>
    rw [follow_cons, Relation.advance_of_notMem (h r mem_cons_self)]
    exact ih (forall_mem_cons.mp h).2

namespace Stage

/-- Record a relation and replace the leaves. -/
def push (s : Stage) (r : Relation) (leaf : List IterVar) : Stage :=
  { s with
    relations := s.relations ++ [r]
    allIterVars := s.allIterVars ++ r.makes
    leafIterVars := leaf }

/-- The stage without its loop nest. -/
def header (s : Stage) : Stage := { s with allIterVars := [], leafIterVars := [], relations := [] }

theorem op_eq_of_header (h : s'.header = s.header) : s'.op = s.op := by
  have := congrArg Stage.op h
  exact this

theorem originOp_eq_of_header (h : s'.header = s.header) : s'.originOp = s.originOp := by
  have := congrArg Stage.originOp h
  exact this

theorem attach_eq_of_header (h : s'.header = s.header) :
    s'.attachType = s.attachType ∧ s'.attachIvar = s.attachIvar ∧
      s'.attachStage = s.attachStage := by
  have h₁ := congrArg Stage.attachType h
  have h₂ := congrArg Stage.attachIvar h
  have h₃ := congrArg Stage.attachStage h
  exact ⟨h₁, h₂, h₃⟩

/-- The invariant of a loop nest.  New variables are numbered by the variables that
exist, so they are new; a loop that a relation has replaced is no leaf. -/
structure LoopsOk (s : Stage) : Prop where
  leaf_all : ∀ v ∈ s.leafIterVars, v ∈ s.allIterVars
  nodup : s.leafIterVars.Nodup
  made_lt : ∀ v ∈ s.allIterVars, ∀ k, v.ref = .made s.op.id k → k < s.allIterVars.length
  leaf_type : ∀ v ∈ s.leafIterVars, v.iterType = .kDataPar ∨ v.iterType = .kCommReduce
  uses_all : ∀ r ∈ s.relations, ∀ v ∈ r.uses, v ∈ s.allIterVars
  leaf_unused : ∀ r ∈ s.relations, ∀ v ∈ r.uses, v ∉ s.leafIterVars

/-- New variables are numbered from the number of existing ones on. -/
def Fresh (s : Stage) (vs : List IterVar) : Prop :=
  ∀ (i : ℕ) (v : IterVar), vs[i]? = some v → v.ref = .made s.op.id (s.allIterVars.length + i)

variable {vs : List IterVar}

theorem Fresh.notMem (hf : s.Fresh vs) (H : s.LoopsOk) (hv : v ∈ vs) : v ∉ s.allIterVars := by
  intro hall
  obtain ⟨i, hi⟩ := getElem?_of_mem hv
  have := H.made_lt v hall _ (hf i v hi)
  omega

theorem Fresh.nodup (hf : s.Fresh vs) : vs.Nodup := by
  rw [nodup_iff_injective_get]
  intro a b hab
  have ha := hf a (vs.get a) (by simp)
  have hb := hf b (vs.get b) (by simp)
  rw [hab, hb] at ha
  injection ha with _ h
  exact Fin.ext (by omega)

theorem LoopsOk.splittable (H : s.LoopsOk) (hv : v ∈ s.leafIterVars) : Splittable v.iterType := by
  rcases H.leaf_type v hv with h | h
  · exact .inl h
  · exact .inr (.inl h)

/-- **Every loop transformation keeps the invariant.** -/
theorem LoopsOk.push (H : s.LoopsOk) (hleaf : s.leafIterVars = l₁ ++ r.uses ++ l₂)
    (hfresh : s.Fresh r.makes)
    (htype : ∀ v ∈ r.makes, v.iterType = .kDataPar ∨ v.iterType = .kCommReduce) :
    (s.push r (l₁ ++ r.makes ++ l₂)).LoopsOk := by
  have hnew : ∀ v ∈ r.makes, v ∉ s.allIterVars := fun v hv => hfresh.notMem H hv
  have huse : ∀ v ∈ r.uses, v ∈ s.allIterVars := fun v hv =>
    H.leaf_all v (by rw [hleaf]; simp [hv])
  have hmem : ∀ v, v ∈ l₁ ++ r.makes ++ l₂ → v ∈ r.makes ∨ v ∈ s.leafIterVars := by
    intro v hv
    simp only [mem_append, hleaf] at hv ⊢
    tauto
  have hnd := H.nodup
  rw [hleaf, append_assoc, nodup_append, nodup_append] at hnd
  obtain ⟨-, ⟨-, -, hdu⟩, hd⟩ := hnd
  refine ⟨?_, ?_, ?_, ?_, ?_, ?_⟩
  · intro v hv
    rcases hmem v hv with h | h
    · exact mem_append_right _ h
    · exact mem_append_left _ (H.leaf_all v h)
  · have hout : ∀ v ∈ l₁ ++ l₂, v ∈ s.allIterVars := by
      intro v hv
      refine H.leaf_all v ?_
      simp only [mem_append, hleaf] at hv ⊢
      tauto
    exact Lib.nodup_replace (hleaf ▸ H.nodup) hfresh.nodup fun a ha => not_or.mp fun h =>
      hnew a ha (hout a (mem_append.mpr h))
  · intro v hv k hk
    simp only [Stage.push, length_append] at hv hk ⊢
    rcases mem_append.mp hv with hv | hv
    · have := H.made_lt v hv k hk
      omega
    · obtain ⟨i, hi⟩ := getElem?_of_mem hv
      have href := hfresh i v hi
      rw [hk] at href
      injection href with _ hki
      have hlt := Lib.lt_of_getElem? hi
      omega
  · intro v hv
    rcases hmem v hv with h | h
    · exact htype v h
    · exact H.leaf_type v h
  · refine forall_mem_append.mpr ⟨fun r' hr' v hv => mem_append_left _ (H.uses_all r' hr' v hv),
      forall_mem_singleton.mpr fun v hv => mem_append_left _ (huse v hv)⟩
  · refine forall_mem_append.mpr ⟨fun r' hr' v hv hvl => ?_,
      forall_mem_singleton.mpr fun v hv hvl => ?_⟩
    · rcases hmem v hvl with h | h
      · exact hnew v h (H.uses_all r' hr' v hv)
      · exact H.leaf_unused r' hr' v hv h
    · rw [append_assoc] at hvl
      rcases mem_append.mp hvl with h | h
      · exact hd v h v (mem_append_left _ hv) rfl
      · rcases mem_append.mp h with h | h
        · exact hnew v h (huse v hv)
        · exact hdu v hv v h rfl

/-- An edit of the loop nest: `rels` replace the neighbouring leaves `olds` by `news`, and
nothing else changes.  Following the relations leads from the innermost old loop to the
innermost new one. -/
structure Edit (s s' : Stage) (rels : List Relation) (l₁ olds l₂ news : List IterVar) : Prop where
  ok : s'.LoopsOk
  header : s'.header = s.header
  relations : s'.relations = s.relations ++ rels
  all : ∃ vs, s'.allIterVars = s.allIterVars ++ vs ∧ ∀ v ∈ vs, ∃ k, v.ref = .made s.op.id k
  leaf : s'.leafIterVars = l₁ ++ news ++ l₂
  keep : ∀ w ∈ l₁ ++ l₂, follow rels w = w
  inner : olds.getLast?.map (follow rels) = news.getLast?

theorem LoopsOk.edit_refl (H : s.LoopsOk) {vs : List IterVar}
    (hleaf : s.leafIterVars = l₁ ++ vs ++ l₂) : Edit s s [] l₁ vs l₂ vs where
  ok := H
  header := rfl
  relations := by simp
  all := ⟨[], by simp, by simp⟩
  leaf := hleaf
  keep w _ := rfl
  inner := by simp [funext follow_nil]

theorem Edit.trans {s₁ s₂ : Stage} {R₁ R₂ : List Relation}
    {k₁ a k₂ b m₁ c m₂ d olds news : List IterVar} (h₁ : Edit s s₁ R₁ k₁ a k₂ b)
    (h₂ : Edit s₁ s₂ R₂ m₁ c m₂ d) (hleaf : m₁ ++ d ++ m₂ = l₁ ++ news ++ l₂)
    (hk : ∀ w ∈ l₁ ++ l₂, w ∈ k₁ ++ k₂) (hm : ∀ w ∈ l₁ ++ l₂, w ∈ m₁ ++ m₂)
    (hinner : olds.getLast?.map (fun v => follow R₂ (follow R₁ v)) = news.getLast?) :
    Edit s s₂ (R₁ ++ R₂) l₁ olds l₂ news where
  ok := h₂.ok
  header := h₂.header.trans h₁.header
  relations := by rw [h₂.relations, h₁.relations, append_assoc]
  all := by
    obtain ⟨vs₁, hall₁, hnew₁⟩ := h₁.all
    obtain ⟨vs₂, hall₂, hnew₂⟩ := h₂.all
    rw [op_eq_of_header h₁.header] at hnew₂
    exact ⟨vs₁ ++ vs₂, by rw [hall₂, hall₁, append_assoc], forall_mem_append.mpr ⟨hnew₁, hnew₂⟩⟩
  leaf := h₂.leaf.trans hleaf
  keep := by
    intro w hw
    rw [follow_append, h₁.keep w (hk w hw), h₂.keep w (hm w hw)]
  inner := by
    rw [← hinner, funext (follow_append R₁ R₂)]

/-- Recording a split or a fuse is an edit. -/
theorem LoopsOk.edit_push (H : s.LoopsOk) (hleaf : s.leafIterVars = l₁ ++ r.uses ++ l₂)
    (hfresh : s.Fresh r.makes)
    (htype : ∀ v ∈ r.makes, v.iterType = .kDataPar ∨ v.iterType = .kCommReduce)
    (hinner : r.uses.getLast?.map r.advance = r.makes.getLast?) :
    Edit s (s.push r (l₁ ++ r.makes ++ l₂)) [r] l₁ r.uses l₂ r.makes where
  ok := H.push hleaf hfresh htype
  header := rfl
  relations := rfl
  all := by
    refine ⟨r.makes, rfl, fun v hv => ?_⟩
    obtain ⟨i, hi⟩ := getElem?_of_mem hv
    exact ⟨_, hfresh i v hi⟩
  leaf := rfl
  keep := by
    intro w hw
    refine follow_of_notMem fun r' hr' hmem => ?_
    rw [mem_singleton.mp hr'] at hmem
    have hnd := H.nodup
    rw [hleaf, append_assoc, nodup_append, nodup_append] at hnd
    rcases mem_append.mp hw with hw | hw
    · exact hnd.2.2 w hw w (mem_append_left _ hmem) rfl
    · exact hnd.2.1.2.2 w hmem w hw rfl
  inner := hinner

theorem LoopsOk.splitHelper_spec (H : s.LoopsOk) (hleaf : s.leafIterVars = l₁ ++ v :: l₂)
    (factor nparts : Option ℤ) :
    ∃ s' outer inner, s.splitHelper v factor nparts = some (s', outer, inner) ∧
      Edit s s' [.split v outer inner factor nparts] l₁ [v] l₂ [outer, inner] := by
  have hmem : v ∈ s.leafIterVars := by simp [hleaf]
  have hv : v ∉ l₁ := fun h => disjoint_of_nodup_append (hleaf ▸ H.nodup) h mem_cons_self
  refine ⟨_, _, _, splitHelper_of_leaf hleaf hv (H.splittable hmem) factor nparts, ?_⟩
  have huses : s.leafIterVars = l₁ ++
      (Relation.split v (s.splitOuter v) (s.splitInner v) factor nparts).uses ++ l₂ := by
    simp [Relation.uses, hleaf]
  have hedit := H.edit_push huses
    (by
      intro i w hi
      match i with
      | 0 => cases hi; rfl
      | 1 => cases hi; rfl
      | i + 2 => simp [Relation.makes] at hi)
    (by
      intro w hw
      have : w.iterType = v.iterType := by
        rcases mem_pair.mp hw with rfl | rfl <;> rfl
      rw [this]
      exact H.leaf_type v hmem)
    (by simp [Relation.uses, Relation.makes, Relation.advance])
  rw [append_assoc] at hedit
  exact hedit

variable {a b : IterVar} {α : Type*}

theorem fusedType_cases (ha : a.iterType = .kDataPar ∨ a.iterType = .kCommReduce)
    (hb : b.iterType = .kDataPar ∨ b.iterType = .kCommReduce) :
    fusedType a b = .kDataPar ∨ fusedType a b = .kCommReduce := by
  rw [fusedType]
  split
  · exact hb
  · exact ha

/-- What a fuse of two neighbours does. -/
theorem LoopsOk.fusePair_spec (H : s.LoopsOk) (hleaf : s.leafIterVars = l₁ ++ a :: b :: l₂) :
    ∃ s' fused, s.fusePair a b = some (s', fused) ∧
      Edit s s' [.fuse a b fused] l₁ [a, b] l₂ [fused] := by
  have ha : a ∈ s.leafIterVars := by simp [hleaf]
  have hb : b ∈ s.leafIterVars := by simp [hleaf]
  have hnd : (l₁ ++ [a, b]).Nodup := by
    have := H.nodup
    rw [hleaf] at this
    exact this.sublist (Sublist.append_left (by simp) l₁)
  refine ⟨_, _, fusePair_of_leaf hleaf hnd (H.splittable ha) (H.splittable hb), ?_⟩
  have huses : s.leafIterVars = l₁ ++ (Relation.fuse a b (s.fusedVar a b)).uses ++ l₂ := by
    simp [Relation.uses, hleaf]
  have hedit := H.edit_push huses
    (by
      intro i w hi
      match i with
      | 0 => cases hi; rfl
      | i + 1 => simp [Relation.makes] at hi)
    (by
      intro w hw
      rw [mem_singleton.mp hw]
      exact fusedType_cases (H.leaf_type a ha) (H.leaf_type b hb))
    (by simp [Relation.uses, Relation.makes, Relation.advance])
  rw [append_assoc] at hedit
  exact hedit

/-- Writing values to the places behind `pre`, one after the other. -/
theorem foldl_set_zip_range' (pre new old : List α) (hlen : new.length ≤ old.length) :
    ((List.range' pre.length new.length).zip new).foldl (fun l p => l.set p.1 p.2) (pre ++ old) =
      pre ++ new ++ old.drop new.length := by
  induction new generalizing pre old with
  | nil => simp
  | cons a new ih =>
    cases old with
    | nil => simp at hlen
    | cons b old =>
      have hset : (pre ++ b :: old).set pre.length a = (pre ++ [a]) ++ old := by simp
      have := ih (pre ++ [a]) old (by simpa using hlen)
      simp only [length_append, length_singleton] at this
      simp only [length_cons, range'_succ, zip_cons_cons, foldl_cons, hset, this]
      simp

theorem map_idxOf_self [DecidableEq α] {l : List α} (h : l.Nodup) :
    l.map (l.idxOf ·) = List.range' 0 l.length := by
  refine ext_getElem (by simp) fun i hi _ => ?_
  simp [h.idxOf_getElem]

/-- What a reorder of the outermost leaves does. -/
theorem LoopsOk.reorder_spec (H : s.LoopsOk) {axes dead new : List IterVar}
    (hleaf : s.leafIterVars = axes ++ dead) (hperm : new.Perm axes) :
    s.reorder new = some { s with leafIterVars := new ++ dead } := by
  have hnd : axes.Nodup := (nodup_append.mp (hleaf ▸ H.nodup)).1
  have htypes : ∀ iv ∈ new, Reorderable iv.iterType := by
    intro iv hiv
    have hmem : iv ∈ s.leafIterVars := hleaf ▸ mem_append_left _ (hperm.mem_iff.mp hiv)
    rcases H.leaf_type iv hmem with h | h
    · exact .inl h
    · exact .inr (.inl h)
  have hpos : new.mapM s.findLeafVar = some (new.map (axes.idxOf ·)) := by
    rw [Lib.mapM_eq_some_iff, forall₂_map_right_iff, forall₂_same]
    intro iv hiv
    have hmem : iv ∈ axes := hperm.mem_iff.mp hiv
    simp [findLeafVar, hleaf, hmem, idxOf_append_of_mem hmem]
  have hsort : (new.map (axes.idxOf ·)).insertionSort (· ≤ ·) = range' 0 new.length := by
    have hp := (perm_insertionSort (· ≤ ·) (new.map (axes.idxOf ·))).trans (hperm.map _)
    rw [map_idxOf_self hnd, ← hperm.length_eq] at hp
    exact hp.eq_of_pairwise' (pairwise_insertionSort _ _) (pairwise_le_range' ..)
  have hset := foldl_set_zip_range' [] new s.leafIterVars (by simp [hleaf, hperm.length_eq])
  rw [reorder, if_pos ⟨htypes, hperm.nodup_iff.mpr hnd⟩]
  simp only [hpos, Lib.some_bind_eq, hsort]
  simp only [length_nil, nil_append] at hset
  rw [hset, hleaf, hperm.length_eq, drop_left]

/-- The invariant does not depend on the order of the leaves. -/
theorem LoopsOk.permute (H : s.LoopsOk) {leaf : List IterVar}
    (hperm : leaf.Perm s.leafIterVars) : { s with leafIterVars := leaf }.LoopsOk where
  leaf_all v hv := H.leaf_all v (hperm.mem_iff.mp hv)
  nodup := hperm.nodup_iff.mpr H.nodup
  made_lt := H.made_lt
  leaf_type v hv := H.leaf_type v (hperm.mem_iff.mp hv)
  uses_all := H.uses_all
  leaf_unused r hr v hv hmem := H.leaf_unused r hr v hv (hperm.mem_iff.mp hmem)

/-- The invariant does not depend on where the stage is placed. -/
theorem LoopsOk.attach (H : s.LoopsOk) (t : AttachType) (v : Option IterVar)
    (p : Option ℕ) : { s with attachType := t, attachIvar := v, attachStage := p }.LoopsOk :=
  ⟨H.leaf_all, H.nodup, H.made_lt, H.leaf_type, H.uses_all, H.leaf_unused⟩

theorem LoopsOk.fuseEmpty (H : s.LoopsOk) : s.fuseEmpty.1.LoopsOk := by
  have huses : s.leafIterVars = [] ++ (Relation.singleton s.fuseEmpty.2).uses ++
      s.leafIterVars := rfl
  refine H.push huses ?_ ?_
  · intro i w hi
    match i with
    | 0 => cases hi; rfl
    | i + 1 => simp [Relation.makes] at hi
  · intro w hw
    rw [mem_singleton.mp hw]
    exact .inl rfl

/-- The loop nest of an operation with declared axes. -/
theorem loopsOk_ofOp {op : Operation} (hnd : op.rootIterVars.Nodup)
    (href : ∀ v ∈ op.rootIterVars, ∀ o k, v.ref ≠ .made o k)
    (htype : ∀ v ∈ op.rootIterVars, v.iterType = .kDataPar ∨ v.iterType = .kCommReduce) :
    (Stage.ofOp op).LoopsOk where
  leaf_all := by
    intro v hv
    exact mem_of_mem_filter hv
  nodup := hnd.filter _
  made_lt := by
    intro v hv k hk
    exact absurd hk (href v hv _ _)
  leaf_type := by
    intro v hv
    exact htype v (mem_of_mem_filter hv)
  uses_all := by
    intro r hr
    simp [ofOp] at hr
  leaf_unused := by
    intro r hr
    simp [ofOp] at hr

end Stage

end Pruner.Te
