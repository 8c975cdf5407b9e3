import Pruner.AutoScheduler.State
import Pruner.Te.Loops

/-!
# What a loop stands for

A search state and a schedule describe a loop nest in two ways.  The state has a list
of iterators that it slices, and says what an iterator is by its name, its extent and,
for a fused one, the iterators it was made of.  The schedule has loop variables and relations
between them.  Both are descriptions of a `Part`: an axis of the operation, a piece of
a split part, or a fused group of parts.

## Main definitions

* `Part` — an axis, a piece of a split, or a fused group.
* `Realises`, `Denotes` — a loop variable, and an iterator, stands for a part.
* `pieceExtent` — which length of a split a piece gets.
* `splitStage_spec`, `fuse_spec` — the loop variables a split and a fuse make.
* `denotes_splitIterators`, `denotes_fusedIterator` — the iterators they make.
-/

namespace Pruner.AutoScheduler

open Te List Option Relation Te.Stage

/-- What a loop iterates over. -/
inductive Part where
  | root (axis : IterVar)
  | split (whole : Part) (lengths : List ℤ) (innerToOuter : Bool) (level : ℕ)
  | fuse (parts : List Part)

/-- The pieces of a split, from the outermost to the innermost. -/
def Part.pieces (whole : Part) (lengths : List ℤ) (innerToOuter : Bool) : List Part :=
  (range (lengths.length + 1)).map (Part.split whole lengths innerToOuter)

/-! ## Relations between loop variables -/

/-- Splitting off inner loops, from the innermost outwards. -/
inductive SplitInner (rels : List Relation) : IterVar → List ℤ → List IterVar → Prop
  | nil (v : IterVar) : SplitInner rels v [] [v]
  | cons {v outer inner : IterVar} {l : ℤ} {ls : List ℤ} {vs : List IterVar}
      (h : split v outer inner (some l) none ∈ rels)
      (hrest : SplitInner rels outer ls vs) : SplitInner rels v (l :: ls) (inner :: vs)

/-- Splitting off outer loops, from the outermost inwards. -/
inductive SplitOuter (rels : List Relation) : IterVar → List ℤ → List IterVar → Prop
  | nil (v : IterVar) : SplitOuter rels v [] [v]
  | cons {v outer inner : IterVar} {l : ℤ} {ls : List ℤ} {vs : List IterVar}
      (h : split v outer inner none (some l) ∈ rels)
      (hrest : SplitOuter rels inner ls vs) : SplitOuter rels v (l :: ls) (outer :: vs)

/-- `vs` are the loops, from the outermost to the innermost, that `v` is split into. -/
def SplitInto (rels : List Relation) (v : IterVar) (lengths : List ℤ) (innerToOuter : Bool)
    (vs : List IterVar) : Prop :=
  if innerToOuter then SplitInner rels v lengths.reverse vs.reverse
  else SplitOuter rels v lengths vs

/-- Fusing further loops into `v`, from the outermost inwards. -/
inductive FuseOnto (rels : List Relation) : IterVar → List IterVar → IterVar → Prop
  | nil (v : IterVar) : FuseOnto rels v [] v
  | cons {v w z fused : IterVar} {ws : List IterVar} (h : fuse v w z ∈ rels)
      (hrest : FuseOnto rels z ws fused) : FuseOnto rels v (w :: ws) fused

/-- The loop that stands for fused loops. -/
def FuseInto (rels : List Relation) : List IterVar → IterVar → Prop
  | [], fused => singleton fused ∈ rels
  | v :: vs, fused => FuseOnto rels v vs fused

mutual

/-- A loop variable stands for a part. -/
def Realises (rels : List Relation) : Part → IterVar → Prop
  | .root axis, v => v = axis
  | .split whole lengths innerToOuter level, v =>
    ∃ w vs, Realises rels whole w ∧ SplitInto rels w lengths innerToOuter vs ∧ vs[level]? = some v
  | .fuse parts, v => ∃ vs, RealisesAll rels parts vs ∧ FuseInto rels vs v

/-- Loop variables stand for parts. -/
def RealisesAll (rels : List Relation) : List Part → List IterVar → Prop
  | [], vs => vs = []
  | p :: ps, vs => ∃ v vs', vs = v :: vs' ∧ Realises rels p v ∧ RealisesAll rels ps vs'

end

variable {rels : List Relation} {ps : List Part} {vs : List IterVar}

theorem realisesAll_iff : RealisesAll rels ps vs ↔ Forall₂ (Realises rels) ps vs := by
  induction ps generalizing vs with
  | nil => simp [RealisesAll]
  | cons p ps ih =>
    simp only [RealisesAll, ih, forall₂_cons_left_iff]
    exact exists₂_congr fun _ _ => and_rotate

/-! ### More relations -/

variable {v : IterVar} {ls : List ℤ} {io : Bool}

section

variable {rels' : List Relation}

section

variable (hsub : rels ⊆ rels')
include hsub

theorem SplitInner.mono (h : SplitInner rels v ls vs) : SplitInner rels' v ls vs := by
  induction h with
  | nil v => exact .nil v
  | cons h _ ih => exact .cons (hsub h) ih

theorem SplitOuter.mono (h : SplitOuter rels v ls vs) : SplitOuter rels' v ls vs := by
  induction h with
  | nil v => exact .nil v
  | cons h _ ih => exact .cons (hsub h) ih

theorem SplitInto.mono (h : SplitInto rels v ls io vs) : SplitInto rels' v ls io vs := by
  cases io with
  | false => exact SplitOuter.mono hsub h
  | true => exact SplitInner.mono hsub h

theorem FuseOnto.mono {w : IterVar} (h : FuseOnto rels v vs w) : FuseOnto rels' v vs w := by
  induction h with
  | nil v => exact .nil v
  | cons h _ ih => exact .cons (hsub h) ih

theorem FuseInto.mono (h : FuseInto rels vs v) : FuseInto rels' vs v := by
  cases vs with
  | nil => exact hsub h
  | cons w vs => exact FuseOnto.mono hsub h

end

mutual

/-- A loop keeps what it stands for when relations are added. -/
theorem Realises.mono (hsub : rels ⊆ rels') :
    ∀ {p : Part} {v : IterVar}, Realises rels p v → Realises rels' p v
  | .root _, _, h => h
  | .split _ _ _ _, _, h => by
    obtain ⟨w, vs, hw, hsplit, hv⟩ := h
    exact ⟨w, vs, hw.mono hsub, hsplit.mono hsub, hv⟩
  | .fuse _, _, h => by
    obtain ⟨vs, hvs, hfuse⟩ := h
    exact ⟨vs, RealisesAll.mono hsub hvs, hfuse.mono hsub⟩

/-- Later steps only add relations, so what the loops stand for stays. -/
theorem RealisesAll.mono (hsub : rels ⊆ rels') :
    ∀ {ps : List Part} {vs : List IterVar}, RealisesAll rels ps vs → RealisesAll rels' ps vs
  | [], _, h => h
  | _ :: _, _, h => by
    obtain ⟨v, vs, rfl, hv, hvs⟩ := h
    exact ⟨v, vs, rfl, hv.mono hsub, RealisesAll.mono hsub hvs⟩

end

end

/-! ### Splits and fuses of a stage -/

theorem SplitInner.length_eq (h : SplitInner rels v ls vs) : vs.length = ls.length + 1 := by
  induction h with
  | nil v => rfl
  | cons _ _ ih => simp [ih]

theorem SplitOuter.length_eq (h : SplitOuter rels v ls vs) : vs.length = ls.length + 1 := by
  induction h with
  | nil v => rfl
  | cons _ _ ih => simp [ih]

/-- A split by `n` lengths makes `n + 1` loops, whichever way it runs. -/
theorem SplitInto.length_eq (h : SplitInto rels v ls io vs) : vs.length = ls.length + 1 := by
  cases io with
  | false => exact SplitOuter.length_eq h
  | true =>
    simpa using SplitInner.length_eq h

variable {whole : Part} {its : List Iterator}

/-- The loops of a split realise the pieces of what the split loop realised, piece by piece. -/
theorem realises_pieces {w : IterVar} (hw : Realises rels whole w)
    (hsplit : SplitInto rels w ls io vs) :
    Forall₂ (Realises rels) (whole.pieces ls io) vs := by
  have hlen := hsplit.length_eq
  rw [forall₂_iff_get]
  refine ⟨by simp [Part.pieces, hlen], fun i h₁ h₂ => ?_⟩
  simp only [Part.pieces, get_eq_getElem, getElem_map, getElem_range]
  exact ⟨w, vs, hw, hsplit, by simp⟩

section

variable {s : Te.Stage} {l₁ l₂ : List IterVar}

section

variable (H : s.LoopsOk) (hleaf : s.leafIterVars = l₁ ++ v :: l₂) (ls : List ℤ)
include H hleaf

/-- The inner-to-outer run of `split` replaces the loop by its pieces and leaves the others alone. -/
theorem splitInnerToOuter_spec :
    ∃ s' outs rels, splitInnerToOuter s v (ls.map some) = some (s', outs) ∧
      Te.Stage.Edit s s' rels l₁ [v] l₂ outs.reverse ∧ SplitInner rels v ls outs := by
  induction ls generalizing s v l₂ with
  | nil =>
    exact ⟨s, [v], [], rfl, H.edit_refl (by simp [hleaf]), .nil v⟩
  | cons l ls ih =>
    obtain ⟨s₁, outer, inner, hsplit, h₁⟩ := H.splitHelper_spec hleaf (some l) none
    have hleaf₁ : s₁.leafIterVars = l₁ ++ outer :: inner :: l₂ := by simp [h₁.leaf]
    obtain ⟨s₂, outs, rels, hrun, h₂, hchain⟩ := ih h₁.ok hleaf₁
    refine ⟨s₂, inner :: outs, _ :: rels, ?_, h₁.trans h₂ ?_ ?_ ?_ ?_,
      .cons mem_cons_self (hchain.mono (subset_cons_self _ _))⟩
    · simp [splitInnerToOuter, Te.Stage.split, hsplit, hrun]
    · simp
    · exact fun w hw => hw
    · exact ((sublist_cons_self _ _).append_left _).subset
    · -- the inner loop is split off for good
      have hin : follow rels inner = inner := h₂.keep inner (by simp)
      simp [advance, hin]

/-- The outer-to-inner run of `split` does the same, with the first piece left in front. -/
theorem splitOuterToInner_spec :
    ∃ s' outs rels, splitOuterToInner s v (ls.map some) = some (s', outs) ∧
      Edit s s' rels l₁ [v] l₂ outs ∧ SplitOuter rels v ls outs := by
  induction ls generalizing s v l₁ with
  | nil =>
    exact ⟨s, [v], [], rfl, H.edit_refl (by simp [hleaf]), .nil v⟩
  | cons l ls ih =>
    obtain ⟨s₁, outer, inner, hsplit, h₁⟩ := H.splitHelper_spec hleaf none (some l)
    have hleaf₁ : s₁.leafIterVars = (l₁ ++ [outer]) ++ inner :: l₂ := by simp [h₁.leaf]
    obtain ⟨s₂, outs, rels, hrun, h₂, hchain⟩ := ih h₁.ok hleaf₁
    refine ⟨s₂, outer :: outs, _ :: rels, ?_, h₁.trans h₂ ?_ ?_ ?_ ?_,
      .cons mem_cons_self (hchain.mono (subset_cons_self _ _))⟩
    · simp [splitOuterToInner, splitByNparts, hsplit, hrun]
    · simp
    · exact fun w hw => hw
    · exact ((sublist_append_left _ _).append_right _).subset
    · have hinner := h₂.inner
      have hne : outs ≠ [] := by
        intro h
        have := hchain.length_eq
        simp [h] at this
      rw [getLast?_cons_of_ne_nil hne]
      simpa [advance] using hinner

/-- `SplitStep` on the schedule, in either direction: the loop gives way to the loops it is split into. -/
theorem splitStage_spec (io : Bool) :
    ∃ s' outs rels, splitStage s v (ls.map some) io = some (s', outs) ∧
      Edit s s' rels l₁ [v] l₂ outs ∧ SplitInto rels v ls io outs := by
  cases io with
  | false => exact splitOuterToInner_spec H hleaf ls
  | true =>
    obtain ⟨s', outs, rels, hrun, hedit, hchain⟩ := splitInnerToOuter_spec H hleaf ls.reverse
    refine ⟨s', outs.reverse, rels, ?_, hedit, ?_⟩
    · rw [splitStage, ← map_reverse, hrun]
      rfl
    · simpa [SplitInto] using hchain

end

/-- Fusing the loops that follow `v` into it, one after another, as `FuseStep` does. -/
theorem fuseOnto_spec (H : s.LoopsOk) (hleaf : s.leafIterVars = l₁ ++ v :: vs ++ l₂) :
    ∃ s' fused rels, s.fuseOnto v vs = some (s', fused) ∧
      Edit s s' rels l₁ (v :: vs) l₂ [fused] ∧ FuseOnto rels v vs fused := by
  induction vs generalizing s v with
  | nil =>
    exact ⟨s, v, [], rfl, H.edit_refl hleaf, .nil v⟩
  | cons w vs ih =>
    have hleaf₀ : s.leafIterVars = l₁ ++ v :: w :: (vs ++ l₂) := by simp [hleaf]
    obtain ⟨s₁, z, hfuse, h₁⟩ := H.fusePair_spec hleaf₀
    have hleaf₁ : s₁.leafIterVars = l₁ ++ z :: vs ++ l₂ := by simp [h₁.leaf]
    obtain ⟨s₂, fused, rels, hrun, h₂, hchain⟩ := ih h₁.ok hleaf₁
    refine ⟨s₂, fused, _ :: rels, ?_, h₁.trans h₂ ?_ ?_ ?_ ?_,
      .cons mem_cons_self (hchain.mono (subset_cons_self _ _))⟩
    · simp [fuseOnto, hfuse, hrun]
    · simp
    · exact ((sublist_append_right _ _).append_left _).subset
    · exact fun x hx => hx
    · -- a fused loop further inside is not touched by the first fuse
      have hinner := h₂.inner
      cases vs with
      | nil => simpa [advance] using hinner
      | cons x xs =>
        have hkeep : ∀ y ∈ (x :: xs).getLast?, follow [fuse v w z] y = y := by
          intro y hy
          refine h₁.keep y (mem_append_right _ (mem_append_left _ ?_))
          exact mem_of_getLast? hy
        rw [← hinner]
        refine map_congr fun y hy => ?_
        rw [hkeep y hy]

/-- `FuseStep` on the schedule: consecutive loops give way to one loop that fuses them. -/
theorem fuse_spec (H : s.LoopsOk) (hne : vs ≠ []) (hleaf : s.leafIterVars = l₁ ++ vs ++ l₂) :
    ∃ s' fused rels, s.fuse vs = some (s', fused) ∧
      Edit s s' rels l₁ vs l₂ [fused] ∧ FuseInto rels vs fused := by
  cases vs with
  | nil => exact absurd rfl hne
  | cons v vs => exact fuseOnto_spec H hleaf

end

/-! ## Iterators -/

def Iterator.extent (it : Iterator) : Option Tir.PrimExpr := it.range.map (·.extent)

/-- What is left of a loop when lengths are split off one after the other. -/
def splitRemainder (extent : Tir.PrimExpr) (ls : List ℤ) : Option Tir.PrimExpr :=
  ls.foldlM (fun e l => e.ceilDiv (.intImm l)) extent

/-- The extent of a piece of a split loop.  The lengths are given from the outermost to
the innermost piece.  What is left is the outermost piece of a split from the inner loops
outwards, and the innermost piece of a split from the outer loops inwards. -/
def pieceExtent (ls : List ℤ) (innerToOuter : Bool) (level : ℕ) (extent : Tir.PrimExpr) :
    Option Tir.PrimExpr :=
  match innerToOuter, level with
  | true, 0 => splitRemainder extent ls.reverse
  | true, j + 1 => ls[j]?.map .intImm
  | false, j => if j < ls.length then ls[j]?.map .intImm else splitRemainder extent ls

/-- The iterator has the given extent.  Where extents are not all `known`, because stages
have been placed at other loops, it may have lost it. -/
def Iterator.HasExtent (known : Prop) (it : Iterator) (extent : Option Tir.PrimExpr) : Prop :=
  it.extent = extent ∨ ¬ known ∧ it.range = none

section

variable (known : Prop)

mutual

/-- An iterator stands for a part: its name says which piece of which loop it is, its
extent which length of the split it got, and a fused iterator also keeps the iterators it
was made of. -/
def Denotes : Part → Iterator → Prop
  | .root axis, it =>
    it.name = cleanName axis.name ∧
      (it.iterKind = if axis.iterType = .kCommReduce then .kReduction else .kSpatial) ∧
      it.HasExtent known (axis.dom.map (·.extent))
  | .split whole lengths innerToOuter level, it =>
    ∃ w, Denotes whole w ∧ it.name = w.name ++ "." ++ toString level ∧
      it.iterKind = w.iterKind ∧
      it.HasExtent known (w.extent.bind (pieceExtent lengths innerToOuter level))
  | .fuse parts, it =>
    DenotesAll parts it.origIters ∧ it.name = (fusedIterator it.origIters).name ∧
      it.iterKind = fusedKind it.origIters ∧ it.HasExtent known (fusedExtent it.origIters)

def DenotesAll : List Part → List Iterator → Prop
  | [], its => its = []
  | p :: ps, its => ∃ it its', its = it :: its' ∧ Denotes p it ∧ DenotesAll ps its'

end

end

variable {known : Prop}

theorem denotesAll_iff : DenotesAll known ps its ↔ Forall₂ (Denotes known) ps its := by
  induction ps generalizing its with
  | nil => simp [DenotesAll]
  | cons p ps ih =>
    simp only [DenotesAll, ih, forall₂_cons_left_iff]
    exact exists₂_congr fun _ _ => and_rotate

variable {it : Iterator}

/-- An iterator that has lost its extent still stands for its part. -/
theorem Denotes.clearRange {p : Part} (h : Denotes known p it) (hk : ¬ known) :
    Denotes known p it.clearRange := by
  have hext : ∀ e, it.clearRange.HasExtent known e := fun _ => .inr ⟨hk, rfl⟩
  cases p with
  | root axis => exact ⟨h.1, h.2.1, hext _⟩
  | split whole lengths io level =>
    obtain ⟨w, hw, hname, hkind, -⟩ := h
    exact ⟨w, hw, hname, hkind, hext _⟩
  | fuse parts => exact ⟨h.1, h.2.1, h.2.2.1, hext _⟩

/-- The iterator a fuse step writes into the state denotes the fusion of the parts fused. -/
theorem denotes_fusedIterator
    (h : Forall₂ (Denotes known) ps its) : Denotes known (.fuse ps) (fusedIterator its) := by
  refine ⟨denotesAll_iff.mpr h, rfl, rfl, .inl ?_⟩
  simp [Iterator.extent, fusedIterator, Function.comp_def]

variable {outs : List Iterator}

/-- The loop of a split gives each length to the iterator of the name it stands with, and
returns what is left. -/
theorem splitLoop_spec {range range' : Option Tir.Range} {named : List (Option ℤ × String)}
    (hls : named.map Prod.fst = ls.map some)
    (h : splitLoop it range named = some (outs, range')) :
    Forall₂ (fun p o => o.name = p.2 ∧ o.iterKind = it.iterKind ∧
      o.extent = range.bind fun _ => p.1.map Tir.PrimExpr.intImm) named outs ∧
    range'.map (·.extent) = (range.map (·.extent)).bind (splitRemainder · ls) := by
  induction named generalizing range range' outs ls with
  | nil =>
    simp only [splitLoop, some.injEq, Prod.mk.injEq] at h
    obtain rfl : ls = [] := by simpa using hls.symm
    rw [← h.1, ← h.2]
    exact ⟨.nil, by cases range <;> rfl⟩
  | cons p named ih =>
    obtain ⟨l, name⟩ := p
    obtain ⟨l, ls, rfl⟩ : ∃ l' ls', ls = l' :: ls' := by
      cases ls with
      | nil => simp at hls
      | cons l ls => exact ⟨l, ls, rfl⟩
    simp only [map_cons, cons.injEq] at hls
    obtain ⟨rfl, hls⟩ := hls
    cases range with
    | some range =>
      simp only [splitLoop, Lib.do_eq_some, some.injEq, Prod.mk.injEq] at h
      obtain ⟨extent, hext, ⟨rest, r⟩, hrest, rfl, rfl⟩ := h
      obtain ⟨hnames, hleft⟩ := ih hls hrest
      refine ⟨.cons ⟨rfl, rfl, rfl⟩ (hnames.imp fun _ _ ho => ho), ?_⟩
      rw [hleft]
      simp [splitRemainder, hext]
    | none =>
      simp only [splitLoop, Lib.do_eq_some, some.injEq, Prod.mk.injEq] at h
      obtain ⟨⟨rest, r⟩, hrest, rfl, rfl⟩ := h
      obtain ⟨hnames, hleft⟩ := ih hls hrest
      exact ⟨.cons ⟨rfl, rfl, rfl⟩ hnames, hleft⟩

theorem map_fst_mapIdx {α β : Type} (f : ℕ → β) (l : List α) :
    (l.mapIdx fun i a => (a, f i)).map Prod.fst = l :=
  ext_getElem (by simp) (by simp)

theorem pieceExtent_last (extent : Tir.PrimExpr) :
    pieceExtent ls false ls.length extent = splitRemainder extent ls := by
  simp [pieceExtent]

/-- The iterators a split makes are numbered, and get the lengths, from the outermost to
the innermost. -/
theorem splitIterators_spec (h : splitIterators it (ls.map some) io = some outs) :
    Forall₂ (fun j o => o.name = it.name ++ "." ++ toString j ∧ o.iterKind = it.iterKind ∧
      o.extent = it.extent.bind (pieceExtent ls io j)) (range (ls.length + 1)) outs := by
  cases io with
  | false =>
    simp only [splitIterators, Bool.false_eq_true, if_false, Lib.do_eq_some, some.injEq] at h
    obtain ⟨⟨rest, left⟩, hloop, rfl⟩ := h
    obtain ⟨hnames, hleft⟩ := splitLoop_spec (map_fst_mapIdx _ _) hloop
    rw [forall₂_iff_get] at hnames
    have hlen : rest.length = ls.length := by simpa using hnames.1.symm
    rw [range_succ]
    refine rel_append ?_ (.cons ⟨by simp, rfl, ?_⟩ .nil)
    · rw [forall₂_iff_get]
      refine ⟨by simp [hlen], fun j h₁ h₂ => ?_⟩
      have hj : j < ls.length := by simpa using h₁
      have := hnames.2 j (by simpa using h₁) h₂
      simpa [pieceExtent, hj, Iterator.extent, Option.bind_map, Function.comp_def] using this
    · simpa [Iterator.extent, pieceExtent_last] using hleft
  | true =>
    simp only [splitIterators, if_true, Lib.do_eq_some, some.injEq] at h
    obtain ⟨⟨rest, left⟩, hloop, rfl⟩ := h
    obtain ⟨hnames, hleft⟩ := splitLoop_spec
      ((map_fst_mapIdx _ _).trans map_reverse.symm) hloop
    rw [forall₂_iff_get] at hnames
    have hlen : rest.length = ls.length := by simpa using hnames.1.symm
    rw [range_succ_eq_map]
    refine .cons ⟨?_, rfl, hleft⟩ ?_
    · rw [String.append_assoc]
      rfl
    rw [forall₂_iff_get]
    refine ⟨by simp [hlen], fun j h₁ h₂ => ?_⟩
    -- the iterators were made from the innermost outwards
    have hj : j < ls.length := by simpa using h₁
    have := hnames.2 (ls.length - 1 - j) (by simp; omega) (by omega)
    have hnum : ls.length - (ls.length - 1 - j) = j + 1 := by omega
    have hat : ls.length - 1 - (ls.length - 1 - j) = j := by omega
    simpa [-mapIdx_reverse, hlen, hnum, hat, hj, pieceExtent, Iterator.extent, Option.bind_map,
      Function.comp_def] using this

/-- The iterators a split step writes into the state denote the pieces of the part split, with the
extents the step computes for them. -/
theorem denotes_splitIterators (hit : Denotes known whole it)
    (h : splitIterators it (ls.map some) io = some outs) :
    Forall₂ (Denotes known) (whole.pieces ls io) outs := by
  have hnames := splitIterators_spec h
  rw [Part.pieces, forall₂_map_left_iff]
  refine hnames.imp fun j o ho => ?_
  exact ⟨it, hit, ho.1, ho.2.1, .inl ho.2.2⟩

end Pruner.AutoScheduler
