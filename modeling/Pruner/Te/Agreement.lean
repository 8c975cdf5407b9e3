import Mathlib.Data.List.InsertIdx
import Pruner.Lib.AgreeOn
import Pruner.Te.Loops
import Pruner.Te.Schedule

/-!
# Schedules that agree up to some loop nests

Two schedules of one computation may differ in the loops of some stages and still have
the same operations.  A dataflow rewrite reads the loops of the stage it is applied to
and the operations of all stages, and nothing else: where two schedules agree on these,
a rewrite gives schedules that agree again.

## Main definitions

* `Stage.SameNest` — two stages with the same loops.
* `Schedule.Agree` — the same operations, and the same loops at unmarked stages.
* `Schedule.Agree.cacheRead`, `Schedule.Agree.cacheWrite`, `Schedule.Agree.rfactor` —
  the rewrites keep the agreement.
-/

namespace Pruner.Te

open Lib List Option

variable {s t : Stage} {r : Stage × IterVar} {l l' : List Stage} {i n n' : ℕ} {readers : List ℕ}
  {scope : String}

namespace Stage

/-! ## What a loop transformation reads -/

/-- The operation and the loops of a stage, and nothing else. -/
def strip (s : Stage) : Stage :=
  { ofOp s.op with
    allIterVars := s.allIterVars
    leafIterVars := s.leafIterVars
    relations := s.relations }

theorem splitHelper_strip (s : Stage) (v : IterVar) (factor nparts : Option ℤ) :
    s.strip.splitHelper v factor nparts =
      (s.splitHelper v factor nparts).map fun r => (r.1.strip, r.2) := by
  by_cases ht : Splittable v.iterType
  · simp only [splitHelper, if_pos ht, Option.map_map]
    rfl
  · simp [splitHelper, if_neg ht]

theorem fusePair_strip (s : Stage) (outer inner : IterVar) : s.strip.fusePair outer inner =
      (s.fusePair outer inner).map fun r => (r.1.strip, r.2) := by
  have hfind : s.strip.findLeafVar = s.findLeafVar := rfl
  by_cases ht : Splittable outer.iterType ∧ Splittable inner.iterType
  · simp only [fusePair, if_pos ht, hfind]
    cases s.findLeafVar inner with
    | none => rfl
    | some posInner =>
      cases s.findLeafVar outer with
      | none => rfl
      | some posOuter =>
        simp only [some_bind_eq]
        split_ifs <;> rfl
  · simp [fusePair, if_neg ht]

theorem fuseOnto_strip (s : Stage) (fused : IterVar) (rest : List IterVar) :
    s.strip.fuseOnto fused rest = (s.fuseOnto fused rest).map fun r => (r.1.strip, r.2) := by
  induction rest generalizing s fused with
  | nil => rfl
  | cons iv rest ih =>
    simp only [fuseOnto, fusePair_strip]
    cases s.fusePair fused iv with
    | none => rfl
    | some r => exact ih r.1 r.2

theorem fuse_strip (s : Stage) (vs : List IterVar) :
    s.strip.fuse vs = (s.fuse vs).map fun r => (r.1.strip, r.2) := by
  cases vs with
  | nil => rfl
  | cons v vs => exact fuseOnto_strip s v vs

/-! ## What a loop transformation leaves alone -/

theorem header_splitHelper {v : IterVar} {factor nparts : Option ℤ} {r : Stage × IterVar × IterVar}
    (h : s.splitHelper v factor nparts = some r) :
    r.1.header = s.header := by
  rw [splitHelper] at h
  split_ifs at h
  obtain ⟨pos, -, rfl⟩ := map_eq_some_iff.mp h
  rfl

theorem header_fusePair {outer inner : IterVar}
    (h : s.fusePair outer inner = some r) : r.1.header = s.header := by
  rw [fusePair] at h
  split_ifs at h
  obtain ⟨posInner, -, posOuter, -, h⟩ := bind₂_eq_some.mp h
  split_ifs at h <;> obtain rfl := some.inj h <;> rfl

theorem header_fuseOnto {fused : IterVar} {rest : List IterVar}
    (h : s.fuseOnto fused rest = some r) : r.1.header = s.header := by
  induction rest generalizing s fused with
  | nil =>
    cases h
    rfl
  | cons iv rest ih =>
    obtain ⟨r₁, h₁, h₂⟩ := bind_eq_some_iff.mp h
    exact (ih h₂).trans (header_fusePair h₁)

theorem header_fuse {vs : List IterVar} (h : s.fuse vs = some r) : r.1.header = s.header := by
  cases vs with
  | nil =>
    cases h
    rfl
  | cons v vs => exact header_fuseOnto h

theorem header_reorder {s' : Stage} {order : List IterVar} (h : s.reorder order = some s') :
    s'.header = s.header := by
  rw [reorder] at h
  split_ifs at h
  obtain ⟨pos, -, h⟩ := bind_eq_some_iff.mp h
  cases h
  rfl

/-! ## Stages with the same loops -/

/-- The same loops.  Operations, attributes and placement may differ. -/
structure SameNest (s t : Stage) : Prop where
  allIterVars : s.allIterVars = t.allIterVars
  leafIterVars : s.leafIterVars = t.leafIterVars
  relations : s.relations = t.relations

theorem SameNest.refl (s : Stage) : s.SameNest s := ⟨rfl, rfl, rfl⟩

theorem SameNest.trans {u : Stage} (h : s.SameNest t) (h' : t.SameNest u) : s.SameNest u :=
  ⟨h.1.trans h'.1, h.2.trans h'.2, h.3.trans h'.3⟩

/-- With the same operation a loop transformation cannot tell two stages apart. -/
theorem strip_eq_iff : s.strip = t.strip ↔ s.op = t.op ∧ s.SameNest t := by
  constructor
  · intro h
    simp only [strip, ofOp, mk.injEq] at h
    exact ⟨h.1, h.2.2.1, h.2.2.2.1, h.2.2.2.2.1⟩
  · rintro ⟨hop, hall, hleaf, hrels⟩
    simp [strip, hop, hall, hleaf, hrels]

/-- Everything of a stage but the attributes of its loops and its placement. -/
def core (s : Stage) : Stage :=
  { s with
    iterVarAttrs := []
    attachType := default
    attachIvar := none
    attachStage := none }

theorem strip_eq_of_core (h : s.core = t.core) : s.strip = t.strip := by
  simp only [core, mk.injEq] at h
  obtain ⟨hop, -, hall, hleaf, hrels, -⟩ := h
  exact strip_eq_iff.mpr ⟨hop, hall, hleaf, hrels⟩

/-- Everything of a stage but its operation. -/
def frame (s : Stage) : Stage := { s with op := default }

theorem SameNest.of_frame {s₁ t₁ : Stage} (hs : s₁.frame = s.frame) (ht : t₁.frame = t.frame)
    (h : s.SameNest t) : s₁.SameNest t₁ := by
  simp only [frame, mk.injEq, true_and] at hs ht
  obtain ⟨-, hall, hleaf, hrels, -⟩ := hs
  obtain ⟨-, hall', hleaf', hrels', -⟩ := ht
  exact ⟨hall.trans (h.1.trans hall'.symm), hleaf.trans (h.2.trans hleaf'.symm),
    hrels.trans (h.3.trans hrels'.symm)⟩

theorem sameNest_reset (s t : Stage) (op : Operation) : (s.reset op).SameNest (t.reset op) :=
  ⟨rfl, rfl, rfl⟩

end Stage

/-! ## What a rewrite reads and changes -/

open Stage

variable {β : Type*} {f : Stage → β}

/-- What new inputs leave alone. -/
theorem replaceDataFlow_map (hf : ∀ (s : Stage) rmap id op',
    s.op.replaceInputs rmap id = some op' → f { s with op := op' } = f s)
    (l : List Stage) (m : FlowMap) (next : ℕ) : (replaceDataFlow l m next).1.map f = l.map f := by
  induction l generalizing m next with
  | nil => rfl
  | cons s l ih =>
    rw [replaceDataFlow]
    cases hop : s.op.replaceInputs m.vmap next with
    | none => simp [ih]
    | some op' => simp [ih, hf s _ _ op' hop]

theorem replaceDataFlow_frame (l : List Stage) (m : FlowMap) (next : ℕ) :
    (replaceDataFlow l m next).1.map frame = l.map frame :=
  replaceDataFlow_map (fun _ _ _ _ _ => rfl) l m next

/-- The replaced operations depend on the operations alone. -/
theorem replaceDataFlow_ops (h : l.map (·.op) = l'.map (·.op)) (m : FlowMap) (next : ℕ) :
    (replaceDataFlow l m next).1.map (·.op) = (replaceDataFlow l' m next).1.map (·.op) ∧
      (replaceDataFlow l m next).2 = (replaceDataFlow l' m next).2 := by
  induction l generalizing l' m next with
  | nil =>
    obtain rfl := map_eq_nil_iff.mp h.symm
    exact ⟨rfl, rfl⟩
  | cons s l ih =>
    obtain ⟨t, l', rfl, ht, hl⟩ := map_eq_cons_iff.mp h.symm
    rw [replaceDataFlow, replaceDataFlow, ht]
    cases s.op.replaceInputs m.vmap next with
    | none =>
      simp only [map_cons, ht, cons.injEq, true_and]
      exact ih hl.symm _ _
    | some op' =>
      simp only [map_cons, cons.injEq, true_and]
      exact ih hl.symm _ _

theorem map_set_of_getElem? {α : Type*} {f : α → β} {l : List α} {a a' : α} (h : l[i]? = some a)
    (hf : f a' = f a) : (l.set i a').map f = l.map f := by
  obtain ⟨hi, rfl⟩ := List.getElem?_eq_some_iff.mp h
  rw [map_set, hf, ← getElem_map f]
  exact set_getElem_self (by simpa using hi)

namespace Schedule

variable {vsub : Tensor → Option Tensor} {m : FlowMap} {next : ℕ} {sch sch' : Schedule}
  {axis : IterVar} {factorAxis : ℤ}

theorem redirectReaders_map (hf : ∀ (s : Stage) rmap id op',
    s.op.replaceInputs rmap id = some op' → f { s with op := op' } = f s)
    {r : List Stage × FlowMap × ℕ}
    (h : redirectReaders vsub readers l m next = some r) : r.1.map f = l.map f := by
  induction readers generalizing l m next with
  | nil =>
    cases h
    rfl
  | cons i readers ih =>
    obtain ⟨s, hs, op', hop, h⟩ := bind₂_eq_some.mp h
    exact (ih h).trans (map_set_of_getElem? hs (hf s _ _ op' hop))

theorem redirectReaders_ops {r r' : List Stage × FlowMap × ℕ} (hops : l.map (·.op) = l'.map (·.op))
    (h : redirectReaders vsub readers l m next = some r)
    (h' : redirectReaders vsub readers l' m next = some r') :
    r.1.map (·.op) = r'.1.map (·.op) ∧ r.2 = r'.2 := by
  induction readers generalizing l l' m next with
  | nil =>
    cases h
    cases h'
    exact ⟨hops, rfl⟩
  | cons i readers ih =>
    obtain ⟨s, hs, op₁, ho, h⟩ := bind₂_eq_some.mp h
    obtain ⟨t, ht, h'⟩ := bind_eq_some_iff.mp h'
    obtain ⟨op₂, ho', h'⟩ := bind_eq_some_iff.mp h'
    have hst : s.op = t.op := by
      simpa [hs, ht] using congrArg (·[i]?) hops
    rw [hst, ho'] at ho
    cases ho
    rw [hst] at h
    refine ih ?_ h h'
    simp [hops]

/-- A pass that succeeds has found every bound loop, so the attributes do not matter. -/
theorem passDownDomain_strip {dom dom' : DomMap}
    (h : passDownDomain s dom = some dom') : passDownDomain s.strip dom = some dom' := by
  obtain ⟨d, hd, h⟩ := bind_eq_some_iff.mp h
  split_ifs at h
  obtain rfl := some.inj h
  have hbound : ∀ p ∈ s.strip.iterVarAttrs, p.2.bindThread.isSome → (d p.1).isSome := by
    intro p hp
    exact absurd hp not_mem_nil
  have hd' : s.strip.relations.foldlM passDownDomainRel dom = some d := hd
  simp [passDownDomain, hd', some_bind_eq, if_pos hbound]

theorem cacheWriteOps_strip {c : ComputeOp} {id : ℕ} {ops : Operation × Operation}
    (h : cacheWriteOps s c id = some ops) : cacheWriteOps s.strip c id = some ops := by
  obtain ⟨dom, hdom, h⟩ := bind_eq_some_iff.mp h
  exact bind_eq_some_iff.mpr ⟨dom, passDownDomain_strip hdom, h⟩

theorem cacheWrite_cases (h : sch.cacheWrite i scope = some sch') :
    ∃ s c ops s', sch.stages[i]? = some s ∧ s.op.asCompute = some c ∧
      cacheWriteOps s c sch.nextOp = some ops ∧
      (replaceDataFlow sch.stages (FlowMap.empty.replace (s.op.output 0) (ops.2.output 0))
        (sch.nextOp + 2)).1[i]? = some s' ∧
      sch' =
        let r := replaceDataFlow sch.stages
          (FlowMap.empty.replace (s.op.output 0) (ops.2.output 0)) (sch.nextOp + 2)
        ⟨(r.1.set i (s'.reset ops.2)).insertIdx i
          { Stage.ofOp ops.1 with scope := scope }, r.2⟩ := by
  obtain ⟨s, hs, origin, -, c, hc, h⟩ := bind₃_eq_some.mp h
  split_ifs at h
  obtain ⟨ops, hops, s', hs', h⟩ := bind₂_eq_some.mp h
  exact ⟨s, c, ops, s', hs, hc, hops, hs', (some.inj h).symm⟩

/-- What `rfactor` does: a stage for the partial reductions, and an operation `repl` that
takes the place of the factored one. -/
theorem rfactor_cases (h : sch.rfactor i axis factorAxis = some sch') :
    ∃ s c dom range pos keep factor repl added m s',
      sch.stages[i]? = some s ∧ s.op.asCompute = some c ∧
      factorDomain s c (touchedBy s axis) = some dom ∧ dom axis = some range ∧
      factorAxisPos factorAxis c.axis.length = some pos ∧
      s.relations.mapM (keepsRelation (touchedBy s axis)) = some keep ∧
      factor = factorOp s c dom range (touchedBy s axis) axis pos sch.nextOp ∧
      repl = replOp s.op c factor range axis pos (sch.nextOp + 1) ∧
      added = { Stage.ofOp factor with
        relations := ((s.relations.zip keep).filter fun p => p.2).map Prod.fst } ∧
      m = (List.range c.numOutputs).foldl
        (fun m k => m.replace (s.op.output k) (repl.output k)) FlowMap.empty ∧
      (replaceDataFlow (sch.stages.insertIdx i added) m (sch.nextOp + 2)).1[i + 1]? = some s' ∧
      sch' = let r := replaceDataFlow (sch.stages.insertIdx i added) m (sch.nextOp + 2)
        ⟨r.1.set (i + 1) (s'.reset repl), r.2⟩ := by
  obtain ⟨s, hs, c, hc, h⟩ := bind₂_eq_some.mp h
  split_ifs at h
  obtain ⟨dom, hdom, range, hrange, h⟩ := bind₂_eq_some.mp h
  obtain ⟨pos, hpos, keep, hkeep, h⟩ := bind₂_eq_some.mp h
  split_ifs at h
  obtain ⟨s', hs', h⟩ := bind_eq_some_iff.mp h
  exact ⟨s, c, dom, range, pos, keep, _, _, _, _, s', hs, hc, hdom, hrange, hpos, hkeep,
    rfl, rfl, rfl, rfl, hs', (some.inj h).symm⟩

/-! ## Agreement -/

/-- The same operations, and the same loops at every unmarked stage. -/
structure Agree (marks : List Bool) (a b : Schedule) : Prop where
  nextOp : a.nextOp = b.nextOp
  ops : a.stages.map (·.op) = b.stages.map (·.op)
  nests : AgreeOn SameNest marks a.stages b.stages

namespace Agree

variable {marks : List Bool} {a b a' b' : Schedule}

theorem op_eq (h : Agree marks a b) (hs : a.stages[i]? = some s)
    (ht : b.stages[i]? = some t) : s.op = t.op := by
  simpa [hs, ht] using congrArg (·[i]?) h.ops

section

variable (h : Agree marks ⟨l, n⟩ ⟨l', n'⟩)
include h

/-- A stage of the same operation is added to both schedules. -/
theorem insertStage (i : ℕ) (s : Stage) :
    Agree (marks.insertIdx i false) ⟨l.insertIdx i s, n⟩ ⟨l'.insertIdx i s, n'⟩ where
  nextOp := h.nextOp
  ops := by
    have hops : l.map (·.op) = l'.map (·.op) := h.ops
    simp [map_insertIdx, hops]
  nests := h.nests.insertIdx (.refl s) i

/-- Both schedules give the loops of the same operation to one of their stages. -/
theorem resetStage (s t : Stage) (i : ℕ) (op : Operation) :
    Agree marks ⟨l.set i (s.reset op), n⟩ ⟨l'.set i (t.reset op), n'⟩ where
  nextOp := h.nextOp
  ops := by
    have hops : l.map (·.op) = l'.map (·.op) := h.ops
    simp only [map_set, hops]
    rfl
  nests := h.nests.set_both (sameNest_reset s t op) i

theorem dataFlow (m : FlowMap) (next : ℕ) :
    Agree marks ⟨(replaceDataFlow l m next).1, (replaceDataFlow l m next).2⟩
      ⟨(replaceDataFlow l' m next).1, (replaceDataFlow l' m next).2⟩ where
  nextOp := (replaceDataFlow_ops h.ops m next).2
  ops := (replaceDataFlow_ops h.ops m next).1
  nests := h.nests.of_map_eq SameNest.of_frame (replaceDataFlow_frame l m next)
    (replaceDataFlow_frame l' m next)

end

/-- **`cache_read` keeps the agreement**, whatever the loops of its stage are. -/
theorem cacheRead (h : Agree marks a b) (ha : a.cacheRead i scope readers = some a')
    (hb : b.cacheRead i scope readers = some b') :
    Agree (marks.insertIdx (i + 1) false) a' b' := by
  obtain ⟨s, hs, ⟨l, m, n⟩, hl, ha⟩ := bind₂_eq_some.mp ha
  obtain ⟨t, ht, ⟨l', m', n'⟩, hl', hb⟩ := bind₂_eq_some.mp hb
  cases ha
  cases hb
  rw [h.op_eq hs ht, h.nextOp] at hl
  obtain ⟨hops, hmn⟩ := redirectReaders_ops h.ops hl hl'
  cases hmn
  have hnests : AgreeOn SameNest _ l l' :=
    h.nests.of_map_eq SameNest.of_frame (redirectReaders_map (fun _ _ _ _ _ => rfl) hl)
      (redirectReaders_map (fun _ _ _ _ _ => rfl) hl')
  have hread : Agree marks ⟨l, n⟩ ⟨l', n⟩ := ⟨rfl, hops, hnests⟩
  rw [h.op_eq hs ht, h.nextOp]
  exact (hread.dataFlow m n).insertStage (i + 1) _

/-- **`cache_write` of an unmarked stage keeps the agreement.** -/
theorem cacheWrite (h : Agree marks a b) (hi : marks[i]? = some false)
    (ha : a.cacheWrite i scope = some a') (hb : b.cacheWrite i scope = some b') :
    Agree (marks.insertIdx i false) a' b' := by
  obtain ⟨s, c, ops, s', hs, hc, hops, hs', rfl⟩ := cacheWrite_cases ha
  obtain ⟨t, c', ops', t', ht, hc', hops', ht', rfl⟩ := cacheWrite_cases hb
  have hst := h.nests.get hi hs ht
  have hop := h.op_eq hs ht
  obtain rfl : c = c' := some.inj (by rw [← hc, ← hc', hop])
  obtain rfl : ops = ops' := by
    have hstrip := cacheWriteOps_strip hops
    rw [strip_eq_iff.mpr ⟨hop, hst⟩, h.nextOp, cacheWriteOps_strip hops'] at hstrip
    exact (some.inj hstrip).symm
  rw [hop, h.nextOp]
  have hflow := dataFlow h (FlowMap.empty.replace (t.op.output 0) (ops.2.output 0))
    (b.nextOp + 2)
  exact (hflow.resetStage s' t' i ops.2).insertStage i _

/-- **`rfactor` of an unmarked stage keeps the agreement.** -/
theorem rfactor (h : Agree marks a b) (hi : marks[i]? = some false)
    (ha : a.rfactor i axis factorAxis = some a')
    (hb : b.rfactor i axis factorAxis = some b') : Agree (marks.insertIdx i false) a' b' := by
  obtain ⟨s, c, dom, range, pos, keep, factor, repl, added, m, s', hs, hc, hdom, hrange, hpos,
    hkeep, hfactor, hrepl, hadded, hm, hs', rfl⟩ := rfactor_cases ha
  obtain ⟨t, c', dom', range', pos', keep', factor', repl', added', m', t', ht, hc', hdom',
    hrange', hpos', hkeep', hfactor', hrepl', hadded', hm', ht', rfl⟩ := rfactor_cases hb
  have hst := h.nests.get hi hs ht
  have hop := h.op_eq hs ht
  have hstrip := strip_eq_iff.mpr ⟨hop, hst⟩
  have htouched : touchedBy s axis = touchedBy t axis :=
    show touchedBy s.strip axis = touchedBy t.strip axis from congrArg (touchedBy · axis) hstrip
  obtain rfl : c = c' := some.inj (by rw [← hc, ← hc', hop])
  obtain rfl : dom = dom' := by
    have hdown := passDownDomain_strip hdom
    rw [hstrip, htouched, passDownDomain_strip hdom'] at hdown
    exact (some.inj hdown).symm
  obtain rfl : range = range' := some.inj (by rw [← hrange, ← hrange'])
  obtain rfl : pos = pos' := some.inj (by rw [← hpos, ← hpos'])
  obtain rfl : keep = keep' := some.inj (by rw [← hkeep, ← hkeep', htouched, hst.relations])
  obtain rfl : factor = factor' := by
    rw [hfactor, hfactor', htouched, h.nextOp]
    show factorOp s.strip .. = factorOp t.strip ..
    rw [hstrip]
  obtain rfl : repl = repl' := by rw [hrepl, hrepl', hop, h.nextOp]
  obtain rfl : added = added' := by rw [hadded, hadded', hst.relations]
  obtain rfl : m = m' := by rw [hm, hm', hop]
  rw [h.nextOp]
  have hflow := (insertStage h i added).dataFlow m (b.nextOp + 2)
  exact hflow.resetStage s' t' (i + 1) repl

end Agree

end Schedule

end Pruner.Te
