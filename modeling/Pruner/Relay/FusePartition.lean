import Mathlib.Algebra.Order.BigOperators.Group.List
import Mathlib.Algebra.Order.Ring.Nat
import Pruner.Relay.FuseOps

/-!
# Fused groups have a single exit

Every fusion merges the groups of a region, from a node up to its post-dominator, into the
group of the post-dominator.  The immediate post-dominators computed by least common ancestors
cover their nodes, so the region flows into that group only, and the merge keeps single exits.
The checks of a merge hold, since at most one group of a region has an anchor.  The roots of
the merged groups are in the region, so that the number of nodes is not underestimated.

## Main definitions

* `postDom_dominates` — immediate post-dominators post-dominate their nodes.
* `GroupsOk` — the invariant of the groups.
* `commitFuse_spec`, `tryFuse_spec` — what a fusion does with the groups.
* `partition_single_exit` — every group has one exit, its root.
* `partition_anchor`, `partition_members_le` — the anchor and the size of a group.
-/

namespace Pruner.Relay

open Lib OpPatternKind List Option

variable {tree : ℕ → DomNode} {a depth k y : ℕ} {groups : Groups} {R : ℕ → Prop} {nodes : List ℕ}

/-! ## The graph -/

namespace IndexedForwardGraph

variable (graph : IndexedForwardGraph)

/-- A value that is referenced outside of the graph. -/
def escapes (i : ℕ) : Prop := (graph.node i).externRef = true

theorem upward : Upward graph.size graph.consumers := by
  intro i y hy
  obtain ⟨e, he, rfl⟩ := mem_map.mp hy
  have hall := graph.ordered
  rw [topological, List.all_eq_true] at hall
  cases hnode : graph.postDfsOrder[i]? with
  | none => simp [node, hnode] at he
  | some gnode =>
    have hmem : (gnode, i) ∈ graph.postDfsOrder.zipIdx := by
      rw [mk_mem_zipIdx_iff_getElem?]
      exact hnode
    have hout : e ∈ gnode.outputs := by simpa [node, hnode] using he
    simpa [size] using all_eq_true.mp (hall _ hmem) e hout

end IndexedForwardGraph

variable {graph : IndexedForwardGraph}

/-! ## Post-dominators -/

/-- A node post-dominates another one. -/
abbrev Dominates (graph : IndexedForwardGraph) (d x : ℕ) : Prop :=
  Covers graph.consumers graph.escapes d x

/-- The parents of the nodes from `k` on post-dominate them. -/
def ParentsDominate (graph : IndexedForwardGraph) (k : ℕ) (tree : ℕ → DomNode) : Prop :=
  ∀ i p, k ≤ i → (tree i).parent = some p →
    i < p ∧ (graph.node i).externRef = false ∧ Dominates graph p i

variable {pattern : OpPatternKind} {r p : ℕ}

section

variable (htree : ParentsDominate graph k tree)
include htree

theorem dominates_of_leastCommonAncestor {fuel : ℕ}
    {lhs rhs : Option ℕ} (hl : ∀ l, lhs = some l → k ≤ l) (hr : ∀ r, rhs = some r → k ≤ r)
    (h : (leastCommonAncestor tree fuel lhs rhs pattern).1 = some a) :
    ∃ l r, lhs = some l ∧ rhs = some r ∧ Dominates graph a l ∧ Dominates graph a r := by
  induction fuel generalizing lhs rhs pattern with
  | zero => cases h
  | succ fuel ih =>
    -- Going up from a node goes up to a post-dominator.
    have hup : ∀ i, k ≤ i → ∀ p, (tree i).parent = some p → k ≤ p ∧ Dominates graph p i := by
      intro i hi p hp
      obtain ⟨hlt, -, hdom⟩ := htree i p hi hp
      exact ⟨by omega, hdom⟩
    cases lhs with
    | none => cases rhs <;> simp [leastCommonAncestor] at h
    | some l =>
      cases rhs with
      | none => simp [leastCommonAncestor] at h
      | some r =>
        have hl' := hup l (hl l rfl)
        have hr' := hup r (hr r rfl)
        refine ⟨l, r, rfl, rfl, ?_⟩
        simp only [leastCommonAncestor] at h
        split at h
        · next heq =>
            cases h
            cases heq
            exact ⟨.self, .self⟩
        · split at h
          · obtain ⟨_, r', ⟨⟩, hr'', hal, har⟩ := ih hl (fun p hp => (hr' p hp).1) h
            exact ⟨hal, har.trans (hr' r' hr'').2⟩
          · split at h
            · obtain ⟨l', _, hl'', ⟨⟩, hal, har⟩ := ih (fun p hp => (hl' p hp).1) hr h
              exact ⟨hal.trans (hl' l' hl'').2, har⟩
            · obtain ⟨l', r', hl'', hr'', hal, har⟩ :=
                ih (fun p hp => (hl' p hp).1) (fun p hp => (hr' p hp).1) h
              exact ⟨hal.trans (hl' l' hl'').2, har.trans (hr' r' hr'').2⟩

/-- What is above the outputs seen so far. -/
theorem dominates_of_foldl_ancestorStep
    {rest : List ForwardEdge} (hk : ∀ e ∈ rest, k ≤ e.node) (seen : List ForwardEdge)
    {acc : Option ℕ × OpPatternKind}
    (hacc : ∀ b, acc.1 = some b → k ≤ b ∧ ∀ e ∈ seen, Dominates graph b e.node)
    (h : (rest.foldl (ancestorStep tree) acc).1 = some a) :
    ∀ e ∈ seen ++ rest, Dominates graph a e.node := by
  induction rest generalizing seen acc with
  | nil =>
    intro e he
    exact (hacc a h).2 e (by simpa using he)
  | cons e rest ih =>
    rw [append_cons]
    refine ih (forall_mem_cons.mp hk).2 _ (fun b hb => ?_) h
    have hke : k ≤ e.node := hk e mem_cons_self
    rw [ancestorStep] at hb
    obtain ⟨l, _, hl, ⟨⟩, hbl, hbr⟩ := dominates_of_leastCommonAncestor htree
      (fun l hl => (hacc l hl).1) (fun r hr => some.inj hr ▸ hke) hb
    exact ⟨hke.trans (hbr.le graph.upward).1, forall_mem_append.mpr
      ⟨fun e' he' => hbl.trans ((hacc l hl).2 e' he'), forall_mem_singleton.mpr hbr⟩⟩

theorem dominates_of_leastCommonAncestorOf
    {outputs : List ForwardEdge} (hk : ∀ e ∈ outputs, k ≤ e.node)
    (h : (leastCommonAncestorOf tree outputs pattern).1 = some a) :
    outputs ≠ [] ∧ ∀ e ∈ outputs, Dominates graph a e.node := by
  cases outputs with
  | nil => cases h
  | cons e rest =>
    refine ⟨by simp, ?_⟩
    refine dominates_of_foldl_ancestorStep htree
      (forall_mem_cons.mp hk).2 [e] (fun b hb => ?_) h
    cases hb
    exact ⟨hk e mem_cons_self, by simp [Covers.self]⟩

end

theorem ParentsDominate.getNode (htree : ParentsDominate graph (k + 1) tree) :
    ParentsDominate graph k (Function.update tree k (getNode tree (graph.node k))) := by
  intro i p hi hp
  by_cases hik : i = k
  · subst hik
    rw [Function.update_self, Relay.getNode] at hp
    by_cases hext : (graph.node i).externRef
    · simp [hext] at hp
    · rw [if_neg hext] at hp
      have hcons : ∀ e ∈ (graph.node i).outputs, e.node ∈ graph.consumers i :=
        fun e he => mem_map_of_mem he
      obtain ⟨hne, hall⟩ := dominates_of_leastCommonAncestorOf htree
        (fun e he => (graph.upward i _ (hcons e he)).1) hp
      have hdom : Dominates graph p i := by
        refine .step hext (by simpa [IndexedForwardGraph.consumers] using hne) fun y hy => ?_
        obtain ⟨e, he, rfl⟩ := mem_map.mp hy
        exact hall e he
      obtain ⟨e, he⟩ := exists_mem_of_ne_nil _ hne
      have hlt := (graph.upward i _ (hcons e he)).1
      have hle := ((hall e he).le graph.upward).1
      exact ⟨by omega, by simpa using hext, hdom⟩
  · rw [Function.update_of_ne hik] at hp
    exact htree i p (by omega) hp

/-- **Immediate post-dominators post-dominate their nodes.** -/
theorem postDom_dominates (graph : IndexedForwardGraph) :
    ParentsDominate graph 0 (postDom graph) := by
  have hall : ∀ (m : ℕ) (tree : ℕ → DomNode), ParentsDominate graph m tree →
      ParentsDominate graph 0 ((range m).reverse.foldl (fun tree i =>
        Function.update tree i (getNode tree (graph.node i))) tree) := by
    intro m
    induction m with
    | zero => exact fun _ htree => htree
    | succ m ih =>
      intro tree htree
      rw [range_succ, reverse_append]
      exact ih _ htree.getNode
  exact hall graph.size _ fun i p _ hp => by cases hp

/-! ## Groups -/

/-- The node whose group represents the group of a node. -/
def groupOf (graph : IndexedForwardGraph) (groups : Groups) (i : ℕ) : ℕ :=
  forestRoot graph.size groups.parent i

/-- The nodes of a group. -/
def members (graph : IndexedForwardGraph) (groups : Groups) (r : ℕ) : List ℕ :=
  (range graph.size).filter (groupOf graph groups · = r)

@[simp, grind =] theorem mem_members {j : ℕ} :
    j ∈ members graph groups r ↔ j < graph.size ∧ groupOf graph groups j = r := by
  simp [members]

theorem length_members_le {l : List ℕ} (h : members graph groups r ⊆ l) :
    (members graph groups r).length ≤ l.length :=
  ((nodup_range.filter _).subperm h).length_le

/-- The groups differ only in how they point to their roots. -/
structure SameGroups (graph : IndexedForwardGraph) (groups groups' : Groups) : Prop where
  asc : Ascending graph.size groups'.parent
  root : ∀ i, groupOf graph groups' i = groupOf graph groups i
  info : groups'.info = groups.info

theorem SameGroups.refl (h : Ascending graph.size groups.parent) : SameGroups graph groups groups :=
  ⟨h, fun _ => rfl, rfl⟩

theorem SameGroups.trans {g₁ g₂ g₃ : Groups} (h₁ : SameGroups graph g₁ g₂)
    (h₂ : SameGroups graph g₂ g₃) : SameGroups graph g₁ g₃ :=
  ⟨h₂.asc, fun i => (h₂.root i).trans (h₁.root i), h₂.info.trans h₁.info⟩

theorem findRoot_fst (groups : Groups) (i : ℕ) :
    (findRoot graph.size groups i).1 = groupOf graph groups i := rfl

theorem findRoot_same (h : Ascending graph.size groups.parent) (i : ℕ) :
    SameGroups graph groups (findRoot graph.size groups i).2 := by
  have hroot : forestRoot graph.size groups.parent i = groupOf graph groups i := rfl
  obtain ⟨hasc, hroots⟩ := h.compressPath hroot graph.size
  exact ⟨hasc, hroots, rfl⟩

/-- The anchor of a group is set exactly if its pattern says so. -/
def AnchorsOk (groups : Groups) : Prop :=
  ∀ i, (groups.info i).anchorRef ≠ none ↔ (groups.info i).pattern = kOutEWiseFusable

theorem AnchorsOk.update (h : AnchorsOk groups) {q : Group}
    (hq : q.anchorRef ≠ none ↔ q.pattern = kOutEWiseFusable) (parent : ℕ → Option ℕ) :
    AnchorsOk ⟨parent, Function.update groups.info p q⟩ :=
  (Function.forall_update_iff _ fun _ (q : Group) =>
    q.anchorRef ≠ none ↔ q.pattern = kOutEWiseFusable).mpr ⟨hq, fun i _ => h i⟩

/-- The numbers of nodes are large enough. -/
def CountsOk (graph : IndexedForwardGraph) (groups : Groups) : Prop :=
  ∀ r, (members graph groups r).length ≤ (groups.info r).numNodes

/-- **The invariant of the groups.** -/
structure GroupsOk (graph : IndexedForwardGraph) (depth : ℕ) (groups : Groups) : Prop where
  asc : Ascending graph.size groups.parent
  exits : SingleExit graph.size graph.consumers graph.escapes (groupOf graph groups)
  anchor : AnchorsOk groups
  rootRef : ∀ i, (groups.info i).rootRef = i
  anchored : ∀ i, (graph.node i).pattern = kOutEWiseFusable →
    (groups.info (groupOf graph groups i)).anchorRef = some i
  counted : CountsOk graph groups
  bounded : ∀ r, (members graph groups r).length ≤ max 1 depth

theorem GroupsOk.of_same {groups' : Groups} (h : GroupsOk graph depth groups)
    (hsame : SameGroups graph groups groups') : GroupsOk graph depth groups' := by
  have hroot : groupOf graph groups' = groupOf graph groups := funext hsame.root
  refine ⟨hsame.asc, ?_, ?_, ?_, ?_, ?_, ?_⟩ <;>
    simp only [AnchorsOk, CountsOk, members, hroot, hsame.info]
  exacts [h.exits, h.anchor, h.rootRef, h.anchored, h.counted, h.bounded]

theorem initGroups_ok (graph : IndexedForwardGraph) : GroupsOk graph depth (initGroups graph) := by
  have hasc : Ascending graph.size (initGroups graph).parent := fun i p hp => by cases hp
  have hid : groupOf graph (initGroups graph) = fun i => i :=
    funext fun i => forestRoot_of_none rfl
  have hmembers : ∀ r, (members graph (initGroups graph) r).length ≤ [r].length :=
    fun r => length_members_le fun j hj => by simp_all
  refine ⟨hasc, hid ▸ singleExit_id, fun i => ?_, fun i => rfl, fun i hi => ?_, hmembers,
    fun r => (hmembers r).trans (le_max_left 1 depth)⟩
  · by_cases hp : (graph.node i).pattern = kOutEWiseFusable <;> simp [initGroups, hp]
  · rw [hid]
    exact if_pos hi

/-! ## Merging -/

/-- What merging the group `c` into the group `p` does. -/
structure MergedInto (graph : IndexedForwardGraph) (groups groups' : Groups) (c p : ℕ) : Prop where
  asc : Ascending graph.size groups'.parent
  root : ∀ j, groupOf graph groups' j =
    if groupOf graph groups j = c then p else groupOf graph groups j
  other : ∀ i, i ≠ p → groups'.info i = groups.info i
  rootRef : ∀ i, (groups'.info i).rootRef = (groups.info i).rootRef
  anchor : AnchorsOk groups'
  plain : c = p ∨ (groups.info c).anchorRef = none →
    (groups'.info p).pattern = (groups.info p).pattern
  anchorRef : ∀ a, (groups.info c).anchorRef = some a ∨ (groups.info p).anchorRef = some a →
    (groups'.info p).anchorRef = some a
  numNodes : (groups'.info p).numNodes =
    (groups.info p).numNodes + if c = p then 0 else (groups.info c).numNodes

section

variable {groups' : Groups} {c : ℕ} (h : MergedInto graph groups groups' c p)
include h

/-- Nodes keep the anchors of their groups. -/
theorem MergedInto.carried (j : ℕ)
    (ha : (groups.info (groupOf graph groups j)).anchorRef = some a) :
    (groups'.info (groupOf graph groups' j)).anchorRef = some a := by
  rw [h.root]
  by_cases hc : groupOf graph groups j = c
  · rw [if_pos hc]
    exact h.anchorRef a (.inl (hc ▸ ha))
  · rw [if_neg hc]
    by_cases hp : groupOf graph groups j = p
    · rw [hp] at ha ⊢
      exact h.anchorRef a (.inr ha)
    · rw [h.other _ hp, ha]

theorem MergedInto.counted (hcount : CountsOk graph groups) : CountsOk graph groups' := by
  intro r
  by_cases hr : r = p
  · have hsub : members graph groups' r ⊆
        members graph groups p ++ if c = p then [] else members graph groups c := by
      intro j
      simp only [mem_members, h.root, mem_append]
      grind
    refine (length_members_le hsub).trans ?_
    rw [hr, h.numNodes, length_append]
    refine add_le_add (hcount p) ?_
    split_ifs
    · exact le_refl 0
    · exact hcount c
  · rw [h.other r hr]
    refine (length_members_le fun j => ?_).trans (hcount r)
    simp only [mem_members, h.root]
    grind

end

theorem larger_of_le {p : OpPatternKind} (h : p ≤ kBroadcast) :
    kOutEWiseFusable.larger p = kOutEWiseFusable := by
  cases p <;> first | rfl | cases (by decide : ¬ _ ≤ kBroadcast) h

/-- **Merging succeeds** if an anchor moves only to a simple group. -/
theorem mergeFromTo_spec (hasc : Ascending graph.size groups.parent) (hanchor : AnchorsOk groups)
    {child parent c p : ℕ} (hc : groupOf graph groups child = c)
    (hp : groupOf graph groups parent = p) (hcp : c ≠ p → c < p ∧ p < graph.size)
    (hsimple : c ≠ p → (groups.info c).anchorRef ≠ none → (groups.info p).pattern ≤ kBroadcast) :
    ∃ groups', mergeFromTo graph.size groups child parent = some groups' ∧
      MergedInto graph groups groups' c p := by
  have h₁ := findRoot_same hasc child
  have h₂ := findRoot_same h₁.asc parent
  have hp' : groupOf graph (findRoot graph.size groups child).2 parent = p := by rw [h₁.root, hp]
  simp only [mergeFromTo, findRoot_fst, hc, hp']
  generalize hg : (findRoot graph.size (findRoot graph.size groups child).2 parent).2 = g at *
  have hsame : SameGroups graph groups g := h₁.trans h₂
  rw [hsame.info]
  by_cases hne : c = p
  · subst hne
    refine ⟨g, by rw [if_pos rfl], hsame.asc, fun j => ?_, fun i _ => by rw [hsame.info],
      fun i => by rw [hsame.info], fun i => by rw [hsame.info]; exact hanchor i,
      fun _ => by rw [hsame.info], fun a ha => by rw [hsame.info]; exact ha.elim id id,
      by simp [hsame.info]⟩
    rw [hsame.root]
    by_cases hj : groupOf graph groups j = c <;> simp [hj]
  · rw [if_neg hne]
    obtain ⟨hlt, hpn⟩ := hcp hne
    -- Both are roots, and the order of parents is kept.
    have hroot : ∀ i j, groupOf graph groups i = j → g.parent j = none := by
      intro i j hij
      rw [← hij, ← hsame.root]
      exact hsame.asc.parent_forestRoot i
    have hlink := hsame.asc.forestRoot_link (hroot child c hc) (hroot parent p hp) hlt hpn
    have hasc' := hsame.asc.update hlt hpn
    have hlink' : ∀ j, forestRoot graph.size (Function.update g.parent c (some p)) j =
        if groupOf graph groups j = c then p else groupOf graph groups j := by
      intro j
      rw [hlink j]
      simp only [← hsame.root]
      rfl
    have hrefs : ∀ {q : Group}, q.rootRef = (groups.info p).rootRef →
        ∀ i, (Function.update groups.info p q i).rootRef = (groups.info i).rootRef := fun hq =>
      (Function.forall_update_iff _ fun i (q : Group) => q.rootRef = (groups.info i).rootRef).mpr
        ⟨hq, fun _ _ => rfl⟩
    cases ha : (groups.info c).anchorRef with
    | none =>
      exact ⟨_, rfl, hasc', hlink', fun i hi => Function.update_of_ne hi .., hrefs rfl,
        hanchor.update (by simpa using hanchor p) _, fun _ => by simp, fun a => by simp [ha],
        by simp [hne]⟩
    | some anchor =>
      have hle : (groups.info p).pattern ≤ kBroadcast := hsimple hne (by simp [ha])
      have hpat : (groups.info c).pattern = kOutEWiseFusable := (hanchor c).mp (by simp [ha])
      have hnone : (groups.info p).anchorRef = none := by
        by_contra hsome
        rw [(hanchor p).mp hsome] at hle
        exact absurd hle (by decide)
      have hcombine : combinePattern kOutEWiseFusable (groups.info p).pattern =
          some kOutEWiseFusable := by
        rw [combinePattern, if_neg (fun h => h.2 hle), larger_of_le hle]
      simp only [hnone, hpat, hcombine, ne_eq, not_true_eq_false, if_false, map_some]
      exact ⟨_, rfl, hasc', hlink', fun i hi => Function.update_of_ne hi .., hrefs rfl,
        hanchor.update (by simp) _, fun h => by simp [hne, ha] at h, fun a => by simp [ha, hnone],
        by simp [hne]⟩

/-- What merging the groups of `nodes` into the group of `sink` does. -/
structure Fused (graph : IndexedForwardGraph) (groups : Groups) (sink : ℕ) (nodes : List ℕ)
    (groups' : Groups) : Prop where
  asc : Ascending graph.size groups'.parent
  merged : ∀ j, (∃ y ∈ nodes, groupOf graph groups j = groupOf graph groups y) →
    groupOf graph groups' j = groupOf graph groups sink
  kept : ∀ j, (¬ ∃ y ∈ nodes, groupOf graph groups j = groupOf graph groups y) →
    groupOf graph groups' j = groupOf graph groups j
  other : ∀ i, i ≠ groupOf graph groups sink → groups'.info i = groups.info i
  rootRef : ∀ i, (groups'.info i).rootRef = (groups.info i).rootRef
  anchor : AnchorsOk groups'
  plain : (∀ y ∈ nodes, groupOf graph groups y ≠ groupOf graph groups sink →
      (groups.info (groupOf graph groups y)).anchorRef = none) →
    (groups'.info (groupOf graph groups sink)).pattern =
      (groups.info (groupOf graph groups sink)).pattern
  carried : ∀ j a, (groups.info (groupOf graph groups j)).anchorRef = some a →
    (groups'.info (groupOf graph groups' j)).anchorRef = some a
  counted : CountsOk graph groups'

/-- A node that may be fused into the group of `sink`: its group is below that group, and only
the group `a` may have an anchor, for a simple target. -/
structure Fusible (graph : IndexedForwardGraph) (groups : Groups) (sink a y : ℕ) : Prop where
  below : groupOf graph groups y ≠ groupOf graph groups sink →
    groupOf graph groups y < groupOf graph groups sink
  single : groupOf graph groups y ≠ groupOf graph groups sink →
    (groups.info (groupOf graph groups y)).anchorRef ≠ none →
    groupOf graph groups y = a ∧ (groups.info (groupOf graph groups sink)).pattern ≤ kBroadcast

section

variable {groups' : Groups} {sink : ℕ}

theorem Fused.nil (h : GroupsOk graph depth groups) (sink : ℕ) :
    Fused graph groups sink [] groups :=
  ⟨h.asc, by simp, by simp, by simp, by simp, h.anchor, by simp, by simp, h.counted⟩

section

variable (h : Fused graph groups sink nodes groups')
include h

theorem Fused.root_sink : groupOf graph groups' sink = groupOf graph groups sink := by
  by_cases hm : ∃ y ∈ nodes, groupOf graph groups sink = groupOf graph groups y
  · exact h.merged sink hm
  · exact h.kept sink hm

/-- A group that is not merged yet is as it was. -/
theorem Fused.kept_of_ne (hne : groupOf graph groups' y ≠ groupOf graph groups sink) :
    (¬ ∃ z ∈ nodes, groupOf graph groups y = groupOf graph groups z) ∧
      groupOf graph groups' y = groupOf graph groups y := by
  have hnew : ¬ ∃ z ∈ nodes, groupOf graph groups y = groupOf graph groups z :=
    fun hz => hne (h.merged y hz)
  exact ⟨hnew, h.kept y hnew⟩

theorem Fused.concat {groups'' : Groups}
    (hmerge : MergedInto graph groups' groups'' (groupOf graph groups' y)
      (groupOf graph groups sink)) :
    Fused graph groups sink (nodes ++ [y]) groups'' := by
  refine ⟨hmerge.asc, fun j hj => ?_, fun j hj => ?_, fun i hi => ?_, fun i => ?_,
    hmerge.anchor, fun hplain => ?_, fun j a ha => hmerge.carried j (h.carried j a ha),
    hmerge.counted h.counted⟩
  · rw [hmerge.root]
    by_cases hj' : ∃ y ∈ nodes, groupOf graph groups j = groupOf graph groups y
    · rw [h.merged j hj', ite_self]
    · obtain ⟨z, hz, hjz⟩ := hj
      have hzy : z = y := by
        rcases mem_append.mp hz with hz | hz
        · exact absurd ⟨z, hz, hjz⟩ hj'
        · exact mem_singleton.mp hz
      subst hzy
      rw [h.kept j hj', h.kept z (by rwa [← hjz]), if_pos hjz]
  · have hj' : ¬ ∃ y ∈ nodes, groupOf graph groups j = groupOf graph groups y :=
      fun ⟨z, hz, hjz⟩ => hj ⟨z, mem_append_left _ hz, hjz⟩
    rw [hmerge.root, h.kept j hj']
    by_cases hjy : groupOf graph groups j = groupOf graph groups' y
    · by_cases hm : groupOf graph groups' y = groupOf graph groups sink
      · rw [if_pos hjy, hjy, hm]
      · rw [(h.kept_of_ne hm).2] at hjy
        exact absurd ⟨y, by simp, hjy⟩ hj
    · rw [if_neg hjy]
  · rw [hmerge.other i hi, h.other i hi]
  · rw [hmerge.rootRef, h.rootRef]
  · rw [hmerge.plain, h.plain (forall_mem_append.mp hplain).1]
    by_cases hm : groupOf graph groups' y = groupOf graph groups sink
    · exact .inl hm
    · have hkept := (h.kept_of_ne hm).2
      rw [hkept] at hm ⊢
      rw [h.other _ hm]
      exact .inr (hplain y (by simp) hm)

end

variable (hok : GroupsOk graph depth groups) (hsink : sink < graph.size)
  (hnodes : ∀ y ∈ nodes, Fusible graph groups sink a y)
include hok hsink hnodes

/-- **One more node is fused** without a failing check. -/
theorem Fused.step (hy : Fusible graph groups sink a y)
    (h : Fused graph groups sink nodes groups') :
    ∃ groups'', mergeFromTo graph.size groups' y sink = some groups'' ∧
      Fused graph groups sink (nodes ++ [y]) groups'' := by
  have hlt : groupOf graph groups sink < graph.size := hok.asc.forestRoot_lt hsink
  obtain ⟨g, hg, hmerge⟩ := mergeFromTo_spec h.asc h.anchor rfl h.root_sink
    (fun hm => by
      obtain ⟨-, hkept⟩ := h.kept_of_ne hm
      rw [hkept] at hm ⊢
      exact ⟨hy.below hm, hlt⟩)
    (fun hm ha => by
      obtain ⟨hnew, hkept⟩ := h.kept_of_ne hm
      rw [hkept] at hm ha
      rw [h.other _ hm] at ha
      obtain ⟨hya, hle⟩ := hy.single hm ha
      -- This anchor is the first one, so that the pattern of the target has not changed.
      rw [h.plain fun z hz hne => ?_]
      · exact hle
      · by_contra hza
        exact hnew ⟨z, hz, hya.trans ((hnodes z hz).single hne hza).1.symm⟩)
  exact ⟨g, hg, h.concat hmerge⟩

/-- A whole region is fused. -/
theorem Fused.run :
    ∃ groups', nodes.foldlM (fun groups x => mergeFromTo graph.size groups x sink) groups =
        some groups' ∧ Fused graph groups sink nodes groups' := by
  obtain ⟨g, hg, -, hfused⟩ := exists_foldlM (fun pre g =>
      (∀ y ∈ pre, Fusible graph groups sink a y) ∧ Fused graph groups sink pre g)
    (fun pre y hy g h => by
      obtain ⟨g', hg', hfused⟩ := h.2.step hok hsink h.1 (hnodes y hy)
      exact ⟨g', hg', forall_mem_append.mpr ⟨h.1, forall_mem_singleton.mpr (hnodes y hy)⟩, hfused⟩)
    ⟨by simp, Fused.nil hok sink⟩
  exact ⟨g, hg, hfused⟩

end

/-! ## Fusion -/

section

variable {src sink : ℕ}

/-- A node strictly below a post-dominator. -/
structure Inner (graph : IndexedForwardGraph) (sink y : ℕ) : Prop where
  lt : y < graph.size
  dominated : Dominates graph sink y
  ne : y ≠ sink

theorem Inner.below (h : Inner graph sink y) : y < sink := by
  have hle := (h.dominated.le graph.upward).1
  have hne := h.ne
  omega

/-- A region below a post-dominator that all ways on lead through. -/
structure Region (graph : IndexedForwardGraph) (sink : ℕ) (R : ℕ → Prop) : Prop where
  inner : ∀ y, R y → y ≠ sink → Inner graph sink y
  closed : ∀ y, R y → y ≠ sink → ∀ z ∈ graph.consumers y, R z

/-- The root of a node of a region is in the region, or the root of the post-dominator. -/
theorem Region.groupOf_mem (hR : Region graph sink R) (hok : GroupsOk graph depth groups) (hy : R y)
    (hne : y ≠ sink) (hroot : groupOf graph groups y ≠ groupOf graph groups sink) :
    R (groupOf graph groups y) ∧ groupOf graph groups y ≠ sink := by
  have hregion : ∀ x, R x ∧ x ≠ sink → x < graph.size ∧
      ∀ z ∈ graph.consumers x, z = sink ∨ R z ∧ z ≠ sink := by
    rintro x ⟨hx, hxs⟩
    refine ⟨(hR.inner x hx hxs).lt, fun z hz => ?_⟩
    by_cases hzs : z = sink
    · exact .inl hzs
    · exact .inr ⟨hR.closed x hx hxs z hz, hzs⟩
  exact (hok.exits.name_mem_region graph.upward hregion ⟨hy, hne⟩).resolve_right hroot

/-- All ways on from a node of a region lead to the post-dominator. -/
theorem Region.sink_mem (hR : Region graph sink R) (hy : R y) : R sink := by
  refine graph.upward.induction (P := fun y => R y → R sink) (fun y ih hy => ?_) y hy
  by_cases hys : y = sink
  · rwa [hys] at hy
  · have hinner := hR.inner y hy hys
    obtain ⟨z, hz⟩ := exists_mem_of_ne_nil _ (hinner.dominated.inner hys).2.1
    exact ih z hz (hR.closed y hy hys z hz)

/-- There is room for what lies between two nodes. -/
structure Room (graph : IndexedForwardGraph) (depth : ℕ) (groups : Groups) (src sink : ℕ)
    (nodes : List ℕ) : Prop where
  start : src ∈ nodes
  closed : ∀ y ∈ nodes, ∀ z ∈ graph.consumers y, z = sink ∨ z ∈ nodes
  fits : (members graph groups (groupOf graph groups sink)).length +
    (nodes.map fun x => (members graph groups x).length).sum ≤ max 1 depth

theorem Room.of_same {groups' : Groups} (h : Room graph depth groups src sink nodes)
    (hsame : SameGroups graph groups groups') : Room graph depth groups' src sink nodes :=
  ⟨h.start, h.closed, by simpa only [members, hsame.root] using h.fits⟩

variable (hok : GroupsOk graph depth groups)
include hok

/-- **Committing a fusion keeps the invariant** of the groups. -/
theorem commitFuse_spec (hne : src ≠ sink) (hsrc : src < graph.size) (hsink : sink < graph.size)
    (hR : Region graph sink R) (hRsrc : R src)
    (hfusible : ∀ y, R y → y ≠ sink → Fusible graph groups sink a y)
    (hroom : Room graph depth groups src sink nodes) (hnodes : ∀ y, R y → y ≠ sink → y ∈ nodes) :
    ∃ groups', commitFuse graph groups src sink = some groups' ∧ GroupsOk graph depth groups' := by
  have hclosed : ∀ y, R y → (y == sink) = false → false = false →
      ∀ z ∈ graph.consumers y, R z := fun y hy hys _ => hR.closed y hy (by simpa using hys)
  -- The walk meets no failing check.
  have hstep : ∀ g y, (∃ nodes, (∀ z ∈ nodes, Fusible graph groups sink a z) ∧
        Fused graph groups sink nodes g) → R y → (y == sink) = false →
      ∃ g', mergeFromTo graph.size g y sink = some g' ∧
        ∃ nodes, (∀ z ∈ nodes, Fusible graph groups sink a z) ∧
          Fused graph groups sink nodes g' := by
    rintro g y ⟨nodes, hnodes, hfused⟩ hy hys
    have hy' := hfusible y hy (by simpa using hys)
    obtain ⟨g', hg', hfused'⟩ := hfused.step hok hsink hnodes hy'
    exact ⟨g', hg', _, forall_mem_append.mpr ⟨hnodes, forall_mem_singleton.mpr hy'⟩, hfused'⟩
  obtain ⟨st, hst, -⟩ : ∃ st, walkFrom graph.consumers (· == sink) (fun _ => false)
      (fun groups x => mergeFromTo graph.size groups x sink) graph.size src (groups, []) =
        some st ∧ _ :=
    exists_walkFrom graph.upward hclosed hstep hsrc (Nat.le_add_right graph.size src) hRsrc
      ⟨[], by simp, Fused.nil hok sink⟩
  obtain ⟨new, hwalked, -⟩ := walkFrom_spec hclosed hRsrc hst
  have hnew : ∀ y ∈ new, R y ∧ y ≠ sink :=
    fun y hy => ⟨(hwalked.inside y hy).2, by simpa using (hwalked.inside y hy).1⟩
  -- The nodes it has entered are fused.
  obtain ⟨g, hg, hfused⟩ := Fused.run hok hsink fun y hy => hfusible y (hnew y hy).1 (hnew y hy).2
  cases hg.symm.trans hwalked.run
  refine ⟨st.1, by simp [commitFuse, hne, hst], hfused.asc, ?_, hfused.anchor, fun i => ?_,
    fun i hi => hfused.carried i i (hok.anchored i hi), hfused.counted, fun r => ?_⟩
  · have hregion : ∀ x, x ∈ new → x < graph.size ∧ ¬ graph.escapes x ∧ graph.consumers x ≠ [] ∧
        ∀ y ∈ graph.consumers x, y = sink ∨ y ∈ new := by
      intro x hx
      have hinner := hR.inner x (hnew x hx).1 (hnew x hx).2
      obtain ⟨hesc, hsucc, -⟩ := hinner.dominated.inner hinner.ne
      refine ⟨hinner.lt, hesc, hsucc, fun z hz => ?_⟩
      simpa [hwalked.entered] using hwalked.closed x hx rfl z hz
    have hbelow : ∀ x, x ∈ new → groupOf graph groups x ≤ groupOf graph groups sink := by
      intro x hx
      by_cases heq : groupOf graph groups x = groupOf graph groups sink
      · exact heq.le
      · exact ((hfusible x (hnew x hx).1 (hnew x hx).2).below heq).le
    convert hok.exits.merge graph.upward hregion hbelow using 1
    funext j
    split_ifs with hj
    · rw [hfused.merged j hj]
    · rw [hfused.kept j hj]
  · rw [hfused.rootRef, hok.rootRef]
  · by_cases hr : r = groupOf graph groups sink
    · rw [hr]
      refine (length_members_le (l := members graph groups (groupOf graph groups sink) ++
        nodes.flatMap (members graph groups)) fun j hj => ?_).trans ?_
      · rw [mem_members] at hj
        simp only [mem_append, mem_flatMap, mem_members]
        by_cases hm : ∃ y ∈ new, groupOf graph groups j = groupOf graph groups y
        · obtain ⟨y, hy, hjy⟩ := hm
          by_cases hold : groupOf graph groups y = groupOf graph groups sink
          · exact .inl ⟨hj.1, hjy.trans hold⟩
          · obtain ⟨hroot, hne⟩ := hR.groupOf_mem hok (hnew y hy).1 (hnew y hy).2 hold
            exact .inr ⟨_, hnodes _ hroot hne, hj.1, hjy⟩
        · exact .inl ⟨hj.1, hfused.kept j hm ▸ hj.2⟩
      · rw [length_append, length_flatMap]
        exact hroom.fits
    · refine (length_members_le fun j hj => ?_).trans (hok.bounded r)
      rw [mem_members] at hj ⊢
      have hm := fun hm => hr (hj.2.symm.trans (hfused.merged j hm))
      exact ⟨hj.1, hfused.kept j hm ▸ hj.2⟩

/-- What a path check has found: the groups are the same, and if it succeeds, then all nodes on
the way meet the condition. -/
theorem checkPath_spec (hext : (graph.node src).externRef = false) (hne : src ≠ sink)
    (fcond : OpPatternKind → Bool → Bool) :
    ∃ ok groups', checkPath graph groups src sink fcond = some (ok, groups') ∧
      SameGroups graph groups groups' ∧
      (ok = true → ∃ on : List ℕ, (∀ z ∈ graph.consumers src, z ∈ on) ∧
        (∀ y ∈ on, y ≠ sink → ∀ z ∈ graph.consumers y, z ∈ on) ∧
        ∀ y ∈ on, fcond (groups.info (groupOf graph groups y)).pattern (y == sink) = true) := by
  rw [checkPath, if_neg (by simp [hext, hne])]
  split
  · next st hst =>
      obtain ⟨new, hwalked, hstart⟩ := walked_of_foldlM
        (fun z _ _ _ => walkFrom_spec (fun _ _ _ _ _ _ => trivial) trivial) hst
      have hmem : ∀ y, y ∈ st.2 ↔ y ∈ new := by simp [hwalked.entered]
      -- Every node was checked with the roots and the patterns of the start.
      obtain ⟨hsame, hall⟩ := foldlM_run (p := []) (fun pre g => SameGroups graph groups g ∧
          ∀ y ∈ pre, fcond (groups.info (groupOf graph groups y)).pattern (y == sink) = true)
        (fun pre y _ g g' ⟨hg, hall⟩ hm => by
          have hfind := hg.trans (findRoot_same hg.asc y)
          simp only [checkNode, findRoot_fst, hg.root, hfind.info] at hm
          split_ifs at hm with hcond
          cases hm
          exact ⟨hfind, forall_mem_append.mpr ⟨hall, forall_mem_singleton.mpr hcond⟩⟩)
        ⟨.refl hok.asc, by simp⟩ hwalked.run
      refine ⟨true, st.1, rfl, hsame, fun _ => ⟨new, fun z hz => ?_, fun y hy hys z hz => ?_, hall⟩⟩
      · simpa [hmem] using hstart z hz
      · simpa [hmem] using hwalked.closed y hy (by simpa using hys) z hz
  · exact ⟨false, groups, rfl, .refl hok.asc, by simp⟩

/-- **A fusion keeps the invariant** of the groups if the groups between the two nodes have no
anchor, and the target is simple where the first node brings an anchor. -/
theorem tryFuse_spec (hroom : Room graph depth groups src sink nodes)
    (hsrc : Inner graph sink src) (hsink : sink < graph.size) {fcond : OpPatternKind → Bool → Bool}
    (hbetween : fcond kOutEWiseFusable false ≠ true)
    (htarget : (groups.info src).anchorRef ≠ none → ∀ kind, fcond kind true = true →
      kind ≤ kBroadcast) :
    ∃ groups', tryFuse graph groups src sink fcond = some groups' ∧
      GroupsOk graph depth groups' := by
  have hext : (graph.node src).externRef = false := by
    simpa [IndexedForwardGraph.escapes] using (hsrc.dominated.inner hsrc.ne).1
  obtain ⟨ok, g, hcheck, hsame, hpath⟩ := checkPath_spec hok hext hsrc.ne fcond
  have hok' := hok.of_same hsame
  cases ok with
  | false => exact ⟨g, by simp [tryFuse, hcheck], hok'⟩
  | true =>
    obtain ⟨on, hstart, hnext, hcond⟩ := hpath rfl
    have hR : Region graph sink fun y => (y = src ∨ y ∈ on) ∧ y < graph.size ∧
        Dominates graph sink y ∧ (y = sink ∨ y ∈ nodes) := by
      refine ⟨fun y hy hys => ⟨hy.2.1, hy.2.2.1, hys⟩, fun y hy hys z hz => ⟨?_, ?_, ?_, ?_⟩⟩
      · rcases hy.1 with rfl | hon
        · exact .inr (hstart z hz)
        · exact .inr (hnext y hon hys z hz)
      · exact (graph.upward y z hz).2
      · exact (hy.2.2.1.inner hys).2.2 z hz
      · exact hroom.closed y (hy.2.2.2.resolve_left hys) z hz
    have hRsrc : (src = src ∨ src ∈ on) ∧ src < graph.size ∧ Dominates graph sink src ∧
        (src = sink ∨ src ∈ nodes) := ⟨.inl rfl, hsrc.lt, hsrc.dominated, .inr hroom.start⟩
    have hsinkOn : sink ∈ on := ((hR.sink_mem hRsrc).1).resolve_left (Ne.symm hsrc.ne)
    obtain ⟨g', hg', hok''⟩ := commitFuse_spec (a := src) hok' hsrc.ne hsrc.lt hsink hR hRsrc
      (fun y hy hys => by
        refine ⟨fun hroot => ?_, fun hroot ha => ?_⟩
        · obtain ⟨hmem, hne⟩ := hR.groupOf_mem hok' hy hys hroot
          exact (hR.inner _ hmem hne).below.trans_le (hok'.exits.le sink)
        · obtain ⟨hmem, hne⟩ := hR.groupOf_mem hok' hy hys hroot
          have hself := hok'.exits.idem y
          rw [hsame.root, hsame.root] at hself
          -- An anchor that the check has met would have failed it.
          have hroot' : groupOf graph g y = src := by
            refine hmem.1.resolve_right fun hon => ?_
            have hc := hcond _ hon
            rw [hsame.root, hself, beq_false_of_ne (by rwa [hsame.root] at hne)] at hc
            rw [hsame.info, hsame.root] at ha
            rw [(hok.anchor _).mp ha] at hc
            exact hbetween hc
          refine ⟨hroot', ?_⟩
          have hc := hcond sink hsinkOn
          rw [beq_self_eq_true] at hc
          rw [hroot', hsame.info] at ha
          rw [hsame.info, hsame.root]
          exact htarget ha _ hc)
      (hroom.of_same hsame) fun y hy hys => hy.2.2.2.resolve_left hys
    exact ⟨g', by simp [tryFuse, hcheck, hg'], hok''⟩

theorem countFusedNodesWithNewChild_spec (hsrc : Inner graph sink src) :
    ∃ count groups', countFusedNodesWithNewChild graph groups src sink = some (count, groups') ∧
      SameGroups graph groups groups' ∧
      (count ≤ depth → ∃ nodes, Room graph depth groups src sink nodes) := by
  obtain ⟨st, hst, -⟩ : ∃ st, walkFrom graph.consumers (· == sink) (fun _ => false)
      (fun sum x => some (sum + ((findRoot graph.size groups sink).2.info x).numNodes))
        graph.size src (0, []) = some st ∧ _ :=
    exists_walkFrom (I := fun _ => True) graph.upward
      (fun _ _ _ _ _ _ => trivial) (fun s y _ _ _ => ⟨_, rfl, trivial⟩) hsrc.lt
      (Nat.le_add_right graph.size src) trivial trivial
  refine ⟨((findRoot graph.size groups sink).2.info (groupOf graph groups sink)).numNodes + st.1,
    _, ?_, findRoot_same hok.asc sink, fun hcount => ?_⟩
  · simp [countFusedNodesWithNewChild, hsrc.ne, hst, findRoot_fst]
  · obtain ⟨new, hwalked, hstart⟩ := walkFrom_spec
      (fun _ _ _ _ _ _ => trivial) trivial hst
    have hmem : ∀ y, y ∈ st.2 ↔ y ∈ new := by simp [hwalked.entered]
    refine ⟨new, by simpa [hsrc.ne, hmem] using hstart, fun y hy z hz => ?_, ?_⟩
    · simpa [hmem] using hwalked.closed y hy rfl z hz
    · have hrun : some (new.map fun x => (groups.info x).numNodes).sum = some st.1 := by
        rw [← hwalked.run, sum_eq_foldl, foldl_map]
        exact (foldlM_pure (m := Option)).symm
      have hle := sum_le_sum fun x (_ : x ∈ new) => hok.counted x
      rw [← some.inj hrun] at hcount
      exact (add_le_add (hok.counted _) hle).trans (hcount.trans (le_max_right 1 depth))

/-! ## The phases -/

theorem GroupsOk.no_anchor {i : ℕ}
    (h : (groups.info i).pattern ≠ kOutEWiseFusable) : ¬ (groups.info i).anchorRef ≠ none :=
  fun ha => h ((hok.anchor i).mp ha)

section

variable (hroom : Room graph depth groups src sink nodes) (hsrc : Inner graph sink src)
  (hsink : sink < graph.size)
include hroom hsrc hsink

theorem fuseIntoTuple_spec :
    ∃ groups', fuseIntoTuple graph groups src sink = some groups' ∧
      GroupsOk graph depth groups' := by
  have hok' := hok.of_same (findRoot_same hok.asc sink)
  have hroom' := hroom.of_same (findRoot_same hok.asc sink)
  simp only [fuseIntoTuple]
  split
  · exact ⟨groups, rfl, hok⟩
  · next hpat =>
      split
      · exact ⟨_, rfl, hok'⟩
      · split
        · refine tryFuse_spec hok' hroom' hsrc hsink (by decide) fun ha => ?_
          refine absurd ha (hok'.no_anchor fun hout => hpat fun hle => ?_)
          exact absurd (hout ▸ hle) (by decide)
        · exact ⟨_, rfl, hok'⟩

theorem fuseIntoParent_spec
        (hother : (groups.info src).pattern ≠ kOpaque) (dom : DomNode) (phase : ℕ) :
    ∃ groups', fuseIntoParent graph dom phase groups src sink = some groups' ∧
      GroupsOk graph depth groups' := by
  have h₁ := findRoot_same hok.asc src
  have h₂ := h₁.trans (findRoot_same h₁.asc sink)
  have hok' := hok.of_same h₂
  have hroom' := hroom.of_same h₂
  rw [← h₂.info] at hother
  simp only [fuseIntoParent]
  generalize (findRoot graph.size (findRoot graph.size groups src).2 sink).2 = g at *
  split_ifs with hroot htuple hout hphase hbroad hdom hinj hphase hreduce
  all_goals try exact ⟨g, rfl, hok'⟩
  · refine tryFuse_spec hok' hroom' hsrc hsink (by decide) fun _ kind hkind => ?_
    simpa using hkind
  · exact tryFuse_spec hok' hroom' hsrc hsink (by decide) fun ha => absurd ha (hok'.no_anchor hout)
  · exact tryFuse_spec hok' hroom' hsrc hsink (by decide) fun ha => absurd ha (hok'.no_anchor hout)
  · -- All other patterns are opaque.
    exfalso
    generalize (g.info src).pattern = pattern at *
    cases pattern with
    | kElemWise | kBroadcast => exact hbroad (by decide)
    | kInjective | kTuple => simp at hinj
    | kCommReduce => exact hreduce rfl
    | kOutEWiseFusable => exact hout rfl
    | kOpaque => exact hother rfl

end

theorem fuseNode_spec (hsrc : src < graph.size) (phase : ℕ) :
    ∃ groups', fuseNode graph (postDom graph) depth phase groups src = some groups' ∧
      GroupsOk graph depth groups' := by
  rw [fuseNode]
  split
  · exact ⟨groups, rfl, hok⟩
  · next hother =>
      split
      · exact ⟨groups, rfl, hok⟩
      · next domParent hparent =>
          obtain ⟨hlt, hext, hdom⟩ :=
            postDom_dominates graph src domParent (Nat.zero_le src) hparent
          have hinner : Inner graph domParent src := ⟨hsrc, hdom, hlt.ne⟩
          have hsink : domParent < graph.size := (hdom.le graph.upward).2 hsrc
          obtain ⟨count, g, hcount, hsame, hroom⟩ := countFusedNodesWithNewChild_spec hok hinner
          have hok' := hok.of_same hsame
          rw [← hsame.info] at hother
          simp only [hext, hcount, Bool.false_eq_true, if_false, some_bind_eq]
          split_ifs with hdepth
          · exact ⟨g, rfl, hok'⟩
          · obtain ⟨nodes, hroom⟩ := hroom (Nat.le_of_not_lt hdepth)
            exact fuseIntoTuple_spec hok' (hroom.of_same hsame) hinner hsink
          · obtain ⟨nodes, hroom⟩ := hroom (Nat.le_of_not_lt hdepth)
            exact fuseIntoParent_spec hok' (hroom.of_same hsame) hinner hsink hother _ _

end

/-- **A partition succeeds**, and keeps the invariant of the groups. -/
theorem partition_ok (graph : IndexedForwardGraph) (optLevel : ℤ) (maxFuseDepth : ℕ) :
    ∃ groups, partition graph optLevel maxFuseDepth = some groups ∧
      GroupsOk graph maxFuseDepth groups := by
  rw [partition]
  split
  · exact ⟨_, rfl, initGroups_ok graph⟩
  · refine exists_foldlM_invariant (GroupsOk graph maxFuseDepth) (fun phase _ groups hok => ?_)
      (initGroups_ok graph)
    exact exists_foldlM_invariant (GroupsOk graph maxFuseDepth)
      (fun nid hnid groups hok => fuseNode_spec hok (mem_range.mp hnid) _) hok

/-- **Every fused group has exactly one exit, its root**: the consumers of all other nodes of
the group are in the group, and contracting the groups leaves no cycle. -/
theorem partition_single_exit (graph : IndexedForwardGraph) (optLevel : ℤ) (maxFuseDepth : ℕ) :
    ∃ groups, partition graph optLevel maxFuseDepth = some groups ∧
      (∀ i < graph.size, let root := (groups.info (groupOf graph groups i)).rootRef
        root < graph.size ∧ groupOf graph groups root = groupOf graph groups i ∧
        (∀ j < graph.size, groupOf graph groups j = groupOf graph groups i →
          (IsExit graph.consumers graph.escapes (groupOf graph groups) j ↔ j = root)) ∧
        (i ≠ root → ∀ y ∈ graph.consumers i, groupOf graph groups y = groupOf graph groups i)) ∧
      ∀ g, ¬ Relation.TransGen
        (GroupEdge graph.size graph.consumers (groupOf graph groups)) g g := by
  obtain ⟨groups, hrun, hok⟩ := partition_ok graph optLevel maxFuseDepth
  refine ⟨groups, hrun, fun i hi => ?_, fun g => hok.exits.acyclic graph.upward g⟩
  rw [hok.rootRef]
  refine ⟨hok.asc.forestRoot_lt hi, hok.exits.idem i, fun j hj hij => ?_, fun hne => ?_⟩
  · rw [hok.exits.isExit_iff graph.upward hj, hij]
    exact eq_comm
  · exact (hok.exits.inner i hi (Ne.symm hne)).2.2

/-- **A partition meets no failing check**, and a group has at most one `kOutEWiseFusable`
operator, its anchor. -/
theorem partition_anchor (graph : IndexedForwardGraph) (optLevel : ℤ) (maxFuseDepth : ℕ) :
    ∃ groups, partition graph optLevel maxFuseDepth = some groups ∧
      ∀ i, (graph.node i).pattern = kOutEWiseFusable →
        (groups.info (groupOf graph groups i)).anchorRef = some i ∧
        ∀ j, (graph.node j).pattern = kOutEWiseFusable →
          groupOf graph groups j = groupOf graph groups i → j = i := by
  obtain ⟨groups, hrun, hok⟩ := partition_ok graph optLevel maxFuseDepth
  refine ⟨groups, hrun, fun i hi => ⟨hok.anchored i hi, fun j hj hij => ?_⟩⟩
  have hanchor := hok.anchored j hj
  rw [hij, hok.anchored i hi] at hanchor
  exact (some.inj hanchor).symm

end Pruner.Relay
