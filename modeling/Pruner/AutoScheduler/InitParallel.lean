import Pruner.AutoScheduler.AttachInvariant

/-!
# Annotating parallel loops

`InitParallel` of the sketch policy (`sketch_policy_rules.cc`) fuses the outermost loops of
every root stage and makes the result parallel.  It stops at a loop that other stages are
attached to.  When the loops collected so far have the total extent one, it also goes on with
the attached stages and with the loops behind the attach point, and after that it still makes
the collected loops parallel: the parallel loops below them are nested.

At a loop that cannot be fused and has stages attached, nothing has been collected; the rule then
goes on in the same way, but makes nothing parallel around what it goes on with.  Where the loops
that it has collected at an attach point never have the total extent one, every stage gets at most
one parallel loop, and none of them is inside of another one.

## Main definitions

* `collectParallel`, `annotateParallel`, `initParallel` — the rule.
* `State.Encloses` — a loop around another one, in its stage or through `compute_at`.
* `State.Reaches`, `State.AttachedDeep` — the calls made before anything has been collected, and
  the condition on the attach points they come to.
* `initParallel_not_enclosed` — **no nested parallel loops** under that condition.
-/

namespace Pruner.AutoScheduler

open Lib Tir Te List Option Primitive Relation

/-! ## The rule -/

def getExtent (it : Iterator) : ℤ := it.constExtent.getD (-1)

/-- A loop that the rule may fuse. -/
def Iterator.fusable (it : Iterator) : Bool := it.iterKind ≠ .kReduction && it.ann = .kNone

/-- The loop of `annotate_parallel` over the iterators from `iterId` on: the positions to fuse,
their degree, and the position it stops at. -/
def collectParallel (limit : ℤ) (attached : ℕ → Bool) :
    List Iterator → ℕ → List ℕ → ℤ → List ℕ × ℤ × ℕ
  | [], iterId, toFuse, degree => (toFuse, degree, iterId)
  | it :: rest, iterId, toFuse, degree =>
    if it.fusable then
      let toFuse := toFuse ++ [iterId]
      let degree := degree * getExtent it
      if limit < degree ∨ attached iterId then (toFuse, degree, iterId)
      else collectParallel limit attached rest (iterId + 1) toFuse degree
    else (toFuse, degree, iterId)

/-- Fuse the collected loops and make the result parallel; it is where the first of them was. -/
def fuseAndParallel (dag : ComputeDAG) (st : State) (stageId : ℤ) : List ℕ → Option State
  | [] => some st
  | [it] => (parallel stageId it).apply dag st
  | it :: its => do
    let st ← (fuse stageId (it :: its)).apply dag st
    (parallel stageId it).apply dag st

/-- `annotate_parallel`; the fuel bounds the depth of the recursion. -/
def annotateParallel (dag : ComputeDAG) (numCores : ℤ) : ℕ → State → ℤ → ℕ → Option State
  | 0, _, _, _ => none
  | fuel + 1, st, stageId, iterOffset => do
    let stage ← atIndex st.stages stageId
    let (toFuse, degree, iterId) := collectParallel (numCores * 16)
      (fun k => (st.attachMap.iterToAttachedStages (stageId, ↑k)).isSome)
      (stage.iters.drop iterOffset) iterOffset [] 1
    match st.attachMap.iterToAttachedStages (stageId, ↑iterId) with
    | some attached =>
      if degree = 1 then
        let st ← attached.foldlM (fun st s => annotateParallel dag numCores fuel st s 0) st
        let st ← annotateParallel dag numCores fuel st stageId (iterId + 1)
        fuseAndParallel dag st stageId toFuse
      else fuseAndParallel dag st stageId toFuse
    | none => fuseAndParallel dag st stageId toFuse

/-- The stages `InitParallel` starts from. -/
def Stage.parallelRoot (stage : Stage) : Bool :=
  stage.computeAt = .kRoot && stage.opType ≠ .kPlaceholder

/-- `InitParallel::Apply`. -/
def initParallel (dag : ComputeDAG) (numCores : ℤ) (fuel : ℕ) (st : State) : Option State :=
  (range st.stages.length).foldlM (fun st (s : ℕ) => do
    let stage ← st.stages[s]?
    if stage.parallelRoot then annotateParallel dag numCores fuel st s 0 else some st) st

/-! ## Nested loops -/

/-- A loop around a stage: the stage is computed at it or inside of it. -/
inductive State.Around (st : State) : IterKey → ℤ → Prop where
  | attached {s i k t : ℤ} {stage : Stage} (hstage : atIndex st.stages t = some stage)
      (hat : stage.computeAt = .kIter) (htarget : st.attachMap.stageToAttachIter t = some (s, k))
      (hle : i ≤ k) : Around st (s, i) t
  | through {key : IterKey} {s k t : ℤ} {stage : Stage}
      (hstage : atIndex st.stages t = some stage) (hat : stage.computeAt = .kIter)
      (htarget : st.attachMap.stageToAttachIter t = some (s, k)) (h : Around st key s) :
      Around st key t

/-- The first loop is around the second one, in its own stage or through `compute_at`. -/
def State.Encloses (st : State) (outer inner : IterKey) : Prop :=
  (outer.1 = inner.1 ∧ outer.2 < inner.2) ∨ st.Around outer inner.1

def State.ParallelAt (st : State) (key : IterKey) : Prop :=
  ∃ stage it, atIndex st.stages key.1 = some stage ∧ atIndex stage.iters key.2 = some it ∧
    it.ann = .kParallel

/-- The loops that can be fused among the one at a position and the next `m` ones. -/
def Stage.fusableIn (stage : Stage) (o m : ℕ) : List Iterator :=
  ((stage.iters.drop o).take (m + 1)).filter Iterator.fusable

namespace State

variable (st : State)

/-- The first stage is attached to a loop of the second one. -/
def AttachedTo (t s : ℤ) : Prop := ∃ k, st.attachMap.stageToAttachIter t = some (s, k)

/-- The attach map as the primitives keep it: its tables agree, the stages in it are computed at
loops that exist, and no stage is attached below itself. -/
structure AttachTree : Prop where
  exact : st.attachMap.Exact
  stage : ∀ t key, st.attachMap.stageToAttachIter t = some key →
    ∃ stage, atIndex st.stages t = some stage ∧ stage.computeAt = .kIter
  loop : ∀ t s k, st.attachMap.stageToAttachIter t = some (s, k) →
    ∃ stage it, atIndex st.stages s = some stage ∧ atIndex stage.iters k = some it
  acyclic : WellFounded st.AttachedTo

/-- The loop at a position, if there is one, cannot be fused. -/
def Skips (s : ℤ) (o : ℕ) : Prop :=
  ∀ stage it, atIndex st.stages s = some stage → stage.iters[o]? = some it → it.fusable = false

/-- The calls of `annotate_parallel` that are made before any loop has been collected: for the
root stages, and at an attach point whose loop cannot be fused for the stages attached there and
for the loops behind it. -/
inductive Reaches : ℤ → ℕ → Prop where
  | root {s : ℕ} {stage : Stage} (hstage : st.stages[s]? = some stage)
      (hroot : stage.parallelRoot = true) : Reaches s 0
  | attached {s t : ℤ} {o : ℕ} (h : Reaches s o) (hskip : st.Skips s o)
      (ht : st.attachMap.stageToAttachIter t = some (s, ↑o)) : Reaches t 0
  | behind {s t : ℤ} {o : ℕ} (h : Reaches s o) (hskip : st.Skips s o)
      (ht : st.attachMap.stageToAttachIter t = some (s, ↑o)) : Reaches s (o + 1)

/-- Where a call comes to an attach point and has collected loops, these do not have the total
extent one. -/
def AttachedDeep : Prop :=
  ∀ (s : ℤ) (o m : ℕ) (stage : Stage), st.Reaches s o → atIndex st.stages s = some stage →
    (∀ j < m, (∃ it, stage.iters[o + j]? = some it ∧ it.fusable = true) ∧
      st.attachMap.iterToAttachedStages (s, ↑(o + j)) = none) →
    (st.attachMap.iterToAttachedStages (s, ↑(o + m))).isSome = true →
    stage.fusableIn o m ≠ [] → ((stage.fusableIn o m).map getExtent).prod ≠ 1

end State

/-! ## Collecting loops -/

/-- What the collected loops are: `e` consecutive ones, all fusable, none but the last with an
attached stage.  The loop stops at the last of them or right behind it. -/
theorem collectParallel_spec (limit : ℤ) (attached : ℕ → Bool) (o : ℕ) (rest : List Iterator) :
    ∀ (front : List Iterator), (∀ it ∈ front, it.fusable = true) →
      (∀ k < front.length, attached (o + k) = false) →
      ∃ e m, collectParallel limit attached rest (o + front.length) (range' o front.length)
          (front.map getExtent).prod =
            (range' o e, (((front ++ rest).take e).map getExtent).prod, o + m) ∧
        m ≤ e ∧ e ≤ m + 1 ∧ e ≤ (front ++ rest).length ∧
        (∀ k < m, attached (o + k) = false) ∧
        ((front ++ rest).take (m + 1)).filter Iterator.fusable = (front ++ rest).take e := by
  induction rest with
  | nil =>
    intro front hfus hatt
    refine ⟨front.length, front.length, ?_, le_rfl, Nat.le_succ _, by simp, hatt, ?_⟩
    · simp [collectParallel]
    · rw [append_nil, take_of_length_le (Nat.le_succ _), filter_eq_self.mpr hfus, take_length]
  | cons it rest ih =>
    intro front hfus hatt
    have hfront : front.filter Iterator.fusable = front := filter_eq_self.mpr hfus
    have htake : front.take (front.length + 1) = front := take_of_length_le (Nat.le_succ _)
    by_cases hit : it.fusable = true
    · have hfus' : ∀ x ∈ front ++ [it], x.fusable = true := by
        simpa [or_imp, forall_and, hit] using hfus
      rw [collectParallel]
      dsimp only
      split_ifs with hstop
      · refine ⟨front.length + 1, front.length, ?_, Nat.le_succ _, le_rfl, by simp, hatt, ?_⟩
        · simp [range'_concat, take_append, htake]
        · simp [take_append, hfront, htake, hit]
      · have hatt' : ∀ k < (front ++ [it]).length, attached (o + k) = false := by
          intro k hk
          rcases Nat.lt_succ_iff_lt_or_eq.mp (by simpa using hk) with hk | rfl
          · exact hatt k hk
          · simpa using fun h => hstop (.inr h)
        have hpos : o + front.length + 1 = o + (front ++ [it]).length := by
          rw [length_append, length_singleton, Nat.add_assoc]
        obtain ⟨e, m, hscan, hrest⟩ := ih (front ++ [it]) hfus' hatt'
        refine ⟨e, m, ?_, by simpa using hrest⟩
        rw [hpos]
        simpa [range'_concat] using hscan
    · rw [collectParallel, if_neg hit]
      refine ⟨front.length, front.length, ?_, le_rfl, Nat.le_succ _, by simp, hatt, ?_⟩
      · simp
      · simp [take_append, hfront, htake, hit]

/-! ## Fusing and annotating -/

variable {key : IterKey} {n o : ℕ} (dag : ComputeDAG) {st : State} {s : ℕ} {stage : Stage}

theorem parallel_apply {k : ℕ} {it : Iterator} (hstage : st.stages[s]? = some stage)
    (hit : stage.iters[k]? = some it) (hann : it.ann = .kNone) :
    ∃ st', (parallel s k).apply dag st = some st' ∧
      st'.stages = st.stages.set s
        { stage with iters := stage.iters.set k { it with ann := .kParallel } } ∧
      st'.attachMap = st.attachMap := by
  have hnat : (s : ℤ).toNat? = some s := rfl
  simp [apply, step, State.iterAt, State.record, stepApplyToState,
    annotationToState, State.setStage, hnat, hstage, hit, hann]

theorem mapM_range'_atIndex {α : Type} (l : List α) (hn : o + n ≤ l.length) :
    ((range' o n).map Nat.cast).mapM (atIndex l) = some ((l.drop o).take n) := by
  rw [mapM_eq_some_iff, forall₂_iff_get]
  refine ⟨by simp; omega, fun i h₁ h₂ => ?_⟩
  have hi : o + i < l.length := by
    simp only [length_map, length_range'] at h₁
    omega
  simp only [get_eq_getElem, getElem_map, getElem_range', Nat.one_mul, atIndex_natCast, getElem_take,
    getElem_drop, getElem?_eq_getElem hi]

theorem consecutive_range' (n : ℕ) : ∀ a, consecutive ((range' a n).map Nat.cast) = true := by
  induction n with
  | zero => exact fun _ => rfl
  | succ n ih =>
    intro a
    have h := ih (a + 1)
    cases n with
    | zero => rfl
    | succ n =>
      simpa [range'_succ, consecutive] using h

/-- Consecutive loops become one. -/
theorem fuse_apply (hstage : st.stages[s]? = some stage) (hn : o + n < stage.iters.length)
    (hfree : ∀ j < n, st.attachMap.iterToAttachedStages (↑s, ↑(o + j)) = none) :
    ∃ st', (fuse s (range' o (n + 1))).apply dag st = some st' ∧
      st'.stages = st.stages.set s { stage with
        iters := replaceSlice stage.iters o (o + n)
          [fusedIterator ((stage.iters.drop o).take (n + 1))] } ∧
      st'.attachMap = st.attachMap.rekey (fuseKeys s o (o + n) stage.iters.length) := by
  have hnat : (s : ℤ).toNat? = some s := rfl
  have hlt : ∀ j ∈ range' o (n + 1), j < stage.iters.length := fun j hj => by
    have := mem_range'_1.mp hj
    omega
  have hits := mapM_range'_atIndex (o := o) (n := n + 1) stage.iters (by omega)
  have hdrop : ((range' o (n + 1)).map (Nat.cast : ℕ → ℤ)).dropLast =
      (range' o n).map Nat.cast := by
    simp [range'_concat]
  have hids : (range' o (n + 1)).map (Nat.cast : ℕ → ℤ) =
      ↑o :: (range' (o + 1) n).map Nat.cast := by
    simp [range'_succ]
  have hlast : ∀ h, ((o : ℤ) :: (range' (o + 1) n).map Nat.cast).getLast h = ↑(o + n) := by
    rw [← hids]
    simp [range'_concat]
  have hguard : consecutive ((range' o (n + 1)).map Nat.cast) = true ∧
      ∀ id ∈ ((range' o (n + 1)).map (Nat.cast : ℕ → ℤ)).dropLast,
        st.attachMap.iterToAttachedStages (↑s, id) = none := by
    refine ⟨consecutive_range' (n + 1) o, ?_⟩
    rw [hdrop]
    intro id hid
    obtain ⟨j, hj, rfl⟩ := mem_map.mp hid
    obtain ⟨i, hi, rfl⟩ := mem_range'.mp hj
    simpa using hfree i hi
  simp only [apply, step, atIndex_natCast, hstage, bind_eq_bind,
    bind_some, if_pos hlt, State.record, stepApplyToState, hnat, fuseToState, hits,
    if_pos hguard]
  simp only [hids, hlast, Int.toNat_natCast, updateIters_keys, State.setStage, bind_some]
  exact ⟨_, rfl, rfl, rfl⟩

/-- A fuse renames entries of its own stage only. -/
theorem sources_rekey_fuseKeys (m : AttachMap) (hkey : key.1 ≠ s) (front back size : ℕ) :
    AttachMap.iterToAttachedStages (m.rekey (fuseKeys s front back size)) key =
      m.iterToAttachedStages key := by
  apply TwoWayMap.sources_rekey_of_forall_ne
  intro p hp
  simp only [fuseKeys, List.mem_map] at hp
  obtain ⟨j, -, rfl⟩ := hp
  exact ⟨fun h => hkey (by rw [h]), fun h => hkey (by rw [h])⟩

/-- How the attach map changes when loops of stage `s` from position `o` on are fused: attach
points of other stages stay, those of `s` stay in `s`, and none comes to `o` from before it. -/
structure MovesFrom (s o : ℕ) (m m' : AttachMap) : Prop where
  exact : m'.Exact
  sources : ∀ key : IterKey, key.1 ≠ s → m'.iterToAttachedStages key = m.iterToAttachedStages key
  target : ∃ g : IterKey → IterKey, (∀ t, m'.stageToAttachIter t = (m.stageToAttachIter t).map g) ∧
    ∀ key, (g key).1 = key.1 ∧ (key.1 ≠ s → g key = key) ∧ (↑o ≤ (g key).2 → ↑o ≤ key.2)

theorem MovesFrom.refl {m : AttachMap} (h : m.Exact) : MovesFrom s o m m :=
  ⟨h, fun _ _ => rfl, id, by simp, by simp⟩

theorem movesFrom_fuseKeys {m : AttachMap} (h : m.Exact) (size : ℕ)
    (hfree : ∀ j < n, m.iterToAttachedStages (↑s, ↑(o + j)) = none) :
    MovesFrom s o m (m.rekey (fuseKeys s o (o + n) size)) := by
  refine ⟨exact_fuseKeys h (Nat.le_add_right o n) fun j hj hlt => ?_,
    fun key hkey => sources_rekey_fuseKeys m hkey _ _ _, TwoWayMap.rename (fuseKeys s o (o + n) size),
    fun t => ?_, fun key => ?_⟩
  · obtain ⟨i, rfl⟩ := Nat.exists_eq_add_of_le hj
    exact hfree i (by omega)
  · rw [fuseKeys_eq_moveKeys]
    exact TwoWayMap.target_rekey h (nodup_moveKeys _ _ _ _) t
  · rw [fuseKeys_eq_moveKeys]
    by_cases hkey : ∃ j : ℕ, j < size ∧ decide (o < j) = true ∧ key = (↑s, ↑j)
    · obtain ⟨j, hj, hmoved, rfl⟩ := hkey
      rw [rename_moveKeys hj hmoved]
      have hlt : o < j := of_decide_eq_true hmoved
      exact ⟨rfl, fun hne => absurd rfl hne, fun _ => by simp; omega⟩
    · rw [rename_moveKeys_of_not fun j hj hmoved hk => hkey ⟨j, hj, hmoved, hk⟩]
      exact ⟨rfl, fun _ => rfl, id⟩

/-- At most the loop at the first position becomes parallel, and no other stage changes. -/
theorem fuseAndParallel_spec {e : ℕ} (hstage : st.stages[s]? = some stage)
    (he : o + e ≤ stage.iters.length)
    (hann : ∀ it ∈ (stage.iters.drop o).take e, it.ann = .kNone)
    (hexact : st.attachMap.Exact)
    (hfree : ∀ j, j + 1 < e → st.attachMap.iterToAttachedStages (↑s, ↑(o + j)) = none) :
    ∃ st' iters', fuseAndParallel dag st s (range' o e) = some st' ∧
      st'.stages = st.stages.set s { stage with iters := iters' } ∧
      (∀ (i : ℕ) it, iters'[i]? = some it → i ≠ o → it ∈ stage.iters) ∧
      MovesFrom s o st.attachMap st'.attachMap := by
  have hlt := lt_of_getElem? hstage
  match e with
  | 0 =>
    refine ⟨st, stage.iters, rfl, ?_, fun i it hit _ => mem_of_getElem? hit, .refl hexact⟩
    exact (set_of_getElem? hstage).symm
  | 1 =>
    have hit : stage.iters[o]? = some stage.iters[o] := getElem?_eq_getElem he
    obtain ⟨st', hst', hstages, hmap⟩ := parallel_apply dag hstage hit
      (hann _ (by rw [drop_eq_getElem_cons he]; exact mem_cons_self))
    refine ⟨st', _, hst', hstages, fun i it hit hi => ?_, by rw [hmap]; exact .refl hexact⟩
    rw [getElem?_set_ne (Ne.symm hi)] at hit
    exact mem_of_getElem? hit
  | n + 2 =>
    have hfree' : ∀ j < n + 1, st.attachMap.iterToAttachedStages (↑s, ↑(o + j)) = none :=
      fun j hj => hfree j (by omega)
    obtain ⟨st₁, hst₁, hstages₁, hmap₁⟩ := fuse_apply dag hstage (by omega) hfree'
    have hstage₁ := getElem?_set_self (a := { stage with
      iters := replaceSlice stage.iters o (o + (n + 1))
        [fusedIterator ((stage.iters.drop o).take (n + 1 + 1))] }) hlt
    rw [← hstages₁] at hstage₁
    have hlen : (stage.iters.take o).length = o := by simp; omega
    have hfused : (replaceSlice stage.iters o (o + (n + 1))
        [fusedIterator ((stage.iters.drop o).take (n + 1 + 1))])[o]? =
          some (fusedIterator ((stage.iters.drop o).take (n + 1 + 1))) := by
      rw [replaceSlice, append_assoc, getElem?_append_right hlen.le, hlen, Nat.sub_self]
      rfl
    obtain ⟨st', hst', hstages, hmap⟩ := parallel_apply dag (k := o) hstage₁ hfused rfl
    refine ⟨st', _, ?_, by rw [hstages, hstages₁, set_set], fun i it hit hi => ?_, ?_⟩
    · have hits : range' o (n + 2) = o :: (o + 1) :: range' (o + 2) n := by simp [range'_succ]
      rw [hits] at hst₁ ⊢
      simpa [fuseAndParallel, hst₁] using hst'
    · simp only [getElem?_set_ne (Ne.symm hi)] at hit
      rw [replaceSlice] at hit
      have hmem := mem_of_getElem? hit
      simp only [append_assoc, mem_append, mem_singleton] at hmem
      rcases hmem with hmem | rfl | hmem
      · exact mem_of_mem_take hmem
      · grind
      · exact mem_of_mem_drop hmem
    · rw [hmap, hmap₁]
      exact movesFrom_fuseKeys hexact _ hfree'

/-! ## The stages below a stage -/

variable {dag} {numCores : ℤ} {fuel : ℕ} {st₀ st' : State} {r t u : ℤ} {D E : ℤ → Prop}

/-- A stage is another one or attached below it. -/
abbrev State.Below (st : State) (u s : ℤ) : Prop := ReflTransGen st.AttachedTo u s

/-- The stages that a call for the loops of `s` from `o` on may change. -/
def State.Within (st : State) (s : ℤ) (o : ℕ) (u : ℤ) : Prop :=
  u = s ∨ ∃ t k, st.attachMap.stageToAttachIter t = some (s, k) ∧ ↑o ≤ k ∧ st.Below u t

theorem State.attachedTo_rightUnique (st : State) : Relator.RightUnique st.AttachedTo := by
  rintro t a b ⟨k, hk⟩ ⟨l, hl⟩
  exact congrArg Prod.fst (some.inj (hk.symm.trans hl))

theorem State.Within.of_succ {s : ℤ} (h : st.Within s (o + 1) u) : st.Within s o u :=
  h.imp_right fun ⟨r, k, hr, hle, hu⟩ => ⟨r, k, hr, by omega, hu⟩

theorem State.Within.below {s : ℤ} (h : st.Within s o u) : st.Below u s := by
  rcases h with rfl | ⟨t, k, ht, -, hu⟩
  · exact .refl
  · exact hu.tail ⟨k, ht⟩

namespace State.AttachTree

variable {s : ℤ} (H : st₀.AttachTree)
include H

theorem not_below (h : st₀.AttachedTo t s) : ¬ st₀.Below s t := by
  intro hs
  have hcycle : TransGen st₀.AttachedTo t t := .head' h hs
  exact H.acyclic.transGen.asymmetric _ _ hcycle hcycle

/-- The trees below two stages attached to one stage are disjoint. -/
theorem disjoint (ht : st₀.AttachedTo t s) (hr : st₀.AttachedTo r s) (hne : t ≠ r)
    (hu : st₀.Below u t) : ¬ st₀.Below u r := by
  -- the upper one of two comparable siblings would have its own parent below it
  have hup : ∀ {a b}, st₀.AttachedTo a s → st₀.AttachedTo b s → a ≠ b → ¬ st₀.Below a b := by
    intro a b ha hb hab h
    rcases h.cases_head with rfl | ⟨c, hc, hcb⟩
    · exact hab rfl
    · rw [st₀.attachedTo_rightUnique hc ha] at hcb
      exact H.not_below hb hcb
  intro hu'
  rcases hu.total_of_right_unique st₀.attachedTo_rightUnique hu' with h | h
  · exact hup ht hr hne h
  · exact hup hr ht hne.symm h

/-- Nothing is above a root stage. -/
theorem eq_of_root {stage : Stage} (hstage : atIndex st₀.stages s = some stage)
    (hroot : stage.parallelRoot = true) (h : st₀.Below s u) : s = u := by
  rcases h.cases_head with rfl | ⟨c, ⟨k, hk⟩, -⟩
  · rfl
  · obtain ⟨stage', hstage', hiter⟩ := H.stage s _ hk
    cases hstage.symm.trans hstage'
    simp [Stage.parallelRoot, hiter] at hroot

end State.AttachTree

/-! ## What a call keeps -/

/-- Only the stages in `D` have changed, the root stages are the same, and every stage is still
attached to the same stage. -/
structure Frame (st₀ : State) (D : ℤ → Prop) (st : State) : Prop where
  roots : ∀ u, (atIndex st.stages u).map Stage.parallelRoot =
    (atIndex st₀.stages u).map Stage.parallelRoot
  stages : ∀ u, ¬ D u → atIndex st.stages u = atIndex st₀.stages u
  sources : ∀ u k, ¬ D u → st.attachMap.iterToAttachedStages (u, k) =
    st₀.attachMap.iterToAttachedStages (u, k)
  target : ∀ t u k, ¬ D u → (st.attachMap.stageToAttachIter t = some (u, k) ↔
    st₀.attachMap.stageToAttachIter t = some (u, k))
  parent : ∀ t u, st.AttachedTo t u ↔ st₀.AttachedTo t u

/-- A loop around another one, found from the attach points: the inner one is in its stage or
below a stage attached to it or behind it. -/
def Surrounds (st₀ st : State) (outer inner : IterKey) : Prop :=
  (outer.1 = inner.1 ∧ outer.2 < inner.2) ∨
    ∃ c k, st₀.Below inner.1 c ∧ st.attachMap.stageToAttachIter c = some (outer.1, k) ∧
      outer.2 ≤ k

/-- The state after some calls, which have changed the stages in `D` at most. -/
structure Done (st₀ : State) (D : ℤ → Prop) (st : State) : Prop where
  frame : Frame st₀ D st
  exact : st.attachMap.Exact
  apart : ∀ outer inner, st.ParallelAt outer → st.ParallelAt inner → ¬ Surrounds st₀ st outer inner

theorem Done.mono (h : Done st₀ D st) (hD : ∀ u, D u → E u) : Done st₀ E st where
  frame :=
    { roots := h.frame.roots
      stages := fun u hu => h.frame.stages u (mt (hD u) hu)
      sources := fun u k hu => h.frame.sources u k (mt (hD u) hu)
      target := fun t u k hu => h.frame.target t u k (mt (hD u) hu)
      parent := h.frame.parent }
  exact := h.exact
  apart := h.apart

/-- Loops that are around others in the state are found from the attach points. -/
theorem Frame.surrounds (h : Frame st₀ D st) {outer inner : IterKey}
    (hencl : st.Encloses outer inner) : Surrounds st₀ st outer inner := by
  rcases hencl with hsame | haround
  · exact .inl hsame
  · right
    generalize inner.1 = t at haround
    induction haround with
    | attached _ _ htarget hle => exact ⟨_, _, .refl, htarget, hle⟩
    | through _ _ htarget _ ih =>
      obtain ⟨c, k, hc, hk, hle⟩ := ih
      exact ⟨c, k, .head ((h.parent _ _).mp ⟨_, htarget⟩) hc, hk, hle⟩

/-! ## Whole calls -/

theorem exists_bound {α : Type} {P : ℕ → α → Prop} {l : List α}
    (h : ∀ a ∈ l, ∃ n, ∀ d, n ≤ d → P d a) : ∃ n, ∀ a ∈ l, ∀ d, n ≤ d → P d a := by
  induction l with
  | nil => exact ⟨0, by simp⟩
  | cons a l ih =>
    obtain ⟨n, hn⟩ := h a mem_cons_self
    obtain ⟨m, hm⟩ := ih (forall_mem_cons.mp h).2
    refine ⟨max n m, forall_mem_cons.mpr ⟨fun d hd => hn d (by omega), ?_⟩⟩
    exact fun b hb d hd => hm b hb d (by omega)

/-- A call for `s` from `o` on may be made: nothing above the stage, and nothing the call may
change, has been changed. -/
structure Ready (st₀ : State) (D : ℤ → Prop) (st : State) (s : ℤ) (o : ℕ) : Prop
    extends Done st₀ D st where
  within : ∀ u, st₀.Within s o u → ¬ D u
  above : ∀ u, st₀.Below s u → ¬ D u

/-- A call that succeeds from every state it may be made in, and changes no more than it may. -/
def Succeeds (st₀ : State) (s : ℤ) (o : ℕ) (call : State → Option State) : Prop :=
  ∀ D st, Ready st₀ D st s o →
    ∃ st', call st = some st' ∧ Done st₀ (fun u => D u ∨ st₀.Within s o u) st'

/-- The calls for the stages attached to one loop, one after the other. -/
theorem succeeds_attached (H : st₀.AttachTree) {s : ℤ} {f : State → ℤ → Option State}
    {ts : List ℤ} (hts : ts.Nodup)
    (hat : ∀ t ∈ ts, st₀.attachMap.stageToAttachIter t = some (s, ↑o))
    (hf : ∀ t ∈ ts, Succeeds st₀ t 0 (f · t)) (h : Done st₀ D st)
    (habove : ∀ u, st₀.Below s u → ¬ D u)
    (hbelow : ∀ t ∈ ts, ∀ u, st₀.Below u t → ¬ D u) :
    ∃ st', ts.foldlM f st = some st' ∧
      Done st₀ (fun u => D u ∨ ∃ t ∈ ts, st₀.Below u t) st' := by
  induction ts generalizing D st with
  | nil => exact ⟨st, rfl, h.mono fun u hu => .inl hu⟩
  | cons t ts ih =>
    have hts' := nodup_cons.mp hts
    have htarget := forall_mem_cons.mp hat
    have hattached : st₀.AttachedTo t s := ⟨_, htarget.1⟩
    have hnew : ∀ u, st₀.Below t u → ¬ D u := by
      intro u hu
      rcases hu.cases_head with rfl | ⟨c, hc, hcu⟩
      · exact hbelow t mem_cons_self t .refl
      · rw [st₀.attachedTo_rightUnique hc hattached] at hcu
        exact habove u hcu
    obtain ⟨m, hm, hdone⟩ := hf t mem_cons_self D st
      { toDone := h, within := fun u hu => hbelow t mem_cons_self u hu.below, above := hnew }
    have hdone' := hdone.mono (E := fun u => D u ∨ st₀.Below u t)
      fun u hu => hu.imp_right State.Within.below
    obtain ⟨st', hst', hdone'⟩ := ih hts'.2 htarget.2 (forall_mem_cons.mp hf).2 hdone'
      (fun u hu => not_or.mpr ⟨habove u hu, fun hut => H.not_below hattached (hu.trans hut)⟩)
      (fun r hr u hu => not_or.mpr ⟨hbelow r (mem_cons_of_mem t hr) u hu,
        H.disjoint ⟨_, htarget.2 r hr⟩ hattached (fun heq => hts'.1 (heq ▸ hr)) hu⟩)
    refine ⟨st', foldlM_cons_eq_some.mpr ⟨m, hm, hst'⟩, hdone'.mono ?_⟩
    rintro u ((hu | hu) | ⟨r, hr, hu⟩)
    · exact .inl hu
    · exact .inr ⟨t, mem_cons_self, hu⟩
    · exact .inr ⟨r, mem_cons_of_mem t hr, hu⟩

theorem State.Reaches.exists_stage (H : st₀.AttachTree) {s : ℤ} (h : st₀.Reaches s o) :
    ∃ stage, atIndex st₀.stages s = some stage := by
  induction h with
  | root hstage _ => exact ⟨_, hstage⟩
  | attached _ _ ht _ => exact (H.stage _ _ ht).imp fun _ h => h.1
  | behind _ _ _ ih => exact ih

/-- After the calls for the root stages before `k`, only stages below them have changed. -/
def RootsDone (st₀ : State) (k : ℕ) (st : State) : Prop :=
  ∃ D, Done st₀ D st ∧ ∀ u, D u → ∃ r < k, st₀.Below u ↑r ∧
    ∃ stage, st₀.stages[r]? = some stage ∧ stage.parallelRoot = true

theorem RootsDone.step {k : ℕ} (h : RootsDone st₀ k st) (H : st₀.AttachTree)
    (hcall : ∀ stage, st₀.stages[k]? = some stage → stage.parallelRoot = true →
      Succeeds st₀ k 0 (annotateParallel dag numCores fuel · k 0)) (hk : k < st₀.stages.length) :
    ∃ st', (do
      let stage ← st.stages[k]?
      if stage.parallelRoot then annotateParallel dag numCores fuel st k 0 else some st) =
        some st' ∧ RootsDone st₀ (k + 1) st' := by
  obtain ⟨D, hdone, hD⟩ := h
  -- a root stage is not below another one
  have hroot : ∀ u stage, st₀.stages[k]? = some stage → stage.parallelRoot = true →
      st₀.Below u ↑k → ¬ D u := by
    intro u stage hstage hroot hu hDu
    obtain ⟨r, hr, hur, stage', hstage', hroot'⟩ := hD u hDu
    rcases hu.total_of_right_unique st₀.attachedTo_rightUnique hur with hkr | hrk
    · have := H.eq_of_root (s := k) hstage hroot hkr
      omega
    · have := H.eq_of_root (s := r) hstage' hroot' hrk
      omega
  have hnext : ∀ u, D u → ∃ r < k + 1, st₀.Below u ↑r ∧
      ∃ stage, st₀.stages[r]? = some stage ∧ stage.parallelRoot = true := by
    intro u hu
    obtain ⟨r, hr, hrest⟩ := hD u hu
    exact ⟨r, by omega, hrest⟩
  obtain ⟨stage₀, hstage₀⟩ : ∃ stage, st₀.stages[k]? = some stage := ⟨_, getElem?_eq_getElem hk⟩
  have hroots := hdone.frame.roots k
  rw [atIndex_natCast, atIndex_natCast, hstage₀] at hroots
  obtain ⟨stage, hstage, hsame⟩ := map_eq_some_iff.mp hroots
  rw [hstage, some_bind_eq, hsame]
  split_ifs with hr
  · obtain ⟨st', hst', hdone'⟩ := hcall stage₀ hstage₀ hr D st
      { toDone := hdone
        within := fun u hu => hroot u stage₀ hstage₀ hr hu.below
        above := fun u hu => H.eq_of_root (s := k) hstage₀ hr hu ▸ hroot k stage₀ hstage₀ hr .refl }
    refine ⟨st', hst', _, hdone', ?_⟩
    rintro u (hu | hu)
    · exact hnext u hu
    · exact ⟨k, k.lt_succ_self, hu.below, stage₀, hstage₀, hr⟩
  · exact ⟨st, rfl, D, hdone, hnext⟩

/-! ## Annotating loops -/

section

variable (hnone : ∀ stage ∈ st₀.stages, ∀ it ∈ stage.iters, it.ann ≠ .kParallel)
include hnone

/-- Only changed stages have parallel loops. -/
theorem Frame.changed (h : Frame st₀ D st) (hp : st.ParallelAt key) : D key.1 := by
  by_contra hD
  obtain ⟨stage, it, hstage, hit, hann⟩ := hp
  rw [h.stages _ hD] at hstage
  obtain ⟨i, -, hi⟩ := atIndex_eq_some_iff.mp hstage
  obtain ⟨j, -, hj⟩ := atIndex_eq_some_iff.mp hit
  exact hnone stage (mem_of_getElem? hi) it (mem_of_getElem? hj) hann

/-- Making one loop of a stage parallel, when nothing above the stage and nothing attached to the
loop or behind it has been changed. -/
theorem Done.parallel (h : Done st₀ D st) (H : st₀.AttachTree)
    (hstage : st.stages[s]? = some stage) (hwithin : ∀ u, st₀.Within s o u → ¬ D u)
    (habove : ∀ u, st₀.Below s u → ¬ D u) {iters' : List Iterator}
    (hstages : st'.stages = st.stages.set s { stage with iters := iters' })
    (hiters : ∀ (i : ℕ) it, iters'[i]? = some it → i ≠ o → it ∈ stage.iters)
    (hmoves : MovesFrom s o st.attachMap st'.attachMap) :
    Done st₀ (fun u => D u ∨ u = s) st' := by
  obtain ⟨g, htarget, hg⟩ := hmoves.target
  have hs : ¬ D s := hwithin s (.inl rfl)
  -- attach points of other stages are those from before
  have hother : ∀ t (u k : ℤ), u ≠ s → (st'.attachMap.stageToAttachIter t = some (u, k) ↔
      st.attachMap.stageToAttachIter t = some (u, k)) := by
    intro t u k hu
    rw [htarget, map_eq_some_iff]
    constructor
    · rintro ⟨key, hkey, hgk⟩
      have hfst : key.1 ≠ s := fun hk => hu (by rw [← hk, ← (hg key).1, hgk])
      rw [(hg key).2.1 hfst] at hgk
      rwa [hgk] at hkey
    · exact fun hkey => ⟨_, hkey, (hg (u, k)).2.1 hu⟩
  have hatother : ∀ u, u ≠ (s : ℤ) → atIndex st'.stages u = atIndex st.stages u := by
    intro u hu
    rw [hstages]
    unfold atIndex
    cases hn : u.toNat? with
    | none => rfl
    | some n =>
      have hne : s ≠ n := by
        rintro rfl
        exact hu (Int.mem_toNat?.mp hn)
      exact getElem?_set_ne hne
  -- the parallel loops are those from before and the new one
  have hparallel : ∀ key, st'.ParallelAt key → key = (↑s, ↑o) ∨ (key.1 ≠ s ∧ st.ParallelAt key) := by
    rintro ⟨u, i⟩ ⟨x, it, hx, hit, hann⟩
    by_cases hu : u = s
    · left
      subst hu
      rw [hstages, atIndex_natCast, getElem?_set_self (lt_of_getElem? hstage)] at hx
      cases hx
      obtain ⟨i, rfl, hi⟩ := atIndex_eq_some_iff.mp hit
      by_contra hne
      have hmem := hiters i it hi fun hio => hne (by rw [hio])
      have hstage₀ := (h.frame.stages s hs).symm.trans hstage
      exact hnone stage (mem_of_getElem? hstage₀) it hmem hann
    · exact .inr ⟨hu, x, it, (hatother u hu).symm.trans hx, hit, hann⟩
  refine ⟨⟨fun u => ?_, fun u hu => ?_, fun u k hu => ?_, fun t u k hu => ?_, fun t u => ?_⟩,
    hmoves.exact, ?_⟩
  · rw [← h.frame.roots u]
    by_cases hu : u = s
    · subst hu
      rw [hstages, atIndex_natCast, atIndex_natCast, hstage,
        getElem?_set_self (lt_of_getElem? hstage)]
      rfl
    · rw [hatother u hu]
  · rw [not_or] at hu
    exact (hatother u hu.2).trans (h.frame.stages u hu.1)
  · rw [not_or] at hu
    exact (hmoves.sources (u, k) hu.2).trans (h.frame.sources u k hu.1)
  · rw [not_or] at hu
    exact (hother t u k hu.2).trans (h.frame.target t u k hu.1)
  · refine Iff.trans ?_ (h.frame.parent t u)
    simp only [State.AttachedTo, htarget, map_eq_some_iff]
    constructor
    · rintro ⟨k, key, hkey, hgk⟩
      have hfst : key.1 = u := by rw [← (hg key).1, hgk]
      exact ⟨key.2, hkey.trans (congrArg some (Prod.ext hfst rfl))⟩
    · rintro ⟨k, hk⟩
      exact ⟨(g (u, k)).2, (u, k), hk, Prod.ext (hg (u, k)).1 rfl⟩
  · rintro outer inner ho hi (⟨hsame, hlt⟩ | ⟨c, k, hbelow, hc, hle⟩)
    · rcases hparallel outer ho with rfl | ⟨ho₁, ho⟩ <;>
        rcases hparallel inner hi with rfl | ⟨hi₁, hi⟩
      · exact lt_irrefl _ hlt
      · exact hi₁ hsame.symm
      · exact ho₁ hsame
      · exact h.apart outer inner ho hi (.inl ⟨hsame, hlt⟩)
    · rcases hparallel outer ho with rfl | ⟨ho₁, ho⟩
      · -- what the new loop is around lies within the call
        obtain ⟨key, hkey, hgk⟩ := map_eq_some_iff.mp ((htarget c).symm.trans hc)
        have hfst : key.1 = s := by rw [← (hg key).1, hgk]
        have hle' : (o : ℤ) ≤ key.2 := (hg key).2.2 (by rw [hgk]; exact hle)
        have hc₀ : st₀.attachMap.stageToAttachIter c = some (↑s, key.2) :=
          (h.frame.target c s key.2 hs).mp (by rw [hkey, ← hfst])
        rcases hparallel inner hi with rfl | ⟨-, hi⟩
        · exact H.not_below ⟨_, hc₀⟩ hbelow
        · exact hwithin inner.1 (.inr ⟨c, key.2, hc₀, hle', hbelow⟩) (h.frame.changed hnone hi)
      · have hc' := (hother c outer.1 k ho₁).mp hc
        rcases hparallel inner hi with rfl | ⟨-, hi⟩
        · exact habove outer.1 (hbelow.tail ((h.frame.parent c outer.1).mp ⟨k, hc'⟩))
            (h.frame.changed hnone ho)
        · exact h.apart outer inner ho hi (.inr ⟨c, k, hbelow, hc', hle⟩)

/-- One call, given what the calls it makes do. -/
theorem succeeds_call (H : st₀.AttachTree) (hdeep : st₀.AttachedDeep) (hreach : st₀.Reaches s o)
    (hon : st₀.Skips s o → ∀ ts, st₀.attachMap.iterToAttachedStages (↑s, ↑o) = some ts →
      (∀ t ∈ ts, Succeeds st₀ t 0 (annotateParallel dag numCores fuel · t 0)) ∧
        Succeeds st₀ s (o + 1) (annotateParallel dag numCores fuel · s (o + 1))) :
    Succeeds st₀ s o (annotateParallel dag numCores (fuel + 1) · s o) := by
  intro D st hready
  obtain ⟨stage, hstage₀⟩ := hreach.exists_stage H
  have hs : ¬ D s := hready.within s (.inl rfl)
  have hstage := (hready.frame.stages s hs).trans hstage₀
  have hsources := fun k => hready.frame.sources s k hs
  obtain ⟨e, m, hscan, hme, hem, he, hfree, hfilter⟩ := collectParallel_spec (numCores * 16)
    (fun k => (st.attachMap.iterToAttachedStages (↑s, ↑k)).isSome) o (stage.iters.drop o) []
    (by simp) (by simp)
  simp only [length_nil, range'_zero, map_nil, prod_nil, nil_append, Nat.add_zero,
    length_drop] at hscan he hfilter
  have hfus : ∀ it ∈ (stage.iters.drop o).take e, it.fusable = true := by
    rw [← hfilter]
    exact fun it hit => (mem_filter.mp hit).2
  have hfree' : ∀ j < m, st.attachMap.iterToAttachedStages (↑s, ↑(o + j)) = none :=
    fun j hj => by simpa using hfree j hj
  -- making the collected loops parallel, which every branch ends with
  have hend : ∃ st', fuseAndParallel dag st s (range' o e) = some st' ∧
      Done st₀ (fun u => D u ∨ st₀.Within s o u) st' := by
    by_cases he₀ : e = 0
    · subst he₀
      exact ⟨st, rfl, hready.toDone.mono fun u hu => .inl hu⟩
    · obtain ⟨st', iters', hst', hstages', hiters, hmoves⟩ := fuseAndParallel_spec dag hstage
        (show o + e ≤ stage.iters.length by omega)
        (fun it hit => by simpa using (Bool.and_eq_true_iff.mp (hfus it hit)).2)
        hready.exact (fun j hj => hfree' j (by omega))
      refine ⟨st', hst', (hready.toDone.parallel hnone H hstage hready.within hready.above hstages'
        hiters hmoves).mono fun u hu => hu.imp_right .inl⟩
  simp only [annotateParallel, hstage, some_bind_eq, hscan]
  cases hk : st.attachMap.iterToAttachedStages (↑s, ↑(o + m)) with
  | none => exact hend
  | some ts =>
    by_cases hdegree : (((stage.iters.drop o).take e).map getExtent).prod = 1
    · -- the degree is one only when nothing has been collected
      have hk₀ := (hsources ↑(o + m)).symm.trans hk
      have hnil : (stage.iters.drop o).take e = [] := by
        by_contra hne
        refine hdeep s o m stage hreach hstage₀ (fun j hj => ⟨?_, ?_⟩) (by rw [hk₀]; rfl) ?_ ?_
        · have hlt : j < ((stage.iters.drop o).take e).length := by simp; omega
          refine ⟨_, ?_, hfus _ (getElem_mem hlt)⟩
          rw [getElem_take, getElem_drop, getElem?_eq_getElem]
        · exact (hsources _).symm.trans (hfree' j hj)
        · rwa [Stage.fusableIn, hfilter]
        · rwa [Stage.fusableIn, hfilter]
      have he₀ : e = 0 := by
        have hlen := congrArg length hnil
        simp at hlen
        omega
      obtain rfl : m = 0 := by omega
      have hskip : st₀.Skips s o := by
        intro x it hx hit
        cases hstage₀.symm.trans hx
        by_contra hne
        have hmem : it ∈ ((stage.iters.drop o).take 1).filter Iterator.fusable := by
          refine mem_filter.mpr ⟨?_, by simpa using hne⟩
          obtain ⟨hlt, rfl⟩ := List.getElem?_eq_some_iff.mp hit
          rw [drop_eq_getElem_cons hlt]
          exact mem_cons_self
        rw [hfilter, hnil] at hmem
        exact not_mem_nil hmem
      obtain ⟨hchildren, hbehind⟩ := hon hskip ts hk₀
      have hat : ∀ t ∈ ts, st₀.attachMap.stageToAttachIter t = some (↑s, ↑o) :=
        fun t ht => H.exact.target_of_mem hk₀ ht
      have hwithin : ∀ {t}, t ∈ ts → ∀ u, st₀.Below u t → st₀.Within s o u :=
        fun ht u hu => .inr ⟨_, _, hat _ ht, le_rfl, hu⟩
      obtain ⟨m, hm, hdone⟩ := succeeds_attached H (H.exact.nodup _ _ hk₀) hat hchildren
        hready.toDone hready.above fun t ht u hu => hready.within u (hwithin ht u hu)
      obtain ⟨st', hst', hdone'⟩ := hbehind _ m
        { toDone := hdone
          within := by
            rintro u hu (hD | ⟨t, ht, hut⟩)
            · exact hready.within u hu.of_succ hD
            · rcases hu with rfl | ⟨r, k, hr, hle, hur⟩
              · exact H.not_below ⟨_, hat t ht⟩ hut
              · refine H.disjoint ⟨_, hr⟩ ⟨_, hat t ht⟩ ?_ hur hut
                rintro rfl
                have heq := (hat _ ht).symm.trans hr
                simp at heq
                omega
          above := by
            rintro u hu (hD | ⟨t, ht, hut⟩)
            · exact hready.above u hu hD
            · exact H.not_below ⟨_, hat t ht⟩ (hu.trans hut) }
      refine ⟨st', ?_, hdone'.mono ?_⟩
      · simp [he₀, hm, hst', fuseAndParallel]
      · rintro u ((hD | ⟨t, ht, hut⟩) | hu)
        · exact .inl hD
        · exact .inr (hwithin ht u hut)
        · exact .inr hu.of_succ
    · simpa only [if_neg hdegree] using hend

/-- Every call that is made before anything has been collected succeeds, with enough fuel.  The
induction is on the tree of attached stages and, in a stage, on the loops behind the position. -/
theorem succeeds_reached (H : st₀.AttachTree) (hdeep : st₀.AttachedDeep) {s : ℤ}
    (hreach : st₀.Reaches s o) : ∃ n, ∀ fuel, n ≤ fuel →
      Succeeds st₀ s o (annotateParallel dag numCores fuel · s o) := by
  induction s using H.acyclic.induction generalizing o with
  | _ s ih =>
  obtain ⟨stage, hstage⟩ := hreach.exists_stage H
  obtain ⟨s, rfl, -⟩ := atIndex_eq_some_iff.mp hstage
  induction hlen : stage.iters.length - o using Nat.strong_induction_on generalizing o with
  | _ len ihlen =>
  by_cases hon : st₀.Skips s o ∧ (st₀.attachMap.iterToAttachedStages (↑s, ↑o)).isSome = true
  · obtain ⟨hskip, hsome⟩ := hon
    obtain ⟨ts, hts⟩ := isSome_iff_exists.mp hsome
    have hat : ∀ t ∈ ts, st₀.attachMap.stageToAttachIter t = some (↑s, ↑o) :=
      fun t ht => H.exact.target_of_mem hts ht
    obtain ⟨t, ht⟩ := H.exact.exists_mem hts
    have hlt : o < stage.iters.length := by
      obtain ⟨x, it, hx, hit⟩ := H.loop t s o (hat t ht)
      cases hstage.symm.trans hx
      exact lt_of_getElem? hit
    obtain ⟨n, hn⟩ := exists_bound fun t ht =>
      ih t ⟨_, hat t ht⟩ (.attached hreach hskip (hat t ht))
    obtain ⟨n', hn'⟩ := ihlen (stage.iters.length - (o + 1)) (by omega)
      (.behind hreach hskip (hat t ht)) rfl
    refine ⟨max n n' + 1, fun fuel hfuel => ?_⟩
    obtain ⟨fuel, rfl⟩ := Nat.exists_eq_add_of_le' (show 1 ≤ fuel by omega)
    refine succeeds_call hnone H hdeep hreach fun _ ts' hts' => ?_
    cases hts.symm.trans hts'
    exact ⟨fun t ht => hn t ht fuel (by omega), hn' fuel (by omega)⟩
  · refine ⟨1, fun fuel hfuel => ?_⟩
    obtain ⟨fuel, rfl⟩ := Nat.exists_eq_add_of_le' hfuel
    refine succeeds_call hnone H hdeep hreach fun hskip ts hts => ?_
    exact absurd ⟨hskip, by rw [hts]; rfl⟩ hon

theorem rootsDone_zero (H : st₀.AttachTree) : RootsDone st₀ 0 st₀ := by
  have hframe : Frame st₀ (fun _ => False) st₀ :=
    ⟨fun _ => rfl, fun _ _ => rfl, fun _ _ _ => rfl, fun _ _ _ _ => .rfl, fun _ _ => .rfl⟩
  exact ⟨fun _ => False, ⟨hframe, H.exact, fun _ _ ho => (hframe.changed hnone ho).elim⟩,
    fun _ => False.elim⟩

end

/-! ## The whole rule -/

/-- **Where the loops collected at an attach point never have the total extent one, no parallel
loop is nested**: with enough fuel the rule succeeds, and no parallel loop of its result is around
another one. -/
theorem initParallel_not_enclosed (dag : ComputeDAG) (numCores : ℤ) (st₀ : State)
    (hnone : ∀ stage ∈ st₀.stages, ∀ it ∈ stage.iters, it.ann ≠ .kParallel)
    (htree : st₀.AttachTree) (hdeep : st₀.AttachedDeep) :
    ∃ n, ∀ fuel, n ≤ fuel → ∃ st, initParallel dag numCores fuel st₀ = some st ∧
      ∀ outer inner, st.ParallelAt outer → st.ParallelAt inner → ¬ st.Encloses outer inner := by
  obtain ⟨n, hn⟩ := exists_bound (l := range st₀.stages.length) (P := fun fuel (s : ℕ) =>
      ∀ stage, st₀.stages[s]? = some stage → stage.parallelRoot = true →
        Succeeds st₀ s 0 (annotateParallel dag numCores fuel · s 0)) fun s _ => by
    by_cases hroot : ∃ stage, st₀.stages[s]? = some stage ∧ stage.parallelRoot = true
    · obtain ⟨stage, hstage, hroot⟩ := hroot
      obtain ⟨n, hn⟩ := succeeds_reached hnone htree hdeep (.root hstage hroot)
      exact ⟨n, fun fuel hfuel _ _ _ => hn fuel hfuel⟩
    · exact ⟨0, fun _ _ stage hstage hr => absurd ⟨stage, hstage, hr⟩ hroot⟩
  refine ⟨n, fun fuel hfuel => ?_⟩
  obtain ⟨st, hst, D, hdone, -⟩ := exists_foldlM_range (RootsDone st₀)
    (fun k hk st h => h.step htree (hn k (mem_range.mpr hk) fuel hfuel) hk)
    (rootsDone_zero hnone htree)
  exact ⟨st, hst, fun outer inner ho hi hencl =>
    hdone.apart outer inner ho hi (hdone.frame.surrounds hencl)⟩

/-- A producer attached to a reduction loop that stands before the loops to fuse: the rule goes on
both with the producer and with the loop behind, and makes a loop of each parallel. -/
theorem initParallel_not_enclosed_rowSumDAG : ∃ st₀,
    rowSumDAG.run [.reorder 2 [1, 0], .computeAt 1 2 0] = some st₀ ∧
      ∃ n, ∀ fuel, n ≤ fuel → ∃ st, initParallel rowSumDAG 2 fuel st₀ = some st ∧
        ∀ outer inner, st.ParallelAt outer → st.ParallelAt inner → ¬ st.Encloses outer inner := by
  obtain ⟨st₀, hst₀, hmap, hstages⟩ : ∃ st₀,
      rowSumDAG.run [.reorder 2 [1, 0], .computeAt 1 2 0] = some st₀ ∧
        st₀.attachMap = TwoWayMap.empty.insert 1 (2, 0) ∧
        st₀.stages = ((rowSumDAG.run [.reorder 2 [1, 0], .computeAt 1 2 0]).map
          State.stages).getD [] := ⟨_, rfl, rfl, rfl⟩
  have hexact : st₀.attachMap.Exact := hmap ▸ TwoWayMap.exact_insert TwoWayMap.exact_empty _ _
  have hone : ∀ t key, st₀.attachMap.stageToAttachIter t = some key → t = 1 ∧ key = (2, 0) := by
    intro t key ht
    rw [hmap] at ht
    by_cases h1 : t = 1
    · subst h1
      exact ⟨rfl, (some.inj ht).symm⟩
    · cases (TwoWayMap.target_insert_of_ne _ h1 _).symm.trans ht
  refine ⟨st₀, hst₀, initParallel_not_enclosed rowSumDAG 2 st₀ ?_ ⟨hexact, ?_, ?_, ?_⟩ ?_⟩
  · rw [hstages]
    decide
  · intro t key ht
    obtain ⟨rfl, -⟩ := hone t key ht
    rw [hstages]
    exact ⟨_, rfl, rfl⟩
  · intro t s k ht
    obtain ⟨-, hkey⟩ := hone t _ ht
    cases hkey
    rw [hstages]
    exact ⟨_, _, rfl, rfl⟩
  · have hleaf : Acc st₀.AttachedTo 1 := ⟨1, fun t ⟨k, hk⟩ => by cases (hone t _ hk).2⟩
    exact ⟨fun s => ⟨s, fun t ⟨k, hk⟩ => (hone t _ hk).1 ▸ hleaf⟩⟩
  · intro s o m stage _ hstage _ hatt hne
    obtain ⟨t, ht⟩ := hexact.exists_target (isSome_iff_exists.mp hatt)
    obtain ⟨-, hkey⟩ := hone t _ ht
    have hs : s = 2 := congrArg Prod.fst hkey
    have hom : ((o + m : ℕ) : ℤ) = 0 := congrArg Prod.snd hkey
    obtain ⟨rfl, rfl⟩ : o = 0 ∧ m = 0 := by omega
    rw [hs, hstages] at hstage
    cases hstage
    exact absurd rfl hne

/-- `B[i] = f(A[i])` and `C[x, y] = B[y]`, with one row. -/
def oneRowDAG : ComputeDAG :=
  ⟨[⟨0, .placeholder [.intImm 8]⟩,
    Operation.declare 1 [.dataPar 0 "i" 8] [] [0],
    Operation.declare 2 [.dataPar 1 "x" 1, .dataPar 2 "y" 8] [] [1]]⟩

/-- With a stage attached to a loop of extent one, this loop and the one inside of it become
parallel. -/
theorem initParallel_encloses_oneRowDAG :
    ((oneRowDAG.run [.computeAt 1 2 0]).bind fun st => initParallel oneRowDAG 2 4 st).map
      (fun st => st.stages.map fun stage => stage.iters.map (·.ann)) =
    some [[], [.kParallel], [.kParallel, .kParallel]] := by
  decide

end Pruner.AutoScheduler
