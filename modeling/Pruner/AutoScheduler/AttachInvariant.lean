import Pruner.AutoScheduler.Primitives

/-!
# The two directions of the attach map

Every step edits both tables of the attach map.  This module follows the invariant
that the tables are inverse to each other through all kinds of steps.

Forgetting, redirecting and renumbering stages keep it.  So does a fuse: the loops it
merges are free of attached stages except the last one.  A split moves the entries
from the split loop on by the number of new loops, over the positions the stage had
so far.  An entry at a position the stage does not have any more (steps that add a
stage give it new loops and leave the entries alone) does not move, so an entry can
be moved on top of it, and one of the two lists is lost.

## Main definitions

* `SplitFree` — no entry is moved on top of another one.
* `exact_apply_iff` — one call: the tables stay inverse exactly when the call is
  `SplitFree`.
* `RunSplitFree`, `exact_runFrom_iff` — the same for whole runs.
-/

namespace Pruner.AutoScheduler

open Lib Te List Option TwoWayMap

variable {i size : ℕ} {moved : ℕ → Bool} {f : ℕ → ℤ} {m : AttachMap} {iterId : ℤ}
  {lengths : List (Option ℤ)}

/-! ## Renaming by fuses and splits -/

theorem updateIters_keys (m : AttachMap) (keys : List (IterKey × IterKey)) :
    m.updateIters (keys.map Prod.fst) (keys.map Prod.snd) = some (m.rekey keys) := by
  have hzip : (keys.map Prod.fst).zip (keys.map Prod.snd) = keys := by
    induction keys with
    | nil => rfl
    | cons k keys ih => simp [ih]
  simp [AttachMap.updateIters, hzip]

/-- Positions renamed by a function of the position: the common shape of the keys of
a fuse and of a split. -/
def moveKeys (i : ℕ) (moved : ℕ → Bool) (f : ℕ → ℤ) (size : ℕ) : List (IterKey × IterKey) :=
  ((range size).filter moved).map fun (j : ℕ) => ((↑i, ↑j), (↑i, f j))

theorem nodup_moveKeys (i : ℕ) (moved : ℕ → Bool) (f : ℕ → ℤ) (size : ℕ) :
    ((moveKeys i moved f size).map Prod.fst).Nodup := by
  rw [moveKeys, List.map_map]
  refine Nodup.map ?_ (nodup_range.filter _)
  intro a b h
  simpa using h

variable {k : IterKey} {st : State} {p : Primitive} {dag : ComputeDAG}

theorem mem_moveKeys_fst : k ∈ (moveKeys i moved f size).map Prod.fst ↔
      ∃ j : ℕ, j < size ∧ moved j = true ∧ k = (↑i, ↑j) := by
  simp only [moveKeys, List.map_map, List.mem_map, mem_filter, mem_range,
    Function.comp_apply, and_assoc, eq_comm]

theorem rename_moveKeys {j : ℕ} (hj : j < size)
    (hm : moved j = true) : TwoWayMap.rename (moveKeys i moved f size) (↑i, ↑j) = (↑i, f j) := by
  have hmem := mem_rename (mem_moveKeys_fst.mpr ⟨j, hj, hm, rfl⟩ :
    ((↑i, ↑j) : IterKey) ∈ (moveKeys i moved f size).map Prod.fst)
  simp only [moveKeys, List.mem_map, mem_filter, mem_range] at hmem
  obtain ⟨j', -, hj'⟩ := hmem
  have hjj : j' = j := by simpa using congrArg (fun p => p.1.2) hj'
  rw [hjj] at hj'
  exact (congrArg Prod.snd hj').symm

theorem rename_moveKeys_of_not (h : ∀ j : ℕ, j < size → moved j = true → k ≠ (↑i, ↑j)) :
    TwoWayMap.rename (moveKeys i moved f size) k = k := by
  refine rename_of_notMem fun hk => ?_
  obtain ⟨j, hj, hm, rfl⟩ := mem_moveKeys_fst.mp hk
  exact h j hj hm rfl

/-- A move is injective on the occupied positions when two moved positions never meet,
and a moved position never meets one that stays. -/
theorem injOn_moveKeys (hmm : ∀ a b : ℕ, a < size → b < size → moved a = true → moved b = true →
      m.Occupied (↑i, ↑a) → m.Occupied (↑i, ↑b) → f a = f b → a = b)
    (hms : ∀ (a : ℕ) (k : IterKey), a < size → moved a = true → m.Occupied (↑i, ↑a) →
      m.Occupied k → k = (↑i, f a) → ∃ b : ℕ, b < size ∧ moved b = true ∧ k = (↑i, ↑b)) :
    Set.InjOn (TwoWayMap.rename (moveKeys i moved f size)) {k | m.Occupied k} := by
  intro k₁ h₁ k₂ h₂ heq
  by_cases c₁ : ∃ a : ℕ, a < size ∧ moved a = true ∧ k₁ = (↑i, ↑a)
  · obtain ⟨a, ha, hma, rfl⟩ := c₁
    rw [rename_moveKeys ha hma] at heq
    by_cases c₂ : ∃ b : ℕ, b < size ∧ moved b = true ∧ k₂ = (↑i, ↑b)
    · obtain ⟨b, hb, hmb, rfl⟩ := c₂
      rw [rename_moveKeys hb hmb] at heq
      rw [hmm a b ha hb hma hmb h₁ h₂ (congrArg Prod.snd heq)]
    · rw [rename_moveKeys_of_not fun j hj hm hk => c₂ ⟨j, hj, hm, hk⟩] at heq
      exact absurd (hms a k₂ ha hma h₁ h₂ heq.symm) c₂
  · rw [rename_moveKeys_of_not fun j hj hm hk => c₁ ⟨j, hj, hm, hk⟩] at heq
    by_cases c₂ : ∃ b : ℕ, b < size ∧ moved b = true ∧ k₂ = (↑i, ↑b)
    · obtain ⟨b, hb, hmb, rfl⟩ := c₂
      rw [rename_moveKeys hb hmb] at heq
      exact absurd (hms b k₁ hb hmb h₂ h₁ heq) c₁
    · rwa [rename_moveKeys_of_not fun j hj hm hk => c₂ ⟨j, hj, hm, hk⟩] at heq

theorem fuseKeys_eq_moveKeys (i front back size : ℕ) :
    fuseKeys i front back size = moveKeys i (fun j => decide (front < j))
      (fun j => if back < j then ↑(j - back + front) else ↑front) size := rfl

theorem splitKeys_eq_moveKeys (i iterId n size : ℕ) : splitKeys i iterId n size =
      moveKeys i (fun j => decide (iterId ≤ j)) (fun j => ↑(j + n)) size := rfl

/-- **A fuse never moves two entries to the same place**: the merged loops other than
the last one have no entry. -/
theorem exact_fuseKeys (H : m.Exact) {front back : ℕ} (hfb : front ≤ back)
    (hfree : ∀ j : ℕ, front ≤ j → j < back → m.sources (↑i, ↑j) = none) :
    (m.rekey (fuseKeys i front back size)).Exact := by
  have hocc : ∀ j : ℕ, m.Occupied (↑i, ↑j) → j < front ∨ back ≤ j := by
    intro j hj
    by_contra hcon
    have hnone := hfree j (by omega) (by omega)
    obtain ⟨l, hl⟩ := hj
    rw [hnone] at hl
    simp at hl
  rw [fuseKeys_eq_moveKeys, exact_rekey_iff H (nodup_moveKeys _ _ _ _)]
  refine injOn_moveKeys ?_ ?_
  · intro a b _ _ ha hb hoa hob heq
    have hoa' := hocc a hoa
    have hob' := hocc b hob
    simp only [decide_eq_true_eq] at ha hb
    split at heq <;> split at heq <;> omega
  · intro a k ha hma hoa hok hk
    subst hk
    simp only [decide_eq_true_eq] at hma ⊢
    by_cases hba : back < a
    · simp only [hba, if_true] at hok ⊢
      exact ⟨a - back + front, by omega, by omega, rfl⟩
    · simp only [hba, if_false] at hok ⊢
      have hof := hocc front hok
      omega

/-- No entry is moved on top of another one when a stage with `size` loops gets `n`
more at position `iterId`: an occupied loop does not meet an entry behind the loops. -/
def NoCollision (m : AttachMap) (i : ℤ) (iterId n size : ℕ) : Prop :=
  ∀ j : ℕ, iterId ≤ j → j < size → size ≤ j + n → m.Occupied (i, ↑j) → ¬ m.Occupied (i, ↑(j + n))

/-- **A split keeps the tables inverse exactly when no entry is moved on top of
another one.** -/
theorem exact_splitKeys_iff (H : m.Exact) (i iterId n size : ℕ) :
    (m.rekey (splitKeys i iterId n size)).Exact ↔ NoCollision m i iterId n size := by
  rw [splitKeys_eq_moveKeys, exact_rekey_iff H (nodup_moveKeys _ _ _ _)]
  constructor
  · intro hinj j hj hsize hover hocc hocc'
    have hstay : rename
        (moveKeys i (fun j => decide (iterId ≤ j)) (fun j => ↑(j + n)) size)
        (↑i, ↑(j + n)) = (↑i, ↑(j + n)) := by
      refine rename_moveKeys_of_not fun a ha _ hk => ?_
      have : ((j + n : ℕ) : ℤ) = a := congrArg Prod.snd hk
      omega
    have hmove : rename
        (moveKeys i (fun j => decide (iterId ≤ j)) (fun j => ↑(j + n)) size)
        (↑i, ↑j) = (↑i, ↑(j + n)) := rename_moveKeys hsize (by simpa using hj)
    have heq := hinj hocc hocc' (hmove.trans hstay.symm)
    have : ((j : ℕ) : ℤ) = (j + n : ℕ) := congrArg Prod.snd heq
    omega
  · intro hfree
    refine injOn_moveKeys ?_ ?_
    · intro a b _ _ _ _ _ _ heq
      omega
    · intro a k ha hma hoa hok hk
      subst hk
      simp only [decide_eq_true_eq] at hma ⊢
      by_cases hlt : a + n < size
      · exact ⟨a + n, hlt, by omega, rfl⟩
      · exact absurd hok (hfree a hma ha (by omega) hoa)

/-! ## What each step does to the attach map -/

variable {pos : ℕ} {st' : State}

theorem computeAtToState_attachMap {t k : ℤ} (h : computeAtToState st i t k = some st') :
    st'.attachMap = st.attachMap.setComputeAtIter i t k := by
  obtain ⟨stage, -, h⟩ := bind_eq_some_iff.mp h
  cases h; rfl

/-- The numbers between the first and the last of a consecutive list are in the list
without its last element. -/
theorem mem_dropLast_of_consecutive {z : ℤ} : ∀ {rest : List ℤ} {a : ℤ},
    consecutive (a :: rest) = true → a ≤ z →
    z < (a :: rest).getLast (cons_ne_nil _ _) → z ∈ (a :: rest).dropLast := by
  intro rest
  induction rest with
  | nil =>
    intro a _ hle hlt
    simp only [getLast_singleton] at hlt
    omega
  | cons b rest ih =>
    intro a hc hle hlt
    simp only [consecutive, Bool.and_eq_true, decide_eq_true_eq] at hc
    obtain ⟨rfl, hc⟩ := hc
    rw [dropLast_cons_of_ne_nil (cons_ne_nil _ _), mem_cons]
    by_cases hz : z = a
    · exact .inl hz
    · exact .inr (ih hc (by omega) hlt)

theorem le_getLast_of_consecutive : ∀ {rest : List ℤ} {a : ℤ},
    consecutive (a :: rest) = true → a ≤ (a :: rest).getLast (cons_ne_nil _ _) := by
  intro rest
  induction rest with
  | nil => intro a _; simp
  | cons b rest ih =>
    intro a hc
    simp only [consecutive, Bool.and_eq_true, decide_eq_true_eq] at hc
    obtain ⟨rfl, hc⟩ := hc
    rw [getLast_cons (cons_ne_nil _ _)]
    have := ih hc
    omega

theorem fuseToState_nil_attachMap (h : fuseToState st i [] = some st') :
    st'.attachMap = st.attachMap := by
  obtain ⟨stage, -, its, -, h⟩ := bind₂_eq_some.mp h
  split_ifs at h
  cases h; rfl

/-- A fuse renames positions, and the loops it merges are free except the last one. -/
theorem fuseToState_cons_attachMap {front : ℤ} {rest : List ℤ}
    (h : fuseToState st i (front :: rest) = some st') :
    ∃ stage, st.stages[i]? = some stage ∧
      front.toNat ≤ ((front :: rest).getLast (cons_ne_nil _ _)).toNat ∧
      (∀ j : ℕ, front.toNat ≤ j → j < ((front :: rest).getLast (cons_ne_nil _ _)).toNat →
        st.attachMap.sources (↑i, ↑j) = none) ∧
      st'.attachMap = st.attachMap.rekey (fuseKeys i front.toNat
        ((front :: rest).getLast (cons_ne_nil _ _)).toNat stage.iters.length) := by
  simp only [fuseToState, bind_eq_bind, bind_eq_some_iff] at h
  obtain ⟨stage, hstage, its, hits, h⟩ := h
  split_ifs at h with hcond
  obtain ⟨hcons, hfree⟩ := hcond
  simp only [updateIters_keys, bind_some, some.injEq] at h
  refine ⟨stage, hstage, Int.toNat_le_toNat (le_getLast_of_consecutive hcons), ?_, ?_⟩
  · intro j hj hlt
    exact hfree j (mem_dropLast_of_consecutive hcons (by omega) (by omega))
  · subst h; rfl

variable {io : Bool} {step : Step}

theorem applySplitToState_attachMap (h : applySplitToState st i iterId lengths io = some st') :
    ∃ stage, st.stages[i]? = some stage ∧ st'.attachMap = st.attachMap.rekey
      (splitKeys i iterId.toNat lengths.length stage.iters.length) := by
  simp only [applySplitToState, updateIters_keys, bind_eq_bind, bind_some, bind_eq_some_iff] at h
  obtain ⟨stage, hstage, it, -, outs, -, h⟩ := h
  cases h
  exact ⟨stage, hstage, rfl⟩

/-- No entry is moved on top of another one by `n` new loops at `(stageId, iterId)`. -/
def LoopsFree (st : State) (stageId iterId : ℤ) (n : ℕ) : Prop :=
  ∀ stage, atIndex st.stages stageId = some stage →
    NoCollision st.attachMap stageId iterId.toNat n stage.iters.length

/-- The condition on a step: only the three kinds of split have one. -/
def StepSplitFree (st : State) : Step → Prop
  | .splitStep stageId iterId _ lengths _ => LoopsFree st stageId iterId lengths.length
  | .followSplitStep stageId iterId _ nSplit =>
    LoopsFree st stageId iterId ((nSplit - 1).toNat + 1)
  | .followFusedSplitStep stageId iterId _ _ _ => LoopsFree st stageId iterId 1
  | _ => True

theorem exact_applySplitToState_iff (H : st.attachMap.Exact)
    (h : applySplitToState st i iterId lengths io = some st') :
    st'.attachMap.Exact ↔ LoopsFree st i iterId lengths.length := by
  obtain ⟨stage, hstage, hmap⟩ := applySplitToState_attachMap h
  rw [hmap, exact_splitKeys_iff H]
  constructor
  · intro hfree stage' hstage'
    rw [atIndex_natCast, hstage] at hstage'
    exact some.inj hstage' ▸ hfree
  · intro hfree
    exact hfree stage (by rw [atIndex_natCast, hstage])

theorem length_extractSplitLengths {steps : List Step} {src nSplit : ℤ}
    (h : extractSplitLengths steps src nSplit = some lengths) :
    lengths.length = (nSplit - 1).toNat + 1 := by
  obtain ⟨ls, -, h⟩ := bind_eq_some_iff.mp h
  split_ifs at h with hn
  cases h
  simp only [length_append, length_take, length_singleton]
  omega

theorem exact_fuseToState {fusedIds : List ℤ} (H : st.attachMap.Exact)
    (h : fuseToState st i fusedIds = some st') : st'.attachMap.Exact := by
  cases fusedIds with
  | nil => rwa [fuseToState_nil_attachMap h]
  | cons front rest =>
    obtain ⟨stage, -, hfb, hfree, hmap⟩ := fuseToState_cons_attachMap h
    rw [hmap]
    exact exact_fuseKeys H hfb hfree

/-- **One step: the tables stay inverse exactly when no entry is moved on top of
another one.** -/
theorem exact_stepApplyToState_iff (H : st.attachMap.Exact)
    (h : stepApplyToState dag pos st step = some st') :
    st'.attachMap.Exact ↔ StepSplitFree st step := by
  cases step with
  | splitStep =>
    obtain ⟨i, hi, h⟩ := bind_eq_some_iff.mp h
    cases Int.mem_toNat?.mp hi
    exact exact_applySplitToState_iff H h
  | followSplitStep =>
    obtain ⟨lengths, hlen, i, hi, happly⟩ := bind₂_eq_some.mp h
    cases Int.mem_toNat?.mp hi
    rw [StepSplitFree, ← length_extractSplitLengths hlen]
    exact exact_applySplitToState_iff H happly
  | followFusedSplitStep =>
    obtain ⟨length, -, i, hi, happly⟩ := bind₂_eq_some.mp h
    cases Int.mem_toNat?.mp hi
    exact exact_applySplitToState_iff H happly
  | annotationStep =>
    obtain ⟨i, -, stage, -, it, -, h⟩ := bind₃_eq_some.mp h
    split_ifs at h
    cases h
    exact iff_of_true H trivial
  | fuseStep =>
    obtain ⟨i, -, h⟩ := bind_eq_some_iff.mp h
    exact iff_of_true (exact_fuseToState H h) trivial
  | pragmaStep =>
    rw [stepApplyToState, pragmaToState] at h
    split_ifs at h
    · cases h
      exact iff_of_true (exact_erase H _) trivial
    · obtain ⟨stage, -, value, -, h⟩ := bind₂_eq_some.mp h
      cases h
      exact iff_of_true H trivial
  | reorderStep =>
    obtain ⟨i, -, stage, -, iters, -, h⟩ := bind₃_eq_some.mp h
    cases h
    exact iff_of_true H trivial
  | storageAlignStep =>
    obtain ⟨i, -, stage, -, h⟩ := bind₂_eq_some.mp h
    cases h
    exact iff_of_true H trivial
  | computeAtStep =>
    obtain ⟨i, -, h⟩ := bind_eq_some_iff.mp h
    rw [computeAtToState_attachMap h]
    exact iff_of_true (exact_insert H _ _) trivial
  | computeInlineStep =>
    obtain ⟨i, -, stage, -, h⟩ := bind₂_eq_some.mp h
    split_ifs at h
    cases h
    exact iff_of_true (exact_erase H _) trivial
  | computeRootStep =>
    obtain ⟨i, -, stage, -, h⟩ := bind₂_eq_some.mp h
    cases h
    exact iff_of_true (exact_erase H _) trivial
  | cacheReadStep =>
    obtain ⟨i, -, current, -, stages, -, h⟩ := bind₃_eq_some.mp h
    obtain ⟨added, -, stages', -, h⟩ := bind₂_eq_some.mp h
    cases h
    exact iff_of_true (AttachMap.exact_applyStageIdOffset H _ _) trivial
  | cacheWriteStep =>
    obtain ⟨i, -, current, -, h⟩ := bind₂_eq_some.mp h
    obtain ⟨-, h⟩ := ite_none_right_eq_some.mp h
    obtain ⟨cache, -, target, -, h⟩ := bind₂_eq_some.mp h
    have hexact := fun n => AttachMap.exact_applyStageIdOffset H i n
    split_ifs at h
    · obtain ⟨extra, -, stages, -, h⟩ := bind₂_eq_some.mp h
      cases h
      exact iff_of_true (hexact _) trivial
    · obtain ⟨stages, -, h⟩ := bind_eq_some_iff.mp h
      cases h
      exact iff_of_true (hexact _) trivial
  | rfactorStep =>
    obtain ⟨i, -, stage, -, current, -, h⟩ := bind₃_eq_some.mp h
    obtain ⟨factor, -, target, -, stages, -, h⟩ := bind₃_eq_some.mp h
    cases h
    exact iff_of_true (AttachMap.exact_applyStageIdOffset H _ _) trivial

/-! ## Calls and runs -/

/-- The condition on a call. -/
def SplitFree (st : State) : Primitive → Prop
  | .split stageId it lengths _ => LoopsFree st stageId it lengths.length
  | .followSplit stageId it _ nSplit => LoopsFree st stageId it ((nSplit - 1).toNat + 1)
  | .followFusedSplit stageId it _ _ _ => LoopsFree st stageId it 1
  | _ => True

/-- Every call of a run that succeeds meets the condition in the state it is made in. -/
def RunSplitFree (dag : ComputeDAG) : State → List Primitive → Prop
  | _, [] => True
  | st, p :: ps => ∀ st', p.apply dag st = some st' → SplitFree st p ∧ RunSplitFree dag st' ps

/-- The condition on a call is the condition on the step it records. -/
theorem stepSplitFree_iff
    (h : p.step st = some (some step)) : StepSplitFree st step ↔ SplitFree st p := by
  cases p <;>
    simp only [Primitive.step, do_eq_some, some.injEq] at h
  case computeInline | computeRoot | cacheRead | cacheWrite => subst h; rfl
  case bind | unroll | fuse | reorder =>
    obtain ⟨_, -, h⟩ := h
    split at h
    all_goals first | (cases h; rfl) | cases h
  all_goals
    obtain ⟨_, -, h⟩ := h
    subst h
    rfl

theorem exact_apply_iff {st' : State} (H : st.attachMap.Exact) (h : p.apply dag st = some st') :
    st'.attachMap.Exact ↔ SplitFree st p := by
  obtain ⟨step?, hstep, h⟩ := bind_eq_some_iff.mp h
  cases step? with
  | none =>
    -- only `unroll` may record nothing
    cases h
    cases p <;> simp only [Primitive.step, do_eq_some,
      some.injEq, reduceCtorEq, and_false, exists_false] at hstep
    case unroll => exact iff_of_true H trivial
    all_goals
      obtain ⟨_, -, hstep⟩ := hstep
      split at hstep <;> cases hstep
  | some step =>
    rw [← stepSplitFree_iff hstep]
    -- the step is applied to the state that has already recorded it
    let recorded : State := { st with transformSteps := st.transformSteps ++ [step] }
    have Hrec : recorded.attachMap.Exact := H
    have hiff := exact_stepApplyToState_iff Hrec h
    exact hiff

theorem exact_runFrom_iff {ps : List Primitive} : ∀ {st : State},
    st.attachMap.Exact →
    ((∀ n st', runFrom dag st (ps.take n) = some st' → st'.attachMap.Exact) ↔
      RunSplitFree dag st ps) := by
  induction ps with
  | nil =>
    intro st H
    refine iff_of_true ?_ trivial
    intro n st' h
    rw [take_nil] at h
    cases h
    exact H
  | cons p ps ih =>
    intro st H
    constructor
    · intro hall st' hp
      have hone : st'.attachMap.Exact := hall 1 st' (foldlM_cons_eq_some.mpr ⟨st', hp, by simp⟩)
      refine ⟨(exact_apply_iff H hp).mp hone, (ih hone).mp ?_⟩
      intro n st'' hrun
      exact hall (n + 1) st'' (foldlM_cons_eq_some.mpr ⟨st', hp, hrun⟩)
    · intro hfree n st'' hrun
      cases n with
      | zero => cases hrun; exact H
      | succ n =>
        obtain ⟨st', hp, hrun⟩ := foldlM_cons_eq_some.mp hrun
        obtain ⟨hsafe, hrest⟩ := hfree st' hp
        exact (ih ((exact_apply_iff H hp).mpr hsafe)).mpr hrest n st'' hrun

/-- **The two tables of the attach map are inverse in every state a run goes through
exactly when none of its splits moves an entry on top of another one.** -/
theorem attachMap_exact_iff_runSplitFree (dag : ComputeDAG) (ps : List Primitive) :
    (∀ n st, dag.run (ps.take n) = some st → st.attachMap.Exact) ↔
      RunSplitFree dag dag.initState ps :=
  exact_runFrom_iff exact_empty

/-- `B` is computed at the reduction loop of `C`, which is split and factored.  The
entry of `B` is then behind the two loops of the new `C`.  When the factored stage is
computed at the second of these loops and the loop is split, its entry is moved to
the place of the entry of `B`. -/
def overwritingCalls : List Primitive :=
  [.computeAt 1 2 1, .split 2 1 [some 4] true, .rfactor 2 1 1, .computeAt 2 3 1,
    .split 3 1 [some 2] true]

/-- Stage 1 points at a loop that lists only stage 2. -/
theorem attachMap_not_exact_overwritingCalls :
    ∃ st, rowSumDAG.run overwritingCalls = some st ∧ ¬ st.attachMap.Exact := by
  have hrun : (rowSumDAG.run overwritingCalls).map
      (fun st => (st.attachMap.target 1, st.attachMap.sources (3, 2))) =
      some (some (3, 2), some [2]) := by decide
  obtain ⟨st, hst, hmaps⟩ := map_eq_some_iff.mp hrun
  obtain ⟨htarget, hsources⟩ := Prod.mk.inj hmaps
  refine ⟨st, hst, fun H => ?_⟩
  obtain ⟨l, hl, hmem⟩ := (H.mem_iff 1 (3, 2)).mp htarget
  rw [hsources] at hl
  cases hl
  simp at hmem

end Pruner.AutoScheduler
