import Pruner.AutoScheduler.InitParallel

/-!
# Nested parallel loops

`HasNestedParallel` walks the stages that are attached below a root stage and counts their
parallel loops with one counter.  It reports a state when one walk counts two.

## Main definitions

* `countParallel`, `hasNestedParallel` — the walk and the check; the depth of the walk is
  bounded.
* `State.AttachForest` — the attached stages form a forest.
* `State.RunsIn` — the stages that run in the loops of a stage.
* `State.NestedParallel`, `State.ApartParallel` — two parallel loops below one root stage, one
  inside of the other or in different branches.
-/

namespace Pruner.AutoScheduler

open List Option Lib Relation

/-- `count_parallel_ct`. -/
def countParallel (st : State) : ℕ → ℤ → ℕ → Option ℕ
  | 0, _, _ => none
  | depth + 1, stageId, ct => do
    let stage ← atIndex st.stages stageId
    if stage.computeAt = .kInlined then some ct
    else stage.iters.zipIdx.foldlM (fun ct p =>
      ((st.attachMap.iterToAttachedStages (stageId, ↑p.2)).getD []).foldlM
        (fun ct t => countParallel st depth t ct)
        (if p.1.ann = .kParallel then ct + 1 else ct)) ct

/-- One stage in the loop of `HasNestedParallel`, which returns at the first report. -/
def checkRoot (depth : ℕ) (st : State) (found : Bool) (s : ℕ) : Option Bool :=
  if found then some true
  else do
    let stage ← st.stages[s]?
    if stage.computeAt = .kRoot then (countParallel st depth s 0).map (2 ≤ ·) else some false

/-- `HasNestedParallel`. -/
def hasNestedParallel (depth : ℕ) (st : State) : Option Bool :=
  (List.range st.stages.length).foldlM (checkRoot depth st) false

namespace State

variable (st : State)

/-- The two tables of the attach map agree, they name stages of the state, and no stage is
attached below itself. -/
structure AttachForest : Prop where
  exact : st.attachMap.Exact
  valid : ∀ t key, st.attachMap.stageToAttachIter t = some key → (atIndex st.stages t).isSome
  acyclic : WellFounded st.AttachedTo

def HasLoops (s : ℤ) (stage : Stage) : Prop :=
  atIndex st.stages s = some stage ∧ stage.computeAt ≠ .kInlined

/-- A stage runs in the loops of another one, or is it. -/
inductive RunsIn : ℤ → ℤ → Prop where
  | self (s : ℤ) : RunsIn s s
  | attached {s t u : ℤ} {k : ℕ} {stage : Stage} (hs : st.HasLoops s stage)
      (hk : k < stage.iters.length) (ht : st.attachMap.stageToAttachIter t = some (s, ↑k))
      (h : RunsIn t u) : RunsIn s u

/-- A parallel loop that runs below a stage. -/
def ParallelIn (s : ℤ) (key : ℤ × ℕ) : Prop :=
  st.RunsIn s key.1 ∧ ∃ stage it, st.HasLoops key.1 stage ∧ stage.iters[key.2]? = some it ∧
    it.ann = .kParallel

def IsRoot (s : ℕ) : Prop := ∃ stage, st.stages[s]? = some stage ∧ stage.computeAt = .kRoot

/-- Two parallel loops run below a root stage. -/
def TwoBelow (s : ℕ) : Prop := st.IsRoot s ∧ ∃ a b, st.ParallelIn s a ∧ st.ParallelIn s b ∧ a ≠ b

def TwoInNest : Prop := ∃ s, st.TwoBelow s

/-- The second loop runs in the body of the first one: at an inner position of the same stage, or
in a stage that is attached, directly or below others, to the first loop or inside of it. -/
def Inside (a b : ℤ × ℕ) : Prop :=
  (a.1 = b.1 ∧ a.2 < b.2) ∨
    ∃ (t : ℤ) (k : ℕ), st.attachMap.stageToAttachIter t = some (a.1, ↑k) ∧ a.2 ≤ k ∧
      st.RunsIn t b.1

/-- The loops lie in different branches: the first one in a stage that is attached to a loop of
some stage, the second one further inside in that stage, or in another stage attached to it. -/
def Apart (a b : ℤ × ℕ) : Prop :=
  ∃ (s t : ℤ) (k : ℕ), st.attachMap.stageToAttachIter t = some (s, ↑k) ∧ st.RunsIn t a.1 ∧
    ((b.1 = s ∧ k < b.2) ∨ ∃ t', t' ≠ t ∧ st.AttachedTo t' s ∧ st.RunsIn t' b.1)

/-- A parallel loop runs inside of another one. -/
def NestedParallel : Prop :=
  ∃ s a b, st.IsRoot s ∧ st.ParallelIn s a ∧ st.ParallelIn s b ∧ st.Inside a b

/-- Parallel loops run in different branches below a root stage. -/
def ApartParallel : Prop :=
  ∃ s a b, st.IsRoot s ∧ st.ParallelIn s a ∧ st.ParallelIn s b ∧ st.Apart a b

/-- The parallel loops that a walk meets. -/
def parallelLoops : ℕ → ℤ → List (ℤ × ℕ)
  | 0, _ => []
  | depth + 1, s =>
    match atIndex st.stages s with
    | none => []
    | some stage =>
      if stage.computeAt = .kInlined then []
      else stage.iters.zipIdx.flatMap fun p =>
        (if p.1.ann = .kParallel then [(s, p.2)] else []) ++
          ((st.attachMap.iterToAttachedStages (s, ↑p.2)).getD []).flatMap (parallelLoops depth)

end State

/-- A run that adds to a counter adds up what its steps add. -/
theorem foldlM_count {α β : Type} {f : ℕ → α → Option ℕ} {g : α → List β} {l : List α}
    (hf : ∀ a c c', f c a = some c' → c' = c + (g a).length) {c c' : ℕ}
    (h : l.foldlM f c = some c') : c' = c + (l.flatMap g).length := by
  refine foldlM_run (p := []) (fun pre m => m = c + (pre.flatMap g).length) ?_ rfl h
  intro pre a _ m m' hm hstep
  simp [hf a m m' hstep, hm, Nat.add_assoc]

section

variable {st : State} {s t u : ℤ} {depth : ℕ}

/-- The walk counts what it meets. -/
theorem countParallel_eq {ct ct' : ℕ} (h : countParallel st depth s ct = some ct') :
    ct' = ct + (st.parallelLoops depth s).length := by
  induction depth generalizing s ct ct' with
  | zero => cases h
  | succ depth ih =>
    obtain ⟨stage, hstage, hrun⟩ := bind_eq_some_iff.mp h
    simp only [State.parallelLoops, hstage]
    split_ifs at hrun ⊢ with hinl
    · cases hrun
      rfl
    · refine foldlM_count (fun p c c' hc => ?_) hrun
      rw [foldlM_count (fun t _ _ h => ih h) hc]
      split_ifs
      · simp [Nat.add_assoc, Nat.add_comm]
      · simp

namespace State

/-- The chains of attached stages below a stage are shorter than a bound. -/
def Deep (st : State) : ℕ → ℤ → Prop
  | 0, _ => False
  | depth + 1, s => ∀ stage (k : ℕ) t, st.HasLoops s stage → k < stage.iters.length →
      st.attachMap.stageToAttachIter t = some (s, ↑k) → Deep st depth t

theorem parallelLoops_succ {stage : Stage} (hs : st.HasLoops s stage) :
    st.parallelLoops (depth + 1) s = stage.iters.zipIdx.flatMap fun p =>
      (if p.1.ann = .kParallel then [(s, p.2)] else []) ++
        ((st.attachMap.iterToAttachedStages (s, ↑p.2)).getD []).flatMap
          (st.parallelLoops depth) := by
  simp [parallelLoops, hs.1, if_neg hs.2]

theorem exists_hasLoops {key : ℤ × ℕ} (h : key ∈ st.parallelLoops (depth + 1) s) :
    ∃ stage, st.HasLoops s stage := by
  simp only [parallelLoops] at h
  split at h
  · cases h
  · split_ifs at h with hinl
    · cases h
    · exact ⟨_, ‹_›, hinl⟩

theorem RunsIn.chain (h : st.RunsIn s u) : ReflTransGen st.AttachedTo u s := by
  induction h with
  | self => exact .refl
  | attached _ _ ht _ ih => exact ih.tail ⟨_, ht⟩

/-- **Two loops of a nest** are the same, one inside of the other, or in different branches. -/
theorem RunsIn.compare {a b : ℤ × ℕ} (ha : st.RunsIn s a.1) (hb : st.RunsIn s b.1) :
    a = b ∨ st.Inside a b ∨ st.Inside b a ∨ st.Apart a b ∨ st.Apart b a := by
  obtain ⟨u, i⟩ := a
  obtain ⟨v, j⟩ := b
  change st.RunsIn s u at ha
  change st.RunsIn s v at hb
  -- along the chain of attach points down to the first loop
  induction ha with
  | self s =>
    cases hb with
    | self =>
      rcases lt_trichotomy i j with hlt | rfl | hlt
      · exact .inr (.inl (.inl ⟨rfl, hlt⟩))
      · exact .inl rfl
      · exact .inr (.inr (.inl (.inl ⟨rfl, hlt⟩)))
    | @attached _ t _ k _ _ _ ht h =>
      by_cases hle : i ≤ k
      · exact .inr (.inl (.inr ⟨t, k, ht, hle, h⟩))
      · exact .inr (.inr (.inr (.inr ⟨s, t, k, ht, h, .inl ⟨rfl, not_le.mp hle⟩⟩)))
  | @attached s t u k _ _ _ ht h ih =>
    cases hb with
    | self =>
      by_cases hle : j ≤ k
      · exact .inr (.inr (.inl (.inr ⟨t, k, ht, hle, h⟩)))
      · exact .inr (.inr (.inr (.inl ⟨_, t, k, ht, h, .inl ⟨rfl, not_le.mp hle⟩⟩)))
    | @attached _ t' _ k' _ _ _ ht' h' =>
      by_cases heq : t' = t
      · subst heq
        exact ih h'
      · exact .inr (.inr (.inr (.inl ⟨s, t, k, ht, h, .inr ⟨t', heq, ⟨_, ht'⟩, h'⟩⟩)))

variable (H : st.AttachForest)
include H

theorem mem_attached {k : ℕ} : t ∈ (st.attachMap.iterToAttachedStages (s, ↑k)).getD [] ↔
    st.attachMap.stageToAttachIter t = some (s, ↑k) := by
  rw [H.exact.mem_iff]
  cases h : st.attachMap.sources (s, ↑k) <;> simp [h]

theorem exists_deep (s : ℤ) : ∃ n, ∀ d, n ≤ d → st.Deep d s := by
  induction s using H.acyclic.induction with
  | _ s ih =>
    cases hstage : atIndex st.stages s with
    | none =>
      refine ⟨1, fun d hd => ?_⟩
      obtain ⟨d, rfl⟩ : ∃ e, d = e + 1 := ⟨d - 1, by omega⟩
      exact fun stage k t hs => by simp [HasLoops, hstage] at hs
    | some stage =>
      let below := (range stage.iters.length).flatMap fun (k : ℕ) =>
        (st.attachMap.iterToAttachedStages (s, ↑k)).getD []
      have hbelow : ∀ t ∈ below, ∃ n, ∀ d, n ≤ d → st.Deep d t := by
        intro t ht
        obtain ⟨k, -, ht⟩ := mem_flatMap.mp ht
        exact ih t ⟨k, (mem_attached H).mp ht⟩
      obtain ⟨n, hn⟩ := exists_bound hbelow
      refine ⟨n + 1, fun d hd => ?_⟩
      obtain ⟨d, rfl⟩ : ∃ e, d = e + 1 := ⟨d - 1, by omega⟩
      intro stage' k t hs hk ht
      cases hstage.symm.trans hs.1
      exact hn t (mem_flatMap.mpr ⟨k, mem_range.mpr hk, (mem_attached H).mpr ht⟩) _ (by omega)

/-- The walk ends when the bound is large enough. -/
theorem Deep.exists_countParallel (hd : st.Deep depth s) (hs : (atIndex st.stages s).isSome)
    (ct : ℕ) : ∃ ct', countParallel st depth s ct = some ct' := by
  induction depth generalizing s ct with
  | zero => exact hd.elim
  | succ depth ih =>
    obtain ⟨stage, hstage⟩ := isSome_iff_exists.mp hs
    simp only [countParallel, hstage, some_bind_eq]
    split_ifs with hinl
    · exact ⟨ct, rfl⟩
    · refine (exists_foldlM_invariant (fun _ => True) (fun p hp c _ => ?_) trivial).imp
        fun _ h => h.1
      refine (exists_foldlM_invariant (fun _ => True) (fun t ht c _ => ?_) trivial)
      have ht := (mem_attached H).mp ht
      have hp : p.2 < stage.iters.length := (lt_of_getElem? (mem_zipIdx_iff_getElem?.mp hp))
      obtain ⟨c', hc'⟩ := ih (hd stage p.2 t ⟨hstage, hinl⟩ hp ht) (H.valid t _ ht) c
      exact ⟨c', hc', trivial⟩

theorem parallelIn_of_mem {key : ℤ × ℕ} (h : key ∈ st.parallelLoops depth s) :
    st.ParallelIn s key := by
  induction depth generalizing s with
  | zero => cases h
  | succ depth ih =>
    obtain ⟨stage, hs⟩ := exists_hasLoops h
    rw [parallelLoops_succ hs] at h
    obtain ⟨p, hp, h⟩ := mem_flatMap.mp h
    have hp := mem_zipIdx_iff_getElem?.mp hp
    rcases mem_append.mp h with h | h
    · split_ifs at h with hann
      · cases mem_singleton.mp h
        exact ⟨.self s, stage, p.1, hs, hp, hann⟩
      · cases h
    · obtain ⟨t, ht, h⟩ := mem_flatMap.mp h
      obtain ⟨hrun, hpar⟩ := ih h
      exact ⟨.attached hs (lt_of_getElem? hp) ((mem_attached H).mp ht) hrun, hpar⟩

/-- **The loops the walk meets** are the parallel loops that run below the stage. -/
theorem Deep.mem_parallelLoops (hd : st.Deep depth s) {key : ℤ × ℕ} :
    key ∈ st.parallelLoops depth s ↔ st.ParallelIn s key := by
  refine ⟨parallelIn_of_mem H, fun ⟨hrun, stage, it, hs, hit, hann⟩ => ?_⟩
  induction depth generalizing s with
  | zero => exact hd.elim
  | succ depth ih =>
    cases hrun with
    | self =>
      rw [parallelLoops_succ hs, mem_flatMap]
      refine ⟨(it, key.2), mem_zipIdx_iff_getElem?.mpr hit, mem_append_left _ ?_⟩
      rw [if_pos hann]
      exact mem_singleton_self _
    | @attached _ _ _ k stage' hs' hk ht h =>
      rw [parallelLoops_succ hs', mem_flatMap]
      refine ⟨(stage'.iters[k], k), mem_zipIdx_iff_getElem?.mpr (getElem?_eq_getElem hk),
        mem_append_right _ ?_⟩
      exact mem_flatMap.mpr ⟨_, (mem_attached H).mpr ht,
        ih (hd _ _ _ hs' hk ht) ⟨h, stage, it, hs, hit, hann⟩ h⟩

theorem not_chain (ht : st.AttachedTo t s) : ¬ ReflTransGen st.AttachedTo s t := by
  intro h
  have hcycle : TransGen st.AttachedTo s s := TransGen.tail' h ht
  exact H.acyclic.transGen.asymmetric s s hcycle hcycle

/-- A stage runs below at most one of the stages attached to a stage. -/
theorem eq_of_runsIn (ht : st.AttachedTo t s) {t' : ℤ} (ht' : st.AttachedTo t' s)
    (h : st.RunsIn t u) (h' : st.RunsIn t' u) : t = t' := by
  have hunique : Relator.RightUnique st.AttachedTo := by
    rintro a b c ⟨k, hk⟩ ⟨k', hk'⟩
    cases hk.symm.trans hk'
    rfl
  have hup : ∀ {a b : ℤ}, st.AttachedTo a s → st.AttachedTo b s →
      ReflTransGen st.AttachedTo a b → a = b := by
    intro a b ha hb hab
    rcases hab.cases_head with rfl | ⟨c, hac, hcb⟩
    · rfl
    · cases hunique ha hac
      exact (not_chain H hb hcb).elim
  rcases h.chain.total_of_right_unique hunique h'.chain with hab | hba
  · exact hup ht ht' hab
  · exact (hup ht' ht hba).symm

theorem nodup_parallelLoops : (st.parallelLoops depth s).Nodup := by
  induction depth generalizing s with
  | zero => exact nodup_nil
  | succ depth ih =>
    by_cases hs : ∃ stage, st.HasLoops s stage
    · obtain ⟨stage, hs⟩ := hs
      -- a loop below an attached stage says at which loop the stage is attached
      have hbelow : ∀ {key : ℤ × ℕ} {k : ℕ},
          key ∈ ((st.attachMap.iterToAttachedStages (s, ↑k)).getD []).flatMap
            (st.parallelLoops depth) →
          ∃ t, st.attachMap.stageToAttachIter t = some (s, ↑k) ∧ st.RunsIn t key.1 := by
        intro key k hkey
        obtain ⟨t, ht, hkey⟩ := mem_flatMap.mp hkey
        exact ⟨t, (mem_attached H).mp ht, (parallelIn_of_mem H hkey).1⟩
      have hown : ∀ {key : ℤ × ℕ} {p : Iterator × ℕ},
          key ∈ (if p.1.ann = .kParallel then [(s, p.2)] else []) → key = (s, p.2) := by
        intro key p hkey
        split_ifs at hkey
        · exact mem_singleton.mp hkey
        · cases hkey
      rw [parallelLoops_succ hs, nodup_flatMap]
      constructor
      · intro p _
        refine nodup_append'.mpr ⟨by split_ifs <;> simp, nodup_flatMap.mpr ⟨fun _ _ => ih, ?_⟩, ?_⟩
        · have hnodup : ((st.attachMap.iterToAttachedStages (s, ↑p.2)).getD []).Nodup := by
            unfold AttachMap.iterToAttachedStages
            cases hl : st.attachMap.sources (s, ↑p.2) with
            | none => exact nodup_nil
            | some l => exact H.exact.nodup _ l hl
          refine hnodup.imp_of_mem fun {t t'} ht ht' hne key hkey hkey' => hne ?_
          exact eq_of_runsIn H ⟨_, (mem_attached H).mp ht⟩ ⟨_, (mem_attached H).mp ht'⟩
            (parallelIn_of_mem H hkey).1 (parallelIn_of_mem H hkey').1
        · intro key hkey hkey'
          obtain ⟨t, ht, hrun⟩ := hbelow hkey'
          rw [hown hkey] at hrun
          exact not_chain H ⟨_, ht⟩ hrun.chain
      · have hindex : stage.iters.zipIdx.Pairwise fun p q => p.2 ≠ q.2 := by
          rw [← pairwise_map, zipIdx_map_snd]
          exact nodup_range'
        refine hindex.imp fun {p q} hne key hkey hkey' => hne ?_
        rcases mem_append.mp hkey with h | h
        · rcases mem_append.mp hkey' with h' | h'
          · exact (Prod.ext_iff.mp ((hown h).symm.trans (hown h'))).2
          · obtain ⟨t, ht, hrun⟩ := hbelow h'
            rw [hown h] at hrun
            exact (not_chain H ⟨_, ht⟩ hrun.chain).elim
        · obtain ⟨t, ht, hrun⟩ := hbelow h
          rcases mem_append.mp hkey' with h' | h'
          · rw [hown h'] at hrun
            exact (not_chain H ⟨_, ht⟩ hrun.chain).elim
          · obtain ⟨t', ht', hrun'⟩ := hbelow h'
            cases eq_of_runsIn H ⟨_, ht⟩ ⟨_, ht'⟩ hrun hrun'
            simpa using ht.symm.trans ht'
    · rw [eq_nil_iff_forall_not_mem.mpr fun key hkey => hs (exists_hasLoops hkey)]
      exact nodup_nil

/-- One walk counts two loops when two different ones run below the stage. -/
theorem Deep.exists_count (hd : st.Deep depth s) (hs : (atIndex st.stages s).isSome) :
    ∃ ct, countParallel st depth s 0 = some ct ∧
      (2 ≤ ct ↔ ∃ a b, st.ParallelIn s a ∧ st.ParallelIn s b ∧ a ≠ b) := by
  obtain ⟨ct, hct⟩ := hd.exists_countParallel H hs 0
  refine ⟨ct, hct, ?_⟩
  rw [countParallel_eq hct, Nat.zero_add]
  constructor
  · intro hlen
    have hne : (st.parallelLoops depth s)[0] ≠ (st.parallelLoops depth s)[1] := by
      simp [(nodup_parallelLoops H).getElem_inj_iff]
    exact ⟨_, _, (hd.mem_parallelLoops H).mp (getElem_mem _),
      (hd.mem_parallelLoops H).mp (getElem_mem _), hne⟩
  · rintro ⟨a, b, ha, hb, hne⟩
    rw [← hd.mem_parallelLoops H] at ha hb
    by_contra hlen
    match hl : st.parallelLoops depth s with
    | [] => simp [hl] at ha
    | [x] => simp_all
    | x :: y :: l => simp [hl] at hlen

theorem Inside.ne {a b : ℤ × ℕ} (h : st.Inside a b) : a ≠ b := by
  rintro rfl
  rcases h with ⟨-, hlt⟩ | ⟨t, k, ht, -, hrun⟩
  · exact lt_irrefl _ hlt
  · exact not_chain H ⟨_, ht⟩ hrun.chain

theorem Apart.ne {a b : ℤ × ℕ} (h : st.Apart a b) : a ≠ b := by
  rintro rfl
  obtain ⟨s, t, k, ht, hrun, ⟨rfl, -⟩ | ⟨t', hne, ht', hrun'⟩⟩ := h
  · exact not_chain H ⟨_, ht⟩ hrun.chain
  · exact hne (eq_of_runsIn H ht' ⟨_, ht⟩ hrun' hrun)

end State

end

theorem exists_checkRoot {st : State} (H : st.AttachForest) {depth s : ℕ} (hd : st.Deep depth s)
    (hs : s < st.stages.length) (found : Bool) : ∃ b, checkRoot depth st found s = some b ∧
      (b = true ↔ found = true ∨ st.TwoBelow s) := by
  have hstage := getElem?_eq_getElem hs
  cases found with
  | true => exact ⟨true, rfl, by simp⟩
  | false =>
    by_cases hroot : (st.stages[s]).computeAt = .kRoot
    · obtain ⟨ct, hct, htwo⟩ := hd.exists_count H (isSome_iff_exists.mpr ⟨_, hstage⟩)
      refine ⟨2 ≤ ct, by simp [checkRoot, hs, hroot, hct], ?_⟩
      simp [State.TwoBelow, State.IsRoot, hs, hroot, htwo]
    · refine ⟨false, by simp [checkRoot, hs, hroot], ?_⟩
      simp [State.TwoBelow, State.IsRoot, hs, hroot]

/-- The check reports a state when two parallel loops run below one root stage. -/
theorem exists_hasNestedParallel {st : State} (H : st.AttachForest) :
    ∃ n, ∀ depth, n ≤ depth → ∃ b, hasNestedParallel depth st = some b ∧
      (b = true ↔ st.TwoInNest) := by
  have hdeep : ∀ s ∈ range st.stages.length, ∃ n, ∀ d, n ≤ d → st.Deep d s :=
    fun s _ => State.exists_deep H s
  obtain ⟨n, hn⟩ := exists_bound hdeep
  refine ⟨n, fun depth hdepth => ?_⟩
  obtain ⟨b, hb, htwo⟩ := exists_foldlM_range
    (fun k found => found = true ↔ ∃ s < k, st.TwoBelow s)
    (fun k hk found hfound => by
      obtain ⟨b, hb, htwo⟩ := exists_checkRoot H (hn k (mem_range.mpr hk) depth hdepth) hk found
      exact ⟨b, hb, by rw [htwo, hfound, Nat.exists_lt_succ_right]⟩) (s := false) (by simp)
  refine ⟨b, hb, htwo.trans ⟨fun ⟨s, _, h⟩ => ⟨s, h⟩, fun ⟨s, h⟩ => ⟨s, ?_, h⟩⟩⟩
  obtain ⟨⟨stage, hstage, -⟩, -⟩ := h
  exact lt_of_getElem? hstage

/-- Two parallel loops below a root stage are nested or in different branches. -/
theorem twoInNest_iff {st : State} (H : st.AttachForest) :
    st.TwoInNest ↔ st.NestedParallel ∨ st.ApartParallel := by
  constructor
  · rintro ⟨s, hs, a, b, ha, hb, hne⟩
    rcases ha.1.compare hb.1 with heq | hab | hba | hab | hba
    · exact absurd heq hne
    · exact .inl ⟨s, a, b, hs, ha, hb, hab⟩
    · exact .inl ⟨s, b, a, hs, hb, ha, hba⟩
    · exact .inr ⟨s, a, b, hs, ha, hb, hab⟩
    · exact .inr ⟨s, b, a, hs, hb, ha, hba⟩
  · rintro (⟨s, a, b, hs, ha, hb, hab⟩ | ⟨s, a, b, hs, ha, hb, hab⟩)
    · exact ⟨s, hs, a, b, ha, hb, State.Inside.ne H hab⟩
    · exact ⟨s, hs, a, b, ha, hb, State.Apart.ne H hab⟩

/-- **When the check reports exactly the states with nested parallel loops**: no parallel loops
run in different branches below a root stage, or some parallel loops are nested. -/
theorem hasNestedParallel_iff {st : State} (H : st.AttachForest) :
    ∃ n, ∀ depth, n ≤ depth → ∃ b, hasNestedParallel depth st = some b ∧
      ((b = true ↔ st.NestedParallel) ↔ (¬ st.ApartParallel ∨ st.NestedParallel)) := by
  obtain ⟨n, hn⟩ := exists_hasNestedParallel H
  refine ⟨n, fun depth hdepth => ?_⟩
  obtain ⟨b, hb, htwo⟩ := hn depth hdepth
  refine ⟨b, hb, ?_⟩
  rw [htwo, twoInNest_iff H]
  constructor
  · intro hiff
    by_cases hapart : st.ApartParallel
    · exact .inr (hiff.mp (.inr hapart))
    · exact .inl hapart
  · rintro (hapart | hnested)
    · exact or_iff_left hapart
    · exact ⟨fun _ => hnested, .inl⟩

/-- Two stages with a parallel loop each, attached to the loop of a root stage. -/
def attachedLoops (ann : IteratorAnnotation) : State :=
  let stage (ann : IteratorAnnotation) (at' : ComputeAtKind) : Stage :=
    { (default : Stage) with iters := [⟨"i", none, .kSpatial, ann, []⟩], computeAt := at' }
  { stages := [stage .kParallel .kIter, stage .kParallel .kIter, stage ann .kRoot]
    transformSteps := []
    attachMap := AttachMap.setComputeAtIter (AttachMap.setComputeAtIter TwoWayMap.empty 0 2 0) 1 2 0
    currentComputeDag := none
    concrete := true }

theorem attached_attachedLoops {ann : IteratorAnnotation} {t : ℤ} {key : IterKey}
    (h : (attachedLoops ann).attachMap.stageToAttachIter t = some key) :
    (t = 0 ∨ t = 1) ∧ key = (2, 0) := by
  rcases eq_or_ne t 1 with rfl | h₁
  · cases h
    exact ⟨.inr rfl, rfl⟩
  · rcases eq_or_ne t 0 with rfl | h₀
    · cases h
      exact ⟨.inl rfl, rfl⟩
    · have hnone := (TwoWayMap.target_insert_of_ne _ h₁ (2, 0)).trans
        (TwoWayMap.target_insert_of_ne TwoWayMap.empty h₀ ((2 : ℤ), (0 : ℤ)))
      cases hnone.symm.trans h

theorem attachForest_attachedLoops (ann : IteratorAnnotation) :
    (attachedLoops ann).AttachForest where
  exact := TwoWayMap.exact_insert (TwoWayMap.exact_insert TwoWayMap.exact_empty _ _) _ _
  valid t key h := by
    obtain ⟨rfl | rfl, -⟩ := attached_attachedLoops h <;> rfl
  acyclic := by
    have hleaf : ∀ t : ℤ, t = 0 ∨ t = 1 → Acc (attachedLoops ann).AttachedTo t := by
      refine fun t ht => ⟨t, fun u ⟨k, hk⟩ => ?_⟩
      obtain ⟨-, hkey⟩ := attached_attachedLoops hk
      rcases ht with rfl | rfl <;> cases hkey
    exact ⟨fun s => ⟨s, fun t ⟨k, hk⟩ => hleaf t (attached_attachedLoops hk).1⟩⟩

/-- With a parallel loop around them, attached parallel loops are reported rightly. -/
theorem hasNestedParallel_attached : ∃ n, ∀ depth, n ≤ depth → ∃ b,
    hasNestedParallel depth (attachedLoops .kParallel) = some b ∧
      (b = true ↔ (attachedLoops .kParallel).NestedParallel) ∧
      (attachedLoops .kParallel).NestedParallel := by
  have hloops : ∀ s : ℕ, s = 0 ∨ s = 2 → ∃ stage it, (attachedLoops .kParallel).HasLoops s stage ∧
      stage.iters[0]? = some it ∧ it.ann = .kParallel := by
    rintro s (rfl | rfl)
    · exact ⟨_, _, ⟨rfl, by decide⟩, rfl, rfl⟩
    · exact ⟨_, _, ⟨rfl, by decide⟩, rfl, rfl⟩
  have hrun : (attachedLoops .kParallel).RunsIn 2 0 :=
    .attached (k := 0) ⟨rfl, by decide⟩ (by decide) rfl (.self 0)
  have hnested : (attachedLoops .kParallel).NestedParallel :=
    ⟨2, (2, 0), (0, 0), ⟨_, rfl, rfl⟩, ⟨.self 2, hloops 2 (.inr rfl)⟩, ⟨hrun, hloops 0 (.inl rfl)⟩,
      .inr ⟨0, 0, rfl, le_refl 0, .self 0⟩⟩
  obtain ⟨n, hn⟩ := hasNestedParallel_iff (attachForest_attachedLoops .kParallel)
  refine ⟨n, fun depth hdepth => ?_⟩
  obtain ⟨b, hb, hiff⟩ := hn depth hdepth
  exact ⟨b, hb, hiff.mpr (.inr hnested), hnested⟩

/-- Without one they are only siblings, and are reported too. -/
theorem hasNestedParallel_siblings :
    hasNestedParallel 2 (attachedLoops .kNone) = some true ∧
      ¬ (attachedLoops .kNone).NestedParallel := by
  have hloops : ∀ {s : ℤ} {key : ℤ × ℕ}, (attachedLoops .kNone).ParallelIn s key →
      key = (0, 0) ∨ key = (1, 0) := by
    rintro s ⟨t, j⟩ ⟨-, stage, it, ⟨hstage, -⟩, hit, hann⟩
    obtain ⟨n, rfl, hn⟩ := atIndex_eq_some_iff.mp hstage
    match n, hn with
    | 0, hn | 1, hn | 2, hn =>
      cases hn
      rcases j with _ | j <;> cases hit
      simp_all
    | n + 3, hn => cases hn
  refine ⟨by decide +kernel, ?_⟩
  rintro ⟨s, a, b, -, ha, hb, ⟨heq, hlt⟩ | ⟨t, k, ht, -⟩⟩
  · rcases hloops ha with rfl | rfl <;> rcases hloops hb with rfl | rfl <;> simp_all
  · have htwo : a.1 = 2 := congrArg Prod.fst (attached_attachedLoops ht).2
    rcases hloops ha with rfl | rfl <;> cases htwo

end Pruner.AutoScheduler
