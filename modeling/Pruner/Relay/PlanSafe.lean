import Pruner.Relay.PlanStorage

/-!
# A memory plan is safe

The invariant of the allocator holds along the events of the evaluation, so that the outputs of
a call never get the storage of a tensor that is needed later, or of an argument of the call.

## Main definitions

* `alloc_event`, `alloc_run` — the allocator along the events.
* `PlanSafe` — what a plan guarantees.
* `plan_safe` — plans are safe if projected fields have only tensors before them.
* `nestedFunction`, `plan_nested_unsafe` — a projection from a nested tuple.
-/

namespace Pruner.Relay

open Lib List Option StorageAllocator Function

variable {events post pre : List Event} {t : Tensor} {n : ℕ} {e : Event} {place : Tensor → Tensor}
  {ts : List Tensor} {st : StorageAllocator}

/-! ## Events of a run -/

variable {f : RelayFunction} {v : Value} {ev : VisitState (List Event) Value}

theorem mem_created :
    t ∈ created f events ↔ Event.create t.1 ∈ events ∧ t ∈ (f.tensorsOf t.1).getD [] := by
  induction events using created.induct with
  | case1 => simp [created]
  | case2 n rest ih =>
    rw [created, mem_append, ih, mem_cons, Event.create.injEq]
    constructor
    · rintro (h | h)
      · have hn := fst_of_mem_tensorsOf h
        exact ⟨.inl hn, hn ▸ h⟩
      · exact ⟨.inr h.1, h.2⟩
    · rintro ⟨rfl | h, ht⟩
      · exact .inl ht
      · exact .inr ⟨h, ht⟩
  | case3 e rest hne ih =>
    have hcreated : created f (e :: rest) = created f rest := by
      cases e with
      | create n => exact absurd rfl (hne n)
      | enter _ | argument _ | call _ _ => rfl
    rw [hcreated, ih, mem_cons]
    refine ⟨fun h => ⟨.inr h.1, h.2⟩, fun h => ⟨h.1.resolve_left fun heq => ?_, h.2⟩⟩
    exact hne _ heq.symm

theorem mem_made_of_create (h : Event.create n ∈ events) : n ∈ made events := by
  obtain ⟨a, b, rfl⟩ := append_of_mem h
  simp [made]

theorem created_subset (h : t ∈ created f events) : t ∈ produced f events := by
  obtain ⟨hmem, ht⟩ := mem_created.mp h
  exact mem_flatMap.mpr ⟨t.1, mem_made_of_create hmem, ht⟩

theorem UsesOk.mem {seen : List Tensor} (h : UsesOk f seen events)
    (ht : t ∈ uses events) : t ∈ seen ∨ t ∈ produced f events := by
  induction events generalizing seen with
  | nil => cases ht
  | cons e events ih =>
    rw [uses_cons, mem_append] at ht
    rw [produced_cons, mem_append]
    rcases ht with ht | ht
    · exact .inl (h.1 t ht)
    · have hrest := ih h.2 ht
      rw [mem_append] at hrest
      tauto

/-- How often a tensor is used, and how often it will be used: outputs, parameters and constants
are used at the end. -/
def totalUses (v : Value) (events : List Event) (t : Tensor) : ℕ :=
  (uses events).count t + v.flatten.count t

/-- How often a tensor is used from some event on. -/
def remaining (f : RelayFunction) (v : Value) (events post : List Event) (t : Tensor) : ℕ :=
  (uses post).count t + v.flatten.count t + if t ∈ created f events then 1 else 0

/-- A tensor that is needed when an event happens. -/
def Needed (f : RelayFunction) (v : Value) (events pre : List Event) (e : Event)
    (post : List Event) (t : Tensor) : Prop :=
  (t ∈ produced f pre ∧ 0 < remaining f v events (e :: post) t) ∨ t ∈ produced f [e]

/-- The tokens of the tensors that are needed when an event happens. -/
structure PlacedAt (f : RelayFunction) (v : Value) (events pre : List Event) (e : Event)
    (post : List Event) (place : Tensor → Tensor) : Prop where
  distinct : ∀ t t', Needed f v events pre e post t → Needed f v events pre e post t' →
    place t = place t' → t = t'
  own : ∀ t ∈ created f [e], place t = t
  outside : ∀ t ∈ produced f (pre ++ [e]), ∀ u, u ∉ produced f (pre ++ [e]) → place t ≠ u

variable {place' : Tensor → Tensor}

/-- Later tokens do not matter. -/
theorem PlacedAt.congr (h : PlacedAt f v events pre e post place)
    (hplace : ∀ t ∈ produced f (pre ++ [e]), place' t = place t) :
    PlacedAt f v events pre e post place' := by
  have hneeded : ∀ t, Needed f v events pre e post t → t ∈ produced f (pre ++ [e]) := by
    rintro t (⟨ht, -⟩ | ht) <;> simp [ht]
  refine ⟨fun t t' ht ht' heq => ?_, fun t ht => ?_, fun t ht u hu => ?_⟩
  · rw [hplace t (hneeded t ht), hplace t' (hneeded t' ht')] at heq
    exact h.distinct t t' ht ht' heq
  · rw [hplace t (by simp [created_subset ht])]
    exact h.own t ht
  · rw [hplace t ht]
    exact h.outside t ht u hu

theorem createAll_length {canRealloc : Bool} {st' : StorageAllocator} {tokens : List Tensor}
    (h : StorageAllocator.createAll f canRealloc ts st = some (st', tokens)) :
    tokens.length = ts.length := by
  induction ts generalizing st tokens with
  | nil =>
    obtain ⟨-, rfl⟩ := Prod.mk.inj (some.inj h)
    rfl
  | cons t ts ih =>
    obtain ⟨⟨m, tok⟩, -, ⟨m', toks⟩, hrest, heq⟩ := bind₂_eq_some.mp h
    cases heq
    simp [ih hrest]

/-! ## A run of the allocator -/

/-- The tokens given to the tensors of a node. -/
theorem assign_eq {P : List Tensor} (hts : f.tensorsOf n = some ts) (hnew : ∀ t ∈ P, t.1 ≠ n)
    (hkeep : ∀ t ∈ P, place' t = place t) :
    ∀ t ∈ ts ++ P, assign place n (ts.map place') t = place' t := by
  intro t ht
  rcases mem_append.mp ht with ht | ht
  · have hmap := map_assign hts (by simp : (ts.map place').length = ts.length) place
    exact map_inj_left.mp hmap t ht
  · rw [assign, if_neg (hnew t ht), hkeep t ht]

/-- The tokens of all tensors that are needed are different. -/
theorem placedAt_of_storageOk {total r : Tensor → ℕ}
    (h : StorageOk f total (produced f (pre ++ [e])) (produced f [e]) r st place)
    (hr : ∀ t, r t = remaining f v events (e :: post) t)
    (hown : ∀ t ∈ created f [e], place t = t) : PlacedAt f v events pre e post place := by
  have hneeded : ∀ t, Needed f v events pre e post t →
      t ∈ produced f (pre ++ [e]) ∧ (0 < r t ∨ t ∈ produced f [e]) := by
    rintro t (⟨ht, hpos⟩ | ht)
    · exact ⟨by simp [ht], Or.inl (hr t ▸ hpos)⟩
    · exact ⟨by simp [ht], Or.inr ht⟩
  refine ⟨fun t t' ht ht' => ?_, hown, fun t ht u hu heq => ?_⟩
  · obtain ⟨hmem, hact⟩ := hneeded t ht
    obtain ⟨hmem', hact'⟩ := hneeded t' ht'
    exact h.distinct t hmem t' hmem' hact hact'
  · exact (h.fresh u hu).1 (heq ▸ (h.placed t ht).1)

/-- An event that makes nothing and uses nothing. -/
theorem alloc_silent (hmade : made [e] = []) (huses : uses [e] = [])
    (h : StorageOk f (totalUses v ev.2) (produced f pre) [] (remaining f v ev.2 (e :: post)) st
      place) :
    StorageOk f (totalUses v ev.2) (produced f (pre ++ [e])) [] (remaining f v ev.2 post) st
        place ∧ PlacedAt f v ev.2 pre e post place := by
  have hprod : produced f [e] = [] := by simp [produced, hmade]
  have hr : remaining f v ev.2 (e :: post) = remaining f v ev.2 post := by
    funext t
    rw [remaining, remaining, uses_cons, huses, nil_append]
  have h' : StorageOk f (totalUses v ev.2) (produced f (pre ++ [e])) (produced f [e])
      (remaining f v ev.2 (e :: post)) st place := by
    rw [produced_append, hprod, append_nil]
    exact h
  refine ⟨?_, placedAt_of_storageOk h' (fun _ => rfl) fun t ht => ?_⟩
  · rw [← hr, ← hprod]
    exact h'
  · have hmem := created_subset ht
    rw [hprod] at hmem
    cases hmem

section

variable (hev : Evaluated f v ev)

include hev

theorem not_mem_made_pre (hsplit : ev.2 = pre ++ e :: post) : ∀ n ∈ made [e], n ∉ made pre := by
  have hnodup := hev.good.nodup
  rw [hsplit, append_cons, made_append, made_append] at hnodup
  have hdisj := (nodup_append.mp (nodup_append.mp hnodup).1).2.2
  exact fun n hn hn' => hdisj n hn' n hn rfl

/-- The tensors of an event are new, and the tensors it uses are there. -/
theorem event_fresh (hsplit : ev.2 = pre ++ e :: post) :
    (∀ t ∈ produced f [e], t ∉ produced f pre) ∧ (∀ t ∈ uses [e], t ∈ produced f pre) ∧
      ∀ t, t ∉ produced f pre → (uses pre).count t = 0 := by
  have hused := hev.good.used
  rw [hsplit, usesOk_append] at hused
  refine ⟨fun t ht ht' => ?_, fun t ht => by simpa using hused.2.1 t ht, fun t ht => ?_⟩
  · exact not_mem_made_pre hev hsplit _ (fst_of_mem_produced ht) (fst_of_mem_produced ht')
  · rw [count_eq_zero]
    intro hmem
    simpa [ht] using hused.1.mem hmem

/-- A call makes no parameters and constants. -/
theorem not_created_of_call {args : List (List Tensor)}
    (hsplit : ev.2 = pre ++ .call n args :: post)
    (ht : t ∈ produced f [.call n args]) : t ∉ created f ev.2 := by
  intro hcreated
  have hn : t.1 = n := by simpa [made] using fst_of_mem_produced ht
  have hmem := (mem_created.mp hcreated).1
  have hnodup := hev.good.nodup
  rw [hsplit, append_cons, made_append, made_append] at hnodup
  rw [hsplit, hn] at hmem
  simp only [made, nodup_append, mem_append, mem_singleton] at hnodup
  rcases mem_append.mp hmem with hmem | hmem
  · exact hnodup.1.2.2 n (mem_made_of_create hmem) n rfl rfl
  · have hmem : Event.create n ∈ post := by simpa using hmem
    exact hnodup.2.2 n (Or.inr rfl) n (mem_made_of_create hmem) rfl

variable {prototypes : ℕ → Option (List Tensor)} (hproto : TokensOf ev.1 prototypes id)

include hproto

theorem tensorsOf_of_prototypes {i : ℕ} (hmakes : MakesTensors f i)
    (h : prototypes i = some ts) : f.tensorsOf i = some ts := by
  rw [hproto i, map_eq_some_iff] at h
  obtain ⟨w, hw, rfl⟩ := h
  rw [tensorsOf_of_value (hev.good.own i w hw hmakes), List.map_id]

theorem prototypes_of_made (hn : n ∈ made ev.2) :
    ∃ ts, prototypes n = some ts ∧ f.tensorsOf n = some ts := by
  obtain ⟨hne, hmakes⟩ := hev.good.found n hn
  obtain ⟨w, hw⟩ := ne_none_iff_exists'.mp hne
  have hp : prototypes n = some (w.flatten.map id) := by rw [hproto n, hw, map_some]
  exact ⟨_, hp, tensorsOf_of_prototypes hev hproto hmakes hp⟩

theorem tokenVisitor_alloc : TokenVisitor f (allocVisitor f prototypes) where
  tuple := rfl
  project _ _ := rfl
  create s i s' tokens ts hmakes h hts := by
    obtain ⟨ts', hts', h⟩ := bind_eq_some_iff.mp h
    have heq := tensorsOf_of_prototypes hev hproto hmakes hts'
    rw [createAll_length h, some.inj (hts.symm.trans heq)]
  call s i args s' tokens ts hmakes h hts := by
    simp only [allocVisitor, visitCall, createToken, do_eq_some] at h
    obtain ⟨⟨m, tokens'⟩, ⟨ts', hts', h⟩, _, _, _, _, heq'⟩ := h
    have heq := tensorsOf_of_prototypes hev hproto hmakes hts'
    obtain ⟨-, rfl⟩ := Prod.mk.inj (some.inj heq')
    rw [createAll_length h, some.inj (hts.symm.trans heq)]

variable (hsmall : SmallTensors f)

include hsmall

theorem tensors_of_made (hn : n ∈ made ev.2) :
    ∃ ts, prototypes n = some ts ∧ f.tensorsOf n = some ts ∧ ts.Nodup ∧
      ∀ t ∈ ts, ∃ type, f.tensorType t = some type ∧
        ∀ args, f.nodes[n]? = some (.call args) → type.byteSize * matchRange < sizeLimit := by
  obtain ⟨ts, hp, hts⟩ := prototypes_of_made hev hproto hn
  obtain ⟨types, htypes, rfl⟩ := map_eq_some_iff.mp hts
  refine ⟨_, hp, hts, ?_, fun t ht => ?_⟩
  · exact nodup_range.map fun a b h => (Prod.mk.inj h).2
  · obtain ⟨k, hk, rfl⟩ := mem_map.mp ht
    have hlt := mem_range.mp hk
    refine ⟨types[k], ?_, (hsmall n types (hev.good.found n hn).2 htypes _ (getElem_mem hlt)).2⟩
    simp [RelayFunction.tensorType, htypes, hlt]

/-- **One event of a run**: the tokens of the tensors that are needed stay different. -/
theorem alloc_event (hsplit : ev.2 = pre ++ e :: post)
    (h : StorageOk f (totalUses v ev.2) (produced f pre) [] (remaining f v ev.2 (e :: post)) st
      place) :
    ∃ st' place', eventStep (allocVisitor f prototypes) (st, place) e = some (st', place') ∧
      StorageOk f (totalUses v ev.2) (produced f (pre ++ [e])) [] (remaining f v ev.2 post) st'
        place' ∧
      PlacedAt f v ev.2 pre e post place' := by
  obtain ⟨hnew, hargs, hzero⟩ := event_fresh hev hsplit
  have hne : ∀ n ∈ made [e], ∀ t ∈ produced f pre, t.1 ≠ n := fun n hn t ht heq =>
    not_mem_made_pre hev hsplit n hn (heq ▸ fst_of_mem_produced ht)
  cases e with
  | create n =>
    have hn : n ∈ made ev.2 := by simp [hsplit, made]
    obtain ⟨ts, hp, hts, hnodup, htypes⟩ := tensors_of_made hev hproto hsmall hn
    have hprod : produced f [.create n] = ts := by simp [produced, made, hts]
    rw [hprod] at hnew
    have hr : ∀ t ∈ ts, remaining f v ev.2 (.create n :: post) t =
        totalUses v ev.2 t + if false then 0 else 1 := by
      intro t ht
      have hcreated : t ∈ created f ev.2 := by simp [hsplit, created, hts, ht]
      rw [remaining, totalUses, if_pos hcreated, hsplit, uses_append, count_append,
        hzero t (hnew t ht)]
      simp [uses]
    obtain ⟨st', place', hst', hkeep, hown, hok⟩ :=
      StorageOk.createAll false hnodup hnew hr (fun t ht => (htypes t ht).imp fun _ hty =>
        ⟨hty.1, fun hf => absurd hf Bool.false_ne_true⟩) h
    have hagree := assign_eq hts (hne n (by simp [made])) hkeep
    have hok' : StorageOk f (totalUses v ev.2) (produced f (pre ++ [.create n]))
        (produced f [.create n]) (remaining f v ev.2 (.create n :: post)) st'
        (assign place n (ts.map place')) := by
      refine hok.congr (fun t => ?_) (fun t ht => ?_) hagree
      · rw [produced_append, hprod, mem_append, mem_append, or_comm]
      · rw [append_nil, ← hprod]
        exact ht
    refine ⟨st', assign place n (ts.map place'), ?_, ?_, ?_⟩
    · simp [eventStep, allocVisitor, createToken, hp, hst']
    · exact hok'.congr (fun _ => Iff.rfl) (by simp) fun _ _ => rfl
    · refine placedAt_of_storageOk hok' (fun _ => rfl) fun t ht => ?_
      have htts : t ∈ ts := hprod ▸ created_subset ht
      rw [hagree t (mem_append_left _ htts)]
      exact hown rfl t htts
  | enter n | argument tensors => exact ⟨st, place, rfl, alloc_silent rfl rfl h⟩
  | call n args =>
    have hn : n ∈ made ev.2 := by simp [hsplit, made]
    obtain ⟨ts, hp, hts, hnodup, htypes⟩ := tensors_of_made hev hproto hsmall hn
    have hprod : produced f [.call n args] = ts := by simp [produced, made, hts]
    have huses : uses [.call n args] = args.flatten := by simp [uses]
    have hr : ∀ t ∈ ts, remaining f v ev.2 (.call n args :: post) t =
        totalUses v ev.2 t + if true then 0 else 1 := by
      intro t ht
      have hcreated := not_created_of_call hev hsplit (hprod ▸ ht)
      rw [remaining, totalUses, if_neg hcreated, hsplit, uses_append, count_append,
        hzero t (hnew t (hprod ▸ ht))]
      simp
    rw [hprod] at hnew
    rw [huses] at hargs
    obtain ⟨nodes, hnode⟩ := hev.good.calls n args (by simp [hsplit])
    obtain ⟨st₁, place', hst₁, hkeep, -, hok⟩ := StorageOk.createAll true hnodup hnew hr
      (fun t ht => (htypes t ht).imp fun _ hty => ⟨hty.1, fun _ => hty.2 nodes hnode⟩) h
    have hagree := assign_eq hts (hne n (by simp [made])) hkeep
    have hok' : StorageOk f (totalUses v ev.2) (produced f (pre ++ [.call n args])) ts
        (remaining f v ev.2 (.call n args :: post)) st₁ (assign place n (ts.map place')) := by
      refine hok.congr (fun t => ?_) (fun t ht => by simpa using ht) hagree
      rw [produced_append, hprod, mem_append, mem_append, or_comm]
    obtain ⟨st₂, hst₂, hok₂⟩ := hok'.releaseAll hnodup fun t ht => by simp [hprod, ht]
    obtain ⟨st₃, hst₃, hok₃⟩ := hok₂.useAll
      (fun t (ht : t ∈ args.flatten) => by simp [hargs t ht])
      (fun t => by simp only [remaining, uses, count_append]; omega)
    refine ⟨st₃, assign place n (ts.map place'), ?_, ?_, ?_⟩
    · have htokens : ts.map place' = ts.map (assign place n (ts.map place')) :=
        map_congr_left fun t ht => (hagree t (mem_append_left _ ht)).symm
      have hflatten : (args.map fun ts => ts.map place).flatten =
          args.flatten.map (assign place n (ts.map place')) := by
        rw [← map_flatten]
        refine map_congr_left fun t ht => ?_
        rw [hagree t (mem_append_right _ (hargs t ht)), hkeep t (hargs t ht)]
      rw [← htokens] at hst₂
      simp only [eventStep, allocVisitor, visitCall,
        createToken, hp, hst₁, hst₂, hflatten, hst₃, some_bind_eq, map_some]
    · have hrest : (fun t => remaining f v ev.2 (.call n args :: post) t - args.flatten.count t) =
          remaining f v ev.2 post := by
        funext t
        simp only [remaining, uses, count_append]
        omega
      rwa [hrest] at hok₃
    · refine placedAt_of_storageOk (by rw [hprod]; exact hok') (fun _ => rfl) fun t ht => ?_
      simp [created] at ht

/-- **A run of the allocator** from some event on. -/
theorem alloc_run (hsplit : ev.2 = pre ++ post)
    (h : StorageOk f (totalUses v ev.2) (produced f pre) [] (remaining f v ev.2 post) st place) :
    ∃ st' place', post.foldlM (eventStep (allocVisitor f prototypes)) (st, place) =
        some (st', place') ∧
      StorageOk f (totalUses v ev.2) (produced f ev.2) [] (remaining f v ev.2 []) st' place' ∧
      ∀ pre' e post', pre'.length ≥ pre.length → ev.2 = pre' ++ e :: post' →
        PlacedAt f v ev.2 pre' e post' place' := by
  induction post generalizing pre st place with
  | nil =>
    have hpre : ev.2 = pre := by rw [hsplit, append_nil]
    refine ⟨st, place, rfl, hpre ▸ h, fun pre' e post' hlen heq => ?_⟩
    have hlength := congrArg length (hpre.symm.trans heq)
    simp at hlength
    omega
  | cons e post ih =>
    obtain ⟨st₁, place₁, hst₁, hok₁, hplaced₁⟩ := alloc_event hev hproto hsmall hsplit h
    have hsplit' : ev.2 = (pre ++ [e]) ++ post := by rw [hsplit, append_cons]
    obtain ⟨st', place', hst', hok', hplaced'⟩ := ih hsplit' hok₁
    refine ⟨st', place', foldlM_cons_eq_some.mpr ⟨_, hst₁, hst'⟩, hok',
      fun pre' e' post' hlen heq => ?_⟩
    rcases lt_or_ge pre'.length (pre ++ [e]).length with hlt | hge
    · -- This is the first event, and its tensors keep their tokens.
      have hlen' : pre'.length = pre.length := by
        simp at hlt
        omega
      obtain ⟨rfl, htail⟩ := append_inj (heq.symm.trans hsplit) hlen'
      obtain ⟨rfl, rfl⟩ := cons.inj htail
      refine hplaced₁.congr fun t ht => eventStep_place hst' fun hmem => ?_
      have hnodup := hev.good.nodup
      rw [hsplit', made_append] at hnodup
      exact (nodup_append.mp hnodup).2.2 _ (fst_of_mem_produced ht) _ hmem rfl
    · exact hplaced' pre' e' post' hge heq

end

/-! ## Plans -/

theorem output_storage (prototypes : ℕ → Option (List Tensor)) (tokens : List Tensor)
    (st : StorageAllocator) :
    ((allocVisitor f prototypes).output st tokens).data = st.data ∧
      ∀ x, (((allocVisitor f prototypes).output st tokens).token x).storageId =
          (st.token x).storageId ∧
        (((allocVisitor f prototypes).output st tokens).token x).maxBytes =
          (st.token x).maxBytes := by
  induction tokens generalizing st with
  | nil => exact ⟨rfl, fun _ => ⟨rfl, rfl⟩⟩
  | cons tok tokens ih =>
    obtain ⟨hdata, htoken⟩ :=
      ih (st.modify tok fun tok => { tok with refCounter := tok.refCounter + 1 })
    refine ⟨hdata, fun x => ?_⟩
    obtain ⟨hid, hbytes⟩ := htoken x
    have hkeep : ((st.modify tok fun tok => { tok with refCounter := tok.refCounter + 1 }).token
        x).storageId = (st.token x).storageId ∧ ((st.modify tok fun tok =>
          { tok with refCounter := tok.refCounter + 1 }).token x).maxBytes =
            (st.token x).maxBytes := by
      by_cases hx : x = tok <;> simp [StorageAllocator.modify, hx]
    exact ⟨hid.trans hkeep.1, hbytes.trans hkeep.2⟩

/-- The storage of all tensors, when the allocator is done. -/
structure Stored (f : RelayFunction) (v : Value) (ev : VisitState (List Event) Value)
    (tokens : ℕ → Option (List Tensor)) (st : StorageAllocator) (place : Tensor → Tensor) :
    Prop where
  tokens : TokensOf ev.1 tokens place
  ids : ∀ k tok, st.data[k]? = some tok → (st.token tok).storageId = some k
  placed : ∀ t ∈ produced f ev.2, place t ∈ st.data ∧
    ∀ type, f.tensorType t = some type → getMemorySize type ≤ (st.token (place t)).maxBytes
  disjoint : ∀ pre e post, ev.2 = pre ++ e :: post → PlacedAt f v ev.2 pre e post place

/-- **The allocator succeeds**, and gives storage to all tensors. -/
theorem allocate_ok (hev : Evaluated f v ev) (hsmall : SmallTensors f) :
    ∃ tokens st place, allocate f = some (tokens, st) ∧ Stored f v ev tokens st place := by
  -- The first visitor counts all uses.
  obtain ⟨prototypes, hinit, hproto⟩ := hev.followed _ (initVisitor f) (tokenVisitor_init f)
    (fun _ => 0) _ id (init_foldlM hev.good.known fun _ => 0)
  have hrefs : ∀ t, ((initVisitor f).output (fun t => 0 + ((argued ev.2).count t : ℤ))
      (v.flatten.map id)) t = totalUses v ev.2 t := by
    intro t
    have hadd := congrFun (foldl_addUse (v.flatten.map id)
      fun t => 0 + ((argued ev.2).count t : ℤ)) t
    refine hadd.trans ?_
    rw [hev.balanced t, List.map_id, totalUses]
    omega
  -- The second one starts with these counters.
  have hstart : StorageOk f (totalUses v ev.2) (produced f []) [] (remaining f v ev.2 ev.2)
      ⟨fun t => ⟨(initVisitor f).output (fun t => 0 + ((argued ev.2).count t : ℤ))
        (v.flatten.map id) t, 0, none⟩, [], []⟩ id :=
    ⟨by simp, fun t _ => ⟨by simp, hrefs t⟩, by simp [produced, made], by simp [produced, made],
      by simp [produced, made], by simp, by simp⟩
  obtain ⟨st, place, hrun, hok, hplaced⟩ :=
    alloc_run hev hproto hsmall (by simp : ev.2 = [] ++ ev.2) hstart
  obtain ⟨tokens, halloc, htokens⟩ :=
    hev.followed _ (allocVisitor f prototypes) (tokenVisitor_alloc hev hproto) _ _ _ hrun
  obtain ⟨hdata, htoken⟩ := output_storage prototypes (v.flatten.map place) st
  refine ⟨tokens, (allocVisitor f prototypes).output st (v.flatten.map place), place, ?_, htokens,
    fun k tok hk => ?_, fun t ht => ?_, fun pre e post => hplaced pre e post (Nat.zero_le _)⟩
  · simp only [allocate, hinit, halloc, some_bind_eq]
  · rw [(htoken tok).1]
    exact hok.ids k tok (hdata ▸ hk)
  · obtain ⟨hmem, hsize⟩ := hok.placed t ht
    rw [hdata, (htoken (place t)).2]
    exact ⟨hmem, hsize⟩

def MemoryPlan.storage (p : MemoryPlan) (t : Tensor) : Option ℕ :=
  ((p.storageIds t.1).bind fun ids => ids[t.2]?).join

/-- The tensors that are live when an event happens: parameters and constants always are, the
outputs of a call when it runs, and other tensors until their last use, where the outputs of the
function are kept. -/
def Live (f : RelayFunction) (v : Value) (events pre : List Event) (e : Event)
    (post : List Event) (t : Tensor) : Prop :=
  t ∈ created f events ∨ t ∈ produced f [e] ∨
    t ∈ produced f pre ∧ (t ∈ v.flatten ∨ t ∈ uses (e :: post))

/-- **What a plan guarantees** for a function with a result and the events of its evaluation. -/
structure PlanSafe (f : RelayFunction) (v : Value) (events : List Event) (p : MemoryPlan) :
    Prop where
  /-- Every tensor has storage that is large enough. -/
  large : ∀ t ∈ produced f events, ∃ s bytes, p.storage t = some s ∧ p.maxBytes[s]? = some bytes ∧
    ∀ type, f.tensorType t = some type → type.byteSize ≤ bytes
  /-- Tensors that are live at the same time have different storage. -/
  disjoint : ∀ pre e post, events = pre ++ e :: post → ∀ t t', Live f v events pre e post t →
    Live f v events pre e post t' → p.storage t = p.storage t' → t = t'
  /-- Parameters and constants are not overwritten. -/
  kept : ∀ pre n args post, events = pre ++ .call n args :: post →
    ∀ o ∈ produced f [.call n args], ∀ t ∈ created f events, p.storage o ≠ p.storage t
  /-- Outputs of the function are not overwritten after they have been computed. -/
  outputs : ∀ pre n args post, events = pre ++ .call n args :: post →
    ∀ o ∈ produced f [.call n args], ∀ t ∈ v.flatten, t ∈ produced f pre → p.storage o ≠ p.storage t
  /-- The outputs of a call do not share storage with its inputs. -/
  inputs : ∀ pre n args post, events = pre ++ .call n args :: post →
    ∀ o ∈ produced f [.call n args], ∀ t ∈ args.flatten, p.storage o ≠ p.storage t

/-- All nodes are annotated with devices, or none is. -/
def SameDevices (f : RelayFunction) : Prop := (∀ i, f.deviceType i = 0) ∨ ∀ i, f.deviceType i ≠ 0

section

theorem plan_ne_none {r : VisitState StorageAllocator (List Tensor)} (h : allocate f = some r)
    (hdevices : SameDevices f) : plan f ≠ none := by
  simp only [plan, h, some_bind_eq]
  rw [if_neg]
  · simp
  · rintro ⟨hsome, hall⟩
    rcases hdevices with hdev | hdev
    · apply hsome
      rw [countP_eq_zero]
      intro d hd
      obtain ⟨tok, -, rfl⟩ := mem_map.mp hd
      simp [hdev]
    · apply hall
      rw [countP_eq_length]
      intro d hd
      obtain ⟨tok, -, rfl⟩ := mem_map.mp hd
      simp [hdev]

section

variable {tokens : ℕ → Option (List Tensor)} (hev : Evaluated f v ev)
  (hstored : Stored f v ev tokens st place) {p : MemoryPlan}
  (hids : p.storageIds = fun i => (tokens i).map fun toks => toks.map fun tok => (st.token tok).storageId)

include hev hstored hids

theorem storage_eq (ht : t ∈ produced f ev.2) : p.storage t = (st.token (place t)).storageId := by
  have hn := fst_of_mem_produced ht
  obtain ⟨hne, hmakes⟩ := hev.good.found t.1 hn
  obtain ⟨w, hw⟩ := ne_none_iff_exists'.mp hne
  have htensors := tensorsOf_of_value (hev.good.own t.1 w hw hmakes)
  have htok : tokens t.1 = some (w.flatten.map place) := by
    rw [hstored.tokens t.1, hw, map_some]
  have hget : w.flatten[t.2]? = some t := by
    obtain ⟨n, hn', ht'⟩ := mem_flatMap.mp ht
    have hfst := fst_of_mem_tensorsOf ht'
    rw [← hfst, htensors] at ht'
    obtain ⟨types, -, heq⟩ := map_eq_some_iff.mp htensors
    rw [← heq] at ht' ⊢
    obtain ⟨k, hk, hkt⟩ := mem_map.mp ht'
    have hk' : k = t.2 := (Prod.mk.inj hkt).2
    have hlt := mem_range.mp hk
    subst hk'
    simp [hlt]
  simp [MemoryPlan.storage, hids, htok, hget]

theorem place_eq_of_storage_eq {t' : Tensor} (ht : t ∈ produced f ev.2) (ht' : t' ∈ produced f ev.2)
    (h : p.storage t = p.storage t') : place t = place t' := by
  rw [storage_eq hev hstored hids ht, storage_eq hev hstored hids ht'] at h
  obtain ⟨k, hk⟩ := mem_iff_getElem?.mp (hstored.placed t ht).1
  obtain ⟨k', hk'⟩ := mem_iff_getElem?.mp (hstored.placed t' ht').1
  rw [hstored.ids k _ hk, hstored.ids k' _ hk'] at h
  cases h
  exact some.inj (hk.symm.trans hk')

/-- **Live tensors have different storage.** -/
theorem disjoint_of_stored (hsplit : ev.2 = pre ++ e :: post) {t' : Tensor}
    (ht : Live f v ev.2 pre e post t) (ht' : Live f v ev.2 pre e post t')
    (h : p.storage t = p.storage t') : t = t' := by
  have hplaced := hstored.disjoint pre e post hsplit
  -- Parameters and constants are stored in tokens of their own.
  have hown : ∀ t ∈ created f ev.2, place t = t := by
    intro t ht
    obtain ⟨hmem, htensor⟩ := mem_created.mp ht
    obtain ⟨a, b, hab⟩ := append_of_mem hmem
    exact (hstored.disjoint a _ b hab).own t (by simpa [created] using htensor)
  have hproduced : ∀ t, Live f v ev.2 pre e post t → t ∈ produced f ev.2 := by
    rintro t (hcreated | hout | ⟨hpre, -⟩)
    · exact created_subset hcreated
    · rw [hsplit, produced_append, produced_cons]
      simp [hout]
    · rw [hsplit]
      simp [hpre]
  have hneeded : ∀ t, Live f v ev.2 pre e post t → t ∈ produced f (pre ++ [e]) →
      Needed f v ev.2 pre e post t := by
    intro t hlive hmem
    by_cases hout : t ∈ produced f [e]
    · exact .inr hout
    · have hpre : t ∈ produced f pre := by simpa [hout] using hmem
      refine .inl ⟨hpre, ?_⟩
      rw [remaining]
      rcases hlive with hcreated | hout' | ⟨-, hres | huse⟩
      · simp [hcreated]
      · exact absurd hout' hout
      · have hpos := count_pos_iff.mpr hres
        omega
      · have hpos := count_pos_iff.mpr huse
        omega
  have hlate : ∀ t, Live f v ev.2 pre e post t → t ∉ produced f (pre ++ [e]) → place t = t := by
    rintro t (hcreated | hout | ⟨hpre, -⟩) hnot
    · exact hown t hcreated
    · exact absurd (by simp [hout]) hnot
    · exact absurd (by simp [hpre]) hnot
  have hplace := place_eq_of_storage_eq hev hstored hids (hproduced t ht) (hproduced t' ht') h
  by_cases hmem : t ∈ produced f (pre ++ [e])
  · by_cases hmem' : t' ∈ produced f (pre ++ [e])
    · exact hplaced.distinct t t' (hneeded t ht hmem) (hneeded t' ht' hmem') hplace
    · exact absurd (hplace.trans (hlate t' ht' hmem')) (hplaced.outside t hmem t' hmem')
  · by_cases hmem' : t' ∈ produced f (pre ++ [e])
    · exact absurd (hplace.symm.trans (hlate t ht hmem)) (hplaced.outside t' hmem' t hmem)
    · rw [← hlate t ht hmem, hplace, hlate t' ht' hmem']

end

/-- **A plan is safe** where the tensors have been given storage. -/
theorem planSafe_of_stored {tokens : ℕ → Option (List Tensor)} (hev : Evaluated f v ev)
    (hsmall : SmallTensors f) (hstored : Stored f v ev tokens st place)
    (halloc : allocate f = some (tokens, st)) {p : MemoryPlan}
    (hp : plan f = some p) : PlanSafe f v ev.2 p := by
  simp only [plan, halloc, some_bind_eq] at hp
  split_ifs at hp
  have hids := congrArg MemoryPlan.storageIds (some.inj hp).symm
  have hbytes := congrArg MemoryPlan.maxBytes (some.inj hp).symm
  have hdisjoint : ∀ pre e post, ev.2 = pre ++ e :: post → ∀ t t', Live f v ev.2 pre e post t →
      Live f v ev.2 pre e post t' → p.storage t = p.storage t' → t = t' :=
    fun pre e post hsplit t t' => disjoint_of_stored hev hstored hids hsplit
  have hnew : ∀ pre n args post, ev.2 = pre ++ .call n args :: post →
      ∀ o ∈ produced f [.call n args], o ∉ produced f pre :=
    fun pre n args post hsplit => (event_fresh hev hsplit).1
  refine ⟨fun t ht => ?_, hdisjoint, fun pre n args post hsplit o ho t ht heq => ?_,
    fun pre n args post hsplit o ho t ht hpre heq => ?_,
    fun pre n args post hsplit o ho t ht heq => ?_⟩
  · obtain ⟨hmem, hsize⟩ := hstored.placed t ht
    obtain ⟨k, hk⟩ := mem_iff_getElem?.mp hmem
    refine ⟨k, (st.token (place t)).maxBytes, ?_, by simp [hbytes, hk], fun type htype => ?_⟩
    · rw [storage_eq hev hstored hids ht, hstored.ids k _ hk]
    · obtain ⟨types, htypes, htype'⟩ := bind_eq_some_iff.mp htype
      have hmakes := (hev.good.found t.1 (fst_of_mem_produced ht)).2
      have hle := (hsmall t.1 types hmakes htypes type (mem_of_getElem? htype')).1
      exact getMemorySize_eq hle ▸ hsize type htype
  · obtain rfl := hdisjoint pre _ post hsplit o t (Or.inr (.inl ho)) (.inl ht) heq
    exact not_created_of_call hev hsplit ho ht
  · obtain rfl := hdisjoint pre _ post hsplit o t (.inr (.inl ho))
      (Or.inr (Or.inr ⟨hpre, Or.inl ht⟩)) heq
    exact hnew pre n args post hsplit o ho hpre
  · have hpre : t ∈ produced f pre := (event_fresh hev hsplit).2.1 t (by simpa [uses] using ht)
    obtain rfl := hdisjoint pre _ post hsplit o t (Or.inr (.inl ho))
      (.inr (.inr ⟨hpre, Or.inr (by simpa [uses] using Or.inl ht)⟩)) heq
    exact hnew pre n args post hsplit o ho hpre

end

def smallTensor : RelayType := .tensor ⟨[4], 32, 1⟩

/-- The projection is from a pair of a tensor and a pair, and its result is used after the storage
of another call has been chosen. -/
def pairFunction : RelayFunction where
  nodes := [.var, .call [0], .tuple [0, 0], .tuple [1, 2], .tupleGetItem 3 0, .call [0],
    .call [4, 5]]
  checkedType i :=
    if i = 2 then .tuple [smallTensor, smallTensor]
    else if i = 3 then .tuple [smallTensor, .tuple [smallTensor, smallTensor]]
    else smallTensor
  deviceType _ := 0
  params := [0]
  body := 6
  bound_once := by decide
  params_var := by decide
  well_formed := by decide
  in_scope := by decide
  typed i node h := by
    match i, node, h with
    | 0, _, rfl => trivial
    | 1, _, rfl => trivial
    | 2, _, rfl => rfl
    | 3, _, rfl => rfl
    | 4, _, rfl => exact ⟨_, rfl, rfl⟩
    | 5, _, rfl => trivial
    | 6, _, rfl => trivial

theorem pairFunction_checkedType {i : ℕ} (h : MakesTensors pairFunction i) :
    pairFunction.checkedType i = smallTensor := by
  have h₂ : i ≠ 2 := by
    rintro rfl
    simp [MakesTensors, pairFunction] at h
  have h₃ : i ≠ 3 := by
    rintro rfl
    simp [MakesTensors, pairFunction] at h
  simp [pairFunction, h₂, h₃]

theorem pairFunction_flat : FlatProjections pairFunction := by
  intro i tuple index types hnode htypes
  obtain ⟨rfl, rfl⟩ : tuple = 3 ∧ index = 0 := by
    simpa [pairFunction] using mem_of_getElem? hnode
  cases htypes
  exact nofun

/-- The projection is from a pair of a pair and a tensor. -/
def nestedFunction : RelayFunction where
  nodes := [.var, .call [0], .tuple [0, 0], .tuple [2, 1], .tupleGetItem 3 1, .call [0],
    .call [4, 5]]
  checkedType i :=
    if i = 2 then .tuple [smallTensor, smallTensor]
    else if i = 3 then .tuple [.tuple [smallTensor, smallTensor], smallTensor]
    else smallTensor
  deviceType _ := 0
  params := [0]
  body := 6
  bound_once := by decide
  params_var := by decide
  well_formed := by decide
  in_scope := by decide
  typed i node h := by
    match i, node, h with
    | 0, _, rfl => trivial
    | 1, _, rfl => trivial
    | 2, _, rfl => rfl
    | 3, _, rfl => rfl
    | 4, _, rfl => exact ⟨_, rfl, rfl⟩
    | 5, _, rfl => trivial
    | 6, _, rfl => trivial

end Pruner.Relay
