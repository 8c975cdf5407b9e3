import Pruner.Relay.PlanEvents

/-!
# Visitors of tokens

The two visitors of the planner take the steps of the evaluation, on tokens in place of tensors,
where projections are only taken from tuples of tensors.  A visitor keeps the tokens of nested
tuples in one list, so that an index does not say which field of a nested tuple is meant.

## Main definitions

* `eventStep` — what a visitor does at an event.
* `FlatProjections` — a projected field and the fields before it are tensors.
* `visit_follows`, `runVisitor_follows` — a visitor follows the events of the evaluation.
* `exists_runVisitor` — a function in scope can be evaluated.
-/

namespace Pruner.Relay

open Lib List Option Function Prod

variable {place place' : Tensor → Tensor} {new : List Event} {tokens : ℕ → Option (List Tensor)}
  {body value x fuel i : ℕ} {f : RelayFunction} {st st' : VisitState (List Event) Value}

/-! ## Following the events -/

/-- The tokens of the tensors that a node makes. -/
def assign (place : Tensor → Tensor) (i : ℕ) (tokens : List Tensor) (t : Tensor) : Tensor :=
  if t.1 = i then tokens.getD t.2 t else place t

/-- What a visitor does at an event, on the tokens of the tensors. -/
def eventStep {σ : Type} (vis : Visitor σ (List Tensor)) (st : σ × (Tensor → Tensor)) :
    Event → Option (σ × (Tensor → Tensor))
  | .create i => (vis.create st.1 i).map fun r => (r.1, assign st.2 i r.2)
  | .enter i => (vis.enter st.1 i).map fun s => (s, st.2)
  | .argument tensors => some (vis.argument st.1 (tensors.map st.2), st.2)
  | .call i args => (vis.call st.1 i (args.map fun ts => ts.map st.2)).map fun r =>
    (r.1, assign st.2 i r.2)

/-- A visitor of tokens, as the base class has them: the tokens of a tuple are in one list. -/
structure TokenVisitor {σ : Type} (f : RelayFunction) (vis : Visitor σ (List Tensor)) : Prop where
  tuple : vis.tuple = List.flatten
  project : ∀ tokens index, vis.project tokens index = tokens[index]?.map fun tok => [tok]
  create : ∀ s i s' tokens ts, MakesTensors f i → vis.create s i = some (s', tokens) →
    f.tensorsOf i = some ts → tokens.length = ts.length
  call : ∀ s i args s' tokens ts, MakesTensors f i → vis.call s i args = some (s', tokens) →
    f.tensorsOf i = some ts → tokens.length = ts.length

/-- The tokens of the nodes are the tokens of the tensors of their values. -/
def TokensOf (values : ℕ → Option Value) (tokens : ℕ → Option (List Tensor))
    (place : Tensor → Tensor) : Prop :=
  ∀ j, tokens j = (values j).map fun v => v.flatten.map place

variable {σ : Type} {vis : Visitor σ (List Tensor)}

theorem map_assign {i : ℕ} {ts tokens : List Tensor} (h : f.tensorsOf i = some ts)
    (hlen : tokens.length = ts.length) (place : Tensor → Tensor) :
    ts.map (assign place i tokens) = tokens := by
  obtain ⟨types, -, rfl⟩ := map_eq_some_iff.mp h
  refine ext_getElem (by simp [hlen]) fun k hk hk' => ?_
  simp [assign, hk']

variable {s s' : σ} {t : Tensor} {values : ℕ → Option Value}

theorem eventStep_place {events : List Event}
    (h : events.foldlM (eventStep vis) (s, place) = some (s', place'))
    (ht : t.1 ∉ made events) : place' t = place t := by
  induction events generalizing s place with
  | nil =>
    cases h
    rfl
  | cons e events ih =>
    obtain ⟨⟨s₁, place₁⟩, h₁, h⟩ := foldlM_cons_eq_some.mp h
    have hsplit : t.1 ∉ made [e] ∧ t.1 ∉ made events := by
      rw [← not_or, ← mem_append, ← made_append]
      exact ht
    rw [ih h hsplit.2]
    cases e with
    | create i | call i args =>
      obtain ⟨r, -, hr⟩ := map_eq_some_iff.mp h₁
      have hne : t.1 ≠ i := by simpa [made] using hsplit.1
      rw [← (mk.inj hr).2, assign, if_neg hne]
    | enter i =>
      obtain ⟨r, -, hr⟩ := map_eq_some_iff.mp h₁
      rw [← (mk.inj hr).2]
    | argument tensors => rw [← (mk.inj (some.inj h₁)).2]

/-- The tokens of tensors that are there do not change. -/
theorem Advance.place_eq (hgood : Good f st) (h : Advance f st st' new)
    (hrun : new.foldlM (eventStep vis) (s, place) = some (s', place'))
    (ht : t ∈ produced f st.2) : place' t = place t :=
  eventStep_place hrun fun hmade => (hgood.found _ (fst_of_mem_produced ht)).1 (h.fresh _ hmade)

theorem TokensOf.set (h : TokensOf values tokens place) (i : ℕ) (v : Value) :
    TokensOf (update values i (some v))
      (update tokens i (some (v.flatten.map place))) place := by
  intro j
  by_cases hj : j = i
  · subst hj
    simp
  · simpa [update_of_ne hj] using h j

/-- Tokens stay the tokens of the values while the evaluation goes on. -/
theorem TokensOf.advance (h : TokensOf st.1 tokens place) (hgood : Good f st)
    (hadv : Advance f st st' new)
    (hrun : new.foldlM (eventStep vis) (s, place) = some (s', place')) :
    TokensOf st.1 tokens place' := by
  intro j
  rw [h j]
  cases hv : st.1 j with
  | none => rfl
  | some v =>
    refine congrArg some (map_congr_left fun t ht => ?_)
    exact (hadv.place_eq hgood hrun ((hgood.values j v hv).1 t ht)).symm

/-- The field that a projection takes from a tuple, and the fields before it, are tensors. -/
def FlatProjections (f : RelayFunction) : Prop :=
  ∀ (i tuple index : ℕ) (types : List RelayType), f.nodes[i]? = some (.tupleGetItem tuple index) →
    f.checkedType tuple = .tuple types → (RelayType.tuple (types.take (index + 1))).tensors ≠ none

/-- Every visitor of tokens follows a part of the evaluation. -/
def Followed (f : RelayFunction) {R : Type} (st st' : VisitState (List Event) Value)
    (new : List Event) (run : ∀ {σ : Type}, Visitor σ (List Tensor) → VisitState σ (List Tensor) →
      Option (R × VisitState σ (List Tensor))) (result : (Tensor → Tensor) → R) : Prop:=
  ∀ (σ : Type) (vis : Visitor σ (List Tensor)), TokenVisitor f vis →
    ∀ tokens s place s' place', TokensOf st.1 tokens place →
      new.foldlM (eventStep vis) (s, place) = some (s', place') →
      ∃ tokens', run vis (tokens, s) = some (result place', tokens', s') ∧
        TokensOf st'.1 tokens' place'

structure VisitedNode (f : RelayFunction) (fuel i : ℕ) (v : Value)
    (st st' : VisitState (List Event) Value) (new : List Event) : Prop where
  advance : Advance f st st' new
  value : st'.1 i = some v
  below : ∀ n, i < n → f.nodes[n]? ≠ some .var → st'.1 n = st.1 n
  balanced : ∀ t, (argued new).count t = (uses new).count t
  followed : Followed f st st' new (fun vis => visit f.nodes vis fuel i)
    fun place => v.flatten.map place

/-- What happens after a node of a list has been visited: it may be an argument. -/
def afterNode {σ V : Type} (vis : Visitor σ V) (isArg : Bool) (st : VisitState σ V) (v : V) :
    VisitState σ V :=
  match isArg with
  | true => (st.1, vis.argument st.2 v)
  | false => st

/-- What visits of all nodes of a list do. -/
structure VisitedNodes (f : RelayFunction) (fuel : ℕ) (isArg : Bool) (nodes : List ℕ)
    (vs : List Value) (st st' : VisitState (List Event) Value) (new : List Event) : Prop where
  advance : Advance f st st' new
  values : ∀ v ∈ vs, ∀ t ∈ v.flatten, t ∈ produced f st'.2
  typed : List.Forall₂ HasType vs (nodes.map f.checkedType)
  below : ∀ n, (∀ i ∈ nodes, i < n) → f.nodes[n]? ≠ some .var → st'.1 n = st.1 n
  balanced : ∀ t, (argued new).count t =
    (uses new).count t + if isArg then (vs.map Value.flatten).flatten.count t else 0
  followed : Followed f st st' new
    (fun vis => visitEach (visit f.nodes vis fuel) (afterNode vis isArg) nodes)
    fun place => vs.map fun v => v.flatten.map place

section

theorem advance_afterNode {st : VisitState (List Event) Value} (hgood : Good f st) (isArg : Bool)
    (v : Value) : ∃ new, Advance f st (afterNode (evalVisitor f) isArg st v) new ∧
      (afterNode (evalVisitor f) isArg st v).1 = st.1 ∧ made new = [] ∧ uses new = [] ∧
      argued new = (if isArg then v.flatten else []) ∧
      ∀ (σ : Type) (vis : Visitor σ (List Tensor)) tokens s place s' place',
        new.foldlM (eventStep vis) (s, place) = some (s', place') →
        place' = place ∧ (tokens, s') = afterNode vis isArg (tokens, s) (v.flatten.map place) := by
  cases isArg with
  | false =>
    refine ⟨[], .refl hgood, rfl, rfl, rfl, rfl, fun σ vis tokens s place s' place' h => ?_⟩
    cases h
    exact ⟨rfl, rfl⟩
  | true =>
    refine ⟨[.argument v.flatten], .silent hgood rfl rfl (by simp [Event.node]), rfl, rfl, rfl,
      by simp [argued],
      fun σ vis tokens s place s' place' h => ?_⟩
    cases h
    exact ⟨rfl, rfl⟩

variable {nodes params : List ℕ} {v : Value}

theorem visitEach_follows {isArg : Bool}
    (hvisit : ∀ i v st st', Good f st → visit f.nodes (evalVisitor f) fuel i st = some (v, st') →
      ∃ new, VisitedNode f fuel i v st st' new) {vs : List Value}
    {st st' : VisitState (List Event) Value} (hgood : Good f st)
    (h : visitEach (visit f.nodes (evalVisitor f) fuel) (afterNode (evalVisitor f) isArg) nodes st =
      some (vs, st')) :
    ∃ new, VisitedNodes f fuel isArg nodes vs st st' new := by
  induction nodes generalizing vs st with
  | nil =>
    cases h
    refine ⟨[], .refl hgood, by simp, .nil, fun _ _ _ => rfl, by simp [argued, uses], ?_⟩
    intro σ vis _ tokens s place s' place' hrel hrun
    cases hrun
    exact ⟨tokens, rfl, hrel⟩
  | cons i nodes ih =>
    obtain ⟨⟨v, m⟩, hv, ⟨ws, m'⟩, hws, heq⟩ := bind₂_eq_some.mp h
    cases heq
    obtain ⟨new₁, h₁⟩ := hvisit i v st m hgood hv
    obtain ⟨new₂, hadv₂, hvals₂, hmade₂, huses₂, hargued₂, hrun₂⟩ :=
      advance_afterNode h₁.advance.good isArg v
    obtain ⟨new₃, h₃⟩ := ih hadv₂.good hws
    have hadv := hadv₂.trans h₃.advance
    have hv' := h₁.advance.good.values i v h₁.value
    refine ⟨new₁ ++ (new₂ ++ new₃), h₁.advance.trans hadv, fun w hw => ?_,
      .cons hv'.2 h₃.typed, fun n hn hvar => ?_, fun t => ?_, ?_⟩
    · rcases mem_cons.mp hw with rfl | hw
      · intro t ht
        rw [hadv.log]
        simp [hv'.1 t ht]
      · exact h₃.values w hw
    · rw [h₃.below n (forall_mem_cons.mp hn).2 hvar, hvals₂]
      exact h₁.below n (hn i mem_cons_self) hvar
    · have hb₁ := h₁.balanced t
      have hb₃ := h₃.balanced t
      simp only [argued_append, uses_append, count_append, hargued₂, huses₂]
      cases isArg with
      | false =>
        simp at hb₃ ⊢
        omega
      | true =>
        simp only [if_true, map_cons, flatten_cons, count_append] at hb₃ ⊢
        simp only [count_nil]
        omega
    · intro σ vis hvis tokens s place s' place' hrel hrun
      obtain ⟨⟨s₁, place₁⟩, hr₁, hrun⟩ := foldlM_append_eq_some.mp hrun
      obtain ⟨⟨s₂, place₂⟩, hr₂, hr₃⟩ := foldlM_append_eq_some.mp hrun
      obtain ⟨tokens₁, hv₁, hrel₁⟩ := h₁.followed σ vis hvis tokens s place s₁ place₁ hrel hr₁
      obtain ⟨rfl, hst₂⟩ := hrun₂ σ vis tokens₁ s₁ place₁ s₂ place₂ hr₂
      obtain ⟨tokens₃, hv₃, hrel₃⟩ := h₃.followed σ vis hvis tokens₁ s₂ place₂ s' place'
        (by rwa [hvals₂]) hr₃
      refine ⟨tokens₃, ?_, hrel₃⟩
      have hsame : v.flatten.map place₂ = v.flatten.map place' := by
        refine map_congr_left fun t ht => ?_
        exact (h₃.advance.place_eq hadv₂.good hr₃ (by rw [hadv₂.log]; simp [hv'.1 t ht])).symm
      dsimp only at hv₁ hv₃
      simp only [visitEach, hv₁, some_bind_eq]
      rw [← hst₂, hv₃, hsame]
      rfl

/-- A token visitor at a node that has not been visited. -/
theorem TokensOf.none (h : TokensOf values tokens place) {i : ℕ} (hi : values i = none) :
    tokens i = none := by
  rw [h i, hi, map_none]

section

variable {V : Type} (vis : Visitor σ V) {nodes : List ExprNode} {st : VisitState σ V}
  (hi : st.1 i = none)

include hi

theorem visit_constant (hnode : nodes[i]? = some .constant) :
    visit nodes vis (fuel + 1) i st = (vis.create st.2 i).bind fun r =>
      some (r.2, update st.1 i (some r.2), r.1) := by
  simp [visit, hi, hnode]

theorem visit_call {args : List ℕ} (hnode : nodes[i]? = some (.call args)) :
    visit nodes vis (fuel + 1) i st = (vis.enter st.2 i).bind fun s =>
      (visitEach (visit nodes vis fuel) (afterNode vis true) args (st.1, s)).bind fun r =>
        (vis.call r.2.2 i r.1).bind fun q =>
          some (q.2, update r.2.1 i (some q.2), q.1) := by
  simp only [visit, hi, hnode]
  rfl

theorem visit_tuple {fields : List ℕ} (hnode : nodes[i]? = some (.tuple fields)) :
    visit nodes vis (fuel + 1) i st =
      (visitEach (visit nodes vis fuel) (afterNode vis false) fields st).bind fun r =>
        some (vis.tuple r.1, update r.2.1 i (some (vis.tuple r.1)), r.2.2) := by
  simp only [visit, hi, hnode]
  rfl

theorem visit_tupleGetItem {tuple index : ℕ}
    (hnode : nodes[i]? = some (.tupleGetItem tuple index)) :
    visit nodes vis (fuel + 1) i st = (visit nodes vis fuel tuple st).bind fun r =>
      (vis.project r.1 index).bind fun v =>
        some (v, update r.2.1 i (some v), r.2.2) := by
  simp only [visit, hi, hnode]
  rfl

theorem visit_letIn (hnode : nodes[i]? = some (.letIn x value body)) :
    visit nodes vis (fuel + 1) i st = (visit nodes vis fuel value st).bind fun r =>
      (visit nodes vis fuel body (update r.2.1 x (some r.1), r.2.2)).bind fun q =>
        some (q.1, update q.2.1 i (some q.1), q.2.2) := by
  simp only [visit, hi, hnode]
  rfl

end

section

variable (hgood : Good f st) (hi : st.1 i = none)
  (h : visit f.nodes (evalVisitor f) (fuel + 1) i st = some (v, st'))

include hgood hi h

theorem visitedNode_constant (hnode : f.nodes[i]? = some .constant) :
    ∃ new, VisitedNode f (fuel + 1) i v st st' new := by
  simp only [visit_constant _ hi hnode, evalVisitor, bind_eq_some_iff, map_eq_some_iff] at h
  obtain ⟨⟨events, w⟩, ⟨w', hw, heq'⟩, heq⟩ := h
  obtain ⟨rfl, rfl⟩ := mk.inj heq'
  obtain ⟨rfl, rfl⟩ := mk.inj (some.inj heq)
  have hmakes : MakesTensors f i := .inr (.inl hnode)
  have hadv : Advance f st (update st.1 i (some w'), st.2 ++ [.create i]) [.create i] :=
    .make hgood hi hw rfl rfl hmakes nofun (by simp [uses])
  refine ⟨[.create i], hadv, by simp, fun n hn _ => update_of_ne hn.ne' _ _,
    by simp [argued, uses], ?_⟩
  intro σ vis hvis tokens s place s' place' hrel hrun
  have hset := (hrel.advance hgood hadv hrun).set i w'
  rw [foldlM_singleton, eventStep, map_eq_some_iff] at hrun
  obtain ⟨⟨s₁, toks⟩, hcreate, heq⟩ := hrun
  obtain ⟨rfl, rfl⟩ := mk.inj heq
  have htensors := tensorsOf_of_value hw
  have hmap := map_assign htensors (hvis.create _ _ _ _ _ hmakes hcreate htensors) place
  refine ⟨_, ?_, hset⟩
  dsimp only at hcreate ⊢
  rw [visit_constant vis (hrel.none hi) hnode, hcreate, bind_some, hmap]

variable (ih : ∀ i v st st', Good f st → visit f.nodes (evalVisitor f) fuel i st = some (v, st') →
  ∃ new, VisitedNode f fuel i v st st' new)

include ih

theorem visitedNode_call {args : List ℕ} (hnode : f.nodes[i]? = some (.call args)) :
    ∃ new, VisitedNode f (fuel + 1) i v st st' new := by
  simp only [visit_call _ hi hnode, bind_eq_some_iff] at h
  obtain ⟨s₀, henter, ⟨vs, m⟩, heach, ⟨events, w⟩, hcall, heq⟩ := h
  obtain ⟨rfl, rfl⟩ := mk.inj (some.inj heq)
  simp only [evalVisitor, map_eq_some_iff] at henter hcall
  obtain ⟨_, -, rfl⟩ := henter
  obtain ⟨w', hw, heq'⟩ := hcall
  obtain ⟨rfl, rfl⟩ := mk.inj heq'
  have henter : Advance f st (st.1, st.2 ++ [.enter i]) [.enter i] :=
    .silent hgood rfl rfl (by simp [Event.node, hw])
  obtain ⟨new, hnew⟩ := visitEach_follows ih henter.good heach
  have hvar : f.nodes[i]? ≠ some .var := by simp [hnode]
  have hmakes : MakesTensors f i := .inr (.inr ⟨args, hnode⟩)
  have hargs := hnew.below i (fun j hj => f.lt_of_child hnode hj) hvar
  have hmake : Advance f m
      (update m.1 i (some w'), m.2 ++ [.call i (vs.map Value.flatten)])
      [.call i (vs.map Value.flatten)] := by
    refine .make hnew.advance.good (hargs.trans hi) hw rfl rfl hmakes (fun n _ heq => ?_)
      fun t ht => ?_
    · cases heq
      exact ⟨_, hnode⟩
    obtain ⟨v, hv, ht⟩ : ∃ v ∈ vs, t ∈ v.flatten := by simpa [uses] using ht
    exact hnew.values v hv t ht
  refine ⟨[.enter i] ++ (new ++ [.call i (vs.map Value.flatten)]),
    henter.trans (hnew.advance.trans hmake), by simp, fun n hn hv => ?_, fun t => ?_, ?_⟩
  · refine (update_of_ne hn.ne' _ _).trans ?_
    exact hnew.below n (fun j hj => (f.lt_of_child hnode hj).trans hn) hv
  · have hb := hnew.balanced t
    simp [argued, uses, hb]
  · intro σ vis hvis tokens s place s' place' hrel hrun
    obtain ⟨⟨s₁, place₁⟩, hr₁, hrun⟩ := foldlM_append_eq_some.mp hrun
    obtain ⟨⟨s₂, place₂⟩, hr₂, hr₃⟩ := foldlM_append_eq_some.mp hrun
    rw [foldlM_singleton, eventStep, map_eq_some_iff] at hr₁
    obtain ⟨_, hvisEnter, heq⟩ := hr₁
    rw [← (mk.inj heq).1, ← (mk.inj heq).2] at hr₂
    obtain ⟨tokens₂, heach₂, hrel₂⟩ := hnew.followed σ vis hvis tokens _ place s₂ place₂ hrel hr₂
    have hset := (hrel₂.advance hnew.advance.good hmake hr₃).set i w'
    rw [foldlM_singleton, eventStep, map_eq_some_iff] at hr₃
    obtain ⟨⟨s₃, toks⟩, hvisCall, heq⟩ := hr₃
    obtain ⟨rfl, rfl⟩ := mk.inj heq
    have htensors := tensorsOf_of_value hw
    have hmap := map_assign htensors (hvis.call _ _ _ _ _ _ hmakes hvisCall htensors) place₂
    refine ⟨_, ?_, hset⟩
    rw [List.map_map] at hvisCall
    dsimp only at hvisEnter heach₂ hvisCall ⊢
    rw [visit_call vis (hrel.none hi) hnode, hvisEnter, bind_some, heach₂, bind_some]
    rw [show vs.map (fun v => v.flatten.map place₂) =
        vs.map ((fun ts => ts.map place₂) ∘ Value.flatten) from rfl, hvisCall, bind_some, hmap]

theorem visitedNode_tuple {fields : List ℕ} (hnode : f.nodes[i]? = some (.tuple fields)) :
    ∃ new, VisitedNode f (fuel + 1) i v st st' new := by
  simp only [visit_tuple _ hi hnode, bind_eq_some_iff] at h
  obtain ⟨⟨vs, m⟩, heach, heq⟩ := h
  cases heq
  obtain ⟨new, hnew⟩ := visitEach_follows ih hgood heach
  have hflatten : (Value.tuple vs).flatten = (vs.map Value.flatten).flatten := flattenAll_eq vs
  have htyped : f.checkedType i = .tuple (fields.map f.checkedType) := f.typed i _ hnode
  have hset : Advance f m (update m.1 i (some (.tuple vs)), m.2) [] := by
    refine .set hnew.advance.good (not_makesTensors hnode (by simp) (by simp) (by simp))
      (fun t ht => ?_) (htyped ▸ .tuple hnew.typed)
    obtain ⟨v, hv, ht⟩ : ∃ v ∈ vs, t ∈ v.flatten := by simpa [hflatten] using ht
    exact hnew.values v hv t ht
  refine ⟨new ++ [], hnew.advance.trans hset, by simp [evalVisitor], fun n hn hv => ?_,
    fun t => ?_, ?_⟩
  · refine (update_of_ne hn.ne' _ _).trans ?_
    exact hnew.below n (fun j hj => (f.lt_of_child hnode hj).trans hn) hv
  · simpa using hnew.balanced t
  · intro σ vis hvis tokens s place s' place' hrel hrun
    rw [append_nil] at hrun
    obtain ⟨tokens₁, heach₁, hrel₁⟩ := hnew.followed σ vis hvis tokens s place s' place' hrel hrun
    refine ⟨_, ?_, hrel₁.set i (.tuple vs)⟩
    dsimp only at heach₁ ⊢
    rw [visit_tuple vis (hrel.none hi) hnode, heach₁, bind_some, hvis.tuple]
    have hmap : (vs.map fun v => v.flatten.map place').flatten =
        (Value.tuple vs).flatten.map place' := by
      rw [hflatten, map_flatten, List.map_map]
      rfl
    rw [hmap]
    rfl

theorem visitedNode_tupleGetItem (hflat : FlatProjections f) {tuple index : ℕ}
    (hnode : f.nodes[i]? = some (.tupleGetItem tuple index)) :
    ∃ new, VisitedNode f (fuel + 1) i v st st' new := by
  simp only [visit_tupleGetItem _ hi hnode, bind_eq_some_iff] at h
  obtain ⟨⟨w, m⟩, hvisit, u, hproj, heq⟩ := h
  cases heq
  obtain ⟨new, hnew⟩ := ih tuple w st m hgood hvisit
  obtain ⟨types, htuple, hindex⟩ : ∃ types, f.checkedType tuple = .tuple types ∧
    types[index]? = some (f.checkedType i) := f.typed i _ hnode
  obtain ⟨hprod, hwtype⟩ := hnew.advance.good.values tuple w hnew.value
  rw [htuple] at hwtype
  have hflat' := hflat i tuple index types hnode htuple
  cases w with
  | tensor t => cases hproj
  | tuple ws =>
    obtain ⟨t, rfl, ht⟩ := getElem?_flatten_of_flat hwtype hflat' hproj
    have hu : ∀ t' ∈ (Value.tensor t).flatten, t' ∈ produced f m.2 := by
      intro t' ht'
      obtain rfl := mem_singleton.mp ht'
      exact hprod t' (mem_of_getElem? ht)
    have hutype : HasType (.tensor t) (f.checkedType i) := by
      cases hwtype with
      | tuple hall =>
        have hlt := lt_of_getElem? hindex
        have hlt' := lt_of_getElem? hproj
        have hget := (forall₂_iff_get.mp hall).2 index hlt' hlt
        rw [get_eq_getElem, get_eq_getElem] at hget
        rw [(List.getElem?_eq_some_iff.mp hindex).2] at hget
        exact (List.getElem?_eq_some_iff.mp hproj).2 ▸ hget
    have hset := Advance.set hnew.advance.good
      (not_makesTensors hnode (by simp) (by simp) (by simp)) hu hutype
    refine ⟨new ++ [], hnew.advance.trans hset, by simp, fun n hn hv => ?_, fun t => ?_, ?_⟩
    · refine (update_of_ne hn.ne' _ _).trans ?_
      exact hnew.below n ((f.lt_of_child hnode (by simp [ExprNode.children])).trans hn) hv
    · simpa using hnew.balanced t
    · intro σ vis hvis tokens s place s' place' hrel hrun
      rw [append_nil] at hrun
      obtain ⟨tokens₁, hvisit₁, hrel₁⟩ :=
        hnew.followed σ vis hvis tokens s place s' place' hrel hrun
      refine ⟨_, ?_, hrel₁.set i (.tensor t)⟩
      dsimp only at hvisit₁ ⊢
      rw [visit_tupleGetItem vis (hrel.none hi) hnode, hvisit₁, bind_some, hvis.project,
        getElem?_map, ht]
      rfl

omit hgood hi h ih in
/-- A variable gets the value it is bound to. -/
theorem advance_bind (hnode : f.nodes[i]? = some (.letIn x value body)) {w : Value}
    {m : VisitState (List Event) Value} (hvalue : VisitedNode f fuel value w st m new) :
    Advance f m (update m.1 x (some w), m.2) [] := by
  obtain ⟨hxtype, -⟩ : f.checkedType x = f.checkedType value ∧
    f.checkedType i = f.checkedType body := f.typed i _ hnode
  obtain ⟨hwprod, hwtype⟩ := hvalue.advance.good.values value w hvalue.value
  exact .set hvalue.advance.good (not_makesTensors_of_letIn hnode) hwprod (hxtype ▸ hwtype)

theorem visitedNode_letIn (hnode : f.nodes[i]? = some (.letIn x value body)) :
    ∃ new, VisitedNode f (fuel + 1) i v st st' new := by
  simp only [visit_letIn _ hi hnode, bind_eq_some_iff] at h
  obtain ⟨⟨w, m⟩, hvalue, ⟨u, m'⟩, hbody, heq⟩ := h
  cases heq
  obtain ⟨-, hitype⟩ : f.checkedType x = f.checkedType value ∧
    f.checkedType i = f.checkedType body := f.typed i _ hnode
  obtain ⟨new₁, h₁⟩ := ih value w st m hgood hvalue
  have hset₁ := advance_bind hnode h₁
  obtain ⟨new₂, h₂⟩ := ih body u _ m' hset₁.good hbody
  obtain ⟨huprod, hutype⟩ := h₂.advance.good.values body u h₂.value
  have hset₂ := Advance.set h₂.advance.good (not_makesTensors hnode (by simp) (by simp) (by simp))
    huprod (hitype ▸ hutype : HasType u (f.checkedType i))
  refine ⟨new₁ ++ [] ++ (new₂ ++ []),
    (h₁.advance.trans hset₁).trans (h₂.advance.trans hset₂), by simp, fun n hn hv => ?_,
    fun t => ?_, ?_⟩
  · have hchild : ∀ j ∈ [value, body], j < n := fun j hj => (f.lt_of_child hnode hj).trans hn
    have hnx : n ≠ x := by
      rintro rfl
      exact hv (f.var_of_letIn hnode)
    refine (update_of_ne hn.ne' _ _).trans ?_
    refine (h₂.below n (hchild body (by simp)) hv).trans ?_
    refine (update_of_ne hnx _ _).trans ?_
    exact h₁.below n (hchild value (by simp)) hv
  · have hb₁ := h₁.balanced t
    have hb₂ := h₂.balanced t
    simp only [append_nil, argued_append, uses_append, count_append]
    omega
  · intro σ vis hvis tokens s place s' place' hrel hrun
    rw [append_nil, append_nil] at hrun
    obtain ⟨⟨s₁, place₁⟩, hr₁, hr₂⟩ := foldlM_append_eq_some.mp hrun
    obtain ⟨tokens₁, hv₁, hrel₁⟩ := h₁.followed σ vis hvis tokens s place s₁ place₁ hrel hr₁
    obtain ⟨tokens₂, hv₂, hrel₂⟩ := h₂.followed σ vis hvis _ s₁ place₁ s' place' (hrel₁.set x w) hr₂
    refine ⟨_, ?_, hrel₂.set i u⟩
    dsimp only at hv₁ hv₂ ⊢
    rw [visit_letIn vis (hrel.none hi) hnode, hv₁, bind_some]
    rw [hv₂, bind_some]

end

/-- **A visitor of tokens follows the evaluation** of a node. -/
theorem visit_follows (hflat : FlatProjections f) {i : ℕ} (hgood : Good f st)
    (h : visit f.nodes (evalVisitor f) fuel i st = some (v, st')) :
    ∃ new, VisitedNode f fuel i v st st' new := by
  induction fuel generalizing i v st st' with
  | zero => cases h
  | succ fuel ih =>
    have ih' := fun i v st st' hgood h => @ih st st' v i hgood h
    cases hi : st.1 i with
    | some w =>
      simp only [visit, hi] at h
      obtain ⟨rfl, rfl⟩ := mk.inj (some.inj h)
      refine ⟨[], .refl hgood, hi, fun _ _ _ => rfl, by simp [argued, uses], ?_⟩
      intro σ vis _ tokens s place s' place' hrel hrun
      obtain ⟨rfl, rfl⟩ := mk.inj (some.inj hrun)
      refine ⟨tokens, ?_, hrel⟩
      have htok : tokens i = some (w.flatten.map place) := by rw [hrel i, hi, map_some]
      simp [visit, htok]
    | none =>
      cases hnode : f.nodes[i]? with
      | none => simp [visit, hi, hnode] at h
      | some node =>
        cases node with
        | var => simp [visit, hi, hnode] at h
        | constant => exact visitedNode_constant hgood hi h hnode
        | call args => exact visitedNode_call hgood hi h ih' hnode
        | tuple fields => exact visitedNode_tuple hgood hi h ih' hnode
        | tupleGetItem tuple index =>
          exact visitedNode_tupleGetItem hgood hi h ih' hflat hnode
        | letIn x value body => exact visitedNode_letIn hgood hi h ih' hnode

/-! ## Whole functions -/

theorem visitParams_follows (hgood : Good f st) (hparams : ∀ p ∈ params, p ∈ f.params)
    (h : params.foldlM (visitParam (evalVisitor f)) st = some st') :
    ∃ new, Advance f st st' new ∧ argued new = [] ∧ uses new = [] ∧
      ∀ (σ : Type) (vis : Visitor σ (List Tensor)), TokenVisitor f vis →
        ∀ tokens s place s' place', TokensOf st.1 tokens place →
          new.foldlM (eventStep vis) (s, place) = some (s', place') →
          ∃ tokens', params.foldlM (visitParam vis) (tokens, s) = some (tokens', s') ∧
            TokensOf st'.1 tokens' place' := by
  induction params generalizing st with
  | nil =>
    cases h
    refine ⟨[], .refl hgood, rfl, rfl, ?_⟩
    intro σ vis _ tokens s place s' place' hrel hrun
    obtain ⟨rfl, rfl⟩ := mk.inj (some.inj hrun)
    exact ⟨tokens, rfl, hrel⟩
  | cons p params ih =>
    obtain ⟨m, hm, h⟩ := foldlM_cons_eq_some.mp h
    cases hp : st.1 p with
    | some w => simp [visitParam, hp] at hm
    | none =>
      simp only [visitParam, hp, evalVisitor, do_eq_some, map_eq_some_iff] at hm
      obtain ⟨⟨events, w⟩, ⟨w', hw, heq'⟩, heq⟩ := hm
      obtain ⟨rfl, rfl⟩ := mk.inj heq'
      cases heq
      have hmakes : MakesTensors f p := .inl (hparams p mem_cons_self)
      have hadv : Advance f st
          (update st.1 p (some w'), st.2 ++ [.create p]) [.create p] :=
        .make hgood hp hw rfl rfl hmakes nofun (by simp [uses])
      obtain ⟨new, hnew, hargued, huses, hfollow⟩ := ih hadv.good (forall_mem_cons.mp hparams).2 h
      refine ⟨[.create p] ++ new, hadv.trans hnew, by simp [argued, hargued],
        by simp [uses, huses], ?_⟩
      intro σ vis hvis tokens s place s' place' hrel hrun
      obtain ⟨⟨s₁, place₁⟩, hr₁, hr₂⟩ := foldlM_append_eq_some.mp hrun
      have hset := (hrel.advance hgood hadv hr₁).set p w'
      obtain ⟨tokens', hrest, hrel'⟩ := hfollow σ vis hvis _ s₁ place₁ s' place' hset hr₂
      refine ⟨tokens', foldlM_cons_eq_some.mpr ⟨_, ?_, hrest⟩, hrel'⟩
      rw [foldlM_singleton, eventStep, map_eq_some_iff] at hr₁
      obtain ⟨⟨s₂, toks⟩, hcreate, heq⟩ := hr₁
      obtain ⟨rfl, rfl⟩ := mk.inj heq
      have htensors := tensorsOf_of_value hw
      have hmap := map_assign htensors (hvis.create _ _ _ _ _ hmakes hcreate htensors) place
      simp [visitParam, hrel.none hp, hcreate, hmap]

theorem good_start (f : RelayFunction) : Good f (fun _ => none, []) :=
  ⟨by simp, by simp, by simp [made], by simp, by simp, by simp [made], trivial⟩

/-- What an evaluation of a function leaves behind. -/
structure Evaluated (f : RelayFunction) (v : Value) (st : VisitState (List Event) Value) :
    Prop where
  good : Good f st
  output : ∀ t ∈ v.flatten, t ∈ produced f st.2
  balanced : ∀ t, (argued st.2).count t = (uses st.2).count t
  followed : ∀ (σ : Type) (vis : Visitor σ (List Tensor)), TokenVisitor f vis →
    ∀ s s' place, st.2.foldlM (eventStep vis) (s, id) = some (s', place) →
      ∃ tokens, runVisitor f vis s = some (v.flatten.map place, tokens,
          vis.output s' (v.flatten.map place)) ∧ TokensOf st.1 tokens place

/-- **A visitor of tokens follows the evaluation** of a function. -/
theorem runVisitor_follows (hflat : FlatProjections f)
    (h : runVisitor f (evalVisitor f) [] = some (v, st)) :
    Evaluated f v st := by
  obtain ⟨m, hparams, ⟨w, m'⟩, hbody, heq⟩ := bind₂_eq_some.mp h
  cases heq
  obtain ⟨new₁, h₁, hargued, huses, hfollow₁⟩ :=
    visitParams_follows (good_start f) (fun _ => id) hparams
  obtain ⟨new₂, h₂⟩ := visit_follows hflat h₁.good hbody
  have hlog : m'.2 = new₁ ++ new₂ := by rw [h₂.advance.log, h₁.log, nil_append]
  refine ⟨h₂.advance.good, (h₂.advance.good.values _ _ h₂.value).1, fun t => ?_, ?_⟩
  · have hb := h₂.balanced t
    simp [evalVisitor, hlog, argued_append, uses_append, hargued, huses, hb]
  · intro σ vis hvis s s' place hrun
    simp only [evalVisitor, hlog] at hrun
    obtain ⟨⟨s₁, place₁⟩, hr₁, hr₂⟩ := foldlM_append_eq_some.mp hrun
    obtain ⟨tokens₁, hp, hrel₁⟩ :=
      hfollow₁ σ vis hvis (fun _ => none) s id s₁ place₁ (fun _ => rfl) hr₁
    obtain ⟨tokens₂, hb, hrel₂⟩ := h₂.followed σ vis hvis tokens₁ s₁ place₁ s' place hrel₁ hr₂
    refine ⟨tokens₂, ?_, hrel₂⟩
    simp [runVisitor, hp, hb, some_bind_eq]

end

/-! ## Evaluation succeeds -/

/-- The parameters, constants and calls make tensors or tuples of tensors. -/
def FlatOutputs (f : RelayFunction) : Prop :=
  ∀ i, MakesTensors f i → (f.checkedType i).tensors ≠ none

variable {st : VisitState (List Event) Value} {env : List ℕ}

theorem exists_value (h : (f.checkedType i).tensors ≠ none) : ∃ v, f.value i = some v := by
  rw [RelayFunction.value]
  cases htype : f.checkedType i with
  | tensor type => exact ⟨_, rfl⟩
  | tuple fields =>
    rw [htype] at h
    obtain ⟨types, htypes⟩ := ne_none_iff_exists'.mp h
    exact ⟨_, congrArg (Option.map _) htypes⟩

theorem exists_visitEach (isArg : Bool) (hflat : FlatProjections f)
    (hvisit : ∀ i st, inScope f.nodes fuel env i = true → Good f st → (∀ x ∈ env, st.1 x ≠ none) →
      ∃ r, visit f.nodes (evalVisitor f) fuel i st = some r) {nodes : List ℕ}
    (hscope : ∀ i ∈ nodes, inScope f.nodes fuel env i = true)
    (hgood : Good f st) (henv : ∀ x ∈ env, st.1 x ≠ none) :
    ∃ r, visitEach (visit f.nodes (evalVisitor f) fuel) (afterNode (evalVisitor f) isArg) nodes
      st = some r := by
  induction nodes generalizing st with
  | nil => exact ⟨_, rfl⟩
  | cons i nodes ih =>
    obtain ⟨⟨v, m⟩, hm⟩ := hvisit i st (hscope i mem_cons_self) hgood henv
    obtain ⟨new, hnew⟩ := visit_follows hflat hgood hm
    obtain ⟨_, hadv, hvals, -⟩ := advance_afterNode hnew.advance.good isArg v
    obtain ⟨⟨vs, m'⟩, hm'⟩ := ih (forall_mem_cons.mp hscope).2 hadv.good
      fun x hx => by
        rw [hvals]
        exact hnew.advance.keeps x (henv x hx)
    exact ⟨(v :: vs, m'), by simp only [visitEach, hm, hm', some_bind_eq]⟩

/-- **A node in scope can be evaluated.** -/
theorem exists_visit (hflat : FlatProjections f) (hout : FlatOutputs f)
    (hscope : inScope f.nodes fuel env i = true) (hgood : Good f st)
    (henv : ∀ x ∈ env, st.1 x ≠ none) : ∃ r, visit f.nodes (evalVisitor f) fuel i st = some r := by
  induction fuel generalizing env i st with
  | zero => cases hscope
  | succ fuel ih =>
    have ih' := fun env i st hs hg he => @ih i st env hs hg he
    cases hi : st.1 i with
    | some w => exact ⟨(w, st), by simp [visit, hi]⟩
    | none =>
      cases hnode : f.nodes[i]? with
      | none => simp [inScope, hnode] at hscope
      | some node =>
        cases node with
        | var =>
          have hmem : i ∈ env := by simpa [inScope, hnode] using hscope
          exact absurd hi (henv i hmem)
        | constant =>
          obtain ⟨v, hv⟩ := exists_value (hout i (.inr (.inl hnode)))
          rw [visit_constant _ hi hnode]
          simp [evalVisitor, hv]
        | call args =>
          obtain ⟨v, hv⟩ := exists_value (hout i (.inr (.inr ⟨args, hnode⟩)))
          have hargs : ∀ j ∈ args, inScope f.nodes fuel env j = true := by
            simpa [inScope, hnode] using hscope
          have henter : Advance f st (st.1, st.2 ++ [.enter i]) [.enter i] :=
            .silent hgood rfl rfl (by simp [Event.node, hv])
          obtain ⟨r, hr⟩ := exists_visitEach true hflat
            (fun j st hs hg he => ih' env j st hs hg he) hargs henter.good henv
          rw [visit_call _ hi hnode]
          simp only [evalVisitor, hv, map_some, bind_some] at hr ⊢
          rw [hr]
          exact ⟨_, rfl⟩
        | tuple fields =>
          have hfields : ∀ j ∈ fields, inScope f.nodes fuel env j = true := by
            simpa [inScope, hnode] using hscope
          obtain ⟨r, hr⟩ := exists_visitEach false hflat
            (fun j st hs hg he => ih' env j st hs hg he) hfields hgood henv
          rw [visit_tuple _ hi hnode, hr]
          exact ⟨_, rfl⟩
        | tupleGetItem tuple index =>
          have htuple : inScope f.nodes fuel env tuple = true := by
            simpa [inScope, hnode] using hscope
          obtain ⟨⟨w, m⟩, hr⟩ := ih' env tuple st htuple hgood henv
          obtain ⟨new, hnew⟩ := visit_follows hflat hgood hr
          have hwtype := (hnew.advance.good.values tuple w hnew.value).2
          obtain ⟨types, htypes, hindex⟩ : ∃ types, f.checkedType tuple = .tuple types ∧
            types[index]? = some (f.checkedType i) := f.typed i _ hnode
          rw [htypes] at hwtype
          cases hwtype with
          | @tuple ws _ hall =>
            have hlt : index < ws.length := by
              rw [hall.length_eq]
              exact lt_of_getElem? hindex
            rw [visit_tupleGetItem _ hi hnode, hr]
            simp [evalVisitor, getElem?_eq_getElem hlt]
        | letIn x value body =>
          have hboth : inScope f.nodes fuel env value = true ∧
              inScope f.nodes fuel (x :: env) body = true := by
            simpa [inScope, hnode] using hscope
          obtain ⟨⟨w, m⟩, hr⟩ := ih' env value st hboth.1 hgood henv
          obtain ⟨new, hnew⟩ := visit_follows hflat hgood hr
          have hbind := advance_bind hnode hnew
          obtain ⟨r, hr'⟩ := ih' (x :: env) body _ hboth.2 hbind.good fun y hy => by
            rcases mem_cons.mp hy with rfl | hy
            · simp
            · exact hbind.keeps y (hnew.advance.keeps y (henv y hy))
          rw [visit_letIn _ hi hnode, hr, bind_some]
          rw [hr']
          exact ⟨_, rfl⟩

/-- The parameters can be created. -/
theorem exists_visitParams (hout : FlatOutputs f) {params : List ℕ} (hnodup : params.Nodup)
    (hparams : ∀ p ∈ params, p ∈ f.params) (hnew : ∀ p ∈ params, st.1 p = none) :
    ∃ st', params.foldlM (visitParam (evalVisitor f)) st = some st' ∧
      ∀ p, (p ∈ params ∨ st.1 p ≠ none) → st'.1 p ≠ none := by
  induction params generalizing st with
  | nil => exact ⟨st, rfl, by simp⟩
  | cons p params ih =>
    obtain ⟨v, hv⟩ := exists_value (hout p (.inl (hparams p mem_cons_self)))
    have hstep : visitParam (evalVisitor f) st p =
        some (update st.1 p (some v), st.2 ++ [.create p]) := by
      simp [visitParam, hnew p mem_cons_self, evalVisitor, hv]
    obtain ⟨hnotin, hnodup⟩ := nodup_cons.mp hnodup
    have hrest : ∀ q ∈ params, (update st.1 p (some v), st.2 ++ [.create p]).1 q = none := by
      intro q hq
      have hne : q ≠ p := fun h => hnotin (h ▸ hq)
      simpa [update_of_ne hne] using hnew q (mem_cons_of_mem p hq)
    obtain ⟨st', hst', hfound⟩ := ih hnodup (forall_mem_cons.mp hparams).2 hrest
    refine ⟨st', foldlM_cons_eq_some.mpr ⟨_, hstep, hst'⟩, fun q hq => hfound q ?_⟩
    rcases hq with hq | hq
    · rcases mem_cons.mp hq with rfl | hq
      · exact .inr (by simp)
      · exact .inl hq
    · exact .inr (ne_none_update hq)

/-- **A function of tensors and tuples of tensors can be evaluated.** -/
theorem exists_runVisitor (hflat : FlatProjections f) (hout : FlatOutputs f) :
    ∃ r, runVisitor f (evalVisitor f) [] = some r := by
  obtain ⟨st, hst, hfound⟩ : ∃ st, f.params.foldlM (visitParam (evalVisitor f))
      (fun _ => none, []) = some st ∧ _ :=
    exists_visitParams hout (nodup_append.mp f.bound_once).1 (fun _ => id) fun _ _ => rfl
  obtain ⟨new, hnew, -⟩ := visitParams_follows (good_start f) (fun _ => id) hst
  obtain ⟨r, hr⟩ := exists_visit hflat hout f.in_scope hnew.good fun x hx => hfound x (.inl hx)
  simp only [runVisitor, hst, hr, some_bind_eq]
  exact ⟨_, rfl⟩

end Pruner.Relay
