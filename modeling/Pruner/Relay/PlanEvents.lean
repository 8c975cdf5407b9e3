import Pruner.Relay.PlanMemory

/-!
# The order of execution

What a function computes, in the order in which the planner visits it: an evaluation with
tuples as they are nested, which records when tensors are made and used.

## Main definitions

* `Value`, `evalVisitor`, `evaluate` — the evaluation and its events.
* `made`, `produced`, `uses` — what the events make and use.
* `HasType` — values have types.
* `Good`, `Advance` — what the evaluation has found, and how it goes on.
-/

namespace Pruner.Relay

open Lib List Option Function

/-! ## Evaluation -/

inductive Value where
  | tensor (t : Tensor)
  | tuple (fields : List Value)
  deriving Repr

mutual

def Value.flatten : Value → List Tensor
  | .tensor t => [t]
  | .tuple fields => flattenAll fields

def flattenAll : List Value → List Tensor
  | [] => []
  | v :: vs => v.flatten ++ flattenAll vs

end

theorem flattenAll_eq (vs : List Value) : flattenAll vs = (vs.map Value.flatten).flatten := by
  induction vs with
  | nil => rfl
  | cons v vs ih => simp [flattenAll, ih]

/-- What happens when a function runs: a parameter or a constant is there, a call is reached, an
argument of it has been computed, and it runs. -/
inductive Event where
  | create (node : ℕ)
  | enter (node : ℕ)
  | argument (tensors : List Tensor)
  | call (node : ℕ) (args : List (List Tensor))
  deriving DecidableEq, Repr

/-- The value that a node makes. -/
def RelayFunction.value (f : RelayFunction) (i : ℕ) : Option Value :=
  match f.checkedType i with
  | .tensor _ => some (.tensor (i, 0))
  | .tuple fields => (fields.mapM RelayType.asTensor).map fun types =>
    .tuple ((List.range types.length).map fun k => .tensor (i, k))

/-- The evaluation, as a visitor whose state is the list of events. -/
def evalVisitor (f : RelayFunction) : Visitor (List Event) Value where
  tuple := .tuple
  project
    | .tuple fields, index => fields[index]?
    | .tensor _, _ => none
  create events i := (f.value i).map fun v => (events ++ [.create i], v)
  enter events i := (f.value i).map fun _ => events ++ [.enter i]
  argument events v := events ++ [.argument v.flatten]
  call events i args := (f.value i).map fun v =>
    (events ++ [.call i (args.map Value.flatten)], v)
  output events _ := events

def Event.node : Event → List ℕ
  | create n | enter n | call n _ => [n]
  | argument _ => []

/-- The result and the events of a function. -/
def evaluate (f : RelayFunction) : Option (Value × List Event) :=
  (runVisitor f (evalVisitor f) []).map fun r => (r.1, r.2.2)

/-! ## Events -/

/-- The nodes that make their tensors. -/
def made : List Event → List ℕ
  | [] => []
  | .create n :: rest => n :: made rest
  | .call n _ :: rest => n :: made rest
  | _ :: rest => made rest

/-- The tensors that parameters and constants are. -/
def created (f : RelayFunction) : List Event → List Tensor
  | [] => []
  | .create n :: rest => (f.tensorsOf n).getD [] ++ created f rest
  | _ :: rest => created f rest

def produced (f : RelayFunction) (events : List Event) : List Tensor :=
  (made events).flatMap fun n => (f.tensorsOf n).getD []

def uses : List Event → List Tensor
  | [] => []
  | .call _ args :: rest => args.flatten ++ uses rest
  | _ :: rest => uses rest

/-- The arguments that are computed. -/
def argued : List Event → List Tensor
  | [] => []
  | .argument tensors :: rest => tensors ++ argued rest
  | _ :: rest => argued rest

variable (f : RelayFunction) (a b : List Event)

@[simp]
theorem made_append : made (a ++ b) = made a ++ made b := by
  induction a using made.induct <;> simp_all [made]

@[simp]
theorem created_append : created f (a ++ b) = created f a ++ created f b := by
  induction a using created.induct <;> simp_all [created]

@[simp]
theorem produced_append : produced f (a ++ b) = produced f a ++ produced f b := by
  simp [produced]

@[simp]
theorem uses_append : uses (a ++ b) = uses a ++ uses b := by
  induction a using uses.induct <;> simp_all [uses]

@[simp]
theorem argued_append : argued (a ++ b) = argued a ++ argued b := by
  induction a using argued.induct <;> simp_all [argued]

theorem produced_cons (e : Event) : produced f (e :: b) = produced f [e] ++ produced f b :=
  produced_append f [e] b

theorem uses_cons (e : Event) : uses (e :: b) = uses [e] ++ uses b := uses_append [e] b

/-- Tensors are used after they have been made. -/
def UsesOk (f : RelayFunction) : List Tensor → List Event → Prop
  | _, [] => True
  | seen, e :: rest => (∀ t ∈ uses [e], t ∈ seen) ∧ UsesOk f (seen ++ produced f [e]) rest

/-- The uses of a sequence are in order when those of each half are, the second half seeing what the
first produced. -/
theorem usesOk_append (seen : List Tensor) :
    UsesOk f seen (a ++ b) ↔ UsesOk f seen a ∧ UsesOk f (seen ++ produced f a) b := by
  induction a generalizing seen with
  | nil => simp [UsesOk, produced, made]
  | cons e a ih =>
    simp [UsesOk, ih, produced_cons f a e, and_assoc]

/-! ## Types of values -/

inductive HasType : Value → RelayType → Prop where
  | tensor (t : Tensor) (type : TensorType) : HasType (.tensor t) (.tensor type)
  | tuple {vs : List Value} {types : List RelayType} :
      List.Forall₂ HasType vs types → HasType (.tuple vs) (.tuple types)

variable {f} {i : ℕ} {v : Value}

theorem flattenAll_tensors (l : List Tensor) : flattenAll (l.map Value.tensor) = l := by
  induction l with
  | nil => rfl
  | cons t l ih => simp [flattenAll, Value.flatten, ih]

/-- A value that a node makes consists of its tensors. -/
theorem tensorsOf_of_value (h : f.value i = some v) : f.tensorsOf i = some v.flatten := by
  rw [RelayFunction.value] at h
  rw [RelayFunction.tensorsOf]
  cases htype : f.checkedType i with
  | tensor type =>
    rw [htype] at h
    cases h
    rfl
  | tuple fields =>
    rw [htype] at h
    obtain ⟨types, htypes, rfl⟩ := map_eq_some_iff.mp h
    rw [RelayType.tensors, htypes, map_some]
    have hmap := flattenAll_tensors ((range types.length).map fun k => (i, k))
    rw [List.map_map] at hmap
    exact congrArg some hmap.symm

/-- A value that a node makes has the type of the node. -/
theorem hasType_of_value (h : f.value i = some v) : HasType v (f.checkedType i) := by
  rw [RelayFunction.value] at h
  cases htype : f.checkedType i with
  | tensor type =>
    rw [htype] at h
    cases h
    exact .tensor _ _
  | tuple fields =>
    rw [htype] at h
    obtain ⟨types, htypes, rfl⟩ := map_eq_some_iff.mp h
    have hall := mapM_eq_some_iff.mp htypes
    refine .tuple (forall₂_iff_get.mpr ⟨?_, fun k hk hk' => ?_⟩)
    · simpa using hall.length_eq.symm
    · have hfield := (forall₂_iff_get.mp hall).2 k hk' (by simpa using hk)
      simp only [get_eq_getElem, getElem_map]
      rw [get_eq_getElem] at hfield
      cases hf : fields[k] with
      | tensor type => exact .tensor _ _
      | tuple _ =>
        rw [hf] at hfield
        cases hfield

theorem flattenAll_append (vs ws : List Value) :
    flattenAll (vs ++ ws) = flattenAll vs ++ flattenAll ws := by
  simp [flattenAll_eq]

/-- A field of a tuple is at its index among the tensors of the tuple, if it and the fields before
it are tensors. -/
theorem getElem?_flatten_of_flat {vs : List Value} {types : List RelayType} {index : ℕ}
    (h : HasType (.tuple vs) (.tuple types))
    (hflat : (RelayType.tuple (types.take (index + 1))).tensors ≠ none) {w : Value}
    (hw : vs[index]? = some w) : ∃ t, w = .tensor t ∧ (Value.tuple vs).flatten[index]? = some t := by
  -- All fields up to this one are tensors.
  obtain ⟨l, hl⟩ : ∃ l : List Tensor, vs.take (index + 1) = l.map Value.tensor := by
    cases h with
    | tuple hall =>
      obtain ⟨types', htypes⟩ := ne_none_iff_exists'.mp hflat
      rw [RelayType.tensors, mapM_eq_some_iff] at htypes
      have hall := forall₂_take (index + 1) hall
      generalize types.take (index + 1) = types at htypes hall
      generalize vs.take (index + 1) = vs at hall
      clear hw hflat
      induction hall generalizing types' with
      | nil => exact ⟨[], rfl⟩
      | cons hv _ ih =>
        cases htypes with
        | cons htype hrest =>
          obtain ⟨l, rfl⟩ := ih _ hrest
          cases hv with
          | tensor t _ => exact ⟨t :: l, rfl⟩
          | tuple _ => cases htype
  have hw' : (l.map Value.tensor)[index]? = some w := by
    rw [← hl, getElem?_take, if_pos (Nat.lt_succ_self index), hw]
  rw [getElem?_map, map_eq_some_iff] at hw'
  obtain ⟨t, ht, rfl⟩ := hw'
  refine ⟨t, rfl, ?_⟩
  rw [Value.flatten, ← take_append_drop (index + 1) vs, hl, flattenAll_append, flattenAll_tensors,
    getElem?_append_left (lt_of_getElem? ht), ht]

/-! ## Steps of the evaluation -/

/-- Parameters, constants and calls make tensors. -/
def MakesTensors (f : RelayFunction) (i : ℕ) : Prop :=
  i ∈ f.params ∨ f.nodes[i]? = some .constant ∨ ∃ args, f.nodes[i]? = some (.call args)

/-- A `let` makes no tensors of its own: its value does. -/
theorem not_makesTensors_of_letIn {x value body : ℕ}
    (h : f.nodes[i]? = some (.letIn x value body)) : ¬ MakesTensors f x := by
  simp [MakesTensors, f.not_mem_params_of_letIn h, f.var_of_letIn h]

/-- Tuples, projections and lets do not make tensors. -/
theorem not_makesTensors {node : ExprNode} (h : f.nodes[i]? = some node)
    (hvar : node ≠ .var) (hconst : node ≠ .constant)
    (hcall : ∀ args, node ≠ .call args) : ¬ MakesTensors f i := by
  rintro (hp | hc | ⟨args, hc⟩)
  · exact hvar (some.inj (h.symm.trans (f.params_var i hp)))
  · exact hconst (some.inj (h.symm.trans hc))
  · exact hcall args (some.inj (h.symm.trans hc))

/-- What the evaluation has found, and its events: the tensors of all values have been made, by
different nodes, before they were used. -/
structure Good (f : RelayFunction) (st : VisitState (List Event) Value) : Prop where
  values : ∀ j v, st.1 j = some v →
    (∀ t ∈ v.flatten, t ∈ produced f st.2) ∧ HasType v (f.checkedType j)
  own : ∀ j v, st.1 j = some v → MakesTensors f j → f.value j = some v
  found : ∀ n ∈ made st.2, st.1 n ≠ none ∧ MakesTensors f n
  known : ∀ e ∈ st.2, ∀ n ∈ e.node, f.value n ≠ none
  calls : ∀ n args, Event.call n args ∈ st.2 → ∃ nodes, f.nodes[n]? = some (.call nodes)
  nodup : (made st.2).Nodup
  used : UsesOk f [] st.2

/-- The evaluation goes on by new events. -/
structure Advance (f : RelayFunction) (st st' : VisitState (List Event) Value)
    (new : List Event) : Prop where
  log : st'.2 = st.2 ++ new
  good : Good f st'
  keeps : ∀ j, st.1 j ≠ none → st'.1 j ≠ none
  fresh : ∀ n ∈ made new, st.1 n = none

variable {t : Tensor} {st m st' : VisitState (List Event) Value}

theorem fst_of_mem_tensorsOf {n : ℕ} (h : t ∈ (f.tensorsOf n).getD []) : t.1 = n := by
  cases htensors : f.tensorsOf n with
  | none => simp [htensors] at h
  | some ts =>
    rw [htensors] at h
    obtain ⟨types, -, rfl⟩ := map_eq_some_iff.mp htensors
    obtain ⟨k, -, rfl⟩ := mem_map.mp h
    rfl

/-- What a sequence produces was made by a node of the sequence. -/
theorem fst_of_mem_produced {events : List Event} (h : t ∈ produced f events) :
    t.1 ∈ made events := by
  obtain ⟨n, hn, ht⟩ := mem_flatMap.mp h
  exact fst_of_mem_tensorsOf ht ▸ hn

theorem Advance.refl (h : Good f st) : Advance f st st [] :=
  ⟨by simp, h, fun _ => id, by simp [made]⟩

theorem Advance.trans {new₁ new₂ : List Event} (h₁ : Advance f st m new₁)
    (h₂ : Advance f m st' new₂) : Advance f st st' (new₁ ++ new₂) where
  log := by rw [h₂.log, h₁.log, append_assoc]
  good := h₂.good
  keeps j hj := h₂.keeps j (h₁.keeps j hj)
  fresh := by
    rw [made_append]
    refine forall_mem_append.mpr ⟨h₁.fresh, fun n hn => ?_⟩
    by_contra hne
    exact h₁.keeps n hne (h₂.fresh n hn)

theorem ne_none_update {α : Type} {g : ℕ → Option α} {j : ℕ} {v : α} (h : g j ≠ none) :
    update g i (some v) j ≠ none := by
  by_cases hj : j = i
  · subst hj
    simp
  · rwa [update_of_ne hj]

variable {e : Event}

/-- A node that makes no tensors only records the value of its operand. -/
theorem Advance.set (h : Good f st) (hi : ¬ MakesTensors f i)
    (hv : ∀ t ∈ v.flatten, t ∈ produced f st.2) (htype : HasType v (f.checkedType i)) :
    Advance f st (update st.1 i (some v), st.2) [] where
  log := by simp
  good :=
    { values := fun j w hw => by
        rcases update_eq_cases hw with ⟨rfl, ⟨⟩⟩ | ⟨-, hw⟩
        · exact ⟨hv, htype⟩
        · exact h.values j w hw
      own := fun j w hw hmakes => by
        have hj : j ≠ i := fun hj => hi (hj ▸ hmakes)
        simp only [update_of_ne hj] at hw
        exact h.own j w hw hmakes
      found := fun n hn => ⟨ne_none_update (h.found n hn).1, (h.found n hn).2⟩
      known := h.known
      calls := h.calls
      nodup := h.nodup
      used := h.used }
  keeps j hj := ne_none_update hj
  fresh := by simp [made]

/-- An event that makes and uses nothing keeps the invariant. -/
theorem Advance.silent (h : Good f st) (hmade : made [e] = []) (huses : uses [e] = [])
    (hknown : ∀ n ∈ e.node, f.value n ≠ none) :
    Advance f st (st.1, st.2 ++ [e]) [e] where
  log := rfl
  good :=
    { values := fun j v hv => by
        obtain ⟨hprod, htype⟩ := h.values j v hv
        exact ⟨fun t ht => by simp [hprod t ht], htype⟩
      own := h.own
      found := fun n hn => h.found n (by simpa [hmade] using hn)
      known := fun e' he' => (mem_append.mp he').elim (h.known e') fun he' =>
        mem_singleton.mp he' ▸ hknown
      calls := fun n args hmem => by
        rcases mem_append.mp hmem with hmem | hmem
        · exact h.calls n args hmem
        · rw [← mem_singleton.mp hmem] at hmade
          cases hmade
      nodup := by simpa [hmade] using h.nodup
      used := (usesOk_append f _ _ _).mpr ⟨h.used, by simp [huses], trivial⟩ }
  keeps _ := id
  fresh := by simp [hmade]

/-- A node that makes its tensors, once, after its operands are there. -/
theorem Advance.make (h : Good f st) (hi : st.1 i = none)
    (hv : f.value i = some v) (hmade : made [e] = [i]) (hnode : e.node = [i])
    (hmakes : MakesTensors f i)
    (hcall : ∀ n args, e = .call n args → ∃ nodes, f.nodes[n]? = some (.call nodes))
    (huses : ∀ t ∈ uses [e], t ∈ produced f st.2) :
    Advance f st (update st.1 i (some v), st.2 ++ [e]) [e] where
  log := rfl
  good :=
    { values := fun j w hw => by
        rcases update_eq_cases hw with ⟨rfl, ⟨⟩⟩ | ⟨-, hw⟩
        · refine ⟨fun t ht => ?_, hasType_of_value hv⟩
          simp [produced, hmade, tensorsOf_of_value hv, ht]
        · obtain ⟨hprod, htype⟩ := h.values j w hw
          exact ⟨fun t ht => by simp [hprod t ht], htype⟩
      own := fun j w hw hmakes' => by
        rcases update_eq_cases hw with ⟨rfl, ⟨⟩⟩ | ⟨-, hw⟩
        · exact hv
        · exact h.own j w hw hmakes'
      found := by
        rw [made_append, hmade]
        exact forall_mem_append.mpr ⟨fun n hn => ⟨ne_none_update (h.found n hn).1,
          (h.found n hn).2⟩, forall_mem_singleton.mpr ⟨by simp, hmakes⟩⟩
      known := by
        refine forall_mem_append.mpr ⟨h.known, forall_mem_singleton.mpr ?_⟩
        simp [hnode, hv]
      calls := fun n args hmem => (mem_append.mp hmem).elim (h.calls n args) fun hmem =>
        hcall n args (mem_singleton.mp hmem).symm
      nodup := by
        rw [made_append, hmade, nodup_append]
        refine ⟨h.nodup, nodup_singleton i, fun n hn j hj => ?_⟩
        obtain rfl := mem_singleton.mp hj
        rintro rfl
        exact (h.found n hn).1 hi
      used := (usesOk_append f _ _ _).mpr ⟨h.used, by simpa using huses, trivial⟩ }
  keeps j hj := ne_none_update hj
  fresh n hn := by
    rw [hmade, mem_singleton] at hn
    exact hn ▸ hi

end Pruner.Relay
