import Pruner.Relay.PlanFollow

/-!
# The storage allocator

The allocator keeps, for every tensor that is still needed, a token of its own whose counter is
the number of uses to come.  A token that is free has no such tensor.

## Main definitions

* `init_foldlM` — the first visitor counts all uses.
* `StorageOk` — the invariant of the allocator.
* `StorageOk.request`, `StorageOk.createAll` — storage for new tensors.
* `StorageOk.release`, `StorageOk.useArgument` — the end of a tensor.
-/

namespace Pruner.Relay

open Lib List Option Function StorageAllocator

variable {ts P held : List Tensor} {t : Tensor} {type : TensorType} {f : RelayFunction}
  {total r : Tensor → ℕ} {st : StorageAllocator} {place : Tensor → Tensor}

/-! ## Counting uses -/

theorem tokenVisitor_init (f : RelayFunction) : TokenVisitor f (initVisitor f) where
  tuple := rfl
  project _ _ := rfl
  create s i s' tokens ts _ h hts := by
    simp only [initVisitor, hts, map_some, some.injEq, Prod.mk.injEq] at h
    rw [← h.2]
  call s i args s' tokens ts _ h hts := by
    simp only [initVisitor, hts, map_some, some.injEq, Prod.mk.injEq] at h
    rw [← h.2]

theorem assign_tensorsOf {i : ℕ} (h : f.tensorsOf i = some ts) : assign id i ts = id := by
  obtain ⟨types, -, rfl⟩ := map_eq_some_iff.mp h
  funext t
  by_cases ht : t.1 = i
  · by_cases hlt : t.2 < types.length
    · simp [assign, ← ht, hlt]
    · simp [assign, ht, hlt]
  · simp [assign, ht]

theorem foldl_addUse (l : List Tensor) (refs : Tensor → ℤ) :
    l.foldl addUse refs = fun t => refs t + l.count t := by
  induction l generalizing refs with
  | nil => simp
  | cons a l ih =>
    rw [foldl_cons, ih]
    funext t
    by_cases ht : t = a
    · subst ht
      simp [addUse]
      omega
    · simp [addUse, update_of_ne ht, count_cons_of_ne (Ne.symm ht)]

theorem init_foldlM {events : List Event}
    (hknown : ∀ e ∈ events, ∀ n ∈ e.node, f.value n ≠ none) (refs : Tensor → ℤ) :
    events.foldlM (eventStep (initVisitor f)) (refs, id) =
      some (fun t => refs t + (argued events).count t, id) := by
  induction events generalizing refs with
  | nil => simp [argued]
  | cons e events ih =>
    have hrest := fun refs => ih (forall_mem_cons.mp hknown).2 refs
    have htensors : ∀ n ∈ e.node, ∃ ts, f.tensorsOf n = some ts := by
      intro n hn
      obtain ⟨v, hv⟩ := ne_none_iff_exists'.mp (hknown e mem_cons_self n hn)
      exact ⟨_, tensorsOf_of_value hv⟩
    rw [foldlM_cons, bind_eq_bind]
    cases e with
    | create n | call n args =>
      obtain ⟨ts, hts⟩ := htensors n (by simp [Event.node])
      simp only [eventStep, initVisitor, hts, map_some, bind_some, assign_tensorsOf hts]
      exact hrest refs
    | enter n =>
      obtain ⟨ts, hts⟩ := htensors n (by simp [Event.node])
      simp only [eventStep, initVisitor, hts, map_some, bind_some]
      exact hrest refs
    | argument tensors =>
      have hadd : (initVisitor f).argument refs tensors = fun t => refs t + tensors.count t :=
        foldl_addUse tensors refs
      simp only [eventStep, bind_some, List.map_id, hadd]
      refine (hrest _).trans ?_
      simp [argued, Int.add_assoc]

/-! ## The allocator -/

/-- **The invariant of the allocator.**  `P` are the tensors that have been placed, `total` how
often a tensor is used, `r` how often it will be used.  The tokens of tensors that will be used,
or that are held, are different and not free. -/
structure StorageOk (f : RelayFunction) (total : Tensor → ℕ) (P held : List Tensor)
    (r : Tensor → ℕ) (st : StorageAllocator) (place : Tensor → Tensor) : Prop where
  ids : ∀ k tok, st.data[k]? = some tok → (st.token tok).storageId = some k
  fresh : ∀ t, t ∉ P → t ∉ st.data ∧ (st.token t).refCounter = total t
  placed : ∀ t ∈ P, place t ∈ st.data ∧
    ∀ type, f.tensorType t = some type → getMemorySize type ≤ (st.token (place t)).maxBytes
  active : ∀ t ∈ P, (0 < r t ∨ t ∈ held) →
    (st.token (place t)).refCounter = r t ∧ ∀ e ∈ st.free, e.2 ≠ place t
  distinct : ∀ t ∈ P, ∀ t' ∈ P, (0 < r t ∨ t ∈ held) → (0 < r t' ∨ t' ∈ held) →
    place t = place t' → t = t'
  free : ∀ e ∈ st.free, e.2 ∈ st.data ∧ (st.token e.2).refCounter = 0
  nodup : (st.free.map Prod.snd).Nodup

namespace StorageOk

variable (h : StorageOk f total P held r st place)
include h

theorem congr {P' held' : List Tensor} {place' : Tensor → Tensor} (hP : ∀ t, t ∈ P' ↔ t ∈ P)
    (hheld : ∀ t, t ∈ held' → t ∈ held)
    (hplace : ∀ t ∈ P, place' t = place t) : StorageOk f total P' held' r st place' where
  ids := h.ids
  fresh t ht := h.fresh t fun h' => ht ((hP t).mpr h')
  placed t ht := by
    rw [hplace t ((hP t).mp ht)]
    exact h.placed t ((hP t).mp ht)
  active t ht hr := by
    rw [hplace t ((hP t).mp ht)]
    exact h.active t ((hP t).mp ht) (hr.imp_right (hheld t))
  distinct t ht t' ht' hr hr' heq := by
    rw [hplace t ((hP t).mp ht), hplace t' ((hP t').mp ht')] at heq
    exact h.distinct t ((hP t).mp ht) t' ((hP t').mp ht') (hr.imp_right (hheld t))
      (hr'.imp_right (hheld t')) heq
  free := h.free
  nodup := h.nodup

/-- What placing a tensor in a token changes. -/
structure Places (st st' : StorageAllocator) (P : List Tensor) (t tok : Tensor) (size refs : ℕ) :
    Prop where
  ids : ∀ k x, st'.data[k]? = some x → (st'.token x).storageId = some k
  mem : tok ∈ st'.data
  keeps : ∀ x ∈ st.data, x ∈ st'.data
  new : ∀ x, x ∈ st'.data → x ∈ st.data ∨ x = t
  frame : ∀ x, x ≠ tok → st'.token x = st.token x
  bytes : size ≤ (st'.token tok).maxBytes
  grows : tok ∈ st.data → (st.token tok).maxBytes ≤ (st'.token tok).maxBytes
  refs : (st'.token tok).refCounter = refs
  free : ∀ e ∈ st'.free, e ∈ st.free ∧ e.2 ≠ tok
  nodup : (st'.free.map Prod.snd).Nodup

theorem put {tok : Tensor} (ht : t ∉ P) (htype : f.tensorType t = some type)
    {st' : StorageAllocator} (hplaces : Places st st' P t tok (getMemorySize type) (r t))
    (hmem : tok ∈ st.data ∨ tok = t) (hother : ∀ t' ∈ P, (0 < r t' ∨ t' ∈ held) → place t' ≠ tok) :
    StorageOk f total (t :: P) (t :: held) r st' (update place t tok) := by
  have hne : ∀ t' ∈ P, t' ≠ t := fun t' ht' heq => ht (heq ▸ ht')
  have hheld : ∀ t' ∈ P, (0 < r t' ∨ t' ∈ t :: held) → 0 < r t' ∨ t' ∈ held :=
    fun t' ht' hr' => hr'.imp_right fun hm => (mem_cons.mp hm).resolve_left (hne t' ht')
  refine ⟨hplaces.ids, fun t' ht' => ?_, fun t' ht' => ?_, fun t' ht' hr' => ?_,
    fun t₁ ht₁ t₂ ht₂ hr₁ hr₂ heq => ?_, fun e he => ?_, hplaces.nodup⟩
  · obtain ⟨hnew, hnotin⟩ : t' ≠ t ∧ t' ∉ P := by simpa using ht'
    obtain ⟨hnot, href⟩ := h.fresh t' hnotin
    have htok : t' ≠ tok := by
      rintro rfl
      exact hmem.elim hnot hnew
    rw [hplaces.frame t' htok]
    exact ⟨fun hm => (hplaces.new t' hm).elim hnot hnew, href⟩
  · rcases mem_cons.mp ht' with rfl | ht'
    · rw [update_self]
      refine ⟨hplaces.mem, fun type' htype' => ?_⟩
      cases htype.symm.trans htype'
      exact hplaces.bytes
    · obtain ⟨hdata, hsize⟩ := h.placed t' ht'
      rw [update_of_ne (hne t' ht')]
      refine ⟨hplaces.keeps _ hdata, fun type' htype' => (hsize type' htype').trans ?_⟩
      by_cases htok : place t' = tok
      · rw [htok] at hdata ⊢
        exact hplaces.grows hdata
      · rw [hplaces.frame _ htok]
  · rcases mem_cons.mp ht' with rfl | ht'
    · rw [update_self]
      exact ⟨hplaces.refs, fun e he => (hplaces.free e he).2⟩
    · obtain ⟨href, hfree⟩ := h.active t' ht' (hheld t' ht' hr')
      rw [update_of_ne (hne t' ht'), hplaces.frame _ (hother t' ht' (hheld t' ht' hr'))]
      exact ⟨href, fun e he => hfree e (hplaces.free e he).1⟩
  · rcases mem_cons.mp ht₁ with h₁ | h₁
    · rcases mem_cons.mp ht₂ with h₂ | h₂
      · rw [h₁, h₂]
      · rw [h₁, update_self, update_of_ne (hne t₂ h₂)] at heq
        exact absurd heq.symm (hother t₂ h₂ (hheld t₂ h₂ hr₂))
    · rcases mem_cons.mp ht₂ with h₂ | h₂
      · rw [h₂, update_self, update_of_ne (hne t₁ h₁)] at heq
        exact absurd heq (hother t₁ h₁ (hheld t₁ h₁ hr₁))
      · rw [update_of_ne (hne t₁ h₁), update_of_ne (hne t₂ h₂)] at heq
        exact h.distinct t₁ h₁ t₂ h₂ (hheld t₁ h₁ hr₁) (hheld t₂ h₂ hr₂) heq
  · obtain ⟨hold, htok⟩ := hplaces.free e he
    rw [hplaces.frame _ htok]
    exact ⟨hplaces.keeps _ (h.free e hold).1, (h.free e hold).2⟩

/-- **Reusing a token of the free list.** -/
theorem reuse (ht : t ∉ P) (hr : r t = total t) (htype : f.tensorType t = some type)
    {e : ℕ × Tensor} (he : e ∈ st.free) :
    ∃ st', st.reuse t (getMemorySize type) e = some (st', e.2) ∧
      StorageOk f total (t :: P) (t :: held) r st' (update place t e.2) := by
  obtain ⟨hdata, hzero⟩ := h.free e he
  have herase : ∀ e' ∈ st.free.erase e, e'.2 ≠ e.2 := by
    intro e' he' heq
    have hperm := (perm_cons_erase he).map Prod.snd
    exact (nodup_cons.mp (hperm.nodup_iff.mp h.nodup)).1
      (heq ▸ mem_map_of_mem he')
  rw [StorageAllocator.reuse, if_pos hzero]
  refine ⟨_, rfl, h.put ht htype ⟨fun k x hk => ?_, hdata, fun _ => id, fun _ => .inl,
    fun x hx => update_of_ne hx _ _, ?_, fun _ => ?_, ?_, fun e' he' => ?_, ?_⟩
    (.inl hdata)
    fun t' ht' hr' heq => (h.active t' ht' hr').2 e he heq.symm⟩
  · by_cases hx : x = e.2
    · subst hx
      simpa [StorageAllocator.modify] using h.ids k _ hk
    · simpa [StorageAllocator.modify, update_of_ne hx] using h.ids k x hk
  · simp [StorageAllocator.modify]
  · simp [StorageAllocator.modify]
  · simp [StorageAllocator.modify, (h.fresh t ht).2, hr]
  · exact ⟨mem_of_mem_erase he', herase e' he'⟩
  · exact h.nodup.sublist (Sublist.map _ erase_sublist)

/-- **Allocating a new token**, with some more references. -/
theorem alloc (ht : t ∉ P) {extra : ℕ} (hr : r t = total t + extra)
    (htype : f.tensorType t = some type) :
    StorageOk f total (t :: P) (t :: held) r
      ((st.alloc t (getMemorySize type)).modify t fun tok =>
        { tok with refCounter := tok.refCounter + extra }) (update place t t) := by
  obtain ⟨hdata, href⟩ := h.fresh t ht
  have hfree : ∀ e ∈ st.free, e.2 ≠ t := fun e he heq => hdata (heq ▸ (h.free e he).1)
  refine h.put ht htype ⟨fun k x hk => ?_, ?_, fun x hx => ?_, fun x hx => ?_, fun x hx => ?_,
    ?_, fun hmem => absurd hmem hdata, ?_, fun e he => ⟨he, hfree e he⟩, h.nodup⟩ (.inr rfl)
    fun t' ht' _ heq => hdata (heq ▸ (h.placed t' ht').1)
  · simp only [StorageAllocator.alloc, StorageAllocator.modify] at hk ⊢
    rcases lt_or_ge k st.data.length with hlt | hge
    · rw [getElem?_append_left hlt] at hk
      have hx : x ≠ t := fun heq => hdata (heq ▸ mem_of_getElem? hk)
      simpa [update_of_ne hx] using h.ids k x hk
    · rw [getElem?_append_right hge] at hk
      obtain ⟨hk', hx⟩ := List.getElem?_eq_some_iff.mp hk
      have hk'' : k = st.data.length := by
        simp only [length_singleton] at hk'
        omega
      obtain rfl : t = x := by simpa [hk''] using hx
      simp [hk'']
  · simp [StorageAllocator.alloc, StorageAllocator.modify]
  · simp [StorageAllocator.alloc, StorageAllocator.modify, hx]
  · simpa [StorageAllocator.alloc, StorageAllocator.modify] using hx
  · simp [StorageAllocator.alloc, StorageAllocator.modify, update_of_ne hx]
  · simp [StorageAllocator.alloc, StorageAllocator.modify]
  · simp [StorageAllocator.alloc, StorageAllocator.modify, href, hr]

end StorageOk

/-! ## Sizes -/

/-- The number of bytes of a tensor. -/
def TensorType.byteSize (type : TensorType) : ℕ :=
  type.shape.prod * divRoundUp (type.bits * type.lanes) 8

/-- Sizes are values of `size_t`, and for the outputs of a call, whose storage is searched for in
the free list, also the sizes times the range of sizes that match. -/
def SmallTensors (f : RelayFunction) : Prop :=
  ∀ i types, MakesTensors f i → (f.checkedType i).tensors = some types → ∀ type ∈ types,
    type.byteSize < sizeLimit ∧
      ∀ args, f.nodes[i]? = some (.call args) → type.byteSize * matchRange < sizeLimit

theorem foldl_mul_mod (l : List ℕ) (size : ℕ) :
    l.foldl (fun size dim => size * dim % sizeLimit) size % sizeLimit =
      size * l.prod % sizeLimit := by
  induction l generalizing size with
  | nil => simp
  | cons dim l ih =>
    rw [foldl_cons, ih, prod_cons, Nat.mod_mul_mod, mul_assoc]

theorem getMemorySize_eq (h : type.byteSize < sizeLimit) : getMemorySize type = type.byteSize := by
  have hmod := foldl_mul_mod type.shape 1
  rw [getMemorySize, ← Nat.mod_mul_mod, hmod, one_mul, Nat.mod_mul_mod]
  exact Nat.mod_eq_of_lt h

namespace StorageOk

/-- **A request is met**, from the free list or by a new token. -/
theorem request (h : StorageOk f total P held r st place) (ht : t ∉ P) (hr : r t = total t)
    (htype : f.tensorType t = some type) (hsmall : type.byteSize * matchRange < sizeLimit) :
    ∃ st' tok, st.request f t = some (st', tok) ∧
      StorageOk f total (t :: P) (t :: held) r st' (update place t tok) := by
  have hreuse : ∀ e ∈ st.free, ∃ st' tok, st.reuse t (getMemorySize type) e = some (st', tok) ∧
      StorageOk f total (t :: P) (t :: held) r st' (update place t tok) := by
    intro e he
    obtain ⟨st', hst', hok⟩ := h.reuse ht hr htype he
    exact ⟨st', e.2, hst', hok⟩
  -- The upper end of the range has not wrapped around.
  have hwrap : (st.free.any fun e => getMemorySize type * matchRange % sizeLimit < e.1 &&
      e.1 < getMemorySize type) = false := by
    have hle : type.byteSize ≤ type.byteSize * matchRange := Nat.le_mul_of_pos_right _ (by decide)
    rw [getMemorySize_eq (hle.trans_lt hsmall), Nat.mod_eq_of_lt hsmall, List.any_eq_false]
    intro e _
    simp
    omega
  simp only [StorageAllocator.request, htype, some_bind_eq, hwrap, Bool.false_eq_true, if_false]
  split
  · next e he =>
      refine hreuse e ?_
      have hmem := mem_of_find?_eq_some he
      exact (dropWhile_sublist _).subset ((takeWhile_sublist _).subset hmem)
  · split
    · next e he =>
        refine hreuse e ?_
        have hmem := mem_reverse.mp (mem_of_find?_eq_some he)
        exact (takeWhile_sublist _).subset ((dropWhile_sublist _).subset hmem)
    · refine ⟨_, t, rfl, ?_⟩
      have hr' : r t = total t + 0 := hr
      have halloc := h.alloc ht hr' htype
      simpa [StorageAllocator.modify] using halloc

theorem createOne (h : StorageOk f total P held r st place) (ht : t ∉ P) (canRealloc : Bool)
    (hr : r t = total t + if canRealloc then 0 else 1) (htype : f.tensorType t = some type)
    (hsmall : canRealloc = true → type.byteSize * matchRange < sizeLimit) :
    ∃ st' tok, st.createOne f canRealloc t = some (st', tok) ∧ (canRealloc = false → tok = t) ∧
      StorageOk f total (t :: P) (t :: held) r st' (update place t tok) := by
  cases canRealloc with
  | true =>
    obtain ⟨st', tok, hst', hok⟩ := h.request ht hr htype (hsmall rfl)
    exact ⟨st', tok, by simp [StorageAllocator.createOne, hst'], by simp, hok⟩
  | false =>
    refine ⟨_, t, ?_, fun _ => rfl, h.alloc ht hr htype⟩
    simp [StorageAllocator.createOne, htype]

/-- Tokens for different tensors. -/
theorem createAll (canRealloc : Bool) (hnodup : ts.Nodup) (hnew : ∀ t ∈ ts, t ∉ P)
    (hr : ∀ t ∈ ts, r t = total t + if canRealloc then 0 else 1)
    (hsmall : ∀ t ∈ ts, ∃ type, f.tensorType t = some type ∧
      (canRealloc = true → type.byteSize * matchRange < sizeLimit)) (h : StorageOk f total P held r st place) :
    ∃ st' place', createAll f canRealloc ts st = some (st', ts.map place') ∧
      (∀ t ∈ P, place' t = place t) ∧ (canRealloc = false → ∀ t ∈ ts, place' t = t) ∧
      StorageOk f total (ts ++ P) (ts ++ held) r st' place' := by
  induction ts generalizing P held st place with
  | nil => exact ⟨st, place, rfl, fun _ _ => rfl, by simp, h⟩
  | cons t ts ih =>
    obtain ⟨hnotin, hnodup⟩ := nodup_cons.mp hnodup
    obtain ⟨type, htype, hsmall'⟩ := hsmall t mem_cons_self
    obtain ⟨m, tok, hm, htok, hok⟩ := h.createOne (hnew t mem_cons_self) canRealloc
      (hr t mem_cons_self) htype hsmall'
    have hnew' : ∀ t' ∈ ts, t' ∉ t :: P := by
      intro t' ht' hmem
      rcases mem_cons.mp hmem with rfl | hmem
      · exact hnotin ht'
      · exact hnew t' (mem_cons_of_mem t ht') hmem
    obtain ⟨st', place', hst', hkeep, hown, hok'⟩ := ih hnodup hnew'
      (forall_mem_cons.mp hr).2
      (forall_mem_cons.mp hsmall).2 hok
    have htok' : place' t = tok := by
      rw [hkeep t mem_cons_self, update_self]
    refine ⟨st', place', ?_, fun t' ht' => ?_, fun hfalse t' ht' => ?_, hok'.congr ?_ ?_ ?_⟩
    · simp [createAll, hm, hst', htok']
    · have hne : t' ≠ t := fun heq => hnew t mem_cons_self (heq ▸ ht')
      rw [hkeep t' (mem_cons_of_mem t ht'), update_of_ne hne]
    · rcases mem_cons.mp ht' with rfl | ht'
      · rw [htok', htok hfalse]
      · exact hown hfalse t' ht'
    · intro t'
      simp only [mem_append, mem_cons]
      tauto
    · intro t'
      simp only [cons_append, mem_append, mem_cons]
      tauto
    · exact fun _ _ => rfl

theorem storageId_ne_none (h : StorageOk f total P held r st place) {tok : Tensor}
    (htok : tok ∈ st.data) : (st.token tok).storageId ≠ none := by
  obtain ⟨k, hk⟩ := mem_iff_getElem?.mp htok
  simp [h.ids k tok hk]

/-- **An output that is not used is released** right after the call. -/
theorem release (h : StorageOk f total P (t :: held) r st place) (ht : t ∈ P) (hheld : t ∉ held) :
    ∃ st', st.checkForRelease (place t) = some st' ∧ StorageOk f total P held r st' place := by
  obtain ⟨href, hfree⟩ := h.active t ht (.inr mem_cons_self)
  have hid := h.storageId_ne_none (h.placed t ht).1
  have hcheck : ¬ ((st.token (place t)).storageId = none ∨
      (st.token (place t)).refCounter < 0) := by
    rintro (hnone | hneg)
    · exact hid hnone
    · omega
  rw [checkForRelease, if_neg hcheck]
  have hweak : StorageOk f total P held r st place :=
    h.congr (fun _ => Iff.rfl) (fun _ => mem_cons_of_mem t) fun _ _ => rfl
  split
  · next hzero =>
      have hperm := perm_orderedInsert (fun a b : ℕ × Tensor => a.1 < b.1)
        ((st.token (place t)).maxBytes, place t) st.free
      refine ⟨_, rfl, hweak.ids, hweak.fresh, hweak.placed, fun t' ht' hr' => ?_, hweak.distinct,
        fun e he => ?_, ?_⟩
      · obtain ⟨href', hfree'⟩ := hweak.active t' ht' hr'
        refine ⟨href', fun e he => ?_⟩
        rcases mem_cons.mp (hperm.mem_iff.mp he) with rfl | he
        · intro heq
          obtain rfl := h.distinct t ht t' ht' (.inr mem_cons_self)
            (hr'.imp_right (mem_cons_of_mem t)) heq
          rcases hr' with hr' | hr'
          · omega
          · exact hheld hr'
        · exact hfree' e he
      · rcases mem_cons.mp (hperm.mem_iff.mp he) with rfl | he
        · exact ⟨(h.placed t ht).1, hzero⟩
        · exact h.free e he
      · rw [(hperm.map Prod.snd).nodup_iff, map_cons, nodup_cons]
        refine ⟨fun hmem => ?_, h.nodup⟩
        obtain ⟨e, he, heq⟩ := mem_map.mp hmem
        exact hfree e he heq
  · exact ⟨st, rfl, hweak⟩

/-- The outputs that are not used are released. -/
theorem releaseAll (hnodup : ts.Nodup) (hmem : ∀ t ∈ ts, t ∈ P)
    (h : StorageOk f total P ts r st place) :
    ∃ st', (ts.map place).foldlM checkForRelease st = some st' ∧
      StorageOk f total P [] r st' place := by
  induction ts generalizing st with
  | nil => exact ⟨st, rfl, h⟩
  | cons t ts ih =>
    obtain ⟨hnotin, hnodup⟩ := nodup_cons.mp hnodup
    obtain ⟨m, hm, hok⟩ := h.release (hmem t mem_cons_self) hnotin
    obtain ⟨st', hst', hok'⟩ := ih hnodup (forall_mem_cons.mp hmem).2 hok
    exact ⟨st', foldlM_cons_eq_some.mpr ⟨m, hm, hst'⟩, hok'⟩

section

variable (h : StorageOk f total P [] r st place) (ht : t ∈ P) (hr : 0 < r t)
include h ht hr

/-- One use of a token less. -/
theorem decrement :
    StorageOk f total P [t] (update r t (r t - 1))
      (st.modify (place t) fun tok => { tok with refCounter := tok.refCounter - 1 }) place := by
  obtain ⟨href, hfree⟩ := h.active t ht (.inl hr)
  have hdata := (h.placed t ht).1
  -- What is active now was active before.
  have hold : ∀ t', (0 < update r t (r t - 1) t' ∨ t' ∈ [t]) → 0 < r t' ∨ t' ∈ [] := by
    intro t' hr'
    by_cases htt : t' = t
    · exact .inl (htt ▸ hr)
    · simpa [update_of_ne htt, htt] using hr'
  refine ⟨fun k x hk => ?_, fun t' ht' => ?_, fun t' ht' => ?_, fun t' ht' hr' => ?_,
    fun t₁ ht₁ t₂ ht₂ hr₁ hr₂ => h.distinct t₁ ht₁ t₂ ht₂ (hold t₁ hr₁) (hold t₂ hr₂),
    fun e he => ?_, h.nodup⟩
  · by_cases hx : x = place t
    · subst hx
      simpa [StorageAllocator.modify] using h.ids k _ hk
    · simpa [StorageAllocator.modify, update_of_ne hx] using h.ids k x hk
  · obtain ⟨hnot, hfresh⟩ := h.fresh t' ht'
    have hne : t' ≠ place t := fun heq => hnot (heq ▸ hdata)
    simpa [StorageAllocator.modify, update_of_ne hne] using ⟨hnot, hfresh⟩
  · obtain ⟨hmem, hsize⟩ := h.placed t' ht'
    refine ⟨hmem, fun type htype => ?_⟩
    by_cases hx : place t' = place t
    · rw [hx] at hsize ⊢
      simpa [StorageAllocator.modify] using hsize type htype
    · simpa [StorageAllocator.modify, update_of_ne hx] using hsize type htype
  · obtain ⟨href', hfree'⟩ := h.active t' ht' (hold t' hr')
    refine ⟨?_, hfree'⟩
    by_cases htt : t' = t
    · subst htt
      simp [StorageAllocator.modify, href]
      omega
    · have hne : place t' ≠ place t := fun heq =>
        htt (h.distinct t' ht' t ht (hold t' hr') (.inl hr) heq)
      simpa [StorageAllocator.modify, update_of_ne hne, update_of_ne htt] using href'
  · have hne : e.2 ≠ place t := hfree e he
    simpa [StorageAllocator.modify, update_of_ne hne] using h.free e he

/-- **An argument is used**, and released after its last use. -/
theorem useArgument :
    ∃ st', st.useArgument (place t) = some st' ∧
      StorageOk f total P [] (update r t (r t - 1)) st' place :=
  (h.decrement ht hr).release ht (by simp)

end

theorem useAll {args : List Tensor} (hmem : ∀ t ∈ args, t ∈ P)
    (hr : ∀ t, args.count t ≤ r t) (h : StorageOk f total P [] r st place) :
    ∃ st', (args.map place).foldlM StorageAllocator.useArgument st = some st' ∧
      StorageOk f total P [] (fun t => r t - args.count t) st' place := by
  induction args generalizing st r with
  | nil => exact ⟨st, rfl, by simpa using h⟩
  | cons a args ih =>
    have ha := hr a
    rw [count_cons_self] at ha
    obtain ⟨m, hm, hok⟩ := h.useArgument (hmem a mem_cons_self) (by omega)
    have hr' : ∀ t, args.count t ≤ update r a (r a - 1) t := by
      intro t
      by_cases hta : t = a
      · subst hta
        rw [update_self]
        omega
      · have ht := hr t
        rw [count_cons_of_ne (Ne.symm hta)] at ht
        rwa [update_of_ne hta]
    obtain ⟨st', hst', hok'⟩ := ih (forall_mem_cons.mp hmem).2 hr' hok
    refine ⟨st', foldlM_cons_eq_some.mpr ⟨m, hm, hst'⟩, ?_⟩
    have hcount : (fun t => update r a (r a - 1) t - args.count t) =
        fun t => r t - (a :: args).count t := by
      funext t
      by_cases hta : t = a
      · subst hta
        rw [update_self, count_cons_self]
        omega
      · rw [update_of_ne hta, count_cons_of_ne (Ne.symm hta)]
    rwa [hcount] at hok'

end StorageOk

end Pruner.Relay
