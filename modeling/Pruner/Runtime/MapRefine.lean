import Mathlib.Data.List.NodupEquivFin
import Pruner.Runtime.MapErase

/-!
# The runtime map is a finite map

The nodes of both kinds keep a finite map, and the conversion from the one to the other carries
it over.  Handles that share a node never see a change made through another one, since a node is
copied before it is changed unless there is one handle on it; so every map of a program stands
for a finite map of its own.

## Main definitions

* `Represents` — what can be observed of a node: look-ups, the size and iteration.
* `Keeps` — the invariant of a node.
* `mapSpecStep`, `runMapSpec` — the operations on finite maps.
* `HeapHas`, `modify_spec` — the nodes of the maps, and the copy before a change.
* `runMap_sound`, `runMap_total` — programs on the maps.
-/

namespace Pruner.Runtime

open Pruner.Lib List Option SmallMapNode Function MapNode

variable {shift : ℕ}

/-! ## The small map -/

section

variable {κ ν : Type} [DecidableEq κ] {m m' : SmallMapNode κ ν} {M : κ → Option ν}

section

variable (h : Lists m.entries M)
include h

/-- The entry of a key stands at the index that is found. -/
theorem SmallMapNode.find_spec (key : κ) :
    (∃ a b v, m.entries = a ++ (key, v) :: b ∧ m.find key = a.length ∧ M key = some v) ∨
      (m.find key = m.entries.length ∧ M key = none) := by
  rw [find]
  cases hM : M key with
  | none =>
    refine .inr ⟨findIdx_eq_length.mpr fun kv hkv => ?_, rfl⟩
    rw [decide_eq_false_iff_not]
    rintro rfl
    exact h.notMem hM (mem_map_of_mem hkv)
  | some v =>
    obtain ⟨a, b, hab⟩ := append_of_mem ((h.mem_iff (key, v)).mpr hM)
    refine .inl ⟨a, b, v, hab, ?_, rfl⟩
    have hnodup := h.nodup
    rw [hab, map_append, nodup_append'] at hnodup
    rw [hab, findIdx_append, findIdx_eq_length.mpr]
    · simp [findIdx_cons]
    · intro kv hkv
      rw [decide_eq_false_iff_not]
      rintro rfl
      exact hnodup.2.2 (mem_map_of_mem hkv) mem_cons_self

variable {k : κ} {v : ν}

/-- What a small map does where the key is found, or there is room. -/
theorem SmallMapNode.insertInPlace_spec (hlen : m.entries.length ≤ m.slots) :
    (∃ m', m.insertInPlace (k, v) = some m' ∧ m'.slots = m.slots ∧
      m'.entries.length ≤ m'.slots ∧ Lists m'.entries (update M k (some v))) ∨
      (m.insertInPlace (k, v) = none ∧ m.entries.length = m.slots ∧ M k = none) := by
  rw [insertInPlace]
  dsimp only
  rcases find_spec h k with ⟨a, b, w, hab, hfind, -⟩ | ⟨hfind, hM⟩
  · have hlt : m.find k < m.entries.length := by
      rw [hab, length_append, length_cons]
      omega
    rw [if_pos hlt]
    refine .inl ⟨_, rfl, rfl, ?_, ?_⟩
    · rw [length_modify]
      exact hlen
    · rw [hab] at h
      rw [hfind, hab, modify_eq_take_cons_drop (by simp)]
      simpa using h.set_middle
  · rw [if_neg (by omega)]
    split_ifs with hroom
    · refine .inl ⟨_, rfl, rfl, ?_, h.concat hM⟩
      rw [length_append]
      exact hroom
    · exact .inr ⟨rfl, by omega, hM⟩

/-- **An insertion into a small map** that is not full sets the key. -/
theorem SmallMapNode.insert_spec (hlen : m.entries.length ≤ m.slots) (hslots : m.slots ≤ kMaxSize)
    (hroom : m.slots < kMaxSize ∨ m.entries.length < m.slots) :
    ∃ m', m.insertMaybeReHash (k, v) = some m' ∧ m'.slots ≤ kMaxSize ∧
      m'.entries.length ≤ m'.slots ∧ Lists m'.entries (update M k (some v)) := by
  rw [insertMaybeReHash]
  rcases insertInPlace_spec h hlen with
    ⟨m', hins, hslots', hlen', hlists⟩ | ⟨hins, heq, hM⟩
  · rw [hins]
    exact ⟨m', rfl, by omega, hlen', hlists⟩
  · rw [hins]
    have hlt : m.slots < kMaxSize := by omega
    rw [if_neg (by rw [kInitSize] at *; omega)]
    rcases insertInPlace_spec
        (m := createFromRange (min (max (m.slots * 2) kInitSize) kMaxSize) m.entries)
        h (by rw [createFromRange, kMaxSize] at *; dsimp only; omega) with
      ⟨m', hins', hslots', hlen', hlists⟩ | ⟨-, heq', -⟩
    · refine ⟨m', hins', ?_, hlen', hlists⟩
      rw [hslots']
      exact min_le_right _ _
    · rw [createFromRange, kInitSize] at heq'
      rw [kMaxSize] at hlt
      dsimp only at heq'
      omega

/-- **Erasing a key** from a small map. -/
theorem SmallMapNode.erase_spec (key : κ) :
    Lists (m.erase (m.find key)).entries (update M key none) ∧
      (m.erase (m.find key)).entries.length ≤ m.entries.length ∧
      (m.erase (m.find key)).slots = m.slots := by
  rw [erase]
  rcases find_spec h key with ⟨a, b, v, hab, hfind, -⟩ | ⟨hfind, hM⟩
  · rw [hab] at h
    rw [if_neg (by rw [hab, length_append, length_cons]; omega)]
    rcases eq_nil_or_concat' b with rfl | ⟨b, last, rfl⟩
    · rw [if_pos (by rw [hfind, hab, length_append]; rfl)]
      have hdrop : m.entries.dropLast = a := by rw [hab, dropLast_concat]
      refine ⟨?_, ?_, rfl⟩
      · rw [hdrop]
        simpa using h.middle
      · rw [length_dropLast]
        omega
    · rw [if_neg (by
        rw [hab, length_append, length_cons, length_append, length_singleton]
        omega)]
      have hlast : m.entries.getLast? = some last := by
        rw [hab, ← cons_append, ← append_assoc]
        exact getLast?_concat
      have hset : m.entries.set (m.find key) last = (a ++ last :: b) ++ [last] := by
        rw [hab, hfind, set_append_right _ _ le_rfl]
        simp
      refine ⟨?_, ?_, rfl⟩
      · rw [hlast, map_some, getD_some, hset, dropLast_concat]
        refine h.middle.of_perm (perm_middle.trans ?_)
        rw [← append_assoc]
        exact (perm_append_singleton last (a ++ b)).symm
      · rw [hlast, map_some, getD_some, length_dropLast, length_set]
        omega
  · rw [if_pos hfind.ge, ← hM, update_eq_self]
    exact ⟨h, le_rfl, rfl⟩

end

end

/-! ## The nodes of both kinds -/

variable {κ ν : Type} {hash : κ → ℕ} {M : κ → Option ν} {node : MapNode κ ν}

/-- The invariant of a node that keeps a finite map.  A node is small exactly if it has at most
`kMaxSize` slots, which is how the source tells the kinds apart. -/
def Keeps (hash : κ → ℕ) : MapNode κ ν → (κ → Option ν) → Prop
  | .small m, M => Lists m.entries M ∧ m.entries.length ≤ m.slots ∧ m.slots ≤ kMaxSize
  | .dense t, M => Table hash t M

theorem keeps_empty : Keeps hash (empty : MapNode κ ν) fun _ => none :=
  ⟨Lists.nil, Nat.zero_le _, show kInitSize ≤ kMaxSize by decide⟩

/-- A table of the node is not larger than the size with the given shift. -/
def Bounded (shift : ℕ) : MapNode κ ν → Prop
  | .small _ => True
  | .dense t => shift ≤ t.fibShift

/-- **A copy** keeps the same map. -/
theorem Keeps.copyFrom (h : Keeps hash node M) :
    ∃ node', node.copyFrom = some node' ∧ Keeps hash node' M ∧
      ∀ shift, Bounded shift node → Bounded shift node' := by
  cases node with
  | small m =>
    obtain ⟨hlists, hlen, hslots⟩ := h
    exact ⟨_, rfl, ⟨hlists, le_rfl, hlen.trans hslots⟩, fun _ _ => trivial⟩
  | dense t =>
    refine ⟨.dense t, ?_, h, fun _ hb => hb⟩
    rw [MapNode.copyFrom, copyFrom_spec h]
    rfl

variable [DecidableEq κ]

/-- What can be observed of a node: a look-up gives the value that the map has at the key, the
size is the number of entries, and a loop visits every entry once. -/
structure Represents (hash : κ → ℕ) (node : MapNode κ ν) (M : κ → Option ν) : Prop where
  find_eq : ∀ key, node.find hash key = M key
  iterate : Lists node.iterate M
  size_eq : node.size = node.iterate.length

/-- **What can be observed** of a node that keeps a map. -/
theorem Keeps.represents (h : Keeps hash node M) : Represents hash node M := by
  cases node with
  | small m =>
    obtain ⟨hlists, -, -⟩ := h
    refine ⟨fun key => ?_, hlists, rfl⟩
    rw [MapNode.find]
    rcases find_spec hlists key with ⟨a, b, v, hab, hfind, hM⟩ | ⟨hfind, hM⟩
    · rw [hfind, hab, hM]
      simp
    · rw [hfind, hM]
      simp
  | dense t =>
    refine ⟨fun key => ?_, ?_, ?_⟩
    · rw [MapNode.find]
      rcases search_spec h key with ⟨i, v, hsearch, hi, hM⟩ | ⟨hsearch, hM⟩
      · rw [hsearch, bind_some, hi, hM]
        rfl
      · rw [hsearch, hM]
        rfl
    · rw [MapNode.iterate, iterate_eq h]
      exact h.holds.lists
    · rw [MapNode.iterate, iterate_eq h]
      exact h.size_eq

/-- **Erasing a key** succeeds and removes it. -/
theorem Keeps.erase (h : Keeps hash node M) (key : κ) :
    ∃ node', node.erase hash key = some node' ∧ Keeps hash node' (update M key none) ∧
      ∀ shift, Bounded shift node → Bounded shift node' := by
  cases node with
  | small m =>
    obtain ⟨hlists, hlen, hslots⟩ := h
    obtain ⟨hlists', hlen', hslots'⟩ := SmallMapNode.erase_spec hlists key
    exact ⟨_, rfl, ⟨hlists', by omega, by omega⟩, fun _ _ => trivial⟩
  | dense t =>
    obtain ⟨t', herase, hshift, ht'⟩ := erase_spec h key
    refine ⟨.dense t', ?_, ht', fun shift hb => ?_⟩
    · rw [MapNode.erase, herase]
      rfl
    · rw [Bounded, hshift]
      exact hb

variable [Inhabited ν]

/-- The table that a full small map becomes starts with eight slots. -/
theorem createDense_eq (hash : κ → ℕ) {range : List (κ × ν)} (hlen : range.length = kMaxSize) :
    ∃ t : DenseMapNode κ ν, Table hash t (fun _ => none) ∧ t.fibShift = 61 ∧
      createDense hash range = range.foldlM (DenseMapNode.insertMaybeReHash hash) t := by
  obtain ⟨t, hempty, hshift, ht⟩ : ∃ t : DenseMapNode κ ν, DenseMapNode.empty 61 8 = some t ∧
      t.fibShift = 61 ∧ Table hash t fun _ => none :=
    table_empty (by decide) (by decide) le_rfl
  refine ⟨t, ht, hshift, ?_⟩
  have hsize : calcTableSize kMaxSize = some (61, 8) := by decide
  rw [createDense, hlen, hsize, some_bind_eq]
  dsimp only
  rw [hempty, some_bind_eq]

/-- **An insertion that succeeds sets the key.** -/
theorem Keeps.insert_sound {node' : MapNode κ ν} (h : Keeps hash node M) {k : κ} {v : ν}
    (hins : node.insertMaybeReHash hash (k, v) = some node') :
    Keeps hash node' (update M k (some v)) := by
  cases node with
  | small m =>
    obtain ⟨hlists, hlen, hslots⟩ := h
    rw [MapNode.insertMaybeReHash] at hins
    by_cases hroom : m.slots < kMaxSize ∨ m.entries.length < m.slots
    · rw [if_pos hroom] at hins
      obtain ⟨m', hm', hslots', hlen', hlists'⟩ :=
        insert_spec hlists hlen hslots hroom
      rw [hm'] at hins
      cases hins
      exact ⟨hlists', hlen', hslots'⟩
    · rw [if_neg hroom] at hins
      obtain ⟨t, ht, -, hcreate⟩ := createDense_eq hash
        (show m.entries.length = kMaxSize by omega)
      obtain ⟨t₁, hrun, hins⟩ := bind_eq_some_iff.mp hins
      rw [hcreate] at hrun
      have ht₁ := foldlM_table (fun t t' N kv htab hstep => insertFuel_sound _ htab hstep)
        m.entries ht hrun
      rw [hlists.setAll_eq] at ht₁
      simp only [or_none] at ht₁
      obtain ⟨t₂, ht₂, rfl⟩ := map_eq_some_iff.mp hins
      exact insertFuel_sound _ ht₁ ht₂
  | dense t =>
    obtain ⟨t', ht', rfl⟩ := map_eq_some_iff.mp hins
    exact insertFuel_sound _ h ht'

/-- **An insertion succeeds** where some size of the table has room for the keys. -/
theorem Keeps.insert_total (h : Keeps hash node M) {K : κ → Prop} (hpos : 1 ≤ shift)
    (hle : shift ≤ 61) (hroom : Room hash ν shift K) (hM : ∀ k v, M k = some v → K k)
    (hb : Bounded shift node) {k : κ} {v : ν} (hk : K k) :
    ∃ node', node.insertMaybeReHash hash (k, v) = some node' ∧ Bounded shift node' := by
  -- one insertion into a table within the bound
  have hstep : ∀ (t : DenseMapNode κ ν) (kv : κ × ν), K kv.1 → Within hash shift 61 K t →
      ∃ t', t.insertMaybeReHash hash kv = some t' ∧ Within hash shift 61 K t' := by
    intro t kv hkv ht
    exact insertFuel_total t.fibShift hpos hroom hkv ht (by omega)
  cases node with
  | small m =>
    obtain ⟨hlists, hlen, hslots⟩ := h
    rw [MapNode.insertMaybeReHash]
    split_ifs with hnot
    · obtain ⟨m', hm', -⟩ := insert_spec hlists hlen hslots hnot
      rw [hm']
      exact ⟨_, rfl, trivial⟩
    · obtain ⟨t, ht, hshift, hcreate⟩ := createDense_eq hash
        (show m.entries.length = kMaxSize by omega)
      obtain ⟨t₁, hrun, ht₁⟩ := exists_foldlM_invariant
        (f := DenseMapNode.insertMaybeReHash hash) (Within hash shift 61 K)
        (fun kv hmem t ht => hstep t kv (hM kv.1 kv.2 ((hlists.mem_iff kv).mp hmem)) ht)
        ⟨⟨_, ht, nofun⟩, by omega, by omega⟩
      obtain ⟨t₂, hins, ht₂⟩ := hstep t₁ (k, v) hk ht₁
      rw [hcreate, hrun]
      refine ⟨.dense t₂, ?_, ht₂.le_shift⟩
      rw [some_bind_eq, hins]
      rfl
  | dense t =>
    obtain ⟨c, hc⟩ := h.chained
    obtain ⟨t', ht', hwithin⟩ := hstep t (k, v) hk ⟨⟨M, h, hM⟩, hb, hc.shape.shift_le⟩
    refine ⟨.dense t', ?_, hwithin.le_shift⟩
    rw [MapNode.insertMaybeReHash, ht']
    rfl

/-! ## Programs on the maps -/

section

variable {κ ν : Type}

/-- The nodes of the maps satisfy `P` for the finite maps they stand for. -/
structure HeapHas (P : MapNode κ ν → (κ → Option ν) → Prop) (heap : MapHeap κ ν)
    (S : List (κ → Option ν)) : Prop where
  length_eq : heap.maps.length = S.length
  node : ∀ (i : ℕ) (M : κ → Option ν), S[i]? = some M →
    ∃ ref node, heap.maps[i]? = some ref ∧ heap.nodes[ref]? = some node ∧ P node M

variable {P : MapNode κ ν → (κ → Option ν) → Prop} {heap heap' : MapHeap κ ν}
  {S : List (κ → Option ν)} {M M' : κ → Option ν} {i ref : ℕ}

section

variable (h : HeapHas P heap S)
include h

theorem HeapHas.exists_map (hi : heap.maps[i]? = some ref) : ∃ M, S[i]? = some M := by
  obtain ⟨hlt, -⟩ := List.getElem?_eq_some_iff.mp hi
  exact ⟨_, getElem?_eq_getElem (h.length_eq ▸ hlt)⟩

theorem HeapHas.ref_lt (hi : heap.maps[i]? = some ref) : ref < heap.nodes.length := by
  obtain ⟨M, hM⟩ := h.exists_map hi
  obtain ⟨ref', node, href, hnode, -⟩ := h.node i M hM
  cases hi.symm.trans href
  exact lt_of_getElem? hnode

/-- A new node at the end leaves the other ones as they are. -/
theorem HeapHas.append_node (node : MapNode κ ν) :
    HeapHas P { heap with nodes := heap.nodes ++ [node] } S := by
  refine ⟨h.length_eq, fun i M hi => ?_⟩
  obtain ⟨ref, node', href, hnode, hP⟩ := h.node i M hi
  refine ⟨ref, node', href, ?_, hP⟩
  rw [getElem?_append_left (lt_of_getElem? hnode), hnode]

variable {node : MapNode κ ν}

theorem HeapHas.append_map (hnode : heap.nodes[ref]? = some node) (hP : P node M) :
    HeapHas P { heap with maps := heap.maps ++ [ref] } (S ++ [M]) := by
  refine ⟨by simp [h.length_eq], fun j N hj => ?_⟩
  rcases lt_or_ge j S.length with hlt | hge
  · rw [getElem?_append_left hlt] at hj
    obtain ⟨ref', node', href', hnode', hP'⟩ := h.node j N hj
    refine ⟨ref', node', ?_, hnode', hP'⟩
    rw [getElem?_append_left (h.length_eq ▸ hlt), href']
  · rw [getElem?_append_right hge, getElem?_singleton] at hj
    split_ifs at hj with hzero
    cases hj
    refine ⟨ref, node, ?_, hnode, hP⟩
    rw [getElem?_append_right (h.length_eq ▸ hge), h.length_eq, hzero]
    rfl

theorem HeapHas.set_map (hnode : heap.nodes[ref]? = some node) (hP : P node M) :
    HeapHas P { heap with maps := heap.maps.set i ref } (S.set i M) := by
  refine ⟨by simp [h.length_eq], fun j N hj => ?_⟩
  rcases getElem?_set_cases hj with ⟨rfl, hlt, rfl⟩ | ⟨hji, hj⟩
  · exact ⟨ref, node, getElem?_set_self (h.length_eq ▸ hlt), hnode, hP⟩
  · obtain ⟨ref', node', href', hnode', hP'⟩ := h.node j N hj
    exact ⟨ref', node', by rw [getElem?_set_ne hji, href'], hnode', hP'⟩

theorem HeapHas.set_node (hi : heap.maps[i]? = some ref)
    (hown : ∀ j, heap.maps[j]? = some ref → j = i) (hP : P node M) :
    HeapHas P { heap with nodes := heap.nodes.set ref node } (S.set i M) := by
  refine ⟨by simp [h.length_eq], fun j N hj => ?_⟩
  rcases getElem?_set_cases hj with ⟨rfl, -, rfl⟩ | ⟨hji, hj⟩
  · exact ⟨ref, node, hi, getElem?_set_self (h.ref_lt hi), hP⟩
  · obtain ⟨ref', node', href', hnode', hP'⟩ := h.node j N hj
    have hne : ref ≠ ref' := by
      rintro rfl
      exact hji (hown j href').symm
    exact ⟨ref', node', href', by rw [getElem?_set_ne hne, hnode'], hP'⟩

end

/-- An element that stands in a list once has one position. -/
theorem index_unique_of_count {l : List ℕ} (hcount : l.count ref = 1) {j : ℕ}
    (hj : l[j]? = some ref) (hi : l[i]? = some ref) : j = i := by
  by_contra hne
  wlog hlt : j < i generalizing i j
  · exact this hi hj (Ne.symm hne) (by omega)
  obtain ⟨hjlt, hj⟩ := List.getElem?_eq_some_iff.mp hj
  obtain ⟨hilt, hi⟩ := List.getElem?_eq_some_iff.mp hi
  have hdup : l.Duplicate ref := duplicate_iff_exists_distinct_get.mpr
    ⟨⟨j, hjlt⟩, ⟨i, hilt⟩, hlt, hj.symm, hi.symm⟩
  have htwo := duplicate_iff_two_le_count.mp hdup
  omega

section

variable (h : HeapHas P heap S)
  (hcopy : ∀ node M, P node M → ∃ node', node.copyFrom = some node' ∧ P node' M)
  (hi : S[i]? = some M)
include h hcopy hi

/-- **The copy before a change**: afterwards no other map refers to the node. -/
theorem HeapHas.copyOnWrite :
    ∃ heap' ref, heap.copyOnWrite i = some heap' ∧ HeapHas P heap' S ∧
      heap'.maps[i]? = some ref ∧ ∀ j, heap'.maps[j]? = some ref → j = i := by
  obtain ⟨ref, node, href, hnode, hP⟩ := h.node i M hi
  obtain ⟨hlt, hget⟩ := List.getElem?_eq_some_iff.mp href
  rw [MapHeap.copyOnWrite, href, some_bind_eq]
  split_ifs with hcount
  · exact ⟨heap, ref, rfl, h, href, fun j hj => index_unique_of_count hcount hj href⟩
  · rw [hnode]
    obtain ⟨node', hcopy', hP'⟩ := hcopy node M hP
    rw [some_bind_eq, hcopy']
    have hlast : (heap.nodes ++ [node'])[heap.nodes.length]? = some node' := by simp
    have hset := (h.append_node node').set_map (i := i) hlast hP'
    obtain ⟨hiS, hgetS⟩ := List.getElem?_eq_some_iff.mp hi
    refine ⟨_, heap.nodes.length, rfl, ?_, getElem?_set_self hlt, fun j hj => ?_⟩
    · rwa [← hgetS, set_getElem_self] at hset
    · by_contra hji
      rw [getElem?_set_ne (Ne.symm hji)] at hj
      exact absurd (h.ref_lt hj) (lt_irrefl _)

/-- **A change through one map**: the function is applied to a node that stands for the map, and
the other maps are as before. -/
theorem HeapHas.modify (f : MapNode κ ν → Option (MapNode κ ν)) :
    ∃ node, P node M ∧ (f node = none → heap.modify i f = none) ∧
      ∀ node', f node = some node' → ∃ heap', heap.modify i f = some heap' ∧
        ∀ M', P node' M' → HeapHas P heap' (S.set i M') := by
  obtain ⟨heap₁, ref, hcow, h₁, href, hown⟩ := h.copyOnWrite hcopy hi
  obtain ⟨ref', node, href', hnode, hP⟩ := h₁.node i M hi
  cases href.symm.trans href'
  have hmodify : heap.modify i f =
      (f node).bind fun node' => some { heap₁ with nodes := heap₁.nodes.set ref node' } := by
    simp [MapHeap.modify, hcow, href, hnode]
  refine ⟨node, hP, fun hf => ?_, fun node' hf => ?_⟩
  · rw [hmodify, hf, bind_none]
  · rw [hmodify, hf]
    exact ⟨_, rfl, fun M' hP' => h₁.set_node href hown hP'⟩

end

theorem HeapHas.exists_of_modify (h : HeapHas P heap S) {f : MapNode κ ν → Option (MapNode κ ν)}
    (hmodify : heap.modify i f = some heap') : ∃ M, S[i]? = some M := by
  obtain ⟨heap₁, hcow, -⟩ := bind_eq_some_iff.mp hmodify
  obtain ⟨ref, href, -⟩ := bind_eq_some_iff.mp hcow
  exact h.exists_map href

variable [DecidableEq κ]

/-- The operations on finite maps. -/
def mapSpecStep (S : List (κ → Option ν)) : MapOp κ ν → Option (List (κ → Option ν))
  | .new => some (S ++ [(fun _ => none : κ → Option ν)])
  | .copy other => S[other]?.map fun M => S ++ [M]
  | .assign map other => S[map]?.bind fun _ => S[other]?.map fun M => S.set map M
  | .set map key value => S[map]?.map fun M => S.set map (update M key (some value))
  | .erase map key => S[map]?.map fun M => S.set map (update M key none)

/-- A program on finite maps that starts with one empty map. -/
def runMapSpec (ops : List (MapOp κ ν)) : Option (List (κ → Option ν)) :=
  ops.foldlM mapSpecStep ([fun _ => none] : List (κ → Option ν))

def MapOp.keys : MapOp κ ν → List κ
  | .set _ key _ => [key]
  | _ => []

variable {hash : κ → ℕ}

/-- The maps of the program stand for finite maps, as far as can be observed. -/
structure HeapRepresents (hash : κ → ℕ) (heap : MapHeap κ ν) (S : List (κ → Option ν)) : Prop where
  length_eq : heap.maps.length = S.length
  represents : ∀ (i : ℕ) (M : κ → Option ν), S[i]? = some M →
    ∃ node, heap.node i = some node ∧ Represents hash node M

theorem HeapHas.represents (h : HeapHas (Keeps hash) heap S) : HeapRepresents hash heap S := by
  refine ⟨h.length_eq, fun i M hi => ?_⟩
  obtain ⟨ref, node, href, hnode, hkeeps⟩ := h.node i M hi
  refine ⟨node, ?_, hkeeps.represents⟩
  rw [MapHeap.node, href, bind_some, hnode]

variable [Inhabited ν] {K : κ → Prop}

/-- What a property of the nodes has to satisfy to hold along a program that sets keys of `K`. -/
structure Supports (hash : κ → ℕ) (P : MapNode κ ν → (κ → Option ν) → Prop) (K : κ → Prop) :
    Prop where
  empty : P empty fun _ => none
  copyFrom : ∀ node M, P node M → ∃ node', node.copyFrom = some node' ∧ P node' M
  erase : ∀ node M k, P node M → ∃ node', node.erase hash k = some node' ∧ P node' (update M k none)
  insert : ∀ node node' M k v, K k → P node M → node.insertMaybeReHash hash (k, v) = some node' →
    P node' (update M k (some v))

/-- **One operation** does on the nodes what it does on the finite maps, and fails only where an
insertion fails or the map does not exist. -/
theorem mapStep_spec (hP : Supports hash P K) (h : HeapHas P heap S) {op : MapOp κ ν}
    (hop : ∀ k ∈ op.keys, K k) :
    (∀ heap', mapStep hash heap op = some heap' →
      ∃ S', mapSpecStep S op = some S' ∧ HeapHas P heap' S') ∧
    ((∀ node M k v, K k → P node M → node.insertMaybeReHash hash (k, v) ≠ none) →
      ∀ S', mapSpecStep S op = some S' → ∃ heap', mapStep hash heap op = some heap') := by
  cases op with
  | new =>
    refine ⟨fun heap' hstep => ⟨_, rfl, ?_⟩, fun _ _ _ => ⟨_, rfl⟩⟩
    cases hstep
    have hlast : (heap.nodes ++ [MapNode.empty])[heap.nodes.length]? = some MapNode.empty := by
      simp
    exact (h.append_node MapNode.empty).append_map hlast hP.empty
  | copy other =>
    rw [mapStep, mapSpecStep]
    refine ⟨fun heap' hstep => ?_, fun _ S' hspec => ?_⟩
    · obtain ⟨ref, href, rfl⟩ := map_eq_some_iff.mp hstep
      obtain ⟨M, hM⟩ := h.exists_map href
      obtain ⟨ref', node, href', hnode, hPn⟩ := h.node other M hM
      cases href.symm.trans href'
      rw [hM]
      exact ⟨_, rfl, h.append_map hnode hPn⟩
    · obtain ⟨M, hM, -⟩ := map_eq_some_iff.mp hspec
      obtain ⟨ref, node, href, -⟩ := h.node other M hM
      rw [href]
      exact ⟨_, rfl⟩
  | assign map other =>
    rw [mapStep, mapSpecStep]
    refine ⟨fun heap' hstep => ?_, fun _ S' hspec => ?_⟩
    · obtain ⟨old, hold, ref, href, hstep⟩ := bind₂_eq_some.mp hstep
      cases hstep
      obtain ⟨N, hN⟩ := h.exists_map hold
      obtain ⟨M, hM⟩ := h.exists_map href
      obtain ⟨ref', node, href', hnode, hPn⟩ := h.node other M hM
      cases href.symm.trans href'
      rw [hN, hM]
      exact ⟨_, rfl, h.set_map hnode hPn⟩
    · obtain ⟨N, hN, hspec⟩ := bind_eq_some_iff.mp hspec
      obtain ⟨M, hM, -⟩ := map_eq_some_iff.mp hspec
      obtain ⟨old, -, hold, -⟩ := h.node map N hN
      obtain ⟨ref, -, href, -⟩ := h.node other M hM
      rw [hold, href]
      exact ⟨_, rfl⟩
  | set map key value =>
    have hkey : K key := hop key (by simp [MapOp.keys])
    rw [mapStep, mapSpecStep]
    refine ⟨fun heap' hstep => ?_, fun htotal S' hspec => ?_⟩
    · obtain ⟨M, hM⟩ := h.exists_of_modify hstep
      obtain ⟨node, hPn, hnone, hsome⟩ :=
        h.modify hP.copyFrom hM fun node => node.insertMaybeReHash hash (key, value)
      cases hins : node.insertMaybeReHash hash (key, value) with
      | none =>
        rw [hnone hins] at hstep
        cases hstep
      | some node' =>
        obtain ⟨heap₁, hmodify, hheap⟩ := hsome node' hins
        rw [hmodify] at hstep
        cases hstep
        rw [hM]
        exact ⟨_, rfl, hheap _ (hP.insert node node' M key value hkey hPn hins)⟩
    · obtain ⟨M, hM, -⟩ := map_eq_some_iff.mp hspec
      obtain ⟨node, hPn, -, hsome⟩ :=
        h.modify hP.copyFrom hM fun node => node.insertMaybeReHash hash (key, value)
      obtain ⟨node', hins⟩ := ne_none_iff_exists'.mp (htotal node M key value hkey hPn)
      obtain ⟨heap₁, hmodify, -⟩ := hsome node' hins
      exact ⟨heap₁, hmodify⟩
  | erase map key =>
    rw [mapStep, mapSpecStep]
    refine ⟨fun heap' hstep => ?_, fun _ S' hspec => ?_⟩
    · obtain ⟨M, hM⟩ := h.exists_of_modify hstep
      obtain ⟨node, hPn, -, hsome⟩ := h.modify hP.copyFrom hM fun node => node.erase hash key
      obtain ⟨node', herase, hPn'⟩ := hP.erase node M key hPn
      obtain ⟨heap₁, hmodify, hheap⟩ := hsome node' herase
      rw [hmodify] at hstep
      cases hstep
      rw [hM]
      exact ⟨_, rfl, hheap _ hPn'⟩
    · obtain ⟨M, hM, -⟩ := map_eq_some_iff.mp hspec
      obtain ⟨node, hPn, -, hsome⟩ := h.modify hP.copyFrom hM fun node => node.erase hash key
      obtain ⟨node', herase, -⟩ := hP.erase node M key hPn
      obtain ⟨heap₁, hmodify, -⟩ := hsome node' herase
      exact ⟨heap₁, hmodify⟩

/-- **A program that ends** has done on the nodes what it does on the finite maps. -/
theorem foldlM_mapStep_sound (hP : Supports hash P K) (ops : List (MapOp κ ν))
    (hops : ∀ op ∈ ops, ∀ k ∈ op.keys, K k) (h : HeapHas P heap S)
    (hrun : ops.foldlM (mapStep hash) heap = some heap') :
    ∃ S', ops.foldlM mapSpecStep S = some S' ∧ HeapHas P heap' S' :=
  foldlM_simulation (HeapHas P) (fun op hop _ _ h => (mapStep_spec hP h (hops op hop)).1) h hrun

/-- **A program ends** where no insertion fails and every map it names exists. -/
theorem foldlM_mapStep_total (hP : Supports hash P K)
    (htotal : ∀ node M k v, K k → P node M → node.insertMaybeReHash hash (k, v) ≠ none)
    (ops : List (MapOp κ ν)) (hops : ∀ op ∈ ops, ∀ k ∈ op.keys, K k) (h : HeapHas P heap S)
    {S' : List (κ → Option ν)} (hrun : ops.foldlM mapSpecStep S = some S') :
    ∃ heap', ops.foldlM (mapStep hash) heap = some heap' := by
  obtain ⟨heap', hheap, -⟩ := foldlM_simulation (fun S heap => HeapHas P heap S)
    (fun op hop S heap h S₁ hspec => by
      have hstep := mapStep_spec hP h (hops op hop)
      obtain ⟨heap₁, hheap⟩ := hstep.2 htotal S₁ hspec
      obtain ⟨S₁', hspec', h₁⟩ := hstep.1 heap₁ hheap
      cases hspec.symm.trans hspec'
      exact ⟨heap₁, hheap, h₁⟩) h hrun
  exact ⟨heap', hheap⟩

theorem supports_keeps : Supports hash (Keeps (ν := ν) hash) fun _ => True where
  empty := keeps_empty
  copyFrom := fun node M h => by
    obtain ⟨node', hcopy, hkeeps, -⟩ := h.copyFrom
    exact ⟨node', hcopy, hkeeps⟩
  erase := fun node M k h => by
    obtain ⟨node', herase, hkeeps, -⟩ := h.erase k
    exact ⟨node', herase, hkeeps⟩
  insert := fun _ _ _ _ _ _ h hins => h.insert_sound hins

theorem heapHas_init (hP : Supports hash P K) :
    HeapHas P (MapHeap.new ⟨[], []⟩) [fun _ => none] := by
  refine ⟨rfl, fun i M hi => ?_⟩
  rw [getElem?_singleton] at hi
  split_ifs at hi with hzero
  subst hzero
  cases hi
  exact ⟨0, empty, rfl, rfl, hP.empty⟩

variable {ops : List (MapOp κ ν)}

/-- **A program that ends has treated its maps as finite maps**, for every hash function. -/
theorem runMap_sound (hrun : runMap hash ops = some heap) :
    ∃ S, runMapSpec ops = some S ∧ HeapHas (Keeps hash) heap S :=
  foldlM_mapStep_sound supports_keeps ops (fun _ _ _ _ => trivial) (heapHas_init supports_keeps)
    hrun

/-- **Only the order of the entries depends on the hash function.** -/
theorem runMap_entries_perm {hash' : κ → ℕ} (h : runMap hash ops = some heap)
    (h' : runMap hash' ops = some heap') {node : MapNode κ ν} (hi : heap.node i = some node) :
    ∃ node', heap'.node i = some node' ∧ node.iterate.Perm node'.iterate := by
  obtain ⟨S, hspec, hS⟩ := runMap_sound h
  obtain ⟨S', hspec', hS'⟩ := runMap_sound h'
  cases hspec.symm.trans hspec'
  obtain ⟨ref, href, -⟩ := bind_eq_some_iff.mp hi
  obtain ⟨M, hM⟩ := hS.exists_map href
  obtain ⟨_, hnode, hrep⟩ := hS.represents.represents i M hM
  cases hi.symm.trans hnode
  obtain ⟨node', hi', hrep'⟩ := hS'.represents.represents i M hM
  exact ⟨node', hi', hrep.iterate.perm hrep'.iterate⟩

theorem runMap_entries_perm_five : let ops := [1, 2, 3, 4, 5].map fun k => MapOp.set 0 k k
    ∃ heap heap' node, runMap id ops = some heap ∧ runMap (fun _ => 7) ops = some heap' ∧
      heap.node 0 = some node ∧
      ∃ node', heap'.node 0 = some node' ∧ node.iterate.Perm node'.iterate := by
  intro ops
  exact ⟨_, _, _, rfl, rfl, rfl, runMap_entries_perm (rfl : runMap id ops = _)
    (rfl : runMap (fun _ => 7) ops = _) rfl⟩

/-- What holds of the nodes of a program whose keys some size of the table has room for. -/
theorem supports_bounded (hpos : 1 ≤ shift) (hle : shift ≤ 61) (hroom : Room hash ν shift K) :
    Supports hash (fun node M => Keeps (ν := ν) hash node M ∧ Bounded shift node ∧
      ∀ k v, M k = some v → K k) K where
  empty := ⟨keeps_empty, trivial, nofun⟩
  copyFrom := fun node M ⟨h, hb, hM⟩ => by
    obtain ⟨node', hcopy, hkeeps, hb'⟩ := h.copyFrom
    exact ⟨node', hcopy, hkeeps, hb' shift hb, hM⟩
  erase := fun node M k ⟨h, hb, hM⟩ => by
    obtain ⟨node', herase, hkeeps, hb'⟩ := h.erase k
    refine ⟨node', herase, hkeeps, hb' shift hb, fun k' v hk' => ?_⟩
    by_cases hkk : k' = k
    · rw [hkk, update_self] at hk'
      cases hk'
    · rw [update_of_ne hkk] at hk'
      exact hM k' v hk'
  insert := fun node node' M k v hk ⟨h, hb, hM⟩ hins => by
    obtain ⟨node'', hins', hb'⟩ := h.insert_total hpos hle hroom hM hb hk
    cases hins.symm.trans hins'
    refine ⟨h.insert_sound hins, hb', fun k' v' hk' => ?_⟩
    by_cases hkk : k' = k
    · rwa [hkk]
    · rw [update_of_ne hkk] at hk'
      exact hM k' v' hk'

/-- **A program ends** where some size of the table has room for its keys. -/
theorem runMap_total (hpos : 1 ≤ shift) (hle : shift ≤ 61)
    (hroom : Room hash ν shift fun k => ∃ op ∈ ops, k ∈ op.keys)
    (hspec : runMapSpec ops = some S) : ∃ heap, runMap hash ops = some heap := by
  have hP := supports_bounded hpos hle hroom
  refine foldlM_mapStep_total hP (fun node M k v hk ⟨h, hb, hM⟩ => ?_) ops
    (fun op hop k hk => ⟨op, hop, hk⟩) (heapHas_init hP) hspec
  obtain ⟨node', hins, -⟩ := h.insert_total hpos hle hroom hM hb hk
  rw [hins]
  nofun

end

end Pruner.Runtime
