import Pruner.Runtime.MapContent

/-!
# The lists of the hash table

What the table of the runtime map keeps: the entries that have one home slot are the elements of
one path, which starts at that slot; the head bit is set at no other slot, and every slot without
an entry is empty, or is the one that is being spared.  The lemmas say how this changes when a
list is started, continued or cut, and when the entries of a list are moved to make room for a
new head.

## Main definitions

* `Listed`, `Chained` — the lists of the table.
* `Table` — what holds of a table between the operations.
* `search_spec` — a search finds the entry of a key.
* `Chained.newHead`, `Chained.newTail`, `Chained.dropLast` — one change of the lists.
* `Sparing`, `spareLoop_spec` — the moving of a list.
-/

namespace Pruner.Runtime

open Pruner.Lib List Function DenseMapNode

variable {s' : ℕ}

/-- A table of a power of two slots that the shift of the hashes fits. -/
structure Shape {κ ν : Type} (t : DenseMapNode κ ν) : Prop where
  slots_eq : t.slots + 1 = 2 ^ (64 - t.fibShift)
  shift_pos : 1 ≤ t.fibShift
  shift_le : t.fibShift ≤ 61

variable {κ ν : Type} {t : DenseMapNode κ ν} {c : ℕ → List ℕ}

/-- A table has at least eight slots. -/
theorem Shape.le_slots (h : Shape t) : 7 ≤ t.slots := by
  obtain ⟨hslots, -, hle⟩ := h
  have hmono : 2 ^ 3 ≤ 2 ^ (64 - t.fibShift) := Nat.pow_le_pow_right (by omega) (by omega)
  omega

/-- A home slot is one of the table. -/
theorem Shape.indexFromHash_le (h : Shape t) (hash : κ → ℕ)
    (key : κ) : t.indexFromHash hash key ≤ t.slots := by
  have hlt : fibHash (hash key) t.fibShift < 2 ^ (64 - t.fibShift) := by
    have hle := h.shift_le
    rw [fibHash, Nat.shiftRight_eq_div_pow, Nat.div_lt_iff_lt_mul (Nat.two_pow_pos _),
      ← pow_add, Nat.sub_add_cancel (by omega)]
    exact Nat.mod_lt _ (Nat.two_pow_pos 64)
  rw [Nat.le_iff_lt_add_one, h.slots_eq]
  exact hlt

section

variable (hash : κ → ℕ)

/-- `c s` lists the slots of the entries with home slot `s`, the head first. -/
structure Listed (t : DenseMapNode κ ν) (c : ℕ → List ℕ) : Prop where
  shape : Shape t
  start : ∀ s i, (c s).head? = some i → i = s
  mem_iff : ∀ s i, i ∈ c s ↔ ∃ kv, t.data i = some kv ∧ t.indexFromHash hash kv.1 = s
  isHead_iff : ∀ s i, i ∈ c s → (t.isHead i = true ↔ i = s)

/-- The lists are linked, and the slots without an entry are empty, except for the protected one
if there is one. -/
structure Chained (guarded : Option ℕ) (t : DenseMapNode κ ν) (c : ℕ → List ℕ) : Prop
    extends Listed hash t c where
  path : ∀ s, Path t.next (c s)
  isEmpty : ∀ i, t.data i = none → guarded ≠ some i → t.isEmpty i = true

/-- What holds of a table between the operations. -/
structure Table (t : DenseMapNode κ ν) (M : κ → Option ν) : Prop where
  chained : ∃ c, Chained hash none t c
  holds : Holds t M
  size_eq : t.size = t.entries.length

variable {hash} {M : κ → Option ν}
 {s i : ℕ}

section

variable (h : Listed hash t c)
include h

theorem Listed.mem_home {kv : κ × ν} (hi : t.data i = some kv) :
    i ∈ c (t.indexFromHash hash kv.1) :=
  (h.mem_iff _ i).mpr ⟨kv, hi, rfl⟩

theorem Listed.notMem (hi : t.data i = none) (s : ℕ) : i ∉ c s := by
  intro hmem
  obtain ⟨kv, hkv, -⟩ := (h.mem_iff s i).mp hmem
  rw [hi] at hkv
  cases hkv

/-- A slot stands in one list. -/
theorem Listed.unique (hs : i ∈ c s) (hs' : i ∈ c s') : s = s' := by
  obtain ⟨kv, hkv, rfl⟩ := (h.mem_iff s i).mp hs
  obtain ⟨kv', hkv', rfl⟩ := (h.mem_iff s' i).mp hs'
  rw [hkv] at hkv'
  cases hkv'
  rfl

theorem Listed.exists_cons (hs : c s ≠ []) : ∃ l, c s = s :: l := by
  cases hc : c s with
  | nil => exact absurd hc hs
  | cons x l =>
    obtain rfl := h.start s x (by rw [hc]; rfl)
    exact ⟨l, rfl⟩

theorem Listed.eq_nil (hs : t.data s = none) : c s = [] := by
  by_contra hne
  obtain ⟨l, hl⟩ := h.exists_cons hne
  exact h.notMem hs s (by rw [hl]; exact mem_cons_self)

end

/-- A slot without an entry is empty, unless one is protected. -/
theorem Chained.isEmpty_of_data (h : Chained hash none t c) (hi : t.data i = none) :
    t.isEmpty i = true :=
  h.isEmpty i hi (Option.some_ne_none i).symm

/-- **The head bit** is set where a list starts. -/
theorem Chained.isHead_eq (h : Chained hash none t c) : t.isHead s = true ↔ c s ≠ [] := by
  constructor
  · intro hhead hnil
    cases hdata : t.data s with
    | none =>
      rw [not_isHead_of_isEmpty (h.isEmpty_of_data hdata)] at hhead
      cases hhead
    | some kv =>
      have hmem := h.mem_home hdata
      rw [← (h.isHead_iff _ s hmem).mp hhead, hnil] at hmem
      cases hmem
  · intro hne
    obtain ⟨l, hl⟩ := h.exists_cons hne
    exact (h.isHead_iff s s (by rw [hl]; exact mem_cons_self)).mpr rfl

/-- The walk along a list ends within the slots of the table. -/
theorem Listed.length_le (h : Listed hash t c) (hholds : Holds t M) (hpath : Path t.next (c s)) :
    (c s).length ≤ t.slots + 1 := by
  refine hpath.length_le fun i hi => ?_
  obtain ⟨kv, hkv, -⟩ := (h.mem_iff s i).mp hi
  exact hholds.bound i kv hkv

variable {key : κ}

/-- Where no list starts at the home slot of a key, the key is absent. -/
theorem Chained.eq_none_of_not_isHead (h : Chained hash none t c) (hholds : Holds t M)
    (hhead : t.isHead (t.indexFromHash hash key) ≠ true) : M key = none := by
  cases hM : M key with
  | none => rfl
  | some v =>
    obtain ⟨i, hi⟩ := hholds.complete key v hM
    have hmem : i ∈ c (t.indexFromHash hash key) := h.mem_home hi
    exact absurd (h.isHead_eq.mpr (ne_nil_of_mem hmem)) hhead

variable [DecidableEq κ]

theorem hasKey_iff : t.hasKey key i = true ↔ ∃ v, t.data i = some (key, v) := by
  rw [hasKey, decide_eq_true_eq, Option.map_eq_some_iff]
  constructor
  · rintro ⟨⟨k, v⟩, hkv, rfl⟩
    exact ⟨v, hkv⟩
  · rintro ⟨v, hv⟩
    exact ⟨(key, v), hv, rfl⟩

/-- What the walk from a head finds: the entry of the key, or the end of the list. -/
theorem Chained.scan_spec (h : Chained hash none t c) (hholds : Holds t M)
    (hhead : t.isHead (t.indexFromHash hash key) = true) :
    (∃ i v, t.data i = some (key, v) ∧
      scan t.next (t.hasKey key) (t.slots + 1) (t.indexFromHash hash key) = some (.inl i)) ∨
    (M key = none ∧ ∃ tail, (c (t.indexFromHash hash key)).getLast? = some tail ∧
      scan t.next (t.hasKey key) (t.slots + 1) (t.indexFromHash hash key) = some (.inr tail)) := by
  obtain ⟨l, hl⟩ := h.exists_cons (h.isHead_eq.mp hhead)
  have hpath := h.path (t.indexFromHash hash key)
  have hlen := h.toListed.length_le hholds hpath
  rw [hl] at hpath hlen ⊢
  have hfuel : l.length < t.slots + 1 := hlen
  rcases Lib.scan_spec hpath (p := t.hasKey key) hfuel
    with ⟨i, -, hkey, hscan⟩ | ⟨hnone, tail, hlast, hscan⟩
  · obtain ⟨v, hv⟩ := hasKey_iff.mp hkey
    exact .inl ⟨i, v, hv, hscan⟩
  · refine .inr ⟨?_, tail, hlast, hscan⟩
    cases hM : M key with
    | none => rfl
    | some v =>
      obtain ⟨i, hi⟩ := hholds.complete key v hM
      have hmem : i ∈ c (t.indexFromHash hash key) := h.mem_home hi
      rw [hl] at hmem
      have hfalse := hnone i hmem
      rw [hasKey_iff.mpr ⟨v, hi⟩] at hfalse
      cases hfalse

/-- **A search finds the entry of a key**, or there is none. -/
theorem search_spec (h : Table hash t M) (key : κ) :
    (∃ i v, t.search hash key = some i ∧ t.data i = some (key, v) ∧ M key = some v) ∨
      (t.search hash key = none ∧ M key = none) := by
  obtain ⟨c, hc⟩ := h.chained
  rw [search]
  by_cases hsize : t.size = 0
  · rw [if_pos hsize]
    refine .inr ⟨rfl, ?_⟩
    cases hM : M key with
    | none => rfl
    | some v =>
      have hmem := (h.holds.lists.mem_iff (key, v)).mpr hM
      rw [length_eq_zero_iff.mp (h.size_eq.symm.trans hsize)] at hmem
      cases hmem
  · rw [if_neg hsize]
    by_cases hhead : t.isHead (t.indexFromHash hash key) = true
    · rw [if_pos hhead]
      rcases hc.scan_spec h.holds hhead with ⟨i, v, hi, hscan⟩ | ⟨hM, tail, -, hscan⟩
      · rw [hscan]
        exact .inl ⟨i, v, rfl, hi, h.holds.sound i _ hi⟩
      · rw [hscan]
        exact .inr ⟨rfl, hM⟩
    · rw [if_neg hhead]
      exact .inr ⟨rfl, hc.eq_none_of_not_isHead h.holds hhead⟩

end

/-! ## Changes of one list -/

variable {hash : κ → ℕ} {t' : DenseMapNode κ ν} {M : κ → Option ν} {guarded : Option ℕ} {s : ℕ}

/-- The tables differ in the list `s`, which becomes `l`. -/
structure ListChange (hash : κ → ℕ) (t t' : DenseMapNode κ ν) (c : ℕ → List ℕ) (s : ℕ)
    (l : List ℕ) : Prop where
  slots_eq : t'.slots = t.slots
  shift_eq : t'.fibShift = t.fibShift
  start : ∀ i, l.head? = some i → i = s
  home : ∀ i ∈ l, ∃ kv, t'.data i = some kv ∧ t.indexFromHash hash kv.1 = s
  isHead_iff : ∀ i ∈ l, (t'.isHead i = true ↔ i = s)
  old_or_free : ∀ i ∈ l, i ∈ c s ∨ t.data i = none
  dropped : ∀ i ∈ c s, i ∉ l → t'.data i = none
  kept : ∀ i, i ∉ c s → i ∉ l → t'.data i = t.data i ∧ t'.bytes i = t.bytes i

namespace ListChange

variable {l : List ℕ} (hl : ListChange hash t t' c s l)
include hl

theorem shape (h : Shape t) : Shape t' := by
  obtain ⟨hslots, hpos, hle⟩ := h
  exact ⟨by rw [hl.slots_eq, hl.shift_eq, hslots], by rw [hl.shift_eq]; exact hpos,
    by rw [hl.shift_eq]; exact hle⟩

theorem kept_of_mem (h : Listed hash t c) {i : ℕ} (hs : s' ≠ s) (hi : i ∈ c s') :
    i ∉ l ∧ t'.data i = t.data i ∧ t'.bytes i = t.bytes i := by
  have hcs : i ∉ c s := fun hi' => hs (h.unique hi hi')
  have hil : i ∉ l := by
    intro hil
    rcases hl.old_or_free i hil with hi' | hfree
    · exact hcs hi'
    · exact h.notMem hfree s' hi
  exact ⟨hil, hl.kept i hcs hil⟩

/-- The slots of the lists after the change. -/
theorem listed (h : Listed hash t c) : Listed hash t' (update c s l) := by
  refine ⟨hl.shape h.shape, fun s' i hi => ?_, fun s' i => ?_, fun s' i hi => ?_⟩
  · by_cases hs : s' = s
    · subst hs
      rw [update_self] at hi
      exact hl.start i hi
    · rw [update_of_ne hs] at hi
      exact h.start s' i hi
  · simp only [indexFromHash, hl.shift_eq]
    by_cases hs : s' = s
    · subst hs
      rw [update_self]
      refine ⟨hl.home i, ?_⟩
      rintro ⟨kv, hkv, hhome⟩
      by_contra hil
      by_cases hi : i ∈ c s'
      · rw [hl.dropped i hi hil] at hkv
        cases hkv
      · rw [(hl.kept i hi hil).1] at hkv
        exact hi ((h.mem_iff s' i).mpr ⟨kv, hkv, hhome⟩)
    · rw [update_of_ne hs]
      constructor
      · intro hi
        rw [(hl.kept_of_mem h hs hi).2.1]
        exact (h.mem_iff s' i).mp hi
      · rintro ⟨kv, hkv, hhome⟩
        have hil : i ∉ l := by
          intro hil
          obtain ⟨kv', hkv', hhome'⟩ := hl.home i hil
          rw [hkv] at hkv'
          cases hkv'
          exact hs (hhome.symm.trans hhome')
        have hi : i ∉ c s := by
          intro hi
          rw [hl.dropped i hi hil] at hkv
          cases hkv
        rw [(hl.kept i hi hil).1] at hkv
        exact (h.mem_iff s' i).mpr ⟨kv, hkv, hhome⟩
  · by_cases hs : s' = s
    · subst hs
      rw [update_self] at hi
      exact hl.isHead_iff i hi
    · rw [update_of_ne hs] at hi
      rw [isHead_congr (hl.kept_of_mem h hs hi).2.2]
      exact h.isHead_iff s' i hi

/-- The other lists stay linked. -/
theorem path_of_ne (h : Listed hash t c) (hs : s' ≠ s)
    (hpath : Path t.next (c s')) : Path t'.next (c s') :=
  hpath.congr fun _ hx => next_congr hl.slots_eq (hl.kept_of_mem h hs hx).2.2

/-- The lists stay linked when the new one is, and the slots that it has lost are empty. -/
theorem chained (h : Chained hash guarded t c) (hg : ∀ i, guarded = some i → i ∈ l)
    (hpath : Path t'.next l) (hdropped : ∀ i ∈ c s, i ∉ l → t'.isEmpty i = true) :
    Chained hash none t' (update c s l) := by
  refine ⟨hl.listed h.toListed, fun s' => ?_, fun i hi _ => ?_⟩
  · by_cases hs : s' = s
    · rwa [hs, update_self]
    · rw [update_of_ne hs]
      exact hl.path_of_ne h.toListed hs (h.path s')
  · have hil : i ∉ l := by
      intro hil
      obtain ⟨kv, hkv, -⟩ := hl.home i hil
      cases hi.symm.trans hkv
    by_cases hic : i ∈ c s
    · exact hdropped i hic hil
    · obtain ⟨hdata, hbyte⟩ := hl.kept i hic hil
      rw [DenseMapNode.isEmpty, hbyte]
      exact h.isEmpty i (hdata ▸ hi) fun hgi => hil (hg i hgi)

end ListChange

/-- **A new list** starts at a slot without an entry. -/
theorem Chained.newHead (h : Chained hash guarded t c) (hg : ∀ i, guarded = some i → i = s)
    (hs : t.data s = none) (kv : κ × ν) (hkey : t.indexFromHash hash kv.1 = s)
    (hslots : t'.slots = t.slots) (hshift : t'.fibShift = t.fibShift)
    (hbytes : t'.bytes = update t.bytes s 0b00000000)
    (hdata : t'.data = update t.data s (some kv)) :
    Chained hash none t' (update c s [s]) := by
  have hbyte : t'.bytes s = 0b00000000 := by rw [hbytes, update_self]
  have hchange : ListChange hash t t' c s [s] := by
    refine ⟨hslots, hshift, ?_, ?_, ?_, ?_, ?_, ?_⟩
    · simp
    · simp only [mem_singleton, forall_eq]
      exact ⟨kv, by rw [hdata, update_self], hkey⟩
    · simp only [mem_singleton, forall_eq, iff_true]
      rw [isHead, hbyte]
      decide
    · simp [hs]
    · simp [h.eq_nil hs]
    · intro i _ hi
      have hne : i ≠ s := by simpa using hi
      rw [hdata, hbytes, update_of_ne hne, update_of_ne hne]
      exact ⟨rfl, rfl⟩
  refine hchange.chained h (fun i hi => mem_singleton.mpr (hg i hi)) ?_ (by simp [h.eq_nil hs])
  rw [path_singleton]
  refine next_of_jumpOf_eq_zero ?_
  rw [hbyte]
  decide

variable {w e jump : ℕ}

/-- The link from the last slot of a list to a new one. -/
theorem next_of_setJump (hslots : t'.slots = t.slots)
    (hpos : 1 ≤ jump) (hlt : jump < kNumJumpDists) (he : e = (w + probe jump) &&& t.slots)
    (hw : t'.bytes w = t.bytes w &&& 0b10000000 ||| UInt8.ofNat jump) :
    t'.next w = some e := by
  rw [next_eq, hw, jumpOf_or _ hlt, if_neg (probe_pos jump hlt hpos), hslots, he]

/-- A list goes on behind `w` in the empty slot `e`, and may lose slots. -/
theorem Listed.extend (h : Listed hash t c) {kv : κ × ν} {G : ℕ → Prop}
    {l : List ℕ} (hwmem : w ∈ c s) (hlt : jump < kNumJumpDists) (hfree : t.data e = none)
    (hkey : t.indexFromHash hash kv.1 = s) (hslots : t'.slots = t.slots)
    (hshift : t'.fibShift = t.fibShift) (hl : ∀ i, i ∈ l ↔ (i ∈ c s ∧ ¬ G i) ∨ i = e)
    (hstart : ∀ i, l.head? = some i → i = s)
    (hgone : ∀ i, G i → i ∈ c s ∧ t'.data i = none) (hdata_e : t'.data e = some kv)
    (hdata : ∀ i, ¬ G i → i ≠ e → t'.data i = t.data i)
    (hbyte_w : t'.bytes w = t.bytes w &&& 0b10000000 ||| UInt8.ofNat jump)
    (hbyte_e : t'.bytes e = 0b10000000)
    (hbyte : ∀ i, i ≠ w → ¬ G i → i ≠ e → t'.bytes i = t.bytes i) :
    ListChange hash t t' c s l := by
  have hne : ∀ i ∈ c s, i ≠ e := by
    rintro i hi rfl
    exact h.notMem hfree s hi
  refine ⟨hslots, hshift, hstart, fun i hi => ?_, fun i hi => ?_, fun i hi => ?_,
    fun i hi hil => ?_, fun i hi hil => ?_⟩
  · rcases (hl i).mp hi with ⟨hi, hgi⟩ | rfl
    · rw [hdata i hgi (hne i hi)]
      exact (h.mem_iff s i).mp hi
    · exact ⟨kv, hdata_e, hkey⟩
  · rcases (hl i).mp hi with ⟨hi, hgi⟩ | rfl
    · rw [← h.isHead_iff s i hi]
      by_cases hiw : i = w
      · have hbit : t'.bytes i &&& 0b10000000 = t.bytes i &&& 0b10000000 := by
          rw [hiw, hbyte_w, headBit_or _ hlt]
        rw [isHead_of_headBit hbit]
      · rw [isHead_congr (hbyte i hiw hgi (hne i hi))]
    · have hfalse : t'.isHead i = false := by
        rw [isHead, hbyte_e]
        decide
      refine iff_of_false (by simp [hfalse]) ?_
      rintro rfl
      rw [h.eq_nil hfree] at hwmem
      cases hwmem
  · exact ((hl i).mp hi).imp And.left (fun hie : i = e => hie ▸ hfree)
  · by_contra hsome
    exact hil ((hl i).mpr (.inl ⟨hi, fun hgi => hsome (hgone i hgi).2⟩))
  · have hie : i ≠ e := fun hie => hil ((hl i).mpr (.inr hie))
    have hgi : ¬ G i := fun hgi => hi (hgone i hgi).1
    exact ⟨hdata i hgi hie, hbyte i (fun hiw => hi (hiw ▸ hwmem)) hgi hie⟩

/-- **A list goes on** in an empty slot. -/
theorem Chained.newTail (h : Chained hash none t c) (hholds : Holds t M)
    (hw : (c s).getLast? = some w) (he : t.getNextEmpty w = some (jump, e)) (kv : κ × ν)
    (hkey : t.indexFromHash hash kv.1 = s) (hslots : t'.slots = t.slots)
    (hshift : t'.fibShift = t.fibShift) (hbytes : t'.bytes = update (update t.bytes e 0b10000000) w
      (t.bytes w &&& 0b10000000 ||| UInt8.ofNat jump))
    (hdata : t'.data = update t.data e (some kv)) :
    Chained hash none t' (update c s (c s ++ [e])) := by
  obtain ⟨hpos, hlt, he, hempty⟩ := getNextEmpty_eq_some he
  have hfree := hholds.data_of_isEmpty hempty
  have hwmem := mem_of_getLast? hw
  have hne : ∀ i ∈ c s, i ≠ e := by
    rintro i hi rfl
    exact h.notMem hfree s hi
  have hbyte_w : t'.bytes w = t.bytes w &&& 0b10000000 ||| UInt8.ofNat jump := by
    rw [hbytes, update_self]
  have hbyte_e : t'.bytes e = 0b10000000 := by
    rw [hbytes, update_of_ne (hne w hwmem).symm, update_self]
  have hbyte : ∀ i, i ≠ w → i ≠ e → t'.bytes i = t.bytes i := by
    intro i hiw hie
    rw [hbytes, update_of_ne hiw, update_of_ne hie]
  have hchange : ListChange hash t t' c s (c s ++ [e]) := by
    refine h.extend hwmem hlt hfree hkey hslots hshift (by simp)
      (fun i hi => ?_) (fun _ => False.elim) (by rw [hdata, update_self])
      (fun i _ hie => by rw [hdata, update_of_ne hie]) hbyte_w hbyte_e fun i hiw _ => hbyte i hiw
    obtain ⟨l, hl⟩ := h.exists_cons (ne_nil_of_mem hwmem)
    rw [hl] at hi
    simpa using hi.symm
  obtain ⟨a, ha⟩ := getLast?_eq_some_iff.mp hw
  refine hchange.chained h nofun ?_ fun i hi hil => absurd (mem_append_left [e] hi) hil
  have hpath := h.path s
  have hnodup := hpath.nodup
  rw [ha] at hpath hnodup hne ⊢
  refine ⟨hpath.linked.concat (fun x hx => ?_) (next_of_setJump hslots hpos hlt he hbyte_w), ?_⟩
  · refine next_congr hslots (hbyte x ?_ (hne x (mem_append_left _ hx)))
    rintro rfl
    exact disjoint_of_nodup_append hnodup hx (mem_singleton_self x)
  · intro x hx
    obtain rfl : e = x := by simpa using hx
    refine next_of_jumpOf_eq_zero ?_
    rw [hbyte_e]
    decide

end Pruner.Runtime
