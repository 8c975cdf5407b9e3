import Pruner.Runtime.MapChains

/-!
# Cutting and moving lists

An erased entry is replaced by the last one of its list, which is then cut off.  To spare the
slot of a new head, the rest of the list that runs through it is moved entry by entry behind the
part before it; between two rounds the list is in two parts, and no entry is lost at any of them.

## Main definitions

* `Chained.dropHead`, `Chained.dropLast` — the lists after an entry is erased.
* `Sparing` — the lists between two rounds of the moving.
* `Roomy` — every slot of a table with the given content has an empty one in reach.
* `spareLoop_spec` — the moving of a list.
-/

namespace Pruner.Runtime

open Pruner.Lib List Function DenseMapNode

variable {c : ℕ → List ℕ} {κ ν : Type} {hash : κ → ℕ} {t t' : DenseMapNode κ ν} {s : ℕ}

/-- A list of one entry is emptied. -/
theorem Chained.dropHead (h : Chained hash none t c) (hc : c s = [s]) (hslots : t'.slots = t.slots)
    (hshift : t'.fibShift = t.fibShift) (hbytes : t'.bytes = update t.bytes s kEmptySlot)
    (hdata : t'.data = update t.data s none) :
    Chained hash none t' (update c s []) := by
  have hchange : ListChange hash t t' c s [] := by
    refine ⟨hslots, hshift, by simp, by simp, by simp, by simp, fun i hi _ => ?_, fun i hi _ => ?_⟩
    · obtain rfl : i = s := by simpa [hc] using hi
      rw [hdata, update_self]
    · have hne : i ≠ s := by simpa [hc] using hi
      rw [hdata, hbytes, update_of_ne hne, update_of_ne hne]
      exact ⟨rfl, rfl⟩
  refine hchange.chained h nofun path_nil fun i hi _ => ?_
  obtain rfl : i = s := by simpa [hc] using hi
  rw [DenseMapNode.isEmpty, hbytes, update_self]
  rfl

/-- The entry of `z` takes the place of that of `i`, and the jump from `w` to `z` is cut. -/
structure CutLast (t t' : DenseMapNode κ ν) (w z i : ℕ) : Prop where
  slots : t'.slots = t.slots
  shift : t'.fibShift = t.fibShift
  byte : ∀ x, x ≠ w → x ≠ z → t'.bytes x = t.bytes x
  byte_w : t'.bytes w = t.bytes w &&& 0b10000000 ||| UInt8.ofNat 0
  byte_z : t'.bytes z = kEmptySlot
  data : ∀ j, t'.data j = if j = z then none else if j = i then t.data z else t.data j

/-- **The last entry of a list takes the place of another one**, and is cut off. -/
theorem Chained.dropLast (h : Chained hash none t c) {a : List ℕ} {w z i : ℕ}
    (hc : c s = a ++ [w, z]) (hi : i ∈ c s) (hcut : CutLast t t' w z i) :
    Chained hash none t' (update c s (a ++ [w])) := by
  obtain ⟨hslots, hshift, hbyte, hbyte_w, hbyte_z, hdata⟩ := hcut
  have hmem : ∀ j, j ∈ c s ↔ j ∈ a ++ [w] ∨ j = z := by
    intro j
    simp [hc, or_assoc]
  have hpath : Path t.next (a ++ [w, z]) := hc ▸ h.path s
  have hnodup := hpath.nodup
  have hnez : ∀ j ∈ a ++ [w], j ≠ z := by
    rintro j hj rfl
    have hsplit : a ++ [w, j] = (a ++ [w]) ++ [j] := by simp
    rw [hsplit] at hnodup
    exact disjoint_of_nodup_append hnodup hj (mem_singleton_self j)
  have hnew : ∀ x ∈ a, x ≠ w := by
    rintro x hx rfl
    exact disjoint_of_nodup_append hnodup hx mem_cons_self
  have hwmem : w ∈ a ++ [w] := by simp
  have hchange : ListChange hash t t' c s (a ++ [w]) := by
    refine ⟨hslots, hshift, fun j hj => ?_, fun j hj => ?_, fun j hj => ?_, fun j hj => ?_,
      fun j hj hjl => ?_, fun j hj _ => ?_⟩
    · refine h.start s j ?_
      rw [hc]
      cases a with
      | nil | cons x a => simpa using hj
    · rw [hdata, if_neg (hnez j hj)]
      split_ifs with hji
      · exact (h.mem_iff s z).mp ((hmem z).mpr (.inr rfl))
      · exact (h.mem_iff s j).mp ((hmem j).mpr (.inl hj))
    · rw [← h.isHead_iff s j ((hmem j).mpr (.inl hj))]
      by_cases hjw : j = w
      · have hbit : t'.bytes j &&& 0b10000000 = t.bytes j &&& 0b10000000 := by
          rw [hjw, hbyte_w, headBit_or _ (by decide)]
        rw [isHead_of_headBit hbit]
      · rw [isHead_congr (hbyte j hjw (hnez j hj))]
    · exact .inl ((hmem j).mpr (.inl hj))
    · rw [hdata, if_pos (((hmem j).mp hj).resolve_left hjl)]
    · have hjz : j ≠ z := fun hjz => hj ((hmem j).mpr (.inr hjz))
      have hjw : j ≠ w := fun hjw => hj ((hmem j).mpr (.inl (hjw ▸ hwmem)))
      have hji : j ≠ i := fun hji => hj (hji ▸ hi)
      exact ⟨by rw [hdata, if_neg hjz, if_neg hji], hbyte j hjw hjz⟩
  refine hchange.chained h nofun (hpath.dropLast (fun x hx => ?_) (next_of_jumpOf_eq_zero ?_))
    fun j hj hjl => ?_
  · exact next_congr hslots (hbyte x (hnew x hx) (hnez x (mem_append_left _ hx)))
  · rw [hbyte_w, jumpOf_or _ (by decide)]
  · rw [DenseMapNode.isEmpty, ((hmem j).mp hj).resolve_left hjl, hbyte_z]
    rfl

/-! ## Sparing a slot -/

variable (isFirst : Bool) (r w jump e : ℕ) {M : κ → Option ν} {guarded : Option ℕ} {h target : ℕ}

/-- Between two rounds of the moving the list of `h` is in two parts: what is written, and what is
still to be read.  The slot that is spared is protected. -/
structure Sparing (hash : κ → ℕ) (guarded : Option ℕ) (t : DenseMapNode κ ν) (c : ℕ → List ℕ)
    (h : ℕ) (written rest : List ℕ) : Prop extends Listed hash t c where
  whole : c h = written ++ rest
  others : ∀ s, s ≠ h → Path t.next (c s)
  linked : Linked t.next written
  rest_path : Path t.next rest
  nodup : (written ++ rest).Nodup
  guard : ∀ i, guarded = some i → t.data i = none ∧ t.bytes i = kProtectedSlot
  isEmpty : ∀ i, t.data i = none → guarded ≠ some i → t.isEmpty i = true

/-- Every slot of a table with this content and shift has an empty one in reach, where the slot
`target` need not be empty. -/
def Roomy (hash : κ → ℕ) (shift target : ℕ) (M : κ → Option ν) : Prop :=
  ∀ (t : DenseMapNode κ ν) (c : ℕ → List ℕ) (w : ℕ), t.fibShift = shift → Listed hash t c →
    Holds t M → (∀ i, t.data i = none → i ≠ target → t.isEmpty i = true) → w ≤ t.slots →
    t.getNextEmpty w ≠ none

theorem spareStep_data (i : ℕ) : (t.spareStep isFirst r w jump e).data i =
      if i = r then none else if i = e then t.data r else t.data i := by
  cases isFirst <;>
    simp [spareStep, newTail, setProtected, setEmpty, setJump, setByte, setData, update_apply]

theorem spareStep_bytes {r w e : ℕ} (jump : ℕ) (hwr : w ≠ r) (hwe : w ≠ e) (i : ℕ) :
    (t.spareStep isFirst r w jump e).bytes i =
      if i = w then t.bytes w &&& 0b10000000 ||| UInt8.ofNat jump
      else if i = r then (if isFirst then kProtectedSlot else kEmptySlot)
      else if i = e then 0b10000000 else t.bytes i := by
  cases isFirst <;>
    simp [spareStep, newTail, setProtected, setEmpty, setJump, setByte, setData,
      update_apply, hwr, hwe]

theorem spareStep_slots : (t.spareStep isFirst r w jump e).slots = t.slots := by
  cases isFirst <;> rfl

theorem spareStep_fibShift : (t.spareStep isFirst r w jump e).fibShift = t.fibShift := by
  cases isFirst <;> rfl

theorem spareStep_size : (t.spareStep isFirst r w jump e).size = t.size := by
  cases isFirst <;> rfl

/-- **One round of the moving** keeps the content, and moves one entry from the part that is read
to the part that is written. -/
theorem Sparing.step {a rest : List ℕ} {w r jump e : ℕ} {isFirst : Bool}
    (hs : Sparing hash guarded t c h (a ++ [w]) (r :: rest)) (hholds : Holds t M)
    (he : t.getNextEmpty w = some (jump, e)) (hfirst : isFirst = true → r = target ∧ guarded = none)
    (hlater : isFirst = false → guarded = some target) (ht' : t' = t.spareStep isFirst r w jump e) :
    Holds t' M ∧ t'.next e = none ∧
      Sparing hash (some target) t' (update c h (a ++ [w] ++ [e] ++ rest)) h
        (a ++ [w] ++ [e]) rest := by
  obtain ⟨hpos, hlt, hreach, hempty⟩ := getNextEmpty_eq_some he
  have hfree := hholds.data_of_isEmpty hempty
  -- the slots of the round are different
  have hmem : ∀ i, i ∈ c h ↔ i ∈ a ++ [w] ∨ i = r ∨ i ∈ rest := by
    intro i
    rw [hs.whole, mem_append, mem_cons]
  have hne_e : ∀ i ∈ c h, i ≠ e := by
    rintro i hi rfl
    exact hs.notMem hfree h hi
  have hwmem : w ∈ a ++ [w] := by simp
  have hwc : w ∈ c h := (hmem w).mpr (.inl hwmem)
  have hrc : r ∈ c h := (hmem r).mpr (.inr (.inl rfl))
  have hnodup := hs.nodup
  rw [nodup_append'] at hnodup
  obtain ⟨hnodup_w, hnodup_r, hdisjoint⟩ := hnodup
  have hrw : ∀ i ∈ a ++ [w], i ≠ r := by
    rintro i hi rfl
    exact hdisjoint hi mem_cons_self
  have hrr : ∀ i ∈ rest, i ≠ r := by
    rintro i hi rfl
    exact (nodup_cons.mp hnodup_r).1 hi
  have hwr : ∀ i ∈ rest, i ≠ w := by
    rintro i hi rfl
    exact hdisjoint hwmem (mem_cons_of_mem r hi)
  have haw : ∀ i ∈ a, i ≠ w := by
    rintro i hi rfl
    exact disjoint_of_nodup_append hnodup_w hi (mem_singleton_self i)
  -- what the round changes
  have hslots : t'.slots = t.slots := by rw [ht', spareStep_slots]
  have hshift : t'.fibShift = t.fibShift := by rw [ht', spareStep_fibShift]
  have hdata := spareStep_data (t := t) isFirst r w jump e
  rw [← ht'] at hdata
  have hbytes := spareStep_bytes (t := t) isFirst jump (hrw w hwmem) (hne_e w hwc)
  rw [← ht'] at hbytes
  have hbyte : ∀ i, i ≠ w → i ≠ r → i ≠ e → t'.bytes i = t.bytes i := by
    intro i hiw hir hie
    rw [hbytes, if_neg hiw, if_neg hir, if_neg hie]
  have hbyte_w : t'.bytes w = t.bytes w &&& 0b10000000 ||| UInt8.ofNat jump := by
    rw [hbytes, if_pos rfl]
  have hbyte_e : t'.bytes e = 0b10000000 := by
    rw [hbytes, if_neg (hne_e w hwc).symm, if_neg (hne_e r hrc).symm, if_pos rfl]
  have hnext_e : t'.next e = none := by
    refine next_of_jumpOf_eq_zero ?_
    rw [hbyte_e]
    decide
  have hnext : ∀ i ∈ c h, i ≠ w → i ≠ r → t'.next i = t.next i := fun i hi hiw hir =>
    next_congr hslots (hbyte i hiw hir (hne_e i hi))
  have hholds' : Holds t' M := by
    refine hholds.relocate (fun i kv hi => ?_) (hreach ▸ Nat.and_le_right) (by simp [hfree])
      hslots hdata
    rw [hdata] at hi
    by_cases hir : i = r
    · rw [if_pos hir] at hi
      cases hi
    · rw [if_neg hir] at hi
      by_cases hiw : i = w
      · rw [hiw, hbyte_w, jumpOf_or _ hlt]
        exact hlt
      · by_cases hie : i = e
        · rw [hie, hbyte_e]
          decide
        · rw [if_neg hie] at hi
          rw [hbyte i hiw hir hie]
          exact hholds.used i kv hi
  have hchange : ListChange hash t t' c h (a ++ [w] ++ [e] ++ rest) := by
    have hnew : ∀ i, i ∈ a ++ [w] ++ [e] ++ rest ↔ (i ∈ c h ∧ i ≠ r) ∨ i = e := by
      intro i
      rw [hmem, mem_append, mem_append, mem_singleton]
      constructor
      · rintro ((hi | hi) | hi)
        · exact .inl ⟨.inl hi, hrw i hi⟩
        · exact .inr hi
        · exact .inl ⟨.inr (.inr hi), hrr i hi⟩
      · rintro (⟨hi | hi | hi, hir⟩ | hi)
        · exact .inl (.inl hi)
        · exact absurd hi hir
        · exact .inr hi
        · exact .inl (.inr hi)
    obtain ⟨kv, hkv, hkey⟩ := (hs.mem_iff h r).mp hrc
    refine hs.toListed.extend hwc hlt hfree hkey hslots hshift hnew (fun i hi => hs.start h i ?_)
      (fun i hir => ⟨hir ▸ hrc, by rw [hdata, if_pos hir]⟩)
      (by rw [hdata, if_neg (hne_e r hrc).symm, if_pos rfl, hkv])
      (fun i hir hie => by rw [hdata, if_neg hir, if_neg hie]) hbyte_w hbyte_e hbyte
    rw [hs.whole]
    cases a with
    | nil | cons x a => simpa using hi
  refine ⟨hholds', hnext_e, hchange.listed hs.toListed, update_self .., fun s hne => ?_,
    hs.linked.concat (fun x hx => ?_) (next_of_setJump hslots hpos hlt hreach hbyte_w), ?_, ?_,
    fun i hi => ?_, fun i hi hi' => ?_⟩
  · rw [update_of_ne hne]
    exact hchange.path_of_ne hs.toListed hne (hs.others s hne)
  · have hx' := mem_append_left [w] hx
    exact hnext x ((hmem x).mpr (.inl hx')) (haw x hx) (hrw x hx')
  · refine (Path.of_append (a := [r]) hs.rest_path).congr fun x hx => ?_
    exact hnext x ((hmem x).mpr (.inr (.inr hx))) (hwr x hx) (hrr x hx)
  · have he_notMem : e ∉ a ++ [w] ++ rest := by
      intro hmem_e
      rcases mem_append.mp hmem_e with hmem_e | hmem_e
      · exact hne_e e ((hmem e).mpr (.inl hmem_e)) rfl
      · exact hne_e e ((hmem e).mpr (.inr (.inr hmem_e))) rfl
    have hsub : (a ++ [w] ++ rest).Nodup := by
      refine nodup_append'.mpr ⟨hnodup_w, (nodup_cons.mp hnodup_r).2, fun x hx hx' => ?_⟩
      exact hdisjoint hx (mem_cons_of_mem r hx')
    have hperm : (a ++ [w] ++ [e] ++ rest).Perm (e :: (a ++ [w] ++ rest)) := by
      rw [append_assoc (a ++ [w])]
      exact perm_middle
    exact hperm.nodup_iff.mpr (nodup_cons.mpr ⟨he_notMem, hsub⟩)
  · cases hi
    cases isFirst with
    | true =>
      obtain ⟨rfl, -⟩ := hfirst rfl
      exact ⟨by rw [hdata, if_pos rfl], by rw [hbytes, if_neg (hrw w hwmem).symm, if_pos rfl]; rfl⟩
    | false =>
      obtain ⟨hnone, hprotected⟩ := hs.guard _ (hlater rfl)
      have hte : target ≠ e := by
        rintro rfl
        rw [DenseMapNode.isEmpty, hprotected] at hempty
        exact absurd hempty (by decide)
      have htc : target ∉ c h := hs.notMem hnone h
      have htr : target ≠ r := fun heq => htc (heq ▸ hrc)
      have htw : target ≠ w := fun heq => htc (heq ▸ hwc)
      exact ⟨by rw [hdata, if_neg htr, if_neg hte, hnone], by rw [hbyte _ htw htr hte, hprotected]⟩
  · have hiw : i ≠ w := by
      rintro rfl
      rw [hdata, if_neg (hrw i hwmem), if_neg (hne_e i hwc)] at hi
      exact hs.notMem hi h hwc
    rw [DenseMapNode.isEmpty]
    by_cases hir : i = r
    · cases isFirst with
      | true => exact absurd (by rw [hir, (hfirst rfl).1]) hi'
      | false => rw [hbytes, if_neg hiw, if_pos hir]; rfl
    · rw [hdata, if_neg hir] at hi
      by_cases hie : i = e
      · rw [if_pos hie] at hi
        exact absurd hrc (hs.notMem hi h)
      · rw [if_neg hie] at hi
        rw [hbyte i hiw hir hie]
        refine hs.isEmpty i hi ?_
        cases isFirst with
        | true => rw [(hfirst rfl).2]; exact (Option.some_ne_none i).symm
        | false => rw [hlater rfl]; exact hi'

end Pruner.Runtime
