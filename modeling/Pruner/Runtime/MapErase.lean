import Pruner.Runtime.MapTable

/-!
# Erasing, copying and iterating

The operations of the hash table that never rehash.  Erasing an entry keeps the lists; a copy
succeeds because no slot is protected between the operations; and the iterators meet the slots
with an entry from the front, so that a loop over them visits what the table lists.

## Main definitions

* `erase_spec` — the key is gone, and every other one is as before.
* `copyFrom_spec` — a copy holds the same map.
* `iterate_eq` — a loop from `begin` to `end` visits the entries.
-/

namespace Pruner.Runtime

open Pruner.Lib List Function DenseMapNode

variable {i : ℕ}

section

variable {κ ν : Type} {hash : κ → ℕ} {t t' : DenseMapNode κ ν} {c : ℕ → List ℕ} {M : κ → Option ν}

/-- The entries of a table whose last jump was cut. -/
theorem Holds.used_of_cut (hholds : Holds t M) {w z : ℕ} (hcut : CutLast t t' w z i)
    (hi : t.data i ≠ none) (j : ℕ) (kv : κ × ν) (hj : t'.data j = some kv) :
    jumpOf (t'.bytes j) < kNumJumpDists := by
  rw [hcut.data] at hj
  by_cases hjz : j = z
  · rw [if_pos hjz] at hj
    cases hj
  · by_cases hjw : j = w
    · rw [hjw, hcut.byte_w, jumpOf_or _ (by decide)]
      decide
    · rw [hcut.byte j hjw hjz]
      rw [if_neg hjz] at hj
      by_cases hji : j = i
      · obtain ⟨kv', hkv'⟩ := Option.ne_none_iff_exists'.mp hi
        exact hholds.used j kv' (hji ▸ hkv')
      · rw [if_neg hji] at hj
        exact hholds.used j kv hj

/-- The list of an entry, cut at the entry. -/
theorem Chained.split (hc : Chained hash none t c) {kv : κ × ν} (hi : t.data i = some kv) :
    ∃ a b, c (t.indexFromHash hash kv.1) = a ++ i :: b ∧ Path t.next (i :: b) := by
  obtain ⟨a, b, hab⟩ := append_of_mem (hc.mem_home hi)
  refine ⟨a, b, hab, ?_⟩
  have hpath := hc.path (t.indexFromHash hash kv.1)
  rw [hab] at hpath
  exact hpath.of_append

variable [DecidableEq κ] {k : κ} {v : ν}

section

variable (ht : Table hash t M)
include ht

/-- Without a key that was there the table is one smaller. -/
theorem Table.of_remove (hk : M k = some v) (hchained : ∃ c, Chained hash none t' c)
    (hholds : Holds t' (update M k none))
    (hsize : t'.size = t.size - 1) : Table hash t' (update M k none) := by
  refine ⟨hchained, hholds, ?_⟩
  have hlen := ht.holds.lists.length_erase hk hholds.lists
  have hsize' := ht.size_eq
  omega

/-- The last entry of a list takes the place of the erased one. -/
theorem Table.cut (hc : Chained hash none t c) {a : List ℕ} {w z : ℕ} (hi : t.data i = some (k, v))
    (hsplit : c (t.indexFromHash hash k) = a ++ [w, z]) (hcut : CutLast t t' w z i)
    (hsize : t'.size = t.size - 1) :
    Table hash t' (update M k none) := by
  have hmem : i ∈ c (t.indexFromHash hash k) := hc.mem_home hi
  have hsome : t.data i ≠ none := by
    rw [hi]
    nofun
  exact ht.of_remove (ht.holds.sound i (k, v) hi)
    ⟨_, hc.dropLast hsplit hmem hcut⟩
    (ht.holds.remove (ht.holds.used_of_cut hcut hsome) hi hcut.slots hcut.data) hsize

/-- **An erased entry** is replaced by the last one of its list. -/
theorem eraseNode_spec (hi : t.data i = some (k, v)) :
    ∃ t', t.eraseNode hash i = some t' ∧ t'.fibShift = t.fibShift ∧
      Table hash t' (update M k none) := by
  obtain ⟨c, hc⟩ := ht.chained
  have hmem : i ∈ c (t.indexFromHash hash k) := hc.mem_home hi
  have hpath := hc.path (t.indexFromHash hash k)
  have hlen := hc.toListed.length_le ht.holds hpath
  rw [eraseNode]
  cases hnext : t.next i with
  | none =>
    by_cases hhead : t.isHead i = true
    · -- the only entry of its list
      rw [if_pos hhead]
      have his : i = t.indexFromHash hash k := (hc.isHead_iff _ i hmem).mp hhead
      obtain ⟨l, hl⟩ := hc.exists_cons (ne_nil_of_mem hmem)
      have hsingle : c (t.indexFromHash hash k) = [t.indexFromHash hash k] := by
        cases l with
        | nil => exact hl
        | cons y l =>
          rw [hl] at hpath
          rw [← his, path_cons_cons, hnext] at hpath
          cases hpath.1
      refine ⟨_, rfl, rfl, ht.of_remove (ht.holds.sound i (k, v) hi) ?_ ?_ rfl⟩
      · rw [his]
        exact ⟨_, hc.dropHead hsingle rfl rfl rfl rfl⟩
      · refine ht.holds.remove (z := i) (fun j kv hj => ?_) hi rfl fun j => ?_
        · have hji : j ≠ i := by
            rintro rfl
            exact absurd hj (by simp [setEmpty, setData])
          have hdata : (t.setEmpty i).data j = t.data j := update_of_ne hji ..
          have hbyte : (t.setEmpty i).bytes j = t.bytes j := update_of_ne hji ..
          exact hbyte ▸ ht.holds.used j kv (hdata ▸ hj)
        · by_cases hji : j = i
          · rw [if_pos hji, hji]
            exact update_self ..
          · rw [if_neg hji, if_neg hji]
            exact update_of_ne hji ..
    · -- the last entry of its list
      rw [if_neg hhead]
      obtain ⟨a, w, b, hsplit, hprev⟩ := hc.findPrev_spec ht.holds hi hhead
      rw [hprev]
      rw [hsplit] at hpath
      have hb : b = [] := by
        have hrest := Path.of_append (a := [w]) hpath.of_append
        cases b with
        | nil => rfl
        | cons y b =>
          rw [path_cons_cons, hnext] at hrest
          cases hrest.1
      subst hb
      have hwi : w ≠ i := by
        rintro rfl
        have hnodup := hpath.of_append.nodup
        simp at hnodup
      refine ⟨_, rfl, rfl, ht.cut hc hi hsplit
        ⟨rfl, rfl, fun x hxw hxi => ?_, ?_, ?_, fun j => ?_⟩ rfl⟩
      · simp [setEmpty, setJump, setByte, setData, hxw, hxi]
      · simp [setEmpty, setJump, setByte, setData, hwi]
      · simp [setEmpty, setJump, setByte, setData]
      · by_cases hji : j = i <;>
          simp [setEmpty, setJump, setByte, setData, hji]
  | some j =>
    dsimp only
    obtain ⟨a, b, hsplit, hib⟩ := hc.split hi
    cases b with
    | nil =>
      rw [path_singleton, hnext] at hib
      cases hib
    | cons j' b =>
      obtain ⟨hij, hrest⟩ := path_cons_cons.mp hib
      obtain rfl : j' = j := Option.some.inj (hij.symm.trans hnext)
      rw [hsplit] at hlen
      obtain ⟨a', w, z, hlast, htwo⟩ : ∃ a' w z, i :: j' :: b = a' ++ [w, z] ∧
            lastTwo t.next (t.slots + 1) i j' = some (w, z) :=
        lastTwo_spec hrest (by simp at hlen; omega)
      have hsplit' : c (t.indexFromHash hash k) = (a ++ a') ++ [w, z] := by
        rw [hsplit, hlast, append_assoc]
      have hnodup := hib.nodup
      rw [hlast] at hnodup
      have hwz : w ≠ z := by
        rintro rfl
        exact absurd (nodup_append'.mp hnodup).2.1 (by simp)
      rw [htwo]
      refine ⟨_, rfl, rfl, ht.cut hc hi hsplit' ⟨rfl, rfl, fun x hxw hxz => ?_, ?_, ?_,
        fun x => ?_⟩ rfl⟩
      · simp [setEmpty, setJump, setByte, setData, hxw, hxz]
      · simp [setEmpty, setJump, setByte, setData, hwz]
      · simp [setEmpty, setJump, setByte, setData, hwz.symm]
      · simp [setEmpty, setJump, setByte, setData, update_apply]

/-- **Erasing a key** removes its entry, if there is one. -/
theorem erase_spec (key : κ) :
    ∃ t', t.erase hash (t.find hash key) = some t' ∧ t'.fibShift = t.fibShift ∧
      Table hash t' (update M key none) := by
  rw [find, erase]
  rcases search_spec ht key with ⟨i, v, hsearch, hi, -⟩ | ⟨hsearch, hM⟩
  · rw [hsearch, Option.getD_some, if_pos (ht.holds.bound i _ hi)]
    exact eraseNode_spec ht hi
  · rw [hsearch, Option.getD_none, if_neg (by omega)]
    refine ⟨t, rfl, rfl, ?_⟩
    rw [← hM, update_eq_self]
    exact ht

omit [DecidableEq κ] in
/-- **A copy** holds the same map. -/
theorem copyFrom_spec : t.copyFrom = some t := by
  obtain ⟨c, hc⟩ := ht.chained
  have hfree : ∀ i, t.isProtected i = false := by
    intro i
    cases hdata : t.data i with
    | none =>
      have hempty := hc.isEmpty_of_data hdata
      rw [DenseMapNode.isEmpty, beq_iff_eq] at hempty
      rw [isProtected, hempty]
      decide
    | some kv => exact (Bool.or_eq_false_iff.mp (ht.holds.not_isProtected hdata)).1
  have hdata : (fun i => if t.isEmpty i then none else t.data i) = t.data := by
    funext i
    by_cases hempty : t.isEmpty i = true
    · rw [if_pos hempty, ht.holds.data_of_isEmpty hempty]
    · rw [if_neg hempty]
  rw [copyFrom, if_neg (by simp [hfree]), hdata]

end

end

/-! ## Iteration -/

variable {κ ν : Type} {hash : κ → ℕ} {t : DenseMapNode κ ν} {M : κ → Option ν}

theorem seek_of_isEmpty (hi : i ≤ t.slots) (hempty : t.isEmpty i = true) :
    t.seek i = t.seek (i + 1) := by
  have hlen : t.slots + 1 - i = t.slots + 1 - (i + 1) + 1 := by omega
  rw [seek, hlen, range'_succ, find?_cons_of_neg (by simp [hempty])]
  rfl

theorem seek_of_not_isEmpty (hi : i ≤ t.slots) (hempty : t.isEmpty i = false) : t.seek i = i := by
  have hlen : t.slots + 1 - i = t.slots + 1 - (i + 1) + 1 := by omega
  rw [seek, hlen, range'_succ, find?_cons_of_pos (by simp [hempty])]
  rfl

/-- A loop from the first entry at a slot or after it. -/
theorem iterateFrom_seek (hempty : ∀ i, t.data i = none ↔ t.isEmpty i = true) (hslots : t.slots ≠ 0)
    (n : ℕ) {fuel : ℕ} (hn : t.slots + 1 - i = n) (hfuel : n ≤ fuel) :
    t.iterateFrom fuel (t.seek i) = (List.range' i n).filterMap t.data := by
  have hend : t.«end» = t.slots + 1 := if_neg hslots
  induction n generalizing i fuel with
  | zero =>
    have hseek : t.seek i = t.slots + 1 := by
      rw [seek, hn]
      rfl
    cases fuel with
    | zero => rfl
    | succ fuel =>
      rw [hseek, iterateFrom, hend, if_pos rfl]
      rfl
  | succ n ih =>
    have hi : i ≤ t.slots := by omega
    rw [range'_succ]
    cases hdata : t.data i with
    | none =>
      rw [seek_of_isEmpty hi ((hempty i).mp hdata), filterMap_cons_none hdata]
      exact ih (by omega) (by omega)
    | some kv =>
      have hne : t.isEmpty i = false := by
        rw [Bool.eq_false_iff]
        intro htrue
        rw [(hempty i).mpr htrue] at hdata
        cases hdata
      obtain ⟨fuel, rfl⟩ : ∃ m, fuel = m + 1 := ⟨fuel - 1, by omega⟩
      rw [seek_of_not_isEmpty hi hne, iterateFrom, if_neg (by omega), hdata,
        filterMap_cons_some hdata, incItr, ih (by omega) (by omega)]
      rfl

/-- **A loop over the iterators** visits the entries of the table. -/
theorem iterate_eq (ht : Table hash t M) : t.iterateFrom (t.slots + 1) t.begin = t.entries := by
  obtain ⟨c, hc⟩ := ht.chained
  have hslots : t.slots ≠ 0 := by
    have hge := hc.shape.le_slots
    omega
  have hempty : ∀ i, t.data i = none ↔ t.isEmpty i = true := fun i =>
    ⟨hc.isEmpty_of_data, ht.holds.data_of_isEmpty⟩
  rw [begin, if_neg hslots, ht.holds.entries_eq, range_eq_range']
  exact iterateFrom_seek hempty hslots (t.slots + 1) (by omega) le_rfl

end Pruner.Runtime
