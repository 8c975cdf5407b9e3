import Pruner.Runtime.MapMoves

/-!
# The operations of the hash table

An insertion into a table either sets the key in a table with the same lists invariant, or leaves
a table that still holds every entry, though its lists may be broken; it cannot fail that way
where there is room.  From the second kind of table the entries go one by one into a larger one.

## Main definitions

* `spareLoop_spec`, `tryInsert_spec` — an insertion without rehashing.
* `insertFuel_sound` — an insertion that succeeds sets the key.
* `insertFuel_total` — an insertion succeeds where some table has room.
* `insertFuel_enough`, `insertMaybeReHash_recursion` — the shift of a table is fuel enough, and
  rehashing is the recursion of the source.
* `Room`, `Within` — a size of the table that has room, and the tables up to that size.
-/

namespace Pruner.Runtime

open Pruner.Lib List Option Function DenseMapNode

variable {i shift : ℕ}

section

variable {κ ν : Type} {hash : κ → ℕ} {t t' : DenseMapNode κ ν} {c : ℕ → List ℕ}
  {M : κ → Option ν} {guarded : Option ℕ} {h target : ℕ}

/-- When nothing is left to read, the lists are whole again. -/
theorem Sparing.chained {written : List ℕ} {e : ℕ}
    (hs : Sparing hash guarded t c h (written ++ [e]) []) (he : t.next e = none) :
    Chained hash guarded t c := by
  refine ⟨hs.toListed, fun s => ?_, hs.isEmpty⟩
  by_cases hsh : s = h
  · rw [hsh, hs.whole, append_nil]
    refine ⟨hs.linked, fun x hx => ?_⟩
    obtain rfl : e = x := by simpa using hx
    exact he
  · exact hs.others s hsh

/-- **The moving of a list** loses no entry; when it comes to its end, the lists are whole and the
slot is spared. -/
theorem spareLoop_spec (fuel : ℕ) (isFirst : Bool) {a rest : List ℕ} {w r : ℕ}
    (hs : Sparing hash guarded t c h (a ++ [w]) (r :: rest)) (hholds : Holds t M)
    (hfuel : rest.length < fuel) (hfirst : isFirst = true → r = target ∧ guarded = none)
    (hlater : isFirst = false → guarded = some target) :
    ∃ t' done, DenseMapNode.spareLoop fuel t isFirst r w = some (t', done) ∧ Holds t' M ∧
      t'.slots = t.slots ∧ t'.fibShift = t.fibShift ∧ t'.size = t.size ∧
      (done = true → t'.data target = none ∧ ∃ c', Chained hash (some target) t' c') ∧
      (Roomy hash t.fibShift target M → done = true) := by
  induction fuel generalizing t c guarded a w r rest isFirst with
  | zero => omega
  | succ fuel ih =>
    rw [spareLoop]
    cases he : t.getNextEmpty w with
    | none =>
      refine ⟨t, false, rfl, hholds, rfl, rfl, rfl, nofun, fun hroomy => ?_⟩
      have hwmem : w ∈ c h := by
        rw [hs.whole]
        simp
      obtain ⟨kv, hkv, -⟩ := (hs.mem_iff h w).mp hwmem
      refine absurd he (hroomy t c w rfl hs.toListed hholds (fun i hi hne => ?_)
        (hholds.bound w kv hkv))
      refine hs.isEmpty i hi fun hg => hne ?_
      cases isFirst with
      | true => rw [(hfirst rfl).2] at hg; cases hg
      | false => rw [hlater rfl] at hg; exact (some.inj hg).symm
    | some found =>
      obtain ⟨jump, e⟩ := found
      dsimp only
      obtain ⟨hholds', hnext_e, hs'⟩ := hs.step hholds he hfirst hlater rfl
      -- the byte of `r` is read before it is overwritten
      have hre : r ≠ e := by
        rintro rfl
        have hfree := hholds.data_of_isEmpty (getNextEmpty_eq_some he).2.2.2
        refine hs.notMem hfree h ?_
        rw [hs.whole]
        simp
      have hmove : (t.spareStep isFirst r w jump e).moveToNext r
          ((t.newTail e (t.data r)).bytes r) = t.next r := by
        have hbyte : (t.newTail e (t.data r)).bytes r = t.bytes r := update_of_ne hre ..
        rw [hbyte, moveToNext, spareStep_slots]
        rfl
      rw [hmove]
      cases rest with
      | nil =>
        rw [path_singleton.mp hs.rest_path]
        exact ⟨_, true, rfl, hholds', spareStep_slots .., spareStep_fibShift ..,
          spareStep_size .., fun _ => ⟨(hs'.guard target rfl).1, _, hs'.chained hnext_e⟩,
          fun _ => rfl⟩
      | cons r' rest =>
        rw [(path_cons_cons.mp hs.rest_path).1]
        obtain ⟨t', done, hloop, hholds'', hslots, hshift, hsize, hdone, hroom⟩ :=
          ih false hs' hholds' (by simpa using hfuel) nofun fun _ => rfl
        rw [spareStep_slots] at hslots
        rw [spareStep_fibShift] at hshift hroom
        rw [spareStep_size] at hsize
        exact ⟨t', done, hloop, hholds'', hslots, hshift, hsize, hdone, hroom⟩

/-- An entry that is not a head comes after another one of its list. -/
theorem Chained.findPrev_spec (hc : Chained hash none t c) (hholds : Holds t M) {kv : κ × ν}
    (hi : t.data i = some kv) (hhead : t.isHead i ≠ true) :
    ∃ a w b, c (t.indexFromHash hash kv.1) = a ++ w :: i :: b ∧ t.findPrev hash i = some w := by
  have hmem := hc.mem_home hi
  have hne : i ≠ t.indexFromHash hash kv.1 := fun heq => hhead ((hc.isHead_iff _ i hmem).mpr heq)
  have hpath := hc.path (t.indexFromHash hash kv.1)
  have hlen := hc.toListed.length_le hholds hpath
  obtain ⟨l, hl⟩ := hc.exists_cons (ne_nil_of_mem hmem)
  obtain ⟨a, b, hab⟩ := append_of_mem hmem
  rcases eq_nil_or_concat a with rfl | ⟨a, w, rfl⟩
  · rw [hl] at hab
    exact absurd (cons.inj hab).1.symm hne
  · have hsplit : c (t.indexFromHash hash kv.1) = a ++ w :: i :: b := by
      rw [hab]
      simp
    refine ⟨a, w, b, hsplit, ?_⟩
    have hstart : (a ++ [w]).head? = some (t.indexFromHash hash kv.1) := by
      rw [hl] at hsplit
      cases a with
      | nil | cons x a => simpa using (cons.inj hsplit).1.symm
    rw [hsplit] at hpath hlen
    rw [findPrev, hi]
    refine prevOf_spec hpath ?_ hstart
    simp at hlen
    omega

variable [DecidableEq κ] {k : κ} {v : ν}

theorem Holds.newHead (hholds : Holds t M) (hk : M k = none) (hi : t.data i = none)
    (hbound : i ≤ t.slots) (n : ℕ) :
    Holds { t.newHead i (some (k, v)) with size := n } (update M k (some v)) := by
  refine hholds.insert (fun j kv hj => ?_) hk hi hbound rfl rfl
  by_cases hji : j = i
  · have hbyte : (t.newHead i (some (k, v))).bytes j = 0b00000000 := by
      rw [hji]
      exact update_self ..
    exact hbyte ▸ (by decide)
  · have hbyte : (t.newHead i (some (k, v))).bytes j = t.bytes j := update_of_ne hji ..
    have hdata : (t.newHead i (some (k, v))).data j = t.data j := update_of_ne hji ..
    exact hbyte ▸ hholds.used j kv (hdata ▸ hj)

theorem Holds.newTail (hholds : Holds t M) {w e jump : ℕ} (hk : M k = none)
    (he : t.getNextEmpty w = some (jump, e)) (hwe : w ≠ e) (n : ℕ) :
    Holds { (t.newTail e (some (k, v))).setJump w (UInt8.ofNat jump) with size := n }
      (update M k (some v)) := by
  obtain ⟨-, hlt, hreach, hempty⟩ := getNextEmpty_eq_some he
  have hfree := hholds.data_of_isEmpty hempty
  refine hholds.insert (fun j kv hj => ?_) hk hfree (hreach ▸ Nat.and_le_right) rfl rfl
  simp only [setJump, DenseMapNode.newTail, setByte, setData, update_apply, if_neg hwe] at hj ⊢
  by_cases hjw : j = w
  · rw [if_pos hjw, jumpOf_or _ hlt]
    exact hlt
  · rw [if_neg hjw]
    by_cases hje : j = e
    · rw [if_pos hje]
      decide
    · rw [if_neg hje] at hj ⊢
      exact hholds.used j kv hj

variable (ht : Table hash t M)
include ht

/-- A new key makes the table one larger. -/
theorem Table.of_insert (hk : M k = none)
    (hchained : ∃ c, Chained hash none t' c) (hholds : Holds t' (update M k (some v)))
    (hsize : t'.size = t.size + 1) : Table hash t' (update M k (some v)) := by
  refine ⟨hchained, hholds, ?_⟩
  rw [hsize, ht.size_eq, ht.holds.lists.length_insert hk hholds.lists]

theorem Table.setVal {w : ν}
    (hi : t.data i = some (k, w)) : Table hash (t.setVal i v) (update M k (some v)) := by
  obtain ⟨c, hc⟩ := ht.chained
  have hholds := ht.holds.setVal (v := v) hi
  have hM : M k = some w := ht.holds.sound i (k, w) hi
  have hdata : (t.setVal i v).data = update t.data i (some (k, v)) := by
    rw [DenseMapNode.setVal, hi]
    rfl
  -- the lists depend on the keys only
  have hkeys : ∀ j s, (∃ kv, (t.setVal i v).data j = some kv ∧ t.indexFromHash hash kv.1 = s) ↔
      ∃ kv, t.data j = some kv ∧ t.indexFromHash hash kv.1 = s := by
    intro j s
    rw [hdata]
    by_cases hji : j = i
    · subst hji
      simp [hi]
    · rw [update_of_ne hji]
  have hlisted : Listed hash (t.setVal i v) c :=
    ⟨⟨hc.shape.slots_eq, hc.shape.shift_pos, hc.shape.shift_le⟩, hc.start,
      fun s j => (hc.mem_iff s j).trans (hkeys j s).symm, hc.isHead_iff⟩
  refine ⟨⟨c, hlisted, hc.path, fun j hj _ => hc.isEmpty_of_data ?_⟩, hholds, ?_⟩
  · rw [hdata] at hj
    rcases update_eq_cases hj with ⟨-, ⟨⟩⟩ | ⟨-, hj⟩
    exact hj
  · rw [ht.holds.lists.length_set hM hholds.lists]
    exact ht.size_eq

variable [Inhabited ν]

theorem trySpareListHead_spec {key : κ} (hempty : t.isEmpty (t.indexFromHash hash key) ≠ true)
    (hhead : t.isHead (t.indexFromHash hash key) ≠ true) :
    ∃ t' found, t.trySpareListHead hash (t.indexFromHash hash key) key = some (t', found) ∧
      t'.slots = t.slots ∧ t'.fibShift = t.fibShift ∧
      (∀ i, found = some i → ∃ v, t'.data i = some (key, v) ∧
        Table hash t' (update M key (some v))) ∧
      (found = none → Holds t' M ∧ M key = none ∧
        ¬Roomy hash t.fibShift (t.indexFromHash hash key) M) := by
  obtain ⟨c, hc⟩ := ht.chained
  have hkey : M key = none := hc.eq_none_of_not_isHead ht.holds hhead
  obtain ⟨kv, hkv⟩ : ∃ kv, t.data (t.indexFromHash hash key) = some kv := by
    cases hdata : t.data (t.indexFromHash hash key) with
    | none => exact absurd (hc.isEmpty_of_data hdata) hempty
    | some kv => exact ⟨kv, rfl⟩
  obtain ⟨a, w, b, hsplit, hprev⟩ := hc.findPrev_spec ht.holds hkv hhead
  have hpath := hc.path (t.indexFromHash hash kv.1)
  have hlen := hc.toListed.length_le ht.holds hpath
  have hsplit' : c (t.indexFromHash hash kv.1) = (a ++ [w]) ++ t.indexFromHash hash key :: b := by
    rw [hsplit]
    simp
  rw [hsplit'] at hpath hlen
  have hs : Sparing hash none t c (t.indexFromHash hash kv.1) (a ++ [w])
      (t.indexFromHash hash key :: b) :=
    ⟨hc.toListed, hsplit', fun s _ => hc.path s, (isChain_append.mp hpath.linked).1,
      hpath.of_append, hpath.nodup, nofun, hc.isEmpty⟩
  obtain ⟨t', done, hloop, hholds, hslots, hshift, hsize, hdone, hroomy⟩ :=
    spareLoop_spec (t.slots + 1) true hs ht.holds (by simp at hlen; omega) (fun _ => ⟨rfl, rfl⟩)
      nofun
  rw [trySpareListHead, hprev]
  dsimp only
  rw [hloop]
  cases done with
  | false =>
    exact ⟨t', none, rfl, hslots, hshift, nofun, fun _ => ⟨hholds, hkey, fun hroom =>
      absurd (hroomy hroom) nofun⟩⟩
  | true =>
    obtain ⟨hnone, c', hc'⟩ := hdone rfl
    refine ⟨_, some _, rfl, hslots, hshift, fun i hi => ?_, nofun⟩
    cases hi
    refine ⟨default, update_self .., ht.of_insert hkey ?_ ?_ ?_⟩
    · have hhome : t'.indexFromHash hash key = t.indexFromHash hash key := by
        rw [indexFromHash, indexFromHash, hshift]
      exact ⟨_, hc'.newHead (fun i hi => (some.inj hi).symm) hnone (key, default)
        hhome rfl rfl rfl rfl⟩
    · refine hholds.newHead hkey hnone ?_ _
      rw [hslots]
      exact hc.shape.indexFromHash_le hash key
    · rw [← hsize]

/-- **An insertion without rehashing** sets the key, or fails and loses no entry.  It does not
fail where the table has room. -/
theorem tryInsert_spec (key : κ) :
    ∃ t' found, t.tryInsert hash key = some (t', found) ∧
      t'.slots = t.slots ∧ t'.fibShift = t.fibShift ∧
      (∀ i, found = some i → ∃ v, t'.data i = some (key, v) ∧
        Table hash t' (update M key (some v))) ∧
      (found = none → Holds t' M ∧ M key = none ∧
        (Roomy hash t.fibShift (t.indexFromHash hash key) M → t.isFull = true)) := by
  obtain ⟨c, hc⟩ := ht.chained
  have hslots : t.slots ≠ 0 := by
    have hge := hc.shape.le_slots
    omega
  rw [tryInsert, if_neg hslots]
  by_cases hempty : t.isEmpty (t.indexFromHash hash key) = true
  · rw [if_pos hempty]
    have hfree := ht.holds.data_of_isEmpty hempty
    have hkey : M key = none := hc.eq_none_of_not_isHead ht.holds
      (by rw [not_isHead_of_isEmpty hempty]; nofun)
    refine ⟨_, some _, rfl, rfl, rfl, fun i hi => ?_, nofun⟩
    cases hi
    refine ⟨default, update_self .., ht.of_insert hkey ?_ ?_ rfl⟩
    · exact ⟨_, hc.newHead nofun hfree (key, default) rfl rfl rfl rfl rfl⟩
    · exact ht.holds.newHead hkey hfree (hc.shape.indexFromHash_le hash key) _
  · rw [if_neg hempty]
    by_cases hhead : t.isHead (t.indexFromHash hash key) = true
    · rw [if_neg (by simpa using hhead)]
      rcases hc.scan_spec ht.holds hhead with ⟨i, v, hi, hscan⟩ | ⟨hkey, tail, htail, hscan⟩
      · rw [hscan]
        refine ⟨t, some i, rfl, rfl, rfl, fun j hj => ?_, nofun⟩
        cases hj
        refine ⟨v, hi, ?_⟩
        have hM : M key = some v := ht.holds.sound i (key, v) hi
        rw [← hM, update_eq_self]
        exact ht
      · rw [hscan]
        dsimp only
        by_cases hfull : t.isFull = true
        · rw [if_pos hfull]
          exact ⟨t, none, rfl, rfl, rfl, nofun, fun _ => ⟨ht.holds, hkey, fun _ => hfull⟩⟩
        · rw [if_neg hfull]
          have hmem := mem_of_getLast? htail
          obtain ⟨kv, hkv, -⟩ := (hc.mem_iff _ tail).mp hmem
          cases he : t.getNextEmpty tail with
          | none =>
            refine ⟨t, none, rfl, rfl, rfl, nofun, fun _ => ⟨ht.holds, hkey, fun hroomy => ?_⟩⟩
            exact absurd he (hroomy t c tail rfl hc.toListed ht.holds
              (fun i hi _ => hc.isEmpty_of_data hi) (ht.holds.bound tail kv hkv))
          | some found =>
            obtain ⟨jump, e⟩ := found
            have hne : tail ≠ e := by
              rintro rfl
              have hfree := ht.holds.data_of_isEmpty (getNextEmpty_eq_some he).2.2.2
              rw [hkv] at hfree
              cases hfree
            refine ⟨_, some e, rfl, rfl, rfl, fun i hi => ?_, nofun⟩
            cases hi
            refine ⟨default, update_self .., ht.of_insert hkey ?_ ?_ rfl⟩
            · refine ⟨_, hc.newTail ht.holds htail he (key, default) rfl rfl rfl ?_ rfl⟩
              have hbyte : (t.newTail e (some (key, default))).bytes tail = t.bytes tail :=
                update_of_ne hne ..
              simp only [setJump, hbyte]
              rfl
            · exact ht.holds.newTail hkey he hne _
    · rw [if_pos (by simpa using hhead)]
      by_cases hfull : t.isFull = true
      · rw [if_pos hfull]
        exact ⟨t, none, rfl, rfl, rfl, nofun, fun _ =>
          ⟨ht.holds, hc.eq_none_of_not_isHead ht.holds hhead, fun _ => hfull⟩⟩
      · rw [if_neg hfull]
        obtain ⟨t', found, htry, hslots, hshift, hfound, hnone⟩ :=
          trySpareListHead_spec ht hempty hhead
        refine ⟨t', found, htry, hslots, hshift, hfound, fun heq => ?_⟩
        obtain ⟨hholds, hkey, hroomy⟩ := hnone heq
        exact ⟨hholds, hkey, fun hroom => absurd hroom hroomy⟩

end

/-! ## Rehashing -/

variable {κ ν : Type} {hash : κ → ℕ} {t t' : DenseMapNode κ ν} {M : κ → Option ν}

theorem table_empty {nSlots : ℕ} (hn : nSlots = 2 ^ (64 - shift)) (hpos : 1 ≤ shift)
    (hle : shift ≤ 61) :
    ∃ p : DenseMapNode κ ν, DenseMapNode.empty shift nSlots = some p ∧ p.fibShift = shift ∧
      Table hash p fun _ => none := by
  have hmono : 2 ^ 3 ≤ 2 ^ (64 - shift) := Nat.pow_le_pow_right (by omega) (by omega)
  have hgt : ¬nSlots ≤ kMaxSize := by
    rw [kMaxSize]
    omega
  rw [empty, if_neg hgt]
  refine ⟨_, rfl, rfl, ⟨fun _ => [], ⟨⟨?_, hpos, hle⟩, by simp, by simp, by simp⟩,
    fun _ => path_nil, fun _ _ _ => rfl⟩, ⟨nofun, nofun, nofun, nofun, nofun⟩, ?_⟩
  · dsimp only
    omega
  · symm
    rw [length_eq_zero_iff, entries, filterMap_eq_nil_iff]
    intro i _
    split <;> rfl

/-- The table of twice the size: there is one unless its number of slots is `2 ^ 64`. -/
theorem empty_double (hash : κ → ℕ) (hshape : Shape t) :
    (t.fibShift = 1 ∧ DenseMapNode.empty (κ := κ) (ν := ν) (t.fibShift - 1)
      ((t.slots * 2 + 2) % 2 ^ 64) = none) ∨
    (2 ≤ t.fibShift ∧ ∃ p : DenseMapNode κ ν, DenseMapNode.empty (t.fibShift - 1)
      ((t.slots * 2 + 2) % 2 ^ 64) = some p ∧ p.fibShift = t.fibShift - 1 ∧
      Table hash p fun _ => none) := by
  obtain ⟨hslots, hpos, hle⟩ := hshape
  have hdouble : t.slots * 2 + 2 = 2 ^ (64 - t.fibShift + 1) := by
    omega
  by_cases hone : t.fibShift = 1
  · refine .inl ⟨hone, ?_⟩
    rw [hdouble, hone]
    rfl
  · refine .inr ⟨by omega, table_empty ?_ (by omega) (by omega)⟩
    have hexp : 64 - t.fibShift + 1 = 64 - (t.fibShift - 1) := by omega
    rw [hdouble, hexp]
    exact Nat.mod_eq_of_lt (Nat.pow_lt_pow_right (by omega) (by omega))

/-- Every table of the shift, with keys of `K`, has room for another one. -/
def Room (hash : κ → ℕ) (ν : Type) (shift : ℕ) (K : κ → Prop) : Prop :=
  ∀ (t : DenseMapNode κ ν) (M : κ → Option ν) (key : κ), t.fibShift = shift → Table hash t M →
    (∀ k v, M k = some v → K k) → K key → M key = none →
    Roomy hash shift (t.indexFromHash hash key) M ∧ t.isFull = false

/-- A table with keys of `K` that is not larger than one that has room. -/
structure Within (hash : κ → ℕ) (shift bound : ℕ) (K : κ → Prop) (t : DenseMapNode κ ν) : Prop where
  table : ∃ M, Table hash t M ∧ ∀ k v, M k = some v → K k
  le_shift : shift ≤ t.fibShift
  shift_le : t.fibShift ≤ bound

variable {bound : ℕ} {K : κ → Prop}

theorem Within.mono {bound' : ℕ} (h : Within hash shift bound K t)
    (hle : bound ≤ bound') : Within hash shift bound' K t :=
  ⟨h.table, h.le_shift, h.shift_le.trans hle⟩

variable [DecidableEq κ]

/-- What one insertion does, a run of insertions does with every entry. -/
theorem foldlM_table {f : DenseMapNode κ ν → κ × ν → Option (DenseMapNode κ ν)}
    (hf : ∀ (t t' : DenseMapNode κ ν) (N : κ → Option ν) (kv : κ × ν), Table hash t N →
      f t kv = some t' → Table hash t' (update N kv.1 (some kv.2)))
    (l : List (κ × ν)) {N : κ → Option ν} (ht : Table hash t N) (hrun : l.foldlM f t = some t') :
    Table hash t' (setAll N l) := by
  refine foldlM_run (p := []) (fun pre m => Table hash m (setAll N pre)) ?_ ht hrun
  intro pre kv _ m m' hm hstep
  rw [setAll, foldl_concat]
  exact hf m m' (setAll N pre) kv hm hstep

/-- The entries of a table and a new one give the map with the new key. -/
theorem setAll_entries (hholds : Holds t M) {k : κ} {v : ν} (hk : M k = none) :
    setAll (update (fun _ => none) k (some v)) t.entries = update M k (some v) := by
  rw [hholds.lists.setAll_eq]
  funext k'
  by_cases hkk : k' = k
  · rw [hkk, update_self, update_self, hk, none_or]
  · rw [update_of_ne hkk, update_of_ne hkk, or_none]

variable [Inhabited ν] {kv : κ × ν}

/-- **An insertion that succeeds sets the key**, whether the table is rehashed or not. -/
theorem insertFuel_sound (fuel : ℕ) (ht : Table hash t M)
    (hins : DenseMapNode.insertFuel hash fuel t kv = some t') :
    Table hash t' (update M kv.1 (some kv.2)) := by
  induction fuel generalizing t t' M kv with
  | zero => cases hins
  | succ fuel ih =>
    obtain ⟨t₁, found, htry, hslots, hshift, hfound, hnone⟩ := tryInsert_spec ht kv.1
    rw [insertFuel, htry] at hins
    cases found with
    | some i =>
      obtain ⟨v, hi, ht₁⟩ := hfound i rfl
      cases hins
      have hset := ht₁.setVal (v := kv.2) hi
      rwa [update_idem] at hset
    | none =>
      obtain ⟨hholds, hkey, -⟩ := hnone rfl
      obtain ⟨c, hc⟩ := ht.chained
      dsimp only at hins
      by_cases hsmall : t₁.slots ≤ kMaxSize
      · rw [if_pos hsmall] at hins
        cases hins
      · rw [if_neg hsmall, hslots, hshift] at hins
        rcases empty_double hash hc.shape with ⟨-, hempty⟩ | ⟨-, p, hempty, -, hp⟩
        · rw [hempty] at hins
          cases hins
        · rw [hempty, some_bind_eq] at hins
          obtain ⟨p₁, hp₁, hrun⟩ := bind_eq_some_iff.mp hins
          have hall := foldlM_table (fun t t' N kv htab hrun => ih htab hrun) t₁.entries
            (ih hp hp₁) hrun
          rwa [setAll_entries hholds hkey] at hall

/-- **The shift of a table is fuel enough**: more of it changes nothing. -/
theorem insertFuel_enough (fuel : ℕ) (ht : Table hash t M) (hfuel : t.fibShift ≤ fuel) :
    DenseMapNode.insertFuel hash (fuel + 1) t kv = DenseMapNode.insertFuel hash fuel t kv ∧
      ∀ t', DenseMapNode.insertFuel hash fuel t kv = some t' → t'.fibShift ≤ t.fibShift := by
  induction fuel generalizing t M kv with
  | zero =>
    obtain ⟨c, hc⟩ := ht.chained
    have hpos := hc.shape.shift_pos
    omega
  | succ fuel ih =>
    obtain ⟨t₁, found, htry, hslots, hshift, hfound, hnone⟩ := tryInsert_spec ht kv.1
    rw [insertFuel, insertFuel, htry]
    cases found with
    | some i =>
      refine ⟨rfl, fun t' ht' => ?_⟩
      cases ht'
      exact hshift.le
    | none =>
      obtain ⟨c, hc⟩ := ht.chained
      dsimp only
      by_cases hsmall : t₁.slots ≤ kMaxSize
      · rw [if_pos hsmall, if_pos hsmall]
        exact ⟨rfl, nofun⟩
      · rw [if_neg hsmall, if_neg hsmall, hslots, hshift]
        rcases empty_double hash hc.shape with ⟨-, hempty⟩ | ⟨hpos, p, hempty, hpshift, hp⟩
        · rw [hempty]
          exact ⟨rfl, nofun⟩
        · simp only [hempty, some_bind_eq, (ih hp (by omega)).1]
          -- the tables of the loop keep their lists and do not get smaller
          let Q := fun p : DenseMapNode κ ν =>
            (∃ N, Table hash p N) ∧ p.fibShift ≤ t.fibShift - 1
          have hstep : ∀ (kv : κ × ν) (p p' : DenseMapNode κ ν), Q p →
              insertFuel hash fuel p kv = some p' → Q p' := by
            rintro kv p p' ⟨⟨N, hN⟩, hle⟩ hins
            exact ⟨⟨_, insertFuel_sound fuel hN hins⟩, ((ih hN (by omega)).2 p' hins).trans hle⟩
          have hQ : Q p := ⟨⟨_, hp⟩, hpshift.le⟩
          cases hins : insertFuel hash fuel p kv with
          | none => exact ⟨rfl, nofun⟩
          | some p₁ =>
            have hQ₁ := hstep kv p p₁ hQ hins
            refine ⟨foldlM_congr_of_invariant Q (fun kv p hp => ?_) hstep _ hQ₁, fun t' hrun => ?_⟩
            · obtain ⟨⟨N, hN⟩, hle⟩ := hp
              exact (ih hN (by omega)).1
            · have hQ' := foldlM_invariant Q (fun kv _ p p' hp => hstep kv p p' hp) hQ₁ hrun
              omega

theorem insertFuel_eq {fuel : ℕ} (ht : Table hash t M) (hfuel : t.fibShift ≤ fuel) :
    DenseMapNode.insertFuel hash fuel t kv = t.insertMaybeReHash hash kv := by
  induction fuel, hfuel using Nat.le_induction with
  | base => rfl
  | succ fuel hle ih => exact (insertFuel_enough fuel ht hle).1.trans ih

/-- **Rehashing** is the recursion of the source, to any depth.  Where `TryInsert` finds no place
for the key, the key and then every entry of the table go into the table of twice the size, each by
an insertion that may rehash again, and there is no larger table than the one of `2 ^ 63` slots.
The result is never smaller than the table inserted into. -/
theorem insertMaybeReHash_recursion (ht : Table hash t M) :
    (t.insertMaybeReHash hash kv =
      match t.tryInsert hash kv.1 with
      | none => none
      | some (t₁, some i) => some (t₁.setVal i kv.2)
      | some (t₁, none) =>
        if t₁.slots ≤ kMaxSize then none
        else do
          let p ← empty (t₁.fibShift - 1) ((t₁.slots * 2 + 2) % 2 ^ 64)
          let p ← p.insertMaybeReHash hash kv
          t₁.entries.foldlM (DenseMapNode.insertMaybeReHash hash) p) ∧
    ∀ t', t.insertMaybeReHash hash kv = some t' → t'.fibShift ≤ t.fibShift := by
  refine ⟨?_, (insertFuel_enough t.fibShift ht le_rfl).2⟩
  obtain ⟨c, hc⟩ := ht.chained
  obtain ⟨n, hn⟩ := Nat.exists_eq_add_of_le' hc.shape.shift_pos
  obtain ⟨t₁, found, htry, hslots, hshift, -, -⟩ := tryInsert_spec ht kv.1
  conv_lhs => rw [insertMaybeReHash, hn, insertFuel]
  rw [htry]
  cases found with
  | some i => rfl
  | none =>
    dsimp only
    by_cases hsmall : t₁.slots ≤ kMaxSize
    · rw [if_pos hsmall, if_pos hsmall]
    · rw [if_neg hsmall, if_neg hsmall, hslots, hshift]
      rcases empty_double hash hc.shape with ⟨-, hempty⟩ | ⟨-, p, hempty, hpshift, hp⟩
      · rw [hempty]
        rfl
      · simp only [hempty, some_bind_eq, insertFuel_eq hp (by omega : p.fibShift ≤ n)]
        -- the tables of the loop keep their lists, and `n` is fuel enough for them
        let Q := fun p : DenseMapNode κ ν => (∃ N, Table hash p N) ∧ p.fibShift ≤ n
        have heq : ∀ (kv : κ × ν) (p : DenseMapNode κ ν), Q p →
            insertFuel hash n p kv = p.insertMaybeReHash hash kv :=
          fun _ _ ⟨⟨_, hN⟩, hle⟩ => insertFuel_eq hN hle
        have hstep : ∀ (kv : κ × ν) (p p' : DenseMapNode κ ν), Q p →
            p.insertMaybeReHash hash kv = some p' → Q p' := by
          rintro kv p p' ⟨⟨N, hN⟩, hle⟩ hins
          exact ⟨⟨_, insertFuel_sound _ hN hins⟩,
            ((insertFuel_enough _ hN le_rfl).2 p' hins).trans hle⟩
        have hQ : Q p := ⟨⟨_, hp⟩, by omega⟩
        cases hins : p.insertMaybeReHash hash kv with
        | none => rfl
        | some p₁ =>
          exact foldlM_congr_of_invariant Q heq hstep _ (hstep kv p p₁ hQ hins)

/-- Seven keys in a table of eight slots. -/
def sevenOfEight : Option (DenseMapNode ℕ ℕ) := do
  let t ← DenseMapNode.empty 61 8
  ((range 7).map fun k => (k, k * k)).foldlM (DenseMapNode.insertMaybeReHash id) t

/-- The eighth key finds no place there, and moves all of them to a table of sixteen slots. -/
theorem insertMaybeReHash_recursion_eight : ∃ t t₁ t' : DenseMapNode ℕ ℕ,
    sevenOfEight = some t ∧ t.tryInsert id 7 = some (t₁, none) ∧
      (do
        let p ← DenseMapNode.empty 60 16
        let p ← p.insertMaybeReHash id (7, 49)
        t₁.entries.foldlM (DenseMapNode.insertMaybeReHash id) p) = some t' ∧
      t.insertMaybeReHash id (7, 49) = some t' ∧ t'.slots = 15 ∧ t'.size = 8 := by
  obtain ⟨e, hempty, hshift, he⟩ : ∃ t : DenseMapNode ℕ ℕ, DenseMapNode.empty 61 8 = some t ∧
    t.fibShift = 61 ∧ Table id t fun _ => none := table_empty rfl (by decide) (by decide)
  have hrun : (sevenOfEight.bind fun t => (t.tryInsert id 7).bind fun (t₁, found) =>
      (t.insertMaybeReHash id (7, 49)).map fun t' =>
        (found, t₁.slots, t₁.fibShift, t'.slots, t'.size)) = some (none, 7, 61, 15, 8) := by
    decide +kernel
  simp only [bind_eq_some_iff, map_eq_some_iff, Prod.mk.injEq] at hrun
  obtain ⟨t, ht, ⟨t₁, found⟩, htry, t', hins, rfl, hslots₁, hshift₁, hslots, hsize⟩ := hrun
  have hfill := ht
  rw [sevenOfEight, hempty, some_bind_eq] at hfill
  have htable := foldlM_table (fun t t' N kv htab hins => insertFuel_sound _ htab hins) _ he hfill
  have hrec := (@insertMaybeReHash_recursion _ _ _ _ _ _ _ (7, 49) htable).1
  dsimp only at hslots₁ hshift₁
  simp only [htry, hslots₁, hshift₁] at hrec
  refine ⟨t, t₁, t', ht, htry, ?_, hins, hslots, hsize⟩
  rw [← hins, hrec]
  rfl

/-- **An insertion succeeds** where some size of the table has room: the table never grows beyond
that size. -/
theorem insertFuel_total (fuel : ℕ) (hshift : 1 ≤ shift)
    (hroom : Room hash ν shift K) (hkv : K kv.1) (ht : Within hash shift bound K t)
    (hfuel : t.fibShift < fuel + shift) :
    ∃ t', DenseMapNode.insertFuel hash fuel t kv = some t' ∧ Within hash shift bound K t' := by
  induction fuel generalizing t bound kv with
  | zero =>
    have hle := ht.le_shift
    omega
  | succ fuel ih =>
    obtain ⟨⟨M, htab, hM⟩, hle, hbound⟩ := ht
    -- the table that an insertion gives has the keys it should
    have hwithin : ∀ t', insertFuel hash (fuel + 1) t kv = some t' →
        ∃ M, Table hash t' M ∧ ∀ k v, M k = some v → K k := by
      intro t' hins
      refine ⟨_, insertFuel_sound (fuel + 1) htab hins, fun k v hk => ?_⟩
      by_cases hkk : k = kv.1
      · rwa [hkk]
      · rw [update_of_ne hkk] at hk
        exact hM k v hk
    obtain ⟨t₁, found, htry, hslots, hshift₁, hfound, hnone⟩ := tryInsert_spec htab kv.1
    cases found with
    | some i =>
      have hins : insertFuel hash (fuel + 1) t kv = some (t₁.setVal i kv.2) := by
        rw [insertFuel, htry]
      refine ⟨_, hins, hwithin _ hins, ?_, ?_⟩
      · change shift ≤ t₁.fibShift
        omega
      · change t₁.fibShift ≤ bound
        omega
    | none =>
      obtain ⟨hholds, hkey, hroomy⟩ := hnone rfl
      obtain ⟨c, hc⟩ := htab.chained
      have hlt : shift < t.fibShift := by
        refine lt_of_le_of_ne hle fun heq => ?_
        obtain ⟨hroomy', hfull⟩ := hroom t M kv.1 heq.symm htab hM hkv hkey
        rw [hroomy (heq ▸ hroomy')] at hfull
        cases hfull
      have hgt : ¬t₁.slots ≤ kMaxSize := by
        have hge := hc.shape.le_slots
        rw [kMaxSize]
        omega
      obtain ⟨hone, -⟩ | ⟨-, p, hempty, hpshift, hp⟩ := empty_double hash hc.shape
      · omega
      · have hp' : Within hash shift (t.fibShift - 1) K p :=
          ⟨⟨_, hp, nofun⟩, by omega, by omega⟩
        obtain ⟨p₁, hp₁, hwithin₁⟩ := ih hkv hp' (by omega)
        obtain ⟨p₂, hp₂, hwithin₂⟩ := exists_foldlM_invariant
          (f := insertFuel hash fuel) (Within hash shift (t.fibShift - 1) K)
          (fun kv' hmem p' hp'' => ih
            (hM kv'.1 kv'.2 ((hholds.lists.mem_iff kv').mp hmem)) hp''
            (by have := hp''.shift_le; omega)) hwithin₁
        refine ⟨p₂, ?_, hwithin₂.mono (by omega)⟩
        rw [insertFuel, htry]
        dsimp only
        rw [if_neg hgt, hslots, hshift₁, hempty, some_bind_eq]
        exact bind_eq_some_iff.mpr ⟨p₁, hp₁, hp₂⟩

end Pruner.Runtime
