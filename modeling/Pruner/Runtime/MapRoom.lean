import Mathlib.Data.List.GetD
import Mathlib.Order.Interval.Finset.Nat
import Pruner.Runtime.MapRefine

/-!
# Room for the keys of a program

An insertion into the hash table needs an empty slot at one of 125 distances from the last entry
of a list.  Where there is none the table is doubled, and for keys whose hashes keep all these
slots occupied at every size this goes on until the number of slots overflows.  A program does
not come to that if its keys are spread enough at some size of the table, as at most 124 keys
always are: the keys that share a home slot with another one are then fewer than the slots in
reach that are no home slot.

## Main definitions

* `homes`, `reach`, `Spread` — the home slots of the keys, and the slots in reach of another one.
* `room_of_spread`, `spread_of_card_le` — what makes room.
* `runMap_refines` — the runtime map is a finite map.
* `crowdHash`, `crowdOps` — a program that no table has room for.
-/

namespace Pruner.Runtime

open Pruner.Lib List

section

variable {κ ν : Type} {hash : κ → ℕ} {shift : ℕ} {K : Finset κ}

/-- The home slots of the keys. -/
def homes (hash : κ → ℕ) (shift : ℕ) (K : Finset κ) : Finset ℕ :=
  K.image fun k => fibHash (hash k) shift

/-- The slots that a jump leads to. -/
def reach (shift w : ℕ) : Finset ℕ :=
  (Finset.Ico 1 kNumJumpDists).image fun jump => (w + probe jump) % 2 ^ (64 - shift)

/-- At the size of the table with the given shift, the keys fill it to at most 0.99, and from
every slot a jump leads to more slots that are no home slots than there are keys besides one for
each home slot. -/
def SpreadAt (hash : κ → ℕ) (shift : ℕ) (K : Finset κ) : Prop :=
  100 * K.card ≤ 99 * 2 ^ (64 - shift) ∧
    ∀ w < 2 ^ (64 - shift), K.card - (homes hash shift K).card <
      (reach shift w \ homes hash shift K).card

/-- The keys are spread at some size of the table, from eight slots to `2 ^ 63`. -/
def Spread (hash : κ → ℕ) (K : Finset κ) : Prop :=
  ∃ shift, 1 ≤ shift ∧ shift ≤ 61 ∧ SpreadAt hash shift K

theorem land_slots {t : DenseMapNode κ ν} (h : Shape t) (i : ℕ) :
    i &&& t.slots = i % 2 ^ (64 - t.fibShift) := by
  have hslots : t.slots = 2 ^ (64 - t.fibShift) - 1 := by
    have heq := h.slots_eq
    omega
  rw [hslots, Nat.and_two_pow_sub_one_eq_mod]

/-- For each home slot there is a key, which is that of the slot where its entry is at home. -/
theorem exists_representative {t : DenseMapNode κ ν} (hshift : t.fibShift = shift)
    (hK : ∀ i kv, t.data i = some kv → kv.1 ∈ K) {s : ℕ} (hs : s ∈ homes hash shift K) :
    ∃ k ∈ K, fibHash (hash k) shift = s ∧
      ∀ kv, t.data s = some kv → t.indexFromHash hash kv.1 = s → k = kv.1 := by
  by_cases hhome : ∃ kv, t.data s = some kv ∧ t.indexFromHash hash kv.1 = s
  · obtain ⟨kv, hkv, hs⟩ := hhome
    rw [DenseMapNode.indexFromHash, hshift] at hs
    refine ⟨kv.1, hK s kv hkv, hs, fun kv' hkv' _ => ?_⟩
    rw [hkv] at hkv'
    cases hkv'
    rfl
  · obtain ⟨k, hk, hks⟩ := Finset.mem_image.mp hs
    exact ⟨k, hk, hks, fun kv hkv hs => absurd ⟨kv, hkv, hs⟩ hhome⟩

variable [DecidableEq κ]

/-- **Spread keys leave an empty slot in reach.**  Otherwise every slot in reach that is no home
slot holds an entry that is not at home, and its key is none of those chosen for the home slots:
there would be too many of them. -/
theorem roomy_of_spread (hspread : SpreadAt hash shift K) {M : κ → Option ν}
    (hM : ∀ k v, M k = some v → k ∈ K) {key : κ} (hkey : key ∈ K) :
    Roomy hash shift (fibHash (hash key) shift) M := by
  intro t c w hshift hlisted hholds hempty hw hnone
  have hK : ∀ i kv, t.data i = some kv → kv.1 ∈ K := fun i kv hi =>
    hM kv.1 kv.2 (hholds.sound i kv hi)
  have : Nonempty κ := ⟨key⟩
  have hex : ∀ s ∈ homes hash shift K, ∃ k, k ∈ K ∧ fibHash (hash k) shift = s ∧
      ∀ kv, t.data s = some kv → t.indexFromHash hash kv.1 = s → k = kv.1 := fun s hs =>
    exists_representative hshift hK hs
  choose! rep hrepK hrephome hrepdata using hex
  have hrep_inj : Set.InjOn rep (homes hash shift K) := by
    intro s hs s' hs' heq
    rw [← hrephome s hs, heq, hrephome s' hs']
  have hsub : (homes hash shift K).image rep ⊆ K := by
    intro k hk
    obtain ⟨s, hs, rfl⟩ := Finset.mem_image.mp hk
    exact hrepK s hs
  have hentry : ∀ x ∈ reach shift w \ homes hash shift K,
      ∃ k, k ∈ K \ (homes hash shift K).image rep ∧ ∃ v, t.data x = some (k, v) := by
    intro x hx
    rw [Finset.mem_sdiff] at hx
    obtain ⟨hreach, hnot⟩ := hx
    obtain ⟨jump, hjump, hx⟩ := Finset.mem_image.mp hreach
    rw [Finset.mem_Ico] at hjump
    have hused := DenseMapNode.getNextEmpty_eq_none hnone hjump.1 hjump.2
    rw [land_slots hlisted.shape, hshift, hx] at hused
    obtain ⟨⟨k, v⟩, hkv⟩ : ∃ kv, t.data x = some kv := by
      refine Option.ne_none_iff_exists'.mp fun hdata => ?_
      rw [hempty x hdata] at hused
      · cases hused
      · rintro rfl
        exact hnot (Finset.mem_image_of_mem _ hkey)
    have hkK : k ∈ K := hK x (k, v) hkv
    refine ⟨k, Finset.mem_sdiff.mpr ⟨hkK, fun hk => ?_⟩, v, hkv⟩
    -- the key of the home slot stands in the home slot
    obtain ⟨s, hs, rfl⟩ := Finset.mem_image.mp hk
    have hhome : t.indexFromHash hash (rep s) = s := by
      rw [DenseMapNode.indexFromHash, hshift, hrephome s hs]
    have hxs : x ∈ c s := hhome ▸ hlisted.mem_home hkv
    obtain ⟨l, hl⟩ := hlisted.exists_cons (ne_nil_of_mem hxs)
    obtain ⟨⟨k', v'⟩, hkv', hhome'⟩ := (hlisted.mem_iff s s).mp (by rw [hl]; exact mem_cons_self)
    have hkk : rep s = k' := hrepdata s hs (k', v') hkv' hhome'
    subst hkk
    rw [hholds.slot_unique hkv hkv'] at hnot
    exact hnot hs
  choose! f hf hdata using hentry
  have hle : (reach shift w \ homes hash shift K).card ≤
      (K \ (homes hash shift K).image rep).card := by
    refine Finset.card_le_card_of_injOn f hf fun x hx x' hx' heq => ?_
    obtain ⟨v, hv⟩ := hdata x hx
    obtain ⟨v', hv'⟩ := hdata x' hx'
    exact hholds.slot_unique hv (heq ▸ hv')
  rw [Finset.card_sdiff_of_subset hsub, Finset.card_image_of_injOn hrep_inj] at hle
  have hlt := hspread.2 w (by
    have hslots := hlisted.shape.slots_eq
    rw [← hshift]
    omega)
  omega

/-- **Spread keys make room** for each other. -/
theorem room_of_spread (hspread : SpreadAt hash shift K) : Room hash ν shift (· ∈ K) := by
  intro t M key hshift ht hM hkey hnone
  refine ⟨?_, ?_⟩
  · rw [DenseMapNode.indexFromHash, hshift]
    exact roomy_of_spread hspread hM hkey
  · obtain ⟨c, hc⟩ := ht.chained
    have hslots := hc.shape.slots_eq
    have hlists := ht.holds.lists
    have hcard : t.size + 1 ≤ K.card := by
      rw [ht.size_eq, ← length_map, ← toFinset_card_of_nodup hlists.nodup]
      refine Finset.card_lt_card (Finset.ssubset_iff_of_subset ?_ |>.mpr
        ⟨key, hkey, fun hmem => hlists.notMem hnone (mem_toFinset.mp hmem)⟩)
      intro k hk
      obtain ⟨⟨k', v⟩, hkv, rfl⟩ := mem_map.mp (mem_toFinset.mp hk)
      exact hM k' v ((hlists.mem_iff (k', v)).mp hkv)
    have hload := hspread.1
    rw [← hshift] at hload
    rw [DenseMapNode.isFull, decide_eq_false_iff_not]
    omega

/-- The distances differ in a table with 8192 slots. -/
theorem nodup_probe : (kNextProbeLocation.tail.map (· % 8192)).Nodup := by
  decide +kernel

theorem length_probe : kNextProbeLocation.tail.length = kNumJumpDists - 1 := by
  decide +kernel

theorem getElem?_probe {jump : ℕ} (hpos : 1 ≤ jump) (hlt : jump < kNumJumpDists) :
    (kNextProbeLocation.tail.map (· % 8192))[jump - 1]? = some (probe jump % 8192) := by
  obtain ⟨n, rfl⟩ : ∃ n, jump = n + 1 := ⟨jump - 1, by omega⟩
  have hn : n < kNextProbeLocation.tail.length := by
    rw [length_probe]
    omega
  rw [Nat.add_sub_cancel, getElem?_map, getElem?_eq_getElem hn]
  exact congrArg (fun d => some (d % 8192)) (getD_eq_getElem _ 0 hn).symm

/-- The jumps lead to different slots of such a table. -/
theorem probe_injOn {i j : ℕ} (hi : 1 ≤ i ∧ i < kNumJumpDists) (hj : 1 ≤ j ∧ j < kNumJumpDists)
    (heq : probe i % 8192 = probe j % 8192) : i = j := by
  have hne := nodup_iff_getElem?_ne_getElem?.mp nodup_probe
  rw [length_map, length_probe] at hne
  have hget : (kNextProbeLocation.tail.map (· % 8192))[i - 1]? =
      (kNextProbeLocation.tail.map (· % 8192))[j - 1]? := by
    rw [getElem?_probe hi.1 hi.2, getElem?_probe hj.1 hj.2, heq]
  rcases lt_trichotomy i j with hlt | rfl | hlt
  · exact absurd hget (hne (i - 1) (j - 1) (by omega) (by omega))
  · rfl
  · exact absurd hget.symm (hne (j - 1) (i - 1) (by omega) (by omega))

omit [DecidableEq κ] in
/-- **At most 124 keys are spread**, whatever their hashes are. -/
theorem spread_of_card_le (hcard : K.card ≤ 124) : Spread hash K := by
  refine ⟨51, by decide, by decide, ?_, fun w _ => ?_⟩
  · omega
  · have hreach : (reach 51 w).card = 125 := by
      refine (Finset.card_image_of_injOn fun i hi j hj heq => ?_).trans rfl
      refine probe_injOn (Finset.mem_Ico.mp hi) (Finset.mem_Ico.mp hj) ?_
      omega
    have hhomes : (homes hash 51 K).card ≤ K.card := Finset.card_image_le
    have hsdiff := Finset.le_card_sdiff (homes hash 51 K) (reach 51 w)
    omega

end

/-! ## The runtime map as a finite map -/

/-- **The runtime map is a finite map**, for every hash function: a program that ends has treated
each of its maps as one, and a program whose keys are spread ends. -/
theorem runMap_refines {κ ν : Type} [DecidableEq κ] [Inhabited ν] (hash : κ → ℕ)
    (ops : List (MapOp κ ν)) (S : List (κ → Option ν)) (hspec : runMapSpec ops = some S) :
    (∀ heap, runMap hash ops = some heap → HeapRepresents hash heap S) ∧
      (Spread hash (ops.flatMap MapOp.keys).toFinset →
        ∃ heap, runMap hash ops = some heap ∧ HeapRepresents hash heap S) := by
  have hsound : ∀ heap, runMap hash ops = some heap → HeapRepresents hash heap S := by
    intro heap hrun
    obtain ⟨S', hspec', h⟩ := runMap_sound hrun
    cases hspec.symm.trans hspec'
    exact h.represents
  refine ⟨hsound, ?_⟩
  rintro ⟨shift, hpos, hle, hspread⟩
  have hroom : Room hash ν shift fun k => ∃ op ∈ ops, k ∈ op.keys := by
    simpa only [mem_toFinset, mem_flatMap] using room_of_spread hspread
  obtain ⟨heap, hrun⟩ := runMap_total hpos hle hroom hspec
  exact ⟨heap, hrun, hsound heap hrun⟩

/-- Two maps that share a node, and keys that all have the same hash. -/
theorem runMap_refines_shared :
    ∃ S, runMapSpec ([.set 0 1 10, .set 0 2 20, .copy 0, .set 1 2 21, .set 0 3 30, .set 0 4 40,
        .set 0 5 50, .erase 0 1] : List (MapOp ℕ ℕ)) = some S ∧
      ∃ heap, runMap (fun _ => 7) [.set 0 1 10, .set 0 2 20, .copy 0, .set 1 2 21, .set 0 3 30,
          .set 0 4 40, .set 0 5 50, .erase 0 1] = some heap ∧
        HeapRepresents (fun _ => 7) heap S :=
  ⟨_, rfl, (runMap_refines (fun _ => 7) _ _ rfl).2 (spread_of_card_le (by decide))⟩

/-! ## Keys that no table has room for -/

/-- The inverse of the factor of `fibHash` in `uint64_t`. -/
def fibInverse : ℕ := 17428512612931826493

/-- Two keys share the home slot zero at every size of the table; for every size and every jump
another key has the slot that the jump from slot zero leads to as its home slot. -/
def crowdHash (key : ℕ) : ℕ :=
  if key < 2 then 0
  else
    let bits := (key - 2) / 125 + 3
    let jump := (key - 2) % 125 + 1
    fibInverse * (probe jump % 2 ^ bits * 2 ^ (64 - bits)) % 2 ^ 64

/-- The number of these keys, for `2 ^ 3` to `2 ^ 63` slots. -/
def crowdSize : ℕ := 2 + 61 * 125

/-- A program that sets them all. -/
def crowdOps : List (MapOp ℕ ℕ) := (List.range crowdSize).map fun key => .set 0 key 0

theorem fibHash_fibInverse {value : ℕ} (h : value < 2 ^ 64) (shift : ℕ) :
    fibHash (fibInverse * value % 2 ^ 64) shift = value >>> shift := by
  have hmul : 11400714819323198485 * (fibInverse * value % 2 ^ 64) % 2 ^ 64 = value := by
    rw [Nat.mul_mod_mod, ← mul_assoc, Nat.mul_mod]
    have hinv : 11400714819323198485 * fibInverse % 2 ^ 64 = 1 := by decide +kernel
    rw [hinv, one_mul, Nat.mod_mod, Nat.mod_eq_of_lt h]
  rw [fibHash, hmul]

/-- Every slot that a jump from slot zero leads to is the home slot of a key. -/
theorem exists_crowd {shift jump : ℕ} (hpos : 1 ≤ shift) (hle : shift ≤ 61) (hjump : 1 ≤ jump)
    (hlt : jump < kNumJumpDists) :
    ∃ key < crowdSize, fibHash (crowdHash key) shift = probe jump % 2 ^ (64 - shift) := by
  rw [kNumJumpDists] at hlt
  refine ⟨2 + ((64 - shift - 3) * 125 + (jump - 1)), ?_, ?_⟩
  · rw [crowdSize]
    omega
  · have hdiv : (2 + ((64 - shift - 3) * 125 + (jump - 1)) - 2) / 125 + 3 = 64 - shift := by omega
    have hmod : (2 + ((64 - shift - 3) * 125 + (jump - 1)) - 2) % 125 + 1 = jump := by omega
    have hbits : 64 - (64 - shift) = shift := by omega
    rw [crowdHash, if_neg (by omega)]
    dsimp only
    rw [hdiv, hmod, hbits, fibHash_fibInverse, Nat.shiftRight_eq_div_pow,
      Nat.mul_div_cancel _ (Nat.two_pow_pos shift)]
    calc probe jump % 2 ^ (64 - shift) * 2 ^ shift
        < 2 ^ (64 - shift) * 2 ^ shift :=
          Nat.mul_lt_mul_of_pos_right (Nat.mod_lt _ (Nat.two_pow_pos _)) (Nat.two_pow_pos shift)
      _ = 2 ^ 64 := by rw [← Nat.pow_add, Nat.sub_add_cancel (by omega)]

/-- **No table holds these keys**: the second entry of the list of slot zero would stand in the
home slot of another key, which is the head of a list of its own. -/
theorem not_table_crowd {t : DenseMapNode ℕ ℕ} {M : ℕ → Option ℕ}
    (hM : ∀ key < crowdSize, M key ≠ none) : ¬Table crowdHash t M := by
  intro ht
  obtain ⟨c, hc⟩ := ht.chained
  obtain ⟨hslots, hpos, hle⟩ := hc.shape
  -- where a key stands
  have hslot : ∀ key < crowdSize, ∃ i v, t.data i = some (key, v) ∧
      i ∈ c (fibHash (crowdHash key) t.fibShift) := by
    intro key hkey
    obtain ⟨v, hv⟩ := Option.ne_none_iff_exists'.mp (hM key hkey)
    obtain ⟨i, hi⟩ := ht.holds.complete key v hv
    exact ⟨i, v, hi, hc.mem_home hi⟩
  have hzero : ∀ key < 2, fibHash (crowdHash key) t.fibShift = 0 := by
    intro key hkey
    rw [crowdHash, if_pos hkey, fibHash, Nat.zero_mod, Nat.zero_shiftRight]
  obtain ⟨i, v, hi, hi0⟩ := hslot 0 (by decide)
  obtain ⟨j, w, hj, hj0⟩ := hslot 1 (by decide)
  rw [hzero 0 (by decide)] at hi0
  rw [hzero 1 (by decide)] at hj0
  have hij : i ≠ j := by
    rintro rfl
    rw [hi] at hj
    cases hj
  -- so the list of slot zero has a second entry
  obtain ⟨l, hl⟩ := hc.exists_cons (ne_nil_of_mem hi0)
  cases l with
  | nil =>
    rw [hl, mem_singleton] at hi0 hj0
    exact hij (hi0.trans hj0.symm)
  | cons y l =>
    have hpath := hc.path 0
    rw [hl] at hpath
    have hy0 : y ∈ c 0 := by simp [hl]
    have hne : 0 ≠ y := by
      rintro rfl
      simpa using hpath.nodup
    obtain ⟨⟨k₀, v₀⟩, hkv₀, -⟩ := (hc.mem_iff 0 0).mp (by simp [hl])
    have hjump := ht.holds.used 0 _ hkv₀
    have hnext := (path_cons_cons.mp hpath).1
    rw [DenseMapNode.next_eq] at hnext
    split_ifs at hnext with hprobe
    have hy := Option.some.inj hnext
    rw [zero_add, land_slots hc.shape] at hy
    have hjump_pos : 1 ≤ jumpOf (t.bytes 0) := by
      rcases Nat.eq_zero_or_pos (jumpOf (t.bytes 0)) with hz | hz
      · rw [hz] at hprobe
        exact absurd rfl hprobe
      · exact hz
    obtain ⟨key, hkey, hhome⟩ := exists_crowd hpos hle hjump_pos hjump
    obtain ⟨x, -, -, hx⟩ := hslot key hkey
    rw [hhome, hy] at hx
    obtain ⟨l', hl'⟩ := hc.exists_cons (ne_nil_of_mem hx)
    exact hne (hc.unique hy0 (by rw [hl']; exact mem_cons_self))

theorem foldlM_mapSpecStep_set [DecidableEq κ] (l : List κ) (v : ν) (N : κ → Option ν) :
    (l.map fun key => MapOp.set 0 key v).foldlM mapSpecStep [N] =
      some [setAll N (l.map fun key => (key, v))] := by
  induction l generalizing N with
  | nil => rfl
  | cons key l ih => exact ih _

theorem setAll_map [DecidableEq κ] {l : List κ} (hl : l.Nodup) (v : ν) {key : κ}
    (hkey : key ∈ l) : setAll (fun _ => none) (l.map fun key => (key, v)) key = some v := by
  refine setAll_mem ?_ (mem_map.mpr ⟨key, hkey, rfl⟩)
  simpa [Function.comp_def] using hl

/-- **A program that is stuck**: it sets keys that every table, up to the largest one, rejects. -/
theorem runMap_crowd_none :
    (∃ S, runMapSpec crowdOps = some S) ∧ runMap crowdHash crowdOps = none := by
  have hspec : runMapSpec crowdOps = _ :=
    foldlM_mapSpecStep_set (range crowdSize) 0 fun _ => none
  refine ⟨⟨_, hspec⟩, ?_⟩
  cases hrun : runMap crowdHash crowdOps with
  | none => rfl
  | some heap =>
    exfalso
    obtain ⟨S, hspec', h⟩ := runMap_sound hrun
    cases hspec.symm.trans hspec'
    obtain ⟨ref, node, -, -, hkeeps⟩ := h.node 0 _ getElem?_cons_zero
    cases node with
    | small m =>
      obtain ⟨hlists, hlen, hslots⟩ := hkeeps
      have hsub : range crowdSize ⊆ m.entries.map Prod.fst := by
        intro key hkey
        have hmem := (hlists.mem_iff (key, 0)).mpr (setAll_map nodup_range 0 hkey)
        exact mem_map.mpr ⟨_, hmem, rfl⟩
      have hle := (nodup_range.subperm hsub).length_le
      rw [length_range, length_map, crowdSize] at hle
      rw [kMaxSize] at hslots
      omega
    | dense t =>
      refine not_table_crowd (fun key hkey => ?_) hkeeps
      rw [setAll_map nodup_range 0 (mem_range.mpr hkey)]
      exact Option.some_ne_none 0

end Pruner.Runtime
