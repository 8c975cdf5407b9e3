import Pruner.Lib.Json

/-!
# Packed arrays of 32-bit words

A byte array that holds 32-bit words in little-endian order, and a reader that unpacks as
many words as it is told to at a byte offset.  A proof about a reader follows what is left
to read: `At bytes offset ws` says that the bytes from `offset` on are the words `ws`.

## Main definitions

* `putWords`, `unpackFrom` — writing words, and reading some of them at an offset.
* `At` — what is left to read at an offset.
* `At.unpackFrom_eq`, `At.advance`, `At.readInts`, `At.readAll_eq`, `At.eq_length` — the
  rules for a reader.
* `reshape` — the rows of a two-dimensional array.
-/

namespace Pruner.Lib

open List

variable {zs : List ℤ} {α : Type*}

abbrev Byte := BitVec 8

abbrev Word := BitVec 32

/-- The bytes of a word, the lowest one first. -/
def putWord (w : Word) : List Byte :=
  [.ofNat 8 w.toNat, .ofNat 8 (w.toNat / 256), .ofNat 8 (w.toNat / 65536),
    .ofNat 8 (w.toNat / 16777216)]

/-- The word of four bytes. -/
def getWord (a b c d : Byte) : Word :=
  .ofNat 32 (a.toNat + 256 * b.toNat + 65536 * c.toNat + 16777216 * d.toNat)

def putWords (ws : List Word) : List Byte := ws.flatMap putWord

/-- The first words of a byte array. -/
def getWords : ℕ → List Byte → Option (List Word)
  | 0, _ => some []
  | k + 1, a :: b :: c :: d :: bytes => (getWords k bytes).map (getWord a b c d :: ·)
  | _ + 1, _ => none

/-- `struct.unpack_from` for `count` words.  A negative count is no format, and a buffer
that is too small is an error. -/
def unpackFrom (count : ℤ) (bytes : List Byte) (offset : ℕ) : Option (List Word) :=
  if 0 ≤ count then getWords count.toNat (bytes.drop offset) else none

/-- `struct.unpack_from` for `count` numbers. -/
def unpackInts (count : ℤ) (bytes : List Byte) (offset : ℕ) : Option (List ℤ) :=
  (unpackFrom count bytes offset).map (·.map BitVec.toInt)

def readAll {α β : Type*} (read : ℕ → α → Option (β × ℕ)) : ℕ → List α → Option (List β × ℕ)
  | offset, [] => some ([], offset)
  | offset, key :: keys =>
    (read offset key).bind fun (value, offset) =>
      (readAll read offset keys).map fun (values, offset) => (value :: values, offset)

/-- The rows of a two-dimensional array. -/
def reshape {α : Type*} (rows cols : ℕ) (l : List α) : List (List α) :=
  (List.range rows).map fun i => (l.drop (i * cols)).take cols

@[simp] theorem getWord_putWord (w : Word) :
    getWord (.ofNat 8 w.toNat) (.ofNat 8 (w.toNat / 256)) (.ofNat 8 (w.toNat / 65536))
      (.ofNat 8 (w.toNat / 16777216)) = w := by
  apply BitVec.eq_of_toNat_eq
  simp only [getWord, BitVec.toNat_ofNat, Nat.reducePow]
  omega

@[simp] theorem putWords_nil : putWords [] = [] := rfl

@[simp] theorem length_putWords (ws : List Word) : (putWords ws).length = 4 * ws.length := by
  simp [putWords, putWord, length_flatMap, mul_comm]

theorem putWords_append (ws ws' : List Word) :
    putWords (ws ++ ws') = putWords ws ++ putWords ws' := by
  rw [putWords, flatMap_append, putWords, putWords]

theorem getWords_putWords (ws : List Word) (bytes : List Byte) :
    getWords ws.length (putWords ws ++ bytes) = some ws := by
  induction ws with
  | nil => rfl
  | cons w ws ih =>
    have hcons : putWords (w :: ws) ++ bytes = .ofNat 8 w.toNat :: .ofNat 8 (w.toNat / 256) ::
        .ofNat 8 (w.toNat / 65536) :: .ofNat 8 (w.toNat / 16777216) ::
          (putWords ws ++ bytes) := rfl
    rw [hcons, length_cons, getWords, ih, getWord_putWord]
    rfl

/-! ## What is left to read -/

/-- The bytes from an offset on are these words. -/
structure At (bytes : List Byte) (offset : ℕ) (ws : List Word) : Prop where
  drop_eq : bytes.drop offset = putWords ws
  le : offset ≤ bytes.length

variable {bytes : List Byte} {offset : ℕ} {ws ws' : List Word}

theorem at_putWords (ws : List Word) : At (putWords ws) 0 ws := ⟨rfl, Nat.zero_le _⟩

/-- Reading words. -/
theorem At.unpackFrom_eq (h : At bytes offset (ws ++ ws')) :
    unpackFrom ws.length bytes offset = some ws := by
  rw [unpackFrom, if_pos (Int.natCast_nonneg _), Int.toNat_natCast, h.drop_eq,
    putWords_append, getWords_putWords]

/-- Going on behind them. -/
theorem At.advance (h : At bytes offset (ws ++ ws')) : At bytes (offset + 4 * ws.length) ws' := by
  have hlength : bytes.length - offset = 4 * (ws ++ ws').length := by
    rw [← length_drop, h.drop_eq, length_putWords]
  rw [length_append] at hlength
  refine ⟨?_, by have := h.le; omega⟩
  rw [← drop_drop, h.drop_eq, putWords_append, ← length_putWords, drop_left]

/-- At the end. -/
theorem At.eq_length (h : At bytes offset []) : offset = bytes.length := by
  have hlength : bytes.length - offset = 0 := by
    rw [← length_drop, h.drop_eq, putWords_nil, length_nil]
  have := h.le
  omega

theorem toInt_ofInt {z : ℤ} (h : FitsInt z) : (BitVec.ofInt 32 z).toInt = z := by
  rw [BitVec.toInt_ofInt]
  exact Int.bmod_eq_of_le (by have := h.1; omega) (by have := h.2; omega)

theorem At.readWrapped {k : ℕ} (h : At bytes offset (zs.map (BitVec.ofInt 32) ++ ws))
    (hk : zs.length = k) :
    unpackInts k bytes offset = some (zs.map fun z => (BitVec.ofInt 32 z).toInt) ∧
      At bytes (offset + 4 * k) ws := by
  have hread := h.unpackFrom_eq
  have hnext := h.advance
  rw [length_map, hk] at hread hnext
  refine ⟨?_, hnext⟩
  rw [unpackInts, hread, Option.map_some, map_map]
  rfl

theorem map_toInt_ofInt (hzs : ∀ z ∈ zs, FitsInt z) :
    zs.map (fun z => (BitVec.ofInt 32 z).toInt) = zs :=
  (map_congr_left fun z hz => toInt_ofInt (hzs z hz)).trans (map_id zs)

theorem At.readInts {k : ℕ} (h : At bytes offset (zs.map (BitVec.ofInt 32) ++ ws))
    (hzs : ∀ z ∈ zs, FitsInt z) (hk : zs.length = k) :
    unpackInts k bytes offset = some zs ∧ At bytes (offset + 4 * k) ws := by
  have hread := h.readWrapped hk
  rwa [map_toInt_ofInt hzs] at hread

theorem At.readAll_eq {ρ β : Type*} {read : ℕ → α → Option (β × ℕ)} {words : ρ → List Word}
    {key : ρ → α} {value : ρ → β} {records : List ρ}
    (hread : ∀ r ∈ records, ∀ {offset ws}, At bytes offset (words r ++ ws) →
      ∃ offset', read offset (key r) = some (value r, offset') ∧ At bytes offset' ws)
    (h : At bytes offset (records.flatMap words ++ ws)) :
    ∃ offset', readAll read offset (records.map key) = some (records.map value, offset') ∧
      At bytes offset' ws := by
  induction records generalizing offset with
  | nil => exact ⟨offset, rfl, h⟩
  | cons r records ih =>
    rw [flatMap_cons, append_assoc] at h
    obtain ⟨offset₁, hr, h₁⟩ := hread r mem_cons_self h
    obtain ⟨offset₂, hrest, h₂⟩ := ih (forall_mem_cons.mp hread).2 h₁
    refine ⟨offset₂, ?_, h₂⟩
    simp [readAll, hr, hrest]

/-! ## Rows -/

variable {rows : List (List α)} {cols : ℕ}

theorem reshape_flatten
    (h : ∀ row ∈ rows, row.length = cols) : reshape rows.length cols rows.flatten = rows := by
  induction rows with
  | nil => rfl
  | cons row rows ih =>
    have hrow : row.length = cols := h row mem_cons_self
    have hrest := ih (forall_mem_cons.mp h).2
    rw [reshape, length_cons, range_succ_eq_map, map_cons, map_map]
    congr 1
    · rw [zero_mul, drop_zero, flatten_cons, ← hrow, take_left]
    · refine Eq.trans (map_congr_left fun i _ => ?_) hrest
      rw [Function.comp_apply, flatten_cons, Nat.succ_mul, add_comm, ← drop_drop, ← hrow, drop_left]

theorem length_flatten_of_rows
    (h : ∀ row ∈ rows, row.length = cols) : rows.flatten.length = rows.length * cols := by
  rw [length_flatten, map_congr_left h, map_const', sum_replicate_nat]

end Pruner.Lib
