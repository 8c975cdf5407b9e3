import Pruner.Lib.Binary32
import Pruner.Lib.Ext

/-!
# Features as bytes

The features of programs are extracted in C++ and used in Python.  `SerializeFeaturesPSA`
and `SerializeFeaturesPAM` (`feature_psa.cc`, `feature_pam.cc`) pack them with their labels
into one byte array, and `unpack_feature` and `unpack_feature_pam` (`feature.py`) compute
the offsets again from the sizes they find.  A `float` is the word that holds it.

A record is the feature of one program, if it could be lowered.

## Main definitions

* `serializeFeaturesPAM`, `unpackFeaturePam` — rows for statements and for the accesses of
  a pattern.
* `serializeFeaturesPSA`, `unpackFeature` — rows for statements, with their number as a
  `float` in front of them.
* `unpackFeaturePam_serialize`, `unpackFeature_serialize` — what is read is what was
  written.
-/

namespace Pruner.AutoScheduler

open Lib List Option Binary32

variable {labels : Labels}

/-- The words of `int` values.  A value that does not fit is truncated. -/
def intWords (zs : List ℤ) : List Word := zs.map (BitVec.ofInt 32)

/-- `DEFAULT_FEATURE_VEC_LEN`, `Ansor_FEATURE_SIZE`. -/
def featureVecLen : ℕ := 164

/-- `DEFAULT_FEATURE_VEC_LEN_PSA`. -/
def featureVecLenPSA : ℕ := 11

/-- `DEFAULT_FEATURE_VEC_LEN_PAM`, `PAM_FEATURE_SIZE`. -/
def featureVecLenPAM : ℕ := 23

/-- `DEFAULT_FEATURE_SEQ_LEN_PAM`. -/
def featureSeqLenPAM : ℕ := 8

def zeros (rows cols : ℕ) : List (List Word) := replicate rows (replicate cols 0)

theorem length_of_mem_zeros {rows cols : ℕ} {row : List Word} (h : row ∈ zeros rows cols) :
    row.length = cols :=
  eq_of_mem_replicate h ▸ length_replicate

/-! ## Labels -/

/-- What follows the features in both formats. -/
structure Labels where
  normalizedThroughputs : List Word
  taskIds : List ℤ
  minCosts : List Word
  deriving DecidableEq

namespace Labels

def sizes (labels : Labels) : List ℤ :=
  [labels.normalizedThroughputs.length, labels.taskIds.length, labels.minCosts.length]

def words (labels : Labels) : List Word :=
  labels.normalizedThroughputs ++ (intWords labels.taskIds ++ labels.minCosts)

/-- The labels are `int` values, and so are their numbers. -/
structure Fits (labels : Labels) : Prop where
  sizes : ∀ z ∈ labels.sizes, FitsInt z
  taskIds : ∀ z ∈ labels.taskIds, FitsInt z

end Labels

/-- An element of a tuple, counted from its end. -/
def fromEnd {α : Type*} (l : List α) (k : ℕ) : Option α := l.reverse[k - 1]?

variable (sizes : List ℤ) (bytes : List Byte) (offset : ℕ) (records : List (Option PamFeature))
  (k : ℕ) (mod : Bool)

/-- The last part of both readers, with the check that all bytes have been read. -/
def unpackLabels : Option Labels := do
  let m ← fromEnd sizes 3
  let normalizedThroughputs ← unpackFrom m bytes offset
  let offset := offset + 4 * m.toNat
  let m ← fromEnd sizes 2
  let taskIds ← unpackInts m bytes offset
  let offset := offset + 4 * m.toNat
  let m ← fromEnd sizes 1
  let minCosts ← unpackFrom m bytes offset
  let offset := offset + 4 * m.toNat
  if offset = bytes.length then some { normalizedThroughputs, taskIds, minCosts } else none

section

variable {bytes offset}

/-- The labels are read back, and nothing is left. -/
theorem unpackLabels_eq (hfits : labels.Fits) (h : At bytes offset labels.words) :
    unpackLabels (sizes ++ labels.sizes) bytes offset = some labels := by
  have hend₃ : fromEnd (sizes ++ labels.sizes) 3 =
      some (labels.normalizedThroughputs.length : ℤ) := by simp [fromEnd, Labels.sizes]
  have hend₂ : fromEnd (sizes ++ labels.sizes) 2 = some (labels.taskIds.length : ℤ) := by
    simp [fromEnd, Labels.sizes]
  have hend₁ : fromEnd (sizes ++ labels.sizes) 1 = some (labels.minCosts.length : ℤ) := by
    simp [fromEnd, Labels.sizes]
  have h₁ := h.advance
  obtain ⟨hids, h₂⟩ := h₁.readInts hfits.taskIds rfl
  rw [← append_nil labels.minCosts] at h₂
  simp only [unpackLabels, hend₃, hend₂, hend₁, bind_eq_bind, bind_some,
    Int.toNat_natCast, h.unpackFrom_eq, hids, h₂.unpackFrom_eq]
  exact if_pos h₂.advance.eq_length

end

/-! ## Rows for statements and patterns -/

/-- The feature of a program in the format with patterns. -/
structure PamFeature where
  rows : List (List Word)
  patternIndex : CInt
  seq : List (List Word)
  rows_length : ∀ row ∈ rows, row.length = featureVecLen
  seq_length : ∀ row ∈ seq, row.length = featureVecLenPAM
  seq_count : seq.length = if 0 ≤ patternIndex.1 then featureSeqLenPAM else 0

/-- An entry of `features`, `fea_sizes` and `kmp_indexes`. -/
structure PamEntry where
  feature : List (List Word)
  feaSize : ℤ
  kmpIndex : ℤ

open PamEntry

/-- The entry of a record, as `ExtractAndPaddingFeaturePAM` fills it.  The vectors start
with no rows, size 0 and index -1. -/
def PamEntry.ofRecord : Option PamFeature → PamEntry
  | none => ⟨[], 0, -1⟩
  | some f => ⟨f.rows ++ f.seq, f.rows.length, f.patternIndex.1⟩

/-- The number of values of an entry. -/
def PamEntry.size (e : PamEntry) : ℤ :=
  e.feaSize * featureVecLen + (if 0 ≤ e.kmpIndex then 8 else 0) * featureVecLenPAM

/-- `SerializeFeaturesPAM`.  An `int` must not overflow, and the check at the end compares
the number of written bytes with the one computed from the sizes. -/
def serializeFeaturesPAM (entries : List PamEntry) (labels : Labels) : Option (List Byte) :=
  if FitsInt (1 + entries.length + 3) ∧ ∀ e ∈ entries, FitsInt (e.size + 2) then
    let sizeVector : List ℤ := entries.length :: (entries.map size ++ labels.sizes)
    let words := intWords sizeVector ++ (intWords (entries.map feaSize) ++
      (intWords (entries.map kmpIndex) ++ (entries.flatMap (·.feature.flatten) ++ labels.words)))
    let totalBytes : ℤ := 4 * (1 + entries.length + 3) +
      (entries.map fun e => 4 * (e.size + 2)).sum + 4 * labels.sizes.sum
    if 4 * (words.length : ℤ) = totalBytes then some (putWords words) else none
  else none

/-- What `unpack_feature_pam` returns. -/
structure PamArrays where
  featuresSize : List ℤ
  kmpIndex : List ℤ
  features : List (List (List Word))
  bufFeatures : List (List (List Word))
  labels : Labels
  deriving DecidableEq

/-- The rows of one record.  The writer never produces a negative number of rows. -/
def unpackRecordPam : ℤ × ℤ × ℤ → Option ((List (List Word) × List (List Word)) × ℕ)
  | (size, featuresSize, kmpIndex) =>
    if size = 0 then
      some ((zeros 1 featureVecLen, zeros featureSeqLenPAM featureVecLenPAM), offset)
    else do
      let x ← unpackFrom (featureVecLen * featuresSize) bytes offset
      let features := reshape featuresSize.toNat featureVecLen x
      let offset := offset + featureVecLen * featuresSize.toNat * 4
      if 0 ≤ kmpIndex then do
        let x ← unpackFrom (featureSeqLenPAM * featureVecLenPAM : ℕ) bytes offset
        some ((features, reshape featureSeqLenPAM featureVecLenPAM x),
          offset + featureSeqLenPAM * featureVecLenPAM * 4)
      else some ((features, zeros featureSeqLenPAM featureVecLenPAM), offset)

def unpackFeaturePam : Option PamArrays := do
  let n ← (← unpackInts 1 bytes 0).head?
  let offset := 4
  let sizes ← unpackInts (n + 3) bytes offset
  let offset := offset + 4 * (n + 3).toNat
  let featuresSize ← unpackInts n bytes offset
  let offset := offset + 4 * n.toNat
  let kmpIndex ← unpackInts n bytes offset
  let offset := offset + 4 * n.toNat
  let (records, offset) ← readAll (unpackRecordPam bytes) offset
    (sizes.zip (featuresSize.zip kmpIndex))
  let labels ← unpackLabels sizes bytes offset
  some
    { featuresSize, kmpIndex, labels
      features := records.map Prod.fst
      bufFeatures := records.map Prod.snd }

/-- The rows a reader should find for a record: zeros where there are none. -/
def PamFeature.arrays : Option PamFeature → List (List Word) × List (List Word)
  | none => (zeros 1 featureVecLen, zeros featureSeqLenPAM featureVecLenPAM)
  | some f =>
    (f.rows, if 0 ≤ f.patternIndex.1 then f.seq else zeros featureSeqLenPAM featureVecLenPAM)

/-- What a reader should return for records. -/
def PamArrays.ofRecords (labels : Labels) : PamArrays where
  featuresSize := records.map fun r => (ofRecord r).feaSize
  kmpIndex := records.map fun r => (ofRecord r).kmpIndex
  features := records.map fun r => (PamFeature.arrays r).1
  bufFeatures := records.map fun r => (PamFeature.arrays r).2
  labels := labels

variable {bytes offset} {ws : List Word}

/-- The sizes that the writer computes are the sizes of what it writes. -/
theorem length_flatten_ofRecord (r : Option PamFeature) :
    ((ofRecord r).feature.flatten.length : ℤ) = (ofRecord r).size := by
  cases r with
  | none => rfl
  | some f =>
    simp only [ofRecord, size, flatten_append, length_append,
      length_flatten_of_rows f.rows_length, length_flatten_of_rows f.seq_length, f.seq_count]
    by_cases h : 0 ≤ f.patternIndex.1 <;> simp [h, featureSeqLenPAM]

/-- The two tables take the two words that are counted for each record. -/
theorem sum_sizes_ofRecord : ((records.map ofRecord).map fun e => 4 * (e.size + 2)).sum =
      4 * (((records.map ofRecord).flatMap (·.feature.flatten)).length +
        2 * records.length : ℤ) := by
  induction records with
  | nil => rfl
  | cons r records ih =>
    simp only [map_cons, sum_cons, flatMap_cons, length_append,
      length_cons, ih, ← length_flatten_ofRecord]
    push_cast
    ring

@[simp] theorem length_sizes (labels : Labels) : labels.sizes.length = 3 := rfl

theorem length_words_labels (labels : Labels) : (labels.words.length : ℤ) = labels.sizes.sum := by
  simp [Labels.words, Labels.sizes, intWords]

/-- The words that are written for records. -/
def pamWords (labels : Labels) : List Word :=
  intWords [(records.length : ℤ)] ++
    (intWords (records.map (fun r => (ofRecord r).size) ++ labels.sizes) ++
      (intWords (records.map fun r => (ofRecord r).feaSize) ++
        (intWords (records.map fun r => (ofRecord r).kmpIndex) ++
          (records.flatMap (fun r => (ofRecord r).feature.flatten) ++ labels.words))))

/-- The check of the writer never fails. -/
theorem serializeFeaturesPAM_eq {records : List (Option PamFeature)}
    (hn : FitsInt (1 + records.length + 3))
    (hsize : ∀ r ∈ records, FitsInt ((ofRecord r).size + 2)) :
    serializeFeaturesPAM (records.map ofRecord) labels =
      some (putWords (pamWords records labels)) := by
  have hguard : FitsInt (1 + (records.map ofRecord).length + 3) ∧
      ∀ e ∈ records.map ofRecord, FitsInt (e.size + 2) := by
    rw [length_map]
    exact ⟨hn, forall_mem_map.mpr hsize⟩
  rw [serializeFeaturesPAM, if_pos hguard]
  simp only [sum_sizes_ofRecord, ← length_words_labels]
  rw [if_pos]
  · simp only [pamWords, intWords, length_map, List.map_map, flatMap_map,
      map_append, map_cons, map_nil, cons_append, nil_append]
    rfl
  · simp [intWords, Labels.sizes]
    ring

variable {r : Option PamFeature}

theorem unpackRecordPam_eq (hr : ∀ f, r = some f → f.rows ≠ [] ∨ 0 ≤ f.patternIndex.1)
    (h : At bytes offset ((ofRecord r).feature.flatten ++ ws)) :
    ∃ offset', unpackRecordPam bytes offset ((ofRecord r).size,
        (ofRecord r).feaSize, (ofRecord r).kmpIndex) =
          some (PamFeature.arrays r, offset') ∧ At bytes offset' ws := by
  cases r with
  | none => exact ⟨offset, rfl, h⟩
  | some f =>
    have hsize : (ofRecord (some f)).size ≠ 0 := by
      have hnonempty : f.rows.length ≠ 0 ∨ 0 ≤ f.patternIndex.1 :=
        (hr f rfl).imp_left fun h => length_eq_zero_iff.not.mpr h
      simp only [size, ofRecord, featureVecLen, featureVecLenPAM]
      split_ifs <;> omega
    simp only [ofRecord] at hsize
    have hrows := length_flatten_of_rows f.rows_length
    have hseq := length_flatten_of_rows f.seq_length
    rw [ofRecord, flatten_append, append_assoc] at h
    have h₁ := h.advance
    have hread : unpackFrom (featureVecLen * f.rows.length) bytes offset = some f.rows.flatten := by
      have := h.unpackFrom_eq
      rwa [hrows, mul_comm, Nat.cast_mul] at this
    rw [hrows, mul_comm, mul_comm f.rows.length] at h₁
    simp only [unpackRecordPam, hsize, ofRecord, PamFeature.arrays, if_false, hread,
      bind_eq_bind, bind_some, Int.toNat_natCast,
      reshape_flatten f.rows_length]
    by_cases hpattern : 0 ≤ f.patternIndex.1
    · have hcount : f.seq.length = featureSeqLenPAM := by rw [f.seq_count, if_pos hpattern]
      have hread₁ := h₁.unpackFrom_eq
      have h₂ := h₁.advance
      have hreshape := reshape_flatten f.seq_length
      rw [hseq, hcount] at hread₁ h₂
      rw [hcount] at hreshape
      refine ⟨_, ?_, by rwa [mul_comm 4] at h₂⟩
      simp only [if_pos hpattern, hread₁, bind_some, hreshape]
    · have hcount : f.seq = [] := by
        rw [← length_eq_zero_iff, f.seq_count, if_neg hpattern]
      rw [hcount] at h₁
      exact ⟨_, by rw [if_neg hpattern, if_neg hpattern], h₁⟩

theorem fitsInt_ofRecord (h : FitsInt ((ofRecord r).size + 2)) :
    FitsInt (ofRecord r).size ∧ FitsInt (ofRecord r).feaSize ∧ FitsInt (ofRecord r).kmpIndex := by
  cases r with
  | none => decide
  | some f =>
    have hsize := length_flatten_ofRecord (some f)
    refine ⟨⟨by omega, by have := h.2; omega⟩, ⟨?_, ?_⟩, f.patternIndex.2⟩
    · exact le_trans (by decide) (Int.natCast_nonneg f.rows.length)
    · have hle := h.2
      simp only [size, ofRecord, featureVecLen, featureVecLenPAM] at hle ⊢
      split_ifs at hle <;> omega

/-- Reading the tables that stand before the features. -/
theorem zip_tables {ρ : Type*} (a b c : ρ → ℤ) (records : List ρ) (l : List ℤ) :
    (records.map a ++ l).zip ((records.map b).zip (records.map c)) =
      records.map fun r => (a r, b r, c r) := by
  induction records with
  | nil => exact zip_nil_right
  | cons r records ih => exact congrArg _ ih

/-- **Features with patterns.**  What is read from the bytes of records is the records with
their labels, if no record has neither rows nor a pattern and all sizes fit. -/
theorem unpackFeaturePam_serialize {records : List (Option PamFeature)} {labels : Labels}
    (hrows : ∀ f, some f ∈ records → f.rows ≠ [] ∨ 0 ≤ f.patternIndex.1)
    (hn : FitsInt (1 + records.length + 3)) (hsize : ∀ r ∈ records, FitsInt ((ofRecord r).size + 2))
    (hlabels : labels.Fits) :
    (serializeFeaturesPAM (records.map ofRecord) labels).bind unpackFeaturePam =
      some (.ofRecords records labels) := by
  rw [serializeFeaturesPAM_eq hn hsize, bind_some]
  obtain ⟨bytes, hbytes, h⟩ : ∃ bytes, putWords (pamWords records labels) = bytes ∧
      At bytes 0 (pamWords records labels) := ⟨_, rfl, at_putWords _⟩
  rw [hbytes]
  rw [pamWords] at h
  have htables : ∀ r ∈ records, _ := fun r hr => fitsInt_ofRecord (hsize r hr)
  have hcount : FitsInt records.length := ⟨by omega, by have := hn.2; omega⟩
  obtain ⟨hread₀, h₁⟩ := h.readInts (k := 1) (by simpa using hcount) rfl
  obtain ⟨hread₁, h₂⟩ := h₁.readInts (k := records.length + 3)
    (forall_mem_append.mpr
      ⟨forall_mem_map.mpr fun r hr => (htables r hr).1, hlabels.sizes⟩) (by simp)
  obtain ⟨hread₂, h₃⟩ := h₂.readInts
    (forall_mem_map.mpr fun r hr => (htables r hr).2.1) (length_map _)
  obtain ⟨hread₃, h₄⟩ := h₃.readInts
    (forall_mem_map.mpr fun r hr => (htables r hr).2.2) (length_map _)
  obtain ⟨offset, hread₄, h₅⟩ := h₄.readAll_eq
    (fun r hr _ _ => unpackRecordPam_eq fun f hf => hrows f (hf ▸ hr))
  have hread₅ := unpackLabels_eq (records.map fun r => (ofRecord r).size) hlabels h₅
  have htoNat : ((records.length : ℤ) + 3).toNat = records.length + 3 := rfl
  simp only [Nat.cast_one, Nat.cast_add, Nat.cast_ofNat, zero_add, mul_one]
    at hread₀ hread₁ hread₂ hread₃ hread₄
  simp only [unpackFeaturePam, hread₀, bind_eq_bind, bind_some, head?_cons,
    hread₁, htoNat, hread₂, Int.toNat_natCast, hread₃, zip_tables, hread₄, hread₅,
    List.map_map, PamArrays.ofRecords]
  rfl

/-- A feature of zero rows without a pattern. -/
def PamFeature.ofRows : PamFeature where
  rows := zeros k featureVecLen
  patternIndex := ⟨-1, by decide⟩
  seq := []
  rows_length := fun _ => length_of_mem_zeros
  seq_length := by simp
  seq_count := rfl

theorem size_ofRows : (ofRecord (some (.ofRows k))).size = k * 164 := by
  simp [size, ofRecord, PamFeature.ofRows, zeros, featureVecLen]

def PamFeature.withPattern : PamFeature where
  rows := zeros 1 featureVecLen
  patternIndex := ⟨5, by decide⟩
  seq := zeros featureSeqLenPAM featureVecLenPAM
  rows_length := fun _ => length_of_mem_zeros
  seq_length := fun _ => length_of_mem_zeros
  seq_count := rfl

/-- The labels of one program. -/
def oneLabel : Labels := ⟨[1], [0], [7]⟩

theorem unpackFeaturePam_withPattern :
    (serializeFeaturesPAM ([some .withPattern, none].map ofRecord) oneLabel).bind
      unpackFeaturePam = some (.ofRecords [some .withPattern, none] oneLabel) :=
  unpackFeaturePam_serialize (by simp [PamFeature.withPattern]) (by decide)
    (by decide +kernel) ⟨by decide, by decide⟩

/-- A feature without rows and without a pattern is read as a failed one, and a feature
with too many rows cannot be written. -/
theorem unpackFeaturePam_ofRows :
    (serializeFeaturesPAM [.ofRecord (some (.ofRows 0))] oneLabel).bind unpackFeaturePam ≠
        some (.ofRecords [some (.ofRows 0)] oneLabel) ∧
      (serializeFeaturesPAM [.ofRecord (some (.ofRows 13094413))] oneLabel).bind
          unpackFeaturePam ≠
        some (.ofRecords [some (.ofRows 13094413)] oneLabel) := by
  refine ⟨by decide +kernel, ?_⟩
  have hsize : ¬ FitsInt ((ofRecord (some (.ofRows 13094413))).size + 2) := by
    rw [size_ofRows]
    decide
  rw [serializeFeaturesPAM, if_neg fun h => hsize (h.2 _ mem_cons_self)]
  exact (some_ne_none _).symm

/-! ## Rows for statements, with their number -/

/-- The feature of a program: a row for each of its statements. -/
structure PsaFeature (vecLen : ℕ) where
  rows : List (List Word)
  rows_ne : rows ≠ []
  rows_length : ∀ row ∈ rows, row.length = vecLen

open PsaFeature

/-- The vector of a record, as `GetPerStoreFeaturePSA` fills it. -/
def PsaFeature.words {vecLen : ℕ} : Option (PsaFeature vecLen) → List Word
  | none => []
  | some f => ofNat f.rows.length :: f.rows.flatten

def serializeFeaturesPSA (features : List (List Word)) (labels : Labels) : Option (List Byte) :=
  if FitsInt (1 + features.length + 3) then
    let sizeVector : List ℤ :=
      features.length :: (features.map (fun x => (x.length : ℤ)) ++ labels.sizes)
    let words := intWords sizeVector ++ (features.flatten ++ labels.words)
    let totalBytes : ℤ := 4 * (1 + features.length + 3) +
      (features.map fun x => 4 * (x.length : ℤ)).sum + 4 * labels.sizes.sum
    if 4 * (words.length : ℤ) = totalBytes then some (putWords words) else none
  else none

/-- What `unpack_feature` returns. -/
structure PsaArrays where
  features : List (List (List Word))
  labels : Labels
  deriving DecidableEq

def unpackRow (vecLen : ℕ) (bytes : List Byte) (offset : ℕ) (_ : Unit) : Option (List Word × ℕ) :=
  (unpackFrom vecLen bytes offset).map fun x => (x, offset + vecLen * 4)

/-- The rows of one record.  Each check is an `assert`, and a division by zero is an
error. -/
def unpackRecord (vecLen : ℕ) (bytes : List Byte) (offset : ℕ) (size : ℤ) :
    Option (List (List Word) × ℕ) :=
  if size = 0 then some (zeros 1 vecLen, offset)
  else do
    let nStmts ← value (← (← unpackFrom 1 bytes offset).head?)
    let offset := offset + 4
    let nStmts := truncToInt (nStmts + 1 / 2)
    let tmpVecLen := (size - 1).fdiv nStmts
    if nStmts ≠ 0 ∧ tmpVecLen = vecLen ∧ tmpVecLen * nStmts = size - 1 then
      readAll (unpackRow vecLen bytes) offset (replicate nStmts.toNat ())
    else none

/-- The vector length that a reader expects. -/
def vecLenOf : ℕ := if mod then featureVecLen else featureVecLenPSA

/-- `unpack_feature` after the sizes. -/
def unpackArrays (sizes : List ℤ) (bytes : List Byte) (offset : ℕ) : Option PsaArrays := do
  let (features, offset) ← readAll (unpackRecord (vecLenOf mod) bytes) offset
    (sizes.take (sizes.length - 3))
  let labels ← unpackLabels sizes bytes offset
  some { features, labels }

def unpackFeature (bytes : List Byte) : Option PsaArrays := do
  let n ← (← unpackInts 1 bytes 0).head?
  let offset := 4
  let sizes ← unpackInts (n + 3) bytes offset
  unpackArrays mod sizes bytes (offset + 4 * (n + 3).toNat)

/-- The rows a reader should find for a record: a zero row where there are none. -/
def PsaFeature.array {vecLen : ℕ} : Option (PsaFeature vecLen) → List (List Word)
  | none => zeros 1 vecLen
  | some f => f.rows

/-- What a reader should return for records. -/
def PsaArrays.ofRecords {vecLen : ℕ} (records : List (Option (PsaFeature vecLen)))
    (labels : Labels) : PsaArrays where
  features := records.map array
  labels := labels

variable {vecLen : ℕ}

/-- The words that are written for records. -/
def psaWords (records : List (Option (PsaFeature vecLen))) (labels : Labels) : List Word :=
  intWords [(records.length : ℤ)] ++
    (intWords (records.map (fun r => ((words r).length : ℤ)) ++ labels.sizes) ++
      (records.flatMap words ++ labels.words))

theorem sum_sizes_words (features : List (List Word)) :
    (features.map fun x => 4 * (x.length : ℤ)).sum = 4 * features.flatten.length := by
  induction features with
  | nil => rfl
  | cons x features ih =>
    rw [map_cons, sum_cons, ih, flatten_cons, length_append]
    push_cast
    ring

theorem serializeFeaturesPSA_eq {records : List (Option (PsaFeature vecLen))}
    (labels : Labels) (hn : FitsInt (1 + records.length + 3)) :
    serializeFeaturesPSA (records.map words) labels =
      some (putWords (psaWords records labels)) := by
  rw [serializeFeaturesPSA, if_pos (by rwa [length_map])]
  simp only [sum_sizes_words, ← length_words_labels]
  rw [if_pos]
  · simp only [psaWords, intWords, length_map, List.map_map, flatMap_def,
      map_append, map_cons, map_nil, cons_append, nil_append]
    rfl
  · simp [intWords, Labels.sizes]
    ring

theorem length_words (f : PsaFeature vecLen) :
    (words (some f)).length = f.rows.length * vecLen + 1 := by
  rw [words, length_cons, length_flatten_of_rows f.rows_length]

theorem truncToInt_add_half (n : ℕ) : truncToInt ((n : ℚ) + 1 / 2) = n := by
  rw [truncToInt, if_pos (by positivity), Int.floor_eq_iff]
  constructor <;> push_cast <;> linarith

theorem unpackRecord_of_value {f : PsaFeature vecLen} {n : ℕ} {size : ℤ}
    (hvalue : value (ofNat f.rows.length) = some (n : ℚ)) (hsize : size ≠ 0)
    (h : At bytes offset (words (some f) ++ ws)) :
    unpackRecord vecLen bytes offset size =
      if n ≠ 0 ∧ (size - 1).fdiv n = vecLen ∧ (size - 1).fdiv n * n = size - 1 then
        readAll (unpackRow vecLen bytes) (offset + 4) (replicate n ())
      else none := by
  have hcons : At bytes offset ([ofNat f.rows.length] ++ (f.rows.flatten ++ ws)) := h
  have hread : unpackFrom 1 bytes offset = some [ofNat f.rows.length] := hcons.unpackFrom_eq
  rw [unpackRecord, if_neg hsize]
  simp only [hread, bind_eq_bind, bind_some, head?_cons, hvalue,
    truncToInt_add_half, Int.toNat_natCast, ne_eq, Int.natCast_eq_zero]

theorem readAll_rows {rows : List (List Word)} (hrows : ∀ row ∈ rows, row.length = vecLen)
    (h : At bytes offset (rows.flatten ++ ws)) :
    ∃ offset', readAll (unpackRow vecLen bytes) offset (replicate rows.length ()) =
      some (rows, offset') ∧ At bytes offset' ws := by
  have hrow : ∀ row ∈ rows, ∀ {offset ws}, At bytes offset (row ++ ws) →
      ∃ offset', unpackRow vecLen bytes offset () = some (row, offset') ∧ At bytes offset' ws := by
    intro row hmem offset ws h
    have hread := h.unpackFrom_eq
    have hnext := h.advance
    rw [hrows row hmem] at hread hnext
    exact ⟨offset + vecLen * 4, by rw [unpackRow, hread, map_some], by rwa [mul_comm]⟩
  rw [← flatMap_id'] at h
  have hread : ∃ offset', readAll (unpackRow vecLen bytes) offset (rows.map fun _ => ()) =
      some (rows.map fun row => row, offset') ∧ At bytes offset' ws := h.readAll_eq hrow
  rwa [map_const', List.map_id'] at hread

/-- A record whose number of rows is a `float` is read back. -/
theorem unpackRecord_eq {r : Option (PsaFeature vecLen)}
    (hr : ∀ f, r = some f → ∃ m k, f.rows.length = m * 2 ^ k ∧ m < 2 ^ 24)
    (hfits : FitsInt (words r).length) (hvec : 0 < vecLen) (h : At bytes offset (words r ++ ws)) :
    ∃ offset', unpackRecord vecLen bytes offset (words r).length =
      some (array r, offset') ∧ At bytes offset' ws := by
  cases r with
  | none => exact ⟨offset, rfl, h⟩
  | some f =>
    obtain ⟨m, k, hmk, hm⟩ := hr f rfl
    have hpos : 0 < f.rows.length := length_pos_iff.mpr f.rows_ne
    have hlt : f.rows.length < 2 ^ 128 := by
      have hle := hfits.2
      have hmul := Nat.le_mul_of_pos_right f.rows.length hvec
      rw [length_words] at hle
      omega
    have hsize : ((words (some f)).length : ℤ) ≠ 0 := by
      rw [length_words]
      omega
    have hsub : ((words (some f)).length : ℤ) - 1 = f.rows.length * vecLen := by
      rw [length_words]
      push_cast
      ring
    have hdiv : ((f.rows.length : ℤ) * vecLen).fdiv f.rows.length = vecLen :=
      Int.mul_fdiv_cancel_left _ (by omega)
    rw [unpackRecord_of_value (value_ofNat hmk hm hlt) hsize h, hsub, hdiv,
      if_pos ⟨by omega, rfl, mul_comm _ _⟩]
    have hcons : At bytes offset ([ofNat f.rows.length] ++ (f.rows.flatten ++ ws)) := h
    exact readAll_rows f.rows_length hcons.advance

/-- The reader up to the records, with the sizes as it finds them. -/
theorem unpackFeature_putWords {records : List (Option (PsaFeature vecLen))}
    (hn : FitsInt (1 + records.length + 3)) (hlabels : labels.Fits)
    (hbytes : bytes = putWords (psaWords records labels)) :
    ∃ offset, At bytes offset (records.flatMap words ++ labels.words) ∧
      unpackFeature mod bytes = unpackArrays mod (records.map (fun r =>
        (BitVec.ofInt 32 (words r).length).toInt) ++ labels.sizes) bytes offset := by
  have h : At bytes 0 (psaWords records labels) := hbytes ▸ at_putWords _
  rw [psaWords] at h
  have hcount : FitsInt records.length := ⟨by omega, by have := hn.2; omega⟩
  obtain ⟨hread₀, h₁⟩ := h.readInts (k := 1) (by simpa using hcount) rfl
  obtain ⟨hread₁, h₂⟩ := h₁.readWrapped (k := records.length + 3) (by simp)
  refine ⟨_, h₂, ?_⟩
  have htoNat : ((records.length : ℤ) + 3).toNat = records.length + 3 := rfl
  simp only [Nat.cast_one, Nat.cast_add, Nat.cast_ofNat, zero_add, mul_one,
    map_append, map_toInt_ofInt hlabels.sizes, List.map_map] at hread₀ hread₁
  simp only [unpackFeature, hread₀, bind_eq_bind, bind_some, head?_cons, hread₁, htoNat]
  rfl

/-- **Features.**  What is read from the bytes of records is the records with their labels,
if the number of rows of each one is a `float` and all sizes fit. -/
theorem unpackFeature_serialize {mod : Bool}
    {records : List (Option (PsaFeature (vecLenOf mod)))} {labels : Labels}
    (hrows : ∀ f, some f ∈ records → ∃ m k, f.rows.length = m * 2 ^ k ∧ m < 2 ^ 24)
    (hn : FitsInt (1 + records.length + 3))
    (hsize : ∀ r ∈ records, FitsInt (words r).length) (hlabels : labels.Fits) :
    (serializeFeaturesPSA (records.map words) labels).bind (unpackFeature mod) =
      some (.ofRecords records labels) := by
  rw [serializeFeaturesPSA_eq labels hn, bind_some]
  obtain ⟨offset, h, hread⟩ := unpackFeature_putWords mod hn hlabels rfl
  have hvec : 0 < vecLenOf mod := by cases mod <;> decide
  have hwrap : records.map (fun r => (BitVec.ofInt 32 (words r).length).toInt) =
      records.map fun r => ((words r).length : ℤ) :=
    map_congr_left fun r hr => toInt_ofInt (hsize r hr)
  obtain ⟨offset', hrecords, h'⟩ := h.readAll_eq fun r hr _ _ =>
    unpackRecord_eq (fun f hf => hrows f (hf ▸ hr)) (hsize r hr) hvec
  have htake : ∀ l : List ℤ, (l ++ labels.sizes).take ((l ++ labels.sizes).length - 3) = l := by
    intro l
    rw [length_append, length_sizes, Nat.add_sub_cancel, take_left]
  rw [hread, hwrap, unpackArrays, htake, hrecords]
  simp only [bind_eq_bind, bind_some, unpackLabels_eq _ hlabels h']
  rfl

def PsaFeature.ofRows (vecLen k : ℕ) (hk : k ≠ 0) : PsaFeature vecLen where
  rows := zeros k vecLen
  rows_ne := by simpa [zeros] using hk
  rows_length := fun _ => length_of_mem_zeros

theorem unpackFeature_ofRows :
    (serializeFeaturesPSA ([some (.ofRows (vecLenOf false) 3 (by decide)), none].map
      words) oneLabel).bind (unpackFeature false) =
        some (.ofRecords [some (.ofRows (vecLenOf false) 3 (by decide)), none] oneLabel) := by
  refine unpackFeature_serialize (fun f hf => ⟨3, 0, ?_, by decide⟩) (by decide)
    (by decide +kernel) ⟨by decide, by decide⟩
  simp only [mem_cons, some.injEq, reduceCtorEq, not_mem_nil, or_false] at hf
  rw [hf]
  rfl

/-- A record on which an assertion of the reader fails. -/
theorem unpackFeature_eq_none {mod : Bool} {f : PsaFeature (vecLenOf mod)} {n : ℕ} {z : ℤ}
    (hvalue : value (ofNat f.rows.length) = some (n : ℚ))
    (hsize : (BitVec.ofInt 32 (words (some f)).length).toInt = z) (hne : z ≠ 0)
    (hlabels : labels.Fits)
    (hfail : ¬ ((z - 1).fdiv n = vecLenOf mod ∧ (z - 1).fdiv n * n = z - 1)) :
    (serializeFeaturesPSA [words (some f)] labels).bind (unpackFeature mod) = none := by
  have hn : FitsInt (1 + [some f].length + 3) := by
    rw [length_singleton]
    decide
  obtain ⟨offset, h, hread⟩ := unpackFeature_putWords mod hn hlabels rfl
  have hrecord : unpackRecord (vecLenOf mod) (putWords (psaWords [some f] labels)) offset z =
      none := by
    rw [flatMap_singleton] at h
    rw [unpackRecord_of_value hvalue hne h, if_neg fun hcheck => hfail hcheck.2]
  have hwrite := serializeFeaturesPSA_eq labels hn
  rw [map_singleton] at hwrite
  rw [hwrite, bind_some, hread, unpackArrays, map_singleton, hsize]
  simp [readAll, hrecord]

/-- A number of rows that is no `float`, and one with a size that is no `int`: an assertion
of the reader fails. -/
theorem unpackFeature_manyRows :
    (serializeFeaturesPSA [words (some (.ofRows (vecLenOf false) 16777217
        (by decide)))] oneLabel).bind (unpackFeature false) = none ∧
      (serializeFeaturesPSA [words (some (.ofRows (vecLenOf false) 268435456
        (by decide)))] oneLabel).bind (unpackFeature false) = none := by
  have hlength : ∀ k (hk : k ≠ 0), (ofRows (vecLenOf false) k hk).rows.length = k :=
    fun _ _ => length_replicate
  have hwords : ∀ k (hk : k ≠ 0),
      (words (some (.ofRows (vecLenOf false) k hk))).length = k * 11 + 1 := by
    intro k hk
    rw [length_words, hlength]
    rfl
  have hlabels : oneLabel.Fits := ⟨by decide, by decide⟩
  constructor
  · refine unpackFeature_eq_none (n := 16777216) (z := 184549388) ?_ ?_ (by decide) hlabels
      (by decide)
    · rw [hlength]
      decide +kernel
    · rw [hwords]
      decide
  · refine unpackFeature_eq_none (n := 268435456) (z := -1342177279) ?_ ?_ (by decide)
      hlabels (by decide)
    · rw [hlength]
      decide +kernel
    · rw [hwords]
      decide

end Pruner.AutoScheduler
