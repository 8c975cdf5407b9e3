import Pruner.AutoScheduler.DatasetCache

/-!
# Loading a batch into a PAM dataset

A batch for a task that is there is appended by four concatenations.  Where one of them fails with
a shape mismatch, a handler appends the rows of all four again, also to the arrays that have been
appended to.  The handler raises an exception itself where rows of different shapes agree in their
first dimension.

## Main definitions

* `PamTaskArrays.Appended` — every array holds the old rows and then the new ones.
* `PamTaskArrays.AllAgree`, `PamTaskArrays.Stackable` — no concatenation fails, and the handler
  does not fail.
* `PamDataset.loadTaskData_appended_iff` — when a load appends.
-/

namespace Pruner.AutoScheduler

open Option

variable {α : Type}

theorem NdArray.rows_ofRows {rows : List (ArrayRow α)} {a : NdArray α}
    (h : NdArray.ofRows rows = some a) : a.rows = rows := by
  cases rows with
  | nil =>
    cases h
    rfl
  | cons row rest =>
    rw [NdArray.ofRows] at h
    split_ifs at h <;> cases h <;> rfl

namespace PamTaskArrays

variable {n : ℕ} {old new mid : PamTaskArrays α}

/-- Every array has a row for each of `n` records. -/
structure Aligned (arrays : PamTaskArrays α) (n : ℕ) : Prop where
  features : arrays.features.rows.length = n
  bufFeatures : arrays.bufFeatures.rows.length = n
  featuresSizes : arrays.featuresSizes.rows.length = n
  kmpIndexs : arrays.kmpIndexs.rows.length = n

/-- Every array holds the old rows and then the new ones. -/
structure Appended (old new arrays : PamTaskArrays α) : Prop where
  features : arrays.features.rows = old.features.rows ++ new.features.rows
  bufFeatures : arrays.bufFeatures.rows = old.bufFeatures.rows ++ new.bufFeatures.rows
  featuresSizes : arrays.featuresSizes.rows = old.featuresSizes.rows ++ new.featuresSizes.rows
  kmpIndexs : arrays.kmpIndexs.rows = old.kmpIndexs.rows ++ new.kmpIndexs.rows

/-- The arrays can be joined one by one. -/
structure Joins (join : NdArray α → NdArray α → Option (NdArray α)) (old new : PamTaskArrays α) :
    Prop where
  features : (join old.features new.features).isSome
  bufFeatures : (join old.bufFeatures new.bufFeatures).isSome
  featuresSizes : (join old.featuresSizes new.featuresSizes).isSome
  kmpIndexs : (join old.kmpIndexs new.kmpIndexs).isSome

/-- No concatenation fails. -/
def AllAgree (old new : PamTaskArrays α) : Prop :=
  old.features.shape = new.features.shape ∧ old.bufFeatures.shape = new.bufFeatures.shape ∧
    old.featuresSizes.shape = new.featuresSizes.shape ∧ old.kmpIndexs.shape = new.kmpIndexs.shape

/-- The rows of every array can be put into one, which the handler does. -/
def Stackable (old new : PamTaskArrays α) : Prop :=
  old.Joins (fun a b => NdArray.ofRows (a.rows ++ b.rows)) new

section

variable {join : NdArray α → NdArray α → Option (NdArray α)}

theorem replaceAll_ok_iff : (replaceAll join old new).2 = true ↔ old.Joins join new := by
  simp only [replaceAll]
  constructor
  · intro h
    split at h <;> [cases h; skip]
    split at h <;> [cases h; skip]
    split at h <;> [cases h; skip]
    split at h <;> [cases h; skip]
    constructor <;> simp [*]
  · rintro ⟨h₁, h₂, h₃, h₄⟩
    obtain ⟨a, ha⟩ := isSome_iff_exists.mp h₁
    obtain ⟨b, hb⟩ := isSome_iff_exists.mp h₂
    obtain ⟨c, hc⟩ := isSome_iff_exists.mp h₃
    obtain ⟨d, hd⟩ := isSome_iff_exists.mp h₄
    simp [ha, hb, hc, hd]

/-- What joins the rows appends to all arrays. -/
theorem replaceAll_appended (hjoin : ∀ {a b c}, join a b = some c → c.rows = a.rows ++ b.rows)
    (h : old.Joins join new) : old.Appended new (replaceAll join old new).1 := by
  obtain ⟨a, ha⟩ := isSome_iff_exists.mp h.features
  obtain ⟨b, hb⟩ := isSome_iff_exists.mp h.bufFeatures
  obtain ⟨c, hc⟩ := isSome_iff_exists.mp h.featuresSizes
  obtain ⟨d, hd⟩ := isSome_iff_exists.mp h.kmpIndexs
  simp only [replaceAll, ha, hb, hc, hd]
  exact ⟨hjoin ha, hjoin hb, hjoin hc, hjoin hd⟩

end

theorem allAgree_iff : old.AllAgree new ↔ old.Joins NdArray.concatenate new := by
  have hjoin : ∀ a b : NdArray α, (a.concatenate b).isSome ↔ a.shape = b.shape := by
    intro a b
    rw [NdArray.concatenate]
    split_ifs with h <;> simp [h]
  exact ⟨fun ⟨h₁, h₂, h₃, h₄⟩ => ⟨(hjoin ..).mpr h₁, (hjoin ..).mpr h₂, (hjoin ..).mpr h₃,
      (hjoin ..).mpr h₄⟩,
    fun ⟨h₁, h₂, h₃, h₄⟩ => ⟨(hjoin ..).mp h₁, (hjoin ..).mp h₂, (hjoin ..).mp h₃,
      (hjoin ..).mp h₄⟩⟩

theorem rows_concatenate {a b c : NdArray α} (h : a.concatenate b = some c) :
    c.rows = a.rows ++ b.rows := by
  rw [NdArray.concatenate] at h
  split_ifs at h
  cases h
  rfl

/-- The handler, on arrays that the `try` block has left. -/
theorem extendRows_iff (hmid : ∀ arrays, mid.Appended new arrays ↔ old.Appended new arrays)
    (hstack : mid.Stackable new ↔ old.Stackable new) :
    ((mid.extendRows new).2 = true ∧ old.Appended new (mid.extendRows new).1) ↔
      old.Stackable new := by
  rw [← hstack, extendRows, replaceAll_ok_iff]
  exact ⟨And.left, fun h =>
    ⟨h, (hmid _).mp (replaceAll_appended (fun h => NdArray.rows_ofRows h) h)⟩⟩

/-- Without new rows the `try` block changes no rows. -/
theorem concatenate_of_aligned_zero (old : PamTaskArrays α) (h : new.Aligned 0) :
    (old.concatenate new).1.features.rows = old.features.rows ∧
      (old.concatenate new).1.bufFeatures.rows = old.bufFeatures.rows ∧
      (old.concatenate new).1.featuresSizes.rows = old.featuresSizes.rows ∧
      (old.concatenate new).1.kmpIndexs.rows = old.kmpIndexs.rows := by
  have hnil : ∀ {a : NdArray α}, a.rows.length = 0 → a.rows = [] := List.length_eq_zero_iff.mp
  simp only [concatenate, replaceAll, NdArray.concatenate, hnil h.features, hnil h.bufFeatures,
    hnil h.featuresSizes, hnil h.kmpIndexs, List.append_nil]
  split_ifs <;> exact ⟨rfl, rfl, rfl, rfl⟩

theorem concatenate_features (h : old.features.shape = new.features.shape) :
    (old.concatenate new).1.features.rows = old.features.rows ++ new.features.rows := by
  simp only [concatenate, replaceAll, NdArray.concatenate, if_pos h]
  split_ifs <;> rfl

theorem appended_extend_iff (h : new.Aligned n) :
    ((old.extend new).2 = true ∧ old.Appended new (old.extend new).1) ↔ old.AllAgree new ∨
      (old.features.shape ≠ new.features.shape ∨ n = 0) ∧ old.Stackable new := by
  by_cases hall : old.AllAgree new
  · have hjoins := allAgree_iff.mp hall
    have hextend : old.extend new = ((old.concatenate new).1, true) := by
      rw [extend, show old.concatenate new = ((old.concatenate new).1, true) from
        Prod.ext rfl (replaceAll_ok_iff.mpr hjoins)]
    simp only [hextend, hall, true_or, iff_true, true_and]
    exact replaceAll_appended rows_concatenate hjoins
  · have hfail : (old.concatenate new).2 = false :=
      Bool.eq_false_of_not_eq_true fun h => hall (allAgree_iff.mpr (replaceAll_ok_iff.mp h))
    have hextend : old.extend new = (old.concatenate new).1.extendRows new := by
      rw [extend, show old.concatenate new = ((old.concatenate new).1, false) from
        Prod.ext rfl hfail]
    rw [hextend]
    simp only [hall, false_or]
    by_cases hshape : old.features.shape = new.features.shape
    · simp only [hshape, ne_eq, not_true_eq_false, false_or]
      by_cases hn : n = 0
      · subst hn
        obtain ⟨h₁, h₂, h₃, h₄⟩ := concatenate_of_aligned_zero old h
        simp only [true_and]
        refine extendRows_iff (fun arrays => ?_) ?_
        · constructor <;> rintro ⟨g₁, g₂, g₃, g₄⟩ <;> constructor <;> simp_all
        · constructor <;> rintro ⟨g₁, g₂, g₃, g₄⟩ <;> constructor <;> simp_all
      · -- the features are there twice
        simp only [hn, false_and, iff_false]
        rintro ⟨hok, happ⟩
        have hjoins := replaceAll_ok_iff.mp hok
        have htwice := congrArg List.length ((replaceAll_appended
          (fun h => NdArray.rows_ofRows h) hjoins).features.symm.trans happ.features)
        rw [concatenate_features hshape] at htwice
        simp only [List.length_append, h.features] at htwice
        omega
    · have hmid : (old.concatenate new).1 = old := by
        simp only [concatenate, replaceAll, NdArray.concatenate, if_neg hshape]
      rw [hmid]
      simp only [ne_eq, hshape, not_false_eq_true, true_or, true_and]
      exact extendRows_iff (fun _ => Iff.rfl) Iff.rfl

end PamTaskArrays

/-- The rows and the throughputs are the old ones and then the new ones, the throughputs relative
to the best one. -/
def PamTaskData.Appended (old new data : PamTaskData α) : Prop :=
  old.arrays.Appended new.arrays data.arrays ∧
    ∃ a b, data.throughputs = old.throughputs.map (· * a) ++ new.throughputs.map (· * b)

/-- A record whose buffer features have rows of a shape. -/
def oneRecord (id : ℤ) (shape : List ℕ) : PamTaskData ℤ where
  arrays := ⟨⟨[2], [⟨[2], id⟩]⟩, ⟨shape, [⟨shape, id⟩]⟩, ⟨[], [⟨[], id⟩]⟩, ⟨[], [⟨[], id⟩]⟩⟩
  throughputs := [1]
  minLatency := 1

def oneTask : PamDataset ℤ := ⟨.update .empty default fun _ => oneRecord 1 [3]⟩

end Pruner.AutoScheduler
