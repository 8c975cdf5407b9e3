import Mathlib.Data.Nat.Digits.Lemmas
import Pruner.Lib.PartialRun

/-!
# The text of a layout

A layout text lists extents and axis names without separators.  The parsers end a name at the next
digit, so that the digits of a name are taken for an extent, and they read an extent into an
`int32_t`.

## Main definitions

* `layoutText` — what `GetOrigLayout` and `GetNewLayout` write.
* `parseLayoutText` — what `ParseKernelLayout` and `parse_auto_scheduler_layout` read.
* `LayoutPiece.Readable` — the pieces that can be read back.
* `parseLayoutText_iff` — which texts are read as they were written.
-/

namespace Pruner.AutoScheduler

open Lib List

/-! ## Parsing -/

/-- The shape and the axis names that a layout text lists. -/
structure KernelLayout where
  shape : List ℤ
  axes : List String
  deriving DecidableEq, Repr

/-- The local variables of the parsing loop. -/
structure LayoutParser where
  shape : List ℤ
  axes : List String
  factor : ℤ
  axis : String

/-- The loop body of the parser.  The factor is of type `int32_t`. -/
def LayoutParser.next (p : LayoutParser) (c : Char) : Option LayoutParser :=
  if 'A' ≤ c ∧ c ≤ 'z' then
    some { p with
      axis := p.axis.push c
      shape := if p.factor ≠ 0 then p.shape ++ [p.factor] else p.shape
      factor := 0 }
  else if '0' ≤ c ∧ c ≤ '9' then
    some { p with
      factor := (p.factor * 10 + (c.toNat - '0'.toNat)).bmod (2 ^ 32)
      axes := if p.axis ≠ "" then p.axes ++ [p.axis] else p.axes
      axis := "" }
  else none

/-- The last axis has no digit after it that would end it. -/
def LayoutParser.finish (p : LayoutParser) : KernelLayout where
  shape := p.shape
  axes := if p.axis ≠ "" then p.axes ++ [p.axis] else p.axes

/-- The parser that `utils.h` and topi's `transform.h` both contain. -/
def parseLayoutText (layout : String) : Option KernelLayout :=
  (layout.toList.foldlM LayoutParser.next ⟨[], [], 0, ""⟩).map LayoutParser.finish

def parseKernelLayout (layout : String) : Option KernelLayout := parseLayoutText layout

def parseAutoSchedulerLayout (layout : String) : Option KernelLayout := parseLayoutText layout

/-! ## Writing -/

def isLetter (c : Char) : Bool := c.isAlpha || c == '_'

/-- An extent and the name of an axis, which is an identifier. -/
structure LayoutPiece where
  extent : ℕ
  axis : String
  extent_pos : 0 < extent
  axis_letter : axis.toList.head?.any isLetter
  axis_chars : ∀ c ∈ axis.toList, isLetter c ∨ c.isDigit

def layoutText (pieces : List LayoutPiece) : String :=
  String.ofList (pieces.flatMap fun p => Nat.toDigits 10 p.extent ++ p.axis.toList)

/-- The layout that the pieces make up. -/
def pieceLayout (pieces : List LayoutPiece) : KernelLayout :=
  ⟨pieces.map (·.extent), pieces.map (·.axis)⟩

theorem pieceLayout_shape_pos (pieces : List LayoutPiece) :
    ∀ e ∈ (pieceLayout pieces).shape, 0 < e := by
  intro e he
  obtain ⟨q, -, rfl⟩ := mem_map.mp he
  exact_mod_cast q.extent_pos

/-- The extent is in the range of `int32_t`, and the name has no digits. -/
def LayoutPiece.Readable (q : LayoutPiece) : Prop :=
  q.extent < 2 ^ 31 ∧ ∀ c ∈ q.axis.toList, ¬ c.isDigit

instance (q : LayoutPiece) : Decidable q.Readable := inferInstanceAs (Decidable (_ ∧ _))

/-! ## Characters -/

variable {c : Char}

theorem range_of_isLetter (h : isLetter c) : 'A' ≤ c ∧ c ≤ 'z' := by
  rw [isLetter, Bool.or_eq_true, beq_iff_eq] at h
  rcases h with h | rfl
  · rcases Bool.or_eq_true_iff.mp h with h | h
    · have hrange : 'A' ≤ c ∧ c ≤ 'Z' := of_decide_eq_true h
      exact ⟨hrange.1, Char.le_trans hrange.2 (by decide)⟩
    · have hrange := Bool.and_eq_true_iff.mp h
      have hlow : 'a' ≤ c := of_decide_eq_true hrange.1
      exact ⟨Char.le_trans (by decide) hlow, of_decide_eq_true hrange.2⟩
  · decide

theorem range_of_isDigit (h : c.isDigit) : ¬ ('A' ≤ c ∧ c ≤ 'z') ∧ '0' ≤ c ∧ c ≤ '9' := by
  simp only [Char.isDigit, Bool.and_eq_true, decide_eq_true_eq, Char.le_def,
    UInt32.le_iff_toNat_le, ge_iff_le] at h ⊢
  simp at h ⊢
  omega

namespace LayoutParser

variable {p : LayoutParser}

theorem next_letter (h : isLetter c) : p.next c = some ⟨if p.factor ≠ 0 then
    p.shape ++ [p.factor] else p.shape, p.axes, 0, p.axis.push c⟩ :=
  if_pos (range_of_isLetter h)

theorem next_digit (h : c.isDigit) : p.next c = some ⟨p.shape, p.finish.axes,
    (p.factor * 10 + (c.toNat - '0'.toNat)).bmod (2 ^ 32), ""⟩ := by
  rw [next, if_neg (range_of_isDigit h).1, if_pos (range_of_isDigit h).2]
  rfl

/-! ## What can be read -/

/-- The extents are in the range of their type, and the names have no digits. -/
structure Narrow (p : LayoutParser) : Prop where
  shape : ∀ e ∈ p.shape, e < 2 ^ 31
  factor : p.factor < 2 ^ 31
  axes : ∀ a ∈ p.axes, ∀ c ∈ a.toList, ¬ c.isDigit
  axis : ∀ c ∈ p.axis.toList, ¬ c.isDigit

theorem Narrow.finish (h : p.Narrow) : ∀ a ∈ p.finish.axes, ∀ c ∈ a.toList, ¬ c.isDigit := by
  rw [LayoutParser.finish]
  split_ifs
  · exact forall_mem_append.mpr ⟨h.axes, forall_mem_singleton.mpr h.axis⟩
  · exact h.axes

theorem Narrow.next (h : p.Narrow) (hc : isLetter c ∨ c.isDigit) :
    ∃ p', p.next c = some p' ∧ p'.Narrow := by
  rcases hc with hc | hc
  · refine ⟨_, next_letter hc, ?_, by simp, h.axes, fun d hd => ?_⟩
    · dsimp only
      split_ifs
      · exact forall_mem_append.mpr ⟨h.shape, forall_mem_singleton.mpr h.factor⟩
      · exact h.shape
    · rw [String.toList_push, mem_append, mem_singleton] at hd
      rcases hd with hd | rfl
      · exact h.axis d hd
      · exact fun hdigit => (range_of_isDigit hdigit).1 (range_of_isLetter hc)
  · exact ⟨_, next_digit hc, h.shape, Int.bmod_lt (by decide), h.finish, by simp⟩

/-! ## Reading a piece -/

theorem foldlM_digits (n : ℕ) (hfactor : p.factor = 0) :
    (Nat.toDigits 10 n).foldlM next p =
      some ⟨p.shape, p.finish.axes, (n : ℤ).bmod (2 ^ 32), ""⟩ := by
  induction n using Nat.strong_induction_on with
  | _ n ih =>
    have hchar : ∀ d < 10, (Nat.digitChar d).isDigit ∧ (Nat.digitChar d).toNat = 48 + d := by
      decide
    rw [Nat.toDigits_eq_if (by decide)]
    split_ifs with hlt
    · rw [foldlM_singleton, next_digit (hchar n hlt).1, (hchar n hlt).2, hfactor]
      simp
    · have hmod := hchar (n % 10) (Nat.mod_lt _ (by decide))
      rw [foldlM_append, ih (n / 10) (by omega), some_bind_eq, foldlM_singleton,
        next_digit hmod.1, hmod.2]
      dsimp only
      rw [← Int.bmod_add_bmod, Int.bmod_mul_bmod, Int.bmod_add_bmod]
      have hn : ((n / 10 : ℕ) : ℤ) * 10 + (((48 + n % 10 : ℕ) : ℤ) - ('0'.toNat : ℤ)) = n := by
        have : '0'.toNat = 48 := rfl
        omega
      rw [hn]
      simp [finish]

theorem foldlM_letters {cs : List Char} (hcs : ∀ c ∈ cs, isLetter c) (hfactor : p.factor = 0) :
    cs.foldlM next p = some ⟨p.shape, p.axes, 0, p.axis ++ String.ofList cs⟩ := by
  induction cs generalizing p with
  | nil => simp [← hfactor]
  | cons c cs ih =>
    rw [foldlM_cons, next_letter (hcs c mem_cons_self), some_bind_eq,
      ih (forall_mem_cons.mp hcs).2 rfl]
    simp [hfactor, String.ext_iff]

theorem foldlM_piece {q : LayoutPiece} (h : q.Readable) (hfactor : p.factor = 0) :
    (Nat.toDigits 10 q.extent ++ q.axis.toList).foldlM next p =
      some ⟨p.shape ++ [(q.extent : ℤ)], p.finish.axes, 0, q.axis⟩ := by
  have hletter := q.axis_letter
  have hcs : ∀ c ∈ q.axis.toList, isLetter c :=
    fun c hc => (q.axis_chars c hc).resolve_right (h.2 c hc)
  have hwrap : (q.extent : ℤ).bmod (2 ^ 32) = q.extent :=
    Int.bmod_eq_of_le (by simp) (by have := h.1; omega)
  cases heq : q.axis.toList with
  | nil => simp [heq] at hletter
  | cons c cs =>
    rw [heq] at hcs
    rw [foldlM_append, foldlM_digits _ hfactor, hwrap, some_bind_eq, foldlM_cons,
      next_letter (hcs c mem_cons_self), some_bind_eq,
      foldlM_letters (forall_mem_cons.mp hcs).2 rfl]
    simp [q.extent_pos.ne', String.ext_iff, heq]

/-- The pieces are appended one after the other. -/
theorem foldlM_pieces {pieces : List LayoutPiece} (h : ∀ q ∈ pieces, q.Readable)
    (hfactor : p.factor = 0) :
    ((pieces.flatMap fun q => Nat.toDigits 10 q.extent ++ q.axis.toList).foldlM next p).map finish =
      some ⟨p.shape ++ pieces.map (fun q => (q.extent : ℤ)),
        p.finish.axes ++ pieces.map (·.axis)⟩ := by
  induction pieces generalizing p with
  | nil => simp [finish]
  | cons q pieces ih =>
    have hne : q.axis ≠ "" := fun hnil => by simpa [hnil] using q.axis_letter
    rw [flatMap_cons, foldlM_append, foldlM_piece (h q mem_cons_self) hfactor, some_bind_eq,
      ih (forall_mem_cons.mp h).2 rfl]
    simp [finish, hne]

end LayoutParser

/-- **Pieces that are readable are read as they were written.** -/
theorem parseLayoutText_layoutText {pieces : List LayoutPiece} (h : ∀ q ∈ pieces, q.Readable) :
    parseLayoutText (layoutText pieces) = some (pieceLayout pieces) := by
  rw [parseLayoutText, layoutText, String.toList_ofList, LayoutParser.foldlM_pieces h rfl]
  rfl

/-- **A layout text is read as it was written**, or not at all, if and only if no name has a digit
and no extent is too large. -/
theorem parseLayoutText_iff (pieces : List LayoutPiece) :
    (parseLayoutText (layoutText pieces) = none ∨ parseLayoutText (layoutText pieces) =
        some ⟨pieces.map (·.extent), pieces.map (·.axis)⟩) ↔
      ∀ q ∈ pieces, q.extent < 2 ^ 31 ∧ ∀ c ∈ q.axis.toList, ¬ c.isDigit := by
  have hchars : ∀ c ∈ pieces.flatMap fun q => Nat.toDigits 10 q.extent ++ q.axis.toList,
      isLetter c ∨ c.isDigit := by
    intro c hc
    obtain ⟨q, -, hc⟩ := mem_flatMap.mp hc
    rcases mem_append.mp hc with hc | hc
    · exact .inr (Nat.isDigit_of_mem_toDigits (by decide) (by decide) hc)
    · exact q.axis_chars c hc
  constructor
  · rw [parseLayoutText, layoutText, String.toList_ofList]
    obtain ⟨p, hp, hnarrow⟩ := exists_foldlM_invariant (s := ⟨[], [], 0, ""⟩)
      LayoutParser.Narrow (fun c hc p h => h.next (hchars c hc)) ⟨by simp, by simp, by simp, by simp⟩
    intro h q hq
    simp only [hp, Option.map_some, reduceCtorEq, false_or, Option.some.injEq] at h
    have hmem : (q.extent : ℤ) ∈ p.finish.shape := h ▸ mem_map_of_mem hq
    have haxis : q.axis ∈ p.finish.axes := h ▸ mem_map_of_mem hq
    exact ⟨by exact_mod_cast hnarrow.shape _ hmem, hnarrow.finish _ haxis⟩
  · exact fun h => .inr (parseLayoutText_layoutText h)

/-- The name `i1` is read as `i`, and its digit goes to the next extent. -/
theorem parseLayoutText_i1 : parseLayoutText (layoutText
      [⟨4, "i1", by decide, by decide, by simp [isLetter]⟩,
        ⟨8, "j", by decide, by decide, by simp [isLetter]⟩]) =
    some ⟨[4, 18], ["i", "j"]⟩ := by
  decide +kernel

end Pruner.AutoScheduler
