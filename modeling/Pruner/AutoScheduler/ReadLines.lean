import Pruner.AutoScheduler.Record

/-!
# Reading the lines of a log file

`ReadLines` reads every line into the same input and the same result, which are copied after each
line.  A member that a line lacks is left as the lines before have set it.

## Main definitions

* `readLines` — the records of a log file.
* `MeasureRecord.orElse` — what a line leaves of the lines before it.
* `readAlone_iff` — which lines are read as if they stood alone.
* `readLines_eq` — what is returned for a whole file.
-/

namespace Pruner.AutoScheduler

open Lib Lib.Json Option

/-- A line of a log file: a comment, which begins with `#` or a blank, or a JSON value. -/
inductive LogLine where
  | comment
  | record (json : Json)

/-- The lines that `ReadNext` does not skip. -/
def LogLine.json : LogLine → Option Json
  | .comment => none
  | .record json => some json

theorem fitsInt_zero : FitsInt 0 := by decide

/-- The result that `make_object` constructs. -/
instance : Inhabited MeasureResult := ⟨⟨[], ⟨0, fitsInt_zero⟩, 0, 0⟩⟩

/-- An input and a result.  The task and the state of an input that no line has set are null. -/
abbrev MeasurePair := Option MeasureInput × MeasureResult

/-- The copies that `ReadLines` makes of the two nodes. -/
def MeasureRecord.copy (record : MeasureRecord) : MeasurePair :=
  (record.inp, record.res.getD default)

variable (reg : TargetRegistry)

/-- `ReadMeasureRecord` into an input and a result.  The log version is a local variable of
`ReadNext`. -/
def readNext (last : MeasureRecord) : Json → Option MeasureRecord
  | .object members => readMembers reg { last with logVersion := none } members
  | _ => none

/-- The loop of `ReadLines`. -/
def readLoop (maxSize : ℤ) : ℤ → MeasureRecord → List MeasurePair → List Json →
    Option (List MeasurePair)
  | _, _, pairs, [] => some pairs
  | skipSize, last, pairs, line :: lines => do
    let last ← readNext reg last line
    if 0 < skipSize then readLoop maxSize (skipSize - 1) last pairs lines
    else
      let pairs := pairs ++ [last.copy]
      if 0 < maxSize ∧ maxSize ≤ pairs.length then some pairs
      else readLoop maxSize skipSize last pairs lines

def readLines (maxSize skipSize : ℤ) (lines : List LogLine) : Option (List MeasurePair) :=
  readLoop reg maxSize skipSize ⟨none, none, none⟩ [] (lines.filterMap LogLine.json)

/-- What a line has set, and the rest from the lines before. -/
def MeasureRecord.orElse (record last : MeasureRecord) : MeasureRecord where
  inp := record.inp.or last.inp
  res := record.res.or last.res
  logVersion := record.logVersion

variable {reg} {maxSize skipSize : ℤ} {last record : MeasureRecord} {json : Json}
  {pairs out : List MeasurePair} {lines : List Json}

theorem readMembers_orElse (record : MeasureRecord) (members : List (String × Json)) :
    readMembers reg (record.orElse last) members =
      (readMembers reg record members).map (·.orElse last) := by
  induction members generalizing record with
  | nil => rfl
  | cons member rest ih =>
    obtain ⟨key, value⟩ := member
    simp only [readMembers]
    split_ifs
    · cases MeasureInput.read reg value with
      | none => rfl
      | some inp => exact ih { record with inp := some inp }
    · cases MeasureResult.read value with
      | none => rfl
      | some res => exact ih { record with res := some res }
    · cases readString value with
      | none => rfl
      | some version => exact ih { record with logVersion := some version }
    · rfl

/-- **What one line does**, whatever the lines before were. -/
theorem readNext_eq (json : Json) :
    readNext reg last json = (readMeasureRecord reg json).map (·.orElse last) := by
  cases json with
  | object members => exact readMembers_orElse ⟨none, none, none⟩ members
  | _ => rfl

/-- The members of a line that has been read. -/
theorem readMembers_isSome {members : List (String × Json)} {start : MeasureRecord}
    (h : readMembers reg start members = some record) :
    (record.inp.isSome ↔ start.inp.isSome ∨ "i" ∈ members.map Prod.fst) ∧
      (record.res.isSome ↔ start.res.isSome ∨ "r" ∈ members.map Prod.fst) := by
  induction members generalizing start with
  | nil =>
    cases h
    simp
  | cons member rest ih =>
    obtain ⟨key, value⟩ := member
    simp only [readMembers] at h
    split_ifs at h with hi hr hv
    · obtain ⟨inp, -, h⟩ := bind_eq_some_iff.mp h
      simp [ih h, hi]
    · obtain ⟨res, -, h⟩ := bind_eq_some_iff.mp h
      simp [ih h, hr]
    · obtain ⟨version, -, h⟩ := bind_eq_some_iff.mp h
      simp [ih h, hv]

/-- One round of the loop. -/
theorem readLoop_cons {line : Json}
    (h : readLoop reg maxSize skipSize last pairs (line :: lines) = some out) :
    ∃ next, readNext reg last line = some next ∧
      (0 < skipSize ∧ readLoop reg maxSize (skipSize - 1) next pairs lines = some out ∨
        skipSize ≤ 0 ∧ (pairs ++ [next.copy] = out ∨
          readLoop reg maxSize skipSize next (pairs ++ [next.copy]) lines = some out)) := by
  obtain ⟨next, hnext, h⟩ := bind_eq_some_iff.mp h
  refine ⟨next, hnext, ?_⟩
  by_cases hskip : 0 < skipSize
  · exact .inl ⟨hskip, by simpa [hskip] using h⟩
  · refine .inr ⟨not_lt.mp hskip, ?_⟩
    dsimp only at h
    split_ifs at h
    · exact .inl (some.inj h)
    · exact .inr h

/-- The pairs that are there stay. -/
theorem readLoop_prefix (h : readLoop reg maxSize skipSize last pairs lines = some out) :
    pairs <+: out := by
  induction lines generalizing skipSize last pairs with
  | nil =>
    cases h
    exact List.prefix_rfl
  | cons line lines ih =>
    obtain ⟨next, -, ⟨-, h⟩ | ⟨-, rfl | h⟩⟩ := readLoop_cons h
    · exact ih h
    · exact List.prefix_append _ _
    · exact (List.prefix_append _ _).trans (ih h)

/-- The pair of a line, by the number of lines before it. -/
theorem readLoop_getElem? {before after : List Json}
    (h : readLoop reg maxSize skipSize last pairs (before ++ json :: after) = some out) {k : ℕ}
    {pair : MeasurePair} (hk : (k : ℤ) + max skipSize 0 = pairs.length + before.length)
    (hskip : skipSize ≤ before.length) (hpair : out[k]? = some pair) :
    ∃ last record : MeasureRecord, readMeasureRecord reg json = some record ∧
      pair = (record.orElse last).copy := by
  induction before generalizing skipSize last pairs with
  | nil =>
    obtain ⟨next, hnext, h⟩ := readLoop_cons h
    rw [readNext_eq, map_eq_some_iff] at hnext
    obtain ⟨record, hrecord, rfl⟩ := hnext
    have hlen : k = pairs.length := by simp at hk hskip; omega
    have hout : pairs ++ [(record.orElse last).copy] <+: out := by
      rcases h with ⟨hpos, -⟩ | ⟨-, h | h⟩
      · simp at hskip
        omega
      · exact h ▸ List.prefix_rfl
      · exact readLoop_prefix h
    obtain ⟨rest, rfl⟩ := hout
    exact ⟨last, record, hrecord, by simpa [hlen] using hpair.symm⟩
  | cons line before ih =>
    rw [List.length_cons] at hk hskip
    obtain ⟨next, -, ⟨hpos, h⟩ | ⟨hle, rfl | h⟩⟩ := readLoop_cons h
    · exact ih h (by omega) (by omega)
    · have hlt := (List.getElem?_eq_some_iff.mp hpair).1
      simp at hlt
      omega
    · exact ih h (by simp; omega) (by omega)

/-- In every file that can be read, the pair of the line is the one it has alone. -/
def ReadAlone (reg : TargetRegistry) (json : Json) : Prop :=
  ∀ (before after : List LogLine) (maxSize skipSize : ℤ) (out : List MeasurePair) (k : ℕ),
    readLines reg maxSize skipSize (before ++ .record json :: after) = some out →
    -- the line is not skipped, and `k` lines before it are not either
    skipSize ≤ (before.filterMap LogLine.json).length →
    (k : ℤ) + max skipSize 0 = (before.filterMap LogLine.json).length →
    ∀ pair, out[k]? = some pair → readLines reg 0 0 [.record json] = some [pair]

theorem readLines_single (h : readMeasureRecord reg json = some record) :
    readLines reg 0 0 [.record json] = some [record.copy] := by
  simp [readLines, readLoop, readNext_eq, h, LogLine.json, MeasureRecord.orElse]

/-- A line before it can set what the line does not. -/
theorem ReadAlone.or_eq (halone : ReadAlone reg json) (first : Json) {f : MeasureRecord}
    (h : readMeasureRecord reg json = some record) (hf : readMeasureRecord reg first = some f) :
    record.inp.or f.inp = record.inp ∧
      (record.res.or f.res).getD default = record.res.getD default := by
  have hpair := halone [.record first] [] 0 0 [f.copy, (record.orElse f).copy] 1
    (by simp [readLines, readLoop, readNext_eq, h, hf, LogLine.json, MeasureRecord.orElse])
    (by simp [LogLine.json]) (by simp [LogLine.json]) _ rfl
  rw [readLines_single h] at hpair
  exact (Prod.mk.inj (List.cons.inj (some.inj hpair)).1).imp Eq.symm Eq.symm

/-- The result of a program that has failed after eight seconds. -/
def failedRun : Json := .array [.array [.double (1 / 2)], .int 2, .int 8, .int 2]

/-- **A line is read as if it stood alone** if and only if it has an input and a result. -/
theorem readAlone_iff {members : List (String × Json)}
    (hreg : ∃ value, (MeasureInput.read reg value).isSome)
    (hline : (readMeasureRecord reg (.object members)).isSome) :
    ReadAlone reg (.object members) ↔ "i" ∈ members.map Prod.fst ∧ "r" ∈ members.map Prod.fst := by
  obtain ⟨record, hrecord⟩ := isSome_iff_exists.mp hline
  obtain ⟨hi, hr⟩ := readMembers_isSome hrecord
  simp only [isSome_none, Bool.false_eq_true, false_or] at hi hr
  rw [← hi, ← hr]
  constructor
  · intro halone
    obtain ⟨value, hvalue⟩ := hreg
    obtain ⟨inp, hinp⟩ := isSome_iff_exists.mp hvalue
    have hi := (halone.or_eq (.object [("i", value)]) (f := ⟨some inp, none, none⟩) hrecord
      (by simp [readMeasureRecord, readMembers, hinp])).1
    have hr := (halone.or_eq (.object [("r", failedRun)])
      (f := ⟨none, some ⟨[1 / 2], ⟨2, by decide⟩, 8, 2⟩, none⟩) hrecord rfl).2
    refine ⟨hi ▸ by simp, ?_⟩
    -- without a result the line alone has no costs
    cases hres : record.res with
    | some res => rfl
    | none =>
      rw [hres] at hr
      cases congrArg MeasureResult.costs hr
  · rintro ⟨hi, hr⟩ before after maxSize skipSize out k hout hskip hk pair hpair
    rw [readLines, List.filterMap_append] at hout
    obtain ⟨last, _, hread, rfl⟩ := readLoop_getElem? hout (by simpa using hk) hskip hpair
    cases hrecord.symm.trans hread
    rw [readLines_single hrecord, MeasureRecord.copy, MeasureRecord.copy, MeasureRecord.orElse,
      or_of_isSome hi, or_of_isSome hr]

/-- An input without steps. -/
def noSteps : Json := .array [.array [.str "matmul", .str "llvm"], .array [.array [], .array []]]

theorem readAlone_inputAndResult :
    ReadAlone llvmRegistry (.object [("r", failedRun), ("i", noSteps)]) :=
  (readAlone_iff ⟨noSteps, by decide +kernel⟩ (by decide +kernel)).mpr (by simp)

/-- The second line has no result, and gets that of the first. -/
theorem readLines_result_kept : (readLines llvmRegistry 0 0 [.record (.object [("r", failedRun)]),
      .record (.object [])]).map (·.map fun pair => (pair.2.costs, pair.2.errorNo.1)) =
        some [([1 / 2], 2), ([1 / 2], 2)] ∧
    (readLines llvmRegistry 0 0 [.record (.object [])]).map
      (·.map fun pair => (pair.2.costs, pair.2.errorNo.1)) = some [([], 0)] := by
  decide +kernel

/-! ## All lines -/

/-- What the reader holds after each line. -/
def MeasureRecord.carried : MeasureRecord → List MeasureRecord → List MeasurePair
  | _, [] => []
  | last, record :: records =>
    (record.orElse last).copy :: (record.orElse last).carried records

/-- The lines up to the last one that is asked for. -/
def askedLines (maxSize skipSize : ℤ) (lines : List Json) : List Json :=
  if 0 < maxSize then lines.take (skipSize.toNat + maxSize.toNat) else lines

/-- The loop reads `n` lines more: those to skip and those that are missing, or all. -/
theorem readLoop_eq {n : ℕ}
    (hmax : 0 < maxSize → pairs.length < maxSize ∧ n + pairs.length = skipSize.toNat + maxSize)
    (hall : maxSize ≤ 0 → lines.length ≤ n) :
    readLoop reg maxSize skipSize last pairs lines =
      ((lines.take n).mapM (readMeasureRecord reg)).map fun records =>
        pairs ++ (last.carried records).drop skipSize.toNat := by
  induction lines generalizing skipSize last pairs n with
  | nil => simp [readLoop, MeasureRecord.carried]
  | cons line lines ih =>
    rw [List.length_cons] at hall
    obtain ⟨n, rfl⟩ : ∃ k, n = k + 1 := Nat.exists_eq_add_one.mpr (by omega)
    rw [List.take_succ_cons, List.mapM_cons, readLoop, readNext_eq]
    cases readMeasureRecord reg line with
    | none => rfl
    | some record =>
      simp only [map_some, some_bind_eq]
      split_ifs with hskip hfull
      · have hdrop : skipSize.toNat = (skipSize - 1).toNat + 1 := by omega
        rw [ih (n := n) (by omega) (by omega), hdrop]
        cases (lines.take n).mapM (readMeasureRecord reg) <;> rfl
      · -- enough lines have been read
        have hn : n = 0 ∧ skipSize.toNat = 0 := by
          simp at hfull
          omega
        simp [hn, MeasureRecord.carried]
      · rw [ih (n := n) (by simp at hfull ⊢; omega) (by omega)]
        have hzero : skipSize.toNat = 0 := by omega
        cases (lines.take n).mapM (readMeasureRecord reg) <;> simp [MeasureRecord.carried, hzero]

/-- **What `ReadLines` returns**: if all the lines up to the last one asked for can be read, what
the reader holds after each of them but the skipped ones, and otherwise nothing. -/
theorem readLines_eq (maxSize skipSize : ℤ) (lines : List LogLine) :
    readLines reg maxSize skipSize lines =
      ((askedLines maxSize skipSize (lines.filterMap LogLine.json)).mapM
        (readMeasureRecord reg)).map fun records =>
          (MeasureRecord.carried ⟨none, none, none⟩ records).drop skipSize.toNat := by
  rw [readLines, askedLines]
  split_ifs with hpos
  · exact readLoop_eq (by simp; omega) (by omega)
  · rw [readLoop_eq (by omega) fun _ => le_rfl, List.take_length]
    rfl

end Pruner.AutoScheduler
