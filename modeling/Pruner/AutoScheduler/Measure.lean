import Mathlib.Data.Finset.Insert
import Mathlib.Data.Set.Finite.Lemmas
import Mathlib.Data.Set.Finite.List
import Pruner.AutoScheduler.Record
import Pruner.Lib.Ext

/-!
# The program measurer

`ProgramMeasurerNode` (`measure.cc`) measures programs in batches and remembers, for each
workload, the state with the highest throughput.  The throughput is the number of floating
point operations of the computation divided by the mean cost, and a workload starts with
a best throughput of zero, the default of a new map entry.

Of a measure input only its workload and its state are used, so states are of any type.
The builder and the runner are represented by what they return, one result for each input.
Costs are of type `double`: how a mean and a quotient are rounded is a parameter.

## Main definitions

* `Rounding` — the two operations on doubles.
* `ProgramMeasurer` — the counters and the tables of the best states.
* `ProgramMeasurer.update`, `MeasureCall.apply` — one result, and a call of `Measure`.
* `Fastest`, `BestTracked` — the first program of a workload with minimal cost, and that the
  table holds it.
* `bestTracked_iff` — when it does.
-/

namespace Pruner.AutoScheduler

open Lib List Ext

universe u

def floatArrayMean (floatArray : List ℚ) : ℚ :=
  if floatArray = [] then 0 else floatArray.sum / floatArray.length

/-- How numbers are rounded: the mean of the costs, and a quotient.  The quotients are taken to be
in the range of `double`. -/
structure Rounding where
  mean : List ℚ → ℚ
  round : ℚ → ℚ
  round_zero : round 0 = 0
  round_mono : Monotone round

/-- Without rounding. -/
def Rounding.exact : Rounding := ⟨floatArrayMean, id, rfl, monotone_id⟩

/-- A value, rounded. -/
def Rounding.value (r : Rounding) : Ext ℚ → Ext ℚ
  | .fin x => .fin (r.round x)
  | x => x

/-- What the measurer uses of a `MeasureInput`. -/
structure Program (σ : Type u) where
  workloadKey : String
  state : σ
  deriving DecidableEq

structure Measured (σ : Type u) where
  input : Program σ
  result : MeasureResult

namespace Measured

variable {σ : Type u}

def mean (r : Rounding) (x : Measured σ) : ℚ := r.mean x.result.costs

def NoError (x : Measured σ) : Prop := x.result.errorNo.1 = 0

instance (x : Measured σ) : Decidable x.NoError := inferInstanceAs (Decidable (_ = _))

/-- The throughput; a failed measurement has none. -/
def flops (r : Rounding) (flopCt : ℚ) (x : Measured σ) : Ext ℚ :=
  if x.NoError then r.value (div (.fin flopCt) (.fin (x.mean r))) else .fin 0

/-- A measured program of a workload with a positive cost. -/
def Succeeded (r : Rounding) (key : String) (x : Measured σ) : Prop :=
  x.input.workloadKey = key ∧ x.NoError ∧ 0 < x.mean r

instance (r : Rounding) (key : String) (x : Measured σ) : Decidable (x.Succeeded r key) :=
  inferInstanceAs (Decidable (_ ∧ _))

end Measured

/-- `ProgramMeasurerNode`, without the builder, the runner and the options.  A workload
without entry has the default of its table. -/
structure ProgramMeasurer (σ : Type u) where
  ct : ℕ
  errorCt : ℕ
  bestFlops : String → Ext ℚ
  bestState : String → Option σ
  bestCt : String → ℕ
  hasValid : Finset String

open ProgramMeasurer

def ProgramMeasurer.reset (σ : Type u) : ProgramMeasurer σ where
  ct := 0
  errorCt := 0
  bestFlops := fun _ => .fin 0
  bestState := fun _ => none
  bestCt := fun _ => 0
  hasValid := ∅

namespace ProgramMeasurer

variable {σ : Type u}

/-- Count an error, or remember that the workload has a valid program. -/
def countError (m : ProgramMeasurer σ) (x : Measured σ) : ProgramMeasurer σ :=
  if x.NoError then
    { m with errorCt := 0, hasValid := insert x.input.workloadKey m.hasValid }
  else { m with errorCt := m.errorCt + 1 }

/-- Replace the best state of a workload by one with a higher throughput. -/
def keepBest (m : ProgramMeasurer σ) (r : Rounding) (flopCt : ℚ) (x : Measured σ) : ProgramMeasurer σ :=
  let key := x.input.workloadKey
  if lt (m.bestFlops key) (x.flops r flopCt) then
    { m with
      bestFlops := Function.update m.bestFlops key (x.flops r flopCt)
      bestState := Function.update m.bestState key (some x.input.state)
      bestCt := Function.update m.bestCt key m.ct }
  else m

/-- The loop body over the results of a batch. -/
def update (r : Rounding) (flopCt : ℚ) (m : ProgramMeasurer σ) (x : Measured σ) : ProgramMeasurer σ :=
  let m := (m.countError x).keepBest r flopCt x
  { m with ct := m.ct + 1 }

end ProgramMeasurer

def batchesOf {α : Type u} (size : ℕ) : ℕ → List α → List (List α)
  | 0, _ => []
  | _ + 1, [] => []
  | fuel + 1, l => l.take size :: batchesOf size fuel (l.drop size)

theorem flatten_batchesOf {α : Type u} {size : ℕ} (hsize : 0 < size) :
    ∀ {fuel : ℕ} {l : List α}, l.length ≤ fuel → (batchesOf size fuel l).flatten = l := by
  intro fuel
  induction fuel with
  | zero =>
    intro l h
    exact (length_eq_zero_iff.mp (Nat.le_zero.mp h)).symm
  | succ fuel ih =>
    intro l h
    cases l with
    | nil => rfl
    | cons a l =>
      have hdrop : ((a :: l).drop size).length ≤ fuel := by
        simp only [length_drop, length_cons] at h ⊢
        omega
      rw [batchesOf, flatten_cons, ih hdrop, take_append_drop]
      simp

/-- A call of `Measure` for a task with `flopCt` operations: the inputs with their
results. -/
structure MeasureCall (σ : Type u) where
  flopCt : ℚ
  batchSize : ℕ
  batchSize_pos : 0 < batchSize
  measured : List (Measured σ)

/-- `ProgramMeasurerNode::Measure`. -/
def MeasureCall.applyOn {σ : Type u} (r : Rounding) (m : ProgramMeasurer σ)
    (call : MeasureCall σ) : ProgramMeasurer σ :=
  (batchesOf call.batchSize call.measured.length call.measured).foldl
    (fun m batch => batch.foldl (update r call.flopCt) m) m

/-- `ProgramMeasurerNode::Measure`, with exact numbers. -/
def MeasureCall.apply {σ : Type u} (m : ProgramMeasurer σ) (call : MeasureCall σ) :
    ProgramMeasurer σ :=
  call.applyOn .exact m

/-- The calls of `Measure` after a `Reset`. -/
def measureAll {σ : Type u} (r : Rounding) (calls : List (MeasureCall σ)) : ProgramMeasurer σ :=
  calls.foldl (MeasureCall.applyOn r) (reset σ)

/-- The measured programs, in order. -/
def measuredBy {σ : Type u} (calls : List (MeasureCall σ)) : List (Measured σ) :=
  calls.flatMap (·.measured)

/-! ## What the tables hold -/

variable {σ : Type u} {r : Rounding} {key : String} {f g : ℚ} {log : List (Measured σ)}
  {m : ProgramMeasurer σ} {x : Measured σ}

/-- The tables of a workload after the programs `log`: nothing has had a positive
throughput, or they hold the first program with the highest one. -/
structure ProgramMeasurer.Tracks (r : Rounding) (f : ℚ) (key : String) (log : List (Measured σ))
    (m : ProgramMeasurer σ) : Prop where
  ct : m.ct = log.length
  best : (m.bestState key = none ∧ m.bestFlops key = .fin 0 ∧
      ∀ x ∈ log, x.input.workloadKey = key → lt (.fin 0) (x.flops r f) = false) ∨
    ∃ i x, Ext.FirstMax (·.flops r f) (·.input.workloadKey = key) log i x ∧
      lt (.fin 0) (x.flops r f) = true ∧ m.bestState key = some x.input.state ∧
      m.bestFlops key = x.flops r f ∧ m.bestCt key = i

theorem tracks_reset : (reset σ).Tracks r f key [] where
  ct := rfl
  best := .inl ⟨rfl, rfl, by simp⟩

theorem countError_tables (m : ProgramMeasurer σ) (x : Measured σ) :
    (m.countError x).ct = m.ct ∧ (m.countError x).bestState = m.bestState ∧
      (m.countError x).bestFlops = m.bestFlops ∧ (m.countError x).bestCt = m.bestCt := by
  unfold countError
  split_ifs <;> exact ⟨rfl, rfl, rfl, rfl⟩

/-- A program of the workload with a higher throughput. -/
theorem update_of_lt (hx : lt (m.bestFlops x.input.workloadKey) (x.flops r g) = true) :
    (m.update r g x).ct = m.ct + 1 ∧
      (m.update r g x).bestState x.input.workloadKey = some x.input.state ∧
      (m.update r g x).bestFlops x.input.workloadKey = x.flops r g ∧
      (m.update r g x).bestCt x.input.workloadKey = m.ct := by
  obtain ⟨hct, -, hflops, -⟩ := countError_tables m x
  simp [update, keepBest, hflops, hx, hct]

/-- Another program leaves the tables of a workload alone. -/
theorem update_of_not_lt (hx : x.input.workloadKey = key →
    lt (m.bestFlops key) (x.flops r g) = false) :
    (m.update r g x).ct = m.ct + 1 ∧ (m.update r g x).bestState key = m.bestState key ∧
      (m.update r g x).bestFlops key = m.bestFlops key ∧
      (m.update r g x).bestCt key = m.bestCt key := by
  obtain ⟨hct, hstate, hflops, hbest⟩ := countError_tables m x
  by_cases hkey : x.input.workloadKey = key
  · subst hkey
    simp [update, keepBest, hct, hstate, hflops, hbest, hx rfl]
  · have hne : key ≠ x.input.workloadKey := fun h => hkey h.symm
    simp only [update, keepBest]
    split_ifs <;> simp [hct, hstate, hflops, hbest, hne]

/-- One more result. -/
theorem ProgramMeasurer.Tracks.update (h : m.Tracks r f key log)
    (hg : x.input.workloadKey = key → g = f) : (m.update r g x).Tracks r f key (log ++ [x]) := by
  by_cases hnew : x.input.workloadKey = key ∧ lt (m.bestFlops key) (x.flops r f) = true
  · obtain ⟨rfl, hlt⟩ := hnew
    obtain rfl := hg rfl
    obtain ⟨hct, hstate, hflops, hbest⟩ := update_of_lt hlt
    -- Nothing so far exceeds the best throughput, and that is not negative.
    have hmax : (∀ y ∈ log, y.input.workloadKey = x.input.workloadKey →
        lt (m.bestFlops x.input.workloadKey) (y.flops r g) = false) ∧
        lt (.fin 0) (x.flops r g) = true := by
      rcases h.best with ⟨-, hzero, hnone⟩ | ⟨i, y, hy, hpos, -, hfl, -⟩
      · rw [hzero] at hlt ⊢
        exact ⟨hnone, hlt⟩
      · rw [hfl] at hlt ⊢
        exact ⟨hy.max, lt_trans hpos hlt⟩
    refine ⟨by rw [hct, h.ct, length_append, length_singleton], .inr ?_⟩
    refine ⟨log.length, x, .new hmax.1 rfl hlt, hmax.2, hstate, hflops, ?_⟩
    rw [hbest, h.ct]
  · have hold : x.input.workloadKey = key → lt (m.bestFlops key) (x.flops r g) = false := by
      intro hkey
      rw [hg hkey]
      exact Bool.eq_false_of_not_eq_true fun hlt => hnew ⟨hkey, hlt⟩
    obtain ⟨hct, hstate, hflops, hbest⟩ := update_of_not_lt hold
    refine ⟨by rw [hct, h.ct, length_append, length_singleton], ?_⟩
    rw [hstate, hflops, hbest]
    rcases h.best with ⟨hnone, hzero, hall⟩ | ⟨i, y, hy, hpos, hst, hfl, hi⟩
    · refine .inl ⟨hnone, hzero, fun z hz hkey => ?_⟩
      rcases mem_append.mp hz with hz | hz
      · exact hall z hz hkey
      · obtain rfl := mem_singleton.mp hz
        rw [← hzero, ← hg hkey]
        exact hold hkey
    · refine .inr ⟨i, y, hy.keep fun hkey => ?_, hpos, hst, hfl, hi⟩
      rw [← hfl, ← hg hkey]
      exact hold hkey

/-- A batch or a whole call. -/
theorem ProgramMeasurer.Tracks.foldl {xs : List (Measured σ)} (h : m.Tracks r f key log)
    (hg : ∀ x ∈ xs, x.input.workloadKey = key → g = f) :
    (xs.foldl (ProgramMeasurer.update r g) m).Tracks r f key (log ++ xs) := by
  induction xs generalizing m log with
  | nil => rwa [append_nil]
  | cons x xs ih =>
    have hx := h.update (hg x mem_cons_self)
    have hxs := ih hx (forall_mem_cons.mp hg).2
    rwa [append_assoc] at hxs

theorem MeasureCall.applyOn_eq (call : MeasureCall σ) (m : ProgramMeasurer σ) :
    call.applyOn r m = call.measured.foldl (update r call.flopCt) m := by
  rw [MeasureCall.applyOn, ← foldl_flatten, flatten_batchesOf call.batchSize_pos le_rfl]

theorem tracks_measureAll (f : ℚ) {calls : List (MeasureCall σ)}
    (hf : ∀ call ∈ calls, ∀ x ∈ call.measured, x.input.workloadKey = key → call.flopCt = f) :
    (measureAll r calls).Tracks r f key (measuredBy calls) := by
  suffices h : ∀ {log : List (Measured σ)} {m : ProgramMeasurer σ}, m.Tracks r f key log →
      (calls.foldl (MeasureCall.applyOn r) m).Tracks r f key (log ++ measuredBy calls) by
    exact h tracks_reset
  induction calls with
  | nil =>
    intro log m h
    rwa [measuredBy, flatMap_nil, append_nil]
  | cons call calls ih =>
    intro log m h
    have hcall := h.foldl (hf call mem_cons_self)
    rw [← call.applyOn_eq] at hcall
    have hrest := ih (forall_mem_cons.mp hf).2 hcall
    rwa [append_assoc] at hrest

/-! ## The fastest program -/

/-- The first one of the programs that succeeded with the least mean cost. -/
structure Fastest (r : Rounding) (key : String) (log : List (Measured σ)) (i : ℕ)
    (x : Measured σ) : Prop where
  at_pos : log[i]? = some x
  succeeded : x.Succeeded r key
  least : ∀ y ∈ log, y.Succeeded r key → x.mean r ≤ y.mean r
  first : ∀ j < i, ∀ y, log[j]? = some y → y.Succeeded r key → x.mean r < y.mean r

/-- The tables hold the state and the position of the fastest program. -/
def BestTracked (r : Rounding) (m : ProgramMeasurer σ) (log : List (Measured σ)) (key : String) :
    Prop :=
  ∃ i x, Fastest r key log i x ∧ m.bestState key = some x.input.state ∧ m.bestCt key = i

/-- The throughput of the fastest program is not rounded to zero, nor to that of a program
before it. -/
def Separated (r : Rounding) (f : ℚ) (log : List (Measured σ)) (key : String) : Prop :=
  ∀ i x, Fastest r key log i x → 0 < r.round (f / x.mean r) ∧ ∀ j < i, ∀ y, log[j]? = some y →
    y.Succeeded r key → r.round (f / y.mean r) < r.round (f / x.mean r)

theorem exists_fastest (h : ∃ x ∈ log, x.Succeeded r key) : ∃ i x, Fastest r key log i x := by
  classical
  obtain ⟨x, ⟨hx, hsucc⟩, hmin⟩ := Set.exists_min_image {x | x ∈ log ∧ x.Succeeded r key}
    (Measured.mean r) (log.finite_toSet.subset fun x hx => hx.1) h
  have hex : ∃ i : ℕ, ∃ x : Measured σ, log[i]? = some x ∧ x.Succeeded r key ∧
      ∀ y ∈ log, y.Succeeded r key → x.mean r ≤ y.mean r := by
    obtain ⟨i, hi⟩ := getElem?_of_mem hx
    exact ⟨i, x, hi, hsucc, fun y hy hys => hmin y ⟨hy, hys⟩⟩
  obtain ⟨y, hy, hys, hleast⟩ := Nat.find_spec hex
  refine ⟨Nat.find hex, y, hy, hys, hleast, fun j hj z hz hzs => ?_⟩
  -- a program before it with the same cost would be the first one
  refine (hleast z (mem_of_getElem? hz) hzs).lt_of_ne fun heq => Nat.find_min hex hj ?_
  exact ⟨z, hz, hzs, fun w hw hws => heq ▸ hleast w hw hws⟩

theorem Fastest.unique {i j : ℕ} {y : Measured σ} (h : Fastest r key log i x)
    (h' : Fastest r key log j y) : i = j ∧ x = y := by
  have hle := h.least y (mem_of_getElem? h'.at_pos) h'.succeeded
  have hge := h'.least x (mem_of_getElem? h.at_pos) h.succeeded
  have hij : i = j := by
    obtain hlt | heq | hgt := lt_trichotomy i j
    · exact absurd (h'.first i hlt x h.at_pos h.succeeded) (not_lt.mpr hle)
    · exact heq
    · exact absurd (h.first j hgt y h'.at_pos h'.succeeded) (not_lt.mpr hge)
  subst hij
  exact ⟨rfl, Option.some.inj (h.at_pos.symm.trans h'.at_pos)⟩

theorem flops_of_succeeded (h : x.Succeeded r key) :
    x.flops r f = .fin (r.round (f / x.mean r)) := by
  rw [Measured.flops, if_pos h.2.1, div_fin_of_ne_zero f h.2.2.ne']
  rfl

theorem flops_of_mean_zero (hf : 0 < f) (herr : x.NoError) (hmean : x.mean r = 0) :
    x.flops r f = .posInf := by
  rw [Measured.flops, if_pos herr, hmean, div_fin_zero, infOfSign, if_pos hf]
  rfl

/-- What is rounded to a positive number is positive. -/
theorem Rounding.pos_of_round (h : 0 < r.round f) : 0 < f := by
  by_contra hle
  have hround := r.round_mono (not_lt.mp hle)
  rw [r.round_zero] at hround
  exact absurd h (not_lt.mpr hround)

/-- Only a program that succeeded has a positive throughput, unless a cost is zero. -/
theorem succeeded_of_flops_pos (hf : 0 < f) (hkey : x.input.workloadKey = key)
    (hmean : x.NoError → x.mean r ≠ 0) (hpos : lt (.fin 0) (x.flops r f) = true) :
    x.Succeeded r key := by
  by_cases herr : x.NoError
  · rw [Measured.flops, if_pos herr, div_fin_of_ne_zero f (hmean herr)] at hpos
    have hquot := r.pos_of_round (of_decide_eq_true hpos)
    exact ⟨hkey, herr, (div_pos_iff_of_pos_left hf).mp hquot⟩
  · rw [Measured.flops, if_neg herr] at hpos
    simp at hpos

/-- With a positive number of operations, and throughputs that differ where they have to, the
first one of the highest throughput is the fastest program. -/
theorem ProgramMeasurer.Tracks.bestTracked (h : m.Tracks r f key log) (hf : 0 < f)
    (hmean : ∀ x ∈ log, x.input.workloadKey = key → x.NoError → x.mean r ≠ 0)
    (hsep : Separated r f log key) (hsome : ∃ x ∈ log, x.Succeeded r key) :
    BestTracked r m log key := by
  obtain ⟨k, y, hy⟩ := exists_fastest hsome
  obtain ⟨hround, hbefore⟩ := hsep k y hy
  have hymem := mem_of_getElem? hy.at_pos
  rcases h.best with ⟨-, -, hnone⟩ | ⟨i, x, hx, hpos, hstate, -, hct⟩
  · have hle := hnone y hymem hy.succeeded.1
    rw [flops_of_succeeded hy.succeeded, lt_fin, decide_eq_false_iff_not] at hle
    exact absurd hround hle
  · have hsucc := succeeded_of_flops_pos hf hx.prop
      (hmean x (mem_of_getElem? hx.at_pos) hx.prop) hpos
    have hmax := hx.max y hymem hy.succeeded.1
    have hle := r.round_mono (div_le_div_of_nonneg_left hf.le hy.succeeded.2.2
      (hy.least x (mem_of_getElem? hx.at_pos) hsucc))
    rw [flops_of_succeeded hsucc, flops_of_succeeded hy.succeeded, lt_fin,
      decide_eq_false_iff_not, not_lt] at hmax
    -- neither of the two stands before the other
    obtain hlt | rfl | hgt := lt_trichotomy i k
    · exact absurd (hbefore i hlt x hx.at_pos hsucc) (not_lt.mpr hmax)
    · obtain rfl := Option.some.inj (hx.at_pos.symm.trans hy.at_pos)
      exact ⟨i, x, hy, hstate, hct⟩
    · have hfirst := hx.first k hgt y hy.at_pos hy.succeeded.1
      rw [flops_of_succeeded hsucc, flops_of_succeeded hy.succeeded, le_fin,
        decide_eq_false_iff_not] at hfirst
      exact absurd hle hfirst

/-- **What a program that is tracked shows.** -/
theorem ProgramMeasurer.Tracks.of_bestTracked (h : m.Tracks r f key log)
    (hbest : BestTracked r m log key) :
    0 < f ∧ (∀ x ∈ log, x.input.workloadKey = key → x.NoError → x.mean r ≠ 0) ∧
      Separated r f log key := by
  obtain ⟨i, x, hx, hstate, hi⟩ := hbest
  rcases h.best with ⟨hnone, -, -⟩ | ⟨k, y, hy, hpos, -, -, hk⟩
  · rw [hnone] at hstate
    exact absurd hstate (by simp)
  · obtain rfl : k = i := hk.symm.trans hi
    obtain rfl : y = x := Option.some.inj (hy.at_pos.symm.trans hx.at_pos)
    rw [flops_of_succeeded hx.succeeded, lt_fin, decide_eq_true_iff] at hpos
    have hf : 0 < f := (div_pos_iff_of_pos_right hx.succeeded.2.2).mp (r.pos_of_round hpos)
    refine ⟨hf, fun z hz hkey herr hmean => ?_, fun j z hz => ?_⟩
    · have hmax := hy.max z hz hkey
      rw [flops_of_succeeded hx.succeeded, flops_of_mean_zero hf herr hmean] at hmax
      exact absurd hmax (by simp [lt])
    · obtain ⟨rfl, rfl⟩ := hx.unique hz
      refine ⟨hpos, fun j hj w hw hws => ?_⟩
      have hfirst := hy.first j hj w hw hws.1
      rw [flops_of_succeeded hx.succeeded, flops_of_succeeded hws, le_fin,
        decide_eq_false_iff_not] at hfirst
      exact not_le.mp hfirst

/-- **The best program.**  After any calls of `Measure` for a workload with `f` operations
of which one succeeded, the tables hold the first program with minimal mean cost exactly
when `f` is positive, no error-free result has mean cost zero and rounding does not hide that it
is faster than the programs before it. -/
theorem bestTracked_iff {calls : List (MeasureCall σ)}
    (hf : ∀ call ∈ calls, ∀ x ∈ call.measured, x.input.workloadKey = key → call.flopCt = f)
    (hsome : ∃ x ∈ measuredBy calls, x.Succeeded r key) :
    BestTracked r (measureAll r calls) (measuredBy calls) key ↔
      0 < f ∧
        (∀ x ∈ measuredBy calls, x.input.workloadKey = key → x.NoError → x.mean r ≠ 0) ∧
        Separated r f (measuredBy calls) key := by
  have h := tracks_measureAll (r := r) f hf
  exact ⟨h.of_bestTracked, fun hpos => h.bestTracked hpos.1 hpos.2.1 hpos.2.2 hsome⟩

def timed (costs : List ℚ) : MeasureResult :=
  { costs, errorNo := ⟨0, Lib.fitsInt_zero⟩, allCost := 0, timestamp := 0 }

/-- One call that measures three programs of one workload, in two batches. -/
def threePrograms (flopCt : ℚ) : MeasureCall ℕ where
  flopCt := flopCt
  batchSize := 2
  batchSize_pos := by decide
  measured :=
    [⟨⟨"matmul", 0⟩, timed [3, 5]⟩, ⟨⟨"matmul", 1⟩, timed [2]⟩, ⟨⟨"matmul", 2⟩, timed [2]⟩]

/-- Quotients are rounded down to multiples of one half. -/
def halves : Rounding where
  mean := floatArrayMean
  round := fun x => ⌊x * 2⌋ / 2
  round_zero := by norm_num
  round_mono := by
    intro x y h
    dsimp only
    gcongr

theorem bestTracked_threePrograms : BestTracked halves (measureAll halves [threePrograms 8])
    (measuredBy [threePrograms 8]) "matmul" := by
  refine (bestTracked_iff (f := 8) (fun call hcall x hx hkey => ?_) ?_).mpr ⟨by norm_num, ?_, ?_⟩
  · rw [mem_singleton.mp hcall]
    rfl
  · exact ⟨_, mem_cons_self, rfl, rfl, by decide +kernel⟩
  · decide +kernel
  · -- the second program is the fastest
    have hfast : Fastest halves "matmul" (measuredBy [threePrograms 8]) 1
        ⟨⟨"matmul", 1⟩, timed [2]⟩ :=
      ⟨rfl, by decide +kernel, by decide +kernel, fun j hj y hy _ => by
        obtain rfl : j = 0 := by omega
        cases hy
        decide +kernel⟩
    intro i x hx
    obtain ⟨rfl, rfl⟩ := hfast.unique hx
    refine ⟨by decide +kernel, fun j hj y hy _ => ?_⟩
    obtain rfl : j = 0 := by omega
    cases hy
    decide +kernel

/-- The number of operations is `-1` where it cannot be estimated: then no program is
remembered. -/
theorem not_bestTracked_threePrograms :
    (∃ x ∈ measuredBy [threePrograms (-1)], x.Succeeded .exact "matmul") ∧
      (measureAll .exact [threePrograms (-1)]).bestState "matmul" = none ∧
      ¬ BestTracked .exact (measureAll .exact [threePrograms (-1)])
        (measuredBy [threePrograms (-1)]) "matmul" := by
  have hnone : (measureAll .exact [threePrograms (-1)]).bestState "matmul" = none := by
    decide +kernel
  refine ⟨⟨_, mem_cons_self, rfl, rfl, by decide +kernel⟩, hnone, ?_⟩
  rintro ⟨i, x, -, hstate, -⟩
  rw [hnone] at hstate
  exact absurd hstate (by simp)

end Pruner.AutoScheduler
