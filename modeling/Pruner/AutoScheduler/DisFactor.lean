import Pruner.AutoScheduler.Dispatcher

/-!
# The distance factor of two workloads

Records of a compatible workload are ranked by their cost times a distance factor, a product over
the arguments.  The factor of two integers is their quotient, which is negative where their signs
differ; and an integer that meets a text raises a `TypeError`.

## Main definitions

* `workloadDisFactor` — `calc_workload_dis_factor` of two pairs of a name and arguments.
* `argFactor` — what the loop does at one pair of arguments.
* `AtLeastOne` — infinite, or no less than 1.
* `workloadDisFactor_iff` — when the factor is at least 1, and when it is multiplicative.
-/

namespace Pruner.AutoScheduler

open List Option

/-- A name with arguments, which are scalars: `decode_workload_key` flattens lists, and a workload
with a dictionary among its arguments cannot be looked up. -/
structure WorkloadPair where
  key : PyKey
  argValues : Option (List JsonValue)
  scalars : ∀ v ∈ argValues.getD [], v.pyKey.isSome

def WorkloadPair.args (w : WorkloadPair) : List JsonValue := w.argValues.getD []

/-- `calc_workload_dis_factor`; the inner `none` is infinite. -/
def workloadDisFactor (target workload : WorkloadPair) : Option (Option ℚ) :=
  if workload.key ≠ target.key then some none
  else calcWorkloadDisFactor target.argValues workload.argValues

/-- The value of an `int`, of which `bool` is a subclass. -/
def JsonValue.intValue : JsonValue → Option ℚ
  | .int v => some v
  | .bool b => some (if b then 1 else 0)
  | _ => none

def numFactor (v x : ℚ) : Option ℚ :=
  if v = 0 ∨ x = 0 then if v ≠ x then none else some 1
  else if v - x * ⌊v / x⌋ ≠ 0 then none else some (v / x)

/-- The loop of `calc_workload_dis_factor` at one pair of arguments. -/
def argFactor (t a : JsonValue) : Option (Option ℚ) :=
  match t.intValue with
  | some v =>
    match a.pyKey with
    | some (.num x) => some (numFactor v x)
    | _ => if v = 0 then some none else none
  | none => if t.pyKey ≠ a.pyKey then some none else some (some 1)

/-- An integer other than 0 meets something that is no number. -/
def Clash (p : JsonValue × JsonValue) : Prop :=
  ∃ v, p.1.intValue = some v ∧ v ≠ 0 ∧ ∀ x, p.2.pyKey ≠ some (.num x)

/-- The target argument is a multiple of the other one, or equal to it where one of them is 0 or
the target argument is no integer. -/
def ArgFits (p : JsonValue × JsonValue) : Prop :=
  match p.1.intValue with
  | some v => ∃ x, p.2.pyKey = some (.num x) ∧ (∃ k : ℤ, v = x * k) ∧ (v = 0 → x = 0)
  | none => p.1.pyKey = p.2.pyKey

/-- An integer meets a number of the other sign. -/
def opposite (p : JsonValue × JsonValue) : Bool :=
  match p.1.intValue, p.2.pyKey with
  | some v, some (.num x) => v * x < 0
  | _, _ => false

/-- A clash comes before all arguments that do not fit. -/
def ClashFirst : List (JsonValue × JsonValue) → Prop
  | [] => False
  | p :: l => Clash p ∨ ArgFits p ∧ ClashFirst l

/-- Infinite, or no less than 1: the cost of a record does not get smaller. -/
def AtLeastOne (r : Option (Option ℚ)) : Prop :=
  ∃ f, r = some f ∧ ∀ d ∈ f, 1 ≤ d ∧ ∀ cost : ℚ, 0 ≤ cost → cost ≤ cost * d

/-! ## One pair of arguments -/

/-- One round of the loop. -/
theorem disFactorLoop_cons (t a : JsonValue) (ts as : List JsonValue) (d : ℚ) :
    disFactorLoop (t :: ts) (a :: as) d = (argFactor t a).bind fun
      | none => some none
      | some f => disFactorLoop ts as (d * f) := by
  have hloop : disFactorLoop (t :: ts) (a :: as) d = match t.intValue with
      | some v =>
        match a.pyKey with
        | some (.num x) =>
          if v = 0 ∨ x = 0 then if v ≠ x then some none else disFactorLoop ts as d
          else if v - x * ⌊v / x⌋ ≠ 0 then some none else disFactorLoop ts as (d * (v / x))
        | _ => if v = 0 then some none else none
      | none => if t.pyKey ≠ a.pyKey then some none else disFactorLoop ts as d := by
    cases t <;> rfl
  rw [hloop, argFactor]
  split
  · split
    · rw [numFactor]
      split_ifs <;> simp
    · split_ifs <;> simp
  · split_ifs <;> simp

/-- The factor of two numbers is an integer other than 0. -/
theorem numFactor_eq_some_iff {v x f : ℚ} : numFactor v x = some f ↔
    ∃ k : ℤ, k ≠ 0 ∧ f = k ∧ v = x * k ∧ (v = 0 → x = 0 ∧ k = 1) := by
  rw [numFactor]
  constructor
  · split_ifs with hzero hne hmod
    · exact nofun
    · rintro ⟨⟩
      exact ⟨1, by grind⟩
    · exact nofun
    · rintro ⟨⟩
      obtain ⟨hv, hx⟩ := not_or.mp hzero
      have hmul : v = x * ⌊v / x⌋ := sub_eq_zero.mp (not_not.mp hmod)
      refine ⟨⌊v / x⌋, ?_, (div_eq_iff hx).mpr (hmul.trans (mul_comm _ _)), hmul,
        fun h => (hv h).elim⟩
      intro h
      exact hv (by rw [hmul, h]; simp)
  · rintro ⟨k, hk, rfl, rfl, hone⟩
    by_cases hx : x = 0
    · simp_all
    · have hk' : (k : ℚ) ≠ 0 := Int.cast_ne_zero.mpr hk
      simp [hx, hk', mul_div_cancel_left₀]

variable {t a : JsonValue} {v f : ℚ}

theorem argFactor_int (hv : t.intValue = some v) : argFactor t a = some (some f) ↔
    ∃ x, a.pyKey = some (.num x) ∧ numFactor v x = some f := by
  simp only [argFactor, hv]
  split
  · simp_all
  · rename_i hne
    have hnot : ¬ ∃ x, a.pyKey = some (.num x) ∧ numFactor v x = some f :=
      fun ⟨x, hx, _⟩ => hne x hx
    split_ifs <;> simp [hnot]

theorem argFactor_not_int (hv : t.intValue = none) : argFactor t a = some (some f) ↔
    t.pyKey = a.pyKey ∧ f = 1 := by
  simp only [argFactor, hv]
  split_ifs with h
  · simp_all
  · simp_all [eq_comm]

theorem argFactor_eq_none : argFactor t a = none ↔ Clash (t, a) := by
  rw [argFactor, Clash]
  split
  · rename_i v hv
    split
    · simp_all
    · rename_i hne
      have hnot : ∀ x, a.pyKey ≠ some (.num x) := fun x hx => hne x hx
      simp [hv, hnot]
  · rename_i hv
    split_ifs <;> simp [hv]

theorem exists_argFactor : (∃ f, argFactor t a = some (some f)) ↔ ArgFits (t, a) := by
  rw [ArgFits]
  cases hv : t.intValue with
  | none => simp [argFactor_not_int hv]
  | some v =>
    simp only [argFactor_int hv, numFactor_eq_some_iff]
    constructor
    · rintro ⟨f, x, hx, k, -, -, hk, hzero⟩
      exact ⟨x, hx, ⟨k, hk⟩, fun h => (hzero h).1⟩
    · rintro ⟨x, hx, ⟨k, hk⟩, hzero⟩
      by_cases hv0 : v = 0
      · exact ⟨1, x, hx, 1, by simp [hzero hv0, hv0]⟩
      · exact ⟨k, x, hx, k, by rintro rfl; simp [hv0] at hk, rfl, hk, fun h => (hv0 h).elim⟩

theorem argFactor_sign (h : argFactor t a = some (some f)) :
    ∃ k : ℤ, f = k ∧ k ≠ 0 ∧ (k < 0 ↔ opposite (t, a) = true) := by
  cases hv : t.intValue with
  | none =>
    obtain ⟨-, rfl⟩ := (argFactor_not_int hv).mp h
    exact ⟨1, by simp [opposite, hv]⟩
  | some v =>
    obtain ⟨x, hx, hf⟩ := (argFactor_int hv).mp h
    obtain ⟨k, hk, rfl, rfl, hzero⟩ := numFactor_eq_some_iff.mp hf
    refine ⟨k, rfl, hk, ?_⟩
    simp only [opposite, hv, hx, decide_eq_true_eq]
    by_cases hx0 : x = 0
    · simp [hx0, (hzero (by simp [hx0])).2]
    · have hsq : 0 < x * x := mul_self_pos.mpr hx0
      rw [mul_right_comm, ← Int.cast_lt_zero (R := ℚ)]
      exact ⟨mul_neg_of_pos_of_neg hsq, fun h => neg_of_mul_neg_right h hsq.le⟩

/-! ## The loop -/

/-- **The loop** raises at a clash, is infinite where an argument does not fit, and otherwise
gives a product of integers whose sign is that of the number of opposite signs. -/
theorem disFactorLoop_cases (ts as : List JsonValue) (d : ℚ) :
    (disFactorLoop ts as d = none ∧ ClashFirst (ts.zip as)) ∨
    (disFactorLoop ts as d = some none ∧ ¬ ClashFirst (ts.zip as) ∧ ∃ p ∈ ts.zip as, ¬ ArgFits p) ∨
    ∃ k : ℤ, disFactorLoop ts as d = some (some (d * k)) ∧ k ≠ 0 ∧ ¬ ClashFirst (ts.zip as) ∧
      (∀ p ∈ ts.zip as, ArgFits p) ∧ (0 < k ↔ Even ((ts.zip as).countP opposite)) := by
  induction ts generalizing as d with
  | nil => exact .inr (.inr ⟨1, by simp [disFactorLoop, ClashFirst]⟩)
  | cons t ts ih =>
    cases as with
    | nil => exact .inr (.inr ⟨1, by simp [disFactorLoop, ClashFirst]⟩)
    | cons a as =>
      simp only [disFactorLoop_cons, zip_cons_cons, ClashFirst, ← exists_argFactor,
        ← argFactor_eq_none, exists_mem_cons_iff, forall_mem_cons, countP_cons]
      rcases h : argFactor t a with _ | _ | f
      · exact .inl ⟨rfl, .inl rfl⟩
      · exact .inr (.inl ⟨rfl, by simp, by simp⟩)
      · obtain ⟨k, rfl, hk, hsign⟩ := argFactor_sign h
        rcases ih as (d * k) with ⟨hl, hc⟩ | ⟨hl, hc⟩ | ⟨l, hl, hl0, hc, hall, heven⟩
        · exact .inl ⟨hl, by simp [hc]⟩
        · exact .inr (.inl ⟨hl, by simp [hc], .inr hc.2⟩)
        · refine .inr (.inr ⟨k * l, by simp [hl, mul_assoc], mul_ne_zero hk hl0, by simp [hc],
            ⟨⟨k, rfl⟩, hall⟩, ?_⟩)
          by_cases hopp : opposite (t, a) = true
          · have hneg := hsign.mpr hopp
            rw [if_pos hopp, Nat.even_add_one, ← heven, mul_pos_iff]
            omega
          · have hpos : 0 < k := by
              have := mt hsign.mp hopp
              omega
            rw [if_neg hopp, add_zero, ← heven]
            exact mul_pos_iff_of_pos_left hpos

/-! ## Three workloads -/

/-- The arguments of three workloads: where the second one is an integer, the first one is too, or
is equal to the third one. -/
def Chained : List JsonValue → List JsonValue → List JsonValue → Prop
  | t :: ts, u :: us, w :: ws =>
    (t.intValue = none → u.intValue.isSome → t.pyKey = w.pyKey) ∧ Chained ts us ws
  | _, _, _ => True

theorem JsonValue.pyKey_of_intValue (hv : t.intValue = some v) : t.pyKey = some (.num v) := by
  cases t <;> simp_all [JsonValue.intValue, JsonValue.pyKey]

theorem argFactor_mul {u w : JsonValue} {g : ℚ} (hf : argFactor t u = some (some f))
    (hg : argFactor u w = some (some g))
    (h : t.intValue = none → u.intValue.isSome → t.pyKey = w.pyKey) :
    argFactor t w = some (some (f * g)) := by
  cases ht : t.intValue with
  | none =>
    obtain ⟨htu, rfl⟩ := (argFactor_not_int ht).mp hf
    rw [argFactor_not_int ht, one_mul]
    cases hu : u.intValue with
    | none =>
      obtain ⟨huw, rfl⟩ := (argFactor_not_int hu).mp hg
      exact ⟨htu.trans huw, rfl⟩
    | some x =>
      have htw := h ht (by simp [hu])
      obtain ⟨y, hy, hnum⟩ := (argFactor_int hu).mp hg
      obtain ⟨k, -, rfl, hk, hzero⟩ := numFactor_eq_some_iff.mp hnum
      obtain rfl : x = y := by
        simpa using (JsonValue.pyKey_of_intValue hu).symm.trans (htu.symm.trans (htw.trans hy))
      refine ⟨htw, ?_⟩
      by_cases hx : x = 0
      · simp [(hzero hx).2]
      · exact mul_left_cancel₀ hx (by rw [← hk, mul_one])
  | some v =>
    obtain ⟨x, hx, hnum⟩ := (argFactor_int ht).mp hf
    rw [argFactor_int ht]
    cases hu : u.intValue with
    | none =>
      obtain ⟨huw, rfl⟩ := (argFactor_not_int hu).mp hg
      exact ⟨x, huw ▸ hx, by rwa [mul_one]⟩
    | some x' =>
      obtain rfl : x' = x := by simpa [JsonValue.pyKey_of_intValue hu] using hx
      obtain ⟨y, hy, hnum'⟩ := (argFactor_int hu).mp hg
      refine ⟨y, hy, ?_⟩
      obtain ⟨k, hk, rfl, rfl, hzero⟩ := numFactor_eq_some_iff.mp hnum
      obtain ⟨l, hl, rfl, rfl, hzero'⟩ := numFactor_eq_some_iff.mp hnum'
      refine numFactor_eq_some_iff.mpr ⟨k * l, mul_ne_zero hk hl, by simp, by simp; ring, ?_⟩
      intro h0
      obtain ⟨hx0, rfl⟩ := hzero h0
      obtain ⟨hy0, rfl⟩ := hzero' hx0
      exact ⟨hy0, rfl⟩

theorem disFactorLoop_scale (ts as : List JsonValue) (d : ℚ) :
    disFactorLoop ts as d = (disFactorLoop ts as 1).map (Option.map (d * ·)) := by
  induction ts generalizing as d with
  | nil => simp [disFactorLoop]
  | cons t ts ih =>
    cases as with
    | nil => simp [disFactorLoop]
    | cons a as =>
      rw [disFactorLoop_cons, disFactorLoop_cons]
      rcases argFactor t a with _ | _ | f
      · rfl
      · rfl
      · simp only [bind_some, ih as (d * f), ih as (1 * f), Option.map_map]
        congr 1
        funext r
        simp [Function.comp_def, mul_assoc]

/-- Where the loop ends, it has multiplied the factors. -/
theorem disFactorLoop_cons_eq_some {ts as : List JsonValue} {r : ℚ} :
    disFactorLoop (t :: ts) (a :: as) 1 = some (some r) ↔
      ∃ f g, argFactor t a = some (some f) ∧ disFactorLoop ts as 1 = some (some g) ∧ r = f * g := by
  rw [disFactorLoop_cons]
  rcases argFactor t a with _ | _ | f
  · simp
  · simp
  · simp only [bind_some, one_mul]
    rw [disFactorLoop_scale]
    simp [eq_comm]

theorem disFactorLoop_mul {ts us ws : List JsonValue} {d e : ℚ} (hlen : ts.length = us.length)
    (hlen' : us.length = ws.length) (hd : disFactorLoop ts us 1 = some (some d))
    (he : disFactorLoop us ws 1 = some (some e)) :
    disFactorLoop ts ws 1 = some (some (d * e)) ↔ Chained ts us ws := by
  induction ts generalizing us ws d e with
  | nil =>
    obtain rfl := length_eq_zero_iff.mp hlen.symm
    obtain rfl := length_eq_zero_iff.mp hlen'.symm
    cases hd
    cases he
    simp [Chained, disFactorLoop]
  | cons t ts ih =>
    obtain ⟨u, us, rfl⟩ := exists_cons_of_length_eq_add_one hlen.symm
    obtain ⟨w, ws, rfl⟩ := exists_cons_of_length_eq_add_one hlen'.symm
    obtain ⟨f, d, hf, hd', rfl⟩ := disFactorLoop_cons_eq_some.mp hd
    obtain ⟨g, e, hg, he', rfl⟩ := disFactorLoop_cons_eq_some.mp he
    have ih := ih (by simpa using hlen) (by simpa using hlen') hd' he'
    rw [disFactorLoop_cons_eq_some, Chained, ← ih]
    constructor
    · rintro ⟨r, q, hr, hq, heq⟩
      have hchain : t.intValue = none → u.intValue.isSome → t.pyKey = w.pyKey :=
        fun ht _ => ((argFactor_not_int ht).mp hr).1
      refine ⟨hchain, ?_⟩
      cases hr.symm.trans (argFactor_mul hf hg hchain)
      have hfg : f * g ≠ 0 := by
        obtain ⟨k, hk, hk0, -⟩ := argFactor_sign hr
        simpa [hk] using hk0
      rw [hq, mul_left_cancel₀ hfg (heq.symm.trans (mul_mul_mul_comm f d g e))]
    · rintro ⟨hchain, hrest⟩
      exact ⟨_, _, argFactor_mul hf hg hchain, hrest, mul_mul_mul_comm f d g e⟩

theorem disFactorLoop_self (ts : List JsonValue) : disFactorLoop ts ts 1 = some (some 1) := by
  induction ts with
  | nil => rfl
  | cons t ts ih =>
    refine disFactorLoop_cons_eq_some.mpr ⟨1, 1, ?_, ih, (one_mul 1).symm⟩
    cases ht : t.intValue with
    | none => exact (argFactor_not_int ht).mpr ⟨rfl, rfl⟩
    | some v =>
      refine (argFactor_int ht).mpr ⟨v, JsonValue.pyKey_of_intValue ht, ?_⟩
      exact numFactor_eq_some_iff.mpr ⟨1, one_ne_zero, by simp, by simp, fun h => ⟨h, rfl⟩⟩

theorem workloadDisFactor_eq (a b : WorkloadPair) :
    workloadDisFactor a b = if b.key ≠ a.key ∨ a.args.length ≠ b.args.length then some none
      else disFactorLoop a.args b.args 1 := by
  rw [workloadDisFactor, ite_or]
  rfl

theorem workloadDisFactor_eq_some_iff {a b : WorkloadPair} {d : ℚ} :
    workloadDisFactor a b = some (some d) ↔ b.key = a.key ∧ a.args.length = b.args.length ∧
      disFactorLoop a.args b.args 1 = some (some d) := by
  rw [workloadDisFactor_eq]
  split_ifs with hne
  · simp only [some.injEq, reduceCtorEq, false_iff]
    exact fun ⟨hkey, hlen, _⟩ => hne.elim (· hkey) (· hlen)
  · simp_all

/-- **The distance factor.**  It is infinite or at least 1 where no clash is reached and, if all
arguments fit, an even number of them have opposite signs.  A workload has the factor 1 to itself,
and finite factors are multiplicative where the arguments are chained. -/
theorem workloadDisFactor_iff (a : WorkloadPair) :
    (∀ b : WorkloadPair, AtLeastOne (workloadDisFactor a b) ↔
      (b.key = a.key → a.args.length = b.args.length → ¬ ClashFirst (a.args.zip b.args) ∧
        ((∀ p ∈ a.args.zip b.args, ArgFits p) → Even ((a.args.zip b.args).countP opposite)))) ∧
    workloadDisFactor a a = some (some 1) ∧
    ∀ b c d e, workloadDisFactor a b = some (some d) → workloadDisFactor b c = some (some e) →
      (workloadDisFactor a c = some (some (d * e)) ↔ Chained a.args b.args c.args) := by
  refine ⟨fun b => ?_, ?_, fun b c d e hd he => ?_⟩
  · rw [workloadDisFactor_eq]
    split_ifs with hne
    · exact iff_of_true ⟨none, rfl, by simp⟩ fun hname hlen => by simp_all
    · simp only [not_or, not_not] at hne
      simp only [hne.1, hne.2, true_implies]
      rcases disFactorLoop_cases a.args b.args 1 with
        ⟨hr, hc⟩ | ⟨hr, hc, p, hp, hfits⟩ | ⟨k, hr, hk, hc, hall, heven⟩
      · simp [AtLeastOne, hr, hc]
      · exact iff_of_true ⟨none, hr, by simp⟩ ⟨hc, fun h => (hfits (h p hp)).elim⟩
      · rw [hr, one_mul, ← heven]
        constructor
        · rintro ⟨f, ⟨⟩, hf⟩
          exact ⟨hc, fun _ => Int.cast_pos.mp (zero_lt_one.trans_le (hf _ rfl).1)⟩
        · rintro ⟨-, hpos⟩
          have hone : (1 : ℚ) ≤ k := by exact_mod_cast hpos hall
          refine ⟨_, rfl, ?_⟩
          rintro _ ⟨⟩
          exact ⟨hone, fun cost hcost => le_mul_of_one_le_right hcost hone⟩
  · exact workloadDisFactor_eq_some_iff.mpr ⟨rfl, rfl, disFactorLoop_self _⟩
  · obtain ⟨hname, hlen, hd⟩ := workloadDisFactor_eq_some_iff.mp hd
    obtain ⟨hname', hlen', he⟩ := workloadDisFactor_eq_some_iff.mp he
    rw [workloadDisFactor_eq_some_iff, disFactorLoop_mul hlen hlen' hd he]
    simp [hname, hname', hlen, hlen']

/-- Two integers of different signs. -/
theorem workloadDisFactor_negative :
    workloadDisFactor ⟨.str "conv2d", some [.int 4], by simp [JsonValue.pyKey]⟩
      ⟨.str "conv2d", some [.int (-2)], by simp [JsonValue.pyKey]⟩ = some (some (-2)) := by
  decide +kernel

end Pruner.AutoScheduler
