import Pruner.AutoScheduler.StoreVisitor
import Pruner.Lib.Placement

/-!
# The tiling pattern of the PAM features

`PerStoreFeatureExtractorPAM` (`feature_pam.cc`) appends a digit to `mem_pattern` for each
buffer that a store accesses (`0` global, `1` shared, `2` local memory), and the access
itself to `buf_seq`.  `GetPerStoreFeaturePAM` looks for `20101112` in the digits and takes
the features of a tiling from the eight accesses there.  Both sequences follow the
enumeration of a map hashed by address.

Of the numbers an access contributes (bytes, cache lines, strides, reuse) only `reduce_ratio`
and the strides it needs are modelled: what is proved of the others is which accesses they are
taken from.

## Main definitions

* `AccessPAM` — an entry of `buf_seq`.
* `extractPAM e p` — the walk over a program, its maps enumerated by `e`.
* `tilingPatternPAM e p` — the position of the pattern and the eight accesses.
* `storesPAM p` — for each store, its accesses in the order of insertion.

## Main results

* `tilingPatternPAM_orderIndependent_iff` — the pattern does not depend on the enumeration
  exactly when the first place where it can be laid is covered by stores of one access.
-/

namespace Pruner.AutoScheduler

open Tir Lib List Option

inductive LocationTypePAM where
  | globalMem
  | sharedMem
  | localMem
  deriving DecidableEq, Repr

/-- `std::to_string(static_cast<int>(buf_loc))`. -/
def LocationTypePAM.digit : LocationTypePAM → Char
  | .globalMem => '0'
  | .sharedMem => '1'
  | .localMem => '2'

/-- An entry of `buf_seq`: the access of one store to one buffer. -/
structure AccessPAM where
  store : ℕ
  buffer : Buffer
  access : BufferAccess
  bufLoc : LocationTypePAM

open AccessPAM

def AccessPAM.digit (a : AccessPAM) : Char := a.bufLoc.digit

variable (c : Context) (s : ExtractorPAM) (e : Enumeration (Buffer × BufferAccess)) (p : Stmt)

/-- The location of a buffer, from the scopes that have been realised. -/
def Context.location (b : Buffer) : LocationTypePAM :=
  if (c.bufMap b).any fun scope => strStartsWith scope "local" then .localMem
  else if (c.bufMap b).any fun scope => strStartsWith scope "shared" then .sharedMem
  else .globalMem

/-- The members of the extractor that the pattern goes through; `storesSeen` numbers the
maps for the enumeration. -/
structure ExtractorPAM where
  memPattern : List Char := []
  bufSeq : List AccessPAM := []
  storesSeen : ℕ := 0

/-- The access that is recorded for an entry of the map. -/
def recordAccess (store : ℕ) (x : Buffer × BufferAccess) : AccessPAM :=
  ⟨store, x.1, x.2, c.location x.1⟩

/-- One round of the loop over the accesses; a dimension that is not constant is an error. -/
def ExtractorPAM.visitAccess (x : Buffer × BufferAccess) : Option ExtractorPAM :=
  let acc := recordAccess c s.storesSeen x
  if x.1.shape.all isSome then
    some { s with
      bufSeq := s.bufSeq ++ [acc]
      memPattern := s.memPattern ++ [acc.digit] }
  else none

/-- `PerStoreFeatureExtractorPAM`.  After a `BufferRealize`, its allocated size is read. -/
def visitorPAM : Visitor ExtractorPAM where
  enter _ _ s := s
  leave _ _ s := s
  store c node s := do
    let _ ← mathOpCounter node.value
    let s' ← (e.order s.storesSeen (bufAccesses node).entries).foldlM
      (ExtractorPAM.visitAccess c) s
    some { s' with storesSeen := s'.storesSeen + 1 }
  realized _ _ bounds s := do
    let _ ← bounds.mapM Expr.getIntImm
    some s

/-- `extractor(stmt)`. -/
def extractPAM : Option ExtractorPAM := (visitStmt (visitorPAM e) p {} {}).map Prod.snd

/-- The pattern of a tiled reduction. -/
def needle : List Char := "20101112".toList

/-- `KMP`: the position of the pattern, or `-1`. -/
def kmp (memPattern : List Char) : ℤ :=
  match kmpSearch needle memPattern with
  | some p => p
  | none => -1

/-- What `GetPerStoreFeaturePAM` takes from the extractor: `pattern_index`, and if there is
one, `buf_seq[pattern_index], …, buf_seq[pattern_index + 7]`. -/
def ExtractorPAM.tilingPattern : ℤ × List (Option AccessPAM) :=
  let patternIndex := kmp s.memPattern
  (patternIndex,
    if 0 ≤ patternIndex then
      (List.range 8).map fun i => s.bufSeq[patternIndex.toNat + i]?
    else [])

def tilingPatternPAM : Option (ℤ × List (Option AccessPAM)) :=
  (extractPAM e p).map ExtractorPAM.tilingPattern

/-! ## The stores of a program -/

/-- A visited store: the members its accesses are recorded from, its number and the node. -/
structure StorePAM where
  context : Context
  index : ℕ
  node : BufferStore

def StorePAM.view (st : StorePAM) : View (Buffer × BufferAccess) AccessPAM :=
  ((bufAccesses st.node).entries, recordAccess st.context st.index)

/-- The recorded accesses of a store are distinct, because their buffers are. -/
theorem StorePAM.nodup_read (st : StorePAM) : st.view.read.Nodup := by
  have hbuffers : (st.view.read.map buffer).Nodup := by
    rw [View.read, List.map_map]
    exact (bufAccesses st.node).nodup
  exact hbuffers.of_map

/-- The visitor that only collects the stores. -/
def collectPAM : Visitor (List StorePAM) where
  enter _ _ sts := sts
  leave _ _ sts := sts
  store c node sts := do
    let _ ← mathOpCounter node.value
    if (bufAccesses node).entries.all fun x => x.1.shape.all isSome then
      some (sts ++ [⟨c, sts.length, node⟩])
    else none
  realized _ _ bounds sts := do
    let _ ← bounds.mapM Expr.getIntImm
    some sts

/-- For each store of a program, its accesses in the order of insertion. -/
def storesPAM : Option (List (List AccessPAM)) :=
  (visitStmt collectPAM p {} []).map fun r => r.2.map fun st => st.view.read

/-- The loop over the accesses of a store. -/
theorem foldlM_visitAccess (accs : List (Buffer × BufferAccess)) (s : ExtractorPAM) :
    accs.foldlM (ExtractorPAM.visitAccess c) s =
      if accs.all fun x => x.1.shape.all isSome then
        some { s with
          bufSeq := s.bufSeq ++ accs.map (recordAccess c s.storesSeen)
          memPattern := s.memPattern ++ (accs.map (recordAccess c s.storesSeen)).map digit }
      else none := by
  induction accs generalizing s with
  | nil => simp
  | cons x xs ih =>
    rw [foldlM_cons, ExtractorPAM.visitAccess, all_cons]
    cases hx : x.1.shape.all isSome with
    | true =>
      rw [if_pos rfl, bind_eq_bind, bind_some, ih, Bool.true_and]
      simp
    | false => simp

/-- The sequences of the extractor, and the stores it has seen. -/
structure Recorded (e : Enumeration (Buffer × BufferAccess)) (s : ExtractorPAM)
    (sts : List StorePAM) : Prop where
  storesSeen : s.storesSeen = sts.length
  bufSeq : s.bufSeq = (e.views 0 (sts.map StorePAM.view)).flatten
  memPattern : s.memPattern = s.bufSeq.map digit

theorem simulates_collectPAM : (visitorPAM e).Simulates collectPAM (Recorded e) where
  enter _ _ h := h
  leave _ _ h := h
  store {s sts} c node h := by
    refine rel_bind_same _ fun ops => ?_
    rw [foldlM_visitAccess, (e.perm _ _).all_eq]
    split
    · refine .some ⟨by simp [h.storesSeen], ?_, ?_⟩
      · rw [map_append, Enumeration.views_append, flatten_append, ← h.bufSeq,
          length_map, ← h.storesSeen]
        simp [Enumeration.views, StorePAM.view]
      · simp [h.memPattern]
    · exact .none
  realized _ _ bounds h := rel_bind_same _ fun _ => .some h

/-! ## When the enumeration does not matter -/

theorem needle_ne_nil : needle ≠ [] := by decide

theorem length_needle : needle.length = 8 := by decide

/-- The pattern that a search gives. -/
def patternOf : Option (ℕ × List AccessPAM) → ℤ × List (Option AccessPAM)
  | some r => (r.1, r.2.map some)
  | none => (-1, [])

theorem patternOf_injective : Function.Injective patternOf := by
  rintro (_ | r) (_ | r') h
  · rfl
  · have hindex : (-1 : ℤ) = r'.1 := congrArg Prod.fst h
    omega
  · have hindex : (r.1 : ℤ) = -1 := congrArg Prod.fst h
    omega
  · obtain ⟨hindex, haccs⟩ := Prod.mk.inj h
    have hfst : r.1 = r'.1 := Int.ofNat.inj hindex
    have hsnd : r.2 = r'.2 := map_injective_iff.mpr (fun _ _ => some.inj) haccs
    exact congrArg some (Prod.ext hfst hsnd)

theorem tilingPattern_eq {s : ExtractorPAM} (h : s.memPattern = s.bufSeq.map digit) :
    s.tilingPattern = patternOf (searchWindow digit needle s.bufSeq) := by
  rw [ExtractorPAM.tilingPattern, kmp, searchWindow, ← h]
  cases hfound : kmpSearch needle s.memPattern with
  | none => simp [patternOf]
  | some p =>
    have hocc := ((kmpSearch_eq_some_iff needle_ne_nil).mp hfound).1
    have hle : p + 8 ≤ s.bufSeq.length := by
      have := IsPrefix.length_le hocc
      rw [length_drop, h, length_map, length_needle] at this
      omega
    rw [map_some, length_needle, patternOf]
    refine Prod.ext rfl (ext_getElem? fun k => ?_)
    rcases lt_or_ge k 8 with hk | hk
    · have hk' : p + k < s.bufSeq.length := by omega
      simp [hk, hk']
    · refine (getElem?_eq_none ?_).trans (getElem?_eq_none ?_).symm
      · simpa using hk
      · rw [length_map, length_take]
        omega

/-- **The extraction searches the accesses of the stores as they are enumerated.** -/
theorem tilingPatternPAM_eq : tilingPatternPAM e p = (visitStmt collectPAM p {} []).map fun r =>
      patternOf (searchWindow digit needle
        (e.views 0 (r.2.map StorePAM.view)).flatten) := by
  have hrel := visitStmt_rel (simulates_collectPAM e) p {} (s := {}) (t := []) ⟨rfl, rfl, rfl⟩
  rw [tilingPatternPAM, extractPAM, Option.map_map]
  refine map_eq_of_rel hrel fun x y h => ?_
  rw [Function.comp, tilingPattern_eq h.2.memPattern, h.2.bufSeq]

/-- **`KMP` finds the first occurrence of the pattern; the eight accesses from there exist and
have the locations of the pattern.** -/
theorem kmp_first_and_locations : (∀ t : List Char, (kmp t = -1 ↔ ∀ i, ¬ OccursAt needle t i) ∧
      ∀ i : ℕ, kmp t = i ↔ OccursAt needle t i ∧ ∀ j < i, ¬ OccursAt needle t j) ∧
    ∀ e p s, extractPAM e p = some s → ∀ q : ℕ, kmp s.memPattern = q →
      ∀ i < 8, ∃ acc, s.bufSeq[q + i]? = some acc ∧ needle[i]? = some acc.digit := by
  have hkmp : ∀ (t : List Char) (i : ℕ), kmp t = i ↔ kmpSearch needle t = some i := by
    intro t i
    rw [kmp]
    cases kmpSearch needle t <;> simp
  refine ⟨fun t => ⟨?_, fun i => ?_⟩, fun e p s hs q hq i hi => ?_⟩
  · rw [← kmpSearch_eq_none_iff needle_ne_nil, kmp]
    cases kmpSearch needle t <;> simp
  · rw [hkmp, kmpSearch_eq_some_iff needle_ne_nil]
  · have hrel := visitStmt_rel (simulates_collectPAM e) p {} (s := {}) (t := []) ⟨rfl, rfl, rfl⟩
    obtain ⟨r, hr, rfl⟩ := map_eq_some_iff.mp hs
    rw [hr] at hrel
    generalize visitStmt collectPAM p {} [] = seen at hrel
    obtain ⟨hrec⟩ := hrel
    obtain ⟨rest, hrest⟩ := ((kmpSearch_eq_some_iff needle_ne_nil).mp ((hkmp _ _).mp hq)).1
    have hlt : i < needle.length := hi
    have hget : (r.2.bufSeq[q + i]?).map digit = needle[i]? := by
      rw [← getElem?_map, ← hrec.2.memPattern, ← getElem?_drop, ← hrest, getElem?_append_left hlt]
    rw [getElem?_eq_getElem hlt] at hget ⊢
    obtain ⟨acc, hacc, hdigit⟩ := map_eq_some_iff.mp hget
    exact ⟨acc, hacc, congrArg some hdigit.symm⟩

/-- **The tiling pattern of a program is the same for every enumeration of its access maps
exactly when the first position where the pattern can be laid over the accesses of the
stores, if there is one, is covered by stores that access one buffer only.** -/
theorem tilingPatternPAM_orderIndependent_iff (p : Stmt) :
    (∀ e₁ e₂ : Enumeration (Buffer × BufferAccess), tilingPatternPAM e₁ p = tilingPatternPAM e₂ p) ↔
      ∀ bs, storesPAM p = some bs →
        ∀ q, Fits (bs.map (List.map digit)) needle q →
          (∀ i < q, ¬ Fits (bs.map (List.map digit)) needle i) → Alone bs q 8 := by
  simp only [tilingPatternPAM_eq, storesPAM]
  cases visitStmt collectPAM p {} [] with
  | none => simp
  | some r =>
    obtain ⟨c, sts⟩ := r
    have hnodup : ∀ b ∈ sts.map fun st => st.view.read, b.Nodup := by
      intro b hb
      obtain ⟨st, -, rfl⟩ := mem_map.mp hb
      exact st.nodup_read
    have hread : (sts.map StorePAM.view).map View.read = sts.map fun st => st.view.read :=
      List.map_map
    have hkey := searchWindow_arranged_iff (f := digit) needle_ne_nil hnodup
    rw [length_needle] at hkey
    simp only [map_some, some.injEq, patternOf_injective.eq_iff, forall_eq']
    rw [← hkey]
    constructor
    · intro h as cs has hcs
      obtain ⟨e₁, rfl⟩ := exists_enumeration_views 0 (sts.map StorePAM.view) (hread ▸ has)
      obtain ⟨e₂, rfl⟩ := exists_enumeration_views 0 (sts.map StorePAM.view) (hread ▸ hcs)
      exact h e₁ e₂
    · intro h e₁ e₂
      exact h _ _ (hread ▸ e₁.arranged_views 0 _) (hread ▸ e₂.arranged_views 0 _)

/-! ## The loops an access does not use -/

/-- The members of `CoefficientExtractorPAM`. -/
structure CoefficientExtractor where
  visitedVar : Bool := false
  visitedMul : Bool := false
  visitedAdd : Bool := false
  stride : ℤ := 0

/-- After the operands of an addition or a multiplication; the stride is an `int`. -/
def CoefficientExtractor.leave (x : CoefficientExtractor) (op : BinaryOp) (a b : Expr) :
    CoefficientExtractor :=
  match op, a.getIntImm <|> b.getIntImm with
  | .mul, some k =>
    if x.visitedVar && !x.visitedAdd then { x with visitedMul := true, stride := k.bmod 4294967296 }
    else x
  | .add, _ =>
    if x.visitedVar && !x.visitedMul then { x with visitedAdd := true, stride := 1 } else x
  | _, _ => x

mutual

/-- `VisitExpr`, for the coefficient of `v`. -/
def visitCoefficient (v : Var) : Expr → CoefficientExtractor → CoefficientExtractor
  | .var u, x => if u = v then { x with visitedVar := true, stride := 2 } else x
  | .binary op a b, x => (visitCoefficient v b (visitCoefficient v a x)).leave op a b
  | .and a b, x | .or a b, x | .letNode _ a b, x | .ramp a b, x =>
    visitCoefficient v b (visitCoefficient v a x)
  | .cast _ a, x | .not a, x | .broadcast a, x => visitCoefficient v a x
  | .select c a b, x => visitCoefficient v b (visitCoefficient v a (visitCoefficient v c x))
  | .call _ _ args, x | .bufferLoad _ args, x => visitCoefficients v args x
  | .intImm _ _, x | .floatImm _, x | .stringImm _, x => x

def visitCoefficients (v : Var) : List Expr → CoefficientExtractor → CoefficientExtractor
  | [], x => x
  | e :: es, x => visitCoefficients v es (visitCoefficient v e x)

end

/-- `ExtractCoefficient`, if the variable occurs. -/
def extractCoefficient (v : Var) (e : Expr) : Option ℤ :=
  let x := visitCoefficient v e {}
  if x.visitedVar then some (if x.visitedMul || x.visitedAdd then x.stride else 1) else none

/-- The stride of one access, from its last index on. -/
def indexStride (v : Var) : List (Expr × ℤ) → ℤ → Option ℤ
  | [], _ => none
  | (e, dim) :: rest, shapeStride =>
    match extractCoefficient v e with
    | some k => some (k.natAbs * shapeStride)
    | none => indexStride v rest (shapeStride * dim)

variable (indices : List (List Expr)) (shape : List ℤ) (forLoopStack : List Loop)

def computeStridePAM (v : Var) : ℤ :=
  (indices.filterMap fun index => indexStride v (index.zip shape).reverse 1).min?.getD 0

/-- The loop over the stack, innermost loop first; `back` is `for_loop_stack_.back()`. -/
def scanLoops (back : Loop) : List Loop → ℤ → ℤ
  | [], reduceRatio => reduceRatio
  | l :: ls, reduceRatio =>
    if computeStridePAM indices shape l.loopVar ≠ 0 then reduceRatio
    else scanLoops back ls (reduceRatio * back.getLoopExtent)

/-- `reduce_ratio` of an access, which is an `int64_t`: exact for innermost extents whose power,
and loops whose product of extents, is below `2 ^ 63`. -/
def reduceRatio : ℤ :=
  match forLoopStack.getLast? with
  | none => 1
  | some back => scanLoops indices shape back forLoopStack.reverse 1

/-- The innermost loops in which the access has stride zero. -/
def skippedLoops : List Loop :=
  forLoopStack.reverse.takeWhile fun l => computeStridePAM indices shape l.loopVar = 0

theorem scanLoops_eq (back : Loop) (ls : List Loop) (ratio : ℤ) :
    scanLoops indices shape back ls ratio = ratio * back.getLoopExtent ^
      (ls.takeWhile fun l => computeStridePAM indices shape l.loopVar = 0).length := by
  induction ls generalizing ratio with
  | nil => simp [scanLoops]
  | cons l ls ih =>
    rw [scanLoops, takeWhile_cons]
    by_cases h : computeStridePAM indices shape l.loopVar = 0
    · simp [h, ih, pow_succ', mul_assoc]
    · simp [h]

/-- **The ratio is a power of the innermost extent**, and the product of the extents of the
skipped loops exactly if these agree. -/
theorem reduceRatio_eq_prod_iff :
    reduceRatio indices shape forLoopStack =
        ((skippedLoops indices shape forLoopStack).map Loop.getLoopExtent).prod ↔
      ∀ back, forLoopStack.getLast? = some back →
        back.getLoopExtent ^ (skippedLoops indices shape forLoopStack).length =
          ((skippedLoops indices shape forLoopStack).map Loop.getLoopExtent).prod := by
  rw [reduceRatio]
  cases h : forLoopStack.getLast? with
  | none => simp [skippedLoops, getLast?_eq_none_iff.mp h]
  | some back => simp [scanLoops_eq, skippedLoops]

/-- `A[i]` in loops over `i`, `j` and `k`: the ratio is four, for six iterations. -/
theorem reduceRatio_ne_prod :
    let stack : List Loop := [⟨.loop 1 "i", some 4⟩, ⟨.loop 2 "j", some 3⟩, ⟨.loop 3 "k", some 2⟩]
    reduceRatio [[.var (.loop 1 "i")]] [4] stack = 4 ∧
      ((skippedLoops [[.var (.loop 1 "i")]] [4] stack).map Loop.getLoopExtent).prod = 6 := by
  decide +kernel

/-! ## A tiled product -/

/-- A product whose operands are copied to shared memory and whose result is summed up in
registers: `C[0] = 0`, then for each `k` the copies `S[k] = A[k]` and `T[k] = B[k]`, and
`C[0] = C[0] + S[k] * T[k]`. -/
def tiledProduct : Stmt :=
  let a := Buffer.decl 10 "A" [4]
  let b := Buffer.decl 11 "B" [4]
  let s := Buffer.decl 12 "S" [4]
  let t := Buffer.decl 13 "T" [4]
  let c := Buffer.decl 14 "C" [1]
  let k := Var.loop 1 "k"
  let zero := Expr.intImm .int 0
  let realize (buf : Buffer) (scope : String) (n : ℤ) (body : Stmt) : Stmt :=
    .attrStmt (.realizeScope buf scope) (.bufferRealize buf [.intImm .int n] body)
  realize s "shared" 4 (realize t "shared" 4 (realize c "local" 1
    (.seqStmt (.bufferStore ⟨c, .floatImm .float, [zero]⟩)
      (.forNode k (.intImm .int 4)
        (.seqStmt (.bufferStore ⟨s, .bufferLoad a [.var k], [.var k]⟩)
          (.seqStmt (.bufferStore ⟨t, .bufferLoad b [.var k], [.var k]⟩)
            (.bufferStore ⟨c, .binary .add (.bufferLoad c [zero])
              (.binary .mul (.bufferLoad s [.var k]) (.bufferLoad t [.var k])),
              [zero]⟩)))))))

/-- The reverse order, but the operands of the last store exchanged. -/
def exchanged {α : Type} : Enumeration α :=
  Enumeration.reversed.set 3 (fun l => l.rotate 1) fun l => l.rotate_perm 1

/-- Both orders show the pattern at the first access, but its sixth access is the read of
`T` in one and that of `S` in the other. -/
theorem tiledProduct_orderDependent : ¬ ∀ e₁ e₂ : Enumeration (Buffer × BufferAccess),
      tilingPatternPAM e₁ tiledProduct = tilingPatternPAM e₂ tiledProduct := by
  intro h
  have hbuffers := congrArg (Option.map fun r =>
    (r.1, r.2.map fun acc => acc.map fun x => x.buffer.name)) (h Enumeration.reversed exchanged)
  revert hbuffers
  decide +kernel

end Pruner.AutoScheduler
