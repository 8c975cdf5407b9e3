import Mathlib.Algebra.Field.Rat
import Mathlib.Data.List.Rotate
import Pruner.AutoScheduler.StoreVisitor

/-!
# PSA features and the order of the access map

`PerStoreFeatureExtractorPSA` (`feature_psa.cc`) sums, for every store, a workload over
the buffers that the store accesses.  These are the entries of a map hashed by address,
so the order of the sum changes from run to run.  For a store without float work into
shared memory the loop over the map ends at its first entry.

The floats of the source are any type with the operations it uses, without laws: what is
proved holds for exact numbers and for rounded ones.

## Main definitions

* `FloatArith` — the float operations of the extractor.
* `FeatureSetPSA`, `StorePSA.extract` — the features of a store.
* `extractPSA F e p` — all features of a program, its maps enumerated by `e`.
* `StableFor` — a condition on the workloads of the stores into a buffer.

## Main results

* `memoryFeaturesPSA_eq` — the extraction is a fold over the stores of the program.
* `memoryFeaturesPSA_orderIndependent_iff` — the memory features do not depend on the
  enumeration exactly for programs that are stable for every buffer.
-/

namespace Pruner.AutoScheduler

open Tir Lib List Option

/-- The operations on `float` that the features are computed with. -/
class FloatArith (F : Type) where
  ofInt : ℤ → F
  add : F → F → F
  mul : F → F → F
  div : F → F → F
  isZero : F → Bool

/-- Exact arithmetic. -/
instance : FloatArith ℚ := ⟨fun n => n, (· + ·), (· * ·), (· / ·), fun x => decide (x = 0)⟩

open FloatArith

structure FeatureSetPSA (F : Type) where
  floatWorkloadThread : F
  computeWorkload : F
  regUsage : F
  memWorkload : F
  sharedMemFootprint : F
  dramWorkload : F
  dataReuseRenalty : F
  isGpu : Bool
  blockIdxLen : F
  threadIdxLen : F
  vthreadLen : F

/-- The five features that are summed over buffer accesses. -/
structure MemoryFeatures (F : Type) where
  regUsage : F
  memWorkload : F
  sharedMemFootprint : F
  dramWorkload : F
  dataReuseRenalty : F
  deriving DecidableEq, Repr

open MemoryFeatures

def FeatureSetPSA.memory {F : Type} (fea : FeatureSetPSA F) : MemoryFeatures F :=
  ⟨fea.regUsage, fea.memWorkload, fea.sharedMemFootprint, fea.dramWorkload,
    fea.dataReuseRenalty⟩

/-! ## Workloads -/

/-- Whether a loop is one of the threads that the workloads skip. -/
def Loop.isThreadX (l : Loop) : Bool :=
  l.loopVar.nameHint = "threadIdx.x" ∨ l.loopVar.nameHint = "blockIdx.x"

/-- Whether the variable of a loop occurs in some index of the accesses. -/
def Loop.indexes (l : Loop) (indices : List (List Expr)) : Bool :=
  indices.any fun index => index.any fun e => e.uses l.loopVar

/-- `FindSAxisPSA`, from the innermost loop outwards. -/
def findSAxisPSA (indices : List (List Expr)) (forLoopStack : List Loop) : List Loop :=
  forLoopStack.reverse.filter fun l => !l.isThreadX && l.indexes indices

variable {F : Type} [FloatArith F] {b : Buffer}

/-- `MemWorkloadPSA`, from the last loop of the list to the first. -/
def memWorkloadPSA (indices : List (List Expr)) (loops : List Loop) : F :=
  loops.reverse.foldl
    (fun reuseCt l =>
      if l.isThreadX then reuseCt
      else if l.indexes indices then mul reuseCt (ofInt l.getLoopExtent)
      else reuseCt)
    (ofInt 1)

/-! ## The features of a store -/

/-- A visit of a `BufferStore`: the members it is extracted from, and the node. -/
structure StorePSA (F : Type) where
  context : Context
  innerLoopProd : F
  node : BufferStore
  ops : MathOpCounter

open StorePSA

namespace StorePSA

variable (st : StorePSA F)

/-- The value-initialised features. -/
def zero : FeatureSetPSA F :=
  ⟨ofInt 0, ofInt 0, ofInt 0, ofInt 0, ofInt 0, ofInt 0, ofInt 0, false, ofInt 0, ofInt 0,
    ofInt 0⟩

def blockIdxLen : F :=
  ofInt (st.context.lens .blockX * st.context.lens .blockY * st.context.lens .blockZ)

def threadIdxLen : F :=
  ofInt (st.context.lens .threadX * st.context.lens .threadY * st.context.lens .threadZ)

def floatWorkloadThread : F :=
  mul st.innerLoopProd (ofInt (st.ops.floatMad + st.ops.floatAddsub + st.ops.floatMul +
    st.ops.floatDivmod : ℕ))

def extractComputationFeature (fea : FeatureSetPSA F) : FeatureSetPSA F :=
  { fea with
    isGpu := st.context.isGpu
    blockIdxLen := st.blockIdxLen
    threadIdxLen := st.threadIdxLen
    vthreadLen := ofInt st.context.vthreadLen
    floatWorkloadThread := st.floatWorkloadThread
    computeWorkload := mul (mul st.floatWorkloadThread st.blockIdxLen) st.threadIdxLen }

/-- The map of the store's accesses. -/
def accesses : BufAccesses := bufAccesses st.node

/-- The loops that index the stored buffer. -/
def sAxis : List Loop :=
  findSAxisPSA ((st.accesses.get? st.node.buffer).getD {}).indices st.context.forLoopStack

/-- `StrStartsWith(buf_map_[node->buffer], "shared")`, for a buffer that is in the map. -/
def isShared : Bool :=
  (st.context.bufMap st.node.buffer).any fun scope => strStartsWith scope "shared"

/-- The loop over the accesses, with its two `break`s. -/
def sumAccesses : List (Buffer × BufferAccess) → FeatureSetPSA F → FeatureSetPSA F
  | [], fea => fea
  | x :: xs, fea =>
    if !isZero fea.floatWorkloadThread then
      sumAccesses xs { fea with
        regUsage := add fea.regUsage (memWorkloadPSA x.2.indices st.sAxis)
        memWorkload := add fea.memWorkload (memWorkloadPSA x.2.indices st.context.forLoopStack) }
    else if st.isShared then
      let footprint := add fea.sharedMemFootprint
        (mul (memWorkloadPSA x.2.indices st.sAxis) fea.threadIdxLen)
      { fea with
        sharedMemFootprint := footprint
        dramWorkload := add fea.dramWorkload (mul footprint fea.blockIdxLen) }
    else
      { fea with
        dramWorkload := add fea.dramWorkload
          (mul (mul st.innerLoopProd fea.blockIdxLen) fea.threadIdxLen) }

/-- `ExtractBufferAccessFeature`, the accesses enumerated as `accs`. -/
def extractBufferAccessFeature (accs : List (Buffer × BufferAccess))
    (fea : FeatureSetPSA F) : FeatureSetPSA F :=
  let summed := st.sumAccesses accs
    { fea with
      regUsage := ofInt 0
      sharedMemFootprint := ofInt 0
      dramWorkload := ofInt 0
      dataReuseRenalty := ofInt 1 }
  if !isZero summed.floatWorkloadThread && !isZero summed.memWorkload then
    { summed with
      dataReuseRenalty :=
        add summed.dataReuseRenalty (div summed.floatWorkloadThread summed.memWorkload) }
  else summed

/-- Both groups of features, over those the buffer has from earlier stores. -/
def extract (accs : List (Buffer × BufferAccess)) (fea : FeatureSetPSA F) : FeatureSetPSA F :=
  st.extractBufferAccessFeature accs (st.extractComputationFeature fea)

end StorePSA

/-! ## The extraction -/

/-- The members of the extractor that its features go through; `storesSeen` numbers the
maps for the enumeration. -/
structure ExtractorPSA (F : Type) where
  innerLoopProd : F
  bufferFeatures : Buffer → Option (FeatureSetPSA F)
  storesSeen : ℕ

/-- The inner product counts the loops and the virtual threads, not the threads. -/
def scaleProd (op : F → F → F) : LoopSort → ℤ → F → F
  | .thread, _, prod => prod
  | .vthread, n, prod => op prod (ofInt n)
  | .loop, n, prod => op prod (ofInt n)

/-- `PerStoreFeatureExtractorPSA`. -/
def visitorPSA (e : Enumeration (Buffer × BufferAccess)) : Visitor (ExtractorPSA F) where
  enter k n s := { s with innerLoopProd := scaleProd mul k n s.innerLoopProd }
  leave k n s := { s with innerLoopProd := scaleProd div k n s.innerLoopProd }
  store c node s := do
    let ops ← mathOpCounter node.value
    let st : StorePSA F := ⟨c, s.innerLoopProd, node, ops⟩
    let fea := st.extract (e.order s.storesSeen st.accesses.entries)
      ((s.bufferFeatures node.buffer).getD zero)
    some { s with
      bufferFeatures := Function.update s.bufferFeatures node.buffer (some fea)
      storesSeen := s.storesSeen + 1 }
  realized _ _ _ s := some s

/-- `extractor(stmt)` and its `buffer_features`. -/
def extractPSA (F : Type) [FloatArith F] (e : Enumeration (Buffer × BufferAccess)) (p : Stmt) :
    Option (Buffer → Option (FeatureSetPSA F)) :=
  (visitStmt (visitorPSA e) p {} ⟨ofInt 1, fun _ => none, 0⟩).map fun r => r.2.bufferFeatures

/-! ## The stores of a program -/

/-- The visitor that only collects the stores, in the order they are visited. -/
def collectPSA : Visitor (F × List (StorePSA F)) where
  enter k n s := (scaleProd mul k n s.1, s.2)
  leave k n s := (scaleProd div k n s.1, s.2)
  store c node s := do
    let ops ← mathOpCounter node.value
    some (s.1, s.2 ++ [⟨c, s.1, node, ops⟩])
  realized _ _ _ s := some s

/-- The stores of a program; an error ends the extraction for every enumeration. -/
def storesPSA (F : Type) [FloatArith F] (p : Stmt) : Option (List (StorePSA F)) :=
  (visitStmt collectPSA p {} (ofInt 1, [])).map fun r => r.2.2

/-- A float sum from left to right. -/
def total (xs : List F) : F := xs.foldl add (ofInt 0)

namespace StorePSA

variable (st : StorePSA F)

/-- `fea.float_workload_thread != 0`. -/
def isFloat : Bool := !isZero st.floatWorkloadThread

/-- The workloads of an access: over the loops of the stored buffer, and over all loops. -/
def load (x : Buffer × BufferAccess) : F × F :=
  (memWorkloadPSA x.2.indices st.sAxis, memWorkloadPSA x.2.indices st.context.forLoopStack)

/-- The accesses of the store, read through their workloads. -/
def view : View (Buffer × BufferAccess) (F × F) := (st.accesses.entries, st.load)

/-- The workloads in the order of insertion. -/
def loads : List (F × F) := st.view.read

/-- `SharedMemFootprint` when an access with this workload comes first. -/
def footprint (x : F) : F := add (ofInt 0) (mul x st.threadIdxLen)

/-- `SharedMemFootprint`, from the workloads in the order of the enumeration. -/
def sharedFootprint (xs : List F) : F :=
  if !st.isFloat && st.isShared then xs.head?.elim (ofInt 0) st.footprint else ofInt 0

/-- The memory features of a buffer after a store into it, from the workloads in the order
of the enumeration and the `MemWorkload` before. -/
def memoryOf (ls : List (F × F)) (mem₀ : F) : MemoryFeatures F :=
  let mem := if st.isFloat then (ls.map Prod.snd).foldl add mem₀ else mem₀
  let shared := st.sharedFootprint (ls.map Prod.fst)
  { regUsage := if st.isFloat then total (ls.map Prod.fst) else ofInt 0
    memWorkload := mem
    sharedMemFootprint := shared
    dramWorkload :=
      if st.isFloat then ofInt 0
      else if st.isShared then add (ofInt 0) (mul shared st.blockIdxLen)
      else add (ofInt 0) (mul (mul st.innerLoopProd st.blockIdxLen) st.threadIdxLen)
    dataReuseRenalty :=
      if st.isFloat && !isZero mem then add (ofInt 1) (div st.floatWorkloadThread mem)
      else ofInt 1 }

theorem loads_ne_nil : st.loads ≠ [] := by
  rw [loads, View.read, Ne, map_eq_nil_iff]
  exact bufAccesses_ne_nil st.node

theorem sumAccesses_of_float {fea : FeatureSetPSA F} (h : isZero fea.floatWorkloadThread = false)
    (accs : List (Buffer × BufferAccess)) :
    st.sumAccesses accs fea = { fea with
      regUsage := ((accs.map st.load).map Prod.fst).foldl add fea.regUsage
      memWorkload := ((accs.map st.load).map Prod.snd).foldl add fea.memWorkload } := by
  induction accs generalizing fea with
  | nil => rfl
  | cons x xs ih =>
    rw [sumAccesses, if_pos (by simp [h])]
    exact ih h

/-- **The memory features of a store are a function of its workloads.** -/
theorem memory_extract {accs : List (Buffer × BufferAccess)} (haccs : accs ≠ [])
    (fea : FeatureSetPSA F) :
    (st.extract accs fea).memory = st.memoryOf (accs.map st.load) fea.memWorkload := by
  obtain ⟨x, xs, rfl⟩ := exists_cons_of_ne_nil haccs
  rw [extract, extractBufferAccessFeature]
  cases hzero : isZero st.floatWorkloadThread with
  | false =>
    rw [sumAccesses_of_float st hzero]
    simp only [extractComputationFeature, FeatureSetPSA.memory, memoryOf, sharedFootprint,
      isFloat, hzero, total]
    split <;> simp_all
  | true =>
    cases hshared : st.isShared with
    | true =>
      simp [sumAccesses, extractComputationFeature, FeatureSetPSA.memory, memoryOf,
        sharedFootprint, isFloat, hzero, hshared, footprint, load]
    | false =>
      simp [sumAccesses, extractComputationFeature, FeatureSetPSA.memory, memoryOf,
        sharedFootprint, isFloat, hzero, hshared]

/-- What the memory features depend on: the sums, and the first workload. -/
theorem memoryOf_congr {ls ls' : List (F × F)} {mem mem' : F}
    (hreg : st.isFloat = true → total (ls.map Prod.fst) = total (ls'.map Prod.fst))
    (hmem : (st.memoryOf ls mem).memWorkload = (st.memoryOf ls' mem').memWorkload)
    (hshared : st.sharedFootprint (ls.map Prod.fst) = st.sharedFootprint (ls'.map Prod.fst)) :
    st.memoryOf ls mem = st.memoryOf ls' mem' := by
  simp only [memoryOf] at hmem ⊢
  rw [hmem, hshared]
  cases hfloat : st.isFloat with
  | true => simp [hreg hfloat]
  | false => simp

end StorePSA

/-! ## The memory features as a fold over the stores -/

/-- The memory features of a buffer after some stores, each with its enumerated workloads. -/
def memoryRun (b : Buffer) (zs : List (StorePSA F × List (F × F))) : Option (MemoryFeatures F) :=
  zs.foldl
    (fun o z =>
      if z.1.node.buffer = b then
        some (z.1.memoryOf z.2 (o.elim (ofInt 0) memWorkload))
      else o)
    none

/-- The workloads a store adds to `MemWorkload` of a buffer. -/
def memPart (b : Buffer) (st : StorePSA F) (ls : List (F × F)) : List F :=
  if st.node.buffer = b ∧ st.isFloat then ls.map Prod.snd else []

variable {zs : List (StorePSA F × List (F × F))}

theorem memoryRun_concat (z : StorePSA F × List (F × F)) : memoryRun b (zs ++ [z]) =
      if z.1.node.buffer = b then
        some (z.1.memoryOf z.2 ((memoryRun b zs).elim (ofInt 0) memWorkload))
      else memoryRun b zs := by
  rw [memoryRun, foldl_append]
  rfl

theorem memoryRun_append_of_ne (zs : List (StorePSA F × List (F × F)))
    {ys : List (StorePSA F × List (F × F))} (h : ∀ y ∈ ys, y.1.node.buffer ≠ b) :
    memoryRun b (zs ++ ys) = memoryRun b zs := by
  induction ys using reverseRecOn with
  | nil => rw [append_nil]
  | append_singleton ys y ih =>
    rw [← append_assoc, memoryRun_concat, if_neg (h y (by simp)), ih (forall_mem_append.mp h).1]

/-- `MemWorkload` is one sum over all stores into the buffer. -/
theorem memWorkload_memoryRun : (memoryRun b zs).elim (ofInt 0) memWorkload =
      total (zs.map fun z => memPart b z.1 z.2).flatten := by
  induction zs using reverseRecOn with
  | nil => rfl
  | append_singleton zs z ih =>
    rw [memoryRun_concat, total, map_append, flatten_append, foldl_append, ← total, ← ih]
    by_cases hb : z.1.node.buffer = b
    · cases hfloat : z.1.isFloat with
      | true | false => simp [hb, memPart, hfloat, memoryOf]
    · simp [hb, memPart]

/-- The features of the extractor, and the stores it has seen. -/
structure Extracted (e : Enumeration (Buffer × BufferAccess)) (s : ExtractorPSA F)
    (t : F × List (StorePSA F)) : Prop where
  innerLoopProd : s.innerLoopProd = t.1
  storesSeen : s.storesSeen = t.2.length
  features : ∀ b, (s.bufferFeatures b).map FeatureSetPSA.memory =
    memoryRun b (t.2.zip (e.views 0 (t.2.map view)))

theorem simulates_collectPSA (e : Enumeration (Buffer × BufferAccess)) :
    (visitorPSA (F := F) e).Simulates collectPSA (Extracted e) where
  enter k n h := ⟨congrArg (scaleProd mul k n) h.innerLoopProd, h.storesSeen, h.features⟩
  leave k n h := ⟨congrArg (scaleProd div k n) h.innerLoopProd, h.storesSeen, h.features⟩
  store {s t} c node h := by
    refine rel_bind_same _ fun ops => .some ?_
    obtain ⟨prod, sts⟩ := t
    obtain ⟨rfl, hseen, hfea⟩ := h
    refine ⟨rfl, by simp [hseen], fun b => ?_⟩
    have hlen : sts.length = (e.views 0 (sts.map view)).length := by
      rw [Enumeration.length_views, length_map]
    rw [map_append, Enumeration.views_append, zip_append hlen, zero_add, length_map, ← hseen]
    rw [show (zip [(⟨c, s.innerLoopProd, node, ops⟩ : StorePSA F)] _) = [(_, _)] from rfl,
      memoryRun_concat]
    split
    · next hb =>
        subst hb
        rw [← hfea]
        dsimp only
        rw [Function.update_self, map_some, memory_extract]
        · congr 2
          cases s.bufferFeatures node.buffer <;> rfl
        · intro hnil
          exact bufAccesses_ne_nil node (nil_perm.mp (hnil ▸ e.perm _ _))
    · next hb =>
        rw [← hfea]
        dsimp only
        rw [Function.update_of_ne (Ne.symm hb)]
  realized _ _ _ h := .some h

/-- The memory features of every buffer of a program. -/
def memoryFeaturesPSA (F : Type) [FloatArith F] (e : Enumeration (Buffer × BufferAccess))
    (p : Stmt) : Option (Buffer → Option (MemoryFeatures F)) :=
  (extractPSA F e p).map fun feas b => (feas b).map FeatureSetPSA.memory

/-- **The extraction folds the memory features over the stores of the program.** -/
theorem memoryFeaturesPSA_eq (e : Enumeration (Buffer × BufferAccess)) (p : Stmt) :
    memoryFeaturesPSA F e p = (storesPSA F p).map fun sts b =>
      memoryRun b (sts.zip (e.views 0 (sts.map view))) := by
  have hrel := visitStmt_rel (simulates_collectPSA e) p {}
    (s := ⟨ofInt 1, fun _ => none, 0⟩) (t := (ofInt (F := F) 1, [])) ⟨rfl, rfl, fun _ => rfl⟩
  rw [memoryFeaturesPSA, extractPSA, storesPSA, Option.map_map, Option.map_map]
  exact map_eq_of_rel hrel fun _ _ h => funext h.2.features

/-! ## When the enumeration does not matter -/

def lastStore (b : Buffer) (sts : List (StorePSA F)) : Option (StorePSA F) :=
  sts.reverse.find? fun st => st.node.buffer = b

/-- What makes the memory features of a buffer the same for every enumeration: its float
sums do not change when the workloads of a store are added in another order, and a last
store into shared memory without float work has one footprint, whichever access it is
taken from. -/
structure StableFor (b : Buffer) (sts : List (StorePSA F)) : Prop where
  memWorkload : ∀ ls, Arranged ls (sts.map fun st => memPart b st st.loads) →
    total ls.flatten = total (sts.map fun st => memPart b st st.loads).flatten
  regUsage : ∀ st, lastStore b sts = some st → st.isFloat = true →
    ∀ l : List F, l.Perm (st.loads.map Prod.fst) → total l = total (st.loads.map Prod.fst)
  footprint : ∀ st, lastStore b sts = some st → st.isFloat = false → st.isShared = true →
    ∀ x ∈ st.loads, ∀ y ∈ st.loads, st.footprint x.1 = st.footprint y.1

variable {st : StorePSA F} {l : List (F × F)} {sts : List (StorePSA F)}

omit [FloatArith F] in
theorem lastStore_eq_some (h : lastStore b sts = some st) :
    ∃ pre post, sts = pre ++ st :: post ∧ st.node.buffer = b ∧ ∀ x ∈ post, x.node.buffer ≠ b := by
  rw [lastStore, find?_eq_some_iff_append] at h
  obtain ⟨hb, as, bs, hrev, hne⟩ := h
  refine ⟨bs.reverse, as.reverse, ?_, by simpa using hb, fun x hx => ?_⟩
  · rw [← reverse_reverse sts, hrev]
    simp
  · simpa using hne x (mem_reverse.mp hx)

/-- A change of order in the sum of `MemWorkload` comes from one of the enumeration. -/
theorem exists_arranged_memPart {ls : List (List F)}
    (h : Arranged ls (sts.map fun st => memPart b st st.loads)) :
    ∃ lss, Arranged lss (sts.map loads) ∧ ((sts.zip lss).map fun z => memPart b z.1 z.2) = ls := by
  induction sts generalizing ls with
  | nil =>
    cases h
    exact ⟨[], .nil, rfl⟩
  | cons st sts ih =>
    cases h with
    | @cons l _ ls' _ hl hls =>
      obtain ⟨lss, harr, rfl⟩ := ih hls
      by_cases hb : st.node.buffer = b ∧ st.isFloat = true
      · simp only [memPart, if_pos hb] at hl
        obtain ⟨l', hperm, rfl⟩ := exists_perm_map hl
        exact ⟨l' :: lss, .cons hperm harr, by simp [memPart, hb]⟩
      · simp only [memPart, if_neg hb] at hl
        refine ⟨st.loads :: lss, .cons (.refl _) harr, ?_⟩
        rw [zip_cons_cons, map_cons, memPart, if_neg hb, perm_nil.mp hl]

variable {lss : List (List (F × F))} {pre post : List (StorePSA F)}

theorem arranged_memPart (h : Arranged lss (sts.map loads)) :
    Arranged ((sts.zip lss).map fun z => memPart b z.1 z.2)
      (sts.map fun st => memPart b st st.loads) := by
  induction sts generalizing lss with
  | nil =>
    cases h
    exact .nil
  | cons st sts ih =>
    cases h with
    | cons hl hls =>
      refine .cons ?_ (ih hls)
      dsimp [memPart]
      split
      · exact hl.map Prod.snd
      · exact .refl _

theorem map_memPart_loads (b : Buffer) (sts : List (StorePSA F)) :
    ((sts.zip (sts.map loads)).map fun z => memPart b z.1 z.2) =
      sts.map fun st => memPart b st st.loads := by
  induction sts with
  | nil => rfl
  | cons st sts ih => simp [ih]

theorem memoryRun_zip_last {lpre lpost : List (List (F × F))}
    (hlen : pre.length = lpre.length) (hb : st.node.buffer = b)
    (hpost : ∀ x ∈ post, x.node.buffer ≠ b) :
    memoryRun b ((pre ++ st :: post).zip (lpre ++ l :: lpost)) =
      some (st.memoryOf l
        ((memoryRun b (pre.zip lpre)).elim (ofInt 0) memWorkload)) := by
  rw [zip_append hlen, zip_cons_cons, append_cons,
    memoryRun_append_of_ne _ fun y hy => hpost y.1 (of_mem_zip hy).1, memoryRun_concat, if_pos hb]

theorem arranged_last (h : l.Perm st.loads) :
    Arranged (pre.map loads ++ l :: post.map loads)
      ((pre ++ st :: post).map loads) := by
  rw [map_append]
  exact rel_append (Arranged.refl _) (.cons h (Arranged.refl _))

/-- The features that `StableFor` speaks of, for one order of the last store's workloads. -/
theorem memoryOf_last_of_independent (h : ∀ lss, Arranged lss (sts.map loads) →
      memoryRun b (sts.zip lss) = memoryRun b (sts.zip (sts.map loads)))
    (hlast : lastStore b sts = some st) (hl : l.Perm st.loads) :
    ∃ mem₀, st.memoryOf l mem₀ = st.memoryOf st.loads mem₀ := by
  obtain ⟨pre, post, rfl, hb, hpost⟩ := lastStore_eq_some hlast
  have hrun := h _ (arranged_last hl)
  rw [memoryRun_zip_last (by simp) hb hpost, map_append, map_cons,
    memoryRun_zip_last (by simp) hb hpost] at hrun
  exact ⟨_, some.inj hrun⟩

theorem exists_perm_head {α : Type} {l : List α} {x : α} (h : x ∈ l) :
    ∃ l' : List α, (x :: l').Perm l := by
  obtain ⟨s, t, rfl⟩ := append_of_mem h
  exact ⟨s ++ t, perm_middle.symm⟩

theorem stableFor_of_independent (h : ∀ lss, Arranged lss (sts.map loads) →
      memoryRun b (sts.zip lss) = memoryRun b (sts.zip (sts.map loads))) :
    StableFor b sts where
  memWorkload ls hls := by
    obtain ⟨lss, harr, rfl⟩ := exists_arranged_memPart hls
    have hrun := congrArg (·.elim (ofInt 0) memWorkload) (h lss harr)
    simp only [memWorkload_memoryRun] at hrun
    rw [hrun, map_memPart_loads]
  regUsage st hlast hfloat l hl := by
    obtain ⟨l', hperm, rfl⟩ := exists_perm_map hl
    obtain ⟨mem₀, heq⟩ := memoryOf_last_of_independent h hlast hperm
    simpa [memoryOf, hfloat] using congrArg regUsage heq
  footprint st hlast hfloat hshared x hx y hy := by
    -- an access that is enumerated first gives the footprint
    have hfirst : ∀ z ∈ st.loads,
        st.footprint z.1 = st.sharedFootprint (st.loads.map Prod.fst) := by
      intro z hz
      obtain ⟨l, hl⟩ := exists_perm_head hz
      obtain ⟨mem₀, heq⟩ := memoryOf_last_of_independent h hlast hl
      simpa [memoryOf, sharedFootprint, hfloat, hshared] using
        congrArg sharedMemFootprint heq
    rw [hfirst x hx, hfirst y hy]

theorem StableFor.sharedFootprint_eq (h : StableFor b sts) (hlast : lastStore b sts = some st)
    (hl : l.Perm st.loads) :
    st.sharedFootprint (l.map Prod.fst) = st.sharedFootprint (st.loads.map Prod.fst) := by
  rw [sharedFootprint, sharedFootprint]
  split
  · next hcond =>
      obtain ⟨x, xs, hx⟩ := exists_cons_of_ne_nil st.loads_ne_nil
      obtain ⟨y, ys, rfl⟩ : ∃ y ys, l = y :: ys :=
        exists_cons_of_ne_nil fun hnil =>
          st.loads_ne_nil (nil_perm.mp (hnil ▸ hl))
      have hmem : y ∈ st.loads := hl.subset mem_cons_self
      have hfoot := h.footprint st hlast (by simp_all) (by simp_all) y hmem x (by simp [hx])
      rw [hx]
      exact hfoot
  · rfl

theorem StableFor.independent (h : StableFor b sts) (harr : Arranged lss (sts.map loads)) :
    memoryRun b (sts.zip lss) = memoryRun b (sts.zip (sts.map loads)) := by
  have hmem : (memoryRun b (sts.zip lss)).elim (ofInt 0) MemoryFeatures.memWorkload =
      (memoryRun b (sts.zip (sts.map loads))).elim (ofInt 0)
        MemoryFeatures.memWorkload := by
    rw [memWorkload_memoryRun, memWorkload_memoryRun, map_memPart_loads]
    exact h.memWorkload _ (arranged_memPart harr)
  cases hlast : lastStore b sts with
  | none =>
    have hne : ∀ lss : List (List (F × F)), memoryRun b (sts.zip lss) = none := fun lss =>
      memoryRun_append_of_ne [] fun y hy =>
        by simpa using find?_eq_none.mp hlast y.1 (mem_reverse.mpr (of_mem_zip hy).1)
    rw [hne, hne]
  | some st =>
    have hreg := h.regUsage st hlast
    have hshared := fun l => h.sharedFootprint_eq (l := l) hlast
    obtain ⟨pre, post, rfl, hb, hpost⟩ := lastStore_eq_some hlast
    -- cut the arrangement where the last store stands
    rw [map_append, map_cons] at harr hmem ⊢
    have hpre := forall₂_take_append _ _ _ harr
    have hrest := forall₂_drop_append _ _ _ harr
    rw [← take_append_drop (pre.map loads).length lss] at hmem ⊢
    obtain ⟨l, lpost, hl, -, hcut⟩ := forall₂_cons_right_iff.mp hrest
    rw [hcut] at hmem ⊢
    have hlen : pre.length = (lss.take (pre.map loads).length).length := by
      rw [hpre.length_eq, length_map]
    rw [memoryRun_zip_last hlen hb hpost, memoryRun_zip_last (by simp) hb hpost] at hmem ⊢
    refine congrArg some (st.memoryOf_congr (fun hfloat => ?_) hmem (hshared l hl))
    exact hreg hfloat _ (hl.map Prod.fst)

/-- **The memory features of a program are the same for every enumeration of its access maps
exactly when its stores are stable for every buffer.** -/
theorem memoryFeaturesPSA_orderIndependent_iff (p : Stmt) :
    (∀ e₁ e₂ : Enumeration (Buffer × BufferAccess),
        memoryFeaturesPSA F e₁ p = memoryFeaturesPSA F e₂ p) ↔
      ∀ sts, storesPSA F p = some sts → ∀ b, StableFor b sts := by
  constructor
  · intro h sts hsts b
    refine stableFor_of_independent fun lss harr => ?_
    have hviews : Arranged lss ((sts.map view).map View.read) := by
      rw [List.map_map]
      exact harr
    obtain ⟨e, rfl⟩ := exists_enumeration_views 0 _ hviews
    obtain ⟨e', he'⟩ := exists_enumeration_views 0 (sts.map view) (Arranged.refl _)
    have heq := h e e'
    rw [memoryFeaturesPSA_eq, memoryFeaturesPSA_eq, hsts, map_some, map_some,
      he', List.map_map] at heq
    exact congrFun (some.inj heq) b
  · intro h e₁ e₂
    rw [memoryFeaturesPSA_eq, memoryFeaturesPSA_eq]
    cases hsts : storesPSA F p with
    | none => rfl
    | some sts =>
      refine congrArg some (funext fun b => ?_)
      have hsame : ∀ e : Enumeration (Buffer × BufferAccess),
          memoryRun b (sts.zip (e.views 0 (sts.map view))) =
            memoryRun b (sts.zip (sts.map loads)) := fun e => by
        have harr := e.arranged_views 0 (sts.map view)
        rw [List.map_map] at harr
        exact (h sts hsts b).independent harr
      exact (hsame e₁).trans (hsame e₂).symm

/-! ## A maximum stored into shared memory -/

/-- `for i in 2: for j in 3: S[i, j] = max(A[i], B[i, j])`, with `S` in shared memory. -/
def sharedMax : Stmt :=
  let s := Buffer.decl 10 "S" [2, 3]
  let a := Buffer.decl 11 "A" [2]
  let b := Buffer.decl 12 "B" [2, 3]
  let i := Var.loop 1 "i"
  let j := Var.loop 2 "j"
  .attrStmt (.realizeScope s "shared")
    (.bufferRealize s [.intImm .int 2, .intImm .int 3]
      (.forNode i (.intImm .int 2)
        (.forNode j (.intImm .int 3)
          (.bufferStore ⟨s, .binary .max (.bufferLoad a [.var i])
            (.bufferLoad b [.var i, .var j]), [.var i, .var j]⟩))))

/-- The maps from their second entry on, the first entry last. -/
def rotated {α : Type} : Enumeration α := ⟨fun _ l => l.rotate 1, fun _ l => l.rotate_perm 1⟩

theorem sharedMax_orderDependent : ¬ ∀ e₁ e₂ : Enumeration (Buffer × BufferAccess),
      memoryFeaturesPSA ℚ e₁ sharedMax = memoryFeaturesPSA ℚ e₂ sharedMax := by
  intro h
  have hfoot := congrArg (Option.map fun feas =>
    (feas (Buffer.decl 10 "S" [2, 3])).map sharedMemFootprint)
    (h Enumeration.reversed rotated)
  have hvalues : (some (some 6) : Option (Option ℚ)) = some (some 2) := by
    refine Eq.trans ?_ (hfoot.trans ?_)
    · decide +kernel
    · decide +kernel
  exact absurd hvalues (by decide +kernel)

end Pruner.AutoScheduler
