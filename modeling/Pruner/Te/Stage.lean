import Mathlib.Data.List.InsertIdx
import Mathlib.Data.List.Nodup
import Mathlib.Data.List.Sort
import Pruner.Te.Operation

/-!
# Stages of a schedule

A stage holds the loop nest of one operation.  The loop transformations of
`src/te/schedule/schedule_lang.cc` edit the list of leaf variables in place and
record how new variables relate to old ones.

A failed `ICHECK` or `LOG(FATAL)` is `none`.

## Main definitions

* `Stage` — an operation, its loop variables, their relations and attributes, and
  the place the stage is attached to.
* `Stage.splitHelper`, `Stage.fuse`, `Stage.reorder` — the loop transformations.
* `Stage.splitHelper_of_leaf`, `Stage.fusePair_of_leaf` — what they do to the leaves.
-/

namespace Pruner.Te

/-- How a stage is placed in the schedule. -/
inductive AttachType where
  | kGroupRoot
  | kInline
  | kInlinedAlready
  | kScope
  | kScanUpdate
  deriving DecidableEq, Repr, Inhabited

/-- `IterVarAttrNode`: what is attached to one loop.  A bound thread is given by its
tag; a pragma without value has `none`. -/
structure IterVarAttr where
  iterType : IterVarType := .kDataPar
  bindThread : Option String := none
  pragmas : List (String × Option ℤ) := []
  dimAlignFactor : ℤ := 0
  dimAlignOffset : ℤ := 0
  deriving DecidableEq, Repr, Inhabited

/-- `StageNode`.  A stage is found again by the operation it was created for, so
`attachStage` is the number of that operation. -/
structure Stage where
  op : Operation
  originOp : Operation
  allIterVars : List IterVar
  leafIterVars : List IterVar
  relations : List Relation
  iterVarAttrs : List (IterVar × IterVarAttr)
  attachType : AttachType
  attachIvar : Option IterVar
  attachStage : Option ℕ
  scope : String
  deriving DecidableEq, Repr, Inhabited

namespace Stage

/-- The stage of an unscheduled operation. -/
def ofOp (op : Operation) : Stage where
  op := op
  originOp := op
  allIterVars := op.rootIterVars
  leafIterVars := op.rootIterVars.filter fun iv => iv.iterType ≠ .kOpaque
  relations := []
  iterVarAttrs := []
  attachType := .kGroupRoot
  attachIvar := none
  attachStage := none
  scope := ""

variable (s : Stage) (v : IterVar)

/-- `FindLeafVar`: the first position of a variable among the leaves. -/
def findLeafVar : Option ℕ :=
  if v ∈ s.leafIterVars then some (s.leafIterVars.idxOf v) else none

/-- A loop type that may be split or fused. -/
def Splittable (t : IterVarType) : Prop := t = .kDataPar ∨ t = .kCommReduce ∨ t = .kOrdered

instance (t : IterVarType) : Decidable (Splittable t) := inferInstanceAs (Decidable (_ ∨ _ ∨ _))

/-- The variable that a stage makes as its `i`-th next one. -/
def freshVar (i : ℕ) (name : String) (iterType : IterVarType) : IterVar :=
  ⟨.made s.op.id (s.allIterVars.length + i), name, iterType, none⟩

variable (parent : IterVar)

def splitOuter : IterVar := s.freshVar 0 (parent.name ++ ".outer") parent.iterType

def splitInner : IterVar := s.freshVar 1 (parent.name ++ ".inner") parent.iterType

/-- Record the split of the leaf at position `pos`. -/
def recordSplit (factor nparts : Option ℤ) (pos : ℕ) : Stage :=
  let outer := s.splitOuter parent
  let inner := s.splitInner parent
  { s with
    relations := s.relations ++ [.split parent outer inner factor nparts]
    allIterVars := s.allIterVars ++ [outer, inner]
    leafIterVars := ((s.leafIterVars.eraseIdx pos).insertIdx pos inner).insertIdx pos outer }

/-- `SplitHelper`: replace a leaf by an outer and an inner loop. -/
def splitHelper (factor nparts : Option ℤ) : Option (Stage × IterVar × IterVar) :=
  if Splittable parent.iterType then
    (s.findLeafVar parent).map fun pos =>
      (s.recordSplit parent factor nparts pos, s.splitOuter parent, s.splitInner parent)
  else none

def split (factor : ℤ) : Option (Stage × IterVar × IterVar) :=
  s.splitHelper parent (some factor) none

def splitByNparts (nparts : ℤ) : Option (Stage × IterVar × IterVar) :=
  s.splitHelper parent none (some nparts)

/-- The type of a fused loop: the later one in the enumeration. -/
def fusedType (outer inner : IterVar) : IterVarType :=
  if outer.iterType.toNat < inner.iterType.toNat then inner.iterType else outer.iterType

/-- The loop that a fuse makes. -/
def fusedVar (outer inner : IterVar) : IterVar :=
  s.freshVar 0 (outer.name ++ "." ++ inner.name ++ ".fused") (fusedType outer inner)

/-- Record the fuse of two neighbouring leaves, the outer one at position `pos`. -/
def recordFuse (outer inner fused : IterVar) (pos : ℕ) : Stage :=
  { s with
    relations := s.relations ++ [.fuse outer inner fused]
    allIterVars := s.allIterVars ++ [fused]
    leafIterVars := ((s.leafIterVars.eraseIdx (pos + 1)).eraseIdx pos).insertIdx pos fused }

/-- `Stage::fuse` of two loops.  They may be given in either order, and the order of
the leaves decides which one is the outer loop. -/
def fusePair (outer inner : IterVar) : Option (Stage × IterVar) :=
  if Splittable outer.iterType ∧ Splittable inner.iterType then do
    let fused := s.fusedVar outer inner
    let posInner ← s.findLeafVar inner
    let posOuter ← s.findLeafVar outer
    if posInner + 1 = posOuter then some (s.recordFuse inner outer fused posInner, fused)
    else if posInner = posOuter + 1 then some (s.recordFuse outer inner fused posOuter, fused)
    else none
  else none

/-- `Stage::fuse` of no loop: a loop of one iteration outside of all others. -/
def fuseEmpty : Stage × IterVar :=
  let singleton : IterVar :=
    ⟨.made s.op.id s.allIterVars.length, "singleton", .kDataPar, some (.upTo 1)⟩
  ({ s with
    relations := s.relations ++ [.singleton singleton]
    allIterVars := s.allIterVars ++ [singleton]
    leafIterVars := singleton :: s.leafIterVars }, singleton)

/-- Fuse further loops into one that is already fused. -/
def fuseOnto (s : Stage) (fused : IterVar) : List IterVar → Option (Stage × IterVar)
  | [] => some (s, fused)
  | iv :: rest => do
    let (s', fused') ← s.fusePair fused iv
    fuseOnto s' fused' rest

/-- `Stage::fuse` of a list of loops. -/
def fuse : List IterVar → Option (Stage × IterVar)
  | [] => some s.fuseEmpty
  | iv :: rest => s.fuseOnto iv rest

/-! ### What they do to the leaves -/

theorem eraseIdx_length_append {α : Type*} (l₁ l₂ : List α) (a : α) :
    (l₁ ++ a :: l₂).eraseIdx l₁.length = l₁ ++ l₂ := by
  simp [List.eraseIdx_append_of_length_le]

theorem insertIdx_length_append {α : Type} (l₁ l₂ : List α) (a : α) :
    (l₁ ++ l₂).insertIdx l₁.length a = l₁ ++ a :: l₂ := by
  induction l₁ with
  | nil => rfl
  | cons b l₁ ih => simp [ih]

section

variable {s} {l₁ l₂ : List IterVar}

theorem findLeafVar_of_leaf {v : IterVar} (hleaf : s.leafIterVars = l₁ ++ v :: l₂)
    (hv : v ∉ l₁) : s.findLeafVar v = some l₁.length := by
  simp [findLeafVar, hleaf, List.idxOf_append_of_notMem hv]

/-- The leaves and the record of a split. -/
theorem splitHelper_of_leaf {v : IterVar} (hleaf : s.leafIterVars = l₁ ++ v :: l₂)
    (hv : v ∉ l₁) (ht : Splittable v.iterType) (factor nparts : Option ℤ) :
    s.splitHelper v factor nparts =
      some ({ s with
        relations := s.relations ++ [.split v (s.splitOuter v) (s.splitInner v) factor nparts]
        allIterVars := s.allIterVars ++ [s.splitOuter v, s.splitInner v]
        leafIterVars := l₁ ++ s.splitOuter v :: s.splitInner v :: l₂ },
        s.splitOuter v, s.splitInner v) := by
  rw [splitHelper, if_pos ht, findLeafVar_of_leaf hleaf hv]
  simp [recordSplit, hleaf, eraseIdx_length_append, insertIdx_length_append]

/-- The leaves and the record of a fuse of two neighbours. -/
theorem fusePair_of_leaf {a b : IterVar} (hleaf : s.leafIterVars = l₁ ++ a :: b :: l₂)
    (hnd : (l₁ ++ [a, b]).Nodup) (ha : Splittable a.iterType) (hb : Splittable b.iterType) :
    s.fusePair a b =
      some ({ s with
        relations := s.relations ++ [.fuse a b (s.fusedVar a b)]
        allIterVars := s.allIterVars ++ [s.fusedVar a b]
        leafIterVars := l₁ ++ s.fusedVar a b :: l₂ }, s.fusedVar a b) := by
  have ha₁ : a ∉ l₁ := fun h => List.disjoint_of_nodup_append hnd h List.mem_cons_self
  have hb₁ : b ∉ l₁ ++ [a] := fun h =>
    List.disjoint_of_nodup_append (List.append_cons l₁ a [b] ▸ hnd) h List.mem_cons_self
  have hposA := findLeafVar_of_leaf hleaf ha₁
  have hposB : s.findLeafVar b = some (l₁.length + 1) := by
    have hleaf' : s.leafIterVars = (l₁ ++ [a]) ++ b :: l₂ := by simp [hleaf]
    simpa using findLeafVar_of_leaf hleaf' hb₁
  have herase : (l₁ ++ a :: b :: l₂).eraseIdx (l₁.length + 1) = l₁ ++ a :: l₂ := by
    simpa using eraseIdx_length_append (l₁ ++ [a]) l₂ b
  have hne : ¬ (l₁.length + 1 + 1 = l₁.length) := by omega
  simp [fusePair, ha, hb, hposA, hposB, hne, recordFuse, hleaf, herase, eraseIdx_length_append,
    insertIdx_length_append]

end

/-- A loop type that `reorder` accepts. -/
def Reorderable (t : IterVarType) : Prop := t = .kDataPar ∨ t = .kCommReduce ∨ t = .kThreadIndex

instance (t : IterVarType) : Decidable (Reorderable t) := inferInstanceAs (Decidable (_ ∨ _ ∨ _))

/-- `Stage::reorder`: the given loops take the places they occupy, in the given order. -/
def reorder (order : List IterVar) : Option Stage :=
  if (∀ iv ∈ order, Reorderable iv.iterType) ∧ order.Nodup then do
    let pos ← order.mapM s.findLeafVar
    let places := (pos.insertionSort (· ≤ ·)).zip order
    some { s with leafIterVars := places.foldl (fun l p => l.set p.1 p.2) s.leafIterVars }
  else none

/-! ## Attributes of loops -/

/-- The attributes of a loop; a loop without any has the defaults. -/
def attrOf : IterVarAttr := (s.iterVarAttrs.lookup v).getD {}

/-- Change the attributes of a loop. -/
def updateIterVarAttr (f : IterVarAttr → IterVarAttr) : Stage :=
  { s with
    iterVarAttrs := (v, f (s.attrOf v)) :: s.iterVarAttrs.filter fun p => p.1 ≠ v }

/-- Change the attributes of a leaf; it is an error if the loop is no leaf. -/
def updateLeafAttr (f : IterVarAttr → IterVarAttr) : Option Stage := do
  let _ ← s.findLeafVar v
  some (s.updateIterVarAttr v f)

def bind (thread : String) : Option Stage :=
  if v.iterType = .kDataPar ∨ v.iterType = .kCommReduce then
    s.updateLeafAttr v fun a => { a with bindThread := some thread }
  else none

def unroll : Option Stage := s.updateLeafAttr v fun a => { a with iterType := .kUnrolled }

def parallel : Option Stage := s.updateLeafAttr v fun a => { a with iterType := .kParallelized }

/-- A loop type that may be vectorized; reductions may not. -/
def Vectorizable (t : IterVarType) : Prop :=
  t = .kDataPar ∨ t = .kOpaque ∨ t = .kUnrolled ∨ t = .kVectorized ∨ t = .kTensorized ∨
    t = .kParallelized

instance (t : IterVarType) : Decidable (Vectorizable t) :=
  inferInstanceAs (Decidable (_ ∨ _ ∨ _ ∨ _ ∨ _ ∨ _))

def vectorize : Option Stage :=
  if Vectorizable v.iterType then
    s.updateLeafAttr v fun a => { a with iterType := .kVectorized }
  else none

def pragma (pragmaType : String) (value : Option ℤ) : Option Stage :=
  if pragmaType = "unroll" then s.unroll v
  else if pragmaType = "vectorize" then s.vectorize v
  else s.updateLeafAttr v fun a => { a with pragmas := a.pragmas ++ [(pragmaType, value)] }

/-- `Stage::storage_align`, which does not ask for a leaf. -/
def storageAlign (factor offset : ℤ) : Stage :=
  s.updateIterVarAttr v fun a => { a with dimAlignFactor := factor, dimAlignOffset := offset }

/-! ## Placement -/

/-- `Stage::compute_at`, given the parent stage. -/
def computeAt (s parent : Stage) (scope : IterVar) : Option Stage :=
  if scope ∈ parent.leafIterVars then
    some { s with
      attachType := .kScope
      attachIvar := some scope
      attachStage := some parent.originOp.id }
  else none

/-- `Stage::compute_inline`; the old attach point stays in the fields. -/
def computeInline : Stage := { s with attachType := .kInline }

/-- `Stage::compute_root`; the old attach point stays in the fields. -/
def computeRoot : Stage := { s with attachType := .kGroupRoot }

end Stage

end Pruner.Te
