import Pruner.Tir.Expr

/-!
# Iterators and transform steps

The loop iterators of the auto-scheduler's search states and the fourteen kinds of
transform step that a state records (`transform_step.h`).

A step is plain data.  The integers of a step come from search policies and log
files, so they may be negative or too large; every use of one as an index is
checked.  A split length that a search policy has not chosen yet is `none`.

## Main definitions

* `Iterator` — name, range, kind and annotation of a loop, and the loops it was
  fused from.
* `Step` — the transform steps.
* `extractSplitLengths`, `extractSplitLength` — the lengths that `FollowSplitStep` and
  `FollowFusedSplitStep` take from earlier split steps.
-/

namespace Pruner.AutoScheduler

open Tir

/-! ## Strings -/

/-- `StrReplace` on characters.  `skip` counts the characters of a match that are
still to be dropped. -/
def replaceChars (pat new : List Char) : ℕ → List Char → List Char
  | _, [] => []
  | skip + 1, _ :: cs => replaceChars pat new skip cs
  | 0, c :: cs =>
    if pat.isPrefixOf (c :: cs) then new ++ replaceChars pat new (pat.length - 1) cs
    else c :: replaceChars pat new 0 cs

/-- `StrReplace`, for a pattern that is not empty. -/
def strReplace (base pat new : String) : String :=
  String.ofList (replaceChars pat.toList new.toList 0 base.toList)

def strStartsWith (a b : String) : Bool := b.toList.isPrefixOf a.toList

/-- `CleanName` without a scope name. -/
def cleanName (s : String) : String :=
  strReplace (strReplace (strReplace (strReplace s "." "_") "@" "_") "outer" "o") "inner" "i"

/-- The digits at the front of a text, as a number. -/
def leadingNat (acc : ℕ) : List Char → ℕ
  | [] => acc
  | c :: cs => if c.isDigit then leadingNat (acc * 10 + (c.toNat - '0'.toNat)) cs else acc

/-- `atoi`: blanks, an optional sign, digits. -/
def atoi : List Char → ℤ
  | [] => 0
  | c :: cs =>
    if c.isWhitespace then atoi cs
    else if c = '-' then -(leadingNat 0 cs : ℤ)
    else if c = '+' then leadingNat 0 cs
    else leadingNat 0 (c :: cs)

/-! ## Iterators -/

inductive IteratorKind where
  | kSpatial
  | kReduction
  | kMixed
  | kSpecial
  deriving DecidableEq, Repr, Inhabited

inductive IteratorAnnotation where
  | kNone
  | kUnroll
  | kVectorize
  | kParallel
  | kVThread
  | kBlockX
  | kThreadX
  | kBlockY
  | kThreadY
  | kBlockZ
  | kThreadZ
  | kTensorize
  deriving DecidableEq, Repr, Inhabited

/-- An iterator.  The range is absent when it is not known. -/
structure Iterator where
  name : String
  range : Option Range
  iterKind : IteratorKind
  ann : IteratorAnnotation
  origIters : List Iterator
  deriving Repr, Inhabited

/-! ## Steps -/

/-- The transform steps, with the fields of the step nodes. -/
inductive Step where
  | annotationStep (stageId iterId : ℤ) (ann : IteratorAnnotation)
  | fuseStep (stageId : ℤ) (fusedIds : List ℤ)
  | pragmaStep (stageId iterId : ℤ) (pragmaType : String)
  | reorderStep (stageId : ℤ) (afterIds : List ℤ)
  | splitStep (stageId iterId : ℤ) (extent : Option ℤ) (lengths : List (Option ℤ))
      (innerToOuter : Bool)
  | followSplitStep (stageId iterId srcStepId nSplit : ℤ)
  | followFusedSplitStep (stageId iterId : ℤ) (srcStepIds : List ℤ) (level : ℤ)
      (factorOrNparts : Bool)
  | storageAlignStep (stageId iterId factor offset : ℤ)
  | computeAtStep (stageId targetStageId targetIterId : ℤ)
  | computeInlineStep (stageId : ℤ)
  | computeRootStep (stageId : ℤ)
  | cacheReadStep (stageId : ℤ) (scopeName : String) (readerStageIds : List ℤ)
  | cacheWriteStep (stageId : ℤ) (scopeName : String)
  | rfactorStep (stageId iterId factorIterId : ℤ)
  deriving DecidableEq, Repr, Inhabited

def Step.stageId : Step → ℤ
  | .annotationStep s _ _ | .fuseStep s _ | .pragmaStep s _ _ | .reorderStep s _
  | .splitStep s _ _ _ _ | .followSplitStep s _ _ _ | .followFusedSplitStep s _ _ _ _
  | .storageAlignStep s _ _ _ | .computeAtStep s _ _ | .computeInlineStep s
  | .computeRootStep s | .cacheReadStep s _ _ | .cacheWriteStep s _ | .rfactorStep s _ _ => s

/-! ## Split lengths -/

/-- A split step that gives all its lengths. -/
def Step.Filled : Step → Prop
  | .splitStep _ _ _ lengths _ => ∀ l ∈ lengths, l.isSome
  | _ => True

theorem mapM_id_map_some (ls : List ℤ) : (ls.map some).mapM id = some ls := by
  induction ls with
  | nil => rfl
  | cons l ls ih =>
    rw [List.map_cons, List.mapM_cons, ih]
    rfl

theorem exists_eq_map_some {lengths : List (Option ℤ)} (h : ∀ l ∈ lengths, l.isSome) :
    ∃ ls : List ℤ, lengths = ls.map some := by
  induction lengths with
  | nil => exact ⟨[], rfl⟩
  | cons l lengths ih =>
    obtain ⟨ls, rfl⟩ := ih (List.forall_mem_cons.mp h).2
    obtain ⟨x, rfl⟩ := Option.isSome_iff_exists.mp (h l List.mem_cons_self)
    exact ⟨x :: ls, rfl⟩

/-! ## Lengths taken from earlier steps -/

/-- The lengths of the step at a position, which has to be a split step. -/
def splitLengthsAt (steps : List Step) (id : ℤ) : Option (List (Option ℤ)) := do
  let i ← id.toNat?
  match steps[i]? with
  | some (.splitStep _ _ _ lengths _) => some lengths
  | _ => none

/-- The product of split lengths, unknown if one of them is. -/
def lengthProd (lengths : List (Option ℤ)) : Option ℤ :=
  lengths.foldlM (fun acc l => l.map (acc * ·)) 1

/-- `FollowSplitStepNode::ExtractSplitLengths`: the first `nSplit - 1` lengths of the
step followed, and the product of the others. -/
def extractSplitLengths (steps : List Step) (srcStepId nSplit : ℤ) : Option (List (Option ℤ)) := do
  let lengths ← splitLengthsAt steps srcStepId
  if 0 ≤ nSplit ∧ nSplit ≤ lengths.length + 1 then
    let k := (nSplit - 1).toNat
    some (lengths.take k ++ [lengthProd (lengths.drop k)])
  else none

/-- `FollowFusedSplitStepNode::ExtractSplitLength`: the product of the lengths at one
level.  The loop returns at the first unknown length, without looking at the
remaining steps. -/
def extractSplitLength (steps : List Step) (level : ℤ) : ℤ → List ℤ → Option (Option ℤ)
  | acc, [] => some (some acc)
  | acc, id :: rest => do
    let lengths ← splitLengthsAt steps id
    let j ← level.toNat?
    let l ← lengths[j]?
    match l with
    | some x => extractSplitLength steps level (acc * x) rest
    | none => some none

end Pruner.AutoScheduler
