import Mathlib.Data.Int.Basic
import Pruner.Lib.TwoWayMap

/-!
# The attach map of a search state

`AttachMap` stores which stage is computed at which loop of which stage, in both
directions: `stage_to_attach_iter` and `iter_to_attached_stages`.  A loop is named by
its position, `(stage, iterator)`, so steps that add or remove loops have to rename
the entries of the loops behind them.

## Main definitions

* `AttachMap` — a two-way map from stages to loop positions.
* `AttachMap.setComputeAtIter`, `deleteStage`, `updateIters`, `applyStageIdOffset` —
  the methods of the class.
* `AttachMap.exact_applyStageIdOffset` — renumbering stages keeps the two directions
  inverse.
-/

namespace Pruner.AutoScheduler

open Lib

/-- `IterKey`: a stage and the position of one of its iterators. -/
abbrev IterKey := ℤ × ℤ

/-- `AttachMapNode`. -/
abbrev AttachMap := TwoWayMap ℤ IterKey

namespace AttachMap

abbrev stageToAttachIter (m : AttachMap) : ℤ → Option IterKey := m.target

abbrev iterToAttachedStages (m : AttachMap) : IterKey → Option (List ℤ) := m.sources

def deleteStage (m : AttachMap) (stageId : ℤ) : AttachMap := m.erase stageId

def setComputeAtIter (m : AttachMap) (stageId targetStageId targetIterId : ℤ) : AttachMap :=
  m.insert stageId (targetStageId, targetIterId)

/-- `UpdateIters`: the two lists must have the same length. -/
def updateIters (m : AttachMap) (originalIters newIters : List IterKey) : Option AttachMap :=
  if originalIters.length = newIters.length then some (m.rekey (originalIters.zip newIters))
  else none

/-- A stage number after `offset` stages were inserted at `start`. -/
def shiftId (start : ℤ) (offset : ℕ) (s : ℤ) : ℤ := if start ≤ s then s + offset else s

/-- The stage that had another number before the insertion; the new stages have none. -/
def unshiftId (start : ℤ) (offset : ℕ) (s : ℤ) : Option ℤ :=
  if s < start then some s else if start + offset ≤ s then some (s - offset) else none

def shiftKey (start : ℤ) (offset : ℕ) (k : IterKey) : IterKey := (shiftId start offset k.1, k.2)

def unshiftKey (start : ℤ) (offset : ℕ) (k : IterKey) : Option IterKey :=
  (unshiftId start offset k.1).map fun s => (s, k.2)

def applyStageIdOffset (m : AttachMap) (start : ℤ) (offset : ℕ) : AttachMap :=
  m.relabel (shiftId start offset) (unshiftId start offset)
    (shiftKey start offset) (unshiftKey start offset)

theorem isPartialInv_shiftId (start : ℤ) (offset : ℕ) :
    Function.IsPartialInv (shiftId start offset) (unshiftId start offset) := by
  intro s s'
  simp only [shiftId, unshiftId]
  split <;> split <;> simp <;> omega

theorem isPartialInv_shiftKey (start : ℤ) (offset : ℕ) :
    Function.IsPartialInv (shiftKey start offset) (unshiftKey start offset) := by
  intro k k'
  have h := isPartialInv_shiftId start offset k.1 k'.1
  simp only [shiftKey, unshiftKey, Option.map_eq_some_iff, Prod.ext_iff]
  constructor
  · intro hk
    rcases hk with ⟨s, hs, rfl, hsnd⟩
    exact ⟨h.mp hs, hsnd.symm⟩
  · intro hk
    exact ⟨k.1, h.mpr hk.1, rfl, hk.2.symm⟩

/-- Renumbering the stages keeps the two directions inverse. -/
theorem exact_applyStageIdOffset {m : AttachMap} (H : m.Exact) (start : ℤ) (offset : ℕ) :
    (m.applyStageIdOffset start offset).Exact :=
  TwoWayMap.exact_relabel (isPartialInv_shiftId start offset)
    (isPartialInv_shiftKey start offset) H

end AttachMap

end Pruner.AutoScheduler
