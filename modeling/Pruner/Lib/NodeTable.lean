import Mathlib.Data.List.Induction

/-!
# Tables of nodes

Nodes are kept in a table that only grows, and a node refers to earlier ones by their
position.  The value of a node is computed from the values of the nodes before it, so
a longer table gives the same values to the nodes it already had.

## Main definitions

* `nodeValues f nodes` — the values of all nodes.
* `nodeValues_append` — a longer table keeps the values.
* `getElem?_nodeValues` — the value of a node, from the values before it.
-/

namespace Pruner.Lib

variable {ν α : Type*} (f : List α → ν → α)

/-- The values of the nodes of a table, each computed from the ones before it. -/
def nodeValues (nodes : List ν) : List α := nodes.foldl (fun vs n => vs ++ [f vs n]) []

theorem nodeValues_concat (nodes : List ν) (n : ν) :
    nodeValues f (nodes ++ [n]) = nodeValues f nodes ++ [f (nodeValues f nodes) n] := by
  simp [nodeValues]

@[simp] theorem length_nodeValues (nodes : List ν) :
    (nodeValues f nodes).length = nodes.length := by
  induction nodes using List.reverseRecOn with
  | nil => rfl
  | append_singleton nodes n ih => simp [nodeValues_concat, ih]

/-- **A longer table keeps the values.** -/
theorem nodeValues_append (nodes more : List ν) :
    nodeValues f nodes <+: nodeValues f (nodes ++ more) := by
  induction more using List.reverseRecOn with
  | nil => simp
  | append_singleton more n ih =>
    rw [← List.append_assoc, nodeValues_concat]
    exact ih.trans (List.prefix_append _ _)

theorem getElem?_nodeValues {nodes : List ν} {i : ℕ} {n : ν} (h : nodes[i]? = some n) :
    (nodeValues f nodes)[i]? = some (f (nodeValues f (nodes.take i)) n) := by
  obtain ⟨hlt, rfl⟩ := getElem?_eq_some_iff.mp h
  have hsplit : nodes = nodes.take i ++ [nodes[i]] ++ nodes.drop (i + 1) := by simp
  obtain ⟨rest, hrest⟩ := nodeValues_append f (nodes.take i ++ [nodes[i]]) (nodes.drop (i + 1))
  rw [← hsplit, nodeValues_concat] at hrest
  have hlen : (nodeValues f (nodes.take i)).length = i := by simp [Nat.le_of_lt hlt]
  rw [← hrest, List.append_assoc, List.getElem?_append_right (Nat.le_of_eq hlen), hlen]
  simp

end Pruner.Lib
