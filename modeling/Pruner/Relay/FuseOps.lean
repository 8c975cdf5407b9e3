import Pruner.Lib.Dataflow
import Pruner.Lib.ParentForest

/-!
# Operator fusion

`GraphPartitioner` groups the operators of a dataflow graph.  A node is fused with its
immediate post-dominator, together with everything in between, when the patterns of the
operators allow it; this is done in three phases.  Groups are a union-find structure.

Nodes are their indices in `post_dfs_order`, and so are the references of groups.  A failed
check is `none`.  A `CheckPath` that fails does not keep the paths it has compressed.

## Main definitions

* `IndexedForwardGraph` — the graph, in topological order.
* `DomNode`, `postDom` — the tree of immediate post-dominators.
* `Group`, `Groups` — the groups, with `findRoot` and `mergeFromTo`.
* `checkPath`, `commitFuse` — the two walks of a fusion.
* `fuseNode`, `runFuse`, `partition` — the three phases.
-/

namespace Pruner.Relay

open Lib (Upward walkFrom forestRoot compressPath)

/-- The pattern of an operator. -/
inductive OpPatternKind where
  | kElemWise | kBroadcast | kInjective | kCommReduce | kOutEWiseFusable | kTuple | kOpaque
  deriving DecidableEq, Repr, Inhabited

namespace OpPatternKind

/-- The number of a pattern. -/
def toNat : OpPatternKind → ℕ
  | kElemWise => 0
  | kBroadcast => 1
  | kInjective => 2
  | kCommReduce => 3
  | kOutEWiseFusable => 4
  | kTuple => 7
  | kOpaque => 8

instance : LE OpPatternKind := ⟨fun a b => a.toNat ≤ b.toNat⟩

instance (a b : OpPatternKind) : Decidable (a ≤ b) :=
  inferInstanceAs (Decidable (a.toNat ≤ b.toNat))

def larger (lhs rhs : OpPatternKind) : OpPatternKind := if lhs ≤ rhs then rhs else lhs

end OpPatternKind

open OpPatternKind

/-! ## The graph -/

/-- An edge to a consumer, with the pattern of the operator for this argument. -/
structure ForwardEdge where
  node : ℕ
  pattern : OpPatternKind
  deriving DecidableEq, Repr

/-- A node of the graph. -/
structure ForwardNode where
  externRef : Bool
  pattern : OpPatternKind
  outputs : List ForwardEdge
  deriving DecidableEq, Repr, Inhabited

/-- Whether the consumers of all nodes come later. -/
def topological (order : List ForwardNode) : Bool :=
  order.zipIdx.all fun p => p.1.outputs.all fun e => p.2 < e.node && e.node < order.length

/-- A dataflow graph in topological order. -/
structure IndexedForwardGraph where
  postDfsOrder : List ForwardNode
  ordered : topological postDfsOrder = true

namespace IndexedForwardGraph

variable (graph : IndexedForwardGraph)

/-- The number of nodes. -/
def size : ℕ := graph.postDfsOrder.length

def node (i : ℕ) : ForwardNode := graph.postDfsOrder.getD i ⟨false, kOpaque, []⟩

/-- The nodes that use the value of a node. -/
def consumers (i : ℕ) : List ℕ := (graph.node i).outputs.map (·.node)

end IndexedForwardGraph

/-! ## Post-dominators -/

/-- A node of the tree of immediate post-dominators. -/
structure DomNode where
  parent : Option ℕ
  depth : ℕ
  pattern : OpPatternKind
  deriving DecidableEq, Repr, Inhabited

variable (tree : ℕ → DomNode)

/-- The loop of `LeastCommonAncestor` for two nodes.  Every round goes up in the tree. -/
def leastCommonAncestor : ℕ → Option ℕ → Option ℕ → OpPatternKind → Option ℕ × OpPatternKind
  | 0, _, _, pattern => (none, pattern)
  | fuel + 1, lhs, rhs, pattern =>
    if lhs = rhs then (lhs, pattern)
    else
      match lhs, rhs with
      | some l, some r =>
        if (tree l).depth < (tree r).depth then
          leastCommonAncestor fuel lhs (tree r).parent (pattern.larger (tree r).pattern)
        else if (tree r).depth < (tree l).depth then
          leastCommonAncestor fuel (tree l).parent rhs (pattern.larger (tree l).pattern)
        else
          leastCommonAncestor fuel (tree l).parent (tree r).parent
            ((pattern.larger (tree l).pattern).larger (tree r).pattern)
      | _, _ => (none, pattern)

/-- More rounds than there are nodes above two nodes. -/
def ancestorFuel (lhs : Option ℕ) (rhs : ℕ) : ℕ :=
  (match lhs with
    | none => 0
    | some l => (tree l).depth) + (tree rhs).depth + 2

/-- One more output of a node. -/
def ancestorStep (acc : Option ℕ × OpPatternKind) (e : ForwardEdge) : Option ℕ × OpPatternKind :=
  let (parent, pattern) :=
    leastCommonAncestor tree (ancestorFuel tree acc.1 e.node) acc.1 (some e.node) acc.2
  (parent, pattern.larger e.pattern)

/-- `LeastCommonAncestor` for the outputs of a node. -/
def leastCommonAncestorOf (outputs : List ForwardEdge) (pattern : OpPatternKind) :
    Option ℕ × OpPatternKind :=
  match outputs with
  | [] => (none, pattern)
  | e :: rest => rest.foldl (ancestorStep tree) (some e.node, pattern.larger e.pattern)

def getNode (gnode : ForwardNode) : DomNode :=
  if gnode.externRef then ⟨none, 1, kOpaque⟩
  else
    let (parent, pattern) := leastCommonAncestorOf tree gnode.outputs kElemWise
    let depth := match parent with
      | some p => (tree p).depth + 1
      | none => 1
    ⟨parent, depth, pattern⟩

/-- `PostDom`: the nodes are added in reverse order. -/
def postDom (graph : IndexedForwardGraph) : ℕ → DomNode :=
  (List.range graph.size).reverse.foldl (fun tree i =>
    Function.update tree i (getNode tree (graph.node i))) fun _ => ⟨none, 0, kOpaque⟩

/-! ## Groups -/

/-- A group, apart from its parent. -/
structure Group where
  pattern : OpPatternKind
  rootRef : ℕ
  anchorRef : Option ℕ
  numNodes : ℕ
  deriving DecidableEq, Repr, Inhabited

/-- All groups, by the nodes they were made for. -/
structure Groups where
  parent : ℕ → Option ℕ
  info : ℕ → Group

/-- `CombinePattern` of groups. -/
def combinePattern (lhs rhs : OpPatternKind) : Option OpPatternKind :=
  if ¬ lhs ≤ kBroadcast ∧ ¬ rhs ≤ kBroadcast then none else some (lhs.larger rhs)

/-- `FindRoot`, with path compression. -/
def findRoot (n : ℕ) (groups : Groups) (i : ℕ) : ℕ × Groups :=
  let root := forestRoot n groups.parent i
  (root, { groups with parent := compressPath root n i groups.parent })

def mergeFromTo (n : ℕ) (groups : Groups) (child parent : ℕ) : Option Groups :=
  let (child, groups) := findRoot n groups child
  let (parent, groups) := findRoot n groups parent
  if child = parent then some groups
  else
    let c := groups.info child
    let p := { groups.info parent with
      numNodes := (groups.info parent).numNodes + c.numNodes }
    let parents := Function.update groups.parent child (some parent)
    match c.anchorRef with
    | none => some ⟨parents, Function.update groups.info parent p⟩
    | some anchor =>
      if p.anchorRef ≠ none then none
      else
        (combinePattern c.pattern p.pattern).map fun pattern =>
          ⟨parents, Function.update groups.info parent
            { p with anchorRef := some anchor, pattern := pattern }⟩

def initGroups (graph : IndexedForwardGraph) : Groups where
  parent _ := none
  info i :=
    let pattern := (graph.node i).pattern
    ⟨pattern, i, if pattern = kOutEWiseFusable then some i else none, 1⟩

variable (graph : IndexedForwardGraph)

/-! ## The walks of a fusion -/

variable (sink : ℕ) (fcond : OpPatternKind → Bool → Bool) (groups : Groups) (src nid : ℕ)

/-- What `CheckPath_` does with a node. -/
def checkNode (x : ℕ) : Option Groups :=
  let (root, groups) := findRoot graph.size groups x
  if fcond (groups.info root).pattern (x == sink) then some groups else none

def checkPath (sink : ℕ) (fcond : OpPatternKind → Bool → Bool) : Option (Bool × Groups) :=
  if (graph.node src).externRef ∨ src = sink then none
  else
    match (graph.consumers src).foldlM (fun st y => walkFrom graph.consumers (fun _ => false)
        (· == sink) (checkNode graph sink fcond) graph.size y st) (groups, []) with
    | some st => some (true, st.1)
    | none => some (false, groups)

def commitFuse (sink : ℕ) : Option Groups :=
  if src = sink then none
  else
    (walkFrom graph.consumers (· == sink) (fun _ => false)
      (fun groups x => mergeFromTo graph.size groups x sink) graph.size src (groups, [])).map
      Prod.fst

def countFusedNodesWithNewChild (child domParent : ℕ) : Option (ℕ × Groups) := do
  if child = domParent then none
  let (root, groups) := findRoot graph.size groups domParent
  let st ← walkFrom graph.consumers (· == domParent) (fun _ => false)
    (fun sum x => some (sum + (groups.info x).numNodes)) graph.size child (0, [])
  some ((groups.info root).numNodes + st.1, groups)

/-- Fuse a node if all paths to its post-dominator allow it. -/
def tryFuse (sink : ℕ) (fcond : OpPatternKind → Bool → Bool) : Option Groups := do
  let (ok, groups) ← checkPath graph groups src sink fcond
  if ok then commitFuse graph groups src sink else some groups

/-! ## The phases -/

/-- The condition for elementwise and broadcast operators. -/
def broadcastCond (kind : OpPatternKind) (isSink : Bool) : Bool :=
  if isSink then
    kind ≤ kBroadcast || kind = kCommReduce || kind = kInjective || kind = kOutEWiseFusable
  else kind ≤ kInjective

/-- The part of `RunFuse` for phase 2. -/
def fuseIntoTuple (domParent : ℕ) : Option Groups :=
  if ¬ (groups.info nid).pattern ≤ kInjective then some groups
  else
    let (root, groups) := findRoot graph.size groups domParent
    if (groups.info root).pattern = kTuple then some groups
    else if (groups.info domParent).pattern = kTuple ∧ (groups.info root).pattern ≤ kInjective then
      tryFuse graph groups nid domParent fun kind _ => kind ≤ kInjective
    else some groups

/-- The part of `RunFuse` for the phases 0 and 1. -/
def fuseIntoParent (dom : DomNode) (phase : ℕ) (groups : Groups) (nid domParent : ℕ) :
    Option Groups :=
  let (root, groups) := findRoot graph.size groups nid
  let (domRoot, groups) := findRoot graph.size groups domParent
  let pattern := (groups.info nid).pattern
  if root = domRoot then some groups
  else if (groups.info domParent).pattern = kTuple then some groups
  else if pattern = kOutEWiseFusable then
    if phase = 0 ∧ dom.pattern = kElemWise then
      tryFuse graph groups nid domParent fun kind _ => kind ≤ kBroadcast
    else some groups
  else if pattern ≤ kBroadcast then
    if dom.pattern ≤ kInjective ∨ dom.pattern = kCommReduce then
      tryFuse graph groups nid domParent broadcastCond
    else some groups
  else if pattern = kInjective ∨ pattern = kTuple then
    if phase = 1 then tryFuse graph groups nid domParent fun kind _ => kind ≤ kInjective
    else some groups
  else if pattern = kCommReduce then some groups
  else none

/-- The loop body of `RunFuse`. -/
def fuseNode (tree : ℕ → DomNode) (maxFuseDepth phase : ℕ) (groups : Groups) (nid : ℕ) :
    Option Groups :=
  if (groups.info nid).pattern = kOpaque then some groups
  else
    match (tree nid).parent with
    | none => some groups
    | some domParent =>
      if (graph.node nid).externRef then none
      else do
        let (count, groups) ← countFusedNodesWithNewChild graph groups nid domParent
        if count > maxFuseDepth then some groups
        else if phase = 2 then fuseIntoTuple graph groups nid domParent
        else fuseIntoParent graph (tree nid) phase groups nid domParent

def runFuse (tree : ℕ → DomNode) (maxFuseDepth : ℕ) (groups : Groups) (phase : ℕ) : Option Groups :=
  (List.range graph.size).foldlM (fuseNode graph tree maxFuseDepth phase) groups

def partition (optLevel : ℤ) (maxFuseDepth : ℕ) : Option Groups :=
  if optLevel = 0 then some (initGroups graph)
  else [0, 1, 2].foldlM (runFuse graph (postDom graph) maxFuseDepth) (initGroups graph)

end Pruner.Relay
