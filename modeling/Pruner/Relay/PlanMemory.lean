import Mathlib.Algebra.Group.Nat.Defs
import Mathlib.Data.List.Sort
import Pruner.Lib.PartialRun

/-!
# Memory planning

`GraphPlanMemory` gives storage to the tensors of a function of calls, tuples, projections,
lets, constants and parameters.  A first visitor counts how often every tensor is used; a
second one requests storage for the outputs of every call from a list of free storage, and
releases the storage of a tensor after its last use.

An expression is the number of its node, so that shared expressions are visited once.  The
token that the first visitor makes for a tensor is identified with the tensor: the node and
the index of the output.  A failed check is `none`, and so is an iteration over the free list
past its end.

## Main definitions

* `RelayFunction` — a function, well scoped and well typed.
* `Visitor`, `visit`, `runVisitor` — `StorageAllocaBaseVisitor`.
* `initVisitor` — `StorageAllocaInit`.
* `StorageAllocator`, `request`, `allocVisitor` — `StorageAllocator`.
* `plan` — `Plan`.
-/

namespace Pruner.Relay

open Function

/-! ## Functions -/

structure TensorType where
  shape : List ℕ
  bits : ℕ
  lanes : ℕ
  deriving DecidableEq, Repr, Inhabited

inductive RelayType where
  | tensor (type : TensorType)
  | tuple (fields : List RelayType)
  deriving Repr, Inhabited

def RelayType.asTensor : RelayType → Option TensorType
  | tensor type => some type
  | tuple _ => none

/-- The tensors of a type.  Every field of a tuple has to be a tensor. -/
def RelayType.tensors : RelayType → Option (List TensorType)
  | tensor type => some [type]
  | tuple fields => fields.mapM asTensor

/-- A node of an expression. -/
inductive ExprNode where
  | var
  | constant
  | call (args : List ℕ)
  | tuple (fields : List ℕ)
  | tupleGetItem (tuple index : ℕ)
  | letIn (var value body : ℕ)
  deriving DecidableEq, Repr, Inhabited

/-- The nodes below a node. -/
def ExprNode.children : ExprNode → List ℕ
  | var | constant => []
  | call args => args
  | tuple fields => fields
  | tupleGetItem t _ => [t]
  | letIn _ value body => [value, body]

/-- Whether all variables below a node are bound. -/
def inScope (nodes : List ExprNode) : ℕ → List ℕ → ℕ → Bool
  | 0, _, _ => false
  | fuel + 1, env, i =>
    match nodes[i]? with
    | none => false
    | some .var => env.contains i
    | some .constant => true
    | some (.call args) => args.all (inScope nodes fuel env)
    | some (.tuple fields) => fields.all (inScope nodes fuel env)
    | some (.tupleGetItem tuple _) => inScope nodes fuel env tuple
    | some (.letIn x value body) =>
      inScope nodes fuel env value && inScope nodes fuel (x :: env) body

/-- The variables that a node binds. -/
def ExprNode.bound : ExprNode → List ℕ
  | letIn x _ _ => [x]
  | _ => []

/-- Whether a node comes after the nodes below it, and binds a variable. -/
def wellFormed (nodes : List ExprNode) (i : ℕ) (node : ExprNode) : Bool :=
  node.children.all (· < i) && node.bound.all fun x => nodes[x]? == some .var

/-- Whether the type of a node fits to the types of the nodes below it. -/
def Typed (checkedType : ℕ → RelayType) (i : ℕ) : ExprNode → Prop
  | .tuple fields => checkedType i = .tuple (fields.map checkedType)
  | .tupleGetItem tuple index =>
    ∃ types, checkedType tuple = .tuple types ∧ types[index]? = some (checkedType i)
  | .letIn x value body => checkedType x = checkedType value ∧ checkedType i = checkedType body
  | _ => True

/-- A function: a table of nodes, with the types and the devices they have been given.  Every
variable is bound once. -/
structure RelayFunction where
  nodes : List ExprNode
  checkedType : ℕ → RelayType
  deviceType : ℕ → ℤ
  params : List ℕ
  body : ℕ
  bound_once : (params ++ nodes.flatMap ExprNode.bound).Nodup
  params_var : ∀ p ∈ params, nodes[p]? = some .var
  well_formed : (nodes.zipIdx.all fun p => wellFormed nodes p.2 p.1) = true
  in_scope : inScope nodes nodes.length params body = true
  typed : ∀ i node, nodes[i]? = some node → Typed checkedType i node

/-- A tensor: an output of a node. -/
abbrev Tensor := ℕ × ℕ

namespace RelayFunction

variable (f : RelayFunction)

variable {i body : ℕ} {node : ExprNode}

theorem wellFormed_node (h : f.nodes[i]? = some node) :
    wellFormed f.nodes i node = true :=
  List.all_eq_true.mp f.well_formed (node, i) (List.mk_mem_zipIdx_iff_getElem?.mpr h)

theorem lt_of_child {j : ℕ} (h : f.nodes[i]? = some node) (hj : j ∈ node.children) : j < i := by
  have hall := (Bool.and_eq_true_iff.mp (f.wellFormed_node h)).1
  simpa using List.all_eq_true.mp hall j hj

theorem var_of_letIn (h : f.nodes[i]? = some (.letIn x value body)) :
    f.nodes[x]? = some .var := by
  simpa [ExprNode.bound] using (Bool.and_eq_true_iff.mp (f.wellFormed_node h)).2

theorem not_mem_params_of_letIn (h : f.nodes[i]? = some (.letIn x value body)) : x ∉ f.params := by
  intro hx
  have hbound : x ∈ f.nodes.flatMap ExprNode.bound :=
    List.mem_flatMap.mpr ⟨_, List.mem_of_getElem? h, by simp [ExprNode.bound]⟩
  exact (List.nodup_append.mp f.bound_once).2.2 x hx x hbound rfl

/-- The tensors that a node makes. -/
def tensorsOf (i : ℕ) : Option (List Tensor) :=
  (f.checkedType i).tensors.map fun types => (List.range types.length).map fun k => (i, k)

def tensorType (t : Tensor) : Option TensorType :=
  (f.checkedType t.1).tensors.bind fun types => types[t.2]?

end RelayFunction

/-! ## The base visitor -/

variable {σ V : Type}

/-- What a visitor does at the nodes: `create` for parameters and constants, `enter`, `argument`
and `call` before, between and after the arguments of a call. -/
structure Visitor (σ V : Type) where
  tuple : List V → V
  project : V → ℕ → Option V
  create : σ → ℕ → Option (σ × V)
  enter : σ → ℕ → Option σ
  argument : σ → V → σ
  call : σ → ℕ → List V → Option (σ × V)
  output : σ → V → σ

/-- What a visitor has found for the nodes, and its state. -/
abbrev VisitState (σ V : Type) := (ℕ → Option V) × σ

/-- Visit nodes one after the other. -/
def visitEach {S : Type} (visit : ℕ → S → Option (V × S)) (after : S → V → S) :
    List ℕ → S → Option (List V × S)
  | [], st => some ([], st)
  | i :: rest, st => do
    let (v, st) ← visit i st
    let (vs, st) ← visitEach visit after rest (after st v)
    some (v :: vs, st)

/-- `GetToken`: a node that has been visited has its tokens in the map. -/
def visit (nodes : List ExprNode) (vis : Visitor σ V) :
    ℕ → ℕ → VisitState σ V → Option (V × VisitState σ V)
  | 0, _, _ => none
  | fuel + 1, i, st =>
    match st.1 i with
    | some v => some (v, st)
    | none =>
      match nodes[i]? with
      | none | some .var => none
      | some .constant => do
        let (s, v) ← vis.create st.2 i
        some (v, update st.1 i (some v), s)
      | some (.call args) => do
        let s ← vis.enter st.2 i
        let (vs, st) ← visitEach (visit nodes vis fuel) (fun st v => (st.1, vis.argument st.2 v))
          args (st.1, s)
        let (s, v) ← vis.call st.2 i vs
        some (v, update st.1 i (some v), s)
      | some (.tuple fields) => do
        let (vs, st) ← visitEach (visit nodes vis fuel) (fun st _ => st) fields st
        let v := vis.tuple vs
        some (v, update st.1 i (some v), st.2)
      | some (.tupleGetItem tuple index) => do
        let (vs, st) ← visit nodes vis fuel tuple st
        let v ← vis.project vs index
        some (v, update st.1 i (some v), st.2)
      | some (.letIn x value body) => do
        let (v, st) ← visit nodes vis fuel value st
        let (v, st) ← visit nodes vis fuel body (update st.1 x (some v), st.2)
        some (v, update st.1 i (some v), st.2)

/-- The tokens of a parameter. -/
def visitParam (vis : Visitor σ V) (st : VisitState σ V) (param : ℕ) : Option (VisitState σ V) :=
  match st.1 param with
  | some _ => none
  | none => do
    let (s, v) ← vis.create st.2 param
    some (update st.1 param (some v), s)

/-- `Run`. -/
def runVisitor (f : RelayFunction) (vis : Visitor σ V) (s : σ) : Option (V × VisitState σ V) := do
  let st ← f.params.foldlM (visitParam vis) (fun _ => none, s)
  let (v, st) ← visit f.nodes vis f.nodes.length f.body st
  some (v, st.1, vis.output st.2 v)

/-! ## Counting uses -/

/-- Count one use of a token. -/
def addUse (refs : Tensor → ℤ) (tok : Tensor) : Tensor → ℤ := update refs tok (refs tok + 1)

/-- `StorageAllocaInit`, whose state is the reference counters. -/
def initVisitor (f : RelayFunction) : Visitor (Tensor → ℤ) (List Tensor) where
  tuple := List.flatten
  project tokens index := tokens[index]?.map fun tok => [tok]
  create refs i := (f.tensorsOf i).map fun tokens => (refs, tokens)
  enter refs i := (f.tensorsOf i).map fun _ => refs
  argument refs tokens := tokens.foldl addUse refs
  call refs i _ := (f.tensorsOf i).map fun tokens => (refs, tokens)
  output refs tokens := tokens.foldl addUse refs

/-! ## Storage -/

structure StorageToken where
  refCounter : ℤ
  maxBytes : ℕ
  storageId : Option ℕ
  deriving DecidableEq, Repr, Inhabited

/-- The state of the allocator: all tokens, the free list with the sizes as keys, and the tokens
that have storage. -/
structure StorageAllocator where
  token : Tensor → StorageToken
  free : List (ℕ × Tensor)
  data : List Tensor

/-- The values of `size_t`. -/
def sizeLimit : ℕ := 2 ^ 64

def divRoundUp (size wordSize : ℕ) : ℕ := (size + wordSize - 1) / wordSize

def getMemorySize (type : TensorType) : ℕ :=
  (type.shape.foldl (fun size dim => size * dim % sizeLimit) 1) *
    divRoundUp (type.bits * type.lanes) 8 % sizeLimit

def matchRange : ℕ := 16

namespace StorageAllocator

variable (f : RelayFunction)

variable (st : StorageAllocator) (tok prototype : Tensor)

/-- Change a token. -/
def modify (g : StorageToken → StorageToken) : StorageAllocator :=
  { st with token := update st.token tok (g (st.token tok)) }

def alloc (size : ℕ) : StorageAllocator :=
  { st.modify prototype fun tok =>
      { tok with maxBytes := size, storageId := some st.data.length } with
    data := st.data ++ [prototype] }

/-- Take a token of the free list for a prototype. -/
def reuse (size : ℕ) (entry : ℕ × Tensor) : Option (StorageAllocator × Tensor) :=
  if (st.token entry.2).refCounter = 0 then
    some ({ st.modify entry.2 fun tok =>
        { tok with maxBytes := max size tok.maxBytes,
                   refCounter := (st.token prototype).refCounter } with
      free := st.free.erase entry }, entry.2)
  else none

def request : Option (StorageAllocator × Tensor) := do
  let type ← f.tensorType prototype
  let size := getMemorySize type
  let upper := size * matchRange % sizeLimit
  let matching := fun entry : ℕ × Tensor => f.deviceType entry.2.1 == f.deviceType prototype.1
  let atLeast := st.free.dropWhile fun entry => entry.1 < size
  let smaller := (st.free.takeWhile fun entry => entry.1 < size).dropWhile fun entry =>
    entry.1 < size / matchRange
  -- Where the upper end of the range has wrapped around, the search does not stop there.
  let wrapped := st.free.any fun entry => upper < entry.1 && entry.1 < size
  match (if wrapped then atLeast else atLeast.takeWhile fun entry => entry.1 ≤ upper).find?
      matching with
  | some entry => st.reuse prototype size entry
  | none =>
    if wrapped then none
    else
      match smaller.reverse.find? matching with
      | some entry => st.reuse prototype size entry
      | none => some (st.alloc prototype size, prototype)

def checkForRelease : Option StorageAllocator :=
  if (st.token tok).storageId = none ∨ (st.token tok).refCounter < 0 then none
  else if (st.token tok).refCounter = 0 then
    some { st with
      free := st.free.orderedInsert (fun a b => a.1 < b.1) ((st.token tok).maxBytes, tok) }
  else some st

def createOne (canRealloc : Bool) (st : StorageAllocator) (prototype : Tensor) :
    Option (StorageAllocator × Tensor) :=
  if canRealloc then st.request f prototype
  else do
    let type ← f.tensorType prototype
    -- This token is never released.
    some ((st.alloc prototype (getMemorySize type)).modify prototype fun tok =>
      { tok with refCounter := tok.refCounter + 1 }, prototype)

def createAll (canRealloc : Bool) :
    List Tensor → StorageAllocator → Option (StorageAllocator × List Tensor)
  | [], st => some (st, [])
  | prototype :: rest, st => do
    let (st, tok) ← st.createOne f canRealloc prototype
    let (st, tokens) ← createAll canRealloc rest st
    some (st, tok :: tokens)

def createToken (prototypes : ℕ → Option (List Tensor)) (st : StorageAllocator) (i : ℕ)
    (canRealloc : Bool) : Option (StorageAllocator × List Tensor) := do
  let tensors ← prototypes i
  createAll f canRealloc tensors st

def useArgument : Option StorageAllocator :=
  (st.modify tok fun tok => { tok with refCounter := tok.refCounter - 1 }).checkForRelease tok

/-- `VisitExpr_` of a call, after its arguments. -/
def visitCall (prototypes : ℕ → Option (List Tensor)) (st : StorageAllocator) (i : ℕ)
    (args : List Tensor) : Option (StorageAllocator × List Tensor) := do
  let (st, tokens) ← st.createToken f prototypes i true
  let st ← tokens.foldlM checkForRelease st
  let st ← args.foldlM useArgument st
  some (st, tokens)

end StorageAllocator

/-- `StorageAllocator`, as a visitor. -/
def allocVisitor (f : RelayFunction) (prototypes : ℕ → Option (List Tensor)) :
    Visitor StorageAllocator (List Tensor) where
  tuple := List.flatten
  project tokens index := tokens[index]?.map fun tok => [tok]
  create st i := st.createToken f prototypes i false
  enter st _ := some st
  argument st _ := st
  call st i args := st.visitCall f prototypes i args.flatten
  output st tokens := tokens.foldl (fun st tok =>
    st.modify tok fun tok => { tok with refCounter := tok.refCounter + 1 }) st

/-- A plan: the storage of the outputs of every node, and the bytes of every storage. -/
structure MemoryPlan where
  storageIds : ℕ → Option (List (Option ℕ))
  deviceTypes : ℕ → Option (List ℤ)
  maxBytes : List ℕ

/-- The first visitor, and then the second one with the tokens of the first. -/
def allocate (f : RelayFunction) : Option (VisitState StorageAllocator (List Tensor)) := do
  let (_, prototypes, refs) ← runVisitor f (initVisitor f) fun _ => 0
  let (_, st) ← runVisitor f (allocVisitor f prototypes) ⟨fun t => ⟨refs t, 0, none⟩, [], []⟩
  some st

def plan (f : RelayFunction) : Option MemoryPlan := do
  let (tokens, st) ← allocate f
  let devices := ((List.range f.nodes.length).filterMap tokens).flatten.map fun tok =>
    f.deviceType tok.1
  let annotated := devices.countP (· != 0)
  if annotated ≠ 0 ∧ annotated ≠ devices.length then none
  else
    some {
      storageIds := fun i => (tokens i).map fun toks => toks.map fun tok => (st.token tok).storageId
      deviceTypes := fun i => (tokens i).map fun toks => toks.map fun tok => f.deviceType tok.1
      maxBytes := st.data.map fun tok => (st.token tok).maxBytes }

end Pruner.Relay
