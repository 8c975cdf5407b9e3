import Pruner.AutoScheduler.Step
import Pruner.Lib.UnorderedMap
import Pruner.Tir.Stmt

/-!
# The visitor behind the per-store features

`PerStoreFeatureExtractorPSA` and `PerStoreFeatureExtractorPAM` (`feature_psa.cc`,
`feature_pam.cc`) walk a lowered program in the same way: they keep the stack of the
enclosing loops, the lengths of the threads, and the storage scope of every buffer, and
they extract features at each `BufferStore`.  The walk is one definition here,
`visitStmt`, with the parts that differ as the fields of a `Visitor`.

An error of the source (`ICHECK`, `LOG(FATAL)`) is `none`: it ends the extraction.

## Main definitions

* `mathOpCounter`, `bufAccesses` — `MathOpCounter` and `BufferAccessExtractor`.
* `StorageScope`, `ThreadScope` — `thread_storage_scope.h`.
* `Context` — the members of an extractor that its walk reads.
* `Visitor`, `visitStmt` — the walk.

## Main results

* `visitStmt_rel` — visitors that simulate each other at every event do so on every program.
-/

namespace Pruner.AutoScheduler

open Tir Lib Option

/-! ## What is counted in a stored value -/

/-- The counters of `MathOpCounter` that a feature modelled here reads. -/
structure MathOpCounter where
  floatMad : ℕ := 0
  floatAddsub : ℕ := 0
  floatMul : ℕ := 0
  floatDivmod : ℕ := 0
  deriving DecidableEq, Repr

/-- `VisitBinary`, on a float operand. -/
def MathOpCounter.visitFloat (m : MathOpCounter) : BinaryOp → MathOpCounter
  | .add | .sub => { m with floatAddsub := m.floatAddsub + 1 }
  | .mul => { m with floatMul := m.floatMul + 1 }
  | .div | .mod | .floorDiv | .floorMod => { m with floatDivmod := m.floatDivmod + 1 }
  | _ => m

/-- One node of a stored value; a call has to be of an operator. -/
def MathOpCounter.visitNode (m : MathOpCounter) : Expr → Option MathOpCounter
  | .binary op a _ => some (if a.dtype = .float then m.visitFloat op else m)
  | .call _ .globalVar _ => none
  | _ => some m

/-- `math_op_counter(value)`. -/
def mathOpCounter (value : Expr) : Option MathOpCounter :=
  value.preorder.foldlM MathOpCounter.visitNode {}

inductive BufferAccessType where
  | kRead
  | kWrite
  | kReadWrite
  | kUnknownRW
  deriving DecidableEq, Repr

/-- `BufferAccess`: all accesses of a statement to one buffer. -/
structure BufferAccess where
  accType : BufferAccessType := .kUnknownRW
  indices : List (List Expr) := []

/-- What a load makes of the type of the accesses so far. -/
def BufferAccessType.read : BufferAccessType → BufferAccessType
  | .kRead => .kRead
  | .kWrite => .kReadWrite
  | .kReadWrite => .kReadWrite
  | .kUnknownRW => .kRead

/-- A load, which adds its indices unless the buffer is written as well. -/
def BufferAccess.load (acc : BufferAccess) (indices : List Expr) : BufferAccess :=
  let accType := acc.accType.read
  ⟨accType, if accType = .kReadWrite then acc.indices else acc.indices ++ [indices]⟩

/-- The map `buf_accesses`. -/
abbrev BufAccesses := EntryMap Buffer BufferAccess

/-- `VisitExpr_(BufferLoadNode)`. -/
def BufAccesses.visitNode (m : BufAccesses) : Expr → BufAccesses
  | .bufferLoad b is => m.update b fun acc => (acc.getD {}).load is
  | _ => m

def BufAccesses.insertAccess (m : BufAccesses) (b : Buffer) (accType : BufferAccessType)
    (indices : List Expr) : BufAccesses :=
  m.update b fun acc => ⟨accType, (acc.getD {}).indices ++ [indices]⟩

/-- The accesses of a store: the write, and the reads of the stored value. -/
def bufAccesses (node : BufferStore) : BufAccesses :=
  node.value.preorder.foldl BufAccesses.visitNode
    (BufAccesses.insertAccess EntryMap.empty node.buffer .kWrite node.indices)

theorem mem_keys_foldl_visitNode {b : Buffer} (nodes : List Expr) {m : BufAccesses}
    (h : b ∈ m.entries.map Prod.fst) :
    b ∈ (nodes.foldl BufAccesses.visitNode m).entries.map Prod.fst := by
  induction nodes generalizing m with
  | nil => exact h
  | cons node nodes ih =>
    refine ih ?_
    cases node with
    | bufferLoad b' is => exact EntryMap.mem_keys_update.mpr (.inr h)
    | _ => exact h

theorem bufAccesses_ne_nil (node : BufferStore) : (bufAccesses node).entries ≠ [] := by
  intro h
  have hmem : node.buffer ∈ (bufAccesses node).entries.map Prod.fst :=
    mem_keys_foldl_visitNode _ (EntryMap.mem_keys_update.mpr (.inl rfl))
  rw [h] at hmem
  simp at hmem

/-! ## Storage and thread scopes -/

inductive StorageRank where
  | kGlobal
  | kShared
  | kWarp
  | kLocal
  | kWMMAMatrixA
  | kWMMAMatrixB
  | kWMMAAccumulator
  deriving DecidableEq, Repr

namespace StorageRank

/-- The text a scope of this rank starts with. -/
def text : StorageRank → String
  | kGlobal => "global"
  | kShared => "shared"
  | kWarp => "warp"
  | kLocal => "local"
  | kWMMAMatrixA => "wmma.matrix_a"
  | kWMMAMatrixB => "wmma.matrix_b"
  | kWMMAAccumulator => "wmma.accumulator"

/-- The ranks in the order `StorageScope::Create` tries them. -/
def all : List StorageRank :=
  [kGlobal, kShared, kWarp, kLocal, kWMMAMatrixA, kWMMAMatrixB, kWMMAAccumulator]

end StorageRank

structure StorageScope where
  rank : StorageRank := .kGlobal
  tag : String := ""
  deriving DecidableEq, Repr

namespace StorageScope

/-- `StorageScope::Create`; an unknown scope is an error. -/
def create (s : String) : Option StorageScope :=
  StorageRank.all.findSome? fun r =>
    if strStartsWith s r.text then some ⟨r, String.ofList (s.toList.drop r.text.length)⟩
    else none

/-- `to_string`. -/
def toText (scope : StorageScope) : String := scope.rank.text ++ scope.tag

end StorageScope

/-- `ThreadScope`, of which only the rank is read. -/
structure ThreadScope where
  rank : ℤ
  deriving DecidableEq, Repr

/-- `ThreadScope::Create`; an unknown tag is an error. -/
def ThreadScope.create (tag : String) : Option ThreadScope :=
  if tag = "vthread" ∨ tag = "cthread" then some ⟨1⟩
  else if strStartsWith tag "blockIdx." then some ⟨0⟩
  else if strStartsWith tag "threadIdx." then some ⟨1⟩
  else none

def defaultStorageRank (threadScopeRank : ℤ) : Option StorageRank :=
  if threadScopeRank = -1 then some .kGlobal
  else if threadScopeRank = 0 then some .kShared
  else if threadScopeRank = 1 then some .kLocal
  else none

/-! ## The walk -/

/-- The six thread axes an extractor keeps a length of. -/
inductive ThreadAxis where
  | blockX | blockY | blockZ | threadX | threadY | threadZ
  deriving DecidableEq, Repr

/-- The axis of a thread variable; any other name is an error. -/
def ThreadAxis.ofName (name : String) : Option ThreadAxis :=
  if name = "blockIdx.x" then some .blockX
  else if name = "blockIdx.y" then some .blockY
  else if name = "blockIdx.z" then some .blockZ
  else if name = "threadIdx.x" then some .threadX
  else if name = "threadIdx.y" then some .threadY
  else if name = "threadIdx.z" then some .threadZ
  else none

/-- A loop on the stack; the threads stand there as loops too. -/
structure Loop where
  loopVar : Var
  extent : Option ℤ
  deriving DecidableEq, Repr

/-- `GetLoopExtent`: an extent that is not a constant counts as one. -/
def Loop.getLoopExtent (l : Loop) : ℤ := l.extent.getD 1

/-- The members of an extractor that the walk changes, innermost loop last. -/
structure Context where
  forLoopStack : List Loop := []
  storageScope : Buffer → Option String := fun _ => none
  bufMap : Buffer → Option String := fun _ => none
  currThreadScope : List ThreadScope := []
  isGpu : Bool := false
  lens : ThreadAxis → ℤ := fun _ => 1
  vthreadLen : ℤ := 1

namespace Context

variable (c : Context)

/-- `for_loop_stack_.push_back`. -/
def push (l : Loop) : Context := { c with forLoopStack := c.forLoopStack ++ [l] }

/-- `for_loop_stack_.pop_back`. -/
def pop : Context := { c with forLoopStack := c.forLoopStack.dropLast }

/-- Before the body of a `thread_extent`. -/
def enterThread (axis : ThreadAxis) (scope : ThreadScope) (v : Var) (extent : ℤ) : Context :=
  { c.push ⟨v, some extent⟩ with
    lens := Function.update c.lens axis extent
    isGpu := true
    currThreadScope := c.currThreadScope ++ [scope] }

/-- After it; `extentBefore` is the length that was saved. -/
def leaveThread (axis : ThreadAxis) (extentBefore : ℤ) : Context :=
  { c.pop with
    lens := Function.update c.lens axis extentBefore
    currThreadScope := c.currThreadScope.dropLast }

/-- Before the body of a `virtual_thread`. -/
def enterVThread (v : Var) (extent : ℤ) : Context :=
  { c.push ⟨v, some extent⟩ with vthreadLen := c.vthreadLen * extent, isGpu := true }

/-- After it. -/
def leaveVThread (extentBefore : ℤ) : Context := { c.pop with vthreadLen := extentBefore }

/-- A `realize_scope` attribute. -/
def setScope (b : Buffer) (scope : String) : Context :=
  { c with storageScope := Function.update c.storageScope b (some scope) }

/-- The scope a buffer is realised in: the one written, or that of the innermost thread. -/
def realizedScope (scope : String) : Option StorageScope :=
  if scope = "" then
    match c.currThreadScope.getLast? with
    | none => some {}
    | some ts => (defaultStorageRank ts.rank).map fun rank => { rank := rank }
  else StorageScope.create scope

/-- The storage scope of a buffer at its first `BufferRealize`. -/
def realize (b : Buffer) : Option Context :=
  match c.bufMap b with
  | some _ => some c
  | none => do
    let strkey ← c.storageScope b
    let skey ← c.realizedScope strkey
    some { c with bufMap := Function.update c.bufMap b (some skey.toText) }

end Context

/-- What a loop on the stack comes from. -/
inductive LoopSort where
  | thread | vthread | loop
  deriving DecidableEq, Repr

/-- What an extractor does on the way, with a state `σ` of its own. -/
structure Visitor (σ : Type) where
  enter : LoopSort → ℤ → σ → σ
  leave : LoopSort → ℤ → σ → σ
  store : Context → BufferStore → σ → Option σ
  realized : Context → Buffer → List Expr → σ → Option σ

def visitStmt {σ : Type} (v : Visitor σ) : Stmt → Context → σ → Option (Context × σ)
  | .attrStmt (.threadExtent node value) body, c, s => do
    let extent ← value.getIntImm
    let axis ← ThreadAxis.ofName node.var.nameHint
    let scope ← ThreadScope.create node.threadTag
    let (c', s') ← visitStmt v body (c.enterThread axis scope node.var extent)
      (v.enter .thread extent s)
    some (c'.leaveThread axis (c.lens axis), v.leave .thread extent s')
  | .attrStmt (.virtualThread node value) body, c, s => do
    let extent ← value.getIntImm
    let (c', s') ← visitStmt v body (c.enterVThread node.var extent)
      (v.enter .vthread extent s)
    some (c'.leaveVThread c.vthreadLen, v.leave .vthread extent s')
  | .attrStmt (.autoUnrollMaxStep value) body, c, s => do
    let _ ← value.getIntImm
    visitStmt v body c s
  | .attrStmt (.realizeScope b scope) body, c, s => visitStmt v body (c.setScope b scope) s
  | .attrStmt .other body, c, s => visitStmt v body c s
  | .forNode loopVar extent body, c, s => do
    let loop : Loop := ⟨loopVar, extent.getIntImm⟩
    let (c', s') ← visitStmt v body (c.push loop) (v.enter .loop loop.getLoopExtent s)
    some (c'.pop, v.leave .loop loop.getLoopExtent s')
  | .whileNode _ body, c, s => visitStmt v body c s
  | .bufferStore node, c, s => do
    let s' ← v.store c node s
    some (c, s')
  | .bufferRealize b bounds body, c, s => do
    let c₁ ← c.realize b
    let (c', s') ← visitStmt v body c₁ s
    let s'' ← v.realized c' b bounds s'
    some (c', s'')
  | .seqStmt first rest, c, s => do
    let (c', s') ← visitStmt v first c s
    visitStmt v rest c' s'
  | .ifThenElse _ thenCase elseCase, c, s => do
    let (c', s') ← visitStmt v thenCase c s
    visitStmt v elseCase c' s'
  | .letStmt _ _ body, c, s => visitStmt v body c s
  | .assertStmt _ body, c, s => visitStmt v body c s
  | .evaluate _, c, s => some (c, s)

/-! ## Simulation -/

variable {σ τ : Type}

/-- `R` holds between two visitors before and after each of their events. -/
structure Visitor.Simulates (v : Visitor σ) (u : Visitor τ) (R : σ → τ → Prop) : Prop where
  enter : ∀ {s t} k n, R s t → R (v.enter k n s) (u.enter k n t)
  leave : ∀ {s t} k n, R s t → R (v.leave k n s) (u.leave k n t)
  store : ∀ {s t} c node, R s t → Rel R (v.store c node s) (u.store c node t)
  realized : ∀ {s t} c b bounds, R s t → Rel R (v.realized c b bounds s) (u.realized c b bounds t)

/-- Two results with the same context and related states. -/
def SameContext (R : σ → τ → Prop) (x : Context × σ) (y : Context × τ) : Prop :=
  x.1 = y.1 ∧ R x.2 y.2

variable {α β γ δ : Type} {R : α → β → Prop} {S : γ → δ → Prop} {x : Option α} {y : Option β}
  {f : α → Option γ}

theorem rel_bind {g : β → Option δ} (h : Rel R x y) (hfg : ∀ a b, R a b → Rel S (f a) (g b)) :
    Rel S (x.bind f) (y.bind g) := by
  cases h with
  | none => exact .none
  | some hab => exact hfg _ _ hab

theorem rel_bind_same (x : Option α) {g : α → Option δ} (hfg : ∀ a, Rel S (f a) (g a)) :
    Rel S (x.bind f) (x.bind g) := by
  cases x with
  | none => exact .none
  | some a => exact hfg a

theorem map_eq_of_rel {f : α → γ} {g : β → γ} (h : Rel R x y) (hfg : ∀ a b, R a b → f a = g b) :
    x.map f = y.map g := by
  cases h with
  | none => rfl
  | some hab => exact congrArg some (hfg _ _ hab)

variable {v : Visitor σ} {u : Visitor τ} {R : σ → τ → Prop}

theorem rel_visit_leave {x : Option (Context × σ)} {y : Option (Context × τ)}
    (h : v.Simulates u R) (hxy : Rel (SameContext R) x y) (k : LoopSort) (n : ℤ)
    (f : Context → Context) :
    Rel (SameContext R) (x.bind fun r => some (f r.1, v.leave k n r.2))
      (y.bind fun r => some (f r.1, u.leave k n r.2)) :=
  rel_bind hxy fun _ _ hab => .some ⟨congrArg f hab.1, h.leave k n hab.2⟩

/-- **Visitors that simulate each other at every event do so on every program.** -/
theorem visitStmt_rel (h : v.Simulates u R) (p : Stmt) (c : Context) {s : σ} {t : τ}
    (hst : R s t) : Rel (SameContext R) (visitStmt v p c s) (visitStmt u p c t) := by
  induction p generalizing c s t with
  | attrStmt attr body ih =>
    cases attr with
    | threadExtent node value =>
      refine rel_bind_same _ fun extent => rel_bind_same _ fun axis =>
        rel_bind_same _ fun scope => ?_
      exact rel_visit_leave h (ih _ (h.enter .thread extent hst)) .thread extent
        fun c' => c'.leaveThread axis (c.lens axis)
    | virtualThread node value =>
      refine rel_bind_same _ fun extent => ?_
      exact rel_visit_leave h (ih _ (h.enter .vthread extent hst)) .vthread extent
        fun c' => c'.leaveVThread c.vthreadLen
    | autoUnrollMaxStep value => exact rel_bind_same _ fun _ => ih c hst
    | realizeScope b scope => exact ih _ hst
    | other => exact ih c hst
  | forNode loopVar extent body ih =>
    exact rel_visit_leave h (ih _ (h.enter .loop _ hst)) .loop _ Context.pop
  | bufferStore node =>
    exact rel_bind (h.store c node hst) fun _ _ hab => .some ⟨rfl, hab⟩
  | bufferRealize b bounds body ih =>
    refine rel_bind_same _ fun c₁ => rel_bind (ih c₁ hst) fun x y hxy => ?_
    obtain ⟨c', s'⟩ := x
    obtain ⟨c'', t'⟩ := y
    obtain ⟨hc, hs⟩ := hxy
    cases hc
    exact rel_bind (h.realized c' b bounds hs) fun _ _ hab => .some ⟨rfl, hab⟩
  | seqStmt first rest ihf ihr | ifThenElse _ first rest ihf ihr =>
    refine rel_bind (ihf c hst) fun x y hxy => ?_
    obtain ⟨c', s'⟩ := x
    obtain ⟨c'', t'⟩ := y
    obtain ⟨hc, hs⟩ := hxy
    cases hc
    exact ihr c' hs
  | whileNode _ body ih | letStmt _ _ body ih | assertStmt _ body ih => exact ih c hst
  | evaluate _ => exact .some ⟨rfl, hst⟩

end Pruner.AutoScheduler
