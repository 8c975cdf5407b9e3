import Mathlib.Data.List.Basic
import Mathlib.Data.Int.Notation

/-!
# Statements of a lowered program

The statements and expressions that a schedule is lowered to before its buffers are
flattened, as the feature extractors visit them.  Variables and buffers are objects: two
of them may have the same name and are told apart by their address.

A sequence is a chain of pairs, and an `if` without an `else` has an `evaluate` there.
What no visitor reads is left out: the value of a float constant, the operator a call
names, the kind and the first value of a loop.

## Main definitions

* `Expr`, `Stmt` — expressions and statements.
* `Expr.preorder` — the nodes of an expression in the order a `StmtExprVisitor` enters them.
* `Expr.uses` — whether a variable occurs in an expression.
-/

namespace Pruner.Tir

/-- The kind of scalar of a data type. -/
inductive TypeCode where
  | int | uint | float | handle | bfloat
  deriving DecidableEq, Repr

/-- `VarNode`. -/
structure Var where
  address : ℕ
  nameHint : String
  dtype : TypeCode
  deriving DecidableEq, Repr

/-- A loop variable. -/
def Var.loop (address : ℕ) (nameHint : String) : Var := ⟨address, nameHint, .int⟩

/-- `IterVarNode`, as the attribute of a thread or virtual thread refers to it. -/
structure ThreadIter where
  var : Var
  threadTag : String
  deriving DecidableEq, Repr

/-- `BufferNode`; a dimension that is not a constant is `none`. -/
structure Buffer where
  address : ℕ
  name : String
  dtype : TypeCode
  shape : List (Option ℤ)
  deriving DecidableEq, Repr

/-- `decl_buffer`, for floats and constant dimensions. -/
def Buffer.decl (address : ℕ) (name : String) (shape : List ℤ) : Buffer :=
  ⟨address, name, .float, shape.map some⟩

/-- The binary operators, arithmetic ones first. -/
inductive BinaryOp where
  | add | sub | mul | div | mod | floorDiv | floorMod | max | min
  | eq | ne | lt | le | gt | ge
  deriving DecidableEq, Repr

/-- Whether the result is a truth value. -/
def BinaryOp.isComparison : BinaryOp → Bool
  | .eq | .ne | .lt | .le | .gt | .ge => true
  | _ => false

/-- What a call refers to. -/
inductive Callee where
  | op
  | globalVar
  deriving DecidableEq, Repr

/-- `PrimExpr`. -/
inductive Expr where
  | intImm (dtype : TypeCode) (value : ℤ)
  | floatImm (dtype : TypeCode)
  | stringImm (value : String)
  | var (v : Var)
  | cast (dtype : TypeCode) (value : Expr)
  | binary (op : BinaryOp) (a b : Expr)
  | and (a b : Expr)
  | or (a b : Expr)
  | not (a : Expr)
  | select (condition trueValue falseValue : Expr)
  | letNode (v : Var) (value body : Expr)
  | call (dtype : TypeCode) (callee : Callee) (args : List Expr)
  | bufferLoad (buffer : Buffer) (indices : List Expr)
  | ramp (base stride : Expr)
  | broadcast (value : Expr)

namespace Expr

/-- The type of the scalars of an expression. -/
def dtype : Expr → TypeCode
  | .intImm t _ => t
  | .floatImm t => t
  | .stringImm _ => .handle
  | .var v => v.dtype
  | .cast t _ => t
  | .binary op a _ => if op.isComparison then .uint else a.dtype
  | .and _ _ | .or _ _ | .not _ => .uint
  | .select _ t _ => t.dtype
  | .letNode _ _ body => body.dtype
  | .call t _ _ => t
  | .bufferLoad b _ => b.dtype
  | .ramp base _ => base.dtype
  | .broadcast value => value.dtype

/-- `GetIntImm`: the value of a constant; anything else is an error. -/
def getIntImm : Expr → Option ℤ
  | .intImm _ v => some v
  | _ => none

mutual

/-- The nodes of an expression, each before the nodes below it. -/
def preorder : Expr → List Expr
  | .intImm t v => [.intImm t v]
  | .floatImm t => [.floatImm t]
  | .stringImm s => [.stringImm s]
  | .var v => [.var v]
  | .cast t a => .cast t a :: a.preorder
  | .binary op a b => .binary op a b :: (a.preorder ++ b.preorder)
  | .and a b => .and a b :: (a.preorder ++ b.preorder)
  | .or a b => .or a b :: (a.preorder ++ b.preorder)
  | .not a => .not a :: a.preorder
  | .select c t f => .select c t f :: (c.preorder ++ t.preorder ++ f.preorder)
  | .letNode v a b => .letNode v a b :: (a.preorder ++ b.preorder)
  | .call t callee args => .call t callee args :: preorderAll args
  | .bufferLoad b is => .bufferLoad b is :: preorderAll is
  | .ramp a b => .ramp a b :: (a.preorder ++ b.preorder)
  | .broadcast a => .broadcast a :: a.preorder

/-- The nodes of several expressions, from left to right. -/
def preorderAll : List Expr → List Expr
  | [] => []
  | e :: es => e.preorder ++ preorderAll es

end

/-- `VarInExpr`: whether a variable occurs in an expression. -/
def uses (e : Expr) (v : Var) : Bool :=
  e.preorder.any fun
    | .var u => u = v
    | _ => false

end Expr

/-- `BufferStoreNode`. -/
structure BufferStore where
  buffer : Buffer
  value : Expr
  indices : List Expr

/-- The attributes that a visitor distinguishes by their keys. -/
inductive Attr where
  | threadExtent (node : ThreadIter) (value : Expr)
  | virtualThread (node : ThreadIter) (value : Expr)
  | autoUnrollMaxStep (value : Expr)
  | realizeScope (node : Buffer) (scope : String)
  | other

inductive Stmt where
  | attrStmt (attr : Attr) (body : Stmt)
  | forNode (loopVar : Var) (extent : Expr) (body : Stmt)
  | whileNode (condition : Expr) (body : Stmt)
  | bufferStore (node : BufferStore)
  | bufferRealize (buffer : Buffer) (bounds : List Expr) (body : Stmt)
  | seqStmt (first rest : Stmt)
  | ifThenElse (condition : Expr) (thenCase elseCase : Stmt)
  | letStmt (v : Var) (value : Expr) (body : Stmt)
  | assertStmt (condition : Expr) (body : Stmt)
  | evaluate (value : Expr)

end Pruner.Tir
