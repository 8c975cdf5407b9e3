import Mathlib.Data.Rat.Floor

/-!
# Reading JSON values item by item

A reader in the style of `dmlc::JSONReader` walks through an array one item at a time and
may leave items unread or find none left.  Here the tokens have been grouped into a value
already, and a reader inside an array is a partial function on the items that are left.

## Main definitions

* `Json` — JSON values; integers and doubles are the two kinds of number.
* `Items` — readers inside an array.
* `item`, `tryItem`, `endOfItems` — the next item; the next item if there is one; no more.
* `readInt`, `readBool`, `readDouble`, `readString`, `readList` — readers of a whole value.
-/

namespace Pruner.Lib

universe u

/-- A JSON value. -/
inductive Json where
  | int (v : ℤ)
  | double (v : ℚ)
  | str (s : String)
  | array (items : List Json)
  | object (members : List (String × Json))

/-- A number that a 32-bit `int` can hold. -/
def FitsInt (z : ℤ) : Prop := -2147483648 ≤ z ∧ z ≤ 2147483647

instance (z : ℤ) : Decidable (FitsInt z) := inferInstanceAs (Decidable (_ ∧ _))

theorem fitsInt_zero : FitsInt 0 := by decide

/-- A 32-bit `int`. -/
abbrev CInt := { z : ℤ // FitsInt z }

namespace Json

/-- `operator>>` for `int`. -/
def readInt : Json → Option ℤ
  | .int v => if FitsInt v then some v else none
  | _ => none

/-- `operator>>` for `int`, with the range of the result. -/
def readCInt : Json → Option CInt
  | .int v => if h : FitsInt v then some ⟨v, h⟩ else none
  | _ => none

/-- `operator>>` for `bool`. -/
def readBool : Json → Option Bool
  | .int 0 => some false
  | .int 1 => some true
  | _ => none

/-- `operator>>` for `double`. -/
def readDouble : Json → Option ℚ
  | .int v => some v
  | .double v => some v
  | _ => none

def readString : Json → Option String
  | .str s => some s
  | _ => none

/-- A reader inside an array. -/
abbrev Items (α : Type) := StateT (List Json) Option α

/-- `NextArrayItem`, which has to succeed, and a value. -/
def item {α : Type} (read : Json → Option α) : Items α
  | [] => none
  | j :: rest => (read j).map (·, rest)

/-- `NextArrayItem`, and a value if there is one. -/
def tryItem {α : Type} (read : Json → Option α) : Items (Option α)
  | [] => some (none, [])
  | j :: rest => (read j).map (some ·, rest)

/-- `NextArrayItem`, which has to fail. -/
def endOfItems : Items Unit
  | [] => some ((), [])
  | _ :: _ => none

/-- `BeginArray` and what follows it. -/
def readArray {α : Type} (read : Items α) : Json → Option α
  | .array items => (read items).map Prod.fst
  | _ => none

/-- `while (reader->NextArrayItem())`. -/
def readList {α : Type} (read : Json → Option α) : Json → Option (List α)
  | .array items => items.mapM read
  | _ => none

variable {α β : Type} {read : Json → Option α} {a : α} {rest : List Json}

@[simp] theorem readInt_int {v : ℤ} (h : FitsInt v) : readInt (.int v) = some v := if_pos h

@[simp] theorem readCInt_int (v : CInt) : readCInt (.int v.1) = some v := dif_pos v.2

@[simp] theorem readBool_toInt (b : Bool) : readBool (.int b.toInt) = some b := by
  cases b <;> rfl

@[simp] theorem readString_str (s : String) : readString (.str s) = some s := rfl

@[simp] theorem readDouble_double (v : ℚ) : readDouble (.double v) = some v := rfl

theorem item_bind (h : read j = some a) (f : α → Items β) :
    (item read >>= f) (j :: rest) = f a rest := by
  simp [item, bind, StateT.bind, h]

theorem tryItem_bind (h : read j = some a) (f : Option α → Items β) :
    (tryItem read >>= f) (j :: rest) = f (some a) rest := by
  simp [tryItem, bind, StateT.bind, h]

/-- Reading what was written, item by item. -/
theorem readList_map {write : α → Json} {l : List α}
    (h : ∀ a ∈ l, read (write a) = some a) : readList read (.array (l.map write)) = some l := by
  show (l.map write).mapM read = some l
  induction l with
  | nil => rfl
  | cons a l ih =>
    rw [List.map_cons, List.mapM_cons, h a List.mem_cons_self, ih (List.forall_mem_cons.mp h).2]
    rfl

end Json

end Pruner.Lib
