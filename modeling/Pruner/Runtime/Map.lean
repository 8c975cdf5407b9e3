import Mathlib.Algebra.Group.Nat.Defs
import Mathlib.Data.Nat.Size
import Pruner.Lib.LinkedPath

/-!
# The runtime map

The map of the runtime starts as an array of at most four entries that is searched from the
front, and becomes a hash table when a fifth one is needed.  The table keeps the entries of one
slot in a list that is threaded through the table itself: a byte for each slot says whether the
slot is empty, whether its entry is the head of a list, and which of 126 distances leads to the
next entry of the list.  An entry of another list that stands where a new list has to begin is
moved away, together with the rest of its list; where that fails half-way, or the table is full,
the entries are inserted into a table of twice the size.

The maps of a program are handles on shared nodes: a copy of a map shares the node, and a node
is copied before it is changed through one of several handles.

## Main definitions

* `SmallMapNode`, `DenseMapNode`, `MapNode` — the nodes and their operations.
* `DenseMapNode.search`, `tryInsert`, `trySpareListHead`, `erase` — the lists of the table.
* `DenseMapNode.insertMaybeReHash` — insertion and rehashing.
* `MapHeap`, `MapOp`, `runMap` — handles, and the operations of a program on them.
-/

namespace Pruner.Runtime

open Pruner.Lib (scan prevOf lastTwo)

/-! ## The small map -/

/-- `SmallMapNode`: `size_` is the number of entries. -/
structure SmallMapNode (κ ν : Type) where
  slots : ℕ
  entries : List (κ × ν)

def kInitSize : ℕ := 2

def kMaxSize : ℕ := 4

namespace SmallMapNode

variable {κ ν : Type} [DecidableEq κ]

def empty (n : ℕ) : SmallMapNode κ ν := ⟨n, []⟩

def createFromRange (n : ℕ) (range : List (κ × ν)) : SmallMapNode κ ν := ⟨n, range⟩

variable (m : SmallMapNode κ ν)

def copyFrom : SmallMapNode κ ν := createFromRange m.entries.length m.entries

/-- `SmallMapNode::find`: the index of the first entry with the key, or the size. -/
def find (key : κ) : ℕ := m.entries.findIdx fun kv => kv.1 = key

/-- `SmallMapNode::Erase`: the last entry takes the place of the erased one. -/
def erase (index : ℕ) : SmallMapNode κ ν :=
  if m.entries.length ≤ index then m
  else if index + 1 = m.entries.length then { m with entries := m.entries.dropLast }
  else
    { m with entries := ((m.entries.getLast?.map fun last => m.entries.set index last).getD
        m.entries).dropLast }

/-- `SmallMapNode::InsertMaybeReHash` where the key is found or there is room. -/
def insertInPlace (kv : κ × ν) : Option (SmallMapNode κ ν) :=
  let index := m.find kv.1
  if index < m.entries.length then
    some { m with entries := m.entries.modify index fun entry => (entry.1, kv.2) }
  else if m.entries.length < m.slots then some { m with entries := m.entries ++ [kv] }
  else none

def insertMaybeReHash (kv : κ × ν) : Option (SmallMapNode κ ν) :=
  match m.insertInPlace kv with
  | some m => some m
  | none =>
    let nextSize := min (max (m.slots * 2) kInitSize) kMaxSize
    -- `ICHECK_GT(next_size, map_node->slots_)`
    if nextSize ≤ m.slots then none
    else (createFromRange nextSize m.entries).insertInPlace kv

end SmallMapNode

/-! ## The hash table -/

/-- `DenseMapNode`: `slots_` is the number of slots minus one.  The bytes and the entries of the
blocks are given by the slot; a slot without an entry holds no constructed object. -/
structure DenseMapNode (κ ν : Type) where
  fibShift : ℕ
  slots : ℕ
  size : ℕ
  bytes : ℕ → UInt8
  data : ℕ → Option (κ × ν)

def kEmptySlot : UInt8 := 0b11111111

def kProtectedSlot : UInt8 := 0b11111110

def kNumJumpDists : ℕ := 126

def kNextProbeLocation : List ℕ := [
  0, 1, 2, 3, 4, 5, 6, 7, 8, 9, 10, 11, 12, 13, 14, 15,
  21, 28, 36, 45, 55, 66, 78, 91, 105, 120,
  136, 153, 171, 190, 210, 231, 253, 276, 300, 325,
  351, 378, 406, 435, 465, 496, 528, 561, 595, 630,
  666, 703, 741, 780, 820, 861, 903, 946, 990, 1035,
  1081, 1128, 1176, 1225, 1275, 1326, 1378, 1431, 1485, 1540,
  1596, 1653, 1711, 1770, 1830, 1891, 1953, 2016, 2080, 2145,
  2211, 2278, 2346, 2415, 2485, 2556, 2628,
  8515, 19110, 42778, 96141, 216153,
  486591, 1092981, 2458653, 5532801, 12442566,
  27993903, 62983476, 141717030, 318844378, 717352503,
  1614057336, 3631522476, 8170957530, 18384510628, 41364789378,
  93070452520, 209408356380, 471168559170, 1060128894105, 2385289465695,
  5366898840628, 12075518705635, 27169915244790, 61132312065111, 137547689707000,
  309482283181501, 696335127828753, 1566753995631385, 3525196511162271, 7931691992677701,
  17846306936293605, 40154190677507445, 90346928918121501, 203280589587557251,
  457381325854679626, 1029107982097042876, 2315492959180353330, 5209859154120846435]

/-- The distance of a jump. -/
def probe (jump : ℕ) : ℕ := kNextProbeLocation.getD jump 0

/-- `DenseMapNode::FibHash`: the product is one of `uint64_t`. -/
def fibHash (hashValue fibShift : ℕ) : ℕ := (11400714819323198485 * hashValue % 2 ^ 64) >>> fibShift

/-- `DenseMapNode::CalcTableSize`: the shift and the number of slots. -/
def calcTableSize (cap : ℕ) : Option (ℕ × ℕ) :=
  -- the loop shifts `cap` to the right until nothing is left of it
  let shift := 64 - Nat.size cap
  let slots := 1 <<< Nat.size cap
  if slots ≤ cap then none
  else if slots < cap * 2 then some (shift - 1, slots <<< 1)
  else some (shift, slots)

namespace DenseMapNode

variable {κ ν : Type}

def empty (fibShift nSlots : ℕ) : Option (DenseMapNode κ ν) :=
  -- `ICHECK_GT(n_slots, uint64_t(SmallMapNode::kMaxSize))`
  if nSlots ≤ kMaxSize then none
  else some ⟨fibShift, nSlots - 1, 0, fun _ => kEmptySlot, fun _ => none⟩

/-! ### `ListNode` -/

variable (t : DenseMapNode κ ν)

def isHead (i : ℕ) : Bool := t.bytes i &&& 0b10000000 == 0

def isEmpty (i : ℕ) : Bool := t.bytes i == kEmptySlot

def isProtected (i : ℕ) : Bool := t.bytes i == kProtectedSlot

/-- The byte of a slot is written. -/
def setByte (i : ℕ) (byte : UInt8) : DenseMapNode κ ν :=
  { t with bytes := Function.update t.bytes i byte }

/-- The entry of a slot is written, or destroyed. -/
def setData (i : ℕ) (entry : Option (κ × ν)) : DenseMapNode κ ν :=
  { t with data := Function.update t.data i entry }

/-- `ListNode::SetEmpty`, where the entry has been destroyed or moved away. -/
def setEmpty (i : ℕ) : DenseMapNode κ ν := (t.setByte i kEmptySlot).setData i none

/-- `ListNode::SetProtected`, where the entry has been moved away. -/
def setProtected (i : ℕ) : DenseMapNode κ ν := (t.setByte i kProtectedSlot).setData i none

def setJump (i : ℕ) (jump : UInt8) : DenseMapNode κ ν :=
  t.setByte i (t.bytes i &&& 0b10000000 ||| jump)

def newHead (i : ℕ) (entry : Option (κ × ν)) : DenseMapNode κ ν :=
  (t.setByte i 0b00000000).setData i entry

def newTail (i : ℕ) (entry : Option (κ × ν)) : DenseMapNode κ ν :=
  (t.setByte i 0b10000000).setData i entry

/-- `ListNode::MoveToNext` with the byte given. -/
def moveToNext (i : ℕ) (byte : UInt8) : Option ℕ :=
  let offset := probe (byte &&& 0b01111111).toNat
  if offset = 0 then none else some ((i + offset) &&& t.slots)

/-- `ListNode::MoveToNext`; `ListNode::HasNext` says whether there is one. -/
def next (i : ℕ) : Option ℕ := t.moveToNext i (t.bytes i)

/-- `ListNode::GetNextEmpty`: the jump and the slot it leads to. -/
def getNextEmpty (i : ℕ) : Option (ℕ × ℕ) :=
  ((List.range' 1 (kNumJumpDists - 1)).find? fun idx =>
    t.isEmpty ((i + probe idx) &&& t.slots)).map fun idx => (idx, (i + probe idx) &&& t.slots)

/-! ### The operations -/

/-- `DenseMapNode::IsFull`, for `kMaxLoadFactor` 0.99. -/
def isFull : Bool := 99 * (t.slots + 1) < 100 * (t.size + 1)

variable [DecidableEq κ] (hash : κ → ℕ) (t : DenseMapNode κ ν)

def indexFromHash (key : κ) : ℕ := fibHash (hash key) t.fibShift

/-- The entry of the slot has the key. -/
def hasKey (key : κ) (i : ℕ) : Bool := (t.data i).map Prod.fst = some key

def search (key : κ) : Option ℕ :=
  if t.size = 0 then none
  -- `GetListHead`
  else if t.isHead (t.indexFromHash hash key) then
    match scan t.next (t.hasKey key) (t.slots + 1) (t.indexFromHash hash key) with
    | some (.inl i) => some i
    | _ => none
  else none

def findPrev (i : ℕ) : Option ℕ :=
  (t.data i).bind fun kv => prevOf t.next i (t.slots + 1) (t.indexFromHash hash kv.1)

/-- One round of the loop of `DenseMapNode::TrySpareListHead`: the entry of `r` is moved to the
empty slot `e`, which is linked to `w`. -/
def spareStep (isFirst : Bool) (r w jump e : ℕ) : DenseMapNode κ ν :=
  let t := t.newTail e (t.data r)
  let t := if isFirst then t.setProtected r else t.setEmpty r
  t.setJump w (UInt8.ofNat jump)

/-- The loop of `DenseMapNode::TrySpareListHead`: the list from `r` on is moved behind `w`.  The
result says whether all of it was moved. -/
def spareLoop : ℕ → DenseMapNode κ ν → Bool → ℕ → ℕ → Option (DenseMapNode κ ν × Bool)
  | 0, _, _, _, _ => none
  | fuel + 1, t, isFirst, r, w =>
    match t.getNextEmpty w with
    | none => some (t, false)
    | some (jump, e) =>
      let rMeta := (t.newTail e (t.data r)).bytes r
      let t := t.spareStep isFirst r w jump e
      match t.moveToNext r rMeta with
      | none => some (t, true)
      | some r => spareLoop fuel t false r e

/-- `DenseMapNode::TrySpareListHead`: the table, and the new head if there is one. -/
def trySpareListHead [Inhabited ν] (t : DenseMapNode κ ν) (target : ℕ) (key : κ) :
    Option (DenseMapNode κ ν × Option ℕ) :=
  match t.findPrev hash target with
  | none => none
  | some w =>
    match spareLoop (t.slots + 1) t true target w with
    | none => none
    | some (t, false) => some (t, none)
    | some (t, true) =>
      some ({ t.newHead target (some (key, default)) with size := t.size + 1 }, some target)

/-- `DenseMapNode::TryInsert`: the table, and the slot of the key unless the insertion failed.
The default value is `ObjectRef(nullptr)`. -/
def tryInsert [Inhabited ν] (t : DenseMapNode κ ν) (key : κ) :
    Option (DenseMapNode κ ν × Option ℕ) :=
  if t.slots = 0 then some (t, none)
  else
    let iter := t.indexFromHash hash key
    if t.isEmpty iter then
      some ({ t.newHead iter (some (key, default)) with size := t.size + 1 }, some iter)
    else if !t.isHead iter then
      if t.isFull then some (t, none) else t.trySpareListHead hash iter key
    else
      match scan t.next (t.hasKey key) (t.slots + 1) iter with
      | none => none
      | some (.inl i) => some (t, some i)
      | some (.inr tail) =>
        if t.isFull then some (t, none)
        else
          match t.getNextEmpty tail with
          | none => some (t, none)
          | some (jump, e) =>
            some ({ (t.newTail e (some (key, default))).setJump tail (UInt8.ofNat jump) with
              size := t.size + 1 }, some e)

/-- The value of an entry is written. -/
def setVal (i : ℕ) (value : ν) : DenseMapNode κ ν :=
  t.setData i ((t.data i).map fun kv => (kv.1, value))

/-- The entries of the slots that are neither empty nor protected, from the front. -/
def entries : List (κ × ν) :=
  (List.range (t.slots + 1)).filterMap fun i =>
    if t.isProtected i || t.isEmpty i then none else t.data i

/-- `DenseMapNode::InsertMaybeReHash`.  Every rehashing takes one from the shift, so a shift is
fuel enough: the table of shift zero would have `2 ^ 64` slots, which is zero in `uint64_t`. -/
def insertFuel [Inhabited ν] : ℕ → DenseMapNode κ ν → κ × ν → Option (DenseMapNode κ ν)
  | 0, _, _ => none
  | fuel + 1, t, kv =>
    match t.tryInsert hash kv.1 with
    | none => none
    | some (t, some i) => some (t.setVal i kv.2)
    | some (t, none) =>
      -- `ICHECK_GT(map_node->slots_, uint64_t(SmallMapNode::kMaxSize))`
      if t.slots ≤ kMaxSize then none
      else do
        let p ← empty (t.fibShift - 1) ((t.slots * 2 + 2) % 2 ^ 64)
        let p ← insertFuel fuel p kv
        t.entries.foldlM (insertFuel fuel) p

/-- `DenseMapNode::InsertMaybeReHash` with the fuel it needs. -/
def insertMaybeReHash [Inhabited ν] (t : DenseMapNode κ ν) (kv : κ × ν) :
    Option (DenseMapNode κ ν) :=
  insertFuel hash t.fibShift t kv

/-- `DenseMapNode::Erase`. -/
def eraseNode (i : ℕ) : Option (DenseMapNode κ ν) :=
  match t.next i with
  | none =>
    if t.isHead i then some { t.setEmpty i with size := t.size - 1 }
    else (t.findPrev hash i).map fun prev =>
      { (t.setJump prev 0).setEmpty i with size := t.size - 1 }
  | some j =>
    (lastTwo t.next (t.slots + 1) i j).map fun (prev, last) =>
      { ((t.setData i (t.data last)).setEmpty last).setJump prev 0 with size := t.size - 1 }

/-- `DenseMapNode::find`, where `slots_ + 1` is the end. -/
def find (key : κ) : ℕ := (t.search hash key).getD (t.slots + 1)

def erase (index : ℕ) : Option (DenseMapNode κ ν) :=
  if index ≤ t.slots then t.eraseNode hash index else some t

def copyFrom : Option (DenseMapNode κ ν) :=
  -- `ICHECK(meta != kProtectedSlot)`
  if (List.range (t.slots + 1)).any t.isProtected then none
  else some { t with data := fun i => if t.isEmpty i then none else t.data i }

/-! ### Iteration -/

/-- The first slot from `index` on that is not empty: the loops of `begin` and `IncItr`. -/
def seek (index : ℕ) : ℕ :=
  ((List.range' index (t.slots + 1 - index)).find? fun i => !t.isEmpty i).getD (t.slots + 1)

def begin : ℕ := if t.slots = 0 then 0 else t.seek 0

/-- `DenseMapNode::end`. -/
def «end» : ℕ := if t.slots = 0 then 0 else t.slots + 1

def incItr (index : ℕ) : ℕ := t.seek (index + 1)

/-- The entries that a loop from an iterator to the end visits. -/
def iterateFrom (t : DenseMapNode κ ν) : ℕ → ℕ → List (κ × ν)
  | 0, _ => []
  | fuel + 1, index =>
    if index = t.«end» then []
    else (t.data index).toList ++ iterateFrom t fuel (t.incItr index)

end DenseMapNode

/-! ## The nodes of both kinds -/

/-- `MapNode`: the source tells the two kinds apart by `slots_ <= kMaxSize`. -/
inductive MapNode (κ ν : Type) where
  | small (m : SmallMapNode κ ν)
  | dense (t : DenseMapNode κ ν)

namespace MapNode

variable {κ ν : Type}

def empty : MapNode κ ν := .small (SmallMapNode.empty kInitSize)

def size : MapNode κ ν → ℕ
  | small m => m.entries.length
  | dense t => t.size

/-- The entries that a loop from `begin` to `end` visits. -/
def iterate : MapNode κ ν → List (κ × ν)
  | small m => m.entries
  | dense t => t.iterateFrom (t.slots + 1) t.begin

variable [DecidableEq κ] (hash : κ → ℕ)

/-- `MapNode::find`: the value at the iterator that is found, unless it is the end. -/
def find : MapNode κ ν → κ → Option ν
  | small m, key => (m.entries[m.find key]?).map Prod.snd
  | dense t, key => ((t.search hash key).bind t.data).map Prod.snd

/-- `MapNode::erase` of a key. -/
def erase : MapNode κ ν → κ → Option (MapNode κ ν)
  | small m, key => some (small (m.erase (m.find key)))
  | dense t, key => (t.erase hash (t.find hash key)).map dense

def copyFrom : MapNode κ ν → Option (MapNode κ ν)
  | small m => some (small m.copyFrom)
  | dense t => t.copyFrom.map dense

variable [Inhabited ν]

/-- `MapNode::CreateFromRange` for at least `kMaxSize` entries. -/
def createDense (range : List (κ × ν)) : Option (DenseMapNode κ ν) := do
  let (fibShift, nSlots) ← calcTableSize range.length
  let t ← DenseMapNode.empty fibShift nSlots
  range.foldlM (DenseMapNode.insertMaybeReHash hash) t

def insertMaybeReHash : MapNode κ ν → κ × ν → Option (MapNode κ ν)
  | small m, kv =>
    if m.slots < kMaxSize ∨ m.entries.length < m.slots then
      (m.insertMaybeReHash kv).map small
    else do
      let t ← createDense hash m.entries
      (t.insertMaybeReHash hash kv).map dense
  | dense t, kv => (t.insertMaybeReHash hash kv).map dense

end MapNode

/-! ## Handles -/

/-- The maps of a program: nodes, and for each map the node it refers to. -/
structure MapHeap (κ ν : Type) where
  nodes : List (MapNode κ ν)
  maps : List ℕ

/-- An operation on the maps, which are given by their positions. -/
inductive MapOp (κ ν : Type) where
  /-- `Map()`. -/
  | new
  /-- `Map(other)`. -/
  | copy (other : ℕ)
  /-- `map = other`. -/
  | assign (map other : ℕ)
  /-- `map.Set(key, value)`. -/
  | set (map : ℕ) (key : κ) (value : ν)
  /-- `map.erase(key)`. -/
  | erase (map : ℕ) (key : κ)

namespace MapHeap

variable {κ ν : Type} (heap : MapHeap κ ν) (map : ℕ)

def node : Option (MapNode κ ν) := heap.maps[map]?.bind fun ref => heap.nodes[ref]?

/-- `Map::Map()`. -/
def new : MapHeap κ ν := ⟨heap.nodes ++ [MapNode.empty], heap.maps ++ [heap.nodes.length]⟩

/-- `Map::CopyOnWrite`: the node is copied unless the map is the only one that refers to it. -/
def copyOnWrite : Option (MapHeap κ ν) := do
  let ref ← heap.maps[map]?
  if heap.maps.count ref = 1 then some heap
  else
    let node ← heap.nodes[ref]?
    let copied ← node.copyFrom
    some ⟨heap.nodes ++ [copied], heap.maps.set map heap.nodes.length⟩

def modify (f : MapNode κ ν → Option (MapNode κ ν)) : Option (MapHeap κ ν) := do
  let heap ← heap.copyOnWrite map
  let ref ← heap.maps[map]?
  let node ← heap.nodes[ref]?
  let node ← f node
  some { heap with nodes := heap.nodes.set ref node }

end MapHeap

variable {κ ν : Type} [DecidableEq κ] [Inhabited ν] (hash : κ → ℕ)

/-- One operation; `none` where a check fails, or the map does not exist. -/
def mapStep (heap : MapHeap κ ν) : MapOp κ ν → Option (MapHeap κ ν)
  | .new => some heap.new
  | .copy other => heap.maps[other]?.map fun ref => { heap with maps := heap.maps ++ [ref] }
  | .assign map other => do
    let _ ← heap.maps[map]?
    let ref ← heap.maps[other]?
    some { heap with maps := heap.maps.set map ref }
  | .set map key value => heap.modify map fun node => node.insertMaybeReHash hash (key, value)
  | .erase map key => heap.modify map fun node => node.erase hash key

/-- A program that starts with one empty map. -/
def runMap (ops : List (MapOp κ ν)) : Option (MapHeap κ ν) :=
  ops.foldlM (mapStep hash) (MapHeap.new ⟨[], []⟩)

end Pruner.Runtime
