import Pruner.Lib.BlockTable

/-!
# The page allocator of the C runtime

The `MemoryManager` of `runtime/crt/memory/memory.c`, which hands out runs of pages of one memory
pool.  A page table counts the pages handed out so far, an address table remembers the run of pages
that starts at each address, and a list of free runs is searched, from its front on, for one that is
large enough.  A run that is free is handed out again as a whole.

Addresses and sizes are those of a platform with 64-bit `size_t`; the places where the code cuts a
number to 32 bits are kept.  A failed `CHECK`, or a write behind the end of one of the tables, has
no result.

## Main definitions

* `Page`, `PageTable`, `TLB`, `MultiMap`, `MemoryManager` — the tables, as the code has them.
* `MemoryManager.create`, `allocate`, `free` — the interface.
* `Live`, `Reachable` — a client's blocks, and the states its requests lead to.
-/

namespace Pruner.Runtime.Crt

open Pruner.Lib

/-- A run of pages. -/
structure Page where
  /-- Start location in the page table. -/
  ptableBegin : ℕ
  /-- The total number of pages. -/
  numPages : ℕ
  /-- The address of the first page. -/
  data : ℕ
  deriving DecidableEq, Repr

/-- A run of pages that a pool of zero bytes shows. -/
def Page.zero : Page := ⟨0, 0, 0⟩

def pageCreate (memoryPool pageSizeBytes ptableBegin numPages : ℕ) : Page where
  ptableBegin := ptableBegin
  numPages := numPages
  data := memoryPool + ptableBegin * pageSizeBytes

/-! ## The tables -/

/-- `PageTable`: for each page handed out so far, the run it was created in. -/
structure PageTable where
  memoryPool : ℕ
  pageSizeBytes : ℕ
  page : Slots Page
  maxPages : ℕ

/-- `PageTable_Resize`; the loop counts in 32 bits. -/
def PageTable.resize (ptable : PageTable) (newSize : ℕ) (page : Page) : Option PageTable :=
  if ptable.page.num ≤ newSize ∧ newSize ≤ ptable.maxPages ∧ newSize < 2 ^ 32 then
    some { ptable with
      page := ⟨fun idx => if ptable.page.num ≤ idx ∧ idx < newSize then page
        else ptable.page.entry idx, newSize⟩ }
  else none

structure PageEntry where
  addr : ℕ
  page : Page
  deriving DecidableEq, Repr

/-- `TLB`: the runs by their address. -/
structure TLB where
  entries : Slots PageEntry
  maxPages : ℕ

namespace TLB

/-- `TLB_Find`. -/
def find (tlb : TLB) (data : ℕ) : Option ℕ := tlb.entries.findSlot fun entry => entry.addr = data

/-- `TLB_Set`. -/
def set (tlb : TLB) (data : ℕ) (page : Page) : Option TLB :=
  match tlb.find data with
  | none =>
    if tlb.entries.num < tlb.maxPages then
      some { tlb with entries := tlb.entries.push ⟨data, page⟩ }
    else none
  | some idx => some { tlb with entries := tlb.entries.setAt idx ⟨data, page⟩ }

end TLB

structure IndexedEntry where
  index : ℕ
  page : Page
  deriving DecidableEq, Repr

/-- `MultiMap`: the free runs, in no order. -/
structure MultiMap where
  entries : Slots IndexedEntry
  maxEntries : ℕ

namespace MultiMap

/-- `MultiMap_LowerBound`: the first entry that is large enough. -/
def lowerBound (map : MultiMap) (npage : ℕ) : Option ℕ :=
  map.entries.findSlot fun entry => npage ≤ entry.index

/-- `MultiMap_Erase`. -/
def erase (map : MultiMap) (idx : ℕ) : MultiMap := { map with entries := map.entries.erase idx }

/-- `MultiMap_Insert`: the loop writes the new slot `npage` times, so not at all for a run of no
pages. -/
def insert (map : MultiMap) (npage : ℕ) (p : Page) : Option MultiMap :=
  if map.entries.num + 1 ≤ map.maxEntries then
    if npage = 0 then some { map with entries := ⟨map.entries.entry, map.entries.num + 1⟩ }
    else some { map with entries := map.entries.push ⟨npage, p⟩ }
  else none

end MultiMap

/-! ## The manager -/

structure MemoryManager where
  ptable : PageTable
  pmap : TLB
  freeMap : MultiMap
  /-- An `int`: it counts the blocks that are held, so it is exact for up to `2 ^ 31 - 1` of them. -/
  vleakSize : ℤ

/-- The error codes of `Allocate`, with the address of a successful one. -/
inductive AllocResult
  /-- `kTvmErrorNoError`. -/
  | noError (outPtr : ℕ)
  /-- `kTvmErrorPlatformNoMemory`. -/
  | noMemory
  deriving DecidableEq, Repr

def sizeofMemoryManager : ℕ := 168

/-- `sizeof(Page) + sizeof(PageEntry) + sizeof(IndexedEntry)`. -/
def metadataBytesPerPage : ℕ := 24 + 32 + 32

namespace MemoryManager

/-- `MemoryManagerCreate` over a pool of zero bytes at the address `memoryPool`: the pages come
first, the tables behind them.  The size of a page is an `int` that is shifted, by fewer than 31
bits. -/
def create (memoryPool memoryPoolSizeBytes : ℕ) (pageSizeBytesLog2 : Fin 31) : MemoryManager :=
  let pageSizeBytes := 2 ^ (pageSizeBytesLog2 : ℕ)
  let numPages := (memoryPoolSizeBytes + 2 ^ 64 - sizeofMemoryManager) % 2 ^ 64 /
    (pageSizeBytes + metadataBytesPerPage)
  { ptable := ⟨memoryPool, pageSizeBytes, ⟨fun _ => Page.zero, 0⟩, numPages⟩
    pmap := ⟨⟨fun _ => ⟨0, Page.zero⟩, 0⟩, numPages⟩
    freeMap := ⟨⟨fun _ => ⟨0, Page.zero⟩, 0⟩, numPages⟩
    vleakSize := 0 }

/-- The number of pages that hold so many bytes, in `size_t` arithmetic. -/
def npages (m : MemoryManager) (numBytes : ℕ) : ℕ :=
  (numBytes + m.ptable.pageSizeBytes - 1) % 2 ^ 64 / m.ptable.pageSizeBytes

/-- The branch of `MemoryManager_Allocate` that takes pages never handed out before. -/
def allocateFresh (m : MemoryManager) (npage : ℕ) : Option (MemoryManager × AllocResult) :=
  let start := m.ptable.page.num
  if m.ptable.maxPages < (start + npage) % 2 ^ 32 then some (m, .noMemory)
  else do
    let p := pageCreate m.ptable.memoryPool m.ptable.pageSizeBytes start npage
    let ptable ← m.ptable.resize ((start + npage) % 2 ^ 64) p
    let pmap ← m.pmap.set p.data p
    some ({ m with ptable := ptable, pmap := pmap, vleakSize := m.vleakSize + 1 }, .noError p.data)

/-- `MemoryManager_Allocate`. -/
def allocate (m : MemoryManager) (numBytes : ℕ) : Option (MemoryManager × AllocResult) :=
  let npage := m.npages numBytes
  match m.freeMap.lowerBound (npage % 2 ^ 32) with
  | some it =>
    let p := (m.freeMap.entries.entry it).page
    some ({ m with freeMap := m.freeMap.erase it, vleakSize := m.vleakSize + 1 }, .noError p.data)
  | none => m.allocateFresh npage

/-- `MemoryManager_Free`. -/
def free (m : MemoryManager) (ptr : ℕ) : Option MemoryManager :=
  if m.pmap.entries.num = 0 then none
  else
    match m.pmap.find ptr with
    | none => none
    | some idx => do
      let p := (m.pmap.entries.entry idx).page
      let freeMap ← m.freeMap.insert (p.numPages % 2 ^ 32) p
      some { m with freeMap := freeMap, vleakSize := m.vleakSize - 1 }

/-- The size in bytes of the run that the manager keeps for an address. -/
def blockBytes (m : MemoryManager) (ptr : ℕ) : ℕ :=
  match m.pmap.find ptr with
  | none => 0
  | some idx => (m.pmap.entries.entry idx).page.numPages * m.ptable.pageSizeBytes

end MemoryManager

/-! ## Clients -/

/-- A block that a client holds: its address, and the size it asked for. -/
structure Live where
  ptr : ℕ
  numBytes : ℕ
  deriving DecidableEq, Repr

/-- A request that the arithmetic of the allocator has room for: rounding it up to pages stays
within 64 bits, and its pages together with all pages of the pool can be counted in 32 bits. -/
def MemoryManager.Countable (m : MemoryManager) (numBytes : ℕ) : Prop :=
  numBytes + m.ptable.pageSizeBytes - 1 < 2 ^ 64 ∧ m.ptable.maxPages + m.npages numBytes < 2 ^ 32

/-- The states that requests lead to, from a manager on, with the blocks the client holds and the
addresses it has given back.  A request asks for at least one byte, and only blocks that are held
are freed. -/
inductive Reachable (m₀ : MemoryManager) : MemoryManager → List Live → List ℕ → Prop
  | start : Reachable m₀ m₀ [] []
  | allocate {m m' : MemoryManager} {live : List Live} {freed : List ℕ} {numBytes ptr : ℕ} :
      Reachable m₀ m live freed → 0 < numBytes → m₀.Countable numBytes →
      m.allocate numBytes = some (m', .noError ptr) →
      Reachable m₀ m' (⟨ptr, numBytes⟩ :: live) (freed.filter (· ≠ ptr))
  | noMemory {m m' : MemoryManager} {live : List Live} {freed : List ℕ} {numBytes : ℕ} :
      Reachable m₀ m live freed → 0 < numBytes → m₀.Countable numBytes →
      m.allocate numBytes = some (m', .noMemory) → Reachable m₀ m' live freed
  | free {m m' : MemoryManager} {l₁ l₂ : List Live} {freed : List ℕ} {b : Live} :
      Reachable m₀ m (l₁ ++ b :: l₂) freed → m.free b.ptr = some m' →
      Reachable m₀ m' (l₁ ++ l₂) (b.ptr :: freed)

end Pruner.Runtime.Crt
