import Pruner.Lib.PartialRun
import Pruner.Runtime.CrtMemory

/-!
# The page allocator hands out disjoint blocks

The runs of the address table tile the pages handed out so far.  Each of them is either held by the
client or free, so that a block the client gets is not one it has.

## Main definitions

* `MemoryManager.pages` — the runs of the address table.
* `MemoryManager.Sound` — the tables are consistent with each other and with the client's blocks.
* `Sound.allocate`, `Sound.free` — the requests keep them so.
* `reachable_safe` — what holds in every state that requests lead to.
* `reachable_freeList` — the free list in every such state.
* `reachable_pages` — no page is lost.
-/

namespace Pruner.Runtime.Crt

open Pruner.Lib List Option Slots Nat

variable {b : Live} {m₀ m m' : MemoryManager} {live : List Live} {freed : List ℕ} {numBytes ptr : ℕ}

namespace MemoryManager

/-- The runs of the address table. -/
def pages (m : MemoryManager) : List Page := m.pmap.entries.toList.map PageEntry.page

/-- The runs that are free. -/
def freePages (m : MemoryManager) : List Page := m.freeMap.entries.toList.map IndexedEntry.page

/-- The tables are consistent with each other and with the client's blocks.  What does not change
is that of `m₀`. -/
structure Sound (m₀ m : MemoryManager) (live : List Live) (freed : List ℕ) : Prop where
  memoryPool : m.ptable.memoryPool = m₀.ptable.memoryPool
  pageSizeBytes : m.ptable.pageSizeBytes = m₀.ptable.pageSizeBytes
  pageSize_pos : 0 < m₀.ptable.pageSizeBytes
  maxPages : m.ptable.maxPages = m₀.ptable.maxPages
  pmap_maxPages : m.pmap.maxPages = m₀.ptable.maxPages
  freeMap_maxEntries : m.freeMap.maxEntries = m₀.ptable.maxPages
  /-- The runs tile the pages handed out so far. -/
  tiles : Tiles Page.ptableBegin Page.numPages 0 m.pages m.ptable.page.num
  num_le : m.ptable.page.num ≤ m₀.ptable.maxPages
  /-- Pages are handed out only where they can be counted. -/
  small : m.pages ≠ [] → m₀.ptable.maxPages < 2 ^ 32
  addr_eq : ∀ e ∈ m.pmap.entries.toList, e.addr = e.page.data
  data_eq : ∀ p ∈ m.pages, p.data = m₀.ptable.memoryPool + p.ptableBegin * m₀.ptable.pageSizeBytes
  /-- A run is either held or free. -/
  split : (m.pages.map Page.data).Perm (live.map Live.ptr ++ m.freePages.map Page.data)
  held : ∀ b ∈ live, ∃ p ∈ m.pages,
    p.data = b.ptr ∧ b.numBytes ≤ p.numPages * m₀.ptable.pageSizeBytes
  free_mem : ∀ e ∈ m.freeMap.entries.toList, e.page ∈ m.pages ∧ e.index = e.page.numPages
  freed_mem : ∀ ptr ∈ freed, ptr ∈ m.freePages.map Page.data

/-! ## Rounding up to pages -/

/-- So many pages are needed as the bytes do not fit into fewer. -/
theorem lt_npages_iff (hps : 0 < m.ptable.pageSizeBytes) (hcount : m.Countable numBytes) {k : ℕ} :
    k < m.npages numBytes ↔ k * m.ptable.pageSizeBytes < numBytes := by
  rw [npages, mod_eq_of_lt hcount.1, lt_iff_add_one_le, le_div_iff_mul_le hps, add_one_mul]
  omega

/-! ## The tables -/

/-- A new manager holds no pages. -/
theorem sound_create (memoryPool poolSize : ℕ) (log2 : Fin 31) :
    Sound (create memoryPool poolSize log2) (create memoryPool poolSize log2) [] [] where
  memoryPool := rfl
  pageSizeBytes := rfl
  pageSize_pos := Nat.two_pow_pos _
  maxPages := rfl
  pmap_maxPages := rfl
  freeMap_maxEntries := rfl
  tiles := rfl
  num_le := zero_le _
  small := fun h => absurd rfl h
  addr_eq := fun _ he => absurd he not_mem_nil
  data_eq := fun _ he => absurd he not_mem_nil
  split := Perm.nil
  held := fun _ hb => absurd hb not_mem_nil
  free_mem := fun _ he => absurd he not_mem_nil
  freed_mem := fun _ he => absurd he not_mem_nil

namespace Sound

variable {p p' : Page}

section

variable (h : Sound m₀ m live freed)
include h

section

variable (hp : p ∈ m.pages)
include hp

/-- Runs are told apart by their addresses. -/
theorem eq_of_data_eq (hp' : p' ∈ m.pages) (hdata : p.data = p'.data) : p = p' := by
  rw [h.data_eq p hp, h.data_eq p' hp'] at hdata
  exact h.tiles.eq_of_start_eq hp hp'
    (eq_of_mul_eq_mul_right h.pageSize_pos (add_left_cancel hdata))

/-- The address table finds a run by its address. -/
theorem find_data :
    ∃ i, m.pmap.find p.data = some i ∧ (m.pmap.entries.entry i).page = p := by
  obtain ⟨e, he, rfl⟩ := mem_map.mp hp
  obtain ⟨i, hi⟩ := exists_findSlot (p := fun entry => entry.addr = e.page.data) he
    (by simp [h.addr_eq e he])
  refine ⟨i, hi, ?_⟩
  obtain ⟨hlt, haddr⟩ := findSlot_eq_some hi
  have hmem := entry_mem_toList hlt
  apply h.eq_of_data_eq (mem_map_of_mem hmem) hp
  rw [← h.addr_eq _ hmem]
  exact of_decide_eq_true haddr

theorem blockBytes_eq :
    m.blockBytes p.data = p.numPages * m₀.ptable.pageSizeBytes := by
  obtain ⟨i, hi, hpage⟩ := h.find_data hp
  rw [blockBytes, hi]
  simp [hpage, h.pageSizeBytes]

theorem numPages_lt : p.numPages < 2 ^ 32 := by
  have hsmall := h.small (ne_nil_of_mem hp)
  have hle := h.num_le
  have hmem := h.tiles.mem hp
  omega

end

/-- The addresses of the runs are all different. -/
theorem nodup_data : (m.pages.map Page.data).Nodup := by
  rw [Nodup, pairwise_map]
  apply h.tiles.pairwise.imp_of_mem
  intro p p' hp hp' hle hdata
  have heq := h.eq_of_data_eq hp hp' hdata
  have hpos := (h.tiles.mem hp).2.1
  rw [heq] at hle hpos
  omega

/-- A block of the client is one of the runs. -/
theorem exists_page (hb : b ∈ live) :
    ∃ p ∈ m.pages, p.data = b.ptr ∧ m.blockBytes b.ptr = p.numPages * m₀.ptable.pageSizeBytes ∧
      b.numBytes ≤ p.numPages * m₀.ptable.pageSizeBytes := by
  obtain ⟨p, hp, hdata, hbytes⟩ := h.held b hb
  exact ⟨p, hp, hdata, hdata ▸ h.blockBytes_eq hp, hbytes⟩

/-! ## Requests -/

/-- Rounding up is the same in every state. -/
theorem npages_eq (numBytes : ℕ) : m.npages numBytes = m₀.npages numBytes := by
  rw [npages, npages, h.pageSizeBytes]

/-- A free run that is large enough becomes a block of the client. -/
theorem reuse {it : ℕ} (hit : m.freeMap.lowerBound (m.npages numBytes % 2 ^ 32) = some it)
    (hcount : m₀.Countable numBytes) :
    Sound m₀ { m with freeMap := m.freeMap.erase it, vleakSize := m.vleakSize + 1 }
      (⟨(m.freeMap.entries.entry it).page.data, numBytes⟩ :: live)
      (freed.filter (· ≠ (m.freeMap.entries.entry it).page.data)) := by
  obtain ⟨hlt, hlarge⟩ := findSlot_eq_some hit
  obtain ⟨hpage, hindex⟩ := h.free_mem _ (entry_mem_toList hlt)
  have hperm := perm_erase hlt
  have hfree := (hperm.map IndexedEntry.page).map Page.data
  refine { h with
    split := ?_
    held := ?_
    free_mem := fun e he => h.free_mem e (hperm.mem_iff.mpr (mem_cons_of_mem _ he))
    freed_mem := ?_ }
  · -- the run moves from the free ones to the front of those that are held
    exact h.split.trans ((Perm.append_left _ hfree).trans perm_middle)
  · intro b hb
    rcases mem_cons.mp hb with rfl | hb
    · refine ⟨_, hpage, rfl, ?_⟩
      have hnpages : m₀.npages numBytes ≤ (m.freeMap.entries.entry it).page.numPages := by
        have hle := of_decide_eq_true hlarge
        rwa [h.npages_eq, mod_eq_of_lt (by have := hcount.2; omega), hindex] at hle
      by_contra hlt
      have := (lt_npages_iff h.pageSize_pos hcount).mpr (not_le.mp hlt)
      omega
    · exact h.held b hb
  · intro ptr hptr
    obtain ⟨hptr, hne⟩ := mem_filter.mp hptr
    have hmem := hfree.mem_iff.mp (h.freed_mem ptr hptr)
    exact (mem_cons.mp hmem).resolve_left (of_decide_eq_true hne)

/-- Fresh pages become a block of the client, if there are enough. -/
theorem fresh (hpos : 0 < numBytes) (hcount : m₀.Countable numBytes)
    (hroom : m.ptable.page.num + m₀.npages numBytes ≤ m₀.ptable.maxPages) :
    ∃ m' ptr, m.allocateFresh (m.npages numBytes) = some (m', .noError ptr) ∧
      Sound m₀ m' (⟨ptr, numBytes⟩ :: live) (freed.filter (· ≠ ptr)) := by
  have hpos' : 0 < m₀.npages numBytes :=
    (lt_npages_iff h.pageSize_pos hcount).mpr (by rwa [Nat.zero_mul])
  have hsmall : m₀.ptable.maxPages < 2 ^ 32 := by
    have := hcount.2
    omega
  obtain ⟨p, hp⟩ : ∃ p, p = pageCreate m.ptable.memoryPool m.ptable.pageSizeBytes
    m.ptable.page.num (m₀.npages numBytes) := ⟨_, rfl⟩
  have hdata : p.data = m₀.ptable.memoryPool + m.ptable.page.num * m₀.ptable.pageSizeBytes := by
    rw [hp, pageCreate, h.memoryPool, h.pageSizeBytes]
  have hbegin : p.ptableBegin = m.ptable.page.num := by rw [hp, pageCreate]
  have hnum : p.numPages = m₀.npages numBytes := by rw [hp, pageCreate]
  obtain ⟨pages', hresize, hnum'⟩ : ∃ page, m.ptable.resize (m.ptable.page.num +
      m₀.npages numBytes) p = some { m.ptable with page := page } ∧
      page.num = m.ptable.page.num + m₀.npages numBytes :=
    ⟨_, if_pos ⟨by omega, by rw [h.maxPages]; omega, by omega⟩, rfl⟩
  -- no run starts at the address of the fresh pages
  have hfind : m.pmap.find p.data = none := by
    cases hfind : m.pmap.find p.data with
    | none => rfl
    | some i =>
      obtain ⟨hlt, haddr⟩ := findSlot_eq_some hfind
      have hmem := entry_mem_toList hlt
      have hpage := mem_map_of_mem (f := PageEntry.page) hmem
      have heq := h.data_eq _ hpage
      rw [← h.addr_eq _ hmem, of_decide_eq_true haddr, hdata] at heq
      have hsame := eq_of_mul_eq_mul_right h.pageSize_pos (add_left_cancel heq)
      have hbound := h.tiles.mem hpage
      omega
  have hslots : m.pmap.entries.num < m.pmap.maxPages := by
    have hlen := h.tiles.length_le
    rw [pages, length_map, Slots.length_toList] at hlen
    rw [h.pmap_maxPages]
    omega
  refine ⟨{ m with
    ptable := { m.ptable with page := pages' }
    pmap := { m.pmap with entries := m.pmap.entries.push ⟨p.data, p⟩ }
    vleakSize := m.vleakSize + 1 }, p.data, ?_, ?_⟩
  · rw [h.npages_eq, allocateFresh, h.maxPages, if_neg (by omega), mod_eq_of_lt (by omega), ← hp]
    simp [hresize, TLB.set, hfind, if_pos hslots]
  · have hpages : (m.pmap.entries.push ⟨p.data, p⟩).toList.map PageEntry.page = m.pages ++ [p] := by
      rw [toList_push, map_append]
      rfl
    refine
      { memoryPool := h.memoryPool
        pageSizeBytes := h.pageSizeBytes
        pageSize_pos := h.pageSize_pos
        maxPages := h.maxPages
        pmap_maxPages := h.pmap_maxPages
        freeMap_maxEntries := h.freeMap_maxEntries
        tiles := ?_
        num_le := hnum' ▸ hroom
        small := fun _ => hsmall
        addr_eq := ?_
        data_eq := ?_
        split := ?_
        held := ?_
        free_mem := ?_
        freed_mem := fun ptr hptr => h.freed_mem ptr (mem_of_mem_filter hptr) }
    · rw [pages, hpages]
      have := h.tiles.concat hbegin (hnum ▸ hpos')
      rwa [hnum, ← hnum'] at this
    · rw [toList_push]
      exact forall_mem_append.mpr ⟨h.addr_eq, forall_mem_singleton.mpr rfl⟩
    · rw [pages, hpages]
      exact forall_mem_append.mpr ⟨h.data_eq, forall_mem_singleton.mpr (by rw [hdata, hbegin])⟩
    · rw [pages, hpages, map_append]
      exact (perm_append_comm).trans (h.split.cons p.data)
    · intro b hb
      rw [pages, hpages]
      rcases mem_cons.mp hb with rfl | hb
      · refine ⟨p, mem_append_right _ mem_cons_self, rfl, ?_⟩
        by_contra hlt
        have := (lt_npages_iff h.pageSize_pos hcount).mpr (not_le.mp hlt)
        omega
      · obtain ⟨p', hp', hheld⟩ := h.held b hb
        exact ⟨p', mem_append_left _ hp', hheld⟩
    · intro e he
      rw [pages, hpages]
      exact ⟨mem_append_left _ (h.free_mem e he).1, (h.free_mem e he).2⟩

/-- What a request for memory does: it hands out a block, or there is no room for it. -/
theorem allocate_cases (hpos : 0 < numBytes) (hcount : m₀.Countable numBytes) :
    (∃ m' ptr, m.allocate numBytes = some (m', .noError ptr) ∧
      Sound m₀ m' (⟨ptr, numBytes⟩ :: live) (freed.filter (· ≠ ptr))) ∨
    (m.allocate numBytes = some (m, .noMemory) ∧
      (∀ e ∈ m.freeMap.entries.toList, e.index < m₀.npages numBytes) ∧
      m₀.ptable.maxPages < m.ptable.page.num + m₀.npages numBytes) := by
  have hcount' := hcount.2
  have hnum := h.num_le
  have hmod : m.npages numBytes % 2 ^ 32 = m₀.npages numBytes := by
    rw [h.npages_eq, mod_eq_of_lt (by omega)]
  cases hit : m.freeMap.lowerBound (m.npages numBytes % 2 ^ 32) with
  | some it =>
    refine Or.inl ⟨_, _, ?_, h.reuse hit hcount⟩
    simp only [allocate, hit]
  | none =>
    have hall : m.allocate numBytes = m.allocateFresh (m.npages numBytes) := by
      simp only [allocate, hit]
    by_cases hroom : m.ptable.page.num + m₀.npages numBytes ≤ m₀.ptable.maxPages
    · obtain ⟨m', ptr, hm', hsound⟩ := h.fresh hpos hcount hroom
      exact Or.inl ⟨m', ptr, hall.trans hm', hsound⟩
    · refine Or.inr ⟨?_, ?_, not_le.mp hroom⟩
      · rw [hall, allocateFresh, h.maxPages, h.npages_eq, if_pos]
        rw [mod_eq_of_lt (by omega)]
        exact not_le.mp hroom
      · intro e he
        rw [hmod] at hit
        have hnot := findSlot_eq_none hit he
        exact not_le.mp (of_decide_eq_false hnot)

end

/-- Freeing a block of the client makes its run free. -/
theorem free {l₁ l₂ : List Live} (h : Sound m₀ m (l₁ ++ b :: l₂) freed) :
    ∃ m', m.free b.ptr = some m' ∧ Sound m₀ m' (l₁ ++ l₂) (b.ptr :: freed) := by
  obtain ⟨p, hp, hdata, -⟩ := h.held b (mem_append_right _ mem_cons_self)
  obtain ⟨i, hi, hpage⟩ := h.find_data hp
  have hsmall := h.numPages_lt hp
  have hpos := (h.tiles.mem hp).2.1
  have hne : m.pmap.entries.num ≠ 0 := by
    intro hzero
    have hlen := length_pos_of_mem hp
    rw [pages, length_map, Slots.length_toList] at hlen
    omega
  have hslots : m.freeMap.entries.num + 1 ≤ m.freeMap.maxEntries := by
    have hlen := h.split.length_eq
    have hle := h.tiles.length_le
    have hnum := h.num_le
    simp only [length_map, length_append, length_cons, freePages, Slots.length_toList] at hlen
    rw [h.freeMap_maxEntries]
    omega
  refine ⟨{ m with
    freeMap := { m.freeMap with entries := m.freeMap.entries.push ⟨p.numPages, p⟩ }
    vleakSize := m.vleakSize - 1 }, ?_, ?_⟩
  · rw [MemoryManager.free, if_neg hne, ← hdata, hi]
    simp only [hpage, mod_eq_of_lt hsmall, MultiMap.insert, if_pos hslots,
      if_neg (ne_of_gt hpos), some_bind_eq]
  · have hfree : ((m.freeMap.entries.push ⟨p.numPages, p⟩).toList.map IndexedEntry.page).map
        Page.data = m.freePages.map Page.data ++ [b.ptr] := by
      rw [toList_push, map_append, map_append, ← hdata]
      rfl
    refine { h with split := ?_, held := ?_, free_mem := ?_, freed_mem := ?_ }
    · -- the run moves from those that are held to the end of the free ones
      have hmove : ((l₁ ++ b :: l₂).map Live.ptr ++ m.freePages.map Page.data).Perm
          ((l₁ ++ l₂).map Live.ptr ++ (m.freePages.map Page.data ++ [b.ptr])) := by
        simp only [map_append, map_cons, append_assoc, cons_append]
        refine Perm.append_left _ ?_
        rw [← append_assoc]
        exact (perm_append_singleton _ _).symm
      rw [← hfree] at hmove
      exact h.split.trans hmove
    · intro b' hb'
      apply h.held
      rw [mem_append, mem_cons]
      rcases mem_append.mp hb' with hb' | hb'
      · exact .inl hb'
      · exact .inr (.inr hb')
    · rw [toList_push]
      exact forall_mem_append.mpr ⟨h.free_mem, forall_mem_singleton.mpr ⟨hp, rfl⟩⟩
    · rw [freePages, hfree]
      exact forall_mem_cons.mpr ⟨mem_append_right _ mem_cons_self,
        fun ptr hptr => mem_append_left _ (h.freed_mem ptr hptr)⟩

/-! ## What a client sees -/

variable (h : Sound m₀ m live freed)
include h

/-- A block of the client starts at a page, lies in the page area and is large enough. -/
theorem block_inside (hb : b ∈ live) :
    (∃ k, b.ptr = m₀.ptable.memoryPool + k * m₀.ptable.pageSizeBytes) ∧
      b.ptr + m.blockBytes b.ptr ≤
        m₀.ptable.memoryPool + m₀.ptable.maxPages * m₀.ptable.pageSizeBytes ∧
      b.numBytes ≤ m.blockBytes b.ptr := by
  obtain ⟨p, hp, hdata, hbytes, hlarge⟩ := h.exists_page hb
  have hptr := h.data_eq p hp
  rw [hdata] at hptr
  refine ⟨⟨p.ptableBegin, hptr⟩, ?_, hbytes ▸ hlarge⟩
  have hend : p.ptableBegin + p.numPages ≤ m₀.ptable.maxPages := (h.tiles.mem hp).2.2.trans h.num_le
  calc b.ptr + m.blockBytes b.ptr
      = m₀.ptable.memoryPool + (p.ptableBegin + p.numPages) * m₀.ptable.pageSizeBytes := by
        rw [hbytes, hptr, Nat.add_mul, add_assoc]
    _ ≤ m₀.ptable.memoryPool + m₀.ptable.maxPages * m₀.ptable.pageSizeBytes :=
        Nat.add_le_add_left (mul_le_mul_right _ hend) _

/-- Runs that lie apart in the page table lie apart in memory. -/
theorem apart (hp : p ∈ m.pages) (hp' : p' ∈ m.pages)
    (hle : p.ptableBegin + p.numPages ≤ p'.ptableBegin) :
    p.data + m.blockBytes p.data ≤ p'.data := by
  rw [h.blockBytes_eq hp, h.data_eq p hp, h.data_eq p' hp', add_assoc, ← Nat.add_mul]
  exact Nat.add_le_add_left (mul_le_mul_right _ hle) _

/-- The blocks of the client do not overlap. -/
theorem blocks_disjoint : live.Pairwise fun a b => a.ptr + m.blockBytes a.ptr ≤ b.ptr ∨
      b.ptr + m.blockBytes b.ptr ≤ a.ptr := by
  have hnodup : (live.map Live.ptr).Nodup := (nodup_append.mp (h.split.nodup_iff.mp h.nodup_data)).1
  rw [Nodup, pairwise_map] at hnodup
  apply hnodup.imp_of_mem
  intro a b ha hb hne
  obtain ⟨p, hp, hdata, -⟩ := h.exists_page ha
  obtain ⟨p', hp', hdata', -⟩ := h.exists_page hb
  rw [← hdata, ← hdata'] at hne ⊢
  have hpp : p ≠ p' := fun heq => hne (congrArg Page.data heq)
  rcases h.tiles.disjoint hp hp' hpp with hle | hle
  · exact .inl (h.apart hp hp' hle)
  · exact .inr (h.apart hp' hp hle)

/-- A request is answered, with no memory only if there is no room for it. -/
theorem exists_allocate (hpos : 0 < numBytes) (hcount : m₀.Countable numBytes) :
    ∃ m' r, m.allocate numBytes = some (m', r) ∧ (r = .noMemory →
      (∀ ptr ∈ freed, m.blockBytes ptr < numBytes) ∧
      (m₀.ptable.maxPages - m.ptable.page.num) * m₀.ptable.pageSizeBytes < numBytes) := by
  rcases h.allocate_cases hpos hcount with ⟨m', ptr, hm', -⟩ | ⟨hm', hfree, hfresh⟩
  · exact ⟨m', _, hm', fun hr => absurd hr AllocResult.noConfusion⟩
  · refine ⟨m, _, hm', fun _ => ⟨fun ptr hptr => ?_, ?_⟩⟩
    · obtain ⟨p, hp, rfl⟩ := mem_map.mp (h.freed_mem ptr hptr)
      obtain ⟨e, he, rfl⟩ := mem_map.mp hp
      obtain ⟨hpage, hindex⟩ := h.free_mem e he
      rw [h.blockBytes_eq hpage]
      exact (lt_npages_iff h.pageSize_pos hcount).mp (hindex ▸ hfree e he)
    · have hpages : 0 < m₀.npages numBytes :=
        (lt_npages_iff h.pageSize_pos hcount).mpr (by rwa [Nat.zero_mul])
      exact (lt_npages_iff h.pageSize_pos hcount).mp (by omega)

theorem exists_free (hb : b ∈ live) : ∃ m', m.free b.ptr = some m' := by
  obtain ⟨l₁, l₂, rfl⟩ := append_of_mem hb
  obtain ⟨m', hm', -⟩ := h.free
  exact ⟨m', hm'⟩

end Sound

end MemoryManager

open MemoryManager

/-- Requests keep the tables consistent. -/
theorem Reachable.sound {m₀ m : MemoryManager} {live : List Live} {freed : List ℕ}
    (h₀ : Sound m₀ m₀ [] []) (h : Reachable m₀ m live freed) : Sound m₀ m live freed := by
  induction h with
  | start => exact h₀
  | allocate _ hpos hcount hstep ih =>
    rcases ih.allocate_cases hpos hcount with ⟨m', ptr, hm', hsound⟩ | ⟨hm', -⟩
    · rw [hstep, some.injEq, Prod.mk.injEq, AllocResult.noError.injEq] at hm'
      obtain ⟨rfl, rfl⟩ := hm'
      exact hsound
    · rw [hstep, some.injEq, Prod.mk.injEq] at hm'
      exact absurd hm'.2 AllocResult.noConfusion
  | noMemory _ hpos hcount hstep ih =>
    rcases ih.allocate_cases hpos hcount with ⟨m', ptr, hm', -⟩ | ⟨hm', -⟩
    · rw [hstep, some.injEq, Prod.mk.injEq] at hm'
      exact absurd hm'.2 AllocResult.noConfusion
    · rw [hstep, some.injEq, Prod.mk.injEq] at hm'
      exact hm'.1 ▸ ih
  | free _ hstep ih =>
    obtain ⟨m', hm', hsound⟩ := ih.free
    rw [hstep] at hm'
    exact some.inj hm' ▸ hsound

/-- **The page allocator.**  In every state that requests lead to, the blocks of the client start
at pages of the pool, lie in its page area, are as large as was asked for and do not overlap.  A
request is answered, with no memory only if no block that was freed is large enough and neither are
the pages never handed out; and every block of the client can be freed. -/
theorem reachable_safe (memoryPool poolSize : ℕ) (log2 : Fin 31) {m : MemoryManager} {live : List Live}
    {freed : List ℕ} (h : Reachable (create memoryPool poolSize log2) m live freed) :
    (∀ b ∈ live, (∃ k, b.ptr = memoryPool + k * 2 ^ (log2 : ℕ)) ∧
      b.ptr + m.blockBytes b.ptr ≤
        memoryPool + (create memoryPool poolSize log2).ptable.maxPages * 2 ^ (log2 : ℕ) ∧
      b.numBytes ≤ m.blockBytes b.ptr) ∧
    (live.Pairwise fun a b => a.ptr + m.blockBytes a.ptr ≤ b.ptr ∨
      b.ptr + m.blockBytes b.ptr ≤ a.ptr) ∧
    (∀ numBytes, 0 < numBytes → (create memoryPool poolSize log2).Countable numBytes →
      ∃ m' r, m.allocate numBytes = some (m', r) ∧ (r = .noMemory →
        (∀ ptr ∈ freed, m.blockBytes ptr < numBytes) ∧
        ((create memoryPool poolSize log2).ptable.maxPages - m.ptable.page.num) * 2 ^ (log2 : ℕ) <
          numBytes)) ∧
    (∀ b ∈ live, ∃ m', m.free b.ptr = some m') := by
  have hs := h.sound (sound_create memoryPool poolSize log2)
  exact ⟨fun b hb => hs.block_inside hb, hs.blocks_disjoint,
    fun numBytes hpos hcount => hs.exists_allocate hpos hcount, fun b hb => hs.exists_free hb⟩

theorem reachable_safe_two : ∃ m, Reachable (create 0 8192 8) m [⟨512, 100⟩, ⟨0, 300⟩] [] ∧
      ([⟨512, 100⟩, ⟨0, 300⟩] : List Live).Pairwise fun a b =>
        a.ptr + m.blockBytes a.ptr ≤ b.ptr ∨ b.ptr + m.blockBytes b.ptr ≤ a.ptr := by
  obtain ⟨m₁, m₂, hm₁, hm₂⟩ : ∃ m₁ m₂, (create 0 8192 8).allocate 300 = some (m₁, .noError 0) ∧
      m₁.allocate 100 = some (m₂, .noError 512) := ⟨_, _, rfl, rfl⟩
  have h₁ := Reachable.start.allocate (by decide) ⟨by decide, by decide⟩ hm₁
  have h₂ := h₁.allocate (by decide) ⟨by decide, by decide⟩ hm₂
  exact ⟨m₂, h₂, (reachable_safe 0 8192 8 h₂).2.1⟩

/-- A request for all bytes that a `size_t` counts is rounded up to no pages at all and answered;
the next request is given the same address. -/
theorem allocate_wraps_around :
    ∃ m₁ m₂, (create 0 8192 8).allocate (2 ^ 64 - 1) = some (m₁, .noError 0) ∧
      m₁.blockBytes 0 = 0 ∧ m₁.allocate 1 = some (m₂, .noError 0) :=
  ⟨_, _, rfl, rfl, rfl⟩

/-! ## The free list -/

namespace MemoryManager

theorem Sound.notMem_live (h : Sound m₀ m live freed) (hptr : ptr ∈ m.freePages.map Page.data) :
    ptr ∉ live.map Live.ptr :=
  fun hlive => (nodup_append.mp (h.split.nodup_iff.mp h.nodup_data)).2.2 _ hlive _ hptr rfl

/-- A block that is handed out is counted, and no run becomes free. -/
theorem allocate_effect (h : m.allocate numBytes = some (m', .noError ptr)) :
    m'.vleakSize = m.vleakSize + 1 ∧ m'.freePages ⊆ m.freePages := by
  rw [allocate] at h
  split at h
  · rename_i it hit
    cases h
    have hperm := perm_erase (findSlot_eq_some hit).1
    exact ⟨rfl, map_subset _ fun e he => hperm.mem_iff.mpr (mem_cons_of_mem _ he)⟩
  · rw [allocateFresh] at h
    split_ifs at h
    · cases h
    obtain ⟨_, -, _, -, h⟩ := bind₂_eq_some.mp h
    cases h
    exact ⟨rfl, Subset.refl _⟩

theorem free_effect (h : m.free ptr = some m') :
    m'.vleakSize = m.vleakSize - 1 ∧ m'.pages = m.pages := by
  rw [free] at h
  split_ifs at h
  split at h
  · cases h
  · obtain ⟨freeMap, -, h⟩ := bind_eq_some_iff.mp h
    cases h
    exact ⟨rfl, rfl⟩

end MemoryManager

/-- The count of blocks and the free list follow the client's requests. -/
theorem Reachable.accounted {m₀ m : MemoryManager} {live : List Live} {freed : List ℕ}
    (h₀ : Sound m₀ m₀ [] []) (hleak : m₀.vleakSize = 0) (hfree : m₀.freePages = [])
    (h : Reachable m₀ m live freed) :
    m.vleakSize = live.length ∧ freed.Nodup ∧ m.freePages.map Page.data ⊆ freed := by
  induction h with
  | start => simp [hleak, hfree]
  | allocate hr hpos hcount hstep ih =>
    obtain ⟨hcounted, hnodup, hsub⟩ := ih
    obtain ⟨hcounted', hfree'⟩ := allocate_effect hstep
    have hs := (hr.allocate hpos hcount hstep).sound h₀
    refine ⟨by rw [hcounted', hcounted]; rfl, hnodup.filter _, fun a ha => ?_⟩
    have hne := ne_of_not_mem_cons (hs.notMem_live ha)
    exact mem_filter.mpr ⟨hsub (map_subset _ hfree' ha), decide_eq_true hne⟩
  | noMemory hr hpos hcount hstep ih =>
    rcases (hr.sound h₀).allocate_cases hpos hcount with ⟨m', ptr, hm', -⟩ | ⟨hm', -⟩
    · cases hstep.symm.trans hm'
    · cases hstep.symm.trans hm'
      exact ih
  | @free m m' l₁ l₂ freed b hr hstep ih =>
    obtain ⟨hcounted, hnodup, hsub⟩ := ih
    obtain ⟨hcounted', hpages⟩ := free_effect hstep
    have hs := hr.sound h₀
    have hs' := (hr.free hstep).sound h₀
    refine ⟨?_, nodup_cons.mpr ⟨fun hb => ?_, hnodup⟩, fun a ha => ?_⟩
    · rw [hcounted', hcounted]
      simp only [length_append, length_cons]
      omega
    · exact hs.notMem_live (hs.freed_mem _ hb) (by simp)
    · -- a free run was free before, or it is the one of the block given back
      have hmem := hs'.split.mem_iff.mpr (mem_append_right _ ha)
      rw [hpages, hs.split.mem_iff, mem_append] at hmem
      rcases hmem with hlive | hfree'
      · have hnot := hs'.notMem_live ha
        simp only [map_append, map_cons, mem_append, mem_cons] at hlive hnot ⊢
        tauto
      · exact mem_cons_of_mem _ (hsub hfree')

/-- **The free list.**  In every state that requests for at least one byte lead to, it holds the
blocks that were freed and not handed out again, each once and as the run of pages it is; none of
them overlaps a block of the client, and the blocks of the client are counted. -/
theorem reachable_freeList (memoryPool poolSize : ℕ) (log2 : Fin 31) {m : MemoryManager} {live : List Live}
    {freed : List ℕ} (h : Reachable (create memoryPool poolSize log2) m live freed) :
    freed.Nodup ∧ (m.freePages.map Page.data).Perm freed ∧
    (∀ e ∈ m.freeMap.entries.toList, e.page ∈ m.pages ∧ e.index = e.page.numPages ∧
      e.page.data = memoryPool + e.page.ptableBegin * 2 ^ (log2 : ℕ) ∧
      ∀ b ∈ live, e.page.data + e.index * 2 ^ (log2 : ℕ) ≤ b.ptr ∨
        b.ptr + m.blockBytes b.ptr ≤ e.page.data) ∧
    m.vleakSize = live.length := by
  have h₀ := sound_create memoryPool poolSize log2
  have hs := h.sound h₀
  obtain ⟨hcounted, hnodup, hsub⟩ := h.accounted h₀ rfl rfl
  have hfree := (nodup_append.mp (hs.split.nodup_iff.mp hs.nodup_data)).2.1
  refine ⟨hnodup, (perm_ext_iff_of_nodup hfree hnodup).mpr fun a =>
    ⟨fun ha => hsub ha, hs.freed_mem a⟩, fun e he => ?_, hcounted⟩
  obtain ⟨hpage, hindex⟩ := hs.free_mem e he
  refine ⟨hpage, hindex, hs.data_eq _ hpage, fun b hb => ?_⟩
  obtain ⟨p, hp, hdata, hbytes, -⟩ := hs.exists_page hb
  have hne : e.page ≠ p := by
    intro heq
    refine hs.notMem_live (mem_map_of_mem (mem_map_of_mem he)) ?_
    rw [heq, hdata]
    exact mem_map_of_mem hb
  have hblock := hs.blockBytes_eq hpage
  rw [hindex, ← hdata]
  rcases hs.tiles.disjoint hpage hp hne with hle | hle
  · exact .inl (hblock ▸ hs.apart hpage hp hle)
  · exact .inr (hs.apart hp hpage hle)

/-- Three blocks, of which the first is given back and taken again by a smaller request, and the
second is given back. -/
theorem reachable_reused : ∃ m, Reachable (create 0 8192 8) m [⟨0, 200⟩, ⟨768, 256⟩] [512] := by
  obtain ⟨m₁, m₂, m₃, m₄, m₅, m₆, hm₁, hm₂, hm₃, hm₄, hm₅, hm₆⟩ : ∃ m₁ m₂ m₃ m₄ m₅ m₆,
      (create 0 8192 8).allocate 300 = some (m₁, .noError 0) ∧
      m₁.allocate 1 = some (m₂, .noError 512) ∧ m₂.allocate 256 = some (m₃, .noError 768) ∧
      m₃.free 0 = some m₄ ∧ m₄.allocate 200 = some (m₅, .noError 0) ∧ m₅.free 512 = some m₆ :=
    ⟨_, _, _, _, _, _, rfl, rfl, rfl, rfl, rfl, rfl⟩
  have h₁ := Reachable.start.allocate (by decide) ⟨by decide, by decide⟩ hm₁
  have h₂ := h₁.allocate (by decide) ⟨by decide, by decide⟩ hm₂
  have h₃ := h₂.allocate (by decide) ⟨by decide, by decide⟩ hm₃
  have h₄ : Reachable (create 0 8192 8) m₄ ([⟨768, 256⟩, ⟨512, 1⟩] ++ []) [0] :=
    .free (b := ⟨0, 300⟩) h₃ hm₄
  have h₅ := h₄.allocate (by decide) ⟨by decide, by decide⟩ hm₅
  have h₆ : Reachable (create 0 8192 8) m₆ ([⟨0, 200⟩, ⟨768, 256⟩] ++ []) [512] :=
    .free (b := ⟨512, 1⟩) h₅ hm₆
  exact ⟨m₆, h₆⟩

theorem reachable_freeList_reused :
    ∃ m, Reachable (create 0 8192 8) m [⟨0, 200⟩, ⟨768, 256⟩] [512] ∧
      (m.freePages.map Page.data).Perm [512] ∧ m.vleakSize = 2 := by
  obtain ⟨m, h⟩ := reachable_reused
  have hlist := reachable_freeList 0 8192 8 h
  exact ⟨m, h, hlist.2.1, hlist.2.2.2⟩

/-- Two blocks share an address after a request for no bytes; giving back the empty one makes the
page of the other free. -/
theorem free_zero_bytes :
    ∃ m₁ m₂ m₃, (create 0 8192 8).allocate 0 = some (m₁, .noError 0) ∧
      m₁.allocate 1 = some (m₂, .noError 0) ∧ m₂.free 0 = some m₃ ∧
      m₃.freePages = [⟨0, 1, 0⟩] ∧ m₃.vleakSize = 1 :=
  ⟨_, _, _, rfl, rfl, rfl, rfl, rfl⟩

end Pruner.Runtime.Crt
