import Pruner.Support.RingBuffer

/-!
# The ring buffer is a queue

As long as every growth has room for the bytes that wrap around, the calls of a ring buffer never
leave the vector, and the bytes come out in the order in which they went in.  A growth by a fifth
that has to move more than it adds copies past the end of the new vector.  A send through a callback
that accepts a part of the bytes leaves the head where it is, and the next one starts from there.

## Main definitions

* `RingBuffer.Holds b q` — the bytes of the queue `q` lie in the buffer, from its head on.
* `read_spec`, `reserve_spec`, `write_spec`, `writeWithCallback_spec` — the calls on the queue.
* `step_spec`, `step_eq_none` — one call, where its growth fits and where it does not.
* `runRing_fifo` — every sequence of calls.
* `Streams`, `streams_fifo` — histories of writes and sends.
-/

namespace Pruner.Support

open Pruner.Lib List Option

namespace RingBuffer

variable {b b' : RingBuffer} {q : List UInt8} {n : ℕ}

/-- The bytes of the queue lie in the buffer, from its head on. -/
structure Holds (b : RingBuffer) (q : List UInt8) : Prop where
  onRing : OnRing b.ring b.headPtr q
  length_eq : b.bytesAvailable = q.length

def shape (b : RingBuffer) : RingShape := ⟨b.capacity, b.headPtr, b.bytesAvailable⟩

@[simp] theorem shape_capacity (b : RingBuffer) : b.shape.capacity = b.capacity := rfl
@[simp] theorem shape_head (b : RingBuffer) : b.shape.head = b.headPtr := rfl
@[simp] theorem shape_length (b : RingBuffer) : b.shape.length = b.bytesAvailable := rfl

theorem kInitCapacity_pos : 0 < kInitCapacity := by decide

theorem shape_init : init.shape = RingShape.init := by
  simp [shape, init, capacity, RingShape.init]

/-- A new buffer is empty. -/
theorem holds_init : init.Holds [] where
  onRing := OnRing.nil (by
    rw [init, length_replicate]
    exact kInitCapacity_pos)
  length_eq := rfl

/-! ## Reading -/

/-- The copies of a read are the front of the queue. -/
theorem copyOut_spec (h : b.Holds q) (hn : n ≤ q.length) : b.copyOut n = some (q.take n) := by
  have hhead := h.onRing.head_lt
  have hfits := h.onRing.fits
  rw [← h.onRing.take_eq hn rfl]
  simp only [copyOut, capacity]
  rw [slice_eq_some (by omega), bind_some]
  split_ifs with hlt
  · rw [slice_eq_some (by omega), map_some, drop_zero]
  · rw [Nat.sub_eq_zero_of_le (Nat.not_lt.mp hlt), take_zero, append_nil]

theorem read_spec (h : b.Holds q) (hn : n ≤ q.length) :
    ∃ b', b.read n = some (b', q.take n) ∧ b'.Holds (q.drop n) ∧ b'.ring = b.ring ∧
      b'.shape = ⟨b.capacity, (b.headPtr + n) % b.capacity, b.bytesAvailable - n⟩ := by
  refine ⟨{ b with
    headPtr := (b.headPtr + n) % b.capacity, bytesAvailable := b.bytesAvailable - n }, ?_,
    ⟨h.onRing.drop n, ?_⟩, rfl, rfl⟩
  · rw [read, if_pos (h.length_eq ▸ hn), copyOut_spec h hn]
    rfl
  · rw [length_drop, h.length_eq]

/-! ## Room -/

/-- Growing keeps the queue, where what wraps around has room behind the old end. -/
theorem grow_spec (h : b.Holds q) (hn : b.capacity < n) (hfit : GrowthFits b.shape n) :
    ∃ b', b.grow n = some b' ∧ b'.Holds q ∧
      b'.shape = ⟨grownSize n, b.headPtr, b.bytesAvailable⟩ := by
  have hhead := h.onRing.head_lt
  have hfits := h.onRing.fits
  have hlt : b.ring.length < n := hn
  have hsize : n ≤ grownSize n := by
    rw [grownSize]
    omega
  have hkeep : ∀ i, i < b.ring.length → (resize b.ring (grownSize n) 0)[i]? = b.ring[i]? :=
    fun i hi => getElem?_resize 0 hi (by omega)
  by_cases hwrap : b.capacity < b.headPtr + b.bytesAvailable
  · have hroom : b.headPtr + q.length ≤ grownSize n := h.length_eq ▸ hfit hn hwrap
    have hwrap' : b.ring.length < b.headPtr + q.length := h.length_eq ▸ hwrap
    -- the part that wraps around, as it is copied behind the old end
    obtain ⟨k, hk⟩ : ∃ k, k = b.headPtr + q.length - b.ring.length := ⟨_, rfl⟩
    have hslice : slice (resize b.ring (grownSize n) 0) 0 k =
        some ((resize b.ring (grownSize n) 0).take k) :=
      slice_eq_some (by rw [length_resize]; omega)
    have hlen : ((resize b.ring (grownSize n) 0).take k).length = k := by
      rw [length_take, length_resize]
      omega
    obtain ⟨ring', hring', hlen', hin, hout⟩ := exists_overwrite
      (show b.ring.length + ((resize b.ring (grownSize n) 0).take k).length ≤
        (resize b.ring (grownSize n) 0).length by rw [length_resize]; omega)
    rw [length_resize] at hlen'
    refine ⟨{ b with ring := ring' }, ?_, ⟨?_, h.length_eq⟩, ?_⟩
    · rw [grow, if_pos hwrap, h.length_eq, capacity, ← hk, hslice]
      simp [hring']
    · apply h.onRing.unwrap hk (show b.ring.length + k ≤ ring'.length by omega) hwrap'
      · intro i hi
        rw [hout i (.inl hi), hkeep i hi]
      · intro i hi
        rw [hin i (by omega), getElem?_take_of_lt hi, hkeep i (by omega)]
    · simp [shape, capacity, hlen']
  · have hwrap' : b.headPtr + q.length ≤ b.ring.length := by
      rw [← h.length_eq]
      exact Nat.not_lt.mp hwrap
    refine ⟨{ b with ring := resize b.ring (grownSize n) 0 }, ?_, ⟨?_, h.length_eq⟩, ?_⟩
    · rw [grow, if_neg hwrap]
    · apply h.onRing.grow (by rw [length_resize]; omega) (by rw [length_resize]; omega) hwrap'
      intro i _ hi
      exact hkeep i (by omega)
    · simp [shape, capacity]

/-- Growing copies past the end, where what wraps around has no room behind the old end. -/
theorem grow_eq_none (hfit : ¬ GrowthFits b.shape n) : b.grow n = none := by
  simp only [GrowthFits, Classical.not_imp, shape_capacity, shape_head, shape_length] at hfit
  obtain ⟨-, hwrap, hroom⟩ := hfit
  rw [grow, if_pos hwrap]
  cases hslice : slice (resize b.ring (grownSize n) 0) 0
      (b.headPtr + b.bytesAvailable - b.capacity) with
  | none => rfl
  | some overflow =>
    rw [bind_eq_bind, bind_some, overwrite_eq_none]
    · rfl
    · have hlen := length_of_slice_eq_some hslice
      rw [length_resize]
      omega

theorem moveToHead_spec (h : b.Holds q) :
    ∃ b', b.moveToHead = some b' ∧ b'.capacity = b.capacity ∧ b'.bytesAvailable = q.length ∧
      (∀ i, i < q.length → b'.ring[i]? = q[i]?) := by
  by_cases hq : b.bytesAvailable = 0
  · refine ⟨b, if_pos hq, rfl, h.length_eq, ?_⟩
    intro i hi
    rw [← h.length_eq, hq] at hi
    exact absurd hi (Nat.not_lt_zero i)
  · obtain ⟨moved, hmoved, -, hring, -⟩ := read_spec h (Nat.le_refl q.length)
    obtain ⟨ring', hring', hlen, hin, -⟩ := exists_overwrite
      (show 0 + q.length ≤ b.ring.length by have := h.onRing.fits; omega)
    refine ⟨{ moved with bytesAvailable := b.bytesAvailable, ring := ring' }, ?_, hlen,
      h.length_eq, ?_⟩
    · rw [moveToHead, if_neg hq, h.length_eq, hmoved]
      simp [hring, hring']
    · intro i hi
      have := hin i hi
      rwa [Nat.zero_add] at this

/-- Shrinking keeps the queue. -/
theorem shrink_spec (h : b.Holds q) (n : ℕ) : ∃ b', b.shrink n = some b' ∧ b'.Holds q ∧
      b'.shape = ⟨max (max kInitCapacity n) b.bytesAvailable, 0, b.bytesAvailable⟩ := by
  have hpos := kInitCapacity_pos
  obtain ⟨b₁, hb₁, hcap, havail, hfront⟩ := moveToHead_spec h
  have hfits : q.length ≤ b₁.capacity := hcap ▸ h.onRing.fits
  rw [capacity] at hfits
  refine ⟨{ b₁ with
    headPtr := 0, ring := resize b₁.ring (max (max kInitCapacity n) b₁.bytesAvailable) 0 },
    ?_, ⟨⟨?_, ?_, ?_⟩, havail⟩, ?_⟩
  · rw [shrink, hb₁]
    rfl
  · simp only [length_resize]
    omega
  · simp only [length_resize]
    omega
  · intro i hi
    simp only [length_resize, Nat.zero_add]
    rw [Nat.mod_eq_of_lt (by omega), getElem?_resize 0 (by omega) (by omega), hfront i hi]
  · simp [shape, capacity, havail, h.length_eq]

theorem reserve_spec (h : b.Holds q) (hfit : GrowthFits b.shape n) :
    ∃ b', b.reserve n = some b' ∧ b'.Holds q ∧ b'.shape = b.shape.reserve n ∧ n ≤ b'.capacity := by
  rw [reserve, RingShape.reserve, shape_capacity]
  split_ifs with hgrow hshrink
  · obtain ⟨b', hb', hh, hshape⟩ := grow_spec h hgrow hfit
    refine ⟨b', hb', hh, hshape, ?_⟩
    have hcap : b'.capacity = grownSize n := congrArg RingShape.capacity hshape
    rw [hcap, grownSize]
    omega
  · obtain ⟨b', hb', hh, hshape⟩ := shrink_spec h n
    refine ⟨b', hb', hh, hshape, ?_⟩
    have hcap := congrArg RingShape.capacity hshape
    simp only [shape_capacity] at hcap
    omega
  · exact ⟨b, rfl, h, rfl, Nat.not_lt.mp hgrow⟩

theorem reserve_eq_none (hfit : ¬ GrowthFits b.shape n) : b.reserve n = none := by
  have hgrow : b.capacity < n := (Classical.not_imp.mp hfit).1
  rw [reserve, if_pos hgrow, grow_eq_none hfit]

/-! ## Writing -/

variable {data : List UInt8} {op : RingOp}

section

variable (h : b.Holds q)
include h

/-- The copies of a write append to the queue. -/
theorem copyIn_spec (hroom : q.length + data.length ≤ b.capacity) :
    ∃ ring', b.copyIn data = some ring' ∧ ring'.length = b.ring.length ∧
      OnRing ring' b.headPtr (q ++ data) := by
  have hhead := h.onRing.head_lt
  have hfits := h.onRing.fits
  have hroom' : q.length + data.length ≤ b.ring.length := hroom
  simp only [copyIn, capacity, h.length_eq]
  by_cases hwrap : b.ring.length ≤ b.headPtr + q.length
  · rw [if_pos hwrap]
    apply h.onRing.push _ (by omega) hroom'
    rw [mod_eq_ite hhead hfits, if_neg (by omega)]
  · obtain ⟨ncopy, hncopy⟩ : ∃ k, k = min (b.ring.length - (b.headPtr + q.length)) data.length :=
      ⟨_, rfl⟩
    have hlen : (data.take ncopy).length = ncopy := by
      rw [length_take]
      omega
    obtain ⟨ring₁, hring₁, hlen₁, hq₁⟩ := h.onRing.push (d := data.take ncopy)
      (Nat.mod_eq_of_lt (by omega)).symm (by omega) (by omega)
    rw [if_neg hwrap, ← hncopy, hring₁, bind_some]
    by_cases hsplit : ncopy < data.length
    · have hpos : 0 = (b.headPtr + (q ++ data.take ncopy).length) % ring₁.length := by
        rw [length_append, hlen, hlen₁,
          show b.headPtr + (q.length + ncopy) = b.ring.length by omega, Nat.mod_self]
      have hpush := hq₁.push (d := data.drop ncopy) hpos
        (by rw [length_drop]; omega)
        (by rw [length_append, length_drop]; omega)
      rw [hlen₁, append_assoc, take_append_drop] at hpush
      rw [if_pos hsplit]
      exact hpush
    · rw [if_neg hsplit]
      rw [take_of_length_le (by omega)] at hq₁
      exact ⟨ring₁, rfl, hlen₁, hq₁⟩

/-- Writing appends to the queue, where a growth fits. -/
theorem write_spec (hfit : GrowthFits b.shape (b.bytesAvailable + data.length)) :
    ∃ b', b.write data = some b' ∧ b'.Holds (q ++ data) ∧
      b'.shape = b.shape.step (.write data) := by
  obtain ⟨b₁, hb₁, h₁, hshape, hroom⟩ := reserve_spec h hfit
  rw [h.length_eq] at hroom
  obtain ⟨ring', hring', hlen, hq⟩ := copyIn_spec h₁ hroom
  refine ⟨{ b₁ with ring := ring', bytesAvailable := b₁.bytesAvailable + data.length }, ?_,
    ⟨hq, ?_⟩, ?_⟩
  · rw [write, hb₁]
    simp [hring']
  · rw [length_append, h₁.length_eq]
  · rw [RingShape.step, shape_length, ← hshape, shape, shape, capacity, hlen]

/-- What a receive function delivers is appended to the queue. -/
theorem receive_spec (frecv : FRecv) (hroom : q.length + n ≤ b.capacity) :
    ∃ b' recv, b.receive frecv n = some (b', recv) ∧ b'.Holds (q ++ recv) ∧
      b'.shape = { b.shape with length := b.bytesAvailable + b.shape.received frecv n } ∧
      recv.length ≤ n ∧ ∃ k l, recv = frecv.first.take k ++ frecv.second.take l := by
  have hhead := h.onRing.head_lt
  have hfits := h.onRing.fits
  have hcap : b.capacity = b.ring.length := rfl
  have havail := h.length_eq
  by_cases hwrap : b.capacity ≤ b.headPtr + b.bytesAvailable
  · have hlen : (frecv.first.take n).length = min n frecv.first.length := length_take
    have hshape : b.shape.received frecv n = min n frecv.first.length := if_pos hwrap
    obtain ⟨ring', hring', hlen', hq⟩ := h.onRing.push (d := frecv.first.take n)
      (show b.headPtr + b.bytesAvailable - b.capacity = _ by
        rw [mod_eq_ite hhead hfits, if_neg (by omega), havail])
      (by omega) (by omega)
    refine ⟨{ b with
      ring := ring', bytesAvailable := b.bytesAvailable + (frecv.first.take n).length }, _, ?_,
      ⟨hq, ?_⟩, ?_, by omega, n, 0, (append_nil _).symm⟩
    · simp only [receive, if_pos hwrap, hring', map_some]
    · rw [length_append, havail]
    · rw [hshape, ← hlen, shape, shape, capacity, hlen']
  · obtain ⟨ncopy, hncopy⟩ : ∃ k, k = min (b.capacity - (b.headPtr + b.bytesAvailable)) n :=
      ⟨_, rfl⟩
    have hlen : (frecv.first.take ncopy).length = min ncopy frecv.first.length := length_take
    have hshape : b.shape.received frecv n = if ncopy ≤ frecv.first.length then
        ncopy + min (n - ncopy) frecv.second.length else frecv.first.length := by
      rw [hncopy]
      exact if_neg hwrap
    obtain ⟨ring₁, hring₁, hlen₁, hq₁⟩ := h.onRing.push (d := frecv.first.take ncopy)
      (show b.headPtr + b.bytesAvailable = _ by
        rw [havail, Nat.mod_eq_of_lt (by omega)])
      (by omega) (by omega)
    by_cases hsplit : (frecv.first.take ncopy).length = ncopy ∧ ncopy < n
    · have hpos : 0 = (b.headPtr + (q ++ frecv.first.take ncopy).length) % ring₁.length := by
        rw [length_append, hsplit.1, hlen₁,
          show b.headPtr + (q.length + ncopy) = b.ring.length by omega, Nat.mod_self]
      have hlen₂ : (frecv.second.take (n - ncopy)).length = min (n - ncopy) frecv.second.length :=
        length_take
      obtain ⟨ring', hring', hlen', hq⟩ := hq₁.push (d := frecv.second.take (n - ncopy)) hpos
        (by omega) (by rw [length_append]; omega)
      rw [append_assoc] at hq
      refine ⟨{ b with
        ring := ring', bytesAvailable := b.bytesAvailable + (frecv.first.take ncopy).length +
          (frecv.second.take (n - ncopy)).length }, _, ?_, ⟨hq, ?_⟩, ?_,
        by rw [length_append]; omega, ncopy, n - ncopy, rfl⟩
      · simp only [receive, if_neg hwrap, ← hncopy, hring₁, bind_some, if_pos hsplit,
          hring', map_some]
      · rw [length_append, length_append, havail, Nat.add_assoc]
      · rw [hshape, if_pos (by omega), hsplit.1, ← hlen₂, Nat.add_assoc, shape, shape, capacity,
          hlen', hlen₁]
    · refine ⟨{ b with
        ring := ring₁, bytesAvailable := b.bytesAvailable + (frecv.first.take ncopy).length }, _,
        ?_, ⟨hq₁, ?_⟩, ?_, by omega, ncopy, 0, (append_nil _).symm⟩
      · simp only [receive, if_neg hwrap, ← hncopy, hring₁, bind_some, if_neg hsplit]
      · rw [length_append, havail]
      · have hrecv : b.shape.received frecv n = (frecv.first.take ncopy).length := by
          rw [hshape]
          split_ifs <;> omega
        rw [hrecv, shape, shape, capacity, hlen₁]

/-- Writing through a callback appends what it received, where a growth fits. -/
theorem writeWithCallback_spec (frecv : FRecv) (hfit : GrowthFits b.shape (b.bytesAvailable + n)) :
    ∃ b' recv, b.writeWithCallback frecv n = some (b', recv) ∧ b'.Holds (q ++ recv) ∧
      b'.shape = b.shape.step (.writeWithCallback frecv n) ∧
      recv.length ≤ n ∧ ∃ k l, recv = frecv.first.take k ++ frecv.second.take l := by
  obtain ⟨b₁, hb₁, h₁, hshape, hroom⟩ := reserve_spec h hfit
  rw [h.length_eq] at hroom
  obtain ⟨b', recv, hb', hh, hshape', hrecv⟩ := receive_spec h₁ frecv hroom
  refine ⟨b', recv, ?_, hh, ?_, hrecv⟩
  · rw [writeWithCallback, hb₁]
    exact hb'
  · rw [hshape', RingShape.step, shape_length, ← hshape, shape_length]

/-! ## Sequences of calls -/

/-- A call whose growth fits keeps the queue: what it received is appended, and what it delivered
is taken from the front. -/
theorem step_spec
    (hread : op.readSize ≤ b.bytesAvailable) (hfit : GrowthFits b.shape (b.shape.request op)) :
    ∃ b' m q', b.step op = some (b', m) ∧ op.Moves m ∧ queueStep q m = some q' ∧ b'.Holds q' ∧
      b'.shape = b.shape.step op := by
  cases op with
  | write data =>
    obtain ⟨b', hb', hh, hshape⟩ := write_spec h hfit
    refine ⟨b', ⟨data, []⟩, q ++ data, ?_, ⟨rfl, rfl⟩, ?_, hh, hshape⟩
    · rw [step, hb']
      rfl
    · simp [queueStep]
  | writeWithCallback frecv n =>
    obtain ⟨b', recv, hb', hh, hshape, hlen, hfrom⟩ := writeWithCallback_spec h frecv hfit
    refine ⟨b', ⟨recv, []⟩, q ++ recv, ?_, ⟨hlen, rfl, hfrom⟩, ?_, hh, hshape⟩
    · rw [step, hb']
      rfl
    · simp [queueStep]
  | read size =>
    have hsize : size ≤ q.length := h.length_eq ▸ hread
    obtain ⟨b', hb', hh, -, hshape⟩ := read_spec h hsize
    refine ⟨b', ⟨[], q.take size⟩, q.drop size, ?_, ⟨rfl, ?_⟩, ?_, hh, hshape⟩
    · rw [step, hb']
      rfl
    · rw [length_take]
      omega
    · simp [queueStep, take_prefix, Nat.min_eq_left hsize]
  | reserve n =>
    obtain ⟨b', hb', hh, hshape, -⟩ := reserve_spec h hfit
    refine ⟨b', ⟨[], []⟩, q, ?_, ⟨rfl, rfl⟩, ?_, hh, hshape⟩
    · rw [step, show b.reserve n = some b' from hb']
      rfl
    · simp [queueStep]

end

/-- A call whose growth does not fit copies past the end of the ring. -/
theorem step_eq_none (hfit : ¬ GrowthFits b.shape (b.shape.request op)) :
    b.step op = none := by
  have hnone := reserve_eq_none hfit
  cases op with
  | write data =>
    rw [step, write, show b.reserve (b.bytesAvailable + data.length) = none from hnone]
    rfl
  | writeWithCallback frecv maxNbytes =>
    rw [step, writeWithCallback, show b.reserve (b.bytesAvailable + maxNbytes) = none from hnone]
    rfl
  | read size => exact absurd (fun hlt _ => absurd hlt (Nat.not_lt_zero _)) hfit
  | reserve n =>
    rw [step, show b.reserve n = none from hnone]
    rfl

end RingBuffer

open RingBuffer

theorem runRing_spec (ops : List RingOp) :
    ∀ {b : RingBuffer} {q : List UInt8}, b.Holds q → ReadsHeld b.shape ops →
      GrowthsFit b.shape ops →
      ∃ b' ms q', runRing b ops = some (b', ms) ∧ List.Forall₂ RingOp.Moves ops ms ∧
        ms.foldlM queueStep q = some q' ∧ b'.Holds q' := by
  induction ops with
  | nil =>
    intro b q h _ _
    exact ⟨b, [], q, rfl, Forall₂.nil, rfl, h⟩
  | cons op ops ih =>
    intro b q h hread hfit
    obtain ⟨b₁, m, q₁, hb₁, hm, hq₁, h₁, hshape⟩ := step_spec h hread.1 hfit.1
    obtain ⟨b', ms, q', hb', hms, hq', h'⟩ := ih h₁ (hshape ▸ hread.2) (hshape ▸ hfit.2)
    refine ⟨b', m :: ms, q', ?_, Forall₂.cons hm hms, ?_, h'⟩
    · simp [runRing, hb₁, hb']
    · rw [foldlM_cons, hq₁]
      exact hq'

theorem runRing_eq_none (ops : List RingOp) :
    ∀ {b : RingBuffer} {q : List UInt8}, b.Holds q → ReadsHeld b.shape ops →
      ¬ GrowthsFit b.shape ops → runRing b ops = none := by
  induction ops with
  | nil =>
    intro b q _ _ hfit
    exact absurd trivial hfit
  | cons op ops ih =>
    intro b q h hread hfit
    by_cases hstep : GrowthFits b.shape (b.shape.request op)
    · obtain ⟨b₁, m, q₁, hb₁, -, -, h₁, hshape⟩ := step_spec h hread.1 hstep
      have hnone := ih h₁ (hshape ▸ hread.2) (hshape ▸ fun hrest => hfit ⟨hstep, hrest⟩)
      simp [runRing, hb₁, hnone]
    · rw [runRing, step_eq_none hstep]
      rfl

/-- **The ring buffer is a queue of bytes** for every sequence of calls that never reads more than
is held, exactly when every growth has room for the bytes that wrap around: then no copy leaves the
ring, every call moves the bytes its caller names, and the bytes come out as from a queue. -/
theorem runRing_fifo (ops : List RingOp) (hread : ReadsHeld RingShape.init ops) :
    GrowthsFit RingShape.init ops ↔
      ∃ b ms q, runRing RingBuffer.init ops = some (b, ms) ∧ List.Forall₂ RingOp.Moves ops ms ∧
        ms.foldlM queueStep [] = some q ∧ b.bytesAvailable = q.length ∧
        OnRing b.ring b.headPtr q := by
  rw [← shape_init] at hread ⊢
  constructor
  · intro hfit
    obtain ⟨b, ms, q, hrun, hms, hq, h⟩ := runRing_spec ops holds_init hread hfit
    exact ⟨b, ms, q, hrun, hms, hq, h.length_eq, h.onRing⟩
  · rintro ⟨b, ms, q, hrun, -⟩
    by_contra hfit
    rw [runRing_eq_none ops holds_init hread hfit] at hrun
    cases hrun

/-- A growth that finds all the bytes before the end of the ring. -/
theorem runRing_fifo_unwrapped :
    ∃ b ms q, runRing RingBuffer.init [.write [1, 2], .read 1, .reserve 5000, .read 1] =
        some (b, ms) ∧
      List.Forall₂ RingOp.Moves [.write [1, 2], .read 1, .reserve 5000, .read 1] ms ∧
      ms.foldlM queueStep [] = some q ∧ b.bytesAvailable = q.length ∧
      OnRing b.ring b.headPtr q :=
  (runRing_fifo _ (by decide)).mp (by decide)

/-- A full buffer whose bytes start at the last place of the ring: one byte more makes it grow to
4916 bytes, and 4095 bytes are copied behind the first 4096. -/
def overflowingOps : List RingOp :=
  [.write (List.replicate 4096 0), .read 4095, .write (List.replicate 4095 0), .write [0]]

theorem runRing_overflow_none : ReadsHeld RingShape.init overflowingOps ∧
      runRing RingBuffer.init overflowingOps = none := by
  have hread : ReadsHeld RingShape.init overflowingOps := by decide +kernel
  have hfit : ¬ GrowthsFit RingShape.init overflowingOps := by decide +kernel
  refine ⟨hread, ?_⟩
  rw [← shape_init] at hread hfit
  exact runRing_eq_none _ holds_init hread hfit

/-! ## Sending through a callback -/

/-- A send gives the front of the queue away, and the buffer loses as many bytes at its end. -/
theorem readWithCallback_spec {b : RingBuffer} {q : List UInt8} {n : ℕ} (h : b.Holds q)
    (fsend : ℕ × ℕ) (hn : min n q.length ≠ 0) :
    ∃ b' k, b.readWithCallback fsend n = some (b', q.take k) ∧
      b'.Holds (q.take (q.length - (q.take k).length)) ∧
      k = min (if min (min n q.length) (b.capacity - b.headPtr) ≤ fsend.1 ∧
          min (min n q.length) (b.capacity - b.headPtr) < min n q.length then
        min (min n q.length) (b.capacity - b.headPtr) + fsend.2
        else min fsend.1 (min (min n q.length) (b.capacity - b.headPtr))) (min n q.length) := by
  have hout := copyOut_spec h (Nat.min_le_right n q.length)
  simp only [readWithCallback, h.length_eq, if_neg hn, hout, bind_eq_bind, bind_some, take_take]
  refine ⟨_, _, rfl, ⟨h.onRing.take _, ?_⟩, rfl⟩
  simp only [length_take]
  omega

/-- A send function accepts nothing, or the limit lets it have all the bytes held and it accepts
all that it is offered, before the end of the ring and at its front. -/
def RingBuffer.AllOrNothing (b : RingBuffer) (fsend : ℕ × ℕ) (n : ℕ) : Prop :=
  fsend.1 = 0 ∨ b.bytesAvailable ≤ n ∧
    min b.bytesAvailable (b.capacity - b.headPtr) ≤ fsend.1 ∧
    b.bytesAvailable - (b.capacity - b.headPtr) ≤ fsend.2

/-- Such a send cuts the queue where the bytes accepted end. -/
theorem readWithCallback_allOrNothing {b b' : RingBuffer} {q sent : List UInt8} {fsend : ℕ × ℕ}
    {n : ℕ} (h : b.Holds q) (hC : b.AllOrNothing fsend n)
    (hsend : b.readWithCallback fsend n = some (b', sent)) :
    ∃ rest, b'.Holds rest ∧ sent ++ rest = q := by
  have hn : min n q.length ≠ 0 := by
    intro hzero
    rw [readWithCallback, h.length_eq, if_pos hzero] at hsend
    cases hsend
  obtain ⟨b₁, k, hb₁, hq₁, hk⟩ := readWithCallback_spec h fsend hn
  cases hsend.symm.trans hb₁
  refine ⟨_, hq₁, ?_⟩
  have hhead := h.onRing.head_lt
  rw [AllOrNothing, h.length_eq] at hC
  have hcut : k = 0 ∨ q.length ≤ k := by
    rw [capacity] at hC hk
    rcases hC with hnone | ⟨hle, hfirst, hsecond⟩
    · exact .inl (by split_ifs at hk <;> omega)
    · exact .inr (by split_ifs at hk <;> omega)
  rcases hcut with hzero | hall
  · simp [hzero]
  · simp [take_of_length_le hall]

/-- Histories of writes that fit into the ring and of sends that accept all or nothing: the buffer,
the bytes written to it, and the bytes accepted. -/
inductive Streams : RingBuffer → List UInt8 → List UInt8 → Prop
  | start {b q} : b.Holds q → Streams b q []
  | write {b b' written accepted data} : Streams b written accepted →
      b.bytesAvailable + data.length ≤ b.capacity → b.write data = some b' →
      Streams b' (written ++ data) accepted
  | send {b b' written accepted sent fsend n} : Streams b written accepted →
      b.AllOrNothing fsend n → b.readWithCallback fsend n = some (b', sent) →
      Streams b' written (accepted ++ sent)

/-- **A stream of sends.**  As long as every send accepts either nothing or all the bytes held, the
bytes accepted are those written, in order, up to those still held; a write that fits succeeds, and
so does a send of at least one byte. -/
theorem streams_fifo {b : RingBuffer} {written accepted : List UInt8}
    (h : Streams b written accepted) :
    (∃ q, b.Holds q ∧ accepted ++ q = written) ∧
      (∀ data, b.bytesAvailable + data.length ≤ b.capacity → ∃ b', b.write data = some b') ∧
      ∀ fsend n, min n b.bytesAvailable ≠ 0 → ∃ r, b.readWithCallback fsend n = some r := by
  have hfit : ∀ {b : RingBuffer} {n}, n ≤ b.capacity → GrowthFits b.shape n :=
    fun hle hlt => absurd hlt (Nat.not_lt.mpr hle)
  have hqueue : ∃ q, b.Holds q ∧ accepted ++ q = written := by
    induction h with
    | start hq => exact ⟨_, hq, rfl⟩
    | write _ hroom hwrite ih =>
      obtain ⟨q, hq, rfl⟩ := ih
      obtain ⟨b₁, hb₁, hq₁, -⟩ := write_spec hq (hfit hroom)
      cases hwrite.symm.trans hb₁
      exact ⟨_, hq₁, (append_assoc _ _ _).symm⟩
    | send _ hC hsend ih =>
      obtain ⟨q, hq, rfl⟩ := ih
      obtain ⟨rest, hrest, rfl⟩ := readWithCallback_allOrNothing hq hC hsend
      exact ⟨rest, hrest, append_assoc _ _ _⟩
  obtain ⟨q, hq, heq⟩ := hqueue
  refine ⟨⟨q, hq, heq⟩, fun data hroom => ?_, fun fsend n hn => ?_⟩
  · obtain ⟨b₁, hb₁, -⟩ := write_spec hq (hfit hroom)
    exact ⟨b₁, hb₁⟩
  · obtain ⟨b₁, k, hb₁, -⟩ := readWithCallback_spec hq fsend (hq.length_eq ▸ hn)
    exact ⟨_, hb₁⟩

/-- A send that accepts nothing between two writes, and one that accepts all the bytes. -/
theorem streams_fifo_sends : ∃ b₁ b₂ b₃ b₄, RingBuffer.init.write [1, 2] = some b₁ ∧
    b₁.readWithCallback (0, 0) 2 = some (b₂, []) ∧ b₂.write [3] = some b₃ ∧
    b₃.readWithCallback (3, 0) 9 = some (b₄, [1, 2, 3]) ∧
    ∃ q, b₄.Holds q ∧ [1, 2, 3] ++ q = [1, 2, 3] := by
  have hrun : ((RingBuffer.init.write [1, 2]).bind fun b₁ =>
      (b₁.readWithCallback (0, 0) 2).bind fun r₂ => (r₂.1.write [3]).bind fun b₃ =>
      (b₃.readWithCallback (3, 0) 9).map fun r₄ => (r₂.2, r₄.2, [r₂.1.bytesAvailable,
        r₂.1.capacity, b₃.bytesAvailable, b₃.capacity, b₃.headPtr])) =
      some ([], [1, 2, 3], [2, kInitCapacity, 3, kInitCapacity, 0]) := by decide +kernel
  obtain ⟨b₁, h₁, hrun⟩ := bind_eq_some_iff.mp hrun
  obtain ⟨⟨b₂, sent⟩, h₂, hrun⟩ := bind_eq_some_iff.mp hrun
  obtain ⟨b₃, h₃, hrun⟩ := bind_eq_some_iff.mp hrun
  obtain ⟨⟨b₄, sent'⟩, h₄, hrun⟩ := map_eq_some_iff.mp hrun
  simp only [Prod.mk.injEq, cons.injEq, and_true] at hrun
  obtain ⟨rfl, rfl, hlen₂, hcap₂, hlen₃, hcap₃, hhead₃⟩ := hrun
  refine ⟨b₁, b₂, b₃, b₄, h₁, h₂, h₃, h₄, ?_⟩
  have hinit : init.bytesAvailable + [1, 2].length ≤ init.capacity := by
    rw [init, capacity, length_replicate]
    decide
  have hfirst := Streams.write (.start holds_init) hinit h₁
  have hsecond := (hfirst.send (.inl rfl) h₂).write (by rw [hlen₂, hcap₂]; decide) h₃
  refine (streams_fifo (hsecond.send (.inr ⟨?_, ?_, ?_⟩) h₄)).1
  · rw [hlen₃]
    decide
  · rw [hlen₃, hcap₃, hhead₃]
    decide
  · rw [hlen₃, hcap₃, hhead₃]
    decide

/-- Of two bytes written, two sends that accept one byte each are both given the first. -/
theorem readWithCallback_repeats :
    ((RingBuffer.init.write [1, 2]).bind fun b => (b.readWithCallback (1, 0) 1).bind fun r =>
      (r.1.readWithCallback (1, 0) 1).map fun r' => (r.2, r'.2)) = some ([1], [1]) := by
  decide +kernel

end Pruner.Support
