import Pruner.Lib.RingStore

/-!
# The ring buffer

The buffer of `support/ring_buffer.h`: a vector of bytes, the position of the first byte held, and
the number of bytes held.  `Reserve` grows the vector and shrinks it again, `Write` and
`WriteWithCallback` append, `Read` takes from the front, `ReadWithCallback` sends from it.  Every
`memcpy` is a block copy that fails outside the vector, and so does a failed `ICHECK`.

Where the buffer stands after a sequence of calls depends only on the numbers of bytes moved; a
`RingShape` follows them without the bytes.

## Main definitions

* `RingBuffer` — the fields of the class, with `reserve`, `read`, `readWithCallback`, `write`,
  `writeWithCallback`.
* `RingOp`, `RingBuffer.step`, `runRing` — sequences of calls, with the bytes that went in and out.
* `RingShape` — capacity, head and length, as the sizes of the calls determine them.
* `ReadsHeld`, `GrowthsFit` — no read asks for more than is held; no growth has to move more
  bytes than it makes room for.
-/

namespace Pruner.Support

open Pruner.Lib

def kInitCapacity : ℕ := 4 <<< 10

/-- The class `RingBuffer`. -/
structure RingBuffer where
  /-- `head_ptr_`, the buffer head. -/
  headPtr : ℕ
  /-- `bytes_available_`, the number of bytes occupied. -/
  bytesAvailable : ℕ
  /-- `ring_`, the internal data ring. -/
  ring : List UInt8
  deriving DecidableEq, Repr

variable (b : RingBuffer) (n : ℕ) (s : RingShape)

namespace RingBuffer

/-- The constructor. -/
def init : RingBuffer where
  headPtr := 0
  bytesAvailable := 0
  ring := List.replicate kInitCapacity 0

abbrev capacity : ℕ := b.ring.length

/-- The capacity that a growth to `n` bytes asks for, `n * 1.2` rounded down. -/
def grownSize : ℕ := n * 6 / 5

/-- The copies of `Read`: up to the end of the ring, and the rest from its front. -/
def copyOut (size : ℕ) : Option (List UInt8) :=
  let ncopy := min size (b.capacity - b.headPtr)
  (slice b.ring b.headPtr ncopy).bind fun data =>
    if ncopy < size then (slice b.ring 0 (size - ncopy)).map (data ++ ·) else some data

/-- `Read(data, size)`; the second component is what stands at `data` afterwards. -/
def read (size : ℕ) : Option (RingBuffer × List UInt8) :=
  if size ≤ b.bytesAvailable then do
    let data ← b.copyOut size
    some ({ b with
      headPtr := (b.headPtr + size) % b.capacity
      bytesAvailable := b.bytesAvailable - size }, data)
  else none

/-- `ReadWithCallback(fsend, max_nbytes)`, with the bytes accepted: `fsend` is how many of the bytes
offered the send function accepts at its first and at its second call.  What `Read` would copy is
offered, the part at the front of the ring only where all of the part before it was accepted;
`head_ptr_` is left where it is. -/
def readWithCallback (fsend : ℕ × ℕ) (maxNbytes : ℕ) : Option (RingBuffer × List UInt8) :=
  let size := min maxNbytes b.bytesAvailable
  if size = 0 then none
  else do
    let ncopy := min size (b.capacity - b.headPtr)
    let offered ← b.copyOut size
    let nsend := if ncopy ≤ fsend.1 ∧ ncopy < size then ncopy + fsend.2 else min fsend.1 ncopy
    let sent := offered.take nsend
    some ({ b with bytesAvailable := b.bytesAvailable - sent.length }, sent)

/-- The branch of `Reserve` that makes the ring larger. -/
def grow : Option RingBuffer := do
  let oldSize := b.capacity
  let ring := resize b.ring (grownSize n) 0
  if oldSize < b.headPtr + b.bytesAvailable then do
    -- copy the ring overflow part into the tail
    let overflow ← slice ring 0 (b.headPtr + b.bytesAvailable - oldSize)
    let ring ← overwrite ring oldSize overflow
    some { b with ring := ring }
  else some { b with ring := ring }

/-- Before the ring is made smaller, existing bytes are moved to its front. -/
def moveToHead : Option RingBuffer :=
  if b.bytesAvailable = 0 then some b
  else do
    let (moved, tmp) ← b.read b.bytesAvailable
    let ring ← overwrite moved.ring 0 tmp
    some { moved with bytesAvailable := b.bytesAvailable, ring := ring }

/-- The branch of `Reserve` that makes the ring smaller. -/
def shrink : Option RingBuffer := do
  let b ← b.moveToHead
  let newSize := max (max kInitCapacity n) b.bytesAvailable
  some { b with headPtr := 0, ring := resize b.ring newSize 0 }

/-- `Reserve(n)`. -/
def reserve : Option RingBuffer :=
  if b.capacity < n then b.grow n
  else if n * 8 < b.capacity ∧ kInitCapacity < b.capacity then b.shrink n
  else some b

/-- The copies of `Write`: where the bytes held wrap around, behind them; else up to the end of the
ring, and the rest at its front. -/
def copyIn (data : List UInt8) : Option (List UInt8) :=
  let tail := b.headPtr + b.bytesAvailable
  if b.capacity ≤ tail then overwrite b.ring (tail - b.capacity) data
  else
    let ncopy := min (b.capacity - tail) data.length
    (overwrite b.ring tail (data.take ncopy)).bind fun ring =>
      if ncopy < data.length then overwrite ring 0 (data.drop ncopy) else some ring

/-- `Write(data, size)`. -/
def write (data : List UInt8) : Option RingBuffer := do
  let b ← b.reserve (b.bytesAvailable + data.length)
  let ring ← b.copyIn data
  some { b with ring := ring, bytesAvailable := b.bytesAvailable + data.length }

/-- A non-blocking receive function during one call of `WriteWithCallback`: what it has to give at
its first and at its second call.  It never gives more than it is asked for. -/
structure FRecv where
  first : List UInt8
  second : List UInt8
  deriving DecidableEq, Repr

/-- The calls of the receive function of `WriteWithCallback`, which writes at most `nbytes` bytes
at the same places as `Write` does; it is called a second time only where it filled the room up to
the end of the ring. -/
def receive (frecv : FRecv) (nbytes : ℕ) : Option (RingBuffer × List UInt8) :=
  let tail := b.headPtr + b.bytesAvailable
  if b.capacity ≤ tail then
    let recv := frecv.first.take nbytes
    (overwrite b.ring (tail - b.capacity) recv).map fun ring =>
      ({ b with ring := ring, bytesAvailable := b.bytesAvailable + recv.length }, recv)
  else
    let ncopy := min (b.capacity - tail) nbytes
    let recv := frecv.first.take ncopy
    (overwrite b.ring tail recv).bind fun ring =>
      let nrecv := b.bytesAvailable + recv.length
      if recv.length = ncopy ∧ ncopy < nbytes then
        let recv2 := frecv.second.take (nbytes - ncopy)
        (overwrite ring 0 recv2).map fun ring =>
          ({ b with ring := ring, bytesAvailable := nrecv + recv2.length }, recv ++ recv2)
      else some ({ b with ring := ring, bytesAvailable := nrecv }, recv)

/-- `WriteWithCallback(frecv, max_nbytes)`, with the bytes received. -/
def writeWithCallback (frecv : FRecv) (maxNbytes : ℕ) : Option (RingBuffer × List UInt8) := do
  let b ← b.reserve (b.bytesAvailable + maxNbytes)
  b.receive frecv maxNbytes

end RingBuffer

/-! ## Sequences of calls -/

/-- One call. -/
inductive RingOp
  | write (data : List UInt8)
  | writeWithCallback (frecv : RingBuffer.FRecv) (maxNbytes : ℕ)
  | read (size : ℕ)
  | reserve (n : ℕ)
  deriving DecidableEq, Repr

/-- The bytes a call moved: into the buffer, and out of it. -/
structure Moved where
  received : List UInt8
  delivered : List UInt8
  deriving DecidableEq, Repr

/-- One call on the buffer. -/
def RingBuffer.step : RingOp → Option (RingBuffer × Moved)
  | .write data => do
    let b ← b.write data
    some (b, ⟨data, []⟩)
  | .writeWithCallback frecv maxNbytes => do
    let (b, recv) ← b.writeWithCallback frecv maxNbytes
    some (b, ⟨recv, []⟩)
  | .read size => do
    let (b, data) ← b.read size
    some (b, ⟨[], data⟩)
  | .reserve n => do
    let b ← b.reserve n
    some (b, ⟨[], []⟩)

/-- A sequence of calls, with the bytes each of them moved. -/
def runRing : RingBuffer → List RingOp → Option (RingBuffer × List Moved)
  | b, [] => some (b, [])
  | b, op :: ops => do
    let (b, moved) ← b.step op
    let (b, rest) ← runRing b ops
    some (b, moved :: rest)

/-! ## The sizes alone -/

/-- Where the bytes of a buffer stand. -/
structure RingShape where
  capacity : ℕ
  head : ℕ
  length : ℕ
  deriving DecidableEq, Repr

namespace RingShape

/-- The shape of a new buffer. -/
def init : RingShape := ⟨kInitCapacity, 0, 0⟩

/-- The shape after `Reserve(n)`. -/
def reserve (n : ℕ) : RingShape :=
  if s.capacity < n then { s with capacity := RingBuffer.grownSize n }
  else if n * 8 < s.capacity ∧ kInitCapacity < s.capacity then
    ⟨max (max kInitCapacity n) s.length, 0, s.length⟩
  else s

/-- The number of bytes a callback delivers, asked for `maxNbytes`: at the end of the bytes held it
is offered the room up to the end of the ring, and the room at the front if it fills that. -/
def received (frecv : RingBuffer.FRecv) (maxNbytes : ℕ) : ℕ :=
  if s.capacity ≤ s.head + s.length then min maxNbytes frecv.first.length
  else
    let ncopy := min (s.capacity - (s.head + s.length)) maxNbytes
    if ncopy ≤ frecv.first.length then ncopy + min (maxNbytes - ncopy) frecv.second.length
    else frecv.first.length

/-- The capacity a call asks for with the shape it finds; a read asks for none. -/
def request : RingOp → ℕ
  | .write data => s.length + data.length
  | .writeWithCallback _ maxNbytes => s.length + maxNbytes
  | .read _ => 0
  | .reserve n => n

/-- The shape after a call. -/
def step : RingOp → RingShape
  | .write data =>
    let s := s.reserve (s.length + data.length)
    { s with length := s.length + data.length }
  | .writeWithCallback frecv maxNbytes =>
    let s := s.reserve (s.length + maxNbytes)
    { s with length := s.length + s.received frecv maxNbytes }
  | .read size => ⟨s.capacity, (s.head + size) % s.capacity, s.length - size⟩
  | .reserve n => s.reserve n

end RingShape

/-- The bytes a call takes out of the buffer. -/
def RingOp.readSize : RingOp → ℕ
  | .read size => size
  | _ => 0

/-- No read asks for more bytes than are held. -/
def ReadsHeld : RingShape → List RingOp → Prop
  | _, [] => True
  | s, op :: ops => op.readSize ≤ s.length ∧ ReadsHeld (s.step op) ops

/-- Growing to `n` bytes: what wraps around has room behind the old end. -/
def GrowthFits (n : ℕ) : Prop :=
  s.capacity < n → s.capacity < s.head + s.length → s.head + s.length ≤ RingBuffer.grownSize n

/-- Every growth has room for what wraps around. -/
def GrowthsFit : RingShape → List RingOp → Prop
  | _, [] => True
  | s, op :: ops => GrowthFits s (s.request op) ∧ GrowthsFit (s.step op) ops

instance decidableReadsHeld : (s : RingShape) → (ops : List RingOp) → Decidable (ReadsHeld s ops)
  | _, [] => .isTrue trivial
  | s, op :: ops =>
    have := decidableReadsHeld (s.step op) ops
    inferInstanceAs (Decidable (_ ∧ _))

instance (s : RingShape) (n : ℕ) : Decidable (GrowthFits s n) :=
  inferInstanceAs (Decidable (_ → _ → _))

instance decidableGrowthsFit : (s : RingShape) → (ops : List RingOp) → Decidable (GrowthsFit s ops)
  | _, [] => .isTrue trivial
  | s, op :: ops =>
    have := decidableGrowthsFit (s.step op) ops
    inferInstanceAs (Decidable (_ ∧ _))

/-! ## The queue -/

/-- A queue of bytes while bytes go in at its end and come out at its front; it fails when other
bytes come out than those at its front. -/
def queueStep (q : List UInt8) (m : Moved) : Option (List UInt8) :=
  let q := q ++ m.received
  if m.delivered <+: q then some (q.drop m.delivered.length) else none

/-- What the caller of an operation knows about the bytes it moved. -/
def RingOp.Moves : RingOp → Moved → Prop
  | .write data, m => m.received = data ∧ m.delivered = []
  | .writeWithCallback frecv maxNbytes, m =>
    m.received.length ≤ maxNbytes ∧ m.delivered = [] ∧
      ∃ k l, m.received = frecv.first.take k ++ frecv.second.take l
  | .read size, m => m.received = [] ∧ m.delivered.length = size
  | .reserve _, m => m.received = [] ∧ m.delivered = []

end Pruner.Support
