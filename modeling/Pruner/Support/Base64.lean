import Mathlib.Data.List.Basic
import Pruner.Lib.Sextets

/-!
# The base64 streams

The output and the input stream of `support/base64.h`.  The output stream collects three bytes
before it writes four characters, and pads what is left over at the end.  The input stream reads
four characters at a time; a read that ends inside a group leaves up to two bytes to the next one.
The characters come through a reader that refills a buffer of 256 characters from an underlying
stream, which may give less than it is asked for.

## Main definitions

* `EncodeTable`, `DecodeTable` — the tables.
* `OutStream`, with `write` and `finish` — `Base64OutStream`.
* `Reader`, with `getChar` — `StreamBufferReader`.
* `InStream`, with `initPosition`, `read` and `isEOF` — `Base64InStream`.
* `encodeAll`, `readAll` — sequences of calls.
-/

namespace Pruner.Support.Base64

open Pruner.Lib

/-- `DecodeTable`: the value of a character, by its code. -/
def DecodeTable : List ℕ :=
  [0, 0, 0, 0, 0, 0, 0, 0, 0, 0, 0, 0, 0, 0, 0, 0, 0, 0, 0, 0, 0, 0,
    0, 0, 0, 0, 0, 0, 0, 0, 0, 0, 0, 0, 0, 0, 0, 0, 0, 0, 0, 0, 0, 62,
    0, 0, 0, 63, 52, 53, 54, 55, 56, 57, 58, 59, 60, 61, 0, 0, 0, 0, 0, 0, 0, 0,
    1, 2, 3, 4, 5, 6, 7, 8, 9, 10, 11, 12, 13, 14, 15, 16, 17, 18, 19, 20, 21, 22,
    23, 24, 25, 0, 0, 0, 0, 0, 0, 26, 27, 28, 29, 30, 31, 32, 33, 34, 35, 36, 37, 38,
    39, 40, 41, 42, 43, 44, 45, 46, 47, 48, 49, 50, 51]

def EncodeTable : List Char :=
  ['A', 'B', 'C', 'D', 'E', 'F', 'G', 'H', 'I', 'J', 'K', 'L', 'M',
    'N', 'O', 'P', 'Q', 'R', 'S', 'T', 'U', 'V', 'W', 'X', 'Y', 'Z',
    'a', 'b', 'c', 'd', 'e', 'f', 'g', 'h', 'i', 'j', 'k', 'l', 'm',
    'n', 'o', 'p', 'q', 'r', 's', 't', 'u', 'v', 'w', 'x', 'y', 'z',
    '0', '1', '2', '3', '4', '5', '6', '7', '8', '9', '+', '/']

/-- The character at a place of the encoding table. -/
def encodeChar (i : ℕ) : Char := EncodeTable.getD i (Char.ofNat 0)

/-- `isspace` in the C locale. -/
def isspace (c : Char) : Bool := c = ' ' || (9 ≤ c.toNat && c.toNat ≤ 13)

/-! ## The output stream -/

/-- `Base64OutStream`. -/
structure OutStream where
  /-- `buf_`, the bytes of a group that is not complete; there are `buf__top_` of them. -/
  buf : List UInt8
  /-- `out_buf_`, the characters not yet written. -/
  outBuf : List Char
  /-- What has been written to the stream `fp_`. -/
  fp : List Char
  deriving DecidableEq, Repr

namespace OutStream

/-- A new stream. -/
def init : OutStream := ⟨[], [], []⟩

def kBufferSize : ℕ := 256

def flush (s : OutStream) : OutStream :=
  if s.outBuf.length ≠ 0 then { s with fp := s.fp ++ s.outBuf, outBuf := [] } else s

def putChar (s : OutStream) (ch : Char) : OutStream :=
  let s := { s with outBuf := s.outBuf ++ [ch] }
  if kBufferSize ≤ s.outBuf.length then s.flush else s

/-- One byte of `Write`: it goes to the group, and a complete group is written. -/
def writeByte (s : OutStream) (c : UInt8) : OutStream :=
  match s.buf ++ [c] with
  | [b₁, b₂, b₃] =>
    let s := s.putChar (encodeChar (sextet₁ b₁.toNat))
    let s := s.putChar (encodeChar (sextet₂ b₁.toNat b₂.toNat))
    let s := s.putChar (encodeChar (sextet₃ b₂.toNat b₃.toNat))
    let s := s.putChar (encodeChar (sextet₄ b₃.toNat))
    { s with buf := [] }
  | buf => { s with buf := buf }

/-- `Write(ptr, size)`. -/
def write (s : OutStream) (data : List UInt8) : OutStream := data.foldl writeByte s

/-- What `Finish` writes for a group that is not complete. -/
def pad (s : OutStream) : OutStream :=
  match s.buf with
  | [b₁] =>
    let s := s.putChar (encodeChar (b₁.toNat >>> 2))
    let s := s.putChar (encodeChar (b₁.toNat <<< 4 &&& 0x3F))
    let s := s.putChar '='
    s.putChar '='
  | [b₁, b₂] =>
    let s := s.putChar (encodeChar (b₁.toNat >>> 2))
    let s := s.putChar (encodeChar ((b₁.toNat <<< 4 ||| b₂.toNat >>> 4) &&& 0x3F))
    let s := s.putChar (encodeChar (b₂.toNat <<< 2 &&& 0x3F))
    s.putChar '='
  | _ => s

/-- `Finish(endch)`; without a character nothing is appended. -/
def finish (s : OutStream) (endch : Option Char) : OutStream :=
  let s := { s.pad with buf := [] }
  let s := match endch with
    | none => s
    | some ch => s.putChar ch
  s.flush

end OutStream

/-- What a new output stream writes, for a sequence of writes and a `Finish`. -/
def encodeAll (writes : List (List UInt8)) (endch : Option Char) : List Char :=
  ((writes.foldl OutStream.write OutStream.init).finish endch).fp

/-! ## The reader -/

/-- `StreamBufferReader`. -/
structure Reader where
  /-- What `stream_` gives at its next reads, as far as the buffer has room for it. -/
  stream : List (List Char)
  buffer : List Char
  /-- `read_len_`, the length of valid data in the buffer. -/
  readLen : ℕ
  readPtr : ℕ
  deriving DecidableEq, Repr

namespace Reader

def bufferSize : ℕ := 256

/-- A reader with a buffer of 256 characters, after `set_stream`. -/
def init (stream : List (List Char)) : Reader where
  stream := stream
  buffer := List.replicate bufferSize (Char.ofNat 0)
  readLen := 1
  readPtr := 1

/-- `stream_->Read(&buffer_[0], buffer_.length())`. -/
def refill (r : Reader) : Reader :=
  match r.stream with
  | [] => { r with readLen := 0 }
  | piece :: rest =>
    let chunk := piece.take bufferSize
    { stream := if piece.length ≤ bufferSize then rest else piece.drop bufferSize :: rest
      buffer := chunk ++ r.buffer.drop chunk.length
      readLen := chunk.length
      readPtr := r.readPtr }

/-- `GetChar`; `none` is `EOF`.  After a refill there is a character, so that the loop comes back
to its test at most once. -/
def getChar (r : Reader) : Option Char × Reader :=
  if r.readPtr < r.readLen then (r.buffer[r.readPtr]?, { r with readPtr := r.readPtr + 1 })
  else
    let r := r.refill
    if r.readLen = 0 then (none, r) else (r.buffer[0]?, { r with readPtr := 1 })

end Reader

/-! ## The input stream -/

/-- `Base64InStream`. -/
structure InStream where
  reader : Reader
  /-- `temp_ch_`; `none` is `EOF`. -/
  tempCh : Option Char
  /-- The first `num_prev_` bytes of `buf_prev`. -/
  prev : List UInt8
  deriving DecidableEq, Repr

namespace InStream

/-- A new stream. -/
def init (stream : List (List Char)) : InStream := ⟨Reader.init stream, some (Char.ofNat 0), []⟩

/-- `temp_ch_ = reader_.GetChar()`. -/
def next (s : InStream) : InStream :=
  { s with tempCh := s.reader.getChar.1, reader := s.reader.getChar.2 }

/-- `temp_ch_ == EOF || isspace(temp_ch_)`. -/
def atEnd (s : InStream) : Bool :=
  match s.tempCh with
  | none => true
  | some c => isspace c

/-- `InitPosition`: the loop runs over the characters that are left, and fails to end only with
less fuel than those. -/
def initPosition : ℕ → InStream → Option InStream
  | 0, _ => none
  | fuel + 1, s =>
    let s := s.next
    match s.tempCh with
    | none => some s
    | some c => if isspace c then initPosition fuel s else some s

def isEOF (s : InStream) : Bool := s.prev.length = 0 && s.atEnd

/-- `DecodeTable[temp_ch_]`. -/
def digit (s : InStream) : Option ℕ := s.tempCh.bind fun c => DecodeTable[c.toNat]?

/-- The state of a read: the stream, the number of bytes still wanted, the bytes delivered. -/
structure Reading where
  stream : InStream
  tlen : ℕ
  out : List UInt8
  deriving DecidableEq, Repr

/-- A byte goes to the caller, or is kept for the next read. -/
def Reading.deliver (r : Reading) (n : ℕ) : Reading :=
  if r.tlen ≠ 0 then { r with tlen := r.tlen - 1, out := r.out ++ [UInt8.ofNat (n &&& 0xFF)] }
  else { r with stream := { r.stream with prev := r.stream.prev ++ [UInt8.ofNat (n &&& 0xFF)] } }

/-- `temp_ch_ = reader_.GetChar()` inside a read. -/
def Reading.next (r : Reading) : Reading := { r with stream := r.stream.next }

/-- The fourth character of a group; the flag says that the loop is left. -/
def fourth (r : Reading) (nvalue : ℕ) : Option (Reading × Bool) := do
  let r := r.next
  guard (!r.stream.atEnd)
  if r.stream.tempCh = some '=' then
    let r := r.next
    guard r.stream.atEnd
    some (r, true)
  else
    let v ← r.stream.digit
    let r := r.deliver (nvalue ||| v)
    some (r.next, false)

/-- The third character of a group and what follows it. -/
def third (r : Reading) (nvalue : ℕ) : Option (Reading × Bool) := do
  let r := r.next
  guard (!r.stream.atEnd)
  if r.stream.tempCh = some '=' then
    let r := r.next
    guard (r.stream.tempCh = some '=')
    let r := r.next
    guard r.stream.atEnd
    some (r, true)
  else
    let v ← r.stream.digit
    let nvalue := nvalue ||| v <<< 6
    fourth (r.deliver (nvalue >>> 8)) nvalue

/-- One round of the loop of `Read`: a group of four characters. -/
def readGroup (r : Reading) : Option (Reading × Bool) := do
  let v₁ ← r.stream.digit
  let r := r.next
  guard (!r.stream.atEnd)
  let v₂ ← r.stream.digit
  let nvalue := v₁ <<< 18 ||| v₂ <<< 12
  third (r.deliver (nvalue >>> 16)) nvalue

/-- The loop of `Read`; every round delivers a byte, so that the number of bytes wanted is fuel
enough. -/
def readLoop : ℕ → Reading → Option Reading
  | 0, r => some r
  | fuel + 1, r =>
    if r.tlen = 0 ∨ r.stream.atEnd then some r
    else do
      let (r, left) ← readGroup r
      if left then some r else readLoop fuel r

/-- The bytes kept from the read before. -/
def loadPrev (s : InStream) (tlen : ℕ) : Reading :=
  match s.prev with
  | [b₀, b₁] =>
    if 2 ≤ tlen then ⟨{ s with prev := [] }, tlen - 2, [b₀, b₁]⟩
    else ⟨{ s with prev := [b₁] }, tlen - 1, [b₀]⟩
  | [b₀] => ⟨{ s with prev := [] }, tlen - 1, [b₀]⟩
  | _ => ⟨s, tlen, []⟩

/-- `Read(ptr, size)`, with the bytes delivered. -/
def read (s : InStream) (size : ℕ) : Option (InStream × List UInt8) :=
  if size = 0 then some (s, [])
  else do
    let r := s.loadPrev size
    let r ← readLoop r.tlen r
    some (r.stream, r.out)

end InStream

/-- A sequence of reads, with the bytes each of them delivered. -/
def readAll : InStream → List ℕ → Option (InStream × List (List UInt8))
  | s, [] => some (s, [])
  | s, size :: sizes => do
    let (s, bytes) ← s.read size
    let (s, rest) ← readAll s sizes
    some (s, bytes :: rest)

end Pruner.Support.Base64
