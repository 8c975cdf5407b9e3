import Mathlib.Algebra.Ring.Nat
import Mathlib.Data.Option.Basic
import Pruner.Support.Base64

/-!
# Reading back what was written in base64

What the output stream writes depends only on the bytes written, not on how they were divided:
it is their encoding.  The input stream over an encoding gives the bytes back, whatever the sizes
of the reads and of the pieces in which the characters come.

## Main definitions

* `encode` — the encoding of a sequence of bytes.
* `Encodes`, `encodeAll_eq` — the output stream.
* `Shows`, `Remains` — what an input stream has before it: characters, and bytes.
* `readGroup_three`, `readGroup_two`, `readGroup_one` — a group of four characters.
* `read_spec` — a read.
* `readAll_encodeAll` — the round trip.
-/

namespace Pruner.Support.Base64

open Pruner.Lib List Option OutStream

variable {ds w : List UInt8} {r : Reading} {s : InStream} {cs : List Char}

/-! ## The encoding -/

/-- The four characters of three bytes. -/
def encode₃ (b₁ b₂ b₃ : UInt8) : List Char :=
  [encodeChar (sextet₁ b₁.toNat), encodeChar (sextet₂ b₁.toNat b₂.toNat),
    encodeChar (sextet₃ b₂.toNat b₃.toNat), encodeChar (sextet₄ b₃.toNat)]

/-- The four characters of two bytes at the end. -/
def encode₂ (b₁ b₂ : UInt8) : List Char :=
  [encodeChar (sextet₁ b₁.toNat), encodeChar (sextet₂ b₁.toNat b₂.toNat),
    encodeChar (sextet₃ b₂.toNat 0), '=']

/-- The four characters of one byte at the end. -/
def encode₁ (b₁ : UInt8) : List Char :=
  [encodeChar (sextet₁ b₁.toNat), encodeChar (sextet₂ b₁.toNat 0), '=', '=']

/-- The encoding of a sequence of bytes. -/
def encode : List UInt8 → List Char
  | [] => []
  | [b₁] => encode₁ b₁
  | [b₁, b₂] => encode₂ b₁ b₂
  | b₁ :: b₂ :: b₃ :: rest => encode₃ b₁ b₂ b₃ ++ encode rest

/-! ## The output stream -/

namespace OutStream

variable {s : OutStream}

/-- All characters put so far. -/
def put (s : OutStream) : List Char := s.fp ++ s.outBuf

theorem put_with_buf (s : OutStream) (buf : List UInt8) : { s with buf := buf }.put = s.put := rfl

@[simp] theorem put_flush (s : OutStream) : s.flush.put = s.put := by
  rw [flush]
  split_ifs with h
  · simp [put]
  · rfl

theorem fp_flush (s : OutStream) : s.flush.fp = s.put := by
  rw [flush]
  split_ifs with h
  · rfl
  · rw [put, length_eq_zero_iff.mp (not_not.mp h), append_nil]

@[simp] theorem put_putChar (s : OutStream) (ch : Char) : (s.putChar ch).put = s.put ++ [ch] := by
  rw [putChar]
  split_ifs
  · rw [put_flush, put, put, append_assoc]
  · rw [put, put, append_assoc]

/-- The bytes `w` have been written: the characters put so far, followed by the encoding of what
comes after, are the encoding of all of them. -/
structure Encodes (s : OutStream) (w : List UInt8) : Prop where
  length_lt : s.buf.length < 3
  put_eq : ∀ rest, s.put ++ encode (s.buf ++ rest) = encode (w ++ rest)

theorem Encodes.writeByte (h : s.Encodes w) (c : UInt8) : (s.writeByte c).Encodes (w ++ [c]) := by
  have hput : ∀ rest, s.put ++ encode (s.buf ++ [c] ++ rest) = encode (w ++ [c] ++ rest) := by
    intro rest
    rw [append_assoc, append_assoc, h.put_eq]
  have hlen : (s.buf ++ [c]).length < 4 := by
    have := h.length_lt
    rw [length_append, length_singleton]
    omega
  rw [OutStream.writeByte]
  generalize s.buf ++ [c] = buf at hput hlen
  match buf, hlen with
  | [b₁, b₂, b₃], _ =>
    refine ⟨Nat.zero_lt_succ _, fun rest => ?_⟩
    rw [← hput rest]
    simp [put_with_buf, put_putChar, encode, encode₃]
  | [], _ => exact ⟨Nat.zero_lt_succ _, hput⟩
  | [b₁], _ => exact ⟨show 1 < 3 by decide, hput⟩
  | [b₁, b₂], _ => exact ⟨show 2 < 3 by decide, hput⟩

theorem Encodes.write (h : s.Encodes w) (data : List UInt8) :
    (s.write data).Encodes (w ++ data) := by
  rw [OutStream.write]
  induction data generalizing s w with
  | nil => rwa [append_nil]
  | cons c data ih =>
    rw [← singleton_append, ← append_assoc]
    exact ih (h.writeByte c)

theorem Encodes.writes (h : s.Encodes w) (writes : List (List UInt8)) :
    (writes.foldl OutStream.write s).Encodes (w ++ writes.flatten) := by
  induction writes generalizing s w with
  | nil => rwa [flatten_nil, append_nil]
  | cons data writes ih =>
    rw [flatten_cons, ← append_assoc]
    exact ih (h.write data)

/-- The group that is not complete is padded. -/
theorem Encodes.put_pad (h : s.Encodes w) : s.pad.put = encode w := by
  have hput := h.put_eq []
  have hlen := h.length_lt
  rw [append_nil, append_nil] at hput
  rw [← hput, pad]
  match hbuf : s.buf, hlen with
  | [], _ => rw [encode, append_nil]
  | [b₁], _ => simp [encode, encode₁, sextet₁, sextet₂]
  | [b₁, b₂], _ => simp [encode, encode₂, sextet₁, sextet₂, sextet₃]

end OutStream

/-- What the output stream writes is the encoding of all bytes written. -/
theorem encodeAll_eq (writes : List (List UInt8)) (endch : Option Char) :
    encodeAll writes endch = encode writes.flatten ++ endch.toList := by
  have h := Encodes.writes (s := init) ⟨by decide, fun _ => rfl⟩ writes
  cases endch with
  | none =>
    simp only [encodeAll, finish, fp_flush]
    rw [put_with_buf, h.put_pad, toList_none, append_nil]
    rfl
  | some ch =>
    simp only [encodeAll, finish, fp_flush]
    rw [put_putChar, put_with_buf, h.put_pad]
    rfl

/-! ## The reader -/

namespace Reader

variable {r : Reader}

/-- The characters still to come. -/
def rest (r : Reader) : List Char := (r.buffer.take r.readLen).drop r.readPtr ++ r.stream.flatten

/-- The stream gives something as long as it has not ended, and the valid data lies in the
buffer. -/
structure Good (r : Reader) : Prop where
  pieces : ∀ piece ∈ r.stream, piece ≠ []
  readLen_le : r.readLen ≤ r.buffer.length

theorem good_init {stream : List (List Char)} (h : ∀ piece ∈ stream, piece ≠ []) :
    (init stream).Good where
  pieces := h
  readLen_le := by
    rw [init, length_replicate]
    exact Nat.one_le_of_lt (show 0 < bufferSize by decide)

/-- A refill brings new characters, or finds none. -/
theorem refill_spec (h : r.Good) (hlast : r.readLen ≤ r.readPtr) :
    r.refill.Good ∧ r.rest = r.refill.buffer.take r.refill.readLen ++ r.refill.stream.flatten ∧
      (r.refill.readLen = 0 → r.rest = []) := by
  have hrest : r.rest = r.stream.flatten := by
    rw [rest, drop_eq_nil_of_le (by rw [length_take]; omega), nil_append]
  rw [hrest, refill]
  match hstream : r.stream with
  | [] => exact ⟨⟨fun p hp => absurd hp not_mem_nil, Nat.zero_le _⟩, by simp, fun _ => rfl⟩
  | piece :: pieces =>
    have hne : piece ≠ [] := h.pieces piece (hstream ▸ mem_cons_self)
    have hpieces : ∀ p ∈ pieces, p ≠ [] := fun p hp =>
      h.pieces p (hstream ▸ mem_cons_of_mem _ hp)
    refine ⟨⟨?_, ?_⟩, ?_, ?_⟩
    · dsimp only
      split_ifs with hle
      · exact hpieces
      · exact forall_mem_cons.mpr ⟨ne_nil_of_length_pos (by rw [length_drop]; omega), hpieces⟩
    · simp only [length_append]
      omega
    · dsimp only
      rw [take_left]
      split_ifs with hle
      · rw [take_of_length_le hle, flatten_cons]
      · rw [flatten_cons, flatten_cons, ← append_assoc, take_append_drop]
    · intro hzero
      have hpos := length_pos_of_ne_nil hne
      simp only [length_take, bufferSize] at hzero
      omega

/-- The next character is the first of those to come. -/
theorem getChar_spec (h : r.Good) :
    r.getChar.1 = r.rest.head? ∧ r.getChar.2.rest = r.rest.tail ∧ r.getChar.2.Good := by
  simp only [getChar]
  split_ifs with hlt hzero
  · have hle := h.readLen_le
    have hdrop : (r.buffer.take r.readLen).drop r.readPtr =
        r.buffer[r.readPtr] :: (r.buffer.take r.readLen).drop (r.readPtr + 1) := by
      rw [drop_eq_getElem_cons (by rw [length_take]; omega), getElem_take]
    refine ⟨?_, ?_, h.pieces, h.readLen_le⟩
    · rw [rest, hdrop, cons_append, head?_cons, getElem?_eq_getElem]
    · rw [rest, rest, hdrop, cons_append, tail_cons]
  · obtain ⟨hgood, hrest, hnone⟩ := refill_spec h (not_lt.mp hlt)
    have hnil := hnone hzero
    refine ⟨by rw [hnil, head?_nil], ?_, hgood⟩
    rw [hnil, rest, hzero, take_zero, drop_nil]
    rw [hnil, hzero, take_zero] at hrest
    exact hrest.symm
  · obtain ⟨hgood, hrest, -⟩ := refill_spec h (not_lt.mp hlt)
    have hle := hgood.readLen_le
    have htake := drop_eq_getElem_cons
      (show 0 < (r.refill.buffer.take r.refill.readLen).length by rw [length_take]; omega)
    rw [drop_zero, getElem_take] at htake
    refine ⟨?_, ?_, hgood.pieces, hgood.readLen_le⟩
    · rw [hrest, htake, cons_append, head?_cons, getElem?_eq_getElem]
    · rw [hrest, htake, cons_append, tail_cons, rest]

end Reader

/-! ## What an input stream has before it -/

namespace InStream

/-- The stream shows the characters `cs`, of which it has read the first. -/
structure Shows (s : InStream) (cs : List Char) : Prop where
  tempCh_eq : s.tempCh = cs.head?
  rest_eq : s.reader.rest = cs.tail
  good : s.reader.Good

theorem Shows.of_rest (hrest : s.reader.rest = cs) (hgood : s.reader.Good) : s.next.Shows cs := by
  obtain ⟨hchar, htail, hgood'⟩ := Reader.getChar_spec hgood
  rw [hrest] at hchar htail
  exact ⟨hchar, htail, hgood'⟩

theorem Shows.next (h : s.Shows cs) : s.next.Shows cs.tail := .of_rest h.rest_eq h.good

theorem Shows.atEnd_nil (h : s.Shows []) : s.atEnd = true := by
  rw [atEnd, h.tempCh_eq]
  rfl

theorem Shows.atEnd_cons {c : Char} (h : s.Shows (c :: cs)) : s.atEnd = isspace c := by
  rw [atEnd, h.tempCh_eq]
  rfl

/-- What may follow an encoding: nothing, or a space. -/
def Ends (cs : List Char) : Prop := ∀ c ∈ cs.head?, isspace c = true

theorem Shows.atEnd_of_ends (h : s.Shows cs) (hends : Ends cs) : s.atEnd = true := by
  cases cs with
  | nil => exact h.atEnd_nil
  | cons c cs => rw [h.atEnd_cons, hends c rfl]

end InStream

/-! ## The tables -/

/-- The characters of the encoding table are no spaces and no padding, and decode to their
places. -/
theorem encodeChar_spec : ∀ i, i < 64 → isspace (encodeChar i) = false ∧ encodeChar i ≠ '=' ∧
    DecodeTable[(encodeChar i).toNat]? = some i := by
  decide

namespace InStream

variable {i : ℕ}

theorem Shows.encodeChar (h : s.Shows (encodeChar i :: cs)) (hi : i < 64) :
    s.atEnd = false ∧ s.tempCh ≠ some '=' ∧ s.digit = some i := by
  obtain ⟨hspace, hpad, hdigit⟩ := encodeChar_spec i hi
  refine ⟨h.atEnd_cons.trans hspace, ?_, ?_⟩
  · rw [h.tempCh_eq]
    exact fun heq => hpad (some.inj heq)
  · rw [digit, h.tempCh_eq]
    exact hdigit

/-! ## A group of characters -/

/-- The bytes `ds` have been delivered on the way from `r₀` to `r`: as many as wanted to the
caller, the others to the next read. -/
structure Delivered (r₀ r : Reading) (ds : List UInt8) : Prop where
  out_eq : r.out = r₀.out ++ ds.take r₀.tlen
  tlen_eq : r.tlen = r₀.tlen - ds.length
  prev_eq : r.stream.prev = r₀.stream.prev ++ ds.drop r₀.tlen

theorem Delivered.start (r : Reading) : Delivered r r [] where
  out_eq := by rw [take_nil, append_nil]
  tlen_eq := rfl
  prev_eq := by rw [drop_nil, append_nil]

variable {r₀ r' : Reading} {d data : List UInt8} {tail : List Char} {fuel size : ℕ}

theorem Delivered.next (h : Delivered r₀ r ds) : Delivered r₀ r.next ds :=
  ⟨h.out_eq, h.tlen_eq, h.prev_eq⟩

theorem Delivered.deliver (h : Delivered r₀ r ds) {n : ℕ} {b : UInt8}
    (hn : n &&& 0xFF = b.toNat) : Delivered r₀ (r.deliver n) (ds ++ [b]) := by
  have htlen := h.tlen_eq
  rw [Reading.deliver, hn, UInt8.ofNat_toNat]
  split_ifs with hzero
  · refine ⟨?_, ?_, ?_⟩
    · rw [h.out_eq, append_assoc, take_of_length_le (by omega),
        take_of_length_le (by rw [length_append, length_singleton]; omega)]
    · rw [length_append, length_singleton]
      dsimp only
      omega
    · rw [h.prev_eq, drop_eq_nil_of_le (by omega),
        drop_eq_nil_of_le (by rw [length_append, length_singleton]; omega)]
  · have hle : r₀.tlen ≤ ds.length := by omega
    refine ⟨?_, ?_, ?_⟩
    · rw [take_append_of_le_length hle]
      exact h.out_eq
    · rw [length_append]
      dsimp only
      omega
    · rw [h.prev_eq, drop_append_of_le_length hle, append_assoc]

theorem Shows.deliver (h : r.stream.Shows cs) (n : ℕ) : (r.deliver n).stream.Shows cs := by
  rw [Reading.deliver]
  split_ifs
  · exact h
  · exact ⟨h.tempCh_eq, h.rest_eq, h.good⟩

/-- The padding character before the stream. -/
theorem Shows.pad (h : s.Shows ('=' :: cs)) : s.atEnd = false ∧ s.tempCh = some '=' :=
  ⟨h.atEnd_cons.trans (by decide), h.tempCh_eq⟩

variable {b : UInt8} {nvalue : ℕ}

/-- The first two characters of a group give a byte. -/
theorem readGroup_digits (h : r.stream.Shows (Base64.encodeChar i :: Base64.encodeChar j :: cs))
    (hi : i < 64) (hj : j < 64) (hb : (i <<< 18 ||| j <<< 12) >>> 16 &&& 0xFF = b.toNat) :
    ∃ r', readGroup r = third r' (i <<< 18 ||| j <<< 12) ∧
      r'.stream.Shows (Base64.encodeChar j :: cs) ∧ Delivered r r' [b] := by
  obtain ⟨-, -, hdigit⟩ := Shows.encodeChar h hi
  have h₂ : r.next.stream.Shows (Base64.encodeChar j :: cs) := h.next
  obtain ⟨hend, -, hdigit₂⟩ := Shows.encodeChar h₂ hj
  refine ⟨r.next.deliver ((i <<< 18 ||| j <<< 12) >>> 16), ?_, h₂.deliver _,
    (Delivered.start r).next.deliver hb⟩
  simp [readGroup, hdigit, hdigit₂, hend]

/-- A third character that is no padding gives a byte. -/
theorem third_digit (h : r.stream.Shows (x :: Base64.encodeChar i :: cs)) (hi : i < 64)
    (hd : Delivered r₀ r ds) (hb : (nvalue ||| i <<< 6) >>> 8 &&& 0xFF = b.toNat) :
    ∃ r', third r nvalue = fourth r' (nvalue ||| i <<< 6) ∧
      r'.stream.Shows (Base64.encodeChar i :: cs) ∧ Delivered r₀ r' (ds ++ [b]) := by
  have h₂ : r.next.stream.Shows (Base64.encodeChar i :: cs) := h.next
  obtain ⟨hend, hpad, hdigit⟩ := Shows.encodeChar h₂ hi
  refine ⟨r.next.deliver ((nvalue ||| i <<< 6) >>> 8), ?_, h₂.deliver _, hd.next.deliver hb⟩
  simp [third, hdigit, hend, hpad]

/-- Two characters of padding. -/
theorem third_pad (h : r.stream.Shows (x :: '=' :: '=' :: cs)) (hends : Ends cs)
    (hd : Delivered r₀ r ds) :
    ∃ r', third r nvalue = some (r', true) ∧ r'.stream.Shows cs ∧ Delivered r₀ r' ds := by
  have h₂ : r.next.stream.Shows ('=' :: '=' :: cs) := h.next
  have h₃ : r.next.next.stream.Shows ('=' :: cs) := h₂.next
  have h₄ : r.next.next.next.stream.Shows cs := h₃.next
  refine ⟨r.next.next.next, ?_, h₄, hd.next.next.next⟩
  simp [third, h₂.pad.1, h₂.pad.2, h₃.pad.2, h₄.atEnd_of_ends hends]

/-- A fourth character that is no padding gives a byte. -/
theorem fourth_digit (h : r.stream.Shows (x :: Base64.encodeChar i :: cs)) (hi : i < 64)
    (hd : Delivered r₀ r ds) (hb : (nvalue ||| i) &&& 0xFF = b.toNat) :
    ∃ r', fourth r nvalue = some (r', false) ∧ r'.stream.Shows cs ∧
      Delivered r₀ r' (ds ++ [b]) := by
  have h₂ : r.next.stream.Shows (Base64.encodeChar i :: cs) := h.next
  obtain ⟨hend, hpad, hdigit⟩ := Shows.encodeChar h₂ hi
  refine ⟨(r.next.deliver (nvalue ||| i)).next, ?_, (h₂.deliver _).next, (hd.next.deliver hb).next⟩
  simp [fourth, hdigit, hend, hpad]

theorem fourth_pad (h : r.stream.Shows (x :: '=' :: cs)) (hends : Ends cs)
    (hd : Delivered r₀ r ds) :
    ∃ r', fourth r nvalue = some (r', true) ∧ r'.stream.Shows cs ∧ Delivered r₀ r' ds := by
  have h₂ : r.next.stream.Shows ('=' :: cs) := h.next
  have h₃ : r.next.next.stream.Shows cs := h₂.next
  refine ⟨r.next.next, ?_, h₃, hd.next.next⟩
  simp [fourth, h₂.pad.1, h₂.pad.2, h₃.atEnd_of_ends hends]

variable {b₁ b₂ : UInt8}

theorem readGroup_three (h : r.stream.Shows (encode₃ b₁ b₂ b₃ ++ cs)) :
    ∃ r', readGroup r = some (r', false) ∧ r'.stream.Shows cs ∧ Delivered r r' [b₁, b₂, b₃] := by
  have hb₂ := b₂.toNat_lt
  have hb₃ := b₃.toNat_lt
  obtain ⟨r₁, hr₁, h₁, hd₁⟩ := readGroup_digits h (sextet₁_lt b₁.toNat_lt) (sextet₂_lt _ _)
    (byte₁_of_sextets b₁.toNat_lt hb₂)
  obtain ⟨r₂, hr₂, h₂, hd₂⟩ := third_digit h₁ (sextet₃_lt _ _) hd₁
    (byte₂_of_sextets b₁.toNat hb₂ hb₃)
  obtain ⟨r₃, hr₃, h₃, hd₃⟩ := fourth_digit h₂ (sextet₄_lt _) hd₂
    (byte₃_of_sextets b₁.toNat hb₂ hb₃)
  exact ⟨r₃, hr₁.trans (hr₂.trans hr₃), h₃, hd₃⟩

theorem readGroup_two (h : r.stream.Shows (encode₂ b₁ b₂ ++ cs)) (hends : Ends cs) :
    ∃ r', readGroup r = some (r', true) ∧ r'.stream.Shows cs ∧ Delivered r r' [b₁, b₂] := by
  obtain ⟨r₁, hr₁, h₁, hd₁⟩ := readGroup_digits h (sextet₁_lt b₁.toNat_lt) (sextet₂_lt _ _)
    (byte₁_of_sextets b₁.toNat_lt b₂.toNat_lt)
  obtain ⟨r₂, hr₂, h₂, hd₂⟩ := third_digit h₁ (sextet₃_lt _ _) hd₁
    (byte₂_of_sextets b₁.toNat b₂.toNat_lt (by decide))
  obtain ⟨r₃, hr₃, h₃, hd₃⟩ := fourth_pad h₂ hends hd₂
  exact ⟨r₃, hr₁.trans (hr₂.trans hr₃), h₃, hd₃⟩

theorem readGroup_one (h : r.stream.Shows (encode₁ b₁ ++ cs)) (hends : Ends cs) :
    ∃ r', readGroup r = some (r', true) ∧ r'.stream.Shows cs ∧ Delivered r r' [b₁] := by
  obtain ⟨r₁, hr₁, h₁, hd₁⟩ := readGroup_digits h (sextet₁_lt b₁.toNat_lt) (sextet₂_lt _ _)
    (byte₁_of_sextets b₁.toNat_lt (by decide))
  obtain ⟨r₂, hr₂, h₂, hd₂⟩ := third_pad h₁ hends hd₁
  exact ⟨r₂, hr₁.trans hr₂, h₂, hd₂⟩

/-! ## Reads -/

/-- The stream still has to give the bytes `data`: those kept from the last group, and those whose
encoding it shows. -/
structure Remains (s : InStream) (data : List UInt8) : Prop where
  length_le : s.prev.length ≤ 2
  shows : ∃ d tail, data = s.prev ++ d ∧ s.Shows (encode d ++ tail) ∧ Ends tail

/-- An encoding that is not empty starts with a character of the table. -/
theorem encode_cons (b : UInt8) (d : List UInt8) :
    ∃ cs, encode (b :: d) = Base64.encodeChar (sextet₁ b.toNat) :: cs := by
  match d with
  | [] => exact ⟨_, rfl⟩
  | [_] => exact ⟨_, rfl⟩
  | _ :: _ :: _ => exact ⟨_, rfl⟩

/-- The stream is before a space or at its end only where no encoding is left. -/
theorem Shows.atEnd_iff (h : s.Shows (encode d ++ tail))
    (hends : Ends tail) : s.atEnd = true ↔ d = [] := by
  constructor
  · intro hend
    cases d with
    | nil => rfl
    | cons b d =>
      obtain ⟨cs, hcs⟩ := encode_cons b d
      rw [hcs] at h
      have := (Shows.encodeChar h (sextet₁_lt b.toNat_lt)).1
      rw [hend] at this
      exact absurd this Bool.noConfusion
  · rintro rfl
    exact h.atEnd_of_ends hends

/-- The stream is at its end where nothing remains. -/
theorem Remains.isEOF_iff (h : s.Remains data) :
    s.isEOF = true ↔ data = [] := by
  obtain ⟨d, tail, rfl, hshows, hends⟩ := h.shows
  rw [isEOF, Bool.and_eq_true, decide_eq_true_eq, length_eq_zero_iff, append_eq_nil_iff,
    hshows.atEnd_iff hends]

theorem readLoop_zero (fuel : ℕ) (h : r.tlen = 0) : readLoop fuel r = some r := by
  cases fuel with
  | zero => rfl
  | succ fuel => rw [readLoop, if_pos (.inl h)]

theorem readLoop_succ {left : Bool} (hpos : r.tlen ≠ 0)
    (hend : ¬ r.stream.atEnd = true) (hgroup : readGroup r = some (r', left)) :
    readLoop (fuel + 1) r = if left then some r' else readLoop fuel r' := by
  rw [readLoop, if_neg (not_or.mpr ⟨hpos, hend⟩), hgroup]
  rfl

/-- What a group has delivered, and what it leaves. -/
theorem Delivered.remains (h : Delivered r r' ds)
    (hpos : r.tlen ≠ 0) (hlen : ds.length ≤ 3) (hprev : r.stream.prev = [])
    (hshows : r'.stream.Shows (encode d ++ tail)) (hends : Ends tail)
    (hlast : d = [] ∨ r.tlen ≤ ds.length) :
    r'.out = r.out ++ (ds ++ d).take r.tlen ∧ r'.stream.Remains ((ds ++ d).drop r.tlen) := by
  have hprev' : r'.stream.prev = ds.drop r.tlen := by
    rw [h.prev_eq, hprev, nil_append]
  obtain ⟨htake, hdrop⟩ : (ds ++ d).take r.tlen = ds.take r.tlen ∧
      (ds ++ d).drop r.tlen = ds.drop r.tlen ++ d := by
    rcases hlast with rfl | hle
    · simp only [append_nil, and_self]
    · exact ⟨take_append_of_le_length hle, drop_append_of_le_length hle⟩
  refine ⟨by rw [h.out_eq, htake], ?_, d, tail, by rw [hdrop, hprev'], hshows, hends⟩
  rw [hprev', length_drop]
  omega

theorem Shows.remains {s : InStream}
    (hshows : s.Shows (encode d ++ tail)) (hprev : s.prev = []) (hends : Ends tail) :
    s.Remains d :=
  ⟨by rw [hprev]; exact Nat.zero_le 2, d, tail, by rw [hprev, nil_append], hshows, hends⟩

/-- The loop gives as many of the bytes `d` as are wanted, or all. -/
def LoopGives (fuel : ℕ) (r : Reading) (d : List UInt8) : Prop :=
  ∃ r', readLoop fuel r = some r' ∧ r'.out = r.out ++ d.take r.tlen ∧
    r'.stream.Remains (d.drop r.tlen)

/-- The loop does not start where nothing is wanted, or nothing is there. -/
theorem loopGives_stop (hstop : d = [] ∨ r.tlen = 0) (hprev : r.stream.prev = [])
    (hshows : r.stream.Shows (encode d ++ tail)) (hends : Ends tail) : LoopGives fuel r d := by
  obtain ⟨htake, hdrop, hloop⟩ : d.take r.tlen = [] ∧ d.drop r.tlen = d ∧
      readLoop fuel r = some r := by
    rcases hstop with rfl | hzero
    · refine ⟨take_nil, drop_nil, ?_⟩
      cases fuel with
      | zero => rfl
      | succ fuel => rw [readLoop, if_pos (.inr (hshows.atEnd_of_ends hends))]
    · rw [hzero]
      exact ⟨take_zero, drop_zero, readLoop_zero fuel hzero⟩
  refine ⟨r, hloop, by rw [htake, append_nil], ?_⟩
  rw [hdrop]
  exact hshows.remains hprev hends

theorem loopGives_padded (hfuel : r.tlen ≤ fuel) (hpos : r.tlen ≠ 0)
    (hend : ¬ r.stream.atEnd = true) (hgroup : readGroup r = some (r', true))
    (hd : Delivered r r' ds) (hlen : ds.length ≤ 3) (hprev : r.stream.prev = [])
    (hshows : r'.stream.Shows tail) (hends : Ends tail) : LoopGives fuel r ds := by
  obtain ⟨fuel, rfl⟩ : ∃ k, fuel = k + 1 := ⟨fuel - 1, by omega⟩
  obtain ⟨hout, hremains⟩ := hd.remains (d := []) hpos hlen hprev hshows hends (.inl rfl)
  rw [append_nil] at hout hremains
  refine ⟨r', ?_, hout, hremains⟩
  rw [readLoop_succ hpos hend hgroup, if_pos rfl]

/-- The loop gives as many bytes as are wanted, or all. -/
theorem readLoop_spec (d : List UInt8) :
    ∀ {fuel : ℕ} {r : Reading} {tail : List Char}, r.tlen ≤ fuel → r.stream.prev = [] →
      r.stream.Shows (encode d ++ tail) → Ends tail → LoopGives fuel r d := by
  -- the induction is on the groups of the encoding
  induction d using encode.induct with
  | case1 =>
    intro fuel r tail _ hprev hshows hends
    exact loopGives_stop (.inl rfl) hprev hshows hends
  | case2 b₁ =>
    intro fuel r tail hfuel hprev hshows hends
    by_cases hzero : r.tlen = 0
    · exact loopGives_stop (.inr hzero) hprev hshows hends
    · obtain ⟨r', hr', hshows', hd⟩ := readGroup_one hshows hends
      have hend := mt (hshows.atEnd_iff hends).mp (cons_ne_nil b₁ [])
      exact loopGives_padded hfuel hzero hend hr' hd (by simp) hprev hshows' hends
  | case3 b₁ b₂ =>
    intro fuel r tail hfuel hprev hshows hends
    by_cases hzero : r.tlen = 0
    · exact loopGives_stop (.inr hzero) hprev hshows hends
    · obtain ⟨r', hr', hshows', hd⟩ := readGroup_two hshows hends
      have hend := mt (hshows.atEnd_iff hends).mp (cons_ne_nil b₁ [b₂])
      exact loopGives_padded hfuel hzero hend hr' hd (by simp) hprev hshows' hends
  | case4 b₁ b₂ b₃ d ih =>
    intro fuel r tail hfuel hprev hshows hends
    by_cases hzero : r.tlen = 0
    · exact loopGives_stop (.inr hzero) hprev hshows hends
    · have hend := mt (hshows.atEnd_iff hends).mp (cons_ne_nil b₁ (b₂ :: b₃ :: d))
      obtain ⟨r₁, hr₁, hshows₁, hd⟩ := readGroup_three hshows
      obtain ⟨fuel, rfl⟩ : ∃ k, fuel = k + 1 := ⟨fuel - 1, by omega⟩
      have hloop : readLoop (fuel + 1) r = readLoop fuel r₁ := by
        rw [readLoop_succ hzero hend hr₁]
        exact if_neg Bool.false_ne_true
      have htlen : r₁.tlen = r.tlen - 3 := hd.tlen_eq
      by_cases hle : r.tlen ≤ 3
      · -- the group is not used up, or just so: its other bytes are kept
        obtain ⟨hout, hremains⟩ := hd.remains hzero (le_refl 3) hprev hshows₁ hends
          (.inr hle)
        exact ⟨r₁, hloop.trans (readLoop_zero fuel (by omega)), hout, hremains⟩
      · have hprev₁ : r₁.stream.prev = [] := by
          rw [hd.prev_eq, hprev]
          exact drop_eq_nil_of_le (by simp only [length_cons, length_nil]; omega)
        obtain ⟨r', hr', hout, hremains⟩ := ih (show r₁.tlen ≤ fuel by omega) hprev₁ hshows₁ hends
        obtain ⟨k, hk⟩ : ∃ k, r.tlen = k + 3 := ⟨r.tlen - 3, by omega⟩
        rw [htlen, hk] at hout hremains
        refine ⟨r', hloop.trans hr', ?_, ?_⟩
        · rw [hout, hd.out_eq, hk]
          simp
        · rw [hk]
          exact hremains

/-- The bytes kept from the read before come first. -/
theorem loadPrev_spec (s : InStream) (hlen : s.prev.length ≤ 2) (hsize : size ≠ 0) :
    s.loadPrev size =
      ⟨{ s with prev := s.prev.drop size }, size - s.prev.length, s.prev.take size⟩ := by
  obtain ⟨k, rfl⟩ : ∃ k, size = k + 1 := ⟨size - 1, by omega⟩
  obtain ⟨reader, tempCh, prev⟩ := s
  match prev, hlen with
  | [], _ => rfl
  | [b₀], _ => simp [loadPrev]
  | [b₀, b₁], _ =>
    cases k with
    | zero => rfl
    | succ k => simp [loadPrev]

theorem read_eq (s : InStream) (hlen : s.prev.length ≤ 2) (hsize : size ≠ 0) :
    s.read size = (readLoop (size - s.prev.length)
      ⟨{ s with prev := s.prev.drop size }, size - s.prev.length, s.prev.take size⟩).map
        fun r => (r.stream, r.out) := by
  rw [read, if_neg hsize, loadPrev_spec s hlen hsize]
  exact (map_eq_bind (f := fun r : Reading => (r.stream, r.out))).symm

/-- **A read gives the bytes asked for, or all that remain.** -/
theorem read_spec (h : s.Remains data) (size : ℕ) :
    ∃ s', s.read size = some (s', data.take size) ∧ s'.Remains (data.drop size) := by
  by_cases hsize : size = 0
  · refine ⟨s, ?_, ?_⟩
    · rw [read, if_pos hsize, hsize, take_zero]
    · rwa [hsize, drop_zero]
  · obtain ⟨d, tail, rfl, hshows, hends⟩ := h.shows
    have hlen := h.length_le
    have hshows' : { s with prev := s.prev.drop size }.Shows (encode d ++ tail) :=
      ⟨hshows.tempCh_eq, hshows.rest_eq, hshows.good⟩
    rw [read_eq s hlen hsize]
    by_cases hle : size ≤ s.prev.length
    · -- the bytes kept are enough
      refine ⟨{ s with prev := s.prev.drop size }, ?_, ?_, d, tail, ?_, hshows', hends⟩
      · rw [take_append_of_le_length hle, readLoop_zero _ (Nat.sub_eq_zero_of_le hle)]
        rfl
      · rw [length_drop]
        omega
      · exact drop_append_of_le_length hle
    · have hdrop : s.prev.drop size = [] := drop_eq_nil_of_le (by omega)
      have htake : s.prev.take size = s.prev := take_of_length_le (by omega)
      rw [hdrop] at hshows'
      obtain ⟨r', hr', hout, hremains⟩ := readLoop_spec d
        (r := ⟨{ s with prev := [] }, size - s.prev.length, s.prev⟩) (le_refl _) rfl hshows'
        hends
      refine ⟨r'.stream, ?_, ?_⟩
      · rw [hdrop, htake, hr', map_some, hout, take_append, htake]
      · rw [drop_append, hdrop]
        exact hremains

end InStream

/-! ## The round trip -/

/-- What reads of some sizes give of a sequence of bytes: as many as asked for, until it ends. -/
def chop : List UInt8 → List ℕ → List (List UInt8)
  | _, [] => []
  | data, size :: sizes => data.take size :: chop (data.drop size) sizes

theorem flatten_chop (data : List UInt8) (sizes : List ℕ) :
    (chop data sizes).flatten = data.take sizes.sum := by
  induction sizes generalizing data with
  | nil => rw [chop, flatten_nil, sum_nil, take_zero]
  | cons size sizes ih =>
    rw [chop, flatten_cons, ih, sum_cons, take_add]

theorem readAll_spec (sizes : List ℕ) : ∀ {s : InStream} {data : List UInt8}, s.Remains data →
    ∃ s', readAll s sizes = some (s', chop data sizes) ∧ s'.Remains (data.drop sizes.sum) := by
  induction sizes with
  | nil =>
    intro s data h
    exact ⟨s, rfl, h⟩
  | cons size sizes ih =>
    intro s data h
    obtain ⟨s₁, hs₁, h₁⟩ := InStream.read_spec h size
    obtain ⟨s', hs', h'⟩ := ih h₁
    refine ⟨s', ?_, ?_⟩
    · simp [readAll, hs₁, hs', chop]
    · rwa [drop_drop] at h'

/-- `InitPosition` finds the end where only spaces are left. -/
theorem initPosition_spaces (tail : List Char) (htail : ∀ c ∈ tail, isspace c = true) :
    ∀ {s : InStream} {fuel : ℕ}, s.reader.rest = tail → s.reader.Good → s.prev = [] →
      tail.length < fuel → ∃ s', s.initPosition fuel = some s' ∧ s'.Remains [] := by
  induction tail with
  | nil =>
    intro s fuel hrest hgood hprev hfuel
    obtain ⟨fuel, rfl⟩ : ∃ k, fuel = k + 1 := ⟨fuel - 1, by omega⟩
    have hshows := InStream.Shows.of_rest hrest hgood
    have hnone : s.next.Shows (encode [] ++ []) := hshows
    refine ⟨s.next, ?_, hnone.remains hprev nofun⟩
    simp [InStream.initPosition, hshows.tempCh_eq]
  | cons c tail ih =>
    intro s fuel hrest hgood hprev hfuel
    obtain ⟨fuel, rfl⟩ : ∃ k, fuel = k + 1 := ⟨fuel - 1, by omega⟩
    have hshows := InStream.Shows.of_rest hrest hgood
    obtain ⟨s', hs', hremains⟩ := ih (forall_mem_cons.mp htail).2
      hshows.rest_eq hshows.good (show s.next.prev = [] from hprev)
      (show tail.length < fuel by rw [length_cons] at hfuel; omega)
    refine ⟨s', ?_, hremains⟩
    simp [InStream.initPosition, hshows.tempCh_eq, htail c mem_cons_self, hs']

theorem initPosition_spec (data : List UInt8) (tail : List Char)
    (htail : ∀ c ∈ tail, isspace c = true) {s : InStream} {fuel : ℕ}
    (hrest : s.reader.rest = encode data ++ tail) (hgood : s.reader.Good) (hprev : s.prev = [])
    (hfuel : tail.length < fuel) : ∃ s', s.initPosition fuel = some s' ∧ s'.Remains data := by
  cases data with
  | nil => exact initPosition_spaces tail htail hrest hgood hprev hfuel
  | cons b d =>
    obtain ⟨fuel, rfl⟩ : ∃ k, fuel = k + 1 := ⟨fuel - 1, by omega⟩
    have hshows := InStream.Shows.of_rest hrest hgood
    obtain ⟨cs, hcs⟩ := InStream.encode_cons b d
    have hspace := (encodeChar_spec (sextet₁ b.toNat) (sextet₁_lt b.toNat_lt)).1
    refine ⟨s.next, ?_, hshows.remains hprev fun c hc => htail c (mem_of_mem_head? hc)⟩
    simp [InStream.initPosition, hshows.tempCh_eq, hcs, hspace]

/-- A new input stream after `InitPosition`, over a stream that gives its characters in pieces. -/
def openStream (pieces : List (List Char)) : Option InStream :=
  (InStream.init pieces).initPosition (pieces.flatten.length + 1)

/-- **The base64 streams.**  However bytes are divided into writes, and however the characters
written are divided into pieces and read back in reads of any sizes: every read gives the bytes
asked for until they end, together the reads give the bytes written, and the stream is at its end
exactly when all of them have been read. -/
theorem readAll_encodeAll (writes : List (List UInt8)) (endch : Option Char)
    (hendch : ∀ c ∈ endch, isspace c = true) (pieces : List (List Char))
    (hpieces : pieces.flatten = encodeAll writes endch) (hne : ∀ piece ∈ pieces, piece ≠ [])
    (sizes : List ℕ) :
    ∃ s s', openStream pieces = some s ∧ readAll s sizes = some (s', chop writes.flatten sizes) ∧
      (chop writes.flatten sizes).flatten = writes.flatten.take sizes.sum ∧
      (s'.isEOF = true ↔ writes.flatten.length ≤ sizes.sum) := by
  rw [encodeAll_eq] at hpieces
  obtain ⟨s, hs, h⟩ := initPosition_spec writes.flatten endch.toList (by simpa using hendch)
    (s := InStream.init pieces) hpieces (Reader.good_init hne)
    rfl (show endch.toList.length < pieces.flatten.length + 1 by
      rw [hpieces, length_append]
      omega)
  obtain ⟨s', hs', h'⟩ := readAll_spec sizes h
  refine ⟨s, s', hs, hs', flatten_chop _ _, ?_⟩
  rw [h'.isEOF_iff, drop_eq_nil_iff]

/-- Three bytes in two writes, read back in two reads. -/
theorem readAll_encodeAll_three : ∃ s s', openStream [['A', 'Q'], ['I', 'D']] = some s ∧
      readAll s [2, 5] = some (s', [[1, 2], [3]]) ∧ s'.isEOF = true := by
  obtain ⟨s, s', hs, hs', -, heof⟩ := readAll_encodeAll [[1], [2, 3]] none (by simp)
    [['A', 'Q'], ['I', 'D']] (by decide) (by decide) [2, 5]
  exact ⟨s, s', hs, hs', heof.mpr (by decide)⟩

end Pruner.Support.Base64
