import Mathlib.Algebra.GroupWithZero.Nat
import Mathlib.Data.List.Basic
import Mathlib.Tactic.SplitIfs

/-!
# The ring buffer: slots, writer and reader

A `RingBuffer` is a vector of `n` slots. A slot has a header, the sequence number and the size of
the chunk it holds, and 56 bytes of data. The writer cuts a message into chunks and puts each into
the next slot; the sequence number `0` marks a slot that is empty or being written. A reader keeps
its own position and copies the slot it expects out of the buffer, loading the header before and
after the copy.

This file models whole calls: `RingBuffer.write`, and `RingBufferReader.readNext` with no writer
step in between. Assertions are compiled out, as in the release build; `RingBuffer.writeDebug` is
`write` with the assertion of `Slot::update`. The interleaving of the steps of both is
`Keryx.RingBuffer.Steps`.

The writer's `_current_sn`, `_current_slot` and the reader's `_expected_sn`, `_current_slot` are
both a `Position`, whose field `slot_lt` keeps every slot access within the vector.

## Main definitions

* `Slot.update`, `RingBuffer.write`, `RingBuffer.moveNext` — the writer.
* `RingBufferReader.readNext` — one call of `read_next`. Its loop has no bound of its own, so the
  model takes the number of passes it may make and returns `none` when they do not suffice.
* `RingBufferReader.ReadNext` — `read_next` returns.

Source: `src/lib/ring_buffer/ring_buffer.h`.
-/

namespace Keryx

/-- The bytes of a `std::string_view` or a `std::string`. -/
abbrev Bytes := List UInt8

/-- `sizeof(SlotData)`. -/
abbrev slotSize : ℕ := 56

/-- `SlotHeader`. -/
structure SlotHeader where
  sn : UInt32
  sz : UInt32
  deriving DecidableEq, Repr

/-- `SlotData`. -/
abbrev SlotData := Vector UInt8 slotSize

/-- The byte `i` of `d` moved to the byte `i` of the slot. -/
def SlotData.copyByte (data : SlotData) (d : Bytes) (i : ℕ) : SlotData :=
  data.setIfInBounds i (d.getD i 0)

/-- `memcpy(&_data[0], d.data(), d.size())`. -/
def SlotData.memcpy (data : SlotData) (d : Bytes) : SlotData :=
  (List.range d.length).foldl (fun data i => data.copyByte d i) data

/-- `Slot`. -/
structure Slot where
  header : SlotHeader
  data : SlotData
  deriving DecidableEq, Repr

namespace Slot

/-- The constructor `Slot()`. -/
def empty : Slot := ⟨⟨0, 0⟩, Vector.replicate slotSize 0⟩

/-- `Slot::update`: the header is cleared, the bytes are copied, the header is set.

Source: `ring_buffer.h`, lines 30–36. -/
def update (s : Slot) (d : Bytes) (sn : UInt32) : Slot :=
  let s : Slot := { s with header := ⟨0, 0⟩ }
  let s : Slot := { s with data := s.data.memcpy d }
  { s with header := ⟨sn, UInt32.ofNat d.length⟩ }

end Slot

/-- A position in a ring of `n` slots: a sequence number and a slot of the ring. -/
structure Position (n : ℕ) where
  sn : UInt32
  slot : UInt32
  slot_lt : slot.toNat < n

namespace Position

variable {n : ℕ}

/-- The slot of a position as an index of the vector of slots. -/
def index (p : Position n) : Fin n := ⟨p.slot.toNat, p.slot_lt⟩

/-- Where both the writer and a reader start: sequence number `1`, slot `0`. -/
def start [NeZero n] : Position n := ⟨1, 0, Nat.pos_of_neZero n⟩

private theorem moveNext_lt (p : Position n) :
    (if (p.slot + 1).toNat = n then 0 else p.slot + 1).toNat < n := by
  have hlt := p.slot_lt
  have hadd : (p.slot + 1).toNat = (p.slot.toNat + 1) % 2 ^ 32 := by simp [UInt32.toNat_add]
  have hmod := Nat.mod_le (p.slot.toNat + 1) (2 ^ 32)
  split_ifs with h
  · simp only [UInt32.toNat_zero]
    omega
  · omega

/-- `move_next`: both counters advance, the slot index starting over at the end of the vector.

Source: `ring_buffer.h`, lines 77–82 (`RingBuffer`) and 156–162 (`RingBufferReader`). -/
def moveNext (p : Position n) : Position n where
  sn := p.sn + 1
  slot := if (p.slot + 1).toNat = n then 0 else p.slot + 1
  slot_lt := p.moveNext_lt

end Position

/-- `WriteResult`. -/
inductive WriteResult where
  | ok
  | msgTooBig
  | emptyMsg
  deriving DecidableEq, Repr

/-- `RingBuffer` with `n` slots; `pos` is `_current_sn` and `_current_slot`. -/
structure RingBuffer (n : ℕ) where
  pos : Position n
  slots : Vector Slot n

namespace RingBuffer

variable {n : ℕ}

/-- The constructor `RingBuffer(n)`. -/
def init (n : ℕ) [NeZero n] : RingBuffer n := ⟨.start, Vector.replicate n .empty⟩

/-- The slot the writer is at. -/
def cslot (b : RingBuffer n) : Slot := b.slots.get b.pos.index

/-- The slot the writer is at, replaced by `s`. -/
def setCslot (b : RingBuffer n) (s : Slot) : RingBuffer n :=
  { b with slots := b.slots.set b.pos.index s }

/-- `RingBuffer::move_next`. -/
def moveNext (b : RingBuffer n) : RingBuffer n := { b with pos := b.pos.moveNext }

/-- The body of the loop of `write` for the chunk `d`: update the current slot and move on. -/
def put (b : RingBuffer n) (d : Bytes) : RingBuffer n :=
  (b.setCslot (b.cslot.update d b.pos.sn)).moveNext

/-- The bytes of the message that the next pass of the loop of `write` puts into a slot. -/
def nextChunk (sview : Bytes) (currentByte : ℕ) : Bytes :=
  let remaining := sview.length - currentByte
  let toWrite := min slotSize remaining
  (sview.drop currentByte).take toWrite

theorem length_nextChunk {sview : Bytes} {currentByte : ℕ} (hle : currentByte ≤ sview.length)
    (hne : currentByte ≠ sview.length) :
    (0 < (nextChunk sview currentByte).length ∧
      (nextChunk sview currentByte).length ≤ slotSize) ∧
      currentByte + (nextChunk sview currentByte).length ≤ sview.length := by
  simp only [nextChunk, List.length_take, List.length_drop, slotSize]
  omega

/-- The `while` loop of `write` from the byte `currentByte` on. -/
def writeLoop (sview : Bytes) (b : RingBuffer n) (currentByte : ℕ)
    (h : currentByte ≤ sview.length) : RingBuffer n :=
  if hend : currentByte = sview.length then b
  else
    let d := nextChunk sview currentByte
    writeLoop sview (b.put d) (currentByte + d.length) (length_nextChunk h hend).2
termination_by sview.length - currentByte
decreasing_by
  have := length_nextChunk h hend
  omega

/-- `RingBuffer::write`.

Source: `ring_buffer.h`, lines 57–74. -/
def write (b : RingBuffer n) (sview : Bytes) : WriteResult × RingBuffer n :=
  if sview.length > n * slotSize then (.msgTooBig, b)
  else if sview.isEmpty then (.emptyMsg, b)
  else (.ok, b.writeLoop sview 0 (Nat.zero_le _))

/-- The arguments of the calls of `Slot::update` that the loop of `write` makes from the byte
`currentByte` on, in order. -/
def updateLoop (sview : Bytes) (b : RingBuffer n) (currentByte : ℕ)
    (h : currentByte ≤ sview.length) : List (Bytes × UInt32) :=
  if hend : currentByte = sview.length then []
  else
    let d := nextChunk sview currentByte
    (d, b.pos.sn) ::
      updateLoop sview (b.put d) (currentByte + d.length) (length_nextChunk h hend).2
termination_by sview.length - currentByte
decreasing_by
  have := length_nextChunk h hend
  omega

/-- The arguments of the calls of `Slot::update` that `write` makes, in order. -/
def updates (b : RingBuffer n) (sview : Bytes) : List (Bytes × UInt32) :=
  if sview.length > n * slotSize then []
  else if sview.isEmpty then []
  else b.updateLoop sview 0 (Nat.zero_le _)

/-- The loop of `write` from the byte `currentByte` on, in a build with assertions: `none` when
`Slot::update` is given a chunk for which `d.size() < sizeof(SlotData)` does not hold. -/
def writeLoopDebug (sview : Bytes) (b : RingBuffer n) (currentByte : ℕ)
    (h : currentByte ≤ sview.length) : Option (RingBuffer n) :=
  if hend : currentByte = sview.length then some b
  else
    let d := nextChunk sview currentByte
    if d.length < slotSize then
      writeLoopDebug sview (b.put d) (currentByte + d.length) (length_nextChunk h hend).2
    else none
termination_by sview.length - currentByte
decreasing_by
  have := length_nextChunk h hend
  omega

/-- `RingBuffer::write` of a build with assertions: `none` when it aborts.

Source: `ring_buffer.h`, lines 30–36 and 57–74. -/
def writeDebug (b : RingBuffer n) (sview : Bytes) : Option (WriteResult × RingBuffer n) :=
  if sview.length > n * slotSize then some (.msgTooBig, b)
  else if sview.isEmpty then some (.emptyMsg, b)
  else (b.writeLoopDebug sview 0 (Nat.zero_le _)).map fun b' => (.ok, b')

end RingBuffer

/-- `ReadResult::Result`. -/
inductive ReadResult.Result where
  | ok
  | noData
  | loss
  deriving DecidableEq, Repr

/-- `ReadResult`. -/
structure ReadResult where
  result : ReadResult.Result
  data : Bytes
  deriving DecidableEq, Repr

namespace ReadResult

/-- The number of bytes that `append` copies: a size of `0` stands for a full slot. -/
def appendSize (sz : UInt32) : ℕ := if sz ≠ 0 then sz.toNat else slotSize

/-- `ReadResult::append`.

Source: `ring_buffer.h`, lines 98–103. -/
def append (r : ReadResult) (data : SlotData) (sz : UInt32) : ReadResult :=
  { r with data := r.data ++ data.toList.take (appendSize sz) }

/-- `ReadResult::clear`. -/
def clear (r : ReadResult) : ReadResult := { r with data := [] }

/-- `ReadResult::set_result`. -/
def setResult (r : ReadResult) (res : Result) : ReadResult := { r with result := res }

end ReadResult

/-- `RingBufferReader`; `pos` is `_expected_sn` and `_current_slot`. -/
structure RingBufferReader (n : ℕ) where
  pos : Position n
  result : ReadResult

namespace RingBufferReader

variable {n : ℕ}

/-- The constructor of `RingBufferReader`. It leaves the enumerator of `_result` unset; every
`read_next` sets it before it returns. -/
def init (n : ℕ) [NeZero n] : RingBufferReader n := ⟨.start, ⟨.noData, []⟩⟩

/-- `read_next` leaves the loop with the result `res`. -/
def finish (r : RingBufferReader n) (res : ReadResult.Result) : RingBufferReader n :=
  { r with result := r.result.setResult res }

/-- The loop of `read_next`, for at most the given number of passes, `w` being `w_esn` and `w_cs`.

Source: `ring_buffer.h`, lines 121–150. -/
def readLoop (slots : Vector Slot n) :
    ℕ → RingBufferReader n → Position n → Option (RingBufferReader n)
  | 0, _, _ => none
  | fuel + 1, r, w =>
    let cslot := slots.get r.pos.index
    let h := cslot.header
    if h.sn = 0 then some (r.finish .noData)
    else if h.sn ≠ r.pos.sn then some (r.finish .loss)
    else
      let r : RingBufferReader n := { r with result := r.result.append cslot.data h.sz }
      let w := w.moveNext
      let hNow := cslot.header
      if h.sn ≠ hNow.sn then some (r.finish .loss)
      else if hNow.sz ≠ 0 then some { r.finish .ok with pos := w }
      else readLoop slots fuel r w

/-- `RingBufferReader::read_next`, allowed at most `fuel` passes of its loop.

Source: `ring_buffer.h`, lines 116–153. -/
def readNext (slots : Vector Slot n) (fuel : ℕ) (r : RingBufferReader n) :
    Option (RingBufferReader n) :=
  readLoop slots fuel { r with result := r.result.clear } r.pos

/-- `read_next` called on `r` returns and leaves the reader as `r'`. -/
def ReadNext (slots : Vector Slot n) (r r' : RingBufferReader n) : Prop :=
  ∃ fuel, readNext slots fuel r = some r'

/-- Consecutive calls of `read_next` on `r` return the results `outs` and leave the reader as
`r'`. -/
inductive Reads (slots : Vector Slot n) :
    RingBufferReader n → List ReadResult → RingBufferReader n → Prop
  | nil (r : RingBufferReader n) : Reads slots r [] r
  | cons {r r₁ r' : RingBufferReader n} {outs : List ReadResult} (h : ReadNext slots r r₁)
      (hs : Reads slots r₁ outs r') : Reads slots r (r₁.result :: outs) r'

end RingBufferReader

end Keryx
