import Keryx.RingBuffer.Contents
import Keryx.Lib.Run
import Mathlib.Logic.Function.Basic

/-!
# Writer and readers interleaved

One writer and any number of readers share the slots of a ring. Each store or load of a header, and
each byte moved by the `memcpy` of `Slot::update` or by the copy of `ReadResult::append`, is one
step, and the steps of the writer and of the readers interleave arbitrarily. The order in which the
bytes of one copy are moved is not fixed. What a thread does between two accesses to the slots is
part of the step before it: neither `_current_sn` nor `_current_slot` is read by another thread.

Each label can happen at one place of its thread only. The cases are listed here once, with what the
thread has found there and its state after the step.

## Main definitions

* `Interleaving.WriterPc`, `Interleaving.ReaderPc` — where a thread stands in its call.
* `Interleaving.writerStep`, `Interleaving.readerStep`, `Interleaving.step` — the steps.
* `Interleaving.WriterEffect`, `Interleaving.ReaderEffect` — what a step does.

## Main results

* `Interleaving.writerEffect_of_step`, `Interleaving.readerEffect_of_step` — every step is one of
  these.

Source: `src/lib/ring_buffer/ring_buffer.h`, lines 23–41, 57–82, 98–103 and 116–162.
-/

namespace Keryx.Interleaving

variable {n : ℕ} {ι : Type*}

/-! ### Threads and their steps -/

/-- Where the writer stands in `RingBuffer::write`. -/
inductive WriterPc where
  /-- Outside `write`. -/
  | idle
  /-- At the head of the `while` loop. -/
  | looping (sview : Bytes) (currentByte : ℕ)
  /-- In `Slot::update` with the chunk `d`, the bytes `todo` not yet copied. -/
  | copying (sview : Bytes) (currentByte : ℕ) (d : Bytes) (todo : List ℕ)

/-- The writer, with the chunks it has passed to `Slot::update` so far. -/
structure WriterThread where
  pc : WriterPc
  chunks : List Bytes

/-- Where a reader stands in `RingBufferReader::read_next`; `w` is `w_esn` and `w_cs`. -/
inductive ReaderPc (n : ℕ) where
  /-- Outside `read_next`. -/
  | idle
  /-- At the head of the `for` loop. -/
  | looping (w : Position n)
  /-- In `ReadResult::append` after loading the header `h`, the bytes `todo` of `frag` not yet
  copied. -/
  | copying (w : Position n) (h : SlotHeader) (frag : Bytes) (todo : List ℕ)

/-- A reader, with the results that its calls of `read_next` have returned so far. -/
structure ReaderThread (n : ℕ) where
  reader : RingBufferReader n
  pc : ReaderPc n
  returned : List ReadResult

inductive WriterLabel where
  /-- `write` is called. -/
  | call (sview : Bytes)
  /-- `_header.store(SlotHeader{0, 0})`. -/
  | storeEmpty
  /-- A byte of the chunk is copied into the slot. -/
  | copyByte (i : ℕ)
  /-- `_header.store(SlotHeader{sn, d.size()})`, followed by `move_next`. -/
  | storeHeader
  /-- `write` returns. -/
  | ret

inductive ReaderLabel where
  /-- A new reader is constructed. -/
  | construct
  /-- `read_next` is called. -/
  | call
  /-- `h = cslot.header()`. -/
  | loadHeader
  /-- A byte of the slot is copied into the result. -/
  | copyByte (i : ℕ)
  /-- `h_now = cslot.header()`. -/
  | reloadHeader

inductive Label (ι : Type*) where
  | writer (l : WriterLabel)
  | reader (r : ι) (l : ReaderLabel)

structure State (n : ℕ) (ι : Type*) where
  buf : RingBuffer n
  writer : WriterThread
  readers : ι → ReaderThread n

/-- A step of the writer.

Source: `ring_buffer.h`, lines 30–36 and 57–74. -/
def writerStep (b : RingBuffer n) (t : WriterThread) :
    WriterLabel → Option (RingBuffer n × WriterThread)
  | .call sview =>
    match t.pc with
    | .idle =>
      if sview.length > n * slotSize then some (b, t)
      else if sview.isEmpty then some (b, t)
      else some (b, { t with pc := .looping sview 0 })
    | _ => none
  | .storeEmpty =>
    match t.pc with
    | .looping sview currentByte =>
      if currentByte = sview.length then none
      else
        let d := RingBuffer.nextChunk sview currentByte
        some (b.setCslot { b.cslot with header := ⟨0, 0⟩ },
          ⟨.copying sview currentByte d (List.range d.length), t.chunks ++ [d]⟩)
    | _ => none
  | .copyByte i =>
    match t.pc with
    | .copying sview currentByte d todo =>
      if i ∈ todo then
        some (b.setCslot { b.cslot with data := b.cslot.data.copyByte d i },
          { t with pc := .copying sview currentByte d (todo.erase i) })
      else none
    | _ => none
  | .storeHeader =>
    match t.pc with
    | .copying sview currentByte d [] =>
      some ((b.setCslot { b.cslot with header := ⟨b.pos.sn, UInt32.ofNat d.length⟩ }).moveNext,
        { t with pc := .looping sview (currentByte + d.length) })
    | _ => none
  | .ret =>
    match t.pc with
    | .looping sview currentByte =>
      if currentByte = sview.length then some (b, { t with pc := .idle }) else none
    | _ => none

/-- `read_next` returns, leaving the reader as `r`. -/
def ReaderThread.ret (t : ReaderThread n) (r : RingBufferReader n) : ReaderThread n :=
  ⟨r, .idle, t.returned ++ [r.result]⟩

/-- `ReadResult::append` begins, with the size in the header `h`. -/
def ReaderThread.append (t : ReaderThread n) (w : Position n) (h : SlotHeader) :
    ReaderThread n :=
  let size := ReadResult.appendSize h.sz
  { t with pc := .copying w h (List.replicate size 0) (List.range size) }

/-- A step of a reader.

Source: `ring_buffer.h`, lines 98–103 and 116–153. -/
def readerStep [NeZero n] (slots : Vector Slot n) (t : ReaderThread n) :
    ReaderLabel → Option (ReaderThread n)
  | .construct =>
    match t.pc with
    | .idle => some ⟨.init n, .idle, []⟩
    | _ => none
  | .call =>
    match t.pc with
    | .idle => some { t with
        reader := { t.reader with result := t.reader.result.clear }
        pc := .looping t.reader.pos }
    | _ => none
  | .loadHeader =>
    match t.pc with
    | .looping w =>
      let h := (slots.get t.reader.pos.index).header
      if h.sn = 0 then some (t.ret (t.reader.finish .noData))
      else if h.sn ≠ t.reader.pos.sn then some (t.ret (t.reader.finish .loss))
      else some (t.append w h)
    | _ => none
  | .copyByte i =>
    match t.pc with
    | .copying w h frag todo =>
      if i ∈ todo then
        let byte := (slots.get t.reader.pos.index).data.toList.getD i 0
        some { t with pc := .copying w h (frag.set i byte) (todo.erase i) }
      else none
    | _ => none
  | .reloadHeader =>
    match t.pc with
    | .copying w h frag [] =>
      let r : RingBufferReader n :=
        { t.reader with result := { t.reader.result with data := t.reader.result.data ++ frag } }
      let w := w.moveNext
      let hNow := (slots.get t.reader.pos.index).header
      if h.sn ≠ hNow.sn then some (t.ret (r.finish .loss))
      else if hNow.sz ≠ 0 then some (t.ret { r.finish .ok with pos := w })
      else some { t with reader := r, pc := .looping w }
    | _ => none

/-- A step of the writer or of one of the readers. -/
def step [NeZero n] [DecidableEq ι] (s : State n ι) : Label ι → Option (State n ι)
  | .writer l => (writerStep s.buf s.writer l).map fun p => { s with buf := p.1, writer := p.2 }
  | .reader r l => (readerStep s.buf.slots (s.readers r) l).map fun t =>
      { s with readers := Function.update s.readers r t }

/-- A fresh buffer, nothing written, and readers that have read nothing. -/
def init (n : ℕ) (ι : Type*) [NeZero n] : State n ι :=
  ⟨.init n, ⟨.idle, []⟩, fun _ => ⟨.init n, .idle, []⟩⟩

/-! ### What a step does -/

/-- What a step of the writer does. -/
inductive WriterEffect (b : RingBuffer n) (t : WriterThread) :
    WriterLabel → RingBuffer n → WriterThread → Prop
  /-- A message that is too long or empty is rejected. -/
  | reject {sview} (hpc : t.pc = .idle)
      (hreject : sview.length > n * slotSize ∨ sview.isEmpty) :
      WriterEffect b t (.call sview) b t
  | accept {sview} (hpc : t.pc = .idle) (hle : ¬ sview.length > n * slotSize)
      (hne : ¬ sview.isEmpty) :
      WriterEffect b t (.call sview) b { t with pc := .looping sview 0 }
  | storeEmpty {sview currentByte d} (hpc : t.pc = .looping sview currentByte)
      (hend : currentByte ≠ sview.length) (hd : d = RingBuffer.nextChunk sview currentByte) :
      WriterEffect b t .storeEmpty (b.setCslot { b.cslot with header := ⟨0, 0⟩ })
        ⟨.copying sview currentByte d (List.range d.length), t.chunks ++ [d]⟩
  | copyByte {sview currentByte d todo i} (hpc : t.pc = .copying sview currentByte d todo)
      (hi : i ∈ todo) :
      WriterEffect b t (.copyByte i)
        (b.setCslot { b.cslot with data := b.cslot.data.copyByte d i })
        { t with pc := .copying sview currentByte d (todo.erase i) }
  | storeHeader {sview currentByte d} (hpc : t.pc = .copying sview currentByte d []) :
      WriterEffect b t .storeHeader
        (b.setCslot { b.cslot with header := ⟨b.pos.sn, UInt32.ofNat d.length⟩ }).moveNext
        { t with pc := .looping sview (currentByte + d.length) }
  | ret {sview} (hpc : t.pc = .looping sview sview.length) :
      WriterEffect b t .ret b { t with pc := .idle }

theorem writerEffect_of_step {b b' : RingBuffer n} {t t' : WriterThread} {l : WriterLabel}
    (h : writerStep b t l = some (b', t')) : WriterEffect b t l b' t' := by
  cases l with
  | call sview =>
    cases hpc : t.pc with
    | idle =>
      simp only [writerStep, hpc] at h
      split_ifs at h with hbig hempty
      · cases h
        exact .reject hpc (.inl hbig)
      · cases h
        exact .reject hpc (.inr hempty)
      · cases h
        exact .accept hpc hbig hempty
    | looping | copying => simp [writerStep, hpc] at h
  | storeEmpty =>
    cases hpc : t.pc with
    | looping sview currentByte =>
      simp only [writerStep, hpc] at h
      split_ifs at h with hend
      cases h
      exact .storeEmpty hpc hend rfl
    | idle | copying => simp [writerStep, hpc] at h
  | copyByte i =>
    cases hpc : t.pc with
    | copying sview currentByte d todo =>
      simp only [writerStep, hpc] at h
      split_ifs at h with hi
      cases h
      exact .copyByte hpc hi
    | idle | looping => simp [writerStep, hpc] at h
  | storeHeader =>
    cases hpc : t.pc with
    | copying sview currentByte d todo =>
      cases todo with
      | nil =>
        simp only [writerStep, hpc] at h
        cases h
        exact .storeHeader hpc
      | cons => simp [writerStep, hpc] at h
    | idle | looping => simp [writerStep, hpc] at h
  | ret =>
    cases hpc : t.pc with
    | looping sview currentByte =>
      simp only [writerStep, hpc] at h
      split_ifs at h with hend
      cases h
      exact .ret (hend ▸ hpc)
    | idle | copying => simp [writerStep, hpc] at h

/-- What a step of a reader does. -/
inductive ReaderEffect [NeZero n] (slots : Vector Slot n) (t : ReaderThread n) :
    ReaderLabel → ReaderThread n → Prop
  | construct (hpc : t.pc = .idle) : ReaderEffect slots t .construct ⟨.init n, .idle, []⟩
  | call (hpc : t.pc = .idle) :
      ReaderEffect slots t .call { t with
        reader := { t.reader with result := t.reader.result.clear }
        pc := .looping t.reader.pos }
  /-- The first load shows the sequence number `0`. -/
  | noData {w} (hpc : t.pc = .looping w)
      (h0 : (slots.get t.reader.pos.index).header.sn = 0) :
      ReaderEffect slots t .loadHeader (t.ret (t.reader.finish .noData))
  /-- The first load shows the sequence number of another chunk. -/
  | loss {w} (hpc : t.pc = .looping w) (h0 : (slots.get t.reader.pos.index).header.sn ≠ 0)
      (hsn : (slots.get t.reader.pos.index).header.sn ≠ t.reader.pos.sn) :
      ReaderEffect slots t .loadHeader (t.ret (t.reader.finish .loss))
  | append {w h} (hpc : t.pc = .looping w) (hh : h = (slots.get t.reader.pos.index).header)
      (h0 : h.sn ≠ 0) (hsn : h.sn = t.reader.pos.sn) :
      ReaderEffect slots t .loadHeader (t.append w h)
  | copyByte {w h frag todo i byte} (hpc : t.pc = .copying w h frag todo) (hi : i ∈ todo)
      (hbyte : byte = (slots.get t.reader.pos.index).data.toList.getD i 0) :
      ReaderEffect slots t (.copyByte i)
        { t with pc := .copying w h (frag.set i byte) (todo.erase i) }
  /-- The second load shows that the slot has been written to. -/
  | overtaken {w h frag} {r : RingBufferReader n} (hpc : t.pc = .copying w h frag [])
      (hr : r = { t.reader with
        result := { t.reader.result with data := t.reader.result.data ++ frag } })
      (hsn : h.sn ≠ (slots.get t.reader.pos.index).header.sn) :
      ReaderEffect slots t .reloadHeader (t.ret (r.finish .loss))
  | deliver {w h frag} (hpc : t.pc = .copying w h frag [])
      (hsn : h.sn = (slots.get t.reader.pos.index).header.sn)
      (hsz : (slots.get t.reader.pos.index).header.sz ≠ 0) :
      ReaderEffect slots t .reloadHeader
        (t.ret ⟨w.moveNext, ⟨.ok, t.reader.result.data ++ frag⟩⟩)
  /-- The second load shows the size `0`, and the loop goes round. -/
  | again {w h frag} {r : RingBufferReader n} (hpc : t.pc = .copying w h frag [])
      (hr : r = { t.reader with
        result := { t.reader.result with data := t.reader.result.data ++ frag } })
      (hsn : h.sn = (slots.get t.reader.pos.index).header.sn)
      (hsz : (slots.get t.reader.pos.index).header.sz = 0) :
      ReaderEffect slots t .reloadHeader { t with reader := r, pc := .looping w.moveNext }

theorem readerEffect_of_step [NeZero n] {slots : Vector Slot n} {t t' : ReaderThread n}
    {l : ReaderLabel} (h : readerStep slots t l = some t') : ReaderEffect slots t l t' := by
  cases l with
  | construct =>
    cases hpc : t.pc with
    | idle =>
      simp only [readerStep, hpc] at h
      cases h
      exact .construct hpc
    | looping | copying => simp [readerStep, hpc] at h
  | call =>
    cases hpc : t.pc with
    | idle =>
      simp only [readerStep, hpc] at h
      cases h
      exact .call hpc
    | looping | copying => simp [readerStep, hpc] at h
  | loadHeader =>
    cases hpc : t.pc with
    | looping w =>
      simp only [readerStep, hpc] at h
      split_ifs at h with h0 hsn
      · cases h
        exact .noData hpc h0
      · cases h
        exact .loss hpc h0 hsn
      · cases h
        exact .append hpc rfl h0 (not_not.mp hsn)
    | idle | copying => simp [readerStep, hpc] at h
  | copyByte i =>
    cases hpc : t.pc with
    | copying w hdr frag todo =>
      simp only [readerStep, hpc] at h
      split_ifs at h with hi
      cases h
      exact .copyByte hpc hi rfl
    | idle | looping => simp [readerStep, hpc] at h
  | reloadHeader =>
    cases hpc : t.pc with
    | copying w hdr frag todo =>
      cases todo with
      | nil =>
        simp only [readerStep, hpc] at h
        split_ifs at h with hsn hsz
        · cases h
          exact .overtaken hpc rfl hsn
        · cases h
          exact .deliver hpc (not_not.mp hsn) hsz
        · cases h
          exact .again hpc rfl (not_not.mp hsn) (not_not.mp hsz)
      | cons => simp [readerStep, hpc] at h
    | idle | looping => simp [readerStep, hpc] at h

end Keryx.Interleaving
