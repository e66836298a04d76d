import Keryx.RingBuffer.Steps

/-!
# What a reader is given under any interleaving

The slots are described at every moment by the chunks that have been begun and finished. A reader
that is given a chunk has found the same header before and after its copy, so what it has copied in
between is that chunk: the first chunks arrive, in order and byte for byte.

## Main definitions

* `Interleaving.WriterOk`, `Interleaving.ReaderOk` — the invariants of the threads.

## Main results

* `Interleaving.WriterOk.step`, `Interleaving.ReaderOk.step` — one step of the writer or of a
  reader.
* `Interleaving.ok_reads_prefix_chunks` — what a reader has been given with the result `OK` is, in
  order and byte for byte, what was written first.

Source: `src/lib/ring_buffer/ring_buffer.h`, lines 23–41, 57–82 and 116–162.
-/

namespace Keryx.Interleaving

open Transition

variable {n : ℕ} {ι : Type*}

/-! ### The writer -/

section Writer

variable [NeZero n]

/-- The number of chunks whose update is finished. -/
def WriterThread.finished (t : WriterThread) : ℕ :=
  match t.pc with
  | .copying .. => t.chunks.length - 1
  | _ => t.chunks.length

/-- The update with the chunk `d`, the last one of `chunks`, is in progress: its slot is marked as
being written, and the bytes outside `todo` are copied. -/
structure Updating (b : RingBuffer n) (chunks : List Bytes) (d : Bytes) (todo : List ℕ) :
    Prop where
  pos : b.pos.IsAt (chunks.length - 1)
  slots : SlotsOk chunks (chunks.length - 1) b.slots
  last : chunks[chunks.length - 1]? = some d
  copied : ∀ i < d.length, i ∉ todo → b.cslot.data.Copied d i

/-- The invariant of the writer. -/
def WriterOk (b : RingBuffer n) (t : WriterThread) : Prop :=
  match t.pc with
  | .idle => b.Settled t.chunks
  | .looping sview currentByte => currentByte ≤ sview.length ∧ b.Settled t.chunks
  | .copying sview currentByte d todo =>
    currentByte + d.length ≤ sview.length ∧ Updating b t.chunks d todo

theorem WriterOk.slotsOk {b : RingBuffer n} {t : WriterThread} (h : WriterOk b t) :
    SlotsOk t.chunks t.finished b.slots := by
  obtain ⟨pc, chunks⟩ := t
  cases pc with
  | idle => exact h.slots
  | looping sview currentByte => exact h.2.slots
  | copying sview currentByte d todo => exact h.2.slots

theorem Updating.of_settled {b : RingBuffer n} {chunks : List Bytes} (h : b.Settled chunks)
    {d : Bytes} (hd : 0 < d.length ∧ d.length ≤ slotSize) :
    Updating (b.setCslot { b.cslot with header := ⟨0, 0⟩ }) (chunks ++ [d]) d
      (List.range d.length) where
  pos := by simpa using h.pos
  slots := by
    rw [RingBuffer.slots_setCslot h.pos]
    simpa using h.slots.begin hd rfl
  last := by simp
  copied i hi hi' := absurd (List.mem_range.mpr hi) hi'

theorem Updating.length_pos {b : RingBuffer n} {chunks : List Bytes} {d : Bytes} {todo : List ℕ}
    (h : Updating b chunks d todo) : 0 < chunks.length := by
  have := (List.getElem?_eq_some_iff.mp h.last).1
  omega

theorem Updating.header_cslot {b : RingBuffer n} {chunks : List Bytes} {d : Bytes}
    {todo : List ℕ} (h : Updating b chunks d todo) : b.cslot.header = ⟨0, 0⟩ := by
  rw [RingBuffer.cslot_eq h.pos]
  exact h.slots.busy (Nat.sub_one_lt_of_lt h.length_pos)

theorem Updating.copyByte {b : RingBuffer n} {chunks : List Bytes} {d : Bytes} {todo : List ℕ}
    (h : Updating b chunks d todo) (i : ℕ) :
    Updating (b.setCslot { b.cslot with data := b.cslot.data.copyByte d i }) chunks d
      (todo.erase i) where
  pos := h.pos
  slots := by
    rw [RingBuffer.slots_setCslot h.pos]
    exact h.slots.copy (Nat.sub_one_lt_of_lt h.length_pos) h.header_cslot
  last := h.last
  copied j hj hj' := by
    rw [RingBuffer.cslot_setCslot]
    by_cases hij : i = j
    · subst hij
      have hd := h.slots.sizes d (List.mem_of_getElem? h.last)
      exact SlotData.copied_copyByte hd.2 _ hj
    · refine (h.copied j hj fun hmem => hj' ?_).copyByte hij
      exact (List.mem_erase_of_ne (Ne.symm hij)).mpr hmem

theorem Updating.storeHeader (hn : n < 2 ^ 32) {b : RingBuffer n} {chunks : List Bytes}
    {d : Bytes} (h : Updating b chunks d []) :
    (b.setCslot { b.cslot with header := ⟨b.pos.sn, UInt32.ofNat d.length⟩ }).moveNext.Settled
      chunks := by
  have hlen : chunks.length - 1 + 1 = chunks.length := Nat.sub_add_cancel h.length_pos
  refine ⟨?_, ?_⟩
  · have hpos := Position.IsAt.moveNext hn h.pos
    rwa [hlen] at hpos
  · change SlotsOk chunks chunks.length (b.setCslot _).slots
    rw [RingBuffer.slots_setCslot h.pos]
    have hfin := h.slots.finish h.last (s := ⟨⟨b.pos.sn, UInt32.ofNat d.length⟩, b.cslot.data⟩)
      ⟨by rw [h.pos.1],
        SlotData.prefix_of_copied fun i hi => h.copied i hi List.not_mem_nil⟩
    rwa [hlen] at hfin

/-- **One step of the writer.** The invariant is kept, chunks are only added, and finished chunks
stay finished. -/
theorem WriterOk.step (hn : n < 2 ^ 32) {b b' : RingBuffer n} {t t' : WriterThread}
    {l : WriterLabel} (h : WriterOk b t) (hs : writerStep b t l = some (b', t')) :
    WriterOk b' t' ∧ t.chunks <+: t'.chunks ∧ t.finished ≤ t'.finished := by
  obtain ⟨pc, chunks⟩ := t
  cases writerEffect_of_step hs with
  | reject => exact ⟨h, List.prefix_rfl, le_rfl⟩
  | accept hpc =>
    cases hpc
    exact ⟨⟨Nat.zero_le _, h⟩, List.prefix_rfl, le_rfl⟩
  | storeEmpty hpc hend hd =>
    cases hpc
    obtain ⟨hlength, hle⟩ := RingBuffer.length_nextChunk h.1 hend
    rw [← hd] at hlength hle
    exact ⟨⟨hle, Updating.of_settled h.2 hlength⟩, List.prefix_append ..,
      by simp [WriterThread.finished]⟩
  | copyByte hpc =>
    cases hpc
    exact ⟨⟨h.1, h.2.copyByte _⟩, List.prefix_rfl, le_rfl⟩
  | storeHeader hpc =>
    cases hpc
    exact ⟨⟨h.1, h.2.storeHeader hn⟩, List.prefix_rfl, Nat.sub_le ..⟩
  | ret hpc =>
    cases hpc
    exact ⟨h.2, List.prefix_rfl, le_rfl⟩

end Writer

/-! ### A reader -/

section Reader

variable [NeZero n]

/-- The data returned with the result `OK`, in order. -/
def okData (returned : List ReadResult) : List Bytes :=
  (returned.filter fun r => r.result = .ok).map ReadResult.data

@[simp] theorem okData_append_ok (rs : List ReadResult) (d : Bytes) :
    okData (rs ++ [⟨.ok, d⟩]) = okData rs ++ [d] := by
  simp [okData]

theorem okData_append_of_ne (rs : List ReadResult) {r : ReadResult} (h : r.result ≠ .ok) :
    okData (rs ++ [r]) = okData rs := by
  simp [okData, h]

/-- The reader has found the header of the chunk `e`, which is `d`, and copied the bytes outside
`todo`. What it copied is right as long as the slot has not begun to be overwritten; afterwards it
may be anything. -/
structure Fragment (n : ℕ) (chunks : List Bytes) (V e : ℕ) (h : SlotHeader) (frag : Bytes)
    (todo : List ℕ) (d : Bytes) : Prop where
  chunk : chunks[e]? = some d
  lt : e < V
  header : h = ⟨UInt32.ofNat (e + 1), UInt32.ofNat d.length⟩
  length_eq : frag.length = d.length
  copied : chunks.length ≤ e + n → ∀ i < d.length, i ∉ todo → frag[i]? = d[i]?

/-- The invariant of a reader that has been given `e` chunks. -/
def ReaderOkAt (chunks : List Bytes) (V : ℕ) (t : ReaderThread n) (e : ℕ) : Prop :=
  e ≤ V ∧ t.reader.pos.IsAt e ∧ okData t.returned = chunks.take e ∧
    match t.pc with
    | .idle => True
    | .looping w => w.IsAt e ∧ t.reader.result.data = []
    | .copying w h frag todo =>
      w.IsAt e ∧ t.reader.result.data = [] ∧ ∃ d, Fragment n chunks V e h frag todo d

/-- The invariant of a reader. -/
def ReaderOk (chunks : List Bytes) (V : ℕ) (t : ReaderThread n) : Prop :=
  ∃ e, ReaderOkAt chunks V t e

variable {chunks chunks' : List Bytes} {V V' : ℕ} {slots : Vector Slot n}

theorem readerOk_init : ReaderOk chunks V (⟨.init n, .idle, []⟩ : ReaderThread n) :=
  ⟨0, Nat.zero_le _, Position.isAt_start, rfl, trivial⟩

omit [NeZero n] in
theorem Fragment.mono {e : ℕ} {h : SlotHeader} {frag d : Bytes} {todo : List ℕ}
    (hf : Fragment n chunks V e h frag todo d) (hc : chunks <+: chunks') (hV : V ≤ V') :
    Fragment n chunks' V' e h frag todo d where
  chunk := by
    obtain ⟨rest, rfl⟩ := hc
    rw [List.getElem?_append_left (List.getElem?_eq_some_iff.mp hf.chunk).1]
    exact hf.chunk
  lt := hf.lt.trans_le hV
  header := hf.header
  length_eq := hf.length_eq
  copied hle := hf.copied (hc.length_le.trans hle)

/-- The writer may add and finish chunks: a reader that sits anywhere in its call keeps its
invariant. -/
theorem ReaderOk.mono {t : ReaderThread n} (h : ReaderOk chunks V t) (hV' : V ≤ chunks.length)
    (hc : chunks <+: chunks') (hV : V ≤ V') : ReaderOk chunks' V' t := by
  obtain ⟨e, he, hpos, hok, hpc⟩ := h
  refine ⟨e, he.trans hV, hpos, ?_, ?_⟩
  · obtain ⟨rest, rfl⟩ := hc
    rw [hok, List.take_append_of_le_length (he.trans hV')]
  · obtain ⟨reader, pc, returned⟩ := t
    cases pc with
    | idle => trivial
    | looping w => exact hpc
    | copying w h frag todo =>
      obtain ⟨hw, hdata, d, hf⟩ := hpc
      exact ⟨hw, hdata, d, hf.mono hc hV⟩

theorem ReaderOkAt.ret_of_ne {t : ReaderThread n} {e : ℕ} (h : ReaderOkAt chunks V t e)
    {r : RingBufferReader n} (hpos : r.pos = t.reader.pos) (hr : r.result.result ≠ .ok) :
    ReaderOk chunks V (t.ret r) := by
  refine ⟨e, h.1, hpos ▸ h.2.1, ?_, trivial⟩
  exact (okData_append_of_ne _ hr).trans h.2.2.1

theorem Fragment.copyByte (hs : SlotsOk chunks V slots) {e : ℕ} {h : SlotHeader}
    {frag d : Bytes} {todo : List ℕ} (hf : Fragment n chunks V e h frag todo d) (i : ℕ) :
    Fragment n chunks V e h
      (frag.set i ((slots.get (Fin.ofNat n e)).data.toList.getD i 0)) (todo.erase i) d where
  chunk := hf.chunk
  lt := hf.lt
  header := hf.header
  length_eq := by rw [List.length_set, hf.length_eq]
  copied hle j hj hj' := by
    by_cases hij : i = j
    · subst hij
      obtain ⟨rest, hrest⟩ := (hs.holds e d hf.chunk hf.lt hle).2
      rw [List.getElem?_set_self (hf.length_eq ▸ hj), ← hrest, List.getD_eq_getElem?_getD,
        List.getElem?_append_left hj, List.getElem?_eq_getElem hj, Option.getD_some]
    · rw [List.getElem?_set_ne hij]
      refine hf.copied hle j hj fun hmem => hj' ?_
      exact (List.mem_erase_of_ne (Ne.symm hij)).mpr hmem

omit [NeZero n] in
theorem Fragment.eq_chunk {e : ℕ} {h : SlotHeader} {frag d : Bytes}
    (hf : Fragment n chunks V e h frag [] d) (hle : chunks.length ≤ e + n) : frag = d := by
  refine List.ext_getElem? fun i => ?_
  by_cases hi : i < d.length
  · exact hf.copied hle i hi List.not_mem_nil
  · rw [List.getElem?_eq_none (by rw [hf.length_eq]; omega), List.getElem?_eq_none (by omega)]

/-- The first load of the header. -/
theorem ReaderOkAt.loadHeader (hs : SlotsOk chunks V slots) (hW : chunks.length < 2 ^ 32)
    {t : ReaderThread n} {e : ℕ} {w : Position n} (h : ReaderOkAt chunks V t e)
    (hpc : t.pc = .looping w) (h0 : (slots.get t.reader.pos.index).header.sn ≠ 0)
    (hsn : (slots.get t.reader.pos.index).header.sn = t.reader.pos.sn) :
    ReaderOk chunks V (t.append w (slots.get t.reader.pos.index).header) := by
  obtain ⟨he, hpos, hok, hw⟩ := h
  rw [hpc] at hw
  rw [hpos.2] at h0 hsn ⊢
  obtain ⟨hV, hle⟩ := hs.retained_of_sn hW (he.trans hs.le_length) (hsn.trans hpos.1) h0
  have hd := List.getElem?_eq_getElem (hV.trans_le hs.le_length)
  have hheader := (hs.holds e _ hd hV hle).1
  have hsize := (hs.appendSize_of_mem (List.mem_of_getElem? hd)).2
  refine ⟨e, he, hpos, hok, hw.1, hw.2, _, hd, hV, hheader, ?_, fun _ i hi hi' => ?_⟩
  · rw [List.length_replicate, hheader, hsize]
  · rw [hheader, hsize] at hi'
    exact absurd (List.mem_range.mpr hi) hi'

/-- The second load of the header: if it shows the same sequence number, the slot was not touched
since the first load, and what was copied is the chunk that the reader expects. -/
theorem ReaderOkAt.reloadHeader (hn : n < 2 ^ 32) (hs : SlotsOk chunks V slots)
    (hW : chunks.length < 2 ^ 32) {t : ReaderThread n} {e : ℕ} {w : Position n} {hdr : SlotHeader}
    {frag : Bytes} (h : ReaderOkAt chunks V t e) (hpc : t.pc = .copying w hdr frag [])
    (hsn : hdr.sn = (slots.get t.reader.pos.index).header.sn) :
    (slots.get t.reader.pos.index).header.sz ≠ 0 ∧
      ReaderOk chunks V
        (t.ret ⟨w.moveNext, ⟨.ok, t.reader.result.data ++ frag⟩⟩) := by
  obtain ⟨he, hpos, hok, hw⟩ := h
  rw [hpc] at hw
  obtain ⟨hw, hdata, d, hf⟩ := hw
  rw [hpos.2, hf.header] at hsn
  rw [hpos.2, hdata, List.nil_append]
  have hlt : e + 1 < 2 ^ 32 := by
    have := hf.lt
    have := hs.le_length
    omega
  have h0 : (slots.get (Fin.ofNat n e)).header.sn ≠ 0 := by
    rw [← hsn]
    intro h'
    have : e + 1 = 0 := uint32_ofNat_inj hlt (by decide) h'
    omega
  obtain ⟨-, hle⟩ := hs.retained_of_sn hW (he.trans hs.le_length) hsn.symm h0
  have hholds := hs.holds e d hf.chunk hf.lt hle
  refine ⟨?_, e + 1, hf.lt, hw.moveNext hn, ?_, trivial⟩
  · rw [hholds.1]
    exact (hs.appendSize_of_mem (List.mem_of_getElem? hf.chunk)).1
  · change okData (t.returned ++ [⟨.ok, frag⟩]) = chunks.take (e + 1)
    rw [okData_append_ok, hok, hf.eq_chunk hle, List.take_add_one, hf.chunk, Option.toList_some]

/-- **One step of a reader.** -/
theorem ReaderOk.step (hn : n < 2 ^ 32) (hs : SlotsOk chunks V slots)
    (hW : chunks.length < 2 ^ 32) {t t' : ReaderThread n} {l : ReaderLabel}
    (h : ReaderOk chunks V t) (hstep : readerStep slots t l = some t') :
    ReaderOk chunks V t' := by
  obtain ⟨e, h⟩ := h
  cases readerEffect_of_step hstep with
  | construct => exact readerOk_init
  | call => exact ⟨e, h.1, h.2.1, h.2.2.1, h.2.1, rfl⟩
  | noData | loss =>
    exact h.ret_of_ne rfl (by simp [RingBufferReader.finish, ReadResult.setResult])
  | append hpc hh h0 hsn =>
    subst hh
    exact h.loadHeader hs hW hpc h0 hsn
  | copyByte hpc hi hbyte =>
    obtain ⟨he, hpos, hok, hw⟩ := h
    rw [hpc] at hw
    obtain ⟨hw, hdata, d, hf⟩ := hw
    rw [hbyte, hpos.2]
    exact ⟨e, he, hpos, hok, hw, hdata, d, hf.copyByte hs _⟩
  | overtaken hpc hr =>
    subst hr
    exact h.ret_of_ne rfl (by simp [RingBufferReader.finish, ReadResult.setResult])
  | deliver hpc hsn => exact (h.reloadHeader hn hs hW hpc hsn).2
  | again hpc hr hsn hsz => exact absurd hsz (h.reloadHeader hn hs hW hpc hsn).1

end Reader

/-! ### All threads together -/

section System

variable [NeZero n] [DecidableEq ι]

/-- The invariant of the system. The readers rely on sequence numbers not having come round. -/
structure Inv (s : State n ι) : Prop where
  writer : WriterOk s.buf s.writer
  readers : s.writer.chunks.length < 2 ^ 32 →
    ∀ r, ReaderOk s.writer.chunks s.writer.finished (s.readers r)

omit [DecidableEq ι] in
theorem inv_init : Inv (init n ι) where
  writer := ⟨Position.isAt_start, SlotsOk.init⟩
  readers _ _ := readerOk_init

theorem Inv.step (hn : n < 2 ^ 32) (s : State n ι) (l : Label ι) (s' : State n ι) (h : Inv s)
    (hs : step s l = some s') : Inv s' := by
  cases l with
  | writer l =>
    obtain ⟨⟨b, t⟩, hstep, rfl⟩ := Option.map_eq_some_iff.mp hs
    obtain ⟨hok, hchunks, hfin⟩ := h.writer.step hn hstep
    refine ⟨hok, fun hW r => ?_⟩
    exact (h.readers (hchunks.length_le.trans_lt hW) r).mono h.writer.slotsOk.le_length hchunks
      hfin
  | reader r l =>
    obtain ⟨t, hstep, rfl⟩ := Option.map_eq_some_iff.mp hs
    refine ⟨h.writer, fun hW r' => ?_⟩
    have hr := h.readers hW
    by_cases hrr : r' = r
    · subst hrr
      simpa using (hr r').step hn h.writer.slotsOk hW hstep
    · simpa [Function.update_of_ne hrr] using hr r'

theorem inv_of_reachable (hn : n < 2 ^ 32) {s : State n ι}
    (hs : Reachable step (init n ι) s) : Inv s :=
  hs.invariant (Inv.step hn) inv_init

/-- What a reader has been given with the result `OK` are the first chunks, in order. -/
theorem ok_reads_prefix_chunks (hn : n < 2 ^ 32) {s : State n ι}
    (hs : Reachable step (init n ι) s) (hW : s.writer.chunks.length < 2 ^ 32) (r : ι) :
    okData (s.readers r).returned <+: s.writer.chunks := by
  obtain ⟨e, -, -, hok, -⟩ := (inv_of_reachable hn hs).readers hW r
  rw [hok]
  exact List.take_prefix e _

/-- **Reader soundness under any interleaving.** In every run with fewer than `2 ^ 32` chunks, the
data of the `k`-th call of `read_next` of a reader that returns `OK` is the `k`-th chunk, both
counted from `0`. -/
theorem ok_read_eq_chunk (hn : n < 2 ^ 32) {s : State n ι} (hs : Reachable step (init n ι) s)
    (hW : s.writer.chunks.length < 2 ^ 32) (r : ι) {k : ℕ} {d : Bytes}
    (hk : (okData (s.readers r).returned)[k]? = some d) : s.writer.chunks[k]? = some d := by
  obtain ⟨rest, hrest⟩ := ok_reads_prefix_chunks hn hs hW r
  rw [← hrest, List.getElem?_append_left (List.getElem?_eq_some_iff.mp hk).1]
  exact hk

/-- A run on one slot. The first reader loads the header between the two halves of an update and is
told `NO_DATA`; the second one copies the chunk before the next update begins and is given it; the
third one has copied it when the next update begins, and is told `LOSS`. -/
def overtakingRun : List (Label (Fin 3)) :=
  [.writer (.call [7, 8]), .writer .storeEmpty, .reader 0 .call, .reader 0 .loadHeader,
    .writer (.copyByte 1), .writer (.copyByte 0), .writer .storeHeader, .writer .ret,
    .reader 1 .call, .reader 1 .loadHeader, .reader 1 (.copyByte 0), .reader 1 (.copyByte 1),
    .reader 1 .reloadHeader, .reader 2 .call, .reader 2 .loadHeader, .reader 2 (.copyByte 0),
    .writer (.call [9]), .writer .storeEmpty, .reader 2 (.copyByte 1), .reader 2 .reloadHeader]

theorem ok_read_eq_chunk_overtakingRun : ∃ s : State 1 (Fin 3),
    run step (init 1 (Fin 3)) overtakingRun = some s ∧
    (s.readers 0).returned = [⟨.noData, []⟩] ∧ (s.readers 1).returned = [⟨.ok, [7, 8]⟩] ∧
    (s.readers 2).returned = [⟨.loss, [7, 8]⟩] ∧ s.writer.chunks[0]? = some [7, 8] := by
  refine ⟨_, rfl, rfl, rfl, rfl, ?_⟩
  exact ok_read_eq_chunk (by decide) ⟨overtakingRun, rfl⟩ (by decide) (1 : Fin 3) rfl

end System

end Keryx.Interleaving
