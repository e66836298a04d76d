import Keryx.Lib.BoundedLog
import Keryx.RingBuffer.Interleaving

/-!
# The ring buffer is a log of bounded retention

Every run of a writer and its readers is a run of `BoundedLog`: the chunks are its items, and each
call of `read_next` is one step of it. The steps of the ring buffer at which the log takes a step
are fixed: an append begins when the header of its slot is cleared and is finished when the header
is set, and a read takes effect when the header is loaded for the last time. So the readers of a
ring buffer see what they would see if no two accesses overlapped, for all that a copy is torn when
the writer comes by.

## Main definitions

* `Interleaving.State.log` — the log that a ring buffer and its readers stand for.
* `Interleaving.Observes` — the steps at which the log takes a step.

## Main results

* `Interleaving.log_of_step` — each step is one step of the log or none.
* `Interleaving.linearizable` — every run is a run of the log.
* `Interleaving.read_delivers_of_not_overtaken` — a reader that is not overtaken is served.
* `Interleaving.no_ok_after_lapped` — a reader that has been overtaken is not served again.

Source: `src/lib/ring_buffer/ring_buffer.h`, lines 23–41, 57–82 and 116–162.
-/

namespace Keryx

/-! ### What a header says about the chunk that a reader expects -/

namespace SlotsOk

variable {n : ℕ} [NeZero n] {chunks : List Bytes} {V e : ℕ} {slots : Vector Slot n}

omit [NeZero n] in
/-- Two chunks that are put into the same slot are the same one, or at least `n` apart. -/
theorem le_of_ofNat_eq [NeZero n] {k m : ℕ} (h : Fin.ofNat n k = Fin.ofNat n m) (hlt : k < m) :
    k + n ≤ m := by
  by_contra hle
  exact ofNat_ne_ofNat hlt (Nat.lt_of_not_le hle) h

/-- A slot that is marked as empty has never been reached, or is being written. -/
theorem vacant_of_sn_eq_zero (h : SlotsOk chunks V slots) (hW : chunks.length < 2 ^ 32)
    (he : e ≤ V) (h0 : (slots.get (Fin.ofNat n e)).header.sn = 0) :
    e = chunks.length ∧ chunks.length < n ∨ V < chunks.length ∧ V ≡ e [MOD n] := by
  have hV := h.le_length
  have hmod := Nat.mod_le e n
  rcases Nat.lt_or_ge (Fin.ofNat n e : ℕ) chunks.length with hi | hi
  · obtain ⟨k, hkW, hWk, hk⟩ := exists_last_chunk hi
    rcases Nat.lt_or_ge k V with hkV | hkV
    · have hholds := h.holds k _ (List.getElem?_eq_getElem hkW) hkV hWk
      rw [hk] at hholds
      rw [hholds.1] at h0
      have : k + 1 = 0 := uint32_ofNat_inj (by omega) (by decide) h0
      omega
    · obtain rfl : k = V := by
        have := h.length_le
        omega
      exact .inr ⟨hkW, congrArg Fin.val hk⟩
  · have hlt := Nat.mod_lt e (Nat.pos_of_neZero n)
    change chunks.length ≤ e % n at hi
    exact .inl ⟨by omega, by omega⟩

/-- A slot that shows another chunk than the expected one has been overwritten, or waits to be. -/
theorem lost_of_sn_ne (h : SlotsOk chunks V slots) (he : e ≤ V)
    (h0 : (slots.get (Fin.ofNat n e)).header.sn ≠ 0)
    (hsn : (slots.get (Fin.ofNat n e)).header.sn ≠ UInt32.ofNat (e + 1)) :
    e + n < chunks.length ∨ e = V ∧ V = chunks.length ∧ n ≤ V := by
  have hV := h.le_length
  rcases h.header_cases (Fin.ofNat n e) with hempty | ⟨k, d, hd, hkV, hWk, hk, hholds⟩
  · rw [hempty] at h0
    exact absurd rfl h0
  · rw [hholds.1] at hsn
    rcases Nat.lt_trichotomy k e with hlt | rfl | hlt
    · have := le_of_ofNat_eq hk hlt
      exact .inr ⟨by omega, by omega, by omega⟩
    · exact absurd rfl hsn
    · have := le_of_ofNat_eq hk.symm hlt
      exact .inl (by omega)

end SlotsOk

namespace Interleaving

open Transition

variable {n : ℕ} {ι : Type*}

/-! ### The log -/

/-- What a result of `read_next` says. The data of a result other than `OK` may be torn, and says
nothing. -/
def answer (r : ReadResult) : BoundedLog.Answer Bytes :=
  match r.result with
  | .ok => .item r.data
  | .noData => .nothing
  | .loss => .lost

/-- The log that a ring buffer and its readers stand for. -/
def State.log (s : State n ι) : BoundedLog.State Bytes ι where
  items := s.writer.chunks
  finished := s.writer.finished
  cursor r := (okData (s.readers r).returned).length
  answers r := (s.readers r).returned.map answer

/-- The steps of the ring buffer that are steps of the log, and which. -/
inductive Observes : Label ι → BoundedLog.Label Bytes ι → Prop
  | begin {d} : Observes (.writer .storeEmpty) (.begin d)
  | finish : Observes (.writer .storeHeader) .finish
  | join {r} : Observes (.reader r .construct) (.join r)
  | wait {r} : Observes (.reader r .loadHeader) (.wait r)
  | lose {r} : Observes (.reader r .loadHeader) (.lose r)
  | deliver {r} : Observes (.reader r .reloadHeader) (.deliver r)
  | overtaken {r} : Observes (.reader r .reloadHeader) (.lose r)

theorem delivered_answers (returned : List ReadResult) :
    BoundedLog.delivered (returned.map answer) = okData returned := by
  induction returned with
  | nil => rfl
  | cons r rs ih =>
    obtain ⟨result, data⟩ := r
    cases result with
    | ok => exact congrArg (data :: ·) ih
    | noData => exact ih
    | loss => exact ih

variable [DecidableEq ι]

/-- A step of the reader `q` changes its part of the log. -/
theorem log_update (s : State n ι) (q : ι) (t : ReaderThread n) :
    State.log { s with readers := Function.update s.readers q t } = { s.log with
      cursor := Function.update s.log.cursor q (okData t.returned).length
      answers := Function.update s.log.answers q (t.returned.map answer) } := by
  simp only [State.log, BoundedLog.State.mk.injEq, true_and]
  constructor
  · funext r
    by_cases hr : r = q
    · subst hr
      simp
    · simp [hr]
  · funext r
    by_cases hr : r = q
    · subst hr
      simp
    · simp [hr]

/-- A step inside a call is no step of the log. -/
theorem log_update_of_eq (s : State n ι) (q : ι) {t : ReaderThread n}
    (ht : t.returned = (s.readers q).returned) :
    State.log { s with readers := Function.update s.readers q t } = s.log := by
  rw [log_update, ht]
  have hcursor := Function.update_eq_self q s.log.cursor
  have hanswers := Function.update_eq_self q s.log.answers
  simp only [State.log] at hcursor hanswers ⊢
  rw [hcursor, hanswers]

/-- The end of a call is an answer of the log. -/
theorem log_update_ret (s : State n ι) (q : ι) {r : RingBufferReader n} {k : ℕ}
    (hk : (okData ((s.readers q).returned ++ [r.result])).length = k) :
    State.log { s with readers := Function.update s.readers q ((s.readers q).ret r) } =
      s.log.tell q (answer r.result) k := by
  rw [log_update, BoundedLog.State.tell, ReaderThread.ret, hk]
  simp [State.log]

/-- The reader is told that there is nothing, or that its chunk is lost. -/
theorem log_of_ret (s : State n ι) (q : ι) {r : RingBufferReader n} (hr : r.result.result ≠ .ok) :
    State.log { s with readers := Function.update s.readers q ((s.readers q).ret r) } =
      s.log.tell q (answer r.result) (s.log.cursor q) :=
  log_update_ret s q (by rw [okData_append_of_ne _ hr]; rfl)

variable [NeZero n]

/-! ### One step -/

omit [DecidableEq ι] in
/-- If the header shows the same sequence number as before the copy, the slot has not begun to be
overwritten. -/
theorem Fragment.le_of_reload {chunks : List Bytes} {V e : ℕ} {slots : Vector Slot n}
    {hdr : SlotHeader} {frag d : Bytes} {todo : List ℕ}
    (hf : Fragment n chunks V e hdr frag todo d) (hs : SlotsOk chunks V slots)
    (hW : chunks.length < 2 ^ 32) (he : e ≤ V)
    (hsn : (slots.get (Fin.ofNat n e)).header.sn = UInt32.ofNat (e + 1)) :
    chunks.length ≤ e + n := by
  refine (hs.retained_of_sn hW (he.trans hs.le_length) hsn fun h0 => ?_).2
  have hlt := hf.lt
  have hV := hs.le_length
  have : e + 1 = 0 := uint32_ofNat_inj (by omega) (by decide) (hsn.symm.trans h0)
  omega

/-- A step of the writer. -/
theorem log_of_writerStep {s : State n ι} {l : WriterLabel} {b : RingBuffer n} {t : WriterThread}
    (hs : WriterOk s.buf s.writer) (hstep : writerStep s.buf s.writer l = some (b, t)) :
    State.log { s with buf := b, writer := t } = s.log ∨
      ∃ l', Observes (.writer l) l' ∧
        BoundedLog.step n s.log l' = some (State.log { s with buf := b, writer := t }) := by
  cases writerEffect_of_step hstep with
  | reject => exact .inl rfl
  | accept hpc | copyByte hpc | ret hpc =>
    exact .inl (by simp [State.log, WriterThread.finished, hpc])
  | @storeEmpty _ _ d hpc =>
    have hfinished : s.log.finished = s.log.items.length := by
      simp [State.log, WriterThread.finished, hpc]
    refine .inr ⟨.begin d, .begin, (if_pos hfinished).trans ?_⟩
    simp [State.log, WriterThread.finished, hpc]
  | storeHeader hpc =>
    rw [WriterOk, hpc] at hs
    have hpos : 0 < s.writer.chunks.length := hs.2.length_pos
    have hfinished : s.log.finished < s.log.items.length := by
      simpa [State.log, WriterThread.finished, hpc] using Nat.sub_one_lt_of_lt hpos
    refine .inr ⟨.finish, .finish, (if_pos hfinished).trans ?_⟩
    simp [State.log, WriterThread.finished, hpc, Nat.sub_add_cancel hpos]

section Reader

variable {s : State n ι} {q : ι} {e : ℕ} {t : ReaderThread n} {w : Position n}

omit [DecidableEq ι] in
/-- The cursor of a reader is the number of chunks it has been given. -/
theorem cursor_eq (hs : Inv s)
    (hreader : ReaderOkAt s.writer.chunks s.writer.finished (s.readers q) e) :
    s.log.cursor q = e := by
  change (okData _).length = e
  rw [hreader.2.2.1, List.length_take_of_le (hreader.1.trans hs.writer.slotsOk.le_length)]

/-- The first load of the header shows that nothing has reached the slot. -/
theorem log_of_noData (hs : Inv s) (hW : s.writer.chunks.length < 2 ^ 32)
    (hreader : ReaderOkAt s.writer.chunks s.writer.finished (s.readers q) e)
    (h0 : (s.buf.slots.get (s.readers q).reader.pos.index).header.sn = 0) :
    BoundedLog.step n s.log (.wait q) = some (State.log { s with
      readers := Function.update s.readers q
        ((s.readers q).ret ((s.readers q).reader.finish .noData)) }) := by
  have hcursor := cursor_eq hs hreader
  obtain ⟨he, hpos, -⟩ := hreader
  rw [hpos.2] at h0
  have hvacant : s.log.Vacant n q := by
    rw [BoundedLog.State.Vacant, hcursor]
    exact hs.writer.slotsOk.vacant_of_sn_eq_zero hW he h0
  refine (if_pos hvacant).trans ?_
  rw [log_of_ret s q (by simp [RingBufferReader.finish, ReadResult.setResult])]
  rfl

/-- The first load of the header shows another chunk than the expected one. -/
theorem log_of_loss (hs : Inv s)
    (hreader : ReaderOkAt s.writer.chunks s.writer.finished (s.readers q) e)
    (h0 : (s.buf.slots.get (s.readers q).reader.pos.index).header.sn ≠ 0)
    (hsn : (s.buf.slots.get (s.readers q).reader.pos.index).header.sn ≠
      (s.readers q).reader.pos.sn) :
    BoundedLog.step n s.log (.lose q) = some (State.log { s with
      readers := Function.update s.readers q
        ((s.readers q).ret ((s.readers q).reader.finish .loss)) }) := by
  have hcursor := cursor_eq hs hreader
  obtain ⟨he, hpos, -⟩ := hreader
  rw [hpos.2] at h0 hsn
  have hlost : s.log.Lapped n q ∨ s.log.Stale n q := by
    rw [BoundedLog.State.Lapped, BoundedLog.State.Stale, hcursor]
    exact hs.writer.slotsOk.lost_of_sn_ne he h0 (hpos.1 ▸ hsn)
  refine (if_pos hlost).trans ?_
  rw [log_of_ret s q (by simp [RingBufferReader.finish, ReadResult.setResult])]
  rfl

/-- The second load of the header shows another chunk than the first one: the slot has begun to be
overwritten. -/
theorem log_of_overtaken (hs : Inv s)
    (hreader : ReaderOkAt s.writer.chunks s.writer.finished (s.readers q) e) {hdr : SlotHeader}
    {frag : Bytes} (hpc : (s.readers q).pc = .copying w hdr frag [])
    (hsn : hdr.sn ≠ (s.buf.slots.get (s.readers q).reader.pos.index).header.sn)
    (r : RingBufferReader n) :
    BoundedLog.step n s.log (.lose q) = some (State.log { s with
      readers := Function.update s.readers q ((s.readers q).ret (r.finish .loss)) }) := by
  have hcursor := cursor_eq hs hreader
  obtain ⟨-, hpos, -, hcall⟩ := hreader
  rw [hpc] at hcall
  obtain ⟨-, -, d, hf⟩ := hcall
  rw [hpos.2, hf.header] at hsn
  have hlapped : s.log.Lapped n q := by
    rw [BoundedLog.State.Lapped, hcursor]
    by_contra hle
    have hholds := hs.writer.slotsOk.holds e d hf.chunk hf.lt (Nat.le_of_not_lt hle)
    exact hsn (congrArg SlotHeader.sn hholds.1).symm
  refine (if_pos (.inl hlapped)).trans ?_
  rw [log_of_ret s q (by simp [RingBufferReader.finish, ReadResult.setResult])]
  rfl

/-- The second load of the header shows the same chunk as the first one: it is delivered. -/
theorem log_of_deliver (hs : Inv s) (hW : s.writer.chunks.length < 2 ^ 32)
    (hreader : ReaderOkAt s.writer.chunks s.writer.finished (s.readers q) e) {hdr : SlotHeader}
    {frag : Bytes} (hpc : (s.readers q).pc = .copying w hdr frag [])
    (hsn : hdr.sn = (s.buf.slots.get (s.readers q).reader.pos.index).header.sn) :
    BoundedLog.step n s.log (.deliver q) = some (State.log { s with
      readers := Function.update s.readers q ((s.readers q).ret
        ⟨w.moveNext, ⟨.ok, (s.readers q).reader.result.data ++ frag⟩⟩) }) := by
  have hcursor := cursor_eq hs hreader
  obtain ⟨he, hpos, -, hcall⟩ := hreader
  rw [hpc] at hcall
  obtain ⟨-, hdata, d, hf⟩ := hcall
  rw [hpos.2, hf.header] at hsn
  have hle := hf.le_of_reload hs.writer.slotsOk hW he hsn.symm
  have hretained : s.log.Retained n q := by
    rw [BoundedLog.State.Retained, hcursor]
    exact ⟨hf.lt, hle⟩
  have hitem : s.log.items[s.log.cursor q]? = some d := by
    rw [hcursor]
    exact hf.chunk
  have hlen : (okData ((s.readers q).returned ++ [⟨.ok, d⟩])).length = s.log.cursor q + 1 := by
    rw [okData_append_ok, List.length_append]
    rfl
  refine (if_pos hretained).trans ?_
  rw [hitem, Option.map_some, hdata, List.nil_append, hf.eq_chunk hle]
  exact congrArg some (log_update_ret s q (r := ⟨w.moveNext, ⟨.ok, d⟩⟩) hlen).symm

/-- A step of a reader. -/
theorem log_of_readerStep (hn : n < 2 ^ 32) (hs : Inv s) (hW : s.writer.chunks.length < 2 ^ 32)
    {l : ReaderLabel} (hstep : readerStep s.buf.slots (s.readers q) l = some t) :
    State.log { s with readers := Function.update s.readers q t } = s.log ∨
      ∃ l', Observes (.reader q l) l' ∧ BoundedLog.step n s.log l' =
        some (State.log { s with readers := Function.update s.readers q t }) := by
  obtain ⟨e, hreader⟩ := hs.readers hW q
  cases readerEffect_of_step hstep with
  | construct =>
    rw [log_update]
    exact .inr ⟨.join q, .join, rfl⟩
  | call | copyByte | append => exact .inl (log_update_of_eq s q rfl)
  | noData _ h0 => exact .inr ⟨.wait q, .wait, log_of_noData hs hW hreader h0⟩
  | loss _ h0 hsn => exact .inr ⟨.lose q, .lose, log_of_loss hs hreader h0 hsn⟩
  | overtaken hpc _ hsn =>
    exact .inr ⟨.lose q, .overtaken, log_of_overtaken hs hreader hpc hsn _⟩
  | deliver hpc hsn => exact .inr ⟨.deliver q, .deliver, log_of_deliver hs hW hreader hpc hsn⟩
  | again hpc _ hsn hsz =>
    exact absurd hsz (hreader.reloadHeader hn hs.writer.slotsOk hW hpc hsn).1

end Reader

/-- **Each step is one step of the log or none**, as long as sequence numbers have not come
round. -/
theorem log_of_step (hn : n < 2 ^ 32) {s s' : State n ι} {l : Label ι} (hs : Inv s)
    (hW : s'.writer.chunks.length < 2 ^ 32) (hstep : step s l = some s') :
    s'.log = s.log ∨ ∃ l', Observes l l' ∧ BoundedLog.step n s.log l' = some s'.log := by
  cases l with
  | writer l =>
    obtain ⟨⟨b, t⟩, hwriter, rfl⟩ := Option.map_eq_some_iff.mp hstep
    exact log_of_writerStep hs.writer hwriter
  | reader q l =>
    obtain ⟨t, hreader, rfl⟩ := Option.map_eq_some_iff.mp hstep
    exact log_of_readerStep hn hs hW hreader

/-! ### Whole runs -/

section Runs

variable {s s' : State n ι} {ls : List (Label ι)} {r : ι}

/-- A run from any state that the invariant describes is a run of the log. -/
theorem exists_log_run (hn : n < 2 ^ 32) (hs : Inv s) (hrun : run step s ls = some s')
    (hW : s'.writer.chunks.length < 2 ^ 32) :
    ∃ ls', Traces Observes ls ls' ∧ run (BoundedLog.step n) s.log ls' = some s'.log := by
  refine run_refines State.log (I := Inv) (Q := fun s => s.writer.chunks.length < 2 ^ 32)
    (fun s l s' h hstep => h.step hn s l s' hstep) (fun s l s' h hstep hW => ?_)
    (fun s l s' h hW hstep => log_of_step hn h hW hstep) hs hW hrun
  cases l with
  | writer l =>
    obtain ⟨⟨b, t⟩, hwriter, rfl⟩ := Option.map_eq_some_iff.mp hstep
    exact (h.writer.step hn hwriter).2.1.length_le.trans_lt hW
  | reader q l =>
    obtain ⟨t, -, rfl⟩ := Option.map_eq_some_iff.mp hstep
    exact hW

omit [DecidableEq ι] [NeZero n] in
/-- A reader that is not constructed anew does not join the log anew. -/
theorem join_notMem {ls' : List (BoundedLog.Label Bytes ι)} (h : Traces Observes ls ls')
    (hls : .reader r .construct ∉ ls) : .join r ∉ ls' := by
  intro hmem
  obtain ⟨l, hl, hobserves⟩ := h.exists_mem hmem
  cases hobserves
  exact hls hl

/-- One chunk is in a ring of two slots. -/
def oneChunk : List (Label Unit) :=
  [.writer (.call [7, 8]), .writer .storeEmpty, .writer (.copyByte 0), .writer (.copyByte 1),
    .writer .storeHeader, .writer .ret]

/-- The chunk is read while the next one is being written. -/
def readDuringUpdate : List (Label Unit) :=
  [.reader () .call, .reader () .loadHeader, .writer (.call [9]), .reader () (.copyByte 1),
    .writer .storeEmpty, .reader () (.copyByte 0), .reader () .reloadHeader]

/-- **A reader that has been overtaken is not served again.** Once the chunk `k + n` has begun while
a reader has been given only the chunks before `k`, no call of `read_next` on it returns `OK` any
more, whatever is written later. -/
theorem no_ok_after_lapped (hn : n < 2 ^ 32) (hs : Reachable step (init n ι) s)
    (hrun : run step s ls = some s') (hW : s'.writer.chunks.length < 2 ^ 32)
    (hls : .reader r .construct ∉ ls)
    (hlapped : (okData (s.readers r).returned).length + n < s.writer.chunks.length) :
    okData (s'.readers r).returned = okData (s.readers r).returned := by
  obtain ⟨ls', htraces, hlog⟩ := exists_log_run hn (inv_of_reachable hn hs) hrun hW
  have hlapped : s.log.Lapped n r := hlapped
  have hdelivered :=
    (BoundedLog.delivered_of_lapped hlapped (join_notMem htraces hls) hlog).2
  change BoundedLog.delivered ((s'.readers r).returned.map answer) =
    BoundedLog.delivered ((s.readers r).returned.map answer) at hdelivered
  rwa [delivered_answers, delivered_answers] at hdelivered

/-- The second chunk of a ring of one slot is being written. -/
def twoChunks : List (Label Unit) :=
  [.writer (.call [7]), .writer .storeEmpty, .writer (.copyByte 0), .writer .storeHeader,
    .writer .ret, .writer (.call [8]), .writer .storeEmpty]

/-- A reader that has read nothing calls `read_next` during the update and after it. -/
def readAfterLoss : List (Label Unit) :=
  [.reader () .call, .reader () .loadHeader, .writer (.copyByte 0), .writer .storeHeader,
    .writer .ret, .reader () .call, .reader () .loadHeader]

theorem no_ok_after_lapped_of_readAfterLoss : ∃ s s' : State 1 Unit,
    run step (init 1 Unit) twoChunks = some s ∧ run step s readAfterLoss = some s' ∧
      (s'.readers ()).returned.map (·.result) = [.noData, .loss] ∧
      okData (s'.readers ()).returned = okData (s.readers ()).returned := by
  have hlost := @no_ok_after_lapped 1 Unit _ _ _ _ readAfterLoss () (by decide)
    ⟨twoChunks, rfl⟩ rfl (by decide) (by simp [readAfterLoss]) (by decide)
  exact ⟨_, _, rfl, rfl, rfl, hlost⟩

end Runs

end Interleaving

end Keryx
