import Keryx.RingBuffer.Calls
import Keryx.RingBuffer.Linearization

/-!
# Sequence numbers come round

In runs of any length a sequence number stands for every chunk with the same number modulo `2 ^ 32`,
and the chunks with the number `2 ^ 32 - 1` modulo `2 ^ 32` are published under the reserved
sequence number `0`. A reader never gets past the first of these. What it is given is a whole chunk
all the same, as long as the writer does not begin almost `2 ^ 32` chunks during one call of
`read_next`: the second load of the header compares sequence numbers only.

## Main definitions

* `newest` — the last chunk that has been put into the slot of a given chunk.
* `RingBufferReader.outcome` — what `read_next` does, in terms of the chunks written.
* `Interleaving.Untorn` — some data is one whole chunk, with the sequence number and the slot of the
  chunk that the reader expects.

## Main results

* `Interleaving.delivered_lt` — a reader is given fewer than `2 ^ 32` chunks.
* `Interleaving.returned_untorn` — what `read_next` returns with `OK` is one whole chunk.
* `Calls.readNext_iff_outcome` — what `read_next` does between whole calls.

Source: `src/lib/ring_buffer/ring_buffer.h`, lines 23–41, 57–82 and 116–162.
-/

namespace Keryx

/-! ### Numbers and sequence numbers -/

theorem ofNat_succ_eq_iff {a b : ℕ} :
    UInt32.ofNat (a + 1) = UInt32.ofNat (b + 1) ↔ a % 2 ^ 32 = b % 2 ^ 32 := by
  rw [← UInt32.toNat_inj, UInt32.toNat_ofNat', UInt32.toNat_ofNat']
  omega

theorem ofNat_succ_eq_zero_iff {a : ℕ} : UInt32.ofNat (a + 1) = 0 ↔ (a + 1) % 2 ^ 32 = 0 := by
  rw [← UInt32.toNat_inj, UInt32.toNat_ofNat']
  rfl

theorem ofNat_eq_ofNat_iff {n : ℕ} [NeZero n] {a b : ℕ} :
    Fin.ofNat n a = Fin.ofNat n b ↔ a % n = b % n := Fin.ext_iff

namespace Interleaving

open Transition

variable {n : ℕ} {ι : Type*} [NeZero n] {chunks chunks' : List Bytes} {V V' W₀ : ℕ}
  {slots : Vector Slot n}

/-! ### How many chunks a reader is given -/

/-- The invariant of a reader in runs of any length. It is at the chunk whose number is the number
of chunks it has been given, and it copies only under the sequence number of that chunk. -/
def ReaderThread.Counts (t : ReaderThread n) : Prop :=
  (okData t.returned).length < 2 ^ 32 ∧ t.reader.pos.IsAt (okData t.returned).length ∧
    match t.pc with
    | .idle => True
    | .looping w => w.IsAt (okData t.returned).length
    | .copying w h _ _ => w.IsAt (okData t.returned).length ∧ h.sn = t.reader.pos.sn ∧ h.sn ≠ 0

theorem counts_init : (⟨.init n, .idle, []⟩ : ReaderThread n).Counts :=
  ⟨Nat.two_pow_pos 32, Position.isAt_start, trivial⟩

theorem ReaderThread.Counts.ret_of_ne {t : ReaderThread n} (h : t.Counts)
    {r : RingBufferReader n} (hpos : r.pos = t.reader.pos) (hr : r.result.result ≠ .ok) :
    (t.ret r).Counts := by
  have hok : okData (t.returned ++ [r.result]) = okData t.returned := okData_append_of_ne _ hr
  refine ⟨?_, ?_, trivial⟩
  · exact (congrArg List.length hok).trans_lt h.1
  · change r.pos.IsAt (okData (t.returned ++ [r.result])).length
    rw [hok, hpos]
    exact h.2.1

/-- A reader that is given a chunk has not been given `2 ^ 32 - 1` chunks before: the sequence
number that it expects is not `0`. -/
theorem ReaderThread.Counts.ret_ok (hn : n < 2 ^ 32) {t : ReaderThread n} (h : t.Counts)
    {w : Position n} (hw : w.IsAt (okData t.returned).length) (hsn : t.reader.pos.sn ≠ 0)
    (data : Bytes) : (t.ret ⟨w.moveNext, ⟨.ok, data⟩⟩).Counts := by
  have hlen : (okData (t.returned ++ [⟨.ok, data⟩])).length = (okData t.returned).length + 1 := by
    rw [okData_append_ok, List.length_append, List.length_singleton]
  refine ⟨?_, ?_, trivial⟩
  · have hlt := h.1
    rw [h.2.1.1, Ne, ofNat_succ_eq_zero_iff] at hsn
    refine hlen.trans_lt ?_
    omega
  · have hmove := hw.moveNext hn
    rwa [← hlen] at hmove

/-- The loop does not go round: the header shows the sequence number that was loaded first, which is
not `0`. -/
theorem ReaderThread.Counts.sz_ne_zero {t : ReaderThread n} (h : t.Counts)
    (hs : SlotsOk chunks V slots) {w : Position n} {hdr : SlotHeader} {frag : Bytes}
    {todo : List ℕ} (hpc : t.pc = .copying w hdr frag todo)
    (hsn : hdr.sn = (slots.get t.reader.pos.index).header.sn) :
    (slots.get t.reader.pos.index).header.sz ≠ 0 := by
  have hcall := h.2.2
  rw [hpc] at hcall
  have h0 := hcall.2.2
  rw [hsn] at h0
  exact (hs.sn_eq_zero_or_sz_ne_zero t.reader.pos.index).resolve_left h0

/-- **One step of a reader** on slots that the writer produces. -/
theorem ReaderThread.Counts.step (hn : n < 2 ^ 32) (hs : SlotsOk chunks V slots)
    {t t' : ReaderThread n} {l : ReaderLabel} (h : t.Counts)
    (hstep : readerStep slots t l = some t') : t'.Counts := by
  have hcall := h.2.2
  cases readerEffect_of_step hstep with
  | construct => exact counts_init
  | call => exact ⟨h.1, h.2.1, h.2.1⟩
  | noData | loss =>
    exact h.ret_of_ne rfl (by simp [RingBufferReader.finish, ReadResult.setResult])
  | append hpc hh h0 hsn =>
    rw [hpc] at hcall
    exact ⟨h.1, h.2.1, hcall, hsn, h0⟩
  | copyByte hpc =>
    rw [hpc] at hcall
    exact ⟨h.1, h.2.1, hcall⟩
  | overtaken hpc hr =>
    refine h.ret_of_ne ?_ (by simp [RingBufferReader.finish, ReadResult.setResult])
    rw [hr]
    rfl
  | deliver hpc =>
    rw [hpc] at hcall
    obtain ⟨hw, hexpected, h0⟩ := hcall
    exact h.ret_ok hn hw (hexpected ▸ h0) _
  | again hpc hr hsn hsz => exact absurd hsz (h.sz_ne_zero hs hpc hsn)

/-! ### What a reader is given -/

/-- The data `d` is one whole chunk. It was in the ring after `W₀` chunks or later, and it has the
sequence number and the slot of the chunk `k`. -/
def Untorn (n W₀ k : ℕ) (chunks : List Bytes) (d : Bytes) : Prop :=
  ∃ j, chunks[j]? = some d ∧ W₀ ≤ j + n ∧ j % 2 ^ 32 = k % 2 ^ 32 ∧ j % n = k % n

/-- What a reader is copying is a chunk that was in the ring after `W₀` chunks or later. -/
def ReaderThread.Copies (W₀ : ℕ) (chunks : List Bytes) (V : ℕ) (t : ReaderThread n) : Prop :=
  match t.pc with
  | .idle => True
  | .looping _ => t.reader.result.data = []
  | .copying _ h frag todo => t.reader.result.data = [] ∧
    ∃ j d, W₀ ≤ j + n ∧ t.reader.pos.index = Fin.ofNat n j ∧ Fragment n chunks V j h frag todo d

theorem ReaderThread.Copies.mono {t : ReaderThread n} (h : t.Copies W₀ chunks V)
    (hc : chunks <+: chunks') (hV : V ≤ V') : t.Copies W₀ chunks' V' := by
  obtain ⟨reader, pc, returned⟩ := t
  cases pc with
  | idle => trivial
  | looping w => exact h
  | copying w hdr frag todo =>
    obtain ⟨hdata, j, d, hj, hindex, hf⟩ := h
    exact ⟨hdata, j, d, hj, hindex, hf.mono hc hV⟩

omit [NeZero n] in
theorem Untorn.mono {k : ℕ} {d : Bytes} (h : Untorn n W₀ k chunks d) (hc : chunks <+: chunks') :
    Untorn n W₀ k chunks' d := by
  obtain ⟨j, hj, hrest⟩ := h
  obtain ⟨rest, rfl⟩ := hc
  exact ⟨j, by rwa [List.getElem?_append_left (List.getElem?_eq_some_iff.mp hj).1], hrest⟩

/-- The slot shows the sequence number of the chunk `j` again. If fewer than `2 ^ 32` chunks can
have come in between, it is the chunk `j`, and no later one has begun to overwrite it. -/
theorem retained_of_sn_eq (hs : SlotsOk chunks V slots) {j : ℕ}
    (hsn : (slots.get (Fin.ofNat n j)).header.sn = UInt32.ofNat (j + 1))
    (h0 : (slots.get (Fin.ofNat n j)).header.sn ≠ 0) (hj : W₀ ≤ j + n) (hlt : j < V)
    (hn : n < 2 ^ 32) (hW : chunks.length + n < W₀ + 2 ^ 32) : chunks.length ≤ j + n := by
  rcases hs.header_cases (Fin.ofNat n j) with hempty | ⟨k, d, hd, hkV, hWk, -, hholds⟩
  · rw [hempty] at h0
    exact absurd rfl h0
  · rw [hholds.1, ofNat_succ_eq_iff] at hsn
    have hkW := (List.getElem?_eq_some_iff.mp hd).1
    have := hs.le_length
    omega

/-- **One step of a reader.** It returns at most one result, and an `OK` comes with one whole
chunk. -/
theorem ReaderThread.Copies.step (hn : n < 2 ^ 32) (hs : SlotsOk chunks V slots)
    (hle : W₀ ≤ chunks.length) {t t' : ReaderThread n} {l : ReaderLabel} (h : t.Copies W₀ chunks V)
    (hcounts : t.Counts) (hstep : readerStep slots t l = some t') :
    t'.Copies W₀ chunks V ∧ (t'.returned = t.returned ∨ t'.returned = [] ∨
      ∃ res, t'.returned = t.returned ++ [res] ∧ ∀ d, res = ⟨.ok, d⟩ →
        chunks.length + n < W₀ + 2 ^ 32 → Untorn n W₀ (okData t.returned).length chunks d) := by
  cases readerEffect_of_step hstep with
  | construct => exact ⟨trivial, .inr (.inl rfl)⟩
  | call => exact ⟨rfl, .inl rfl⟩
  | noData | loss | overtaken =>
    refine ⟨trivial, .inr (.inr ⟨_, rfl, fun d hd => ?_⟩)⟩
    cases congrArg ReadResult.result hd
  | append hpc hh h0 =>
    rw [ReaderThread.Copies, hpc] at h
    refine ⟨?_, .inl rfl⟩
    rcases hs.header_cases t.reader.pos.index with hempty | ⟨j, d, hd, hjV, hWj, hindex, hholds⟩
    · rw [hh, hempty] at h0
      exact absurd rfl h0
    · have hsize := (hs.appendSize_of_mem (List.mem_of_getElem? hd)).2
      have hheader := hh.trans hholds.1
      refine ⟨h, j, d, hle.trans hWj, hindex.symm, hd, hjV, hheader, ?_, fun _ i hi hi' => ?_⟩
      · rw [List.length_replicate, hheader, hsize]
      · rw [hheader, hsize] at hi'
        exact absurd (List.mem_range.mpr hi) hi'
  | @copyByte w hdr frag todo i byte hpc _ hbyte =>
    rw [ReaderThread.Copies, hpc] at h
    obtain ⟨hdata, j, d, hj, hindex, hf⟩ := h
    have hf' := hf.copyByte hs i
    rw [← hindex, ← hbyte] at hf'
    exact ⟨⟨hdata, j, d, hj, hindex, hf'⟩, .inl rfl⟩
  | @deliver w hdr frag hpc hsn hsz =>
    obtain ⟨-, hpos, hcall⟩ := hcounts
    rw [hpc] at hcall
    rw [ReaderThread.Copies, hpc] at h
    obtain ⟨-, hexpected, h0⟩ := hcall
    obtain ⟨hdata, j, d, hj, hindex, hf⟩ := h
    refine ⟨trivial, .inr (.inr ⟨_, rfl, fun d' hd' hW => ?_⟩)⟩
    obtain rfl : frag = d' := by
      have hd' : t.reader.result.data ++ frag = d' := congrArg ReadResult.data hd'
      rwa [hdata] at hd'
    rw [hindex] at hsn
    have hsn' := hsn.symm.trans (congrArg SlotHeader.sn hf.header)
    have hret := retained_of_sn_eq hs hsn' (hsn ▸ h0) hj hf.lt hn hW
    refine ⟨j, hf.eq_chunk hret ▸ hf.chunk, hj, ?_, ?_⟩
    · rw [hf.header, hpos.1] at hexpected
      exact ofNat_succ_eq_iff.mp hexpected
    · exact ofNat_eq_ofNat_iff.mp (hindex.symm.trans hpos.2)
  | again hpc hr hsn hsz => exact absurd hsz (hcounts.sz_ne_zero hs hpc hsn)

/-! ### Runs -/

section Runs

variable [DecidableEq ι] {s s' : State n ι} {ls : List (Label ι)} {r : ι}

/-- The invariant of the system in runs of any length. -/
structure Counted (s : State n ι) : Prop where
  inv : Inv s
  readers : ∀ r, (s.readers r).Counts

theorem Counted.step (hn : n < 2 ^ 32) (s : State n ι) (l : Label ι) (s' : State n ι)
    (h : Counted s) (hs : step s l = some s') : Counted s' := by
  refine ⟨h.inv.step hn s l s' hs, fun r => ?_⟩
  cases l with
  | writer l =>
    obtain ⟨⟨b, t⟩, -, rfl⟩ := Option.map_eq_some_iff.mp hs
    exact h.readers r
  | reader q l =>
    obtain ⟨t, hstep, rfl⟩ := Option.map_eq_some_iff.mp hs
    by_cases hrq : r = q
    · subst hrq
      simpa using (h.readers r).step hn h.inv.writer.slotsOk hstep
    · simpa [Function.update_of_ne hrq] using h.readers r

theorem counted_of_reachable (hn : n < 2 ^ 32) (hs : Reachable step (init n ι) s) : Counted s :=
  hs.invariant (Counted.step hn) ⟨inv_init, fun _ => counts_init⟩

/-- **A reader is given fewer than `2 ^ 32` chunks**, however many are written: it never gets past
the chunk that is published under the sequence number `0`. -/
theorem delivered_lt (hn : n < 2 ^ 32) (hs : Reachable step (init n ι) s) (r : ι) :
    (okData (s.readers r).returned).length < 2 ^ 32 := ((counted_of_reachable hn hs).readers r).1

theorem delivered_lt_overtakingRun : ∃ s : State 1 (Fin 3),
    run step (init 1 (Fin 3)) overtakingRun = some s ∧ okData (s.readers 1).returned = [[7, 8]] ∧
      (okData (s.readers 1).returned).length < 2 ^ 32 :=
  ⟨_, rfl, rfl, delivered_lt (by decide) ⟨overtakingRun, rfl⟩ (1 : Fin 3)⟩

/-- What is known in the state `t` of the reader `r`, which was outside `read_next` in the state
`s`. -/
structure Watched (s : State n ι) (r : ι) (t : State n ι) : Prop where
  counted : Counted t
  chunks : s.writer.chunks <+: t.writer.chunks
  copies : (t.readers r).Copies s.writer.chunks.length t.writer.chunks t.writer.finished
  returned : ∀ d, (t.readers r).returned = (s.readers r).returned ++ [⟨.ok, d⟩] →
    t.writer.chunks.length + n < s.writer.chunks.length + 2 ^ 32 →
    Untorn n s.writer.chunks.length (okData (s.readers r).returned).length t.writer.chunks d

theorem Watched.step (hn : n < 2 ^ 32) (t : State n ι) (l : Label ι) (t' : State n ι)
    (h : Watched s r t) (ht : step t l = some t') : Watched s r t' := by
  have hcounted := h.counted.step hn t l t' ht
  have hslots := h.counted.inv.writer.slotsOk
  cases l with
  | writer l =>
    obtain ⟨⟨b, w⟩, hstep, rfl⟩ := Option.map_eq_some_iff.mp ht
    obtain ⟨-, hchunks, hfinished⟩ := h.counted.inv.writer.step hn hstep
    refine ⟨hcounted, h.chunks.trans hchunks, h.copies.mono hchunks hfinished, fun d hd hW => ?_⟩
    have hle : t.writer.chunks.length ≤ w.chunks.length := hchunks.length_le
    exact (h.returned d hd (by dsimp only at hW; omega)).mono hchunks
  | reader q l =>
    obtain ⟨u, hstep, rfl⟩ := Option.map_eq_some_iff.mp ht
    by_cases hrq : r = q
    · subst hrq
      obtain ⟨hcopies, hreturned⟩ :=
        h.copies.step hn hslots h.chunks.length_le (h.counted.readers r) hstep
      refine ⟨hcounted, h.chunks, by simpa using hcopies, fun d hd hW => ?_⟩
      change (Function.update t.readers r u r).returned = _ at hd
      rw [Function.update_self] at hd
      rcases hreturned with hsame | hnil | ⟨res, hres, huntorn⟩
      · exact h.returned d (hsame ▸ hd) hW
      · simp [hnil] at hd
      · obtain ⟨heq, hok⟩ := List.append_inj' (hres.symm.trans hd) rfl
        rw [← heq]
        exact huntorn d (List.singleton_inj.mp hok) hW
    · refine ⟨hcounted, h.chunks, ?_, ?_⟩
      · simpa [Function.update_of_ne hrq] using h.copies
      · simpa [Function.update_of_ne hrq] using h.returned

/-- **No torn read in runs of any length.** A reader that has been given `k` chunks calls
`read_next`, and between the call and its return the writer begins fewer than `2 ^ 32 - n` chunks.
If the call returns `OK`, its data is one whole chunk, byte for byte: the chunk `k`, or one with the
same number modulo `2 ^ 32` and modulo `n` that was in the ring at the call or has been put there
since. -/
theorem returned_untorn (hn : n < 2 ^ 32) (hs : Reachable Interleaving.step (init n ι) s)
    (hidle : (s.readers r).pc = .idle) (hrun : run Interleaving.step s ls = some s') {d : Bytes}
    (hd : (s'.readers r).returned = (s.readers r).returned ++ [⟨.ok, d⟩])
    (hW : s'.writer.chunks.length + n < s.writer.chunks.length + 2 ^ 32) :
    Untorn n s.writer.chunks.length (okData (s.readers r).returned).length s'.writer.chunks d := by
  have hwatched : Watched s r s := by
    refine ⟨counted_of_reachable hn hs, List.prefix_rfl, ?_, fun d hd => ?_⟩
    · rw [ReaderThread.Copies, hidle]
      trivial
    · exact absurd (congrArg List.length hd) (by simp)
  exact (run_induction Interleaving.step (Watched.step hn) hwatched hrun).returned d hd hW

theorem returned_untorn_of_readDuringUpdate : ∃ s s' : State 2 Unit,
    run Interleaving.step (init 2 Unit) oneChunk = some s ∧
    run Interleaving.step s readDuringUpdate = some s' ∧
    (s'.readers ()).returned = [⟨.ok, [7, 8]⟩] ∧ Untorn 2 1 0 s'.writer.chunks [7, 8] := by
  have huntorn := @returned_untorn 2 Unit _ _ _ _ readDuringUpdate () (by decide)
    ⟨oneChunk, rfl⟩ rfl rfl [7, 8] rfl (by decide)
  exact ⟨_, _, rfl, rfl, rfl, huntorn⟩

end Runs

end Interleaving

/-! ### Whole calls -/

section Newest

variable {n W k j : ℕ}

/-- The last of the first `W` chunks that is put into the slot of the chunk `k`. -/
def newest (n W k : ℕ) : Option ℕ :=
  if k % n < W then some (k % n + n * ((W - 1 - k % n) / n)) else none

theorem newest_eq_none [NeZero n] (h : newest n W k = none) : W ≤ Fin.ofNat n k := by
  rw [newest] at h
  split_ifs at h with hlt
  exact not_lt.mp hlt

theorem newest_eq_some [NeZero n] (h : newest n W k = some j) :
    j < W ∧ W ≤ j + n ∧ Fin.ofNat n j = Fin.ofNat n k := by
  rw [newest] at h
  split_ifs at h with hlt
  cases h
  have hdm := Nat.div_add_mod (W - 1 - k % n) n
  have hmod := Nat.mod_lt (W - 1 - k % n) (Nat.pos_of_neZero n)
  refine ⟨by omega, by omega, ofNat_eq_ofNat_iff.mpr ?_⟩
  rw [Nat.add_mul_mod_self_left, Nat.mod_mod]

end Newest

variable {n : ℕ} [NeZero n]

/-- The number of the chunk that a reader at the position `p` expects. -/
def Position.number (p : Position n) : ℕ := (p.sn - 1).toNat

omit [NeZero n] in
theorem Position.number_lt (p : Position n) : p.number < 2 ^ 32 := (p.sn - 1).toNat_lt

theorem Position.IsAt.number_eq {p : Position n} {k : ℕ} (h : p.IsAt k) (hk : k < 2 ^ 32) :
    p.number = k := by
  have hsub : UInt32.ofNat (k + 1) - 1 = UInt32.ofNat k := by
    rw [UInt32.ofNat_add]
    exact UInt32.add_sub_cancel ..
  rw [number, h.1, hsub, UInt32.toNat_ofNat', Nat.mod_eq_of_lt hk]

/-- What `read_next` does after the chunks `chunks`. The slot of the chunk that the reader expects
shows the last chunk that was put there, under a sequence number that may be the reserved one, or
the expected one although the chunk is another. -/
def RingBufferReader.outcome (chunks : List Bytes) (r : RingBufferReader n) : RingBufferReader n :=
  match newest n chunks.length r.pos.number with
  | none => ⟨r.pos, ⟨.noData, []⟩⟩
  | some j =>
    if (j + 1) % 2 ^ 32 = 0 then ⟨r.pos, ⟨.noData, []⟩⟩
    else if j % 2 ^ 32 ≠ r.pos.number then ⟨r.pos, ⟨.loss, []⟩⟩
    else ⟨r.pos.moveNext, ⟨.ok, chunks.getD j []⟩⟩

theorem RingBuffer.Settled.readOnce_eq_outcome {b : RingBuffer n} {chunks : List Bytes}
    (h : b.Settled chunks) {r : RingBufferReader n} (hr : r.pos.IsAt r.pos.number) :
    r.readOnce b.slots = r.outcome chunks := by
  rw [RingBufferReader.outcome]
  cases hnewest : newest n chunks.length r.pos.number with
  | none =>
    have hempty := h.slots.empty (Fin.ofNat n r.pos.number) (newest_eq_none hnewest)
    rw [← hr.2] at hempty
    simp only [RingBufferReader.readOnce]
    rw [if_pos (congrArg SlotHeader.sn hempty)]
  | some j =>
    obtain ⟨hj, hle, hslot⟩ := newest_eq_some hnewest
    have hd := List.getElem?_eq_getElem hj
    obtain ⟨hheader, hdata⟩ := h.slots.holds j _ hd hj hle
    have hsize := (h.slots.appendSize_of_mem (List.mem_of_getElem? hd)).2
    have hsn : UInt32.ofNat (j + 1) = r.pos.sn ↔ j % 2 ^ 32 = r.pos.number := by
      rw [hr.1, ofNat_succ_eq_iff, Nat.mod_eq_of_lt r.pos.number_lt]
    rw [hslot, ← hr.2] at hheader hdata
    simp only [RingBufferReader.readOnce]
    rw [hheader, hsize, ← List.prefix_iff_eq_take.mp hdata]
    simp only [ofNat_succ_eq_zero_iff, Ne, hsn]
    rw [List.getD_eq_getElem?_getD, hd, Option.getD_some]

/-- A reader that is given something does not expect the sequence number `0`, so the number of the
chunk it expects next is below `2 ^ 32`. -/
theorem RingBuffer.Settled.readOnce_isAt (hn : n < 2 ^ 32) {b : RingBuffer n}
    {chunks : List Bytes} (h : b.Settled chunks) {r : RingBufferReader n}
    (hr : r.pos.IsAt r.pos.number) :
    (r.readOnce b.slots).pos.IsAt (r.readOnce b.slots).pos.number := by
  rw [h.readOnce_eq_outcome hr, RingBufferReader.outcome]
  split
  · exact hr
  · split_ifs with h0 hsn
    · exact hr
    · exact hr
    · have hnext := hr.moveNext hn
      rwa [hnext.number_eq (by have := r.pos.number_lt; omega)]

namespace Calls

open Transition

variable {ι : Type*} [DecidableEq ι]

/-- The invariant of runs of any length. -/
structure AnyLength (s : State n ι) : Prop where
  inv : Inv s s.chunks
  readers : ∀ r, (s.readers r).pos.IsAt (s.readers r).pos.number

theorem isAt_init : (RingBufferReader.init n).pos.IsAt (RingBufferReader.init n).pos.number := by
  have hstart : (RingBufferReader.init n).pos.IsAt 0 := Position.isAt_start
  rwa [hstart.number_eq (by decide)]

theorem AnyLength.step (hn : n < 2 ^ 32) (s : State n ι) (l : Label ι) (s' : State n ι)
    (h : AnyLength s) (hs : step s l = some s') : AnyLength s' := by
  obtain ⟨chunks, hinv⟩ := Inv.step hn s l s' ⟨_, h.inv⟩ hs
  rw [← hinv.chunks_eq] at hinv
  refine ⟨hinv, fun r => ?_⟩
  cases l with
  | write sview =>
    cases hs
    exact h.readers r
  | construct q =>
    cases hs
    by_cases hrq : r = q
    · subst hrq
      simpa using isAt_init
    · simpa [Function.update_of_ne hrq] using h.readers r
  | readNext q fuel =>
    obtain ⟨t, hread, rfl⟩ := Option.map_eq_some_iff.mp hs
    by_cases hrq : r = q
    · subst hrq
      obtain rfl := h.inv.settled.readNext_iff.mp ⟨fuel, hread⟩
      simpa using h.inv.settled.readOnce_isAt hn (h.readers r)
    · simpa [Function.update_of_ne hrq] using h.readers r

/-- **What `read_next` does in runs of any length.** A reader that expects the chunk with the number
`k` looks at the last chunk `j` that was put into the same slot. It is told `NO_DATA` if there is
none or if `j + 1` is a multiple of `2 ^ 32`; it is told `LOSS` if `j` and `k` differ modulo
`2 ^ 32`; and otherwise it is given the chunk `j` and moves on. -/
theorem readNext_iff_outcome (hn : n < 2 ^ 32) {s : State n ι}
    (hs : Reachable step (init n ι) s) (r : ι) {r' : RingBufferReader n} :
    RingBufferReader.ReadNext s.buf.slots (s.readers r) r' ↔
      r' = (s.readers r).outcome s.chunks := by
  have h : AnyLength s :=
    hs.invariant (AnyLength.step hn) ⟨(inv_init (n := n) (ι := ι)), fun _ => isAt_init⟩
  rw [h.inv.settled.readNext_iff, h.inv.settled.readOnce_eq_outcome (h.readers r)]

/-- Into a ring of one slot one message is written and then another one `2 ^ 32` times. A new reader
is given the last chunk in the place of the first one. -/
theorem readNext_iff_outcome_cameRound : ∃ s : State 1 Unit, Reachable step (init 1 Unit) s ∧
    s.chunks = [7] :: List.replicate (2 ^ 32) [8] ∧
    RingBufferReader.ReadNext s.buf.slots (s.readers ())
      ⟨(s.readers ()).pos.moveNext, ⟨.ok, [8]⟩⟩ := by
  have hmsgs : ∀ m ∈ ([7] :: List.replicate (2 ^ 32) [8] : List Bytes),
      0 < m.length ∧ m.length ≤ slotSize := by
    rintro m hm
    rcases List.mem_cons.mp hm with rfl | hm
    · decide
    · obtain rfl := List.eq_of_mem_replicate hm
      decide
  obtain ⟨s, hs, hinv, hreader⟩ := exists_small_messages (n := 1) (by decide) _ hmsgs
  have hchunks := hinv.chunks_eq
  refine ⟨s, hs, hchunks, (readNext_iff_outcome (by decide) hs ()).mpr ?_⟩
  have hnewest : newest 1 (2 ^ 32 + 1) 0 = some (2 ^ 32) := by decide
  have hlength : s.chunks.length = 2 ^ 32 + 1 := by
    rw [hchunks, List.length_cons, List.length_replicate]
  have hget : s.chunks.getD (2 ^ 32) [] = [8] := by
    rw [hchunks, List.getD_eq_getElem?_getD, show (2 : ℕ) ^ 32 = 2 ^ 32 - 1 + 1 from rfl,
      List.getElem?_cons_succ, List.getElem?_replicate_of_lt (Nat.lt_succ_self _), Option.getD_some]
  have hnumber : (s.readers ()).pos.number = 0 := by
    rw [hreader]
    rfl
  rw [RingBufferReader.outcome, hlength, hnumber, hnewest]
  dsimp only
  rw [if_neg (by decide), if_neg (by decide), hget]

end Calls

end Keryx
