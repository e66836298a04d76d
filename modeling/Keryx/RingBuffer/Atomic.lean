import Keryx.RingBuffer.Interleaving
import Keryx.RingBuffer.Calls

/-!
# Whole calls as runs of the interleaved steps

A call that no other thread interrupts is a run of the steps of one thread. The model of whole calls
is therefore a part of the interleaved model: each of its reachable states is reached there by some
schedule, with every thread outside its call.

## Main definitions

* `Interleaving.Matches` — the two models show the same buffer, the same chunks and the same
  readers, and no call is in progress.

## Main results

* `Interleaving.reachable_write` — an uninterrupted `write` has the effect of `RingBuffer.write`.
* `Interleaving.reachable_readOnce` — an uninterrupted `read_next` on a settled buffer has the
  effect of `RingBufferReader.readOnce`.
* `Interleaving.matches_of_reachable` — the simulation.
-/

namespace Keryx.Interleaving

open Transition

variable {n : ℕ} {ι : Type*} [NeZero n] [DecidableEq ι]

/-! ### An uninterrupted `write` -/

theorem reachable_of_writerStep {b b' : RingBuffer n} {t t' : WriterThread} {l : WriterLabel}
    (h : writerStep b t l = some (b', t')) (readers : ι → ReaderThread n) :
    Reachable step (⟨b, t, readers⟩ : State n ι) ⟨b', t', readers⟩ := by
  refine .of_step (l := .writer l) ?_
  rw [step, h]
  rfl

/-- The bytes of one chunk are copied one after the other. -/
theorem reachable_copyBytes (sview : Bytes) (currentByte : ℕ) (d : Bytes) (chunks : List Bytes)
    (readers : ι → ReaderThread n) : ∀ (todo : List ℕ) (b : RingBuffer n),
    Reachable step (⟨b, ⟨.copying sview currentByte d todo, chunks⟩, readers⟩ : State n ι)
      ⟨b.setCslot { b.cslot with
          data := todo.foldl (fun data i => data.copyByte d i) b.cslot.data },
        ⟨.copying sview currentByte d [], chunks⟩, readers⟩
  | [], b => by
    rw [List.foldl_nil, RingBuffer.setCslot_cslot]
    exact .refl _
  | i :: todo, b => by
    have hcopy : writerStep b ⟨.copying sview currentByte d (i :: todo), chunks⟩ (.copyByte i) =
        some (b.setCslot { b.cslot with data := b.cslot.data.copyByte d i },
          ⟨.copying sview currentByte d todo, chunks⟩) := by
      simp [writerStep]
    refine (reachable_of_writerStep hcopy readers).trans ?_
    have hrest := reachable_copyBytes sview currentByte d chunks readers todo
      (b.setCslot { b.cslot with data := b.cslot.data.copyByte d i })
    rwa [RingBuffer.cslot_setCslot, RingBuffer.setCslot_setCslot] at hrest

/-- One pass of the loop of `write`. -/
theorem reachable_put {sview : Bytes} {currentByte : ℕ} (hne : currentByte ≠ sview.length)
    (b : RingBuffer n) (chunks : List Bytes) (readers : ι → ReaderThread n) :
    Reachable step (⟨b, ⟨.looping sview currentByte, chunks⟩, readers⟩ : State n ι)
      ⟨b.put (RingBuffer.nextChunk sview currentByte),
        ⟨.looping sview (currentByte + (RingBuffer.nextChunk sview currentByte).length),
          chunks ++ [RingBuffer.nextChunk sview currentByte]⟩, readers⟩ := by
  set d := RingBuffer.nextChunk sview currentByte
  have hempty : writerStep b ⟨.looping sview currentByte, chunks⟩ .storeEmpty =
      some (b.setCslot { b.cslot with header := ⟨0, 0⟩ },
        ⟨.copying sview currentByte d (List.range d.length), chunks ++ [d]⟩) := by
    simp only [writerStep]
    rw [if_neg hne]
  have hcopy := reachable_copyBytes sview currentByte d (chunks ++ [d]) readers
    (List.range d.length) (b.setCslot { b.cslot with header := ⟨0, 0⟩ })
  refine (reachable_of_writerStep hempty readers).trans (hcopy.trans ?_)
  refine reachable_of_writerStep (l := .storeHeader) ?_ readers
  simp only [writerStep, RingBuffer.cslot_setCslot, RingBuffer.setCslot_setCslot]
  rfl

theorem reachable_writeLoop (sview : Bytes) (b : RingBuffer n) (currentByte : ℕ)
    (h : currentByte ≤ sview.length) (chunks : List Bytes) (readers : ι → ReaderThread n) :
    Reachable step (⟨b, ⟨.looping sview currentByte, chunks⟩, readers⟩ : State n ι)
      ⟨b.writeLoop sview currentByte h,
        ⟨.looping sview sview.length, chunks ++ (sview.drop currentByte).chunks slotSize⟩,
        readers⟩ := by
  fun_induction RingBuffer.writeLoop generalizing chunks with
  | case1 b =>
    rw [List.drop_length, List.chunks_nil, List.append_nil]
    exact .refl _
  | case2 b currentByte h hne d ih =>
    rw [RingBuffer.chunks_drop h hne, ← List.singleton_append, ← List.append_assoc]
    exact (reachable_put hne b chunks readers).trans (ih _)

/-- **An uninterrupted `write`** has the effect of `RingBuffer.write`. -/
theorem reachable_write (b : RingBuffer n) (sview : Bytes) (chunks : List Bytes)
    (readers : ι → ReaderThread n) :
    Reachable step (⟨b, ⟨.idle, chunks⟩, readers⟩ : State n ι)
      ⟨(b.write sview).2, ⟨.idle, chunks ++ RingBuffer.chunksOf n sview⟩, readers⟩ := by
  rw [RingBuffer.write, RingBuffer.chunksOf]
  split_ifs with hbig hempty
  · rw [List.append_nil]
    exact .refl _
  · rw [List.isEmpty_iff.mp hempty, List.chunks_nil, List.append_nil]
    exact .refl _
  · have hcall : writerStep b ⟨.idle, chunks⟩ (.call sview) =
        some (b, ⟨.looping sview 0, chunks⟩) := by
      simp only [writerStep]
      rw [if_neg hbig, if_neg hempty]
    have hloop := reachable_writeLoop sview b 0 (Nat.zero_le _) chunks readers
    rw [List.drop_zero] at hloop
    refine (reachable_of_writerStep hcall readers).trans (hloop.trans ?_)
    exact reachable_of_writerStep (l := .ret) (by simp [writerStep]) readers

/-! ### An uninterrupted `read_next` -/

/-- The bytes of one slot are copied one after the other. -/
theorem reachable_copyFrag (slots : Vector Slot n) (r : RingBufferReader n) (w : Position n)
    (h : SlotHeader) (returned : List ReadResult) : ∀ (todo : List ℕ) (frag : Bytes),
    Reachable (readerStep slots) ⟨r, .copying w h frag todo, returned⟩
      ⟨r, .copying w h (todo.foldl (fun frag i =>
        frag.set i ((slots.get r.pos.index).data.toList.getD i 0)) frag) [], returned⟩
  | [], frag => .refl _
  | i :: todo, frag => by
    have hcopy : readerStep slots ⟨r, .copying w h frag (i :: todo), returned⟩ (.copyByte i) =
        some ⟨r, .copying w h
          (frag.set i ((slots.get r.pos.index).data.toList.getD i 0)) todo, returned⟩ := by
      simp [readerStep]
    exact (Reachable.of_step hcopy).trans (reachable_copyFrag slots r w h returned todo _)

/-- Copying the first `k` bytes one after the other replaces the first `k` bytes. -/
theorem foldl_set_range (data frag : Bytes) : ∀ k, k ≤ data.length → k ≤ frag.length →
    (List.range k).foldl (fun frag i => frag.set i (data.getD i 0)) frag =
      data.take k ++ frag.drop k
  | 0, _, _ => by simp
  | k + 1, hdata, hfrag => by
    have htake : (data.take k).length = k := List.length_take_of_le (by omega)
    rw [List.range_succ, List.foldl_append, foldl_set_range data frag k (by omega) (by omega),
      List.foldl_cons, List.foldl_nil, List.set_append_right k _ htake.le, htake, Nat.sub_self,
      List.drop_eq_getElem_cons (by omega), List.set_cons_zero, List.take_add_one,
      List.getD_eq_getElem?_getD, List.getElem?_eq_getElem (by omega), Option.getD_some,
      Option.toList_some, List.append_assoc, List.singleton_append]

/-- **An uninterrupted `read_next`** on a settled buffer has the effect of
`RingBufferReader.readOnce`. -/
theorem reachable_readOnce {b : RingBuffer n} {chunks : List Bytes} (hb : b.Settled chunks)
    (r : RingBufferReader n) (returned : List ReadResult) :
    Reachable (readerStep b.slots) ⟨r, .idle, returned⟩
      ⟨r.readOnce b.slots, .idle, returned ++ [(r.readOnce b.slots).result]⟩ := by
  set cslot := b.slots.get r.pos.index
  let t : ReaderThread n :=
    ⟨{ r with result := r.result.clear }, .looping r.pos, returned⟩
  have hcall : readerStep b.slots ⟨r, .idle, returned⟩ .call = some t := rfl
  refine (Reachable.of_step hcall).trans ?_
  by_cases h0 : cslot.header.sn = 0
  · have honce : r.readOnce b.slots = ⟨r.pos, ⟨.noData, []⟩⟩ := by
      rw [RingBufferReader.readOnce, if_pos h0]
    rw [honce]
    refine .of_step (l := .loadHeader) ?_
    simp only [readerStep, t]
    rw [if_pos h0]
    rfl
  by_cases hsn : cslot.header.sn ≠ r.pos.sn
  · have honce : r.readOnce b.slots = ⟨r.pos, ⟨.loss, []⟩⟩ := by
      rw [RingBufferReader.readOnce, if_neg h0, if_pos hsn]
    rw [honce]
    refine .of_step (l := .loadHeader) ?_
    simp only [readerStep, t]
    rw [if_neg h0, if_pos hsn]
    rfl
  · -- the slot is the expected one: its header is the same after the copy
    set size := ReadResult.appendSize cslot.header.sz
    have honce : r.readOnce b.slots = ⟨r.pos.moveNext, ⟨.ok, cslot.data.toList.take size⟩⟩ := by
      rw [RingBufferReader.readOnce, if_neg h0, if_neg hsn]
    have hsz := (hb.slots.sn_eq_zero_or_sz_ne_zero r.pos.index).resolve_left h0
    have hload : readerStep b.slots t .loadHeader = some (t.append r.pos cslot.header) := by
      simp only [readerStep, t]
      rw [if_neg h0, if_neg hsn]
    have hcopy := reachable_copyFrag b.slots t.reader r.pos cslot.header returned
      (List.range size) (List.replicate size 0)
    have hle : size ≤ cslot.data.toList.length := by
      rw [Vector.length_toList]
      exact hb.slots.appendSize_le r.pos.index
    rw [foldl_set_range _ _ size hle (by simp), List.drop_replicate, Nat.sub_self,
      List.replicate_zero, List.append_nil] at hcopy
    refine (Reachable.of_step hload).trans (hcopy.trans ?_)
    rw [honce]
    refine .of_step (l := .reloadHeader) ?_
    simp only [readerStep, t]
    rw [if_neg (fun h => h rfl), if_pos hsz]
    rfl

/-- The steps of one reader are steps of the system. -/
theorem reachable_of_readerStep {s : State n ι} {r : ι} {t : ReaderThread n}
    (h : Reachable (readerStep s.buf.slots) (s.readers r) t) :
    Reachable step s { s with readers := Function.update s.readers r t } := by
  let R : ReaderThread n → State n ι → Prop := fun t s' =>
    s' = { s with readers := Function.update s.readers r t }
  have hstep : ∀ t l t' s', R t s' → readerStep s.buf.slots t l = some t' →
      ∃ s'', R t' s'' ∧ Reachable step s' s'' := by
    rintro t l t' s' rfl ht
    exact ⟨_, rfl, .of_step (l := .reader r l) (by simp [step, ht])⟩
  obtain ⟨s', rfl, hs'⟩ := h.simulation hstep (t := s) (by simp [R])
  exact hs'

/-! ### The simulation -/

/-- The state `t` of the interleaved model shows what the state `s` of the model of whole calls
shows, and no call is in progress. -/
structure Matches (s : Calls.State n ι) (t : State n ι) : Prop where
  buf : t.buf = s.buf
  writer : t.writer = ⟨.idle, s.chunks⟩
  readers : ∀ r, ∃ returned, t.readers r = ⟨s.readers r, .idle, returned⟩

omit [DecidableEq ι] in
theorem matches_init : Matches (Calls.init n ι) (init n ι) where
  buf := rfl
  writer := rfl
  readers _ := ⟨[], rfl⟩

omit [NeZero n] in
/-- A call of a reader touches no other reader. -/
theorem Matches.update {s : Calls.State n ι} {t : State n ι} (h : Matches s t) (r : ι)
    (r' : RingBufferReader n) (returned : List ReadResult) :
    Matches { s with readers := Function.update s.readers r r' }
      { t with readers := Function.update t.readers r ⟨r', .idle, returned⟩ } where
  buf := h.buf
  writer := h.writer
  readers q := by
    by_cases hq : q = r
    · subst hq
      exact ⟨returned, by simp⟩
    · simpa [Function.update_of_ne hq] using h.readers q

/-- **One whole call** is matched by a run of the interleaved model. -/
theorem Matches.step {s s' : Calls.State n ι} {t : State n ι} {l : Calls.Label ι}
    (hn : n < 2 ^ 32) (hinv : Calls.Inv s s.chunks) (h : Matches s t)
    (hs : Calls.step s l = some s') : ∃ t', Matches s' t' ∧ Reachable step t t' := by
  obtain ⟨b, writer, readers⟩ := t
  obtain rfl : b = s.buf := h.buf
  obtain rfl : writer = ⟨.idle, s.chunks⟩ := h.writer
  cases l with
  | write sview =>
    cases hs
    refine ⟨_, ?_, reachable_write s.buf sview s.chunks readers⟩
    refine ⟨rfl, ?_, h.readers⟩
    rw [Calls.State.chunks, Calls.State.chunks, List.map_append, hinv.settled.updates_eq hn,
      RingBuffer.map_fst_numberFrom]
  | construct r =>
    cases hs
    obtain ⟨returned, hr⟩ := h.readers r
    refine ⟨_, h.update r (.init n) [], reachable_of_readerStep (.of_step (l := .construct) ?_)⟩
    rw [hr]
    rfl
  | readNext r fuel =>
    obtain ⟨r', hread, rfl⟩ := Option.map_eq_some_iff.mp hs
    obtain ⟨returned, hr⟩ := h.readers r
    obtain rfl := hinv.settled.readNext_iff.mp ⟨fuel, hread⟩
    have hrun := reachable_readOnce hinv.settled (s.readers r) returned
    rw [← hr] at hrun
    exact ⟨_, h.update r _ _, reachable_of_readerStep hrun⟩

/-- **Whole calls are runs of the interleaved model.** What the model of whole calls reaches is
reached there by some schedule. -/
theorem matches_of_reachable (hn : n < 2 ^ 32) {s : Calls.State n ι}
    (hs : Reachable Calls.step (Calls.init n ι) s) :
    ∃ t, Matches s t ∧ Reachable step (init n ι) t := by
  let R : Calls.State n ι → State n ι → Prop := fun s t =>
    Reachable Calls.step (Calls.init n ι) s ∧ Matches s t
  have hstep : ∀ s l s' t, R s t → Calls.step s l = some s' →
      ∃ t', R s' t' ∧ Reachable step t t' := by
    rintro s l s' t ⟨hreach, hmatch⟩ hs
    obtain ⟨t', hmatch', hrun⟩ := hmatch.step hn (Calls.inv_of_reachable hn hreach) hs
    exact ⟨t', ⟨hreach.trans (.of_step hs), hmatch'⟩, hrun⟩
  obtain ⟨t, ⟨-, hmatch⟩, hrun⟩ := hs.simulation hstep ⟨.refl _, matches_init⟩
  exact ⟨t, hmatch, hrun⟩

end Keryx.Interleaving
