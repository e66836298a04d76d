import Keryx.RingBuffer.Contents
import Keryx.Lib.Run
import Mathlib.Logic.Function.Basic

/-!
# Runs of whole calls

Whole calls of `RingBuffer::write` and `RingBufferReader::read_next`, by any number of readers, in
any order. A call of `write` puts the chunks of its message into the ring one after the other; a
call of `read_next` leaves its loop in the first pass, because the writer never publishes a chunk of
size `0`.

## Main definitions

* `Calls.step` — a system of one buffer and its readers, a label being one whole call.
* `Calls.State.chunks` — the chunks passed to `Slot::update` so far.
* `RingBufferReader.readOnce` — the first pass of the loop of `read_next`.

## Main results

* `RingBuffer.write_eq`, `RingBuffer.Settled.write` — the effect of `write`.
* `RingBufferReader.readNext_iff` — on the slots of a settled buffer `read_next` is `readOnce`.
* `RingBuffer.Settled.readOnce_ok`, `RingBuffer.Settled.readOnce_of_not_retained` — a chunk that the
  ring retains is delivered; a reader whose chunk is not there stays where it is.
* `Calls.inv_of_reachable` — the invariant of runs of any length.
-/

namespace Keryx

variable {n : ℕ}

/-! ### The chunks of a message -/

namespace RingBuffer

/-- The chunks of the message that `write` puts into a ring of `n` slots: none when it refuses the
message. -/
def chunksOf (n : ℕ) (sview : Bytes) : List Bytes :=
  if sview.length > n * slotSize then [] else sview.chunks slotSize

theorem nextChunk_eq (sview : Bytes) (currentByte : ℕ) :
    nextChunk sview currentByte = (sview.drop currentByte).take slotSize := by
  rw [nextChunk, ← List.length_drop, List.take_eq_take_iff]
  omega

/-- The calls of `Slot::update` made while the chunks `ds` are put into the ring. -/
def putCalls : RingBuffer n → List Bytes → List (Bytes × UInt32)
  | _, [] => []
  | b, d :: ds => (d, b.pos.sn) :: putCalls (b.put d) ds

/-- One pass of the loop of `write` takes the first chunk off the rest of the message. -/
theorem chunks_drop {sview : Bytes} {currentByte : ℕ} (hle : currentByte ≤ sview.length)
    (hne : currentByte ≠ sview.length) :
    (sview.drop currentByte).chunks slotSize = nextChunk sview currentByte ::
      (sview.drop (currentByte + (nextChunk sview currentByte).length)).chunks slotSize := by
  have hnil : sview.drop currentByte ≠ [] := by
    rw [Ne, List.drop_eq_nil_iff]
    omega
  rw [List.chunks_of_ne_nil (by decide) hnil, nextChunk_eq, ← List.drop_drop,
    List.drop_length_take]

/-- The loop of `write` puts the chunks of the rest of the message into the ring. -/
theorem writeLoop_eq (sview : Bytes) (b : RingBuffer n) (currentByte : ℕ)
    (h : currentByte ≤ sview.length) :
    b.writeLoop sview currentByte h =
      ((sview.drop currentByte).chunks slotSize).foldl put b := by
  fun_induction writeLoop with
  | case1 b => simp
  | case2 b currentByte h hne d ih => rw [ih, chunks_drop h hne, List.foldl_cons]

theorem updateLoop_eq (sview : Bytes) (b : RingBuffer n) (currentByte : ℕ)
    (h : currentByte ≤ sview.length) :
    b.updateLoop sview currentByte h =
      b.putCalls ((sview.drop currentByte).chunks slotSize) := by
  fun_induction updateLoop with
  | case1 b => simp [putCalls]
  | case2 b currentByte h hne d ih => rw [ih, chunks_drop h hne, putCalls]

theorem write_eq (b : RingBuffer n) (sview : Bytes) :
    (b.write sview).2 = (chunksOf n sview).foldl put b := by
  rw [write, chunksOf]
  split_ifs with h h'
  · rfl
  · simp [List.isEmpty_iff.mp h']
  · rw [writeLoop_eq, List.drop_zero]

theorem updates_eq (b : RingBuffer n) (sview : Bytes) :
    b.updates sview = b.putCalls (chunksOf n sview) := by
  rw [updates, chunksOf]
  split_ifs with h h'
  · rfl
  · simp [List.isEmpty_iff.mp h', putCalls]
  · rw [updateLoop_eq, List.drop_zero]

theorem write_ok (b : RingBuffer n) {sview : Bytes} (hpos : 0 < sview.length)
    (hle : sview.length ≤ n * slotSize) : (b.write sview).1 = .ok := by
  have hne : ¬ sview.isEmpty := fun h => List.length_pos_iff.mp hpos (List.isEmpty_iff.mp h)
  rw [write, if_neg (by omega), if_neg hne]

/-- A message of 1 to 56 bytes is one chunk. -/
theorem chunksOf_of_length_le [NeZero n] {sview : Bytes} (hpos : 0 < sview.length)
    (hle : sview.length ≤ slotSize) : chunksOf n sview = [sview] := by
  have := Nat.le_mul_of_pos_left slotSize (Nat.pos_of_neZero n)
  rw [chunksOf, if_neg (by omega), List.chunks_of_length_le (List.length_pos_iff.mp hpos) hle]

theorem length_of_mem_chunksOf {sview d : Bytes} (hd : d ∈ chunksOf n sview) :
    0 < d.length ∧ d.length ≤ slotSize := by
  rw [chunksOf] at hd
  split_ifs at hd
  · simp at hd
  · exact List.length_of_mem_chunks (by decide) hd

variable [NeZero n] {b : RingBuffer n} {chunks : List Bytes}

/-- The effect of a whole `write`. -/
theorem Settled.write (hn : n < 2 ^ 32) (h : b.Settled chunks) (sview : Bytes) :
    (b.write sview).2.Settled (chunks ++ chunksOf n sview) := by
  rw [write_eq]
  exact h.foldl_put hn _ fun _ hd => length_of_mem_chunksOf hd

/-- The chunks `ds`, the first of which has the number `k`, with their sequence numbers. -/
def numberFrom (k : ℕ) (ds : List Bytes) : List (Bytes × UInt32) :=
  (ds.zipIdx k).map fun p => (p.1, UInt32.ofNat (p.2 + 1))

theorem map_fst_numberFrom (k : ℕ) (ds : List Bytes) : (numberFrom k ds).map Prod.fst = ds := by
  rw [numberFrom, List.map_map]
  exact List.zipIdx_map_fst k ds

theorem numberFrom_append (k : ℕ) (ds ds' : List Bytes) :
    numberFrom k (ds ++ ds') = numberFrom k ds ++ numberFrom (k + ds.length) ds' := by
  rw [numberFrom, List.zipIdx_append, List.map_append, numberFrom, numberFrom]

/-- The chunk `k` is published with the sequence number `k + 1`. -/
theorem Settled.putCalls_eq (hn : n < 2 ^ 32) : ∀ {b : RingBuffer n} {chunks : List Bytes}
    (ds : List Bytes), b.Settled chunks → (∀ d ∈ ds, 0 < d.length ∧ d.length ≤ slotSize) →
    b.putCalls ds = numberFrom chunks.length ds
  | b, chunks, [], _, _ => rfl
  | b, chunks, d :: ds, h, hds => by
    have hput := h.put hn (hds d List.mem_cons_self)
    have ih := hput.putCalls_eq hn ds fun d' hd' => hds d' (List.mem_cons_of_mem d hd')
    rw [putCalls, ih, h.pos.1, List.length_append, List.length_singleton]
    rfl

theorem Settled.updates_eq (hn : n < 2 ^ 32) (h : b.Settled chunks) (sview : Bytes) :
    b.updates sview = numberFrom chunks.length (chunksOf n sview) := by
  rw [RingBuffer.updates_eq]
  exact h.putCalls_eq hn _ fun _ hd => length_of_mem_chunksOf hd

end RingBuffer

/-! ### One call of `read_next` -/

namespace RingBufferReader

variable {slots : Vector Slot n} {r r' : RingBufferReader n}

theorem readLoop_succ {fuel : ℕ} {r r' : RingBufferReader n} {w : Position n}
    (h : readLoop slots fuel r w = some r') : readLoop slots (fuel + 1) r w = some r' := by
  induction fuel generalizing r w with
  | zero => cases h
  | succ fuel ih =>
    rw [readLoop] at h ⊢
    dsimp only at h ⊢
    split_ifs at h ⊢
    all_goals first | exact h | exact ih h

theorem readLoop_of_le {fuel fuel' : ℕ} {w : Position n} (hle : fuel ≤ fuel')
    (h : readLoop slots fuel r w = some r') : readLoop slots fuel' r w = some r' := by
  induction hle with
  | refl => exact h
  | step _ ih => exact readLoop_succ ih

/-- `read_next` has at most one outcome. -/
theorem ReadNext.unique {r₁ r₂ : RingBufferReader n} (h₁ : ReadNext slots r r₁)
    (h₂ : ReadNext slots r r₂) : r₁ = r₂ := by
  obtain ⟨fuel₁, h₁⟩ := h₁
  obtain ⟨fuel₂, h₂⟩ := h₂
  have h₁' := readLoop_of_le (Nat.le_max_left fuel₁ fuel₂) h₁
  have h₂' := readLoop_of_le (Nat.le_max_right fuel₁ fuel₂) h₂
  exact Option.some.inj (h₁'.symm.trans h₂')

/-- The results of consecutive calls are determined by their number. -/
theorem Reads.unique {r r₁ r₂ : RingBufferReader n} {outs₁ outs₂ : List ReadResult}
    (h₁ : Reads slots r outs₁ r₁) (h₂ : Reads slots r outs₂ r₂)
    (hlen : outs₁.length = outs₂.length) : outs₁ = outs₂ := by
  induction h₁ generalizing outs₂ with
  | nil r => exact (List.length_eq_zero_iff.mp hlen.symm).symm
  | cons h hs ih =>
    cases h₂ with
    | nil => simp at hlen
    | cons h' hs' =>
      obtain rfl := h.unique h'
      rw [ih hs' (by simpa using hlen)]

/-- The first pass of the loop of `read_next` when the slot does not show the size `0`. -/
def readOnce (slots : Vector Slot n) (r : RingBufferReader n) : RingBufferReader n :=
  let cslot := slots.get r.pos.index
  if cslot.header.sn = 0 then ⟨r.pos, ⟨.noData, []⟩⟩
  else if cslot.header.sn ≠ r.pos.sn then ⟨r.pos, ⟨.loss, []⟩⟩
  else ⟨r.pos.moveNext, ⟨.ok, cslot.data.toList.take (ReadResult.appendSize cslot.header.sz)⟩⟩

/-- `read_next` returns after the first pass of its loop when the header of its slot does not have
the size `0`, or shows an empty slot. -/
theorem readNext_succ (fuel : ℕ) (h : (slots.get r.pos.index).header.sn = 0 ∨
    (slots.get r.pos.index).header.sz ≠ 0) :
    readNext slots (fuel + 1) r = some (readOnce slots r) := by
  simp only [readNext, readLoop, readOnce]
  split_ifs with h0 hsn hsn' hsz
  · rfl
  · rfl
  · exact absurd rfl hsn'
  · simp [finish, ReadResult.setResult, ReadResult.append, ReadResult.clear]
  · exact absurd (h.resolve_left h0) hsz

/-- On such a slot `read_next` is `readOnce`. -/
theorem readNext_iff (h : (slots.get r.pos.index).header.sn = 0 ∨
    (slots.get r.pos.index).header.sz ≠ 0) : ReadNext slots r r' ↔ r' = readOnce slots r := by
  constructor
  · exact fun h' => h'.unique ⟨1, readNext_succ 0 h⟩
  · rintro rfl
    exact ⟨1, readNext_succ 0 h⟩

end RingBufferReader

namespace RingBuffer.Settled

open RingBufferReader

variable [NeZero n] {b : RingBuffer n} {chunks : List Bytes} {r r' : RingBufferReader n} {e : ℕ}

/-- With no update in progress every call of `read_next` returns after the first pass of its
loop. -/
theorem readNext_iff (h : b.Settled chunks) : ReadNext b.slots r r' ↔ r' = readOnce b.slots r :=
  RingBufferReader.readNext_iff (h.slots.sn_eq_zero_or_sz_ne_zero r.pos.index)

/-- A chunk that the ring retains is delivered, unless its sequence number is the reserved one. -/
theorem readOnce_of_retained (h : b.Settled chunks) (hr : r.pos.IsAt e) {d : Bytes}
    (hd : chunks[e]? = some d) (hle : chunks.length ≤ e + n) :
    readOnce b.slots r = if UInt32.ofNat (e + 1) = 0 then ⟨r.pos, ⟨.noData, []⟩⟩
      else ⟨r.pos.moveNext, ⟨.ok, d⟩⟩ := by
  have he := (List.getElem?_eq_some_iff.mp hd).1
  obtain ⟨hheader, hdata⟩ := h.slots.holds e d hd he hle
  have hsize := (h.slots.appendSize_of_mem (List.mem_of_getElem? hd)).2
  simp only [readOnce]
  rw [hr.2, hr.1, hheader]
  split_ifs with h0 hsn
  · rfl
  · exact absurd rfl hsn
  · rw [hsize, ← List.prefix_iff_eq_take.mp hdata]

/-- Below `2 ^ 32` chunks a chunk that the ring retains is delivered. -/
theorem readOnce_ok (h : b.Settled chunks) (hW : chunks.length < 2 ^ 32) (hr : r.pos.IsAt e)
    {d : Bytes} (hd : chunks[e]? = some d) (hle : chunks.length ≤ e + n) :
    readOnce b.slots r = ⟨r.pos.moveNext, ⟨.ok, d⟩⟩ := by
  have he := (List.getElem?_eq_some_iff.mp hd).1
  rw [h.readOnce_of_retained hr hd hle, if_neg fun h' => ?_]
  have : e + 1 = 0 := uint32_ofNat_inj (by omega) (by decide) h'
  omega

/-- A reader whose chunk is not there, not yet or no longer, is not told `OK` and stays where it
is. -/
theorem readOnce_of_not_retained (h : b.Settled chunks) (hW : chunks.length < 2 ^ 32)
    (hr : r.pos.IsAt e) (he : e ≤ chunks.length)
    (hnot : ¬ (e < chunks.length ∧ chunks.length ≤ e + n)) :
    (readOnce b.slots r).pos = r.pos ∧ (readOnce b.slots r).result.result ≠ .ok := by
  simp only [readOnce]
  split_ifs with h0 hsn
  · exact ⟨rfl, by simp⟩
  · exact ⟨rfl, by simp⟩
  · rw [hr.2, hr.1] at hsn
    rw [hr.2] at h0
    exact absurd (h.slots.retained_of_sn hW he (not_not.mp hsn) h0) hnot

end RingBuffer.Settled

/-! ### Systems of one buffer and its readers -/

namespace Calls

open Transition

variable {ι : Type*}

/-- A buffer and its readers, with the arguments of the calls of `Slot::update` so far. -/
structure State (n : ℕ) (ι : Type*) where
  buf : RingBuffer n
  readers : ι → RingBufferReader n
  updates : List (Bytes × UInt32)

/-- The chunks passed to `Slot::update` so far. -/
def State.chunks (s : State n ι) : List Bytes := s.updates.map Prod.fst

/-- A whole call. The loop of `read_next` may make `fuel` passes. -/
inductive Label (ι : Type*) where
  | write (sview : Bytes)
  | construct (r : ι)
  | readNext (r : ι) (fuel : ℕ)

/-- A whole call of `write`, of the constructor of a reader or of `read_next`. -/
def step [NeZero n] [DecidableEq ι] (s : State n ι) : Label ι → Option (State n ι)
  | .write sview => some { s with
      buf := (s.buf.write sview).2
      updates := s.updates ++ s.buf.updates sview }
  | .construct r => some { s with readers := Function.update s.readers r (.init n) }
  | .readNext r fuel => (RingBufferReader.readNext s.buf.slots fuel (s.readers r)).map fun r' =>
      { s with readers := Function.update s.readers r r' }

/-- A fresh buffer and fresh readers. -/
def init (n : ℕ) (ι : Type*) [NeZero n] : State n ι := ⟨.init n, fun _ => .init n, []⟩

variable [NeZero n]

/-- The invariant of the system after the chunks `chunks`. A reader is never ahead of the writer, as
long as sequence numbers have not come round. -/
structure Inv (s : State n ι) (chunks : List Bytes) : Prop where
  settled : s.buf.Settled chunks
  updates : s.updates = RingBuffer.numberFrom 0 chunks
  readers : chunks.length < 2 ^ 32 → ∀ r, ∃ e ≤ chunks.length, (s.readers r).pos.IsAt e

variable {chunks : List Bytes}

theorem Inv.chunks_eq {s : State n ι} (h : Inv s chunks) : s.chunks = chunks := by
  rw [State.chunks, h.updates, RingBuffer.map_fst_numberFrom]

theorem inv_init : Inv (init n ι) [] where
  settled := RingBuffer.settled_init
  updates := rfl
  readers _ _ := ⟨0, Nat.zero_le _, Position.isAt_start⟩

/-- A call of `read_next` moves the reader past at most the chunk it expects. -/
theorem readNext_isAt (hn : n < 2 ^ 32) {b : RingBuffer n} (h : b.Settled chunks)
    (hW : chunks.length < 2 ^ 32) {r r' : RingBufferReader n}
    (hr : ∃ e ≤ chunks.length, r.pos.IsAt e) (hread : RingBufferReader.ReadNext b.slots r r') :
    ∃ e ≤ chunks.length, r'.pos.IsAt e := by
  obtain ⟨e, he, hr⟩ := hr
  rw [h.readNext_iff] at hread
  subst hread
  by_cases hret : e < chunks.length ∧ chunks.length ≤ e + n
  · rw [h.readOnce_ok hW hr (List.getElem?_eq_getElem hret.1) hret.2]
    exact ⟨e + 1, hret.1, hr.moveNext hn⟩
  · rw [(h.readOnce_of_not_retained hW hr he hret).1]
    exact ⟨e, he, hr⟩

theorem Inv.write (hn : n < 2 ^ 32) {s : State n ι} (h : Inv s chunks) (sview : Bytes) :
    Inv { s with buf := (s.buf.write sview).2, updates := s.updates ++ s.buf.updates sview }
      (chunks ++ RingBuffer.chunksOf n sview) where
  settled := h.settled.write hn sview
  updates := by
    rw [h.settled.updates_eq hn, h.updates, RingBuffer.numberFrom_append, Nat.zero_add]
  readers hW r := by
    rw [List.length_append] at hW ⊢
    obtain ⟨e, he, hr⟩ := h.readers (by omega) r
    exact ⟨e, by omega, hr⟩

/-- Calls of `write` alone: they move no reader. -/
theorem Inv.run_writes [DecidableEq ι] (hn : n < 2 ^ 32) : ∀ {s : State n ι}
    {chunks : List Bytes} (msgs : List Bytes), Inv s chunks →
    ∃ s', run step s (msgs.map .write) = some s' ∧
      Inv s' (chunks ++ msgs.flatMap (RingBuffer.chunksOf n)) ∧ s'.readers = s.readers
  | s, chunks, [], h => ⟨s, rfl, by simpa using h, rfl⟩
  | s, chunks, m :: ms, h => by
    obtain ⟨s', hrun, hinv, hreaders⟩ := (h.write hn m).run_writes hn ms
    exact ⟨s', hrun, by simpa [List.append_assoc] using hinv, hreaders⟩

/-- One reader may be moved as long as it is not moved ahead of the writer. -/
theorem Inv.update [DecidableEq ι] {s : State n ι} (h : Inv s chunks) (r : ι)
    {t : RingBufferReader n}
    (ht : chunks.length < 2 ^ 32 → ∃ e ≤ chunks.length, t.pos.IsAt e) :
    Inv { s with readers := Function.update s.readers r t } chunks where
  settled := h.settled
  updates := h.updates
  readers hW r' := by
    by_cases hrr : r' = r
    · subst hrr
      simpa using ht hW
    · simpa [Function.update_of_ne hrr] using h.readers hW r'

theorem Inv.step [DecidableEq ι] (hn : n < 2 ^ 32) (s : State n ι) (l : Label ι) (s' : State n ι)
    (h : ∃ chunks, Inv s chunks) (hs : step s l = some s') : ∃ chunks, Inv s' chunks := by
  obtain ⟨chunks, h⟩ := h
  cases l with
  | write sview =>
    cases hs
    exact ⟨_, h.write hn sview⟩
  | construct r =>
    cases hs
    exact ⟨_, h.update r fun _ => ⟨0, Nat.zero_le _, Position.isAt_start⟩⟩
  | readNext r fuel =>
    obtain ⟨t, hstep, rfl⟩ := Option.map_eq_some_iff.mp hs
    exact ⟨_, h.update r fun hW =>
      readNext_isAt hn h.settled hW (h.readers hW r) ⟨fuel, hstep⟩⟩

theorem inv_of_reachable [DecidableEq ι] (hn : n < 2 ^ 32) {s : State n ι}
    (hs : Reachable step (init n ι) s) : Inv s s.chunks := by
  obtain ⟨chunks, h⟩ :=
    hs.invariant (P := fun s => ∃ chunks, Inv s chunks) (Inv.step hn) ⟨[], inv_init⟩
  rw [h.chunks_eq]
  exact h

/-- Messages of one slot each are written, and nothing is read. -/
theorem exists_small_messages (hn : n < 2 ^ 32) (msgs : List Bytes)
    (hmsgs : ∀ m ∈ msgs, 0 < m.length ∧ m.length ≤ slotSize) : ∃ s : State n Unit,
    Reachable step (init n Unit) s ∧ Inv s msgs ∧ s.readers () = .init n := by
  obtain ⟨s, hrun, hinv, hreaders⟩ := (inv_init (n := n) (ι := Unit)).run_writes hn msgs
  have hflat : msgs.flatMap (RingBuffer.chunksOf n) = msgs.flatMap fun m => [m] :=
    List.flatMap_congr fun m hm =>
      RingBuffer.chunksOf_of_length_le (hmsgs m hm).1 (hmsgs m hm).2
  rw [List.nil_append, hflat, List.flatMap_singleton'] at hinv
  exact ⟨s, ⟨_, hrun⟩, hinv, congrFun hreaders ()⟩

end Calls

end Keryx
