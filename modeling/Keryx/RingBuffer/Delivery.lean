import Keryx.RingBuffer.Calls

/-!
# What whole calls deliver

Consecutive calls of `read_next` deliver the chunks that the ring retains, one chunk a call. This
settles what becomes of messages, of readers that fall behind and of sequence numbers that come
round.

* The writer cuts a message into chunks, but publishes each with its true size, and the reader
  takes a size other than `0` for the end of a message. A message comes back whole exactly if it
  fits one slot.
* A reader that is told `LOSS` stays where it is. It gets the next message exactly if fewer than
  `n` chunks were written since its last one.
* `_current_sn` takes the reserved value `0` after `2 ^ 32 - 1` chunks. Up to there a reader that
  keeps up gets every message, and not the next one.

## Main results

* `RingBuffer.Settled.reads` — the chunks that the ring retains are delivered in order.
* `RingBuffer.roundTrip_iff` — messages written to a fresh buffer come back as they were written
  exactly if each fits one slot.
* `Calls.delivers_iff` — which readers get the next message.
* `Calls.sequence_numbers_iff` — how long sequence numbers last.
-/

namespace Keryx

open RingBufferReader

variable {n : ℕ} [NeZero n]

/-- The result `OK` with the data `d`. -/
def ReadResult.delivered (d : Bytes) : ReadResult := ⟨.ok, d⟩

namespace RingBuffer

variable {b : RingBuffer n} {chunks : List Bytes}

/-- **Retained chunks are delivered in order**, one a call, to a reader whose chunk is retained. -/
theorem Settled.reads (hn : n < 2 ^ 32) (h : b.Settled chunks) (hW : chunks.length < 2 ^ 32)
    {r : RingBufferReader n} {e : ℕ} (hr : r.pos.IsAt e) (hle : chunks.length ≤ e + n) {k : ℕ}
    (hk : e + k ≤ chunks.length) :
    ∃ r', Reads b.slots r (((chunks.drop e).take k).map .delivered) r' ∧ r'.pos.IsAt (e + k) := by
  induction k generalizing e r with
  | zero => exact ⟨r, by simpa using Reads.nil r, hr⟩
  | succ k ih =>
    have he : e < chunks.length := by omega
    have hd := List.getElem?_eq_getElem he
    have hread : ReadNext b.slots r ⟨r.pos.moveNext, .delivered chunks[e]⟩ := by
      rw [h.readNext_iff, h.readOnce_ok hW hr hd hle]
      rfl
    obtain ⟨r', hreads, hr'⟩ := ih (r := ⟨r.pos.moveNext, .delivered chunks[e]⟩)
      (hr.moveNext hn) (by omega) (by omega)
    refine ⟨r', ?_, by rwa [Nat.add_right_comm] at hr'⟩
    rw [List.drop_eq_getElem_cons he, List.take_succ_cons, List.map_cons]
    exact Reads.cons hread hreads

/-! ### Messages -/

/-- Consecutive calls of `write`. -/
def writeAll : RingBuffer n → List Bytes → List WriteResult × RingBuffer n
  | b, [] => ([], b)
  | b, m :: ms =>
    let (res, b') := b.write m
    let (ress, b'') := writeAll b' ms
    (res :: ress, b'')

theorem Settled.writeAll (hn : n < 2 ^ 32) : ∀ {b : RingBuffer n} {chunks : List Bytes}
    (msgs : List Bytes), b.Settled chunks →
    (b.writeAll msgs).2.Settled (chunks ++ msgs.flatMap (chunksOf n))
  | b, chunks, [], h => by simpa [RingBuffer.writeAll] using h
  | b, chunks, m :: ms, h => by
    have hrest := (h.write hn m).writeAll hn ms
    simpa [RingBuffer.writeAll, List.append_assoc] using hrest

omit [NeZero n] in
theorem writeAll_ok : ∀ (b : RingBuffer n) (msgs : List Bytes),
    (∀ m ∈ msgs, 1 ≤ m.length ∧ m.length ≤ n * slotSize) →
    (b.writeAll msgs).1 = msgs.map fun _ => .ok
  | b, [], _ => rfl
  | b, m :: ms, hlen => by
    obtain ⟨hpos, hle⟩ := hlen m List.mem_cons_self
    have ih := writeAll_ok (b.write m).2 ms fun m' hm' => hlen m' (List.mem_cons_of_mem m hm')
    rw [RingBuffer.writeAll, List.map_cons, ← ih]
    exact congrArg (· :: _) (b.write_ok hpos hle)

/-- The messages, written in order to a fresh buffer, are all accepted, and a fresh reader is given
them one for one. -/
def RoundTrip (n : ℕ) [NeZero n] (msgs : List Bytes) : Prop :=
  ((init n).writeAll msgs).1 = msgs.map (fun _ => .ok) ∧
    ∃ r', Reads ((init n).writeAll msgs).2.slots (.init n) (msgs.map .delivered) r'

/-- The first chunks of the messages are the messages exactly if each message is one chunk. -/
theorem take_flatMap_chunks_eq_iff {c : ℕ} (hc : 0 < c) : ∀ (msgs : List Bytes),
    (∀ m ∈ msgs, m ≠ []) → ((msgs.flatMap (List.chunks c)).take msgs.length = msgs ↔
      ∀ m ∈ msgs, m.length ≤ c)
  | [], _ => by simp
  | m :: ms, hne => by
    have hm := hne m List.mem_cons_self
    have ih := take_flatMap_chunks_eq_iff hc ms fun m' hm' =>
      hne m' (List.mem_cons_of_mem m hm')
    rw [List.flatMap_cons, List.forall_mem_cons, List.length_cons]
    rcases Nat.lt_or_ge c m.length with h | h
    · -- the first chunk is shorter than the message
      rw [List.chunks_of_ne_nil hc hm, List.cons_append, List.take_succ_cons, List.cons.injEq]
      have hlen : (m.take c).length ≠ m.length := by
        rw [List.length_take]
        omega
      exact ⟨fun h' => absurd (congrArg List.length h'.1) hlen, fun h' => absurd h'.1 (by omega)⟩
    · rw [List.chunks_of_length_le hm h, List.singleton_append, List.take_succ_cons,
        List.cons.injEq, ih]
      exact ⟨fun h' => ⟨h, h'.2⟩, fun h' => ⟨rfl, h'.2⟩⟩

theorem length_flatMap_chunks (msgs : List Bytes) :
    (msgs.flatMap (List.chunks slotSize)).length =
      (msgs.map fun m => (m.length + 55) / 56).sum := by
  rw [List.length_flatMap]
  exact congrArg List.sum (List.map_congr_left fun m _ => List.length_chunks (by decide) m)

theorem length_le_length_flatMap_chunks : ∀ {msgs : List Bytes}, (∀ m ∈ msgs, m ≠ []) →
    msgs.length ≤ (msgs.flatMap (List.chunks slotSize)).length
  | [], _ => Nat.zero_le _
  | m :: ms, hne => by
    have ih := length_le_length_flatMap_chunks fun m' hm' => hne m' (List.mem_cons_of_mem m hm')
    rw [List.flatMap_cons, List.length_append,
      List.chunks_of_ne_nil (by decide) (hne m List.mem_cons_self), List.length_cons,
      List.length_cons]
    omega

/-- Messages that the ring holds all at once are delivered chunk by chunk. -/
theorem reads_writeAll (hn : n < 2 ^ 32) {msgs : List Bytes}
    (hlen : ∀ m ∈ msgs, 1 ≤ m.length ∧ m.length ≤ n * slotSize)
    (hslots : (msgs.map fun m => (m.length + 55) / 56).sum ≤ n) {k : ℕ}
    (hk : k ≤ (msgs.flatMap (List.chunks slotSize)).length) :
    ∃ r', Reads ((init n).writeAll msgs).2.slots (.init n)
      (((msgs.flatMap (List.chunks slotSize)).take k).map .delivered) r' := by
  have hchunks : msgs.flatMap (chunksOf n) = msgs.flatMap (List.chunks slotSize) := by
    refine List.flatMap_congr fun m hm => ?_
    rw [chunksOf, if_neg (by have := (hlen m hm).2; omega)]
  have hsettled := settled_init.writeAll hn msgs
  rw [List.nil_append, hchunks] at hsettled
  rw [← length_flatMap_chunks] at hslots
  obtain ⟨r', hreads, -⟩ := hsettled.reads hn (by omega) (r := .init n) Position.isAt_start
    (by omega) (k := k) (by omega)
  rw [List.drop_zero] at hreads
  exact ⟨r', hreads⟩

/-- What a fresh reader is given are the first chunks of the messages. -/
theorem roundTrip_iff_take (hn : n < 2 ^ 32) {msgs : List Bytes}
    (hlen : ∀ m ∈ msgs, 1 ≤ m.length ∧ m.length ≤ n * slotSize)
    (hslots : (msgs.map fun m => (m.length + 55) / 56).sum ≤ n) :
    RoundTrip n msgs ↔ (msgs.flatMap (List.chunks slotSize)).take msgs.length = msgs := by
  have hne : ∀ m ∈ msgs, m ≠ [] := fun m hm => List.length_pos_iff.mp (hlen m hm).1
  obtain ⟨r', hreads⟩ := reads_writeAll hn hlen hslots (length_le_length_flatMap_chunks hne)
  constructor
  · rintro ⟨-, r'', hreads'⟩
    have hmap := hreads.unique hreads' (by
      simpa using length_le_length_flatMap_chunks hne)
    have hdata := congrArg (List.map ReadResult.data) hmap
    simpa [List.map_map, Function.comp_def, ReadResult.delivered] using hdata
  · intro h
    rw [h] at hreads
    exact ⟨writeAll_ok _ _ hlen, r', hreads⟩

/-- **Message framing.** Messages of at most `56 n` bytes that together occupy at most `n` slots,
written to a fresh buffer, are given to a fresh reader one for one exactly if each of them fits one
slot. -/
theorem roundTrip_iff (hn : n < 2 ^ 32) (msgs : List Bytes)
    (hlen : ∀ m ∈ msgs, 1 ≤ m.length ∧ m.length ≤ n * 56)
    (hslots : (msgs.map fun m => (m.length + 55) / 56).sum ≤ n) :
    RoundTrip n msgs ↔ ∀ m ∈ msgs, m.length ≤ 56 := by
  rw [roundTrip_iff_take hn hlen hslots]
  exact take_flatMap_chunks_eq_iff (by decide) msgs fun m hm =>
    List.length_pos_iff.mp (hlen m hm).1

theorem roundTrip_two_short : RoundTrip 2 [[1, 2], List.replicate 56 3] :=
  (roundTrip_iff (by decide) _ (by decide) (by decide)).mpr (by decide)

/-- A message of 57 bytes comes back as two results. -/
theorem not_roundTrip_of_two_slots : ¬ RoundTrip 2 [List.replicate 57 0] ∧
    ∃ r', Reads ((init 2).writeAll [List.replicate 57 0]).2.slots (.init 2)
      [.delivered (List.replicate 56 0), .delivered [0]] r' := by
  have hchunks : ([List.replicate 57 0] : List Bytes).flatMap (List.chunks slotSize) =
      [List.replicate 56 0, [0]] := by
    rw [List.flatMap_singleton, List.chunks_of_ne_nil (by decide) (by decide),
      List.chunks_of_length_le (by decide) (by decide)]
    rfl
  have hlen : ∀ m ∈ ([List.replicate 57 0] : List Bytes),
      1 ≤ m.length ∧ m.length ≤ 2 * slotSize := by decide
  refine ⟨?_, ?_⟩
  · rw [roundTrip_iff_take (by decide) hlen (by decide), hchunks]
    decide
  · obtain ⟨r', hreads⟩ := reads_writeAll (n := 2) (by decide) hlen (by decide) (k := 2)
      (by rw [hchunks]; decide)
    rw [hchunks] at hreads
    exact ⟨r', hreads⟩

/-! ### Readers that fall behind -/

/-- A reader whose chunk is not there is never told `OK`, however often it asks. -/
theorem Settled.reads_ne_ok (h : b.Settled chunks) (hW : chunks.length < 2 ^ 32)
    {r r' : RingBufferReader n} {outs : List ReadResult} {e : ℕ} (hr : r.pos.IsAt e)
    (he : e ≤ chunks.length) (hnot : ¬ (e < chunks.length ∧ chunks.length ≤ e + n))
    (hreads : Reads b.slots r outs r') : ∀ out ∈ outs, out.result ≠ .ok := by
  induction hreads with
  | nil r => simp
  | @cons r r₁ r' outs hread hreads ih =>
    rw [h.readNext_iff] at hread
    subst hread
    obtain ⟨hpos, hne⟩ := h.readOnce_of_not_retained hW hr he hnot
    exact List.forall_mem_cons.mpr ⟨hne, ih (hpos ▸ hr)⟩

/-- The reader at the chunk `e` gets the message written next exactly if fewer than `n` chunks are
there that it has not read. -/
theorem Settled.reads_delivered_iff (hn : n < 2 ^ 32) (h : b.Settled chunks)
    (hW : chunks.length < 2 ^ 32 - 1) {r : RingBufferReader n} {e : ℕ} (hr : r.pos.IsAt e)
    (he : e ≤ chunks.length) {m : Bytes} (hm : 1 ≤ m.length ∧ m.length ≤ slotSize) :
    (∃ outs r', Reads (b.write m).2.slots r (outs ++ [.delivered m]) r') ↔
      chunks.length - e < n := by
  have hwrite := h.write hn m
  rw [chunksOf_of_length_le hm.1 hm.2] at hwrite
  have hlen : (chunks ++ [m]).length = chunks.length + 1 := by simp
  constructor
  · rintro ⟨outs, r', hreads⟩
    by_contra hlag
    have hne := hwrite.reads_ne_ok (by omega) hr (by omega) (by omega) hreads (.delivered m)
      (by simp)
    exact hne rfl
  · intro hlag
    obtain ⟨r', hreads, -⟩ := hwrite.reads hn (by omega) hr (by omega)
      (k := chunks.length + 1 - e) (by omega)
    refine ⟨(chunks.drop e).map .delivered, r', ?_⟩
    rwa [List.take_of_length_le (by simp), List.drop_append_of_le_length he, List.map_append,
      List.map_singleton] at hreads

end RingBuffer

namespace Calls

open Transition RingBuffer

variable {ι : Type*} [DecidableEq ι]

/-- The number of chunks that a reader has not read. -/
theorem toNat_sub_sn {b : RingBuffer n} {r : RingBufferReader n} {W e : ℕ} (hb : b.pos.IsAt W)
    (hr : r.pos.IsAt e) (he : e ≤ W) (hW : W < 2 ^ 32 - 1) :
    (b.pos.sn - r.pos.sn).toNat = W - e := by
  rw [hb.1, hr.1, UInt32.toNat_sub, UInt32.toNat_ofNat', UInt32.toNat_ofNat',
    Nat.mod_eq_of_lt (by omega : W + 1 < 2 ^ 32), Nat.mod_eq_of_lt (by omega : e + 1 < 2 ^ 32)]
  omega

/-- **Which readers get the next message.** In every state that whole calls reach, a reader gets the
message `m` that is written next, after some number of calls of `read_next`, exactly if
`_current_sn - _expected_sn` is less than the number of slots. -/
theorem delivers_iff (hn : n < 2 ^ 32) {s : State n ι} (hs : Reachable step (init n ι) s)
    (hW : s.chunks.length < 2 ^ 32 - 1) (r : ι) {m : Bytes} (hm : 1 ≤ m.length ∧ m.length ≤ 55) :
    (∃ outs r', Reads (s.buf.write m).2.slots (s.readers r) (outs ++ [.delivered m]) r') ↔
      (s.buf.pos.sn - (s.readers r).pos.sn).toNat < n := by
  have h := inv_of_reachable hn hs
  obtain ⟨e, he, hr⟩ := h.readers (by omega) r
  rw [toNat_sub_sn h.settled.pos hr he hW]
  exact h.settled.reads_delivered_iff hn hW hr he ⟨hm.1, hm.2.trans (by decide)⟩

/-- A reader of a ring of two slots that has one message to read. -/
theorem delivers_second_of_two : ∃ s : State 2 Unit, Reachable step (init 2 Unit) s ∧
    s.chunks = [[1]] ∧
    ∃ outs r', Reads (s.buf.write [2]).2.slots (s.readers ()) (outs ++ [.delivered [2]]) r' := by
  obtain ⟨s, hs, hinv, hreader⟩ := exists_small_messages (n := 2) (by decide) [[1]] (by decide)
  have hchunks := hinv.chunks_eq
  refine ⟨s, hs, hchunks, ?_⟩
  refine (delivers_iff (by decide) hs (by rw [hchunks]; decide) () (by decide)).mpr ?_
  have hr : (s.readers ()).pos.IsAt 0 := hreader ▸ Position.isAt_start
  rw [toNat_sub_sn hinv.settled.pos hr (by decide) (by decide)]
  decide

/-- A reader constructed after two messages on a ring of two slots does not get the third message,
nor any other: it is told `LOSS` for ever. -/
theorem not_delivers_to_late_reader : ∃ s : State 2 Unit,
    Reachable step (init 2 Unit) s ∧ s.chunks = [[1], [2]] ∧ s.readers () = .init 2 ∧
    ¬ ∃ outs r', Reads (s.buf.write [3]).2.slots (s.readers ()) (outs ++ [.delivered [3]]) r' := by
  obtain ⟨s, hs, hinv, hreader⟩ :=
    exists_small_messages (n := 2) (by decide) [[1], [2]] (by decide)
  have hr : (s.readers ()).pos.IsAt 0 := hreader ▸ Position.isAt_start
  refine ⟨s, hs, hinv.chunks_eq, hreader, ?_⟩
  rw [hinv.settled.reads_delivered_iff (by decide) (by decide) hr (by decide) (by decide)]
  decide

/-! ### Sequence numbers that come round -/

/-- The messages are written one after the other, `read_next` is called after each `write`, and the
calls of `read_next` return the results given. -/
def LockStep : RingBuffer n → RingBufferReader n → List Bytes → List ReadResult → Prop
  | _, _, [], [] => True
  | b, r, m :: ms, out :: outs => ∃ r₁, ReadNext (b.write m).2.slots r r₁ ∧ r₁.result = out ∧
      LockStep (b.write m).2 r₁ ms outs
  | _, _, _, _ => False

/-- The reserved sequence number `0` is the one of every `2 ^ 32`-th chunk. -/
theorem forall_numberFrom_ne_zero_iff (chunks : List Bytes) :
    (∀ u ∈ numberFrom 0 chunks, u.2 ≠ 0) ↔ chunks.length < 2 ^ 32 := by
  constructor
  · intro h
    by_contra hlen
    have hlt : 2 ^ 32 - 1 < chunks.length := by omega
    refine h (chunks[2 ^ 32 - 1], UInt32.ofNat (2 ^ 32 - 1 + 1)) ?_ rfl
    exact List.mem_map.mpr ⟨(chunks[2 ^ 32 - 1], 2 ^ 32 - 1),
      List.mk_mem_zipIdx_iff_getElem?.mpr (List.getElem?_eq_getElem hlt), rfl⟩
  · intro hlen u hu h0
    obtain ⟨⟨d, k⟩, hk, rfl⟩ := List.mem_map.mp hu
    have hlt := (List.getElem?_eq_some_iff.mp (List.mk_mem_zipIdx_iff_getElem?.mp hk)).1
    have : k + 1 = 0 := uint32_ofNat_inj (by omega) (by decide) h0
    omega

/-- A reader that has caught up gets every message until the sequence numbers are used up. -/
theorem lockStep_iff (hn : n < 2 ^ 32) : ∀ {b : RingBuffer n} {chunks : List Bytes}
    {r : RingBufferReader n} (msgs : List Bytes), b.Settled chunks → r.pos.IsAt chunks.length →
    chunks.length < 2 ^ 32 → (∀ m ∈ msgs, 1 ≤ m.length ∧ m.length ≤ slotSize) →
    (LockStep b r msgs (msgs.map .delivered) ↔ chunks.length + msgs.length < 2 ^ 32)
  | b, chunks, r, [], _, _, hW, _ => ⟨fun _ => hW, fun _ => trivial⟩
  | b, chunks, r, m :: ms, hb, hr, hW, hlen => by
    obtain ⟨hpos, hle⟩ := hlen m List.mem_cons_self
    have hwrite := hb.write hn m
    rw [chunksOf_of_length_le hpos hle] at hwrite
    have hlen' : (chunks ++ [m]).length = chunks.length + 1 := by simp
    have hread := hwrite.readOnce_of_retained hr (d := m) (by simp)
      (by have := Nat.pos_of_neZero n; omega)
    rw [List.map_cons, List.length_cons]
    rcases Nat.lt_or_ge (chunks.length + 1) (2 ^ 32) with hlt | hge
    · have ih := lockStep_iff hn ms (r := ⟨r.pos.moveNext, .delivered m⟩) hwrite
        (by rw [hlen']; exact hr.moveNext hn) (by omega)
        fun m' hm' => hlen m' (List.mem_cons_of_mem m hm')
      have hne : UInt32.ofNat (chunks.length + 1) ≠ 0 := fun h' =>
        Nat.succ_ne_zero _ (uint32_ofNat_inj hlt (by decide) h')
      rw [if_neg hne] at hread
      rw [hlen', show chunks.length + 1 + ms.length = chunks.length + (ms.length + 1) by omega]
        at ih
      rw [← ih, LockStep]
      constructor
      · rintro ⟨r₁, hread', -, h⟩
        rw [hwrite.readNext_iff, hread] at hread'
        exact hread' ▸ h
      · exact fun h => ⟨_, hwrite.readNext_iff.mpr hread.symm, rfl, h⟩
    · -- the chunk is published with the sequence number `0`, which says that the slot is empty
      refine iff_of_false ?_ (by omega)
      rintro ⟨r₁, hread', hres, -⟩
      rw [if_pos (by rw [show chunks.length + 1 = 2 ^ 32 by omega]; rfl)] at hread
      rw [hwrite.readNext_iff, hread] at hread'
      rw [hread'] at hres
      exact absurd (congrArg ReadResult.result hres) (by simp [ReadResult.delivered])

variable (ι) in
/-- **How long sequence numbers last.** In a run of whole calls no chunk is published with the
reserved sequence number `0` exactly if there are fewer than `2 ^ 32` chunks; and a reader that
calls `read_next` after every `write` of a message of 1 to 55 bytes gets exactly that message every
time exactly if there are fewer than `2 ^ 32` messages. -/
theorem sequence_numbers_iff (hn : n < 2 ^ 32) :
    (∀ s : State n ι, Reachable step (init n ι) s →
      ((∀ u ∈ s.updates, u.2 ≠ 0) ↔ s.updates.length < 2 ^ 32)) ∧
    ∀ msgs : List Bytes, (∀ m ∈ msgs, 1 ≤ m.length ∧ m.length ≤ 55) →
      (LockStep (.init n) (.init n) msgs (msgs.map .delivered) ↔ msgs.length < 2 ^ 32) := by
  refine ⟨fun s hs => ?_, fun msgs hlen => ?_⟩
  · have h := inv_of_reachable hn hs
    rw [h.updates, forall_numberFrom_ne_zero_iff, ← h.updates, State.chunks, List.length_map]
  · have h := lockStep_iff hn msgs settled_init (r := .init n) Position.isAt_start
      (by decide) fun m hm => ⟨(hlen m hm).1, (hlen m hm).2.trans (by decide)⟩
    simpa using h

theorem sequence_numbers_of_two_messages :
    LockStep (.init 1) (.init 1) [[1], [2, 3]] [.delivered [1], .delivered [2, 3]] :=
  ((sequence_numbers_iff (n := 1) Unit (by decide)).2 [[1], [2, 3]] (by decide)).mpr (by decide)

/-- After `2 ^ 32` messages of one byte a chunk has been published with the sequence number `0`, and
the reader has not got it. -/
theorem sequence_number_zero_after_wrap :
    (∃ s : State 1 Unit, Reachable step (init 1 Unit) s ∧ ∃ u ∈ s.updates, u.2 = 0) ∧
    ¬ LockStep (.init 1) (.init 1) (List.replicate (2 ^ 32) [0])
      ((List.replicate (2 ^ 32) [0]).map .delivered) := by
  constructor
  · obtain ⟨s, hs, hinv, -⟩ := exists_small_messages (n := 1) (by decide)
      (List.replicate (2 ^ 32) [0])
      fun m hm => (List.eq_of_mem_replicate hm) ▸ ⟨by decide, by decide⟩
    refine ⟨s, hs, ?_⟩
    by_contra h
    push Not at h
    rw [hinv.updates, forall_numberFrom_ne_zero_iff, List.length_replicate] at h
    exact absurd h (by decide)
  · rw [lockStep_iff (by decide) _ settled_init Position.isAt_start (by decide)
      fun m hm => (List.eq_of_mem_replicate hm) ▸ ⟨by decide, by decide⟩]
    rw [List.length_replicate]
    decide

end Calls

end Keryx
