import Keryx.RingBuffer.Writing

/-!
# What one call of `read_next` returns

Between whole calls a reader is at the position of some chunk, at most the one written next. If the
ring retains the chunk, `read_next` delivers it and moves on; otherwise the reader stays where it
is. What it is told then depends on the header it finds. On the first lap the slot of the next chunk
is empty, on every later lap it holds an older chunk, and the reader takes that for a loss.

A header with the size `0` stands for a full slot whose message continues. The writer never
publishes one, and the loop of `read_next` would load the same slot again.

## Main definitions

* `Calls.Truthful` — `NO_DATA` and `LOSS` mean what they say.
* `RingBufferReader.Fragments` — the slots hold one message in several fragments.
* `RingBufferReader.Reassembles` — `read_next` returns the message.

## Main results

* `Calls.readNext_delivers_iff` — when `read_next` delivers, and what.
* `Calls.readNext_truthful_iff` — when `NO_DATA` and `LOSS` mean what they say.
* `RingBufferReader.reassembles_iff` — only a message of one fragment is reassembled.

Source: `src/lib/ring_buffer/ring_buffer.h`, lines 98–103 and 116–162.
-/

namespace Keryx

open RingBufferReader

variable {n : ℕ}

namespace RingBuffer.Settled

variable [NeZero n] {b : RingBuffer n} {chunks : List Bytes} {r : RingBufferReader n} {e : ℕ}

/-- A reader is told `NO_DATA` exactly if no chunk has reached its slot. -/
theorem readOnce_noData_iff (h : b.Settled chunks) (hW : chunks.length < 2 ^ 32) :
    (readOnce b.slots r).result.result = .noData ↔ chunks.length ≤ r.pos.index := by
  have hsn : (b.slots.get r.pos.index).header.sn = 0 ↔ chunks.length ≤ r.pos.index := by
    constructor
    · intro h0
      by_contra hlt
      obtain ⟨k, hk, hk', hindex⟩ := exists_last_chunk (not_le.mp hlt)
      obtain ⟨hheader, -⟩ := h.slots.holds k _ (List.getElem?_eq_getElem hk) hk hk'
      rw [← hindex, hheader] at h0
      exact Nat.succ_ne_zero k (uint32_ofNat_inj (by omega) (by decide) h0)
    · intro hle
      rw [h.slots.empty r.pos.index hle]
  rw [← hsn, readOnce]
  split_ifs with h0 h1
  · exact iff_of_true rfl h0
  · exact iff_of_false (by simp) h0
  · exact iff_of_false (by simp) h0

/-- What a reader at the chunk `e` is told: `OK` if the chunk is retained; otherwise `NO_DATA` or
`LOSS`, as no chunk or some chunk has reached its slot. -/
theorem readOnce_result (h : b.Settled chunks) (hW : chunks.length < 2 ^ 32) (hr : r.pos.IsAt e)
    (he : e ≤ chunks.length) :
    (readOnce b.slots r).result.result =
      if e < chunks.length ∧ chunks.length ≤ e + n then .ok
      else if chunks.length ≤ e % n then .noData else .loss := by
  have hindex : (r.pos.index : ℕ) = e % n := congrArg Fin.val hr.2
  have hnoData := h.readOnce_noData_iff hW (r := r)
  rw [hindex] at hnoData
  split_ifs with hret hempty
  · rw [h.readOnce_ok hW hr (List.getElem?_eq_getElem hret.1) hret.2]
  · exact hnoData.mpr hempty
  · have hok := (h.readOnce_of_not_retained hW hr he hret).2
    have hno := hnoData.not.mpr hempty
    cases hres : (readOnce b.slots r).result.result with
    | ok => exact absurd hres hok
    | noData => exact absurd hres hno
    | loss => rfl

end RingBuffer.Settled

namespace Calls

open Transition

variable {ι : Type*} [DecidableEq ι] [NeZero n]

/-- **When `read_next` delivers.** In every state that whole calls reach, with `W` chunks written
and a reader that expects the sequence number `e`, `read_next` returns; it returns `OK` exactly if
the chunk `e` has been written and its slot not reused. It then returns that chunk and moves on by
one, and otherwise leaves the position as it is. -/
theorem readNext_delivers_iff (hn : n < 2 ^ 32) {s : State n ι} (hs : Reachable step (init n ι) s)
    {W e : ℕ} (hW : s.chunks.length = W) (hlt : W < 2 ^ 32) {r : ι}
    (he : (s.readers r).pos.sn.toNat = e) :
    ∃ r', (∀ r'', ReadNext s.buf.slots (s.readers r) r'' ↔ r'' = r') ∧
      (r'.result.result = .ok ↔ e ≤ W ∧ W < e + n) ∧
      (r'.result.result = .ok → s.chunks[e - 1]? = some r'.result.data ∧
        r'.pos.sn.toNat = (e + 1) % 2 ^ 32 ∧ r'.pos.slot.toNat = e % n) ∧
      (r'.result.result ≠ .ok → r'.pos = (s.readers r).pos) := by
  have h := inv_of_reachable hn hs
  obtain ⟨k, hk, hr⟩ := h.readers (hW ▸ hlt) r
  have hresult := h.settled.readOnce_result (hW ▸ hlt) hr hk
  rw [hW] at hk hresult
  -- the reader expects the chunk `k`, counted from `0`
  have hsn : e = (k + 1) % 2 ^ 32 := by rw [← he, hr.1, UInt32.toNat_ofNat']
  have hret : (k < W ∧ W ≤ k + n) ↔ e ≤ W ∧ W < e + n := by
    rcases Nat.lt_or_ge (k + 1) (2 ^ 32) with hk' | hk'
    · rw [Nat.mod_eq_of_lt hk'] at hsn
      omega
    · rw [show k + 1 = 2 ^ 32 by omega, Nat.mod_self] at hsn
      omega
  have hiff : (readOnce s.buf.slots (s.readers r)).result.result = .ok ↔ e ≤ W ∧ W < e + n := by
    rw [hresult, ← hret]
    split_ifs with h1 h2
    · exact iff_of_true rfl h1
    · exact iff_of_false (by simp) h1
    · exact iff_of_false (by simp) h1
  refine ⟨readOnce s.buf.slots (s.readers r), fun _ => h.settled.readNext_iff, hiff, ?_, ?_⟩
  · intro hok
    obtain ⟨hkW, hle⟩ := hret.mpr (hiff.mp hok)
    have hd := List.getElem?_eq_getElem (hW ▸ hkW : k < s.chunks.length)
    have hk1 : e = k + 1 := by rw [hsn, Nat.mod_eq_of_lt (by omega)]
    have hmove := hr.moveNext hn
    rw [h.settled.readOnce_ok (hW ▸ hlt) hr hd (hW ▸ hle)]
    refine ⟨by rw [hk1, Nat.add_sub_cancel, hd], ?_, ?_⟩
    · rw [hmove.1, UInt32.toNat_ofNat', hk1]
    · rw [hk1]
      exact congrArg Fin.val hmove.2
  · intro hok
    exact (h.settled.readOnce_of_not_retained (hW ▸ hlt) hr (hW ▸ hk)
      (hW ▸ hret.not.mpr (hiff.not.mp hok))).1

theorem readNext_delivers_first_of_two : ∃ s : State 2 Unit, Reachable step (init 2 Unit) s ∧
    ∃ r', ReadNext s.buf.slots (s.readers ()) r' ∧ r'.result = ⟨.ok, [1]⟩ := by
  obtain ⟨s, hs, hinv, hreader⟩ := exists_small_messages (n := 2) (by decide) [[1]] (by decide)
  have hchunks := hinv.chunks_eq
  obtain ⟨r', hread, hiff, hok, -⟩ := readNext_delivers_iff (by decide) hs
    (W := 1) (e := 1) (by rw [hchunks]; rfl) (by decide) (r := ()) (by rw [hreader]; rfl)
  have hresult := hiff.mpr (by decide)
  have hdata := (hok hresult).1
  rw [hchunks] at hdata
  refine ⟨s, hs, r', (hread r').mpr rfl, ?_⟩
  obtain ⟨pos, result, data⟩ := r'
  exact congrArg₂ ReadResult.mk hresult (Option.some.inj hdata).symm

/-- What `read_next` tells a reader that expects the chunk `e` of `W` chunks means what it says:
`NO_DATA` that the reader has consumed everything written, `LOSS` that the chunk it expects has been
overwritten. A reader that has missed nothing is not told `LOSS`. -/
structure Truthful (n W e : ℕ) (result : ReadResult.Result) : Prop where
  noData_iff : result = .noData ↔ e = W + 1
  loss_iff : result = .loss ↔ e + n ≤ W
  not_loss : W < e + n → result ≠ .loss

/-- **What `NO_DATA` and `LOSS` mean.** In every state that whole calls reach, with `W` chunks
written, a reader expects the sequence number of some chunk `e` with `1 ≤ e ≤ W + 1`. What
`read_next` tells it means what it says, unless the reader has consumed everything and the ring has
been filled. -/
theorem readNext_truthful_iff (hn : n < 2 ^ 32) {s : State n ι} (hs : Reachable step (init n ι) s)
    {W : ℕ} (hW : s.chunks.length = W) (hlt : W < 2 ^ 32) (r : ι) :
    ∃ e r', (1 ≤ e ∧ e ≤ W + 1 ∧ (s.readers r).pos.sn = UInt32.ofNat e) ∧
      (∀ r'', ReadNext s.buf.slots (s.readers r) r'' ↔ r'' = r') ∧
      (Truthful n W e r'.result.result ↔ (e = W + 1 → W < n)) := by
  have h := inv_of_reachable hn hs
  obtain ⟨k, hk, hr⟩ := h.readers (hW ▸ hlt) r
  have hresult := h.settled.readOnce_result (hW ▸ hlt) hr hk
  rw [hW] at hk hresult
  refine ⟨k + 1, readOnce s.buf.slots (s.readers r), ⟨by omega, by omega, hr.1⟩,
    fun _ => h.settled.readNext_iff, ?_⟩
  have hmod := Nat.mod_lt k (Nat.pos_of_neZero n)
  have hmod' := Nat.mod_le k n
  rw [hresult]
  split_ifs with hret hempty
  · refine iff_of_true ⟨?_, ?_, fun _ => by simp⟩ (by omega)
    · exact iff_of_false (by simp) (by omega)
    · exact iff_of_false (by simp) (by omega)
  · -- no chunk has reached the slot, so the reader has caught up on the first lap
    refine iff_of_true ⟨?_, ?_, fun _ => by simp⟩ (by omega)
    · exact iff_of_true rfl (by omega)
    · exact iff_of_false (by simp) (by omega)
  · rcases Nat.lt_or_ge k W with hkW | hkW
    · refine iff_of_true ⟨?_, ?_, fun _ => by omega⟩ (by omega)
      · exact iff_of_false (by simp) (by omega)
      · exact iff_of_true rfl (by omega)
    · -- the reader has caught up, and its slot holds a chunk of an earlier lap
      obtain rfl : k = W := by omega
      have hn' : n ≤ k := by
        by_contra hlt
        rw [Nat.mod_eq_of_lt (by omega)] at hempty
        exact hempty le_rfl
      refine iff_of_false ?_ (by omega)
      rintro ⟨-, -, hnot⟩
      exact hnot (by omega) rfl

/-- One message of one byte has been written, and the reader has read it. -/
theorem exists_read_message (n : ℕ) [NeZero n] (hn : n < 2 ^ 32) : ∃ s : State n Unit,
    Reachable step (init n Unit) s ∧ Inv s [[1]] ∧ (s.readers ()).pos.IsAt 1 := by
  obtain ⟨s, hs, hinv, hreader⟩ := exists_small_messages (n := n) hn [[1]] (by decide)
  have hstart : (s.readers ()).pos.IsAt 0 := hreader ▸ Position.isAt_start
  have hmove : (readOnce s.buf.slots (s.readers ())).pos.IsAt 1 := by
    rw [hinv.settled.readOnce_ok (by decide) hstart rfl
      (Nat.le_add_left_of_le (Nat.pos_of_neZero n))]
    exact hstart.moveNext hn
  have hsz := hinv.settled.slots.sn_eq_zero_or_sz_ne_zero (s.readers ()).pos.index
  refine ⟨{ s with readers := Function.update s.readers () (readOnce s.buf.slots (s.readers ())) },
    hs.trans (.of_step (l := .readNext () 1) ?_), hinv.update () fun _ => ⟨1, le_rfl, hmove⟩,
    by simpa using hmove⟩
  rw [step, readNext_succ 0 hsz]
  rfl

/-- A reader of a ring of two slots that has read the only message is told `NO_DATA`, and one that
has read nothing when three messages have been written is told `LOSS`. -/
theorem readNext_truthful_of_caughtUp_of_lapped :
    (∃ s : State 2 Unit, Reachable step (init 2 Unit) s ∧ s.chunks = [[1]] ∧
      ∃ r', ReadNext s.buf.slots (s.readers ()) r' ∧ Truthful 2 1 2 r'.result.result ∧
        r'.result.result = .noData) ∧
    ∃ s : State 2 Unit, Reachable step (init 2 Unit) s ∧ s.chunks = [[1], [2], [3]] ∧
      ∃ r', ReadNext s.buf.slots (s.readers ()) r' ∧ Truthful 2 3 1 r'.result.result ∧
        r'.result.result = .loss := by
  constructor
  · obtain ⟨s, hs, hinv, hr⟩ := exists_read_message 2 (by decide)
    have hchunks := hinv.chunks_eq
    obtain ⟨e, r', ⟨-, hle, he⟩, hread, hiff⟩ :=
      readNext_truthful_iff (by decide) hs (W := 1) (by rw [hchunks]; rfl) (by decide) ()
    obtain rfl : e = 2 := uint32_ofNat_inj (by omega) (by decide) (he.symm.trans hr.1)
    have htruthful := hiff.mpr fun _ => by decide
    exact ⟨s, hs, hchunks, r', (hread r').mpr rfl, htruthful, htruthful.noData_iff.mpr rfl⟩
  · obtain ⟨s, hs, hinv, hreader⟩ :=
      exists_small_messages (n := 2) (by decide) [[1], [2], [3]] (by decide)
    have hchunks := hinv.chunks_eq
    have hr : (s.readers ()).pos.IsAt 0 := hreader ▸ Position.isAt_start
    obtain ⟨e, r', ⟨-, hle, he⟩, hread, hiff⟩ :=
      readNext_truthful_iff (by decide) hs (W := 3) (by rw [hchunks]; rfl) (by decide) ()
    obtain rfl : e = 1 := uint32_ofNat_inj (by omega) (by decide) (he.symm.trans hr.1)
    have htruthful := hiff.mpr (by decide)
    exact ⟨s, hs, hchunks, r', (hread r').mpr rfl, htruthful, htruthful.loss_iff.mpr (by decide)⟩

/-- The ring has one slot. The reader has read the only message, and is told `LOSS`. -/
theorem not_truthful_after_one_lap : ∃ s : State 1 Unit, Reachable step (init 1 Unit) s ∧
    s.chunks = [[1]] ∧ (s.readers ()).pos.sn = 2 ∧
    ∃ r', ReadNext s.buf.slots (s.readers ()) r' ∧ r'.result.result = .loss ∧
      ¬ Truthful 1 1 2 r'.result.result := by
  obtain ⟨s, hs, hinv, hr⟩ := exists_read_message 1 (by decide)
  have hloss : (readOnce s.buf.slots (s.readers ())).result.result = .loss :=
    hinv.settled.readOnce_result (by decide) hr (by decide)
  exact ⟨s, hs, hinv.chunks_eq, hr.1, _, hinv.settled.readNext_iff.mpr rfl, hloss,
    fun h => h.not_loss (by decide) hloss⟩

end Calls

/-! ### Messages in several fragments -/

namespace RingBufferReader

variable {slots : Vector Slot n} {r : RingBufferReader n} {k : ℕ}

/-- The `k` slots from the position `p` on hold one message: their sequence numbers are consecutive
and not the reserved one, and all but the last have the size `0`, a full slot whose message
continues. -/
structure Fragments (slots : Vector Slot n) (p : Position n) (k : ℕ) : Prop where
  sn : ∀ i < k, (slots.get (p.after i)).header.sn = p.sn + UInt32.ofNat i ∧
    (slots.get (p.after i)).header.sn ≠ 0
  full : ∀ i, i + 1 < k → (slots.get (p.after i)).header.sz = 0
  last : 1 ≤ (slots.get (p.after (k - 1))).header.sz.toNat ∧
    (slots.get (p.after (k - 1))).header.sz.toNat ≤ 56

/-- The message that the `k` slots from the position `p` on hold: full slots, and the bytes of the
last one. -/
def message (slots : Vector Slot n) (p : Position n) (k : ℕ) : Bytes :=
  ((List.range (k - 1)).flatMap fun i => (slots.get (p.after i)).data.toList) ++
    (slots.get (p.after (k - 1))).data.toList.take (slots.get (p.after (k - 1))).header.sz.toNat

/-- `read_next` returns the message that the next `k` slots hold, and leaves the reader after
them. -/
def Reassembles (slots : Vector Slot n) (r : RingBufferReader n) (k : ℕ) : Prop :=
  ∃ r', ReadNext slots r r' ∧ r'.result = ⟨.ok, message slots r.pos k⟩ ∧
    r'.pos.sn = r.pos.sn + UInt32.ofNat k ∧
    r'.pos.slot.toNat = (r.pos.slot.toNat + k) % n

/-- When the slot of the reader shows the expected sequence number and the size `0`, the loop of
`read_next` loads the same slot again, and never ends: it moves `w_cs` on and looks at
`_current_slot`. -/
theorem readLoop_eq_none {p : Position n} (hsn : (slots.get p.index).header.sn = p.sn)
    (h0 : (slots.get p.index).header.sn ≠ 0) (hsz : (slots.get p.index).header.sz = 0) :
    ∀ (fuel : ℕ) (r : RingBufferReader n) (w : Position n), r.pos = p →
      readLoop slots fuel r w = none
  | 0, _, _, _ => rfl
  | fuel + 1, r, w, hr => by
    subst hr
    rw [readLoop]
    dsimp only
    rw [if_neg h0, if_neg (not_not.mpr hsn), if_neg (not_not.mpr rfl), if_neg (not_not.mpr hsz)]
    exact readLoop_eq_none hsn h0 hsz fuel _ _ rfl

/-- The slot index of `move_next` is right unless the counter comes round before the ring does. -/
theorem toNat_slot_moveNext_iff (p : Position n) :
    p.moveNext.slot.toNat = (p.slot.toNat + 1) % n ↔
      n ≤ 2 ^ 32 ∨ p.slot.toNat + 1 < 2 ^ 32 := by
  rcases Nat.lt_or_ge (2 ^ 32) n with hn | hn
  · have hadd : (p.slot + 1).toNat = (p.slot.toNat + 1) % 2 ^ 32 := by
      rw [UInt32.toNat_add, UInt32.toNat_one]
    have hlt := p.slot.toNat_lt
    have hmod := Nat.mod_lt (p.slot.toNat + 1) (by decide : 0 < 2 ^ 32)
    change (if (p.slot + 1).toNat = n then (0 : UInt32) else p.slot + 1).toNat = _ ↔ _
    rw [if_neg (by omega), hadd, Nat.mod_eq_of_lt (by omega : p.slot.toNat + 1 < n)]
    rcases Nat.lt_or_ge (p.slot.toNat + 1) (2 ^ 32) with h | h
    · rw [Nat.mod_eq_of_lt h]
      exact iff_of_true rfl (.inr h)
    · refine iff_of_false ?_ (by omega)
      omega
  · exact iff_of_true (p.toNat_slot_moveNext hn) (.inl hn)

/-- **Reassembly.** Of the messages that the slots of a ring hold in `k` fragments, `read_next`
returns exactly those of one fragment; on the others its loop does not end. On a ring of more than
`2 ^ 32` slots the reader must not be at the last slot that the counter reaches. -/
theorem reassembles_iff (hk : 1 ≤ k) (hkn : k ≤ n) (h : Fragments slots r.pos k) :
    Reassembles slots r k ↔ k = 1 ∧ (n ≤ 2 ^ 32 ∨ r.pos.slot.toNat + 1 < 2 ^ 32) := by
  obtain ⟨hsn, h0⟩ := h.sn 0 hk
  rw [Position.after_zero] at hsn h0
  replace hsn : (slots.get r.pos.index).header.sn = r.pos.sn := hsn.trans (UInt32.add_zero _)
  rcases Nat.lt_or_ge 1 k with hlt | hge
  · refine iff_of_false ?_ (by omega)
    rintro ⟨r', ⟨fuel, hread⟩, -⟩
    have hsz := h.full 0 hlt
    rw [Position.after_zero] at hsz
    have hnone := readLoop_eq_none hsn h0 hsz fuel { r with result := r.result.clear } r.pos rfl
    rw [readNext, hnone] at hread
    cases hread
  · obtain rfl : k = 1 := by omega
    obtain ⟨hpos, -⟩ := h.last
    rw [Nat.sub_self, Position.after_zero] at hpos
    have hsz : (slots.get r.pos.index).header.sz ≠ 0 := fun h' => by simp [h'] at hpos
    have honce : readOnce slots r = ⟨r.pos.moveNext, ⟨.ok, message slots r.pos 1⟩⟩ := by
      have hmessage : message slots r.pos 1 = (slots.get r.pos.index).data.toList.take
          (ReadResult.appendSize (slots.get r.pos.index).header.sz) := by
        rw [message, Nat.sub_self, Position.after_zero, ReadResult.appendSize, if_pos hsz]
        rfl
      rw [readOnce, if_neg h0, if_neg (not_not.mpr hsn), hmessage]
    rw [Reassembles, and_iff_right rfl, ← toNat_slot_moveNext_iff]
    simp only [RingBufferReader.readNext_iff (.inr hsz), exists_eq_left, honce]
    exact ⟨fun h => h.2.2, fun h => ⟨trivial, rfl, h⟩⟩

/-- A slot whose message goes on in the next slot, and a slot of one byte. -/
def twoFragments : Vector Slot 2 :=
  #v[⟨⟨1, 0⟩, Vector.replicate slotSize 7⟩, ⟨⟨2, 1⟩, Vector.replicate slotSize 8⟩]

/-- The reader is at the last fragment of a message: what it finds there is a message of one
fragment. -/
theorem reassembles_last_fragment :
    Reassembles twoFragments ⟨⟨2, 1, by decide⟩, ⟨.noData, []⟩⟩ 1 :=
  (reassembles_iff (by decide) (by decide)
    ⟨by decide, fun i hi => absurd hi (by omega), by decide⟩).mpr (by decide)

/-- The reader is at the first of two fragments, and `read_next` does not return. -/
theorem not_reassembles_two_fragments :
    Fragments twoFragments (.start : Position 2) 2 ∧
      ¬ Reassembles twoFragments (.init 2) 2 ∧ ∀ r', ¬ ReadNext twoFragments (.init 2) r' := by
  have hnever : ∀ r', ¬ ReadNext twoFragments (.init 2) r' := by
    rintro r' ⟨fuel, hread⟩
    have hsz : (twoFragments.get (.start : Position 2).index).header.sz = 0 := rfl
    have hnone := readLoop_eq_none rfl (by decide) hsz fuel
      { RingBufferReader.init 2 with result := (RingBufferReader.init 2).result.clear } .start rfl
    rw [readNext] at hread
    exact absurd (hnone.symm.trans hread) (by simp)
  have hfull : ∀ i, i + 1 < 2 →
      (twoFragments.get ((.start : Position 2).after i)).header.sz = 0 := by
    intro i hi
    obtain rfl : i = 0 := by omega
    rfl
  refine ⟨⟨by decide, hfull, by decide⟩, ?_, hnever⟩
  rintro ⟨r', hread, -⟩
  exact hnever r' hread

end RingBufferReader

end Keryx
