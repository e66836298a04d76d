import Keryx.RingBuffer.Calls

/-!
# What one call of `write` does

In any state of the buffer, `write` refuses a message that is empty or does not fit the ring and
changes nothing, or it tiles the message over consecutive slots, none of them twice. With assertions
on, `Slot::update` also refuses a chunk of 56 bytes, though `write` cuts a message into such chunks.

## Main definitions

* `Position.after` — the slot a number of slots on from a position.
* `RingBuffer.Wrote` — the effect of an accepted message.

## Main results

* `RingBuffer.write_effect` — the effect of `write` in any state.
* `RingBuffer.assertions_hold_iff` — which messages pass the assertion of `Slot::update`.

Source: `src/lib/ring_buffer/ring_buffer.h`, lines 30–36 and 57–82.
-/

namespace Keryx

variable {n : ℕ}

/-! ### Consecutive slots -/

namespace Position

/-- The slot `i` slots on from the position `p`. -/
def after (p : Position n) (i : ℕ) : Fin n :=
  ⟨(p.slot.toNat + i) % n, Nat.mod_lt _ (Nat.zero_lt_of_lt p.slot_lt)⟩

@[simp] theorem after_zero (p : Position n) : p.after 0 = p.index :=
  Fin.ext (Nat.mod_eq_of_lt p.slot_lt)

/-- The slots of one lap are distinct. -/
theorem after_injOn (p : Position n) {i j : ℕ} (hi : i < n) (hj : j < n)
    (h : p.after i = p.after j) : i = j := by
  have hmod : i ≡ j [MOD n] := Nat.ModEq.add_left_cancel' p.slot.toNat (congrArg Fin.val h)
  exact hmod.eq_of_lt_of_lt hi hj

theorem toNat_slot_moveNext (hn : n ≤ 2 ^ 32) (p : Position n) :
    p.moveNext.slot.toNat = (p.slot.toNat + 1) % n := by
  have hlt := p.slot_lt
  have hadd : (p.slot + 1).toNat = (p.slot.toNat + 1) % 2 ^ 32 := by
    rw [UInt32.toNat_add, UInt32.toNat_one]
  change (if (p.slot + 1).toNat = n then (0 : UInt32) else p.slot + 1).toNat = _
  split_ifs with h
  · rw [UInt32.toNat_zero]
    rcases Nat.lt_or_ge (p.slot.toNat + 1) (2 ^ 32) with hlt' | hge
    · rw [hadd, Nat.mod_eq_of_lt hlt'] at h
      rw [h, Nat.mod_self]
    · rw [hadd, show p.slot.toNat + 1 = 2 ^ 32 by omega, Nat.mod_self] at h
      omega
  · rcases Nat.lt_or_ge (p.slot.toNat + 1) (2 ^ 32) with hlt' | hge
    · rw [hadd, Nat.mod_eq_of_lt hlt'] at h ⊢
      rw [Nat.mod_eq_of_lt (by omega)]
    · -- the counter and a ring of `2 ^ 32` slots come round together
      rw [hadd, show p.slot.toNat + 1 = 2 ^ 32 by omega, show n = 2 ^ 32 by omega]

theorem after_moveNext (hn : n ≤ 2 ^ 32) (p : Position n) (i : ℕ) :
    p.moveNext.after i = p.after (i + 1) := by
  refine Fin.ext ?_
  change (p.moveNext.slot.toNat + i) % n = (p.slot.toNat + (i + 1)) % n
  rw [toNat_slot_moveNext hn, Nat.mod_add_mod, Nat.add_assoc, Nat.add_comm 1 i]

end Position

namespace RingBuffer

/-! ### The effect of `write` -/

theorem slots_put (b : RingBuffer n) (d : Bytes) (j : Fin n) :
    (b.put d).slots.get j =
      if b.pos.index = j then b.cslot.update d b.pos.sn else b.slots.get j :=
  get_set b.slots b.pos.index j _

/-- The effect of an accepted message: `b'` is the buffer `b` with the message `sview` tiled over
the slots from the writer's on, as the chunks `chunks`. -/
structure Wrote (b b' : RingBuffer n) (sview : Bytes) (chunks : List Bytes) : Prop where
  length_chunks : chunks.length = (sview.length + 55) / 56
  length_le : chunks.length ≤ n
  flatten_chunks : chunks.flatten = sview
  full : ∀ i d, chunks[i]? = some d → i + 1 < chunks.length → d.length = 56
  last : ∀ d, chunks[chunks.length - 1]? = some d → 1 ≤ d.length ∧ d.length ≤ 56
  distinct : ∀ i j, i < chunks.length → j < chunks.length → b.pos.after i = b.pos.after j → i = j
  header : ∀ i d, chunks[i]? = some d →
    (b'.slots.get (b.pos.after i)).header.sn.toNat = (b.pos.sn.toNat + i) % 2 ^ 32 ∧
    (b'.slots.get (b.pos.after i)).header.sz.toNat = d.length
  data : ∀ i d, chunks[i]? = some d → d <+: (b'.slots.get (b.pos.after i)).data.toList
  frame : ∀ j, (∀ i < chunks.length, b.pos.after i ≠ j) → b'.slots.get j = b.slots.get j
  slot : b'.pos.slot.toNat = (b.pos.slot.toNat + chunks.length) % n
  sn : b'.pos.sn.toNat = (b.pos.sn.toNat + chunks.length) % 2 ^ 32

section Put

variable (ds : List Bytes) (b : RingBuffer n)

theorem sn_foldl_put : (ds.foldl put b).pos.sn.toNat = (b.pos.sn.toNat + ds.length) % 2 ^ 32 := by
  induction ds generalizing b with
  | nil => exact (Nat.mod_eq_of_lt b.pos.sn.toNat_lt).symm
  | cons d ds ih =>
    rw [List.foldl_cons, ih, List.length_cons]
    change ((b.pos.sn + 1).toNat + ds.length) % 2 ^ 32 = _
    rw [UInt32.toNat_add, UInt32.toNat_one, Nat.mod_add_mod, Nat.add_assoc, Nat.add_comm 1]

theorem slot_foldl_put (hn : n ≤ 2 ^ 32) :
    (ds.foldl put b).pos.slot.toNat = (b.pos.slot.toNat + ds.length) % n := by
  induction ds generalizing b with
  | nil => exact (Nat.mod_eq_of_lt b.pos.slot_lt).symm
  | cons d ds ih =>
    rw [List.foldl_cons, ih, List.length_cons]
    change (b.pos.moveNext.slot.toNat + ds.length) % n = _
    rw [Position.toNat_slot_moveNext hn, Nat.mod_add_mod, Nat.add_assoc, Nat.add_comm 1]

/-- The slots that no chunk is put into stay as they are. -/
theorem get_foldl_put_of_ne (hn : n ≤ 2 ^ 32) {j : Fin n}
    (hj : ∀ i < ds.length, b.pos.after i ≠ j) :
    (ds.foldl put b).slots.get j = b.slots.get j := by
  induction ds generalizing b with
  | nil => rfl
  | cons d ds ih =>
    have hfirst : b.pos.index ≠ j := by
      rw [← Position.after_zero]
      exact hj 0 (Nat.succ_pos _)
    have hrest : ∀ i < ds.length, (b.put d).pos.after i ≠ j := by
      intro i hi
      change b.pos.moveNext.after i ≠ j
      rw [Position.after_moveNext hn]
      exact hj (i + 1) (Nat.succ_lt_succ hi)
    rw [List.foldl_cons, ih (b.put d) hrest, slots_put, if_neg hfirst]

/-- The chunk `i` is put into the slot `i` slots on and is not overwritten in the same lap. -/
theorem get_foldl_put (hn : n ≤ 2 ^ 32) (hlen : ds.length ≤ n) {i : ℕ} {d : Bytes}
    (hd : ds[i]? = some d) :
    ∃ s : Slot, (ds.foldl put b).slots.get (b.pos.after i) = s.update d (b.pos.sn + .ofNat i) := by
  induction ds generalizing b i with
  | nil => cases hd
  | cons d' ds ih =>
    rw [List.foldl_cons]
    cases i with
    | zero =>
      obtain rfl : d' = d := Option.some.inj hd
      have hrest : ∀ i < ds.length, (b.put d').pos.after i ≠ b.pos.after 0 := by
        intro i hi h
        change b.pos.moveNext.after i = b.pos.after 0 at h
        rw [Position.after_moveNext hn] at h
        rw [List.length_cons] at hlen
        have := b.pos.after_injOn (by omega) (by omega) h
        omega
      refine ⟨b.cslot, ?_⟩
      rw [get_foldl_put_of_ne ds (b.put d') hn hrest, slots_put, Position.after_zero, if_pos rfl]
      exact congrArg _ (UInt32.add_zero _).symm
    | succ i =>
      obtain ⟨s, hs⟩ := ih (b.put d') ((Nat.le_succ _).trans hlen) hd
      refine ⟨s, ?_⟩
      change (ds.foldl put (b.put d')).slots.get (b.pos.moveNext.after i) =
        s.update d (b.pos.sn + 1 + .ofNat i) at hs
      rw [Position.after_moveNext hn] at hs
      rw [hs, UInt32.add_assoc, UInt32.add_comm 1, UInt32.ofNat_add]
      rfl

end Put

/-- All chunks but the last are full. -/
theorem length_of_not_last {c : ℕ} (hc : 0 < c) {l d : Bytes} {i : ℕ}
    (hd : (l.chunks c)[i]? = some d) (hi : i + 1 < (l.chunks c).length) : d.length = c := by
  induction l using List.chunks_induction hc generalizing i with
  | hnil => simp at hd
  | hcut l hl ih =>
    rw [List.chunks_of_ne_nil hc hl] at hd hi
    cases i with
    | zero =>
      obtain rfl : l.take c = d := Option.some.inj hd
      have hrest : l.drop c ≠ [] := by
        intro hnil
        rw [hnil, List.chunks_nil] at hi
        simp at hi
      rw [Ne, List.drop_eq_nil_iff] at hrest
      rw [List.length_take]
      omega
    | succ i => exact ih hd (by simpa using hi)

theorem wrote_foldl_put (hn : n < 2 ^ 32) (b : RingBuffer n) {sview : Bytes}
    (hle : sview.length ≤ 56 * n) :
    Wrote b ((sview.chunks slotSize).foldl put b) sview (sview.chunks slotSize) := by
  have hlen : (sview.chunks slotSize).length = (sview.length + 55) / 56 :=
    List.length_chunks (by decide) sview
  have hle' : (sview.chunks slotSize).length ≤ n := by
    rw [hlen]
    omega
  have hsize {i : ℕ} {d : Bytes} (hd : (sview.chunks slotSize)[i]? = some d) :
      1 ≤ d.length ∧ d.length ≤ 56 :=
    List.length_of_mem_chunks (by decide) (List.mem_of_getElem? hd)
  exact {
    length_chunks := hlen
    length_le := hle'
    flatten_chunks := List.flatten_chunks (by decide) sview
    full := fun i d hd hi => length_of_not_last (by decide) hd hi
    last := fun d hd => hsize hd
    distinct := fun i j hi hj h => b.pos.after_injOn (by omega) (by omega) h
    header := fun i d hd => by
      obtain ⟨s, hs⟩ := get_foldl_put _ b hn.le hle' hd
      have hi := (List.getElem?_eq_some_iff.mp hd).1
      rw [hs]
      change (b.pos.sn + UInt32.ofNat i).toNat = _ ∧ (UInt32.ofNat d.length).toNat = _
      rw [UInt32.toNat_add, UInt32.toNat_ofNat', UInt32.toNat_ofNat', Nat.add_mod_mod,
        Nat.mod_eq_of_lt (by have := hsize hd; omega : d.length < 2 ^ 32)]
      exact ⟨rfl, rfl⟩
    data := fun i d hd => by
      obtain ⟨s, hs⟩ := get_foldl_put _ b hn.le hle' hd
      rw [hs]
      exact SlotData.prefix_of_copied fun _ hi => SlotData.copied_memcpy (hsize hd).2 s.data hi
    frame := fun j hj => get_foldl_put_of_ne _ b hn.le hj
    slot := slot_foldl_put _ b hn.le
    sn := sn_foldl_put _ b }

/-- **The effect of `write`**, in any state of the buffer. -/
theorem write_effect (hn : n < 2 ^ 32) (b : RingBuffer n) (sview : Bytes) :
    (sview.length = 0 → b.write sview = (.emptyMsg, b)) ∧
    (56 * n < sview.length → b.write sview = (.msgTooBig, b)) ∧
    (0 < sview.length → sview.length ≤ 56 * n →
      ∃ b' chunks, b.write sview = (.ok, b') ∧ Wrote b b' sview chunks) := by
  have hsize : n * slotSize = 56 * n := Nat.mul_comm ..
  refine ⟨fun hzero => ?_, fun hbig => ?_, fun hpos hle => ?_⟩
  · obtain rfl := List.length_eq_zero_iff.mp hzero
    simp [write]
  · rw [write, if_pos (by omega)]
  · have hwrote := wrote_foldl_put hn b hle
    refine ⟨_, _, Prod.ext ?_ ?_, hwrote⟩
    · exact b.write_ok hpos (by omega)
    · rw [write_eq, chunksOf, if_neg (by omega)]

/-- A ring of four slots whose writer is at the third one, with the last sequence number before
they come round. -/
def nearWrap : RingBuffer 4 := { init 4 with pos := ⟨.ofNat (2 ^ 32 - 1), 2, by decide⟩ }

/-- A message of three chunks goes into the last two slots and the first one, and leaves the second
one alone; the sequence number comes round after its first chunk. -/
theorem write_effect_of_nearWrap : ∃ b' chunks,
    nearWrap.write (List.replicate 120 7) = (.ok, b') ∧
      Wrote nearWrap b' (List.replicate 120 7) chunks ∧ chunks.length = 3 ∧
      (b'.slots.get 0).header.sn.toNat = 1 ∧ b'.slots.get 1 = nearWrap.slots.get 1 ∧
      b'.pos.slot.toNat = 1 ∧ b'.pos.sn.toNat = 2 := by
  obtain ⟨b', chunks, hwrite, hwrote⟩ :=
    (write_effect (by decide) nearWrap (List.replicate 120 7)).2.2 (by decide) (by decide)
  have hlen : chunks.length = 3 := hwrote.length_chunks.trans (by rw [List.length_replicate])
  refine ⟨b', chunks, hwrite, hwrote, hlen, ?_, ?_, ?_, ?_⟩
  · exact (hwrote.header 2 _ (List.getElem?_eq_getElem (by omega))).1
  · exact hwrote.frame 1 (by rw [hlen]; decide)
  · rw [hwrote.slot, hlen]
    rfl
  · rw [hwrote.sn, hlen]
    rfl

/-! ### The assertion of `Slot::update` -/

/-- The chunks of a message that `write` accepts pass the assertion exactly if the message does not
fill a slot: the first chunk of any other message has 56 bytes. -/
theorem forall_chunks_lt_iff {sview : Bytes} (hpos : 1 ≤ sview.length) :
    (∀ d ∈ sview.chunks slotSize, d.length < 56 ∧ 0 < d.length) ↔ sview.length < 56 := by
  have hne : sview ≠ [] := List.length_pos_iff.mp hpos
  constructor
  · intro h
    have hfirst := (h (sview.take slotSize) (by
      rw [List.chunks_of_ne_nil (by decide) hne]
      exact List.mem_cons_self)).1
    rw [List.length_take, show slotSize = 56 from rfl] at hfirst
    omega
  · intro hlt d hd
    rw [List.chunks_of_length_le hne hlt.le, List.mem_singleton] at hd
    rw [hd]
    exact ⟨hlt, hpos⟩

/-- The loop with assertions goes through exactly if every chunk passes. -/
theorem writeLoopDebug_eq_some_iff (sview : Bytes) (b b' : RingBuffer n) (currentByte : ℕ)
    (h : currentByte ≤ sview.length) :
    b.writeLoopDebug sview currentByte h = some b' ↔
      b' = b.writeLoop sview currentByte h ∧
        ∀ d ∈ (sview.drop currentByte).chunks slotSize, d.length < slotSize := by
  fun_induction writeLoopDebug with
  | case1 b =>
    rw [writeLoop, dif_pos rfl, List.drop_length, List.chunks_nil]
    simp [eq_comm]
  | case2 b currentByte h hne d hd ih =>
    have hloop : b.writeLoop sview currentByte h =
        (b.put d).writeLoop sview (currentByte + d.length) (length_nextChunk h hne).2 := by
      conv_lhs => rw [writeLoop, dif_neg hne]
    rw [ih, hloop, chunks_drop h hne, List.forall_mem_cons, and_iff_right hd]
  | case3 b currentByte h hne d hd =>
    rw [chunks_drop h hne, List.forall_mem_cons]
    simp [d, hd]

theorem map_fst_putCalls : ∀ (ds : List Bytes) (b : RingBuffer n),
    (b.putCalls ds).map Prod.fst = ds
  | [], _ => rfl
  | d :: ds, b => congrArg (d :: ·) (map_fst_putCalls ds (b.put d))

/-- **The assertion of `Slot::update`.** Let `write` accept the message `sview`. Every chunk that it
passes to `Slot::update` passes the assertion and is not empty, and a build with assertions does
what a build without does, exactly if the message is shorter than a slot. -/
theorem assertions_hold_iff (b : RingBuffer n) (sview : Bytes) (hpos : 1 ≤ sview.length)
    (hle : sview.length ≤ n * 56) :
    ((∀ u ∈ b.updates sview, u.1.length < 56 ∧ 0 < u.1.length) ∧
      b.writeDebug sview = some (b.write sview)) ↔ sview.length < 56 := by
  have hbig : ¬ sview.length > n * slotSize := not_lt.mpr hle
  have hne : ¬ sview.isEmpty := fun h => List.length_pos_iff.mp hpos (List.isEmpty_iff.mp h)
  have hupdates : (∀ u ∈ b.updates sview, u.1.length < 56 ∧ 0 < u.1.length) ↔
      sview.length < 56 := by
    rw [← forall_chunks_lt_iff hpos, updates_eq, chunksOf, if_neg hbig]
    conv_rhs => rw [← map_fst_putCalls (sview.chunks slotSize) b]
    rw [List.forall_mem_map]
  have hdebug : b.writeDebug sview = some (b.write sview) ↔
      ∀ d ∈ sview.chunks slotSize, d.length < slotSize := by
    rw [writeDebug, if_neg hbig, if_neg hne, write, if_neg hbig, if_neg hne, Option.map_eq_some_iff]
    simp only [writeLoopDebug_eq_some_iff, Prod.mk.injEq, true_and, List.drop_zero]
    constructor
    · rintro ⟨_, ⟨-, h⟩, -⟩
      exact h
    · exact fun h => ⟨_, ⟨rfl, h⟩, rfl⟩
  rw [hupdates, hdebug, and_iff_left_iff_imp]
  exact fun hlt d hd => ((forall_chunks_lt_iff hpos).mpr hlt d hd).1

theorem assertions_hold_of_short_message :
    (∀ u ∈ (init 2).updates (List.replicate 55 0), u.1.length < 56 ∧ 0 < u.1.length) ∧
      (init 2).writeDebug (List.replicate 55 0) = some ((init 2).write (List.replicate 55 0)) :=
  (assertions_hold_iff (init 2) (List.replicate 55 0) (by decide) (by decide)).mpr (by decide)

/-- A message that fills one slot is accepted, and its only chunk fails the assertion: a build with
assertions aborts. -/
theorem assertion_fails_for_full_slot :
    ((init 1).write (List.replicate 56 0)).1 = .ok ∧
      (init 1).writeDebug (List.replicate 56 0) = none ∧
      ¬ ∀ u ∈ (init 1).updates (List.replicate 56 0), u.1.length < 56 ∧ 0 < u.1.length := by
  have hne : ([List.replicate 56 0] : List Bytes) = (List.replicate 56 0).chunks slotSize :=
    (List.chunks_of_length_le (by decide) (by decide)).symm
  refine ⟨write_ok _ (by decide) (by decide), ?_, ?_⟩
  · rw [writeDebug, if_neg (by decide), if_neg (by decide), writeLoopDebug, dif_neg (by decide)]
    rfl
  · rw [updates_eq, chunksOf, if_neg (by decide), ← hne]
    decide

end RingBuffer

end Keryx
