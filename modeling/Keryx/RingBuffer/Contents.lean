import Keryx.RingBuffer.Basic
import Keryx.Lib.Chunks
import Mathlib.Data.Nat.ModEq

/-!
# What the slots of a ring hold

Number the chunks passed to `Slot::update` from `0` on. The chunk `k` is put into the slot
`k mod n` under the sequence number `k + 1`, counted modulo `2 ^ 32`. `SlotsOk chunks V slots`
describes every slot of a ring for which the updates with the chunks `chunks` have begun and the
first `V` of them are finished: a slot holds the last finished chunk put into it, unless a later
one has begun to overwrite it, and a slot no chunk has reached is empty.

## Main definitions

* `Slot.Holds` — a slot holds a given chunk under its sequence number.
* `Position.IsAt` — the position of the chunk with a given number.
* `SlotsOk` — the description of the slots.

## Main results

* `Position.IsAt.moveNext` — `move_next` passes to the next chunk.
* `SlotsOk.begin`, `SlotsOk.finish` — the effect of the two halves of an update.
* `SlotsOk.header_cases` — what a header can show.
* `SlotsOk.retained_of_sn` — below `2 ^ 32` chunks, a slot whose header shows the sequence number
  that a reader expects holds the chunk that the reader expects.
-/

namespace Keryx

/-! ### Copying bytes -/

namespace SlotData

/-- The byte `i` of the slot is the byte `i` of `d`. -/
def Copied (data : SlotData) (d : Bytes) (i : ℕ) : Prop := data.toList[i]? = d[i]?

theorem toList_copyByte (data : SlotData) (d : Bytes) (i : ℕ) :
    (data.copyByte d i).toList = data.toList.set i (d.getD i 0) :=
  Vector.toList_setIfInBounds ..

theorem copied_copyByte {d : Bytes} (hd : d.length ≤ slotSize) (data : SlotData) {i : ℕ}
    (hi : i < d.length) : (data.copyByte d i).Copied d i := by
  have hlt : i < data.toList.length := by simpa using hi.trans_le hd
  rw [Copied, toList_copyByte, List.getElem?_set_self hlt, List.getD_eq_getElem?_getD,
    List.getElem?_eq_getElem hi, Option.getD_some]

theorem Copied.copyByte {data : SlotData} {d : Bytes} {i j : ℕ} (h : data.Copied d j)
    (hij : i ≠ j) : (data.copyByte d i).Copied d j := by
  rw [Copied, toList_copyByte, List.getElem?_set_ne hij]
  exact h

private theorem copied_foldl_copyByte {d : Bytes} (hd : d.length ≤ slotSize) {j : ℕ} :
    ∀ (is : List ℕ) (data : SlotData), (∀ i ∈ is, i < d.length) → (j ∈ is ∨ data.Copied d j) →
      (is.foldl (fun data i => data.copyByte d i) data).Copied d j
  | [], _, _, h => h.resolve_left List.not_mem_nil
  | i :: is, data, hlt, h => by
    refine copied_foldl_copyByte hd is _ (fun k hk => hlt k (List.mem_cons_of_mem i hk)) ?_
    by_cases hij : i = j
    · exact Or.inr (hij ▸ copied_copyByte hd data (hlt i List.mem_cons_self))
    · rcases h with h | h
      · exact Or.inl ((List.mem_cons.mp h).resolve_left (Ne.symm hij))
      · exact Or.inr (h.copyByte hij)

theorem copied_memcpy {d : Bytes} (hd : d.length ≤ slotSize) (data : SlotData) {j : ℕ}
    (hj : j < d.length) : (data.memcpy d).Copied d j :=
  copied_foldl_copyByte hd _ data (fun _ hi => List.mem_range.mp hi)
    (Or.inl (List.mem_range.mpr hj))

theorem prefix_of_copied {data : SlotData} {d : Bytes} (h : ∀ i < d.length, data.Copied d i) :
    d <+: data.toList := by
  refine List.prefix_iff_getElem?.mpr fun i hi => ?_
  rw [h i hi, List.getElem?_eq_getElem hi]

end SlotData

/-! ### Positions -/

namespace Position

variable {n : ℕ} [NeZero n]

/-- The position of the chunk `k`: the sequence number `k + 1` and the slot `k mod n`. -/
def IsAt (p : Position n) (k : ℕ) : Prop :=
  p.sn = UInt32.ofNat (k + 1) ∧ p.index = Fin.ofNat n k

theorem isAt_start : (start : Position n).IsAt 0 :=
  ⟨rfl, Fin.ext (by simp [index, start])⟩

/-- `move_next` passes from the position of a chunk to that of the next one. -/
theorem IsAt.moveNext (hn : n < 2 ^ 32) {p : Position n} {k : ℕ} (h : p.IsAt k) :
    p.moveNext.IsAt (k + 1) := by
  obtain ⟨hsn, hslot⟩ := h
  have hk : p.slot.toNat = k % n := congrArg Fin.val hslot
  refine ⟨?_, Fin.ext ?_⟩
  · rw [Position.moveNext, hsn]
    simp [UInt32.ofNat_add]
  · have hlt := p.slot_lt
    have hadd : (p.slot + 1).toNat = k % n + 1 := by
      rw [UInt32.toNat_add, UInt32.toNat_one, hk, Nat.mod_eq_of_lt (by omega)]
    change (if (p.slot + 1).toNat = n then (0 : UInt32) else p.slot + 1).toNat = (k + 1) % n
    rw [← Nat.mod_add_mod, ← hk]
    split_ifs with h
    · rw [show p.slot.toNat + 1 = n by omega, Nat.mod_self]
      rfl
    · rw [hadd, ← hk, Nat.mod_eq_of_lt (by omega)]

end Position

/-! ### Slots -/

/-- The slot holds the chunk `d`, which has the number `k`: the header shows its sequence number
and its size, and its bytes are the first bytes of the slot. -/
def Slot.Holds (s : Slot) (k : ℕ) (d : Bytes) : Prop :=
  s.header = ⟨UInt32.ofNat (k + 1), UInt32.ofNat d.length⟩ ∧ d <+: s.data.toList

theorem Slot.holds_update (s : Slot) {d : Bytes} (hd : d.length ≤ slotSize) (k : ℕ) :
    (s.update d (UInt32.ofNat (k + 1))).Holds k d :=
  ⟨rfl, SlotData.prefix_of_copied fun _ hi => SlotData.copied_memcpy hd s.data hi⟩

theorem uint32_ofNat_inj {a b : ℕ} (ha : a < 2 ^ 32) (hb : b < 2 ^ 32)
    (h : UInt32.ofNat a = UInt32.ofNat b) : a = b := by
  have h' := congrArg UInt32.toNat h
  rwa [UInt32.toNat_ofNat', UInt32.toNat_ofNat', Nat.mod_eq_of_lt ha, Nat.mod_eq_of_lt hb] at h'

section Slots

variable {n : ℕ} [NeZero n]

omit [NeZero n] in
theorem get_set {α : Type*} (v : Vector α n) (i j : Fin n) (x : α) :
    (v.set i x).get j = if i = j then x else v.get j := by
  change (v.set i x)[(j : ℕ)] = if i = j then x else v[(j : ℕ)]
  simp [Vector.getElem_set, Fin.ext_iff]

/-- Two chunks fewer than `n` apart are put into different slots. -/
theorem ofNat_ne_ofNat {k m : ℕ} (hlt : k < m) (hle : m < k + n) :
    Fin.ofNat n k ≠ Fin.ofNat n m := by
  intro h
  have hmod : k % n = m % n := congrArg Fin.val h
  have hdvd : n ∣ m - k := (Nat.modEq_iff_dvd' hlt.le).mp hmod
  have := Nat.le_of_dvd (by omega) hdvd
  omega

/-- A slot that has been reached was last reached by one of the last `n` chunks. -/
theorem exists_last_chunk {W : ℕ} {i : Fin n} (hi : (i : ℕ) < W) :
    ∃ k, k < W ∧ W ≤ k + n ∧ Fin.ofNat n k = i := by
  have hdm := Nat.div_add_mod (W - 1 - i) n
  have hlt := Nat.mod_lt (W - 1 - i) (Nat.pos_of_neZero n)
  refine ⟨i + n * ((W - 1 - i) / n), by omega, by omega, Fin.ext ?_⟩
  change (i + n * ((W - 1 - i) / n)) % n = i
  rw [Nat.add_mul_mod_self_left, Nat.mod_eq_of_lt i.isLt]

/-- The slots of a ring in which the updates with `chunks` have begun and the first `V` of them are
finished. -/
structure SlotsOk (chunks : List Bytes) (V : ℕ) (slots : Vector Slot n) : Prop where
  sizes : ∀ d ∈ chunks, 0 < d.length ∧ d.length ≤ slotSize
  le_length : V ≤ chunks.length
  length_le : chunks.length ≤ V + 1
  holds : ∀ k d, chunks[k]? = some d → k < V → chunks.length ≤ k + n →
    (slots.get (Fin.ofNat n k)).Holds k d
  busy : V < chunks.length → (slots.get (Fin.ofNat n V)).header = ⟨0, 0⟩
  empty : ∀ i : Fin n, chunks.length ≤ i → (slots.get i).header = ⟨0, 0⟩

namespace SlotsOk

variable {chunks : List Bytes} {V : ℕ} {slots : Vector Slot n}

theorem init : SlotsOk [] 0 (RingBuffer.init n).slots where
  sizes := by simp
  le_length := le_rfl
  length_le := by simp
  holds := by simp
  busy := by simp
  empty i _ := by
    change (Vector.replicate n Slot.empty)[(i : ℕ)].header = ⟨0, 0⟩
    rw [Vector.getElem_replicate]
    rfl

/-- The header of the next slot is cleared: the update with `d` begins. -/
theorem begin (h : SlotsOk chunks chunks.length slots) {d : Bytes}
    (hd : 0 < d.length ∧ d.length ≤ slotSize) {s : Slot} (hs : s.header = ⟨0, 0⟩) :
    SlotsOk (chunks ++ [d]) chunks.length (slots.set (Fin.ofNat n chunks.length) s) where
  sizes d' hd' := by
    rcases List.mem_append.mp hd' with hd' | hd'
    · exact h.sizes d' hd'
    · exact List.mem_singleton.mp hd' ▸ hd
  le_length := by simp
  length_le := by simp
  holds k d' hk hlt hle := by
    rw [List.length_append, List.length_singleton] at hle
    rw [List.getElem?_append_left hlt] at hk
    rw [get_set, if_neg (ofNat_ne_ofNat hlt (by omega)).symm]
    exact h.holds k d' hk hlt (by omega)
  busy _ := by rw [get_set, if_pos rfl, hs]
  empty i hi := by
    rw [List.length_append, List.length_singleton] at hi
    rw [get_set]
    split_ifs
    · exact hs
    · exact h.empty i (by omega)

/-- While the update is in progress only the data of its slot changes. -/
theorem copy (h : SlotsOk chunks V slots) (hV : V < chunks.length) {s : Slot}
    (hs : s.header = ⟨0, 0⟩) : SlotsOk chunks V (slots.set (Fin.ofNat n V) s) where
  sizes := h.sizes
  le_length := h.le_length
  length_le := h.length_le
  holds k d hk hlt hle := by
    rw [get_set, if_neg (ofNat_ne_ofNat hlt (by omega)).symm]
    exact h.holds k d hk hlt hle
  busy _ := by rw [get_set, if_pos rfl, hs]
  empty i hi := by
    rw [get_set]
    split_ifs
    · exact hs
    · exact h.empty i hi

/-- The header is set: the update in progress is finished. -/
theorem finish (h : SlotsOk chunks V slots) {d : Bytes} (hd : chunks[V]? = some d) {s : Slot}
    (hs : s.Holds V d) : SlotsOk chunks (V + 1) (slots.set (Fin.ofNat n V) s) where
  sizes := h.sizes
  le_length := (List.getElem?_eq_some_iff.mp hd).1
  length_le := h.length_le.trans (Nat.le_succ _)
  holds k d' hk hlt hle := by
    rcases Nat.lt_succ_iff_lt_or_eq.mp hlt with hlt | rfl
    · have hV := (List.getElem?_eq_some_iff.mp hd).1
      rw [get_set, if_neg (ofNat_ne_ofNat hlt (by omega)).symm]
      exact h.holds k d' hk hlt hle
    · obtain rfl : d = d' := Option.some.inj (hd.symm.trans hk)
      rwa [get_set, if_pos rfl]
  busy hV := absurd h.length_le (by omega)
  empty i hi := by
    have hV := (List.getElem?_eq_some_iff.mp hd).1
    have hne : Fin.ofNat n V ≠ i := fun h' => by
      have : V % n = i := congrArg Fin.val h'
      have := Nat.mod_le V n
      omega
    rw [get_set, if_neg hne]
    exact h.empty i hi

/-- Every slot is marked as empty, or holds a finished chunk that no later one has begun to
overwrite. -/
theorem header_cases (h : SlotsOk chunks V slots) (i : Fin n) :
    (slots.get i).header = ⟨0, 0⟩ ∨ ∃ k d, chunks[k]? = some d ∧ k < V ∧
      chunks.length ≤ k + n ∧ Fin.ofNat n k = i ∧ (slots.get i).Holds k d := by
  rcases Nat.lt_or_ge i chunks.length with hi | hi
  · obtain ⟨k, hkW, hWk, rfl⟩ := exists_last_chunk hi
    rcases Nat.lt_or_ge k V with hkV | hkV
    · have hd := List.getElem?_eq_getElem hkW
      exact Or.inr ⟨k, _, hd, hkV, hWk, rfl, h.holds k _ hd hkV hWk⟩
    · obtain rfl : k = V := by
        have := h.length_le
        omega
      exact Or.inl (h.busy hkW)
  · exact Or.inl (h.empty i hi)

/-- Below `2 ^ 32` chunks a sequence number stands for one chunk only: if the slot of the chunk `e`
shows the sequence number of `e`, that chunk is finished and no later one has begun to overwrite
it. -/
theorem retained_of_sn (h : SlotsOk chunks V slots) (hW : chunks.length < 2 ^ 32) {e : ℕ}
    (he : e ≤ chunks.length) (hsn : (slots.get (Fin.ofNat n e)).header.sn = UInt32.ofNat (e + 1))
    (h0 : (slots.get (Fin.ofNat n e)).header.sn ≠ 0) : e < V ∧ chunks.length ≤ e + n := by
  rcases h.header_cases (Fin.ofNat n e) with hempty | ⟨k, d, hd, hkV, hWk, -, hholds⟩
  · rw [hempty] at h0
    exact absurd rfl h0
  · have hkW := (List.getElem?_eq_some_iff.mp hd).1
    rw [hholds.1] at hsn h0
    have he' : e + 1 < 2 ^ 32 := by
      refine lt_of_le_of_ne (by omega) fun h' => h0 ?_
      rw [hsn, h']
      rfl
    have : k + 1 = e + 1 := uint32_ofNat_inj (by omega) he' hsn
    omega

theorem appendSize_of_mem (h : SlotsOk chunks V slots) {d : Bytes} (hd : d ∈ chunks) :
    UInt32.ofNat d.length ≠ 0 ∧ ReadResult.appendSize (UInt32.ofNat d.length) = d.length := by
  obtain ⟨hpos, hle⟩ := h.sizes d hd
  have hlt : d.length < 2 ^ 32 := hle.trans_lt (by decide)
  have hne : UInt32.ofNat d.length ≠ 0 := fun h' =>
    hpos.ne' (uint32_ofNat_inj hlt (by decide : 0 < 2 ^ 32) h')
  refine ⟨hne, ?_⟩
  rw [ReadResult.appendSize, if_pos hne, UInt32.toNat_ofNat', Nat.mod_eq_of_lt hlt]

/-- `append` never copies more than the bytes of the slot. -/
theorem appendSize_le (h : SlotsOk chunks V slots) (i : Fin n) :
    ReadResult.appendSize (slots.get i).header.sz ≤ slotSize := by
  rcases h.header_cases i with hempty | ⟨k, d, hd, -, -, -, hholds⟩
  · rw [hempty]
    exact le_rfl
  · have hmem := List.mem_of_getElem? hd
    rw [hholds.1, (h.appendSize_of_mem hmem).2]
    exact (h.sizes d hmem).2

/-- A slot that is not marked as empty does not show the size `0`. -/
theorem sn_eq_zero_or_sz_ne_zero (h : SlotsOk chunks V slots) (i : Fin n) :
    (slots.get i).header.sn = 0 ∨ (slots.get i).header.sz ≠ 0 := by
  rcases h.header_cases i with hempty | ⟨k, d, hd, -, -, -, hholds⟩
  · exact Or.inl (by rw [hempty])
  · right
    rw [hholds.1]
    exact (h.appendSize_of_mem (List.mem_of_getElem? hd)).1

end SlotsOk

/-! ### The writer at a slot -/

namespace RingBuffer

variable {b : RingBuffer n}

omit [NeZero n] in
@[simp] theorem cslot_setCslot (b : RingBuffer n) (s : Slot) : (b.setCslot s).cslot = s := by
  change (b.slots.set b.pos.index s).get b.pos.index = s
  rw [get_set, if_pos rfl]

omit [NeZero n] in
@[simp] theorem setCslot_cslot (b : RingBuffer n) : b.setCslot b.cslot = b := by
  have hset : b.slots.set b.pos.index b.slots[(b.pos.index : ℕ)] = b.slots :=
    Vector.set_getElem_self ..
  exact congrArg (RingBuffer.mk b.pos) hset

omit [NeZero n] in
@[simp] theorem setCslot_setCslot (b : RingBuffer n) (s s' : Slot) :
    (b.setCslot s).setCslot s' = b.setCslot s' := by
  simp only [setCslot, Vector.set_set]

omit [NeZero n] in
@[simp] theorem pos_setCslot (b : RingBuffer n) (s : Slot) : (b.setCslot s).pos = b.pos := rfl

theorem slots_setCslot {k : ℕ} (h : b.pos.IsAt k) (s : Slot) :
    (b.setCslot s).slots = b.slots.set (Fin.ofNat n k) s := by
  simp only [setCslot, h.2]

theorem cslot_eq {k : ℕ} (h : b.pos.IsAt k) : b.cslot = b.slots.get (Fin.ofNat n k) := by
  rw [cslot, h.2]

/-- No update is in progress: the writer is at the position of the next chunk. -/
structure Settled (b : RingBuffer n) (chunks : List Bytes) : Prop where
  pos : b.pos.IsAt chunks.length
  slots : SlotsOk chunks chunks.length b.slots

theorem settled_init : (init n).Settled [] := ⟨Position.isAt_start, SlotsOk.init⟩

/-- A whole update: the next chunk is put into the next slot. -/
theorem Settled.put (hn : n < 2 ^ 32) {chunks : List Bytes} (h : b.Settled chunks) {d : Bytes}
    (hd : 0 < d.length ∧ d.length ≤ slotSize) : (b.put d).Settled (chunks ++ [d]) := by
  have hlen : (chunks ++ [d]).length = chunks.length + 1 := by simp
  refine ⟨?_, ?_⟩
  · rw [hlen]
    exact h.pos.moveNext hn
  · have hbegin := h.slots.begin hd (s := { b.cslot with header := ⟨0, 0⟩ }) rfl
    have hfinish := hbegin.finish (d := d) (by simp) (b.cslot.holds_update hd.2 chunks.length)
    rw [Vector.set_set] at hfinish
    change SlotsOk _ _ (b.setCslot (b.cslot.update d b.pos.sn)).slots
    rw [hlen, slots_setCslot h.pos, h.pos.1]
    exact hfinish

theorem Settled.foldl_put (hn : n < 2 ^ 32) : ∀ {b : RingBuffer n} {chunks : List Bytes}
    (ds : List Bytes), b.Settled chunks → (∀ d ∈ ds, 0 < d.length ∧ d.length ≤ slotSize) →
    (ds.foldl RingBuffer.put b).Settled (chunks ++ ds)
  | b, chunks, [], h, _ => by simpa using h
  | b, chunks, d :: ds, h, hds => by
    have hput := h.put hn (hds d List.mem_cons_self)
    simpa using hput.foldl_put hn ds fun d' hd' => hds d' (List.mem_cons_of_mem d hd')

end RingBuffer

end Slots

end Keryx
