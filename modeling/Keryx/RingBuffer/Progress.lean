import Keryx.RingBuffer.Interleaving

/-!
# `read_next` leaves its loop in the first pass

The loop of `read_next` has no bound of its own. It goes round when it finds the same sequence
number before and after its copy and the size `0`, and the writer never shows that: a header has the
size `0` only together with the sequence number `0`, in the middle of an update too, and after
sequence numbers have come round. Every call therefore loads the first header once, and returns
after a bounded number of its own steps, whatever the writer does in between.

## Main definitions

* `Interleaving.calls`, `Interleaving.passes` — the calls of a reader in a run, and the passes of
  their loops.
* `Interleaving.ReaderThread.remaining` — a bound for the steps that are left of a call.

## Main results

* `Interleaving.readerStep_progress` — one step of a reader.
* `Interleaving.passes_add_looping` — in a whole run every call makes one pass.
* `Interleaving.readNext_terminates` — every call returns in its first pass.

Source: `src/lib/ring_buffer/ring_buffer.h`, lines 23–41, 57–74 and 116–153.
-/

namespace Keryx.Interleaving

open Transition

variable {n : ℕ} {ι : Type*} [NeZero n]

/-! ### One reader -/

/-- Whether a reader is at the head of the loop. -/
def ReaderThread.looping (t : ReaderThread n) : ℕ :=
  match t.pc with
  | .looping _ => 1
  | _ => 0

/-- A bound for the steps that are left of the call that a reader is in. -/
def ReaderThread.remaining (t : ReaderThread n) : ℕ :=
  match t.pc with
  | .idle => 0
  | .looping _ => slotSize + 2
  | .copying _ _ _ todo => todo.length + 1

/-- A reader copies only after it has found a sequence number other than `0`, and at most the bytes
of a slot. -/
def ReaderThread.Loaded (t : ReaderThread n) : Prop :=
  match t.pc with
  | .copying _ h _ todo => h.sn ≠ 0 ∧ todo.length ≤ slotSize
  | _ => True

omit [NeZero n] in
theorem ReaderThread.Loaded.remaining_le {t : ReaderThread n} (h : t.Loaded) :
    t.remaining ≤ slotSize + 2 := by
  obtain ⟨reader, pc, returned⟩ := t
  cases pc with
  | idle => exact Nat.zero_le _
  | looping w => exact le_rfl
  | copying w hdr frag todo => exact Nat.add_le_add h.2 (by decide)

omit [NeZero n] in
theorem ReaderThread.idle_of_remaining {t : ReaderThread n} (h : t.remaining = 0) :
    t.pc = .idle := by
  obtain ⟨reader, pc, returned⟩ := t
  cases pc with
  | idle => rfl
  | looping w => cases h
  | copying w hdr frag todo => cases h

/-- The step calls `read_next`. -/
def ReaderLabel.calls : ReaderLabel → ℕ
  | .call => 1
  | _ => 0

/-- The step begins a pass of the loop. -/
def ReaderLabel.passes : ReaderLabel → ℕ
  | .loadHeader => 1
  | _ => 0

variable {chunks : List Bytes} {V : ℕ} {slots : Vector Slot n} {t t' : ReaderThread n}
  {l : ReaderLabel}

/-- **One step of a reader** on slots that the writer produces. Inside a call it brings the end of
the call nearer, and the head of the loop is reached by a call only. -/
theorem readerStep_progress (hs : SlotsOk chunks V slots) (ht : t.Loaded)
    (hstep : readerStep slots t l = some t') :
    t'.Loaded ∧ l.passes + t'.looping = t.looping + l.calls ∧
      (t.pc ≠ .idle → t'.remaining < t.remaining) := by
  obtain ⟨reader, pc, returned⟩ := t
  cases readerEffect_of_step hstep with
  | construct hpc | call hpc =>
    cases hpc
    exact ⟨trivial, rfl, fun h => absurd rfl h⟩
  | noData hpc | loss hpc =>
    cases hpc
    exact ⟨trivial, rfl, fun _ => Nat.succ_pos _⟩
  | append hpc hh h0 =>
    cases hpc
    subst hh
    have hsize := hs.appendSize_le reader.pos.index
    rw [← List.length_range (n := ReadResult.appendSize _)] at hsize
    exact ⟨⟨h0, hsize⟩, rfl, fun _ => Nat.add_lt_add_of_le_of_lt hsize (by decide)⟩
  | @copyByte _ _ _ todo i _ hpc hi =>
    cases hpc
    have hlt : (todo.erase i).length < todo.length := by
      rw [List.length_erase_of_mem hi]
      exact Nat.sub_one_lt (List.length_pos_of_mem hi).ne'
    exact ⟨⟨ht.1, hlt.le.trans ht.2⟩, rfl, fun _ => Nat.succ_lt_succ hlt⟩
  | overtaken hpc | deliver hpc =>
    cases hpc
    exact ⟨trivial, rfl, fun _ => Nat.succ_pos _⟩
  | again hpc hr hsn hsz =>
    cases hpc
    -- the header shows the sequence number that was loaded first, which is not `0`
    rcases hs.sn_eq_zero_or_sz_ne_zero reader.pos.index with hzero | hne
    · exact absurd (hsn.trans hzero) ht.1
    · exact absurd hsz hne

/-- A reader inside a call is never blocked. -/
theorem exists_readerStep (slots : Vector Slot n) (hpc : t.pc ≠ .idle) :
    ∃ l t', readerStep slots t l = some t' := by
  obtain ⟨reader, pc, returned⟩ := t
  cases pc with
  | idle => exact absurd rfl hpc
  | looping w =>
    refine ⟨.loadHeader, ?_⟩
    simp only [readerStep]
    split_ifs
    · exact ⟨_, rfl⟩
    · exact ⟨_, rfl⟩
    · exact ⟨_, rfl⟩
  | copying w h frag todo =>
    cases todo with
    | nil =>
      refine ⟨.reloadHeader, ?_⟩
      simp only [readerStep]
      split_ifs
      · exact ⟨_, rfl⟩
      · exact ⟨_, rfl⟩
      · exact ⟨_, rfl⟩
    | cons i todo =>
      exact ⟨.copyByte i, _, if_pos List.mem_cons_self⟩

/-! ### Whole runs -/

section Runs

variable [DecidableEq ι] {s s' : State n ι} {r : ι} {ls : List (Label ι)}

/-- The number of steps of a run that `f` counts for the reader `r`. -/
def count (f : ReaderLabel → ℕ) (r : ι) (ls : List (Label ι)) : ℕ :=
  (ls.map fun
    | .reader q l => if q = r then f l else 0
    | .writer _ => 0).sum

/-- The calls of `read_next` that the reader `r` makes in a run. -/
def calls (r : ι) (ls : List (Label ι)) : ℕ := count ReaderLabel.calls r ls

/-- The passes of the loop of `read_next` that the reader `r` begins in a run. -/
def passes (r : ι) (ls : List (Label ι)) : ℕ := count ReaderLabel.passes r ls

/-- The steps of the reader `r` in a run. -/
def steps (r : ι) (ls : List (Label ι)) : ℕ := count (fun _ => 1) r ls

theorem count_eq_sum (f : ReaderLabel → ℕ) (r : ι) (ls : List (Label ι)) :
    count f r ls = (ls.map fun l => count f r [l]).sum := by
  simp [count]

/-- The slots are as the writer leaves them, and readers copy only what they may. -/
structure Sound (s : State n ι) : Prop where
  inv : Inv s
  loaded : ∀ r, (s.readers r).Loaded

omit [DecidableEq ι] in
theorem sound_init : Sound (init n ι) := ⟨inv_init, fun _ => trivial⟩

/-- **One step of the system**, for the reader `r`. -/
theorem Sound.step (hn : n < 2 ^ 32) (h : Sound s) {l : Label ι} (hs : step s l = some s') :
    Sound s' ∧ ∀ r,
      passes r [l] + (s'.readers r).looping = (s.readers r).looping + calls r [l] ∧
      ((s.readers r).pc ≠ .idle →
        (s'.readers r).remaining + steps r [l] ≤ (s.readers r).remaining) := by
  have hinv := h.inv.step hn s l s' hs
  cases l with
  | writer l =>
    obtain ⟨⟨b, t⟩, -, rfl⟩ := Option.map_eq_some_iff.mp hs
    exact ⟨⟨hinv, h.loaded⟩, fun r => ⟨Nat.add_comm .., fun _ => le_rfl⟩⟩
  | reader q l =>
    obtain ⟨t, hstep, rfl⟩ := Option.map_eq_some_iff.mp hs
    obtain ⟨hloaded, hpass, hlt⟩ :=
      readerStep_progress h.inv.writer.slotsOk (h.loaded q) hstep
    refine ⟨⟨hinv, fun r => ?_⟩, fun r => ?_⟩
    · by_cases hr : r = q
      · subst hr
        simpa using hloaded
      · simpa [Function.update_of_ne hr] using h.loaded r
    · by_cases hr : r = q
      · subst hr
        simpa [passes, calls, steps, count, Nat.succ_le_iff] using ⟨hpass, hlt⟩
      · simp [passes, calls, steps, count, Function.update_of_ne hr, Ne.symm hr]

theorem sound_of_reachable (hn : n < 2 ^ 32) (hs : Reachable step (init n ι) s) : Sound s :=
  hs.invariant (fun _ _ _ h hstep => (h.step hn hstep).1) sound_init

/-- Every call makes one pass: in a run, the passes and the calls that have not begun theirs are as
many as the calls. -/
theorem passes_add_looping (hn : n < 2 ^ 32) (h : Sound s) (hrun : run step s ls = some s')
    (r : ι) :
    passes r ls + (s'.readers r).looping = (s.readers r).looping + calls r ls := by
  have hbalance := run_balance step (I := Sound) (fun _ _ _ h hstep => (h.step hn hstep).1)
    (f := fun s => (s.readers r).looping)
    (fun _ _ _ h hstep => ((h.step hn hstep).2 r).1) h hrun
  simp only [passes, calls] at hbalance ⊢
  rwa [← count_eq_sum, ← count_eq_sum] at hbalance

/-- A call returns once the reader has made the steps that are left of it. -/
theorem exists_idle (hn : n < 2 ^ 32) (h : Sound s) (hrun : run step s ls = some s')
    (hle : (s.readers r).remaining ≤ steps r ls) :
    ∃ ls₁ ls₂ s₁, ls = ls₁ ++ ls₂ ∧ run step s ls₁ = some s₁ ∧ (s₁.readers r).pc = .idle := by
  rw [steps, count_eq_sum] at hle
  exact exists_prefix_of_cost step (I := Sound) (fun _ _ _ h hstep => (h.step hn hstep).1)
    (f := fun s => (s.readers r).remaining)
    (fun _ _ _ h hpc hstep => ((h.step hn hstep).2 r).2 hpc)
    (fun _ => ReaderThread.idle_of_remaining) h hrun hle

/-- **`read_next` terminates.** In every run, of any length: no header that can be loaded has a size
above 56, or the size `0` with a sequence number other than `0`. Every call of `read_next` makes one
pass of its loop. It is never blocked, and returns after at most 58 steps of its own, whatever the
other threads do. -/
theorem readNext_terminates (hn : n < 2 ^ 32) (hrun : run step (init n ι) ls = some s) :
    (∀ i, (s.buf.slots.get i).header.sz.toNat ≤ 56 ∧
      ((s.buf.slots.get i).header.sz = 0 → (s.buf.slots.get i).header.sn = 0)) ∧
    ∀ r, passes r ls + (s.readers r).looping = calls r ls ∧
      ((s.readers r).pc ≠ .idle →
        (∃ l s', step s (.reader r l) = some s') ∧
        ∀ ls' s', run step s ls' = some s' → 58 ≤ steps r ls' →
          ∃ ls₁ ls₂ s₁, ls' = ls₁ ++ ls₂ ∧ run step s ls₁ = some s₁ ∧
            (s₁.readers r).pc = .idle) := by
  have h := sound_of_reachable hn ⟨ls, hrun⟩
  have hslots := h.inv.writer.slotsOk
  refine ⟨fun i => ⟨?_, ?_⟩, fun r => ⟨?_, fun hpc => ⟨?_, fun ls' s' hrun' hle => ?_⟩⟩⟩
  · rcases hslots.header_cases i with hempty | ⟨k, d, hd, -, -, -, hholds⟩
    · rw [hempty]
      exact Nat.zero_le _
    · have hle : d.length ≤ 56 := (hslots.sizes d (List.mem_of_getElem? hd)).2
      rw [hholds.1, UInt32.toNat_ofNat', Nat.mod_eq_of_lt (by omega)]
      exact hle
  · exact fun hsz => (hslots.sn_eq_zero_or_sz_ne_zero i).resolve_right (not_not.mpr hsz)
  · have hpasses := passes_add_looping hn sound_init hrun r
    rwa [show ((init n ι).readers r).looping = 0 from rfl, Nat.zero_add] at hpasses
  · obtain ⟨l, t, hl⟩ := exists_readerStep s.buf.slots hpc
    exact ⟨l, _, Option.map_eq_some_iff.mpr ⟨t, hl, rfl⟩⟩
  · exact exists_idle hn h hrun' ((h.loaded r).remaining_le.trans hle)

/-- A reader is between its two loads of the header while the writer begins an update and finishes
it. -/
def overtakenRun : List (Label Unit) :=
  [.writer (.call [7]), .writer .storeEmpty, .writer (.copyByte 0), .writer .storeHeader,
    .writer .ret, .reader () .call, .reader () .loadHeader, .writer (.call [8]),
    .writer .storeEmpty, .writer (.copyByte 0), .writer .storeHeader, .reader () (.copyByte 0),
    .reader () .reloadHeader]

theorem readNext_terminates_of_overtakenRun : ∃ s : State 1 Unit,
    run step (init 1 Unit) overtakenRun = some s ∧ (s.readers ()).returned = [⟨.loss, [8]⟩] ∧
      passes () overtakenRun + (s.readers ()).looping = calls () overtakenRun :=
  ⟨_, rfl, rfl, ((readNext_terminates (by decide)
    (rfl : run step (init 1 Unit) overtakenRun = some _)).2 ()).1⟩

end Runs

end Keryx.Interleaving
