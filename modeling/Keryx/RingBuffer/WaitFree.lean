import Keryx.RingBuffer.Interleaving

/-!
# `write` is wait-free

The writer never looks at what readers do. So a call of `write` cannot be held up: it takes a number
of steps of its own that depends on the length of its message only, two stores of a header for each
slot and one copy for each byte, wherever the steps of readers come in between.

## Main definitions

* `Interleaving.writeCost` — the steps of a call of `write`.
* `Interleaving.WriterThread.remaining` — the steps that are left of the call that the writer is in.

## Main results

* `Interleaving.writerStep_progress` — one step of the writer.
* `Interleaving.steps_add_remaining` — the steps of the writer in a whole run.
* `Interleaving.write_waitFree` — every call of `write` takes its own number of steps.

Source: `src/lib/ring_buffer/ring_buffer.h`, lines 30–36 and 57–74.
-/

namespace Keryx.Interleaving

open Transition

variable {n : ℕ} {ι : Type*}

/-! ### The writer -/

/-- The steps that put `r` bytes into slots: one for each byte, and two stores of a header for each
slot. -/
def stepsFor (r : ℕ) : ℕ := r + 2 * ((r + (slotSize - 1)) / slotSize)

/-- The steps of a call of `write`. A message that is rejected takes one step, which is the call and
its return. -/
def writeCost (n : ℕ) (sview : Bytes) : ℕ :=
  if sview.length > n * slotSize then 1
  else if sview.isEmpty then 1
  else 1 + stepsFor sview.length + 1

/-- The steps that are left of the call that the writer is in. -/
def WriterThread.remaining (t : WriterThread) : ℕ :=
  match t.pc with
  | .idle => 0
  | .looping sview currentByte => stepsFor (sview.length - currentByte) + 1
  | .copying sview currentByte d todo =>
    todo.length + 1 + stepsFor (sview.length - (currentByte + d.length)) + 1

/-- The steps that a step of the writer gives rise to. -/
def WriterLabel.cost (n : ℕ) : WriterLabel → ℕ
  | .call sview => writeCost n sview
  | .storeEmpty | .copyByte _ | .storeHeader | .ret => 0

theorem WriterThread.idle_of_remaining {t : WriterThread} (h : t.remaining = 0) :
    t.pc = .idle := by
  obtain ⟨pc, chunks⟩ := t
  cases pc with
  | idle => rfl
  | looping sview currentByte => cases h
  | copying sview currentByte d todo => cases h

/-- The first of `r` bytes go into one slot. -/
theorem stepsFor_slot {r : ℕ} (hr : r ≠ 0) :
    stepsFor r = 2 + min slotSize r + stepsFor (r - min slotSize r) := by
  simp only [stepsFor, slotSize]
  omega

variable [NeZero n] {b b' : RingBuffer n} {t t' : WriterThread} {l : WriterLabel}

/-- **One step of the writer** is one of the steps of its call. -/
theorem writerStep_progress (h : WriterOk b t) (hs : writerStep b t l = some (b', t')) :
    1 + t'.remaining = t.remaining + l.cost n := by
  cases writerEffect_of_step hs with
  | reject hpc hreject =>
    rcases hreject with hbig | hempty
    · simp [WriterThread.remaining, WriterLabel.cost, writeCost, hpc, hbig]
    · simp [WriterThread.remaining, WriterLabel.cost, writeCost, hpc, hempty]
  | accept hpc hle hne =>
    simp only [WriterThread.remaining, WriterLabel.cost, writeCost, hpc, if_neg hle, if_neg hne,
      Nat.sub_zero]
    omega
  | @storeEmpty sview currentByte d hpc hend hd =>
    rw [WriterOk, hpc] at h
    have hle : currentByte ≤ sview.length := h.1
    have hlength : d.length = min slotSize (sview.length - currentByte) := by
      rw [hd, RingBuffer.nextChunk, List.length_take, List.length_drop, Nat.min_assoc,
        Nat.min_self]
    have hslot := stepsFor_slot (r := sview.length - currentByte) (by omega)
    rw [← hlength, Nat.sub_sub] at hslot
    simp only [WriterThread.remaining, WriterLabel.cost, hpc, List.length_range]
    omega
  | copyByte hpc hi =>
    have hpos := List.length_pos_of_mem hi
    simp only [WriterThread.remaining, WriterLabel.cost, hpc, List.length_erase_of_mem hi]
    omega
  | storeHeader hpc =>
    simp only [WriterThread.remaining, WriterLabel.cost, hpc, List.length_nil]
    omega
  | ret hpc => simp [WriterThread.remaining, WriterLabel.cost, stepsFor, hpc]

omit [NeZero n] in
/-- The writer is never blocked inside a call. -/
theorem exists_writerStep (b : RingBuffer n) (hpc : t.pc ≠ .idle) :
    ∃ l p, writerStep b t l = some p := by
  obtain ⟨pc, chunks⟩ := t
  cases pc with
  | idle => exact absurd rfl hpc
  | looping sview currentByte =>
    by_cases hend : currentByte = sview.length
    · exact ⟨.ret, _, if_pos hend⟩
    · exact ⟨.storeEmpty, _, if_neg hend⟩
  | copying sview currentByte d todo =>
    cases todo with
    | nil => exact ⟨.storeHeader, _, rfl⟩
    | cons i todo => exact ⟨.copyByte i, _, if_pos List.mem_cons_self⟩

/-! ### Whole runs -/

section Runs

/-- One for a step of the writer. -/
def Label.writerSteps : Label ι → ℕ
  | .writer _ => 1
  | .reader _ _ => 0

/-- The steps that a step gives rise to in the writer. -/
def Label.writeCost (n : ℕ) : Label ι → ℕ
  | .writer l => l.cost n
  | .reader _ _ => 0

/-- The steps of the writer in a run. -/
def writerSteps (ls : List (Label ι)) : ℕ := (ls.map Label.writerSteps).sum

/-- The steps of the calls of `write` of a run. -/
def writeCosts (n : ℕ) (ls : List (Label ι)) : ℕ := (ls.map (Label.writeCost n)).sum

variable [DecidableEq ι] {s s' : State n ι} {ls : List (Label ι)}

theorem step_progress (hs : Inv s) {l : Label ι} (hstep : step s l = some s') :
    l.writerSteps + s'.writer.remaining = s.writer.remaining + l.writeCost n := by
  cases l with
  | writer l =>
    obtain ⟨⟨b, t⟩, hwriter, rfl⟩ := Option.map_eq_some_iff.mp hstep
    exact writerStep_progress hs.writer hwriter
  | reader r l =>
    obtain ⟨t, -, rfl⟩ := Option.map_eq_some_iff.mp hstep
    exact Nat.zero_add _

/-- A call of `write` does not begin before the last one has returned. -/
theorem writeCost_eq_zero (hpc : s.writer.pc ≠ .idle) {l : Label ι} (hstep : step s l = some s') :
    l.writeCost n = 0 := by
  cases l with
  | writer l =>
    obtain ⟨⟨b, t⟩, hwriter, -⟩ := Option.map_eq_some_iff.mp hstep
    cases writerEffect_of_step hwriter with
    | reject hidle | accept hidle => exact absurd hidle hpc
    | _ => rfl
  | reader r l => rfl

/-- **The steps of the writer in a run** are those of its calls, less those that are left of the
call it is in. -/
theorem steps_add_remaining (hn : n < 2 ^ 32) (hs : Inv s) (hrun : run step s ls = some s') :
    writerSteps ls + s'.writer.remaining = s.writer.remaining + writeCosts n ls :=
  run_balance step (Inv.step hn) (f := fun s => s.writer.remaining)
    (fun _ _ _ h hstep => step_progress h hstep) hs hrun

/-- **`write` is wait-free.** In every run the writer has made the steps of its calls, but for those
that are left of the call it is in. Inside a call it is never blocked, and the call returns once the
writer has made the steps that are left, whatever the readers do. -/
theorem write_waitFree (hn : n < 2 ^ 32) (hrun : run step (init n ι) ls = some s) :
    writerSteps ls + s.writer.remaining = writeCosts n ls ∧
    (s.writer.pc ≠ .idle →
      (∃ l s', step s (.writer l) = some s') ∧
      ∀ ls' s', run step s ls' = some s' → s.writer.remaining ≤ writerSteps ls' →
        ∃ ls₁ ls₂ s₁, ls' = ls₁ ++ ls₂ ∧ run step s ls₁ = some s₁ ∧ s₁.writer.pc = .idle) := by
  have hs := inv_of_reachable hn ⟨ls, hrun⟩
  refine ⟨?_, fun hpc => ⟨?_, fun ls' s' hrun' hle => ?_⟩⟩
  · have hsteps := steps_add_remaining hn inv_init hrun
    rwa [show (init n ι).writer.remaining = 0 from rfl, Nat.zero_add] at hsteps
  · obtain ⟨l, p, hl⟩ := exists_writerStep s.buf hpc
    exact ⟨l, _, Option.map_eq_some_iff.mpr ⟨p, hl, rfl⟩⟩
  · refine exists_prefix_of_cost step (Inv.step hn) (f := fun s => s.writer.remaining)
      (fun t l t' ht hidle hl => ?_) (fun t => WriterThread.idle_of_remaining) hs hrun' hle
    have hfirst := step_progress ht hl
    rw [writeCost_eq_zero hidle hl] at hfirst
    exact (Nat.add_comm ..).trans_le hfirst.le

/-- A reader looks at the slot while the writer is in the middle of an update. -/
def interruptedWrite : List (Label Unit) :=
  [.writer (.call [7, 8]), .reader () .call, .writer .storeEmpty, .reader () .loadHeader,
    .writer (.copyByte 1)]

theorem write_waitFree_of_interruptedWrite : ∃ s : State 1 Unit,
    run step (init 1 Unit) interruptedWrite = some s ∧ s.writer.remaining = 3 ∧
      writeCosts 1 interruptedWrite = 6 ∧
      writerSteps interruptedWrite + s.writer.remaining = writeCosts 1 interruptedWrite :=
  ⟨_, rfl, rfl, rfl, (write_waitFree (by decide)
    (rfl : run step (init 1 Unit) interruptedWrite = some _)).1⟩

end Runs

end Keryx.Interleaving
