import Keryx.RingBuffer.Calls
import Keryx.RingBuffer.Interleaving

/-!
# The bytes that go through a ring

`write` cuts the messages it accepts into chunks of up to 56 bytes, and `read_next` hands out one
chunk at a time. So a ring is a pipe: in every run, also while a message is only half written, the
bytes that a reader has been given are the first bytes of all the messages accepted so far, and no
chunk has bytes of two messages. A rejected message leaves no trace.

## Main definitions

* `Interleaving.messages` — the messages that `write` accepts in a run.
* `Interleaving.WriterThread.unwritten` — the chunks of the current message that are still to come.

## Main results

* `Interleaving.chunks_append_unwritten` — the chunks of the accepted messages.
* `Interleaving.received_prefix_messages` — what a reader has been given.

Source: `src/lib/ring_buffer/ring_buffer.h`, lines 57–74.
-/

namespace Keryx.Interleaving

open Transition

variable {n : ℕ} {ι : Type*}

/-- The message that a step makes `write` accept. -/
def accepted (n : ℕ) : Label ι → Option Bytes
  | .writer (.call sview) =>
    if sview.length > n * slotSize then none else if sview.isEmpty then none else some sview
  | .writer _ | .reader _ _ => none

/-- The messages that `write` accepts in a run, in order. -/
def messages (n : ℕ) (ls : List (Label ι)) : List Bytes := ls.filterMap (accepted n)

theorem ne_nil_of_mem_messages {ls : List (Label ι)} {m : Bytes} (hm : m ∈ messages n ls) :
    m ≠ [] := by
  obtain ⟨l, -, hl⟩ := List.mem_filterMap.mp hm
  cases l with
  | writer l =>
    cases l with
    | call sview =>
      rw [accepted] at hl
      split_ifs at hl with _ hempty
      cases hl
      exact fun h => hempty (List.isEmpty_iff.mpr h)
    | _ => cases hl
  | reader r l => cases hl

/-- The chunks of the current message that have not been passed to `Slot::update` yet. -/
def WriterThread.unwritten (t : WriterThread) : List Bytes :=
  match t.pc with
  | .idle => []
  | .looping sview currentByte => (sview.drop currentByte).chunks slotSize
  | .copying sview currentByte d _ => (sview.drop (currentByte + d.length)).chunks slotSize

variable [NeZero n]

/-- **One step of the writer.** The chunks written and those still to come change only when a
message is accepted, and then they gain its chunks. -/
theorem chunks_of_writerStep {b b' : RingBuffer n} {t t' : WriterThread} {l : WriterLabel}
    (h : WriterOk b t) (hs : writerStep b t l = some (b', t')) :
    t'.chunks ++ t'.unwritten = t.chunks ++ t.unwritten ++
      (accepted n (.writer l : Label ι)).toList.flatMap (·.chunks slotSize) := by
  cases writerEffect_of_step hs with
  | reject hpc hreject =>
    rcases hreject with hbig | hempty
    · simp [accepted, hbig]
    · simp [accepted, hempty]
  | accept hpc hle hne => simp [accepted, hle, hne, WriterThread.unwritten, hpc]
  | storeEmpty hpc hend hd =>
    rw [WriterOk, hpc] at h
    simp [accepted, WriterThread.unwritten, hpc, RingBuffer.chunks_drop h.1 hend, hd]
  | copyByte hpc => simp [accepted, WriterThread.unwritten, hpc]
  | storeHeader hpc => simp [accepted, WriterThread.unwritten, hpc]
  | ret hpc => simp [accepted, WriterThread.unwritten, hpc]

variable [DecidableEq ι] {s s' : State n ι} {ls : List (Label ι)}

/-- In a whole run the writer gains the chunks of the messages that are accepted. -/
theorem chunks_append_unwritten (hn : n < 2 ^ 32) (hs : Inv s) (hrun : run step s ls = some s') :
    s'.writer.chunks ++ s'.writer.unwritten = s.writer.chunks ++ s.writer.unwritten ++
      (messages n ls).flatMap (·.chunks slotSize) := by
  let P (t : State n ι) (ls : List (Label ι)) : Prop := Inv t ∧
    t.writer.chunks ++ t.writer.unwritten = s.writer.chunks ++ s.writer.unwritten ++
      (messages n ls).flatMap (·.chunks slotSize)
  have hinit : P s [] := ⟨hs, (List.append_nil _).symm⟩
  refine (run_labels step (P := P) (fun t l t' ls ⟨ht, heq⟩ hstep => ?_) hinit hrun).2
  have hmessages : messages n (ls ++ [l]) = messages n ls ++ (accepted n l).toList := by
    rw [messages, List.filterMap_append, messages]
    cases h : accepted n l <;> simp [h]
  refine ⟨ht.step hn t l t' hstep, ?_⟩
  rw [hmessages, List.flatMap_append, ← List.append_assoc, ← heq]
  cases l with
  | writer l =>
    obtain ⟨⟨b, w⟩, hwriter, rfl⟩ := Option.map_eq_some_iff.mp hstep
    exact chunks_of_writerStep ht.writer hwriter
  | reader r l =>
    obtain ⟨u, -, rfl⟩ := Option.map_eq_some_iff.mp hstep
    exact (List.append_nil _).symm

/-- **A ring is a pipe.** In every run with fewer than `2 ^ 32` chunks, whatever the writer and the
readers are in the middle of, what a reader has been given are the first chunks of the accepted
messages, and its bytes are the first bytes of these messages: all of them, once it has been given
every chunk and no `write` is in progress. If every message fits into one slot, it has been given
the first messages one by one. -/
theorem received_prefix_messages (hn : n < 2 ^ 32) (hrun : run step (init n ι) ls = some s)
    (hW : s.writer.chunks.length < 2 ^ 32) (r : ι) :
    okData (s.readers r).returned <+: (messages n ls).flatMap (·.chunks slotSize) ∧
      (okData (s.readers r).returned).flatten <+: (messages n ls).flatten ∧
      (s.writer.pc = .idle → (okData (s.readers r).returned).length = s.writer.chunks.length →
        (okData (s.readers r).returned).flatten = (messages n ls).flatten) ∧
      ((∀ m ∈ messages n ls, m.length ≤ slotSize) →
        okData (s.readers r).returned <+: messages n ls) := by
  have hchunks := chunks_append_unwritten hn inv_init hrun
  have hgiven := ok_reads_prefix_chunks hn ⟨ls, hrun⟩ hW r
  have hgiven' : okData (s.readers r).returned <+: (messages n ls).flatMap (·.chunks slotSize) :=
    hgiven.trans ⟨_, hchunks⟩
  have hflatten := List.flatten_flatMap_chunks (c := slotSize) (by decide) (messages n ls)
  refine ⟨hgiven', ?_, fun hidle hlen => ?_, fun hshort => ?_⟩
  · obtain ⟨rest, hrest⟩ := hgiven'
    rw [← hflatten, ← hrest, List.flatten_append]
    exact List.prefix_append ..
  · have hunwritten : s.writer.unwritten = [] := by rw [WriterThread.unwritten, hidle]
    rw [hunwritten, List.append_nil] at hchunks
    rw [hgiven.eq_of_length hlen, ← hflatten, hchunks]
    rfl
  · rwa [List.flatMap_chunks_of_length_le fun m hm =>
      ⟨ne_nil_of_mem_messages hm, hshort m hm⟩] at hgiven'

theorem received_prefix_messages_of_overtakingRun : ∃ s : State 1 (Fin 3),
    run step (init 1 (Fin 3)) overtakingRun = some s ∧
      messages 1 overtakingRun = [[7, 8], [9]] ∧ okData (s.readers 1).returned = [[7, 8]] ∧
      okData (s.readers 1).returned <+: messages 1 overtakingRun := by
  have hrun : run step (init 1 (Fin 3)) overtakingRun = some _ := rfl
  have hreceived := received_prefix_messages (by decide) hrun (by decide) 1
  exact ⟨_, hrun, rfl, rfl, hreceived.2.2.2 (by decide)⟩

end Keryx.Interleaving
