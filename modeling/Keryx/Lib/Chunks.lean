import Mathlib.Data.List.Basic

/-!
# Cutting a list into chunks

`List.chunks c l` cuts `l` into consecutive pieces of `c` elements, the last one possibly shorter.
It is the list-level counterpart of a loop that consumes `min c remaining` elements at a time.

## Main results

* `List.flatten_chunks` — the chunks concatenate to the list.
* `List.length_chunks` — there are `⌈|l| / c⌉` of them.
* `List.length_of_mem_chunks` — each has between `1` and `c` elements.
* `List.chunks_of_length_le` — a nonempty list of at most `c` elements is its own only chunk.
-/

namespace List

variable {α : Type*} {c : ℕ}

/-- The consecutive pieces of `c` elements of a list, the last one possibly shorter. -/
def chunks (c : ℕ) (l : List α) : List (List α) :=
  if _h : l = [] ∨ c = 0 then [] else l.take c :: chunks c (l.drop c)
termination_by l.length
decreasing_by
  have := length_pos_iff.mpr (not_or.mp _h).1
  simp only [length_drop]
  omega

@[simp] theorem chunks_nil : chunks c ([] : List α) = [] := by
  rw [chunks]
  simp

theorem chunks_of_ne_nil (hc : 0 < c) {l : List α} (hl : l ≠ []) :
    chunks c l = l.take c :: chunks c (l.drop c) := by
  rw [chunks, dif_neg (not_or.mpr ⟨hl, Nat.pos_iff_ne_zero.mp hc⟩)]

/-- Induction along the pieces of a list. -/
theorem chunks_induction (hc : 0 < c) {P : List α → Prop} (hnil : P [])
    (hcut : ∀ l, l ≠ [] → P (l.drop c) → P l) (l : List α) : P l := by
  induction hn : l.length using Nat.strongRecOn generalizing l with
  | ind n ih =>
    by_cases hl : l = []
    · exact hl ▸ hnil
    · have hpos := length_pos_iff.mpr hl
      exact hcut l hl (ih (l.drop c).length (by simp only [length_drop]; omega) _ rfl)

theorem flatten_chunks (hc : 0 < c) (l : List α) : (chunks c l).flatten = l := by
  induction l using chunks_induction hc with
  | hnil => simp
  | hcut l hl ih => rw [chunks_of_ne_nil hc hl, flatten_cons, ih, take_append_drop]

theorem length_of_mem_chunks (hc : 0 < c) {l d : List α} (hd : d ∈ chunks c l) :
    0 < d.length ∧ d.length ≤ c := by
  induction l using chunks_induction hc with
  | hnil => simp at hd
  | hcut l hl ih =>
    rw [chunks_of_ne_nil hc hl, mem_cons] at hd
    rcases hd with rfl | hd
    · have hpos := length_pos_iff.mpr hl
      simp only [length_take]
      omega
    · exact ih hd

theorem length_chunks (hc : 0 < c) (l : List α) :
    (chunks c l).length = (l.length + (c - 1)) / c := by
  induction l using chunks_induction hc with
  | hnil =>
    rw [chunks_nil, length_nil, length_nil, Nat.div_eq_of_lt (by omega)]
  | hcut l hl ih =>
    have hpos := length_pos_iff.mpr hl
    rw [chunks_of_ne_nil hc hl, length_cons, ih, length_drop]
    rcases Nat.le_total l.length c with h | h
    · rw [Nat.sub_eq_zero_of_le h, Nat.div_eq_of_lt (by omega : 0 + (c - 1) < c),
        show l.length + (c - 1) = l.length - 1 + c by omega, Nat.add_div_right _ hc,
        Nat.div_eq_of_lt (by omega)]
    · rw [show l.length + (c - 1) = l.length - c + (c - 1) + c by omega, Nat.add_div_right _ hc]

/-- What follows the first `c` elements, of which there may be fewer. -/
theorem drop_length_take (c : ℕ) (l : List α) : l.drop (l.take c).length = l.drop c := by
  rcases Nat.le_total l.length c with h | h
  · rw [take_of_length_le h, drop_length, drop_of_length_le h]
  · rw [length_take, Nat.min_eq_left h]

/-- A nonempty list of at most `c` elements is its own only chunk. -/
theorem chunks_of_length_le {l : List α} (hl : l ≠ []) (hle : l.length ≤ c) :
    chunks c l = [l] := by
  have hpos := length_pos_iff.mpr hl
  rw [chunks_of_ne_nil (by omega) hl, take_of_length_le hle, drop_of_length_le hle, chunks_nil]

/-- Cutting up some lists keeps their elements in order. -/
theorem flatten_flatMap_chunks (hc : 0 < c) (ls : List (List α)) :
    (ls.flatMap (chunks c)).flatten = ls.flatten := by
  induction ls with
  | nil => rfl
  | cons l ls ih => rw [flatMap_cons, flatten_append, ih, flatten_chunks hc, flatten_cons]

/-- Nonempty lists of at most `c` elements are not cut up. -/
theorem flatMap_chunks_of_length_le {ls : List (List α)}
    (hls : ∀ l ∈ ls, l ≠ [] ∧ l.length ≤ c) : ls.flatMap (chunks c) = ls := by
  induction ls with
  | nil => rfl
  | cons l ls ih =>
    obtain ⟨hl, hls⟩ := forall_mem_cons.mp hls
    rw [flatMap_cons, chunks_of_length_le hl.1 hl.2, ih hls, singleton_append]

end List
