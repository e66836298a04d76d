import Mathlib.Data.List.Nodup
import Mathlib.Logic.Function.Basic
import Mathlib.Tactic.SplitIfs

/-!
# Heaps with address reuse

A heap of objects of one type. A pointer is the number of the allocation that made it, but all that
a program can do with a pointer goes through its address: it compares addresses, and it reads and
writes the cell at the address. An address that has been freed may be given to a later allocation,
so two pointers may share an address, and a stale pointer may reach an object that is not its own.
A cell records the pointer that was made for it, which no operation of the program looks at.

`Heap.Holds` says of a set of live pointers that each of them reaches its own object.

## Main definitions

* `Heap.deref`, `Heap.same` — what is at the address of a pointer, and comparison of pointers.
* `Heap.allocate`, `Heap.write`, `Heap.free` — the operations on a heap.
* `Heap.Valid` — a pointer whose object has not been freed.
* `Heap.Holds` — the live pointers reach objects of their own, which are related to them.
* `Heap.Owned` — every object belongs to a live pointer: none has been forgotten.
* `Heap.Every` — every object is related to the pointer that was made for it.
* `Heap.map` — the heap with the images of all objects.
* `Heap.Covers` — a heap that has the objects of another one, and some that the other has freed.

## Main results

* `Heap.Holds.allocate`, `Heap.Holds.write`, `Heap.Holds.free` — what the operations keep.
* `Heap.Holds.find?_same`, `Heap.Holds.eraseP_same` — among live pointers, a search by address finds
  the pointer itself.
* `Heap.Holds.modifyAll` — the loop that changes every object of a list.
* `Heap.Owned.allocate`, `Heap.Owned.write`, `Heap.Owned.free`, `Heap.Owned.modifyAll` — the
  operations forget no object.
* `Heap.Covers.allocate`, `Heap.Covers.write`, `Heap.Covers.free`, `Heap.Covers.modifyAll` — the
  same operation on both heaps.
* `Heap.Covers.free_left`, `Heap.Covers.free_right` — the other heap frees an object earlier.
-/

/-- A heap of objects of the type `α`. The pointer `p` is the allocation number `p`. -/
structure Heap (α : Type*) where
  /-- The address each pointer was given. -/
  addr : ℕ → ℕ
  /-- The object at each address, with the pointer that was made for it. -/
  cells : ℕ → Option (ℕ × α)
  /-- The number of allocations so far. -/
  next : ℕ

namespace Heap

variable {α : Type*}

/-- The heap before the first allocation. -/
def empty : Heap α := ⟨fun _ => 0, fun _ => none, 0⟩

/-- The object at the address of `p`, if there is one. -/
def deref (h : Heap α) (p : ℕ) : Option α := (h.cells (h.addr p)).map Prod.snd

/-- Comparison of two pointers: comparison of their addresses. -/
def same (h : Heap α) (p q : ℕ) : Bool := h.addr q == h.addr p

/-- The object `x` is put at the address `a`; the pointer to it is `h.next`. -/
def allocate (h : Heap α) (a : ℕ) (x : α) : Heap α :=
  ⟨Function.update h.addr h.next a, Function.update h.cells a (some (h.next, x)), h.next + 1⟩

/-- The object at the address of `p` is overwritten. -/
def write (h : Heap α) (p : ℕ) (x : α) : Heap α :=
  { h with cells :=
    Function.update h.cells (h.addr p) ((h.cells (h.addr p)).map fun y => (y.1, x)) }

/-- The cell at the address of `p` is given back. -/
def free (h : Heap α) (p : ℕ) : Heap α :=
  { h with cells := Function.update h.cells (h.addr p) none }

/-- The cells at the addresses of the pointers `ps` are given back. -/
def freeAll (h : Heap α) (ps : List ℕ) : Heap α := ps.foldl free h

/-- The object of `p` is changed; `none` when nothing is there. -/
def modify (f : α → α) (h : Heap α) (p : ℕ) : Option (Heap α) :=
  (h.deref p).map fun x => h.write p (f x)

/-- The objects of the pointers `ps` are changed one after the other. -/
def modifyAll (f : α → α) (h : Heap α) (ps : List ℕ) : Option (Heap α) :=
  ps.foldlM (modify f) h

/-- The cell at the address of `p` still holds the object that was made with `p`. -/
def Valid (h : Heap α) (p : ℕ) : Prop := (h.cells (h.addr p)).map Prod.fst = some p

theorem cells_write {h : Heap α} {p q : ℕ} {y : α} (hcell : h.cells (h.addr p) = some (q, y))
    (x : α) (a : ℕ) :
    (h.write p x).cells a = if a = h.addr p then some (q, x) else h.cells a := by
  simp only [write, hcell, Function.update_apply]
  rfl

theorem cells_free (h : Heap α) (p a : ℕ) :
    (h.free p).cells a = if a = h.addr p then none else h.cells a := Function.update_apply ..

@[simp] theorem next_write (h : Heap α) (p : ℕ) (x : α) : (h.write p x).next = h.next := rfl

@[simp] theorem next_freeAll (h : Heap α) (ps : List ℕ) : (h.freeAll ps).next = h.next := by
  induction ps generalizing h with
  | nil => rfl
  | cons p ps ih => exact ih (h.free p)

theorem deref_free_of_ne {h : Heap α} {p q : ℕ} (hne : h.addr q ≠ h.addr p) :
    (h.free p).deref q = h.deref q := by
  simp [deref, free, Function.update_of_ne hne]

/-- A freed object is not reached any more, and freeing brings nothing back. -/
theorem deref_free_eq_none {h : Heap α} (p : ℕ) {q : ℕ}
    (hq : q = p ∨ h.deref q = none) : (h.free p).deref q = none := by
  by_cases hne : h.addr q = h.addr p
  · simp [deref, free, hne]
  · rw [deref_free_of_ne hne]
    exact hq.resolve_left fun heq => hne (by rw [heq])

theorem next_modify {f : α → α} {h h' : Heap α} {p : ℕ} (hmod : h.modify f p = some h') :
    h'.next = h.next := by
  obtain ⟨x, -, rfl⟩ := Option.map_eq_some_iff.mp hmod
  rfl

theorem next_modifyAll {f : α → α} {ps : List ℕ} {h h' : Heap α}
    (hmod : h.modifyAll f ps = some h') : h'.next = h.next := by
  induction ps generalizing h with
  | nil =>
    obtain rfl : h = h' := Option.some.inj hmod
    rfl
  | cons p ps ih =>
    obtain ⟨h₁, hfirst, hrest⟩ := Option.bind_eq_some_iff.mp hmod
    exact (ih hrest).trans (next_modify hfirst)

/-- The pointers in `live` reach objects of their own, and the object of each of them is related to
it by `R`. -/
structure Holds (h : Heap α) (live : ℕ → Prop) (R : ℕ → α → Prop) : Prop where
  lt_next : ∀ {p}, live p → p < h.next
  cell : ∀ {p}, live p → ∃ x, h.cells (h.addr p) = some (p, x) ∧ R p x

namespace Holds

variable {h : Heap α} {live live' : ℕ → Prop} {R R' : ℕ → α → Prop}

theorem empty : (Heap.empty : Heap α).Holds (fun _ => False) R := ⟨False.elim, False.elim⟩

theorem object (hh : h.Holds live R) {p : ℕ} (hp : live p) : ∃ x, h.deref p = some x ∧ R p x := by
  obtain ⟨x, hx, hRx⟩ := hh.cell hp
  exact ⟨x, by rw [deref, hx]; rfl, hRx⟩

theorem valid (hh : h.Holds live R) {p : ℕ} (hp : live p) : h.Valid p := by
  obtain ⟨x, hx, -⟩ := hh.cell hp
  rw [Valid, hx]
  rfl

/-- Live pointers have addresses of their own. -/
theorem addr_inj (hh : h.Holds live R) {p q : ℕ} (hp : live p) (hq : live q)
    (heq : h.addr p = h.addr q) : p = q := by
  have hvalid := hh.valid hp
  rw [Valid, heq, hh.valid hq] at hvalid
  exact (Option.some.inj hvalid).symm

/-- The set of live pointers may shrink, and what is known of their objects may change. -/
theorem mono (hh : h.Holds live R) (hlive : ∀ p, live' p → live p)
    (hR : ∀ p x, live' p → R p x → R' p x) : h.Holds live' R' where
  lt_next hp := hh.lt_next (hlive _ hp)
  cell {p} hp := by
    obtain ⟨x, hx, hRx⟩ := hh.cell (hlive p hp)
    exact ⟨x, hx, hR p x hp hRx⟩

theorem allocate (hh : h.Holds live R) {a : ℕ} {x : α} (ha : h.cells a = none)
    (hx : R h.next x) : (h.allocate a x).Holds (fun p => live p ∨ p = h.next) R where
  lt_next {p} hp := by
    rcases hp with hp | rfl
    · exact Nat.lt_succ_of_lt (hh.lt_next hp)
    · exact Nat.lt_succ_self _
  cell {p} hp := by
    rcases hp with hp | rfl
    · -- the address `a` is free, so no older live pointer has it
      obtain ⟨y, hy, hRy⟩ := hh.cell hp
      have haddr : h.addr p ≠ a := by
        rintro rfl
        rw [ha] at hy
        cases hy
      refine ⟨y, ?_, hRy⟩
      rw [Heap.allocate]
      simp only [Function.update_of_ne (Nat.ne_of_lt (hh.lt_next hp)), Function.update_of_ne haddr]
      exact hy
    · exact ⟨x, by simp [Heap.allocate], hx⟩

theorem write (hh : h.Holds live R) {p : ℕ} {x : α} (hp : live p) (hx : R' p x)
    (hR : ∀ q y, live q → q ≠ p → R q y → R' q y) : (h.write p x).Holds live R' where
  lt_next hq := hh.lt_next hq
  cell {q} hq := by
    obtain ⟨y, hy, hRy⟩ := hh.cell hq
    by_cases hqp : q = p
    · subst hqp
      exact ⟨x, by simp [Heap.write, hy], hx⟩
    · refine ⟨y, ?_, hR q y hq hqp hRy⟩
      rw [Heap.write]
      simp only [Function.update_of_ne fun heq => hqp (hh.addr_inj hq hp heq)]
      exact hy

theorem free (hh : h.Holds live R) {p : ℕ} (hp : live p) :
    (h.free p).Holds (fun q => live q ∧ q ≠ p) R where
  lt_next hq := hh.lt_next hq.1
  cell {q} hq := by
    obtain ⟨y, hy, hRy⟩ := hh.cell hq.1
    refine ⟨y, ?_, hRy⟩
    rw [Heap.free]
    simp only [Function.update_of_ne fun heq => hq.2 (hh.addr_inj hq.1 hp heq)]
    exact hy

theorem freeAll {ps : List ℕ} (hnodup : ps.Nodup) {h : Heap α} {live : ℕ → Prop}
    (hh : h.Holds live R) (hps : ∀ p ∈ ps, live p) :
    (h.freeAll ps).Holds (fun q => live q ∧ q ∉ ps) R := by
  induction ps generalizing h live with
  | nil => exact hh.mono (fun _ => And.left) fun _ _ _ => id
  | cons p ps ih =>
    obtain ⟨hp, hnodup⟩ := List.nodup_cons.mp hnodup
    refine (ih hnodup (hh.free (hps p List.mem_cons_self)) fun q hq => ?_).mono (fun q hq => ?_)
      fun _ _ _ => id
    · refine ⟨hps q (List.mem_cons_of_mem p hq), ?_⟩
      rintro rfl
      exact hp hq
    · obtain ⟨hq, hne⟩ := hq
      rw [List.mem_cons, not_or] at hne
      exact ⟨⟨hq, hne.1⟩, hne.2⟩

theorem same_iff (hh : h.Holds live R) {p q : ℕ} (hp : live p) (hq : live q) :
    h.same p q = true ↔ q = p := by
  rw [same, beq_iff_eq]
  exact ⟨hh.addr_inj hq hp, fun heq => by rw [heq]⟩

/-- The addresses of distinct live pointers are distinct. -/
theorem nodup_addr (hh : h.Holds live R) {ps : List ℕ} (hps : ∀ p ∈ ps, live p)
    (hnodup : ps.Nodup) : (ps.map h.addr).Nodup :=
  hnodup.map_on fun _ hp _ hq heq => hh.addr_inj (hps _ hp) (hps _ hq) heq

/-- Among live pointers, `std::find_if` by address finds the pointer itself. -/
theorem find?_same (hh : h.Holds live R) {p : ℕ} {ps : List ℕ} (hps : ∀ q ∈ ps, live q)
    (hp : p ∈ ps) : ps.find? (h.same p) = some p := by
  induction ps with
  | nil => cases hp
  | cons q ps ih =>
    have hq := hps q List.mem_cons_self
    by_cases hqp : q = p
    · rw [List.find?_cons_of_pos ((hh.same_iff (hps p hp) hq).mpr hqp), hqp]
    · rw [List.find?_cons_of_neg fun h => hqp ((hh.same_iff (hps p hp) hq).mp h)]
      exact ih (fun r hr => hps r (List.mem_cons_of_mem q hr))
        ((List.mem_cons.mp hp).resolve_left fun h => hqp h.symm)

/-- Among live pointers, erasing by address erases the pointer itself. -/
theorem eraseP_same (hh : h.Holds live R) {p : ℕ} {ps : List ℕ} (hp : live p)
    (hps : ∀ q ∈ ps, live q) : ps.eraseP (h.same p) = ps.erase p := by
  induction ps with
  | nil => rfl
  | cons q ps ih =>
    have hq := hps q List.mem_cons_self
    by_cases hqp : q = p
    · rw [List.eraseP_cons_of_pos ((hh.same_iff hp hq).mpr hqp), hqp, List.erase_cons_head]
    · rw [List.eraseP_cons_of_neg fun h => hqp ((hh.same_iff hp hq).mp h),
        List.erase_cons_tail (by simpa using hqp),
        ih fun r hr => hps r (List.mem_cons_of_mem q hr)]

theorem modify (hh : h.Holds live R) (f : α → α) {p : ℕ} (hp : live p) :
    ∃ h', h.modify f p = some h' ∧
      h'.Holds live fun q y => ∃ x, R q x ∧ y = if q = p then f x else x := by
  obtain ⟨x, hx, hRx⟩ := hh.object hp
  refine ⟨h.write p (f x), by rw [Heap.modify, hx, Option.map_some], ?_⟩
  refine hh.write hp ⟨x, hRx, by rw [if_pos rfl]⟩ fun q y _ hqp hRy => ?_
  exact ⟨y, hRy, by rw [if_neg hqp]⟩

/-- The loop over the distinct live pointers `ps` changes the object of each of them, and no
other. -/
theorem modifyAll (f : α → α) {ps : List ℕ} (hnodup : ps.Nodup) {h : Heap α}
    {R : ℕ → α → Prop} (hh : h.Holds live R) (hps : ∀ p ∈ ps, live p) :
    ∃ h', h.modifyAll f ps = some h' ∧
      h'.Holds live fun q y => ∃ x, R q x ∧ y = if q ∈ ps then f x else x := by
  induction ps generalizing h R with
  | nil => exact ⟨h, rfl, hh.mono (fun _ => id) fun q x _ hRx => ⟨x, hRx, by simp⟩⟩
  | cons p ps ih =>
    obtain ⟨hpnot, hnodup⟩ := List.nodup_cons.mp hnodup
    obtain ⟨h₁, hmod, hh₁⟩ := hh.modify f (hps p List.mem_cons_self)
    obtain ⟨h₂, hrest, hh₂⟩ := ih hnodup hh₁ fun q hq => hps q (List.mem_cons_of_mem p hq)
    refine ⟨h₂, by rw [Heap.modifyAll, List.foldlM_cons, hmod]; exact hrest, ?_⟩
    refine hh₂.mono (fun _ => id) ?_
    rintro q z - ⟨y, ⟨x, hRx, rfl⟩, rfl⟩
    refine ⟨x, hRx, ?_⟩
    -- `p` does not occur again, so its object is changed once
    by_cases hqp : q = p
    · subst hqp
      simp [hpnot]
    · simp [hqp]

end Holds

/-! ### No object is forgotten -/

/-- Every object of the heap belongs to a pointer in `live`, at the address of that pointer. -/
structure Owned (h : Heap α) (live : ℕ → Prop) : Prop where
  live : ∀ {a p x}, h.cells a = some (p, x) → live p
  lt_next : ∀ {a p x}, h.cells a = some (p, x) → p < h.next
  addr_eq : ∀ {a p x}, h.cells a = some (p, x) → h.addr p = a

namespace Owned

variable {h : Heap α} {live live' : ℕ → Prop} {R : ℕ → α → Prop}

theorem empty : (Heap.empty : Heap α).Owned live where
  live hx := by cases hx
  lt_next hx := by cases hx
  addr_eq hx := by cases hx

theorem mono (ho : h.Owned live) (hlive : ∀ p, live p → live' p) : h.Owned live' :=
  ⟨fun hx => hlive _ (ho.live hx), ho.lt_next, ho.addr_eq⟩

theorem allocate (ho : h.Owned live) (a : ℕ) (x : α) :
    (h.allocate a x).Owned fun p => live p ∨ p = h.next := by
  have hcell {b p y} (hy : (h.allocate a x).cells b = some (p, y)) :
      b = a ∧ p = h.next ∨ h.cells b = some (p, y) := by
    by_cases hb : b = a
    · subst hb
      simp only [Heap.allocate, Function.update_self, Option.some.injEq, Prod.mk.injEq] at hy
      exact .inl ⟨rfl, hy.1.symm⟩
    · exact .inr (by simpa only [Heap.allocate, Function.update_of_ne hb] using hy)
  refine ⟨fun hy => ?_, fun hy => ?_, fun hy => ?_⟩
  · exact (hcell hy).symm.imp ho.live And.right
  · rcases hcell hy with ⟨-, rfl⟩ | hy
    · exact Nat.lt_succ_self _
    · exact Nat.lt_succ_of_lt (ho.lt_next hy)
  · rcases hcell hy with ⟨rfl, rfl⟩ | hy
    · exact Function.update_self ..
    · refine (Function.update_of_ne (Nat.ne_of_lt (ho.lt_next hy)) ..).trans (ho.addr_eq hy)

/-- Writing puts no object where none was. -/
theorem write (ho : h.Owned live) (p : ℕ) (x : α) : (h.write p x).Owned live := by
  have hcell {b q y} (hy : (h.write p x).cells b = some (q, y)) :
      ∃ y', h.cells b = some (q, y') := by
    by_cases hb : b = h.addr p
    · subst hb
      simp only [Heap.write, Function.update_self, Option.map_eq_some_iff, Prod.mk.injEq] at hy
      obtain ⟨⟨q', y'⟩, hy', rfl, -⟩ := hy
      exact ⟨y', hy'⟩
    · exact ⟨y, by simpa only [Heap.write, Function.update_of_ne hb] using hy⟩
  refine ⟨fun hy => ?_, fun hy => ?_, fun hy => ?_⟩ <;> obtain ⟨y', hy'⟩ := hcell hy
  · exact ho.live hy'
  · exact ho.lt_next hy'
  · exact ho.addr_eq hy'

theorem free (ho : h.Owned live) (p : ℕ) : (h.free p).Owned fun q => live q ∧ q ≠ p := by
  have hcell {b q y} (hy : (h.free p).cells b = some (q, y)) :
      b ≠ h.addr p ∧ h.cells b = some (q, y) := by
    rwa [cells_free, Option.ite_none_left_eq_some] at hy
  refine ⟨fun hy => ?_, fun hy => ?_, fun hy => ?_⟩ <;> obtain ⟨hb, hy'⟩ := hcell hy
  · refine ⟨ho.live hy', ?_⟩
    rintro rfl
    exact hb (ho.addr_eq hy').symm
  · exact ho.lt_next hy'
  · exact ho.addr_eq hy'

theorem freeAll {h : Heap α} {live : ℕ → Prop} (ho : h.Owned live) (ps : List ℕ) :
    (h.freeAll ps).Owned fun q => live q ∧ q ∉ ps := by
  induction ps generalizing h live with
  | nil => exact ho.mono fun q hq => ⟨hq, List.not_mem_nil⟩
  | cons p ps ih =>
    refine (ih (ho.free p)).mono fun q hq => ⟨hq.1.1, fun hmem => ?_⟩
    exact (List.mem_cons.mp hmem).elim hq.1.2 hq.2

theorem modifyAll (f : α → α) {ps : List ℕ} {h h' : Heap α} (ho : h.Owned live)
    (hmod : h.modifyAll f ps = some h') : h'.Owned live := by
  induction ps generalizing h with
  | nil =>
    obtain rfl : h = h' := Option.some.inj hmod
    exact ho
  | cons p ps ih =>
    obtain ⟨h₁, hfirst, hrest⟩ := Option.bind_eq_some_iff.mp hmod
    obtain ⟨x, -, rfl⟩ := Option.map_eq_some_iff.mp hfirst
    exact ih (ho.write p (f x)) hrest

/-- A heap in which no pointer is live is empty. -/
theorem cells_eq_none (ho : h.Owned live) (hlive : ∀ p, ¬ live p) (a : ℕ) : h.cells a = none := by
  rw [Option.eq_none_iff_forall_ne_some]
  rintro ⟨p, x⟩ hx
  exact hlive p (ho.live hx)

/-- The objects of the heap are exactly those of the live pointers. -/
theorem exists_cell_iff (ho : h.Owned live) (hh : h.Holds live R) (p : ℕ) :
    (∃ a x, h.cells a = some (p, x)) ↔ live p := by
  constructor
  · rintro ⟨a, x, hx⟩
    exact ho.live hx
  · intro hp
    obtain ⟨x, hx, -⟩ := hh.cell hp
    exact ⟨_, x, hx⟩

end Owned

/-! ### A property of every object -/

/-- Every object of the heap is related by `R` to the pointer that was made for it. -/
def Every (h : Heap α) (R : ℕ → α → Prop) : Prop := ∀ a p x, h.cells a = some (p, x) → R p x

namespace Every

variable {h : Heap α} {R R' : ℕ → α → Prop} {live : ℕ → Prop} {P : ℕ → α → Prop}

theorem empty : (Heap.empty : Heap α).Every R := by
  intro a p x hx
  cases hx

theorem mono (he : h.Every R) (hR : ∀ p x, R p x → R' p x) : h.Every R' :=
  fun a p x hx => hR p x (he a p x hx)

theorem allocate (he : h.Every R) (a : ℕ) {x : α} (hx : R h.next x) :
    (h.allocate a x).Every R := by
  intro b p y hy
  by_cases hb : b = a
  · subst hb
    simp only [Heap.allocate, Function.update_self, Option.some.injEq, Prod.mk.injEq] at hy
    obtain ⟨rfl, rfl⟩ := hy
    exact hx
  · exact he b p y (by simpa only [Heap.allocate, Function.update_of_ne hb] using hy)

/-- The object of a live pointer is overwritten. -/
theorem write (he : h.Every R) (ho : h.Owned live) (hh : h.Holds live P) {p : ℕ} (hp : live p)
    {x y : α} (hy : h.deref p = some y) (hx : R p y → R' p x)
    (hR : ∀ q z, q ≠ p → R q z → R' q z) : (h.write p x).Every R' := by
  obtain ⟨y', hcell, -⟩ := hh.cell hp
  obtain rfl : y' = y := by simpa [deref, hcell] using hy
  intro b q z hz
  rw [cells_write hcell] at hz
  split_ifs at hz with hb
  · cases hz
    exact hx (he _ p y' hcell)
  · refine hR q z ?_ (he b q z hz)
    rintro rfl
    exact hb (ho.addr_eq hz).symm

theorem free (he : h.Every R) (p : ℕ) : (h.free p).Every R := by
  intro b q x hx
  rw [cells_free, Option.ite_none_left_eq_some] at hx
  exact he b q x hx.2

theorem modifyAll {f : α → α} (hf : ∀ p x, R p x → R p (f x)) {ps : List ℕ} {h h' : Heap α}
    (he : h.Every R) (hmod : h.modifyAll f ps = some h') : h'.Every R := by
  induction ps generalizing h with
  | nil =>
    obtain rfl : h = h' := Option.some.inj hmod
    exact he
  | cons p ps ih =>
    obtain ⟨h₁, hfirst, hrest⟩ := Option.bind_eq_some_iff.mp hmod
    obtain ⟨x, hx, rfl⟩ := Option.map_eq_some_iff.mp hfirst
    obtain ⟨⟨q, x'⟩, hcell, rfl⟩ := Option.map_eq_some_iff.mp hx
    refine ih (fun b r z hz => ?_) hrest
    rw [cells_write hcell] at hz
    split_ifs at hz
    · cases hz
      exact hf _ _ (he _ _ _ hcell)
    · exact he b r z hz

end Every

/-! ### Changing all objects -/

section Map

variable {β : Type*} (f : α → β)

/-- The heap whose objects are the images of the objects of `h`. -/
def map (h : Heap α) : Heap β :=
  ⟨h.addr, fun a => (h.cells a).map (Prod.map id f), h.next⟩

@[simp] theorem next_map (h : Heap α) : (h.map f).next = h.next := rfl

theorem isNone_cells_map (h : Heap α) (a : ℕ) :
    ((h.map f).cells a).isNone = (h.cells a).isNone := Option.isNone_map

theorem deref_map (h : Heap α) (p : ℕ) : (h.map f).deref p = (h.deref p).map f := by
  simp only [deref, map, Option.map_map]
  rfl

theorem map_allocate (h : Heap α) (a : ℕ) (x : α) :
    (h.map f).allocate a (f x) = (h.allocate a x).map f := by
  simp only [allocate, map, Heap.mk.injEq, true_and, and_true]
  funext b
  rw [Function.update_apply, Function.update_apply]
  split_ifs <;> rfl

theorem map_write (h : Heap α) (p : ℕ) (x : α) :
    (h.map f).write p (f x) = (h.write p x).map f := by
  simp only [write, map, Heap.mk.injEq, true_and, and_true]
  funext b
  rw [Function.update_apply, Function.update_apply]
  split_ifs
  · rw [Option.map_map, Option.map_map]
    rfl
  · rfl

theorem map_free (h : Heap α) (p : ℕ) : (h.map f).free p = (h.free p).map f := by
  simp only [free, map, Heap.mk.injEq, true_and, and_true]
  funext b
  rw [Function.update_apply, Function.update_apply]
  split_ifs <;> rfl

/-- The loop over the pointers `ps`, when the change of the objects commutes with `f`. -/
theorem map_modifyAll {g : α → α} {g' : β → β} (hg : ∀ x, g' (f x) = f (g x)) (h : Heap α)
    (ps : List ℕ) : (h.map f).modifyAll g' ps = (h.modifyAll g ps).map (map f) := by
  induction ps generalizing h with
  | nil => rfl
  | cons p ps ih =>
    rw [modifyAll, modifyAll, List.foldlM_cons, List.foldlM_cons, modify, modify, deref_map]
    cases hx : h.deref p with
    | none => rfl
    | some x =>
      have hrest := ih (h.write p (g x))
      rw [← map_write, ← hg x] at hrest
      exact hrest

end Map

/-! ### Two heaps -/

/-- The heap `h` has every object of `h'`, related to it by `R`. It also has the objects of `dead`,
which `h'` has freed already. -/
structure Covers (R : ℕ → α → α → Prop) (dead : List ℕ) (h h' : Heap α) : Prop where
  addr_eq : h.addr = h'.addr
  next_eq : h.next = h'.next
  owned : ∀ {a p y}, h'.cells a = some (p, y) → p < h'.next ∧ h'.addr p = a
  cell : ∀ {a p y}, h'.cells a = some (p, y) → ∃ x, h.cells a = some (p, x) ∧ R p x y
  dead_nodup : dead.Nodup
  dead_lt : ∀ p ∈ dead, p < h.next
  dead_cell : ∀ p ∈ dead, ∃ x, h.cells (h.addr p) = some (p, x)
  dead_free : ∀ p ∈ dead, h'.cells (h'.addr p) = none

namespace Covers

variable {h h' : Heap α} {R R' : ℕ → α → α → Prop} {dead : List ℕ} {live : ℕ → Prop}
  {P : ℕ → α → Prop}

theorem empty : (Heap.empty : Heap α).Covers R [] .empty where
  addr_eq := rfl
  next_eq := rfl
  owned hy := by cases hy
  cell hy := by cases hy
  dead_nodup := List.nodup_nil
  dead_lt _ hp := by cases hp
  dead_cell _ hp := by cases hp
  dead_free _ hp := by cases hp

theorem cells_eq_none (hc : h.Covers R dead h') {a : ℕ} (ha : h.cells a = none) :
    h'.cells a = none := by
  rw [Option.eq_none_iff_forall_ne_some]
  rintro ⟨p, y⟩ hy
  obtain ⟨x, hx, -⟩ := hc.cell hy
  rw [ha] at hx
  cases hx

theorem same_eq (hc : h.Covers R dead h') (p : ℕ) : h.same p = h'.same p := by
  funext q
  rw [same, same, hc.addr_eq]

/-- A pointer that is live in `h'` reaches related objects in both heaps. -/
theorem object (hc : h.Covers R dead h') (hh : h'.Holds live P) {p : ℕ} (hp : live p) :
    ∃ x y, h.deref p = some x ∧ h'.deref p = some y ∧ R p x y ∧ P p y := by
  obtain ⟨y, hy, hPy⟩ := hh.cell hp
  obtain ⟨x, hx, hRx⟩ := hc.cell hy
  refine ⟨x, y, ?_, ?_, hRx, hPy⟩
  · rw [deref, hc.addr_eq, hx]
    rfl
  · rw [deref, hy]
    rfl

/-- The pointers that are live in `h'` are live in `h`. -/
theorem holds (hc : h.Covers R dead h') (hh : h'.Holds live P) :
    h.Holds live fun p x => ∃ y, R p x y ∧ P p y where
  lt_next hp := hc.next_eq ▸ hh.lt_next hp
  cell hp := by
    obtain ⟨y, hy, hPy⟩ := hh.cell hp
    obtain ⟨x, hx, hRx⟩ := hc.cell hy
    exact ⟨x, hc.addr_eq ▸ hx, y, hRx, hPy⟩

/-- The relation may change; what is known of the objects of `h'` may be used for it. -/
theorem mono (hc : h.Covers R dead h') (hh : h'.Holds live P)
    (hR : ∀ p x y, (live p → P p y) → R p x y → R' p x y) : h.Covers R' dead h' :=
  { hc with
    cell := by
      intro a p y hy
      obtain ⟨x, hx, hRx⟩ := hc.cell hy
      refine ⟨x, hx, hR p x y (fun hp => ?_) hRx⟩
      obtain ⟨y', hy', hPy'⟩ := hh.cell hp
      rw [(hc.owned hy).2, hy] at hy'
      cases hy'
      exact hPy' }

/-- The address of a live pointer is not the address of an object that `h'` has freed. -/
theorem addr_ne (hc : h.Covers R dead h') (hh : h'.Holds live P) {p q : ℕ} (hp : live p)
    (hq : q ∈ dead) : h.addr q ≠ h.addr p := by
  intro heq
  obtain ⟨y, hy, -⟩ := hh.cell hp
  rw [← hc.addr_eq, ← heq, hc.addr_eq, hc.dead_free q hq] at hy
  cases hy

theorem allocate (hc : h.Covers R dead h') {a : ℕ} {x y : α} (ha : h.cells a = none)
    (hR : R h.next x y) : (h.allocate a x).Covers R dead (h'.allocate a y) := by
  have haddr : ∀ p ∈ dead, (h.allocate a x).addr p = h.addr p ∧ h.addr p ≠ a := by
    intro p hp
    refine ⟨Function.update_of_ne (Nat.ne_of_lt (hc.dead_lt p hp)) .., ?_⟩
    rintro rfl
    obtain ⟨z, hz⟩ := hc.dead_cell p hp
    rw [ha] at hz
    cases hz
  have haddr_eq : (h.allocate a x).addr = (h'.allocate a y).addr := by
    simp only [Heap.allocate, hc.addr_eq, hc.next_eq]
  refine ⟨haddr_eq, congrArg (· + 1) hc.next_eq, fun {b p z} hz => ?_, fun {b p z} hz => ?_,
    hc.dead_nodup, fun p hp => Nat.lt_succ_of_lt (hc.dead_lt p hp), fun p hp => ?_, fun p hp => ?_⟩
  · by_cases hb : b = a
    · subst hb
      simp only [Heap.allocate, Function.update_self, Option.some.injEq, Prod.mk.injEq] at hz ⊢
      obtain ⟨rfl, rfl⟩ := hz
      exact ⟨Nat.lt_succ_self _, Function.update_self ..⟩
    · simp only [Heap.allocate, Function.update_of_ne hb] at hz ⊢
      obtain ⟨hlt, rfl⟩ := hc.owned hz
      exact ⟨Nat.lt_succ_of_lt hlt, Function.update_of_ne (Nat.ne_of_lt hlt) ..⟩
  · by_cases hb : b = a
    · subst hb
      simp only [Heap.allocate, Function.update_self, Option.some.injEq, Prod.mk.injEq] at hz ⊢
      obtain ⟨rfl, rfl⟩ := hz
      exact ⟨x, ⟨hc.next_eq, rfl⟩, hc.next_eq ▸ hR⟩
    · simp only [Heap.allocate, Function.update_of_ne hb] at hz ⊢
      exact hc.cell hz
  · rw [(haddr p hp).1, Heap.allocate]
    simp only [Function.update_of_ne (haddr p hp).2]
    exact hc.dead_cell p hp
  · rw [← haddr_eq, (haddr p hp).1, Heap.allocate]
    simp only [Function.update_of_ne (haddr p hp).2]
    rw [hc.addr_eq]
    exact hc.dead_free p hp

/-- The object of a live pointer is overwritten in `h'` only. -/
theorem write_right (hc : h.Covers R dead h') (hh : h'.Holds live P) {p : ℕ} (hp : live p)
    {y₀ y : α} (hy₀ : h'.deref p = some y₀) (hR : ∀ x, R p x y₀ → R' p x y)
    (hR' : ∀ q x z, q ≠ p → R q x z → R' q x z) : h.Covers R' dead (h'.write p y) := by
  obtain ⟨y₁, hcell, -⟩ := hh.cell hp
  obtain rfl : y₁ = y₀ := by simpa [deref, hcell] using hy₀
  refine ⟨hc.addr_eq, hc.next_eq, fun {a q z} hz => ?_, fun {a q z} hz => ?_, hc.dead_nodup,
    hc.dead_lt, hc.dead_cell, fun q hq => ?_⟩
  · rw [cells_write hcell] at hz
    split_ifs at hz with ha
    · cases hz
      exact ⟨hh.lt_next hp, ha.symm⟩
    · exact hc.owned hz
  · rw [cells_write hcell] at hz
    split_ifs at hz with ha
    · cases hz
      obtain ⟨x, hx, hRx⟩ := hc.cell hcell
      exact ⟨x, ha ▸ hx, hR x hRx⟩
    · obtain ⟨x, hx, hRx⟩ := hc.cell hz
      refine ⟨x, hx, hR' q x z ?_ hRx⟩
      rintro rfl
      exact ha (hc.owned hz).2.symm
  · rw [cells_write hcell, if_neg (hc.addr_eq ▸ hc.addr_ne hh hp hq)]
    exact hc.dead_free q hq

/-- An object of `h` is overwritten by one that is related to the same objects. -/
theorem write_left (hc : h.Covers R dead h') {p : ℕ} {x x₀ : α} (hx₀ : h.deref p = some x₀)
    (hR : ∀ q y, R q x₀ y → R q x y) : (h.write p x).Covers R dead h' := by
  obtain ⟨⟨q₀, _⟩, hcell, rfl⟩ := Option.map_eq_some_iff.mp hx₀
  refine ⟨hc.addr_eq, hc.next_eq, hc.owned, fun {a q z} hz => ?_, hc.dead_nodup, hc.dead_lt,
    fun q hq => ?_, hc.dead_free⟩
  · obtain ⟨w, hw, hRw⟩ := hc.cell hz
    rw [cells_write hcell]
    split_ifs with ha
    · rw [ha, hcell] at hw
      cases hw
      exact ⟨x, rfl, hR _ z hRw⟩
    · exact ⟨w, hw, hRw⟩
  · obtain ⟨w, hw⟩ := hc.dead_cell q hq
    change ∃ w, (h.write p x).cells (h.addr q) = some (q, w)
    rw [cells_write hcell]
    split_ifs with ha
    · rw [ha, hcell] at hw
      cases hw
      exact ⟨x, rfl⟩
    · exact ⟨w, hw⟩

/-- The object of a live pointer is overwritten in both heaps. -/
theorem write (hc : h.Covers R dead h') (hh : h'.Holds live P) {p : ℕ} (hp : live p) {x y : α}
    (hR : R p x y) : (h.write p x).Covers R dead (h'.write p y) := by
  obtain ⟨y₀, hcell', -⟩ := hh.cell hp
  obtain ⟨x₀, hcell, -⟩ := hc.cell hcell'
  rw [← hc.addr_eq] at hcell
  refine ⟨hc.addr_eq, hc.next_eq, fun {a q z} hz => ?_, fun {a q z} hz => ?_, hc.dead_nodup,
    hc.dead_lt, fun q hq => ?_, fun q hq => ?_⟩
  · rw [cells_write hcell'] at hz
    split_ifs at hz with ha
    · cases hz
      exact ⟨hh.lt_next hp, ha.symm⟩
    · exact hc.owned hz
  · rw [cells_write hcell'] at hz
    rw [cells_write hcell, hc.addr_eq]
    split_ifs at hz ⊢ with ha
    · cases hz
      exact ⟨x, rfl, hR⟩
    · exact hc.cell hz
  · change ∃ w, (h.write p x).cells (h.addr q) = some (q, w)
    rw [cells_write hcell, if_neg (hc.addr_ne hh hp hq)]
    exact hc.dead_cell q hq
  · rw [cells_write hcell', if_neg (hc.addr_eq ▸ hc.addr_ne hh hp hq)]
    exact hc.dead_free q hq

/-- The object of a live pointer is freed in both heaps. -/
theorem free (hc : h.Covers R dead h') (hh : h'.Holds live P) {p : ℕ} (hp : live p) :
    (h.free p).Covers R dead (h'.free p) := by
  refine ⟨hc.addr_eq, hc.next_eq, fun {a q z} hz => ?_, fun {a q z} hz => ?_, hc.dead_nodup,
    hc.dead_lt, fun q hq => ?_, fun q hq => ?_⟩
  · rw [cells_free] at hz
    split_ifs at hz
    exact hc.owned hz
  · rw [cells_free] at hz
    rw [cells_free, hc.addr_eq]
    split_ifs at hz ⊢
    exact hc.cell hz
  · change ∃ w, (h.free p).cells (h.addr q) = some (q, w)
    rw [cells_free, if_neg (hc.addr_ne hh hp hq)]
    exact hc.dead_cell q hq
  · rw [cells_free, if_neg (hc.addr_eq ▸ hc.addr_ne hh hp hq)]
    exact hc.dead_free q hq

/-- The object of a live pointer is freed in `h'`, before it is freed in `h`. -/
theorem free_right (hc : h.Covers R dead h') (hh : h'.Holds live P) {p : ℕ} (hp : live p) :
    h.Covers R (p :: dead) (h'.free p) := by
  obtain ⟨y, hcell', -⟩ := hh.cell hp
  obtain ⟨x, hcell, -⟩ := hc.cell hcell'
  refine ⟨hc.addr_eq, hc.next_eq, fun {a q z} hz => ?_, fun {a q z} hz => ?_, ?_, ?_, ?_, ?_⟩
  · rw [cells_free] at hz
    split_ifs at hz
    exact hc.owned hz
  · rw [cells_free] at hz
    split_ifs at hz
    exact hc.cell hz
  · refine List.nodup_cons.mpr ⟨fun hmem => hc.addr_ne hh hp hmem rfl, hc.dead_nodup⟩
  · refine List.forall_mem_cons.mpr ⟨?_, hc.dead_lt⟩
    rw [hc.next_eq]
    exact hh.lt_next hp
  · refine List.forall_mem_cons.mpr ⟨⟨x, ?_⟩, hc.dead_cell⟩
    rw [hc.addr_eq]
    exact hcell
  · refine List.forall_mem_cons.mpr ⟨?_, fun q hq => ?_⟩
    · rw [cells_free]
      exact if_pos rfl
    · rw [cells_free, if_neg (hc.addr_eq ▸ hc.addr_ne hh hp hq)]
      exact hc.dead_free q hq

/-- An object that `h'` has freed already is freed in `h`. -/
theorem free_left {p : ℕ} (hc : h.Covers R (p :: dead) h') : (h.free p).Covers R dead h' := by
  obtain ⟨hp, hnodup⟩ := List.nodup_cons.mp hc.dead_nodup
  obtain ⟨x, hcell⟩ := hc.dead_cell p List.mem_cons_self
  have hmem {q : ℕ} (hq : q ∈ dead) : q ∈ p :: dead := List.mem_cons_of_mem p hq
  refine ⟨hc.addr_eq, hc.next_eq, hc.owned, fun {a q z} hz => ?_, hnodup,
    fun q hq => hc.dead_lt q (hmem hq), fun q hq => ?_, fun q hq => hc.dead_free q (hmem hq)⟩
  · rw [cells_free, if_neg]
    · exact hc.cell hz
    · rintro rfl
      rw [hc.addr_eq, hc.dead_free p List.mem_cons_self] at hz
      cases hz
  · obtain ⟨y, hy⟩ := hc.dead_cell q (hmem hq)
    refine ⟨y, ?_⟩
    change (h.free p).cells (h.addr q) = _
    rw [cells_free, if_neg]
    · exact hy
    · -- the two objects are in different cells
      intro heq
      rw [heq, hcell] at hy
      cases hy
      exact hp hq

/-- The loop over the live pointers `ps` changes related objects to related objects. -/
theorem modifyAll (f : α → α) {ps : List ℕ} {h h' : Heap α} (hc : h.Covers R dead h')
    (hh : h'.Holds live P) (hps : ∀ p ∈ ps, live p) (hP : ∀ p y, P p y → P p (f y))
    (hR : ∀ p x y, P p y → R p x y → R p (f x) (f y)) :
    ∃ h₁ h₁', h.modifyAll f ps = some h₁ ∧ h'.modifyAll f ps = some h₁' ∧
      h₁.Covers R dead h₁' := by
  induction ps generalizing h h' with
  | nil => exact ⟨h, h', rfl, rfl, hc⟩
  | cons p ps ih =>
    obtain ⟨hp, hps⟩ := List.forall_mem_cons.mp hps
    obtain ⟨x, y, hx, hy, hRx, hPy⟩ := hc.object hh hp
    have hwrite : (h'.write p (f y)).Holds live P :=
      hh.write hp (hP p y hPy) fun _ _ _ _ => id
    obtain ⟨h₁, h₁', hrest, hrest', hc₁⟩ := ih (hc.write hh hp (hR p x y hPy hRx)) hwrite hps
    refine ⟨h₁, h₁', ?_, ?_, hc₁⟩
    · rw [Heap.modifyAll, List.foldlM_cons, Heap.modify, hx]
      exact hrest
    · rw [Heap.modifyAll, List.foldlM_cons, Heap.modify, hy]
      exact hrest'

end Covers

end Heap
