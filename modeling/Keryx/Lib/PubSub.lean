import Keryx.Lib.Machine
import Mathlib.Data.List.Nodup

/-!
# Publish–subscribe registries

Sources and sinks come and go, and a relation `sub` says which sink listens to which source. A sink
hears that a source has started when the two first meet, then every value of the source, then that
the source has stopped. This file says what that means for a log of actions: the machine
`PubSub.machine` puts out the messages, and the main results describe the messages to one sink in
terms of the log alone.

A registry is a `Roster`: its members in the order they came, and everyone who has ever been in it.
Nobody is added twice, and only members are used or removed.

## Main definitions

* `Roster.machine` — one registry.
* `PubSub.machine` — two registries and the messages between their members.
* `PubSub.signals` — what a log says about one source.

## Main results

* `Roster.mem_members_after` — who is a member after a log.
* `PubSub.between_after_addSink` — the messages from one source to one sink.
* `PubSub.toSink_sublist` — every sink hears values and stops in the order of the log.
-/

/-! ### Rosters -/

/-- The members of a registry, and everyone who has ever been in it. -/
structure Roster (α : Type*) where
  members : List α
  past : List α

namespace Roster

variable {α : Type*} [DecidableEq α]

/-- What an action means to a registry. -/
inductive Op (α : Type*) where
  | add (x : α)
  | remove (x : α)
  | use (x : α)
  | skip

/-- The registry nobody has been in. -/
def empty : Roster α := ⟨[], []⟩

/-- One registry: nobody is added twice, and only members are used or removed. -/
def machine : Machine (Roster α) (Op α) Empty where
  next r
    | .add x => ⟨r.members ++ [x], r.past ++ [x]⟩
    | .remove x => ⟨r.members.erase x, r.past⟩
    | .use _ => r
    | .skip => r
  out _ _ := []
  ok r
    | .add x => x ∉ r.past
    | .remove x => x ∈ r.members
    | .use x => x ∈ r.members
    | .skip => True

/-- The members are distinct and recorded. -/
structure WellFormed (r : Roster α) : Prop where
  nodup : r.members.Nodup
  subset : r.members ⊆ r.past

variable {r : Roster α} {x : α} {L : List (Op α)}

theorem WellFormed.next {a : Op α} (h : r.WellFormed) (hok : machine.ok r a) :
    (machine.next r a).WellFormed := by
  cases a with
  | add x =>
    refine ⟨List.nodup_append.mpr ⟨h.nodup, List.nodup_singleton x, ?_⟩,
      List.append_subset.mpr ⟨List.subset_append_of_subset_left _ h.subset,
        List.subset_append_right _ _⟩⟩
    rintro y hy z hz rfl
    rw [List.mem_singleton.mp hz] at hy
    exact hok (h.subset hy)
  | remove x => exact ⟨h.nodup.erase x, fun y hy => h.subset (List.mem_of_mem_erase hy)⟩
  | use x => exact h
  | skip => exact h

omit [DecidableEq α] in
theorem WellFormed.empty : (empty : Roster α).WellFormed := ⟨List.nodup_nil, List.nil_subset _⟩

/-- The record of a registry after a log. -/
theorem mem_past_after : x ∈ (machine.after r L).past ↔ x ∈ r.past ∨ .add x ∈ L := by
  induction L generalizing r with
  | nil => simp
  | cons a L ih =>
    rw [Machine.after_cons, ih]
    cases a <;> simp [machine, or_assoc]

/-- Nobody who is on record is added again. -/
theorem add_notMem (hL : machine.Admits r L) (hx : x ∈ r.past) : .add x ∉ L := by
  induction L generalizing r with
  | nil => exact List.not_mem_nil
  | cons a L ih =>
    intro hadd
    rcases List.mem_cons.mp hadd with rfl | hadd
    · exact hL.1 hx
    · refine ih hL.2 ?_ hadd
      cases a <;> simp [machine, hx]

/-- The members after a log are those who were there or were added, and were not removed. -/
theorem mem_members_after (h : r.WellFormed) (hL : machine.Admits r L) :
    x ∈ (machine.after r L).members ↔ (x ∈ r.members ∨ .add x ∈ L) ∧ .remove x ∉ L := by
  induction L generalizing r with
  | nil => simp
  | cons a L ih =>
    rw [Machine.after_cons, ih (h.next hL.1) hL.2]
    cases a with
    | add y => simp [machine, or_assoc]
    | remove y =>
      by_cases hxy : x = y
      · -- a removed member stays on record, so it is not added again
        subst hxy
        have hadd : .add x ∉ L := add_notMem hL.2 (h.subset hL.1)
        simp [machine, hadd, h.nodup.not_mem_erase]
      · simp [machine, hxy, List.mem_erase_of_ne]
    | use y => simp [machine]
    | skip => simp [machine]

/-- Only a member is removed or used. -/
theorem notMem_of_notMem_members (hL : machine.Admits r L) (hx : x ∉ r.members)
    (hadd : .add x ∉ L) : .remove x ∉ L ∧ .use x ∉ L := by
  induction L generalizing r with
  | nil => exact ⟨List.not_mem_nil, List.not_mem_nil⟩
  | cons a L ih =>
    rw [List.mem_cons, not_or] at hadd
    have hx' : x ∉ (machine.next r a).members := by
      cases a with
      | add y => simpa [machine, hx] using hadd.1
      | remove y => exact fun h => hx (List.mem_of_mem_erase h)
      | use y => exact hx
      | skip => exact hx
    obtain ⟨hremove, huse⟩ := ih hL.2 hx' hadd.2
    constructor
    · rintro (_ | ⟨_, h⟩)
      · exact hx hL.1
      · exact hremove h
    · rintro (_ | ⟨_, h⟩)
      · exact hx hL.1
      · exact huse h

end Roster

/-! ### Sources and sinks -/

namespace PubSub

/-- The actions of a log. -/
inductive Act (P C E : Type*) where
  | addSource (p : P)
  | removeSource (p : P)
  | emit (p : P) (e : E)
  | addSink (c : C)
  | removeSink (c : C)
  deriving DecidableEq

/-- What a sink hears of a source. -/
inductive Signal (E : Type*) where
  | started
  | value (e : E)
  | stopped
  deriving DecidableEq

/-- A signal on its way from a source to a sink; `origin` is the number of the action that caused
it. -/
structure Message (P C E : Type*) where
  origin : ℕ
  source : P
  sink : C
  signal : Signal E

/-- The two registries, and the number of actions consumed so far. -/
structure State (P C : Type*) where
  time : ℕ
  sources : Roster P
  sinks : Roster C

variable {P C E : Type*}

/-- What an action means to the registry of the sources. -/
def Act.onSources : Act P C E → Roster.Op P
  | .addSource p => .add p
  | .removeSource p => .remove p
  | .emit p _ => .use p
  | .addSink _ | .removeSink _ => .skip

/-- What an action means to the registry of the sinks. -/
def Act.onSinks : Act P C E → Roster.Op C
  | .addSink c => .add c
  | .removeSink c => .remove c
  | .addSource _ | .removeSource _ | .emit _ _ => .skip

section

variable {p : P} {c : C} {L : List (Act P C E)}

theorem add_mem_map_onSources : .add p ∈ L.map Act.onSources ↔ .addSource p ∈ L := by
  rw [List.mem_map]
  refine ⟨?_, fun h => ⟨_, h, rfl⟩⟩
  rintro ⟨_ | _ | _ | _ | _, ha, heq⟩ <;> cases heq
  exact ha

theorem remove_mem_map_onSources : .remove p ∈ L.map Act.onSources ↔ .removeSource p ∈ L := by
  rw [List.mem_map]
  refine ⟨?_, fun h => ⟨_, h, rfl⟩⟩
  rintro ⟨_ | _ | _ | _ | _, ha, heq⟩ <;> cases heq
  exact ha

theorem use_mem_map_onSources {e : E} (h : .emit p e ∈ L) : .use p ∈ L.map Act.onSources :=
  List.mem_map_of_mem (f := Act.onSources) h

theorem add_mem_map_onSinks : .add c ∈ L.map Act.onSinks ↔ .addSink c ∈ L := by
  rw [List.mem_map]
  refine ⟨?_, fun h => ⟨_, h, rfl⟩⟩
  rintro ⟨_ | _ | _ | _ | _, ha, heq⟩ <;> cases heq
  exact ha

theorem remove_mem_map_onSinks : .remove c ∈ L.map Act.onSinks ↔ .removeSink c ∈ L := by
  rw [List.mem_map]
  refine ⟨?_, fun h => ⟨_, h, rfl⟩⟩
  rintro ⟨_ | _ | _ | _ | _, ha, heq⟩ <;> cases heq
  exact ha

end

/-- Nobody has been there yet. -/
def State.empty : State P C := ⟨0, .empty, .empty⟩

/-- Both registries are well-formed. -/
structure State.WellFormed (s : State P C) : Prop where
  sources : s.sources.WellFormed
  sinks : s.sinks.WellFormed

theorem State.WellFormed.empty : (State.empty : State P C).WellFormed := ⟨.empty, .empty⟩

/-- A signal of the source `p` goes to every sink that listens to `p`. -/
def announce (sub : P → C → Bool) (s : State P C) (p : P) (signal : Signal E) :
    List (Message P C E) :=
  (s.sinks.members.filter (sub p)).map (⟨s.time, p, ·, signal⟩)

variable [DecidableEq P] [DecidableEq C] (sub : P → C → Bool)

/-- The registries and the messages between their members. -/
def machine : Machine (State P C) (Act P C E) (Message P C E) where
  next s a :=
    ⟨s.time + 1, Roster.machine.next s.sources a.onSources, Roster.machine.next s.sinks a.onSinks⟩
  out s
    | .addSource p => announce sub s p .started
    | .removeSource p => announce sub s p .stopped
    | .emit p e => announce sub s p (.value e)
    | .addSink c => (s.sources.members.filter (sub · c)).map (⟨s.time, ·, c, .started⟩)
    | .removeSink _ => []
  ok s a := Roster.machine.ok s.sources a.onSources ∧ Roster.machine.ok s.sinks a.onSinks

variable {sub} {s : State P C} {p : P} {c : C} {L : List (Act P C E)}

theorem State.WellFormed.next {a : Act P C E} (h : s.WellFormed) (hok : (machine sub).ok s a) :
    ((machine sub).next s a).WellFormed :=
  ⟨h.sources.next hok.1, h.sinks.next hok.2⟩

theorem State.WellFormed.after (h : s.WellFormed) (hL : (machine sub).Admits s L) :
    ((machine sub).after s L).WellFormed :=
  hL.invariant (fun _ _ hs hok => hs.next hok) h

/-! #### The two registries along a log -/

theorem time_after : ((machine sub).after s L).time = s.time + L.length := by
  induction L generalizing s with
  | nil => rfl
  | cons a L ih =>
    rw [Machine.after_cons, ih, List.length_cons]
    exact Nat.add_right_comm ..

theorem sources_after :
    ((machine sub).after s L).sources = Roster.machine.after s.sources (L.map Act.onSources) := by
  induction L generalizing s with
  | nil => rfl
  | cons a L ih => exact ih

theorem sinks_after :
    ((machine sub).after s L).sinks = Roster.machine.after s.sinks (L.map Act.onSinks) := by
  induction L generalizing s with
  | nil => rfl
  | cons a L ih => exact ih

theorem admits_sources (hL : (machine sub).Admits s L) :
    Roster.machine.Admits s.sources (L.map Act.onSources) := by
  induction L generalizing s with
  | nil => trivial
  | cons a L ih => exact ⟨hL.1.1, ih hL.2⟩

theorem admits_sinks (hL : (machine sub).Admits s L) :
    Roster.machine.Admits s.sinks (L.map Act.onSinks) := by
  induction L generalizing s with
  | nil => trivial
  | cons a L ih => exact ⟨hL.1.2, ih hL.2⟩

theorem mem_sources_after (h : s.WellFormed) (hL : (machine sub).Admits s L) :
    p ∈ ((machine sub).after s L).sources.members ↔
      (p ∈ s.sources.members ∨ .addSource p ∈ L) ∧ .removeSource p ∉ L := by
  rw [sources_after, Roster.mem_members_after h.sources (admits_sources hL),
    add_mem_map_onSources, remove_mem_map_onSources]

theorem mem_sinks_after (h : s.WellFormed) (hL : (machine sub).Admits s L) :
    c ∈ ((machine sub).after s L).sinks.members ↔
      (c ∈ s.sinks.members ∨ .addSink c ∈ L) ∧ .removeSink c ∉ L := by
  rw [sinks_after, Roster.mem_members_after h.sinks (admits_sinks hL),
    add_mem_map_onSinks, remove_mem_map_onSinks]

/-- Nobody who is on record is added again. -/
theorem addSource_notMem (hL : (machine sub).Admits s L) (hp : p ∈ s.sources.past) :
    .addSource p ∉ L :=
  add_mem_map_onSources.not.mp (Roster.add_notMem (admits_sources hL) hp)

theorem addSink_notMem (hL : (machine sub).Admits s L) (hc : c ∈ s.sinks.past) :
    .addSink c ∉ L :=
  add_mem_map_onSinks.not.mp (Roster.add_notMem (admits_sinks hL) hc)

/-- Nothing is heard of a source that is not there and is not added. -/
theorem removeSource_notMem (hL : (machine sub).Admits s L) (hp : p ∉ s.sources.members)
    (hadd : .addSource p ∉ L) : .removeSource p ∉ L ∧ ∀ e, .emit p e ∉ L := by
  obtain ⟨hremove, huse⟩ := Roster.notMem_of_notMem_members (admits_sources hL) hp
    (add_mem_map_onSources.not.mpr hadd)
  exact ⟨remove_mem_map_onSources.not.mp hremove, fun e h => huse (use_mem_map_onSources h)⟩

/-! #### The messages from one source to one sink -/

/-- The signals among the messages `ms` that go from `p` to `c`. -/
def between (p : P) (c : C) (ms : List (Message P C E)) : List (Signal E) :=
  ms.filterMap fun m => if m.source = p ∧ m.sink = c then some m.signal else none

/-- What an action says about the source `p`. -/
def Act.signalOf (p : P) : Act P C E → Option (Signal E)
  | .addSource q => if q = p then some .started else none
  | .removeSource q => if q = p then some .stopped else none
  | .emit q e => if q = p then some (.value e) else none
  | .addSink _ | .removeSink _ => none

/-- What a log says about the source `p`. -/
def signals (p : P) (L : List (Act P C E)) : List (Signal E) := L.filterMap (Act.signalOf p)

theorem between_append (ms ms' : List (Message P C E)) :
    between p c (ms ++ ms') = between p c ms ++ between p c ms' := List.filterMap_append

omit [DecidableEq C] in
theorem signals_cons (a : Act P C E) :
    signals p (a :: L) = (a.signalOf p).toList ++ signals p L := by
  rw [signals, List.filterMap_cons]
  cases a.signalOf p <;> rfl

private theorem filterMap_eq_of_nodup {α β : Type*} [DecidableEq α] {l : List α} (h : l.Nodup)
    (x : α) (y : β) :
    (l.filterMap fun z => if z = x then some y else none) = if x ∈ l then [y] else [] := by
  induction l with
  | nil => rfl
  | cons z l ih =>
    obtain ⟨hz, hl⟩ := List.nodup_cons.mp h
    rw [List.filterMap_cons, ih hl]
    by_cases hzx : z = x
    · subst hzx
      simp [hz]
    · simp [hzx, Ne.symm hzx]

/-- A listening sink hears a signal of its source once. -/
theorem between_announce (h : s.WellFormed) (q : P) (signal : Signal E) :
    between p c (announce sub s q signal) =
      if q = p ∧ c ∈ s.sinks.members ∧ sub p c then [signal] else [] := by
  rw [between, announce, List.filterMap_map]
  by_cases hq : q = p
  · subst hq
    have hnodup := h.sinks.nodup.filter (sub q)
    have := filterMap_eq_of_nodup hnodup c signal
    simpa [Function.comp_def] using this
  · simp [hq]

/-- A new sink hears that its sources have started. -/
theorem between_out_addSink (h : s.WellFormed) (d : C) :
    between p c ((machine sub).out s (.addSink d : Act P C E)) =
      if d = c ∧ p ∈ s.sources.members ∧ sub p c then [.started] else [] := by
  change between p c ((s.sources.members.filter (sub · d)).map _) = _
  rw [between, List.filterMap_map]
  by_cases hd : d = c
  · subst hd
    have hnodup := h.sources.nodup.filter (sub · d)
    have := filterMap_eq_of_nodup hnodup p (Signal.started : Signal E)
    simpa [Function.comp_def] using this
  · simp [hd]

/-- A sink that is there and listens to `p` hears what an action says about `p`. A sink that is not
there hears nothing, unless it is the one that is added. -/
theorem between_out_of_ne (h : s.WellFormed) {a : Act P C E} (ha : a ≠ .addSink c) :
    between p c ((machine sub).out s a) =
      if c ∈ s.sinks.members ∧ sub p c then (a.signalOf p).toList else [] := by
  have hannounce (q : P) (signal : Signal E) : between p c (announce sub s q signal) =
      if c ∈ s.sinks.members ∧ sub p c then (if q = p then some signal else none).toList
      else [] := by
    rw [between_announce h]
    by_cases hq : q = p <;> simp [hq]
  cases a with
  | addSource q => exact hannounce q _
  | removeSource q => exact hannounce q _
  | emit q e => exact hannounce q _
  | addSink d =>
    rw [between_out_addSink h, if_neg fun hd => ha (by rw [hd.1])]
    exact (ite_self _).symm
  | removeSink d => exact (ite_self _).symm

theorem between_eq_nil_of_notMem (h : s.WellFormed) (hL : (machine sub).Admits s L)
    (hc : c ∉ s.sinks.members) (hadd : .addSink c ∉ L) :
    between p c ((machine sub).outputs s L) = [] := by
  induction L generalizing s with
  | nil => rfl
  | cons a L ih =>
    rw [List.mem_cons, not_or] at hadd
    have hc' : c ∉ ((machine sub).next s a).sinks.members := by
      have := (mem_sinks_after h (L := [a]) ⟨hL.1, trivial⟩ (c := c)).not
      refine this.mpr fun hmem => ?_
      rcases hmem.1 with hmem | hmem
      · exact hc hmem
      · exact hadd.1 (List.mem_singleton.mp hmem)
    rw [Machine.outputs, between_append, between_out_of_ne h (Ne.symm hadd.1),
      if_neg fun hmem => hc hmem.1, ih (h.next hL.1) hL.2 hc' hadd.2, List.append_nil]

/-- A sink that does not listen to `p` hears nothing from it. -/
theorem between_eq_nil_of_not_sub (h : s.WellFormed) (hL : (machine sub).Admits s L)
    (hsub : ¬ sub p c) : between p c ((machine sub).outputs s L) = [] := by
  induction L generalizing s with
  | nil => rfl
  | cons a L ih =>
    have hout : between p c ((machine sub).out s a) = [] := by
      by_cases ha : a = .addSink c
      · rw [ha, between_out_addSink h, if_neg fun hd => hsub hd.2.2]
      · rw [between_out_of_ne h ha, if_neg fun hmem => hsub hmem.2]
    rw [Machine.outputs, between_append, hout, ih (h.next hL.1) hL.2, List.append_nil]

/-- Nothing is heard from a source that is not there. -/
theorem between_eq_nil_of_source_notMem (h : s.WellFormed) (hL : (machine sub).Admits s L)
    (hp : p ∉ s.sources.members) (hadd : .addSource p ∉ L) :
    between p c ((machine sub).outputs s L) = [] := by
  induction L generalizing s with
  | nil => rfl
  | cons a L ih =>
    rw [List.mem_cons, not_or] at hadd
    have hp' : p ∉ ((machine sub).next s a).sources.members := by
      have := (mem_sources_after h (L := [a]) ⟨hL.1, trivial⟩ (p := p)).not
      refine this.mpr fun hmem => ?_
      rcases hmem.1 with hmem | hmem
      · exact hp hmem
      · exact hadd.1 (List.mem_singleton.mp hmem)
    have hsignal : a.signalOf p = none := by
      cases a with
      | addSource q => exact if_neg fun heq => hadd.1 (by rw [heq])
      | removeSource q | emit q e => exact if_neg fun heq : q = p => hp (heq ▸ hL.1.1)
      | addSink d | removeSink d => rfl
    have hout : between p c ((machine sub).out s a) = [] := by
      by_cases ha : a = .addSink c
      · rw [ha, between_out_addSink h, if_neg fun hd => hp hd.2.1]
      · rw [between_out_of_ne h ha, hsignal]
        exact ite_self _
    rw [Machine.outputs, between_append, hout, ih (h.next hL.1) hL.2 hp' hadd.2, List.append_nil]

/-- The action that brings a source and a sink together lets the sink hear at most one signal. -/
theorem length_between_le {a : Act P C E} (hL : (machine sub).Admits .empty (L ++ [a]))
    (ha : a = .addSource p ∨ a = .addSink c) :
    (between p c ((machine sub).outputs .empty (L ++ [a]))).length ≤ if sub p c then 1 else 0 := by
  by_cases hsub : sub p c
  · obtain ⟨hadmits, hok⟩ := ((machine sub).admits_concat ..).mp hL
    have hwf := State.WellFormed.empty.after hadmits
    rw [Machine.outputs_concat, between_append, if_pos hsub]
    rcases ha with rfl | rfl
    · have hadd : .addSource p ∉ L := fun hmem => hok.1 <| by
        rw [sources_after, Roster.mem_past_after, add_mem_map_onSources]
        exact .inr hmem
      rw [between_eq_nil_of_source_notMem .empty hadmits List.not_mem_nil hadd,
        between_out_of_ne hwf (by simp)]
      split_ifs <;> simp [Act.signalOf]
    · have hadd : .addSink c ∉ L := fun hmem => hok.2 <| by
        rw [sinks_after, Roster.mem_past_after, add_mem_map_onSinks]
        exact .inr hmem
      rw [between_eq_nil_of_notMem .empty hadmits List.not_mem_nil hadd, between_out_addSink hwf]
      split_ifs <;> simp
  · rw [between_eq_nil_of_not_sub .empty hL hsub]
    exact Nat.zero_le _

/-- A sink that stays hears what the log says about `p`; one that leaves hears the beginning of
it. -/
theorem between_of_mem (h : s.WellFormed) (hL : (machine sub).Admits s L)
    (hc : c ∈ s.sinks.members) (hsub : sub p c) :
    between p c ((machine sub).outputs s L) <+: signals p L ∧
      (.removeSink c ∉ L → between p c ((machine sub).outputs s L) = signals p L) := by
  induction L generalizing s with
  | nil => exact ⟨List.prefix_rfl, fun _ => rfl⟩
  | cons a L ih =>
    have hwf := h.next hL.1
    -- `c` is on record, so it is not added
    have hne : a ≠ .addSink c := by
      rintro rfl
      exact hL.1.2 (h.sinks.subset hc)
    rw [Machine.outputs, between_append, between_out_of_ne h hne, if_pos ⟨hc, hsub⟩, signals_cons]
    by_cases ha : a = .removeSink c
    · -- `c` stays on record, so it does not come back
      subst ha
      have hgone : c ∉ ((machine sub).next s (.removeSink c : Act P C E)).sinks.members :=
        h.sinks.nodup.not_mem_erase
      have hadd := addSink_notMem hL.2 (h.sinks.subset hc)
      rw [between_eq_nil_of_notMem hwf hL.2 hgone hadd]
      exact ⟨by simp [Act.signalOf], fun hmem => absurd List.mem_cons_self hmem⟩
    · have hc' : c ∈ ((machine sub).next s a).sinks.members := by
        refine (mem_sinks_after h (L := [a]) ⟨hL.1, trivial⟩).mpr ⟨.inl hc, ?_⟩
        exact fun hmem => ha (List.mem_singleton.mp hmem).symm
      obtain ⟨hpre, heq⟩ := ih hwf hL.2 hc'
      refine ⟨(List.prefix_append_right_inj _).mpr hpre, fun hmem => ?_⟩
      rw [heq fun h => hmem (List.mem_cons_of_mem _ h)]

/-! #### The order of the messages to one sink -/

/-- The value or the stop that an action with the number `i` causes. -/
def Act.cause (i : ℕ) : Act P C E → Option (ℕ × P × Signal E)
  | .emit p e => some (i, p, .value e)
  | .removeSource p => some (i, p, .stopped)
  | .addSource _ | .addSink _ | .removeSink _ => none

/-- The values and stops of a log whose first action has the number `i`, in order. -/
def causes : ℕ → List (Act P C E) → List (ℕ × P × Signal E)
  | _, [] => []
  | i, a :: L => (a.cause i).toList ++ causes (i + 1) L

/-- The messages to the sink `c` that are not a start. -/
def toSink (c : C) (ms : List (Message P C E)) : List (ℕ × P × Signal E) :=
  ms.filterMap fun m =>
    match m.signal with
    | .started => none
    | signal => if m.sink = c then some (m.origin, m.source, signal) else none

omit [DecidableEq P] in
theorem toSink_announce_sublist (h : s.WellFormed) (p : P) {signal : Signal E}
    (hsignal : signal ≠ .started) :
    (toSink c (announce sub s p signal)).Sublist [(s.time, p, signal)] := by
  have hone : toSink c (announce sub s p signal) =
      if c ∈ s.sinks.members.filter (sub p) then [(s.time, p, signal)] else [] := by
    rw [← filterMap_eq_of_nodup (h.sinks.nodup.filter (sub p)), toSink, announce,
      List.filterMap_map]
    cases signal with
    | started => exact absurd rfl hsignal
    | value e => rfl
    | stopped => rfl
  rw [hone]
  split_ifs
  · exact List.Sublist.refl _
  · exact List.nil_sublist _

omit [DecidableEq P] in
theorem toSink_map_started {α : Type*} (l : List α) (i : ℕ) (f : α → P) (g : α → C) :
    toSink c (l.map fun x => (⟨i, f x, g x, .started⟩ : Message P C E)) = [] := by
  rw [toSink, List.filterMap_map]
  exact List.filterMap_eq_nil_iff.mpr fun _ _ => rfl

/-- An action causes at most one value or stop for each sink. -/
theorem toSink_out_sublist (h : s.WellFormed) (a : Act P C E) :
    (toSink c ((machine sub).out s a)).Sublist (a.cause s.time).toList := by
  cases a with
  | addSource p => exact (toSink_map_started (c := c) ..) ▸ List.nil_sublist _
  | removeSource p => exact toSink_announce_sublist h p (by simp)
  | emit p e => exact toSink_announce_sublist h p (by simp)
  | addSink d => exact (toSink_map_started (c := c) ..) ▸ List.nil_sublist _
  | removeSink d => exact List.nil_sublist _

/-- **One order for all sinks.** The values and stops that reach a sink are, in order, some of those
of the log. -/
theorem toSink_sublist (h : s.WellFormed) (hL : (machine sub).Admits s L) :
    (toSink c ((machine sub).outputs s L)).Sublist (causes s.time L) := by
  induction L generalizing s with
  | nil => exact List.nil_sublist _
  | cons a L ih =>
    rw [Machine.outputs, toSink, List.filterMap_append, causes]
    exact (toSink_out_sublist h a).append (ih (h.next hL.1) hL.2)

omit [DecidableEq P] [DecidableEq C] in
theorem fst_of_mem_cause {i : ℕ} {a : Act P C E} {x : ℕ × P × Signal E}
    (hx : x ∈ (a.cause i).toList) : x.1 = i := by
  cases a with
  | removeSource p => rw [List.mem_singleton.mp hx]
  | emit p e => rw [List.mem_singleton.mp hx]
  | addSource p => cases hx
  | addSink c => cases hx
  | removeSink c => cases hx

omit [DecidableEq P] [DecidableEq C] in
theorem le_of_mem_causes {i : ℕ} {x : ℕ × P × Signal E} (hx : x ∈ causes i L) : i ≤ x.1 := by
  induction L generalizing i with
  | nil => cases hx
  | cons a L ih =>
    rcases List.mem_append.mp hx with hx | hx
    · exact Nat.le_of_eq (fst_of_mem_cause hx).symm
    · exact Nat.le_of_succ_le (ih hx)

omit [DecidableEq P] [DecidableEq C] in
/-- The numbers of the causes increase along the log. -/
theorem causes_pairwise (i : ℕ) (L : List (Act P C E)) :
    (causes i L).Pairwise fun x y => x.1 < y.1 := by
  induction L generalizing i with
  | nil => exact List.Pairwise.nil
  | cons a L ih =>
    refine List.pairwise_append.mpr ⟨?_, ih (i + 1), fun x hx y hy => ?_⟩
    · cases a <;> simp [Act.cause]
    · rw [fst_of_mem_cause hx]
      exact le_of_mem_causes hy

/-! #### What a log says about one source -/

/-- The value of the source `p` that an action emits. -/
def Act.valueOf (p : P) : Act P C E → Option (Signal E)
  | .emit q e => if q = p then some (.value e) else none
  | .addSource _ | .removeSource _ | .addSink _ | .removeSink _ => none

/-- The values of the source `p` in a log. -/
def values (p : P) (L : List (Act P C E)) : List (Signal E) := L.filterMap (Act.valueOf p)

omit [DecidableEq C] in
theorem values_cons (a : Act P C E) :
    values p (a :: L) = (a.valueOf p).toList ++ values p L := by
  rw [values, List.filterMap_cons]
  cases a.valueOf p <;> rfl

omit [DecidableEq C] in
theorem signals_eq_nil (hadd : .addSource p ∉ L) (hremove : .removeSource p ∉ L)
    (hemit : ∀ e, .emit p e ∉ L) : signals p L = [] := by
  refine List.filterMap_eq_nil_iff.mpr fun a ha => ?_
  cases a with
  | addSource q => exact if_neg fun hq : q = p => hadd (hq ▸ ha)
  | removeSource q => exact if_neg fun hq : q = p => hremove (hq ▸ ha)
  | emit q e => exact if_neg fun hq : q = p => hemit e (hq ▸ ha)
  | addSink d => rfl
  | removeSink d => rfl

omit [DecidableEq C] in
theorem values_eq_nil (hemit : ∀ e, .emit p e ∉ L) : values p L = [] := by
  refine List.filterMap_eq_nil_iff.mpr fun a ha => ?_
  cases a with
  | emit q e => exact if_neg fun hq : q = p => hemit e (hq ▸ ha)
  | addSource q => rfl
  | removeSource q => rfl
  | addSink d => rfl
  | removeSink d => rfl

variable [DecidableEq E]

/-- The last signal of the source `p` in a log, if it is removed. -/
def stops (p : P) (L : List (Act P C E)) : List (Signal E) :=
  if .removeSource p ∈ L then [.stopped] else []

theorem stops_cons_of_ne {a : Act P C E} (ha : a ≠ .removeSource p) :
    stops p (a :: L) = stops p L := by
  rw [stops, stops]
  exact if_congr (by simp [Ne.symm ha]) rfl rfl

/-- Of a source that is there, a log says the values and then the stop. -/
theorem signals_of_mem (h : s.WellFormed) (hL : (machine sub).Admits s L)
    (hp : p ∈ s.sources.members) : signals p L = values p L ++ stops p L := by
  induction L generalizing s with
  | nil => rfl
  | cons a L ih =>
    have hpast := h.sources.subset hp
    by_cases ha : a = .removeSource p
    · -- nothing is heard of `p` after its removal
      subst ha
      have hgone : p ∉ ((machine sub).next s (.removeSource p : Act P C E)).sources.members :=
        h.sources.nodup.not_mem_erase
      have hadd := addSource_notMem hL.2 hpast
      obtain ⟨hremove, hemit⟩ := removeSource_notMem hL.2 hgone hadd
      rw [signals_cons, values_cons, signals_eq_nil hadd hremove hemit, values_eq_nil hemit]
      simp [Act.signalOf, Act.valueOf, stops]
    · have hp' : p ∈ ((machine sub).next s a).sources.members := by
        refine (mem_sources_after h (L := [a]) ⟨hL.1, trivial⟩).mpr ⟨.inl hp, ?_⟩
        exact fun hmem => ha (List.mem_singleton.mp hmem).symm
      have hvalue : a.signalOf p = a.valueOf p := by
        cases a with
        | addSource q => exact if_neg fun hq : q = p => hL.1.1 (hq ▸ hpast)
        | removeSource q => exact if_neg fun hq => ha (by rw [hq])
        | emit q e => rfl
        | addSink d => rfl
        | removeSink d => rfl
      rw [signals_cons, values_cons, stops_cons_of_ne ha, hvalue, ih (h.next hL.1) hL.2 hp',
        List.append_assoc]

/-- Of a source that is added, a log says the start, the values and then the stop. -/
theorem signals_of_add (h : s.WellFormed) (hL : (machine sub).Admits s L)
    (hp : p ∉ s.sources.members) (hadd : .addSource p ∈ L) :
    signals p L = .started :: (values p L ++ stops p L) := by
  induction L generalizing s with
  | nil => cases hadd
  | cons a L ih =>
    by_cases ha : a = .addSource p
    · subst ha
      have hmem : p ∈ ((machine sub).next s (.addSource p : Act P C E)).sources.members :=
        List.mem_append_right _ (List.mem_singleton_self p)
      rw [signals_cons, values_cons, stops_cons_of_ne (by simp), signals_of_mem (h.next hL.1) hL.2
        hmem]
      simp [Act.signalOf, Act.valueOf]
    · have hadd' : .addSource p ∈ L := (List.mem_cons.mp hadd).resolve_left (Ne.symm ha)
      obtain ⟨hremove, hemit⟩ :=
        removeSource_notMem (L := [a]) ⟨hL.1, trivial⟩ hp (by simpa using Ne.symm ha)
      have hp' : p ∉ ((machine sub).next s a).sources.members := by
        refine (mem_sources_after h (L := [a]) ⟨hL.1, trivial⟩).not.mpr fun hmem => ?_
        rcases hmem.1 with hmem | hmem
        · exact hp hmem
        · exact ha (List.mem_singleton.mp hmem).symm
      have hsignal : a.signalOf p = none := by
        have := signals_eq_nil (L := [a]) (by simpa using Ne.symm ha) hremove hemit
        rw [signals_cons] at this
        simpa [signals] using this
      have hvalue : a.valueOf p = none := by
        have := values_eq_nil hemit
        rw [values_cons] at this
        simpa [values] using this
      have hne : a ≠ .removeSource p := fun heq => hremove (by rw [heq]; exact List.mem_cons_self)
      rw [signals_cons, values_cons, stops_cons_of_ne hne, hsignal, hvalue,
        ih (h.next hL.1) hL.2 hp' hadd']
      rfl

/-- What a sink hears of the source `p` when it is added between the logs `L₁` and `L₂` and
stays. -/
def heard (p : P) (L₁ L₂ : List (Act P C E)) : List (Signal E) :=
  if .removeSource p ∈ L₁ then [] else .started :: (values p L₂ ++ stops p L₂)

/-- The first thing a new sink hears of `p` and what the rest of the log says about `p`. -/
theorem heard_eq {t : State P C} {L₁ L₂ : List (Act P C E)} (hL₁ : (machine sub).Admits .empty L₁)
    (ht : t.sources = ((machine sub).after .empty L₁).sources) (hwf : t.WellFormed)
    (hL₂ : (machine sub).Admits t L₂) (hadd : .addSource p ∈ L₁ ∨ .addSource p ∈ L₂) :
    heard p L₁ L₂ = (if p ∈ t.sources.members then [.started] else []) ++ signals p L₂ := by
  have hmem : p ∈ t.sources.members ↔ .addSource p ∈ L₁ ∧ .removeSource p ∉ L₁ := by
    rw [ht, mem_sources_after .empty hL₁]
    simp [State.empty, Roster.empty]
  have hpast : .addSource p ∈ L₁ → p ∈ t.sources.past := fun hadd => by
    rw [ht, sources_after]
    exact Roster.mem_past_after.mpr (.inr (add_mem_map_onSources.mpr hadd))
  rw [heard]
  by_cases hremove : .removeSource p ∈ L₁
  · -- `p` came and went before the sink
    have hadd₁ : .addSource p ∈ L₁ := by
      by_contra hadd
      exact (removeSource_notMem hL₁ List.not_mem_nil hadd).1 hremove
    have hp : p ∉ t.sources.members := fun hp => (hmem.mp hp).2 hremove
    have hadd₂ := addSource_notMem hL₂ (hpast hadd₁)
    obtain ⟨hremove₂, hemit₂⟩ := removeSource_notMem hL₂ hp hadd₂
    rw [if_pos hremove, if_neg hp, signals_eq_nil hadd₂ hremove₂ hemit₂]
    rfl
  · rw [if_neg hremove]
    by_cases hadd₁ : .addSource p ∈ L₁
    · have hp := hmem.mpr ⟨hadd₁, hremove⟩
      rw [if_pos hp, signals_of_mem hwf hL₂ hp]
      rfl
    · have hp : p ∉ t.sources.members := fun hp => hadd₁ (hmem.mp hp).1
      rw [if_neg hp, signals_of_add hwf hL₂ hp (hadd.resolve_left hadd₁)]
      rfl

/-- **Exact delivery.** The messages from the source `p` to a listening sink `c`, in terms of the
log: all of what is said about `p` if `c` stays, the beginning of it if `c` leaves. -/
theorem between_after_addSink {L₁ L₂ : List (Act P C E)}
    (hL : (machine sub).Admits .empty (L₁ ++ .addSink c :: L₂)) (hsub : sub p c)
    (hadd : .addSource p ∈ L₁ ++ .addSink c :: L₂) :
    between p c ((machine sub).outputs .empty (L₁ ++ .addSink c :: L₂)) <+: heard p L₁ L₂ ∧
      (.removeSink c ∉ L₂ →
        between p c ((machine sub).outputs .empty (L₁ ++ .addSink c :: L₂)) = heard p L₁ L₂) := by
  obtain ⟨hL₁, hok, hL₂⟩ := ((machine sub).admits_append _ _ _).mp hL
  have hwf₁ := State.WellFormed.empty.after hL₁
  have hwf₂ := hwf₁.next hok
  -- the log before `c` is added
  have hfresh : .addSink c ∉ L₁ := fun hadd => by
    refine hok.2 ?_
    rw [sinks_after]
    exact Roster.mem_past_after.mpr (.inr (add_mem_map_onSinks.mpr hadd))
  have hbefore := between_eq_nil_of_notMem (p := p) .empty hL₁ List.not_mem_nil hfresh
  -- the log after `c` is added
  let t := (machine sub).next ((machine sub).after .empty L₁) (.addSink c : Act P C E)
  have hc : c ∈ t.sinks.members := List.mem_append_right _ (List.mem_singleton_self c)
  obtain ⟨hpre, heq⟩ := between_of_mem hwf₂ hL₂ hc hsub
  have hadd' : .addSource p ∈ L₁ ∨ .addSource p ∈ L₂ := by simpa using hadd
  have hsplit : between p c ((machine sub).outputs .empty (L₁ ++ .addSink c :: L₂)) =
      (if p ∈ t.sources.members then [.started] else []) ++
        between p c ((machine sub).outputs t L₂) := by
    rw [Machine.outputs_append, between_append, hbefore, Machine.outputs, between_append,
      between_out_addSink hwf₁, List.nil_append]
    simp only [hsub, and_true, true_and]
    rfl
  rw [hsplit, heard_eq (t := t) hL₁ rfl hwf₂ hL₂ hadd']
  exact ⟨(List.prefix_append_right_inj _).mpr hpre, fun hremove => by rw [heq hremove]⟩

end PubSub
