import Keryx.Broker.Basic
import Keryx.Lib.PubSub
import Mathlib.Tactic.SplitIfs

/-!
# The broker refines the registry of sources and sinks

The abstract model of the broker is `PubSub.machine`: producers are sources, consumers are sinks,
and a consumer listens to a producer when its filter matches the topic. The machine consumes the
actions at once; the broker only queues them and carries them out later, one task at a time, with
calls of the client in between.

The invariant `Inv` relates a state of the broker to the log of the actions enqueued so far. The
actions carried out are a beginning of the log, and the registries are those of the machine after
them; the rest of the log is the queue. The calls of `notify` already made, followed by those the
running loops still have to make, are the messages of the machine.

## Main definitions

* `Action.act`, `Client.machine` — the abstract model.
* `Task.deliveries`, `Task.added` — what the running loops still have to do.
* `Inv` — the invariant.

## Main results

* `Client.mem_producers`, `Client.mem_consumers` — who is registered after a log.
* `deliveries_maybeAdd`, `pendingAdds_of_producer`, `pendingAdds_of_consumer` — what the loops do.

That every step keeps the invariant is `Keryx.Broker.Preservation`.
-/

namespace Keryx

open PubSub (Signal Message)

variable {Ev H : Type}

/-! ### The abstract model -/

/-- An action as an action of the abstract model. -/
def Action.act : Action Ev → PubSub.Act ProducerPtr ConsumerPtr Ev
  | .initProducer p => .addSource p
  | .destroyProducer p => .removeSource p
  | .publish p e => .emit p e
  | .initConsumer c => .addSink c
  | .destroyConsumer c => .removeSink c

theorem Action.act_injective : Function.Injective (Action.act : Action Ev → _) := by
  intro a b h
  cases a <;> cases b <;> cases h <;> rfl

/-- One call of `c->notify(m)`, whatever function it calls. -/
structure Delivery (Ev : Type) where
  origin : ℕ
  producer : ProducerPtr
  consumer : ConsumerPtr
  notification : NotificationImpl Ev
  deriving DecidableEq, Repr

/-- The delivery of a dispatch. -/
def Dispatch.delivery (d : Dispatch Ev) : Delivery Ev :=
  ⟨d.origin, d.producer, d.consumer, d.notification⟩

namespace Client

variable (client : Client Ev H)

/-- The stream id of the producer `p`: `current_stream_id` is incremented once for each producer,
modulo `2 ^ 64`. -/
def streamId (p : ProducerPtr) : StreamID := client.currentStreamId + UInt64.ofNat (p + 1)

/-- The filter of the consumer `c` matches the topic of the producer `p`. -/
def isMatch (p : ProducerPtr) (c : ConsumerPtr) : Bool :=
  (client.filter c).streamTypeId == (client.topic p).streamTypeId &&
    (client.filter c).isMatch (client.topic p).streamName

/-- The notification that carries a signal of the producer `p`. -/
def notification (p : ProducerPtr) : Signal Ev → NotificationImpl Ev
  | .started => ⟨.startProducer, [], client.streamId p, client.topic p⟩
  | .value e => ⟨.event, [e], client.streamId p, client.topic p⟩
  | .stopped => ⟨.stopProducer, [], client.streamId p, client.topic p⟩

/-- The delivery that carries a message. -/
def delivery (m : Message ProducerPtr ConsumerPtr Ev) : Delivery Ev :=
  ⟨m.origin, m.source, m.sink, client.notification m.source m.signal⟩

/-- The abstract model of a broker with this client. -/
def machine : Machine (PubSub.State ProducerPtr ConsumerPtr)
    (PubSub.Act ProducerPtr ConsumerPtr Ev) (Message ProducerPtr ConsumerPtr Ev) :=
  PubSub.machine client.isMatch

/-- The state of the abstract model after a log. -/
def after (L : List (Action Ev)) : PubSub.State ProducerPtr ConsumerPtr :=
  client.machine.after .empty (L.map Action.act)

/-- The messages of a log. -/
def outputs (L : List (Action Ev)) : List (Message ProducerPtr ConsumerPtr Ev) :=
  client.machine.outputs .empty (L.map Action.act)

/-- The logs of a client that uses only the handles it owns. -/
def Admits (L : List (Action Ev)) : Prop := client.machine.Admits .empty (L.map Action.act)

/-- The deliveries of a signal of the producer `p`. -/
theorem delivery_announce (A : PubSub.State ProducerPtr ConsumerPtr) (p : ProducerPtr)
    (signal : Signal Ev) : (PubSub.announce client.isMatch A p signal).map client.delivery =
      (A.sinks.members.filter (client.isMatch p)).map
        (⟨A.time, p, ·, client.notification p signal⟩) := by
  rw [PubSub.announce, List.map_map]
  rfl

/-- The deliveries to a new consumer. -/
theorem delivery_out_initConsumer (A : PubSub.State ProducerPtr ConsumerPtr) (c : ConsumerPtr) :
    (client.machine.out A (Action.initConsumer c).act).map client.delivery =
      (A.sources.members.filter (client.isMatch · c)).map fun p =>
        ⟨A.time, p, c, client.notification p .started⟩ := by
  change ((A.sources.members.filter _).map _).map client.delivery = _
  rw [List.map_map]
  rfl

theorem after_concat (L : List (Action Ev)) (a : Action Ev) :
    client.after (L ++ [a]) = client.machine.next (client.after L) a.act := by
  rw [after, List.map_append, List.map_singleton, Machine.after_concat]
  rfl

theorem outputs_concat (L : List (Action Ev)) (a : Action Ev) :
    client.outputs (L ++ [a]) = client.outputs L ++ client.machine.out (client.after L) a.act := by
  rw [outputs, List.map_append, List.map_singleton, Machine.outputs_concat]
  rfl

theorem admits_append (L L' : List (Action Ev)) : client.Admits (L ++ L') ↔
    client.Admits L ∧ client.machine.Admits (client.after L) (L'.map Action.act) := by
  rw [Admits, List.map_append, Machine.admits_append]
  rfl

theorem admits_concat (L : List (Action Ev)) (a : Action Ev) :
    client.Admits (L ++ [a]) ↔ client.Admits L ∧ client.machine.ok (client.after L) a.act := by
  rw [Admits, List.map_append, List.map_singleton, Machine.admits_concat]
  rfl

section

variable {client} {A : PubSub.State ProducerPtr ConsumerPtr} {p : ProducerPtr} {c : ConsumerPtr}

theorem ok_initProducer :
    client.machine.ok A (Action.initProducer p).act ↔ p ∉ A.sources.past := and_iff_left trivial

theorem ok_destroyProducer :
    client.machine.ok A (Action.destroyProducer p).act ↔ p ∈ A.sources.members :=
  and_iff_left trivial

theorem ok_publish {ev : Ev} :
    client.machine.ok A (Action.publish p ev).act ↔ p ∈ A.sources.members := and_iff_left trivial

theorem ok_initConsumer :
    client.machine.ok A (Action.initConsumer c).act ↔ c ∉ A.sinks.past := and_iff_right trivial

theorem ok_destroyConsumer :
    client.machine.ok A (Action.destroyConsumer c).act ↔ c ∈ A.sinks.members :=
  and_iff_right trivial

end

variable {client} {L : List (Action Ev)}

theorem Admits.wellFormed (h : client.Admits L) : (client.after L).WellFormed :=
  PubSub.State.WellFormed.empty.after h

theorem time_after : (client.after L).time = L.length := by
  rw [after, machine, PubSub.time_after, List.length_map]
  exact Nat.zero_add _

theorem mem_map_act {a : Action Ev} : a.act ∈ L.map Action.act ↔ a ∈ L :=
  List.mem_map_of_injective Action.act_injective

/-- The producers after a log. -/
theorem mem_producers (h : client.Admits L) {p : ProducerPtr} :
    p ∈ (client.after L).sources.members ↔ .initProducer p ∈ L ∧ .destroyProducer p ∉ L := by
  have := PubSub.mem_sources_after (p := p) .empty h
  rw [← mem_map_act, ← mem_map_act (a := .destroyProducer p)]
  exact this.trans (and_congr_left' (or_iff_right List.not_mem_nil))

/-- The consumers after a log. -/
theorem mem_consumers (h : client.Admits L) {c : ConsumerPtr} :
    c ∈ (client.after L).sinks.members ↔ .initConsumer c ∈ L ∧ .destroyConsumer c ∉ L := by
  have := PubSub.mem_sinks_after (c := c) .empty h
  rw [← mem_map_act, ← mem_map_act (a := .destroyConsumer c)]
  exact this.trans (and_congr_left' (or_iff_right List.not_mem_nil))

/-- The producers on record after a log. -/
theorem mem_pastProducers {p : ProducerPtr} :
    p ∈ (client.after L).sources.past ↔ .initProducer p ∈ L := by
  rw [after, machine, PubSub.sources_after, Roster.mem_past_after, PubSub.add_mem_map_onSources,
    ← mem_map_act]
  simp [PubSub.State.empty, Roster.empty, Action.act]

/-- The consumers on record after a log. -/
theorem mem_pastConsumers {c : ConsumerPtr} :
    c ∈ (client.after L).sinks.past ↔ .initConsumer c ∈ L := by
  rw [after, machine, PubSub.sinks_after, Roster.mem_past_after, PubSub.add_mem_map_onSinks,
    ← mem_map_act]
  simp [PubSub.State.empty, Roster.empty, Action.act]

/-- A producer is initialised once. -/
theorem initProducer_notMem {L' : List (Action Ev)} (h : client.Admits (L ++ L')) {p : ProducerPtr}
    (hp : .initProducer p ∈ L) : .initProducer p ∉ L' := by
  have hadd := PubSub.addSource_notMem ((client.admits_append L L').mp h).2
    (mem_pastProducers.mpr hp)
  exact fun hmem => hadd (mem_map_act.mpr hmem)

/-- A consumer is initialised once. -/
theorem initConsumer_notMem {L' : List (Action Ev)} (h : client.Admits (L ++ L')) {c : ConsumerPtr}
    (hc : .initConsumer c ∈ L) : .initConsumer c ∉ L' := by
  have hadd := PubSub.addSink_notMem ((client.admits_append L L').mp h).2
    (mem_pastConsumers.mpr hc)
  exact fun hmem => hadd (mem_map_act.mpr hmem)

end Client

/-! ### What the running loops still have to do -/

namespace Task

variable (client : Client Ev H)

/-- The calls of `notify` that a task makes. -/
def deliveries : Task Ev → List (Delivery Ev)
  | .maybeAdd i p c =>
    if client.isMatch p c then [⟨i, p, c, client.notification p .started⟩] else []
  | .notify i p c m => [⟨i, p, c, m⟩]
  | .doWork | .addNewEvent _ _ | .deallocate _ => []

/-- The consumer that a task adds to the consumers of the producer `p`. -/
def added (p : ProducerPtr) : Task Ev → Option ConsumerPtr
  | .maybeAdd _ q c => if q = p ∧ client.isMatch p c then some c else none
  | .doWork | .notify _ _ _ _ | .addNewEvent _ _ | .deallocate _ => none

end Task

/-- The tasks of a running `do_work`, in the state `A` of the abstract model: passes of one loop
over registered producers and consumers, then what follows the loop, then the loop of `do_work`. -/
inductive Stack (A : PubSub.State ProducerPtr ConsumerPtr) : List (Task Ev) → Prop
  | nil : Stack A []
  | doWork : Stack A [.doWork]
  | addNewEvent {p ev} (hp : p ∈ A.sources.members) : Stack A [.addNewEvent p ev, .doWork]
  | deallocate {p} (hpast : p ∈ A.sources.past) (hp : p ∉ A.sources.members) :
      Stack A [.deallocate p, .doWork]
  | maybeAdd {i p c rest} (hp : p ∈ A.sources.members) (hc : c ∈ A.sinks.members)
      (hrest : Stack A rest) : Stack A (.maybeAdd i p c :: rest)
  | notify {i p c m rest} (hc : c ∈ A.sinks.members) (hrest : Stack A rest) :
      Stack A (.notify i p c m :: rest)

section Loops

variable (client : Client Ev H) {A : PubSub.State ProducerPtr ConsumerPtr} {i : ℕ}

/-- The consumers that the tasks `todo` add to the consumers of `p`. -/
def pendingAdds (p : ProducerPtr) (todo : List (Task Ev)) : List ConsumerPtr :=
  todo.filterMap (Task.added client p)

theorem Stack.maybeAdd_of_producer {p : ProducerPtr} {cs : List ConsumerPtr} {rest : List (Task Ev)}
    (hp : p ∈ A.sources.members) (hcs : cs ⊆ A.sinks.members) (hrest : Stack A rest) :
    Stack A (cs.map (.maybeAdd i p) ++ rest) := by
  induction cs with
  | nil => exact hrest
  | cons c cs ih =>
    exact .maybeAdd hp (hcs List.mem_cons_self) (ih (List.subset_of_cons_subset hcs))

theorem Stack.maybeAdd_of_consumer {c : ConsumerPtr} {ps : List ProducerPtr} {rest : List (Task Ev)}
    (hc : c ∈ A.sinks.members) (hps : ps ⊆ A.sources.members) (hrest : Stack A rest) :
    Stack A (ps.map (.maybeAdd i · c) ++ rest) := by
  induction ps with
  | nil => exact hrest
  | cons p ps ih =>
    exact .maybeAdd (hps List.mem_cons_self) hc (ih (List.subset_of_cons_subset hps))

theorem Stack.notify_of_subset {p : ProducerPtr} {m : NotificationImpl Ev} {cs : List ConsumerPtr}
    {rest : List (Task Ev)} (hcs : cs ⊆ A.sinks.members) (hrest : Stack A rest) :
    Stack A (cs.map (.notify i p · m) ++ rest) := by
  induction cs with
  | nil => exact hrest
  | cons c cs ih => exact .notify (hcs List.mem_cons_self) (ih (List.subset_of_cons_subset hcs))

/-- The loop of `ProducerImpl::init` adds the matching consumers to `p`. -/
theorem pendingAdds_of_producer (p q : ProducerPtr) (cs : List ConsumerPtr) :
    pendingAdds client q (cs.map (.maybeAdd i p)) =
      if p = q then cs.filter (client.isMatch q) else [] := by
  rw [pendingAdds, List.filterMap_map]
  by_cases hpq : p = q
  · rw [if_pos hpq, ← List.filterMap_eq_filter]
    congr 1
    funext c
    simp [Task.added, hpq, Option.guard]
  · rw [if_neg hpq]
    exact List.filterMap_eq_nil_iff.mpr fun c _ => if_neg fun h => hpq h.1

/-- The loop of `InitConsumer` adds `c` to the matching producers. -/
theorem pendingAdds_of_consumer {c : ConsumerPtr} {q : ProducerPtr} {ps : List ProducerPtr}
    (hnodup : ps.Nodup) (hq : q ∈ ps) :
    pendingAdds client q (ps.map (.maybeAdd i · c)) = [c].filter (client.isMatch q) := by
  induction ps with
  | nil => cases hq
  | cons p ps ih =>
    obtain ⟨hp, hnodup⟩ := List.nodup_cons.mp hnodup
    rw [pendingAdds, List.map_cons, List.filterMap_cons, Task.added]
    by_cases hpq : p = q
    · -- `q` does not occur again in `ps`
      subst hpq
      have hnil : pendingAdds client p (ps.map (.maybeAdd i · c)) = [] := by
        refine List.filterMap_eq_nil_iff.mpr fun t ht => ?_
        obtain ⟨r, hr, rfl⟩ := List.mem_map.mp ht
        exact if_neg fun h : r = p ∧ _ => hp (h.1 ▸ hr)
      rw [pendingAdds] at hnil
      rw [hnil]
      cases h : client.isMatch p c <;> simp [h]
    · simp only [hpq, false_and, if_false]
      exact ih hnodup ((List.mem_cons.mp hq).resolve_left (Ne.symm hpq))

theorem pendingAdds_append (q : ProducerPtr) (todo todo' : List (Task Ev)) :
    pendingAdds client q (todo ++ todo') =
      pendingAdds client q todo ++ pendingAdds client q todo' := List.filterMap_append

theorem pendingAdds_notify (p q : ProducerPtr) (m : NotificationImpl Ev) (cs : List ConsumerPtr) :
    pendingAdds client q (cs.map (.notify i p · m)) = [] := by
  rw [pendingAdds, List.filterMap_map]
  exact List.filterMap_eq_nil_iff.mpr fun _ _ => rfl

theorem deliveries_notify (p : ProducerPtr) (m : NotificationImpl Ev) (cs : List ConsumerPtr) :
    (cs.map (.notify i p · m)).flatMap (Task.deliveries client) = cs.map (⟨i, p, ·, m⟩) := by
  rw [List.flatMap_map]
  exact List.map_eq_flatMap.symm

/-- The calls of `notify` of a loop of `maybe_add` are those for the matching pairs. -/
theorem deliveries_maybeAdd {α : Type} (l : List α) (f : α → ProducerPtr) (g : α → ConsumerPtr) :
    (l.map fun x => Task.maybeAdd i (f x) (g x)).flatMap (Task.deliveries client) =
      (l.filter fun x => client.isMatch (f x) (g x)).map fun x =>
        ⟨i, f x, g x, client.notification (f x) .started⟩ := by
  induction l with
  | nil => rfl
  | cons x l ih =>
    rw [List.map_cons, List.flatMap_cons, ih, Task.deliveries, List.filter_cons]
    split_ifs <;> rfl

end Loops

/-! ### The invariant -/

/-- The producers that have an object: those that wait for `InitProducer`, the registered ones, and
the one whose destructor runs. -/
def LiveProducer (A : PubSub.State ProducerPtr ConsumerPtr) (todo : List (Task Ev))
    (pending : List (Action Ev)) (p : ProducerPtr) : Prop :=
  p ∈ A.sources.members ∨ .initProducer p ∈ pending ∨ .deallocate p ∈ todo

/-- The consumers that have an object: those that wait for `InitConsumer`, and the registered
ones. -/
def LiveConsumer (A : PubSub.State ProducerPtr ConsumerPtr) (pending : List (Action Ev))
    (c : ConsumerPtr) : Prop :=
  c ∈ A.sinks.members ∨ .initConsumer c ∈ pending

/-- The object of the producer `p`. A registered producer has the matching registered consumers,
less those that the running loop has not reached; one that is not registered yet has none. -/
structure ProducerOk (client : Client Ev H) (A : PubSub.State ProducerPtr ConsumerPtr)
    (todo : List (Task Ev)) (pending : List (Action Ev)) (p : ProducerPtr) (me : ProducerImpl H) :
    Prop where
  id_eq : me.id = client.streamId p
  topic_eq : me.topic = client.topic p
  consumers_eq : p ∈ A.sources.members →
    me.consumers ++ pendingAdds client p todo = A.sinks.members.filter (client.isMatch p)
  consumers_nil : .initProducer p ∈ pending → me.consumers = []

/-- The object of the consumer `c`. Its handler is that of the client until `destroy_consumer`. -/
structure ConsumerOk (client : Client Ev H) (handles : List ConsumerPtr) (c : ConsumerPtr)
    (me : ConsumerImpl) : Prop where
  filter_eq : me.filter = client.filter c
  notify_eq : me.notify = if c ∈ handles then .user c else .ignore

/-- A call of `notify` reaches the handler of the consumer until `destroy_consumer` is called. -/
def Handled (h : History Ev) : Prop :=
  ∀ h₁ d h₂, h = h₁ ++ .dispatched d :: h₂ →
    (.destroyConsumer d.consumer ∈ History.log h₁ → d.handler = .ignore) ∧
    (.destroyConsumer d.consumer ∉ History.log h₁ → d.handler = .user d.consumer)

/-- The invariant; `done` are the actions carried out so far. -/
structure Inv (client : Client Ev H) (s : System Ev H) (done : List (Action Ev)) : Prop where
  noFault : s.fault = none
  log_eq : s.log = done ++ s.broker.pendingActions
  admits : client.Admits s.log
  producers_eq : s.broker.producers = (client.after done).sources.members
  consumers_eq : s.broker.consumers = (client.after done).sinks.members
  producerHandles_eq : s.producerHandles = (client.after s.log).sources.members
  consumerHandles_eq : s.consumerHandles = (client.after s.log).sinks.members
  producers_made : (client.after s.log).sources.past = List.range s.broker.producerHeap.next
  consumers_made : (client.after s.log).sinks.past = List.range s.broker.consumerHeap.next
  currentStreamId_eq : s.broker.currentStreamId =
    client.currentStreamId + UInt64.ofNat s.broker.producerHeap.next
  producerHeap : s.broker.producerHeap.Holds
    (LiveProducer (client.after done) s.todo s.broker.pendingActions)
    (ProducerOk client (client.after done) s.todo s.broker.pendingActions)
  consumerHeap : s.broker.consumerHeap.Holds
    (LiveConsumer (client.after done) s.broker.pendingActions)
    (ConsumerOk client s.consumerHandles)
  stack : Stack (client.after done) s.todo
  deliveries : s.dispatches.map Dispatch.delivery ++ s.todo.flatMap (Task.deliveries client) =
    (client.outputs done).map client.delivery
  handled : Handled s.history

theorem Handled.enqueued {h : History Ev} (hh : Handled h) (a : Action Ev) :
    Handled (h ++ [.enqueued a]) := by
  intro h₁ d h₂ heq
  rcases List.eq_nil_or_concat h₂ with rfl | ⟨h₂, x, rfl⟩
  · have := List.append_inj_right' heq rfl
    simp at this
  · rw [List.concat_eq_append, ← List.cons_append, ← List.append_assoc] at heq
    exact hh h₁ d h₂ (List.append_inj_left' heq rfl)

theorem Handled.dispatched {h : History Ev} (hh : Handled h) {d : Dispatch Ev}
    (hignore : .destroyConsumer d.consumer ∈ h.log → d.handler = .ignore)
    (huser : .destroyConsumer d.consumer ∉ h.log → d.handler = .user d.consumer) :
    Handled (h ++ [.dispatched d]) := by
  intro h₁ d' h₂ heq
  rcases List.eq_nil_or_concat h₂ with rfl | ⟨h₂, x, rfl⟩
  · obtain ⟨rfl, hd⟩ := List.append_inj' heq rfl
    obtain rfl : d = d' := by simpa using hd
    exact ⟨hignore, huser⟩
  · rw [List.concat_eq_append, ← List.cons_append, ← List.append_assoc] at heq
    exact hh h₁ d' h₂ (List.append_inj_left' heq rfl)

end Keryx
