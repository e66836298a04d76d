import Keryx.Broker.Preservation

/-!
# Registries, subscriptions and pointers of the broker

In every state between two actions, the list of consumers that a producer keeps for itself is the
registry of the consumers, filtered by `is_match`. In every state at all, the actions that wait in
the queue refer to objects that have not been freed, and the action that `do_work` takes out finds
its producer or consumer registered; so no assertion fails and nothing dangling is followed.

## Main definitions

* `OldBroker.Subscribed` — the relation between the registries and the lists of the producers.
* `Action.Registered`, `Action.Valid` — what an action relies on.

## Main results

* `subscribed_between_actions` — the subscription invariant.
* `pending_actions_valid` — the queue holds no dangling pointer, and no step fails.
-/

namespace Keryx

variable {Ev H : Type}

/-! ### Subscriptions -/

namespace OldBroker

/-- `p.is_match(c.filter)`, for the object `me` of the producer `p`. -/
def isMatch (b : OldBroker Ev H) (me : ProducerImpl H) (c : ConsumerPtr) : Bool :=
  (b.consumerHeap.deref c).any fun consumer => me.isMatch consumer.filter

/-- The registries have no duplicates, not even by address, and every registered producer has
exactly the matching registered consumers, in the order of the registry. -/
structure Subscribed (b : OldBroker Ev H) : Prop where
  producers_nodup : (b.producers.map b.producerHeap.addr).Nodup
  consumers_nodup : (b.consumers.map b.consumerHeap.addr).Nodup
  consumers_eq : ∀ p ∈ b.producers, ∃ me, b.producerHeap.deref p = some me ∧
    me.consumers = b.consumers.filter (b.isMatch me)

/-- A matching registered consumer occurs once, and no other consumer does. -/
theorem Subscribed.count_eq {b : OldBroker Ev H} (h : b.Subscribed) {p : ProducerPtr}
    (hp : p ∈ b.producers) {me : ProducerImpl H} (hme : b.producerHeap.deref p = some me)
    (c : ConsumerPtr) :
    me.consumers.count c = if c ∈ b.consumers ∧ b.isMatch me c then 1 else 0 := by
  obtain ⟨me', hderef, hconsumers⟩ := h.consumers_eq p hp
  obtain rfl : me = me' := Option.some.inj (hme.symm.trans hderef)
  have hnodup : (b.consumers.filter (b.isMatch me)).Nodup := h.consumers_nodup.of_map.filter _
  rw [hconsumers, hnodup.count]
  exact if_congr List.mem_filter rfl rfl

end OldBroker

variable {client : Client Ev H} {s : System Ev H} {done : List (Action Ev)}

namespace Inv

/-- The test of the code is the match of the client's arguments. -/
theorem isMatch_of_registered (h : Inv client s done) {p : ProducerPtr} {me : ProducerImpl H}
    (htopic : me.topic = client.topic p) {c : ConsumerPtr}
    (hc : c ∈ (client.after done).sinks.members) : s.broker.isMatch me c = client.isMatch p c := by
  obtain ⟨consumer, hderef, hconsumer⟩ := h.consumerHeap.object (.inl hc)
  rw [OldBroker.isMatch, hderef, Option.any_some, hconsumer.filter_eq, ProducerImpl.isMatch, htopic]
  rfl

theorem subscribed (h : Inv client s done) (htodo : s.todo = [] ∨ s.todo = [.doWork]) :
    s.broker.Subscribed where
  producers_nodup := by
    rw [h.producers_eq]
    exact h.producerHeap.nodup_addr (fun _ => .inl) h.wellFormed.sources.nodup
  consumers_nodup := by
    rw [h.consumers_eq]
    exact h.consumerHeap.nodup_addr (fun _ => .inl) h.wellFormed.sinks.nodup
  consumers_eq := by
    intro p hp
    obtain ⟨me, hderef, -, htopic, hconsumers⟩ := h.consumers_of_idle htodo (h.producers_eq ▸ hp)
    refine ⟨me, hderef, ?_⟩
    rw [hconsumers, h.consumers_eq]
    exact List.filter_congr fun c hc => (h.isMatch_of_registered htopic hc).symm

end Inv

/-- **Subscription invariant.** In every reachable state between two actions, every registered
producer has exactly the matching registered consumers, each once and in the order of the
registry. -/
theorem subscribed_between_actions [SnapshotHandler Ev H]
    (h : Transition.Reachable (System.step client) (.init client) s)
    (htodo : s.todo = [] ∨ s.todo = [.doWork]) :
    s.broker.Subscribed ∧
      ∀ p ∈ s.broker.producers, ∀ me, s.broker.producerHeap.deref p = some me → ∀ c,
        me.consumers.count c = if c ∈ s.broker.consumers ∧ s.broker.isMatch me c then 1 else 0 := by
  obtain ⟨done, hinv⟩ := inv_of_reachable h
  have hsub := hinv.subscribed htodo
  exact ⟨hsub, fun p hp me hme c => hsub.count_eq hp hme c⟩

/-- A client with one stream, whose consumers accept every name. -/
def oneStream : Client ℕ (NullSnapshotHandler ℕ) where
  topic _ := ⟨0, ""⟩
  snapshotHandler _ := .mk
  initialSnapshot _ := []
  filter _ := ⟨0, fun _ => true⟩
  currentStreamId := 0

/-- A consumer, a producer and a second consumer, taken out of the queue one after the other. -/
def threeActions : List (Label ℕ) :=
  [.makeConsumer 0, .makeProducer 0, .makeConsumer 1, .doWork] ++ List.replicate 5 .resume

theorem subscribed_after_threeActions :
    ∃ s, Transition.run (System.step oneStream) (.init oneStream) threeActions = some s ∧
      s.todo = [.doWork] ∧ s.broker.consumers = [0, 1] ∧
      (s.broker.producerHeap.deref 0).map ProducerImpl.consumers = some [0, 1] ∧
      s.broker.Subscribed := by
  have hrun : (Transition.run (System.step oneStream) (.init oneStream) threeActions).map
      (fun s => (s.todo, s.broker.consumers,
        (s.broker.producerHeap.deref 0).map ProducerImpl.consumers)) =
      some ([.doWork], [0, 1], some [0, 1]) := rfl
  obtain ⟨s, hs, heq⟩ := Option.map_eq_some_iff.mp hrun
  simp only [Prod.mk.injEq] at heq
  obtain ⟨htodo, hconsumers, hlist⟩ := heq
  exact ⟨s, hs, htodo, hconsumers, hlist, (subscribed_between_actions ⟨_, hs⟩ (.inr htodo)).1⟩

/-! ### Pointers -/

/-- What carrying out an action relies on: its producer or consumer is registered. -/
def Action.Registered (b : OldBroker Ev H) : Action Ev → Prop
  | .publish p _ | .destroyProducer p => p ∈ b.producers
  | .destroyConsumer c => c ∈ b.consumers
  | .initProducer _ | .initConsumer _ => True

/-- The object of an action has not been freed: the cell at its address is still its own. -/
def Action.Valid (b : OldBroker Ev H) : Action Ev → Prop
  | .initProducer p | .publish p _ | .destroyProducer p => b.producerHeap.Valid p
  | .initConsumer c | .destroyConsumer c => b.consumerHeap.Valid c

namespace Inv

/-- The front action finds its producer or consumer registered. -/
theorem registered_front (h : Inv client s done) {a : Action Ev} {as : List (Action Ev)}
    (hpending : s.broker.pendingActions = a :: as) : a.Registered s.broker := by
  have hok := h.ok_front hpending
  cases a with
  | initProducer p => trivial
  | destroyProducer p =>
    rw [Action.Registered, h.producers_eq]
    exact Client.ok_destroyProducer.mp hok
  | publish p ev =>
    rw [Action.Registered, h.producers_eq]
    exact Client.ok_publish.mp hok
  | initConsumer c => trivial
  | destroyConsumer c =>
    rw [Action.Registered, h.consumers_eq]
    exact Client.ok_destroyConsumer.mp hok

/-- The actions that wait refer to objects that have not been freed. -/
theorem valid_of_pending (h : Inv client s done) {a : Action Ev}
    (ha : a ∈ s.broker.pendingActions) : a.Valid s.broker := by
  obtain ⟨l₁, l₂, hsplit⟩ := List.append_of_mem ha
  have hadmits := h.admits_pending
  rw [hsplit, ← List.append_assoc, client.admits_append] at hadmits
  obtain ⟨hl₁, hok, -⟩ := hadmits
  have hsub : l₁ ⊆ s.broker.pendingActions := hsplit ▸ List.subset_append_left ..
  cases a with
  | initProducer p => exact h.producerHeap.valid (.inr (.inl ha))
  | destroyProducer p =>
    exact h.producerHeap.valid (h.liveProducer_of_mem hl₁ hsub (Client.ok_destroyProducer.mp hok))
  | publish p ev =>
    exact h.producerHeap.valid (h.liveProducer_of_mem hl₁ hsub (Client.ok_publish.mp hok))
  | initConsumer c => exact h.consumerHeap.valid (.inr ha)
  | destroyConsumer c =>
    exact h.consumerHeap.valid (h.liveConsumer_of_mem hl₁ hsub (Client.ok_destroyConsumer.mp hok))

end Inv

/-- **Referential integrity.** In every reachable state, no step has failed: no dangling pointer was
followed, the assertion of `DestroyProducer` held, and `consumers.erase` was not given `end()`. The
action that `do_work` takes out next finds its producer or consumer registered, and every action
that waits refers to its own object, which has not been freed. -/
theorem pending_actions_valid [SnapshotHandler Ev H]
    (h : Transition.Reachable (System.step client) (.init client) s) :
    s.fault = none ∧
      (∀ a as rest, s.todo = .doWork :: rest → s.broker.pendingActions = a :: as →
        a.Registered s.broker) ∧
      ∀ a ∈ s.broker.pendingActions, a.Valid s.broker := by
  obtain ⟨done, hinv⟩ := inv_of_reachable h
  exact ⟨hinv.noFault, fun a as _ _ hpending => hinv.registered_front hpending,
    fun a ha => hinv.valid_of_pending ha⟩

/-- A producer is destroyed and freed, and the next one gets its address. -/
def reusedAddress : List (Label ℕ) :=
  [.makeConsumer 0, .makeProducer 7, .publish 0 5, .destroyProducer 0, .doWork] ++
    List.replicate 10 .resume ++ [.makeProducer 7, .publish 1 6, .doWork, .resume, .resume]

theorem pending_actions_valid_of_reusedAddress :
    ∃ s, Transition.run (System.step oneStream) (.init oneStream) reusedAddress = some s ∧
      s.broker.producerHeap.addr 1 = s.broker.producerHeap.addr 0 ∧
      s.broker.pendingActions = [.publish 1 6] ∧ s.fault = none ∧
      (Action.publish 1 6).Valid s.broker := by
  have hrun : (Transition.run (System.step oneStream) (.init oneStream) reusedAddress).map
      (fun s => (s.broker.producerHeap.addr 1, s.broker.producerHeap.addr 0,
        s.broker.pendingActions)) = some (7, 7, [.publish 1 6]) := rfl
  obtain ⟨s, hs, heq⟩ := Option.map_eq_some_iff.mp hrun
  simp only [Prod.mk.injEq] at heq
  obtain ⟨haddr₁, haddr₀, hpending⟩ := heq
  obtain ⟨hfault, -, hvalid⟩ := pending_actions_valid ⟨_, hs⟩
  exact ⟨s, hs, haddr₁.trans haddr₀.symm, hpending, hfault,
    hvalid _ (hpending ▸ List.mem_cons_self)⟩

end Keryx
