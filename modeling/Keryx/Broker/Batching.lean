import Keryx.Broker.Delivery

/-!
# When `do_work` is called does not matter

The calls of the client determine the log, whatever `do_work` does in between: a call enqueues its
action at once, and the number of the new producer or consumer is the number of those made before.
Since the log determines the registries, the lists of the producers and the messages, two runs from
one state that make the same calls and end with an empty queue end alike.

## Main definitions

* `Call`, `calls` — the calls of a run, without the addresses that the allocator picked.
* `Client.logAfter` — the log after some calls.

## Main results

* `log_eq_logAfter` — the calls of a run determine the log.
* `same_calls_same_notifications` — two runs with the same calls.
-/

namespace Keryx

variable {Ev H : Type}

/-- A call of the client other than `do_work`. -/
inductive Call (Ev : Type) where
  | makeProducer
  | publish (p : ProducerPtr) (ev : Ev)
  | destroyProducer (p : ProducerPtr)
  | makeConsumer
  | destroyConsumer (c : ConsumerPtr)
  deriving DecidableEq, Repr

/-- The call of a label, if it is one. -/
def Label.call : Label Ev → Option (Call Ev)
  | .makeProducer _ => some .makeProducer
  | .publish p ev => some (.publish p ev)
  | .destroyProducer p => some (.destroyProducer p)
  | .makeConsumer _ => some .makeConsumer
  | .destroyConsumer c => some (.destroyConsumer c)
  | .doWork | .resume => none

/-- The calls of a run, in order. -/
def calls (ls : List (Label Ev)) : List (Call Ev) := ls.filterMap Label.call

/-- The action that a call enqueues, in the state `A` of the abstract model. -/
def Call.action (A : PubSub.State ProducerPtr ConsumerPtr) : Call Ev → Action Ev
  | .makeProducer => .initProducer A.sources.past.length
  | .publish p ev => .publish p ev
  | .destroyProducer p => .destroyProducer p
  | .makeConsumer => .initConsumer A.sinks.past.length
  | .destroyConsumer c => .destroyConsumer c

/-- The log `L` after the calls `cs`. -/
def Client.logAfter (client : Client Ev H) (L : List (Action Ev)) (cs : List (Call Ev)) :
    List (Action Ev) :=
  cs.foldl (fun L call => L ++ [call.action (client.after L)]) L

/-- A task of `do_work` enqueues nothing. -/
theorem System.log_resume [SnapshotHandler Ev H] (s : System Ev H) (task : Task Ev)
    (rest : List (Task Ev)) : (s.resume task rest).log = s.log := by
  rw [System.resume]
  split
  · rfl
  · next dispatched _ =>
      cases dispatched with
      | none => exact congrArg History.log (List.append_nil _)
      | some d => exact History.log_dispatched ..

section

variable [SnapshotHandler Ev H] {client : Client Ev H} {s s' : System Ev H}

/-- One step enqueues the action of its call. -/
theorem Inv.log_step {done : List (Action Ev)} (h : Inv client s done) {l : Label Ev}
    (hstep : s.step client l = some s') : s'.log = client.logAfter s.log l.call.toList := by
  cases System.effect_of_step hstep with
  | makeProducer =>
    refine (History.log_enqueued ..).trans ?_
    change _ = s.log ++ [.initProducer (client.after s.log).sources.past.length]
    rw [h.producers_made, List.length_range]
    rfl
  | publish => exact History.log_enqueued ..
  | destroyProducer => exact History.log_enqueued ..
  | makeConsumer =>
    refine (History.log_enqueued ..).trans ?_
    change _ = s.log ++ [.initConsumer (client.after s.log).sinks.past.length]
    rw [h.consumers_made, List.length_range]
    rfl
  | destroyConsumer _ hc =>
    obtain ⟨consumer, hderef, -⟩ := h.consumerHeap.object (h.liveConsumer hc)
    rw [System.destroyConsumer, OldBroker.destroyConsumer_eq hderef]
    exact History.log_enqueued ..
  | doWork => rfl
  | resume => exact s.log_resume ..

/-- The calls of a run determine the log. -/
theorem log_eq_logAfter {ls : List (Label Ev)} (h : ∃ done, Inv client s done)
    (hrun : Transition.run (System.step client) s ls = some s') :
    s'.log = client.logAfter s.log (calls ls) := by
  let P (t : System Ev H) (ls : List (Label Ev)) : Prop :=
    (∃ done, Inv client t done) ∧ t.log = client.logAfter s.log (calls ls)
  have hinit : P s [] := ⟨h, rfl⟩
  refine (Transition.run_labels (System.step client) (P := P)
    (fun t l t' ls ⟨⟨done, hinv⟩, heq⟩ hstep => ⟨hinv.step hstep, ?_⟩) hinit hrun).2
  have hcalls : calls (ls ++ [l]) = calls ls ++ l.call.toList := by
    rw [calls, List.filterMap_append, calls]
    cases h : l.call <;> simp [h]
  rw [hinv.log_step hstep, heq, hcalls, Client.logAfter, Client.logAfter, Client.logAfter,
    List.foldl_append]

end

/-- The consumers in the list of the producer `p`. -/
def OldBroker.consumersOf (b : OldBroker Ev H) (p : ProducerPtr) : Option (List ConsumerPtr) :=
  (b.producerHeap.deref p).map (·.consumers)

/-- The notifications that the handler of the consumer `c` was called with. -/
def System.notifications (s : System Ev H) (c : ConsumerPtr) : List (NotificationImpl Ev) :=
  (s.received c).map (·.notification)

namespace Inv

variable {client : Client Ev H} {s : System Ev H} {done : List (Action Ev)}

theorem consumersOf_eq (h : Inv client s done) (htodo : s.todo = []) {p : ProducerPtr}
    (hp : p ∈ (client.after done).sources.members) : s.broker.consumersOf p =
      some ((client.after done).sinks.members.filter (client.isMatch p)) := by
  obtain ⟨me, hderef, -, -, hconsumers⟩ := h.consumers_of_idle (.inl htodo) hp
  rw [OldBroker.consumersOf, hderef, Option.map_some, hconsumers]

/-- When the queue is empty, the messages of the log have been dispatched. -/
theorem map_dispatchesTo (h : Inv client s done) (htodo : s.todo = []) (c : ConsumerPtr) :
    (s.history.dispatchesTo c).map (·.notification) =
      (((client.outputs done).map client.delivery).filter (·.consumer = c)).map
        (·.notification) := by
  have hdeliveries := h.deliveries
  rw [htodo, List.flatMap_nil, List.append_nil] at hdeliveries
  rw [← hdeliveries, List.filter_map, List.map_map]
  rfl

/-- What a handler received is a beginning of the messages of the log. -/
theorem notifications_isPrefix (h : Inv client s done) (htodo : s.todo = []) (c : ConsumerPtr) :
    s.notifications c <+: (((client.outputs done).map client.delivery).filter
      (·.consumer = c)).map (·.notification) := by
  rw [← h.map_dispatchesTo htodo]
  exact (h.handled.received_isPrefix c).map _

/-- A consumer that is not destroyed received all of the messages of the log. -/
theorem notifications_eq (h : Inv client s done) (htodo : s.todo = []) {c : ConsumerPtr}
    (hc : .destroyConsumer c ∉ s.log) :
    s.notifications c = (((client.outputs done).map client.delivery).filter
      (·.consumer = c)).map (·.notification) := by
  rw [← h.map_dispatchesTo htodo, ← h.handled.received_eq hc]
  rfl

end Inv

/-- **When `do_work` is called does not matter.** Two runs from the same reachable state that make
the same calls, whatever addresses the allocator picks and wherever `do_work` is called, and that
both end with an empty queue, end with the same registries and the same lists of the producers; a
consumer that is not destroyed has received the same notifications in both, and a destroyed one has
received in one run a beginning of what it has received in the other. -/
theorem same_calls_same_notifications [SnapshotHandler Ev H] {client : Client Ev H}
    {s₀ s₁ s₂ : System Ev H} {ls₁ ls₂ : List (Label Ev)}
    (h₀ : Transition.Reachable (System.step client) (.init client) s₀)
    (hrun₁ : Transition.run (System.step client) s₀ ls₁ = some s₁)
    (hrun₂ : Transition.run (System.step client) s₀ ls₂ = some s₂)
    (hcalls : calls ls₁ = calls ls₂)
    (hidle₁ : s₁.todo = [] ∧ s₁.broker.pendingActions = [])
    (hidle₂ : s₂.todo = [] ∧ s₂.broker.pendingActions = []) :
    s₁.broker.producers = s₂.broker.producers ∧
      s₁.broker.consumers = s₂.broker.consumers ∧
      (∀ p ∈ s₁.broker.producers, s₁.broker.consumersOf p = s₂.broker.consumersOf p) ∧
      (∀ c, .destroyConsumer c ∉ s₁.log → s₁.notifications c = s₂.notifications c) ∧
      ∀ c, s₁.notifications c <+: s₂.notifications c ∨
        s₂.notifications c <+: s₁.notifications c := by
  obtain ⟨done₁, hinv₁⟩ := inv_of_reachable (h₀.trans ⟨ls₁, hrun₁⟩)
  obtain ⟨done₂, hinv₂⟩ := inv_of_reachable (h₀.trans ⟨ls₂, hrun₂⟩)
  have hlog : s₁.log = s₂.log := by
    rw [log_eq_logAfter (inv_of_reachable h₀) hrun₁, log_eq_logAfter (inv_of_reachable h₀) hrun₂,
      hcalls]
  obtain rfl : done₁ = done₂ := by
    rw [← hinv₁.drained hidle₁.2, ← hinv₂.drained hidle₂.2, hlog]
  refine ⟨?_, ?_, fun p hp => ?_, fun c hc => ?_, fun c => ?_⟩
  · rw [hinv₁.producers_eq, hinv₂.producers_eq]
  · rw [hinv₁.consumers_eq, hinv₂.consumers_eq]
  · rw [hinv₁.producers_eq] at hp
    rw [hinv₁.consumersOf_eq hidle₁.1 hp, hinv₂.consumersOf_eq hidle₂.1 hp]
  · rw [hinv₁.notifications_eq hidle₁.1 hc, hinv₂.notifications_eq hidle₂.1 (hlog ▸ hc)]
  · exact List.prefix_or_prefix_of_prefix (hinv₁.notifications_isPrefix hidle₁.1 c)
      (hinv₂.notifications_isPrefix hidle₂.1 c)

/-- A producer, two consumers, an event and the end of the first consumer, with `do_work` called
after every few calls. -/
def oftenDrained : List (Label ℕ) :=
  [.makeProducer 0, .makeConsumer 0, .makeConsumer 1, .doWork] ++ List.replicate 6 .resume ++
    [.publish 0 5, .doWork] ++ List.replicate 5 .resume ++ [.destroyConsumer 0, .doWork] ++
    List.replicate 2 .resume

/-- The same calls, with `do_work` called once at the end. -/
def drainedOnce : List (Label ℕ) :=
  [.makeProducer 9, .makeConsumer 8, .makeConsumer 7, .publish 0 5, .destroyConsumer 0, .doWork] ++
    List.replicate 11 .resume

theorem same_notifications_oftenDrained_drainedOnce :
    ∃ s₁ s₂, Transition.run (System.step oneStream) (.init oneStream) oftenDrained = some s₁ ∧
      Transition.run (System.step oneStream) (.init oneStream) drainedOnce = some s₂ ∧
      (s₁.notifications 0).length = 2 ∧ s₂.notifications 0 = [] ∧
      (s₁.notifications 1).length = 2 ∧ s₁.notifications 1 = s₂.notifications 1 ∧
      s₁.broker.consumers = s₂.broker.consumers := by
  have hrun₁ : (Transition.run (System.step oneStream) (.init oneStream) oftenDrained).map
      (fun s => (s.todo, s.broker.pendingActions, (s.notifications 0).length,
        (s.notifications 1).length, s.log)) = some ([], [], 2, 2,
          [.initProducer 0, .initConsumer 0, .initConsumer 1, .publish 0 5,
            .destroyConsumer 0]) := rfl
  have hrun₂ : (Transition.run (System.step oneStream) (.init oneStream) drainedOnce).map
      (fun s => (s.todo, s.broker.pendingActions, s.notifications 0)) = some ([], [], []) := rfl
  obtain ⟨s₁, hs₁, heq₁⟩ := Option.map_eq_some_iff.mp hrun₁
  obtain ⟨s₂, hs₂, heq₂⟩ := Option.map_eq_some_iff.mp hrun₂
  simp only [Prod.mk.injEq] at heq₁ heq₂
  obtain ⟨htodo₁, hpending₁, hlength₀, hlength₁, hlog⟩ := heq₁
  obtain ⟨htodo₂, hpending₂, hnil⟩ := heq₂
  obtain ⟨-, hconsumers, -, hsame, -⟩ := same_calls_same_notifications (.refl _) hs₁ hs₂ rfl
    ⟨htodo₁, hpending₁⟩ ⟨htodo₂, hpending₂⟩
  refine ⟨s₁, s₂, hs₁, hs₂, hlength₀, hnil, hlength₁, hsame 1 ?_, hconsumers⟩
  rw [hlog]
  decide

end Keryx
