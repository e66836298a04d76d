import Keryx.Broker.Refinement

/-!
# Every step of the broker keeps the invariant

A call of the client appends its action to the log and to the queue. A pass of the loop of `do_work`
moves the front action from the queue to the actions carried out, and leaves the loop that delivers
its messages; a pass of that loop makes one call of `notify`.

## Main results

* `Inv.call` — the calls of the client.
* `Inv.visited` — the actions of the queue.
* `Inv.dispatch` — the passes of a loop.
* `Inv.step`, `inv_of_reachable` — every step keeps the invariant.
-/

namespace Keryx

variable {Ev H : Type}

/-! ### The calls of the client -/

/-- Between two actions a registered producer has the matching registered consumers. -/
theorem ProducerOk.consumers_eq_of_doWork {client : Client Ev H}
    {A : PubSub.State ProducerPtr ConsumerPtr} {pending : List (Action Ev)} {p : ProducerPtr}
    {me : ProducerImpl H} (hme : ProducerOk client A [.doWork] pending p me)
    (hp : p ∈ A.sources.members) : me.consumers = A.sinks.members.filter (client.isMatch p) :=
  (List.append_nil _).symm.trans (hme.consumers_eq hp)

namespace Inv

variable {client : Client Ev H} {s s' : System Ev H} {done : List (Action Ev)}

theorem admits_pending (h : Inv client s done) : client.Admits (done ++ s.broker.pendingActions) :=
  h.log_eq ▸ h.admits

theorem admits_done (h : Inv client s done) : client.Admits done :=
  ((client.admits_append _ _).mp h.admits_pending).1

theorem wellFormed (h : Inv client s done) : (client.after done).WellFormed :=
  h.admits_done.wellFormed

/-- A producer that is registered now or will be after some of the queue has an object. -/
theorem liveProducer_of_mem (h : Inv client s done) {l : List (Action Ev)}
    (hl : client.Admits (done ++ l)) (hsub : l ⊆ s.broker.pendingActions) {p : ProducerPtr}
    (hp : p ∈ (client.after (done ++ l)).sources.members) :
    LiveProducer (client.after done) s.todo s.broker.pendingActions p := by
  rw [Client.mem_producers hl, List.mem_append, List.mem_append, not_or] at hp
  obtain ⟨hdone | hpending, hdestroy, -⟩ := hp
  · exact .inl ((Client.mem_producers h.admits_done).mpr ⟨hdone, hdestroy⟩)
  · exact .inr (.inl (hsub hpending))

/-- A consumer that is registered now or will be after some of the queue has an object. -/
theorem liveConsumer_of_mem (h : Inv client s done) {l : List (Action Ev)}
    (hl : client.Admits (done ++ l)) (hsub : l ⊆ s.broker.pendingActions) {c : ConsumerPtr}
    (hc : c ∈ (client.after (done ++ l)).sinks.members) :
    LiveConsumer (client.after done) s.broker.pendingActions c := by
  rw [Client.mem_consumers hl, List.mem_append, List.mem_append, not_or] at hc
  obtain ⟨hdone | hpending, hdestroy, -⟩ := hc
  · exact .inl ((Client.mem_consumers h.admits_done).mpr ⟨hdone, hdestroy⟩)
  · exact .inr (hsub hpending)

/-- A consumer whose handle the client owns has an object. -/
theorem liveConsumer (h : Inv client s done) {c : ConsumerPtr} (hc : c ∈ s.consumerHandles) :
    LiveConsumer (client.after done) s.broker.pendingActions c := by
  rw [h.consumerHandles_eq, h.log_eq] at hc
  exact h.liveConsumer_of_mem h.admits_pending (List.Subset.refl _) hc

/-- A call appends one action to the log and to the queue, and leaves the registries and the tasks
alone. -/
theorem call (h : Inv client s done) {a : Action Ev}
    (hok : client.machine.ok (client.after s.log) a.act) (hfault : s'.fault = s.fault)
    (htodo : s'.todo = s.todo) (hhistory : s'.history = s.history ++ [.enqueued a])
    (hpending : s'.broker.pendingActions = s.broker.pendingActions ++ [a])
    (hproducers : s'.broker.producers = s.broker.producers)
    (hconsumers : s'.broker.consumers = s.broker.consumers)
    (hproducerHandles : s'.producerHandles =
      (client.machine.next (client.after s.log) a.act).sources.members)
    (hconsumerHandles : s'.consumerHandles =
      (client.machine.next (client.after s.log) a.act).sinks.members)
    (hproducersMade : (client.machine.next (client.after s.log) a.act).sources.past =
      List.range s'.broker.producerHeap.next)
    (hconsumersMade : (client.machine.next (client.after s.log) a.act).sinks.past =
      List.range s'.broker.consumerHeap.next)
    (hstreamId : s'.broker.currentStreamId =
      client.currentStreamId + UInt64.ofNat s'.broker.producerHeap.next)
    (hproducerHeap : s'.broker.producerHeap.Holds
      (LiveProducer (client.after done) s.todo (s.broker.pendingActions ++ [a]))
      (ProducerOk client (client.after done) s.todo (s.broker.pendingActions ++ [a])))
    (hconsumerHeap : s'.broker.consumerHeap.Holds
      (LiveConsumer (client.after done) (s.broker.pendingActions ++ [a]))
      (ConsumerOk client s'.consumerHandles)) : Inv client s' done := by
  have hlog : s'.log = s.log ++ [a] := by
    rw [System.log, hhistory, History.log_enqueued]
    rfl
  have hdispatches : s'.dispatches = s.dispatches := by
    rw [System.dispatches, hhistory, History.dispatches_enqueued]
    rfl
  exact {
    noFault := hfault.trans h.noFault
    log_eq := by rw [hlog, hpending, h.log_eq, List.append_assoc]
    admits := by rw [hlog]; exact (client.admits_concat _ _).mpr ⟨h.admits, hok⟩
    producers_eq := hproducers.trans h.producers_eq
    consumers_eq := hconsumers.trans h.consumers_eq
    producerHandles_eq := by rw [hlog, client.after_concat, hproducerHandles]
    consumerHandles_eq := by rw [hlog, client.after_concat, hconsumerHandles]
    producers_made := by rw [hlog, client.after_concat, hproducersMade]
    consumers_made := by rw [hlog, client.after_concat, hconsumersMade]
    currentStreamId_eq := hstreamId
    producerHeap := by rw [htodo, hpending]; exact hproducerHeap
    consumerHeap := by rw [hpending]; exact hconsumerHeap
    stack := by rw [htodo]; exact h.stack
    deliveries := by rw [hdispatches, htodo]; exact h.deliveries
    handled := by rw [hhistory]; exact h.handled.enqueued a }

/-- An action that is no `InitProducer` leaves the producers alone while it waits. -/
theorem producerHeap_concat (h : Inv client s done) {a : Action Ev}
    (ha : ∀ p, a ≠ .initProducer p) :
    s.broker.producerHeap.Holds
      (LiveProducer (client.after done) s.todo (s.broker.pendingActions ++ [a]))
      (ProducerOk client (client.after done) s.todo (s.broker.pendingActions ++ [a])) := by
  have hmem (p : ProducerPtr) (hp : .initProducer p ∈ s.broker.pendingActions ++ [a]) :
      .initProducer p ∈ s.broker.pendingActions := by
    simpa [Ne.symm (ha p)] using hp
  refine h.producerHeap.mono (fun p hp => hp.imp_right (Or.imp_left (hmem p))) ?_
  intro p me _ hme
  exact ⟨hme.id_eq, hme.topic_eq, hme.consumers_eq, fun hp => hme.consumers_nil (hmem p hp)⟩

theorem liveConsumer_concat {A : PubSub.State ProducerPtr ConsumerPtr} {pending : List (Action Ev)}
    {a : Action Ev} (ha : ∀ c, a ≠ .initConsumer c) (c : ConsumerPtr)
    (hc : LiveConsumer A (pending ++ [a]) c) : LiveConsumer A pending c :=
  hc.imp_right fun hc => by simpa [Ne.symm (ha c)] using hc

theorem publish (h : Inv client s done) {p : ProducerPtr} (hp : p ∈ s.producerHandles) (ev : Ev) :
    Inv client (s.publish p ev) done := by
  refine h.call (Client.ok_publish.mpr (h.producerHandles_eq ▸ hp)) rfl rfl rfl rfl rfl rfl
    h.producerHandles_eq h.consumerHandles_eq h.producers_made h.consumers_made
    h.currentStreamId_eq ?_ ?_
  · exact h.producerHeap_concat fun _ => by simp
  · exact h.consumerHeap.mono (liveConsumer_concat fun _ => by simp) fun _ _ _ => id

theorem destroyProducer (h : Inv client s done) {p : ProducerPtr} (hp : p ∈ s.producerHandles) :
    Inv client (s.destroyProducer p) done := by
  refine h.call (Client.ok_destroyProducer.mpr (h.producerHandles_eq ▸ hp)) rfl rfl rfl rfl rfl rfl
    (congrArg (List.erase · p) h.producerHandles_eq) h.consumerHandles_eq h.producers_made
    h.consumers_made h.currentStreamId_eq ?_ ?_
  · exact h.producerHeap_concat fun _ => by simp
  · exact h.consumerHeap.mono (liveConsumer_concat fun _ => by simp) fun _ _ _ => id

theorem makeProducer [SnapshotHandler Ev H] (h : Inv client s done) {a : ℕ}
    (ha : s.broker.producerHeap.cells a = none) : Inv client (s.makeProducer client a) done := by
  let p := s.broker.producerHeap.next
  have hnew : .initProducer p ∉ s.log := fun hmem => by
    rw [← Client.mem_pastProducers, h.producers_made] at hmem
    exact Nat.lt_irrefl p (List.mem_range.mp hmem)
  have hstreamId : s.broker.currentStreamId + 1 = client.streamId p := by
    rw [h.currentStreamId_eq, Client.streamId, UInt64.ofNat_add, UInt64.add_assoc]
    rfl
  refine h.call (Client.ok_initProducer.mpr (Client.mem_pastProducers.not.mpr hnew))
    rfl rfl rfl rfl rfl rfl (congrArg (· ++ [p]) h.producerHandles_eq) h.consumerHandles_eq
    ((congrArg (· ++ [p]) h.producers_made).trans List.range_succ.symm) h.consumers_made ?_ ?_ ?_
  · exact hstreamId
  · have hpending (q : ProducerPtr) (hq : .initProducer q ∈ s.broker.pendingActions ++
        [.initProducer p]) : .initProducer q ∈ s.broker.pendingActions ∨ q = p := by
      simpa using hq
    have hok : s.broker.producerHeap.Holds
        (LiveProducer (client.after done) s.todo s.broker.pendingActions)
        (ProducerOk client (client.after done) s.todo
          (s.broker.pendingActions ++ [.initProducer p])) :=
      h.producerHeap.mono (fun _ => id) fun q me hq hme =>
        ⟨hme.id_eq, hme.topic_eq, hme.consumers_eq, fun hmem => hme.consumers_nil <|
          (hpending q hmem).resolve_right (Nat.ne_of_lt (h.producerHeap.lt_next hq))⟩
    refine (hok.allocate ha ?_).mono ?_ fun _ _ _ => id
    · refine ⟨hstreamId, rfl, fun hmem => ?_, fun _ => rfl⟩
      exact absurd (h.log_eq ▸ List.mem_append_left _
        ((Client.mem_producers h.admits_done).mp hmem).1) hnew
    · rintro q (hq | hq | hq)
      · exact .inl (.inl hq)
      · exact (hpending q hq).imp_left fun hq => .inr (.inl hq)
      · exact .inl (.inr (.inr hq))
  · exact h.consumerHeap.mono (liveConsumer_concat fun _ => by simp) fun _ _ _ => id

theorem makeConsumer (h : Inv client s done) {a : ℕ}
    (ha : s.broker.consumerHeap.cells a = none) : Inv client (s.makeConsumer client a) done := by
  let c := s.broker.consumerHeap.next
  have hnew : .initConsumer c ∉ s.log := fun hmem => by
    rw [← Client.mem_pastConsumers, h.consumers_made] at hmem
    exact Nat.lt_irrefl c (List.mem_range.mp hmem)
  refine h.call (Client.ok_initConsumer.mpr (Client.mem_pastConsumers.not.mpr hnew))
    rfl rfl rfl rfl rfl rfl h.producerHandles_eq (congrArg (· ++ [c]) h.consumerHandles_eq)
    h.producers_made ((congrArg (· ++ [c]) h.consumers_made).trans List.range_succ.symm)
    h.currentStreamId_eq ?_ ?_
  · exact h.producerHeap_concat fun _ => by simp
  · have hok : s.broker.consumerHeap.Holds
        (LiveConsumer (client.after done) s.broker.pendingActions)
        (ConsumerOk client (s.consumerHandles ++ [c])) := by
      refine h.consumerHeap.mono (fun _ => id) fun d me hd hme => ?_
      have hne : d ≠ c := Nat.ne_of_lt (h.consumerHeap.lt_next hd)
      exact ⟨hme.filter_eq, by simpa [hne] using hme.notify_eq⟩
    refine (hok.allocate ha ?_).mono ?_ fun _ _ _ => id
    · exact ⟨rfl, by simp [c]⟩
    · rintro d (hd | hd)
      · exact .inl (.inl hd)
      · exact Or.imp_left .inr (by simpa using hd)

theorem destroyConsumer (h : Inv client s done) {c : ConsumerPtr} (hc : c ∈ s.consumerHandles) :
    Inv client (s.destroyConsumer c) done := by
  obtain ⟨me, hderef, hme⟩ := h.consumerHeap.object (h.liveConsumer hc)
  have hcode : s.destroyConsumer c = { s with
      broker := { s.broker with
        consumerHeap := s.broker.consumerHeap.write c { me with notify := .ignore }
        pendingActions := s.broker.pendingActions ++ [.destroyConsumer c] }
      consumerHandles := s.consumerHandles.erase c
      history := s.history ++ [.enqueued (.destroyConsumer c)] } := by
    rw [System.destroyConsumer, OldBroker.destroyConsumer_eq hderef]
    rfl
  have hnodup : s.consumerHandles.Nodup := h.consumerHandles_eq ▸ h.admits.wellFormed.sinks.nodup
  rw [hcode]
  refine h.call (Client.ok_destroyConsumer.mpr (h.consumerHandles_eq ▸ hc))
    rfl rfl rfl rfl rfl rfl h.producerHandles_eq (congrArg (List.erase · c) h.consumerHandles_eq)
    h.producers_made h.consumers_made h.currentStreamId_eq ?_ ?_
  · exact h.producerHeap_concat fun _ => by simp
  · refine (h.consumerHeap.write (h.liveConsumer hc) ?_ ?_).mono
      (liveConsumer_concat fun _ => by simp) fun _ _ _ => id
    · exact ⟨hme.filter_eq, by simp [hnodup.not_mem_erase]⟩
    · intro d me _ hdc hme
      exact ⟨hme.filter_eq, by simpa [List.mem_erase_of_ne hdc] using hme.notify_eq⟩

/-! ### The actions of the queue -/

theorem frontIndex_eq (h : Inv client s done) : s.frontIndex = (client.after done).time := by
  rw [System.frontIndex, h.log_eq, List.length_append, Nat.add_sub_cancel, Client.time_after]

/-- The client owned the handle of the action at the front when it enqueued it. -/
theorem ok_front (h : Inv client s done) {a : Action Ev} {as : List (Action Ev)}
    (hpending : s.broker.pendingActions = a :: as) :
    client.machine.ok (client.after done) a.act := by
  have hadmits := ((client.admits_append _ _).mp h.admits_pending).2
  rw [hpending] at hadmits
  exact hadmits.1

/-- Between two actions, a registered producer has the matching registered consumers. -/
theorem consumers_of_idle (h : Inv client s done) (htodo : s.todo = [] ∨ s.todo = [.doWork])
    {p : ProducerPtr} (hp : p ∈ (client.after done).sources.members) :
    ∃ me, s.broker.producerHeap.deref p = some me ∧ me.id = client.streamId p ∧
      me.topic = client.topic p ∧
      me.consumers = (client.after done).sinks.members.filter (client.isMatch p) := by
  obtain ⟨me, hderef, hme⟩ := h.producerHeap.object (.inl hp)
  refine ⟨me, hderef, hme.id_eq, hme.topic_eq, ?_⟩
  have hnil : pendingAdds client p s.todo = [] := by rcases htodo with h | h <;> rw [h] <;> rfl
  rw [← hme.consumers_eq hp, hnil, List.append_nil]

/-- What carrying out the front action has to establish. -/
theorem visited (h : Inv client s done) {a : Action Ev} {as : List (Action Ev)}
    (htodo : s.todo = [.doWork]) (hpending : s.broker.pendingActions = a :: as)
    {b : OldBroker Ev H} {tasks : List (Task Ev)} (hb : b.pendingActions = as)
    (hproducerNext : b.producerHeap.next = s.broker.producerHeap.next)
    (hconsumerNext : b.consumerHeap.next = s.broker.consumerHeap.next)
    (hstreamId : b.currentStreamId = s.broker.currentStreamId)
    (hproducers : b.producers = (client.machine.next (client.after done) a.act).sources.members)
    (hconsumers : b.consumers = (client.machine.next (client.after done) a.act).sinks.members)
    (hproducerHeap : b.producerHeap.Holds
      (LiveProducer (client.machine.next (client.after done) a.act) (tasks ++ [.doWork]) as)
      (ProducerOk client (client.machine.next (client.after done) a.act) (tasks ++ [.doWork]) as))
    (hconsumerHeap : b.consumerHeap.Holds
      (LiveConsumer (client.machine.next (client.after done) a.act) as)
      (ConsumerOk client s.consumerHandles))
    (hstack : Stack (client.machine.next (client.after done) a.act) (tasks ++ [.doWork]))
    (hdeliveries : tasks.flatMap (Task.deliveries client) =
      (client.machine.out (client.after done) a.act).map client.delivery) :
    Inv client { s with broker := b, todo := tasks ++ [.doWork], inHandler := false }
      (done ++ [a]) := by
  have hdone := h.deliveries
  rw [htodo] at hdone
  exact {
    noFault := h.noFault
    log_eq := by
      change s.log = _
      rw [h.log_eq, hpending, hb, List.append_assoc]
      rfl
    admits := h.admits
    producers_eq := by rw [client.after_concat]; exact hproducers
    consumers_eq := by rw [client.after_concat]; exact hconsumers
    producerHandles_eq := h.producerHandles_eq
    consumerHandles_eq := h.consumerHandles_eq
    producers_made := h.producers_made.trans (congrArg List.range hproducerNext.symm)
    consumers_made := h.consumers_made.trans (congrArg List.range hconsumerNext.symm)
    currentStreamId_eq := by
      change b.currentStreamId = _
      rw [hstreamId, h.currentStreamId_eq, ← hproducerNext]
    producerHeap := by rw [client.after_concat, hb]; exact hproducerHeap
    consumerHeap := by rw [client.after_concat, hb]; exact hconsumerHeap
    stack := by rw [client.after_concat]; exact hstack
    deliveries := by
      rw [client.outputs_concat, List.map_append, ← hdone, ← hdeliveries]
      simp only [List.flatMap_append, List.flatMap_cons, List.flatMap_nil, Task.deliveries,
        List.append_nil]
      rfl
    handled := h.handled }

/-- Popping the front action leaves the objects of the consumers alone, when it is no
`InitConsumer` and the registry of the consumers does not change. -/
theorem consumerHeap_visit (h : Inv client s done) {a : Action Ev} {as : List (Action Ev)}
    (hpending : s.broker.pendingActions = a :: as)
    (hsinks : (client.machine.next (client.after done) a.act).sinks = (client.after done).sinks) :
    s.broker.consumerHeap.Holds (LiveConsumer (client.machine.next (client.after done) a.act) as)
      (ConsumerOk client s.consumerHandles) := by
  refine h.consumerHeap.mono ?_ fun _ _ _ => id
  rintro c (hc | hc)
  · exact .inl (hsinks ▸ hc)
  · exact .inr (hpending ▸ List.mem_cons_of_mem _ hc)

/-- Popping the front action leaves the objects of the producers alone, when afterwards only a
producer registered before or initialised by it has one (`hlive`), and the passes left add to those
producers the consumers they miss (`hold`, `hnew`). -/
theorem producerHeap_visit (h : Inv client s done) {a : Action Ev} {as : List (Action Ev)}
    {A : PubSub.State ProducerPtr ConsumerPtr} {tasks : List (Task Ev)}
    (htodo : s.todo = [.doWork]) (hpending : s.broker.pendingActions = a :: as)
    (hlive : ∀ q, q ∈ A.sources.members ∨ .deallocate q ∈ tasks →
      q ∈ (client.after done).sources.members ∨ a = .initProducer q)
    (hold : ∀ q ∈ (client.after done).sources.members, q ∈ A.sources.members →
      (client.after done).sinks.members.filter (client.isMatch q) ++ pendingAdds client q tasks =
        A.sinks.members.filter (client.isMatch q))
    (hnew : ∀ q, a = .initProducer q →
      pendingAdds client q tasks = A.sinks.members.filter (client.isMatch q)) :
    s.broker.producerHeap.Holds (LiveProducer A (tasks ++ [.doWork]) as)
      (ProducerOk client A (tasks ++ [.doWork]) as) := by
  have hadds (q : ProducerPtr) :
      pendingAdds client q (tasks ++ [.doWork]) = pendingAdds client q tasks := by
    rw [pendingAdds_append]
    exact List.append_nil _
  have hheap := h.producerHeap
  rw [htodo, hpending] at hheap
  refine hheap.mono ?_ ?_
  · rintro q (hq | hq | hq)
    · exact (hlive q (.inl hq)).imp_right fun ha => by simp [ha]
    · exact .inr (.inl (List.mem_cons_of_mem a hq))
    · exact (hlive q (.inr (by simpa using hq))).imp_right fun ha => by simp [ha]
  · intro q me _ hme
    refine ⟨hme.id_eq, hme.topic_eq, fun hq => ?_, fun hq => ?_⟩
    · rw [hadds]
      rcases hlive q (.inl hq) with hq' | ha
      · rw [hme.consumers_eq_of_doWork hq', hold q hq' hq]
      · rw [hme.consumers_nil (ha ▸ List.mem_cons_self), hnew q ha, List.nil_append]
    · exact hme.consumers_nil (List.mem_cons_of_mem a hq)

/-- `InitProducer`: the loop of `maybe_add` is left to be done. -/
theorem visit_initProducer (h : Inv client s done) {p : ProducerPtr} {as : List (Action Ev)}
    (htodo : s.todo = [.doWork]) (hpending : s.broker.pendingActions = .initProducer p :: as) :
    ∃ b tasks, OldBroker.visit { s.broker with pendingActions := as } s.frontIndex
        (.initProducer p) = .ok (b, tasks) ∧
      Inv client { s with broker := b, todo := tasks ++ [.doWork], inHandler := false }
        (done ++ [.initProducer p]) := by
  have hfresh := Client.ok_initProducer.mp (h.ok_front hpending)
  have hne {q : ProducerPtr} (hq : q ∈ (client.after done).sources.members) : p ≠ q := by
    rintro rfl
    exact hfresh (h.wellFormed.sources.subset hq)
  refine ⟨_, _, rfl, h.visited htodo hpending rfl rfl rfl rfl
    (congrArg (· ++ [p]) h.producers_eq) h.consumers_eq ?_ ?_ ?_ ?_⟩
  · refine h.producerHeap_visit htodo hpending ?_ ?_ ?_
    · rintro q (hq | hq)
      · exact (List.mem_append.mp hq).imp_right fun hq => by rw [List.mem_singleton.mp hq]
      · simp at hq
    · intro q hq _
      rw [pendingAdds_of_producer, if_neg (hne hq)]
      exact List.append_nil _
    · intro q hq
      rw [pendingAdds_of_producer, if_pos (Action.initProducer.inj hq), h.consumers_eq]
      rfl
  · exact h.consumerHeap_visit hpending rfl
  · refine Stack.maybeAdd_of_producer ?_ ?_ .doWork
    · exact List.mem_append_right _ (List.mem_singleton_self p)
    · rw [h.consumers_eq]
      exact List.Subset.refl _
  · rw [h.frontIndex_eq, h.consumers_eq]
    exact (deliveries_maybeAdd client _ (fun _ => p) id).trans (client.delivery_announce ..).symm

/-- `Publish`: the loop of `notify` is left to be done. -/
theorem visit_publish (h : Inv client s done) {p : ProducerPtr} {ev : Ev} {as : List (Action Ev)}
    (htodo : s.todo = [.doWork]) (hpending : s.broker.pendingActions = .publish p ev :: as) :
    ∃ b tasks, OldBroker.visit { s.broker with pendingActions := as } s.frontIndex
        (.publish p ev) = .ok (b, tasks) ∧
      Inv client { s with broker := b, todo := tasks ++ [.doWork], inHandler := false }
        (done ++ [.publish p ev]) := by
  have hp := Client.ok_publish.mp (h.ok_front hpending)
  obtain ⟨me, hderef, hid, htopic, hconsumers⟩ := h.consumers_of_idle (.inr htodo) hp
  have hnotification : me.notification .event [ev] = client.notification p (.value ev) := by
    rw [ProducerImpl.notification, hid, htopic]
    rfl
  refine ⟨_, _, OldBroker.visit_publish_eq hderef,
    h.visited htodo hpending rfl rfl rfl rfl h.producers_eq h.consumers_eq ?_ ?_ ?_ ?_⟩
  · refine h.producerHeap_visit htodo hpending ?_ ?_ ?_
    · rintro q (hq | hq)
      · exact .inl hq
      · simp at hq
    · intro q hq _
      rw [pendingAdds_append, pendingAdds_notify]
      exact List.append_nil _
    · intro q hq
      cases hq
  · exact h.consumerHeap_visit hpending rfl
  · rw [List.append_assoc, hconsumers]
    exact .notify_of_subset (fun _ => List.mem_of_mem_filter) (.addNewEvent hp)
  · rw [List.flatMap_append, deliveries_notify, hnotification, hconsumers, h.frontIndex_eq]
    exact (List.append_nil _).trans (client.delivery_announce ..).symm

/-- `DestroyProducer`: the producer is found, and the loop of its destructor is left to be done. -/
theorem visit_destroyProducer (h : Inv client s done) {p : ProducerPtr} {as : List (Action Ev)}
    (htodo : s.todo = [.doWork]) (hpending : s.broker.pendingActions = .destroyProducer p :: as) :
    ∃ b tasks, OldBroker.visit { s.broker with pendingActions := as } s.frontIndex
        (.destroyProducer p) = .ok (b, tasks) ∧
      Inv client { s with broker := b, todo := tasks ++ [.doWork], inHandler := false }
        (done ++ [.destroyProducer p]) := by
  have hp := Client.ok_destroyProducer.mp (h.ok_front hpending)
  have hnodup := h.wellFormed.sources.nodup
  obtain ⟨me, hderef, hid, htopic, hconsumers⟩ := h.consumers_of_idle (.inr htodo) hp
  have hnotification : me.notification .stopProducer [] = client.notification p .stopped := by
    rw [ProducerImpl.notification, hid, htopic]
    rfl
  have hlive : ∀ q ∈ s.broker.producers,
      LiveProducer (client.after done) s.todo s.broker.pendingActions q :=
    fun q hq => .inl (h.producers_eq ▸ hq)
  have hfind := h.producerHeap.find?_same hlive (h.producers_eq ▸ hp)
  have herase := h.producerHeap.eraseP_same (.inl hp) hlive
  refine ⟨_, _, OldBroker.visit_destroyProducer_eq hfind hderef,
    h.visited htodo hpending rfl rfl rfl rfl (by rw [herase, h.producers_eq]; rfl)
      h.consumers_eq ?_ ?_ ?_ ?_⟩
  · refine h.producerHeap_visit htodo hpending ?_ ?_ ?_
    · rintro q (hq | hq)
      · exact .inl (List.mem_of_mem_erase hq)
      · obtain rfl : q = p := by simpa using hq
        exact .inl hp
    · intro q hq _
      rw [pendingAdds_append, pendingAdds_notify]
      exact List.append_nil _
    · intro q hq
      cases hq
  · exact h.consumerHeap_visit hpending rfl
  · rw [List.append_assoc, hconsumers]
    exact .notify_of_subset (fun _ => List.mem_of_mem_filter)
      (.deallocate (h.wellFormed.sources.subset hp) hnodup.not_mem_erase)
  · rw [List.flatMap_append, deliveries_notify, hnotification, hconsumers, h.frontIndex_eq]
    exact (List.append_nil _).trans (client.delivery_announce ..).symm

/-- `InitConsumer`: the loop of `maybe_add` is left to be done. -/
theorem visit_initConsumer (h : Inv client s done) {c : ConsumerPtr} {as : List (Action Ev)}
    (htodo : s.todo = [.doWork]) (hpending : s.broker.pendingActions = .initConsumer c :: as) :
    ∃ b tasks, OldBroker.visit { s.broker with pendingActions := as } s.frontIndex
        (.initConsumer c) = .ok (b, tasks) ∧
      Inv client { s with broker := b, todo := tasks ++ [.doWork], inHandler := false }
        (done ++ [.initConsumer c]) := by
  have hnodup := h.wellFormed.sources.nodup
  refine ⟨_, _, rfl, h.visited htodo hpending rfl rfl rfl rfl h.producers_eq
    (congrArg (· ++ [c]) h.consumers_eq) ?_ ?_ ?_ ?_⟩
  · refine h.producerHeap_visit htodo hpending ?_ ?_ ?_
    · rintro q (hq | hq)
      · exact .inl hq
      · simp at hq
    · intro q hq _
      rw [h.producers_eq, pendingAdds_of_consumer client hnodup hq]
      exact (List.filter_append ..).symm
    · intro q hq
      cases hq
  · refine h.consumerHeap.mono ?_ fun _ _ _ => id
    rintro d (hd | hd)
    · rcases List.mem_append.mp hd with hd | hd
      · exact .inl hd
      · rw [List.mem_singleton.mp hd, hpending]
        exact .inr List.mem_cons_self
    · exact .inr (hpending ▸ List.mem_cons_of_mem _ hd)
  · refine Stack.maybeAdd_of_consumer ?_ ?_ .doWork
    · exact List.mem_append_right _ (List.mem_singleton_self c)
    · rw [h.producers_eq]
      exact List.Subset.refl _
  · rw [h.frontIndex_eq, h.producers_eq]
    exact (deliveries_maybeAdd client _ id fun _ => c).trans
      (client.delivery_out_initConsumer ..).symm

/-- `DestroyConsumer`: the consumer is taken from every producer and from the registry. -/
theorem visit_destroyConsumer (h : Inv client s done) {c : ConsumerPtr} {as : List (Action Ev)}
    (htodo : s.todo = [.doWork]) (hpending : s.broker.pendingActions = .destroyConsumer c :: as) :
    ∃ b tasks, OldBroker.visit { s.broker with pendingActions := as } s.frontIndex
        (.destroyConsumer c) = .ok (b, tasks) ∧
      Inv client { s with broker := b, todo := tasks ++ [.doWork], inHandler := false }
        (done ++ [.destroyConsumer c]) := by
  have hc := Client.ok_destroyConsumer.mp (h.ok_front hpending)
  have hnodup := h.wellFormed.sinks.nodup
  have hlive : ∀ d ∈ (client.after done).sinks.members,
      LiveConsumer (client.after done) s.broker.pendingActions d := fun _ => .inl
  have hfind := h.consumerHeap.find?_same hlive hc
  have herase := h.consumerHeap.eraseP_same (.inl hc) hlive
  obtain ⟨producerHeap, hmodify, hproducerHeap⟩ := Heap.Holds.modifyAll
    (ProducerImpl.maybeRemove s.broker.consumerHeap c) h.wellFormed.sources.nodup h.producerHeap
    fun p hp => .inl hp
  rw [← h.producers_eq] at hmodify
  rw [← h.consumers_eq] at hfind
  refine ⟨_, _, OldBroker.visit_destroyConsumer_eq hmodify hfind,
    h.visited htodo hpending rfl (Heap.next_modifyAll hmodify) rfl rfl h.producers_eq
      (by rw [h.consumers_eq, herase]; rfl) ?_ ?_ .doWork rfl⟩
  · refine hproducerHeap.mono ?_ ?_
    · rintro q (hq | hq | hq)
      · exact .inl hq
      · exact .inr (.inl (hpending ▸ List.mem_cons_of_mem _ hq))
      · simp at hq
    · rintro q _ - ⟨me, hme, rfl⟩
      refine ⟨?_, ?_, fun hq => ?_, fun hq => ?_⟩
      · split_ifs <;> exact hme.id_eq
      · split_ifs <;> exact hme.topic_eq
      · have hregistered : q ∈ (client.after done).sources.members := hq
        rw [htodo] at hme
        have hconsumers := hme.consumers_eq_of_doWork hregistered
        rw [if_pos hregistered, ProducerImpl.maybeRemove]
        dsimp only
        rw [h.consumerHeap.eraseP_same (.inl hc) fun d hd =>
            .inl (List.mem_of_mem_filter (hconsumers ▸ hd)), hconsumers]
        refine (List.append_nil _).trans ?_
        change _ = ((client.after done).sinks.members.erase c).filter _
        rw [(hnodup.filter _).erase_eq_filter, hnodup.erase_eq_filter, List.filter_comm]
      · rw [if_neg fun hmem => ?_]
        · exact hme.consumers_nil (hpending ▸ List.mem_cons_of_mem _ hq)
        · refine Client.initProducer_notMem h.admits_pending
            ((Client.mem_producers h.admits_done).mp hmem).1 ?_
          exact hpending ▸ List.mem_cons_of_mem _ hq
  · refine (h.consumerHeap.free (.inl hc)).mono ?_ fun _ _ _ => id
    rintro d (hd | hd)
    · refine ⟨.inl (List.mem_of_mem_erase hd), ?_⟩
      rintro rfl
      exact hnodup.not_mem_erase hd
    · refine ⟨.inr (hpending ▸ List.mem_cons_of_mem _ hd), ?_⟩
      rintro rfl
      refine Client.initConsumer_notMem h.admits_pending
        ((Client.mem_consumers h.admits_done).mp hc).1 ?_
      exact hpending ▸ List.mem_cons_of_mem _ hd

/-- Between two actions, `do_work` may be called or left. -/
theorem idle (h : Inv client s done) (htodo : s.todo = [] ∨ s.todo = [.doWork])
    {todo : List (Task Ev)} (htodo' : todo = [] ∨ todo = [.doWork]) :
    Inv client { s with todo } done := by
  have hadds (p : ProducerPtr) : pendingAdds client p s.todo = pendingAdds client p todo := by
    rcases htodo with h | h <;> rcases htodo' with rfl | rfl <;> rw [h] <;> rfl
  refine { h with
    producerHeap := h.producerHeap.mono ?_ ?_
    stack := ?_
    deliveries := ?_ }
  · rintro p (hp | hp | hp)
    · exact .inl hp
    · exact .inr (.inl hp)
    · rcases htodo' with rfl | rfl <;> simp at hp
  · intro p me _ hme
    exact ⟨hme.id_eq, hme.topic_eq, fun hp => hadds p ▸ hme.consumers_eq hp, hme.consumers_nil⟩
  · rcases htodo' with rfl | rfl
    · exact .nil
    · exact .doWork
  · have hold := h.deliveries
    rcases htodo with h | h <;> rcases htodo' with rfl | rfl <;> rwa [h] at hold

/-- `do_work` ends when the queue is empty. -/
theorem doWork_nil [SnapshotHandler Ev H] (h : Inv client s done) (htodo : s.todo = [.doWork])
    (hpending : s.broker.pendingActions = []) :
    s.resume .doWork [] = { s with todo := [], inHandler := false } ∧
      Inv client (s.resume .doWork []) done := by
  rw [s.resume_eq_of_none .doWork (OldBroker.doWork_of_nil hpending)]
  exact ⟨rfl, { h.idle (.inr htodo) (.inl rfl) with }⟩

/-- A pass of the loop of `do_work` carries out the front action. -/
theorem doWork_cons [SnapshotHandler Ev H] (h : Inv client s done) (htodo : s.todo = [.doWork])
    {a : Action Ev} {as : List (Action Ev)} (hpending : s.broker.pendingActions = a :: as) :
    ∃ b tasks, OldBroker.visit { s.broker with pendingActions := as } s.frontIndex a =
        .ok (b, tasks) ∧
      s.resume .doWork [] =
        { s with broker := b, todo := tasks ++ [.doWork], inHandler := false } ∧
      Inv client (s.resume .doWork []) (done ++ [a]) := by
  have hvisit : ∃ b tasks, OldBroker.visit { s.broker with pendingActions := as } s.frontIndex a =
      .ok (b, tasks) ∧ Inv client
        { s with broker := b, todo := tasks ++ [.doWork], inHandler := false } (done ++ [a]) := by
    cases a with
    | initProducer p => exact h.visit_initProducer htodo hpending
    | destroyProducer p => exact h.visit_destroyProducer htodo hpending
    | publish p ev => exact h.visit_publish htodo hpending
    | initConsumer c => exact h.visit_initConsumer htodo hpending
    | destroyConsumer c => exact h.visit_destroyConsumer htodo hpending
  obtain ⟨b, tasks, hvisit, hinv⟩ := hvisit
  have hresume : s.resume .doWork [] =
      { s with broker := b, todo := tasks ++ [.doWork], inHandler := false } := by
    rw [s.resume_eq_of_none .doWork (OldBroker.doWork_of_cons hpending hvisit), List.append_nil]
  exact ⟨b, tasks, hvisit, hresume, hresume ▸ hinv⟩

/-- A pass of the loop of `do_work`. -/
theorem doWork [SnapshotHandler Ev H] (h : Inv client s done) (htodo : s.todo = [.doWork]) :
    ∃ done', Inv client (s.resume .doWork []) done' := by
  cases hpending : s.broker.pendingActions with
  | nil => exact ⟨done, (h.doWork_nil htodo hpending).2⟩
  | cons a as =>
    obtain ⟨b, tasks, -, -, hinv⟩ := h.doWork_cons htodo hpending
    exact ⟨done ++ [a], hinv⟩

/-! ### The passes of the other loops -/

/-- The handler of a registered consumer is replaced when `destroy_consumer` is called. -/
theorem mem_consumerHandles (h : Inv client s done) {c : ConsumerPtr}
    (hc : c ∈ (client.after done).sinks.members) :
    c ∈ s.consumerHandles ↔ .destroyConsumer c ∉ s.log := by
  rw [h.consumerHandles_eq, Client.mem_consumers h.admits, and_iff_right]
  rw [h.log_eq]
  exact List.mem_append_left _ ((Client.mem_consumers h.admits_done).mp hc).1

/-- A task that makes no call of `notify` and changes at most the objects of the producers. -/
theorem silent (h : Inv client s done) {task : Task Ev} {rest : List (Task Ev)}
    {producerHeap : Heap (ProducerImpl H)} (htodo : s.todo = task :: rest)
    (hnext : producerHeap.next = s.broker.producerHeap.next)
    (hheap : producerHeap.Holds (LiveProducer (client.after done) rest s.broker.pendingActions)
      (ProducerOk client (client.after done) rest s.broker.pendingActions))
    (hstack : Stack (client.after done) rest) (htask : task.deliveries client = []) :
    Inv client { s with broker := { s.broker with producerHeap }, todo := rest, inHandler := false }
      done :=
  { h with
    producers_made := h.producers_made.trans (congrArg List.range hnext.symm)
    currentStreamId_eq := by
      change s.broker.currentStreamId = _
      rw [h.currentStreamId_eq, ← hnext]
    producerHeap := hheap
    stack := hstack
    deliveries := by
      have hold := h.deliveries
      rwa [htodo, List.flatMap_cons, htask, List.nil_append] at hold }

/-- A task that makes the call of `notify` described by `d`, and changes at most the objects of the
producers. -/
theorem dispatch (h : Inv client s done) {task : Task Ev} {rest : List (Task Ev)} {d : Dispatch Ev}
    {producerHeap : Heap (ProducerImpl H)} {consumer : ConsumerImpl} (htodo : s.todo = task :: rest)
    (hnext : producerHeap.next = s.broker.producerHeap.next)
    (hheap : producerHeap.Holds (LiveProducer (client.after done) rest s.broker.pendingActions)
      (ProducerOk client (client.after done) rest s.broker.pendingActions))
    (hstack : Stack (client.after done) rest) (htask : task.deliveries client = [d.delivery])
    (hc : d.consumer ∈ (client.after done).sinks.members)
    (hconsumer : ConsumerOk client s.consumerHandles d.consumer consumer)
    (hhandler : d.handler = consumer.notify) {inHandler : Bool} :
    Inv client { s with
      broker := { s.broker with producerHeap }
      todo := rest
      inHandler
      history := s.history ++ [.dispatched d] } done := by
  have hlog : History.log (s.history ++ [.dispatched d]) = s.log := History.log_dispatched ..
  exact { h with
    log_eq := hlog.trans h.log_eq
    admits := by
      rw [System.log, hlog]
      exact h.admits
    producerHandles_eq := by
      rw [System.log, hlog]
      exact h.producerHandles_eq
    consumerHandles_eq := by
      rw [System.log, hlog]
      exact h.consumerHandles_eq
    producers_made := by
      rw [System.log, hlog]
      exact h.producers_made.trans (congrArg List.range hnext.symm)
    consumers_made := by
      rw [System.log, hlog]
      exact h.consumers_made
    currentStreamId_eq := by
      change s.broker.currentStreamId = _
      rw [h.currentStreamId_eq, ← hnext]
    producerHeap := hheap
    stack := hstack
    deliveries := by
      have hold := h.deliveries
      rw [htodo, List.flatMap_cons, htask] at hold
      rw [← hold, System.dispatches, History.dispatches_dispatched, List.map_append,
        List.append_assoc]
      rfl
    handled := by
      refine h.handled.dispatched (fun hdestroy => ?_) fun hdestroy => ?_
      · rw [hhandler, hconsumer.notify_eq, if_neg]
        exact fun hmem => (h.mem_consumerHandles hc).mp hmem hdestroy
      · rw [hhandler, hconsumer.notify_eq, if_pos ((h.mem_consumerHandles hc).mpr hdestroy)] }

/-- A task that adds no consumer to a producer leaves the objects of the producers alone. -/
theorem producerHeap_pop (h : Inv client s done) {task : Task Ev} {rest : List (Task Ev)}
    (htodo : s.todo = task :: rest) (htask : ∀ p, task.added client p = none) :
    s.broker.producerHeap.Holds (LiveProducer (client.after done) rest s.broker.pendingActions)
      (ProducerOk client (client.after done) rest s.broker.pendingActions) := by
  refine h.producerHeap.mono (fun p hp => hp.imp_right (Or.imp_right fun hp => ?_)) ?_
  · exact htodo ▸ List.mem_cons_of_mem _ hp
  · intro p me _ hme
    refine ⟨hme.id_eq, hme.topic_eq, fun hp => ?_, hme.consumers_nil⟩
    rw [← hme.consumers_eq hp, htodo, pendingAdds, pendingAdds, List.filterMap_cons, htask]

theorem notify [SnapshotHandler Ev H] (h : Inv client s done) {i : ℕ} {p : ProducerPtr}
    {c : ConsumerPtr} {m : NotificationImpl Ev} {rest : List (Task Ev)}
    (htodo : s.todo = .notify i p c m :: rest) (hc : c ∈ (client.after done).sinks.members)
    (hrest : Stack (client.after done) rest) :
    Inv client (s.resume (.notify i p c m) rest) done := by
  obtain ⟨consumer, hderef, hconsumer⟩ := h.consumerHeap.object (.inl hc)
  rw [s.resume_eq_of_some (.notify i p c m) (OldBroker.notify_eq hderef)]
  exact h.dispatch htodo rfl (h.producerHeap_pop htodo fun _ => rfl) hrest rfl hc hconsumer rfl

/-- A call of `notify` changes nothing but the history. -/
theorem skip_notify [SnapshotHandler Ev H] (h : Inv client s done) {i : ℕ} {p : ProducerPtr}
    {c : ConsumerPtr} {m : NotificationImpl Ev} {rest : List (Task Ev)}
    (htodo : s.todo = .notify i p c m :: rest) :
    ∃ d, Inv client { s with todo := rest, history := s.history ++ [.dispatched d] } done := by
  have hstack := h.stack
  rw [htodo] at hstack
  cases hstack with
  | notify hc hrest =>
    obtain ⟨consumer, hderef, -⟩ := h.consumerHeap.object (.inl hc)
    have hinv := h.notify htodo hc hrest
    rw [s.resume_eq_of_some (.notify i p c m) (OldBroker.notify_eq hderef)] at hinv
    exact ⟨_, { hinv with }⟩

/-- The code's test is the match of the client's filter with the client's topic. -/
theorem isMatch_eq {A : PubSub.State ProducerPtr ConsumerPtr} {todo : List (Task Ev)}
    {pending : List (Action Ev)} {p : ProducerPtr} {producer : ProducerImpl H}
    (hproducer : ProducerOk client A todo pending p producer) (c : ConsumerPtr) :
    producer.isMatch (client.filter c) = client.isMatch p c := by
  rw [ProducerImpl.isMatch, hproducer.topic_eq]
  rfl

theorem maybeAdd [SnapshotHandler Ev H] (h : Inv client s done) {i : ℕ} {p : ProducerPtr}
    {c : ConsumerPtr} {rest : List (Task Ev)} (htodo : s.todo = .maybeAdd i p c :: rest)
    (hp : p ∈ (client.after done).sources.members) (hc : c ∈ (client.after done).sinks.members)
    (hrest : Stack (client.after done) rest) :
    Inv client (s.resume (.maybeAdd i p c) rest) done := by
  obtain ⟨producer, hpderef, hproducer⟩ := h.producerHeap.object (.inl hp)
  obtain ⟨consumer, hcderef, hconsumer⟩ := h.consumerHeap.object (.inl hc)
  have hmatch_eq : producer.isMatch consumer.filter = client.isMatch p c := by
    rw [hconsumer.filter_eq, isMatch_eq hproducer]
  by_cases hmatch : client.isMatch p c
  · have hnotification : producer.notification .startProducer [] =
        client.notification p .started := by
      rw [ProducerImpl.notification, hproducer.id_eq, hproducer.topic_eq]
      rfl
    rw [s.resume_eq_of_some (.maybeAdd i p c)
      (OldBroker.maybeAdd_of_isMatch hpderef hcderef (hmatch_eq ▸ hmatch))]
    refine h.dispatch htodo (Heap.next_write ..) ?_ hrest ?_ hc hconsumer rfl
    · refine (h.producerHeap.write (.inl hp) ?_ ?_).mono (fun q hq => hq.imp_right
        (Or.imp_right fun hq => htodo ▸ List.mem_cons_of_mem _ hq)) fun _ _ _ => id
      · -- the consumer moves from the loop to the list of `p`
        refine ⟨hproducer.id_eq, hproducer.topic_eq, fun _ => ?_, fun hinit => ?_⟩
        · rw [← hproducer.consumers_eq hp, htodo]
          simp [pendingAdds, Task.added, hmatch]
        · exact absurd hinit (Client.initProducer_notMem h.admits_pending
            ((Client.mem_producers h.admits_done).mp hp).1)
      · intro q me _ hqp hme
        refine ⟨hme.id_eq, hme.topic_eq, fun hq => ?_, hme.consumers_nil⟩
        rw [← hme.consumers_eq hq, htodo]
        simp [pendingAdds, Task.added, Ne.symm hqp]
    · rw [Task.deliveries, if_pos hmatch, ← hnotification]
      rfl
  · rw [s.resume_eq_of_none (.maybeAdd i p c)
      (OldBroker.maybeAdd_of_not_isMatch hpderef hcderef (hmatch_eq ▸ hmatch)), List.nil_append]
    refine h.silent htodo rfl (h.producerHeap_pop htodo fun q => ?_) hrest (if_neg hmatch)
    refine if_neg ?_
    rintro ⟨rfl, hq⟩
    exact hmatch hq

theorem addNewEvent [SnapshotHandler Ev H] (h : Inv client s done) {p : ProducerPtr} {ev : Ev}
    (htodo : s.todo = [.addNewEvent p ev, .doWork])
    (hp : p ∈ (client.after done).sources.members) :
    Inv client (s.resume (.addNewEvent p ev) [.doWork]) done := by
  obtain ⟨producer, hderef, hproducer⟩ := h.producerHeap.object (.inl hp)
  rw [s.resume_eq_of_none (.addNewEvent p ev) (OldBroker.addNewEvent_eq hderef), List.nil_append]
  refine h.silent htodo rfl ?_ .doWork rfl
  have hpop := h.producerHeap_pop htodo fun _ => rfl
  obtain ⟨producer', hderef', hproducer'⟩ := hpop.object (.inl hp)
  obtain rfl : producer = producer' := Option.some.inj (hderef.symm.trans hderef')
  refine hpop.write (.inl hp) ?_ fun _ _ _ _ => id
  exact ⟨hproducer'.id_eq, hproducer'.topic_eq, hproducer'.consumers_eq, hproducer'.consumers_nil⟩

theorem deallocate [SnapshotHandler Ev H] (h : Inv client s done) {p : ProducerPtr}
    (htodo : s.todo = [.deallocate p, .doWork]) (hpast : p ∈ (client.after done).sources.past)
    (hp : p ∉ (client.after done).sources.members) :
    Inv client (s.resume (.deallocate p) [.doWork]) done := by
  have hinit : .initProducer p ∉ s.broker.pendingActions :=
    Client.initProducer_notMem h.admits_pending (Client.mem_pastProducers.mp hpast)
  rw [s.resume_eq_of_none (.deallocate p) rfl, List.nil_append]
  refine h.silent htodo rfl ?_ .doWork rfl
  have hlive : LiveProducer (client.after done) s.todo s.broker.pendingActions p :=
    .inr (.inr (htodo ▸ List.mem_cons_self))
  refine (h.producerHeap.free hlive).mono ?_ ?_
  · rintro q (hq | hq | hq)
    · exact ⟨.inl hq, fun hqp => hp (hqp ▸ hq)⟩
    · exact ⟨.inr (.inl hq), fun hqp => hinit (hqp ▸ hq)⟩
    · simp at hq
  · intro q me _ hme
    refine ⟨hme.id_eq, hme.topic_eq, fun hq => ?_, hme.consumers_nil⟩
    rw [← hme.consumers_eq hq, htodo]
    rfl

/-- A pass of a loop inside `do_work` keeps the invariant, and carries out no further action. -/
theorem resume_pass [SnapshotHandler Ev H] (h : Inv client s done) {task : Task Ev}
    {rest : List (Task Ev)} (htodo : s.todo = task :: rest) (htask : task ≠ .doWork) :
    Inv client (s.resume task rest) done := by
  have hstack := h.stack
  rw [htodo] at hstack
  cases hstack with
  | doWork => exact absurd rfl htask
  | addNewEvent hp => exact h.addNewEvent htodo hp
  | deallocate hpast hp => exact h.deallocate htodo hpast hp
  | maybeAdd hp hc hrest => exact h.maybeAdd htodo hp hc hrest
  | notify hc hrest => exact h.notify htodo hc hrest

/-- The loop of `do_work` is the last of its tasks. -/
theorem rest_of_doWork (h : Inv client s done) {rest : List (Task Ev)}
    (htodo : s.todo = .doWork :: rest) : rest = [] := by
  have hstack := h.stack
  rw [htodo] at hstack
  cases hstack
  rfl

/-- The next task of `do_work` keeps the invariant. -/
theorem resume [SnapshotHandler Ev H] (h : Inv client s done) {task : Task Ev}
    {rest : List (Task Ev)} (htodo : s.todo = task :: rest) :
    ∃ done', Inv client (s.resume task rest) done' := by
  by_cases htask : task = .doWork
  · subst htask
    obtain rfl := h.rest_of_doWork htodo
    exact h.doWork htodo
  · exact ⟨done, h.resume_pass htodo htask⟩

/-- A call of the client keeps the invariant, and carries out nothing. -/
theorem step_call [SnapshotHandler Ev H] (h : Inv client s done) {l : Label Ev}
    (hl : l ≠ .doWork ∧ l ≠ .resume) (hstep : s.step client l = some s') : Inv client s' done := by
  cases System.effect_of_step hstep with
  | makeProducer _ ha => exact h.makeProducer ha
  | publish _ hp => exact h.publish hp _
  | destroyProducer _ hp => exact h.destroyProducer hp
  | makeConsumer _ ha => exact h.makeConsumer ha
  | destroyConsumer _ hc => exact h.destroyConsumer hc
  | doWork => exact absurd rfl hl.1
  | resume => exact absurd rfl hl.2

/-- Every step keeps the invariant. -/
theorem step [SnapshotHandler Ev H] (h : Inv client s done) {l : Label Ev}
    (hstep : s.step client l = some s') : ∃ done', Inv client s' done' := by
  by_cases hl : l ≠ .doWork ∧ l ≠ .resume
  · exact ⟨done, h.step_call hl hstep⟩
  · cases System.effect_of_step hstep with
    | doWork htodo => exact ⟨done, h.idle (.inl htodo) (.inr rfl)⟩
    | resume htodo => exact h.resume htodo
    | _ => simp at hl

theorem init (client : Client Ev H) : Inv client (.init client) [] where
  noFault := rfl
  log_eq := rfl
  admits := trivial
  producers_eq := rfl
  consumers_eq := rfl
  producerHandles_eq := rfl
  consumerHandles_eq := rfl
  producers_made := rfl
  consumers_made := rfl
  currentStreamId_eq := (UInt64.add_zero _).symm
  producerHeap := Heap.Holds.empty.mono (fun p hp => by rcases hp with hp | hp | hp <;> cases hp)
    fun _ _ _ => id
  consumerHeap := Heap.Holds.empty.mono (fun c hc => by rcases hc with hc | hc <;> cases hc)
    fun _ _ _ => id
  stack := .nil
  deliveries := rfl
  handled h₁ d h₂ heq := by simp [System.init] at heq

end Inv

/-- **Every run keeps the invariant**, whatever the order of the calls, the handlers and the
addresses. -/
theorem inv_of_reachable [SnapshotHandler Ev H] {client : Client Ev H} {s : System Ev H}
    (h : Transition.Reachable (System.step client) (.init client) s) :
    ∃ done, Inv client s done :=
  Transition.Reachable.invariant (P := fun s => ∃ done, Inv client s done)
    (fun _ _ _ ⟨_, hinv⟩ hstep => hinv.step hstep) ⟨[], Inv.init client⟩ h

end Keryx
