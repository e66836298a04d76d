import Keryx.Broker.Passes
import Keryx.Broker.TearDown

/-!
# Every object has an owner

The objects of the broker are owned by the queue, while their `InitProducer` or `InitConsumer`
waits, and then by a registry, and a producer whose destructor runs by the running `do_work`. The
broker forgets no object: what has no owner has been freed. So an object exists from the call that
made it until its destroy action has been carried out, and once the queue has been emptied the
objects that exist are those whose handles the client still has.

## Main definitions

* `Owns` — every object has an owner.

## Main results

* `Owns.step` — every step keeps this.
* `object_iff` — when an object exists.
* `tearDown_frees_all` — a tear-down that succeeds leaves no object.

Source: `src/lib/broker/OldBroker.cpp`, lines 38–126; `ProducerImpl.cpp`, lines 46–50.
-/

namespace Keryx

variable {Ev H : Type}

/-- Every object has an owner; `done` are the actions carried out so far. -/
structure Owns (client : Client Ev H) (s : System Ev H) (done : List (Action Ev)) : Prop where
  producers : s.broker.producerHeap.Owned
    (LiveProducer (client.after done) s.todo s.broker.pendingActions)
  consumers : s.broker.consumerHeap.Owned
    (LiveConsumer (client.after done) s.broker.pendingActions)

/-! ### Owners change -/

section Owners

variable {A A' : PubSub.State ProducerPtr ConsumerPtr} {todo todo' : List (Task Ev)}
  {pending pending' : List (Action Ev)}

theorem LiveProducer.concat {p : ProducerPtr} (h : LiveProducer A todo pending p) (a : Action Ev) :
    LiveProducer A todo (pending ++ [a]) p :=
  h.imp_right (Or.imp_left (List.mem_append_left _))

theorem LiveConsumer.concat {c : ConsumerPtr} (h : LiveConsumer A pending c) (a : Action Ev) :
    LiveConsumer A (pending ++ [a]) c := h.imp_right (List.mem_append_left _)

/-- The action at the front is carried out: a producer that waited for it is registered, one that is
destroyed belongs to the running `do_work`, and the others keep their owners. -/
theorem LiveProducer.pop {client : Client Ev H} {p : ProducerPtr} {a : Action Ev}
    {as : List (Action Ev)} {tasks : List (Task Ev)}
    (h : LiveProducer A [.doWork] (a :: as) p)
    (hadd : a = .initProducer p → p ∈ (client.machine.next A a.act).sources.members)
    (hkeep : p ∈ A.sources.members →
      p ∈ (client.machine.next A a.act).sources.members ∨ .deallocate p ∈ tasks) :
    LiveProducer (client.machine.next A a.act) tasks as p := by
  rcases h with hp | hp | hp
  · exact (hkeep hp).imp_right .inr
  · rcases List.mem_cons.mp hp with rfl | hp
    · exact .inl (hadd rfl)
    · exact .inr (.inl hp)
  · simp at hp

theorem LiveConsumer.pop {client : Client Ev H} {c : ConsumerPtr} {a : Action Ev}
    {as : List (Action Ev)} (h : LiveConsumer A (a :: as) c)
    (hadd : a = .initConsumer c → c ∈ (client.machine.next A a.act).sinks.members)
    (hkeep : c ∈ A.sinks.members → c ∈ (client.machine.next A a.act).sinks.members) :
    LiveConsumer (client.machine.next A a.act) as c := by
  rcases h with hc | hc
  · exact .inl (hkeep hc)
  · rcases List.mem_cons.mp hc with rfl | hc
    · exact .inl (hadd rfl)
    · exact .inr hc

/-- A pass ends nothing but the deallocation it makes. -/
theorem LiveProducer.tail {p : ProducerPtr} {task : Task Ev} {rest : List (Task Ev)}
    (h : LiveProducer A (task :: rest) pending p) (htask : task ≠ .deallocate p) :
    LiveProducer A rest pending p :=
  h.imp_right (Or.imp_right fun hp => (List.mem_cons.mp hp).resolve_left (Ne.symm htask))

end Owners

namespace Owns

variable {client : Client Ev H} {s s' : System Ev H} {done : List (Action Ev)}

theorem init (client : Client Ev H) : Owns client (.init client) [] := ⟨.empty, .empty⟩

/-- The calls of the client put their objects into the queue. -/
theorem call [SnapshotHandler Ev H] (h : Owns client s done) (hinv : Inv client s done)
    {l : Label Ev} (hl : l ≠ .doWork ∧ l ≠ .resume) (hstep : s.step client l = some s') :
    Owns client s' done := by
  cases System.effect_of_step hstep with
  | makeProducer =>
    refine ⟨(h.producers.allocate _ _).mono ?_, h.consumers.mono fun c hc => hc.concat _⟩
    rintro p (hp | rfl)
    · exact hp.concat _
    · exact .inr (.inl (List.mem_append_right _ (List.mem_singleton_self _)))
  | makeConsumer =>
    refine ⟨h.producers.mono fun p hp => hp.concat _, (h.consumers.allocate _ _).mono ?_⟩
    rintro c (hc | rfl)
    · exact hc.concat _
    · exact .inr (List.mem_append_right _ (List.mem_singleton_self _))
  | publish | destroyProducer =>
    exact ⟨h.producers.mono fun p hp => hp.concat _, h.consumers.mono fun c hc => hc.concat _⟩
  | destroyConsumer _ hc =>
    obtain ⟨me, hderef, -⟩ := hinv.consumerHeap.object (hinv.liveConsumer hc)
    rw [System.destroyConsumer, OldBroker.destroyConsumer_eq hderef]
    exact ⟨h.producers.mono fun p hp => hp.concat _,
      (h.consumers.write _ _).mono fun c hc => hc.concat _⟩
  | doWork => exact absurd rfl hl.1
  | resume => exact absurd rfl hl.2

/-- The producers, when the running `do_work` carries out the action at the front. -/
theorem producers_pop (h : Owns client s done) (hinv : Inv client s done) {rest : List (Task Ev)}
    (htodo : s.todo = .doWork :: rest) {a : Action Ev} {as : List (Action Ev)}
    (hpending : s.broker.pendingActions = a :: as) {tasks : List (Task Ev)}
    (hadd : ∀ p, a = .initProducer p →
      p ∈ (client.machine.next (client.after done) a.act).sources.members)
    (hkeep : ∀ p ∈ (client.after done).sources.members,
      p ∈ (client.machine.next (client.after done) a.act).sources.members ∨
        .deallocate p ∈ tasks) :
    s.broker.producerHeap.Owned (LiveProducer (client.after (done ++ [a])) (tasks ++ rest) as) := by
  obtain rfl := hinv.rest_of_doWork htodo
  have hproducers := h.producers
  rw [htodo, hpending] at hproducers
  rw [client.after_concat, List.append_nil]
  exact hproducers.mono fun p hp => hp.pop (hadd p) (hkeep p)

/-- The consumers, when the running `do_work` carries out the action at the front. -/
theorem consumers_pop (h : Owns client s done) {a : Action Ev} {as : List (Action Ev)}
    (hpending : s.broker.pendingActions = a :: as)
    (hadd : ∀ c, a = .initConsumer c →
      c ∈ (client.machine.next (client.after done) a.act).sinks.members)
    (hkeep : (client.after done).sinks.members ⊆
      (client.machine.next (client.after done) a.act).sinks.members) :
    s.broker.consumerHeap.Owned (LiveConsumer (client.after (done ++ [a])) as) := by
  have hconsumers := h.consumers
  rw [hpending] at hconsumers
  rw [client.after_concat]
  exact hconsumers.mono fun c hc => hc.pop (hadd c) fun hmem => hkeep hmem

/-- **One pass of `do_work`.** -/
theorem pass [SnapshotHandler Ev H] (h : Owns client s done) (hinv : Inv client s done)
    {task : Task Ev} {rest : List (Task Ev)} (htodo : s.todo = task :: rest)
    {taken : List (Action Ev)} {b : OldBroker Ev H} {tasks : List (Task Ev)}
    (hpass : Pass s.broker task taken b tasks) :
    b.producerHeap.Owned (LiveProducer (client.after (done ++ taken)) (tasks ++ rest)
        b.pendingActions) ∧
      b.consumerHeap.Owned (LiveConsumer (client.after (done ++ taken)) b.pendingActions) := by
  have hproducers := h.producers
  have hconsumers := h.consumers
  rw [htodo] at hproducers
  cases hpass with
  | leave =>
    rw [List.append_nil]
    exact ⟨hproducers.mono fun p hp => hp.tail (by simp), hconsumers⟩
  | initProducer hpending =>
    refine ⟨h.producers_pop hinv htodo hpending (fun p heq => ?_) fun p hp => ?_,
      h.consumers_pop hpending (by simp) (List.Subset.refl _)⟩
    · cases heq
      exact List.mem_append_right _ (List.mem_singleton_self _)
    · exact .inl (List.mem_append_left _ hp)
  | publish hpending =>
    exact ⟨h.producers_pop hinv htodo hpending (by simp) fun p hp => .inl hp,
      h.consumers_pop hpending (by simp) (List.Subset.refl _)⟩
  | @destroyProducer _ p _ _ hpending =>
    refine ⟨h.producers_pop hinv htodo hpending (by simp) fun q hq => ?_,
      h.consumers_pop hpending (by simp) (List.Subset.refl _)⟩
    by_cases hqp : q = p
    · exact .inr (by simp [hqp])
    · exact .inl ((List.mem_erase_of_ne hqp).mpr hq)
  | initConsumer hpending =>
    refine ⟨h.producers_pop hinv htodo hpending (by simp) fun p hp => .inl hp,
      h.consumers_pop hpending (fun c heq => ?_) (List.subset_append_left _ _)⟩
    cases heq
    exact List.mem_append_right _ (List.mem_singleton_self _)
  | destroyConsumer hpending hmodify =>
    rw [hpending] at hconsumers
    refine ⟨(h.producers_pop hinv htodo hpending (by simp) fun p hp => .inl hp).modifyAll _ hmodify,
      ?_⟩
    rw [client.after_concat]
    refine (hconsumers.free _).mono fun d hd => hd.1.pop (by simp) fun hmem => ?_
    exact (List.mem_erase_of_ne hd.2).mpr hmem
  | push | addNewEvent =>
    rw [List.append_nil]
    exact ⟨(hproducers.write _ _).mono fun p hp => hp.tail (by simp), hconsumers⟩
  | skip | notify =>
    rw [List.append_nil]
    exact ⟨hproducers.mono fun p hp => hp.tail (by simp), hconsumers⟩
  | deallocate =>
    rw [List.append_nil]
    refine ⟨(hproducers.free _).mono fun q hq => hq.1.tail ?_, hconsumers⟩
    exact fun heq => hq.2 (Task.deallocate.inj heq).symm

/-- `do_work` is called. -/
theorem enter (h : Owns client s done) (htodo : s.todo = []) :
    Owns client { s with todo := [.doWork] } done := by
  refine ⟨h.producers.mono fun p hp => ?_, h.consumers⟩
  exact hp.imp_right (Or.imp_right fun hp => by simp [htodo] at hp)

/-- The running `do_work` goes on. -/
theorem resume [SnapshotHandler Ev H] (h : Owns client s done) (hinv : Inv client s done)
    {task : Task Ev} {rest : List (Task Ev)} (htodo : s.todo = task :: rest)
    {taken : List (Action Ev)} {tasks : List (Task Ev)}
    (hpass : Pass s.broker task taken (s.resume task rest).broker tasks)
    (htodo' : (s.resume task rest).todo = tasks ++ rest) :
    Owns client (s.resume task rest) (done ++ taken) := by
  obtain ⟨hproducers, hconsumers⟩ := h.pass hinv htodo hpass
  exact ⟨htodo'.symm ▸ hproducers, hconsumers⟩

/-- Every step keeps the owners. -/
theorem step [SnapshotHandler Ev H] (h : Owns client s done) (hinv : Inv client s done)
    {l : Label Ev} (hstep : s.step client l = some s') :
    ∃ done', Inv client s' done' ∧ Owns client s' done' := by
  by_cases hl : l ≠ .doWork ∧ l ≠ .resume
  · exact ⟨done, hinv.step_call hl hstep, h.call hinv hl hstep⟩
  · cases System.effect_of_step hstep with
    | doWork htodo => exact ⟨done, hinv.idle (.inl htodo) (.inr rfl), h.enter htodo⟩
    | resume htodo =>
      obtain ⟨taken, tasks, hpass, htodo', hinv'⟩ := hinv.pass htodo
      exact ⟨_, hinv', h.resume hinv htodo hpass htodo'⟩
    | _ => simp at hl

end Owns

theorem owns_of_reachable [SnapshotHandler Ev H] {client : Client Ev H} {s : System Ev H}
    (h : Transition.Reachable (System.step client) (.init client) s) :
    ∃ done, Inv client s done ∧ Owns client s done :=
  h.invariant (P := fun s => ∃ done, Inv client s done ∧ Owns client s done)
    (fun _ _ _ ⟨_, hinv, howns⟩ hstep => howns.step hinv hstep) ⟨[], .init client, .init client⟩

/-! ### When an object exists -/

section Lifetime

variable {client : Client Ev H} {s : System Ev H} {done : List (Action Ev)}

/-- A producer is registered when its `DestroyProducer` is carried out. -/
theorem Client.mem_of_destroyProducer {L₁ L₂ : List (Action Ev)} {p : ProducerPtr}
    (h : client.Admits (L₁ ++ .destroyProducer p :: L₂)) :
    client.Admits L₁ ∧ p ∈ (client.after L₁).sources.members :=
  have hsplit := (client.admits_append _ _).mp h
  ⟨hsplit.1, Client.ok_destroyProducer.mp hsplit.2.1⟩

/-- A consumer is registered when its `DestroyConsumer` is carried out. -/
theorem Client.mem_of_destroyConsumer {L₁ L₂ : List (Action Ev)} {c : ConsumerPtr}
    (h : client.Admits (L₁ ++ .destroyConsumer c :: L₂)) :
    client.Admits L₁ ∧ c ∈ (client.after L₁).sinks.members :=
  have hsplit := (client.admits_append _ _).mp h
  ⟨hsplit.1, Client.ok_destroyConsumer.mp hsplit.2.1⟩

/-- A producer has an owner as long as the client has its handle or its `DestroyProducer` waits or
is carried out. -/
theorem Inv.liveProducer_iff (h : Inv client s done) (p : ProducerPtr) :
    LiveProducer (client.after done) s.todo s.broker.pendingActions p ↔
      p ∈ s.producerHandles ∨ .destroyProducer p ∈ s.broker.pendingActions ∨
        .deallocate p ∈ s.todo := by
  have hlog := h.log_eq
  have hhandle (hinit : .initProducer p ∈ s.log) (hdone : .destroyProducer p ∉ done)
      (hpending : .destroyProducer p ∉ s.broker.pendingActions) : p ∈ s.producerHandles := by
    rw [h.producerHandles_eq, Client.mem_producers h.admits]
    exact ⟨hinit, hlog ▸ fun hmem => (List.mem_append.mp hmem).elim hdone hpending⟩
  constructor
  · intro hp
    by_cases hdestroy : .destroyProducer p ∈ s.broker.pendingActions
    · exact .inr (.inl hdestroy)
    rcases hp with hp | hp | hp
    · obtain ⟨hinit, hdone⟩ := (Client.mem_producers h.admits_done).mp hp
      exact .inl (hhandle (hlog ▸ List.mem_append_left _ hinit) hdone hdestroy)
    · refine .inl (hhandle (hlog ▸ List.mem_append_right _ hp) (fun hdone => ?_) hdestroy)
      -- it would have been initialised before
      obtain ⟨l₁, l₂, hsplit⟩ := List.append_of_mem hdone
      obtain ⟨hadmits, hmem⟩ := Client.mem_of_destroyProducer (hsplit ▸ h.admits_done)
      refine Client.initProducer_notMem h.admits_pending ?_ hp
      rw [hsplit]
      exact List.mem_append_left _ ((Client.mem_producers hadmits).mp hmem).1
    · exact .inr (.inr hp)
  · rintro (hp | hp | hp)
    · rw [h.producerHandles_eq, hlog] at hp
      exact h.liveProducer_of_mem h.admits_pending (List.Subset.refl _) hp
    · obtain ⟨l₁, l₂, hsplit⟩ := List.append_of_mem hp
      have hadmits := h.admits_pending
      rw [hsplit, ← List.append_assoc] at hadmits
      obtain ⟨hadmits, hmem⟩ := Client.mem_of_destroyProducer hadmits
      exact h.liveProducer_of_mem hadmits (hsplit ▸ List.subset_append_left _ _) hmem
    · exact .inr (.inr hp)

/-- A consumer has an owner as long as the client has its handle or its `DestroyConsumer` waits. -/
theorem Inv.liveConsumer_iff (h : Inv client s done) (c : ConsumerPtr) :
    LiveConsumer (client.after done) s.broker.pendingActions c ↔
      c ∈ s.consumerHandles ∨ .destroyConsumer c ∈ s.broker.pendingActions := by
  have hlog := h.log_eq
  have hhandle (hinit : .initConsumer c ∈ s.log) (hdone : .destroyConsumer c ∉ done)
      (hpending : .destroyConsumer c ∉ s.broker.pendingActions) : c ∈ s.consumerHandles := by
    rw [h.consumerHandles_eq, Client.mem_consumers h.admits]
    exact ⟨hinit, hlog ▸ fun hmem => (List.mem_append.mp hmem).elim hdone hpending⟩
  constructor
  · intro hc
    by_cases hdestroy : .destroyConsumer c ∈ s.broker.pendingActions
    · exact .inr hdestroy
    rcases hc with hc | hc
    · obtain ⟨hinit, hdone⟩ := (Client.mem_consumers h.admits_done).mp hc
      exact .inl (hhandle (hlog ▸ List.mem_append_left _ hinit) hdone hdestroy)
    · refine .inl (hhandle (hlog ▸ List.mem_append_right _ hc) (fun hdone => ?_) hdestroy)
      obtain ⟨l₁, l₂, hsplit⟩ := List.append_of_mem hdone
      obtain ⟨hadmits, hmem⟩ := Client.mem_of_destroyConsumer (hsplit ▸ h.admits_done)
      refine Client.initConsumer_notMem h.admits_pending ?_ hc
      rw [hsplit]
      exact List.mem_append_left _ ((Client.mem_consumers hadmits).mp hmem).1
  · rintro (hc | hc)
    · exact h.liveConsumer hc
    · obtain ⟨l₁, l₂, hsplit⟩ := List.append_of_mem hc
      have hadmits := h.admits_pending
      rw [hsplit, ← List.append_assoc] at hadmits
      obtain ⟨hadmits, hmem⟩ := Client.mem_of_destroyConsumer hadmits
      exact h.liveConsumer_of_mem hadmits (hsplit ▸ List.subset_append_left _ _) hmem

/-- **When an object exists.** In every state of every run, a `ProducerImpl` exists exactly if the
client has its handle, or its `DestroyProducer` action waits in the queue, or the running `do_work`
is about to free it; a `ConsumerImpl` exists exactly if the client has its handle or its
`DestroyConsumer` action waits. So nothing is leaked: once `do_work` has emptied the queue, the
objects that exist are those whose handles the client has. -/
theorem object_iff [SnapshotHandler Ev H]
    (h : Transition.Reachable (System.step client) (.init client) s) :
    (∀ p, (∃ a me, s.broker.producerHeap.cells a = some (p, me)) ↔
      p ∈ s.producerHandles ∨ .destroyProducer p ∈ s.broker.pendingActions ∨
        .deallocate p ∈ s.todo) ∧
    ∀ c, (∃ a me, s.broker.consumerHeap.cells a = some (c, me)) ↔
      c ∈ s.consumerHandles ∨ .destroyConsumer c ∈ s.broker.pendingActions := by
  obtain ⟨done, hinv, howns⟩ := owns_of_reachable h
  refine ⟨fun p => ?_, fun c => ?_⟩
  · rw [howns.producers.exists_cell_iff hinv.producerHeap, hinv.liveProducer_iff]
  · rw [howns.consumers.exists_cell_iff hinv.consumerHeap, hinv.liveConsumer_iff]

end Lifetime

/-- Everything is destroyed and carried out. -/
def allDestroyed : List (Label ℕ) :=
  [.makeProducer 0, .makeConsumer 0, .destroyProducer 0, .destroyConsumer 0, .doWork] ++
    List.replicate 8 .resume

theorem object_iff_of_allDestroyed :
    ∃ s, Transition.run (System.step oneStream) (.init oneStream) allDestroyed = some s ∧
      s.log.length = 4 ∧ (∀ p a me, s.broker.producerHeap.cells a ≠ some (p, me)) ∧
      ∀ c a me, s.broker.consumerHeap.cells a ≠ some (c, me) := by
  have hrun : (Transition.run (System.step oneStream) (.init oneStream) allDestroyed).map
      (fun s => (s.log.length, s.producerHandles, s.consumerHandles, s.broker.pendingActions,
        s.todo)) = some (4, [], [], [], []) := rfl
  obtain ⟨s, hs, heq⟩ := Option.map_eq_some_iff.mp hrun
  simp only [Prod.mk.injEq] at heq
  obtain ⟨hlog, hproducers, hconsumers, hpending, htodo⟩ := heq
  have hreachable : Transition.Reachable (System.step oneStream) (.init oneStream) s := ⟨_, hs⟩
  obtain ⟨hp, hc⟩ := object_iff hreachable
  refine ⟨s, hs, hlog, fun p a me hcell => ?_, fun c a me hcell => ?_⟩
  · have hmem := (hp p).mp ⟨a, me, hcell⟩
    rw [hproducers, hpending, htodo] at hmem
    simp at hmem
  · have hmem := (hc c).mp ⟨a, me, hcell⟩
    rw [hconsumers, hpending] at hmem
    simp at hmem

/-! ### Tear-down -/

namespace OldBroker

variable {b b' : OldBroker Ev H} {live : ProducerPtr → Prop} {liveConsumer : ConsumerPtr → Prop}

/-- A destructor that succeeds frees its object and touches nothing else. -/
theorem eq_of_destroyProducerImpl {p : ProducerPtr} (h : b.destroyProducerImpl p = .ok b') :
    b' = { b with producerHeap := b.producerHeap.free p } := by
  cases hp : b.producerHeap.deref p with
  | none =>
    rw [destroyProducerImpl, derefProducer, hp] at h
    cases h
  | some me =>
    rw [destroyProducerImpl_eq hp] at h
    cases hnotify : b.notifyAll p (me.notification .stopProducer []) me.consumers with
    | error f =>
      rw [hnotify] at h
      cases h
    | ok =>
      rw [hnotify] at h
      exact (Except.ok.inj h).symm

/-- The first loop frees the objects that wait in the queue. -/
theorem owned_foldlM_destroyAction {as : List (Action Ev)} {b b' : OldBroker Ev H}
    (hproducers : b.producerHeap.Owned fun p => live p ∨ .initProducer p ∈ as)
    (hconsumers : b.consumerHeap.Owned fun c => liveConsumer c ∨ .initConsumer c ∈ as)
    (h : as.foldlM destroyAction b = .ok b') :
    b'.producerHeap.Owned live ∧ b'.consumerHeap.Owned liveConsumer ∧
      b'.producers = b.producers ∧ b'.consumers = b.consumers := by
  induction as generalizing b with
  | nil =>
    cases h
    exact ⟨hproducers.mono (by simp), hconsumers.mono (by simp), rfl, rfl⟩
  | cons a as ih =>
    rw [List.foldlM_cons] at h
    cases a with
    | initProducer p =>
      cases hdestroy : b.destroyProducerImpl p with
      | error f =>
        rw [destroyAction, hdestroy] at h
        cases h
      | ok b₁ =>
        rw [destroyAction, hdestroy] at h
        obtain rfl := eq_of_destroyProducerImpl hdestroy
        refine ih (b := { b with producerHeap := b.producerHeap.free p })
          ((hproducers.free p).mono fun q hq => ?_) (hconsumers.mono ?_) h
        · exact hq.1.imp_right fun hmem => by simpa [hq.2] using hmem
        · simp
    | initConsumer c =>
      refine ih (b := b.destroyConsumerImpl c) (hproducers.mono ?_)
        ((hconsumers.free c).mono fun d hd => ?_) h
      · simp
      · exact hd.1.imp_right fun hmem => by simpa [hd.2] using hmem
    | destroyProducer p => exact ih (hproducers.mono (by simp)) (hconsumers.mono (by simp)) h
    | publish p ev => exact ih (hproducers.mono (by simp)) (hconsumers.mono (by simp)) h
    | destroyConsumer c => exact ih (hproducers.mono (by simp)) (hconsumers.mono (by simp)) h

/-- The second loop frees the registered consumers. -/
theorem owned_foldl_destroyConsumerImpl {cs : List ConsumerPtr} {b : OldBroker Ev H}
    (hconsumers : b.consumerHeap.Owned fun c => liveConsumer c ∨ c ∈ cs) :
    (cs.foldl destroyConsumerImpl b).consumerHeap.Owned liveConsumer := by
  induction cs generalizing b with
  | nil => exact hconsumers.mono (by simp)
  | cons c cs ih =>
    refine ih (b := b.destroyConsumerImpl c) ((hconsumers.free c).mono fun d hd => ?_)
    exact hd.1.imp_right fun hmem => (List.mem_cons.mp hmem).resolve_left hd.2

/-- The third loop frees the registered producers. -/
theorem owned_foldlM_destroyProducerImpl {ps : List ProducerPtr} {b b' : OldBroker Ev H}
    (hproducers : b.producerHeap.Owned fun p => live p ∨ p ∈ ps)
    (h : ps.foldlM destroyProducerImpl b = .ok b') :
    b'.producerHeap.Owned live ∧ b'.consumerHeap = b.consumerHeap := by
  induction ps generalizing b with
  | nil =>
    cases h
    exact ⟨hproducers.mono (by simp), rfl⟩
  | cons p ps ih =>
    rw [List.foldlM_cons] at h
    cases hdestroy : b.destroyProducerImpl p with
    | error f =>
      rw [hdestroy] at h
      cases h
    | ok b₁ =>
      rw [hdestroy] at h
      obtain rfl := eq_of_destroyProducerImpl hdestroy
      refine ih (b := { b with producerHeap := b.producerHeap.free p })
        ((hproducers.free p).mono fun q hq => ?_) h
      exact hq.1.imp_right fun hmem => (List.mem_cons.mp hmem).resolve_left hq.2

end OldBroker

/-- **A tear-down leaves no object.** In every reachable state with no `do_work` in progress, a
tear-down that succeeds has freed every `ProducerImpl` and every `ConsumerImpl`, those that still
wait in the queue as well as the registered ones, whether or not the client has destroyed their
handles. -/
theorem tearDown_frees_all [SnapshotHandler Ev H] {client : Client Ev H} {s : System Ev H}
    (h : Transition.Reachable (System.step client) (.init client) s) (htodo : s.todo = [])
    {b : OldBroker Ev H} (hb : s.broker.tearDown = .ok b) :
    (∀ a, b.producerHeap.cells a = none) ∧ ∀ a, b.consumerHeap.cells a = none := by
  obtain ⟨done, hinv, howns⟩ := owns_of_reachable h
  have hproducers : s.broker.producerHeap.Owned fun p =>
      p ∈ s.broker.producers ∨ .initProducer p ∈ s.broker.pendingActions := by
    refine howns.producers.mono fun p hp => ?_
    rw [htodo] at hp
    exact hp.imp (hinv.producers_eq ▸ ·) fun hp => hp.resolve_right List.not_mem_nil
  have hconsumers : s.broker.consumerHeap.Owned fun c =>
      c ∈ s.broker.consumers ∨ .initConsumer c ∈ s.broker.pendingActions :=
    howns.consumers.mono fun c hc => hc.imp_left (hinv.consumers_eq ▸ ·)
  cases hfirst : s.broker.pendingActions.foldlM OldBroker.destroyAction s.broker with
  | error f =>
    rw [OldBroker.tearDown, hfirst] at hb
    cases hb
  | ok b₁ =>
    obtain ⟨hproducers₁, hconsumers₁, hps, hcs⟩ :=
      OldBroker.owned_foldlM_destroyAction hproducers hconsumers hfirst
    obtain ⟨hheap₂, hps₂⟩ := OldBroker.producerHeap_foldl_destroyConsumerImpl b₁.consumers b₁
    have hlast : b₁.producers.foldlM OldBroker.destroyProducerImpl
        (b₁.consumers.foldl OldBroker.destroyConsumerImpl b₁) = .ok b := by
      rw [← hb, OldBroker.tearDown, hfirst, ← hps₂]
      rfl
    have hconsumers₂ : (b₁.consumers.foldl OldBroker.destroyConsumerImpl b₁).consumerHeap.Owned
        fun _ => False :=
      OldBroker.owned_foldl_destroyConsumerImpl (hconsumers₁.mono fun c hc => .inr (hcs ▸ hc))
    have hproducers₂ : (b₁.consumers.foldl OldBroker.destroyConsumerImpl b₁).producerHeap.Owned
        fun p => False ∨ p ∈ b₁.producers :=
      hheap₂ ▸ hproducers₁.mono fun p hp => .inr (hps ▸ hp)
    obtain ⟨hproducers₃, hheap₃⟩ := OldBroker.owned_foldlM_destroyProducerImpl hproducers₂ hlast
    exact ⟨hproducers₃.cells_eq_none fun _ => id, hheap₃ ▸ hconsumers₂.cells_eq_none fun _ => id⟩

/-- One producer is registered, another one and a consumer wait in the queue. -/
def waitingObjects : List (Label ℕ) :=
  [.makeProducer 0, .doWork, .resume, .resume, .makeConsumer 0, .makeProducer 1]

theorem tearDown_frees_all_of_waitingObjects :
    ∃ s b, Transition.run (System.step oneStream) (.init oneStream) waitingObjects = some s ∧
      s.broker.producers = [0] ∧ s.broker.pendingActions = [.initConsumer 0, .initProducer 1] ∧
      s.broker.tearDown = .ok b ∧ (∀ a, b.producerHeap.cells a = none) ∧
      ∀ a, b.consumerHeap.cells a = none := by
  have hrun : (Transition.run (System.step oneStream) (.init oneStream) waitingObjects).map
      (fun s => (s.todo, s.broker.producers, s.broker.pendingActions,
        s.broker.tearDown.map fun _ => ())) =
      some ([], [0], [.initConsumer 0, .initProducer 1], .ok ()) := rfl
  obtain ⟨s, hs, heq⟩ := Option.map_eq_some_iff.mp hrun
  simp only [Prod.mk.injEq] at heq
  obtain ⟨htodo, hproducers, hpending, hok⟩ := heq
  cases hb : s.broker.tearDown with
  | error f =>
    rw [hb] at hok
    cases hok
  | ok b =>
    have hreachable : Transition.Reachable (System.step oneStream) (.init oneStream) s := ⟨_, hs⟩
    exact ⟨s, b, hs, hproducers, hpending, hb, tearDown_frees_all hreachable htodo hb⟩

end Keryx
