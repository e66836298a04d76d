import Keryx.Broker.Batching

/-!
# What one pass of `do_work` does

In a run of the broker nothing goes wrong, so every pass of a loop of `do_work` is one of a few
things. They are listed here once, with the actions that the pass takes out of the queue, the broker
after it and the tasks that it leaves to be done next. Registries are searched by address; among the
objects that exist, that finds the object itself.

## Main definitions

* `Pass` — what one pass does to the broker.
* `System.carriedOut` — the actions that `do_work` has taken out of the queue.
* `System.due` — the notifications that these actions give rise to.
* `System.Refines` — the broker is in a state of the abstract publish–subscribe model.

## Main results

* `Inv.pass` — every pass of a run is one of them, and keeps the invariant.
* `refines_pubSub` — in every run the broker refines the abstract model.

Source: `src/lib/broker/OldBroker.cpp`, lines 50–80 and 128–134; `ProducerImpl.cpp`, lines 41–71.
-/

namespace Keryx

variable {Ev H : Type} [SnapshotHandler Ev H]

/-- What one pass does: the task, the actions it takes out of the queue, the broker after it, and
the tasks that are to be done next. -/
inductive Pass (b : OldBroker Ev H) :
    Task Ev → List (Action Ev) → OldBroker Ev H → List (Task Ev) → Prop
  /-- `do_work` finds the queue empty and returns. -/
  | leave (hpending : b.pendingActions = []) : Pass b .doWork [] b []
  | initProducer {i p as} (hpending : b.pendingActions = .initProducer p :: as) :
      Pass b .doWork [.initProducer p]
        { b with pendingActions := as, producers := b.producers ++ [p] }
        (b.consumers.map (.maybeAdd i p) ++ [.doWork])
  | publish {i p ev as me} (hpending : b.pendingActions = .publish p ev :: as)
      (hderef : b.producerHeap.deref p = some me) :
      Pass b .doWork [.publish p ev] { b with pendingActions := as }
        (me.consumers.map (.notify i p · (me.notification .event [ev])) ++
          [.addNewEvent p ev, .doWork])
  | destroyProducer {i p as me} (hpending : b.pendingActions = .destroyProducer p :: as)
      (hderef : b.producerHeap.deref p = some me) :
      Pass b .doWork [.destroyProducer p]
        { b with pendingActions := as, producers := b.producers.erase p }
        (me.consumers.map (.notify i p · (me.notification .stopProducer [])) ++
          [.deallocate p, .doWork])
  | initConsumer {i c as} (hpending : b.pendingActions = .initConsumer c :: as) :
      Pass b .doWork [.initConsumer c]
        { b with pendingActions := as, consumers := b.consumers ++ [c] }
        (b.producers.map (.maybeAdd i · c) ++ [.doWork])
  | destroyConsumer {c as producerHeap} (hpending : b.pendingActions = .destroyConsumer c :: as)
      (hmodify : b.producerHeap.modifyAll (ProducerImpl.maybeRemove b.consumerHeap c)
        b.producers = some producerHeap) :
      Pass b .doWork [.destroyConsumer c]
        { b with
          pendingActions := as
          producerHeap
          consumers := b.consumers.erase c
          consumerHeap := b.consumerHeap.free c }
        [.doWork]
  /-- A matching consumer is pushed and notified. -/
  | push {i p c me} (hderef : b.producerHeap.deref p = some me) :
      Pass b (.maybeAdd i p c) []
        { b with producerHeap :=
            b.producerHeap.write p { me with consumers := me.consumers ++ [c] } } []
  /-- A consumer does not match. -/
  | skip {i p c} : Pass b (.maybeAdd i p c) [] b []
  | notify {i p c m} : Pass b (.notify i p c m) [] b []
  | addNewEvent {p ev me} (hderef : b.producerHeap.deref p = some me) :
      Pass b (.addNewEvent p ev) []
        { b with producerHeap := b.producerHeap.write p { me with
            snapshotHandler := SnapshotHandler.addNewEvent me.snapshotHandler ev } } []
  | deallocate {p} :
      Pass b (.deallocate p) [] { b with producerHeap := b.producerHeap.free p } []

/-- The actions that `do_work` has taken out of the queue. -/
def System.carriedOut (s : System Ev H) : List (Action Ev) := s.log.take s.frontIndex

/-- The notifications that the actions carried out give rise to, when they are carried out one after
the other and no handler throws. -/
def System.due (client : Client Ev H) (s : System Ev H) : List (Delivery Ev) :=
  (client.outputs s.carriedOut).map client.delivery

omit [SnapshotHandler Ev H] in
theorem System.carriedOut_eq {s : System Ev H} {done : List (Action Ev)}
    (h : s.log = done ++ s.broker.pendingActions) : s.carriedOut = done := by
  rw [carriedOut, frontIndex, h, List.length_append, Nat.add_sub_cancel, List.take_left' rfl]

/-- The broker is in a state of publish–subscribe: its registries are those of the abstract model
after the actions carried out, its client has the handles that the whole log leaves it, and all
calls of `notify`, those made and those that the running loop has still to make, are the messages of
the abstract model, in order. -/
structure System.Refines (client : Client Ev H) (s : System Ev H) : Prop where
  admits : client.Admits s.log
  log_eq : s.log = s.carriedOut ++ s.broker.pendingActions
  producers_eq : s.broker.producers = (client.after s.carriedOut).sources.members
  consumers_eq : s.broker.consumers = (client.after s.carriedOut).sinks.members
  producerHandles_eq : s.producerHandles = (client.after s.log).sources.members
  consumerHandles_eq : s.consumerHandles = (client.after s.log).sinks.members
  deliveries_eq : s.dispatches.map Dispatch.delivery ++ s.todo.flatMap (Task.deliveries client) =
    s.due client

namespace Inv

variable {client : Client Ev H} {s : System Ev H} {done : List (Action Ev)}

omit [SnapshotHandler Ev H] in
theorem carriedOut_eq (h : Inv client s done) : s.carriedOut = done := System.carriedOut_eq h.log_eq

omit [SnapshotHandler Ev H] in
theorem refines (h : Inv client s done) : s.Refines client where
  admits := h.admits
  log_eq := by rw [h.carriedOut_eq, h.log_eq]
  producers_eq := by rw [h.carriedOut_eq, h.producers_eq]
  consumers_eq := by rw [h.carriedOut_eq, h.consumers_eq]
  producerHandles_eq := h.producerHandles_eq
  consumerHandles_eq := h.consumerHandles_eq
  deliveries_eq := by rw [System.due, h.carriedOut_eq, h.deliveries]

/-- The pass of the loop of `do_work` that carries out the action `a`. -/
theorem pass_doWork (h : Inv client s done) (htodo : s.todo = [.doWork]) {a : Action Ev}
    {as : List (Action Ev)} (hpending : s.broker.pendingActions = a :: as) :
    ∃ b tasks, Pass s.broker .doWork [a] b tasks ∧
      s.resume .doWork [] = { s with broker := b, todo := tasks, inHandler := false } ∧
      Inv client (s.resume .doWork []) (done ++ [a]) := by
  obtain ⟨b, tasks, hvisit, hresume, hinv⟩ := h.doWork_cons htodo hpending
  refine ⟨b, tasks ++ [.doWork], ?_, hresume, hinv⟩
  cases a with
  | initProducer p =>
    cases hvisit
    exact .initProducer hpending
  | initConsumer c =>
    cases hvisit
    exact .initConsumer hpending
  | publish p ev =>
    obtain ⟨me, hderef, -⟩ := h.consumers_of_idle (.inr htodo)
      (Client.ok_publish.mp (h.ok_front hpending))
    cases hvisit.symm.trans (OldBroker.visit_publish_eq hderef)
    rw [List.append_assoc]
    exact .publish hpending hderef
  | destroyProducer p =>
    have hp := Client.ok_destroyProducer.mp (h.ok_front hpending)
    obtain ⟨me, hderef, -⟩ := h.consumers_of_idle (.inr htodo) hp
    have hlive : ∀ q ∈ s.broker.producers,
        LiveProducer (client.after done) s.todo s.broker.pendingActions q :=
      fun q hq => .inl (h.producers_eq ▸ hq)
    have hfind := h.producerHeap.find?_same hlive (h.producers_eq ▸ hp)
    cases hvisit.symm.trans (OldBroker.visit_destroyProducer_eq hfind hderef)
    rw [List.append_assoc, h.producerHeap.eraseP_same (.inl hp) hlive]
    exact .destroyProducer hpending hderef
  | destroyConsumer c =>
    have hc := Client.ok_destroyConsumer.mp (h.ok_front hpending)
    have hlive : ∀ d ∈ s.broker.consumers,
        LiveConsumer (client.after done) s.broker.pendingActions d :=
      fun d hd => .inl (h.consumers_eq ▸ hd)
    have hfind := h.consumerHeap.find?_same hlive (h.consumers_eq ▸ hc)
    cases hmodify : s.broker.producerHeap.modifyAll
        (ProducerImpl.maybeRemove s.broker.consumerHeap c) s.broker.producers with
    | none =>
      simp only [OldBroker.visit, hmodify] at hvisit
      cases hvisit
    | some producerHeap =>
      cases hvisit.symm.trans (OldBroker.visit_destroyConsumer_eq hmodify hfind)
      rw [h.consumerHeap.eraseP_same (.inl hc) hlive]
      exact .destroyConsumer hpending hmodify

/-- **What a pass does.** It keeps the invariant, and the actions it takes out of the queue are
carried out. -/
theorem pass (h : Inv client s done) {task : Task Ev} {rest : List (Task Ev)}
    (htodo : s.todo = task :: rest) : ∃ taken tasks,
      Pass s.broker task taken (s.resume task rest).broker tasks ∧
      (s.resume task rest).todo = tasks ++ rest ∧
      Inv client (s.resume task rest) (done ++ taken) := by
  by_cases htask : task = .doWork
  · subst htask
    obtain rfl := h.rest_of_doWork htodo
    cases hpending : s.broker.pendingActions with
    | nil =>
      obtain ⟨hresume, hinv⟩ := h.doWork_nil htodo hpending
      rw [hresume] at hinv ⊢
      exact ⟨[], [], .leave hpending, rfl, (List.append_nil done).symm ▸ hinv⟩
    | cons a as =>
      obtain ⟨b, tasks, hpass, hresume, hinv⟩ := h.pass_doWork htodo hpending
      rw [hresume] at hinv ⊢
      exact ⟨[a], tasks, hpass, (List.append_nil tasks).symm, hinv⟩
  · have hinv := h.resume_pass htodo htask
    suffices hpass : Pass s.broker task [] (s.resume task rest).broker [] ∧
        (s.resume task rest).todo = rest from
      ⟨[], [], hpass.1, hpass.2, (List.append_nil done).symm ▸ hinv⟩
    have hstack := h.stack
    rw [htodo] at hstack
    cases hstack with
    | doWork => exact absurd rfl htask
    | @maybeAdd i p c _ hp hc _ =>
      obtain ⟨me, hpderef, -⟩ := h.producerHeap.object (.inl hp)
      obtain ⟨consumer, hcderef, -⟩ := h.consumerHeap.object (.inl hc)
      by_cases hmatch : me.isMatch consumer.filter
      · rw [s.resume_eq_of_some (.maybeAdd i p c)
          (OldBroker.maybeAdd_of_isMatch hpderef hcderef hmatch)]
        exact ⟨.push hpderef, rfl⟩
      · rw [s.resume_eq_of_none (.maybeAdd i p c)
          (OldBroker.maybeAdd_of_not_isMatch hpderef hcderef hmatch)]
        exact ⟨.skip, rfl⟩
    | @notify i p c m _ hc _ =>
      obtain ⟨consumer, hderef, -⟩ := h.consumerHeap.object (.inl hc)
      rw [s.resume_eq_of_some (.notify i p c m) (OldBroker.notify_eq hderef)]
      exact ⟨.notify, rfl⟩
    | @addNewEvent p ev hp =>
      obtain ⟨me, hderef, -⟩ := h.producerHeap.object (.inl hp)
      rw [s.resume_eq_of_none (.addNewEvent p ev) (OldBroker.addNewEvent_eq hderef)]
      exact ⟨.addNewEvent hderef, rfl⟩
    | @deallocate p _ _ =>
      rw [s.resume_eq_of_none (.deallocate p) rfl]
      exact ⟨.deallocate, rfl⟩

/-- A step carries out further actions or none. -/
theorem exists_taken (h : Inv client s done) {s' : System Ev H} {l : Label Ev}
    (hstep : s.step client l = some s') : ∃ taken, Inv client s' (done ++ taken) := by
  by_cases hl : l ≠ .doWork ∧ l ≠ .resume
  · exact ⟨[], (List.append_nil done).symm ▸ h.step_call hl hstep⟩
  · cases System.effect_of_step hstep with
    | doWork htodo => exact ⟨[], (List.append_nil done).symm ▸ h.idle (.inl htodo) (.inr rfl)⟩
    | resume htodo =>
      obtain ⟨taken, tasks, -, -, hinv⟩ := h.pass htodo
      exact ⟨taken, hinv⟩
    | _ => simp at hl

end Inv

/-- **The broker implements publish–subscribe.** Every reachable state refines the abstract model,
also in the middle of a loop of `do_work` and inside a handler. Along a run the abstract model goes
on with the actions that `do_work` carries out. -/
theorem refines_pubSub {client : Client Ev H} {s s' : System Ev H} {ls : List (Label Ev)}
    (h : Transition.Reachable (System.step client) (.init client) s)
    (hrun : Transition.run (System.step client) s ls = some s') :
    s.Refines client ∧ s'.Refines client ∧ s.carriedOut <+: s'.carriedOut := by
  obtain ⟨done, hinv⟩ := inv_of_reachable h
  obtain ⟨done', hinv', hdone⟩ : ∃ done', Inv client s' done' ∧ done <+: done' := by
    refine Transition.run_induction _ (P := fun t => ∃ done', Inv client t done' ∧ done <+: done')
      ?_ ⟨done, hinv, List.prefix_rfl⟩ hrun
    rintro t l t' ⟨done', ht, hdone⟩ hstep
    obtain ⟨taken, ht'⟩ := ht.exists_taken hstep
    exact ⟨_, ht', hdone.trans (List.prefix_append ..)⟩
  rw [hinv.carriedOut_eq, hinv'.carriedOut_eq]
  exact ⟨hinv.refines, hinv'.refines, hdone⟩

/-- The handler of the second consumer publishes an event, and `do_work` comes to the handler of the
first one with it. -/
def midPublish : List (Label ℕ) := [.publish 0 7, .resume, .resume]

theorem refines_pubSub_of_midPublish :
    ∃ s s', Transition.run (System.step oneStream) (.init oneStream) threeActions = some s ∧
      Transition.run (System.step oneStream) s midPublish = some s' ∧ s'.inHandler ∧
      s'.dispatches.map (·.consumer) = [0, 1, 0] ∧ s'.Refines oneStream := by
  have hrun : (Transition.run (System.step oneStream) (.init oneStream)
      (threeActions ++ midPublish)).map (fun s => (s.inHandler, s.dispatches.map (·.consumer))) =
      some (true, [0, 1, 0]) := rfl
  obtain ⟨s', hs', heq⟩ := Option.map_eq_some_iff.mp hrun
  obtain ⟨s, hs, hrest⟩ := (Transition.run_append_eq_some _).mp hs'
  rw [Prod.mk.injEq] at heq
  exact ⟨s, s', hs, hrest, heq.1, heq.2, (refines_pubSub ⟨_, hs⟩ hrest).2.1⟩

end Keryx
