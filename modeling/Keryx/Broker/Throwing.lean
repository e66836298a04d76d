import Keryx.Broker.Tracking

/-!
# Handlers that throw

The broker has no exception handling of its own: an exception of a handler leaves `do_work`, and
what the running loop still had to do is not done later. `InitProducer` and `InitConsumer` have
pushed their object into a registry before they call `maybe_add` for the pairs one after the other,
so the pairs that the loop had not reached are never looked at again. `Publish` changes no list.

A run with exceptions is followed by one without. When a handler throws, the second run carries out
the rest of the loop, and the pairs it adds are recorded as `abandoned`: from then on, the lists of
the producers differ in these pairs and in nothing else.

## Main definitions

* `Throwing.step` — the broker and its client, with exceptions.
* `OldBroker.Consistent` — the subscription relation.
* `OldBroker.SubscribedExcept` — the subscription relation, but for some pairs.

## Main results

* `subscribed_unless_abandoned` — what an exception does to the subscriptions.
-/

namespace Keryx

variable {Ev H : Type}

/-- The producer and the consumer of a pass of a loop of `maybe_add`. -/
def Task.pair : Task Ev → Option (ProducerPtr × ConsumerPtr)
  | .maybeAdd _ p c => some (p, c)
  | .doWork | .notify _ _ _ _ | .addNewEvent _ _ | .deallocate _ => none

/-- The task frees a producer, so the destructor of the producer is running. -/
def Task.isDeallocate : Task Ev → Bool
  | .deallocate _ => true
  | .doWork | .maybeAdd _ _ _ | .notify _ _ _ _ | .addNewEvent _ _ => false

/-- The action that `do_work` has taken out of the queue last. -/
def System.running (s : System Ev H) : Option (Action Ev) := (s.log.take s.frontIndex).getLast?

/-- A broker and its client, with the pairs whose `maybe_add` was still to be called when an
exception left the loop. -/
structure Throwing (Ev H : Type) where
  system : System Ev H
  abandoned : List (ProducerPtr × ConsumerPtr)

namespace Throwing

/-- A step without an exception, or an exception thrown by the running handler. -/
inductive Label (Ev : Type) where
  | run (l : Keryx.Label Ev)
  | throw
  deriving DecidableEq, Repr

/-- The system before the first call. -/
def init (client : Client Ev H) : Throwing Ev H := ⟨.init client, []⟩

/-- The exception leaves `do_work` and is caught by its caller; what is left of the loops is
gone. -/
def throw (t : Throwing Ev H) : Throwing Ev H where
  system := { t.system with todo := [], inHandler := false }
  abandoned := t.abandoned ++ t.system.todo.filterMap Task.pair

/-- One step. A handler that is called by the destructor of a producer does not throw: an exception
that leaves a destructor ends the program. -/
def step [SnapshotHandler Ev H] (client : Client Ev H) (t : Throwing Ev H) :
    Label Ev → Option (Throwing Ev H)
  | .run l => (t.system.step client l).map fun system => { t with system }
  | .throw =>
    if t.system.fault.isNone && t.system.inHandler && !t.system.todo.any Task.isDeallocate then
      some t.throw
    else none

end Throwing

namespace OldBroker

/-- The subscription relation: a registered consumer is in the list of a registered producer once if
it matches, and not at all otherwise. -/
def Consistent (b : OldBroker Ev H) : Prop :=
  ∀ p ∈ b.producers, ∃ me, b.producerHeap.deref p = some me ∧
    ∀ c ∈ b.consumers, me.consumers.count c = if b.isMatch me c then 1 else 0

/-- The subscription relation, but for the pairs in `lost`, which are not in the lists. -/
def SubscribedExcept (b : OldBroker Ev H) (lost : List (ProducerPtr × ConsumerPtr)) : Prop :=
  ∀ p ∈ b.producers, ∃ me, b.producerHeap.deref p = some me ∧
    ∀ c ∈ b.consumers,
      me.consumers.count c = if b.isMatch me c ∧ (p, c) ∉ lost then 1 else 0

/-- No registered pair that matches is in `lost`. -/
def NoneLost (b : OldBroker Ev H) (lost : List (ProducerPtr × ConsumerPtr)) : Prop :=
  ∀ p ∈ b.producers, ∀ me, b.producerHeap.deref p = some me →
    ∀ c ∈ b.consumers, b.isMatch me c → (p, c) ∉ lost

/-- The relation holds exactly when no pair that matches is lost. -/
theorem SubscribedExcept.consistent_iff {b : OldBroker Ev H}
    {lost : List (ProducerPtr × ConsumerPtr)} (h : b.SubscribedExcept lost) :
    b.Consistent ↔ b.NoneLost lost := by
  constructor
  · intro hconsistent p hp me hme c hc hmatch hlost
    obtain ⟨me₁, hme₁, hcount₁⟩ := h p hp
    obtain ⟨me₂, hme₂, hcount₂⟩ := hconsistent p hp
    obtain rfl : me = me₁ := Option.some.inj (hme.symm.trans hme₁)
    obtain rfl : me = me₂ := Option.some.inj (hme.symm.trans hme₂)
    have hcount := (hcount₁ c hc).symm.trans (hcount₂ c hc)
    simp [hmatch, hlost] at hcount
  · intro hnone p hp
    obtain ⟨me, hme, hcount⟩ := h p hp
    refine ⟨me, hme, fun c hc => (hcount c hc).trans (if_congr ?_ rfl rfl)⟩
    exact and_iff_left_of_imp (hnone p hp me hme c hc)

end OldBroker

/-! ### The run without exceptions -/

/-- The pairs that are not abandoned. -/
def notAbandoned (A : List (ProducerPtr × ConsumerPtr)) (p : ProducerPtr) (c : ConsumerPtr) :
    Bool :=
  decide ((p, c) ∉ A)

/-- The passes of `maybe_add` that are left are over registered producers and consumers. -/
theorem Stack.registered {A : PubSub.State ProducerPtr ConsumerPtr}
    {todo : List (Task Ev)} (h : Stack A todo) {i : ℕ} {p : ProducerPtr} {c : ConsumerPtr}
    (hmem : .maybeAdd i p c ∈ todo) : p ∈ A.sources.members ∧ c ∈ A.sinks.members := by
  induction h with
  | maybeAdd hp hc _ ih =>
    rcases List.mem_cons.mp hmem with heq | hmem
    · cases heq
      exact ⟨hp, hc⟩
    · exact ih hmem
  | notify _ _ ih =>
    rcases List.mem_cons.mp hmem with heq | hmem
    · cases heq
    · exact ih hmem
  | _ => simp at hmem

namespace Inv

variable {client : Client Ev H} {u : System Ev H} {done : List (Action Ev)}

/-- While a pass of `maybe_add` is left, its consumer is not in the list of its producer. -/
theorem notMem_consumers (h : Inv client u done) {i : ℕ} {p : ProducerPtr} {c : ConsumerPtr}
    {rest : List (Task Ev)} (htodo : u.todo = .maybeAdd i p c :: rest)
    (hp : p ∈ (client.after done).sources.members) {me : ProducerImpl H}
    (hme : ProducerOk client (client.after done) u.todo u.broker.pendingActions p me) :
    c ∉ me.consumers := by
  have hnodup := (h.wellFormed.sinks.nodup.filter (client.isMatch p))
  have hconsumers := hme.consumers_eq hp
  intro hc
  by_cases hmatch : client.isMatch p c
  · -- the pass will add `c`, so it would occur twice
    rw [← hconsumers, htodo] at hnodup
    refine List.disjoint_of_nodup_append hnodup hc ?_
    simp [pendingAdds, Task.added, hmatch]
  · have hmem : c ∈ (client.after done).sinks.members.filter (client.isMatch p) :=
      hconsumers ▸ List.mem_append_left _ hc
    exact hmatch (List.mem_filter.mp hmem).2

end Inv

namespace System.Tracks

variable {client : Client Ev H} {s u : System Ev H} {done : List (Action Ev)}
  {keep : ProducerPtr → ConsumerPtr → Bool} {dead : List ProducerPtr}

theorem skip_notify (h : Tracks keep dead s u) (rest : List (Task Ev)) (d : Dispatch Ev) :
    Tracks keep dead s { u with todo := rest, history := u.history ++ [.dispatched d] } :=
  { h with log_eq := h.log_eq.trans (History.log_dispatched ..).symm }

/-- The passes that the first system does not have are done in the second one. -/
theorem advance [SnapshotHandler Ev H] (h : Tracks keep dead s u) (hinv : Inv client u done) :
    ∃ u', Inv client u' done ∧ Tracks keep dead s u' ∧ u'.todo ⊆ u.todo ∧
      u'.todo.filter (Task.kept keep) = u.todo.filter (Task.kept keep) ∧
      ∀ task ∈ u'.todo.head?, task.kept keep := by
  induction hu : u.todo generalizing u with
  | nil => exact ⟨u, hinv, h, hu ▸ List.Subset.refl _, by rw [hu], by simp [hu]⟩
  | cons first others ih =>
    by_cases hkept : first.kept keep
    · exact ⟨u, hinv, h, hu ▸ List.Subset.refl _, by rw [hu], by simpa [hu] using hkept⟩
    · cases first with
      | notify i p c m =>
        obtain ⟨d, hinv₁⟩ := hinv.skip_notify hu
        obtain ⟨u', hinv', h', hsub, hfilter, hhead⟩ := ih (h.skip_notify others d) hinv₁ rfl
        refine ⟨u', hinv', h', List.subset_cons_of_subset _ hsub, ?_, hhead⟩
        rw [hfilter, List.filter_cons_of_neg hkept]
      | doWork => exact absurd rfl hkept
      | maybeAdd => exact absurd rfl hkept
      | addNewEvent => exact absurd rfl hkept
      | deallocate => exact absurd rfl hkept

/-- When the first system has no task left, the second one comes to an end. -/
theorem advance_nil [SnapshotHandler Ev H] (h : Tracks keep dead s u) (hinv : Inv client u done)
    (htodo : u.todo.filter (Task.kept keep) = []) :
    ∃ u', Inv client u' done ∧ Tracks keep dead s u' ∧ u'.todo = [] := by
  obtain ⟨u', hinv', h', -, hfilter, hhead⟩ := h.advance hinv
  refine ⟨u', hinv', h', ?_⟩
  cases hu' : u'.todo with
  | nil => rfl
  | cons task rest =>
    rw [hu'] at hfilter hhead
    rw [htodo, List.filter_cons_of_pos (hhead task rfl)] at hfilter
    cases hfilter

/-- The second system comes to the next task of the first one. -/
theorem advance_cons [SnapshotHandler Ev H] (h : Tracks keep dead s u) (hinv : Inv client u done)
    {task : Task Ev} {rest : List (Task Ev)}
    (htodo : u.todo.filter (Task.kept keep) = task :: rest) :
    ∃ u' rest', Inv client u' done ∧ Tracks keep dead s u' ∧ u'.todo = task :: rest' ∧
      u'.todo ⊆ u.todo ∧ rest'.filter (Task.kept keep) = rest := by
  obtain ⟨u', hinv', h', hsub, hfilter, hhead⟩ := h.advance hinv
  rw [htodo] at hfilter
  cases hu' : u'.todo with
  | nil =>
    rw [hu'] at hfilter
    cases hfilter
  | cons first others =>
    rw [hu'] at hfilter hhead
    rw [List.filter_cons_of_pos (hhead first rfl)] at hfilter
    obtain ⟨rfl, hrest⟩ := List.cons.inj hfilter
    exact ⟨u', others, hinv', h', hu', hsub, hrest⟩

end System.Tracks

section Abandon

variable {A : List (ProducerPtr × ConsumerPtr)} {p : ProducerPtr} {c : ConsumerPtr}
  {me me' : ProducerImpl H}

/-- A pair of another producer is abandoned. -/
theorem ProducerImpl.Thinned.abandon_of_ne {q : ProducerPtr} (hqp : q ≠ p)
    (h : Thinned (notAbandoned A q) me me') :
    Thinned (notAbandoned (A ++ [(p, c)]) q) me me' where
  id_eq := h.id_eq
  topic_eq := h.topic_eq
  consumers_eq := by
    rw [h.consumers_eq]
    exact List.filter_congr fun d _ => by simp [notAbandoned, hqp]

/-- A pair is abandoned whose consumer is not in the list of the producer. -/
theorem ProducerImpl.Thinned.abandon (h : Thinned (notAbandoned A p) me me')
    (hc : c ∉ me'.consumers) : Thinned (notAbandoned (A ++ [(p, c)]) p) me me' where
  id_eq := h.id_eq
  topic_eq := h.topic_eq
  consumers_eq := by
    rw [h.consumers_eq]
    refine List.filter_congr fun d hd => ?_
    have hdc : d ≠ c := by
      rintro rfl
      exact hc hd
    simp [notAbandoned, hdc]

/-- The consumer of an abandoned pair is pushed. -/
theorem ProducerImpl.Thinned.abandon_push (h : Thinned (notAbandoned A p) me me')
    (hc : c ∉ me'.consumers) : Thinned (notAbandoned (A ++ [(p, c)]) p) me
      { me' with consumers := me'.consumers ++ [c] } where
  id_eq := h.id_eq
  topic_eq := h.topic_eq
  consumers_eq := by
    change _ = (me'.consumers ++ [c]).filter _
    rw [List.filter_append, (h.abandon hc).consumers_eq]
    simp [notAbandoned]

variable [SnapshotHandler Ev H] {client : Client Ev H} {s u : System Ev H}
  {done : List (Action Ev)}

/-- A pass of `maybe_add` is done in the second system only. -/
theorem System.Tracks.abandon_maybeAdd (h : Tracks (notAbandoned A) [] s u)
    (hinv : Inv client u done) {i : ℕ} {rest : List (Task Ev)}
    (htodo : u.todo = .maybeAdd i p c :: rest) :
    ∃ u', Inv client u' done ∧ u'.todo = rest ∧ Tracks (notAbandoned (A ++ [(p, c)])) [] s u' := by
  have hstack := hinv.stack
  rw [htodo] at hstack
  cases hstack with
  | maybeAdd hp hc hrest =>
    refine ⟨_, hinv.maybeAdd htodo hp hc hrest, ?_⟩
    obtain ⟨producer, hpderef, hproducer⟩ := hinv.producerHeap.object (.inl hp)
    obtain ⟨consumer, hcderef, -⟩ := hinv.consumerHeap.object (.inl hc)
    have hnotMem := hinv.notMem_consumers htodo hp hproducer
    by_cases hmatch : producer.isMatch consumer.filter
    · rw [u.resume_eq_of_some (.maybeAdd i p c)
        (OldBroker.maybeAdd_of_isMatch hpderef hcderef hmatch)]
      refine ⟨rfl, { h with
        broker := { h.broker with producerHeap := ?_ }
        log_eq := h.log_eq.trans (History.log_dispatched ..).symm }⟩
      exact h.broker.producerHeap.write_right hinv.producerHeap (.inl hp) hpderef
        (fun _ hthin => hthin.abandon_push hnotMem) fun _ _ _ hqp hthin => hthin.abandon_of_ne hqp
    · rw [u.resume_eq_of_none (.maybeAdd i p c)
        (OldBroker.maybeAdd_of_not_isMatch hpderef hcderef hmatch)]
      refine ⟨rfl, { h with broker := { h.broker with producerHeap := ?_ } }⟩
      refine h.broker.producerHeap.mono hinv.producerHeap fun q x y hy hthin => ?_
      by_cases hqp : q = p
      · subst hqp
        exact hthin.abandon (hinv.notMem_consumers htodo hp (hy (.inl hp)))
      · exact hthin.abandon_of_ne hqp

/-- The end of `ProducerImpl::publish` is done in the second system only. -/
theorem System.Tracks.abandon_addNewEvent (h : Tracks (notAbandoned A) [] s u)
    (hinv : Inv client u done) {ev : Ev} (htodo : u.todo = [.addNewEvent p ev, .doWork]) :
    ∃ u', Inv client u' done ∧ u'.todo = [.doWork] ∧ Tracks (notAbandoned A) [] s u' := by
  have hstack := hinv.stack
  rw [htodo] at hstack
  cases hstack with
  | addNewEvent hp =>
    refine ⟨_, hinv.addNewEvent htodo hp, ?_⟩
    obtain ⟨producer, hderef, -⟩ := hinv.producerHeap.object (.inl hp)
    rw [u.resume_eq_of_none (.addNewEvent p ev) (OldBroker.addNewEvent_eq hderef)]
    refine ⟨rfl, { h with broker := { h.broker with producerHeap := ?_ } }⟩
    exact h.broker.producerHeap.write_right hinv.producerHeap (.inl hp) hderef
      (fun _ hthin => ⟨hthin.id_eq, hthin.topic_eq, hthin.consumers_eq⟩) fun _ _ _ _ => id

/-- What is left of the running loop is done in the second system only. -/
theorem System.Tracks.abandon (h : Tracks (notAbandoned A) [] s u) (hinv : Inv client u done)
    (htodo : ∀ q, .deallocate q ∉ u.todo) :
    ∃ u', Inv client u' done ∧ u'.todo = [] ∧
      Tracks (notAbandoned (A ++ u.todo.filterMap Task.pair)) [] s u' := by
  induction hu : u.todo generalizing u A with
  | nil => exact ⟨u, hinv, hu, by simpa using h⟩
  | cons task rest ih =>
    rw [hu] at htodo
    have hrest (q : ProducerPtr) : .deallocate q ∉ rest := fun hq =>
      htodo q (List.mem_cons_of_mem _ hq)
    cases task with
    | doWork =>
      have hstack := hinv.stack
      rw [hu] at hstack
      cases hstack
      have hleft : Tracks (notAbandoned A) [] s { u with todo := [] } := { h with }
      refine ⟨_, hinv.idle (.inr hu) (.inl rfl), rfl, ?_⟩
      change Tracks (notAbandoned (A ++ [])) [] s _
      rwa [List.append_nil]
    | addNewEvent p ev =>
      have hstack := hinv.stack
      rw [hu] at hstack
      cases hstack
      obtain ⟨u₁, hinv₁, htodo₁, h₁⟩ := h.abandon_addNewEvent hinv hu
      exact ih h₁ hinv₁ (htodo₁ ▸ hrest) htodo₁
    | deallocate q => exact absurd List.mem_cons_self (htodo q)
    | maybeAdd i p c =>
      obtain ⟨u₁, hinv₁, htodo₁, h₁⟩ := h.abandon_maybeAdd hinv hu
      obtain ⟨u₂, hinv₂, htodo₂, h₂⟩ := ih h₁ hinv₁ (htodo₁ ▸ hrest) htodo₁
      refine ⟨u₂, hinv₂, htodo₂, ?_⟩
      rw [List.append_assoc] at h₂
      exact h₂
    | notify i p c m =>
      obtain ⟨d, hinv₁⟩ := hinv.skip_notify hu
      exact ih (h.skip_notify rest d) hinv₁ hrest rfl

end Abandon

/-! ### The invariant -/

namespace Throwing

/-- The invariant of a run with exceptions: `u` is the system of the run without them, and `done`
are the actions carried out. The passes of `maybe_add` that are left belong to the running action,
which is the first to look at their pairs. -/
structure Follows (client : Client Ev H) (t : Throwing Ev H) (u : System Ev H)
    (done : List (Action Ev)) : Prop where
  inv : Inv client u done
  tracks : t.system.Tracks (notAbandoned t.abandoned) [] u
  todo_eq : t.system.todo = u.todo.filter (Task.kept (notAbandoned t.abandoned))
  abandoned_made : ∀ p c, (p, c) ∈ t.abandoned → .initProducer p ∈ done ∧ .initConsumer c ∈ done
  maybeAdd_new : ∀ i p c, .maybeAdd i p c ∈ u.todo → (p, c) ∉ t.abandoned ∧
    (done.getLast? = some (.initProducer p) ∨ done.getLast? = some (.initConsumer c))

variable {client : Client Ev H} {t t' : Throwing Ev H} {u : System Ev H} {done : List (Action Ev)}

theorem Follows.init (client : Client Ev H) : Follows client (.init client) (.init client) [] where
  inv := .init client
  tracks := .init client
  todo_eq := rfl
  abandoned_made _ _ h := by cases h
  maybeAdd_new _ _ _ h := by cases h

/-- The actions carried out are those that have been taken out of the queue. -/
theorem Follows.running_eq (h : Follows client t u done) : t.system.running = done.getLast? := by
  rw [System.running, System.frontIndex, h.tracks.log_eq, h.tracks.broker.pendingActions_eq,
    h.inv.log_eq, List.length_append, Nat.add_sub_cancel, List.take_left]

/-- A throw during `Publish` abandons nothing. -/
theorem Follows.abandoned_of_publish (h : Follows client t u done) {p : ProducerPtr} {ev : Ev}
    (hrunning : t.system.running = some (.publish p ev)) :
    t.system.todo.filterMap Task.pair = [] := by
  rw [h.running_eq] at hrunning
  refine List.filterMap_eq_nil_iff.mpr fun task htask => ?_
  cases task with
  | maybeAdd i q c =>
    rw [h.todo_eq] at htask
    have hnew := (h.maybeAdd_new i q c (List.mem_of_mem_filter htask)).2
    rw [hrunning] at hnew
    simp at hnew
  | _ => rfl

/-- The passes of `maybe_add` that an action leaves belong to it. -/
theorem eq_of_maybeAdd_mem {b b' : OldBroker Ev H} {i j : ℕ} {a : Action Ev} {p : ProducerPtr}
    {c : ConsumerPtr} {tasks : List (Task Ev)} (hvisit : b.visit i a = .ok (b', tasks))
    (hmem : .maybeAdd j p c ∈ tasks) : a = .initProducer p ∨ a = .initConsumer c := by
  cases a with
  | initProducer q =>
    cases hvisit
    obtain ⟨d, -, heq⟩ := List.mem_map.mp hmem
    cases heq
    exact .inl rfl
  | initConsumer d =>
    cases hvisit
    obtain ⟨q, -, heq⟩ := List.mem_map.mp hmem
    cases heq
    exact .inr rfl
  | publish q ev =>
    rw [OldBroker.visit] at hvisit
    cases hq : b.derefProducer q <;> rw [hq] at hvisit <;> cases hvisit
    simp at hmem
  | destroyProducer q =>
    rw [OldBroker.visit] at hvisit
    split at hvisit
    · cases hvisit
    · next it _ =>
      cases hq : b.derefProducer it <;> rw [hq] at hvisit <;> cases hvisit
      simp at hmem
  | destroyConsumer d =>
    rw [OldBroker.visit] at hvisit
    split at hvisit
    · cases hvisit
    · split at hvisit <;> cases hvisit
      cases hmem

variable [SnapshotHandler Ev H]

theorem Follows.call (h : Follows client t u done) {l : Keryx.Label Ev}
    (hl : l ≠ .doWork ∧ l ≠ .resume) {s' : System Ev H}
    (hstep : t.system.step client l = some s') :
    ∃ u', Follows client { t with system := s' } u' done := by
  have hinv : Inv client { u with inHandler := true } done := { h.inv with }
  have htracks : t.system.Tracks (notAbandoned t.abandoned) [] { u with inHandler := true } :=
    { h.tracks with }
  have hcan : System.canCall { u with inHandler := true } := by
    simp [System.canCall, h.inv.noFault]
  obtain ⟨u', a, hstep', hcalled⟩ := htracks.call hinv hl hcan hstep
  refine ⟨u', hinv.step_call hl hstep', hcalled.tracks, ?_, h.abandoned_made, ?_⟩
  · rw [hcalled.todo_eq, hcalled.todo_eq', h.todo_eq]
  · rw [hcalled.todo_eq']
    exact h.maybeAdd_new

/-- `do_work` is called. -/
theorem Follows.startWork (h : Follows client t u done) (htodo : t.system.todo = []) :
    ∃ u', Follows client { t with system := { t.system with todo := [.doWork] } } u' done := by
  obtain ⟨u₁, hinv, htracks, htodo₁⟩ := h.tracks.advance_nil h.inv (h.todo_eq ▸ htodo)
  refine ⟨{ u₁ with todo := [.doWork] }, hinv.idle (.inl htodo₁) (.inr rfl), { htracks with }, rfl,
    h.abandoned_made, fun i p c hmem => ?_⟩
  simp at hmem

/-- The loop of `do_work` takes an action out of the queue, or ends. -/
theorem Follows.doWork (h : Follows client t u done) (htodo : u.todo = [.doWork]) :
    ∃ u' done', Follows client { t with system := t.system.resume .doWork [] } u' done' := by
  obtain ⟨tasks, observations, htracks, hleft, hleft', -, -, -⟩ :=
    h.tracks.resume h.inv htodo (by simp) []
  rw [List.append_nil] at hleft hleft'
  cases hpending : u.broker.pendingActions with
  | nil =>
    obtain ⟨hresume, hinv⟩ := h.inv.doWork_nil htodo hpending
    refine ⟨_, done, hinv, htracks, by rw [hleft, hleft'], h.abandoned_made, fun i p c hmem => ?_⟩
    rw [hresume] at hmem
    cases hmem
  | cons a as =>
    obtain ⟨b, tasks', hvisit, hresume, hinv⟩ := h.inv.doWork_cons htodo hpending
    refine ⟨_, done ++ [a], hinv, htracks, by rw [hleft, hleft'], fun p c hmem => ?_,
      fun i p c hmem => ?_⟩
    · exact (h.abandoned_made p c hmem).imp (List.mem_append_left _) (List.mem_append_left _)
    · rw [hresume] at hmem
      have hmem : .maybeAdd i p c ∈ tasks' := by simpa using hmem
      have hok := h.inv.ok_front hpending
      rw [List.getLast?_append, List.getLast?_singleton, Option.some_or]
      -- an object is initialised once, so no pair of it has been abandoned
      rcases eq_of_maybeAdd_mem hvisit hmem with rfl | rfl
      · refine ⟨fun hlost => ?_, .inl rfl⟩
        exact Client.ok_initProducer.mp hok
          (Client.mem_pastProducers.mpr (h.abandoned_made p c hlost).1)
      · refine ⟨fun hlost => ?_, .inr rfl⟩
        exact Client.ok_initConsumer.mp hok
          (Client.mem_pastConsumers.mpr (h.abandoned_made p c hlost).2)

/-- The next task of `do_work`. -/
theorem Follows.resume (h : Follows client t u done) {task : Task Ev} {rest : List (Task Ev)}
    (htodo : t.system.todo = task :: rest) :
    ∃ u' done', Follows client { t with system := t.system.resume task rest } u' done' := by
  obtain ⟨u₁, rest₁, hinv, htracks, htodo₁, hsub, hrest⟩ :=
    h.tracks.advance_cons h.inv (h.todo_eq ▸ htodo)
  have hkept : task.kept (notAbandoned t.abandoned) := by
    have hmem : task ∈ u.todo.filter (Task.kept (notAbandoned t.abandoned)) := by
      rw [← h.todo_eq, htodo]
      exact List.mem_cons_self
    exact (List.mem_filter.mp hmem).2
  have h₁ : Follows client t u₁ done :=
    ⟨hinv, htracks, by rw [htodo, htodo₁, List.filter_cons_of_pos hkept, hrest], h.abandoned_made,
      fun i p c hmem => h.maybeAdd_new i p c (hsub hmem)⟩
  have hnew (i : ℕ) (p : ProducerPtr) (c : ConsumerPtr) (heq : task = .maybeAdd i p c) :
      notAbandoned t.abandoned p c := by
    refine decide_eq_true (h₁.maybeAdd_new i p c ?_).1
    rw [htodo₁, heq]
    exact List.mem_cons_self
  by_cases htask : task = .doWork
  · subst htask
    obtain rfl := hinv.rest_of_doWork htodo₁
    obtain rfl : rest = [] := hrest.symm
    exact h₁.doWork htodo₁
  · obtain ⟨tasks, observations, htracks', hleft, hleft', -, -, -, htasks⟩ :=
      htracks.resume hinv htodo₁ hnew rest
    rw [htasks htask] at hleft hleft'
    refine ⟨_, done, hinv.resume_pass htodo₁ htask, htracks', ?_, h.abandoned_made,
      fun i p c hmem => ?_⟩
    · rw [hleft, hleft']
      exact hrest.symm
    · rw [hleft'] at hmem
      exact h₁.maybeAdd_new i p c (htodo₁ ▸ List.mem_cons_of_mem _ hmem)

/-- An exception leaves `do_work`. -/
theorem Follows.throw (h : Follows client t u done)
    (htodo : ¬ t.system.todo.any Task.isDeallocate) : ∃ u', Follows client t.throw u' done := by
  have hdestructor (q : ProducerPtr) : .deallocate q ∉ u.todo := by
    intro hq
    refine htodo (List.any_eq_true.mpr ⟨.deallocate q, ?_, rfl⟩)
    rw [h.todo_eq]
    exact List.mem_filter.mpr ⟨hq, rfl⟩
  have hpairs : u.todo.filterMap Task.pair = t.system.todo.filterMap Task.pair := by
    rw [h.todo_eq, List.filterMap_filter]
    refine List.filterMap_congr fun task _ => ?_
    cases task with
    | notify i p c m => exact (ite_self _).symm
    | _ => rfl
  obtain ⟨u', hinv, htodo', htracks⟩ := h.tracks.abandon h.inv hdestructor
  rw [hpairs] at htracks
  refine ⟨u', hinv, { htracks with }, by rw [htodo']; rfl, fun p c hmem => ?_, fun i p c hmem => ?_⟩
  · rcases List.mem_append.mp hmem with hmem | hmem
    · exact h.abandoned_made p c hmem
    · rw [← hpairs] at hmem
      obtain ⟨task, htask, hpair⟩ := List.mem_filterMap.mp hmem
      cases task with
      | maybeAdd i q d =>
        cases hpair
        obtain ⟨hp, hc⟩ := h.inv.stack.registered htask
        exact ⟨((Client.mem_producers h.inv.admits_done).mp hp).1,
          ((Client.mem_consumers h.inv.admits_done).mp hc).1⟩
      | _ => cases hpair
  · rw [htodo'] at hmem
    cases hmem

/-- Every step keeps the invariant. -/
theorem Follows.step (h : Follows client t u done) {l : Label Ev}
    (hstep : t.step client l = some t') : ∃ u' done', Follows client t' u' done' := by
  cases l with
  | run l =>
    obtain ⟨s', hs', rfl⟩ := Option.map_eq_some_iff.mp hstep
    by_cases hl : l ≠ .doWork ∧ l ≠ .resume
    · obtain ⟨u', h'⟩ := h.call hl hs'
      exact ⟨u', done, h'⟩
    · cases System.effect_of_step hs' with
      | doWork htodo =>
        obtain ⟨u', h'⟩ := h.startWork htodo
        exact ⟨u', done, h'⟩
      | resume htodo => exact h.resume htodo
      | _ => simp at hl
  | throw =>
    obtain ⟨hguard, heq⟩ := Option.ite_none_right_eq_some.mp hstep
    rw [Bool.and_eq_true, Bool.not_eq_true'] at hguard
    obtain ⟨u', h'⟩ := h.throw (by simp [hguard.2])
    exact ⟨u', done, Option.some.inj heq ▸ h'⟩

/-- **Every run with exceptions is followed by one without.** -/
theorem exists_follows (h : Transition.Reachable (step client) (.init client) t) :
    ∃ u done, Follows client t u done :=
  Transition.Reachable.invariant (P := fun t => ∃ u done, Follows client t u done)
    (fun _ _ _ ⟨_, _, hfollows⟩ hstep => hfollows.step hstep)
    ⟨_, _, Follows.init client⟩ h

/-- Between two actions, the run without exceptions is between two actions as well. -/
theorem Follows.idle (h : Follows client t u done)
    (htodo : t.system.todo = [] ∨ t.system.todo = [.doWork]) :
    ∃ u', Inv client u' done ∧ t.system.Tracks (notAbandoned t.abandoned) [] u' ∧
      (u'.todo = [] ∨ u'.todo = [.doWork]) := by
  rcases htodo with htodo | htodo
  · obtain ⟨u', hinv, htracks, htodo'⟩ := h.tracks.advance_nil h.inv (h.todo_eq ▸ htodo)
    exact ⟨u', hinv, htracks, .inl htodo'⟩
  · obtain ⟨u', rest, hinv, htracks, htodo', -, -⟩ :=
      h.tracks.advance_cons h.inv (h.todo_eq ▸ htodo)
    obtain rfl := hinv.rest_of_doWork htodo'
    exact ⟨u', hinv, htracks, .inr htodo'⟩

/-- Between two actions, the list of a registered producer lacks the abandoned pairs and nothing
else. -/
theorem Follows.registered (h : Follows client t u done)
    (htodo : t.system.todo = [] ∨ t.system.todo = [.doWork]) {p : ProducerPtr}
    (hp : p ∈ t.system.broker.producers) :
    ∃ me, t.system.broker.producerHeap.deref p = some me ∧
      (∀ c ∈ t.system.broker.consumers, t.system.broker.isMatch me c = client.isMatch p c) ∧
      me.consumers = (t.system.broker.consumers.filter (client.isMatch p)).filter
        (notAbandoned t.abandoned p) := by
  obtain ⟨u', hinv, htracks, htodo'⟩ := h.idle htodo
  rw [htracks.broker.producers_eq, hinv.producers_eq] at hp
  rw [htracks.broker.consumers_eq, hinv.consumers_eq]
  obtain ⟨me, me', hme, hme', hthin, -⟩ :=
    htracks.broker.producerHeap.object hinv.producerHeap (.inl hp)
  obtain ⟨_, hderef, -, htopic, hconsumers⟩ := hinv.consumers_of_idle htodo' hp
  obtain rfl : me' = _ := Option.some.inj (hme'.symm.trans hderef)
  refine ⟨me, hme, fun c hc => ?_, by rw [hthin.consumers_eq, hconsumers]⟩
  rw [← hinv.isMatch_of_registered (hthin.topic_eq.trans htopic) hc, OldBroker.isMatch,
    htracks.broker.consumerHeap_eq]
  rfl

theorem Follows.subscribedExcept (h : Follows client t u done)
    (htodo : t.system.todo = [] ∨ t.system.todo = [.doWork]) :
    t.system.broker.SubscribedExcept t.abandoned := by
  intro p hp
  obtain ⟨me, hme, hmatch, hconsumers⟩ := h.registered htodo hp
  have hregistered : t.system.broker.consumers.Nodup := by
    rw [h.tracks.broker.consumers_eq, h.inv.consumers_eq]
    exact h.inv.wellFormed.sinks.nodup
  have hnodup := (hregistered.filter (client.isMatch p)).filter (notAbandoned t.abandoned p)
  refine ⟨me, hme, fun c hc => ?_⟩
  rw [hconsumers, hnodup.count, hmatch c hc]
  refine if_congr ?_ rfl rfl
  rw [List.mem_filter, List.mem_filter, and_iff_right hc, notAbandoned, decide_eq_true_iff]

end Throwing

/-- **What an exception does to the subscriptions.** In every reachable state between two actions,
whatever exceptions there were before, a registered consumer is in the list of a registered producer
once if it matches and the pair was not abandoned, and not at all otherwise. So after an exception
the subscription relation holds exactly when no pair that matches has been abandoned, by this
exception or an earlier one; an exception during `Publish` abandons none. -/
theorem subscribed_unless_abandoned [SnapshotHandler Ev H] {client : Client Ev H}
    {t : Throwing Ev H}
    (h : Transition.Reachable (Throwing.step client) (.init client) t) :
    (t.system.todo = [] ∨ t.system.todo = [.doWork] →
      t.system.broker.SubscribedExcept t.abandoned) ∧
    ∀ t', t.step client .throw = some t' →
      t'.system.broker.SubscribedExcept t'.abandoned ∧
      (t'.system.broker.Consistent ↔ t'.system.broker.NoneLost t'.abandoned) ∧
      ∀ p ev, t.system.running = some (.publish p ev) → t'.abandoned = t.abandoned := by
  obtain ⟨u, done, hfollows⟩ := Throwing.exists_follows h
  refine ⟨hfollows.subscribedExcept, fun t' hstep => ?_⟩
  obtain rfl : t.throw = t' := Option.some.inj (Option.ite_none_right_eq_some.mp hstep).2
  obtain ⟨u', done', hfollows'⟩ := hfollows.step hstep
  have hexcept := hfollows'.subscribedExcept (.inl rfl)
  refine ⟨hexcept, hexcept.consistent_iff, fun p ev hrunning => ?_⟩
  rw [Throwing.throw, hfollows.abandoned_of_publish hrunning, List.append_nil]

/-- Two consumers and a producer; the first consumer is told of the start of the producer. -/
def firstStart : List (Throwing.Label ℕ) :=
  [.run (.makeConsumer 0), .run (.makeConsumer 1), .run (.makeProducer 0), .run .doWork] ++
    List.replicate 4 (.run .resume)

/-- The exception is caught, and `do_work` is called again with an event to deliver. -/
def eventAfterThrow : List (Throwing.Label ℕ) :=
  [.throw, .run (.publish 0 5), .run .doWork] ++ List.replicate 4 (.run .resume)

theorem subscribed_unless_abandoned_of_firstStart :
    ∃ t t', Transition.run (Throwing.step oneStream) (.init oneStream) firstStart = some t ∧
      t.step oneStream .throw = some t' ∧ t'.abandoned = [(0, 1)] ∧
      t'.system.broker.SubscribedExcept [(0, 1)] := by
  have hrun : (Transition.run (Throwing.step oneStream) (.init oneStream) firstStart).bind
      (fun t => (t.step oneStream .throw).map fun t' => t'.abandoned) = some [(0, 1)] := rfl
  obtain ⟨t, ht, hthrow⟩ := Option.bind_eq_some_iff.mp hrun
  obtain ⟨t', ht', habandoned⟩ := Option.map_eq_some_iff.mp hthrow
  have hexcept := ((subscribed_unless_abandoned ⟨_, ht⟩).2 t' ht').1
  exact ⟨t, t', ht, ht', habandoned, habandoned ▸ hexcept⟩

/-- The handler of the first consumer throws in `InitProducer`: the second consumer matches, but is
not in the list of the producer, and does not get the event that is published later. -/
theorem firstStart_throw_not_consistent :
    ∃ t t' t'', Transition.run (Throwing.step oneStream) (.init oneStream) firstStart = some t ∧
      t.system.running = some (.initProducer 0) ∧ t.step oneStream .throw = some t' ∧
      ¬ t'.system.broker.Consistent ∧
      Transition.run (Throwing.step oneStream) t eventAfterThrow = some t'' ∧
      t''.system.todo = [] ∧ (t''.system.received 0).length = 2 ∧ t''.system.received 1 = [] := by
  refine ⟨_, _, _, rfl, rfl, rfl, fun h => ?_, rfl, rfl, rfl, rfl⟩
  obtain ⟨me, hme, hcount⟩ := h 0 List.mem_cons_self
  cases hme
  exact absurd (hcount 1 (by decide)) (by decide)

end Keryx
