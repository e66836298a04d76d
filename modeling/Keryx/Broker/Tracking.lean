import Keryx.Broker.Safety

/-!
# Two brokers that do the same

The exceptions of a handler and the calls of `do_work` inside a handler leave the broker in states
that no run of `System.step` reaches. Such a broker is followed by one that behaves as the others
do: the two have the same registries, the same queue and the same consumers, but in the first one a
producer may lack some of its consumers, and a producer that the second one has freed may still be
there.

`System.Tracks` is that relation. The second system satisfies the invariant, so that every pointer
the first one follows is reached through an object of the second.

## Main definitions

* `ProducerImpl.Thinned` — a producer without some of its consumers.
* `OldBroker.Tracks`, `System.Tracks` — the relation between the two.

## Main results

* `OldBroker.Tracks.exec` — a task does the same in both brokers.
* `System.Tracks.call`, `System.Tracks.resume` — so does a step of the two systems.
-/

namespace Keryx

variable {Ev H : Type}

/-- `me` is `me'` with the consumers that `keep` accepts; the snapshot handlers may differ. -/
structure ProducerImpl.Thinned (keep : ConsumerPtr → Bool) (me me' : ProducerImpl H) : Prop where
  id_eq : me.id = me'.id
  topic_eq : me.topic = me'.topic
  consumers_eq : me.consumers = me'.consumers.filter keep

namespace ProducerImpl.Thinned

variable {keep : ConsumerPtr → Bool} {me me' : ProducerImpl H}

theorem isMatch_eq (h : Thinned keep me me') (f : StreamFilterImpl) :
    me.isMatch f = me'.isMatch f := by
  rw [ProducerImpl.isMatch, h.topic_eq]
  rfl

theorem notification_eq (h : Thinned keep me me') (kind : NotificationKind) (events : List Ev) :
    me.notification kind events = me'.notification kind events := by
  rw [ProducerImpl.notification, h.id_eq, h.topic_eq]
  rfl

/-- A kept consumer is pushed. -/
theorem push (h : Thinned keep me me') {c : ConsumerPtr} (hc : keep c) :
    Thinned keep { me with consumers := me.consumers ++ [c] }
      { me' with consumers := me'.consumers ++ [c] } where
  id_eq := h.id_eq
  topic_eq := h.topic_eq
  consumers_eq := by
    change me.consumers ++ [c] = (me'.consumers ++ [c]).filter keep
    rw [h.consumers_eq, List.filter_append, List.filter_cons_of_pos hc, List.filter_nil]

/-- `maybe_remove` takes the same consumer out of both lists, when they have no duplicates. -/
theorem maybeRemove {consumerHeap : Heap ConsumerImpl} {live : ConsumerPtr → Prop}
    {R : ConsumerPtr → ConsumerImpl → Prop} (h : Thinned keep me me')
    (hheap : consumerHeap.Holds live R) {c : ConsumerPtr} (hc : live c)
    (hlive : ∀ d ∈ me'.consumers, live d) (hnodup : me'.consumers.Nodup) :
    Thinned keep (me.maybeRemove consumerHeap c) (me'.maybeRemove consumerHeap c) where
  id_eq := h.id_eq
  topic_eq := h.topic_eq
  consumers_eq := by
    change me.consumers.eraseP _ = (me'.consumers.eraseP _).filter keep
    have hsub : ∀ d ∈ me.consumers, live d := fun d hd =>
      hlive d (List.mem_of_mem_filter (h.consumers_eq ▸ hd))
    rw [hheap.eraseP_same hc hsub, hheap.eraseP_same hc hlive, h.consumers_eq,
      (hnodup.filter keep).erase_eq_filter, hnodup.erase_eq_filter, List.filter_comm]

end ProducerImpl.Thinned

/-- The passes that are also there when the producers lack the consumers that `keep` rejects. -/
def Task.kept (keep : ProducerPtr → ConsumerPtr → Bool) : Task Ev → Bool
  | .notify _ p c _ => keep p c
  | .doWork | .maybeAdd _ _ _ | .addNewEvent _ _ | .deallocate _ => true

theorem Task.filter_kept_notify {keep : ProducerPtr → ConsumerPtr → Bool} (i : ℕ) (p : ProducerPtr)
    (m : NotificationImpl Ev) (cs : List ConsumerPtr) :
    (cs.map (Task.notify i p · m)).filter (Task.kept keep) =
      (cs.filter (keep p)).map (Task.notify i p · m) := List.filter_map

theorem Task.filter_kept_maybeAdd {α : Type} {keep : ProducerPtr → ConsumerPtr → Bool} (i : ℕ)
    (f : α → ProducerPtr) (g : α → ConsumerPtr) (l : List α) :
    (l.map fun x => (Task.maybeAdd i (f x) (g x) : Task Ev)).filter (Task.kept keep) =
      l.map fun x => Task.maybeAdd i (f x) (g x) := by
  refine List.filter_eq_self.mpr fun t ht => ?_
  obtain ⟨x, -, rfl⟩ := List.mem_map.mp ht
  rfl

namespace OldBroker

/-- The broker `b` differs from `b'` in the producers only: they lack the consumers that `keep`
rejects, and those of `dead` have not been freed. -/
structure Tracks (keep : ProducerPtr → ConsumerPtr → Bool) (dead : List ProducerPtr)
    (b b' : OldBroker Ev H) : Prop where
  producers_eq : b.producers = b'.producers
  consumers_eq : b.consumers = b'.consumers
  pendingActions_eq : b.pendingActions = b'.pendingActions
  consumerHeap_eq : b.consumerHeap = b'.consumerHeap
  currentStreamId_eq : b.currentStreamId = b'.currentStreamId
  producerHeap :
    b.producerHeap.Covers (fun p => ProducerImpl.Thinned (keep p)) dead b'.producerHeap

namespace Tracks

variable {keep : ProducerPtr → ConsumerPtr → Bool} {dead : List ProducerPtr}
  {b b' : OldBroker Ev H}

theorem enqueue (h : Tracks keep dead b b') (a : Action Ev) :
    Tracks keep dead (b.enqueue a) (b'.enqueue a) :=
  { h with pendingActions_eq := congrArg (· ++ [a]) h.pendingActions_eq }

theorem makeProducer [SnapshotHandler Ev H] (h : Tracks keep dead b b') {a : ℕ}
    (ha : b.producerHeap.cells a = none) (snapshotHandler : H) (topic : TopicImpl)
    (initialSnapshot : List Ev) :
    Tracks keep dead (b.makeProducer a snapshotHandler topic initialSnapshot)
      (b'.makeProducer a snapshotHandler topic initialSnapshot) := by
  rw [OldBroker.makeProducer, OldBroker.makeProducer, h.producerHeap.next_eq]
  refine enqueue ?_ _
  exact { h with
    currentStreamId_eq := congrArg (· + 1) h.currentStreamId_eq
    producerHeap := h.producerHeap.allocate ha
      ⟨congrArg (· + 1) h.currentStreamId_eq, rfl, List.filter_nil.symm⟩ }

theorem makeConsumer (h : Tracks keep dead b b') (a : ℕ) (f : StreamFilterImpl)
    (handler : NotificationHandlerImpl) :
    Tracks keep dead (b.makeConsumer a f handler) (b'.makeConsumer a f handler) := by
  rw [OldBroker.makeConsumer, OldBroker.makeConsumer, h.consumerHeap_eq]
  refine enqueue ?_ _
  exact { h with consumerHeap_eq := rfl }

theorem destroyConsumer (h : Tracks keep dead b b') {c : ConsumerPtr} {consumer : ConsumerImpl}
    (hc : b'.consumerHeap.deref c = some consumer) :
    ∃ b₁ b₁', b.destroyConsumer c = .ok b₁ ∧ b'.destroyConsumer c = .ok b₁' ∧
      Tracks keep dead b₁ b₁' := by
  have hb : b.consumerHeap.deref c = some consumer := by rw [h.consumerHeap_eq, hc]
  refine ⟨_, _, destroyConsumer_eq hb, destroyConsumer_eq hc, enqueue ?_ _⟩
  exact { h with consumerHeap_eq := by rw [h.consumerHeap_eq] }

/-! ### The actions -/

/-- The action `a` is carried out in both brokers, and leaves the same passes but for those of the
consumers that `keep` rejects. -/
def Visits (keep : ProducerPtr → ConsumerPtr → Bool) (dead : List ProducerPtr)
    (b b' : OldBroker Ev H) (i : ℕ) (a : Action Ev) : Prop :=
  ∃ b₁ b₁' tasks, b.visit i a = .ok (b₁, tasks.filter (Task.kept keep)) ∧
    b'.visit i a = .ok (b₁', tasks) ∧ Tracks keep dead b₁ b₁'

theorem visit_initProducer (h : Tracks keep dead b b') (i : ℕ) (p : ProducerPtr) :
    Visits keep dead b b' i (.initProducer p) := by
  refine ⟨{ b with producers := b.producers ++ [p] }, { b' with producers := b'.producers ++ [p] },
    b'.consumers.map (.maybeAdd i p), ?_, rfl, ?_⟩
  · rw [Task.filter_kept_maybeAdd i (fun _ => p) fun c => c, OldBroker.visit, h.consumers_eq]
  · exact { h with producers_eq := congrArg (· ++ [p]) h.producers_eq }

theorem visit_initConsumer (h : Tracks keep dead b b') (i : ℕ) (c : ConsumerPtr) :
    Visits keep dead b b' i (.initConsumer c) := by
  refine ⟨{ b with consumers := b.consumers ++ [c] }, { b' with consumers := b'.consumers ++ [c] },
    b'.producers.map (.maybeAdd i · c), ?_, rfl, ?_⟩
  · rw [Task.filter_kept_maybeAdd i (fun p => p) fun _ => c, OldBroker.visit, h.producers_eq]
  · exact { h with consumers_eq := congrArg (· ++ [c]) h.consumers_eq }

section

variable {live : ProducerPtr → Prop} {P : ProducerPtr → ProducerImpl H → Prop}

theorem visit_publish (h : Tracks keep dead b b') (hheap : b'.producerHeap.Holds live P) (i : ℕ)
    {p : ProducerPtr} (hp : live p) (ev : Ev) : Visits keep dead b b' i (.publish p ev) := by
  obtain ⟨x, y, hx, hy, hthin, -⟩ := h.producerHeap.object hheap hp
  refine ⟨b, b', _, ?_, visit_publish_eq hy, h⟩
  rw [visit_publish_eq hx, List.filter_append, Task.filter_kept_notify, hthin.consumers_eq,
    hthin.notification_eq]
  rfl

theorem visit_destroyProducer (h : Tracks keep dead b b') (hheap : b'.producerHeap.Holds live P)
    (i : ℕ) {p : ProducerPtr} (hp : p ∈ b'.producers) (hlive : ∀ q ∈ b'.producers, live q) :
    Visits keep dead b b' i (.destroyProducer p) := by
  obtain ⟨x, y, hx, hy, hthin, -⟩ := h.producerHeap.object hheap (hlive p hp)
  have hfind' := hheap.find?_same hlive hp
  have hfind : b.producers.find? (b.producerHeap.same p) = some p := by
    rw [h.producers_eq, h.producerHeap.same_eq, hfind']
  refine ⟨{ b with producers := b.producers.eraseP (b.producerHeap.same p) }, _, _, ?_,
    visit_destroyProducer_eq hfind' hy, ?_⟩
  · rw [visit_destroyProducer_eq hfind hx, List.filter_append, Task.filter_kept_notify,
      hthin.consumers_eq, hthin.notification_eq]
    rfl
  · exact { h with
      producers_eq := by
        change b.producers.eraseP _ = b'.producers.eraseP _
        rw [h.producers_eq, h.producerHeap.same_eq] }

theorem visit_destroyConsumer (h : Tracks keep dead b b') (hheap : b'.producerHeap.Holds live P)
    {liveConsumer : ConsumerPtr → Prop} {R : ConsumerPtr → ConsumerImpl → Prop}
    (hconsumers : b'.consumerHeap.Holds liveConsumer R)
    (hP : ∀ p me, P p me → me.consumers.Nodup ∧ ∀ c ∈ me.consumers, liveConsumer c)
    (hPremove : ∀ p me c, P p me → P p (me.maybeRemove b'.consumerHeap c)) (i : ℕ)
    {c : ConsumerPtr} (hc : c ∈ b'.consumers) (hlive : ∀ p ∈ b'.producers, live p)
    (hliveConsumer : ∀ d ∈ b'.consumers, liveConsumer d) :
    Visits keep dead b b' i (.destroyConsumer c) := by
  have hfind' := hconsumers.find?_same hliveConsumer hc
  have hfind : b.consumers.find? (b.consumerHeap.same c) = some c := by
    rw [h.consumers_eq, h.consumerHeap_eq, hfind']
  obtain ⟨heap, heap', hmodify, hmodify', hcovers⟩ := h.producerHeap.modifyAll
    (ProducerImpl.maybeRemove b'.consumerHeap c) hheap hlive (fun p me => hPremove p me c)
    fun p x y hy hthin => hthin.maybeRemove hconsumers (hliveConsumer c hc) (hP p y hy).2
      (hP p y hy).1
  rw [← h.consumerHeap_eq, ← h.producers_eq] at hmodify
  refine ⟨_, _, [], visit_destroyConsumer_eq hmodify hfind,
    visit_destroyConsumer_eq hmodify' hfind', ?_⟩
  exact ⟨h.producers_eq, by rw [h.consumers_eq, h.consumerHeap_eq], h.pendingActions_eq,
    congrArg (Heap.free · c) h.consumerHeap_eq, h.currentStreamId_eq, hcovers⟩

end

/-! ### The tasks -/

section

variable {client : Client Ev H} {u : System Ev H} {done : List (Action Ev)}

/-- The action at the front of the queue is carried out in both brokers. -/
theorem visit (h : Tracks keep dead b u.broker) (hinv : Inv client u done) {a : Action Ev}
    {as : List (Action Ev)} (htodo : u.todo = [.doWork])
    (hpending : u.broker.pendingActions = a :: as) (i : ℕ) :
    Visits keep dead { b with pendingActions := as } { u.broker with pendingActions := as } i
      a := by
  have hpop : Tracks keep dead { b with pendingActions := as }
      { u.broker with pendingActions := as } := { h with pendingActions_eq := rfl }
  have hregistered := hinv.registered_front hpending
  have hlive : ∀ q ∈ u.broker.producers,
      LiveProducer (client.after done) u.todo u.broker.pendingActions q :=
    fun q hq => .inl (hinv.producers_eq ▸ hq)
  cases a with
  | initProducer p => exact hpop.visit_initProducer i p
  | destroyProducer p => exact hpop.visit_destroyProducer hinv.producerHeap i hregistered hlive
  | publish p ev => exact hpop.visit_publish hinv.producerHeap i (hlive p hregistered) ev
  | initConsumer c => exact hpop.visit_initConsumer i c
  | destroyConsumer c =>
    have hheap : u.broker.producerHeap.Holds (· ∈ u.broker.producers) fun _ me =>
        me.consumers.Nodup ∧ ∀ d ∈ me.consumers, d ∈ u.broker.consumers := by
      refine hinv.producerHeap.mono hlive fun p me hp hme => ?_
      rw [htodo] at hme
      rw [hme.consumers_eq_of_doWork (hinv.producers_eq ▸ hp), hinv.consumers_eq]
      exact ⟨hinv.wellFormed.sinks.nodup.filter _, fun _ => List.mem_of_mem_filter⟩
    have hconsumers : u.broker.consumerHeap.Holds (· ∈ u.broker.consumers)
        (ConsumerOk client u.consumerHandles) :=
      hinv.consumerHeap.mono (fun d hd => .inl (hinv.consumers_eq ▸ hd)) fun _ _ _ => id
    refine hpop.visit_destroyConsumer hheap hconsumers (fun _ _ => id) ?_ i hregistered
      (fun _ => id) fun _ => id
    rintro p me c ⟨hnodup, hmem⟩
    exact ⟨hnodup.sublist List.eraseP_sublist, fun d hd => hmem d (List.mem_of_mem_eraseP hd)⟩

/-- **A task does the same in both brokers**, when it adds no consumer that `keep` rejects. -/
theorem exec [SnapshotHandler Ev H] (h : Tracks keep dead b u.broker) (hinv : Inv client u done)
    {task : Task Ev} {rest : List (Task Ev)} (htodo : u.todo = task :: rest)
    (hkeep : ∀ i p c, task = .maybeAdd i p c → keep p c) (i : ℕ) :
    ∃ b₁ b₁' tasks dispatched, task.exec b i = .ok ⟨b₁, tasks.filter (Task.kept keep), dispatched⟩ ∧
      task.exec u.broker i = .ok ⟨b₁', tasks, dispatched⟩ ∧ Tracks keep dead b₁ b₁' ∧
      (task ≠ .doWork → tasks = []) := by
  have hstack := hinv.stack
  rw [htodo] at hstack
  cases hstack with
  | doWork =>
    cases hpending : u.broker.pendingActions with
    | nil =>
      exact ⟨b, u.broker, [], none, doWork_of_nil (h.pendingActions_eq.trans hpending),
        doWork_of_nil hpending, h, fun _ => rfl⟩
    | cons a as =>
      obtain ⟨b₁, b₁', tasks, hvisit, hvisit', htracks⟩ := h.visit hinv htodo hpending i
      refine ⟨b₁, b₁', tasks ++ [Task.doWork], none, ?_, doWork_of_cons hpending hvisit', htracks,
        fun hne => absurd rfl hne⟩
      rw [List.filter_append]
      exact doWork_of_cons (h.pendingActions_eq.trans hpending) hvisit
  | addNewEvent hp =>
    obtain ⟨x, y, hx, hy, hthin, -⟩ := h.producerHeap.object hinv.producerHeap (.inl hp)
    refine ⟨_, _, [], none, addNewEvent_eq hx, addNewEvent_eq hy, { h with producerHeap := ?_ },
      fun _ => rfl⟩
    exact h.producerHeap.write hinv.producerHeap (.inl hp)
      ⟨hthin.id_eq, hthin.topic_eq, hthin.consumers_eq⟩
  | @deallocate p hpast hp =>
    have hlive : LiveProducer (client.after done) u.todo u.broker.pendingActions p :=
      .inr (.inr (htodo ▸ List.mem_cons_self))
    exact ⟨_, _, [], none, rfl, rfl,
      { h with producerHeap := h.producerHeap.free hinv.producerHeap hlive }, fun _ => rfl⟩
  | @maybeAdd j p c _ hp hc hrest =>
    obtain ⟨x, y, hx, hy, hthin, -⟩ := h.producerHeap.object hinv.producerHeap (.inl hp)
    obtain ⟨consumer, hderef', -⟩ := hinv.consumerHeap.object (.inl hc)
    have hderef : b.consumerHeap.deref c = some consumer := by rw [h.consumerHeap_eq, hderef']
    by_cases hmatch : y.isMatch consumer.filter
    · have hexec := maybeAdd_of_isMatch (i := j) hx hderef (hthin.isMatch_eq _ ▸ hmatch)
      rw [hthin.notification_eq] at hexec
      refine ⟨_, _, [], _, hexec, maybeAdd_of_isMatch hy hderef' hmatch,
        { h with producerHeap := ?_ }, fun _ => rfl⟩
      exact h.producerHeap.write hinv.producerHeap (.inl hp) (hthin.push (hkeep j p c rfl))
    · exact ⟨b, u.broker, [], none,
        maybeAdd_of_not_isMatch hx hderef (hthin.isMatch_eq _ ▸ hmatch),
        maybeAdd_of_not_isMatch hy hderef' hmatch, h, fun _ => rfl⟩
  | @notify j p c m _ hc hrest =>
    obtain ⟨consumer, hderef', -⟩ := hinv.consumerHeap.object (.inl hc)
    have hderef : b.consumerHeap.deref c = some consumer := by rw [h.consumerHeap_eq, hderef']
    exact ⟨b, u.broker, [], _, notify_eq hderef, notify_eq hderef', h, fun _ => rfl⟩

end

end Tracks

end OldBroker

/-! ### The systems -/

namespace System

/-- The system `s` has a broker that tracks that of `u`, the same handles and the same log, and has
not failed. -/
structure Tracks (keep : ProducerPtr → ConsumerPtr → Bool) (dead : List ProducerPtr)
    (s u : System Ev H) : Prop where
  broker : s.broker.Tracks keep dead u.broker
  producerHandles_eq : s.producerHandles = u.producerHandles
  consumerHandles_eq : s.consumerHandles = u.consumerHandles
  log_eq : s.log = u.log
  noFault : s.fault = none

namespace Tracks

variable {keep : ProducerPtr → ConsumerPtr → Bool} {dead : List ProducerPtr} {s s' u : System Ev H}
  {client : Client Ev H} {done : List (Action Ev)}

theorem init (client : Client Ev H) : Tracks keep [] (.init client) (.init client) where
  broker := ⟨rfl, rfl, rfl, rfl, rfl, .empty⟩
  producerHandles_eq := rfl
  consumerHandles_eq := rfl
  log_eq := rfl
  noFault := rfl

theorem frontIndex_eq (h : Tracks keep dead s u) : s.frontIndex = u.frontIndex := by
  rw [frontIndex, frontIndex, h.log_eq, h.broker.pendingActions_eq]

/-- A call has put the action `a` into the queues of both systems, and has left the rest of what
they are doing alone. -/
structure Called (keep : ProducerPtr → ConsumerPtr → Bool) (dead : List ProducerPtr)
    (s s' u u' : System Ev H) (a : Action Ev) : Prop where
  tracks : Tracks keep dead s' u'
  history_eq : s'.history = s.history ++ [.enqueued a]
  history_eq' : u'.history = u.history ++ [.enqueued a]
  todo_eq : s'.todo = s.todo
  todo_eq' : u'.todo = u.todo
  inHandler_eq : s'.inHandler = s.inHandler
  inHandler_eq' : u'.inHandler = u.inHandler

theorem log_enqueued (h : Tracks keep dead s u) (a : Action Ev) :
    History.log (s.history ++ [.enqueued a]) = History.log (u.history ++ [.enqueued a]) := by
  rw [History.log_enqueued, History.log_enqueued]
  exact congrArg (· ++ [a]) h.log_eq

theorem makeProducer [SnapshotHandler Ev H] (h : Tracks keep dead s u) {a : ℕ}
    (ha : s.broker.producerHeap.cells a = none) : Called keep dead s (s.makeProducer client a) u
      (u.makeProducer client a) (.initProducer u.broker.producerHeap.next) := by
  have hnext := h.broker.producerHeap.next_eq
  refine ⟨⟨?_, ?_, h.consumerHandles_eq, ?_, h.noFault⟩, ?_, rfl, rfl, rfl, rfl, rfl⟩
  · rw [System.makeProducer, System.makeProducer, hnext]
    exact h.broker.makeProducer ha ..
  · rw [System.makeProducer, System.makeProducer, hnext, h.producerHandles_eq]
  · rw [System.makeProducer, System.makeProducer, hnext]
    exact h.log_enqueued _
  · rw [System.makeProducer, hnext]

theorem makeConsumer (h : Tracks keep dead s u) (a : ℕ) : Called keep dead s
    (s.makeConsumer client a) u (u.makeConsumer client a)
      (.initConsumer u.broker.consumerHeap.next) := by
  have hheap := h.broker.consumerHeap_eq
  refine ⟨⟨?_, h.producerHandles_eq, ?_, ?_, h.noFault⟩, ?_, rfl, rfl, rfl, rfl, rfl⟩
  · rw [System.makeConsumer, System.makeConsumer, hheap]
    exact h.broker.makeConsumer ..
  · rw [System.makeConsumer, System.makeConsumer, hheap, h.consumerHandles_eq]
  · rw [System.makeConsumer, System.makeConsumer, hheap]
    exact h.log_enqueued _
  · rw [System.makeConsumer, hheap]

theorem destroyConsumer (h : Tracks keep dead s u) (hinv : Inv client u done) {c : ConsumerPtr}
    (hc : c ∈ u.consumerHandles) : Called keep dead s (s.destroyConsumer c) u (u.destroyConsumer c)
      (.destroyConsumer c) := by
  obtain ⟨consumer, hderef, -⟩ := hinv.consumerHeap.object (hinv.liveConsumer hc)
  obtain ⟨b, b', hb, hb', hbroker⟩ := h.broker.destroyConsumer hderef
  rw [System.destroyConsumer, System.destroyConsumer, hb, hb']
  exact ⟨⟨hbroker, h.producerHandles_eq, congrArg (List.erase · c) h.consumerHandles_eq,
    h.log_enqueued _, h.noFault⟩, rfl, rfl, rfl, rfl, rfl, rfl⟩

/-- **A call of the client does the same in both systems.** -/
theorem call [SnapshotHandler Ev H] (h : Tracks keep dead s u) (hinv : Inv client u done)
    {l : Label Ev} (hl : l ≠ .doWork ∧ l ≠ .resume) (hcan : u.canCall)
    (hstep : s.step client l = some s') :
    ∃ u' a, u.step client l = some u' ∧ Called keep dead s s' u u' a := by
  cases effect_of_step hstep with
  | makeProducer _ ha =>
    have ha' := h.broker.producerHeap.cells_eq_none ha
    exact ⟨_, _, if_pos (by simp [hcan, ha']), h.makeProducer ha⟩
  | publish _ hp =>
    rw [h.producerHandles_eq] at hp
    exact ⟨_, _, if_pos (by simp [hcan, hp]), ⟨h.broker.enqueue _, h.producerHandles_eq,
      h.consumerHandles_eq, h.log_enqueued _, h.noFault⟩, rfl, rfl, rfl, rfl, rfl, rfl⟩
  | @destroyProducer p _ hp =>
    rw [h.producerHandles_eq] at hp
    exact ⟨_, _, if_pos (by simp [hcan, hp]), ⟨h.broker.enqueue _,
      congrArg (List.erase · p) h.producerHandles_eq, h.consumerHandles_eq, h.log_enqueued _,
      h.noFault⟩, rfl, rfl, rfl, rfl, rfl, rfl⟩
  | @makeConsumer a _ ha =>
    rw [h.broker.consumerHeap_eq] at ha
    exact ⟨_, _, if_pos (by simp [hcan, ha]), h.makeConsumer a⟩
  | destroyConsumer _ hc =>
    rw [h.consumerHandles_eq] at hc
    exact ⟨_, _, if_pos (by simp [hcan, hc]), h.destroyConsumer hinv hc⟩
  | doWork => exact absurd rfl hl.1
  | resume => exact absurd rfl hl.2

/-- **The next task of `do_work` does the same in both systems.** -/
theorem resume [SnapshotHandler Ev H] (h : Tracks keep dead s u) (hinv : Inv client u done)
    {task : Task Ev} {rest' : List (Task Ev)} (htodo : u.todo = task :: rest')
    (hkeep : ∀ i p c, task = .maybeAdd i p c → keep p c) (rest : List (Task Ev)) :
    ∃ tasks observations, Tracks keep dead (s.resume task rest) (u.resume task rest') ∧
      (s.resume task rest).todo = tasks.filter (Task.kept keep) ++ rest ∧
      (u.resume task rest').todo = tasks ++ rest' ∧
      (s.resume task rest).history = s.history ++ observations ∧
      (u.resume task rest').history = u.history ++ observations ∧
      (s.resume task rest).inHandler = (u.resume task rest').inHandler ∧
      (task ≠ .doWork → tasks = []) := by
  obtain ⟨b, b', tasks, dispatched, hexec, hexec', hbroker, htasks⟩ :=
    h.broker.exec hinv htodo hkeep u.frontIndex
  rw [System.resume, System.resume, h.frontIndex_eq, hexec, hexec']
  refine ⟨tasks, dispatched.toList.map .dispatched, ?_, rfl, rfl, rfl, rfl, rfl, htasks⟩
  refine ⟨hbroker, h.producerHandles_eq, h.consumerHandles_eq, ?_, h.noFault⟩
  cases dispatched with
  | none => simpa [System.log] using h.log_eq
  | some d =>
    exact (History.log_dispatched ..).trans (h.log_eq.trans (History.log_dispatched ..).symm)

end Tracks

end System

end Keryx
