import Keryx.Broker.Ownership

/-!
# What a snapshot handler has been given

A producer has a snapshot handler, which is given the initial snapshot when the producer is made and
every event when it has been published to the consumers. Nothing in the broker asks a handler for
its snapshot yet; what it could answer is what it has been given. That is the initial snapshot and
then the published events of its own producer, each once and in the order of the `Publish` actions,
whatever the handlers of the consumers do while an event is on its way.

## Main definitions

* `Client.snapshot` — the snapshot handler of a producer after some actions.
* `SnapshotOk` — the snapshot handler of an object, but for the events that are on their way.

## Main results

* `snapshotOk_pass` — every pass of `do_work` keeps this.
* `snapshot_eq` — the snapshot handler of every object in every run.

Source: `src/lib/broker/ProducerImpl.cpp`, lines 30–39 and 66–71; `SnapshotHandler.h`;
`OldBroker.cpp`, lines 94–104.
-/

namespace Keryx

variable {Ev H : Type}

/-! ### Events -/

/-- The event of a `Publish` of the producer `p`. -/
def Action.event (p : ProducerPtr) : Action Ev → Option Ev
  | .publish q ev => if q = p then some ev else none
  | .initProducer _ | .destroyProducer _ | .initConsumer _ | .destroyConsumer _ => none

/-- The event that a task gives to the snapshot handler of the producer `p`. -/
def Task.newEvent (p : ProducerPtr) : Task Ev → Option Ev
  | .addNewEvent q ev => if q = p then some ev else none
  | .doWork | .maybeAdd _ _ _ | .notify _ _ _ _ | .deallocate _ => none

/-- The events that the actions publish for the producer `p`. -/
def eventsOf (p : ProducerPtr) (L : List (Action Ev)) : List Ev := L.filterMap (Action.event p)

/-- The events that the tasks give to the snapshot handler of the producer `p`. -/
def newEvents (p : ProducerPtr) (todo : List (Task Ev)) : List Ev :=
  todo.filterMap (Task.newEvent p)

theorem newEvents_append (p : ProducerPtr) (todo todo' : List (Task Ev)) :
    newEvents p (todo ++ todo') = newEvents p todo ++ newEvents p todo' := List.filterMap_append

/-- A loop of `notify` or of `maybe_add` gives no event to a snapshot handler. -/
theorem newEvents_map {α : Type} (p : ProducerPtr) (l : List α) {f : α → Task Ev}
    (hf : ∀ x, Task.newEvent p (f x) = none) : newEvents p (l.map f) = [] := by
  rw [newEvents, List.filterMap_map]
  exact List.filterMap_eq_nil_iff.mpr fun x _ => hf x

/-- Only a registered producer has an event on its way. -/
theorem Stack.newEvents_eq_nil {A : PubSub.State ProducerPtr ConsumerPtr} {todo : List (Task Ev)}
    (h : Stack A todo) {p : ProducerPtr} (hp : p ∉ A.sources.members) : newEvents p todo = [] := by
  induction h with
  | nil | doWork | deallocate => rfl
  | @addNewEvent q ev hq =>
    have hqp : q ≠ p := by
      rintro rfl
      exact hp hq
    simp [newEvents, Task.newEvent, hqp]
  | maybeAdd _ _ _ ih => exact ih
  | notify _ _ ih => exact ih

/-- At most one event is on its way. -/
theorem Stack.length_newEvents_le {A : PubSub.State ProducerPtr ConsumerPtr} {todo : List (Task Ev)}
    (h : Stack A todo) (p : ProducerPtr) : (newEvents p todo).length ≤ 1 := by
  induction h with
  | nil | doWork | deallocate => exact Nat.zero_le 1
  | @addNewEvent q ev =>
    simp only [newEvents, List.filterMap_cons, Task.newEvent]
    split <;> simp
  | maybeAdd _ _ _ ih => exact ih
  | notify _ _ ih => exact ih

/-- A producer that has not been made has published nothing. -/
theorem Client.eventsOf_eq_nil {client : Client Ev H} {L : List (Action Ev)}
    (h : client.Admits L) {p : ProducerPtr} (hp : .initProducer p ∉ L) : eventsOf p L = [] := by
  refine List.filterMap_eq_nil_iff.mpr fun a ha => ?_
  cases a with
  | publish q ev =>
    refine if_neg ?_
    rintro rfl
    obtain ⟨L₁, L₂, rfl⟩ := List.append_of_mem ha
    obtain ⟨hadmits, hok, -⟩ := (client.admits_append _ _).mp h
    have hmem := (Client.mem_producers hadmits).mp (Client.ok_publish.mp hok)
    exact hp (List.mem_append_left _ hmem.1)
  | _ => rfl

/-! ### The snapshot handler of an object -/

variable [SnapshotHandler Ev H]

/-- The snapshot handler of the producer `p` after the actions `L`: it has been given the initial
snapshot, and then the published events. -/
def Client.snapshot (client : Client Ev H) (p : ProducerPtr) (L : List (Action Ev)) : H :=
  (eventsOf p L).foldl SnapshotHandler.addNewEvent
    (SnapshotHandler.init (client.snapshotHandler p) (client.initialSnapshot p))

/-- The object of the producer `p`: once its snapshot handler has been given the events that are on
their way, it has been given what the actions `done` have published. -/
def SnapshotOk (client : Client Ev H) (todo : List (Task Ev)) (done : List (Action Ev))
    (p : ProducerPtr) (me : ProducerImpl H) : Prop :=
  (newEvents p todo).foldl SnapshotHandler.addNewEvent me.snapshotHandler = client.snapshot p done

variable {client : Client Ev H} {s s' : System Ev H} {done : List (Action Ev)}

/-- An action is carried out: its event is on its way. -/
theorem SnapshotOk.visit {p : ProducerPtr} {me : ProducerImpl H} {a : Action Ev}
    {tasks : List (Task Ev)} (h : SnapshotOk client [.doWork] done p me)
    (htasks : newEvents p tasks = eventsOf p [a]) :
    SnapshotOk client tasks (done ++ [a]) p me := by
  have hme : me.snapshotHandler = client.snapshot p done := h
  rw [SnapshotOk, htasks, hme, Client.snapshot, Client.snapshot, eventsOf, eventsOf, eventsOf,
    List.filterMap_append, List.foldl_append]

/-- A call makes objects with their initial snapshot, and changes no other one. -/
theorem snapshotOk_call (hinv : Inv client s done)
    (h : s.broker.producerHeap.Every (SnapshotOk client s.todo done)) {l : Label Ev}
    (hl : l ≠ .doWork ∧ l ≠ .resume) (hstep : s.step client l = some s') :
    s'.broker.producerHeap.Every (SnapshotOk client s'.todo done) := by
  cases System.effect_of_step hstep with
  | makeProducer =>
    have hnew : .initProducer s.broker.producerHeap.next ∉ done := fun hmem => by
      have hpast : s.broker.producerHeap.next ∈ (client.after s.log).sources.past :=
        Client.mem_pastProducers.mpr (hinv.log_eq ▸ List.mem_append_left _ hmem)
      rw [hinv.producers_made] at hpast
      exact Nat.lt_irrefl _ (List.mem_range.mp hpast)
    have hmembers : s.broker.producerHeap.next ∉ (client.after done).sources.members :=
      fun hmem => hnew ((Client.mem_producers hinv.admits_done).mp hmem).1
    refine h.allocate _ ?_
    change List.foldl _ _ _ = _
    rw [Client.snapshot, hinv.stack.newEvents_eq_nil hmembers,
      Client.eventsOf_eq_nil hinv.admits_done hnew]
  | publish | destroyProducer | makeConsumer => exact h
  | destroyConsumer _ hc =>
    obtain ⟨me, hderef, -⟩ := hinv.consumerHeap.object (hinv.liveConsumer hc)
    rw [System.destroyConsumer, OldBroker.destroyConsumer_eq hderef]
    exact h
  | doWork => exact absurd rfl hl.1
  | resume => exact absurd rfl hl.2

/-- **One pass of `do_work`.** -/
theorem snapshotOk_pass (hinv : Inv client s done) (howns : Owns client s done) {task : Task Ev}
    {rest : List (Task Ev)} (htodo : s.todo = task :: rest)
    (h : s.broker.producerHeap.Every (SnapshotOk client (task :: rest) done))
    {taken : List (Action Ev)} {b : OldBroker Ev H} {tasks : List (Task Ev)}
    (hpass : Pass s.broker task taken b tasks) :
    b.producerHeap.Every (SnapshotOk client (tasks ++ rest) (done ++ taken)) := by
  cases hpass with
  | leave | skip | notify =>
    rw [List.append_nil]
    exact h
  | deallocate =>
    rw [List.append_nil]
    exact h.free _
  | initProducer | initConsumer | publish | destroyProducer =>
    -- the tasks of a loop give no event to a snapshot handler, the one after the loop may
    obtain rfl := hinv.rest_of_doWork htodo
    refine h.mono fun q me hme => hme.visit ?_
    rw [List.append_nil, newEvents_append, newEvents_map]
    · rfl
    · exact fun _ => rfl
  | destroyConsumer _ hmodify =>
    obtain rfl := hinv.rest_of_doWork htodo
    refine Heap.Every.modifyAll (fun q me hme => ?_) (h.mono fun q me hme => hme.visit rfl) hmodify
    exact hme
  | push hderef =>
    have hstack := hinv.stack
    rw [htodo] at hstack
    cases hstack with
    | maybeAdd hp =>
      rw [List.append_nil]
      exact h.write howns.producers hinv.producerHeap (.inl hp) hderef id fun _ _ _ => id
  | addNewEvent hderef =>
    have hstack := hinv.stack
    rw [htodo] at hstack
    cases hstack with
    | addNewEvent hp =>
      rw [List.append_nil]
      refine h.write howns.producers hinv.producerHeap (.inl hp) hderef (fun hme => ?_)
        fun q me hqp hme => ?_
      · simpa [SnapshotOk, newEvents, Task.newEvent] using hme
      · simpa [SnapshotOk, newEvents, Task.newEvent, Ne.symm hqp] using hme

/-- Every step keeps what the snapshot handlers have been given. -/
theorem snapshotOk_step (hinv : Inv client s done) (howns : Owns client s done)
    (h : s.broker.producerHeap.Every (SnapshotOk client s.todo done)) {l : Label Ev}
    (hstep : s.step client l = some s') :
    ∃ done', Inv client s' done' ∧ Owns client s' done' ∧
      s'.broker.producerHeap.Every (SnapshotOk client s'.todo done') := by
  by_cases hl : l ≠ .doWork ∧ l ≠ .resume
  · exact ⟨done, hinv.step_call hl hstep, howns.call hinv hl hstep, snapshotOk_call hinv h hl hstep⟩
  · cases System.effect_of_step hstep with
    | doWork htodo =>
      refine ⟨done, hinv.idle (.inl htodo) (.inr rfl), howns.enter htodo, ?_⟩
      rwa [htodo] at h
    | resume htodo =>
      obtain ⟨taken, tasks, hpass, htodo', hinv'⟩ := hinv.pass htodo
      refine ⟨_, hinv', howns.resume hinv htodo hpass htodo', ?_⟩
      rw [htodo']
      exact snapshotOk_pass hinv howns htodo (htodo ▸ h) hpass
    | _ => simp at hl

theorem snapshotOk_of_reachable (h : Transition.Reachable (System.step client) (.init client) s) :
    ∃ done, Inv client s done ∧ Owns client s done ∧
      s.broker.producerHeap.Every (SnapshotOk client s.todo done) := by
  refine h.invariant (P := fun s => ∃ done, Inv client s done ∧ Owns client s done ∧
    s.broker.producerHeap.Every (SnapshotOk client s.todo done)) ?_
    ⟨[], .init client, .init client, .empty⟩
  rintro s l s' ⟨done, hinv, howns, hsnap⟩ hstep
  exact snapshotOk_step hinv howns hsnap hstep

/-- **What a snapshot handler has been given.** In every state of every run, the snapshot handler of
every object that exists has been given the initial snapshot and then the events that its producer
has published, each once and in the order of the calls of `publish`; the only one that may still be
missing is the event that the running `do_work` is telling the consumers about. -/
theorem snapshot_eq (h : Transition.Reachable (System.step client) (.init client) s)
    {a : ℕ} {p : ProducerPtr} {me : ProducerImpl H}
    (hme : s.broker.producerHeap.cells a = some (p, me)) :
    (newEvents p s.todo).foldl SnapshotHandler.addNewEvent me.snapshotHandler =
      client.snapshot p s.carriedOut ∧
    (newEvents p s.todo).length ≤ 1 := by
  obtain ⟨done, hinv, -, hsnap⟩ := snapshotOk_of_reachable h
  exact ⟨hinv.carriedOut_eq ▸ hsnap a p me hme, hinv.stack.length_newEvents_le p⟩

/-- A snapshot handler that keeps everything it is given. -/
structure KeepEvents where
  events : List ℕ
  deriving DecidableEq, Repr

instance : SnapshotHandler ℕ KeepEvents where
  init h initial := ⟨h.events ++ initial⟩
  addNewEvent h ev := ⟨h.events ++ [ev]⟩

/-- Two streams, whose producers keep their events. -/
def keptStreams : Client ℕ KeepEvents where
  topic p := ⟨p, ""⟩
  snapshotHandler _ := ⟨[]⟩
  initialSnapshot p := [p]
  filter _ := ⟨0, fun _ => true⟩
  currentStreamId := 0

/-- Two producers publish; the handler of the consumer publishes once more while an event is on its
way to it. -/
def keptEvents : List (Label ℕ) :=
  [.makeProducer 0, .makeProducer 1, .makeConsumer 0, .publish 0 7, .publish 1 8, .doWork] ++
    List.replicate 7 .resume ++ [.publish 0 9] ++ List.replicate 7 .resume

theorem snapshot_eq_of_keptEvents :
    ∃ s me, Transition.run (System.step keptStreams) (.init keptStreams) keptEvents = some s ∧
      s.broker.producerHeap.cells 0 = some (0, me) ∧ me.snapshotHandler = ⟨[0, 7, 9]⟩ := by
  have hrun : (Transition.run (System.step keptStreams) (.init keptStreams) keptEvents).map
      (fun s => (s.todo, s.carriedOut,
        (s.broker.producerHeap.cells 0).map Prod.fst)) =
      some ([], [.initProducer 0, .initProducer 1, .initConsumer 0, .publish 0 7, .publish 1 8,
        .publish 0 9], some 0) := rfl
  obtain ⟨s, hs, heq⟩ := Option.map_eq_some_iff.mp hrun
  simp only [Prod.mk.injEq, Option.map_eq_some_iff, Prod.exists] at heq
  obtain ⟨htodo, hdone, p, me, hcell, rfl⟩ := heq
  have hreachable : Transition.Reachable (System.step keptStreams) (.init keptStreams) s := ⟨_, hs⟩
  obtain ⟨hsnap, -⟩ := snapshot_eq hreachable hcell
  rw [htodo, hdone] at hsnap
  exact ⟨s, me, hs, hcell, hsnap⟩

end Keryx
