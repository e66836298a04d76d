import Keryx.Lib.Heap
import Keryx.Lib.Run

/-!
# The broker

`OldBroker` keeps a registry of producers, a registry of consumers and a queue of actions. Its calls
only put an action into the queue; `do_work` takes the actions out one by one and carries them out,
calling the handlers of the consumers on the way. Handlers are user code and may call the broker
again.

The objects of the broker live in two heaps. A pointer is the number of the `make_producer` or
`make_consumer` call that made its object, but the code only sees the address: it searches the
registries by address and reaches an object through its address, and the allocator may give an
address out again once its object has been freed.

A call of a handler can interrupt `do_work` anywhere, so `do_work` is a stack of tasks, what is left
to do of the loops that are running. A loop over a vector is the list of its passes: without a
`do_work` inside a handler, the vector does not change while the loop runs.

## Main definitions

* `ProducerImpl.isMatch`, `ProducerImpl.maybeRemove`, `OldBroker.maybeAdd` — a producer and its
  consumers.
* `OldBroker.makeProducer`, `OldBroker.publish`, `OldBroker.destroyProducer`,
  `OldBroker.makeConsumer`, `OldBroker.destroyConsumer` — the calls.
* `OldBroker.visit` — what `do_work` does with an action.
* `System.step` — the broker and its client. A label is a call, from outside or from a handler, or
  the next task of `do_work`.

Source: `src/lib/broker/OldBroker.cpp`, `ProducerImpl.cpp`, `ConsumerImpl.h`, `broker_common.h`,
`SnapshotHandler.h`, `TopicImpl.h`.
-/

namespace Keryx

/-! ### The data of `broker_common.h` -/

/-- `NotificationKind`. -/
inductive NotificationKind where
  | startProducer
  | event
  | stopProducer
  deriving DecidableEq, Repr

/-- `StreamID`. -/
abbrev StreamID := UInt64

/-- `StreamTypeID`: a `std::type_info`, of which only equality is used. -/
abbrev StreamTypeID := ℕ

/-- `StreamName`. -/
abbrev StreamName := String

/-- `TopicImpl`. -/
structure TopicImpl where
  streamTypeId : StreamTypeID
  streamName : StreamName
  deriving DecidableEq, Repr

/-- `StreamFilterImpl`. The predicate is a function, so a filter is pure. -/
structure StreamFilterImpl where
  streamTypeId : StreamTypeID
  isMatch : StreamName → Bool

/-- `NotificationImpl`, over the events `Ev`. -/
structure NotificationImpl (Ev : Type) where
  kind : NotificationKind
  events : List Ev
  streamId : StreamID
  topic : TopicImpl
  deriving DecidableEq, Repr

/-- A pointer to a `ProducerImpl`: the number of the `make_producer` call that made it. -/
abbrev ProducerPtr := ℕ

/-- A pointer to a `ConsumerImpl`: the number of the `make_consumer` call that made it. -/
abbrev ConsumerPtr := ℕ

/-- `NotificationHandlerImpl`: the handler passed to a call of `make_consumer`, or the empty
function that `destroy_consumer` puts in its place. -/
inductive NotificationHandlerImpl where
  | user (c : ConsumerPtr)
  | ignore
  deriving DecidableEq, Repr

/-- `SnapshotHandler`, over the events `Ev`. -/
class SnapshotHandler (Ev : outParam Type) (H : Type) where
  init : H → List Ev → H
  addNewEvent : H → Ev → H

/-- `NullSnapshotHandler`. -/
inductive NullSnapshotHandler (Ev : Type) where
  | mk
  deriving DecidableEq, Repr

instance {Ev : Type} : SnapshotHandler Ev (NullSnapshotHandler Ev) where
  init h _ := h
  addNewEvent h _ := h

/-- `ConsumerImpl`. -/
structure ConsumerImpl where
  filter : StreamFilterImpl
  notify : NotificationHandlerImpl

/-- `ProducerImpl` with its `PImpl`. -/
structure ProducerImpl (H : Type) where
  id : StreamID
  topic : TopicImpl
  snapshotHandler : H
  consumers : List ConsumerPtr

namespace ProducerImpl

variable {Ev H : Type}

/-- `ProducerImpl::is_match`. -/
def isMatch (me : ProducerImpl H) (f : StreamFilterImpl) : Bool :=
  f.streamTypeId == me.topic.streamTypeId && f.isMatch me.topic.streamName

/-- The notification of the kind `kind` about this producer. -/
def notification (me : ProducerImpl H) (kind : NotificationKind) (events : List Ev) :
    NotificationImpl Ev :=
  ⟨kind, events, me.id, me.topic⟩

/-- `ProducerImpl::maybe_remove`: the first pointer equal to `&c` is erased. -/
def maybeRemove (consumerHeap : Heap ConsumerImpl) (c : ConsumerPtr) (me : ProducerImpl H) :
    ProducerImpl H :=
  { me with consumers := me.consumers.eraseP (consumerHeap.same c) }

end ProducerImpl

/-! ### The broker and its tasks -/

/-- `Action`. -/
inductive Action (Ev : Type) where
  | initProducer (p : ProducerPtr)
  | destroyProducer (p : ProducerPtr)
  | publish (p : ProducerPtr) (e : Ev)
  | initConsumer (c : ConsumerPtr)
  | destroyConsumer (c : ConsumerPtr)
  deriving DecidableEq, Repr

/-- The action is a `Publish`. -/
def Action.isPublish {Ev : Type} : Action Ev → Bool
  | .publish _ _ => true
  | .initProducer _ | .destroyProducer _ | .initConsumer _ | .destroyConsumer _ => false

/-- What can go wrong in `do_work`: a pointer to no object, the `keryx_assert` of `DestroyProducer`,
and `consumers.erase(consumers.end())`. -/
inductive Fault where
  | danglingProducer
  | danglingConsumer
  | assertFailed
  | eraseEnd
  deriving DecidableEq, Repr

/-- `OldBroker` with its `PImpl`, the objects it has made, and the global `current_stream_id`. -/
structure OldBroker (Ev H : Type) where
  producers : List ProducerPtr
  consumers : List ConsumerPtr
  pendingActions : List (Action Ev)
  producerHeap : Heap (ProducerImpl H)
  consumerHeap : Heap ConsumerImpl
  currentStreamId : StreamID

/-- What is left to do of a call of `do_work`: the whole loop, or a pass of one of the loops inside
it. `i` is the number of the action the loop belongs to, in the order the actions were enqueued. -/
inductive Task (Ev : Type) where
  | doWork
  | maybeAdd (i : ℕ) (p : ProducerPtr) (c : ConsumerPtr)
  | notify (i : ℕ) (p : ProducerPtr) (c : ConsumerPtr) (m : NotificationImpl Ev)
  | addNewEvent (p : ProducerPtr) (e : Ev)
  | deallocate (p : ProducerPtr)
  deriving DecidableEq, Repr

/-- One call `c->notify(m)` by the producer `p`, made for the action number `i`; `handler` is the
function it called. -/
structure Dispatch (Ev : Type) where
  origin : ℕ
  producer : ProducerPtr
  consumer : ConsumerPtr
  notification : NotificationImpl Ev
  handler : NotificationHandlerImpl
  deriving DecidableEq, Repr

/-- The effect of a task: the broker after it, the tasks it leaves to be done next, and the call of
`notify` it made. -/
structure Outcome (Ev H : Type) where
  broker : OldBroker Ev H
  tasks : List (Task Ev)
  dispatched : Option (Dispatch Ev)

namespace OldBroker

variable {Ev H : Type}

/-- The broker of the constructor, when the global counter has the value `k`. -/
def init (k : StreamID) : OldBroker Ev H := ⟨[], [], [], .empty, .empty, k⟩

/-- `enqueue`. -/
def enqueue (b : OldBroker Ev H) (a : Action Ev) : OldBroker Ev H :=
  { b with pendingActions := b.pendingActions ++ [a] }

/-- `make_producer`, with the new object at the address `a`.

Source: `OldBroker.cpp`, lines 94–104; `ProducerImpl.cpp`, lines 13–39. -/
def makeProducer [SnapshotHandler Ev H] (b : OldBroker Ev H) (a : ℕ) (snapshotHandler : H)
    (topic : TopicImpl) (initialSnapshot : List Ev) : OldBroker Ev H :=
  let p : ProducerImpl H :=
    ⟨b.currentStreamId + 1, topic, SnapshotHandler.init snapshotHandler initialSnapshot, []⟩
  enqueue
    { b with
      producerHeap := b.producerHeap.allocate a p
      currentStreamId := b.currentStreamId + 1 }
    (.initProducer b.producerHeap.next)

/-- `publish`. -/
def publish (b : OldBroker Ev H) (p : ProducerPtr) (ev : Ev) : OldBroker Ev H :=
  b.enqueue (.publish p ev)

/-- `destroy_producer`. -/
def destroyProducer (b : OldBroker Ev H) (p : ProducerPtr) : OldBroker Ev H :=
  b.enqueue (.destroyProducer p)

/-- `make_consumer`, with the new object at the address `a`. -/
def makeConsumer (b : OldBroker Ev H) (a : ℕ) (f : StreamFilterImpl)
    (h : NotificationHandlerImpl) : OldBroker Ev H :=
  enqueue { b with consumerHeap := b.consumerHeap.allocate a ⟨f, h⟩ }
    (.initConsumer b.consumerHeap.next)

/-- The object `*p`. -/
def derefProducer (b : OldBroker Ev H) (p : ProducerPtr) : Except Fault (ProducerImpl H) :=
  match b.producerHeap.deref p with
  | none => .error .danglingProducer
  | some me => .ok me

/-- The object `*c`. -/
def derefConsumer (b : OldBroker Ev H) (c : ConsumerPtr) : Except Fault ConsumerImpl :=
  match b.consumerHeap.deref c with
  | none => .error .danglingConsumer
  | some me => .ok me

/-- `destroy_consumer`: the handler is replaced at once, the rest is left to `do_work`.

Source: `OldBroker.cpp`, lines 123–126. -/
def destroyConsumer (b : OldBroker Ev H) (c : ConsumerPtr) : Except Fault (OldBroker Ev H) := do
  let me ← b.derefConsumer c
  return enqueue { b with consumerHeap := b.consumerHeap.write c { me with notify := .ignore } }
    (.destroyConsumer c)

/-- `c->notify(m)`. -/
def notify (b : OldBroker Ev H) (i : ℕ) (p : ProducerPtr) (c : ConsumerPtr)
    (m : NotificationImpl Ev) : Except Fault (Outcome Ev H) := do
  let me ← b.derefConsumer c
  return ⟨b, [], some ⟨i, p, c, m, me.notify⟩⟩

/-- `ProducerImpl::maybe_add`: a matching consumer is pushed, then notified.

Source: `ProducerImpl.cpp`, lines 52–57. -/
def maybeAdd (b : OldBroker Ev H) (i : ℕ) (p : ProducerPtr) (c : ConsumerPtr) :
    Except Fault (Outcome Ev H) := do
  let me ← b.derefProducer p
  let consumer ← b.derefConsumer c
  if me.isMatch consumer.filter then
    let producerHeap := b.producerHeap.write p { me with consumers := me.consumers ++ [c] }
    notify { b with producerHeap } i p c (me.notification .startProducer [])
  else
    return ⟨b, [], none⟩

/-- The end of `ProducerImpl::publish`: the event goes to the snapshot handler. -/
def addNewEvent [SnapshotHandler Ev H] (b : OldBroker Ev H) (p : ProducerPtr) (ev : Ev) :
    Except Fault (Outcome Ev H) := do
  let me ← b.derefProducer p
  let snapshotHandler := SnapshotHandler.addNewEvent me.snapshotHandler ev
  return ⟨{ b with producerHeap := b.producerHeap.write p { me with snapshotHandler } }, [], none⟩

/-- `PImpl::operator()` for the action `a`, which is the action number `i`.

`InitProducer` and `InitConsumer` push the object and leave a loop of `maybe_add`; `Publish` leaves
the loop of `ProducerImpl::publish`; `DestroyProducer` takes the producer out of the registry, and
then leaves the loop of its destructor and the deallocation; `DestroyConsumer` calls no handler.

Source: `OldBroker.cpp`, lines 50–80; `ProducerImpl.cpp`, lines 41–71. -/
def visit (b : OldBroker Ev H) (i : ℕ) :
    Action Ev → Except Fault (OldBroker Ev H × List (Task Ev))
  | .initProducer p =>
    .ok ({ b with producers := b.producers ++ [p] }, b.consumers.map (.maybeAdd i p))
  | .publish p ev => do
    let me ← b.derefProducer p
    let m := me.notification .event [ev]
    return (b, me.consumers.map (.notify i p · m) ++ [.addNewEvent p ev])
  | .destroyProducer p =>
    match b.producers.find? (b.producerHeap.same p) with
    | none => .error .assertFailed
    | some it => do
      let me ← b.derefProducer it
      let m := me.notification .stopProducer []
      return ({ b with producers := b.producers.eraseP (b.producerHeap.same p) },
        me.consumers.map (.notify i it · m) ++ [.deallocate it])
  | .initConsumer c =>
    .ok ({ b with consumers := b.consumers ++ [c] }, b.producers.map (.maybeAdd i · c))
  | .destroyConsumer c =>
    match b.producerHeap.modifyAll (ProducerImpl.maybeRemove b.consumerHeap c) b.producers with
    | none => .error .danglingProducer
    | some producerHeap =>
      match b.consumers.find? (b.consumerHeap.same c) with
      | none => .error .eraseEnd
      | some it =>
        .ok ({ b with
          producerHeap
          consumers := b.consumers.eraseP (b.consumerHeap.same c)
          consumerHeap := b.consumerHeap.free it }, [])

/-- The loop of `do_work`: the front action is popped and carried out, until the queue is empty.

Source: `OldBroker.cpp`, lines 128–134. -/
def doWork (b : OldBroker Ev H) (i : ℕ) : Except Fault (Outcome Ev H) :=
  match b.pendingActions with
  | [] => .ok ⟨b, [], none⟩
  | a :: pendingActions => do
    let (b, tasks) ← visit { b with pendingActions } i a
    return ⟨b, tasks ++ [.doWork], none⟩

section

variable {b : OldBroker Ev H} {i : ℕ} {p : ProducerPtr} {c : ConsumerPtr} {ev : Ev}
  {producer : ProducerImpl H} {consumer : ConsumerImpl}

theorem destroyConsumer_eq (hc : b.consumerHeap.deref c = some consumer) :
    b.destroyConsumer c = .ok (enqueue
      { b with consumerHeap := b.consumerHeap.write c { consumer with notify := .ignore } }
      (.destroyConsumer c)) := by
  rw [destroyConsumer, derefConsumer, hc]
  rfl

theorem notify_eq {m : NotificationImpl Ev} (hc : b.consumerHeap.deref c = some consumer) :
    b.notify i p c m = .ok ⟨b, [], some ⟨i, p, c, m, consumer.notify⟩⟩ := by
  rw [notify, derefConsumer, hc]
  rfl

theorem maybeAdd_of_isMatch (hp : b.producerHeap.deref p = some producer)
    (hc : b.consumerHeap.deref c = some consumer) (hmatch : producer.isMatch consumer.filter) :
    b.maybeAdd i p c =
      .ok ⟨{ b with producerHeap :=
          b.producerHeap.write p { producer with consumers := producer.consumers ++ [c] } }, [],
        some ⟨i, p, c, producer.notification .startProducer [], consumer.notify⟩⟩ := by
  rw [maybeAdd, derefProducer, hp, derefConsumer, hc]
  exact (if_pos hmatch).trans (notify_eq hc)

theorem maybeAdd_of_not_isMatch (hp : b.producerHeap.deref p = some producer)
    (hc : b.consumerHeap.deref c = some consumer) (hmatch : ¬ producer.isMatch consumer.filter) :
    b.maybeAdd i p c = .ok ⟨b, [], none⟩ := by
  rw [maybeAdd, derefProducer, hp, derefConsumer, hc]
  exact if_neg hmatch

theorem addNewEvent_eq [SnapshotHandler Ev H] (hp : b.producerHeap.deref p = some producer) :
    b.addNewEvent p ev =
      .ok ⟨{ b with producerHeap :=
          b.producerHeap.write p { producer with
            snapshotHandler := SnapshotHandler.addNewEvent producer.snapshotHandler ev } }, [],
        none⟩ := by
  rw [addNewEvent, derefProducer, hp]
  rfl

theorem visit_publish_eq (hp : b.producerHeap.deref p = some producer) :
    b.visit i (.publish p ev) = .ok (b, producer.consumers.map
      (.notify i p · (producer.notification .event [ev])) ++ [.addNewEvent p ev]) := by
  rw [visit, derefProducer, hp]
  rfl

theorem visit_destroyProducer_eq {it : ProducerPtr}
    (hfind : b.producers.find? (b.producerHeap.same p) = some it)
    (hp : b.producerHeap.deref it = some producer) :
    b.visit i (.destroyProducer p) =
      .ok ({ b with producers := b.producers.eraseP (b.producerHeap.same p) },
        producer.consumers.map (.notify i it · (producer.notification .stopProducer [])) ++
          [.deallocate it]) := by
  rw [visit, hfind]
  dsimp only
  rw [derefProducer, hp]
  rfl

theorem visit_destroyConsumer_eq {producerHeap : Heap (ProducerImpl H)} {it : ConsumerPtr}
    (hmodify : b.producerHeap.modifyAll (ProducerImpl.maybeRemove b.consumerHeap c) b.producers =
      some producerHeap)
    (hfind : b.consumers.find? (b.consumerHeap.same c) = some it) :
    b.visit i (.destroyConsumer c) = .ok ({ b with
      producerHeap
      consumers := b.consumers.eraseP (b.consumerHeap.same c)
      consumerHeap := b.consumerHeap.free it }, []) := by
  rw [visit, hmodify]
  dsimp only
  rw [hfind]

theorem doWork_of_nil (hpending : b.pendingActions = []) : b.doWork i = .ok ⟨b, [], none⟩ := by
  rw [doWork, hpending]

theorem doWork_of_cons {b' : OldBroker Ev H} {a : Action Ev} {as : List (Action Ev)}
    {tasks : List (Task Ev)} (hpending : b.pendingActions = a :: as)
    (hvisit : visit { b with pendingActions := as } i a = .ok (b', tasks)) :
    b.doWork i = .ok ⟨b', tasks ++ [.doWork], none⟩ := by
  rw [doWork, hpending]
  dsimp only
  rw [hvisit]
  rfl

end

end OldBroker

/-- One task of `do_work`; `i` is the number of the action at the front of the queue. -/
def Task.exec {Ev H : Type} [SnapshotHandler Ev H] (b : OldBroker Ev H) (i : ℕ) :
    Task Ev → Except Fault (Outcome Ev H)
  | .doWork => b.doWork i
  | .maybeAdd i p c => b.maybeAdd i p c
  | .notify i p c m => b.notify i p c m
  | .addNewEvent p ev => b.addNewEvent p ev
  | .deallocate p => .ok ⟨{ b with producerHeap := b.producerHeap.free p }, [], none⟩

/-! ### The broker and its client -/

/-- What happened, in order: an action was enqueued, or a consumer was notified. -/
inductive Observation (Ev : Type) where
  | enqueued (a : Action Ev)
  | dispatched (d : Dispatch Ev)
  deriving DecidableEq, Repr

/-- Everything that happened so far. -/
abbrev History (Ev : Type) := List (Observation Ev)

namespace History

variable {Ev : Type}

/-- The actions in the order they were enqueued. -/
def log (h : History Ev) : List (Action Ev) :=
  h.filterMap fun
    | .enqueued a => some a
    | .dispatched _ => none

/-- The calls of `notify` in the order they were made. -/
def dispatches (h : History Ev) : List (Dispatch Ev) :=
  h.filterMap fun
    | .enqueued _ => none
    | .dispatched d => some d

/-- The calls of `notify` that reached the handler passed to the call number `c` of
`make_consumer`. -/
def received (h : History Ev) (c : ConsumerPtr) : List (Dispatch Ev) :=
  h.dispatches.filter (·.handler = .user c)

@[simp] theorem log_enqueued (h : History Ev) (a : Action Ev) :
    log (h ++ [.enqueued a]) = log h ++ [a] := List.filterMap_append

@[simp] theorem log_dispatched (h : History Ev) (d : Dispatch Ev) :
    log (h ++ [.dispatched d]) = log h := by
  simp [log]

@[simp] theorem dispatches_enqueued (h : History Ev) (a : Action Ev) :
    dispatches (h ++ [.enqueued a]) = dispatches h := by
  simp [dispatches]

@[simp] theorem dispatches_dispatched (h : History Ev) (d : Dispatch Ev) :
    dispatches (h ++ [.dispatched d]) = dispatches h ++ [d] := List.filterMap_append

end History

/-- The arguments the client passes to its calls, by the number of the call, and the value of
`current_stream_id` when the broker was made. -/
structure Client (Ev H : Type) where
  topic : ProducerPtr → TopicImpl
  snapshotHandler : ProducerPtr → H
  initialSnapshot : ProducerPtr → List Ev
  filter : ConsumerPtr → StreamFilterImpl
  currentStreamId : StreamID

/-- A broker and its client. `todo` is what is left of the running `do_work`; `inHandler` holds
while a handler runs. The handles are what the client owns: those it has been given and has not
destroyed. -/
structure System (Ev H : Type) where
  broker : OldBroker Ev H
  todo : List (Task Ev)
  inHandler : Bool
  producerHandles : List ProducerPtr
  consumerHandles : List ConsumerPtr
  history : History Ev
  fault : Option Fault

/-- A call of the client, or the next task of `do_work`. The allocator picks the address of a new
object. -/
inductive Label (Ev : Type) where
  | makeProducer (address : ℕ)
  | publish (p : ProducerPtr) (ev : Ev)
  | destroyProducer (p : ProducerPtr)
  | makeConsumer (address : ℕ)
  | destroyConsumer (c : ConsumerPtr)
  | doWork
  | resume
  deriving DecidableEq, Repr

namespace System

variable {Ev H : Type}

/-- The system before the first call. -/
def init (client : Client Ev H) : System Ev H :=
  ⟨.init client.currentStreamId, [], false, [], [], [], none⟩

/-- The actions in the order they were enqueued. -/
def log (s : System Ev H) : List (Action Ev) := s.history.log

/-- The calls of `notify` in the order they were made. -/
def dispatches (s : System Ev H) : List (Dispatch Ev) := s.history.dispatches

/-- The calls of `notify` that reached the handler passed to the call number `c` of
`make_consumer`. -/
def received (s : System Ev H) (c : ConsumerPtr) : List (Dispatch Ev) := s.history.received c

/-- The number of the action at the front of the queue. -/
def frontIndex (s : System Ev H) : ℕ := s.log.length - s.broker.pendingActions.length

/-- The client can call the broker: from outside, or from a handler. -/
def canCall (s : System Ev H) : Bool := s.fault.isNone && (s.todo.isEmpty || s.inHandler)

/-- The client calls `make_producer`, and the allocator gives the object the address `a`. -/
def makeProducer [SnapshotHandler Ev H] (client : Client Ev H) (s : System Ev H) (a : ℕ) :
    System Ev H :=
  let p := s.broker.producerHeap.next
  { s with
    broker := s.broker.makeProducer a (client.snapshotHandler p) (client.topic p)
      (client.initialSnapshot p)
    producerHandles := s.producerHandles ++ [p]
    history := s.history ++ [.enqueued (.initProducer p)] }

/-- The client calls `publish`. -/
def publish (s : System Ev H) (p : ProducerPtr) (ev : Ev) : System Ev H :=
  { s with
    broker := s.broker.publish p ev
    history := s.history ++ [.enqueued (.publish p ev)] }

/-- The client calls `destroy_producer`. -/
def destroyProducer (s : System Ev H) (p : ProducerPtr) : System Ev H :=
  { s with
    broker := s.broker.destroyProducer p
    producerHandles := s.producerHandles.erase p
    history := s.history ++ [.enqueued (.destroyProducer p)] }

/-- The client calls `make_consumer`, and the allocator gives the object the address `a`. -/
def makeConsumer (client : Client Ev H) (s : System Ev H) (a : ℕ) : System Ev H :=
  let c := s.broker.consumerHeap.next
  { s with
    broker := s.broker.makeConsumer a (client.filter c) (.user c)
    consumerHandles := s.consumerHandles ++ [c]
    history := s.history ++ [.enqueued (.initConsumer c)] }

/-- The client calls `destroy_consumer`. -/
def destroyConsumer (s : System Ev H) (c : ConsumerPtr) : System Ev H :=
  match s.broker.destroyConsumer c with
  | .error f => { s with fault := some f }
  | .ok broker =>
    { s with
      broker
      consumerHandles := s.consumerHandles.erase c
      history := s.history ++ [.enqueued (.destroyConsumer c)] }

/-- The next task of `do_work`, after the running handler has returned. -/
def resume [SnapshotHandler Ev H] (s : System Ev H) (task : Task Ev) (rest : List (Task Ev)) :
    System Ev H :=
  match task.exec s.broker s.frontIndex with
  | .error f => { s with fault := some f }
  | .ok ⟨broker, tasks, dispatched⟩ =>
    { s with
      broker
      todo := tasks ++ rest
      inHandler := dispatched.any (·.handler ≠ .ignore)
      history := s.history ++ dispatched.toList.map .dispatched }

section

variable [SnapshotHandler Ev H] (s : System Ev H) (task : Task Ev) {rest tasks : List (Task Ev)}
  {broker : OldBroker Ev H}

theorem resume_eq_of_none (h : task.exec s.broker s.frontIndex = .ok ⟨broker, tasks, none⟩) :
    s.resume task rest = { s with broker, todo := tasks ++ rest, inHandler := false } := by
  rw [resume, h]
  simp

theorem resume_eq_of_some {d : Dispatch Ev}
    (h : task.exec s.broker s.frontIndex = .ok ⟨broker, [], some d⟩) :
    s.resume task rest = { s with
      broker
      todo := rest
      inHandler := d.handler ≠ .ignore
      history := s.history ++ [.dispatched d] } := by
  rw [resume, h]
  rfl

end

/-- One step. The client destroys a handle at most once and does not use it afterwards; a handler
does not call `do_work`. -/
def step [SnapshotHandler Ev H] (client : Client Ev H) (s : System Ev H) :
    Label Ev → Option (System Ev H)
  | .makeProducer a =>
    if s.canCall && (s.broker.producerHeap.cells a).isNone then some (s.makeProducer client a)
    else none
  | .publish p ev =>
    if s.canCall && s.producerHandles.contains p then some (s.publish p ev) else none
  | .destroyProducer p =>
    if s.canCall && s.producerHandles.contains p then some (s.destroyProducer p) else none
  | .makeConsumer a =>
    if s.canCall && (s.broker.consumerHeap.cells a).isNone then some (s.makeConsumer client a)
    else none
  | .destroyConsumer c =>
    if s.canCall && s.consumerHandles.contains c then some (s.destroyConsumer c) else none
  | .doWork =>
    if s.fault.isNone && s.todo.isEmpty then some { s with todo := [.doWork] } else none
  | .resume =>
    match s.fault, s.todo with
    | none, task :: rest => some (s.resume task rest)
    | _, _ => none

/-- What each label does, and when it can happen. -/
inductive Effect [SnapshotHandler Ev H] (client : Client Ev H) (s : System Ev H) :
    Label Ev → System Ev H → Prop
  | makeProducer {a} (hcan : s.canCall) (ha : s.broker.producerHeap.cells a = none) :
      Effect client s (.makeProducer a) (s.makeProducer client a)
  | publish {p ev} (hcan : s.canCall) (hp : p ∈ s.producerHandles) :
      Effect client s (.publish p ev) (s.publish p ev)
  | destroyProducer {p} (hcan : s.canCall) (hp : p ∈ s.producerHandles) :
      Effect client s (.destroyProducer p) (s.destroyProducer p)
  | makeConsumer {a} (hcan : s.canCall) (ha : s.broker.consumerHeap.cells a = none) :
      Effect client s (.makeConsumer a) (s.makeConsumer client a)
  | destroyConsumer {c} (hcan : s.canCall) (hc : c ∈ s.consumerHandles) :
      Effect client s (.destroyConsumer c) (s.destroyConsumer c)
  | doWork (htodo : s.todo = []) : Effect client s .doWork { s with todo := [.doWork] }
  | resume {task rest} (htodo : s.todo = task :: rest) :
      Effect client s .resume (s.resume task rest)

theorem effect_of_step [SnapshotHandler Ev H] {client : Client Ev H} {s s' : System Ev H}
    {l : Label Ev} (h : s.step client l = some s') : Effect client s l s' := by
  cases l with
  | makeProducer a =>
    obtain ⟨hguard, heq⟩ := Option.ite_none_right_eq_some.mp h
    rw [Bool.and_eq_true, Option.isNone_iff_eq_none] at hguard
    exact Option.some.inj heq ▸ .makeProducer hguard.1 hguard.2
  | publish p ev =>
    obtain ⟨hguard, heq⟩ := Option.ite_none_right_eq_some.mp h
    rw [Bool.and_eq_true, List.contains_iff_mem] at hguard
    exact Option.some.inj heq ▸ .publish hguard.1 hguard.2
  | destroyProducer p =>
    obtain ⟨hguard, heq⟩ := Option.ite_none_right_eq_some.mp h
    rw [Bool.and_eq_true, List.contains_iff_mem] at hguard
    exact Option.some.inj heq ▸ .destroyProducer hguard.1 hguard.2
  | makeConsumer a =>
    obtain ⟨hguard, heq⟩ := Option.ite_none_right_eq_some.mp h
    rw [Bool.and_eq_true, Option.isNone_iff_eq_none] at hguard
    exact Option.some.inj heq ▸ .makeConsumer hguard.1 hguard.2
  | destroyConsumer c =>
    obtain ⟨hguard, heq⟩ := Option.ite_none_right_eq_some.mp h
    rw [Bool.and_eq_true, List.contains_iff_mem] at hguard
    exact Option.some.inj heq ▸ .destroyConsumer hguard.1 hguard.2
  | doWork =>
    obtain ⟨hguard, heq⟩ := Option.ite_none_right_eq_some.mp h
    rw [Bool.and_eq_true, List.isEmpty_iff] at hguard
    exact Option.some.inj heq ▸ .doWork hguard.2
  | resume =>
    rw [step] at h
    split at h
    · next htodo => exact Option.some.inj h ▸ .resume htodo
    · cases h

end System

end Keryx
