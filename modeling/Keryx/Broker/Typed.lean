import Keryx.Broker.Batching
import Keryx.Broker.Nested

/-!
# Typed producers and consumers

`Producer<Stream>` and `Consumer<Stream>` give the broker a typed interface. A producer passes the
`std::type_info` of its stream as part of its topic, and a copy of each event that it publishes, as
an `Event`; a consumer passes the `std::type_info` of its stream as part of its filter, and a
handler that casts the events it gets back to the event type of the stream. In between, the events
of all streams go through the same queue, and `do_work` may be called at any point, also by a
handler, there as in `Nested.step`.

## Main definitions

* `Streams` — the stream types of a program, and the event types they use.
* `Wrappers` — the arguments of the constructors of `Producer` and `Consumer`.
* `Streams.makeUntypedHandler` — what the handler of a consumer is called with.
* `TypedSystem.step` — the broker, the client and the event objects of the client.

## Main results

* `typed_delivery` — an event reaches a consumer as it was published, by a producer of its stream.

Source: `src/lib/broker/Consumer.h`, `Producer.h`.
-/

namespace Keryx

variable {H : Type}

/-- The stream types of a program. An event type is a class derived from `Event`; `upcast T U` is
the conversion of a `T` to a `U`, when `U` is `T` or a base class of it. -/
structure Streams (H : Type) where
  Stream : Type
  EventType : Type
  Value : EventType → Type
  upcast : (T U : EventType) → Option (Value T → Value U)
  upcast_self : ∀ T, upcast T T = some id
  /-- `S::EventType`. -/
  eventType : Stream → EventType
  /-- `typeid (S)`: different types have different ids. -/
  typeid : Stream → StreamTypeID
  typeid_injective : Function.Injective typeid
  /-- `S::clone_event`: a copy, whose dynamic type is `S::EventType`. -/
  cloneEvent : (S : Stream) → Value (eventType S) → (T : EventType) × Value T
  cloneEvent_eq : ∀ S v, cloneEvent S v = ⟨eventType S, v⟩
  /-- `S::make_snapshot_handler`. -/
  makeSnapshotHandler : Stream → H

namespace Streams

variable (P : Streams H)

/-- `Event`: an object, with its dynamic type. -/
abbrev Event : Type := (T : P.EventType) × P.Value T

/-- The event objects of the client: for every event type its variables, by number. -/
abbrev Memory : Type := (T : P.EventType) → ℕ → P.Value T

/-- `dynamic_cast<U const *>(ev)`; `none` is the null pointer. -/
def dynamicCast (U : P.EventType) (ev : P.Event) : Option (P.Value U) :=
  (P.upcast ev.1 U).map fun f => f ev.2

theorem dynamicCast_cloneEvent (S : P.Stream) (v : P.Value (P.eventType S)) :
    P.dynamicCast (P.eventType S) (P.cloneEvent S v) = some v := by
  rw [P.cloneEvent_eq, dynamicCast, P.upcast_self]
  rfl

end Streams

/-- `Notification`, over the events `α`; an event pointer may be null. -/
structure Notification (α : Type) where
  kind : NotificationKind
  events : List (Option α)
  streamId : StreamID
  name : StreamName
  deriving DecidableEq, Repr

/-- The filter of a `Consumer`, for each of its constructors: a filter, a name, or none. -/
inductive ConsumerFilter where
  | filter (f : StreamName → Bool)
  | name (n : StreamName)
  | all

/-- The predicate that a constructor of `Consumer` passes to the broker. -/
def ConsumerFilter.isMatch : ConsumerFilter → StreamName → Bool
  | .filter f => f
  | .name n => fun m => n == m
  | .all => fun _ => true

/-- The arguments of the constructors of the wrappers, by the number of the call they make, and the
value of `current_stream_id` when the broker was made. -/
structure Wrappers (P : Streams H) where
  producerStream : ProducerPtr → P.Stream
  producerName : ProducerPtr → StreamName
  initialSnapshot : (p : ProducerPtr) → List (P.Value (P.eventType (producerStream p)))
  consumerStream : ConsumerPtr → P.Stream
  consumerFilter : ConsumerPtr → ConsumerFilter
  currentStreamId : StreamID

namespace Wrappers

variable {P : Streams H} (w : Wrappers P)

/-- What the constructors of the wrappers pass to the broker. -/
def client : Client P.Event H where
  topic p := ⟨P.typeid (w.producerStream p), w.producerName p⟩
  snapshotHandler p := P.makeSnapshotHandler (w.producerStream p)
  initialSnapshot p := (w.initialSnapshot p).map (P.cloneEvent (w.producerStream p))
  filter c := ⟨P.typeid (w.consumerStream c), (w.consumerFilter c).isMatch⟩
  currentStreamId := w.currentStreamId

end Wrappers

/-- `make_untyped_handler` of `Consumer<S>`: the notification that the user's handler is called
with. -/
def Streams.makeUntypedHandler (P : Streams H) (S : P.Stream) (m : NotificationImpl P.Event) :
    Notification (P.Value (P.eventType S)) where
  kind := m.kind
  events := m.events.map (P.dynamicCast (P.eventType S))
  streamId := m.streamId
  name := m.topic.streamName

/-- The broker, its client, and the event objects of the client. -/
structure TypedSystem (P : Streams H) where
  nested : Nested P.Event H
  memory : P.Memory

/-- A call of a wrapper, a change of the event objects of the client, a call of `do_work`, from
outside or by a handler, or the next task of `do_work`. `publish p x` publishes the variable number
`x` of the event type of the producer. -/
inductive TypedLabel (P : Streams H) where
  | makeProducer (address : ℕ)
  | publish (p : ProducerPtr) (x : ℕ)
  | destroyProducer (p : ProducerPtr)
  | makeConsumer (address : ℕ)
  | destroyConsumer (c : ConsumerPtr)
  | modify (memory : P.Memory)
  | doWork
  | resume

namespace TypedSystem

variable {P : Streams H}

/-- The system before the first call. -/
def init (w : Wrappers P) (memory : P.Memory) : TypedSystem P := ⟨.init w.client, memory⟩

/-- What the handler passed to the call number `c` of `make_consumer` was called for. -/
def received (t : TypedSystem P) (c : ConsumerPtr) : List (Dispatch P.Event) :=
  t.nested.system.received c

/-- The argument of the call of `publish` of the producer `p` with the variable number `x`. -/
def argument (w : Wrappers P) (t : TypedSystem P) (p : ProducerPtr) (x : ℕ) :
    P.Value (P.eventType (w.producerStream p)) :=
  t.memory (P.eventType (w.producerStream p)) x

variable [SnapshotHandler P.Event H]

/-- A step of the broker. -/
def untyped (w : Wrappers P) (t : TypedSystem P) (l : Label P.Event) : Option (TypedSystem P) :=
  (t.nested.step w.client l).map fun nested => { t with nested }

/-- One step. `Producer<S>::publish` passes a copy of its argument to the broker. -/
def step (w : Wrappers P) (t : TypedSystem P) : TypedLabel P → Option (TypedSystem P)
  | .makeProducer a => t.untyped w (.makeProducer a)
  | .publish p x =>
    t.untyped w (.publish p (P.cloneEvent (w.producerStream p) (t.argument w p x)))
  | .destroyProducer p => t.untyped w (.destroyProducer p)
  | .makeConsumer a => t.untyped w (.makeConsumer a)
  | .destroyConsumer c => t.untyped w (.destroyConsumer c)
  | .modify memory => if t.nested.system.canCall then some { t with memory } else none
  | .doWork => t.untyped w .doWork
  | .resume => t.untyped w .resume

/-- What a step can be. -/
inductive Effect (w : Wrappers P) (t : TypedSystem P) : TypedLabel P → TypedSystem P → Prop
  | untyped {l l' nested} (hstep : t.nested.step w.client l' = some nested)
      (hl : ∀ p e, l' = .publish p e →
        ∃ x, l = .publish p x ∧ e = P.cloneEvent (w.producerStream p) (t.argument w p x)) :
      Effect w t l { t with nested }
  | modify {memory} : Effect w t (.modify memory) { t with memory }

variable {w : Wrappers P} {t t' : TypedSystem P} {l : TypedLabel P}

theorem effect_of_step (h : t.step w l = some t') : Effect w t l t' := by
  cases l with
  | modify memory => exact Option.some.inj (Option.ite_none_right_eq_some.mp h).2 ▸ .modify
  | publish p x =>
    obtain ⟨nested, hstep, rfl⟩ := Option.map_eq_some_iff.mp h
    exact .untyped hstep fun q e heq => by
      obtain ⟨rfl, rfl⟩ := Label.publish.inj heq
      exact ⟨x, rfl, rfl⟩
  | _ =>
    obtain ⟨nested, hstep, rfl⟩ := Option.map_eq_some_iff.mp h
    exact .untyped hstep fun _ _ heq => by cases heq

/-- The broker and its client, without the event objects, make a run. -/
theorem reachable_nested {memory : P.Memory}
    (h : Transition.Reachable (step w) (.init w memory) t) :
    Transition.Reachable (Nested.step w.client) (.init w.client) t.nested := by
  refine h.invariant
    (P := fun t => Transition.Reachable (Nested.step w.client) (.init w.client) t.nested) ?_
    (.refl _)
  intro t l t' ht hstep
  cases effect_of_step hstep with
  | untyped hnested => exact ht.trans (.of_step hnested)
  | modify => exact ht

end TypedSystem

/-! ### Where an event comes from -/

section Untyped

variable {Ev : Type} {client : Client Ev H}

/-- A value that goes to a consumer comes from a `Publish` action of the log, of a producer that the
consumer matches. -/
theorem Client.value_of_mem_outputs {L : List (Action Ev)} (hL : client.Admits L) {i : ℕ}
    {p : ProducerPtr} {c : ConsumerPtr} {e : Ev} (hm : ⟨i, p, c, .value e⟩ ∈ client.outputs L) :
    client.isMatch p c ∧ L[i]? = some (.publish p e) := by
  constructor
  · by_contra hmatch
    have hnil := PubSub.between_eq_nil_of_not_sub .empty hL hmatch
    exact List.ne_nil_of_mem (List.mem_filterMap.mpr ⟨_, hm, if_pos ⟨rfl, rfl⟩⟩) hnil
  · have hmem : (i, p, .value e) ∈ PubSub.toSink c (client.outputs L) :=
      List.mem_filterMap.mpr ⟨_, hm, if_pos rfl⟩
    have hcause : (i, p, client.notification p (.value e)) ∈ client.causes L := by
      rw [client.causes_eq]
      exact List.mem_map_of_mem ((PubSub.toSink_sublist .empty hL).subset hmem)
    rcases client.getElem?_of_mem_causes hcause with ⟨e', hlog, heq⟩ | ⟨-, heq⟩
    · obtain rfl : e = e' := List.singleton_inj.mp (congrArg NotificationImpl.events heq)
      exact hlog
    · cases congrArg NotificationImpl.kind heq

/-- An event that reaches the handler of a consumer `c` was published by a producer that `c`
matches, as the action number `d.origin`. -/
theorem Dispatch.Sent.event {L : List (Action Ev)} {d : Dispatch Ev} (h : d.Sent client L)
    (hL : client.Admits L) {c : ConsumerPtr} (hc : d.handler = .user c)
    (hkind : d.notification.kind = .event) :
    client.isMatch d.producer c ∧ ∃ e, L[d.origin]? = some (.publish d.producer e) ∧
      d.notification = client.notification d.producer (.value e) := by
  obtain ⟨hdelivery, hconsumer⟩ := h
  obtain ⟨origin, producer, consumer, notification, handler⟩ := d
  obtain rfl := hconsumer c hc
  obtain ⟨⟨i, p, c, signal⟩, hm, heq⟩ := List.mem_map.mp hdelivery
  cases heq
  cases signal with
  | value e =>
    obtain ⟨hmatch, hlog⟩ := Client.value_of_mem_outputs hL hm
    exact ⟨hmatch, e, hlog, rfl⟩
  | started => cases hkind
  | stopped => cases hkind

/-- A step that puts a `Publish` action at the place `i` of the log is the call of `publish`. -/
theorem Inv.publish_of_step [SnapshotHandler Ev H] {s s' : System Ev H} {done : List (Action Ev)}
    (h : Inv client s done) {l : Label Ev} (hstep : s.step client l = some s') {i : ℕ}
    {p : ProducerPtr} {e : Ev} (hlog : s.log[i]? ≠ some (.publish p e))
    (hlog' : s'.log[i]? = some (.publish p e)) :
    l = .publish p e ∧ i = s.log.length ∧ p ∈ s.producerHandles := by
  have hlen : i = s.log.length ∧ l.call = some (.publish p e) := by
    rw [h.log_step hstep] at hlog'
    cases hcall : l.call with
    | none =>
      rw [hcall] at hlog'
      exact absurd hlog' hlog
    | some call =>
      rw [hcall] at hlog'
      change (s.log ++ [call.action (client.after s.log)])[i]? = _ at hlog'
      rw [List.getElem?_append] at hlog'
      split at hlog'
      · exact absurd hlog' hlog
      · rw [List.getElem?_singleton] at hlog'
        obtain ⟨hi, haction⟩ := Option.ite_none_right_eq_some.mp hlog'
        cases call with
        | publish => cases haction; exact ⟨by omega, rfl⟩
        | _ => cases haction
  cases l with
  | publish =>
    cases System.effect_of_step hstep with
    | publish _ hp =>
      obtain ⟨rfl, rfl⟩ := Call.publish.inj (Option.some.inj hlen.2)
      exact ⟨rfl, hlen.1, hp⟩
  | _ => cases hlen.2

namespace Nested

variable {n n' : Nested Ev H} {inner : List (List (Task Ev))} {todo : List (Task Ev)}
  {done ahead : List (Action Ev)} {history : History Ev}

/-- A producer whose handle the client owns has an object. -/
theorem Ok.producer_of_handle (h : Ok client n inner todo done ahead history) {p : ProducerPtr}
    (hp : p ∈ n.system.producerHandles) :
    ∃ me, n.system.broker.producerHeap.deref p = some me ∧ me.id = client.streamId p := by
  have hinv := h.inv
  have hp : p ∈ (n.system.under todo ahead history).producerHandles := hp
  rw [hinv.producerHandles_eq, hinv.log_eq] at hp
  obtain ⟨me, hderef, hok⟩ := hinv.producerHeap.object
    (hinv.liveProducer_of_mem hinv.admits_pending (List.Subset.refl _) hp)
  exact ⟨me, hderef, hok.id_eq⟩

variable [SnapshotHandler Ev H]

/-- A step that puts a `Publish` action at the place `i` of the log is the call of `publish`. -/
theorem Ok.publish_of_step (h : Ok client n inner todo done ahead history) {l : Label Ev}
    (hstep : n.step client l = some n') {i : ℕ} {p : ProducerPtr} {e : Ev}
    (hlog : n.system.log[i]? ≠ some (.publish p e))
    (hlog' : n'.system.log[i]? = some (.publish p e)) :
    l = .publish p e ∧ i = n.system.log.length ∧ p ∈ n.system.producerHandles := by
  cases effect_of_step hstep with
  | start => exact absurd hlog' hlog
  | push => exact absurd hlog' hlog
  | resume =>
    rw [System.log, history_leave] at hlog'
    exact absurd (System.log_resume n.system _ _ ▸ hlog') hlog
  | @call _ system hl hcall =>
    obtain ⟨a, -, hhistory, hunder⟩ := System.under_step todo ahead history h.inv hl hcall
    have hlog₁ : (n.system.under todo ahead history).log = n.system.log := h.log_eq
    have hlog₂ : (system.under todo ahead (history ++ [.enqueued a])).log = system.log := by
      change History.log (history ++ [.enqueued a]) = History.log system.history
      rw [hhistory, History.log_enqueued, History.log_enqueued, h.log_eq]
      rfl
    rw [← hlog₁] at hlog ⊢
    rw [← hlog₂] at hlog'
    exact h.inv.publish_of_step hunder hlog hlog'

end Nested

end Untyped

variable {P : Streams H}

/-- What the handler of a `Consumer<S>` gets of an event of a `Producer<S>`. -/
theorem Streams.makeUntypedHandler_value (client : Client P.Event H) (p : ProducerPtr)
    (S : P.Stream) (v : P.Value (P.eventType S)) :
    P.makeUntypedHandler S (client.notification p (.value (P.cloneEvent S v))) =
      ⟨.event, [some v], client.streamId p, (client.topic p).streamName⟩ := by
  rw [makeUntypedHandler, Client.notification, List.map_singleton, P.dynamicCast_cloneEvent]

/-- A consumer matches producers of its own stream only. -/
theorem Wrappers.stream_eq_of_isMatch (w : Wrappers P) {p : ProducerPtr} {c : ConsumerPtr}
    (h : w.client.isMatch p c) : w.producerStream p = w.consumerStream c := by
  rw [Client.isMatch, Bool.and_eq_true] at h
  exact P.typeid_injective (eq_of_beq h.1).symm

variable [SnapshotHandler P.Event H] {w : Wrappers P} {memory : P.Memory} {t : TypedSystem P}
  {ls : List (TypedLabel P)}

/-- A `Publish` action of the log was enqueued by a call of `Producer::publish`, with a copy of the
argument as it was then. -/
theorem TypedSystem.exists_publish
    (hrun : Transition.run (step w) (.init w memory) ls = some t) {i : ℕ} {p : ProducerPtr}
    {e : P.Event} (hlog : t.nested.system.log[i]? = some (.publish p e)) :
    ∃ ls₁ x ls₂ t₁ me, ls = ls₁ ++ .publish p x :: ls₂ ∧
      Transition.run (step w) (.init w memory) ls₁ = some t₁ ∧ t₁.nested.system.log.length = i ∧
      e = P.cloneEvent (w.producerStream p) (t₁.argument w p x) ∧
      t₁.nested.system.broker.producerHeap.deref p = some me ∧ me.id = w.client.streamId p := by
  have hinit : (init w memory).nested.system.log[i]? ≠ some (.publish p e) := nofun
  obtain ⟨ls₁, l, ls₂, t₁, t₂, rfl, hrun₁, hstep, hbefore, hafter⟩ :=
    Transition.exists_step_of_run (P := fun t => t.nested.system.log[i]? = some (.publish p e))
      _ hinit hlog hrun
  cases effect_of_step hstep with
  | modify => exact absurd hafter hbefore
  | untyped hnested hl =>
    obtain ⟨inner, todo, done, ahead, history, hok⟩ :=
      Nested.ok_of_reachable (reachable_nested ⟨_, hrun₁⟩)
    obtain ⟨rfl, hi, hp⟩ := hok.publish_of_step hnested hbefore hafter
    obtain ⟨x, rfl, he⟩ := hl p e rfl
    obtain ⟨me, hme⟩ := hok.producer_of_handle hp
    exact ⟨ls₁, x, ls₂, t₁, me, rfl, hrun₁, hi.symm, he, hme⟩

/-- **Typed delivery.** Every event that the handler of a `Consumer<S>` is called with comes from a
`Producer<S>`, and is one event that is not null: the argument of the call of `publish`, as it was
at the time of the call. The stream id and the name are those of the producer. -/
theorem typed_delivery (hrun : Transition.run (TypedSystem.step w) (.init w memory) ls = some t)
    {c : ConsumerPtr} {d : Dispatch P.Event} (hd : d ∈ t.received c)
    (hkind : d.notification.kind = .event) :
    w.producerStream d.producer = w.consumerStream c ∧
    ∃ ls₁ x ls₂ t₁ me, ls = ls₁ ++ .publish d.producer x :: ls₂ ∧
      Transition.run (TypedSystem.step w) (.init w memory) ls₁ = some t₁ ∧
      t₁.nested.system.log.length = d.origin ∧
      t₁.nested.system.broker.producerHeap.deref d.producer = some me ∧
      P.makeUntypedHandler (w.consumerStream c) d.notification =
        ⟨.event, [some (t₁.memory (P.eventType (w.consumerStream c)) x)], me.id,
          w.producerName d.producer⟩ := by
  have hreach := TypedSystem.reachable_nested ⟨ls, hrun⟩
  obtain ⟨inner, todo, done, ahead, history, hok⟩ := Nested.ok_of_reachable hreach
  obtain ⟨hdispatch, hhandler⟩ := List.mem_filter.mp hd
  obtain ⟨hmatch, e, hlog, hnotification⟩ :=
    (Nested.sent_of_reachable hreach hdispatch).event hok.admits (of_decide_eq_true hhandler) hkind
  have hstream := w.stream_eq_of_isMatch hmatch
  obtain ⟨ls₁, x, ls₂, t₁, me, hls, hrun₁, hlength, rfl, hderef, hid⟩ :=
    TypedSystem.exists_publish hrun hlog
  refine ⟨hstream, ls₁, x, ls₂, t₁, me, hls, hrun₁, hlength, hderef, ?_⟩
  rw [hnotification, ← hstream, hid]
  exact P.makeUntypedHandler_value ..

/-- A stream of numbers and a stream of texts. -/
abbrev numbersAndTexts : Streams (NullSnapshotHandler ((T : Bool) × cond T ℕ String)) where
  Stream := Bool
  EventType := Bool
  Value T := cond T ℕ String
  upcast
    | true, true => some id
    | false, false => some id
    | _, _ => none
  upcast_self T := by cases T <;> rfl
  eventType := id
  typeid S := cond S 1 0
  typeid_injective S S' h := by
    cases S <;> cases S' <;> first | rfl | cases h
  cloneEvent S v := ⟨S, v⟩
  cloneEvent_eq _ _ := rfl
  makeSnapshotHandler _ := .mk

/-- The first producer and the first consumer are for numbers, the others for texts; all producers
have the same name. -/
def oneName : Wrappers numbersAndTexts where
  producerStream p := p == 0
  producerName _ := "a"
  initialSnapshot _ := []
  consumerStream c := c == 0
  consumerFilter c := if c = 0 then .name "a" else .all
  currentStreamId := 0

/-- The event objects, when all numbers are `n`. -/
def allNumbers (n : ℕ) : numbersAndTexts.Memory
  | true => fun _ => n
  | false => fun _ => ""

/-- A number and a text are published, and the number is changed before `do_work` is called. The
handler that gets the number calls `do_work`, which carries out the second `Publish`. -/
def changedNumber : List (TypedLabel numbersAndTexts) :=
  [.makeProducer 0, .makeProducer 1, .makeConsumer 0, .makeConsumer 1, .publish 0 7, .publish 1 7,
    .modify (allNumbers 6), .doWork] ++ List.replicate 10 .resume ++ [.doWork] ++
    List.replicate 6 .resume

theorem typed_delivery_of_changedNumber :
    ∃ t d ls₁ x ls₂ t₁,
      Transition.run (TypedSystem.step oneName) (.init oneName (allNumbers 5)) changedNumber =
        some t ∧ t.memory true 7 = (6 : ℕ) ∧ d ∈ t.received 0 ∧
      changedNumber = ls₁ ++ .publish 0 x :: ls₂ ∧
      Transition.run (TypedSystem.step oneName) (.init oneName (allNumbers 5)) ls₁ = some t₁ ∧
      t₁.memory true x = (5 : ℕ) ∧
      numbersAndTexts.makeUntypedHandler true d.notification =
        ⟨.event, [some (5 : ℕ)], 1, "a"⟩ := by
  let d : Dispatch numbersAndTexts.Event :=
    ⟨4, 0, 0, ⟨.event, [⟨true, (5 : ℕ)⟩], 1, ⟨1, "a"⟩⟩, .user 0⟩
  have hrun : (Transition.run (TypedSystem.step oneName) (.init oneName (allNumbers 5))
      changedNumber).map (fun t => (t.received 0, t.memory true 7)) = some
        ([⟨2, 0, 0, ⟨.startProducer, [], 1, ⟨1, "a"⟩⟩, .user 0⟩, d], (6 : ℕ)) := rfl
  obtain ⟨t, ht, heq⟩ := Option.map_eq_some_iff.mp hrun
  obtain ⟨hreceived, hmemory⟩ := Prod.mk.inj heq
  have hd : d ∈ t.received 0 := by
    rw [hreceived]
    exact List.mem_cons_of_mem _ List.mem_cons_self
  obtain ⟨-, ls₁, x, ls₂, t₁, me, hls, hrun₁, -, -, hhandled⟩ := typed_delivery ht hd rfl
  have hevents : [some (5 : ℕ)] = [some (t₁.memory true x)] := congrArg Notification.events hhandled
  refine ⟨t, d, ls₁, x, ls₂, t₁, ht, hmemory, hd, hls, hrun₁, ?_, rfl⟩
  exact (Option.some.inj (List.head_eq_of_cons_eq hevents)).symm

end Keryx
