import Mathlib.Data.List.Induction
import Mathlib.Data.List.Perm.Subperm
import Keryx.Broker.Batching

/-!
# Several brokers in one process

All brokers of a process draw the ids of their streams from one counter, the atomic
`current_stream_id`. Nothing else is shared, so the brokers may be used by different threads, and a
handler of one broker may call another one. This file says what the shared counter does: in every
interleaving of their steps, each broker does what it does alone, but for the ids of the streams,
and a stream id names one producer of one broker.

## Main definitions

* `System.renumber` — a broker and its client with other ids of the streams.
* `Process.step` — any number of brokers with one counter.

## Main results

* `System.step_renumber` — no step looks at the ids of the streams.
* `brokers_independent` — the runs of a process are the interleavings of runs of its brokers.
* `same_stream_iff` — two notifications have the same stream id only if they are of one producer.

Source: `src/lib/broker/ProducerImpl.cpp`, lines 10–39; `OldBroker.cpp`.
-/

namespace Keryx

open Transition

variable {Ev H : Type}

/-! ### Other ids of the streams -/

/-- The producer with another stream id. -/
def ProducerImpl.renumber (f : StreamID → StreamID) (me : ProducerImpl H) : ProducerImpl H :=
  { me with id := f me.id }

/-- The notification with another stream id. -/
def NotificationImpl.renumber (f : StreamID → StreamID) (m : NotificationImpl Ev) :
    NotificationImpl Ev :=
  { m with streamId := f m.streamId }

/-- The task with other stream ids. -/
def Task.renumber (f : StreamID → StreamID) : Task Ev → Task Ev
  | .notify i p c m => .notify i p c (m.renumber f)
  | .doWork => .doWork
  | .maybeAdd i p c => .maybeAdd i p c
  | .addNewEvent p ev => .addNewEvent p ev
  | .deallocate p => .deallocate p

/-- The call of `notify` with another stream id. -/
def Dispatch.renumber (f : StreamID → StreamID) (d : Dispatch Ev) : Dispatch Ev :=
  { d with notification := d.notification.renumber f }

/-- What happened, with other stream ids. -/
def Observation.renumber (f : StreamID → StreamID) : Observation Ev → Observation Ev
  | .enqueued a => .enqueued a
  | .dispatched d => .dispatched (d.renumber f)

/-- The broker with other stream ids, and with the counter at `k`. -/
def OldBroker.renumber (f : StreamID → StreamID) (k : StreamID) (b : OldBroker Ev H) :
    OldBroker Ev H :=
  { b with producerHeap := b.producerHeap.map (·.renumber f), currentStreamId := k }

/-- The effect of a task, with other stream ids. -/
def Outcome.renumber (f : StreamID → StreamID) (k : StreamID) (o : Outcome Ev H) : Outcome Ev H :=
  ⟨o.broker.renumber f k, o.tasks.map (·.renumber f), o.dispatched.map (·.renumber f)⟩

/-- The broker and its client with other stream ids, and with the counter at `k`. -/
def System.renumber (f : StreamID → StreamID) (k : StreamID) (s : System Ev H) : System Ev H :=
  { s with
    broker := s.broker.renumber f k
    todo := s.todo.map (·.renumber f)
    history := s.history.map (·.renumber f) }

/-- The broker and its client, with the counter at `k`. -/
def System.counting (k : StreamID) (s : System Ev H) : System Ev H :=
  { s with broker := { s.broker with currentStreamId := k } }

/-- The call takes a new id from the counter. -/
def Label.isMakeProducer : Label Ev → Bool
  | .makeProducer _ => true
  | .publish _ _ | .destroyProducer _ | .makeConsumer _ | .destroyConsumer _ | .doWork
  | .resume => false

/-- The counter after a step. -/
def Label.count (k : StreamID) (l : Label Ev) : StreamID := if l.isMakeProducer then k + 1 else k

section Renumber

variable (f : StreamID → StreamID) (k : StreamID)

@[simp] theorem History.log_renumber (h : History Ev) :
    History.log (h.map (·.renumber f)) = h.log := by
  rw [History.log, History.log, List.filterMap_map]
  congr 1
  funext o
  cases o <;> rfl

@[simp] theorem History.dispatches_renumber (h : History Ev) :
    History.dispatches (h.map (·.renumber f)) = h.dispatches.map (·.renumber f) := by
  rw [History.dispatches, History.dispatches, List.filterMap_map, List.map_filterMap]
  congr 1
  funext o
  cases o <;> rfl

namespace OldBroker

variable (b : OldBroker Ev H) (i : ℕ) (p : ProducerPtr) (c : ConsumerPtr) (ev : Ev)

theorem derefProducer_renumber :
    (b.renumber f k).derefProducer p = (b.derefProducer p).map (·.renumber f) := by
  simp only [derefProducer, renumber, Heap.deref_map]
  cases b.producerHeap.deref p <;> rfl

theorem derefConsumer_renumber : (b.renumber f k).derefConsumer c = b.derefConsumer c := rfl

/-- A producer is written, under its new id. -/
theorem write_renumber (me : ProducerImpl H) :
    { b.renumber f k with
      producerHeap := (b.renumber f k).producerHeap.write p (me.renumber f) } =
    renumber f k { b with producerHeap := b.producerHeap.write p me } := by
  simp only [renumber, Heap.map_write]

theorem destroyConsumer_renumber :
    (b.renumber f k).destroyConsumer c = (b.destroyConsumer c).map (·.renumber f k) := by
  rw [destroyConsumer, destroyConsumer, derefConsumer_renumber]
  cases b.derefConsumer c <;> rfl

theorem notify_renumber (m : NotificationImpl Ev) :
    (b.renumber f k).notify i p c (m.renumber f) = (b.notify i p c m).map (·.renumber f k) := by
  rw [notify, notify, derefConsumer_renumber]
  cases b.derefConsumer c <;> rfl

theorem maybeAdd_renumber :
    (b.renumber f k).maybeAdd i p c = (b.maybeAdd i p c).map (·.renumber f k) := by
  rw [maybeAdd, maybeAdd, derefProducer_renumber, derefConsumer_renumber]
  cases b.derefProducer p with
  | error e => rfl
  | ok me =>
    cases b.derefConsumer c with
    | error e => rfl
    | ok consumer =>
      by_cases hmatch : me.isMatch consumer.filter
      · let added : ProducerImpl H := { me with consumers := me.consumers ++ [c] }
        have hnotify := notify_renumber f k
          { b with producerHeap := b.producerHeap.write p added } i p c
          (me.notification .startProducer [])
        rw [← write_renumber] at hnotify
        exact (if_pos hmatch).trans (hnotify.trans (congrArg _ (if_pos hmatch).symm))
      · exact (if_neg hmatch).trans
          (congrArg (Except.map (Outcome.renumber f k))
            (show Except.ok ⟨b, [], none⟩ = _ from (if_neg hmatch).symm))

theorem addNewEvent_renumber [SnapshotHandler Ev H] :
    (b.renumber f k).addNewEvent p ev = (b.addNewEvent p ev).map (·.renumber f k) := by
  rw [addNewEvent, addNewEvent, derefProducer_renumber]
  cases b.derefProducer p with
  | error e => rfl
  | ok me =>
    exact congrArg (fun b => Except.ok (Outcome.mk b [] none)) (write_renumber f k b p
      { me with snapshotHandler := SnapshotHandler.addNewEvent me.snapshotHandler ev })

/-- A loop of `notify`, with what follows it. -/
theorem map_notify_renumber (cs : List ConsumerPtr) (m : NotificationImpl Ev)
    (task : Task Ev) : cs.map (Task.notify i p · (m.renumber f)) ++ [task.renumber f] =
      (cs.map (Task.notify i p · m) ++ [task]).map (Task.renumber f) := by
  rw [List.map_append, List.map_map]
  rfl

theorem visit_renumber (a : Action Ev) :
    (b.renumber f k).visit i a =
      (b.visit i a).map (Prod.map (renumber f k) (List.map (Task.renumber f))) := by
  cases a with
  | initProducer p =>
    simp only [visit, Except.map, Prod.map, List.map_map]
    rfl
  | initConsumer c =>
    simp only [visit, Except.map, Prod.map, List.map_map]
    rfl
  | publish p ev =>
    rw [visit, visit, derefProducer_renumber]
    cases b.derefProducer p with
    | error e => rfl
    | ok me =>
      exact congrArg (fun tasks => Except.ok (b.renumber f k, tasks))
        (map_notify_renumber f i p me.consumers (me.notification .event [ev]) (.addNewEvent p ev))
  | destroyProducer p =>
    have hfind : (b.renumber f k).producers.find? ((b.renumber f k).producerHeap.same p) =
        b.producers.find? (b.producerHeap.same p) := rfl
    rw [visit, visit, hfind]
    cases b.producers.find? (b.producerHeap.same p) with
    | none => rfl
    | some it =>
      dsimp only
      rw [derefProducer_renumber]
      cases b.derefProducer it with
      | error e => rfl
      | ok me =>
        exact congrArg (fun tasks => Except.ok (renumber f k
            { b with producers := b.producers.eraseP (b.producerHeap.same p) }, tasks))
          (map_notify_renumber f i it me.consumers (me.notification .stopProducer [])
            (.deallocate it))
  | destroyConsumer c =>
    have hmodify : (b.renumber f k).producerHeap.modifyAll
        (ProducerImpl.maybeRemove b.consumerHeap c) b.producers =
        (b.producerHeap.modifyAll (ProducerImpl.maybeRemove b.consumerHeap c) b.producers).map
          (Heap.map (ProducerImpl.renumber f)) := by
      apply Heap.map_modifyAll
      intro me
      rfl
    rw [visit, visit]
    dsimp only [renumber] at hmodify ⊢
    rw [hmodify]
    cases b.producerHeap.modifyAll (ProducerImpl.maybeRemove b.consumerHeap c) b.producers with
    | none => rfl
    | some producerHeap =>
      dsimp only [Option.map_some]
      cases b.consumers.find? (b.consumerHeap.same c) <;> rfl

theorem doWork_renumber : (b.renumber f k).doWork i = (b.doWork i).map (·.renumber f k) := by
  have hpending : (b.renumber f k).pendingActions = b.pendingActions := rfl
  rw [doWork, doWork, hpending]
  cases b.pendingActions with
  | nil => rfl
  | cons a pendingActions =>
    dsimp only
    have hvisit := visit_renumber f k { b with pendingActions } i a
    change visit { b.renumber f k with pendingActions } i a = _ at hvisit
    rw [hvisit]
    cases visit { b with pendingActions } i a with
    | error e => rfl
    | ok r =>
      have htasks : r.2.map (Task.renumber f) ++ [Task.doWork] =
          (r.2 ++ [Task.doWork]).map (Task.renumber f) := by
        rw [List.map_append]
        rfl
      exact congrArg (fun tasks => Except.ok (Outcome.mk (r.1.renumber f k) tasks none)) htasks

end OldBroker

theorem Task.exec_renumber [SnapshotHandler Ev H] (b : OldBroker Ev H) (i : ℕ) (task : Task Ev) :
    (task.renumber f).exec (b.renumber f k) i = (task.exec b i).map (·.renumber f k) := by
  cases task with
  | doWork => exact b.doWork_renumber f k i
  | maybeAdd i p c => exact b.maybeAdd_renumber f k i p c
  | notify i p c m => exact b.notify_renumber f k i p c m
  | addNewEvent p ev => exact b.addNewEvent_renumber f k p ev
  | deallocate p =>
    simp only [Task.renumber, Task.exec, OldBroker.renumber, Heap.map_free]
    rfl

namespace System

variable (s : System Ev H)

@[simp] theorem canCall_renumber : (s.renumber f k).canCall = s.canCall := by
  simp only [canCall, renumber, List.isEmpty_map]

@[simp] theorem frontIndex_renumber : (s.renumber f k).frontIndex = s.frontIndex := by
  simp only [frontIndex, log, renumber, History.log_renumber, OldBroker.renumber]

@[simp] theorem dispatches_renumber :
    (s.renumber f k).dispatches = s.dispatches.map (·.renumber f) :=
  History.dispatches_renumber f s.history

theorem resume_renumber [SnapshotHandler Ev H] (task : Task Ev) (rest : List (Task Ev)) :
    (s.renumber f k).resume (task.renumber f) (rest.map (·.renumber f)) =
      (s.resume task rest).renumber f k := by
  have hexec : (task.renumber f).exec (s.renumber f k).broker s.frontIndex =
      (task.exec s.broker s.frontIndex).map (·.renumber f k) := Task.exec_renumber ..
  rw [resume, resume, frontIndex_renumber, hexec]
  cases task.exec s.broker s.frontIndex with
  | error e => rfl
  | ok o =>
    obtain ⟨broker, tasks, dispatched⟩ := o
    cases dispatched with
    | none => simp [Except.map, Outcome.renumber, renumber]
    | some d =>
      simp [Except.map, Outcome.renumber, renumber, Observation.renumber, Dispatch.renumber]

theorem makeProducer_renumber [SnapshotHandler Ev H] (client : Client Ev H) (a : ℕ)
    (hmake : f (s.broker.currentStreamId + 1) = k + 1) :
    (s.renumber f k).makeProducer client a = (s.makeProducer client a).renumber f (k + 1) := by
  let p := s.broker.producerHeap.next
  have hallocate := Heap.map_allocate (ProducerImpl.renumber f) s.broker.producerHeap a
    ⟨s.broker.currentStreamId + 1, client.topic p,
      SnapshotHandler.init (client.snapshotHandler p) (client.initialSnapshot p), []⟩
  simp only [ProducerImpl.renumber, hmake] at hallocate
  simpa [makeProducer, renumber, OldBroker.makeProducer, OldBroker.enqueue, OldBroker.renumber,
    Observation.renumber] using hallocate

theorem publish_renumber (p : ProducerPtr) (ev : Ev) :
    (s.renumber f k).publish p ev = (s.publish p ev).renumber f k := by
  simp [publish, renumber, OldBroker.publish, OldBroker.enqueue, OldBroker.renumber,
    Observation.renumber]

theorem destroyProducer_renumber (p : ProducerPtr) :
    (s.renumber f k).destroyProducer p = (s.destroyProducer p).renumber f k := by
  simp [destroyProducer, renumber, OldBroker.destroyProducer, OldBroker.enqueue,
    OldBroker.renumber, Observation.renumber]

theorem makeConsumer_renumber (client : Client Ev H) (a : ℕ) :
    (s.renumber f k).makeConsumer client a = (s.makeConsumer client a).renumber f k := by
  simp [makeConsumer, renumber, OldBroker.makeConsumer, OldBroker.enqueue, OldBroker.renumber,
    Observation.renumber]

theorem destroyConsumer_renumber (c : ConsumerPtr) :
    (s.renumber f k).destroyConsumer c = (s.destroyConsumer c).renumber f k := by
  have hdestroy : (s.renumber f k).broker.destroyConsumer c =
      (s.broker.destroyConsumer c).map (·.renumber f k) := OldBroker.destroyConsumer_renumber ..
  rw [destroyConsumer, destroyConsumer, hdestroy]
  cases s.broker.destroyConsumer c with
  | error e => rfl
  | ok broker => simp [Except.map, renumber, Observation.renumber]

/-- **No step looks at the ids of the streams.** A step of the renumbered system is the renumbered
step, if a new producer is given the id that goes with it. -/
theorem step_renumber [SnapshotHandler Ev H] (client : Client Ev H) {l : Label Ev}
    (hmake : l.isMakeProducer → f (s.broker.currentStreamId + 1) = k + 1) :
    (s.renumber f k).step client l = (s.step client l).map (·.renumber f (l.count k)) := by
  cases l with
  | makeProducer a =>
    have hfree : ((s.renumber f k).broker.producerHeap.cells a).isNone =
        (s.broker.producerHeap.cells a).isNone := Heap.isNone_cells_map ..
    rw [step, step, canCall_renumber, hfree, makeProducer_renumber f k s client a (hmake rfl),
      apply_ite (Option.map _)]
    rfl
  | publish p ev =>
    rw [step, step, canCall_renumber, publish_renumber, apply_ite (Option.map _)]
    rfl
  | destroyProducer p =>
    rw [step, step, canCall_renumber, destroyProducer_renumber, apply_ite (Option.map _)]
    rfl
  | makeConsumer a =>
    rw [step, step, canCall_renumber, makeConsumer_renumber, apply_ite (Option.map _)]
    rfl
  | destroyConsumer c =>
    rw [step, step, canCall_renumber, destroyConsumer_renumber, apply_ite (Option.map _)]
    rfl
  | doWork =>
    rw [step, step, apply_ite (Option.map _)]
    simp only [renumber, List.isEmpty_map]
    rfl
  | resume =>
    have hfault : (s.renumber f k).fault = s.fault := rfl
    have htodo : (s.renumber f k).todo = s.todo.map (·.renumber f) := rfl
    rw [step, step, hfault, htodo]
    cases s.fault with
    | some e => rfl
    | none =>
      cases s.todo with
      | nil => rfl
      | cons task rest => exact congrArg some (resume_renumber f k s task rest)

end System

end Renumber

/-! ### The producer of a stream id -/

/-- The producer that has been given the stream id `x`. -/
def Client.producerOf (client : Client Ev H) (x : StreamID) : ProducerPtr :=
  (x - client.currentStreamId - 1).toNat

theorem Client.producerOf_streamId (client : Client Ev H) {p : ProducerPtr} (hp : p < 2 ^ 64) :
    client.producerOf (client.streamId p) = p := by
  have hsub : client.streamId p - client.currentStreamId - 1 = UInt64.ofNat p := by
    rw [streamId, UInt64.ofNat_add, UInt64.add_comm, UInt64.add_sub_cancel]
    exact UInt64.add_sub_cancel ..
  rw [producerOf, hsub, UInt64.toNat_ofNat_of_lt' hp]

/-- A producer is made by a call of `make_producer`. -/
theorem Inv.next_of_step [SnapshotHandler Ev H] {client : Client Ev H} {s s' : System Ev H}
    {done : List (Action Ev)} (h : Inv client s done) {l : Label Ev}
    (hstep : s.step client l = some s') :
    s'.broker.producerHeap.next =
      if l.isMakeProducer then s.broker.producerHeap.next + 1 else s.broker.producerHeap.next := by
  cases System.effect_of_step hstep with
  | makeProducer | publish | destroyProducer | makeConsumer | doWork => rfl
  | destroyConsumer _ hc =>
    obtain ⟨me, hderef, -⟩ := h.consumerHeap.object (h.liveConsumer hc)
    rw [System.destroyConsumer, OldBroker.destroyConsumer_eq hderef]
    rfl
  | resume htodo =>
    obtain ⟨done', h'⟩ := h.resume htodo
    have hmade := h'.producers_made
    rw [System.log_resume, h.producers_made] at hmade
    simpa [Label.isMakeProducer] using (congrArg List.length hmade).symm

/-- A notification is sent by a producer that has been made, under its stream id. -/
theorem Inv.streamId_of_mem {client : Client Ev H} {s : System Ev H} {done : List (Action Ev)}
    (h : Inv client s done) {d : Dispatch Ev} (hd : d ∈ s.dispatches) :
    d.producer < s.broker.producerHeap.next ∧
      d.notification.streamId = client.streamId d.producer := by
  have hmem : d.delivery ∈ (client.outputs done).map client.delivery :=
    h.deliveries ▸ List.mem_append_left _ (List.mem_map_of_mem hd)
  obtain ⟨m, hm, heq⟩ := List.mem_map.mp hmem
  have hproducer : m.source = d.producer := congrArg Delivery.producer heq
  have hnotification : client.notification m.source m.signal = d.notification :=
    congrArg Delivery.notification heq
  constructor
  · have hsource : .initProducer m.source ∈ done := by
      by_contra hadd
      have hnil := PubSub.between_eq_nil_of_source_notMem (c := m.sink) .empty h.admits_done
        List.not_mem_nil (Client.mem_map_act.not.mpr hadd)
      have hsignal : m.signal ∈ PubSub.between m.source m.sink (client.outputs done) :=
        List.mem_filterMap.mpr ⟨m, hm, if_pos ⟨rfl, rfl⟩⟩
      exact List.not_mem_nil (hnil ▸ hsignal)
    have hpast : m.source ∈ (client.after s.log).sources.past :=
      Client.mem_pastProducers.mpr (h.log_eq ▸ List.mem_append_left _ hsource)
    rwa [h.producers_made, List.mem_range, hproducer] at hpast
  · rw [← hnotification, ← hproducer]
    cases m.signal <;> rfl

/-! ### The process -/

/-- The brokers of a process with their clients, and the one `current_stream_id`. The counter in a
member of `systems` is the value that its broker has seen last. -/
structure Process (ι Ev H : Type) where
  systems : ι → System Ev H
  currentStreamId : StreamID

namespace Process

variable {ι : Type}

/-- The process before the first call, when the counter has the value `k`. -/
def init (clients : ι → Client Ev H) (k : StreamID) : Process ι Ev H :=
  ⟨fun i => .init (clients i), k⟩

/-- The broker `i` and its client, with the counter of the process. -/
def system (s : Process ι Ev H) (i : ι) : System Ev H :=
  (s.systems i).counting s.currentStreamId

/-- The labels of the broker `i`. -/
def labelsOf [DecidableEq ι] (i : ι) (ls : List (ι × Label Ev)) : List (Label Ev) :=
  ls.filterMap fun l => if l.1 = i then some l.2 else none

/-- The number of producers that are made. -/
def made (ls : List (ι × Label Ev)) : ℕ := ls.countP (·.2.isMakeProducer)

theorem made_concat (ls : List (ι × Label Ev)) (l : ι × Label Ev) :
    made (ls ++ [l]) = made ls + if l.2.isMakeProducer then 1 else 0 := by
  rw [made, List.countP_append, List.countP_singleton]
  rfl

theorem made_le_concat (ls : List (ι × Label Ev)) (l : ι × Label Ev) :
    made ls ≤ made (ls ++ [l]) := by
  rw [made_concat]
  exact Nat.le_add_right ..

theorem labelsOf_concat [DecidableEq ι] (i : ι) (ls : List (ι × Label Ev)) (l : ι × Label Ev) :
    labelsOf i (ls ++ [l]) = labelsOf i ls ++ if l.1 = i then [l.2] else [] := by
  rw [labelsOf, List.filterMap_append]
  split_ifs with hi <;> simp [labelsOf, hi]

/-- The stream id of a producer of a broker, when the producers `os` are made in this order. -/
def idOf [DecidableEq ι] (k : StreamID) (os : List (ι × ProducerPtr)) (x : ι × ProducerPtr) :
    StreamID :=
  k + UInt64.ofNat (os.idxOf x + 1)

variable [DecidableEq ι] [SnapshotHandler Ev H]

/-- One step of the broker `l.1`. The steps of the brokers come in any order. -/
def step (clients : ι → Client Ev H) (s : Process ι Ev H) (l : ι × Label Ev) :
    Option (Process ι Ev H) :=
  ((s.system l.1).step (clients l.1) l.2).map fun t =>
    ⟨Function.update s.systems l.1 t, t.broker.currentStreamId⟩

/-- The invariant: the producers `os` have been made, and every broker is in the state of its own
labels, but for the stream ids. -/
structure Numbered (clients : ι → Client Ev H) (k : StreamID) (s : Process ι Ev H)
    (ls : List (ι × Label Ev)) (os : List (ι × ProducerPtr)) : Prop where
  length_eq : os.length = made ls
  counter_eq : s.currentStreamId = k + UInt64.ofNat os.length
  nodup : os.Nodup
  mem_iff : ∀ i p, (i, p) ∈ os ↔ p < (s.systems i).broker.producerHeap.next
  alone : ∀ i, ∃ u, run (System.step (clients i)) (.init (clients i)) (labelsOf i ls) = some u ∧
    ∀ ids : ι × ProducerPtr → StreamID, (∀ x ∈ os, ids x = idOf k os x) →
      s.system i = u.renumber (fun x => ids (i, (clients i).producerOf x)) s.currentStreamId

variable {clients : ι → Client Ev H} {k : StreamID} {s s' : Process ι Ev H}
  {ls : List (ι × Label Ev)} {os : List (ι × ProducerPtr)}

theorem Numbered.init (clients : ι → Client Ev H) (k : StreamID) :
    Numbered clients k (.init clients k) [] [] where
  length_eq := rfl
  counter_eq := (UInt64.add_zero _).symm
  nodup := List.nodup_nil
  mem_iff i p := by simp [Process.init, System.init, OldBroker.init, Heap.empty]
  alone i := ⟨_, rfl, fun _ _ => rfl⟩

/-- The producers of a broker are among those of the process. -/
theorem Numbered.next_le (h : Numbered clients k s ls os) (i : ι) :
    (s.systems i).broker.producerHeap.next ≤ os.length := by
  have hnodup : ((List.range (s.systems i).broker.producerHeap.next).map (i, ·)).Nodup :=
    List.nodup_range.map fun _ _ heq => congrArg Prod.snd heq
  have hsubset : (List.range (s.systems i).broker.producerHeap.next).map (i, ·) ⊆ os := by
    intro x hx
    obtain ⟨p, hp, rfl⟩ := List.mem_map.mp hx
    exact (h.mem_iff i p).mpr (List.mem_range.mp hp)
  simpa using (List.subperm_of_subset hnodup hsubset).length_le

/-- The producers that have been made after one more label. -/
def makes (s : Process ι Ev H) (os : List (ι × ProducerPtr)) (l : ι × Label Ev) :
    List (ι × ProducerPtr) :=
  if l.2.isMakeProducer then os ++ [(l.1, (s.systems l.1).broker.producerHeap.next)] else os

omit [SnapshotHandler Ev H] in
/-- The ids that have been given stay. -/
theorem idOf_makes {l : ι × Label Ev} {x : ι × ProducerPtr} (hx : x ∈ os) :
    x ∈ s.makes os l ∧ idOf k (s.makes os l) x = idOf k os x := by
  rw [makes]
  split_ifs
  · exact ⟨List.mem_append_left _ hx, by rw [idOf, List.idxOf_append_of_mem hx, idOf]⟩
  · exact ⟨hx, rfl⟩

/-- A new producer is given the next value of the counter. -/
theorem Numbered.idOf_new (h : Numbered clients k s ls os) {l : ι × Label Ev}
    (hmake : l.2.isMakeProducer) :
    (l.1, (s.systems l.1).broker.producerHeap.next) ∈ s.makes os l ∧
      idOf k (s.makes os l) (l.1, (s.systems l.1).broker.producerHeap.next) =
        s.currentStreamId + 1 := by
  have hnew : (l.1, (s.systems l.1).broker.producerHeap.next) ∉ os :=
    (h.mem_iff ..).not.mpr (Nat.lt_irrefl _)
  rw [makes, if_pos hmake]
  refine ⟨List.mem_append_right _ (List.mem_singleton_self _), ?_⟩
  rw [idOf, List.idxOf_append_of_notMem hnew, List.idxOf_cons_self, Nat.add_zero, h.counter_eq,
    UInt64.ofNat_add, UInt64.add_assoc]
  rfl

/-- **One step.** The broker of the label does what it does alone. -/
theorem Numbered.step_eq (h : Numbered clients k s ls os) {l : ι × Label Ev}
    (hmade : made (ls ++ [l]) < 2 ^ 64) {u : System Ev H}
    (hu : run (System.step (clients l.1)) (.init (clients l.1)) (labelsOf l.1 ls) = some u)
    {ids : ι × ProducerPtr → StreamID}
    (hids : ∀ x ∈ s.makes os l, ids x = idOf k (s.makes os l) x) :
    step clients s l = (u.step (clients l.1) l.2).map fun t =>
      ⟨Function.update s.systems l.1 (t.renumber (fun x => ids (l.1, (clients l.1).producerOf x))
        (l.2.count s.currentStreamId)), l.2.count s.currentStreamId⟩ := by
  obtain ⟨u', hu', hsystem⟩ := h.alone l.1
  obtain rfl : u' = u := Option.some.inj (hu'.symm.trans hu)
  have hsystem := hsystem ids fun x hx => by
    obtain ⟨hmem, heq⟩ := idOf_makes (k := k) (s := s) (l := l) hx
    rw [hids x hmem, heq]
  have hnext : (s.systems l.1).broker.producerHeap.next = u'.broker.producerHeap.next :=
    congrArg (·.broker.producerHeap.next) hsystem
  have hmake : l.2.isMakeProducer →
      ids (l.1, (clients l.1).producerOf (u'.broker.currentStreamId + 1)) =
        s.currentStreamId + 1 := by
    intro hmake
    obtain ⟨done, hinv⟩ := inv_of_reachable ⟨_, hu⟩
    have hlt : u'.broker.producerHeap.next < 2 ^ 64 := by
      have hle := h.next_le l.1
      rw [made_concat, if_pos hmake, ← h.length_eq] at hmade
      omega
    have hid : u'.broker.currentStreamId + 1 =
        (clients l.1).streamId u'.broker.producerHeap.next := by
      rw [hinv.currentStreamId_eq, Client.streamId, UInt64.ofNat_add, UInt64.add_assoc]
      rfl
    obtain ⟨hmem, heq⟩ := h.idOf_new hmake
    rw [hnext] at hmem heq
    rw [hid, (clients l.1).producerOf_streamId hlt, hids _ hmem, heq]
  rw [step, hsystem, System.step_renumber _ _ _ _ hmake, Option.map_map]
  rfl

/-- The counter goes on with the producers. -/
theorem Numbered.count_eq (h : Numbered clients k s ls os) (l : ι × Label Ev) :
    l.2.count s.currentStreamId = k + UInt64.ofNat (s.makes os l).length := by
  rw [Label.count, makes]
  split_ifs
  · rw [h.counter_eq, List.length_append, List.length_singleton, UInt64.ofNat_add,
      UInt64.add_assoc]
    rfl
  · exact h.counter_eq

theorem Numbered.length_makes (h : Numbered clients k s ls os) (l : ι × Label Ev) :
    (s.makes os l).length = made (ls ++ [l]) := by
  rw [makes, made_concat, ← h.length_eq]
  split_ifs
  · rw [List.length_append, List.length_singleton]
  · rfl

theorem Numbered.nodup_makes (h : Numbered clients k s ls os) (l : ι × Label Ev) :
    (s.makes os l).Nodup := by
  rw [makes]
  split_ifs
  · refine List.nodup_append.mpr ⟨h.nodup, List.nodup_singleton _, ?_⟩
    rintro x hx y hy rfl
    rw [List.mem_singleton.mp hy] at hx
    exact Nat.lt_irrefl _ ((h.mem_iff ..).mp hx)
  · exact h.nodup

/-- The producers of every broker after one more step. -/
theorem Numbered.mem_makes_iff (h : Numbered clients k s ls os) {l : ι × Label Ev}
    (hnext : (s'.systems l.1).broker.producerHeap.next =
      if l.2.isMakeProducer then (s.systems l.1).broker.producerHeap.next + 1
      else (s.systems l.1).broker.producerHeap.next)
    (hsame : ∀ i, i ≠ l.1 → s'.systems i = s.systems i) (i : ι) (p : ProducerPtr) :
    (i, p) ∈ s.makes os l ↔ p < (s'.systems i).broker.producerHeap.next := by
  rw [makes]
  by_cases hi : i = l.1
  · subst hi
    rw [hnext]
    split_ifs
    · rw [List.mem_append, h.mem_iff, List.mem_singleton, Prod.mk.injEq, Nat.lt_succ_iff_lt_or_eq]
      simp
    · exact h.mem_iff _ p
  · rw [hsame i hi]
    split_ifs
    · rw [List.mem_append, h.mem_iff, List.mem_singleton, Prod.mk.injEq]
      simp [hi]
    · exact h.mem_iff i p

/-- A step of the process is one of the broker alone. -/
theorem Numbered.exists_step (h : Numbered clients k s ls os) {l : ι × Label Ev}
    (hmade : made (ls ++ [l]) < 2 ^ 64) (hstep : Process.step clients s l = some s')
    {u : System Ev H}
    (hu : run (System.step (clients l.1)) (.init (clients l.1)) (labelsOf l.1 ls) = some u) :
    ∃ t, u.step (clients l.1) l.2 = some t ∧
      s'.currentStreamId = l.2.count s.currentStreamId ∧
      (∀ i, i ≠ l.1 → s'.systems i = s.systems i) ∧
      ∀ ids : ι × ProducerPtr → StreamID,
        (∀ x ∈ s.makes os l, ids x = idOf k (s.makes os l) x) →
        s'.systems l.1 =
          t.renumber (fun x => ids (l.1, (clients l.1).producerOf x)) s'.currentStreamId := by
  have hids : ∀ x ∈ s.makes os l, idOf k (s.makes os l) x = idOf k (s.makes os l) x :=
    fun _ _ => rfl
  obtain ⟨t, ht, rfl⟩ := Option.map_eq_some_iff.mp ((h.step_eq hmade hu hids).symm.trans hstep)
  refine ⟨t, ht, rfl, fun i hi => Function.update_of_ne hi .., fun ids hids => ?_⟩
  rw [h.step_eq hmade hu hids, ht, Option.map_some, Option.some.injEq] at hstep
  have hself := congrArg (·.systems l.1) hstep
  dsimp only at hself
  rw [Function.update_self] at hself
  exact hself.symm

theorem Numbered.step (h : Numbered clients k s ls os) {l : ι × Label Ev}
    (hmade : made (ls ++ [l]) < 2 ^ 64) (hstep : Process.step clients s l = some s') :
    Numbered clients k s' (ls ++ [l]) (s.makes os l) := by
  obtain ⟨u, hu, hsystem⟩ := h.alone l.1
  obtain ⟨t, ht, hcounter, hsame, hself⟩ := h.exists_step hmade hstep hu
  have hnext : (s'.systems l.1).broker.producerHeap.next =
      if l.2.isMakeProducer then (s.systems l.1).broker.producerHeap.next + 1
      else (s.systems l.1).broker.producerHeap.next := by
    obtain ⟨done, hinv⟩ := inv_of_reachable ⟨_, hu⟩
    have hnext := hinv.next_of_step ht
    have hu : (s.systems l.1).broker.producerHeap.next = u.broker.producerHeap.next :=
      congrArg (·.broker.producerHeap.next) (hsystem (idOf k os) fun _ _ => rfl)
    rw [hself _ fun _ _ => rfl, hu]
    exact hnext
  refine ⟨h.length_makes l, hcounter.trans (h.count_eq l), h.nodup_makes l,
    h.mem_makes_iff hnext hsame, fun i => ?_⟩
  by_cases hi : i = l.1
  · subst hi
    refine ⟨t, ?_, fun ids hids => ?_⟩
    · rw [labelsOf_concat, if_pos rfl, run_append_eq_some]
      exact ⟨u, hu, (run_cons_eq_some _).mpr ⟨t, ht, rfl⟩⟩
    · rw [system, hself ids hids]
      rfl
  · obtain ⟨v, hv, hsystem⟩ := h.alone i
    refine ⟨v, ?_, fun ids hids => ?_⟩
    · rwa [labelsOf_concat, if_neg (Ne.symm hi), List.append_nil]
    · have hsystem := hsystem ids fun x hx => by
        obtain ⟨hmem, heq⟩ := idOf_makes (k := k) (s := s) (l := l) hx
        rw [hids x hmem, heq]
      rw [system, hsame i hi]
      exact congrArg (System.counting s'.currentStreamId) hsystem

theorem numbered_of_run (hmade : made ls < 2 ^ 64)
    (hrun : run (step clients) (.init clients k) ls = some s) :
    ∃ os, Numbered clients k s ls os := by
  refine run_labels (step clients) (P := fun s ls => made ls < 2 ^ 64 →
    ∃ os, Numbered clients k s ls os) ?_ (fun _ => ⟨[], .init clients k⟩) hrun hmade
  intro s l s' ls ih hstep hmade
  obtain ⟨os, h⟩ := ih (Nat.lt_of_le_of_lt (made_le_concat ls l) hmade)
  exact ⟨_, h.step hmade hstep⟩

/-- Different producers have different ids. -/
theorem Numbered.idOf_inj (h : Numbered clients k s ls os) (hmade : made ls < 2 ^ 64)
    {x y : ι × ProducerPtr} (hx : x ∈ os) (hy : y ∈ os) : idOf k os x = idOf k os y ↔ x = y := by
  refine ⟨fun heq => ?_, fun heq => by rw [heq]⟩
  have hlt : ∀ {z}, z ∈ os → os.idxOf z + 1 < 2 ^ 64 := by
    intro z hz
    have := List.idxOf_lt_length_of_mem hz
    rw [h.length_eq] at this
    omega
  have hnat := congrArg UInt64.toNat ((UInt64.add_right_inj k).mp heq)
  rw [UInt64.toNat_ofNat_of_lt' (hlt hx), UInt64.toNat_ofNat_of_lt' (hlt hy)] at hnat
  exact (List.idxOf_inj hx).mp (Nat.succ.inj hnat)

/-- A notification carries the stream id of its producer in its broker. -/
theorem Numbered.streamId_of_mem (h : Numbered clients k s ls os) (hmade : made ls < 2 ^ 64)
    {i : ι} {d : Dispatch Ev} (hd : d ∈ (s.system i).dispatches) :
    (i, d.producer) ∈ os ∧ d.notification.streamId = idOf k os (i, d.producer) := by
  obtain ⟨u, hu, hsystem⟩ := h.alone i
  have hsystem := hsystem (idOf k os) fun _ _ => rfl
  obtain ⟨done, hinv⟩ := inv_of_reachable ⟨_, hu⟩
  have hnext : (s.systems i).broker.producerHeap.next = u.broker.producerHeap.next :=
    congrArg (·.broker.producerHeap.next) hsystem
  rw [hsystem, System.dispatches_renumber] at hd
  obtain ⟨d, hmem, rfl⟩ := List.mem_map.mp hd
  obtain ⟨hlt, hid⟩ := hinv.streamId_of_mem hmem
  have hlt' : d.producer < 2 ^ 64 := by
    have hle := h.next_le i
    rw [hnext, h.length_eq] at hle
    exact Nat.lt_trans (Nat.lt_of_lt_of_le hlt hle) hmade
  refine ⟨(h.mem_iff ..).mpr (hnext ▸ hlt), ?_⟩
  change idOf k os (i, (clients i).producerOf d.notification.streamId) = _
  rw [hid, (clients i).producerOf_streamId hlt']
  rfl

/-- Runs of the brokers alone can be interleaved in any order. -/
theorem exists_run (hmade : made ls < 2 ^ 64)
    (halone : ∀ i, ∃ u,
      run (System.step (clients i)) (.init (clients i)) (labelsOf i ls) = some u) :
    ∃ s, run (step clients) (.init clients k) ls = some s := by
  induction ls using List.reverseRecOn with
  | nil => exact ⟨_, rfl⟩
  | append_singleton ls l ih =>
    have hlt : made ls < 2 ^ 64 := Nat.lt_of_le_of_lt (made_le_concat ls l) hmade
    have halone' : ∀ i, ∃ u, run (System.step (clients i)) (.init (clients i)) (labelsOf i ls) =
        some u := by
      intro i
      obtain ⟨v, hv⟩ := halone i
      rw [labelsOf_concat, run_append_eq_some] at hv
      obtain ⟨u, hu, -⟩ := hv
      exact ⟨u, hu⟩
    obtain ⟨s, hs⟩ := ih hlt halone'
    obtain ⟨os, h⟩ := numbered_of_run hlt hs
    obtain ⟨v, hv⟩ := halone l.1
    rw [labelsOf_concat, if_pos rfl, run_append_eq_some] at hv
    obtain ⟨u, hu, hlast⟩ := hv
    obtain ⟨t, ht, -⟩ := (run_cons_eq_some _).mp hlast
    have hids : ∀ x ∈ s.makes os l, idOf k (s.makes os l) x = idOf k (s.makes os l) x :=
      fun _ _ => rfl
    have hstep := h.step_eq hmade hu hids
    rw [ht] at hstep
    exact ⟨_, (run_append_eq_some _).mpr ⟨s, hs, (run_cons_eq_some _).mpr ⟨_, hstep, rfl⟩⟩⟩

end Process

section Independence

variable {ι : Type} [DecidableEq ι] [SnapshotHandler Ev H] {clients : ι → Client Ev H}
  {k : StreamID} {ls : List (ι × Label Ev)}

/-- **The brokers of a process are independent.** A list of labels is a run of the process exactly
if the labels of every broker are a run of it alone. Then every broker is in the state it has alone,
but for the ids of the streams; and these are different for all producers of all brokers. -/
theorem brokers_independent (hmade : Process.made ls < 2 ^ 64) :
    ((∃ s, run (Process.step clients) (.init clients k) ls = some s) ↔
      ∀ i, ∃ u, run (System.step (clients i)) (.init (clients i)) (Process.labelsOf i ls) =
        some u) ∧
    ∀ s, run (Process.step clients) (.init clients k) ls = some s →
      ∃ ids : ι × ProducerPtr → StreamID,
        (∀ i u,
          run (System.step (clients i)) (.init (clients i)) (Process.labelsOf i ls) = some u →
          s.system i =
            u.renumber (fun x => ids (i, (clients i).producerOf x)) s.currentStreamId) ∧
        ∀ i p j q, p < (s.system i).broker.producerHeap.next →
          q < (s.system j).broker.producerHeap.next → ids (i, p) = ids (j, q) →
          i = j ∧ p = q := by
  constructor
  · refine ⟨?_, Process.exists_run hmade⟩
    rintro ⟨s, hs⟩ i
    obtain ⟨os, h⟩ := Process.numbered_of_run hmade hs
    obtain ⟨u, hu, -⟩ := h.alone i
    exact ⟨u, hu⟩
  · intro s hs
    obtain ⟨os, h⟩ := Process.numbered_of_run hmade hs
    refine ⟨Process.idOf k os, fun i u hu => ?_, fun i p j q hp hq heq => ?_⟩
    · obtain ⟨u', hu', hsystem⟩ := h.alone i
      obtain rfl : u' = u := Option.some.inj (hu'.symm.trans hu)
      exact hsystem _ fun _ _ => rfl
    · have hinj := h.idOf_inj hmade ((h.mem_iff i p).mpr hp) ((h.mem_iff j q).mpr hq)
      exact Prod.mk.inj (hinj.mp heq)

/-- Two brokers with one producer and one consumer each. The handler of one of them runs the
`do_work` of the other. -/
def twoBrokers : List (Bool × Label ℕ) :=
  [(false, .makeProducer 0), (true, .makeProducer 0), (true, .makeConsumer 0),
    (false, .makeConsumer 0), (false, .doWork), (false, .resume), (false, .resume),
    (false, .resume), (true, .doWork), (true, .resume), (true, .resume), (true, .resume),
    (true, .resume), (false, .resume)]

theorem brokers_independent_of_twoBrokers :
    ∃ s, run (Process.step fun _ => oneStream) (.init (fun _ => oneStream) 6) twoBrokers = some s ∧
      (s.system false).dispatches.map (·.notification.streamId) = [7] ∧
      (s.system true).dispatches.map (·.notification.streamId) = [8] ∧
      ∃ ids : Bool × ProducerPtr → StreamID, ∀ i u,
        run (System.step oneStream) (.init oneStream) (Process.labelsOf i twoBrokers) = some u →
          s.system i = u.renumber (fun x => ids (i, oneStream.producerOf x)) s.currentStreamId := by
  have hrun : (run (Process.step fun _ => oneStream) (.init (fun _ => oneStream) 6) twoBrokers).map
      (fun s => ((s.system false).dispatches.map (·.notification.streamId),
        (s.system true).dispatches.map (·.notification.streamId))) = some ([7], [8]) := by
    decide
  obtain ⟨s, hs, heq⟩ := Option.map_eq_some_iff.mp hrun
  rw [Prod.mk.injEq] at heq
  obtain ⟨ids, hids, -⟩ := (brokers_independent (by decide)).2 s hs
  exact ⟨s, hs, heq.1, heq.2, ids, hids⟩

/-- **A stream id names one stream.** Two calls of `notify` in a process carry the same stream id
exactly if they were made by the same producer of the same broker. -/
theorem same_stream_iff (hmade : Process.made ls < 2 ^ 64) {s : Process ι Ev H}
    (hrun : run (Process.step clients) (.init clients k) ls = some s) {i j : ι}
    {d d' : Dispatch Ev} (hd : d ∈ (s.system i).dispatches) (hd' : d' ∈ (s.system j).dispatches) :
    d.notification.streamId = d'.notification.streamId ↔ i = j ∧ d.producer = d'.producer := by
  obtain ⟨os, h⟩ := Process.numbered_of_run hmade hrun
  obtain ⟨hmem, hid⟩ := h.streamId_of_mem hmade hd
  obtain ⟨hmem', hid'⟩ := h.streamId_of_mem hmade hd'
  rw [hid, hid', h.idOf_inj hmade hmem hmem', Prod.mk.injEq]

theorem same_stream_iff_of_twoBrokers :
    ∃ s, run (Process.step fun _ => oneStream) (.init (fun _ => oneStream) 6) twoBrokers = some s ∧
      ∃ d ∈ (s.system false).dispatches, ∃ d' ∈ (s.system true).dispatches,
        d.producer = d'.producer ∧ d.notification.streamId ≠ d'.notification.streamId := by
  have hrun : (run (Process.step fun _ => oneStream) (.init (fun _ => oneStream) 6) twoBrokers).map
      (fun s => ((s.system false).dispatches.map (·.producer),
        (s.system true).dispatches.map (·.producer))) = some ([0], [0]) := by
    decide
  obtain ⟨s, hs, heq⟩ := Option.map_eq_some_iff.mp hrun
  rw [Prod.mk.injEq] at heq
  obtain ⟨d, hd, hproducer⟩ := List.mem_map.mp (heq.1 ▸ List.mem_singleton_self 0)
  obtain ⟨d', hd', hproducer'⟩ := List.mem_map.mp (heq.2 ▸ List.mem_singleton_self 0)
  refine ⟨s, hs, d, hd, d', hd', hproducer.trans hproducer'.symm, fun hid => ?_⟩
  exact Bool.false_ne_true ((same_stream_iff (by decide) hs hd hd').mp hid).1

end Independence

end Keryx
