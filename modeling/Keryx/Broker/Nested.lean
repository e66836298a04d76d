import Keryx.Broker.Delivery

/-!
# Calls of `do_work` at any point

A handler may call `do_work` itself. The running loop is then suspended until the inner `do_work`
has emptied the queue. As long as an inner `do_work` carries out `Publish` actions only, no registry
and no list changes under a suspended loop, and every call of `notify` that the broker makes is one
of the messages of the abstract model, though not in their order.

The runs here are those whose inner calls carry out `Publish` actions only. Every other action
changes a registry or the list of a producer. Where a suspended loop goes over what it changes, that
is undefined behaviour; elsewhere the source goes on, and such runs are not looked at.

The invariant is about the system in which the inner calls have not happened: the actions that they
have taken out of the queue are still in it, and the outermost loop is the one that runs. Nothing in
`Inv` depends on what the inner calls have changed, which are the snapshot handlers.

## Main definitions

* `Nested.step` — the broker and its client; `do_work` may be called from outside and by a handler.
* `System.under` — the system in which the inner calls have not happened.
* `Nested.Ok` — the invariant.

## Main results

* `Nested.ok_of_reachable` — every run keeps the invariant.
* `Nested.sent_of_reachable` — every call of `notify` is one of the messages of the log.
-/

namespace Keryx

variable {Ev H : Type}

/-- A broker and its client. `suspended` are the loops whose handlers have called `do_work`, the
last one first. -/
structure Nested (Ev H : Type) where
  system : System Ev H
  suspended : List (List (Task Ev))

namespace Nested

/-- The system before the first call. -/
def init (client : Client Ev H) : Nested Ev H := ⟨.init client, []⟩

/-- The running handler calls `do_work`. -/
def push (n : Nested Ev H) : Nested Ev H where
  system := { n.system with todo := [.doWork], inHandler := false }
  suspended := n.system.todo :: n.suspended

/-- A `do_work` that has come to its end returns to the handler that called it. -/
def leave (n : Nested Ev H) : Nested Ev H :=
  match n.system.todo, n.suspended with
  | [], todo :: suspended => ⟨{ n.system with todo, inHandler := true }, suspended⟩
  | _, _ => n

/-- A `do_work` called by a handler comes to an action that is no `Publish`. The run ends there,
whether or not a suspended loop goes over what the action changes. -/
def blocked (n : Nested Ev H) (task : Task Ev) : Bool :=
  match task with
  | .doWork => !n.suspended.isEmpty && n.system.broker.pendingActions.head?.any (!·.isPublish)
  | _ => false

/-- One step. A `do_work` called by a handler carries out `Publish` actions only. -/
def step [SnapshotHandler Ev H] (client : Client Ev H) (n : Nested Ev H) :
    Label Ev → Option (Nested Ev H)
  | .doWork =>
    if n.system.todo.isEmpty then
      (n.system.step client .doWork).map fun system => { n with system }
    else if n.system.canCall then some n.push else none
  | .resume =>
    match n.system.fault, n.system.todo with
    | none, task :: rest =>
      if n.blocked task then none
      else some (leave { n with system := n.system.resume task rest })
    | _, _ => none
  | l => (n.system.step client l).map fun system => { n with system }

/-- The return from an inner `do_work` is not observed. -/
theorem history_leave (n : Nested Ev H) : n.leave.system.history = n.system.history := by
  rw [leave]
  split <;> rfl

/-- What each label does, and when it can happen. -/
inductive Effect [SnapshotHandler Ev H] (client : Client Ev H) (n : Nested Ev H) :
    Label Ev → Nested Ev H → Prop
  | start (htodo : n.system.todo = []) :
      Effect client n .doWork { n with system := { n.system with todo := [.doWork] } }
  | push (htodo : n.system.todo ≠ []) : Effect client n .doWork n.push
  | call {l system} (hl : l ≠ .doWork ∧ l ≠ .resume)
      (hstep : n.system.step client l = some system) : Effect client n l { n with system }
  | resume {task rest} (htodo : n.system.todo = task :: rest) (hblocked : n.blocked task = false) :
      Effect client n .resume (leave { n with system := n.system.resume task rest })

theorem effect_of_step [SnapshotHandler Ev H] {client : Client Ev H} {n n' : Nested Ev H}
    {l : Label Ev} (h : n.step client l = some n') : Effect client n l n' := by
  cases l with
  | doWork =>
    rw [step] at h
    split_ifs at h with hempty hcan
    · obtain ⟨system, hstep, rfl⟩ := Option.map_eq_some_iff.mp h
      cases System.effect_of_step hstep with
      | doWork htodo => exact .start htodo
    · exact Option.some.inj h ▸ .push (by simpa using hempty)
  | resume =>
    rw [step] at h
    split at h
    · next htodo =>
      split_ifs at h with hblocked
      exact Option.some.inj h ▸ .resume htodo (by simpa using hblocked)
    · cases h
  | _ =>
    obtain ⟨system, hstep, rfl⟩ := Option.map_eq_some_iff.mp h
    exact .call ⟨nofun, nofun⟩ hstep

end Nested

/-! ### The actions that an inner `do_work` takes out of the queue -/

namespace Client

variable (client : Client Ev H) {L ahead : List (Action Ev)}

/-- `Publish` actions change no registry. -/
theorem after_publishes (hahead : ∀ a ∈ ahead, a.isPublish) :
    (client.after (L ++ ahead)).sources = (client.after L).sources ∧
      (client.after (L ++ ahead)).sinks = (client.after L).sinks := by
  induction ahead generalizing L with
  | nil => simp
  | cons a ahead ih =>
    obtain ⟨ha, hahead⟩ := List.forall_mem_cons.mp hahead
    rw [List.append_cons, (ih hahead).1, (ih hahead).2, client.after_concat]
    cases a with
    | publish p ev => exact ⟨rfl, rfl⟩
    | _ => cases ha

/-- The messages of the beginning of a log are messages of the log. -/
theorem outputs_subset (L L' : List (Action Ev)) : client.outputs L ⊆ client.outputs (L ++ L') := by
  rw [outputs, outputs, List.map_append, Machine.outputs_append]
  exact List.subset_append_left _ _

end Client

namespace Inv

variable {client : Client Ev H} {s : System Ev H} {done : List (Action Ev)}

/-- The snapshot handlers do not matter. -/
theorem write_snapshotHandler (h : Inv client s done) {p : ProducerPtr} {me : ProducerImpl H}
    (hp : p ∈ (client.after done).sources.members)
    (hderef : s.broker.producerHeap.deref p = some me) (snapshotHandler : H) :
    Inv client { s with broker := { s.broker with
      producerHeap := s.broker.producerHeap.write p { me with snapshotHandler } } } done := by
  obtain ⟨me', hderef', hme⟩ := h.producerHeap.object (.inl hp)
  obtain rfl : me = me' := Option.some.inj (hderef.symm.trans hderef')
  refine { h with producerHeap := h.producerHeap.write (.inl hp) ?_ fun _ _ _ _ => id }
  exact ⟨hme.id_eq, hme.topic_eq, hme.consumers_eq, hme.consumers_nil⟩

variable [SnapshotHandler Ev H]

/-- The loop of `Publish` is carried out, except for the snapshot handler. -/
theorem skip_loop {i : ℕ} {p : ProducerPtr} {ev : Ev} {m : NotificationImpl Ev}
    {cs : List ConsumerPtr} (h : Inv client s done)
    (htodo : s.todo = cs.map (.notify i p · m) ++ [.addNewEvent p ev, .doWork]) :
    ∃ history : History Ev, history.log = s.log ∧
      Inv client { s with todo := [.doWork], history } done := by
  induction cs generalizing s with
  | nil =>
    have hinv := h.silent htodo rfl (h.producerHeap_pop htodo fun _ => rfl) .doWork rfl
    exact ⟨s.history, rfl, { hinv with }⟩
  | cons c cs ih =>
    obtain ⟨d, hinv⟩ := h.skip_notify htodo
    obtain ⟨history, hlog, hinv'⟩ := ih hinv rfl
    exact ⟨history, hlog.trans (History.log_dispatched ..), hinv'⟩

/-- A `Publish` action is carried out, except for the snapshot handler. -/
theorem skip_publish {p : ProducerPtr} {ev : Ev} {as : List (Action Ev)} (h : Inv client s done)
    (htodo : s.todo = [.doWork]) (hpending : s.broker.pendingActions = .publish p ev :: as) :
    ∃ history : History Ev, history.log = s.log ∧
      Inv client { s with broker := { s.broker with pendingActions := as }, history }
        (done ++ [.publish p ev]) := by
  have hp := Client.ok_publish.mp (h.ok_front hpending)
  obtain ⟨me, hderef, -⟩ := h.consumers_of_idle (.inr htodo) hp
  obtain ⟨b, tasks, hvisit, hinv⟩ := h.visit_publish htodo hpending
  have hvisit' : OldBroker.visit { s.broker with pendingActions := as } s.frontIndex
      (.publish p ev) = _ := OldBroker.visit_publish_eq hderef
  cases hvisit.symm.trans hvisit'
  obtain ⟨history, hlog, hinv'⟩ := hinv.skip_loop (List.append_assoc ..)
  refine ⟨history, hlog, ?_⟩
  rw [← htodo] at hinv'
  exact { hinv' with }

/-- `Publish` actions are carried out, except for the snapshot handlers. -/
theorem skip_publishes {ahead as : List (Action Ev)} (h : Inv client s done)
    (htodo : s.todo = [.doWork]) (hahead : ∀ a ∈ ahead, a.isPublish)
    (hpending : s.broker.pendingActions = ahead ++ as) :
    ∃ history : History Ev, history.log = s.log ∧
      Inv client { s with broker := { s.broker with pendingActions := as }, history }
        (done ++ ahead) := by
  induction ahead generalizing s done with
  | nil =>
    refine ⟨s.history, rfl, ?_⟩
    rw [List.append_nil, ← List.nil_append as, ← hpending]
    exact { h with }
  | cons a ahead ih =>
    obtain ⟨ha, htail⟩ := List.forall_mem_cons.mp hahead
    cases a with
    | publish p ev =>
      obtain ⟨history, hlog, hinv⟩ := h.skip_publish htodo hpending
      obtain ⟨history', hlog', hinv'⟩ := ih hinv htodo htail rfl
      rw [List.append_cons]
      exact ⟨history', hlog'.trans hlog, hinv'⟩
    | _ => cases ha

end Inv

/-! ### The system under the inner calls -/

namespace History

variable (h : History Ev) (ds : List (Dispatch Ev))

theorem log_dispatches : log (h ++ ds.map .dispatched) = log h := by
  simp [log, List.filterMap_map]

theorem dispatches_dispatches : dispatches (h ++ ds.map .dispatched) = dispatches h ++ ds := by
  simp [dispatches, List.filterMap_map]

end History

/-- A task other than the loop of `do_work` does not look at the queue. -/
theorem Task.exec_pending [SnapshotHandler Ev H] {task : Task Ev} (htask : task ≠ .doWork)
    (b : OldBroker Ev H) (pendingActions : List (Action Ev)) (i j : ℕ) :
    task.exec { b with pendingActions } i =
      (task.exec b j).map fun o => { o with broker := { o.broker with pendingActions } } := by
  cases task with
  | doWork => exact absurd rfl htask
  | maybeAdd k p c =>
    change OldBroker.maybeAdd _ k p c = (b.maybeAdd k p c).map _
    cases hp : b.producerHeap.deref p with
    | none =>
      simp only [OldBroker.maybeAdd, OldBroker.derefProducer, hp]
      rfl
    | some me =>
      cases hc : b.consumerHeap.deref c with
      | none =>
        simp only [OldBroker.maybeAdd, OldBroker.derefProducer, OldBroker.derefConsumer, hp, hc]
        rfl
      | some consumer =>
        by_cases hmatch : me.isMatch consumer.filter
        · rw [OldBroker.maybeAdd_of_isMatch (b := b) hp hc hmatch]
          exact OldBroker.maybeAdd_of_isMatch hp hc hmatch
        · rw [OldBroker.maybeAdd_of_not_isMatch (b := b) hp hc hmatch]
          exact OldBroker.maybeAdd_of_not_isMatch hp hc hmatch
  | notify k p c m =>
    simp only [exec, OldBroker.notify, OldBroker.derefConsumer]
    cases b.consumerHeap.deref c <;> rfl
  | addNewEvent p ev =>
    simp only [exec, OldBroker.addNewEvent, OldBroker.derefProducer]
    cases b.producerHeap.deref p <;> rfl
  | deallocate p => rfl

namespace System

variable (s : System Ev H) (todo : List (Task Ev)) (ahead : List (Action Ev)) (history : History Ev)

/-- The system in which the inner calls of `do_work` have not happened: `todo` is left of the
outermost loop, and the actions `ahead` are still in the queue. A handler runs. -/
def under : System Ev H :=
  { s with
    broker := { s.broker with pendingActions := ahead ++ s.broker.pendingActions }
    todo
    inHandler := true
    history }

variable {s} [SnapshotHandler Ev H] {client : Client Ev H} {s' : System Ev H}

/-- A call does the same in the system under the inner calls. -/
theorem under_step {done : List (Action Ev)} (h : Inv client (s.under todo ahead history) done)
    {l : Label Ev} (hl : l ≠ .doWork ∧ l ≠ .resume) (hstep : s.step client l = some s') :
    ∃ a, s'.todo = s.todo ∧ s'.history = s.history ++ [.enqueued a] ∧
      (s.under todo ahead history).step client l =
        some (s'.under todo ahead (history ++ [.enqueued a])) := by
  have hcan (hs : s.canCall) : (s.under todo ahead history).canCall := by
    rw [canCall, Bool.and_eq_true] at hs
    simp [canCall, under, hs.1]
  cases effect_of_step hstep with
  | makeProducer hs ha =>
    refine ⟨_, rfl, rfl, (if_pos ?_).trans (congrArg some ?_)⟩
    · exact Bool.and_eq_true_iff.mpr ⟨hcan hs, Option.isNone_iff_eq_none.mpr ha⟩
    · simp [under, makeProducer, OldBroker.makeProducer, OldBroker.enqueue]
  | publish hs hp =>
    refine ⟨_, rfl, rfl, (if_pos ?_).trans (congrArg some ?_)⟩
    · exact Bool.and_eq_true_iff.mpr ⟨hcan hs, List.contains_iff_mem.mpr hp⟩
    · simp [under, publish, OldBroker.publish, OldBroker.enqueue]
  | destroyProducer hs hp =>
    refine ⟨_, rfl, rfl, (if_pos ?_).trans (congrArg some ?_)⟩
    · exact Bool.and_eq_true_iff.mpr ⟨hcan hs, List.contains_iff_mem.mpr hp⟩
    · simp [under, destroyProducer, OldBroker.destroyProducer, OldBroker.enqueue]
  | makeConsumer hs ha =>
    refine ⟨_, rfl, rfl, (if_pos ?_).trans (congrArg some ?_)⟩
    · exact Bool.and_eq_true_iff.mpr ⟨hcan hs, Option.isNone_iff_eq_none.mpr ha⟩
    · simp [under, makeConsumer, OldBroker.makeConsumer, OldBroker.enqueue]
  | destroyConsumer hs hc =>
    obtain ⟨me, hderef, -⟩ := h.consumerHeap.object (h.liveConsumer hc)
    have hderef' : s.broker.consumerHeap.deref _ = some me := hderef
    rw [destroyConsumer, OldBroker.destroyConsumer_eq hderef']
    refine ⟨_, rfl, rfl, (if_pos ?_).trans (congrArg some ?_)⟩
    · exact Bool.and_eq_true_iff.mpr ⟨hcan hs, List.contains_iff_mem.mpr hc⟩
    · rw [destroyConsumer, OldBroker.destroyConsumer_eq hderef]
      simp [under, OldBroker.enqueue]
  | doWork => exact absurd rfl hl.1
  | resume => exact absurd rfl hl.2

/-- A pass of the outermost loop does the same in the system under the inner calls. -/
theorem under_resume {done : List (Action Ev)} {task : Task Ev} {rest : List (Task Ev)}
    (h : Inv client (s.under (task :: rest) ahead history) done) (htask : task ≠ .doWork) :
    ∃ (tasks : List (Task Ev)) (dispatched : List (Dispatch Ev)),
      (s.resume task rest).todo = tasks ++ rest ∧
      (s.resume task rest).history = s.history ++ dispatched.map .dispatched ∧
      Inv client ((s.resume task rest).under (tasks ++ rest) ahead
        (history ++ dispatched.map .dispatched)) done := by
  have hinv := h.resume_pass rfl htask
  have hexec := Task.exec_pending htask s.broker (ahead ++ s.broker.pendingActions)
    (s.under (task :: rest) ahead history).frontIndex s.frontIndex
  have hsame := Task.exec_pending htask s.broker s.broker.pendingActions s.frontIndex s.frontIndex
  rw [resume] at hinv ⊢
  change task.exec (s.under (task :: rest) ahead history).broker _ = _ at hexec
  cases hs : task.exec s.broker s.frontIndex with
  | error f =>
    rw [hs] at hexec
    rw [hexec] at hinv
    exact absurd hinv.noFault (Option.some_ne_none _)
  | ok o =>
    obtain ⟨b, tasks, dispatched⟩ := o
    have hb : b.pendingActions = s.broker.pendingActions :=
      congrArg (·.broker.pendingActions) (Except.ok.inj (hs ▸ hsame))
    rw [hs] at hexec
    rw [hexec] at hinv
    refine ⟨tasks, dispatched.toList, rfl, rfl, ?_⟩
    rw [under, hb]
    exact { hinv with }

end System

/-! ### The invariant -/

/-- A task of an inner `do_work`, when the actions `L` have been taken out of the queue. -/
def Task.Inner (client : Client Ev H) (L : List (Action Ev)) : Task Ev → Prop
  | .notify i p c m => c ∈ (client.after L).sinks.members ∧
      ⟨i, p, c, m⟩ ∈ (client.outputs L).map client.delivery
  | .addNewEvent p _ => p ∈ (client.after L).sources.members
  | .doWork => True
  | .maybeAdd _ _ _ | .deallocate _ => False

/-- A call of `notify` is one of the messages of the log `L`, and reaches the handler of its
consumer or none. -/
def Dispatch.Sent (client : Client Ev H) (L : List (Action Ev)) (d : Dispatch Ev) : Prop :=
  d.delivery ∈ (client.outputs L).map client.delivery ∧ ∀ c, d.handler = .user c → d.consumer = c

theorem Task.Inner.append {client : Client Ev H} {L ahead : List (Action Ev)} {task : Task Ev}
    (h : task.Inner client L) (hahead : ∀ a ∈ ahead, a.isPublish) :
    task.Inner client (L ++ ahead) := by
  obtain ⟨hsources, hsinks⟩ := client.after_publishes (L := L) hahead
  cases task with
  | notify i p c m =>
    refine ⟨?_, List.map_subset _ (client.outputs_subset L ahead) h.2⟩
    rw [hsinks]
    exact h.1
  | addNewEvent p ev =>
    rw [Inner, hsources]
    exact h
  | doWork => trivial
  | maybeAdd => cases h
  | deallocate => cases h

/-- A call of `notify` for a `Publish` action of an inner `do_work`. -/
theorem Task.inner_notify {client : Client Ev H} {L : List (Action Ev)} {p : ProducerPtr}
    {c : ConsumerPtr} {ev : Ev}
    (hc : c ∈ (client.after L).sinks.members.filter (client.isMatch p)) :
    (Task.notify (client.after L).time p c (client.notification p (.value ev))).Inner client
      (L ++ [.publish p ev]) := by
  have hout : (client.machine.out (client.after L) (Action.publish p ev).act).map client.delivery =
      _ := client.delivery_announce ..
  constructor
  · rw [client.after_concat]
    exact List.mem_of_mem_filter hc
  · rw [client.outputs_concat, List.map_append, hout]
    exact List.mem_append_right _ (List.mem_map_of_mem hc)

theorem Dispatch.Sent.append {client : Client Ev H} {L : List (Action Ev)} {d : Dispatch Ev}
    (h : d.Sent client L) (L' : List (Action Ev)) : d.Sent client (L ++ L') :=
  ⟨List.map_subset _ (client.outputs_subset L L') h.1, h.2⟩

namespace Nested

/-- The loops of `n` are the loops `inner` of the inner calls of `do_work` on top of the outermost
loop `todo`. The actions `done` have been carried out under the inner calls, and the actions `ahead`
have been taken out of the queue by them; `history` is the history without the inner calls. -/
structure Layered (client : Client Ev H) (n : Nested Ev H) (inner : List (List (Task Ev)))
    (todo : List (Task Ev)) (done ahead : List (Action Ev)) (history : History Ev) : Prop where
  stack_eq : n.system.todo :: n.suspended = inner ++ [todo]
  inv : Inv client (n.system.under todo ahead history) done
  log_eq : history.log = n.system.log
  publishes : ∀ a ∈ ahead, a.isPublish
  loop : .doWork ∈ todo ∨ todo = [] ∧ ahead = [] ∧ inner = []
  suspended_ne : ∀ l ∈ inner.tail, l ≠ []
  tasks : ∀ l ∈ inner, ∀ task ∈ l, task.Inner client (done ++ ahead)
  sent : ∀ d ∈ n.system.dispatches, d.Sent client (done ++ ahead)

/-- The invariant: moreover, no inner `do_work` has come to its end. -/
structure Ok (client : Client Ev H) (n : Nested Ev H) (inner : List (List (Task Ev)))
    (todo : List (Task Ev)) (done ahead : List (Action Ev)) (history : History Ev) : Prop
    extends Layered client n inner todo done ahead history where
  todo_ne : inner ≠ [] → n.system.todo ≠ []

variable {client : Client Ev H} {n : Nested Ev H} {inner : List (List (Task Ev))}
  {l todo : List (Task Ev)} {done ahead : List (Action Ev)} {history : History Ev}

theorem Layered.log_eq_append (h : Layered client n inner todo done ahead history) :
    n.system.log = (done ++ ahead) ++ n.system.broker.pendingActions := by
  rw [List.append_assoc, ← h.log_eq]
  exact h.inv.log_eq

theorem Layered.admits (h : Layered client n inner todo done ahead history) :
    client.Admits n.system.log := h.log_eq ▸ h.inv.admits

/-- There are no inner calls. -/
theorem Layered.outermost (hsuspended : n.suspended = [])
    (hinv : Inv client (n.system.under n.system.todo ahead history) done)
    (hlog : history.log = n.system.log) (hpublishes : ∀ a ∈ ahead, a.isPublish)
    (hloop : .doWork ∈ n.system.todo ∨ n.system.todo = [] ∧ ahead = [])
    (hsent : ∀ d ∈ n.system.dispatches, d.Sent client (done ++ ahead)) :
    Layered client n [] n.system.todo done ahead history where
  stack_eq := by rw [hsuspended, List.nil_append]
  inv := hinv
  log_eq := hlog
  publishes := hpublishes
  loop := hloop.imp_right fun hidle => ⟨hidle.1, hidle.2, rfl⟩
  suspended_ne := by simp
  tasks := by simp
  sent := hsent

/-- An inner `do_work` that has come to its end returns. -/
theorem Layered.leave (h : Layered client n inner todo done ahead history) :
    ∃ inner', Ok client n.leave inner' todo done ahead history := by
  cases htodo : n.system.todo with
  | cons task rest =>
    have hleave : n.leave = n := by simp [Nested.leave, htodo]
    rw [hleave]
    exact ⟨inner, { h with todo_ne := fun _ => by simp [htodo] }⟩
  | nil =>
    have hstack := h.stack_eq
    rw [htodo] at hstack
    cases inner with
    | nil =>
      have hleave : n.leave = n := by
        obtain ⟨-, hnil⟩ := List.cons.inj hstack
        simp [Nested.leave, hnil]
      rw [hleave]
      exact ⟨[], { h with todo_ne := fun hne => absurd rfl hne }⟩
    | cons l ls =>
      obtain ⟨rfl, hsuspended⟩ := List.cons.inj hstack
      cases hs : n.suspended with
      | nil => simp [hs] at hsuspended
      | cons f fs =>
        rw [hs] at hsuspended
        have hleave : n.leave = ⟨{ n.system with todo := f, inHandler := true }, fs⟩ := by
          simp [Nested.leave, htodo, hs]
        rw [hleave]
        refine ⟨ls, { h with
          stack_eq := hsuspended
          loop := .inl (h.loop.resolve_right (by simp))
          suspended_ne := fun l hl => h.suspended_ne l (List.mem_of_mem_tail hl)
          tasks := fun l hl => h.tasks l (List.mem_cons_of_mem _ hl)
          todo_ne := fun hne => ?_ }⟩
        obtain ⟨f', ls', rfl⟩ := List.exists_cons_of_ne_nil hne
        obtain ⟨rfl, -⟩ := List.cons.inj hsuspended
        exact h.suspended_ne f List.mem_cons_self

/-- No loop of an inner call is at its end. -/
theorem Ok.inner_ne (h : Ok client n inner todo done ahead history) : ∀ l ∈ inner, l ≠ [] := by
  cases inner with
  | nil => simp
  | cons l ls =>
    obtain ⟨rfl, -⟩ := List.cons.inj h.stack_eq
    exact List.forall_mem_cons.mpr ⟨h.todo_ne (by simp), h.suspended_ne⟩

/-- A handler calls `do_work`. -/
theorem Ok.push (h : Ok client n inner todo done ahead history) (htodo : n.system.todo ≠ []) :
    Ok client n.push ([.doWork] :: inner) todo done ahead history :=
  { h with
    stack_eq := congrArg (List.cons _) h.stack_eq
    loop := by
      refine .inl (h.loop.resolve_right ?_)
      rintro ⟨rfl, -, rfl⟩
      exact htodo (List.cons.inj h.stack_eq).1
    suspended_ne := h.inner_ne
    tasks := List.forall_mem_cons.mpr ⟨by simp [Task.Inner], h.tasks⟩
    todo_ne := fun _ => by simp [Nested.push] }

/-- `do_work` is called from outside. -/
theorem Ok.start (h : Ok client n inner todo done ahead history) (htodo : n.system.todo = []) :
    Layered client { n with system := { n.system with todo := [.doWork] } } [] [.doWork] done []
      history := by
  obtain rfl : inner = [] := by
    by_contra hne
    exact h.todo_ne hne htodo
  obtain ⟨rfl, hsuspended⟩ := List.cons.inj h.stack_eq
  obtain ⟨-, rfl, -⟩ := h.loop.resolve_left (by simp [htodo])
  exact .outermost hsuspended { h.inv.idle (.inl htodo) (.inr rfl) with } h.log_eq h.publishes
    (.inl List.mem_cons_self) h.sent

/-- The system goes on in the loop of an inner call, and takes the actions `as` out of the queue. -/
theorem Layered.goOn {ls : List (List (Task Ev))} {system : System Ev H}
    {as ahead' : List (Action Ev)} (h : Layered client n (l :: ls) todo done ahead history)
    (has : ∀ a ∈ as, a.isPublish) (hahead : ahead' = ahead ++ as)
    (hinv : Inv client (system.under todo ahead' history) done) (hlog : system.log = n.system.log)
    (htasks : ∀ task ∈ system.todo, task.Inner client (done ++ ahead'))
    (hsent : ∀ d ∈ system.dispatches, d.Sent client (done ++ ahead')) :
    Layered client { n with system } (system.todo :: ls) todo done ahead' history where
  stack_eq := congrArg (List.cons _) (List.cons.inj h.stack_eq).2
  inv := hinv
  log_eq := h.log_eq.trans hlog.symm
  publishes := fun a ha => (List.mem_append.mp (hahead ▸ ha)).elim (h.publishes a) (has a)
  loop := .inl (h.loop.resolve_right (by simp))
  suspended_ne := h.suspended_ne
  tasks := by
    refine List.forall_mem_cons.mpr ⟨htasks, fun l hl task htask => ?_⟩
    rw [hahead, ← List.append_assoc]
    exact (h.tasks l (List.mem_cons_of_mem _ hl) task htask).append has
  sent := hsent

/-- The system goes on in the loop of an inner call. -/
theorem Layered.stay {ls : List (List (Task Ev))} {system : System Ev H}
    (h : Layered client n (l :: ls) todo done ahead history)
    (hinv : Inv client (system.under todo ahead history) done) (hlog : system.log = n.system.log)
    (htasks : ∀ task ∈ system.todo, task.Inner client (done ++ ahead))
    (hsent : ∀ d ∈ system.dispatches, d.Sent client (done ++ ahead)) :
    Layered client { n with system } (system.todo :: ls) todo done ahead history :=
  h.goOn (by simp) (List.append_nil _).symm hinv hlog htasks hsent

variable [SnapshotHandler Ev H]

/-- A call of the client. -/
theorem Ok.call (h : Ok client n inner todo done ahead history) {l : Label Ev}
    {system : System Ev H} (hl : l ≠ .doWork ∧ l ≠ .resume)
    (hstep : n.system.step client l = some system) :
    ∃ history', Ok client { n with system } inner todo done ahead history' := by
  obtain ⟨a, htodo, hhistory, hunder⟩ := System.under_step todo ahead history h.inv hl hstep
  refine ⟨history ++ [.enqueued a], { h with
    stack_eq := htodo ▸ h.stack_eq
    inv := h.inv.step_call hl hunder
    log_eq := ?_
    sent := ?_
    todo_ne := fun hne => htodo ▸ h.todo_ne hne }⟩
  · rw [System.log, hhistory, History.log_enqueued, History.log_enqueued, h.log_eq]
    rfl
  · rw [System.dispatches, hhistory, History.dispatches_enqueued]
    exact h.sent

/-- The next action of an inner `do_work` is a `Publish`. The list of its producer may be
incomplete, when the outermost loop is one of `maybe_add`. -/
theorem Layered.visit_publish {ls : List (List (Task Ev))} {p : ProducerPtr} {ev : Ev}
    {rest : List (Task Ev)} {as : List (Action Ev)}
    (h : Layered client n (l :: ls) todo done ahead history)
    (hrest : ∀ task ∈ rest, task.Inner client (done ++ ahead))
    (hpending : n.system.broker.pendingActions = .publish p ev :: as) :
    ∃ inner', Layered client { n with system := n.system.resume .doWork rest } inner' todo done
      (ahead ++ [.publish p ev]) history := by
  obtain ⟨hsources, hsinks⟩ := client.after_publishes (L := done) h.publishes
  have hpublish : ∀ a ∈ [(.publish p ev : Action Ev)], a.isPublish := by simp [Action.isPublish]
  have hlog : n.system.log = (done ++ ahead) ++ .publish p ev :: as := hpending ▸ h.log_eq_append
  have hp : p ∈ (client.after (done ++ ahead)).sources.members := by
    have hadmits := h.admits
    rw [hlog, client.admits_append] at hadmits
    exact Client.ok_publish.mp hadmits.2.1
  have hindex : n.system.frontIndex = (client.after (done ++ ahead)).time := by
    rw [System.frontIndex, hlog, hpending, List.length_append, Nat.add_sub_cancel,
      Client.time_after]
  obtain ⟨me, hderef, hme⟩ := h.inv.producerHeap.object (.inl (hsources ▸ hp))
  have hnotification : me.notification .event [ev] = client.notification p (.value ev) := by
    rw [ProducerImpl.notification, hme.id_eq, hme.topic_eq]
    rfl
  have hvisit : OldBroker.visit { n.system.broker with pendingActions := as }
      n.system.frontIndex (.publish p ev) = _ := OldBroker.visit_publish_eq hderef
  rw [n.system.resume_eq_of_none .doWork (OldBroker.doWork_of_cons hpending hvisit)]
  have hunder : ahead ++ n.system.broker.pendingActions = ahead ++ [.publish p ev] ++ as := by
    rw [hpending, List.append_assoc]
    rfl
  have hinv := h.inv
  rw [System.under, hunder] at hinv
  refine ⟨_, h.goOn hpublish rfl { hinv with } rfl ?_ ?_⟩
  · rw [← List.append_assoc]
    intro task htask
    simp only [List.mem_append, List.mem_map, List.mem_singleton] at htask
    obtain ((⟨c, hc, rfl⟩ | rfl) | rfl) | htask := htask
    · rw [hindex, hnotification]
      refine Task.inner_notify ?_
      rw [hsinks, ← hme.consumers_eq (hsources ▸ hp)]
      exact List.mem_append_left _ hc
    · rw [Task.Inner, (client.after_publishes hpublish).1]
      exact hp
    · trivial
    · exact (hrest task htask).append hpublish
  · rw [← List.append_assoc]
    exact fun d hd => (h.sent d hd).append _

/-- The next task of an inner `do_work`. -/
theorem Layered.resume_inner {ls : List (List (Task Ev))} {task : Task Ev} {rest : List (Task Ev)}
    (h : Layered client n (l :: ls) todo done ahead history)
    (htodo : n.system.todo = task :: rest) (hblocked : n.blocked task = false) :
    ∃ inner' ahead', Layered client { n with system := n.system.resume task rest } inner' todo done
      ahead' history := by
  obtain ⟨rfl, hsuspended⟩ := List.cons.inj h.stack_eq
  obtain ⟨htask, hrest⟩ := List.forall_mem_cons.mp (htodo ▸ h.tasks _ List.mem_cons_self)
  obtain ⟨hsources, hsinks⟩ := client.after_publishes (L := done) h.publishes
  cases task with
  | doWork =>
    cases hpending : n.system.broker.pendingActions with
    | nil =>
      rw [n.system.resume_eq_of_none .doWork (OldBroker.doWork_of_nil hpending)]
      exact ⟨_, ahead, h.stay { h.inv with } rfl hrest h.sent⟩
    | cons a as =>
      have hpublish : a.isPublish := by
        simpa [blocked, hsuspended, hpending] using hblocked
      cases a with
      | publish p ev =>
        obtain ⟨inner', hlayered⟩ := h.visit_publish hrest hpending
        exact ⟨inner', _, hlayered⟩
      | _ => cases hpublish
  | notify i p c m =>
    obtain ⟨consumer, hderef, hconsumer⟩ := h.inv.consumerHeap.object (.inl (hsinks ▸ htask.1))
    have hderef' : n.system.broker.consumerHeap.deref c = some consumer := hderef
    rw [n.system.resume_eq_of_some (.notify i p c m) (OldBroker.notify_eq hderef')]
    refine ⟨_, ahead, h.stay { h.inv with } (History.log_dispatched ..) hrest ?_⟩
    rw [System.dispatches, History.dispatches_dispatched]
    refine fun d hd => (List.mem_append.mp hd).elim (h.sent d) fun hd => ?_
    obtain rfl := List.mem_singleton.mp hd
    refine ⟨htask.2, fun c' hc' => ?_⟩
    have hnotify := hconsumer.notify_eq.symm.trans hc'
    split_ifs at hnotify
    exact NotificationHandlerImpl.user.inj hnotify
  | addNewEvent p ev =>
    have hp : p ∈ (client.after done).sources.members := hsources ▸ htask
    obtain ⟨me, hderef, -⟩ := h.inv.producerHeap.object (.inl hp)
    have hderef' : n.system.broker.producerHeap.deref p = some me := hderef
    rw [n.system.resume_eq_of_none (.addNewEvent p ev) (OldBroker.addNewEvent_eq hderef')]
    exact ⟨_, ahead, h.stay { h.inv.write_snapshotHandler hp hderef _ with } rfl hrest h.sent⟩
  | maybeAdd => cases htask
  | deallocate => cases htask

/-- A pass of the outermost loop. -/
theorem Layered.resume_pass {task : Task Ev} {rest : List (Task Ev)}
    (h : Layered client n [] todo done ahead history) (htodo : n.system.todo = task :: rest)
    (htask : task ≠ .doWork) :
    ∃ todo' history', Layered client { n with system := n.system.resume task rest } [] todo' done
      ahead history' := by
  obtain ⟨rfl, hsuspended⟩ := List.cons.inj h.stack_eq
  have hinv := h.inv
  rw [htodo] at hinv
  obtain ⟨tasks, ds, htodo', hhistory, hinv'⟩ := System.under_resume ahead history hinv htask
  rw [← htodo'] at hinv'
  refine ⟨_, history ++ ds.map .dispatched, .outermost hsuspended hinv' ?_ h.publishes ?_ ?_⟩
  · rw [System.log, hhistory, History.log_dispatches, History.log_dispatches, h.log_eq]
    rfl
  · have hloop := h.loop.resolve_right (by simp [htodo])
    rw [htodo] at hloop
    rw [htodo']
    exact .inl (List.mem_append_right _ ((List.mem_cons.mp hloop).resolve_left (Ne.symm htask)))
  · rw [System.dispatches, hhistory, History.dispatches_dispatches]
    refine fun d hd => (List.mem_append.mp hd).elim (h.sent d) fun hd => ?_
    have hmem : d ∈ History.dispatches (history ++ ds.map .dispatched) := by
      rw [History.dispatches_dispatches]
      exact List.mem_append_right _ hd
    have hsent : d.Sent client done :=
      ⟨hinv'.dispatches_isPrefix.subset (List.mem_map_of_mem hmem),
        fun c => hinv'.handled.consumer_eq hmem⟩
    exact hsent.append ahead

/-- The outermost loop of `do_work` carries out the actions that the inner calls have taken out of
the queue, and then the front action. -/
theorem Layered.resume_doWork (h : Layered client n [] todo done ahead history)
    (htodo : n.system.todo = [.doWork]) :
    ∃ todo' done' history', Layered client { n with system := n.system.resume .doWork [] } [] todo'
      done' [] history' := by
  obtain ⟨rfl, hsuspended⟩ := List.cons.inj h.stack_eq
  have hinv := h.inv
  rw [htodo] at hinv
  obtain ⟨history', hlog, hinv⟩ := hinv.skip_publishes rfl h.publishes rfl
  have hinv : Inv client (n.system.under [.doWork] [] history') (done ++ ahead) := hinv
  have hlog : history'.log = n.system.log := hlog.trans h.log_eq
  cases hpending : n.system.broker.pendingActions with
  | nil =>
    obtain ⟨hresume, hinv'⟩ := hinv.doWork_nil rfl hpending
    rw [hresume] at hinv'
    rw [n.system.resume_eq_of_none .doWork (OldBroker.doWork_of_nil hpending)]
    exact ⟨_, done ++ ahead, history', .outermost hsuspended { hinv' with } hlog (by simp)
      (.inr ⟨rfl, rfl⟩) fun d hd => (h.sent d hd).append []⟩
  | cons a as =>
    obtain ⟨b, tasks, hvisit, hresume, hinv'⟩ := hinv.doWork_cons rfl hpending
    have hfront : (n.system.under [.doWork] [] history').frontIndex = n.system.frontIndex := by
      rw [System.frontIndex, System.frontIndex, System.log, ← hlog]
      rfl
    rw [hfront] at hvisit
    rw [hresume] at hinv'
    rw [n.system.resume_eq_of_none .doWork (OldBroker.doWork_of_cons hpending hvisit),
      List.append_nil]
    refine ⟨_, done ++ ahead ++ [a], history', .outermost hsuspended { hinv' with } hlog (by simp)
      (.inl (List.mem_append_right _ (List.mem_singleton_self _))) fun d hd => ?_⟩
    rw [List.append_nil]
    exact (h.sent d hd).append [a]

/-- **Every step keeps the invariant.** -/
theorem Ok.step {n' : Nested Ev H} {l : Label Ev} (h : Ok client n inner todo done ahead history)
    (hstep : n.step client l = some n') :
    ∃ inner' todo' done' ahead' history', Ok client n' inner' todo' done' ahead' history' := by
  cases effect_of_step hstep with
  | start htodo =>
    exact ⟨[], _, _, _, _, { h.start htodo with todo_ne := fun hne => absurd rfl hne }⟩
  | push htodo => exact ⟨_, _, _, _, _, h.push htodo⟩
  | call hl hcall =>
    obtain ⟨history', h'⟩ := h.call hl hcall
    exact ⟨_, _, _, _, _, h'⟩
  | @resume task rest htodo hblocked =>
    cases inner with
    | cons l ls =>
      obtain ⟨inner', ahead', h'⟩ := h.toLayered.resume_inner htodo hblocked
      obtain ⟨inner'', h''⟩ := h'.leave
      exact ⟨_, _, _, _, _, h''⟩
    | nil =>
      by_cases htask : task = .doWork
      · subst htask
        obtain ⟨htodo', -⟩ := List.cons.inj h.stack_eq
        obtain rfl := h.inv.rest_of_doWork (htodo'.symm.trans htodo)
        obtain ⟨todo', done', history', h'⟩ := h.toLayered.resume_doWork htodo
        obtain ⟨inner'', h''⟩ := h'.leave
        exact ⟨_, _, _, _, _, h''⟩
      · obtain ⟨todo', history', h'⟩ := h.toLayered.resume_pass htodo htask
        obtain ⟨inner'', h''⟩ := h'.leave
        exact ⟨_, _, _, _, _, h''⟩

/-- **Every run keeps the invariant**, wherever `do_work` is called. -/
theorem ok_of_reachable (h : Transition.Reachable (step client) (.init client) n) :
    ∃ inner todo done ahead history, Ok client n inner todo done ahead history := by
  have hinit : Layered client (.init client) [] [] [] [] [] :=
    .outermost rfl { Inv.init client with } rfl (by simp) (.inr ⟨rfl, rfl⟩) nofun
  refine h.invariant
    (P := fun n => ∃ inner todo done ahead history, Ok client n inner todo done ahead history) ?_
    ⟨[], [], [], [], [], { hinit with todo_ne := fun hne => absurd rfl hne }⟩
  rintro n l n' ⟨inner, todo, done, ahead, history, hok⟩ hstep
  exact hok.step hstep

/-- **Nothing is made up.** In every run, wherever `do_work` is called, every call of `notify` is
one of the messages of the log, and reaches the handler of its consumer or none. -/
theorem sent_of_reachable (h : Transition.Reachable (step client) (.init client) n)
    {d : Dispatch Ev} (hd : d ∈ n.system.dispatches) : d.Sent client n.system.log := by
  obtain ⟨inner, todo, done, ahead, history, hok⟩ := ok_of_reachable h
  rw [hok.log_eq_append]
  exact (hok.sent d hd).append _

end Nested

end Keryx
