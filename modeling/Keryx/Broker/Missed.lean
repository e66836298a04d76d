import Mathlib.Data.List.Perm.Basic
import Keryx.Broker.Passes
import Keryx.Broker.Nested

/-!
# What inner calls of `do_work` miss

A `do_work` that a handler calls carries out the next actions before the loops that are suspended
have come to their ends. So the notifications of different actions are not made in the order of the
actions. Apart from the order, one thing can happen: when the suspended loop is one of `maybe_add`,
some consumers are not yet in the list of a producer, and an event that the inner `do_work` takes
out of the queue does not reach them. Everything else is made exactly once.

## Main definitions

* `Nested.missed` — the notifications that an inner `do_work` misses.
* `Nested.Accounted` — the account of the notifications of the actions carried out.

## Main results

* `Nested.Accounted.step` — every step keeps the account.
* `dispatches_of_nested` — inner calls of `do_work` make every notification once, but for those
  they miss.

Source: `src/lib/broker/OldBroker.cpp`, lines 128–134; `ProducerImpl.cpp`, lines 41–71.
-/

namespace Keryx

variable {Ev H : Type}

namespace Nested

/-- The calls of `notify` that the running loop and the suspended ones still have to make. -/
def left (client : Client Ev H) (n : Nested Ev H) : List (Delivery Ev) :=
  (n.system.todo ++ n.suspended.flatten).flatMap (Task.deliveries client)

/-- The calls of `notify` that have been made, and those that are still to be made. -/
def deliveries (client : Client Ev H) (n : Nested Ev H) : List (Delivery Ev) :=
  n.system.dispatches.map Dispatch.delivery ++ n.left client

/-- The notifications that a step misses: `do_work` takes an event out of the queue, and a suspended
loop has not brought its producer and some consumers together yet. -/
def missed (client : Client Ev H) (n : Nested Ev H) (l : Label Ev) : List (Delivery Ev) :=
  match l, n.system.todo, n.system.broker.pendingActions with
  | .resume, .doWork :: _, .publish p ev :: _ =>
    (pendingAdds client p n.suspended.flatten).map
      (⟨n.system.frontIndex, p, ·, client.notification p (.value ev)⟩)
  | _, _, _ => []

/-- The notifications that the inner calls of `do_work` of a run have missed. -/
def missedBy [SnapshotHandler Ev H] (client : Client Ev H) (ls : List (Label Ev)) :
    List (Delivery Ev) :=
  Transition.observe (step client) (missed client) (.init client) ls

/-- The account of the notifications that are due: those that are not made have been missed. -/
def Accounted (client : Client Ev H) (n : Nested Ev H) (missed : List (Delivery Ev)) : Prop :=
  (n.system.due client).Perm (n.deliveries client ++ missed)

variable {client : Client Ev H} {n n' : Nested Ev H} {inner : List (List (Task Ev))}
  {todo : List (Task Ev)} {done ahead : List (Action Ev)} {history : History Ev}
  {missed : List (Delivery Ev)}

theorem Accounted.init (client : Client Ev H) : Accounted client (.init client) [] := .nil

/-- A step that carries out no action. -/
theorem Accounted.of_eq (h : Accounted client n missed)
    (hdue : n'.system.due client = n.system.due client)
    (hdeliveries : n'.deliveries client = n.deliveries client) : Accounted client n' missed := by
  rw [Accounted, hdue, hdeliveries]
  exact h

/-- A step that carries out an action: some of its notifications are to be made, and it misses the
others. -/
theorem Accounted.carryOut (h : Accounted client n missed) (out : List (Delivery Ev))
    {missing : List (Delivery Ev)}
    (hdue : n'.system.due client = n.system.due client ++ (out ++ missing))
    (hdispatches : n'.system.dispatches = n.system.dispatches)
    (hleft : n'.left client = out ++ n.left client) : Accounted client n' (missed ++ missing) := by
  rw [Accounted, hdue, deliveries, hdispatches, hleft]
  refine (h.append_right _).trans ?_
  have hmove : (n.left client ++ missed ++ out ++ missing).Perm
      (out ++ (n.left client ++ missed) ++ missing) := List.perm_append_comm.append_right _
  simpa [deliveries] using hmove.append_left (n.system.dispatches.map Dispatch.delivery)

/-- The return from an inner `do_work` leaves the account alone. -/
theorem deliveries_leave (n : Nested Ev H) : n.leave.deliveries client = n.deliveries client := by
  rw [leave]
  split
  · next htodo hsuspended => simp [deliveries, left, htodo, hsuspended, System.dispatches]
  · rfl

theorem due_leave (n : Nested Ev H) : n.leave.system.due client = n.system.due client := by
  rw [leave]
  split <;> rfl

theorem Accounted.leave (h : Accounted client n missed) : Accounted client n.leave missed :=
  h.of_eq n.due_leave n.deliveries_leave

theorem Layered.carriedOut_eq (h : Layered client n inner todo done ahead history) :
    n.system.carriedOut = done ++ ahead := System.carriedOut_eq h.log_eq_append

variable [SnapshotHandler Ev H]

/-- The calls of the client carry out nothing. -/
theorem Accounted.call (h : Accounted client n missed)
    (hok : Ok client n inner todo done ahead history) {l : Label Ev} {system : System Ev H}
    (hl : l ≠ .doWork ∧ l ≠ .resume) (hstep : n.system.step client l = some system) :
    Accounted client { n with system } missed := by
  obtain ⟨history', hok'⟩ := hok.call hl hstep
  obtain ⟨a, htodo, hhistory, -⟩ := System.under_step todo ahead history hok.inv hl hstep
  refine h.of_eq ?_ ?_
  · rw [System.due, System.due, hok'.carriedOut_eq, hok.carriedOut_eq]
  · rw [deliveries, deliveries, left, left, System.dispatches, hhistory,
      History.dispatches_enqueued, htodo]
    rfl

/-- A pass of the outermost loop. -/
theorem Accounted.pass_outermost (h : Accounted client n missed)
    (hlayered : Layered client n [] todo done ahead history) {task : Task Ev}
    {rest : List (Task Ev)} (htodo : n.system.todo = task :: rest) (htask : task ≠ .doWork) :
    Accounted client { n with system := n.system.resume task rest } missed := by
  obtain ⟨rfl, hsuspended⟩ := List.cons.inj hlayered.stack_eq
  have hinv := hlayered.inv
  rw [htodo] at hinv
  obtain ⟨tasks, ds, htodo', hhistory, hinv'⟩ := System.under_resume ahead history hinv htask
  -- the pass delivers what it had to deliver
  have hdelivered : (task :: rest).flatMap (Task.deliveries client) =
      ds.map Dispatch.delivery ++ (tasks ++ rest).flatMap (Task.deliveries client) := by
    have hbefore := hinv.deliveries
    have hafter := hinv'.deliveries
    rw [System.dispatches, System.under, History.dispatches_dispatches, List.map_append,
      List.append_assoc] at hafter
    exact List.append_cancel_left (hbefore.trans hafter.symm)
  have hlog : (n.system.resume task rest).log = n.system.log := by
    rw [System.log, hhistory, History.log_dispatches]
    rfl
  have hpending : (n.system.resume task rest).broker.pendingActions =
      n.system.broker.pendingActions := by
    have hbefore := hinv.log_eq
    have hafter := hinv'.log_eq
    rw [System.log, System.under, History.log_dispatches] at hafter
    exact (List.append_cancel_left (List.append_cancel_left (hbefore.symm.trans hafter))).symm
  refine h.of_eq ?_ ?_
  · rw [System.due, System.due, System.carriedOut, System.carriedOut, System.frontIndex,
      System.frontIndex, hlog, hpending]
  · rw [deliveries, deliveries, left, left, System.dispatches, hhistory,
      History.dispatches_dispatches, htodo', htodo, hsuspended]
    simp [hdelivered, System.dispatches]

/-- A pass of a loop of an inner call. -/
theorem Accounted.pass_inner (h : Accounted client n missed) {l : List (Task Ev)}
    {ls : List (List (Task Ev))} (hlayered : Layered client n (l :: ls) todo done ahead history)
    {task : Task Ev} {rest : List (Task Ev)} (htodo : n.system.todo = task :: rest)
    (htask : task ≠ .doWork) :
    Accounted client { n with system := n.system.resume task rest } missed := by
  obtain ⟨rfl, -⟩ := List.cons.inj hlayered.stack_eq
  have hinner := (List.forall_mem_cons.mp (htodo ▸ hlayered.tasks _ List.mem_cons_self)).1
  obtain ⟨hsources, hsinks⟩ := client.after_publishes (L := done) hlayered.publishes
  cases task with
  | notify i p c m =>
    obtain ⟨consumer, hderef, -⟩ :=
      hlayered.inv.consumerHeap.object (.inl (hsinks ▸ hinner.1))
    have hderef' : n.system.broker.consumerHeap.deref c = some consumer := hderef
    rw [n.system.resume_eq_of_some (.notify i p c m) (OldBroker.notify_eq hderef')]
    refine h.of_eq ?_ ?_
    · simp [System.due, System.carriedOut, System.frontIndex, System.log, History.log_dispatched]
    · simp [deliveries, left, System.dispatches, htodo, Task.deliveries, Dispatch.delivery]
  | addNewEvent p ev =>
    have hp : p ∈ (client.after done).sources.members := hsources ▸ hinner
    obtain ⟨me, hderef, -⟩ := hlayered.inv.producerHeap.object (.inl hp)
    have hderef' : n.system.broker.producerHeap.deref p = some me := hderef
    rw [n.system.resume_eq_of_none (.addNewEvent p ev) (OldBroker.addNewEvent_eq hderef')]
    refine h.of_eq rfl ?_
    simp [deliveries, left, System.dispatches, htodo, Task.deliveries]
  | doWork => exact absurd rfl htask
  | maybeAdd => cases hinner
  | deallocate => cases hinner

/-- The loop of a `do_work` finds the queue empty. -/
theorem Accounted.doWork_nil (h : Accounted client n missed) {rest : List (Task Ev)}
    (htodo : n.system.todo = .doWork :: rest) (hpending : n.system.broker.pendingActions = []) :
    Accounted client { n with system := n.system.resume .doWork rest } missed := by
  rw [n.system.resume_eq_of_none .doWork (OldBroker.doWork_of_nil hpending)]
  refine h.of_eq rfl ?_
  simp [deliveries, left, System.dispatches, htodo, Task.deliveries]

/-- The outermost `do_work` carries out the front action. -/
theorem Accounted.doWork_outermost (h : Accounted client n missed)
    (hlayered : Layered client n [] todo done ahead history) (htodo : n.system.todo = [.doWork])
    {a : Action Ev} {as : List (Action Ev)} (hpending : n.system.broker.pendingActions = a :: as) :
    Accounted client { n with system := n.system.resume .doWork [] } missed := by
  obtain ⟨rfl, hsuspended⟩ := List.cons.inj hlayered.stack_eq
  have hinv := hlayered.inv
  rw [htodo] at hinv
  obtain ⟨history', hlog, hinv⟩ := hinv.skip_publishes rfl hlayered.publishes rfl
  have hinv : Inv client (n.system.under [.doWork] [] history') (done ++ ahead) := hinv
  have hlog : history'.log = n.system.log := hlog.trans hlayered.log_eq
  obtain ⟨b, tasks, hvisit, hresume, hinv'⟩ := hinv.doWork_cons rfl hpending
  have hfront : (n.system.under [.doWork] [] history').frontIndex = n.system.frontIndex := by
    rw [System.frontIndex, System.frontIndex, System.log, ← hlog]
    rfl
  rw [hfront] at hvisit
  rw [hresume] at hinv'
  have hb : n.system.log = (done ++ ahead ++ [a]) ++ b.pendingActions := by
    rw [← hlog]
    exact hinv'.log_eq
  -- what the passes of the action deliver is due now
  have hout : (client.outputs (done ++ ahead ++ [a])).map client.delivery =
      (client.outputs (done ++ ahead)).map client.delivery ++
        tasks.flatMap (Task.deliveries client) := by
    rw [← hinv.deliveries, ← hinv'.deliveries]
    simp [System.under, System.dispatches, Task.deliveries]
  rw [n.system.resume_eq_of_none .doWork (OldBroker.doWork_of_cons hpending hvisit)]
  rw [← List.append_nil missed]
  refine h.carryOut (tasks.flatMap (Task.deliveries client)) ?_ rfl ?_
  · rw [System.due, System.due, hlayered.carriedOut_eq, System.carriedOut_eq hb, hout,
      List.append_nil]
  · simp [left, htodo, hsuspended, Task.deliveries]

omit [SnapshotHandler Ev H] in
/-- Only the outermost loop adds consumers. -/
theorem Layered.pendingAdds_eq {l : List (Task Ev)} {ls : List (List (Task Ev))}
    (h : Layered client n (l :: ls) todo done ahead history) (p : ProducerPtr) :
    pendingAdds client p n.suspended.flatten = pendingAdds client p todo := by
  obtain ⟨-, hsuspended⟩ := List.cons.inj h.stack_eq
  have hinner : ls.flatten.filterMap (Task.added client p) = [] := by
    refine List.filterMap_eq_nil_iff.mpr fun task htask => ?_
    obtain ⟨l', hl', htask⟩ := List.mem_flatten.mp htask
    have hinner := h.tasks l' (List.mem_cons_of_mem _ hl') task htask
    cases task with
    | maybeAdd => cases hinner
    | _ => rfl
  have hflatten : n.suspended.flatten = ls.flatten ++ todo := by
    rw [hsuspended]
    exact List.flatten_append.trans (congrArg _ List.flatten_singleton)
  rw [hflatten, pendingAdds, List.filterMap_append, hinner]
  rfl

/-- An inner `do_work` carries out a `Publish` action. -/
theorem Accounted.publish_inner (h : Accounted client n missed) {l : List (Task Ev)}
    {ls : List (List (Task Ev))} (hlayered : Layered client n (l :: ls) todo done ahead history)
    {rest : List (Task Ev)} (htodo : n.system.todo = .doWork :: rest) {p : ProducerPtr} {ev : Ev}
    {as : List (Action Ev)} (hpending : n.system.broker.pendingActions = .publish p ev :: as) :
    Accounted client { n with system := n.system.resume .doWork rest }
      (missed ++ n.missed client .resume) := by
  obtain ⟨hsources, hsinks⟩ := client.after_publishes (L := done) hlayered.publishes
  have hlog : n.system.log = (done ++ ahead) ++ .publish p ev :: as :=
    hpending ▸ hlayered.log_eq_append
  have hp : p ∈ (client.after (done ++ ahead)).sources.members := by
    have hadmits := hlayered.admits
    rw [hlog, client.admits_append] at hadmits
    exact Client.ok_publish.mp hadmits.2.1
  have hindex : n.system.frontIndex = (client.after (done ++ ahead)).time := by
    rw [System.frontIndex, hlog, hpending, List.length_append, Nat.add_sub_cancel,
      Client.time_after]
  obtain ⟨me, hderef, hme⟩ := hlayered.inv.producerHeap.object (.inl (hsources ▸ hp))
  have hnotification : me.notification .event [ev] = client.notification p (.value ev) := by
    rw [ProducerImpl.notification, hme.id_eq, hme.topic_eq]
    rfl
  -- the matching consumers are those in the list and those that the outermost loop will add
  have hconsumers : me.consumers ++ pendingAdds client p todo =
      (client.after done).sinks.members.filter (client.isMatch p) :=
    hme.consumers_eq (hsources ▸ hp)
  have hout : (client.machine.out (client.after (done ++ ahead)) (Action.publish p ev).act).map
      client.delivery = (me.consumers ++ pendingAdds client p todo).map
        (⟨n.system.frontIndex, p, ·, client.notification p (.value ev)⟩) := by
    rw [hconsumers, ← hsinks, hindex]
    exact client.delivery_announce ..
  have hmissed : n.missed client .resume = (pendingAdds client p todo).map
      (⟨n.system.frontIndex, p, ·, client.notification p (.value ev)⟩) := by
    simp only [Nested.missed, htodo, hpending, hlayered.pendingAdds_eq]
  have hvisit : OldBroker.visit { n.system.broker with pendingActions := as }
      n.system.frontIndex (.publish p ev) = _ := OldBroker.visit_publish_eq hderef
  rw [n.system.resume_eq_of_none .doWork (OldBroker.doWork_of_cons hpending hvisit)]
  refine h.carryOut (me.consumers.map
    (⟨n.system.frontIndex, p, ·, client.notification p (.value ev)⟩)) ?_ rfl ?_
  · have hcarried : n.system.log = (done ++ ahead ++ [.publish p ev]) ++ as := by
      rw [hlog, List.append_cons]
    rw [System.due, System.due, hlayered.carriedOut_eq, System.carriedOut_eq hcarried,
      client.outputs_concat, List.map_append, hout, List.map_append, hmissed]
  · simp [left, htodo, Task.deliveries, deliveries_notify, hnotification]

omit [SnapshotHandler Ev H] in
/-- Only a `Publish` action that a `do_work` takes out of the queue is missed. -/
theorem missed_eq_nil (h : ∀ rest p ev as, n.system.todo = .doWork :: rest →
    n.system.broker.pendingActions = .publish p ev :: as → n.suspended = []) (l : Label Ev) :
    n.missed client l = [] := by
  rw [Nested.missed.eq_def]
  split
  · next htodo hpending =>
    rw [h _ _ _ _ htodo hpending]
    rfl
  · rfl

/-- Every step keeps the account. -/
theorem Accounted.step (h : Accounted client n missed)
    (hok : Ok client n inner todo done ahead history) {l : Label Ev}
    (hstep : n.step client l = some n') : Accounted client n' (missed ++ n.missed client l) := by
  cases effect_of_step hstep with
  | start htodo =>
    rw [n.missed_eq_nil (by simp [htodo]), List.append_nil]
    refine h.of_eq rfl ?_
    simp [deliveries, left, System.dispatches, htodo, Task.deliveries]
  | push =>
    have hnone : n.missed client .doWork = [] := rfl
    rw [hnone, List.append_nil]
    refine h.of_eq rfl ?_
    simp [deliveries, left, System.dispatches, Nested.push, Task.deliveries]
  | call hl hcall =>
    have hnone : n.missed client l = [] := by
      cases l with
      | resume => exact absurd rfl hl.2
      | _ => rfl
    rw [hnone, List.append_nil]
    exact h.call hok hl hcall
  | @resume task rest htodo hblocked =>
    refine Accounted.leave ?_
    by_cases htask : task = .doWork
    · subst htask
      cases hpending : n.system.broker.pendingActions with
      | nil =>
        rw [n.missed_eq_nil (by simp [hpending]), List.append_nil]
        exact h.doWork_nil htodo hpending
      | cons a as =>
        cases inner with
        | nil =>
          obtain ⟨htodo', hsuspended⟩ := List.cons.inj hok.stack_eq
          obtain rfl := hok.inv.rest_of_doWork (htodo'.symm.trans htodo)
          rw [n.missed_eq_nil fun _ _ _ _ _ _ => hsuspended, List.append_nil]
          exact h.doWork_outermost hok.toLayered htodo hpending
        | cons inner inners =>
          have hne : n.suspended ≠ [] := by
            rw [(List.cons.inj hok.stack_eq).2]
            exact List.append_ne_nil_of_right_ne_nil _ (List.cons_ne_nil _ _)
          have hpublish : a.isPublish := by simpa [blocked, hne, hpending] using hblocked
          cases a with
          | publish p ev => exact h.publish_inner hok.toLayered htodo hpending
          | _ => cases hpublish
    · have hnone : n.missed client .resume = [] :=
        n.missed_eq_nil (fun _ _ _ _ htodo' => by simp [htodo, htask] at htodo') _
      rw [hnone, List.append_nil]
      cases inner with
      | nil => exact h.pass_outermost hok.toLayered htodo htask
      | cons inner inners => exact h.pass_inner hok.toLayered htodo htask

end Nested

/-- **What inner calls of `do_work` miss.** Handlers may call `do_work`, and an inner `do_work`
carries out `Publish` actions only. In every state of every run, the notifications that have been
made, those that the running and the suspended loops still have to make and those that inner calls
have missed are, up to their order, the ones that the actions carried out give rise to. So no
notification is made twice, and once every `do_work` has returned, exactly those are lost that an
inner `do_work` has missed: events for consumers that a suspended loop of `maybe_add` had not
reached. -/
theorem dispatches_of_nested [SnapshotHandler Ev H] {client : Client Ev H} {n : Nested Ev H}
    {ls : List (Label Ev)}
    (hrun : Transition.run (Nested.step client) (.init client) ls = some n) :
    (n.system.due client).Perm (n.system.dispatches.map Dispatch.delivery ++
      (n.system.todo ++ n.suspended.flatten).flatMap (Task.deliveries client) ++
        Nested.missedBy client ls) := by
  have h := Transition.run_observe (Nested.step client) (f := Nested.missed client)
    (P := fun n missed => Transition.Reachable (Nested.step client) (.init client) n ∧
      Nested.Accounted client n missed)
    (fun n l n' missed hP hstep => by
      obtain ⟨hn, hmissed⟩ := hP
      obtain ⟨inner, todo, done, ahead, history, hok⟩ := Nested.ok_of_reachable hn
      exact ⟨hn.trans (.of_step hstep), hmissed.step hok hstep⟩)
    ⟨.refl _, .init client⟩ hrun
  exact h.2

/-- The handler that is told of the start of the producer calls `do_work` before the second consumer
is in the list, and an event waits in the queue. -/
def workAtStart : List (Label ℕ) :=
  [.makeConsumer 0, .makeConsumer 1, .makeProducer 0, .publish 0 5, .doWork] ++
    List.replicate 4 .resume ++ [.doWork] ++ List.replicate 6 .resume

theorem dispatches_of_nested_workAtStart :
    ∃ n, Transition.run (Nested.step oneStream) (.init oneStream) workAtStart = some n ∧
      n.system.todo = [] ∧ n.suspended = [] ∧ (n.system.due oneStream).length = 4 ∧
      Nested.missedBy oneStream workAtStart = [⟨3, 0, 1, ⟨.event, [5], 1, ⟨0, ""⟩⟩⟩] ∧
      (n.system.due oneStream).Perm (n.system.dispatches.map Dispatch.delivery ++
        [⟨3, 0, 1, ⟨.event, [5], 1, ⟨0, ""⟩⟩⟩]) := by
  have hrun : Transition.run (Nested.step oneStream) (.init oneStream) workAtStart = some _ := rfl
  have hperm := dispatches_of_nested hrun
  exact ⟨_, hrun, rfl, rfl, rfl, rfl, hperm⟩

end Keryx
