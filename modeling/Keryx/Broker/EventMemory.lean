import Keryx.Broker.Throwing

/-!
# The memory of the events

`Producer::publish` copies the event into memory of the broker and moves the pointer to the copy
into the queue; a notification carries the bare pointer. The copy is freed by the snapshot handler,
after the last consumer has been notified, or, when a handler throws, by the action that `do_work`
had taken out of the queue. An address that has been freed may be given to a later copy.

The broker is the one with exceptions, whose events are pointers to the copies. The copy number `e`
has the pointer `e`.

## Main definitions

* `Cloning.step` — the broker and its client, with the memory of the events.
* `Cloning.live` — the events that the queue or the running `do_work` owns.
* `Cloning.Ok` — the invariant.

## Main results

* `Cloning.Ok.step` — every step keeps the invariant.
* `deref_event_of_inHandler` — a handler finds the event that was published.
* `event_iff` — when the copy of an event exists.

Source: `src/lib/broker/Producer.h`, lines 25–27; `main.cpp`, lines 27–34; `SnapshotHandler.h`,
lines 16–24; `ProducerImpl.cpp`, lines 66–71; `OldBroker.cpp`, lines 106–108 and 128–134.
-/

namespace Keryx

/-- `EventPtr`, as the number of the call of `clone_event` that made the copy. -/
abbrev EventPtr := ℕ

/-- The event that an action owns. -/
def Action.owned : Action EventPtr → Option EventPtr
  | .publish _ e => some e
  | .initProducer _ | .destroyProducer _ | .initConsumer _ | .destroyConsumer _ => none

/-- The event that is owned by the action that `do_work` is carrying out, until the task gives it to
the snapshot handler. -/
def Task.owned : Task EventPtr → Option EventPtr
  | .addNewEvent _ e => some e
  | .doWork | .maybeAdd _ _ _ | .notify _ _ _ _ | .deallocate _ => none

/-- A broker and its client, with the memory of the events, which are values of the type `V`. -/
structure Cloning (V : Type) where
  throwing : Throwing EventPtr (NullSnapshotHandler EventPtr)
  events : Heap V
  /-- The values that have been copied. -/
  cloned : List V

namespace Cloning

variable {V : Type}

/-- `Producer::publish`, which gives the copy an address, or another step. -/
inductive Label (V : Type) where
  | publish (p : ProducerPtr) (a : ℕ) (v : V)
  | other (l : Throwing.Label EventPtr)
  deriving DecidableEq, Repr

/-- The system before the first call. -/
def init (client : Client EventPtr (NullSnapshotHandler EventPtr)) : Cloning V :=
  ⟨.init client, .empty, []⟩

/-- The events that a step frees: the snapshot handler resets the pointer it is given, and an
exception destroys the action that `do_work` was carrying out. -/
def freed (s : Cloning V) : Throwing.Label EventPtr → List EventPtr
  | .run .resume => (s.throwing.system.todo.head?.bind Task.owned).toList
  | .throw => s.throwing.system.todo.filterMap Task.owned
  | .run _ => []

/-- One step. -/
def step (client : Client EventPtr (NullSnapshotHandler EventPtr)) (s : Cloning V) :
    Label V → Option (Cloning V)
  | .publish p a v =>
    if (s.events.cells a).isNone then
      (s.throwing.step client (.run (.publish p s.events.next))).map fun throwing =>
        { throwing, events := s.events.allocate a v, cloned := s.cloned ++ [v] }
    else none
  | .other (.run (.publish _ _)) => none
  | .other l => (s.throwing.step client l).map fun throwing =>
      { s with throwing, events := s.events.freeAll (s.freed l) }

/-- The events that the running `do_work` or the queue owns. -/
def live (s : Cloning V) : List EventPtr :=
  s.throwing.system.todo.filterMap Task.owned ++
    s.throwing.system.broker.pendingActions.filterMap Action.owned

end Cloning

/-! ### What the tasks own -/

/-- The events of the notifications that are left are freed after them. -/
def Carried : List (Task EventPtr) → Prop
  | [] => True
  | .notify _ _ _ m :: todo => m.events ⊆ todo.filterMap Task.owned ∧ Carried todo
  | .doWork :: todo | .maybeAdd _ _ _ :: todo | .addNewEvent _ _ :: todo | .deallocate _ :: todo =>
    Carried todo

theorem Carried.append {todo todo' : List (Task EventPtr)} (h : Carried todo) (h' : Carried todo') :
    Carried (todo ++ todo') := by
  induction todo with
  | nil => exact h'
  | cons task todo ih =>
    cases task with
    | notify i p c m =>
      refine ⟨List.Subset.trans h.1 ?_, ih h.2⟩
      exact ((List.sublist_append_left todo todo').filterMap _).subset
    | _ => exact ih h

theorem Carried.tail {task : Task EventPtr} {todo : List (Task EventPtr)}
    (h : Carried (task :: todo)) : Carried todo := by
  cases task with
  | notify i p c m => exact h.2
  | _ => exact h

/-- A loop of `notify`, whose event is freed after it. -/
theorem Carried.notify {cs : List ConsumerPtr} {i : ℕ} {p : ProducerPtr}
    {m : NotificationImpl EventPtr} {rest : List (Task EventPtr)} (hrest : Carried rest)
    (hm : m.events ⊆ rest.filterMap Task.owned) : Carried (cs.map (.notify i p · m) ++ rest) := by
  induction cs with
  | nil => exact hrest
  | cons c cs ih =>
    refine ⟨List.Subset.trans hm ?_, ih⟩
    exact ((List.sublist_append_right _ rest).filterMap _).subset

/-- A loop of `maybe_add`. -/
theorem Carried.maybeAdd {α : Type} {i : ℕ} (l : List α) (f : α → ProducerPtr)
    (g : α → ConsumerPtr) : Carried (l.map fun x => .maybeAdd i (f x) (g x)) := by
  induction l with
  | nil => trivial
  | cons x l ih => exact ih

/-- A loop owns no event. -/
theorem owned_map {α : Type} (l : List α) {f : α → Task EventPtr}
    (hf : ∀ x, (f x).owned = none) : (l.map f).filterMap Task.owned = [] := by
  rw [List.filterMap_map]
  exact List.filterMap_eq_nil_iff.mpr fun x _ => hf x

namespace OldBroker

variable {H : Type} {b b' : OldBroker EventPtr H} {i : ℕ}

/-- An action hands its event over to its tasks. -/
theorem visit_owned {a : Action EventPtr} {tasks : List (Task EventPtr)}
    (h : b.visit i a = .ok (b', tasks)) : b'.pendingActions = b.pendingActions ∧
      tasks.filterMap Task.owned = a.owned.toList ∧ Carried tasks := by
  cases a with
  | initProducer p =>
    cases h
    exact ⟨rfl, owned_map _ fun _ => rfl, .maybeAdd b.consumers (fun _ => p) id⟩
  | initConsumer c =>
    cases h
    exact ⟨rfl, owned_map _ fun _ => rfl, .maybeAdd b.producers id fun _ => c⟩
  | publish p e =>
    cases hp : b.producerHeap.deref p with
    | none =>
      rw [visit, derefProducer, hp] at h
      cases h
    | some me =>
      cases h.symm.trans (visit_publish_eq hp)
      refine ⟨rfl, ?_, .notify trivial ?_⟩
      · rw [List.filterMap_append, owned_map _ fun _ => rfl]
        rfl
      · exact List.Subset.refl _
  | destroyProducer p =>
    cases hfind : b.producers.find? (b.producerHeap.same p) with
    | none =>
      rw [visit, hfind] at h
      cases h
    | some it =>
      cases hp : b.producerHeap.deref it with
      | none =>
        simp only [visit, hfind, derefProducer, hp] at h
        cases h
      | some me =>
        cases h.symm.trans (visit_destroyProducer_eq hfind hp)
        refine ⟨rfl, ?_, .notify trivial (List.nil_subset _)⟩
        rw [List.filterMap_append, owned_map _ fun _ => rfl]
        rfl
  | destroyConsumer c =>
    rw [visit] at h
    split at h
    · cases h
    · split at h
      · cases h
      · cases h
        exact ⟨rfl, rfl, trivial⟩

/-- The loop of `do_work` takes the event of an action out of the queue, and calls no handler. -/
theorem doWork_owned {o : Outcome EventPtr H} (h : b.doWork i = .ok o) :
    o.tasks.filterMap Task.owned ++ o.broker.pendingActions.filterMap Action.owned =
        b.pendingActions.filterMap Action.owned ∧ Carried o.tasks ∧ o.dispatched = none := by
  cases hpending : b.pendingActions with
  | nil =>
    cases h.symm.trans (doWork_of_nil hpending)
    simp [hpending, Carried]
  | cons a as =>
    cases hvisit : visit { b with pendingActions := as } i a with
    | error f =>
      rw [doWork, hpending] at h
      simp only [hvisit] at h
      cases h
    | ok x =>
      obtain ⟨b', tasks⟩ := x
      obtain ⟨hsame, howned, hcarried⟩ := visit_owned hvisit
      cases h.symm.trans (doWork_of_cons hpending hvisit)
      refine ⟨?_, hcarried.append trivial, rfl⟩
      simp only [hsame, List.filterMap_append, howned]
      cases ha : a.owned <;> simp [ha, Task.owned]

end OldBroker

/-- A task hands no event over but the one of the action that it takes out of the queue. -/
theorem Task.exec_owned {H : Type} [SnapshotHandler EventPtr H] {b : OldBroker EventPtr H} {i : ℕ}
    {task : Task EventPtr} {o : Outcome EventPtr H} (h : task.exec b i = .ok o) :
    o.tasks.filterMap Task.owned ++ o.broker.pendingActions.filterMap Action.owned =
        b.pendingActions.filterMap Action.owned ∧ Carried o.tasks ∧
      ∀ d, o.dispatched = some d → d.notification.events = [] ∨
        ∃ i p c, task = .notify i p c d.notification := by
  cases task with
  | doWork =>
    obtain ⟨howned, hcarried, hdispatched⟩ := OldBroker.doWork_owned h
    exact ⟨howned, hcarried, fun d hd => by cases hdispatched.symm.trans hd⟩
  | maybeAdd j p c =>
    change b.maybeAdd j p c = _ at h
    cases hp : b.producerHeap.deref p with
    | none =>
      rw [OldBroker.maybeAdd, OldBroker.derefProducer, hp] at h
      cases h
    | some me =>
      cases hc : b.consumerHeap.deref c with
      | none =>
        rw [OldBroker.maybeAdd, OldBroker.derefProducer, hp, OldBroker.derefConsumer, hc] at h
        cases h
      | some consumer =>
        by_cases hmatch : me.isMatch consumer.filter
        · cases h.symm.trans (OldBroker.maybeAdd_of_isMatch hp hc hmatch)
          refine ⟨rfl, trivial, fun d hd => ?_⟩
          cases hd
          exact .inl rfl
        · cases h.symm.trans (OldBroker.maybeAdd_of_not_isMatch hp hc hmatch)
          exact ⟨rfl, trivial, fun d hd => by cases hd⟩
  | notify j p c m =>
    change b.notify j p c m = _ at h
    cases hc : b.consumerHeap.deref c with
    | none =>
      rw [OldBroker.notify, OldBroker.derefConsumer, hc] at h
      cases h
    | some consumer =>
      cases h.symm.trans (OldBroker.notify_eq hc)
      refine ⟨rfl, trivial, fun d hd => ?_⟩
      cases hd
      exact .inr ⟨j, p, c, rfl⟩
  | addNewEvent p e =>
    change b.addNewEvent p e = _ at h
    cases hp : b.producerHeap.deref p with
    | none =>
      rw [OldBroker.addNewEvent, OldBroker.derefProducer, hp] at h
      cases h
    | some me =>
      cases h.symm.trans (OldBroker.addNewEvent_eq hp)
      exact ⟨rfl, trivial, fun d hd => by cases hd⟩
  | deallocate p =>
    cases h
    exact ⟨rfl, trivial, fun d hd => by cases hd⟩

/-! ### The invariant -/

namespace Cloning

variable {V : Type}

/-- The invariant: the copies that exist are those of the live events, each with the value that was
published, and a running handler has been given live events only. -/
structure Ok (s : Cloning V) : Prop where
  events : s.events.Holds (· ∈ s.live) fun e v => s.cloned[e]? = some v
  owned : s.events.Owned (· ∈ s.live)
  next_eq : s.events.next = s.cloned.length
  nodup : s.live.Nodup
  carried : Carried s.throwing.system.todo
  inHandler : s.throwing.system.inHandler → ∀ d, s.throwing.system.dispatches.getLast? = some d →
    d.notification.events ⊆ s.throwing.system.todo.filterMap Task.owned

theorem Ok.init (client : Client EventPtr (NullSnapshotHandler EventPtr)) :
    Ok (init client : Cloning V) where
  events := ⟨(absurd · List.not_mem_nil), (absurd · List.not_mem_nil)⟩
  owned := .empty
  next_eq := rfl
  nodup := .nil
  carried := trivial
  inHandler h := by cases h

variable {client : Client EventPtr (NullSnapshotHandler EventPtr)} {s s' : Cloning V}

/-- Some of the live events are freed, and the others stay live. -/
theorem Ok.freeAll (h : Ok s) {es : List EventPtr}
    {t : Throwing EventPtr (NullSnapshotHandler EventPtr)}
    (hlive : s.live.Perm (es ++ live { s with throwing := t }))
    (hcarried : Carried t.system.todo)
    (hinHandler : t.system.inHandler → ∀ d, t.system.dispatches.getLast? = some d →
      d.notification.events ⊆ t.system.todo.filterMap Task.owned) :
    Ok { s with throwing := t, events := s.events.freeAll es } := by
  have hnodup := hlive.nodup_iff.mp h.nodup
  obtain ⟨hes, hnodup', hdisjoint⟩ := List.nodup_append'.mp hnodup
  have hmem (e : EventPtr) : e ∈ s.live ↔ e ∈ es ∨ e ∈ live { s with throwing := t } := by
    rw [hlive.mem_iff, List.mem_append]
  refine ⟨?_, ?_, ?_, hnodup', hcarried, hinHandler⟩
  · refine (h.events.freeAll hes fun e he => (hmem e).mpr (.inl he)).mono (fun e he => ?_)
      fun _ _ _ => id
    exact ⟨(hmem e).mpr (.inr he), fun hmem => hdisjoint hmem he⟩
  · exact (h.owned.freeAll es).mono fun e he => ((hmem e).mp he.1).resolve_left he.2
  · exact (Heap.next_freeAll ..).trans h.next_eq

/-- A step that leaves the events alone. -/
theorem Ok.of_eq (h : Ok s) {t : Throwing EventPtr (NullSnapshotHandler EventPtr)}
    (hpending : t.system.broker.pendingActions.filterMap Action.owned =
      s.throwing.system.broker.pendingActions.filterMap Action.owned)
    (hcarried : Carried t.system.todo)
    (htodo : t.system.todo.filterMap Task.owned = s.throwing.system.todo.filterMap Task.owned)
    (hinHandler : t.system.inHandler = s.throwing.system.inHandler)
    (hdispatches : t.system.dispatches = s.throwing.system.dispatches) :
    Ok { s with throwing := t } := by
  have hlive : s.live.Perm ([] ++ live { s with throwing := t }) := by
    rw [List.nil_append, live, live, hpending, htodo]
  refine h.freeAll hlive hcarried fun hin d hd => ?_
  rw [htodo]
  exact h.inHandler (hinHandler ▸ hin) d (hdispatches ▸ hd)

/-- An action without an event is put into the queue. -/
theorem owned_concat (as : List (Action EventPtr)) {a : Action EventPtr} (ha : a.owned = none) :
    (as ++ [a]).filterMap Action.owned = as.filterMap Action.owned := by
  simp [ha]

/-- `publish` copies an event and puts it into the queue. -/
theorem Ok.publish (h : Ok s) (p : ProducerPtr) {a : ℕ} (ha : s.events.cells a = none) (v : V)
    {t : Throwing EventPtr (NullSnapshotHandler EventPtr)}
    (ht : t.system = s.throwing.system.publish p s.events.next) :
    Ok ⟨t, s.events.allocate a v, s.cloned ++ [v]⟩ := by
  have hlive : live ⟨t, s.events.allocate a v, s.cloned ++ [v]⟩ = s.live ++ [s.events.next] := by
    simp [live, ht, System.publish, OldBroker.publish, OldBroker.enqueue, Action.owned]
  have hnew : s.events.next ∉ s.live := fun hmem => Nat.lt_irrefl _ (h.events.lt_next hmem)
  have hmem (e : EventPtr) : e ∈ s.live ++ [s.events.next] ↔ e ∈ s.live ∨ e = s.events.next := by
    simp
  refine ⟨?_, ?_, ?_, ?_, ?_, ?_⟩
  · rw [hlive]
    have hkeep : s.events.Holds (· ∈ s.live) fun e w => (s.cloned ++ [v])[e]? = some w :=
      h.events.mono (fun _ => id) fun e w _ hw => by
        rw [List.getElem?_append_left (List.getElem?_eq_some_iff.mp hw).1, hw]
    exact (hkeep.allocate ha (by simp [h.next_eq])).mono (fun e => (hmem e).mp) fun _ _ _ => id
  · rw [hlive]
    exact (h.owned.allocate a v).mono fun e => (hmem e).mpr
  · simp [Heap.allocate, h.next_eq]
  · rw [hlive]
    simpa [List.nodup_append] using ⟨h.nodup, fun e he heq => hnew (heq ▸ he)⟩
  · rw [ht]
    exact h.carried
  · rw [ht]
    intro hin d hd
    refine h.inHandler hin d ?_
    rwa [System.dispatches, System.publish, History.dispatches_enqueued] at hd

/-- The next task of `do_work`. -/
theorem Ok.resume (h : Ok s) {task : Task EventPtr} {rest : List (Task EventPtr)}
    (htodo : s.throwing.system.todo = task :: rest)
    (hfault : (s.throwing.system.resume task rest).fault = none) :
    Ok { s with
      throwing := { s.throwing with system := s.throwing.system.resume task rest }
      events := s.events.freeAll task.owned.toList } := by
  have hcarried := h.carried
  rw [htodo] at hcarried
  rw [System.resume] at hfault ⊢
  cases hexec : task.exec s.throwing.system.broker s.throwing.system.frontIndex with
  | error f =>
    rw [hexec] at hfault
    cases hfault
  | ok o =>
    obtain ⟨b, tasks, dispatched⟩ := o
    obtain ⟨howned, htasks, hevents⟩ := Task.exec_owned hexec
    refine h.freeAll ?_ (htasks.append hcarried.tail) fun hin d hd => ?_
    · have hbefore : s.live = task.owned.toList ++ (rest.filterMap Task.owned ++
          s.throwing.system.broker.pendingActions.filterMap Action.owned) := by
        rw [live, htodo, List.filterMap_cons]
        cases task.owned <;> rfl
      rw [hbefore, ← howned, ← List.append_assoc (rest.filterMap Task.owned)]
      refine .append_left _ ?_
      rw [live, List.filterMap_append]
      exact List.perm_append_comm.append_right _
    · cases dispatched with
      | none => cases hin
      | some d' =>
        obtain rfl : d' = d := by
          simpa [System.dispatches, History.dispatches] using hd
        refine List.Subset.trans ?_ ((List.sublist_append_right tasks rest).filterMap _).subset
        rcases hevents d' rfl with hnil | ⟨i, p, c, rfl⟩
        · exact hnil ▸ List.nil_subset _
        · exact hcarried.1

/-- An exception leaves `do_work`. -/
theorem Ok.throw (h : Ok s) : Ok { s with
    throwing := s.throwing.throw
    events := s.events.freeAll (s.throwing.system.todo.filterMap Task.owned) } :=
  h.freeAll (t := s.throwing.throw) (.refl _) trivial fun hin => by cases hin

/-- The other steps are those of the broker, with the events that they free. -/
theorem step_other {l : Throwing.Label EventPtr} (h : s.step client (.other l) = some s') :
    (∀ p e, l ≠ .run (.publish p e)) ∧ ∃ t, s.throwing.step client l = some t ∧
      s' = { s with throwing := t, events := s.events.freeAll (s.freed l) } := by
  have hpublish (p e) (heq : l = .run (.publish p e)) : False := by
    subst heq
    cases h
  have hstep : s.step client (.other l) = (s.throwing.step client l).map fun throwing =>
      { s with throwing, events := s.events.freeAll (s.freed l) } := by
    cases l with
    | throw => rfl
    | run l =>
      cases l with
      | publish p e => exact (hpublish p e rfl).elim
      | _ => rfl
  rw [hstep] at h
  obtain ⟨t, ht, rfl⟩ := Option.map_eq_some_iff.mp h
  exact ⟨hpublish, t, ht, rfl⟩

/-- **Every step keeps the invariant.** -/
theorem Ok.step (h : Ok s) {u : System EventPtr (NullSnapshotHandler EventPtr)}
    {done : List (Action EventPtr)} (hfollows : Throwing.Follows client s.throwing u done)
    {l : Label V} (hstep : s.step client l = some s') :
    Ok s' ∧ ∃ u' done', Throwing.Follows client s'.throwing u' done' := by
  cases l with
  | publish p a v =>
    obtain ⟨ha, hstep⟩ := Option.ite_none_right_eq_some.mp hstep
    obtain ⟨t, ht, rfl⟩ := Option.map_eq_some_iff.mp hstep
    obtain ⟨s₁, hs₁, rfl⟩ := Option.map_eq_some_iff.mp ht
    cases System.effect_of_step hs₁
    exact ⟨h.publish p (Option.isNone_iff_eq_none.mp ha) v rfl, hfollows.step ht⟩
  | other l =>
    obtain ⟨hpublish, t, ht, rfl⟩ := step_other hstep
    obtain ⟨u', done', hfollows'⟩ := hfollows.step ht
    refine ⟨?_, u', done', hfollows'⟩
    cases l with
    | throw =>
      obtain rfl := Option.some.inj (Option.ite_none_right_eq_some.mp ht).2
      exact h.throw
    | run l =>
      obtain ⟨s₁, hs₁, rfl⟩ := Option.map_eq_some_iff.mp ht
      cases System.effect_of_step hs₁ with
      | publish => exact absurd rfl (hpublish _ _)
      | makeProducer | destroyProducer | makeConsumer =>
        exact h.of_eq (owned_concat _ rfl) h.carried rfl rfl (History.dispatches_enqueued ..)
      | @destroyConsumer c _ hc =>
        have hhandle : c ∈ u.consumerHandles := hfollows.tracks.consumerHandles_eq ▸ hc
        obtain ⟨me, hderef, -⟩ :=
          hfollows.inv.consumerHeap.object (hfollows.inv.liveConsumer hhandle)
        rw [← hfollows.tracks.broker.consumerHeap_eq] at hderef
        rw [System.destroyConsumer, OldBroker.destroyConsumer_eq hderef]
        exact h.of_eq (owned_concat _ rfl) h.carried rfl rfl (History.dispatches_enqueued ..)
      | doWork htodo => exact h.of_eq rfl trivial (by rw [htodo]; rfl) rfl rfl
      | @resume task _ htodo =>
        have hfreed : s.freed (.run .resume) = task.owned.toList := by
          rw [freed, htodo]
          rfl
        exact hfreed ▸ h.resume htodo hfollows'.tracks.noFault

theorem ok_of_reachable (h : Transition.Reachable (step client) (.init client) s) :
    Ok s ∧ ∃ u done, Throwing.Follows client s.throwing u done := by
  refine h.invariant (P := fun s => Ok s ∧ ∃ u done, Throwing.Follows client s.throwing u done) ?_
    ⟨.init client, _, _, .init client⟩
  rintro s l s' ⟨hok, u, done, hfollows⟩ hstep
  exact hok.step hfollows hstep

theorem mem_live {e : EventPtr} : e ∈ s.live ↔
    (∃ p, .publish p e ∈ s.throwing.system.broker.pendingActions) ∨
      ∃ p, .addNewEvent p e ∈ s.throwing.system.todo := by
  have haction (a : Action EventPtr) : a.owned = some e ↔ ∃ p, a = .publish p e := by
    cases a <;> simp [Action.owned]
  have htask (task : Task EventPtr) : task.owned = some e ↔ ∃ p, task = .addNewEvent p e := by
    cases task <;> simp [Task.owned]
  rw [live, List.mem_append, List.mem_filterMap, List.mem_filterMap, or_comm]
  simp only [haction, htask]
  exact or_congr ⟨fun ⟨_, hmem, p, heq⟩ => ⟨p, heq ▸ hmem⟩, fun ⟨p, hmem⟩ => ⟨_, hmem, p, rfl⟩⟩
    ⟨fun ⟨_, hmem, p, heq⟩ => ⟨p, heq ▸ hmem⟩, fun ⟨p, hmem⟩ => ⟨_, hmem, p, rfl⟩⟩

/-- The events that a step frees are live. -/
theorem freed_subset (s : Cloning V) (l : Throwing.Label EventPtr) : s.freed l ⊆ s.live := by
  refine List.Subset.trans ?_ (List.subset_append_left _ _)
  cases l with
  | throw => exact List.Subset.refl _
  | run l =>
    cases l with
    | resume =>
      rw [freed]
      cases s.throwing.system.todo with
      | nil => exact List.nil_subset _
      | cons task rest => cases htask : task.owned <;> simp [htask]
    | _ => exact List.nil_subset _

end Cloning

section

variable {V : Type} {client : Client EventPtr (NullSnapshotHandler EventPtr)} {s : Cloning V}

/-- **A handler finds the event that was published.** As long as a handler runs, whatever it and the
handlers before it have made the broker do, the copies of the events of its notification exist, and
their values are those that were published. -/
theorem deref_event_of_inHandler
    (h : Transition.Reachable (Cloning.step client) (.init client) s)
    (hin : s.throwing.system.inHandler) {d : Dispatch EventPtr}
    (hd : s.throwing.system.dispatches.getLast? = some d) {e : EventPtr}
    (he : e ∈ d.notification.events) :
    ∃ v, s.cloned[e]? = some v ∧ s.events.deref e = some v := by
  obtain ⟨hok, -⟩ := Cloning.ok_of_reachable h
  obtain ⟨v, hderef, hv⟩ :=
    hok.events.object (List.mem_append_left _ (hok.inHandler hin d hd he))
  exact ⟨v, hv, hderef⟩

/-- The handler throws when it is told of the first event; the copy of the second event gets the
address of the first one. -/
def copyAtSameAddress : List (Cloning.Label ℕ) :=
  [.other (.run (.makeProducer 0)), .other (.run (.makeConsumer 0)), .publish 0 0 7,
    .other (.run .doWork)] ++ List.replicate 5 (.other (.run .resume)) ++
    [.other .throw, .publish 0 0 9, .other (.run .doWork)] ++
    List.replicate 2 (.other (.run .resume))

theorem deref_event_of_inHandler_copyAtSameAddress :
    ∃ s : Cloning ℕ, Transition.run (Cloning.step oneStream) (.init oneStream) copyAtSameAddress =
      some s ∧ s.events.addr 0 = s.events.addr 1 ∧
      ∃ v, s.cloned[1]? = some v ∧ s.events.deref 1 = some v := by
  have hrun : (Transition.run (Cloning.step oneStream) (.init oneStream) copyAtSameAddress).map
      (fun s : Cloning ℕ => (s.throwing.system.inHandler,
        s.throwing.system.dispatches.getLast?.map fun d => d.notification.events,
        s.events.addr 0, s.events.addr 1)) = some (true, some [1], 0, 0) := rfl
  obtain ⟨s, hs, heq⟩ := Option.map_eq_some_iff.mp hrun
  simp only [Prod.mk.injEq, Option.map_eq_some_iff] at heq
  obtain ⟨hin, ⟨d, hd, hevents⟩, haddr₀, haddr₁⟩ := heq
  have hreachable : Transition.Reachable (Cloning.step oneStream) (.init oneStream) s := ⟨_, hs⟩
  refine ⟨s, hs, haddr₀.trans haddr₁.symm, ?_⟩
  exact deref_event_of_inHandler hreachable hin hd (hevents ▸ List.mem_singleton_self _)

/-- **When the copy of an event exists.** In every state of every run, the copy of an event exists
exactly if its `Publish` action waits in the queue or is being carried out. No step frees a copy
that does not exist, and when no `do_work` is in progress, the destructor of the queue frees all
that are left. -/
theorem event_iff (h : Transition.Reachable (Cloning.step client) (.init client) s) :
    (∀ e, (∃ a v, s.events.cells a = some (e, v)) ↔
      (∃ p, .publish p e ∈ s.throwing.system.broker.pendingActions) ∨
        ∃ p, .addNewEvent p e ∈ s.throwing.system.todo) ∧
    (∀ l, ∀ e ∈ s.freed l, s.events.Valid e) ∧
    (s.throwing.system.todo = [] → ∀ a, (s.events.freeAll
      (s.throwing.system.broker.pendingActions.filterMap Action.owned)).cells a = none) := by
  obtain ⟨hok, -⟩ := Cloning.ok_of_reachable h
  refine ⟨fun e => ?_, fun l e he => hok.events.valid (s.freed_subset l he), fun htodo => ?_⟩
  · rw [← Cloning.mem_live]
    exact hok.owned.exists_cell_iff hok.events e
  · have hlive : s.live = s.throwing.system.broker.pendingActions.filterMap Action.owned := by
      rw [Cloning.live, htodo]
      rfl
    rw [← hlive]
    exact (hok.owned.freeAll s.live).cells_eq_none fun e he => he.2 he.1

/-- A handler has thrown at the first event, and a second one waits in the queue. -/
def waitingEvent : List (Cloning.Label ℕ) :=
  copyAtSameAddress.take 9 ++ [.other .throw, .publish 0 0 9]

theorem event_iff_of_waitingEvent :
    ∃ s : Cloning ℕ, Transition.run (Cloning.step oneStream) (.init oneStream) waitingEvent =
      some s ∧ s.cloned = [7, 9] ∧ (¬ ∃ a v, s.events.cells a = some (0, v)) ∧
      (∃ a v, s.events.cells a = some (1, v)) ∧
      ∀ a, (s.events.freeAll [1]).cells a = none := by
  have hrun : (Transition.run (Cloning.step oneStream) (.init oneStream) waitingEvent).map
      (fun s : Cloning ℕ => (s.cloned, s.throwing.system.todo,
        s.throwing.system.broker.pendingActions)) = some ([7, 9], [], [.publish 0 1]) := rfl
  obtain ⟨s, hs, heq⟩ := Option.map_eq_some_iff.mp hrun
  simp only [Prod.mk.injEq] at heq
  obtain ⟨hcloned, htodo, hpending⟩ := heq
  have hreachable : Transition.Reachable (Cloning.step oneStream) (.init oneStream) s := ⟨_, hs⟩
  obtain ⟨hiff, -, hfreed⟩ := event_iff hreachable
  rw [hpending, htodo] at hiff
  refine ⟨s, hs, hcloned, ?_, ?_, ?_⟩
  · rw [hiff]
    simp
  · rw [hiff]
    simp
  · rw [hpending] at hfreed
    exact hfreed htodo

end

end Keryx
