import Keryx.Broker.Safety

/-!
# What the consumers receive

The notifications that a consumer receives are determined by the order in which the actions were
enqueued. When the queue has been emptied, a consumer that is not destroyed has received exactly the
messages of the abstract model, and one that is destroyed has received those that were dispatched
before the call of `destroy_consumer`, which mutes its handler at once.

## Main definitions

* `System.receivedFrom` — what the handler of a consumer was called with, from one producer.
* `Client.expected` — what it should be called with, in terms of the log.
* `System.seen` — the numbers of the `Publish` and `DestroyProducer` actions a consumer has seen.

## Main results

* `receivedFrom_eq_expected` — exact delivery.
* `received_in_order` — all consumers agree on one order.
-/

namespace Keryx

open PubSub (Signal Message)

variable {Ev H : Type}

/-! ### Dispatches and the handlers they reach -/

namespace History

/-- The dispatches to the consumer `c`, whatever function they called. -/
def dispatchesTo (h : History Ev) (c : ConsumerPtr) : List (Dispatch Ev) :=
  h.dispatches.filter (·.consumer = c)

theorem dispatches_append (h h' : History Ev) :
    dispatches (h ++ h') = dispatches h ++ dispatches h' := List.filterMap_append

theorem log_append (h h' : History Ev) : log (h ++ h') = log h ++ log h' := List.filterMap_append

theorem mem_dispatches {h : History Ev} {d : Dispatch Ev} :
    d ∈ dispatches h ↔ .dispatched d ∈ h := by
  rw [dispatches, List.mem_filterMap]
  constructor
  · rintro ⟨_ | d', hmem, heq⟩
    · cases heq
    · cases heq
      exact hmem
  · exact fun hmem => ⟨_, hmem, rfl⟩

theorem mem_log {h : History Ev} {a : Action Ev} : a ∈ log h ↔ .enqueued a ∈ h := by
  rw [log, List.mem_filterMap]
  constructor
  · rintro ⟨a' | _, hmem, heq⟩
    · cases heq
      exact hmem
    · cases heq
  · exact fun hmem => ⟨_, hmem, rfl⟩

end History

namespace Handled

variable {h h₁ h₂ : History Ev} {c : ConsumerPtr}

/-- A dispatch that reaches the handler of `c` is a dispatch to `c`. -/
theorem consumer_eq (hh : Handled h) {d : Dispatch Ev} (hd : d ∈ h.dispatches)
    (hc : d.handler = .user c) : d.consumer = c := by
  obtain ⟨h₁, h₂, rfl⟩ := List.append_of_mem (History.mem_dispatches.mp hd)
  obtain ⟨hignore, huser⟩ := hh h₁ d h₂ rfl
  by_cases hdestroy : .destroyConsumer d.consumer ∈ History.log h₁
  · rw [hignore hdestroy] at hc
    cases hc
  · rw [huser hdestroy] at hc
    exact NotificationHandlerImpl.user.inj hc

/-- Before `destroy_consumer` is called, every dispatch to `c` reaches its handler. -/
theorem received_eq_of_notMem (hh : Handled (h₁ ++ h₂)) (hc : .destroyConsumer c ∉ h₁.log) :
    h₁.received c = h₁.dispatchesTo c := by
  refine List.filter_congr fun d hd => ?_
  have hmem : d ∈ History.dispatches (h₁ ++ h₂) := by
    rw [History.dispatches_append]
    exact List.mem_append_left _ hd
  refine decide_eq_decide.mpr ⟨hh.consumer_eq hmem, ?_⟩
  rintro rfl
  obtain ⟨l₁, l₂, rfl⟩ := List.append_of_mem (History.mem_dispatches.mp hd)
  rw [List.append_assoc] at hh
  refine (hh l₁ d (l₂ ++ h₂) rfl).2 fun hdestroy => hc ?_
  rw [History.log_append]
  exact List.mem_append_left _ hdestroy

/-- Every dispatch to a consumer that is not destroyed reaches its handler. -/
theorem received_eq (hh : Handled h) (hc : .destroyConsumer c ∉ h.log) :
    h.received c = h.dispatchesTo c := by
  have hnil : Handled (h ++ []) := by rwa [List.append_nil]
  exact hnil.received_eq_of_notMem hc

/-- After `destroy_consumer` has been called, no dispatch reaches the handler of `c`. -/
theorem received_eq_nil_of_mem (hh : Handled (h₁ ++ h₂)) (hc : .destroyConsumer c ∈ h₁.log) :
    h₂.received c = [] := by
  refine List.filter_eq_nil_iff.mpr fun d hd huser => ?_
  have huser : d.handler = .user c := of_decide_eq_true huser
  have hmem : d ∈ History.dispatches (h₁ ++ h₂) := by
    rw [History.dispatches_append]
    exact List.mem_append_right _ hd
  obtain rfl := hh.consumer_eq hmem huser
  obtain ⟨l₁, l₂, rfl⟩ := List.append_of_mem (History.mem_dispatches.mp hd)
  rw [← List.append_assoc] at hh
  have hignore : d.handler = .ignore := (hh (h₁ ++ l₁) d l₂ rfl).1 <| by
    rw [History.log_append]
    exact List.mem_append_left _ hc
  rw [hignore] at huser
  cases huser

/-- A handler receives what is dispatched before `destroy_consumer` is called. -/
theorem received_eq_of_split
    (hh : Handled (h₁ ++ .enqueued (.destroyConsumer c) :: h₂)) (hc : .destroyConsumer c ∉ h₁.log) :
    History.received (h₁ ++ .enqueued (.destroyConsumer c) :: h₂) c = h₁.dispatchesTo c := by
  rw [List.append_cons] at hh ⊢
  have hmem : .destroyConsumer c ∈ History.log (h₁ ++ [.enqueued (.destroyConsumer c)]) := by
    rw [History.log_enqueued]
    exact List.mem_append_right _ (List.mem_singleton_self _)
  have hafter := hh.received_eq_nil_of_mem hmem
  rw [List.append_assoc] at hh
  have hbefore := hh.received_eq_of_notMem hc
  rw [History.received, History.dispatches_append, History.dispatches_enqueued, List.filter_append]
  exact (congrArg₂ _ hbefore hafter).trans (List.append_nil _)

/-- What the handler of a consumer received is the beginning of what was dispatched to it. -/
theorem received_isPrefix (hh : Handled h) (c : ConsumerPtr) :
    h.received c <+: h.dispatchesTo c := by
  by_cases hc : .destroyConsumer c ∈ h.log
  · obtain ⟨h₁, h₂, rfl, hfirst⟩ := List.eq_append_cons_of_mem (History.mem_log.mp hc)
    rw [hh.received_eq_of_split fun hmem => hfirst (History.mem_log.mp hmem),
      History.dispatchesTo, History.dispatchesTo, History.dispatches_append, List.filter_append]
    exact List.prefix_append _ _
  · exact hh.received_eq hc ▸ List.prefix_rfl

end Handled

/-! ### The dispatches to a consumer and the messages of the abstract model -/

section Abstract

variable (client : Client Ev H)

/-- The deliveries from the producer `p` to the consumer `c`. -/
def deliveriesBetween (p : ProducerPtr) (c : ConsumerPtr) (ds : List (Delivery Ev)) :
    List (NotificationImpl Ev) :=
  ds.filterMap fun d => if d.producer = p ∧ d.consumer = c then some d.notification else none

theorem deliveriesBetween_map (p : ProducerPtr) (c : ConsumerPtr)
    (ms : List (Message ProducerPtr ConsumerPtr Ev)) :
    deliveriesBetween p c (ms.map client.delivery) =
      (PubSub.between p c ms).map (client.notification p) := by
  rw [deliveriesBetween, List.filterMap_map, PubSub.between, List.map_filterMap]
  refine List.filterMap_congr fun m _ => ?_
  by_cases hm : m.source = p ∧ m.sink = c
  · simp [Client.delivery, hm]
  · simp [Client.delivery, hm]

theorem deliveriesBetween_dispatches (p : ProducerPtr) (c : ConsumerPtr)
    (ds : List (Dispatch Ev)) :
    deliveriesBetween p c (ds.map Dispatch.delivery) =
      ((ds.filter (·.consumer = c)).filter (·.producer = p)).map (·.notification) := by
  induction ds with
  | nil => rfl
  | cons d ds ih =>
    rw [List.map_cons, deliveriesBetween, List.filterMap_cons, ← deliveriesBetween, ih]
    by_cases hc : d.consumer = c <;> by_cases hp : d.producer = p <;>
      simp [Dispatch.delivery, hc, hp]

end Abstract

/-! ### Exact delivery -/

/-- What the handler of the consumer `c` was called with, from the producer `p`. -/
def System.receivedFrom (s : System Ev H) (p : ProducerPtr) (c : ConsumerPtr) :
    List (NotificationImpl Ev) :=
  ((s.received c).filter (·.producer = p)).map (·.notification)

/-- What was dispatched from the producer `p` to the consumer `c`. -/
def History.dispatchedFrom (h : History Ev) (p : ProducerPtr) (c : ConsumerPtr) :
    List (NotificationImpl Ev) :=
  ((h.dispatchesTo c).filter (·.producer = p)).map (·.notification)

namespace Client

variable [DecidableEq Ev] (client : Client Ev H)

/-- The events that the producer `p` publishes in a log, as notifications. -/
def events (p : ProducerPtr) (L : List (Action Ev)) : List (NotificationImpl Ev) :=
  L.filterMap fun
    | .publish q e => if q = p then some (client.notification p (.value e)) else none
    | _ => none

/-- What a matching consumer should receive from the producer `p`, when the log is `L₁`, then
`InitConsumer` of the consumer, then `L₂`: nothing if `p` was destroyed before, and otherwise
`START_PRODUCER`, the events published afterwards, and `STOP_PRODUCER` if `p` is destroyed. -/
def expected (p : ProducerPtr) (L₁ L₂ : List (Action Ev)) : List (NotificationImpl Ev) :=
  if .destroyProducer p ∈ L₁ then []
  else client.notification p .started :: (client.events p L₂ ++
    if .destroyProducer p ∈ L₂ then [client.notification p .stopped] else [])

theorem expected_eq (p : ProducerPtr) (L₁ L₂ : List (Action Ev)) : client.expected p L₁ L₂ =
    (PubSub.heard p (L₁.map Action.act) (L₂.map Action.act)).map (client.notification p) := by
  have hevents : client.events p L₂ =
      (PubSub.values p (L₂.map Action.act)).map (client.notification p) := by
    rw [events, PubSub.values, List.filterMap_map, List.map_filterMap]
    refine List.filterMap_congr fun a _ => ?_
    cases a with
    | publish q e => by_cases hq : q = p <;> simp [Action.act, PubSub.Act.valueOf, hq]
    | _ => rfl
  have hmem (L : List (Action Ev)) :
      .removeSource p ∈ L.map Action.act ↔ .destroyProducer p ∈ L :=
    mem_map_act (a := .destroyProducer p)
  rw [expected, PubSub.heard, PubSub.stops, hevents]
  simp only [hmem]
  split_ifs <;> simp

end Client

namespace Inv

variable {client : Client Ev H} {s : System Ev H} {done : List (Action Ev)}

/-- The dispatches so far are a beginning of the messages of the actions carried out. -/
theorem dispatches_isPrefix (h : Inv client s done) :
    s.dispatches.map Dispatch.delivery <+: (client.outputs done).map client.delivery :=
  ⟨_, h.deliveries⟩

/-- When `do_work` has emptied the queue, the whole log has been carried out. -/
theorem drained (h : Inv client s done) (hpending : s.broker.pendingActions = []) :
    s.log = done := by
  rw [h.log_eq, hpending, List.append_nil]

theorem dispatchedFrom_eq (h : Inv client s done) (htodo : s.todo = [])
    (hpending : s.broker.pendingActions = []) (p : ProducerPtr) (c : ConsumerPtr) :
    s.history.dispatchedFrom p c =
      (PubSub.between p c (client.outputs s.log)).map (client.notification p) := by
  have hdeliveries := h.deliveries
  rw [htodo, List.flatMap_nil, List.append_nil] at hdeliveries
  rw [← deliveriesBetween_map, h.drained hpending, ← hdeliveries, deliveriesBetween_dispatches]
  rfl

/-- A consumer is destroyed once. -/
theorem destroyConsumer_notMem (h : Inv client s done) {c : ConsumerPtr} {h₁ h₂ : History Ev}
    (hsplit : s.history = h₁ ++ .enqueued (.destroyConsumer c) :: h₂) :
    .destroyConsumer c ∉ h₁.log := by
  have hadmits := h.admits
  rw [System.log, hsplit, List.append_cons, History.log_append, History.log_enqueued,
    client.admits_append, client.admits_concat] at hadmits
  have hc := Client.ok_destroyConsumer.mp hadmits.1.2
  exact ((Client.mem_consumers hadmits.1.1).mp hc).2

end Inv

variable {client : Client Ev H} {s : System Ev H}

/-- **Exact delivery.** When `do_work` has emptied the queue, the handler of a consumer `c` has been
called by a producer `p` with exactly the expected notifications. A consumer that does not match is
never called; one that is destroyed receives the beginning that was dispatched before
`destroy_consumer` was called. -/
theorem receivedFrom_eq_expected [SnapshotHandler Ev H] [DecidableEq Ev]
    (h : Transition.Reachable (System.step client) (.init client) s) (htodo : s.todo = [])
    (hpending : s.broker.pendingActions = []) {p : ProducerPtr} {c : ConsumerPtr}
    {L₁ L₂ : List (Action Ev)} (hp : .initProducer p ∈ s.log)
    (hlog : s.log = L₁ ++ .initConsumer c :: L₂) :
    (¬ client.isMatch p c → s.receivedFrom p c = []) ∧
    (client.isMatch p c → .destroyConsumer c ∉ s.log →
      s.receivedFrom p c = client.expected p L₁ L₂) ∧
    (client.isMatch p c → ∀ h₁ h₂ : History Ev,
      s.history = h₁ ++ .enqueued (.destroyConsumer c) :: h₂ →
      s.receivedFrom p c = h₁.dispatchedFrom p c ∧
        s.receivedFrom p c <+: client.expected p L₁ L₂) := by
  obtain ⟨done, hinv⟩ := inv_of_reachable h
  have hdispatched := hinv.dispatchedFrom_eq htodo hpending p c
  have hpre : s.receivedFrom p c <+: s.history.dispatchedFrom p c :=
    ((hinv.handled.received_isPrefix c).filter _).map _
  -- the messages of the log, from `p` to `c`
  have hbetween (hmatch : client.isMatch p c) := by
    have hadmits := hinv.admits
    rw [hlog, Client.Admits, List.map_append, List.map_cons] at hadmits
    have hadd := Client.mem_map_act.mpr hp
    rw [hlog, List.map_append, List.map_cons] at hadd
    exact PubSub.between_after_addSink (p := p) hadmits hmatch hadd
  have houtputs : client.outputs s.log = (PubSub.machine client.isMatch).outputs .empty
      (L₁.map Action.act ++ .addSink c :: L₂.map Action.act) := by
    rw [hlog, Client.outputs, List.map_append, List.map_cons]
    rfl
  refine ⟨fun hmatch => ?_, fun hmatch hdestroy => ?_, fun hmatch h₁ h₂ hsplit => ?_⟩
  · have hnil := PubSub.between_eq_nil_of_not_sub .empty hinv.admits hmatch
    rw [hdispatched, Client.outputs, Client.machine, hnil] at hpre
    exact List.prefix_nil.mp hpre
  · have hreceived := hinv.handled.received_eq hdestroy
    have hremove : .removeSink c ∉ L₂.map Action.act := fun hmem => hdestroy <| by
      rw [hlog]
      exact List.mem_append_right _ (List.mem_cons_of_mem _
        ((Client.mem_map_act (a := .destroyConsumer c)).mp hmem))
    rw [client.expected_eq, ← (hbetween hmatch).2 hremove, ← houtputs, ← hdispatched,
      System.receivedFrom, History.dispatchedFrom, ← hreceived]
    rfl
  · have hreceived : s.receivedFrom p c = h₁.dispatchedFrom p c := by
      have hhandled := hinv.handled
      rw [hsplit] at hhandled
      have := hhandled.received_eq_of_split (hinv.destroyConsumer_notMem hsplit)
      rw [← hsplit] at this
      rw [System.receivedFrom, History.dispatchedFrom, ← this]
      rfl
    refine ⟨hreceived, hpre.trans ?_⟩
    rw [hdispatched, client.expected_eq, houtputs]
    exact (hbetween hmatch).1.map _

/-- The handler that is told of the start of the producer publishes an event and destroys the
producer. -/
def publishingHandler : List (Label ℕ) :=
  [.makeProducer 0, .makeConsumer 0, .doWork, .resume, .resume, .resume, .publish 0 5,
    .destroyProducer 0] ++ List.replicate 7 .resume

theorem receivedFrom_eq_expected_of_publishingHandler :
    ∃ s, Transition.run (System.step oneStream) (.init oneStream) publishingHandler = some s ∧
      s.log = [.initProducer 0, .initConsumer 0, .publish 0 5, .destroyProducer 0] ∧
      s.receivedFrom 0 0 =
        [⟨.startProducer, [], 1, ⟨0, ""⟩⟩, ⟨.event, [5], 1, ⟨0, ""⟩⟩,
          ⟨.stopProducer, [], 1, ⟨0, ""⟩⟩] := by
  have hrun : (Transition.run (System.step oneStream) (.init oneStream) publishingHandler).map
      (fun s => (s.todo, s.broker.pendingActions, s.log)) =
      some ([], [], [.initProducer 0, .initConsumer 0, .publish 0 5, .destroyProducer 0]) := rfl
  obtain ⟨s, hs, heq⟩ := Option.map_eq_some_iff.mp hrun
  simp only [Prod.mk.injEq] at heq
  obtain ⟨htodo, hpending, hlog⟩ := heq
  have hsplit : s.log = [.initProducer 0] ++ .initConsumer 0 ::
      [.publish 0 5, .destroyProducer 0] := hlog
  have hdelivery := receivedFrom_eq_expected (p := 0) (c := 0) ⟨_, hs⟩ htodo hpending
    (hlog ▸ List.mem_cons_self) hsplit
  refine ⟨s, hs, hlog, (hdelivery.2.1 rfl ?_).trans rfl⟩
  rw [hlog]
  decide

/-! ### One order for all consumers -/

/-- The numbers of the `Publish` and `DestroyProducer` actions whose notifications reached the
handler of the consumer `c`. -/
def System.seen (s : System Ev H) (c : ConsumerPtr) : List ℕ :=
  ((s.received c).filter (·.notification.kind ≠ .startProducer)).map (·.origin)

/-- What the `Publish` and `DestroyProducer` actions of a log cause, in the order they were
enqueued: the number of the action, the producer and the notification. -/
def Client.causes (client : Client Ev H) (L : List (Action Ev)) :
    List (ℕ × ProducerPtr × NotificationImpl Ev) :=
  L.zipIdx.filterMap fun
    | (.publish p e, i) => some (i, p, client.notification p (.value e))
    | (.destroyProducer p, i) => some (i, p, client.notification p .stopped)
    | _ => none

/-- What a dispatch says to its consumer, and the number of the action it was made for. -/
def Delivery.entry (d : Delivery Ev) : ℕ × ProducerPtr × NotificationImpl Ev :=
  (d.origin, d.producer, d.notification)

namespace Client

variable (client : Client Ev H)

/-- A signal of the abstract model, as the notification that carries it. -/
def entry (x : ℕ × ProducerPtr × Signal Ev) : ℕ × ProducerPtr × NotificationImpl Ev :=
  (x.1, x.2.1, client.notification x.2.1 x.2.2)

theorem causes_eq (L : List (Action Ev)) :
    client.causes L = (PubSub.causes 0 (L.map Action.act)).map client.entry := by
  rw [causes]
  generalize 0 = k
  induction L generalizing k with
  | nil => rfl
  | cons a L ih =>
    rw [List.zipIdx_cons, List.filterMap_cons, List.map_cons, PubSub.causes, List.map_append, ih]
    cases a with
    | initProducer p => rfl
    | destroyProducer p => rfl
    | publish p e => rfl
    | initConsumer c => rfl
    | destroyConsumer c => rfl

/-- A cause is a `Publish` or a `DestroyProducer` action of the log. -/
theorem getElem?_of_mem_causes {L : List (Action Ev)} {i : ℕ} {p : ProducerPtr}
    {m : NotificationImpl Ev} (h : (i, p, m) ∈ client.causes L) :
    (∃ e, L[i]? = some (.publish p e) ∧ m = client.notification p (.value e)) ∨
      L[i]? = some (.destroyProducer p) ∧ m = client.notification p .stopped := by
  obtain ⟨⟨a, j⟩, ha, heq⟩ := List.mem_filterMap.mp h
  have hlog := List.mk_mem_zipIdx_iff_getElem?.mp ha
  cases a with
  | publish q e =>
    cases heq
    exact .inl ⟨e, hlog, rfl⟩
  | destroyProducer q =>
    cases heq
    exact .inr ⟨hlog, rfl⟩
  | _ => cases heq

theorem causes_append (L L' : List (Action Ev)) :
    (client.causes L).Sublist (client.causes (L ++ L')) := by
  rw [causes, causes, List.zipIdx_append, List.filterMap_append]
  exact List.sublist_append_left _ _

/-- The numbers of the causes increase. -/
theorem causes_pairwise (L : List (Action Ev)) :
    ((client.causes L).map Prod.fst).Pairwise (· < ·) := by
  rw [causes_eq, List.map_map, List.pairwise_map]
  exact PubSub.causes_pairwise 0 _

/-- The messages to the consumer `c` that are no `START_PRODUCER`, as deliveries. -/
theorem entry_toSink (c : ConsumerPtr) (ms : List (Message ProducerPtr ConsumerPtr Ev)) :
    ((ms.map client.delivery).filter fun d =>
        d.consumer = c ∧ d.notification.kind ≠ .startProducer).map Delivery.entry =
      (PubSub.toSink c ms).map client.entry := by
  induction ms with
  | nil => rfl
  | cons m ms ih =>
    obtain ⟨i, p, d, signal⟩ := m
    rw [List.map_cons, List.filter_cons, PubSub.toSink, List.filterMap_cons, ← PubSub.toSink]
    cases signal with
    | started => simpa [delivery, notification] using ih
    | value e =>
      by_cases hd : d = c
      · simpa [delivery, notification, hd, Delivery.entry, entry] using ih
      · simpa [delivery, notification, hd] using ih
    | stopped =>
      by_cases hd : d = c
      · simpa [delivery, notification, hd, Delivery.entry, entry] using ih
      · simpa [delivery, notification, hd] using ih

end Client

/-- The values and stops that a consumer has received are, in order, some of those of the log. -/
theorem Inv.received_sublist {done : List (Action Ev)} (h : Inv client s done) (c : ConsumerPtr) :
    (((s.received c).filter (·.notification.kind ≠ .startProducer)).map
      (·.delivery.entry)).Sublist (client.causes s.log) := by
  have hreceived : (((s.received c).filter (·.notification.kind ≠ .startProducer)).map
      (·.delivery.entry)).Sublist
      (((s.dispatches.map Dispatch.delivery).filter fun d =>
        d.consumer = c ∧ d.notification.kind ≠ .startProducer).map Delivery.entry) := by
    have hpre := (h.handled.received_isPrefix c).sublist
    have hfilter := hpre.filter (·.notification.kind ≠ .startProducer)
    have hcongr (d : Dispatch Ev) : (decide (d.notification.kind ≠ .startProducer) &&
        decide (d.consumer = c)) = decide (d.delivery.consumer = c ∧
          d.delivery.notification.kind ≠ .startProducer) := by
      rw [Bool.and_comm, ← Bool.decide_and]
      rfl
    rw [History.dispatchesTo, List.filter_filter, List.filter_congr fun d _ => hcongr d] at hfilter
    rw [List.filter_map, List.map_map]
    exact hfilter.map _
  have hdone := ((h.dispatches_isPrefix.sublist.filter fun d =>
    d.consumer = c ∧ d.notification.kind ≠ .startProducer).map Delivery.entry)
  rw [client.entry_toSink] at hdone
  have hcauses : ((PubSub.toSink c (client.outputs done)).map client.entry).Sublist
      (client.causes done) := by
    rw [client.causes_eq]
    exact (PubSub.toSink_sublist .empty h.admits_done).map client.entry
  rw [h.log_eq]
  exact hreceived.trans (hdone.trans (hcauses.trans (client.causes_append ..)))

/-- In an increasing list, two elements stand in their order. -/
private theorem pair_sublist {l : List ℕ} (hl : l.Pairwise (· < ·)) {i j : ℕ} (hi : i ∈ l)
    (hj : j ∈ l) (hij : i < j) : [i, j].Sublist l := by
  obtain ⟨l₁, l₂, rfl⟩ := List.append_of_mem hi
  obtain ⟨-, hl₂, hl₁⟩ := List.pairwise_append.mp hl
  rcases List.mem_append.mp hj with hj | hj
  · exact absurd (hl₁ j hj i List.mem_cons_self) (by omega)
  · rcases List.mem_cons.mp hj with rfl | hj
    · exact absurd hij (Nat.lt_irrefl _)
    · exact ((List.singleton_sublist.mpr hj).cons_cons i).trans (List.sublist_append_right _ _)

/-- **One order for all consumers.** In every reachable state, also while an event has reached only
some of its consumers, the events and stops that a consumer has received are, in order, some of
those of the log. So two consumers see any two actions that both of them see in the same order. -/
theorem received_in_order [SnapshotHandler Ev H]
    (h : Transition.Reachable (System.step client) (.init client) s) :
    (∀ c, (((s.received c).filter (·.notification.kind ≠ .startProducer)).map
      (·.delivery.entry)).Sublist (client.causes s.log)) ∧
    ∀ c₁ c₂ i j, [i, j].Sublist (s.seen c₁) → i ∈ s.seen c₂ → j ∈ s.seen c₂ →
      [i, j].Sublist (s.seen c₂) := by
  obtain ⟨done, hinv⟩ := inv_of_reachable h
  have hincreasing (c : ConsumerPtr) : (s.seen c).Pairwise (· < ·) := by
    have := (hinv.received_sublist c).map Prod.fst
    rw [List.map_map] at this
    exact (client.causes_pairwise s.log).sublist this
  refine ⟨hinv.received_sublist, fun c₁ c₂ i j hij hi hj => ?_⟩
  have hlt : i < j := by simpa using (hincreasing c₁).sublist hij
  exact pair_sublist (hincreasing c₂) hi hj hlt

/-- While the event of the first producer has reached only one of the two consumers, its handler
publishes an event of the second producer. -/
def crossPublishing : List (Label ℕ) :=
  [.makeProducer 0, .makeProducer 1, .makeConsumer 0, .makeConsumer 1, .doWork] ++
    List.replicate 9 .resume ++ [.publish 0 5, .doWork, .resume, .resume, .publish 1 6] ++
    List.replicate 5 .resume

theorem received_in_order_of_crossPublishing :
    ∃ s, Transition.run (System.step oneStream) (.init oneStream) crossPublishing = some s ∧
      s.log.drop 4 = [.publish 0 5, .publish 1 6] ∧ s.seen 0 = [4, 5] ∧
      [4, 5].Sublist (s.seen 1) := by
  have hrun : (Transition.run (System.step oneStream) (.init oneStream) crossPublishing).map
      (fun s => (s.log.drop 4, s.seen 0, s.seen 1)) =
      some ([.publish 0 5, .publish 1 6], [4, 5], [4, 5]) := rfl
  obtain ⟨s, hs, heq⟩ := Option.map_eq_some_iff.mp hrun
  simp only [Prod.mk.injEq] at heq
  obtain ⟨hlog, hseen₀, hseen₁⟩ := heq
  refine ⟨s, hs, hlog, hseen₀, (received_in_order ⟨_, hs⟩).2 0 1 4 5 ?_ ?_ ?_⟩
  · rw [hseen₀]
  · rw [hseen₁]
    decide
  · rw [hseen₁]
    decide

end Keryx
