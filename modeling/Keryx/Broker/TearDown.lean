import Keryx.Broker.Throwing

/-!
# Tear-down of the broker

`~OldBroker` destroys the members of `PImpl` in the reverse of their order: the queue with the
objects that wait in it, then the registry of the consumers, then the registry of the producers. The
destructor of a producer notifies its consumers, and by then the registered consumers are gone. So
the tear-down is safe exactly when no registered producer has a registered consumer in its list. As
long as no handler throws, that is when no registered producer matches a registered consumer; the
benchmark of `main.cpp`, whose wrappers enqueue their destroy actions too late for a `do_work`, is
not such a state. After an exception that has left `do_work` and was caught, the pairs that it has
abandoned are in no list, and do no harm.

The live consumers are those that have a cell in `consumerHeap`; notifying another one is the error
`Fault.danglingConsumer`.

## Main definitions

* `OldBroker.destroyProducerImpl`, `OldBroker.tearDown` — the destructors.
* `OldBroker.Unsubscribed` — no registered producer matches a registered consumer.
* `OldBroker.AllLost` — every registered pair that matches has been abandoned.

## Main results

* `tearDown_safe_iff` — when the tear-down notifies no destroyed consumer, if no handler throws.
* `tearDown_unsafe_of_publishBenchmark` — it does in the benchmark.
* `tearDown_safe_iff_of_throwing` — when it notifies none, if handlers may throw.

Source: `src/lib/broker/OldBroker.cpp`, lines 40–48 and 92; `ProducerImpl.cpp`, lines 46–50.
-/

namespace Keryx

variable {Ev H : Type}

namespace OldBroker

/-- The loop `c->notify(m)` of a destructor. It belongs to no action; no handler is reached in a
tear-down, so what a handler could do is left out. -/
def notifyAll (b : OldBroker Ev H) (p : ProducerPtr) (m : NotificationImpl Ev) :
    List ConsumerPtr → Except Fault Unit
  | [] => .ok ()
  | c :: cs => do
    discard (b.notify 0 p c m)
    notifyAll b p m cs

/-- `~ProducerImpl`, and the deallocation of the object. -/
def destroyProducerImpl (b : OldBroker Ev H) (p : ProducerPtr) : Except Fault (OldBroker Ev H) := do
  let me ← b.derefProducer p
  b.notifyAll p (me.notification .stopProducer []) me.consumers
  return { b with producerHeap := b.producerHeap.free p }

/-- The end of a `ConsumerImpl`. -/
def destroyConsumerImpl (b : OldBroker Ev H) (c : ConsumerPtr) : OldBroker Ev H :=
  { b with consumerHeap := b.consumerHeap.free c }

/-- The end of an action: the object it owns, if any, is destroyed. -/
def destroyAction (b : OldBroker Ev H) : Action Ev → Except Fault (OldBroker Ev H)
  | .initProducer p => b.destroyProducerImpl p
  | .initConsumer c => .ok (b.destroyConsumerImpl c)
  | .destroyProducer _ | .publish _ _ | .destroyConsumer _ => .ok b

/-- `~OldBroker`: `pending_actions`, then `consumers`, then `producers`. -/
def tearDown (b : OldBroker Ev H) : Except Fault (OldBroker Ev H) := do
  let b ← b.pendingActions.foldlM destroyAction b
  let b := b.consumers.foldl destroyConsumerImpl b
  b.producers.foldlM destroyProducerImpl b

/-- No registered producer matches a registered consumer. -/
def Unsubscribed (b : OldBroker Ev H) : Prop :=
  ∀ p ∈ b.producers, ∀ me, b.producerHeap.deref p = some me → ∀ c ∈ b.consumers, ¬ b.isMatch me c

/-- Every registered pair that matches is in `lost`. -/
def AllLost (b : OldBroker Ev H) (lost : List (ProducerPtr × ConsumerPtr)) : Prop :=
  ∀ p ∈ b.producers, ∀ me, b.producerHeap.deref p = some me → ∀ c ∈ b.consumers,
    b.isMatch me c → (p, c) ∈ lost

/-! ### One destructor -/

theorem destroyProducerImpl_eq {b : OldBroker Ev H} {p : ProducerPtr} {me : ProducerImpl H}
    (hp : b.producerHeap.deref p = some me) :
    b.destroyProducerImpl p =
      (b.notifyAll p (me.notification .stopProducer []) me.consumers).bind fun _ =>
        .ok { b with producerHeap := b.producerHeap.free p } := by
  rw [destroyProducerImpl, derefProducer, hp]
  rfl

theorem destroyProducerImpl_of_nil {b : OldBroker Ev H} {p : ProducerPtr} {me : ProducerImpl H}
    (hp : b.producerHeap.deref p = some me) (hme : me.consumers = []) :
    b.destroyProducerImpl p = .ok { b with producerHeap := b.producerHeap.free p } := by
  rw [destroyProducerImpl_eq hp, hme]
  rfl

/-- The first consumer of the list is gone already. -/
theorem destroyProducerImpl_of_cons {b : OldBroker Ev H} {p : ProducerPtr} {me : ProducerImpl H}
    {c : ConsumerPtr} {cs : List ConsumerPtr} (hp : b.producerHeap.deref p = some me)
    (hme : me.consumers = c :: cs) (hc : b.consumerHeap.deref c = none) :
    b.destroyProducerImpl p = .error .danglingConsumer := by
  rw [destroyProducerImpl_eq hp, hme, notifyAll, notify, derefConsumer, hc]
  rfl

/-! ### The three loops -/

/-- After the second loop, no registered consumer is left, and the producers are untouched. -/
theorem deref_foldl_destroyConsumerImpl {cs : List ConsumerPtr} {b : OldBroker Ev H}
    {c : ConsumerPtr} (hc : c ∈ cs ∨ b.consumerHeap.deref c = none) :
    (cs.foldl destroyConsumerImpl b).consumerHeap.deref c = none := by
  induction cs generalizing b with
  | nil => exact hc.resolve_left List.not_mem_nil
  | cons d cs ih =>
    refine ih ?_
    by_cases hcs : c ∈ cs
    · exact .inl hcs
    · refine .inr (Heap.deref_free_eq_none d ?_)
      exact hc.imp_left fun hc => (List.mem_cons.mp hc).resolve_right hcs

theorem producerHeap_foldl_destroyConsumerImpl (cs : List ConsumerPtr) (b : OldBroker Ev H) :
    (cs.foldl destroyConsumerImpl b).producerHeap = b.producerHeap ∧
      (cs.foldl destroyConsumerImpl b).producers = b.producers := by
  induction cs generalizing b with
  | nil => exact ⟨rfl, rfl⟩
  | cons c cs ih => exact ih (b.destroyConsumerImpl c)

/-- The third loop, when the consumers of the producers are gone: it succeeds exactly when no
producer has a consumer. -/
theorem foldlM_destroyProducerImpl {ps : List ProducerPtr} {b : OldBroker Ev H}
    {F : ProducerPtr → List ConsumerPtr} (hnodup : ps.Nodup)
    (hheap : b.producerHeap.Holds (· ∈ ps) fun p me => me.consumers = F p)
    (hgone : ∀ p ∈ ps, ∀ c ∈ F p, b.consumerHeap.deref c = none) :
    ((∀ p ∈ ps, F p = []) ∧ ∃ b', ps.foldlM destroyProducerImpl b = .ok b') ∨
      ((¬ ∀ p ∈ ps, F p = []) ∧
        ps.foldlM destroyProducerImpl b = .error .danglingConsumer) := by
  induction ps generalizing b with
  | nil => exact .inl ⟨by simp, b, rfl⟩
  | cons p ps ih =>
    obtain ⟨hp, hnodup⟩ := List.nodup_cons.mp hnodup
    obtain ⟨me, hderef, hme⟩ := hheap.object (List.mem_cons_self ..)
    cases hF : F p with
    | cons c cs =>
      have hc := hgone p List.mem_cons_self c (hF ▸ List.mem_cons_self)
      refine .inr ⟨fun hnil => ?_, ?_⟩
      · rw [hnil p List.mem_cons_self] at hF
        cases hF
      · rw [List.foldlM_cons, destroyProducerImpl_of_cons hderef (hme.trans hF) hc]
        rfl
    | nil =>
      have hfree : (b.producerHeap.free p).Holds (· ∈ ps) fun q me => me.consumers = F q :=
        (hheap.free (List.mem_cons_self ..)).mono
          (fun q hq => ⟨List.mem_cons_of_mem _ hq, fun heq => hp (heq ▸ hq)⟩) fun _ _ _ => id
      rw [List.foldlM_cons, destroyProducerImpl_of_nil hderef (hme.trans hF)]
      have hrest := ih (b := { b with producerHeap := b.producerHeap.free p }) hnodup hfree
        fun q hq => hgone q (List.mem_cons_of_mem _ hq)
      have hall : (∀ q ∈ p :: ps, F q = []) ↔ ∀ q ∈ ps, F q = [] := by simp [hF]
      rw [hall]
      exact hrest

/-- The first loop: the objects that wait in the queue have no consumers, so it succeeds, and it
leaves the registered objects alone. -/
theorem foldlM_destroyAction {as : List (Action Ev)} {b : OldBroker Ev H}
    {F : ProducerPtr → List ConsumerPtr}
    (hproducers : b.producerHeap.Holds (fun p => p ∈ b.producers ∨ .initProducer p ∈ as)
      fun p me => me.consumers = F p)
    (hnil : ∀ p, .initProducer p ∈ as → F p = [])
    (honce : ∀ l₁ p l₂, as = l₁ ++ .initProducer p :: l₂ →
      p ∉ b.producers ∧ .initProducer p ∉ l₂) :
    ∃ b', as.foldlM destroyAction b = .ok b' ∧ b'.producers = b.producers ∧
      b'.consumers = b.consumers ∧
      b'.producerHeap.Holds (· ∈ b.producers) fun p me => me.consumers = F p := by
  induction as generalizing b with
  | nil => exact ⟨b, rfl, rfl, rfl, hproducers.mono (fun _ => .inl) fun _ _ _ => id⟩
  | cons a as ih =>
    have htail (p : ProducerPtr) (hp : .initProducer p ∈ as) := List.mem_cons_of_mem a hp
    have honce' (l₁ : List (Action Ev)) (p : ProducerPtr) (l₂ : List (Action Ev))
        (hsplit : as = l₁ ++ .initProducer p :: l₂) :=
      honce (a :: l₁) p l₂ (by rw [hsplit, List.cons_append])
    have hsub : b.producerHeap.Holds (fun p => p ∈ b.producers ∨ .initProducer p ∈ as)
        fun p me => me.consumers = F p :=
      hproducers.mono (fun p hp => hp.imp_right (htail p)) fun _ _ _ => id
    have hnil' (p : ProducerPtr) (hp : .initProducer p ∈ as) := hnil p (htail p hp)
    cases a with
    | initProducer p =>
      obtain ⟨hp, hnot⟩ := honce [] p as rfl
      obtain ⟨me, hderef, hme⟩ := hproducers.object (.inr List.mem_cons_self)
      have hdestroy := destroyProducerImpl_of_nil hderef
        (hme.trans (hnil p List.mem_cons_self))
      have hfree : (b.producerHeap.free p).Holds
          (fun q => q ∈ b.producers ∨ .initProducer q ∈ as) fun q me => me.consumers = F q := by
        refine (hproducers.free (.inr List.mem_cons_self)).mono ?_ fun _ _ _ => id
        rintro q (hq | hq)
        · exact ⟨.inl hq, fun heq => hp (heq ▸ hq)⟩
        · exact ⟨.inr (htail q hq), fun heq => hnot (heq ▸ hq)⟩
      rw [List.foldlM_cons, destroyAction, hdestroy]
      exact ih (b := { b with producerHeap := b.producerHeap.free p }) hfree hnil' honce'
    | initConsumer c => exact ih (b := b.destroyConsumerImpl c) hsub hnil' honce'
    | destroyProducer p => exact ih hsub hnil' honce'
    | publish p ev => exact ih hsub hnil' honce'
    | destroyConsumer c => exact ih hsub hnil' honce'

/-- **The tear-down of a broker** whose registered producers have the lists `G`: nothing goes wrong
but that a destroyed consumer is notified, and that happens unless all lists are empty. -/
theorem tearDown_iff {b : OldBroker Ev H} {G : ProducerPtr → List ConsumerPtr}
    (hnodup : b.producers.Nodup)
    (hheap : b.producerHeap.Holds
      (fun p => p ∈ b.producers ∨ .initProducer p ∈ b.pendingActions)
      fun p me => me.consumers = if p ∈ b.producers then G p else [])
    (honce : ∀ l₁ p l₂, b.pendingActions = l₁ ++ .initProducer p :: l₂ →
      p ∉ b.producers ∧ .initProducer p ∉ l₂)
    (hregistered : ∀ p ∈ b.producers, G p ⊆ b.consumers) :
    (b.tearDown ≠ .error .danglingConsumer ↔ ∀ p ∈ b.producers, G p = []) ∧
      ((∃ b', b.tearDown = .ok b') ↔ ∀ p ∈ b.producers, G p = []) := by
  obtain ⟨b₁, hfirst, hproducers, hconsumers, hheap₁⟩ := foldlM_destroyAction hheap
    (fun p hp => by
      obtain ⟨l₁, l₂, hsplit⟩ := List.append_of_mem hp
      exact if_neg (honce l₁ p l₂ hsplit).1) honce
  obtain ⟨hheap₂, hproducers₂⟩ := producerHeap_foldl_destroyConsumerImpl b.consumers b₁
  have hlast := foldlM_destroyProducerImpl
    (b := b.consumers.foldl destroyConsumerImpl b₁) hnodup (hheap₂ ▸ hheap₁)
    fun p hp c hc => deref_foldl_destroyConsumerImpl <| .inl <| by
      rw [if_pos hp] at hc
      exact hregistered p hp hc
  have hcode : b.tearDown =
      b.producers.foldlM destroyProducerImpl (b.consumers.foldl destroyConsumerImpl b₁) := by
    rw [← hconsumers] at hproducers₂ ⊢
    rw [tearDown, hfirst, ← hproducers, ← hproducers₂]
    rfl
  have hall : (∀ p ∈ b.producers, (if p ∈ b.producers then G p else []) = []) ↔
      ∀ p ∈ b.producers, G p = [] := forall₂_congr fun p hp => by rw [if_pos hp]
  rw [hall, ← hcode] at hlast
  rcases hlast with ⟨hnil, b', hok⟩ | ⟨hnil, herror⟩
  · exact ⟨⟨fun _ => hnil, fun _ => by simp [hok]⟩, ⟨fun _ => hnil, fun _ => ⟨b', hok⟩⟩⟩
  · refine ⟨⟨fun hne => absurd herror hne, fun h => absurd h hnil⟩, ⟨?_, fun h => absurd h hnil⟩⟩
    rintro ⟨b', hok⟩
    rw [herror] at hok
    cases hok

section Matching

variable {b : OldBroker Ev H} {M : ProducerPtr → ConsumerPtr → Bool}

theorem allLost_iff {lost : List (ProducerPtr × ConsumerPtr)}
    (hmatch : ∀ p ∈ b.producers, ∃ me, b.producerHeap.deref p = some me ∧
      ∀ c ∈ b.consumers, b.isMatch me c = M p c) :
    b.AllLost lost ↔
      ∀ p ∈ b.producers, (b.consumers.filter (M p)).filter (notAbandoned lost p) = [] := by
  refine forall₂_congr fun p hp => ?_
  obtain ⟨me, hderef, heq⟩ := hmatch p hp
  have hlost (c : ConsumerPtr) (hc : c ∈ b.consumers) :
      (b.isMatch me c → (p, c) ∈ lost) ↔ ¬ (notAbandoned lost p c && M p c) := by
    rw [heq c hc, notAbandoned]
    by_cases hmem : (p, c) ∈ lost
    · simp [hmem]
    · simp [hmem]
  rw [List.filter_filter, List.filter_eq_nil_iff]
  constructor
  · exact fun h c hc => (hlost c hc).mp (h me hderef c hc)
  · intro hnil me' hderef' c hc
    obtain rfl : me = me' := Option.some.inj (hderef.symm.trans hderef')
    exact (hlost c hc).mpr (hnil c hc)

theorem unsubscribed_iff
    (hmatch : ∀ p ∈ b.producers, ∃ me, b.producerHeap.deref p = some me ∧
      ∀ c ∈ b.consumers, b.isMatch me c = M p c) :
    b.Unsubscribed ↔ ∀ p ∈ b.producers, b.consumers.filter (M p) = [] := by
  have hnone : b.Unsubscribed ↔ b.AllLost [] := by simp [Unsubscribed, AllLost]
  rw [hnone, allLost_iff hmatch]
  simp [notAbandoned]

end Matching

end OldBroker

variable {client : Client Ev H} {s : System Ev H} {done : List (Action Ev)}

namespace Inv

/-- The lists of the producers in a state with no `do_work` in progress. -/
theorem consumers_of_todo_nil (h : Inv client s done) (htodo : s.todo = []) :
    s.broker.producerHeap.Holds
      (fun p => p ∈ s.broker.producers ∨ .initProducer p ∈ s.broker.pendingActions)
      fun p me => me.consumers =
        if p ∈ s.broker.producers then s.broker.consumers.filter (client.isMatch p) else [] := by
  refine h.producerHeap.mono ?_ ?_
  · rintro p (hp | hp)
    · exact .inl (h.producers_eq ▸ hp)
    · exact .inr (.inl hp)
  · intro p me hp hme
    split_ifs with hregistered
    · have := hme.consumers_eq (h.producers_eq ▸ hregistered)
      rw [htodo] at this
      rw [h.consumers_eq, ← this]
      exact (List.append_nil _).symm
    · exact hme.consumers_nil (hp.resolve_left hregistered)

/-- An object that waits in the queue is not registered, and waits once. -/
theorem initProducer_once (h : Inv client s done) {l₁ l₂ : List (Action Ev)} {p : ProducerPtr}
    (hsplit : s.broker.pendingActions = l₁ ++ .initProducer p :: l₂) :
    p ∉ s.broker.producers ∧ .initProducer p ∉ l₂ := by
  have hadmits := h.admits_pending
  refine ⟨fun hp => ?_, ?_⟩
  · rw [h.producers_eq, Client.mem_producers h.admits_done] at hp
    refine Client.initProducer_notMem hadmits hp.1 ?_
    rw [hsplit]
    exact List.mem_append_right _ List.mem_cons_self
  · rw [hsplit, List.append_cons, ← List.append_assoc] at hadmits
    refine Client.initProducer_notMem hadmits ?_
    simp

theorem unsubscribed_iff (h : Inv client s done) (htodo : s.todo = []) :
    s.broker.Unsubscribed ↔
      ∀ p ∈ s.broker.producers, s.broker.consumers.filter (client.isMatch p) = [] := by
  refine OldBroker.unsubscribed_iff fun p hp => ?_
  obtain ⟨me, hderef, -, htopic, -⟩ := h.consumers_of_idle (.inl htodo) (h.producers_eq ▸ hp)
  exact ⟨me, hderef, fun c hc => h.isMatch_of_registered htopic (h.consumers_eq ▸ hc)⟩

end Inv

/-- **Tear-down.** No handler throws. In every reachable state with no `do_work` in progress, the
tear-down notifies a destroyed consumer unless no registered producer matches a registered consumer;
and then nothing else goes wrong either. -/
theorem tearDown_safe_iff [SnapshotHandler Ev H]
    (h : Transition.Reachable (System.step client) (.init client) s) (htodo : s.todo = []) :
    (s.broker.tearDown ≠ .error .danglingConsumer ↔ s.broker.Unsubscribed) ∧
      ((∃ b, s.broker.tearDown = .ok b) ↔ s.broker.Unsubscribed) := by
  obtain ⟨done, hinv⟩ := inv_of_reachable h
  have hnodup : s.broker.producers.Nodup := hinv.producers_eq ▸ hinv.wellFormed.sources.nodup
  rw [hinv.unsubscribed_iff htodo]
  exact OldBroker.tearDown_iff hnodup (hinv.consumers_of_todo_nil htodo)
    (fun l₁ p l₂ hsplit => hinv.initProducer_once hsplit) fun p _ => List.filter_subset_self _

/-- The consumer is destroyed and `do_work` is called again before the tear-down. -/
def destroyedConsumer : List (Label ℕ) :=
  [.makeProducer 0, .makeConsumer 0, .doWork, .resume, .resume, .resume, .resume,
    .destroyConsumer 0, .doWork, .resume, .resume]

theorem tearDown_safe_of_destroyedConsumer :
    ∃ s, Transition.run (System.step oneStream) (.init oneStream) destroyedConsumer = some s ∧
      s.broker.producers = [0] ∧ ∃ b, s.broker.tearDown = .ok b := by
  have hrun : (Transition.run (System.step oneStream) (.init oneStream) destroyedConsumer).map
      (fun s => (s.todo, s.broker.producers, s.broker.consumers)) = some ([], [0], []) := rfl
  obtain ⟨s, hs, heq⟩ := Option.map_eq_some_iff.mp hrun
  simp only [Prod.mk.injEq] at heq
  obtain ⟨htodo, hproducers, hconsumers⟩ := heq
  refine ⟨s, hs, hproducers, (tearDown_safe_iff ⟨_, hs⟩ htodo).2.mpr ?_⟩
  intro p _ me _ c hc
  rw [hconsumers] at hc
  cases hc

/-- The benchmark `publish` of `main.cpp`, with one pass of its loop: the wrappers go out of scope
after the last `do_work` and before the broker. -/
def publishBenchmark : List (Label ℕ) :=
  [.makeProducer 0, .makeConsumer 0, .publish 0 0, .doWork] ++ List.replicate 7 .resume ++
    [.destroyConsumer 0, .destroyProducer 0]

/-- The tear-down after the benchmark notifies a destroyed consumer. -/
theorem tearDown_unsafe_of_publishBenchmark :
    ∃ s, Transition.run (System.step oneStream) (.init oneStream) publishBenchmark = some s ∧
      s.todo = [] ∧ s.broker.pendingActions = [.destroyConsumer 0, .destroyProducer 0] ∧
      s.broker.tearDown = .error .danglingConsumer := by
  have hrun : (Transition.run (System.step oneStream) (.init oneStream) publishBenchmark).map
      (fun s => (s.todo, s.broker.pendingActions, s.broker.tearDown.map fun _ => ())) =
      some ([], [.destroyConsumer 0, .destroyProducer 0], .error .danglingConsumer) := rfl
  obtain ⟨s, hs, heq⟩ := Option.map_eq_some_iff.mp hrun
  simp only [Prod.mk.injEq] at heq
  obtain ⟨htodo, hpending, herror⟩ := heq
  refine ⟨s, hs, htodo, hpending, ?_⟩
  cases htearDown : s.broker.tearDown with
  | error f =>
    rw [htearDown] at herror
    exact congrArg _ (Except.error.inj herror)
  | ok b =>
    rw [htearDown] at herror
    cases herror

/-! ### Tear-down after exceptions -/

namespace Throwing.Follows

variable [SnapshotHandler Ev H] {t : Throwing Ev H} {u : System Ev H}

/-- The lists of the producers in a state with no `do_work` in progress. -/
theorem consumers_of_todo_nil (h : Follows client t u done) (htodo : t.system.todo = []) :
    t.system.broker.producerHeap.Holds
      (fun p => p ∈ t.system.broker.producers ∨
        .initProducer p ∈ t.system.broker.pendingActions)
      fun p me => me.consumers =
        if p ∈ t.system.broker.producers then
          (t.system.broker.consumers.filter (client.isMatch p)).filter
            (notAbandoned t.abandoned p)
        else [] := by
  obtain ⟨u', hinv, htracks, htodo'⟩ := h.tracks.advance_nil h.inv (h.todo_eq ▸ htodo)
  rw [htracks.broker.producers_eq, htracks.broker.consumers_eq, htracks.broker.pendingActions_eq]
  refine (htracks.broker.producerHeap.holds (hinv.consumers_of_todo_nil htodo')).mono
    (fun _ => id) ?_
  rintro p me - ⟨me', hthin, hme'⟩
  rw [hthin.consumers_eq, hme']
  split_ifs
  · rfl
  · rfl

theorem allLost_iff (h : Follows client t u done) (htodo : t.system.todo = []) :
    t.system.broker.AllLost t.abandoned ↔ ∀ p ∈ t.system.broker.producers,
      (t.system.broker.consumers.filter (client.isMatch p)).filter
        (notAbandoned t.abandoned p) = [] := by
  refine OldBroker.allLost_iff fun p hp => ?_
  obtain ⟨me, hderef, hmatch, -⟩ := h.registered (.inl htodo) hp
  exact ⟨me, hderef, hmatch⟩

end Throwing.Follows

/-- **Tear-down after exceptions.** Handlers may throw, and the exceptions are caught. In every
reachable state with no `do_work` in progress, the tear-down notifies a destroyed consumer unless
every registered pair that matches has been abandoned by an exception; and then nothing else goes
wrong either. -/
theorem tearDown_safe_iff_of_throwing [SnapshotHandler Ev H] {t : Throwing Ev H}
    (h : Transition.Reachable (Throwing.step client) (.init client) t)
    (htodo : t.system.todo = []) :
    (t.system.broker.tearDown ≠ .error .danglingConsumer ↔
        t.system.broker.AllLost t.abandoned) ∧
      ((∃ b, t.system.broker.tearDown = .ok b) ↔ t.system.broker.AllLost t.abandoned) := by
  obtain ⟨u, done, hfollows⟩ := Throwing.exists_follows h
  have hbroker := hfollows.tracks.broker
  have hnodup : t.system.broker.producers.Nodup := by
    rw [hbroker.producers_eq, hfollows.inv.producers_eq]
    exact hfollows.inv.wellFormed.sources.nodup
  rw [hfollows.allLost_iff htodo]
  refine OldBroker.tearDown_iff hnodup (hfollows.consumers_of_todo_nil htodo)
    (fun l₁ p l₂ hsplit => ?_) fun p _ => ?_
  · rw [hbroker.pendingActions_eq] at hsplit
    rw [hbroker.producers_eq]
    exact hfollows.inv.initProducer_once hsplit
  · exact List.Subset.trans (List.filter_subset_self _) (List.filter_subset_self _)

/-- The handler of the first consumer throws before the second one is told of the start, and the
first consumer is destroyed. -/
def throwAtFirstStart : List (Throwing.Label ℕ) :=
  firstStart ++ [.throw, .run (.destroyConsumer 0), .run .doWork, .run .resume, .run .resume]

/-- The second consumer matches, but the producer has never heard of it. -/
theorem tearDown_safe_of_throwAtFirstStart :
    ∃ t, Transition.run (Throwing.step oneStream) (.init oneStream) throwAtFirstStart = some t ∧
      t.abandoned = [(0, 1)] ∧ ¬ t.system.broker.Unsubscribed ∧
      ∃ b, t.system.broker.tearDown = .ok b := by
  have hrun : (Transition.run (Throwing.step oneStream) (.init oneStream) throwAtFirstStart).map
      (fun t => (t.system.todo, t.abandoned, t.system.broker.producers,
        t.system.broker.consumers)) = some ([], [(0, 1)], [0], [1]) := rfl
  obtain ⟨t, ht, heq⟩ := Option.map_eq_some_iff.mp hrun
  simp only [Prod.mk.injEq] at heq
  obtain ⟨htodo, habandoned, hproducers, hconsumers⟩ := heq
  refine ⟨t, ht, habandoned, ?_, (tearDown_safe_iff_of_throwing ⟨_, ht⟩ htodo).2.mpr ?_⟩
  · cases ht
    exact fun h => h 0 List.mem_cons_self _ rfl 1 List.mem_cons_self rfl
  · intro p hp me _ c hc _
    rw [hproducers, List.mem_singleton] at hp
    rw [hconsumers, List.mem_singleton] at hc
    rw [habandoned, hp, hc]
    exact List.mem_singleton_self _

end Keryx
