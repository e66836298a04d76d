import Keryx.Broker.Passes
import Keryx.Broker.Reentrancy
import Mathlib.Data.List.Perm.Subperm
import Mathlib.Order.MinMax

/-!
# `do_work` returns

The loop of `do_work` runs until it finds the queue empty, and handlers may put further actions into
the queue while it runs. Every action leaves one loop over registered producers or consumers. So the
number of passes that a run of the broker makes is bounded by the number of its calls and of the
objects it has made: `do_work` returns unless its handlers go on calling the broker for ever.

## Main definitions

* `System.made` — how many producers, or consumers, have been made.
* `System.remaining` — a bound for the passes that are left.
* `passes`, `allowance` — the passes of a run, and a bound for those that its labels give rise to.

## Main results

* `Inv.length_tasks_lt` — an action leaves one pass for each producer or consumer, and two more.
* `Inv.remaining_resume_lt` — a pass brings the end of `do_work` nearer.
* `doWork_returns` — `do_work` returns, with the queue empty.

Source: `src/lib/broker/OldBroker.cpp`, lines 50–80 and 128–134; `ProducerImpl.cpp`, lines 41–71.
-/

namespace Keryx

variable {Ev H : Type}

/-! ### The passes that are left -/

/-- The number of producers, or of consumers, made so far, whichever is larger. -/
def System.made (s : System Ev H) : ℕ := max s.broker.producerHeap.next s.broker.consumerHeap.next

/-- A bound for the passes that are left to `do_work`, when at most `N` producers and at most `N`
consumers have been made. An action in the queue stands for a loop of at most `N` passes, for what
follows the loop, and for the pass of the loop of `do_work` that takes the action out. -/
def System.remaining (N : ℕ) (s : System Ev H) : ℕ :=
  s.todo.length + s.broker.pendingActions.length * (N + 2)

/-- The label is a pass of a loop of `do_work`. -/
def Label.passes : Label Ev → ℕ
  | .resume => 1
  | .makeProducer _ | .publish _ _ | .destroyProducer _ | .makeConsumer _ | .destroyConsumer _
  | .doWork => 0

/-- A bound for the passes that a label gives rise to. -/
def Label.allowance (N : ℕ) : Label Ev → ℕ
  | .makeProducer _ | .publish _ _ | .destroyProducer _ | .makeConsumer _ | .destroyConsumer _ =>
    N + 2
  | .doWork => 1
  | .resume => 0

/-- The passes of a run. -/
def passes (ls : List (Label Ev)) : ℕ := (ls.map Label.passes).sum

/-- A bound for the passes that the labels of a run give rise to. -/
def allowance (N : ℕ) (ls : List (Label Ev)) : ℕ := (ls.map (Label.allowance N)).sum

namespace Inv

variable {client : Client Ev H} {s s' : System Ev H} {done : List (Action Ev)}

/-! ### How many tasks an action leaves -/

theorem length_consumers_le (h : Inv client s done) :
    (client.after done).sinks.members.length ≤ s.broker.consumerHeap.next := by
  rw [← List.length_range (n := s.broker.consumerHeap.next)]
  refine (List.subperm_of_subset h.wellFormed.sinks.nodup fun c hc => ?_).length_le
  exact List.mem_range.mpr (h.consumerHeap.lt_next (.inl hc))

theorem length_producers_le (h : Inv client s done) :
    (client.after done).sources.members.length ≤ s.broker.producerHeap.next := by
  rw [← List.length_range (n := s.broker.producerHeap.next)]
  refine (List.subperm_of_subset h.wellFormed.sources.nodup fun p hp => ?_).length_le
  exact List.mem_range.mpr (h.producerHeap.lt_next (.inl hp))

/-- A registered producer has at most the registered consumers. -/
theorem length_consumers_of_deref (h : Inv client s done)
    (htodo : s.todo = [] ∨ s.todo = [.doWork]) {p : ProducerPtr}
    (hp : p ∈ (client.after done).sources.members) {me : ProducerImpl H}
    (hderef : s.broker.producerHeap.deref p = some me) :
    me.consumers.length ≤ s.broker.consumerHeap.next := by
  obtain ⟨me', hderef', -, -, hconsumers⟩ := h.consumers_of_idle htodo hp
  obtain rfl : me = me' := Option.some.inj (hderef.symm.trans hderef')
  rw [hconsumers]
  exact Nat.le_trans (List.length_filter_le ..) h.length_consumers_le

variable [SnapshotHandler Ev H]

/-- **One action.** A pass that takes an action out of the queue leaves at most one pass for each
registered consumer or producer, one for what follows the loop, and one for the loop of `do_work`.
The other passes leave nothing. -/
theorem length_tasks_lt (h : Inv client s done) {task : Task Ev} {rest : List (Task Ev)}
    (htodo : s.todo = task :: rest) {taken : List (Action Ev)} {b : OldBroker Ev H}
    {tasks : List (Task Ev)} (hpass : Pass s.broker task taken b tasks) {N : ℕ}
    (hN : s.made ≤ N) : tasks.length + b.pendingActions.length * (N + 2) <
      1 + s.broker.pendingActions.length * (N + 2) := by
  have hproducers : s.broker.producers.length ≤ N := by
    rw [h.producers_eq]
    exact (h.length_producers_le.trans (le_max_left ..)).trans hN
  have hconsumers : s.broker.consumers.length ≤ N := by
    rw [h.consumers_eq]
    exact (h.length_consumers_le.trans (le_max_right ..)).trans hN
  have hlist {a : Action Ev} {as : List (Action Ev)} {p : ProducerPtr} {me : ProducerImpl H}
      (hdoWork : task = .doWork) (hpending : s.broker.pendingActions = a :: as)
      (hp : p ∈ (client.after done).sources.members)
      (hderef : s.broker.producerHeap.deref p = some me) : me.consumers.length ≤ N := by
    subst hdoWork
    obtain rfl := h.rest_of_doWork htodo
    have hle := h.length_consumers_of_deref (.inr htodo) hp hderef
    exact (hle.trans (le_max_right ..)).trans hN
  cases hpass with
  | leave hpending => simp [hpending]
  | initProducer hpending | initConsumer hpending | destroyConsumer hpending =>
    simp only [hpending, List.length_append, List.length_map, List.length_cons, List.length_nil,
      Nat.add_one_mul]
    omega
  | publish hpending hderef =>
    have hle := hlist rfl hpending (Client.ok_publish.mp (h.ok_front hpending)) hderef
    simp only [hpending, List.length_append, List.length_map, List.length_cons, List.length_nil,
      Nat.add_one_mul]
    omega
  | destroyProducer hpending hderef =>
    have hle := hlist rfl hpending (Client.ok_destroyProducer.mp (h.ok_front hpending)) hderef
    simp only [hpending, List.length_append, List.length_map, List.length_cons, List.length_nil,
      Nat.add_one_mul]
    omega
  | push | skip | notify | addNewEvent | deallocate => simp

/-! ### One pass -/

omit [SnapshotHandler Ev H] in
/-- Two invariants with the same log show the same number of objects. -/
theorem made_eq (h : Inv client s done) {done' : List (Action Ev)} (h' : Inv client s' done')
    (hlog : s'.log = s.log) : s'.made = s.made := by
  have hproducers := h.producers_made.symm.trans (hlog ▸ h'.producers_made)
  have hconsumers := h.consumers_made.symm.trans (hlog ▸ h'.consumers_made)
  have hp := congrArg List.length hproducers
  have hc := congrArg List.length hconsumers
  rw [List.length_range, List.length_range] at hp hc
  rw [System.made, System.made, hp, hc]

/-- **A pass brings the end of `do_work` nearer.** It makes no object. -/
theorem remaining_resume_lt (h : Inv client s done) {task : Task Ev} {rest : List (Task Ev)}
    (htodo : s.todo = task :: rest) {N : ℕ} (hN : s.made ≤ N) :
    (s.resume task rest).made = s.made ∧ (s.resume task rest).remaining N < s.remaining N := by
  obtain ⟨taken, tasks, hpass, htodo', hinv⟩ := h.pass htodo
  have hlt := h.length_tasks_lt htodo hpass hN
  refine ⟨h.made_eq hinv (s.log_resume task rest), ?_⟩
  rw [System.remaining, System.remaining, htodo', htodo, List.length_append, List.length_cons]
  omega

/-! ### Runs -/

/-- A step makes objects and never forgets one. -/
theorem made_le_of_step (h : Inv client s done) {l : Label Ev} (hstep : s.step client l = some s') :
    s.made ≤ s'.made := by
  cases System.effect_of_step hstep with
  | makeProducer => exact max_le_max (Nat.le_succ _) le_rfl
  | makeConsumer => exact max_le_max le_rfl (Nat.le_succ _)
  | destroyConsumer _ hc =>
    obtain ⟨me, hderef, -⟩ := h.consumerHeap.object (h.liveConsumer hc)
    rw [System.destroyConsumer, OldBroker.destroyConsumer_eq hderef]
    exact Nat.le_refl _
  | publish | destroyProducer | doWork => exact Nat.le_refl _
  | resume htodo =>
    obtain ⟨done', h'⟩ := h.resume htodo
    exact (h.made_eq h' (s.log_resume ..)).ge

/-- **One step.** A pass lowers the bound for the passes that are left, and a call raises it by the
passes of one action. -/
theorem passes_step (h : Inv client s done) {l : Label Ev} (hstep : s.step client l = some s')
    {N : ℕ} (hN : s'.made ≤ N) : l.passes + s'.remaining N ≤ s.remaining N + l.allowance N := by
  have hmade := h.made_le_of_step hstep
  cases System.effect_of_step hstep with
  | makeProducer | publish | destroyProducer | makeConsumer =>
    simp only [System.remaining, System.makeProducer, System.publish, System.destroyProducer,
      System.makeConsumer, OldBroker.makeProducer, OldBroker.publish, OldBroker.destroyProducer,
      OldBroker.makeConsumer, OldBroker.enqueue, List.length_append, List.length_singleton,
      Nat.add_one_mul, Label.passes, Label.allowance]
    omega
  | destroyConsumer _ hc =>
    obtain ⟨me, hderef, -⟩ := h.consumerHeap.object (h.liveConsumer hc)
    rw [System.destroyConsumer, OldBroker.destroyConsumer_eq hderef]
    simp only [System.remaining, OldBroker.enqueue, List.length_append, List.length_singleton,
      Nat.add_one_mul, Label.passes, Label.allowance]
    omega
  | doWork htodo =>
    simp only [System.remaining, htodo, List.length_nil, List.length_singleton, Label.passes,
      Label.allowance]
    omega
  | resume htodo =>
    have hlt := (h.remaining_resume_lt htodo (hmade.trans hN)).2
    simp only [Label.passes, Label.allowance]
    omega

end Inv

section

variable [SnapshotHandler Ev H] {client : Client Ev H} {s s' : System Ev H} {ls : List (Label Ev)}

/-- The passes of a run, with those that are left at its end, are at most those that were left at
its start and those that its calls give rise to. -/
theorem passes_le (h : ∃ done, Inv client s done)
    (hrun : Transition.run (System.step client) s ls = some s') :
    passes ls + s'.remaining s'.made ≤ s.remaining s'.made + allowance s'.made ls := by
  refine Transition.run_potential (System.step client) (I := fun s => ∃ done, Inv client s done)
    (Q := fun t => t.made ≤ s'.made) (f := System.remaining s'.made) ?_ ?_ ?_ h le_rfl hrun
  · rintro t l t' ⟨done, ht⟩ hstep
    exact ht.step hstep
  · rintro t l t' ⟨done, ht⟩ hstep hle
    exact (ht.made_le_of_step hstep).trans hle
  · rintro t l t' ⟨done, ht⟩ hle hstep
    exact ht.passes_step hstep hle

/-- What holds while `do_work` runs: its loop comes after every other one. -/
structure Running (client : Client Ev H) (s : System Ev H) : Prop where
  inv : ∃ done, Inv client s done
  loop : s.todo = [] ∨ Reentrant.Looping s.todo

omit [SnapshotHandler Ev H] in
theorem Running.init (client : Client Ev H) : Running client (.init client) :=
  ⟨⟨[], .init client⟩, .inl rfl⟩

theorem Running.step (h : Running client s) {l : Label Ev} (hstep : s.step client l = some s') :
    Running client s' := by
  obtain ⟨done, hinv⟩ := h.inv
  refine ⟨hinv.step hstep, ?_⟩
  by_cases hl : l ≠ .doWork ∧ l ≠ .resume
  · rw [(System.todo_of_step hl hstep).1]
    exact h.loop
  · cases System.effect_of_step hstep with
    | doWork => exact .inr rfl
    | resume htodo =>
      have hloop := h.loop.resolve_left (by simp [htodo])
      exact (Reentrant.Looping.resume (htodo ▸ hloop) htodo).imp_left And.left
    | _ => simp at hl

/-- `do_work` leaves its loop when it finds the queue empty. -/
theorem Running.pending_resume (h : Running client s) {task : Task Ev} {rest : List (Task Ev)}
    (htodo : s.todo = task :: rest) (hnil : (s.resume task rest).todo = []) :
    (s.resume task rest).broker.pendingActions = [] := by
  obtain ⟨done, hinv⟩ := h.inv
  have hloop := h.loop.resolve_left (by simp [htodo])
  obtain ⟨taken, tasks, hpass, htodo', -⟩ := hinv.pass htodo
  obtain ⟨htasks, rfl⟩ := List.append_eq_nil_iff.mp (htodo'.symm.trans hnil)
  -- nothing is left to be done, so the pass was the last one of the loop of `do_work`
  rw [htodo] at hloop
  obtain rfl : task = .doWork := Option.some.inj hloop
  generalize (s.resume .doWork []).broker = b at hpass
  cases hpass with
  | leave hpending => exact hpending
  | _ => simp at htasks

/-- When the client calls the broker no more, `do_work` returns with the queue empty. -/
theorem Running.exists_drained (h : Running client s) :
    ∃ k s', k ≤ s.remaining s.made ∧
      Transition.run (System.step client) s (List.replicate k .resume) = some s' ∧
      s'.todo = [] ∧ (s.todo ≠ [] → s'.broker.pendingActions = []) := by
  let I : System Ev H → Prop := fun t => Running client t ∧ t.made ≤ s.made ∧
    (s.todo ≠ [] → t.todo = [] → t.broker.pendingActions = [])
  have hdescent : ∀ t, I t → ¬ t.todo = [] → ∃ t', t.step client .resume = some t' ∧ I t' ∧
      t'.remaining s.made < t.remaining s.made := by
    rintro t ⟨ht, hmade, -⟩ hne
    obtain ⟨task, rest, htodo⟩ := List.exists_cons_of_ne_nil hne
    obtain ⟨done, hinv⟩ := ht.inv
    obtain ⟨hmade', hlt⟩ := hinv.remaining_resume_lt htodo hmade
    have hstep : t.step client .resume = some (t.resume task rest) := by
      rw [System.step, hinv.noFault, htodo]
    exact ⟨_, hstep, ⟨ht.step hstep, hmade'.trans_le hmade, fun _ => ht.pending_resume htodo⟩, hlt⟩
  obtain ⟨k, s', hk, hrun, ⟨-, -, hempty⟩, hnil⟩ := Transition.exists_run_replicate
    (System.step client) hdescent (s := s) ⟨h, le_rfl, fun hne hnil => absurd hnil hne⟩
  exact ⟨k, s', hk, hrun, hnil, fun hne => hempty hne hnil⟩

/-- **`do_work` returns.** A run makes at most the passes that were left at its start and those that
its calls give rise to, one loop for each call, whatever the handlers do in between. When the
handlers call the broker no more, `do_work` is never blocked: it returns after the passes that are
left, and the queue is empty. -/
theorem doWork_returns (hs : Transition.Reachable (System.step client) (.init client) s)
    (hrun : Transition.run (System.step client) s ls = some s') :
    passes ls + s'.remaining s'.made ≤ s.remaining s'.made + allowance s'.made ls ∧
    ∃ k s'', k ≤ s'.remaining s'.made ∧
      Transition.run (System.step client) s' (List.replicate k .resume) = some s'' ∧
      s''.todo = [] ∧ (s'.todo ≠ [] → s''.broker.pendingActions = []) := by
  have h : Running client s :=
    hs.invariant (fun _ _ _ h hstep => h.step hstep) (.init client)
  refine ⟨passes_le h.inv hrun, Running.exists_drained ?_⟩
  exact Transition.run_induction _ (fun _ _ _ h hstep => Running.step h hstep) h hrun

end

/-- A producer and a consumer are made, an event is published, and `do_work` has carried out the
first action. -/
def startedWork : List (Label ℕ) :=
  [.makeProducer 0, .makeConsumer 0, .publish 0 0, .doWork, .resume]

theorem doWork_returns_startedWork :
    ∃ s s', Transition.run (System.step oneStream) (.init oneStream) startedWork = some s ∧
      s.broker.pendingActions = [.initConsumer 0, .publish 0 0] ∧
      Transition.Reachable (System.step oneStream) s s' ∧ s'.broker.pendingActions = [] := by
  have hrun : (Transition.run (System.step oneStream) (.init oneStream) startedWork).map
      (fun s => (s.todo.length, s.broker.pendingActions)) =
      some (1, [.initConsumer 0, .publish 0 0]) := rfl
  obtain ⟨s, hs, heq⟩ := Option.map_eq_some_iff.mp hrun
  simp only [Prod.mk.injEq] at heq
  obtain ⟨-, k, s', -, hdrained, -, hempty⟩ := doWork_returns (.refl (System.init oneStream)) hs
  refine ⟨s, s', hs, heq.2, ⟨_, hdrained⟩, hempty ?_⟩
  rw [← List.length_pos_iff, heq.1]
  decide

end Keryx
