import Mathlib.Data.List.Perm.Basic
import Keryx.Broker.Passes
import Keryx.Broker.Throwing

/-!
# What exceptions lose

An exception of a handler leaves `do_work`, and the notifications that the running loop still had to
make are not made later. This is the only way in which a notification is lost: either its producer
and its consumer were never brought together, since an exception left the loop of `maybe_add` before
their pass, or an exception left the loop of `notify` that it belonged to. What is not lost is made
once and in the order of the actions, whatever exceptions there are.

## Main definitions

* `Throwing.cutOff` — the passes of `notify` that the exceptions of a run have cut off.
* `Throwing.Accounted` — the account of the notifications of the actions carried out.

## Main results

* `Throwing.Accounted.step` — every step keeps the account.
* `dispatches_of_throwing` — what the exceptions of a run lose, and what they do not.

Source: `src/lib/broker/ProducerImpl.cpp`, lines 41–71; `OldBroker.cpp`, lines 50–80 and 128–134.
-/

namespace Keryx

variable {Ev H : Type}

/-! ### Two kinds of passes -/

/-- The producer and the consumer of a delivery. -/
def Delivery.pair (d : Delivery Ev) : ProducerPtr × ConsumerPtr := (d.producer, d.consumer)

namespace Task

/-- The delivery of a pass of a loop of `notify`. -/
def notified : Task Ev → List (Delivery Ev)
  | .notify i p c m => [⟨i, p, c, m⟩]
  | .doWork | .maybeAdd _ _ _ | .addNewEvent _ _ | .deallocate _ => []

/-- The delivery of a pass of a loop of `maybe_add`. -/
def started (client : Client Ev H) : Task Ev → List (Delivery Ev)
  | .maybeAdd i p c =>
    if client.isMatch p c then [⟨i, p, c, client.notification p .started⟩] else []
  | .doWork | .notify _ _ _ _ | .addNewEvent _ _ | .deallocate _ => []

theorem deliveries_eq (client : Client Ev H) (task : Task Ev) :
    task.deliveries client = task.started client ++ task.notified := by
  cases task with
  | maybeAdd i p c => exact (List.append_nil _).symm
  | _ => rfl

/-- A pass of `maybe_add` delivers to its own pair. -/
theorem pair_of_mem_started {client : Client Ev H} {task : Task Ev} {d : Delivery Ev}
    (hd : d ∈ task.started client) : task.pair = some d.pair := by
  cases task with
  | maybeAdd i p c =>
    rw [started] at hd
    split at hd
    · rw [List.mem_singleton] at hd
      rw [hd]
      rfl
    · cases hd
  | _ => cases hd

end Task

/-- The deliveries of a list of passes, one kind after the other. -/
theorem deliveries_perm (client : Client Ev H) (todo : List (Task Ev)) :
    (todo.flatMap (Task.deliveries client)).Perm
      (todo.flatMap (Task.started client) ++ todo.flatMap Task.notified) := by
  have hflat : todo.flatMap (Task.deliveries client) =
      todo.flatMap fun task => task.started client ++ task.notified :=
    List.flatMap_congr fun task _ => task.deliveries_eq client
  rw [hflat]
  exact (List.flatMap_append_perm ..).symm

/-! ### The deliveries of one pair -/

/-- The number of deliveries from the producer `p` to the consumer `c`. -/
def countBetween (p : ProducerPtr) (c : ConsumerPtr) (ds : List (Delivery Ev)) : ℕ :=
  (deliveriesBetween p c ds).length

section countBetween

variable {p : ProducerPtr} {c : ConsumerPtr} {ds ds' : List (Delivery Ev)}

theorem countBetween_append :
    countBetween p c (ds ++ ds') = countBetween p c ds + countBetween p c ds' := by
  rw [countBetween, deliveriesBetween, List.filterMap_append, List.length_append]
  rfl

theorem countBetween_perm (h : ds.Perm ds') : countBetween p c ds = countBetween p c ds' :=
  (h.filterMap _).length_eq

theorem countBetween_le (h : ds.Sublist ds') : countBetween p c ds ≤ countBetween p c ds' :=
  (h.filterMap _).length_le

theorem countBetween_pos {d : Delivery Ev} (hd : d ∈ ds) :
    0 < countBetween d.producer d.consumer ds :=
  List.length_pos_of_mem (List.mem_filterMap.mpr ⟨d, hd, if_pos ⟨rfl, rfl⟩⟩)

/-- Deliveries that are not to a pair of `lost` stay when these are taken out. -/
theorem filter_pair_eq_self {lost : List (ProducerPtr × ConsumerPtr)}
    (h : ∀ p c, (p, c) ∈ lost → countBetween p c ds = 0) : ds.filter (·.pair ∉ lost) = ds := by
  refine List.filter_eq_self.mpr fun d hd => decide_eq_true fun hmem => ?_
  exact Nat.lt_irrefl _ (h _ _ hmem ▸ countBetween_pos hd)

end countBetween

/-- The action that brings a producer and a consumer together is told to the consumer at most
once. -/
theorem Client.countBetween_le {client : Client Ev H} {done : List (Action Ev)}
    (hadmits : client.Admits done) {p : ProducerPtr} {c : ConsumerPtr}
    (hlast : done.getLast? = some (.initProducer p) ∨ done.getLast? = some (.initConsumer c)) :
    countBetween p c ((client.outputs done).map client.delivery) ≤
      if client.isMatch p c then 1 else 0 := by
  obtain ⟨L, a, rfl, ha⟩ : ∃ L a, done = L ++ [a] ∧
      (a.act = .addSource p ∨ a.act = (.addSink c : PubSub.Act ProducerPtr ConsumerPtr Ev)) := by
    rcases hlast with hlast | hlast <;>
      obtain ⟨L, rfl⟩ := List.getLast?_eq_some_iff.mp hlast
    · exact ⟨L, _, rfl, .inl rfl⟩
    · exact ⟨L, _, rfl, .inr rfl⟩
  rw [countBetween, deliveriesBetween_map, List.length_map]
  rw [Client.Admits, List.map_append, List.map_singleton] at hadmits
  rw [Client.outputs, List.map_append, List.map_singleton]
  exact PubSub.length_between_le hadmits ha

/-! ### The account -/

theorem System.Tracks.carriedOut_eq {keep : ProducerPtr → ConsumerPtr → Bool}
    {dead : List ProducerPtr} {s u : System Ev H} (h : Tracks keep dead s u) :
    s.carriedOut = u.carriedOut := by
  rw [carriedOut, carriedOut, h.log_eq, h.frontIndex_eq]

namespace Throwing

/-- The calls of `notify` that have been made, and those that the running loops still have to
make. -/
def deliveries (client : Client Ev H) (t : Throwing Ev H) : List (Delivery Ev) :=
  t.system.dispatches.map Dispatch.delivery ++ t.system.todo.flatMap (Task.deliveries client)

/-- The passes of `notify` that a step cuts off. -/
def cut (t : Throwing Ev H) : Label Ev → List (Delivery Ev)
  | .run _ => []
  | .throw => t.system.todo.flatMap Task.notified

/-- The passes of `notify` that the exceptions of a run have cut off. -/
def cutOff [SnapshotHandler Ev H] (client : Client Ev H) (ls : List (Label Ev)) :
    List (Delivery Ev) :=
  Transition.observe (step client) cut (.init client) ls

/-- The account of the notifications that are due: they are made in order, and those that are not
made belong to an abandoned pair or have been cut off. -/
structure Accounted (client : Client Ev H) (t : Throwing Ev H) (cut : List (Delivery Ev)) :
    Prop where
  sublist : (t.deliveries client).Sublist (t.system.due client)
  perm : ((t.system.due client).filter (·.pair ∉ t.abandoned)).Perm (t.deliveries client ++ cut)

variable {client : Client Ev H} {t t' : Throwing Ev H} {u : System Ev H} {done : List (Action Ev)}
  {cut : List (Delivery Ev)}

theorem Accounted.init (client : Client Ev H) : Accounted client (.init client) [] :=
  ⟨.slnil, .nil⟩

theorem Follows.carriedOut_eq (h : Follows client t u done) : t.system.carriedOut = done :=
  h.tracks.carriedOut_eq.trans h.inv.carriedOut_eq

theorem Follows.due_eq (h : Follows client t u done) :
    t.system.due client = (client.outputs done).map client.delivery := by
  rw [System.due, h.carriedOut_eq]

/-- A step that carries out no action and loses no pass. -/
theorem Accounted.of_eq (h : Accounted client t cut)
    (hdue : t'.system.due client = t.system.due client)
    (hdeliveries : t'.deliveries client = t.deliveries client)
    (habandoned : t'.abandoned = t.abandoned) : Accounted client t' cut := by
  refine ⟨?_, ?_⟩
  · rw [hdue, hdeliveries]
    exact h.sublist
  · rw [hdue, hdeliveries, habandoned]
    exact h.perm

/-- The passes that are left are those of the consumers in the list of the producer. -/
theorem filter_deliveries (client : Client Ev H) {abandoned : List (ProducerPtr × ConsumerPtr)}
    {todo : List (Task Ev)}
    (h : ∀ i p c, .maybeAdd i p c ∈ todo → (p, c) ∉ abandoned) :
    (todo.filter (Task.kept (notAbandoned abandoned))).flatMap (Task.deliveries client) =
      (todo.flatMap (Task.deliveries client)).filter (·.pair ∉ abandoned) := by
  induction todo with
  | nil => rfl
  | cons task todo ih =>
    rw [List.flatMap_cons, List.filter_append,
      ← ih fun i p c hmem => h i p c (List.mem_cons_of_mem _ hmem)]
    cases task with
    | maybeAdd i p c =>
      have hp := h i p c List.mem_cons_self
      rw [List.filter_cons_of_pos rfl, List.flatMap_cons]
      refine congrArg (· ++ _) ?_
      rw [Task.deliveries]
      split_ifs
      · simp [Delivery.pair, hp]
      · rfl
    | notify i p c m =>
      by_cases hp : (p, c) ∈ abandoned
      · rw [List.filter_cons_of_neg (by simpa [Task.kept, notAbandoned] using hp)]
        simp [Task.deliveries, Delivery.pair, hp]
      · rw [List.filter_cons_of_pos (by simpa [Task.kept, notAbandoned] using hp)]
        simp [Task.deliveries, Delivery.pair, hp]
    | _ => rfl

variable [SnapshotHandler Ev H]

/-- The run without exceptions comes to the next pass. -/
theorem Follows.exists_head (h : Follows client t u done) {task : Task Ev} {rest : List (Task Ev)}
    (htodo : t.system.todo = task :: rest) :
    ∃ u' rest', Follows client t u' done ∧ u'.todo = task :: rest' ∧
      ∀ i p c, task = .maybeAdd i p c → notAbandoned t.abandoned p c := by
  obtain ⟨u', rest', hinv, htracks, htodo', hsub, hrest⟩ :=
    h.tracks.advance_cons h.inv (h.todo_eq ▸ htodo)
  have hnew (i p c) (hmem : Task.maybeAdd i p c ∈ u'.todo) := h.maybeAdd_new i p c (hsub hmem)
  have hkept : task.kept (notAbandoned t.abandoned) := by
    have hmem : task ∈ u.todo.filter (Task.kept (notAbandoned t.abandoned)) := by
      rw [← h.todo_eq, htodo]
      exact List.mem_cons_self
    exact (List.mem_filter.mp hmem).2
  refine ⟨u', rest', ⟨hinv, htracks, ?_, h.abandoned_made, hnew⟩, htodo', ?_⟩
  · rw [htodo, htodo', List.filter_cons_of_pos hkept, hrest]
  · rintro i p c rfl
    exact decide_eq_true (hnew i p c (htodo' ▸ List.mem_cons_self)).1

/-- The calls of the client carry out nothing. -/
theorem Accounted.call (h : Accounted client t cut) (hfollows : Follows client t u done)
    {l : Keryx.Label Ev} (hl : l ≠ .doWork ∧ l ≠ .resume) {s' : System Ev H}
    (hstep : t.system.step client l = some s') : Accounted client { t with system := s' } cut := by
  obtain ⟨u', hfollows'⟩ := hfollows.call hl hstep
  refine h.of_eq (hfollows'.due_eq.trans hfollows.due_eq.symm) ?_ rfl
  have hinv : Inv client { u with inHandler := true } done := { hfollows.inv with }
  have htracks : t.system.Tracks (notAbandoned t.abandoned) [] { u with inHandler := true } :=
    { hfollows.tracks with }
  have hcan : System.canCall { u with inHandler := true } := by
    simp [System.canCall, hfollows.inv.noFault]
  obtain ⟨_, _, _, hcalled⟩ := htracks.call hinv hl hcan hstep
  rw [deliveries, deliveries, System.dispatches, hcalled.history_eq, History.dispatches_enqueued,
    hcalled.todo_eq]
  rfl

/-- A pass of a loop of `notify` or `maybe_add`, and what comes after the loop. -/
theorem Accounted.pass (h : Accounted client t cut) (hfollows : Follows client t u done)
    {task : Task Ev} {rest : List (Task Ev)} (htodo : t.system.todo = task :: rest)
    (htask : task ≠ .doWork) :
    Accounted client { t with system := t.system.resume task rest } cut := by
  obtain ⟨u', rest', hfollows', htodo', hnew⟩ := hfollows.exists_head htodo
  obtain ⟨tasks, observations, htracks, hleft, hleft', hhistory, hhistory', -, htasks⟩ :=
    hfollows'.tracks.resume hfollows'.inv htodo' hnew rest
  obtain rfl := htasks htask
  have hinv := hfollows'.inv.resume_pass htodo' htask
  -- the pass delivers what it had to deliver
  have hobserved : (History.dispatches observations).map Dispatch.delivery =
      task.deliveries client := by
    have hafter := hinv.deliveries
    have hbefore := hfollows'.inv.deliveries
    rw [System.dispatches, hhistory', History.dispatches_append, List.map_append, hleft'] at hafter
    rw [← hafter, htodo', List.flatMap_cons, ← List.append_assoc] at hbefore
    exact (List.append_cancel_left (List.append_cancel_right hbefore)).symm
  refine h.of_eq ?_ ?_ rfl
  · rw [hfollows.due_eq, System.due, htracks.carriedOut_eq, hinv.carriedOut_eq]
  · rw [deliveries, deliveries, System.dispatches, hhistory, History.dispatches_append,
      List.map_append, hobserved, hleft, htodo, List.flatMap_cons, List.append_assoc]
    rfl

/-- The loop of `do_work` takes an action out of the queue, or ends. -/
theorem Accounted.doWork (h : Accounted client t cut) (hfollows : Follows client t u done)
    (htodo : t.system.todo = [.doWork]) :
    Accounted client { t with system := t.system.resume .doWork [] } cut := by
  obtain ⟨u', rest', hfollows', htodo', hnew⟩ := hfollows.exists_head htodo
  obtain rfl := hfollows'.inv.rest_of_doWork htodo'
  have hpending := hfollows'.tracks.broker.pendingActions_eq
  cases hcase : u'.broker.pendingActions with
  | nil =>
    rw [t.system.resume_eq_of_none .doWork (OldBroker.doWork_of_nil (hpending.trans hcase))]
    refine h.of_eq rfl ?_ rfl
    rw [deliveries, deliveries, htodo]
    rfl
  | cons a as =>
    obtain ⟨tasks, observations, htracks, hleft, hleft', hhistory, hhistory', -, -⟩ :=
      hfollows'.tracks.resume hfollows'.inv htodo' hnew []
    obtain ⟨b, tasks', -, hresume, hinv⟩ := hfollows'.inv.doWork_cons htodo' hcase
    rw [List.append_nil] at hleft hleft'
    obtain rfl : observations = [] := by simpa [hresume] using hhistory'
    rw [List.append_nil] at hhistory hhistory'
    -- what the passes of the action deliver is due now
    have hdue : (t.system.resume .doWork []).due client =
        t.system.due client ++ tasks.flatMap (Task.deliveries client) := by
      have hafter := hinv.deliveries
      have hbefore := hfollows'.inv.deliveries
      rw [htodo', List.flatMap_cons, List.flatMap_nil, Task.deliveries, List.append_nil,
        List.append_nil] at hbefore
      rw [System.dispatches, hhistory', ← System.dispatches, hbefore, hleft'] at hafter
      rw [hfollows.due_eq, System.due, htracks.carriedOut_eq, hinv.carriedOut_eq, hafter]
    have hdeliveries : deliveries client { t with system := t.system.resume .doWork [] } =
        t.deliveries client ++
          (tasks.filter (Task.kept (notAbandoned t.abandoned))).flatMap
            (Task.deliveries client) := by
      rw [deliveries, deliveries, System.dispatches, hhistory, hleft, htodo, List.flatMap_cons]
      simp [Task.deliveries, System.dispatches]
    have hmaybeAdd (i p c) (hmem : Task.maybeAdd i p c ∈ tasks) : (p, c) ∉ t.abandoned := by
      obtain ⟨u'', done'', hfollows''⟩ := hfollows'.doWork htodo'
      have hleft'' := hleft.symm.trans hfollows''.todo_eq
      have hmem'' : .maybeAdd i p c ∈ u''.todo.filter (Task.kept (notAbandoned t.abandoned)) :=
        hleft'' ▸ List.mem_filter.mpr ⟨hmem, rfl⟩
      exact (hfollows''.maybeAdd_new i p c (List.mem_of_mem_filter hmem'')).1
    have hkept := filter_deliveries client hmaybeAdd
    refine ⟨?_, ?_⟩
    · rw [hdue, hdeliveries, hkept]
      exact h.sublist.append List.filter_sublist
    · rw [hdue, hdeliveries, hkept, List.filter_append]
      refine (h.perm.append_right _).trans ?_
      rw [List.append_assoc, List.append_assoc]
      exact List.perm_append_comm.append_left _

omit [SnapshotHandler Ev H] in
/-- A pair that an exception abandons has no other notification than the one that its pass of
`maybe_add` would have made. -/
theorem Accounted.countBetween_eq_zero (h : Accounted client t cut)
    (hfollows : Follows client t u done) {p : ProducerPtr} {c : ConsumerPtr}
    (hlost : (p, c) ∈ t.system.todo.filterMap Task.pair) :
    countBetween p c (t.system.dispatches.map Dispatch.delivery) = 0 ∧
      countBetween p c (t.system.todo.flatMap Task.notified) = 0 ∧ countBetween p c cut = 0 := by
  obtain ⟨task, htask, hpair⟩ := List.mem_filterMap.mp hlost
  cases task with
  | maybeAdd i q d =>
    cases hpair
    have hmem : .maybeAdd i p c ∈ u.todo := List.mem_of_mem_filter (hfollows.todo_eq ▸ htask)
    have hlast := (hfollows.maybeAdd_new i p c hmem).2
    have hle := Client.countBetween_le hfollows.inv.admits_done hlast
    rw [← hfollows.due_eq] at hle
    have hstarted : (if client.isMatch p c then 1 else 0) ≤
        countBetween p c (t.system.todo.flatMap (Task.started client)) := by
      split_ifs with hmatch
      · have hd : ⟨i, p, c, client.notification p .started⟩ ∈
            t.system.todo.flatMap (Task.started client) :=
          List.mem_flatMap.mpr ⟨_, htask, by simp [Task.started, hmatch]⟩
        exact countBetween_pos hd
      · exact Nat.zero_le _
    have hcount := countBetween_perm (p := p) (c := c) h.perm
    have htodo := countBetween_perm (p := p) (c := c) (deliveries_perm client t.system.todo)
    have hfilter := Keryx.countBetween_le (p := p) (c := c)
      (List.filter_sublist (p := fun d => decide (d.pair ∉ t.abandoned)) (l := t.system.due client))
    rw [deliveries, countBetween_append, countBetween_append] at hcount
    rw [countBetween_append] at htodo
    omega
  | _ => cases hpair

omit [SnapshotHandler Ev H] in
/-- **An exception leaves `do_work`.** -/
theorem Accounted.throw (h : Accounted client t cut) (hfollows : Follows client t u done) :
    Accounted client t.throw (cut ++ t.system.todo.flatMap Task.notified) := by
  have hdeliveries : t.throw.deliveries client = t.system.dispatches.map Dispatch.delivery :=
    List.append_nil _
  refine ⟨?_, ?_⟩
  · rw [hdeliveries]
    exact (List.sublist_append_left _ _).trans h.sublist
  · set lost := t.system.todo.filterMap Task.pair
    have hzero (p c) (hlost : (p, c) ∈ lost) := h.countBetween_eq_zero hfollows hlost
    have hstarted : (t.system.todo.flatMap (Task.started client)).filter (·.pair ∉ lost) = [] := by
      refine List.filter_eq_nil_iff.mpr fun d hd => ?_
      obtain ⟨task, htask, hd⟩ := List.mem_flatMap.mp hd
      have hmem : d.pair ∈ lost :=
        List.mem_filterMap.mpr ⟨task, htask, Task.pair_of_mem_started hd⟩
      simpa using hmem
    have hsplit : (t.throw.system.due client).filter (·.pair ∉ t.throw.abandoned) =
        ((t.system.due client).filter (·.pair ∉ t.abandoned)).filter (·.pair ∉ lost) := by
      rw [List.filter_filter]
      refine List.filter_congr fun d _ => ?_
      rw [show t.throw.abandoned = t.abandoned ++ lost from rfl]
      simp only [List.mem_append, not_or, Bool.decide_and, Bool.and_comm]
    -- the passes of `maybe_add` that are left belong to the lost pairs, and nothing else does
    have hleft : (t.deliveries client ++ cut).Perm
        (t.system.dispatches.map Dispatch.delivery ++
          (t.system.todo.flatMap (Task.started client) ++ t.system.todo.flatMap Task.notified) ++
          cut) :=
      ((deliveries_perm client t.system.todo).append_left _).append_right _
    rw [hdeliveries, hsplit]
    refine ((h.perm.trans hleft).filter _).trans ?_
    rw [List.filter_append, List.filter_append, List.filter_append, hstarted,
      filter_pair_eq_self fun p c hlost => (hzero p c hlost).1,
      filter_pair_eq_self fun p c hlost => (hzero p c hlost).2.1,
      filter_pair_eq_self fun p c hlost => (hzero p c hlost).2.2, List.nil_append,
      List.append_assoc]
    exact List.perm_append_comm.append_left _

/-- Every step keeps the account. -/
theorem Accounted.step (h : Accounted client t cut) (hfollows : Follows client t u done)
    {l : Label Ev} (hstep : t.step client l = some t') : Accounted client t' (cut ++ t.cut l) := by
  cases l with
  | run l =>
    obtain ⟨s', hs', rfl⟩ := Option.map_eq_some_iff.mp hstep
    rw [Throwing.cut, List.append_nil]
    by_cases hl : l ≠ .doWork ∧ l ≠ .resume
    · exact h.call hfollows hl hs'
    · cases System.effect_of_step hs' with
      | doWork htodo =>
        refine h.of_eq rfl ?_ rfl
        rw [deliveries, deliveries, htodo]
        rfl
      | @resume task rest htodo =>
        by_cases htask : task = .doWork
        · subst htask
          obtain ⟨u', rest', hfollows', htodo', -⟩ := hfollows.exists_head htodo
          obtain rfl := hfollows'.inv.rest_of_doWork htodo'
          obtain rfl : rest = [] := by
            have hrest := hfollows'.todo_eq
            rw [htodo, htodo'] at hrest
            exact (List.cons.inj hrest).2
          exact h.doWork hfollows htodo
        · exact h.pass hfollows htodo htask
      | _ => simp at hl
  | throw =>
    obtain rfl : t.throw = t' := Option.some.inj (Option.ite_none_right_eq_some.mp hstep).2
    exact h.throw hfollows

end Throwing

/-- **What exceptions lose.** In every state of every run with exceptions, the notifications that
have been made and those that the running loops still have to make are a subsequence of those that
the actions carried out give rise to in a run without exceptions: nothing is made up, reordered or
made twice. And these are exactly the ones that are due to the pairs that no exception has
abandoned, less those that an exception has cut off while their own action was being carried out. -/
theorem dispatches_of_throwing [SnapshotHandler Ev H] {client : Client Ev H} {t : Throwing Ev H}
    {ls : List (Throwing.Label Ev)}
    (hrun : Transition.run (Throwing.step client) (.init client) ls = some t) :
    (t.deliveries client).Sublist (t.system.due client) ∧
      ((t.system.due client).filter (·.pair ∉ t.abandoned)).Perm
        (t.deliveries client ++ Throwing.cutOff client ls) := by
  have h := Transition.run_observe (Throwing.step client) (f := Throwing.cut)
    (P := fun t cut => (∃ u done, Throwing.Follows client t u done) ∧
      Throwing.Accounted client t cut)
    (fun t l t' cut hP hstep => by
      obtain ⟨⟨u, done, hfollows⟩, hcut⟩ := hP
      exact ⟨hfollows.step hstep, hcut.step hfollows hstep⟩)
    ⟨⟨_, _, .init client⟩, .init client⟩ hrun
  exact ⟨h.2.sublist, h.2.perm⟩

/-- After the first exception has kept the second consumer from the producer, a third consumer is
made, and the handler of the first one throws when it is told of an event. -/
def twoThrows : List (Throwing.Label ℕ) :=
  firstStart ++ eventAfterThrow ++
    [.run (.makeConsumer 2), .run (.publish 0 7), .run .doWork] ++
    List.replicate 4 (.run .resume) ++ [.throw]

theorem dispatches_of_throwing_twoThrows :
    ∃ t, Transition.run (Throwing.step oneStream) (.init oneStream) twoThrows = some t ∧
      (t.system.due oneStream).length = 8 ∧ t.abandoned = [(0, 1)] ∧
      (Throwing.cutOff oneStream twoThrows).map Delivery.pair = [(0, 2)] ∧
      ((t.system.due oneStream).filter (·.pair ∉ t.abandoned)).Perm
        (t.deliveries oneStream ++ Throwing.cutOff oneStream twoThrows) := by
  have hrun : Transition.run (Throwing.step oneStream) (.init oneStream) twoThrows = some _ := rfl
  exact ⟨_, hrun, rfl, rfl, rfl, (dispatches_of_throwing hrun).2⟩

end Keryx
