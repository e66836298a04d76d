import Keryx.Broker.Nested
import Keryx.Broker.Tracking

/-!
# Handlers that call `do_work`

`do_work` takes an action out of the queue before it carries it out, and has no guard against being
called again by a handler. A call of `do_work` inside a handler suspends the running loop and the
rest of the handler, and takes the actions that follow out of the queue first. The runs here are
those in which it takes out `Publish` actions only, so that no list changes at all while a loop is
suspended; a run ends where it comes to another action.

What the client does is given by scripts: the calls it makes outside, and for every call of a
handler the calls that the handler makes, which may depend on everything that has happened before.
So a run is determined by its scripts, and there is one run in which the handlers leave their calls
of `do_work` out.

## Main definitions

* `Reentrant.step` — the broker and its client, with calls of `do_work` inside handlers.
* `leaveOut` — the handlers without their calls of `do_work`.
* `Reentrant.harmless` — the calls of `do_work` that let no action overtake another one.

## Main results

* `Reentrant.reachable_nested` — a run with scripts is a run of `Nested.step`, where the calls are
  labels.
* `harmless_same_history` — when all calls are harmless, both runs have the same history.
-/

namespace Keryx

variable {Ev H : Type}

/-- The call of `do_work`. -/
def Label.isDoWork : Label Ev → Bool
  | .doWork => true
  | .makeProducer _ | .publish _ _ | .destroyProducer _ | .makeConsumer _ | .destroyConsumer _
  | .resume => false

/-- The caller of a running `do_work`: the calls it still has to make, and, when it is a handler,
what is left of the `do_work` that called it. -/
structure Frame (Ev : Type) where
  script : List (Label Ev)
  todo : List (Task Ev)
  inHandler : Bool
  deriving DecidableEq, Repr

/-- A broker and its client. `script` are the calls that the running client code still has to make;
`suspended` are the callers of the calls of `do_work` that have not returned, the last one first. -/
structure Reentrant (Ev H : Type) where
  system : System Ev H
  script : List (Label Ev)
  suspended : List (Frame Ev)

/-- The handlers, without their calls of `do_work`. -/
def leaveOut (handler : History Ev → List (Label Ev)) (h : History Ev) : List (Label Ev) :=
  (handler h).filter (!·.isDoWork)

namespace Reentrant

/-- The client code `main` before its first call. -/
def init (client : Client Ev H) (main : List (Label Ev)) : Reentrant Ev H :=
  ⟨.init client, main, []⟩

/-- The running client code calls `do_work`, and has to make the calls `script` afterwards. -/
def push (n : Reentrant Ev H) (script : List (Label Ev)) : Reentrant Ev H where
  system := { n.system with todo := [.doWork], inHandler := false }
  script := []
  suspended := ⟨script, n.system.todo, n.system.inHandler⟩ :: n.suspended

/-- The running `do_work` returns to its caller. -/
def pop (n : Reentrant Ev H) (frame : Frame Ev) (frames : List (Frame Ev)) : Reentrant Ev H where
  system := { n.system with todo := frame.todo, inHandler := frame.inHandler }
  script := frame.script
  suspended := frames

/-- The next task of `do_work`, after the running handler has returned. When it calls a handler, the
handler makes the calls `handler h`, where `h` is the history so far. -/
def resume [SnapshotHandler Ev H] (handler : History Ev → List (Label Ev)) (n : Reentrant Ev H)
    (task : Task Ev) (rest : List (Task Ev)) : Reentrant Ev H :=
  let system := n.system.resume task rest
  { n with
    system
    script := if system.inHandler then handler system.history else [] }

/-- A `do_work` called by a handler comes to an action that is no `Publish`. The run ends there. -/
def blocked (n : Reentrant Ev H) (task : Task Ev) : Bool :=
  match task with
  | .doWork => 2 ≤ n.suspended.length && n.system.broker.pendingActions.head?.any (!·.isPublish)
  | _ => false

/-- One step: the next call of the running client code, or, when it has returned, the next task of
the running `do_work`, or its return. A `do_work` called by a handler carries out `Publish` actions
only. -/
def step [SnapshotHandler Ev H] (client : Client Ev H) (handler : History Ev → List (Label Ev))
    (n : Reentrant Ev H) (_ : Unit) : Option (Reentrant Ev H) :=
  match n.system.fault, n.script, n.system.todo, n.suspended with
  | some _, _, _, _ => none
  | none, .doWork :: script, _, _ => if n.system.canCall then some (n.push script) else none
  | none, .resume :: _, _, _ => none
  | none, l :: script, _, _ =>
    (n.system.step client l).map fun system => { n with system, script }
  | none, [], task :: rest, _ =>
    if n.blocked task then none else some (n.resume handler task rest)
  | none, [], [], frame :: frames => some (n.pop frame frames)
  | none, [], [], [] => none

/-- The client code has come to its end. -/
def finished (n : Reentrant Ev H) : Bool :=
  n.script.isEmpty && n.system.todo.isEmpty && n.suspended.isEmpty

/-- A call of `do_work` by a handler is harmless when it finds the queue empty, or when nothing is
left of the running action: the running loop has no call of `notify` left to make, and the handler
enqueues nothing any more. -/
def harmless (client : Client Ev H) (n : Reentrant Ev H) : Bool :=
  match n.script with
  | .doWork :: script =>
    n.suspended.isEmpty || n.system.broker.pendingActions.isEmpty ||
      script.all Label.isDoWork && (n.system.todo.flatMap (Task.deliveries client)).isEmpty
  | _ => true

/-! ### What a step does -/

section

variable [SnapshotHandler Ev H] {client : Client Ev H} {handler : History Ev → List (Label Ev)}
  {n n' : Reentrant Ev H}

/-- What a step can be. -/
inductive Effect (client : Client Ev H) (handler : History Ev → List (Label Ev))
    (n : Reentrant Ev H) : Reentrant Ev H → Prop
  | doWork {script} (hscript : n.script = .doWork :: script) :
      Effect client handler n (n.push script)
  | call {l script system} (hscript : n.script = l :: script) (hl : l ≠ .doWork ∧ l ≠ .resume)
      (hstep : n.system.step client l = some system) :
      Effect client handler n { n with system, script }
  | resume {task rest} (hscript : n.script = []) (htodo : n.system.todo = task :: rest)
      (hblocked : n.blocked task = false) : Effect client handler n (n.resume handler task rest)
  | pop {frame frames} (hscript : n.script = []) (htodo : n.system.todo = [])
      (hsuspended : n.suspended = frame :: frames) : Effect client handler n (n.pop frame frames)

theorem effect_of_step (h : n.step client handler () = some n') : Effect client handler n n' := by
  rw [step] at h
  split at h
  · cases h
  · next hscript => exact Option.some.inj (Option.ite_none_right_eq_some.mp h).2 ▸ .doWork hscript
  · cases h
  · next hdoWork hresume _ hscript =>
    obtain ⟨system, hstep, rfl⟩ := Option.map_eq_some_iff.mp h
    exact .call hscript ⟨hdoWork, hresume⟩ hstep
  · next hscript htodo =>
    split at h
    · cases h
    · next hblocked => exact Option.some.inj h ▸ .resume hscript htodo (by simpa using hblocked)
  · next hscript htodo hsuspended => exact Option.some.inj h ▸ .pop hscript htodo hsuspended
  · cases h

theorem step_push {script : List (Label Ev)} (hfault : n.system.fault = none)
    (hscript : n.script = .doWork :: script) (hcan : n.system.canCall) :
    n.step client handler () = some (n.push script) := by
  simp only [step, hfault, hscript, hcan, if_true]

theorem step_call {l : Label Ev} {script : List (Label Ev)} {system : System Ev H}
    (hfault : n.system.fault = none) (hscript : n.script = l :: script)
    (hl : l ≠ .doWork ∧ l ≠ .resume) (hstep : n.system.step client l = some system) :
    n.step client handler () = some { n with system, script } := by
  cases l with
  | doWork => exact absurd rfl hl.1
  | resume => exact absurd rfl hl.2
  | _ => simp only [step, hfault, hscript, hstep, Option.map_some]

theorem step_resume {task : Task Ev} {rest : List (Task Ev)} (hfault : n.system.fault = none)
    (hscript : n.script = []) (htodo : n.system.todo = task :: rest)
    (hsuspended : n.suspended.length ≤ 1) :
    n.step client handler () = some (n.resume handler task rest) := by
  have hblocked : n.blocked task = false := by
    cases task with
    | doWork =>
      have hlt : ¬ 2 ≤ n.suspended.length := by omega
      simp [blocked, hlt]
    | _ => rfl
  simp only [step, hfault, hscript, htodo, hblocked]
  rfl

theorem step_pop {frame : Frame Ev} {frames : List (Frame Ev)} (hfault : n.system.fault = none)
    (hscript : n.script = []) (htodo : n.system.todo = [])
    (hsuspended : n.suspended = frame :: frames) :
    n.step client handler () = some (n.pop frame frames) := by
  simp only [step, hfault, hscript, htodo, hsuspended]

end

end Reentrant

/-- A call is made by client code. -/
theorem System.canCall_of_step [SnapshotHandler Ev H] {client : Client Ev H} {s s' : System Ev H}
    {l : Label Ev} (hl : l ≠ .doWork ∧ l ≠ .resume) (h : s.step client l = some s') :
    s.canCall := by
  cases effect_of_step h with
  | doWork => exact absurd rfl hl.1
  | resume => exact absurd rfl hl.2
  | _ hcan => exact hcan

/-! ### Scripts and labels -/

/-- A call leaves the tasks alone. -/
theorem System.todo_of_step [SnapshotHandler Ev H] {client : Client Ev H} {s s' : System Ev H}
    {l : Label Ev} (hl : l ≠ .doWork ∧ l ≠ .resume) (h : s.step client l = some s') :
    s'.todo = s.todo ∧ s'.inHandler = s.inHandler := by
  cases effect_of_step h with
  | doWork => exact absurd rfl hl.1
  | resume => exact absurd rfl hl.2
  | destroyConsumer =>
    rw [destroyConsumer]
    split <;> exact ⟨rfl, rfl⟩
  | _ => exact ⟨rfl, rfl⟩

namespace Reentrant

/-- The state of the system whose calls are labels. It has no frame for the client code outside, and
a `do_work` that has come to its end has returned. -/
def nested (n : Reentrant Ev H) : Nested Ev H :=
  Nested.leave ⟨n.system, n.suspended.dropLast.map (·.todo)⟩

/-- A loop of `do_work` that has not come to its end. -/
def Looping (todo : List (Task Ev)) : Prop := todo.getLast? = some .doWork

theorem Looping.ne_nil {todo : List (Task Ev)} (h : Looping todo) : todo ≠ [] := by
  rintro rfl
  cases h

/-- The frames are those of handlers, and last that of the client code outside. -/
inductive Framed (n : Reentrant Ev H) : Prop
  | outside (hsuspended : n.suspended = [])
      (htodo : n.system.todo = [] ∧ n.system.inHandler = false)
  | inside {frames outer} (hsuspended : n.suspended = frames ++ [outer])
      (houter : outer.todo = [] ∧ outer.inHandler = false)
      (hframes : ∀ f ∈ frames, Looping f.todo ∧ f.inHandler)
      (hloop : n.system.todo = [] ∧ n.system.inHandler = false ∧ n.script = [] ∨
        Looping n.system.todo)

/-- Outside of `do_work`. -/
theorem nested_of_nil {n : Reentrant Ev H} (hsuspended : n.suspended = []) :
    n.nested = ⟨n.system, []⟩ := by
  rw [nested, hsuspended]
  unfold Nested.leave
  split <;> simp_all

/-- Inside `do_work`, while its loop has not come to its end. -/
theorem nested_of_looping {n : Reentrant Ev H} {frames : List (Frame Ev)} {outer : Frame Ev}
    (hsuspended : n.suspended = frames ++ [outer]) (htodo : n.system.todo ≠ []) :
    n.nested = ⟨n.system, frames.map (·.todo)⟩ := by
  rw [nested, hsuspended, List.dropLast_concat]
  unfold Nested.leave
  split <;> simp_all

variable [SnapshotHandler Ev H] {client : Client Ev H} {handler : History Ev → List (Label Ev)}
  {n n' : Reentrant Ev H}

/-- The client code calls `do_work`. -/
theorem Framed.push (h : Framed n) (hfault : n.system.fault = none) (hcan : n.system.canCall)
    {script : List (Label Ev)} (hscript : n.script = .doWork :: script) :
    Framed (n.push script) ∧ n.nested.step client .doWork = some (n.push script).nested := by
  cases h with
  | outside hsuspended htodo =>
    have hpush : (n.push script).suspended =
        [] ++ [⟨script, n.system.todo, n.system.inHandler⟩] := by
      rw [Reentrant.push, hsuspended]
      rfl
    refine ⟨.inside hpush htodo (by simp) (.inr rfl), ?_⟩
    rw [nested_of_nil hsuspended, nested_of_looping hpush (by simp [Reentrant.push])]
    simp [Nested.step, System.step, Reentrant.push, hfault, htodo]
  | @inside frames outer hsuspended houter hframes hloop =>
    have hloop := hloop.resolve_left fun hleft => by simp [hscript] at hleft
    have hin : n.system.inHandler := by simpa [System.canCall, hfault, hloop.ne_nil] using hcan
    have hpush : (n.push script).suspended =
        (⟨script, n.system.todo, n.system.inHandler⟩ :: frames) ++ [outer] := by
      rw [Reentrant.push, hsuspended]
      rfl
    refine ⟨.inside hpush houter (List.forall_mem_cons.mpr ⟨⟨hloop, hin⟩, hframes⟩) (.inr rfl), ?_⟩
    rw [nested_of_looping hsuspended hloop.ne_nil,
      nested_of_looping hpush (by simp [Reentrant.push])]
    simp [Nested.step, hloop.ne_nil, hcan, Nested.push, Reentrant.push]

/-- The client code makes another call. -/
theorem Framed.call (h : Framed n) {l : Label Ev} {script : List (Label Ev)}
    {system : System Ev H} (hscript : n.script = l :: script) (hl : l ≠ .doWork ∧ l ≠ .resume)
    (hcall : n.system.step client l = some system) :
    Framed { n with system, script } ∧
      n.nested.step client l = some ({ n with system, script } : Reentrant Ev H).nested := by
  obtain ⟨htodo', hin'⟩ := System.todo_of_step hl hcall
  have hstep (suspended : List (List (Task Ev))) :
      Nested.step client ⟨n.system, suspended⟩ l = some ⟨system, suspended⟩ := by
    cases l with
    | doWork => exact absurd rfl hl.1
    | resume => exact absurd rfl hl.2
    | _ => simp only [Nested.step, hcall, Option.map_some]
  cases h with
  | outside hsuspended htodo =>
    refine ⟨.outside hsuspended (by rwa [htodo', hin']), ?_⟩
    rw [nested_of_nil hsuspended, nested_of_nil (n := { n with system, script }) hsuspended]
    exact hstep []
  | inside hsuspended houter hframes hloop =>
    have hloop := hloop.resolve_left fun hleft => by simp [hscript] at hleft
    have hloop' : Looping system.todo := htodo' ▸ hloop
    refine ⟨.inside hsuspended houter hframes (.inr hloop'), ?_⟩
    rw [nested_of_looping hsuspended hloop.ne_nil,
      nested_of_looping (n := { n with system, script }) hsuspended hloop'.ne_nil]
    exact hstep _

omit [SnapshotHandler Ev H] in
/-- A `do_work` returns. -/
theorem Framed.pop (h : Framed n) {frame : Frame Ev} {frames : List (Frame Ev)}
    (htodo : n.system.todo = []) (hsuspended : n.suspended = frame :: frames) :
    Framed (n.pop frame frames) ∧ (n.pop frame frames).nested = n.nested := by
  cases h with
  | outside hnil =>
    rw [hsuspended] at hnil
    cases hnil
  | @inside handlers outer hsuspended' houter hframes hloop =>
    obtain ⟨-, hin, -⟩ := hloop.resolve_right fun hloop => hloop.ne_nil htodo
    have hframe := hsuspended.symm.trans hsuspended'
    cases handlers with
    | nil =>
      obtain ⟨rfl, rfl⟩ := List.cons.inj hframe
      have hsystem : ({ n.system with todo := frame.todo, inHandler := frame.inHandler } :
          System Ev H) = n.system := by
        rw [houter.1.trans htodo.symm, houter.2.trans hin.symm]
      refine ⟨.outside rfl houter, ?_⟩
      rw [nested_of_nil rfl, Reentrant.pop, hsystem, nested, hsuspended]
      simp [Nested.leave]
    | cons f handlers =>
      obtain ⟨rfl, rfl⟩ := List.cons.inj hframe
      obtain ⟨⟨hframe, hin'⟩, hframes⟩ := List.forall_mem_cons.mp hframes
      refine ⟨.inside rfl houter hframes (.inr hframe), ?_⟩
      rw [nested_of_looping rfl hframe.ne_nil, nested, hsuspended', List.dropLast_concat]
      simp [Nested.leave, htodo, Reentrant.pop, hin']

/-- A loop ends with the loop of `do_work`, which ends when it finds the queue empty. -/
theorem Looping.resume {s : System Ev H} {task : Task Ev} {rest : List (Task Ev)}
    (h : Looping (task :: rest)) (htodo : s.todo = task :: rest) :
    (s.resume task rest).todo = [] ∧ (s.resume task rest).inHandler = false ∨
      Looping (s.resume task rest).todo := by
  cases rest with
  | cons t ts =>
    rw [Looping, List.getLast?_cons_cons] at h
    refine .inr ?_
    rw [System.resume]
    split
    · rw [htodo]
      exact (List.getLast?_cons_cons ..).trans h
    · exact (List.getLast?_append_cons ..).trans h
  | nil =>
    obtain rfl : task = .doWork := by simpa [Looping] using h
    cases hpending : s.broker.pendingActions with
    | nil =>
      rw [s.resume_eq_of_none .doWork (OldBroker.doWork_of_nil hpending)]
      exact .inl ⟨rfl, rfl⟩
    | cons a as =>
      cases hvisit : OldBroker.visit { s.broker with pendingActions := as } s.frontIndex a with
      | error f =>
        have herror : s.broker.doWork s.frontIndex = .error f := by
          rw [OldBroker.doWork, hpending]
          dsimp only
          rw [hvisit]
          rfl
        rw [System.resume, Task.exec, herror]
        exact .inr (htodo ▸ h)
      | ok visited =>
        rw [s.resume_eq_of_none .doWork (OldBroker.doWork_of_cons hpending hvisit)]
        exact .inr (by simp [Looping])

/-- The next task of `do_work`. -/
theorem Framed.resume (h : Framed n) (hfault : n.system.fault = none) {task : Task Ev}
    {rest : List (Task Ev)} (htodo : n.system.todo = task :: rest)
    (hblocked : n.blocked task = false) :
    Framed (n.resume handler task rest) ∧
      n.nested.step client .resume = some (n.resume handler task rest).nested := by
  cases h with
  | outside _ hnil =>
    rw [htodo] at hnil
    cases hnil.1
  | @inside frames outer hsuspended houter hframes hloop =>
    have hloop := hloop.resolve_left fun hleft => by simp [htodo] at hleft
    refine ⟨.inside hsuspended houter hframes ?_, ?_⟩
    · refine (Looping.resume (htodo ▸ hloop) htodo).imp_left fun ⟨hnil, hin⟩ => ⟨hnil, hin, ?_⟩
      simp [Reentrant.resume, hin]
    · have hblocked' : Nested.blocked ⟨n.system, frames.map (·.todo)⟩ task = false := by
        cases task with
        | doWork =>
          cases frames with
          | nil => rfl
          | cons f frames => simpa [blocked, Nested.blocked, hsuspended] using hblocked
        | _ => rfl
      rw [nested_of_looping hsuspended hloop.ne_nil]
      simp [Nested.step, hfault, htodo, hblocked', nested, Reentrant.resume, hsuspended]

/-- **A run with scripts is a run with labels.** -/
theorem reachable_nested {main : List (Label Ev)}
    (h : Transition.Reachable (step client handler) (.init client main) n) :
    Transition.Reachable (Nested.step client) (.init client) n.nested := by
  refine (h.invariant (P := fun n => Framed n ∧
    Transition.Reachable (Nested.step client) (.init client) n.nested) ?_
    ⟨.outside rfl ⟨rfl, rfl⟩, .refl _⟩).2
  rintro n ⟨⟩ n' ⟨hframed, hreach⟩ hstep
  have hfault : n.system.fault = none := by
    cases hf : n.system.fault with
    | none => rfl
    | some f => simp [step, hf] at hstep
  cases effect_of_step hstep with
  | doWork hscript =>
    have hcan : n.system.canCall := by
      by_contra hcan
      simp [step, hfault, hscript, hcan] at hstep
    obtain ⟨hframed', hnested⟩ := hframed.push hfault hcan hscript
    exact ⟨hframed', hreach.trans (.of_step hnested)⟩
  | call hscript hl hcall =>
    obtain ⟨hframed', hnested⟩ := hframed.call hscript hl hcall
    exact ⟨hframed', hreach.trans (.of_step hnested)⟩
  | resume _ htodo hblocked =>
    obtain ⟨hframed', hnested⟩ := hframed.resume hfault htodo hblocked
    exact ⟨hframed', hreach.trans (.of_step hnested)⟩
  | pop _ htodo hsuspended =>
    obtain ⟨hframed', hnested⟩ := hframed.pop htodo hsuspended
    exact ⟨hframed', hnested ▸ hreach⟩

/-- Every call of `notify` is one of the messages of the log, also when a call of `do_work` by a
handler is not harmless. -/
theorem sent_of_reachable {main : List (Label Ev)}
    (h : Transition.Reachable (step client handler) (.init client main) n) {d : Dispatch Ev}
    (hd : d ∈ n.system.dispatches) : d.Sent client n.system.log := by
  have hhistory : n.nested.system.history = n.system.history := Nested.history_leave _
  have hd : d ∈ n.nested.system.dispatches := by
    rw [System.dispatches, hhistory]
    exact hd
  have hsent := Nested.sent_of_reachable (reachable_nested h) hd
  rw [System.log, hhistory] at hsent
  exact hsent

end Reentrant

/-! ### Tasks that call no handler -/

/-- The task calls no handler, in the state `A` of the abstract model. -/
def Task.Quiet (client : Client Ev H) (A : PubSub.State ProducerPtr ConsumerPtr) : Task Ev → Prop
  | .maybeAdd _ p c => p ∈ A.sources.members ∧ c ∈ A.sinks.members ∧ ¬ client.isMatch p c
  | .notify _ _ _ _ => False
  | .addNewEvent p _ => p ∈ A.sources.members
  | .doWork | .deallocate _ => True

/-- The producer that a task frees. -/
def Task.freed : Task Ev → Option ProducerPtr
  | .deallocate p => some p
  | .doWork | .maybeAdd _ _ _ | .notify _ _ _ _ | .addNewEvent _ _ => none

/-- No pair is left out of the lists. -/
def everyPair (_ : ProducerPtr) (_ : ConsumerPtr) : Bool := true

theorem Task.filter_kept_everyPair (todo : List (Task Ev)) :
    todo.filter (Task.kept everyPair) = todo := by
  refine List.filter_eq_self.mpr fun task _ => ?_
  cases task <;> rfl

/-- The tasks of a loop that has no call of `notify` left to make. -/
theorem Stack.quiet {client : Client Ev H} {A : PubSub.State ProducerPtr ConsumerPtr}
    {todo : List (Task Ev)} (h : Stack A todo)
    (hnone : todo.flatMap (Task.deliveries client) = []) :
    ∀ task ∈ todo, task.Quiet client A := by
  induction h with
  | nil => simp
  | doWork => simp [Task.Quiet]
  | addNewEvent hp => simp [Task.Quiet, hp]
  | deallocate => simp [Task.Quiet]
  | @maybeAdd i p c rest hp hc _ ih =>
    rw [List.flatMap_cons, List.append_eq_nil_iff] at hnone
    refine List.forall_mem_cons.mpr ⟨⟨hp, hc, fun hmatch => ?_⟩, ih hnone.2⟩
    simp [Task.deliveries, hmatch] at hnone
  | notify =>
    rw [List.flatMap_cons] at hnone
    cases hnone

namespace System.Tracks

variable [SnapshotHandler Ev H] {client : Client Ev H} {s u : System Ev H}
  {done : List (Action Ev)} {dead : List ProducerPtr}

/-- A task that calls no handler is done in the first system, after the second one. -/
theorem quiet_left (task : Task Ev) (rest : List (Task Ev))
    (h : Tracks everyPair (task.freed.toList ++ dead) s u) (hinv : Inv client u done)
    (hquiet : task.Quiet client (client.after done)) (hpending : u.broker.pendingActions = []) :
    Tracks everyPair dead (s.resume task rest) u ∧ (s.resume task rest).todo = rest ∧
      (s.resume task rest).history = s.history ∧ (s.resume task rest).inHandler = false := by
  suffices hexec : ∃ b, task.exec s.broker s.frontIndex = .ok ⟨b, [], none⟩ ∧
      b.Tracks everyPair dead u.broker by
    obtain ⟨b, hexec, hbroker⟩ := hexec
    rw [s.resume_eq_of_none task hexec]
    exact ⟨{ h with broker := hbroker }, rfl, rfl, rfl⟩
  cases task with
  | doWork =>
    exact ⟨s.broker, OldBroker.doWork_of_nil (h.broker.pendingActions_eq.trans hpending), h.broker⟩
  | maybeAdd i p c =>
    obtain ⟨hp, hc, hmatch⟩ := hquiet
    obtain ⟨x, y, hx, -, hthin, hy⟩ := h.broker.producerHeap.object hinv.producerHeap (.inl hp)
    obtain ⟨consumer, hderef, hconsumer⟩ := hinv.consumerHeap.object (.inl hc)
    rw [← h.broker.consumerHeap_eq] at hderef
    refine ⟨s.broker, OldBroker.maybeAdd_of_not_isMatch hx hderef ?_, h.broker⟩
    rwa [hthin.isMatch_eq, hconsumer.filter_eq, Inv.isMatch_eq hy]
  | notify => cases hquiet
  | addNewEvent p ev =>
    obtain ⟨x, y, hx, -, -, -⟩ := h.broker.producerHeap.object hinv.producerHeap (.inl hquiet)
    refine ⟨_, OldBroker.addNewEvent_eq hx, { h.broker with producerHeap := ?_ }⟩
    exact h.broker.producerHeap.write_left hx fun _ _ hthin =>
      ⟨hthin.id_eq, hthin.topic_eq, hthin.consumers_eq⟩
  | deallocate p =>
    exact ⟨_, rfl, { h.broker with producerHeap := h.broker.producerHeap.free_left }⟩

/-- A task that calls no handler is done in the second system, before the first one. -/
theorem quiet_right {task : Task Ev} {rest : List (Task Ev)} (h : Tracks everyPair dead s u)
    (hinv : Inv client u done) (htodo : u.todo = task :: rest)
    (hquiet : task.Quiet client (client.after done)) (htask : task ≠ .doWork) :
    Tracks everyPair (task.freed.toList ++ dead) s (u.resume task rest) ∧
      (u.resume task rest).todo = rest ∧ (u.resume task rest).history = u.history ∧
      (u.resume task rest).inHandler = false := by
  suffices hexec : ∃ b, task.exec u.broker u.frontIndex = .ok ⟨b, [], none⟩ ∧
      s.broker.Tracks everyPair (task.freed.toList ++ dead) b by
    obtain ⟨b, hexec, hbroker⟩ := hexec
    rw [u.resume_eq_of_none task hexec]
    exact ⟨{ h with broker := hbroker }, rfl, rfl, rfl⟩
  cases task with
  | doWork => exact absurd rfl htask
  | maybeAdd i p c =>
    obtain ⟨hp, hc, hmatch⟩ := hquiet
    obtain ⟨y, hy, hproducer⟩ := hinv.producerHeap.object (.inl hp)
    obtain ⟨consumer, hderef, hconsumer⟩ := hinv.consumerHeap.object (.inl hc)
    refine ⟨u.broker, OldBroker.maybeAdd_of_not_isMatch hy hderef ?_, h.broker⟩
    rwa [hconsumer.filter_eq, Inv.isMatch_eq hproducer]
  | notify => cases hquiet
  | addNewEvent p ev =>
    obtain ⟨y, hy, -⟩ := hinv.producerHeap.object (.inl hquiet)
    refine ⟨_, OldBroker.addNewEvent_eq hy, { h.broker with producerHeap := ?_ }⟩
    exact h.broker.producerHeap.write_right hinv.producerHeap (.inl hquiet) hy
      (fun _ hthin => ⟨hthin.id_eq, hthin.topic_eq, hthin.consumers_eq⟩) fun _ _ _ _ => id
  | deallocate p =>
    have hlive : LiveProducer (client.after done) u.todo u.broker.pendingActions p :=
      .inr (.inr (htodo ▸ List.mem_cons_self))
    exact ⟨_, rfl, { h.broker with
      producerHeap := h.broker.producerHeap.free_right hinv.producerHeap hlive }⟩

end System.Tracks

/-! ### The two runs -/

/-- The frame of a handler that enqueues nothing any more, in a loop that calls no handler any
more. -/
def Frame.Dead (client : Client Ev H) (A : PubSub.State ProducerPtr ConsumerPtr) (f : Frame Ev) :
    Prop :=
  f.script.all Label.isDoWork ∧ ∀ task ∈ f.todo, task.Quiet client A

/-- `Publish` changes no registry. -/
theorem Frame.Dead.publish {client : Client Ev H} {done : List (Action Ev)} {f : Frame Ev}
    (h : f.Dead client (client.after done)) (p : ProducerPtr) (ev : Ev) :
    f.Dead client (client.after (done ++ [.publish p ev])) := by
  refine ⟨h.1, fun task htask => ?_⟩
  have hquiet := h.2 task htask
  rw [client.after_concat]
  cases task <;> exact hquiet

/-- The producers that the tasks `todo` free. -/
def freedBy (todo : List (Task Ev)) : List ProducerPtr := todo.filterMap Task.freed

theorem freedBy_cons (task : Task Ev) (todo : List (Task Ev)) :
    freedBy (task :: todo) = task.freed.toList ++ freedBy todo := by
  rw [freedBy, List.filterMap_cons]
  cases task.freed <;> rfl

namespace Reentrant

/-- Both runs are between two calls of `do_work`. -/
structure Outside (client : Client Ev H) (n u : Reentrant Ev H) : Prop where
  inv : ∃ done, Inv client u.system done
  tracks : n.system.Tracks everyPair [] u.system
  history_eq : n.system.history = u.system.history
  script_eq : n.script = u.script
  inHandler_eq : n.system.inHandler = u.system.inHandler
  todo_eq : n.system.todo = []
  todo_eq' : u.system.todo = []
  suspended_eq : n.suspended = []
  suspended_eq' : u.suspended = []

/-- Both runs are inside `do_work`. The run `u` has one call of `do_work`; in the run `n`, the
frames `dead` are on top of it, which have nothing left to do but to free some producers. -/
structure Joint (client : Client Ev H) (n u : Reentrant Ev H) (dead : List (Frame Ev))
    (freed : List ProducerPtr) (done : List (Action Ev)) : Prop where
  inv : Inv client u.system done
  tracks : n.system.Tracks everyPair (freed ++ dead.flatMap (freedBy ·.todo)) u.system
  history_eq : n.system.history = u.system.history
  suspended_eq : n.suspended = dead ++ u.suspended
  outer : ∃ frame, u.suspended = [frame] ∧ frame.todo = []
  dead_quiet : ∀ f ∈ dead, f.Dead client (client.after done)

/-- Both runs are at the same place of `do_work`. -/
structure Inside (client : Client Ev H) (n u : Reentrant Ev H) (dead : List (Frame Ev))
    (done : List (Action Ev)) : Prop extends Joint client n u dead [] done where
  todo_eq : n.system.todo = u.system.todo
  inHandler_le : n.system.inHandler → u.system.inHandler
  script_eq : u.script = n.script.filter (!·.isDoWork)
  loop : u.system.todo = [] ∧ dead = [] ∧ n.script = [] ∨ .doWork ∈ u.system.todo

/-- The queue is empty, and the run `n` returns from the calls of `do_work` inside the handlers. -/
structure Unwinding (client : Client Ev H) (n u : Reentrant Ev H) (dead : List (Frame Ev))
    (done : List (Action Ev)) : Prop extends
    Joint client n u dead (freedBy n.system.todo) done where
  pending_eq : u.system.broker.pendingActions = []
  script_all : n.script.all Label.isDoWork
  todo_quiet : ∀ task ∈ n.system.todo, task.Quiet client (client.after done)
  todo_eq' : u.system.todo = [.doWork]
  script_eq' : u.script = []

/-- How the run with the handlers' calls of `do_work` follows the run without them. -/
inductive Follows (client : Client Ev H) (n u : Reentrant Ev H) : Prop
  | outside (h : Outside client n u)
  | inside {dead done} (h : Inside client n u dead done)
  | idle {frame frames dead done} (hscript : n.script = [])
      (hpending : n.system.broker.pendingActions = [])
      (htodo : n.system.todo = [] ∨ n.system.todo = [.doWork])
      (hsuspended : n.suspended = frame :: frames)
      (h : Inside client (n.pop frame frames) u dead done)
  | unwinding {dead done} (h : Unwinding client n u dead done)

theorem Outside.init (client : Client Ev H) (main : List (Label Ev)) :
    Outside client (.init client main) (.init client main) :=
  ⟨⟨[], .init client⟩, .init client, rfl, rfl, rfl, rfl, rfl, rfl, rfl⟩

section

variable {client : Client Ev H} {n n' u : Reentrant Ev H} {dead : List (Frame Ev)}
  {done : List (Action Ev)}

/-- `do_work` is called from outside. -/
theorem Outside.push (h : Outside client n u) (hinv : Inv client u.system done)
    (script : List (Label Ev)) : Inside client (n.push script) (u.push script) [] done where
  inv := { hinv.idle (.inl h.todo_eq') (.inr rfl) with }
  tracks := { h.tracks with }
  history_eq := h.history_eq
  suspended_eq := by
    simp [Reentrant.push, h.suspended_eq, h.suspended_eq', h.todo_eq, h.todo_eq', h.inHandler_eq]
  outer := ⟨⟨script, u.system.todo, u.system.inHandler⟩, by simp [Reentrant.push, h.suspended_eq'],
    h.todo_eq'⟩
  dead_quiet := by simp
  todo_eq := rfl
  inHandler_le := id
  script_eq := rfl
  loop := .inr (List.mem_singleton_self _)

/-- `do_work` returns to the client code outside. -/
theorem Outside.of_pop (hinv : Inv client u.system done)
    (htracks : n.system.Tracks everyPair [] u.system)
    (hhistory : n.system.history = u.system.history) (htodo : u.system.todo = [])
    {frame : Frame Ev} (hframe : frame.todo = []) :
    Outside client (n.pop frame []) (u.pop frame []) where
  inv := ⟨done, { hinv.idle (.inl htodo) (.inl hframe) with }⟩
  tracks := { htracks with }
  history_eq := hhistory
  script_eq := rfl
  inHandler_eq := rfl
  todo_eq := hframe
  todo_eq' := hframe
  suspended_eq := rfl
  suspended_eq' := rfl

/-- While a handler runs, the loop of `do_work` is still to be done. -/
theorem Inside.loop_of_script (h : Inside client n u dead done) (hscript : n.script ≠ []) :
    .doWork ∈ u.system.todo :=
  h.loop.resolve_left fun hleft => hscript hleft.2.2

/-- A handler calls `do_work`, and the queue is empty. -/
theorem Inside.push_idle (h : Inside client n u dead done) {script : List (Label Ev)}
    (hscript : n.script = .doWork :: script)
    (hpending : n.system.broker.pendingActions = []) : Follows client (n.push script) u := by
  have hinside : Inside client { n with script } u dead done := { h with
    script_eq := by
      rw [h.script_eq, hscript]
      rfl
    loop := .inr (h.loop_of_script (by simp [hscript])) }
  exact .idle rfl hpending (.inr rfl) rfl hinside

/-- The handler that has been returned to calls `do_work` again. -/
theorem Unwinding.push (h : Unwinding client n u dead done) {script : List (Label Ev)}
    (hscript : n.script = .doWork :: script) :
    Unwinding client (n.push script) u (⟨script, n.system.todo, n.system.inHandler⟩ :: dead)
      done := by
  have hall := h.script_all
  rw [hscript, List.all_cons, Bool.and_eq_true] at hall
  exact { h with
    tracks := { h.tracks with }
    suspended_eq := congrArg (List.cons _) h.suspended_eq
    dead_quiet := List.forall_mem_cons.mpr ⟨⟨hall.2, h.todo_quiet⟩, h.dead_quiet⟩
    script_all := rfl
    todo_quiet := by simp [Reentrant.push, Task.Quiet] }

/-- A `do_work` returns to a handler. -/
theorem Unwinding.pop {f : Frame Ev} (h : Unwinding client n u (f :: dead) done)
    (htodo : n.system.todo = []) :
    Unwinding client (n.pop f (dead ++ u.suspended)) u dead done := by
  obtain ⟨hf, hdead⟩ := List.forall_mem_cons.mp h.dead_quiet
  exact { h with
    tracks := by
      have htracks := h.tracks
      rw [htodo] at htracks
      exact { htracks with }
    suspended_eq := rfl
    dead_quiet := hdead
    script_all := hf.1
    todo_quiet := hf.2 }

variable [SnapshotHandler Ev H] {handler : History Ev → List (Label Ev)}

/-- A step outside of `do_work`. -/
theorem Outside.step (h : Outside client n u) (hstep : Effect client handler n n') :
    ∃ u', Follows client n' u' ∧ Transition.Reachable (step client (leaveOut handler)) u u' := by
  obtain ⟨done, hinv⟩ := h.inv
  have hcan : u.system.canCall := by simp [System.canCall, hinv.noFault, h.todo_eq']
  cases hstep with
  | @doWork script hscript =>
    exact ⟨u.push script, .inside (h.push hinv script),
      .of_step (step_push hinv.noFault (h.script_eq ▸ hscript) hcan)⟩
  | @call l script system hscript hl hcall =>
    obtain ⟨system', a, hcall', hcalled⟩ := h.tracks.call hinv hl hcan hcall
    refine ⟨{ u with system := system', script }, .outside ?_,
      .of_step (step_call hinv.noFault (h.script_eq ▸ hscript) hl hcall')⟩
    exact ⟨⟨done, hinv.step_call hl hcall'⟩, hcalled.tracks,
      by rw [hcalled.history_eq, hcalled.history_eq', h.history_eq], rfl,
      by rw [hcalled.inHandler_eq, hcalled.inHandler_eq', h.inHandler_eq],
      hcalled.todo_eq.trans h.todo_eq, hcalled.todo_eq'.trans h.todo_eq', h.suspended_eq,
      h.suspended_eq'⟩
  | resume _ htodo =>
    rw [h.todo_eq] at htodo
    cases htodo
  | pop _ _ hsuspended =>
    rw [h.suspended_eq] at hsuspended
    cases hsuspended

/-- The run without the handlers' calls of `do_work` comes to the loop of `do_work`, calling no
handler on the way. -/
theorem run_quiet {s : System Ev H} {freed : List ProducerPtr}
    (htracks : s.Tracks everyPair freed u.system) (hinv : Inv client u.system done)
    (hquiet : ∀ task ∈ u.system.todo, task.Quiet client (client.after done))
    (hloop : .doWork ∈ u.system.todo) (hscript : u.script = [])
    (hsuspended : u.suspended.length ≤ 1) :
    ∃ u', Transition.Reachable (step client handler) u u' ∧ Inv client u'.system done ∧
      s.Tracks everyPair (freedBy u.system.todo ++ freed) u'.system ∧
      u'.system.todo = [.doWork] ∧ u'.system.history = u.system.history ∧ u'.script = [] ∧
      u'.suspended = u.suspended := by
  induction htodo : u.system.todo generalizing u freed with
  | nil =>
    rw [htodo] at hloop
    cases hloop
  | cons task rest ih =>
    by_cases htask : task = .doWork
    · subst htask
      obtain rfl := hinv.rest_of_doWork htodo
      exact ⟨u, .refl u, hinv, htracks, htodo, rfl, hscript, rfl⟩
    · rw [htodo] at hquiet hloop
      obtain ⟨hhead, hquiet⟩ := List.forall_mem_cons.mp hquiet
      obtain ⟨htracks₁, htodo₁, hhistory₁, hhandler₁⟩ :=
        htracks.quiet_right hinv htodo hhead htask
      have hscript₁ : (u.resume handler task rest).script = [] := by
        simp only [Reentrant.resume, hhandler₁]
        rfl
      have hrest : (u.resume handler task rest).system.todo = rest := htodo₁
      have hloop₁ : .doWork ∈ rest := (List.mem_cons.mp hloop).resolve_left (Ne.symm htask)
      -- only the last pass before the loop of `do_work` frees a producer
      have hfreed : freedBy rest ++ (task.freed.toList ++ freed) =
          freedBy (task :: rest) ++ freed := by
        have hstack := hinv.stack
        rw [htodo] at hstack
        cases hstack <;> rfl
      obtain ⟨u', hreach, hinv', htracks', htodo', hhistory', hu'⟩ :=
        ih htracks₁ (hinv.resume_pass htodo htask) (by rwa [hrest]) (by rwa [hrest]) hscript₁
          hsuspended hrest
      refine ⟨u', .trans (.of_step (step_resume hinv.noFault hscript htodo hsuspended)) hreach,
        hinv', hfreed ▸ htracks', htodo', hhistory'.trans hhistory₁, hu'⟩

/-- A handler calls the broker. -/
theorem Inside.call (h : Inside client n u dead done) {l : Label Ev} {script : List (Label Ev)}
    {system : System Ev H} (hscript : n.script = l :: script) (hl : l ≠ .doWork ∧ l ≠ .resume)
    (hcall : n.system.step client l = some system) :
    ∃ u', Inside client { n with system, script } u' dead done ∧
      u.step client (leaveOut handler) () = some u' := by
  have hcan : u.system.canCall := by
    have hcan := System.canCall_of_step hl hcall
    rw [System.canCall, h.tracks.noFault, h.todo_eq, Bool.and_eq_true, Bool.or_eq_true] at hcan
    rw [System.canCall, h.inv.noFault, Bool.and_eq_true, Bool.or_eq_true]
    exact hcan.imp_right (Or.imp_right h.inHandler_le)
  have hcommand : l.isDoWork = false := by
    cases l <;> first | rfl | exact absurd rfl hl.1
  have hscript' : u.script = l :: script.filter (!·.isDoWork) := by
    rw [h.script_eq, hscript, List.filter_cons_of_pos (by simp [hcommand])]
  obtain ⟨system', a, hcall', hcalled⟩ := h.tracks.call h.inv hl hcan hcall
  refine ⟨{ u with system := system', script := script.filter (!·.isDoWork) }, ?_,
    step_call h.inv.noFault hscript' hl hcall'⟩
  exact {
    inv := h.inv.step_call hl hcall'
    tracks := hcalled.tracks
    history_eq := by rw [hcalled.history_eq, hcalled.history_eq', h.history_eq]
    suspended_eq := h.suspended_eq
    outer := h.outer
    dead_quiet := h.dead_quiet
    todo_eq := by rw [hcalled.todo_eq, hcalled.todo_eq', h.todo_eq]
    inHandler_le := by
      rw [hcalled.inHandler_eq, hcalled.inHandler_eq']
      exact h.inHandler_le
    script_eq := rfl
    loop := by
      rw [hcalled.todo_eq']
      exact .inr (h.loop_of_script (by simp [hscript])) }

/-- A handler calls `do_work` when nothing is left of the running action. -/
theorem Inside.push_dead (h : Inside client n u dead done) {script : List (Label Ev)}
    (hscript : n.script = .doWork :: script) (hall : script.all Label.isDoWork)
    (hnone : n.system.todo.flatMap (Task.deliveries client) = []) :
    ∃ u', Follows client (n.push script) u' ∧
      Transition.Reachable (step client (leaveOut handler)) u u' := by
  have hquiet := h.inv.stack.quiet (h.todo_eq ▸ hnone)
  have hscript' : u.script = [] := by
    rw [h.script_eq, hscript]
    refine List.filter_eq_nil_iff.mpr (List.forall_mem_cons.mpr ⟨by simp [Label.isDoWork], ?_⟩)
    intro l hl
    simp [List.all_eq_true.mp hall l hl]
  obtain ⟨frame, houter, hframe⟩ := h.outer
  obtain ⟨u', hreach, hinv, htracks, htodo, hhistory, hscript'', hsuspended⟩ :=
    run_quiet h.tracks h.inv hquiet (h.loop_of_script (by simp [hscript])) hscript'
      (by simp [houter])
  have hinside : Inside client (n.push script) u'
      (⟨script, n.system.todo, n.system.inHandler⟩ :: dead) done := {
    inv := hinv
    tracks := by
      rw [← h.todo_eq] at htracks
      exact { htracks with }
    history_eq := h.history_eq.trans hhistory.symm
    suspended_eq := by
      rw [hsuspended, List.cons_append, ← h.suspended_eq]
      rfl
    outer := ⟨frame, hsuspended.trans houter, hframe⟩
    dead_quiet := List.forall_mem_cons.mpr ⟨⟨hall, h.todo_eq ▸ hquiet⟩, h.dead_quiet⟩
    todo_eq := htodo.symm
    inHandler_le := fun hfalse => by cases hfalse
    script_eq := hscript''
    loop := .inr (htodo ▸ List.mem_singleton_self _) }
  exact ⟨u', .inside hinside, hreach⟩

/-- Both runs do the next task of `do_work`. -/
theorem Inside.resumed (h : Inside client n u dead done) {task : Task Ev} {rest : List (Task Ev)}
    (htodo : u.system.todo = task :: rest) {done' : List (Action Ev)}
    (hinv : Inv client (u.system.resume task rest) done')
    (hdead : ∀ f ∈ dead, f.Dead client (client.after done'))
    (hloop : (u.system.resume task rest).todo = [] ∧ dead = [] ∧
        (u.system.resume task rest).inHandler = false ∨
      .doWork ∈ (u.system.resume task rest).todo) :
    Inside client (n.resume handler task rest) (u.resume (leaveOut handler) task rest) dead
      done' := by
  obtain ⟨tasks, observations, htracks, hleft, hleft', hhistory, hhistory', hhandler, -⟩ :=
    h.tracks.resume h.inv htodo (fun _ _ _ _ => rfl) rest
  have hhistory_eq : (n.system.resume task rest).history = (u.system.resume task rest).history := by
    rw [hhistory, hhistory', h.history_eq]
  exact {
    inv := hinv
    tracks := htracks
    history_eq := hhistory_eq
    suspended_eq := h.suspended_eq
    outer := h.outer
    dead_quiet := hdead
    todo_eq := by
      change (n.system.resume task rest).todo = (u.system.resume task rest).todo
      rw [hleft, hleft', Task.filter_kept_everyPair]
    inHandler_le := fun hn => hhandler ▸ hn
    script_eq := by
      simp only [Reentrant.resume, hhandler, hhistory_eq]
      split
      · rfl
      · rfl
    loop := by
      refine hloop.imp_left fun ⟨hnil, hdeadNil, hfalse⟩ => ⟨hnil, hdeadNil, ?_⟩
      simp only [Reentrant.resume, hhandler, hfalse]
      rfl }

/-- The loop of `do_work` comes to the empty queue. -/
theorem Inside.resume_nil (h : Inside client n u dead done) (hscript : n.script = [])
    (htodo : u.system.todo = [.doWork]) (hpending : u.system.broker.pendingActions = []) :
    ∃ u', Follows client (n.resume handler .doWork []) u' ∧
      Transition.Reachable (step client (leaveOut handler)) u u' := by
  have hscript' : u.script = [] := by
    rw [h.script_eq, hscript]
    rfl
  obtain ⟨frame, houter, -⟩ := h.outer
  by_cases hdead : dead = []
  · obtain ⟨hresume, hinv⟩ := h.inv.doWork_nil htodo hpending
    refine ⟨_, .inside (h.resumed htodo hinv h.dead_quiet (.inl ⟨?_, hdead, ?_⟩)),
      .of_step (step_resume h.inv.noFault hscript' htodo (by simp [houter]))⟩
    · rw [hresume]
    · rw [hresume]
  · -- the `do_work` of a handler ends, while the other run waits at its own loop
    obtain ⟨htracks, hleft, hhistory, hhandler⟩ :=
      h.tracks.quiet_left .doWork [] h.inv trivial hpending
    have hscript₁ : (n.resume handler .doWork []).script = [] := by
      simp only [Reentrant.resume, hhandler]
      rfl
    have hunwinding : Unwinding client (n.resume handler .doWork []) u dead done := {
      inv := h.inv
      tracks := by
        change (n.system.resume .doWork []).Tracks everyPair
          (freedBy (n.system.resume .doWork []).todo ++ _) _
        rw [hleft]
        exact htracks
      history_eq := hhistory.trans h.history_eq
      suspended_eq := h.suspended_eq
      outer := h.outer
      dead_quiet := h.dead_quiet
      pending_eq := hpending
      script_all := by rw [hscript₁]; rfl
      todo_quiet := by
        change ∀ task ∈ (n.system.resume .doWork []).todo, _
        simp [hleft]
      todo_eq' := htodo
      script_eq' := hscript' }
    exact ⟨u, .unwinding hunwinding, .refl u⟩

/-- The next task of `do_work`, in both runs. -/
theorem Inside.resume (h : Inside client n u dead done) {task : Task Ev} {rest : List (Task Ev)}
    (hscript : n.script = []) (htodo : n.system.todo = task :: rest)
    (hblocked : n.blocked task = false) :
    ∃ u', Follows client (n.resume handler task rest) u' ∧
      Transition.Reachable (step client (leaveOut handler)) u u' := by
  have htodo' : u.system.todo = task :: rest := h.todo_eq ▸ htodo
  have hscript' : u.script = [] := by
    rw [h.script_eq, hscript]
    rfl
  obtain ⟨frame, houter, -⟩ := h.outer
  have hstep : u.step client (leaveOut handler) () = some (u.resume (leaveOut handler) task rest) :=
    step_resume h.inv.noFault hscript' htodo' (by simp [houter])
  have hloop : .doWork ∈ task :: rest := by
    rw [← htodo']
    refine h.loop.resolve_left fun hleft => ?_
    rw [htodo'] at hleft
    cases hleft.1
  by_cases htask : task = .doWork
  · subst htask
    obtain rfl := h.inv.rest_of_doWork htodo'
    cases hpending : u.system.broker.pendingActions with
    | nil => exact h.resume_nil hscript htodo' hpending
    | cons a as =>
      obtain ⟨b, tasks, -, hresume, hinv⟩ := h.inv.doWork_cons htodo' hpending
      refine ⟨_, .inside (h.resumed htodo' hinv (fun f hf => ?_) (.inr ?_)), .of_step hstep⟩
      · -- the `do_work` of a handler carries out a `Publish`
        have hpublish : a.isPublish := by
          have hdead : 2 ≤ n.suspended.length := by
            have := List.length_pos_of_mem hf
            rw [h.suspended_eq, houter, List.length_append, List.length_singleton]
            omega
          simpa [blocked, hdead, h.tracks.broker.pendingActions_eq, hpending] using hblocked
        cases a with
        | publish p ev => exact (h.dead_quiet f hf).publish p ev
        | _ => cases hpublish
      · rw [hresume]
        exact List.mem_append_right _ (List.mem_singleton_self _)
  · obtain ⟨tasks, -, -, -, hleft', -, -, -, htasks⟩ :=
      h.tracks.resume h.inv htodo' (fun _ _ _ _ => rfl) rest
    rw [htasks htask] at hleft'
    refine ⟨_, .inside (h.resumed htodo' (h.inv.resume_pass htodo' htask) h.dead_quiet (.inr ?_)),
      .of_step hstep⟩
    rw [hleft']
    exact (List.mem_cons.mp hloop).resolve_left (Ne.symm htask)

/-- `do_work` returns, in both runs. -/
theorem Inside.pop (h : Inside client n u dead done) {frame : Frame Ev} {frames : List (Frame Ev)}
    (hscript : n.script = []) (htodo : n.system.todo = [])
    (hsuspended : n.suspended = frame :: frames) :
    ∃ u', Follows client (n.pop frame frames) u' ∧
      Transition.Reachable (step client (leaveOut handler)) u u' := by
  have htodo' : u.system.todo = [] := h.todo_eq ▸ htodo
  have hscript' : u.script = [] := by
    rw [h.script_eq, hscript]
    rfl
  obtain ⟨-, rfl, -⟩ := h.loop.resolve_right (by simp [htodo'])
  obtain ⟨outer, houter, hframe⟩ := h.outer
  rw [h.suspended_eq, houter] at hsuspended
  obtain ⟨rfl, rfl⟩ := List.cons.inj hsuspended
  exact ⟨u.pop outer [], .outside (.of_pop h.inv h.tracks h.history_eq htodo' hframe),
    .of_step (step_pop h.inv.noFault hscript' htodo' houter)⟩

/-- A step inside `do_work`, when every call of `do_work` by a handler is harmless. -/
theorem Inside.step (h : Inside client n u dead done) (hharmless : n.harmless client)
    (hstep : Effect client handler n n') :
    ∃ u', Follows client n' u' ∧ Transition.Reachable (step client (leaveOut handler)) u u' := by
  cases hstep with
  | @doWork script hscript =>
    obtain ⟨outer, houter, -⟩ := h.outer
    have hsuspended : n.suspended ≠ [] := by simp [h.suspended_eq, houter]
    simp only [harmless, hscript, Bool.or_eq_true, Bool.and_eq_true, List.isEmpty_iff] at hharmless
    rcases hharmless with (hnil | hpending) | ⟨hall, hnone⟩
    · exact absurd hnil hsuspended
    · exact ⟨u, h.push_idle hscript hpending, .refl u⟩
    · exact h.push_dead hscript hall hnone
  | call hscript hl hcall =>
    obtain ⟨u', hinside, hstep'⟩ := h.call hscript hl hcall
    exact ⟨u', .inside hinside, .of_step hstep'⟩
  | resume hscript htodo hblocked => exact h.resume hscript htodo hblocked
  | pop hscript htodo hsuspended => exact h.pop hscript htodo hsuspended

/-- A step of a `do_work` that found the queue empty. -/
theorem Inside.step_idle {frame : Frame Ev} {frames : List (Frame Ev)}
    (h : Inside client (n.pop frame frames) u dead done) (hscript : n.script = [])
    (hpending : n.system.broker.pendingActions = [])
    (htodo : n.system.todo = [] ∨ n.system.todo = [.doWork])
    (hsuspended : n.suspended = frame :: frames) (hstep : Effect client handler n n') :
    Follows client n' u := by
  cases hstep with
  | doWork hscript' =>
    rw [hscript] at hscript'
    cases hscript'
  | call hscript' =>
    rw [hscript] at hscript'
    cases hscript'
  | @resume task rest _ htodo' =>
    -- the loop of this `do_work` ends at once
    obtain ⟨rfl, rfl⟩ : task = .doWork ∧ rest = [] := by
      rcases htodo with htodo | htodo <;> rw [htodo] at htodo' <;> cases htodo'
      exact ⟨rfl, rfl⟩
    rw [Reentrant.resume,
      n.system.resume_eq_of_none .doWork (OldBroker.doWork_of_nil hpending)]
    exact .idle rfl hpending (.inl rfl) hsuspended h
  | pop _ _ hsuspended' =>
    obtain ⟨rfl, rfl⟩ := List.cons.inj (hsuspended.symm.trans hsuspended')
    exact .inside h

/-- The loop that has been returned to goes on, and calls no handler. -/
theorem Unwinding.resume (h : Unwinding client n u dead done) {task : Task Ev}
    {rest : List (Task Ev)} (htodo : n.system.todo = task :: rest) :
    Unwinding client (n.resume handler task rest) u dead done := by
  have htracks := h.tracks
  have hquiet := h.todo_quiet
  rw [htodo, freedBy_cons, List.append_assoc] at htracks
  rw [htodo] at hquiet
  obtain ⟨hhead, hquiet⟩ := List.forall_mem_cons.mp hquiet
  obtain ⟨htracks', hleft, hhistory, hhandler⟩ :=
    htracks.quiet_left task rest h.inv hhead h.pending_eq
  exact { h with
    tracks := by
      change (n.system.resume task rest).Tracks everyPair
        (freedBy (n.system.resume task rest).todo ++ _) _
      rw [hleft]
      exact htracks'
    history_eq := hhistory.trans h.history_eq
    suspended_eq := h.suspended_eq
    script_all := by
      simp only [Reentrant.resume, hhandler]
      rfl
    todo_quiet := by
      change ∀ t ∈ (n.system.resume task rest).todo, _
      rwa [hleft] }

/-- The `do_work` called from outside returns, and the other run leaves its own loop. -/
theorem Unwinding.leave (h : Unwinding client n u [] done) {frame : Frame Ev}
    {frames : List (Frame Ev)} (htodo : n.system.todo = [])
    (hsuspended : n.suspended = frame :: frames) :
    ∃ u', Follows client (n.pop frame frames) u' ∧
      Transition.Reachable (Reentrant.step client (leaveOut handler)) u u' := by
  obtain ⟨outer, houter, hframe⟩ := h.outer
  rw [h.suspended_eq, houter] at hsuspended
  obtain ⟨rfl, rfl⟩ := List.cons.inj hsuspended
  obtain ⟨hresume, hinv⟩ := h.inv.doWork_nil h.todo_eq' h.pending_eq
  have htracks : n.system.Tracks everyPair [] (u.system.resume .doWork []) := by
    have htracks := h.tracks
    rw [htodo] at htracks
    rw [hresume]
    exact { htracks with }
  have hhistory : n.system.history = (u.system.resume .doWork []).history := by
    rw [hresume]
    exact h.history_eq
  have htodo' : (u.system.resume .doWork []).todo = [] := by rw [hresume]
  have hscript' : (u.resume (leaveOut handler) .doWork []).script = [] := by
    simp only [Reentrant.resume, hresume]
    rfl
  have hfirst : u.step client (leaveOut handler) () =
      some (u.resume (leaveOut handler) .doWork []) :=
    step_resume h.inv.noFault h.script_eq' h.todo_eq' (by simp [houter])
  exact ⟨_, .outside (.of_pop hinv htracks hhistory htodo' hframe),
    .trans (.of_step hfirst) (.of_step (step_pop hinv.noFault hscript' htodo' houter))⟩

/-- A step of the return from the calls of `do_work` inside the handlers. -/
theorem Unwinding.step (h : Unwinding client n u dead done)
    (hstep : Effect client handler n n') :
    ∃ u', Follows client n' u' ∧ Transition.Reachable (step client (leaveOut handler)) u u' := by
  cases hstep with
  | doWork hscript => exact ⟨u, .unwinding (h.push hscript), .refl u⟩
  | @call l script system hscript hl =>
    -- the handlers enqueue nothing any more
    have hall := h.script_all
    rw [hscript, List.all_cons, Bool.and_eq_true] at hall
    cases l with
    | doWork => exact absurd rfl hl.1
    | _ => cases hall.1
  | resume _ htodo => exact ⟨u, .unwinding (h.resume htodo), .refl u⟩
  | pop _ htodo hsuspended =>
    cases dead with
    | nil => exact h.leave htodo hsuspended
    | cons f dead =>
      rw [h.suspended_eq] at hsuspended
      obtain ⟨rfl, rfl⟩ := List.cons.inj hsuspended
      exact ⟨u, .unwinding (h.pop htodo), .refl u⟩

/-- A step, when every call of `do_work` by a handler is harmless. -/
theorem Follows.step (h : Follows client n u) (hharmless : n.harmless client)
    (hstep : n.step client handler () = some n') :
    ∃ u', Follows client n' u' ∧ Transition.Reachable (step client (leaveOut handler)) u u' := by
  have heffect := effect_of_step hstep
  cases h with
  | outside h => exact h.step heffect
  | inside h => exact h.step hharmless heffect
  | idle hscript hpending htodo hsuspended h =>
    exact ⟨u, h.step_idle hscript hpending htodo hsuspended heffect, .refl u⟩
  | unwinding h => exact h.step heffect

end

/-- The two runs have the same history. -/
theorem Follows.history_eq {client : Client Ev H} {n u : Reentrant Ev H} (h : Follows client n u) :
    n.system.history = u.system.history := by
  cases h with
  | outside h => exact h.history_eq
  | inside h => exact h.history_eq
  | idle _ _ _ _ h => exact h.history_eq
  | unwinding h => exact h.history_eq

/-- When the first run has come to its end, so has the second. -/
theorem Follows.finished {client : Client Ev H} {n u : Reentrant Ev H} (h : Follows client n u)
    (hfinished : n.finished) : u.finished := by
  simp only [Reentrant.finished, Bool.and_eq_true, List.isEmpty_iff] at hfinished ⊢
  obtain ⟨⟨hscript, -⟩, hsuspended⟩ := hfinished
  cases h with
  | outside h => exact ⟨⟨h.script_eq ▸ hscript, h.todo_eq'⟩, h.suspended_eq'⟩
  | inside h =>
    obtain ⟨frame, houter, -⟩ := h.outer
    simp [h.suspended_eq, houter] at hsuspended
  | idle _ _ _ hcons _ =>
    rw [hsuspended] at hcons
    cases hcons
  | unwinding h =>
    obtain ⟨frame, houter, -⟩ := h.outer
    simp [h.suspended_eq, houter] at hsuspended

end Reentrant

/-- **Harmless calls of `do_work` by handlers change nothing.** In every run in which every call of
`do_work` by a handler finds the queue empty, or is made when nothing is left of the running action,
every state has the history of a state of the run in which the handlers leave their calls of
`do_work` out; so every consumer has received the same notifications in the same order. When the
client code has come to its end in the first run, it has come to its end in the second. -/
theorem harmless_same_history [SnapshotHandler Ev H] {client : Client Ev H}
    {handler : History Ev → List (Label Ev)} {main : List (Label Ev)} {n : Reentrant Ev H}
    (h : Transition.Reachable
      (Transition.restrict (Reentrant.harmless client) (Reentrant.step client handler))
      (.init client main) n) :
    ∃ u, Transition.Reachable (Reentrant.step client (leaveOut handler)) (.init client main) u ∧
      u.system.history = n.system.history ∧
      (∀ c, u.system.received c = n.system.received c) ∧ (n.finished → u.finished) := by
  have hstep (n : Reentrant Ev H) (l : Unit) (n' u : Reentrant Ev H)
      (hfollows : Reentrant.Follows client n u)
      (hstep : Transition.restrict (Reentrant.harmless client) (Reentrant.step client handler) n l =
        some n') : ∃ u', Reentrant.Follows client n' u' ∧
          Transition.Reachable (Reentrant.step client (leaveOut handler)) u u' := by
    obtain ⟨hharmless, hstep⟩ := Transition.restrict_eq_some.mp hstep
    exact hfollows.step hharmless hstep
  obtain ⟨u, hfollows, hreach⟩ := h.simulation hstep (.outside (.init client main))
  exact ⟨u, hreach, hfollows.history_eq.symm,
    fun c => congrArg (History.received · c) hfollows.history_eq.symm, hfollows.finished⟩

/-- A producer, two consumers and two events. -/
def twoEvents : List (Label ℕ) :=
  [.makeProducer 0, .makeConsumer 0, .makeConsumer 1, .doWork, .publish 0 5, .publish 0 6, .doWork]

/-- The handler that is called for the `k`-th notification calls `do_work`. -/
def workingHandler (k : ℕ) (h : History ℕ) : List (Label ℕ) :=
  if h.dispatches.length = k then [.doWork] else []

/-- The events that the handler of the consumer `c` was called with. -/
def Reentrant.eventsOf (n : Reentrant Ev H) (c : ConsumerPtr) : List (List Ev) :=
  (n.system.received c).map (·.notification.events)

/-- The handler of the second consumer calls `do_work` when it gets the first event. -/
theorem harmless_same_history_of_last :
    ∃ n u, Transition.run (Transition.restrict (Reentrant.harmless oneStream)
        (Reentrant.step oneStream (workingHandler 4))) (.init oneStream twoEvents)
        (List.replicate 27 ()) = some n ∧
      Transition.Reachable (Reentrant.step oneStream (leaveOut (workingHandler 4)))
        (.init oneStream twoEvents) u ∧
      n.finished ∧ u.finished ∧ n.eventsOf 1 = [[], [5], [6]] ∧
      u.system.received 1 = n.system.received 1 := by
  have hrun : (Transition.run (Transition.restrict (Reentrant.harmless oneStream)
      (Reentrant.step oneStream (workingHandler 4))) (.init oneStream twoEvents)
      (List.replicate 27 ())).map (fun n => (n.finished, n.eventsOf 1)) =
      some (true, [[], [5], [6]]) := rfl
  obtain ⟨n, hn, heq⟩ := Option.map_eq_some_iff.mp hrun
  simp only [Prod.mk.injEq] at heq
  obtain ⟨u, hu, -, hreceived, hfinished⟩ := harmless_same_history ⟨_, hn⟩
  exact ⟨n, u, hn, hu, heq.1, hfinished heq.1, heq.2, hreceived 1⟩

/-- The handler of the first consumer calls `do_work` when it gets the first event: the second
consumer gets the second event first. -/
theorem nested_do_work_reorders :
    ∃ n u, Transition.run (Reentrant.step oneStream (workingHandler 3)) (.init oneStream twoEvents)
        (List.replicate 27 ()) = some n ∧
      Transition.run (Reentrant.step oneStream (leaveOut (workingHandler 3)))
        (.init oneStream twoEvents) (List.replicate 24 ()) = some u ∧
      n.finished ∧ u.finished ∧ n.eventsOf 1 = [[], [6], [5]] ∧ u.eventsOf 1 = [[], [5], [6]] :=
  ⟨_, _, rfl, rfl, rfl, rfl, rfl, rfl⟩

end Keryx
