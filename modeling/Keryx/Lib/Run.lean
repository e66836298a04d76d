import Mathlib.Algebra.GroupWithZero.Nat
import Mathlib.Data.List.Basic

/-!
# Runs of labelled transition systems

A transition system is given by a partial function `step : σ → ℓ → Option σ`: the label says what
happens, and the value is `none` when it cannot happen in that state. All nondeterminism is in the
labels, so a system is executable and a run is a list of labels.

## Main definitions

* `Transition.run` — the state after a list of labels, if all of them can happen.
* `Transition.Reachable` — the states after some list of labels.
* `Transition.restrict` — the runs whose every step is taken in a state of a given kind.
* `Transition.Traces` — the labels of one system that the labels of another stand for.
* `Transition.observe` — what is observed along a run.

## Main results

* `Transition.run_induction` — what every step preserves holds along every run.
* `Transition.exists_step_of_run` — what comes to hold along a run comes to hold at one step.
* `Transition.run_potential` — what the steps of a run take from a potential, and what they add.
* `Transition.run_balance` — the same, when every step takes and adds exactly its part.
* `Transition.exists_run_replicate` — a step that lowers a potential is repeated until it is done.
* `Transition.exists_prefix_of_cost` — a run that costs all of a potential comes to its end.
* `Transition.Reachable.invariant` — the same for the reachable states.
* `Transition.Reachable.simulation` — a relation whose steps are matched by runs relates every
  reachable state to a reachable state.
* `Transition.run_refines` — a map that takes steps to steps takes runs to runs.
* `Transition.run_observe` — a property of the state and of what has been observed so far.
* `Transition.run_labels` — a property of the state and of the labels so far.
-/

namespace Transition

variable {σ ℓ : Type*} (step : σ → ℓ → Option σ)

/-- The state after the labels `ls` from the state `s`. -/
def run (s : σ) : List ℓ → Option σ
  | [] => some s
  | l :: ls => (step s l).bind fun s' => run s' ls

@[simp] theorem run_cons (s : σ) (l : ℓ) (ls : List ℓ) :
    run step s (l :: ls) = (step s l).bind fun s' => run step s' ls := rfl

theorem run_append (s : σ) (ls ls' : List ℓ) :
    run step s (ls ++ ls') = (run step s ls).bind fun s' => run step s' ls' := by
  induction ls generalizing s with
  | nil => rfl
  | cons l ls ih =>
    rw [List.cons_append, run_cons, run_cons]
    cases step s l with
    | none => rfl
    | some s' => exact ih s'

/-- A run is its first steps followed by the rest. -/
theorem run_append_eq_some {s s'' : σ} {ls ls' : List ℓ} :
    run step s (ls ++ ls') = some s'' ↔
      ∃ s', run step s ls = some s' ∧ run step s' ls' = some s'' := by
  rw [run_append, Option.bind_eq_some_iff]

theorem run_cons_eq_some {s s'' : σ} {l : ℓ} {ls : List ℓ} :
    run step s (l :: ls) = some s'' ↔
      ∃ s', step s l = some s' ∧ run step s' ls = some s'' := by
  rw [run_cons, Option.bind_eq_some_iff]

/-- **Induction along a run.** A property that every step preserves, and that holds at the start of
a run, holds at its end. -/
theorem run_induction {P : σ → Prop}
    (hstep : ∀ s l s', P s → step s l = some s' → P s') {s s' : σ} {ls : List ℓ}
    (hs : P s) (hrun : run step s ls = some s') : P s' := by
  induction ls generalizing s with
  | nil =>
    obtain rfl : s = s' := Option.some.inj hrun
    exact hs
  | cons l ls ih =>
    obtain ⟨t, ht, hrest⟩ := (run_cons_eq_some step).mp hrun
    exact ih (hstep s l t hs ht) hrest

/-- Induction along a run whose labels are all of a given kind. -/
theorem run_induction_of_forall {P : σ → Prop} {Q : ℓ → Prop}
    (hstep : ∀ s l s', Q l → P s → step s l = some s' → P s') {s s' : σ} {ls : List ℓ}
    (hls : ∀ l ∈ ls, Q l) (hs : P s) (hrun : run step s ls = some s') : P s' := by
  induction ls generalizing s with
  | nil =>
    obtain rfl : s = s' := Option.some.inj hrun
    exact hs
  | cons l ls ih =>
    obtain ⟨hl, hls⟩ := List.forall_mem_cons.mp hls
    obtain ⟨t, ht, hrest⟩ := (run_cons_eq_some step).mp hrun
    exact ih hls (hstep s l t hl hs ht) hrest

/-- A property that does not hold at the start of a run and holds at its end comes to hold at one of
its steps. -/
theorem exists_step_of_run {P : σ → Prop} {s s' : σ} {ls : List ℓ} (hs : ¬ P s) (hs' : P s')
    (hrun : run step s ls = some s') :
    ∃ ls₁ l ls₂ t t', ls = ls₁ ++ l :: ls₂ ∧ run step s ls₁ = some t ∧ step t l = some t' ∧
      ¬ P t ∧ P t' := by
  induction ls generalizing s with
  | nil =>
    obtain rfl : s = s' := Option.some.inj hrun
    exact absurd hs' hs
  | cons l ls ih =>
    obtain ⟨t, ht, hrest⟩ := (run_cons_eq_some step).mp hrun
    by_cases hP : P t
    · exact ⟨[], l, ls, s, t, rfl, rfl, ht, hs, hP⟩
    · obtain ⟨ls₁, l', ls₂, t₁, t₂, rfl, hrun₁, hfirst⟩ := ih hP hrest
      exact ⟨l :: ls₁, l', ls₂, t₁, t₂, rfl, (run_cons_eq_some step).mpr ⟨t, ht, hrun₁⟩, hfirst⟩

/-- A property that no step brings about, and that holds at the end of a run, holds at its start. -/
theorem run_backward {I Q : σ → Prop} (hI : ∀ s l s', I s → step s l = some s' → I s')
    (hQ : ∀ s l s', I s → step s l = some s' → Q s' → Q s) {s s' : σ} {ls : List ℓ} (hs : I s)
    (hs' : Q s') (hrun : run step s ls = some s') : Q s := by
  induction ls generalizing s with
  | nil =>
    obtain rfl : s = s' := Option.some.inj hrun
    exact hs'
  | cons l ls ih =>
    obtain ⟨t, ht, hrest⟩ := (run_cons_eq_some step).mp hrun
    exact hQ s l t hs ht (ih (hI s l t hs ht) hrest)

/-- **Potential rule.** Every step takes `cost` from the potential `f` and adds at most `gain`, as
long as the state after it satisfies `Q`, which no step brings about. -/
theorem run_potential {I Q : σ → Prop} (hI : ∀ s l s', I s → step s l = some s' → I s')
    (hQ : ∀ s l s', I s → step s l = some s' → Q s' → Q s) {f : σ → ℕ} {cost gain : ℓ → ℕ}
    (hstep : ∀ s l s', I s → Q s' → step s l = some s' → cost l + f s' ≤ f s + gain l)
    {s s' : σ} {ls : List ℓ} (hs : I s) (hs' : Q s') (hrun : run step s ls = some s') :
    (ls.map cost).sum + f s' ≤ f s + (ls.map gain).sum := by
  induction ls generalizing s with
  | nil =>
    obtain rfl : s = s' := Option.some.inj hrun
    simp
  | cons l ls ih =>
    obtain ⟨t, ht, hrest⟩ := (run_cons_eq_some step).mp hrun
    have hIt := hI s l t hs ht
    have hfirst := hstep s l t hs (run_backward step hI hQ hIt hs' hrest) ht
    have hrest := ih hIt hrest
    simp only [List.map_cons, List.sum_cons]
    omega

/-- **Balance rule.** Every step takes exactly `cost` from the potential `f` and adds `gain`. -/
theorem run_balance {I : σ → Prop} (hI : ∀ s l s', I s → step s l = some s' → I s') {f : σ → ℕ}
    {cost gain : ℓ → ℕ}
    (hstep : ∀ s l s', I s → step s l = some s' → cost l + f s' = f s + gain l) {s s' : σ}
    {ls : List ℓ} (hs : I s) (hrun : run step s ls = some s') :
    (ls.map cost).sum + f s' = f s + (ls.map gain).sum := by
  induction ls generalizing s with
  | nil =>
    obtain rfl : s = s' := Option.some.inj hrun
    simp
  | cons l ls ih =>
    obtain ⟨t, ht, hrest⟩ := (run_cons_eq_some step).mp hrun
    have hfirst := hstep s l t hs ht
    have hrest := ih (hI s l t hs ht) hrest
    simp only [List.map_cons, List.sum_cons]
    omega

/-- **Descent rule.** A step that can be taken until `P` holds, and that lowers the potential `f`,
brings `P` about when it is repeated. -/
theorem exists_run_replicate {I P : σ → Prop} {f : σ → ℕ} {l : ℓ}
    (hstep : ∀ s, I s → ¬ P s → ∃ s', step s l = some s' ∧ I s' ∧ f s' < f s) {s : σ}
    (hs : I s) : ∃ k s', k ≤ f s ∧ run step s (List.replicate k l) = some s' ∧ I s' ∧ P s' := by
  induction hf : f s using Nat.strongRecOn generalizing s with
  | ind m ih =>
    by_cases hP : P s
    · exact ⟨0, s, Nat.zero_le _, rfl, hs, hP⟩
    · obtain ⟨t, ht, hIt, hlt⟩ := hstep s hs hP
      obtain ⟨k, s', hk, hrun, hIs', hPs'⟩ := ih (f t) (hf ▸ hlt) hIt rfl
      exact ⟨k + 1, s', by omega, (run_cons_eq_some step).mpr ⟨t, ht, hrun⟩, hIs', hPs'⟩

/-- **Progress rule.** As long as `P` does not hold, every step takes its `cost` from the potential
`f`, and `P` holds when nothing is left of it. Then a run that costs all of it comes to `P`. -/
theorem exists_prefix_of_cost {I P : σ → Prop} (hI : ∀ s l s', I s → step s l = some s' → I s')
    {f : σ → ℕ} {cost : ℓ → ℕ}
    (hstep : ∀ s l s', I s → ¬ P s → step s l = some s' → f s' + cost l ≤ f s)
    (hzero : ∀ s, f s = 0 → P s) {s s' : σ} {ls : List ℓ} (hs : I s)
    (hrun : run step s ls = some s') (hle : f s ≤ (ls.map cost).sum) :
    ∃ ls₁ ls₂ s₁, ls = ls₁ ++ ls₂ ∧ run step s ls₁ = some s₁ ∧ P s₁ := by
  induction ls generalizing s with
  | nil => exact ⟨[], [], s, rfl, rfl, hzero s (Nat.le_zero.mp hle)⟩
  | cons l ls ih =>
    by_cases hP : P s
    · exact ⟨[], l :: ls, s, rfl, rfl, hP⟩
    · obtain ⟨t, ht, hrest⟩ := (run_cons_eq_some step).mp hrun
      have hcost := hstep s l t hs hP ht
      rw [List.map_cons, List.sum_cons] at hle
      obtain ⟨ls₁, ls₂, s₁, rfl, hrun₁, hP₁⟩ := ih (hI s l t hs ht) hrest (by omega)
      exact ⟨l :: ls₁, ls₂, s₁, rfl, (run_cons_eq_some step).mpr ⟨t, ht, hrun₁⟩, hP₁⟩

/-- What is observed along a run, when the step with the label `l` from the state `t` shows
`f t l`. -/
def observe {ω : Type*} (f : σ → ℓ → List ω) (s : σ) : List ℓ → List ω
  | [] => []
  | l :: ls => f s l ++ (step s l).elim [] fun s' => observe f s' ls

/-- **Observation rule.** A property of the state and of what has been observed so far, which every
step preserves. -/
theorem run_observe {ω : Type*} {f : σ → ℓ → List ω} {P : σ → List ω → Prop}
    (hstep : ∀ s l s' os, P s os → step s l = some s' → P s' (os ++ f s l)) {s s' : σ}
    {ls : List ℓ} {os : List ω} (hs : P s os) (hrun : run step s ls = some s') :
    P s' (os ++ observe step f s ls) := by
  induction ls generalizing s os with
  | nil =>
    obtain rfl : s = s' := Option.some.inj hrun
    rwa [observe, List.append_nil]
  | cons l ls ih =>
    obtain ⟨t, ht, hrest⟩ := (run_cons_eq_some step).mp hrun
    rw [observe, ht, Option.elim_some, ← List.append_assoc]
    exact ih (hstep s l t os hs ht) hrest

/-- **Label rule.** A property of the state and of the labels so far, which every step preserves. -/
theorem run_labels {P : σ → List ℓ → Prop}
    (hstep : ∀ s l s' ls, P s ls → step s l = some s' → P s' (ls ++ [l])) {s s' : σ}
    {ls ls' : List ℓ} (hs : P s ls) (hrun : run step s ls' = some s') : P s' (ls ++ ls') := by
  induction ls' generalizing s ls with
  | nil =>
    obtain rfl : s = s' := Option.some.inj hrun
    rwa [List.append_nil]
  | cons l ls' ih =>
    obtain ⟨t, ht, hrest⟩ := (run_cons_eq_some step).mp hrun
    rw [List.append_cons]
    exact ih (hstep s l t ls hs ht) hrest

/-- The states that some run from `s₀` ends in. -/
def Reachable (s₀ s : σ) : Prop := ∃ ls, run step s₀ ls = some s

variable {step}

theorem Reachable.refl (s : σ) : Reachable step s s := ⟨[], rfl⟩

theorem Reachable.trans {s s' s'' : σ} (h : Reachable step s s') (h' : Reachable step s' s'') :
    Reachable step s s'' := by
  obtain ⟨ls, hls⟩ := h
  obtain ⟨ls', hls'⟩ := h'
  exact ⟨ls ++ ls', (run_append_eq_some step).mpr ⟨s', hls, hls'⟩⟩

theorem Reachable.of_step {s s' : σ} {l : ℓ} (h : step s l = some s') : Reachable step s s' :=
  ⟨[l], (run_cons_eq_some step).mpr ⟨s', h, rfl⟩⟩

/-- **Invariant rule.** A property of the initial state that every step preserves holds in every
reachable state. -/
theorem Reachable.invariant {P : σ → Prop}
    (hstep : ∀ s l s', P s → step s l = some s' → P s') {s₀ s : σ} (h₀ : P s₀)
    (h : Reachable step s₀ s) : P s := by
  obtain ⟨ls, hls⟩ := h
  exact run_induction step hstep h₀ hls

/-- **Simulation rule.** If every step from related states is matched by a run of another system,
so is every run. -/
theorem Reachable.simulation {τ ℓ' : Type*} {step' : τ → ℓ' → Option τ} {R : σ → τ → Prop}
    (hstep : ∀ s l s' t, R s t → step s l = some s' → ∃ t', R s' t' ∧ Reachable step' t t')
    {s s' : σ} {t : τ} (h : Reachable step s s') (ht : R s t) :
    ∃ t', R s' t' ∧ Reachable step' t t' := by
  refine h.invariant (P := fun s' => ∃ t', R s' t' ∧ Reachable step' t t') ?_ ⟨t, ht, .refl t⟩
  rintro s₁ l s₂ ⟨t₁, ht₁, hreach⟩ hs
  obtain ⟨t₂, ht₂, hreach'⟩ := hstep s₁ l s₂ t₁ ht₁ hs
  exact ⟨t₂, ht₂, hreach.trans hreach'⟩

section Refinement

variable {τ ℓ' : Type*}

/-- The labels `ls'` are those that some of the labels `ls` stand for, in order; the others stand
for nothing. -/
inductive Traces (O : ℓ → ℓ' → Prop) : List ℓ → List ℓ' → Prop
  | nil : Traces O [] []
  | skip {l ls ls'} (h : Traces O ls ls') : Traces O (l :: ls) ls'
  | take {l l' ls ls'} (hl : O l l') (h : Traces O ls ls') : Traces O (l :: ls) (l' :: ls')

/-- Every label of a trace is one that some label of the run stands for. -/
theorem Traces.exists_mem {O : ℓ → ℓ' → Prop} {ls : List ℓ} {ls' : List ℓ'} (h : Traces O ls ls')
    {l' : ℓ'} (hl' : l' ∈ ls') : ∃ l ∈ ls, O l l' := by
  induction h with
  | nil => cases hl'
  | skip _ ih =>
    obtain ⟨l, hl, hO⟩ := ih hl'
    exact ⟨l, List.mem_cons_of_mem _ hl, hO⟩
  | take hO _ ih =>
    rcases List.mem_cons.mp hl' with rfl | hl'
    · exact ⟨_, List.mem_cons_self, hO⟩
    · obtain ⟨l, hl, hO⟩ := ih hl'
      exact ⟨l, List.mem_cons_of_mem _ hl, hO⟩

/-- **Refinement rule.** The map `f` takes every step to no step or to one step that its label
stands for, as long as the state after it satisfies `Q`, which no step brings about. Then it takes
every run that ends in `Q` to a run. -/
theorem run_refines {step' : τ → ℓ' → Option τ} (f : σ → τ) {O : ℓ → ℓ' → Prop} {I Q : σ → Prop}
    (hI : ∀ s l s', I s → step s l = some s' → I s')
    (hQ : ∀ s l s', I s → step s l = some s' → Q s' → Q s)
    (hstep : ∀ s l s', I s → Q s' → step s l = some s' →
      f s' = f s ∨ ∃ l', O l l' ∧ step' (f s) l' = some (f s'))
    {s s' : σ} {ls : List ℓ} (hs : I s) (hs' : Q s') (hrun : run step s ls = some s') :
    ∃ ls', Traces O ls ls' ∧ run step' (f s) ls' = some (f s') := by
  induction ls generalizing s with
  | nil =>
    obtain rfl : s = s' := Option.some.inj hrun
    exact ⟨[], .nil, rfl⟩
  | cons l ls ih =>
    obtain ⟨t, ht, hrest⟩ := (run_cons_eq_some step).mp hrun
    have hIt := hI s l t hs ht
    obtain ⟨ls', htraces, hrun'⟩ := ih hIt hrest
    rcases hstep s l t hs (run_backward step hI hQ hIt hs' hrest) ht with heq | ⟨l', hl', heq⟩
    · exact ⟨ls', .skip htraces, heq ▸ hrun'⟩
    · exact ⟨l' :: ls', .take hl' htraces, (run_cons_eq_some step').mpr ⟨f t, heq, hrun'⟩⟩

end Refinement

/-- The steps that are taken in states that `P` accepts. -/
def restrict (P : σ → Bool) (step : σ → ℓ → Option σ) (s : σ) (l : ℓ) : Option σ :=
  if P s then step s l else none

theorem restrict_eq_some {P : σ → Bool} {s s' : σ} {l : ℓ} :
    restrict P step s l = some s' ↔ P s ∧ step s l = some s' := Option.ite_none_right_eq_some

end Transition
