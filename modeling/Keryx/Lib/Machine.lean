import Mathlib.Data.List.Basic

/-!
# Deterministic machines with outputs

A machine consumes a log of actions: each action changes the state and puts out a list of
observations. `ok` says which actions a state admits; a log is admissible from a state when every
action is admitted by the state it is consumed in.

## Main definitions

* `Machine.after`, `Machine.outputs` — the state after a log, and what consuming it puts out.
* `Machine.Admits` — the admissible logs.

## Main results

* `Machine.Admits.invariant` — what the admitted actions preserve holds after every admissible log.
-/

/-- A machine with states `S`, actions `A` and observations `O`. -/
structure Machine (S A O : Type*) where
  next : S → A → S
  out : S → A → List O
  ok : S → A → Prop

namespace Machine

variable {S A O : Type*} (M : Machine S A O)

/-- The state after a log. -/
def after (s : S) (as : List A) : S := as.foldl M.next s

/-- What consuming a log puts out. -/
def outputs : S → List A → List O
  | _, [] => []
  | s, a :: as => M.out s a ++ outputs (M.next s a) as

/-- The logs whose every action is admitted by the state it is consumed in. -/
def Admits : S → List A → Prop
  | _, [] => True
  | s, a :: as => M.ok s a ∧ Admits (M.next s a) as

@[simp] theorem after_nil (s : S) : M.after s [] = s := rfl

@[simp] theorem after_cons (s : S) (a : A) (as : List A) :
    M.after s (a :: as) = M.after (M.next s a) as := rfl

theorem after_append (s : S) (as as' : List A) :
    M.after s (as ++ as') = M.after (M.after s as) as' := List.foldl_append

theorem after_concat (s : S) (as : List A) (a : A) :
    M.after s (as ++ [a]) = M.next (M.after s as) a := M.after_append s as [a]

theorem outputs_append (s : S) (as as' : List A) :
    M.outputs s (as ++ as') = M.outputs s as ++ M.outputs (M.after s as) as' := by
  induction as generalizing s with
  | nil => rfl
  | cons a as ih => rw [List.cons_append, outputs, outputs, ih, after_cons, List.append_assoc]

theorem outputs_concat (s : S) (as : List A) (a : A) :
    M.outputs s (as ++ [a]) = M.outputs s as ++ M.out (M.after s as) a := by
  rw [outputs_append, outputs, outputs, List.append_nil]

theorem admits_append (s : S) (as as' : List A) :
    M.Admits s (as ++ as') ↔ M.Admits s as ∧ M.Admits (M.after s as) as' := by
  induction as generalizing s with
  | nil => simp [Admits]
  | cons a as ih => rw [List.cons_append, Admits, Admits, ih, after_cons, and_assoc]

theorem admits_concat (s : S) (as : List A) (a : A) :
    M.Admits s (as ++ [a]) ↔ M.Admits s as ∧ M.ok (M.after s as) a := by
  rw [admits_append, Admits, Admits, and_true]

variable {M}

/-- **Invariant rule.** What holds at the start of an admissible log and is preserved by the
admitted actions holds after it. -/
theorem Admits.invariant {P : S → Prop} (hstep : ∀ s a, P s → M.ok s a → P (M.next s a)) {s : S}
    {as : List A} (h : M.Admits s as) (hs : P s) : P (M.after s as) := by
  induction as generalizing s with
  | nil => exact hs
  | cons a as ih => exact ih h.2 (hstep s a hs h.1)

end Machine
