import Mathlib.Data.List.Induction
import Mathlib.Data.Nat.Notation

set_option relaxedAutoImplicit false
set_option autoImplicit false

/-!
# Scheduled machines

A deterministic machine whose nondeterminism is all in a list of inputs: which thread runs
next, what a system call returns, which request arrives.  One step consumes one input and
may emit events; a run over an input list yields the reached state and the trace of all
events emitted on the way.

## Main definitions

* `Machine`, `Machine.run` — a step function, and its run over an input list.
* `Machine.Meets` — every step of a run meets a condition on the state before it and the
  input it consumes.

## Main results

* `Machine.run_append`, `Machine.run_snoc` — runs compose, traces concatenate.
* `Machine.run_induction` — the invariant rule: what holds of a state with the empty trace and
  is kept by every step holds of every run.
* `Machine.run_induction_meets` — the same rule for the runs that meet a condition.
* `Machine.exists_run_of_trace` — every point of a trace is a point of the run.
-/

/-- A machine: one step takes a state and an input to the next state and the events it emits. -/
structure Machine (State Input Event : Type*) where
  /-- The step function. -/
  step : State → Input → State × List Event

namespace Machine

variable {State Input Event : Type*} (M : Machine State Input Event)

/-- The run over an input list: the state reached and the events emitted on the way. -/
def run (s : State) : List Input → State × List Event
  | [] => (s, [])
  | i :: is =>
    let next := M.step s i
    let rest := run next.1 is
    (rest.1, next.2 ++ rest.2)

/-- Every step of the run meets a condition on the state it starts in and its input. -/
def Meets (ok : State → Input → Prop) (s : State) : List Input → Prop
  | [] => True
  | i :: is => ok s i ∧ Meets ok (M.step s i).1 is

instance decidableMeets (ok : State → Input → Prop) [∀ s i, Decidable (ok s i)] :
    (s : State) → (is : List Input) → Decidable (M.Meets ok s is)
  | _, [] => isTrue trivial
  | s, i :: is =>
    haveI := decidableMeets ok (M.step s i).1 is
    inferInstanceAs (Decidable (ok s i ∧ M.Meets ok (M.step s i).1 is))

@[simp] theorem run_nil (s : State) : M.run s [] = (s, []) := rfl

@[simp] theorem run_cons (s : State) (i : Input) (is : List Input) :
    M.run s (i :: is) = ((M.run (M.step s i).1 is).1,
      (M.step s i).2 ++ (M.run (M.step s i).1 is).2) := rfl

/-- A run over a concatenated input list is the second run after the first. -/
theorem run_append (s : State) (is js : List Input) :
    M.run s (is ++ js) = ((M.run (M.run s is).1 js).1,
      (M.run s is).2 ++ (M.run (M.run s is).1 js).2) := by
  induction is generalizing s with
  | nil => simp
  | cons i is ih => simp [ih, List.append_assoc]

/-- One more input is one more step. -/
theorem run_snoc (s : State) (is : List Input) (i : Input) :
    M.run s (is ++ [i]) = ((M.step (M.run s is).1 i).1,
      (M.run s is).2 ++ (M.step (M.run s is).1 i).2) := by
  simp [run_append]

/-- A condition on the steps splits along a concatenated input list. -/
theorem meets_append (ok : State → Input → Prop) (s : State) (is js : List Input) :
    M.Meets ok s (is ++ js) ↔ M.Meets ok s is ∧ M.Meets ok (M.run s is).1 js := by
  induction is generalizing s with
  | nil => simp [Meets]
  | cons i is ih => simp [Meets, ih, and_assoc]

/-- **The invariant rule.**  A property of state and trace that holds at the start and is kept
by every step holds after every run. -/
theorem run_induction {P : State → List Event → Prop} {s : State} (start : P s [])
    (step : ∀ s' tr i, P s' tr → P (M.step s' i).1 (tr ++ (M.step s' i).2)) (is : List Input) :
    P (M.run s is).1 (M.run s is).2 := by
  induction is using List.reverseRecOn with
  | nil => exact start
  | append_singleton is i ih => rw [run_snoc]; exact step _ _ _ ih

/-- The invariant rule for the runs whose steps all meet a condition. -/
theorem run_induction_meets {ok : State → Input → Prop} {P : State → List Event → Prop}
    {s : State} (start : P s [])
    (step : ∀ s' tr i, ok s' i → P s' tr → P (M.step s' i).1 (tr ++ (M.step s' i).2))
    (is : List Input) (h : M.Meets ok s is) : P (M.run s is).1 (M.run s is).2 := by
  induction is using List.reverseRecOn with
  | nil => exact start
  | append_singleton is i ih =>
    rw [meets_append] at h
    rw [run_snoc]
    exact step _ _ _ h.2.1 (ih h.1)

/-- When no step emits more than one event, every point of a trace is a point of the run. -/
theorem exists_run_of_trace (hstep : ∀ s i, (M.step s i).2.length ≤ 1) {s : State}
    {is : List Input} {t₁ t₂ : List Event} (h : (M.run s is).2 = t₁ ++ t₂) :
    ∃ is₁ is₂, is = is₁ ++ is₂ ∧ (M.run s is₁).2 = t₁ := by
  induction is generalizing s t₁ with
  | nil =>
    rw [run_nil] at h
    exact ⟨[], [], rfl, (List.append_eq_nil_iff.mp h.symm).1.symm⟩
  | cons i is ih =>
    cases t₁ with
    | nil => exact ⟨[], i :: is, rfl, rfl⟩
    | cons e t₁ =>
      change (M.step s i).2 ++ (M.run (M.step s i).1 is).2 = e :: t₁ ++ t₂ at h
      have hlen := hstep s i
      rcases hev : (M.step s i).2 with _ | ⟨e', _ | ⟨e'', es⟩⟩ <;> rw [hev] at h hlen
      · obtain ⟨is₁, is₂, rfl, ht⟩ := @ih _ (e :: t₁) h
        exact ⟨i :: is₁, is₂, rfl, by simp [hev, ht]⟩
      · obtain ⟨rfl, hrest⟩ : e' = e ∧ (M.run (M.step s i).1 is).2 = t₁ ++ t₂ := by simpa using h
        obtain ⟨is₁, is₂, rfl, ht⟩ := ih hrest
        exact ⟨i :: is₁, is₂, rfl, by simp [hev, ht]⟩
      · simp at hlen

end Machine
