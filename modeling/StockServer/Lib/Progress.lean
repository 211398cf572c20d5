import Mathlib.Algebra.BigOperators.Group.Finset.Basic
import Mathlib.Data.Fintype.Basic
import Mathlib.Data.Nat.Count
import Mathlib.Order.WellFounded
import StockServer.Lib.Machine

set_option relaxedAutoImplicit false
set_option autoImplicit false

/-!
# Progress of scheduled machines

What a machine reaches under every fair schedule, one that gives each agent a turn again and
again.  There are two rules.  A step that changes the state is an action.  If every action lowers a
measure, and some agent can act as long as the goal is not reached, the goal is reached.  And if
nobody raises a measure, and one agent lowers it at each of its turns, the goal is reached.

## Main definitions

* `Machine.after` — the state after the first inputs of an infinite schedule.
* `Machine.Fair` — every agent gets a turn again and again.
* `Machine.LeadsTo` — what every fair schedule reaches from a condition.
* `Machine.Progress` — an invariant, a goal that is kept, a measure and agents.
* `Machine.recorded` — the machine that keeps its trace in its state.

## Main results

* `Machine.after_eq_run`, `Machine.recorded_after` — the states of a schedule are those of the runs
  of its beginnings.
* `Machine.LeadsTo.of_actions`, `Machine.LeadsTo.of_agent` — the two rules.
* `Machine.Progress.count_actions_le` — the bound on the number of actions.
* `Machine.Progress.reaches` — a fair schedule reaches the goal and stays there.
* `sum_add_of_eq_off` — a measure that is a sum over agents changes with the agent that acts.
-/

namespace Machine

variable {State Input Event Agent : Type*} (M : Machine State Input Event)

/-- The state after the first `n` inputs of a schedule. -/
def after (s : State) (σ : ℕ → Input) : ℕ → State
  | 0 => s
  | n + 1 => (M.step (after s σ n) (σ n)).1

@[simp] theorem after_zero (s : State) (σ : ℕ → Input) : M.after s σ 0 = s := rfl

theorem after_succ (s : State) (σ : ℕ → Input) (n : ℕ) :
    M.after s σ (n + 1) = (M.step (M.after s σ n) (σ n)).1 := rfl

/-- The states of a schedule are those of the runs of its beginnings. -/
theorem after_eq_run (s : State) (σ : ℕ → Input) (n : ℕ) :
    M.after s σ n = (M.run s ((List.range n).map σ)).1 := by
  induction n with
  | zero => rfl
  | succ n ih =>
    rw [List.range_succ, List.map_append, List.map_singleton, run_snoc, after_succ, ih]

/-- A schedule from some point on. -/
theorem after_add (s : State) (σ : ℕ → Input) (n m : ℕ) :
    M.after s σ (n + m) = M.after (M.after s σ n) (fun k => σ (n + k)) m := by
  induction m with
  | zero => rfl
  | succ m ih => rw [← Nat.add_assoc, after_succ, after_succ, ih]

/-- The machine with its trace in its state. -/
def recorded : Machine (State × List Event) Input Event where
  step s i := (((M.step s.1 i).1, s.2 ++ (M.step s.1 i).2), (M.step s.1 i).2)

/-- What the machine with its trace has recorded is the trace of the run. -/
theorem recorded_after (s : State) (trace : List Event) (σ : ℕ → Input) (n : ℕ) :
    M.recorded.after (s, trace) σ n = ((M.run s ((List.range n).map σ)).1,
      trace ++ (M.run s ((List.range n).map σ)).2) := by
  induction n with
  | zero => simp
  | succ n ih =>
    rw [List.range_succ, List.map_append, List.map_singleton, run_snoc, after_succ, ih,
      ← List.append_assoc]
    rfl

/-- Every agent gets a turn again and again. -/
def Fair (turn : Agent → Input → Prop) (σ : ℕ → Input) : Prop :=
  ∀ a n, ∃ m, n ≤ m ∧ turn a (σ m)

/-- A fair schedule is fair from any point on. -/
theorem Fair.shift {turn : Agent → Input → Prop} {σ : ℕ → Input} (h : Fair turn σ) (n : ℕ) :
    Fair turn fun k => σ (n + k) := by
  intro a k
  obtain ⟨m, hm, hturn⟩ := h a (n + k)
  have hsame : n + (m - n) = m := by omega
  exact ⟨m - n, by omega, by simpa only [hsame] using hturn⟩

/-! ## What fair schedules reach -/

/-- From every state in which `p` holds, every fair schedule reaches one in which `q` does. -/
def LeadsTo (turn : Agent → Input → Prop) (p q : State → Prop) : Prop :=
  ∀ s σ, Fair turn σ → p s → ∃ n, q (M.after s σ n)

namespace LeadsTo

variable {M} {p q : State → Prop} (measure : State → ℕ) {turn : Agent → Input → Prop}

/-- **The rule of actions.**  The condition is kept; until the goal is reached every action lowers
the measure, and some agent acts at any turn.

**Proof sketch.** If the goal were never reached, from some point on nobody would act, since the
measure cannot fall for ever.  But some agent acts at its next turn. -/
theorem of_actions (keeps : ∀ s i, p s → p (M.step s i).1)
    (lowers : ∀ s i, p s → ¬ q s →
      (M.step s i).1 = s ∨ q (M.step s i).1 ∨ measure (M.step s i).1 < measure s)
    (acts : ∀ s, p s → ¬ q s → ∃ a, ∀ i, turn a i → (M.step s i).1 ≠ s) :
    M.LeadsTo turn p q := by
  intro s σ hfair hs
  by_contra hnever
  rw [not_exists] at hnever
  have hkeeps : ∀ n, p (M.after s σ n) := by
    intro n
    induction n with
    | zero => exact hs
    | succ n ih => exact keeps _ _ ih
  -- the measure of some state of the schedule is the least
  obtain ⟨n, hn⟩ : ∃ n, ∀ m, measure (M.after s σ n) ≤ measure (M.after s σ m) := by
    obtain ⟨n, -, hn⟩ := WellFounded.has_min
      (InvImage.wf (fun n => measure (M.after s σ n)) Nat.lt_wfRel.wf) Set.univ ⟨0, trivial⟩
    exact ⟨n, fun m => Nat.not_lt.mp (hn m trivial)⟩
  have hstill : ∀ m, n ≤ m → M.after s σ m = M.after s σ n := by
    intro m hm
    induction m, hm using Nat.le_induction with
    | base => rfl
    | succ m hm ih =>
      rcases lowers _ (σ m) (hkeeps m) (hnever m) with heq | hgoal | hlt
      · rw [after_succ, heq, ih]
      · exact absurd hgoal (hnever (m + 1))
      · have hle := hn (m + 1)
        rw [after_succ] at hle
        rw [ih] at hlt hle
        exact absurd hle (Nat.not_le.mpr hlt)
  obtain ⟨a, hacts⟩ := acts _ (hkeeps n) (hnever n)
  obtain ⟨k, hnk, hturn⟩ := hfair a n
  have hstep := hacts (σ k) hturn
  rw [← hstill k hnk, ← after_succ, hstill (k + 1) (by omega), hstill k hnk] at hstep
  exact hstep rfl

/-- **The rule of one agent.**  Until the goal is reached no step raises the measure, and every
turn of the agent lowers it. -/
theorem of_agent (a : Agent)
    (keeps : ∀ s i, p s → q (M.step s i).1 ∨ p (M.step s i).1 ∧
      measure (M.step s i).1 ≤ measure s)
    (lowers : ∀ s i, p s → turn a i → q (M.step s i).1 ∨ measure (M.step s i).1 < measure s) :
    M.LeadsTo turn p q := by
  intro s σ hfair hs
  induction hk : measure s using Nat.strong_induction_on generalizing s σ with
  | _ k ih =>
    subst hk
    obtain ⟨m, -, hturn⟩ := hfair a 0
    have hbefore : ∀ n, (∃ n, q (M.after s σ n)) ∨
        p (M.after s σ n) ∧ measure (M.after s σ n) ≤ measure s := by
      intro n
      induction n with
      | zero => exact .inr ⟨hs, le_rfl⟩
      | succ n ihn =>
        rcases ihn with hgoal | ⟨hp, hle⟩
        · exact .inl hgoal
        rcases keeps _ (σ n) hp with hgoal | ⟨hp', hle'⟩
        · exact .inl ⟨n + 1, hgoal⟩
        · exact .inr ⟨hp', hle'.trans hle⟩
    rcases hbefore m with hgoal | ⟨hp, hle⟩
    · exact hgoal
    rcases lowers _ (σ m) hp hturn with hgoal | hlt
    · exact ⟨m + 1, hgoal⟩
    rcases hbefore (m + 1) with hgoal | ⟨hp', -⟩
    · exact hgoal
    -- the agent has had a turn
    obtain ⟨n, hn⟩ := ih _ (lt_of_lt_of_le hlt hle) (M.after s σ (m + 1))
      (fun k => σ (m + 1 + k)) (hfair.shift (m + 1)) hp' rfl
    exact ⟨m + 1 + n, by rwa [after_add]⟩

end LeadsTo

/-- The invariant is kept, every action lowers the measure, some agent acts at any turn while the
goal is not reached, and the goal is kept. -/
structure Progress (inv goal : State → Prop) (measure : State → ℕ)
    (turn : Agent → Input → Prop) : Prop where
  keeps : ∀ s i, inv s → inv (M.step s i).1
  lowers : ∀ s i, inv s → (M.step s i).1 = s ∨ measure (M.step s i).1 < measure s
  acts : ∀ s, inv s → ¬ goal s → ∃ a, ∀ i, turn a i → (M.step s i).1 ≠ s
  stays : ∀ s i, inv s → goal s → goal (M.step s i).1

namespace Progress

variable {M} {inv goal : State → Prop} {measure : State → ℕ} {turn : Agent → Input → Prop}
  {s : State}

/-- The invariant holds along a schedule. -/
theorem after (h : M.Progress inv goal measure turn) (hs : inv s) (σ : ℕ → Input) (n : ℕ) :
    inv (M.after s σ n) := by
  induction n with
  | zero => exact hs
  | succ n ih => exact h.keeps _ _ ih

/-- The goal is kept along a schedule. -/
theorem goal_after (h : M.Progress inv goal measure turn) (hs : inv s) (σ : ℕ → Input) {n m : ℕ}
    (hnm : n ≤ m) (hgoal : goal (M.after s σ n)) : goal (M.after s σ m) := by
  induction m, hnm using Nat.le_induction with
  | base => exact hgoal
  | succ m _ ih => exact h.stays _ _ (h.after hs σ m) ih

/-- **There are at most as many actions as the measure says.** -/
theorem count_actions_le (h : M.Progress inv goal measure turn) (hs : inv s) (σ : ℕ → Input)
    [DecidablePred fun k => M.after s σ (k + 1) ≠ M.after s σ k] (n : ℕ) :
    Nat.count (fun k => M.after s σ (k + 1) ≠ M.after s σ k) n + measure (M.after s σ n) ≤
      measure s := by
  induction n with
  | zero => simp
  | succ n ih =>
    have hlowers := h.lowers _ (σ n) (h.after hs σ n)
    rw [← after_succ] at hlowers
    rw [Nat.count_succ]
    rcases hlowers with heq | hlt
    · rw [if_neg (not_not.mpr heq), heq]
      exact ih
    · split_ifs <;> omega

/-- **A fair schedule reaches the goal** and stays there. -/
theorem reaches (h : M.Progress inv goal measure turn) (hs : inv s) {σ : ℕ → Input}
    (hfair : Fair turn σ) : ∃ n, ∀ m, n ≤ m → goal (M.after s σ m) := by
  have hleads : M.LeadsTo turn inv goal :=
    .of_actions measure h.keeps (fun s i hinv _ => (h.lowers s i hinv).imp_right .inr) h.acts
  obtain ⟨n, hn⟩ := hleads s σ hfair hs
  exact ⟨n, fun m hm => h.goal_after hs σ hm hn⟩

end Progress

end Machine

/-- Sums that differ in one summand. -/
theorem sum_add_of_eq_off {ι : Type*} [Fintype ι] [DecidableEq ι] {f g : ι → ℕ} (a : ι)
    (h : ∀ b, b ≠ a → f b = g b) : (∑ b, f b) + g a = (∑ b, g b) + f a := by
  have herase : ∑ b ∈ Finset.univ.erase a, f b = ∑ b ∈ Finset.univ.erase a, g b :=
    Finset.sum_congr rfl fun b hb => h b (Finset.ne_of_mem_erase hb)
  rw [← Finset.add_sum_erase Finset.univ f (Finset.mem_univ a),
    ← Finset.add_sum_erase Finset.univ g (Finset.mem_univ a), herase]
  omega
