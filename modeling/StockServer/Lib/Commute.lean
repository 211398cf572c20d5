import Mathlib.Data.List.Basic

set_option relaxedAutoImplicit false
set_option autoImplicit false

/-!
# Operations that commute unless they share a key

Deterministic operations on a state, each with an output and a key.  When operations with different
keys commute and do not see each other's effect, a run is determined by the operations of each key
in their order: how the keys are interleaved cannot be told from the last state, nor from the
outputs of one key.

## Main definitions

* `runOps` — the operations of a list one after another: each with its output, and the last state.
* `Commuting` — operations with different keys are independent.
* `SameByKey` — two runs end alike and have the same outputs for every key.

## Main results

* `Commuting.move_front` — an operation may be moved before operations with other keys.
* `Commuting.sameByKey` — **lists with the same operations for every key run alike**.
-/

variable {σ α ω κ : Type*}

/-- Run the operations of a list one after another. -/
def runOps (step : σ → α → ω × σ) : σ → List α → List (α × ω) × σ
  | s, [] => ([], s)
  | s, a :: as =>
    ((a, (step s a).1) :: (runOps step (step s a).2 as).1, (runOps step (step s a).2 as).2)

/-- Valid operations with different keys commute, and neither changes the output of the other. -/
structure Commuting (step : σ → α → ω × σ) (key : α → κ) (valid : α → Prop) : Prop where
  comm : ∀ s a b, valid a → valid b → key a ≠ key b →
    (step (step s a).2 b).2 = (step (step s b).2 a).2
  output : ∀ s a b, valid a → valid b → key a ≠ key b → (step (step s b).2 a).1 = (step s a).1

variable [DecidableEq κ]

/-- Two runs end in the same state, with the same operations and outputs for every key. -/
structure SameByKey (key : α → κ) (r r' : List (α × ω) × σ) : Prop where
  last : r.2 = r'.2
  outputs : ∀ k, r.1.filter (key ·.1 = k) = r'.1.filter (key ·.1 = k)

variable {step : σ → α → ω × σ} {key : α → κ} {valid : α → Prop} {r r' r'' : List (α × ω) × σ}

theorem SameByKey.refl (r : List (α × ω) × σ) : SameByKey key r r := ⟨rfl, fun _ => rfl⟩

theorem SameByKey.trans (h : SameByKey key r r') (h' : SameByKey key r' r'') :
    SameByKey key r r'' :=
  ⟨h.last.trans h'.last, fun k => (h.outputs k).trans (h'.outputs k)⟩

/-- The same first operation, with the same output, keeps runs alike. -/
theorem SameByKey.cons (h : SameByKey key r r') (x : α × ω) :
    SameByKey key (x :: r.1, r.2) (x :: r'.1, r'.2) := by
  refine ⟨h.last, fun k => ?_⟩
  simp only [List.filter_cons, h.outputs k]

/-- Two neighbours with different keys change places. -/
theorem SameByKey.swap (r : List (α × ω) × σ) {x y : α × ω} (hne : key x.1 ≠ key y.1) :
    SameByKey key (x :: y :: r.1, r.2) (y :: x :: r.1, r.2) := by
  refine ⟨rfl, fun k => ?_⟩
  simp only [List.filter_cons, decide_eq_true_eq]
  split_ifs with hx hy
  · exact absurd (hx.trans hy.symm) hne
  all_goals rfl

/-- **An operation may be moved before operations with other keys.**

**Proof sketch.** By induction on these operations, each changes places with the one moved: their
outputs are the same in either order, and so is the state after both. -/
theorem Commuting.move_front (h : Commuting step key valid) {a : α} (ha : valid a) {before : List α}
    (hbefore : ∀ b ∈ before, valid b ∧ key b ≠ key a) (after : List α) (s : σ) :
    SameByKey key (runOps step s (before ++ a :: after))
      (runOps step s (a :: (before ++ after))) := by
  induction before generalizing s with
  | nil => exact .refl _
  | cons b before ih =>
    obtain ⟨hb, hne⟩ := hbefore b (by simp)
    have hrest := ih (fun c hc => hbefore c (by simp [hc])) (step s b).2
    have hmoved := hrest.cons (b, (step s b).1)
    refine hmoved.trans ?_
    have hswapped : SameByKey key _ _ := .swap
      (runOps step (step (step s b).2 a).2 (before ++ after))
      (x := (b, (step s b).1)) (y := (a, (step s a).1)) hne
    simp only [runOps, List.cons_append, h.output s a b ha hb hne.symm, h.comm s a b ha hb hne.symm,
      h.output s b a hb ha hne] at hswapped ⊢
    exact hswapped

/-- The first operation of its key has only others before it. -/
theorem exists_of_filter_eq_cons {k : κ} {a : α} {as l : List α}
    (h : l.filter (key · = k) = a :: as) :
    ∃ before after, l = before ++ a :: after ∧ (∀ b ∈ before, key b ≠ k) ∧ key a = k ∧
      after.filter (key · = k) = as := by
  obtain ⟨before, after, rfl, hbefore, ha, hafter⟩ := List.filter_eq_cons_iff.mp h
  exact ⟨before, after, rfl, by simpa using hbefore, by simpa using ha, hafter⟩

/-- **Lists with the same operations for every key run alike.**

**Proof sketch.** By induction on the first list.  Its first operation is the first of its key in
the other list as well, so it can be moved to the front there; the two lists of what follows have
the same operations for every key. -/
theorem Commuting.sameByKey (h : Commuting step key valid) {l l' : List α}
    (hl : ∀ a ∈ l, valid a) (hl' : ∀ a ∈ l', valid a)
    (hsame : ∀ k, l.filter (key · = k) = l'.filter (key · = k)) (s : σ) :
    SameByKey key (runOps step s l) (runOps step s l') := by
  induction l generalizing l' s with
  | nil =>
    have hnil : l' = [] := by
      cases l' with
      | nil => rfl
      | cons a as => simpa using hsame (key a)
    rw [hnil]
    exact .refl _
  | cons a as ih =>
    have hfirst : l'.filter (key · = key a) = a :: as.filter (key · = key a) := by
      rw [← hsame, List.filter_cons_of_pos (by simp)]
    obtain ⟨before, after, rfl, hbefore, -, -⟩ := exists_of_filter_eq_cons hfirst
    have hvalid : ∀ b ∈ before, valid b ∧ key b ≠ key a := fun b hb =>
      ⟨hl' b (by simp [hb]), hbefore b hb⟩
    have hothers : before.filter (key · = key a) = [] := by
      simpa using hbefore
    have hrest : ∀ k, as.filter (key · = k) = (before ++ after).filter (key · = k) := by
      intro k
      have hk := hsame k
      by_cases hak : key a = k
      · subst hak
        simpa [hothers] using hk
      · simpa [List.filter_cons, hak] using hk
    have htail := ih (fun b hb => hl b (by simp [hb]))
      (fun b hb => hl' b (by simp only [List.mem_append, List.mem_cons] at hb ⊢; tauto)) hrest
      (step s a).2
    have hmoved := h.move_front (hl a (by simp)) hvalid after s
    refine (htail.cons (a, (step s a).1)).trans ⟨hmoved.last.symm, fun k => (hmoved.outputs k).symm⟩
