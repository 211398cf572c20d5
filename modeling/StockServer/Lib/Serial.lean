import StockServer.Lib.FsProgram

set_option relaxedAutoImplicit false
set_option autoImplicit false

/-!
# Programs that give up at the first failed call

A program is serial when it makes a fixed number of calls, returns its value after the last of them,
and never returns that value once a call has reported a failure.  So whether it returns its value
can be read off the choices for that many calls, and what follows it starts with the next choice.

## Main definitions

* `Op.Succeeded` — the report of a call that has not failed.
* `Prog.Never` — no run returns the value.
* `Prog.Serial` — the program makes so many calls and gives up at the first that fails.

## Main results

* `Prog.Serial.bind` — serial programs one after another.
* `Prog.Serial.returned_iff` — **the value is returned if and only if** none of the calls fails.
* `Prog.Serial.run_bind` — what follows runs with the remaining choices.
* `Prog.run_bind_of_ne` — nothing follows another value.
-/

/-- The report of a call that has not failed. -/
def Op.Succeeded : (o : Op) → o.Result → Prop
  | .stat _, r => r = true
  | .openRead _, r => ∃ i, r = .ok i
  | .readLines _ _, r => r.2 = false
  | .openWrite _, r => ∃ i, r = some i
  | .print _ _, r => r = true
  | .flush _, r => r = true
  | .fsync _, r => r = true
  | .close _, r => r = true
  | .unlink _, r => r = .ok ()
  | .rename _ _, r => r = true
  | .openDir, r => r = true
  | .fsyncDir, r => r = true
  | .closeDir, r => r = true
  | .listDir, r => ∃ names, r = some names

/-- A call that has been made to fail reports it. -/
theorem Op.Succeeded.fine {o : Op} {d : Disk} {c : Choice} (h : o.Succeeded (perform d o c).1) :
    c.Fine := by
  rw [Choice.Fine]
  by_contra hfail
  rw [Bool.not_eq_false] at hfail
  cases o <;> simp [Op.Succeeded, perform, hfail] at h

namespace Prog

variable {α β : Type} {value a : α} {value' : β} {n m : ℕ} {p : Prog α} {f : α → Prog β} {d : Disk}
  {σ : ℕ → Choice}

/-- No run returns the value. -/
def Never (value : α) : Prog α → Prop
  | .ret a => a ≠ value
  | .exit _ => True
  | .call _ k => ∀ r, Never value (k r)

/-- The program makes `n` calls and returns the value after the last of them; once a call has
failed, it does not return the value. -/
def Serial (value : α) : ℕ → Prog α → Prop
  | 0, .ret a => a = value
  | n + 1, .call o k =>
    ∀ r, (o.Succeeded r → Serial value n (k r)) ∧ (¬ o.Succeeded r → Never value (k r))
  | _, _ => False

/-- A call and what follows it. -/
theorem serial_op_bind {o : Op} {f : o.Result → Prog α} :
    Serial value (n + 1) (op o >>= f) ↔
      ∀ r, (o.Succeeded r → Serial value n (f r)) ∧ (¬ o.Succeeded r → Never value (f r)) :=
  Iff.rfl

/-- A call that reports whether it has succeeded. -/
theorem serial_bool {k : Bool → Prog α} (htrue : Serial value n (k true))
    (hfalse : Never value (k false)) :
    ∀ r : Bool, (r = true → Serial value n (k r)) ∧ (¬ r = true → Never value (k r)) := by
  rintro (_ | _)
  · exact ⟨fun h => Bool.noConfusion h, fun _ => hfalse⟩
  · exact ⟨fun _ => htrue, fun h => absurd rfl h⟩

/-! ## One after another -/

/-- When a program never returns a value, what follows it never does what only that value leads
to. -/
theorem Never.bind (h : Never value p) (hf : ∀ a, a ≠ value → Never value' (f a)) :
    Never value' (p >>= f) := by
  induction p with
  | ret a => exact hf a h
  | exit code => trivial
  | call o k ih => exact fun r => ih r (h r)

/-- **Serial programs one after another** are serial. -/
theorem Serial.bind (h : Serial value n p) (hf : Serial value' m (f value))
    (hne : ∀ a, a ≠ value → Never value' (f a)) : Serial value' (m + n) (p >>= f) := by
  induction p generalizing n with
  | ret a =>
    cases n with
    | zero =>
      obtain rfl : a = value := h
      exact hf
    | succ n => exact h.elim
  | exit code => cases n <;> exact h.elim
  | call o k ih =>
    cases n with
    | zero => exact h.elim
    | succ n => exact fun r => ⟨fun hr => ih r ((h r).1 hr), fun hr => ((h r).2 hr).bind hne⟩

/-! ## Runs -/

/-- A run starts with the first call. -/
theorem run_op_bind {o : Op} {f : o.Result → Prog α} : (op o >>= f).run d σ =
    (f (perform d o (σ 0)).1).run (perform d o (σ 0)).2 fun i => σ (i + 1) := rfl

/-- What is never returned is not returned. -/
theorem Never.run_ne (h : Never value p) : (p.run d σ).1 ≠ .returned value := by
  induction p generalizing d σ with
  | ret a => exact fun hr => h (Outcome.returned.inj hr)
  | exit code => exact fun hr => by cases hr
  | call o k ih => exact ih _ (h _)

/-- When the value is returned, the first call has not failed. -/
theorem Serial.succeeded {o : Op} {k : o.Result → Prog α} (h : Serial value (n + 1) (.call o k))
    (hr : ((Prog.call o k).run d σ).1 = .returned value) : o.Succeeded (perform d o (σ 0)).1 := by
  by_contra hnot
  exact ((h _).2 hnot).run_ne hr

/-- When the value is returned, no call has failed. -/
theorem Serial.fine (h : Serial value n p) (hr : (p.run d σ).1 = .returned value) :
    ∀ i < n, (σ i).Fine := by
  induction p generalizing n d σ with
  | ret a =>
    cases n with
    | zero => exact fun i hi => absurd hi (Nat.not_lt_zero i)
    | succ n => exact h.elim
  | exit code => cases hr
  | call o k ih =>
    cases n with
    | zero => exact h.elim
    | succ n =>
      have hsucceeded := h.succeeded hr
      intro i hi
      cases i with
      | zero => exact hsucceeded.fine
      | succ i => exact ih _ ((h _).1 hsucceeded) hr i (Nat.lt_of_succ_lt_succ hi)

/-- **The value is returned if and only if none of the calls fails**, when the disk is one on which
nothing else can stop the program. -/
theorem Serial.returned_iff {crash : Disk → Prop} (h : Serial value n p)
    (hfine : Ensures Choice.Fine crash (fun r _ => r = .returned value) p d) :
    (p.run d σ).1 = .returned value ↔ ∀ i < n, (σ i).Fine := by
  refine ⟨h.fine, fun hσ => ?_⟩
  induction p generalizing n d σ with
  | ret a => exact hfine.2
  | exit code => exact hfine.2
  | call o k ih =>
    cases n with
    | zero => exact h.elim
    | succ n =>
      have hrest := hfine.2 (σ 0) (hσ 0 (Nat.succ_pos n))
      have hsucceeded : o.Succeeded (perform d o (σ 0)).1 := by
        by_contra hnot
        exact ((h _).2 hnot).run_ne (hrest.run (σ := fun _ => .fine) fun _ => rfl)
      exact ih _ ((h _).1 hsucceeded) hrest fun i hi => hσ (i + 1) (Nat.succ_lt_succ hi)

/-- **What follows a serial program** that has returned its value runs with the choices after those
for its calls. -/
theorem Serial.run_bind (h : Serial value n p) (hr : (p.run d σ).1 = .returned value) :
    (p >>= f).run d σ = (f value).run (p.run d σ).2 fun i => σ (i + n) := by
  induction p generalizing n d σ with
  | ret a =>
    cases n with
    | zero =>
      obtain rfl : a = value := h
      rfl
    | succ n => exact h.elim
  | exit code => cases hr
  | call o k ih =>
    cases n with
    | zero => exact h.elim
    | succ n =>
      exact ih _ ((h _).1 (h.succeeded hr)) hr

/-- **Nothing follows another value** when all that is done about it is to return it. -/
theorem run_bind_of_ne {f : α → Prog α} (hf : ∀ a, a ≠ value → f a = .ret a)
    (hr : (p.run d σ).1 ≠ .returned value) : (p >>= f).run d σ = p.run d σ := by
  induction p generalizing d σ with
  | ret a =>
    show (f a).run d σ = _
    rw [hf a fun ha => hr (congrArg Outcome.returned ha)]
  | exit code => rfl
  | call o k ih => exact ih _ hr

end Prog
