import StockServer.Lib.FsProgram

set_option relaxedAutoImplicit false
set_option autoImplicit false

/-!
# Crashes that keep directory changes in order

A file system with a journal makes the changes of a directory durable in the order in which they
were made: a power cut loses the last of them and no others.  The directory that the next process
finds is then one that a process has seen, so that an invariant of what processes see holds after
such a power cut too.

## Main definitions

* `Disk.Always` — a property of the directory on disk, and after each of the pending changes.

## Main results

* `Disk.Always.of_perform` — a call keeps it when the directory seen after the call has the
  property.
* `Disk.Always.crash` — so does a power cut that keeps the changes in order.
* `Prog.Ensures.always` — what is seen at every call of a program has the property, and so has
  every directory that such a power cut may leave.
-/

namespace Change

/-- The first of the changes are those that are kept when the others are lost. -/
theorem kept_replicate (cs : List Change) (n : ℕ) :
    kept cs (List.replicate n true) = cs.take n := by
  induction cs generalizing n with
  | nil => cases n <;> rfl
  | cons c cs ih =>
    cases n with
    | zero => rfl
    | succ n => rw [List.replicate_succ, kept, if_pos rfl, ih, List.take_succ_cons]

end Change

namespace Disk

variable {D : Dir → Prop} {d : Disk}

/-- The directory on disk has the property, and goes on having it after each of the pending
changes. -/
def Always (D : Dir → Prop) (d : Disk) : Prop :=
  ∀ n, D (Change.applyAll (d.pending.take n) d.durable)

/-- The directory that a process sees has the property. -/
theorem Always.current (h : d.Always D) : D d.current := by
  have hall := h d.pending.length
  rwa [List.take_length] at hall

/-- When nothing is pending there is nothing else to see. -/
theorem always_of_settled (hpending : d.pending = []) (h : D d.durable) : d.Always D := by
  intro n
  rw [hpending, List.take_nil]
  exact h

/-- One more change. -/
theorem Always.change (h : d.Always D) {x : Change} (hx : D (d.change x).current) :
    (d.change x).Always D := by
  intro n
  by_cases hn : n ≤ d.pending.length
  · rw [Disk.change, List.take_append_of_le_length hn]
    exact h n
  · have hall : (d.change x).pending.take n = (d.change x).pending := by
      refine List.take_of_length_le ?_
      rw [Disk.change, List.length_append, List.length_singleton]
      omega
    rw [hall]
    exact hx

/-- **A call** keeps the property when the directory seen after the call has it. -/
theorem Always.of_perform (h : d.Always D) {o : Op} {c : Choice}
    (hseen : D (perform d o c).2.current) : (perform d o c).2.Always D := by
  have heffect := perform_effect d o c
  revert heffect hseen
  generalize (perform d o c).2 = d'
  intro hseen heffect
  cases heffect with
  | nothing | print | flush | fsync | close | truncate => exact h
  | create => exact h.change hseen
  | unlink => exact h.change hseen
  | rename => exact h.change hseen
  | syncDir => exact always_of_settled rfl hseen

/-- **A power cut that keeps the changes in order** keeps the property. -/
theorem Always.crash (h : d.Always D) (n : ℕ) (junk : Ino → Bytes) :
    (d.crash (List.replicate n true) junk).Always D := by
  refine always_of_settled rfl ?_
  rw [Disk.crash, Change.kept_replicate]
  exact h n

/-- So does a kill. -/
theorem Always.kill (h : d.Always D) : d.kill.Always D := h

end Disk

namespace Prog

variable {α : Type} {ok : Choice → Prop} {D : Dir → Prop} {post : Outcome α → Disk → Prop}
  {p : Prog α} {d : Disk}

/-- **An invariant of what is seen** at every call of a program is one of every directory that a
power cut may leave which keeps the changes in order. -/
theorem Ensures.always (h : Ensures ok (fun d => D d.current) post p d) (hd : d.Always D) :
    Ensures ok (Disk.Always D) post p d := by
  induction p generalizing d with
  | ret a => exact ⟨hd, h.2⟩
  | exit code => exact ⟨hd, h.2⟩
  | call o k ih => exact ⟨hd, fun c hc => ih _ (h.2 c hc) (hd.of_perform (h.2 c hc).start)⟩

end Prog
