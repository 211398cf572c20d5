import StockServer.Lib.FsProgram

set_option relaxedAutoImplicit false
set_option autoImplicit false

/-!
# Programs that keep to the rules of a monitor

A monitor watches the calls of a program over a directory: in each of its states it allows some
calls, and what a call reports leads it to the next state.  A program keeps to its rules when it
makes no other call, whatever its calls report.  The rules of `Follows` are those of a Hoare logic
over the states of the monitor, with no disk in them.

The monitor `handles` watches the streams that are open for writing and the descriptor of the
directory.  It does not watch the streams that are open for reading, nor the directory stream of a
listing: `Op` has no call that closes one.

## Main definitions

* `Monitor`, `Monitor.after`, `Monitor.Accepts` — monitors, where a trace leads one, and the traces
  that it accepts.
* `Prog.trace` — the calls of a run with their reports.
* `Prog.Follows` — a program keeps to the rules of a monitor.
* `Handle`, `handles` — at most one of these is open, and it is used and closed before anything
  else.
* `Disk.Drained` — only the stream that is open has text in its buffer.

## Main results

* `Prog.Follows.bind`, `Prog.follows_op_bind` — the rules.
* `Prog.Follows.accepts` — the traces of all runs are accepted.
* `Prog.Follows.run` — an invariant of the disk and the monitor holds at the end of all runs.
* `Disk.drained_perform` — the calls that `handles` allows leave text in no other buffer.
* `Disk.Drained.kill` — when no stream is open for writing, the end of the process loses nothing.
-/

/-- A call with its report. -/
abbrev Op.Made := (o : Op) × o.Result

/-- A monitor: the calls that it allows in a state, and the state after a call and its report. -/
structure Monitor (S : Type) where
  allows : S → Op → Prop
  next : S → (o : Op) → o.Result → S

namespace Monitor

variable {S : Type} {M : Monitor S} {s : S}

/-- The state after the calls of a trace. -/
def after (M : Monitor S) (s : S) (t : List Op.Made) : S := t.foldl (fun s e => M.next s e.1 e.2) s

/-- Every call of the trace is allowed when it is made. -/
def Accepts (M : Monitor S) : S → List Op.Made → Prop
  | _, [] => True
  | s, e :: t => M.allows s e.1 ∧ M.Accepts (M.next s e.1 e.2) t

/-- A trace is accepted iff each of its calls is allowed after those before it. -/
theorem accepts_iff {t : List Op.Made} :
    M.Accepts s t ↔ ∀ t₁ e t₂, t = t₁ ++ e :: t₂ → M.allows (M.after s t₁) e.1 := by
  induction t generalizing s with
  | nil => exact ⟨fun _ t₁ e t₂ h => by simp at h, fun _ => trivial⟩
  | cons e t ih =>
    rw [Accepts, ih]
    constructor
    · rintro ⟨hallows, hrest⟩ t₁ e' t₂ h
      cases t₁ with
      | nil =>
        obtain ⟨rfl, -⟩ := List.cons.inj h
        exact hallows
      | cons e₁ t₁ =>
        obtain ⟨rfl, ht⟩ := List.cons.inj h
        exact hrest t₁ e' t₂ ht
    · intro h
      exact ⟨h [] e t rfl, fun t₁ e' t₂ ht => h (e :: t₁) e' t₂ (congrArg (e :: ·) ht)⟩

end Monitor

namespace Prog

variable {α β S : Type} {M : Monitor S} {s : S} {p : Prog α} {d : Disk} {σ : ℕ → Choice}
  {post : Outcome α → S → Prop}

/-- The calls of a run, with their reports. -/
def trace : Prog α → Disk → (ℕ → Choice) → List Op.Made
  | .ret _, _, _ => []
  | .exit _, _, _ => []
  | .call o k, d, σ =>
    let r := perform d o (σ 0)
    ⟨o, r.1⟩ :: trace (k r.1) r.2 fun n => σ (n + 1)

/-! ## The logic -/

/-- From a state of the monitor, whatever the calls report, the program makes only calls that are
allowed, and `post` holds of the outcome and the state at the end. -/
def Follows (M : Monitor S) (post : Outcome α → S → Prop) : Prog α → S → Prop
  | .ret a, s => post (.returned a) s
  | .exit code, s => post (.exited code) s
  | .call o k, s => M.allows s o ∧ ∀ r, Follows M post (k r) (M.next s o r)

/-- The sequencing rule. -/
theorem Follows.bind {f : α → Prog β} {post' : Outcome β → S → Prop} (h : Follows M post p s)
    (hf : ∀ a s, post (.returned a) s → Follows M post' (f a) s)
    (hexit : ∀ code s, post (.exited code) s → post' (.exited code) s) :
    Follows M post' (p >>= f) s := by
  induction p generalizing s with
  | ret a => exact hf a s h
  | exit code => exact hexit code s h
  | call o k ih => exact ⟨h.1, fun r => ih r (h.2 r)⟩

/-- The rule for a call and what follows it. -/
theorem follows_op_bind {o : Op} {f : o.Result → Prog β} {post : Outcome β → S → Prop} :
    Follows M post (op o >>= f) s ↔
      M.allows s o ∧ ∀ r, Follows M post (f r) (M.next s o r) := Iff.rfl

/-- The rule for a call. -/
theorem follows_op {o : Op} {post : Outcome o.Result → S → Prop} :
    Follows M post (op o) s ↔ M.allows s o ∧ ∀ r, post (.returned r) (M.next s o r) := Iff.rfl

/-! ## Runs -/

/-- **The trace of every run** is accepted. -/
theorem Follows.accepts (h : Follows M post p s) (d : Disk) (σ : ℕ → Choice) :
    M.Accepts s (p.trace d σ) ∧ post (p.run d σ).1 (M.after s (p.trace d σ)) := by
  induction p generalizing s d σ with
  | ret a => exact ⟨trivial, h⟩
  | exit code => exact ⟨trivial, h⟩
  | call o k ih =>
    obtain ⟨haccepts, hpost⟩ := ih _ (h.2 (perform d o (σ 0)).1) (perform d o (σ 0)).2
      fun n => σ (n + 1)
    exact ⟨⟨h.1, haccepts⟩, hpost⟩

/-- **An invariant of the disk and the monitor** that the allowed calls keep holds at the end of
every run. -/
theorem Follows.run {K : S → Disk → Prop} (h : Follows M post p s)
    (hK : ∀ s d o c, M.allows s o → K s d → K (M.next s o (perform d o c).1) (perform d o c).2)
    (hd : K s d) : ∃ s', post (p.run d σ).1 s' ∧ K s' (p.run d σ).2 := by
  induction p generalizing s d σ with
  | ret a => exact ⟨s, h, hd⟩
  | exit code => exact ⟨s, h, hd⟩
  | call o k ih => exact ih _ (h.2 _) (hK s d o (σ 0) h.1 hd)

end Prog

/-! ## Streams and the directory -/

/-- What a program has open of what is watched: nothing, a stream for writing, or the descriptor of
the directory. -/
inductive Handle where
  | closed
  | stream (i : Ino)
  | directory
  deriving DecidableEq

/-- **One handle at a time**: a call on a stream for writing or on the descriptor of the directory
needs that handle, and all others are made when there is none.  A close ends the handle also when it
fails.  Streams for reading and the stream of a listing are no handles. -/
def handles : Monitor Handle where
  allows h
    | .print i _ | .flush i | .fsync i | .close i => h = .stream i
    | .fsyncDir | .closeDir => h = .directory
    | _ => h = .closed
  next h
    | .openWrite _, some i => .stream i
    | .openDir, true => .directory
    | .close _, _ | .closeDir, _ => .closed
    | _, _ => h

namespace Disk

variable {d : Disk} {h : Handle}

/-- Only the stream that is open has text in its buffer. -/
def Drained (h : Handle) (d : Disk) : Prop := ∀ i, h ≠ .stream i → (d.files i).buffered = []

/-- A call on a stream changes no other buffer. -/
theorem Drained.modifyFile {i : Ino} (hd : d.Drained (.stream i)) (f : File → File) :
    (d.modifyFile i f).Drained (.stream i) := by
  intro j hj
  have hne : j ≠ i := fun h => hj (congrArg Handle.stream h.symm)
  rw [files_modifyFile_of_ne f hne]
  exact hd j hj

/-- A call that empties the buffer of the stream. -/
theorem Drained.empties {i : Ino} (hd : d.Drained (.stream i)) {f : File → File}
    (hf : (f (d.files i)).buffered = []) : (d.modifyFile i f).Drained .closed := by
  intro j _
  by_cases hj : j = i
  · rw [hj, files_modifyFile_self]
    exact hf
  · rw [files_modifyFile_of_ne f hj]
    exact hd j fun h => hj (Handle.stream.inj h).symm

/-- When no stream is open for writing, all buffers are empty. -/
theorem Drained.of_closed (hd : d.Drained .closed) (h : Handle) : d.Drained h := fun i _ =>
  hd i nofun

/-- **The calls that are allowed** leave text in no other buffer. -/
theorem drained_perform (hd : d.Drained h) {o : Op} (ho : handles.allows h o) (c : Choice) :
    (perform d o c).2.Drained (handles.next h o (perform d o c).1) := by
  have hother : (∀ i, h ≠ .stream i) → (perform d o c).2.files = d.files →
      (perform d o c).2.Drained (handles.next h o (perform d o c).1) := by
    intro hnone hfiles i _
    rw [hfiles]
    exact hd i (hnone i)
  have heffect := perform_effect d o c
  cases o with
  | stat | openRead | readLines | unlink | rename | listDir | openDir =>
    obtain rfl : h = .closed := ho
    refine hother (fun _ => nofun) ?_
    revert heffect
    generalize (perform d _ c).2 = d'
    intro heffect
    cases heffect <;> rfl
  | fsyncDir | closeDir =>
    obtain rfl : h = .directory := ho
    refine hother (fun _ => nofun) ?_
    revert heffect
    generalize (perform d _ c).2 = d'
    intro heffect
    cases heffect <;> rfl
  | openWrite name =>
    obtain rfl : h = .closed := ho
    simp only [perform]
    split_ifs
    · exact hd
    · split
      · rename_i i _
        exact @Drained.modifyFile d i (hd.of_closed (.stream i)) fun _ => ⟨[], [], false⟩
      · intro j hj
        have hne : j ≠ d.fresh := fun h => hj (congrArg Handle.stream h.symm)
        simp only [create, change, Function.update_of_ne hne]
        exact hd j nofun
  | print i | flush i | fsync i =>
    obtain rfl : h = .stream i := ho
    revert heffect
    generalize (perform d _ c).2 = d'
    intro heffect
    cases heffect
    · exact hd
    · exact hd.modifyFile _
  | close i =>
    obtain rfl : h = .stream i := ho
    cases hfail : c.fail with
    | false =>
      simp only [perform, hfail, Bool.false_eq_true, ↓reduceIte]
      exact hd.empties (by simp [File.writeThrough])
    | true =>
      simp only [perform, hfail, ↓reduceIte]
      refine hd.empties ?_
      split_ifs with hempty
      · exact hempty
      · rfl

/-- **When no stream is open for writing**, the end of the process loses nothing. -/
theorem Drained.kill (hd : d.Drained .closed) : d.kill = d := by
  have hfiles : (fun i => { d.files i with buffered := [] }) = d.files := by
    funext i
    have hi := hd i nofun
    generalize d.files i = file at hi
    cases file with
    | mk data buffered synced =>
      obtain rfl : buffered = [] := hi
      rfl
  rw [Disk.kill, hfiles]

/-- A process starts with empty buffers. -/
theorem drained_of_kill (hd : d.kill = d) : d.Drained .closed := by
  intro i _
  rw [← hd]
  rfl

end Disk
