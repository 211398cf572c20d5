import StockServer.Lib.Disk

set_option relaxedAutoImplicit false
set_option autoImplicit false

/-!
# Programs over a directory, and what holds of them at every crash

A program is a tree of calls: each call's report decides what comes next.  A run resolves every
call by a stream of environment choices; cutting the run after `n` calls gives the disk a crash at
that point would find.

`Ensures` is a Hoare logic for crashes: from a disk, whatever the environment does within `ok`,
every disk between two calls satisfies the crash condition, and the final outcome and disk satisfy
the postcondition.

## Main definitions

* `Prog`, `Outcome` — programs, and how they end: by returning or by `exit`.
* `Prog.run`, `Prog.after` — the whole run, and the disk after its first `n` calls.
* `Prog.Ensures` — crash condition and postcondition of a program.
* `Prog.Calls` — a condition on every call a program may make.
* `Prog.May` — what the environment can make of a program.
* `Prog.Reports` — the postcondition of a program that returns a good value or has met a failure.
* `Pin`, `Disk.Holds` — a well-formed disk with a list of pinned entries.
* `Disk.Writing` — an entry whose file is being written.
* `Disk.empty`, `Disk.add` — directories with given files.

## Main results

* `Prog.Ensures.run`, `Prog.Ensures.after` — the logic is sound for runs and for crash points.
* `Prog.Ensures.bind`, `Prog.Ensures.mono`, `Prog.Ensures.and` — the sequencing, consequence and
  conjunction rules.
* `Prog.Calls.ensures` — an invariant of the calls a program makes is one of its runs.
* `Prog.may_iff`, `Prog.May.bind` — what may happen is what some run does, and its sequencing rule.
* `Disk.Holds.of_spared`, `Disk.Holds.crash` — a call that spares all pinned names keeps the pins,
  and so does a crash.
* `Disk.Holds.openWrite`, `Disk.Writing.print`, `flush`, `fsync`, `close` — what a write path knows
  about its file.
* `Disk.Writing.syncDir`, `Disk.Writing.rename_crash`, `Disk.Writing.rename_syncDir` — how a
  written file becomes pinned, under its own name or by a rename.
* `Disk.Writing.contents_rename` — what a renamed file shows.
-/

/-! ## Programs -/

/-- A program over a directory. -/
inductive Prog (α : Type) where
  /-- Return a value. -/
  | ret (a : α)
  /-- End the process. -/
  | exit (code : ℕ)
  /-- Make a call and go on with its report. -/
  | call (o : Op) (k : o.Result → Prog α)

/-- How a program ends. -/
inductive Outcome (α : Type) where
  | returned (a : α)
  | exited (code : ℕ)
  deriving DecidableEq, Repr

namespace Prog

variable {α β γ : Type}

/-- Run one program after another; `exit` ends both. -/
def bind : Prog α → (α → Prog β) → Prog β
  | .ret a, f => f a
  | .exit code, _ => .exit code
  | .call o k, f => .call o fun r => bind (k r) f

instance : Monad Prog where
  pure := .ret
  bind := bind

/-- Running a program and returning its value is running it. -/
theorem bind_ret (p : Prog α) : bind p .ret = p := by
  induction p with
  | ret a => rfl
  | exit code => rfl
  | call o k ih => exact congrArg (Prog.call o) (funext ih)

/-- Sequencing is associative. -/
theorem bind_bind (p : Prog α) (f : α → Prog β) (g : β → Prog γ) :
    bind (bind p f) g = bind p fun a => bind (f a) g := by
  induction p with
  | ret a => rfl
  | exit code => rfl
  | call o k ih => exact congrArg (Prog.call o) (funext ih)

instance : LawfulMonad Prog :=
  LawfulMonad.mk' Prog (fun p => bind_ret p) (fun _ _ => rfl) (fun p f g => bind_bind p f g)

/-- Nothing runs after `exit`. -/
@[simp] theorem exit_bind (code : ℕ) (f : α → Prog β) : (Prog.exit code >>= f) = Prog.exit code :=
  rfl

/-- The outcome of a run and the disk it leaves, each call resolved by the next choice. -/
def run : Prog α → Disk → (ℕ → Choice) → Outcome α × Disk
  | .ret a, d, _ => (.returned a, d)
  | .exit code, d, _ => (.exited code, d)
  | .call o k, d, σ =>
    let r := perform d o (σ 0)
    run (k r.1) r.2 fun n => σ (n + 1)

/-- The disk after the first `n` calls of a run, or after all of them. -/
def after : ℕ → Prog α → Disk → (ℕ → Choice) → Disk
  | n + 1, .call o k, d, σ =>
    let r := perform d o (σ 0)
    after n (k r.1) r.2 fun n => σ (n + 1)
  | _, _, d, _ => d

/-! ## Crash conditions and postconditions -/

/-- Whatever the environment does within `ok`, `crash` holds of the disk before every call and at
the end, and `post` holds of the outcome and the disk at the end. -/
def Ensures (ok : Choice → Prop) (crash : Disk → Prop) (post : Outcome α → Disk → Prop) :
    Prog α → Disk → Prop
  | .ret a, d => crash d ∧ post (.returned a) d
  | .exit code, d => crash d ∧ post (.exited code) d
  | .call o k, d =>
    crash d ∧ ∀ c, ok c → Ensures ok crash post (k (perform d o c).1) (perform d o c).2

variable {ok : Choice → Prop} {crash : Disk → Prop} {post : Outcome α → Disk → Prop}
  {p : Prog α} {d : Disk} {σ : ℕ → Choice}

/-- The crash condition holds before the first call. -/
theorem Ensures.start (h : Ensures ok crash post p d) : crash d := by
  cases p <;> exact h.1

/-- **Soundness for whole runs.** -/
theorem Ensures.run (h : Ensures ok crash post p d) (hσ : ∀ n, ok (σ n)) :
    post (p.run d σ).1 (p.run d σ).2 := by
  induction p generalizing d σ with
  | ret a => exact h.2
  | exit code => exact h.2
  | call o k ih => exact ih _ (h.2 (σ 0) (hσ 0)) fun n => hσ (n + 1)

/-- **Soundness for crash points**: the crash condition holds after every number of calls. -/
theorem Ensures.after (h : Ensures ok crash post p d) (hσ : ∀ n, ok (σ n)) (n : ℕ) :
    crash (p.after n d σ) := by
  induction n generalizing p d σ with
  | zero => exact h.start
  | succ n ih =>
    cases p with
    | ret a => exact h.1
    | exit code => exact h.1
    | call o k => exact ih (h.2 (σ 0) (hσ 0)) fun n => hσ (n + 1)

/-- The consequence rule. -/
theorem Ensures.mono {crash' : Disk → Prop} {post' : Outcome α → Disk → Prop}
    (h : Ensures ok crash post p d) (hc : ∀ d, crash d → crash' d)
    (hp : ∀ r d, post r d → post' r d) : Ensures ok crash' post' p d := by
  induction p generalizing d with
  | ret a => exact ⟨hc _ h.1, hp _ _ h.2⟩
  | exit code => exact ⟨hc _ h.1, hp _ _ h.2⟩
  | call o k ih => exact ⟨hc _ h.1, fun c hok => ih _ (h.2 c hok)⟩

/-- **The sequencing rule**, with a specification of the first program. -/
theorem Ensures.bind {mid : Outcome α → Disk → Prop} {post : Outcome β → Disk → Prop}
    {f : α → Prog β} (h : Ensures ok crash mid p d)
    (hf : ∀ a d, crash d → mid (.returned a) d → Ensures ok crash post (f a) d)
    (he : ∀ code d, crash d → mid (.exited code) d → post (.exited code) d) :
    Ensures ok crash post (p >>= f) d := by
  induction p generalizing d with
  | ret a => exact hf a d h.1 h.2
  | exit code => exact ⟨h.1, he code d h.1 h.2⟩
  | call o k ih => exact ⟨h.1, fun c hok => ih _ (h.2 c hok)⟩

/-- **The conjunction rule.** -/
theorem Ensures.and {crash' : Disk → Prop} {post' : Outcome α → Disk → Prop}
    (h : Ensures ok crash post p d) (h' : Ensures ok crash' post' p d) :
    Ensures ok (fun d => crash d ∧ crash' d) (fun r d => post r d ∧ post' r d) p d := by
  induction p generalizing d with
  | ret a => exact ⟨⟨h.1, h'.1⟩, h.2, h'.2⟩
  | exit code => exact ⟨⟨h.1, h'.1⟩, h.2, h'.2⟩
  | call o k ih => exact ⟨⟨h.1, h'.1⟩, fun c hok => ih _ (h.2 c hok) (h'.2 c hok)⟩

/-- The conjunction rule for a family of conditions. -/
theorem ensures_forall {ι : Type} {crash : ι → Disk → Prop} {post : ι → Outcome α → Disk → Prop}
    (h : ∀ x, Ensures ok (crash x) (post x) p d) :
    Ensures ok (fun d => ∀ x, crash x d) (fun r d => ∀ x, post x r d) p d := by
  induction p generalizing d with
  | ret a => exact ⟨fun x => (h x).1, fun x => (h x).2⟩
  | exit code => exact ⟨fun x => (h x).1, fun x => (h x).2⟩
  | call o k ih => exact ⟨fun x => (h x).1, fun c hok => ih _ fun x => (h x).2 c hok⟩

/-- Every call a program may make satisfies `C`. -/
def Calls (C : Op → Prop) : Prog α → Prop
  | .ret _ => True
  | .exit _ => True
  | .call o k => C o ∧ ∀ r, Calls C (k r)

variable {C : Op → Prop}

theorem Calls.bind (h : Calls C p) {f : α → Prog β} (hf : ∀ a, Calls C (f a)) :
    Calls C (p >>= f) := by
  induction p with
  | ret a => exact hf a
  | exit code => trivial
  | call o k ih => exact ⟨h.1, fun r => ih r (h.2 r)⟩

/-- Less may be known of the calls. -/
theorem Calls.mono {C' : Op → Prop} (h : Calls C p) (hC : ∀ o, C o → C' o) : Calls C' p := by
  induction p with
  | ret a => trivial
  | exit code => trivial
  | call o k ih => exact ⟨hC o h.1, fun r => ih r (h.2 r)⟩

/-- **An invariant of the calls** that a program makes holds at every point of its runs. -/
theorem Calls.ensures (h : Calls C p) {I : Disk → Prop}
    (hI : ∀ d o c, C o → I d → I (perform d o c).2) (hd : I d) :
    Ensures ok I (fun _ d => I d) p d := by
  induction p generalizing d with
  | ret a => exact ⟨hd, hd⟩
  | exit code => exact ⟨hd, hd⟩
  | call o k ih => exact ⟨hd, fun c _ => ih _ (h.2 _) (hI d o c h.1 hd)⟩

/-! ## What may happen -/

/-- The environment can lead the program to an outcome and a disk with the postcondition. -/
def May (post : Outcome α → Disk → Prop) : Prog α → Disk → Prop
  | .ret a, d => post (.returned a) d
  | .exit code, d => post (.exited code) d
  | .call o k, d => ∃ c, May post (k (perform d o c).1) (perform d o c).2

/-- **What may happen is what some run does.** -/
theorem may_iff : May post p d ↔ ∃ σ, post (p.run d σ).1 (p.run d σ).2 := by
  induction p generalizing d with
  | ret a => exact ⟨fun h => ⟨fun _ => .fine, h⟩, fun ⟨_, h⟩ => h⟩
  | exit code => exact ⟨fun h => ⟨fun _ => .fine, h⟩, fun ⟨_, h⟩ => h⟩
  | call o k ih =>
    constructor
    · rintro ⟨c, hc⟩
      obtain ⟨σ, hσ⟩ := (ih _).mp hc
      exact ⟨fun | 0 => c | n + 1 => σ n, hσ⟩
    · rintro ⟨σ, hσ⟩
      exact ⟨σ 0, (ih _).mpr ⟨fun n => σ (n + 1), hσ⟩⟩

/-- What always happens may happen. -/
theorem Ensures.may {c : Choice} (h : Ensures ok crash post p d) (hc : ok c) : May post p d :=
  may_iff.mpr ⟨fun _ => c, h.run fun _ => hc⟩

/-- What may happen one after another. -/
theorem May.bind {mid : α → Disk → Prop} {post : Outcome β → Disk → Prop} {f : α → Prog β}
    (h : May (fun r d => ∃ a, r = .returned a ∧ mid a d) p d)
    (hf : ∀ a d, mid a d → May post (f a) d) : May post (p >>= f) d := by
  induction p generalizing d with
  | ret a =>
    obtain ⟨b, hb, hmid⟩ := h
    obtain rfl := Outcome.returned.inj hb
    exact hf a d hmid
  | exit code =>
    obtain ⟨b, hb, -⟩ := h
    cases hb
  | call o k ih => exact h.imp fun c hc => ih _ hc

@[simp] theorem ensures_pure (a : α) :
    Ensures ok crash post (pure a) d ↔ crash d ∧ post (.returned a) d := Iff.rfl

end Prog

/-! ## Entries a program must not lose -/

/-- What is known of one name: the file it leads to and its contents, that it has an entry, or
that it has none. -/
inductive Pin where
  | file (name : Name) (ino : Ino) (data : Bytes)
  | entry (name : Name)
  | absent (name : Name)
  deriving DecidableEq, Repr

/-- The name a pin is about. -/
def Pin.name : Pin → Name
  | .file n _ _ => n
  | .entry n => n
  | .absent n => n

namespace Disk

/-- A pin holds of a disk, whatever a crash does to it. -/
def Fixes (d : Disk) : Pin → Prop
  | .file n i data => d.Pinned n i data
  | .entry n => ∃ i, d.Fixed n (some i)
  | .absent n => d.Fixed n none

/-- A well-formed disk on which every pin of a list holds. -/
structure Holds (d : Disk) (ps : List Pin) : Prop where
  wf : d.WF
  fixes : ∀ p ∈ ps, d.Fixes p

variable {d : Disk} {ps qs : List Pin} {n : Name} {i : Ino} {text data : Bytes}
  {P Q : File → Prop}

/-- Fewer pins hold too. -/
theorem Holds.subset (h : d.Holds ps) (hs : qs ⊆ ps) : d.Holds qs :=
  ⟨h.wf, fun p hp => h.fixes p (hs hp)⟩

/-- One more pin. -/
theorem Holds.cons {p : Pin} (h : d.Holds ps) (hp : d.Fixes p) : d.Holds (p :: ps) :=
  ⟨h.wf, by simpa using ⟨hp, h.fixes⟩⟩

/-- A crash keeps every pin. -/
theorem Fixes.crash {p : Pin} (h : d.Fixes p) (keep : List Bool) (junk : Ino → Bytes) :
    (d.crash keep junk).Fixes p := by
  cases p with
  | file n i data => exact Pinned.crash h keep junk
  | entry n => exact h.imp fun i hi => hi.crash keep junk
  | absent n => exact Fixed.crash h keep junk

/-- **A crash keeps all pins.** -/
theorem Holds.crash (h : d.Holds ps) (keep : List Bool) (junk : Ino → Bytes) :
    (d.crash keep junk).Holds ps :=
  ⟨h.wf.crash keep junk, fun p hp => Fixes.crash (h.fixes p hp) keep junk⟩

/-- A call on other names and other files than that of a pin keeps the pin. -/
theorem Fixes.of_effect {p : Pin} (h : d.Fixes p) (hwf : d.WF) {o : Op} {d' : Disk}
    (hn : SparesName p.name o) (hi : ∀ n i data, p = .file n i data → SparesFile i o)
    (he : Effect d o d') : d'.Fixes p := by
  cases p with
  | file n i data => exact Pinned.of_effect h hwf hn (hi n i data rfl) he
  | entry n => exact h.imp fun i hf => hf.of_effect hn he
  | absent n => exact Fixed.of_effect h hn he

/-- A call that touches no name of a list, writes to no open file and renames nothing. -/
def NamesSpared (names : List Name) : Op → Prop
  | .openWrite m | .unlink m => m ∉ names
  | .rename _ _ | .print _ _ | .flush _ | .fsync _ | .close _ => False
  | _ => True

/-- **A call that spares the names of all pins keeps the pins.** -/
theorem Holds.of_spared (h : d.Holds ps) {o : Op} (ho : NamesSpared (ps.map Pin.name) o)
    (c : Choice) : (perform d o c).2.Holds ps := by
  refine ⟨h.wf.of_effect ?_ (perform_effect d o c), fun p hp => ?_⟩
  · rintro a b rfl
    exact ho
  have hn : p.name ∈ ps.map Pin.name := List.mem_map_of_mem hp
  refine Fixes.of_effect (h.fixes p hp) h.wf ?_ ?_ (perform_effect d o c)
  · cases o <;> simp only [NamesSpared, SparesName] at ho ⊢ <;> exact fun he => ho (he ▸ hn)
  · rintro _ i _ -
    cases o <;> simp only [NamesSpared, SparesFile] at ho ⊢

/-! ## A file being written -/

/-- While the pins hold, the entry `n`, which none of them is about, leads to the file `i`, of
which `P` is known. -/
structure Writing (d : Disk) (ps : List Pin) (n : Name) (i : Ino) (P : File → Prop) : Prop where
  holds : d.Holds ps
  other : n ∉ ps.map Pin.name
  entry : d.lookup n = some i
  file : P (d.files i)

/-- The file being written is the file of no pin. -/
theorem Writing.ne (h : d.Writing ps n i P) {m : Name} {j : Ino}
    (hp : Pin.file m j data ∈ ps) : i ≠ j := by
  rintro rfl
  have hm : d.Pinned m i data := h.holds.fixes _ hp
  have hnm := h.holds.wf.injective n m i (names_of_lookup h.entry) (names_of_lookup hm.lookup)
  exact h.other (hnm ▸ List.mem_map_of_mem hp)

/-- **A call on the file being written** keeps the pins, and what it does to the file is all that
changes. -/
theorem Writing.modifyFile (h : d.Writing ps n i P) {f : File → File}
    (hf : P (d.files i) → Q (f (d.files i))) : (d.modifyFile i f).Writing ps n i Q := by
  refine ⟨⟨h.holds.wf.modifyFile f, fun p hp => ?_⟩, h.other, h.entry, ?_⟩
  · cases p with
    | file m j data => exact Pinned.modifyFile (h.holds.fixes _ hp) (h.ne hp) f
    | entry m =>
      obtain ⟨j, hj⟩ : ∃ j, d.Fixed m (some j) := h.holds.fixes _ hp
      exact ⟨j, hj.durable, hj.quiet⟩
    | absent m =>
      have ha : d.Fixed m none := h.holds.fixes _ hp
      exact ⟨ha.durable, ha.quiet⟩
  · rw [files_modifyFile_self]; exact hf h.file

/-- Opening a name for writing that no pin is about: it fails and the pins hold, or an empty file
is being written. -/
theorem Holds.openWrite (h : d.Holds ps) (hn : n ∉ ps.map Pin.name) (c : Choice) :
    let r := perform d (.openWrite n) c
    r.1 = none ∧ r.2.Holds ps ∨
      ∃ i, r.1 = some i ∧ r.2.Writing ps n i (·.text = []) := by
  have hkeep : (perform d (.openWrite n) c).2.Holds ps :=
    h.of_spared (o := .openWrite n) hn c
  revert hkeep
  simp only [perform]
  split
  · exact fun hkeep => Or.inl ⟨rfl, hkeep⟩
  · split
    · rename_i i hi
      exact fun hkeep => Or.inr ⟨i, rfl, hkeep, hn, hi, by simp [File.text]⟩
    · refine fun hkeep => Or.inr ⟨d.fresh, rfl, hkeep, hn, ?_, by simp [create, File.text]⟩
      rw [lookup_create, if_pos rfl]

/-- Less may be known of the file. -/
theorem Writing.mono (h : d.Writing ps n i P) (hf : ∀ f, P f → Q f) : d.Writing ps n i Q :=
  ⟨h.holds, h.other, h.entry, hf _ h.file⟩

/-- A print that succeeds adds to the text. -/
theorem Writing.print (h : d.Writing ps n i (·.text = text)) (s : Bytes) (c : Choice) :
    (perform d (.print i s) c).2.Writing ps n i
      fun f => (perform d (.print i s) c).1 = true → f.text = text ++ s := by
  simp only [perform]
  split <;> dsimp only
  · exact h.modifyFile fun _ hf => Bool.noConfusion hf
  · refine h.modifyFile fun ht _ => ?_
    simp only [File.text, File.writeThrough] at ht ⊢
    rw [List.append_assoc, List.take_append_drop, ← List.append_assoc, ht]

/-- A flush that succeeds leaves the text in the file and nothing in the buffer. -/
theorem Writing.flush (h : d.Writing ps n i (·.text = text)) (c : Choice) :
    (perform d (.flush i) c).2.Writing ps n i
      fun f => (perform d (.flush i) c).1 = true → f.data = text ∧ f.buffered = [] := by
  simp only [perform]
  split <;> dsimp only
  · exact h.modifyFile fun _ hf => Bool.noConfusion hf
  · refine h.modifyFile fun ht _ => ?_
    simpa [File.text, File.writeThrough] using ht

/-- An fsync that succeeds makes the contents durable. -/
theorem Writing.fsync (h : d.Writing ps n i fun f => f.data = text ∧ f.buffered = [])
    (c : Choice) : (perform d (.fsync i) c).2.Writing ps n i fun f =>
      f.data = text ∧ f.buffered = [] ∧ ((perform d (.fsync i) c).1 = true → f.synced = true) := by
  simp only [perform]
  split <;> dsimp only
  · exact h.mono fun f hf => ⟨hf.1, hf.2, Bool.noConfusion⟩
  · exact h.modifyFile fun hf => ⟨hf.1, hf.2, fun _ => rfl⟩

/-- Closing a stream with nothing in its buffer changes nothing that is known of the file. -/
theorem Writing.close_flushed (h : d.Writing ps n i fun f =>
    f.data = text ∧ f.buffered = [] ∧ f.synced = true) (c : Choice) :
    (perform d (.close i) c).2.Writing ps n i fun f => f.data = text ∧ f.synced = true := by
  simp only [perform]
  split <;> dsimp only
  · refine h.modifyFile fun hf => ?_
    obtain ⟨hd, hb, hs⟩ := hf
    rw [if_pos hb]
    exact ⟨hd, hs⟩
  · refine h.modifyFile fun hf => ?_
    obtain ⟨hd, hb, hs⟩ := hf
    simp [File.writeThrough, hb, hd, hs]

/-- Closing the stream, whatever is in its buffer, keeps the entry and the pins. -/
theorem Writing.close (h : d.Writing ps n i P) (c : Choice) :
    (perform d (.close i) c).2.Writing ps n i fun _ => True := by
  simp only [perform]
  split <;> dsimp only <;> exact h.modifyFile fun _ => trivial

/-- Fsyncing the directory keeps the pins. -/
theorem Holds.syncDir (h : d.Holds ps) : d.syncDir.Holds ps := by
  have hspared := @Holds.of_spared d ps h .fsyncDir trivial .fine
  exact hspared

/-- Fsyncing the directory fixes the entry of the written file. -/
theorem Writing.entry_syncDir (h : d.Writing ps n i P) : d.syncDir.Holds (.entry n :: ps) :=
  h.holds.syncDir.cons ⟨i, fixed_syncDir h.entry⟩

/-- **Fsyncing the directory pins the written file.** -/
theorem Writing.syncDir (h : d.Writing ps n i fun f => f.data = data ∧ f.synced = true) :
    d.syncDir.Holds (.file n i data :: ps) :=
  h.holds.syncDir.cons (pinned_syncDir h.entry h.file.1 h.file.2)

/-! ## Directories with given files -/

/-- An empty directory. -/
def empty : Disk := ⟨∅, [], fun _ => ⟨[], [], true⟩, 0⟩

/-- The directory with one more file, settled. -/
def add (d : Disk) (n : Name) (data : Bytes) : Disk :=
  ((d.create n).modifyFile d.fresh fun _ => ⟨data, [], true⟩).syncDir

/-- Nothing is pinned in an empty directory. -/
theorem holds_empty : empty.Holds [] := by
  have hnone : ∀ n i, ¬ empty.Names n i := by
    rintro n i (h | ⟨c, hc, -⟩)
    · cases h
    · cases hc
  exact ⟨⟨fun n i h => absurd h (hnone n i), fun n _ i h => absurd h (hnone n i)⟩, by simp⟩

/-- An added file is pinned beside the others. -/
theorem Holds.add (h : d.Holds ps) (hn : n ∉ ps.map Pin.name) (hnone : d.lookup n = none) :
    (d.add n data).Holds (.file n d.fresh data :: ps) := by
  have hopen := h.openWrite hn .fine
  simp only [perform, Choice.fine, Bool.false_eq_true, ↓reduceIte, hnone] at hopen
  obtain ⟨i, hi, hwriting⟩ := hopen.resolve_left (by simp)
  obtain rfl : d.fresh = i := Option.some.inj hi
  have hwritten : ((d.create n).modifyFile d.fresh fun _ => ⟨data, [], true⟩).Writing ps n d.fresh
      fun f => f.data = data ∧ f.synced = true :=
    hwriting.modifyFile fun _ => ⟨rfl, rfl⟩
  exact hwritten.syncDir

/-- An added file is all that is added. -/
theorem lookup_add {m : Name} :
    (d.add n data).lookup m = if m = n then some d.fresh else d.lookup m := by
  have hadd : (d.add n data).lookup m = (d.create n).lookup m := rfl
  rw [hadd, lookup_create]

/-! ## Renaming the written file -/

variable {a b : Name} {p : Pin} {old : List Pin}

/-- A pin on a third name holds of a disk whose directory has been settled with a rename made. -/
theorem Fixes.renamed (h : d.Fixes p) {d' : Disk} (ha : p.name ≠ a) (hb : p.name ≠ b)
    (hpending : d'.pending = []) (hfiles : ∀ n j data, p = .file n j data → d'.files j = d.files j)
    {dir : Dir} (hdir : ∀ v, d.Fixed p.name v → dir.lookup p.name = v)
    (hdurable : d'.durable = (Change.rename a b i).apply dir) : d'.Fixes p := by
  have hfixed : ∀ v, d.Fixed p.name v → d'.Fixed p.name v := fun v hv => by
    refine ⟨?_, by simp [hpending]⟩
    rw [hdurable, Change.lookup_apply_of_not_touches, hdir v hv]
    rintro (rfl | rfl)
    exacts [ha rfl, hb rfl]
  cases p with
  | file n j data =>
    have hpin : d.Pinned n j data := h
    have hf := hfiles n j data rfl
    exact ⟨hfixed _ hpin.toFixed, by rw [hf]; exact hpin.data, by rw [hf]; exact hpin.synced⟩
  | entry n => exact h.imp fun j hj => hfixed _ hj
  | absent n => exact hfixed _ h

/-- A renamed file shows its contents under its new name. -/
theorem Writing.contents_rename (h : d.Writing ps a i fun f => f.data = data ∧ f.synced = true) :
    (d.change (.rename a b i)).contents b = some data := by
  have hentry : (d.change (.rename a b i)).lookup b = some i := by
    rw [lookup_change]
    exact AList.lookup_insert _
  rw [contents, hentry]
  exact congrArg some h.file.1

/-- The renamed file is pinned under its new name once the directory is settled. -/
theorem pinned_renamed {d' : Disk} {dir : Dir} (hpending : d'.pending = [])
    (hdurable : d'.durable = (Change.rename a b i).apply dir) (hdata : (d'.files i).data = data)
    (hsynced : (d'.files i).synced = true) : d'.Pinned b i data := by
  refine ⟨⟨?_, by simp [hpending]⟩, hdata, hsynced⟩
  rw [hdurable]
  exact AList.lookup_insert _

/-- **A crash while the rename of a written file is pending** finds the rename made or not made:
all pins hold as before, or the file is pinned under its new name and those pins hold that are
about other names. -/
theorem Writing.rename_crash
    (h : d.Writing (old ++ ps) a i fun f => f.data = data ∧ f.synced = true)
    (hb : b ∉ ps.map Pin.name) (keep : List Bool) (junk : Ino → Bytes) :
    ((d.change (.rename a b i)).crash keep junk).Holds (old ++ ps) ∨
      ((d.change (.rename a b i)).crash keep junk).Holds (.file b i data :: ps) := by
  have hwf := @WF.rename_crash _ _ _ b h.holds.wf h.entry keep junk
  rcases crash_change d (.rename a b i) keep junk with hc | hc <;> rw [hc] at hwf ⊢
  · exact Or.inl (h.holds.crash keep junk)
  · refine Or.inr (Holds.cons ⟨hwf, fun q hq => ?_⟩ ?_)
    · have hqs : q ∈ old ++ ps := List.mem_append_right _ hq
      have hqa : q.name ≠ a := fun he => h.other (he ▸ List.mem_map_of_mem hqs)
      have hqb : q.name ≠ b := fun he => hb (he ▸ List.mem_map_of_mem hq)
      exact Fixes.renamed ((h.holds.fixes q hqs).crash keep junk) hqa hqb rfl
        (fun _ _ _ _ => rfl) (fun v hv => hv.durable) rfl
    · exact pinned_renamed rfl rfl (by simp [Disk.crash, h.file.1, h.file.2]) rfl

/-- **Fsyncing the directory after the rename of a written file** pins the file under its new
name. -/
theorem Writing.rename_syncDir
    (h : d.Writing (old ++ ps) a i fun f => f.data = data ∧ f.synced = true)
    (hb : b ∉ ps.map Pin.name) :
    (d.change (.rename a b i)).syncDir.Holds (.file b i data :: ps) := by
  refine Holds.cons ⟨h.holds.wf.rename_syncDir h.entry, fun q hq => ?_⟩ ?_
  · have hqs : q ∈ old ++ ps := List.mem_append_right _ hq
    have hqa : q.name ≠ a := fun he => h.other (he ▸ List.mem_map_of_mem hqs)
    have hqb : q.name ≠ b := fun he => hb (he ▸ List.mem_map_of_mem hq)
    exact Fixes.renamed (h.holds.fixes q hqs) hqa hqb rfl (fun _ _ _ _ => rfl)
      (fun v hv => hv.lookup) (current_change _)
  · exact pinned_renamed rfl (current_change _) h.file.1 h.file.2

end Disk

/-! ## Rules for the calls -/

namespace Prog

variable {α β : Type} {ok : Choice → Prop} {crash : Disk → Prop} {post : Outcome α → Disk → Prop}
  {d : Disk}

/-- One call, as a program. -/
def op (o : Op) : Prog o.Result := .call o .ret

/-- One call is the only call it makes. -/
theorem calls_op {C : Op → Prop} {o : Op} : Calls C (op o) ↔ C o :=
  ⟨fun h => h.1, fun h => ⟨h, fun _ => trivial⟩⟩

/-- A call and what follows it: the crash condition holds before the call, and whatever it
reports, the rest goes on from the disk it leaves. -/
theorem ensures_op_bind {o : Op} {f : o.Result → Prog α} :
    Ensures ok crash post (op o >>= f) d ↔
      crash d ∧ ∀ c, ok c → Ensures ok crash post (f (perform d o c).1) (perform d o c).2 :=
  Iff.rfl

/-- What a call and what follows it may do. -/
theorem may_op_bind {o : Op} {f : o.Result → Prog α} :
    May post (op o >>= f) d ↔ ∃ c, May post (f (perform d o c).1) (perform d o c).2 :=
  Iff.rfl

/-- Where no call fails, none has failed. -/
theorem not_fault : ¬ ∃ c : Choice, c.Fine ∧ ¬ c.Fine := fun ⟨_, hc, hnot⟩ => hnot hc

/-- What a program that reports a status does: it returns the good value and leaves a good disk, or
anything else happens, which takes a call that fails, and it leaves a disk that is not as good. -/
def Reports (ok : Choice → Prop) (value : α) (good bad : Disk → Prop) : Outcome α → Disk → Prop :=
  fun r d => r = .returned value ∧ good d ∨ r ≠ .returned value ∧ (∃ c, ok c ∧ ¬ c.Fine) ∧ bad d

/-- Less may be reported. -/
theorem Reports.mono {value : α} {good bad good' bad' : Disk → Prop} {r : Outcome α}
    (h : Reports ok value good bad r d) (hgood : ∀ d, good d → good' d)
    (hbad : ∀ d, bad d → bad' d) : Reports ok value good' bad' r d :=
  h.imp (And.imp_right (hgood d)) (And.imp_right (And.imp_right (hbad d)))

/-- When no call fails, the good value is returned. -/
theorem Reports.fine {value : α} {good bad : Disk → Prop} {r : Outcome α}
    (h : Reports Choice.Fine value good bad r d) : r = .returned value ∧ good d :=
  h.resolve_right fun hbad => not_fault hbad.2.1

/-- When the good value is returned, the disk is good. -/
theorem Reports.good {value : α} {good bad : Disk → Prop} {r : Outcome α}
    (h : Reports ok value good bad r d) (hr : r = .returned value) : good d :=
  (h.resolve_right fun hbad => hbad.1 hr).2

/-- The end of the process. -/
theorem ensures_exit {code : ℕ} :
    Ensures ok crash post (.exit code) d ↔ crash d ∧ post (.exited code) d := Iff.rfl

end Prog
