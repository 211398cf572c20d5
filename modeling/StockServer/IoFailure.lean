import StockServer.Workers

set_option relaxedAutoImplicit false
set_option autoImplicit false

/-!
# A connection that fails ends the process

An error of `read` or `write` other than `EINTR` reaches `unix_error` through `Rio_readlineb` or
`Rio_writen`, and `unix_error` calls `exit`.  So a client that resets its connection does not just
lose that connection: no worker does anything afterwards.

## Main definitions

* `Phase.Fails`, `IoFails` — the next action of a worker is a read or a write that fails.
* `Survives` — the failing worker drops its connection and everything else goes on as if that
  client had closed it.

## Main results

* `workerStep_of_ioFails` — the step that fails ends the process.
* `not_survives_of_ioFails` — in no run does the server survive the failure of a connection.
-/

namespace StockServer

variable {ι : Type} [DecidableEq ι]

/-- The next action in this phase is a `Rio_readlineb` or a `Rio_writen` that fails with an error
other than `EINTR`. -/
def Phase.Fails (conn : Conn) : Phase → Prop
  | .reading => (rioReadlineb (maxLine - 1) conn.rio).1 = none
  | .sending _ _ response => (rioWriten conn.writes response.text).ok = false
  | _ => False

instance (conn : Conn) : (phase : Phase) → Decidable (phase.Fails conn)
  | .reading => inferInstanceAs (Decidable (_ = none))
  | .sending _ _ _ => inferInstanceAs (Decidable (_ = false))
  | .idle | .parsing _ | .validating _ | .locking _ | .holding _ _ | .formatting _ _ _ =>
    isFalse id

/-- The next action of worker `w` fails on its connection. -/
def IoFails (s : Pool ι) (w : ι) : Prop :=
  s.exited = false ∧ (s.worker w).phase.Fails (s.worker w).conn

instance (s : Pool ι) (w : ι) : Decidable (IoFails s w) := inferInstanceAs (Decidable (_ ∧ _))

/-- The server survives this step of worker `w`: the process goes on, the worker has closed the
connection and is back at the queue, the store is as it was, and every schedule runs on as if the
client had sent end of file. -/
structure Survives (s : Pool ι) (w : ι) : Prop where
  alive : (workerStep s w).1.exited = false
  back : ((workerStep s w).1.worker w).phase = .idle
  store : (workerStep s w).1.store = s.store
  others : ∀ schedule, workers.run (workerStep s w).1 schedule =
    workers.run (s.goto w .idle) schedule

/-- **The step that fails ends the process** and shows nothing. -/
theorem workerStep_of_ioFails {s : Pool ι} {w : ι} (h : IoFails s w) :
    workerStep s w = ({ s with exited := true }, []) := by
  obtain ⟨halive, hfails⟩ := h
  unfold workerStep
  rw [if_neg (by simp [halive])]
  cases hphase : (s.worker w).phase with
  | reading =>
    rw [hphase, Phase.Fails] at hfails
    rcases hread : rioReadlineb (maxLine - 1) (s.worker w).conn.rio with ⟨line, rio⟩
    simp only [hread] at hfails ⊢
    rw [hfails]
  | sending request status response =>
    rw [hphase, Phase.Fails] at hfails
    simp only [hfails, Bool.false_eq_true, ↓reduceIte]
  | _ => rw [hphase] at hfails; exact hfails.elim

/-- When the process has ended, no worker does anything any more. -/
theorem run_of_exited {s : Pool ι} (h : s.exited = true) (schedule : List ι) :
    workers.run s schedule = (s, []) := by
  have hstep : ∀ w, workerStep s w = (s, []) := fun w => by rw [workerStep, if_pos h]
  induction schedule with
  | nil => rfl
  | cons w schedule ih =>
    rw [Machine.run_cons]
    simp only [workers, hstep] at ih ⊢
    rw [ih]
    rfl

/-- **In no run does the server survive the failure of a connection**: wherever the run has got
to and whichever worker it strikes, the process ends and serves nobody any more. -/
theorem not_survives_of_ioFails (start : Pool ι) (schedule : List ι) (w : ι)
    (h : IoFails (workers.run start schedule).1 w) :
    ¬ Survives (workers.run start schedule).1 w ∧
      ∀ rest, workers.run start (schedule ++ w :: rest) =
        ({ (workers.run start schedule).1 with exited := true },
          (workers.run start schedule).2) := by
  have hstep := workerStep_of_ioFails h
  refine ⟨fun hs => ?_, fun rest => ?_⟩
  · have halive := hs.alive
    rw [hstep] at halive
    cases halive
  · have hrest := @run_of_exited _ _ { (workers.run start schedule).1 with exited := true } rfl rest
    have hcons : workers.run (workers.run start schedule).1 (w :: rest) =
        ({ (workers.run start schedule).1 with exited := true }, []) := by
      rw [Machine.run_cons]
      simp only [workers] at hrest hstep ⊢
      rw [hstep, hrest]
      rfl
    rw [Machine.run_append, hcons, List.append_nil]

/-- Two workers: the client of the first has reset its connection, the client of the second has
sent a request. -/
def resetPool : Pool Bool where
  worker w := ⟨⟨rioReadinitb (if w then [.bytes (ascii "show\n")] else [.error]), []⟩, .reading⟩
  holder := none
  store := .nil
  queue := []
  exited := false

/-- The first client's reset is a failure at its first read. -/
theorem ioFails_resetPool : IoFails resetPool false := ⟨rfl, rfl⟩

/-- So the worker of the reset connection does not survive its next action. -/
theorem not_survives_of_ioFails_resetPool :
    ¬ Survives (workers.run resetPool []).1 false :=
  (not_survives_of_ioFails resetPool [] false ioFails_resetPool).1

/-- A reset connection ends the process before the other client is served. -/
theorem resetPool_not_survives : IoFails resetPool false ∧ ¬ Survives resetPool false ∧
    (workers.run resetPool [false, true]).1.exited = true ∧
      (workers.run resetPool [false, true]).2 = [] ∧
      (workers.run resetPool [true]).2 = [.received true (ascii "show\n")] := by
  refine ⟨ioFails_resetPool, fun hs => ?_, rfl, rfl, ?_⟩
  · have halive := hs.alive
    rw [workerStep_of_ioFails ioFails_resetPool] at halive
    cases halive
  · decide +kernel

end StockServer
