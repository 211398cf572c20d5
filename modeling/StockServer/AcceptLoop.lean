import StockServer.Shutdown

set_option relaxedAutoImplicit false
set_option autoImplicit false

/-!
# The request to shut down and the accept loop

Whether the main thread notices that `shutdown_requested` has been set.  The accept loop tests the
flag and then calls `accept`; the handler interrupts `accept` if it runs in the main thread while
that is inside the call.  A handler that runs in a worker does not, and neither does one that runs
between the test and the call: then the main thread waits in `accept` until a client connects, and
serves it.

## Main definitions

* `AcceptServer`, `acceptServer` — the process with whether the main thread is inside `accept`, and
  the machine.
* `InTime` — the handler runs at a moment at which the main thread notices.
* `Unheeded` — the flag is set and the main thread is past the test of the accept loop, or in
  `accept`.

## Main results

* `acceptServer_server` — the process does what it does without the distinction.
* `inTime_iff` — no state of a run is unheeded if and only if the handler has always run in time.
* `shutdown_heeded` — **if the handler runs in time, the accept loop is left without another
  client**.
-/

namespace StockServer

/-- The process, and whether the main thread is inside `accept`. -/
structure AcceptServer where
  server : Server
  inAccept : Bool

/-- `accept` has returned a descriptor; the flag was set or not. -/
inductive AcceptEvent where
  | accepted (requested : Bool) (connfd : Int32)
  deriving DecidableEq, Repr

/-- One action of the main thread: at `accept`, it enters the call, or returns from it with what
the call reports; it reports `EINTR` to no thread in which no handler has run. -/
def acceptMainStep (s : AcceptServer) (accepted : Accepted) (fails : Bool) :
    AcceptServer × List AcceptEvent :=
  let next := (serverStep s.server (.main accepted fails)).1
  match s.server.main, s.inAccept with
  | .accepting, false => (⟨s.server, true⟩, [])
  | .accepting, true =>
    if accepted.connfd < 0 then
      if accepted.eintr then (s, []) else (⟨next, false⟩, [])
    else (⟨next, false⟩, [.accepted s.server.shutdownRequested accepted.connfd])
  | _, _ => (⟨next, s.inAccept⟩, [])

/-- `request_shutdown` runs in a thread.  In the main thread inside `accept`, the call fails with
`EINTR`, and the loop goes on to its test. -/
def acceptSignalStep (s : AcceptServer) (thread : Option WorkerId) : AcceptServer :=
  let next := (serverStep s.server (.signal thread)).1
  if thread = none ∧ s.inAccept then
    ⟨(serverStep next (.main interruptedAccept false)).1, false⟩
  else ⟨next, s.inAccept⟩

/-- One step of the process; nothing happens once it has ended. -/
def acceptStep (s : AcceptServer) (input : ServerInput) : AcceptServer × List AcceptEvent :=
  if s.server.pool.exited then (s, [])
  else match input with
    | .main accepted fails => acceptMainStep s accepted fails
    | .worker w closeFails =>
      (⟨(serverStep s.server (.worker w closeFails)).1, s.inAccept⟩, [])
    | .signal thread => (acceptSignalStep s thread, [])

/-- The process as a machine. -/
def acceptServer : Machine AcceptServer ServerInput AcceptEvent := ⟨acceptStep⟩

/-- The process when all workers have been started. -/
def acceptStart (store : StockStore) (fds : ℕ → Int32) (conns : Int32 → Conn) (requested : Bool) :
    AcceptServer := ⟨serverStart store fds conns requested, false⟩

/-- The handler runs in the main thread, but not between the test of the flag and the call of
`accept`; or in a worker, but not between the test and the return of `accept`, unless it ends the
process. -/
def InTime (s : AcceptServer) : ServerInput → Prop
  | .signal thread => s.server.pool.exited = false → s.server.main = .accepting →
      if thread = none then s.inAccept = true else s.server.Blocked thread
  | .main _ _ | .worker _ _ => True

instance (s : AcceptServer) : (input : ServerInput) → Decidable (InTime s input)
  | .signal thread => inferInstanceAs (Decidable (_ = _ → _ = _ →
      if thread = none then s.inAccept = true else s.server.Blocked thread))
  | .main _ _ | .worker _ _ => isTrue trivial

/-- The process runs, the flag is set, and the main thread is past the test of the accept loop or
in `accept`. -/
def Unheeded (s : AcceptServer) : Prop :=
  s.server.pool.exited = false ∧ s.server.shutdownRequested = true ∧ s.server.main = .accepting

/-! ## The process without the distinction -/

variable {s : AcceptServer}

/-- A step does to the process what some steps without the distinction do. -/
theorem acceptStep_server (s : AcceptServer) (input : ServerInput) :
    ∃ inputs, (acceptStep s input).1.server = (server.run s.server inputs).1 := by
  unfold acceptStep
  split_ifs
  · exact ⟨[], rfl⟩
  cases input with
  | main accepted fails =>
    dsimp only
    unfold acceptMainStep
    dsimp only
    split
    · exact ⟨[], rfl⟩
    · split_ifs
      · exact ⟨[], rfl⟩
      · exact ⟨[.main accepted fails], rfl⟩
      · exact ⟨[.main accepted fails], rfl⟩
    · exact ⟨[.main accepted fails], rfl⟩
  | worker w closeFails => exact ⟨[.worker w closeFails], rfl⟩
  | signal thread =>
    dsimp only
    unfold acceptSignalStep
    dsimp only
    split_ifs
    · exact ⟨[.signal thread, .main interruptedAccept false], rfl⟩
    · exact ⟨[.signal thread], rfl⟩

/-- **The process does what it does without the distinction**: every run is a run of the server. -/
theorem acceptServer_server (s : AcceptServer) (inputs : List ServerInput) :
    ∃ inputs', (acceptServer.run s inputs).1.server = (server.run s.server inputs').1 := by
  induction inputs generalizing s with
  | nil => exact ⟨[], rfl⟩
  | cons input inputs ih =>
    obtain ⟨first, hfirst⟩ := acceptStep_server s input
    obtain ⟨rest, hrest⟩ := ih (acceptStep s input).1
    refine ⟨first ++ rest, ?_⟩
    rw [Machine.run_append, ← hfirst, ← hrest]
    rfl

/-! ## What the steps do -/

/-- The main thread gets to `accept` from the test of the flag only, and does not set the flag. -/
theorem mainStep_accepting (s : Server) (accepted : Accepted) (fails : Bool) :
    (mainStep s accepted fails).shutdownRequested = s.shutdownRequested ∧
      ((mainStep s accepted fails).main = .accepting →
        s.main = .looping ∧ s.shutdownRequested = false) := by
  unfold mainStep
  cases hmain : s.main <;> dsimp only
  case looping => cases s.shutdownRequested <;> simp [MainPc.pill]
  case accepting => split_ifs <;> simp [MainPc.pill]
  case inserting pc => split <;> simp [hmain]
  case stopping status i pc =>
    split
    · simp [hmain]
    · split_ifs <;> simp [MainPc.pill]
    · simp
  case joining status i => split_ifs <;> simp [hmain]
  case closing status => split_ifs <;> simp [Server.exit, hmain]
  case stopped status => split_ifs <;> simp [Server.exit, hmain]
  case published => simp [Server.exit, hmain]

/-- A worker does not set the flag. -/
theorem requested_serveStep (s : Server) (w : WorkerId) (closeFails : Bool) :
    (serveStep s w closeFails).1.shutdownRequested = s.shutdownRequested := by
  unfold serveStep
  split_ifs with hreturned hidle hout
  · rfl
  · rfl
  · split
    · rfl
    · dsimp only
      split
      · split_ifs <;> rfl
      · rfl
  · dsimp only
    split_ifs <;> rfl

/-- The handler sets the flag, and ends the process if the thread was blocked in `P`; it moves no
thread. -/
theorem signalStep_frame (s : Server) (thread : Option WorkerId) :
    (signalStep s thread).shutdownRequested = true ∧ (signalStep s thread).main = s.main ∧
      (s.Blocked thread → (signalStep s thread).pool.exited = true) ∧
      (¬ s.Blocked thread → (signalStep s thread).pool = s.pool) := by
  unfold signalStep
  dsimp only
  split_ifs with hblocked
  · exact ⟨rfl, rfl, fun _ => rfl, fun hnot => absurd hblocked hnot⟩
  · exact ⟨rfl, rfl, fun h => absurd h hblocked, fun _ => rfl⟩

/-- At `accept` the main thread is not blocked in `P`. -/
theorem not_blocked_of_accepting {s : Server} (h : s.main = .accepting) : ¬ s.Blocked none := by
  rintro ⟨hpc, -⟩
  rw [Server.queuePc, h] at hpc
  exact hpc rfl

/-- An interrupted `accept` brings the main thread back to the test of the flag. -/
theorem mainStep_interrupted {s : Server} (h : s.main = .accepting) (fails : Bool) :
    (mainStep s interruptedAccept fails).main = .looping := by
  unfold mainStep
  rw [h]
  rfl

/-! ## The invariant -/

/-- **The invariant of runs in which the handler runs in time**: the main thread is inside `accept`
only when it is at `accept`, and no request is unheeded. -/
structure AcceptInv (s : AcceptServer) : Prop where
  inside : s.inAccept = true → s.server.main = .accepting
  heeded : ¬ Unheeded s

/-- The main thread keeps the invariant, and accepts nothing once the flag is set. -/
theorem AcceptInv.mainStep (h : AcceptInv s) (hrun : s.server.pool.exited = false)
    (accepted : Accepted) (fails : Bool) :
    AcceptInv (acceptMainStep s accepted fails).1 ∧
      ∀ fd, .accepted true fd ∉ (acceptMainStep s accepted fails).2 := by
  have hstep : (serverStep s.server (.main accepted fails)).1 =
      StockServer.mainStep s.server accepted fails := by
    rw [serverStep, if_neg (by simp [hrun])]
  obtain ⟨hflag, haccepting⟩ := mainStep_accepting s.server accepted fails
  have hnext : ∀ inAccept, ¬ Unheeded ⟨StockServer.mainStep s.server accepted fails, inAccept⟩ := by
    rintro inAccept ⟨-, hset, hmain⟩
    rw [hflag, (haccepting hmain).2] at hset
    cases hset
  unfold acceptMainStep
  simp only [hstep]
  split
  · rename_i hmain _
    exact ⟨⟨fun _ => hmain, h.heeded⟩, by simp⟩
  · rename_i hmain _
    have hclear : s.server.shutdownRequested = false :=
      Bool.eq_false_of_not_eq_true fun hset => h.heeded ⟨hrun, hset, hmain⟩
    split_ifs
    · exact ⟨h, by simp⟩
    · exact ⟨⟨by simp, hnext _⟩, by simp⟩
    · exact ⟨⟨by simp, hnext _⟩, by simp [hclear]⟩
  · rename_i hfalse htrue
    have hout : s.inAccept = false := by
      by_contra hin
      rw [Bool.not_eq_false] at hin
      exact htrue (h.inside hin) hin
    exact ⟨⟨by simp [hout], hnext _⟩, by simp⟩

/-- A handler that runs in time keeps the invariant. -/
theorem AcceptInv.signalStep (h : AcceptInv s) (hrun : s.server.pool.exited = false)
    {thread : Option WorkerId} (hok : InTime s (.signal thread)) :
    AcceptInv (acceptSignalStep s thread) := by
  have hstep : (serverStep s.server (.signal thread)).1 =
      StockServer.signalStep s.server thread := by
    rw [serverStep, if_neg (by simp [hrun])]
  obtain ⟨-, hmain, hexit, hpool⟩ := signalStep_frame s.server thread
  unfold acceptSignalStep
  simp only [hstep]
  split_ifs with hinside
  · -- `accept` is interrupted
    obtain ⟨rfl, hin⟩ := hinside
    have haccepting := h.inside hin
    have halive : (StockServer.signalStep s.server none).pool.exited = false := by
      rw [hpool (not_blocked_of_accepting haccepting), hrun]
    have hlooping := mainStep_interrupted (hmain.trans haccepting) false
    refine ⟨by simp, ?_⟩
    rintro ⟨-, -, hbad⟩
    rw [serverStep, if_neg (by simp [halive])] at hbad
    rw [hlooping] at hbad
    cases hbad
  · refine ⟨fun hin => hmain.trans (h.inside hin), ?_⟩
    rintro ⟨halive, -, hbad⟩
    have htime := hok hrun (hmain.symm.trans hbad)
    by_cases hthread : thread = none
    · rw [if_pos hthread] at htime
      exact hinside ⟨hthread, htime⟩
    · rw [if_neg hthread] at htime
      rw [hexit htime] at halive
      cases halive

/-- **A step in time keeps the invariant**, and accepts nothing once the flag is set. -/
theorem AcceptInv.step (h : AcceptInv s) {input : ServerInput} (hok : InTime s input) :
    AcceptInv (acceptStep s input).1 ∧ ∀ fd, .accepted true fd ∉ (acceptStep s input).2 := by
  unfold acceptStep
  split_ifs with hexited
  · exact ⟨h, by simp⟩
  have hrun : s.server.pool.exited = false := Bool.eq_false_of_not_eq_true hexited
  cases input with
  | main accepted fails => exact h.mainStep hrun accepted fails
  | worker w closeFails =>
    have hstep : (serverStep s.server (.worker w closeFails)).1 =
        (serveStep s.server w closeFails).1 := by
      rw [serverStep, if_neg hexited]
    have hmain := (serveStep_frame s.server w closeFails).1
    refine ⟨⟨fun hin => ?_, ?_⟩, by simp⟩
    · dsimp only at hin ⊢
      rw [hstep, hmain]
      exact h.inside hin
    · rintro ⟨-, hset, hbad⟩
      dsimp only at hset hbad
      rw [hstep, requested_serveStep] at hset
      rw [hstep, hmain] at hbad
      exact h.heeded ⟨hrun, hset, hbad⟩
  | signal thread => exact ⟨h.signalStep hrun hok, by simp⟩

/-- The invariant holds when the workers have been started. -/
theorem AcceptInv.start (store : StockStore) (fds : ℕ → Int32) (conns : Int32 → Conn)
    (requested : Bool) : AcceptInv (acceptStart store fds conns requested) where
  inside hin := by cases hin
  heeded := by rintro ⟨-, -, ⟨⟩⟩

/-- **A handler that does not run in time is not noticed**: the main thread goes on in `accept`, or
into it, with the flag set. -/
theorem unheeded_of_late {input : ServerInput} (h : ¬ InTime s input) :
    Unheeded (acceptStep s input).1 := by
  cases input with
  | main accepted fails => exact absurd trivial h
  | worker w closeFails => exact absurd trivial h
  | signal thread =>
    simp only [InTime, Classical.not_imp] at h
    obtain ⟨hrun, haccepting, hlate⟩ := h
    obtain ⟨hflag, hmain, -, hpool⟩ := signalStep_frame s.server thread
    have hstep : (serverStep s.server (.signal thread)).1 =
        StockServer.signalStep s.server thread := by
      rw [serverStep, if_neg (by simp [hrun])]
    have hnot : ¬ s.server.Blocked thread := by
      split_ifs at hlate with hthread
      · rw [hthread]
        exact not_blocked_of_accepting haccepting
      · exact hlate
    have houtside : ¬ (thread = none ∧ s.inAccept = true) := by
      rintro ⟨hthread, hin⟩
      rw [if_pos hthread] at hlate
      exact hlate hin
    rw [acceptStep, if_neg (by simp [hrun])]
    dsimp only
    rw [acceptSignalStep, if_neg houtside, hstep]
    exact ⟨by dsimp only; rw [hpool hnot, hrun], hflag, hmain.trans haccepting⟩

/-! ## Runs -/

/-- **No state of a run is unheeded if and only if the handler has always run in time.** -/
theorem inTime_iff (store : StockStore) (fds : ℕ → Int32) (conns : Int32 → Conn)
    (requested : Bool) (inputs : List ServerInput) :
    acceptServer.Meets InTime (acceptStart store fds conns requested) inputs ↔
      ∀ before, before <+: inputs →
        ¬ Unheeded (acceptServer.run (acceptStart store fds conns requested) before).1 := by
  constructor
  · rintro h before ⟨after, rfl⟩
    rw [Machine.meets_append] at h
    exact (acceptServer.run_induction_meets (P := fun s _ => AcceptInv s)
      (.start store fds conns requested) (fun _ _ _ hok hs => (hs.step hok).1) before h.1).heeded
  · intro h
    induction inputs using List.reverseRecOn with
    | nil => trivial
    | append_singleton inputs input ih =>
      rw [Machine.meets_append]
      refine ⟨ih fun before hbefore => h before (hbefore.trans (List.prefix_append _ _)), ?_,
        trivial⟩
      by_contra hlate
      have hnext := h _ List.prefix_rfl
      rw [Machine.run_snoc] at hnext
      exact hnext (unheeded_of_late hlate)

/-- **If the handler runs in time, the accept loop is left without another client.**  In every run
from the start of the workers in which the handler runs in the main thread but not between the test
of the flag and the call of `accept`, or in a worker but not between the test and the return of
`accept`: no connection is accepted once the flag is set; and in every state reached with the flag
set the main thread is neither in `accept` nor about to call it, and at the test of the loop it goes
on to `stop_workers`, whatever `accept` would report.

**Proof sketch.** A handler in time leaves the main thread outside `accept`, and with the flag set
the test keeps it outside. -/
theorem shutdown_heeded (store : StockStore) (fds : ℕ → Int32) (conns : Int32 → Conn)
    (requested : Bool) (inputs : List ServerInput)
    (h : acceptServer.Meets InTime (acceptStart store fds conns requested) inputs) :
    let run := acceptServer.run (acceptStart store fds conns requested) inputs
    (∀ fd, .accepted true fd ∉ run.2) ∧
      (run.1.server.pool.exited = false → run.1.server.shutdownRequested = true →
        run.1.inAccept = false ∧ run.1.server.main ≠ .accepting ∧
          (run.1.server.main = .looping → ∀ accepted fails,
            (acceptStep run.1 (.main accepted fails)).1.server.main = .pill .ok 0)) := by
  intro run
  have hrun : AcceptInv run.1 ∧ ∀ fd, .accepted true fd ∉ run.2 := by
    refine acceptServer.run_induction_meets
      (P := fun s trace => AcceptInv s ∧ ∀ fd, .accepted true fd ∉ trace)
      ⟨.start store fds conns requested, by simp⟩ (fun s trace input hok hs => ?_) inputs h
    obtain ⟨hnext, hshown⟩ := hs.1.step hok
    refine ⟨hnext, fun fd hmem => ?_⟩
    exact (List.mem_append.mp hmem).elim (hs.2 fd) (hshown fd)
  refine ⟨hrun.2, fun halive hset => ?_⟩
  have hmain : run.1.server.main ≠ .accepting := fun hbad => hrun.1.heeded ⟨halive, hset, hbad⟩
  refine ⟨Bool.eq_false_of_not_eq_true fun hin => hmain (hrun.1.inside hin), hmain,
    fun hlooping accepted fails => ?_⟩
  have hnext : (serverStep run.1.server (.main accepted fails)).1 =
      mainStep run.1.server accepted fails := by
    rw [serverStep, if_neg (by simp [halive])]
  rw [acceptStep, if_neg (by simp [halive])]
  simp only [acceptMainStep, hnext]
  have hleft : (mainStep run.1.server accepted fails).main = .pill .ok 0 := by
    unfold mainStep
    rw [hlooping]
    dsimp only
    rw [if_pos hset]
  split
  · exact absurd ‹_› hmain
  · exact absurd ‹_› hmain
  · exact hleft

/-- The main thread is interrupted in `accept`, and leaves the loop. -/
theorem shutdown_heeded_interrupted :
    let step : ServerInput := .main interruptedAccept false
    let run := acceptServer.run (acceptStart .nil (fun _ => 0) (fun _ => ⟨rioReadinitb [], []⟩)
      false) [step, step, .signal none, step]
    (∀ fd, .accepted true fd ∉ run.2) ∧
      (run.1.server.pool.exited = false → run.1.server.shutdownRequested = true →
        run.1.inAccept = false ∧ run.1.server.main ≠ .accepting ∧
          (run.1.server.main = .looping → ∀ accepted fails,
            (acceptStep run.1 (.main accepted fails)).1.server.main = .pill .ok 0)) :=
  shutdown_heeded .nil (fun _ => 0) (fun _ => ⟨rioReadinitb [], []⟩) false _ (by decide)

/-- What `accept` reports for a client that connects. -/
def connected (fd : Int32) : Accepted := ⟨fd, false, ⟨rioReadinitb [], []⟩⟩

/-- Worker 0 serves a client when it is handed a `SIGTERM`, and the main thread waits in `accept`:
there it stays, accepts the next client and enqueues it. -/
theorem shutdown_unheeded :
    let step : ServerInput := .main interruptedAccept false
    let served := [step, step, .main (connected 5) false] ++ List.replicate 8 step ++
      List.replicate 8 (.worker 0 false) ++ [.signal (some 0)]
    let start := acceptStart .nil (fun _ => 0) (fun _ => ⟨rioReadinitb [], []⟩) false
    let run := acceptServer.run start served
    let later := acceptServer.run start (served ++ [.main (connected 6) false] ++
      List.replicate 6 step)
    (run.1.server.pool.exited = false ∧ run.1.server.shutdownRequested = true ∧
        run.1.inAccept = true) ∧
      .accepted true 6 ∈ later.2 ∧ later.1.server.queue.items = 1 ∧
      later.1.server.main = .looping := by
  decide +kernel

end StockServer
