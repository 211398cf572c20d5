import StockServer.ConnQueue
import StockServer.IoFailure

set_option relaxedAutoImplicit false
set_option autoImplicit false

/-!
# Shutdown of the server

`main` from the moment `run_server_stub` has started its workers: the accept loop, the insertion
of descriptors and of one poison pill per worker, the joins, the close of the listening socket,
and the publication of the final store.  The workers take descriptors from the queue and serve
them step by step as in the worker pool.  An input lets one thread act, with what its system call
reports, or delivers `SIGINT` or `SIGTERM` to one thread.

## Main definitions

* `MainPc`, `Server` — where the main thread is, and the state of the process.
* `mainStep`, `serveStep`, `signalStep`, `server` — one action of the main thread, one of a worker,
  the delivery of a signal, and the machine.
* `Orderly` — all workers have been joined and the final store has been handed to
  `materialize_store_generation`.
* `Undisturbed` — no signal strikes a thread blocked in `P`, and no system call fails.
* `HandOver`, `JoinSucceeds` — what holds of the joins and of the store handed over, as long as
  `pthread_join` does not fail.

## Main results

* `HandOver.step` — every step in which no join fails keeps the invariant of the hand-over.
* `signalStep_of_blocked` — a signal that strikes a thread blocked in `P` ends the process.
* `materialized_of_failed` — after a failed `accept` the store is never published.
* `orderly_of_undisturbed` — a process whose run is undisturbed ends only in order.

## Implementation notes

The handler is installed without `SA_RESTART`, so a `sem_wait` that blocks fails with `EINTR` when
the handler runs, and `P` calls `unix_error`.  `accept` reports `EINTR` through its own result.
`pthread_join` is not interrupted.  Results of calls that an action does not make are ignored.

A thread whose next action is `P` on a semaphore of value 0 counts as already waiting in it.  A
signal that strikes the thread just before it calls `P` is delivered one action earlier.
Allocations do not fail: `Malloc` and `Realloc` would end the process like every other wrapped call.
-/

namespace StockServer

/-- `STOCK_WORKER_COUNT`. -/
abbrev stockWorkerCount : ℕ := 8

/-- A worker of the pool. -/
abbrev WorkerId : Type := Fin stockWorkerCount

/-- `STOCK_QUEUE_STOP`. -/
def stockQueueStop : Int32 := -1

/-! ## The process -/

/-- Where the main thread is. -/
inductive MainPc where
  /-- At the test of the accept loop. -/
  | looping
  /-- Before the return of `accept`. -/
  | accepting
  /-- In `conn_queue_insert` of a connection. -/
  | inserting (pc : QueuePc)
  /-- In `conn_queue_insert` of poison pill number `i`. -/
  | stopping (status : StockStatus) (i : ℕ) (pc : QueuePc)
  /-- In `join_workers`, at worker number `i`. -/
  | joining (status : StockStatus) (i : ℕ)
  /-- Before `Close(listenfd)`. -/
  | closing (status : StockStatus)
  /-- Back in `main`, with the status of `run_server_stub`. -/
  | stopped (status : StockStatus)
  /-- In `main`, after `materialize_store_generation`. -/
  | published
  deriving DecidableEq

/-- The process: the workers with the store and whether the process has ended, the queue between
them and the main thread, where each worker is in `conn_queue_remove`, which workers have returned
and which have been joined, the connection behind each descriptor, and the store handed to
`materialize_store_generation`, if it has been called. -/
structure Server where
  pool : Pool WorkerId
  queue : ConnQueue
  removing : WorkerId → QueuePc
  returned : WorkerId → Bool
  joined : WorkerId → Bool
  conns : Int32 → Conn
  main : MainPc
  shutdownRequested : Bool
  materialized : Option StockStore

/-- The main thread is in `join_workers`. -/
def MainPc.isJoining : MainPc → Bool
  | .joining _ _ => true
  | _ => false

/-- What `accept` reports, and the connection behind a descriptor it returns. -/
structure Accepted where
  connfd : Int32
  eintr : Bool
  conn : Conn

/-- One input of the process. -/
inductive ServerInput where
  /-- The main thread acts; `fails` is for `pthread_join` and `Close(listenfd)`. -/
  | main (accepted : Accepted) (fails : Bool)
  /-- A worker acts; `closeFails` is for `Close(connfd)`. -/
  | worker (w : WorkerId) (closeFails : Bool)
  /-- The handler runs in the main thread, or in a worker. -/
  | signal (thread : Option WorkerId)

/-- The end of the process, by `exit` or by a return from `main`. -/
def Server.exit (s : Server) : Server := { s with pool := { s.pool with exited := true } }

/-- The start of `conn_queue_insert` of a poison pill. -/
def MainPc.pill (status : StockStatus) (i : ℕ) : MainPc :=
  .stopping status i (.insertSlots stockQueueStop)

/-- One action of the main thread. -/
def mainStep (s : Server) (accepted : Accepted) (fails : Bool) : Server :=
  match s.main with
  | .looping => { s with main := if s.shutdownRequested then .pill .ok 0 else .accepting }
  | .accepting =>
    if accepted.connfd < 0 then
      { s with main := if accepted.eintr then .looping else .pill .errInternal 0 }
    else
      { s with
        conns := Function.update s.conns accepted.connfd accepted.conn
        main := .inserting (.insertSlots accepted.connfd) }
  | .inserting pc =>
    match queueStep s.queue pc with
    | none => s
    | some (queue, .out, _) => { s with queue := queue, main := .looping }
    | some (queue, pc, _) => { s with queue := queue, main := .inserting pc }
  | .stopping status i pc =>
    match queueStep s.queue pc with
    | none => s
    | some (queue, .out, _) =>
      { s with
        queue := queue
        main := if i + 1 < stockWorkerCount then .pill status (i + 1) else .joining status 0 }
    | some (queue, pc, _) => { s with queue := queue, main := .stopping status i pc }
  | .joining status i =>
    if h : i < stockWorkerCount then
      if fails then { s with main := .joining status (i + 1) }
      else if s.returned ⟨i, h⟩ then
        { s with joined := Function.update s.joined ⟨i, h⟩ true, main := .joining status (i + 1) }
      else s
    else { s with main := .closing status }
  | .closing status => if fails then s.exit else { s with main := .stopped status }
  | .stopped status =>
    if status ≠ .ok then s.exit
    else { s with materialized := some s.pool.store, main := .published }
  | .published => s.exit

/-- The worker is in `conn_queue_remove`. -/
def Phase.isIdle : Phase → Bool
  | .idle => true
  | _ => false

/-- One action of a worker: of `conn_queue_remove`, after which it returns or serves the
connection, or of `handle_client`. -/
def serveStep (s : Server) (w : WorkerId) (closeFails : Bool) : Server × List (Event WorkerId) :=
  if s.returned w then (s, [])
  else if (s.pool.worker w).phase.isIdle then
    if s.removing w = .out then
      ({ s with removing := Function.update s.removing w .removeItems }, [])
    else match queueStep s.queue (s.removing w) with
      | none => (s, [])
      | some (queue, pc, _) =>
        let s' := { s with queue := queue, removing := Function.update s.removing w pc }
        match s.removing w with
        | .removePost connfd =>
          if connfd = stockQueueStop then
            ({ s' with returned := Function.update s.returned w true }, [])
          else ({ s' with pool := s.pool.move w ⟨s.conns connfd, .reading⟩ }, [])
        | _ => (s', [])
  else
    let next := workerStep s.pool w
    let s' := { s with pool := next.1 }
    if (next.1.worker w).phase.isIdle ∧ closeFails then (s'.exit, next.2) else (s', next.2)

/-- The call of `conn_queue_insert` or `conn_queue_remove` a thread is in. -/
def Server.queuePc (s : Server) : Option WorkerId → QueuePc
  | none =>
    match s.main with
    | .inserting pc | .stopping _ _ pc => pc
    | _ => .out
  | some w => if s.returned w ∨ (s.pool.worker w).phase.isIdle = false then .out else s.removing w

/-- The thread is blocked in `P`: its next action is a `P` on a semaphore of value 0. -/
def Server.Blocked (s : Server) (thread : Option WorkerId) : Prop :=
  s.queuePc thread ≠ .out ∧ (queueStep s.queue (s.queuePc thread)).isNone

instance (s : Server) (thread : Option WorkerId) : Decidable (s.Blocked thread) :=
  inferInstanceAs (Decidable (_ ∧ _))

/-- `request_shutdown` runs in a thread; a `P` in which the thread is blocked fails. -/
def signalStep (s : Server) (thread : Option WorkerId) : Server :=
  let s' := { s with shutdownRequested := true }
  if s.Blocked thread then s'.exit else s'

/-- One step of the process; nothing happens once it has ended. -/
def serverStep (s : Server) (input : ServerInput) : Server × List (Event WorkerId) :=
  if s.pool.exited then (s, [])
  else match input with
    | .main accepted fails => (mainStep s accepted fails, [])
    | .worker w closeFails => serveStep s w closeFails
    | .signal thread => (signalStep s thread, [])

/-- The process as a machine. -/
def server : Machine Server ServerInput (Event WorkerId) := ⟨serverStep⟩

/-- The process when all workers have been started: every worker is about to call
`conn_queue_remove`. -/
def serverStart (store : StockStore) (fds : ℕ → Int32) (conns : Int32 → Conn) (requested : Bool) :
    Server where
  pool := ⟨fun _ => ⟨⟨rioReadinitb [], []⟩, .idle⟩, none, store, [], false⟩
  queue := connQueueInit fds
  removing _ := .out
  returned _ := false
  joined _ := false
  conns := conns
  main := .looping
  shutdownRequested := requested
  materialized := none

/-! ## Endings -/

/-- All workers have returned and have been joined, and `materialize_store_generation` has been
called on the store as it is. -/
structure Orderly (s : Server) : Prop where
  joined : ∀ w, s.joined w = true ∧ s.returned w = true
  materialized : s.materialized = some s.pool.store

/-- No signal strikes a thread blocked in `P`, `accept` fails only with `EINTR`, and no other
system call that ends the process or a wait fails. -/
def Undisturbed (s : Server) : ServerInput → Prop
  | .main accepted fails =>
    fails = false ∧ (s.main = .accepting → accepted.connfd < 0 → accepted.eintr = true)
  | .worker w closeFails => closeFails = false ∧ ¬ IoFails s.pool w
  | .signal thread => ¬ s.Blocked thread

instance (s : Server) : (input : ServerInput) → Decidable (Undisturbed s input)
  | .main _ fails => inferInstanceAs (Decidable (fails = false ∧ (_ → _ → _ = true)))
  | .worker w closeFails => inferInstanceAs (Decidable (closeFails = false ∧ ¬ IoFails s.pool w))
  | .signal thread => inferInstanceAs (Decidable (¬ s.Blocked thread))

/-- **A signal that strikes a thread blocked in `P`** ends the process on the spot. -/
theorem signalStep_of_blocked {s : Server} {thread : Option WorkerId} (h : s.Blocked thread) :
    (signalStep s thread).pool.exited = true ∧ (signalStep s thread).joined = s.joined ∧
      (signalStep s thread).materialized = s.materialized := by
  simp [signalStep, h, Server.exit]

/-- A worker that neither reads nor writes a failing connection does not end the process. -/
theorem exited_workerStep {ι : Type} [DecidableEq ι] {s : Pool ι} {w : ι} (h : ¬ IoFails s w) :
    (workerStep s w).1.exited = s.exited := by
  by_cases hexited : s.exited = true
  · rw [workerStep, if_pos hexited]
  have halive : s.exited = false := by simpa using hexited
  unfold workerStep
  rw [if_neg hexited]
  cases hphase : (s.worker w).phase with
  | idle => dsimp only; split <;> rfl
  | reading =>
    have hread : (rioReadlineb (maxLine - 1) (s.worker w).conn.rio).1 ≠ none :=
      fun hnone => h ⟨halive, by rw [hphase]; exact hnone⟩
    rcases hr : rioReadlineb (maxLine - 1) (s.worker w).conn.rio with ⟨_ | _ | ⟨b, bs⟩, rio⟩
    · rw [hr] at hread; exact absurd rfl hread
    · simp only [hr]; rfl
    · simp only [hr]; rfl
  | parsing line => rfl
  | validating request => dsimp only; split_ifs <;> rfl
  | locking request => dsimp only; split <;> rfl
  | holding request critical => cases critical <;> rfl
  | formatting request status response => rfl
  | sending request status response =>
    have hsent : (rioWriten (s.worker w).conn.writes response.text).ok = true := by
      by_contra hfail
      exact h ⟨halive, by rw [hphase]; exact Bool.eq_false_of_not_eq_true hfail⟩
    simp only [hsent, ↓reduceIte]
    rfl

/-! ## The hand-over of the store -/

/-- What a phase of the main thread says about the workers that have been joined. -/
def MainPc.Passed (joined : WorkerId → Bool) : MainPc → Prop
  | .joining _ i => ∀ w : WorkerId, w.val < i → joined w = true
  | .closing _ | .stopped _ | .published => ∀ w, joined w = true
  | _ => True

/-- **The invariant of the hand-over**: a worker that has returned serves nobody, joined workers
have returned, the main thread has got past the joins only when all workers are joined, and it has
handed over the store as it still is. -/
structure HandOver (s : Server) : Prop where
  idle : ∀ w, s.returned w = true → (s.pool.worker w).phase.isIdle = true
  returned : ∀ w, s.joined w = true → s.returned w = true
  passed : s.main.Passed s.joined
  materialized : s.materialized = if s.main = .published then some s.pool.store else none

/-- `pthread_join` does not fail. -/
def JoinSucceeds (s : Server) : ServerInput → Prop
  | .main _ fails => s.main.isJoining = true → fails = false
  | _ => True

instance (s : Server) : (input : ServerInput) → Decidable (JoinSucceeds s input)
  | .main _ fails => inferInstanceAs (Decidable (_ = true → fails = false))
  | .worker _ _ | .signal _ => isTrue trivial

variable {s : Server}

/-- The main thread keeps the invariant of the hand-over. -/
theorem HandOver.mainStep (h : HandOver s) {accepted : Accepted} {fails : Bool}
    (hok : JoinSucceeds s (.main accepted fails)) : HandOver (mainStep s accepted fails) := by
  have hpassed := h.passed
  have hstore := h.materialized
  unfold StockServer.mainStep
  cases hpc : s.main <;> rw [hpc] at hpassed hstore <;> dsimp only
  case looping =>
    refine ⟨h.idle, h.returned, ?_, ?_⟩ <;> dsimp only <;> split_ifs
    all_goals trivial
  case accepting =>
    split_ifs <;> exact ⟨h.idle, h.returned, trivial, hstore⟩
  case inserting pc =>
    split
    · exact h
    all_goals exact ⟨h.idle, h.returned, trivial, hstore⟩
  case stopping status i pc =>
    split
    · exact h
    · refine ⟨h.idle, h.returned, ?_, ?_⟩ <;> dsimp only <;> split_ifs
      all_goals first | trivial | exact hstore | exact fun w hw => absurd hw (Nat.not_lt_zero _)
    · exact ⟨h.idle, h.returned, trivial, hstore⟩
  case joining status i =>
    obtain rfl : fails = false := hok (by rw [hpc]; rfl)
    simp only [Bool.false_eq_true, ↓reduceIte]
    split_ifs with hi hreturned
    · refine ⟨h.idle, fun w hw => ?_, fun w hw => ?_, hstore⟩ <;> dsimp only at hw ⊢
      · by_cases hwi : w = ⟨i, hi⟩
        · rw [hwi]; exact hreturned
        · rw [Function.update_of_ne hwi] at hw
          exact h.returned w hw
      · by_cases hwi : w = ⟨i, hi⟩
        · rw [hwi, Function.update_self]
        · rw [Function.update_of_ne hwi]
          exact hpassed w (lt_of_le_of_ne (Nat.lt_succ_iff.mp hw) fun heq => hwi (Fin.ext heq))
    · exact h
    · -- past the last worker
      refine ⟨h.idle, h.returned, fun w => hpassed w ?_, hstore⟩
      have := w.isLt
      omega
  case closing status =>
    split_ifs
    · exact ⟨h.idle, h.returned, by rw [Server.exit, hpc]; exact hpassed,
        by rw [Server.exit, hpc]; exact hstore⟩
    · exact ⟨h.idle, h.returned, hpassed, hstore⟩
  case stopped status =>
    split_ifs
    · exact ⟨h.idle, h.returned, by rw [Server.exit, hpc]; exact hpassed,
        by rw [Server.exit, hpc]; exact hstore⟩
    · exact ⟨h.idle, h.returned, hpassed, rfl⟩
  case published =>
    exact ⟨h.idle, h.returned, by rw [Server.exit, hpc]; exact hpassed,
      by rw [Server.exit, hpc]; exact hstore⟩

/-- What a worker leaves alone, and that a worker that has returned does nothing. -/
theorem serveStep_frame (s : Server) (w : WorkerId) (closeFails : Bool) :
    (serveStep s w closeFails).1.main = s.main ∧ (serveStep s w closeFails).1.joined = s.joined ∧
      (serveStep s w closeFails).1.materialized = s.materialized ∧
      (∀ v, s.returned v = true → (serveStep s w closeFails).1.returned v = true) ∧
      (s.returned w = true → (serveStep s w closeFails).1 = s) := by
  unfold serveStep
  split_ifs with hreturned hidle hout
  · exact ⟨rfl, rfl, rfl, fun _ h => h, fun _ => rfl⟩
  · exact ⟨rfl, rfl, rfl, fun _ h => h, fun h => absurd h hreturned⟩
  · split
    · exact ⟨rfl, rfl, rfl, fun _ h => h, fun _ => rfl⟩
    · dsimp only
      split
      · split_ifs
        · refine ⟨rfl, rfl, rfl, fun v hv => ?_, fun h => absurd h hreturned⟩
          dsimp only
          by_cases hvw : v = w
          · rw [hvw, Function.update_self]
          · rw [Function.update_of_ne hvw]; exact hv
        · exact ⟨rfl, rfl, rfl, fun _ h => h, fun h => absurd h hreturned⟩
      · exact ⟨rfl, rfl, rfl, fun _ h => h, fun h => absurd h hreturned⟩
  · dsimp only
    split_ifs <;> exact ⟨rfl, rfl, rfl, fun _ h => h, fun h => absurd h hreturned⟩

/-- A worker that has returned stays idle, and a worker returns only when it is idle. -/
theorem idle_serveStep (h : ∀ v, s.returned v = true → (s.pool.worker v).phase.isIdle = true)
    (w : WorkerId) (closeFails : Bool) : ∀ v, (serveStep s w closeFails).1.returned v = true →
      ((serveStep s w closeFails).1.pool.worker v).phase.isIdle = true := by
  intro v
  unfold serveStep
  split_ifs with hreturned hidle hout
  · exact h v
  · exact h v
  · split
    · exact h v
    · dsimp only
      split
      · split_ifs
        · -- the worker has taken a poison pill
          intro hv
          by_cases hvw : v = w
          · rw [hvw]; exact hidle
          · exact h v (by simpa [Function.update_of_ne hvw] using hv)
        · intro hv
          have hvw : v ≠ w := fun hvw => hreturned (hvw ▸ hv)
          dsimp only [Pool.move]
          rw [Function.update_of_ne hvw]
          exact h v hv
      · exact h v
  · obtain ⟨worker, hworker⟩ := workerStep_worker s.pool w
    dsimp only
    intro hv
    have hvw : v ≠ w := by
      rintro rfl
      apply hreturned
      split_ifs at hv <;> exact hv
    split_ifs at hv ⊢ <;> dsimp only [Server.exit] at hv ⊢ <;>
      rw [hworker, Function.update_of_ne hvw] <;> exact h v hv

/-- A worker keeps the invariant of the hand-over. -/
theorem HandOver.serveStep (h : HandOver s) (w : WorkerId) (closeFails : Bool) :
    HandOver (serveStep s w closeFails).1 := by
  obtain ⟨hmain, hjoined, hmaterialized, hreturned, hsame⟩ := serveStep_frame s w closeFails
  by_cases hw : s.returned w = true
  · rwa [hsame hw]
  -- a worker still runs, so the main thread has not joined them all
  have hnot : s.main ≠ .published := by
    intro hpc
    have hpassed := h.passed
    rw [hpc] at hpassed
    exact hw (h.returned w (hpassed w))
  refine ⟨idle_serveStep h.idle w closeFails, fun v hv => ?_, ?_, ?_⟩
  · rw [hjoined] at hv
    exact hreturned v (h.returned v hv)
  · rw [hmain, hjoined]
    exact h.passed
  · rw [hmaterialized, h.materialized, hmain, if_neg hnot, if_neg hnot]

/-- **Every step in which no join fails keeps the invariant of the hand-over.** -/
theorem HandOver.step (h : HandOver s) {input : ServerInput} (hok : JoinSucceeds s input) :
    HandOver (serverStep s input).1 := by
  unfold serverStep
  split_ifs with hexited
  · exact h
  cases input with
  | main accepted fails => exact h.mainStep hok
  | worker w closeFails => exact h.serveStep w closeFails
  | signal thread =>
    dsimp only
    unfold StockServer.signalStep
    dsimp only
    split_ifs <;> exact ⟨h.idle, h.returned, h.passed, h.materialized⟩

/-- The invariant of the hand-over holds when the workers have been started. -/
theorem HandOver.start (store : StockStore) (fds : ℕ → Int32) (conns : Int32 → Conn)
    (requested : Bool) : HandOver (serverStart store fds conns requested) where
  idle _ _ := rfl
  returned _ hw := by cases hw
  passed := trivial
  materialized := rfl

/-! ## Endings in order -/

/-- No call has failed so far: the status that the main thread will return is `STOCK_OK`. -/
def MainPc.AllOk : MainPc → Prop
  | .stopping status _ _ | .joining status _ | .closing status | .stopped status => status = .ok
  | _ => True

/-- **The invariant of an undisturbed process**: the store is handed over in order, no call has
failed, and the process ends only when the store has been published. -/
structure ShutdownInv (s : Server) : Prop where
  handOver : HandOver s
  allOk : s.main.AllOk
  exited : s.pool.exited = true → s.main = .published

/-- Undisturbed joins succeed. -/
theorem Undisturbed.joinSucceeds {input : ServerInput} (h : Undisturbed s input) :
    JoinSucceeds s input := by
  cases input with
  | main accepted fails => exact fun _ => h.1
  | worker w closeFails => trivial
  | signal thread => trivial

/-- In an undisturbed process the main thread goes on with `STOCK_OK`, and ends the process only
when the store has been published. -/
theorem allOk_mainStep (h : s.main.AllOk) (hrun : s.pool.exited = false) {accepted : Accepted}
    {fails : Bool} (hok : Undisturbed s (.main accepted fails)) :
    (mainStep s accepted fails).main.AllOk ∧
      ((mainStep s accepted fails).pool.exited = true →
        (mainStep s accepted fails).main = .published) := by
  obtain ⟨rfl, haccept⟩ := hok
  have hnot : ∀ {P : Prop}, s.pool.exited = true → P := fun ht => by rw [hrun] at ht; cases ht
  unfold StockServer.mainStep
  cases hpc : s.main <;> rw [hpc] at h <;> dsimp only
  case looping =>
    refine ⟨?_, hnot⟩
    split_ifs <;> trivial
  case accepting =>
    split_ifs with hneg heintr
    · exact ⟨trivial, hnot⟩
    · exact absurd (haccept hpc hneg) heintr
    · exact ⟨trivial, hnot⟩
  case inserting pc =>
    split
    · exact ⟨by rw [hpc]; trivial, hnot⟩
    all_goals exact ⟨trivial, hnot⟩
  case stopping status i pc =>
    split
    · exact ⟨by rw [hpc]; exact h, hnot⟩
    · refine ⟨?_, hnot⟩
      dsimp only
      split_ifs <;> exact h
    · exact ⟨h, hnot⟩
  case joining status i =>
    simp only [Bool.false_eq_true, ↓reduceIte]
    split_ifs
    · exact ⟨h, hnot⟩
    · exact ⟨by rw [hpc]; exact h, hnot⟩
    · exact ⟨h, hnot⟩
  case closing status => exact ⟨h, hnot⟩
  case stopped status =>
    have hstatus : status = .ok := h
    simp only [hstatus, ne_eq, not_true_eq_false, ↓reduceIte]
    exact ⟨trivial, hnot⟩
  case published => exact ⟨by rw [Server.exit, hpc]; trivial, fun _ => by rw [Server.exit, hpc]⟩

/-- A worker whose calls succeed does not end the process. -/
theorem exited_serveStep {w : WorkerId} {closeFails : Bool}
    (hok : Undisturbed s (.worker w closeFails)) :
    (serveStep s w closeFails).1.pool.exited = s.pool.exited := by
  obtain ⟨rfl, hio⟩ := hok
  unfold serveStep
  split_ifs with hreturned hidle hout
  · rfl
  · rfl
  · split
    · rfl
    · dsimp only
      split
      · split_ifs <;> rfl
      · rfl
  · simpa using exited_workerStep hio

/-- The invariant holds when the workers have been started. -/
theorem ShutdownInv.start (store : StockStore) (fds : ℕ → Int32) (conns : Int32 → Conn)
    (requested : Bool) : ShutdownInv (serverStart store fds conns requested) where
  handOver := .start store fds conns requested
  allOk := trivial
  exited he := by cases he

/-- **Every undisturbed step keeps the invariant.** -/
theorem ShutdownInv.step (h : ShutdownInv s) {input : ServerInput} (hok : Undisturbed s input) :
    ShutdownInv (serverStep s input).1 := by
  by_cases hexited : s.pool.exited = true
  · have hstep : serverStep s input = (s, []) := if_pos hexited
    rwa [hstep]
  have hrun : s.pool.exited = false := by simpa using hexited
  have hnot : ∀ {P : Prop}, s.pool.exited = true → P := fun ht => absurd ht hexited
  have hmain : (serverStep s input).1.main.AllOk ∧
      ((serverStep s input).1.pool.exited = true → (serverStep s input).1.main = .published) := by
    unfold serverStep
    rw [if_neg hexited]
    cases input with
    | main accepted fails => exact allOk_mainStep h.allOk hrun hok
    | worker w closeFails =>
      obtain ⟨hmain, -⟩ := serveStep_frame s w closeFails
      dsimp only
      rw [hmain, exited_serveStep hok]
      exact ⟨h.allOk, hnot⟩
    | signal thread =>
      have hstep : signalStep s thread = { s with shutdownRequested := true } := if_neg hok
      dsimp only
      rw [hstep]
      exact ⟨h.allOk, hnot⟩
  exact ⟨h.handOver.step hok.joinSucceeds, hmain.1, hmain.2⟩

/-- What the invariant says of a process that has ended. -/
theorem ShutdownInv.orderly (h : ShutdownInv s) (hexited : s.pool.exited = true) : Orderly s := by
  have hmain : s.main = .published := h.exited hexited
  have hpassed := h.handOver.passed
  have hstore := h.handOver.materialized
  rw [hmain] at hpassed hstore
  exact ⟨fun w => ⟨hpassed w, h.handOver.returned w (hpassed w)⟩, hstore⟩

/-- **An undisturbed process ends only in order.**  In every run from the start of the workers in
which no signal strikes a thread blocked in `P` and no `accept` or wrapped call fails: whenever the
process has ended, all workers have been joined and the final store has been handed to
`materialize_store_generation`. -/
theorem orderly_of_undisturbed (store : StockStore) (fds : ℕ → Int32) (conns : Int32 → Conn)
    (requested : Bool) (inputs : List ServerInput)
    (h : server.Meets Undisturbed (serverStart store fds conns requested) inputs)
    (hexited : (server.run (serverStart store fds conns requested) inputs).1.pool.exited = true) :
    Orderly (server.run (serverStart store fds conns requested) inputs).1 :=
  (@Machine.run_induction_meets _ _ _ server Undisturbed (fun s _ => ShutdownInv s) _
    (.start store fds conns requested) (fun _ _ _ hok hs => hs.step hok) inputs h).orderly hexited

/-- A phase of the main thread on the way out after a failed `accept`, the store unpublished. -/
def MainPc.Failed : MainPc → Prop
  | .stopping status _ _ | .joining status _ | .closing status | .stopped status => status ≠ .ok
  | _ => False

/-- After a failed `accept` the main thread stays on its way out and publishes nothing. -/
theorem failed_mainStep (h : s.main.Failed) (accepted : Accepted) (fails : Bool) :
    (mainStep s accepted fails).main.Failed ∧
      (mainStep s accepted fails).materialized = s.materialized := by
  unfold mainStep
  cases hpc : s.main <;> rw [hpc] at h
  case stopping status i pc =>
    dsimp only
    split
    · exact ⟨hpc ▸ h, rfl⟩
    · dsimp only
      split_ifs <;> exact ⟨h, rfl⟩
    · exact ⟨h, rfl⟩
  case joining status i =>
    dsimp only
    split_ifs
    all_goals first | exact ⟨h, rfl⟩ | exact ⟨hpc ▸ h, rfl⟩
  case closing status =>
    dsimp only
    split_ifs
    · exact ⟨by rw [Server.exit, hpc]; exact h, rfl⟩
    · exact ⟨h, rfl⟩
  case stopped status =>
    have hstatus : status ≠ .ok := h
    dsimp only
    rw [if_pos hstatus]
    exact ⟨by rw [Server.exit, hpc]; exact h, rfl⟩
  all_goals exact h.elim

/-- **After a failed `accept` the store is never published**, whatever the run does. -/
theorem materialized_of_failed (h : s.main.Failed) (hnone : s.materialized = none)
    (inputs : List ServerInput) : (server.run s inputs).1.materialized = none := by
  have hrun := @Machine.run_induction _ _ _ server
    (fun s _ => s.main.Failed ∧ s.materialized = none) s ⟨h, hnone⟩
    (fun s' _ input hs => by
      dsimp only [server, serverStep]
      split_ifs
      · exact hs
      cases input with
      | main accepted fails =>
        obtain ⟨hmain, hmaterialized⟩ := failed_mainStep hs.1 accepted fails
        exact ⟨hmain, hmaterialized.trans hs.2⟩
      | worker w closeFails =>
        obtain ⟨hmain, -, hmaterialized, -, -⟩ := serveStep_frame s' w closeFails
        dsimp only
        rw [hmain, hmaterialized]
        exact hs
      | signal thread =>
        dsimp only [signalStep]
        split_ifs <;> exact hs) inputs
  exact hrun.2

/-- A call of `accept` that was interrupted. -/
def interruptedAccept : Accepted := ⟨-1, true, ⟨rioReadinitb [], []⟩⟩

/-- A server in which a signal has come, or not, when the workers have been started. -/
def idleServer (requested : Bool) : Server :=
  serverStart .nil (fun _ => 0) (fun _ => ⟨rioReadinitb [], []⟩) requested

/-- The main thread inserts the poison pills, the workers take them one after the other, and the
main thread joins them, publishes the store and returns. -/
def cleanShutdown : List ServerInput :=
  List.replicate 49 (.main interruptedAccept false) ++
    (List.finRange stockWorkerCount).flatMap (fun w => List.replicate 7 (.worker w false)) ++
    List.replicate 12 (.main interruptedAccept false)

/-- The process that has been asked to stop before its first connection ends in order. -/
theorem orderly_of_undisturbed_cleanShutdown :
    Orderly (server.run (idleServer true) cleanShutdown).1 :=
  orderly_of_undisturbed .nil (fun _ => 0) (fun _ => ⟨rioReadinitb [], []⟩) true cleanShutdown
    (by decide +kernel) (by decide +kernel)

/-- Worker 0 waits in `conn_queue_remove` for a connection when it is handed a `SIGTERM`: the
process ends, no worker has been joined and the store is not published. -/
theorem idleServer_not_orderly :
    let s := (server.run (idleServer false) [.worker 0 false, .signal (some 0)]).1
    s.pool.exited = true ∧ s.joined 0 = false ∧ s.materialized = none ∧ ¬ Orderly s := by
  refine ⟨rfl, rfl, rfl, fun h => ?_⟩
  have hjoined := (h.joined 0).1
  cases hjoined

end StockServer
